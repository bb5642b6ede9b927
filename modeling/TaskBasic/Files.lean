import TaskBasic.Files.Path

/-
Files and directories.

`Files` holds the contents of all files and the directories that there are.
Paths are followed part by part from the root or from the current directory.
A name has at most 255 bytes, and a path by which a file is opened fewer than
4096.
-/

namespace TaskBasic

inductive FileError
  | notFound | notADirectory | isADirectory | nameTooLong
  /-- The path holds the character with the code 0. -/
  | zeroCharacter
deriving Repr, DecidableEq

def FileError.message : FileError → String
  | notFound => "No such file or directory (os error 2)"
  | notADirectory => "Not a directory (os error 20)"
  | isADirectory => "Is a directory (os error 21)"
  | nameTooLong => "File name too long (os error 36)"
  | zeroCharacter => "file name contained an unexpected NUL byte"

/-- The files and directories that there are, by the parts of their paths from the root. -/
structure Files where
  contents : List (List String × String) := []
  directories : List (List String) := []
  current : List String := []

namespace Files

def content? (fs : Files) (parts : List String) : Option String :=
  fs.contents.lookup parts

def isDirectory (fs : Files) (parts : List String) : Bool :=
  parts.isEmpty || fs.directories.contains parts

/-- The greatest number of bytes of a name. -/
def longestName : Nat := 255

/-- The number of bytes from which on a path does not open a file. -/
def pathLimit : Nat := 4096

def follow (fs : Files) (place : List String) : List String → Except FileError (List String)
  | [] => .ok place
  | part :: rest =>
    if !fs.isDirectory place then .error .notADirectory
    else if part.isEmpty || part == "." then fs.follow place rest
    else if part == ".." then fs.follow place.dropLast rest
    else if longestName < part.utf8ByteSize then .error .nameTooLong
    else
      let next := place ++ [part]
      if fs.isDirectory next || (fs.content? next).isSome then fs.follow next rest
      else .error .notFound

/-- The parts of the file or directory that a path of any length leads to. -/
def locate (fs : Files) (path : String) : Except FileError (List String) :=
  if path.toList.any (·.toNat == 0) then .error .zeroCharacter
  else if path.isEmpty then .error .notFound
  else fs.follow (if Path.isAbsolute path then [] else fs.current) (Path.parts path)

/-- The parts of the file or directory that a path opens. -/
def find (fs : Files) (path : String) : Except FileError (List String) :=
  if pathLimit ≤ path.utf8ByteSize ∧ path.toList.all (·.toNat != 0) then .error .nameTooLong
  else fs.locate path

def canonical (fs : Files) (path : String) : Except FileError String :=
  (fs.locate path).map Path.ofParts

def read (fs : Files) (path : String) : Except FileError String := do
  let place ← fs.find path
  match fs.content? place with
  | some text => return text
  | none => throw .isADirectory

def addDirectory (fs : Files) (parts : List String) : Files :=
  let around := (List.range (parts.length + 1)).map fun n => parts.take n
  let missing := around.filter fun p => !fs.isDirectory p
  { fs with directories := missing ++ fs.directories }

def write (fs : Files) (parts : List String) (text : String) : Files :=
  let fs := fs.addDirectory parts.dropLast
  { fs with contents := (parts, text) :: fs.contents.filter fun (p, _) => p != parts }

def delete (fs : Files) (parts : List String) : Files :=
  { fs with contents := fs.contents.filter fun (p, _) => p != parts }

/-- The module file that an import request leads to from the directory `base`: a request
without an extension gets `extension`. -/
def resolve (fs : Files) (base request extension : String) : Except FileError String :=
  fs.canonical (Path.withExtension (Path.join base request) extension)

end Files

end TaskBasic
