import TaskBasic.Text.Split

/-
Paths.

A path is a text whose parts are separated by slashes.  Empty parts do not
count, nor do parts `.` that do not stand at the beginning; two paths are the
same if their remaining parts are.
-/

namespace TaskBasic.Path

def parts (path : String) : List String :=
  Text.split '/' path

def isAbsolute (path : String) : Bool :=
  path.toList.head? == some '/'

/-- The components of a path, by which paths are compared. -/
def components (path : String) : List String :=
  let counted := (parts path).filter fun p => !p.isEmpty && p != "."
  if isAbsolute path then "/" :: counted
  else if (parts path).head? == some "." then "." :: counted
  else counted

def same (a b : String) : Bool :=
  components a == components b

def join (base request : String) : String :=
  if isAbsolute request then request
  else if base.isEmpty || base.toList.getLast? == some '/' then base ++ request
  else base ++ "/" ++ request

/-- The parts of a path up to its file name, last one first. -/
def upToName (path : String) : List String :=
  (parts path).reverse.dropWhile fun p => p.isEmpty || p == "."

def fileName? (path : String) : Option String :=
  match upToName path with
  | [] => none
  | name :: _ => if name == ".." then none else some name

/-- Whether a file name has an extension: a dot that is not its first character. -/
def hasExtension (name : String) : Bool :=
  (name.toList.drop 1).contains '.'

def withExtension (path extension : String) : String :=
  match fileName? path with
  | none => path
  | some name =>
    if hasExtension name then path
    else
      let stem := "/".intercalate (upToName path).reverse
      if extension.isEmpty then stem else stem ++ "." ++ extension

def ofParts (parts : List String) : String :=
  if parts.isEmpty then "/" else "/" ++ "/".intercalate parts

def directory (path : String) : String :=
  ofParts ((parts path).filter fun p => !p.isEmpty).dropLast

end TaskBasic.Path
