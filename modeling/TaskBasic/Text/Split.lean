/-
Splitting a text at a character.
-/

namespace TaskBasic.Text

/-- The parts of a text between separators; `part` is the part being read and `found` the
parts before it, last character and last part first. -/
def splitFrom (separator : Char) (part : List Char) (found : List String) :
    List Char → List String
  | [] => (String.ofList part.reverse :: found).reverse
  | c :: cs =>
    if c == separator then splitFrom separator [] (String.ofList part.reverse :: found) cs
    else splitFrom separator (c :: part) found cs

def split (separator : Char) (s : String) : List String :=
  splitFrom separator [] [] s.toList

/-- The lines of a text, each with the line feed that ends it; `line` is the line being read
and `found` the lines before it, last character and last line first. -/
def linesFrom (line : List Char) (found : List String) : List Char → List String
  | [] => (if line.isEmpty then found else String.ofList line.reverse :: found).reverse
  | c :: cs =>
    if c == '\n' then linesFrom [] (String.ofList (c :: line).reverse :: found) cs
    else linesFrom (c :: line) found cs

def lines (s : String) : List String :=
  linesFrom [] [] s.toList

/-- The characters of a line, last one first, without the line feed that ends it and the
carriage return in front of that. -/
def dropLineEnd : List Char → List Char
  | '\n' :: '\r' :: cs => cs
  | '\n' :: cs => cs
  | cs => cs

/-- The lines of a text without the characters that end them. -/
def lineTexts (s : String) : List String :=
  (lines s).map fun line => String.ofList (dropLineEnd line.toList.reverse).reverse

/-- The text before and the text after the first separator. -/
def splitOnce? (separator : Char) (s : String) : Option (String × String) :=
  match s.toList.dropWhile (· != separator) with
  | [] => none
  | _ :: after =>
    some (String.ofList (s.toList.takeWhile (· != separator)), String.ofList after)

def contains (part : List Char) : List Char → Bool
  | [] => part.isEmpty
  | c :: cs => part.isPrefixOf (c :: cs) || contains part cs

end TaskBasic.Text
