import TaskBasic.Text.Slice
import TaskBasic.Text.Split

/-
Mistakes in the text of settings, and how they are shown.

A mistake is shown with the line it stands in and marks below the place.
-/

namespace TaskBasic.Toml

/-- Why a text is no document, or does not go on as a document. -/
structure Mistake where
  /-- The text from the mistake on. -/
  rest : List Char
  subject : Option String := none
  /-- What could stand there instead. -/
  expected : List String := []
  cause : Option String := none
  /-- Whether no other way to read the text is left. -/
  isFinal : Bool := true
deriving Repr, DecidableEq

/-- A mistake in one line per part. -/
def Mistake.message (m : Mistake) : String :=
  let subject := m.subject.map ("invalid " ++ ·)
  let expected := if m.expected.isEmpty then none
    else some ("expected " ++ ", ".intercalate m.expected)
  "\n".intercalate ([subject, expected, m.cause].filterMap id)

/-- A mistake with the stretch of text that it concerns, in bytes. -/
structure Complaint where
  start : Nat
  stop : Nat
  message : String
deriving Repr, DecidableEq

def byteSize (cs : List Char) : Nat :=
  cs.foldl (fun n c => n + c.utf8Size) 0

/-- The complaint about a stretch of text, given by what follows its ends. -/
def Complaint.about (source : String) (start stop : List Char) (message : String) : Complaint :=
  let size := byteSize source.toList
  ⟨size - byteSize start, size - byteSize stop, message⟩

/-- The complaint about a mistake: it concerns one character. -/
def Mistake.complaint (m : Mistake) (source : String) : Complaint :=
  .about source m.rest (m.rest.drop 1) m.message

namespace Complaint

/-- The characters before the complaint, the last character apart if it comes at the end. -/
def before (c : Complaint) (source : String) : List Char :=
  if c.start < byteSize source.toList then Text.takeBytes c.start source.toList
  else source.toList.dropLast

def lineBefore (c : Complaint) (source : String) : List Char :=
  ((c.before source).reverse.takeWhile (· != '\n')).reverse

/-- The number of its line, from 0. -/
def line (c : Complaint) (source : String) : Nat :=
  (c.before source).count '\n'

/-- The number of characters before it, and of bytes before a character of several bytes. -/
def column (c : Complaint) (source : String) : Nat :=
  match Text.dropBytes c.start source.toList with
  | [] => (c.lineBefore source).length + (if source.isEmpty then 0 else 1)
  | here :: _ =>
    if here.utf8Size = 1 then (c.lineBefore source).length else byteSize (c.lineBefore source)

def text (c : Complaint) (source : String) : String :=
  let line := c.line source
  let column := c.column source
  let content := ((Text.split '\n' source)[line]?).getD ""
  let number := toString (line + 1)
  let margin := String.ofList (List.replicate (number.length + 1) ' ') ++ "|"
  let room := content.utf8ByteSize - column
  let size := c.stop - c.start
  let marks := if size < room then size else room
  "TOML parse error at line " ++ number ++ ", column " ++ toString (column + 1) ++ "\n"
    ++ margin ++ "\n"
    ++ number ++ " | " ++ content ++ "\n"
    ++ margin ++ String.ofList (List.replicate (column + 1) ' ')
    ++ String.ofList (List.replicate (1 + (marks - 1)) '^') ++ "\n"
    ++ c.message ++ "\n"

end Complaint

end TaskBasic.Toml
