import TaskBasic.Toml.Mistake

/-
Text literals of settings.

A text stands in one or three marks of one kind.  Between double quotation
marks backslashes escape; between three marks lines may end.
-/

namespace TaskBasic.Toml

structure Literal where
  mark : Char
  multiline : Bool
deriving Repr, DecidableEq

/-- Which part of a literal comes next. -/
inductive Part
  /-- Characters, behind a number of marks that may end the literal. -/
  | plain (marks : Nat)
  | escape (start : List Char)
  /-- The hexadecimal digits of a character: how many there are and how many are missing, the
  value of the others, and the text from the first one on. -/
  | code (count missing value : Nat) (start : List Char)
  /-- White space that a backslash has taken out, with the text behind its first character,
  and whether a line has ended. -/
  | gap (start : List Char) (ended : Bool)

/-- What reading one character of a literal leads to. -/
inductive Part.Step
  | next (part : Part) (reversed : List Char)
  | done (outcome : Except Mistake (String × List Char))

/-- The characters that stand for themselves in literals and in comments. -/
def isPrintable (c : Char) : Bool :=
  c == '\t' || (decide (0x20 ≤ c.toNat) && c.toNat != 0x7f)

def escaped? : Char → Option Char
  | 'b' => some '\x08'
  | 'f' => some '\x0c'
  | 'n' => some '\n'
  | 'r' => some '\r'
  | 't' => some '\t'
  | '\\' => some '\\'
  | '"' => some '"'
  | _ => none

def hexDigit? (c : Char) : Option Nat :=
  if c.isDigit then some (c.toNat - '0'.toNat)
  else if 'a'.toNat ≤ c.toNat ∧ c.toNat ≤ 'f'.toNat then some (c.toNat - 'a'.toNat + 10)
  else if 'A'.toNat ≤ c.toNat ∧ c.toNat ≤ 'F'.toNat then some (c.toNat - 'A'.toNat + 10)
  else none

/-- The mistake of a backslash before a character that it cannot escape. -/
def badEscape (rest : List Char) : Mistake :=
  { rest := rest, subject := some "escape sequence"
    expected := ["`b`", "`f`", "`n`", "`r`", "`t`", "`u`", "`U`", "`\\`", "`\"`"] }

/-- The mistake of too few hexadecimal digits, or of digits that denote no character. -/
def badCode (count : Nat) (rest : List Char) (cause : Option String) : Mistake :=
  { rest := rest, subject := some ("unicode " ++ toString count ++ "-digit hex code"),
    cause := cause }

namespace Literal

def name (l : Literal) : String :=
  (if l.multiline then "multiline " else "") ++
    (if l.mark == '"' then "basic string" else "literal string")

def unclosed (l : Literal) (rest : List Char) : Mistake :=
  { rest := rest, subject := some l.name }

/-- The end of a literal: its text, and what follows. -/
def close (reversed rest : List Char) : Part.Step :=
  .done (.ok (String.ofList reversed.reverse, rest))

/-- Reads a character that is not escaped, behind `marks` marks. -/
def plainStep (l : Literal) (marks : Nat) (reversed : List Char) (c : Char) (cs : List Char) :
    Part.Step :=
  let kept (n : Nat) : List Char := List.replicate n l.mark ++ reversed
  if c == l.mark then
    if !l.multiline then close reversed cs
    else if marks = 4 then close (kept 2) cs
    else .next (.plain (marks + 1)) reversed
  else if 3 ≤ marks then close (kept (marks - 3)) (c :: cs)
  else if c == '\\' && l.mark == '"' then .next (.escape (c :: cs)) (kept marks)
  else if l.multiline && c == '\r' && cs.head? == some '\n' then .next (.plain 0) (kept marks)
  else if isPrintable c || (l.multiline && c == '\n') then .next (.plain 0) (c :: kept marks)
  else .done (.error (l.unclosed (c :: cs)))

def escapeStep (l : Literal) (reversed : List Char) (c : Char) (cs : List Char) : Part.Step :=
  match escaped? c with
  | some e => .next (.plain 0) (e :: reversed)
  | none =>
    if c == 'u' then .next (.code 4 4 0 cs) reversed
    else if c == 'U' then .next (.code 8 8 0 cs) reversed
    else if l.multiline && (c == ' ' || c == '\t' || (c == '\r' && cs.head? == some '\n')) then
      .next (.gap cs false) reversed
    else if l.multiline && c == '\n' then .next (.gap cs true) reversed
    else .done (.error (badEscape (if c.utf8Size = 1 then cs else c :: cs)))

def step (l : Literal) (part : Part) (reversed : List Char) (c : Char) (cs : List Char) :
    Part.Step :=
  match part with
  | .plain marks => l.plainStep marks reversed c cs
  | .escape _ => l.escapeStep reversed c cs
  | .code count missing value start =>
    match hexDigit? c with
    | none => .done (.error (badCode count start none))
    | some d =>
      let value := 16 * value + d
      if 1 < missing then .next (.code count (missing - 1) value start) reversed
      else if value.isValidChar then .next (.plain 0) (Char.ofNat value :: reversed)
      else .done (.error (badCode count start (some "value is out of range")))
  | .gap start ended =>
    if c == ' ' || c == '\t' || (c == '\r' && cs.head? == some '\n') then
      .next (.gap start ended) reversed
    else if c == '\n' then .next (.gap start true) reversed
    else if ended then l.plainStep 0 reversed c cs
    else .done (.error (badEscape start))

/-- What the end of the text means for a literal. -/
def atEnd (l : Literal) (part : Part) (reversed : List Char) :
    Except Mistake (String × List Char) :=
  match part with
  | .plain marks =>
    if 3 ≤ marks then
      .ok (String.ofList (List.replicate (marks - 3) l.mark ++ reversed).reverse, [])
    else .error (l.unclosed (List.replicate marks l.mark))
  | .escape start => .error (l.unclosed start)
  | .code count _ _ start => .error (badCode count start none)
  | .gap start ended => .error (if ended then l.unclosed [] else badEscape start)

/-- Reads the rest of a literal: its text, and what follows. -/
def readFrom (l : Literal) (part : Part) (reversed : List Char) :
    List Char → Except Mistake (String × List Char)
  | [] => l.atEnd part reversed
  | c :: cs =>
    match l.step part reversed c cs with
    | .next part reversed => l.readFrom part reversed cs
    | .done outcome => outcome

/-- Reads a literal in one line, behind the mark that opens it. -/
def readLine (mark : Char) (cs : List Char) : Except Mistake (String × List Char) :=
  readFrom ⟨mark, false⟩ (.plain 0) [] cs

/-- Reads a literal of any kind, behind the mark that opens it.  The line feed that a literal
in several lines begins with does not count. -/
def read (mark : Char) (cs : List Char) : Except Mistake (String × List Char) :=
  if [mark, mark].isPrefixOf cs then
    let cs := cs.drop 2
    let body := if ['\n'].isPrefixOf cs then cs.drop 1
      else if ['\r', '\n'].isPrefixOf cs then cs.drop 2 else cs
    readFrom ⟨mark, true⟩ (.plain 0) [] body
  else readLine mark cs

end Literal

end TaskBasic.Toml
