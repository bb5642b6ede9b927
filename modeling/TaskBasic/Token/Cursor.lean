import TaskBasic.Text.Slice
import TaskBasic.Token.Scan

/-
Reading a token sequence.

A `Parse` reads tokens from a `Cursor` and gives a result or a syntax error.
The last token is the end of the text; a cursor that has come to it stays
there.
-/

namespace TaskBasic

inductive SyntaxCause
  | scan (cause : ScanError)
  /-- Something else stands where `wanted` has to be. -/
  | expected (wanted : String) (found : TokenKind)
  | spawnWithoutCall
  | invalidTarget
  /-- A `next` names another variable than its loop. -/
  | nextMismatch (wanted found : String)
  | duplicateDefault
  /-- The text is nested more deeply than its length allows, which does not happen. -/
  | tooDeep

def SyntaxCause.message : SyntaxCause → String
  | scan cause => cause.message
  | expected wanted found => "Expected " ++ wanted ++ ", found " ++ found.describe
  | spawnWithoutCall => "spawn requires a function call"
  | invalidTarget => "Invalid assignment target"
  | nextMismatch wanted found =>
    "Mismatched FOR/NEXT variable. Expected '" ++ wanted ++ "', found '" ++ found ++ "'"
  | duplicateDefault => "Duplicate 'default' in switch"
  | tooDeep => "Nesting too deep"

structure SyntaxError where
  line : Nat
  cause : SyntaxCause

structure Cursor where
  /-- The text that the tokens come from. -/
  source : String
  /-- The token before the place. -/
  previous : Token
  /-- The token behind the place. -/
  current : Token
  /-- The tokens behind `current`. -/
  rest : List Token

namespace Cursor

/-- The place before the first token of a text whose first line has the number `line`. -/
def ofText (source : String) (line : Nat) : Cursor :=
  let start : Token := ⟨.eof, 0, 0, line⟩
  match tokens source line with
  | [] => ⟨source, start, start, []⟩
  | first :: rest => ⟨source, start, first, rest⟩

def advance (c : Cursor) : Cursor :=
  match c.rest with
  | [] => { c with previous := c.current }
  | next :: rest => { c with previous := c.current, current := next, rest := rest }

def unexpected (c : Cursor) (wanted : String) : SyntaxError :=
  match c.current.kind with
  | .error cause => ⟨c.current.line, .scan cause⟩
  | found => ⟨c.current.line, .expected wanted found⟩

end Cursor

abbrev Parse := StateT Cursor (Except SyntaxError)

namespace Parse

def kind : Parse TokenKind := do
  return (← get).current.kind

def line : Parse Nat := do
  return (← get).current.line

def advance : Parse Unit :=
  modify Cursor.advance

def unexpected {α : Type} (wanted : String) : Parse α := do
  throw ((← get).unexpected wanted)

def fail {α : Type} (line : Nat) (cause : SyntaxCause) : Parse α :=
  throw ⟨line, cause⟩

def atKeyword (k : Keyword) : Parse Bool := do
  return (← kind).isKeyword k

def atMark (m : Mark) : Parse Bool := do
  return (← kind).isMark m

/-- Passes over the keyword `k` if it stands here. -/
def acceptKeyword (k : Keyword) : Parse Bool := do
  if ← atKeyword k then
    advance
    return true
  else return false

def acceptMark (m : Mark) : Parse Bool := do
  if ← atMark m then
    advance
    return true
  else return false

/-- Passes over the keyword `k`, which has to stand here. -/
def expectKeyword (k : Keyword) (wanted : String) : Parse Unit := do
  if ← acceptKeyword k then return () else unexpected wanted

def expectMark (m : Mark) (wanted : String) : Parse Unit := do
  if ← acceptMark m then return () else unexpected wanted

def expectName : Parse String := do
  match ← kind with
  | .name s =>
    advance
    return s
  | _ => unexpected "an identifier"

/-- Whether a statement can end here. -/
def atTerminator : Parse Bool := do
  match ← kind with
  | .newline | .eof | .mark .colon => return true
  | _ => return false

def atEof : Parse Bool := do
  return (← kind).isEof

end Parse

end TaskBasic
