import TaskBasic.Prompt.Command
import TaskBasic.Text.Split

/-
When an entry is complete.

An entry goes on in the next line as long as a bracket, a text literal or a
block is open, or if it ends in a character that something has to follow.
What is complete is judged by the look of the lines alone.
-/

namespace TaskBasic.Prompt

/-- What a character of an entry belongs to. -/
inductive Context
  | code
  | comment
  | quoted (quote : Char)
  /-- A character behind a backslash in a text literal. -/
  | escaped (quote : Char)
deriving Repr, DecidableEq

def closing? : Char → Option Char
  | '(' => some ')'
  | '[' => some ']'
  | '\x7b' => some '\x7d'
  | _ => none

def isClosing (c : Char) : Bool :=
  c == ')' || c == ']' || c == '\x7d'

/-- Whether the rest of an entry closes all that is open.  `expected` holds the closing
brackets of the open ones, innermost first.  A wrong closing bracket leaves nothing open, as
no further line could mend it. -/
def balancedFrom : Context → (expected : List Char) → List Char → Bool
  | .code, expected, [] | .comment, expected, [] => expected.isEmpty
  | .quoted _, _, [] | .escaped _, _, [] => false
  | .escaped quote, expected, _ :: cs => balancedFrom (.quoted quote) expected cs
  | .quoted quote, expected, c :: cs =>
    if c == '\\' then balancedFrom (.escaped quote) expected cs
    else if c == quote then balancedFrom .code expected cs
    else balancedFrom (.quoted quote) expected cs
  | .comment, expected, c :: cs =>
    balancedFrom (if c == '\n' then .code else .comment) expected cs
  | .code, expected, c :: cs =>
    if c == '"' || c == '\'' then balancedFrom (.quoted c) expected cs
    else if c == '/' && cs.head? == some '/' then balancedFrom .comment expected cs
    else
      match closing? c with
      | some close => balancedFrom .code (close :: expected) cs
      | none =>
        if isClosing c then
          if expected.head? == some c then balancedFrom .code expected.tail cs else true
        else balancedFrom .code expected cs

/-- Whether an entry leaves no bracket and no text literal open. -/
def isBalanced (entry : String) : Bool :=
  balancedFrom .code [] entry.toList

/-- Whether an `if` line, in lower case, opens a block: it does unless a statement follows
`then`. -/
def opensIf (line : String) : Bool :=
  "then".toList.isSuffixOf line.toList || !Text.contains " then ".toList line.toList

/-- By how much a line changes the number of open blocks. -/
def blockChange (line : String) : Int :=
  let line := Text.lowercase (Text.trim line)
  let words := Text.words line
  match words.headD "" with
  | "while" | "for" | "function" | "try" | "switch" => 1
  | "async" | "native" => if (words.drop 1).headD "" == "function" then 1 else 0
  | "if" => if opensIf line then 1 else 0
  | "end" | "wend" | "next" | "endif" | "endfunction" | "endtry" | "endswitch" => -1
  | _ => 0

/-- The number of blocks that an entry opens, less the number that it closes. -/
def openBlocks (entry : String) : Int :=
  (Text.split '\n' entry).foldl (fun count line => count + blockChange line) 0

def endsOpen (entry : String) : Bool :=
  match (Text.trimEnd entry).toList.getLast? with
  | some c => "\\+-*/=,".toList.contains c
  | none => false

/-- Whether an entry is complete.  Commands always are. -/
def isComplete (entry : String) : Bool :=
  startsWithDot entry || isBalanced entry && decide (openBlocks entry ≤ 0) && !endsOpen entry

end TaskBasic.Prompt
