import TaskBasic.Builtin
import TaskBasic.Prompt.Command
import TaskBasic.Text.Alphanumeric
import TaskBasic.Text.Slice
import TaskBasic.Text.Style
import TaskBasic.Token

/-
Completing words at the prompt.

The word before the cursor is completed to the words of the language, the
builtin functions and the commands that begin with it.
-/

namespace TaskBasic.Prompt

/-- The keywords that are offered: all but the ones that `end` forms in one word. -/
def offeredKeywords : List String :=
  let joined := ["endif", "endfunction", "endtry", "endswitch"]
  (Keyword.words.map (·.1)).filter fun word => !joined.contains word

def offered : List String :=
  (offeredKeywords ++ ["end if", "end function", "end try", "end switch", "end while"]
    ++ Builtin.all.map Builtin.name ++ Command.all.map Command.word).mergeSort
    fun a b => (compare a b).isLE

def isWordChar (c : Char) : Bool :=
  Text.isAlphanumeric c || c == '_' || c == '.'

/-- The byte offset where the last word begins: one byte behind the beginning of the last
character that belongs to no word.  `offset` bytes have been read, and `start` is the answer
for them. -/
def wordStartFrom (offset start : Nat) : List Char → Nat
  | [] => start
  | c :: cs => wordStartFrom (offset + c.utf8Size) (if isWordChar c then start else offset + 1) cs

/-- The word that a text ends in; it may be empty.  There is none if its beginning lies inside
a character. -/
def lastWord (cs : List Char) : Except Text.OffBoundary (List Char) :=
  (Text.cut (wordStartFrom 0 0 cs) cs).map (·.2)

/-- What is left of a text that begins with `word`. -/
def remainder? (word : List Char) (text : String) : Option String :=
  if word.isPrefixOf text.toList then some (String.ofList (text.toList.drop word.length))
  else none

/-- The words that the word before the cursor can be completed to, each with what is missing.
The cursor is a byte offset. -/
def complete (line : String) (cursor : Nat) :
    Except Text.OffBoundary (List (String × String)) := do
  let (before, _) ← Text.cut cursor line.toList
  let word ← lastWord before
  if word.isEmpty then return []
  return offered.filterMap fun text => (remainder? word text).map fun rest => (text, rest)

/-- What is missing of the first longer word that begins with the last word of the line.
There is no hint before the end of the line, nor for a word of one byte. -/
def missing? (line : String) (cursor : Nat) : Except Text.OffBoundary (Option String) := do
  if cursor < line.utf8ByteSize then return none
  let word ← lastWord line.toList
  if (String.ofList word).utf8ByteSize < 2 then return none
  return (offered.filterMap (remainder? word)).find? fun rest => !rest.isEmpty

/-- What is missing, as it is shown behind the cursor. -/
def hint (line : String) (cursor : Nat) : Except Text.OffBoundary (Option String) := do
  return (← missing? line cursor).map Text.Style.dimmed.paint

end TaskBasic.Prompt
