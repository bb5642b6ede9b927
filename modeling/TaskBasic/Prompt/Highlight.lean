import TaskBasic.Prompt.Command
import TaskBasic.Text.Alphanumeric
import TaskBasic.Text.Style
import TaskBasic.Token

/-
Highlighting of entries.

Words, text literals, brackets and operators are shown in colours.  Text
literals end at the next quotation mark of their kind, whatever precedes it.
-/

namespace TaskBasic.Prompt

open Text (Span Style)

def wordStyles (word : String) : List Style :=
  match Keyword.ofWord? (Text.lowercase word) with
  | some .kwTrue | some .kwFalse | some .kwNone => [.blue]
  | some _ => [.magenta, .bold]
  | none => if word.toList.all fun c => c.isDigit || c == '.' then [.yellow] else []

/-- The word whose characters are given, last one first; no stretch if there is none. -/
def wordSpans (reversed : List Char) : List Span :=
  if reversed.isEmpty then []
  else
    let word := String.ofList reversed.reverse
    [⟨word, wordStyles word⟩]

def isQuote (c : Char) : Bool :=
  c == '"' || c == '\''

def charStyles (c : Char) : List Style :=
  if isQuote c then [.green]
  else if "()[]\x7b\x7d".toList.contains c then [.yellow]
  else if "+-*/%=<>!".toList.contains c then [.cyan]
  else []

/-- The stretches of the rest of an entry.  `quote` is the mark of the text literal it begins
in, and `word` the characters of the word it begins in, last one first. -/
def spansFrom (quote : Option Char) (word : List Char) : List Char → List Span
  | [] => wordSpans word
  | c :: cs =>
    match quote with
    | some mark =>
      ⟨c.toString, [.green]⟩ :: spansFrom (if c == mark then none else some mark) word cs
    | none =>
      if Text.isAlphanumeric c || c == '_' || (c == '.' && !word.isEmpty) then
        spansFrom none (c :: word) cs
      else
        wordSpans word ++
          ⟨c.toString, charStyles c⟩ :: spansFrom (if isQuote c then some c else none) [] cs

/-- The stretches of an entry.  An entry that begins with a dot is one stretch. -/
def spans (entry : String) : List Span :=
  if startsWithDot entry then [⟨entry, [.magenta]⟩] else spansFrom none [] entry.toList

def highlightWith (paint : Style → String → String) (entry : String) : String :=
  String.join ((spans entry).map (Span.render paint))

def highlight (entry : String) : String :=
  highlightWith Style.paint entry

end TaskBasic.Prompt
