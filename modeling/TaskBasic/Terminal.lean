import TaskBasic.Session
import TaskBasic.Prompt.Answer

/-
The terminal: what is written to its two streams, and the lines typed in.
-/

namespace TaskBasic

inductive Written
  | out (text : String)
  | err (text : String)
deriving Repr, DecidableEq

/-- What has been written, last text first, and the lines still to be read, each with the
characters that end it. -/
structure Terminal where
  written : List Written := []
  input : List String := []
deriving Repr, DecidableEq

namespace Terminal

def write (t : Terminal) (text : String) : Terminal :=
  { t with written := .out text :: t.written }

def writeLines (t : Terminal) (lines : List String) : Terminal :=
  lines.foldl (fun t line => t.write (line ++ "\n")) t

def complain (t : Terminal) (lines : List String) : Terminal :=
  lines.foldl (fun t line => { t with written := .err (line ++ "\n") :: t.written }) t

def outText (t : Terminal) : String :=
  String.join (t.written.reverse.map fun
    | .out text => text
    | .err _ => "")

def errText (t : Terminal) : String :=
  String.join (t.written.reverse.map fun
    | .out _ => ""
    | .err text => text)

/-- A line without the characters that end it, as programs read it. -/
def lineText (line : String) : String :=
  String.ofList (line.toList.reverse.dropWhile fun c => c == '\n' || c == '\r').reverse

def ofEvent : ConsoleEvent → Written
  | .printed line => .out (line ++ "\n")
  | .prompted prompt => .out prompt

def evaluate (t : Terminal) (s : Session) (run : Session → Session × Except EvalError Value) :
    Terminal × Session × Except EvalError Value :=
  let console : Console := { input := t.input.map lineText }
  let (s, result) := run { s with shared := { s.shared with console := console } }
  let console := s.shared.console
  let t : Terminal := {
    written := console.events.map ofEvent ++ t.written
    input := t.input.drop (t.input.length - console.input.length) }
  (t, s, result)

end Terminal

end TaskBasic
