import TaskBasic.Prompt.Entry
import TaskBasic.Terminal
import TaskBasic.Text.Pad

/-
The dialogue at the prompt.

Entries are read from the terminal and evaluated in one session, until the
input ends, a command ends the dialogue, or a program does.
-/

namespace TaskBasic

def programName : String := "momentum"

def programVersion : String := "0.1.0"

namespace Prompt

open Text (Style)

structure Dialogue where
  terminal : Terminal
  session : Session

def splitEnd (line : String) : String × String :=
  match line.toList.reverse with
  | '\n' :: '\r' :: rest => (String.ofList rest.reverse, "\r\n")
  | '\n' :: rest => (String.ofList rest.reverse, "\n")
  | _ => (line, "")

/-- Reads an entry: lines until it is complete.  There is none if the input ends before.
`before` holds the lines so far. -/
def entryFrom (before : String) : List String → Option (String × List String)
  | [] => none
  | line :: lines =>
    let (body, ending) := splitEnd line
    let entry := before ++ body
    if isComplete entry then some (entry, lines) else entryFrom (entry ++ ending) lines

def banner : List String := [
  "",
  "  " ++ Style.bold.paint (Style.white.paint "Momentum") ++ " " ++ Style.dimmed.paint "v" ++ " "
    ++ Style.brightYellow.paint programVersion,
  "  " ++ Style.dimmed.paint "Type" ++ " " ++ Style.cyan.paint ".help" ++ " "
    ++ Style.dimmed.paint "for available commands",
  ""]

def helpLine (style : Style) (name description : String) : String :=
  "  " ++ style.paint (Text.padRight 16 name) ++ " " ++ Style.dimmed.paint description

def helpLines : List String :=
  ["", Style.bold.paint (Style.white.paint "REPL Commands:"), ""]
    ++ Command.all.map (fun c => helpLine .cyan c.usage c.description)
    ++ ["", Style.bold.paint (Style.white.paint "Keyboard Shortcuts:"), "",
      helpLine .yellow "Ctrl+C" "Cancel current input",
      helpLine .yellow "Ctrl+D" "Exit REPL",
      helpLine .yellow "Tab" "Autocomplete",
      ""]

namespace Dialogue

def writeLines (d : Dialogue) (lines : List String) : Dialogue :=
  { d with terminal := d.terminal.writeLines lines }

/-- Evaluates something and shows its result: the dialogue, and whether it has ended.  Errors
do not end it, but a program that exits does. -/
def evaluate (d : Dialogue) (run : Session → Session × Except EvalError Value) :
    Dialogue × Bool :=
  let (terminal, session, result) := d.terminal.evaluate d.session run
  let d : Dialogue := ⟨terminal, session⟩
  match result with
  | .ok .absent => (d, false)
  | .ok v => (d.writeLines [session.shared.heap.styledText v], false)
  | .error (.exit _) => (d, true)
  | .error e => ({ d with terminal := d.terminal.complain e.styledLines }, false)

def globalLines (d : Dialogue) : List String :=
  d.session.program.globals.toList.map fun (name, v) =>
    "  " ++ Style.cyan.paint name ++ " = " ++ d.session.shared.heap.styledText v

def execute (fuel : Nat) (d : Dialogue) (command : Command) (argument : Option String) :
    Dialogue × Bool :=
  match command with
  | .help => (d.writeLines helpLines, false)
  | .exit => (d, true)
  | .clear => ({ d with terminal := d.terminal.write "\x1b[2J\x1b[H" }, false)
  | .version =>
    let name := Style.bold.paint (Style.brightCyan.paint programName)
    (d.writeLines [name ++ " " ++ Style.yellow.paint programVersion], false)
  | .load =>
    match argument with
    | some path => d.evaluate fun s => s.evalFile fuel path
    | none =>
      let line := Text.alarm "Error" ++ ": " ++ Style.cyan.paint Command.load.word ++ " "
        ++ Style.dimmed.paint "requires a file path"
      ({ d with terminal := d.terminal.complain [line] }, false)
  | .globals => (d.writeLines d.globalLines, false)

def answer (fuel : Nat) (d : Dialogue) (entry : String) : Dialogue × Bool :=
  if Text.isBlankText entry then (d, false)
  else
    match Command.ofText? entry with
    | some (command, argument) => d.execute fuel command argument
    | none => d.evaluate fun s => s.eval fuel entry true

/-- Answers entries until the dialogue ends.  Each takes a line at least, so `entries` more
than there are lines are enough. -/
def answerAll (fuel : Nat) : (entries : Nat) → Dialogue → Dialogue
  | 0, d => d
  | entries + 1, d =>
    match entryFrom "" d.terminal.input with
    | none => d.writeLines [Style.dimmed.paint "^D"]
    | some (entry, lines) =>
      let d := { d with terminal := { d.terminal with input := lines } }
      match d.answer fuel entry with
      | (d, true) => d
      | (d, false) => answerAll fuel entries d

def run (fuel : Nat) (d : Dialogue) : Dialogue :=
  ((d.writeLines banner).answerAll fuel (d.terminal.input.length + 1)).writeLines [""]

end Dialogue

end Prompt

end TaskBasic
