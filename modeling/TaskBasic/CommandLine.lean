import TaskBasic.Chunk.Listing
import TaskBasic.CommandLine.Options
import TaskBasic.Config.Sources
import TaskBasic.Prompt.Dialogue

/-
The command line: running a file or a text, showing its code, or the dialogue
at the prompt.
-/

namespace TaskBasic.CommandLine

open Text (Style)

structure Invocation where
  arguments : List String
  environment : List (String × String) := []
  input : String := ""
  files : Files := {}

structure Outcome where
  terminal : Terminal
  exitCode : Nat

def failed (t : Terminal) (lines : List String) : Outcome :=
  ⟨t.complain lines, 1⟩

/-- Makes the settings of the command line.  Each is a name and a value with an equal sign
between them; the error is the text of one that is not. -/
def applySettings (c : Config) (settings : List String) : Except String Config :=
  settings.foldlM (fun c setting =>
    match Text.splitOnce? '=' setting with
    | some (key, value) => .ok (c.set (Text.trim key) (Text.trim value))
    | none => .error setting) c

/-- The exit code for a code that a program asks for; codes outside a byte become 1. -/
def exitCode (code : Int32) : Nat :=
  if 0 ≤ code.toInt ∧ code.toInt ≤ 255 then code.toInt.toNat else 1

/-- Ends with the result of an evaluation; a value is shown if `isShown` holds. -/
def finish (isShown : Bool) (t : Terminal) (s : Session) : Except EvalError Value → Outcome
  | .ok v =>
    ⟨if isShown && !v.isAbsent then t.writeLines [s.shared.heap.repr v] else t, 0⟩
  | .error (.exit code) => ⟨t, exitCode code⟩
  | .error e => failed t e.styledLines

def runText (fuel : Nat) (t : Terminal) (s : Session) (source : String) : Outcome :=
  let (t, s, result) := t.evaluate s fun s => s.eval fuel source true
  finish true t s result

def runFile (fuel : Nat) (t : Terminal) (s : Session) (path : String) : Outcome :=
  if (s.shared.env.files.find path).isOk then
    let (t, s, result) := t.evaluate s fun s => s.evalFile fuel path
    finish false t s result
  else failed t (EvalError.file ("file not found '" ++ path ++ "'")).styledLines

def showCode (t : Terminal) (source : Except EvalError String) : Outcome :=
  match source.bind fun source => compileText source false 0 with
  | .ok c =>
    let h : Heap := { functions := c.functions }
    ⟨t.write (h.listingText c.main.name c.main.chunk), 0⟩
  | .error e => failed t e.styledLines

/-- The settings that hold: those of the file and of the environment, and those of the
command line.  The error is what to complain about. -/
def settings (i : Invocation) (o : Options) : Except (List String) Config := do
  let config ← (Config.load i.files (Path.ofParts i.files.current) i.environment).mapError
    EvalError.styledLines
  (applySettings config o.settings).mapError fun setting =>
    [Text.alarm "Error" ++ ": expected KEY=VALUE, got '" ++ Style.cyan.paint setting ++ "'"]

def runOptions (fuel : Nat) (i : Invocation) (t : Terminal) (o : Options) : Outcome :=
  match settings i o with
  | .error lines => failed t lines
  | .ok config =>
    let s : Session := { shared := { env := { config := config, files := i.files } } }
    match o.eval, o.file with
    | some source, _ =>
      if o.disassemble then showCode t (.ok source) else runText fuel t s source
    | none, some path =>
      if o.disassemble then showCode t ((i.files.read path).mapError fun e => .file e.message)
      else runFile fuel t s path
    | none, none => ⟨(Prompt.Dialogue.run fuel ⟨t, s⟩).terminal, 0⟩

/-- Runs the program, where each evaluation takes at most `fuel` steps.  There is no outcome
if the arguments are rejected. -/
def run? (fuel : Nat) (i : Invocation) : Option Outcome :=
  let t : Terminal := { input := Text.lines i.input }
  match Request.ofArguments i.arguments i.environment with
  | .rejected => none
  | .help => some ⟨t.write (helpText i.environment), 0⟩
  | .version => some ⟨t.writeLines [programName ++ " " ++ programVersion], 0⟩
  | .run o => some (runOptions fuel i t o)

end TaskBasic.CommandLine
