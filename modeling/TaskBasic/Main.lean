import TaskBasic.CommandLine
import TaskBasic.Token.Scan

/-
The program.

It collects the files and the lines that the command line needs, runs it, and
writes what it has written.
-/

namespace TaskBasic.CommandLine

def importsOf (source : String) : List String :=
  let ts := tokens source 1
  (ts.zip (ts.drop 1)).filterMap fun (a, b) =>
    match a.kind, b.kind with
    | .keyword .kwImport, .str request => some request
    | _, _ => none

/-- The files that commands of the prompt load. -/
def loadsOf (input : String) : List String :=
  (Text.lines input).filterMap fun line =>
    match Prompt.Command.ofText? line with
    | some (.load, some path) => some path
    | _ => none

def readsLines (source : String) : Bool :=
  (tokens source 1).any fun t => t.kind.isKeyword .kwInput

def namedParts (path : String) : List String :=
  (Path.parts path).filter fun part => !part.isEmpty

def readFile? (path : String) : IO (Option (String × String)) := do
  try
    let content ← IO.FS.readFile path
    return some ((← IO.FS.realPath path).toString, content)
  catch _ => return none

/-- Adds files, and the modules that they import with the given extension. -/
partial def collect (extension : String) (files : Files) : List String → IO Files
  | [] => return files
  | path :: paths => do
    match ← readFile? path with
    | none => collect extension files paths
    | some (real, content) =>
      if (files.content? (namedParts real)).isSome then collect extension files paths
      else
        let dir := Path.directory real
        let modules := (importsOf content).map fun request =>
          Path.withExtension (Path.join dir request) extension
        collect extension (files.write (namedParts real) content) (modules ++ paths)

def readEnvironment : IO (List (String × String)) := do
  let names := ["MOMENTUM_MAX_CALL_DEPTH", "MOMENTUM_MODULE_EXTENSION", "MOMENTUM_TRACE_LIMIT",
    "MOMENTUM_LOG_LEVEL", verboseVariable]
  let found ← names.mapM fun name => do
    return (← IO.getEnv name).map fun value => (name, value)
  return found.filterMap id

partial def readInput (stream : IO.FS.Stream) (text : String) : IO String := do
  let line ← stream.getLine
  if line.isEmpty then return text else readInput stream (text ++ line)

/-- What the program is started with: the files that it may need are collected, and the input
is read if it may be needed. -/
def prepare (arguments : List String) : IO Invocation := do
  let dir := (← IO.currentDir).toString
  let here : Files := { ({} : Files).addDirectory (namedParts dir) with current := namedParts dir }
  let files ← collect "" here [Path.join dir Config.fileName]
  let i : Invocation :=
    { arguments := arguments, environment := ← readEnvironment, files := files }
  match Request.ofArguments arguments i.environment with
  | .run o =>
    let extension := ((settings i o).toOption.getD {}).moduleExtension
    let isPrompt := o.file.isNone && o.eval.isNone
    let typed ← if isPrompt then readInput (← IO.getStdin) "" else pure ""
    let modules := (importsOf (o.eval.getD typed)).map fun request =>
      Path.withExtension (Path.join dir request) extension
    let files ← collect extension files (o.file.toList ++ loadsOf typed ++ modules)
    let sources := o.eval.toList ++ files.contents.map (·.2)
    let input ← if !isPrompt && sources.any readsLines then readInput (← IO.getStdin) ""
      else pure typed
    return { i with files := files, input := input }
  | _ => return i

/-- The number of steps that an evaluation takes at most. -/
def stepLimit : Nat := exp10 18

end TaskBasic.CommandLine

open TaskBasic TaskBasic.CommandLine in
def main (arguments : List String) : IO UInt32 := do
  match run? stepLimit (← prepare arguments) with
  | none =>
    IO.eprintln "error: invalid arguments\n\nFor more information, try '--help'."
    return 2
  | some outcome =>
    for text in outcome.terminal.written.reverse do
      match text with
      | .out text => IO.print text
      | .err text => IO.eprint text
    return UInt32.ofNat outcome.exitCode
