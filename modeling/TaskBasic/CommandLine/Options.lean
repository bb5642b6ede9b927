import TaskBasic.Text.Split

/-
The arguments of the command line.

Options have a long name, and a letter; letters can be joined.  Other
arguments, and all arguments behind `--`, are files.
-/

namespace TaskBasic.CommandLine

inductive Flag
  | eval | disassemble | config | verbose | help | version
deriving Repr, DecidableEq

namespace Flag

def ofName? : String → Option Flag
  | "eval" => some eval
  | "disassemble" => some disassemble
  | "config" => some config
  | "verbose" => some verbose
  | "help" => some help
  | "version" => some version
  | _ => none

def ofLetter? : Char → Option Flag
  | 'e' => some eval
  | 'd' => some disassemble
  | 'c' => some config
  | 'v' => some verbose
  | 'h' => some help
  | 'V' => some version
  | _ => none

def takesValue : Flag → Bool
  | eval | config => true
  | _ => false

end Flag

structure Options where
  file : Option String := none
  eval : Option String := none
  /-- Whether the code is shown instead of run. -/
  disassemble : Bool := false
  settings : List String := []
  verbose : Bool := false
deriving Repr, DecidableEq

inductive Request
  | run (options : Options)
  | help
  | version
  | rejected
deriving Repr, DecidableEq

namespace Options

/-- Sets an option to a value.  Only settings can be given twice. -/
def assign? (o : Options) (flag : Flag) (value : String) : Option Options :=
  match flag with
  | .eval => if o.eval.isSome then none else some { o with eval := some value }
  | .config => some { o with settings := o.settings ++ [value] }
  | _ => none

def raise? (o : Options) (flag : Flag) : Option Options :=
  match flag with
  | .disassemble => if o.disassemble then none else some { o with disassemble := true }
  | .verbose => if o.verbose then none else some { o with verbose := true }
  | _ => none

def setFile? (o : Options) (path : String) : Option Options :=
  if o.file.isSome || path.isEmpty then none else some { o with file := some path }

end Options

/-- What an argument leads to: the end of the reading, or the options with the option that
the next argument is the value of. -/
inductive Progress
  | ended (request : Request)
  | more (options : Options) (awaiting : Option Flag)

def Progress.ofOptions? (o? : Option Options) : Progress :=
  match o? with
  | some o => .more o none
  | none => .ended .rejected

/-- Reads joined letters.  The rest behind a letter that needs a value is its value, without
an equal sign. -/
def letters (o : Options) : List Char → Progress
  | [] => .more o none
  | c :: cs =>
    match Flag.ofLetter? c with
    | none => .ended .rejected
    | some .help => .ended .help
    | some .version => .ended .version
    | some flag =>
      if flag.takesValue then
        match cs with
        | [] => .more o (some flag)
        | '=' :: value => .ofOptions? (o.assign? flag (String.ofList value))
        | value => .ofOptions? (o.assign? flag (String.ofList value))
      else
        match o.raise? flag with
        | some o => letters o cs
        | none => .ended .rejected

def longName (o : Options) (text : String) : Progress :=
  let (name, value) := match Text.splitOnce? '=' text with
    | some (name, value) => (name, some value)
    | none => (text, none)
  match Flag.ofName? name, value with
  | none, _ => .ended .rejected
  | some flag, some value => .ofOptions? (o.assign? flag value)
  | some .help, none => .ended .help
  | some .version, none => .ended .version
  | some flag, none =>
    if flag.takesValue then .more o (some flag) else .ofOptions? (o.raise? flag)

/-- Reads one argument.  The value of an option does not begin with a hyphen, unless it is
one. -/
def argument (o : Options) (awaiting : Option Flag) (text : String) : Progress :=
  match text.toList with
  | '-' :: '-' :: name =>
    if awaiting.isSome then .ended .rejected else longName o (String.ofList name)
  | '-' :: c :: cs => if awaiting.isSome then .ended .rejected else letters o (c :: cs)
  | _ =>
    match awaiting with
    | some flag => .ofOptions? (o.assign? flag text)
    | none => .ofOptions? (o.setFile? text)

/-- Reads arguments; `awaiting` is the option that the first one is the value of. -/
def argumentsFrom (o : Options) (awaiting : Option Flag) : List String → Request
  | [] => if awaiting.isSome then .rejected else .run o
  | "--" :: files =>
    if awaiting.isSome then .rejected
    else
      match files.foldlM Options.setFile? o with
      | some o => .run o
      | none => .rejected
  | text :: rest =>
    match argument o awaiting text with
    | .ended request => request
    | .more o awaiting => argumentsFrom o awaiting rest

/-- The variable that stands for the option `--verbose`. -/
def verboseVariable : String := "MOMENTUM_VERBOSE"

/-- What the arguments ask for.  A file and a text exclude each other, and the variable for
`--verbose` holds a truth value. -/
def Request.ofArguments (arguments : List String) (environment : List (String × String)) :
    Request :=
  match argumentsFrom {} none arguments with
  | .run o =>
    if o.file.isSome && o.eval.isSome then .rejected
    else
      match environment.lookup verboseVariable with
      | none => .run o
      | some text =>
        if o.verbose || text == "true" then .run { o with verbose := true }
        else if text == "false" then .run o
        else .rejected
  | request => request

def helpText (environment : List (String × String)) : String :=
  "\n".intercalate [
    "Run Momentum scripts or start the REPL",
    "",
    "Usage: momentum [OPTIONS] [FILE]",
    "",
    "Arguments:",
    "  [FILE]  Script to execute; starts the REPL when omitted",
    "",
    "Options:",
    "  -e, --eval <CODE>         Evaluate a snippet and print its value",
    "  -d, --disassemble         Print the compiled bytecode instead of running",
    "  -c, --config <KEY=VALUE>  Override a configuration value, e.g. `-c max-call-depth=256`",
    "  -v, --verbose             Enable debug logging [env: " ++ verboseVariable ++ "="
      ++ (environment.lookup verboseVariable).getD "" ++ "]",
    "  -h, --help                Print help",
    "  -V, --version             Print version",
    ""]

end TaskBasic.CommandLine
