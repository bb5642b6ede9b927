import TaskBasic.Text.Blank
import TaskBasic.Text.Lowercase

/-
Commands of the prompt.

A command is an entry that begins with a dot.  Its name counts in any case, and
what follows the first white space is its argument.
-/

namespace TaskBasic.Prompt

inductive Command
  | help | exit | clear | version | load | globals
deriving Repr, DecidableEq

namespace Command

/-- The command of a name in lower case; most have a short name, too. -/
def ofName? : String → Option Command
  | "help" | "h" | "?" => some help
  | "exit" | "quit" | "q" => some exit
  | "clear" | "cls" => some clear
  | "version" | "v" => some version
  | "load" | "l" => some load
  | "globals" | "g" => some globals
  | _ => none

def ofText? (entry : String) : Option (Command × Option String) :=
  match (Text.trim entry).toList with
  | '.' :: rest =>
    let name := String.ofList (rest.takeWhile fun c => !Text.isBlank c)
    let argument := Text.trim (String.ofList (rest.dropWhile fun c => !Text.isBlank c))
    (ofName? (Text.lowercase name)).map fun command =>
      (command, if argument.isEmpty then none else some argument)
  | _ => none

/-- All commands, in the order of the help text. -/
def all : List Command := [help, exit, clear, version, load, globals]

def word : Command → String
  | help => ".help"
  | exit => ".exit"
  | clear => ".clear"
  | version => ".version"
  | load => ".load"
  | globals => ".globals"

def usage : Command → String
  | load => ".load <file>"
  | command => command.word

def description : Command → String
  | help => "Show this help message"
  | exit => "Exit the REPL"
  | clear => "Clear the screen"
  | version => "Show version information"
  | load => "Load and execute a Momentum file"
  | globals => "List defined global variables"

end Command

def startsWithDot (entry : String) : Bool :=
  (entry.toList.dropWhile Text.isBlank).head? == some '.'

end TaskBasic.Prompt
