/-
The console: lines printed, and lines read.
-/

namespace TaskBasic

inductive ConsoleEvent
  | printed (line : String)
  | prompted (prompt : String)
deriving Repr, DecidableEq

/-- What the console has shown, last event first, and the lines still to be read. -/
structure Console where
  events : List ConsoleEvent := []
  input : List String := []
deriving Repr, DecidableEq

namespace Console

def print (c : Console) (line : String) : Console :=
  { c with events := .printed line :: c.events }

/-- Asks for a line; there is none at the end of the input. -/
def read (c : Console) (prompt : String) : Console × Option String :=
  ({ events := .prompted prompt :: c.events, input := c.input.drop 1 }, c.input.head?)

end Console

end TaskBasic
