/-
Local variables while a function is compiled.

At every statement boundary the frame of a function holds exactly its live
locals, so the number of locals declared before one is also its slot in the
frame.
-/

namespace TaskBasic

/-- A local variable and the depth of the block that declares it. -/
structure Local where
  name : String
  depth : Nat
deriving Repr, DecidableEq

/-- The live locals, newest first, and the depth of the current block. -/
structure Scope where
  locals : List Local := []
  depth : Nat := 0
deriving Repr, DecidableEq

namespace Scope

def enter (s : Scope) : Scope :=
  { s with depth := s.depth + 1 }

/-- The number of locals declared deeper than `depth`, up to the newest one that is not. -/
def countAbove (s : Scope) (depth : Nat) : Nat :=
  (s.locals.takeWhile fun l => decide (depth < l.depth)).length

def dropAbove (s : Scope) (depth : Nat) : Scope :=
  { s with locals := s.locals.drop (s.countAbove depth) }

def leave (s : Scope) : Scope :=
  { s.dropAbove (s.depth - 1) with depth := s.depth - 1 }

/-- Whether the current block has declared the name already. -/
def declares (s : Scope) (name : String) : Bool :=
  (s.locals.takeWhile fun l => decide (l.depth = s.depth)).any fun l => l.name == name

/-- Declares a local in the current block and gives its slot; a block declares a name only
once. -/
def declare? (s : Scope) (name : String) : Option (Scope × Nat) :=
  if s.declares name then none
  else some ({ s with locals := ⟨name, s.depth⟩ :: s.locals }, s.locals.length)

/-- The slot of the newest local with the given name. -/
def slot? (s : Scope) (name : String) : Option Nat :=
  (s.locals.findIdx? fun l => l.name == name).map fun i => s.locals.length - 1 - i

end Scope

end TaskBasic
