import TaskBasic.Heap

/-
Tasks: the cooperative flows of execution.

A task has an operand stack, the frames of the functions it is in, and the
`try` regions it is in.  It runs until it ends or waits for a future.
-/

namespace TaskBasic

structure Frame where
  function : FunctionRef
  ip : Nat := 0
  /-- The position of the first argument on the stack; the function lies just below. -/
  base : Nat
deriving Repr, DecidableEq, Inhabited

structure TryBlock where
  handler : Nat
  /-- The number of values to keep on the stack. -/
  stackDepth : Nat
  /-- The number of frames to keep. -/
  frameDepth : Nat
deriving Repr, DecidableEq, Inhabited

/-- A cooperative flow of execution. -/
structure Task where
  id : Nat
  /-- The operand stack, bottom first. -/
  stack : Array Value
  /-- The frames, innermost first. -/
  frames : List Frame
  /-- The `try` regions, innermost first. -/
  tries : List TryBlock := []
  /-- Settled with the result of the task. -/
  promise : PromiseRef
  /-- Whether the task waits for the value on top of its stack. -/
  awaiting : Bool := false
deriving Inhabited

namespace Heap

/-- Whether awaiting a value would not block. -/
def isReady (h : Heap) : Value → Bool
  | .future p => (h.promise p).isSettled
  | .array r => (h.array r).all fun
    | .future p => (h.promise p).isSettled
    | _ => true
  | _ => true

/-- The source line of the instruction that a frame has fetched last. -/
def lineOf (h : Heap) (f : Frame) : Nat :=
  (h.function f.function).chunk.lineAt (f.ip - 1)

end Heap

namespace Task

def start (id : Nat) (function : FunctionRef) (args : List Value) (promise : PromiseRef) : Task :=
  { id := id, stack := (.function function :: args).toArray,
    frames := [{ function := function, base := 1 }], promise := promise }

/-- Whether nothing that the task waits for is pending. -/
def canResume (h : Heap) (t : Task) : Bool :=
  !t.awaiting || (t.stack.back?.map h.isReady).getD true

end Task

end TaskBasic
