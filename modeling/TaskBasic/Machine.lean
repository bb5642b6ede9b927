import TaskBasic.Builtin
import TaskBasic.Config
import TaskBasic.Console
import TaskBasic.ModuleCache
import TaskBasic.Scheduler

/-
What one instruction of a task can see and change.
-/

namespace TaskBasic

/-- The state of one program besides its tasks. -/
structure ProgramState where
  globals : Dict := ∅
  data : Array Value := #[]
  dataCursor : Nat := 0
  /-- The directory that imports start from. -/
  baseDir : String := "."
  path : Option String := none

/-- What instructions can see but not change. -/
structure Env where
  config : Config := {}
  files : Files := {}
  /-- The milliseconds that the clock shows. -/
  now : Nat := 0
  hasBuiltins : Bool := true

/-- What instructions can change: the task they belong to, its program, and all that programs
share. -/
structure Machine where
  heap : Heap
  console : Console
  modules : ModuleCache
  program : ProgramState
  scheduler : Scheduler
  task : Task

/-- A computation on a machine.  What it has changed before it fails stays changed. -/
abbrev Exec := EStateM Fault Machine

namespace Exec

def fail {α : Type} (cause : Failure) : Exec α :=
  throw (.failure cause)

def ofExcept {α : Type} : Except Failure α → Exec α
  | .ok a => return a
  | .error cause => fail cause

def modifyTask (f : Task → Task) : Exec Unit :=
  modify fun m => { m with task := f m.task }

def heap : Exec Heap := do
  return (← get).heap

def alloc {α : Type} (f : Heap → Heap × α) : Exec α :=
  modifyGet fun m => let (h, a) := f m.heap; (a, { m with heap := h })

def push (v : Value) : Exec Unit :=
  modifyTask fun t => { t with stack := t.stack.push v }

def pop : Exec Value := do
  match (← get).task.stack.back? with
  | some v =>
    modifyTask fun t => { t with stack := t.stack.pop }
    return v
  | none => fail .stackUnderflow

/-- The value below the top `distance` values. -/
def peek (distance : Nat) : Exec Value := do
  let stack := (← get).task.stack
  if distance < stack.size then return stack[stack.size - 1 - distance]?.getD .absent
  else fail .stackUnderflow

/-- Pops the top `count` values; the first is the one that lay lowest. -/
def popMany (count : Nat) : Exec (List Value) := do
  let stack := (← get).task.stack
  if count ≤ stack.size then
    let keep := stack.size - count
    modifyTask fun t => { t with stack := t.stack.take keep }
    return (stack.extract keep stack.size).toList
  else fail .stackUnderflow

def frame : Exec Frame := do
  match (← get).task.frames with
  | f :: _ => return f
  | [] => fail .noFrame

def jumpTo (ip : Nat) : Exec Unit := do
  match (← get).task.frames with
  | f :: fs => modifyTask fun t => { t with frames := { f with ip := ip } :: fs }
  | [] => fail .noFrame

def localPosition (slot : UInt16) : Exec Nat := do
  let place := (← frame).base + slot.toNat
  if place < (← get).task.stack.size then return place else fail (.invalidSlot slot.toNat)

def constant (index : UInt16) : Exec Value := do
  let f ← frame
  match ((← heap).function f.function).chunk.constants[index.toNat]? with
  | some v => return v
  | none => fail (.invalidConstant index.toNat)

def name (index : UInt16) : Exec String := do
  match ← constant index with
  | .str s => return s
  | v => fail (.notAName v.kind)

def fetch : Exec Instr := do
  let f ← frame
  let (i, next) ← ofExcept (decode ((← heap).function f.function).chunk.code f.ip)
  jumpTo next
  return i

end Exec

end TaskBasic
