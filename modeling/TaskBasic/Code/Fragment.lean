import TaskBasic.Code.Scope
import TaskBasic.Heap

/-
Fragments of code, and what is known while a function is compiled.

All jumps are relative, so the code of a statement or an expression is a
`Fragment` that means the same wherever it stands.  A jump forward is written
in two steps: `reserve` leaves room for it and `fill` points it at the place
reached by then.  The jumps out of a loop are marks (`Exit`) in the code of its
body until the loop is complete (`resolve`).
-/

namespace TaskBasic

/-- What can only occur in a limited number. -/
inductive Counted
  | arguments | keys | printed | dimensions
deriving Repr, DecidableEq

def Counted.plural : Counted → String
  | arguments => "arguments in call"
  | keys => "subscript keys"
  | printed => "values in print"
  | dimensions => "array dimensions"

inductive CompileCause
  | tooManyConstants
  | jumpTooFar
  | loopTooLarge
  | tooMany (what : Counted)
  | tooManyParams (function : String)
  | tooManyLocals
  | arrayTooLarge
  | dictTooLarge
  | fstringTooLong
  | globalOutsideFunction
  | returnOutsideFunction
  | breakOutsideLoop
  | continueOutsideLoop
  | alreadyDeclared (name : String)
  | dataNotLiteral
  /-- The program is nested more deeply than its size allows, which does not happen. -/
  | tooDeep
deriving Repr, DecidableEq

def CompileCause.message : CompileCause → String
  | tooManyConstants => "Too many constants in one chunk"
  | jumpTooFar => "Too much code to jump over"
  | loopTooLarge => "Loop body too large"
  | tooMany what => "Too many " ++ what.plural
  | tooManyParams function => "Too many parameters in function '" ++ function ++ "'"
  | tooManyLocals => "Too many local variables in function"
  | arrayTooLarge => "Array literal too large"
  | dictTooLarge => "Dictionary literal too large"
  | fstringTooLong => "f-string too long"
  | globalOutsideFunction => "'global' declaration outside of a function"
  | returnOutsideFunction => "'return' outside of a function"
  | breakOutsideLoop => "'break' outside of a loop"
  | continueOutsideLoop => "'continue' outside of a loop"
  | alreadyDeclared name => "Variable '" ++ name ++ "' already declared in this scope"
  | dataNotLiteral => "DATA values must be literals"
  | tooDeep => "Nesting too deep"

structure CompileError where
  line : Nat
  cause : CompileCause
deriving Repr, DecidableEq

/-- A way out of the body of a loop: to its end, or to its next round. -/
inductive Exit
  | leave | again
deriving Repr, DecidableEq

/-- An instruction, or a jump out of the enclosing loop whose target is not known yet. -/
inductive Step
  | instr (i : Instr)
  | exit (e : Exit)
deriving Repr, DecidableEq

def Step.size : Step → Nat
  | instr i => i.size
  | exit _ => 3

structure Piece where
  line : Nat
  step : Step
deriving Repr, DecidableEq

/-- A piece of code that means the same wherever it stands. -/
abbrev Fragment := Array Piece

def Fragment.bytes (code : Fragment) : Nat :=
  code.foldl (fun n p => n + p.step.size) 0

/-- The distance that stands in a jump whose target is not known yet. -/
def unpatched : UInt16 := 0xffff

/-- Appends a piece to a chunk.  An exit is left as a jump without a target. -/
def Piece.write (c : Chunk) (p : Piece) : Chunk :=
  match p.step with
  | .instr i => c.writeInstr i p.line
  | .exit _ => c.writeInstr (.jump unpatched) p.line

def Fragment.chunk (code : Fragment) (constants : Array Value) : Chunk :=
  code.foldl Piece.write { constants := constants }

/-- What is known while a function is compiled. -/
structure Draft where
  /-- The number of functions that there were before the program. -/
  base : Nat := 0
  functions : Array Function := #[]
  constants : Array Value := #[]
  scope : Scope := {}
  /-- The names that `global` statements of the function have listed so far. -/
  globals : List String := []
  /-- The line of the statement that began last. -/
  line : Nat := 0
  offset : Nat := 0

abbrev Compile := StateT Draft (Except CompileError)

namespace Compile

def fail {α : Type} (cause : CompileCause) : Compile α := do
  throw ⟨(← get).line, cause⟩

def step (s : Step) : Compile Fragment :=
  modifyGet fun d => (#[⟨d.line, s⟩], { d with offset := d.offset + s.size })

def emit (i : Instr) : Compile Fragment :=
  step (.instr i)

def emitTimes (n : Nat) (i : Instr) : Compile Fragment :=
  modifyGet fun d =>
    (Array.replicate n ⟨d.line, .instr i⟩, { d with offset := d.offset + n * i.size })

/-- The index of a constant, which is added unless it is there already. -/
def constant (value : Value) : Compile UInt16 := do
  let d ← get
  let (pool, position) := poolInsert d.constants value
  set { d with constants := pool }
  match poolIndex? position with
  | some index => return index
  | none => fail .tooManyConstants

def push (value : Value) : Compile Fragment := do
  emit (.constant (← constant value))

def nameConstant (name : String) : Compile UInt16 :=
  constant (.str name)

def narrow (what : Counted) (n : Nat) : Compile UInt8 :=
  if n < 256 then return UInt8.ofNat n else fail (.tooMany what)

def wide (cause : CompileCause) (n : Nat) : Compile UInt16 :=
  if n < 65536 then return UInt16.ofNat n else fail cause

/-- Room for a jump forward: its line, and the offset behind it. -/
structure Gap where
  line : Nat
  stop : Nat

def reserve : Compile Gap :=
  modifyGet fun d => (⟨d.line, d.offset + 3⟩, { d with offset := d.offset + 3 })

/-- The jump for the room `gap`, to the place reached by now. -/
def fill (gap : Gap) (jump : UInt16 → Instr) : Compile Fragment := do
  let distance ← wide .jumpTooFar ((← get).offset - gap.stop)
  return #[⟨gap.line, .instr (jump distance)⟩]

def loopTo (target : Nat) : Compile Fragment := do
  let distance ← wide .loopTooLarge ((← get).offset + 3 - target)
  emit (.loop distance)

/-- Points the exits `e` in `code`, which begins at the offset `start`, to the place reached
by now. -/
def resolve (e : Exit) (start : Nat) (code : Fragment) : Compile Fragment := do
  let target := (← get).offset
  let (done, _) ← code.toList.foldlM (fun (done, offset) p => do
    let stop : Nat := offset + p.step.size
    if p.step = .exit e then
      let distance ← wide .jumpTooFar (target - stop)
      return (done.push ⟨p.line, .instr (.jump distance)⟩, stop)
    else return (done.push p, stop)) ((#[] : Fragment), start)
  return done

/-- Declares a local for the value on top of the stack. -/
def declare (name : String) : Compile UInt16 := do
  let d ← get
  match d.scope.declare? name with
  | some (scope, slot) =>
    set { d with scope := scope }
    wide .tooManyLocals slot
  | none => fail (.alreadyDeclared name)

def isGlobal (name : String) : Compile Bool := do
  return (← get).globals.contains name

def localSlot? (name : String) : Compile (Option UInt16) := do
  let d ← get
  if d.globals.contains name then return none else return (d.scope.slot? name).map UInt16.ofNat

def enter : Compile Unit :=
  modify fun d => { d with scope := d.scope.enter }

/-- Pops the locals declared deeper than `depth`. -/
def discardAbove (depth : Nat) : Compile Fragment := do
  let count := (← get).scope.countAbove depth
  let code ← emitTimes count .pop
  modify fun d => { d with scope := d.scope.dropAbove depth }
  return code

/-- Leaves a block whose end is not reached. -/
def abandon : Compile Unit :=
  modify fun d => { d with scope := d.scope.leave }

def leave : Compile Fragment := do
  let scope := (← get).scope
  let code ← emitTimes (scope.countAbove (scope.depth - 1)) .pop
  abandon
  return code

end Compile

end TaskBasic
