import TaskBasic.Code.OfStmt

/-
The code of programs.

Functions declared at top level are bound before anything else runs.  The
values of all `data` statements form one pool, in reading order.
-/

namespace TaskBasic

/-- The value of a literal, also of a number behind one minus. -/
def Expr.literal? : Expr → Option Value
  | .int n => some (.int n)
  | .float x => some (.float x)
  | .str s => some (.str s)
  | .absent => some .absent
  | .neg (.int n) => (Number.int n).negate.toOption.map Number.toValue
  | .neg (.float x) => some (.float x.negate)
  | _ => none

/-- The values of a `data` statement; other statements have none. -/
def Stmt.data (s : Stmt) : Except CompileError (List Value) :=
  match s.kind with
  | .data items => items.mapM fun e =>
    match e.literal? with
    | some v => .ok v
    | none => .error ⟨s.line, .dataNotLiteral⟩
  | _ => .ok []

def mainName : String := "<main>"

structure Compiled where
  main : Function
  data : Array Value
  /-- The functions of the program; references to them count from the number of functions
  that there were before. -/
  functions : Array Function

namespace Program

/-- The values of all `data` statements, in reading order. -/
def data (p : Program) : Except CompileError (Array Value) :=
  (blockNested true p).foldlM (fun pool s => do return pool ++ (← s.data).toArray) #[]

end Program

namespace Compile

def topLevel (fuel : Nat) (s : Stmt) : Compile Fragment :=
  match s.kind with
  | .function _ _ _ _ _ => return #[]
  | _ => stmt fuel {} s

def topLevelFunction (fuel : Nat) (s : Stmt) : Compile Fragment :=
  match s.kind with
  | .function _ _ _ _ _ => stmt fuel {} s
  | _ => return #[]

/-- The code behind all other code of a program: it returns the value of a last expression
if `interactive` holds, and otherwise the absent value. -/
def ending (fuel : Nat) (interactive : Bool) (last : Option Stmt) : Compile Fragment := do
  let finish (code : Fragment) : Compile Fragment := do
    let code := code ++ (← emit .pushAbsent)
    return code ++ (← emit .ret)
  match last with
  | some (.mk line (.eval e)) =>
    if interactive then
      modify fun d => { d with line := line }
      let code ← expr e
      return code ++ (← emit .ret)
    else finish (← topLevel fuel (.mk line (.eval e)))
  | some s => finish (← topLevel fuel s)
  | none => finish #[]

def program (fuel : Nat) (interactive : Bool) (p : Program) : Compile Fragment := do
  let code ← sequence (topLevelFunction fuel) p
  let code := code ++ (← sequence (topLevel fuel) p.dropLast)
  return code ++ (← ending fuel interactive p.getLast?)

end Compile

namespace Program

/-- Enough for every program: no statement is nested more deeply than there are statements. -/
def fuel (p : Program) : Nat :=
  (blockNested true p).length + 1

/-- Compiles a program where there are `base` functions already.  If `interactive` holds, the
program returns the value of its last statement, should that be an expression. -/
def compile (p : Program) (interactive : Bool) (base : Nat) : Except CompileError Compiled := do
  let data ← p.data
  let (code, d) ← Compile.program p.fuel interactive p { base := base }
  return {
    main := { name := mainName, arity := 0, chunk := Fragment.chunk code d.constants }
    data := data
    functions := d.functions }

end Program

end TaskBasic
