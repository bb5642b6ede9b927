import TaskBasic.Code.Fragment
import TaskBasic.Expr
import TaskBasic.Number.Arith

/-
The code of expressions.  It pushes exactly one value.

Arithmetic on number literals is done beforehand where it does not fail;
otherwise the program itself fails, when it comes there.
-/

namespace TaskBasic

/-- The number that an expression of number literals stands for, unless its evaluation
fails. -/
def Expr.fold? : Expr → Option Number
  | .int n => some (.int n)
  | .float x => some (.float x)
  | .neg e =>
    match e.fold? with
    | some x => x.negate.toOption
    | none => none
  | .binary op a b =>
    match a.fold?, b.fold? with
    | some x, some y => (Number.binary op x y).toOption
    | _, _ => none
  | _ => none

namespace Compile

def read (name : String) : Compile Fragment := do
  match ← localSlot? name with
  | some slot => emit (.getLocal slot)
  | none => emit (.getGlobal (← nameConstant name))

/-- The name that a callee is called by, if it is a name and stands for no local. -/
def globalCallee? (callee : Expr) : Compile (Option String) := do
  match callee with
  | .var name => if (← localSlot? name).isSome then return none else return some name
  | _ => return none

/-- Code that builds the key of a subscript with `n` keys from the keys. -/
def packKeys (n : Nat) : Compile Fragment := do
  if n = 1 then return #[] else emit (.buildTuple (← narrow .keys n))

/-- The code of a call: by name if the name stands for no local, which is found out when the
program runs, and otherwise of the value of the callee.  `value` is the code of the callee,
`args` that of the `count` arguments behind other code. -/
def call (callee : Expr) (count : Nat) (value : Compile Fragment)
    (args : Fragment → Compile Fragment) (named : UInt16 → UInt8 → Instr)
    (direct : UInt8 → Instr) : Compile Fragment := do
  let count ← narrow .arguments count
  match ← globalCallee? callee with
  | some name =>
    let index ← nameConstant name
    let code ← args #[]
    return code ++ (← emit (named index count))
  | none =>
    let code ← args (← value)
    return code ++ (← emit (direct count))

mutual

def expr : Expr → Compile Fragment
  | .int n => push (.int n)
  | .float x => push (.float x)
  | .str s => push (.str s)
  | .absent => emit .pushAbsent
  | .fstring parts => do
    if parts.isEmpty then push (.str "")
    else
      let count ← wide .fstringTooLong parts.length
      let code ← fparts parts #[]
      return code ++ (← emit (.buildString count))
  | .var name => read name
  | .binary op a b => do
    match (Expr.binary op a b).fold? with
    | some x => push x.toValue
    | none =>
      let left ← expr a
      let right ← expr b
      return left ++ right ++ (← emit (.binary op))
  | .neg a => do
    match (Expr.neg a).fold? with
    | some x => push x.toValue
    | none =>
      let code ← expr a
      return code ++ (← emit .neg)
  | .not a => do
    let code ← expr a
    return code ++ (← emit .logicNot)
  | .and a b => do
    let left ← expr a
    let short ← reserve
    let right ← expr b
    let truth ← emit .toBool
    let done ← reserve
    let skip ← fill short .jumpIfFalse
    let no ← push (.int 0)
    let out ← fill done .jump
    return left ++ skip ++ right ++ truth ++ out ++ no
  | .or a b => do
    let left ← expr a
    let short ← reserve
    let yes ← push (.int 1)
    let done ← reserve
    let skip ← fill short .jumpIfFalse
    let right ← expr b
    let truth ← emit .toBool
    let out ← fill done .jump
    return left ++ skip ++ yes ++ out ++ right ++ truth
  | .call callee args =>
    call callee args.length (expr callee) (exprs args) .callNamed .call
  | .index object keys => do
    let code ← expr object
    let code ← exprs keys code
    let code := code ++ (← packKeys keys.length)
    return code ++ (← emit .getIndex)
  | .array items => do
    let count ← wide .arrayTooLarge items.length
    let code ← exprs items #[]
    return code ++ (← emit (.buildArray count))
  | .dict entries => do
    let count ← wide .dictTooLarge entries.length
    let code ← pairs entries #[]
    return code ++ (← emit (.buildDict count))
  | .await (.call callee args) => do
    let code ← call callee args.length (expr callee) (exprs args) .spawnNamed .spawn
    return code ++ (← emit .await)
  | .await a => do
    let code ← expr a
    return code ++ (← emit .await)
  | .spawn callee args =>
    call callee args.length (expr callee) (exprs args) .spawnNamed .spawn

/-- The code of expressions, behind the code `done`. -/
def exprs : List Expr → Fragment → Compile Fragment
  | [], done => return done
  | e :: es, done => do
    let code ← expr e
    exprs es (done ++ code)

def pairs : List (Expr × Expr) → Fragment → Compile Fragment
  | [], done => return done
  | (key, value) :: es, done => do
    let code ← expr key
    let done := done ++ code
    let code ← expr value
    pairs es (done ++ code)

def fparts : List FPart → Fragment → Compile Fragment
  | [], done => return done
  | .text s :: ps, done => do
    let code ← push (.str s)
    fparts ps (done ++ code)
  | .code e :: ps, done => do
    let code ← expr e
    fparts ps (done ++ code)

end

end Compile

end TaskBasic
