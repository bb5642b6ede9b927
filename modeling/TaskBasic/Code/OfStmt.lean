import TaskBasic.Code.OfExpr
import TaskBasic.Stmt.Nested

/-
The code of statements.

A statement leaves the operand stack as deep as it found it, plus one slot for
each local that it declares in the enclosing block.

A `finally` block is compiled anew for every way out of its `try`: the regular
end, an error, and each `break`, `continue` and `return` across it.

* `Compile.exit` is the code of a jump out of `try` blocks.
* `Compile.stmt` is the code of a statement; it recurses on a bound of the
  nesting depth.
-/

namespace TaskBasic

structure LoopFrame where
  /-- Locals declared deeper belong to the body. -/
  scopeDepth : Nat
  tryDepth : Nat
  /-- Where a `continue` jumps back to, if that lies behind. -/
  again? : Option Nat

structure TryFrame where
  /-- The block that has to run on every way out. -/
  cleanup : Option (List Stmt)
  scopeDepth : Nat

structure Surroundings where
  /-- False at top level, where an assignment binds a global. -/
  inFunction : Bool := false
  /-- The hidden local that holds a value to be returned while `finally` blocks run. -/
  returnSlot : Option UInt16 := none
  loop : Option LoopFrame := none
  /-- The `try` blocks, innermost first. -/
  tries : List TryFrame := []

namespace Compile

def sequence (stmt : Stmt → Compile Fragment) (body : List Stmt) : Compile Fragment :=
  body.foldlM (fun code s => do return code ++ (← stmt s)) #[]

def block (stmt : Stmt → Compile Fragment) (body : List Stmt) : Compile Fragment := do
  enter
  let code ← sequence stmt body
  return code ++ (← leave)

/-- Code that stores the value on top of the stack into a variable; the value stays there if
it becomes a new local. -/
def storeVariable (around : Surroundings) (name : String) : Compile Fragment := do
  match ← localSlot? name with
  | some slot => return (← emit (.setLocal slot)) ++ (← emit .pop)
  | none =>
    if around.inFunction && !(← isGlobal name) then
      let _ ← declare name
      return #[]
    else return (← emit (.setGlobal (← nameConstant name))) ++ (← emit .pop)

def store (around : Surroundings) (target : Target) (value : Compile Fragment) :
    Compile Fragment := do
  match target with
  | .var name =>
    let code ← value
    return code ++ (← storeVariable around name)
  | .index object keys =>
    let code ← expr object
    let code ← exprs keys code
    let code := code ++ (← packKeys keys.length)
    let code := code ++ (← value)
    let code := code ++ (← emit .setIndex)
    return code ++ (← emit .pop)

def declaration (around : Surroundings) (name : String) : Compile Fragment := do
  let code ← emit .pushAbsent
  if around.inFunction && !(← isGlobal name) then
    let _ ← declare name
    return code
  else
    let code := code ++ (← emit (.setGlobal (← nameConstant name)))
    return code ++ (← emit .pop)

/-- Code that gives a loop variable a place that outlives the loop. -/
def ensureVariable (around : Surroundings) (name : String) : Compile Fragment := do
  let d ← get
  if around.inFunction && !d.globals.contains name && (d.scope.slot? name).isNone then
    let code ← emit .pushAbsent
    let _ ← declare name
    return code
  else return #[]

/-- Code that leaves the innermost `try` blocks until only `depth` are left, and runs their
`finally` blocks.  `block tries body` is the code of a block inside `tries`. -/
def leaveTries (block : List TryFrame → List Stmt → Compile Fragment) (depth : Nat) :
    List TryFrame → Compile Fragment
  | [] => return #[]
  | t :: outer => do
    if outer.length < depth then return #[]
    else
      let code ← discardAbove t.scopeDepth
      let code := code ++ (← emit .tryEnd)
      let code ← match t.cleanup with
        | some body => do pure (code ++ (← block outer body))
        | none => pure code
      return code ++ (← leaveTries block depth outer)

/-- The code of a jump that leaves all `try` blocks but the outermost `tryDepth` and all
locals deeper than `scopeDepth`.  What follows the jump still has these locals. -/
def exit (block : List TryFrame → List Stmt → Compile Fragment) (tries : List TryFrame)
    (scopeDepth tryDepth : Nat) (jump : Compile Fragment) : Compile Fragment := do
  let saved := (← get).scope.locals
  let code ← leaveTries block tryDepth tries
  let code := code ++ (← discardAbove scopeDepth)
  let code := code ++ (← jump)
  modify fun d => { d with scope := { d.scope with locals := saved } }
  return code

def returnValue : Option Expr → Compile Fragment
  | some e => expr e
  | none => emit .pushAbsent

def returning (block : List TryFrame → List Stmt → Compile Fragment) (around : Surroundings) :
    Compile Fragment := do
  match around.returnSlot, around.tries with
  | some slot, t :: outer =>
    let code ← emit (.setLocal slot)
    let code := code ++ (← emit .pop)
    let depth := (← get).scope.depth
    return code ++ (← exit block (t :: outer) depth 0 do
      return (← emit (.getLocal slot)) ++ (← emit .ret))
  | _, _ => emit .ret

def conditional (block : List Stmt → Compile Fragment) (otherwise : Option (List Stmt)) :
    List (Expr × List Stmt) → Compile Fragment
  | [] =>
    match otherwise with
    | some body => block body
    | none => return #[]
  | (condition, body) :: rest => do
    let test ← expr condition
    let skip ← reserve
    let body ← block body
    if rest.isEmpty && otherwise.isNone then
      return test ++ (← fill skip .jumpIfFalse) ++ body
    else
      let done ← reserve
      let skip ← fill skip .jumpIfFalse
      let more ← conditional block otherwise rest
      return test ++ skip ++ body ++ (← fill done .jump) ++ more

def whileLoop (block : LoopFrame → List Stmt → Compile Fragment) (tryDepth : Nat)
    (condition : Expr) (body : List Stmt) : Compile Fragment := do
  let start := (← get).offset
  let test ← expr condition
  let skip ← reserve
  let body ← block ⟨(← get).scope.depth, tryDepth, some start⟩ body
  let back ← loopTo start
  let out ← fill skip .jumpIfFalse
  let body ← resolve .leave skip.stop body
  return test ++ out ++ body ++ back

/-- The names of the hidden locals. -/
def endName : String := "(end)"
@[inherit_doc endName]
def stepName : String := "(step)"
@[inherit_doc endName]
def eachName : String := "(each)"
@[inherit_doc endName]
def indexName : String := "(index)"
@[inherit_doc endName]
def switchName : String := "(switch)"
@[inherit_doc endName]
def caughtName : String := "(caught)"
@[inherit_doc endName]
def errorName : String := "(error)"
@[inherit_doc endName]
def returnName : String := "(return)"

/-- The condition for another round of a counting loop: the variable has not passed the end
in the direction of the step. -/
def countCondition (var : String) : Expr :=
  .or (.and (.binary .gt (.var stepName) (.int 0)) (.binary .le (.var var) (.var endName)))
    (.and (.binary .lt (.var stepName) (.int 0)) (.binary .ge (.var var) (.var endName)))

def countNext (var : String) : Expr :=
  .binary .add (.var var) (.var stepName)

def countStep : Option Expr → Compile Fragment
  | some step => expr step
  | none => push (.int 1)

/-- The code of a counting loop.  End and step are evaluated once, into hidden locals. -/
def countLoop (around : Surroundings) (block : LoopFrame → List Stmt → Compile Fragment)
    (var : String) (start stop : Expr) (step : Option Expr) (body : List Stmt) :
    Compile Fragment := do
  let code ← store around (.var var) (expr start)
  enter
  let code := code ++ (← expr stop)
  let _ ← declare endName
  let code := code ++ (← countStep step)
  let _ ← declare stepName
  let start := (← get).offset
  let test ← expr (countCondition var)
  let skip ← reserve
  let body ← block ⟨(← get).scope.depth, around.tries.length, none⟩ body
  let body ← resolve .again skip.stop body
  let next ← store around (.var var) (expr (countNext var))
  let back ← loopTo start
  let out ← fill skip .jumpIfFalse
  let body ← resolve .leave skip.stop body
  return code ++ test ++ out ++ body ++ next ++ back ++ (← leave)

def eachTest (each index : UInt16) : Compile Fragment := do
  let code ← emit (.getLocal index)
  let code := code ++ (← emit (.getLocal each))
  let code := code ++ (← emit .len)
  return code ++ (← emit (.binary .lt))

def eachItem (each index : UInt16) : Compile Fragment := do
  let code ← emit (.getLocal each)
  let code := code ++ (← emit (.getLocal index))
  return code ++ (← emit .iterValue)

def eachNext (index : UInt16) : Compile Fragment := do
  let code ← emit (.getLocal index)
  let code := code ++ (← push (.int 1))
  let code := code ++ (← emit (.binary .add))
  let code := code ++ (← emit (.setLocal index))
  return code ++ (← emit .pop)

def eachLoop (around : Surroundings) (block : LoopFrame → List Stmt → Compile Fragment)
    (var : String) (items : Expr) (body : List Stmt) : Compile Fragment := do
  let code ← ensureVariable around var
  enter
  let code := code ++ (← expr items)
  let each ← declare eachName
  let code := code ++ (← push (.int 0))
  let index ← declare indexName
  let start := (← get).offset
  let test ← eachTest each index
  let skip ← reserve
  let bind ← store around (.var var) (eachItem each index)
  let begin := (← get).offset
  let body ← block ⟨(← get).scope.depth, around.tries.length, none⟩ body
  let body ← resolve .again begin body
  let next ← eachNext index
  let back ← loopTo start
  let out ← fill skip .jumpIfFalse
  let body ← resolve .leave begin body
  return code ++ test ++ out ++ bind ++ body ++ next ++ back ++ (← leave)

/-- The code of the values of a `case`: each is compared with the local `subject`, and a
match jumps behind all of them and behind the jump to the next case. -/
def caseTests (subject : UInt16) : List Expr → Compile (Fragment × Gap)
  | [] => return (#[], ← reserve)
  | value :: rest => do
    let test ← emit (.getLocal subject)
    let test := test ++ (← expr value)
    let test := test ++ (← emit (.binary .eq))
    let hit ← reserve
    let (more, miss) ← caseTests subject rest
    return (test ++ (← fill hit .jumpIfTrue) ++ more, miss)

/-- The code of the cases of a `switch`, and of the block if no value matches. -/
def cases (block : List Stmt → Compile Fragment) (subject : UInt16)
    (otherwise : Option (List Stmt)) : List (List Expr × List Stmt) → Compile Fragment
  | [] =>
    match otherwise with
    | some body => block body
    | none => return #[]
  | (values, body) :: rest => do
    let (tests, miss) ← caseTests subject values
    let body ← block body
    let done ← reserve
    let miss ← fill miss .jump
    let more ← cases block subject otherwise rest
    return tests ++ miss ++ body ++ (← fill done .jump) ++ more

def switchBlock (block : List Stmt → Compile Fragment) (subject : Expr)
    (arms : List (List Expr × List Stmt)) (otherwise : Option (List Stmt)) :
    Compile Fragment := do
  enter
  let code ← expr subject
  let slot ← declare switchName
  let code := code ++ (← cases block slot otherwise arms)
  return code ++ (← leave)

/-- Code that keeps the message on top of the stack while a `finally` block runs, and raises
it again. -/
def rethrow (block : List Stmt → Compile Fragment) (cleanup : List Stmt) :
    Compile Fragment := do
  let slot ← declare errorName
  let code ← block cleanup
  let code := code ++ (← emit (.getLocal slot))
  return code ++ (← emit .raise)

/-- The code of a block guarded by a handler that begins behind the block's regular end:
the code, and the room for the jump from there across the handler. -/
def guarded (block : List TryFrame → List Stmt → Compile Fragment) (tries : List TryFrame)
    (cleanup : Option (List Stmt)) (body : List Stmt) (ending : Compile Fragment) :
    Compile (Fragment × Gap) := do
  let handler ← reserve
  let body ← block (⟨cleanup, (← get).scope.depth⟩ :: tries) body
  let body := body ++ (← emit .tryEnd)
  let body := body ++ (← ending)
  let done ← reserve
  return ((← fill handler .tryBegin) ++ body, done)

/-- The code of the handler of a `try`, which begins with the message on top of the stack.
With a `finally` block, the catch block is guarded in turn. -/
def handler (stmt : List TryFrame → Stmt → Compile Fragment) (tries : List TryFrame)
    (handling : Option (String × List Stmt)) (cleanup : Option (List Stmt)) :
    Compile Fragment := do
  match handling, cleanup with
  | some (name, body), none =>
    enter
    let _ ← declare name
    let code ← sequence (stmt tries) body
    return code ++ (← leave)
  | some (name, body), some final =>
    enter
    let _ ← declare name
    let (code, done) ← guarded (fun tries => block (stmt tries)) tries (some final) body leave
    enter
    let _ ← declare caughtName
    let again ← rethrow (block (stmt tries)) final
    abandon
    return code ++ (← fill done .jump) ++ again
  | none, some final =>
    enter
    let code ← rethrow (block (stmt tries)) final
    abandon
    return code
  | none, none => emit .pop

def tryBlock (stmt : List TryFrame → Stmt → Compile Fragment) (tries : List TryFrame)
    (body : List Stmt) (handling : Option (String × List Stmt)) (cleanup : Option (List Stmt)) :
    Compile Fragment := do
  let (code, done) ← guarded (fun tries => block (stmt tries)) tries cleanup body (pure #[])
  let handler ← handler stmt tries handling cleanup
  let code := code ++ (← fill done .jump) ++ handler
  match cleanup with
  | some final => return code ++ (← block (stmt tries) final)
  | none => return code

def dim (around : Surroundings) (arrays : List (String × List Expr)) : Compile Fragment :=
  arrays.foldlM (fun code (name, sizes) => do
    let count ← narrow .dimensions sizes.length
    let more ← store around (.var name) do
      let code ← exprs sizes #[]
      return code ++ (← emit (.newArray count))
    return code ++ more) #[]

def declareParams : List String → Compile Unit
  | [] => return ()
  | param :: rest => do
    let _ ← declare param
    declareParams rest

/-- The beginning of a function: its parameters, and the hidden local for values to be
returned, with its slot, if the body has a `return` inside a `try`. -/
def opening (params : List String) (body : List Stmt) :
    Compile (Fragment × Option UInt16) := do
  enter
  declareParams params
  if body.any fun s => (s.nested false).any Stmt.isTryWithReturn then
    let code ← emit .pushAbsent
    return (code, some (← declare returnName))
  else return (#[], none)

/-- The code of a function: its beginning, its body, and a return behind it. -/
def functionCode (stmt : Surroundings → Stmt → Compile Fragment) (params : List String)
    (body : List Stmt) : Compile Fragment := do
  let (code, slot) ← opening params body
  let code := code ++ (← sequence (stmt { inFunction := true, returnSlot := slot }) body)
  let code := code ++ (← emit .pushAbsent)
  return code ++ (← emit .ret)

/-- Compiles the body of a function in a draft of its own, and adds the function. -/
def function (stmt : Surroundings → Stmt → Compile Fragment) (name : String)
    (params : List String) (isAsync isNative : Bool) (body : List Stmt) :
    Compile FunctionRef := do
  let outer ← get
  set { base := outer.base, functions := outer.functions, line := outer.line : Draft }
  let code ← functionCode stmt params body
  let d ← get
  let f : Function :=
    { name := name, arity := params.length, chunk := Fragment.chunk code d.constants,
      isAsync := isAsync, isNative := isNative }
  set { outer with functions := d.functions.push f }
  return ⟨d.base + d.functions.size⟩

def functionDeclaration (stmt : Surroundings → Stmt → Compile Fragment) (name : String)
    (params : List String) (isAsync isNative : Bool) (body : List Stmt) :
    Compile Fragment := do
  if 255 < params.length then fail (.tooManyParams name)
  else
    let f ← function stmt name params isAsync isNative body
    let code ← push (.function f)
    let code := code ++ (← emit (.setGlobal (← nameConstant name)))
    return code ++ (← emit .pop)

def stmt : Nat → Surroundings → Stmt → Compile Fragment
  | 0, _, _ => fail .tooDeep
  | fuel + 1, around, .mk line kind => do
    modify fun d => { d with line := line }
    let blockIn (tries : List TryFrame) (body : List Stmt) : Compile Fragment :=
      block (stmt fuel { around with tries := tries }) body
    let blockInLoop (loop : LoopFrame) (body : List Stmt) : Compile Fragment :=
      block (stmt fuel { around with loop := some loop }) body
    match kind with
    | .eval e =>
      let code ← expr e
      return code ++ (← emit .pop)
    | .assign target value => store around target (expr value)
    | .declare name => declaration around name
    | .print items =>
      let count ← narrow .printed items.length
      let code ← exprs items #[]
      return code ++ (← emit (.print count))
    | .input target none => store around target (emit (.input 0))
    | .input target (some prompt) =>
      store around target do
        let code ← expr prompt
        return code ++ (← emit (.input 1))
    | .ifChain branches otherwise =>
      conditional (block (stmt fuel around)) otherwise branches
    | .whileLoop condition body => whileLoop blockInLoop around.tries.length condition body
    | .countLoop var start stop step body =>
      countLoop around blockInLoop var start stop step body
    | .eachLoop var items body => eachLoop around blockInLoop var items body
    | .function name params isAsync isNative body =>
      functionDeclaration (stmt fuel) name params isAsync isNative body
    | .ret value =>
      if around.inFunction then
        let code ← returnValue value
        return code ++ (← returning blockIn around)
      else fail .returnOutsideFunction
    | .dim arrays => dim around arrays
    | .data _ => return #[]
    | .read targets =>
      targets.foldlM (fun code t => do return code ++ (← store around t (emit .readData))) #[]
    | .restore => emit .restoreData
    | .breakLoop =>
      match around.loop with
      | some loop =>
        exit blockIn around.tries loop.scopeDepth loop.tryDepth (step (.exit .leave))
      | none => fail .breakOutsideLoop
    | .continueLoop =>
      match around.loop with
      | some loop =>
        exit blockIn around.tries loop.scopeDepth loop.tryDepth
          (match loop.again? with
            | some target => loopTo target
            | none => step (.exit .again))
      | none => fail .continueOutsideLoop
    | .tryBlock body handling cleanup =>
      tryBlock (fun tries => stmt fuel { around with tries := tries }) around.tries body handling
        cleanup
    | .switchBlock subject arms otherwise =>
      switchBlock (block (stmt fuel around)) subject arms otherwise
    | .importModule path =>
      let code ← emit (.importModule (← constant (.str path)))
      let code := code ++ (← emit .await)
      return code ++ (← emit .mergeGlobals)
    | .spawn callee args =>
      let code ← expr (.spawn callee args)
      return code ++ (← emit .pop)
    | .global names =>
      if around.inFunction then
        modify fun d => { d with globals := names ++ d.globals }
        return #[]
      else fail .globalOutsideFunction
    | .raise e =>
      let code ← expr e
      return code ++ (← emit .raise)
    | .debug e text =>
      let code ← expr e
      return code ++ (← emit (.debug (← constant (.str text))))

end Compile

end TaskBasic
