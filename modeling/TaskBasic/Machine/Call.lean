import TaskBasic.Machine

/-
Calls, spawned calls, and imports.

A name that is called is a global function; else a global array or dictionary,
which one argument indexes; else a builtin function.
-/

namespace TaskBasic

/-- How the execution of a task goes on after an instruction. -/
inductive Flow
  | next
  /-- The task waits for the value on top of its stack. -/
  | suspend
  | finished (result : Value)

namespace Exec

def checkArity (f : Function) (count : Nat) : Exec Unit :=
  if f.arity = count then return () else fail (.arity f.name (toString f.arity) count)

/-- Enters a function whose arguments are the top `count` values. -/
def enter (env : Env) (r : FunctionRef) (count : Nat) : Exec Unit := do
  let f := (← heap).function r
  if f.isAsync then fail (.asyncCall f.name)
  checkArity f count
  let t := (← get).task
  if env.config.maxCallDepth ≤ t.frames.length then fail (.callDepth env.config.maxCallDepth)
  if t.stack.size < count then fail .stackUnderflow
  modifyTask fun t =>
    { t with frames := { function := r, base := t.stack.size - count } :: t.frames }

def notAFunction {α : Type} (v : Value) : Exec α := do
  fail (.notAFunction ((← heap).text v))

/-- Calls the value below its `count` arguments. -/
def call (env : Env) (count : Nat) : Exec Unit := do
  let callee ← peek count
  let index : Exec Unit := do
    if count = 1 then
      let key ← pop
      let _ ← pop
      push (← ofExcept ((← heap).get callee key))
    else notAFunction callee
  match callee with
  | .function r => enter env r count
  | .array _ => index
  | .dict _ => index
  | v => notAFunction v

def builtin (env : Env) (name : String) : Exec Builtin :=
  match if env.hasBuiltins then Builtin.ofName? name else none with
  | some b => return b
  | none => fail (.notAFunction name)

def applyBuiltin (env : Env) (b : Builtin) (args : List Value) : Exec Builtin.Result := do
  match b.call (← heap) env.now args with
  | .ok (h, r) =>
    modify fun m => { m with heap := h }
    return r
  | .error fault => throw fault

/-- Registers native work and gives the promise of its result. -/
def register (work : Work) : Exec PromiseRef := do
  let p ← alloc fun h => h.newPromise {}
  modify fun m => { m with scheduler := m.scheduler.register work p }
  return p

/-- Calls a builtin function by its name with the top `count` values. -/
def callBuiltin (env : Env) (name : String) (count : Nat) : Exec Flow := do
  let b ← builtin env name
  let args ← popMany count
  match ← applyBuiltin env b args with
  | .ready v =>
    push v
    return .next
  | .after ms =>
    let p ← register (.sleep ms)
    push (.future p)
    modifyTask fun t => { t with awaiting := true }
    return .suspend

/-- Gives the element of a container whose key is the top value. -/
def callIndex (container : Value) : Exec Flow := do
  let key ← pop
  push (← ofExcept ((← heap).get container key))
  return .next

def callNamed (env : Env) (name : String) (count : Nat) : Exec Flow := do
  let index (container : Value) : Exec Flow :=
    if count = 1 then callIndex container else callBuiltin env name count
  match (← get).program.globals[name]? with
  | some (.function r) =>
    let args ← popMany count
    push (.function r)
    args.forM push
    enter env r count
    return .next
  | some (.array r) => index (.array r)
  | some (.dict r) => index (.dict r)
  | _ => callBuiltin env name count

def spawnFunction (r : FunctionRef) (args : List Value) : Exec PromiseRef := do
  checkArity ((← heap).function r) args.length
  let p ← alloc fun h => h.newPromise {}
  modify fun m => { m with scheduler := m.scheduler.spawn r args p }
  return p

/-- A promise of an element of a container. -/
def spawnIndex (container key : Value) : Exec PromiseRef := do
  let v ← ofExcept ((← heap).get container key)
  alloc fun h => h.newPromise (.ofValue v)

def spawn (count : Nat) : Exec Unit := do
  let args ← popMany count
  let callee ← pop
  let p ← match callee, args with
    | .function r, args => spawnFunction r args
    | .array r, [key] => spawnIndex (.array r) key
    | .dict r, [key] => spawnIndex (.dict r) key
    | v, _ => notAFunction v
  push (.future p)

def spawnNamed (env : Env) (name : String) (count : Nat) : Exec Unit := do
  let args ← popMany count
  let plain : Exec PromiseRef := do
    let b ← builtin env name
    match ← applyBuiltin env b args with
    | .ready v => alloc fun h => h.newPromise (.ofValue v)
    | .after ms => register (.sleep ms)
  let p ← match (← get).program.globals[name]?, args with
    | some (.function r), args => spawnFunction r args
    | some (.array r), [key] => spawnIndex (.array r) key
    | some (.dict r), [key] => spawnIndex (.dict r) key
    | _, _ => plain
  push (.future p)

/-- Begins to load a module, or waits for it, or takes the globals it has left: a promise of
its globals. -/
def importModule (env : Env) (request : String) : Exec PromiseRef := do
  let m ← get
  match env.files.resolve m.program.baseDir request env.config.moduleExtension with
  | .error e => fail (.cannotImport request e.message)
  | .ok path =>
    let note (modules : ModuleCache) : ModuleCache :=
      match m.program.path with
      | some importer => modules.addImport importer path
      | none => modules
    match m.modules.get? path with
    | some (.loaded globals) => alloc fun h => h.newPromise (.ofValue (.dict globals))
    | some (.loading p) =>
      if (m.program.path.map fun importer => m.modules.closesCycle importer path).getD false then
        fail (.circularImport path)
      else
        modify fun m => { m with modules := note m.modules }
        register (.wait p)
    | none =>
      let p ← register (.load path)
      modify fun m => { m with modules := note (m.modules.begin path p) }
      return p

end Exec

end TaskBasic
