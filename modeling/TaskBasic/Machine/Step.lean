import TaskBasic.Machine.Call

/-
One instruction of a task.

* `Exec.step` takes the next instruction of the innermost frame and executes
  it.
* `Task.recover?` continues a task behind a failure, in the handler of its
  innermost `try` region.
-/

namespace TaskBasic

/-- The value that a line of input stands for: an int if it is an integral number, a float
for other numbers, and else the line itself. -/
def inputValue (line : String) : Value :=
  let text := Text.trim line
  match Numeral.int64? text with
  | some n => .int n
  | none =>
    match Numeral.float? text with
    | none => .str line
    | some x =>
      match Dyadic.ofDouble? x with
      | none => .str line
      | some d =>
        if d.isIntegral && decide (d.truncate.natAbs < 9223372036854775808) then
          .int (Int64.ofInt d.truncate)
        else .float x

namespace Exec

/-- The value of a settled promise, which counts as looked at. -/
def settledValue (p : PromiseRef) : Exec (Except Failure Value) := do
  let promise := (← heap).promise p
  modify fun m => { m with heap := m.heap.modifyPromise p Promise.observe }
  match promise.outcome? with
  | some (.ok v) => return .ok v
  | some (.error message) => return .error (.raised message)
  | none => return .error .stillPending

/-- The result of awaiting an element of an array. -/
def settledElement : Value → Exec (Except Failure Value)
  | .future p => settledValue p
  | v => return .ok v

/-- Replaces the awaited value on top of the stack by its result.  Of an array, all elements
are looked at before the first failure counts. -/
def finishAwait : Exec Unit := do
  modifyTask fun t => { t with awaiting := false }
  let v ← match ← pop with
    | .future p => ofExcept (← settledValue p)
    | .array r =>
      let outcomes ← ((← heap).array r).toList.mapM settledElement
      let items ← ofExcept (outcomes.mapM id)
      alloc fun h => h.newArray items.toArray
    | v => pure v
  push v

/-- The entries of a dictionary literal, from its keys and values in turn. -/
def literalEntries (entries : Dict) : List Value → Except Failure Dict
  | .str key :: value :: rest => literalEntries (entries.insert key value) rest
  | key :: _ :: _ => .error (.keyKind key.kind)
  | _ => .ok entries

def ret : Exec Flow := do
  let v ← pop
  match (← get).task.frames with
  | [] => fail .noFrame
  | f :: frames =>
    modifyTask fun t =>
      { t with
        frames := frames
        tries := t.tries.filter fun b => decide (b.frameDepth ≤ frames.length)
        stack := t.stack.take (f.base - 1) }
    if frames.isEmpty then return .finished v
    else
      push v
      return .next

def getIndex (env : Env) : Exec Unit := do
  let key ← pop
  let object ← pop
  match object with
  | .function r =>
    let args := keyArguments key
    push (.function r)
    args.forM push
    enter env r args.length
  | _ => push (← ofExcept ((← heap).get object key))

def mergeGlobals : Exec Unit := do
  match ← pop with
  | .dict r =>
    let entries := (← heap).dict r
    modify fun m =>
      { m with
        program := { m.program with
          globals :=
            entries.foldl (fun globals name v => globals.insert name v) m.program.globals } }
  | v => fail (.cannotMerge v.kind)

def binary (op : BinaryOp) : Exec Unit := do
  let right ← pop
  let left ← pop
  match (← heap).binary op left right with
  | .ok (h, v) =>
    modify fun m => { m with heap := h }
    push v
  | .error fault => throw fault

/-- Jumps forward by `distance` if the popped value counts as `truth`. -/
def jumpIf (truth : Bool) (distance : UInt16) : Exec Unit := do
  let v ← pop
  if (← heap).isTrue v == truth then jumpTo ((← frame).ip + distance.toNat)

def andNext (action : Exec Unit) : Exec Flow := do
  action
  return .next

def await : Exec Flow := do
  let v ← peek 0
  if (← heap).isReady v then
    finishAwait
    return .next
  else
    modifyTask fun t => { t with awaiting := true }
    return .suspend

def readInput (prompt : String) : Exec Unit := do
  let line ← modifyGet fun m =>
    let (console, line) := m.console.read prompt
    (line, { m with console := console })
  push ((line.map inputValue).getD .absent)

def execute (env : Env) : Instr → Exec Flow
  | .constant index => andNext do push (← constant index)
  | .pushAbsent => andNext (push .absent)
  | .pop => andNext do
    let _ ← pop
  | .dup => andNext do push (← peek 0)
  | .getLocal slot => andNext do
    let place ← localPosition slot
    push ((← get).task.stack[place]?.getD .absent)
  | .setLocal slot => andNext do
    let place ← localPosition slot
    let v ← peek 0
    modifyTask fun t => { t with stack := t.stack.setIfInBounds place v }
  | .getGlobal index => andNext do
    let name ← name index
    match (← get).program.globals[name]? with
    | some v => push v
    | none => fail (.undefinedVariable name)
  | .setGlobal index => andNext do
    let name ← name index
    let v ← peek 0
    modify fun m =>
      { m with program := { m.program with globals := m.program.globals.insert name v } }
  | .binary op => andNext (binary op)
  | .neg => andNext do push (← ofExcept (Heap.negate (← pop)))
  | .logicNot => andNext do
    let v ← pop
    push (.ofBool (!(← heap).isTrue v))
  | .toBool => andNext do
    let v ← pop
    push (.ofBool ((← heap).isTrue v))
  | .jump distance => andNext do jumpTo ((← frame).ip + distance.toNat)
  | .jumpIfFalse distance => andNext (jumpIf false distance)
  | .jumpIfTrue distance => andNext (jumpIf true distance)
  | .loop distance => andNext do jumpTo ((← frame).ip - distance.toNat)
  | .call count => andNext (call env count.toNat)
  | .buildArray count => andNext do
    let items ← popMany count.toNat
    push (← alloc fun h => h.newArray items.toArray)
  | .buildDict count => andNext do
    let flat ← popMany (count.toNat * 2)
    let entries ← ofExcept (literalEntries ∅ flat)
    push (.dict (← alloc fun h => h.newDict entries))
  | .buildTuple count => andNext do push (.tuple (← popMany count.toNat))
  | .buildString count => andNext do
    let parts ← popMany count.toNat
    let h ← heap
    push (.str (String.join (parts.map h.text)))
  | .newArray count => andNext do
    let sizes ← popMany count.toNat
    let (h, v) ← ofExcept ((← heap).dim sizes)
    modify fun m => { m with heap := h }
    push v
  | .getIndex => andNext (getIndex env)
  | .setIndex => andNext do
    let v ← pop
    let key ← pop
    let object ← pop
    let h ← ofExcept ((← heap).set object v key)
    modify fun m => { m with heap := h }
    push v
  | .len => andNext do
    let v ← pop
    push (.ofNat (← ofExcept ((← heap).length v)))
  | .iterValue => andNext do
    let position ← pop
    let collection ← pop
    push (← ofExcept ((← heap).iterValue collection position))
  | .readData => andNext do
    let p := (← get).program
    match p.data[p.dataCursor]? with
    | some v =>
      modify fun m => { m with program := { m.program with dataCursor := p.dataCursor + 1 } }
      push v
    | none => fail .outOfData
  | .restoreData =>
    andNext (modify fun m => { m with program := { m.program with dataCursor := 0 } })
  | .print count => andNext do
    let items ← popMany count.toNat
    let line := " ".intercalate (items.map (← heap).text)
    modify fun m => { m with console := m.console.print line }
  | .debug index => andNext do
    let label ← constant index
    let v ← pop
    let h ← heap
    modify fun m => { m with console := m.console.print (h.text label ++ " = " ++ h.repr v) }
  | .input prompted => andNext do
    let prompt ← if prompted = 0 then pure "" else do
      let v ← pop
      pure ((← heap).text v)
    readInput prompt
  | .spawn count => andNext (spawn count.toNat)
  | .spawnNamed index count => andNext do spawnNamed env (← name index) count.toNat
  | .importModule index => andNext do push (.future (← importModule env (← name index)))
  | .mergeGlobals => andNext mergeGlobals
  | .tryBegin distance => andNext do
    let handler := (← frame).ip + distance.toNat
    modifyTask fun t =>
      { t with
        tries := { handler := handler, stackDepth := t.stack.size, frameDepth := t.frames.length }
          :: t.tries }
  | .tryEnd => andNext (modifyTask fun t => { t with tries := t.tries.drop 1 })
  | .raise => andNext do
    let v ← pop
    fail (.raised ((← heap).text v))
  | .callNamed index count => do callNamed env (← name index) count.toNat
  | .ret => ret
  | .await => await

/-- Executes the next instruction of the task. -/
def step (env : Env) : Exec Flow := do
  execute env (← fetch)

end Exec

namespace Task

/-- The task in the handler of its innermost `try` region, with a message on top of its
stack. -/
def recover? (t : Task) (message : String) : Option Task :=
  match t.tries with
  | [] => none
  | b :: tries =>
    match t.frames.drop (t.frames.length - b.frameDepth) with
    | [] => none
    | f :: frames =>
      some { t with
        tries := tries
        frames := { f with ip := b.handler } :: frames
        stack := (t.stack.take b.stackDepth).push (.str message)
        awaiting := false }

/-- The frames of a task that could not recover: those of its innermost `try` region, if it
is in one. -/
def framesLeft (t : Task) : List Frame :=
  match t.tries with
  | [] => t.frames
  | b :: _ => t.frames.drop (t.frames.length - b.frameDepth)

end Task

end TaskBasic
