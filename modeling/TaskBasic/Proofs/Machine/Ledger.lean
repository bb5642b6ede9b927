import TaskBasic.Machine.Step
import TaskBasic.Proofs.Modules.Waits

/-
What tasks are scheduled by.

The ledger of a machine holds the states of all promises, the scheduler, the
number and the promise of the running task, and what its imports depend on: the
module cache and the path of its program.

* `Ledger.Entry` — what an instruction other than an import can do to it: it adds
  a promise, with a task or a sleep that will settle it, or with its value.
* `Ledger.Deed` — what any instruction can do: an import adds a promise of the
  globals of a module that is loaded, of the outcome of a load that goes on, or
  of a load that it begins.
-/

namespace TaskBasic

structure Ledger where
  states : Array Promise.State
  scheduler : Scheduler
  id : Nat
  /-- The promise of the running task. -/
  promise : PromiseRef
  modules : ModuleCache
  /-- The file that the program comes from, if it comes from one. -/
  path : Option String

/-- Whether a promise is resolved or rejected. -/
def Ledger.isSettled (L : Ledger) (p : PromiseRef) : Bool :=
  match L.states[p.index]? with
  | some (.resolved _) | some (.rejected _) => true
  | _ => false

def Machine.ledger (m : Machine) : Ledger :=
  { states := m.heap.promises.map Promise.state, scheduler := m.scheduler, id := m.task.id,
    promise := m.task.promise, modules := m.modules, path := m.program.path }

theorem isSettled_promise (m : Machine) (p : PromiseRef) :
    (m.heap.promise p).isSettled = m.ledger.isSettled p := by
  rw [Heap.promise, Ledger.isSettled, Machine.ledger, Array.getElem?_map]
  cases m.heap.promises[p.index]? with
  | none => rfl
  | some q =>
    rw [Option.getD_some, Option.map_some, Promise.isSettled]
    cases q.state <;> rfl

/-- What one instruction can do to the ledger. -/
inductive Ledger.Entry (L : Ledger) : Ledger → Prop
  | nothing : Entry L L
  /-- A promise with its value. -/
  | resolved (v : Value) : Entry L { L with states := L.states.push (.resolved v) }
  /-- A promise of the result of a new task. -/
  | spawned (r : FunctionRef) (args : List Value) :
    Entry L { L with
      states := L.states.push .pending
      scheduler := L.scheduler.spawn r args ⟨L.states.size⟩ }
  /-- A promise that is kept when a sleep is over. -/
  | registered (milliseconds : Nat) :
    Entry L { L with
      states := L.states.push .pending
      scheduler := L.scheduler.register (.sleep milliseconds) ⟨L.states.size⟩ }

/-- The cache once it is recorded that `importer`, if it is a module, waits for `path`. -/
def ModuleCache.noted (c : ModuleCache) (importer : Option String) (path : String) : ModuleCache :=
  match importer with
  | some i => c.addImport i path
  | none => c

/-- What one instruction can do to the ledger, imports included. -/
inductive Ledger.Deed (L : Ledger) : Ledger → Prop
  | enters {L' : Ledger} : L.Entry L' → Deed L L'
  | waits {path : String} {p : PromiseRef} : L.modules.get? path = some (.loading p) →
    (∀ importer, L.path = some importer → ¬ L.modules.Leads path importer) →
    Deed L { L with
      states := L.states.push .pending
      scheduler := L.scheduler.register (.wait p) ⟨L.states.size⟩
      modules := L.modules.noted L.path path }
  /-- The import of a module that is not known. -/
  | loads {path : String} : L.modules.get? path = none →
    Deed L { L with
      states := L.states.push .pending
      scheduler := L.scheduler.register (.load path) ⟨L.states.size⟩
      modules := (L.modules.begin path ⟨L.states.size⟩).noted L.path path }

end TaskBasic
