import Mathlib.Data.Multiset.AddSub
import Mathlib.Data.Multiset.MapFold
import TaskBasic.Proofs.World.Books

/-
The outline of a world.

The outline keeps what loads and waits depend on: the states of the promises,
the module cache, and of each run what it belongs to, its file, the promises
that its tasks owe, and its native work.  Whose turn it is, which native work is
to be looked at, and where the tasks are, is left out: looks, visits and alerts
do not change the outline.

* `outline_settle`, `outline_complete`, `outline_suspend`, `outline_start` — what
  the operations of a world do to its outline.
-/

namespace TaskBasic

/-- What the outline keeps of a run. -/
structure Sketch where
  /-- The native work that the run belongs to. -/
  owner : Option NativeRef
  /-- The file that the program comes from. -/
  path : Option String
  tasks : Multiset PromiseRef
  natives : List Native
  nextNative : Nat

/-- What loads and waits depend on. -/
structure Outline where
  states : Array Promise.State
  modules : ModuleCache
  runs : Array (Option Sketch)
  sleepers : List NativeRef

def Run.owed (run : Run) : Multiset PromiseRef :=
  (run.current.toList ++ (run.scheduler.ready ++ run.scheduler.waiting)).map Task.promise

def Run.sketch (run : Run) : Sketch :=
  { owner := run.owner
    path := run.program.path
    tasks := run.owed
    natives := run.scheduler.natives.map Native.quiet
    nextNative := run.scheduler.nextNative }

def World.outline (w : World) : Outline :=
  { states := w.shared.heap.promises.map Promise.state
    modules := w.shared.modules
    runs := w.runs.map (Option.map Run.sketch)
    sleepers := w.sleepers.map Prod.snd }

namespace Sketch

/-- The native work with a number. -/
def native? (s : Sketch) (id : Nat) : Option Native :=
  s.natives.find? (·.id == id)

/-- Adds native work. -/
def register (s : Sketch) (work : Work) (p : PromiseRef) : Sketch :=
  { s with
    natives := s.natives ++ [{ id := s.nextNative, promise := p, work := work }]
    nextNative := s.nextNative + 1 }

/-- Changes how far some native work is. -/
def setWork (s : Sketch) (id : Nat) (work : Work) : Sketch :=
  { s with natives := s.natives.map fun n => if n.id == id then { n with work := work } else n }

/-- Removes native work. -/
def remove (s : Sketch) (id : Nat) : Sketch :=
  { s with natives := s.natives.filter (·.id != id) }

end Sketch

namespace Outline

/-- The run with a number. -/
def run? (o : Outline) (r : Nat) : Option Sketch :=
  (o.runs[r]?).join

/-- Replaces a run. -/
def setRun (o : Outline) (r : Nat) (s : Sketch) : Outline :=
  { o with runs := o.runs.setIfInBounds r (some s) }

def settle (o : Outline) (p : PromiseRef) (outcome : Except String Value) : Outline :=
  { o with states := o.states.modify p.index (·.settle outcome) }

/-- Ends native work with its result. -/
def complete (o : Outline) (n : NativeRef) (outcome : Except String Value) : Outline :=
  match o.run? n.run with
  | none => o
  | some s =>
    match s.native? n.native with
    | none => o
    | some native => (o.setRun n.run (s.remove n.native)).settle native.promise outcome

variable {o : Outline} {r q : Nat} {s s' : Sketch}

theorem lt_of_run? (h : o.run? r = some s) : r < o.runs.size := by
  rw [run?] at h
  by_contra hge
  rw [Array.getElem?_eq_none (by omega)] at h
  cases h

theorem run?_setRun (h : o.run? r = some s) (q : Nat) :
    (o.setRun r s').run? q = if q = r then some s' else o.run? q := by
  have hlt := lt_of_run? h
  rw [run?, setRun, Array.getElem?_setIfInBounds]
  by_cases hq : r = q
  · subst hq
    rw [if_pos rfl, if_pos hlt, if_pos rfl]
    rfl
  · rw [if_neg hq, if_neg fun h => hq h.symm]
    rfl

theorem setRun_self (h : o.run? r = some s) : o.setRun r s = o := by
  have hlt := lt_of_run? h
  have hget : o.runs[r] = some s := by
    rw [run?, Array.getElem?_eq_getElem hlt] at h
    exact h
  have hruns : o.runs.setIfInBounds r (some s) = o.runs := by
    rw [Array.setIfInBounds, dif_pos hlt, ← hget, Array.set_getElem_self]
  rw [setRun, hruns]

theorem setRun_setRun : (o.setRun r s).setRun r s' = o.setRun r s' := by
  rw [setRun, setRun, setRun, Array.setIfInBounds_setIfInBounds]

end Outline

namespace Run

variable {run run' : Run}

/-- Two runs look alike if their tasks owe the same promises and their native work is the same. -/
theorem sketch_congr (howner : run'.owner = run.owner)
    (hpath : run'.program.path = run.program.path)
    (howed : run'.owed = run.owed)
    (hnatives : run'.scheduler.natives.map Native.quiet = run.scheduler.natives.map Native.quiet)
    (hnext : run'.scheduler.nextNative = run.scheduler.nextNative) : run'.sketch = run.sketch := by
  rw [sketch, sketch, howner, hpath, howed, hnatives, hnext]

theorem sketch_wake (h : Heap) :
    ({ run with scheduler := run.scheduler.wake h } : Run).sketch = run.sketch := by
  refine sketch_congr rfl rfl ?_ rfl rfl
  exact Multiset.coe_eq_coe.mpr (((Scheduler.perm_wake _ h).append_left _).map _)

theorem sketch_still : run.still.sketch = run.sketch := by
  show Sketch.mk _ _ _ (List.map _ (List.map _ _)) _ = _
  rw [List.map_map]
  rfl

theorem native?_sketch (id : Nat) :
    run.sketch.native? id = (run.scheduler.native? id).map Native.quiet :=
  Scheduler.find?_quiet _ id

theorem sketch_setWork (id : Nat) (work : Work) :
    ({ run with scheduler := run.scheduler.setWork id work } : Run).sketch =
      run.sketch.setWork id work := by
  show Sketch.mk _ _ _ _ _ = Sketch.mk _ _ _ _ _
  congr 1
  show (run.scheduler.natives.map _).map _ = (run.scheduler.natives.map _).map _
  rw [List.map_map, List.map_map]
  refine List.map_congr_left fun n _ => ?_
  show Native.quiet (if (n.id == id) = true then _ else _) =
    if (n.id == id) = true then _ else _
  split <;> rfl

theorem sketch_remove (id : Nat) :
    ({ run with scheduler := run.scheduler.remove id } : Run).sketch = run.sketch.remove id := by
  show Sketch.mk _ _ _ _ _ = Sketch.mk _ _ _ _ _
  congr 1
  show (run.scheduler.natives.filter _).map _ = (run.scheduler.natives.map _).filter _
  rw [List.filter_map]
  rfl

end Run

namespace World

variable {w : World} {r : Nat} {run run' : Run}

theorem run?_outline (w : World) (r : Nat) : w.outline.run? r = (w.run? r).map Run.sketch := by
  rw [Outline.run?, run?, outline, Array.getElem?_map]
  cases w.runs[r]? with
  | none => rfl
  | some entry => cases entry <;> rfl

theorem run?_outline_of (h : w.run? r = some run) : w.outline.run? r = some run.sketch := by
  rw [run?_outline, h]
  rfl

theorem outline_setRun (w : World) (r : Nat) (run : Run) :
    (w.setRun r run).outline = w.outline.setRun r run.sketch := by
  show Outline.mk _ _ _ _ = Outline.mk _ _ _ _
  congr 1
  show (w.runs.setIfInBounds r (some run)).map _ = _
  rw [Array.map_setIfInBounds]
  rfl

/-- A run that looks as before does not change the outline. -/
theorem outline_setRun_same (h : w.run? r = some run) (hrun : run'.sketch = run.sketch) :
    (w.setRun r run').outline = w.outline := by
  rw [outline_setRun, hrun]
  exact Outline.setRun_self (run?_outline_of h)

theorem outline_modifyScheduler_same {f : Scheduler → Scheduler}
    (hf : ∀ run : Run, ({ run with scheduler := f run.scheduler } : Run).sketch = run.sketch) :
    (w.modifyScheduler r f).outline = w.outline := by
  rw [modifyScheduler]
  split
  next h => exact outline_setRun_same h (hf _)
  next => rfl

theorem outline_modifyScheduler (h : w.run? r = some run) {f : Scheduler → Scheduler} :
    (w.modifyScheduler r f).outline =
      w.outline.setRun r ({ run with scheduler := f run.scheduler } : Run).sketch := by
  rw [modifyScheduler, h]
  exact outline_setRun w r _

theorem outline_of_still {w' : World} (h : w.Still w') : w'.outline = w.outline := by
  have hruns (v : World) : v.outline.runs = v.still.map (Option.map Run.sketch) := by
    show v.runs.map _ = (v.runs.map _).map _
    rw [Array.map_map]
    refine Array.map_congr_left fun entry _ => ?_
    cases entry with
    | none => rfl
    | some run => exact congrArg some run.sketch_still.symm
  show Outline.mk _ _ w'.outline.runs _ = _
  rw [hruns, h.heap, h.modules, h.runs, h.sleepers, ← hruns]
  rfl

@[simp] theorem outline_settle (w : World) (p : PromiseRef) (outcome : Except String Value) :
    (w.settle p outcome).outline = w.outline.settle p outcome := by
  rw [settle]
  generalize w.waiters.partition _ = parts
  obtain ⟨woken, waiters⟩ := parts
  refine (outline_of_still (.notifyAll (fun p : PromiseRef × NativeRef => p.2) woken _)).trans ?_
  show Outline.mk _ _ _ _ = Outline.mk _ _ _ _
  congr 1
  exact states_settle _ _ _

@[simp] theorem outline_wake (w : World) (r : Nat) : (w.wake r).outline = w.outline :=
  outline_modifyScheduler_same fun _ => Run.sketch_wake _

@[simp] theorem outline_finish (w : World) (r : Nat) (result : Except EvalError Value) :
    (w.finish r result).outline = w.outline := by
  rw [finish]
  split
  next h => exact outline_setRun_same h rfl
  next => rfl

theorem outline_complete (w : World) (n : NativeRef) (outcome : Except String Value) :
    (w.complete n outcome).outline = w.outline.complete n outcome := by
  rw [complete, Outline.complete, run?_outline]
  cases hrun : w.run? n.run with
  | none => rfl
  | some run =>
    rw [Option.bind_some, Option.map_some]
    dsimp only
    rw [Run.native?_sketch]
    cases hnative : run.scheduler.native? n.native with
    | none => rfl
    | some native =>
      rw [Option.map_some]
      dsimp only
      rw [outline_wake, outline_settle, outline_of_still (.endVisit _ _),
        outline_modifyScheduler hrun, Run.sketch_remove]
      rfl

/-- A task that is taken back owes its promise. -/
theorem outline_suspend (h : w.run? r = some run) (t : Task) :
    (w.suspend r t).outline =
      w.outline.setRun r { run.sketch with tasks := t.promise ::ₘ run.sketch.tasks } := by
  rw [suspend, outline_wake, outline_modifyScheduler h]
  congr 1
  have hnext : (run.scheduler.park w.shared.heap t).nextNative = run.scheduler.nextNative := by
    rw [Scheduler.park]
    split <;> rfl
  have howed : ({ run with scheduler := run.scheduler.park w.shared.heap t } : Run).owed =
      t.promise ::ₘ run.owed := by
    rw [Run.owed, Run.owed, Multiset.cons_coe, Multiset.coe_eq_coe]
    refine ((Scheduler.perm_park _ w.shared.heap t).append_left _).map Task.promise |>.trans ?_
    exact (List.perm_middle).map Task.promise
  show Sketch.mk _ _ _ _ _ = Sketch.mk _ _ _ _ _
  rw [howed, Scheduler.natives_park, hnext]
  rfl

/-- What a task has left behind. -/
theorem outline_putBack (w : World) (r : Nat) (run : Run) (m : Machine) (current : Option Task) :
    (w.putBack r run m current).outline =
      ({ w.outline with
        states := m.heap.promises.map Promise.state, modules := m.modules } : Outline).setRun r
          ({ run with program := m.program, scheduler := m.scheduler, current := current } :
            Run).sketch :=
  outline_setRun _ r _

/-- A new run has a task, whose promise is new. -/
theorem outline_start (w : World) (c : Compiled) (program : ProgramState)
    (owner : Option NativeRef) : (w.start c program owner).outline =
      { w.outline with
        states := w.outline.states.push .pending
        runs := w.outline.runs.push (some {
          owner := owner
          path := program.path
          tasks := {⟨w.outline.states.size⟩}
          natives := []
          nextNative := 0 }) } := by
  have hsize : w.outline.states.size = w.shared.heap.promises.size := Array.size_map
  rw [hsize]
  show Outline.mk ((w.shared.heap.promises.push {}).map _) _ ((w.runs.push _).map _) _ = _
  rw [Array.map_push, Array.map_push]
  rfl

end World

structure Outline.Drops (o : Outline) (r : Nat) (o' : Outline) : Prop where
  states : o'.states = o.states
  modules : o'.modules = o.modules
  size : o'.runs.size = o.runs.size
  kept : ∀ q s, o'.run? q = some s ↔
    o.run? q = some s ∧ q ≠ r ∧ ∀ n, s.owner = some n → n.run < q ∧ (o'.run? n.run).isSome
  sleepers : o'.sleepers ⊆ o.sleepers

theorem World.drops_outline (w : World) (r : Nat) : w.outline.Drops r (w.drop r).outline := by
  obtain ⟨hsize, hkept⟩ := run?_withoutRun w.runs r
  refine ⟨rfl, rfl, ?_, fun q s => ?_, ?_⟩
  · show ((withoutRun w.runs r).map _).size = (w.runs.map _).size
    rw [Array.size_map, Array.size_map, hsize]
  · simp only [run?_outline, Option.map_eq_some_iff, Option.isSome_map]
    constructor
    · rintro ⟨run, hrun, rfl⟩
      obtain ⟨hrun, hrest⟩ := (hkept q run).mp hrun
      exact ⟨⟨run, hrun, rfl⟩, hrest⟩
    · rintro ⟨⟨run, hrun, rfl⟩, hrest⟩
      exact ⟨run, (hkept q run).mpr ⟨hrun, hrest⟩, rfl⟩
  · exact List.map_subset _ (List.filter_subset_self _)

end TaskBasic
