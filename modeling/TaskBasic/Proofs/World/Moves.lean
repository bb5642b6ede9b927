import TaskBasic.Proofs.Machine.Deeds
import TaskBasic.Proofs.World.Outline

/-
What a step does to the outline of a world.

`Outline.Step` lists what can happen to promises, modules, runs and native work.
A step of a world is a sequence of such steps; everything that is said about
loads and waits follows from the list.

* `World.steps_runTask` — what a task does.
* `World.steps_visits` — what a visit to native work does.
* `World.tick_steps` — what one step does.
-/

namespace TaskBasic

open Relation

def Outline.outcome? (o : Outline) (p : PromiseRef) : Option (Except String Value) :=
  match o.states[p.index]? with
  | some (.resolved v) => some (.ok v)
  | some (.rejected message) => some (.error message)
  | _ => none

/-- What can happen to the outline of a world.  Runs that satisfy `early` may end before their
native work is done. -/
inductive Outline.Step (early : Outline → Sketch → Prop) (o : Outline) : Outline → Prop
  /-- A promise with its value. -/
  | resolves (v : Value) : Step early o { o with states := o.states.push (.resolved v) }
  /-- A new task. -/
  | spawns {r : Nat} {s : Sketch} : o.run? r = some s →
    Step early o (Outline.setRun { o with states := o.states.push .pending } r
      { s with tasks := ⟨o.states.size⟩ ::ₘ s.tasks })
  /-- A new sleep. -/
  | sleeps {r : Nat} {s : Sketch} (milliseconds : Nat) : o.run? r = some s →
    Step early o (Outline.setRun { o with states := o.states.push .pending } r
      (s.register (.sleep milliseconds) ⟨o.states.size⟩))
  | waits {r : Nat} {s : Sketch} {path : String} {p : PromiseRef} : o.run? r = some s →
    o.modules.get? path = some (.loading p) →
    (∀ importer, s.path = some importer → ¬ o.modules.Leads path importer) →
    Step early o (Outline.setRun
      { o with states := o.states.push .pending, modules := o.modules.noted s.path path } r
      (s.register (.wait p) ⟨o.states.size⟩))
  /-- A new load. -/
  | loads {r : Nat} {s : Sketch} {path : String} : o.run? r = some s → o.modules.get? path = none →
    Step early o (Outline.setRun
      { o with
        states := o.states.push .pending
        modules := (o.modules.begin path ⟨o.states.size⟩).noted s.path path } r
      (s.register (.load path) ⟨o.states.size⟩))
  /-- A load comes nearer to its end. -/
  | proceeds {r id : Nat} {s : Sketch} {n : Native} {work : Work} : o.run? r = some s →
    s.native? id = some n → n.work.Proceeds work → Step early o (o.setRun r (s.setWork id work))
  /-- A sleep begins. -/
  | dozes {r id ms : Nat} {s : Sketch} {n : Native} : o.run? r = some s →
    s.native? id = some n → n.work = .sleep ms →
    Step early o { o.setRun r (s.setWork id .sleeping) with sleepers := o.sleepers ++ [⟨r, id⟩] }
  /-- The time of a sleep is over. -/
  | rouses {n : NativeRef} {s : Sketch} : n ∈ o.sleepers → o.run? n.run = some s →
    Step early o (o.setRun n.run (s.setWork n.native .slept))
  | forgets {sleepers : List NativeRef} : sleepers ⊆ o.sleepers →
    Step early o { o with sleepers := sleepers }
  | completes {r id : Nat} {s : Sketch} {n : Native} {outcome : Except String Value} :
    o.run? r = some s → s.native? id = some n →
    (n.work.isSleep = true ∧ outcome = .ok .absent ∨
      ∃ p, n.work = .wait p ∧ o.outcome? p = some outcome) →
    Step early o (o.complete ⟨r, id⟩ outcome)
  /-- A module begins to run. -/
  | starts {r id : Nat} {s : Sketch} {n : Native} {path : String}
      {content : Except FileError String} :
    o.run? r = some s → s.native? id = some n → n.work = .read path content →
    Step early o
      { o.setRun r (s.setWork id (.running path o.runs.size)) with
        states := o.states.push .pending
        runs := (o.setRun r (s.setWork id (.running path o.runs.size))).runs.push (some {
          owner := some ⟨r, id⟩
          path := some path
          tasks := {⟨o.states.size⟩}
          natives := []
          nextNative := 0 }) }
  | refuses {r id : Nat} {s : Sketch} {n : Native} {path message : String}
      {content : Except FileError String} :
    o.run? r = some s → s.native? id = some n → n.work = .read path content →
    Step early o (Outline.complete { o with modules := o.modules.erase path } ⟨r, id⟩
      (.error message))
  /-- A task ends, and its promise is settled. -/
  | pays {r : Nat} {s : Sketch} {p : PromiseRef} (outcome : Except String Value) :
    o.run? r = some s → p ∈ s.tasks →
    Step early o ((o.setRun r { s with tasks := s.tasks.erase p }).settle p outcome)
  | stops {r : Nat} {s : Sketch} {p : PromiseRef} : o.run? r = some s → p ∈ s.tasks →
    Step early o (o.setRun r { s with tasks := s.tasks.erase p })
  | loaded {r : Nat} {s : Sketch} {n : NativeRef} {path : String} {o' : Outline}
      (globals : DictRef) :
    o.run? r = some s → s.owner = some n → s.path = some path → s.natives = [] ∨ early o s →
    o.Drops r o' →
    Step early o (Outline.complete { o' with modules := o'.modules.finish path globals } n
      (.ok (.dict globals)))
  /-- The run of a module ends with an error. -/
  | fails {r : Nat} {s : Sketch} {n : NativeRef} {path : String} {o' : Outline} (message : String) :
    o.run? r = some s → s.owner = some n → s.path = some path → s.natives = [] ∨ early o s →
    o.Drops r o' →
    Step early o (Outline.complete { o' with modules := o'.modules.erase path } n (.error message))
  /-- The run of a module ends, and so will the run that it belongs to. -/
  | exits {r : Nat} {s : Sketch} {n : NativeRef} {path : String} {o' : Outline} :
    o.run? r = some s → s.owner = some n → s.path = some path → s.natives = [] ∨ early o s →
    o.Drops r o' →
    Step early o { o' with modules := o'.modules.erase path }

/-- Any number of steps. -/
abbrev Outline.Steps (early : Outline → Sketch → Prop) : Outline → Outline → Prop :=
  ReflTransGen (Outline.Step early)

/-! ### The running task -/

/-- What the ledger says of the run that the task belongs to. -/
def Ledger.sketch (L : Ledger) (owner : Option NativeRef) : Sketch :=
  { owner := owner
    path := L.path
    tasks := L.promise ::ₘ ((L.scheduler.ready ++ L.scheduler.waiting).map Task.promise : List _)
    natives := L.scheduler.natives.map Native.quiet
    nextNative := L.scheduler.nextNative }

theorem Run.sketch_running {run : Run} {t : Task} (h : run.current = some t) (heap : Heap)
    (modules : ModuleCache) : run.sketch = (t.ledger heap modules run).sketch run.owner := by
  rw [sketch, owed, h]
  rfl

/-- The outline once the run `r` is as the ledger says. -/
def Outline.entered (o : Outline) (r : Nat) (owner : Option NativeRef) (L : Ledger) : Outline :=
  Outline.setRun { o with states := L.states, modules := L.modules } r (L.sketch owner)

theorem Ledger.sketch_register (L : Ledger) (states : Array Promise.State) (modules : ModuleCache)
    (owner : Option NativeRef) (work : Work) (p : PromiseRef) :
    ({ L with
      states := states
      scheduler := L.scheduler.register work p
      modules := modules } : Ledger).sketch owner = (L.sketch owner).register work p := by
  show Sketch.mk _ _ _ _ _ = Sketch.mk _ _ _ _ _
  congr 1
  exact List.map_append

theorem Ledger.sketch_spawn (L : Ledger) (states : Array Promise.State) (owner : Option NativeRef)
    (f : FunctionRef) (args : List Value) (p : PromiseRef) :
    ({ L with states := states, scheduler := L.scheduler.spawn f args p } : Ledger).sketch owner =
      { L.sketch owner with tasks := p ::ₘ (L.sketch owner).tasks } := by
  show Sketch.mk _ _ _ _ _ = Sketch.mk _ _ _ _ _
  congr 1
  rw [sketch, Multiset.cons_swap]
  congr 1
  rw [Multiset.cons_coe, Multiset.coe_eq_coe]
  show (((L.scheduler.ready ++ [_]) ++ L.scheduler.waiting).map Task.promise).Perm _
  rw [List.append_assoc, List.singleton_append]
  exact List.perm_middle.map Task.promise

theorem Ledger.Deed.steps {early : Outline → Sketch → Prop} {L L' : Ledger} (h : L.Deed L')
    {o : Outline}
    {r : Nat} {owner : Option NativeRef} (hrun : o.run? r = some (L.sketch owner))
    (hstates : o.states = L.states) (hmodules : o.modules = L.modules) :
    Outline.Steps early o (o.entered r owner L') := by
  obtain ⟨states, modules, runs, sleepers⟩ := o
  cases hstates
  cases hmodules
  cases h with
  | enters h =>
    cases h with
    | nothing =>
      rw [Outline.entered, Outline.setRun_self hrun]
    | resolved v =>
      have hsame :=
        Outline.setRun_self (o := ⟨L.states.push (.resolved v), L.modules, runs, sleepers⟩)
        hrun
      have hstep : Outline.Step early ⟨L.states, L.modules, runs, sleepers⟩ _ := .resolves v
      rw [← hsame] at hstep
      exact .single hstep
    | spawned f args =>
      rw [Outline.entered, sketch_spawn]
      exact .single (.spawns hrun)
    | registered ms =>
      rw [Outline.entered, sketch_register]
      exact .single (.sleeps ms hrun)
  | waits hget hback =>
    rw [Outline.entered, sketch_register]
    exact .single (.waits hrun hget hback)
  | loads hget =>
    rw [Outline.entered, sketch_register]
    exact .single (.loads hrun hget)

namespace World

variable {early : Outline → Sketch → Prop} {w : World} {r : Nat} {run : Run} {t : Task}
  {m : Machine}

theorem outline_putBack_some (w : World) (r : Nat) (run : Run) (m : Machine) {t : Task}
    (ht : t.promise = m.task.promise) :
    (w.putBack r run m (some t)).outline = w.outline.entered r run.owner m.ledger := by
  rw [outline_putBack, Outline.entered]
  congr 1
  show Sketch.mk _ _ _ _ _ = Sketch.mk _ _ _ _ _
  congr 1
  show (↑(t.promise :: (m.scheduler.ready ++ m.scheduler.waiting).map Task.promise) :
    Multiset PromiseRef) = _
  rw [ht]
  rfl

theorem outline_putBack_none (hrun : w.run? r = some run) (m : Machine) :
    ∃ s, (w.outline.entered r run.owner m.ledger).run? r = some s ∧ m.task.promise ∈ s.tasks ∧
      (w.putBack r run m none).outline =
        (w.outline.entered r run.owner m.ledger).setRun r
          { s with tasks := s.tasks.erase m.task.promise } := by
  have hold : ({ w.outline with states := m.ledger.states, modules := m.ledger.modules } :
      Outline).run? r = some run.sketch := run?_outline_of hrun
  have hmem : m.ledger.promise ∈ (m.ledger.sketch run.owner).tasks := by
    simp [Ledger.sketch]
  refine ⟨m.ledger.sketch run.owner, ?_, hmem, ?_⟩
  · rw [Outline.entered, Outline.run?_setRun hold, if_pos rfl]
  · rw [outline_putBack, Outline.entered, Outline.setRun_setRun]
    congr 1
    show Sketch.mk _ _ _ _ _ = Sketch.mk _ _ _ _ _
    congr 1
    exact (Multiset.erase_cons_head _ _).symm

theorem run?_putBack (hrun : w.run? r = some run) (m : Machine) (current : Option Task) :
    (w.putBack r run m current).run? r =
      some { run with program := m.program, scheduler := m.scheduler, current := current } := by
  have hshared : ({ w with shared := { w.shared with
      heap := m.heap, console := m.console, modules := m.modules } } : World).run? r = some run :=
    hrun
  exact run?_setRun_self hshared _

/-- A task goes on, waits or ends. -/
theorem steps_runTask (hrun : w.run? r = some run) (ht : run.current = some t) :
    Outline.Steps early w.outline (w.runTask r run t).outline := by
  rw [runTask]
  by_cases hresume : t.canResume w.shared.heap = true
  · have hrecorded := Exec.taskAction_deeds w.shared.env (m := w.machine run t) hresume
    have hdeeds : ∀ {m : Machine}, (w.machine run t).ledger.Deed m.ledger →
        Outline.Steps early w.outline (w.outline.entered r run.owner m.ledger) := by
      intro m hdeed
      refine hdeed.steps ?_ rfl rfl
      rw [run?_outline_of hrun, run.sketch_running ht w.shared.heap w.shared.modules]
      rfl
    rw [hresume, if_neg (by decide)]
    rw [machine] at hrecorded hdeeds
    dsimp only
    generalize (taskAction w.shared.env t).run _ = result at hrecorded ⊢
    cases result with
    | ok flow m =>
      have hsteps := hdeeds hrecorded
      obtain ⟨s, hs, hmem, hnone⟩ := outline_putBack_none hrun m
      cases flow with
      | next =>
        show Outline.Steps early _ (w.putBack r run m (some m.task)).outline
        rw [outline_putBack_some w r run m rfl]
        exact hsteps
      | suspend =>
        show Outline.Steps early _ ((w.putBack r run m none).suspend r m.task).outline
        rw [outline_suspend (run?_putBack hrun m none), outline_putBack, Outline.setRun_setRun]
        exact hsteps
      | finished v =>
        show Outline.Steps early _
          (((w.putBack r run m none).settle m.task.promise (.ok v)).wake r).outline
        rw [outline_wake, outline_settle, hnone]
        exact hsteps.tail (.pays (.ok v) hs hmem)
    | error fault m =>
      have hsteps := hdeeds hrecorded.1
      obtain ⟨s, hs, hmem, hnone⟩ := outline_putBack_none hrun m
      have hstops : Outline.Steps early w.outline (w.putBack r run m none).outline := by
        rw [hnone]
        exact hsteps.tail (.stops hs hmem)
      cases fault with
      | exit code | endless =>
        show Outline.Steps early _ ((w.putBack r run m none).finish r _).outline
        rw [outline_finish]
        exact hstops
      | failure cause =>
        dsimp only
        split
        next t' hrec =>
          rw [outline_putBack_some w r run m (Task.recover?_promise hrec).2]
          exact hsteps
        next =>
          rw [failTask]
          split
          · rw [outline_finish]
            exact hstops
          · rw [outline_wake, outline_settle, hnone]
            exact hsteps.tail (.pays _ hs hmem)
  · -- the task has been woken too early, and waits again
    rw [Bool.eq_false_iff.mpr hresume, if_pos (by decide),
      outline_suspend (run?_setRun_self hrun _),
      outline_setRun, Outline.setRun_setRun, Outline.setRun_self]
    rw [run?_outline_of hrun, Run.sketch, Run.owed, ht]
    rfl

/-! ### Native work -/

theorem outcome?_outline (w : World) (p : PromiseRef) :
    w.outline.outcome? p = (w.shared.heap.promise p).outcome? := by
  rw [Outline.outcome?, outline, Array.getElem?_map, Heap.promise]
  cases w.shared.heap.promises[p.index]? with
  | none => rfl
  | some q =>
    rw [Option.map_some, Option.getD_some, Promise.outcome?]
    cases q.state <;> rfl

theorem compileText_error {source : String} {interactive : Bool} {base : Nat} {e : EvalError}
    (h : compileText source interactive base = .error e) :
    (∀ code, e ≠ .exit code) ∧ e ≠ .endless := by
  rw [compileText] at h
  split at h
  · cases h
    exact ⟨by rintro _ ⟨⟩, by rintro ⟨⟩⟩
  · split at h
    · cases h
      exact ⟨by rintro _ ⟨⟩, by rintro ⟨⟩⟩
    · cases h

/-- What changing how far native work is does to the outline. -/
theorem outline_setWork {s : Sketch} (hs : w.outline.run? r = some s) (id : Nat) (work : Work) :
    (w.modifyScheduler r (·.setWork id work)).outline = w.outline.setRun r (s.setWork id work) := by
  rw [run?_outline] at hs
  obtain ⟨run, hrun, rfl⟩ := Option.map_eq_some_iff.mp hs
  rw [outline_modifyScheduler hrun, Run.sketch_setWork]

theorem outline_sleep (w : World) (time : Nat) (n : NativeRef) :
    ({ w with sleepers := w.sleepers ++ [(time, n)] } : World).outline =
      { w.outline with sleepers := w.outline.sleepers ++ [n] } := by
  show Outline.mk _ _ _ (List.map _ (_ ++ _)) = _
  rw [List.map_append]
  rfl

section

variable {id : Nat} {s : Sketch} {n : Native}

theorem steps_startModule (hs : w.outline.run? r = some s) (hn : s.native? id = some n)
    {path : String} {content : Except FileError String} (hwork : n.work = .read path content) :
    Outline.Steps early w.outline (w.startModule ⟨r, id⟩ path content).outline := by
  have hrefused : ∀ e : EvalError, (∀ code, e ≠ .exit code) ∧ e ≠ .endless →
      Outline.Steps early w.outline (w.failLoad ⟨r, id⟩ path e).outline := by
    intro e he
    rw [failLoad.eq_def]
    dsimp only
    split
    · exact absurd rfl (he.1 _)
    · exact absurd rfl he.2
    · rw [outline_complete]
      exact .single (.refuses hs hn hwork)
  rw [startModule.eq_def]
  cases content with
  | error e => exact hrefused (.file e.message) ⟨by rintro _ ⟨⟩, by rintro ⟨⟩⟩
  | ok source =>
    dsimp only
    cases hcompiled : compileText source false w.shared.heap.functions.size with
    | error e => exact hrefused e (compileText_error hcompiled)
    | ok c =>
      have hsize : w.runs.size = w.outline.runs.size := Array.size_map.symm
      dsimp only
      rw [outline_start, outline_setWork hs, hsize]
      exact .single (.starts hs hn hwork)

end

/-! ### Visits -/

theorem AtWork.outline {n : NativeRef} {work : Work} (h : w.AtWork n work) : ∃ s native,
    w.outline.run? n.run = some s ∧ s.native? n.native = some native ∧ native.work = work := by
  obtain ⟨run, native, hrun, hnative, rfl⟩ := h
  refine ⟨run.sketch, native.quiet, run?_outline_of hrun, ?_, rfl⟩
  rw [Run.native?_sketch, hnative]
  rfl

theorem steps_edits {w' : World} (h : ReflTransGen Edit w w') :
    Outline.Steps early w.outline w'.outline := by
  induction h with
  | refl => exact .refl
  | @tail u v _ hedit ih =>
    refine ih.trans ?_
    cases hedit with
    | still h => rw [outline_of_still h]
    | @proceeds n _ work _ hn hwork =>
      obtain ⟨s, native, hs, hnative, rfl⟩ := hn.outline
      show Outline.Steps early _ (u.modifyScheduler n.run (·.setWork n.native work)).outline
      rw [outline_setWork hs]
      exact .single (.proceeds hs hnative hwork)
    | dozes time hn heq =>
      obtain ⟨s, native, hs, hnative, hwork⟩ := hn.outline
      cases heq
      rw [outline_sleep, outline_setWork hs]
      exact .single (.dozes hs hnative hwork)
    | @rouses n hn =>
      cases hrun : u.run? n.run with
      | none =>
        rw [modifyScheduler, hrun]
      | some run =>
        rw [outline_setWork (run?_outline_of hrun)]
        exact .single (.rouses hn (run?_outline_of hrun))
    | forgets _ hsub => exact .single (.forgets (List.map_subset _ hsub))

theorem steps_visits {w' : World} (h : w.Visits r (.going w')) :
    Outline.Steps early w.outline w'.outline := by
  cases h with
  | rests hedits => exact steps_edits hedits
  | completes hstill hn hsleep =>
    obtain ⟨s, native, hs, hnative, rfl⟩ := hn.outline
    rw [outline_complete, outline_of_still hstill]
    exact .single (.completes hs hnative (.inl ⟨hsleep, rfl⟩))
  | @observes u id p outcome hstill hn houtcome =>
    obtain ⟨s, native, hs, hnative, hwork⟩ := hn.outline
    have hobserved : ({ u with shared := { u.shared with
        heap := u.shared.heap.modifyPromise p Promise.observe } } : World).outline = w.outline := by
      rw [← outline_of_still hstill]
      show Outline.mk _ _ _ _ = _
      rw [Exec.states_observe]
      rfl
    rw [outline_complete, hobserved]
    exact .single (.completes hs hnative (.inr ⟨p, hwork, (outcome?_outline w p).trans houtcome⟩))
  | starts hstill hn =>
    obtain ⟨s, native, hs, hnative, hwork⟩ := hn.outline
    rw [← outline_of_still hstill] at hs ⊢
    exact steps_startModule hs hnative hwork

/-! ### One step -/

theorem steps_endRun (hrun : w.run? r = some run) (result : Except EvalError Value)
    (hends : run.sketch.natives = [] ∨ early w.outline run.sketch) {w' : World}
    (h : w.endRun r run result = .going w') : Outline.Steps early w.outline w'.outline := by
  have hs := run?_outline_of hrun
  have hdrops := w.drops_outline r
  rw [endRun.eq_def] at h
  dsimp only at h
  split at h
  next n path howner hpath =>
    split at h
    next =>
      cases h
      rw [finishLoad]
      dsimp only
      rw [outline_complete]
      exact .single (.loaded _ hs howner hpath hends hdrops)
    next e =>
      cases h
      rw [failLoad.eq_def]
      dsimp only
      split
      · rw [outline_finish]
        exact .single (.exits hs howner hpath hends hdrops)
      · rw [outline_finish]
        exact .single (.exits hs howner hpath hends hdrops)
      · rw [outline_complete]
        exact .single (.fails _ hs howner hpath hends hdrops)
  next => cases h

theorem tick_steps {w' : World} (h : w.tick = .going w')
    (hends : ∀ run, w.run? w.focus = some run → run.ending.isSome → early w.outline run.sketch) :
    Outline.Steps early w.outline w'.outline := by
  rw [tick.eq_def] at h
  split at h
  next => cases h
  next run hrun =>
    split at h
    next result hending =>
      exact steps_endRun hrun result (.inr (hends run hrun (by rw [hending]; rfl))) h
    next t _ ht =>
      cases h
      exact steps_runTask hrun ht
    next t ready _ hcurrent hready =>
      cases h
      rw [outline_setRun_same hrun]
      refine Run.sketch_congr rfl rfl ?_ rfl rfl
      rw [Run.owed, Run.owed, hcurrent, hready]
      rfl
    next =>
      split at h
      next hnatives =>
        refine steps_endRun hrun _ (.inl ?_) h
        rw [Run.sketch, List.isEmpty_iff.mp hnatives]
        rfl
      next => exact steps_visits (h ▸ visits_goOn hrun)

end World

end TaskBasic
