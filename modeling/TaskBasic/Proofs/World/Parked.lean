import TaskBasic.Proofs.World.Stage
import TaskBasic.Proofs.World.Wakeups

/-
Tasks that wait.

Whatever other tasks, native work and other programs do, a task that waits stays
as it is, until it can go on and has its turn (`World.Evolves.holds`).  A program
that has taken a step and looks for its next task has woken all tasks that can go
on (`World.Undecided.heeds`).
-/

namespace TaskBasic

open Relation

/-- Whether a task can go on depends on the arrays and on what is settled only. -/
theorem Task.canResume_congr {h h' : Heap} (harrays : h'.arrays = h.arrays)
    (hsettled : ∀ p, (h'.promise p).isSettled = (h.promise p).isSettled) (t : Task) :
    t.canResume h' = t.canResume h := by
  have harray (a : ArrayRef) : h'.array a = h.array a := by rw [Heap.array, harrays, Heap.array]
  rw [Bool.eq_iff_iff, Task.canResume_iff, Task.canResume_iff]
  simp only [Task.Awaits, harray, hsettled]

theorem Task.canResume_observe (h : Heap) (p : PromiseRef) (t : Task) :
    t.canResume (h.modifyPromise p Promise.observe) = t.canResume h := by
  refine Task.canResume_congr (by rfl) (fun q => ?_) t
  rw [Heap.promise_modifyPromise _ p q rfl]
  split
  · rw [Promise.observe]
    split <;> rfl
  · rfl

/-! ### Tasks that do not act -/

/-- What an instruction leaves of the other tasks. -/
theorem Ledger.Deed.tasks {L L' : Ledger} (h : L.Deed L') :
    L.scheduler.ready ++ L.scheduler.waiting ⊆ L'.scheduler.ready ++ L'.scheduler.waiting := by
  cases h with
  | enters h =>
    cases h with
    | nothing | resolved | registered => exact List.Subset.refl _
    | spawned =>
      exact List.append_subset.mpr ⟨fun _ ht => List.mem_append_left _ (List.mem_append_left _ ht),
        List.subset_append_right _ _⟩
  | waits | loads => exact List.Subset.refl _

/-- None of the tasks of the run acts; some that waited may be awake. -/
structure Run.Keeps (run run' : Run) : Prop where
  current : run'.current = run.current
  ending : run'.ending = none → run.ending = none
  tasks : run.tasks ⊆ run'.tasks
  waiting : run'.scheduler.waiting ⊆ run.scheduler.waiting

namespace Run.Keeps

variable {run run' run'' : Run}

theorem refl (run : Run) : run.Keeps run :=
  ⟨rfl, id, List.Subset.refl _, List.Subset.refl _⟩

theorem trans (h : run.Keeps run') (h' : run'.Keeps run'') : run.Keeps run'' where
  current := h'.current.trans h.current
  ending he := h.ending (h'.ending he)
  tasks := List.Subset.trans h.tasks h'.tasks
  waiting := List.Subset.trans h'.waiting h.waiting

theorem of_still (h : run.still = run'.still) : run.Keeps run' := by
  have hending : run.ending = run'.ending := congrArg (·.ending) h
  have htasks : run.tasks = run'.tasks := congrArg (·.tasks) h
  have hwaiting : run.scheduler.waiting = run'.scheduler.waiting :=
    congrArg (·.scheduler.waiting) h
  exact ⟨(congrArg Run.current h :).symm, hending.trans, fun _ ht => htasks ▸ ht,
    fun _ ht => hwaiting ▸ ht⟩

theorem natives (run : Run) (natives : List Native) :
    run.Keeps { run with scheduler := { run.scheduler with natives := natives } } :=
  ⟨rfl, id, List.Subset.refl _, List.Subset.refl _⟩

theorem wake (run : Run) (h : Heap) :
    run.Keeps { run with scheduler := run.scheduler.wake h } := by
  refine ⟨rfl, id, ((Scheduler.perm_wake _ h).append_left _).symm.subset, ?_⟩
  rw [Scheduler.wake, List.partition_eq_filter_filter]
  exact List.filter_subset_self _

end Run.Keeps

namespace World

variable {w w' w'' : World} {r q : Nat} {t : Task} {run run' : Run}

/-- From `w` to `w'` no task of the run `r` acts. -/
structure Keeps (r : Nat) (w w' : World) : Prop where
  size : w.runs.size ≤ w'.runs.size
  run : r < w.runs.size → ∀ run', w'.run? r = some run' →
    ∃ run, w.run? r = some run ∧ run.Keeps run'

namespace Keeps

theorem refl (w : World) : w.Keeps r w :=
  ⟨Nat.le_refl _, fun _ run hrun => ⟨run, hrun, .refl _⟩⟩

theorem trans (h : Keeps r w w') (h' : Keeps r w' w'') : Keeps r w w'' where
  size := h.size.trans h'.size
  run hr run'' hrun'' := by
    obtain ⟨run', hrun', hk'⟩ := h'.run (Nat.lt_of_lt_of_le hr h.size) run'' hrun''
    obtain ⟨run, hrun, hk⟩ := h.run hr run' hrun'
    exact ⟨run, hrun, hk.trans hk'⟩

theorem of_runs (h : w'.runs = w.runs) : Keeps r w w' := by
  refine ⟨h ▸ Nat.le_refl _, fun _ run' hrun' => ⟨run', ?_, .refl _⟩⟩
  rwa [run?, ← h]

/-- The same from a world with the same runs. -/
theorem since (h : Keeps r w' w'') (hruns : w'.runs = w.runs) : Keeps r w w'' :=
  (of_runs hruns).trans h

theorem of_still (h : w.Still w') : Keeps r w w' := by
  refine ⟨h.size.ge, fun _ run' hrun' => ?_⟩
  obtain ⟨run, hrun, heq⟩ := run_of_runs h.runs hrun'
  exact ⟨run, hrun, .of_still heq⟩

theorem setRun (hrun : w.run? q = some run) (hk : q = r → run.Keeps run') :
    Keeps r w (w.setRun q run') := by
  refine ⟨by simp [World.setRun], fun hr other hother => ?_⟩
  by_cases hq : q = r
  · subst hq
    cases (run?_setRun_self hrun run').symm.trans hother
    exact ⟨run, hrun, hk rfl⟩
  · rw [run?, World.setRun, Array.getElem?_setIfInBounds, if_neg hq] at hother
    exact ⟨other, hother, .refl _⟩

theorem modifyScheduler {f : Scheduler → Scheduler}
    (hf : ∀ run : Run, run.Keeps { run with scheduler := f run.scheduler }) (w : World) (q : Nat) :
    Keeps r w (w.modifyScheduler q f) := by
  rw [World.modifyScheduler]
  split
  next hrun => exact .setRun hrun fun _ => hf _
  next => exact .refl w

theorem wake (w : World) (q : Nat) : Keeps r w (w.wake q) :=
  .modifyScheduler (fun run => .wake run _) w q

theorem settle (w : World) (p : PromiseRef) (outcome : Except String Value) :
    Keeps r w (w.settle p outcome) := by
  exact .since (.of_still (.notifyAll (fun x : PromiseRef × NativeRef => x.2) _ _)) rfl

theorem complete (w : World) (n : NativeRef) (result : Except String Value) :
    Keeps r w (w.complete n result) := by
  rw [World.complete]
  split
  next => exact .refl w
  next native _ =>
    have hremove : Keeps r w (w.modifyScheduler n.run (·.remove n.native)) :=
      .modifyScheduler (f := (·.remove n.native)) (fun run => .natives run _) w _
    exact ((hremove.trans (.of_still (.endVisit _ _))).trans (.settle _ _ _)).trans (.wake _ _)

theorem finish (w : World) (q : Nat) (result : Except EvalError Value) :
    Keeps r w (w.finish q result) := by
  rw [World.finish]
  split
  next hrun =>
    exact .setRun hrun fun _ => ⟨rfl, fun h => absurd h (Option.some_ne_none _),
      List.Subset.refl _, List.Subset.refl _⟩
  next => exact .refl w

theorem failLoad (w : World) (n : NativeRef) (path : String) (e : EvalError) :
    Keeps r w (w.failLoad n path e) := by
  rw [World.failLoad.eq_def]
  split
  · exact (Keeps.finish _ _ _).since rfl
  · exact (Keeps.finish _ _ _).since rfl
  · exact (Keeps.complete _ n _).since rfl

theorem drop (w : World) (q : Nat) : Keeps r w (w.drop q) := by
  obtain ⟨hsize, hkept⟩ := run?_withoutRun w.runs q
  exact ⟨hsize.ge, fun _ run hrun => ⟨run, ((hkept r run).mp hrun).1, .refl _⟩⟩

theorem endRun {result : Except EvalError Value} (h : w.endRun q run result = .going w') :
    Keeps r (w.drop q) w' := by
  rw [World.endRun] at h
  split at h
  · split at h <;> cases h
    · exact (Keeps.complete _ _ _).since rfl
    · exact .failLoad _ _ _ _
  · cases h

theorem start (w : World) (c : Compiled) (program : ProgramState) (owner : Option NativeRef) :
    Keeps r w (w.start c program owner) := by
  refine ⟨by simp [World.start], fun hr run hrun => ⟨run, ?_, .refl _⟩⟩
  rw [run?, World.start, Array.getElem?_push_lt hr] at hrun
  rwa [run?, Array.getElem?_eq_getElem hr]

theorem setWork (w : World) (n : NativeRef) (work : Work) :
    Keeps r w (w.modifyScheduler n.run (·.setWork n.native work)) :=
  .modifyScheduler (f := (·.setWork n.native work)) (fun run => .natives run _) w _

theorem edits (h : ReflTransGen Edit w w') : Keeps r w w' ∧ w'.shared.heap = w.shared.heap := by
  induction h with
  | refl => exact ⟨.refl w, rfl⟩
  | @tail u v _ hedit ih =>
    have hset (n : NativeRef) (work : Work) :
        (u.modifyScheduler n.run (·.setWork n.native work)).shared.heap = w.shared.heap := by
      rw [shared_modifyScheduler]
      exact ih.2
    cases hedit with
    | still h => exact ⟨ih.1.trans (.of_still h), h.heap.trans ih.2⟩
    | proceeds => exact ⟨ih.1.trans ((Keeps.setWork _ _ _).trans (.of_runs rfl)), hset _ _⟩
    | dozes _ _ heq =>
      cases heq
      exact ⟨ih.1.trans ((Keeps.setWork _ _ _).trans (.of_runs rfl)), hset _ _⟩
    | rouses => exact ⟨ih.1.trans (.setWork _ _ _), hset _ _⟩
    | forgets => exact ⟨ih.1.trans (.of_runs rfl), ih.2⟩

theorem visits (h : w.Visits q (.going w')) : Keeps r w w' := by
  cases h with
  | rests hedits => exact (edits hedits).1
  | completes h => exact (of_still h).trans (.complete _ _ _)
  | observes h => exact (of_still h).trans ((Keeps.complete _ _ _).since rfl)
  | starts h =>
    refine (of_still h).trans ?_
    rw [startModule.eq_def]
    dsimp only
    split
    · exact .failLoad _ _ _ _
    · exact (Keeps.setWork _ ⟨q, _⟩ _).trans (.start _ _ _ _)

end Keeps

/-! ### Tasks that can go on -/

/-- If the run `r` looks for its next task while `t` waits there, then `t` cannot go on. -/
def Heeds (w : World) (r : Nat) (t : Task) : Prop :=
  ∀ run, w.run? r = some run → run.ending = none → run.current = none →
    t ∈ run.scheduler.waiting → t.canResume w.shared.heap = false

theorem Keeps.heeds (h : Keeps r w w') (hr : r < w.runs.size) (hw : w.Heeds r t)
    (hready : t.canResume w'.shared.heap = t.canResume w.shared.heap) : w'.Heeds r t := by
  intro run' hrun' hending hcurrent ht
  obtain ⟨run, hrun, hk⟩ := h.run hr run' hrun'
  rw [hready]
  exact hw run hrun (hk.ending hending) (hk.current ▸ hcurrent) (hk.waiting ht)

theorem heeds_wake (w : World) (r : Nat) (t : Task) : (w.wake r).Heeds r t := by
  intro run hrun _ _ ht
  rw [wake, modifyScheduler] at hrun ⊢
  cases hold : w.run? r with
  | none =>
    rw [hold] at hrun
    cases hold.symm.trans hrun
  | some run0 =>
    rw [hold] at hrun
    dsimp only at hrun ⊢
    cases (run?_setRun_self hold _).symm.trans hrun
    exact Scheduler.canResume_wake _ _ t ht

theorem heeds_finish (w : World) (r : Nat) (result : Except EvalError Value) (t : Task) :
    (w.finish r result).Heeds r t := by
  intro run hrun hending
  rw [finish] at hrun
  split at hrun
  next hold =>
    cases (run?_setRun_self hold _).symm.trans hrun
    cases hending
  next hold => cases hold.symm.trans hrun

theorem Heeds.complete {n : NativeRef} (h : w.Heeds n.run t) (result : Except String Value) :
    (w.complete n result).Heeds n.run t := by
  rw [World.complete]
  split
  · exact h
  · exact heeds_wake _ _ _

theorem Heeds.visits (h : w.Heeds r t) (hr : r < w.runs.size) (hvisits : w.Visits r (.going w')) :
    w'.Heeds r t := by
  have hstill {u : World} (hu : w.Still u) : u.Heeds r t :=
    (Keeps.of_still hu).heeds hr h (by rw [hu.heap])
  cases hvisits with
  | rests hedits =>
    obtain ⟨hkeeps, hheap⟩ := Keeps.edits hedits
    exact hkeeps.heeds hr h (by rw [hheap])
  | completes hu => exact (hstill hu).complete (n := ⟨r, _⟩) _
  | @observes u id p outcome hu =>
    refine Heeds.complete (n := ⟨r, id⟩) ?_ outcome
    intro run hrun hending hcurrent ht
    rw [Task.canResume_observe]
    exact hstill hu run hrun hending hcurrent ht
  | @starts u id path content hu =>
    rw [startModule.eq_def]
    dsimp only
    split
    · rw [failLoad.eq_def]
      split
      · exact heeds_finish _ r _ t
      · exact heeds_finish _ r _ t
      · have hheeds := hstill hu
        exact Heeds.complete (n := ⟨r, id⟩) (by exact hheeds) _
    · refine ((Keeps.setWork u ⟨r, id⟩ _).trans (.start _ _ _ _)).heeds (hu.size ▸ hr)
        (hstill hu) ?_
      refine Task.canResume_congr (h := u.shared.heap) ?_ (fun p => ?_) t
      · rw [start, shared_modifyScheduler]
        rfl
      · rw [start, shared_modifyScheduler]
        show ((u.shared.heap.promises.push {})[p.index]?.getD default).isSettled = _
        rw [Array.getElem?_push]
        split
        next heq =>
          rw [Heap.promise, Array.getElem?_eq_none (by omega)]
          rfl
        next => rfl

/-! ### Tasks that act -/

/-- What becomes of a run `q` whose task has acted on the machine, and left it as `m`. -/
inductive Acts (w : World) (q : Nat) (run : Run) (m : Machine) : World → Prop
  | goes (s : Task) : Acts w q run m (w.putBack q run m (some s))
  | stops (s : Task) : Acts w q run m ((w.putBack q run m none).suspend q s)
  | pays (p : PromiseRef) (outcome : Except String Value) :
    Acts w q run m (((w.putBack q run m none).settle p outcome).wake q)
  | ends (result : Except EvalError Value) :
    Acts w q run m ((w.putBack q run m none).finish q result)

theorem acts_runTask (w : World) (q : Nat) (run : Run) (s : Task) : ∃ m : Machine,
    (w.machine run s).ledger.Deed m.ledger ∧ w.Acts q run m (w.runTask q run s) := by
  rw [runTask]
  by_cases hresume : s.canResume w.shared.heap = true
  · have hrecorded := Exec.taskAction_deeds w.shared.env (m := w.machine run s) hresume
    rw [hresume, if_neg (by decide)]
    change Recorded _ _ ((taskAction w.shared.env s).run _) at hrecorded
    rw [machine] at hrecorded ⊢
    dsimp only
    generalize (taskAction w.shared.env s).run _ = result at hrecorded ⊢
    cases result with
    | ok flow m =>
      refine ⟨m, hrecorded, ?_⟩
      cases flow with
      | next => exact .goes _
      | suspend => exact .stops _
      | finished v => exact .pays _ _
    | error fault m =>
      refine ⟨m, hrecorded.1, ?_⟩
      cases fault with
      | exit code | endless => exact .ends _
      | failure cause =>
        dsimp only
        split
        · exact .goes _
        · rw [failTask]
          split
          · exact .ends _
          · exact .pays _ _
  · -- the task has been woken too early, and waits again
    rw [Bool.eq_false_iff.mpr hresume, if_pos (by decide)]
    exact ⟨w.machine run s, .enters .nothing, .stops s⟩

/-- How a task that stops is taken back. -/
theorem run?_suspend (hrun : w.run? q = some run) (s : Task) :
    (w.suspend q s).run? q = some { run with
      scheduler := (run.scheduler.park w.shared.heap s).wake w.shared.heap } := by
  have hpark := run?_setRun_self hrun
    { run with scheduler := run.scheduler.park w.shared.heap s }
  simp only [suspend, wake, modifyScheduler, hrun, hpark]
  exact run?_setRun_self hpark _

namespace Acts

variable {m : Machine}

/-- The other programs. -/
theorem keeps (h : w.Acts q run m w') (hrun : w.run? q = some run) (hq : q ≠ r) :
    Keeps r w w' := by
  have hput (current : Option Task) : Keeps r w (w.putBack q run m current) := by
    have hset : Keeps r ({ w with shared := _ } : World) (w.putBack q run m current) :=
      .setRun hrun fun h => absurd h hq
    exact hset.since rfl
  cases h with
  | goes s => exact hput _
  | stops s =>
    refine .trans ((hput none).trans ?_) (.wake _ _)
    rw [modifyScheduler, run?_putBack hrun]
    exact .setRun (run?_putBack hrun m none) fun h => absurd h hq
  | pays p outcome => exact ((hput none).trans (.settle _ p outcome)).trans (.wake _ _)
  | ends result => exact (hput none).trans (.finish _ _ _)

/-- The other tasks of the program. -/
theorem tasks (h : w.Acts q run m w') (hrun : w.run? q = some run) (hrun' : w'.run? q = some run') :
    m.scheduler.ready ++ m.scheduler.waiting ⊆ run'.tasks := by
  have hput := run?_putBack hrun m
  have hafter {v : World} (hv : Keeps q (w.putBack q run m none) v)
      (hrun' : v.run? q = some run') : m.scheduler.ready ++ m.scheduler.waiting ⊆ run'.tasks := by
    obtain ⟨run1, hrun1, hk⟩ := hv.run (lt_of_run? (hput none)) run' hrun'
    cases (hput none).symm.trans hrun1
    exact hk.tasks
  cases h with
  | goes s =>
    cases (hput (some s)).symm.trans hrun'
    exact List.subset_cons_self _ _
  | stops s =>
    cases (run?_suspend (hput none) s).symm.trans hrun'
    refine List.Subset.trans (List.subset_cons_self s _) ?_
    exact ((Scheduler.perm_wake _ _).trans (Scheduler.perm_park _ _ s)).symm.subset
  | pays p outcome => exact hafter ((Keeps.settle _ p outcome).trans (.wake _ _)) hrun'
  | ends result => exact hafter (.finish _ _ _) hrun'

theorem heeds (h : w.Acts q run m w') (hrun : w.run? q = some run) : w'.Heeds q t := by
  cases h with
  | goes s =>
    intro run' hrun' _ hcurrent
    cases (run?_putBack hrun m (some s)).symm.trans hrun'
    cases hcurrent
  | stops s => exact heeds_wake _ q t
  | pays p outcome => exact heeds_wake _ q t
  | ends result => exact heeds_finish _ q result t

end Acts

/-! ### Steps -/

/-- The task `t` is one of the run `r`, unless the run has ended. -/
def Holds (w : World) (r : Nat) (t : Task) : Prop :=
  r < w.runs.size ∧ ∀ run, w.run? r = some run → t ∈ run.tasks

/-- It is the turn of the task `t` of the run `r`, and nothing that it waits for is pending. -/
structure Resumes (w : World) (r : Nat) (run : Run) (t : Task) : Prop where
  focus : w.focus = r
  turn : w.run? r = some run
  going : run.ending = none
  current : run.current = some t
  ready : t.canResume w.shared.heap = true

theorem Keeps.holds (h : Keeps r w w') (hw : w.Holds r t) : w'.Holds r t := by
  refine ⟨Nat.lt_of_lt_of_le hw.1 h.size, fun run' hrun' => ?_⟩
  obtain ⟨run, hrun, hk⟩ := h.run hw.1 run' hrun'
  exact hk.tasks (hw.2 run hrun)

/-- In a step no task of the run `r` acts, or one of the program that has the focus does, or that
program goes on with its next task. -/
theorem Evolves.cases (h : w.Evolves w') (hr : r < w.runs.size) (t : Task) :
    Keeps r w w' ∧ (w.focus = r → w.Heeds r t → w'.Heeds r t) ∨
    ∃ run, w.run? w.focus = some run ∧ run.ending = none ∧
      ((∃ s, run.current = some s ∧ w' = w.runTask w.focus run s) ∨
        ∃ s ready, run.current = none ∧ run.scheduler.ready = s :: ready ∧
          w' = w.setRun w.focus { run with
            current := some s, scheduler := { run.scheduler with ready := ready } }) := by
  have hedits (h : ReflTransGen Edit w w') :
      Keeps r w w' ∧ (w.focus = r → w.Heeds r t → w'.Heeds r t) := by
    obtain ⟨hkeeps, hheap⟩ := Keeps.edits h
    exact ⟨hkeeps, fun _ hw => hkeeps.heeds hr hw (by rw [hheap])⟩
  -- a program that ends is gone, and so are its tasks
  have hends {run : Run} {result : Except EvalError Value}
      (h : w.endRun w.focus run result = .going w') :
      Keeps r w w' ∧ (w.focus = r → w.Heeds r t → w'.Heeds r t) := by
    refine ⟨(Keeps.drop w _).trans (.endRun h), fun hq _ run' hrun' => ?_⟩
    obtain ⟨run0, hrun0, -⟩ := (Keeps.endRun h).run (r := r)
      (Nat.lt_of_lt_of_le hr (Keeps.drop (r := r) w _).size) run' hrun'
    exact absurd hq.symm (((run?_withoutRun w.runs _).2 r run0).mp hrun0).2.1
  cases h with
  | ticks htick =>
    rw [tick.eq_def] at htick
    split at htick
    next => cases htick
    next run hrun =>
      split at htick
      next => exact .inl (hends htick)
      next s hending hcurrent =>
        cases htick
        exact .inr ⟨run, hrun, hending, .inl ⟨s, hcurrent, rfl⟩⟩
      next s ready hending hcurrent hready =>
        cases htick
        exact .inr ⟨run, hrun, hending, .inr ⟨s, ready, hcurrent, hready, rfl⟩⟩
      next =>
        split at htick
        · exact .inl (hends htick)
        · have hvisits : w.Visits w.focus (.going w') := htick ▸ visits_goOn hrun
          refine .inl ⟨.visits hvisits, ?_⟩
          rintro rfl hw
          exact hw.visits hr hvisits
  | turns q | passes env => exact .inl ⟨.of_runs rfl, fun _ hw => hw⟩
  | @reorders q run ready queue hrun hready =>
    have hkeeps : Keeps r w (w.setRun q { run with
        scheduler := { run.scheduler with ready := ready, queue := queue } }) :=
      .setRun hrun fun _ =>
        ⟨rfl, id, ((hready.append_right _).append_left _).symm.subset, List.Subset.refl _⟩
    exact .inl ⟨hkeeps, fun _ hw => hkeeps.heeds hr hw rfl⟩
  | @reads n hn =>
    have hstill : w.Still { w with reads := w.reads.erase n } :=
      ⟨rfl, rfl, rfl, rfl, fun h => ⟨rfl, h.waiters, by rw [h.reads]; rfl⟩⟩
    exact .inl (hedits (.head (.still hstill) (edits_endRead _ n)))
  | @wakes time n hn =>
    exact .inl (hedits (edits_endSleeps w.sleepers [(time, n)]
      { w with sleepers := w.sleepers.erase (time, n) }
      (fun d hd => List.mem_singleton.mp hd ▸ hn) List.erase_subset))

/-- A task that is not at its turn stays as it is, and so does one that cannot go on. -/
theorem holds_runTask (hrun : w.run? w.focus = some run) {s : Task} (hs : run.current = some s)
    (hending : run.ending = none) (ht : w.Holds r t) :
    (w.runTask w.focus run s).Holds r t ∨ s = t ∧ w.Resumes r run t := by
  obtain ⟨m, hdeed, hacts⟩ := acts_runTask w w.focus run s
  by_cases hq : w.focus = r
  · subst hq
    have hsize : w.focus < (w.runTask w.focus run s).runs.size :=
      Nat.lt_of_lt_of_le ht.1 (hacts.keeps hrun (Nat.succ_ne_self w.focus).symm).size
    have hmem := ht.2 run hrun
    rw [Run.tasks, hs] at hmem
    rcases List.mem_cons.mp hmem with rfl | hmem
    · by_cases hresume : t.canResume w.shared.heap = true
      · exact .inr ⟨rfl, rfl, hrun, hending, hs, hresume⟩
      · -- the task has been woken too early, and waits again
        refine .inl ⟨hsize, fun run' hrun' => ?_⟩
        have hpark := run?_suspend (run?_setRun_self hrun { run with current := none }) t
        rw [runTask, Bool.eq_false_iff.mpr hresume, if_pos (by decide)] at hrun'
        cases hpark.symm.trans hrun'
        exact ((Scheduler.perm_wake _ _).trans (Scheduler.perm_park _ _ t)).symm.subset
          List.mem_cons_self
    · exact .inl ⟨hsize, fun run' hrun' => hacts.tasks hrun hrun' (hdeed.tasks hmem)⟩
  · exact .inl ((hacts.keeps hrun hq).holds ht)

theorem Evolves.holds (h : w.Evolves w') (ht : w.Holds r t) :
    w'.Holds r t ∨ ∃ run, w.Resumes r run t ∧ w' = w.runTask r run t := by
  rcases h.cases ht.1 t with
    ⟨hkeeps, -⟩ | ⟨run, hrun, hending, ⟨s, hs, rfl⟩ | ⟨s, ready, hs, hready, rfl⟩⟩
  · exact .inl (hkeeps.holds ht)
  · rcases holds_runTask hrun hs hending ht with ht | ⟨rfl, hresumes⟩
    · exact .inl ht
    · exact .inr ⟨run, hresumes, by rw [hresumes.focus]⟩
  · by_cases hq : w.focus = r
    · subst hq
      refine .inl ⟨by simpa [setRun] using ht.1, fun run' hrun' => ?_⟩
      have hmem := ht.2 run hrun
      cases (run?_setRun_self hrun _).symm.trans hrun'
      rw [Run.tasks, hs, hready] at hmem
      exact hmem
    · exact .inl ((Keeps.setRun hrun fun h => absurd h hq).holds ht)

theorem Evolves.size (h : w.Evolves w') (hr : r < w.runs.size) : r < w'.runs.size := by
  rcases h.cases hr default with ⟨hkeeps, -⟩ | ⟨run, hrun, -, ⟨s, -, rfl⟩ | ⟨s, _, -, -, rfl⟩⟩
  · exact Nat.lt_of_lt_of_le hr hkeeps.size
  · obtain ⟨m, -, hacts⟩ := acts_runTask w w.focus run s
    exact Nat.lt_of_lt_of_le hr (hacts.keeps hrun (Nat.succ_ne_self w.focus).symm).size
  · simpa [setRun] using hr

/-- What `t` waits for is decided by a step of its own program, or not at all. -/
def Undecided (r : Nat) (t : Task) (w w' : World) : Prop :=
  w.Evolves w' ∧ (w.focus = r ∨ t.canResume w'.shared.heap = t.canResume w.shared.heap)

/-- A program wakes its tasks. -/
theorem Undecided.heeds (h : Undecided r t w w') (hr : r < w.runs.size) (hw : w.Heeds r t) :
    w'.Heeds r t := by
  obtain ⟨hstep, hready⟩ := h
  have hother (hkeeps : Keeps r w w') (hq : w.focus ≠ r) : w'.Heeds r t :=
    hkeeps.heeds hr hw (hready.resolve_left hq)
  rcases hstep.cases hr t with
    ⟨hkeeps, hheeds⟩ | ⟨run, hrun, -, ⟨s, hs, rfl⟩ | ⟨s, _, hs, _, rfl⟩⟩ <;>
    by_cases hq : w.focus = r
  · exact hheeds hq hw
  · exact hother hkeeps hq
  · obtain ⟨m, -, hacts⟩ := acts_runTask w w.focus run s
    exact hq ▸ hacts.heeds hrun
  · obtain ⟨m, -, hacts⟩ := acts_runTask w w.focus run s
    exact hother (hacts.keeps hrun hq) hq
  · subst hq
    intro run' hrun' _ hcurrent
    cases (run?_setRun_self hrun _).symm.trans hrun'
    cases hcurrent
  · exact hother (.setRun hrun fun h => absurd h hq) hq

/-! ### Runs -/

/-- Whatever happens, a task stays as it is until it can go on and has its turn, or until its
program has ended. -/
theorem holds_of_evolves (h : ReflTransGen Evolves w w') (ht : w.Holds r t) :
    w'.Holds r t ∨ ∃ u run, ReflTransGen Evolves w u ∧ u.Resumes r run t ∧
      ReflTransGen Evolves (u.runTask r run t) w' := by
  induction h with
  | refl => exact .inl ht
  | @tail u v hpath hstep ih =>
    rcases ih with hu | ⟨x, run, hx, hresumes, hafter⟩
    · rcases hstep.holds hu with hv | ⟨run, hresumes, rfl⟩
      · exact .inl hv
      · exact .inr ⟨u, run, hpath, hresumes, .refl⟩
    · exact .inr ⟨x, run, hx, hresumes, hafter.tail hstep⟩

/-- A program that looks for its next task has not missed that `t` can go on, unless another
program has decided that. -/
theorem heeds_of_undecided (h : ReflTransGen (Undecided r t) w w') (hr : r < w.runs.size)
    (hw : w.Heeds r t) : w'.Heeds r t := by
  have hsize : r < w'.runs.size ∧ w'.Heeds r t := by
    induction h with
    | refl => exact ⟨hr, hw⟩
    | tail _ hstep ih => exact ⟨hstep.1.size ih.1, hstep.heeds ih.1 ih.2⟩
  exact hsize.2

end World

end TaskBasic
