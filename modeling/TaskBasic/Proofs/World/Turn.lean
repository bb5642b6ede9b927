import TaskBasic.Proofs.Machine.Placed
import TaskBasic.Proofs.Code.Imports
import TaskBasic.Proofs.Machine.Deeds
import TaskBasic.Proofs.World.Lone

/-
What a step does to a program that runs alone.

`Turn` lists what one step can do to the heap and to the run: which task it moves
where, which promise it settles, and what entry the task that acts makes in its
ledger.

* `World.Lone.turn` — every step of a world with a lone run is a turn.
-/

namespace TaskBasic

/-- The error of a program all of whose tasks wait. -/
def EvalError.deadlock : EvalError :=
  .running { message := Failure.deadlock.message }

def Task.ledger (t : Task) (h : Heap) (modules : ModuleCache) (run : Run) : Ledger :=
  { states := h.promises.map Promise.state, scheduler := run.scheduler, id := t.id,
    promise := t.promise, modules := modules, path := run.program.path }

structure Acted (h : Heap) (run : Run) (t : Task) (m : Machine) : Prop where
  current : run.current = some t
  resumes : t.canResume h = true
  entry : ∃ modules, (t.ledger h modules run).Entry m.ledger

def Run.after (run : Run) (m : Machine) (current : Option Task) : Run :=
  { run with program := m.program, scheduler := m.scheduler, current := current }

/-- What one step can do to the heap and to the run of a program that runs alone. -/
inductive Turn (h : Heap) (run : Run) : Heap → Run → Prop
  /-- The first task of the queue goes on. -/
  | picks {t ready} : run.current = none → run.scheduler.ready = t :: ready →
    Turn h run h { run with current := some t, scheduler := { run.scheduler with ready := ready } }
  /-- The task waits again. -/
  | parks {t} : run.current = some t → t.canResume h = false →
    Turn h run h { run with current := none, scheduler := (run.scheduler.park h t).wake h }
  | goes {t m t'} : Acted h run t m → t'.id = m.task.id → t'.promise = m.task.promise →
    Turn h run m.heap (run.after m (some t'))
  /-- The task has begun to wait. -/
  | suspends {t m} : Acted h run t m →
    Turn h run m.heap
      { run.after m none with scheduler := (m.scheduler.park m.heap m.task).wake m.heap }
  /-- The task ends with an outcome; the main task does not end with an error. -/
  | settles {t m outcome h'} : Acted h run t m →
    (m.task.promise = run.main → ∃ v, outcome = .ok v) →
    h' = m.heap.modifyPromise m.task.promise (·.settle outcome) →
    Turn h run h' { run.after m none with scheduler := m.scheduler.wake h' }
  /-- The program ends with an error. -/
  | stops {t m e} : Acted h run t m → e ≠ .deadlock →
    Turn h run m.heap { run.after m none with ending := some (.error e) }
  | looks {run'} : run.current = none → run.scheduler.ready = [] → run.Similar run' →
    Turn h run h run'
  /-- Native work is over. -/
  | completes {run' n h'} : run.current = none → run.scheduler.ready = [] → run.Similar run' →
    n ∈ run'.scheduler.natives → h' = h.modifyPromise n.promise (·.settle (.ok .absent)) →
    Turn h run h'
      { run' with scheduler := (run'.scheduler.remove n.id).wake h', visit := none }

/-! ### The running task -/

section

variable {fs : Array Function} {t t' : Task}

theorem Task.recover?_promise {message : String} (h : t.recover? message = some t') :
    t'.id = t.id ∧ t'.promise = t.promise := by
  rw [Task.recover?] at h
  split at h
  · cases h
  · split at h
    · cases h
    · cases h
      exact ⟨rfl, rfl⟩

theorem TriesPlaced.framesLeft (h : TriesPlaced fs t.frames t.tries) (hne : t.frames ≠ []) :
    t.framesLeft ≠ [] := by
  rw [Task.framesLeft]
  cases htries : t.tries with
  | nil => exact hne
  | cons b tries =>
    rw [htries] at h
    obtain ⟨_, f, rest, hdrop, _⟩ := h.each b (List.mem_cons_self ..)
    dsimp only
    rw [hdrop]
    exact List.cons_ne_nil _ _

theorem uncaughtError_ne_deadlock (limit : Nat) (h : Heap) (cause : Failure)
    (ht : t.framesLeft ≠ []) : EvalError.running (uncaughtError limit h t cause) ≠ .deadlock := by
  intro heq
  have hline := congrArg UncaughtError.line (EvalError.running.inj heq)
  rw [uncaughtError] at hline
  cases hframes : t.framesLeft with
  | nil => exact ht hframes
  | cons f F =>
    rw [hframes] at hline
    cases hline

theorem fetched_isImport {m : Machine} {i : Instr} {m' : Machine}
    (hfs : ∀ g ∈ fs, g.ImportFree) (hm : m.heap.functions = fs) (ht : m.task.Placed fs)
    (hrun : Exec.fetch.run m = .ok i m') : i.isImport = false := by
  cases hframes : m.task.frames with
  | nil => exact absurd hframes ht.active
  | cons f F =>
    obtain ⟨g, listing, j, hg, hsound, hj⟩ := ht.frames f (hframes ▸ List.mem_cons_self ..)
    obtain ⟨next, hd⟩ := hsound.reads.decode hj
    rw [Exec.run_fetch hframes, Heap.function, hm, hg, Option.getD_some, hd] at hrun
    cases hrun
    -- the function has one listing only
    obtain ⟨listing', hsound', hfree⟩ := hfs g (Array.mem_of_getElem? hg)
    rw [hsound.reads.unique hsound'.reads] at hj
    exact hfree f.ip i hj

theorem importFree_sound (hfs : ∀ g ∈ fs, g.ImportFree) :
    ∀ g ∈ fs, g.IsSound :=
  fun g hg => let ⟨listing, hsound, _⟩ := hfs g hg; ⟨listing, hsound⟩

/-- A task leaves nothing but sleep behind. -/
theorem Acted.sleeps {h : Heap} {run : Run} {m : Machine} (ha : Acted h run t m)
    (hs : ∀ n ∈ run.scheduler.natives, n.work.isSleep = true) :
    ∀ n ∈ m.scheduler.natives, n.work.isSleep = true := by
  obtain ⟨modules, hentry⟩ := ha.entry
  generalize hL : m.ledger = L at hentry
  have hscheduler : m.scheduler = L.scheduler := by
    rw [← hL]
    rfl
  rw [hscheduler]
  cases hentry with
  | nothing | resolved | spawned => exact hs
  | registered ms =>
    intro n hn
    rcases List.mem_append.mp hn with hn | hn
    · exact hs n hn
    · rw [List.mem_singleton.mp hn]
      rfl

end

namespace World

variable {w w' : World} {h : Heap} {run : Run}

theorem Lone.action (hw : w.Lone h run) (hfine : w.Fine Function.ImportFree Task.Placed) {t : Task}
    (ht : run.current = some t) (hresume : t.canResume h = true) :
    Recorded Ledger.Entry (w.machine run t).ledger
        ((taskAction w.shared.env t).run (w.machine run t)) ∧
      Ends (fun _ _ => True) (fun m => m.task.framesLeft ≠ [])
        ((taskAction w.shared.env t).run (w.machine run t)) := by
  have hrun := hfine.run hw.run?
  have htask := hrun.current t ht
  have hsound := importFree_sound hfine.heap.functions
  constructor
  · refine Exec.taskAction_records (m := w.machine run t) w.shared.env ?_ fun _ i m' hfetch => ?_
    · rw [← hw.heap] at hresume
      exact hresume
    · exact fetched_isImport hfine.heap.functions rfl htask.1 hfetch
  · cases hframes : t.frames with
    | nil => exact absurd hframes htask.1.active
    | cons f F =>
      have hmoves := Exec.taskAction_moves (m := w.machine run t) hfine.heap.known
        (placed_starts hsound).fine w.shared.env ⟨hfine.machine_runs hrun htask, hframes, rfl⟩
      refine hmoves.mono (fun _ _ _ => trivial) fun m hm => ?_
      obtain ⟨ip, hat⟩ := hm
      have htries := htask.1.tries
      rw [hframes] at htries
      have hplaced := htries.withIp ip
      rw [← hat.frames, show t.tries = m.task.tries from hat.tries.symm] at hplaced
      refine hplaced.framesLeft ?_
      rw [hat.frames]
      exact List.cons_ne_nil _ _

theorem Lone.turn_runTask (hw : w.Lone h run) (hfine : w.Fine Function.ImportFree Task.Placed)
    {t : Task} (ht : run.current = some t) :
    ∃ h' run', (w.runTask 0 run t).Lone h' run' ∧ Turn h run h' run' := by
  rw [World.runTask, hw.heap]
  by_cases hresume : t.canResume h = true
  · obtain ⟨hrecorded, hframes⟩ := hw.action hfine ht hresume
    rw [hresume, if_neg (by decide)]
    have hledger : (w.machine run t).ledger = t.ledger h w.shared.modules run := by
      rw [← hw.heap]
      rfl
    rw [hledger] at hrecorded
    rw [World.machine, hw.heap] at hrecorded hframes
    have hexit : ∀ code, EvalError.exit code ≠ .deadlock := fun _ => EvalError.noConfusion
    have hendless : EvalError.endless ≠ .deadlock := EvalError.noConfusion
    have hput : ∀ {m}, Acted h run t m → ∀ current,
        (w.putBack 0 run m current).Lone m.heap (run.after m current) :=
      fun ha current => hw.putBack current (ha.sleeps hw.sleeps)
    dsimp only
    generalize (taskAction w.shared.env t).run _ = result at hrecorded hframes ⊢
    cases result with
    | ok flow m =>
      have ha : Acted h run t m := ⟨ht, hresume, _, hrecorded⟩
      cases flow with
      | next => exact ⟨_, _, hput ha _, .goes ha rfl rfl⟩
      | suspend => exact ⟨_, _, (hput ha none).suspend m.task, .suspends ha⟩
      | finished v =>
        exact ⟨_, _, ((hput ha none).settle m.task.promise (.ok v)).wake,
          .settles ha (fun _ => ⟨v, rfl⟩) rfl⟩
    | error fault m =>
      have ha : Acted h run t m := ⟨ht, hresume, _, hrecorded.1⟩
      cases fault with
      | exit code => exact ⟨_, _, (hput ha none).finish _, .stops ha (hexit code)⟩
      | endless => exact ⟨_, _, (hput ha none).finish _, .stops ha hendless⟩
      | failure cause =>
        dsimp only
        split
        next t' hrec =>
          obtain ⟨hid, hpromise⟩ := Task.recover?_promise hrec
          exact ⟨_, _, hput ha _, .goes ha hid hpromise⟩
        next =>
          rw [World.failTask]
          split
          · exact ⟨_, _, (hput ha none).finish _,
              .stops ha (uncaughtError_ne_deadlock _ _ cause hframes)⟩
          · next hmain =>
            exact ⟨_, _, ((hput ha none).settle m.task.promise _).wake,
              .settles ha (fun h => absurd h hmain) rfl⟩
  · have hblocked : t.canResume h = false := Bool.eq_false_iff.mpr hresume
    rw [hblocked, if_pos (by decide)]
    have hset : (w.setRun 0 { run with current := none }).Lone h { run with current := none } :=
      hw.setRun hw.owner hw.sleeps
    exact ⟨_, _, hset.suspend t, .parks ht hblocked⟩

/-! ### The native work -/

/-- Native work ends in a world whose run has become `run'` by looks at its native work. -/
theorem Lone.turn_complete {run' : Run} (hw : w.Lone h run') (hrun : run.Similar run')
    (hcurrent : run.current = none) (hready : run.scheduler.ready = []) (id : Nat) :
    ∃ h' run'', (w.complete ⟨0, id⟩ (.ok .absent)).Lone h' run'' ∧ Turn h run h' run'' := by
  cases hn : run'.scheduler.native? id with
  | none =>
    rw [World.complete, hw.run?, Option.bind_some, hn]
    exact ⟨h, run', hw, .looks hcurrent hready hrun⟩
  | some n =>
    have hid : id = n.id := by
      have hfound := List.find?_some hn
      exact (beq_iff_eq.mp hfound).symm
    subst hid
    exact ⟨_, _, hw.complete hn _,
      .completes hcurrent hready hrun (List.mem_of_find?_eq_some hn) rfl⟩

theorem Like.turn (hw : w.Like h run) (hcurrent : run.current = none)
    (hready : run.scheduler.ready = []) : ∃ h' run', w.Lone h' run' ∧ Turn h run h' run' := by
  obtain ⟨run', hlone, hrun⟩ := hw
  exact ⟨h, run', hlone, .looks hcurrent hready hrun⟩

theorem Lone.turn_visits (hw : w.Lone h run) (hcurrent : run.current = none)
    (hready : run.scheduler.ready = []) (hvisits : w.Visits 0 (.going w')) :
    ∃ h' run', w'.Lone h' run' ∧ Turn h run h' run' := by
  cases hvisits with
  | rests hedits => exact (hw.like_edits hedits).turn hcurrent hready
  | completes hstill =>
    obtain ⟨run', hlone, hrun⟩ := hw.like_still hstill
    exact hlone.turn_complete hrun hcurrent hready _
  | observes _ hn | starts _ hn => cases hw.plain.isSleep hn

/-! ### All steps -/

theorem Lone.endRun (hw : w.Lone h run) (result : Except EvalError Value) :
    w.endRun 0 run result = .ended (w.drop 0) run.program result := by
  rw [World.endRun, hw.owner]

theorem Lone.turn (hw : w.Lone h run) (hfine : w.Fine Function.ImportFree Task.Placed)
    (hstep : w.Advances w') :
    run.ending = none ∧ ∃ h' run', w'.Lone h' run' ∧ Turn h run h' run' := by
  cases hstep with
  | @fires run0 n hrun0 hending hcurrent hready hn =>
    rw [hw.run?_focus] at hrun0
    cases hrun0
    rw [hw.focus]
    exact ⟨hending, hw.turn_complete (.refl run) hcurrent hready n.id⟩
  | ticks htick =>
    rw [World.tick, hw.run?_focus, hw.focus] at htick
    dsimp only at htick
    split at htick
    next result _ _ =>
      rw [hw.endRun] at htick
      cases htick
    next t hending ht =>
      cases htick
      exact ⟨hending, hw.turn_runTask hfine ht⟩
    next t ready hending hcurrent hready =>
      cases htick
      exact ⟨hending, _, _, hw.setRun hw.owner hw.sleeps, .picks hcurrent hready⟩
    next hending hcurrent hready =>
      refine ⟨hending, ?_⟩
      split at htick
      · rw [hw.endRun] at htick
        cases htick
      · exact hw.turn_visits hcurrent hready (htick ▸ visits_goOn hw.run?)

end World

end TaskBasic
