import TaskBasic.Proofs.World.Books

/-
No task is lost, and no wake-up.

The tasks of a program without imports are followed from one world to a later
one, whatever the order in which native work ends (`World.Advances`).

* `Task.canResume_iff` — a task can go on if everything it awaits is settled.
* `World.Orderly` — what every step of such a program preserves.
* `every_task_accounted_for` — where the tasks are, and how the program ends.
-/

namespace TaskBasic

open Relation

/-- The task waits for the promise: it has stopped to await it, or an array that holds it. -/
def Task.Awaits (h : Heap) (t : Task) (p : PromiseRef) : Prop :=
  t.awaiting = true ∧ ∃ v, t.stack.back? = some v ∧
    (v = .future p ∨ ∃ r, v = .array r ∧ .future p ∈ h.array r)

theorem Task.canResume_iff {h : Heap} {t : Task} :
    t.canResume h = true ↔ ∀ p, t.Awaits h p → (h.promise p).isSettled = true := by
  rw [Task.canResume]
  cases hawaiting : t.awaiting with
  | false =>
    refine iff_of_true rfl fun p hp => ?_
    rw [hp.1] at hawaiting
    cases hawaiting
  | true =>
    cases hback : t.stack.back? with
    | none =>
      refine iff_of_true rfl fun p hp => ?_
      obtain ⟨_, v, hv, _⟩ := hp
      rw [hback] at hv
      cases hv
    | some v =>
      show h.isReady v = true ↔ _
      rw [Heap.isReady_iff]
      refine forall_congr' fun p => ⟨fun hready hp => ?_, fun hready hv => ?_⟩
      · obtain ⟨_, v', hv', hp⟩ := hp
        rw [hback] at hv'
        cases hv'
        exact hready hp
      · exact hready ⟨hawaiting, v, hback, hv⟩

/-! ### What every step preserves -/

section

variable {h h' : Heap} {run run' : Run}

theorem Turn.main (ht : Turn h run h' run') : run'.main = run.main := by
  cases ht with
  | looks _ _ hsimilar | completes _ _ hsimilar => exact hsimilar.main
  | _ => rfl

theorem Scheduler.canResume_wake (h : Heap) (s : Scheduler) :
    ∀ t ∈ (s.wake h).waiting, t.canResume h = false := by
  intro t ht
  rw [Scheduler.wake, List.partition_eq_filter_filter] at ht
  have hfilter := (List.mem_filter.mp ht).2
  simpa using hfilter

/-- When no task runs, none of those that wait can go on. -/
def Run.Rested (h : Heap) (run : Run) : Prop :=
  run.current = none → ∀ t ∈ run.scheduler.waiting, t.canResume h = false

theorem Turn.rested (hrested : run.Rested h) (ht : Turn h run h' run')
    (hending : run'.ending = none) : run'.Rested h' := by
  intro hcurrent'
  cases ht with
  | picks | goes => cases hcurrent'
  | stops => cases hending
  | parks | suspends | settles | completes => exact Scheduler.canResume_wake _ _
  | looks hcurrent _ hsimilar =>
    intro t ht
    rw [hsimilar.scheduler.waiting] at ht
    exact hrested hcurrent t ht

/-- A program ends early with an error only, and not because all tasks wait. -/
theorem Turn.stopped (hending : run.ending = none) (ht : Turn h run h' run')
    {result : Except EvalError Value} (hresult : run'.ending = some result) :
    ∃ e, result = .error e ∧ e ≠ .deadlock := by
  have hsame : run'.ending ≠ run.ending := by
    rw [hending, hresult]
    nofun
  cases ht with
  | stops _ he =>
    cases hresult
    exact ⟨_, rfl, he⟩
  | looks _ _ hsimilar | completes _ _ hsimilar => exact absurd hsimilar.ending hsame
  | _ => exact absurd rfl hsame

end

theorem placed_importFree : Lasting Function.ImportFree Task.Placed where
  more := placed_lasting.more
  start hfs := placed_lasting.start (importFree_sound hfs)
  step hfs := placed_lasting.step (importFree_sound hfs)
  recover hfs := placed_lasting.recover (importFree_sound hfs)

theorem compiles_importFree : Compiles Program.ImportFree Function.ImportFree :=
  compiles_of_isRoutine (T := AnyBlock) (fun _ _ _ _ _ _ => trivial) (fun _ hp => hp)
    fun hroutine => importFree_of_isRoutine hroutine

namespace World

/-- A program without imports that runs alone: its books are balanced and no task that could go
on waits, unless the program ends with an error. -/
structure Orderly (first : Nat) (w : World) (h : Heap) (run : Run) : Prop where
  lone : w.Lone h run
  fine : w.Fine Function.ImportFree Task.Placed
  balanced : run.ending = none → (run.books h).Balanced first run.main
  rested : run.ending = none → run.Rested h
  stopped : ∀ result, run.ending = some result → ∃ e, result = .error e ∧ e ≠ .deadlock

variable {first : Nat} {w w' : World} {h : Heap} {run : Run}

theorem Advances.fine (hw : w.Lone h run) (hfine : w.Fine Function.ImportFree Task.Placed)
    (hstep : w.Advances w') : w'.Fine Function.ImportFree Task.Placed := by
  cases hstep with
  | fires =>
    refine hfine.complete _ fun v hv => ?_
    cases hv
    constructor
  | ticks htick =>
    -- no file is read
    have hreading : w.Reading Program.ImportFree := by
      intro run' n path source p hrun' hn hwork
      rw [hw.runs] at hrun'
      cases List.mem_singleton.mp (Array.mem_toList_iff.mpr hrun')
      have hsleep := hw.sleeps n hn
      rw [hwork] at hsleep
      cases hsleep
    have hprogress := hfine.tick placed_importFree compiles_importFree hreading
    rw [htick] at hprogress
    exact hprogress

theorem Orderly.step (hw : w.Orderly first h run) (hstep : w.Advances w') :
    ∃ h' run', w'.Orderly first h' run' ∧ run.ending = none ∧
      (run'.ending = none → (run.books h).Since (run'.books h')) := by
  obtain ⟨hending, h', run', hlone, hturn⟩ := hw.lone.turn hw.fine hstep
  have hsteps : run'.ending = none → (run'.books h').Balanced first run.main ∧
      (run.books h).Since (run'.books h') := fun hending' =>
    Books.balanced_of_steps (hw.balanced hending) (hturn.steps (hw.balanced hending) hending')
  refine ⟨h', run', ⟨hlone, hstep.fine hw.lone hw.fine, fun hending' => ?_, fun hending' => ?_,
    fun result hresult => ?_⟩, hending, fun hending' => (hsteps hending').2⟩
  · rw [hturn.main]
    exact (hsteps hending').1
  · exact hturn.rested (hw.rested hending) hending'
  · exact hturn.stopped hending hresult

theorem Orderly.steps (hw : w.Orderly first h run) (hsteps : ReflTransGen Advances w w') :
    ∃ h' run', w'.Orderly first h' run' ∧ (run'.ending = none →
      run.ending = none ∧ (run.books h).Since (run'.books h')) := by
  induction hsteps with
  | refl => exact ⟨h, run, hw, fun hending => ⟨hending, .refl _⟩⟩
  | tail _ hstep ih =>
    obtain ⟨h1, run1, hw1, hsince1⟩ := ih
    obtain ⟨h2, run2, hw2, hending1, hsince2⟩ := hw1.step hstep
    refine ⟨h2, run2, hw2, fun hending2 => ?_⟩
    obtain ⟨hending, hsince⟩ := hsince1 hending1
    exact ⟨hending, hsince.trans (hsince2 hending2)⟩

theorem orderly_start {s : Session} {p : Program} {interactive : Bool} {c : Compiled}
    (hs : Reached Program.ImportFree (.resting s)) (hp : p.ImportFree)
    (hc : p.compile interactive s.shared.heap.functions.size = .ok c) (limit allowance : Nat) :
    ∃ h run, (World.start { shared := s.shared, limit := limit, allowance := allowance } c s.program
      none).Orderly s.shared.heap.promises.size h run := by
  have hfine := (Reached.begins limit allowance hs hp hc).fine placed_importFree compiles_importFree
  have hsize : (s.shared.heap.promises.map Promise.state).size = s.shared.heap.promises.size :=
    Array.size_map
  refine ⟨_, _, ⟨rfl, rfl, rfl, rfl, rfl, rfl, fun _ hn => absurd hn List.not_mem_nil⟩, hfine,
    fun _ => ?_, fun _ _ t ht => absurd ht List.not_mem_nil, fun _ hresult => by cases hresult⟩
  -- the main task owes the only promise that the program has made
  have hstates : ∀ i, s.shared.heap.promises.size ≤ i →
      ((s.shared.heap.promises.push {}).map Promise.state)[i]? =
        if i = s.shared.heap.promises.size then some .pending else none := by
    intro i hi
    rw [Array.map_push, Array.getElem?_push, hsize]
    split
    · rfl
    · exact Array.getElem?_eq_none (by omega)
  refine ⟨List.nodup_singleton _, fun e he => ?_, List.nodup_singleton _, fun e he => ?_,
    fun i hi => ?_, ⟨Nat.le_refl _, ?_⟩, fun message => ?_⟩
  · cases List.mem_singleton.mp he
    exact Nat.zero_lt_one
  · cases List.mem_singleton.mp he
    exact Nat.le_refl _
  · show ((s.shared.heap.promises.push {}).map Promise.state)[i]? = _ ↔ _
    rw [hstates i hi]
    split
    · next hindex => exact iff_of_true rfl ⟨_, List.mem_singleton_self _, hindex.symm⟩
    · next hindex =>
      refine iff_of_false nofun fun ⟨e, he, heq⟩ => hindex ?_
      cases List.mem_singleton.mp he
      exact heq.symm
  · show _ < ((s.shared.heap.promises.push {}).map Promise.state).size
    rw [Array.size_map, Array.size_push]
    exact Nat.lt_succ_self _
  · show ((s.shared.heap.promises.push {}).map Promise.state)[s.shared.heap.promises.size]? ≠ _
    rw [hstates _ (Nat.le_refl _), if_pos rfl]
    nofun

end World

/-! ### Where tasks are -/

/-- Where a task can be. -/
inductive Whereabouts
  | queued
  | waiting
  | running
  | finished

/-- The tasks of a run in a place; those that have finished are gone. -/
def Run.tasksAt (run : Run) : Whereabouts → List Task
  | .queued => run.scheduler.ready
  | .waiting => run.scheduler.waiting
  | .running => run.current.toList
  | .finished => []

def Run.tasks (run : Run) : List Task :=
  run.current.toList ++ (run.scheduler.ready ++ run.scheduler.waiting)

/-- The task is in the place: it is there by its number, or it has finished and its promise is
settled. -/
def Run.Holds (h : Heap) (run : Run) (t : Task) (place : Whereabouts) : Prop :=
  (∃ t' ∈ run.tasksAt place, t'.id = t.id) ∨
    place = .finished ∧ (h.promise t.promise).isSettled = true

section

variable {first : Nat} {main main' : PromiseRef} {h h' : Heap} {run run' : Run}

theorem debts_books (h : Heap) (run : Run) : (run.books h).debts =
    run.tasks.map Task.debt ++ run.scheduler.natives.map Native.debt := by
  simp only [Run.books, Run.tasks, Scheduler.debts, List.map_append, List.append_assoc]

theorem mem_tasks {t : Task} : t ∈ run.tasks ↔ ∃ place, t ∈ run.tasksAt place := by
  rw [Run.tasks, List.mem_append, List.mem_append]
  constructor
  · rintro (ht | ht | ht)
    · exact ⟨.running, ht⟩
    · exact ⟨.queued, ht⟩
    · exact ⟨.waiting, ht⟩
  · rintro ⟨place, ht⟩
    cases place with
    | running => exact .inl ht
    | queued => exact .inr (.inl ht)
    | waiting => exact .inr (.inr ht)
    | finished => cases ht

theorem isSettled_iff (run : Run) {p : PromiseRef} : (h.promise p).isSettled = true ↔
    ∃ s, (run.books h).states[p.index]? = some s ∧ s ≠ .pending := by
  show _ ↔ ∃ s, (h.promises.map Promise.state)[p.index]? = some s ∧ s ≠ .pending
  rw [Array.getElem?_map, Heap.promise]
  cases h.promises[p.index]? with
  | none => exact iff_of_false (by rintro ⟨⟩) (by rintro ⟨_, ⟨⟩, _⟩)
  | some q =>
    rw [Option.getD_some, Promise.isSettled]
    cases hstate : q.state with
    | pending | resolved | rejected => simp [hstate]

namespace Books.Balanced

theorem task_mem {t : Task} (ht : t ∈ run.tasks) : t.debt ∈ (run.books h).debts := by
  rw [debts_books]
  exact List.mem_append_left _ (List.mem_map_of_mem ht)

/-- What a live task owes is not settled. -/
theorem not_settled (hB : (run.books h).Balanced first main) {e : Owner × PromiseRef}
    (he : e ∈ (run.books h).debts) : ¬ (h.promise e.2).isSettled = true := by
  rw [isSettled_iff run]
  rintro ⟨s, hs, hne⟩
  rw [hB.pending_of_mem he] at hs
  cases hs
  exact hne rfl

theorem nodup_ids (hB : (run.books h).Balanced first main) : (run.tasks.map Task.id).Nodup := by
  have howners := hB.owners
  rw [debts_books, List.map_append, List.map_map] at howners
  have htasks := (List.nodup_append.mp howners).1
  refine List.Nodup.of_map (Owner.mk .task) ?_
  rw [List.map_map]
  exact htasks

theorem place_unique (hB : (run.books h).Balanced first main) {t t' : Task}
    {place place' : Whereabouts}
    (ht : t ∈ run.tasksAt place) (ht' : t' ∈ run.tasksAt place') (hid : t'.id = t.id) :
    place' = place := by
  have hnodup := hB.nodup_ids
  rw [Run.tasks, List.map_append, List.map_append] at hnodup
  obtain ⟨_, hlists, hcurrent⟩ := List.nodup_append.mp hnodup
  obtain ⟨_, _, hready⟩ := List.nodup_append.mp hlists
  have hmem : ∀ {t : Task} {ts : List Task}, t ∈ ts → t.id ∈ ts.map Task.id :=
    fun h => List.mem_map_of_mem h
  cases place <;> cases place'
  case queued.queued | waiting.waiting | running.running | finished.finished => rfl
  case finished.queued | finished.waiting | finished.running => cases ht
  case queued.finished | waiting.finished | running.finished => cases ht'
  case queued.waiting => exact absurd hid.symm (hready _ (hmem ht) _ (hmem ht'))
  case waiting.queued => exact absurd hid (hready _ (hmem ht') _ (hmem ht))
  case queued.running =>
    exact absurd hid (hcurrent _ (hmem ht') _ (List.mem_append_left _ (hmem ht)))
  case running.queued =>
    exact absurd hid.symm (hcurrent _ (hmem ht) _ (List.mem_append_left _ (hmem ht')))
  case waiting.running =>
    exact absurd hid (hcurrent _ (hmem ht') _ (List.mem_append_right _ (hmem ht)))
  case running.waiting =>
    exact absurd hid.symm (hcurrent _ (hmem ht) _ (List.mem_append_right _ (hmem ht')))

theorem live_iff (hB : (run.books h).Balanced first main)
    (hB' : (run'.books h').Balanced first main') (hsince : (run.books h).Since (run'.books h'))
    {t : Task} (ht : t ∈ run.tasks) :
    (∃ t' ∈ run'.tasks, t'.id = t.id) ↔ ¬ (h'.promise t.promise).isSettled = true := by
  have hdebt : t.debt ∈ (run.books h).debts := task_mem ht
  constructor
  · rintro ⟨t', ht', hid⟩
    -- the number has been given out before, so the debt is an old one
    have hfresh : t'.id < (run.books h).next .task := hid ▸ hB.fresh t.debt hdebt
    have hold := hsince.old t'.debt (task_mem ht') hfresh
    have hsame : t'.debt = t.debt :=
      List.inj_on_of_nodup_map hB.owners hold hdebt (congrArg (Owner.mk .task) hid)
    have hsettled := hB'.not_settled (task_mem (h := h') ht')
    rw [hsame] at hsettled
    exact hsettled
  · intro hpending
    rcases hsince.paid t.debt hdebt with hdebt' | hpaid
    · rw [debts_books, List.mem_append] at hdebt'
      rcases hdebt' with htask | hnative
      · obtain ⟨t', ht', heq⟩ := List.mem_map.mp htask
        exact ⟨t', ht', congrArg (fun e => e.1.id) heq⟩
      · obtain ⟨n, _, heq⟩ := List.mem_map.mp hnative
        cases congrArg (fun e => e.1.role) heq
    · exact absurd ((isSettled_iff run').mpr hpaid) hpending

/-- A task that the program has had is in one place later on. -/
theorem place (hB : (run.books h).Balanced first main)
    (hB' : (run'.books h').Balanced first main') (hsince : (run.books h).Since (run'.books h'))
    {t : Task} (ht : t ∈ run.tasks) : ∃! place, run'.Holds h' t place := by
  have hlive := live_iff hB hB' hsince ht
  by_cases hsettled : (h'.promise t.promise).isSettled = true
  · refine ⟨.finished, .inr ⟨rfl, hsettled⟩, fun place hplace => ?_⟩
    rcases hplace with ⟨t', ht', hid⟩ | ⟨rfl, _⟩
    · exact absurd hsettled (hlive.mp ⟨t', mem_tasks.mpr ⟨place, ht'⟩, hid⟩)
    · rfl
  · obtain ⟨t', ht', hid⟩ := hlive.mpr hsettled
    obtain ⟨place, hplace⟩ := mem_tasks.mp ht'
    refine ⟨place, .inl ⟨t', hplace, hid⟩, fun place' hplace' => ?_⟩
    rcases hplace' with ⟨t'', ht'', hid''⟩ | ⟨_, habsurd⟩
    · exact hB'.place_unique hplace ht'' (hid''.trans hid.symm)
    · exact absurd habsurd hsettled

end Books.Balanced

theorem pending_iff (hB : (run.books h).Balanced first main) {p : PromiseRef}
    (hfirst : first ≤ p.index) (hsize : p.index < h.promises.size) :
    (h.promise p).isSettled = false ↔
      (∃ t ∈ run.tasks, t.promise = p) ∨ ∃ n ∈ run.scheduler.natives, n.promise = p := by
  have hstate : (h.promise p).isSettled = false ↔
      (run.books h).states[p.index]? = some .pending := by
    show _ ↔ (h.promises.map Promise.state)[p.index]? = _
    rw [Array.getElem?_map, Heap.promise, Array.getElem?_eq_getElem hsize, Option.getD_some,
      Promise.isSettled]
    cases hstate : h.promises[p.index].state <;> simp [hstate]
  rw [hstate, hB.pending p.index hfirst, debts_books]
  constructor
  · rintro ⟨e, he, hindex⟩
    have hp : e.2 = p := by
      obtain ⟨_, ⟨i⟩⟩ := e
      cases hindex
      rfl
    rcases List.mem_append.mp he with he | he
    · obtain ⟨t, ht, rfl⟩ := List.mem_map.mp he
      exact .inl ⟨t, ht, hp⟩
    · obtain ⟨n, hn, rfl⟩ := List.mem_map.mp he
      exact .inr ⟨n, hn, hp⟩
  · rintro (⟨t, ht, rfl⟩ | ⟨n, hn, rfl⟩)
    · exact ⟨t.debt, List.mem_append_left _ (List.mem_map_of_mem ht), rfl⟩
    · exact ⟨n.debt, List.mem_append_right _ (List.mem_map_of_mem hn), rfl⟩

end

/-! ### How programs end -/

namespace World

variable {first : Nat} {w : World} {h : Heap} {run : Run}

/-- A program that has nothing left to do has settled its main promise, and not with an error. -/
theorem Orderly.restingResult (hw : w.Orderly first h run) (hending : run.ending = none)
    (hcurrent : run.current = none) (hready : run.scheduler.ready = [])
    (hnatives : run.scheduler.natives = []) :
    (run.scheduler.waiting ≠ [] → w.restingResult run = .error .deadlock) ∧
      (run.scheduler.waiting = [] → ∃ v, w.restingResult run = .ok v) := by
  have hB := hw.balanced hending
  constructor
  · intro hwaiting
    rw [World.restingResult, if_pos (by simpa using hwaiting)]
    rfl
  · intro hwaiting
    have htasks : run.tasks = [] := by
      rw [Run.tasks, hcurrent, hready, hwaiting]
      rfl
    have hsize : run.main.index < h.promises.size := by
      have hmain := hB.main_since.2
      rwa [show (run.books h).states.size = h.promises.size from Array.size_map] at hmain
    -- nobody is left who could owe the main promise
    have hsettled : (h.promise run.main).isSettled ≠ false := by
      rw [Ne, pending_iff hB hB.main_since.1 hsize, htasks, hnatives]
      rintro (⟨_, ht, _⟩ | ⟨_, hn, _⟩)
      · cases ht
      · cases hn
    have hkept := hB.main_kept
    rw [show (run.books h).states[run.main.index]? = _ from Array.getElem?_map] at hkept
    rw [World.restingResult, hwaiting, hw.lone.heap]
    rw [Heap.promise] at hsettled ⊢
    rw [Array.getElem?_eq_getElem hsize] at hsettled hkept ⊢
    rw [Option.getD_some] at hsettled ⊢
    rw [Promise.isSettled] at hsettled
    rw [Promise.outcome?]
    cases hstate : h.promises[run.main.index].state with
    | pending =>
      rw [hstate] at hsettled
      exact absurd rfl hsettled
    | resolved v => exact ⟨v, rfl⟩
    | rejected message => exact absurd (by rw [Option.map_some, hstate]) (hkept message)

/-- What a step that ends the program tells about it. -/
theorem Orderly.ended (hw : w.Orderly first h run) {w' : World} {program : ProgramState}
    {result : Except EvalError Value} (htick : w.tick = .ended w' program result) :
    (∃ e, result = .error e ∧ e ≠ .deadlock) ∨
      run.ending = none ∧ run.current = none ∧ run.scheduler.ready = [] ∧
        run.scheduler.natives = [] ∧ result = w.restingResult run := by
  rw [World.tick, hw.lone.run?_focus, hw.lone.focus] at htick
  dsimp only at htick
  split at htick
  next hending =>
    rw [hw.lone.endRun] at htick
    cases htick
    exact .inl (hw.stopped _ hending)
  next => cases htick
  next => cases htick
  next hending hcurrent hready =>
    split at htick
    next hnatives =>
      rw [hw.lone.endRun] at htick
      cases htick
      exact .inr ⟨hending, hcurrent, hready, List.isEmpty_iff.mp hnatives, rfl⟩
    next => exact absurd htick (goOn_ne_ended hw.lone.run?)

/-- What becomes of the program's tasks from `w1`, where its run is `run1`, to `w2`, where it is
`run2`; its promises are those since the one numbered `first`. -/
structure Accounts (first : Nat) (w1 : World) (run1 : Run) (w2 : World) (run2 : Run) : Prop where
  /-- Every task of `w1` is in one place in `w2`. -/
  place : run2.ending = none → ∀ t ∈ run1.tasks, ∃! place, run2.Holds w2.shared.heap t place
  /-- Different tasks have different numbers. -/
  distinct : run2.ending = none → (run2.tasks.map Task.id).Nodup
  /-- A promise that is settled keeps its outcome. -/
  once : run2.ending = none → ∀ p outcome, (w1.shared.heap.promise p).outcome? = some outcome →
    (w2.shared.heap.promise p).outcome? = some outcome
  /-- A promise is pending as long as there is a task, or native work, that is to settle it. -/
  owed : run2.ending = none → ∀ p, first ≤ p.index → p.index < w2.shared.heap.promises.size →
    ((w2.shared.heap.promise p).isSettled = false ↔
      (∃ t ∈ run2.tasks, t.promise = p) ∨ ∃ n ∈ run2.scheduler.natives, n.promise = p)
  /-- When the next task is looked for, all that wait have something to wait for. -/
  waits : run2.ending = none → run2.current = none → ∀ t ∈ run2.scheduler.waiting,
    ∃ p, t.Awaits w2.shared.heap p ∧ (w2.shared.heap.promise p).isSettled = false
  /-- A task that has been woken too early does nothing but wait again. -/
  blocked : run2.ending = none → ∀ t p, run2.current = some t → t.Awaits w2.shared.heap p →
    (w2.shared.heap.promise p).isSettled = false →
    w2.tick = .going ((w2.setRun w2.focus { run2 with current := none }).suspend w2.focus t)
  /-- A task never finds that what it has waited for is pending. -/
  awaited : run2.ending = none → ∀ t, run2.current = some t →
    (∀ p, t.Awaits w2.shared.heap p → (w2.shared.heap.promise p).isSettled = true) →
    ∀ m, (taskAction w2.shared.env t).run (w2.machine run2 t) ≠ .error (.failure .stillPending) m
  /-- The program ends because all tasks wait if, and only if, they do, and nothing is going on. -/
  deadlock : (∃ w program, w2.tick = .ended w program (.error .deadlock)) ↔
    run2.ending = none ∧ run2.current = none ∧ run2.scheduler.ready = [] ∧
      run2.scheduler.natives = [] ∧ run2.scheduler.waiting ≠ []
  /-- The program ends well only if all its promises are settled. -/
  ends : ∀ w program v, w2.tick = .ended w program (.ok v) →
    (∀ t ∈ run1.tasks, (w2.shared.heap.promise t.promise).isSettled = true) ∧
    (∀ n ∈ run1.scheduler.natives, (w2.shared.heap.promise n.promise).isSettled = true) ∧
    ∀ p, first ≤ p.index → p.index < w2.shared.heap.promises.size →
      (w2.shared.heap.promise p).isSettled = true

theorem Orderly.settled (hw : w.Orderly first h run) {w' : World} {program : ProgramState}
    {v : Value} (htick : w.tick = .ended w' program (.ok v)) :
    run.ending = none ∧ run.tasks = [] ∧ run.scheduler.natives = [] := by
  rcases hw.ended htick with ⟨e, he, _⟩ | ⟨hending, hcurrent, hready, hnatives, hresult⟩
  · cases he
  · refine ⟨hending, ?_, hnatives⟩
    by_cases hwaiting : run.scheduler.waiting = []
    · rw [Run.tasks, hcurrent, hready, hwaiting]
      rfl
    · rw [(hw.restingResult hending hcurrent hready hnatives).1 hwaiting] at hresult
      cases hresult

theorem Orderly.deadlock_iff (hw : w.Orderly first h run) :
    (∃ w' program, w.tick = .ended w' program (.error .deadlock)) ↔
      run.ending = none ∧ run.current = none ∧ run.scheduler.ready = [] ∧
        run.scheduler.natives = [] ∧ run.scheduler.waiting ≠ [] := by
  constructor
  · rintro ⟨w', program, htick⟩
    rcases hw.ended htick with ⟨e, he, hne⟩ | ⟨hending, hcurrent, hready, hnatives, hresult⟩
    · cases he
      exact absurd rfl hne
    · refine ⟨hending, hcurrent, hready, hnatives, fun hwaiting => ?_⟩
      obtain ⟨v, hv⟩ := (hw.restingResult hending hcurrent hready hnatives).2 hwaiting
      rw [hv] at hresult
      cases hresult
  · rintro ⟨hending, hcurrent, hready, hnatives, hwaiting⟩
    refine ⟨w.drop 0, run.program, ?_⟩
    rw [World.tick, hw.lone.run?_focus, hw.lone.focus]
    dsimp only
    rw [hending, hcurrent, hready]
    dsimp only
    rw [hnatives, if_pos List.isEmpty_nil, hw.lone.endRun,
      (hw.restingResult hending hcurrent hready hnatives).1 hwaiting]

/-- A task that cannot go on waits again. -/
theorem Lone.tick_blocked (hw : w.Lone h run) (hending : run.ending = none) {t : Task}
    (ht : run.current = some t) (hblocked : t.canResume h = false) :
    w.tick = .going ((w.setRun w.focus { run with current := none }).suspend w.focus t) := by
  have htick : w.tick = .going (w.runTask w.focus run t) := by
    rw [World.tick, hw.run?_focus]
    dsimp only
    rw [hending, ht]
  rw [htick, World.runTask, hw.heap, hblocked, if_pos (by decide)]

theorem Orderly.accounts {w1 w2 : World} {h1 h2 : Heap} {run1 run2 : Run}
    (hw1 : w1.Orderly first h1 run1) (hw2 : w2.Orderly first h2 run2)
    (hsince : run2.ending = none → run1.ending = none ∧ (run1.books h1).Since (run2.books h2)) :
    Accounts first w1 run1 w2 run2 := by
  have hbooks : run2.ending = none → (run1.books h1).Balanced first run1.main ∧
      (run2.books h2).Balanced first run2.main ∧ (run1.books h1).Since (run2.books h2) :=
    fun hending => ⟨hw1.balanced (hsince hending).1, hw2.balanced hending, (hsince hending).2⟩
  have hheap1 := hw1.lone.heap
  have hheap2 := hw2.lone.heap
  refine ⟨fun hending t ht => ?_, fun hending => ?_, fun hending p outcome houtcome => ?_,
    fun hending p hfirst hsize => ?_, fun hending hcurrent t ht => ?_,
    fun hending t p ht hawaits hpending => ?_, fun hending t ht hall m hrun => ?_, hw2.deadlock_iff,
    fun w' program v htick => ?_⟩
  · obtain ⟨hB1, hB2, hsince⟩ := hbooks hending
    rw [hheap2]
    exact hB1.place hB2 hsince ht
  · exact (hbooks hending).2.1.nodup_ids
  · rw [hheap1] at houtcome
    rw [hheap2]
    exact Heap.outcome?_later (hbooks hending).2.2.kept houtcome
  · rw [hheap2] at hsize ⊢
    exact pending_iff (hw2.balanced hending) hfirst hsize
  · -- a task that could go on would not wait
    have hblocked := hw2.rested hending hcurrent t ht
    rw [hheap2]
    by_contra hnone
    push Not at hnone
    refine Bool.false_ne_true (hblocked.symm.trans (Task.canResume_iff.mpr fun p hp => ?_))
    exact eq_true_of_ne_false (hnone p hp)
  · refine hw2.lone.tick_blocked hending ht (Bool.eq_false_iff.mpr fun hresume => ?_)
    rw [hheap2] at hawaits hpending
    rw [Task.canResume_iff.mp hresume p hawaits] at hpending
    cases hpending
  · rw [hheap2] at hall
    have hrecorded := (hw2.lone.action hw2.fine ht (Task.canResume_iff.mpr hall)).1
    rw [hrun] at hrecorded
    exact hrecorded.2 rfl
  · obtain ⟨hending, htasks, hnatives⟩ := hw2.settled htick
    obtain ⟨_, hB2, hsince⟩ := hbooks hending
    have hnone : (run2.books h2).debts = [] := by
      rw [debts_books, htasks, hnatives]
      rfl
    have hpaid : ∀ e ∈ (run1.books h1).debts, (h2.promise e.2).isSettled = true := by
      intro e he
      rcases hsince.paid e he with hdebt | hpaid
      · rw [hnone] at hdebt
        cases hdebt
      · exact (isSettled_iff run2).mpr hpaid
    rw [hheap2]
    refine ⟨fun t ht => hpaid t.debt (Books.Balanced.task_mem ht), fun n hn => hpaid n.debt ?_,
      fun p hfirst hsize => ?_⟩
    · rw [debts_books]
      exact List.mem_append_right _ (List.mem_map_of_mem hn)
    · refine eq_true_of_ne_false fun hpending => ?_
      rcases (pending_iff hB2 hfirst hsize).mp hpending with ⟨t, ht, _⟩ | ⟨n, hn, _⟩
      · rw [htasks] at ht
        cases ht
      · rw [hnatives] at hn
        cases hn

/-- Every task of a program without imports is accounted for, whatever the order in which its
native work ends: from any world that the program comes to, to any later one. -/
theorem every_task_accounted_for {s : Session} {p : Program} {interactive : Bool} {c : Compiled}
    (hs : Reached Program.ImportFree (.resting s)) (hp : p.ImportFree)
    (hc : p.compile interactive s.shared.heap.functions.size = .ok c) (limit allowance : Nat)
    {w₁ w₂ : World}
    (h₁ : ReflTransGen Advances
      (World.start { shared := s.shared, limit := limit, allowance := allowance } c s.program
        none) w₁)
    (h₂ : ReflTransGen Advances w₁ w₂) :
    ∃ run₁ run₂, w₁.run? w₁.focus = some run₁ ∧ w₂.run? w₂.focus = some run₂ ∧
      Accounts s.shared.heap.promises.size w₁ run₁ w₂ run₂ := by
  obtain ⟨h₀, run₀, hw₀⟩ := orderly_start hs hp hc limit allowance
  obtain ⟨heap₁, run₁, hw₁, -⟩ := hw₀.steps h₁
  obtain ⟨heap₂, run₂, hw₂, hsince⟩ := hw₁.steps h₂
  exact ⟨run₁, run₂, hw₁.lone.run?_focus, hw₂.lone.run?_focus, hw₁.accounts hw₂ hsince⟩

/-- The world behind `n` steps, or behind fewer if the program ends before. -/
def after : Nat → World → World
  | 0, w => w
  | n + 1, w =>
    match w.tick with
    | .going w => after n w
    | _ => w

theorem reaches_after {R : World → World → Prop} (hR : ∀ {w w'}, w.tick = .going w' → R w w')
    (n : Nat) (w : World) : ReflTransGen R w (after n w) := by
  induction n generalizing w with
  | zero => exact .refl
  | succ n ih =>
    rw [after]
    split
    next w' htick => exact (ih w').head (hR htick)
    next => exact .refl

/-- Two tasks, and the main task that awaits both. -/
def twoTasks : Program :=
  [.mk 1 (.function "echo" ["n"] true false [.mk 2 (.ret (some (.var "n")))]),
    .mk 4 (.eval (.await (.array
      [.spawn (.var "echo") [.int 1], .spawn (.var "echo") [.int 2]])))]

/-- The numbers of tasks of the run that goes on: those that run, that can go on and that wait. -/
def census (w : World) : Option (Nat × Nat × Nat) :=
  (w.run? w.focus).map fun run =>
    (run.current.toList.length, run.scheduler.ready.length, run.scheduler.waiting.length)

theorem twoTasks_accounted_for : ∃ c, twoTasks.compile false 0 = .ok c ∧ ∃ w₁ w₂ run₁ run₂,
    w₁ = after 12 (World.start { shared := {}, limit := 0 } c {} none) ∧ w₂ = after 4 w₁ ∧
    w₁.census = some (1, 1, 1) ∧ w₂.census = some (0, 1, 0) ∧ w₁.run? w₁.focus = some run₁ ∧
    w₂.run? w₂.focus = some run₂ ∧ Accounts 0 w₁ run₁ w₂ run₂ := by
  have hcensus : (twoTasks.compile false 0).toOption.map (fun c =>
      let w₁ := after 12 (World.start { shared := {}, limit := 0 } c {} none)
      (w₁.census, (after 4 w₁).census)) = some (some (1, 1, 1), some (0, 1, 0)) := by
    decide +kernel
  cases hc : twoTasks.compile false 0 with
  | error e =>
    rw [hc] at hcensus
    cases hcensus
  | ok c =>
    rw [hc] at hcensus
    obtain ⟨hcensus₁, hcensus₂⟩ := Prod.mk.inj (Option.some.inj hcensus)
    obtain ⟨run₁, run₂, hrun₁, hrun₂, haccounts⟩ := every_task_accounted_for
      (.fresh {} {}) (p := twoTasks) (by decide) hc 0 roundAllowance (reaches_after .ticks 12 _)
      (reaches_after .ticks 4 _)
    exact ⟨c, rfl, _, _, run₁, run₂, rfl, rfl, hcensus₁, hcensus₂, hrun₁, hrun₂, haccounts⟩

end World

end TaskBasic
