import TaskBasic.Proofs.World.Parked

/-
Awaiting an array.

What an await of an array comes to depends on the outcomes of the futures in it
and on their positions only, in whatever order they are settled: an outcome stays
what it is (`World.Evolves.outcome`), the task waits while one is missing, and
then gets the values in their order or the first error (`inOrder`).

* `await_joins_in_order` — how an await of an array begins, waits and ends.
-/

namespace TaskBasic

open Relation

/-! ### Outcomes stay -/

namespace Outline

variable {early : Outline → Sketch → Prop} {o o' : Outline}

theorem later_complete {A : Array Promise.State} (ho : o.states = A) (n : NativeRef)
    (outcome : Except String Value) : Later A (o.complete n outcome).states := by
  subst ho
  rw [complete]
  split
  · exact fun _ _ hs _ => hs
  · split
    · exact fun _ _ hs _ => hs
    · exact later_settle _ _ _

theorem Step.later (h : Step early o o') : Later o.states o'.states := by
  cases h with
  | resolves | spawns | sleeps | waits | loads | starts => exact later_push _ _
  | proceeds | dozes | rouses | forgets | stops => exact fun _ _ hs _ => hs
  | completes | refuses =>
    refine later_complete ?_ _ _
    rfl
  | pays outcome => exact later_settle _ _ outcome
  | loaded _ _ _ _ _ hd | fails _ _ _ _ _ hd =>
    refine later_complete ?_ _ _
    exact hd.states
  | exits _ _ _ _ hd => exact fun _ _ hs _ => hd.states ▸ hs

theorem Steps.later (h : Steps early o o') : Later o.states o'.states := by
  induction h with
  | refl => exact fun _ _ hs _ => hs
  | tail _ hstep ih => exact fun i s hs hne => hstep.later i s (ih i s hs hne) hne

end Outline

namespace World

variable {w w' : World} {run : Run} {t : Task} {p : PromiseRef}

/-- Whatever happens, an outcome stays what it is. -/
theorem Evolves.outcome (h : ReflTransGen Evolves w w') {outcome : Except String Value}
    (hp : (w.shared.heap.promise p).outcome? = some outcome) :
    (w'.shared.heap.promise p).outcome? = some outcome := by
  refine Heap.outcome?_later ?_ hp
  induction h with
  | refl => exact fun _ _ hs _ => hs
  | @tail u v _ hstep ih =>
    have hsteps : Outline.Steps (fun _ _ => True) u.outline v.outline :=
      hstep.steps fun _ _ _ => trivial
    exact fun i s hs hne => hsteps.later i s (ih i s hs hne) hne

end World

/-! ### The turn of a task -/

namespace Exec

variable {m : Machine}

theorem fetch_frames {i : Instr} {m' : Machine} (h : fetch.run m = .ok i m') :
    ∃ frames, m' = { m with task := { m.task with frames := frames } } := by
  cases hf : m.task.frames with
  | nil =>
    simp only [fetch, frame, EStateM.run_bind, EStateM.run_get, hf, run_fail] at h
    cases h
  | cons f F =>
    rw [run_fetch hf] at h
    split at h
    · cases h
      exact ⟨_, rfl⟩
    · cases h

end Exec

namespace World

variable {w : World} {run : Run} {t : Task} {m : Machine} {a : ArrayRef}

/-- It is the turn of a task that is about to await the value on top of its stack, or to end that
await; `m` is what the task acts on. -/
structure AtAwait (w : World) (run : Run) (t : Task) (m : Machine) : Prop where
  turn : w.run? w.focus = some run
  going : run.ending = none
  current : run.current = some t
  reached : t.awaiting = true ∧ m = w.machine run t ∨
    t.awaiting = false ∧ Exec.fetch.run (w.machine run t) = .ok .await m

/-- A task that stops for something pending waits. -/
theorem waits_suspend {r : Nat} (hrun : w.run? r = some run)
    (ht : t.canResume w.shared.heap = false) :
    ∃ run', (w.suspend r t).run? r = some run' ∧ run'.current = run.current ∧
      t ∈ run'.scheduler.waiting ∧ (w.suspend r t).shared = w.shared := by
  refine ⟨_, run?_suspend hrun t, rfl, ?_, ?_⟩
  · rw [Scheduler.park, ht]
    simp [Scheduler.wake, List.partition_eq_filter_filter, ht]
  · rw [suspend, wake, shared_modifyScheduler, shared_modifyScheduler]

namespace AtAwait

theorem tick (hat : w.AtAwait run t m) : w.tick = .going (w.runTask w.focus run t) := by
  rw [World.tick.eq_def, hat.turn]
  dsimp only
  rw [hat.going, hat.current]

/-- The task acts on what it sees; its innermost frame has moved on if it fetched an instruction. -/
theorem machine (hat : w.AtAwait run t m) :
    ∃ frames, m = w.machine run { t with frames := frames } ∧
      (t.awaiting = true → frames = t.frames) := by
  rcases hat.reached with ⟨-, rfl⟩ | ⟨hnot, hfetch⟩
  · exact ⟨t.frames, rfl, fun _ => rfl⟩
  · obtain ⟨frames, rfl⟩ := Exec.fetch_frames hfetch
    exact ⟨frames, rfl, fun h => nomatch hnot.symm.trans h⟩

theorem action (hat : w.AtAwait run t m) :
    (taskAction w.shared.env t).run (w.machine run t) =
      if t.awaiting then (Exec.andNext Exec.finishAwait).run m else Exec.await.run m := by
  rcases hat.reached with ⟨hwaits, rfl⟩ | ⟨hnot, hfetch⟩
  · rw [taskAction, hwaits]
    rfl
  · rw [taskAction, hnot, if_neg (by decide), Exec.step, EStateM.run_bind, hfetch]
    rfl

theorem canResume_eq (htop : t.stack.back? = some (.array a)) (h : Heap) :
    t.canResume h = (!t.awaiting || h.isReady (.array a)) := by
  rw [Task.canResume, htop]
  rfl

/-- While something is pending, the task stops, whether the await begins or goes on. -/
theorem waits (hat : w.AtAwait run t m) (htop : t.stack.back? = some (.array a))
    (hnot : w.shared.heap.isReady (.array a) = false) :
    ∃ w' run', w.tick = .going w' ∧ w'.shared = w.shared ∧ w'.run? w.focus = some run' ∧
      run'.current = none ∧ { m.task with awaiting := true } ∈ run'.scheduler.waiting := by
  have haction := hat.action
  obtain ⟨frames, rfl, hframes⟩ := hat.machine
  rw [Exec.run_await_array htop] at haction
  rw [hat.tick, runTask, canResume_eq htop, hnot, Bool.or_false, Bool.not_not]
  cases hwaits : t.awaiting with
  | true =>
    have ht : { t with frames := frames, awaiting := true } = t := by rw [hframes hwaits, ← hwaits]
    obtain ⟨run', hrun', hcurrent, hwaiting, hshared⟩ := waits_suspend
      (run?_setRun_self hat.turn { run with current := none })
      ((canResume_eq htop _).trans (by rw [hwaits]; exact hnot))
    exact ⟨_, run', rfl, hshared, hrun', hcurrent, ht.symm ▸ hwaiting⟩
  | false =>
    rw [hwaits, if_neg (by decide)] at haction
    have hstop : (taskAction w.shared.env t).run (w.machine run t) = .ok .suspend
        (w.machine run { t with frames := frames, awaiting := true }) :=
      haction.trans (if_neg (Bool.eq_false_iff.mp hnot))
    have hblocked : Task.canResume (w.putBack w.focus run
        (w.machine run { t with frames := frames, awaiting := true }) none).shared.heap
        { t with frames := frames, awaiting := true } = false := by
      rw [Task.canResume, htop]
      exact hnot
    rw [World.machine] at hstop
    simp only [Bool.false_eq_true, if_false, hstop]
    obtain ⟨run', hrun', hcurrent, hwaiting, hshared⟩ := waits_suspend
      (run?_putBack hat.turn _ none) hblocked
    exact ⟨_, run', rfl, hshared, hrun', hcurrent, hwaiting⟩

theorem stack (hat : w.AtAwait run t m) : m.task.stack = t.stack := by
  obtain ⟨frames, rfl, -⟩ := hat.machine
  rfl

end AtAwait

/-- The turn of a task that has awaited an array. -/
theorem Resumes.atAwait {r : Nat} (h : w.Resumes r run t) (hwaits : t.awaiting = true)
    (htop : t.stack.back? = some (.array a)) :
    w.AtAwait run t (w.machine run t) ∧ w.shared.heap.isReady (.array a) = true := by
  refine ⟨⟨h.focus ▸ h.turn, h.going, h.current, .inl ⟨hwaits, rfl⟩⟩, ?_⟩
  have hready := h.ready
  rw [AtAwait.canResume_eq htop, hwaits] at hready
  exact hready

/-- Awaiting an array: while a future in it is pending, the task stops and waits, and nothing
else happens.  From then on, whatever happens, it stays as it is until all futures in the array have
been settled and it has its turn, or until its program has ended; and its program has woken it
whenever it looks for its next task, unless another program has decided what the task waits for.
Once each has got its outcome, whenever that was, the task gets a new array of what the elements
came to, or else fails with the error of the first that failed; and all futures in the array count
as looked at. -/
theorem await_joins_in_order (hat : w.AtAwait run t m) (htop : t.stack.back? = some (.array a))
    {items : List Value} (hitems : (w.shared.heap.array a).toList = items) :
    ((∃ p, .future p ∈ items ∧ (w.shared.heap.promise p).outcome? = none) →
      ∃ w' run' t', w.tick = .going w' ∧ w'.shared = w.shared ∧ w'.run? w.focus = some run' ∧
        run'.current = none ∧ t' ∈ run'.scheduler.waiting ∧
        t' = { m.task with awaiting := true } ∧ t'.stack = t.stack ∧
        (∀ u, ReflTransGen Evolves w' u → u.Holds w.focus t' ∨
          ∃ v run'', ReflTransGen Evolves w' v ∧ v.focus = w.focus ∧
            v.AtAwait run'' t' (v.machine run'' t') ∧
            (∀ p, .future p ∈ (v.shared.heap.array a).toList →
              (v.shared.heap.promise p).outcome? ≠ none) ∧
            ReflTransGen Evolves (v.runTask v.focus run'' t') u) ∧
        ∀ u, ReflTransGen (Undecided w.focus t') w' u → u.Heeds w.focus t') ∧
    ∀ outcome : PromiseRef → Except String Value,
      (∀ p, .future p ∈ items → ∃ v, ReflTransGen Evolves v w ∧
        (v.shared.heap.promise p).outcome? = some (outcome p)) →
      w.tick = .going (w.runTask w.focus run t) ∧ t.canResume w.shared.heap = true ∧
      (taskAction w.shared.env t).run (w.machine run t) =
        m.joined items (inOrder (items.map (·.awaited outcome))) ∧
      ∀ p, .future p ∈ items →
        ((items.foldl Heap.lookAt m.heap).promise p).observed = true := by
  have hready := Heap.isReady_array_iff (h := w.shared.heap) (a := a)
  rw [hitems] at hready
  constructor
  · rintro ⟨p, hp, hpending⟩
    have hnot : w.shared.heap.isReady (.array a) = false :=
      Bool.eq_false_iff.mpr fun h => hready.mp h p hp hpending
    obtain ⟨w', run', htick, hshared, hrun', hcurrent, hwaits⟩ := hat.waits htop hnot
    have htop' : ({ m.task with awaiting := true } : Task).stack.back? = some (.array a) :=
      hat.stack ▸ htop
    have hsize := lt_of_run? hrun'
    refine ⟨w', run', _, htick, hshared, hrun', hcurrent, hwaits, rfl, hat.stack, fun u hu => ?_,
      fun u hu => heeds_of_undecided hu hsize fun _ _ _ _ _ => ?_⟩
    · have hholds : w'.Holds w.focus { m.task with awaiting := true } := by
        refine ⟨hsize, fun other hother => ?_⟩
        cases hrun'.symm.trans hother
        exact mem_tasks.mpr ⟨.waiting, hwaits⟩
      rcases holds_of_evolves hu hholds with hholds | ⟨v, run'', hv, hresumes, hafter⟩
      · exact .inl hholds
      · obtain ⟨hturn, hsettled⟩ := hresumes.atAwait rfl htop'
        refine .inr ⟨v, run'', hv, hresumes.focus, hturn, Heap.isReady_array_iff.mp hsettled, ?_⟩
        rwa [hresumes.focus]
    · rw [AtAwait.canResume_eq htop', hshared]
      exact hnot
  · intro outcome hgiven
    have hsettled : ∀ p, .future p ∈ items →
        (w.shared.heap.promise p).outcome? = some (outcome p) := by
      intro p hp
      obtain ⟨v, hfrom, hv⟩ := hgiven p hp
      exact Evolves.outcome hfrom hv
    have hyes : w.shared.heap.isReady (.array a) = true :=
      hready.mpr fun p hp hnone => nomatch (hsettled p hp).symm.trans hnone
    have haction := hat.action
    obtain ⟨frames, rfl, -⟩ := hat.machine
    refine ⟨hat.tick, ?_, ?_, fun p hp => Heap.observed_of_mem hp (hsettled p hp)⟩
    · rw [AtAwait.canResume_eq htop, hyes, Bool.or_true]
    · rw [haction, Exec.run_await_array htop, ← Exec.run_finishAwait_array htop hitems hsettled]
      split
      · rfl
      · exact if_pos hyes

/-- The main task is about to await an array with the futures of two tasks that will fail, the one
of the second future first. -/
def joinWorld : World where
  shared := { heap := {
    arrays := #[#[.future ⟨1⟩, .int 7, .future ⟨2⟩]]
    functions := #[
      { name := "<main>", arity := 0, chunk := { code := #[Opcode.await.toByte] } },
      { name := "fail", arity := 1, chunk := { code := #[Opcode.raise.toByte] }, isAsync := true }]
    promises := #[{}, {}, {}] } }
  runs := #[some {
    program := {}
    main := ⟨0⟩
    current := some { id := 0, stack := #[.array ⟨0⟩], frames := [⟨⟨0⟩, 0, 0⟩], promise := ⟨0⟩ }
    scheduler := { ready := [.start 1 ⟨1⟩ [.str "last"] ⟨2⟩, .start 2 ⟨1⟩ [.str "first"] ⟨1⟩] } }]
  limit := 0

theorem joinWorld_joins : (joinWorld.shared.heap.promise ⟨1⟩).outcome? = none ∧
    ∃ v run t outcome, ReflTransGen Evolves joinWorld v ∧ v.AtAwait run t (v.machine run t) ∧
      (taskAction v.shared.env t).run (v.machine run t) =
        (v.machine run t).joined (v.shared.heap.array ⟨0⟩).toList
          (inOrder ((v.shared.heap.array ⟨0⟩).toList.map (·.awaited outcome))) ∧
      ReflTransGen Evolves (v.runTask v.focus run t) (after 7 joinWorld) := by
  obtain ⟨w', _, _, htick, -, -, -, -, rfl, -, hlater, -⟩ :=
    (await_joins_in_order (w := joinWorld) ⟨rfl, rfl, rfl, .inr ⟨rfl, rfl⟩⟩ rfl rfl).1
      ⟨⟨1⟩, List.mem_cons_self, rfl⟩
  have hover : ((after 7 joinWorld).run? 0).map (·.tasks.length) = some 0 := by decide +kernel
  have hreached : ReflTransGen Evolves w' (after 7 joinWorld) := by
    rw [after, htick]
    exact reaches_after .ticks 6 w'
  rcases hlater _ hreached with hholds | ⟨v, run, hv, -, hat, hsettled, hon⟩
  · obtain ⟨run, hrun, hnone⟩ := Option.map_eq_some_iff.mp hover
    cases List.eq_nil_of_length_eq_zero hnone ▸ hholds.2 run hrun
  · have hjoined := (await_joins_in_order hat rfl rfl).2
      (fun p => (v.shared.heap.promise p).outcome?.getD (.error ""))
      fun p hp => ⟨v, .refl, (Option.getD_of_ne_none (hsettled p hp) _).symm⟩
    exact ⟨rfl, v, run, _, _, .head (.ticks htick) hv, hat, hjoined.2.2.1, hon⟩

end World

end TaskBasic
