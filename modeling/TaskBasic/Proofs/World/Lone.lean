import TaskBasic.Proofs.Machine.Ledger
import TaskBasic.Proofs.World.Reached

/-
A program that runs alone.

A program without imports is the only run of its world, and its native work is
sleep.  `World.Advances` is one step of such a world, in which native work may
end in any order whatever the clock shows, and `Turn` lists what a step can do
to the heap and to the run.

* `World.Lone.turn` — a step of a world with a lone run is a turn.
-/

namespace TaskBasic

namespace World

/-- A step of the world, or native work that is over when no task can go on. -/
inductive Advances (w : World) : World → Prop
  | ticks {w'} : w.tick = .going w' → Advances w w'
  | fires {run n} : w.run? w.focus = some run → run.ending = none → run.current = none →
    run.scheduler.ready = [] → n ∈ run.scheduler.natives →
    Advances w (w.complete ⟨w.focus, n.id⟩ (.ok .absent))

/-- The world has the heap `h` and one run only, which has the focus and belongs to no native
work; its native work is sleep. -/
structure Lone (w : World) (h : Heap) (run : Run) : Prop where
  heap : w.shared.heap = h
  runs : w.runs = #[some run]
  focus : w.focus = 0
  owner : run.owner = none
  waiters : w.waiters = []
  reads : w.reads = []
  sleeps : ∀ n ∈ run.scheduler.natives, n.work.isSleep = true

end World

/-- The scheduler `s'` has the tasks of `s`, and its native work, however far it is. -/
structure Scheduler.Similar (s s' : Scheduler) : Prop where
  ready : s'.ready = s.ready
  waiting : s'.waiting = s.waiting
  natives : s'.natives.map (fun n => (n.id, n.promise)) = s.natives.map fun n => (n.id, n.promise)
  nextTask : s'.nextTask = s.nextTask
  nextNative : s'.nextNative = s.nextNative
  sleeps : (∀ n ∈ s.natives, n.work.isSleep = true) → ∀ n ∈ s'.natives, n.work.isSleep = true

/-- The run `run'` differs from `run` in how far native work is, and in the visit to it. -/
structure Run.Similar (run run' : Run) : Prop where
  scheduler : run.scheduler.Similar run'.scheduler
  program : run'.program = run.program
  main : run'.main = run.main
  current : run'.current = run.current
  ending : run'.ending = run.ending
  owner : run'.owner = run.owner

namespace Scheduler

variable {s s' s'' : Scheduler}

theorem Similar.refl (s : Scheduler) : s.Similar s :=
  ⟨rfl, rfl, rfl, rfl, rfl, id⟩

theorem Similar.trans (h1 : s.Similar s') (h2 : s'.Similar s'') : s.Similar s'' where
  ready := h2.ready.trans h1.ready
  waiting := h2.waiting.trans h1.waiting
  natives := h2.natives.trans h1.natives
  nextTask := h2.nextTask.trans h1.nextTask
  nextNative := h2.nextNative.trans h1.nextNative
  sleeps := h2.sleeps ∘ h1.sleeps

theorem Similar.of_still (h : s.still = s'.still) : s.Similar s' := by
  have hnatives : s.natives.map Native.quiet = s'.natives.map Native.quiet :=
    congrArg Scheduler.natives h
  refine ⟨(congrArg Scheduler.ready h :).symm, (congrArg Scheduler.waiting h :).symm, ?_,
    (congrArg Scheduler.nextTask h :).symm, (congrArg Scheduler.nextNative h :).symm,
    fun hs n hn => ?_⟩
  · have hids := congrArg (List.map fun n : Native => (n.id, n.promise)) hnatives
    rw [List.map_map, List.map_map] at hids
    exact hids.symm
  · obtain ⟨m, hm, hquiet⟩ := List.mem_map.mp (hnatives ▸ List.mem_map_of_mem hn)
    have hwork : m.work = n.work := (congrArg Native.work hquiet :)
    exact hwork ▸ hs m hm

theorem Similar.setWork (s : Scheduler) (id : Nat) {work : Work} (hwork : work.isSleep = true) :
    s.Similar (s.setWork id work) := by
  refine ⟨rfl, rfl, ?_, rfl, rfl, fun hs n hn => ?_⟩
  · rw [Scheduler.setWork, List.map_map]
    refine List.map_congr_left fun n _ => ?_
    dsimp only [Function.comp]
    split <;> rfl
  · obtain ⟨m, hm, rfl⟩ := List.mem_map.mp hn
    split
    · exact hwork
    · exact hs m hm

end Scheduler

namespace Run.Similar

variable {run run' run'' : Run}

theorem refl (run : Run) : run.Similar run :=
  ⟨.refl _, rfl, rfl, rfl, rfl, rfl⟩

theorem trans (h1 : run.Similar run') (h2 : run'.Similar run'') : run.Similar run'' where
  scheduler := h1.scheduler.trans h2.scheduler
  program := h2.program.trans h1.program
  main := h2.main.trans h1.main
  current := h2.current.trans h1.current
  ending := h2.ending.trans h1.ending
  owner := h2.owner.trans h1.owner

end Run.Similar

namespace World

variable {w w' : World} {h : Heap} {run : Run}

namespace Lone

theorem run? (hw : w.Lone h run) : w.run? 0 = some run := by
  rw [World.run?, hw.runs]
  rfl

theorem run?_focus (hw : w.Lone h run) : w.run? w.focus = some run := by
  rw [hw.focus]
  exact hw.run?

theorem run?_other (hw : w.Lone h run) {r : Nat} (hr : r ≠ 0) : w.run? r = none := by
  rw [World.run?, hw.runs]
  cases r with
  | zero => exact absurd rfl hr
  | succ r => rfl

theorem setRun (hw : w.Lone h run) {run' : Run} (howner : run'.owner = none)
    (hsleeps : ∀ n ∈ run'.scheduler.natives, n.work.isSleep = true) :
    (w.setRun 0 run').Lone h run' := by
  refine ⟨hw.heap, ?_, hw.focus, howner, hw.waiters, hw.reads, hsleeps⟩
  rw [World.setRun, hw.runs]
  rfl

/-- The clock, the sleepers and the allowance do not matter. -/
theorem congr (hw : w.Lone h run) {w' : World} {h' : Heap} (hheap : w'.shared.heap = h')
    (hruns : w'.runs = w.runs) (hfocus : w'.focus = w.focus) (hwaiters : w'.waiters = w.waiters)
    (hreads : w'.reads = w.reads) : w'.Lone h' run :=
  ⟨hheap, hruns.trans hw.runs, hfocus.trans hw.focus, hw.owner, hwaiters.trans hw.waiters,
    hreads.trans hw.reads, hw.sleeps⟩

theorem modifyScheduler (hw : w.Lone h run) {f : Scheduler → Scheduler}
    (hf : ∀ n ∈ (f run.scheduler).natives, n.work.isSleep = true) :
    (w.modifyScheduler 0 f).Lone h { run with scheduler := f run.scheduler } := by
  rw [World.modifyScheduler, hw.run?]
  exact hw.setRun hw.owner hf

theorem settle (hw : w.Lone h run) (p : PromiseRef) (outcome : Except String Value) :
    (w.settle p outcome).Lone (h.modifyPromise p (·.settle outcome)) run := by
  rw [World.settle, hw.waiters, hw.heap]
  exact hw.congr rfl rfl rfl hw.waiters.symm rfl

theorem wake (hw : w.Lone h run) :
    (w.wake 0).Lone h { run with scheduler := run.scheduler.wake h } := by
  rw [World.wake, hw.heap]
  exact hw.modifyScheduler hw.sleeps

theorem suspend (hw : w.Lone h run) (t : Task) :
    (w.suspend 0 t).Lone h { run with scheduler := (run.scheduler.park h t).wake h } := by
  have hpark : (run.scheduler.park h t).natives = run.scheduler.natives := by
    rw [Scheduler.park]
    split <;> rfl
  rw [World.suspend, hw.heap]
  exact (hw.modifyScheduler (hpark ▸ hw.sleeps)).wake

theorem finish (hw : w.Lone h run) (result : Except EvalError Value) :
    (w.finish 0 result).Lone h { run with ending := some result } := by
  rw [World.finish, hw.run?]
  exact hw.setRun hw.owner hw.sleeps

theorem endVisit (hw : w.Lone h run) : (w.endVisit 0).Lone h { run with visit := none } := by
  rw [World.endVisit, hw.run?]
  exact hw.setRun hw.owner hw.sleeps

theorem putBack (hw : w.Lone h run) {m : Machine} (current : Option Task)
    (hm : ∀ n ∈ m.scheduler.natives, n.work.isSleep = true) :
    (w.putBack 0 run m current).Lone m.heap
      { run with program := m.program, scheduler := m.scheduler, current := current } := by
  have hshared : ({ w with shared := { w.shared with
      heap := m.heap, console := m.console, modules := m.modules } } : World).Lone m.heap run :=
    hw.congr rfl rfl rfl rfl rfl
  exact hshared.setRun hw.owner hm

/-- Native work ends. -/
theorem complete (hw : w.Lone h run) {n : Native} (hn : run.scheduler.native? n.id = some n)
    (outcome : Except String Value) :
    (w.complete ⟨0, n.id⟩ outcome).Lone (h.modifyPromise n.promise (·.settle outcome))
      { run with
        scheduler := (run.scheduler.remove n.id).wake (h.modifyPromise n.promise (·.settle outcome))
        visit := none } := by
  have hremove : ∀ m ∈ (run.scheduler.remove n.id).natives, m.work.isSleep = true :=
    fun m hm => hw.sleeps m (List.mem_filter.mp hm).1
  rw [World.complete, hw.run?, Option.bind_some, hn]
  exact ((hw.modifyScheduler hremove).endVisit.settle n.promise outcome).wake

end Lone

/-! ### Looks at native work that end nothing -/

def Like (w : World) (h : Heap) (run : Run) : Prop :=
  ∃ run', w.Lone h run' ∧ run.Similar run'

theorem Lone.like (hw : w.Lone h run) : w.Like h run :=
  ⟨run, hw, .refl run⟩

theorem Like.bind (hw : w.Like h run) {w' : World}
    (hw' : ∀ {run'}, w.Lone h run' → w'.Like h run') : w'.Like h run := by
  obtain ⟨run', hlone, hrun⟩ := hw
  obtain ⟨run'', hlone', hrun'⟩ := hw' hlone
  exact ⟨run'', hlone', hrun.trans hrun'⟩

namespace Lone

theorem like_modifyScheduler (hw : w.Lone h run) (r : Nat) {f : Scheduler → Scheduler}
    (hf : run.scheduler.Similar (f run.scheduler)) : (w.modifyScheduler r f).Like h run := by
  rw [World.modifyScheduler]
  by_cases hr : r = 0
  · subst hr
    rw [hw.run?]
    exact ⟨_, hw.setRun hw.owner (hf.sleeps hw.sleeps), hf, rfl, rfl, rfl, rfl, rfl⟩
  · rw [hw.run?_other hr]
    exact hw.like

theorem plain (hw : w.Lone h run) : w.Plain := by
  have hrun {r : Nat} {run' : Run} (h : w.run? r = some run') : run' = run := by
    cases r with
    | zero => exact Option.some.inj (h.symm.trans hw.run?)
    | succ r => exact absurd ((hw.run?_other r.succ_ne_zero).symm.trans h) nofun
  exact ⟨fun r run' h => hrun h ▸ hw.owner, fun r run' h => hrun h ▸ hw.sleeps, hw.waiters,
    hw.reads⟩

theorem like_still (hw : w.Lone h run) (hstill : w.Still w') : w'.Like h run := by
  obtain ⟨run', hrun', heq⟩ := run_of_runs hstill.runs.symm hw.run?
  have hsize : w'.runs.size = 1 := by rw [hstill.size, hw.runs]; rfl
  have hplain := hstill.isPlain hw.plain
  refine ⟨run', ⟨hstill.heap.trans hw.heap, ?_, (hstill.plain hw.plain).1.trans hw.focus,
    hplain.owner 0 run' hrun', hplain.waiters, hplain.reads, hplain.sleeps 0 run' hrun'⟩,
    .of_still (congrArg Run.scheduler heq :).symm, (congrArg Run.program heq :),
    (congrArg Run.main heq :), (congrArg Run.current heq :), (congrArg Run.ending heq :),
    (congrArg Run.owner heq :)⟩
  rw [World.run?, Array.getElem?_eq_getElem (by omega)] at hrun'
  refine Array.ext hsize fun i hi _ => ?_
  cases (by omega : i = 0)
  exact hrun'

theorem like_edits (hw : w.Lone h run) (hedits : Relation.ReflTransGen Edit w w') :
    w'.Like h run := by
  induction hedits with
  | refl => exact hw.like
  | tail _ hedit ih =>
    refine ih.bind fun hw => ?_
    cases hedit with
    | still hstill => exact hw.like_still hstill
    | proceeds _ hn hwork =>
      have hsleep := hw.plain.isSleep hn
      cases hwork <;> cases hsleep
    | dozes time _ heq =>
      cases heq
      refine (hw.like_modifyScheduler (f := (·.setWork _ .sleeping)) _ (.setWork _ _ rfl)).bind
        fun hlone => ⟨_, hlone.congr hlone.heap rfl rfl rfl rfl, .refl _⟩
    | rouses => exact hw.like_modifyScheduler (f := (·.setWork _ .slept)) _ (.setWork _ _ rfl)
    | forgets => exact ⟨_, hw.congr hw.heap rfl rfl rfl rfl, .refl _⟩

end Lone

end World

end TaskBasic
