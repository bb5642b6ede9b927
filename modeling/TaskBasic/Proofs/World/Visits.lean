import Mathlib.Data.List.Induction
import Mathlib.Logic.Relation
import TaskBasic.World.Tick

/-
What a visit to native work does.

Alerts, and the looks themselves, change nothing but what is to be looked at next
(`World.Still`).  Besides, looks and the time that goes on change how far native
work is (`World.Edit`); a look may end native work, or begin to run a module
(`World.Visits`).  What all of these keep is kept by a visit.

* `World.visits_goOn` — what a visit does.
* `World.run?_withoutRun` — which runs are left when one is removed.
-/

namespace TaskBasic

open Relation

/-- True for sleep, however far it is. -/
def Work.isSleep : Work → Bool
  | sleep _ | sleeping | slept => true
  | _ => false

/-- How far the load of a module comes by itself. -/
inductive Work.Proceeds : Work → Work → Prop
  | reading {path : String} : Proceeds (.load path) (.reading path)
  | read {path : String} {content : Except FileError String} :
    Proceeds (.reading path) (.read path content)

/-- Native work, whether something has happened to it or not. -/
def Native.quiet (n : Native) : Native :=
  { n with alerted := false }

/-- The scheduler, whatever is to be looked at. -/
def Scheduler.still (s : Scheduler) : Scheduler :=
  { s with natives := s.natives.map Native.quiet, queue := [] }

def Run.still (run : Run) : Run :=
  { run with scheduler := run.scheduler.still, visit := none }

def World.still (w : World) : Array (Option Run) :=
  w.runs.map (Option.map Run.still)

namespace Scheduler

theorem find?_quiet (natives : List Native) (id : Nat) :
    (natives.map Native.quiet).find? (·.id == id) =
      (natives.find? (·.id == id)).map Native.quiet := by
  rw [List.find?_map]
  rfl

theorem quiet_setAlerted (s : Scheduler) (id : Nat) (alerted : Bool) :
    (s.setAlerted id alerted).natives.map Native.quiet = s.natives.map Native.quiet := by
  rw [setAlerted, List.map_map]
  refine List.map_congr_left fun n _ => ?_
  dsimp only [Function.comp]
  split <;> rfl

theorem still_setAlerted (s : Scheduler) (id : Nat) (alerted : Bool) :
    (s.setAlerted id alerted).still = s.still := by
  rw [still, quiet_setAlerted]
  rfl

theorem still_enqueue (s : Scheduler) (id : Nat) : (s.enqueue id).still = s.still := by
  rw [enqueue]
  split <;> rfl

end Scheduler

theorem Run.still_congr {run : Run} {s : Scheduler} (h : s.still = run.scheduler.still)
    (visit : Option Visit) :
    ({ run with scheduler := s, visit := visit } : Run).still = run.still := by
  rw [still, h]
  rfl

namespace World

variable {w w' w'' : World} {r : Nat} {run run' : Run} {n : NativeRef}

theorem lt_of_run? (h : w.run? r = some run) : r < w.runs.size := by
  refine Nat.lt_of_not_le fun hge => ?_
  rw [run?, Array.getElem?_eq_none hge] at h
  cases h

theorem run?_setRun_self (hrun : w.run? r = some run) (run' : Run) :
    (w.setRun r run').run? r = some run' := by
  rw [run?, setRun, Array.getElem?_setIfInBounds, if_pos rfl, if_pos (lt_of_run? hrun)]
  rfl

theorem map_run? (w : World) (r : Nat) : (w.run? r).map Run.still = (w.still[r]?).join := by
  rw [run?, still, Array.getElem?_map]
  cases w.runs[r]? with
  | none => rfl
  | some entry => cases entry <;> rfl

/-- No program belongs to native work, and all native work is sleep. -/
structure Plain (w : World) : Prop where
  owner : ∀ r run, w.run? r = some run → run.owner = none
  sleeps : ∀ r run, w.run? r = some run → ∀ n ∈ run.scheduler.natives, n.work.isSleep = true
  waiters : w.waiters = []
  reads : w.reads = []

/-- The world `w'` differs from `w` in what is to be looked at.  Unless all native work is sleep,
another program may have its turn, native work may wait, and files may have been read. -/
structure Still (w w' : World) : Prop where
  heap : w'.shared.heap = w.shared.heap
  modules : w'.shared.modules = w.shared.modules
  runs : w'.still = w.still
  sleepers : w'.sleepers = w.sleepers
  plain : w.Plain → w'.focus = w.focus ∧ w'.waiters = [] ∧ w'.reads = []

/-- There is the native work `n`, and it has come as far as `work`. -/
def AtWork (w : World) (n : NativeRef) (work : Work) : Prop :=
  ∃ run native, w.run? n.run = some run ∧ run.scheduler.native? n.native = some native ∧
    native.work = work

theorem run_of_runs (h : w'.still = w.still) (hrun : w'.run? r = some run') :
    ∃ run, w.run? r = some run ∧ run.still = run'.still := by
  have hmap := map_run? w r
  rw [← h, ← map_run?, hrun] at hmap
  exact Option.map_eq_some_iff.mp hmap

theorem AtWork.of_runs (h : w'.still = w.still) {work : Work} (hn : w'.AtWork n work) :
    w.AtWork n work := by
  obtain ⟨run', native', hrun', hnative', rfl⟩ := hn
  obtain ⟨run, hrun, heq⟩ := run_of_runs h hrun'
  have hnatives := congrArg (fun run : Run => run.scheduler.native? n.native) heq
  dsimp only [Run.still, Scheduler.still, Scheduler.native?] at hnatives hnative'
  rw [Scheduler.find?_quiet, Scheduler.find?_quiet, hnative'] at hnatives
  obtain ⟨native, hnative, hquiet⟩ := Option.map_eq_some_iff.mp hnatives
  exact ⟨run, native, hrun, hnative, congrArg (·.work) hquiet⟩

theorem Plain.isSleep (h : w.Plain) {work : Work} (hn : w.AtWork n work) : work.isSleep = true := by
  obtain ⟨run, native, hrun, hnative, rfl⟩ := hn
  exact h.sleeps _ run hrun native (List.mem_of_find?_eq_some hnative)

namespace Still

theorem refl (w : World) : w.Still w :=
  ⟨rfl, rfl, rfl, rfl, fun h => ⟨rfl, h.waiters, h.reads⟩⟩

theorem size (h : w.Still w') : w'.runs.size = w.runs.size := by
  have hsize := congrArg Array.size h.runs
  rwa [World.still, World.still, Array.size_map, Array.size_map] at hsize

theorem isPlain (h : w.Still w') (hw : w.Plain) : w'.Plain where
  owner r run' hrun' := by
    obtain ⟨run, hrun, heq⟩ := run_of_runs h.runs hrun'
    exact (congrArg Run.owner heq).symm.trans (hw.owner r run hrun)
  sleeps r run' hrun' n hn := by
    obtain ⟨run, hrun, heq⟩ := run_of_runs h.runs hrun'
    have hnatives : run.scheduler.natives.map Native.quiet = run'.scheduler.natives.map _ :=
      congrArg (·.scheduler.natives) heq
    obtain ⟨m, hm, hquiet⟩ := List.mem_map.mp (hnatives ▸ List.mem_map_of_mem hn)
    have hwork : m.work = n.work := congrArg (·.work) hquiet
    exact hwork ▸ hw.sleeps r run hrun m hm
  waiters := (h.plain hw).2.1
  reads := (h.plain hw).2.2

theorem trans (h : w.Still w') (h' : w'.Still w'') : w.Still w'' where
  heap := h'.heap.trans h.heap
  modules := h'.modules.trans h.modules
  runs := h'.runs.trans h.runs
  sleepers := h'.sleepers.trans h.sleepers
  plain hw := ⟨(h'.plain (h.isPlain hw)).1.trans (h.plain hw).1, (h'.plain (h.isPlain hw)).2⟩

theorem round (w : World) (allowance : Nat) (postponed : List NativeRef) :
    w.Still { w with allowance := allowance, postponed := postponed } :=
  ⟨rfl, rfl, rfl, rfl, fun h => ⟨rfl, h.waiters, h.reads⟩⟩

/-- The same, if other native work is known to sleep. -/
theorem withSleepers (h : w.Still w') (sleepers : List (Nat × NativeRef)) :
    ({ w with sleepers := sleepers } : World).Still { w' with sleepers := sleepers } :=
  ⟨h.heap, h.modules, h.runs, rfl, fun hw => h.plain ⟨hw.owner, hw.sleeps, hw.waiters, hw.reads⟩⟩

theorem setRun (hrun : w.run? r = some run) (h : run'.still = run.still) :
    w.Still (w.setRun r run') := by
  refine ⟨rfl, rfl, ?_, rfl, fun h => ⟨rfl, h.waiters, h.reads⟩⟩
  have hget := map_run? w r
  have hlt : r < w.still.size := by
    rw [World.still, Array.size_map]
    exact lt_of_run? hrun
  rw [hrun, Array.getElem?_eq_getElem hlt] at hget
  show (w.runs.setIfInBounds r (some run')).map _ = _
  rw [Array.map_setIfInBounds, Option.map_some, h]
  show w.still.setIfInBounds r _ = _
  rw [Array.setIfInBounds, dif_pos hlt, show some run.still = _ from hget, Option.join_some,
    Array.set_getElem_self]

theorem alert (fuel : Nat) (w : World) (n : NativeRef) : w.Still (w.alert fuel n) := by
  induction fuel generalizing w n with
  | zero => exact .refl w
  | succ fuel ih =>
    rw [World.alert]
    split
    next => exact .refl w
    next run hrun =>
      have halert := run.scheduler.still_setAlerted n.native true
      dsimp only
      split
      · exact .setRun hrun (Run.still_congr halert _)
      · have hset := setRun hrun (Run.still_congr
          ((Scheduler.still_enqueue _ n.native).trans halert) run.visit)
        split
        next owner _ => exact hset.trans (ih _ owner)
        next => exact hset

theorem notify (w : World) (n : NativeRef) : w.Still (w.notify n) :=
  .alert _ w n

theorem notifyAll {α : Type} (f : α → NativeRef) (ns : List α) (w : World) :
    w.Still (ns.foldl (fun w n => w.notify (f n)) w) := by
  induction ns generalizing w with
  | nil => exact .refl w
  | cons n ns ih => exact (Still.notify w _).trans (ih _)

theorem endVisit (w : World) (r : Nat) : w.Still (w.endVisit r) := by
  rw [World.endVisit]
  split
  next hrun => exact .setRun hrun rfl
  next => exact .refl w

end Still

/-- A part of what a visit does while it ends nothing. -/
inductive Edit (w : World) : World → Prop
  | still {w' : World} : w.Still w' → Edit w w'
  /-- A load comes nearer to its end. -/
  | proceeds {n : NativeRef} {old work : Work} (reads : List NativeRef) : w.AtWork n old →
    old.Proceeds work →
    Edit w { w.modifyScheduler n.run (·.setWork n.native work) with reads := reads }
  /-- A sleep begins. -/
  | dozes {n : NativeRef} {ms : Nat} {w' : World} (time : Nat) : w.AtWork n (.sleep ms) →
    w' = w.modifyScheduler n.run (·.setWork n.native .sleeping) →
    Edit w { w' with sleepers := w'.sleepers ++ [(time, n)] }
  /-- The time of a sleep is over. -/
  | rouses {n : NativeRef} : n ∈ w.sleepers.map Prod.snd →
    Edit w (w.modifyScheduler n.run (·.setWork n.native .slept))
  | forgets {sleepers : List (Nat × NativeRef)} (env : Env) : sleepers ⊆ w.sleepers →
    Edit w { w with shared := { w.shared with env := env }, sleepers := sleepers }

/-- What a visit of the run `r` can do. -/
inductive Visits (w : World) (r : Nat) : Progress → Prop
  | rests {w' : World} : ReflTransGen Edit w w' → Visits w r (.going w')
  | hangs {w' : World} : w.Still w' → Visits w r (.hang w')
  /-- A sleep ends. -/
  | completes {w' : World} {id : Nat} {work : Work} : w.Still w' → w.AtWork ⟨r, id⟩ work →
    work.isSleep = true → Visits w r (.going (w'.complete ⟨r, id⟩ (.ok .absent)))
  /-- A promise that has been waited for is settled. -/
  | observes {w' : World} {id : Nat} {p : PromiseRef} {outcome : Except String Value} :
    w.Still w' → w.AtWork ⟨r, id⟩ (.wait p) → (w.shared.heap.promise p).outcome? = some outcome →
    Visits w r (.going (World.complete { w' with shared := { w'.shared with
      heap := w'.shared.heap.modifyPromise p Promise.observe } } ⟨r, id⟩ outcome))
  /-- A file has been read. -/
  | starts {w' : World} {id : Nat} {path : String} {content : Except FileError String} :
    w.Still w' → w.AtWork ⟨r, id⟩ (.read path content) →
    Visits w r (.going (w'.startModule ⟨r, id⟩ path content))

theorem Visits.since {p : Progress} (h : w.Still w') (h' : w'.Visits r p) : w.Visits r p := by
  cases h' with
  | rests hedits => exact .rests (hedits.head (.still h))
  | hangs h' => exact .hangs (h.trans h')
  | completes h' hn hsleep => exact .completes (h.trans h') (hn.of_runs h.runs) hsleep
  | observes h' hn houtcome =>
    exact .observes (h.trans h') (hn.of_runs h.runs) (h.heap ▸ houtcome)
  | starts h' hn => exact .starts (h.trans h') (hn.of_runs h.runs)

theorem edits_beginRead {path : String} (hn : w.AtWork n (.load path)) :
    ReflTransGen Edit w (w.beginRead n path) :=
  .single (.proceeds _ hn .reading)

theorem edits_postpone {work : Work} (hn : w.AtWork n work) :
    ReflTransGen Edit w (w.postpone n work) := by
  have hput (v : World) : v.Edit (if v.postponed.head? = some n then v
      else { v with postponed := n :: v.postponed }) := by
    split
    · exact .still (.refl v)
    · exact .still (.round v v.allowance _)
  rw [postpone.eq_def]
  dsimp only
  split
  · exact (edits_beginRead hn).tail (hput _)
  · exact .single (hput w)

theorem visits_look {id : Nat} {work : Work} (hn : w.AtWork ⟨r, id⟩ work) :
    w.Visits r (.going (w.look ⟨r, id⟩ work)) := by
  have hspend : w.Still w.spend := .round w _ w.postponed
  -- native work that does not sleep may do what sleep does not
  have hother : work.isSleep = false → ∀ {w' : World}, w'.shared = w.shared → w'.runs = w.runs →
      w'.sleepers = w.sleepers → w.Visits r (.going w') := by
    intro hwork w' hshared hruns hsleepers
    refine .rests (.single (.still ⟨?_, ?_, ?_, hsleepers, fun hw => ?_⟩))
    · rw [hshared]
    · rw [hshared]
    · rw [World.still, hruns, World.still]
    · cases hwork.symm.trans (hw.isSleep hn)
  cases work with
  | sleep ms =>
    cases ms with
    | zero => exact .completes hspend hn rfl
    | succ ms => exact .rests (.single (.dozes _ hn rfl))
  | sleeping | reading => exact .rests .refl
  | slept => exact .completes hspend hn rfl
  | wait p =>
    rw [look]
    split
    next outcome houtcome => exact .observes (.refl w) hn houtcome
    next =>
      split
      · exact .rests .refl
      · exact hother rfl rfl rfl rfl
  | load path => exact .rests (edits_beginRead hn)
  | read path content => exact .starts hspend hn
  | running path q => exact hother rfl rfl rfl rfl

/-! ### Rounds -/

theorem edits_endRead (w : World) (n : NativeRef) : ReflTransGen Edit w (w.endRead n) := by
  rw [endRead]
  split
  next h =>
    obtain ⟨run, hrun, hnative⟩ := Option.bind_eq_some_iff.mp h
    refine .tail (.single ?_) (.still (.notify _ _))
    exact .proceeds _ ⟨run, _, hrun, hnative, rfl⟩ .read
  next => exact .refl

/-- The sleeps that are over end one after the other, and are forgotten then. -/
theorem edits_endSleeps (sleepers : List (Nat × NativeRef)) (due : List (Nat × NativeRef))
    (w : World) (hdue : ∀ d ∈ due, d ∈ sleepers) (hleft : w.sleepers ⊆ sleepers) :
    ReflTransGen Edit { w with sleepers := sleepers }
      (due.foldl (fun w d => w.endSleep d.2) w) := by
  induction due generalizing w with
  | nil => exact .single (.forgets w.shared.env hleft)
  | cons d due ih =>
    have hset : ({ w with sleepers := sleepers } : World).modifyScheduler d.2.run
        (·.setWork d.2.native .slept) =
          { w.modifyScheduler d.2.run (·.setWork d.2.native .slept) with sleepers := sleepers } ∧
        (w.modifyScheduler d.2.run (·.setWork d.2.native .slept)).sleepers = w.sleepers := by
      simp only [modifyScheduler, show ({ w with sleepers := sleepers } : World).run? d.2.run =
        w.run? d.2.run from rfl]
      split <;> exact ⟨rfl, rfl⟩
    have hstill := Still.notify (w.modifyScheduler d.2.run (·.setWork d.2.native .slept)) d.2
    have hrouses : Edit { w with sleepers := sleepers } _ :=
      .rouses (n := d.2) (List.mem_map_of_mem (hdue d List.mem_cons_self))
    rw [hset.1] at hrouses
    refine .head hrouses (.head (.still (hstill.withSleepers sleepers)) (ih _ ?_ ?_))
    · exact fun e he => hdue e (List.mem_cons_of_mem d he)
    · exact (hstill.sleepers.trans hset.2) ▸ hleft

theorem visits_idle (w : World) (r : Nat) : w.Visits r w.idle := by
  rw [idle]
  split
  · have hstill : w.Still { w with reads := [] } :=
      ⟨rfl, rfl, rfl, rfl, fun h => ⟨rfl, h.waiters, rfl⟩⟩
    refine .rests (.head (.still hstill) ?_)
    generalize ({ w with reads := [] } : World) = v
    generalize w.reads = reads
    induction reads generalizing v with
    | nil => exact .refl
    | cons n reads ih => exact (edits_endRead v n).trans (ih _)
  · split
    · exact .hangs (.refl w)
    · split
      · exact .hangs (.refl w)
      next time _ _ =>
        rw [List.partition_eq_filter_filter]
        refine .rests (.head (.forgets { w.shared.env with now := time } (List.Subset.refl _)) ?_)
        exact edits_endSleeps w.sleepers _
          { w with
            shared := { w.shared with env := { w.shared.env with now := time } }
            sleepers := w.sleepers.filter (not ∘ fun d => decide (d.1 = time)) }
          (fun d hd => (List.mem_filter.mp hd).1) List.filter_sublist.subset

theorem visits_nextRound (w : World) (r : Nat) : w.Visits r w.nextRound := by
  have hround := (Still.round w roundAllowance []).trans (.notifyAll (fun n => n) w.postponed _)
  rw [nextRound]
  split
  · split
    · exact .since hround (visits_idle _ r)
    · exact .rests (.single (.still hround))
  · exact .hangs hround

theorem visits_leave (hrun : w.run? r = some run') (howner : run'.owner = run.owner) :
    w.Visits r (w.leave r run) := by
  have hend := Still.endVisit w r
  rw [leave, ← howner]
  split
  next owner howner =>
    refine .since hend (.rests (.single (.still ⟨rfl, rfl, rfl, rfl, fun h => ?_⟩)))
    obtain ⟨run', hrun', heq⟩ := run_of_runs hend.runs.symm hrun
    cases (howner.symm.trans (congrArg Run.owner heq).symm).trans (h.owner r run' hrun')
  next => exact .since hend (visits_nextRound _ r)

theorem visits_beginLook (hrun : w.run? r = some run) (visit : Visit) (id : Nat)
    (queue : List Nat) : w.Visits r (.going (w.beginLook r run visit id queue)) := by
  have hstill := ({ run.scheduler with queue := queue } : Scheduler).still_setAlerted id false
  rw [beginLook]
  dsimp only
  split
  next => exact .rests (.single (.still (.setRun hrun (Run.still_congr hstill run.visit))))
  next native hnative =>
    have hset := Still.setRun hrun (Run.still_congr hstill (some { visit with looking := some id }))
    have hn := AtWork.of_runs (n := ⟨r, id⟩) hset.runs.symm ⟨run, native, hrun, hnative, rfl⟩
    split
    · exact .since hset (.rests (edits_postpone hn))
    · exact .since hset (visits_look hn)

/-- What a visit does. -/
theorem visits_goOn (hrun : w.run? r = some run) : w.Visits r (w.goOn r run) := by
  have hset (visit : Option Visit) : w.Visits r (.going (w.setRun r { run with visit := visit })) :=
    .rests (.single (.still (.setRun hrun rfl)))
  rw [goOn]
  split
  · exact hset _
  · split
    · rw [endLook]
      split
      · split
        next owner _ =>
          obtain ⟨run', hrun', heq⟩ := run_of_runs (Still.notify w owner).runs.symm hrun
          exact .since (.notify w owner) (visits_leave hrun' (congrArg Run.owner heq :))
        next => exact visits_leave hrun rfl
      · exact hset _
    · exact visits_beginLook hrun _ _ _
    · exact visits_leave hrun rfl

/-- An evaluation does not end with a visit to native work. -/
theorem goOn_ne_ended (hrun : w.run? r = some run) {program : ProgramState}
    {result : Except EvalError Value} : w.goOn r run ≠ .ended w' program result := by
  intro hended
  cases hended ▸ visits_goOn hrun

/-! ### The end of a run -/

/-- True for a run whose owner is not among those that are left. -/
def isOrphan (kept : Array (Option Run)) (run : Run) : Bool :=
  match run.owner with
  | some owner => (kept[owner.run]?).join.isNone
  | none => false

theorem isOrphan_eq_false_iff {kept : Array (Option Run)} :
    isOrphan kept run = false ↔ ∀ n, run.owner = some n → (kept[n.run]?).join.isSome := by
  rw [isOrphan]
  cases run.owner with
  | none => simp
  | some owner => cases (kept[owner.run]?).join <;> simp

/-- What becomes of the next run when the runs before it that are left are `kept`. -/
def keepNext (r : Nat) (kept : Array (Option Run)) (entry : Option Run) : Option Run :=
  entry.filter fun run => !(decide (kept.size = r) || isOrphan kept run)

theorem keepNext_iff {kept : Array (Option Run)} {entry : Option Run} :
    keepNext r kept entry = some run ↔ entry = some run ∧ kept.size ≠ r ∧
      ∀ n, run.owner = some n → (kept[n.run]?).join.isSome := by
  rw [keepNext, Option.filter_eq_some_iff, Bool.not_eq_true', Bool.or_eq_false_iff,
    decide_eq_false_iff_not, isOrphan_eq_false_iff]

theorem withoutRun_eq (runs : Array (Option Run)) (r : Nat) :
    withoutRun runs r = runs.foldl (fun kept entry => kept.push (keepNext r kept entry)) #[] := by
  rw [withoutRun]
  congr 1
  funext kept entry
  cases entry with
  | none => rfl
  | some run =>
    show (if (decide (kept.size = r) || isOrphan kept run) = true then kept.push none
      else kept.push (some run)) = _
    rw [keepNext, Option.filter_some]
    cases decide (kept.size = r) || isOrphan kept run <;> rfl

/-- The runs that are left are those whose owners are left. -/
theorem run?_withoutRun (runs : Array (Option Run)) (r : Nat) :
    (withoutRun runs r).size = runs.size ∧
      ∀ q run, ((withoutRun runs r)[q]?).join = some run ↔
        (runs[q]?).join = some run ∧ q ≠ r ∧ ∀ n, run.owner = some n →
          n.run < q ∧ ((withoutRun runs r)[n.run]?).join.isSome := by
  obtain ⟨entries⟩ := runs
  simp only [withoutRun_eq, List.foldl_toArray', List.size_toArray, List.getElem?_toArray]
  -- each entry is kept or blanked out once all entries before it are
  induction entries using List.reverseRecOn with
  | nil => simp
  | append_singleton entries entry ih =>
    rw [List.foldl_append, List.foldl_cons, List.foldl_nil]
    generalize List.foldl _ #[] entries = kept at ih ⊢
    obtain ⟨hsize, hkept⟩ := ih
    refine ⟨by rw [Array.size_push, hsize, List.length_append]; rfl, fun q run => ?_⟩
    have hearlier : ∀ k, k < kept.size → (kept.push (keepNext r kept entry))[k]? = kept[k]? := by
      intro k hk
      rw [Array.getElem?_push, if_neg (by omega)]
    rcases Nat.lt_trichotomy q kept.size with hq | hq | hq
    · rw [hearlier q hq, List.getElem?_append_left (by omega), hkept q run]
      refine and_congr_right fun _ => and_congr_right fun _ => forall_congr' fun n =>
        imp_congr_right fun _ => and_congr_right fun hn => ?_
      rw [hearlier n.run (by omega)]
    · subst hq
      rw [Array.getElem?_push_size, hsize, List.getElem?_concat_length]
      show keepNext r kept entry = some run ↔ entry = some run ∧ _
      rw [keepNext_iff]
      refine and_congr_right fun _ => and_congr (by rw [hsize]) (forall_congr' fun n => ?_)
      refine imp_congr_right fun _ => ⟨fun hsome => ?_, fun ⟨hn, hsome⟩ => ?_⟩
      · have hn : n.run < kept.size := by
          by_contra hge
          rw [Array.getElem?_eq_none (by omega)] at hsome
          cases hsome
        rw [hearlier n.run hn]
        exact ⟨by omega, hsome⟩
      · rwa [hearlier n.run (by omega)] at hsome
    · rw [Array.getElem?_eq_none (by rw [Array.size_push]; omega),
        List.getElem?_eq_none (by rw [List.length_append, List.length_singleton]; omega)]
      simp

end World

end TaskBasic
