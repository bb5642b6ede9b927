import TaskBasic.Proofs.Code.Routine
import TaskBasic.Proofs.Machine.Control
import TaskBasic.Proofs.World.Visits

/-
Invariants of all tasks of all programs that run together.

`World.Fine G I` says that all functions satisfy `G`, that values refer to these
functions only, and that all tasks satisfy `I`.  `World.Fine.tick` says that a
step keeps this, if `I` is a property that tasks keep when they take a step of
their own (`Lasting G I`).
-/

namespace TaskBasic

open List

variable {G : Function → Prop} {I : Array Function → Task → Prop} {fs : Array Function} {t : Task}
  {r : Nat}

/-- The task satisfies `I`, and its stack refers to none but the functions `fs`. -/
def Task.Fine (I : Array Function → Task → Prop) (fs : Array Function) (t : Task) : Prop :=
  I fs t ∧ ∀ v ∈ t.stack, v.Known fs.size

/-- What has to be shown of a property of tasks for it to hold of all of them: `G` is a property
that all functions have. -/
structure Lasting (G : Function → Prop) (I : Array Function → Task → Prop) : Prop where
  more : ∀ {fs t} (new : Array Function), I fs t → I (fs ++ new) t
  start : ∀ {fs}, (∀ g ∈ fs, G g) → FunctionsKnown fs → Starts fs (I fs)
  step : ∀ {fs env m flow m'}, (∀ g ∈ fs, G g) → FunctionsKnown fs → m.Runs fs (Task.Fine I fs) →
    I fs m.task → (World.taskAction env m.task).run m = .ok flow m' →
    (∀ v, flow ≠ .finished v) → I fs m'.task
  /-- It holds where a task goes on behind a failure. -/
  recover : ∀ {fs env m cause m' message t}, (∀ g ∈ fs, G g) → FunctionsKnown fs →
    m.Runs fs (Task.Fine I fs) → I fs m.task →
    (World.taskAction env m.task).run m = .error (.failure cause) m' →
    m'.task.recover? message = some t → I fs t

theorem Lasting.mono {G' : Function → Prop} (h : Lasting G I)
    (hG : ∀ g, G' g → G g) : Lasting G' I where
  more := h.more
  start hfs := h.start fun g hg => hG g (hfs g hg)
  step hfs := h.step fun g hg => hG g (hfs g hg)
  recover hfs := h.recover fun g hg => hG g (hfs g hg)

theorem Starts.fine
    (h : Starts fs (I fs)) : Starts fs (Task.Fine I fs) := by
  intro id r args p hr hargs harity
  refine ⟨h id r args p hr hargs harity, fun v hv => ?_⟩
  rcases mem_cons.mp (List.mem_toArray.mp hv) with rfl | hv
  · exact .function hr
  · exact hargs v hv

theorem recover_known {n : Nat} {t' : Task} {message : String} (ht : ∀ v ∈ t.stack, v.Known n)
    (h : t.recover? message = some t') : ∀ v ∈ t'.stack, v.Known n := by
  rw [Task.recover?] at h
  split at h
  · cases h
  · split at h
    · cases h
    · cases h
      exact Array.forall_mem_push.mpr ⟨.str, fun v hv => ht v (mem_of_mem_extract hv)⟩

structure Scheduler.All (J : Task → Prop) (s : Scheduler) : Prop where
  ready : ∀ t ∈ s.ready, J t
  waiting : ∀ t ∈ s.waiting, J t

/-- The values of a program refer to none but the first `n` functions. -/
structure ProgramState.Known (n : Nat) (p : ProgramState) : Prop where
  globals : p.globals.Known n
  data : ∀ v ∈ p.data, v.Known n

/-- All tasks of a run satisfy `I`, and its values refer to none but the functions `fs`. -/
structure Run.Fine (I : Array Function → Task → Prop) (fs : Array Function) (run : Run) : Prop where
  program : run.program.Known fs.size
  scheduler : run.scheduler.All (Task.Fine I fs)
  current : ∀ t, run.current = some t → t.Fine I fs

/-- The heap holds functions that satisfy `G`, and refers to these only. -/
structure Heap.Fine (G : Function → Prop) (h : Heap) : Prop where
  functions : ∀ g ∈ h.functions, G g
  known : FunctionsKnown h.functions
  values : h.Known h.functions.size

/-- All functions satisfy `G` and all tasks satisfy `I`, and values refer to these functions
only. -/
structure World.Fine (G : Function → Prop) (I : Array Function → Task → Prop) (w : World) :
    Prop where
  heap : w.shared.heap.Fine G
  runs : ∀ run, some run ∈ w.runs → run.Fine I w.shared.heap.functions

theorem Task.Fine.more (hI : Lasting G I) (ht : t.Fine I fs) (new : Array Function) :
    t.Fine I (fs ++ new) :=
  ⟨hI.more new ht.1, fun v hv => (ht.2 v hv).mono (by simp)⟩

theorem Run.Fine.more
    {run : Run} (hr : run.Fine I fs) (hI : Lasting G I) (new : Array Function) :
    run.Fine I (fs ++ new) := by
  have hle : fs.size ≤ (fs ++ new).size := by simp
  exact ⟨⟨hr.program.globals.mono hle, fun v hv => (hr.program.data v hv).mono hle⟩,
    ⟨fun t ht => (hr.scheduler.ready t ht).more hI new,
      fun t ht => (hr.scheduler.waiting t ht).more hI new⟩,
    fun t ht => (hr.current t ht).more hI new⟩

namespace Scheduler

variable {J : Task → Prop} {s : Scheduler}

theorem All.natives (hs : s.All J) (natives : List Native) (queue : List Nat) (nextNative : Nat) :
    ({ s with natives := natives, queue := queue, nextNative := nextNative } : Scheduler).All J :=
  ⟨hs.ready, hs.waiting⟩

theorem All.park (hs : s.All J) (h : Heap) (ht : J t) : (park h s t).All J := by
  have happend : ∀ ts : List Task, (∀ u ∈ ts, J u) → ∀ u ∈ ts ++ [t], J u := by
    intro ts hts u hu
    rcases mem_append.mp hu with hu | hu
    · exact hts u hu
    · exact mem_singleton.mp hu ▸ ht
  rw [Scheduler.park]
  split
  · exact ⟨happend _ hs.ready, hs.waiting⟩
  · exact ⟨hs.ready, happend _ hs.waiting⟩

theorem All.wake (hs : s.All J) (h : Heap) : (wake h s).All J := by
  rw [Scheduler.wake]
  dsimp only
  refine ⟨fun t ht => ?_, fun t ht => ?_⟩
  · rcases mem_append.mp ht with ht | ht
    · exact hs.ready t ht
    · rw [partition_eq_filter_filter] at ht
      exact hs.waiting t (mem_filter.mp ht).1
  · rw [partition_eq_filter_filter] at ht
    exact hs.waiting t (mem_filter.mp ht).1

theorem All.spawn (hs : s.All J) {r : FunctionRef} {args : List Value} {p : PromiseRef}
    (ht : J (Task.start s.nextTask r args p)) : (s.spawn r args p).All J := by
  refine ⟨fun t h => ?_, hs.waiting⟩
  rcases mem_append.mp h with h | h
  · exact hs.ready t h
  · exact mem_singleton.mp h ▸ ht

end Scheduler

theorem Value.Refers.known {n n' : Nat} {v : Value} (h : v.Refers n) (hle : n ≤ n') :
    v.Known n' := by
  cases v with
  | function r => exact .function (Nat.lt_of_lt_of_le h hle)
  | int | float | str => constructor
  | _ => exact h.elim

/-- The functions of a compiled program satisfy `G`, and refer to the first `base` functions and
to each other. -/
structure Compiled.Fine (G : Function → Prop) (base : Nat) (c : Compiled) : Prop where
  functions : ∀ g ∈ c.functions.push c.main, G g
  refers : ∀ g ∈ c.functions.push c.main, g.Refers (base + c.functions.size)
  arity : c.main.arity = 0
  data : ∀ n, ∀ v ∈ c.data, v.Known n

def Compiles (P : Program → Prop) (G : Function → Prop) : Prop :=
  ∀ {p : Program} {interactive : Bool} {base : Nat} {c : Compiled}, P p →
    p.compile interactive base = .ok c → c.Fine G base

theorem compileText_ok {source : String} {interactive : Bool} {base : Nat} {c : Compiled}
    (h : compileText source interactive base = .ok c) :
    ∃ p, Program.ofText source = .ok p ∧ p.compile interactive base = .ok c := by
  rw [compileText] at h
  split at h
  next => cases h
  next p hp =>
    split at h
    next => cases h
    next c' hc =>
      cases h
      exact ⟨p, hp, hc⟩

namespace World

variable {G : Function → Prop} {I : Array Function → Task → Prop} {w : World}

theorem mem_of_run? {run : Run} (h : w.run? r = some run) : some run ∈ w.runs := by
  rw [run?] at h
  cases hr : w.runs[r]? with
  | none =>
    rw [hr] at h
    cases h
  | some entry =>
    rw [hr] at h
    exact Array.mem_of_getElem? (hr.trans (congrArg some h))

@[simp] theorem shared_modifyScheduler (r : Nat) (f : Scheduler → Scheduler) :
    (w.modifyScheduler r f).shared = w.shared := by
  rw [modifyScheduler]
  split <;> rfl

@[simp] theorem shared_endVisit (r : Nat) : (w.endVisit r).shared = w.shared := by
  rw [endVisit]
  split <;> rfl

theorem functions_putBack (r : Nat) (run : Run) (m : Machine) (current : Option Task) :
    (w.putBack r run m current).shared.heap.functions = m.heap.functions := rfl

/-- The machine on which a task of a run takes its next step. -/
def machine (w : World) (run : Run) (t : Task) : Machine :=
  { heap := w.shared.heap, console := w.shared.console, modules := w.shared.modules,
    program := run.program, scheduler := run.scheduler, task := t }

namespace Fine

theorem congr (hw : w.Fine G I) {w' : World} (hheap : w'.shared.heap = w.shared.heap)
    (hruns : w'.runs = w.runs) : w'.Fine G I := by
  refine ⟨hheap ▸ hw.heap, ?_⟩
  rw [hheap, hruns]
  exact hw.runs

theorem run (hw : w.Fine G I) {run : Run} (h : w.run? r = some run) :
    run.Fine I w.shared.heap.functions :=
  hw.runs run (mem_of_run? h)

theorem setRun (hw : w.Fine G I) (r : Nat) {run : Run}
    (hr : run.Fine I w.shared.heap.functions) : (w.setRun r run).Fine G I := by
  refine ⟨hw.heap, fun other ho => ?_⟩
  rcases Array.mem_or_eq_of_mem_setIfInBounds ho with ho | ho
  · exact hw.runs other ho
  · cases ho
    exact hr

theorem modifyScheduler (hw : w.Fine G I) (r : Nat) {f : Scheduler → Scheduler}
    (hf : ∀ s : Scheduler, s.All (Task.Fine I w.shared.heap.functions) →
      (f s).All (Task.Fine I w.shared.heap.functions)) : (w.modifyScheduler r f).Fine G I := by
  rw [World.modifyScheduler]
  split
  next h =>
    have hrun := hw.run h
    exact hw.setRun r ⟨hrun.program, hf _ hrun.scheduler, hrun.current⟩
  next => exact hw

theorem of_still (hw : w.Fine G I) {w' : World} (h : w.Still w') : w'.Fine G I := by
  refine ⟨h.heap ▸ hw.heap, fun run' hrun' => ?_⟩
  have hmem : some run'.still ∈ w.still := h.runs ▸ Array.mem_map_of_mem hrun'
  obtain ⟨entry, hrun, heq⟩ := Array.mem_map.mp hmem
  obtain ⟨run, rfl, hrun'⟩ := Option.map_eq_some_iff.mp heq
  have hfine : run.still.Fine I w.shared.heap.functions :=
    ⟨(hw.runs run hrun).program, ⟨(hw.runs run hrun).scheduler.ready,
      (hw.runs run hrun).scheduler.waiting⟩, (hw.runs run hrun).current⟩
  rw [hrun'] at hfine
  rw [h.heap]
  exact ⟨hfine.program, ⟨hfine.scheduler.ready, hfine.scheduler.waiting⟩, hfine.current⟩

theorem withHeap (hw : w.Fine G I) {h : Heap} (hf : h.functions = w.shared.heap.functions)
    (hh : h.Known w.shared.heap.functions.size) :
    ({ w with shared := { w.shared with heap := h } } : World).Fine G I := by
  refine ⟨⟨?_, ?_, ?_⟩, ?_⟩ <;> dsimp only <;> rw [hf]
  · exact hw.heap.functions
  · exact hw.heap.known
  · exact hh
  · exact hw.runs

theorem settle (hw : w.Fine G I) (p : PromiseRef) {outcome : Except String Value}
    (ho : ∀ v, outcome = .ok v → v.Known w.shared.heap.functions.size) :
    (w.settle p outcome).Fine G I := by
  have hheap := hw.withHeap (h := w.shared.heap.modifyPromise p (·.settle outcome)) rfl
    (hw.heap.values.modifyPromise fun q hq => hq.settle ho)
  unfold World.settle
  generalize w.waiters.partition _ = parts
  obtain ⟨woken, waiters⟩ := parts
  have hwaiters : ({ w with
      shared := { w.shared with heap := w.shared.heap.modifyPromise p (·.settle outcome) }
      waiters := waiters } : World).Fine G I := hheap.congr rfl rfl
  exact hwaiters.of_still (.notifyAll (fun p : PromiseRef × NativeRef => p.2) woken _)

theorem wake (hw : w.Fine G I) (r : Nat) : (w.wake r).Fine G I :=
  hw.modifyScheduler r fun _ hs => hs.wake _

theorem finish (hw : w.Fine G I) (r : Nat) (result : Except EvalError Value) :
    (w.finish r result).Fine G I := by
  rw [World.finish]
  split
  next h =>
    have hrun := hw.run h
    exact hw.setRun r { hrun with }
  next => exact hw

theorem complete (hw : w.Fine G I) (n : NativeRef) {result : Except String Value}
    (hr : ∀ v, result = .ok v → v.Known w.shared.heap.functions.size) :
    (w.complete n result).Fine G I := by
  rw [World.complete]
  split
  next => exact hw
  next native _ =>
    have hw' := (hw.modifyScheduler n.run (f := (·.remove n.native)) fun s hs =>
      hs.natives _ s.queue s.nextNative).of_still (.endVisit _ n.run)
    refine (hw'.settle _ fun v hv => ?_).wake n.run
    rw [shared_endVisit, shared_modifyScheduler]
    exact hr v hv

theorem drop (hw : w.Fine G I) (r : Nat) : (w.drop r).Fine G I := by
  refine ⟨hw.heap, fun run hrun => ?_⟩
  obtain ⟨q, hq⟩ := Array.mem_iff_getElem?.mp hrun
  have hkept : ((withoutRun w.runs r)[q]?).join = some run := congrArg Option.join hq
  exact hw.run (((run?_withoutRun w.runs r).2 q run).mp hkept).1

/-! ### Programs that begin -/

theorem start (hI : Lasting G I) (hw : w.Fine G I) {c : Compiled}
    (hc : c.Fine G w.shared.heap.functions.size) {program : ProgramState}
    (hp : program.globals.Known w.shared.heap.functions.size) (owner : Option NativeRef) :
    (w.start c program owner).Fine G I := by
  obtain ⟨hheap, hruns⟩ := hw
  generalize hfs : w.shared.heap.functions = fs at hc hp hruns
  have hnew : (w.start c program owner).shared.heap.functions = fs ++ c.functions.push c.main := by
    rw [← hfs]
    exact Array.append_push.symm
  have hsize : (fs ++ c.functions.push c.main).size = fs.size + c.functions.size + 1 := by
    simp
    omega
  have hle : fs.size ≤ (fs ++ c.functions.push c.main).size := by omega
  have hfunctions : ∀ g ∈ fs ++ c.functions.push c.main, G g := fun g hg =>
    (Array.mem_append.mp hg).elim (hfs ▸ hheap.functions g) (hc.functions g)
  have hknown : FunctionsKnown (fs ++ c.functions.push c.main) := by
    intro g hg v hv
    rcases Array.mem_append.mp hg with hg | hg
    · have hold := hheap.known
      rw [hfs] at hold
      exact (hold g hg v hv).mono hle
    · exact (hc.refers g hg v hv).known (by omega)
  have hvalues := hheap.values
  rw [hfs] at hvalues
  refine ⟨⟨?_, ?_, ?_⟩, ?_⟩
  all_goals rw [hnew]
  · exact hfunctions
  · exact hknown
  · exact ⟨(hvalues.mono hle).arrays, (hvalues.mono hle).dicts,
      ((hvalues.mono hle).newPromise (Promise.known_pending _)).promises⟩
  · intro run hrun
    rcases Array.mem_push.mp hrun with hrun | hrun
    · exact (hruns run hrun).more hI _
    · cases hrun
      refine ⟨⟨hp.mono hle, hc.data _⟩, .spawn ⟨nofun, nofun⟩ ?_, nofun⟩
      -- the main task calls the last of the functions
      have hlast : (w.shared.heap.functions ++ c.functions).size = fs.size + c.functions.size := by
        rw [hfs, Array.size_append]
      refine ⟨hI.start hfunctions hknown _ _ _ _ ?_ nofun ?_, fun v hv => ?_⟩
      · dsimp only
        omega
      · rw [hlast]
        simpa using hc.arity.symm
      · rw [Array.mem_singleton.mp hv]
        refine .function ?_
        dsimp only
        omega

/-! ### Steps of a task -/

theorem putBack (hw : w.Fine G I) (r : Nat) {run : Run} {m : Machine}
    (hm : m.Runs w.shared.heap.functions (Task.Fine I w.shared.heap.functions))
    {current : Option Task} (hcurrent : ∀ t, current = some t → t.Fine I w.shared.heap.functions) :
    (w.putBack r run m current).Fine G I := by
  have hw' : ({ w with shared := { w.shared with
      heap := m.heap, console := m.console, modules := m.modules } } : World).Fine G I :=
    (hw.withHeap hm.functions hm.heap).congr rfl rfl
  refine hw'.setRun r ?_
  rw [hm.functions]
  exact ⟨⟨hm.globals, hm.data⟩, ⟨hm.ready, hm.waiting⟩, hcurrent⟩

theorem suspend (hw : w.Fine G I) (r : Nat)
    (ht : t.Fine I w.shared.heap.functions) : (w.suspend r t).Fine G I :=
  (hw.modifyScheduler r fun _ hs => hs.park _ ht).wake r

theorem failTask (hw : w.Fine G I) (r : Nat) (main : PromiseRef) (t : Task) (cause : Failure) :
    (w.failTask r main t cause).Fine G I := by
  rw [World.failTask]
  split
  · exact hw.finish r _
  · refine (hw.settle _ ?_).wake r
    nofun

theorem machine_runs (hw : w.Fine G I) {run : Run} (hrun : run.Fine I w.shared.heap.functions)
    (ht : t.Fine I w.shared.heap.functions) :
    (w.machine run t).Runs w.shared.heap.functions (Task.Fine I w.shared.heap.functions) :=
  ⟨rfl, hw.heap.values, hrun.program.globals, hrun.program.data, ht.2, hrun.scheduler.ready,
    hrun.scheduler.waiting⟩

theorem runTask (hI : Lasting G I) (hw : w.Fine G I) (r : Nat) {run : Run}
    (hrun : run.Fine I w.shared.heap.functions)
    (ht : t.Fine I w.shared.heap.functions) : (w.runTask r run t).Fine G I := by
  rw [World.runTask]
  split
  · have hrun' : ({ run with current := none } : Run).Fine I w.shared.heap.functions :=
      ⟨hrun.program, hrun.scheduler, (by rintro _ ⟨⟩)⟩
    exact (hw.setRun r hrun').suspend r ht
  · have hruns := hw.machine_runs hrun ht
    have hends : Ends _ _ ((taskAction w.shared.env t).run (w.machine run t)) :=
      Exec.taskAction_runs hw.heap.known (hI.start hw.heap.functions hw.heap.known).fine _ hruns
    have hstep : ∀ {flow m}, (taskAction w.shared.env t).run (w.machine run t) = .ok flow m →
        (∀ v, flow ≠ .finished v) → I w.shared.heap.functions m.task :=
      hI.step hw.heap.functions hw.heap.known hruns ht.1
    have hnone : ∀ {m : Machine}, m.Runs w.shared.heap.functions
        (Task.Fine I w.shared.heap.functions) → (w.putBack r run m none).Fine G I :=
      fun hm => hw.putBack r hm (by rintro _ ⟨⟩)
    have hmachine : ({
        heap := w.shared.heap, console := w.shared.console, modules := w.shared.modules
        program := run.program, scheduler := run.scheduler, task := t } : Machine) =
          w.machine run t := rfl
    dsimp only
    rw [hmachine]
    split
    next m hrun' =>
      rw [hrun'] at hends
      refine hw.putBack r hends.1 ?_
      rintro _ ⟨⟩
      exact ⟨hstep hrun' (by rintro _ ⟨⟩), hends.1.stack⟩
    next m hrun' =>
      rw [hrun'] at hends
      refine (hnone hends.1).suspend r ?_
      rw [functions_putBack, hends.1.functions]
      exact ⟨hstep hrun' (by rintro _ ⟨⟩), hends.1.stack⟩
    next v m hrun' =>
      rw [hrun'] at hends
      refine ((hnone hends.1).settle _ ?_).wake r
      rintro _ ⟨⟩
      rw [functions_putBack, hends.1.functions]
      exact hends.2 v rfl
    next code m hrun' =>
      rw [hrun'] at hends
      exact (hnone hends).finish r _
    next m hrun' =>
      rw [hrun'] at hends
      exact (hnone hends).finish r _
    next cause m hrun' =>
      rw [hrun'] at hends
      split
      next t' hrec =>
        have hinv' := hI.recover hw.heap.functions hw.heap.known hruns ht.1 hrun' hrec
        refine hw.putBack r hends ?_
        rintro _ ⟨⟩
        exact ⟨hinv', recover_known hends.stack hrec⟩
      next => exact (hnone hends).failTask r _ _ _

/-! ### Modules -/

theorem failLoad (hw : w.Fine G I) (n : NativeRef) (path : String) (e : EvalError) :
    (w.failLoad n path e).Fine G I := by
  have hw' : ({ w with
      focus := n.run
      shared := { w.shared with modules := w.shared.modules.erase path } } : World).Fine G I :=
    hw.congr rfl rfl
  rw [World.failLoad.eq_def]
  dsimp only
  split
  · exact hw'.finish _ _
  · exact hw'.finish _ _
  · exact hw'.complete n nofun

theorem finishLoad (hw : w.Fine G I) (n : NativeRef) (path : String) {globals : Dict}
    (hg : globals.Known w.shared.heap.functions.size) : (w.finishLoad n path globals).Fine G I := by
  have hw' := hw.withHeap (h := (w.shared.heap.newDict globals).1) rfl (hw.heap.values.newDict hg)
  have hw'' : ({ w with
      focus := n.run
      shared := { w.shared with
        heap := (w.shared.heap.newDict globals).1
        modules := w.shared.modules.finish path (w.shared.heap.newDict globals).2 } } : World).Fine
      G I := hw'.congr rfl rfl
  refine hw''.complete n ?_
  rintro _ ⟨⟩
  exact .dict

theorem startModule {P : Program → Prop} (hI : Lasting G I) (hP : Compiles P G) (hw : w.Fine G I)
    (n : NativeRef) (path : String) {content : Except FileError String}
    (hcontent : ∀ source p, content = .ok source → Program.ofText source = .ok p → P p) :
    (w.startModule n path content).Fine G I := by
  unfold World.startModule
  dsimp only
  split
  next => exact hw.failLoad n path _
  next c hc =>
    cases content with
    | error e => cases hc
    | ok source =>
      obtain ⟨p, hp, hcompile⟩ := compileText_ok hc
      have hfine := hP (hcontent source p rfl hp) hcompile
      have hw' : (w.modifyScheduler n.run
          (·.setWork n.native (.running path w.runs.size))).Fine G I :=
        hw.modifyScheduler n.run fun s hs => hs.natives _ s.queue s.nextNative
      refine hw'.start hI ?_ (Dict.known_empty _) _
      rw [shared_modifyScheduler]
      exact hfine

/-! ### Visits -/

theorem edit (hw : w.Fine G I) {w' : World} (h : w.Edit w') : w'.Fine G I := by
  have hset (n : NativeRef) (work : Work) :
      (w.modifyScheduler n.run (·.setWork n.native work)).Fine G I :=
    hw.modifyScheduler n.run fun s hs => hs.natives _ s.queue s.nextNative
  cases h with
  | still h => exact hw.of_still h
  | proceeds => exact (hset _ _).congr rfl rfl
  | dozes _ _ heq =>
    cases heq
    exact (hset _ _).congr rfl rfl
  | rouses => exact hset _ _
  | forgets => exact hw.congr rfl rfl

end Fine

end World

def Progress.Fine (G : Function → Prop) (I : Array Function → Task → Prop) : Progress → Prop
  | .going w => w.Fine G I
  | .ended w program _ => w.Fine G I ∧ program.Known w.shared.heap.functions.size
  | .hang w => w.Fine G I

namespace World

variable {G : Function → Prop} {I : Array Function → Task → Prop} {P : Program → Prop} {w : World}

theorem Fine.endRun (hw : w.Fine G I) (r : Nat) {run : Run}
    (hrun : run.Fine I w.shared.heap.functions) (result : Except EvalError Value) :
    (w.endRun r run result).Fine G I := by
  have hw' := hw.drop r
  rw [World.endRun]
  split
  · split
    · exact hw'.finishLoad _ _ hrun.program.globals
    · exact hw'.failLoad _ _ _
  · exact ⟨hw', hrun.program⟩

/-- The texts of the modules that have been read are programs that satisfy `P`. -/
def Reading (P : Program → Prop) (w : World) : Prop :=
  ∀ run n path source p, some run ∈ w.runs → n ∈ run.scheduler.natives →
    n.work = .read path (.ok source) → Program.ofText source = .ok p → P p

theorem Fine.visits (hI : Lasting G I) (hP : Compiles P G) (hw : w.Fine G I) (hread : w.Reading P)
    {r : Nat} {p : Progress} (h : w.Visits r p) : p.Fine G I := by
  cases h with
  | rests hedits =>
    induction hedits with
    | refl => exact hw
    | tail _ hedit ih => exact Fine.edit ih hedit
  | hangs h => exact hw.of_still h
  | completes h => exact (hw.of_still h).complete _ (by rintro _ ⟨⟩; exact .absent)
  | @observes w' id p outcome h _ houtcome =>
    have hw' := hw.of_still h
    refine (hw'.withHeap (h := w'.shared.heap.modifyPromise p Promise.observe) rfl
      (hw'.heap.values.modifyPromise fun _ hq => hq.observe)).complete _ ?_
    rintro v rfl
    exact (hw'.heap.values.promise p).outcome (h.heap ▸ houtcome)
  | starts h hn =>
    obtain ⟨run, native, hrun, hnative, hwork⟩ := hn
    refine (hw.of_still h).startModule hI hP _ _ fun source p hc hp => ?_
    exact hread run native _ source p (mem_of_run? hrun) (mem_of_find?_eq_some hnative)
      (hwork.trans (by rw [hc])) hp

/-- A step keeps what lasts. -/
theorem Fine.tick (hI : Lasting G I) (hP : Compiles P G) (hw : w.Fine G I) (hread : w.Reading P) :
    w.tick.Fine G I := by
  rw [World.tick]
  split
  next => exact hw
  next run hfocus =>
    have hmem := mem_of_run? hfocus
    have hrun := hw.runs run hmem
    split
    next => exact hw.endRun _ hrun _
    next t _ hcurrent => exact hw.runTask hI _ hrun (hrun.current t hcurrent)
    next t ready _ _ hready =>
      have hrun' : ({ run with
          current := some t
          scheduler := { run.scheduler with ready := ready } } : Run).Fine I
            w.shared.heap.functions := by
        have hall := hrun.scheduler.ready
        rw [hready] at hall
        refine ⟨hrun.program, ⟨fun u hu => hall u (mem_cons_of_mem _ hu),
          hrun.scheduler.waiting⟩, ?_⟩
        rintro _ ⟨⟩
        exact hall t (mem_cons_self ..)
      exact hw.setRun _ hrun'
    next =>
      split
      · exact hw.endRun _ hrun _
      · exact hw.visits hI hP hread (visits_goOn hfocus)

end World

end TaskBasic
