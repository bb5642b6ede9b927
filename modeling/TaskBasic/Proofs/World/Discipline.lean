import TaskBasic.Proofs.Machine.Stacked
import TaskBasic.Proofs.World.Reached

/-
The discipline of the stack.

The compiler keeps track of the locals that are live and of the `try` regions
that are open.  `stack_discipline` says that tasks agree with it, always, if no
`finally` block leaves a loop around it: whatever the marks of the statements and
expressions in a function's code are, there is a layout of the function that agrees
with them, and every task has on its stack, and among its regions, what the layout
of its innermost function says (`Machine.Disciplined`).
-/

namespace TaskBasic

/-- No `finally` block of the program leaves a loop around it. -/
def Program.FinallyStays (p : Program) : Prop :=
  Tidy (fun final => blockLeaps final = false) (blockNested true p)

/-- The function is what the compiler makes of the statements `ss`, which have the marks `ms`, in a
program whose `finally` blocks do not leave loops. -/
abbrev Function.IsCodeOf (g : Function) (ss : List Stmt) (ms : List Landmark) : Prop :=
  Routine (fun final => blockLeaps final = false) g ss ms

/-- The next step of the machine's task, whose innermost frame `f` lies above the frames `F`, agrees
with the layout `N`. -/
structure Machine.Disciplined (env : Env) (m : Machine) (f : Frame) (F : List Frame)
    (N : Nat → Note) : Prop where
  /-- The frame has as many values as the layout says. -/
  size : m.task.stack.size = f.base + (N f.ip).height
  /-- Its regions are those of the layout; each keeps the locals that were live where it was opened.
  All others belong to frames below. -/
  regions : ∃ outer, m.task.tries = f.regions (F.length + 1) (N f.ip).opens ++ outer ∧
    ∀ b ∈ outer, b.frameDepth ≤ F.length
  closes : m.task.awaiting = false → ∀ next,
    decode (m.heap.function f.function).chunk.code f.ip = .ok (.tryEnd, next) →
      (N f.ip).opens ≠ []
  /-- What lies below the frame is neither looked at nor changed, and the step does not fail because
  of the stack.  A return takes away, with its frame, the function that was called. -/
  confined : ∃ own lo, m = Machine.onto own lo ∧
    (lo.size = f.base ∨ lo.size = f.base - 1 ∧
      decode (m.heap.function f.function).chunk.code f.ip = .ok (.ret, f.ip + 1)) ∧
    Confined lo.size (World.taskAction env m.task) own (fun _ _ => True) (fun _ => True)
  /-- The handler of a failure finds the values that its region keeps, and the message. -/
  unwinds : ∀ {e m' message t'}, (World.taskAction env m.task).run m = .error e m' →
    m'.task.recover? message = some t' → ∃ b rest, m.task.tries = b :: rest ∧
      b.stackDepth ≤ m.task.stack.size ∧ t'.tries = rest ∧
      t'.stack = (m.task.stack.take b.stackDepth).push (.str message)

section

variable {N : Function → Nat → Note} {fs : Array Function} {m : Machine} {f : Frame}
  {F : List Frame} {g : Function} {outer : List TryBlock} {env : Env}

/-- The next step of a task does not leave its frame. -/
theorem Task.Runs.confined_action (h : m.task.Runs N fs f F g outer) (hplaced : m.task.Placed fs)
    (hfs : ∀ g ∈ fs, g.IsPlanned N) (hfunctions : m.heap.functions = fs) (env : Env) :
    ∃ own lo, m = Machine.onto own lo ∧
      (lo.size = f.base ∨ lo.size = f.base - 1 ∧
        decode (m.heap.function f.function).chunk.code f.ip = .ok (.ret, f.ip + 1)) ∧
      Confined lo.size (World.taskAction env m.task) own (fun _ _ => True) (fun _ => True) := by
  cases hawaiting : m.task.awaiting with
  | true =>
    obtain ⟨own, lo, hown, hlo, -, hconfined⟩ := h.confined_await hfs hawaiting
    refine ⟨own, lo, hown, .inl hlo, ?_⟩
    rw [World.taskAction_awaiting hawaiting, hlo]
    exact hconfined.mono (fun _ _ _ => trivial) fun _ _ => trivial
  | false =>
    obtain ⟨i, hi⟩ := h.takes hplaced hfs hfunctions hawaiting
    by_cases hret : i = .ret
    · subst hret
      obtain ⟨own, lo, t1, hown, hlo, -, hconfined⟩ := h.confined_ret hfs hi env
      refine ⟨own, lo, hown, .inr ⟨hlo, hi.decode⟩, ?_⟩
      rw [World.taskAction_running hawaiting, hlo]
      exact hconfined.mono (fun _ _ _ => trivial) fun _ _ => trivial
    · obtain ⟨own, lo, t1, hown, hlo, -, -, hconfined⟩ := h.confined hi hret env
      refine ⟨own, lo, hown, .inl hlo, ?_⟩
      rw [World.taskAction_running hawaiting, hlo]
      exact hconfined.mono (fun _ _ _ => trivial) fun _ _ => trivial

/-- The regions of a task keep no more values than a failure leaves. -/
theorem Task.Runs.keeps (h : m.task.Runs N fs f F g outer) (hfs : ∀ g ∈ fs, g.IsPlanned N)
    {x : Nat} {i : Instr} (hfits : i.Fits (N g) x) (hopens : (N g f.ip).opens = (N g x).opens) :
    ∀ b ∈ m.task.tries, b.stackDepth ≤ f.base + ((N g x).height - i.takes) := by
  intro b hb
  rw [h.tries, hopens] at hb
  rcases List.mem_append.mp hb with hb | hb
  · obtain ⟨o, ho, rfl⟩ := List.mem_map.mp hb
    exact Nat.add_le_add_left (hfits.margin o ho) f.base
  · have hlt := h.callers.margin hfs b hb
    omega

theorem Task.recover?_eq {t t' : Task} {message : String} (h : t.recover? message = some t') :
    ∃ b rest, t.tries = b :: rest ∧ t'.tries = rest ∧
      t'.stack = (t.stack.take b.stackDepth).push (.str message) := by
  rw [Task.recover?] at h
  split at h
  next => cases h
  next b rest htries =>
    split at h
    next => cases h
    next =>
      cases h
      exact ⟨b, rest, htries, rfl, rfl⟩

theorem take_take_append {a more : Array Value} {k n : Nat} (hk : k ≤ n) (hn : n ≤ a.size) :
    (a.take n ++ more).take k = a.take k := by
  have hsize : k ≤ (a.take n).size := by
    rw [Array.take_eq_extract, Array.size_extract]
    omega
  have hleft : (a.take n ++ more).extract 0 k = (a.take n).extract 0 k := by
    rw [Array.extract_append, Nat.sub_eq_zero_of_le hsize]
    simp
  show (a.take n ++ more).extract 0 k = a.extract 0 k
  rw [hleft, Array.take_eq_extract, Array.extract_extract]
  simp [hk]

theorem Task.Runs.disciplined (h : m.task.Runs N fs f F g outer) (hplaced : m.task.Placed fs)
    (hfs : ∀ g ∈ fs, g.IsPlanned N) (hfunctions : m.heap.functions = fs)
    (htries : ∀ {e m'}, (World.taskAction env m.task).run m = .error e m' →
      m'.task.tries = m.task.tries) :
    m.Disciplined env f F (N g) where
  size := h.size
  regions := ⟨outer, h.tries, h.callers.depth_le⟩
  closes hawaiting next hd := by
    obtain ⟨i, hi⟩ := h.takes hplaced hfs hfunctions hawaiting
    obtain ⟨rfl, -⟩ := Prod.mk.inj (Except.ok.inj (hi.decode.symm.trans hd))
    obtain ⟨ν, hν, -⟩ := hi.fits.next rfl
    cases hν with
    | plain htry => cases htry
    | opened hi => cases hi
    | closed _ hopens =>
      rw [hopens]
      exact List.cons_ne_nil _ _
  confined := h.confined_action hplaced hfs hfunctions env
  unwinds {e m' message t'} hrun hrec := by
    obtain ⟨-, x, i, hfits, -, hopens, hle, more, hstack⟩ := h.failure hplaced hfs hfunctions hrun
    obtain ⟨b, rest, hb, hrest, ht'⟩ := Task.recover?_eq hrec
    rw [htries hrun] at hb
    have hkeeps := h.keeps hfs hfits hopens b (hb ▸ List.mem_cons_self)
    have hsize := h.size
    refine ⟨b, rest, hb, by omega, hrest, ?_⟩
    rw [ht', hstack, take_take_append hkeeps (by omega)]

end

/-- Marks of functions, for each one that is the code of statements. -/
def Marks (M : Function → List Landmark) : Prop :=
  ∀ g : Function, (∃ ss ms, g.IsCodeOf ss ms) → ∃ ss, g.IsCodeOf ss (M g)

theorem Marks.exists_layouts {M : Function → List Landmark} (hM : Marks M) :
    ∃ N : Function → Nat → Note, ∀ g, (∃ ss ms, g.IsCodeOf ss ms) →
      g.Planned (N g) ∧ Marked .stack (M g) (N g) := by
  have hall : ∀ g : Function, ∃ L : Nat → Note, (∃ ss ms, g.IsCodeOf ss ms) →
      g.Planned L ∧ Marked .stack (M g) L := by
    intro g
    by_cases hg : ∃ ss ms, g.IsCodeOf ss ms
    · obtain ⟨ss, hroutine⟩ := hM g hg
      obtain ⟨L, hplanned, hmarked⟩ := hroutine.planned fun _ hfinal => hfinal
      exact ⟨L, fun _ => ⟨hplanned, hmarked⟩⟩
    · exact ⟨fun _ => ⟨0, [], []⟩, fun h => absurd h hg⟩
  exact ⟨fun g => (hall g).choose, fun g => (hall g).choose_spec⟩

theorem exists_marks : ∃ M, Marks M := by
  have hall : ∀ g : Function, ∃ ms, (∃ ss ms, g.IsCodeOf ss ms) → ∃ ss, g.IsCodeOf ss ms := by
    intro g
    by_cases hg : ∃ ss ms, g.IsCodeOf ss ms
    · obtain ⟨ss, ms, hroutine⟩ := hg
      exact ⟨ms, fun _ => ⟨ss, hroutine⟩⟩
    · exact ⟨[], fun h => absurd h hg⟩
  exact ⟨fun g => (hall g).choose, fun g => (hall g).choose_spec⟩

/-- The discipline of the stack.  Whatever marks functions have as the code of statements, there are
layouts of functions such that whatever task takes its next step agrees with the layout of its
innermost function; and the layout agrees with the marks of the function: where a statement begins
or ends, the values are the locals that are live and the regions those that are open, and an
expression adds one value. -/
theorem stack_discipline : (∃ M, Marks M) ∧ ∀ M, Marks M → ∃ N : Function → Nat → Note,
    ∀ {w : World} {run : Run} {t : Task}, Reached Program.FinallyStays (.running w) → w.Has run t →
      ∃ f F g ss, t.frames = f :: F ∧ w.shared.heap.functions[f.function.index]? = some g ∧
        g.IsCodeOf ss (M g) ∧ Marked .stack (M g) (N g) ∧
        (w.machine run t).Disciplined w.shared.env f F (N g) := by
  refine ⟨exists_marks, fun M hM => ?_⟩
  obtain ⟨N, hN⟩ := hM.exists_layouts
  refine ⟨N, fun {w run t} hw ht => ?_⟩
  have hplans : ∀ g : Function, (∃ ss ms, g.IsCodeOf ss ms) → g.IsPlanned N := by
    intro g hg
    obtain ⟨ss, ms, hroutine⟩ := hg
    exact ⟨routine_sound hroutine, (hN g ⟨ss, ms, hroutine⟩).1⟩
  have hcompiles : Compiles Program.FinallyStays fun g => ∃ ss ms, g.IsCodeOf ss ms :=
    compiles_of_routine (fun _ hp => hp) fun hroutine => ⟨_, _, hroutine⟩
  have hlasting := (stacked_lasting (N := N)).mono hplans
  have hfine := hw.fine hlasting hcompiles
  have htask := hfine.task ht
  have hruns := hfine.machine_runs (hfine.runs run ht.isRun) htask
  obtain ⟨f, F, g, outer, h⟩ := htask.1.2
  have hg := hfine.heap.functions g (Array.mem_of_getElem? h.function)
  obtain ⟨ss, hroutine⟩ := hM g hg
  have hmarked := (hN g hg).2
  have hplanned : ∀ g ∈ w.shared.heap.functions, g.IsPlanned N :=
    fun g hg => hplans g (hfine.heap.functions g hg)
  refine ⟨f, F, g, ss, h.frames, h.function, hroutine, hmarked, ?_⟩
  refine Task.Runs.disciplined h htask.1.1 hplanned rfl fun {e m'} hrun => ?_
  have hmoves := Exec.taskAction_moves hfine.heap.known
    (hlasting.start hfine.heap.functions hfine.heap.known).fine w.shared.env
    ⟨hruns, h.frames, rfl⟩
  rw [hrun] at hmoves
  obtain ⟨_, hat⟩ := hmoves
  exact hat.tries

/-- A loop that a `try` statement leaves; its `finally` block has a loop of its own. -/
def tidyLoop : Program :=
  [.mk 1 (.whileLoop (.int 1)
    [.mk 2 (.tryBlock [.mk 3 .breakLoop] none
      (some [.mk 4 (.whileLoop (.int 1) [.mk 5 .breakLoop])]))])]

theorem tidyLoop_disciplined : ∃ c, tidyLoop.compile false 0 = .ok c ∧ tidyLoop.FinallyStays ∧
    ∃ run t, (World.start { shared := {}, limit := 0 } c {} none).Has run t ∧ ∃ f F N,
      t.frames = f :: F ∧
      ((World.start { shared := {}, limit := 0 } c {} none).machine run t).Disciplined
        {} f F N := by
  have hok : (tidyLoop.compile false 0).isOk = true := by decide +kernel
  obtain ⟨c, hc⟩ : ∃ c, tidyLoop.compile false 0 = .ok c := by
    cases hc : tidyLoop.compile false 0 with
    | ok c => exact ⟨c, rfl⟩
    | error e => rw [hc] at hok; cases hok
  have hstays : tidyLoop.FinallyStays := by
    have hall : ∀ s ∈ blockNested true tidyLoop, s.cleanup?.elim false blockLeaps = false := by
      decide +kernel
    intro s hs final hfinal
    have hs := hall s hs
    rwa [hfinal] at hs
  have hreached : Reached Program.FinallyStays
      (.running (World.start { shared := {}, limit := 0 } c {} none)) :=
    .begins 0 roundAllowance (.fresh {} {}) hstays hc
  obtain ⟨run, t, ht⟩ : ∃ run t, (World.start { shared := {}, limit := 0 } c {} none).Has run t :=
    ⟨_, _, Array.mem_push_self, .inr (.inl List.mem_cons_self)⟩
  obtain ⟨M, hM⟩ := stack_discipline.1
  obtain ⟨N, hN⟩ := stack_discipline.2 M hM
  obtain ⟨f, F, g, ss, hframes, -, -, -, hdisciplined⟩ := hN hreached ht
  exact ⟨c, hc, hstays, run, t, ht, f, F, N g, hframes, hdisciplined⟩

end TaskBasic
