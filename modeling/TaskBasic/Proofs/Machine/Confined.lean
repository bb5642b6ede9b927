import TaskBasic.Proofs.Machine.Control

/-
Instructions stay in their frame.

A frame has the values from its `base` on to itself.  `Confined b x m Q E` says
that the computation `x` neither looks at the `b` values below those of the
machine `m` nor changes them; what comes of it satisfies `Q`, or `E` if it fails,
which is never because of the stack.

* `confined_execute` — an instruction that finds in its frame the values and the
  local that it needs is confined to the frame, and it makes of the frame what
  `Instr.takes` and `Instr.gives` say.
* `confined_ret` — a return besides removes what the function was called with.
-/

namespace TaskBasic

section

variable {α β : Type}

/-- The result satisfies `Q`, or there is none for a reason other than the stack, and what is left
satisfies `E`. -/
def Result.Within (Q : α → Machine → Prop) (E : Machine → Prop) :
    EStateM.Result Fault Machine α → Prop
  | .ok a m => Q a m
  | .error e m => e.blamesStack = false ∧ E m

/-- The computation neither looks at the `b` values below those of the machine nor changes them. -/
def Confined (b : Nat) (x : Exec α) (m : Machine) (Q : α → Machine → Prop) (E : Machine → Prop) :
    Prop :=
  ∃ r, (∀ lo : Array Value, lo.size = b → x.run (m.onto lo) = Result.onto lo r) ∧
    Result.Within Q E r

theorem Machine.onto_onto (m : Machine) (lo mid : Array Value) :
    (m.onto mid).onto lo = m.onto (lo ++ mid) := by
  simp [Machine.onto, Machine.on, Array.append_assoc]

theorem Result.onto_onto (r : EStateM.Result Fault Machine α) (lo mid : Array Value) :
    Result.onto lo (Result.onto mid r) = Result.onto (lo ++ mid) r := by
  cases r with
  | ok a m | error e m => exact congrArg _ (m.onto_onto lo mid)

/-- The top `k` values of a machine, and those below. -/
theorem Machine.exists_onto (m : Machine) {k : Nat} (hk : k ≤ m.task.stack.size) :
    ∃ mid own, m = (m.on own).onto mid ∧ mid = m.task.stack.take (m.task.stack.size - k) ∧
      own.size = k := by
  refine ⟨_, m.task.stack.drop (m.task.stack.size - k), ?_, rfl, ?_⟩
  · have happend : m.task.stack.take (m.task.stack.size - k) ++
        m.task.stack.drop (m.task.stack.size - k) = m.task.stack := by simp
    rw [Machine.onto, Machine.task_stack_on, Machine.on_on, happend, Machine.on_stack]
  · have hsize : (m.task.stack.drop (m.task.stack.size - k)).size =
        m.task.stack.size - (m.task.stack.size - k) := by simp
    omega

/-- What runs on top of more values leaves those of the frame alone as well. -/
theorem Floats.confined {b : Nat} {mid : Array Value} {x : Exec α} {m : Machine}
    {Q : α → Machine → Prop} (h : Floats (b + mid.size) x m Q) :
    Confined b x (m.onto mid) (fun a m' => ∃ m1, Q a m1 ∧ m' = m1.onto mid)
      (fun m' => ∃ m1 : Machine, m' = m1.onto mid) := by
  obtain ⟨r, hrun, hr⟩ := h
  refine ⟨Result.onto mid r, fun lo hlo => ?_, ?_⟩
  · rw [Machine.onto_onto, Result.onto_onto]
    exact hrun _ (by rw [Array.size_append, hlo])
  · cases r with
    | ok a m1 => exact ⟨m1, hr, rfl⟩
    | error e m1 => exact ⟨hr, m1, rfl⟩

namespace Confined

variable {b : Nat} {x : Exec α} {f : α → Exec β} {m : Machine} {P Q : α → Machine → Prop}
  {R : β → Machine → Prop} {E E' : Machine → Prop}

theorem mono (h : Confined b x m P E) (hPQ : ∀ a m, P a m → Q a m) (hE : ∀ m, E m → E' m) :
    Confined b x m Q E' := by
  obtain ⟨r, hrun, hr⟩ := h
  refine ⟨r, hrun, ?_⟩
  cases r with
  | ok a m' => exact hPQ a m' hr
  | error e m' => exact ⟨hr.1, hE m' hr.2⟩

/-- What comes of a computation that is confined. -/
theorem ok (h : Confined b x m Q E) {lo : Array Value} (hlo : lo.size = b) {a : α} {m' : Machine}
    (hrun : x.run (m.onto lo) = .ok a m') : ∃ m1 : Machine, m' = m1.onto lo ∧ Q a m1 := by
  obtain ⟨r, hr, hwithin⟩ := h
  rw [hr lo hlo] at hrun
  cases r <;> cases hrun
  exact ⟨_, rfl, hwithin⟩

theorem error (h : Confined b x m Q E) {lo : Array Value} (hlo : lo.size = b) {e : Fault}
    {m' : Machine} (hrun : x.run (m.onto lo) = .error e m') :
    e.blamesStack = false ∧ ∃ m1 : Machine, m' = m1.onto lo ∧ E m1 := by
  obtain ⟨r, hr, hwithin⟩ := h
  rw [hr lo hlo] at hrun
  cases r <;> cases hrun
  exact ⟨hwithin.1, _, rfl, hwithin.2⟩

end Confined

end

namespace Exec

variable {f : Frame} {F : List Frame} {m : Machine} {i : Instr} {env : Env}

/-- What is left of the values of a frame where something that takes `n` of them has failed. -/
def Left (n : Nat) (old new : Array Value) : Prop :=
  ∃ more, new = old.take (old.size - n) ++ more

structure StaysIn (f : Frame) (F : List Frame) (t : Task) (i : Instr) (m : Machine) : Prop where
  frames : ∃ y, i.Reaches f.ip y ∧ m.task.frames = { f with ip := y } :: F
  tries : m.task.tries =
    i.triesBehind f (F.length + 1) (f.base + (t.stack.size - i.takes)) t.tries
  size : m.task.stack.size = t.stack.size - i.takes + i.gives
  awaiting : m.task.awaiting = true → t.awaiting = true ∨ i.waits = true

structure CallsFrom (f : Frame) (t : Task) (i : Instr) (m : Machine) : Prop where
  frames : ∃ r, m.task.frames = ⟨r, 0, f.base + (t.stack.size - i.takes) + 1⟩ :: t.frames ∧
    m.task.stack.size = t.stack.size - i.takes + ((m.heap.function r).arity + 1)
  tries : m.task.tries = t.tries
  awaiting : m.task.awaiting = t.awaiting
  waits : i.waits = true

def Makes (f : Frame) (F : List Frame) (t : Task) (i : Instr) (m : Machine) : Prop :=
  StaysIn f F t i m ∨ CallsFrom f t i m

/-- An instruction that does not look at locals. -/
theorem confined_of_floats (env : Env) (hf : m.task.frames = f :: F) (hret : i ≠ .ret)
    (hslot : i.slot? = none) (htakes : i.takes ≤ m.task.stack.size) :
    Confined f.base (execute env i) m (fun _ m' => Makes f F m.task i m')
      (fun m' => Left i.takes m.task.stack m'.task.stack) := by
  obtain ⟨mid, own, hstack, hmid, hown⟩ := m.exists_onto htakes
  have hlike : (m.on own).Like m.task i.takes := ⟨⟨rfl, rfl, rfl⟩, hown⟩
  have hsize : mid.size = m.task.stack.size - i.takes := by simp [hmid]
  have hconfined := (floats_execute (b := f.base + mid.size) env hf hret hslot hlike).confined
  rw [← hstack] at hconfined
  refine hconfined.mono ?_ ?_
  · rintro _ _ ⟨m1, hdoes, rfl⟩
    rcases hdoes with hstays | hcalls
    · refine .inl ⟨hstays.frames, ?_, ?_, hstays.awaiting⟩
      · rw [← hsize]
        exact hstays.tries
      · show (mid ++ m1.task.stack).size = _
        rw [Array.size_append, hsize, hstays.size]
    · obtain ⟨r, hframes, harity⟩ := hcalls.frames
      refine .inr ⟨⟨r, ?_, ?_⟩, hcalls.tries, hcalls.awaiting, hcalls.waits⟩
      · rw [← hsize]
        exact hframes
      · show (mid ++ m1.task.stack).size = _
        rw [Array.size_append, hsize, harity]
        rfl
  · rintro _ ⟨m1, rfl⟩
    exact ⟨m1.task.stack, hmid ▸ rfl⟩

theorem run_localPosition (hf : m.task.frames = f :: F) {slot : UInt16}
    (hslot : slot.toNat < m.task.stack.size) {lo : Array Value} (hlo : lo.size = f.base) :
    (localPosition slot).run (m.onto lo) = .ok (f.base + slot.toNat) (m.onto lo) := by
  have hlt : f.base + slot.toNat < (m.onto lo).task.stack.size := by
    show _ < (lo ++ m.task.stack).size
    rw [Array.size_append]
    omega
  have hframe : frame.run (m.onto lo) = .ok f (m.onto lo) := run_frame _ hf
  simp only [localPosition, EStateM.run_bind, hframe, EStateM.run_get, if_pos hlt]
  rfl

theorem confined_getLocal (env : Env) (hf : m.task.frames = f :: F) {slot : UInt16}
    (hslot : slot.toNat < m.task.stack.size) :
    Confined f.base (execute env (.getLocal slot)) m
      (fun _ m' => Makes f F m.task (.getLocal slot) m')
      (fun m' => Left (Instr.getLocal slot).takes m.task.stack m'.task.stack) := by
  let v := m.task.stack[slot.toNat]?.getD .absent
  refine ⟨.ok .next (m.on (m.task.stack.push v)), fun lo hlo => ?_,
    .inl ⟨⟨f.ip, .inl ⟨rfl, rfl⟩, hf⟩, rfl, Array.size_push v, .inl⟩⟩
  · have hread : (lo ++ m.task.stack)[f.base + slot.toNat]? = m.task.stack[slot.toNat]? := by
      rw [Array.getElem?_append_right (by omega), ← hlo, Nat.add_sub_cancel_left]
    simp only [execute, andNext, EStateM.run_bind, run_localPosition hf hslot hlo, EStateM.run_get,
      run_push]
    show EStateM.Result.ok _ _ = EStateM.Result.ok _ _
    rw [Machine.onto, Machine.task_stack_on, hread, ← Array.append_push]
    rfl

theorem confined_setLocal (env : Env) (hf : m.task.frames = f :: F) {slot : UInt16}
    (hslot : slot.toNat < m.task.stack.size) :
    Confined f.base (execute env (.setLocal slot)) m
      (fun _ m' => Makes f F m.task (.setLocal slot) m')
      (fun m' => Left (Instr.setLocal slot).takes m.task.stack m'.task.stack) := by
  let v := m.task.stack[m.task.stack.size - 1 - 0]?.getD .absent
  have hpos : 0 < m.task.stack.size := Nat.zero_lt_of_lt hslot
  refine ⟨.ok .next (m.on (m.task.stack.setIfInBounds slot.toNat v)), fun lo hlo => ?_,
    .inl ⟨⟨f.ip, .inl ⟨rfl, rfl⟩, hf⟩, rfl, ?_, .inl⟩⟩
  · have hwrite : (lo ++ m.task.stack).setIfInBounds (f.base + slot.toNat) v =
        lo ++ m.task.stack.setIfInBounds slot.toNat v := by
      rw [Array.setIfInBounds_append_right (by omega), ← hlo, Nat.add_sub_cancel_left]
    simp only [execute, andNext, EStateM.run_bind, run_localPosition hf hslot hlo,
      run_peek hpos, run_modifyTask]
    show EStateM.Result.ok Flow.next ((m.onto lo).on ((lo ++ m.task.stack).setIfInBounds _ v)) = _
    rw [hwrite]
    rfl
  · rw [Machine.task_stack_on, Array.size_setIfInBounds]
    show _ = m.task.stack.size - 1 + 1
    omega

/-- An instruction that finds what it needs in its frame stays in it. -/
theorem confined_execute (env : Env) (hf : m.task.frames = f :: F) (hret : i ≠ .ret)
    (hslot : ∀ slot, i.slot? = some slot → slot.toNat < m.task.stack.size)
    (htakes : i.takes ≤ m.task.stack.size) :
    Confined f.base (execute env i) m (fun _ m' => Makes f F m.task i m')
      (fun m' => Left i.takes m.task.stack m'.task.stack) := by
  cases hi : i.slot? with
  | none => exact confined_of_floats env hf hret hi htakes
  | some slot =>
    have hlt := hslot slot hi
    cases i with
    | getLocal slot =>
      cases hi
      exact confined_getLocal env hf hlt
    | setLocal slot =>
      cases hi
      exact confined_setLocal env hf hlt
    | _ => cases hi

structure Returns (F : List Frame) (t : Task) (flow : Flow) (m : Machine) : Prop where
  frames : m.task.frames = F
  tries : m.task.tries = t.tries.filter fun b => decide (b.frameDepth ≤ F.length)
  awaiting : m.task.awaiting = t.awaiting
  result : ∃ v, t.stack.back? = some v ∧ (F = [] ∧ flow = .finished v ∧ m.task.stack = #[] ∨
    F ≠ [] ∧ flow = .next ∧ m.task.stack = #[v])

/-- A return takes the value on top of the frame, and leaves it where the function was that has
been called. -/
theorem confined_ret (env : Env) (hf : m.task.frames = f :: F) (hsize : 1 ≤ m.task.stack.size) :
    Confined (f.base - 1) (execute env .ret) m (fun flow m' => Returns F m.task flow m')
      (fun _ => False) := by
  obtain ⟨S, v, hS⟩ : ∃ (S : Array Value) (v : Value), m.task.stack = S.push v :=
    ⟨_, _, Array.eq_push_pop_back!_of_size_ne_zero (Nat.ne_of_gt hsize)⟩
  have hback : m.task.stack.back? = some v := by rw [hS, Array.back?_push]
  let left (stack : Array Value) : Machine := { m with task := { m.task with
    frames := F
    tries := m.task.tries.filter fun b => decide (b.frameDepth ≤ F.length)
    stack := stack } }
  have hrun : ∀ lo : Array Value, lo.size = f.base - 1 → ret.run (m.onto lo) =
      if F.isEmpty then .ok (.finished v) (left lo) else .ok .next (left (lo.push v)) := by
    intro lo hlo
    have hcut : (lo ++ S).take (f.base - 1) = lo := by
      rw [← hlo]
      simp
    have hpop : pop.run (m.onto lo) = .ok v (m.on (lo ++ S)) := by
      rw [Machine.onto, hS, Array.append_push, run_pop]
    simp only [ret, EStateM.run_bind, hpop, EStateM.run_get, Machine.task_frames_on, hf,
      run_modifyTask, Machine.task_stack_on, Machine.task_tries_on, hcut, run_ite, EStateM.run_pure,
      run_push]
    rfl
  cases F with
  | nil =>
    refine ⟨.ok (.finished v) (left #[]), fun lo hlo => ?_, rfl, rfl, rfl, v, hback,
      .inl ⟨rfl, rfl, rfl⟩⟩
    refine (hrun lo hlo).trans ?_
    simp [Result.onto, Machine.onto, Machine.on, left]
  | cons g F =>
    refine ⟨.ok .next (left #[v]), fun lo hlo => ?_, rfl, rfl, rfl, v, hback,
      .inr ⟨List.cons_ne_nil _ _, rfl, rfl⟩⟩
    refine (hrun lo hlo).trans ?_
    simp [Result.onto, Machine.onto, Machine.on, left]

/-- A quiet instruction does not fail. -/
theorem run_quiet (env : Env) (hf : m.task.frames = f :: F) (hi : i.isQuiet = true)
    (htakes : i.takes ≤ m.task.stack.size) : ∃ m', (execute env i).run m = .ok .next m' := by
  cases i with
  | pop =>
    obtain ⟨S, v, hS⟩ : ∃ (S : Array Value) (v : Value), m.task.stack = S.push v :=
      ⟨_, _, Array.eq_push_pop_back!_of_size_ne_zero (Nat.ne_of_gt htakes)⟩
    have hpop : pop.run m = .ok v (m.on S) :=
      (congrArg (pop.run <| m.on ·) hS).trans (run_pop m S v)
    refine ⟨m.on S, ?_⟩
    simp only [execute, andNext, EStateM.run_bind, hpop]
    rfl
  | jump distance | loop distance =>
    simp only [execute, andNext, EStateM.run_bind, run_frame m hf, run_jumpTo m hf]
    exact ⟨_, rfl⟩
  | tryBegin distance =>
    simp only [execute, andNext, EStateM.run_bind, run_frame m hf, run_modifyTask]
    exact ⟨_, rfl⟩
  | tryEnd => exact ⟨_, rfl⟩
  | _ => cases hi

theorem confined_step {b next : Nat} {Q : Flow → Machine → Prop} {E : Machine → Prop}
    (hf : m.task.frames = f :: F)
    (hd : decode (m.heap.function f.function).chunk.code f.ip = .ok (i, next))
    (h : Confined b (execute env i)
      { m with task := { m.task with frames := { f with ip := next } :: F } } Q E) :
    Confined b (step env) m Q E := by
  obtain ⟨r, hrun, hr⟩ := h
  refine ⟨r, fun lo hlo => ?_, hr⟩
  have hfetch := run_fetch (m := m.onto lo) hf
  rw [show (m.onto lo).heap = m.heap from rfl, hd] at hfetch
  rw [step, EStateM.run_bind, hfetch]
  exact hrun lo hlo

theorem confined_andNext {b : Nat} {x : Exec Unit} {Q : Unit → Machine → Prop} {E : Machine → Prop}
    (h : Confined b x m Q E) :
    Confined b (andNext x) m (fun flow m' => flow = .next ∧ Q () m') E := by
  obtain ⟨r, hrun, hr⟩ := h
  cases r with
  | ok u m' =>
    refine ⟨.ok .next m', fun lo hlo => ?_, rfl, hr⟩
    rw [andNext, EStateM.run_bind, hrun lo hlo]
    rfl
  | error e m' =>
    refine ⟨.error e m', fun lo hlo => ?_, hr⟩
    rw [andNext, EStateM.run_bind, hrun lo hlo]
    rfl

/-- What a wait has come to. -/
theorem confined_finishAwait (hsize : 1 ≤ m.task.stack.size) (b : Nat) :
    Confined b finishAwait m
      (fun _ m' => m'.Like { m.task with awaiting := false } m.task.stack.size)
      (fun m' => Left 1 m.task.stack m'.task.stack) := by
  obtain ⟨mid, own, hstack, hmid, hown⟩ := m.exists_onto hsize
  have hlike : (m.on own).Like m.task (0 + 1) := ⟨⟨rfl, rfl, rfl⟩, hown⟩
  have hsize : mid.size = m.task.stack.size - 1 := by simp [hmid]
  have hconfined := (floats_finishAwait (b := b + mid.size) hlike).confined
  rw [← hstack] at hconfined
  refine hconfined.mono ?_ ?_
  · rintro _ _ ⟨m1, hm1, rfl⟩
    refine ⟨⟨hm1.frames, hm1.tries, hm1.awaiting⟩, ?_⟩
    show (mid ++ m1.task.stack).size = _
    rw [Array.size_append, hsize, hm1.size]
    omega
  · rintro _ ⟨m1, rfl⟩
    exact ⟨m1.task.stack, hmid ▸ rfl⟩

end Exec

end TaskBasic
