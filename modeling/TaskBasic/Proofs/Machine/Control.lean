import TaskBasic.Proofs.Chunk.Sound
import TaskBasic.Proofs.Machine.Operations
import TaskBasic.World.Tick

/-
How instructions change the frames and the `try` regions of a task.

`Moves n i F R flow F' R'` says what the instruction `i` can make of the frames
`F` and the `try` regions `R`, whatever is on the stack.  `Does b f F t i m` says
what becomes of the task `t` if the instruction finds the values that it takes,
on top of `b` others.

* `plays_execute` — instructions do both.
* `execute_moves` — an instruction moves as `Moves` says, and leaves frames and
  regions alone if it fails.
* `floats_execute` — an instruction that finds the values that it takes does not
  look at those below.
-/

namespace TaskBasic

namespace Instr

/-- The offsets at which an instruction can go on that has not called or returned; `next` is
the offset behind it. -/
def Leads (i : Instr) (next y : Nat) : Prop :=
  (i.falls = true ∧ y = next) ∨ y ∈ i.targets next

/-- Where an instruction goes on in its frame; `next` is the offset behind it.  The handler of a
region is not such a place. -/
def Reaches (i : Instr) (next y : Nat) : Prop :=
  (i.falls = true ∧ y = next) ∨ (i.isTry = false ∧ y ∈ i.targets next)

/-- True for the instructions behind which a frame may have to wait: for a function that it has
called, or for a future. -/
def waits : Instr → Bool
  | call _ | callNamed _ _ | getIndex | await => true
  | _ => false

/-- The `try` regions behind an instruction of the frame `f`, the `depth`-th of its task, which had
the regions `R`; `b` values lie below those that it takes. -/
def triesBehind (f : Frame) (depth b : Nat) (R : List TryBlock) :
    Instr → List TryBlock
  | .tryBegin n => ⟨f.ip + n.toNat, b, depth⟩ :: R
  | .tryEnd => R.drop 1
  | _ => R

variable {i : Instr} {next y : Nat}

theorem falls_of_waits (h : i.waits = true) : i.falls = true := by
  cases i <;> first | rfl | cases h

theorem isTry_of_waits (h : i.waits = true) : i.isTry = false := by
  cases i <;> first | rfl | cases h

theorem gives_of_waits (h : i.waits = true) : i.gives = 1 := by
  cases i <;> first | rfl | cases h

theorem isQuiet_of_waits (h : i.waits = true) : i.isQuiet = false := by
  cases i <;> first | rfl | cases h

theorem isStraight_of_waits (h : i.waits = true) : i.isStraight = true := by
  cases i <;> first | rfl | cases h

theorem Reaches.of_waits (h : i.Reaches next y) (hi : i.waits = true) : y = next := by
  rcases h with ⟨-, hy⟩ | ⟨-, hy⟩
  · exact hy
  · rw [targets_of_isStraight (isStraight_of_waits hi)] at hy
    cases hy

theorem Reaches.leads (h : i.Reaches next y) : i.Leads next y :=
  h.imp_right And.right

end Instr

/-- What an instruction can make of frames and `try` regions; `n` is the number of functions. -/
inductive Moves (n : Nat) (i : Instr) :
    List Frame → List TryBlock → Flow → List Frame → List TryBlock → Prop
  | on {f F R flow y} : i.Leads f.ip y → (∀ v, flow ≠ .finished v) →
    Moves n i (f :: F) R flow ({ f with ip := y } :: F) R
  | opens {f F R distance depth} : i = .tryBegin distance →
    Moves n i (f :: F) R .next (f :: F)
      (⟨f.ip + distance.toNat, depth, F.length + 1⟩ :: R)
  | closes {f F R} : i = .tryEnd → Moves n i (f :: F) R .next (f :: F) (R.drop 1)
  | enters {f F R r base} : i.falls = true → r.index < n →
    Moves n i (f :: F) R .next (⟨r, 0, base⟩ :: f :: F) R
  | returns {f F R} : F ≠ [] →
    Moves n i (f :: F) R .next F (R.filter fun b => decide (b.frameDepth ≤ F.length))
  | ends {f R v} : v.Known n → Moves n i [f] R (.finished v) []
      (R.filter fun b => decide (b.frameDepth ≤ 0))

namespace Exec

/-- What an instruction of the frame `f` makes of the task `t`, on top of `b` values, if it goes on
in the frame. -/
structure Stays (b : Nat) (f : Frame) (F : List Frame) (t : Task) (i : Instr) (m : Machine) :
    Prop where
  frames : ∃ y, i.Reaches f.ip y ∧ m.task.frames = { f with ip := y } :: F
  tries : m.task.tries = i.triesBehind f (F.length + 1) b t.tries
  size : m.task.stack.size = i.gives
  awaiting : m.task.awaiting = true → t.awaiting = true ∨ i.waits = true

/-- What an instruction makes of the task `t`, on top of `b` values, if it calls a function. -/
structure Calls (b : Nat) (t : Task) (i : Instr) (m : Machine) : Prop where
  frames : ∃ r, m.task.frames = ⟨r, 0, b + 1⟩ :: t.frames ∧
    m.task.stack.size = (m.heap.function r).arity + 1
  tries : m.task.tries = t.tries
  awaiting : m.task.awaiting = t.awaiting
  waits : i.waits = true

/-- What an instruction of the frame `f` makes of the task `t`, on top of `b` values. -/
def Does (b : Nat) (f : Frame) (F : List Frame) (t : Task) (i : Instr) (m : Machine) : Prop :=
  Stays b f F t i m ∨ Calls b t i m

/-- The computation is what the instruction `i` of the frame `f` comes to. -/
def Plays {α : Type} (s : Scene) (f : Frame) (F : List Frame) (i : Instr) (μ : Mode) (k : Nat)
    (x : Exec α) (φ : α → Flow) : Prop :=
  Spec s μ k x
    (fun a m => Moves s.bound i s.task.frames s.task.tries (φ a) m.task.frames m.task.tries)
    fun b _ m => Does b f F s.task i m

variable {α : Type} {s : Scene} {f : Frame} {F : List Frame} {i : Instr} {μ : Mode} {k : Nat}
  {x : Exec α} {P : α → Prop} {φ : α → Flow} {m : Machine} {b : Nat} {env : Env}

section

variable (hf : s.task.frames = f :: F)

include hf

/-- The next instruction follows. -/
theorem does_of_like (hfalls : i.falls = true) (htry : i.isTry = false) {w : Bool}
    (hm : m.Like { s.task with awaiting := w } i.gives)
    (hwaits : w = true → s.task.awaiting = true ∨ i.waits = true) :
    Does b f F s.task i m := by
  refine .inl ⟨⟨f.ip, .inl ⟨hfalls, rfl⟩, hm.frames.trans hf⟩, hm.tries.trans ?_, hm.size,
    fun h => hwaits (hm.awaiting.symm.trans h)⟩
  cases i <;> first | rfl | cases htry

theorem moves_of_for {flow : Flow} (hfalls : i.falls = true) {awaiting : Bool}
    (hm : m.For { s.task with awaiting := awaiting }) (hflow : ∀ v, flow ≠ .finished v) :
    Moves s.bound i s.task.frames s.task.tries flow m.task.frames m.task.tries := by
  rw [hm.frames, hm.tries]
  simp only [hf]
  exact .on (y := f.ip) (.inl ⟨hfalls, rfl⟩) hflow

theorem plays_of_works (hfalls : i.falls = true) (htry : i.isTry = false)
    (h : Works s μ k x i.gives P) (hφ : ∀ a, P a → ∀ v, φ a ≠ .finished v) :
    Plays s f F i μ k x φ :=
  Spec.mono h (fun a _ hm => moves_of_for hf hfalls hm.1 (hφ a hm.2))
    fun _ _ _ hm => does_of_like hf hfalls htry hm.2.1 .inl

/-- A frame that goes on elsewhere. -/
theorem plays_jumpTo (htry : i.isTry = false) (hgives : i.gives = 0) {y : Nat}
    (hy : i.Reaches f.ip y) : Plays s f F i μ 0 (jumpTo y) fun _ => .next := by
  refine ⟨fun m hm => ?_, fun b m hm hk => ?_⟩
  · rw [run_jumpTo m (hm.frames.trans hf)]
    refine ⟨Machine.Sound.kept { hm.toSound with } hm.ledger, ?_⟩
    show Moves _ _ _ _ _ _ m.task.tries
    rw [hf, hm.tries]
    exact .on hy.leads nofun
  · refine ⟨.ok () { m with task := { m.task with frames := { f with ip := y } :: F } },
      fun lo _ => run_jumpTo (m.onto lo) (hm.frames.trans hf) y,
      .inl ⟨⟨y, hy, rfl⟩, hm.tries.trans ?_, hk.trans hgives.symm, fun h => .inl ?_⟩⟩
    · cases i <;> first | rfl | cases htry
    · exact hm.awaiting.symm.trans h

/-- A function is entered whose arguments are on top. -/
theorem plays_enter {r : FunctionRef} (count : Nat) (hi : i.waits = true) (hr : r.index < s.bound) :
    Plays s f F i μ (count + 1) (enter env r count) fun _ => .next := by
  refine ⟨fun m hm => ?_, fun b m hm hk => ?_⟩
  · rw [run_enter]
    split
    · exact hm.failed nofun
    split
    · exact hm.failed nofun
    split
    · exact hm.failed nofun
    split
    · exact hm.failed nofun
    · refine ⟨Machine.Sound.kept { hm.toSound with } hm.ledger, ?_⟩
      show Moves _ _ _ _ _ (_ :: m.task.frames) m.task.tries
      rw [hm.frames, hm.tries, hf]
      exact .enters (Instr.falls_of_waits hi) hr
  · have hrun : ∀ lo : Array Value, lo.size = b → (enter env r count).run (m.onto lo) = _ :=
      fun lo _ => run_enter (m.onto lo) env r count
    by_cases hasync : (m.heap.function r).isAsync = true
    · refine ⟨.error (.failure (.asyncCall (m.heap.function r).name)) m, fun lo hlo => ?_, rfl⟩
      rw [hrun lo hlo]
      exact if_pos hasync
    by_cases harity : (m.heap.function r).arity = count
    · by_cases hdepth : env.config.maxCallDepth ≤ m.task.frames.length
      · refine ⟨.error (.failure (.callDepth env.config.maxCallDepth)) m, fun lo hlo => ?_, rfl⟩
        rw [hrun lo hlo]
        refine (if_neg hasync).trans ((if_neg (not_not_intro harity)).trans ?_)
        exact if_pos hdepth
      · refine ⟨.ok () { m with task := { m.task with frames := ⟨r, 0, b + 1⟩ :: m.task.frames } },
          fun lo hlo => ?_, .inr ⟨⟨r, by rw [hm.frames], ?_⟩, hm.tries, hm.awaiting, hi⟩⟩
        · have hsize : (m.onto lo).task.stack.size = b + (count + 1) := by
            show (lo ++ m.task.stack).size = _
            rw [Array.size_append, hlo, hk]
          have henough : ¬ (m.onto lo).task.stack.size < count := by omega
          have hbase : (m.onto lo).task.stack.size - count = b + 1 := by omega
          rw [hrun lo hlo]
          refine (if_neg hasync).trans ((if_neg (not_not_intro harity)).trans ?_)
          refine (if_neg hdepth).trans ((if_neg henough).trans ?_)
          rw [hbase]
          rfl
        · exact hk.trans (by rw [← harity])
    · refine ⟨.error (.failure (.arity (m.heap.function r).name
        (toString (m.heap.function r).arity) count)) m, fun lo hlo => ?_, rfl⟩
      rw [hrun lo hlo]
      exact (if_neg hasync).trans (if_pos harity)

/-- The task begins to wait for the value on top. -/
theorem plays_suspend (hi : i.waits = true) : Plays s f F i μ 1 (do
    modifyTask fun t => { t with awaiting := true }
    return .suspend) id :=
  have hsuspends : Works { s with task := { s.task with awaiting := true } } μ 1
      (pure Flow.suspend) 1 fun flow => ∀ v, flow ≠ .finished v := .pure nofun
  .setAwaiting (hsuspends.mono
    (fun _ _ hm => moves_of_for hf (Instr.falls_of_waits hi) hm.1 hm.2)
    fun _ _ _ hm => does_of_like hf (Instr.falls_of_waits hi) (Instr.isTry_of_waits hi)
      (Instr.gives_of_waits hi ▸ hm.2.1) fun _ => .inr hi)

end

/-! ### Instructions that move -/

section

variable (hf : s.task.frames = f :: F)

include hf

theorem plays_jump (htry : i.isTry = false) (hgives : i.gives = 0) (target : Frame → Nat)
    (hy : i.Reaches f.ip (target f)) :
    Plays s f F i μ 0 (andNext do jumpTo (target (← frame))) id := by
  refine .andNext (.bind (works_frame hf) fun g hg => ?_)
  subst hg
  exact plays_jumpTo hf htry hgives hy

theorem plays_jumpIf (hfalls : i.falls = true) (htry : i.isTry = false) (hgives : i.gives = 0)
    (truth : Bool) {distance : UInt16} (hy : i.Reaches f.ip (f.ip + distance.toNat)) :
    Plays s f F i μ 1 (andNext (jumpIf truth distance)) id := by
  refine .andNext (.bind works_pop fun v _ => .heap fun h _ => ?_)
  split
  · refine .bind (works_frame hf) fun g hg => ?_
    subst hg
    exact plays_jumpTo hf htry hgives hy
  · exact plays_of_works hf hfalls htry (P := fun _ => True)
      (hgives ▸ .pure trivial) fun _ _ => nofun

section

variable (hi : i.waits = true)

include hi

/-- An instruction behind which a frame may have to wait, if it does not wait. -/
theorem plays_of_waits (h : Works s μ k x 1 P) (hφ : ∀ a, P a → ∀ v, φ a ≠ .finished v) :
    Plays s f F i μ k x φ :=
  plays_of_works hf (Instr.falls_of_waits hi) (Instr.isTry_of_waits hi)
    (Instr.gives_of_waits hi ▸ h) hφ

theorem plays_next : Plays s f F i μ 1 (pure .next) id :=
  plays_of_waits hf hi (P := fun flow => ∀ v, flow ≠ .finished v) (.pure nofun) fun _ h => h

theorem plays_call (count : Nat) : Plays s f F i μ (count + 1) (andNext (call env count)) id := by
  have hindex : ∀ callee : Value, callee.Known s.bound → Plays s f F i μ (count + 1)
      (if count = 1 then do
        let key ← pop
        let _ ← pop
        push (← ofExcept ((← heap).get callee key))
      else notAFunction callee) fun _ => .next := by
    intro callee hc
    split
    next hcount =>
      subst hcount
      exact plays_of_waits hf hi (.bind works_pop fun key _ => .bind works_pop fun _ _ =>
        works_get hc)
        fun _ _ => nofun
    next => exact spec_notAFunction callee
  refine .andNext (.bind (works_peek (Nat.lt_succ_self count)) fun callee hcallee => ?_)
  dsimp only
  split
  · cases hcallee with
    | function hr => exact plays_enter hf count hi hr
  · exact hindex _ .array
  · exact hindex _ .dict
  · exact spec_notAFunction _

theorem plays_callNamed (name : String) (count : Nat) :
    Plays s f F i .entry count (callNamed env name count) id := by
  have hplain : Plays s f F i .entry count (callBuiltin env name count) id := by
    refine .bind (works_builtin name) fun b _ => .bind (works_popAll count) fun args hargs =>
      .bind (works_applyBuiltin b hargs.2) fun r hr => ?_
    split
    · exact .bind (works_push hr) fun _ _ => plays_next hf hi
    · exact .also (works_register _) (fun p _ _ => .bind (works_push .future) fun _ _ =>
        plays_suspend hf hi) fun _ _ _ _ _ h => h
  have hindex : ∀ container : Value, container.Known s.bound → Plays s f F i .entry count
      (if count = 1 then callIndex container else callBuiltin env name count) id := by
    intro container hc
    split
    next hcount =>
      subst hcount
      exact .bind works_pop fun key _ => .heap fun _ hh => .bind
        (.ofExcept (Heap.gives_get hh.known hc key)) fun _ hv => .bind (works_push hv) fun _ _ =>
          plays_next hf hi
    next => exact hplain
  refine .get (fun _ _ => rfl) fun m hm => ?_
  split
  next r heq =>
    refine .bind (works_popAll count) fun args hargs => .bind (works_push (hm.globals _ _ heq))
      fun _ _ => .bind (works_pushAll hargs.2) fun _ _ => .andNext ?_
    rw [Nat.zero_add, Nat.add_comm, hargs.1]
    cases hm.globals _ _ heq with
    | function hr => exact plays_enter hf count hi hr
  · exact hindex _ .array
  · exact hindex _ .dict
  · exact hplain

theorem plays_getIndex : Plays s f F i μ 2 (andNext (getIndex env)) id := by
  refine .andNext (.bind works_pop fun key hkey => .bind works_pop fun object ho => ?_)
  split
  · refine .bind (works_push ho) fun _ _ =>
      .bind (works_pushAll (keyArguments_known hkey)) fun _ _ => ?_
    rw [Nat.zero_add, Nat.add_comm]
    cases ho with
    | function hr => exact plays_enter hf _ hi hr
  · exact plays_of_waits hf hi (works_get ho) fun _ _ => nofun

theorem plays_await : Plays s f F i .late 1 await id := by
  refine .bind (works_peek Nat.one_pos) fun v _ => .heap fun h _ => ?_
  split
  · refine Spec.andNext (spec_finishAwait.mono (fun _ _ hm => ?_) fun _ _ _ hm => ?_)
    · exact moves_of_for hf (Instr.falls_of_waits hi) hm nofun
    · exact does_of_like (w := false) hf (Instr.falls_of_waits hi) (Instr.isTry_of_waits hi)
        (Instr.gives_of_waits hi ▸ hm) nofun
  · exact plays_suspend hf hi

end

theorem plays_tryBegin (n : UInt16) :
    Plays s f F (.tryBegin n) μ 0 (execute env (.tryBegin n)) id := by
  refine .andNext (.bind (works_frame hf) fun g hg => ⟨fun m hm => ?_, fun b m hm hk => ?_⟩)
  · subst hg
    refine ⟨Machine.Sound.kept { hm.toSound with } hm.ledger, ?_⟩
    show Moves _ _ _ _ _ m.task.frames (⟨_, _, m.task.frames.length⟩ :: m.task.tries)
    rw [hm.frames, hm.tries, hf]
    exact .opens rfl
  · subst hg
    have hempty : m.task.stack = #[] := Array.eq_empty_of_size_eq_zero hk
    have hdepth : m.task.frames.length = F.length + 1 := by rw [hm.frames, hf, List.length_cons]
    refine ⟨.ok () { m with task := { m.task with
      tries := ⟨g.ip + n.toNat, b, m.task.frames.length⟩ :: m.task.tries } }, fun lo hlo => ?_,
      .inl ⟨⟨g.ip, .inl ⟨rfl, rfl⟩, hm.frames.trans hf⟩, ?_, hk, fun h => .inl ?_⟩⟩
    · have hsize : (m.onto lo).task.stack.size = b := by
        show (lo ++ m.task.stack).size = b
        rw [hempty, Array.append_empty, hlo]
      rw [run_modifyTask, hsize]
      rfl
    · rw [hm.tries, hdepth]
      rfl
    · exact hm.awaiting.symm.trans h

theorem plays_tryEnd : Plays s f F .tryEnd μ 0 (execute env .tryEnd) id := by
  refine .andNext ⟨fun m hm => ⟨Machine.Sound.kept { hm.toSound with } hm.ledger, ?_⟩,
    fun b m hm hk => ?_⟩
  · show Moves _ _ _ _ _ m.task.frames (m.task.tries.drop 1)
    rw [hm.frames, hm.tries, hf]
    exact .closes rfl
  · refine ⟨.ok () { m with task := { m.task with tries := m.task.tries.drop 1 } }, fun lo _ => rfl,
      .inl ⟨⟨f.ip, .inl ⟨rfl, rfl⟩, hm.frames.trans hf⟩, ?_, hk, fun h => .inl ?_⟩⟩
    · rw [hm.tries]
      rfl
    · exact hm.awaiting.symm.trans h

/-- What an instruction does that neither returns nor looks at a local. -/
theorem plays_execute (env : Env) (hret : i ≠ .ret) (hslot : i.slot? = none) :
    Plays s f F i i.mode i.takes (execute env i) id := by
  cases i with
  | jump n =>
    exact plays_jump hf rfl rfl (fun f => f.ip + n.toNat) (.inr ⟨rfl, List.mem_singleton.mpr rfl⟩)
  | loop n =>
    exact plays_jump hf rfl rfl (fun f => f.ip - n.toNat) (.inr ⟨rfl, List.mem_singleton.mpr rfl⟩)
  | jumpIfFalse n | jumpIfTrue n =>
    exact plays_jumpIf hf rfl rfl rfl _ (.inr ⟨rfl, List.mem_singleton.mpr rfl⟩)
  | call count => exact plays_call hf rfl _
  | callNamed index count =>
    exact .bind (works_name hf index) fun name _ => plays_callNamed hf rfl name _
  | getIndex => exact plays_getIndex hf rfl
  | await => exact plays_await hf rfl
  | tryBegin n => exact plays_tryBegin hf n
  | tryEnd => exact plays_tryEnd hf
  | raise =>
    refine .bind (?_ : Works s _ _ _ 0 fun _ => False) fun _ => False.elim
    exact .bind works_pop fun v _ => .heap fun _ _ => .fail rfl
  | ret => exact absurd rfl hret
  | getLocal _ | setLocal _ => cases hslot
  | _ => exact plays_of_works hf rfl rfl (works_execute hf rfl) fun _ h => h

/-! ### What is left of a task -/

theorem ends_ret (hm : m.In s) : s.Outcome μ (fun flow m' =>
    Moves s.bound i s.task.frames s.task.tries flow m'.task.frames m'.task.tries) (ret.run m) := by
  refine Works.ends_bind (works_pop (k := 0)) (fun v m hv hm => ?_) hm
  have hframes := hm.frames.trans hf
  simp only [EStateM.run_bind, EStateM.run_get, hframes, run_modifyTask]
  rw [hf, ← hm.tries]
  have hkept : ∀ w ∈ m.task.stack.take (f.base - 1), w.Known s.bound :=
    fun w hw => hm.stack w (mem_of_mem_extract hw)
  cases F with
  | nil => exact ⟨Machine.Sound.kept { hm.toSound with stack := hkept } hm.ledger, .ends hv⟩
  | cons g F =>
    exact ⟨Machine.Sound.kept { hm.toSound with stack := Array.forall_mem_push.mpr ⟨hv, hkept⟩ }
      hm.ledger, .returns (List.cons_ne_nil _ _)⟩

theorem ends_local (hi : i.slot? ≠ none) (hm : m.In s) : s.Outcome i.mode (fun flow m' =>
    Moves s.bound i s.task.frames s.task.tries flow m'.task.frames m'.task.tries)
      ((execute env i).run m) := by
  have hframe := run_frame m (hm.frames.trans hf)
  have hstays : ∀ S : Array Value, (∀ v ∈ S, v.Known s.bound) → i.falls = true →
      s.Outcome i.mode (fun flow m' => Moves s.bound i s.task.frames s.task.tries flow
        m'.task.frames m'.task.tries) (.ok .next (m.on S)) := fun S hS hfalls =>
    have hin := hm.withStack hS
    ⟨hin.toSound.kept hin.ledger, moves_of_for hf hfalls hin.toFor (fun _ => by rintro ⟨⟩)⟩
  cases i with
  | getLocal slot =>
    simp only [execute, andNext, localPosition, EStateM.run_bind, hframe, EStateM.run_get, run_ite,
      EStateM.run_pure, run_fail]
    by_cases hplace : f.base + slot.toNat < m.task.stack.size
    · simp only [if_pos hplace]
      exact hstays _ (Array.forall_mem_push.mpr ⟨Heap.known_getD hm.stack _, hm.stack⟩) rfl
    · simp only [if_neg hplace]
      exact hm.failed (by rintro ⟨⟩)
  | setLocal slot =>
    simp only [execute, andNext, localPosition, peek, EStateM.run_bind, hframe, EStateM.run_get,
      run_ite, EStateM.run_pure, run_fail]
    by_cases hplace : f.base + slot.toNat < m.task.stack.size
    · have hpos : 0 < m.task.stack.size := Nat.zero_lt_of_lt hplace
      simp only [if_pos hplace, if_pos hpos]
      refine hstays _ (fun w hw => ?_) rfl
      rcases Array.mem_or_eq_of_mem_setIfInBounds hw with hw | rfl
      · exact hm.stack w hw
      · exact Heap.known_getD hm.stack _
    · simp only [if_neg hplace]
      exact hm.failed (by rintro ⟨⟩)
  | _ => exact absurd rfl hi

/-- What an instruction comes to, whatever is on the stack. -/
theorem ends_execute (env : Env) (i : Instr) (hm : m.In s) : s.Outcome i.mode (fun flow m' =>
    Moves s.bound i s.task.frames s.task.tries flow m'.task.frames m'.task.tries)
      ((execute env i).run m) := by
  by_cases hslot : i.slot? = none
  · by_cases hret : i = .ret
    · subst hret
      exact ends_ret hf hm
    · exact (plays_execute hf env hret hslot).ends m hm
  · exact ends_local hf hslot hm

end

end Exec

/-! ### Machines -/

/-- Values refer to finitely many functions. -/
theorem Machine.exists_sound (m : Machine) : ∃ n, m.Sound ⟨n, m.heap.functions⟩ := by
  obtain ⟨a, hheap, hvs⟩ := m.heap.exists_known (m.task.stack.toList ++ m.program.data.toList ++
    m.heap.functions.toList.flatMap fun f => f.chunk.constants.toList)
  obtain ⟨b, hglobals⟩ := Dict.exists_known m.program.globals
  have hle : ∀ v : Value, v.Known a → v.Known (max a b) := fun v hv => hv.mono (Nat.le_max_left a b)
  refine ⟨max a b, rfl, hheap.mono (Nat.le_max_left a b), hglobals.mono (Nat.le_max_right a b),
    fun v hv => hle v (hvs v ?_), fun v hv => hle v (hvs v ?_), fun f hf v hv => hle v (hvs v ?_)⟩
  · simp [hv]
  · simp [hv]
  · refine List.mem_append_right _ (List.mem_flatMap.mpr ⟨f, Array.mem_toList_iff.mpr hf, ?_⟩)
    exact Array.mem_toList_iff.mpr hv

/-- The functions refer to none but themselves in their constants. -/
def FunctionsKnown (fs : Array Function) : Prop :=
  ∀ f ∈ fs, ∀ v ∈ f.chunk.constants, v.Known fs.size

/-- The property `J` holds of tasks that begin to run one of the functions `fs`. -/
def Starts (fs : Array Function) (J : Task → Prop) : Prop :=
  ∀ id r args p, r.index < fs.size → (∀ v ∈ args, Value.Known fs.size v) →
    args.length = (fs[r.index]?.getD default).arity → J (Task.start id r args p)

structure Machine.Runs (fs : Array Function) (J : Task → Prop) (m : Machine) : Prop where
  functions : m.heap.functions = fs
  heap : m.heap.Known fs.size
  globals : m.program.globals.Known fs.size
  data : ∀ v ∈ m.program.data, v.Known fs.size
  stack : ∀ v ∈ m.task.stack, v.Known fs.size
  ready : ∀ t ∈ m.scheduler.ready, J t
  waiting : ∀ t ∈ m.scheduler.waiting, J t

/-- Besides, its task has the frames `F` and the `try` regions `R`. -/
structure Machine.At (fs : Array Function) (J : Task → Prop) (F : List Frame) (R : List TryBlock)
    (m : Machine) : Prop extends Machine.Runs fs J m where
  frames : m.task.frames = F
  tries : m.task.tries = R

/-- A computation has ended in a machine that satisfies `Q`, or has failed in one that
satisfies `E`. -/
def Ends {α : Type} (Q : α → Machine → Prop) (E : Machine → Prop) :
    EStateM.Result Fault Machine α → Prop
  | .ok a m => Q a m
  | .error _ m => E m

theorem Ends.mono {α : Type} {Q Q' : α → Machine → Prop} {E E' : Machine → Prop}
    {r : EStateM.Result Fault Machine α} (h : Ends Q E r) (hQ : ∀ a m, Q a m → Q' a m)
    (hE : ∀ m, E m → E' m) : Ends Q' E' r := by
  cases r with
  | ok a m => exact hQ a m h
  | error e m => exact hE m h

section

variable {fs : Array Function} {J : Task → Prop} {m m' : Machine}

def Machine.scene (m : Machine) (fs : Array Function) : Scene :=
  ⟨⟨fs.size, fs⟩, m.task, m.ledger⟩

theorem Machine.Runs.in_scene (hm : m.Runs fs J) (hfs : FunctionsKnown fs) : m.In (m.scene fs) :=
  ⟨⟨hm.functions, hm.heap, hm.globals, hm.data, hm.stack, hfs⟩, ⟨rfl, rfl, rfl⟩, rfl⟩

theorem Machine.Kept.runs {μ : Mode} (h : m'.Kept ⟨fs.size, fs⟩ m.ledger μ) (hJ : Starts fs J)
    (hm : m.Runs fs J) : m'.Runs fs J := by
  refine ⟨h.functions, h.heap, h.globals, h.data, h.stack, fun t ht => ?_, fun t ht => ?_⟩
  · rcases h.ready t ht with ht | ⟨id, r, args, p, hr, hargs, harity, rfl⟩
    · exact hm.ready t ht
    · exact hJ id r args p hr hargs harity
  · rw [h.waiting] at ht
    exact hm.waiting t ht

end

namespace Exec

variable {fs : Array Function} {J : Task → Prop} {f : Frame} {F : List Frame} {R : List TryBlock}
  {i : Instr} {m : Machine}

def Moved (fs : Array Function) (J : Task → Prop) (i : Instr) (F : List Frame) (R : List TryBlock)
    (flow : Flow) (m : Machine) : Prop :=
  ∃ F' R', Moves fs.size i F R flow F' R' ∧ m.At fs J F' R'

/-- What an instruction makes of frames and `try` regions. -/
theorem execute_moves (hfs : FunctionsKnown fs) (hJ : Starts fs J) (env : Env) (i : Instr)
    (hm : m.At fs J (f :: F) R) :
    Ends (Moved fs J i (f :: F) R) (Machine.At fs J (f :: F) R) ((execute env i).run m) := by
  have h := ends_execute (s := m.scene fs) hm.frames env i (hm.toRuns.in_scene hfs)
  cases hrun : (execute env i).run m with
  | ok flow m' =>
    rw [hrun] at h
    have hmoves : Moves fs.size i m.task.frames m.task.tries flow _ _ := h.2
    rw [hm.frames, hm.tries] at hmoves
    exact ⟨_, _, hmoves, h.1.runs hJ hm.toRuns, rfl, rfl⟩
  | error e m' =>
    rw [hrun] at h
    exact ⟨h.1.runs hJ hm.toRuns, h.2.1.trans hm.frames, h.2.2.1.trans hm.tries⟩

/-- What an instruction does that finds the values that it takes, and neither returns nor looks at
a local. -/
theorem floats_execute {t : Task} {b : Nat} (env : Env) (ht : t.frames = f :: F) (hret : i ≠ .ret)
    (hslot : i.slot? = none) (hm : m.Like t i.takes) :
    Floats b (execute env i) m fun _ m' => Does b f F t i m' := by
  obtain ⟨n, hsound⟩ := m.exists_sound
  exact (plays_execute (s := ⟨⟨n, m.heap.functions⟩, t, m.ledger⟩) ht env hret hslot).floats b m
    ⟨hsound, hm.toFor, rfl⟩ hm.size

theorem floats_finishAwait {t : Task} {b n : Nat} (hm : m.Like t (n + 1)) :
    Floats b finishAwait m fun _ m' => m'.Like { t with awaiting := false } (n + 1) := by
  obtain ⟨N, hsound⟩ := m.exists_sound
  exact (spec_finishAwait (s := ⟨⟨N, m.heap.functions⟩, t, m.ledger⟩)).floats b m
    ⟨hsound, hm.toFor, rfl⟩ hm.size

/-! ### Steps -/

theorem run_fetch (hf : m.task.frames = f :: F) :
    fetch.run m = match decode (m.heap.function f.function).chunk.code f.ip with
      | .ok (i, next) => .ok i
        { m with task := { m.task with frames := { f with ip := next } :: F } }
      | .error cause => .error (.failure cause) m := by
  simp only [fetch, EStateM.run_bind, run_frame m hf, run_heap, run_ofExcept]
  cases decode (m.heap.function f.function).chunk.code f.ip with
  | error cause => rfl
  | ok result => simp only [run_jumpTo m hf, EStateM.run_pure]

variable (hfs : FunctionsKnown fs) (hJ : Starts fs J) (env : Env)

include hfs hJ

/-- What a step makes of frames and `try` regions.  If the instruction fails, only the offset of
the innermost frame may have changed. -/
theorem step_moves (hm : m.At fs J (f :: F) R) :
    Ends (fun flow m' => ∃ i next,
        decode (fs[f.function.index]?.getD default).chunk.code f.ip = .ok (i, next) ∧
          Moved fs J i ({ f with ip := next } :: F) R flow m')
      (fun m' => ∃ ip, m'.At fs J ({ f with ip := ip } :: F) R) ((step env).run m) := by
  have hfunction : m.heap.function f.function = fs[f.function.index]?.getD default := by
    rw [Heap.function, hm.functions]
  rw [step, EStateM.run_bind, run_fetch hm.frames, hfunction]
  cases hd : decode (fs[f.function.index]?.getD default).chunk.code f.ip with
  | error cause => exact ⟨f.ip, hm⟩
  | ok result =>
    obtain ⟨i, next⟩ := result
    have hm' : ({ m with task := { m.task with
        frames := { f with ip := next } :: F } } : Machine).At fs J
          ({ f with ip := next } :: F) R :=
      { hm with frames := rfl }
    exact (execute_moves hfs hJ env i hm').mono (fun _ _ h => ⟨i, next, rfl, h⟩) fun _ h =>
      ⟨next, h⟩

/-- The end of a wait leaves frames and `try` regions alone. -/
theorem finishAwait_keeps (hm : m.At fs J F R) :
    Ends (fun flow m' => flow = .next ∧ m'.At fs J F R) (Machine.At fs J F R)
      ((andNext finishAwait).run m) := by
  have h := (spec_finishAwait (s := m.scene fs) (k := 0)).ends m (hm.toRuns.in_scene hfs)
  rw [andNext, EStateM.run_bind]
  cases hrun : finishAwait.run m with
  | ok u m' =>
    rw [hrun] at h
    exact ⟨rfl, h.1.runs hJ hm.toRuns, h.2.frames.trans hm.frames, h.2.tries.trans hm.tries⟩
  | error e m' =>
    rw [hrun] at h
    exact ⟨h.1.runs hJ hm.toRuns, h.2.1.trans hm.frames, h.2.2.1.trans hm.tries⟩

theorem taskAction_moves (hm : m.At fs J (f :: F) R) :
    Ends (fun flow m' =>
        (m.task.awaiting = true ∧ flow = .next ∧ m'.At fs J (f :: F) R) ∨
        (m.task.awaiting = false ∧ ∃ i next,
          decode (fs[f.function.index]?.getD default).chunk.code f.ip = .ok (i, next) ∧
            Moved fs J i ({ f with ip := next } :: F) R flow m'))
      (fun m' => ∃ ip, m'.At fs J ({ f with ip := ip } :: F) R)
      ((World.taskAction env m.task).run m) := by
  rw [World.taskAction]
  cases hawaiting : m.task.awaiting with
  | true =>
    exact (finishAwait_keeps hfs hJ hm).mono (fun _ _ h => .inl ⟨rfl, h⟩) fun _ hm => ⟨f.ip, hm⟩
  | false => exact (step_moves hfs hJ env hm).mono (fun _ _ h => .inr ⟨rfl, h⟩) fun _ h => h

/-- Whatever a task does, the machine goes on running the same functions. -/
theorem taskAction_runs (hm : m.Runs fs J) :
    Ends (fun flow m' => m'.Runs fs J ∧ ∀ v, flow = .finished v → v.Known fs.size)
      (fun m' => m'.Runs fs J) ((World.taskAction env m.task).run m) := by
  cases hframes : m.task.frames with
  | nil =>
    rw [World.taskAction]
    split
    · refine (finishAwait_keeps hfs hJ ⟨hm, hframes, rfl⟩).mono ?_ fun _ hm => hm.toRuns
      rintro _ _ ⟨rfl, hm⟩
      exact ⟨hm.toRuns, nofun⟩
    · have hrun : (step env).run m = .error (.failure .noFrame) m := by
        simp only [step, fetch, frame, EStateM.run_bind, EStateM.run_get, hframes, run_fail]
      rw [hrun]
      exact hm
  | cons f F =>
    refine (taskAction_moves hfs hJ env ⟨hm, hframes, rfl⟩).mono ?_ ?_
    · rintro flow m' (⟨_, rfl, hm⟩ | ⟨_, _, _, _, _, _, hmoves, hm⟩)
      · exact ⟨hm.toRuns, nofun⟩
      · refine ⟨hm.toRuns, ?_⟩
        rintro v rfl
        cases hmoves with
        | on _ hflow => exact absurd rfl (hflow v)
        | ends hv => exact hv
    · rintro _ ⟨_, hm⟩
      exact hm.toRuns

end Exec

end TaskBasic
