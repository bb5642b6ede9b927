import TaskBasic.Proofs.Heap.Known
import TaskBasic.Proofs.Machine.Ledger
import TaskBasic.Proofs.Machine.Run

/-
What computations on a machine do, said once for all that has to be known of it.

A computation begins in a `Scene`: the functions that there are, the task but for
its stack, and the ledger.  `Spec s μ k x Q S` says of the computation `x` that
begins in the scene `s`:

* whatever is on the stack, all values stay known, the ledger changes as the mode
  `μ` allows, and the machine satisfies `Q` in the end; if it fails, frames and
  `try` regions are those of the scene;
* if it finds `k` values on top of others, it neither looks at the others nor
  changes them, it does not fail because of the stack (`Floats`), and what is left
  on top of `b` others satisfies `S b`.

`Works s μ k x k' P` is the case of a computation that leaves the task alone but
for the stack, where it leaves `k'` values, and whose result satisfies `P`.
-/

namespace TaskBasic

/-! ### Failures -/

/-- True for the failures of instructions that do not find on the stack what they need. -/
def Failure.blamesStack : Failure → Bool
  | stackUnderflow | noFrame | invalidSlot _ => true
  | _ => false

@[inherit_doc Failure.blamesStack]
def Fault.blamesStack : Fault → Bool
  | failure cause => cause.blamesStack
  | _ => false

/-- True for the faults that come neither from the stack nor from something that is pending. -/
def Fault.isTame : Fault → Bool
  | failure .stillPending => false
  | e => !e.blamesStack

namespace Fault

variable {e : Fault}

theorem isTame_of_isOrdinary (h : e.isOrdinary = true) : e.isTame = true := by
  cases e with
  | failure cause => cases cause <;> first | rfl | cases h
  | _ => rfl

theorem blamesStack_of_isTame (h : e.isTame = true) : e.blamesStack = false := by
  cases e with
  | failure cause => cases cause <;> first | rfl | cases h
  | _ => rfl

theorem ne_of_isTame (h : e.isTame = true) : e ≠ .failure .stillPending := by
  rintro rfl
  cases h

end Fault

/-! ### On top of other values -/

/-- The machine with other values below its stack. -/
def Machine.onto (m : Machine) (lo : Array Value) : Machine :=
  m.on (lo ++ m.task.stack)

section

variable {α β : Type}

/-- The result with other values below the stack. -/
def Result.onto (lo : Array Value) : EStateM.Result Fault Machine α → EStateM.Result Fault Machine α
  | .ok a m => .ok a (m.onto lo)
  | .error e m => .error e (m.onto lo)

/-- The result satisfies `Q`, or there is none for a reason other than the stack. -/
def Result.Serves (Q : α → Machine → Prop) : EStateM.Result Fault Machine α → Prop
  | .ok a m => Q a m
  | .error e _ => e.blamesStack = false

/-- The computation runs on top of any `b` values. -/
def Floats (b : Nat) (x : Exec α) (m : Machine) (Q : α → Machine → Prop) : Prop :=
  ∃ r, (∀ lo : Array Value, lo.size = b → x.run (m.onto lo) = Result.onto lo r) ∧ Result.Serves Q r

namespace Floats

variable {b : Nat} {m : Machine} {x : Exec α} {f : α → Exec β} {P Q : α → Machine → Prop}
  {R : β → Machine → Prop}

theorem mono (h : Floats b x m P) (hPQ : ∀ a m, P a m → Q a m) : Floats b x m Q := by
  obtain ⟨r, hrun, hr⟩ := h
  refine ⟨r, hrun, ?_⟩
  cases r with
  | ok a m' => exact hPQ a m' hr
  | error e m' => exact hr

theorem bind (hx : Floats b x m P) (hf : ∀ a m', P a m' → Floats b (f a) m' R) :
    Floats b (x >>= f) m R := by
  obtain ⟨r, hrun, hr⟩ := hx
  cases r with
  | error e m' =>
    refine ⟨.error e m', fun lo hlo => ?_, hr⟩
    rw [EStateM.run_bind, hrun lo hlo]
    rfl
  | ok a m' =>
    obtain ⟨r', hrun', hr'⟩ := hf a m' hr
    refine ⟨r', fun lo hlo => ?_, hr'⟩
    rw [EStateM.run_bind, hrun lo hlo]
    exact hrun' lo hlo

end Floats

end

/-! ### Scenes -/

structure Library where
  /-- Values refer to functions below this number only. -/
  bound : Nat
  functions : Array Function

/-- Where a computation begins. -/
structure Scene extends Library where
  task : Task
  ledger : Ledger

/-- What a computation may do to the ledger. -/
inductive Mode
  | calm
  /-- It leaves the ledger alone, but can fail because something awaited is pending. -/
  | late
  | entry
  | deed

def Mode.Allows : Mode → Ledger → Ledger → Prop
  | calm, L, L' | late, L, L' => L' = L
  | entry, L, L' => L.Entry L'
  | deed, L, L' => L.Deed L'

theorem Mode.allows_refl (μ : Mode) (L : Ledger) : μ.Allows L L := by
  cases μ with
  | calm | late => rfl
  | entry => exact .nothing
  | deed => exact .enters .nothing

/-- The task is about to run one of the functions. -/
def Task.IsNew (l : Library) (t : Task) : Prop :=
  ∃ id r args p, r.index < l.bound ∧ (∀ v ∈ args, v.Known l.bound) ∧
    args.length = (l.functions[r.index]?.getD default).arity ∧ t = Task.start id r args p

structure Heap.Fits (s : Scene) (h : Heap) : Prop where
  functions : h.functions = s.functions
  known : h.Known s.bound
  states : h.promises.map Promise.state = s.ledger.states
  constants : ∀ f ∈ s.functions, ∀ v ∈ f.chunk.constants, v.Known s.bound

theorem Heap.Fits.kept {s : Scene} {h h' : Heap} (hh : h.Fits s) (hknown : h'.Known s.bound)
    (hkept : h.Kept h') : h'.Fits s :=
  { hh with
    functions := hkept.functions.trans hh.functions
    known := hknown
    states := hkept.promises ▸ hh.states }

namespace Machine

/-- All values are known. -/
structure Sound (l : Library) (m : Machine) : Prop where
  functions : m.heap.functions = l.functions
  heap : m.heap.Known l.bound
  globals : m.program.globals.Known l.bound
  data : ∀ v ∈ m.program.data, v.Known l.bound
  stack : ∀ v ∈ m.task.stack, v.Known l.bound
  constants : ∀ f ∈ l.functions, ∀ v ∈ f.chunk.constants, v.Known l.bound

/-- The task is `t` but for its stack. -/
structure For (t : Task) (m : Machine) : Prop where
  frames : m.task.frames = t.frames
  tries : m.task.tries = t.tries
  awaiting : m.task.awaiting = t.awaiting

/-- Besides, the stack has `n` values. -/
structure Like (t : Task) (n : Nat) (m : Machine) : Prop extends For t m where
  size : m.task.stack.size = n

structure In (s : Scene) (m : Machine) : Prop extends Sound s.toLibrary m, For s.task m where
  ledger : m.ledger = s.ledger

/-- What a computation has made of a machine with the ledger `L`, but for the task. -/
structure Kept (l : Library) (L : Ledger) (μ : Mode) (m : Machine) : Prop extends Sound l m where
  ledger : μ.Allows L m.ledger
  ready : ∀ t ∈ m.scheduler.ready, t ∈ L.scheduler.ready ∨ t.IsNew l
  waiting : m.scheduler.waiting = L.scheduler.waiting

variable {l : Library} {L : Ledger} {s : Scene} {μ : Mode} {m m' : Machine}

theorem Sound.kept (h : m.Sound l) (hledger : m.ledger = L) : m.Kept l L μ where
  toSound := h
  ledger := hledger ▸ μ.allows_refl _
  ready := fun _ ht => .inl (hledger ▸ ht)
  waiting := hledger ▸ rfl

theorem Kept.trans (h : m.Kept l L μ) (h' : m'.Kept l m.ledger .calm) : m'.Kept l L μ := by
  have hledger : m'.ledger = m.ledger := h'.ledger
  have hscheduler : m'.scheduler = m.scheduler := congrArg Ledger.scheduler hledger
  exact ⟨h'.toSound, hledger ▸ h.ledger, hscheduler ▸ h.ready, hscheduler ▸ h.waiting⟩

theorem In.fits (h : m.In s) : m.heap.Fits s :=
  ⟨h.functions, h.heap, congrArg Ledger.states h.ledger, h.constants⟩

theorem In.withStack (h : m.In s) {S : Array Value} (hS : ∀ v ∈ S, v.Known s.bound) :
    (m.on S).In s :=
  { h with stack := hS }

end Machine

section

variable {α β : Type}

/-- What has come of a computation that began in the scene. -/
def Scene.Outcome (s : Scene) (μ : Mode) (Q : α → Machine → Prop) :
    EStateM.Result Fault Machine α → Prop
  | .ok a m => m.Kept s.toLibrary s.ledger μ ∧ Q a m
  | .error e m =>
    m.Kept s.toLibrary s.ledger μ ∧ m.task.frames = s.task.frames ∧ m.task.tries = s.task.tries ∧
    (e = .failure .stillPending → μ = .late)

/-- What is known of a computation that begins in the scene. -/
structure Spec (s : Scene) (μ : Mode) (k : Nat) (x : Exec α) (Q : α → Machine → Prop)
    (S : Nat → α → Machine → Prop) : Prop where
  ends : ∀ m : Machine, m.In s → s.Outcome μ Q (x.run m)
  floats : ∀ b (m : Machine), m.In s → m.task.stack.size = k → Floats b x m (S b)

/-- The computation leaves the task alone but for the stack, where it finds `k` values and leaves
`k'`. -/
def Works (s : Scene) (μ : Mode) (k : Nat) (x : Exec α) (k' : Nat) (P : α → Prop) : Prop :=
  Spec s μ k x (fun a m => m.For s.task ∧ P a)
    fun _ a m => m.Sound s.toLibrary ∧ m.Like s.task k' ∧ P a ∧ μ.Allows s.ledger m.ledger

variable {s : Scene} {μ : Mode} {k k' k1 : Nat} {x : Exec α} {f : α → Exec β} {P : α → Prop}
  {Q : α → Machine → Prop} {S : Nat → α → Machine → Prop} {R : β → Machine → Prop}
  {T : Nat → β → Machine → Prop} {m : Machine}

theorem Machine.In.done (h : m.In s) {a : α} (ha : P a) :
    s.Outcome μ (fun a m => m.For s.task ∧ P a) (.ok a m) :=
  ⟨h.toSound.kept h.ledger, h.toFor, ha⟩

theorem Machine.In.failed (h : m.In s) {e : Fault} (he : e ≠ .failure .stillPending) :
    s.Outcome μ Q (.error e m) :=
  ⟨h.toSound.kept h.ledger, h.frames, h.tries, fun h => absurd h he⟩

/-- What is calm may go first. -/
theorem Works.ends_bind (hx : Works s .calm k x k1 P)
    (hf : ∀ a (m : Machine), P a → m.In s → s.Outcome μ R ((f a).run m)) (hm : m.In s) :
    s.Outcome μ R ((x >>= f).run m) := by
  have h := hx.ends m hm
  rw [EStateM.run_bind]
  cases hrun : x.run m with
  | ok a m' =>
    rw [hrun] at h
    exact hf a m' h.2.2 ⟨h.1.toSound, h.2.1, h.1.ledger⟩
  | error e m' =>
    rw [hrun] at h
    exact ⟨h.1.toSound.kept h.1.ledger, h.2.1, h.2.2.1, fun he => nomatch h.2.2.2 he⟩

namespace Spec

theorem throw {e : Fault} (he : e.isTame = true) : Spec s μ k (throw e : Exec α) Q S :=
  ⟨fun _ hm => hm.failed (Fault.ne_of_isTame he),
    fun _ m _ _ => ⟨.error e m, fun _ _ => rfl, Fault.blamesStack_of_isTame he⟩⟩

theorem fail {cause : Failure} (he : (Fault.failure cause).isTame = true) :
    Spec s μ k (Exec.fail cause : Exec α) Q S := throw he

@[inherit_doc Works.ends_bind]
theorem bind (hx : Works s .calm k x k1 P) (hf : ∀ a, P a → Spec s μ k1 (f a) R T) :
    Spec s μ k (x >>= f) R T :=
  ⟨fun _ => hx.ends_bind fun a m ha => (hf a ha).ends m, fun b m hm hk =>
    (hx.floats b m hm hk).bind fun a m' h =>
      (hf a h.2.2.1).floats b m' ⟨h.1, h.2.1.toFor, h.2.2.2⟩ h.2.1.size⟩

/-- What is calm may come last. -/
theorem also {T' : Ledger → Nat → β → Machine → Prop} (hx : Works s μ k x k1 P)
    (hf : ∀ a L, P a → Spec { s with ledger := L } .calm k1 (f a) R (T' L))
    (hT : ∀ L b c m, μ.Allows s.ledger L → T' L b c m → T b c m) : Spec s μ k (x >>= f) R T := by
  refine ⟨fun m hm => ?_, fun b m hm hk => (hx.floats b m hm hk).bind fun a m' h =>
    ((hf a m'.ledger h.2.2.1).floats b m' ⟨h.1, h.2.1.toFor, rfl⟩ h.2.1.size).mono
      fun c m'' => hT _ b c m'' h.2.2.2⟩
  have h := hx.ends m hm
  rw [EStateM.run_bind]
  cases hrun : x.run m with
  | ok a m' =>
    rw [hrun] at h
    have h' := (hf a m'.ledger h.2.2).ends m' ⟨h.1.toSound, h.2.1, rfl⟩
    dsimp only
    cases hrun' : (f a).run m' with
    | ok b m'' =>
      rw [hrun'] at h'
      exact ⟨h.1.trans h'.1, h'.2⟩
    | error e m'' =>
      rw [hrun'] at h'
      exact ⟨h.1.trans h'.1, h'.2.1, h'.2.2.1, fun he => nomatch h'.2.2.2 he⟩
  | error e m' =>
    rw [hrun] at h
    exact h

theorem setAwaiting {f : Unit → Exec β} {awaiting : Bool}
    (hf : Spec { s with task := { s.task with awaiting := awaiting } } μ k (f ()) R T) :
    Spec s μ k ((Exec.modifyTask fun t => { t with awaiting := awaiting }) >>= f) R T :=
  ⟨fun _ hm => hf.ends _ { hm with awaiting := rfl },
    fun b m hm hk => hf.floats b { m with task := { m.task with awaiting := awaiting } }
      { hm with awaiting := rfl } hk⟩

theorem get {f : Machine → Exec β} (hread : ∀ m t, f { m with task := t } = f m)
    (hf : ∀ m, m.In s → Spec s μ k (f m) R T) : Spec s μ k (get >>= f) R T := by
  refine ⟨fun m hm => (hf m hm).ends m hm, fun b m hm hk => ?_⟩
  obtain ⟨r, hrun, hr⟩ := (hf m hm).floats b m hm hk
  refine ⟨r, fun lo hlo => ?_, hr⟩
  rw [EStateM.run_bind, EStateM.run_get]
  show (f (m.onto lo)).run (m.onto lo) = _
  rw [Machine.onto, Machine.on, hread]
  exact hrun lo hlo

theorem heap {f : Heap → Exec β} (hf : ∀ h : Heap, h.Fits s → Spec s μ k (f h) R T) :
    Spec s μ k (Exec.heap >>= f) R T :=
  get (f := fun m => f m.heap) (fun _ _ => rfl) fun m hm => hf m.heap hm.fits

theorem mono {Q' : α → Machine → Prop} {S' : Nat → α → Machine → Prop} (h : Spec s μ k x Q S)
    (hQ : ∀ a m, Q a m → Q' a m) (hS : ∀ b a m, S b a m → S' b a m) : Spec s μ k x Q' S' := by
  refine ⟨fun m hm => ?_, fun b m hm hk => (h.floats b m hm hk).mono (hS b)⟩
  have hends := h.ends m hm
  cases hrun : x.run m with
  | ok a m' =>
    rw [hrun] at hends
    exact ⟨hends.1, hQ a m' hends.2⟩
  | error e m' =>
    rw [hrun] at hends
    exact hends

theorem andNext {x : Exec Unit} {Q : Flow → Machine → Prop} {S : Nat → Flow → Machine → Prop}
    (h : Spec s μ k x (fun _ => Q .next) fun b _ => S b .next) :
    Spec s μ k (Exec.andNext x) Q S := by
  refine ⟨fun m hm => ?_, fun b m hm hk => (h.floats b m hm hk).bind fun _ m' hm' =>
    ⟨.ok .next m', fun _ _ => rfl, hm'⟩⟩
  have hends := h.ends m hm
  rw [Exec.andNext, EStateM.run_bind]
  cases hrun : x.run m with
  | ok a m' | error e m' =>
    rw [hrun] at hends
    exact hends

theorem intro
    (hends : ∀ m : Machine, m.In s → s.Outcome μ (fun a m => m.For s.task ∧ P a) (x.run m))
    (hfloats : ∀ m : Machine, m.In s → m.task.stack.size = k →
      (∀ lo, x.run (m.onto lo) = Result.onto lo (x.run m)) ∧
        Result.Serves (fun _ m' => m'.task.stack.size = k') (x.run m)) : Works s μ k x k' P := by
  refine ⟨hends, fun b m hm hk => ?_⟩
  obtain ⟨hrun, hserves⟩ := hfloats m hm hk
  refine ⟨x.run m, fun lo _ => hrun lo, ?_⟩
  have h := hends m hm
  cases hr : x.run m with
  | ok a m' =>
    rw [hr] at h hserves
    exact ⟨h.1.toSound, ⟨h.2.1, hserves⟩, h.2.2, h.1.ledger⟩
  | error e m' =>
    rw [hr] at hserves
    exact hserves

theorem pure {a : α} (ha : P a) : Works s μ k (pure a) k P :=
  .intro (fun _ hm => hm.done ha) fun _ _ hk => ⟨fun _ => rfl, hk⟩

theorem ofExcept {r : Except Failure α} (h : Gives P r) : Works s μ k (Exec.ofExcept r) k P := by
  cases r with
  | ok a => exact .pure h
  | error cause => exact .fail (Fault.isTame_of_isOrdinary h)

theorem mapM {f : α → Exec β} {T : β → Prop} (hf : ∀ a, P a → Works s .calm k (f a) k T)
    {xs : List α}
    (hxs : ∀ a ∈ xs, P a) : Works s .calm k (xs.mapM f) k fun ys => ∀ b ∈ ys, T b := by
  induction xs with
  | nil =>
    rw [List.mapM_nil]
    exact .pure nofun
  | cons a xs ih =>
    obtain ⟨ha, hxs⟩ := List.forall_mem_cons.mp hxs
    rw [List.mapM_cons]
    exact .bind (hf a ha) fun b hb => .bind (ih hxs) fun bs hbs =>
      .pure (List.forall_mem_cons.mpr ⟨hb, hbs⟩)

/-- A change that has nothing to do with the task. -/
theorem edit {g : Machine → α × Machine}
    (htask : ∀ m t, g { m with task := t } = ((g m).1, { (g m).2 with task := t }))
    (hg : ∀ m, m.In s → (g m).2.Kept s.toLibrary s.ledger μ ∧ P (g m).1) :
    Works s μ k (modifyGet g) k P := by
  have hsame : ∀ m, (g m).2.task = m.task := fun m => congrArg (·.2.task) (htask m m.task)
  refine .intro (fun m hm => ⟨(hg m hm).1, ?_, (hg m hm).2⟩) fun m hm hk => ⟨fun lo => ?_, ?_⟩
  · exact ⟨hsame m ▸ hm.frames, hsame m ▸ hm.tries, hsame m ▸ hm.awaiting⟩
  · have honto : g (m.onto lo) = ((g m).1, (g m).2.onto lo) := by
      refine (htask m _).trans (congrArg (Prod.mk _) ?_)
      rw [Machine.onto, Machine.on, hsame]
    show EStateM.Result.ok (g (m.onto lo)).1 (g (m.onto lo)).2 = _
    rw [honto]
    rfl
  · show (g m).2.task.stack.size = k
    rw [hsame, hk]

theorem modify {g : Machine → Machine}
    (htask : ∀ m t, g { m with task := t } = { g m with task := t })
    (hg : ∀ m, m.In s → (g m).Sound s.toLibrary ∧ (g m).ledger = m.ledger) :
    Works s μ k (modify g) k fun _ => True :=
  .edit (g := fun m => ((), g m)) (fun m t => congrArg (Prod.mk ()) (htask m t))
    fun m hm => ⟨(hg m hm).1.kept ((hg m hm).2.trans hm.ledger), trivial⟩

end Spec

theorem Works.also {T : β → Prop} (hx : Works s μ k x k1 P)
    (hf : ∀ a L, P a → Works { s with ledger := L } .calm k1 (f a) k' T) :
    Works s μ k (x >>= f) k' T := by
  refine Spec.also hx hf fun L b c m hL h => ⟨h.1, h.2.1, h.2.2.1, ?_⟩
  rw [show m.ledger = L from h.2.2.2]
  exact hL

end

theorem mem_of_mem_extract {α : Type} {xs : Array α} {i j : Nat} {a : α}
    (h : a ∈ xs.extract i j) : a ∈ xs := by
  obtain ⟨k, hk, rfl⟩ := Array.getElem_of_mem h
  rw [Array.getElem_extract]
  exact Array.getElem_mem _

theorem mem_of_mem_pop {α : Type} {xs : Array α} {a : α} (h : a ∈ xs.pop) : a ∈ xs := by
  obtain ⟨k, hk, rfl⟩ := Array.getElem_of_mem h
  rw [Array.getElem_pop]
  exact Array.getElem_mem _

/-! ### Building blocks -/

namespace Exec

variable {s : Scene} {μ : Mode} {k : Nat}

theorem works_push {v : Value} (hv : v.Known s.bound) :
    Works s μ k (push v) (k + 1) fun _ => True := by
  refine .intro (fun m hm => ?_) fun m hm hk => ⟨fun lo => ?_, ?_⟩
  · exact (hm.withStack (Array.forall_mem_push.mpr ⟨hv, hm.stack⟩)).done trivial
  · show EStateM.Result.ok () _ = EStateM.Result.ok () _
    simp [Machine.onto, Machine.on]
  · show (m.task.stack.push v).size = k + 1
    rw [Array.size_push, hk]

theorem works_pushAll {vs : List Value} (hvs : ∀ v ∈ vs, v.Known s.bound) :
    Works s .calm k (vs.forM push) (k + vs.length) fun _ => True := by
  induction vs generalizing k with
  | nil => exact .pure trivial
  | cons v vs ih =>
    obtain ⟨hv, hvs⟩ := List.forall_mem_cons.mp hvs
    rw [List.length_cons, Nat.add_comm vs.length, ← Nat.add_assoc]
    exact .bind (works_push hv) fun _ _ => ih hvs

theorem works_pop : Works s μ (k + 1) pop k (Value.Known s.bound) := by
  refine .intro (fun m hm => ?_) fun m hm hk => ?_
  · simp only [pop, EStateM.run_bind, EStateM.run_get]
    cases hback : m.task.stack.back? with
    | none => exact hm.failed (by rintro ⟨⟩)
    | some v =>
      exact (hm.withStack fun w hw => hm.stack w (mem_of_mem_pop hw)).done
        (hm.stack v (Array.mem_of_back? hback))
  · obtain ⟨S, v, hS⟩ : ∃ (S : Array Value) (v : Value), m.task.stack = S.push v :=
      ⟨_, _, Array.eq_push_pop_back!_of_size_ne_zero (by omega)⟩
    have hrun := run_pop m S v
    rw [← hS, Machine.on_stack] at hrun
    rw [hrun]
    refine ⟨fun lo => ?_, ?_⟩
    · rw [Machine.onto, hS, Array.append_push, run_pop]
      rfl
    · rw [hS, Array.size_push] at hk
      exact Nat.succ.inj hk

theorem works_popMany (count : Nat) : Works s μ (k + count) (popMany count) k
    fun vs => vs.length = count ∧ ∀ v ∈ vs, v.Known s.bound := by
  refine .intro (fun m hm => ?_) fun m hm hk => ?_
  · simp only [popMany, EStateM.run_bind, EStateM.run_get]
    by_cases hcount : count ≤ m.task.stack.size
    · rw [if_pos hcount]
      refine (hm.withStack fun v hv => hm.stack v (mem_of_mem_extract hv)).done ⟨?_, fun v hv => ?_⟩
      · simp
        omega
      · exact hm.stack v (mem_of_mem_extract (Array.mem_toList_iff.mp hv))
    · rw [if_neg hcount]
      exact hm.failed (by rintro ⟨⟩)
  · obtain ⟨S, vs, hS, hlength⟩ : ∃ (S : Array Value) (vs : List Value),
        m.task.stack = S ++ vs.toArray ∧ vs.length = count := by
      refine ⟨m.task.stack.take k, (m.task.stack.extract k (k + count)).toList, ?_, ?_⟩
      · have hle : k ≤ m.task.stack.size := by omega
        rw [Array.toArray_toList, ← hk]
        simp [Nat.max_eq_right hle]
      · simp [hk]
    subst hlength
    have hrun := run_popMany m S vs
    rw [← hS, Machine.on_stack] at hrun
    rw [hrun]
    refine ⟨fun lo => ?_, ?_⟩
    · rw [Machine.onto, hS, ← Array.append_assoc, run_popMany]
      rfl
    · rw [hS, Array.size_append, List.size_toArray] at hk
      exact Nat.add_right_cancel hk

theorem works_popAll (count : Nat) : Works s μ count (popMany count) 0
    fun vs => vs.length = count ∧ ∀ v ∈ vs, v.Known s.bound := by
  have h := works_popMany (s := s) (μ := μ) (k := 0) count
  rwa [Nat.zero_add] at h

theorem run_peek {m : Machine} {distance : Nat} (hd : distance < m.task.stack.size)
    (lo : Array Value) : (peek distance).run (m.onto lo) =
      .ok (m.task.stack[m.task.stack.size - 1 - distance]?.getD .absent) (m.onto lo) := by
  have hall : distance < (lo ++ m.task.stack).size := by rw [Array.size_append]; omega
  have hindex : (lo ++ m.task.stack)[(lo ++ m.task.stack).size - 1 - distance]? =
      m.task.stack[m.task.stack.size - 1 - distance]? := by
    rw [Array.getElem?_append_right (by rw [Array.size_append]; omega), Array.size_append]
    congr 1
    omega
  simp only [peek, EStateM.run_bind, EStateM.run_get]
  rw [Machine.onto, Machine.task_stack_on, if_pos hall, hindex]
  rfl

theorem works_peek {distance : Nat} (hd : distance < k) :
    Works s μ k (peek distance) k (Value.Known s.bound) := by
  refine .intro (fun m hm => ?_) fun m hm hk => ⟨fun lo => ?_, ?_⟩
  · simp only [peek, EStateM.run_bind, EStateM.run_get]
    split
    · exact hm.done (Heap.known_getD hm.stack _)
    · exact hm.failed (by rintro ⟨⟩)
  · rw [run_peek (hk ▸ hd)]
    simp only [peek, EStateM.run_bind, EStateM.run_get]
    rw [if_pos (hk ▸ hd)]
    rfl
  · simp only [peek, EStateM.run_bind, EStateM.run_get]
    rw [if_pos (hk ▸ hd)]
    exact hk

section

variable {f : Frame} {F : List Frame} (hf : s.task.frames = f :: F)

include hf

theorem works_frame : Works s μ k frame k fun g => g = f := by
  have hrun : ∀ m : Machine, m.In s → ∀ S, frame.run (m.on S) = .ok f (m.on S) :=
    fun m hm S => run_frame (m.on S) (hm.frames.trans hf)
  refine .intro (fun m hm => ?_) fun m hm hk => ?_
  · rw [show frame.run m = _ from hrun m hm m.task.stack]
    exact hm.done rfl
  · rw [show frame.run m = _ from hrun m hm m.task.stack]
    exact ⟨fun lo => hrun m hm _, hk⟩

theorem works_constant (index : UInt16) :
    Works s μ k (constant index) k (Value.Known s.bound) := by
  refine .bind (works_frame hf) fun g _ => .heap fun h hh => ?_
  split
  next v hv =>
    refine .pure ?_
    rw [Heap.function, hh.functions] at hv
    cases hr : s.functions[g.function.index]? with
    | none =>
      rw [hr] at hv
      cases hv
    | some fn =>
      rw [hr] at hv
      exact hh.constants fn (Array.mem_of_getElem? hr) v (Array.mem_of_getElem? hv)
  · exact .fail rfl

theorem works_name (index : UInt16) : Works s μ k (name index) k fun _ => True := by
  refine .bind (works_constant hf index) fun v _ => ?_
  split
  · exact .pure trivial
  · exact .fail rfl

end

/-! ### The heap -/

theorem works_setHeap {h : Heap} (hh : h.Fits s) :
    Works s μ k (modify fun m => { m with heap := h }) k fun _ => True := by
  refine .modify (fun _ _ => rfl) fun m hm =>
    ⟨{ hm.toSound with functions := hh.functions, heap := hh.known }, ?_⟩
  show Ledger.mk (h.promises.map Promise.state) _ _ _ _ _ = _
  rw [hh.states, ← hm.ledger]
  rfl

theorem works_alloc {α : Type} {f : Heap → Heap × α} {P : α → Prop}
    (hf : ∀ h : Heap, h.Known s.bound → (f h).1.Known s.bound ∧ h.Kept (f h).1 ∧ P (f h).2) :
    Works s μ k (alloc f) k P := by
  refine .edit (fun _ _ => rfl) fun m hm => ?_
  obtain ⟨hknown, hkept, hP⟩ := hf m.heap hm.heap
  have hfunctions := hkept.functions.trans hm.functions
  refine ⟨Machine.Sound.kept { hm.toSound with functions := hfunctions, heap := hknown } ?_, hP⟩
  show Ledger.mk ((f m.heap).1.promises.map Promise.state) _ _ _ _ _ = _
  rw [hkept.promises, ← hm.ledger]
  rfl

theorem works_newArray {items : List Value} (hitems : ∀ v ∈ items, v.Known s.bound) :
    Works s μ k (alloc fun h => h.newArray items.toArray) k (Value.Known s.bound) :=
  works_alloc fun _ hh => ⟨hh.newArray fun v hv => hitems v (List.mem_toArray.mp hv), ⟨rfl, rfl⟩,
    .array⟩

end Exec

end TaskBasic
