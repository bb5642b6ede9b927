import TaskBasic.Proofs.Code.Plan
import TaskBasic.Proofs.Machine.Confined
import TaskBasic.Proofs.Machine.Placed

/-
The stack of a task.

The frames of a task lie one above the other on its stack.  Each has as many
values there as the layout of its function says at the place where it is, and
the `try` regions that it has open there; a frame that has called a function
waits behind the call, and its values end with the function that it has called
(`Callers`).  `stacked_lasting` says that this holds of all tasks, always, if all
functions have layouts.
-/

namespace TaskBasic

open List

variable {x : Nat} {i : Instr} {message : String} {t' : Task}

/-- The regions of a frame, the `depth`-th of its task, as the task keeps them. -/
def Frame.regions (f : Frame) (depth : Nat) (opens : List OpenTry) : List TryBlock :=
  opens.map fun t => ⟨t.handler, f.base + t.locals.length, depth⟩

/-- The frame stands behind an instruction that can make it wait. -/
def Frame.Waits (g : Function) (f : Frame) : Prop :=
  ∃ listing x i, g.chunk.Sound listing ∧ (x, i) ∈ listing ∧ i.waits = true ∧ f.ip = x + i.size

section

variable {N : Function → Nat → Note} {fs : Array Function}

/-- The function has a sound chunk, and `N` has its layout. -/
structure Function.IsPlanned (N : Function → Nat → Note) (g : Function) : Prop where
  sound : g.IsSound
  planned : g.Planned (N g)

/-- The frames `F` wait for the function that lies below position `base`.  They have the regions
`R`. -/
def Callers (N : Function → Nat → Note) (fs : Array Function) :
    Nat → List Frame → List TryBlock → Prop
  | base, [], R => base = 1 ∧ R = []
  | base, f :: F, R => ∃ g outer, fs[f.function.index]? = some g ∧ f.Waits g ∧
      base = f.base + (N g f.ip).height ∧
      R = f.regions (F.length + 1) (N g f.ip).opens ++ outer ∧ Callers N fs f.base F outer

/-- The frame `f` of the function `g` is the innermost of the task, above the frames `F`, which have
the regions `outer`. -/
structure Task.Runs (N : Function → Nat → Note) (fs : Array Function) (t : Task) (f : Frame)
    (F : List Frame) (g : Function) (outer : List TryBlock) : Prop where
  frames : t.frames = f :: F
  function : fs[f.function.index]? = some g
  size : t.stack.size = f.base + (N g f.ip).height
  tries : t.tries = f.regions (F.length + 1) (N g f.ip).opens ++ outer
  callers : Callers N fs f.base F outer
  waits : t.awaiting = true → f.Waits g

/-- The frames of the task lie on the stack as their layouts say. -/
def Task.Stacked (N : Function → Nat → Note) (fs : Array Function) (t : Task) : Prop :=
  ∃ f F g outer, t.Runs N fs f F g outer

theorem Frame.mem_regions {f : Frame} {depth : Nat} {opens : List OpenTry} {b : TryBlock}
    (hb : b ∈ f.regions depth opens) : b.frameDepth = depth := by
  obtain ⟨t, -, rfl⟩ := mem_map.mp hb
  rfl

theorem Instr.Fits.behind {M : Nat → Note} (h : i.Fits M x)
    (hi : i.waits = true) :
    Arrives .stack M (x + i.size) { M x with height := (M x).height - i.takes + 1 } := by
  obtain ⟨ν, hν, harrives⟩ := h.next (Instr.falls_of_waits hi)
  have htry := Instr.isTry_of_waits hi
  cases hν with
  | plain _ => rwa [Instr.gives_of_waits hi] at harrives
  | opened hi | closed hi =>
    rw [hi] at htry
    cases htry

theorem Frame.Waits.fits {g : Function} {f : Frame} (h : f.Waits g) (hg : g.IsPlanned N) :
    ∃ (x : Nat) (i : Instr), i.Fits (N g) x ∧ i.waits = true ∧ f.ip = x + i.size ∧
      Arrives .stack (N g) f.ip { N g x with height := (N g x).height - i.takes + 1 } := by
  obtain ⟨listing, x, i, hsound, hi, hwaits, hip⟩ := h
  have hfits := hg.planned.fits listing hsound x i hi
  exact ⟨x, i, hfits, hwaits, hip, hip ▸ hfits.behind hwaits⟩

namespace Callers

variable {base : Nat} {f : Frame} {F : List Frame} {R : List TryBlock}

theorem depth_le (h : Callers N fs base F R) : ∀ b ∈ R, b.frameDepth ≤ F.length := by
  induction F generalizing base R with
  | nil =>
    rw [h.2]
    nofun
  | cons f F ih =>
    obtain ⟨g, outer, -, -, -, rfl, hcallers⟩ := h
    intro b hb
    rcases mem_append.mp hb with hb | hb
    · exact Nat.le_of_eq (Frame.mem_regions hb)
    · exact Nat.le_succ_of_le (ih hcallers b hb)

/-- Below the first value of a frame there is always the function that has been called. -/
theorem one_le (h : Callers N fs base F R) (hfs : ∀ g ∈ fs, g.IsPlanned N) : 1 ≤ base := by
  cases F with
  | nil => exact Nat.le_of_eq h.1.symm
  | cons f F =>
    obtain ⟨g, outer, hg, hwaits, rfl, -, -⟩ := h
    obtain ⟨x, i, -, -, -, harrives⟩ := hwaits.fits (hfs g (Array.mem_of_getElem? hg))
    rw [harrives.height]
    show 1 ≤ f.base + ((N g x).height - i.takes + 1)
    omega

/-- What the regions keep lies below the function that has been called. -/
theorem margin (h : Callers N fs base F R) (hfs : ∀ g ∈ fs, g.IsPlanned N) :
    ∀ b ∈ R, b.stackDepth < base := by
  induction F generalizing base R with
  | nil =>
    rw [h.2]
    nofun
  | cons f F ih =>
    obtain ⟨g, outer, hg, hwaits, rfl, rfl, hcallers⟩ := h
    obtain ⟨x, i, hfits, -, -, harrives⟩ := hwaits.fits (hfs g (Array.mem_of_getElem? hg))
    have hheight : (N g f.ip).height = (N g x).height - i.takes + 1 := harrives.height
    intro b hb
    rcases mem_append.mp hb with hb | hb
    · rw [harrives.opens] at hb
      obtain ⟨o, ho, rfl⟩ := mem_map.mp hb
      have hmargin := hfits.margin o ho
      show f.base + o.locals.length < _
      omega
    · have hlt := ih hcallers b hb
      omega

theorem more (h : Callers N fs base F R) (new : Array Function) :
    Callers N (fs ++ new) base F R := by
  induction F generalizing base R with
  | nil => exact h
  | cons f F ih =>
    obtain ⟨g, outer, hg, hwaits, hbase, hR, hcallers⟩ := h
    refine ⟨g, outer, ?_, hwaits, hbase, hR, ih hcallers⟩
    obtain ⟨hlt, -⟩ := Array.getElem?_eq_some_iff.mp hg
    rw [Array.getElem?_append_left hlt, hg]

end Callers

/-! ### Steps -/

variable {t : Task} {f : Frame} {F : List Frame} {g : Function} {outer : List TryBlock}

theorem Frame.Waits.withIp {listing : List (Nat × Instr)}
    (hsound : g.chunk.Sound listing) (hi : (x, i) ∈ listing) (hwaits : i.waits = true) (f : Frame) :
    Frame.Waits g { f with ip := x + i.size } :=
  ⟨listing, x, i, hsound, hi, hwaits, rfl⟩

theorem Instr.Fits.reaches {M : Nat → Note} {y : Nat} (h : i.Fits M x)
    (hy : i.Reaches (x + i.size) y) : ∃ ν, (M x).Next x i ν ∧ Arrives .stack M y ν := by
  rcases hy with ⟨hfalls, rfl⟩ | ⟨htry, hy⟩
  · exact h.next hfalls
  · exact ⟨_, .plain htry, h.jumps htry y hy⟩

theorem Note.Next.height {ν ν' : Note} (h : ν.Next x i ν') :
    ν'.height = ν.height - i.takes + i.gives := by
  cases h with
  | plain => rfl
  | opened hi | closed hi => rw [hi]; rfl

theorem Note.Next.tries {depth : Nat} {ν ν' : Note} (h : ν.Next x i ν') (f : Frame)
    (outer : List TryBlock) :
    i.triesBehind { f with ip := x + i.size } depth (f.base + (ν.height - i.takes))
      (f.regions depth ν.opens ++ outer) = f.regions depth ν'.opens ++ outer := by
  cases h with
  | plain htry => cases i <;> first | rfl | cases htry
  | opened hi hhandler _ hlocals =>
    subst hi
    show (⟨_, f.base + ν.height, depth⟩ : TryBlock) :: _ =
      (⟨_, f.base + _, depth⟩ : TryBlock) :: _
    rw [hhandler, hlocals]
    rfl
  | closed hi hopens =>
    subst hi
    rw [hopens]
    rfl

/-- The task without what lies below its innermost frame, as it is when the instruction `i` has been
fetched. -/
structure Task.Fetched (t1 t : Task) (f : Frame) (F : List Frame) (i : Instr) (height : Nat) :
    Prop where
  frames : t1.frames = { f with ip := f.ip + i.size } :: F
  tries : t1.tries = t.tries
  awaiting : t1.awaiting = false
  size : t1.stack.size = height

namespace Task.Runs

theorem more (h : t.Runs N fs f F g outer) (new : Array Function) :
    t.Runs N (fs ++ new) f F g outer := by
  obtain ⟨hlt, -⟩ := Array.getElem?_eq_some_iff.mp h.function
  refine ⟨h.frames, ?_, h.size, h.tries, h.callers.more new, h.waits⟩
  rw [Array.getElem?_append_left hlt, h.function]

variable {i : Instr} {listing : List (Nat × Instr)} {m : Machine} {lo : Array Value} {t1 : Task}
  {height : Nat}

/-- The instruction goes on in its frame. -/
theorem stays (h : t.Runs N fs f F g outer) (hsound : g.chunk.Sound listing)
    (hi : (f.ip, i) ∈ listing) (hfits : i.Fits (N g) f.ip)
    (ht1 : t1.Fetched t f F i (N g f.ip).height)
    (hm : Exec.StaysIn { f with ip := f.ip + i.size } F t1 i m) (hlo : lo.size = f.base) :
    (m.onto lo).task.Stacked N fs := by
  obtain ⟨y, hy, hframes⟩ := hm.frames
  obtain ⟨ν, hν, harrives⟩ := hfits.reaches hy
  refine ⟨{ f with ip := y }, F, g, outer, hframes, h.function, ?_, ?_, h.callers,
    fun hawaiting => ?_⟩
  · show (lo ++ m.task.stack).size = f.base + (N g y).height
    rw [Array.size_append, hlo, hm.size, ht1.size, harrives.height, hν.height]
  · have htries := hm.tries
    rw [ht1.tries, h.tries, ht1.size] at htries
    rw [harrives.opens]
    exact htries.trans (hν.tries f outer)
  · have hwaits : i.waits = true := by
      refine (hm.awaiting hawaiting).resolve_left ?_
      rw [ht1.awaiting]
      nofun
    obtain rfl := hy.of_waits hwaits
    exact .withIp hsound hi hwaits f

/-- The instruction calls a function. -/
theorem calls (h : t.Runs N fs f F g outer) (hfs : ∀ g ∈ fs, g.IsPlanned N)
    (hsound : g.chunk.Sound listing) (hi : (f.ip, i) ∈ listing) (hfits : i.Fits (N g) f.ip)
    (ht1 : t1.Fetched t f F i (N g f.ip).height)
    (hm : Exec.CallsFrom { f with ip := f.ip + i.size } t1 i m) (hlo : lo.size = f.base)
    (hfunctions : m.heap.functions = fs) (hplaced : (m.onto lo).task.Placed fs) :
    (m.onto lo).task.Stacked N fs := by
  obtain ⟨r, hframes, hsize⟩ := hm.frames
  rw [ht1.frames, ht1.size] at hframes
  obtain ⟨g', -, -, hg', -, -⟩ := hplaced.frames _ (hframes ▸ mem_cons_self)
  have hwaits : Frame.Waits g { f with ip := f.ip + i.size } := .withIp hsound hi hm.waits f
  have hbehind := hfits.behind hm.waits
  have hentry := (hfs g' (Array.mem_of_getElem? hg')).planned.entry
  refine ⟨_, { f with ip := f.ip + i.size } :: F, g', t.tries, hframes, hg', ?_, ?_,
    ⟨g, outer, h.function, hwaits, ?_, ?_, h.callers⟩, fun hawaiting => ?_⟩
  · show (lo ++ m.task.stack).size = _ + (N g' 0).height
    rw [Array.size_append, hlo, hsize, ht1.size, hentry.height, Heap.function, hfunctions, hg']
    show f.base + ((N g f.ip).height - i.takes + (g'.arity + 1)) =
      f.base + ((N g f.ip).height - i.takes) + 1 + g'.arity
    omega
  · rw [hentry.opens]
    exact hm.tries.trans ht1.tries
  · show f.base + ((N g f.ip).height - i.takes) + 1 = f.base + (N g (f.ip + i.size)).height
    rw [hbehind.height]
    rfl
  · show t.tries = f.regions (F.length + 1) (N g (f.ip + i.size)).opens ++ outer
    rw [hbehind.opens, h.tries]
  · cases (hm.awaiting.trans ht1.awaiting).symm.trans hawaiting

theorem returns (h : t.Runs N fs f F g outer) (hfs : ∀ g ∈ fs, g.IsPlanned N) {flow : Flow}
    (ht1 : t1.Fetched t f F i height) (hm : Exec.Returns F t1 flow m)
    (hflow : ∀ v, flow ≠ .finished v) (hlo : lo.size = f.base - 1) :
    (m.onto lo).task.Stacked N fs := by
  have hone := h.callers.one_le hfs
  have htries : m.task.tries = outer := by
    rw [hm.tries, ht1.tries, h.tries, List.filter_append]
    have hown : (f.regions (F.length + 1) (N g f.ip).opens).filter
        (fun b => decide (b.frameDepth ≤ F.length)) = [] := by
      refine List.filter_eq_nil_iff.mpr fun b hb => ?_
      rw [Frame.mem_regions hb, decide_eq_true_eq]
      omega
    have houter : outer.filter (fun b => decide (b.frameDepth ≤ F.length)) = outer :=
      List.filter_eq_self.mpr fun b hb => decide_eq_true (h.callers.depth_le b hb)
    rw [hown, houter, nil_append]
  obtain ⟨v, -, ⟨-, hfinished, -⟩ | ⟨hne, -, hstack⟩⟩ := hm.result
  · exact absurd hfinished (hflow v)
  cases F with
  | nil => exact absurd rfl hne
  | cons f' F =>
    obtain ⟨g', outer', hg', hwaits, hbase, hregions, hcallers⟩ := h.callers
    refine ⟨f', F, g', outer', hm.frames, hg', ?_, htries.trans hregions, hcallers, fun _ => hwaits⟩
    show (lo ++ m.task.stack).size = _
    rw [Array.size_append, hlo, hstack, ← hbase]
    show f.base - 1 + 1 = f.base
    omega

end Task.Runs

/-! ### Failures -/

theorem stacked_recover {front : List Frame} {o : OpenTry}
    {os : List OpenTry} (hrec : t.recover? message = some t')
    (hframes : t.frames = front ++ f :: F) (hg : fs[f.function.index]? = some g)
    (htries : t.tries = f.regions (F.length + 1) (o :: os) ++ outer)
    (hcallers : Callers N fs f.base F outer) (hsize : f.base + o.locals.length ≤ t.stack.size)
    (harrives : Arrives .stack (N g) o.handler ⟨o.locals.length + 1, os, []⟩) :
    t'.Stacked N fs := by
  have hdrop : t.frames.drop (t.frames.length - (F.length + 1)) = f :: F := by
    rw [hframes, length_append, length_cons, Nat.add_sub_cancel, drop_left]
  have htries : t.tries = ⟨o.handler, f.base + o.locals.length, F.length + 1⟩ ::
      (f.regions (F.length + 1) os ++ outer) := htries
  rw [Task.recover?, htries] at hrec
  dsimp only at hrec
  rw [hdrop] at hrec
  cases hrec
  refine ⟨{ f with ip := o.handler }, F, g, outer, rfl, hg, ?_, ?_, hcallers, (by rintro ⟨⟩)⟩
  · show ((t.stack.take (f.base + o.locals.length)).push (.str message)).size =
      f.base + (N g o.handler).height
    rw [harrives.height, Array.size_push, Array.size_extract]
    show min _ _ - 0 + 1 = f.base + (o.locals.length + 1)
    omega
  · show _ = f.regions (F.length + 1) (N g o.handler).opens ++ outer
    rw [harrives.opens]

/-- A failure leads to a handler of the frame, or of one of its callers.  `i` is the instruction at
`x` that has failed, or that the frame has waited at. -/
theorem stacked_unwind {front : List Frame} {ip : Nat} (hg : fs[f.function.index]? = some g)
    (hcallers : Callers N fs f.base F outer) (hfits : i.Fits (N g) x) (hi : i.isQuiet = false)
    (hframes : t.frames = front ++ { f with ip := ip } :: F)
    (htries : t.tries = f.regions (F.length + 1) (N g x).opens ++ outer)
    (hsize : f.base + ((N g x).height - i.takes) ≤ t.stack.size)
    (hrec : t.recover? message = some t') (houter : t.tries = outer → t'.Stacked N fs) :
    t'.Stacked N fs := by
  cases hcase : (N g x).opens with
  | nil =>
    rw [hcase] at htries
    exact houter htries
  | cons o os =>
    rw [hcase] at htries
    have hfails := hfits.fails hi
    have hmargin := hfits.margin o (by rw [hcase]; exact mem_cons_self)
    rw [hcase] at hfails
    exact stacked_recover hrec hframes hg htries hcallers (by show f.base + _ ≤ _; omega) hfails

theorem Callers.recover {base : Nat} {R : List TryBlock} (h : Callers N fs base F R)
    (hfs : ∀ g ∈ fs, g.IsPlanned N) {front : List Frame}
    (hframes : t.frames = front ++ F) (htries : t.tries = R) (hsize : base ≤ t.stack.size + 1)
    (hrec : t.recover? message = some t') : t'.Stacked N fs := by
  induction F generalizing base R front with
  | nil =>
    rw [Task.recover?, htries, h.2] at hrec
    cases hrec
  | cons f F ih =>
    obtain ⟨g, outer, hg, hwaits, rfl, rfl, hcallers⟩ := h
    obtain ⟨x, i, hfits, hi, hip, harrives⟩ := hwaits.fits (hfs g (Array.mem_of_getElem? hg))
    have hheight : (N g f.ip).height = (N g x).height - i.takes + 1 := harrives.height
    rw [harrives.opens] at htries
    exact stacked_unwind hg hcallers hfits (Instr.isQuiet_of_waits hi) hframes htries (by omega)
      hrec fun htries => ih hcallers (by rw [hframes, List.append_cons]) htries (by omega)

/-! ### Always -/

structure Machine.Takes (N : Function → Nat → Note) (m : Machine) (f : Frame)
    (g : Function) (i : Instr) : Prop where
  listed : ∃ listing, g.chunk.Sound listing ∧ (f.ip, i) ∈ listing
  fits : i.Fits (N g) f.ip
  decode : decode (m.heap.function f.function).chunk.code f.ip = .ok (i, f.ip + i.size)
  awaiting : m.task.awaiting = false

section

variable {m : Machine} {env : Env} {i : Instr}

/-- A quiet instruction does not fail. -/
theorem Machine.Takes.run_quiet (hi : m.Takes N f g i) (h : m.task.Runs N fs f F g outer)
    (hquiet : i.isQuiet = true) (env : Env) : ∃ m', (Exec.step env).run m = .ok .next m' := by
  simp only [Exec.step, EStateM.run_bind, Exec.run_fetch h.frames, hi.decode]
  refine Exec.run_quiet env rfl hquiet ?_
  show i.takes ≤ m.task.stack.size
  rw [h.size]
  exact Nat.le_trans hi.fits.enough (Nat.le_add_left _ _)

/-- An instruction that does not return stays in its frame. -/
theorem Task.Runs.confined (h : m.task.Runs N fs f F g outer) (hi : m.Takes N f g i)
    (hret : i ≠ .ret) (env : Env) :
    ∃ (own : Machine) (lo : Array Value) (t1 : Task), m = own.onto lo ∧ lo.size = f.base ∧
      t1.Fetched m.task f F i (N g f.ip).height ∧ t1.stack = own.task.stack ∧
      Confined f.base (Exec.step env) own
        (fun _ m' => Exec.Makes { f with ip := f.ip + i.size } F t1 i m')
        (fun m' => Exec.Left i.takes t1.stack m'.task.stack) := by
  have hheight : (N g f.ip).height ≤ m.task.stack.size := by rw [h.size]; omega
  obtain ⟨lo, own, hown, hlo, hsize⟩ := m.exists_onto hheight
  have hlo : lo.size = f.base := by simp [hlo, h.size]
  refine ⟨m.on own, lo, { m.task with frames := { f with ip := f.ip + i.size } :: F, stack := own },
    hown, hlo, ⟨rfl, rfl, hi.awaiting, hsize⟩, rfl, Exec.confined_step h.frames hi.decode ?_⟩
  refine Exec.confined_execute (f := { f with ip := f.ip + i.size }) env rfl hret ?_ ?_
  · intro slot hslot
    exact Nat.lt_of_lt_of_eq (hi.fits.slot slot hslot) hsize.symm
  · exact Nat.le_trans hi.fits.enough (Nat.le_of_eq hsize.symm)

/-- So does the end of a wait. -/
theorem Task.Runs.confined_await (h : m.task.Runs N fs f F g outer) (hfs : ∀ g ∈ fs, g.IsPlanned N)
    (hawaiting : m.task.awaiting = true) :
    ∃ (own : Machine) (lo : Array Value), m = own.onto lo ∧ lo.size = f.base ∧
      own.task.stack.size = (N g f.ip).height ∧
      Confined f.base (Exec.andNext Exec.finishAwait) own
        (fun flow m' => flow = .next ∧
          m'.Like { m.task with awaiting := false } (N g f.ip).height)
        (fun m' => Exec.Left 1 own.task.stack m'.task.stack) := by
  obtain ⟨x, i, -, -, -, hbehind⟩ :=
    (h.waits hawaiting).fits (hfs g (Array.mem_of_getElem? h.function))
  have hone : 1 ≤ (N g f.ip).height := by rw [hbehind.height]; exact Nat.le_add_left 1 _
  have hheight : (N g f.ip).height ≤ m.task.stack.size := by rw [h.size]; omega
  obtain ⟨lo, own, hown, hlo, hsize⟩ := m.exists_onto hheight
  have hlo : lo.size = f.base := by simp [hlo, h.size]
  refine ⟨m.on own, lo, hown, hlo, hsize, Exec.confined_andNext
    (Q := fun _ m' => m'.Like { m.task with awaiting := false } (N g f.ip).height) ?_⟩
  refine (Exec.confined_finishAwait ?_ f.base).mono ?_ ?_
  · rw [Machine.task_stack_on, hsize]
    exact hone
  · intro _ m' hm'
    rw [Machine.task_stack_on, hsize] at hm'
    exact ⟨⟨hm'.frames, hm'.tries, hm'.awaiting⟩, hm'.size⟩
  · exact fun m' hm' => hm'

/-- A return takes the function away that has been called, and leaves the result in its place. -/
theorem Task.Runs.confined_ret (h : m.task.Runs N fs f F g outer) (hfs : ∀ g ∈ fs, g.IsPlanned N)
    (hi : m.Takes N f g .ret) (env : Env) :
    ∃ (own : Machine) (lo : Array Value) (t1 : Task), m = own.onto lo ∧ lo.size = f.base - 1 ∧
      t1.Fetched m.task f F .ret ((N g f.ip).height + 1) ∧
      Confined (f.base - 1) (Exec.step env) own
        (fun flow m' => Exec.Returns F t1 flow m') (fun _ => False) := by
  have hone := h.callers.one_le hfs
  have hheight : (N g f.ip).height + 1 ≤ m.task.stack.size := by rw [h.size]; omega
  obtain ⟨lo, own, hown, hlo, hsize⟩ := m.exists_onto hheight
  have hlo : lo.size = f.base - 1 := by
    simp [hlo, h.size]
    omega
  refine ⟨m.on own, lo, { m.task with frames := { f with ip := f.ip + 1 } :: F, stack := own },
    hown, hlo, ⟨rfl, rfl, hi.awaiting, hsize⟩, Exec.confined_step h.frames hi.decode ?_⟩
  refine Exec.confined_ret (f := { f with ip := f.ip + 1 }) env rfl ?_
  exact Nat.le_trans (Nat.le_add_left 1 _) (Nat.le_of_eq hsize.symm)

end

theorem stacked_starts (hfs : ∀ g ∈ fs, g.IsPlanned N) : Starts fs (Task.Stacked N fs) := by
  intro id r args p hr _ harity
  have hg : fs[r.index]? = some fs[r.index] := Array.getElem?_eq_getElem hr
  have hentry := (hfs fs[r.index] (Array.getElem_mem hr)).planned.entry
  refine ⟨⟨r, 0, 1⟩, [], fs[r.index], [], rfl, hg, ?_, ?_, ⟨rfl, rfl⟩, nofun⟩
  · rw [hg, Option.getD_some] at harity
    show (Value.function r :: args).toArray.size = 1 + (N fs[r.index] 0).height
    rw [hentry.height, size_toArray, length_cons, harity]
    exact Nat.add_comm _ 1
  · show [] = _
    rw [hentry.opens]
    rfl

theorem Machine.Runs.mono {J J' : Task → Prop} {m : Machine} (h : m.Runs fs J)
    (hJ : ∀ t, J t → J' t) : m.Runs fs J' :=
  { h with
    ready := fun t ht => hJ t (h.ready t ht)
    waiting := fun t ht => hJ t (h.waiting t ht) }

section

variable {m m' : Machine} {env : Env}

theorem World.taskAction_awaiting {t : Task} (h : t.awaiting = true) :
    World.taskAction env t = Exec.andNext Exec.finishAwait := if_pos h

theorem World.taskAction_running {t : Task} (h : t.awaiting = false) :
    World.taskAction env t = Exec.step env := if_neg (by rw [h]; nofun)

theorem Exec.Left.onto {n : Nat} {old new : Array Value} (h : Exec.Left n old new)
    (lo : Array Value) :
    ∃ more, lo ++ new = (lo ++ old).take (lo.size + (old.size - n)) ++ more := by
  obtain ⟨more, rfl⟩ := h
  have hlo : lo.extract 0 (lo.size + (old.size - n)) = lo := by simp
  exact ⟨more, by simp [← Array.append_assoc, Array.extract_append, hlo]⟩

variable (h : m.task.Runs N fs f F g outer) (hplaced : m.task.Placed fs)
  (hfs : ∀ g ∈ fs, g.IsPlanned N) (hfunctions : m.heap.functions = fs)

include h hplaced hfs hfunctions

theorem Task.Runs.takes (hawaiting : m.task.awaiting = false) : ∃ i, m.Takes N f g i := by
  obtain ⟨g', listing, i, hg', hsound, hi⟩ := hplaced.frames f (h.frames ▸ mem_cons_self)
  obtain rfl : g' = g := Option.some.inj (hg'.symm.trans h.function)
  obtain ⟨next, hd⟩ := hsound.reads.decode hi
  have hplanned := (hfs g' (Array.mem_of_getElem? hg')).planned
  refine ⟨i, ⟨listing, hsound, hi⟩, hplanned.fits _ hsound _ _ hi, ?_, hawaiting⟩
  rw [Heap.function, hfunctions, hg', Option.getD_some, hd, decode_next hd]

theorem Task.Runs.stacked_step (hfunctions' : m'.heap.functions = fs)
    (hplaced' : m'.task.Placed fs) {flow : Flow}
    (hrun : (World.taskAction env m.task).run m = .ok flow m') (hflow : ∀ v, flow ≠ .finished v) :
    m'.task.Stacked N fs := by
  cases hawaiting : m.task.awaiting with
  | true =>
    rw [World.taskAction_awaiting hawaiting] at hrun
    obtain ⟨own, lo, hown, hlo, -, hconfined⟩ := h.confined_await hfs hawaiting
    rw [hown] at hrun
    obtain ⟨m1, rfl, -, hlike⟩ := hconfined.ok hlo hrun
    refine ⟨f, F, g, outer, hlike.frames.trans h.frames, h.function, ?_,
      hlike.tries.trans h.tries, h.callers, fun htrue => nomatch hlike.awaiting.symm.trans htrue⟩
    show (lo ++ m1.task.stack).size = _
    rw [Array.size_append, hlo, hlike.size]
  | false =>
    rw [World.taskAction_running hawaiting] at hrun
    obtain ⟨i, hi⟩ := h.takes hplaced hfs hfunctions hawaiting
    by_cases hret : i = .ret
    · subst hret
      obtain ⟨own, lo, t1, rfl, hlo, ht1, hconfined⟩ := h.confined_ret hfs hi env
      obtain ⟨m1, rfl, hreturns⟩ := hconfined.ok hlo hrun
      exact h.returns hfs ht1 hreturns hflow hlo
    · obtain ⟨own, lo, t1, rfl, hlo, ht1, -, hconfined⟩ := h.confined hi hret env
      obtain ⟨m1, rfl, hstays | hcalls⟩ := hconfined.ok hlo hrun
      · obtain ⟨listing, hsound, hlisted⟩ := hi.listed
        exact h.stays hsound hlisted hi.fits ht1 hstays hlo
      · obtain ⟨listing, hsound, hlisted⟩ := hi.listed
        exact h.calls hfs hsound hlisted hi.fits ht1 hcalls hlo hfunctions' hplaced'

theorem Task.Runs.failure {e : Fault}
    (hrun : (World.taskAction env m.task).run m = .error e m') :
    e.blamesStack = false ∧ ∃ (x : Nat) (i : Instr), i.Fits (N g) x ∧ i.isQuiet = false ∧
      (N g f.ip).opens = (N g x).opens ∧ (N g x).height - i.takes ≤ (N g f.ip).height ∧
      ∃ more, m'.task.stack =
        m.task.stack.take (f.base + ((N g x).height - i.takes)) ++ more := by
  cases hawaiting : m.task.awaiting with
  | true =>
    rw [World.taskAction_awaiting hawaiting] at hrun
    obtain ⟨own, lo, rfl, hlo, hsize, hconfined⟩ := h.confined_await hfs hawaiting
    obtain ⟨hblames, m1, rfl, hleft⟩ := hconfined.error hlo hrun
    obtain ⟨x, i, hfits, hi, hip, hbehind⟩ :=
      (h.waits hawaiting).fits (hfs g (Array.mem_of_getElem? h.function))
    have hheight : (N g f.ip).height = (N g x).height - i.takes + 1 := hbehind.height
    obtain ⟨more, hmore⟩ := hleft.onto lo
    rw [hlo, hsize, hheight, Nat.add_sub_cancel] at hmore
    exact ⟨hblames, x, i, hfits, Instr.isQuiet_of_waits hi, hbehind.opens, by omega, more, hmore⟩
  | false =>
    rw [World.taskAction_running hawaiting] at hrun
    obtain ⟨i, hi⟩ := h.takes hplaced hfs hfunctions hawaiting
    have hquiet : i.isQuiet = false := by
      refine eq_false_of_ne_true fun hquiet => ?_
      obtain ⟨m1, hm1⟩ := hi.run_quiet h hquiet env
      cases hm1.symm.trans hrun
    have hret : i ≠ .ret := by
      rintro rfl
      obtain ⟨own, lo, t1, rfl, hlo, -, hconfined⟩ := h.confined_ret hfs hi env
      obtain ⟨-, -, -, himpossible⟩ := hconfined.error hlo hrun
      exact himpossible
    obtain ⟨own, lo, t1, rfl, hlo, ht1, hstack, hconfined⟩ := h.confined hi hret env
    obtain ⟨hblames, m1, rfl, hleft⟩ := hconfined.error hlo hrun
    obtain ⟨more, hmore⟩ := hleft.onto lo
    rw [hlo, ht1.size, hstack] at hmore
    exact ⟨hblames, f.ip, i, hi.fits, hquiet, rfl, Nat.sub_le _ _, more, hmore⟩

/-- A failure behind which the task goes on leaves it stacked. -/
theorem Task.Runs.stacked_recover {e : Fault} {ip : Nat}
    (hframes : m'.task.frames = { f with ip := ip } :: F)
    (htries : m'.task.tries = m.task.tries)
    (hrun : (World.taskAction env m.task).run m = .error e m')
    (hrec : m'.task.recover? message = some t') : t'.Stacked N fs := by
  obtain ⟨-, x, i, hfits, hquiet, hopens, hle, more, hstack⟩ :=
    h.failure hplaced hfs hfunctions hrun
  rw [h.tries, hopens] at htries
  have hsize : f.base + ((N g x).height - i.takes) ≤ m'.task.stack.size := by
    have hsize := h.size
    rw [hstack, Array.size_append, Array.size_extract]
    omega
  have hfront : m'.task.frames = [] ++ { f with ip := ip } :: F := hframes
  refine stacked_unwind h.function h.callers hfits hquiet hfront htries hsize hrec fun htries => ?_
  exact h.callers.recover hfs (singleton_append ▸ hframes) htries (by omega) hrec

end

theorem stacked_lasting : Lasting (Function.IsPlanned N)
    (fun fs t => t.Placed fs ∧ t.Stacked N fs) where
  more new h :=
    let ⟨f, F, g, outer, hruns⟩ := h.2
    ⟨placed_lasting.more new h.1, f, F, g, outer, hruns.more new⟩
  start hfs hknown id r args p hr hargs harity :=
    ⟨placed_lasting.start (fun g hg => (hfs g hg).sound) hknown id r args p hr hargs harity,
      stacked_starts hfs id r args p hr hargs harity⟩
  step {fs env m flow m'} hfs hknown hm ht hrun hflow := by
    have hsound : ∀ g ∈ fs, g.IsSound := fun g hg => (hfs g hg).sound
    have hm1 : m.Runs fs (Task.Fine Task.Placed fs) := hm.mono fun t ht => ⟨ht.1.1, ht.2⟩
    have hplaced' := placed_lasting.step hsound hknown hm1 ht.1 hrun hflow
    obtain ⟨f, F, g, outer, hruns⟩ := ht.2
    have hends := Exec.taskAction_runs hknown (placed_starts hsound).fine env hm1
    rw [hrun] at hends
    exact ⟨hplaced', hruns.stacked_step ht.1 hfs hm.functions hends.1.functions hplaced' hrun hflow⟩
  recover {fs env m cause m' message t} hfs hknown hm ht hrun hrec := by
    have hsound : ∀ g ∈ fs, g.IsSound := fun g hg => (hfs g hg).sound
    have hm1 : m.Runs fs (Task.Fine Task.Placed fs) := hm.mono fun t ht => ⟨ht.1.1, ht.2⟩
    obtain ⟨f, F, g, outer, hruns⟩ := ht.2
    have hmoves := Exec.taskAction_moves hknown (placed_starts hsound).fine env
      ⟨hm1, hruns.frames, rfl⟩
    rw [hrun] at hmoves
    obtain ⟨ip, hm'⟩ := hmoves
    exact ⟨placed_lasting.recover hsound hknown hm1 ht.1 hrun hrec,
      hruns.stacked_recover ht.1 hfs hm.functions hm'.frames hm'.tries hrun hrec⟩

end

end TaskBasic
