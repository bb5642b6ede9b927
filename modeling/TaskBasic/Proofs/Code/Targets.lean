import TaskBasic.Proofs.Code.Emits

/-
Where jumps lead, and which constants instructions name.

* `Instr.targets` — the offsets that an instruction can lead to besides the next.
* `Instr.Pooled` — the constants that an instruction names are in the pool, and
  are texts where a name is needed.
* `Fragment.Aims` — the instructions of a fragment lead to its own seams and to
  given places outside of it, and name constants in the pool.  `Aims.seq` puts
  fragments together, and `Aims.across` lets both parts lead to the place where
  they meet.

`Emits.aimed` says that the code of every phrase is aimed at its own seams and at
the exits of the loop around it.
-/

namespace TaskBasic

open Compile Fragment

variable {i : Instr} {line o target : Nat} {F : Fragment} {d d' : Draft}

namespace Instr

/-- The offsets that an instruction can lead to besides `next`, the offset behind it. -/
def targets (next : Nat) : Instr → List Nat
  | jump n | jumpIfFalse n | jumpIfTrue n | tryBegin n => [next + n.toNat]
  | loop n => [next - n.toNat]
  | _ => []

def Pooled (pool : Array Value) : Instr → Prop
  | constant k => ∃ v, pool[k.toNat]? = some v
  | getGlobal k | setGlobal k | callNamed k _ | spawnNamed k _ | importModule k | debug k =>
    ∃ s, pool[k.toNat]? = some (.str s)
  | _ => True

end Instr

/-- A jump backward does not lead before the first byte; `next` is the offset behind it. -/
def Instr.InCode (next : Nat) : Instr → Prop
  | loop n => n.toNat ≤ next
  | _ => True

/-- The instructions that `make` makes lead forward by their operand. -/
def Leaps (make : UInt16 → Instr) : Prop :=
  ∀ n next, (make n).targets next = [next + n.toNat] ∧ (make n).InCode next ∧
    ∀ pool, (make n).Pooled pool

theorem leaps_jump : Leaps .jump := fun _ _ => ⟨rfl, trivial, fun _ => trivial⟩

theorem leaps_jumpIfFalse : Leaps .jumpIfFalse := fun _ _ => ⟨rfl, trivial, fun _ => trivial⟩

theorem leaps_jumpIfTrue : Leaps .jumpIfTrue := fun _ _ => ⟨rfl, trivial, fun _ => trivial⟩

theorem leaps_tryBegin : Leaps .tryBegin := fun _ _ => ⟨rfl, trivial, fun _ => trivial⟩

theorem Instr.inCode_of_targets {next : Nat} (h : i.targets next = []) : i.InCode next := by
  cases i with
  | loop n => cases h
  | _ => trivial

theorem constant_pooled {v : Value} {k : UInt16} {pool : Array Value}
    (h : (constant v).run d = .ok (k, d'))
    (hpool : Extends d'.constants pool) : pool[k.toNat]? = some v := hpool _ _ (constant_at h)

/-- The step at offset `o` leads to places where `B` holds, and its constants are in the pool. -/
def Step.Aimed (B : Nat → Prop) (pool : Array Value) (exits : Exit → Nat) (o : Nat) : Step → Prop
  | .instr i => (∀ y ∈ i.targets (o + i.size), B y) ∧ i.InCode (o + i.size) ∧ i.Pooled pool
  | .exit e => B (exits e)

namespace Fragment

variable {B E : Nat → Prop} {exits : Exit → Nat} {o m o' : Nat} {F F' G : Fragment}
  {pool : Array Value}

theorem aimed_plains {ps : List Piece} (h : ∀ p ∈ ps, ∃ i, p.step = .instr i ∧
    (∀ next, i.targets next = []) ∧ i.Pooled pool) : Each (Step.Aimed B pool exits) o ps := by
  induction ps generalizing o with
  | nil => trivial
  | cons p ps ih =>
    obtain ⟨i, hi, htargets, hpooled⟩ := h p (List.mem_cons_self ..)
    refine ⟨?_, ih fun q hq => h q (List.mem_cons_of_mem _ hq)⟩
    rw [hi]
    exact ⟨by rw [htargets]; nofun, Instr.inCode_of_targets (htargets (o + i.size)), hpooled⟩

theorem retarget_append (e : Exit) (ps qs : List Piece) : retarget e target o (ps ++ qs) =
    retarget e target o ps ++ retarget e target (o + span ps) qs := by
  induction ps generalizing o with
  | nil => rfl
  | cons p ps ih =>
    rw [List.cons_append, retarget, retarget, ih, List.cons_append, span_cons, Nat.add_assoc]

/-- An offset between two pieces of the fragment, which begins at offset `o`, or at one of its
ends. -/
def Seam (o : Nat) (F : Fragment) (y : Nat) : Prop :=
  ∃ ps qs, F.toList = ps ++ qs ∧ y = o + span ps

namespace Seam

variable {y : Nat}

theorem first : Seam o F o := ⟨[], F.toList, rfl, rfl⟩

theorem last (h : o' = o + span F.toList) : Seam o F o' :=
  ⟨F.toList, [], (List.append_nil _).symm, h⟩

theorem left (h : Seam o F y) : Seam o (F ++ G) y := by
  obtain ⟨ps, qs, hF, hy⟩ := h
  exact ⟨ps, qs ++ G.toList, by rw [Array.toList_append, hF, List.append_assoc], hy⟩

theorem right (hm : m = o + span F.toList) (h : Seam m G y) : Seam o (F ++ G) y := by
  obtain ⟨ps, qs, hG, rfl⟩ := h
  refine ⟨F.toList ++ ps, qs, by rw [Array.toList_append, hG, List.append_assoc], ?_⟩
  rw [span_append, hm, Nat.add_assoc]

/-- Only the sizes of the pieces matter, which stay when exits are resolved. -/
theorem resolves {e : Exit} (hF : Resolves e o target F F') (h : Seam o F y) : Seam o F' y := by
  obtain ⟨ps, qs, hpieces, rfl⟩ := h
  refine ⟨retarget e target o ps, retarget e target (o + span ps) qs, ?_, by rw [span_retarget]⟩
  rw [hF.1, hpieces, retarget_append]

end Seam

/-- The code `F` between the offsets `o` and `o'` leads to its own seams and to places where `E`
holds, and its constants are in the pool. -/
structure Aims (E : Nat → Prop) (pool : Array Value) (exits : Exit → Nat) (o : Nat) (F : Fragment)
    (o' : Nat) : Prop where
  stop : o' = o + span F.toList
  aimed : ∀ B : Nat → Prop, (∀ y, E y → B y) → (∀ y, Seam o F y → B y) →
    Each (Step.Aimed B pool exits) o F.toList

namespace Aims

theorem mono {E' : Nat → Prop} (h : Aims E pool exits o F o') (hE : ∀ y, E y → E' y) :
    Aims E' pool exits o F o' :=
  ⟨h.stop, fun B hB => h.aimed B fun y hy => hB y (hE y hy)⟩

theorem more {P : Nat → Prop} (h : Aims E pool exits o F o') :
    Aims (fun y => P y ∨ E y) pool exits o F o' :=
  h.mono fun _ => .inr

/-- The code may lead to one of its seams. -/
theorem own (hs : Seam o F target) (h : Aims (fun y => y = target ∨ E y) pool exits o F o') :
    Aims E pool exits o F o' := by
  refine ⟨h.stop, fun B hE hB => h.aimed B ?_ hB⟩
  rintro y (rfl | hy)
  · exact hB y hs
  · exact hE y hy

theorem ends (h : Aims (fun y => y = o' ∨ E y) pool exits o F o') : Aims E pool exits o F o' :=
  h.own (.last h.stop)

theorem seq (hF : Aims E pool exits o F m) (hG : Aims E pool exits m G o') :
    Aims E pool exits o (F ++ G) o' := by
  refine ⟨?_, fun B hE hB => ?_⟩
  · rw [Array.toList_append, span_append, hG.stop, hF.stop, Nat.add_assoc]
  · rw [Array.toList_append, each_append, ← hF.stop]
    exact ⟨hF.aimed B hE fun y hy => hB y hy.left, hG.aimed B hE fun y hy =>
      hB y (.right hF.stop hy)⟩

/-- Two parts that may both lead to where they meet. -/
theorem across (hF : Aims (fun y => y = m ∨ E y) pool exits o F m)
    (hG : Aims (fun y => y = m ∨ E y) pool exits m G o') : Aims E pool exits o (F ++ G) o' :=
  (hF.seq hG).own (Seam.last hF.stop).left

theorem nil : Aims E pool exits o #[] o := ⟨rfl, fun _ _ _ => trivial⟩

/-- Instructions that lead to the next one only. -/
theorem plains (ho' : o' = o + span F.toList) (hF : ∀ p ∈ F.toList, ∃ i, p.step = .instr i ∧
    (∀ next, i.targets next = []) ∧ i.Pooled pool) : Aims E pool exits o F o' :=
  ⟨ho', fun _ _ _ => aimed_plains hF⟩

theorem plain (ht : ∀ next, i.targets next = []) (hp : i.Pooled pool) :
    Aims E pool exits o #[⟨line, .instr i⟩] (o + i.size) :=
  plains (by simp [Step.size]) (by simpa using ⟨ht, hp⟩)

theorem push (h : Aims E pool exits o F m) (ht : ∀ next, i.targets next = []) (hp : i.Pooled pool) :
    Aims E pool exits o (F ++ #[⟨line, .instr i⟩]) (m + i.size) :=
  h.seq (plain ht hp)

/-- An instruction that names a constant. -/
theorem names {v : Value} {k : UInt16} (hc : (constant v).run d = .ok (k, d'))
    (ht : ∀ next, i.targets next = []) (hp : pool[k.toNat]? = some v → i.Pooled pool)
    (hpool : Extends d'.constants pool) :
    Aims E pool exits d.offset #[⟨line, .instr i⟩] (d'.offset + i.size) := by
  rw [constant_offset hc]
  exact plain ht (hp (constant_pooled hc hpool))

theorem forward {make : UInt16 → Instr} (hmake : Leaps make) (hF : Forward make o target F)
    (hE : E target) : Aims E pool exits o F (o + 3) := by
  refine ⟨by rw [hF.span], fun B hB _ => ?_⟩
  obtain ⟨line, n, rfl, hsize, rfl⟩ := hF
  obtain ⟨htargets, hcode, hpooled⟩ := hmake n (o + (make n).size)
  refine ⟨⟨fun y hy => hB y ?_, hcode, hpooled pool⟩, trivial⟩
  rw [htargets, hsize, List.mem_singleton] at hy
  rwa [hy]

theorem backward (hF : Backward o target F) (hE : E target) : Aims E pool exits o F (o + 3) := by
  refine ⟨by rw [hF.span], fun B hB _ => ?_⟩
  obtain ⟨line, n, rfl, hn⟩ := hF
  have hsize : (Instr.loop n).size = 3 := rfl
  refine ⟨⟨fun y hy => hB y ?_, ?_, trivial⟩, trivial⟩
  · rw [Instr.targets, List.mem_singleton,
      show o + (Instr.loop n).size - n.toNat = target by omega] at hy
    rwa [hy]
  · rw [Instr.InCode]
    omega

/-- A jump out of a loop. -/
theorem exit {e : Exit} (hE : E (exits e)) : Aims E pool exits o #[⟨line, .exit e⟩] (o + 3) :=
  ⟨rfl, fun _ hB _ => ⟨hB _ hE, trivial⟩⟩

theorem resolved {e : Exit} (h : Aims E pool (redirect exits e target) o F o')
    (hF : Resolves e o target F F') (hle : o' ≤ target) : Aims E pool exits o F' o' := by
  refine ⟨by rw [h.stop, hF.span], fun B hE hB => ?_⟩
  rw [hF.1]
  refine (h.aimed B hE fun y hy => hB y (hy.resolves hF)).retarget hF.2 (h.stop ▸ hle)
    (fun x n hn hp => ⟨fun y hy => ?_, trivial, trivial⟩) fun x s hs hp => ?_
  · rw [Step.Aimed, redirect_self, ← hn] at hp
    rwa [List.mem_singleton.mp hy]
  · cases s with
    | instr i => exact hp
    | exit y => rwa [Step.Aimed, redirect_other exits fun hy => hs (by rw [hy])] at hp

theorem packing (n : Nat) :
    Aims E pool exits o (packing line n) (o + span (packing line n).toList) := by
  rw [Compile.packing]
  split
  next => exact nil
  next => exact plain (fun _ => rfl) trivial

theorem pops (n : Nat) : Aims E pool exits o (pops line n) (o + n) := by
  refine plains (by rw [span_pops]) fun p hp => ?_
  rw [Compile.pops, Array.toList_replicate] at hp
  obtain ⟨_, rfl⟩ := List.mem_replicate.mp hp
  exact ⟨.pop, rfl, fun _ => rfl, trivial⟩

theorem leave (hd : Compile.leave.run d = .ok (F, d')) :
    Aims E pool exits d.offset F d'.offset := by
  obtain ⟨rfl, rfl⟩ := run_leave_ok.mp hd
  exact pops _

theorem discardAbove {depth : Nat} (hd : (discardAbove depth).run d = .ok (F, d')) :
    Aims E pool exits d.offset F d'.offset := by
  obtain ⟨rfl, rfl⟩ := run_discardAbove_ok.mp hd
  exact pops _

end Aims

end Fragment

variable {E : Nat → Prop} {exits : Exit → Nat} {pool : Array Value}

theorem Emitted.le (h : Emitted d F d') : d.offset ≤ d'.offset :=
  Nat.le.intro h.offset.symm

theorem Pushes.aimed {D : List Duty} {phrase : ExprPhrase} {ms : List Landmark}
    (h : Pushes D phrase d F d' ms) (hpool : Extends d'.constants pool) :
    Aims E pool exits d.offset F d'.offset := by
  induction h generalizing E with
  | one _ ih | called _ ih | spawned _ ih => exact ih hpool
  | pooled _ hc => exact .names hc (fun _ => rfl) (⟨_, ·⟩) hpool
  | absent | readLocal _ => exact .plain (fun _ => rfl) trivial
  | fstring _ _ ih | array _ _ ih | dict _ _ ih | awaitCall _ ih | await _ ih =>
    exact (ih hpool).push (fun _ => rfl) trivial
  | readGlobal _ hc => exact .names hc (fun _ => rfl) (⟨_, ·⟩) hpool
  | binary _ hb iha ihb =>
    refine .seq (.seq (iha (hb.emitted.pool.trans hpool)) (ihb hpool)) (.plains ?_ ?_)
    · simp [Step.size, Instr.size_binary, Draft.advance]
    · simp [Instr.targets, Instr.Pooled]
  | neg _ iha | not _ iha => exact (iha hpool).push (fun _ => rfl) trivial
  | @and a b d F d1 ms skip G d2 ns out index d3 _ hskip hb hout hc iha ihb =>
    have hpool2 : Extends d2.constants pool := (constant_extends hc).trans hpool
    have hend : d2.offset + 7 = d3.offset + 3 := by rw [constant_offset hc]; rfl
    refine .ends (.across (.seq (.push (.seq (.seq (iha (hb.emitted.pool.trans hpool2))
      (.forward leaps_jumpIfFalse hskip (.inl rfl))) (ihb hpool2)) (fun _ => rfl) trivial)
      (.forward leaps_jump hout (.inr (.inl hend)))) (.names hc (fun _ => rfl) (⟨_, ·⟩) hpool))
  | or _ hskip hc hout hb iha ihb =>
    have hpool2 := hb.emitted.pool.trans hpool
    have hk := constant_pooled hc hpool2
    have hpool1 := (constant_extends hc).trans hpool2
    obtain ⟨_, rfl⟩ := run_constant_ok.mp hc
    refine .ends (.push (.across (.seq (.push (.seq (iha hpool1)
      (.forward leaps_jumpIfFalse hskip (.inl rfl))) (fun _ => rfl) ⟨_, hk⟩)
      (.forward leaps_jump hout (.inr (.inl rfl)))) (ihb hpool)) (fun _ => rfl) trivial)
  | @byName spawning _ _ _ _ _ _ _ _ _ _ _ hc h ih =>
    have hk := constant_pooled hc (h.emitted.pool.trans hpool)
    rw [← constant_offset hc]
    cases spawning <;> exact (ih hpool).push (fun _ => rfl) ⟨_, hk⟩
  | @byValue spawning _ _ _ _ _ _ _ _ _ _ _ _ hb iha ihb =>
    have hargs : Aims E pool exits _ _ _ := (iha (hb.emitted.pool.trans hpool)).seq (ihb hpool)
    cases spawning <;> exact hargs.push (fun _ => rfl) trivial
  | index _ hb _ iha ihb =>
    exact .push (.seq (.seq (iha (hb.emitted.pool.trans hpool)) (ihb hpool)) (.packing _))
      (fun _ => rfl) trivial
  | manyNil | entriesNil | partsNil => exact .nil
  | manyCons _ hb iha ihb | partsCode _ hb iha ihb =>
    exact (iha (hb.emitted.pool.trans hpool)).seq (ihb hpool)
  | entriesCons _ hb hc iha ihb ihc =>
    have hpool2 := hc.emitted.pool.trans hpool
    exact ((iha (hb.emitted.pool.trans hpool2)).seq (ihb hpool2)).seq (ihc hpool)
  | partsText hc h ih =>
    exact .seq (.names hc (fun _ => rfl) (⟨_, ·⟩) (h.emitted.pool.trans hpool)) (ih hpool)

section

variable {D : List Duty} {site : Site} {ms : List Landmark}

theorem Yields.aimed {source : Source} (h : Yields D source d F d' ms)
    (hpool : Extends d'.constants pool) : Aims E pool exits d.offset F d'.offset := by
  cases h with
  | expr h => exact h.aimed hpool
  | input | readData => exact .plain (fun _ => rfl) trivial
  | prompt h | newArray _ h => exact (h.aimed hpool).push (fun _ => rfl) trivial
  | item => exact .plains rfl (by simp [Instr.targets, Instr.Pooled])

theorem Stores.aimed {target : Target} {source : Source} (h : Stores site target source d F d' ms)
    (hpool : Extends d'.constants pool) : Aims E pool exits d.offset F d'.offset := by
  cases h with
  | toLocal h _ => exact .push (.push (h.aimed hpool) (fun _ => rfl) trivial) (fun _ => rfl) trivial
  | toNew h _ _ hd =>
    obtain ⟨_, _, _, rfl⟩ := run_declare_ok.mp hd
    exact h.aimed hpool
  | toGlobal h _ _ hc =>
    exact .push (.seq (h.aimed ((constant_extends hc).trans hpool))
      (.names hc (fun _ => rfl) (⟨_, ·⟩) hpool)) (fun _ => rfl) trivial
  | toElement ho hk _ hv =>
    have hpool2 := hv.emitted.pool.trans hpool
    exact .push
      (.push (.seq (.seq (.seq (ho.aimed (hk.emitted.pool.trans hpool2)) (hk.aimed hpool2))
      (.packing _)) (hv.aimed hpool)) (fun _ => rfl) trivial) (fun _ => rfl) trivial

theorem StoresAll.aimed {stores : List (Target × Source)} (h : StoresAll site stores d F d' ms)
    (hpool : Extends d'.constants pool) : Aims E pool exits d.offset F d'.offset := by
  induction h with
  | nil => exact .nil
  | cons h hs ih => exact (h.aimed (hs.grows.pool.trans hpool)).seq (ih hpool)

theorem Ensures.aimed {name : String} (h : Ensures site name d F d') :
    Aims E pool exits d.offset F d'.offset := by
  cases h with
  | place _ _ hd =>
    obtain ⟨_, _, _, rfl⟩ := run_declare_ok.mp hd
    exact .plain (fun _ => rfl) trivial
  | nothing _ => exact .nil

theorem Tests.aimed {subject : UInt16} {next : Nat} {values : List Expr}
    (h : Tests D subject next values d F d' ms) (hnext : E next)
    (hpool : Extends d'.constants pool) : Aims E pool exits d.offset F d'.offset := by
  induction h generalizing E with
  | nil hmiss => exact .forward leaps_jump hmiss hnext
  | cons hv hhit hr ih =>
    exact .ends (.seq (.seq (.push (.seq (.plain (fun _ => rfl) trivial)
      (hv.aimed (hr.emitted.pool.trans hpool))) (fun _ => rfl) trivial)
      (.forward leaps_jumpIfTrue hhit (.inl rfl))) (ih (.inr hnext) hpool))

theorem Acts.aimed {k : StmtKind} (h : Acts site k d F d' ms) (hpool : Extends d'.constants pool) :
    Aims E pool exits d.offset F d'.offset := by
  cases h with
  | eval h | print _ h | spawn h | raise h => exact (h.aimed hpool).push (fun _ => rfl) trivial
  | assign h | input h | dim h | read h => exact h.aimed hpool
  | declareLocal _ hd =>
    obtain ⟨_, _, _, rfl⟩ := run_declare_ok.mp hd
    exact .plain (fun _ => rfl) trivial
  | restore => exact .plain (fun _ => rfl) trivial
  | declareGlobal _ hc =>
    exact .push (.seq (.plain (fun _ => rfl) trivial) (.names hc (fun _ => rfl) (⟨_, ·⟩) hpool))
      (fun _ => rfl) trivial
  | data | global _ => exact .nil
  | importModule hc =>
    exact .push (.push (.names hc (fun _ => rfl) (⟨_, ·⟩) hpool) (fun _ => rfl) trivial)
      (fun _ => rfl) trivial
  | debug h hc =>
    exact (h.aimed ((constant_extends hc).trans hpool)).seq
      (.names hc (fun _ => rfl) (⟨_, ·⟩) hpool)

end

/-! ### Statements with blocks -/

/-- What surrounds a phrase. -/
def Phrase.site : Phrase → Site
  | stmt site _ | kind site _ | body site _ | block site _ | branches site _ _ => site
  | arms site _ _ _ | handler site _ _ _ _ | leaving site _ _ | unwind site _ _ _ => site

/-- The exits of the loop around a place at offset `o` lead to where `B` holds. -/
def Site.LoopsIn (site : Site) (B : Nat → Prop) (o : Nat) : Prop :=
  ∀ loop, site.loop = some loop → B (site.exits .leave) ∧
    match loop.again? with
    | none => B (site.exits .again)
    | some target => B target ∧ target ≤ o

theorem Site.LoopsIn.mono {site : Site} {B : Nat → Prop} {o' : Nat} (h : site.LoopsIn B o)
    (hle : o ≤ o') : site.LoopsIn B o' := by
  intro loop hloop
  obtain ⟨hleave, hagain⟩ := h loop hloop
  refine ⟨hleave, ?_⟩
  cases hs : loop.again? with
  | none =>
    rw [hs] at hagain
    exact hagain
  | some target =>
    rw [hs] at hagain
    exact ⟨hagain.1, Nat.le_trans hagain.2 hle⟩

theorem Site.LoopsIn.past {site : Site} {B : Nat → Prop} {o' : Nat} (h : site.LoopsIn B o)
    (hle : o ≤ o') (n : Nat) : site.LoopsIn B (o' + n) :=
  h.mono (Nat.le_add_right_of_le hle)

theorem Emits.aimed {T : List Stmt → Prop} {p : Phrase} {ms : List Landmark}
    (h : Emits T p d F d' ms) (hloop : p.site.LoopsIn E d.offset)
    (hpool : Extends d'.constants pool) : Aims E pool p.site.exits d.offset F d'.offset := by
  induction h generalizing E with
  | stmt _ ih | ifChain _ ih | branchesElse _ ih | armsElse _ ih => exact ih hloop hpool
  | simple h => exact h.aimed hpool
  | nil | branchesNone | armsNone | leavingNil _ | leavingStop _ _ => exact .nil
  | cons h hs ih ihs =>
    exact (ih hloop (hs.added.pool.trans hpool)).seq (ihs (hloop.mono h.added.le) hpool)
  | block h hdrop ih => exact (ih hloop ((leave_added hdrop).pool.trans hpool)).seq (.leave hdrop)
  | branchesLast ht hskip h ih =>
    have hbody := ih (hloop.past ht.emitted.le 3) hpool
    exact .ends (.seq (.seq (ht.aimed (h.added.pool.trans hpool))
      (.forward leaps_jumpIfFalse hskip (.inl rfl))) hbody.more)
  | branchesCons ht hskip h hout hs ih ihs =>
    have hpool2 := hs.added.pool.trans hpool
    have hloop1 := hloop.past ht.emitted.le 3
    have hrest := ihs (hloop1.past h.added.le 3) hpool
    exact .ends (.across (.seq (.seq (.seq (ht.aimed (h.added.pool.trans hpool2))
      (.forward leaps_jumpIfFalse hskip (.inl rfl))) (ih hloop1 hpool2).more.more)
      (.forward leaps_jump hout (.inr (.inl rfl)))) hrest.more.more)
  | whileLoop ht hout h hres hback ih =>
    refine .own .first (.ends (.seq (.seq (.seq (ht.aimed (h.added.pool.trans hpool))
      (.forward leaps_jumpIfFalse hout (.inl rfl)))
        (.resolved (ih ?_ hpool) hres (Nat.le_add_right _ _)))
      (.backward hback (.inr (.inl rfl)))))
    rintro _ ⟨⟩
    exact ⟨.inl rfl, .inr (.inl rfl), Nat.le_add_right_of_le ht.emitted.le⟩
  | countLoop hfirst hbound hslot2 hstride hslot4 htest hout h hagain hleave hnext hback hdrop ih =>
    obtain ⟨_, _, _, rfl⟩ := run_declare_ok.mp hslot2
    obtain ⟨_, _, _, rfl⟩ := run_declare_ok.mp hslot4
    have hpool8 := (leave_added hdrop).pool.trans hpool
    have hpool7 := hnext.grows.pool.trans hpool8
    have hpool6 := h.added.pool.trans hpool7
    have hpool4 := htest.emitted.pool.trans hpool6
    have hpool2 := hstride.emitted.pool.trans hpool4
    have hbefore (E : Nat → Prop) (exits : Exit → Nat) : Aims E pool exits _ _ _ :=
      .seq (.seq (hfirst.aimed (hbound.emitted.pool.trans hpool2)) (hbound.aimed hpool2))
        (hstride.aimed hpool4)
    refine .own (Seam.last (hbefore E fun _ => 0).stop).left.left.left.left.left.left
      (.across (.seq (.across
      (.seq
        (.seq (.seq (hbefore _ _) (htest.aimed hpool6))
          (.forward leaps_jumpIfFalse hout (.inr (.inl rfl))))
        (.resolved (.resolved (ih ?_ hpool7) hagain (Nat.le_refl _)) hleave
          (Nat.le_add_right_of_le hnext.grows.le)))
      (hnext.aimed hpool8)) (.backward hback (.inr (.inl rfl)))) (.leave hdrop))
    rintro _ ⟨⟩
    exact ⟨.inr (.inl rfl), .inl rfl⟩
  | @eachLoop site var items body d place d1 all d2 ms each d3 zero d4 index d5 out bind d6 ns
      F d7 os F' F'' one d8 back drop d9 hplace hall heach hzero hindex hout hbind h hagain hleave
      hone hback hdrop ih =>
    have hpool8 : Extends d8.constants pool := (leave_added hdrop).pool.trans hpool
    have hpool7 : Extends d7.constants pool := (constant_extends hone).trans hpool8
    have hpool6 := h.added.pool.trans hpool7
    have hk := constant_pooled hone hpool8
    obtain ⟨_, _, _, rfl⟩ := run_declare_ok.mp hindex
    have hpool4 : Extends d4.constants pool := hbind.grows.pool.trans hpool6
    have hstart (E : Nat → Prop) (exits : Exit → Nat) :
        Aims E pool exits d3.offset #[⟨d3.line, .instr (.constant zero)⟩] (d4.offset + 3) :=
      .names hzero (fun _ => rfl) (⟨_, ·⟩) hpool4
    obtain ⟨_, _, _, rfl⟩ := run_declare_ok.mp heach
    obtain ⟨_, rfl⟩ := run_constant_ok.mp hone
    have hbefore (E : Nat → Prop) (exits : Exit → Nat) : Aims E pool exits _ _ _ :=
      .seq (.seq hplace.aimed (hall.aimed ((constant_extends hzero).trans hpool4))) (hstart E exits)
    refine .own (Seam.last (hbefore E fun _ => 0).stop).left.left.left.left.left.left.left
      (.across (.seq (.across
      (.seq
        (.seq
          (.seq (.seq (hbefore _ _) (.plains rfl ?_))
            (.forward leaps_jumpIfFalse hout (.inr (.inl rfl))))
        (hbind.aimed hpool6)) (.resolved (.resolved (ih ?_ hpool7) hagain (Nat.le_refl _)) hleave
        (Nat.le_add_right _ _))) (.plains rfl ?_)) (.backward hback (.inr (.inl rfl))))
          (.leave hdrop))
    · simp [eachTesting, Instr.targets, Instr.Pooled]
    · rintro _ ⟨⟩
      exact ⟨.inr (.inl rfl), .inl rfl⟩
    · simp [eachCounting, Instr.targets, Instr.Pooled, hk]
  | switchBlock hv hslot h hdrop ih =>
    obtain ⟨_, _, _, rfl⟩ := run_declare_ok.mp hslot
    have hpool3 := (leave_added hdrop).pool.trans hpool
    exact .seq (.seq (hv.aimed (h.added.pool.trans hpool3)) (ih (hloop.mono hv.emitted.le) hpool3))
      (.leave hdrop)
  | armsCons ht h hout hs ih ihs =>
    have hpool2 := hs.added.pool.trans hpool
    have hloop1 := hloop.mono ht.emitted.le
    have hrest := ihs (hloop1.past h.added.le 3) hpool
    exact .ends (.across (.seq (.seq (ht.aimed (.inl rfl) (h.added.pool.trans hpool2))
      (ih hloop1 hpool2).more.more) (.forward leaps_jump hout (.inr (.inl rfl)))) hrest.more.more)
  | function _ _ _ hf hname _ _ =>
    have hk := constant_pooled hf ((constant_extends hname).trans hpool)
    have hk' := constant_pooled hname hpool
    obtain ⟨_, rfl⟩ := run_constant_ok.mp hname
    obtain ⟨_, rfl⟩ := run_constant_ok.mp hf
    exact .plains rfl (by simp [binding, Instr.targets, Instr.Pooled, hk, hk'])
  | leavingPlain _ _ _ hdrop h ih =>
    exact .seq (.push (.discardAbove hdrop) (fun _ => rfl) trivial)
      (ih (hloop.past (discardAbove_added hdrop).le 1) hpool)
  | leavingCleanup _ _ _ _ hdrop h hs ih ihs =>
    have hloop1 := hloop.past (discardAbove_added hdrop).le 1
    exact .seq (.seq (.push (.discardAbove hdrop) (fun _ => rfl) trivial)
      (ih hloop1 (hs.added.pool.trans hpool))) (ihs (hloop1.mono h.added.le) hpool)
  | unwind h hdrop ih =>
    exact .seq (ih hloop ((discardAbove_added hdrop).pool.trans hpool)) (.discardAbove hdrop)
  | breakLoop hsite h ih => exact .seq (ih hloop hpool) (.exit (hloop _ hsite).1)
  | continueOn hsite hagain h ih =>
    have hE := (hloop _ hsite).2
    rw [hagain] at hE
    exact .seq (ih hloop hpool) (.exit hE)
  | continueBack hsite hagain h hback ih =>
    have hE := (hloop _ hsite).2
    rw [hagain] at hE
    obtain ⟨jback, -⟩ :=
      run_loopTo_backward (Nat.le_add_right_of_le (Nat.le_trans hE.2 h.added.le)) hback
    exact .seq (ih hloop hpool) (.backward jback hE.1)
  | retPlain _ _ h => exact .push (h.aimed hpool) (fun _ => rfl) trivial
  | retAcross _ _ _ hv h ih =>
    have hway := ih (hloop.past hv.emitted.le 4) hpool
    exact .push
      (.push (.seq (.push (.push (hv.aimed (h.added.pool.trans hpool)) (fun _ => rfl) trivial)
      (fun _ => rfl) trivial) hway) (fun _ => rfl) trivial) (fun _ => rfl) trivial
  | tryPlain hbegin h hskip hs ih ihs =>
    have hloop1 := hloop.past (Nat.le_refl _) 3
    have hhandler := ihs (hloop1.past h.added.le 4) hpool
    exact .ends (.across (.seq (.push (.seq (.forward leaps_tryBegin hbegin (.inl rfl))
      (ih hloop1 (hs.added.pool.trans hpool)).more.more) (fun _ => rfl) trivial)
      (.forward leaps_jump hskip (.inr (.inl rfl)))) hhandler.more.more)
  | tryCleanup _ hbegin h hskip hs hf ih ihs ihf =>
    have hpool2 := hf.added.pool.trans hpool
    have hloop1 := hloop.past (Nat.le_refl _) 3
    have hloop2 := hloop1.past h.added.le 4
    have hbody := ih hloop1 (hs.added.pool.trans hpool2)
    exact .across
      (.across (.seq (.push (.seq (.forward leaps_tryBegin hbegin (.inl rfl)) hbody.more.more)
      (fun _ => rfl) trivial) (.forward leaps_jump hskip (.inr (.inl rfl))))
        (ihs hloop2 hpool2).more.more)
      (ihf (hloop2.mono hs.added.le) hpool).more
  | handlerNone => exact .plain (fun _ => rfl) trivial
  | handlerCatch hslot h hdrop ih =>
    obtain ⟨_, _, _, rfl⟩ := run_declare_ok.mp hslot
    exact .seq (ih hloop ((leave_added hdrop).pool.trans hpool)) (.leave hdrop)
  | handlerFinally _ hslot h ih =>
    obtain ⟨_, _, _, rfl⟩ := run_declare_ok.mp hslot
    exact .push (.push (ih hloop hpool) (fun _ => rfl) trivial) (fun _ => rfl) trivial
  | handlerBoth _ hslot hbegin h hdrop hskip hcaught herror hf ih ihf =>
    obtain ⟨_, _, _, rfl⟩ := run_declare_ok.mp hslot
    obtain ⟨_, _, _, rfl⟩ := run_declare_ok.mp hcaught
    obtain ⟨_, _, _, rfl⟩ := run_declare_ok.mp herror
    have hpool3 := hf.added.pool.trans hpool
    have hloop1 := hloop.past (Nat.le_refl _) 3
    have hloop2 := (hloop1.past h.added.le 1).past (leave_added hdrop).le 3
    have hbody := ih hloop1 ((leave_added hdrop).pool.trans hpool3)
    exact .ends
      (.push (.push (.across (.seq (.seq (.push (.seq (.forward leaps_tryBegin hbegin (.inl rfl))
      hbody.more.more) (fun _ => rfl) trivial) (.leave hdrop))
        (.forward leaps_jump hskip (.inr (.inl rfl))))
      (ihf hloop2 hpool).more.more) (fun _ => rfl) trivial) (fun _ => rfl) trivial)

end TaskBasic
