import TaskBasic.Proofs.Code.Ties

/-
The layout of all code.

`Emits.laid` puts the layouts of statements together: whatever a statement is
built from, its code leads from the locals that are live before it to those that
are live behind it, and the regions that are open are those that surround it.

* `Phrase.Spans` — the notes before and behind the code of a phrase.
-/

namespace TaskBasic

open Compile List

variable {s : Scope} {name : String} {slot : UInt16} {leaps : Bool} {bound line n o : Nat}
  {t : OpenTry} {R : (Nat → Note) → Prop} {N : Nat → Note}
  {x : LoopExit} {again? : Option Nat} {new : List OpenTry} {T : List Stmt → Prop}

variable {X : Exit → Nat} {site : Site} {opens : List OpenTry} {D : List Duty} {d d' d1 d2 : Draft}
  {F G : Fragment} {ms ns : List Landmark}

/-! ### Locals that are dropped -/

/-- The values that are dropped are the locals that a way out of regions discards. -/
theorem laid_discardAbove {k : Nat} (h : (discardAbove k).run d = .ok (F, d'))
    (hbase : Below opens d'.scope.locals.length) :
    Laid X d.offset F d'.offset ⟨d.scope.locals.length, opens, []⟩
      ⟨d'.scope.locals.length, opens, []⟩ (fun _ => True) (fun _ => True) := by
  obtain ⟨rfl, rfl⟩ := run_discardAbove_ok.mp h
  rw [← d.scope.length_dropAbove k]
  exact Laid.pops d.line _ hbase

/-- The values that are dropped at the end of a block are its locals. -/
theorem laid_leave (h : Compile.leave.run d = .ok (F, d'))
    (hbase : Below opens d'.scope.locals.length) :
    Laid X d.offset F d'.offset ⟨d.scope.locals.length, opens, []⟩
      ⟨d'.scope.locals.length, opens, []⟩ (fun _ => True) (fun _ => True) := by
  obtain ⟨rfl, rfl⟩ := run_leave_ok.mp h
  rw [← d.scope.length_dropAbove (d.scope.depth - 1)]
  exact Laid.pops d.line _ hbase

/-! ### Variables of loops -/

/-- An assignment to the name declares no local. -/
def Site.Places (site : Site) (d : Draft) (name : String) : Prop :=
  site.declares d name = false ∨ (d.scope.slot? name).isSome = true

theorem Scope.isSome_slot? : (s.slot? name).isSome = true ↔ ∃ l ∈ s.locals, l.name = name := by
  rw [Scope.slot?, Option.isSome_map, List.findIdx?_isSome, any_eq_true]
  simp only [beq_iff_eq]

theorem Site.Places.mono (h : site.Places d name) (hlocals : d.scope.locals <:+ d'.scope.locals)
    (hglobals : d.globals <:+ d'.globals) : site.Places d' name := by
  rcases h with h | h
  · refine .inl ?_
    simp only [Site.declares, Bool.and_eq_false_iff, Bool.not_eq_false', contains_iff_mem] at h ⊢
    exact h.imp_right fun hmem => hglobals.mem hmem
  · obtain ⟨l, hl, hname⟩ := Scope.isSome_slot?.mp h
    exact .inr (Scope.isSome_slot?.mpr ⟨l, hlocals.mem hl, hname⟩)

theorem slot?_declared (h : (declare name).run d = .ok (slot, d')) :
    (d'.scope.slot? name).isSome = true := by
  obtain ⟨-, hlocals, -⟩ := Scope.declared h
  refine Scope.isSome_slot?.mpr ⟨⟨name, d.scope.depth⟩, ?_, rfl⟩
  rw [hlocals]
  exact mem_cons_self

theorem Ensures.places (h : Ensures site name d F d') : site.Places d' name := by
  cases h with
  | place _ _ hd => exact .inr (slot?_declared hd)
  | nothing h => exact h

theorem Stores.places {source : Source} (h : Stores site (.var name) source d F d' ms) :
    site.Places d' name := by
  cases h with
  | toLocal h hslot => exact .inr (by rw [Draft.advance_scope, slotIn_slot? hslot]; rfl)
  | toNew _ _ _ hd => exact .inr (slot?_declared hd)
  | toGlobal _ _ hdeclares hc =>
    obtain ⟨_, rfl⟩ := run_constant_ok.mp hc
    exact .inl hdeclares

/-- A loop variable that has a place keeps it. -/
theorem Stores.scope_of_places {source : Source} (h : Stores site (.var name) source d F d' ms)
    (hd : site.Places d name) : d'.scope = d.scope := by
  cases h with
  | toLocal h _ => exact h.emitted.scope
  | @toNew _ _ _ _ d1 _ _ _ h hslot hdeclares _ =>
    have hplaces : site.Places d1 name :=
      hd.mono (h.emitted.scope ▸ suffix_rfl) (h.emitted.globals ▸ suffix_rfl)
    rw [Site.Places, hdeclares] at hplaces
    have hnone : d1.scope.slot? name = none := by
      have hglobal : d1.globals.contains name = false := by
        simp only [Site.declares, Bool.and_eq_true, Bool.not_eq_true'] at hdeclares
        exact hdeclares.2
      rwa [slotIn, hglobal] at hslot
    rw [hnone] at hplaces
    exact absurd hplaces (by simp)
  | toGlobal h _ _ hc => exact (constant_scope hc).trans h.emitted.scope

/-! ### Ways out of regions -/

/-- The note before or behind a statement. -/
def Draft.note (d : Draft) (site : Site) : Note :=
  ⟨d.scope.locals.length, site.opens, []⟩

theorem Draft.note_eq (h : d'.scope = d.scope) (site : Site) : d'.note site = d.note site := by
  rw [Draft.note, h]
  rfl

open Draft (note_eq advance_scope advance_offset)

/-- The notes before and behind the code of a phrase.  The handler of a region begins with a
message on the stack. -/
def Phrase.Spans (d d' : Draft) (ν ν' : Note) : Phrase → Prop
  | stmt site _ | kind site _ | body site _ | block site _ | branches site _ _ | arms site _ _ _ =>
    d.note site = ν ∧ d'.note site = ν'
  | handler site _ _ _ _ => ⟨d.scope.locals.length + 1, site.opens, []⟩ = ν ∧ d'.note site = ν'
  | leaving site _ depth =>
    ∃ new opens, site.opens = new ++ opens ∧ depth = opens.length ∧
      d.note site = ν ∧ ⟨d'.scope.locals.length, opens, []⟩ = ν'
  | unwind site _ _ depth =>
    ∃ new opens, site.opens = new ++ opens ∧ depth = opens.length ∧
      Below opens d'.scope.locals.length ∧
      d.note site = ν ∧ ⟨d'.scope.locals.length, opens, []⟩ = ν'

/-- What surrounds a phrase belongs together. -/
def Phrase.Tied (d : Draft) (p : Phrase) : Prop :=
  match p with
  | stmt site _ | kind site _ | body site _ => site.Tied p.leaps d.scope.depth d.scope.locals
  | block site _ | branches site _ _ | handler site _ _ _ _ | leaving site _ _
  | unwind site _ _ _ =>
    site.Tied p.leaps (d.scope.depth + 1) d.scope.locals
  | arms site subject _ _ =>
    site.Tied p.leaps (d.scope.depth + 1) d.scope.locals ∧
      subject.toNat < d.scope.locals.length

section

variable {transfer : Transfer} {L : List Local} {new : List OpenTry} {t : OpenTry}

theorem cutOut_length (opens : List OpenTry) (L : List Local) :
    cutOut opens.length opens L = L := by
  cases opens with
  | nil => rfl
  | cons t outer => exact if_pos (Nat.lt_succ_self _)

theorem cutOut_cons (t : OpenTry) (new opens : List OpenTry) (L : List Local) :
    cutOut opens.length (t :: new ++ opens) L =
      cutOut opens.length (new ++ opens) (cut t.frame.scopeDepth L) := by
  rw [cons_append, cutOut, if_neg]
  rw [length_append]
  omega

/-- The locals of an outer block are not touched on the way out. -/
theorem cut_cutOut {k : Nat} (hnew : ∀ t ∈ new, k ≤ t.frame.scopeDepth) (L : List Local) :
    cut k (cutOut opens.length (new ++ opens) L) = cut k L := by
  induction new generalizing L with
  | nil => rw [nil_append, cutOut_length]
  | cons t new ih =>
    obtain ⟨ht, hrest⟩ := forall_mem_cons.mp hnew
    rw [cutOut_cons, ih hrest, cut_cut ht]

/-- So the value to be returned is still there. -/
theorem HoldsResult.cutOut {depth : Nat} (h : HoldsResult L slot)
    (hopens : ∀ t ∈ opens, 1 ≤ t.frame.scopeDepth) : HoldsResult (cutOut depth opens L) slot := by
  induction opens generalizing L with
  | nil => exact h
  | cons t outer ih =>
    obtain ⟨ht, hrest⟩ := forall_mem_cons.mp hopens
    rw [TaskBasic.cutOut]
    split
    · exact h
    · exact ih (h.cut ht) hrest

/-- The innermost region is one of those that are left. -/
theorem opens_split {outer : List OpenTry} (hall : t :: outer = new ++ opens)
    (hle : opens.length ≤ outer.length) : ∃ inner, new = t :: inner ∧ outer = inner ++ opens := by
  cases new with
  | nil =>
    have hlength := congrArg List.length hall
    rw [length_cons, nil_append] at hlength
    omega
  | cons u inner =>
    cases hall
    exact ⟨inner, rfl, rfl⟩

/-- What surrounds a way out, where only regions further out matter. -/
theorem Site.Tied.within {L' : List Local} (h : site.Tied leaps bound L)
    (hopens : opens <:+ site.opens)
    (hL : ∀ slot, site.returnSlot = some slot → HoldsResult L' slot) :
    (site.within opens D).Tied false bound L' where
  slot slot hslot := by
    obtain ⟨-, hle, hone⟩ := h.slot slot hslot
    exact ⟨hL slot hslot, hle, fun t ht => hone t (hopens.mem ht)⟩
  loop := nofun

@[inherit_doc Site.Tied.within]
theorem Site.Tied.outside (h : site.Tied leaps bound L) {outer : List OpenTry}
    (hopens : site.opens = t :: outer) :
    (site.within outer D).Tied false bound (cut t.frame.scopeDepth L) := by
  refine h.within (hopens ▸ suffix_cons t outer) fun slot hslot => ?_
  obtain ⟨hholds, -, hone⟩ := h.slot slot hslot
  exact hholds.cut (hone t (hopens ▸ mem_cons_self))

/-- The locals of the regions are there on the way out. -/
theorem Site.FitsExit.below {Γ : List String} (hfits : site.FitsExit s Γ) :
    Below site.opens s.locals.length := by
  intro t ht
  obtain ⟨-, L', k, hL', hlocals, hk⟩ := hfits
  rw [← (hL'.opens t ht).2.locals, ← cut_cut (hk t ht), ← hlocals]
  exact (cut_suffix _ _).length_le

end

theorem below_nil : Below [] n := nofun

/-- The way out of the innermost region: its locals are dropped, and it is closed. -/
theorem laid_wayOut (hdrop : (discardAbove t.frame.scopeDepth).run d = .ok (F, d1))
    (hlocals : cut t.frame.scopeDepth d.scope.locals = t.locals)
    (hbelow : Below opens d1.scope.locals.length) :
    Laid X d.offset (F ++ #[⟨d1.line, .instr .tryEnd⟩]) (d1.offset + 1)
      ⟨d.scope.locals.length, t :: opens, []⟩ ⟨d1.scope.locals.length, opens, []⟩ (fun _ => True)
      (fun _ => True) := by
  have hbelow' : Below (t :: opens) d1.scope.locals.length := by
    refine forall_mem_cons.mpr ⟨?_, hbelow⟩
    exact Nat.le_of_eq (by rw [discardAbove_scope hdrop, ← hlocals])
  have hclose : Laid X d1.offset #[⟨d1.line, .instr .tryEnd⟩] (d1.offset + 1)
      ⟨d1.scope.locals.length, t :: opens, []⟩ ⟨d1.scope.locals.length, opens, []⟩ (fun _ => True)
      (fun _ => True) := Laid.closed hbelow'
  exact ((laid_discardAbove hdrop hbelow').seq hclose).imp (fun _ _ _ _ => trivial)
    fun _ _ _ _ _ => ⟨trivial, trivial⟩

/-! ### Parts of statements -/

/-- No code, where nothing is left to be done. -/
theorem laid_nothing (hopens : site.opens = opens) :
    Laid X d.offset #[] d.offset (d.note site) ⟨d.scope.locals.length, opens, []⟩
      (Marked .stack []) R := by
  subst hopens
  exact .empty d.offset (d.note site)

/-- A value becomes a hidden local. -/
theorem laid_declared {e : Expr} (h : Pushes site.duties (.one e) d F d1 ms)
    (hdeclare : (declare name).run d1 = .ok (slot, d2))
    (hbelow : Below site.opens d.scope.locals.length) :
    Laid X d.offset F d2.offset (d.note site) (d2.note site) (Marked .stack ms)
      (fun N => Recovers N site.opens) := by
  obtain ⟨hheight, -, hoff⟩ := declared_height hdeclare
  rw [Draft.note, Draft.note, hheight, hoff, h.emitted.scope]
  exact h.laid (Nat.le_refl _) hbelow

theorem Flows.trans {m o' h k h' : Nat} (h1 : Flows X opens o F m h k)
    (h2 : Flows X opens m G o' k h') : Flows X opens o (F ++ G) o' h h' :=
  (h1.seq h2).imp (fun _ _ _ _ => trivial) fun _ _ _ _ hR => ⟨hR, hR⟩

/-- The test for another round of a loop over a collection. -/
theorem laid_eachTesting {each index : UInt16} (heach : each.toNat < n) (hindex : index.toNat < n)
    (hbelow : Below opens n) :
    Flows X opens o (eachTesting line each index) (o + 8) n (n + 1) := by
  have hfirst : Flows X opens o #[⟨line, .instr (.getLocal index)⟩] (o + 3) n (n + 1) :=
    Laid.read hbelow hindex
  have hsecond : Flows X opens (o + 3) #[⟨line, .instr (.getLocal each)⟩] (o + 6) (n + 1) (n + 2) :=
    Laid.read (hbelow.mono (Nat.le_succ n)) (Nat.lt_succ_of_lt heach)
  have hlen : Flows X opens (o + 6) #[⟨line, .instr .len⟩] (o + 7) (n + 2) (n + 2) :=
    Laid.plain hbelow rfl rfl (Nat.le_succ _) rfl rfl
  have hlt : Flows X opens (o + 7) #[⟨line, .instr (.binary .lt)⟩] (o + 8) (n + 2) (n + 1) :=
    Laid.plain hbelow rfl rfl (Nat.le_refl _) rfl rfl
  exact ((hfirst.trans hsecond).trans hlen).trans hlt

/-- The next index of a loop over a collection. -/
theorem laid_eachCounting {index one : UInt16} (hindex : index.toNat < n) (hbelow : Below opens n) :
    Flows X opens o (eachCounting line index one) (o + 11) n n := by
  have hget : Flows X opens o #[⟨line, .instr (.getLocal index)⟩] (o + 3) n (n + 1) :=
    Laid.read hbelow hindex
  have hone : Flows X opens (o + 3) #[⟨line, .instr (.constant one)⟩] (o + 6) (n + 1) (n + 2) :=
    Laid.plain hbelow rfl rfl (Nat.le_succ n) rfl rfl
  have hadd : Flows X opens (o + 6) #[⟨line, .instr (.binary .add)⟩] (o + 7) (n + 2) (n + 1) :=
    Laid.plain hbelow rfl rfl (Nat.le_refl _) rfl rfl
  have hset : Flows X opens (o + 7) #[⟨line, .instr (.setLocal index)⟩] (o + 10) (n + 1) (n + 1) :=
    Laid.write hbelow hindex
  exact (((hget.trans hone).trans hadd).trans hset).trans (laid_pop hbelow)

/-- A function becomes the value of a global. -/
theorem laid_binding {f name : UInt16} (hbelow : Below opens n) :
    Flows X opens o (binding line f name) (o + 7) n n := by
  have hconstant : Flows X opens o #[⟨line, .instr (.constant f)⟩] (o + 3) n (n + 1) :=
    Laid.plain hbelow rfl rfl (Nat.le_refl _) rfl rfl
  have hset : Flows X opens (o + 3) #[⟨line, .instr (.setGlobal name)⟩] (o + 6) (n + 1) (n + 1) :=
    Laid.plain hbelow rfl rfl (Nat.le_refl _) rfl rfl
  exact (hconstant.trans hset).trans (laid_pop hbelow)

theorem Laid.copied {o' : Nat} {c : Copy} {final : List Stmt} {ν ν' : Note}
    (h : Laid X o F o' ν ν' (Marked .stack ms)
      (Phrase.Needs (.block (site.running opens c D) final)))
    (hfinal : blockLeaps final = false) :
    Laid X o F o' ν ν' (Marked .stack (.copy c :: ms)) (fun N => Sheltered N opens) := by
  refine h.imp (fun N _ _ hms => marked_cons.mpr ⟨trivial, hms⟩) fun N _ _ _ hN =>
    ⟨hN, fun hl => ?_⟩
  exact nomatch hfinal.symm.trans hl

/-- Code that a region guards. -/
theorem laid_guarded (line : Nat) {o1 target : Nat} {begin : Fragment}
    (hbegin : Forward .tryBegin o target begin) (hhandler : t.handler = target)
    (hstart : t.start = o) (hlocals : t.locals.length = n) (hbelow : Below opens n)
    (hbelow' : Below (t :: opens) n)
    (hbody : Laid X (o + 3) F o1 ⟨n, t :: opens, []⟩ ⟨n, t :: opens, []⟩ (Marked .stack ms) R) :
    Laid X o (begin ++ F ++ #[⟨line, .instr .tryEnd⟩]) (o1 + 1) ⟨n, opens, []⟩ ⟨n, opens, []⟩
      (Marked .stack ms) R := by
  have hopen := Laid.opened (X := X) hbegin hbelow hhandler hstart hlocals
  have hclose : Laid X o1 #[⟨line, .instr .tryEnd⟩] (o1 + 1) ⟨n, t :: opens, []⟩ ⟨n, opens, []⟩
      (fun _ => True) (fun _ => True) := Laid.closed hbelow'
  exact ((hopen.asks fun _ _ => trivial).before hbody).more (hclose.asks fun _ _ => trivial)

/-- The handler of a region stands behind the code that the region guards, which jumps over it. -/
theorem laid_handled {o1 o2 : Nat} {skip H : Fragment} {ν μ : Note} {R' : (Nat → Note) → Prop}
    (hskip : Forward .jump o1 o2 skip) (hbelow : Below opens n)
    (hbody : Laid X o F o1 ν ⟨n, opens, []⟩ (Marked .stack ms) R)
    (hhandler : Laid X (o1 + 3) H o2 μ ⟨n, opens, []⟩ (Marked .stack ns) R') :
    Laid X o (F ++ skip ++ H) o2 ν ⟨n, opens, []⟩ (Marked .stack (ms ++ ns))
      (fun N => (Arrives .stack N (o1 + 3) μ → R N) ∧ R' N) := by
  have hjump := Laid.jump (X := X) hskip hbelow μ
  rw [Array.append_assoc]
  refine (hbody.seq (hjump.seq hhandler)).imp ?_ ?_
  · rintro N - - ⟨hms, -, -, -, hns⟩
    exact marked_append.mpr ⟨hms, hns⟩
  · rintro N - hstop ⟨-, -, -, harrives, -⟩ hR
    exact ⟨hR.1 harrives, hstop, hR.2⟩

/-- Behind the copy of a `finally` block the message is raised again. -/
theorem laid_rethrow (line : Nat) {o' : Nat} (hslot : slot.toNat < n)
    (hbelow : Below opens n) (ν' : Note)
    (hcopy : Laid X o F o' ⟨n, opens, []⟩ ⟨n, opens, []⟩ (Marked .stack ms)
      (fun N => Sheltered N opens)) :
    Laid X o (F ++ #[⟨line, .instr (.getLocal slot)⟩] ++ #[⟨line, .instr .raise⟩]) (o' + 4)
      ⟨n, opens, []⟩ ν' (Marked .stack ms) (fun N => Sheltered N opens) := by
  have hget : Flows X opens o' #[⟨line, .instr (.getLocal slot)⟩] (o' + 3) n (n + 1) :=
      Laid.read hbelow hslot
  have hraise : Laid X (o' + 3) #[⟨line, .instr .raise⟩] (o' + 4) ⟨n + 1, opens, []⟩ ν'
      (fun _ => True) (fun N => Recovers N opens) := Laid.raise hbelow ν'
  exact (hcopy.more (hget.asks fun N hN => hN.recovers)).more (hraise.asks fun N hN => hN.recovers)

theorem Site.aims_inLoop {frame : LoopFrame} {exits : Exit → Nat} {loop : LoopMark}
    (hleave : Arrives .stack N (exits .leave) ⟨loop.locals.length, site.opens, []⟩)
    (hagain : frame.again? = none →
      Arrives .stack N (exits .again) ⟨loop.locals.length, site.opens, []⟩)
    (htarget : ∀ target, frame.again? = some target →
      Arrives .stack N target ⟨loop.locals.length, site.opens, []⟩) :
    (site.inLoop frame exits loop).Aims N := by
  rintro x loop' ⟨⟩ ⟨⟩
  exact ⟨hleave, hagain, htarget⟩

/-! ### All statements -/

theorem Phrase.Needs.part {p q : Phrase} (h : p.Needs N) (hq : q.Part p)
    (hsite : q.site = p.site) : q.Needs N :=
  ⟨hsite ▸ h.sheltered, fun hl => hsite ▸ h.aims (hq hl)⟩

theorem Emits.locals_unwind {transfer : Transfer}
    (h : Emits T (.unwind site transfer x.loop.depth x.opens.length) d F d' ms)
    (hd : d.scope.Tame) (hfits : site.LoopFits d.scope.depth d.scope.locals x again? new) :
    d'.scope.locals = x.loop.locals := by
  rw [h.scoped hd]
  show cut x.loop.depth (cutOut x.opens.length site.opens d.scope.locals) = x.loop.locals
  rw [hfits.opens, cut_cutOut hfits.deep, hfits.locals]

theorem Emits.below_unwind {transfer : Transfer}
    (h : Emits T (.unwind site transfer x.loop.depth x.opens.length) d F d' ms)
    (hd : d.scope.Tame) (hfits : site.LoopFits d.scope.depth d.scope.locals x again? new) :
    Below x.opens d'.scope.locals.length :=
  h.locals_unwind hd hfits ▸ hfits.below

theorem laid_leap {k : StmtKind} {target : Nat} {m : Landmark} {loop : LoopFrame}
    (hd : site.FitsStmt d.scope d.globals) (ht : site.Tied true d.scope.depth d.scope.locals)
    (hloop : site.loop = some loop)
    (h : Emits T (.unwind site (.jump target) loop.scopeDepth loop.tryDepth) d F d1 ms)
    (hway : ∀ {ν ν'}, (Phrase.unwind site (.jump target) loop.scopeDepth loop.tryDepth).Fits d →
      (Phrase.unwind site (.jump target) loop.scopeDepth loop.tryDepth).Tied d →
      (Phrase.unwind site (.jump target) loop.scopeDepth loop.tryDepth).Spans d d1 ν ν' →
      Laid site.exits d.offset F d1.offset ν ν' (Marked .stack ms)
        (Phrase.Needs (.unwind site (.jump target) loop.scopeDepth loop.tryDepth)))
    (hjump : ∀ {opens}, Below opens d1.scope.locals.length →
      Laid site.exits d1.offset G (d1.offset + 3) ⟨d1.scope.locals.length, opens, []⟩ (d.note site)
        (fun _ => True) (fun N => Arrives .stack N target ⟨d1.scope.locals.length, opens, []⟩))
    (hm : ∀ N, m.Agrees .stack N) (hk : k.leaps = true)
    (haims : ∀ N x, site.Aims N → site.jumps = some x → Arrives .stack N target x.note) :
    Laid site.exits d.offset (F ++ G) (d1.offset + 3) (d.note site) (d.note site)
      (Marked .stack (ms ++ [m])) (Phrase.Needs (.kind site k)) := by
  obtain ⟨x, again?, new, hfits⟩ := ht.loop rfl
  obtain rfl := Option.some.inj (hloop.symm.trans hfits.loop)
  have hbelow := h.below_unwind hd.tame hfits
  have hlocals : d1.scope.locals = x.loop.locals := h.locals_unwind hd.tame hfits
  have hunwind := hway ⟨hd.block.exit, fun _ _ h => h⟩ (ht.block.sub nofun)
    ⟨new, x.opens, hfits.opens, rfl, hbelow, rfl, rfl⟩
  refine (hunwind.seq (hjump hbelow)).imp ?_ ?_
  · rintro N - - ⟨hms, -, -⟩
    exact marked_append.mpr ⟨hms, marked_cons.mpr ⟨hm N, marked_nil⟩⟩
  · rintro N - - - hN
    have harrives := haims N x (hN.aims hk) hfits.jumps
    rw [LoopExit.note, ← hlocals] at harrives
    exact ⟨⟨hN.sheltered, nofun⟩, harrives⟩

theorem Site.Tied.tryBody {site' : Site} {body : List Stmt} {handling : Option (String × List Stmt)}
    {cleanup : Option (List Stmt)}
    (h : site.Tied (Phrase.kind site' (.tryBlock body handling cleanup)).leaps d.scope.depth
      d.scope.locals) (owner : Attempt) (handler : Nat) (landing : List Duty) :
    (site.within (d.openTry cleanup owner handler landing :: site.opens) D).Tied (blockLeaps body)
      (d.scope.depth + 1) d.scope.locals := by
  have hpart : Phrase.Part (.block site body) (.kind site' (.tryBlock body handling cleanup)) :=
    .tryBody
  refine h.opened (Nat.le_succ _) (fun hsome => ?_) suffix_rfl (.refl _ _) (Nat.le_succ _) hpart
  obtain ⟨slot, hslot⟩ := Option.ne_none_iff_exists'.mp hsome
  exact (h.slot slot hslot).2.1

/-- The code of a phrase has a layout. -/
theorem Emits.laid {p : Phrase} {ν ν' : Note} (h : Emits T p d F d' ms)
    (hT : ∀ final, T final → blockLeaps final = false) (hd : p.Fits d) (ht : p.Tied d)
    (hl : p.site.LoopsIn (fun _ => True) d.offset) (hν : p.Spans d d' ν ν') :
    Laid p.site.exits d.offset F d'.offset ν ν' (Marked .stack ms) (p.Needs) := by
  induction h generalizing ν ν' with
  | stmt _ ih =>
    obtain ⟨rfl, rfl⟩ := hν
    have hkind := ih hd ht hl ⟨rfl, rfl⟩
    refine hkind.imp (fun N hstart hstop hms => ?_) fun N _ _ _ hN => ⟨hN.sheltered, hN.aims⟩
    refine marked_cons.mpr ⟨hstart.free, marked_append.mpr ⟨hms, ?_⟩⟩
    exact marked_cons.mpr ⟨hstop.free, marked_nil⟩
  | simple h =>
    obtain ⟨rfl, rfl⟩ := hν
    exact (h.laid (Site.FitsStmt.below hd)).asks fun N hN => hN.sheltered.recovers
  | nil | branchesNone | armsNone =>
    obtain ⟨rfl, rfl⟩ := hν
    exact .empty _ _
  | @cons site s ss d F d1 ms G d2 ns h _ ih ihs =>
    obtain ⟨rfl, rfl⟩ := hν
    have hhead : Phrase.Part (.stmt site s) (.body site (s :: ss)) := .cons_head s ss
    have htail : Phrase.Part (.body site ss) (.body site (s :: ss)) := .cons_tail s ss
    have hfirst := ih hd (ht.sub hhead) hl ⟨rfl, rfl⟩
    have hrest := ihs (h.fits_stmt hd)
      ((ht.sub htail).grown (h.scoped (Site.FitsStmt.tame hd)))
      (hl.mono h.added.le) ⟨rfl, rfl⟩
    exact (hfirst.asks fun N hN => hN.part hhead rfl).append
      (hrest.asks fun N hN => hN.part htail rfl)
  | @block site ss d F d1 ms drop d2 h hdrop ih =>
    obtain ⟨rfl, rfl⟩ := hν
    have hscope : d2.scope = d.scope := (Emits.block h hdrop).scoped hd.tame
    have hbelow : Below site.opens d2.scope.locals.length := by
      rw [hscope]
      exact hd.below
    have hbody := ih hd.enter ht hl ⟨rfl, rfl⟩
    exact (hbody.asks fun N hN => ⟨hN.sheltered, hN.aims⟩).more
      ((laid_leave hdrop hbelow).asks fun _ _ => trivial)
  | @ifChain site bs otherwise d F d' ms _ ih =>
    have hpart : Phrase.Part (.branches site otherwise bs) (.kind site (.ifChain bs otherwise)) :=
      .ifChain bs otherwise
    have hbranches := ih (Site.FitsStmt.block hd) (ht.sub hpart).block hl hν
    exact hbranches.asks fun N hN => hN.part hpart rfl
  | branchesElse _ ih =>
    exact (ih hd ht hl hν).asks fun N hN => ⟨hN.sheltered, hN.aims⟩
  | @branchesLast site condition body d test d1 ms skip F d2 ns htest hskip h ih =>
    obtain ⟨rfl, rfl⟩ := hν
    have hpart : Phrase.Part (.block site body) (.branches site none [(condition, body)]) :=
      .branches_head none condition body []
    have hscope1 : d1.scope = d.scope := htest.emitted.scope
    have hd1 : site.FitsBlock d1.scope d1.globals := htest.emitted.fits_block hd
    have hscope2 : d2.scope = d.scope := (h.scoped hd1.tame).trans hscope1
    have hbelow := hd.below
    have hvalue := htest.laid (X := site.exits) (Nat.le_refl _) hbelow
    have hbranch := Laid.branch (X := site.exits) (.inl rfl) hskip hbelow
    have hblock := ih hd1 ((ht.sub hpart).same hscope1)
      (hl.mono (Nat.le_add_right_of_le (Added.of_emitted htest.emitted).le))
      ⟨note_eq hscope1 site, rfl⟩
    rw [Array.append_assoc]
    refine (hvalue.seq (hbranch.seq hblock)).imp ?_ ?_
    · rintro N - - ⟨hms, -, -, -, hns⟩
      exact marked_append.mpr ⟨hms, hns⟩
    · rintro N - hstop - hN
      refine ⟨hN.sheltered.recovers, ⟨?_, hN.sheltered.recovers⟩, hN.part hpart rfl⟩
      rwa [note_eq hscope2 site] at hstop
  | @branchesCons site otherwise condition body rest d test d1 ms skip F d2 ns out G d3 os htest
      hskip h hout h' ih ihs =>
    obtain ⟨rfl, rfl⟩ := hν
    have hhead :
        Phrase.Part (.block site body) (.branches site otherwise ((condition, body) :: rest)) :=
      .branches_head otherwise condition body rest
    have htail : Phrase.Part (.branches site otherwise rest)
        (.branches site otherwise ((condition, body) :: rest)) :=
      .branches_tail otherwise condition body rest
    have hscope1 : d1.scope = d.scope := htest.emitted.scope
    have hd1 : site.FitsBlock d1.scope d1.globals := htest.emitted.fits_block hd
    have hscope2 : d2.scope = d.scope := (h.scoped hd1.tame).trans hscope1
    have hd2 : site.FitsBlock d2.scope d2.globals := h.fits_block hd1
    have hscope3 : d3.scope = d.scope := (h'.scoped hd2.tame).trans hscope2
    have hbelow := hd.below
    have hle1 := (Added.of_emitted htest.emitted).le
    have hle2 : d1.offset + 3 ≤ d2.offset := h.added.le
    have hvalue := htest.laid (X := site.exits) (Nat.le_refl _) hbelow
    have hbranch := Laid.branch (X := site.exits) (.inl rfl) hskip hbelow
    have hblock := ih hd1 ((ht.sub hhead).same hscope1)
      (hl.mono (Nat.le_add_right_of_le hle1))
      ⟨note_eq hscope1 site, note_eq hscope2 site⟩
    have hjump := Laid.jump (X := site.exits) hout hbelow (d.note site)
    have hrest := ihs hd2 ((ht.sub htail).same hscope2)
      (hl.mono (by rw [advance_offset]; omega))
      ⟨note_eq hscope2 site, note_eq hscope3 site⟩
    rw [note_eq hscope3 site]
    simp only [Array.append_assoc]
    refine (hvalue.seq (hbranch.seq (hblock.seq (hjump.seq hrest)))).imp ?_ ?_
    · rintro N - - ⟨hms, -, -, -, hns, -, -, -, hos⟩
      exact marked_append.mpr ⟨marked_append.mpr ⟨hms, hns⟩, hos⟩
    · rintro N - hstop ⟨-, -, -, -, -, -, -, hnext, -⟩ hN
      exact ⟨hN.sheltered.recovers, ⟨hnext, hN.sheltered.recovers⟩, hN.part hhead rfl, hstop,
        hN.part htail rfl⟩
  | @whileLoop site condition body d test d1 ms out F d2 ns F' back htest hout h hres hback ih =>
    obtain ⟨rfl, rfl⟩ := hν
    have hscope1 : d1.scope = d.scope := htest.emitted.scope
    have hd1 : site.FitsBlock d1.scope d1.globals := htest.emitted.fits_block hd.block
    have hscope2 : d2.scope = d.scope := (h.scoped hd1.tame).trans hscope1
    have hbelow := hd.below
    have hle1 := (Added.of_emitted htest.emitted).le
    have hbody : site.Tied false (d.scope.depth + 1) d.scope.locals :=
      ht.block.sub (by rintro ⟨⟩)
    have hvalue := htest.laid (X := site.exits) (Nat.le_refl _) hbelow
    have hbranch := Laid.branch (X := site.exits) (.inl rfl) hout hbelow
    have hblock := ih (hd1.inLoop _ _ _ _ _) ((hbody.same hscope1).inLoop hd1 _ _ _ _)
      (by rintro _ ⟨⟩; exact ⟨trivial, trivial, Nat.le_add_right_of_le hle1⟩)
      ⟨note_eq hscope1 _, note_eq hscope2 _⟩
    have hround := hblock.resolved hres (Nat.le_add_right _ _)
    have hagain := Laid.back (X := site.exits) hback hbelow (d.note site)
    rw [show (d2.advance 3).note site = d.note site from note_eq hscope2 site]
    simp only [Array.append_assoc]
    refine (hvalue.seq (hbranch.seq (hround.seq hagain))).imp ?_ ?_
    · rintro N - - ⟨hms, -, -, -, hns, -⟩
      exact marked_append.mpr ⟨hms, hns⟩
    · rintro N hstart hstop - hN
      refine ⟨hN.sheltered.recovers, ⟨hstop, hN.sheltered.recovers⟩, ⟨hN.sheltered, ?_⟩, hstart⟩
      rw [Phrase.site, hscope1]
      refine fun _ => Site.aims_inLoop hstop (by rintro ⟨⟩) ?_
      rintro _ ⟨⟩
      exact hstart
  | @countLoop site var start stop step body d first d1 ms bound d2 ns slot2 d3 stride d4 os slot4
      d5 test d6 ps out F d7 qs F' F'' next d8 rs back drop d9 hfirst hbound hslot2 hstride hslot4
      htest hout h hagain hleave hnext hback hdrop ih =>
    obtain ⟨rfl, rfl⟩ := hν
    have hd1 : site.FitsStmt d1.scope.enter d1.globals := (hfirst.grows.fits_stmt hd).block.enter
    have hd3 := (hbound.emitted.fits_stmt hd1).declared hslot2
    have hd5 := (hstride.emitted.fits_stmt hd3).declared hslot4
    have hgrown3 : d1.scope.enter.Grown d3.scope := .declared (.of_eq hbound.emitted.scope) hslot2
    have hgrown5 : d1.scope.enter.Grown d5.scope :=
      .declared (hgrown3.trans (.of_eq hstride.emitted.scope)) hslot4
    have hscope6 : d6.scope = d5.scope := htest.emitted.scope
    have hd6 := htest.emitted.fits_stmt hd5
    have hscope7 : d7.scope = d5.scope := (h.scoped hd6.tame).trans hscope6
    have hd7 : site.FitsStmt d7.scope d7.globals :=
      hd6.grown (.of_eq (h.scoped hd6.tame)) h.added.globals
    -- The variable has its place since the first assignment, so a round leaves the locals alone.
    have hscope8 : d8.scope = d5.scope := by
      refine (hnext.scope_of_places (hfirst.places.mono ?_ ?_)).trans hscope7
      · obtain ⟨new, hlocals, -⟩ := hgrown5.more
        exact ⟨new, by rw [hscope7, hlocals]; rfl⟩
      · have hglobals2 : d2.globals = d1.globals := hbound.emitted.globals
        have hglobals3 := (Scope.declared hslot2).2.2
        have hglobals4 : d4.globals = d3.globals := hstride.emitted.globals
        have hglobals5 := (Scope.declared hslot4).2.2
        have hglobals6 : d6.globals = d5.globals := htest.emitted.globals
        have hsuffix : d6.globals <:+ d7.globals := h.added.globals
        rwa [hglobals6, hglobals5, hglobals4, hglobals3, hglobals2] at hsuffix
    have hscope9 : d9.scope = d1.scope := by
      refine (leave_scope hdrop).trans ?_
      rw [advance_scope, hscope8]
      exact hgrown5.leave (hfirst.grows.scope.tame hd.tame)
    have hle6 : d5.offset ≤ d6.offset := (Added.of_emitted htest.emitted).le
    have hle7 : d6.offset + 3 ≤ d7.offset := h.added.le
    have hle8 : d7.offset ≤ d8.offset := hnext.grows.le
    have hkinds : site.Tied false d.scope.depth d.scope.locals :=
      ht.sub (by rintro ⟨⟩)
    have hbody1 : site.Tied false d1.scope.enter.depth d1.scope.enter.locals :=
      (hkinds.grown hfirst.grows.scope).block
    have hbody6 : site.Tied false (d6.scope.depth + 1) d6.scope.locals :=
      (hbody1.grown (hgrown5.trans (.of_eq hscope6))).block
    have hbelow5 := hd5.below
    have hset := hfirst.laid (X := site.exits) trivial hd.below
    have hend := laid_declared (X := site.exits) hbound hslot2 hd1.below
    have hstep := laid_declared (X := site.exits) hstride hslot4 hd3.below
    have hvalue := htest.laid (X := site.exits) (Nat.le_refl _) hbelow5
    have hbranch := Laid.branch (X := site.exits) (.inl rfl) hout hbelow5
    have hblock := ih (hd6.block.inLoop _ _ _ _ _) (hbody6.inLoop hd6.block _ _ _ _)
      (by rintro _ ⟨⟩; exact ⟨trivial, trivial⟩)
      ⟨note_eq hscope6 _, note_eq hscope7 _⟩
    have hround := (hblock.resolved hagain (Nat.le_refl _)).resolved hleave
      (Nat.le_add_right_of_le hle8)
    have hcount := hnext.laid (X := site.exits) trivial hd7.below
    have hloop := Laid.back (X := site.exits) hback hbelow5 (d5.note site)
    have hend' := laid_leave (X := site.exits) hdrop (hscope9 ▸ hd1.below)
    rw [hscope7, hscope8] at hcount
    rw [advance_scope, hscope8] at hend'
    simp only [Array.append_assoc]
    refine (hset.seq (hend.seq (hstep.seq (hvalue.seq (hbranch.seq (hround.seq (hcount.seq
      (hloop.seq hend')))))))).imp ?_ ?_
    · rintro N - - ⟨hms, -, hns, -, hos, -, hps, -, -, -, hqs, -, hrs, -⟩
      simp only [marked_append]
      exact ⟨⟨⟨⟨⟨hms, hns⟩, hos⟩, hps⟩, hqs⟩, hrs⟩
    · rintro N - - ⟨-, -, -, -, -, htop, -, -, -, -, -, hmore, -, -, -, hdone, -⟩ hN
      have hrecovers := hN.sheltered.recovers
      refine ⟨hrecovers, hrecovers, hrecovers, hrecovers, ⟨hdone, hrecovers⟩, ⟨hN.sheltered, ?_⟩,
        hrecovers, htop, trivial⟩
      rw [Phrase.site, hscope6]
      exact fun _ => Site.aims_inLoop hdone (fun _ => hmore) (by rintro _ ⟨⟩)
  | @eachLoop site var items body d place d1 all d2 ms each d3 zero d4 index d5 out bind d6 ns F d7
      os F' F'' one d8 back drop d9 hplace hall heach hzero hindex hout hbind h hagain hleave hone
      hback hdrop ih =>
    obtain ⟨rfl, rfl⟩ := hν
    have hd1 : site.FitsStmt d1.scope.enter d1.globals := (hplace.grows.fits_stmt hd).block.enter
    have hd3 := (hall.emitted.fits_stmt hd1).declared heach
    have hd4 : site.FitsStmt d4.scope d4.globals := hd3.constant hzero
    have hd5 := Site.FitsStmt.declared (d := d4.advance 3) hd4 hindex
    have hgrown3 : d1.scope.enter.Grown d3.scope := .declared (.of_eq hall.emitted.scope) heach
    have hscope4 : d4.scope = d3.scope := constant_scope hzero
    have hgrown5 : d1.scope.enter.Grown d5.scope :=
      Scope.Grown.declared (d := d4.advance 3) (hgrown3.trans (.of_eq hscope4)) hindex
    have hsuffix5 : d1.scope.locals <:+ d5.scope.locals := by
      obtain ⟨new, hlocals, -⟩ := hgrown5.more
      exact ⟨new, hlocals.symm⟩
    -- The variable has a place already, so a round leaves the locals alone.
    have hscope6 : d6.scope = d5.scope := by
      refine hbind.scope_of_places (d := d5.advance 11) (hplace.places.mono hsuffix5 ?_)
      have hglobals2 : d2.globals = d1.globals := hall.emitted.globals
      have hglobals3 := (Scope.declared heach).2.2
      have hglobals4 : d4.globals = d3.globals := (emitted_constant hzero trivial).globals
      have hglobals5 : d5.globals = d4.globals := (Scope.declared hindex).2.2
      exact
        ⟨[], by rw [nil_append, Draft.advance_globals, hglobals5, hglobals4, hglobals3, hglobals2]⟩
    have hd6 : site.FitsStmt d6.scope d6.globals := hbind.grows.fits_stmt (d := d5.advance 11) hd5
    have hscope7 : d7.scope = d5.scope := (h.scoped hd6.tame).trans hscope6
    have hscope8 : d8.scope = d5.scope := (constant_scope hone).trans hscope7
    have hscope9 : d9.scope = d1.scope := by
      refine (leave_scope hdrop).trans ?_
      rw [advance_scope, hscope8]
      exact hgrown5.leave (hplace.grows.scope.tame hd.tame)
    have hle7 : d6.offset ≤ d7.offset := h.added.le
    obtain ⟨hheight3, hslot3, hoff3⟩ := declared_height heach
    obtain ⟨hheight5, hslot5, hoff5⟩ := declared_height hindex
    have hoff4 : d4.offset = d3.offset := constant_offset hzero
    have hoff8 : d8.offset = d7.offset + 3 := constant_offset hone
    rw [advance_scope, hscope4] at hheight5 hslot5
    rw [advance_offset, hoff4] at hoff5
    have heachReach : each.toNat < d5.scope.locals.length := by omega
    have hindexReach : index.toNat < d5.scope.locals.length := by omega
    have hkinds : site.Tied false d.scope.depth d.scope.locals :=
      ht.sub (by rintro ⟨⟩)
    have hbody1 : site.Tied false d1.scope.enter.depth d1.scope.enter.locals :=
      (hkinds.grown hplace.grows.scope).block
    have hbody6 : site.Tied false (d6.scope.depth + 1) d6.scope.locals :=
      (hbody1.grown (hgrown5.trans (.of_eq hscope6))).block
    have hbelow3 := hd3.below
    have hbelow5 := hd5.below
    have hput := hplace.laid (X := site.exits) hd.below
    have hall' := laid_declared (X := site.exits) hall heach hd1.below
    have hstart : Laid site.exits d3.offset #[⟨d3.line, .instr (.constant zero)⟩] d5.offset
        (d3.note site) (d5.note site) (fun _ => True)
        (fun N => Recovers N site.opens) := by
      rw [hoff5, Draft.note, Draft.note, hheight5]
      exact Laid.plain hbelow3 rfl rfl (Nat.le_refl _) rfl rfl
    have htesting : Laid site.exits d5.offset (eachTesting d5.line each index) (d5.offset + 8)
        (d5.note site) ⟨d5.scope.locals.length + 1, site.opens, []⟩ (fun _ => True)
        (fun N => Recovers N site.opens) :=
      laid_eachTesting heachReach hindexReach hbelow5
    have hbranch := Laid.branch (X := site.exits) (.inl rfl) hout hbelow5
    have hset := Stores.laid (X := site.exits) (d := d5.advance 11) hbind
      ⟨heachReach, hindexReach⟩ hd5.below
    have hblock := ih (hd6.block.inLoop _ _ _ _ _) (hbody6.inLoop hd6.block _ _ _ _)
      (by rintro _ ⟨⟩; exact ⟨trivial, trivial⟩)
      ⟨note_eq hscope6 _, note_eq hscope7 _⟩
    have hround := (hblock.resolved hagain (Nat.le_refl _)).resolved hleave
      (Nat.le_add_right _ _)
    have hcount : Laid site.exits d7.offset (eachCounting d7.line index one) (d7.offset + 11)
        (d5.note site) (d5.note site) (fun _ => True)
        (fun N => Recovers N site.opens) :=
      laid_eachCounting hindexReach hbelow5
    have hloop := Laid.back (X := site.exits) hback hbelow5 (d5.note site)
    have hend := laid_leave (X := site.exits) hdrop (hscope9 ▸ hd1.below)
    rw [hscope6] at hset
    rw [advance_scope, hscope8, advance_offset, hoff8] at hend
    simp only [Array.append_assoc]
    refine (hput.seq (hall'.seq (hstart.seq (htesting.seq (hbranch.seq (hset.seq (hround.seq
      (hcount.seq (hloop.seq hend))))))))).imp ?_ ?_
    · rintro N - - ⟨-, -, hms, -, -, -, -, -, -, -, hns, -, hos, -⟩
      simp only [marked_append]
      exact ⟨⟨hms, hns⟩, hos⟩
    · rintro N - - ⟨-, -, -, -, -, htop, -, -, -, -, -, -, -, hmore, -, -, -, hdone, -⟩ hN
      have hrecovers := hN.sheltered.recovers
      refine ⟨hrecovers, hrecovers, hrecovers, hrecovers, ⟨hdone, hrecovers⟩, hrecovers,
        ⟨hN.sheltered, ?_⟩, hrecovers, htop, trivial⟩
      rw [Phrase.site, hscope6]
      exact fun _ => Site.aims_inLoop hdone (fun _ => hmore) (by rintro _ ⟨⟩)
  | @switchBlock site subject arms otherwise d value d1 ms slot d2 F d3 ns drop d4 hv hslot h hdrop
      ih =>
    obtain ⟨rfl, rfl⟩ := hν
    have hpart : Phrase.Part (.arms site slot otherwise arms)
        (.kind site (.switchBlock subject arms otherwise)) :=
          .switchBlock subject arms otherwise slot
    have hd1 := hv.emitted.fits_stmt hd.block.enter
    have hd2 := hd1.declared hslot
    have hgrown2 : d.scope.enter.Grown d2.scope := .declared (.of_eq hv.emitted.scope) hslot
    have hscope3 : d3.scope = d2.scope := h.scoped hd2.tame
    have hscope4 : d4.scope = d.scope := by
      refine (leave_scope hdrop).trans ?_
      rw [hscope3]
      exact hgrown2.leave hd.tame
    obtain ⟨hheight, hslot', -⟩ := declared_height hslot
    have hkinds : site.Tied _ d.scope.enter.depth d.scope.enter.locals :=
      (ht.sub hpart).block
    have hvalue := laid_declared (X := site.exits) hv hslot hd.below
    have hle := (hv.laid (X := site.exits) (Nat.le_refl _) hd.below).le
    have harms := ih hd2.block ⟨(hkinds.grown hgrown2).block, by omega⟩
      (hl.mono (by rw [(declared_height hslot).2.2]; exact hle))
      ⟨rfl, note_eq hscope3 _⟩
    have hend := laid_leave (X := site.exits) hdrop (hscope4 ▸ hd.below)
    rw [hscope3] at hend
    exact ((hvalue.asks fun N hN => hN.sheltered.recovers).append
      (harms.asks fun N hN => hN.part hpart rfl)).more (hend.asks fun _ _ => trivial)
  | armsElse _ ih =>
    exact (ih hd ht.1 hl hν).asks fun N hN => ⟨hN.sheltered, hN.aims⟩
  | @armsCons site subject otherwise values body rest d tests d1 ms F d2 ns out G d3 os htests h
      hout h' ih ihs =>
    obtain ⟨rfl, rfl⟩ := hν
    obtain ⟨ht, hsubject⟩ := ht
    have hhead : Phrase.Part (.block site body)
        (.arms site subject otherwise ((values, body) :: rest)) :=
      .arms_head subject otherwise values body rest
    have htail : Phrase.Part (.arms site subject otherwise rest)
        (.arms site subject otherwise ((values, body) :: rest)) :=
      .arms_tail subject otherwise values body rest
    have hscope1 : d1.scope = d.scope := htests.emitted.scope
    have hd1 : site.FitsBlock d1.scope d1.globals := htests.emitted.fits_block hd
    have hscope2 : d2.scope = d.scope := (h.scoped hd1.tame).trans hscope1
    have hd2 : site.FitsBlock d2.scope d2.globals := h.fits_block hd1
    have hscope3 : d3.scope = d.scope := (h'.scoped hd2.tame).trans hscope2
    have hbelow := hd.below
    have hle1 := (Added.of_emitted htests.emitted).le
    have hle2 : d1.offset ≤ d2.offset := h.added.le
    have hvalues := htests.laid (X := site.exits) hsubject (Nat.le_refl _) hbelow
    have hblock := ih hd1 ((ht.sub hhead).same hscope1) (hl.mono hle1)
      ⟨note_eq hscope1 site, note_eq hscope2 site⟩
    have hjump := Laid.jump (X := site.exits) hout hbelow (d.note site)
    have hrest := ihs hd2 ⟨(ht.sub htail).same hscope2, hscope2 ▸ hsubject⟩
      (hl.mono (by rw [advance_offset]; omega))
      ⟨note_eq hscope2 site, note_eq hscope3 site⟩
    rw [note_eq hscope3 site]
    simp only [Array.append_assoc]
    refine (hvalues.seq (hblock.seq (hjump.seq hrest))).imp ?_ ?_
    · rintro N - - ⟨hms, -, hns, -, -, -, hos⟩
      exact marked_append.mpr ⟨marked_append.mpr ⟨hms, hns⟩, hos⟩
    · rintro N - hstop ⟨-, -, -, -, -, hnext, -⟩ hN
      exact ⟨⟨hnext, hN.sheltered.recovers⟩, hN.part hhead rfl, hstop, hN.part htail rfl⟩
  | @function site name params isAsync isNative body d first slot d1 F d2 ms f d3 index d4 _ hopen h
      hf hname _ _ =>
    obtain ⟨rfl, rfl⟩ := hν
    have hscope : (d4.advance 4).scope = d.scope := by
      rw [advance_scope, constant_scope hname, advance_scope, constant_scope hf,
        Draft.withFunction]
    have hoff : (d4.advance 4).offset = d.offset + 7 := by
      rw [advance_offset, constant_offset hname, advance_offset, constant_offset hf,
        Draft.withFunction]
    rw [note_eq hscope, hoff]
    have hbelow := Site.FitsStmt.below hd
    exact ((laid_binding hbelow).asks fun N hN => hN.sheltered.recovers).unmarked
  | leavingNil hopens =>
    obtain ⟨new, opens, hall, -, rfl, rfl⟩ := hν
    obtain ⟨rfl, rfl⟩ := append_eq_nil_iff.mp (hall.symm.trans hopens)
    exact laid_nothing hopens
  | leavingStop hopens hstop =>
    obtain ⟨new, opens, hall, rfl, rfl, rfl⟩ := hν
    -- Fewer regions are left than the way out of a region would need.
    have hnew : new = [] := by
      have hlength := congrArg List.length (hopens.symm.trans hall)
      rw [length_cons, length_append] at hlength
      exact eq_nil_of_length_eq_zero (by omega)
    subst hnew
    exact laid_nothing hall
  | @leavingPlain site transfer depth t outer d drop d1 F d2 ms hopens hdepth _ hdrop _ ih =>
    obtain ⟨new, opens, hall, rfl, rfl, rfl⟩ := hν
    obtain ⟨hd, htransfer⟩ := hd
    obtain ⟨inner, rfl, rfl⟩ := opens_split (hopens.symm.trans hall) hdepth
    have hscope := discardAbove_scope hdrop
    have hd1 := hd.outer hopens suffix_rfl hscope (discardAbove_added hdrop).globals
    have ht1 : (site.within (inner ++ opens) site.duties).Tied false (d1.scope.depth + 1)
        d1.scope.locals := by
      rw [hscope]
      exact ht.outside hopens
    have hwayOut := laid_wayOut (X := site.exits) hdrop (hd.locals hopens) hd1.below
    have hrest := ih ⟨hd1, htransfer⟩ ht1
      (hl.mono (Nat.le_succ_of_le (discardAbove_added hdrop).le)) ⟨inner, opens, rfl, rfl, rfl, rfl⟩
    rw [Draft.note, hopens]
    refine (hwayOut.seq hrest).imp (fun N _ _ hK => hK.2.2) fun N _ _ _ hN => ?_
    have hsheltered := hN.sheltered
    rw [Phrase.site, hopens] at hsheltered
    exact ⟨trivial, hsheltered.2, (by rintro ⟨⟩)⟩
  | @leavingCleanup site transfer depth t outer final d drop d1 F d2 ms G d3 ns hfinal hopens hdepth
      hcleanup hdrop h _ ih ihs =>
    obtain ⟨new, opens, hall, rfl, rfl, rfl⟩ := hν
    obtain ⟨hd, htransfer⟩ := hd
    obtain ⟨inner, rfl, rfl⟩ := opens_split (hopens.symm.trans hall) hdepth
    have hscope1 := discardAbove_scope hdrop
    have hglobals := (discardAbove_added hdrop).globals
    have hle1 := (discardAbove_added hdrop).le
    have hle2 : d1.offset + 1 ≤ d2.offset := h.added.le
    have hcopy := hd.inCopy (d := d1.advance 1) hopens hcleanup hscope1 hglobals htransfer d2.offset
    have hscope2 : d2.scope = d1.scope := h.scoped hcopy.tame
    have hd2 := hd.outer hopens (settle_suffix t.owner _) (hscope2.trans hscope1)
      (hglobals.trans h.added.globals)
    have ht1 : (site.within (inner ++ opens) (settle t.owner site.duties)).Tied false
        (d1.scope.depth + 1) d1.scope.locals := by
      rw [hscope1]
      exact ht.outside hopens
    have hbelow : Below (inner ++ opens) d1.scope.locals.length := hscope2 ▸ hd2.below
    have hwayOut := laid_wayOut (X := site.exits) hdrop (hd.locals hopens) hbelow
    have hblock := ih hcopy (Site.tied_running (hT final hfinal) ht1.slot)
      (hl.mono (Nat.le_succ_of_le hle1)) ⟨rfl, note_eq hscope2 _⟩
    have hfinally := hblock.copied (hT final hfinal)
    have hrest := ihs ⟨hd2, htransfer⟩ (ht1.same hscope2) (hl.mono (by omega))
      ⟨inner, opens, rfl, rfl, note_eq hscope2 _, rfl⟩
    rw [Draft.note, hopens, Array.append_assoc]
    refine (hwayOut.seq (hfinally.seq hrest)).imp ?_ ?_
    · rintro N - - ⟨-, -, hms, -, hns⟩
      exact marked_append.mpr ⟨hms, hns⟩
    · rintro N - - - hN
      have hsheltered := hN.sheltered
      rw [Phrase.site, hopens] at hsheltered
      exact ⟨trivial, hsheltered.2, hsheltered.2, (by rintro ⟨⟩)⟩
  | @unwind site transfer scopeDepth tryDepth d F d1 ms drop d2 _ hdrop ih =>
    obtain ⟨new, opens, hall, rfl, hbelow, rfl, rfl⟩ := hν
    have hway := ih hd ht hl ⟨new, opens, hall, rfl, rfl, rfl⟩
    have hpops := laid_discardAbove (X := site.exits) hdrop hbelow
    exact (hway.asks fun N hN => ⟨hN.sheltered, (by rintro ⟨⟩)⟩).more
      (hpops.asks fun _ _ => trivial)
  | breakLoop hloop h ih =>
    obtain ⟨rfl, rfl⟩ := hν
    exact laid_leap hd ht hloop h (ih · · hl ·) (Laid.exit · _) (fun _ => trivial) rfl
      fun _ x haims hjumps => (haims x _ hjumps hloop).1
  | continueOn hloop hagain h ih =>
    obtain ⟨rfl, rfl⟩ := hν
    exact laid_leap hd ht hloop h (ih · · hl ·) (Laid.exit · _) (fun _ => trivial) rfl
      fun _ x haims hjumps => (haims x _ hjumps hloop).2.1 hagain
  | @continueBack site loop target d F d1 ms back hloop hagain h hback ih =>
    obtain ⟨rfl, rfl⟩ := hν
    have hle : target ≤ d1.offset + 3 := by
      have htarget := (hl _ hloop).2
      rw [hagain] at htarget
      have hadded := h.added.le
      have hle : target ≤ d.offset := htarget.2
      omega
    exact laid_leap hd ht hloop h (ih · · hl ·) (Laid.back (run_loopTo_backward hle hback).1 · _)
      (fun _ => trivial) rfl fun _ x haims hjumps => (haims x _ hjumps hloop).2.2 target hagain
  | @retPlain site value d F d1 ms _ _ hv =>
    obtain ⟨rfl, rfl⟩ := hν
    have hbelow := hd.below
    have hvalue := hv.laid (X := site.exits) (Nat.le_refl _) hbelow
    have hret : Laid site.exits d1.offset #[⟨d1.line, .instr .ret⟩] (d1.offset + 1)
        ⟨d.scope.locals.length + 1, site.opens, []⟩ ((d1.advance 1).note site) (fun _ => True)
        (fun N => Recovers N site.opens) := Laid.ret hbelow _
    refine ((hvalue.more hret).asks fun N hN => hN.sheltered.recovers).imp ?_ fun _ _ _ _ hN => hN
    rintro N - - hms
    exact marked_append.mpr ⟨hms, marked_cons.mpr ⟨trivial, marked_nil⟩⟩
  | @retAcross site slot value d F d1 ms G d2 ns hin hslot hopens hv h ih =>
    obtain ⟨rfl, rfl⟩ := hν
    have hbelow := hd.below
    have hscope1 : d1.scope = d.scope := hv.emitted.scope
    have hd1 : site.FitsBlock d1.scope d1.globals := hv.emitted.fits_block hd.block
    obtain ⟨hholds, hdepth, hone⟩ := ht.slot slot hslot
    have hexit := Site.FitsBlock.exit ⟨hd1.tame, hd1.fits.within suffix_rfl (giveUp_suffix _)⟩
    have ht1 : (site.within site.opens (giveUp site.duties)).Tied false (d1.scope.depth + 1)
        d1.scope.locals := by
      rw [hscope1]
      exact ht.block.within suffix_rfl fun slot hslot => (ht.slot slot hslot).1
    have hle1 : d.offset ≤ d1.offset := (Added.of_emitted hv.emitted).le
    have hway := ih ⟨hexit, fun _ _ h => h⟩ ht1 (hl.mono (Nat.le_add_right_of_le hle1))
      ⟨site.opens, [], (append_nil _).symm, rfl, below_nil, note_eq hscope1 _, rfl⟩
    -- No region is left behind the way out, and the value to be returned is still in its local.
    have hreach : slot.toNat < d2.scope.locals.length := by
      rw [h.scoped hd1.tame]
      rw [← hscope1] at hholds hdepth
      exact ((hholds.cutOut hone).cut hdepth).lt
    have hvalue := hv.laid (X := site.exits) (Nat.le_refl _) hbelow
    have hset : Flows site.exits site.opens d1.offset #[⟨d1.line, .instr (.setLocal slot)⟩]
        (d1.offset + 3) (d.scope.locals.length + 1) (d.scope.locals.length + 1) :=
      Laid.write hbelow hholds.lt
    have hpop : Laid site.exits (d1.offset + 3) #[⟨d1.line, .instr .pop⟩] (d1.offset + 4)
        ⟨d.scope.locals.length + 1, site.opens, []⟩ (d.note site) (fun _ => True)
        (fun N => Recovers N site.opens) := laid_pop hbelow
    have hget : Flows site.exits [] d2.offset #[⟨d2.line, .instr (.getLocal slot)⟩] (d2.offset + 3)
        d2.scope.locals.length (d2.scope.locals.length + 1) := Laid.read below_nil hreach
    have hret : Laid site.exits (d2.offset + 3) #[⟨d2.line, .instr .ret⟩] (d2.offset + 4)
        ⟨d2.scope.locals.length + 1, [], []⟩ (d.note site) (fun _ => True)
        (fun N => Recovers N []) := Laid.ret below_nil _
    have hnote : ((d2.advance 4).withScope { d2.scope with locals := d1.scope.locals }).note site =
        d.note site := by
      rw [Draft.note, Draft.withScope_scope, hscope1]
      rfl
    rw [hnote]
    simp only [Array.append_assoc]
    refine (hvalue.seq (hset.seq (hpop.seq (hway.seq (hget.seq hret))))).imp ?_ ?_
    · rintro N - - ⟨hms, -, -, -, -, -, hns, -⟩
      simp only [marked_append]
      exact ⟨⟨hms, hns⟩, marked_cons.mpr ⟨trivial, marked_nil⟩⟩
    · rintro N - - - hN
      have hrecovers := hN.sheltered.recovers
      exact ⟨hrecovers, hrecovers, hrecovers, ⟨hN.sheltered, (by rintro ⟨⟩)⟩, trivial, trivial⟩
  | @tryPlain site body handling d begin F d1 ms skip H d2 ns hbegin h hskip h' ih ihs =>
    obtain ⟨rfl, rfl⟩ := hν
    have hbelow := hd.below
    have hscope1 : d1.scope = d.scope := h.scoped hd.tame
    have hscope2 : d2.scope = d.scope := (h'.scoped (hscope1 ▸ hd.tame)).trans hscope1
    have hpart : Phrase.Part (.handler site (d.attempt site handling) handling none site.duties)
        (.kind site (.tryBlock body handling none)) := .tryHandler
    have hfits := hd.tryPlain handling (d1.offset + 4) site.duties
    have hbody := ih hfits (ht.tryBody _ _ _) (hl.mono (Nat.le_add_right _ _))
      ⟨rfl, note_eq hscope1 _⟩
    have hregion := laid_guarded d1.line hbegin rfl rfl rfl hbelow hfits.below hbody
    have hle1 : d.offset + 3 ≤ d1.offset := h.added.le
    have hhandler := ihs (hd.handler handling hscope1 h.added.globals)
      ((ht.sub hpart).block.same hscope1) (hl.mono (by rw [advance_offset]; omega))
      ⟨by rw [advance_scope, hscope1], note_eq hscope2 _⟩
    rw [note_eq hscope2]
    refine (laid_handled hskip hbelow hregion hhandler).asks fun N hN => ⟨fun harrives => ?_, ?_⟩
    · exact ⟨⟨harrives, hN.sheltered⟩, fun hl => hN.aims (Phrase.Part.tryBody hl)⟩
    · exact hN.part hpart rfl
  | @tryCleanup site body handling final d begin F d1 ms skip landing H d2 ns G d3 os hfinal
    hbegin h
      hskip h' h'' ih ihs ihf =>
    obtain ⟨rfl, rfl⟩ := hν
    have hbelow := hd.below
    have hscope1 : d1.scope = d.scope := h.scoped hd.tame
    have hscope2 : d2.scope = d.scope := (h'.scoped (hscope1 ▸ hd.tame)).trans hscope1
    have hscope3 : d3.scope = d.scope := (h''.scoped (hscope2 ▸ hd.tame)).trans hscope2
    have hpart : Phrase.Part (.handler site (d.attempt site handling) handling (some final) landing)
        (.kind site (.tryBlock body handling (some final))) := .tryHandler
    have hfits := hd.tryCleanup final handling (d1.offset + 4) landing
    have hbody := ih hfits (ht.tryBody _ _ _) (hl.mono (Nat.le_add_right _ _))
      ⟨rfl, note_eq hscope1 _⟩
    have hregion := laid_guarded d1.line hbegin rfl rfl rfl hbelow hfits.below hbody
    have hle1 : d.offset + 3 ≤ d1.offset := h.added.le
    have hle2 : d1.offset + 4 ≤ d2.offset := h'.added.le
    have hhandler := ihs (hd.handler handling hscope1 h.added.globals)
      ((ht.sub hpart).block.same hscope1) (hl.mono (by rw [advance_offset]; omega))
      ⟨by rw [advance_scope, hscope1], note_eq hscope2 _⟩
    have hstatement := laid_handled hskip hbelow hregion hhandler
    -- Both ways lead to the copy behind the handler.
    have hcopy := ihf (hd.onward handling final d3.offset hscope2
        (h.added.globals.trans h'.added.globals))
      (Site.tied_running (hT final hfinal) (ht.block.same hscope2).slot) (hl.mono (by omega))
      ⟨note_eq hscope2 _, note_eq hscope3 _⟩
    rw [note_eq hscope3]
    refine (hstatement.seq (hcopy.copied (hT final hfinal))).imp ?_ ?_
    · rintro N - - ⟨hms, -, hos⟩
      exact marked_append.mpr ⟨hms, hos⟩
    · rintro N - - - hN
      refine ⟨⟨fun harrives => ?_, ?_⟩, hN.sheltered⟩
      · exact ⟨⟨harrives, hN.sheltered⟩, fun hl => hN.aims (Phrase.Part.tryBody hl)⟩
      · exact hN.part hpart rfl
  | handlerNone =>
    obtain ⟨rfl, rfl⟩ := hν
    exact ((Laid.pop hd.toFitsBlock.below).asks fun _ _ => trivial).unmarked
  | @handlerCatch site owner name body d slot d1 F d2 ms drop d3 hslot h hdrop ih =>
    obtain ⟨rfl, rfl⟩ := hν
    have hpart : Phrase.Part (.body site body)
        (.handler site owner (some (name, body)) none site.duties) := .handlerBody
    have hd1 : site.FitsStmt d1.scope d1.globals := hd.enter.declared hslot
    have hgrown1 : d.scope.enter.Grown d1.scope := .declared (.refl _) hslot
    have hscope3 : d3.scope = d.scope :=
      (leave_scope hdrop).trans ((hgrown1.trans (h.scoped hd1.tame)).leave hd.tame)
    obtain ⟨hheight, -, hoff⟩ := declared_height hslot
    have hkinds : site.Tied _ d.scope.enter.depth d.scope.enter.locals :=
      ht.sub hpart
    have hbody := ih hd1 (hkinds.grown hgrown1) (hl.mono (Nat.le_of_eq hoff.symm)) ⟨rfl, rfl⟩
    rw [Draft.note, hheight, hoff] at hbody
    exact (hbody.asks fun N hN => hN.part hpart rfl).more
      ((laid_leave hdrop (hscope3 ▸ hd.toFitsBlock.below)).asks fun _ _ => trivial)
  | @handlerFinally site owner final d slot d1 F d2 ms hfinal hslot h ih =>
    obtain ⟨rfl, rfl⟩ := hν
    obtain ⟨-, hlocals, hglobals⟩ := Scope.declared hslot
    obtain ⟨hheight, hslot', hoff⟩ := declared_height hslot
    have hgrown1 : d.scope.enter.Grown d1.scope := .declared (.refl _) hslot
    have hfits := hd.rethrow hgrown1 [⟨errorName, _⟩] hlocals (by simp)
      (by rw [hglobals]; exact suffix_rfl) final slot d2.offset
    have hscope2 : d2.scope = d1.scope := h.scoped hfits.tame
    have hd1 : site.FitsStmt d1.scope d1.globals := hd.enter.declared hslot
    have ht0 : site.Tied _ d.scope.enter.depth d.scope.enter.locals := ht
    have hcopy := ih hfits (Site.tied_running (hT final hfinal) (ht0.grown hgrown1).block.slot)
      (hl.mono (Nat.le_of_eq hoff.symm)) ⟨rfl, note_eq hscope2 _⟩
    have hcopied := hcopy.copied (hT final hfinal)
    have hstart : d.scope.locals.length + 1 = d1.scope.locals.length := hheight.symm
    rw [hoff] at hcopied
    rw [hstart]
    exact (laid_rethrow d2.line (by omega) hd1.below _ hcopied).asks
      fun N hN => hN.sheltered
  | @handlerBoth site owner name body final d slot d1 begin F d2 ms drop d3 skip caught d4 error d5
      G d6 ns hfinal hslot hbegin h hdrop hskip hcaught herror h' ih ihf =>
    obtain ⟨rfl, rfl⟩ := hν
    obtain ⟨-, hlocals, hglobals⟩ := Scope.declared hslot
    obtain ⟨hheight, -, hoff⟩ := declared_height hslot
    have hgrown1 : d.scope.enter.Grown d1.scope := .declared (.refl _) hslot
    have hd1 : site.FitsStmt d1.scope d1.globals := hd.enter.declared hslot
    have hpart : Phrase.Part (.block site body)
        (.handler site owner (some (name, body)) (some final) (.owed owner :: site.duties)) :=
      .handlerGuarded
    have hfits := hd.guarded hgrown1 hlocals (hglobals ▸ suffix_rfl) final (d3.offset + 3)
      (.running (d5.copy owner final (.rethrow error) d6.offset) :: site.duties)
    have hscope2 : d2.scope = d1.scope := h.scoped hfits.tame
    have hscope3 : d3.scope = d.scope := handled_scope hd.tame hslot hscope2 hdrop
    have hglobals3 : d.globals <:+ d3.globals := by
      have hinner : d1.globals <:+ d2.globals := h.added.globals
      rw [hglobals] at hinner
      exact hinner.trans (leave_added hdrop).globals
    -- The copy begins with the two messages in front of the locals of the statement.
    obtain ⟨hgrown5, hlocals', hglobals5⟩ := rethrow_scope hscope3 hcaught herror
    have hglobals' : d.globals <:+ d5.globals := hglobals5 ▸ hglobals3
    have hfits5 := hd.rethrow hgrown5 _ hlocals' (by simp) hglobals' final error d6.offset
    have hscope6 : d6.scope = d5.scope := h'.scoped hfits5.tame
    have hscope7 : d6.scope.leave = d.scope := by
      rw [hscope6]
      exact hgrown5.leave hd.tame
    have hheight1 : d1.scope.locals.length = d.scope.locals.length + 1 := hheight
    have hheight5 : d5.scope.locals.length = d1.scope.locals.length + 1 := by
      rw [hlocals', hheight1]
      rfl
    obtain ⟨hlength5, hslot5, hoff5⟩ := declared_height herror
    obtain ⟨-, -, hoff4⟩ := declared_height hcaught
    have hoff1 : d1.offset = d.offset := hoff
    have hle2 : d1.offset + 3 ≤ d2.offset := h.added.le
    have hle3 : d2.offset + 1 ≤ d3.offset := (leave_added hdrop).le
    have hoff5' : d5.offset = d3.offset + 3 := hoff5.trans hoff4
    have ht0 : site.Tied _ d.scope.enter.depth d.scope.enter.locals := ht
    have htied : (site.within (d1.openTry (some final) owner (d3.offset + 3)
        (.running (d5.copy owner final (.rethrow error) d6.offset) :: site.duties) :: site.opens)
        (.owed owner :: site.duties)).Tied (blockLeaps body) (d1.scope.depth + 1)
          d1.scope.locals := by
      have hdepth1 : d1.scope.depth = d.scope.depth + 1 := hgrown1.depth
      refine ht.opened ?_ (fun _ => ?_) ⟨[_], hlocals.symm⟩ hgrown1.agree ?_ hpart
      · show d.scope.depth + 1 ≤ d1.scope.depth + 1
        omega
      · show 1 ≤ d1.scope.depth
        omega
      · omega
    have hbelow := hd.toFitsBlock.below
    have hbody := ih hfits htied (hl.mono (by rw [advance_offset]; omega))
      ⟨rfl, note_eq hscope2 _⟩
    rw [advance_offset, hoff1] at hbody
    have hregion := laid_guarded d2.line hbegin rfl hoff1 rfl hd1.below hfits.below hbody
    have hleave : Laid site.exits (d2.offset + 1) drop d3.offset
        ⟨d1.scope.locals.length, site.opens, []⟩ (d.note site) (fun _ => True)
        (fun _ => True) := by
      have hpops := laid_leave (X := site.exits) hdrop (hscope3 ▸ hbelow)
      rwa [advance_scope, hscope2, hscope3] at hpops
    have hd5 : site.FitsStmt d5.scope d5.globals := hd.entered hgrown5 hglobals'
    have hcopy := ihf hfits5 (Site.tied_running (hT final hfinal) (ht0.grown hgrown5).block.slot)
      (hl.mono (by omega)) ⟨rfl, note_eq hscope6 _⟩
    have hcopied := hcopy.copied (hT final hfinal)
    rw [hoff5'] at hcopied
    have hreach : error.toNat < d5.scope.locals.length := by omega
    have hrethrow := laid_rethrow d6.line hreach hd5.below (d.note site) hcopied
    have hall := laid_handled hskip hbelow (hregion.more (hleave.asks fun _ _ => trivial)) hrethrow
    have hnote : d.note site = ((d6.advance 4).withScope d6.scope.leave).note site :=
      (note_eq hscope7 site).symm
    rw [← hnote, ← hheight1]
    simp only [Array.append_assoc] at hall ⊢
    refine hall.asks fun N hN => ⟨fun harrives => ?_, hN.sheltered⟩
    rw [hheight5] at harrives
    exact ⟨⟨harrives, hN.sheltered⟩, fun hl => hN.aims (hpart hl)⟩

end TaskBasic
