import TaskBasic.Proofs.Code.Scoping

/-
What stays in place while the locals of a function come and go.

A `try` statement, an open region, a copy of a `finally` block and a loop each
know the locals that were live where they began.  Inside of them these locals
are what is left when the deeper ones are cut off (`Attempt.Fits`,
`OpenTry.Fits`, `Copy.Fits`, `Site.Fits`), and names of globals are only added.

* `Site.FitsStmt`, `Site.FitsBlock`, `Site.FitsExit` — a site fits a draft,
  before a statement, before a block, and on the way out of `try` regions.
* `Emits.anchored` — at every place in the code the duties fit the locals.
-/

namespace TaskBasic

open Compile List

variable {t : OpenTry}

/-! ### Locals that agree -/

/-- The locals `L'` are those of `L`, as far as they are not deeper than `bound`. -/
def Agree (bound : Nat) (L L' : List Local) : Prop :=
  ∀ k < bound, cut k L' = cut k L

theorem Agree.refl (bound : Nat) (L : List Local) : Agree bound L L :=
  fun _ _ => rfl

theorem agree_cut {k bound : Nat} (hk : bound ≤ k + 1) (L : List Local) :
    Agree bound L (cut k L) := by
  intro j hj
  exact cut_cut (by omega) L

theorem Scope.Grown.agree {s s' : Scope} (h : s.Grown s') : Agree s.depth s.locals s'.locals := by
  obtain ⟨-, ⟨new, hlocals, hnew⟩, -⟩ := h
  intro k hk
  rw [hlocals]
  refine cut_append _ fun l hl => ?_
  rw [hnew l hl]
  exact hk

/-! ### Things that fit -/

/-- What a `try` statement knows of the locals and globals at a place inside of it. -/
structure Attempt.Fits (a : Attempt) (L : List Local) (G : List String) : Prop where
  locals : cut a.depth L = a.locals
  globals : a.globals <:+ G
  home : ∀ loop, a.home = some loop → loop.depth ≤ a.depth ∧ cut loop.depth a.locals = loop.locals

/-- The names that a copy of a `finally` block can hide by its way in: those of the hidden locals
where a message is kept, and the variable of the catch block. -/
def Transfer.Hides (owner : Attempt) (name : String) : Transfer → Prop
  | onward => False
  | rethrow _ => name = caughtName ∨ name = errorName
  | jump _ | ret _ => owner.caught = some name

/-- What a copy of a `finally` block knows at a place inside of it. -/
structure Copy.Fits (c : Copy) (L : List Local) (G : List String) : Prop where
  owner : c.owner.Fits L G
  depth : c.owner.depth ≤ c.depth
  locals : cut c.depth L = c.locals
  extra : ∃ extra, c.locals = extra ++ c.owner.locals ∧
    ∀ l ∈ extra, c.transfer.Hides c.owner l.name

/-- What an open region knows at a place inside of it. -/
structure OpenTry.Fits (t : OpenTry) (L : List Local) (G : List String) : Prop where
  owner : t.owner.Fits L G
  depth : t.owner.depth ≤ t.frame.scopeDepth
  locals : cut t.frame.scopeDepth L = t.locals
  extra : ∃ extra, t.locals = extra ++ t.owner.locals ∧ ∀ l ∈ extra, t.owner.caught = some l.name

namespace Duty

/-- Locals declared deeper are not known to the duty. -/
def depth : Duty → Nat
  | owed a => a.depth
  | running c => c.depth

/-- What a duty knows at a place that has it. -/
def Fits (L : List Local) (G : List String) : Duty → Prop
  | owed a => a.Fits L G
  | running c => c.Fits L G

end Duty

section

variable {bound : Nat} {L L' : List Local} {G G' : List String}

theorem Attempt.Fits.mono {a : Attempt} (h : a.Fits L G) (hk : a.depth < bound)
    (hL : Agree bound L L') (hG : G <:+ G') : a.Fits L' G' :=
  ⟨(hL _ hk).trans h.locals, h.globals.trans hG, h.home⟩

theorem Copy.Fits.mono {c : Copy} (h : c.Fits L G) (hk : c.depth < bound) (hL : Agree bound L L')
    (hG : G <:+ G') : c.Fits L' G' :=
  ⟨h.owner.mono (Nat.lt_of_le_of_lt h.depth hk) hL hG, h.depth, (hL _ hk).trans h.locals, h.extra⟩

theorem OpenTry.Fits.mono (h : t.Fits L G) (hk : t.frame.scopeDepth < bound)
    (hL : Agree bound L L') (hG : G <:+ G') : t.Fits L' G' :=
  ⟨h.owner.mono (Nat.lt_of_le_of_lt h.depth hk) hL hG, h.depth, (hL _ hk).trans h.locals, h.extra⟩

theorem Duty.Fits.mono {x : Duty} (h : x.Fits L G) (hk : x.depth < bound) (hL : Agree bound L L')
    (hG : G <:+ G') : x.Fits L' G' := by
  cases x with
  | owed a => exact Attempt.Fits.mono h hk hL hG
  | running c => exact Copy.Fits.mono h hk hL hG

end

/-! ### Duties that are settled -/

theorem settle_suffix (a : Attempt) (D : List Duty) : settle a D <:+ D := by
  induction D with
  | nil => exact suffix_rfl
  | cons x D ih =>
    cases x with
    | owed b =>
      rw [settle]
      split
      · exact suffix_cons _ _
      · exact ih.trans (suffix_cons _ _)
    | running c => exact ih.trans (suffix_cons _ _)

theorem settle_of_suffix (a : Attempt) {D D' : List Duty} (h : D' <:+ D) :
    settle a D' <:+ settle a D := by
  induction D with
  | nil =>
    obtain rfl := List.suffix_nil.mp h
    exact suffix_rfl
  | cons x D ih =>
    rcases List.suffix_cons_iff.mp h with rfl | hrest
    · exact suffix_rfl
    · cases x with
      | owed b =>
        rw [settle]
        split
        · exact (settle_suffix a D').trans hrest
        · exact ih hrest
      | running c => exact ih hrest

theorem giveUp_suffix (D : List Duty) : giveUp D <:+ D :=
  dropWhile_suffix _

/-! ### Sites that fit -/

/-- What surrounds a statement knows its locals; locals of depth `bound` or deeper are not known
to it. -/
structure Site.Fits (site : Site) (bound : Nat) (L : List Local) (G : List String) : Prop where
  opens : ∀ t ∈ site.opens, t.frame.scopeDepth < bound ∧ t.Fits L G
  ordered : site.opens.Pairwise fun t u => u.frame.scopeDepth ≤ t.frame.scopeDepth
  duties : ∀ x ∈ site.duties, x.depth < bound ∧ x.Fits L G
  /-- The duties outside of a region are not deeper than the region. -/
  settled : ∀ t ∈ site.opens, t.frame.cleanup ≠ none →
    ∀ x ∈ settle t.owner site.duties, x.depth ≤ t.frame.scopeDepth
  home : ∀ loop, site.home = some loop → loop.depth < bound ∧ cut loop.depth L = loop.locals

namespace Site

variable {site : Site} {bound bound' : Nat} {L L' : List Local} {G G' : List String} {s s' : Scope}
  {d d' : Draft}

theorem Fits.mono (h : site.Fits bound L G) (hL : Agree bound L L') (hG : G <:+ G')
    (hbound : bound ≤ bound') : site.Fits bound' L' G' where
  opens t ht := by
    obtain ⟨hk, hfits⟩ := h.opens t ht
    exact ⟨Nat.lt_of_lt_of_le hk hbound, hfits.mono hk hL hG⟩
  ordered := h.ordered
  duties x hx := by
    obtain ⟨hk, hfits⟩ := h.duties x hx
    exact ⟨Nat.lt_of_lt_of_le hk hbound, hfits.mono hk hL hG⟩
  settled := h.settled
  home loop hloop := by
    obtain ⟨hk, hlocals⟩ := h.home loop hloop
    exact ⟨Nat.lt_of_lt_of_le hk hbound, (hL _ hk).trans hlocals⟩

theorem Fits.within (h : site.Fits bound L G) {opens : List OpenTry} {duties : List Duty}
    (hopens : opens <:+ site.opens) (hduties : duties <:+ site.duties) :
    (site.within opens duties).Fits bound L G where
  opens t ht := h.opens t (hopens.mem ht)
  ordered := h.ordered.sublist hopens.sublist
  duties x hx := h.duties x (hduties.mem hx)
  settled t ht hcleanup x hx :=
    h.settled t (hopens.mem ht) hcleanup x ((settle_of_suffix t.owner hduties).mem hx)
  home := h.home

theorem Fits.inLoop (h : site.Fits bound L G) (frame : LoopFrame) (exits : Exit → Nat)
    {loop : LoopMark} (hk : loop.depth < bound) (hlocals : cut loop.depth L = loop.locals) :
    (site.inLoop frame exits loop).Fits bound L G where
  opens := h.opens
  ordered := h.ordered
  duties := h.duties
  settled := h.settled
  home loop' hloop' := by
    cases hloop'
    exact ⟨hk, hlocals⟩

theorem Fits.running (h : site.Fits bound L G) {opens : List OpenTry} {duties : List Duty}
    (hopens : opens <:+ site.opens) (hduties : duties <:+ site.duties) {c : Copy}
    (hk : c.depth < bound) (hc : c.Fits L G) : (site.running opens c duties).Fits bound L G where
  opens := (h.within hopens hduties).opens
  ordered := (h.within hopens hduties).ordered
  duties := forall_mem_cons.mpr ⟨⟨hk, hc⟩, (h.within hopens hduties).duties⟩
  settled := (h.within hopens hduties).settled
  home loop hloop := by
    obtain ⟨hle, hlocals⟩ := hc.owner.home loop hloop
    have hdepth : loop.depth ≤ c.owner.depth := hle
    refine ⟨Nat.lt_of_le_of_lt (Nat.le_trans hdepth hc.depth) hk, ?_⟩
    rw [← cut_cut hdepth, hc.owner.locals]
    exact hlocals

/-- The body of a `try` statement without a `finally` block. -/
theorem Fits.opening (h : site.Fits bound L G) (hk : t.frame.scopeDepth < bound)
    (ht : t.Fits L G) (hcleanup : t.frame.cleanup = none)
    (hinner : ∀ u ∈ site.opens, u.frame.scopeDepth ≤ t.frame.scopeDepth) :
    (site.within (t :: site.opens) site.duties).Fits bound L G where
  opens := forall_mem_cons.mpr ⟨⟨hk, ht⟩, h.opens⟩
  ordered := pairwise_cons.mpr ⟨hinner, h.ordered⟩
  duties := h.duties
  settled := forall_mem_cons.mpr ⟨fun h' => absurd hcleanup h', h.settled⟩
  home := h.home

/-- The body of a `try` statement with a `finally` block, or its catch block. -/
theorem Fits.owing (h : site.Fits bound L G) (hk : t.frame.scopeDepth < bound)
    (ht : t.Fits L G) (hinner : ∀ u ∈ site.opens, u.frame.scopeDepth ≤ t.frame.scopeDepth)
    (hdepth : ∀ x ∈ site.duties, x.depth ≤ t.owner.depth) :
    (site.within (t :: site.opens) (.owed t.owner :: site.duties)).Fits bound L G where
  opens := forall_mem_cons.mpr ⟨⟨hk, ht⟩, h.opens⟩
  ordered := pairwise_cons.mpr ⟨hinner, h.ordered⟩
  duties := forall_mem_cons.mpr ⟨⟨Nat.lt_of_le_of_lt ht.depth hk, ht.owner⟩, h.duties⟩
  settled u hu hu' x hx := by
    have hx : x ∈ settle u.owner (.owed t.owner :: site.duties) := hx
    rcases mem_cons.mp hu with rfl | hu
    · rw [settle_owed_self] at hx
      exact Nat.le_trans (hdepth x hx) ht.depth
    · rw [settle] at hx
      split at hx
      next hsame =>
        have hle : u.owner.depth ≤ u.frame.scopeDepth := (h.opens u hu).2.depth
        rw [← hsame] at hle
        exact Nat.le_trans (hdepth x hx) hle
      next => exact h.settled u hu hu' x hx
  home := h.home

/-- A site fits the scope and the globals before a statement. -/
structure FitsStmt (site : Site) (s : Scope) (G : List String) : Prop where
  tame : s.Tame
  fits : site.Fits s.depth s.locals G

structure FitsBlock (site : Site) (s : Scope) (G : List String) : Prop where
  tame : s.Tame
  fits : site.Fits (s.depth + 1) s.locals G

/-- A site fits the scope and the globals on the way out of its regions: some of the locals that
it knows have been dropped. -/
structure FitsExit (site : Site) (s : Scope) (G : List String) : Prop where
  tame : s.Tame
  fits : ∃ L k, site.Fits (s.depth + 1) L G ∧ s.locals = cut k L ∧
    ∀ t ∈ site.opens, t.frame.scopeDepth ≤ k

theorem FitsStmt.grown (h : site.FitsStmt s G) (hs : s.Grown s') (hG : G <:+ G') :
    site.FitsStmt s' G' := by
  refine ⟨hs.tame h.tame, ?_⟩
  rw [hs.1]
  exact h.fits.mono hs.agree hG (Nat.le_refl _)

theorem FitsStmt.block (h : site.FitsStmt s G) : site.FitsBlock s G :=
  ⟨h.tame, h.fits.mono (.refl _ _) suffix_rfl (Nat.le_succ _)⟩

theorem FitsBlock.same (h : site.FitsBlock s G) (hs : s' = s) (hG : G <:+ G') :
    site.FitsBlock s' G' := by
  rw [hs]
  exact ⟨h.tame, h.fits.mono (.refl _ _) hG (Nat.le_refl _)⟩

theorem FitsBlock.enter (h : site.FitsBlock s G) : site.FitsStmt s.enter G :=
  ⟨h.tame.enter, h.fits⟩

theorem FitsBlock.exit (h : site.FitsBlock s G) : site.FitsExit s G := by
  refine ⟨h.tame, s.locals, s.depth, h.fits, (cut_of_le h.tame.depth).symm, ?_⟩
  intro t ht
  exact Nat.le_of_lt_succ (h.fits.opens t ht).1

/-- The body of a loop that begins here. -/
theorem FitsBlock.inLoop (h : site.FitsBlock s G) (frame : LoopFrame) (exits : Exit → Nat)
    (leaveTo againTo tryDepth : Nat) :
    (site.inLoop frame exits ⟨leaveTo, againTo, s.depth, s.locals, tryDepth⟩).FitsBlock s G :=
  ⟨h.tame, h.fits.inLoop frame exits (Nat.lt_succ_self _) (cut_of_le h.tame.depth)⟩

/-! #### `try` statements -/

/-- A `try` statement knows the locals where it begins. -/
theorem FitsStmt.attempt (h : site.FitsStmt d.scope d.globals)
    (handling : Option (String × List Stmt)) :
    (d.attempt site handling).Fits d.scope.locals d.globals where
  locals := cut_of_le h.tame.depth
  globals := suffix_rfl
  home loop hloop := by
    obtain ⟨hk, hlocals⟩ := h.fits.home loop hloop
    exact ⟨Nat.le_of_lt hk, hlocals⟩

/-- So does the region of its body. -/
theorem FitsStmt.openTry (h : site.FitsStmt d.scope d.globals) (cleanup : Option (List Stmt))
    (handling : Option (String × List Stmt)) (handler : Nat) (landing : List Duty) :
    (d.openTry cleanup (d.attempt site handling) handler landing).Fits d.scope.locals
      d.globals where
  owner := h.attempt handling
  depth := Nat.le_refl _
  locals := cut_of_le h.tame.depth
  extra := ⟨[], rfl, nofun⟩

theorem FitsStmt.tryPlain (h : site.FitsStmt d.scope d.globals)
    (handling : Option (String × List Stmt)) (handler : Nat) (landing : List Duty) :
    (site.within (d.openTry none (d.attempt site handling) handler landing :: site.opens)
      site.duties).FitsBlock d.scope d.globals :=
  ⟨h.tame, h.block.fits.opening (Nat.lt_succ_self _) (h.openTry none handling handler landing) rfl
    fun u hu => Nat.le_of_lt (h.fits.opens u hu).1⟩

theorem FitsStmt.tryCleanup (h : site.FitsStmt d.scope d.globals) (final : List Stmt)
    (handling : Option (String × List Stmt)) (handler : Nat) (landing : List Duty) :
    (site.within (d.openTry (some final) (d.attempt site handling) handler landing :: site.opens)
      (.owed (d.attempt site handling) :: site.duties)).FitsBlock d.scope d.globals := by
  refine ⟨h.tame, h.block.fits.owing (Nat.lt_succ_self _)
    (h.openTry (some final) handling handler landing) ?_ ?_⟩
  · intro u hu
    exact Nat.le_of_lt (h.fits.opens u hu).1
  · intro x hx
    exact Nat.le_of_lt (h.fits.duties x hx).1

/-- The copy behind the handler begins with the locals of the statement. -/
theorem FitsStmt.onward (h : site.FitsStmt d.scope d.globals)
    (handling : Option (String × List Stmt)) (final : List Stmt) (stop : Nat)
    (hscope : d'.scope = d.scope) (hglobals : d.globals <:+ d'.globals) :
    (site.running site.opens (d'.copy (d.attempt site handling) final .onward stop)
      site.duties).FitsBlock d'.scope d'.globals := by
  have hd' : site.FitsBlock d'.scope d'.globals := h.block.same hscope hglobals
  have howner : (d.attempt site handling).Fits d'.scope.locals d'.globals := by
    rw [hscope]
    exact (h.attempt handling).mono (Nat.lt_succ_self _) (.refl _ _) hglobals
  refine ⟨hd'.tame, hd'.fits.running suffix_rfl suffix_rfl (Nat.lt_succ_self _) ?_⟩
  refine ⟨howner, ?_, cut_of_le hd'.tame.depth, [], ?_, nofun⟩
  · show d.scope.depth ≤ d'.scope.depth
    exact Nat.le_of_eq (by rw [hscope])
  · show d'.scope.locals = d.scope.locals
    rw [hscope]

/-! #### Handlers -/

/-- A site and a `try` statement fit the scope and the globals before the statement's handler. -/
structure FitsHandler (site : Site) (owner : Attempt) (handling : Option (String × List Stmt))
    (s : Scope) (G : List String) : Prop extends site.FitsBlock s G where
  known : owner.Fits s.locals G
  depth : owner.depth = s.depth
  caught : owner.caught = handling.map Prod.fst

variable {owner : Attempt} {handling : Option (String × List Stmt)}

/-- The handler begins with the locals of the statement. -/
theorem FitsStmt.handler (h : site.FitsStmt d.scope d.globals)
    (handling : Option (String × List Stmt)) (hs : s = d.scope) (hG : d.globals <:+ G) :
    site.FitsHandler (d.attempt site handling) handling s G := by
  rw [hs]
  refine ⟨h.block.same rfl hG, ?_, rfl, rfl⟩
  exact (h.attempt handling).mono (Nat.lt_succ_self _) (.refl _ _) hG

namespace FitsHandler

theorem locals (h : site.FitsHandler owner handling s G) : owner.locals = s.locals := by
  rw [← h.known.locals, h.depth]
  exact cut_of_le h.tame.depth

/-- Inside the handler, with some locals in front. -/
theorem entered (h : site.FitsHandler owner handling s G) (hs : s.enter.Grown s') (hG : G <:+ G') :
    site.FitsStmt s' G' :=
  h.enter.grown hs hG

/-- What the `try` statement knows inside its handler. -/
theorem owner_entered (h : site.FitsHandler owner handling s G) (hs : s.enter.Grown s')
    (hG : G <:+ G') : owner.Fits s'.locals G' := by
  refine h.known.mono ?_ hs.agree hG
  rw [h.depth]
  exact Nat.lt_succ_self _

theorem rethrow (h : site.FitsHandler owner handling s G) (hs : s.enter.Grown d.scope)
    (new : List Local) (hlocals : d.scope.locals = new ++ s.locals)
    (hnew : ∀ l ∈ new, l.name = caughtName ∨ l.name = errorName)
    (hG : G <:+ d.globals) (final : List Stmt) (slot : UInt16) (stop : Nat) :
    (site.running site.opens (d.copy owner final (.rethrow slot) stop) site.duties).FitsBlock
      d.scope d.globals := by
  have hd : site.FitsStmt d.scope d.globals := h.entered hs hG
  refine ⟨hd.tame, hd.block.fits.running suffix_rfl suffix_rfl (Nat.lt_succ_self _) ?_⟩
  refine ⟨h.owner_entered hs hG, ?_, cut_of_le hd.tame.depth, new, ?_, ?_⟩
  · show owner.depth ≤ d.scope.depth
    rw [h.depth, hs.depth]
    exact Nat.le_succ _
  · show d.scope.locals = new ++ owner.locals
    rw [hlocals, h.locals]
  · exact hnew

/-- The guarded catch block. -/
theorem guarded {name : String} {body : List Stmt}
    (h : site.FitsHandler owner (some (name, body)) s G) (hs : s.enter.Grown d.scope)
    (hlocals : d.scope.locals = ⟨name, s.depth + 1⟩ :: s.locals) (hG : G <:+ d.globals)
    (final : List Stmt) (handler : Nat) (landing : List Duty) :
    (site.within (d.openTry (some final) owner handler landing :: site.opens)
      (.owed owner :: site.duties)).FitsBlock d.scope d.globals := by
  have hd : site.FitsStmt d.scope d.globals := h.entered hs hG
  have ht : (d.openTry (some final) owner handler landing).Fits d.scope.locals d.globals := by
    refine ⟨h.owner_entered hs hG, ?_, cut_of_le hd.tame.depth, [⟨name, s.depth + 1⟩], ?_, ?_⟩
    · show owner.depth ≤ d.scope.depth
      rw [h.depth, hs.depth]
      exact Nat.le_succ _
    · show d.scope.locals = _ :: owner.locals
      rw [hlocals, h.locals]
    · intro l hl
      rw [mem_singleton.mp hl]
      exact h.caught
  refine ⟨hd.tame, hd.block.fits.owing (Nat.lt_succ_self _) ht ?_ ?_⟩
  · intro u hu
    exact Nat.le_of_lt (hd.fits.opens u hu).1
  · intro x hx
    have hk := (h.fits.duties x hx).1
    show x.depth ≤ owner.depth
    rw [h.depth]
    exact Nat.le_of_lt_succ hk

end FitsHandler

/-! #### Ways out -/

/-- Behind the locals of the innermost region, its locals are left. -/
theorem FitsExit.locals (h : site.FitsExit s G) {outer : List OpenTry}
    (hopens : site.opens = t :: outer) : cut t.frame.scopeDepth s.locals = t.locals := by
  obtain ⟨-, L, k, hfits, hlocals, hk⟩ := h
  have ht : t ∈ site.opens := hopens ▸ mem_cons_self
  rw [hlocals, cut_cut (hk t ht)]
  exact (hfits.opens t ht).2.locals

/-- The regions outside of the innermost one, behind its locals. -/
theorem FitsExit.outer (h : site.FitsExit s G) {outer : List OpenTry}
    (hopens : site.opens = t :: outer) {duties : List Duty} (hduties : duties <:+ site.duties)
    (hs : s' = { s with locals := cut t.frame.scopeDepth s.locals }) (hG : G <:+ G') :
    (site.within outer duties).FitsExit s' G' := by
  obtain ⟨htame, L, k, hfits, hlocals, hk⟩ := h
  have houter : outer <:+ site.opens := hopens ▸ suffix_cons t outer
  have hle : t.frame.scopeDepth ≤ k := hk t (hopens ▸ mem_cons_self)
  have hordered : (t :: outer).Pairwise fun t u => u.frame.scopeDepth ≤ t.frame.scopeDepth :=
    hopens ▸ hfits.ordered
  rw [hs]
  refine ⟨htame.cut _, L, t.frame.scopeDepth, ?_, ?_,
    (pairwise_cons.mp hordered).1⟩
  · exact (hfits.within houter hduties).mono (.refl _ _) hG (Nat.le_refl _)
  · rw [hlocals]
    exact cut_cut hle L

/-- The copy of the `finally` block of the innermost region, behind its locals. -/
theorem FitsExit.inCopy (h : site.FitsExit s G) {outer : List OpenTry}
    {final : List Stmt} (hopens : site.opens = t :: outer) (hcleanup : t.frame.cleanup = some final)
    (hscope : d.scope = { s with locals := cut t.frame.scopeDepth s.locals })
    (hG : G <:+ d.globals) {transfer : Transfer}
    (htransfer : ∀ owner name, Attempt.caught owner = some name → transfer.Hides owner name)
    (stop : Nat) :
    (site.running outer (d.copy t.owner final transfer stop)
      (settle t.owner site.duties)).FitsBlock d.scope d.globals := by
  have hlocals : d.scope.locals = t.locals := by
    rw [hscope]
    exact h.locals hopens
  obtain ⟨htame, L, k, hfits, hL, hk⟩ := h
  have ht : t ∈ site.opens := hopens ▸ mem_cons_self
  obtain ⟨hbound, htfits⟩ := hfits.opens t ht
  -- Of the site, only what lies outside of the region is left, and that is not deeper than it.
  have hagree : Agree (t.frame.scopeDepth + 1) L d.scope.locals := by
    have hcut : d.scope.locals = cut t.frame.scopeDepth L := by
      rw [hscope, hL]
      exact cut_cut (hk t ht) L
    rw [hcut]
    exact agree_cut (Nat.le_refl _) L
  have hdepth : d.scope.depth = s.depth := by rw [hscope]
  have htame' : d.scope.Tame := by
    rw [hscope]
    exact htame.cut _
  have howner : t.owner.Fits d.scope.locals d.globals :=
    htfits.owner.mono (Nat.lt_succ_of_le htfits.depth) hagree hG
  have hdeep : t.owner.depth ≤ d.scope.depth := by
    rw [hdepth]
    exact Nat.le_trans htfits.depth (Nat.le_of_lt_succ hbound)
  have hcopy : (d.copy t.owner final transfer stop).Fits d.scope.locals d.globals := by
    obtain ⟨extra, hextra, hnames⟩ := htfits.extra
    refine ⟨howner, hdeep, cut_of_le htame'.depth, extra, ?_, ?_⟩
    · show d.scope.locals = extra ++ t.owner.locals
      rw [hlocals, hextra]
    · intro l hl
      exact htransfer _ l.name (hnames l hl)
  have hwithin := hfits.within (hopens ▸ suffix_cons t outer) (settle_suffix t.owner site.duties)
  obtain ⟨hle, hordered⟩ := pairwise_cons.mp (hopens ▸ hfits.ordered)
  refine ⟨htame', fun u hu => ?_, hordered, forall_mem_cons.mpr ⟨⟨Nat.lt_succ_self _, hcopy⟩,
    fun x hx => ?_⟩, hwithin.settled, fun loop hloop => ?_⟩
  · obtain ⟨hubound, hufits⟩ := hwithin.opens u hu
    exact ⟨hdepth ▸ hubound, hufits.mono (Nat.lt_succ_of_le (hle u hu)) hagree hG⟩
  · obtain ⟨hxbound, hxfits⟩ := hwithin.duties x hx
    have hxle := hfits.settled t ht (by rw [hcleanup]; nofun) x hx
    exact ⟨hdepth ▸ hxbound, hxfits.mono (Nat.lt_succ_of_le hxle) hagree hG⟩
  · obtain ⟨hlt, hll⟩ := howner.home loop hloop
    refine ⟨Nat.lt_succ_of_le (Nat.le_trans hlt hdeep), ?_⟩
    rw [← cut_cut hlt, howner.locals]
    exact hll

end Site

def Phrase.Fits (d : Draft) : Phrase → Prop
  | stmt site _ | kind site _ | body site _ => site.FitsStmt d.scope d.globals
  | block site _ | branches site _ _ | arms site _ _ _ => site.FitsBlock d.scope d.globals
  | handler site owner handling _ _ => site.FitsHandler owner handling d.scope d.globals
  | leaving site transfer _ | unwind site transfer _ _ =>
    site.FitsExit d.scope d.globals ∧
      ∀ owner name, Attempt.caught owner = some name → transfer.Hides owner name

/-! ### The places in the code -/

/-- The duties at a place fit its locals. -/
def Landmark.Anchored : Landmark → Prop
  | rest _ L G _ D | value _ _ L G D => ∀ x ∈ D, x.Fits L G
  | _ => True

section

variable {D : List Duty} {site : Site} {d d' : Draft} {F : Fragment} {ms : List Landmark}

/-- All marks are those of expressions, with the same locals. -/
def ValueMarks (D : List Duty) (d : Draft) (ms : List Landmark) : Prop :=
  ∀ m ∈ ms, ∃ start stop, m = .value start stop d.scope.locals d.globals D

theorem ValueMarks.nil : ValueMarks D d [] := nofun

theorem ValueMarks.append {d1 : Draft} {ns : List Landmark} (h : ValueMarks D d ms)
    (he : Emitted d F d1) (h1 : ValueMarks D d1 ns) : ValueMarks D d (ms ++ ns) := by
  intro m hm
  rcases mem_append.mp hm with hm | hm
  · exact h m hm
  · obtain ⟨start, stop, rfl⟩ := h1 m hm
    exact ⟨start, stop, by rw [he.scope, he.globals]⟩

theorem ValueMarks.of_emitted {d1 : Draft} (he : Emitted d F d1) (h : ValueMarks D d1 ms) :
    ValueMarks D d ms :=
  ValueMarks.nil.append he h

theorem Pushes.valueMarks {p : ExprPhrase} (h : Pushes D p d F d' ms) : ValueMarks D d ms := by
  induction h with
  | one _ ih =>
    intro m hm
    rcases mem_cons.mp hm with rfl | hm
    · exact ⟨_, _, rfl⟩
    · exact ih m hm
  | pooled _ _ | absent | readLocal _ | readGlobal _ _ | manyNil | entriesNil | partsNil =>
    exact .nil
  | fstring _ _ ih | neg _ ih | not _ ih | called _ ih | spawned _ ih | array _ _ ih
  | dict _ _ ih | awaitCall _ ih | await _ ih => exact ih
  | binary ha _ iha ihb => exact iha.append ha.emitted ihb
  | and ha hskip _ _ _ iha ihb => exact iha.append (ha.emitted.trans (hskip.emitted _)) ihb
  | or ha hskip hconst hout _ iha ihb =>
    have hskipped := ha.emitted.trans (hskip.emitted _)
    exact iha.append (hskipped.trans (emitted_constant hconst trivial)) ihb
  | byName _ _ hconst _ ih | partsText hconst _ ih =>
    exact ih.of_emitted (emitted_constant hconst trivial)
  | byValue _ _ hf _ ihf iha => exact ihf.append hf.emitted iha
  | index ho _ _ iho ihk => exact iho.append ho.emitted ihk
  | manyCons h _ ih ihs | partsCode h _ ih ihs => exact ih.append h.emitted ihs
  | entriesCons hk hv _ ihk ihv ihs =>
    exact (ihk.append hk.emitted ihv).append (hk.emitted.trans hv.emitted) ihs

theorem Yields.valueMarks {source : Source} (h : Yields D source d F d' ms) :
    ValueMarks D d ms := by
  cases h with
  | expr h | prompt h | newArray _ h => exact h.valueMarks
  | input | readData | item => exact .nil

theorem Stores.valueMarks {target : Target} {source : Source}
    (h : Stores site target source d F d' ms) : ValueMarks site.duties d ms := by
  cases h with
  | toLocal h _ | toNew h _ _ _ | toGlobal h _ _ _ => exact h.valueMarks
  | toElement ho hk _ hs =>
    have hkeys := ho.valueMarks.append ho.emitted hk.valueMarks
    exact hkeys.append (ho.emitted.trans hk.emitted) hs.valueMarks

theorem Tests.valueMarks {subject : UInt16} {next : Nat} {values : List Expr}
    (h : Tests D subject next values d F d' ms) : ValueMarks D d ms := by
  induction h with
  | nil _ => exact .nil
  | @cons value rest d F d1 ms hit G d2 ns hv hhit _ ih =>
    have hsubject := Emitted.advance d (F := #[⟨d.line, .instr (.getLocal subject)⟩]) (n := 3) rfl
    exact (hv.valueMarks.of_emitted hsubject).append (hsubject.trans hv.emitted) ih

theorem ValueMarks.anchored (h : ValueMarks D d ms)
    (hD : ∀ x ∈ D, x.Fits d.scope.locals d.globals) : ∀ m ∈ ms, m.Anchored := by
  intro m hm
  obtain ⟨_, _, rfl⟩ := h m hm
  exact hD

theorem Site.FitsStmt.duties (h : site.FitsStmt d.scope d.globals) :
    ∀ x ∈ site.duties, x.Fits d.scope.locals d.globals :=
  fun x hx => (h.fits.duties x hx).2

theorem Site.FitsBlock.duties (h : site.FitsBlock d.scope d.globals) :
    ∀ x ∈ site.duties, x.Fits d.scope.locals d.globals :=
  fun x hx => (h.fits.duties x hx).2

theorem StoresAll.anchored {stores : List (Target × Source)} (h : StoresAll site stores d F d' ms)
    (hd : site.FitsStmt d.scope d.globals) : ∀ m ∈ ms, m.Anchored := by
  induction h with
  | nil => nofun
  | cons h _ ih =>
    have hfirst := h.valueMarks.anchored hd.duties
    have hrest := ih (hd.grown h.grows.scope h.grows.globals)
    exact forall_mem_append.mpr ⟨hfirst, hrest⟩

theorem Acts.anchored {k : StmtKind} (h : Acts site k d F d' ms)
    (hd : site.FitsStmt d.scope d.globals) : ∀ m ∈ ms, m.Anchored := by
  cases h with
  | eval h | assign h | print _ h | input h | spawn h | raise h | debug h _ =>
    exact h.valueMarks.anchored hd.duties
  | declareLocal _ _ | declareGlobal _ _ | data | restore | importModule _ | global _ => nofun
  | dim h | read h => exact h.anchored hd

end

section

variable {T : List Stmt → Prop} {site : Site} {d d' : Draft} {F : Fragment} {ms : List Landmark}

/-- A site still fits behind a statement. -/
theorem Emits.fits_stmt {s : Stmt} (h : Emits T (.stmt site s) d F d' ms)
    (hd : site.FitsStmt d.scope d.globals) : site.FitsStmt d'.scope d'.globals :=
  hd.grown (h.scoped hd.tame) h.added.globals

theorem Emits.fits_block {site' : Site} {ss : List Stmt} (h : Emits T (.block site' ss) d F d' ms)
    (hd : site.FitsBlock d.scope d.globals) : site.FitsBlock d'.scope d'.globals :=
  hd.same (h.scoped hd.tame) h.added.globals

/-- A site still fits behind code that leaves the names alone. -/
theorem Emitted.fits_block (h : Emitted d F d') (hd : site.FitsBlock d.scope d.globals) :
    site.FitsBlock d'.scope d'.globals :=
  hd.same h.scope (Added.of_emitted h).globals

theorem Emitted.fits_stmt (h : Emitted d F d') (hd : site.FitsStmt d.scope d.globals) :
    site.FitsStmt d'.scope d'.globals :=
  hd.grown (.of_eq h.scope) (Added.of_emitted h).globals

theorem Grows.fits_stmt (h : Grows d F d') (hd : site.FitsStmt d.scope d.globals) :
    site.FitsStmt d'.scope d'.globals :=
  hd.grown h.scope h.globals

theorem Site.FitsStmt.declared {name : String} {slot : UInt16}
    (hd : site.FitsStmt d.scope d.globals) (h : (declare name).run d = .ok (slot, d')) :
    site.FitsStmt d'.scope d'.globals := by
  obtain ⟨-, -, hglobals⟩ := Scope.declared h
  exact hd.grown (.declared (.refl _) h) (hglobals ▸ suffix_rfl)

theorem Site.FitsStmt.constant {v : Value} {index : UInt16}
    (hd : site.FitsStmt d.scope d.globals) (h : (Compile.constant v).run d = .ok (index, d')) :
    site.FitsStmt d'.scope d'.globals := by
  obtain ⟨_, rfl⟩ := run_constant_ok.mp h
  exact hd

end

/-- At every place in the code the duties fit the locals. -/
theorem Emits.anchored {T : List Stmt → Prop} {p : Phrase} {d d' : Draft} {F : Fragment}
    {ms : List Landmark} (h : Emits T p d F d' ms) (hd : p.Fits d) : ∀ m ∈ ms, m.Anchored := by
  induction h with
  | stmt h ih =>
    have hafter := (Emits.stmt h).fits_stmt hd
    refine forall_mem_cons.mpr ⟨hd.duties, forall_mem_append.mpr ⟨ih hd, ?_⟩⟩
    exact forall_mem_singleton.mpr hafter.duties
  | simple h => exact h.anchored hd
  | nil | branchesNone | armsNone | function | leavingNil _ | leavingStop _ _ | handlerNone => nofun
  | cons h _ ih ihs => exact forall_mem_append.mpr ⟨ih hd, ihs (h.fits_stmt hd)⟩
  | block _ _ ih => exact ih (Site.FitsBlock.enter hd)
  | ifChain _ ih => exact ih (Site.FitsStmt.block hd)
  | branchesElse _ ih | armsElse _ ih | unwind _ _ ih => exact ih hd
  | branchesLast ht _ _ ih =>
    have hbody := ih (ht.emitted.fits_block hd)
    exact forall_mem_append.mpr ⟨ht.valueMarks.anchored hd.duties, hbody⟩
  | branchesCons ht _ h _ _ ih ihs | armsCons ht h _ _ ih ihs =>
    have hd1 := ht.emitted.fits_block hd
    have hhead := forall_mem_append.mpr ⟨ht.valueMarks.anchored hd.duties, ih hd1⟩
    exact forall_mem_append.mpr ⟨hhead, ihs (h.fits_block hd1)⟩
  | whileLoop ht _ _ _ _ ih =>
    have hbody := ih ((ht.emitted.fits_block hd.block).inLoop _ _ _ _ _)
    exact forall_mem_append.mpr ⟨ht.valueMarks.anchored hd.duties, hbody⟩
  | countLoop hfirst hbound hslot2 hstride hslot4 htest _ h _ _ hnext _ _ ih =>
    have hd1 := (hfirst.grows.fits_stmt hd).block.enter
    have hd3 := (hbound.emitted.fits_stmt hd1).declared hslot2
    have hd5 := (hstride.emitted.fits_stmt hd3).declared hslot4
    have hd6 := htest.emitted.fits_stmt hd5
    have hd7 := hd6.grown (.of_eq (h.scoped hd6.tame)) h.added.globals
    simp only [forall_mem_append]
    exact ⟨⟨⟨⟨⟨hfirst.valueMarks.anchored hd.duties, hbound.valueMarks.anchored hd1.duties⟩,
      hstride.valueMarks.anchored hd3.duties⟩, htest.valueMarks.anchored hd5.duties⟩,
      ih (hd6.block.inLoop _ _ _ _ _)⟩, hnext.valueMarks.anchored hd7.duties⟩
  | eachLoop hplace hall heach hzero hindex _ hbind _ _ _ _ _ _ ih =>
    have hd1 := (hplace.grows.fits_stmt hd).block.enter
    have hd3 := (hall.emitted.fits_stmt hd1).declared heach
    have hd4 := hd3.constant hzero
    have hd5 := Site.FitsStmt.declared (d := Draft.advance _ 3) hd4 hindex
    have hd6 := hbind.grows.fits_stmt hd5
    simp only [forall_mem_append]
    exact ⟨⟨hall.valueMarks.anchored hd1.duties, hbind.valueMarks.anchored hd5.duties⟩,
      ih (hd6.block.inLoop _ _ _ _ _)⟩
  | switchBlock hv hslot _ _ ih =>
    have hd1 := hv.emitted.fits_stmt hd.block.enter
    have harms := ih (hd1.declared hslot).block
    exact forall_mem_append.mpr ⟨hv.valueMarks.anchored hd.block.enter.duties, harms⟩
  | leavingPlain hopens _ _ hdrop _ ih =>
    obtain ⟨hd, htransfer⟩ := hd
    have hscope := discardAbove_scope hdrop
    have hglobals := (discardAbove_added hdrop).globals
    exact ih ⟨hd.outer hopens suffix_rfl hscope hglobals, htransfer⟩
  | @leavingCleanup site transfer depth t outer final d drop d1 F d2 ms G d3 ns _ hopens _ hcleanup
      hdrop h _ ih ihs =>
    obtain ⟨hd, htransfer⟩ := hd
    have hscope := discardAbove_scope hdrop
    have hglobals := (discardAbove_added hdrop).globals
    have hcopy := hd.inCopy (d := d1.advance 1) hopens hcleanup hscope hglobals htransfer d2.offset
    have hscope2 := (h.scoped hcopy.tame).trans hscope
    have houter :=
      hd.outer hopens (settle_suffix t.owner _) hscope2 (hglobals.trans h.added.globals)
    refine forall_mem_cons.mpr ⟨trivial, forall_mem_append.mpr ⟨ih hcopy, ?_⟩⟩
    exact ihs ⟨houter, htransfer⟩
  | breakLoop _ _ ih | continueOn _ _ _ ih | continueBack _ _ _ _ ih =>
    have hway := ih ⟨hd.block.exit, fun _ _ h => h⟩
    exact forall_mem_append.mpr ⟨hway, forall_mem_singleton.mpr trivial⟩
  | retPlain _ _ hv =>
    have hvalue := hv.valueMarks.anchored (Site.FitsStmt.duties hd)
    exact forall_mem_append.mpr ⟨hvalue, forall_mem_singleton.mpr trivial⟩
  | retAcross _ _ _ hv _ ih =>
    have hd1 := hv.emitted.fits_block hd.block
    have hexit := Site.FitsBlock.exit
      ⟨hd1.tame, hd1.fits.within suffix_rfl (giveUp_suffix _)⟩
    have hvalue := hv.valueMarks.anchored hd.duties
    have hway := ih ⟨hexit, fun _ _ h => h⟩
    exact forall_mem_append.mpr
      ⟨forall_mem_append.mpr ⟨hvalue, hway⟩, forall_mem_singleton.mpr trivial⟩
  | tryPlain _ h _ _ ih ihs =>
    have hhandler := ihs (hd.handler _ (h.scoped hd.tame) h.added.globals)
    exact forall_mem_append.mpr ⟨ih (hd.tryPlain _ _ _), hhandler⟩
  | tryCleanup _ _ h _ hh _ ih ihs ihf =>
    have hscope1 := h.scoped hd.tame
    have hscope2 := (hh.scoped (hscope1 ▸ hd.tame)).trans hscope1
    have hhandler := ihs (hd.handler _ hscope1 h.added.globals)
    have hfinal := ihf (hd.onward _ _ _ hscope2 (h.added.globals.trans hh.added.globals))
    exact forall_mem_append.mpr
      ⟨forall_mem_append.mpr ⟨ih (hd.tryCleanup _ _ _ _), hhandler⟩,
        forall_mem_cons.mpr ⟨trivial, hfinal⟩⟩
  | handlerCatch hslot _ _ ih =>
    exact ih (hd.enter.declared hslot)
  | handlerFinally _ hslot _ ih =>
    obtain ⟨-, hlocals, hglobals⟩ := Scope.declared hslot
    refine forall_mem_cons.mpr ⟨trivial, ih ?_⟩
    exact hd.rethrow (.declared (.refl _) hslot) [⟨errorName, _⟩] hlocals (by simp)
      (by rw [hglobals]; exact suffix_rfl) _ _ _
  | @handlerBoth site owner name body final d slot d1 begin F d2 ms drop d3 skip caught d4 error d5
      G d6 ns _ hslot _ h hdrop _ hcaught herror _ ih ihf =>
    obtain ⟨-, hlocals, hglobals⟩ := Scope.declared hslot
    have hbody := ih (hd.guarded (.declared (.refl _) hslot) hlocals (hglobals ▸ suffix_rfl)
      _ _ _)
    -- The copy begins with the two messages in front of the locals of the statement.
    have hscope2 : d2.scope = d1.scope := h.scoped (hd.enter.declared hslot).tame
    have hscope3 : d3.scope = d.scope := handled_scope hd.tame hslot hscope2 hdrop
    have hglobals3 : d.globals <:+ d3.globals := by
      have hinner : d1.globals <:+ d2.globals := h.added.globals
      rw [hglobals] at hinner
      exact hinner.trans (leave_added hdrop).globals
    obtain ⟨hgrown, hlocals', hglobals5⟩ := rethrow_scope hscope3 hcaught herror
    have hglobals' : d.globals <:+ d5.globals := hglobals5 ▸ hglobals3
    have hfinal := ihf (hd.rethrow hgrown _ hlocals' (by simp) hglobals' _ _ _)
    exact forall_mem_append.mpr ⟨hbody, forall_mem_cons.mpr ⟨trivial, hfinal⟩⟩

end TaskBasic
