import TaskBasic.Proofs.Code.Anchors
import TaskBasic.Proofs.Code.Heights

/-
How open regions and loops belong together.

A `break`, `continue` or `return` leaves regions one after the other.  That this
comes out right where the way ends is what `Site.Tied` says of the surroundings of
a statement: the regions inside the loop are those on the way out of it
(`Site.LoopFits`), if the statement can leave the loop (`blockLeaps`), and there is
a hidden local for the value to be returned.

`Sheltered` and `Site.Aims` are what the code around a statement provides: the
notes at the handlers of its regions, and where the exits of its loop lead.
-/

namespace TaskBasic

open Compile

variable {L : List Local} {slot : UInt16} {D : List Duty}

/-! ### Statements that leave a loop -/

mutual

/-- Whether a statement has a `break` or `continue` for a loop around it. -/
def Stmt.leaps : Stmt → Bool
  | .mk _ kind => kind.leaps

@[inherit_doc Stmt.leaps]
def StmtKind.leaps : StmtKind → Bool
  | .breakLoop | .continueLoop => true
  | .ifChain branches none => branchesLeap branches
  | .ifChain branches (some body) => branchesLeap branches || blockLeaps body
  | .tryBlock body handler cleanup =>
    blockLeaps body ||
      (match handler with
        | some (_, body) => blockLeaps body
        | none => false) ||
      (match cleanup with
        | some body => blockLeaps body
        | none => false)
  | .switchBlock _ cases none => casesLeap cases
  | .switchBlock _ cases (some body) => casesLeap cases || blockLeaps body
  | _ => false

/-- Whether a block has a `break` or `continue` for a loop around it. -/
def blockLeaps : List Stmt → Bool
  | [] => false
  | s :: rest => s.leaps || blockLeaps rest

@[inherit_doc blockLeaps]
def branchesLeap : List (Expr × List Stmt) → Bool
  | [] => false
  | (_, body) :: rest => blockLeaps body || branchesLeap rest

@[inherit_doc blockLeaps]
def casesLeap : List (List Expr × List Stmt) → Bool
  | [] => false
  | (_, body) :: rest => blockLeaps body || casesLeap rest

end

@[inherit_doc blockLeaps]
def optionLeaps : Option (List Stmt) → Bool
  | some body => blockLeaps body
  | none => false

namespace Phrase

/-- Whether a phrase has a `break` or `continue` for a loop around it. -/
def leaps : Phrase → Bool
  | stmt _ s => s.leaps
  | kind _ k => k.leaps
  | body _ ss | block _ ss => blockLeaps ss
  | branches _ otherwise bs => branchesLeap bs || optionLeaps otherwise
  | arms _ _ otherwise cs => casesLeap cs || optionLeaps otherwise
  | handler _ _ handling cleanup _ => optionLeaps (handling.map Prod.snd) || optionLeaps cleanup
  | leaving _ _ _ | unwind _ _ _ _ => false

theorem leaps_tryBlock (site : Site) (body : List Stmt) (handling : Option (String × List Stmt))
    (cleanup : Option (List Stmt)) : (kind site (.tryBlock body handling cleanup)).leaps =
      (blockLeaps body || optionLeaps (handling.map Prod.snd) || optionLeaps cleanup) := by
  cases handling <;> cases cleanup <;> rfl

/-- If the phrase `q` can leave a loop around it, so can `p`. -/
def Part (q p : Phrase) : Prop := q.leaps = true → p.leaps = true

namespace Part

variable {site site' : Site}

theorem cons_head (s : Stmt) (ss : List Stmt) : Part (stmt site s) (body site' (s :: ss)) :=
  Bool.or_eq_true_iff.mpr ∘ .inl

theorem cons_tail (s : Stmt) (ss : List Stmt) : Part (body site ss) (body site' (s :: ss)) :=
  Bool.or_eq_true_iff.mpr ∘ .inr

theorem ifChain (bs : List (Expr × List Stmt)) (otherwise : Option (List Stmt)) :
    Part (branches site otherwise bs) (kind site' (.ifChain bs otherwise)) := by
  intro h
  cases otherwise <;> simpa [leaps, optionLeaps, StmtKind.leaps] using h

theorem switchBlock (subject : Expr) (cs : List (List Expr × List Stmt))
    (otherwise : Option (List Stmt)) (slot : UInt16) :
    Part (arms site slot otherwise cs) (kind site' (.switchBlock subject cs otherwise)) := by
  intro h
  cases otherwise <;> simpa [leaps, optionLeaps, StmtKind.leaps] using h

theorem branches_head (otherwise : Option (List Stmt)) (condition : Expr) (body : List Stmt)
    (rest : List (Expr × List Stmt)) :
    Part (block site body) (branches site' otherwise ((condition, body) :: rest)) := by
  intro h
  simp only [leaps, branchesLeap, Bool.or_eq_true] at h ⊢
  exact .inl (.inl h)

theorem branches_tail (otherwise : Option (List Stmt)) (condition : Expr) (body : List Stmt)
    (rest : List (Expr × List Stmt)) :
    Part (branches site otherwise rest) (branches site' otherwise ((condition, body) :: rest)) := by
  intro h
  simp only [leaps, branchesLeap, Bool.or_eq_true] at h ⊢
  exact h.imp_left .inr

theorem arms_head (slot : UInt16) (otherwise : Option (List Stmt)) (values : List Expr)
    (body : List Stmt) (rest : List (List Expr × List Stmt)) :
    Part (block site body) (arms site' slot otherwise ((values, body) :: rest)) := by
  intro h
  simp only [leaps, casesLeap, Bool.or_eq_true] at h ⊢
  exact .inl (.inl h)

theorem arms_tail (slot : UInt16) (otherwise : Option (List Stmt)) (values : List Expr)
    (body : List Stmt) (rest : List (List Expr × List Stmt)) :
    Part (arms site slot otherwise rest) (arms site' slot otherwise ((values, body) :: rest)) := by
  intro h
  simp only [leaps, casesLeap, Bool.or_eq_true] at h ⊢
  exact h.imp_left .inr

section

variable {body : List Stmt} {handling : Option (String × List Stmt)}
  {cleanup : Option (List Stmt)} {owner : Attempt} {landing : List Duty}

theorem tryBody : Part (block site body) (kind site' (.tryBlock body handling cleanup)) := by
  intro h
  rw [leaps_tryBlock, Bool.or_eq_true, Bool.or_eq_true]
  exact .inl (.inl h)

theorem tryHandler : Part (handler site owner handling cleanup landing)
    (kind site' (.tryBlock body handling cleanup)) := by
  intro h
  rw [leaps_tryBlock, Bool.or_assoc, Bool.or_eq_true]
  exact .inr h

theorem handlerBody {name : String} :
    Part (.body site body) (handler site' owner (some (name, body)) cleanup landing) :=
  Bool.or_eq_true_iff.mpr ∘ .inl

theorem handlerGuarded {name : String} :
    Part (block site body) (handler site' owner (some (name, body)) cleanup landing) :=
  Bool.or_eq_true_iff.mpr ∘ .inl

end

end Part

end Phrase

/-! ### What a layout provides around a statement -/

/-- A failure leads to a handler, in each of the regions. -/
def Sheltered (N : Nat → Note) : List OpenTry → Prop
  | [] => True
  | t :: ts => Arrives .stack N t.handler ⟨t.locals.length + 1, ts, []⟩ ∧ Sheltered N ts

theorem Sheltered.recovers {N : Nat → Note} {opens : List OpenTry} (h : Sheltered N opens) :
    Recovers N opens := by
  cases opens with
  | nil => trivial
  | cons t ts => exact h.1

def LoopExit.note (x : LoopExit) : Note :=
  ⟨x.loop.locals.length, x.opens, []⟩

/-- The layout has the right notes where the exits of the loop lead. -/
def Site.Aims (N : Nat → Note) (site : Site) : Prop :=
  ∀ x loop, site.jumps = some x → site.loop = some loop →
    Arrives .stack N (site.exits .leave) x.note ∧
    (loop.again? = none → Arrives .stack N (site.exits .again) x.note) ∧
    ∀ target, loop.again? = some target → Arrives .stack N target x.note

/-- What the code of a phrase needs of the layout around it. -/
structure Phrase.Needs (p : Phrase) (N : Nat → Note) : Prop where
  sheltered : Sheltered N p.site.opens
  aims : p.leaps = true → p.site.Aims N

/-! ### Surroundings that belong together -/

/-- The loop around a statement, and the regions `new` inside of it. -/
structure Site.LoopFits (site : Site) (bound : Nat) (L : List Local) (x : LoopExit)
    (again? : Option Nat) (new : List OpenTry) : Prop where
  jumps : site.jumps = some x
  loop : site.loop = some ⟨x.loop.depth, x.opens.length, again?⟩
  opens : site.opens = new ++ x.opens
  deep : ∀ t ∈ new, x.loop.depth ≤ t.frame.scopeDepth
  depth : x.loop.depth < bound
  locals : cut x.loop.depth L = x.loop.locals
  below : Below x.opens x.loop.locals.length

/-- The local in the slot is the one for values to be returned. -/
def HoldsResult (L : List Local) (slot : UInt16) : Prop :=
  ∃ rest, ⟨returnName, 1⟩ :: rest <:+ L ∧ rest.length = slot.toNat

/-- What surrounds statements belongs together; `leaps` says whether they can leave the loop around
them. -/
structure Site.Tied (site : Site) (leaps : Bool) (bound : Nat) (L : List Local) : Prop where
  slot : ∀ slot, site.returnSlot = some slot →
    HoldsResult L slot ∧ 1 ≤ bound ∧ ∀ t ∈ site.opens, 1 ≤ t.frame.scopeDepth
  loop : leaps = true → ∃ x again? new, site.LoopFits bound L x again? new

theorem suffix_cut {k : Nat} {l : Local} {rest : List Local} (h : l :: rest <:+ L)
    (hl : l.depth ≤ k) : l :: rest <:+ cut k L := by
  induction L with
  | nil => cases List.suffix_nil.mp h
  | cons l' L ih =>
    rcases List.suffix_cons_iff.mp h with heq | hrest
    · cases heq
      have hsame : cut k (l :: rest) = l :: rest := List.dropWhile_cons_of_neg (by simpa using hl)
      exact ⟨[], hsame.symm⟩
    · refine (ih hrest).trans ?_
      rw [cut, cut, List.dropWhile_cons]
      split
      · exact List.suffix_rfl
      · exact (List.dropWhile_suffix _).trans (List.suffix_cons l' L)

theorem HoldsResult.mono {L' : List Local} (h : HoldsResult L slot)
    (hL : L <:+ L') : HoldsResult L' slot := by
  obtain ⟨rest, hrest, hlength⟩ := h
  exact ⟨rest, hrest.trans hL, hlength⟩

theorem HoldsResult.cut (h : HoldsResult L slot) {k : Nat}
    (hk : 1 ≤ k) : HoldsResult (cut k L) slot := by
  obtain ⟨rest, hrest, hlength⟩ := h
  exact ⟨rest, suffix_cut hrest hk, hlength⟩

theorem HoldsResult.lt (h : HoldsResult L slot) :
    slot.toNat < L.length := by
  obtain ⟨rest, hrest, hlength⟩ := h
  exact hlength ▸ hrest.length_le

namespace Site

variable {site : Site} {leaps leaps' : Bool} {bound bound' : Nat} {L L' : List Local}
  {G : List String} {s s' : Scope}

theorem LoopFits.mono {x : LoopExit} {again? : Option Nat} {new : List OpenTry}
    (h : site.LoopFits bound L x again? new) (hL : Agree bound L L') (hbound : bound ≤ bound') :
    site.LoopFits bound' L' x again? new :=
  { h with
    depth := Nat.lt_of_lt_of_le h.depth hbound
    locals := (hL _ h.depth).trans h.locals }

/-- Inside one more region. -/
theorem LoopFits.opened {x : LoopExit} {again? : Option Nat} {new : List OpenTry}
    (h : site.LoopFits bound L x again? new) {t : OpenTry}
    (ht : x.loop.depth ≤ t.frame.scopeDepth) :
    (site.within (t :: site.opens) D).LoopFits bound L x again? (t :: new) where
  jumps := h.jumps
  loop := h.loop
  opens := by
    show t :: site.opens = _
    rw [h.opens]
    rfl
  deep := List.forall_mem_cons.mpr ⟨ht, h.deep⟩
  depth := h.depth
  locals := h.locals
  below := h.below

/-- The locals of the regions are among those that are live. -/
theorem Fits.below (h : site.Fits bound L G) : Below site.opens L.length := by
  intro t ht
  rw [← (h.opens t ht).2.locals]
  exact (cut_suffix _ L).length_le

theorem FitsStmt.below (h : site.FitsStmt s G) : Below site.opens s.locals.length := h.fits.below

theorem FitsBlock.below (h : site.FitsBlock s G) : Below site.opens s.locals.length := h.fits.below

namespace Tied

theorem mono (h : site.Tied leaps bound L) (hL : L <:+ L') (hagree : Agree bound L L')
    (hbound : bound ≤ bound') (hleaps : leaps' = true → leaps = true) :
    site.Tied leaps' bound' L' where
  slot slot hslot := by
    obtain ⟨hholds, hle, hopens⟩ := h.slot slot hslot
    exact ⟨hholds.mono hL, Nat.le_trans hle hbound, hopens⟩
  loop hl := by
    obtain ⟨x, again?, new, hloop⟩ := h.loop (hleaps hl)
    exact ⟨x, again?, new, hloop.mono hagree hbound⟩

/-- Fewer statements at the same place. -/
theorem sub (h : site.Tied leaps bound L) (hleaps : leaps' = true → leaps = true) :
    site.Tied leaps' bound L :=
  h.mono List.suffix_rfl (.refl _ _) (Nat.le_refl _) hleaps

/-- Behind a statement that has declared locals. -/
theorem grown (h : site.Tied leaps s.depth s.locals) (hs : s.Grown s') :
    site.Tied leaps s'.depth s'.locals := by
  obtain ⟨new, hlocals, -⟩ := hs.more
  exact h.mono ⟨new, hlocals.symm⟩ hs.agree (Nat.le_of_eq hs.depth.symm) id

/-- In a block that begins here. -/
theorem block (h : site.Tied leaps s.depth s.locals) :
    site.Tied leaps (s.depth + 1) s.locals :=
  h.mono List.suffix_rfl (.refl _ _) (Nat.le_succ _) id

/-- Behind code that leaves the scope alone. -/
theorem same (h : site.Tied leaps (s.depth + 1) s.locals) (hs : s' = s) :
    site.Tied leaps (s'.depth + 1) s'.locals := by
  rw [hs]
  exact h

/-- The body of a loop that begins here. -/
theorem inLoop (h : site.Tied leaps (s.depth + 1) s.locals)
    (hfits : site.FitsBlock s G) (leaveTo againTo : Nat) (again? : Option Nat)
    (exits : Exit → Nat) :
    (site.inLoop ⟨s.depth, site.opens.length, again?⟩ exits
      ⟨leaveTo, againTo, s.depth, s.locals, site.opens.length⟩).Tied leaps' (s.depth + 1)
        s.locals where
  slot := h.slot
  loop _ := ⟨_, again?, [], rfl, rfl, rfl, nofun, Nat.lt_succ_self _, cut_of_le hfits.tame.depth,
    hfits.below⟩

/-- The body of a `try` statement, or its catch block if that is guarded by a region. -/
theorem opened (h : site.Tied leaps bound L) {t : OpenTry}
    (hdepth : bound ≤ t.frame.scopeDepth + 1)
    (hone : site.returnSlot ≠ none → 1 ≤ t.frame.scopeDepth) (hL : L <:+ L')
    (hagree : Agree bound L L') (hbound : bound ≤ bound') (hleaps : leaps' = true → leaps = true) :
    (site.within (t :: site.opens) D).Tied leaps' bound' L' where
  slot slot hslot := by
    obtain ⟨hholds, hle, hopens⟩ := h.slot slot hslot
    have hsome : site.returnSlot ≠ none := fun hnone => nomatch hnone.symm.trans hslot
    exact ⟨hholds.mono hL, Nat.le_trans hle hbound, List.forall_mem_cons.mpr ⟨hone hsome, hopens⟩⟩
  loop hl := by
    obtain ⟨x, again?, new, hloop⟩ := h.loop (hleaps hl)
    have hlt := hloop.depth
    exact ⟨x, again?, _, (hloop.mono hagree hbound).opened (by omega)⟩

end Tied

theorem tied_running {opens : List OpenTry} {c : Copy} {final : List Stmt}
    (hfinal : blockLeaps final = false)
    (hslot : ∀ slot, site.returnSlot = some slot →
      HoldsResult L slot ∧ 1 ≤ bound ∧ ∀ t ∈ opens, 1 ≤ t.frame.scopeDepth) :
    (site.running opens c D).Tied (blockLeaps final) bound L where
  slot := hslot
  loop hl := nomatch hfinal.symm.trans hl

end Site

end TaskBasic
