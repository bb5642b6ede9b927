import TaskBasic.Proofs.Code.Emits

/-
The locals that are live behind the code of a phrase.

`cut k L` drops from the locals `L` those that were declared deeper than `k`.
Statements only add locals of the block that they stand in, and a block gives
back all of its own (`Emits.scoped`); a jump out of `try` regions cuts the
locals down to those of the regions (`cutOut`).
-/

namespace TaskBasic

open Compile List

variable {k : Nat} {d d' : Draft} {name : String} {slot : UInt16}

/-! ### Cutting locals -/

/-- The locals from the newest one on that is not declared deeper than `depth`. -/
def cut (depth : Nat) (L : List Local) : List Local :=
  L.dropWhile fun l => decide (depth < l.depth)

theorem cut_suffix (k : Nat) (L : List Local) : cut k L <:+ L :=
  dropWhile_suffix _

theorem mem_of_mem_cut {L : List Local} {l : Local} (h : l ∈ cut k L) : l ∈ L :=
  (cut_suffix k L).mem h

theorem cut_append {new : List Local} (L : List Local)
    (hnew : ∀ l ∈ new, k < l.depth) : cut k (new ++ L) = cut k L := by
  induction new with
  | nil => rfl
  | cons l new ih =>
    obtain ⟨hl, hrest⟩ := forall_mem_cons.mp hnew
    rw [cons_append, cut, dropWhile_cons_of_pos (by simpa using hl)]
    exact ih hrest

/-- Cutting less first makes no difference. -/
theorem cut_cut {k' : Nat} (hk : k ≤ k') (L : List Local) : cut k (cut k' L) = cut k L := by
  induction L with
  | nil => rfl
  | cons l L ih =>
    by_cases hl : k' < l.depth
    · have hl' : k < l.depth := Nat.lt_of_le_of_lt hk hl
      have houter : cut k' (l :: L) = cut k' L :=
        dropWhile_cons_of_pos (decide_eq_true hl)
      have hinner : cut k (l :: L) = cut k L := dropWhile_cons_of_pos (decide_eq_true hl')
      rw [houter, hinner, ih]
    · have houter : cut k' (l :: L) = l :: L :=
        dropWhile_cons_of_neg (by simpa using hl)
      rw [houter]

theorem cut_of_le {L : List Local} (h : ∀ l ∈ L, l.depth ≤ k) : cut k L = L := by
  cases L with
  | nil => rfl
  | cons l L =>
    have hl : ¬ k < l.depth := Nat.not_lt_of_le (h l mem_cons_self)
    exact dropWhile_cons_of_neg (by simpa using hl)

/-- The locals that are left outside of the innermost regions, when only `depth` regions are
left. -/
def cutOut (depth : Nat) : List OpenTry → List Local → List Local
  | [], L => L
  | t :: outer, L =>
    if outer.length < depth then L else cutOut depth outer (cut t.frame.scopeDepth L)

/-! ### Scopes -/

namespace Scope

variable {s s' : Scope}

/-- No local belongs to a block that has been left, and all of them have a slot. -/
structure Tame (s : Scope) : Prop where
  depth : ∀ l ∈ s.locals, l.depth ≤ s.depth
  small : s.locals.length ≤ 65536

theorem tame_empty : Tame {} := ⟨nofun, Nat.zero_le _⟩

theorem Tame.enter (h : s.Tame) : s.enter.Tame :=
  ⟨fun l hl => Nat.le_succ_of_le (h.depth l hl), h.small⟩

theorem Grown.tame (hg : s.Grown s') (h : s.Tame) : s'.Tame := by
  obtain ⟨hdepth, ⟨new, hlocals, hnew⟩, hsmall⟩ := hg
  refine ⟨fun l hl => ?_, hsmall h.small⟩
  rw [hlocals, mem_append] at hl
  rw [hdepth]
  rcases hl with hl | hl
  · exact Nat.le_of_eq (hnew l hl)
  · exact h.depth l hl

theorem Tame.cut (h : s.Tame) (k : Nat) : Tame { s with locals := TaskBasic.cut k s.locals } :=
  ⟨fun l hl => h.depth l (mem_of_mem_cut hl),
    Nat.le_trans (cut_suffix k s.locals).length_le h.small⟩

theorem drop_countAbove (s : Scope) (k : Nat) :
    s.locals.drop (s.countAbove k) = cut k s.locals := by
  rw [countAbove, cut]
  generalize (fun l : Local => decide (k < l.depth)) = deeper
  induction s.locals with
  | nil => rfl
  | cons l L ih =>
    by_cases hl : deeper l = true
    · rw [takeWhile_cons_of_pos hl, dropWhile_cons_of_pos hl, length_cons,
        drop_succ_cons, ih]
    · rw [takeWhile_cons_of_neg hl, dropWhile_cons_of_neg hl, length_nil,
        List.drop_zero]

theorem dropAbove_eq (s : Scope) (k : Nat) :
    s.dropAbove k = { s with locals := cut k s.locals } := by
  rw [dropAbove, drop_countAbove]

theorem length_dropAbove (s : Scope) (k : Nat) :
    (s.dropAbove k).locals.length + s.countAbove k = s.locals.length := by
  have hle : s.countAbove k ≤ s.locals.length := (takeWhile_sublist _).length_le
  rw [dropAbove, length_drop]
  omega

/-- A block gives back its own locals. -/
theorem leave_append {new : List Local} (hdepth : s'.depth = s.depth + 1)
    (hlocals : s'.locals = new ++ s.locals) (hnew : ∀ l ∈ new, l.depth = s.depth + 1)
    (h : ∀ l ∈ s.locals, l.depth ≤ s.depth) : s'.leave = s := by
  have hdeep : ∀ l ∈ new, s.depth < l.depth := fun l hl => (hnew l hl).symm ▸ Nat.lt_succ_self _
  rw [leave, dropAbove_eq, hdepth, hlocals]
  show ({ locals := cut s.depth (new ++ s.locals), depth := s.depth } : Scope) = s
  rw [cut_append _ hdeep, cut_of_le h]

theorem Grown.leave (hg : s.enter.Grown s') (h : s.Tame) : s'.leave = s := by
  obtain ⟨hdepth, ⟨new, hlocals, hnew⟩, -⟩ := hg
  exact leave_append hdepth hlocals hnew h.depth

theorem declared (h : (declare name).run d = .ok (slot, d')) : d'.scope.depth = d.scope.depth ∧
      d'.scope.locals = ⟨name, d.scope.depth⟩ :: d.scope.locals ∧ d'.globals = d.globals := by
  obtain ⟨_, _, _, rfl⟩ := run_declare_ok.mp h
  exact ⟨rfl, rfl, rfl⟩

theorem Grown.declared (hg : s.Grown d.scope)
    (h : (declare name).run d = .ok (slot, d')) : s.Grown d'.scope := by
  obtain ⟨_, hlt, _, rfl⟩ := run_declare_ok.mp h
  exact hg.trans ⟨rfl, ⟨[⟨name, d.scope.depth⟩], rfl, by simp⟩, fun _ => hlt⟩

/-- A block that declares one local gives it back. -/
theorem leave_declared
    (h : (declare name).run (d.withScope d.scope.enter) = .ok (slot, d')) (hd : d.scope.Tame) :
    d'.scope.leave = d.scope :=
  Grown.leave (Grown.declared (.refl _) h) hd

end Scope

namespace Compile

variable {d d' : Draft} {F : Fragment}

theorem discardAbove_scope (h : (discardAbove k).run d = .ok (F, d')) :
    d'.scope = { d.scope with locals := cut k d.scope.locals } := by
  obtain ⟨_, rfl⟩ := run_discardAbove_ok.mp h
  exact d.scope.dropAbove_eq k

theorem leave_scope (h : Compile.leave.run d = .ok (F, d')) : d'.scope = d.scope.leave := by
  obtain ⟨_, rfl⟩ := run_leave_ok.mp h
  rfl

theorem constant_scope {v : Value} {index : UInt16} (h : (constant v).run d = .ok (index, d')) :
    d'.scope = d.scope := by
  obtain ⟨_, rfl⟩ := run_constant_ok.mp h
  rfl

theorem handled_scope {d1 d2 : Draft} (hd : d.scope.Tame)
    (hslot : (declare name).run (d.withScope d.scope.enter) = .ok (slot, d1))
    (hbody : d2.scope = d1.scope) (hdrop : Compile.leave.run (d2.advance 1) = .ok (F, d')) :
    d'.scope = d.scope := by
  rw [leave_scope hdrop, Draft.advance_scope, hbody]
  exact Scope.leave_declared hslot hd

/-- A copy that raises a message again begins with two messages in front of the locals of the
statement. -/
theorem rethrow_scope {d1 d2 : Draft} {caught error : UInt16} (hd : d1.scope = d.scope)
    (hcaught : (declare caughtName).run ((d1.advance 3).withScope d1.scope.enter) =
      .ok (caught, d2))
    (herror : (declare errorName).run d2 = .ok (error, d')) :
    d.scope.enter.Grown d'.scope ∧ d'.scope.locals =
      [⟨errorName, d.scope.depth + 1⟩, ⟨caughtName, d.scope.depth + 1⟩] ++ d.scope.locals ∧
      d'.globals = d1.globals := by
  obtain ⟨hdepth2, hlocals2, hglobals2⟩ := Scope.declared hcaught
  obtain ⟨-, hlocals', hglobals'⟩ := Scope.declared herror
  refine ⟨.declared (.declared (.of_eq ?_) hcaught) herror, ?_, hglobals'.trans hglobals2⟩
  · rw [Draft.withScope_scope, hd]
  · rw [hlocals', hlocals2, hdepth2, ← hd]
    rfl

end Compile

def Phrase.Scopes (s s' : Scope) : Phrase → Prop
  | stmt _ _ | kind _ _ | body _ _ => s.Grown s'
  | block _ _ | branches _ _ _ | arms _ _ _ _ | handler _ _ _ _ _ => s' = s
  | leaving site _ depth => s' = { s with locals := cutOut depth site.opens s.locals }
  | unwind site _ scopeDepth tryDepth =>
    s' = { s with locals := cut scopeDepth (cutOut tryDepth site.opens s.locals) }

/-- Statements add locals of their own block only, and blocks give back theirs. -/
theorem Emits.scoped {T : List Stmt → Prop} {p : Phrase} {F : Fragment}
    {ms : List Landmark} (h : Emits T p d F d' ms) (hd : d.scope.Tame) :
    p.Scopes d.scope d'.scope := by
  induction h with
  | stmt _ ih | branchesElse _ ih | armsElse _ ih => exact ih hd
  | simple h => exact h.grows.scope
  | nil => exact .refl _
  | cons _ _ ih ihs =>
    have hfirst := ih hd
    exact hfirst.trans (ihs (hfirst.tame hd))
  | block _ hdrop ih =>
    have hbody := ih hd.enter
    exact (leave_scope hdrop).trans (hbody.leave hd)
  | ifChain _ ih => exact .of_eq (ih hd)
  | branchesNone | armsNone | handlerNone => rfl
  | branchesLast ht _ _ ih =>
    have hd1 := ht.emitted.scope
    exact (ih (hd1 ▸ hd)).trans hd1
  | branchesCons ht _ _ _ _ ih ihs | armsCons ht _ _ _ ih ihs =>
    have hd1 := ht.emitted.scope
    have hd2 := (ih (hd1 ▸ hd)).trans hd1
    exact (ihs (hd2 ▸ hd)).trans hd2
  | whileLoop ht _ _ _ _ ih =>
    have hd1 := ht.emitted.scope
    exact .of_eq ((ih (hd1 ▸ hd)).trans hd1)
  | countLoop hfirst hbound hslot2 hstride hslot4 htest _ _ _ _ hnext _ hdrop ih =>
    have htame1 := hfirst.grows.scope.tame hd
    -- The hidden locals, and those that the body leaves behind, are in the block of the loop.
    have hend := Scope.Grown.declared (.of_eq hbound.emitted.scope) hslot2
    have hstep := Scope.Grown.declared (hend.trans (.of_eq hstride.emitted.scope)) hslot4
    have htest' := hstep.trans (.of_eq htest.emitted.scope)
    have hbody := ih (htest'.tame htame1.enter)
    have hround := (htest'.trans (.of_eq hbody)).trans hnext.grows.scope
    have hd9 := (leave_scope hdrop).trans (hround.leave htame1)
    exact hfirst.grows.scope.trans (.of_eq hd9)
  | eachLoop hplace hall heach hzero hindex _ hbind _ _ _ hone _ hdrop ih =>
    have htame1 := hplace.grows.scope.tame hd
    have heach' := Scope.Grown.declared (.of_eq hall.emitted.scope) heach
    have hzero' := heach'.trans (.of_eq (constant_scope hzero))
    have hindex' := Scope.Grown.declared (d := Draft.advance _ 3) hzero' hindex
    have hbind' := hindex'.trans hbind.grows.scope
    have hbody := ih (hbind'.tame htame1.enter)
    have hround := hbind'.trans (.of_eq ((constant_scope hone).trans hbody))
    have hd9 := (leave_scope hdrop).trans (hround.leave htame1)
    exact hplace.grows.scope.trans (.of_eq hd9)
  | switchBlock hv hslot _ hdrop ih =>
    have hslot' := Scope.Grown.declared (.of_eq hv.emitted.scope) hslot
    have hend := hslot'.trans (.of_eq (ih (hslot'.tame hd.enter)))
    exact .of_eq ((leave_scope hdrop).trans (hend.leave hd))
  | function _ _ _ hf hname _ _ =>
    exact .of_eq (by rw [Draft.advance_scope, constant_scope hname, Draft.advance_scope,
      constant_scope hf, Draft.withFunction])
  | leavingNil hopens =>
    rw [Phrase.Scopes, hopens]
    rfl
  | leavingStop hopens hstop =>
    rw [Phrase.Scopes, hopens, cutOut, if_pos hstop]
  | @leavingPlain site transfer depth t outer d drop d1 F d2 ms hopens hdepth _ hdrop _ ih =>
    have hd1 := discardAbove_scope hdrop
    have htame : (d1.advance 1).scope.Tame := by
      rw [Draft.advance_scope, hd1]
      exact hd.cut _
    have hd2 := ih htame
    rw [Phrase.Scopes, Draft.advance_scope, hd1] at hd2
    rw [Phrase.Scopes, hopens, cutOut, if_neg (Nat.not_lt_of_le hdepth)]
    exact hd2
  | @leavingCleanup site transfer depth t outer final d drop d1 F d2 ms G d3 ns _ hopens hdepth
    _ hdrop
      _ _ ih ihs =>
    have hd1 := discardAbove_scope hdrop
    have htame : (d1.advance 1).scope.Tame := by
      rw [Draft.advance_scope, hd1]
      exact hd.cut _
    have hd2 : d2.scope = d1.scope := ih htame
    have hd3 := ihs (hd2 ▸ htame)
    rw [Phrase.Scopes, hd2, hd1] at hd3
    rw [Phrase.Scopes, hopens, cutOut, if_neg (Nat.not_lt_of_le hdepth)]
    exact hd3
  | unwind _ hdrop ih =>
    have hd1 := ih hd
    have hd2 := discardAbove_scope hdrop
    simp only [Phrase.Scopes] at hd1 ⊢
    rw [hd2, hd1]
  | breakLoop _ _ ih | continueOn _ _ _ ih | continueBack _ _ _ _ ih =>
    have hd1 := ih hd
    rw [Phrase.Scopes] at hd1
    exact .of_eq (by rw [Draft.withScope_scope, hd1])
  | retPlain _ _ hv => exact .of_eq hv.emitted.scope
  | retAcross _ _ _ hv _ ih =>
    have hd1 := hv.emitted.scope
    have hd2 := ih (hd1 ▸ hd)
    rw [Phrase.Scopes, Draft.advance_scope, hd1] at hd2
    exact .of_eq (by rw [Draft.withScope_scope, hd2, hd1])
  | tryPlain _ _ _ _ ih ihs =>
    have hd1 := ih hd
    exact .of_eq ((ihs (hd1 ▸ hd)).trans hd1)
  | tryCleanup _ _ _ _ _ _ ih ihs ihf =>
    have hd1 := ih hd
    have hd2 := (ihs (hd1 ▸ hd)).trans hd1
    exact .of_eq ((ihf (hd2 ▸ hd)).trans hd2)
  | handlerCatch hslot _ hdrop ih =>
    have hslot' := Scope.Grown.declared (Scope.Grown.refl _) hslot
    have hbody := hslot'.trans (ih (hslot'.tame hd.enter))
    exact (leave_scope hdrop).trans (hbody.leave hd)
  | handlerFinally _ hslot _ ih =>
    have hslot' := Scope.Grown.declared (Scope.Grown.refl _) hslot
    have hfinal := hslot'.trans (.of_eq (ih (hslot'.tame hd.enter)))
    exact hfinal.leave hd
  | handlerBoth _ hslot _ _ hdrop _ hcaught herror _ ih ihf =>
    have hslot' := Scope.Grown.declared (Scope.Grown.refl _) hslot
    have hbody := ih (hslot'.tame hd.enter)
    -- The message is a local of a block that the code leaves by raising it again.
    obtain ⟨herror', -, -⟩ := rethrow_scope (handled_scope hd hslot hbody hdrop) hcaught herror
    have hfinal := herror'.trans (.of_eq (ihf (herror'.tame hd.enter)))
    exact hfinal.leave hd

end TaskBasic
