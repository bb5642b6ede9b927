import TaskBasic.Proofs.Code.Balance
import TaskBasic.Proofs.Code.Copies

/-
Layouts of whole functions.

`Function.Planned N f` says that `N` is a layout of all the code of `f`: the
function begins with its arguments on the stack and in no region, and every
instruction fits.

* `Routine.planned` — a compiled function has a layout, and the layout agrees
  with the marks of its statements.
-/

namespace TaskBasic

open Compile Fragment

/-- The function begins with its arguments, and every instruction of it fits the layout. -/
structure Function.Planned (N : Nat → Note) (f : Function) : Prop where
  entry : Arrives .stack N 0 ⟨f.arity, [], []⟩
  fits : ∀ listing, f.chunk.Sound listing → ∀ x i, (x, i) ∈ listing → i.Fits N x

variable {T : List Stmt → Prop} {bound : Nat}

/-- A layout of all the code of a function. -/
theorem Laid.planned {X : Exit → Nat} {W : Fragment} {o' : Nat} {ν' : Note}
    {K R : (Nat → Note) → Prop} {f : Function} {pool : Array Value}
    (h : Laid X 0 W o' ⟨f.arity, [], []⟩ ν' K R) (hW : Resolved W.toList)
    (hf : f.chunk = W.chunk pool) (hR : ∀ N, R N) : ∃ N, f.Planned N ∧ K N := by
  obtain ⟨-, A, hA⟩ := h
  -- behind the code the layout does not matter, but it has to have a note
  let N : Nat → Note := fun x => if x < o' then A x else ν'
  have hend : Arrives .stack N o' ν' := .of_eq (if_neg (Nat.lt_irrefl o'))
  obtain ⟨hentry, hK, hfits⟩ := hA N (fun x _ hx => if_pos hx) hend
  refine ⟨N, ⟨hentry, fun listing hsound => ?_⟩, hK⟩
  have hreads := hsound.reads
  rw [hf] at hreads
  rw [hreads.unique (reads_chunk hW pool)]
  exact fun x i hx => (hfits (hR N)).listing hx

/-! ### What surrounds a function -/

/-- Without a loop around it, a statement cannot leave one. -/
theorem Emits.stays {p : Phrase} {d d' : Draft} {F : Fragment} {ms : List Landmark}
    (h : Emits T p d F d' ms) (hT : ∀ final, T final → blockLeaps final = false)
    (hloop : p.site.loop = none) : p.leaps = false := by
  induction h with
  | stmt _ ih | block _ _ ih | branchesElse _ ih | armsElse _ ih => exact ih hloop
  | simple h => cases h <;> rfl
  | cons _ _ ih ihs => exact Bool.or_eq_false_iff.mpr ⟨ih hloop, ihs hloop⟩
  | @ifChain _ _ otherwise _ _ _ _ _ ih
  | @switchBlock _ _ _ otherwise _ _ _ _ _ _ _ _ _ _ _ _ _ _ _ ih =>
    cases otherwise <;> simpa [Phrase.leaps, StmtKind.leaps, optionLeaps] using ih hloop
  | branchesLast _ _ _ ih => simpa [Phrase.leaps, branchesLeap, optionLeaps] using ih hloop
  | branchesCons _ _ _ _ _ ih ihs =>
    rw [Phrase.leaps, branchesLeap, Bool.or_assoc]
    exact Bool.or_eq_false_iff.mpr ⟨ih hloop, ihs hloop⟩
  | armsCons _ _ _ _ ih ihs =>
    rw [Phrase.leaps, casesLeap, Bool.or_assoc]
    exact Bool.or_eq_false_iff.mpr ⟨ih hloop, ihs hloop⟩
  | breakLoop h _ _ | continueOn h _ _ _ | continueBack h _ _ _ _ =>
    cases h.symm.trans hloop
  | tryPlain _ _ _ _ ih ihs | tryCleanup _ _ _ _ _ _ ih ihs _ =>
    rw [Phrase.leaps_tryBlock, Bool.or_assoc]
    exact Bool.or_eq_false_iff.mpr ⟨ih hloop, ihs hloop⟩
  | handlerCatch _ _ _ ih => exact Bool.or_eq_false_iff.mpr ⟨ih hloop, rfl⟩
  | handlerFinally hfinal _ _ _ => exact Bool.or_eq_false_iff.mpr ⟨rfl, hT _ hfinal⟩
  | handlerBoth hfinal _ _ _ _ _ _ _ _ ih _ =>
    exact Bool.or_eq_false_iff.mpr ⟨ih hloop, hT _ hfinal⟩
  | _ => rfl

/-- The statements of a function are tied to nothing but the place for values to be returned. -/
theorem Site.tied_empty {site : Site} {L : List Local} (hopens : site.opens = [])
    (hslot : ∀ slot, site.returnSlot = some slot → HoldsResult L slot ∧ 1 ≤ bound) :
    site.Tied false bound L where
  slot slot h := by
    rw [hopens]
    exact ⟨(hslot slot h).1, (hslot slot h).2, nofun⟩
  loop := nofun

/-- The statements of a function have a layout. -/
theorem Emits.laid_body {site : Site} {ss : List Stmt} {d d' : Draft} {F : Fragment}
    {ms : List Landmark} (h : Emits T (.body site ss) d F d' ms)
    (hT : ∀ final, T final → blockLeaps final = false) (hopens : site.opens = [])
    (hduties : site.duties = []) (hhome : site.home = none) (hloop : site.loop = none)
    (htame : d.scope.Tame) (ht : site.Tied false d.scope.depth d.scope.locals) :
    Laid site.exits d.offset F d'.offset ⟨d.scope.locals.length, [], []⟩
      ⟨d'.scope.locals.length, [], []⟩ (Marked .stack ms) (fun _ => True) := by
  have hstays : (Phrase.body site ss).leaps = false :=
    h.stays hT hloop
  have hlaid := h.laid hT (p := .body site ss) ⟨htame, Site.fits_empty hopens hduties hhome _ _ _⟩
    (show site.Tied _ _ _ from hstays ▸ ht)
    (by intro _ he; rw [Phrase.site, hloop] at he; cases he) ⟨rfl, rfl⟩
  rw [Draft.note, Draft.note, hopens] at hlaid
  refine hlaid.asks fun N _ => ⟨?_, fun hl => ?_⟩
  · rw [Phrase.site, hopens]
    trivial
  · rw [hstays] at hl
    cases hl

/-! ### Routines -/

section

variable {X : Exit → Nat} {o h : Nat} {F : Fragment} {ms : List Landmark} {R : (Nat → Note) → Prop}

/-- A value that no region is around. -/
theorem laid_pushAbsent (line : Nat) :
    Laid X o #[⟨line, .instr .pushAbsent⟩] (o + 1) ⟨h, [], []⟩ ⟨h + 1, [], []⟩ (fun _ => True)
      (fun _ => True) :=
  (Laid.plain below_nil rfl rfl (Nat.le_refl _) rfl rfl).asks fun _ _ => trivial

/-- The end of a function. -/
theorem laid_return (line : Nat) :
    Laid X o #[⟨line, .instr .ret⟩] (o + 1) ⟨h + 1, [], []⟩ ⟨0, [], []⟩ (fun _ => True)
      (fun _ => True) :=
  (Laid.ret below_nil _).asks fun _ _ => trivial

theorem laid_closing (line : Nat) :
    Laid X o (closing line) (o + 2) ⟨h, [], []⟩ ⟨0, [], []⟩ (fun _ => True) (fun _ => True) :=
  ((laid_pushAbsent line).seq (laid_return line)).imp (fun _ _ _ _ => trivial)
    fun _ _ _ _ _ => ⟨trivial, trivial⟩

end

section

variable {params : List String} {body : List Stmt} {first : Fragment} {slot : Option UInt16}
  {d d' : Draft}

/-- The arguments are there; so is the place for values to be returned, if there is one. -/
theorem laid_opening (h : (opening params body).run d.forFunction = .ok ((first, slot), d'))
    (X : Exit → Nat) :
    Laid X 0 first d'.offset ⟨params.length, [], []⟩ ⟨d'.scope.locals.length, [], []⟩
      (fun _ => True) (fun _ => True) := by
  have hlength : (paramScope params).locals.length = params.length := by simp [paramScope]
  rcases run_opening_ok h with ⟨-, -, -, rfl, rfl⟩ | ⟨-, -, -, rfl, rfl⟩
  · rw [← hlength]
    exact Laid.nil _ _
  · rw [← hlength]
    exact laid_pushAbsent d.line

theorem tied_opening (h : (opening params body).run d.forFunction = .ok ((first, slot), d')) :
    Site.Tied { inFunction := true, returnSlot := slot } false d'.scope.depth d'.scope.locals := by
  refine Site.tied_empty rfl fun slot' hslot => ?_
  rcases run_opening_ok h with ⟨-, -, rfl, -, -⟩ | ⟨-, hlt, rfl, -, rfl⟩
  · cases hslot
  · cases hslot
    refine ⟨⟨(paramScope params).locals, List.suffix_rfl, ?_⟩, Nat.le_refl 1⟩
    rw [UInt16.toNat_ofNat_of_lt' hlt]
    simp [paramScope]

end

/-- A compiled function has a layout that agrees with its marks. -/
theorem Routine.planned {f : Function} {ss : List Stmt} {ms : List Landmark} (h : Routine T f ss ms)
    (hT : ∀ final, T final → blockLeaps final = false) :
    ∃ N, f.Planned N ∧ Marked .stack ms N := by
  cases h with
  | @function _ params _ _ _ d first slot d1 F d2 _ hopen h hwhole =>
    have hbody := h.laid_body hT rfl rfl rfl rfl (opening_tame hopen) (tied_opening hopen)
    exact (((laid_opening hopen _).before hbody).more (laid_closing d2.line)).planned
      hwhole.resolved rfl fun _ => trivial
  | @main _ F d1 _ _ h hwhole =>
    have hbody := h.laid_body hT rfl rfl rfl rfl Scope.tame_empty
      (Site.tied_empty rfl nofun)
    exact (hbody.more (laid_closing d1.line)).planned hwhole.resolved rfl fun _ => trivial
  | @interactive _ F d1 ms line e G d2 ns _ h hp hwhole =>
    have hbody := h.laid_body hT rfl rfl rfl rfl Scope.tame_empty
      (Site.tied_empty rfl nofun)
    have hvalue := hp.laid (X := ({} : Site).exits) (Nat.le_refl _) below_nil
    have hall := (hbody.append (hvalue.asks fun _ _ => trivial)).more (laid_return d2.line)
    exact hall.planned hwhole.resolved rfl fun _ => trivial

end TaskBasic
