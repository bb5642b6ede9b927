import Mathlib.Data.List.Forall2
import TaskBasic.Code.OfProgram
import TaskBasic.Proofs.Stmt.Rendering

/-
The pool of data values.

The values of the pool stand in the order in which the `data` statements stand in the
block form of a program, whatever blocks hold them.  In block form the default arm of a
`switch` is the last one.  A text may have it before other arms; its values come behind
theirs all the same.
-/

namespace TaskBasic

open List

variable {ks : List TokenKind}

/-! ### Data statements in tokens -/

/-- What stands behind each word `data`, up to the end of its line. -/
def dataRuns : List TokenKind → List (List TokenKind)
  | [] => []
  | .keyword .kwData :: ks => ks.takeWhile (· ≠ .newline) :: dataRuns ks
  | _ :: ks => dataRuns ks

/-- The tokens hold no `data` statement. -/
def Dataless (ks : List TokenKind) : Prop := ∀ k ∈ ks, k ≠ .keyword .kwData

@[simp] theorem dataless_nil : Dataless [] := nofun

@[simp] theorem dataless_cons {k : TokenKind} :
    Dataless (k :: ks) ↔ k ≠ .keyword .kwData ∧ Dataless ks :=
  forall_mem_cons

@[simp] theorem dataless_append {ls : List TokenKind} :
    Dataless (ks ++ ls) ↔ Dataless ks ∧ Dataless ls :=
  forall_mem_append

theorem Spells.dataless {φ : ExprForm} (h : Spells φ ks) : Dataless ks := by
  rintro k hk rfl
  cases h.inExpr _ hk

theorem SpellsList.dataless {α : Type} {P : α → List TokenKind → Prop} {as : List α} (h :
    SpellsList P as ks) (hP : ∀ a ks, P a ks → Dataless ks) :
    Dataless ks := by
  induction h with
  | one ha => exact hP _ _ ha
  | cons ha _ ih => simp [hP _ _ ha, ih]

theorem SpellsName.dataless {s : String} (h : SpellsName s ks) : Dataless ks := by
  rw [show ks = [_] from h]
  simp

theorem dataRuns_append (h : Dataless ks) (ls : List TokenKind) :
    dataRuns (ks ++ ls) = dataRuns ls := by
  induction ks with
  | nil => rfl
  | cons k ks ih =>
    rw [dataless_cons] at h
    rw [cons_append, dataRuns, ih h.2]
    rintro rfl
    exact h.1 rfl

theorem SpellsStep.dataless {step : Option Expr} {ks : List TokenKind} (h : SpellsStep step ks) :
    Dataless ks := by
  cases h with
  | none => simp
  | some h => simp [h.dataless]

theorem SpellsHead.dataless {name : String} {params : List String} {ks : List TokenKind}
    (h : SpellsHead name params ks) : Dataless ks := by
  cases h with
  | noParams => simp
  | params h => simp [h.dataless fun _ _ => SpellsName.dataless]

theorem dataless_flags (isAsync isNative : Bool) : Dataless (flagKinds isAsync isNative) := by
  cases isAsync <;> cases isNative <;> simp [flagKinds]

def HoldsData (ess : List (List Expr)) (ks : List TokenKind) : Prop :=
  ∃ runs, List.Forall₂ (fun es ks => Spells (.items es) ks) ess runs ∧
    ∀ ls, dataRuns (ks ++ ls) = runs ++ dataRuns ls

namespace HoldsData

variable {ess fss : List (List Expr)} {ks ls ms : List TokenKind}

theorem none (h : Dataless ks) : HoldsData [] ks := ⟨[], .nil, dataRuns_append h⟩

theorem append (h : HoldsData ess ks) (h' : HoldsData fss ls) :
    HoldsData (ess ++ fss) (ks ++ ls) := by
  obtain ⟨runs, hruns, heq⟩ := h
  obtain ⟨runs', hruns', heq'⟩ := h'
  exact ⟨runs ++ runs', List.rel_append hruns hruns', fun ms => by simp [heq, heq']⟩

theorem ends (h : HoldsData ess (ks ++ [])) (hl : Dataless ls) : HoldsData ess (ks ++ ls) := by
  have hall := h.append (none hl)
  rwa [append_nil, append_nil] at hall

/-! ### Tokens one behind the other -/

variable {t : Token} {ts us : List Token} {k : TokenKind}

theorem ended (h : Dataless ls) : HoldsData [] (([] : List Token).map Token.form ++ ls) :=
  none h

theorem token (ht : t.form = k) (hk : k ≠ .keyword .kwData)
    (h : HoldsData ess (ts.map Token.form ++ ls)) :
    HoldsData ess ((t :: ts).map Token.form ++ ls) := by
  have hone : Dataless [k] := dataless_cons.mpr ⟨hk, dataless_nil⟩
  rw [map_cons, ht]
  exact (none hone).append h

theorem tokens (hts : Dataless (ts.map Token.form)) (h : HoldsData ess (us.map Token.form ++ ls)) :
    HoldsData ess ((ts ++ us).map Token.form ++ ls) := by
  rw [map_append, append_assoc]
  exact (none hts).append h

theorem blocks (h : HoldsData ess (ts.map Token.form ++ []))
    (h' : HoldsData fss (us.map Token.form ++ ls)) :
    HoldsData (ess ++ fss) ((ts ++ us).map Token.form ++ ls) := by
  rw [append_nil] at h
  rw [map_append, append_assoc]
  exact h.append h'

theorem block (h : HoldsData ess (ts.map Token.form ++ []))
    (h' : HoldsData [] (us.map Token.form ++ ls)) :
    HoldsData ess ((ts ++ us).map Token.form ++ ls) := by
  have hall := h.blocks h'
  rwa [append_nil] at hall

end HoldsData

/-! ### Data statements in programs -/

/-- The expressions of the `data` statements. -/
def dataLists (ss : List Stmt) : List (List Expr) :=
  ss.filterMap fun s => match s.kind with
    | .data es => some es
    | _ => none

@[simp] theorem dataLists_append (ss ss' : List Stmt) :
    dataLists (ss ++ ss') = dataLists ss ++ dataLists ss' :=
  filterMap_append

/-- The statements of what is laid out. -/
@[simp] def StmtForm.nested : StmtForm → List Stmt
  | .stmt s => s.nested true
  | .block ss => blockNested true ss
  | .branches bs o => branchesNested true bs ++ o.elim [] (blockNested true)
  | .arms cs o => casesNested true cs ++ o.elim [] (blockNested true)

/-- What stands behind the tokens: a line ends behind a statement. -/
@[simp] def StmtForm.ending : StmtForm → List TokenKind
  | .stmt _ => [.newline]
  | _ => []

theorem SpellsSimple.holdsData {kind : StmtKind} (h : SpellsSimple kind ks)
    (line : Nat) : HoldsData (dataLists (Stmt.nested true (.mk line kind))) (ks ++ [.newline]) := by
  have htarget (t : Target) (ks : List TokenKind) (h : SpellsTarget t ks) : Dataless ks :=
    Spells.dataless h
  cases h with
  | @data es ks h =>
    have hline : ∀ k ∈ ks, decide (k ≠ .newline) = true := by
      rintro k hk
      refine decide_eq_true ?_
      rintro rfl
      cases h.inExpr _ hk
    refine ⟨[ks], .cons h .nil, fun ls => ?_⟩
    rw [cons_append, cons_append, append_assoc, dataRuns,
      List.takeWhile_append_of_pos hline, dataRuns_append h.dataless]
    simp [dataRuns]
  | eval h | print h | ret h | spawn h | raise h => exact .none (by simp [h.dataless])
  | assign h h' | inputPrompt h h' => exact .none (by simp [htarget _ _ h, h'.dataless])
  | input h => exact .none (by simp [htarget _ _ h])
  | read h => exact .none (by simp [h.dataless htarget])
  | global h => exact .none (by simp [h.dataless fun _ _ => SpellsName.dataless])
  | dim h =>
    have harray (a : String × List Expr) (ks : List TokenKind) (h : SpellsArray a ks) :
        Dataless ks := by
      obtain ⟨ls, h, rfl⟩ := h
      simp [h.dataless]
    exact .none (by simp [h.dataless harray])
  | _ => exact .none (by simp)

theorem StmtKind.nested_ifChain (bs : List (Expr × List Stmt)) (o : Option (List Stmt)) :
    (StmtKind.ifChain bs o).nested true = branchesNested true bs ++
      o.elim [] (blockNested true) := by
  cases o <;> simp [StmtKind.nested]

theorem StmtKind.nested_switchBlock (e : Expr) (cs : List (List Expr × List Stmt))
    (o : Option (List Stmt)) :
    (StmtKind.switchBlock e cs o).nested true = casesNested true cs ++
      o.elim [] (blockNested true) := by
  cases o <;> simp [StmtKind.nested]

theorem HoldsData.stmt {line : Nat} {k : StmtKind} (hk : ∀ es, k ≠ .data es)
    (h : HoldsData (dataLists (k.nested true)) ks) :
    HoldsData (dataLists (StmtForm.nested (.stmt (.mk line k)))) ks := by
  have hcons : dataLists (.mk line k :: k.nested true) = dataLists (k.nested true) := by
    cases k <;> first | rfl | exact absurd rfl (hk _)
  rwa [StmtForm.nested, Stmt.nested, hcons]

theorem Lays.holdsData {source : String} {φ φ' : StmtForm} {ts : List Token}
    (h : Lays source φ φ' ts) :
    HoldsData (dataLists φ.nested) (ts.map Token.form ++ φ.ending) := by
  have hline : Dataless [.newline] := dataless_cons.mpr ⟨nofun, dataless_nil⟩
  induction h with
  | simple h => exact h.holdsData _
  | @debug _ _ _ _ ts v ht he =>
    rw [← append_nil (ts ++ [v])]
    exact .stmt nofun (.token ht nofun (.tokens (Spells.dataless he) (.ended hline)))
  | whileLoop ht he hn _ hu ih =>
    exact .stmt nofun (.token ht nofun (.tokens (Spells.dataless he) (.token hn nofun
      (ih.block (.token hu nofun (.ended hline))))))
  | countLoop ht ht1 ht2 hstart ht3 hstop hstep hn _ hu hu1 ih =>
    exact .stmt nofun (.token ht nofun (.token ht1 nofun (.token ht2 nofun
      (.tokens (Spells.dataless hstart) (.token ht3 nofun (.tokens (Spells.dataless hstop)
        (.tokens hstep.dataless (.token hn nofun
          (ih.block (.token hu nofun (.token hu1 nofun (.ended hline))))))))))))
  | eachLoop ht ht1 ht2 ht3 he hn _ hu hu1 ih =>
    exact .stmt nofun (.token ht nofun (.token ht1 nofun (.token ht2 nofun (.token ht3 nofun
      (.tokens (Spells.dataless he) (.token hn nofun
        (ih.block (.token hu nofun (.token hu1 nofun (.ended hline))))))))))
  | function hflags hhead hn _ hu ih =>
    exact .stmt nofun (.tokens (hflags ▸ dataless_flags _ _) (.tokens hhead.dataless
      (.token hn nofun (ih.block (.token hu nofun (.ended hline))))))
  | tryCatch ht hn _ hu hu1 hn1 _ hv ih ih1 =>
    refine .stmt nofun ?_
    simp only [StmtKind.nested, append_nil, dataLists_append]
    exact .token ht nofun (.token hn nofun (ih.blocks (.token hu nofun (.token hu1 nofun
      (.token hn1 nofun (ih1.block (.token hv nofun (.ended hline))))))))
  | tryFinally ht hn _ hu hn1 _ hv ih ih1 =>
    refine .stmt nofun ?_
    simp only [StmtKind.nested, append_nil, dataLists_append]
    exact .token ht nofun (.token hn nofun (ih.blocks (.token hu nofun (.token hn1 nofun
      (ih1.block (.token hv nofun (.ended hline)))))))
  | tryBoth ht hn _ hu hu1 hn1 _ hw hn2 _ hv ih ih1 ih2 =>
    refine .stmt nofun ?_
    simp only [StmtKind.nested, dataLists_append, append_assoc]
    exact .token ht nofun (.token hn nofun (ih.blocks (.token hu nofun (.token hu1 nofun
      (.token hn1 nofun (ih1.blocks (.token hw nofun (.token hn2 nofun
        (ih2.block (.token hv nofun (.ended hline)))))))))))
  | ifChain ht he hu hn _ _ ih ih1 =>
    refine .stmt nofun ?_
    rw [StmtKind.nested_ifChain, branchesNested, append_assoc, dataLists_append]
    exact .token ht nofun (.tokens (Spells.dataless he) (.token hu nofun (.token hn nofun
      (ih.blocks (ih1.ends hline)))))
  | elseIf ht he hu hn _ _ ih ih1 =>
    rw [StmtForm.nested, branchesNested, append_assoc, dataLists_append]
    exact .token ht nofun (.tokens (Spells.dataless he) (.token hu nofun (.token hn nofun
      (ih.blocks ih1))))
  | caseArm ht he hn _ _ ih ih1 =>
    rw [StmtForm.nested, casesNested, append_assoc, dataLists_append]
    exact .token ht nofun (.tokens he.dataless (.token hn nofun (ih.blocks ih1)))
  | switchBlock ht he hn _ ih =>
    refine .stmt nofun ?_
    rw [StmtKind.nested_switchBlock]
    exact .token ht nofun (.tokens (Spells.dataless he) (.token hn nofun (ih.ends hline)))
  | elseBranch ht hn _ hu ih | defaultArm ht hn _ hu ih =>
    exact .token ht nofun (.token hn nofun (ih.block (.token hu nofun (.ended dataless_nil))))
  | endIf ht | endSwitch ht => exact .token ht nofun (.ended dataless_nil)
  | nil => exact .ended dataless_nil
  | @cons _ _ _ _ _ n _ _ hn _ ih ih1 =>
    have hn : n.form = .newline := hn
    have hall := ih.append ih1
    rw [StmtForm.nested, blockNested, dataLists_append]
    simpa only [StmtForm.nested, StmtForm.ending, map_append, map_cons, hn, append_assoc,
      singleton_append, append_nil] using hall

/-- A text in block form lays out the program that is read from it. -/
theorem Lays.self {source : String} {φ φ' : StmtForm} {ts : List Token}
    (h : Lays source φ φ' ts) : Lays source φ' φ' ts := by
  induction h <;> grind [Lays]

/-! ### The pool -/

theorem Stmt.data_toOption (s : Stmt) :
    s.data.toOption = (dataLists [s]).flatten.mapM Expr.literal? := by
  obtain ⟨line, kind⟩ := s
  cases kind with
  | data es =>
    have hlists : (dataLists [.mk line (.data es)]).flatten = es := by simp [dataLists, Stmt.kind]
    rw [hlists]
    show Except.toOption (es.mapM _) = _
    generalize (Stmt.mk line (.data es)).line = here
    clear hlists
    induction es with
    | nil => rfl
    | cons e es ih =>
      rw [mapM_cons, mapM_cons, ← ih]
      generalize (es.mapM _ : Except CompileError (List Value)) = vs
      cases e.literal? <;> cases vs <;> rfl
  | _ => rfl

theorem Program.data_toOption (p : Program) :
    p.data.toOption =
      ((dataLists (blockNested true p)).flatten.mapM Expr.literal?).map List.toArray := by
  have hall (ss : List Stmt) (pool : Array Value) :
      (ss.foldlM (fun pool (s : Stmt) => do return pool ++ (← s.data).toArray) pool).toOption =
        ((dataLists ss).flatten.mapM Expr.literal?).map fun vs => pool ++ vs.toArray := by
    induction ss generalizing pool with
    | nil => exact congrArg some (Array.append_empty).symm
    | cons s ss ih =>
      rw [foldlM_cons, ← singleton_append, dataLists_append, List.flatten_append, List.mapM_append,
        ← s.data_toOption]
      cases s.data with
      | error e => rfl
      | ok vs =>
        refine (ih _).trans ?_
        show _ = Option.map _ (Option.bind _ _)
        cases (dataLists ss).flatten.mapM Expr.literal? <;> simp [Except.toOption]
  simpa [Program.data] using hall (blockNested true p) #[]

theorem Program.data_of_compile {p : Program} {interactive : Bool} {base : Nat} {c : Compiled}
    (h : p.compile interactive base = .ok c) : p.data = .ok c.data := by
  simp only [Program.compile, bind, Except.bind, pure, Except.pure] at h
  split at h
  next => cases h
  next data hdata =>
    split at h
    next => cases h
    next =>
      cases h
      exact hdata

/-- The pool of a program that is read from a text has the values that stand behind the words `data`
of each block form of the program, in their order; a text in block form is one itself. -/
theorem pool_in_block_order {text : String} {p : Program} (h : Program.ofText text = .ok p) :
    (∃ text' p', BlockForm text' p p') ∧ (∀ q, BlockForm text q p → BlockForm text p p) ∧
    ∀ text' p', BlockForm text' p p' →
      ∃ ess, List.Forall₂ (fun es ks => Spells (.items es) ks) ess
          (dataRuns ((tokens text' 1).map Token.form)) ∧
        p.data.toOption = (ess.flatten.mapM Expr.literal?).map List.toArray ∧
        ∀ interactive base c, p.compile interactive base = .ok c →
          ess.flatten.mapM Expr.literal? = some c.data.toList := by
  refine ⟨(Program.blockReady h).exists_blockForm, fun q hform => ?_, fun text' p' hform => ?_⟩
  · obtain ⟨ts, t, htokens, ht, hlays⟩ := hform
    exact ⟨ts, t, htokens, ht, hlays.self⟩
  · obtain ⟨ts, t, htokens, ht, hlays⟩ := hform
    obtain ⟨runs, hruns, heq⟩ := hlays.holdsData
    have hall : dataRuns (ts.map Token.form ++ [.eof]) = runs := by
      simpa [dataRuns] using heq [.eof]
    refine ⟨_, ?_, p.data_toOption, fun interactive base c hc => ?_⟩
    · rw [htokens, map_append, map_singleton, ht, hall]
      exact hruns
    · have hpool := p.data_toOption
      rw [Program.data_of_compile hc] at hpool
      obtain ⟨vs, hvs, hdata⟩ := Option.map_eq_some_iff.mp hpool.symm
      rw [← hdata]
      exact hvs

/-- A decision before a `data` statement. -/
def dataText : String := "if x then\ndata 1\nend if\ndata 2\n"

theorem dataText_pool : ∃ p, Program.ofText dataText = .ok p ∧ ∃ ess,
    List.Forall₂ (fun es ks => Spells (.items es) ks) ess [[.int 1], [.int 2]] ∧
      p.data.toOption = (ess.flatten.mapM Expr.literal?).map List.toArray := by
  have hone (n : Int64) : Spells (.items [.int n]) [.int n] := .item (.of_primary (.literal rfl))
  have hx : SpelledBy (.var "x") [⟨.name "x", 3, 4, 1⟩] := .of_primary (.literal rfl)
  have hfirst : Lays dataText (.stmt (.mk 0 _)) _
      [⟨.keyword .kwData, 10, 14, 2⟩, ⟨.int 1, 15, 16, 2⟩] := .simple (.data (hone 1))
  have hsecond : Lays dataText (.stmt (.mk 0 _)) _
      [⟨.keyword .kwData, 24, 28, 4⟩, ⟨.int 2, 29, 30, 4⟩] := .simple (.data (hone 2))
  have hif : Lays dataText (.stmt (.mk 0 _)) _ _ := .ifChain (t := ⟨.keyword .kwIf, 0, 2, 1⟩)
    (u := ⟨.keyword .kwThen, 5, 9, 1⟩) (n := ⟨.newline, 9, 10, 1⟩) rfl hx rfl rfl
    (.cons hfirst (n := ⟨.newline, 16, 17, 2⟩) rfl .nil)
    (.endIf (t := ⟨.keyword .kwEndIf, 17, 23, 3⟩) rfl)
  have hform : BlockForm dataText _ _ := ⟨_, ⟨.eof, 31, 31, 5⟩, by decide +kernel, rfl,
    .cons hif (n := ⟨.newline, 23, 24, 3⟩) rfl
      (.cons hsecond (n := ⟨.newline, 30, 31, 4⟩) rfl .nil)⟩
  have hruns : dataRuns ((tokens dataText 1).map Token.form) = [[.int 1], [.int 2]] := by
    decide +kernel
  obtain ⟨-, hself, hpool⟩ := pool_in_block_order hform.parses
  obtain ⟨ess, hess, hdata, -⟩ := hpool _ _ (hself _ hform)
  exact ⟨_, hform.parses, ess, hruns ▸ hess, hdata⟩

end TaskBasic
