import TaskBasic.Proofs.Code.ByRules

/-
Compiled functions.

`Routine T f ss ms` says that the code of the function `f` is that of the
statements `ss`, between what comes first in a function and what ends it, and
that all `finally` blocks in them satisfy `T`.  `ms` are the marks of the
statements.

* `Emits.restrict` — a condition on the `finally` blocks of a phrase holds of
  those that its rules speak of.
* `compile_isRoutine` — all functions of a compiled program are such.
-/

namespace TaskBasic

open Compile List

variable {name : String} {depth : Nat} {t : OpenTry} {outer : List OpenTry} {ms : List Landmark}
  {Q : StmtKind → Prop} {interactive : Bool} {p : Program}

variable {k : StmtKind} {s : Stmt} {ss final : List Stmt} {otherwise : Option (List Stmt)}
  {d : Draft} {F : Fragment} {fuel base : Nat}

/-! ### Conditions on `finally` blocks -/

/-- The `finally` block of a `try` statement. -/
def Stmt.cleanup? (s : Stmt) : Option (List Stmt) :=
  match s.kind with
  | .tryBlock _ _ cleanup => cleanup
  | _ => none

/-- The `finally` blocks of the given statements satisfy `T`. -/
def Tidy (T : List Stmt → Prop) (ss : List Stmt) : Prop :=
  ∀ s ∈ ss, ∀ final, s.cleanup? = some final → T final

variable {T : List Stmt → Prop}

/-! ### The statements of a program -/

namespace Stmt

/-- The statement, if it declares a function. -/
def asFunction (s : Stmt) : List Stmt :=
  match s.kind with
  | .function _ _ _ _ _ => [s]
  | _ => []

/-- The statement, unless it declares a function. -/
def asOther (s : Stmt) : List Stmt :=
  match s.kind with
  | .function _ _ _ _ _ => []
  | _ => [s]

theorem mem_asFunction {t : Stmt} (h : t ∈ s.asFunction) : t = s := by
  rw [asFunction] at h
  split at h
  · exact mem_singleton.mp h
  · cases h

theorem mem_asOther {t : Stmt} (h : t ∈ s.asOther) : t = s := by
  rw [asOther] at h
  split at h
  · cases h
  · exact mem_singleton.mp h

end Stmt

/-- The statements of the top level as they are compiled: the functions first. -/
def Program.ordered (p : Program) (last : List Stmt) : List Stmt :=
  p.flatMap Stmt.asFunction ++ p.dropLast.flatMap Stmt.asOther ++ last.flatMap Stmt.asOther

/-! ### Functions -/

/-- The code of a compiled function, which the compiler has put together from the given
statements. -/
inductive Routine (T : List Stmt → Prop) : Function → List Stmt → List Landmark → Prop
  /-- A function that a statement declares. -/
  | function {name params isAsync isNative body d first slot d1 F d2 ms} :
    (opening params body).run (Draft.forFunction d) = .ok ((first, slot), d1) →
    Emits T (.body { inFunction := true, returnSlot := slot } body) d1 F d2 ms →
    Assembled body (Fragment.chunk (first ++ F ++ closing d2.line) d2.constants)
      (first ++ F ++ closing d2.line) →
    Routine T
      { name := name, arity := params.length
        chunk := Fragment.chunk (first ++ F ++ closing d2.line) d2.constants
        isAsync := isAsync, isNative := isNative } body ms
  /-- The top level of a program. -/
  | main {base F d1 ms} {p : Program} :
    Emits T (.body {} (p.ordered p.getLast?.toList)) { base := base } F d1 ms →
    Assembled p (Fragment.chunk (F ++ closing d1.line) d1.constants) (F ++ closing d1.line) →
    Routine T
      { name := mainName, arity := 0
        chunk := Fragment.chunk (F ++ closing d1.line) d1.constants }
      (p.ordered p.getLast?.toList) ms
  /-- The top level of a program that returns the value of an expression. -/
  | interactive {base F d1 ms line e G d2 ns} {p : Program} :
    Emits T (.body {} (p.ordered [])) { base := base } F d1 ms →
    Pushes [] (.one e) (d1.atLine line) G d2 ns →
    Assembled p (Fragment.chunk (F ++ G ++ #[⟨d2.line, .instr .ret⟩]) d2.constants)
      (F ++ G ++ #[⟨d2.line, .instr .ret⟩]) →
    Routine T
      { name := mainName, arity := 0
        chunk := Fragment.chunk (F ++ G ++ #[⟨d2.line, .instr .ret⟩]) d2.constants }
      (p.ordered []) (ms ++ ns)

/-- The constants of a function are atoms or among the first `n` functions. -/
def Function.Refers (n : Nat) (f : Function) : Prop :=
  ∀ v ∈ f.chunk.constants, v.Refers n

/-- All functions so far satisfy `P`, and refer to functions so far only. -/
def Draft.Holds (P : Function → Prop) (d : Draft) : Prop :=
  ∀ f ∈ d.functions, P f ∧ f.Refers (d.base + d.functions.size)

section

variable {P : Function → Prop} {d d' d1 : Draft} {F : Fragment}

theorem Grows.holds (hg : Grows d F d') (h : d.Holds P) : d'.Holds P := by
  rwa [Draft.Holds, hg.same, hg.base]

theorem Emitted.holds (he : Emitted d F d') : d.Holds P → d'.Holds P :=
  (Grows.of_emitted he).holds

theorem declare_holds {slot : UInt16}
    (hd : (declare name).run d = .ok (slot, d')) (h : d.Holds P) : d'.Holds P := by
  obtain ⟨_, _, _, rfl⟩ := run_declare_ok.mp hd
  exact h

theorem constant_holds {v : Value} {index : UInt16}
    (hc : (constant v).run d = .ok (index, d')) (h : d.Holds P) : d'.Holds P := by
  obtain ⟨_, rfl⟩ := run_constant_ok.mp hc
  exact h

theorem leave_holds (hl : Compile.leave.run d = .ok (F, d')) (h : d.Holds P) : d'.Holds P := by
  obtain ⟨_, rfl⟩ := run_leave_ok.mp hl
  exact h

theorem discardAbove_holds (hl : (discardAbove depth).run d = .ok (F, d'))
    (h : d.Holds P) : d'.Holds P := by
  obtain ⟨_, rfl⟩ := run_discardAbove_ok.mp hl
  exact h

theorem opening_holds {params : List String} {body : List Stmt} {slot : Option UInt16}
    (ho : (opening params body).run d.forFunction = .ok ((F, slot), d1)) (h : d.Holds P) :
    d1.Holds P := by
  rcases run_opening_ok ho with ⟨_, _, _, _, rfl⟩ | ⟨_, _, _, _, rfl⟩
  · exact h
  · exact h

end

/-! ### The statements of a phrase -/

/-- All statements inside a block that may be absent. -/
def optionNested : Option (List Stmt) → List Stmt
  | some body => blockNested true body
  | none => []

/-- All statements in the `finally` blocks of open regions. -/
def opensNested (opens : List OpenTry) : List Stmt :=
  opens.flatMap fun t => optionNested t.frame.cleanup

@[simp] theorem opensNested_cons (t : OpenTry) (opens : List OpenTry) :
    opensNested (t :: opens) = optionNested t.frame.cleanup ++ opensNested opens := rfl

/-- All statements whose code the code of a phrase can have in it, or in the functions that it
declares. -/
def Phrase.nested : Phrase → List Stmt
  | stmt site s => opensNested site.opens ++ s.nested true
  | kind site k => opensNested site.opens ++ (Stmt.mk 0 k).nested true
  | body site ss | block site ss => opensNested site.opens ++ blockNested true ss
  | branches site otherwise bs =>
    opensNested site.opens ++ (branchesNested true bs ++ optionNested otherwise)
  | arms site _ otherwise cs =>
    opensNested site.opens ++ (casesNested true cs ++ optionNested otherwise)
  | handler site _ handling cleanup _ =>
    opensNested site.opens ++ (optionNested (handling.map (·.2)) ++ optionNested cleanup)
  | leaving site _ _ | unwind site _ _ _ => opensNested site.opens

/-- All statements of a phrase are of kinds that satisfy `Q`. -/
def Phrase.Has (Q : StmtKind → Prop) (p : Phrase) : Prop :=
  ∀ s ∈ p.nested, Q s.kind

section

variable {Q : StmtKind → Prop} {site : Site}

theorem nested_tryBlock (body : List Stmt) (handling : Option (String × List Stmt))
    (cleanup : Option (List Stmt)) : (StmtKind.tryBlock body handling cleanup).nested true =
      blockNested true body ++ (optionNested (handling.map (·.2)) ++ optionNested cleanup) := by
  cases handling <;> cases cleanup <;> simp [StmtKind.nested, optionNested]

theorem nested_ifChain (bs : List (Expr × List Stmt)) (otherwise : Option (List Stmt)) :
    (StmtKind.ifChain bs otherwise).nested true =
      branchesNested true bs ++ optionNested otherwise := by
  cases otherwise <;> simp [StmtKind.nested, optionNested]

theorem nested_switchBlock (subject : Expr) (cs : List (List Expr × List Stmt))
    (otherwise : Option (List Stmt)) : (StmtKind.switchBlock subject cs otherwise).nested true =
      casesNested true cs ++ optionNested otherwise := by
  cases otherwise <;> simp [StmtKind.nested, optionNested]

namespace Phrase.Has

variable {owner : Attempt} {landing : List Duty}

theorem stmt {line : Nat} (h : (Phrase.stmt site (.mk line k)).Has Q) :
    (Phrase.kind site k).Has Q := by
  simp only [Has, nested, Stmt.nested, forall_mem_append, forall_mem_cons] at h ⊢
  exact h

theorem self (h : (Phrase.kind site k).Has Q) : Q k := by
  simp only [Has, nested, Stmt.nested, forall_mem_append, forall_mem_cons] at h
  exact h.2.1

theorem cons (h : (Phrase.body site (s :: ss)).Has Q) :
    (Phrase.stmt site s).Has Q ∧ (Phrase.body site ss).Has Q := by
  simp only [Has, nested, blockNested, forall_mem_append] at h ⊢
  exact ⟨⟨h.1, h.2.1⟩, h.1, h.2.2⟩

theorem ifChain {bs : List (Expr × List Stmt)}
    (h : (Phrase.kind site (.ifChain bs otherwise)).Has Q) :
    (Phrase.branches site otherwise bs).Has Q := by
  simp only [Has, nested, Stmt.nested, nested_ifChain, forall_mem_append,
    forall_mem_cons] at h ⊢
  exact ⟨h.1, h.2.2⟩

theorem branches {condition : Expr} {body : List Stmt} {rest : List (Expr × List Stmt)}
    (h : (Phrase.branches site otherwise ((condition, body) :: rest)).Has Q) :
    (Phrase.block site body).Has Q ∧ (Phrase.branches site otherwise rest).Has Q := by
  simp only [Has, nested, branchesNested, forall_mem_append] at h ⊢
  exact ⟨⟨h.1, h.2.1.1⟩, h.1, h.2.1.2, h.2.2⟩

theorem switchBlock {subject : Expr} {cs : List (List Expr × List Stmt)}
    (h : (Phrase.kind site (.switchBlock subject cs otherwise)).Has Q) (slot : UInt16) :
    (Phrase.arms site slot otherwise cs).Has Q := by
  simp only [Has, nested, Stmt.nested, nested_switchBlock, forall_mem_append,
    forall_mem_cons] at h ⊢
  exact ⟨h.1, h.2.2⟩

theorem arms {slot : UInt16} {values : List Expr} {body : List Stmt}
    {rest : List (List Expr × List Stmt)}
    (h : (Phrase.arms site slot otherwise ((values, body) :: rest)).Has Q) :
    (Phrase.block site body).Has Q ∧ (Phrase.arms site slot otherwise rest).Has Q := by
  simp only [Has, nested, casesNested, forall_mem_append] at h ⊢
  exact ⟨⟨h.1, h.2.1.1⟩, h.1, h.2.1.2, h.2.2⟩

/-- The body of a loop or of a function. -/
theorem body {body : List Stmt} (hk : k.nested true = blockNested true body)
    (h : (Phrase.kind site k).Has Q) : (Phrase.block site body).Has Q := by
  simp only [Has, nested, Stmt.nested, hk, forall_mem_append, forall_mem_cons] at h ⊢
  exact ⟨h.1, h.2.2⟩

/-- The way out of the regions around a statement. -/
theorem unwind (h : (Phrase.kind site k).Has Q) (transfer : Transfer)
    (scopeDepth tryDepth : Nat) : (Phrase.unwind site transfer scopeDepth tryDepth).Has Q := by
  simp only [Has, nested, forall_mem_append] at h ⊢
  exact h.1

theorem unwindRet {value : Option Expr} (h : (Phrase.kind site (.ret value)).Has Q)
    (duties : List Duty) (transfer : Transfer) (scopeDepth tryDepth : Nat) :
    (Phrase.unwind (site.within site.opens duties) transfer scopeDepth tryDepth).Has Q :=
  h.unwind transfer scopeDepth tryDepth

theorem leaving {transfer : Transfer}
    (h : (Phrase.leaving site transfer depth).Has Q) (hopens : site.opens = t :: outer)
    (duties : List Duty) : (Phrase.leaving (site.within outer duties) transfer depth).Has Q := by
  simp only [Has, nested, hopens, Site.within, opensNested_cons, forall_mem_append] at h ⊢
  exact h.2

theorem leavingCleanup {transfer : Transfer} (h :
    (Phrase.leaving site transfer depth).Has Q)
    (hopens : site.opens = t :: outer) (hfinal : t.frame.cleanup = some final) (c : Copy)
    (duties : List Duty) : (Phrase.block (site.running outer c duties) final).Has Q := by
  simp only [Has, nested, hopens, opensNested_cons, hfinal, optionNested, Site.running,
    forall_mem_append] at h ⊢
  exact ⟨h.2, h.1⟩

section

variable {body : List Stmt} {handling : Option (String × List Stmt)}
  {cleanup : Option (List Stmt)}

theorem tryBody (h : (Phrase.kind site (.tryBlock body handling cleanup)).Has Q) (d : Draft)
    (owner : Attempt) (handler : Nat) (landing duties : List Duty) :
    (Phrase.block (site.within (d.openTry cleanup owner handler landing :: site.opens) duties)
      body).Has Q := by
  simp only [Has, nested, Stmt.nested, nested_tryBlock, Site.within, opensNested_cons,
    Draft.openTry, forall_mem_append, forall_mem_cons] at h ⊢
  exact ⟨⟨h.2.2.2.2, h.1⟩, h.2.2.1⟩

theorem tryHandler (h : (Phrase.kind site (.tryBlock body handling cleanup)).Has Q)
    (owner : Attempt)
    (landing : List Duty) : (Phrase.handler site owner handling cleanup landing).Has Q := by
  simp only [Has, nested, Stmt.nested, nested_tryBlock, forall_mem_append,
    forall_mem_cons] at h ⊢
  exact ⟨h.1, h.2.2.2⟩

theorem tryFinal (h : (Phrase.kind site (.tryBlock body handling (some final))).Has Q) (c : Copy)
    (duties : List Duty) : (Phrase.block (site.running site.opens c duties) final).Has Q := by
  simp only [Has, nested, Stmt.nested, nested_tryBlock, Site.running, optionNested,
    forall_mem_append, forall_mem_cons] at h ⊢
  exact ⟨h.1, h.2.2.2.2⟩

theorem handlerFinal (h : (Phrase.handler site owner handling (some final) landing).Has Q)
    (c : Copy)
    (duties : List Duty) : (Phrase.block (site.running site.opens c duties) final).Has Q := by
  simp only [Has, nested, Site.running, optionNested, forall_mem_append] at h ⊢
  exact ⟨h.1, h.2.2⟩

theorem handlerBody
    (h : (Phrase.handler site owner (some (name, body)) cleanup landing).Has Q) :
    (Phrase.body site body).Has Q := by
  simp only [Has, nested, Option.map_some, optionNested, forall_mem_append] at h ⊢
  exact ⟨h.1, h.2.1⟩

theorem handlerGuarded
    (h : (Phrase.handler site owner (some (name, body)) cleanup landing).Has Q) (d : Draft)
    (owner' : Attempt) (handler : Nat) (landing' duties : List Duty) :
    (Phrase.block (site.within (d.openTry cleanup owner' handler landing' :: site.opens) duties)
      body).Has Q := by
  simp only [Has, nested, Site.within, opensNested_cons, Draft.openTry, Option.map_some,
    forall_mem_append] at h ⊢
  exact ⟨⟨h.2.2, h.1⟩, h.2.1⟩

end

end Phrase.Has

end

/-! ### Conditions on the `finally` blocks of a phrase -/

/-- If the statement is a `try` statement with a `finally` block, the block satisfies `T`. -/
def StmtKind.Trim (T : List Stmt → Prop) (k : StmtKind) : Prop :=
  ∀ final, (Stmt.mk 0 k).cleanup? = some final → T final

/-- The `finally` blocks of open regions. -/
def cleanups (opens : List OpenTry) : List (List Stmt) :=
  opens.filterMap (·.frame.cleanup)

/-- The `finally` blocks that a phrase speaks of besides those of its own statements. -/
def Phrase.owed : Phrase → List (List Stmt)
  | stmt site _ | kind site _ | body site _ | block site _ | branches site _ _ | arms site _ _ _
  | leaving site _ _ | unwind site _ _ _ => cleanups site.opens
  | handler site _ _ cleanup _ => cleanup.toList ++ cleanups site.opens

theorem mem_cleanups_of_outer {site : Site}
    (hopens : site.opens = t :: outer) (h : final ∈ cleanups outer) :
    final ∈ cleanups site.opens := by
  rw [hopens]
  exact ((sublist_cons_self t outer).filterMap _).mem h

theorem Emits.restrict {p : Phrase} {d' : Draft}
    (h : Emits AnyBlock p d F d' ms) (hp : p.Has (StmtKind.Trim T))
    (hT : ∀ final ∈ p.owed, T final) : Emits T p d F d' ms := by
  induction h with
  | stmt _ ih => exact .stmt (ih hp.stmt hT)
  | simple h => exact .simple h
  | nil => exact .nil
  | cons _ _ ih ihs => exact .cons (ih hp.cons.1 hT) (ihs hp.cons.2 hT)
  | block _ hdrop ih => exact .block (ih hp hT) hdrop
  | ifChain _ ih => exact .ifChain (ih hp.ifChain hT)
  | branchesNone => exact .branchesNone
  | branchesElse _ ih => exact .branchesElse (ih hp hT)
  | branchesLast ht hskip _ ih => exact .branchesLast ht hskip (ih hp.branches.1 hT)
  | branchesCons ht hskip _ hout _ ih ihs =>
    exact .branchesCons ht hskip (ih hp.branches.1 hT) hout (ihs hp.branches.2 hT)
  | whileLoop ht hout _ hres hback ih =>
    exact .whileLoop ht hout (ih (hp.body rfl) hT) hres hback
  | countLoop hfirst hbound hslot2 hstride hslot4 htest hout _ hagain hleave hnext hback hdrop ih =>
    exact .countLoop hfirst hbound hslot2 hstride hslot4 htest hout (ih (hp.body rfl) hT) hagain
      hleave hnext hback hdrop
  | eachLoop hplace hall heach hzero hindex hout hbind _ hagain hleave hone hback hdrop ih =>
    exact .eachLoop hplace hall heach hzero hindex hout hbind (ih (hp.body rfl) hT) hagain hleave
      hone hback hdrop
  | switchBlock hv hslot _ hdrop ih => exact .switchBlock hv hslot (ih (hp.switchBlock _) hT) hdrop
  | armsNone => exact .armsNone
  | armsElse _ ih => exact .armsElse (ih hp hT)
  | armsCons ht _ hout _ ih ihs => exact .armsCons ht (ih hp.arms.1 hT) hout (ihs hp.arms.2 hT)
  | function hparams hopen _ hf hname hwhole ih =>
    -- No region is open at the start of a function.
    have hbody := ih (fun s hs => hp.body rfl s (mem_append_right _ hs)) nofun
    exact .function hparams hopen hbody hf hname hwhole
  | leavingNil hopens => exact .leavingNil hopens
  | leavingStop hopens hstop => exact .leavingStop hopens hstop
  | leavingPlain hopens hdepth hcleanup hdrop _ ih =>
    have houter := fun final hf => hT final (mem_cleanups_of_outer hopens hf)
    exact .leavingPlain hopens hdepth hcleanup hdrop (ih (hp.leaving hopens _) houter)
  | leavingCleanup _ hopens hdepth hcleanup hdrop _ _ ih ihs =>
    have houter := fun final hf => hT final (mem_cleanups_of_outer hopens hf)
    have hfinal := hT _ (mem_filterMap.mpr ⟨_, hopens ▸ mem_cons_self, hcleanup⟩)
    exact .leavingCleanup hfinal hopens hdepth hcleanup hdrop
      (ih (hp.leavingCleanup hopens hcleanup _ _) houter) (ihs (hp.leaving hopens _) houter)
  | unwind _ hdrop ih => exact .unwind (ih hp hT) hdrop
  | breakLoop hloop _ ih => exact .breakLoop hloop (ih (hp.unwind _ _ _) hT)
  | continueOn hloop hagain _ ih => exact .continueOn hloop hagain (ih (hp.unwind _ _ _) hT)
  | continueBack hloop hagain _ hback ih =>
    exact .continueBack hloop hagain (ih (hp.unwind _ _ _) hT) hback
  | retPlain hin hslot hv => exact .retPlain hin hslot hv
  | retAcross hin hslot hopens hv _ ih =>
    exact .retAcross hin hslot hopens hv (ih (hp.unwindRet _ _ _ _) hT)
  | tryPlain hbegin _ hskip _ ih ihs =>
    exact .tryPlain hbegin (ih (hp.tryBody _ _ _ _ _) hT) hskip (ihs (hp.tryHandler _ _) hT)
  | tryCleanup _ hbegin _ hskip _ _ ih ihs ihf =>
    have hfinal := hp.self _ rfl
    have hown := forall_mem_cons.mpr ⟨hfinal, hT⟩
    exact .tryCleanup hfinal hbegin (ih (hp.tryBody _ _ _ _ _) hown) hskip
      (ihs (hp.tryHandler _ _) hown) (ihf (hp.tryFinal _ _) hT)
  | handlerNone => exact .handlerNone
  | handlerCatch hslot _ hdrop ih => exact .handlerCatch hslot (ih hp.handlerBody hT) hdrop
  | handlerFinally _ hslot _ ih =>
    obtain ⟨hfinal, houter⟩ := forall_mem_cons.mp hT
    exact .handlerFinally hfinal hslot (ih (hp.handlerFinal _ _) houter)
  | handlerBoth _ hslot hbegin _ hdrop hskip hcaught herror _ ih ihf =>
    obtain ⟨hfinal, houter⟩ := forall_mem_cons.mp hT
    exact .handlerBoth hfinal hslot hbegin (ih (hp.handlerGuarded _ _ _ _ _) hT) hdrop hskip hcaught
      herror (ihf (hp.handlerFinal _ _) houter)

/-! ### The functions of a phrase -/

theorem Emits.holds {P : Function → Prop}
    (hP : ∀ {f ss ms}, Routine T f ss ms → (∀ s ∈ blockNested true ss, Q s.kind) → P f)
    {p : Phrase} {d d' : Draft} {F : Fragment} (h : Emits T p d F d' ms)
    (hQ : p.Has Q) (hd : d.Holds P) : d'.Holds P := by
  induction h with
  | stmt _ ih => exact ih hQ.stmt hd
  | simple h => exact h.grows.holds hd
  | nil | branchesNone | armsNone | leavingNil _ | leavingStop _ _ | handlerNone => exact hd
  | cons _ _ ih ihs => exact ihs hQ.cons.2 (ih hQ.cons.1 hd)
  | block _ hdrop ih => exact leave_holds hdrop (ih hQ hd)
  | ifChain _ ih => exact ih hQ.ifChain hd
  | branchesElse _ ih | armsElse _ ih => exact ih hQ hd
  | branchesLast ht _ _ ih =>
    have hd1 := ht.emitted.holds hd
    exact ih hQ.branches.1 hd1
  | branchesCons ht _ _ _ _ ih ihs =>
    have hd1 := ht.emitted.holds hd
    have hd2 := ih hQ.branches.1 hd1
    exact ihs hQ.branches.2 hd2
  | whileLoop ht _ _ _ _ ih =>
    have hd1 := ht.emitted.holds hd
    exact ih (hQ.body rfl) hd1
  | countLoop hfirst hbound hslot2 hstride hslot4 htest _ _ _ _ hnext _ hdrop ih =>
    have hd3 := declare_holds hslot2 (hbound.emitted.holds (hfirst.grows.holds hd))
    have hd6 := htest.emitted.holds (declare_holds hslot4 (hstride.emitted.holds hd3))
    have hd8 := hnext.grows.holds (ih (hQ.body rfl) hd6)
    exact leave_holds hdrop hd8
  | eachLoop hplace hall heach hzero hindex _ hbind _ _ _ hone _ hdrop ih =>
    have hd1 := hplace.grows.holds hd
    have hd4 := constant_holds hzero (declare_holds heach (hall.emitted.holds hd1))
    have hd5 := declare_holds hindex hd4
    have hd6 := hbind.grows.holds hd5
    have hd8 := constant_holds hone (ih (hQ.body rfl) hd6)
    exact leave_holds hdrop hd8
  | switchBlock hv hslot _ hdrop ih =>
    have hd2 := declare_holds hslot (hv.emitted.holds hd)
    exact leave_holds hdrop (ih (hQ.switchBlock _) hd2)
  | armsCons ht _ _ _ ih ihs => exact ihs hQ.arms.2 (ih hQ.arms.1 (ht.emitted.holds hd))
  | @function site name params isAsync isNative body d first slot d1 F d2 ms f d3 index d4 hparams
      hopen h hf hname hwhole ih =>
    have hbody : Added d.forFunction (first ++ F) d2 := (added_opening hopen).trans h.added
    have hkinds : ∀ s ∈ blockNested true body, Q s.kind :=
      fun s hs => hQ.body rfl s (mem_append_right _ hs)
    have hd2 : d2.Holds P := ih hkinds (opening_holds hopen hd)
    have hle : ∀ f, d2.base + d2.functions.size ≤ d.base + (d2.functions.push f).size := by
      have hbase : d2.base = d.base := hbody.base
      intro f
      rw [hbase, Array.size_push]
      omega
    have hd3 : d3.Holds P → d4.Holds P := constant_holds (d := d3.advance 3) hname
    refine hd3 (constant_holds hf fun g hg => ?_)
    rcases Array.mem_push.mp hg with hg | rfl
    · exact ⟨(hd2 g hg).1, fun v hv => ((hd2 g hg).2 v hv).mono (hle _)⟩
    · refine ⟨hP (.function hopen h hwhole) hkinds, fun v hv => ?_⟩
      rw [Fragment.chunk_constants] at hv
      rcases hbody.fresh v hv with hv | hv
      · exact absurd hv (Array.not_mem_empty v)
      · exact hv.mono (hle _)
  | leavingPlain hopens _ _ hdrop _ ih =>
    have hd1 := discardAbove_holds hdrop hd
    exact ih (hQ.leaving hopens _) hd1
  | leavingCleanup _ hopens _ hcleanup hdrop _ _ ih ihs =>
    have hd1 := discardAbove_holds hdrop hd
    exact ihs (hQ.leaving hopens _) (ih (hQ.leavingCleanup hopens hcleanup _ _) hd1)
  | unwind _ hdrop ih => exact discardAbove_holds hdrop (ih hQ hd)
  | breakLoop _ _ ih | continueOn _ _ _ ih | continueBack _ _ _ _ ih =>
    exact ih (hQ.unwind _ _ _) hd
  | retPlain _ _ hv =>
    have hd1 := hv.emitted.holds hd
    exact hd1
  | retAcross _ _ _ hv _ ih =>
    have hd1 := hv.emitted.holds hd
    exact ih (hQ.unwindRet _ _ _ _) hd1
  | tryPlain _ _ _ _ ih ihs => exact ihs (hQ.tryHandler _ _) (ih (hQ.tryBody _ _ _ _ _) hd)
  | tryCleanup _ _ _ _ _ _ ih ihs ihf =>
    have hd1 := ih (hQ.tryBody _ _ _ _ _) hd
    exact ihf (hQ.tryFinal _ _) (ihs (hQ.tryHandler _ _) hd1)
  | handlerCatch hslot _ hdrop ih =>
    have hd1 := declare_holds hslot hd
    exact leave_holds hdrop (ih hQ.handlerBody hd1)
  | handlerFinally _ hslot _ ih =>
    have hd1 := declare_holds hslot hd
    exact ih (hQ.handlerFinal _ _) hd1
  | handlerBoth _ hslot _ _ hdrop _ hcaught herror _ ih ihf =>
    have hd1 := declare_holds hslot hd
    have hd3 := leave_holds hdrop (ih (hQ.handlerGuarded _ _ _ _ _) hd1)
    have hd5 := declare_holds herror (declare_holds hcaught hd3)
    exact ihf (hQ.handlerFinal _ _) hd5

/-! ### Programs -/

theorem Emits.body_append {site : Site} {ts : List Stmt} {d1 d2 : Draft} {G : Fragment}
    {ns : List Landmark} (h : Emits T (.body site ss) d F d1 ms)
    (h' : Emits T (.body site ts) d1 G d2 ns) :
    Emits T (.body site (ss ++ ts)) d (F ++ G) d2 (ms ++ ns) := by
  induction ss generalizing d F ms with
  | nil =>
    cases h with
    | nil => rwa [Array.empty_append]
  | cons s ss ih =>
    cases h with
    | cons hs hss =>
      rw [Array.append_assoc, append_assoc]
      exact .cons hs (ih hss)

namespace Compile

variable {d d' : Draft} {F : Fragment}

theorem emits_single (h : (stmt fuel {} s).run d = .ok (F, d')) :
    ∃ ms, Emits AnyBlock (.body {} [s]) d F d' ms := by
  obtain ⟨ms, hms⟩ := emits_stmt fuel {} s d F d' h
  have hcons := Emits.cons hms .nil
  rw [Array.append_empty] at hcons
  exact ⟨_, hcons⟩

theorem emits_topLevelFunction (h : (topLevelFunction fuel s).run d = .ok (F, d')) :
    ∃ ms, Emits AnyBlock (.body {} s.asFunction) d F d' ms := by
  obtain ⟨line, k⟩ := s
  cases k with
  | function name params isAsync isNative body => exact emits_single h
  | _ =>
    obtain ⟨rfl, rfl⟩ := run_pure_ok.mp h
    exact ⟨[], .nil⟩

theorem emits_topLevel (h : (topLevel fuel s).run d = .ok (F, d')) :
    ∃ ms, Emits AnyBlock (.body {} s.asOther) d F d' ms := by
  obtain ⟨line, k⟩ := s
  cases k with
  | function name params isAsync isNative body =>
    obtain ⟨rfl, rfl⟩ := run_pure_ok.mp h
    exact ⟨[], .nil⟩
  | _ => exact emits_single h

/-- A sequence of which each statement becomes the body of some statements. -/
theorem emits_flatMap {g : Stmt → Compile Fragment} {keep : Stmt → List Stmt}
    (hg : ∀ s d F d', (g s).run d = .ok (F, d') →
    ∃ ms, Emits AnyBlock (.body {} (keep s)) d F d' ms)
    (h : (sequence g ss).run d = .ok (F, d')) :
    ∃ ms, Emits AnyBlock (.body {} (ss.flatMap keep)) d F d' ms := by
  suffices hacc : ∀ {acc : Fragment} {d F},
      (ss.foldlM (fun code s => do return code ++ (← g s)) acc :
      Compile Fragment).run d = .ok (F, d') →
      ∃ G ms, F = acc ++ G ∧ Emits AnyBlock (.body {} (ss.flatMap keep)) d G d' ms by
    obtain ⟨G, ms, rfl, hms⟩ := hacc h
    rw [Array.empty_append]
    exact ⟨ms, hms⟩
  clear h
  induction ss with
  | nil =>
    intro acc d F h
    rw [foldlM_nil, run_pure_ok] at h
    obtain ⟨rfl, rfl⟩ := h
    exact ⟨#[], [], by simp, .nil⟩
  | cons s ss ih =>
    intro acc d F h
    simp only [foldlM_cons, run_bind_ok, run_pure_ok] at h
    obtain ⟨_, d1, ⟨G, _, hs, rfl, rfl⟩, hss⟩ := h
    obtain ⟨ms, hms⟩ := hg s _ _ _ hs
    obtain ⟨H, ns, rfl, hns⟩ := ih hss
    exact ⟨G ++ H, ms ++ ns, by rw [Array.append_assoc], hms.body_append hns⟩

/-- The code behind the other code of a program. -/
theorem emits_ending {last : Option Stmt}
    (h : (ending fuel interactive last).run d = .ok (F, d')) :
    (∃ G d1 ms, Emits AnyBlock (.body {} (last.toList.flatMap Stmt.asOther)) d G d1 ms ∧
      F = G ++ closing d1.line ∧ d' = d1.advance 2) ∨
    ∃ line e G d1 ms, Pushes [] (.one e) (d.atLine line) G d1 ms ∧
      F = G ++ #[⟨d1.line, .instr .ret⟩] ∧ d' = d1.advance 1 := by
  have hfinish {x : Compile Fragment} {ss : List Stmt}
      (hx : ∀ {G d1}, x.run d = .ok (G, d1) → ∃ ms, Emits AnyBlock (.body {} ss) d G d1 ms)
      (h : (do
        let code := (← x) ++ (← emit .pushAbsent)
        return code ++ (← emit .ret) : Compile Fragment).run d = .ok (F, d')) :
      ∃ G d1 ms, Emits AnyBlock (.body {} ss) d G d1 ms ∧
        F = G ++ closing d1.line ∧ d' = d1.advance 2 := by
    simp only [run_bind_ok, run_emit_ok, run_pure_ok] at h
    obtain ⟨G, d1, hG, _, _, ⟨rfl, rfl⟩, _, _, ⟨rfl, rfl⟩, rfl, rfl⟩ := h
    obtain ⟨ms, hms⟩ := hx hG
    exact ⟨G, d1, ms, hms, Array.append_assoc, rfl⟩
  have hlast {s : Stmt} : [s].flatMap Stmt.asOther = s.asOther := append_nil _
  cases last with
  | none =>
    refine .inl (hfinish (x := pure #[]) (fun hG => ?_) h)
    obtain ⟨rfl, rfl⟩ := run_pure_ok.mp hG
    exact ⟨[], .nil⟩
  | some s =>
    rw [Option.toList_some, hlast]
    obtain ⟨line, k⟩ := s
    cases k with
    | eval e =>
      rw [ending] at h
      split at h
      next =>
        simp only [run_bind_ok, run_modify_ok, run_emit_ok, run_pure_ok] at h
        obtain ⟨_, _, rfl, G, d1, he, _, _, ⟨rfl, rfl⟩, rfl, rfl⟩ := h
        obtain ⟨ms, hms⟩ := pushes_expr he
        exact .inr ⟨line, e, G, d1, ms, hms, rfl, rfl⟩
      next => exact .inl (hfinish emits_topLevel h)
    | _ => exact .inl (hfinish emits_topLevel h)

end Compile

theorem blockNested_eq_flatMap (ss : List Stmt) :
    blockNested true ss = ss.flatMap (Stmt.nested true) := by
  induction ss with
  | nil => rfl
  | cons s ss ih => rw [blockNested, flatMap_cons, ih]

theorem mem_blockNested_of_subset {p : List Stmt} (hsub : ∀ s ∈ ss, s ∈ p)
    (hs : s ∈ blockNested true ss) : s ∈ blockNested true p := by
  rw [blockNested_eq_flatMap] at hs ⊢
  obtain ⟨t, ht, hst⟩ := mem_flatMap.mp hs
  exact mem_flatMap.mpr ⟨t, hsub t ht, hst⟩

theorem Program.mem_of_mem_ordered {last : List Stmt} (hlast : ∀ s ∈ last, s ∈ p)
    (h : s ∈ p.ordered last) : s ∈ p := by
  rw [ordered, mem_append, mem_append] at h
  rcases h with (h | h) | h <;> obtain ⟨t, ht, hs⟩ := mem_flatMap.mp h
  · exact Stmt.mem_asFunction hs ▸ ht
  · exact Stmt.mem_asOther hs ▸ dropLast_subset p ht
  · exact Stmt.mem_asOther hs ▸ hlast t ht

def Function.IsRoutine (T : List Stmt → Prop) (Q : StmtKind → Prop) (f : Function) : Prop :=
  ∃ ss ms, Routine T f ss ms ∧ ∀ s ∈ blockNested true ss, Q s.kind

/-- What the draft of a whole program says about its functions. -/
theorem Emits.routines (h : Emits T (.body {} ss) { base := base } F d ms)
    (hQ : ∀ s ∈ blockNested true ss, Q s.kind) :
    ∀ f ∈ d.functions, f.IsRoutine T Q ∧ f.Refers (base + d.functions.size) := by
  have hbase : d.base = base := h.added.base
  have hd := h.holds (P := Function.IsRoutine T Q) (fun hr hss => ⟨_, _, hr, hss⟩) hQ
    fun f hf => absurd hf (Array.not_mem_empty f)
  rwa [Draft.Holds, hbase] at hd

/-- The constants of a draft that began without any. -/
theorem Added.refers (h : Added { base := base } F d)
    {v : Value} (hv : v ∈ d.constants) : v.Refers (base + d.functions.size) := by
  have hbase : d.base = base := h.base
  rcases h.fresh v hv with hv | hv
  · exact absurd hv (Array.not_mem_empty v)
  · rwa [hbase] at hv

/-- The code of a whole program. -/
theorem Compile.emits_program {W : Fragment}
    (h : (program fuel interactive p).run { base := base } = .ok (W, d)) :
    (∃ F d1 ms, Emits AnyBlock (.body {} (p.ordered p.getLast?.toList)) { base := base } F d1 ms ∧
      W = F ++ closing d1.line ∧ d = d1.advance 2) ∨
    ∃ F d1 ms line e G d2 ns, Emits AnyBlock (.body {} (p.ordered [])) { base := base } F d1 ms ∧
      Pushes [] (.one e) (d1.atLine line) G d2 ns ∧ W = F ++ G ++ #[⟨d2.line, .instr .ret⟩] ∧
      d = d2.advance 1 := by
  simp only [Compile.program, run_bind_ok, run_pure_ok] at h
  obtain ⟨A, d1, hA, B, d2, hB, C, _, hC, rfl, rfl⟩ := h
  obtain ⟨ms, hms⟩ := emits_flatMap (fun _ _ _ _ => emits_topLevelFunction) hA
  obtain ⟨ns, hns⟩ := emits_flatMap (fun _ _ _ _ => emits_topLevel) hB
  have hbody := hms.body_append hns
  rcases emits_ending hC with ⟨G, d3, os, hos, rfl, rfl⟩ | ⟨line, e, G, d3, os, hos, rfl, rfl⟩
  · exact .inl ⟨_, d3, _, hbody.body_append hos, Array.append_assoc.symm, rfl⟩
  · refine .inr ⟨_, d2, ms ++ ns, line, e, G, d3, os, ?_, hos, Array.append_assoc.symm, rfl⟩
    rw [Program.ordered, flatMap_nil, append_nil]
    exact hbody

theorem compile_isRoutine
    {c : Compiled} (h : p.compile interactive base = .ok c) (hT : Tidy T (blockNested true p))
    (hQ : ∀ s ∈ blockNested true p, Q s.kind) :
    ∀ f ∈ c.functions.push c.main, f.IsRoutine T Q ∧ f.Refers (base + c.functions.size) := by
  simp only [Program.compile, bind, Except.bind, pure, Except.pure] at h
  split at h
  next => cases h
  next data _ =>
    split at h
    next => cases h
    next result hrun =>
      obtain ⟨code, d⟩ := result
      cases h
      have hrun : (Compile.program p.fuel interactive p).run { base := base } =
        .ok (code, d) := hrun
      have hwhole := Assembled.program hrun
      intro f hf
      rcases emits_program hrun with ⟨F, d1, ms, hbody, rfl, rfl⟩ |
        ⟨F, d1, ms, line, e, G, d2, ns, hbody, hlast, rfl, rfl⟩
      · have hsub : ∀ s ∈ blockNested true (p.ordered p.getLast?.toList), s ∈ blockNested true p :=
          fun s => mem_blockNested_of_subset fun s =>
            Program.mem_of_mem_ordered (by simpa using fun s => mem_of_getLast?)
        have hall : Emits T (.body {} (p.ordered p.getLast?.toList)) { base := base } F d1 ms :=
          hbody.restrict (fun s hs => hT s (hsub s hs)) (by rintro _ ⟨⟩)
        rcases Array.mem_push.mp hf with hf | rfl
        · exact hall.routines (fun s hs => hQ s (hsub s hs)) f hf
        · refine ⟨⟨_, _, .main hall hwhole, fun s hs => hQ s (hsub s hs)⟩, fun v hv => ?_⟩
          rw [Fragment.chunk_constants] at hv
          exact hall.added.refers hv
      · have hsub : ∀ s ∈ blockNested true (p.ordered []), s ∈ blockNested true p :=
          fun s => mem_blockNested_of_subset fun s => Program.mem_of_mem_ordered (by simp)
        have hall : Emits T (.body {} (p.ordered [])) { base := base } F d1 ms :=
          hbody.restrict (fun s hs => hT s (hsub s hs)) (by rintro _ ⟨⟩)
        rcases Array.mem_push.mp hf with hf | rfl
        · have hsame : d2.functions = d1.functions := hlast.emitted.functions
          have hf' : f ∈ d1.functions := hsame ▸ hf
          have hsize : d1.functions.size = (d2.advance 1).functions.size := by
            rw [Draft.advance_functions, hsame]
          exact hsize ▸ hall.routines (fun s hs => hQ s (hsub s hs)) f hf'
        · refine ⟨⟨_, _, .interactive hall hlast hwhole, fun s hs => hQ s (hsub s hs)⟩,
            fun v hv => ?_⟩
          rw [Fragment.chunk_constants] at hv
          have hline : Added d1 G d2 := { Added.of_emitted hlast.emitted with }
          exact (hall.added.trans hline).refers hv

end TaskBasic
