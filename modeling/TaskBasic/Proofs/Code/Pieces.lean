import TaskBasic.Proofs.Code.Routine
import TaskBasic.Proofs.Code.Targets

/-
What a fragment consists of.

`Only A N F` says that the fragment `F` has no other exits than those that `A`
allows and, if `N` holds, no instruction that imports a module.

* `Emits.only` — the exits of a phrase are those of the loop around it, and only
  `import` statements import.
-/

namespace TaskBasic

open Compile Fragment

variable {o target : Nat} {T : List Stmt → Prop}

/-- True for `import` statements. -/
def StmtKind.isImport : StmtKind → Bool
  | importModule _ => true
  | _ => false

@[simp] def Instr.isImport : Instr → Bool
  | importModule _ => true
  | _ => false

@[simp] def Step.Allowed (A : Exit → Prop) (N : Prop) : Step → Prop
  | instr i => N → i.isImport = false
  | exit e => A e

namespace Fragment

variable {A : Exit → Prop} {N : Prop} {F F' G : Fragment}

/-- All pieces are allowed. -/
def Only (A : Exit → Prop) (N : Prop) (F : Fragment) : Prop :=
  ∀ p ∈ F.toList, p.step.Allowed A N

@[simp] theorem only_empty : Only A N #[] := nofun

@[simp] theorem only_append : Only A N (F ++ G) ↔ Only A N F ∧ Only A N G := by
  rw [Only, Array.toList_append]
  exact List.forall_mem_append

@[simp] theorem only_piece (line : Nat) (s : Step) : Only A N #[⟨line, s⟩] ↔ s.Allowed A N :=
  List.forall_mem_singleton

@[simp] theorem only_push (line : Nat) (s : Step) :
    Only A N (F.push ⟨line, s⟩) ↔ Only A N F ∧ s.Allowed A N := by
  rw [Array.push_eq_append, only_append, only_piece]

@[simp] theorem only_packing (line n : Nat) : Only A N (packing line n) := by
  rw [packing]
  split <;> simp

@[simp] theorem only_pops (line n : Nat) : Only A N (pops line n) := by
  simp [Only, pops]

theorem only_resolves {e : Exit} (h : Resolves e o target F F')
    (hF : Only (fun x => x = e ∨ A x) N F) : Only A N F' := by
  intro p hp
  rw [h.1] at hp
  rcases mem_retarget hp with ⟨hmem, hne⟩ | ⟨line, n, rfl⟩
  · have hstep := hF p hmem
    cases hs : p.step with
    | instr i =>
      rw [hs] at hstep
      exact hstep
    | exit x =>
      rw [hs] at hstep hne
      exact hstep.resolve_left fun hx => hne (hx ▸ rfl)
  · exact fun _ => rfl

theorem Only.resolved (h : Only (fun _ => False) N F) : Resolved F.toList := by
  intro p hp e he
  have hstep := h p hp
  rw [he] at hstep
  exact hstep

end Fragment

section

variable {D : List Duty} {A : Exit → Prop} {N : Prop} {site : Site} {d d' : Draft} {F : Fragment}
  {ms : List Landmark}

theorem Forward.only {make : UInt16 → Instr} (h : Forward make o target F)
    (hmake : ∀ n, (make n).isImport = false := by exact fun _ => rfl) : Only A N F := by
  obtain ⟨line, n, rfl, _⟩ := h
  exact (only_piece _ _).mpr fun _ => hmake n

theorem Backward.only (h : Backward o target F) : Only A N F := by
  obtain ⟨line, n, rfl, _⟩ := h
  exact (only_piece _ _).mpr fun _ => rfl

theorem leave_only (h : Compile.leave.run d = .ok (F, d')) : Only A N F := by
  obtain ⟨rfl, _⟩ := run_leave_ok.mp h
  exact only_pops _ _

theorem discardAbove_only {depth : Nat} (h : (discardAbove depth).run d = .ok (F, d')) :
    Only A N F := by
  obtain ⟨rfl, _⟩ := run_discardAbove_ok.mp h
  exact only_pops _ _

theorem Pushes.only {phrase : ExprPhrase} (h : Pushes D phrase d F d' ms) : Only A N F := by
  induction h with
  | and _ hskip _ hout _ iha ihb | or _ hskip _ hout _ iha ihb =>
    simp [iha, ihb, hskip.only, hout.only]
  | @byName spawning _ _ _ _ _ _ _ _ _ _ _ _ _ ih => cases spawning <;> simp [namedCall, ih]
  | @byValue spawning _ _ _ _ _ _ _ _ _ _ _ _ _ ihf iha =>
    cases spawning <;> simp [directCall, ihf, iha]
  | _ => simp [*]

theorem Yields.only {source : Source} (h : Yields D source d F d' ms) : Only A N F := by
  cases h with
  | expr h => exact h.only
  | prompt h | newArray _ h => simp [h.only]
  | _ => simp [Only]

theorem Stores.only {target : Target} {source : Source} (h : Stores site target source d F d' ms) :
    Only A N F := by
  cases h with
  | toLocal h _ | toGlobal h _ _ _ => simp [h.only]
  | toNew h _ _ _ => exact h.only
  | toElement ho hk _ hv => simp [ho.only, hk.only, hv.only]

theorem StoresAll.only {stores : List (Target × Source)} (h : StoresAll site stores d F d' ms) :
    Only A N F := by
  induction h with
  | nil => exact only_empty
  | cons h _ ih => exact only_append.mpr ⟨h.only, ih⟩

theorem Ensures.only {name : String} (h : Ensures site name d F d') : Only A N F := by
  cases h <;> simp

theorem Tests.only {subject : UInt16} {next : Nat} {values : List Expr}
    (h : Tests D subject next values d F d' ms) : Only A N F := by
  induction h with
  | nil hmiss => exact hmiss.only
  | cons hv hhit _ ih => simp [hv.only, hhit.only, ih]

/-- Of the statements without blocks, only `import` imports. -/
theorem Acts.only {k : StmtKind} (h : Acts site k d F d' ms) (hk : N → k.isImport = false) :
    Only A N F := by
  cases h with
  | eval h | print _ h | spawn h | raise h | debug h _ => simp [h.only]
  | assign h | input h | dim h | read h => exact h.only
  | importModule =>
    have hnot : ¬N := fun hN => nomatch hk hN
    simp [Only, hnot]
  | _ => simp [Only]

/-- The exits that a statement may have: those of the loop around it. -/
def Site.MayExit (site : Site) (e : Exit) : Prop :=
  ∃ loop, site.loop = some loop ∧ (e = .again → loop.again? = none)

theorem Emits.only {p : Phrase} (h : Emits T p d F d' ms)
    (hp : p.Has fun k => N → k.isImport = false) : Only p.site.MayExit N F := by
  have hinstr : ∀ {A : Exit → Prop} line {i : Instr},
      i.isImport = false → Only A N #[⟨line, .instr i⟩] :=
    fun _ _ hi => (only_piece _ _).mpr fun _ => hi
  -- both exits of a loop are resolved
  have hloop : ∀ {A B : Exit → Prop} {o o1 o2 o3 F F1 F2}, Resolves .again o o1 F F1 →
      Resolves .leave o2 o3 F1 F2 → Only B N F → Only A N F2 := by
    intro A B o o1 o2 o3 F F1 F2 hagain hleave hF
    refine only_resolves hleave (only_resolves hagain fun q hq => ?_)
    have hstep := hF q hq
    cases hs : q.step with
    | instr i =>
      rw [hs] at hstep
      exact hstep
    | exit e =>
      cases e with
      | leave => exact .inr (.inl rfl)
      | again => exact .inl rfl
  induction h with
  | stmt _ ih => exact ih hp.stmt
  | simple h => exact h.only hp.self
  | cons _ _ ih ihs => exact only_append.mpr ⟨ih hp.cons.1, ihs hp.cons.2⟩
  | block _ hdrop ih => exact only_append.mpr ⟨ih hp, leave_only hdrop⟩
  | ifChain _ ih => exact ih hp.ifChain
  | branchesElse _ ih | armsElse _ ih => exact ih hp
  | branchesLast ht hskip _ ih =>
    simp only [only_append]
    exact ⟨⟨ht.only, hskip.only⟩, ih hp.branches.1⟩
  | branchesCons ht hskip _ hout _ ih ihs =>
    simp only [only_append]
    exact ⟨⟨⟨⟨ht.only, hskip.only⟩, ih hp.branches.1⟩, hout.only⟩, ihs hp.branches.2⟩
  | whileLoop ht hout _ hres hback ih =>
    simp only [only_append]
    refine ⟨⟨⟨ht.only, hout.only⟩, only_resolves hres fun q hq => ?_⟩, hback.only⟩
    have hstep := ih (hp.body rfl) q hq
    cases hs : q.step with
    | instr i =>
      rw [hs] at hstep
      exact hstep
    | exit e =>
      rw [hs] at hstep
      obtain ⟨_, ⟨⟩, hagain⟩ := hstep
      cases e with
      | leave => exact .inl rfl
      | again => exact absurd (hagain rfl) nofun
  | countLoop hfirst hbound _ hstride _ htest hout _ hagain hleave hnext hback hdrop ih =>
    simp only [only_append]
    exact ⟨⟨⟨⟨⟨⟨⟨⟨hfirst.only, hbound.only⟩, hstride.only⟩, htest.only⟩, hout.only⟩,
      hloop hagain hleave (ih (hp.body rfl))⟩, hnext.only⟩, hback.only⟩, leave_only hdrop⟩
  | eachLoop hplace hall _ _ _ hout hbind _ hagain hleave _ hback hdrop ih =>
    simp only [only_append]
    refine ⟨⟨⟨⟨⟨⟨⟨⟨⟨hplace.only, hall.only⟩, hinstr _ rfl⟩, ?_⟩, hout.only⟩, hbind.only⟩,
      hloop hagain hleave (ih (hp.body rfl))⟩, ?_⟩, hback.only⟩, leave_only hdrop⟩
    · simp [Only, eachTesting]
    · simp [Only, eachCounting]
  | switchBlock hv _ _ hdrop ih =>
    simp only [only_append]
    exact ⟨⟨hv.only, ih (hp.switchBlock _)⟩, leave_only hdrop⟩
  | armsCons ht _ hout _ ih ihs =>
    simp only [only_append]
    exact ⟨⟨⟨ht.only, ih hp.arms.1⟩, hout.only⟩, ihs hp.arms.2⟩
  | function => simp [Only, binding]
  | leavingPlain hopens _ _ hdrop _ ih =>
    simp only [only_append]
    exact ⟨⟨discardAbove_only hdrop, hinstr _ rfl⟩, ih (hp.leaving hopens _)⟩
  | leavingCleanup _ hopens _ hcleanup hdrop _ _ ih ihs =>
    simp only [only_append]
    exact ⟨⟨⟨discardAbove_only hdrop, hinstr _ rfl⟩, ih (hp.leavingCleanup hopens hcleanup _ _)⟩,
      ihs (hp.leaving hopens _)⟩
  | unwind _ hdrop ih => exact only_append.mpr ⟨ih hp, discardAbove_only hdrop⟩
  | breakLoop hsite _ ih =>
    refine only_append.mpr ⟨ih (hp.unwind _ _ _), ?_⟩
    simp [Phrase.site, Site.MayExit, hsite]
  | continueOn hsite hagain _ ih =>
    refine only_append.mpr ⟨ih (hp.unwind _ _ _), ?_⟩
    simp [Phrase.site, Site.MayExit, hsite, hagain]
  | continueBack _ _ _ hback ih =>
    obtain ⟨_, rfl, _⟩ := run_loopTo_ok.mp hback
    exact only_append.mpr ⟨ih (hp.unwind _ _ _), hinstr _ rfl⟩
  | retPlain _ _ hv => exact only_append.mpr ⟨hv.only, hinstr _ rfl⟩
  | retAcross _ _ _ hv _ ih =>
    simp only [only_append]
    exact ⟨⟨⟨⟨⟨hv.only, hinstr _ rfl⟩, hinstr _ rfl⟩, ih (hp.unwindRet _ _ _ _)⟩, hinstr _ rfl⟩,
      hinstr _ rfl⟩
  | tryPlain hbegin _ hskip _ ih ihs =>
    simp only [only_append]
    exact ⟨⟨⟨⟨hbegin.only, ih (hp.tryBody _ _ _ _ _)⟩, hinstr _ rfl⟩, hskip.only⟩,
      ihs (hp.tryHandler _ _)⟩
  | tryCleanup _ hbegin _ hskip _ _ ih ihs ihf =>
    simp only [only_append]
    exact ⟨⟨⟨⟨⟨hbegin.only, ih (hp.tryBody _ _ _ _ _)⟩, hinstr _ rfl⟩, hskip.only⟩,
      ihs (hp.tryHandler _ _)⟩, ihf (hp.tryFinal _ _)⟩
  | handlerNone => exact hinstr _ rfl
  | handlerCatch _ _ hdrop ih => exact only_append.mpr ⟨ih hp.handlerBody, leave_only hdrop⟩
  | handlerFinally _ _ _ ih =>
    simp only [only_append]
    exact ⟨⟨ih (hp.handlerFinal _ _), hinstr _ rfl⟩, hinstr _ rfl⟩
  | handlerBoth _ _ hbegin _ hdrop hskip _ _ _ ih ihf =>
    simp only [only_append]
    exact ⟨⟨⟨⟨⟨⟨⟨hbegin.only, ih (hp.handlerGuarded _ _ _ _ _)⟩, hinstr _ rfl⟩, leave_only hdrop⟩,
      hskip.only⟩, ihf (hp.handlerFinal _ _)⟩, hinstr _ rfl⟩, hinstr _ rfl⟩
  | _ => exact only_empty

/-- Outside of all loops, the code of statements has no exits. -/
theorem Emits.only_body {ss : List Stmt} (h : Emits T (.body site ss) d F d' ms)
    (hp : (Phrase.body site ss).Has fun k => N → k.isImport = false) (hsite : site.loop = none) :
    Only (fun _ => False) N F := by
  intro q hq
  have hstep := h.only hp q hq
  cases hs : q.step with
  | instr i =>
    rw [hs] at hstep
    exact hstep
  | exit e =>
    rw [hs] at hstep
    obtain ⟨_, hloop, _⟩ := hstep
    rw [Phrase.site, hsite] at hloop
    cases hloop

theorem Emits.resolved_body {ss : List Stmt} (h : Emits T (.body site ss) d F d' ms)
    (hsite : site.loop = none) : Resolved F.toList :=
  (h.only_body (N := False) (fun _ _ => nofun) hsite).resolved

theorem Pushes.resolved {phrase : ExprPhrase} (h : Pushes D phrase d F d' ms) : Resolved F.toList :=
  (h.only (N := False)).resolved

end

end TaskBasic
