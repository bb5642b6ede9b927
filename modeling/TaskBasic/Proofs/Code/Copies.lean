import TaskBasic.Proofs.Code.Anchors
import TaskBasic.Proofs.Code.Routine
import TaskBasic.Session

/-
Names in the copies of a `finally` block.

A `finally` block is compiled anew for every way out of its `try` statement.  In
each copy a name stands for the variable that it stands for where the statement
begins, with two exceptions: the variable of the catch block, which is still
declared in the copies for a `break`, `continue` or `return` out of the catch
block, and names that a `global` statement has listed since.

* `resolve` — the variable that a name stands for.
* `Copy.Agrees` — how the names at a place in a copy resolve.
* `finally_copies_agree` — they do so at every place in every copy.
-/

namespace TaskBasic

open Compile List

variable {name : String} {new : List Local} {params : List String} {d d' : Draft}

/-! ### Names -/

/-- The slot of the local that a name stands for; a name without one stands for the global of that
name. -/
def resolve (L : List Local) (G : List String) (name : String) : Option Nat :=
  if G.contains name then none else Scope.slot? { locals := L } name

theorem Scope.slot?_cons_of_ne {l : Local} (hl : l.name ≠ name) (L : List Local)
    (depth : Nat) : Scope.slot? ⟨l :: L, depth⟩ name = Scope.slot? ⟨L, depth⟩ name := by
  have hne : (l.name == name) = false := by simpa using hl
  simp only [Scope.slot?, List.findIdx?_cons, hne, Bool.false_eq_true, if_false, Option.map_map,
    length_cons]
  cases h : L.findIdx? fun l => l.name == name with
  | none => rfl
  | some i =>
    rw [Option.map_some, Option.map_some, Function.comp_apply]
    congr 1
    omega

theorem Scope.slot?_append (hnew : ∀ l ∈ new, l.name ≠ name) (L : List Local) (depth : Nat) :
    Scope.slot? ⟨new ++ L, depth⟩ name = Scope.slot? ⟨L, depth⟩ name := by
  induction new with
  | nil => rfl
  | cons l new ih =>
    obtain ⟨hl, hrest⟩ := forall_mem_cons.mp hnew
    rw [cons_append, Scope.slot?_cons_of_ne hl, ih hrest]

/-- A local that is declared hides older ones of its name. -/
theorem Scope.slot?_append_of_mem (hnew : ∃ l ∈ new, l.name = name) (L : List Local) (depth : Nat) :
    ∃ slot, Scope.slot? ⟨new ++ L, depth⟩ name = some slot ∧ L.length ≤ slot := by
  induction new with
  | nil =>
    obtain ⟨l, hl, -⟩ := hnew
    cases hl
  | cons l new ih =>
    by_cases hl : l.name = name
    · refine ⟨(new ++ L).length, ?_, ?_⟩
      · rw [cons_append, Scope.slot?, List.findIdx?_cons, if_pos (by simpa using hl)]
        simp
      · rw [length_append]
        exact Nat.le_add_left _ _
    · rw [cons_append, Scope.slot?_cons_of_ne hl]
      refine ih ?_
      obtain ⟨l', hl', hname⟩ := hnew
      rcases mem_cons.mp hl' with rfl | hl'
      · exact absurd hname hl
      · exact ⟨l', hl', hname⟩

section

variable {L : List Local} {G listed : List String} {name : String}

/-- Further locals and further globals, none of that name, do not matter. -/
theorem resolve_append (hnew : ∀ l ∈ new, l.name ≠ name)
    (hlisted : name ∉ listed) : resolve (new ++ L) (listed ++ G) name = resolve L G name := by
  have hcontains : (listed ++ G).contains name = G.contains name := by
    rw [Bool.eq_iff_iff, contains_iff_mem, contains_iff_mem, mem_append]
    exact ⟨fun h => h.resolve_left hlisted, .inr⟩
  rw [resolve, resolve, hcontains, Scope.slot?_append hnew]

/-- A further local of that name is what it stands for, unless it is listed as a global. -/
theorem resolve_append_of_mem (hnew : ∃ l ∈ new, l.name = name)
    (hG : name ∉ G) : ∃ slot, resolve (new ++ L) G name = some slot ∧ L.length ≤ slot := by
  rw [resolve, if_neg (by simpa using hG)]
  exact Scope.slot?_append_of_mem hnew L 0

end

/-! ### Places in copies -/

/-- The locals, the globals and the duties at a place. -/
def Landmark.names? : Landmark → Option (List Local × List String × List Duty)
  | rest _ L G _ D | value _ _ L G D => some (L, G, D)
  | _ => none

/-- Among the places is one in the copy `c`, with the locals `L` and the globals `G`. -/
def InCopy (ms : List Landmark) (c : Copy) (L : List Local) (G : List String) : Prop :=
  ∃ m ∈ ms, ∃ D, m.names? = some (L, G, D) ∧ .running c ∈ D

/-- How names resolve at a place in the copy `c`.  There are `own` locals of the copy, perhaps
`extra` ones that it has by its way in, and the locals of the `try` statement; `listed` are the
globals listed since.  A name of none of these is what it is at the statement, and a name of the
extra ones is no local of the statement. -/
def Copy.Agrees (c : Copy) (L : List Local) (G : List String) : Prop :=
  ∃ own extra listed, L = own ++ (extra ++ c.owner.locals) ∧ G = listed ++ c.owner.globals ∧
    (∀ l ∈ own, c.depth < l.depth) ∧ (∀ l ∈ extra, c.transfer.Hides c.owner l.name) ∧
    ∀ name, (∀ l ∈ own, l.name ≠ name) → name ∉ listed →
      ((∀ l ∈ extra, l.name ≠ name) →
        resolve L G name = resolve c.owner.locals c.owner.globals name) ∧
      ((∃ l ∈ extra, l.name = name) → name ∉ G →
        ∃ slot, resolve L G name = some slot ∧ c.owner.locals.length ≤ slot)

theorem Copy.Fits.agrees {c : Copy} {L : List Local} {G : List String} (h : c.Fits L G) :
    c.Agrees L G := by
  obtain ⟨listed, hG⟩ := h.owner.globals
  obtain ⟨extra, hextra, hhides⟩ := h.extra
  -- What the copy has declared is what `cut` takes away.
  have hL : L = L.takeWhile (fun l => decide (c.depth < l.depth)) ++ (extra ++ c.owner.locals) := by
    rw [← hextra, ← h.locals, cut, takeWhile_append_dropWhile]
  refine ⟨_, extra, listed, hL, hG.symm, ?_, hhides, ?_⟩
  · intro l hl
    have hdeeper := all_eq_true.mp all_takeWhile l hl
    exact of_decide_eq_true hdeeper
  · intro name hown hlisted
    refine ⟨fun hne => ?_, fun hname hG' => ?_⟩
    · rw [hL, ← hG, ← append_assoc]
      refine resolve_append ?_ hlisted
      exact forall_mem_append.mpr ⟨hown, hne⟩
    · rw [hL, ← append_assoc]
      refine resolve_append_of_mem ?_ hG'
      obtain ⟨l, hl, hlname⟩ := hname
      exact ⟨l, mem_append_right _ hl, hlname⟩

theorem Landmark.Anchored.agrees {m : Landmark} (h : m.Anchored) {L : List Local}
    {G : List String} {D : List Duty} (hm : m.names? = some (L, G, D)) {c : Copy}
    (hc : .running c ∈ D) : c.Agrees L G := by
  cases m with
  | rest _ _ _ _ _ | value _ _ _ _ _ =>
    cases hm
    exact Copy.Fits.agrees (h _ hc)
  | _ => cases hm

/-! ### Functions -/

/-- Nothing surrounds a function. -/
theorem Site.fits_empty {site : Site} (hopens : site.opens = []) (hduties : site.duties = [])
    (hhome : site.home = none) (bound : Nat) (L : List Local) (G : List String) :
    site.Fits bound L G := by
  refine ⟨?_, ?_, ?_, ?_, ?_⟩
  · rw [hopens]
    nofun
  · rw [hopens]
    exact .nil
  · rw [hduties]
    nofun
  · rw [hopens]
    nofun
  · rw [hhome]
    nofun

theorem depth_paramScope (params : List String) :
    ∀ l ∈ (paramScope params).locals, l.depth ≤ 1 := by
  intro l hl
  have hl : l ∈ (params.map fun name => (⟨name, 1⟩ : Local)).reverse := hl
  obtain ⟨name, -, rfl⟩ := mem_map.mp (mem_reverse.mp hl)
  exact Nat.le_refl 1

theorem opening_tame {body : List Stmt} {first : Fragment} {slot : Option UInt16}
    (h : (opening params body).run d.forFunction = .ok ((first, slot), d')) : d'.scope.Tame := by
  have hlength : (paramScope params).locals.length = params.length := by simp [paramScope]
  rcases run_opening_ok h with ⟨-, hle, -, -, rfl⟩ | ⟨-, hlt, -, -, rfl⟩
  · exact ⟨depth_paramScope params, hlength ▸ hle⟩
  · rw [← hlength] at hlt
    exact ⟨forall_mem_cons.mpr ⟨Nat.le_refl 1, depth_paramScope params⟩, hlt⟩

theorem Routine.anchored {T : List Stmt → Prop} {f : Function} {ss : List Stmt}
    {ms : List Landmark} (h : Routine T f ss ms) : ∀ m ∈ ms, m.Anchored := by
  cases h with
  | function hopen h _ =>
    exact h.anchored (p := .body _ _) ⟨opening_tame hopen, Site.fits_empty rfl rfl rfl _ _ _⟩
  | main h _ =>
    exact h.anchored (p := .body _ _) ⟨Scope.tame_empty, Site.fits_empty rfl rfl rfl _ _ _⟩
  | interactive h hv _ =>
    have hbody := h.anchored (p := .body _ _) ⟨Scope.tame_empty, Site.fits_empty rfl rfl rfl _ _ _⟩
    exact forall_mem_append.mpr ⟨hbody, hv.valueMarks.anchored nofun⟩

/-- The copies of `finally` blocks agree with their `try` statements about all names, except for
the variable of the catch block and for names that have been listed as globals since. -/
theorem finally_copies_agree {p : Program} {interactive : Bool} {base : Nat} {c : Compiled}
    (h : p.compile interactive base = .ok c) : ∀ f ∈ c.functions.push c.main,
      (∃ ss ms, Routine AnyBlock f ss ms) ∧ ∀ ss ms, Routine AnyBlock f ss ms →
        ∀ copy L G, InCopy ms copy L G → copy.Agrees L G := by
  intro f hf
  have htidy : Tidy AnyBlock (blockNested true p) := fun _ _ _ _ => trivial
  obtain ⟨⟨ss, ms, hroutine, -⟩, -⟩ :=
    compile_isRoutine h htidy (Q := fun _ => True) (fun _ _ => trivial) f hf
  refine ⟨⟨ss, ms, hroutine⟩, ?_⟩
  intro ss ms hroutine copy L G hplace
  obtain ⟨m, hm, D, hnames, hrunning⟩ := hplace
  exact (hroutine.anchored m hm).agrees hnames hrunning

/-- A loop that is left out of a catch block, whose variable has the name of a global. -/
def caughtAndLeft : Program :=
  [.mk 1 (.assign (.var "e") (.str "outer")),
    .mk 2 (.countLoop "i" (.int 1) (.int 1) none
      [.mk 3 (.tryBlock [.mk 4 (.raise (.str "inner"))] (some ("e", [.mk 6 .breakLoop]))
        (some [.mk 8 (.print [.var "e"])]))])]

theorem caughtAndLeft_agrees : ∃ c, caughtAndLeft.compile false 0 = .ok c ∧
    ∀ f ∈ c.functions.push c.main, (∃ ss ms, Routine AnyBlock f ss ms) ∧
      ∀ ss ms, Routine AnyBlock f ss ms → ∀ copy L G, InCopy ms copy L G → copy.Agrees L G := by
  have hok : (caughtAndLeft.compile false 0).toOption.isSome = true := by decide +kernel
  cases hc : caughtAndLeft.compile false 0 with
  | error e =>
    rw [hc] at hok
    cases hok
  | ok c => exact ⟨c, rfl, finally_copies_agree hc⟩

/-- In the copy on the way out of the catch block the name stands for the catch variable; it would
be the global in the copies on the other ways out. -/
theorem caughtAndLeft_prints_caught : (caughtAndLeft.compile false 0).toOption.map (fun c =>
    (Session.run 100 {} c 0).1.shared.console.events) = some [.printed "inner"] := by
  decide +kernel

end TaskBasic
