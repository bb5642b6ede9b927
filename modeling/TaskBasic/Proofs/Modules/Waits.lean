import Mathlib.Logic.Relation
import TaskBasic.ModuleCache

/-
Which module waits for which.

The imports that a cache has recorded are the edges of a graph on paths; paths
with the same components are the same module.

* `closesCycle_decides` — the search for a cycle ends, and finds one if, and only
  if, there is a way from the target to the importer.
* `Acyclic.addImport` — an import from whose target no way leads back to the
  importer closes no cycle.
-/

namespace TaskBasic

open Relation List

namespace Path

variable {a b c : String}

theorem same_iff : same a b = true ↔ components a = components b :=
  beq_iff_eq

theorem same_refl (a : String) : same a a = true :=
  same_iff.mpr rfl

theorem same_symm (h : same a b = true) : same b a = true :=
  same_iff.mpr (same_iff.mp h).symm

theorem same_trans (h : same a b = true) (h' : same b c = true) : same a c = true :=
  same_iff.mpr ((same_iff.mp h).trans (same_iff.mp h'))

/-- Paths that are the same are the same as the same paths. -/
theorem same_congr (h : same a b = true) (c : String) : same c a = same c b := by
  rw [same, same, same_iff.mp h]

end Path

/-! ### Entries by path -/

section

variable {α : Type} {entries : List (String × α)} {a b : String}

/-- What is held for a path. -/
def held? (entries : List (String × α)) (a : String) : Option α :=
  (entries.find? fun e => Path.same e.1 a).map (·.2)

theorem held?_congr (h : Path.same a b = true) : held? entries a = held? entries b := by
  simp only [held?, Path.same_congr h]

theorem held?_modify (f : α → α) :
    held? (entries.map fun e => if Path.same e.1 a then (e.1, f e.2) else e) b =
      if Path.same a b then (held? entries b).map f else held? entries b := by
  have hfind : ((entries.map fun e => if Path.same e.1 a then (e.1, f e.2) else e).find?
      fun e => Path.same e.1 b) = (entries.find? fun e => Path.same e.1 b).map
        fun e => if Path.same e.1 a then (e.1, f e.2) else e := by
    rw [List.find?_map]
    congr 2
    funext e
    dsimp only [Function.comp]
    split <;> rfl
  rw [held?, hfind, held?]
  cases hfound : entries.find? fun e => Path.same e.1 b with
  | none =>
    simp only [Option.map_none]
    split <;> rfl
  | some e =>
    have hkey : Path.same e.1 b = true := by
      have h := List.find?_some hfound
      exact h
    have hsame : Path.same e.1 a = Path.same a b := by
      rw [Bool.eq_iff_iff]
      exact ⟨fun h => Path.same_trans (Path.same_symm h) hkey,
        fun h => Path.same_trans hkey (Path.same_symm h)⟩
    simp only [Option.map_some, hsame]
    split <;> rfl

theorem held?_append (hnew : held? entries a = none) (v : α) :
    held? (entries ++ [(a, v)]) b = if Path.same a b then some v else held? entries b := by
  rw [held?, List.find?_append, List.find?_singleton]
  split
  next hsame =>
    rw [held?_congr hsame, held?, Option.map_eq_none_iff] at hnew
    rw [hnew]
    rfl
  next =>
    rw [Option.or_none]
    rfl

theorem held?_remove : held? (entries.filter fun e => !Path.same e.1 a) b =
    if Path.same a b then none else held? entries b := by
  rw [held?, List.find?_filter]
  split
  next hsame =>
    rw [Option.map_eq_none_iff, find?_eq_none]
    intro e _ he
    rw [Path.same_congr hsame] at he
    simp at he
  next hother =>
    rw [held?]
    congr 2
    funext e
    cases hb : Path.same e.1 b with
    | false => simp
    | true =>
      have ha : Path.same e.1 a = false := by
        refine Bool.eq_false_iff.mpr fun ha => hother ?_
        exact Path.same_trans (Path.same_symm ha) hb
      simp [ha]

end

namespace ModuleCache

variable {seen : List String} {goal : String}

variable {c : ModuleCache} {a a' b b' i t : String}

/-! ### The states of the modules -/

theorem get?_eq_held? (c : ModuleCache) (a : String) : c.get? a = held? c.modules a := rfl

theorem get?_congr (h : Path.same a b = true) : c.get? a = c.get? b :=
  held?_congr h

theorem get?_put (state : ModuleState) :
    (c.put a state).get? b = if Path.same a b then some state else c.get? b := by
  rw [put]
  split
  next hsome =>
    show held? (c.modules.map fun e => if Path.same e.1 a then (e.1, state) else e) b = _
    rw [held?_modify fun _ => state]
    split
    next hsame =>
      rw [get?_congr hsame, get?_eq_held?] at hsome
      obtain ⟨s, hs⟩ := Option.isSome_iff_exists.mp hsome
      rw [hs]
      rfl
    next => rfl
  next hnone => exact held?_append (Option.not_isSome_iff_eq_none.mp hnone) state

theorem get?_begin (p : PromiseRef) :
    (c.begin a p).get? b = if Path.same a b then some (.loading p) else c.get? b :=
  get?_put _

theorem get?_finish (globals : DictRef) :
    (c.finish a globals).get? b = if Path.same a b then some (.loaded globals) else c.get? b :=
  get?_put _

theorem get?_erase : (c.erase a).get? b = if Path.same a b then none else c.get? b :=
  held?_remove

theorem get?_addImport : (c.addImport i t).get? b = c.get? b := by
  rw [addImport]
  split <;> rfl

/-! ### The recorded imports -/

/-- The loading module `a` waits for `b`. -/
def Waits (c : ModuleCache) (a b : String) : Prop :=
  ∃ t ∈ c.importsOf a, Path.same t b = true

/-- One can get from `a` to `b` along recorded imports. -/
def Leads (c : ModuleCache) (a b : String) : Prop :=
  Path.same a b = true ∨ TransGen c.Waits a b

/-- No module waits for itself, directly or through others. -/
def Acyclic (c : ModuleCache) : Prop :=
  ∀ a, ¬ TransGen c.Waits a a

theorem importsOf_eq_held? (c : ModuleCache) (a : String) :
    c.importsOf a = (held? c.imports a).getD [] := rfl

theorem importsOf_congr (h : Path.same a b = true) : c.importsOf a = c.importsOf b := by
  rw [importsOf_eq_held?, importsOf_eq_held?, held?_congr h]

theorem Waits.congr (h : c.Waits a b) (ha : Path.same a a' = true) (hb : Path.same b b' = true) :
    c.Waits a' b' := by
  obtain ⟨t, ht, hsame⟩ := h
  exact ⟨t, importsOf_congr ha ▸ ht, Path.same_trans hsame hb⟩

theorem transGen_congr_left (h : TransGen c.Waits a b) (ha : Path.same a a' = true) :
    TransGen c.Waits a' b := by
  obtain ⟨m, hfirst, hrest⟩ := TransGen.head'_iff.mp h
  exact TransGen.head' (hfirst.congr ha (Path.same_refl m)) hrest

theorem transGen_congr_right (h : TransGen c.Waits a b) (hb : Path.same b b' = true) :
    TransGen c.Waits a b' := by
  obtain ⟨m, hrest, hlast⟩ := TransGen.tail'_iff.mp h
  exact TransGen.tail' hrest (hlast.congr (Path.same_refl m) hb)

theorem Leads.trans {d : String} (h : c.Leads a b) (h' : c.Leads b d) : c.Leads a d := by
  rcases h with h | h
  · rcases h' with h' | h'
    · exact .inl (Path.same_trans h h')
    · exact .inr (transGen_congr_left h' (Path.same_symm h))
  · rcases h' with h' | h'
    · exact .inr (transGen_congr_right h h')
    · exact .inr (h.trans h')

theorem Waits.leads (h : c.Waits a b) : c.Leads a b :=
  .inr (.single h)

/-- The imports of a module that is done are forgotten, the others are kept. -/
theorem waits_forgetImports :
    (c.forgetImports i).Waits a b ↔ Path.same i a = false ∧ c.Waits a b := by
  have himports :
      (c.forgetImports i).importsOf a = if Path.same i a then [] else c.importsOf a := by
    show (held? (c.imports.filter fun e => !Path.same e.1 i) a).getD [] = _
    rw [held?_remove]
    split <;> rfl
  rw [Waits, himports]
  cases hsame : Path.same i a with
  | false => simp [Waits]
  | true => simp

theorem waits_put (state : ModuleState) : (c.put i state).Waits a b ↔ c.Waits a b := by
  have himports : (c.put i state).importsOf a = c.importsOf a := by
    rw [put]
    split <;> rfl
  rw [Waits, himports]
  rfl

theorem waits_begin (p : PromiseRef) : (c.begin i p).Waits a b ↔ c.Waits a b :=
  waits_put _

theorem waits_finish (globals : DictRef) :
    (c.finish i globals).Waits a b ↔ Path.same i a = false ∧ c.Waits a b := by
  rw [finish, waits_put, waits_forgetImports]

theorem waits_erase : (c.erase i).Waits a b ↔ Path.same i a = false ∧ c.Waits a b :=
  waits_forgetImports

theorem importsOf_addImport : (c.addImport i t).importsOf a =
    if Path.same i a && !(c.importsOf a).any (Path.same · t) then c.importsOf a ++ [t]
    else c.importsOf a := by
  rw [addImport]
  split
  next hany =>
    let f (targets : List String) := if targets.any (Path.same · t) then targets else targets ++ [t]
    have hentries : (c.imports.map fun e =>
        if Path.same e.1 i && !e.2.any (Path.same · t) then (e.1, e.2 ++ [t]) else (e.1, e.2)) =
        c.imports.map fun e => if Path.same e.1 i then (e.1, f e.2) else e := by
      refine map_congr_left fun e _ => ?_
      dsimp only [f]
      cases Path.same e.1 i <;> cases e.2.any (Path.same · t) <;> rfl
    show (held? (c.imports.map fun e =>
      if Path.same e.1 i && !e.2.any (Path.same · t) then (e.1, e.2 ++ [t]) else (e.1, e.2)) a).getD
        [] = _
    rw [hentries, held?_modify f, importsOf_eq_held?]
    cases hsame : Path.same i a with
    | false => rfl
    | true =>
      -- the importer has an entry
      obtain ⟨e, he, hkey⟩ := any_eq_true.mp hany
      cases hfound : held? c.imports a with
      | none =>
        rw [held?, Option.map_eq_none_iff, find?_eq_none] at hfound
        exact absurd (Path.same_trans hkey hsame) (hfound e he)
      | some targets =>
        simp only [if_true, Option.map_some, Option.getD_some, Bool.true_and, f]
        cases targets.any (Path.same · t) <;> rfl
  next hnone =>
    have hnew : held? c.imports i = none := by
      rw [held?, Option.map_eq_none_iff, find?_eq_none]
      exact fun e he hkey => hnone (any_eq_true.mpr ⟨e, he, hkey⟩)
    show (held? (c.imports ++ [(i, [t])]) a).getD [] = _
    rw [held?_append hnew, importsOf_eq_held?]
    cases hsame : Path.same i a with
    | false => rfl
    | true =>
      rw [← held?_congr hsame, hnew]
      rfl

theorem waits_addImport : (c.addImport i t).Waits a b ↔
    c.Waits a b ∨ Path.same i a = true ∧ Path.same t b = true := by
  rw [Waits, importsOf_addImport]
  cases hsame : Path.same i a with
  | false => simp [Waits]
  | true =>
    rw [Bool.true_and]
    cases hany : (c.importsOf a).any (Path.same · t) with
    | false => simp [Waits, or_and_right, exists_or]
    | true =>
      -- the edge is there already
      obtain ⟨t', ht', ht⟩ := any_eq_true.mp hany
      refine ⟨.inl, ?_⟩
      rintro (h | ⟨-, h⟩)
      · exact h
      · exact ⟨t', ht', Path.same_trans ht h⟩

/-! ### Cycles -/

/-- A way along the imports, one more included, is a way without it or leads through it. -/
theorem transGen_addImport (h : TransGen (c.addImport i t).Waits a b) :
    TransGen c.Waits a b ∨ c.Leads a i ∧ c.Leads t b := by
  induction h with
  | single h =>
    rcases waits_addImport.mp h with h | ⟨ha, hb⟩
    · exact .inl (.single h)
    · exact .inr ⟨.inl (Path.same_symm ha), .inl hb⟩
  | tail _ hlast ih =>
    rcases waits_addImport.mp hlast with hlast | ⟨hm, hb⟩
    · rcases ih with ih | ⟨hi, ht⟩
      · exact .inl (ih.tail hlast)
      · exact .inr ⟨hi, ht.trans hlast.leads⟩
    · rcases ih with ih | ⟨hi, -⟩
      · exact .inr ⟨.inr (transGen_congr_right ih (Path.same_symm hm)), .inl hb⟩
      · exact .inr ⟨hi, .inl hb⟩

/-- An import from whose target no way leads back to the importer closes no cycle. -/
theorem Acyclic.addImport (h : c.Acyclic) (hback : ¬ c.Leads t i) : (c.addImport i t).Acyclic := by
  intro a hcycle
  rcases transGen_addImport hcycle with hcycle | ⟨hi, ht⟩
  · exact h a hcycle
  · exact hback (ht.trans hi)

/-- Fewer waits have fewer cycles. -/
theorem Acyclic.mono {c' : ModuleCache} (h : c.Acyclic)
    (hwaits : ∀ a b, c'.Waits a b → c.Waits a b) : c'.Acyclic :=
  fun a hcycle => h a (TransGen.mono hwaits a a hcycle)

/-- From a module that waits for nothing one gets nowhere. -/
theorem leads_of_no_waits (h : ∀ b, ¬ c.Waits a b) (hleads : c.Leads a b) :
    Path.same a b = true := by
  rcases hleads with hsame | hway
  · exact hsame
  · obtain ⟨m, hfirst, -⟩ := TransGen.head'_iff.mp hway
    exact absurd hfirst (h m)

/-! ### The search for a cycle -/

/-- A way from `a` to `b` that goes on from none of the paths in `seen`. -/
inductive Avoids (c : ModuleCache) (seen : List String) : String → String → Prop
  | here {a b : String} : Path.same a b = true → Avoids c seen a b
  | step {a t b : String} : seen.any (Path.same a) = false → t ∈ c.importsOf a → Avoids c seen t b →
    Avoids c seen a b

theorem avoids_nil_iff : c.Avoids [] a b ↔ c.Leads a b := by
  constructor
  · intro h
    induction h with
    | here hsame => exact .inl hsame
    | step _ ht _ ih => exact Leads.trans (Waits.leads ⟨_, ht, Path.same_refl _⟩) ih
  · rintro (hsame | hway)
    · exact .here hsame
    · induction hway using TransGen.head_induction_on with
      | single h =>
        obtain ⟨t, ht, hsame⟩ := h
        exact .step rfl ht (.here hsame)
      | head h _ ih =>
        -- the way on from the target starts from the path as it was recorded
        obtain ⟨t, ht, hsame⟩ := h
        refine .step rfl ht ?_
        cases ih with
        | here h => exact .here (Path.same_trans hsame h)
        | step hseen ht' hrest =>
          refine .step rfl ?_ hrest
          rw [importsOf_congr hsame]
          exact ht'

/-- Of the ways that avoid what has been seen, those that go on from `path` do so last. -/
theorem Avoids.cut (path : String) (h : c.Avoids seen a goal) :
    c.Avoids (path :: seen) a goal ∨ ∃ t ∈ c.importsOf path, c.Avoids (path :: seen) t goal := by
  induction h with
  | here hsame => exact .inl (.here hsame)
  | @step a t b hseen ht _ ih =>
    rcases ih with ih | ih
    · by_cases hpath : Path.same a path = true
      · exact .inr ⟨t, importsOf_congr hpath ▸ ht, ih⟩
      · refine .inl (.step ?_ ht ih)
        rw [any_cons, hseen, Bool.eq_false_iff.mpr hpath]
        rfl
    · exact .inr ih

theorem Avoids.weaken {path : String} (h : c.Avoids (path :: seen) a goal) :
    c.Avoids seen a goal := by
  induction h with
  | here hsame => exact .here hsame
  | step hseen ht _ ih =>
    rw [any_cons, Bool.or_eq_false_iff] at hseen
    exact .step hseen.2 ht ih

/-- The number of recorded imports of the modules that have not been seen. -/
def unseen (seen : List String) : List (String × List String) → Nat
  | [] => 0
  | (p, targets) :: rest =>
    (if seen.any (Path.same p) then 0 else targets.length) + unseen seen rest

theorem unseen_mono (seen : List String) (path : String) (imports : List (String × List String)) :
    unseen (path :: seen) imports ≤ unseen seen imports := by
  induction imports with
  | nil => exact Nat.le_refl _
  | cons e rest ih =>
    by_cases hseen : seen.any (Path.same e.1) = true
    · simp only [unseen, any_cons, hseen, Bool.or_true, if_true]
      omega
    · by_cases hsame : Path.same e.1 path = true <;> simp [unseen, hseen, hsame] <;> omega

/-- The imports of a module that is looked at are not looked at again. -/
theorem unseen_cons {path : String} (hpath : seen.any (Path.same path) = false)
    (imports : List (String × List String)) :
    unseen (path :: seen) imports + ((held? imports path).getD []).length ≤
      unseen seen imports := by
  induction imports with
  | nil => exact Nat.le_refl _
  | cons e rest ih =>
    have hentry : held? (e :: rest) path =
        if Path.same e.1 path then some e.2 else held? rest path := by
      rw [held?, find?_cons]
      cases Path.same e.1 path <;> rfl
    rw [hentry]
    by_cases hsame : Path.same e.1 path = true
    · have hseen : seen.any (Path.same e.1) = false := by
        rw [← hpath]
        congr 1
        funext s
        rw [Path.same, Path.same, Path.same_iff.mp hsame]
      have hrest := unseen_mono seen path rest
      simp only [unseen, any_cons, hsame, hseen, Bool.true_or, if_true, Option.getD_some,
        Bool.false_eq_true, if_false]
      omega
    · simp only [unseen, any_cons, hsame, Bool.false_or, Bool.false_eq_true, if_false]
      omega

theorem unseen_nil (imports : List (String × List String)) :
    unseen [] imports = (imports.flatMap (·.2)).length := by
  induction imports with
  | nil => rfl
  | cons e rest ih => simp [unseen, ih]

/-- One round of a search for `goal`, which takes the pending paths in any order: one that is not
the goal is taken, and what it has imported becomes pending, unless it has been seen. -/
inductive Looks (c : ModuleCache) (goal : String) :
    (before after : List String × List String) → Prop
  | passes {path : String} {pending rest seen : List String} : pending.Perm (path :: rest) →
    Path.same path goal = false → seen.any (Path.same path) = true →
    Looks c goal (pending, seen) (rest, seen)
  | follows {path : String} {pending rest seen : List String} : pending.Perm (path :: rest) →
    Path.same path goal = false → seen.any (Path.same path) = false →
    Looks c goal (pending, seen) (c.importsOf path ++ rest, path :: seen)

/-- The goal can be reached from a pending path, not going on from those that have been seen. -/
def Finds (c : ModuleCache) (goal : String) (x : List String × List String) : Prop :=
  ∃ a ∈ x.1, c.Avoids x.2 a goal

/-- A round leaves fewer paths to look at. -/
theorem Looks.less {x y : List String × List String} (h : c.Looks goal x y) :
    y.1.length + unseen y.2 c.imports < x.1.length + unseen x.2 c.imports := by
  cases h with
  | passes hperm =>
    have hlength := hperm.length_eq
    rw [length_cons] at hlength
    dsimp only
    omega
  | follows hperm _ hnew =>
    have hlength := hperm.length_eq
    have hless := unseen_cons hnew c.imports
    rw [length_cons] at hlength
    rw [← importsOf_eq_held?] at hless
    simp only [length_append]
    omega

theorem finds_perm {pending pending' : List String}
    (h : pending.Perm pending') : c.Finds goal (pending, seen) ↔ c.Finds goal (pending', seen) := by
  simp only [Finds, h.mem_iff]

/-- A round neither loses a way to the goal nor makes one up. -/
theorem Looks.finds_iff {x y : List String × List String} (h : c.Looks goal x y) :
    c.Finds goal x ↔ c.Finds goal y := by
  cases h with
  | @passes path pending rest seen hperm hgoal hseen =>
    rw [finds_perm hperm]
    constructor
    · rintro ⟨a, ha, hway⟩
      rcases mem_cons.mp ha with rfl | ha
      · -- no way goes on from a path that has been seen
        cases hway with
        | here h => cases hgoal.symm.trans h
        | step hnew => cases hseen.symm.trans hnew
      · exact ⟨a, ha, hway⟩
    · rintro ⟨a, ha, hway⟩
      exact ⟨a, mem_cons_of_mem _ ha, hway⟩
  | @follows path pending rest seen hperm hgoal hseen =>
    rw [finds_perm hperm]
    constructor
    · rintro ⟨a, ha, hway⟩
      rcases hway.cut path with hway | ⟨t, ht, hway⟩
      · rcases mem_cons.mp ha with rfl | ha
        · cases hway with
          | here h => cases hgoal.symm.trans h
          | step hnew => simp [Path.same_refl] at hnew
        · exact ⟨a, mem_append_right _ ha, hway⟩
      · exact ⟨t, mem_append_left _ ht, hway⟩
    · rintro ⟨a, ha, hway⟩
      rcases mem_append.mp ha with ha | ha
      · exact ⟨path, mem_cons_self, .step hseen ha hway.weaken⟩
      · exact ⟨a, mem_cons_of_mem _ ha, hway.weaken⟩

theorem finds_iff_of_looks {x y : List String × List String}
    (h : ReflTransGen (c.Looks goal) x y) : c.Finds goal x ↔ c.Finds goal y := by
  induction h with
  | refl => rfl
  | tail _ hlook ih => exact ih.trans hlook.finds_iff

/-- The search finds what can be reached, if it may look at enough paths. -/
theorem reaches_iff {fuel : Nat} {pending : List String}
    (hfuel : pending.length + unseen seen c.imports < fuel) :
    c.reaches goal fuel pending seen = true ↔ c.Finds goal (pending, seen) := by
  induction fuel generalizing pending seen with
  | zero => omega
  | succ fuel ih =>
    cases pending with
    | nil => simp [reaches, Finds]
    | cons path pending =>
      have hround {y : List String × List String} (hlook : c.Looks goal (path :: pending, seen) y) :
          c.reaches goal fuel y.1 y.2 = true ↔ c.Finds goal (path :: pending, seen) := by
        have hless := hlook.less
        dsimp only at hless
        rw [ih (by omega), hlook.finds_iff]
      rw [reaches]
      split
      next hgoal => exact iff_of_true rfl ⟨path, mem_cons_self, .here hgoal⟩
      next hgoal =>
        rw [Bool.not_eq_true] at hgoal
        split
        next hseen => exact hround (.passes (.refl _) hgoal hseen)
        next hseen => exact hround (.follows (.refl _) hgoal (Bool.eq_false_iff.mpr hseen))

theorem finds_start : c.Finds i ([t], []) ↔ c.Leads t i := by
  simp [Finds, avoids_nil_iff]

/-- A cycle would be closed if, and only if, there is a way from the target to the importer. -/
theorem closesCycle_iff : c.closesCycle i t = true ↔ c.Leads t i := by
  have hfuel : [t].length + unseen [] c.imports < c.importCount + 2 := by
    rw [unseen_nil, importCount, List.length_singleton]
    omega
  rw [closesCycle, reaches_iff hfuel, finds_start]

/-- A search from the target for the importer, in whatever order it takes the pending paths, comes
to an end.  If it meets the importer, a cycle would be closed; if no path is pending any more, none
would.  The one is so if, and only if, recorded imports lead from the target to the importer. -/
theorem closesCycle_decides (c : ModuleCache) (importer target : String) :
    WellFounded (fun y x => c.Looks importer x y) ∧
      (∀ pending seen, ReflTransGen (c.Looks importer) ([target], []) (pending, seen) →
        ((∃ path ∈ pending, Path.same path importer = true) →
          c.closesCycle importer target = true) ∧
        (pending = [] → c.closesCycle importer target = false)) ∧
      (c.closesCycle importer target = true ↔ c.Leads target importer) := by
  refine ⟨?_, fun pending seen hlooks => ?_, closesCycle_iff⟩
  · refine Subrelation.wf (fun {y x} hlook => ?_) (measure fun x : List String × List String =>
      x.1.length + unseen x.2 c.imports).wf
    exact hlook.less
  · have hfinds : c.closesCycle importer target = true ↔ c.Finds importer (pending, seen) := by
      rw [closesCycle_iff, ← finds_start, finds_iff_of_looks hlooks]
    constructor
    · rintro ⟨path, hpath, hsame⟩
      exact hfinds.mpr ⟨path, hpath, .here hsame⟩
    · rintro rfl
      refine Bool.eq_false_iff.mpr fun hcloses => ?_
      obtain ⟨a, ha, -⟩ := hfinds.mp hcloses
      exact absurd ha not_mem_nil

end ModuleCache

end TaskBasic
