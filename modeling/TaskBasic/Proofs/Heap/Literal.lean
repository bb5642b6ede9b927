import Mathlib.Data.List.Forall2
import TaskBasic.Proofs.Expr.Meaning
import TaskBasic.Proofs.Heap.Plain

/-
Values and their literals.

Two values are alike if they are made of the same ints and texts in the same way,
also across two heaps (`Heap.Alike`).

* `Heap.Plain.value` — the literal of a plain value has a value that is alike.
* `Heap.Alike.equal` — values that are alike are equal.
-/

namespace TaskBasic

namespace Heap

/-- The value `v` of the heap `h` and the value `v'` of the heap `h'` are made of the same ints and
texts in the same way, in at most `levels` levels. -/
def Alike (h h' : Heap) : (levels : Nat) → Value → Value → Prop
  | 0, _, _ => False
  | n + 1, v, v' =>
    match v, v' with
    | .absent, .absent => True
    | .int i, .int j => i = j
    | .str s, .str t => s = t
    | .array r, .array r' => ∃ items, h'.arrays[r'.index]? = some items ∧
        List.Forall₂ (h.Alike h' n) (h.array r).toList items.toList
    | .dict r, .dict r' => ∃ entries, h'.dicts[r'.index]? = some entries ∧
        List.Forall₂ (fun e e' => e.1 = e'.1 ∧ h.Alike h' n e.2 e'.2) (h.dict r).toList
          entries.toList
    | _, _ => False

variable {h g g' : Heap} {n : Nat} {v v' : Value}

theorem getElem?_of_prefix {α : Type} {a b : Array α} (h : a.toList <+: b.toList) {i : Nat} {x : α}
    (hi : a[i]? = some x) : b[i]? = some x := by
  obtain ⟨t, ht⟩ := h
  obtain ⟨hlt, -⟩ := Array.getElem?_eq_some_iff.mp hi
  rw [← Array.getElem?_toList] at hi ⊢
  rw [← ht, List.getElem?_append_left hlt, hi]

structure Within (h g : Heap) : Prop where
  arrays : h.arrays.toList <+: g.arrays.toList
  dicts : h.dicts.toList <+: g.dicts.toList

theorem Grows.within (hg : h.Grows g) : h.Within g := ⟨hg.arrays, hg.dicts⟩

theorem Within.refl (h : Heap) : h.Within h := (Grows.refl h).within

/-- Values stay alike where more is in the heap, and down to more levels. -/
theorem Alike.mono {m : Nat} (ha : h.Alike g n v v') (hg : g.Within g') (hm : n ≤ m) :
    h.Alike g' m v v' := by
  induction n generalizing m v v' with
  | zero => exact ha.elim
  | succ n ih =>
    obtain ⟨m, rfl⟩ : ∃ k, m = k + 1 := ⟨m - 1, by omega⟩
    have hm : n ≤ m := by omega
    cases v <;> cases v' <;> first | exact ha | exact ha.elim | skip
    case array.array r r' =>
      obtain ⟨items, hitems, hall⟩ := ha
      exact ⟨items, getElem?_of_prefix hg.arrays hitems, hall.imp fun _ _ hv => ih hv hm⟩
    case dict.dict r r' =>
      obtain ⟨entries, hentries, hall⟩ := ha
      exact ⟨entries, getElem?_of_prefix hg.dicts hentries,
        hall.imp fun _ _ he => ⟨he.1, ih he.2 hm⟩⟩

/-! ### Equality -/

theorem equalLists_of_forall₂ {eq : Value → Value → Option Bool} {xs ys : List Value}
    (h : List.Forall₂ (fun x y => eq x y = some true) xs ys) : equalLists eq xs ys = some true := by
  induction h with
  | nil => rfl
  | cons hxy _ ih => rw [equalLists, hxy, ih]

theorem equalEntries_of_forall₂ {eq : Value → Value → Option Bool} {xs ys : List (String × Value)}
    (h : List.Forall₂ (fun x y => x.1 = y.1 ∧ eq x.2 y.2 = some true) xs ys) :
    equalEntries eq xs ys = some true := by
  induction h with
  | nil => rfl
  | cons hxy _ ih => rw [equalEntries, if_pos hxy.1, hxy.2, ih]

theorem Alike.equal? {levels : Nat} (ha : h.Alike g n v v') (hv : h.Plain levels v)
    (hg : h.Within g) : g.equal? n v v' = some true := by
  induction n generalizing levels v v' with
  | zero => exact ha.elim
  | succ n ih =>
    cases levels with
    | zero => exact hv.elim
    | succ levels =>
      cases v <;> cases v' <;> first | exact ha.elim | skip
      case absent.absent => rfl
      case int.int | str.str =>
        cases ha
        exact congrArg some (beq_self_eq_true _)
      case array.array r r' =>
        obtain ⟨items, hitems, hall⟩ := ha
        have hr : g.array r = h.array r := by
          rw [array, array, getElem?_of_prefix hg.arrays (Array.getElem?_eq_getElem hv.1),
            Array.getElem?_eq_getElem hv.1]
        have hr' : g.array r' = items := by rw [array, hitems, Option.getD_some]
        have hequal := ((List.forall₂_and_left _ _).mpr ⟨hv.2, hall⟩).imp fun _ _ hw => ih hw.2 hw.1
        have hsize : (h.array r).size = items.size := hall.length_eq
        rw [Heap.equal?, equalWith, hr, hr', equalLists_of_forall₂ hequal, if_pos hsize, ite_self]
      case dict.dict r r' =>
        obtain ⟨entries, hentries, hall⟩ := ha
        have hr : g.dict r = h.dict r := by
          rw [dict, dict, getElem?_of_prefix hg.dicts (Array.getElem?_eq_getElem hv.1),
            Array.getElem?_eq_getElem hv.1]
        have hr' : g.dict r' = entries := by rw [dict, hentries, Option.getD_some]
        have hequal := ((List.forall₂_and_left _ _).mpr ⟨hv.2, hall⟩).imp fun _ _ he =>
          And.intro he.2.1 (ih he.2.2 he.1.2)
        have hsize : (h.dict r).size = entries.size := by simpa using hall.length_eq
        rw [Heap.equal?, equalWith, hr, hr', equalEntries_of_forall₂ hequal, if_pos hsize, ite_self]

/-- Equality of two values needs no more levels than there are containers. -/
theorem le_equalLevels (h : Heap) : h.arrays.size + h.dicts.size + 1 ≤ h.equalLevels := by
  have harrays := Nat.le_mul_self h.arrays.size
  have hdicts := Nat.le_mul_self h.dicts.size
  rw [equalLevels]
  omega

end Heap

/-! ### The values of literals -/

section

variable {h g g' : Heap} {n : Nat} {v v' : Value} {read : String → Except Failure Value}

theorem value_intLiteral (i : Int64) : ((intLiteral i).value read).run g = .ok (.int i) g := by
  rw [intLiteral]
  split
  · rw [Expr.value]
    rfl
  · split
    next hi =>
      rw [Expr.value, hi]
      rfl
    next hsign hi =>
      have hmin := Int64.le_toInt i
      have hmax := Int64.toInt_lt i
      have hne : i.toInt ≠ -9223372036854775808 := fun heq => hi (Int64.toInt_inj.mp heq)
      have hneg : (-i).toInt = -i.toInt := by
        rw [Int64.toInt_neg, Int.bmod_eq_of_le (by omega) (by omega)]
      have hback : Number.negate (.int (-i)) = .ok (.int i) := by
        rw [Number.negate, hneg, Int.neg_neg, Number.exact, int64OfInt?,
          if_pos ⟨Int64.minValue_le_toInt i, Int64.toInt_le i⟩, Int64.ofInt_toInt]
      have hvalue : Heap.negate (.int (-i)) = .ok (.int i) := by
        simp only [Heap.negate, Value.number?, hback]
        rfl
      simp only [Expr.value, EStateM.run_bind, EStateM.run_pure, Eval.run_ofExcept, hvalue]

def Heap.containers (h : Heap) : Nat :=
  h.arrays.size + h.dicts.size

theorem Heap.Grows.containers (hg : g.Grows g') : g.containers ≤ g'.containers :=
  Nat.add_le_add hg.arrays.length_le hg.dicts.length_le

/-- The evaluation has a value that satisfies `P k`, where `k` is at most `levels` and at most the
number of containers that are made, and one. -/
def Eval.Gives {α : Type} (x : Eval α) (levels : Nat) (g : Heap) (P : Nat → Heap → α → Prop) :
    Prop :=
  ∃ a g' k, x.run g = .ok a g' ∧ g.Grows g' ∧ k ≤ levels ∧ k + g.containers ≤ g'.containers + 1 ∧
    P k g' a

theorem Expr.values_alike {vs : List Value}
    (hvs : ∀ v ∈ vs, ∀ g, ((h.literal n v).value read).Gives n g fun k g' v' => h.Alike g' k v v')
    (g : Heap) : (Expr.values read (vs.map (h.literal n))).Gives n g fun k g' vs' =>
      List.Forall₂ (h.Alike g' k) vs vs' := by
  induction vs generalizing g with
  | nil =>
    rw [List.map_nil, Expr.values]
    exact ⟨[], g, 0, rfl, .refl g, Nat.zero_le n, by omega, .nil⟩
  | cons v vs ih =>
    obtain ⟨v', g1, k1, hv, hg1, hn1, hk1, ha⟩ := hvs v List.mem_cons_self g
    obtain ⟨vs', g2, k2, hrest, hg2, hn2, hk2, hall⟩ :=
      ih (fun w hw => hvs w (List.mem_cons_of_mem _ hw)) g1
    have hc1 := hg1.containers
    have hc2 := hg2.containers
    refine ⟨v' :: vs', g2, max k1 k2, ?_, hg1.trans hg2, by omega, by omega, ?_⟩
    · simp only [List.map_cons, Expr.values, EStateM.run_bind, hv, hrest, EStateM.run_pure]
    · exact .cons (ha.mono hg2.within (by omega))
        (hall.imp fun _ _ ha => ha.mono (.refl _) (by omega))

theorem Expr.entryValues_alike {es : List (String × Value)}
    (hes : ∀ e ∈ es, ∀ g,
      ((h.literal n e.2).value read).Gives n g fun k g' v' => h.Alike g' k e.2 v')
    (g : Heap) :
    (Expr.entryValues read (es.map fun e => (.str e.1, h.literal n e.2))).Gives n g fun k g' vs =>
      ∃ es' : List (String × Value), vs = es'.map (fun e => (.str e.1, e.2)) ∧
        List.Forall₂ (fun e e' => e.1 = e'.1 ∧ h.Alike g' k e.2 e'.2) es es' := by
  induction es generalizing g with
  | nil =>
    rw [List.map_nil, Expr.entryValues]
    exact ⟨[], g, 0, rfl, .refl g, Nat.zero_le n, by omega, [], rfl, .nil⟩
  | cons e es ih =>
    obtain ⟨v', g1, k1, hv, hg1, hn1, hk1, ha⟩ := hes e List.mem_cons_self g
    obtain ⟨_, g2, k2, hrest, hg2, hn2, hk2, es', rfl, hall⟩ :=
      ih (fun w hw => hes w (List.mem_cons_of_mem _ hw)) g1
    have hc1 := hg1.containers
    have hc2 := hg2.containers
    refine ⟨_, g2, max k1 k2, ?_, hg1.trans hg2, by omega, by omega, (e.1, v') :: es', rfl, ?_⟩
    · simp only [List.map_cons, Expr.entryValues, Expr.value, EStateM.run_bind,
        EStateM.run_pure, hv, hrest]
    · exact .cons ⟨rfl, ha.mono hg2.within (by omega)⟩
        (hall.imp fun _ _ he => ⟨he.1, he.2.mono (.refl _) (by omega)⟩)

theorem Eval.dictionary_names (es : List (String × Value)) :
    Eval.dictionary (es.map fun e => (.str e.1, e.2)) = .ok (Std.TreeMap.ofList es) := by
  rw [Std.TreeMap.ofList_eq_insertMany_empty, Eval.dictionary]
  generalize (∅ : Dict) = d
  induction es generalizing d with
  | nil => rfl
  | cons e es ih =>
    rw [Std.TreeMap.insertMany_cons]
    exact ih (d.insert e.1 e.2)

/-- A dictionary with entries that come in the order of their names has just these. -/
theorem toList_ofList {es : List (String × Value)}
    (hes : es.Pairwise fun a b => compare a.1 b.1 = .lt) :
    (Std.TreeMap.ofList es : Dict).toList = es := by
  have hdistinct : es.Pairwise fun a b => ¬ compare a.1 b.1 = .eq :=
    hes.imp fun hlt heq => by rw [hlt] at heq; cases heq
  have hirrefl (a : String × Value) : ¬ compare a.1 a.1 = .lt := by
    rw [Std.ReflOrd.compare_self]
    decide
  have hmem (e : String × Value) : e ∈ (Std.TreeMap.ofList es : Dict).toList ↔ e ∈ es := by
    obtain ⟨name, value⟩ := e
    rw [Std.TreeMap.mem_toList_iff_getElem?_eq_some]
    constructor
    · intro hsome
      have hname : name ∈ es.map Prod.fst := by
        refine Decidable.byContradiction fun hnot => ?_
        rw [Std.TreeMap.getElem?_ofList_of_contains_eq_false (by simpa using hnot)] at hsome
        cases hsome
      obtain ⟨⟨_, value'⟩, hvalue, rfl⟩ := List.mem_map.mp hname
      have hget := Std.TreeMap.getElem?_ofList_of_mem Std.ReflOrd.compare_self hdistinct hvalue
      rw [hget] at hsome
      cases hsome
      exact hvalue
    · exact Std.TreeMap.getElem?_ofList_of_mem Std.ReflOrd.compare_self hdistinct
  have hnodup {l : List (String × Value)} (hl : l.Pairwise fun a b => compare a.1 b.1 = .lt) :
      l.Nodup := by
    refine hl.imp fun {a b} hlt heq => ?_
    rw [heq] at hlt
    exact hirrefl b hlt
  have hperm :=
    (List.perm_ext_iff_of_nodup (hnodup Std.TreeMap.ordered_keys_toList) (hnodup hes)).mpr
    hmem
  refine hperm.eq_of_pairwise (fun a b _ _ hab hba => ?_) Std.TreeMap.ordered_keys_toList hes
  exact absurd (Std.TransCmp.lt_trans hab hba) (hirrefl a)

theorem pairwise_names {P : Value → Value → Prop} {es es' : List (String × Value)}
    (h : List.Forall₂ (fun e e' => e.1 = e'.1 ∧ P e.2 e'.2) es es')
    (hes : es.Pairwise fun a b => compare a.1 b.1 = .lt) :
    es'.Pairwise fun a b => compare a.1 b.1 = .lt := by
  have hnames : es.map Prod.fst = es'.map Prod.fst := by
    induction h with
    | nil => rfl
    | cons he _ ih => rw [List.map_cons, List.map_cons, he.1, ih hes.of_cons]
  rw [← List.pairwise_map (R := fun a b => compare a b = .lt)] at hes ⊢
  rwa [← hnames]

theorem Heap.Plain.value (hv : h.Plain n v) (g : Heap) :
    ((h.literal n v).value read).Gives n g fun k g' v' => h.Alike g' k v v' := by
  induction n generalizing v g with
  | zero => exact hv.elim
  | succ n ih =>
    cases v with
    | absent =>
      have hnone : h.literal (n + 1) .absent = .absent := rfl
      rw [hnone, Expr.value]
      exact ⟨.absent, g, 1, rfl, .refl g, by omega, by omega, trivial⟩
    | int i => exact ⟨.int i, g, 1, value_intLiteral i, .refl g, by omega, by omega, rfl⟩
    | str s =>
      rw [Heap.literal, Expr.value]
      exact ⟨.str s, g, 1, rfl, .refl g, by omega, by omega, rfl⟩
    | array r =>
      obtain ⟨vs', g1, k, hrun, hg1, hn, hk, hall⟩ :=
        Expr.values_alike (fun w hw g => ih (hv.2 w hw) g) g
      have hnew := Heap.Grows.newArray g1 vs'.toArray
      have hcount : (g1.newArray vs'.toArray).1.containers = g1.containers + 1 := by
        simp only [Heap.newArray, Heap.containers, Array.size_push]
        omega
      refine ⟨.array ⟨g1.arrays.size⟩, _, k + 1, ?_, hg1.trans hnew, by omega, by omega,
        vs'.toArray, ?_, hall.imp fun _ _ ha => ha.mono hnew.within (Nat.le_refl _)⟩
      · simp only [Heap.literal, Expr.value, EStateM.run_bind, hrun, Eval.run_alloc]
        rfl
      · simp [Heap.newArray]
    | dict r =>
      obtain ⟨_, g1, k, hrun, hg1, hn, hk, es', rfl, hall⟩ :=
        Expr.entryValues_alike (fun e he g => ih (hv.2 e he).2 g) g
      have hlist := toList_ofList (pairwise_names hall Std.TreeMap.ordered_keys_toList)
      have hnew := Heap.Grows.newDict g1 (.ofList es' Ord.compare)
      have hcount : (g1.newDict (.ofList es' Ord.compare)).1.containers = g1.containers + 1 := by
        simp only [Heap.newDict, Heap.containers, Array.size_push]
        omega
      refine ⟨.dict ⟨g1.dicts.size⟩, _, k + 1, ?_, hg1.trans hnew, by omega, by omega,
        .ofList es' Ord.compare, ?_, ?_⟩
      · simp only [Heap.literal, Expr.value, EStateM.run_bind, hrun, Eval.run_ofExcept,
          Eval.dictionary_names, Eval.run_alloc, EStateM.run_pure]
        rfl
      · simp [Heap.newDict]
      · rw [hlist]
        exact hall.imp fun _ _ he => ⟨he.1, he.2.mono hnew.within (Nat.le_refl _)⟩
    | _ => exact hv.elim

end

end TaskBasic
