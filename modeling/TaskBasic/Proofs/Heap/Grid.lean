import Mathlib.Data.List.Induction
import TaskBasic.Proofs.Heap.Slots

/-
Arrays of several dimensions.

The arrays that `dim` makes lie one behind the other in the heap, each behind the
arrays that are its elements, so that no two of them are the same.  A store at as
many indices as there are dimensions changes one cell.

* `Heap.IsGrid` — nested arrays with their cells, by where they lie.
* `Heap.dim_isGrid` — what `dim` makes.
* `Heap.IsGrid.setEach` — what a store changes.
* `Heap.dim_cells_independent` — every cell holds what was stored last at it.
-/

namespace TaskBasic

variable {k : Int64} {n i : Nat} {items : Array Value}

/-- The number of elements that a size asks for. -/
def Value.extent : Value → Nat
  | .int n => n.toInt.toNat
  | _ => 0

/-- The place that an index denotes among `n` elements; a negative one counts from the end. -/
def place (n : Nat) (k : Int64) : Nat :=
  (if k.toInt < 0 then n + k.toInt else k.toInt).toNat

/-- The cell that indices denote in nested arrays with the sizes `ns`. -/
def cell (ns : List Nat) (ks : List Int64) : List Nat := List.zipWith place ns ks

/-- There is one index for each of the sizes `ns`, and each is in range. -/
def InRange : List Nat → List Int64 → Prop
  | [], [] => True
  | n :: ns, k :: ks => (-(n : Int) ≤ k.toInt ∧ k.toInt < n) ∧ InRange ns ks
  | _, _ => False

instance InRange.decidable : (ns : List Nat) → (ks : List Int64) → Decidable (InRange ns ks)
  | [], [] => inferInstanceAs (Decidable True)
  | [], _ :: _ | _ :: _, [] => inferInstanceAs (Decidable False)
  | _ :: ns, _ :: ks =>
    have := InRange.decidable ns ks
    inferInstanceAs (Decidable (_ ∧ InRange ns ks))

/-- Several indices as one key. -/
def indexKey (ks : List Int64) : Value := .tuple (ks.map .int)

theorem position_eq_place (h : -(n : Int) ≤ k.toInt ∧ k.toInt < n) :
    position (.int k) n = .ok (place n k) := by
  refine position_eq_ok_iff.mpr ⟨h.1, h.2, ?_⟩
  rw [place]
  split <;> omega

theorem eq_place_of_position (h : position (.int k) n = .ok i) : i = place n k := by
  obtain ⟨hlow, hhigh, -⟩ := position_eq_ok_iff.mp h
  exact Except.ok.inj (h.symm.trans (position_eq_place ⟨hlow, hhigh⟩))

/-- The number of arrays that nested arrays with the sizes `ns` consist of. -/
def rows : List Nat → Nat
  | [] => 0
  | n :: ns => n * rows ns + 1

/-- Nested arrays that lie from `base` on, or the one cell if there is no dimension. -/
def gridValue (base : Nat) (ns : List Nat) (cells : List Nat → Value) : Value :=
  match ns with
  | [] => cells []
  | n :: ns => .array ⟨base + n * rows ns⟩

theorem gridValue_congr {ns : List Nat} (hne : ns ≠ []) (base : Nat)
    (cells cells' : List Nat → Value) : gridValue base ns cells = gridValue base ns cells' := by
  cases ns with
  | nil => exact absurd rfl hne
  | cons => rfl

theorem add_rows_le (hi : i < n) (base r : Nat) : base + i * r + r ≤ base + n * r := by
  have hle := Nat.mul_le_mul_right r (Nat.succ_le_of_lt hi)
  rw [Nat.succ_mul] at hle
  omega

namespace Heap

/-- Nested arrays with the sizes `ns` lie from `base` on and hold the given cells. -/
def IsGrid (h : Heap) : (base : Nat) → (ns : List Nat) → (cells : List Nat → Value) → Prop
  | _, [], _ => True
  | base, n :: ns, cells =>
    (h.array ⟨base + n * rows ns⟩).size = n ∧ ∀ i < n,
      (h.array ⟨base + n * rows ns⟩)[i]? =
        some (gridValue (base + i * rows ns) ns fun p => cells (i :: p)) ∧
      IsGrid h (base + i * rows ns) ns fun p => cells (i :: p)

variable {h h' : Heap} {base : Nat} {ns : List Nat} {cells : List Nat → Value} {ks : List Int64}
  {v : Value}

/-- Arrays that lie elsewhere do not matter. -/
theorem IsGrid.frame (hgrid : h.IsGrid base ns cells)
    (hsame : ∀ k, base ≤ k → k < base + rows ns → h'.array ⟨k⟩ = h.array ⟨k⟩) :
    h'.IsGrid base ns cells := by
  induction ns generalizing base cells with
  | nil => trivial
  | cons n ns ih =>
    rw [rows] at hsame
    rw [IsGrid] at hgrid ⊢
    rw [hsame _ (by omega) (by omega)]
    refine ⟨hgrid.1, fun i hi => ⟨(hgrid.2 i hi).1, ih (hgrid.2 i hi).2 fun k hlow hhigh => ?_⟩⟩
    have hle := add_rows_le hi base (rows ns)
    exact hsame k (by omega) (by omega)

/-! ### Making -/

/-- From the one heap to the other, nested arrays with absent cells are made. -/
structure Makes (ns : List Nat) (h h' : Heap) (v : Value) : Prop where
  value : v = gridValue h.arrays.size ns fun _ => .absent
  size : h'.arrays.size = h.arrays.size + rows ns
  old : ∀ k < h.arrays.size, h'.array ⟨k⟩ = h.array ⟨k⟩
  grid : h'.IsGrid h.arrays.size ns fun _ => .absent

theorem array_push {k : Nat} :
    (h.newArray items).1.array ⟨k⟩ = if k = h.arrays.size then items else h.array ⟨k⟩ := by
  rw [newArray, array, array, Array.getElem?_push]
  split <;> rfl

/-- Elements that are made one after the other lie one behind the other. -/
theorem replicateM_makes {make : Heap → Except Failure (Heap × Value)} {items' : Array Value}
    {count : Nat} (hmake : ∀ h h' v, make h = .ok (h', v) → Makes ns h h' v)
    (hrun : replicateM make count h items = .ok (h', items')) :
    h'.arrays.size = h.arrays.size + count * rows ns ∧
    (∀ k < h.arrays.size, h'.array ⟨k⟩ = h.array ⟨k⟩) ∧
    items'.size = items.size + count ∧ (∀ j < items.size, items'[j]? = items[j]?) ∧ ∀ j < count,
      items'[items.size + j]? = some (gridValue (h.arrays.size + j * rows ns) ns fun _ => .absent) ∧
      h'.IsGrid (h.arrays.size + j * rows ns) ns fun _ => .absent := by
  induction count generalizing h items with
  | zero =>
    cases hrun
    exact ⟨by simp, fun _ _ => rfl, rfl, fun _ _ => rfl, fun j hj => absurd hj (Nat.not_lt_zero j)⟩
  | succ count ih =>
    rw [replicateM] at hrun
    split at hrun
    next h1 item hitem =>
      obtain ⟨hvalue, hsize, hold, hgrid⟩ := hmake _ _ _ hitem
      obtain ⟨hsize', hold', hitems, hbefore, hnew⟩ := ih hrun
      rw [hsize] at hsize' hold' hnew
      rw [Array.size_push] at hitems hbefore hnew
      refine ⟨by rw [hsize', Nat.succ_mul]; omega, fun k hk => ?_, by omega, fun j hj => ?_,
        fun j hj => ?_⟩
      · rw [hold' k (by omega), hold k hk]
      · rw [hbefore j (by omega), Array.getElem?_push_lt hj, Array.getElem?_eq_getElem hj]
      · cases j with
        | zero =>
          rw [hbefore _ (by omega), Nat.add_zero, Array.getElem?_push_size, hvalue, Nat.zero_mul,
            Nat.add_zero]
          exact ⟨rfl, hgrid.frame fun k _ hk => hold' k hk⟩
        | succ j =>
          have hj' := hnew j (by omega)
          rw [Nat.succ_mul, show items.size + (j + 1) = items.size + 1 + j by omega,
            show h.arrays.size + (j * rows ns + rows ns) = h.arrays.size + rows ns + j * rows ns by
              omega]
          exact hj'
    next => cases hrun

/-- An array is made behind its elements. -/
theorem makes_outer (hsize : h'.arrays.size = h.arrays.size + n * rows ns)
    (hold : ∀ k < h.arrays.size, h'.array ⟨k⟩ = h.array ⟨k⟩) (hitems : items.size = n)
    (hnew : ∀ i < n, items[i]? =
      some (gridValue (h.arrays.size + i * rows ns) ns fun _ => .absent) ∧
      h'.IsGrid (h.arrays.size + i * rows ns) ns fun _ => .absent) :
    Makes (n :: ns) h (h'.newArray items).1 (h'.newArray items).2 := by
  refine ⟨?_, ?_, fun k hk => ?_, ?_⟩
  · rw [newArray, hsize]
    rfl
  · rw [newArray, Array.size_push, hsize, rows, Nat.add_assoc]
  · rw [array_push, if_neg (by omega), hold k hk]
  · rw [IsGrid, array_push, if_pos hsize.symm]
    refine ⟨hitems, fun i hi => ⟨(hnew i hi).1, (hnew i hi).2.frame fun k _ hk => ?_⟩⟩
    have hle := add_rows_le hi h.arrays.size (rows ns)
    rw [array_push, if_neg (by omega)]

theorem dim_isGrid {sizes : List Value} (hne : sizes ≠ []) (hdim : h.dim sizes = .ok (h', v)) :
    Makes (sizes.map Value.extent) h h' v := by
  induction sizes generalizing h h' v with
  | nil => exact absurd rfl hne
  | cons size rest ih =>
    cases size with
    | int n =>
      rw [dim.eq_def] at hdim
      simp only at hdim
      split at hdim
      next => cases hdim
      next =>
      cases rest with
      | nil =>
        cases hdim
        exact makes_outer rfl (fun _ _ => rfl) Array.size_replicate fun i hi =>
          ⟨Array.getElem?_replicate.trans (if_pos hi), trivial⟩
      | cons inner more =>
        simp only at hdim
        split at hdim
        next h1 items hrun =>
          cases hdim
          obtain ⟨hsize, hold, hitems, -, hnew⟩ :=
            replicateM_makes (fun _ _ _ => ih (List.cons_ne_nil inner more)) hrun
          simp only [List.size_toArray, List.length_nil, Nat.zero_add] at hitems hnew
          exact makes_outer hsize hold hitems hnew
        next => cases hdim
    | _ => cases hdim

/-! ### Reading and storing -/

/-- An index leads to the part of the nested arrays that it denotes. -/
theorem IsGrid.getOne (hgrid : h.IsGrid base (n :: ns) cells)
    (hi : position (.int k) n = .ok i) : h.getOne (gridValue base (n :: ns) cells) (.int k) =
      .ok (gridValue (base + i * rows ns) ns fun p => cells (i :: p)) :=
  getOne_of_slot? (slot?_array (hgrid.1.symm ▸ hi)) (hgrid.2 i (lt_of_position hi)).1

theorem IsGrid.getEach {ms : List Nat} (hgrid : h.IsGrid base (ns ++ ms) cells)
    (hks : InRange ns ks) :
    ∃ base', h.getEach (gridValue base (ns ++ ms) cells) (ks.map .int) =
        .ok (gridValue base' ms fun p => cells (cell ns ks ++ p)) ∧
      h.IsGrid base' ms fun p => cells (cell ns ks ++ p) := by
  induction ns generalizing base cells ks with
  | nil =>
    cases ks with
    | nil => exact ⟨base, rfl, hgrid⟩
    | cons => cases hks
  | cons n ns ih =>
    cases ks with
    | nil => cases hks
    | cons k ks =>
      obtain ⟨hk, hks⟩ := hks
      have hposition := position_eq_place hk
      obtain ⟨base', hget, hinner⟩ := ih (hgrid.2 _ (lt_of_position hposition)).2 hks
      refine ⟨base', ?_, hinner⟩
      have hone : h.get (gridValue base (n :: ns ++ ms) cells) (.int k) = _ :=
        hgrid.getOne hposition
      rw [List.map_cons, Heap.getEach, hone]
      exact hget

theorem update_cons {cells : List Nat → Value} {j : Nat} {q : List Nat} :
    (fun p => Function.update cells (i :: q) v (j :: p)) =
      if j = i then Function.update (fun p => cells (i :: p)) q v else fun p => cells (j :: p) := by
  split
  next h =>
    subst h
    funext p
    simp [Function.update]
  next h =>
    funext p
    exact Function.update_of_ne (by simp [h]) _ _

theorem IsGrid.setEach (hgrid : h.IsGrid base ns cells) (hlen : ks.length = ns.length)
    (hset : h.setEach (gridValue base ns cells) v (ks.map .int) = .ok h') :
    h'.IsGrid base ns (Function.update cells (cell ns ks) v) ∧
      ∀ k, k < base ∨ base + rows ns ≤ k → h'.array ⟨k⟩ = h.array ⟨k⟩ := by
  induction ns generalizing base cells ks with
  | nil =>
    obtain rfl := List.length_eq_zero_iff.mp hlen
    cases hset
  | cons n ns ih =>
    cases ks with
    | nil => cases hlen
    | cons k ks =>
    cases ks with
    | nil =>
      obtain rfl := List.length_eq_zero_iff.mp (Nat.succ.inj hlen).symm
      obtain ⟨i, hi, hset⟩ := exists_of_bind_ok hset
      cases hset
      rw [hgrid.1] at hi
      have hchanges := changes_item (hgrid.1.symm ▸ lt_of_position hi) v
      refine ⟨⟨(hchanges.sizes _).trans hgrid.1, fun j hj => ⟨?_, trivial⟩⟩,
        fun k' hk' => Array.ext_getElem? fun j => ?_⟩
      · show _ = some (Function.update cells [place n k] v [j])
        rw [← eq_place_of_position hi]
        by_cases hji : j = i
        · subst hji
          rw [Function.update_self]
          exact hchanges.written
        · rw [Function.update_of_ne (by simp [hji])]
          exact (hchanges.others (.item _ j) (by simp [hji])).trans (hgrid.2 j hj).1
      · refine hchanges.others (.item _ j) ?_
        simp only [rows] at hk'
        simp only [ne_eq, Slot.item.injEq, ArrayRef.mk.injEq, rows]
        omega
    | cons k' ks =>
      rw [List.map_cons, List.map_cons, Heap.setEach] at hset
      · split at hset
        next inner hget =>
          obtain ⟨i, hi, -⟩ := exists_of_bind_ok hget
          rw [hgrid.1] at hi
          have hone : h.get (gridValue base (n :: ns) cells) (.int k) = _ := hgrid.getOne hi
          obtain rfl := Except.ok.inj (hget.symm.trans hone)
          have hlt := lt_of_position hi
          obtain ⟨hinner, hsame⟩ := ih (hgrid.2 i hlt).2 (Nat.succ.inj hlen) hset
          have hle := add_rows_le hlt base (rows ns)
          refine ⟨⟨?_, fun j hj => ?_⟩, fun k' hk' => hsame k' ?_⟩
          · rw [hsame _ (by omega), hgrid.1]
          · have hne : ns ≠ [] := by
              rintro rfl
              cases hlen
            have hcell : cell (n :: ns) (k :: k' :: ks) = i :: cell ns (k' :: ks) := by
              rw [eq_place_of_position hi]
              rfl
            rw [hsame _ (by omega), gridValue_congr hne _ _ fun p => cells (j :: p), hcell,
              update_cons]
            refine ⟨(hgrid.2 j hj).1, ?_⟩
            split
            next hji => exact hji ▸ hinner
            next hji =>
              refine (hgrid.2 j hj).2.frame fun k' hlow hhigh => hsame k' ?_
              rcases Nat.lt_or_gt_of_ne hji with hlt' | hlt'
              · have hle := add_rows_le hlt' base (rows ns)
                omega
              · have hle := add_rows_le hlt' base (rows ns)
                omega
          · rw [rows] at hk'
            omega
        next => cases hset
      · rintro ⟨⟩

end Heap

/-- The value that was stored last at a cell, or the absent value. -/
def lastStored (ns : List Nat) (stores : List (List Int64 × Value)) (p : List Nat) : Value :=
  match stores.reverse.find? fun s => cell ns s.1 = p with
  | some s => s.2
  | none => .absent

namespace Heap

theorem IsGrid.stores {h h0 : Heap} {base : Nat} {ns : List Nat}
    {stores : List (List Int64 × Value)} {a : Value} (hne : ns ≠ [])
    (ha : a = gridValue base ns fun _ => .absent) (hgrid : h0.IsGrid base ns fun _ => .absent)
    (hfull : ∀ s ∈ stores, s.1.length = ns.length)
    (hstores : stores.foldlM (fun h s => h.set a s.2 (indexKey s.1)) h0 = .ok h) :
    h.IsGrid base ns (lastStored ns stores) := by
  induction stores using List.reverseRecOn generalizing h with
  | nil =>
    cases hstores
    exact hgrid
  | append_singleton stores s ih =>
    rw [List.foldlM_append] at hstores
    obtain ⟨h1, hbefore, hset⟩ := exists_of_bind_ok hstores
    have hgrid1 := ih (fun s hs => hfull s (List.mem_append_left _ hs)) hbefore
    obtain ⟨_, hset, hend⟩ := exists_of_bind_ok hset
    cases hend
    rw [ha, gridValue_congr hne _ _ (lastStored ns stores)] at hset
    have hlast : lastStored ns (stores ++ [s]) =
        Function.update (lastStored ns stores) (cell ns s.1) s.2 := by
      funext p
      by_cases hp : cell ns s.1 = p
      · simp [lastStored, hp]
      · simp [lastStored, hp, Function.update_of_ne (Ne.symm hp)]
    rw [hlast]
    exact (hgrid1.setEach (hfull s (List.mem_append_right _ List.mem_cons_self)) hset).1

/-- Every cell of the arrays that `dim` makes can be read with indices in range; it holds the value
that was stored last at it, or the absent value.  Two lists of indices denote the same cell if they
are the same once the negative ones are counted from the end.  All arrays keep their lengths. -/
theorem dim_cells_independent {h h₀ h₁ : Heap} {sizes : List Value} {a : Value} (hne : sizes ≠ [])
    (hdim : h.dim sizes = .ok (h₀, a)) {stores : List (List Int64 × Value)}
    (hfull : ∀ s ∈ stores, s.1.length = sizes.length)
    (hstores : stores.foldlM (fun h s => h.set a s.2 (indexKey s.1)) h₀ = .ok h₁) :
    (∀ ks, InRange (sizes.map Value.extent) ks → h₁.get a (indexKey ks) =
      .ok (lastStored (sizes.map Value.extent) stores (cell (sizes.map Value.extent) ks))) ∧
    ∀ ms n rest ks, sizes.map Value.extent = ms ++ n :: rest → InRange ms ks →
      ∃ v, h₁.get a (indexKey ks) = .ok v ∧ h₁.length v = .ok n := by
  obtain ⟨rfl, -, -, hgrid⟩ := dim_isGrid hne hdim
  have hne : sizes.map Value.extent ≠ [] := by simpa using hne
  have hgrid₁ := IsGrid.stores hne rfl hgrid (by simpa using hfull) hstores
  rw [gridValue_congr hne _ _ (lastStored (sizes.map Value.extent) stores)]
  generalize sizes.map Value.extent = ns at hgrid₁ ⊢
  refine ⟨fun ks hks => ?_, fun ms n rest ks hns hks => ?_⟩
  · rw [← List.append_nil ns] at hgrid₁ ⊢
    obtain ⟨_, hget, -⟩ := hgrid₁.getEach hks
    simpa [indexKey, Heap.get, gridValue] using hget
  · subst hns
    obtain ⟨_, hget, hinner⟩ := hgrid₁.getEach hks
    exact ⟨_, hget, congrArg _ hinner.1⟩

/-- Two of three stores in two rows of three go to the same cell, once by its index from the end. -/
theorem dim_cells_independent_two_by_three : ∃ h₀ a h₁, dim {} [.int 2, .int 3] = .ok (h₀, a) ∧
    [([0, -1], Value.int 5), ([1, 2], .int 6), ([0, 2], .int 7)].foldlM
      (fun h s => h.set a s.2 (indexKey s.1)) h₀ = .ok h₁ ∧
    h₁.get a (indexKey [-2, -1]) = .ok (.int 7) ∧ h₁.get a (indexKey [1, 2]) = .ok (.int 6) ∧
    h₁.get a (indexKey [1, 1]) = .ok .absent := by
  refine ⟨_, _, _, rfl, rfl, ?_⟩
  have hne : [Value.int 2, .int 3] ≠ [] := List.cons_ne_nil _ _
  have hfull : ∀ s ∈ [(([0, -1] : List Int64), Value.int 5), ([1, 2], .int 6), ([0, 2], .int 7)],
      s.1.length = [Value.int 2, .int 3].length := by decide
  have hcells := (dim_cells_independent (h := {}) hne rfl hfull rfl).1
  exact ⟨hcells [-2, -1] (by decide), hcells [1, 2] (by decide), hcells [1, 1] (by decide)⟩

end Heap

end TaskBasic
