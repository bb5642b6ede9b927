import Mathlib.Algebra.GroupWithZero.Nat
import Std.Data.TreeMap.Lemmas
import TaskBasic.Proofs.Machine.Run

/-
Reading and writing through subscripts.

A key stands for a list of single keys: tuples are taken apart, however they are
nested.  The keys lead from one container to the next, and the last one denotes
the slot that is read or written.  Containers are shared, so a store can be seen
through every way that leads to its slot, and through no other.

* `Heap.get_eq_foldlM`, `Heap.set_eq_ok` — reading and storing key by key.
* `Heap.setOne_changes` — a store changes one slot and nothing else.
* `Heap.Changes.foldlM_getOne` — what does not pass through the slot is not
  changed.
* `Heap.subscript_laws` — what can be read after a store.
-/

namespace TaskBasic

open List

variable {index : Int64} {length i : Nat}

theorem exists_of_bind_ok {ε α β : Type} {x : Except ε α} {f : α → Except ε β} {b : β}
    (h : x >>= f = .ok b) : ∃ a, x = .ok a ∧ f a = .ok b := by
  cases x with
  | ok a => exact ⟨a, rfl, h⟩
  | error e => cases h

mutual

/-- The single keys that a key stands for. -/
def Value.leaves : Value → List Value
  | .tuple keys => Value.leavesEach keys
  | key => [key]

/-- The single keys that a list of keys stands for. -/
def Value.leavesEach : List Value → List Value
  | [] => []
  | key :: rest => key.leaves ++ Value.leavesEach rest

end

/-- An index counts from the end if it is negative: of `length` elements it denotes the one at
the place `i`. -/
def Denotes (index : Int64) (length i : Nat) : Prop :=
  -(length : Int) ≤ index.toInt ∧ index.toInt < length ∧
    (i : Int) = if index.toInt < 0 then length + index.toInt else index.toInt

theorem position_eq_ok_iff : position (.int index) length = .ok i ↔ Denotes index length i := by
  simp only [position, Denotes]
  split
  · split <;> simp only [Except.ok.injEq, reduceCtorEq, false_iff] <;> omega
  · split <;> simp only [Except.ok.injEq, reduceCtorEq, false_iff] <;> omega

/-- What is done at a position is done exactly for the indices in range. -/
theorem exists_position_bind {α : Type} {f : Nat → α} :
    (∃ a, (do return f (← position (.int index) length)) = Except.ok (ε := Failure) a) ↔
      -(length : Int) ≤ index.toInt ∧ index.toInt < length := by
  constructor
  · rintro ⟨a, ha⟩
    obtain ⟨i, hi, _⟩ := exists_of_bind_ok ha
    obtain ⟨hlow, hhigh, _⟩ := position_eq_ok_iff.mp hi
    exact ⟨hlow, hhigh⟩
  · rintro ⟨hlow, hhigh⟩
    have hi : Denotes index length
        (if index.toInt < 0 then length + index.toInt else index.toInt).toNat := by
      refine ⟨hlow, hhigh, ?_⟩
      split <;> omega
    rw [position_eq_ok_iff.mpr hi]
    exact ⟨_, rfl⟩

theorem lt_of_position {key : Value} (h : position key length = .ok i) : i < length := by
  cases key with
  | int index =>
    obtain ⟨_, _, hi⟩ := position_eq_ok_iff.mp h
    split at hi <;> omega
  | _ => cases h

/-- Counting from the end stays within 64 bits. -/
theorem toInt_ofNat_add (hlength : length < 2 ^ 63)
    (hneg : index.toInt < 0) : (Int64.ofNat length + index).toInt = length + index.toInt := by
  have hlow := index.le_toInt
  rw [Int64.toInt_add, Int64.toInt_ofNat_of_lt hlength]
  exact Int.bmod_eq_of_le (by omega) (by omega)

/-- A place of an array, or an entry of a dictionary that there is or can be. -/
inductive Slot
  | item (r : ArrayRef) (i : Nat)
  | entry (r : DictRef) (name : String)
deriving DecidableEq

def Slot.container : Slot → Value
  | item r _ => .array r
  | entry r _ => .dict r

/-- What a value refers to is there. -/
def Value.Live (h : Heap) : Value → Prop
  | .array r => r.index < h.arrays.size
  | .dict r => r.index < h.dicts.size
  | _ => True

namespace Heap

/-- What lies in a slot. -/
def at? (h : Heap) : Slot → Option Value
  | .item r i => (h.array r)[i]?
  | .entry r name => (h.dict r)[name]?

/-- The slot that a single key denotes in a container. -/
def slot? (h : Heap) : (object key : Value) → Option Slot
  | .array r, key => (position key (h.array r).size).toOption.map (.item r)
  | .dict r, .str name => some (.entry r name)
  | _, _ => none

/-- What single keys are applied to on the way from an object. -/
def walk (h : Heap) : (object : Value) → (keys : List Value) → List (Value × Value)
  | _, [] => []
  | object, key :: rest =>
    (object, key) :: match h.getOne object key with
      | .ok inner => h.walk inner rest
      | .error _ => []

/-- The containers that a key leads through, the object itself included. -/
def visited (h : Heap) (object key : Value) : List Value :=
  (h.walk object key.leaves).map (·.1)

/-- The slots that a key leads through. -/
def slots (h : Heap) (object key : Value) : List Slot :=
  (h.walk object key.leaves).filterMap fun p => h.slot? p.1 p.2

/-- The heap `h'` is `h` with a value in one slot; arrays do not grow. -/
structure Changes (h : Heap) (s : Slot) (v : Value) (h' : Heap) : Prop where
  written : h'.at? s = some v
  others : ∀ s', s' ≠ s → h'.at? s' = h.at? s'
  sizes : ∀ r, (h'.array r).size = (h.array r).size
  arrays : h'.arrays.size = h.arrays.size
  dicts : h'.dicts.size = h.dicts.size
  functions : h'.functions = h.functions
  promises : h'.promises = h.promises

variable {h h' : Heap} {object key value c v : Value} {keys : List Value} {s : Slot} {r : ArrayRef}

/-! ### Key by key -/

mutual

theorem get_eq_foldlM (h : Heap) (object : Value) :
    (key : Value) → h.get object key = key.leaves.foldlM h.getOne object
  | .tuple keys => by
    rw [get, Value.leaves]
    exact getEach_eq_foldlM h object keys
  | .absent | .int _ | .float _ | .str _ | .array _ | .dict _ | .function _ | .future _ =>
    (bind_pure _).symm

theorem getEach_eq_foldlM (h : Heap) (object : Value) :
    (keys : List Value) → h.getEach object keys = (Value.leavesEach keys).foldlM h.getOne object
  | [] => rfl
  | key :: rest => by
    rw [getEach, Value.leavesEach, List.foldlM_append, ← get_eq_foldlM h object key]
    cases h.get object key with
    | ok inner => exact getEach_eq_foldlM h inner rest
    | error cause => rfl

end

mutual

/-- A store follows all keys but the last one, and stores there. -/
theorem set_eq_ok (object : Value) : (key : Value) → h.set object value key = .ok h' →
    ∃ init last c, key.leaves = init ++ [last] ∧ init.foldlM h.getOne object = .ok c ∧
      h.setOne c last value = .ok h'
  | .tuple keys, hset => by
    rw [set] at hset
    exact setEach_eq_ok object keys hset
  | .absent, hset | .int _, hset | .float _, hset | .str _, hset | .array _, hset | .dict _, hset
  | .function _, hset | .future _, hset => ⟨[], _, object, rfl, rfl, hset⟩

theorem setEach_eq_ok (object : Value) :
    (keys : List Value) → h.setEach object value keys = .ok h' →
    ∃ init last c, Value.leavesEach keys = init ++ [last] ∧
      init.foldlM h.getOne object = .ok c ∧ h.setOne c last value = .ok h'
  | [], hset => by cases hset
  | [key], hset => by
    rw [Value.leavesEach, Value.leavesEach, append_nil]
    rw [setEach] at hset
    exact set_eq_ok object key hset
  | key :: next :: rest, hset => by
    rw [setEach] at hset
    · split at hset
      next inner hget =>
        obtain ⟨init, last, c, hkeys, hinit, hone⟩ := setEach_eq_ok inner (next :: rest) hset
        refine ⟨key.leaves ++ init, last, c, ?_, ?_, hone⟩
        · rw [Value.leavesEach, hkeys, append_assoc]
        · rw [List.foldlM_append, ← get_eq_foldlM, hget]
          exact hinit
      next => cases hset
    · rintro ⟨⟩

end

/-- A way goes on from the container that its beginning leads to. -/
theorem walk_append {init rest : List Value} (hinit : init.foldlM h.getOne object = .ok c) :
    h.walk object (init ++ rest) = h.walk object init ++ h.walk c rest := by
  induction init generalizing object with
  | nil =>
    cases hinit
    rfl
  | cons key init ih =>
    rw [foldlM_cons] at hinit
    obtain ⟨inner, hget, hinit⟩ := exists_of_bind_ok hinit
    simp only [cons_append, walk, hget, ih hinit]

/-! ### One slot -/

theorem slot?_array (hi : position key (h.array r).size = .ok i) :
    h.slot? (.array r) key = some (.item r i) := by
  rw [slot?, hi]
  rfl

theorem container_of_slot? (hs : h.slot? object key = some s) : s.container = object := by
  rw [slot?.eq_def] at hs
  split at hs
  · obtain ⟨i, _, rfl⟩ := Option.map_eq_some_iff.mp hs
    rfl
  · cases hs
    rfl
  · cases hs

/-- A single key reads the slot that it denotes. -/
theorem getOne_of_slot? (hs : h.slot? object key = some s) (hv : h.at? s = some v) :
    h.getOne object key = .ok v := by
  rw [slot?.eq_def] at hs
  split at hs
  next r =>
    obtain ⟨i, hi, rfl⟩ := Option.map_eq_some_iff.mp hs
    rw [at?] at hv
    cases hposition : position key (h.array r).size with
    | error cause => cases hposition ▸ hi
    | ok j =>
      cases hposition ▸ hi
      rw [getOne, hposition]
      exact congrArg (fun o : Option Value => Except.ok (o.getD .absent)) hv
  next r name =>
    cases hs
    rw [at?] at hv
    simp only [getOne, hv]
  next => cases hs

/-- Two heaps are the same to a single key if its slot holds the same in both. -/
theorem getOne_congr (hsizes : ∀ r, (h'.array r).size = (h.array r).size)
    (hs : ∀ s, h.slot? object key = some s → h'.at? s = h.at? s) :
    h'.getOne object key = h.getOne object key := by
  cases object with
  | array r =>
    simp only [getOne, hsizes]
    cases hi : position key (h.array r).size with
    | error cause => rfl
    | ok i =>
      exact congrArg (fun o : Option Value => Except.ok (o.getD .absent)) (hs _ (slot?_array hi))
  | dict r =>
    cases key with
    | str name =>
      have hat : (h'.dict r)[name]? = (h.dict r)[name]? := hs (.entry r name) rfl
      simp only [getOne, hat]
    | _ => rfl
  | _ => rfl

/-! ### Stores -/

theorem getD_modify {α : Type} {xs : Array α} (hi : i < xs.size) (f : α → α) (j : Nat)
    (d : α) : (xs.modify i f)[j]?.getD d = if j = i then f (xs[i]?.getD d) else xs[j]?.getD d := by
  rw [Array.getElem?_modify]
  by_cases hj : j = i
  · rw [if_pos hj.symm, if_pos hj, hj, Array.getElem?_eq_getElem hi]
    rfl
  · rw [if_neg (Ne.symm hj), if_neg hj]

theorem changes_item (hi : i < (h.array r).size) (v : Value) :
    h.Changes (.item r i) v (h.modifyArray r (·.setIfInBounds i v)) := by
  have hr : r.index < h.arrays.size := by
    refine Nat.lt_of_not_le fun hle => ?_
    rw [array, Array.getElem?_eq_none hle] at hi
    exact absurd hi (Nat.not_lt_zero i)
  have harray (r' : ArrayRef) := getD_modify hr (·.setIfInBounds i v) r'.index #[]
  refine ⟨?_, fun s' hne => ?_, fun r' => ?_, Array.size_modify, rfl, rfl, rfl⟩
  · rw [at?, array, modifyArray, harray, if_pos rfl]
    exact Array.getElem?_setIfInBounds_self_of_lt hi
  · cases s' with
    | entry => rfl
    | item r' i' =>
      rw [at?, at?, array, modifyArray, harray]
      split
      next heq =>
        obtain rfl : r' = r := by cases r; cases r'; cases heq; rfl
        refine Array.getElem?_setIfInBounds_ne fun heq => hne ?_
        rw [heq]
      next => rfl
  · rw [array, modifyArray, harray, array]
    split
    next heq => rw [heq, Array.size_setIfInBounds]
    next => rfl

theorem changes_entry {r : DictRef} (hr : r.index < h.dicts.size) (name : String) (v : Value) :
    h.Changes (.entry r name) v (h.modifyDict r (·.insert name v)) := by
  have hdict (r' : DictRef) := getD_modify hr (·.insert name v) r'.index ∅
  refine ⟨?_, fun s' hne => ?_, fun _ => rfl, rfl, Array.size_modify, rfl, rfl⟩
  · rw [at?, dict, modifyDict, hdict, if_pos rfl, Std.TreeMap.getElem?_insert_self]
  · cases s' with
    | item => rfl
    | entry r' name' =>
      rw [at?, at?, dict, modifyDict, hdict]
      split
      next heq =>
        obtain rfl : r' = r := by cases r; cases r'; cases heq; rfl
        rw [Std.TreeMap.getElem?_insert, if_neg]
        · rfl
        · exact fun heq => hne (congrArg _ (Std.LawfulEqCmp.eq_of_compare heq).symm)
      next => rfl

theorem setOne_changes (hc : c.Live h) (hset : h.setOne c key value = .ok h') :
    ∃ s, h.slot? c key = some s ∧ h.Changes s value h' := by
  cases c with
  | array r =>
    rw [setOne] at hset
    obtain ⟨i, hi, hset⟩ := exists_of_bind_ok hset
    cases hset
    exact ⟨.item r i, slot?_array hi, changes_item (lt_of_position hi) value⟩
  | dict r =>
    cases key with
    | str name =>
      cases hset
      exact ⟨.entry r name, rfl, changes_entry hc name value⟩
    | _ => cases hset
  | _ => cases hset

theorem Changes.slot? (hh : h.Changes s v h') : h'.slot? object key = h.slot? object key := by
  rw [Heap.slot?.eq_def, Heap.slot?.eq_def]
  split
  · rw [hh.sizes]
  · rfl
  · rfl

theorem Changes.foldlM_getOne (hh : h.Changes s v h')
    (hs : s ∉ (h.walk object keys).filterMap fun p => h.slot? p.1 p.2) :
    keys.foldlM h'.getOne object = keys.foldlM h.getOne object := by
  induction keys generalizing object with
  | nil => rfl
  | cons key rest ih =>
    rw [walk, filterMap_cons] at hs
    have hone : h'.getOne object key = h.getOne object key := by
      refine getOne_congr hh.sizes fun s' hs' => hh.others s' ?_
      rintro rfl
      simp [hs'] at hs
    rw [foldlM_cons, foldlM_cons, hone]
    cases hget : h.getOne object key with
    | error cause => rfl
    | ok inner =>
      refine ih fun hmem => hs ?_
      simp only [hget]
      split
      · exact hmem
      · exact mem_cons_of_mem _ hmem

/-- A store puts the value where its key leads to, and the key then leads to the value, unless the
way to the slot has led through its container before. -/
theorem set_changes (hlive : ∀ c ∈ h.visited object key, c.Live h)
    (hset : h.set object value key = .ok h') :
    ∃ s, (h.slots object key).getLast? = some s ∧ h.Changes s value h' ∧
      ((h.visited object key).Nodup → h'.get object key = .ok value) := by
  obtain ⟨init, last, c, hleaves, hinit, hone⟩ := set_eq_ok object key hset
  have hwalk : h.walk object key.leaves = h.walk object init ++ [(c, last)] := by
    rw [hleaves, walk_append hinit]
    simp only [walk]
    split <;> rfl
  rw [visited, hwalk, map_append] at hlive ⊢
  obtain ⟨s, hs, hchanges⟩ := setOne_changes (hlive c (mem_append_right _ mem_cons_self)) hone
  refine ⟨s, ?_, hchanges, fun hdistinct => ?_⟩
  · rw [slots, hwalk, filterMap_append]
    simp [hs]
  · -- before its last key the way is in other containers, so it has not changed
    have hbefore : s ∉ (h.walk object init).filterMap fun p => h.slot? p.1 p.2 := by
      intro hmem
      obtain ⟨p, hp, hslot⟩ := mem_filterMap.mp hmem
      have hcontainer : p.1 = c := (container_of_slot? hslot).symm.trans (container_of_slot? hs)
      exact (nodup_append.mp hdistinct).2.2 _ (mem_map_of_mem hp) c mem_cons_self
        hcontainer
    have hlast : h'.getOne c last = .ok value :=
      getOne_of_slot? (hchanges.slot?.trans hs) hchanges.written
    rw [get_eq_foldlM, hleaves, List.foldlM_append, hchanges.foldlM_getOne hbefore, hinit]
    exact congrArg (· >>= pure) hlast

end Heap

/-- A store that fails leaves the heap as it is. -/
theorem Exec.heap_of_setIndex_error {env : Env} {m m' : Machine} {fault : Fault}
    (herror : (execute env .setIndex).run m = .error fault m') : m'.heap = m.heap := by
  have hpop : ∀ {α : Type} {f : Value → Exec α},
      (∀ v x, x.heap = m.heap → ∀ e x', (f v).run x = .error e x' → x'.heap = m.heap) →
        ∀ x, x.heap = m.heap → ∀ e x', (pop >>= f).run x = .error e x' → x'.heap = m.heap := by
    intro α f hf x hx e x' hrun
    simp only [pop, EStateM.run_bind, EStateM.run_get] at hrun
    cases hback : x.task.stack.back? with
    | none =>
      rw [hback] at hrun
      cases hrun
      exact hx
    | some v =>
      simp only [hback, run_modifyTask, EStateM.run_bind, EStateM.run_pure] at hrun
      exact hf v _ (by exact hx) e x' hrun
  rw [execute, andNext, EStateM.run_bind] at herror
  split at herror
  · cases herror
  next hrun =>
    cases herror
    refine hpop (fun v => hpop fun key => hpop fun object x hx e x' hrun => ?_) m rfl _ _ hrun
    simp only [EStateM.run_bind, run_heap, run_ofExcept] at hrun
    -- once there is a new heap, nothing fails
    cases hset : x.heap.set object v key with
    | ok h =>
      rw [hset] at hrun
      cases hrun
    | error cause =>
      rw [hset] at hrun
      cases hrun
      exact hx

namespace Heap

variable {h : Heap} {object : Value}

/-- What can be read after a store, if the containers on the way to its slot are there.  A store
changes one slot, to which its key leads, and nothing else; a store that fails changes nothing.  If
the way to the slot leads through no container twice, the key leads to the new value, and every way
that does not pass through the slot leads where it has led before.  An index of an array is good
from minus the length up to the length and counts from the end if it is negative, which stays
within 64 bits. -/
theorem subscript_laws {key : Value} (hlive : ∀ c ∈ h.visited object key, c.Live h)
    (value : Value) :
    (∀ h', h.set object value key = .ok h' → ∃ s, (h.slots object key).getLast? = some s ∧
      h.Changes s value h' ∧
      ((h.visited object key).Nodup → h'.get object key = .ok value) ∧
      ∀ object' key', s ∉ h.slots object' key' → h'.get object' key' = h.get object' key') ∧
    (∀ env m fault m', (Exec.execute env .setIndex).run m = .error fault m' → m'.heap = m.heap) ∧
    ∀ r index,
      ((∃ v, h.get (.array r) (.int index) = .ok v) ↔
        -((h.array r).size : Int) ≤ index.toInt ∧ index.toInt < (h.array r).size) ∧
      ((∃ h', h.set (.array r) value (.int index) = .ok h') ↔
        -((h.array r).size : Int) ≤ index.toInt ∧ index.toInt < (h.array r).size) ∧
      (∀ i, Denotes index (h.array r).size i →
        ∃ v, h.at? (.item r i) = some v ∧ h.get (.array r) (.int index) = .ok v) ∧
      ((h.array r).size < 2 ^ 63 → index.toInt < 0 →
        (Int64.ofNat (h.array r).size + index).toInt = (h.array r).size + index.toInt) := by
  refine ⟨fun h' hset => ?_, fun _ _ _ _ => Exec.heap_of_setIndex_error, fun r index => ?_⟩
  · obtain ⟨s, hs, hchanges, hread⟩ := set_changes hlive hset
    refine ⟨s, hs, hchanges, hread, fun object' key' hother => ?_⟩
    rw [get_eq_foldlM, get_eq_foldlM, hchanges.foldlM_getOne hother]
  · refine ⟨exists_position_bind, exists_position_bind, fun i hi => ?_,
      fun hlength hneg => toInt_ofNat_add hlength hneg⟩
    have hposition := position_eq_ok_iff.mpr hi
    have hv : h.at? (.item r i) = some ((h.array r)[i]?.getD .absent) := by
      simp only [at?, Array.getElem?_eq_getElem (lt_of_position hposition), Option.getD_some]
    exact ⟨_, hv, getOne_of_slot? (slot?_array hposition) hv⟩

/-- An array whose two elements are the same array. -/
def shared : Heap :=
  { arrays := #[#[.array ⟨1⟩, .array ⟨1⟩], #[.int 1, .int 2]] }

/-- A store through the one element, at an index from the end, is read back; the other slot of the
inner array, read through the other element, keeps its value. -/
theorem shared_subscript_laws :
    (∀ c ∈ shared.visited (.array ⟨0⟩) (.tuple [.int 0, .int (-1)]), c.Live shared) ∧
    ∃ h', shared.set (.array ⟨0⟩) (.int 7) (.tuple [.int 0, .int (-1)]) = .ok h' ∧
      h'.get (.array ⟨0⟩) (.tuple [.int 0, .int (-1)]) = .ok (.int 7) ∧
      h'.get (.array ⟨0⟩) (.tuple [.int 1, .int 0]) =
        shared.get (.array ⟨0⟩) (.tuple [.int 1, .int 0]) := by
  have hway : shared.visited (.array ⟨0⟩) (.tuple [.int 0, .int (-1)]) =
    [.array ⟨0⟩, .array ⟨1⟩] := rfl
  have hlive : ∀ c ∈ shared.visited (.array ⟨0⟩) (.tuple [.int 0, .int (-1)]),
      c.Live shared := by
    rw [hway, forall_mem_cons, forall_mem_singleton]
    exact ⟨Nat.zero_lt_two, Nat.one_lt_two⟩
  obtain ⟨hset, -, -⟩ := subscript_laws hlive (.int 7)
  obtain ⟨s, hs, hchanges, hread, hother⟩ := hset _ rfl
  obtain rfl : s = .item ⟨1⟩ 1 := by
    cases hs
    rfl
  refine ⟨hlive, _, rfl, hread ?_, hother _ _ ?_⟩
  · simp [hway]
  · show _ ∉ [Slot.item ⟨0⟩ 1, .item ⟨1⟩ 0]
    decide

end Heap

end TaskBasic
