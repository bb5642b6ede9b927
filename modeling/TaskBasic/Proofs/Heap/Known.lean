import Std.Data.TreeMap.Lemmas
import TaskBasic.Builtin

/-
The functions that values refer to, and the failures that operations have.

`Value.Known n` says that a value refers to none but the first `n` functions of
the heap, and `Heap.Known n` that all values in the heap do so.  No operation
makes a reference to a function of its own, so what is known stays known; and
no operation fails for one of the reasons that only broken byte code or a broken
scheduler can have (`Failure.isOrdinary`).  `Gives` states both of the result of
an operation.
-/

namespace TaskBasic

variable {α : Type} {v value : Value} {items : Array Value}

/-! ### Failures -/

/-- True for the failures that come neither from broken byte code nor from a task that goes on
too early. -/
def Failure.isOrdinary : Failure → Bool
  | stackUnderflow | noFrame | invalidSlot _ | invalidConstant _ | notAName _ | outsideCode
  | unknownOpcode _ | truncatedInstruction | stillPending => false
  | _ => true

def Fault.isOrdinary : Fault → Bool
  | failure cause => cause.isOrdinary
  | _ => true

/-- The result has the property `Q`, or there is none for an ordinary reason. -/
def Gives {α : Type} (Q : α → Prop) : Except Failure α → Prop
  | .ok a => Q a
  | .error cause => cause.isOrdinary = true

/-- The same for operations that can have other faults. -/
def GivesOrFaults {α : Type} (Q : α → Prop) : Except Fault α → Prop
  | .ok a => Q a
  | .error fault => fault.isOrdinary = true

section

variable {α β : Type} {P Q : α → Prop} {R : β → Prop}
variable {r : Except Failure α}

theorem Gives.result {a : α} (h : Gives P r) (hr : r = .ok a) : P a := by
  rwa [hr] at h

theorem Gives.ordinary {cause : Failure} (h : Gives P r)
    (hr : r = .error cause) : cause.isOrdinary = true := by
  rwa [hr] at h

theorem Gives.mono (h : Gives P r) (hPQ : ∀ a, P a → Q a) : Gives Q r := by
  cases r with
  | ok a => exact hPQ a h
  | error cause => exact h

theorem Gives.map {f : α → β} (h : Gives P r) (hf : ∀ a, P a → R (f a)) : Gives R (r.map f) := by
  cases r with
  | ok a => exact hf a h
  | error cause => exact h

theorem Gives.bind {f : α → Except Failure β} (h : Gives P r)
    (hf : ∀ a, P a → Gives R (f a)) : Gives R (r >>= f) := by
  cases r with
  | ok a => exact hf a h
  | error cause => exact h

theorem Gives.orFault (h : Gives P r) : GivesOrFaults P (Heap.orFault r) := by
  cases r with
  | ok a | error cause => exact h

end

/-- What comes out of a list of computations came out of one of them. -/
theorem mem_of_mapM_ok {ε β : Type} {f : α → Except ε β} {xs : List α} {ys : List β}
    (h : xs.mapM f = .ok ys) : ∀ y ∈ ys, ∃ x ∈ xs, f x = .ok y := by
  induction xs generalizing ys with
  | nil =>
    cases h
    nofun
  | cons x xs ih =>
    rw [List.mapM_cons] at h
    cases hx : f x with
    | error e =>
      rw [hx] at h
      cases h
    | ok y =>
      rw [hx] at h
      cases hxs : xs.mapM f with
      | error e =>
        rw [hxs] at h
        cases h
      | ok rest =>
        rw [hxs] at h
        cases h
        intro z hz
        rcases List.mem_cons.mp hz with rfl | hz
        · exact ⟨x, List.mem_cons_self .., hx⟩
        · obtain ⟨w, hw, hz⟩ := ih hxs z hz
          exact ⟨w, List.mem_cons_of_mem _ hw, hz⟩

/-! ### Numbers -/

namespace Number

theorem gives_exact (n : Int) : Gives (fun _ => True) (exact n) := by
  rw [exact]
  split <;> trivial

theorem gives_combine (onInts : Int → Int → Int) (onDoubles : Double → Double → Double)
    (a b : Number) : Gives (fun _ => True) (combine onInts onDoubles a b) := by
  rw [combine.eq_def]
  split
  · exact gives_exact _
  · trivial

theorem gives_compare (op : BinaryOp) (a b : Number) : Gives (fun _ => True) (compare op a b) := by
  rw [compare]
  split
  · trivial
  · split <;> trivial

theorem gives_binary (op : BinaryOp) (a b : Number) : Gives (fun _ => True) (binary op a b) := by
  cases op with
  | add | sub | mul => exact gives_combine _ _ a b
  | div =>
    rw [binary, divide]
    split <;> trivial
  | mod =>
    rw [binary, modulo.eq_def]
    split <;> split <;> trivial
  | eq | ne => trivial
  | lt | le | gt | ge => exact (gives_compare _ a b).map fun _ h => h

theorem gives_negate (a : Number) : Gives (fun _ => True) a.negate := by
  cases a with
  | int n => exact gives_exact _
  | float x => trivial

end Number

/-! ### Values and heaps that refer to known functions -/

/-- The value refers to none but the first `n` functions. -/
inductive Value.Known (n : Nat) : Value → Prop
  | absent : Known n .absent
  | int {k : Int64} : Known n (.int k)
  | float {x : Double} : Known n (.float x)
  | str {s : String} : Known n (.str s)
  | array {r : ArrayRef} : Known n (.array r)
  | dict {r : DictRef} : Known n (.dict r)
  | future {p : PromiseRef} : Known n (.future p)
  | function {r : FunctionRef} : r.index < n → Known n (.function r)
  | tuple {items : List Value} : (∀ v ∈ items, Known n v) → Known n (.tuple items)

theorem Value.Known.mono {n n' : Nat} (h : v.Known n) (hle : n ≤ n') : v.Known n' := by
  induction h with
  | function h => exact .function (Nat.lt_of_lt_of_le h hle)
  | tuple _ ih => exact .tuple ih
  | absent => exact .absent
  | int => exact .int
  | float => exact .float
  | str => exact .str
  | array => exact .array
  | dict => exact .dict
  | future => exact .future

theorem Number.toValue_known (n : Nat) (x : Number) : x.toValue.Known n := by
  cases x with
  | int k => exact .int
  | float x => exact .float

def Dict.Known (n : Nat) (d : Dict) : Prop :=
  ∀ (name : String) v, d[name]? = some v → v.Known n

namespace Dict

variable {n n' : Nat} {d : Dict}

theorem Known.mono (h : Known n d) (hle : n ≤ n') : Known n' d :=
  fun name v hv => (h name v hv).mono hle

theorem known_empty (n : Nat) : Known n ∅ := by
  intro name v hv
  rw [Std.TreeMap.getElem?_emptyc] at hv
  cases hv

theorem Known.insert (h : Known n d) (name : String) (hv : v.Known n) :
    Known n (d.insert name v) := by
  intro other w hw
  rw [Std.TreeMap.getElem?_insert] at hw
  split at hw
  · cases hw
    exact hv
  · exact h other w hw

theorem Known.merge {entries : Dict} (h : Known n d) (he : Known n entries) :
    Known n (entries.foldl (fun d name v => d.insert name v) d) := by
  rw [Std.TreeMap.foldl_eq_foldl_toList]
  have hall : ∀ p ∈ entries.toList, p.2.Known n := fun p hp =>
    he p.1 p.2 (Std.TreeMap.mem_toList_iff_getElem?_eq_some.mp hp)
  generalize entries.toList = ps at hall
  induction ps generalizing d with
  | nil => exact h
  | cons p ps ih =>
    exact ih (h.insert p.1 (hall p (List.mem_cons_self ..)))
      fun q hq => hall q (List.mem_cons_of_mem _ hq)

end Dict

/-- The value that a promise is resolved with is known. -/
def Promise.Known (n : Nat) (p : Promise) : Prop :=
  ∀ v, p.state = .resolved v → v.Known n

namespace Promise

variable {n n' : Nat} {p : Promise}

theorem Known.mono (h : p.Known n) (hle : n ≤ n') : p.Known n' :=
  fun v hv => (h v hv).mono hle

theorem known_pending (n : Nat) : ({} : Promise).Known n := nofun

theorem known_ofValue (hv : v.Known n) : (Promise.ofValue v).Known n := by
  rintro _ ⟨⟩
  exact hv

theorem Known.observe (h : p.Known n) : p.observe.Known n := by
  rw [Promise.observe]
  split <;> exact h

theorem Known.settle (h : p.Known n) {outcome : Except String Value}
    (ho : ∀ v, outcome = .ok v → v.Known n) : (p.settle outcome).Known n := by
  rw [Promise.settle.eq_def]
  split
  · rintro _ ⟨⟩
    exact ho _ rfl
  · nofun
  · exact h

theorem Known.outcome (h : p.Known n) (ho : p.outcome? = some (.ok v)) : v.Known n := by
  rw [outcome?] at ho
  split at ho
  · cases ho
  · cases ho
    exact h _ (by assumption)
  · cases ho

end Promise

structure Heap.Known (n : Nat) (h : Heap) : Prop where
  arrays : ∀ items ∈ h.arrays, ∀ v ∈ items, v.Known n
  dicts : ∀ d ∈ h.dicts, d.Known n
  promises : ∀ p ∈ h.promises, p.Known n

theorem forall_mem_modify {xs : Array α} {k : Nat} {f : α → α} {P : α → Prop}
    (h : ∀ x ∈ xs, P x) (hf : ∀ x, P x → P (f x)) : ∀ x ∈ xs.modify k f, P x := by
  intro x hx
  obtain ⟨j, hj, rfl⟩ := Array.getElem_of_mem hx
  rw [Array.getElem_modify]
  split
  · exact hf _ (h _ (Array.getElem_mem _))
  · exact h _ (Array.getElem_mem _)

namespace Heap

variable {n n' : Nat} {h : Heap}

theorem Known.mono (hh : h.Known n) (hle : n ≤ n') : h.Known n' where
  arrays items hi v hv := (hh.arrays items hi v hv).mono hle
  dicts d hd := (hh.dicts d hd).mono hle
  promises p hp := (hh.promises p hp).mono hle

theorem known_empty (n : Nat) : ({} : Heap).Known n :=
  ⟨nofun, nofun, nofun⟩

theorem Known.array (hh : h.Known n) (r : ArrayRef) : ∀ v ∈ h.array r, v.Known n := by
  intro v hv
  rw [Heap.array] at hv
  cases hr : h.arrays[r.index]? with
  | none =>
    rw [hr] at hv
    cases Array.not_mem_empty v hv
  | some items =>
    rw [hr] at hv
    exact hh.arrays items (Array.mem_of_getElem? hr) v hv

theorem Known.dict (hh : h.Known n) (r : DictRef) : (h.dict r).Known n := by
  rw [Heap.dict]
  cases hr : h.dicts[r.index]? with
  | none => exact Dict.known_empty n
  | some d => exact hh.dicts d (Array.mem_of_getElem? hr)

theorem Known.promise (hh : h.Known n) (p : PromiseRef) : (h.promise p).Known n := by
  rw [Heap.promise]
  cases hp : h.promises[p.index]? with
  | none => nofun
  | some promise => exact hh.promises promise (Array.mem_of_getElem? hp)

theorem Known.newArray (hh : h.Known n) (hi : ∀ v ∈ items, v.Known n) :
    (h.newArray items).1.Known n :=
  ⟨Array.forall_mem_push.mpr ⟨hi, hh.arrays⟩, hh.dicts, hh.promises⟩

theorem Known.newDict (hh : h.Known n) {entries : Dict} (he : entries.Known n) :
    (h.newDict entries).1.Known n :=
  ⟨hh.arrays, Array.forall_mem_push.mpr ⟨he, hh.dicts⟩, hh.promises⟩

theorem Known.newPromise (hh : h.Known n) {p : Promise} (hp : p.Known n) :
    (h.newPromise p).1.Known n :=
  ⟨hh.arrays, hh.dicts, Array.forall_mem_push.mpr ⟨hp, hh.promises⟩⟩

theorem Known.modifyArray (hh : h.Known n) {r : ArrayRef} {f : Array Value → Array Value}
    (hf : ∀ items : Array Value, (∀ v ∈ items, v.Known n) → ∀ v ∈ f items, v.Known n) :
    (h.modifyArray r f).Known n :=
  ⟨forall_mem_modify hh.arrays hf, hh.dicts, hh.promises⟩

theorem Known.modifyDict (hh : h.Known n) {r : DictRef} {f : Dict → Dict}
    (hf : ∀ d : Dict, d.Known n → (f d).Known n) : (h.modifyDict r f).Known n :=
  ⟨hh.arrays, forall_mem_modify hh.dicts hf, hh.promises⟩

theorem Known.modifyPromise (hh : h.Known n) {p : PromiseRef} {f : Promise → Promise}
    (hf : ∀ q : Promise, q.Known n → (f q).Known n) : (h.modifyPromise p f).Known n :=
  ⟨hh.arrays, hh.dicts, forall_mem_modify hh.promises hf⟩

/-! ### Operators -/

structure Kept (h h' : Heap) : Prop where
  functions : h'.functions = h.functions
  promises : h'.promises = h.promises

theorem Kept.trans {h' h'' : Heap} (h1 : Kept h h') (h2 : Kept h' h'') : Kept h h'' :=
  ⟨h2.functions.trans h1.functions, h2.promises.trans h1.promises⟩

/-- A heap that has kept its functions and promises, and a value, both known. -/
def Yield (n : Nat) (h : Heap) (r : Heap × Value) : Prop :=
  r.1.Known n ∧ Kept h r.1 ∧ r.2.Known n

theorem gives_numeric (op : BinaryOp) (a b : Value) : Gives (Value.Known n) (numeric op a b) := by
  rw [numeric]
  split
  · exact (Number.gives_binary op _ _).map fun x _ => x.toValue_known n
  · rfl

theorem gives_compare (op : BinaryOp) (a b : Value) : Gives (fun _ => True) (compare op a b) := by
  rw [compare.eq_def]
  split
  · split <;> trivial
  · split
    · exact Number.gives_compare op _ _
    · rfl

theorem gives_add (hh : h.Known n) (a b : Value) : Gives (Yield n h) (h.add a b) := by
  rw [add.eq_def]
  split
  · exact ⟨hh, ⟨rfl, rfl⟩, .str⟩
  · exact ⟨hh, ⟨rfl, rfl⟩, .str⟩
  · refine ⟨hh.newArray fun v hv => ?_, ⟨rfl, rfl⟩, .array⟩
    exact (Array.mem_append.mp hv).elim (hh.array _ v) (hh.array _ v)
  · exact (gives_numeric .add a b).map fun v hv => ⟨hh, ⟨rfl, rfl⟩, hv⟩

theorem gives_binary (hh : h.Known n) (op : BinaryOp) (a b : Value) :
    GivesOrFaults (Yield n h) (h.binary op a b) := by
  cases op with
  | add => exact (gives_add hh a b).orFault
  | eq | ne =>
    rw [binary]
    split
    · exact ⟨hh, ⟨rfl, rfl⟩, .int⟩
    · rfl
  | lt | le | gt | ge =>
    exact ((gives_compare _ a b).map (R := Yield n h) fun _ _ => ⟨hh, ⟨rfl, rfl⟩, .int⟩).orFault
  | sub | mul | div | mod =>
    exact ((gives_numeric _ a b).map (R := Yield n h) fun _ hv => ⟨hh, ⟨rfl, rfl⟩, hv⟩).orFault

theorem gives_negate (a : Value) : Gives (Value.Known n) (negate a) := by
  rw [negate]
  split
  · exact (Number.gives_negate _).map fun x _ => x.toValue_known n
  · rfl

/-! ### Subscripts -/

theorem gives_position (key : Value) (length : Nat) :
    Gives (fun _ => True) (position key length) := by
  rw [position.eq_def]
  split
  next i =>
    generalize (if i.toInt < 0 then (length : Int) + i.toInt else i.toInt) = resolved
    dsimp only
    split <;> trivial
  next => rfl

theorem gives_length (v : Value) : Gives (fun _ => True) (h.length v) := by
  cases v <;> trivial

theorem known_getD (hi : ∀ v ∈ items, v.Known n) (i : Nat) :
    (items[i]?.getD .absent).Known n := by
  cases hv : items[i]? with
  | none => exact .absent
  | some v => exact hi v (Array.mem_of_getElem? hv)

theorem gives_getOne (hh : h.Known n) (object key : Value) :
    Gives (Value.Known n) (h.getOne object key) := by
  rw [getOne.eq_def]
  split
  · exact (gives_position _ _).bind fun i _ => known_getD (hh.array _) i
  · split
    · split
      · exact hh.dict _ _ _ (by assumption)
      · rfl
    · rfl
  · refine (gives_position _ _).bind fun i _ => ?_
    split
    · exact .str
    · exact .absent
  · rfl

mutual

theorem gives_get (hh : h.Known n) {object : Value} (ho : object.Known n) :
    (key : Value) → Gives (Value.Known n) (h.get object key)
  | .tuple keys => by
    rw [get]
    exact gives_getEach hh ho keys
  | .absent | .int _ | .float _ | .str _ | .array _ | .dict _ | .function _ | .future _ =>
    gives_getOne hh object _

theorem gives_getEach (hh : h.Known n) {object : Value} (ho : object.Known n) :
    (keys : List Value) → Gives (Value.Known n) (h.getEach object keys)
  | [] => ho
  | key :: rest => by
    have hget := gives_get hh ho key
    rw [getEach]
    split
    next heq => exact gives_getEach hh (hget.result heq) rest
    next heq => exact hget.ordinary heq

end

/-- A heap that has kept its functions and promises, known as before. -/
def Update (n : Nat) (h h' : Heap) : Prop :=
  h'.Known n ∧ Kept h h'

theorem gives_setOne (hh : h.Known n) (object key : Value) (hv : value.Known n) :
    Gives (Update n h) (h.setOne object key value) := by
  rw [setOne.eq_def]
  split
  · refine (gives_position _ _).bind fun i _ =>
      ⟨hh.modifyArray fun items hi v hmem => ?_, ⟨rfl, rfl⟩⟩
    obtain ⟨j, hj, rfl⟩ := Array.getElem_of_mem hmem
    rw [Array.size_setIfInBounds] at hj
    rw [Array.getElem_setIfInBounds hj]
    split
    · exact hv
    · exact hi _ (Array.getElem_mem _)
  · split
    · exact ⟨hh.modifyDict fun d hd => hd.insert _ hv, ⟨rfl, rfl⟩⟩
    · rfl
  · rfl
  · rfl

mutual

theorem gives_set (hh : h.Known n) {object : Value} (ho : object.Known n)
    (hv : value.Known n) : (key : Value) → Gives (Update n h) (h.set object value key)
  | .tuple keys => by
    rw [set]
    exact gives_setEach hh ho hv keys
  | .absent | .int _ | .float _ | .str _ | .array _ | .dict _ | .function _ | .future _ =>
    gives_setOne hh object _ hv

theorem gives_setEach (hh : h.Known n) {object : Value} (ho : object.Known n)
    (hv : value.Known n) : (keys : List Value) → Gives (Update n h) (h.setEach object value keys)
  | [] => rfl
  | [key] => by
    rw [setEach]
    exact gives_set hh ho hv key
  | key :: next :: rest => by
    have hget := gives_get hh ho key
    rw [setEach]
    · split
      next heq => exact gives_setEach hh (hget.result heq) hv (next :: rest)
      next heq => exact hget.ordinary heq
    · nofun

end

theorem gives_iterValue (hh : h.Known n) {collection : Value} (hc : collection.Known n)
    (index : Value) : Gives (Value.Known n) (h.iterValue collection index) := by
  cases hc with
  | dict =>
    refine (gives_position _ _).bind fun i _ => ?_
    split
    · exact .str
    · exact .absent
  | @tuple items hitems =>
    refine (gives_position _ _).bind fun i _ => ?_
    cases hi : items[i]? with
    | none => exact .absent
    | some v => exact hitems v (List.mem_of_getElem? hi)
  | array => exact gives_get hh .array index
  | str => exact gives_get hh .str index
  | absent | int | float | future | function => rfl

theorem gives_replicateM {make : Heap → Except Failure (Heap × Value)}
    (hmake : ∀ h : Heap, h.Known n → Gives (Yield n h) (make h)) (count : Nat)
    (hh : h.Known n) (hi : ∀ v ∈ items, v.Known n) :
    Gives (fun r => Update n h r.1 ∧ ∀ v ∈ r.2, v.Known n) (replicateM make count h items) := by
  induction count generalizing h items with
  | zero => exact ⟨⟨hh, ⟨rfl, rfl⟩⟩, hi⟩
  | succ count ih =>
    have hone := hmake h hh
    rw [replicateM]
    split
    next h' item heq =>
      obtain ⟨hh', hfs, hitem⟩ := hone.result heq
      exact (ih hh' (Array.forall_mem_push.mpr ⟨hitem, hi⟩)).mono fun r hr =>
        ⟨⟨hr.1.1, hfs.trans hr.1.2⟩, hr.2⟩
    next heq => exact hone.ordinary heq

theorem gives_dim (sizes : List Value) {h : Heap} (hh : h.Known n) :
    Gives (Yield n h) (h.dim sizes) := by
  induction sizes generalizing h with
  | nil => exact ⟨hh.newArray nofun, ⟨rfl, rfl⟩, .array⟩
  | cons size rest ih =>
    rw [dim.eq_def]
    dsimp only
    split
    next k =>
      split
      · rfl
      · cases rest with
        | nil =>
          refine ⟨hh.newArray fun v hv => ?_, ⟨rfl, rfl⟩, .array⟩
          rw [Array.eq_of_mem_replicate hv]
          exact .absent
        | cons inner more =>
          have hnone : ∀ v ∈ (#[] : Array Value), v.Known n := nofun
          have hmany := gives_replicateM (fun h hh => ih hh) k.toInt.toNat hh hnone
          dsimp only
          split
          next h' items heq =>
            obtain ⟨⟨hh', hfs⟩, hitems⟩ := hmany.result heq
            exact ⟨hh'.newArray hitems, ⟨hfs.functions, hfs.promises⟩, .array⟩
          next heq => exact hmany.ordinary heq
    next => rfl

end Heap

theorem keyArguments_known {n : Nat} {key : Value} (hk : key.Known n) :
    ∀ v ∈ keyArguments key, v.Known n := by
  cases hk with
  | tuple hitems => exact hitems
  | _ =>
    intro v hv
    rw [List.mem_singleton.mp hv]
    constructor <;> assumption

/-! ### Builtin functions -/

namespace Builtin

variable {n : Nat} {h : Heap}

/-- What a builtin function gives back is known. -/
def Result.Known (n : Nat) : Result → Prop
  | .ready v => v.Known n
  | .after _ => True

theorem gives_exitCode (v : Value) : Gives (fun _ => True) (exitCode v) := by
  rw [exitCode.eq_def]
  split
  · split <;> trivial
  · rfl

theorem gives_apply (b : Builtin) (hh : h.Known n) (now : Nat) {args : List Value}
    (ha : ∀ v ∈ args, v.Known n) :
    GivesOrFaults (fun r => Heap.Update n h r.1 ∧ r.2.Known n) (b.apply h now args) := by
  rw [apply.eq_def]
  split
  · exact ⟨⟨hh, ⟨rfl, rfl⟩⟩, .str⟩
  · split
    · exact ⟨⟨hh, ⟨rfl, rfl⟩⟩, .int⟩
    · rfl
  · split
    · exact ⟨⟨hh, ⟨rfl, rfl⟩⟩, .float⟩
    · rfl
  · exact ((Heap.gives_length _).map fun _ _ => ⟨⟨hh, ⟨rfl, rfl⟩⟩, .int⟩).orFault
  · exact ⟨⟨hh, ⟨rfl, rfl⟩⟩, .str⟩
  · split
    · exact ⟨⟨hh.modifyArray fun items hi => Array.forall_mem_push.mpr ⟨ha _ (by simp), hi⟩,
        ⟨rfl, rfl⟩⟩, .absent⟩
    · rfl
  · split
    · refine ⟨⟨hh.newArray fun v hv => ?_, ⟨rfl, rfl⟩⟩, .array⟩
      obtain ⟨key, _, rfl⟩ := List.mem_map.mp (List.mem_toArray.mp hv)
      exact .str
    · rfl
  · split
    · exact ⟨⟨hh, ⟨rfl, rfl⟩⟩, .absent⟩
    · rfl
  · exact ⟨⟨hh, ⟨rfl, rfl⟩⟩, .float⟩
  · split
    · exact ⟨⟨hh, ⟨rfl, rfl⟩⟩, trivial⟩
    · rfl
  · rfl
  · split
    · rfl
    next heq => exact (gives_exitCode _).ordinary heq
  · rfl

theorem gives_call (b : Builtin) (hh : h.Known n) (now : Nat) {args : List Value}
    (ha : ∀ v ∈ args, v.Known n) :
    GivesOrFaults (fun r => Heap.Update n h r.1 ∧ r.2.Known n) (b.call h now args) := by
  rw [call]
  split
  · exact gives_apply b hh now ha
  · rfl

end Builtin

/-! ### Every heap is known -/

theorem exists_bound {P : Nat → α → Prop}
    (hmono : ∀ {n n' a}, P n a → n ≤ n' → P n' a) {xs : List α} (h : ∀ a ∈ xs, ∃ n, P n a) :
    ∃ n, ∀ a ∈ xs, P n a := by
  induction xs with
  | nil => exact ⟨0, nofun⟩
  | cons a xs ih =>
    obtain ⟨n, hn⟩ := h a (List.mem_cons_self ..)
    obtain ⟨n', hn'⟩ := ih fun b hb => h b (List.mem_cons_of_mem _ hb)
    refine ⟨max n n', fun b hb => ?_⟩
    rcases List.mem_cons.mp hb with rfl | hb
    · exact hmono hn (Nat.le_max_left n n')
    · exact hmono (hn' b hb) (Nat.le_max_right n n')

theorem Value.exists_known : (v : Value) → ∃ n, v.Known n
  | .absent => ⟨0, .absent⟩
  | .int _ => ⟨0, .int⟩
  | .float _ => ⟨0, .float⟩
  | .str _ => ⟨0, .str⟩
  | .array _ => ⟨0, .array⟩
  | .dict _ => ⟨0, .dict⟩
  | .future _ => ⟨0, .future⟩
  | .function r => ⟨r.index + 1, .function (Nat.lt_succ_self _)⟩
  | .tuple items =>
    have ⟨n, hn⟩ := exists_bound (P := Value.Known) (fun h hle => h.mono hle)
      fun v (_ : v ∈ items) => v.exists_known
    ⟨n, .tuple hn⟩

theorem Dict.exists_known (d : Dict) : ∃ n, Dict.Known n d := by
  obtain ⟨n, hn⟩ := exists_bound (P := fun n (p : String × Value) => p.2.Known n)
    (fun h hle => h.mono hle) fun p (_ : p ∈ d.toList) => p.2.exists_known
  exact ⟨n, fun name v hv => hn (name, v) (Std.TreeMap.mem_toList_iff_getElem?_eq_some.mpr hv)⟩

theorem Promise.exists_known (p : Promise) : ∃ n, p.Known n := by
  cases hp : p.state with
  | resolved v =>
    obtain ⟨n, hn⟩ := v.exists_known
    refine ⟨n, fun w hw => ?_⟩
    rw [hp] at hw
    cases hw
    exact hn
  | pending | rejected _ =>
    refine ⟨0, fun w hw => ?_⟩
    rw [hp] at hw
    cases hw

/-- A heap and some values refer to finitely many functions. -/
theorem Heap.exists_known (h : Heap) (vs : List Value) :
    ∃ n, h.Known n ∧ ∀ v ∈ vs, v.Known n := by
  obtain ⟨a, ha⟩ := exists_bound (P := fun n (items : Array Value) => ∀ v ∈ items, v.Known n)
    (fun h hle v hv => (h v hv).mono hle) fun items (_ : items ∈ h.arrays.toList) => by
      obtain ⟨n, hn⟩ := exists_bound (P := Value.Known) (fun h hle => h.mono hle)
        fun v (_ : v ∈ items.toList) => v.exists_known
      exact ⟨n, fun v hv => hn v (Array.mem_toList_iff.mpr hv)⟩
  obtain ⟨b, hb⟩ := exists_bound (P := Dict.Known) (fun h hle => h.mono hle)
    fun d (_ : d ∈ h.dicts.toList) => Dict.exists_known d
  obtain ⟨c, hc⟩ := exists_bound (P := Promise.Known) (fun h hle => h.mono hle)
    fun p (_ : p ∈ h.promises.toList) => p.exists_known
  obtain ⟨n, hn⟩ := exists_bound (P := Value.Known) (fun h hle => h.mono hle)
    fun v (_ : v ∈ vs) => v.exists_known
  -- the largest of the four bounds serves them all
  have hbounds : a ≤ max (max a b) (max c n) ∧ b ≤ max (max a b) (max c n) ∧
      c ≤ max (max a b) (max c n) ∧ n ≤ max (max a b) (max c n) := by omega
  obtain ⟨hle1, hle2, hle3, hle4⟩ := hbounds
  refine ⟨max (max a b) (max c n), ⟨?_, ?_, ?_⟩, fun v hv => (hn v hv).mono hle4⟩
  · intro items hi v hv
    exact (ha items (Array.mem_toList_iff.mpr hi) v hv).mono hle1
  · intro d hd
    exact (hb d (Array.mem_toList_iff.mpr hd)).mono hle2
  · intro p hp
    exact (hc p (Array.mem_toList_iff.mpr hp)).mono hle3

end TaskBasic
