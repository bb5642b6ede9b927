import TaskBasic.Code.OfExpr
import TaskBasic.Heap.Operate
import TaskBasic.Heap.Subscript

/-
What expressions mean, without code.

`Expr.value` evaluates an expression from left to right over a heap.  It knows
nothing of constants that are computed beforehand, and looks at the right
operand of `and` and `or` only if the left one leaves the answer open.

An expression that calls, spawns or awaits something has no value by itself,
and neither has a subscript of a function, which is a call: there the
evaluation is `beyond` what expressions alone can say.

* `Expr.value_of_fold?` — what is computed beforehand is the value.
* `Expr.value_grows` — evaluation makes new arrays and dictionaries, and leaves
  all that there was as it was; it does not end the program.
-/

namespace TaskBasic

variable {x : Number} {h h' : Heap} {read : String → Except Failure Value}

/-- Why an evaluation has no value. -/
inductive Stop
  | fault (e : Fault)
  /-- It comes to a call, or to something that other tasks have a part in. -/
  | beyond

/-- An evaluation, which can make new things in the heap. -/
abbrev Eval := EStateM Stop Heap

namespace Eval

/-- The value of a computation that can fail. -/
def ofExcept {α : Type} : Except Failure α → Eval α
  | .ok a => return a
  | .error cause => throw (.fault (.failure cause))

/-- Makes something new in the heap. -/
def alloc {α : Type} (make : Heap → Heap × α) : Eval α :=
  modifyGet fun h => let (h, a) := make h; (a, h)

/-- A binary operator. -/
def binary (op : BinaryOp) (a b : Value) : Eval Value := do
  match (← get).binary op a b with
  | .ok (h, v) =>
    set h
    return v
  | .error e => throw (.fault e)

/-- Whether a value counts as true. -/
def isTrue (v : Value) : Eval Bool := do
  return (← get).isTrue v

/-- The element that one key after the other leads to. -/
def subscript (object : Value) (keys : List Value) : Eval Value := do
  if object.kind = .function then throw .beyond
  else
    let h ← get
    ofExcept (keys.foldlM (fun inner key => h.get inner key) object)

/-- The dictionary with the given entries.  Of two entries with one key, the later one counts. -/
def dictionary (entries : List (Value × Value)) : Except Failure Dict :=
  entries.foldlM (fun (dict : Dict) (key, value) =>
    match key with
    | .str name => .ok (dict.insert name value)
    | other => .error (.keyKind other.kind)) ∅

end Eval

mutual

/-- The value of an expression, where `read` gives the values of variables. -/
def Expr.value (read : String → Except Failure Value) : Expr → Eval Value
  | .int n => return .int n
  | .float x => return .float x
  | .str s => return .str s
  | .absent => return .absent
  | .fstring parts => do
    let vs ← FPart.values read parts
    let h ← get
    return .str (String.join (vs.map h.text))
  | .var name => Eval.ofExcept (read name)
  | .binary op a b => do
    let x ← a.value read
    let y ← b.value read
    Eval.binary op x y
  | .neg a => do
    let x ← a.value read
    Eval.ofExcept (Heap.negate x)
  | .not a => do
    let x ← a.value read
    return .ofBool (!(← Eval.isTrue x))
  | .and a b => do
    let x ← a.value read
    if ← Eval.isTrue x then
      let y ← b.value read
      return .ofBool (← Eval.isTrue y)
    else return .ofBool false
  | .or a b => do
    let x ← a.value read
    if ← Eval.isTrue x then return .ofBool true
    else
      let y ← b.value read
      return .ofBool (← Eval.isTrue y)
  | .index object keys => do
    let o ← object.value read
    let ks ← Expr.values read keys
    Eval.subscript o ks
  | .array items => do
    let vs ← Expr.values read items
    Eval.alloc fun h => h.newArray vs.toArray
  | .dict entries => do
    let vs ← Expr.entryValues read entries
    let dict ← Eval.ofExcept (Eval.dictionary vs)
    return .dict (← Eval.alloc fun h => h.newDict dict)
  | .call _ _ => throw .beyond
  | .await _ => throw .beyond
  | .spawn _ _ => throw .beyond

def Expr.values (read : String → Except Failure Value) : List Expr → Eval (List Value)
  | [] => return []
  | e :: es => do
    let v ← e.value read
    let vs ← Expr.values read es
    return v :: vs

def Expr.entryValues (read : String → Except Failure Value) :
    List (Expr × Expr) → Eval (List (Value × Value))
  | [] => return []
  | (key, value) :: es => do
    let k ← key.value read
    let v ← value.value read
    let vs ← Expr.entryValues read es
    return (k, v) :: vs

def FPart.values (read : String → Except Failure Value) : List FPart → Eval (List Value)
  | [] => return []
  | .text s :: ps => do
    let vs ← FPart.values read ps
    return .str s :: vs
  | .code e :: ps => do
    let v ← e.value read
    let vs ← FPart.values read ps
    return v :: vs

end

/-! ### Running evaluations -/

namespace Eval

variable {α β : Type} (h : Heap)

theorem run_map (f : α → β) (x : Eval α) : (f <$> x).run h = match x.run h with
    | .ok a h' => .ok (f a) h'
    | .error e h' => .error e h' := by
  rw [map_eq_pure_bind, EStateM.run_bind]
  cases x.run h <;> rfl

@[simp] theorem run_ofExcept (r : Except Failure α) : (ofExcept r).run h = match r with
    | .ok a => .ok a h
    | .error cause => .error (.fault (.failure cause)) h := by
  cases r <;> rfl

@[simp] theorem run_alloc (make : Heap → Heap × α) :
    (alloc make).run h = .ok (make h).2 (make h).1 := rfl

@[simp] theorem run_isTrue (v : Value) : (isTrue v).run h = .ok (h.isTrue v) h := rfl

@[simp] theorem run_binary (op : BinaryOp) (a b : Value) : (binary op a b).run h =
    match h.binary op a b with
    | .ok (h', v) => .ok v h'
    | .error e => .error (.fault e) h := by
  simp only [binary, EStateM.run_bind, EStateM.run_get]
  cases h.binary op a b with
  | ok r | error e => rfl

theorem run_subscript {object : Value} (hobject : object.kind ≠ .function) (keys : List Value) :
    (subscript object keys).run h =
      match keys.foldlM (fun inner key => h.get inner key) object with
      | .ok v => .ok v h
      | .error cause => .error (.fault (.failure cause)) h := by
  simp only [subscript, if_neg hobject, EStateM.run_bind, EStateM.run_get, run_ofExcept]
  cases keys.foldlM (fun inner key => h.get inner key) object <;> rfl

theorem run_subscript_function {object : Value} (hobject : object.kind = .function)
    (keys : List Value) : (subscript object keys).run h = .error .beyond h := by
  rw [subscript, if_pos hobject]
  rfl

end Eval

/-! ### Numbers that are computed beforehand -/

theorem Number.number?_toValue (x : Number) : x.toValue.number? = some x := by
  cases x <;> rfl

theorem Heap.equal_numbers (h : Heap) (x y : Number) :
    h.equal x.toValue y.toValue = some (x.equal y) := by
  cases x <;> cases y <;> rfl

theorem Number.toValue_ofBool (b : Bool) : (Number.ofBool b).toValue = .ofBool b := rfl

theorem Heap.compare_numbers (op : BinaryOp) (x y : Number) :
    Heap.compare op x.toValue y.toValue = Number.compare op x y := by
  cases x <;> cases y <;> rfl

theorem Heap.numeric_numbers (op : BinaryOp) (x y : Number) :
    Heap.numeric op x.toValue y.toValue = (Number.binary op x y).map Number.toValue := by
  rw [Heap.numeric, x.number?_toValue, y.number?_toValue]

theorem Heap.add_numbers (h : Heap) (x y : Number) :
    h.add x.toValue y.toValue =
      ((Number.binary .add x y).map Number.toValue).map (h, ·) := by
  rw [← Heap.numeric_numbers]
  cases x <;> cases y <;> rfl

/-- An operator that gives a number for two numbers gives it for them as values, too. -/
theorem Heap.binary_numbers (h : Heap) {op : BinaryOp} {y z : Number}
    (hz : Number.binary op x y = .ok z) : h.binary op x.toValue y.toValue = .ok (h, z.toValue) := by
  have hcompare : ∀ op, (Number.compare op x y).map Number.ofBool = .ok z →
      Heap.orFault ((Heap.compare op x.toValue y.toValue).map fun holds => (h, .ofBool holds)) =
        .ok (h, z.toValue) := by
    intro op hz
    rw [Heap.compare_numbers]
    cases hc : Number.compare op x y with
    | error cause => rw [hc] at hz; cases hz
    | ok b =>
      rw [hc] at hz
      cases hz
      rfl
  have hnumeric : ∀ op, Number.binary op x y = .ok z →
      Heap.orFault ((Heap.numeric op x.toValue y.toValue).map (h, ·)) = .ok (h, z.toValue) := by
    intro op hz
    rw [Heap.numeric_numbers, hz]
    rfl
  cases op with
  | add =>
    show Heap.orFault (h.add x.toValue y.toValue) = _
    rw [Heap.add_numbers, hz]
    rfl
  | sub | mul | div | mod => exact hnumeric _ hz
  | eq | ne =>
    cases hz
    simp only [Heap.binary, Heap.equal_numbers, Number.toValue_ofBool]
  | lt | le | gt | ge => exact hcompare _ hz

theorem eq_ok_of_toOption {r : Except Failure Number} (h : r.toOption = some x) : r = .ok x := by
  cases r with
  | error cause => cases h
  | ok y =>
    cases h
    rfl

/-- What can be computed beforehand is what the evaluation yields, in every heap. -/
theorem Expr.value_of_fold? (read : String → Except Failure Value) {e : Expr}
    (hx : e.fold? = some x) (h : Heap) : (e.value read).run h = .ok x.toValue h := by
  induction e using Expr.fold?.induct generalizing x with
  | case1 n | case2 y =>
    cases hx
    rw [Expr.value]
    rfl
  | case3 a y hy ih =>
    simp only [Expr.fold?, hy] at hx
    have hneg := eq_ok_of_toOption hx
    rw [Expr.value, EStateM.run_bind, ih hy]
    simp only [Heap.negate, y.number?_toValue, hneg, Eval.run_ofExcept]
    rfl
  | case4 a ha ih =>
    simp only [Expr.fold?, ha] at hx
    cases hx
  | case5 op a b z y hb ha iha ihb =>
    simp only [Expr.fold?, ha, hb] at hx
    have hbinary := eq_ok_of_toOption hx
    rw [Expr.value, EStateM.run_bind, iha ha]
    simp only [EStateM.run_bind, ihb hb, Eval.run_binary, h.binary_numbers hbinary]
  | case6 op a b hab iha ihb =>
    exfalso
    cases ha : a.fold? with
    | none =>
      simp only [Expr.fold?, ha] at hx
      cases hx
    | some y =>
      cases hb : b.fold? with
      | none =>
        simp only [Expr.fold?, ha, hb] at hx
        cases hx
      | some z => exact hab y z ha hb
  | case7 e hint hfloat hneg hbinary =>
    exfalso
    cases e with
    | int n => exact hint n rfl
    | float y => exact hfloat y rfl
    | neg a => exact hneg a rfl
    | binary op a b => exact hbinary op a b rfl
    | _ => cases hx

/-! ### Numbers of values -/

theorem Eval.run_bind_ok {α β : Type} {x : Eval α} {f : α → Eval β} {b : β}
    (hb : (x >>= f).run h = .ok b h') : ∃ a h1, x.run h = .ok a h1 ∧ (f a).run h1 = .ok b h' := by
  rw [EStateM.run_bind] at hb
  cases hx : x.run h with
  | ok a h1 =>
    rw [hx] at hb
    exact ⟨a, h1, rfl, hb⟩
  | error e h1 =>
    rw [hx] at hb
    cases hb

theorem Expr.length_values {es : List Expr}
    {vs : List Value} (hvs : (Expr.values read es).run h = .ok vs h') : vs.length = es.length := by
  induction es generalizing vs h h' with
  | nil =>
    rw [Expr.values] at hvs
    cases hvs
    rfl
  | cons e es ih =>
    rw [Expr.values] at hvs
    obtain ⟨v, h1, -, hvs⟩ := Eval.run_bind_ok hvs
    obtain ⟨ws, h2, hws, hvs⟩ := Eval.run_bind_ok hvs
    cases hvs
    exact congrArg (· + 1) (ih hws)

theorem Expr.length_entryValues {es : List (Expr × Expr)} {vs : List (Value × Value)}
    (hvs : (Expr.entryValues read es).run h = .ok vs h') : vs.length = es.length := by
  induction es generalizing vs h h' with
  | nil =>
    rw [Expr.entryValues] at hvs
    cases hvs
    rfl
  | cons e es ih =>
    rw [Expr.entryValues] at hvs
    obtain ⟨k, h1, -, hvs⟩ := Eval.run_bind_ok hvs
    obtain ⟨v, h2, -, hvs⟩ := Eval.run_bind_ok hvs
    obtain ⟨ws, h3, hws, hvs⟩ := Eval.run_bind_ok hvs
    cases hvs
    exact congrArg (· + 1) (ih hws)

theorem FPart.length_values {ps : List FPart}
    {vs : List Value} (hvs : (FPart.values read ps).run h = .ok vs h') : vs.length = ps.length := by
  induction ps generalizing vs h h' with
  | nil =>
    rw [FPart.values] at hvs
    cases hvs
    rfl
  | cons p ps ih =>
    cases p with
    | text s =>
      rw [FPart.values] at hvs
      obtain ⟨ws, h1, hws, hvs⟩ := Eval.run_bind_ok hvs
      cases hvs
      exact congrArg (· + 1) (ih hws)
    | code e =>
      rw [FPart.values] at hvs
      obtain ⟨v, h1, -, hvs⟩ := Eval.run_bind_ok hvs
      obtain ⟨ws, h2, hws, hvs⟩ := Eval.run_bind_ok hvs
      cases hvs
      exact congrArg (· + 1) (ih hws)

/-! ### Heaps that grow -/

/-- All that `h` has is in `h'`, unchanged; `h'` may have more arrays and dictionaries. -/
structure Heap.Grows (h h' : Heap) : Prop where
  arrays : h.arrays.toList <+: h'.arrays.toList
  dicts : h.dicts.toList <+: h'.dicts.toList
  functions : h'.functions = h.functions
  promises : h'.promises = h.promises

namespace Heap.Grows

variable {h h1 h2 : Heap}

theorem refl (h : Heap) : h.Grows h :=
  ⟨List.prefix_refl _, List.prefix_refl _, rfl, rfl⟩

theorem trans (h12 : h.Grows h1) (h23 : h1.Grows h2) : h.Grows h2 where
  arrays := h12.arrays.trans h23.arrays
  dicts := h12.dicts.trans h23.dicts
  functions := h23.functions.trans h12.functions
  promises := h23.promises.trans h12.promises

theorem newArray (h : Heap) (items : Array Value) : h.Grows (h.newArray items).1 := by
  refine ⟨?_, List.prefix_refl _, rfl, rfl⟩
  show h.arrays.toList <+: (h.arrays.push items).toList
  rw [Array.toList_push]
  exact List.prefix_append _ _

theorem newDict (h : Heap) (entries : Dict) : h.Grows (h.newDict entries).1 := by
  refine ⟨List.prefix_refl _, ?_, rfl, rfl⟩
  show h.dicts.toList <+: (h.dicts.push entries).toList
  rw [Array.toList_push]
  exact List.prefix_append _ _

end Heap.Grows

/-- The sum of two arrays is a new array; no other operator makes anything new. -/
theorem Heap.binary_grows {op : BinaryOp} {a b v : Value}
    (hv : h.binary op a b = .ok (h', v)) : h.Grows h' := by
  have hsame : ∀ {r : Except Failure Value}, Heap.orFault (r.map (h, ·)) = .ok (h', v) →
      h.Grows h' := by
    intro r hr
    cases r with
    | error cause => cases hr
    | ok w =>
      cases hr
      exact .refl h
  have hholds : ∀ {r : Except Failure Bool},
      Heap.orFault (r.map fun holds => (h, .ofBool holds)) = .ok (h', v) → h.Grows h' := by
    intro r hr
    cases r with
    | error cause => cases hr
    | ok w =>
      cases hr
      exact .refl h
  cases op with
  | add =>
    replace hv : Heap.orFault (h.add a b) = .ok (h', v) := hv
    unfold Heap.add at hv
    split at hv
    · cases hv
      exact .refl h
    · cases hv
      exact .refl h
    · cases hv
      exact .newArray h _
    · exact hsame hv
  | eq | ne =>
    simp only [Heap.binary] at hv
    split at hv
    · cases hv
      exact .refl h
    · cases hv
  | lt | le | gt | ge => exact hholds hv
  | sub | mul | div | mod => exact hsame hv

theorem Heap.binary_ne_exit (h : Heap) (op : BinaryOp) (a b : Value) (code : Int32) :
    h.binary op a b ≠ .error (.exit code) := by
  have hfault : ∀ r : Except Failure (Heap × Value), Heap.orFault r ≠ .error (.exit code) := by
    intro r
    cases r <;> nofun
  cases op with
  | eq | ne =>
    simp only [Heap.binary]
    split <;> nofun
  | _ => exact hfault _

namespace Eval

variable {α β : Type}

/-- The heap behind an evaluation. -/
def heapOf : EStateM.Result Stop Heap α → Heap
  | .ok _ h => h
  | .error _ h => h

/-- The evaluation leaves all that there was as it was, and does not end the program. -/
structure Growing (x : Eval α) : Prop where
  grows : ∀ h : Heap, h.Grows (heapOf (x.run h))
  stays : ∀ (h h' : Heap) (code : Int32), x.run h ≠ .error (.fault (.exit code)) h'

namespace Growing

theorem pure (a : α) : Growing (pure a : Eval α) := ⟨fun h => .refl h, nofun⟩

theorem throw {e : Stop} (he : ∀ code, e ≠ .fault (.exit code)) : Growing (throw e : Eval α) where
  grows h := .refl h
  stays _ _ code hrun := he code (EStateM.Result.error.inj hrun).1

theorem bind {x : Eval α} {f : α → Eval β} (hx : Growing x) (hf : ∀ a, Growing (f a)) :
    Growing (x >>= f) := by
  refine ⟨fun h => ?_, fun h h' code => ?_⟩
  · have hrun := hx.grows h
    rw [EStateM.run_bind]
    cases hr : x.run h with
    | ok a h' =>
      rw [hr] at hrun
      exact hrun.trans ((hf a).grows h')
    | error e h' =>
      rw [hr] at hrun
      exact hrun
  · have hrun := hx.stays h h' code
    rw [EStateM.run_bind]
    cases hr : x.run h with
    | ok a h1 => exact (hf a).stays h1 h' code
    | error e h1 =>
      rw [hr] at hrun
      intro heq
      cases heq
      exact hrun rfl

theorem get {f : Heap → Eval β} (hf : ∀ h, Growing (f h)) : Growing (MonadState.get >>= f) :=
  ⟨fun h => (hf h).grows h, fun h => (hf h).stays h⟩

theorem ofExcept (r : Except Failure α) : Growing (Eval.ofExcept r) := by
  cases r with
  | ok a => exact .pure a
  | error cause => exact .throw nofun

theorem alloc {make : Heap → Heap × α} (hmake : ∀ h : Heap, h.Grows (make h).1) :
    Growing (Eval.alloc make) := ⟨hmake, nofun⟩

theorem isTrue (v : Value) : Growing (Eval.isTrue v) := ⟨fun h => .refl h, nofun⟩

theorem binary (op : BinaryOp) (a b : Value) : Growing (Eval.binary op a b) := by
  refine ⟨fun h => ?_, fun h h' code => ?_⟩
  · rw [run_binary]
    cases hr : h.binary op a b with
    | error e => exact .refl h
    | ok r => exact Heap.binary_grows hr
  · rw [run_binary]
    cases hr : h.binary op a b with
    | error e =>
      intro heq
      cases heq
      exact h.binary_ne_exit op a b code hr
    | ok r => nofun

theorem subscript (object : Value) (keys : List Value) : Growing (Eval.subscript object keys) := by
  rw [Eval.subscript]
  split
  · exact .throw nofun
  · exact .get fun _ => .ofExcept _

end Growing

end Eval

open Eval

mutual

/-- Evaluation makes new things, and leaves all that there was as it was. -/
theorem Expr.value_grows (read : String → Except Failure Value) :
    (e : Expr) → Growing (e.value read)
  | .int _ | .float _ | .str _ | .absent => by
    rw [Expr.value]
    exact .pure _
  | .fstring parts => by
    rw [Expr.value]
    exact .bind (FPart.values_grows read parts) fun _ => .get fun _ => .pure _
  | .var name => by
    rw [Expr.value]
    exact .ofExcept _
  | .binary op a b => by
    rw [Expr.value]
    exact .bind (a.value_grows read) fun _ => .bind (b.value_grows read) fun _ => .binary _ _ _
  | .neg a => by
    rw [Expr.value]
    exact .bind (a.value_grows read) fun _ => .ofExcept _
  | .not a => by
    rw [Expr.value]
    exact .bind (a.value_grows read) fun _ => .bind (.isTrue _) fun _ => .pure _
  | .and a b => by
    rw [Expr.value]
    refine .bind (a.value_grows read) fun _ => .bind (.isTrue _) fun holds => ?_
    split
    · exact .bind (b.value_grows read) fun _ => .bind (.isTrue _) fun _ => .pure _
    · exact .pure _
  | .or a b => by
    rw [Expr.value]
    refine .bind (a.value_grows read) fun _ => .bind (.isTrue _) fun holds => ?_
    split
    · exact .pure _
    · exact .bind (b.value_grows read) fun _ => .bind (.isTrue _) fun _ => .pure _
  | .index object keys => by
    rw [Expr.value]
    exact .bind (object.value_grows read) fun _ => .bind (Expr.values_grows read keys) fun _ =>
      .subscript _ _
  | .array items => by
    rw [Expr.value]
    exact .bind (Expr.values_grows read items) fun _ => .alloc fun h => .newArray h _
  | .dict entries => by
    rw [Expr.value]
    exact .bind (Expr.entryValues_grows read entries) fun _ => .bind (.ofExcept _) fun _ =>
      .bind (.alloc fun h => .newDict h _) fun _ => .pure _
  | .call _ _ | .await _ | .spawn _ _ => by
    rw [Expr.value]
    exact .throw nofun

theorem Expr.values_grows (read : String → Except Failure Value) :
    (es : List Expr) → Growing (Expr.values read es)
  | [] => by
    rw [Expr.values]
    exact .pure _
  | e :: es => by
    rw [Expr.values]
    exact .bind (e.value_grows read) fun _ => .bind (Expr.values_grows read es) fun _ => .pure _

theorem Expr.entryValues_grows (read : String → Except Failure Value) :
    (es : List (Expr × Expr)) → Growing (Expr.entryValues read es)
  | [] => by
    rw [Expr.entryValues]
    exact .pure _
  | (key, value) :: es => by
    rw [Expr.entryValues]
    exact .bind (key.value_grows read) fun _ => .bind (value.value_grows read) fun _ =>
      .bind (Expr.entryValues_grows read es) fun _ => .pure _

theorem FPart.values_grows (read : String → Except Failure Value) :
    (ps : List FPart) → Growing (FPart.values read ps)
  | [] => by
    rw [FPart.values]
    exact .pure _
  | .text s :: ps => by
    rw [FPart.values]
    exact .bind (FPart.values_grows read ps) fun _ => .pure _
  | .code e :: ps => by
    rw [FPart.values]
    exact .bind (e.value_grows read) fun _ => .bind (FPart.values_grows read ps) fun _ => .pure _

end

end TaskBasic
