import Mathlib.Logic.Relation
import TaskBasic.Proofs.Code.Pushes
import TaskBasic.Proofs.Expr.Meaning
import TaskBasic.Proofs.Machine.Control

/-
Machines in the course of an evaluation.

While the code of an expression runs, only the offset of the innermost frame,
the heap and the operand stack change (`Machine.poised`).  Instructions push
values, or replace some of them by what an evaluation makes of them
(`Exec.Replaces`).

`Delivers` says that instructions lead from one such place to another as an
evaluation says: to its values on top of the stack, or to an instruction that
fails as it does.
-/

namespace TaskBasic

variable {name : String} {vs : List Value} {index : UInt16} {v : Value}

/-! ### Variables -/

/-- The values of variables: of the live locals, newest first, and of the globals; `listed` are
the names that stand for globals whatever locals there are. -/
structure Bindings where
  locals : List (String × Value)
  listed : List String
  globals : Dict

namespace Bindings

def readGlobal (b : Bindings) (name : String) : Except Failure Value :=
  match b.globals[name]? with
  | some v => .ok v
  | none => .error (.undefinedVariable name)

/-- The value of a variable: of the newest local with the name, or else of the global. -/
def read (b : Bindings) (name : String) : Except Failure Value :=
  if b.listed.contains name then b.readGlobal name
  else
    match b.locals.lookup name with
    | some v => .ok v
    | none => b.readGlobal name

/-- The live locals of the scope lie on the stack from position `base` on, oldest first, with the
values that the bindings give them.  Instructions can name all of them. -/
structure Match (b : Bindings) (d : Draft) (base : Nat) (S : Array Value) : Prop where
  names : b.locals.map Prod.fst = d.scope.locals.map Local.name
  values : ∀ i v, (b.locals.map Prod.snd).reverse[i]? = some v → S[base + i]? = some v
  listed : b.listed = d.globals
  few : d.scope.locals.length ≤ 65536

variable {b : Bindings} {d d' : Draft} {base : Nat} {S : Array Value}

theorem Match.append (h : b.Match d base S) (vs : Array Value) : b.Match d base (S ++ vs) := by
  refine ⟨h.names, fun i v hv => ?_, h.listed, h.few⟩
  have hv := h.values i v hv
  have hlt := (Array.getElem?_eq_some_iff.mp hv).1
  rw [Array.getElem?_append_left hlt, hv]

theorem Match.emitted {F : Fragment} (h : b.Match d base S) (he : Emitted d F d') :
    b.Match d' base S := by
  refine ⟨?_, h.values, ?_, ?_⟩
  · rw [he.scope]
    exact h.names
  · rw [he.globals]
    exact h.listed
  · rw [he.scope]
    exact h.few

theorem Match.advance (h : b.Match d base S) (n : Nat) : b.Match (d.advance n) base S :=
  { h with }

/-- The newest entry with a name, by the place of the name. -/
theorem lookup_of_findIdx? {l : List (String × Value)} {i : Nat}
    (h : (l.map Prod.fst).findIdx? (· == name) = some i) :
    ∃ v, l.lookup name = some v ∧ (l.map Prod.snd)[i]? = some v := by
  induction l generalizing i with
  | nil => cases h
  | cons x l ih =>
    obtain ⟨n, v⟩ := x
    rw [List.map_cons, List.findIdx?_cons] at h
    by_cases hn : n = name
    · subst hn
      simp only [beq_self_eq_true, if_true] at h
      cases h
      exact ⟨v, List.lookup_cons_self, rfl⟩
    · rw [if_neg (by simpa using hn)] at h
      obtain ⟨j, hj, rfl⟩ := Option.map_eq_some_iff.mp h
      obtain ⟨w, hw, hget⟩ := ih hj
      have hne : (name == n) = false := beq_eq_false_iff_ne.mpr (Ne.symm hn)
      refine ⟨w, ?_, hget⟩
      rw [List.lookup_cons, hne]
      exact hw

theorem lookup_eq_none {l : List (String × Value)}
    (h : (l.map Prod.fst).findIdx? (· == name) = none) : l.lookup name = none := by
  rw [List.lookup_eq_none_iff]
  intro x hx
  rw [List.findIdx?_eq_none_iff] at h
  have hne := beq_eq_false_iff_ne.mp (h x.1 (List.mem_map_of_mem hx))
  simpa using Ne.symm hne

theorem Match.findIdx? (h : b.Match d base S) (name : String) :
    d.scope.locals.findIdx? (fun l => l.name == name) =
      (b.locals.map Prod.fst).findIdx? (· == name) := by
  rw [h.names, List.findIdx?_map]
  rfl

/-- A variable with a slot has its value there. -/
theorem Match.read_local (h : b.Match d base S) {slot : Nat}
    (hslot : Compile.slotIn d name = some slot) :
    ∃ v, b.read name = .ok v ∧ S[base + slot]? = some v ∧ slot < 65536 := by
  rw [Compile.slotIn] at hslot
  split at hslot
  next => cases hslot
  next hlisted =>
    rw [Scope.slot?, h.findIdx?] at hslot
    obtain ⟨i, hi, rfl⟩ := Option.map_eq_some_iff.mp hslot
    obtain ⟨v, hv, hget⟩ := lookup_of_findIdx? hi
    have hlen : b.locals.length = d.scope.locals.length := by
      simpa using congrArg List.length h.names
    have hlt : i < b.locals.length := by
      simpa using (List.getElem?_eq_some_iff.mp hget).1
    have hfew := h.few
    refine ⟨v, ?_, h.values _ v ?_, by omega⟩
    · rw [read, h.listed, if_neg hlisted, hv]
    · rw [List.getElem?_reverse (by simp; omega), List.length_map, ← hlen]
      rw [show b.locals.length - 1 - (b.locals.length - 1 - i) = i by omega]
      exact hget

theorem Match.read_global (h : b.Match d base S) (hslot : Compile.slotIn d name = none) :
    b.read name = b.readGlobal name := by
  rw [Compile.slotIn] at hslot
  rw [read, h.listed]
  split at hslot
  next hlisted => rw [if_pos hlisted]
  next hlisted =>
    rw [Scope.slot?, h.findIdx?, Option.map_eq_none_iff] at hslot
    rw [if_neg hlisted, lookup_eq_none hslot]

end Bindings

/-! ### Machines in the course of an evaluation -/

/-- The machine `m` with the innermost frame `f`, above the frames `F`, at the offset `ip`, with
the heap `h` and the stack `S`. -/
def Machine.poised (m : Machine) (f : Frame) (F : List Frame) (ip : Nat) (h : Heap)
    (S : Array Value) : Machine :=
  { m with heap := h, task := { m.task with frames := { f with ip := ip } :: F, stack := S } }

/-- Some instructions lead from one machine to the other, and none of them waits. -/
def Steps (env : Env) : Machine → Machine → Prop :=
  Relation.ReflTransGen fun m m' =>
    (Exec.step env).run m = .ok .next m' ∧ m'.task.awaiting = m.task.awaiting

section

variable {env : Env} {m : Machine} {f : Frame} {F : List Frame} {g : Function} {h h' : Heap}
  {S S' : Array Value} {ip next : Nat} {i : Instr}

theorem Machine.poised_self (hf : m.task.frames = f :: F) :
    m.poised f F f.ip m.heap m.task.stack = m := by
  rw [Machine.poised, ← hf]

/-- A step is the execution of the instruction that stands at the offset. -/
theorem run_step (hg : h.function f.function = g) (hi : decode g.chunk.code ip = .ok (i, next)) :
    (Exec.step env).run (m.poised f F ip h S) =
      (Exec.execute env i).run (m.poised f F next h S) := by
  have hframes : (m.poised f F ip h S).task.frames = { f with ip := ip } :: F := rfl
  have hcode : decode ((m.poised f F ip h S).heap.function f.function).chunk.code ip =
      .ok (i, next) := by rw [← hi, ← hg]; rfl
  simp only [Exec.step, EStateM.run_bind, Exec.run_fetch hframes, hcode]
  rfl

namespace Exec

/-- What an instruction makes of the values that it takes off the stack, as an evaluation says. -/
def ResultOn (m : Machine) (f : Frame) (F : List Frame) (ip : Nat) (S : Array Value) :
    EStateM.Result Stop Heap Value → EStateM.Result Fault Machine Flow → Prop
  | .ok v h', r => r = .ok .next (m.poised f F ip h' (S.push v))
  | .error (.fault e) h', r => r = .error e (m.poised f F ip h' S)
  | .error .beyond _, _ => True

/-- The instruction takes the values `vs` off the stack and puts in their place what the evaluation
`x` yields. -/
def Replaces (env : Env) (i : Instr) (vs : List Value) (x : Eval Value) : Prop :=
  ∀ (m : Machine) (f : Frame) (F : List Frame) (ip : Nat) (h : Heap) (S : Array Value),
    ResultOn m f F ip S (x.run h) ((execute env i).run (m.poised f F ip h (S ++ vs.toArray)))

theorem run_andNext (x : Exec Unit) (m : Machine) : (andNext x).run m = match x.run m with
    | .ok _ m' => .ok .next m'
    | .error e m' => .error e m' := by
  rw [andNext, EStateM.run_bind]
  cases x.run m <;> rfl

theorem run_pop_poised (v : Value) :
    pop.run (m.poised f F ip h (S ++ [v].toArray)) = .ok v (m.poised f F ip h S) := by
  rw [show S ++ [v].toArray = S.push v by simp]
  exact run_pop (m.poised f F ip h S) S v

theorem run_pop_two (v w : Value) :
    pop.run (m.poised f F ip h (S ++ [v, w].toArray)) =
      .ok w (m.poised f F ip h (S ++ [v].toArray)) := by
  rw [show S ++ [v, w].toArray = (S ++ [v].toArray).push w by
    rw [← Array.append_singleton, Array.append_assoc]; rfl]
  exact run_pop (m.poised f F ip h S) _ w

theorem run_popMany_poised {n : Nat} (hn : n = vs.length) :
    (popMany n).run (m.poised f F ip h (S ++ vs.toArray)) = .ok vs (m.poised f F ip h S) := by
  rw [hn]
  exact run_popMany (m.poised f F ip h S) S vs

theorem run_push_poised (v : Value) :
    (push v).run (m.poised f F ip h S) = .ok () (m.poised f F ip h (S.push v)) := rfl

theorem run_heap_poised : heap.run (m.poised f F ip h S) = .ok h (m.poised f F ip h S) := rfl

theorem replaces_neg (v : Value) : Replaces env .neg [v] (Eval.ofExcept (Heap.negate v)) := by
  intro m f F ip h S
  rw [execute, run_andNext, Eval.run_ofExcept]
  simp only [EStateM.run_bind, run_pop_poised, run_ofExcept]
  cases Heap.negate v with
  | ok w | error cause => rfl

theorem replaces_logicNot (v : Value) : Replaces env .logicNot [v] (do
    return .ofBool (!(← Eval.isTrue v))) := by
  intro m f F ip h S
  rw [execute, run_andNext]
  simp only [EStateM.run_bind, run_pop_poised, run_heap_poised]
  rfl

theorem replaces_toBool (v : Value) : Replaces env .toBool [v] (do
    return .ofBool (← Eval.isTrue v)) := by
  intro m f F ip h S
  rw [execute, run_andNext]
  simp only [EStateM.run_bind, run_pop_poised, run_heap_poised]
  rfl

theorem replaces_binary (op : BinaryOp) (a b : Value) :
    Replaces env (.binary op) [a, b] (Eval.binary op a b) := by
  intro m f F ip h S
  rw [execute, run_andNext, Eval.run_binary]
  simp only [binary, EStateM.run_bind, run_pop_two, run_pop_poised, run_heap_poised]
  cases h.binary op a b with
  | ok r | error e => rfl

theorem replaces_buildArray (hvs : vs.length < 65536) :
    Replaces env (.buildArray (UInt16.ofNat vs.length)) vs
      (Eval.alloc fun h => h.newArray vs.toArray) := by
  intro m f F ip h S
  rw [execute, run_andNext]
  simp only [EStateM.run_bind, run_popMany_poised (UInt16.toNat_ofNat_of_lt' hvs)]
  rfl

theorem replaces_buildTuple (hvs : vs.length < 256) :
    Replaces env (.buildTuple (UInt8.ofNat vs.length)) vs (return .tuple vs) := by
  intro m f F ip h S
  rw [execute, run_andNext]
  simp only [EStateM.run_bind, run_popMany_poised (UInt8.toNat_ofNat_of_lt' hvs)]
  rfl

theorem replaces_buildString (hvs : vs.length < 65536) :
    Replaces env (.buildString (UInt16.ofNat vs.length)) vs (do
      let h ← get
      return .str (String.join (vs.map h.text))) := by
  intro m f F ip h S
  rw [execute, run_andNext]
  simp only [EStateM.run_bind, run_popMany_poised (UInt16.toNat_ofNat_of_lt' hvs), run_heap_poised,
    run_push_poised, EStateM.run_get, EStateM.run_pure, ResultOn]

def inTurn : List (Value × Value) → List Value
  | [] => []
  | (key, value) :: rest => key :: value :: inTurn rest

theorem length_inTurn (es : List (Value × Value)) : (inTurn es).length = es.length * 2 := by
  induction es with
  | nil => rfl
  | cons e es ih =>
    show (inTurn es).length + 1 + 1 = (es.length + 1) * 2
    omega

theorem literalEntries_inTurn (dict : Dict) (es : List (Value × Value)) :
    literalEntries dict (inTurn es) = es.foldlM (fun (dict : Dict) (key, value) =>
      match key with
      | .str name => .ok (dict.insert name value)
      | other => .error (.keyKind other.kind)) dict := by
  induction es generalizing dict with
  | nil => rfl
  | cons e es ih =>
    obtain ⟨key, value⟩ := e
    cases key with
    | str name => exact ih _
    | _ => rfl

theorem replaces_buildDict {es : List (Value × Value)} (hes : es.length < 65536) :
    Replaces env (.buildDict (UInt16.ofNat es.length)) (inTurn es) (do
      let dict ← Eval.ofExcept (Eval.dictionary es)
      return .dict (← Eval.alloc fun h => h.newDict dict)) := by
  intro m f F ip h S
  have hcount : (UInt16.ofNat es.length).toNat * 2 = (inTurn es).length := by
    rw [UInt16.toNat_ofNat_of_lt' hes, length_inTurn]
  rw [execute, run_andNext]
  have hdict : literalEntries ∅ (inTurn es) = Eval.dictionary es := literalEntries_inTurn ∅ es
  simp only [EStateM.run_bind, run_popMany_poised hcount, hdict, run_ofExcept, Eval.run_ofExcept]
  cases Eval.dictionary es with
  | ok dict | error cause => rfl

/-- One key after the other leads to where all of them lead at once. -/
theorem getEach_eq (h : Heap) (object : Value) (keys : List Value) :
    h.getEach object keys = keys.foldlM (fun inner key => h.get inner key) object := by
  induction keys generalizing object with
  | nil => rfl
  | cons key keys ih =>
    rw [Heap.getEach, List.foldlM_cons]
    cases h.get object key with
    | ok inner => exact ih inner
    | error cause => rfl

theorem replaces_getIndex {object key : Value} {keys : List Value}
    (hkey : ∀ h : Heap, h.get object key = keys.foldlM (fun inner key => h.get inner key) object) :
    Replaces env .getIndex [object, key] (Eval.subscript object keys) := by
  intro m f F ip h S
  by_cases hobject : object.kind = .function
  · rw [Eval.run_subscript_function h hobject]
    trivial
  · rw [Eval.run_subscript h hobject, ← hkey, execute, run_andNext]
    simp only [getIndex, EStateM.run_bind, run_pop_two, run_pop_poised]
    cases object with
    | function r => exact absurd rfl hobject
    | _ =>
      dsimp only
      simp only [EStateM.run_bind, run_heap_poised]
      generalize h.get _ key = r
      cases r <;> rfl

/-! ### Instructions that push or jump -/

theorem run_constant_poised (hg : h.function f.function = g)
    (hv : g.chunk.constants[index.toNat]? = some v) :
    (execute env (.constant index)).run (m.poised f F ip h S) =
      .ok .next (m.poised f F ip h (S.push v)) := by
  rw [execute, run_andNext, EStateM.run_bind, run_constant (m := m.poised f F ip h S) rfl hg hv]
  rfl

theorem run_name_poised (hg : h.function f.function = g)
    (hv : g.chunk.constants[index.toNat]? = some (.str name)) :
    (Exec.name index).run (m.poised f F ip h S) = .ok name (m.poised f F ip h S) :=
  run_name rfl hg hv

theorem run_pushAbsent_poised : (execute env .pushAbsent).run (m.poised f F ip h S) =
    .ok .next (m.poised f F ip h (S.push .absent)) := rfl

theorem run_getLocal_poised {slot : Nat} (hslot : slot < 65536) (hv : S[f.base + slot]? = some v) :
    (execute env (.getLocal (UInt16.ofNat slot))).run (m.poised f F ip h S) =
      .ok .next (m.poised f F ip h (S.push v)) := by
  have hframe : frame.run (m.poised f F ip h S) = .ok { f with ip := ip } (m.poised f F ip h S) :=
    run_frame _ rfl
  have hplace : (localPosition (UInt16.ofNat slot)).run (m.poised f F ip h S) =
      .ok (f.base + slot) (m.poised f F ip h S) := by
    have hlt : f.base + (UInt16.ofNat slot).toNat < (m.poised f F ip h S).task.stack.size := by
      rw [UInt16.toNat_ofNat_of_lt' hslot]
      exact (Array.getElem?_eq_some_iff.mp hv).1
    simp only [localPosition, EStateM.run_bind, hframe, EStateM.run_get, if_pos hlt,
      EStateM.run_pure]
    rw [UInt16.toNat_ofNat_of_lt' hslot]
  have hread : (m.poised f F ip h S).task.stack[f.base + slot]?.getD .absent = v := by
    show S[f.base + slot]?.getD .absent = v
    rw [hv, Option.getD_some]
  rw [execute, run_andNext]
  simp only [EStateM.run_bind, hplace, EStateM.run_get, hread, run_push_poised]

theorem run_getGlobal_poised {b : Bindings} (hg : h.function f.function = g)
    (hv : g.chunk.constants[index.toNat]? = some (.str name))
    (hglobals : m.program.globals = b.globals) :
    (execute env (.getGlobal index)).run (m.poised f F ip h S) = match b.readGlobal name with
      | .ok v => .ok .next (m.poised f F ip h (S.push v))
      | .error cause => .error (.failure cause) (m.poised f F ip h S) := by
  have hread : (m.poised f F ip h S).program.globals[name]? = b.globals[name]? := by
    rw [← hglobals]
    rfl
  rw [execute, run_andNext]
  simp only [EStateM.run_bind, run_name_poised hg hv, EStateM.run_get, hread, Bindings.readGlobal]
  cases b.globals[name]? <;> rfl

theorem run_jump_poised (n : UInt16) : (execute env (.jump n)).run (m.poised f F ip h S) =
    .ok .next (m.poised f F (ip + n.toNat) h S) := rfl

theorem run_jumpIfFalse_poised (n : UInt16) (v : Value) :
    (execute env (.jumpIfFalse n)).run (m.poised f F ip h (S ++ [v].toArray)) =
      .ok .next (m.poised f F (if h.isTrue v then ip else ip + n.toNat) h S) := by
  rw [execute, run_andNext]
  simp only [jumpIf, EStateM.run_bind, run_pop_poised, run_heap_poised, run_ite]
  cases h.isTrue v <;> rfl

end Exec

/-! ### Evaluations and the instructions that carry them out -/

/-- From the offset `start`, with the heap `h` and the stack `S0`, the instructions lead to what an
evaluation has come to: to the offset `stop` with the values on top of `S`, or to an instruction
that fails, with the stack still beginning with `S`. -/
def Delivers (env : Env) (m : Machine) (f : Frame) (F : List Frame) (start : Nat) (S0 : Array Value)
    (h : Heap) (stop : Nat) (S : Array Value) : EStateM.Result Stop Heap (List Value) → Prop
  | .ok vs h' => Steps env (m.poised f F start h S0) (m.poised f F stop h' (S ++ vs.toArray))
  | .error (.fault e) h' => ∃ (m1 : Machine) (ip : Nat) (more : Array Value),
      Steps env (m.poised f F start h S0) m1 ∧
        (Exec.step env).run m1 = .error e (m.poised f F ip h' (S ++ more))
  | .error .beyond _ => True

namespace Delivers

variable {start mid stop : Nat} {S0 S1 : Array Value} {h1 : Heap}

theorem refl (vs : List Value) :
    Delivers env m f F start (S ++ vs.toArray) h start S (.ok vs h) := Relation.ReflTransGen.refl

theorem after {r : EStateM.Result Stop Heap (List Value)}
    (hsteps : Steps env (m.poised f F start h S0) (m.poised f F mid h1 S1))
    (hr : Delivers env m f F mid S1 h1 stop S r) : Delivers env m f F start S0 h stop S r := by
  match r, hr with
  | .ok vs h', hr => exact hsteps.trans hr
  | .error (.fault e) h', ⟨m1, ip, more, hr, hfail⟩ =>
    exact ⟨m1, ip, more, hsteps.trans hr, hfail⟩
  | .error .beyond _, _ => trivial

/-- One instruction, and what follows it. -/
theorem step {r : EStateM.Result Stop Heap (List Value)} (hg : h.function f.function = g)
    (hi : decode g.chunk.code start = .ok (i, next))
    (hrun : (Exec.execute env i).run (m.poised f F next h S0) =
      .ok .next (m.poised f F mid h1 S1))
    (hr : Delivers env m f F mid S1 h1 stop S r) : Delivers env m f F start S0 h stop S r :=
  after (.single ⟨(run_step hg hi).trans hrun, rfl⟩) hr

/-- An evaluation above the values `us`, behind which another one goes on with all of them. -/
theorem above {α : Type} {x : Eval α} {values : α → List Value} {k : α → Eval (List Value)}
    (us : List Value)
    (hx : Delivers env m f F start S0 h mid (S ++ us.toArray) ((values <$> x).run h))
    (hk : ∀ a h', x.run h = .ok a h' →
      Delivers env m f F mid (S ++ (us ++ values a).toArray) h' stop S ((k a).run h')) :
    Delivers env m f F start S0 h stop S ((x >>= k).run h) := by
  rw [Eval.run_map] at hx
  rw [EStateM.run_bind]
  cases hrun : x.run h with
  | ok a h' =>
    rw [hrun] at hx
    refine after ?_ (hk a h' hrun)
    rw [← List.append_toArray, ← Array.append_assoc]
    exact hx
  | error e h' =>
    rw [hrun] at hx
    cases e with
    | beyond => trivial
    | fault e =>
      obtain ⟨m1, ip, more, hsteps, hfail⟩ := hx
      exact ⟨m1, ip, us.toArray ++ more, hsteps, by rw [hfail, Array.append_assoc]⟩

/-- An evaluation behind which another one goes on with its values. -/
theorem bind {α : Type} {x : Eval α} {values : α → List Value} {k : α → Eval (List Value)}
    (hx : Delivers env m f F start S0 h mid S ((values <$> x).run h))
    (hk : ∀ a h', x.run h = .ok a h' →
      Delivers env m f F mid (S ++ (values a).toArray) h' stop S ((k a).run h')) :
    Delivers env m f F start S0 h stop S ((x >>= k).run h) := by
  refine above [] ?_ hk
  rw [show S ++ [].toArray = S from Array.append_empty]
  exact hx

/-- An instruction that pushes a value. -/
theorem pushed (hg : h.function f.function = g) (hi : decode g.chunk.code start = .ok (i, stop))
    (hrun : (Exec.execute env i).run (m.poised f F stop h S) =
      .ok .next (m.poised f F stop h (S.push v))) :
    Delivers env m f F start S h stop S (.ok [v] h) := by
  refine Relation.ReflTransGen.single ⟨?_, rfl⟩
  rw [run_step hg hi, hrun, ← Array.append_singleton]

theorem replaces {x : Eval Value} (hg : h.function f.function = g)
    (hi : decode g.chunk.code start = .ok (i, stop)) (hx : Exec.Replaces env i vs x) :
    Delivers env m f F start (S ++ vs.toArray) h stop S (((fun v => [v]) <$> x).run h) := by
  have hresult := hx m f F stop h S
  rw [Eval.run_map]
  cases hrun : x.run h with
  | ok v h' =>
    rw [hrun] at hresult
    refine Relation.ReflTransGen.single ⟨?_, rfl⟩
    rw [run_step hg hi, hresult, ← Array.append_singleton]
  | error e h' =>
    rw [hrun] at hresult
    cases e with
    | beyond => trivial
    | fault e =>
      refine ⟨_, stop, #[], Relation.ReflTransGen.refl, ?_⟩
      rw [run_step hg hi, hresult, Array.append_empty]

end Delivers

end

end TaskBasic
