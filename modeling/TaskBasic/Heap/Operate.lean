import TaskBasic.Heap.Equal
import TaskBasic.Heap.Text

/-
Operators on values.

`+` joins texts as soon as one operand is a text, and joins two arrays to a new
one; all else is arithmetic on numbers.  Texts are ordered code point by code
point, and a text and a number stand in no order.
-/

namespace TaskBasic.Heap

def numeric (op : BinaryOp) (a b : Value) : Except Failure Value :=
  match a.number?, b.number? with
  | some x, some y => (Number.binary op x y).map Number.toValue
  | _, _ => .error (.operandKinds op a.kind b.kind)

def compare (op : BinaryOp) (a b : Value) : Except Failure Bool :=
  match a, b with
  | .str x, .str y =>
    match op.accepts? (Ord.compare x y) with
    | some holds => .ok holds
    | none => .error (.notAnOrdering op)
  | _, _ =>
    match a.number?, b.number? with
    | some x, some y => Number.compare op x y
    | _, _ => .error (.operandKinds op a.kind b.kind)

def add (h : Heap) (a b : Value) : Except Failure (Heap × Value) :=
  match a, b with
  | .str _, _ => .ok (h, .str (h.text a ++ h.text b))
  | _, .str _ => .ok (h, .str (h.text a ++ h.text b))
  | .array r, .array s => .ok (h.newArray (h.array r ++ h.array s))
  | _, _ => (numeric .add a b).map (h, ·)

def orFault {α : Type} : Except Failure α → Except Fault α
  | .ok a => .ok a
  | .error cause => .error (.failure cause)

def binary (h : Heap) (op : BinaryOp) (a b : Value) : Except Fault (Heap × Value) :=
  match op with
  | .add => orFault (h.add a b)
  | .eq =>
    match h.equal a b with
    | some same => .ok (h, .ofBool same)
    | none => .error .endless
  | .ne =>
    match h.equal a b with
    | some same => .ok (h, .ofBool (!same))
    | none => .error .endless
  | .lt | .le | .gt | .ge => orFault ((compare op a b).map fun holds => (h, .ofBool holds))
  | .sub | .mul | .div | .mod => orFault ((numeric op a b).map (h, ·))

def negate (a : Value) : Except Failure Value :=
  match a.number? with
  | some x => x.negate.map Number.toValue
  | none => .error (.negatedKind a.kind)

end TaskBasic.Heap
