import TaskBasic.Number.Double

/-
Values.

Numbers and texts are values by themselves.  Arrays, dictionaries, functions
and futures are references into a heap (`Heap`): copying such a value shares
what it refers to.  A tuple is the key of a subscript with several indices.
-/

namespace TaskBasic

structure ArrayRef where
  index : Nat
deriving Repr, DecidableEq, Inhabited

structure DictRef where
  index : Nat
deriving Repr, DecidableEq, Inhabited

structure FunctionRef where
  index : Nat
deriving Repr, DecidableEq, Inhabited

/-- A reference to a promise, the result slot behind a future. -/
structure PromiseRef where
  index : Nat
deriving Repr, DecidableEq, Inhabited

inductive Value
  | absent
  | int (n : Int64)
  | float (x : Double)
  | str (s : String)
  | array (ref : ArrayRef)
  | dict (ref : DictRef)
  | function (ref : FunctionRef)
  | tuple (items : List Value)
  | future (ref : PromiseRef)
deriving Inhabited

inductive Kind
  | absent | int | float | string | array | dict | function | tuple | future
deriving Repr, DecidableEq

def Kind.name : Kind → String
  | absent => "none"
  | int => "int"
  | float => "float"
  | string => "string"
  | array => "array"
  | dict => "dict"
  | function => "function"
  | tuple => "tuple"
  | future => "future"

namespace Value

def kind : Value → Kind
  | absent => .absent
  | int _ => .int
  | float _ => .float
  | str _ => .string
  | array _ => .array
  | dict _ => .dict
  | function _ => .function
  | tuple _ => .tuple
  | future _ => .future

def ofBool (b : Bool) : Value :=
  .int (if b then 1 else 0)

def ofNat (n : Nat) : Value :=
  .int (Int64.ofNat n)

def isAbsent : Value → Bool
  | absent => true
  | _ => false

def isNumber : Value → Bool
  | int _ => true
  | float _ => true
  | _ => false

end Value

end TaskBasic
