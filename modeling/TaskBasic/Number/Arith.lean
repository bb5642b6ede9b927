import TaskBasic.Failure
import TaskBasic.Number.Dyadic

/-
Arithmetic on numbers.

An int is a signed integer of 64 bits; its arithmetic is exact or fails.  As
soon as a float takes part, the int is converted and the operation is that of
doubles.  Division always yields a float, and a modulo takes the sign of the
divisor.
-/

namespace TaskBasic

def int64OfInt? (n : Int) : Option Int64 :=
  if Int64.minValue.toInt ≤ n ∧ n ≤ Int64.maxValue.toInt then some (Int64.ofInt n) else none

inductive Number
  | int (n : Int64)
  | float (x : Double)

namespace Number

def toDouble : Number → Double
  | int n => .ofInt64 n
  | float x => x

def toValue : Number → Value
  | int n => .int n
  | float x => .float x

def ofBool (b : Bool) : Number :=
  int (if b then 1 else 0)

/-- The int `n`, or an overflow. -/
def exact (n : Int) : Except Failure Number :=
  match int64OfInt? n with
  | some i => .ok (int i)
  | none => .error .overflow

/-- An operation that is exact on ints. -/
def combine (onInts : Int → Int → Int) (onDoubles : Double → Double → Double) :
    Number → Number → Except Failure Number
  | int x, int y => exact (onInts x.toInt y.toInt)
  | a, b => .ok (float (onDoubles a.toDouble b.toDouble))

def divide (a b : Number) : Except Failure Number :=
  if b.toDouble.isZero then .error .divisionByZero else .ok (float (a.toDouble.div b.toDouble))

/-- The float modulo: the remainder, moved by the divisor if their signs differ. -/
def floorRemainder (x y : Double) : Double :=
  let r := x.remainder y
  if !r.isZero && r.less (.zero false) != y.less (.zero false) then r.add y else r

/-- The modulo of two ints: the remainder, moved by the divisor if their signs differ. -/
def floorMod (x y : Int64) : Int64 :=
  let r := x % y
  if r ≠ 0 ∧ decide (r < 0) ≠ decide (y < 0) then r + y else r

/-- The modulo, whose result is zero or has the sign of the divisor. -/
def modulo : Number → Number → Except Failure Number
  | int x, int y => if y = 0 then .error .divisionByZero else .ok (int (floorMod x y))
  | a, b =>
    if b.toDouble.isZero then .error .divisionByZero
    else .ok (float (floorRemainder a.toDouble b.toDouble))

/-- The order of two doubles; a NaN stands in no order. -/
def orderDoubles? (x y : Double) : Option Ordering :=
  if x.less y then some .lt
  else if x.equal y then some .eq
  else if y.less x then some .gt
  else none

def order? : Number → Number → Option Ordering
  | int x, int y =>
    some (if x.toInt < y.toInt then .lt else if x.toInt = y.toInt then .eq else .gt)
  | a, b => orderDoubles? a.toDouble b.toDouble

def equal : Number → Number → Bool
  | int x, int y => x == y
  | float x, float y => x.equal y
  | int x, float y => (Double.ofInt64 x).equal y
  | float x, int y => (Double.ofInt64 y).equal x

/-- The order comparison `op`, false where the numbers stand in no order. -/
def compare (op : BinaryOp) (a b : Number) : Except Failure Bool :=
  match order? a b with
  | none => .ok false
  | some o =>
    match op.accepts? o with
    | some holds => .ok holds
    | none => .error (.notAnOrdering op)

def binary (op : BinaryOp) (a b : Number) : Except Failure Number :=
  match op with
  | .add => combine (· + ·) Double.add a b
  | .sub => combine (· - ·) Double.sub a b
  | .mul => combine (· * ·) Double.mul a b
  | .div => divide a b
  | .mod => modulo a b
  | .eq => .ok (ofBool (equal a b))
  | .ne => .ok (ofBool (!equal a b))
  | .lt => (compare .lt a b).map ofBool
  | .le => (compare .le a b).map ofBool
  | .gt => (compare .gt a b).map ofBool
  | .ge => (compare .ge a b).map ofBool

def negate : Number → Except Failure Number
  | int n => exact (-n.toInt)
  | float x => .ok (float x.negate)

/-- The int next to the number in the direction of zero, if it is one of 64 bits. -/
def truncate? (x : Double) : Option Int64 :=
  match Dyadic.ofDouble? x with
  | some d => int64OfInt? d.truncate
  | none => none

end Number

def Value.number? : Value → Option Number
  | int n => some (.int n)
  | float x => some (.float x)
  | _ => none

end TaskBasic
