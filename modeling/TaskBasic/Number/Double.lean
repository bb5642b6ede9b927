/-
Floating-point numbers of 64 bits.

A double is given by its bits: a sign, an exponent of 11 bits and a fraction of
52 bits.  Doubles with other bits are other doubles, among them the two zeros
and the values of either sign that are not numbers (NaN).  Programs compare
doubles by their value instead (`equal`, `less`): the two zeros are equal, and
what is not a number is equal to nothing.

Sums, differences, products and quotients are rounded to the nearest double.
An operand that is not a number is the result itself, the first one if both
are such; where two numbers have no result, as in `inf - inf`, it is
`indefinite`.
-/

namespace TaskBasic

structure Double where
  bits : UInt64
deriving Repr, DecidableEq, Inhabited

namespace Double

def signBit : UInt64 := 0x8000000000000000

/-- The bits of the positive infinity, above those of all finite magnitudes. -/
def infinityBits : UInt64 := 0x7ff0000000000000

def magnitude (x : Double) : UInt64 := x.bits &&& ~~~signBit

def isNaN (x : Double) : Bool := decide (infinityBits < x.magnitude)

def isInfinite (x : Double) : Bool := x.magnitude == infinityBits

def isZero (x : Double) : Bool := x.magnitude == 0

def isNegative (x : Double) : Bool := x.bits &&& signBit != 0

def zero (negative : Bool) : Double := ⟨if negative then signBit else 0⟩

def infinity (negative : Bool) : Double :=
  ⟨if negative then infinityBits ||| signBit else infinityBits⟩

/-- The value of the given sign that is not a number. -/
def notANumber (negative : Bool) : Double :=
  ⟨if negative then 0xfff8000000000000 else 0x7ff8000000000000⟩

/-- The result of an operation on numbers that has none. -/
def indefinite : Double := notANumber true

/-- The number that a double stands for, to compute with. -/
def toFloat (x : Double) : Float := Float.ofBits x.bits

def ofFloat (x : Float) : Double := if x.isNaN then indefinite else ⟨x.toBits⟩

def ofInt64 (n : Int64) : Double := ofFloat n.toFloat

def negate (x : Double) : Double := ⟨x.bits ^^^ signBit⟩

/-- An operation on numbers as one on doubles. -/
def combine (op : Float → Float → Float) (x y : Double) : Double :=
  if x.isNaN then x else if y.isNaN then y else ofFloat (op x.toFloat y.toFloat)

def add (x y : Double) : Double := combine (· + ·) x y

def sub (x y : Double) : Double := combine (· - ·) x y

def mul (x y : Double) : Double := combine (· * ·) x y

def div (x y : Double) : Double := combine (· / ·) x y

def equal (x y : Double) : Bool := x.toFloat == y.toFloat

def less (x y : Double) : Bool := decide (x.toFloat < y.toFloat)

end Double

end TaskBasic
