import TaskBasic.Number.Dyadic

/-
Decimal texts of floating-point numbers.

The text of a double has the fewest digits that read back as the same double;
of the candidates with that many digits it is the nearest one, the larger of
two that are equally near.  The search goes through the grids of decimals with
1, 2, ... 17 digits and tests the two neighbours of the number on each grid,
in exact arithmetic.

Digits are written positionally, never with an exponent.
-/

namespace TaskBasic

structure Decimal where
  digits : Nat
  exponent : Int
deriving Repr, DecidableEq

namespace Decimal

/-- Whether `a * 2 ^ s` is less than `d * 10 ^ p`. -/
def binaryLt (a : Nat) (s : Int) (d : Nat) (p : Int) : Bool :=
  Nat.blt (a * exp2 s.toNat * exp10 (-p).toNat) (d * exp10 p.toNat * exp2 (-s).toNat)

/-- Whether `d * 10 ^ p` is less than `a * 2 ^ s`. -/
def decimalLt (d : Nat) (p : Int) (a : Nat) (s : Int) : Bool :=
  Nat.blt (d * exp10 p.toNat * exp2 (-s).toNat) (a * exp2 s.toNat * exp10 (-p).toNat)

/-- The largest `p` with `10 ^ p ≤ m * 2 ^ q`, for a positive `m`: the binary logarithm
gives it up to one. -/
def magnitude (m : Nat) (q : Int) : Int :=
  let binary : Int := (m.log2 : Int) + q
  let guess := (binary * 30103).fdiv 100000
  if binaryLt m q 1 (guess + 1) then guess else guess + 1

/-- The reals that round to a given double, in units of a quarter of its last place:
`center` is the double itself. -/
structure Interval where
  low : Nat
  center : Nat
  high : Nat
  unit : Int
  /-- Whether the two ends round to the double as well. -/
  closed : Bool

/-- The interval of the positive double `m * 2 ^ q`.  Below a power of two the doubles
lie twice as close. -/
def intervalOf (m : Nat) (q : Int) : Interval :=
  { low := if m = exp2 52 && decide (-1074 < q) then 4 * m - 1 else 4 * m - 2
    center := 4 * m
    high := 4 * m + 2
    unit := q - 2
    closed := m % 2 == 0 }

/-- True if `d * 10 ^ p` rounds to the double of the interval. -/
def Interval.holds (i : Interval) (d : Nat) (p : Int) : Bool :=
  if i.closed then !decimalLt d p i.low i.unit && !binaryLt i.high i.unit d p
  else binaryLt i.low i.unit d p && decimalLt d p i.high i.unit

/-- The largest `d` with `d * 10 ^ p ≤ center`. -/
def Interval.floorOn (i : Interval) (p : Int) : Nat :=
  i.center * exp2 i.unit.toNat * exp10 (-p).toNat / (exp10 p.toNat * exp2 (-i.unit).toNat)

/-- The point of the grid `10 ^ p` that rounds to the double, if one of the two neighbours
of the center does. -/
def Interval.onGrid? (i : Interval) (p : Int) : Option Decimal :=
  let d := i.floorOn p
  match i.holds d p, i.holds (d + 1) p with
  | true, true =>
    -- the larger one unless the smaller one is strictly nearer
    if binaryLt (2 * i.center) i.unit (2 * d + 1) p then some ⟨d, p⟩
    else some ⟨d + 1, p⟩
  | true, false => some ⟨d, p⟩
  | false, true => some ⟨d + 1, p⟩
  | false, false => none

/-- The first grid with a hit, from the grid `10 ^ p` to finer ones, `left` grids at most. -/
def Interval.firstHit (i : Interval) (p : Int) : Nat → Decimal
  | 0 => ⟨i.floorOn p, p⟩
  | left + 1 =>
    match i.onGrid? p with
    | some d => d
    | none => firstHit i (p - 1) left

/-- Moves the zeros that the digits end with into the exponent. -/
def dropZeros (d : Nat) (p : Int) : Nat → Decimal
  | 0 => ⟨d, p⟩
  | left + 1 => if d % 10 = 0 then dropZeros (d / 10) (p + 1) left else ⟨d, p⟩

/-- The shortest decimal that reads back as the positive double `m * 2 ^ q`. -/
def shortest (m : Nat) (q : Int) : Decimal :=
  let hit := (intervalOf m q).firstHit (magnitude m q) 17
  dropZeros hit.digits hit.exponent 20

def zeros (n : Nat) : String :=
  String.ofList (List.replicate n '0')

def positional (d : Decimal) : String :=
  let digits := toString d.digits
  if 0 ≤ d.exponent then digits ++ zeros d.exponent.toNat
  else
    let places := (-d.exponent).toNat
    if digits.length ≤ places then "0." ++ zeros (places - digits.length) ++ digits
    else
      let whole := digits.toList.take (digits.length - places)
      let fraction := digits.toList.drop (digits.length - places)
      String.ofList whole ++ "." ++ String.ofList fraction

end Decimal

structure FloatFormat where
  /-- Integers with a magnitude below this are written with `.0` behind them. -/
  pointBelow : Nat
  nan : String
  infinite : String

def FloatFormat.write (format : FloatFormat) (x : Double) : String :=
  match Dyadic.ofDouble? x with
  | none =>
    if x.isNaN then format.nan
    else if x.isNegative then "-" ++ format.infinite else format.infinite
  | some d =>
    let sign := if d.negative then "-" else ""
    if d.isIntegral && decide (d.floorMagnitude < format.pointBelow) then
      sign ++ toString d.floorMagnitude ++ ".0"
    else if d.mantissa = 0 then sign ++ "0"
    else sign ++ (Decimal.shortest d.mantissa d.exponent).positional

/-- Floats as values: integers below `10 ^ 16` keep a point, so that they differ from ints. -/
def FloatFormat.value : FloatFormat := ⟨exp10 16, "nan", "inf"⟩

/-- Floats in messages about source text: no point behind an integer. -/
def FloatFormat.plain : FloatFormat := ⟨0, "NaN", "inf"⟩

/-- Floats in messages about settings: integers always keep a point. -/
def FloatFormat.pointed : FloatFormat := ⟨exp10 400, "NaN", "inf"⟩

end TaskBasic
