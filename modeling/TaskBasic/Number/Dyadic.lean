import TaskBasic.Number.Double

/-
Floating-point numbers as dyadic fractions.

A finite double is a sign and a fraction `m * 2 ^ q` with a natural number `m`
below `2 ^ 53`.  `Dyadic.ofDouble?` takes a double apart along its bit pattern,
and `Dyadic.nearest` goes back from any fraction of natural numbers, rounding
to the nearest double and to the even one of two that are equally near.  With
these two, remainders, conversions and decimal texts are exact computations
on natural numbers.
-/

namespace TaskBasic

def exp2 (n : Nat) : Nat := Nat.pow 2 n

def exp10 (n : Nat) : Nat := Nat.pow 10 n

/-- The magnitude `mantissa * 2 ^ exponent` of a finite double, with its sign. -/
structure Dyadic where
  /-- True for numbers with the sign bit set, `-0.0` among them. -/
  negative : Bool
  mantissa : Nat
  exponent : Int
deriving Repr, DecidableEq

namespace Dyadic

/-- The parts of a finite double; `none` for infinities and NaN. -/
def ofDouble? (x : Double) : Option Dyadic :=
  let bits : Nat := x.bits.toNat
  let negative := decide (exp2 63 ≤ bits)
  let field : Nat := bits / exp2 52 % exp2 11
  let fraction : Nat := bits % exp2 52
  if field = 2047 then none
  else if field = 0 then some ⟨negative, fraction, -1074⟩
  else some ⟨negative, fraction + exp2 52, (field : Int) - 1075⟩

def ofPattern (negative : Bool) (pattern : Nat) : Double :=
  ⟨UInt64.ofNat (if negative then pattern + exp2 63 else pattern)⟩

/-- The pattern of infinity, above those of all finite magnitudes. -/
def infinityPattern : Nat := 2047 * exp2 52

/-- `num / den` scaled down by `2 ^ q`, rounded to the nearest natural number, a half to
the even one. -/
def roundScaled (num den : Nat) (q : Int) : Nat :=
  let n := num * exp2 (-q).toNat
  let d := den * exp2 q.toNat
  let floor := n / d
  let rest := n % d
  if d < 2 * rest then floor + 1
  else if 2 * rest = d && floor % 2 == 1 then floor + 1
  else floor

/-- The pattern of the double nearest to `num / den`.  The exponent is chosen so that the
rounded mantissa has 53 bits, or as many as numbers near zero have; a mantissa that
rounds up to `2 ^ 53` carries into the exponent by itself. -/
def nearestPattern (num den : Nat) : Nat :=
  if num = 0 then 0
  else
    let top : Int := (num.log2 : Int) - den.log2
    let least := top - 52
    let floor := num * exp2 (-least).toNat / (den * exp2 least.toNat)
    let fitting := if floor < exp2 52 then least - 1 else least
    let q := max fitting (-1074)
    min (roundScaled num den q + (q + 1074).toNat * exp2 52) infinityPattern

def nearest (negative : Bool) (num den : Nat) : Double :=
  ofPattern negative (nearestPattern num den)

/-- The numerator of the magnitude over the denominator `2 ^ (-q)`, for any `q` that is
at most the exponent. -/
def scaledTo (d : Dyadic) (q : Int) : Nat :=
  d.mantissa * exp2 (d.exponent - q).toNat

def floorMagnitude (d : Dyadic) : Nat :=
  d.mantissa * exp2 d.exponent.toNat / exp2 (-d.exponent).toNat

def isIntegral (d : Dyadic) : Bool :=
  d.mantissa % exp2 (-d.exponent).toNat == 0

def truncate (d : Dyadic) : Int :=
  if d.negative then -(d.floorMagnitude : Int) else d.floorMagnitude

end Dyadic

/-- The remainder of `x` by `y` with the sign of `x`, exact for all finite numbers. -/
def Double.remainder (x y : Double) : Double :=
  if x.isNaN then x
  else if y.isNaN then y
  else
    match Dyadic.ofDouble? x, Dyadic.ofDouble? y with
    | some a, some b =>
      if b.mantissa = 0 then indefinite
      else
        let q := min a.exponent b.exponent
        let rest := a.scaledTo q % b.scaledTo q
        Dyadic.nearest a.negative (rest * exp2 q.toNat) (exp2 (-q).toNat)
    | some _, none => x
    | none, _ => indefinite

end TaskBasic
