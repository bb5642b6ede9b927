import TaskBasic.Number.Dyadic

/-
Reading numbers from texts.

An integer is an optional sign and decimal digits.  A float is an optional
sign and `inf`, `infinity` or `nan` in any case, or digits with at most one
point and an optional exponent.  Nothing else is accepted, white space least
of all.  Floats are rounded to the nearest double, and those too large become
infinite.
-/

namespace TaskBasic.Numeral

/-- Joins neighbours in a list of digits to the base `base`, the lowest one first, to digits
to the base `base * base`, behind those joined before, last one first. -/
def joinDigits (base : Nat) (joined : List Nat) : List Nat → List Nat
  | low :: high :: rest => joinDigits base ((low + base * high) :: joined) rest
  | [d] => (d :: joined).reverse
  | [] => joined.reverse

/-- The number that digits to the base `base` denote, the lowest one first.  Each round
halves their number, so `rounds` may be any bound of its binary logarithm; joining
neighbours keeps the factors of all products equally long. -/
def joinedValue : (rounds base : Nat) → List Nat → Nat
  | _, _, [] => 0
  | _, _, [d] => d
  | 0, base, ds => ds.foldr (fun d n => d + base * n) 0
  | rounds + 1, base, ds => joinedValue rounds (base * base) (joinDigits base [] ds)

def digitsValue (cs : List Char) : Nat :=
  joinedValue (cs.length.log2 + 1) 10 (cs.reverse.map fun c => c.toNat - '0'.toNat)

/-- The natural number written with decimal digits, at least one and nothing else. -/
def natOfChars? (cs : List Char) : Option Nat :=
  if cs.isEmpty || !cs.all Char.isDigit then none else some (digitsValue cs)

/-- Splits off a sign: whether it is a minus, and what follows. -/
def splitSign : List Char → Bool × List Char
  | '-' :: rest => (true, rest)
  | '+' :: rest => (false, rest)
  | cs => (false, cs)

def int? (s : String) : Option Int :=
  let (negative, cs) := splitSign s.toList
  (natOfChars? cs).map fun n => if negative then -(n : Int) else n

def int64? (s : String) : Option Int64 :=
  match int? s with
  | some n =>
    if Int64.minValue.toInt ≤ n ∧ n ≤ Int64.maxValue.toInt then some (Int64.ofInt n) else none
  | none => none

/-- An unsigned integer of 64 bits: an optional plus and digits. -/
def size? (s : String) : Option Nat :=
  let cs := match s.toList with
    | '+' :: rest => rest
    | cs => cs
  match natOfChars? cs with
  | some n => if n < exp2 64 then some n else none
  | none => none

/-- The double nearest to `digits * 10 ^ exponent`.  `count` bounds the number of digits:
far outside the range of doubles the power of ten is not computed. -/
def scientific (negative : Bool) (digits count : Nat) (exponent : Int) : Double :=
  if digits = 0 then .zero negative
  else if 400 < exponent then .infinity negative
  else if exponent + count < -400 then .zero negative
  else Dyadic.nearest negative (digits * exp10 exponent.toNat) (exp10 (-exponent).toNat)

/-- The magnitude of an exponent.  Digits behind one that is far outside the range of doubles
do not count. -/
def exponentValue (cs : List Char) : Nat :=
  cs.foldl (fun n c => if n < 65536 then 10 * n + (c.toNat - '0'.toNat) else n) 0

/-- The exponent part of a float: nothing, or `e`, an optional sign and digits. -/
def exponent? : List Char → Option Int
  | [] => some 0
  | c :: rest =>
    if c == 'e' || c == 'E' then
      let (negative, cs) := splitSign rest
      if cs.isEmpty || !cs.all Char.isDigit then none
      else if negative then some (-(exponentValue cs : Int))
      else some (exponentValue cs)
    else none

def decimal? (negative : Bool) (cs : List Char) : Option Double :=
  let whole := cs.takeWhile Char.isDigit
  let rest := cs.dropWhile Char.isDigit
  let (fraction, rest) := match rest with
    | '.' :: more => (more.takeWhile Char.isDigit, more.dropWhile Char.isDigit)
    | _ => ([], rest)
  if whole.isEmpty && fraction.isEmpty then none
  else
    (exponent? rest).map fun e =>
      let digits := whole ++ fraction
      scientific negative (digitsValue digits) digits.length (e - fraction.length)

def float? (s : String) : Option Double :=
  let (negative, cs) := splitSign s.toList
  let word := cs.map Char.toLower
  if word == "inf".toList || word == "infinity".toList then some (.infinity negative)
  else if word == "nan".toList then some (.notANumber negative)
  else decimal? negative cs

end TaskBasic.Numeral
