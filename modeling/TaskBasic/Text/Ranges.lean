/-
Sets of characters given by ranges of code points.

A property of characters that a standard lays down as data is a table of
closed ranges in increasing order.  `inRanges` decides membership; the tables
themselves stand in the modules named for the property, and hold only what
lies above U+007F, so that the ASCII part of each property is a plain formula.
They are written down as lengths of runs, which `rangesOf` turns into ranges; a
small letter or digit ends each number (`numbersOf`).
-/

namespace TaskBasic.Text

/-- The numbers that a text spells.  The last figure of a number is a digit or a small letter and
counts up to 35; the capital letters before it, from 1 to 26, count the multiples of 36. -/
def numbersFrom (n : Nat) : List Char → List Nat
  | [] => []
  | c :: cs =>
    if c.isUpper then numbersFrom (n * 26 + (c.toNat - 64)) cs
    else (n * 36 + (if c.isDigit then c.toNat - 48 else c.toNat - 87)) :: numbersFrom 0 cs

/-- Blanks and line ends are passed over. -/
def numbersOf (s : String) : List Nat :=
  numbersFrom 0 (s.toList.filter Char.isAlphanum)

/-- The ranges from the code point `n` on, from the lengths of the runs of characters that lie
outside and inside the set by turns. -/
def rangesFrom (n : Nat) : List Nat → List (Nat × Nat)
  | outside :: inside :: rest =>
    (n + outside, n + outside + inside - 1) :: rangesFrom (n + outside + inside) rest
  | _ => []

def rangesOf (runs : String) : Array (Nat × Nat) :=
  (rangesFrom 128 (numbersOf runs)).toArray

/-- True if the code point of `c` lies in one of the closed ranges of `table`. -/
def inRanges (table : Array (Nat × Nat)) (c : Char) : Bool :=
  table.any fun (lo, hi) => decide (lo ≤ c.toNat) && decide (c.toNat ≤ hi)

def isAscii (c : Char) : Bool :=
  decide (c.toNat < 128)

end TaskBasic.Text
