import TaskBasic.Heap
import TaskBasic.Number.Arith

/-
Equality of values.

Numbers are equal by value, also an int and a float.  Arrays, dictionaries and
tuples are equal if their parts are; functions and futures only if they are
the same.  Two different containers that contain themselves may give equality
no answer: the comparison of their parts leads back to the same comparison.

* `equal? n` descends into at most `n` levels of containers and is `none`
  where that does not settle the answer.
* `equal` descends as many levels as there are pairs of containers; on a longer
  way some pair occurs twice, so that no number of levels is enough.
-/

namespace TaskBasic

/-- Compares two lists of values part by part, up to the first difference. -/
def equalLists (eq : Value → Value → Option Bool) : List Value → List Value → Option Bool
  | [], [] => some true
  | x :: xs, y :: ys =>
    match eq x y with
    | some true => equalLists eq xs ys
    | other => other
  | _, _ => some false

/-- Compares two lists of entries, names first, up to the first difference. -/
def equalEntries (eq : Value → Value → Option Bool) :
    List (String × Value) → List (String × Value) → Option Bool
  | [], [] => some true
  | (k, x) :: xs, (l, y) :: ys =>
    if k = l then
      match eq x y with
      | some true => equalEntries eq xs ys
      | other => other
    else some false
  | _, _ => some false

mutual

/-- Equality of values, given that of two arrays and of two dictionaries. -/
def equalWith (arrays : ArrayRef → ArrayRef → Option Bool)
    (dicts : DictRef → DictRef → Option Bool) : Value → Value → Option Bool
  | .absent, .absent => some true
  | .int x, .int y => some (x == y)
  | .float x, .float y => some (x.equal y)
  | .int x, .float y => some ((Double.ofInt64 x).equal y)
  | .float x, .int y => some ((Double.ofInt64 y).equal x)
  | .str x, .str y => some (x == y)
  | .array r, .array s => arrays r s
  | .dict r, .dict s => dicts r s
  | .tuple xs, .tuple ys =>
    if xs.length = ys.length then equalItemsWith arrays dicts xs ys else some false
  | .function r, .function s => some (decide (r = s))
  | .future r, .future s => some (decide (r = s))
  | _, _ => some false

def equalItemsWith (arrays : ArrayRef → ArrayRef → Option Bool)
    (dicts : DictRef → DictRef → Option Bool) : List Value → List Value → Option Bool
  | [], [] => some true
  | x :: xs, y :: ys =>
    match equalWith arrays dicts x y with
    | some true => equalItemsWith arrays dicts xs ys
    | other => other
  | _, _ => some false

end

namespace Heap

/-- Equality of values down to `levels` levels of containers. -/
def equal? (h : Heap) : (levels : Nat) → Value → Value → Option Bool
  | 0 => fun _ _ => none
  | levels + 1 =>
    equalWith
      (fun r s =>
        if r = s then some true
        else if (h.array r).size = (h.array s).size then
          equalLists (h.equal? levels) (h.array r).toList (h.array s).toList
        else some false)
      (fun r s =>
        if r = s then some true
        else if (h.dict r).size = (h.dict s).size then
          equalEntries (h.equal? levels) (h.dict r).toList (h.dict s).toList
        else some false)

/-- The levels after which equality has an answer, if it has one at all. -/
def equalLevels (h : Heap) : Nat :=
  h.arrays.size * h.arrays.size + h.dicts.size * h.dicts.size + 1

/-- Equality of values; `none` if the comparison does not end. -/
def equal (h : Heap) (a b : Value) : Option Bool :=
  h.equal? h.equalLevels a b

end Heap

end TaskBasic
