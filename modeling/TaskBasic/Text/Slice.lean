/-
Cutting a text at byte offsets.
-/

namespace TaskBasic.Text

/-- The characters from the byte offset `n` on. -/
def dropBytes (n : Nat) : List Char → List Char
  | [] => []
  | c :: cs => if n = 0 then c :: cs else dropBytes (n - c.utf8Size) cs

/-- The characters before the byte offset `n`. -/
def takeBytes (n : Nat) : List Char → List Char
  | [] => []
  | c :: cs => if n = 0 then [] else c :: takeBytes (n - c.utf8Size) cs

def slice (s : String) (start stop : Nat) : String :=
  String.ofList (takeBytes (stop - start) (dropBytes start s.toList))

/-- A byte offset that does not lie between two characters. -/
structure OffBoundary where
  offset : Nat
deriving Repr, DecidableEq

/-- The characters before and from the byte offset `n` on. -/
def cut (n : Nat) : List Char → Except OffBoundary (List Char × List Char)
  | [] => if n = 0 then .ok ([], []) else .error ⟨n⟩
  | c :: cs =>
    if n = 0 then .ok ([], c :: cs)
    else if n < c.utf8Size then .error ⟨n⟩
    else (cut (n - c.utf8Size) cs).map fun (before, after) => (c :: before, after)

end TaskBasic.Text
