/-
White space, and the operations that cut it away.

`isBlank` is the property White_Space (25 characters).  Texts are trimmed and
split into words with respect to it.
-/

namespace TaskBasic.Text

/-- White space: the characters with the property White_Space. -/
def isBlank (c : Char) : Bool :=
  let n := c.toNat
  (decide (0x09 ≤ n) && decide (n ≤ 0x0d)) || n == 0x20 || n == 0x85 || n == 0xa0 || n == 0x1680 ||
    (decide (0x2000 ≤ n) && decide (n ≤ 0x200a)) || n == 0x2028 || n == 0x2029 || n == 0x202f ||
    n == 0x205f || n == 0x3000

def trimStart (s : String) : String :=
  String.ofList (s.toList.dropWhile isBlank)

def trimEnd (s : String) : String :=
  String.ofList (s.toList.reverse.dropWhile isBlank).reverse

def trim (s : String) : String :=
  trimEnd (trimStart s)

def isBlankText (s : String) : Bool :=
  s.toList.all isBlank

/-- The maximal runs of characters that are not white space, in order.  `word`
is the run being read, last character first. -/
def wordsFrom (word : List Char) (found : List String) : List Char → List String
  | [] => (if word.isEmpty then found else String.ofList word.reverse :: found).reverse
  | c :: rest =>
    if isBlank c then
      wordsFrom [] (if word.isEmpty then found else String.ofList word.reverse :: found) rest
    else wordsFrom (c :: word) found rest

def words (s : String) : List String :=
  wordsFrom [] [] s.toList

end TaskBasic.Text
