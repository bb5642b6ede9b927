import Mathlib.Algebra.GroupWithZero.Nat
import TaskBasic.Token.Scan

/-
How long a text has to be for a token.

The weight of a token counts the characters that it takes at least; that of an
f-string counts the code inside it, which is scanned once more.

* `scanFText_fits` — an f-string weighs no more than its characters.
* `scanFrom_fstring` — only the scan of an f-string gives one.
-/

namespace TaskBasic

/-- The characters that the pieces of an f-string take at least. -/
def piecesWeight (pieces : List FPiece) : Nat :=
  (pieces.map fun
    | .text _ => 1
    | .code source _ => source.length + 2).sum

/-- The characters that a token takes at least. -/
def TokenKind.weight : TokenKind → Nat
  | .fstring pieces => piecesWeight pieces + 1
  | _ => 1

/-- The characters that tokens take at least. -/
def weight (ks : List TokenKind) : Nat := (ks.map TokenKind.weight).sum

@[simp] theorem weight_nil : weight [] = 0 := rfl

@[simp] theorem weight_cons (k : TokenKind) (ks : List TokenKind) :
    weight (k :: ks) = k.weight + weight ks := rfl

@[simp] theorem weight_append (ks ls : List TokenKind) :
    weight (ks ++ ls) = weight ks + weight ls := by
  simp [weight]

theorem TokenKind.one_le_weight (k : TokenKind) : 1 ≤ k.weight := by
  cases k <;> first | exact Nat.le_refl 1 | exact Nat.le_add_left 1 _

@[simp] theorem piecesWeight_cons (piece : FPiece) (pieces : List FPiece) :
    piecesWeight (piece :: pieces) = (match piece with
      | .text _ => 1
      | .code source _ => source.length + 2) + piecesWeight pieces := rfl

theorem piecesWeight_reverse (pieces : List FPiece) :
    piecesWeight pieces.reverse = piecesWeight pieces := by
  rw [piecesWeight, List.map_reverse, List.sum_reverse]
  rfl

theorem piecesWeight_pushText (pieces : List FPiece) (text : List Char) :
    piecesWeight (pushText pieces text) ≤ piecesWeight pieces + text.length := by
  rw [pushText]
  split
  · exact Nat.le_add_right _ _
  next h =>
    cases text with
    | nil => exact absurd rfl h
    | cons c cs =>
      simp only [piecesWeight_cons, List.length_cons]
      omega

/-! ### Kinds of tokens -/

/-- The piece without the place of its code. -/
def FPiece.bare : FPiece → FPiece
  | .text s => .text s
  | .code source _ => .code source 0

namespace TokenKind

/-- The token without the places of the code in it, which do not matter to the parser. -/
def bare : TokenKind → TokenKind
  | .fstring pieces => .fstring (pieces.map FPiece.bare)
  | k => k

@[simp] theorem weight_bare (k : TokenKind) : k.bare.weight = k.weight := by
  cases k with
  | fstring pieces =>
    simp only [bare, weight, piecesWeight, List.map_map]
    congr 3
    funext piece
    cases piece <;> rfl
  | _ => rfl

@[simp] theorem isMark_bare (k : TokenKind) (m : Mark) : k.bare.isMark m = k.isMark m := by
  cases k <;> rfl

@[simp] theorem isKeyword_bare (k : TokenKind) (m : Keyword) :
    k.bare.isKeyword m = k.isKeyword m := by
  cases k <;> rfl

@[simp] theorem isEof_bare (k : TokenKind) : k.bare.isEof = k.isEof := by
  cases k <;> rfl

theorem eq_of_bare {k l : TokenKind} (h : k.bare = l) (hl : ∀ pieces, l ≠ .fstring pieces) :
    k = l := by
  cases k with
  | fstring pieces => exact absurd h.symm (hl _)
  | _ => exact h

end TokenKind

/-- The kind of a token, without the places of the code in it. -/
def Token.form (t : Token) : TokenKind := t.kind.bare

/-! ### One token -/

/-- The token and what is left take at most `n` characters. -/
def Weighs (r : TokenKind × Rest) (n : Nat) : Prop :=
  r.1.weight + r.2.chars.length ≤ n

theorem Weighs.mono {r : TokenKind × Rest} {m n : Nat} (h : Weighs r m) (hle : m ≤ n) :
    Weighs r n :=
  Nat.le_trans h hle

theorem scanFText_fits (quote : Char) :
    (∀ pieces text cs p, Weighs (scanFText quote pieces text cs p)
      (piecesWeight pieces + text.length + cs.length + 1)) ∧
    (∀ pieces start depth inner code cs p,
      Weighs (scanFCode quote pieces start depth inner code cs p)
        (piecesWeight pieces + code.length + cs.length + 2)) := by
  apply scanFText.mutual_induct quote
  all_goals intros
  all_goals first | rw [scanFText.eq_def] | rw [scanFCode.eq_def]
  all_goals simp only [*, if_true, if_false, Bool.false_eq_true]
  -- what goes on takes at least one character; what has ended leaves no more than there was
  all_goals first
    | refine Weighs.mono ‹_› ?_
      simp only [List.length_cons, List.length_nil, piecesWeight_cons, String.length_ofList,
        List.length_reverse]
      have hpush := piecesWeight_pushText
      grind
    | simp only [Weighs, TokenKind.weight, List.length_cons, List.length_nil, piecesWeight_reverse]
      have hpush := piecesWeight_pushText
      grind

namespace Text

/-- What may begin a word may continue it. -/
theorem isWordPart_of_isWordStart {c : Char} (h : isWordStart c = true) : isWordPart c = true := by
  rw [isWordPart, h, Bool.true_or]

end Text

/-- A number takes a character if a digit is the first or stands behind a point. -/
theorem numberText_ne_nil {c : Char} {cs : List Char}
    (h : c.isDigit = true ∨ c = '.' ∧ (cs.head?.map Char.isDigit).getD false = true) :
    (numberText (c :: cs)).1 ≠ [] := by
  rcases h with hc | ⟨rfl, hd⟩
  · rw [numberText, List.takeWhile_cons_of_pos hc]
    split
    · split <;> simp
    · simp
  · cases cs with
    | nil => cases hd
    | cons d cs =>
      have hd : d.isDigit = true := hd
      have hpoint : ('.').isDigit = false := by decide
      simp [numberText, hpoint, hd]

theorem scanString_ne_fstring (quote : Char) (done cs : List Char) (p : Place)
    (pieces : List FPiece) : (scanString quote done cs p).1 ≠ .fstring pieces := by
  fun_induction scanString quote done cs p with
  | case5 _ _ _ _ _ _ _ _ ih | case6 _ _ _ _ _ _ _ ih => exact ih
  | _ => rintro ⟨⟩

theorem numberKind_ne_fstring (text : List Char) (isFloat : Bool) (pieces : List FPiece) :
    numberKind text isFloat ≠ .fstring pieces := by
  rw [numberKind]
  split
  · rintro ⟨⟩
  · simp only
    split
    · rintro ⟨⟩
    · split <;> rintro ⟨⟩

theorem scanWord_ne_fstring (r : Rest) (pieces : List FPiece) :
    (scanWord r).1 ≠ .fstring pieces := by
  simp only [scanWord, scanEndWord?]
  split
  · cases Keyword.ofEndWord? (Text.lowercase (String.ofList
        (((r.skip (r.chars.takeWhile Text.isWordPart)).chars.drop _).takeWhile
          Text.isWordPart))) with
    | some k => rintro ⟨⟩
    | none =>
      simp only [Option.map_none, Option.getD_none]
      split <;> rintro ⟨⟩
  · split <;> rintro ⟨⟩

theorem scanFrom_fstring {c : Char} {cs : List Char} {p : Place} {pieces : List FPiece}
    (h : (scanFrom c cs p).1 = .fstring pieces) : ∃ q more, cs = q :: more ∧
      scanFrom c cs p = scanFText q [] [] more ((p.after c).after q) := by
  revert h
  rw [scanFrom.eq_def]
  simp only
  split
  · rintro ⟨⟩
  split
  · rintro ⟨⟩
  · rintro ⟨⟩
  split
  · exact fun h => absurd h (scanString_ne_fstring _ _ _ _ _)
  split
  · exact fun h => absurd h (numberKind_ne_fstring _ _ _)
  split
  next q more _ _ =>
    split
    · exact fun _ => ⟨q, more, rfl, rfl⟩
    split
    · exact fun h => absurd h (scanWord_ne_fstring _ _)
    · rintro ⟨⟩
  next =>
    split
    · exact fun h => absurd h (scanWord_ne_fstring _ _)
    · rintro ⟨⟩

theorem skipGap_length (nested inComment : Bool) (cs : List Char) (p : Place) :
    (skipGap nested inComment cs p).chars.length ≤ cs.length := by
  fun_induction skipGap nested inComment cs p with
  | case2 _ _ _ _ _ ih | case3 _ _ _ _ _ _ ih | case4 _ _ _ _ _ _ _ ih => exact Nat.le_succ_of_le ih
  | _ => exact Nat.le_refl _

end TaskBasic
