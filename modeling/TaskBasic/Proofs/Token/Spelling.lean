import TaskBasic.Proofs.Expr.Grammar
import TaskBasic.Proofs.Token.Lexeme
import TaskBasic.Text.Quoted

/-
The spelling of literals.

`Scans n cs ks` says that the tokens of the text `cs` are of the kinds `ks`,
wherever it stands.  Ints and quoted texts are scanned as the tokens that spell
them.
-/

namespace TaskBasic

/-- With `n` brackets open, the tokens of the text `cs` are of the kinds `ks`. -/
def Scans (n : Nat) (cs : List Char) (ks : List TokenKind) : Prop :=
  ∀ p, ∃ ts, Tokenizes n p cs ts ∧ ts.map Token.form = ks

namespace Scans

variable {n : Nat} {cs l : List Char} {ks : List TokenKind} {k : TokenKind} {c : Char}

theorem eof : Scans n [] [.eof] := fun _ => ⟨_, .eof, rfl⟩

theorem blank (h : Scans n cs ks) : Scans n (' ' :: cs) ks := fun p =>
  let ⟨ts, hts, hks⟩ := h (p.after ' ')
  ⟨ts, hts.blank, hks⟩

theorem mark {m : Mark} (hgap : c ∉ [' ', '\t', '\r', '\n', '/', ';'])
    (hmark : ∀ next, markOf? c next = some (m, false))
    (h : Scans (Scanner.nestingAfter n (.mark m)) cs ks) : Scans n (c :: cs) (.mark m :: ks) :=
  fun p =>
    let ⟨_, hts, hks⟩ := h (p.after c)
    ⟨_, hts.mark hgap hmark, congrArg _ hks⟩

theorem lexeme (hl : Lexeme l k) (hcs : Delimited cs)
    (h : Scans (Scanner.nestingAfter n k) cs ks) : Scans n (l ++ cs) (k.bare :: ks) := fun p =>
  let ⟨_, hts, hks⟩ := h (p.afterAll l)
  ⟨_, hl.yields hcs hts, congrArg _ hks⟩

/-- The tokens of a whole text. -/
theorem kinds {source : String} (h : Scans 0 source.toList (ks ++ [k])) (line : Nat) :
    (Cursor.ofText source line).kinds = ks ++ [k] := by
  obtain ⟨ts, hts, hks⟩ := h ⟨0, .ofNat line⟩
  rw [Cursor.ofText, hts.tokens]
  cases ts with
  | nil => exact absurd hks (by simp)
  | cons t ts => exact hks

end Scans

/-! ### Ints -/

namespace Numeral

/-- The number that digits to the base `base` denote, the lowest one first. -/
def lowFirst (base : Nat) (ds : List Nat) : Nat := ds.foldr (fun d n => d + base * n) 0

theorem lowFirst_joinDigits (base : Nat) (joined ds : List Nat) :
    lowFirst (base * base) (joinDigits base joined ds) =
      joined.reverse.foldr (fun d n => d + base * base * n) (lowFirst base ds) := by
  induction joined, ds using joinDigits.induct base with
  | case1 joined low high rest ih =>
    rw [joinDigits, ih]
    simp [lowFirst, Nat.mul_add, Nat.mul_assoc, Nat.add_assoc]
  | case2 joined d | case3 joined => simp [joinDigits, lowFirst]

theorem joinedValue_eq (rounds base : Nat) (ds : List Nat) :
    joinedValue rounds base ds = lowFirst base ds := by
  induction rounds generalizing base ds with
  | zero =>
    match ds with
    | [] => rfl
    | [d] => simp [joinedValue, lowFirst]
    | d :: e :: ds => rfl
  | succ rounds ih =>
    match ds with
    | [] => rfl
    | [d] => simp [joinedValue, lowFirst]
    | d :: e :: ds =>
      rw [joinedValue, ih, lowFirst_joinDigits]
      · rfl
      · nofun
      · nofun

/-- Decimal digits denote the number that they write. -/
theorem digitsValue_toDigits (n : Nat) : digitsValue (Nat.toDigits 10 n) = n := by
  have hfold : ∀ (cs : List Char) (init : Nat),
      Nat.ofDigitChars 10 cs init = (cs.reverse.map fun c => c.toNat - '0'.toNat).foldr
        (fun d n => d + 10 * n) init := by
    intro cs init
    rw [Nat.ofDigitChars, List.map_reverse, List.foldr_reverse, List.foldl_map]
    congr 1
    funext n c
    exact Nat.add_comm _ _
  rw [digitsValue, joinedValue_eq, lowFirst, ← hfold]
  exact Nat.ofDigitChars_toDigits (by decide) (by decide)

end Numeral

def intTokens (n : Int64) : List TokenKind :=
  if 0 ≤ n.toInt then [.int n]
  else if n = leastInt then [.mark .minus, .leastMagnitude]
  else [.mark .minus, .int (-n)]

def intLiteral (n : Int64) : Expr :=
  if 0 ≤ n.toInt then .int n
  else if n = leastInt then .int leastInt
  else .neg (.int (-n))

theorem numberKind_toDigits (m : Nat) : numberKind (Nat.toDigits 10 m) false =
    if m < leastMagnitude then .int (Int64.ofNat m)
    else if m = leastMagnitude then .leastMagnitude
    else .error (.tooLarge (String.ofList (Nat.toDigits 10 m))) := by
  rw [numberKind, Numeral.digitsValue_toDigits]
  rfl

theorem lexeme_toDigits {m : Nat} {k : TokenKind} (hk : numberKind (Nat.toDigits 10 m) false = k)
    (heof : k.isEof = false) : Lexeme (Nat.toDigits 10 m) k := by
  subst hk
  have hdigits : ∀ c ∈ Nat.toDigits 10 m, c.isDigit = true := fun c hc =>
    Nat.isDigit_of_mem_toDigits (by decide) (by decide) hc
  cases hl : Nat.toDigits 10 m with
  | nil => exact absurd hl Nat.toDigits_ne_nil
  | cons c l =>
    rw [hl] at hdigits heof
    exact .digits hdigits heof

theorem Scans.int {n : Nat} {cs : List Char} {ks : List TokenKind} (h : Scans n cs ks)
    (hcs : Delimited cs) (i : Int64) :
    Scans n ((toString i.toInt).toList ++ cs) (intTokens i ++ ks) := by
  have hmin := Int64.le_toInt i
  have hmax := Int64.toInt_lt i
  have hleast : leastInt.toInt = -9223372036854775808 := rfl
  by_cases hsign : 0 ≤ i.toInt
  · obtain ⟨m, hm⟩ := Int.eq_ofNat_of_zero_le hsign
    have htext : (toString i.toInt).toList = Nat.toDigits 10 m := by
      rw [hm, Int.toString_eq_repr]
      exact Nat.toList_repr
    have hkind : numberKind (Nat.toDigits 10 m) false = .int i := by
      rw [numberKind_toDigits, if_pos (by unfold leastMagnitude; omega), ← Int64.ofInt_toInt i, hm]
      rfl
    rw [htext, intTokens, if_pos hsign]
    exact .lexeme (lexeme_toDigits hkind rfl) hcs h
  · obtain ⟨m, hm⟩ := Int.eq_negSucc_of_lt_zero (Int.lt_of_not_ge hsign)
    have hvalue : i.toInt = -((m + 1 : Nat) : Int) := by rw [hm, Int.negSucc_eq]; rfl
    have htext : (toString i.toInt).toList = '-' :: Nat.toDigits 10 (m + 1) := by
      rw [hm, Int.toString_eq_repr, Int.repr, String.toList_append, Nat.toList_repr]
      rfl
    rw [htext, intTokens, if_neg hsign]
    by_cases hi : i = leastInt
    · have hkind : numberKind (Nat.toDigits 10 (m + 1)) false = .leastMagnitude := by
        have hm : m + 1 = leastMagnitude := by
          rw [hi] at hvalue
          unfold leastMagnitude
          omega
        rw [numberKind_toDigits, hm]
        rfl
      rw [if_pos hi]
      exact .mark (by decide) (fun _ => rfl) (.lexeme (lexeme_toDigits hkind rfl) hcs h)
    · have hlt : m + 1 < leastMagnitude := by
        have hne : i.toInt ≠ leastInt.toInt := fun heq => hi (Int64.toInt_inj.mp heq)
        unfold leastMagnitude
        omega
      have hkind : numberKind (Nat.toDigits 10 (m + 1)) false = .int (-i) := by
        rw [numberKind_toDigits, if_pos hlt, ← Int64.ofInt_toInt i, ← Int64.ofInt_neg, hvalue,
          Int.neg_neg]
        rfl
      rw [if_neg hi]
      exact .mark (by decide) (fun _ => rfl) (.lexeme (lexeme_toDigits hkind rfl) hcs h)

/-! ### Texts -/

/-- Every character can be seen or has a short escape. -/
def Text.Writable (s : String) : Prop :=
  ∀ c ∈ s.toList, Text.isPrintable c = true ∨ c ∈ ['"', '\\', '\n', '\r', '\t', Char.ofNat 0]

instance (s : String) : Decidable (Text.Writable s) :=
  List.decidableBAll
    (fun c => Text.isPrintable c = true ∨ c ∈ ['"', '\\', '\n', '\r', '\t', Char.ofNat 0])
    s.toList

theorem Text.toList_quote (s : String) :
    (Text.quote s).toList =
      '"' :: (s.toList.flatMap (fun c => (Text.quoteChar c).toList) ++ ['"']) := by
  have hfold : ∀ (cs : List Char) (out : String),
      (cs.foldl (fun out c => out ++ Text.quoteChar c) out).toList =
        out.toList ++ cs.flatMap fun c => (Text.quoteChar c).toList := by
    intro cs
    induction cs with
    | nil => simp
    | cons c cs ih => intro out; simp [ih]
  rw [Text.quote, String.toList_append, hfold]
  rfl

theorem Text.spellsChar_quoteChar {c : Char}
    (hc : Text.isPrintable c = true ∨ c ∈ ['"', '\\', '\n', '\r', '\t', Char.ofNat 0]) :
    Lexeme.SpellsChar '"' c (Text.quoteChar c).toList := by
  by_cases hspecial : c ∈ ['"', '\\', '\n', '\r', '\t', Char.ofNat 0]
  · simp only [List.mem_cons, List.not_mem_nil, or_false] at hspecial
    rcases hspecial with rfl | rfl | rfl | rfl | rfl | rfl <;> exact .inl ⟨_, by decide, rfl, rfl⟩
  · have hprintable := hc.resolve_right hspecial
    have hzero : c.toNat ≠ 0 := fun hz => hspecial (by
      rw [← Char.ofNat_toNat c, hz]
      decide)
    simp only [List.mem_cons, List.not_mem_nil, or_false, not_or] at hspecial
    refine .inr ⟨by simp [hspecial], ?_⟩
    simp [Text.quoteChar, hspecial, hzero, hprintable]

theorem Lexeme.quote {s : String} (hs : Text.Writable s) :
    Lexeme (Text.quote s).toList (.str s) := by
  have hl := Lexeme.string fun c hc => Text.spellsChar_quoteChar (hs c hc)
  rwa [String.ofList_toList, ← Text.toList_quote] at hl

end TaskBasic
