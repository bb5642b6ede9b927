import TaskBasic.Prompt.Entry
import TaskBasic.Proofs.Token.Local

/-
Brackets at the prompt and in the scanner.

The prompt goes through the characters of an entry with a stack of brackets, and
tells texts and comments apart on its own.  Where the tokens of an entry are neither
mistakes nor f-strings, it comes to what the brackets among the tokens say.

* `balancedFrom_skipGap`, `balancedFrom_scanFrom` — a gap leaves the stack as it is,
  and a token changes it as the bracket does which it is.
* `isBalanced_eq_bracketsClose` — the verdict on the whole entry.
-/

namespace TaskBasic

open Prompt

/-- The bracket that a token is. -/
def TokenKind.bracket? : TokenKind → Option Char
  | .mark .leftParen => some '('
  | .mark .rightParen => some ')'
  | .mark .leftBracket => some '['
  | .mark .rightBracket => some ']'
  | .mark .leftBrace => some '\x7b'
  | .mark .rightBrace => some '\x7d'
  | _ => none

/-- True for tokens that are neither mistakes nor f-strings. -/
def TokenKind.isClear : TokenKind → Bool
  | .error _ | .fstring _ => false
  | _ => true

/-- The verdict on a bracket, if there is one, and on what `rest` says of the text behind it. -/
def judge (bracket : Option Char) (expected : List Char) (rest : List Char → Bool) : Bool :=
  match bracket with
  | none => rest expected
  | some c =>
    match closing? c with
    | some close => rest (close :: expected)
    | none => if expected.head? == some c then rest expected.tail else true

/-- Whether tokens close all that is open.  The verdict is also positive as soon as a bracket closes
what is not the innermost one. -/
def bracketsClose : (expected : List Char) → List TokenKind → Bool
  | expected, [] => expected.isEmpty
  | expected, k :: ks => judge k.bracket? expected fun expected => bracketsClose expected ks

/-! ### One step -/

section

variable {S cs : List Char} {c q : Char} {p : Place}

theorem balancedFrom_skipGap (nested inComment : Bool) (cs : List Char) (p : Place) :
    balancedFrom (if inComment then .comment else .code) S cs =
      balancedFrom .code S (skipGap nested inComment cs p).chars := by
  fun_induction skipGap nested inComment cs p with
  | case1 inComment => cases inComment <;> simp [balancedFrom]
  | case2 inComment c cs p h ih =>
    simp only [Bool.and_eq_true, bne_iff_ne] at h
    simpa [balancedFrom, h] using ih
  | case3 inComment c cs p h hblank ih =>
    simp only [Bool.or_eq_true, Bool.and_eq_true, beq_iff_eq] at hblank
    rw [← ih]
    cases inComment <;> rcases hblank with ((rfl | rfl) | rfl) | ⟨rfl, -⟩ <;>
      simp_all [balancedFrom, closing?, isClosing]
  | case4 inComment c cs p h hblank hslash ih =>
    rw [← ih]
    cases inComment <;> simp_all [balancedFrom]
  | case5 inComment c cs p h hblank hslash =>
    cases inComment <;> simp_all [balancedFrom, closing?, isClosing]

/-- The characters that the prompt does not pass over in code. -/
def seen : List Char := ['"', '\'', '/', '(', ')', '[', ']', '\x7b', '\x7d']

theorem balancedFrom_cons (hc : c ∉ seen) :
    balancedFrom .code S (c :: cs) = balancedFrom .code S cs := by
  simp only [seen, List.mem_cons, List.not_mem_nil, or_false, not_or] at hc
  rw [balancedFrom]
  simp [hc, closing?, isClosing]

theorem balancedFrom_tail (h : cs.head? = some c) (hc : c ∉ seen) :
    balancedFrom .code S cs = balancedFrom .code S cs.tail := by
  obtain ⟨cs, rfl⟩ := List.head?_eq_some_iff.mp h
  exact balancedFrom_cons hc

theorem balancedFrom_takeWhile {P : Char → Bool} (hP : ∀ c ∈ seen, P c = false) (cs : List Char) :
    balancedFrom .code S (cs.drop (cs.takeWhile P).length) = balancedFrom .code S cs := by
  induction cs with
  | nil => rfl
  | cons c cs ih =>
    cases hc : P c with
    | false => rw [List.takeWhile_cons_of_neg (by simp [hc])]; rfl
    | true =>
      have hseen : c ∉ seen := fun hmem => by simp [hP c hmem] at hc
      rw [List.takeWhile_cons_of_pos hc, balancedFrom_cons hseen, List.length_cons,
        List.drop_succ_cons, ih]

/-- The verdict on a token that has been found, and the text behind it. -/
def verdict (r : TokenKind × Rest) (expected : List Char) : Bool :=
  judge r.1.bracket? expected fun expected => balancedFrom .code expected r.2.chars

theorem verdict_of_none {r : TokenKind × Rest} (h : r.1.bracket? = none) :
    verdict r S = balancedFrom .code S r.2.chars := by
  rw [verdict, h, judge]

theorem balancedFrom_scanString (hq : q = '"' ∨ q = '\'') (done cs : List Char) (p : Place)
    (h : (scanString q done cs p).1.isClear = true) :
    balancedFrom (.quoted q) S cs = verdict (scanString q done cs p) S := by
  fun_induction scanString q done cs p with
  | case3 =>
    rw [verdict_of_none rfl, balancedFrom]
    grind
  | case5 _ _ _ _ _ _ _ _ ih =>
    rw [← ih h, balancedFrom]
    grind [balancedFrom]
  | case6 _ _ _ _ _ _ _ ih =>
    rw [← ih h, balancedFrom]
    grind
  | _ => cases h

theorem balancedFrom_scanWord (cs : List Char) (p : Place) :
    balancedFrom .code S cs = verdict (scanWord ⟨cs, p⟩) S := by
  have hword : ∀ c ∈ seen, Text.isWordPart c = false := forall_mem_of_all (by decide +kernel)
  have hblank : ∀ c ∈ seen, (c == ' ' || c == '\t') = false := forall_mem_of_all (by decide)
  have hplain {k : TokenKind} (hk : k.bracket? = none) : balancedFrom .code S cs =
      verdict (k, Rest.skip ⟨cs, p⟩ (cs.takeWhile Text.isWordPart)) S := by
    rw [verdict_of_none hk]
    exact (balancedFrom_takeWhile hword cs).symm
  simp only [scanWord, scanEndWord?]
  split
  · cases Keyword.ofEndWord? _ with
    | none => exact hplain (by split <;> rfl)
    | some k =>
      rw [Option.map_some, Option.getD_some, verdict_of_none rfl]
      simp only [Rest.skip, List.length_append, ← List.drop_drop]
      rw [balancedFrom_takeWhile hword, balancedFrom_takeWhile hblank, balancedFrom_takeWhile hword]
  · exact hplain (by split <;> rfl)

theorem balancedFrom_scanNumber (cs : List Char) (p : Place) :
    balancedFrom .code S cs = verdict (scanNumber ⟨cs, p⟩) S := by
  have hdigit : ∀ c ∈ seen, Char.isDigit c = false := forall_mem_of_all (by decide)
  have hkind (text : List Char) (isFloat : Bool) : (numberKind text isFloat).bracket? = none := by
    fun_cases numberKind text isFloat <;> rfl
  have hdrop : cs.drop (cs.takeWhile Char.isDigit).length = cs.dropWhile Char.isDigit := by
    calc cs.drop (cs.takeWhile Char.isDigit).length
        = (cs.takeWhile Char.isDigit ++ cs.dropWhile Char.isDigit).drop
          (cs.takeWhile Char.isDigit).length := by
          rw [List.takeWhile_append_dropWhile]
      _ = cs.dropWhile Char.isDigit := List.drop_left
  rw [verdict_of_none (hkind _ _), ← balancedFrom_takeWhile hdigit]
  show _ = balancedFrom .code S (cs.drop (numberText cs).1.length)
  rw [numberText]
  split
  next d more h =>
    split
    · rw [List.length_append, ← List.drop_drop, hdrop, h, List.length_cons, List.drop_succ_cons,
        balancedFrom_takeWhile hdigit, balancedFrom_cons (c := '.') (by decide)]
    · rfl
  next => rfl

theorem scanFText_isClear (quote : Char) :
    (∀ pieces text cs p, (scanFText quote pieces text cs p).1.isClear = false) ∧
    (∀ pieces start depth inner code cs p,
      (scanFCode quote pieces start depth inner code cs p).1.isClear = false) := by
  apply scanFText.mutual_induct quote
  all_goals intros
  all_goals first | rw [scanFText.eq_def] | rw [scanFCode.eq_def]
  all_goals simp only [*, if_true, if_false, Bool.false_eq_true]
  all_goals rfl

theorem balancedFrom_markOf? {m : Mark} {both : Bool} {r : Rest}
    (hslash : ¬(c = '/' ∧ cs.head? = some '/'))
    (h : markOf? c cs.head? = some (m, both)) (hr : r.chars = cs.drop both.toNat) :
    balancedFrom .code S (c :: cs) = verdict (.mark m, r) S := by
  revert h
  fun_cases markOf? c cs.head? <;> rintro ⟨⟩
  all_goals simp_all [balancedFrom, verdict, judge, TokenKind.bracket?, closing?, isClosing]
  all_goals exact balancedFrom_tail ‹_› (by decide)

theorem balancedFrom_scanFrom (hslash : ¬(c = '/' ∧ cs.head? = some '/'))
    (hclear : (scanFrom c cs p).1.isClear = true) :
    balancedFrom .code S (c :: cs) = verdict (scanFrom c cs p) S := by
  revert hclear
  fun_cases scanFrom c cs p <;> intro hclear
  case case1 h =>
    exact balancedFrom_cons
      (by rcases (by simpa using h : c = '\n' ∨ c = ';') with rfl | rfl <;> decide)
  case case2 hm => exact balancedFrom_markOf? hslash hm rfl
  case case3 hm => exact balancedFrom_markOf? hslash hm (by cases cs <;> rfl)
  case case4 h _ =>
    rw [← balancedFrom_scanString (by simpa using h) _ _ _ hclear, balancedFrom, if_pos h]
  case case5 => exact balancedFrom_scanNumber _ _
  case case6 => rw [(scanFText_isClear _).1] at hclear; cases hclear
  case case7 | case9 => exact balancedFrom_scanWord _ _
  all_goals cases hclear

end

/-! ### All tokens -/

theorem skipGap_stays {nested inComment : Bool} {cs : List Char} {p : Place} {c : Char}
    {rest : List Char}
    (h : (skipGap nested inComment cs p).chars = c :: rest) :
    ¬(c = '/' ∧ rest.head? = some '/') := by
  fun_induction skipGap nested inComment cs p with
  | case1 => cases h
  | case5 => simp_all
  | _ => exact ‹_ → _› h

theorem Scanner.balancedFrom_next (s : Scanner) (S : List Char)
    (hclear : s.next.1.kind.isClear = true) :
    balancedFrom .code S s.rest.chars = verdict (s.next.1.kind, s.next.2.rest) S := by
  have hgap :=
    balancedFrom_skipGap (S := S) (decide (0 < s.nesting)) false s.rest.chars s.rest.place
  have hstays := @skipGap_stays (decide (0 < s.nesting)) false s.rest.chars s.rest.place
  rw [next] at hclear ⊢
  refine hgap.trans ?_
  generalize skipGap (decide (0 < s.nesting)) false s.rest.chars s.rest.place = r at hclear hstays ⊢
  obtain ⟨chars, p⟩ := r
  cases chars with
  | nil => rfl
  | cons c cs => exact balancedFrom_scanFrom (hstays rfl) hclear

theorem balancedFrom_tokens {s : Scanner} {ts : List Token} (h : s.Yields ts) (S : List Char)
    (hclear : ∀ t ∈ ts, t.kind.isClear = true) :
    balancedFrom .code S s.rest.chars = bracketsClose S (ts.map Token.kind) := by
  induction h generalizing S with
  | @last s hkind hrest =>
    rw [s.balancedFrom_next S (hclear _ (by simp)), verdict_of_none (by rw [hkind]; rfl), hrest]
    simp [bracketsClose, hkind, judge, TokenKind.bracket?, balancedFrom]
  | @more s ts _ _ ih =>
    rw [s.balancedFrom_next S (hclear _ (by simp)), verdict]
    exact congrArg _ (funext fun S => ih S fun t ht => hclear t (by simp [ht]))

/-- Where the tokens of an entry are neither mistakes nor f-strings, the prompt finds its brackets
balanced if and only if the tokens do. -/
theorem isBalanced_eq_bracketsClose (entry : String)
    (h : ∀ t ∈ tokens entry 1, t.kind.isClear = true) :
    isBalanced entry = bracketsClose [] ((tokens entry 1).map Token.kind) :=
  balancedFrom_tokens (yields_tokens entry 1) [] h

/-- A bracket in a text or in a comment closes nothing. -/
theorem isBalanced_quoted_bracket : isBalanced "print(')' // )" = false :=
  (isBalanced_eq_bracketsClose _ (by decide +kernel)).trans (by decide +kernel)

end TaskBasic
