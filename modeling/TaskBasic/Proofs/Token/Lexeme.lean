import TaskBasic.Token.Scan

/-
Scanning a text piece by piece.

`Tokenizes n p cs ts` says that the scan, at the place `p` and with `n` brackets open,
reads the tokens `ts` from the text `cs`.  A text is read by its first token and
then by what is left; blanks before a token do not matter.

A `Lexeme` is the text of one token: wherever it stands, the scan reads the token
from it, if a delimiter or nothing at all comes behind.
-/

namespace TaskBasic

open List

variable {P : Char → Bool} {written : Char → List Char} {s : List Char}

variable {cs l : List Char} {c : Char}

/-- The scan reads the tokens `ts` from the text `cs` at the place `p`, where `n` brackets are
open. -/
def Tokenizes (n : Nat) (p : Place) (cs : List Char) (ts : List Token) : Prop :=
  ∀ steps found, cs.length ≤ steps →
    Scanner.collect steps found ⟨⟨cs, p⟩, n⟩ = found.reverse ++ ts

def Place.token (p : Place) (l : List Char) (k : TokenKind) : Token :=
  ⟨k, p.offset, (p.afterAll l).offset, p.line.toNat⟩

theorem Place.afterAll_append (p : Place) (l cs : List Char) :
    p.afterAll (l ++ cs) = (p.afterAll l).afterAll cs :=
  foldl_append

theorem Scanner.collect_congr {s s' : Scanner} (h : s.next = s'.next) (steps : Nat)
    (found : List Token) : collect steps found s = collect steps found s' := by
  cases steps with
  | zero | succ steps => rw [collect, collect, h]

namespace Tokenizes

variable {n : Nat} {p p' : Place} {cs cs' l : List Char} {ts : List Token} {k : TokenKind}
  {c : Char}

theorem tokens {source : String} {line : Nat} (h : Tokenizes 0 ⟨0, .ofNat line⟩ source.toList ts) :
    TaskBasic.tokens source line = ts :=
  h _ [] (Nat.le_refl _)

theorem eof : Tokenizes n p [] [⟨.eof, p.offset, p.offset, p.line.toNat⟩] := by
  intro steps found _
  have hnext :
      Scanner.next ⟨⟨[], p⟩, n⟩ = (⟨.eof, p.offset, p.offset, p.line.toNat⟩, ⟨⟨[], p⟩, n⟩) := rfl
  cases steps with
  | zero => simp [Scanner.collect, hnext]
  | succ steps => simp [Scanner.collect, hnext, TokenKind.isEof]

theorem blank (h : Tokenizes n (p.after ' ') cs ts) : Tokenizes n p (' ' :: cs) ts := by
  intro steps found hsteps
  have hnext : Scanner.next ⟨⟨' ' :: cs, p⟩, n⟩ = Scanner.next ⟨⟨cs, p.after ' '⟩, n⟩ := by
    simp [Scanner.next, skipGap]
  rw [Scanner.collect_congr hnext]
  exact h steps found (Nat.le_of_succ_le hsteps)

theorem token (hgap : skipGap (decide (0 < n)) false (c :: cs) p = ⟨c :: cs, p⟩)
    (hscan : scanFrom c cs p = (k, ⟨cs', p'⟩)) (hk : k.isEof = false) (hle : cs'.length ≤ cs.length)
    (h : Tokenizes (Scanner.nestingAfter n k) p' cs' ts) :
    Tokenizes n p (c :: cs) (⟨k, p.offset, p'.offset, p.line.toNat⟩ :: ts) := by
  intro steps found hsteps
  have hnext : Scanner.next ⟨⟨c :: cs, p⟩, n⟩ =
      (⟨k, p.offset, p'.offset, p.line.toNat⟩, ⟨⟨cs', p'⟩, Scanner.nestingAfter n k⟩) := by
    rw [Scanner.next]
    simp only [hgap, hscan]
  cases steps with
  | zero => exact absurd hsteps (Nat.not_succ_le_zero _)
  | succ steps =>
    have hrest := h steps (⟨k, p.offset, p'.offset, p.line.toNat⟩ :: found)
      (Nat.le_trans hle (Nat.le_of_succ_le_succ hsteps))
    rw [Scanner.collect, hnext]
    simp only [hk, Bool.false_eq_true, if_false]
    rw [hrest, reverse_cons, append_assoc]
    rfl

/-- A line end, where no bracket is open. -/
theorem newline (h : Tokenizes 0 (p.after '\n') cs ts) :
    Tokenizes 0 p ('\n' :: cs) (p.token ['\n'] .newline :: ts) :=
  token (by simp [skipGap]) (by simp [scanFrom]; rfl) rfl (Nat.le_refl _) h

/-- A mark of one character that no character behind it changes. -/
theorem mark {m : Mark} (hgap : c ∉ [' ', '\t', '\r', '\n', '/', ';'])
    (hmark : ∀ next, markOf? c next = some (m, false))
    (h : Tokenizes (Scanner.nestingAfter n (.mark m)) (p.after c) cs ts) :
    Tokenizes n p (c :: cs) (p.token [c] (.mark m) :: ts) := by
  simp only [mem_cons, not_mem_nil, or_false, not_or] at hgap
  refine token ?_ ?_ rfl (Nat.le_refl _) h
  · simp [skipGap, hgap]
  · simp [scanFrom, hgap, hmark]
    rfl

end Tokenizes

/-! ### Lexemes -/

theorem forall_mem_of_all {P : Char → Prop} [DecidablePred P]
    (h : (l.all fun c => decide (P c)) = true) : ∀ c ∈ l, P c :=
  fun c hc => of_decide_eq_true (all_eq_true.mp h c hc)

/-- The characters behind which a token of any kind has ended. -/
def delimiters : List Char := [' ', '\n', ',', ':', ')', ']', '\x7d']

/-- The text ends, or goes on with a delimiter. -/
def Delimited (cs : List Char) : Prop :=
  ∀ c ∈ cs.head?, c ∈ delimiters

theorem delimited_nil : Delimited [] := nofun

theorem delimited_cons (cs : List Char) (hc : c ∈ delimiters) : Delimited (c :: cs) := by
  rintro _ ⟨⟩
  exact hc

/-- A delimiter does not go on with what is before it. -/
theorem Delimited.head_ne (h : Delimited cs) (hc : c ∉ delimiters) : cs.head? ≠ some c :=
  fun hhead => hc (h c hhead)

theorem takeWhile_stop (hl : ∀ c ∈ l, P c = true) (hcs : ∀ c ∈ cs.head?, P c = false) :
    (l ++ cs).takeWhile P = l ∧ (l ++ cs).dropWhile P = cs := by
  rw [List.takeWhile_append_of_pos hl, List.dropWhile_append_of_pos hl]
  cases cs with
  | nil => simp
  | cons c cs => simp [hcs c rfl]

theorem Delimited.takeWhile (h : Delimited cs)
    (hP : ∀ c ∈ delimiters, P c = false) (hl : ∀ c ∈ l, P c = true) :
    (l ++ cs).takeWhile P = l ∧ (l ++ cs).dropWhile P = cs :=
  takeWhile_stop hl fun c hc => hP c (h c hc)

structure Lexeme (l : List Char) (k : TokenKind) : Prop where
  line : '\n' ∉ l
  yields : ∀ {n p cs ts}, Delimited cs → Tokenizes (Scanner.nestingAfter n k) (p.afterAll l) cs ts →
    Tokenizes n p (l ++ cs) (p.token l k :: ts)

namespace Lexeme

/-- The scan finds the token where no gap begins. -/
theorem of_scan {k : TokenKind} (hgap : c ∉ [' ', '\t', '\r', '\n', '/']) (hline : '\n' ∉ l)
    (hk : k.isEof = false)
    (h : ∀ cs p, Delimited cs → scanFrom c (l ++ cs) p = (k, ⟨cs, p.afterAll (c :: l)⟩)) :
    Lexeme (c :: l) k := by
  simp only [mem_cons, not_mem_nil, or_false, not_or] at hgap
  refine ⟨?_, fun {n p cs ts} hcs hyields => ?_⟩
  · rw [mem_cons, not_or]
    exact ⟨fun hc => hgap.2.2.2.1 hc.symm, hline⟩
  · refine Tokenizes.token ?_ (h cs p hcs) hk ?_ hyields
    · simp [skipGap, hgap]
    · simp

/-! ### Words -/

/-- The characters that have a meaning to the scan other than in a word or a number. -/
def signs : List Char :=
  ['\n', ';', '(', ')', '[', ']', '\x7b', '\x7d', ',', ':', '+', '-', '*', '/', '%', '=', '!',
    '<', '>', '"', '\'', '.', ' ', '\t', '\r']

theorem ne_sign (hP : ∀ d ∈ signs, P d = false) (hc : P c = true) :
    ∀ d ∈ signs, c ≠ d := by
  rintro d hd rfl
  exact absurd (hP c hd) (by rw [hc]; decide)

theorem markOf?_of_ne_sign (hc : ∀ d ∈ signs, c ≠ d) (next : Option Char) :
    markOf? c next = none := by
  simp only [signs, mem_cons, not_mem_nil, or_false, forall_eq_or_imp, forall_eq] at hc
  simp [markOf?, hc]

theorem scanFrom_digit (hsign : ∀ d ∈ signs, c ≠ d) (hdigit : c.isDigit = true) (cs : List Char)
    (p : Place) : scanFrom c cs p = scanNumber ⟨c :: cs, p⟩ := by
  have hnone := markOf?_of_ne_sign hsign
  simp only [signs, mem_cons, not_mem_nil, or_false, forall_eq_or_imp, forall_eq] at hsign
  simp [scanFrom.eq_def, hnone, hdigit, hsign]

/-- A letter begins a word, unless it is the `f` before a quote. -/
theorem scanFrom_word (hsign : ∀ d ∈ signs, c ≠ d) (hdigit : c.isDigit = false)
    (hstart : Text.isWordStart c = true) (hquote : ∀ q ∈ cs.head?, q ≠ '"' ∧ q ≠ '\'') (p : Place) :
    scanFrom c cs p = scanWord ⟨c :: cs, p⟩ := by
  have hnone := markOf?_of_ne_sign hsign
  simp only [signs, mem_cons, not_mem_nil, or_false, forall_eq_or_imp, forall_eq] at hsign
  cases cs with
  | nil => simp [scanFrom.eq_def, hnone, hdigit, hsign, hstart]
  | cons q more =>
    have hq := hquote q rfl
    simp [scanFrom.eq_def, hnone, hdigit, hsign, hstart, hq]

theorem isDigit_of_isWordStart (h : Text.isWordStart c = true) : c.isDigit = false := by
  refine Bool.eq_false_iff.mpr fun hd => ?_
  have hdigit : 48 ≤ c.toNat ∧ c.toNat ≤ 57 := by
    simpa [Char.isDigit, UInt32.le_iff_toNat_le] using hd
  have hascii : Text.isAscii c = true := by
    rw [Text.isAscii, decide_eq_true_eq]
    omega
  rw [Text.isWordStart, if_pos hascii, Bool.or_eq_true] at h
  rcases h with h | h
  · have halpha : 65 ≤ c.toNat ∧ c.toNat ≤ 90 ∨ 97 ≤ c.toNat ∧ c.toNat ≤ 122 := by
      delta Char.isAlpha Char.isUpper Char.isLower at h
      simpa [UInt32.le_iff_toNat_le] using h
    omega
  · have hc : c.toNat = 95 := by rw [beq_iff_eq.mp h]; rfl
    omega

/-- What a word stands for. -/
def wordKind (word : String) : TokenKind :=
  match Keyword.ofWord? word with
  | some k => .keyword k
  | none => .name word

/-- A word: a keyword or a name. -/
theorem word (hstart : Text.isWordStart c = true) (hpart : ∀ x ∈ c :: l, Text.isWordPart x = true)
    (hend : Text.lowercase (String.ofList (c :: l)) ≠ "end") :
    Lexeme (c :: l) (wordKind (Text.lowercase (String.ofList (c :: l)))) := by
  have hsign : ∀ d ∈ signs, c ≠ d := ne_sign (forall_mem_of_all (by decide +kernel)) hstart
  have hstops : ∀ d ∈ delimiters, Text.isWordPart d = false :=
    forall_mem_of_all (by decide +kernel)
  have hparts : ∀ x ∈ c :: l, ∀ d ∈ signs, x ≠ d := fun x hx =>
    ne_sign (forall_mem_of_all (by decide +kernel)) (hpart x hx)
  refine of_scan (fun hmem => ?_) (fun hmem => ?_) ?_ fun cs p hcs => ?_
  · have hsub : ∀ d ∈ [' ', '\t', '\r', '\n', '/'], d ∈ signs := forall_mem_of_all (by decide)
    exact hsign c (hsub c hmem) rfl
  · exact hparts _ (mem_cons_of_mem _ hmem) '\n' (by decide) rfl
  · rw [wordKind]
    split <;> rfl
  · obtain ⟨htake, -⟩ := hcs.takeWhile hstops hpart
    have htake : (c :: (l ++ cs)).takeWhile Text.isWordPart = c :: l := htake
    -- a quote is neither part of a word nor a delimiter
    have hquote : ∀ q ∈ (l ++ cs).head?, q ≠ '"' ∧ q ≠ '\'' := by
      intro q hq
      cases l with
      | nil =>
        have hquotes : ∀ d ∈ delimiters, d ≠ '"' ∧ d ≠ '\'' :=
          forall_mem_of_all (by decide)
        exact hquotes q (hcs q hq)
      | cons x l =>
        obtain rfl : x = q := Option.some.inj hq
        have hx := hparts x (by simp)
        exact ⟨hx '"' (by decide), hx '\'' (by decide)⟩
    have hne : (Text.lowercase (String.ofList (c :: l)) == "end") = false := beq_false_of_ne hend
    rw [scanFrom_word hsign (isDigit_of_isWordStart hstart) hstart hquote]
    simp only [scanWord, htake, hne, Rest.skip, length_cons, drop_succ_cons,
      drop_left, Bool.false_eq_true, if_false]
    rfl

/-! ### Numbers -/

theorem numberText_digits (hl : ∀ c ∈ l, c.isDigit = true) (hcs : Delimited cs) :
    numberText (l ++ cs) = (l, false) := by
  obtain ⟨htake, hdrop⟩ := hcs.takeWhile (P := Char.isDigit) (forall_mem_of_all (by decide)) hl
  rw [numberText, htake, hdrop]
  cases cs with
  | nil => rfl
  | cons d cs =>
    have hpoint : d ≠ '.' := by
      rintro rfl
      exact absurd (hcs '.' rfl) (by decide)
    split
    next heq => exact absurd (List.cons.inj heq).1 hpoint
    next => rfl

theorem digits (hl : ∀ x ∈ c :: l, x.isDigit = true)
    (hk : (numberKind (c :: l) false).isEof = false) :
    Lexeme (c :: l) (numberKind (c :: l) false) := by
  have hparts : ∀ x ∈ c :: l, ∀ d ∈ signs, x ≠ d := fun x hx =>
    ne_sign (P := Char.isDigit) (forall_mem_of_all (by decide)) (hl x hx)
  have hsign := hparts c mem_cons_self
  refine of_scan (fun hmem => ?_) (fun hmem => ?_) hk fun cs p hcs => ?_
  · have hsub : ∀ d ∈ [' ', '\t', '\r', '\n', '/'], d ∈ signs := forall_mem_of_all (by decide)
    exact hsign c (hsub c hmem) rfl
  · exact hparts _ (mem_cons_of_mem _ hmem) '\n' (by decide) rfl
  · have htext : numberText (c :: (l ++ cs)) = (c :: l, false) := numberText_digits hl hcs
    rw [scanFrom_digit hsign (hl c mem_cons_self)]
    simp only [scanNumber, htext, Rest.skip, length_cons, drop_succ_cons, drop_left]

/-! ### Strings -/

/-- Between quotes `q`, the text `l` stands for the character `c`: it is an escape, or `c` itself
where that has no other meaning. -/
def SpellsChar (q c : Char) (l : List Char) : Prop :=
  (∃ e, e ∉ ['\n', '\x7b', '\x7d'] ∧ l = ['\\', e] ∧ escaped e = c) ∨ c ∉ ['\n', q, '\\'] ∧ l = [c]

/-- A scan that reads `written c` as the character `c` reads a text character by character. -/
theorem scan_written {scan : List Char → List Char → Place → TokenKind × Rest}
    (hs : ∀ c ∈ s, ∀ done cs p, scan done (written c ++ cs) p =
      scan (c :: done) cs (p.afterAll (written c)))
    (done cs : List Char) (p : Place) :
    scan done (s.flatMap written ++ cs) p =
      scan (s.reverse ++ done) cs (p.afterAll (s.flatMap written)) := by
  induction s generalizing done p with
  | nil => rfl
  | cons c s ih =>
    have hc := hs c mem_cons_self done (s.flatMap written ++ cs) p
    have ih := ih (fun d hd => hs d (mem_cons_of_mem _ hd)) (c :: done) (p.afterAll (written c))
    rw [flatMap_cons, append_assoc, hc, ih, Place.afterAll_append p (written c)]
    simp

section

variable {q : Char} (hq : q ∈ ['"', '\''])
include hq

theorem quote_not_mem : q ∉ ['\n', '\\', '\x7b', '\x7d', ' ', '\t', '\r', '/'] := by
  simp only [mem_cons, not_mem_nil, or_false] at hq
  rcases hq with rfl | rfl <;> decide

theorem SpellsChar.scanString (h : SpellsChar q c l) (done cs : List Char) (p : Place) :
    TaskBasic.scanString q done (l ++ cs) p =
      TaskBasic.scanString q (c :: done) cs (p.afterAll l) := by
  have hslash : '\\' ≠ q := fun h => quote_not_mem hq (by simp [← h])
  rw [scanString.eq_def]
  obtain ⟨e, -, rfl, rfl⟩ | ⟨hc, rfl⟩ := h
  · simp [hslash, Place.afterAll]
  · simp only [mem_cons, not_mem_nil, or_false, not_or] at hc
    simp [hc, Place.afterAll]

/-- A string is read from its opening quote to its closing one. -/
theorem scanFrom_string
    (hs : ∀ c ∈ s, SpellsChar q c (written c)) (cs : List Char) (p : Place) :
    scanFrom q (s.flatMap written ++ [q] ++ cs) p =
      (.str (String.ofList s), ⟨cs, p.afterAll (q :: (s.flatMap written ++ [q]))⟩) := by
  have hfrom (ds : List Char) : scanFrom q ds p = scanString q [] ds (p.after q) := by
    simp only [mem_cons, not_mem_nil, or_false] at hq
    rcases hq with rfl | rfl <;> simp [scanFrom.eq_def, markOf?]
  have hline : q ≠ '\n' := fun h => quote_not_mem hq (by simp [h])
  rw [hfrom, append_assoc, scan_written fun c hc => (hs c hc).scanString hq, scanString.eq_def]
  simp [hline, Place.afterAll]

end

theorem SpellsChar.newline_not_mem {q : Char} (h : SpellsChar q c l) : '\n' ∉ l := by
  rcases h with ⟨e, he, rfl, -⟩ | ⟨hc, rfl⟩
  · simp only [mem_cons, not_mem_nil, or_false, not_or] at he ⊢
    exact ⟨by decide, Ne.symm he.1⟩
  · rw [mem_singleton]
    rintro rfl
    exact hc mem_cons_self

/-- A string between double quotes. -/
theorem string
    (hs : ∀ c ∈ s, SpellsChar '"' c (written c)) :
    Lexeme ('"' :: (s.flatMap written ++ ['"'])) (.str (String.ofList s)) := by
  refine of_scan (by decide) ?_ rfl fun cs p _ => scanFrom_string (by decide) hs cs p
  simpa using fun c hc => (hs c hc).newline_not_mem

end Lexeme

end TaskBasic
