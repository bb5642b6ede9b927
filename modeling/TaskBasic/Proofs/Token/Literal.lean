import TaskBasic.Proofs.Token.Tiling

/-
Every text has a literal.

A string or an f-string is written between quotes of one kind: a backslash, the
quote and a line end are escaped, and an f-string doubles its braces.  The scan
reads the text back and stops right behind the closing quote, whatever follows.

* `Text.literal`, `Text.fliteral` — the two literals of a text.
* `literals_read_back` — the scan reads them as one token each.
-/

namespace TaskBasic

open List

namespace Text

/-- A character as it is written between the quotes `q`. -/
def escape (q c : Char) : List Char :=
  if c = '\n' then ['\\', 'n'] else if c = '\\' ∨ c = q then ['\\', c] else [c]

/-- A character as it is written where braces are doubled. -/
def double (c : Char) : List Char :=
  if c = '\x7b' ∨ c = '\x7d' then [c, c] else [c]

def literal (q : Char) (s : String) : List Char :=
  q :: (s.toList.flatMap (escape q) ++ [q])

def fliteral (q : Char) (s : String) : List Char :=
  'f' :: q :: ((s.toList.flatMap (escape q)).flatMap double ++ [q])

end Text

/-- Wherever the text `l` stands and whatever follows it, the scan reads it as one token of the
kind `k`, takes nothing else, and has as many brackets open as before. -/
def ReadsAs (l : List Char) (k : TokenKind) : Prop :=
  ∀ (n : Nat) (p : Place) (behind : List Char),
    Scanner.next ⟨⟨l ++ behind, p⟩, n⟩ =
      (⟨k, p.offset, p.offset + bytesOf l, p.line.toNat⟩,
        ⟨⟨behind, ⟨p.offset + bytesOf l, p.line⟩⟩, n⟩)

theorem ReadsAs.of_scan {c : Char} {l : List Char} {k : TokenKind}
    (hgap : c ∉ [' ', '\t', '\r', '\n', '/']) (hline : '\n' ∉ l)
    (hk : ∀ n, Scanner.nestingAfter n k = n)
    (hscan : ∀ behind p, scanFrom c (l ++ behind) p = (k, ⟨behind, p.afterAll (c :: l)⟩)) :
    ReadsAs (c :: l) k := by
  intro n p behind
  have hcount : (c :: l).count '\n' = 0 := count_eq_zero.mpr (by
    rw [mem_cons, not_or]
    exact ⟨fun hc => hgap (by simp [← hc]), hline⟩)
  simp only [mem_cons, not_mem_nil, or_false, not_or] at hgap
  have hskip : skipGap (decide (0 < n)) false (c :: (l ++ behind)) p = ⟨c :: (l ++ behind), p⟩ := by
    simp [skipGap, hgap]
  have hplace := Place.afterAll_eq p (c :: l)
  rw [hcount, show p.line + .ofNat 0 = p.line from UInt32.add_zero _] at hplace
  simp only [Scanner.next, cons_append, hskip, hscan, hk, hplace]

theorem Text.double_eq {c : Char} (hc : c ∉ ['\x7b', '\x7d']) : Text.double c = [c] := by
  simpa [Text.double] using hc

section

variable {q : Char} (hq : q ∈ ['"', '\''])
include hq

theorem Text.spellsChar_escape (c : Char) : Lexeme.SpellsChar q c (Text.escape q c) := by
  rw [Text.escape]
  split
  next hc => exact .inl ⟨'n', by decide, rfl, hc.symm⟩
  next hline =>
    split
    next hc =>
      refine .inl ⟨c, ?_, rfl, ?_⟩
      all_goals
        simp only [mem_cons, not_mem_nil, or_false] at hq
        rcases hc with rfl | rfl <;> [decide; rcases hq with rfl | rfl <;> decide]
    next hc => exact .inr ⟨by simpa [hline, or_comm] using hc, rfl⟩

/-- In an f-string, a brace is read from two braces, and all else as in a string. -/
theorem scanFText_double {c : Char} {l : List Char} (h : Lexeme.SpellsChar q c l)
    (text cs : List Char) (p : Place) :
    scanFText q [] text (l.flatMap Text.double ++ cs) p =
      scanFText q [] (c :: text) cs (p.afterAll (l.flatMap Text.double)) := by
  have hslash : '\\' ≠ q := fun h => Lexeme.quote_not_mem hq (by simp [← h])
  rw [scanFText.eq_def]
  obtain ⟨e, he, rfl, rfl⟩ | ⟨hc, rfl⟩ := h
  · have hwritten : ['\\', e].flatMap Text.double = ['\\', e] := by
      simp [Text.double_eq (mt (mem_cons_of_mem _) he), Text.double_eq (c := '\\') (by decide)]
    simp [hwritten, Place.afterAll, hslash]
  · simp only [mem_cons, not_mem_nil, or_false, not_or] at hc
    by_cases hbrace : c = '\x7b' ∨ c = '\x7d'
    · rcases hbrace with rfl | rfl <;> simp [Text.double, Place.afterAll, hc]
    · rw [not_or] at hbrace
      simp [Text.double, Place.afterAll, hc, hbrace]

theorem scanFrom_fliteral (s : String) (cs : List Char) (p : Place) :
    scanFrom 'f' (q :: ((s.toList.flatMap (Text.escape q)).flatMap Text.double ++ [q]) ++ cs) p =
      (.fstring (if s = "" then [] else [.text s]), ⟨cs, p.afterAll (Text.fliteral q s)⟩) := by
  have hfrom (ds : List Char) :
      scanFrom 'f' (q :: ds) p = scanFText q [] [] ds ((p.after 'f').after q) := by
    simp only [mem_cons, not_mem_nil, or_false] at hq
    rcases hq with rfl | rfl <;> simp [scanFrom.eq_def, markOf?]
  have hpieces : (pushText [] s.toList.reverse).reverse = if s = "" then [] else [.text s] := by
    by_cases hs : s = "" <;> simp [pushText, hs]
  have hline : q ≠ '\n' := fun h => Lexeme.quote_not_mem hq (by simp [h])
  rw [cons_append, hfrom, append_assoc, flatMap_assoc,
    Lexeme.scan_written fun c _ => scanFText_double hq (Text.spellsChar_escape hq c),
      scanFText.eq_def]
  simp [hline, Place.afterAll, hpieces, Text.fliteral, flatMap_assoc]

end

/-- Every text has a literal of each kind between quotes of each kind, and the scan reads the text
back from it. -/
theorem literals_read_back (s : String) {q : Char} (hq : q ∈ ['"', '\'']) :
    ReadsAs (Text.literal q s) (.str s) ∧
      ReadsAs (Text.fliteral q s) (.fstring (if s = "" then [] else [.text s])) := by
  have hquote := Lexeme.quote_not_mem hq
  simp only [mem_cons, not_mem_nil, or_false, not_or] at hquote
  have hspells (c : Char) (_ : c ∈ s.toList) := Text.spellsChar_escape hq c
  have hline : '\n' ∉ s.toList.flatMap (Text.escape q) := by
    simpa using fun c hc => (hspells c hc).newline_not_mem
  refine ⟨.of_scan (by simp [hquote]) (by simp [hline, Ne.symm hquote.1]) (fun _ => rfl) ?_,
    .of_scan (by decide) ?_ (fun _ => rfl) (scanFrom_fliteral hq s)⟩
  · have hscan := Lexeme.scanFrom_string hq hspells
    rwa [String.ofList_toList] at hscan
  · have hdouble : '\n' ∉ (s.toList.flatMap (Text.escape q)).flatMap Text.double := by
      rw [mem_flatMap]
      rintro ⟨c, hc, hmem⟩
      obtain rfl : '\n' = c := by
        rw [Text.double] at hmem
        split at hmem <;> simpa using hmem
      exact hline hc
    simp [hdouble, Ne.symm hquote.1]

/-- A quote, braces, a backslash before a line end, and a character of several bytes. -/
theorem hard_text_read_back :
    '\'' ∈ ['"', '\''] ∧
      ReadsAs "'é\\'s \x7b\x7d\x7d\\\\\\n'".toList (.str "é's \x7b\x7d\x7d\\\n") ∧
      ReadsAs "f'é\\'s \x7b\x7b\x7d\x7d\x7d\x7d\\\\\\n'".toList
        (.fstring [.text "é's \x7b\x7d\x7d\\\n"]) :=
  ⟨by decide, literals_read_back "é's \x7b\x7d\x7d\\\n" (by decide)⟩

end TaskBasic
