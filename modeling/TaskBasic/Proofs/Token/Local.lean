import TaskBasic.Proofs.Token.Lexeme
import TaskBasic.Proofs.Token.Weight

/-
What a token depends on.

A token is found by its own text and a look at what stands behind it.  It is the
same wherever the text stands, and the same if something else stands behind it,
as long as a delimiter comes first or the next characters are alike.

* `scanFrom_local` — this holds for every token.
* `tokens_textOf` — each token of a text has such a text of its own.
* `tokens_forms` — the kinds of the tokens do not depend on the first line.
* `yields_tokens` — the tokens come from the steps of the scanner, up to the end of the text.
-/

namespace TaskBasic

open List

variable {c : Char} {k : TokenKind} {cs ds l : List Char} {nested : Bool} {n : Nat} {p : Place}
  {ts : List Token}

/-- True for tokens that statements are made of. -/
def TokenKind.isPlain : TokenKind → Bool
  | .newline | .eof | .error _ | .keyword .kwEnd => false
  | _ => true

theorem TokenKind.isPlain_bare (k : TokenKind) : k.bare.isPlain = k.isPlain := by
  cases k <;> rfl

/-- Behind a token, `ds` may stand for `cs`: it is delimited, or begins alike. -/
def Near (cs ds : List Char) : Prop :=
  Delimited ds ∨ ds.head? = cs.head? ∧ (cs.head? = some '.' → ds.take 2 = cs.take 2)

/-- The scan finds in `cs` a token of kind `k` with the text `l`, wherever it stands. -/
def Finds (scan : List Char → Place → TokenKind × Rest) (cs l cs' : List Char) (k : TokenKind) :
    Prop :=
  ∀ p, ∃ k', scan cs p = (k', ⟨cs', p.afterAll l⟩) ∧ k'.bare = k

/-! ### Steps of a scan -/

theorem head_append_of_ne_nil {x : List Char} (hx : x ≠ []) (cs ds : List Char) :
    (x ++ cs).head? = (x ++ ds).head? := by
  cases x with
  | nil => exact absurd rfl hx
  | cons => rfl

/-- What the scan finds does not depend on the places of the pieces before. -/
def FindsIn (scan : List FPiece → Nat → List Char → Place → TokenKind × Rest) (bares : List FPiece)
    (cs l cs' : List Char) (k : TokenKind) : Prop :=
  ∀ pieces start, pieces.map FPiece.bare = bares → Finds (scan pieces start) cs l cs' k

/-- The text `cs` has a token in front, which is the same before any other text. -/
def FindsAlone (scan : List FPiece → Nat → List Char → Place → TokenKind × Rest)
    (bares : List FPiece)
    (cs : List Char) : Prop :=
  ∃ l cs' k, cs = l ++ cs' ∧ k.isEof = false ∧ FindsIn scan bares cs l cs' k ∧
    (k.isPlain = true → l ≠ [] ∧ ∀ ds, FindsIn scan bares (l ++ ds) l ds k)

namespace FindsAlone

variable {scan scan' : List FPiece → Nat → List Char → Place → TokenKind × Rest}
  {bares bares' : List FPiece} {cs : List Char}

/-- The scan goes on behind the text `g`, if what is there begins as `cs` does. -/
theorem step (g : List Char) (h : FindsAlone scan' bares' cs)
    (hstep : ∀ ds pieces start p, ds.head? = cs.head? → pieces.map FPiece.bare = bares →
      ∃ pieces' start', pieces'.map FPiece.bare = bares' ∧
        scan pieces start (g ++ ds) p = scan' pieces' start' ds (p.afterAll g)) :
    FindsAlone scan bares (g ++ cs) := by
  obtain ⟨l, cs', k, rfl, hk, hfind, hagain⟩ := h
  have hfinds {ds ds' : List Char} (hhead : ds.head? = (l ++ cs').head?)
      (h : FindsIn scan' bares' ds l ds' k) : FindsIn scan bares (g ++ ds) (g ++ l) ds' k := by
    intro pieces start hpieces p
    obtain ⟨pieces', start', hpieces', heq⟩ := hstep ds pieces start p hhead hpieces
    obtain ⟨k', hk', hbare⟩ := h pieces' start' hpieces' (p.afterAll g)
    exact ⟨k', by rw [heq, hk', Place.afterAll_append], hbare⟩
  refine ⟨g ++ l, cs', k, (append_assoc ..).symm, hk, hfinds rfl hfind, fun hk => ?_⟩
  obtain ⟨hl, hagain⟩ := hagain hk
  refine ⟨fun hnil => hl (append_eq_nil_iff.mp hnil).2, fun ds => ?_⟩
  rw [append_assoc]
  exact hfinds (head_append_of_ne_nil hl ds cs') (hagain ds)

/-- Nothing is put down on the way. -/
theorem goes (g : List Char) (h : FindsAlone scan' bares cs)
    (hstep : ∀ ds pieces start p, scan pieces start (g ++ ds) p =
      scan' pieces start ds (p.afterAll g)) :
    FindsAlone scan bares (g ++ cs) :=
  h.step g fun ds pieces start p _ hpieces => ⟨pieces, start, hpieces, hstep ds pieces start p⟩

theorem ends (hk : k.isEof = false) (h : ∀ ds pieces start p, pieces.map FPiece.bare = bares →
      ∃ k', scan pieces start (c :: ds) p = (k', ⟨ds, p.after c⟩) ∧ k'.bare = k) :
    FindsAlone scan bares (c :: cs) :=
  ⟨[c], cs, k, rfl, hk, fun pieces start hpieces p => h cs pieces start p hpieces,
    fun _ => ⟨nofun, fun ds pieces start hpieces p => h ds pieces start p hpieces⟩⟩

theorem fails (l cs : List Char) (cause : ScanError)
    (h : ∀ pieces start p, scan pieces start (l ++ cs) p = (.error cause, ⟨cs, p.afterAll l⟩)) :
    FindsAlone scan bares (l ++ cs) :=
  ⟨l, cs, .error cause, rfl, rfl, fun pieces start _ p => ⟨_, h pieces start p, rfl⟩, nofun⟩

end FindsAlone

/-! ### Strings -/

theorem scanString_local (q : Char) (bares : List FPiece) (done cs : List Char) (p : Place) :
    FindsAlone (fun _ _ => scanString q done) bares cs := by
  fun_induction scanString q done cs p
  case' case1 => refine .fails [] [] .unterminatedString fun _ _ _ => ?_
  case' case2 c cs _ _ => refine .fails [c] cs .unterminatedString fun _ _ _ => ?_
  case' case3 done _ _ _ _ _ =>
    let k := TokenKind.str (String.ofList done.reverse)
    refine .ends (k := k) rfl fun _ _ _ _ _ => ⟨k, ?_, rfl⟩
  case' case4 c _ _ _ _ => refine .fails [c] [] .unterminatedString fun _ _ _ => ?_
  case' case5 ih => refine ih.goes [_, _] fun _ _ _ _ => ?_
  case' case6 ih => refine ih.goes [_] fun _ _ _ _ => ?_
  all_goals
    rw [scanString.eq_def]
    simp only [*, if_true, if_false, Bool.false_eq_true, cons_append, nil_append]
    rfl

/-! ### F-strings -/

theorem map_bare_pushText (pieces : List FPiece) (text : List Char) :
    (pushText pieces text).map FPiece.bare = pushText (pieces.map FPiece.bare) text := by
  unfold pushText
  split <;> rfl

theorem scanFText_local (quote : Char) :
    (∀ (pieces : List FPiece) (text cs : List Char) (_ : Place),
      FindsAlone (fun pieces _ => scanFText quote pieces text) (pieces.map FPiece.bare) cs) ∧
    ∀ (pieces : List FPiece) (_ depth : Nat) (inner : Option Char) (code cs : List Char)
    (_ : Place),
      FindsAlone (fun pieces start => scanFCode quote pieces start depth inner code)
        (pieces.map FPiece.bare) cs := by
  apply scanFText.mutual_induct quote
  all_goals intros
  case' case1 | case11 => refine .fails [] [] .unterminatedFString fun _ _ _ => ?_
  case' case2 c cs _ _ => refine .fails [c] cs .unterminatedFString fun _ _ _ => ?_
  case' case3 pieces text _ _ _ _ _ =>
    refine .ends (k := .fstring (pushText (pieces.map FPiece.bare) text).reverse) rfl
      fun _ pieces _ _ hpieces =>
      ⟨.fstring (pushText pieces text).reverse,
        ?_, by rw [TokenKind.bare, map_reverse, map_bare_pushText, hpieces]⟩
  case' case4 c _ _ _ _ => refine .fails [c] [] .unterminatedFString fun _ _ _ => ?_
  case' case5 ih | case6 ih | case8 ih => refine ih.goes [_, _] fun _ _ _ _ => ?_
  case' case7 text c p _ _ _ _ cs hcs ih =>
    refine ih.step [c] fun ds pieces _ p hds hpieces => ⟨pushText pieces text, (p.after c).offset,
      by rw [map_bare_pushText, map_bare_pushText, hpieces], ?_⟩
  case' case9 c _ _ _ _ _ _ cs _ => refine .fails [c] cs .singleBrace fun _ _ _ => ?_
  case' case12 c cs _ _ | case16 c cs _ _ _ _ _ _ =>
    refine .fails [] (c :: cs) .unterminatedFString fun _ _ _ => ?_
  case' case18 c cs _ _ _ _ _ _ _ _ _ => refine .fails [c] cs .emptyCode fun _ _ _ => ?_
  case' case19 code _ _ _ _ _ _ _ _ _ _ _ ih =>
    refine ih.step [_] fun _ pieces start _ _ hpieces =>
      ⟨.code (String.ofList code.reverse) start :: pieces, start,
      by rw [map_cons, hpieces]; rfl, ?_⟩
  case' case10 ih | case13 ih | case14 ih | case15 ih | case17 ih | case20 ih | case21 ih =>
    refine ih.goes [_] fun _ _ _ _ => ?_
  all_goals
    conv => lhs; first | rw [scanFText.eq_def] | rw [scanFCode.eq_def]
    simp only [*, if_true, if_false, Bool.false_eq_true, cons_append, nil_append]
    try rfl
  -- a brace that is not doubled opens code
  split
  · cases cs <;> cases hds
    exact (hcs _ rfl).elim
  · rfl

/-! ### Numbers and words -/

theorem Near.refl (cs : List Char) : Near cs cs := .inr ⟨rfl, fun _ => rfl⟩

theorem Near.head (h : Near cs ds) {P : Char → Bool}
    (hP : ∀ d ∈ delimiters, P d = false) (hcs : ∀ c ∈ cs.head?, P c = false) :
    ∀ d ∈ ds.head?, P d = false := by
  intro d hd
  rcases h with h | ⟨h, -⟩
  · exact hP d (h d hd)
  · exact hcs d (h ▸ hd)

theorem head_dropWhile (P : Char → Bool) (cs : List Char) :
    ∀ c ∈ (cs.dropWhile P).head?, P c = false := by
  intro c hc
  have h := List.head?_dropWhile_not P cs
  rw [hc] at h
  simpa using h

/-- The characters in front that are as `P` says, and what is behind them. -/
theorem exists_span (P : Char → Bool) (cs : List Char) : ∃ w rest, cs = w ++ rest ∧
    (∀ c ∈ w, P c = true) ∧ ∀ c ∈ rest.head?, P c = false :=
  ⟨cs.takeWhile P, cs.dropWhile P, takeWhile_append_dropWhile.symm,
    fun c hc => all_eq_true.mp all_takeWhile c hc, head_dropWhile P cs⟩

/-- The scan behind `c` finds a token, which is the same before any text near to what follows it. -/
def FindsNear (scan : List Char → Place → TokenKind × Rest) (c : Char) (cs : List Char) : Prop :=
  ∃ l cs' k, cs = l ++ cs' ∧ k.isEof = false ∧ Finds scan cs (c :: l) cs' k ∧
    (k.isPlain = true → ∀ ds, Near cs' ds → Finds scan (l ++ ds) (c :: l) ds k)

section

variable {scan : List Char → Place → TokenKind × Rest}

theorem FindsNear.intro (l : List Char) (hk : k.isEof = false)
    (h : ∀ ds, Near cs ds → Finds scan (l ++ ds) (c :: l) ds k) : FindsNear scan c (l ++ cs) :=
  ⟨l, cs, k, rfl, hk, h cs (.refl cs), fun _ => h⟩

/-- A token of one character that stands alone. -/
theorem FindsNear.one (hk : k.isPlain = false) (heof : k.isEof = false) (hbare : k.bare = k)
    (h : ∀ p, scan cs p = (k, ⟨cs, p.after c⟩)) : FindsNear scan c cs :=
  ⟨[], cs, k, rfl, heof, fun p => ⟨k, h p, hbare⟩, fun hplain => by rw [hk] at hplain; cases hplain⟩

theorem FindsAlone.near {inner : List FPiece → Nat → List Char → Place → TokenKind × Rest}
    (h : FindsAlone inner [] cs) (g : List Char)
    (hscan : ∀ ds p, scan (g ++ ds) p = inner [] 0 ds (p.afterAll (c :: g))) :
    FindsNear scan c (g ++ cs) := by
  obtain ⟨l, cs', k, rfl, hk, hfind, hagain⟩ := h
  have hfinds {ds ds' : List Char} (h : FindsIn inner [] ds l ds' k) :
      Finds scan (g ++ ds) (c :: (g ++ l)) ds' k := by
    intro p
    rw [hscan, ← cons_append, Place.afterAll_append]
    exact h [] 0 rfl _
  refine ⟨g ++ l, cs', k, (append_assoc ..).symm, hk, hfinds hfind, fun hplain ds _ => ?_⟩
  rw [append_assoc]
  exact hfinds ((hagain hplain).2 ds)

end

theorem numberText_append {whole rest : List Char} (hwhole : ∀ c ∈ whole, c.isDigit = true) :
    (∀ c ∈ rest.head?, c.isDigit = false) → numberText (whole ++ rest) = match rest with
      | '.' :: d :: more =>
        if d.isDigit then (whole ++ '.' :: (d :: more).takeWhile Char.isDigit, true)
        else (whole, false)
      | _ => (whole, false) := by
  intro hrest
  obtain ⟨htake, hdrop⟩ := takeWhile_stop hwhole hrest
  have hnumber := numberText.eq_1 (whole ++ rest)
  rw [htake, hdrop] at hnumber
  exact hnumber

theorem numberText_local (cs : List Char) : ∃ l cs' b, cs = l ++ cs' ∧
    ∀ ds, Near cs' ds → numberText (l ++ ds) = (l, b) := by
  have hdelims : ∀ d ∈ delimiters, Char.isDigit d = false := forall_mem_of_all (by decide)
  obtain ⟨whole, rest, rfl, hwhole, hrest⟩ := exists_span Char.isDigit cs
  by_cases hfloat : ∃ d more, rest = '.' :: d :: more ∧ d.isDigit = true
  · obtain ⟨d, more, rfl, hd⟩ := hfloat
    obtain ⟨digits, cs', rfl, hdigits, hcs'⟩ := exists_span Char.isDigit more
    refine ⟨whole ++ '.' :: d :: digits, cs', true, by simp, fun ds hds => ?_⟩
    obtain ⟨htake, -⟩ := takeWhile_stop (forall_mem_cons.mpr ⟨hd, hdigits⟩) (hds.head hdelims hcs')
    rw [append_assoc, numberText_append hwhole (by rintro _ ⟨⟩; rfl)]
    simp only [cons_append] at htake ⊢
    simp only [hd, if_true, htake]
  · refine ⟨whole, rest, false, rfl, fun ds hds => ?_⟩
    rw [numberText_append hwhole (hds.head hdelims hrest)]
    split
    next d more =>
      -- a point with a digit behind it would be part of the number
      refine if_neg fun hd => hfloat ?_
      rcases hds with hds | ⟨hsame, htwo⟩
      · exact absurd (hds '.' rfl) (by decide)
      · have htwo := htwo hsame.symm
        rcases rest with _ | ⟨x, _ | ⟨y, ys⟩⟩ <;> simp at htwo
        obtain ⟨rfl, rfl⟩ := htwo
        exact ⟨_, _, rfl, hd⟩
    next => rfl

/-- The kind of a number is never that of an f-string or of the end. -/
theorem numberKind_bare (text : List Char) (b : Bool) :
    (numberKind text b).bare = numberKind text b ∧ (numberKind text b).isEof = false := by
  rw [numberKind]
  split
  · exact ⟨rfl, rfl⟩
  · simp only
    split
    · exact ⟨rfl, rfl⟩
    · split <;> exact ⟨rfl, rfl⟩

theorem scanNumber_eq {b : Bool} (h : numberText (l ++ ds) = (l, b)) (p : Place) :
    scanNumber ⟨l ++ ds, p⟩ = (numberKind l b, ⟨ds, p.afterAll l⟩) := by
  simp only [scanNumber, h, Rest.skip, drop_left]

theorem numberText_point {d : Char} (hd : d.isDigit = true) (cs : List Char) :
    ∃ l b, numberText ('.' :: d :: cs) = ('.' :: d :: l, b) := by
  have hpoint : ('.').isDigit = false := by decide
  refine ⟨cs.takeWhile Char.isDigit, true, ?_⟩
  simp [numberText, hpoint, hd]

/-- A blank before the second word of an end. -/
def isGapBlank (c : Char) : Bool := c == ' ' || c == '\t'

theorem scanEndWord?_eq {blanks word : List Char} (hblanks : ∀ c ∈ blanks, isGapBlank c = true)
    (hend : ∀ c ∈ (word ++ ds).head?, isGapBlank c = false)
    (hword : ∀ c ∈ word, Text.isWordPart c = true) (hds : ∀ d ∈ ds.head?, Text.isWordPart d = false)
    (p : Place) : scanEndWord? ⟨blanks ++ (word ++ ds), p⟩ =
      (Keyword.ofEndWord? (Text.lowercase (String.ofList word))).map fun k =>
        (.keyword k, ⟨ds, p.afterAll (blanks ++ word)⟩) := by
  obtain ⟨htake, -⟩ := takeWhile_stop hblanks hend
  obtain ⟨hpart, -⟩ := takeWhile_stop hword hds
  have htake : (blanks ++ (word ++ ds)).takeWhile (fun c => c == ' ' || c == '\t') = blanks := htake
  simp only [scanEndWord?, htake, drop_left, hpart, Rest.skip]
  rw [← append_assoc, drop_left]

theorem scanWord_eq {text : List Char} (htext : ∀ c ∈ text, Text.isWordPart c = true)
    (hds : ∀ d ∈ ds.head?, Text.isWordPart d = false) (p : Place) : scanWord ⟨text ++ ds, p⟩ =
      if Text.lowercase (String.ofList text) == "end" then
        (scanEndWord? ⟨ds, p.afterAll text⟩).getD
          (Lexeme.wordKind (Text.lowercase (String.ofList text)), ⟨ds, p.afterAll text⟩)
      else (Lexeme.wordKind (Text.lowercase (String.ofList text)), ⟨ds, p.afterAll text⟩) := by
  obtain ⟨htake, -⟩ := takeWhile_stop htext hds
  simp only [scanWord, htake, Rest.skip, drop_left]
  rfl

theorem wordKind_bare (word : String) :
    (Lexeme.wordKind word).bare = Lexeme.wordKind word ∧ (Lexeme.wordKind word).isEof = false := by
  rw [Lexeme.wordKind]
  split <;> exact ⟨rfl, rfl⟩

theorem scanWord_local (hc : Text.isWordStart c = true) (cs : List Char) :
    FindsNear (fun cs p => scanWord ⟨c :: cs, p⟩) c cs := by
  have hdelims : ∀ d ∈ delimiters, Text.isWordPart d = false :=
    forall_mem_of_all (by decide +kernel)
  -- the word, and what is behind it
  obtain ⟨w, rest, rfl, hw, hrest⟩ := exists_span Text.isWordPart cs
  have hw : ∀ x ∈ c :: w, Text.isWordPart x = true :=
    forall_mem_cons.mpr ⟨Text.isWordPart_of_isWordStart hc, hw⟩
  have hscan (ds : List Char) (hds : ∀ d ∈ ds.head?, Text.isWordPart d = false) (p : Place) :=
    scanWord_eq hw hds p
  cases hend : Text.lowercase (String.ofList (c :: w)) == "end" with
  | false =>
    simp only [hend, if_false, Bool.false_eq_true, cons_append] at hscan
    exact .intro w (wordKind_bare _).2 fun ds hds p =>
      ⟨_, hscan ds (hds.head hdelims hrest) p, (wordKind_bare _).1⟩
  | true =>
    simp only [hend, if_true, cons_append] at hscan
    -- the second word, and what is behind it
    obtain ⟨blanks, rest, rfl, hblanks, hstop⟩ := exists_span isGapBlank rest
    obtain ⟨word, cs', rfl, hword, hcs'⟩ := exists_span Text.isWordPart rest
    cases hk : Keyword.ofEndWord? (Text.lowercase (String.ofList word)) with
    | none =>
      refine ⟨w, blanks ++ (word ++ cs'), .keyword .kwEnd, rfl, rfl,
        fun p => ⟨.keyword .kwEnd, ?_, rfl⟩, nofun⟩
      show scanWord ⟨c :: (w ++ (blanks ++ (word ++ cs'))), p⟩ = _
      rw [hscan _ hrest, scanEndWord?_eq hblanks hstop hword hcs', hk, beq_iff_eq.mp hend]
      rfl
    | some k =>
      have hne : word ≠ [] := by
        rintro rfl
        cases hk
      rw [← append_assoc blanks, ← append_assoc w]
      refine .intro _ rfl fun ds hds p => ⟨.keyword k, ?_, rfl⟩
      rw [head_append_of_ne_nil hne cs' ds] at hstop
      rw [← append_assoc, head_append_of_ne_nil (by simp [hne]) cs' ds, append_assoc] at hrest
      show scanWord ⟨c :: (w ++ (blanks ++ word) ++ ds), p⟩ = _
      rw [append_assoc, append_assoc, hscan _ hrest,
        scanEndWord?_eq hblanks hstop hword (hds.head hdelims hcs'), hk]
      show (_, Rest.mk ds ((p.afterAll (c :: w)).afterAll (blanks ++ word))) = _
      rw [← Place.afterAll_append]
      rfl

/-! ### All tokens -/

/-- Only four characters look at what stands behind them. -/
theorem markOf?_eq_of_not_mem (hc : c ∉ ['=', '!', '<', '>']) (next next' : Option Char) :
    markOf? c next = markOf? c next' := by
  simp only [mem_cons, not_mem_nil, or_false, not_or] at hc
  simp only [markOf?, beq_false_of_ne hc.1, beq_false_of_ne hc.2.1, beq_false_of_ne hc.2.2.1,
    beq_false_of_ne hc.2.2.2, Bool.false_eq_true, if_false]

theorem markOf?_alone {m : Mark} {next next' : Option Char} (h : markOf? c next = some (m, false))
    (heq : next' ≠ some '=') (hgreater : next' ≠ some '>') : markOf? c next' = some (m, false) := by
  by_cases hc : c ∈ ['=', '!', '<', '>']
  · have heq := beq_false_of_ne heq
    have hgreater := beq_false_of_ne hgreater
    simp only [mem_cons, not_mem_nil, or_false] at hc
    rcases hc with rfl | rfl | rfl | rfl <;> simp [markOf?, heq, hgreater] at h ⊢ <;> grind
  · rw [markOf?_eq_of_not_mem hc next' next, h]

theorem markOf?_both {m : Mark} {next : Option Char} (h : markOf? c next = some (m, true)) :
    next ≠ none := by
  rintro rfl
  have hnone : (markOf? c none).all (fun found => !found.2) = true := by
    simp [markOf?, apply_ite (Option.all fun found : Mark × Bool => !found.2)]
  rw [h] at hnone
  cases hnone

theorem markOf?_none
    (h : c = '"' ∨ c = '\'' ∨ c = '.' ∨ c.isDigit = true ∨ Text.isWordStart c = true)
    (next : Option Char) : markOf? c next = none := by
  rcases h with rfl | rfl | rfl | h | h
  · rfl
  · rfl
  · rfl
  · exact Lexeme.markOf?_of_ne_sign (Lexeme.ne_sign (P := Char.isDigit)
      (forall_mem_of_all (by decide)) h) next
  · exact Lexeme.markOf?_of_ne_sign (Lexeme.ne_sign (P := Text.isWordStart)
      (forall_mem_of_all (by decide +kernel)) h) next

/-- What stands behind a mark of one character matters only if both form a longer one. -/
theorem markOf?_near {m : Mark} (h : markOf? c cs.head? = some (m, false))
    (hds : Near cs ds) : markOf? c ds.head? = some (m, false) := by
  rcases hds with hds | ⟨hsame, -⟩
  · exact markOf?_alone h (hds.head_ne (by decide)) (hds.head_ne (by decide))
  · rw [hsame, h]

theorem scanFrom_local (c : Char) (cs : List Char) : FindsNear (scanFrom c) c cs := by
  cases hline : c == '\n' || c == ';' with
  | true =>
    refine .one (k := .newline) rfl rfl rfl fun p => ?_
    simp only [scanFrom.eq_def, hline, if_true]
  | false =>
  cases hmark : markOf? c cs.head? with
  | some found =>
    obtain ⟨m, both⟩ := found
    cases both with
    | false =>
      refine .intro [] (k := .mark m) rfl fun ds hds p => ⟨.mark m, ?_, rfl⟩
      simp only [nil_append, scanFrom.eq_def, hline, markOf?_near hmark hds, Bool.false_eq_true,
        if_false]
      rfl
    | true =>
      cases cs with
      | nil => exact absurd rfl (markOf?_both hmark)
      | cons d cs =>
        refine .intro [d] (k := .mark m) rfl fun ds _ p => ⟨.mark m, ?_, rfl⟩
        have h : markOf? c ([d] ++ ds).head? = some (m, true) := hmark
        simp only [scanFrom.eq_def, hline, h, Bool.false_eq_true, if_false]
        rfl
  | none =>
  cases hquote : c == '"' || c == '\'' with
  | true =>
    have hnone : ∀ next, markOf? c next = none := markOf?_none (by
      rcases Bool.or_eq_true_iff.mp hquote with h | h
      · exact .inl (beq_iff_eq.mp h)
      · exact .inr (.inl (beq_iff_eq.mp h)))
    refine (scanString_local c [] [] cs ⟨0, 0⟩).near [] fun ds p => ?_
    simp only [nil_append, scanFrom.eq_def, hline, hnone, hquote, Bool.false_eq_true, if_false,
      if_true]
    rfl
  | false =>
  cases hnumber : c.isDigit || (c == '.' && (cs.head?.map Char.isDigit).getD false) with
  | true =>
    have hnumber' : c.isDigit = true ∨ c = '.' ∧ (cs.head?.map Char.isDigit).getD false = true := by
      simpa using hnumber
    have hnone : ∀ next, markOf? c next = none := markOf?_none (by
      rcases hnumber' with h | ⟨h, -⟩
      · exact .inr (.inr (.inr (.inl h)))
      · exact .inr (.inr (.inl h)))
    obtain ⟨l, cs', b, hsplit, hagain⟩ := numberText_local (c :: cs)
    have htext := hagain cs' (.refl cs')
    rw [← hsplit] at htext
    have hne := numberText_ne_nil hnumber'
    rw [htext] at hne
    cases l with
    | nil => exact absurd rfl hne
    | cons x l =>
    obtain ⟨rfl, rfl⟩ : c = x ∧ cs = l ++ cs' := List.cons.inj hsplit
    obtain ⟨hbare, hk⟩ := numberKind_bare (c :: l) b
    refine .intro l hk fun ds hds p => ⟨_, ?_, hbare⟩
    have h : (c.isDigit || (c == '.' && ((l ++ ds).head?.map Char.isDigit).getD false)) = true := by
      rcases hnumber' with h | ⟨rfl, h⟩
      · rw [h, Bool.true_or]
      · -- the digit behind the point belongs to the number
        cases hcs : l ++ cs' with
        | nil => rw [hcs] at h; cases h
        | cons d more =>
          rw [hcs] at h htext
          obtain ⟨l1, b1, hpoint⟩ := numberText_point h more
          rw [hpoint] at htext
          obtain ⟨hl, -⟩ := Prod.mk.inj htext
          obtain ⟨-, rfl⟩ := List.cons.inj hl
          simpa using h
    simp only [scanFrom.eq_def, hline, hnone, hquote, h, Bool.false_eq_true, if_false, if_true]
    exact scanNumber_eq (hagain ds hds) p
  | false =>
  cases hstart : Text.isWordStart c with
  | false =>
    refine .one (k := .error (.unexpected c)) rfl rfl rfl fun p => ?_
    have hf : (c == 'f' || c == 'F') = false := by
      refine Bool.eq_false_iff.mpr fun hf => ?_
      rcases Bool.or_eq_true_iff.mp hf with h | h <;> rw [beq_iff_eq.mp h] at hstart <;>
        exact absurd hstart (by decide)
    simp only [scanFrom.eq_def, hline, hmark, hquote, hnumber, hstart, hf, Bool.false_eq_true,
      if_false, Bool.false_and]
    cases cs <;> rfl
  | true =>
  have hnone : ∀ next, markOf? c next = none := markOf?_none (.inr (.inr (.inr (.inr hstart))))
  have hdigit := Lexeme.isDigit_of_isWordStart hstart
  have hpoint : (c == '.') = false := by
    refine Bool.eq_false_iff.mpr fun h => ?_
    rw [beq_iff_eq.mp h] at hstart
    exact absurd hstart (by decide)
  by_cases hf : ∀ q ∈ cs.head?, ((c == 'f' || c == 'F') && (q == '"' || q == '\'')) = false
  · have hword (ds : List Char)
        (h : ∀ q ∈ ds.head?, ((c == 'f' || c == 'F') && (q == '"' || q == '\'')) = false)
          (p : Place) :
        scanFrom c ds p = scanWord ⟨c :: ds, p⟩ := by
      cases ds with
      | nil =>
        simp only [scanFrom.eq_def, hline, hnone, hquote, hdigit, hpoint, hstart,
          Bool.false_eq_true, if_false, if_true, Bool.false_and, Bool.or_self]
      | cons q more =>
        simp only [scanFrom.eq_def, hline, hnone, hquote, hdigit, hpoint, hstart, h q rfl,
          Bool.false_eq_true, if_false, if_true, Bool.false_and, Bool.or_self]
    obtain ⟨l, cs', k, rfl, heof, hfind, hagain⟩ := scanWord_local hstart cs
    refine ⟨l, cs', k, rfl, heof, fun p => ?_, fun hk ds hds p => ?_⟩
    · rw [hword _ hf]
      exact hfind p
    · rw [hword]
      · exact hagain hk ds hds p
      · cases l with
        | cons x l => exact fun q hq => hf q hq
        | nil =>
          refine hds.head (fun d hd => ?_) hf
          have hquotes : ∀ d ∈ delimiters, (d == '"' || d == '\'') = false :=
            forall_mem_of_all (by decide)
          rw [hquotes d hd, Bool.and_false]
  · cases cs with
    | nil => exact absurd (by rintro _ ⟨⟩) hf
    | cons q more =>
      have hq : ((c == 'f' || c == 'F') && (q == '"' || q == '\'')) = true := by
        refine (Bool.not_eq_false _).mp fun h => hf ?_
        rintro _ ⟨⟩
        exact h
      refine ((scanFText_local q).1 [] [] more ⟨0, 0⟩).near [q] fun ds p => ?_
      simp only [cons_append, nil_append, scanFrom.eq_def, hline, hnone, hquote, hdigit, hpoint, hq,
        Bool.false_eq_true, if_false, if_true, Bool.false_and, Bool.or_self]
      rfl

/-! ### Texts of tokens -/

/-- No gap begins with the text: its first character is no blank, and it is no comment. -/
def Solid (cs : List Char) : Prop :=
  (∀ c ∈ cs.head?, c ∉ [' ', '\t', '\r', '\n']) ∧ ¬['/', '/'] <+: cs

theorem skipGap_solid (h : Solid cs) (p : Place) : skipGap nested false cs p = ⟨cs, p⟩ := by
  cases cs with
  | nil => rfl
  | cons c cs =>
    have hblank := h.1 c rfl
    simp only [mem_cons, not_mem_nil, or_false, not_or] at hblank
    have hcomment : (c == '/' && cs.head? == some '/') = false := by
      refine Bool.eq_false_iff.mpr fun hc => h.2 ?_
      obtain ⟨hc, hhead⟩ := Bool.and_eq_true_iff.mp hc
      obtain rfl := beq_iff_eq.mp hc
      cases cs with
      | nil => cases hhead
      | cons d cs =>
        obtain rfl : d = '/' := Option.some.inj (beq_iff_eq.mp hhead)
        exact ⟨cs, rfl⟩
    simp [skipGap, hblank, hcomment]

theorem Scanner.nestingAfter_bare (n : Nat) (k : TokenKind) :
    Scanner.nestingAfter n k.bare = Scanner.nestingAfter n k := by
  cases k <;> rfl

structure TextBefore (ds l : List Char) (k : TokenKind) : Prop where
  solid : Solid (l ++ ds)
  plain : k.isPlain = true
  found : ∃ c l', l = c :: l' ∧ ∀ p, ∃ k', scanFrom c (l' ++ ds) p = (k', ⟨ds, p.afterAll l⟩) ∧
    k'.bare = k

theorem TextBefore.tokenizes (h : TextBefore ds l k) (hts : Tokenizes (Scanner.nestingAfter n k)
    (p.afterAll l) ds ts) :
    ∃ t, t.form = k ∧ t.line = p.line.toNat ∧ t.start = p.offset ∧ t.stop = (p.afterAll l).offset ∧
      Tokenizes n p (l ++ ds) (t :: ts) := by
  obtain ⟨c, l', rfl, hfound⟩ := h.found
  obtain ⟨k', hscan, hbare⟩ := hfound p
  have hsolid := h.solid
  have hplain := h.plain
  rw [← hbare, TokenKind.isPlain_bare] at hplain
  have hnesting : Scanner.nestingAfter n k' = Scanner.nestingAfter n k := by
    rw [← hbare, Scanner.nestingAfter_bare]
  refine ⟨⟨k', p.offset, (p.afterAll (c :: l')).offset, p.line.toNat⟩, hbare, rfl, rfl, rfl, ?_⟩
  refine Tokenizes.token (skipGap_solid hsolid p) hscan ?_ ?_ (hnesting ▸ hts)
  · cases k' <;> first | rfl | cases hplain
  · simp

/-- The text `l` is that of a token of kind `k`, wherever a delimiter stands behind it. -/
def TextOf (l : List Char) (k : TokenKind) : Prop := ∀ ds, Delimited ds → TextBefore ds l k

/-! ### Gaps -/

theorem Solid.head_ne (h : Solid cs) (hc : c ∈ [' ', '\t', '\r', '\n']) : cs.head? ≠ some c :=
  fun hhead => h.1 c hhead hc

structure GapBefore (nested inComment : Bool) (g rest : List Char) : Prop where
  skips : ∀ p, skipGap nested inComment (g ++ rest) p = ⟨rest, p.afterAll g⟩
  stays : ∀ p, skipGap nested false rest p = ⟨rest, p⟩
  /-- The gap is the same before other text. -/
  again : rest ≠ [] → Solid rest → ∀ rest', Solid rest' → ∀ p,
    skipGap nested inComment (g ++ rest') p = ⟨rest', p.afterAll g⟩
  comment : inComment = true → (g ++ rest).head? = some '/' → g.head? = some '/'

/-- The gap goes on behind a character; `slash` holds if this is because a slash comes next. -/
theorem GapBefore.step {inComment inComment' : Bool} {g rest : List Char}
    (h : GapBefore nested inComment' g rest) (slash : Bool)
    (hstep : ∀ ds p, (slash = true → ds.head? = some '/') →
      skipGap nested inComment (c :: ds) p = skipGap nested inComment' ds (p.after c))
    (hslash : slash = true → inComment' = true ∧ (g ++ rest).head? = some '/') :
    GapBefore nested inComment (c :: g) rest where
  skips p := by
    rw [cons_append, hstep _ _ fun hs => (hslash hs).2]
    exact h.skips (p.after c)
  stays := h.stays
  again hne hsolid rest' hrest' p := by
    rw [cons_append, hstep]
    · exact h.again hne hsolid rest' hrest' (p.after c)
    · intro hs
      obtain ⟨hcomment, hhead⟩ := hslash hs
      have hg := h.comment hcomment hhead
      cases g with
      | nil => cases hg
      | cons => exact hg
  comment _ hhead := hhead

/-- Every text begins with a gap, which may be empty. -/
theorem skipGap_local (nested : Bool) : ∀ (inComment : Bool) (cs : List Char),
    ∃ g rest, cs = g ++ rest ∧ GapBefore nested inComment g rest
  | inComment, [] => ⟨[], [], rfl, fun _ => rfl, fun _ => rfl, fun h => absurd rfl h, nofun⟩
  | inComment, c :: cs => by
    cases hcomment : inComment && c != '\n' with
    | true =>
      obtain ⟨g, rest, rfl, h⟩ := skipGap_local nested true cs
      refine ⟨c :: g, rest, rfl, h.step false (fun ds p _ => ?_) nofun⟩
      simp only [skipGap, hcomment, if_true]
    | false =>
    cases hblank : c == ' ' || c == '\t' || c == '\r' || (c == '\n' && nested) with
    | true =>
      obtain ⟨g, rest, rfl, h⟩ := skipGap_local nested false cs
      refine ⟨c :: g, rest, rfl, h.step false (fun ds p _ => ?_) nofun⟩
      simp only [skipGap, hcomment, hblank, if_true, if_false, Bool.false_eq_true]
    | false =>
    cases hslash : c == '/' && cs.head? == some '/' with
    | true =>
      obtain ⟨hc, hhead⟩ := Bool.and_eq_true_iff.mp hslash
      obtain ⟨g, rest, rfl, h⟩ := skipGap_local nested true cs
      refine ⟨c :: g, rest, rfl, h.step true (fun ds p hds => ?_)
        fun _ => ⟨rfl, beq_iff_eq.mp hhead⟩⟩
      have hds : (c == '/' && ds.head? == some '/') = true := by rw [hds rfl, hc]; rfl
      simp only [skipGap, hcomment, hblank, hds, if_true, if_false, Bool.false_eq_true]
    | false =>
      -- behind a comment there is the end of the line
      have hends : inComment = true → c = '\n' := by
        rintro rfl
        simpa using hcomment
      have hstop (p : Place) : skipGap nested inComment (c :: cs) p = ⟨c :: cs, p⟩ := by
        simp only [skipGap, hcomment, hblank, hslash, if_false, Bool.false_eq_true]
      refine ⟨[], c :: cs, rfl, hstop, fun p => ?_, fun _ hsolid rest' hrest' p => ?_,
        fun h hhead => ?_⟩
      · simp only [skipGap, hblank, hslash, if_false, Bool.false_eq_true, Bool.false_and]
      · cases inComment with
        | false => exact skipGap_solid hrest' p
        | true => exact absurd (congrArg some (hends rfl)) (hsolid.head_ne (by decide))
      · rw [nil_append, hends h] at hhead
        cases hhead

/-! ### The tokens of a text -/

/-- How the tokens `ts` are cut from the text `cs`. -/
inductive Cut : Nat → Place → List Char → List Token → Prop
  | eof {n p g} : GapBefore (decide (0 < n)) false g [] →
    Cut n p g [⟨.eof, (p.afterAll g).offset, (p.afterAll g).offset, (p.afterAll g).line.toNat⟩]
  | token {n p g c l rest k ts} : GapBefore (decide (0 < n)) false g (c :: (l ++ rest)) →
    (scanFrom c (l ++ rest) (p.afterAll g)).1 = k →
    (k.bare.isPlain = true → ∀ ds, Near rest ds → ∀ p, ∃ k', scanFrom c (l ++ ds) p =
      (k', ⟨ds, p.afterAll (c :: l)⟩) ∧ k'.bare = k.bare) → k.isEof = false →
    Cut (Scanner.nestingAfter n k) ((p.afterAll g).afterAll (c :: l)) rest ts →
    Cut n p (g ++ c :: (l ++ rest)) (⟨k, (p.afterAll g).offset,
      ((p.afterAll g).afterAll (c :: l)).offset, (p.afterAll g).line.toNat⟩ :: ts)

theorem Tokenizes.gap {g rest : List Char}
    (hskip : skipGap (decide (0 < n)) false (g ++ rest) p = ⟨rest, p.afterAll g⟩)
    (hstay : skipGap (decide (0 < n)) false rest (p.afterAll g) = ⟨rest, p.afterAll g⟩)
    (h : Tokenizes n (p.afterAll g) rest ts) : Tokenizes n p (g ++ rest) ts := by
  intro steps found hsteps
  have hnext : Scanner.next ⟨⟨g ++ rest, p⟩, n⟩ = Scanner.next ⟨⟨rest, p.afterAll g⟩, n⟩ := by
    simp only [Scanner.next, hskip, hstay]
  rw [Scanner.collect_congr hnext]
  refine h steps found (Nat.le_trans ?_ hsteps)
  simp

/-- Every text is cut into tokens, whose kinds do not depend on the place. -/
theorem exists_cut (cs : List Char) (n : Nat) :
    ∃ ks, ∀ p, ∃ ts, Tokenizes n p cs ts ∧ Cut n p cs ts ∧ ts.map Token.form = ks := by
  induction hlen : cs.length using Nat.strongRecOn generalizing cs n with
  | ind m ih =>
    obtain ⟨g, rest, rfl, hgap⟩ := skipGap_local (decide (0 < n)) false cs
    cases rest with
    | nil =>
      refine ⟨[.eof], fun p => ⟨_, .gap (hgap.skips p) (hgap.stays _) .eof, ?_, rfl⟩⟩
      rw [append_nil]
      exact .eof hgap
    | cons c rest =>
      obtain ⟨l, cs', k, rfl, heof, hfind, hagain⟩ := scanFrom_local c rest
      obtain ⟨ks, hks⟩ :=
        ih cs'.length (by rw [← hlen]; simp; omega) cs' (Scanner.nestingAfter n k) rfl
      have hnesting {k' : TokenKind} (h : k'.bare = k) :
          Scanner.nestingAfter n k' = Scanner.nestingAfter n k := by
        rw [← h, Scanner.nestingAfter_bare]
      refine ⟨k :: ks, fun p => ?_⟩
      obtain ⟨k', hscan, hbare⟩ := hfind (p.afterAll g)
      obtain ⟨ts, hts, hcut, hforms⟩ := hks ((p.afterAll g).afterAll (c :: l))
      rw [← hnesting hbare] at hts hcut
      have heof : k'.isEof = false := by rw [← TokenKind.isEof_bare, hbare, heof]
      refine
        ⟨_, .gap (hgap.skips p) (hgap.stays _) (.token (hgap.stays _) hscan heof (by simp) hts),
          ?_, ?_⟩
      · refine .token hgap (congrArg Prod.fst hscan) ?_ heof hcut
        rw [hbare]
        exact hagain
      · rw [map_cons, hforms, ← hbare]
        rfl

/-- A token that is not a line end begins with no gap. -/
theorem solid_of_stays (h : ∀ p, skipGap nested false cs p = ⟨cs, p⟩)
    (hline : cs.head? ≠ some '\n') : Solid cs := by
  have hlength {ds xs : List Char} {p q : Place} {inComment : Bool} (hlt : ds.length < xs.length) :
      skipGap nested inComment ds p ≠ ⟨xs, q⟩ := fun heq => by
    have hle := skipGap_length nested inComment ds p
    rw [heq] at hle
    exact absurd hle (Nat.not_le.mpr hlt)
  refine ⟨fun c hc hblank => ?_, fun hcomment => ?_⟩
  · cases cs with
    | nil => cases hc
    | cons d ds =>
      obtain rfl : d = c := Option.some.inj hc
      have hstay := h ⟨0, 0⟩
      simp only [mem_cons, not_mem_nil, or_false] at hblank
      rcases hblank with rfl | rfl | rfl | rfl
      · exact hlength (Nat.lt_succ_self _) (by simpa [skipGap] using hstay)
      · exact hlength (Nat.lt_succ_self _) (by simpa [skipGap] using hstay)
      · exact hlength (Nat.lt_succ_self _) (by simpa [skipGap] using hstay)
      · exact hline rfl
  · obtain ⟨ds, rfl⟩ := hcomment
    have hstay := h ⟨0, 0⟩
    exact hlength (Nat.lt_succ_of_lt (Nat.lt_succ_self _)) (by simpa [skipGap] using hstay)

theorem textBefore_of_cut {g rest : List Char}
    (hgap : GapBefore nested false g (c :: (l ++ rest))) (hplain : k.isPlain = true)
    (hagain : ∀ ds, Near rest ds → ∀ p, ∃ k', scanFrom c (l ++ ds) p =
      (k', ⟨ds, p.afterAll (c :: l)⟩) ∧ k'.bare = k)
    (hds : Near rest ds) : TextBefore ds (c :: l) k := by
  obtain ⟨k1, hscan1, hbare1⟩ := hagain rest (.refl rest) ⟨0, 0⟩
  have hline : c ≠ '\n' := by
    rintro rfl
    rw [scanFrom.eq_def] at hscan1
    obtain ⟨rfl, -⟩ := Prod.mk.inj hscan1
    rw [← hbare1] at hplain
    cases hplain
  have hsolid : Solid (c :: (l ++ rest)) :=
    solid_of_stays hgap.stays fun hhead => hline (Option.some.inj hhead)
  refine ⟨⟨fun x hx => ?_, ?_⟩, hplain, c, l, rfl, hagain ds hds⟩
  · obtain rfl : c = x := Option.some.inj hx
    exact hsolid.1 c rfl
  · -- a slash is a token of its own
    rintro ⟨more, hmore⟩
    have hmore : '/' :: '/' :: more = c :: (l ++ ds) := hmore
    obtain ⟨rfl, hbehind⟩ := List.cons.inj hmore
    have hslash :
        scanFrom '/' (l ++ rest) ⟨0, 0⟩ = (.mark .slash, ⟨l ++ rest, Place.after ⟨0, 0⟩ '/'⟩) := rfl
    rw [hslash] at hscan1
    have hl : l = [] := by
      have hrest : l ++ rest = rest := congrArg (fun r => r.2.chars) hscan1
      simpa using hrest
    subst hl
    have hhead : ds.head? = some '/' := by
      have hbehind : '/' :: more = ds := hbehind
      rw [← hbehind]
      rfl
    rcases hds with hds | ⟨hsame, -⟩
    · exact hds.head_ne (by decide) hhead
    · refine hsolid.2 ?_
      rw [hhead] at hsame
      cases rest with
      | nil => cases hsame
      | cons d rest =>
        obtain rfl : '/' = d := Option.some.inj hsame
        exact ⟨rest, rfl⟩

theorem Cut.weight_le (h : Cut n p cs ts) : weight (ts.map Token.form) ≤ cs.length + 1 := by
  induction h with
  | eof => exact Nat.le_add_left _ _
  | @token n p g c l rest k ts hgap hscan hagain hk hcut ih =>
    have hweight : k.weight ≤ l.length + 1 := by
      cases k with
      | fstring pieces =>
        obtain ⟨q, more, hcons, hfrom⟩ := scanFrom_fstring hscan
        obtain ⟨k', hagain, -⟩ := hagain rfl rest (.refl rest) (p.afterAll g)
        have hfits := (scanFText_fits q).1 [] [] more (((p.afterAll g).after c).after q)
        have hlength := congrArg List.length hcons
        rw [hagain] at hscan
        rw [← hfrom, hagain, Weighs, hscan] at hfits
        simp only [piecesWeight, length_append, length_cons, map_nil, List.sum_nil,
          length_nil] at hfits hlength
        omega
      | _ => exact Nat.le_add_left _ _
    simp only [map_cons, weight_cons, Token.form, TokenKind.weight_bare, length_append,
      length_cons]
    omega

/-- The tokens of a text weigh no more than its characters and the end of the text. -/
theorem weight_tokens (source : String) (line : Nat) :
    weight ((tokens source line).map Token.form) ≤ source.length + 1 := by
  obtain ⟨_, h⟩ := exists_cut source.toList 0
  obtain ⟨ts, hts, hcut, -⟩ := h ⟨0, .ofNat line⟩
  rw [hts.tokens]
  exact hcut.weight_le

theorem Cut.textOf (h : Cut n p cs ts) :
    ∀ t ∈ ts, t.form.isPlain = true → ∃ l, TextOf l t.form := by
  induction h with
  | eof _ =>
    intro t ht hplain
    obtain rfl := mem_singleton.mp ht
    cases hplain
  | @token n p g c l rest k ts hgap _ hagain _ _ ih =>
    intro t ht hplain
    rcases mem_cons.mp ht with rfl | ht
    · have hplain : k.bare.isPlain = true := hplain
      exact ⟨c :: l, fun ds hds => textBefore_of_cut hgap hplain (hagain hplain) (.inl hds)⟩
    · exact ih t ht hplain

theorem tokens_textOf {source : String} {line : Nat} {t : Token} (ht : t ∈ tokens source line)
    (hplain : t.form.isPlain = true) : ∃ l, TextOf l t.form := by
  obtain ⟨_, h⟩ := exists_cut source.toList 0
  obtain ⟨ts, hts, hcut, -⟩ := h ⟨0, .ofNat line⟩
  rw [hts.tokens] at ht
  exact hcut.textOf t ht hplain

/-- The kinds of the tokens of a text do not depend on its first line. -/
theorem tokens_forms (source : String) (line line' : Nat) :
    (tokens source line).map Token.form = (tokens source line').map Token.form := by
  obtain ⟨ks, h⟩ := exists_cut source.toList 0
  obtain ⟨ts, hts, -, hks⟩ := h ⟨0, .ofNat line⟩
  obtain ⟨ts', hts', -, hks'⟩ := h ⟨0, .ofNat line'⟩
  rw [hts.tokens, hts'.tokens, hks, hks']

/-- The tokens of a text end with the end of the text, which is nowhere else. -/
theorem Cut.ends (h : Cut n p cs ts) :
    ∃ us t, ts = us ++ [t] ∧ t.kind = .eof ∧ ∀ u ∈ us, u.kind.isEof = false := by
  induction h with
  | eof _ => exact ⟨[], _, rfl, rfl, nofun⟩
  | token _ _ _ heof _ ih =>
    obtain ⟨us, t, rfl, ht, hus⟩ := ih
    refine ⟨_ :: us, t, rfl, ht, fun u hu => ?_⟩
    rcases mem_cons.mp hu with rfl | hu
    · exact heof
    · exact hus u hu

/-! ### Parts of a text -/

/-- The number of open brackets behind tokens. -/
def nestingBehind (n : Nat) (ks : List TokenKind) : Nat := ks.foldl Scanner.nestingAfter n

theorem nestingBehind_append (n : Nat) (ks ls : List TokenKind) :
    nestingBehind n (ks ++ ls) = nestingBehind (nestingBehind n ks) ls := foldl_append

theorem nestingBehind_cons (n : Nat) (t : Token) (ts : List Token) :
    nestingBehind n ((t :: ts).map Token.form) =
      nestingBehind (Scanner.nestingAfter n t.kind) (ts.map Token.form) := by
  show nestingBehind (Scanner.nestingAfter n t.kind.bare) _ = _
  rw [Scanner.nestingAfter_bare]

/-- What is left of the text behind some of its tokens. -/
theorem Cut.behind {us : List Token} (h : Cut n p cs (ts ++ us)) (hus : us ≠ []) :
    ∃ x rest, cs = x ++ rest ∧
      Cut (nestingBehind n (ts.map Token.form)) (p.afterAll x) rest us := by
  induction ts generalizing n p cs with
  | nil => exact ⟨[], cs, rfl, h⟩
  | cons t ts ih =>
    generalize hall : t :: ts ++ us = all at h
    cases h with
    | eof _ =>
      obtain ⟨-, hnil⟩ := List.cons.inj hall
      exact absurd (append_eq_nil_iff.mp hnil).2 hus
    | @token _ _ g c l rest k ws hgap _ _ _ hcut =>
      obtain ⟨rfl, rfl⟩ := List.cons.inj hall
      obtain ⟨x, rest, rfl, hrest⟩ := ih hcut
      refine ⟨g ++ c :: (l ++ x), rest, by simp, ?_⟩
      rw [← Place.afterAll_append, ← Place.afterAll_append] at hrest
      rw [nestingBehind_cons]
      exact hrest

/-- The text `mid` holds tokens of the kinds `ks`, wherever it stands before a delimiter. -/
structure Holds (n : Nat) (mid : List Char) (ks : List TokenKind) : Prop where
  ne_nil : mid ≠ []
  ne_point : mid ≠ ['.']
  solid : ∀ ds, Delimited ds → Solid (mid ++ ds)
  tokenizes : ∀ ds q vs, Delimited ds → Tokenizes (nestingBehind n ks) (q.afterAll mid) ds vs →
    ∃ ts, Tokenizes n q (mid ++ ds) (ts ++ vs) ∧ ts.map Token.form = ks ∧
      (∀ t ∈ ts.head?, t.start = q.offset) ∧ ∀ t ∈ ts.getLast?, t.stop = (q.afterAll mid).offset

theorem TextBefore.ne_point (h : TextBefore [] l k) : l ≠ ['.'] := by
  rintro rfl
  obtain ⟨c, l', hl, hfound⟩ := h.found
  obtain ⟨rfl, rfl⟩ := List.cons.inj hl
  obtain ⟨k', hscan, hbare⟩ := hfound ⟨0, 0⟩
  have hpoint :
      scanFrom '.' [] ⟨0, 0⟩ = (.error (.unexpected '.'), ⟨[], Place.after ⟨0, 0⟩ '.'⟩) := rfl
  have hplain := h.plain
  rw [← hbare] at hplain
  have hk : k' = .error (.unexpected '.') := (congrArg Prod.fst (hscan.symm.trans hpoint))
  rw [hk] at hplain
  cases hplain

/-- Texts that begin with the same characters, more than a point, are near. -/
theorem Near.near {x : List Char} (hne : x ≠ []) (hpoint : x ≠ ['.']) :
    Near (x ++ cs) (x ++ ds) := by
  cases x with
  | nil => exact absurd rfl hne
  | cons c x =>
    refine .inr ⟨rfl, fun hhead => ?_⟩
    obtain rfl : c = '.' := Option.some.inj hhead
    cases x with
    | nil => exact absurd rfl hpoint
    | cons d x => simp

/-- A part of a text from one token to another holds the same tokens wherever it stands. -/
theorem Cut.holds {n : Nat} {p : Place} {cs : List Char} {t : Token} {ts us : List Token}
    (h : Cut n p cs (t :: ts ++ us)) (hplain : ∀ u ∈ t :: ts, u.form.isPlain = true) :
    ∃ g mid rest, cs = g ++ (mid ++ rest) ∧ t.start = (p.afterAll g).offset ∧
      (∀ u ∈ (t :: ts).getLast?, u.stop = (p.afterAll (g ++ mid)).offset) ∧
      (∀ rest', Solid rest' → ∀ q,
        skipGap (decide (0 < n)) false (g ++ rest') q = ⟨rest', q.afterAll g⟩) ∧
      Holds n mid ((t :: ts).map Token.form) := by
  generalize hall : t :: ts ++ us = all at h
  cases h with
  | eof _ =>
    obtain ⟨rfl, -⟩ := List.cons.inj hall
    have heof := hplain _ mem_cons_self
    cases heof
  | @token _ _ g c l rest k ws hgap _ hagain _ hcut =>
  obtain ⟨rfl, hws⟩ := List.cons.inj hall
  have hk : k.bare.isPlain = true := hplain _ mem_cons_self
  have htext {ds : List Char} (hds : Near rest ds) : TextBefore ds (c :: l) k.bare :=
    textBefore_of_cut hgap hk (hagain hk) hds
  have hsolid : Solid (c :: (l ++ rest)) := (htext (.refl rest)).solid
  have hskip := hgap.again (cons_ne_nil _ _) hsolid
  cases ts with
  | nil =>
    refine ⟨g, c :: l, rest, rfl, rfl, ?_, hskip, nofun, (htext (.inl delimited_nil)).ne_point,
      fun ds hds => (htext (.inl hds)).solid, fun ds q vs hds hvs => ?_⟩
    · rintro _ ⟨⟩
      rw [Place.afterAll_append]
      rfl
    · obtain ⟨u, hu, -, hstart, hstop, htokens⟩ := (htext (.inl hds)).tokenizes hvs
      refine ⟨[u], htokens, congrArg (fun k => [k]) hu, ?_, ?_⟩
      · rintro _ ⟨⟩
        exact hstart
      · rintro _ ⟨⟩
        exact hstop
  | cons t' ts =>
    have hcut' : Cut (Scanner.nestingAfter n k) ((p.afterAll g).afterAll (c :: l)) rest
        (t' :: ts ++ us) := by
      rw [← hws] at hcut
      exact hcut
    obtain ⟨g', mid, rest', rfl, -, hstop, hskip', hholds⟩ :=
      hcut'.holds fun u hu => hplain u (mem_cons_of_mem _ hu)
    -- what stands behind the first token begins as before
    have hnear (ds : List Char) : Near (g' ++ (mid ++ rest')) (g' ++ (mid ++ ds)) := by
      rw [← append_assoc, ← append_assoc]
      refine .near (fun hnil => hholds.ne_nil (append_eq_nil_iff.mp hnil).2) fun hpoint => ?_
      cases g' with
      | nil => exact hholds.ne_point hpoint
      | cons x g' => exact hholds.ne_nil (append_eq_nil_iff.mp (List.cons.inj hpoint).2).2
    refine ⟨g, c :: l ++ (g' ++ mid), rest', by simp, rfl, ?_,
      hskip, by simp, by simp [hholds.ne_nil], ?_, ?_⟩
    · intro u hu
      rw [List.getLast?_cons_cons] at hu
      rw [hstop u hu]
      simp only [Place.afterAll_append]
    · intro ds hds
      have h := (htext (hnear ds)).solid
      simpa using h
    · intro ds q vs hds hvs
      have hsolid' := hholds.solid ds hds
      have hplace :
          q.afterAll (c :: l ++ (g' ++ mid)) =
            ((q.afterAll (c :: l)).afterAll g').afterAll mid := by
        rw [Place.afterAll_append, Place.afterAll_append]
      rw [hplace, nestingBehind_cons] at hvs
      obtain ⟨ts', hts', hforms, -, hstop'⟩ := hholds.tokenizes ds _ vs hds hvs
      have hrest :=
        Tokenizes.gap (hskip' _ hsolid' (q.afterAll (c :: l))) (skipGap_solid hsolid' _) hts'
      rw [← Scanner.nestingAfter_bare] at hrest
      obtain ⟨u, hu, -, hstart, -, htokens⟩ := (htext (hnear ds)).tokenizes hrest
      refine ⟨u :: ts', by simpa using htokens, by rw [map_cons, hu, hforms]; rfl, ?_, ?_⟩
      · rintro _ ⟨⟩
        exact hstart
      · intro v hv
        cases ts' with
        | nil => cases hforms
        | cons u' ts' =>
          rw [hplace]
          exact hstop' v hv
termination_by ts.length

/-! ### The scanner, step by step -/

/-- A step of the scanner passes over a character unless the text has ended. -/
theorem Scanner.next_passes (s : Scanner) : s.next.1.kind = .eof ∧ s.next.2.rest.chars = [] ∨
    s.next.1.kind.isEof = false ∧ s.next.2.rest.chars.length < s.rest.chars.length := by
  have hgap := skipGap_length (decide (0 < s.nesting)) false s.rest.chars s.rest.place
  rw [next]
  generalize skipGap (decide (0 < s.nesting)) false s.rest.chars s.rest.place = r at hgap ⊢
  obtain ⟨chars, p⟩ := r
  cases chars with
  | nil => exact .inl ⟨rfl, rfl⟩
  | cons c cs =>
    obtain ⟨l, cs', k, rfl, hk, hscan, -⟩ := scanFrom_local c cs
    obtain ⟨k', hscan, hbare⟩ := hscan p
    rw [← hbare, TokenKind.isEof_bare] at hk
    simp only [hscan, length_cons, length_append] at hgap ⊢
    exact .inr ⟨hk, by omega⟩

/-- The scanner gives these tokens one after the other, up to the end of the text. -/
inductive Scanner.Yields : Scanner → List Token → Prop
  | last {s} : s.next.1.kind = .eof → s.next.2.rest.chars = [] → Yields s [s.next.1]
  | more {s ts} : s.next.1.kind.isEof = false → Yields s.next.2 ts → Yields s (s.next.1 :: ts)

theorem Scanner.yields_collect (steps : Nat) (found : List Token) (s : Scanner)
    (h : s.rest.chars.length ≤ steps) :
    ∃ ts, s.collect steps found = found.reverse ++ ts ∧ s.Yields ts := by
  induction steps generalizing found s with
  | zero =>
    rcases s.next_passes with ⟨hkind, hrest⟩ | ⟨-, hlt⟩
    · exact ⟨_, reverse_cons, .last hkind hrest⟩
    · omega
  | succ steps ih =>
    rw [collect]
    rcases s.next_passes with ⟨hkind, hrest⟩ | ⟨hkind, hlt⟩
    · refine ⟨_, ?_, .last hkind hrest⟩
      simp [hkind, TokenKind.isEof]
    · obtain ⟨ts, hts, hyields⟩ := ih (s.next.1 :: found) s.next.2 (by omega)
      refine ⟨s.next.1 :: ts, ?_, .more hkind hyields⟩
      simp [hkind, hts]

theorem yields_tokens (source : String) (line : Nat) :
    (Scanner.ofText source line).Yields (tokens source line) := by
  obtain ⟨ts, hts, hyields⟩ :=
    Scanner.yields_collect _ [] (Scanner.ofText source line) (Nat.le_refl _)
  rw [tokens, hts]
  exact hyields

end TaskBasic
