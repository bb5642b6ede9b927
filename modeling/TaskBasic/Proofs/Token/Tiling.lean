import Mathlib.Algebra.GroupWithZero.Nat
import TaskBasic.Proofs.Token.Local

/-
Tokens tile the text.

Each token of a text has a stretch of its own, and the stretches follow one
another in the text, with nothing but gaps between them.

* `Gap` — the texts that the scan passes over between two tokens.
* `Spot`, `CodeSpot` — where the scan of an f-string stands; from these follows
  that the code in it is a part of the text, at the offset that goes with it.
* `Tiled` — what is said of all tokens of a text at once.
-/

namespace TaskBasic

open List

/-- The number of bytes of a text. -/
def bytesOf (cs : List Char) : Nat := (cs.map Char.utf8Size).sum

theorem bytesOf_append (cs ds : List Char) : bytesOf (cs ++ ds) = bytesOf cs + bytesOf ds := by
  simp [bytesOf]

theorem bytesOf_cons (c : Char) (cs : List Char) : bytesOf (c :: cs) = c.utf8Size + bytesOf cs := by
  simp [bytesOf]

theorem Place.afterAll_eq (p : Place) (cs : List Char) :
    p.afterAll cs = ⟨p.offset + bytesOf cs, p.line + .ofNat (cs.count '\n')⟩ := by
  induction cs generalizing p with
  | nil => simp [Place.afterAll, bytesOf]
  | cons c cs ih =>
    show (p.after c).afterAll cs = _
    rw [ih, List.count_cons]
    simp only [Place.after, bytesOf, map_cons, List.sum_cons, beq_iff_eq, Place.mk.injEq]
    refine ⟨Nat.add_assoc .., ?_⟩
    split
    · rw [UInt32.ofNat_add, UInt32.add_comm (.ofNat _), UInt32.add_assoc]
      rfl
    · rfl

/-- Lines are counted modulo 2 ^ 32. -/
theorem Place.toNat_line_afterAll (p : Place) (cs : List Char) :
    (p.afterAll cs).line.toNat = (p.line.toNat + cs.count '\n') % 2 ^ 32 := by
  rw [afterAll_eq, UInt32.toNat_add, UInt32.toNat_ofNat', Nat.add_mod_mod]

/-! ### Gaps -/

/-- The text `g` is a gap before `rest`: blanks, comments and, while `nested`, line ends.  With
`inComment`, the gap begins inside a comment, which goes on to the end of the line. -/
inductive Gap (nested : Bool) (rest : List Char) : (inComment : Bool) → List Char → Prop
  | done : Gap nested rest false []
  | blank {c g} : c ∈ [' ', '\t', '\r'] → Gap nested rest false g → Gap nested rest false (c :: g)
  | newline {g} : nested = true → Gap nested rest false g → Gap nested rest false ('\n' :: g)
  | slash {g} : (g ++ rest).head? = some '/' → Gap nested rest true g →
      Gap nested rest false ('/' :: g)
  | text {c g} : c ≠ '\n' → Gap nested rest true g → Gap nested rest true (c :: g)
  | lineEnd {g} : (∀ c ∈ (g ++ rest).head?, c = '\n') → Gap nested rest false g →
      Gap nested rest true g

/-- What the scan passes over is a gap. -/
theorem Gap.of_skipGap {nested inComment : Bool} {g rest : List Char} {p q : Place}
    (h : skipGap nested inComment (g ++ rest) p = ⟨rest, q⟩) : Gap nested rest inComment g := by
  have hlength {inComment' : Bool} {cs ds : List Char} {p' : Place} (hlt : cs.length < ds.length) :
      skipGap nested inComment' cs p' ≠ ⟨ds, q⟩ := fun heq => by
    have hle := skipGap_length nested inComment' cs p'
    rw [heq] at hle
    exact absurd hle (Nat.not_le.mpr hlt)
  induction g generalizing inComment p with
  | nil =>
    cases inComment with
    | false => exact .done
    | true =>
      refine .lineEnd (fun c hc => ?_) .done
      cases rest with
      | nil => cases hc
      | cons d ds =>
        obtain rfl : d = c := Option.some.inj hc
        refine Decidable.byContradiction fun hne => ?_
        rw [nil_append, skipGap, if_pos (by simpa using hne)] at h
        exact hlength (Nat.lt_succ_self _) h
  | cons c g ih =>
    rw [cons_append, skipGap] at h
    split at h
    next hcomment =>
      obtain ⟨rfl, hc⟩ : inComment = true ∧ c ≠ '\n' := by simpa using hcomment
      exact .text hc (ih h)
    next hcomment =>
      -- outside of a comment, or where it ends
      have hgap : Gap nested rest false (c :: g) := by
        split at h
        next hblank =>
          simp only [Bool.or_eq_true, Bool.and_eq_true, beq_iff_eq] at hblank
          rcases hblank with ((rfl | rfl) | rfl) | ⟨rfl, hnested⟩
          · exact .blank (by simp) (ih h)
          · exact .blank (by simp) (ih h)
          · exact .blank (by simp) (ih h)
          · exact .newline hnested (ih h)
        next =>
          split at h
          next hslash =>
            obtain ⟨rfl, hhead⟩ : c = '/' ∧ (g ++ rest).head? = some '/' := by simpa using hslash
            exact .slash hhead (ih h)
          next =>
            have heq : c :: (g ++ rest) = rest := congrArg Rest.chars h
            have hlen := congrArg List.length heq
            simp only [length_cons, length_append] at hlen
            omega
      cases inComment with
      | false => exact hgap
      | true =>
        refine .lineEnd ?_ hgap
        rintro _ ⟨⟩
        simpa using hcomment

/-! ### Code in f-strings -/

section

variable {whole cs : List Char} {p0 p : Place} {c : Char}

/-- In the text `whole`, which begins at the place `p0`, the scan stands before `cs`. -/
def Spot (whole : List Char) (p0 : Place) (cs : List Char) (p : Place) : Prop :=
  ∃ a, whole = a ++ cs ∧ p = p0.afterAll a

/-- The scan has read `code` (last character first) since the offset `start`. -/
def CodeSpot (whole : List Char) (p0 : Place) (start : Nat) (code cs : List Char) (p : Place) :
    Prop :=
  ∃ a, whole = a ++ (code.reverse ++ cs) ∧ start = (p0.afterAll a).offset ∧
    p = p0.afterAll (a ++ code.reverse)

/-- If the piece is code, it stands in the text at its offset. -/
def FPiece.Found (whole : List Char) (p0 : Place) (piece : FPiece) : Prop :=
  ∀ source start, piece = .code source start →
    ∃ a b, whole = a ++ (source.toList ++ b) ∧ start = (p0.afterAll a).offset

theorem Spot.step (h : Spot whole p0 (c :: cs) p) : Spot whole p0 cs (p.after c) := by
  obtain ⟨a, rfl, rfl⟩ := h
  exact ⟨a ++ [c], by simp, by rw [Place.afterAll_append]; rfl⟩

theorem Spot.code (h : Spot whole p0 cs p) : CodeSpot whole p0 p.offset [] cs p := by
  obtain ⟨a, rfl, rfl⟩ := h
  exact ⟨a, rfl, rfl, by simp⟩

theorem CodeSpot.step {start : Nat} {code : List Char}
    (h : CodeSpot whole p0 start code (c :: cs) p) :
    CodeSpot whole p0 start (c :: code) cs (p.after c) := by
  obtain ⟨a, rfl, rfl, rfl⟩ := h
  refine ⟨a, by simp, rfl, ?_⟩
  rw [reverse_cons, ← append_assoc, Place.afterAll_append _ _ [c]]
  rfl

theorem CodeSpot.spot {start : Nat} {code : List Char} (h : CodeSpot whole p0 start code cs p) :
    Spot whole p0 cs p := by
  obtain ⟨a, rfl, rfl, rfl⟩ := h
  exact ⟨a ++ code.reverse, by simp, rfl⟩

theorem CodeSpot.found {start : Nat} {code : List Char} (h : CodeSpot whole p0 start code cs p) :
    FPiece.Found whole p0 (.code (String.ofList code.reverse) start) := by
  obtain ⟨a, rfl, rfl, -⟩ := h
  rintro _ _ ⟨⟩
  exact ⟨a, cs, by simp, rfl⟩

theorem found_pushText {pieces : List FPiece} {text : List Char}
    (h : ∀ x ∈ pieces, x.Found whole p0) : ∀ x ∈ pushText pieces text, x.Found whole p0 := by
  rw [pushText]
  split
  · exact h
  · exact forall_mem_cons.mpr ⟨(by rintro _ _ ⟨⟩), h⟩

/-- The code in an f-string that has been scanned stands in the text. -/
def AllFound (whole : List Char) (p0 : Place) (k : TokenKind) : Prop :=
  ∀ pieces, k = .fstring pieces → ∀ x ∈ pieces, x.Found whole p0

/-- So it is for every f-string, whatever has been scanned of it. -/
theorem allFound_scanFText (quote : Char) (whole : List Char) (p0 : Place) :
    (∀ pieces text cs p, Spot whole p0 cs p → (∀ x ∈ pieces, x.Found whole p0) →
      AllFound whole p0 (scanFText quote pieces text cs p).1) ∧
    (∀ pieces start depth inner code cs p, CodeSpot whole p0 start code cs p →
      (∀ x ∈ pieces, x.Found whole p0) →
      AllFound whole p0 (scanFCode quote pieces start depth inner code cs p).1) := by
  apply scanFText.mutual_induct quote
  all_goals intros
  all_goals first | rw [scanFText.eq_def] | rw [scanFCode.eq_def]
  all_goals simp only [*, if_true, if_false, Bool.false_eq_true]
  -- an error has no pieces, and all that goes on stands where the scan has come to
  all_goals first
    | exact fun _ h => TokenKind.noConfusion h
    | rename_i hspot hpieces
      rintro _ ⟨⟩ x hx
      exact found_pushText hpieces x (mem_reverse.mp hx)
    | rename_i ih hspot hpieces
      refine ih ?_ ?_
      · first | exact hspot.step | exact hspot.step.step | exact hspot.step.code |
          exact hspot.step.spot
      · first
          | exact hpieces
          | exact found_pushText hpieces
          | exact forall_mem_cons.mpr ⟨hspot.found, hpieces⟩

/-- The code in a token stands in the text. -/
theorem allFound_scanFrom (c : Char) (cs : List Char) (p : Place) :
    AllFound (c :: cs) p (scanFrom c cs p).1 := by
  intro pieces h
  obtain ⟨q, more, rfl, hscan⟩ := scanFrom_fstring h
  rw [hscan] at h
  exact (allFound_scanFText q (c :: q :: more) p).1 [] [] more _ ⟨[c, q], rfl, rfl⟩
    (by rintro _ ⟨⟩) pieces h

end

/-! ### All tokens -/

/-- The tokens `ts` tile the text `cs`, which begins at the place `p` with `n` brackets open. -/
structure Tiled (p : Place) (n : Nat) (cs : List Char) (ts : List Token) : Prop where
  /-- A token goes from one character to another, and has the line that it begins on, in 32
  bits. -/
  spans : ∀ t ∈ ts, ∃ a l b, cs = a ++ (l ++ b) ∧ t.start = p.offset + bytesOf a ∧
    t.stop = t.start + bytesOf l ∧ t.line = (p.line.toNat + a.count '\n') % 2 ^ 32
  /-- A token begins behind the one before it, or the beginning of the text, and a gap. -/
  gaps : ∀ us t vs, ts = us ++ t :: vs → ∃ a g b, cs = a ++ (g ++ b) ∧
    p.offset + bytesOf a = (us.getLast?.map Token.stop).getD p.offset ∧
    t.start = p.offset + bytesOf a + bytesOf g ∧
    Gap (decide (0 < nestingBehind n (us.map Token.kind))) b false g
  /-- The last token, and no other, is the end of the text. -/
  ends : ∃ us t, ts = us ++ [t] ∧ t.kind = .eof ∧ t.start = p.offset + bytesOf cs ∧
    t.stop = t.start ∧ ∀ u ∈ us, u.kind.isEof = false
  /-- The code in an f-string is the text at its offset. -/
  code : ∀ t ∈ ts, ∀ pieces, t.kind = .fstring pieces → ∀ source start,
    .code source start ∈ pieces →
    ∃ a b, cs = a ++ (source.toList ++ b) ∧ start = p.offset + bytesOf a

section

variable {p : Place} {n : Nat} {g l rest : List Char} {k : TokenKind} {ts : List Token}

theorem Tiled.eof (hgap : Gap (decide (0 < n)) [] false g) :
    Tiled p n g
      [⟨.eof, (p.afterAll g).offset, (p.afterAll g).offset, (p.afterAll g).line.toNat⟩] := by
  rw [Place.toNat_line_afterAll, Place.afterAll_eq]
  refine ⟨?_, fun us t vs heq => ?_, ⟨[], _, rfl, rfl, rfl, rfl, nofun⟩, ?_⟩
  · refine forall_mem_singleton.mpr ⟨g, [], [], ?_, rfl, rfl, rfl⟩
    simp
  · obtain ⟨rfl, heq⟩ | ⟨us', rfl, heq⟩ := List.append_eq_cons_iff.mp heq.symm
    · obtain ⟨rfl, -⟩ := List.cons.inj heq
      exact ⟨[], g, [], by simp, rfl, rfl, hgap⟩
    · cases us' <;> cases heq
  · exact forall_mem_singleton.mpr nofun

/-- One token more, with the gap before it. -/
theorem Tiled.cons (hgap : Gap (decide (0 < n)) (l ++ rest) false g) (hk : k.isEof = false)
    (hcode : AllFound (l ++ rest) (p.afterAll g) k)
    (h : Tiled (p.afterAll (g ++ l)) (Scanner.nestingAfter n k) rest ts) :
    Tiled p n (g ++ (l ++ rest))
      (⟨k, (p.afterAll g).offset, (p.afterAll (g ++ l)).offset, (p.afterAll g).line.toNat⟩ ::
        ts) := by
  have hlines := p.toNat_line_afterAll (g ++ l)
  have hplace := p.afterAll_eq (g ++ l)
  rw [hplace, List.count_append] at hlines
  rw [bytesOf_append] at hplace
  rw [hplace] at h ⊢
  rw [Place.afterAll_eq] at hcode
  rw [Place.toNat_line_afterAll, Place.afterAll_eq]
  refine ⟨fun t ht => ?_, fun us t vs heq => ?_, ?_,
    fun t ht pieces hkind source start hpiece => ?_⟩
  · rcases mem_cons.mp ht with rfl | ht
    · exact ⟨g, l, rest, rfl, rfl, (Nat.add_assoc ..).symm, rfl⟩
    · obtain ⟨a, l', b, rfl, hstart, hstop, hline⟩ := h.spans t ht
      refine ⟨g ++ (l ++ a), l', b, by simp, ?_, hstop, ?_⟩
      · simp only [hstart, bytesOf_append]
        omega
      · simp only [hline, hlines, List.count_append, Nat.mod_add_mod]
        rw [Nat.add_assoc, Nat.add_assoc]
  · cases us with
    | nil =>
      obtain ⟨rfl, -⟩ := List.cons.inj heq
      exact ⟨[], g, l ++ rest, rfl, rfl, rfl, hgap⟩
    | cons u us =>
      obtain ⟨rfl, rfl⟩ := List.cons.inj heq
      obtain ⟨a, g', b, rfl, hlast, hstart, hgap'⟩ := h.gaps us t vs rfl
      refine ⟨g ++ (l ++ a), g', b, by simp, ?_, ?_, hgap'⟩
      · rw [getLast?_cons]
        simp only [bytesOf_append] at hlast ⊢
        cases hus : us.getLast? with
        | none =>
          rw [hus] at hlast
          simp only [Option.map_none, Option.getD_none, Option.map_some,
            Option.getD_some] at hlast ⊢
          omega
        | some v =>
          rw [hus] at hlast
          simp only [Option.map_some, Option.getD_some] at hlast ⊢
          omega
      · simp only [hstart, bytesOf_append]
        omega
  · obtain ⟨us, t, rfl, hkind, hstart, hstop, hus⟩ := h.ends
    refine ⟨_ :: us, t, rfl, hkind, ?_, hstop, forall_mem_cons.mpr ⟨hk, hus⟩⟩
    simp only [hstart, bytesOf_append]
    omega
  · rcases mem_cons.mp ht with rfl | ht
    · obtain ⟨a, b, hab, rfl⟩ := hcode pieces hkind _ hpiece source start rfl
      refine ⟨g ++ a, b, by rw [hab, append_assoc], ?_⟩
      simp only [Place.afterAll_eq, bytesOf_append]
      omega
    · obtain ⟨a, b, rfl, rfl⟩ := h.code t ht pieces hkind source start hpiece
      refine ⟨g ++ (l ++ a), b, by simp, ?_⟩
      simp only [bytesOf_append]
      omega

theorem Cut.tiled {cs : List Char} (h : Cut n p cs ts) : Tiled p n cs ts := by
  induction h with
  | @eof n p g hgap =>
    exact .eof (.of_skipGap (hgap.skips p))
  | @token n p g c l rest k ts hgap hscan _ hk _ ih =>
    rw [← Place.afterAll_append] at ih ⊢
    refine .cons (l := c :: l) (.of_skipGap (hgap.skips p)) hk ?_ ih
    rw [← hscan]
    exact allFound_scanFrom c (l ++ rest) (p.afterAll g)

end

/-- The tokens of a text tile it: their spans lie on characters and follow one another, with gaps
between them; the line of each is that of its beginning, counted in 32 bits from the given one on;
the end of the text is the last one, and no other; and the code in f-strings is the text at its
offset. -/
theorem tokens_tiled (source : String) (line : UInt32) :
    Tiled ⟨0, line⟩ 0 source.toList (tokens source line.toNat) := by
  obtain ⟨_, h⟩ := exists_cut source.toList 0
  obtain ⟨ts, hts, hcut, -⟩ := h ⟨0, line⟩
  rw [← UInt32.ofNat_toNat (x := line)] at hts
  rw [hts.tokens]
  exact hcut.tiled

end TaskBasic
