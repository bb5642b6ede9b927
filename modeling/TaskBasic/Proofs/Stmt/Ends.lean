import Mathlib
import TaskBasic.Proofs.Stmt.Image

/-
Reading ends.

The parser recurses on a bound of the nesting depth.  A reader that stands `Within n c`
has more than sixteen times what is left as its bound; what it has `Passed` says how much
it takes where it succeeds, and that it does not run out of the bound where it fails.  Both
are the two sides of a Hoare triple, and the conditions for the functions of the parser
are generated from their text.

* `exprHalts`, `stmtHalts` — what is enough for each function.
* `reading_ends` — scanning and parsing end on every text.
-/

namespace TaskBasic

open Std.Do

set_option mvcgen.warning false

theorem Cursor.cause_unexpected (c : Cursor) (wanted : String) :
    (c.unexpected wanted).cause ≠ .tooDeep := by
  rw [Cursor.unexpected]
  split <;> rintro ⟨⟩

namespace Parse

variable {α : Type} {n m : Nat} {x : Parse α}

/-- The reader stands at `c0`. -/
abbrev Here (c0 : Cursor) : Assertion (.arg Cursor (.except SyntaxError .pure)) :=
  fun c => ⌜c = c0 ∧ c0.Ended⌝

/-- The reader has passed over tokens that weigh `m a` at least, or has found a mistake. -/
abbrev Passed (c0 : Cursor) (m : α → Nat) : PostCond α (.arg Cursor (.except SyntaxError .pure)) :=
  post⟨fun a c => ⌜c.Ended ∧ weight c.kinds + m a ≤ weight c0.kinds⌝, fun e => ⌜e.cause ≠ .tooDeep⌝⟩

/-- The reader stands at `c0`, where sixteen times the weight of the tokens is less than `n`. -/
abbrev Within (n : Nat) (c0 : Cursor) : Assertion (.arg Cursor (.except SyntaxError .pure)) :=
  fun c => ⌜c = c0 ∧ c0.Ended ∧ 16 * weight c0.kinds < n⌝

theorem triple_iff {P : Cursor → Prop} {Q : α → Cursor → Prop} {E : SyntaxError → Prop} :
    (⦃fun c => ⌜P c⌝⦄ x ⦃post⟨fun a c => ⌜Q a c⌝, fun e => ⌜E e⌝⟩⦄) ↔
      ∀ c, P c → match x.run c with
        | .ok r => Q r.1 r.2
        | .error e => E e := by
  refine forall₂_congr fun c hc => ?_
  show ((wp (x.run c)).apply (fun r => ⌜Q r.1 r.2⌝, fun e => ⌜E e⌝, PUnit.unit)).down ↔ _
  cases x.run c <;> exact Iff.rfl

-- The postcondition is not `Passed c0`, which a last call would be matched with.
theorem triple_of (h : ∀ c0 : Cursor, c0.Ended → 16 * weight c0.kinds < n → ⦃fun c => ⌜c = c0⌝⦄ x
    ⦃post⟨fun _ c => ⌜weight c.kinds + m ≤ weight c0.kinds ∧ c.Ended⌝,
      fun e => ⌜e.cause ≠ .tooDeep⌝⟩⦄) (c0 : Cursor) : ⦃Within n c0⦄ x ⦃Passed c0 fun _ => m⦄ := by
  refine triple_iff.mpr ?_
  rintro c ⟨rfl, hc, hn⟩
  have h := triple_iff.mp (h c hc hn) c rfl
  cases hrun : x.run c <;> rw [hrun] at h
  · exact h
  · exact h.symm

theorem weight_goes {c c' : Cursor} {ts : List Token} (h : c.Goes ts c') :
    weight c'.kinds + weight (ts.map Token.form) = weight c.kinds := by
  rw [Cursor.kinds, Cursor.kinds, h.tokens, List.map_append, weight_append, Nat.add_comm]

theorem weight_advance {c : Cursor} (hc : c.Ended) : c.advance.Ended ∧
    weight c.advance.kinds + (if c.current.kind.isEof then 0 else c.current.kind.weight) =
      weight c.kinds := by
  cases hk : c.current.kind.isEof with
  | false =>
    have hgoes := Cursor.Goes.advance hc hk
    refine ⟨hgoes.ended, ?_⟩
    rw [← weight_goes hgoes, List.map_singleton, weight_cons, weight_nil, Token.form,
      TokenKind.weight_bare, Nat.add_zero]
    rfl
  | true =>
    have hsame : c.advance = { c with previous := c.current } := by
      rw [Cursor.advance, hc.rest_nil hk]
    rw [hsame]
    exact ⟨hc, rfl⟩

section Words

variable (c0 : Cursor)

@[spec]
theorem kind_spec : ⦃fun c => ⌜c = c0⌝⦄ kind
    ⦃post⟨fun k c => ⌜c = c0 ∧ c0.current.kind = k⌝, fun _ => ⌜False⌝⟩⦄ := by
  refine triple_iff.mpr ?_
  rintro _ rfl
  exact ⟨rfl, rfl⟩

@[spec]
theorem line_spec : ⦃fun c => ⌜c = c0⌝⦄ line
    ⦃post⟨fun _ c => ⌜c = c0⌝, fun _ => ⌜False⌝⟩⦄ :=
  triple_iff.mpr fun _ h => h

@[spec]
theorem advance_spec : ⦃Here c0⦄ Parse.advance
    ⦃post⟨fun _ c => ⌜1 ≤ c0.current.kind.weight ∧ c.Ended ∧ weight c.kinds +
        (if c0.current.kind.isEof then 0 else c0.current.kind.weight) = weight c0.kinds⌝,
      fun _ => ⌜False⌝⟩⦄ := by
  refine triple_iff.mpr ?_
  rintro c ⟨rfl, hc⟩
  exact ⟨TokenKind.one_le_weight _, weight_advance hc⟩

@[spec]
theorem fail_spec (line : Nat) (cause : SyntaxCause) :
    ⦃fun _ => ⌜cause ≠ .tooDeep⌝⦄ (fail line cause : Parse α)
      ⦃post⟨fun _ _ => ⌜False⌝, fun e => ⌜e.cause ≠ .tooDeep⌝⟩⦄ :=
  triple_iff.mpr fun _ h => h

@[spec]
theorem unexpected_spec (wanted : String) : ⦃fun _ => ⌜True⌝⦄ (unexpected wanted : Parse α)
    ⦃post⟨fun _ _ => ⌜False⌝, fun e => ⌜e.cause ≠ .tooDeep⌝⟩⦄ :=
  triple_iff.mpr fun c _ => c.cause_unexpected wanted

@[spec]
theorem skipSeparators_spec : ⦃Here c0⦄ skipSeparators ⦃Passed c0 fun _ => 0⦄ := by
  refine triple_iff.mpr ?_
  rintro c ⟨rfl, hc⟩
  obtain ⟨ts, hgoes, -⟩ := goes_pastSeparators c.source c.rest c c.previous c.current rfl hc
  have hgoes : c.Goes ts (c.pastSeparators c.previous c.current c.rest) := hgoes
  exact ⟨hgoes.ended, Nat.le.intro (weight_goes hgoes)⟩

@[spec]
theorem acceptMark_spec (k : Mark) : ⦃Here c0⦄ acceptMark k ⦃Passed c0 Bool.toNat⦄ := by
  mvcgen [acceptMark, atMark] <;> grind [TokenKind.isMark, TokenKind.isEof]

@[spec]
theorem acceptKeyword_spec (k : Keyword) : ⦃Here c0⦄ acceptKeyword k ⦃Passed c0 Bool.toNat⦄ := by
  mvcgen [acceptKeyword, atKeyword] <;> grind [TokenKind.isKeyword, TokenKind.isEof]

@[spec]
theorem acceptElseIf_spec : ⦃Here c0⦄ acceptElseIf ⦃Passed c0 Bool.toNat⦄ := by
  mvcgen [acceptElseIf, atKeyword] <;> grind -ring [TokenKind.isKeyword, TokenKind.isEof]

@[spec]
theorem expectMark_spec (k : Mark) (wanted : String) :
    ⦃Here c0⦄ expectMark k wanted ⦃Passed c0 fun _ => 1⦄ := by
  mvcgen [expectMark] <;> grind

@[spec]
theorem expectKeyword_spec (k : Keyword) (wanted : String) :
    ⦃Here c0⦄ expectKeyword k wanted ⦃Passed c0 fun _ => 1⦄ := by
  mvcgen [expectKeyword] <;> grind

@[spec]
theorem expectName_spec : ⦃Here c0⦄ expectName ⦃Passed c0 fun _ => 1⦄ := by
  mvcgen [expectName] <;> grind [TokenKind.isEof]

end Words

end Parse

open Parse

/-- What is enough for reading expressions. -/
structure ExprHalts (fuel : Nat) : Prop where
  expr : ∀ ℓ c0, ⦃Within (fuel - ℓ.rank) c0⦄ parseExprAt fuel ℓ ⦃Passed c0 fun _ => 1⦄
  chain : ∀ ℓ t e c0, ⦃Within fuel c0⦄ parseChain fuel ℓ t e ⦃Passed c0 fun _ => 0⦄
  suffixes : ∀ e c0, ⦃Within fuel c0⦄ parseSuffixes fuel e ⦃Passed c0 fun _ => 0⦄
  primary : ∀ c0, ⦃Within fuel c0⦄ parsePrimary fuel ⦃Passed c0 fun _ => 1⦄
  items : ∀ es c0, ⦃Within (fuel - 10) c0⦄ parseExprList fuel es ⦃Passed c0 fun _ => 1⦄
  entries : ∀ es c0, ⦃Within (fuel - 10) c0⦄ parseEntries fuel es ⦃Passed c0 fun _ => 1⦄
  parts : ∀ n line done pieces, 16 * piecesWeight pieces < fuel → ∀ c0,
    ⦃Within n c0⦄ parseFParts fuel line done pieces ⦃Passed c0 fun _ => 0⦄

theorem Level.rank_le (ℓ : Level) : ℓ.rank ≤ 9 := by cases ℓ <;> decide

grind_pattern Level.rank_le => ℓ.rank

@[grind →]
theorem Level.isEof_operator {ℓ : Level} {k : TokenKind} {op : Expr → Expr → Expr}
    (h : ℓ.operator? k = some op) : k.isEof = false := by
  cases k
  case eof => cases ℓ <;> cases h
  all_goals rfl

namespace ExprHalts

variable {fuel : Nat} (h : ExprHalts fuel)

include h

theorem expr_succ (ℓ : Level) (c0 : Cursor) :
    ⦃Within (fuel + 1 - ℓ.rank) c0⦄ parseExprAt (fuel + 1) ℓ ⦃Passed c0 fun _ => 1⦄ := by
  obtain ⟨expr, chain, suffixes, primary, -⟩ := h
  refine triple_of (fun c0 hc hw => ?_) c0
  cases ℓ <;> rw [parseExprAt] <;> simp only [Level.rank] at hw
  all_goals mvcgen [expr, chain, suffixes, primary]
  all_goals grind -ring -linarith [Level.rank]

theorem chain_succ (ℓ t : Level) (left : Expr) (c0 : Cursor) :
    ⦃Within (fuel + 1) c0⦄ parseChain (fuel + 1) ℓ t left ⦃Passed c0 fun _ => 0⦄ := by
  obtain ⟨expr, chain, -⟩ := h
  refine triple_of (fun c0 hc hw => ?_) c0
  have := t.rank_le
  rw [parseChain]
  mvcgen [expr, chain] <;> grind -ring -linarith

theorem suffixes_succ (e : Expr) (c0 : Cursor) :
    ⦃Within (fuel + 1) c0⦄ parseSuffixes (fuel + 1) e ⦃Passed c0 fun _ => 0⦄ := by
  obtain ⟨-, -, suffixes, -, items, -⟩ := h
  refine triple_of (fun c0 hc hw => ?_) c0
  rw [parseSuffixes]
  mvcgen [atMark, suffixes, items] <;> grind -ring -linarith

theorem primary_succ (c0 : Cursor) :
    ⦃Within (fuel + 1) c0⦄ parsePrimary (fuel + 1) ⦃Passed c0 fun _ => 1⦄ := by
  obtain ⟨expr, -, -, -, items, entries, parts⟩ := h
  have parts := parts fuel
  refine triple_of (fun c0 hc hw => ?_) c0
  rw [parsePrimary]
  mvcgen [atMark, expr, items, entries, parts]
  all_goals grind -ring -linarith [Level.rank, TokenKind.weight, TokenKind.isEof, literal?]

theorem items_succ (es : List Expr) (c0 : Cursor) :
    ⦃Within (fuel + 1 - 10) c0⦄ parseExprList (fuel + 1) es ⦃Passed c0 fun _ => 1⦄ := by
  obtain ⟨expr, -, -, -, items, -⟩ := h
  refine triple_of (fun c0 hc hw => ?_) c0
  rw [parseExprList]
  mvcgen [expr, items] <;> grind -ring -linarith [Level.rank]

theorem entries_succ (es : List (Expr × Expr)) (c0 : Cursor) :
    ⦃Within (fuel + 1 - 10) c0⦄ parseEntries (fuel + 1) es ⦃Passed c0 fun _ => 1⦄ := by
  obtain ⟨expr, -, -, -, -, entries, -⟩ := h
  refine triple_of (fun c0 hc hw => ?_) c0
  rw [parseEntries]
  mvcgen [expr, entries] <;> grind -ring -linarith [Level.rank]

theorem parts_succ (n line : Nat) (done : List FPart) (pieces : List FPiece)
    (hfuel : 16 * piecesWeight pieces < fuel + 1) (c0 : Cursor) :
    ⦃Within n c0⦄ parseFParts (fuel + 1) line done pieces ⦃Passed c0 fun _ => 0⦄ := by
  rw [parseFParts.eq_def]
  dsimp only
  split
  · mvcgen
    grind
  · simp only [piecesWeight_cons] at hfuel
    exact h.parts _ _ _ _ (by omega) c0
  next source _ pieces =>
    simp only [piecesWeight_cons] at hfuel
    have hrank : Level.disjunction.rank = 9 := rfl
    have hweight := Cursor.weight_kinds_ofText source line
    have hinner := triple_iff.mp (h.expr .disjunction (Cursor.ofText source line)) _
      ⟨rfl, Cursor.ended_ofText source line, by omega⟩
    rw [StateT.run] at hinner
    split
    · exact triple_iff.mpr fun _ _ => (by rintro ⟨⟩)
    cases hrun : parseExprAt fuel .disjunction (Cursor.ofText source line) with
    | error e =>
      rw [hrun] at hinner
      exact triple_iff.mpr fun _ _ => hinner
    | ok r =>
      dsimp only
      split
      · exact h.parts n _ _ _ (by omega) c0
      · exact triple_iff.mpr fun _ _ => Cursor.cause_unexpected _ _

end ExprHalts

@[grind .]
theorem exprHalts (fuel : Nat) : ExprHalts fuel := by
  induction fuel with
  | zero =>
    constructor <;> intros <;> refine triple_iff.mpr ?_ <;> rintro c ⟨rfl, -, hn⟩ <;> omega
  | succ fuel ih =>
    exact ⟨ih.expr_succ, ih.chain_succ, ih.suffixes_succ, ih.primary_succ, ih.items_succ,
      ih.entries_succ, ih.parts_succ⟩

namespace Parse

section

variable (fuel : Nat)

@[spec]
theorem expr_spec (ℓ : Level) (c0 : Cursor) :
    ⦃Within (fuel - ℓ.rank) c0⦄ parseExprAt fuel ℓ ⦃Passed c0 fun _ => 1⦄ :=
  (exprHalts fuel).expr ℓ c0

@[spec]
theorem items_spec (es : List Expr) (c0 : Cursor) :
    ⦃Within (fuel - 10) c0⦄ parseExprList fuel es ⦃Passed c0 fun _ => 1⦄ :=
  (exprHalts fuel).items es c0

@[spec]
theorem targets_spec (done : List Target) (c0 : Cursor) :
    ⦃Within (fuel - 10) c0⦄ targets fuel done ⦃Passed c0 fun _ => 1⦄ := by
  induction fuel generalizing done c0 with
  | zero => exact triple_iff.mpr fun c h => absurd h.2.2 (Nat.not_lt_zero _)
  | succ fuel ih =>
    refine triple_of (fun c0 hc hw => ?_) c0
    rw [targets]
    mvcgen [target, ih] <;> grind -ring -linarith

@[spec]
theorem names_spec (done : List String) (c0 : Cursor) :
    ⦃Within fuel c0⦄ names fuel done ⦃Passed c0 fun _ => 1⦄ := by
  induction fuel generalizing done c0 with
  | zero => exact triple_iff.mpr fun c h => absurd h.2.2 (Nat.not_lt_zero _)
  | succ fuel ih =>
    refine triple_of (fun c0 hc hw => ?_) c0
    rw [names]
    mvcgen [ih] <;> grind -ring -linarith

@[spec]
theorem arrays_spec (done : List (String × List Expr)) (c0 : Cursor) :
    ⦃Within fuel c0⦄ arrays fuel done ⦃Passed c0 fun _ => 1⦄ := by
  induction fuel generalizing done c0 with
  | zero => exact triple_iff.mpr fun c h => absurd h.2.2 (Nat.not_lt_zero _)
  | succ fuel ih =>
    refine triple_of (fun c0 hc hw => ?_) c0
    rw [arrays]
    mvcgen [ih] <;> grind -ring -linarith

@[spec]
theorem functionFlags_spec (a b : Bool) (c0 : Cursor) :
    ⦃Within fuel c0⦄ functionFlags fuel a b ⦃Passed c0 fun _ => 0⦄ := by
  induction fuel generalizing a b c0 with
  | zero => exact triple_iff.mpr fun c h => absurd h.2.2 (Nat.not_lt_zero _)
  | succ fuel ih =>
    refine triple_of (fun c0 hc hw => ?_) c0
    rw [functionFlags]
    mvcgen [ih] <;> grind -ring -linarith

@[spec]
theorem simple_spec (c0 : Cursor) : ⦃Within (fuel - 9) c0⦄ simple fuel ⦃Passed c0 fun _ => 1⦄ := by
  refine triple_of (fun c0 hc hw => ?_) c0
  rw [simple]
  mvcgen [parseExpr, atMark, atTerminator, target, declaration, evaluation, importPath, spawning,
    debugging, inputting] <;> grind -ring -linarith [TokenKind.isEof]

end

/-- What is enough for reading statements. -/
structure StmtHalts (fuel : Nat) : Prop where
  block : ∀ closing done c0, ⦃Within (fuel - 11) c0⦄ block fuel closing done ⦃Passed c0 fun _ => 0⦄
  statement : ∀ c0, ⦃Within (fuel - 10) c0⦄ statement fuel ⦃Passed c0 fun _ => 1⦄
  conditional : ∀ c0, ⦃Within (fuel - 10) c0⦄ conditional fuel ⦃Passed c0 fun _ => 1⦄
  branches : ∀ done c0, ⦃Within fuel c0⦄ branches fuel done ⦃Passed c0 fun _ => 1⦄
  forLoop : ∀ c0, ⦃Within fuel c0⦄ forLoop fuel ⦃Passed c0 fun _ => 1⦄
  guarded : ∀ c0, ⦃Within (fuel - 12) c0⦄ guarded fuel ⦃Passed c0 fun _ => 1⦄
  arms : ∀ done o c0, ⦃Within fuel c0⦄ arms fuel done o ⦃Passed c0 fun _ => 1⦄

namespace StmtHalts

variable {fuel : Nat} (h : StmtHalts fuel) (c0 : Cursor)

include h

theorem block_succ (closing : List Keyword) (done : List Stmt) (c0 : Cursor) :
    ⦃Within (fuel + 1 - 11) c0⦄ Parse.block (fuel + 1) closing done ⦃Passed c0 fun _ => 0⦄ := by
  obtain ⟨block, statement, -⟩ := h
  refine triple_of (fun c0 hc hw => ?_) c0
  rw [Parse.block]
  mvcgen [expectTerminator, atTerminator, block, statement] <;> grind -ring -linarith

theorem statement_succ :
    ⦃Within (fuel + 1 - 10) c0⦄ Parse.statement (fuel + 1) ⦃Passed c0 fun _ => 1⦄ := by
  obtain ⟨block, -, conditional, -, forLoop, guarded, arms⟩ := h
  refine triple_of (fun c0 hc hw => ?_) c0
  rw [Parse.statement]
  mvcgen [parseExpr, functionHead, atMark, conditional, block, forLoop, guarded, arms]
  all_goals grind -ring -linarith [TokenKind.isEof]

theorem conditional_succ :
    ⦃Within (fuel + 1 - 10) c0⦄ Parse.conditional (fuel + 1) ⦃Passed c0 fun _ => 1⦄ := by
  obtain ⟨block, statement, -, branches, -⟩ := h
  refine triple_of (fun c0 hc hw => ?_) c0
  rw [Parse.conditional]
  mvcgen [parseExpr, atTerminator, block, branches, statement] <;> grind -ring -linarith

theorem branches_succ (done : List (Expr × List Stmt)) (c0 : Cursor) :
    ⦃Within (fuel + 1) c0⦄ Parse.branches (fuel + 1) done ⦃Passed c0 fun _ => 1⦄ := by
  obtain ⟨block, -, -, branches, -⟩ := h
  refine triple_of (fun c0 hc hw => ?_) c0
  rw [Parse.branches]
  mvcgen [parseExpr, block, branches] <;> grind -ring -linarith

theorem forLoop_succ : ⦃Within (fuel + 1) c0⦄ Parse.forLoop (fuel + 1) ⦃Passed c0 fun _ => 1⦄ := by
  obtain ⟨block, -⟩ := h
  refine triple_of (fun c0 hc hw => ?_) c0
  rw [Parse.forLoop]
  mvcgen [parseExpr, next, block] <;> grind -ring -linarith [TokenKind.isEof]

theorem guarded_succ :
    ⦃Within (fuel + 1 - 12) c0⦄ Parse.guarded (fuel + 1) ⦃Passed c0 fun _ => 1⦄ := by
  obtain ⟨block, -⟩ := h
  refine triple_of (fun c0 hc hw => ?_) c0
  rw [Parse.guarded]
  mvcgen [block] <;> grind -ring -linarith

theorem arms_succ (done : List (List Expr × List Stmt)) (o : Option (List Stmt)) (c0 : Cursor) :
    ⦃Within (fuel + 1) c0⦄ Parse.arms (fuel + 1) done o ⦃Passed c0 fun _ => 1⦄ := by
  obtain ⟨block, -, -, -, -, -, arms⟩ := h
  refine triple_of (fun c0 hc hw => ?_) c0
  rw [Parse.arms]
  mvcgen [block, arms] <;> grind -ring -linarith

end StmtHalts

theorem stmtHalts (fuel : Nat) : StmtHalts fuel := by
  induction fuel with
  | zero =>
    constructor <;> intros <;> refine triple_iff.mpr ?_ <;> rintro c ⟨rfl, -, hn⟩ <;> omega
  | succ fuel ih =>
    exact ⟨ih.block_succ, ih.statement_succ, ih.conditional_succ, ih.branches_succ,
      ih.forLoop_succ, ih.guarded_succ, ih.arms_succ⟩

theorem triple_program (fuel : Nat) (c0 : Cursor) :
    ⦃Within (fuel - 11) c0⦄ program fuel ⦃Passed c0 fun _ => 0⦄ := by
  obtain ⟨block, -⟩ := stmtHalts fuel
  refine triple_of (fun c0 hc hw => ?_) c0
  rw [program]
  mvcgen [atEof, block] <;> grind

end Parse

theorem Program.cause_ofText {source : String} {e : SyntaxError}
    (h : Program.ofText source = .error e) : e.cause ≠ .tooDeep := by
  have hweight := Cursor.weight_kinds_ofText source 1
  have hprogram :=
    triple_iff.mp (triple_program (parseFuel source.length) (Cursor.ofText source 1)) _
    ⟨rfl, Cursor.ended_ofText source 1, by rw [parseFuel]; omega⟩
  rw [StateT.run] at hprogram
  rw [Program.ofText] at h
  cases hrun : Parse.program (parseFuel source.length) (Cursor.ofText source 1) with
  | ok r =>
    rw [hrun] at h
    cases h
  | error e' =>
    rw [hrun] at h hprogram
    cases h
    exact hprogram

/-- The code in an f-string is shorter than the text. -/
theorem code_shorter {source code : String} {line offset : Nat} {t : Token} {pieces : List FPiece}
    (ht : t ∈ tokens source line) (hk : t.kind = .fstring pieces)
    (hcode : .code code offset ∈ pieces) : code.length < source.length := by
  obtain ⟨as, bs, hts⟩ := List.append_of_mem ht
  obtain ⟨ps, qs, hps⟩ := List.append_of_mem hcode
  have hsource := weight_tokens source line
  rw [hts, List.map_append, List.map_cons, weight_append, weight_cons, Token.form,
    TokenKind.weight_bare, hk, TokenKind.weight, hps] at hsource
  simp only [piecesWeight, List.map_append, List.map_cons, List.sum_append,
    List.sum_cons] at hsource
  omega

/-- Scanning and parsing end on every text.  A step of the scanner passes over a character unless
the text has ended, and the tokens end where the text does.  No reader goes deeper than sixteen
times what is left and twelve more, and an expression or a statement takes a token at least.  The
code in an f-string is shorter than the text. -/
theorem reading_ends :
    (∀ s : Scanner, s.next.1.kind = .eof ∧ s.next.2.rest.chars = [] ∨
      s.next.1.kind.isEof = false ∧ s.next.2.rest.chars.length < s.rest.chars.length) ∧
    (∀ source line, (Cursor.ofText source line).Ended) ∧
    (∀ fuel, ExprHalts fuel ∧ StmtHalts fuel) ∧
    (∀ source e, Program.ofText source = .error e → e.cause ≠ .tooDeep) ∧
    ∀ source line, ∀ t ∈ tokens source line, ∀ pieces, t.kind = .fstring pieces → ∀ code offset,
      .code code offset ∈ pieces → code.length < source.length :=
  ⟨Scanner.next_passes, Cursor.ended_ofText, fun fuel => ⟨exprHalts fuel, stmtHalts fuel⟩,
    fun _ _ => Program.cause_ofText, fun _ _ _ ht _ hk _ _ => code_shorter ht hk⟩

end TaskBasic
