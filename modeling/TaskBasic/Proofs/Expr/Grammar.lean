import TaskBasic.Expr.Parse
import TaskBasic.Proofs.Token.Local

/-
The grammar of expressions.

`Spells φ ks` says that the tokens `ks` spell what `φ` speaks of: an expression at
some level, the operators behind a first operand, the suffixes behind a primary
expression, or a list.  There is one rule for each way in which the parser goes
on, so that the rules are unambiguous.

* `Spells.read` — the parser reads what is spelled, if it is given enough fuel and
  the token behind cannot go on with it.
-/

namespace TaskBasic

open List

variable {ks : List TokenKind} {m : Mark} {ℓ' : Level} {φ : ExprForm} {parts : List FPart}

variable {ℓ : Level} {k : TokenKind}

/-! ### Places in a token sequence -/

def firstOr (ls : List TokenKind) (k : TokenKind) : TokenKind := ls.head?.getD k

@[simp] theorem firstOr_nil (k : TokenKind) : firstOr [] k = k := rfl

@[simp] theorem firstOr_cons (l : TokenKind) (ls : List TokenKind) (k : TokenKind) :
    firstOr (l :: ls) k = l := rfl

namespace Cursor

def kinds (c : Cursor) : List TokenKind :=
  (c.current :: c.rest).map Token.form

/-- The place behind `n` tokens. -/
def skip (c : Cursor) : Nat → Cursor
  | 0 => c
  | n + 1 => c.advance.skip n

/-- The tokens `ks` stand here, and behind them one of kind `k`. -/
def Sees (c : Cursor) (ks : List TokenKind) (k : TokenKind) : Prop :=
  ks ++ [k] <+: c.kinds

variable {c : Cursor} {ks ls : List TokenKind} {k l : TokenKind}

theorem skip_add (c : Cursor) (m n : Nat) : c.skip (m + n) = (c.skip m).skip n := by
  induction m generalizing c with
  | zero => rw [Nat.zero_add]; rfl
  | succ m ih => rw [Nat.succ_add]; exact ih c.advance

theorem skip_append (c : Cursor) (ks ls : List TokenKind) :
    c.skip (ks ++ ls).length = (c.skip ks.length).skip ls.length := by
  rw [length_append, skip_add]

theorem kinds_advance (h : c.kinds = k :: l :: ks) :
    c.advance.kinds = l :: ks := by
  obtain ⟨source, previous, current, rest⟩ := c
  cases rest with
  | nil => cases h
  | cons next rest => exact (List.cons.inj h).2

namespace Sees

theorem first (h : c.Sees ks k) : c.current.kind.bare = firstOr ks k := by
  obtain ⟨rest, h⟩ := h
  cases ks <;> exact (List.cons.inj h).1.symm

theorem here (h : c.Sees [] k) : c.current.kind.bare = k := h.first

theorem head (h : c.Sees (l :: ks) k) : c.current.kind.bare = l := h.first

theorem mark (h : c.Sees (.mark m :: ks) k) : c.current.kind = .mark m :=
  TokenKind.eq_of_bare h.head nofun

theorem keyword {m : Keyword} (h : c.Sees (.keyword m :: ks) k) : c.current.kind = .keyword m :=
  TokenKind.eq_of_bare h.head nofun

theorem advance (h : c.Sees (l :: ks) k) : c.advance.Sees ks k := by
  obtain ⟨rest, h⟩ := h
  have hkinds : c.advance.kinds = ks ++ [k] ++ rest := by
    cases ks with
    | nil | cons m ks => exact kinds_advance h.symm
  exact ⟨rest, hkinds.symm⟩

theorem skip (h : c.Sees (ks ++ ls) k) : (c.skip ks.length).Sees ls k := by
  induction ks generalizing c with
  | nil => exact h
  | cons m ks ih => exact ih h.advance

/-- What stands behind a first part is the first token of the rest. -/
theorem before (h : c.Sees (ks ++ ls) k) : c.Sees ks (firstOr ls k) := by
  obtain ⟨rest, h⟩ := h
  cases ls with
  | nil => exact ⟨rest, by simpa using h⟩
  | cons l ls => exact ⟨ls ++ [k] ++ rest, by simpa using h⟩

theorem behind (h : c.Sees ks k) : (c.skip ks.length).Sees [] k :=
  skip (by rwa [append_nil])

end Sees

/-- The tokens of a text weigh no more than its characters and its end. -/
theorem weight_kinds_ofText (source : String) (line : Nat) :
    weight (ofText source line).kinds ≤ source.length + 1 := by
  have htokens := weight_tokens source line
  rw [kinds, ofText]
  split
  next => exact Nat.le_add_left _ _
  next hcons => rwa [hcons] at htokens

theorem weight_ofText {source : String} {line : Nat}
    (h : (ofText source line).kinds = ks ++ [.eof]) : weight ks ≤ source.length := by
  have hkinds := weight_kinds_ofText source line
  rw [h, weight_append] at hkinds
  have heof : weight [TokenKind.eof] = 1 := rfl
  omega

end Cursor

/-! ### Elementary readers -/

namespace Parse

variable {α β : Type} {c c' : Cursor} {k : TokenKind}

@[simp] theorem run_kind (c : Cursor) : kind.run c = .ok (c.current.kind, c) := rfl

@[simp] theorem run_line (c : Cursor) : line.run c = .ok (c.current.line, c) := rfl

@[simp] theorem run_advance (c : Cursor) : advance.run c = .ok ((), c.advance) := rfl

@[simp] theorem run_pure (a : α) (c : Cursor) : (pure a : Parse α).run c = .ok (a, c) := rfl

theorem run_bind_ok {x : Parse α} {f : α → Parse β} {a : α} (h : x.run c = .ok (a, c')) :
    (x >>= f).run c = (f a).run c' := by
  rw [StateT.run_bind, h]
  rfl

@[simp] theorem run_atMark (m : Mark) (c : Cursor) :
    (atMark m).run c = .ok (c.current.kind.isMark m, c) := rfl

@[simp] theorem run_atKeyword (k : Keyword) (c : Cursor) :
    (atKeyword k).run c = .ok (c.current.kind.isKeyword k, c) := rfl

theorem run_acceptMark (m : Mark) (c : Cursor) : (acceptMark m).run c =
    .ok (if c.current.kind.isMark m then (true, c.advance) else (false, c)) := by
  rw [acceptMark, run_bind_ok (run_atMark m c)]
  split <;> rfl

theorem run_acceptKeyword (k : Keyword) (c : Cursor) : (acceptKeyword k).run c =
    .ok (if c.current.kind.isKeyword k then (true, c.advance) else (false, c)) := by
  rw [acceptKeyword, run_bind_ok (run_atKeyword k c)]
  split <;> rfl

theorem run_acceptKeyword_not {m : Keyword} (h : c.current.kind.isKeyword m = false) :
    (acceptKeyword m).run c = .ok (false, c) := by
  rw [run_acceptKeyword, h]
  rfl

/-! ### Readers that take given tokens -/

variable {α β : Type} {x : Parse α} {f : α → Parse β} {g : Nat → Parse α} {a : α} {b : β}
  {ks ls : List TokenKind}
  {k l : TokenKind} {m : Mark} {w : Keyword}

/-- Where the tokens `ks` stand before one of kind `k`, the reader takes them and gives `a`. -/
def Takes (x : Parse α) (ks : List TokenKind) (a : α) (k : TokenKind) : Prop :=
  ∀ c : Cursor, c.Sees ks k → x.run c = .ok (a, c.skip ks.length)

namespace Takes

theorem bind (hx : x.Takes ks a (firstOr ls k)) (hf : (f a).Takes ls b k) :
    (x >>= f).Takes (ks ++ ls) b k := by
  intro c hc
  rw [run_bind_ok (hx c hc.before), hf _ hc.skip, Cursor.skip_append]

/-- A reader that takes nothing, and then another one. -/
theorem after (hx : x.Takes [] a (firstOr ls k)) (hf : (f a).Takes ls b k) :
    (x >>= f).Takes ls b k :=
  bind hx hf

/-- A reader that takes one token, and then another one. -/
theorem cons (hx : x.Takes [l] a (firstOr ls k)) (hf : (f a).Takes ls b k) :
    (x >>= f).Takes (l :: ls) b k :=
  bind hx hf

theorem whole (hx : x.Takes ks a k) (hf : (f a).Takes [] b k) : (x >>= f).Takes ks b k := by
  have hall := bind hx hf
  rwa [append_nil] at hall

theorem last (hx : x.Takes ks a k) (hf : f a = pure b) : (x >>= f).Takes ks b k :=
  whole hx fun c _ => by rw [hf]; rfl

theorem pure (a : α) (k : TokenKind) : (pure a : Parse α).Takes [] a k := fun _ _ => rfl

theorem advance (l k : TokenKind) : Parse.advance.Takes [l] () k := fun _ _ => rfl

theorem accept_mark (m : Mark) (k : TokenKind) : (acceptMark m).Takes [.mark m] true k :=
  fun _ hc => by
  rw [run_acceptMark, hc.mark, if_pos (by simp [TokenKind.isMark])]
  rfl

theorem accept_keyword (w : Keyword) (k : TokenKind) :
    (acceptKeyword w).Takes [.keyword w] true k := fun _ hc => by
  rw [run_acceptKeyword, hc.keyword, if_pos (by simp [TokenKind.isKeyword])]
  rfl

theorem no_mark (hk : k.isMark m = false) : (acceptMark m).Takes [] false k := fun c hc => by
  rw [run_acceptMark, ← TokenKind.isMark_bare, hc.here, hk]
  rfl

theorem no_keyword (hk : k.isKeyword w = false) : (acceptKeyword w).Takes [] false k := fun c hc =>
  run_acceptKeyword_not (by rw [← TokenKind.isKeyword_bare, hc.here, hk])

theorem expect_mark (m : Mark) (wanted : String) (k : TokenKind) :
    (expectMark m wanted).Takes [.mark m] () k :=
  .last (accept_mark m k) rfl

theorem expect_keyword (w : Keyword) (wanted : String) (k : TokenKind) :
    (expectKeyword w wanted).Takes [.keyword w] () k :=
  .last (accept_keyword w k) rfl

theorem at_mark (k : TokenKind) (m : Mark) : (atMark m).Takes [] (k.isMark m) k := fun c hc => by
  rw [run_atMark, ← TokenKind.isMark_bare, hc.here]
  rfl

theorem not_at (hk : k.isMark m = false) : (atMark m).Takes [] false k := hk ▸ at_mark k m

theorem line (hf : ∀ n, (g n).Takes ks a k) : (Parse.line >>= g).Takes ks a k := fun c hc => by
  rw [run_bind_ok (run_line c), hf _ c hc]

/-- A reader that looks at the kind of the first token, which is not an f-string. -/
theorem kind {f : TokenKind → Parse α} (hl : ∀ pieces, l ≠ .fstring pieces)
    (h : (f l).Takes (l :: ks) a k) : (Parse.kind >>= f).Takes (l :: ks) a k := fun c hc => by
  rw [run_bind_ok (run_kind c), TokenKind.eq_of_bare hc.head hl]
  exact h c hc

end Takes

end Parse

/-! ### The rules -/

namespace Level

def operands? : Level → Option Level
  | disjunction => some conjunction
  | conjunction => some negation
  | comparison => some sum
  | sum => some product
  | product => some sign
  | negation | sign | task | suffix => none

/-- The number of levels that bind at least as tightly. -/
def rank : Level → Nat
  | disjunction => 9
  | conjunction => 8
  | negation => 7
  | comparison => 6
  | sum => 5
  | product => 4
  | sign => 3
  | task => 2
  | suffix => 1

/-- A token of kind `k` does not go on with an expression at the level. -/
structure Ends (ℓ : Level) (k : TokenKind) : Prop where
  operators : ∀ ℓ' : Level, ℓ'.rank ≤ ℓ.rank → ℓ'.operator? k = none
  call : k.isMark .leftParen = false
  subscript : k.isMark .leftBracket = false

theorem Ends.tighter (h : ℓ.Ends k) (hle : ℓ'.rank ≤ ℓ.rank) : ℓ'.Ends k :=
  ⟨fun ℓ1 h1 => h.operators ℓ1 (Nat.le_trans h1 hle), h.call, h.subscript⟩

end Level

/-- What tokens can spell. -/
inductive ExprForm
  | expr (ℓ : Level) (e : Expr)
  /-- The operators of a level behind the first operand, and what they make of it. -/
  | chain (ℓ : Level) (left e : Expr)
  /-- The calls and subscripts behind an expression, and what they make of it. -/
  | suffixes (left e : Expr)
  | primary (e : Expr)
  /-- Expressions between commas. -/
  | items (es : List Expr)
  /-- The entries of a dict. -/
  | entries (es : List (Expr × Expr))
  | pieces (pieces : List FPiece) (parts : List FPart)

inductive Spells : ExprForm → List TokenKind → Prop
  | operation {ℓ tighter left e ks ls} : ℓ.operands? = some tighter →
    Spells (.expr tighter left) ks → Spells (.chain ℓ left e) ls → Spells (.expr ℓ e) (ks ++ ls)
  | not {e ks} : Spells (.expr .negation e) ks →
    Spells (.expr .negation (.not e)) (.keyword .kwNot :: ks)
  | comparison {e ks} : Spells (.expr .comparison e) ks → Spells (.expr .negation e) ks
  | leastInt : Spells (.expr .sign (.int leastInt)) [.mark .minus, .leastMagnitude]
  | neg {e ks} : Spells (.expr .sign e) ks → Spells (.expr .sign (.neg e)) (.mark .minus :: ks)
  | plus {e ks} : Spells (.expr .sign e) ks → Spells (.expr .sign e) (.mark .plus :: ks)
  | unsigned {e ks} : Spells (.expr .task e) ks → Spells (.expr .sign e) ks
  | await {e ks} : Spells (.expr .task e) ks →
    Spells (.expr .task (.await e)) (.keyword .kwAwait :: ks)
  | spawn {callee args ks} : Spells (.expr .suffix (.call callee args)) ks →
    Spells (.expr .task (.spawn callee args)) (.keyword .kwSpawn :: ks)
  | suffixed {e ks} : Spells (.expr .suffix e) ks → Spells (.expr .task e) ks
  | suffix {left e ks ls} : Spells (.primary left) ks → Spells (.suffixes left e) ls →
    Spells (.expr .suffix e) (ks ++ ls)
  | chainEnd {ℓ e} : Spells (.chain ℓ e e) []
  | chainLink {ℓ tighter left right e k op ks ls} : ℓ.operator? k = some op →
    ℓ.operands? = some tighter → Spells (.expr tighter right) ks →
    Spells (.chain ℓ (op left right) e) ls → Spells (.chain ℓ left e) (k :: (ks ++ ls))
  | suffixEnd {e} : Spells (.suffixes e e) []
  | callEmpty {left e ls} : Spells (.suffixes (.call left []) e) ls →
    Spells (.suffixes left e) (.mark .leftParen :: .mark .rightParen :: ls)
  | call {left args e ks ls} : Spells (.items args) ks →
    Spells (.suffixes (.call left args) e) ls →
    Spells (.suffixes left e) (.mark .leftParen :: (ks ++ .mark .rightParen :: ls))
  | index {left keys e ks ls} : Spells (.items keys) ks →
      Spells (.suffixes (.index left keys) e) ls →
    Spells (.suffixes left e) (.mark .leftBracket :: (ks ++ .mark .rightBracket :: ls))
  | literal {k e} : literal? k = some e → Spells (.primary e) [k]
  | fstring {pieces parts} : Spells (.pieces pieces parts) [] →
    Spells (.primary (.fstring parts)) [.fstring pieces]
  | parens {e ks} : Spells (.expr .disjunction e) ks →
    Spells (.primary e) (.mark .leftParen :: (ks ++ [.mark .rightParen]))
  | arrayEmpty : Spells (.primary (.array [])) [.mark .leftBracket, .mark .rightBracket]
  | array {items ks} : Spells (.items items) ks →
    Spells (.primary (.array items)) (.mark .leftBracket :: (ks ++ [.mark .rightBracket]))
  | dictEmpty : Spells (.primary (.dict [])) [.mark .leftBrace, .mark .rightBrace]
  | dict {entries ks} : Spells (.entries entries) ks →
    Spells (.primary (.dict entries)) (.mark .leftBrace :: (ks ++ [.mark .rightBrace]))
  | item {e ks} : Spells (.expr .disjunction e) ks → Spells (.items [e]) ks
  | itemsCons {e es ks ls} : Spells (.expr .disjunction e) ks → Spells (.items es) ls →
    Spells (.items (e :: es)) (ks ++ .mark .comma :: ls)
  | entry {key value ks ls} : Spells (.expr .disjunction key) ks →
    Spells (.expr .disjunction value) ls →
    Spells (.entries [(key, value)]) (ks ++ .mark .colon :: ls)
  | entriesCons {key value es ks ls ms} : Spells (.expr .disjunction key) ks →
    Spells (.expr .disjunction value) ls → Spells (.entries es) ms →
    Spells (.entries ((key, value) :: es)) (ks ++ .mark .colon :: (ls ++ .mark .comma :: ms))
  | piecesEnd : Spells (.pieces [] []) []
  | text {s pieces parts} : Spells (.pieces pieces parts) [] →
    Spells (.pieces (.text s :: pieces) (.text s :: parts)) []
  | code {source offset e pieces parts ks} : Text.isBlankText source = false →
    (∀ line, (Cursor.ofText source line).kinds = ks ++ [.eof]) →
    Spells (.expr .disjunction e) ks → Spells (.pieces pieces parts) [] →
    Spells (.pieces (.code source offset :: pieces) (.code e :: parts)) []

namespace Spells

variable {ℓ tighter : Level} {e : Expr} {ks : List TokenKind}

theorem lift (ht : ℓ.operands? = some tighter) (h : Spells (.expr tighter e) ks) :
    Spells (.expr ℓ e) ks := by
  have hlift := Spells.operation ht h .chainEnd
  rwa [append_nil] at hlift

theorem loosen (hle : ℓ.rank ≤ ℓ'.rank) (h : Spells (.expr ℓ e) ks) :
    Spells (.expr ℓ' e) ks := by
  have hnext : ∀ ℓ' : Level, ℓ' = .suffix ∨ ∃ ℓ : Level, ℓ'.rank = ℓ.rank + 1 ∧
      (Spells (.expr ℓ e) ks → Spells (.expr ℓ' e) ks) := by
    intro ℓ'
    cases ℓ' with
    | disjunction => exact .inr ⟨.conjunction, rfl, .lift rfl⟩
    | conjunction => exact .inr ⟨.negation, rfl, .lift rfl⟩
    | negation => exact .inr ⟨.comparison, rfl, .comparison⟩
    | comparison => exact .inr ⟨.sum, rfl, .lift rfl⟩
    | sum => exact .inr ⟨.product, rfl, .lift rfl⟩
    | product => exact .inr ⟨.sign, rfl, .lift rfl⟩
    | sign => exact .inr ⟨.task, rfl, .unsigned⟩
    | task => exact .inr ⟨.suffix, rfl, .suffixed⟩
    | suffix => exact .inl rfl
  obtain ⟨d, hd⟩ := Nat.exists_eq_add_of_le hle
  induction d generalizing ℓ' with
  | zero =>
    have hsame : ℓ = ℓ' := by cases ℓ <;> cases ℓ' <;> first | rfl | cases hd
    exact hsame ▸ h
  | succ d ih =>
    rcases hnext ℓ' with rfl | ⟨ℓ1, hrank, hlift⟩
    · have hpos : 1 ≤ ℓ.rank := by cases ℓ <;> decide
      have hone : Level.suffix.rank = 1 := rfl
      omega
    · exact hlift (ih (by omega) (by omega))

theorem of_primary (h : Spells (.primary e) ks) : Spells (.expr ℓ e) ks := by
  have hsuffix := Spells.suffix h .suffixEnd
  rw [append_nil] at hsuffix
  exact hsuffix.loosen (by cases ℓ <;> decide)

end Spells

/-! ### Reading -/

namespace ExprForm

/-- Enough fuel to read what the tokens spell. -/
def fuel : ExprForm → List TokenKind → Nat
  | expr ℓ _, ks => 16 * TaskBasic.weight ks + ℓ.rank
  | chain _ _ _, ks => 16 * TaskBasic.weight ks + 11
  | suffixes _ _, ks => 16 * TaskBasic.weight ks + 1
  | primary _, ks => 16 * TaskBasic.weight ks
  | items _, ks | entries _, ks => 16 * TaskBasic.weight ks + 10
  | pieces ps _, _ => 16 * piecesWeight ps + 1

/-- The parser takes the tokens `ks` before one of kind `k` for what the form says. -/
def Reads (fuel : Nat) (ks : List TokenKind) (k : TokenKind) : ExprForm → Prop
  | expr ℓ e => (parseExprAt fuel ℓ).Takes ks e k
  | chain ℓ left e => ∀ tighter, ℓ.operands? = some tighter →
      (parseChain fuel ℓ tighter left).Takes ks e k
  | suffixes left e => (parseSuffixes fuel left).Takes ks e k
  | primary e => (parsePrimary fuel).Takes ks e k
  | items es => ∀ done, (parseExprList fuel done).Takes ks (done.reverse ++ es) k
  | entries es => ∀ done, (parseEntries fuel done).Takes ks (done.reverse ++ es) k
  | pieces ps parts =>
    ∀ line done, (parseFParts fuel line done ps).Takes ks (done.reverse ++ parts) k

def Ends (k : TokenKind) : ExprForm → Prop
  | expr ℓ _ | chain ℓ _ _ => ℓ.Ends k
  | suffixes _ _ => Level.suffix.Ends k
  | primary _ | pieces _ _ => True
  | items _ | entries _ => Level.disjunction.Ends k ∧ k.isMark .comma = false

/-- The parser reads what the form says from the tokens `ks`, if it is given enough fuel and the
token behind cannot go on with it. -/
def Readable (φ : ExprForm) (ks : List TokenKind) : Prop :=
  ∀ ⦃fuel : Nat⦄, φ.fuel ks ≤ fuel → ∀ ⦃k : TokenKind⦄, φ.Ends k → φ.Reads fuel ks k

/-- The level whose expressions what the form speaks of begins like, if something has
to be there. -/
def first? : ExprForm → Option Level
  | expr ℓ _ => some ℓ
  | primary _ => some .suffix
  | items _ | entries _ => some .disjunction
  | _ => none

end ExprForm

theorem Level.ends_of_operator {tighter : Level} {op : Expr → Expr → Expr}
    (hk : ℓ.operator? k = some op) (ht : ℓ.operands? = some tighter) : tighter.Ends k := by
  rw [Level.operator?.eq_def] at hk
  split at hk <;> first
    | cases hk
      done
    | cases ht
      exact ⟨fun ℓ' h => by cases ℓ' <;> first | rfl | exact absurd h (by decide), rfl, rfl⟩

/-- Nothing goes on behind a separator or a closing bracket. -/
theorem Level.ends_of_mark (h : m ∈ [.comma, .colon, .rightParen, .rightBracket, .rightBrace])
    (ℓ : Level) : ℓ.Ends (.mark m) := by
  simp only [mem_cons, not_mem_nil, or_false] at h
  rcases h with rfl | rfl | rfl | rfl | rfl <;>
    exact ⟨fun ℓ' _ => by cases ℓ' <;> rfl, rfl, rfl⟩

theorem Level.rank_operands {tighter : Level} (h : ℓ.operands? = some tighter) :
    ℓ.rank = tighter.rank + 1 := by
  cases ℓ <;> cases h <;> rfl

/-- What begins behind the first operand does not go on with it. -/
theorem Spells.chain_ends {tighter : Level} {left e : Expr} {ls : List TokenKind}
    (h : Spells (.chain ℓ left e) ls) (ht : ℓ.operands? = some tighter) (hk : ℓ.Ends k) :
    tighter.Ends (firstOr ls k) := by
  cases h with
  | chainEnd => exact hk.tighter (by rw [Level.rank_operands ht]; exact Nat.le_succ _)
  | chainLink hop _ _ _ => exact Level.ends_of_operator hop ht

/-! ### First tokens -/

/-- True for the tokens that an expression at a level can begin with. -/
def TokenKind.begins (ℓ : Level) : TokenKind → Bool
  | .int _ | .float _ | .str _ | .fstring _ | .name _ => true
  | .keyword .kwTrue | .keyword .kwFalse | .keyword .kwNone => true
  | .mark .leftParen | .mark .leftBracket | .mark .leftBrace => true
  | .keyword .kwAwait | .keyword .kwSpawn => decide (2 ≤ ℓ.rank)
  | .mark .minus | .mark .plus => decide (3 ≤ ℓ.rank)
  | .keyword .kwNot => decide (7 ≤ ℓ.rank)
  | _ => false

theorem TokenKind.begins_mono (hle : ℓ.rank ≤ ℓ'.rank)
    (h : k.begins ℓ = true) : k.begins ℓ' = true := by
  unfold begins at h ⊢
  split at h <;> first | rfl | cases h | skip
  all_goals
    simp only [decide_eq_true_eq] at h ⊢
    omega

theorem TokenKind.begins_of_literal {e : Expr} (h : literal? k = some e) (ℓ : Level) :
    k.begins ℓ = true := by
  unfold literal? at h
  split at h <;> first | rfl | cases h

theorem Spells.begins (h : Spells φ ks) {ℓ : Level}
    (hℓ : φ.first? = some ℓ) : ∃ k ls, ks = k :: ls ∧ k.begins ℓ = true := by
  have htighter : ∀ {ks : List TokenKind} {ℓ : Level} (ms : List TokenKind) (ℓ' : Level),
      (∃ k ls, ks = k :: ls ∧ k.begins ℓ = true) → ℓ.rank ≤ ℓ'.rank →
      ∃ k ls, ks ++ ms = k :: ls ∧ k.begins ℓ' = true := by
    rintro _ ℓ ms ℓ' ⟨k, ls, rfl, hk⟩ hle
    exact ⟨k, ls ++ ms, rfl, TokenKind.begins_mono hle hk⟩
  induction h generalizing ℓ with
  | operation ht _ _ ih _ =>
    cases hℓ
    exact htighter _ _ (ih rfl) (by rw [Level.rank_operands ht]; exact Nat.le_succ _)
  | suffix _ _ ih _ =>
    cases hℓ
    exact htighter _ _ (ih rfl) (Nat.le_refl _)
  | itemsCons _ _ ih _ | entry _ _ ih _ | entriesCons _ _ _ ih _ _ =>
    cases hℓ
    exact htighter _ _ (ih rfl) (Nat.le_refl _)
  | comparison _ ih | unsigned _ ih | suffixed _ ih | item _ ih =>
    cases hℓ
    obtain ⟨k, ls, hks, hk⟩ := ih rfl
    exact ⟨k, ls, hks, TokenKind.begins_mono (by decide) hk⟩
  | literal hliteral => exact ⟨_, _, rfl, TokenKind.begins_of_literal hliteral ℓ⟩
  | not | leastInt | neg | plus | await | spawn | fstring | parens | arrayEmpty | array | dictEmpty
  | dict =>
    cases hℓ
    exact ⟨_, _, rfl, rfl⟩
  | chainEnd | chainLink | suffixEnd | callEmpty | call | index | piecesEnd | text | code =>
    cases hℓ

theorem Spells.weight_pos (h : Spells φ ks)
    (hℓ : φ.first? = some ℓ) : 1 ≤ weight ks := by
  obtain ⟨k, ls, rfl, -⟩ := h.begins hℓ
  exact Nat.le_trans k.one_le_weight (Nat.le_add_right _ _)

theorem TokenKind.isMark_eq_false (h : k ≠ .mark m) : k.isMark m = false := by
  cases k with
  | mark n => exact decide_eq_false fun hn => h (hn ▸ rfl)
  | _ => rfl

theorem TokenKind.isKeyword_eq_false {m : Keyword} (h : k ≠ .keyword m) :
    k.isKeyword m = false := by
  cases k with
  | keyword n => exact decide_eq_false fun hn => h (hn ▸ rfl)
  | _ => rfl

section

variable {φ : ExprForm} {ℓ : Level} {ks ls : List TokenKind} {k l : TokenKind} {m : Mark}
  {w : Keyword}

theorem Spells.first_ne (h : Spells φ ks) (hℓ : φ.first? = some ℓ) (hl : l.begins ℓ = false)
    (hks : ks <+: ls) : firstOr ls k ≠ l := by
  obtain ⟨l', ks, rfl, hl'⟩ := h.begins hℓ
  obtain ⟨rest, rfl⟩ := hks
  rintro rfl
  cases hl.symm.trans hl'

theorem Spells.no_mark (h : Spells φ ks) (hℓ : φ.first? = some ℓ)
    (hm : (TokenKind.mark m).begins ℓ = false) :
    (Parse.acceptMark m).Takes [] false (firstOr ks k) :=
  .no_mark (TokenKind.isMark_eq_false (h.first_ne hℓ hm prefix_rfl))

theorem Spells.no_keyword (h : Spells φ ks) (hℓ : φ.first? = some ℓ)
    (hw : (TokenKind.keyword w).begins ℓ = false) :
    (Parse.acceptKeyword w).Takes [] false (firstOr ks k) :=
  .no_keyword (TokenKind.isKeyword_eq_false (h.first_ne hℓ hw prefix_rfl))

theorem Spells.not_at (h : Spells φ ks) (hℓ : φ.first? = some ℓ)
    (hm : (TokenKind.mark m).begins ℓ = false) :
    (Parse.atMark m).Takes [] false (firstOr (ks ++ ls) k) :=
  .not_at (TokenKind.isMark_eq_false (h.first_ne hℓ hm (List.prefix_append _ _)))

end

theorem TokenKind.fstring_of_bare {pieces : List FPiece} (h : k.bare = .fstring pieces) :
    ∃ pieces', k = .fstring pieces' ∧ pieces'.map FPiece.bare = pieces := by
  cases k with
  | fstring pieces' => exact ⟨pieces', rfl, TokenKind.fstring.inj h⟩
  | _ => cases h

theorem Level.operator?_bare (ℓ : Level) (k : TokenKind) : ℓ.operator? k.bare = ℓ.operator? k := by
  cases k with
  | fstring pieces => cases ℓ <;> rfl
  | _ => rfl

/-- The places of the code in an f-string do not matter. -/
theorem parseFParts_bare (fuel line : Nat) (done : List FPart) (pieces : List FPiece) :
    parseFParts fuel line done (pieces.map FPiece.bare) = parseFParts fuel line done pieces := by
  induction pieces generalizing fuel done with
  | nil => rfl
  | cons piece pieces ih =>
    cases fuel with
    | zero => simp only [parseFParts]
    | succ fuel =>
      cases piece with
      | text s | code source offset => simp only [map_cons, FPiece.bare, parseFParts, ih]

/-! ### One lemma for each rule -/

section

open Parse
open ExprForm (Readable Reads expr suffixes primary)

variable {ℓ tighter : Level} {left right e : Expr} {es : List Expr} {entries : List (Expr × Expr)}
  {ks ls ms : List TokenKind}

theorem Level.parseExprAt_operands (ht : ℓ.operands? = some tighter) (f : Nat) :
    parseExprAt (f + 1) ℓ =
    (parseExprAt f tighter >>= fun left => parseChain f ℓ tighter left) := by
  cases ℓ <;> cases ht <;> rw [parseExprAt]

theorem readable_operation (ht : ℓ.operands? = some tighter)
    (hleft : Spells (.expr tighter left) ks)
    (hchain : Spells (.chain ℓ left e) ls) (ihleft : (expr tighter left).Readable ks)
    (ihchain : (ExprForm.chain ℓ left e).Readable ls) : (expr ℓ e).Readable (ks ++ ls) := by
  intro fuel hfuel k hk
  have hpos := hleft.weight_pos rfl
  have hrank := Level.rank_operands ht
  simp only [Readable, ExprForm.fuel, weight_append] at hfuel ihleft ihchain
  obtain _ | f := fuel
  · omega
  rw [Reads, Level.parseExprAt_operands ht]
  exact .bind (ihleft (by omega) (hchain.chain_ends ht hk)) (ihchain (by omega) hk tighter ht)

theorem readable_not (ih : (expr .negation e).Readable ks) :
    (expr .negation (.not e)).Readable (.keyword .kwNot :: ks) := by
  intro fuel hfuel k hk
  simp only [Readable, ExprForm.fuel, weight_cons, TokenKind.weight] at hfuel ih
  obtain _ | f := fuel
  · omega
  rw [Reads, parseExprAt]
  exact .cons (.accept_keyword _ _) (.last (ih (by omega) hk) rfl)

theorem readable_comparison (h : Spells (.expr .comparison e) ks)
    (ih : (expr .comparison e).Readable ks) : (expr .negation e).Readable ks := by
  intro fuel hfuel k hk
  simp only [Readable, ExprForm.fuel, Level.rank] at hfuel ih
  obtain _ | f := fuel
  · omega
  rw [Reads, parseExprAt]
  exact .after (h.no_keyword rfl rfl) (ih (by omega) (hk.tighter (by decide)))

theorem readable_leastInt :
    (expr .sign (.int leastInt)).Readable [.mark .minus, .leastMagnitude] := by
  intro fuel hfuel k hk
  simp only [ExprForm.fuel, Level.rank] at hfuel
  obtain _ | f := fuel
  · omega
  rw [Reads, parseExprAt]
  exact .cons (.accept_mark _ _) (.kind nofun (.last (.advance _ _) rfl))

theorem readable_neg (h : Spells (.expr .sign e) ks) (ih : (expr .sign e).Readable ks) :
    (expr .sign (.neg e)).Readable (.mark .minus :: ks) := by
  intro fuel hfuel k hk
  simp only [Readable, ExprForm.fuel, weight_cons, TokenKind.weight] at hfuel ih
  obtain _ | f := fuel
  · omega
  rw [Reads, parseExprAt]
  refine .cons (.accept_mark _ _) fun c hc => ?_
  rw [if_pos rfl, run_bind_ok (run_kind c)]
  split
  next hleast =>
    exact absurd (by rw [← hc.first, hleast]) (h.first_ne rfl rfl prefix_rfl)
  next =>
    rw [run_bind_ok (ih (by omega) hk c hc)]
    rfl

theorem readable_plus (ih : (expr .sign e).Readable ks) :
    (expr .sign e).Readable (.mark .plus :: ks) := by
  intro fuel hfuel k hk
  simp only [Readable, ExprForm.fuel, weight_cons, TokenKind.weight] at hfuel ih
  obtain _ | f := fuel
  · omega
  rw [Reads, parseExprAt]
  exact .after (.no_mark rfl) (.cons (.accept_mark _ _) (ih (by omega) hk))

theorem readable_unsigned (h : Spells (.expr .task e) ks) (ih : (expr .task e).Readable ks) :
    (expr .sign e).Readable ks := by
  intro fuel hfuel k hk
  simp only [Readable, ExprForm.fuel, Level.rank] at hfuel ih
  obtain _ | f := fuel
  · omega
  rw [Reads, parseExprAt]
  exact .after (h.no_mark rfl rfl)
    (.after (h.no_mark rfl rfl) (ih (by omega) (hk.tighter (by decide))))

theorem readable_await (ih : (expr .task e).Readable ks) :
    (expr .task (.await e)).Readable (.keyword .kwAwait :: ks) := by
  intro fuel hfuel k hk
  simp only [Readable, ExprForm.fuel, weight_cons, TokenKind.weight] at hfuel ih
  obtain _ | f := fuel
  · omega
  rw [Reads, parseExprAt]
  exact .cons (.accept_keyword _ _) (.last (ih (by omega) hk) rfl)

theorem readable_spawn (ih : (expr .suffix (.call left es)).Readable ks) :
    (expr .task (.spawn left es)).Readable (.keyword .kwSpawn :: ks) := by
  intro fuel hfuel k hk
  simp only [Readable, ExprForm.fuel, weight_cons, TokenKind.weight, Level.rank] at hfuel ih
  obtain _ | f := fuel
  · omega
  rw [Reads, parseExprAt]
  refine .after (.no_keyword rfl) (.cons (.accept_keyword _ _) (.line fun _ => ?_))
  exact .last (ih (by omega) (hk.tighter (by decide))) rfl

theorem readable_suffixed (h : Spells (.expr .suffix e) ks) (ih : (expr .suffix e).Readable ks) :
    (expr .task e).Readable ks := by
  intro fuel hfuel k hk
  simp only [Readable, ExprForm.fuel, Level.rank] at hfuel ih
  obtain _ | f := fuel
  · omega
  rw [Reads, parseExprAt]
  exact .after (h.no_keyword rfl rfl)
    (.after (h.no_keyword rfl rfl) (ih (by omega) (hk.tighter (by decide))))

theorem readable_suffix (h : Spells (.primary left) ks) (ihprimary : (primary left).Readable ks)
    (ihsuffixes : (suffixes left e).Readable ls) :
    (expr .suffix e).Readable (ks ++ ls) := by
  intro fuel hfuel k hk
  have hpos := h.weight_pos rfl
  simp only [Readable, ExprForm.fuel, weight_append, Level.rank] at hfuel ihprimary ihsuffixes
  obtain _ | f := fuel
  · omega
  rw [Reads, parseExprAt]
  exact .bind (ihprimary (by omega) trivial) (ihsuffixes (by omega) hk)

theorem readable_chainEnd : (ExprForm.chain ℓ e e).Readable [] := by
  intro fuel hfuel k hk tighter _ c hc
  simp only [ExprForm.fuel] at hfuel
  obtain _ | f := fuel
  · omega
  have hnone : ℓ.operator? c.current.kind = none := by
    rw [← Level.operator?_bare, hc.here]
    exact hk.operators ℓ (Nat.le_refl _)
  rw [parseChain, run_bind_ok (run_kind c), hnone]
  rfl

theorem readable_chainLink {k1 : TokenKind} {op : Expr → Expr → Expr}
    (hop : ℓ.operator? k1 = some op)
    (ht : ℓ.operands? = some tighter) (hchain : Spells (.chain ℓ (op left right) e) ls)
    (ihright : (expr tighter right).Readable ks)
    (ihchain : (ExprForm.chain ℓ (op left right) e).Readable ls) :
    (ExprForm.chain ℓ left e).Readable (k1 :: (ks ++ ls)) := by
  intro fuel hfuel k hk tighter' ht' c hc
  obtain rfl : tighter = tighter' := Option.some.inj (ht.symm.trans ht')
  have hweight := k1.one_le_weight
  have hrank := Level.rank_operands ht
  have hle : ℓ.rank ≤ 9 := by cases ℓ <;> decide
  simp only [Readable, ExprForm.fuel, weight_cons, weight_append] at hfuel ihright ihchain
  obtain _ | f := fuel
  · omega
  have hop : ℓ.operator? c.current.kind = some op := by rw [← Level.operator?_bare, hc.head, hop]
  rw [parseChain, run_bind_ok (run_kind c), hop]
  have hoperand := ihright (show _ ≤ f by omega) (hchain.chain_ends ht hk)
  exact Takes.cons (.advance k1 _) (.bind hoperand (ihchain (by omega) hk tighter ht)) c hc

theorem readable_suffixEnd : (suffixes e e).Readable [] := by
  intro fuel hfuel k hk
  simp only [ExprForm.fuel] at hfuel
  obtain _ | f := fuel
  · omega
  rw [Reads, parseSuffixes]
  exact .after (.no_mark hk.call) (.after (.no_mark hk.subscript) (.pure _ _))

theorem readable_callEmpty (ih : (suffixes (.call left []) e).Readable ls) :
    (suffixes left e).Readable (.mark .leftParen :: .mark .rightParen :: ls) := by
  intro fuel hfuel k hk
  simp only [Readable, ExprForm.fuel, weight_cons, TokenKind.weight] at hfuel ih
  obtain _ | f := fuel
  · omega
  rw [Reads, parseSuffixes]
  refine .cons (.accept_mark _ _) (.after (.at_mark _ _) (.after (.pure _ _) ?_))
  exact .cons (.expect_mark _ _ _) (ih (by omega) hk)

theorem readable_call (h : Spells (.items es) ks) (ihargs : (ExprForm.items es).Readable ks)
    (ih : (suffixes (.call left es) e).Readable ls) :
    (suffixes left e).Readable (.mark .leftParen :: (ks ++ .mark .rightParen :: ls)) := by
  intro fuel hfuel k hk
  simp only [Readable, ExprForm.fuel, weight_cons, weight_append, TokenKind.weight]
    at hfuel ihargs ih
  obtain _ | f := fuel
  · omega
  have hargs :=
    ihargs (show _ ≤ f by omega) ⟨Level.ends_of_mark (m := .rightParen) (by decide) _, rfl⟩ []
  rw [Reads, parseSuffixes]
  refine .cons (.accept_mark _ _) (.after (h.not_at rfl rfl) (.bind hargs ?_))
  exact .cons (.expect_mark _ _ _) (ih (by omega) hk)

theorem readable_index (ihkeys : (ExprForm.items es).Readable ks)
    (ih : (suffixes (.index left es) e).Readable ls) :
    (suffixes left e).Readable (.mark .leftBracket :: (ks ++ .mark .rightBracket :: ls)) := by
  intro fuel hfuel k hk
  simp only [Readable, ExprForm.fuel, weight_cons, weight_append, TokenKind.weight]
    at hfuel ihkeys ih
  obtain _ | f := fuel
  · omega
  have hkeys :=
    ihkeys (show _ ≤ f by omega) ⟨Level.ends_of_mark (m := .rightBracket) (by decide) _, rfl⟩ []
  rw [Reads, parseSuffixes]
  refine .after (.no_mark rfl) (.cons (.accept_mark _ _) (.bind hkeys ?_))
  exact .cons (.expect_mark _ _ _) (ih (by omega) hk)

theorem readable_literal {k1 : TokenKind} (h : literal? k1 = some e) :
    (primary e).Readable [k1] := by
  intro fuel hfuel k hk
  have hweight := k1.one_le_weight
  simp only [ExprForm.fuel, weight_cons] at hfuel
  obtain _ | f := fuel
  · omega
  have hstring : ∀ pieces, k1 ≠ .fstring pieces := by
    rintro _ rfl
    cases h
  rw [Reads, parsePrimary]
  refine .kind hstring ?_
  split <;> first
    | cases h
    | rw [h]
      exact .last (.advance _ _) rfl

theorem readable_fstring {pieces : List FPiece}
    (ih : (ExprForm.pieces pieces parts).Readable []) :
    (primary (.fstring parts)).Readable [.fstring pieces] := by
  intro fuel hfuel k _ c hc
  simp only [Readable, ExprForm.fuel, weight_cons, weight_nil, TokenKind.weight] at hfuel ih
  obtain _ | f := fuel
  · omega
  obtain ⟨pieces', hkind, hpieces⟩ := TokenKind.fstring_of_bare hc.head
  have hparts : (parseFParts f c.current.line [] pieces').run c.advance =
      .ok (parts, c.advance) := by
    rw [← parseFParts_bare, hpieces]
    exact ih (by omega) trivial c.current.line [] c.advance hc.advance
  rw [parsePrimary, run_bind_ok (run_kind c), hkind]
  show (line >>= _ : Parse Expr).run c = _
  rw [run_bind_ok (run_line c), run_bind_ok (run_advance c), run_bind_ok hparts]
  rfl

theorem readable_parens (ih : (expr .disjunction e).Readable ks) :
    (primary e).Readable (.mark .leftParen :: (ks ++ [.mark .rightParen])) := by
  intro fuel hfuel k hk
  simp only [Readable, ExprForm.fuel, weight_cons, weight_append, weight_nil,
    TokenKind.weight, Level.rank] at hfuel ih
  obtain _ | f := fuel
  · omega
  rw [Reads, parsePrimary]
  refine .kind (by rintro _ ⟨⟩)
    (.cons (.advance _ _) (.bind (ih (by omega) (Level.ends_of_mark (by decide) _)) ?_))
  exact .last (.expect_mark _ _ _) rfl

theorem readable_arrayEmpty :
    (primary (.array [])).Readable [.mark .leftBracket, .mark .rightBracket] := by
  intro fuel hfuel k hk
  simp only [ExprForm.fuel, weight_cons, TokenKind.weight] at hfuel
  obtain _ | f := fuel
  · omega
  rw [Reads, parsePrimary]
  refine .kind (by rintro _ ⟨⟩)
    (.cons (.advance _ _) (.after (.at_mark _ _) (.after (.pure _ _) ?_)))
  exact .last (.expect_mark _ _ _) rfl

theorem readable_array (h : Spells (.items es) ks) (ih : (ExprForm.items es).Readable ks) :
    (primary (.array es)).Readable (.mark .leftBracket :: (ks ++ [.mark .rightBracket])) := by
  intro fuel hfuel k hk
  simp only [Readable, ExprForm.fuel, weight_cons, weight_append, weight_nil,
    TokenKind.weight] at hfuel ih
  obtain _ | f := fuel
  · omega
  have hitems :=
    ih (show _ ≤ f by omega) ⟨Level.ends_of_mark (m := .rightBracket) (by decide) _, rfl⟩ []
  rw [Reads, parsePrimary]
  refine .kind (by rintro _ ⟨⟩) (.cons (.advance _ _) (.after (h.not_at rfl rfl) (.bind hitems ?_)))
  exact .last (.expect_mark _ _ _) rfl

theorem readable_dictEmpty :
    (primary (.dict [])).Readable [.mark .leftBrace, .mark .rightBrace] := by
  intro fuel hfuel k hk
  simp only [ExprForm.fuel, weight_cons, TokenKind.weight] at hfuel
  obtain _ | f := fuel
  · omega
  rw [Reads, parsePrimary]
  refine .kind (by rintro _ ⟨⟩)
    (.cons (.advance _ _) (.after (.at_mark _ _) (.after (.pure _ _) ?_)))
  exact .last (.expect_mark _ _ _) rfl

theorem readable_dict (h : Spells (.entries entries) ks)
    (ih : (ExprForm.entries entries).Readable ks) :
    (primary (.dict entries)).Readable (.mark .leftBrace :: (ks ++ [.mark .rightBrace])) := by
  intro fuel hfuel k hk
  simp only [Readable, ExprForm.fuel, weight_cons, weight_append, weight_nil,
    TokenKind.weight] at hfuel ih
  obtain _ | f := fuel
  · omega
  have hentries :=
    ih (show _ ≤ f by omega) ⟨Level.ends_of_mark (m := .rightBrace) (by decide) _, rfl⟩ []
  rw [Reads, parsePrimary]
  refine .kind (by rintro _ ⟨⟩)
    (.cons (.advance _ _) (.after (h.not_at rfl rfl) (.bind hentries ?_)))
  exact .last (.expect_mark _ _ _) rfl

theorem readable_item (ih : (expr .disjunction e).Readable ks) :
    (ExprForm.items [e]).Readable ks := by
  intro fuel hfuel k hk done
  simp only [Readable, ExprForm.fuel, Level.rank] at hfuel ih
  obtain _ | f := fuel
  · omega
  rw [parseExprList, ← reverse_cons]
  exact .whole (ih (by omega) hk.1) (.last (.no_mark hk.2) rfl)

theorem readable_itemsCons (ihe : (expr .disjunction e).Readable ks)
    (ihes : (ExprForm.items es).Readable ls) :
    (ExprForm.items (e :: es)).Readable (ks ++ .mark .comma :: ls) := by
  intro fuel hfuel k hk done
  simp only [Readable, ExprForm.fuel, Level.rank, weight_cons, weight_append,
    TokenKind.weight] at hfuel ihe ihes
  obtain _ | f := fuel
  · omega
  have hrest := ihes (show _ ≤ f by omega) hk (e :: done)
  rw [reverse_cons, append_assoc] at hrest
  rw [parseExprList]
  exact .bind (ihe (by omega) (Level.ends_of_mark (by decide) _)) (.cons (.accept_mark _ _) hrest)

theorem readable_entry (ihkey : (expr .disjunction left).Readable ks)
    (ihvalue : (expr .disjunction right).Readable ls) :
    (ExprForm.entries [(left, right)]).Readable (ks ++ .mark .colon :: ls) := by
  intro fuel hfuel k hk done
  simp only [Readable, ExprForm.fuel, Level.rank, weight_cons, weight_append,
    TokenKind.weight] at hfuel ihkey ihvalue
  obtain _ | f := fuel
  · omega
  rw [parseEntries, ← reverse_cons]
  refine .bind (ihkey (by omega) (Level.ends_of_mark (by decide) _)) (.cons (.expect_mark _ _ _) ?_)
  exact .whole (ihvalue (by omega) hk.1) (.last (.no_mark hk.2) rfl)

theorem readable_entriesCons (ihkey : (expr .disjunction left).Readable ks)
    (ihvalue : (expr .disjunction right).Readable ls)
    (ihes : (ExprForm.entries entries).Readable ms) :
    (ExprForm.entries ((left, right) :: entries)).Readable
      (ks ++ .mark .colon :: (ls ++ .mark .comma :: ms)) := by
  intro fuel hfuel k hk done
  simp only [Readable, ExprForm.fuel, Level.rank, weight_cons, weight_append,
    TokenKind.weight] at hfuel ihkey ihvalue ihes
  obtain _ | f := fuel
  · omega
  have hrest := ihes (show _ ≤ f by omega) hk ((left, right) :: done)
  rw [reverse_cons, append_assoc] at hrest
  rw [parseEntries]
  refine .bind (ihkey (by omega) (Level.ends_of_mark (by decide) _)) (.cons (.expect_mark _ _ _) ?_)
  exact .bind (ihvalue (by omega) (Level.ends_of_mark (by decide) _))
    (.cons (.accept_mark _ _) hrest)

theorem readable_piecesEnd : (ExprForm.pieces [] []).Readable [] := by
  intro fuel hfuel k _ line done
  simp only [ExprForm.fuel] at hfuel
  obtain _ | f := fuel
  · omega
  rw [parseFParts, append_nil]
  exact .pure _ _

theorem readable_text {pieces : List FPiece} (s : String)
    (ih : (ExprForm.pieces pieces parts).Readable []) :
    (ExprForm.pieces (.text s :: pieces) (.text s :: parts)).Readable [] := by
  intro fuel hfuel k hk line done
  simp only [Readable, ExprForm.fuel, piecesWeight_cons] at hfuel ih
  obtain _ | f := fuel
  · omega
  have hrest : Takes _ [] _ k := ih (show _ ≤ f by omega) hk line (.text s :: done)
  rw [reverse_cons, append_assoc] at hrest
  rw [parseFParts]
  exact hrest

theorem readable_code {source : String} {offset : Nat} {pieces : List FPiece}
    (hblank : Text.isBlankText source = false)
    (hkinds : ∀ line, (Cursor.ofText source line).kinds = ks ++ [.eof])
    (ihe : (expr .disjunction e).Readable ks)
    (ih : (ExprForm.pieces pieces parts).Readable []) :
    (ExprForm.pieces (.code source offset :: pieces) (.code e :: parts)).Readable [] := by
  intro fuel hfuel k hk line done c hc
  have hweight := Cursor.weight_ofText (hkinds line)
  simp only [Readable, ExprForm.fuel, piecesWeight_cons, Level.rank] at hfuel ihe ih
  obtain _ | f := fuel
  · omega
  have hsees : (Cursor.ofText source line).Sees ks .eof := ⟨[], by rw [hkinds, append_nil]⟩
  have he : parseExprAt f .disjunction (Cursor.ofText source line) =
      .ok (e, (Cursor.ofText source line).skip ks.length) :=
    ihe (by omega) ⟨fun ℓ' _ => by cases ℓ' <;> rfl, rfl, rfl⟩ _ hsees
  have heof : ((Cursor.ofText source line).skip ks.length).current.kind.isEof = true := by
    rw [← TokenKind.isEof_bare, hsees.behind.here]
    rfl
  have hrest := ih (show _ ≤ f by omega) hk line (.code e :: done) c hc
  rw [reverse_cons, append_assoc] at hrest
  simp only [parseFParts, hblank, he, heof]
  exact hrest

end

theorem Spells.read (h : Spells φ ks) : φ.Readable ks := by
  induction h with
  | operation ht hleft hchain ihleft ihchain =>
    exact readable_operation ht hleft hchain ihleft ihchain
  | not _ ih => exact readable_not ih
  | comparison h ih => exact readable_comparison h ih
  | leastInt => exact readable_leastInt
  | neg h ih => exact readable_neg h ih
  | plus _ ih => exact readable_plus ih
  | unsigned h ih => exact readable_unsigned h ih
  | await _ ih => exact readable_await ih
  | spawn _ ih => exact readable_spawn ih
  | suffixed h ih => exact readable_suffixed h ih
  | suffix h _ ihprimary ihsuffixes => exact readable_suffix h ihprimary ihsuffixes
  | chainEnd => exact readable_chainEnd
  | chainLink hop ht _ hchain ihright ihchain =>
    exact readable_chainLink hop ht hchain ihright ihchain
  | suffixEnd => exact readable_suffixEnd
  | callEmpty _ ih => exact readable_callEmpty ih
  | call h _ ihargs ih => exact readable_call h ihargs ih
  | index _ _ ihkeys ih => exact readable_index ihkeys ih
  | literal h => exact readable_literal h
  | fstring _ ih => exact readable_fstring ih
  | parens _ ih => exact readable_parens ih
  | arrayEmpty => exact readable_arrayEmpty
  | array h ih => exact readable_array h ih
  | dictEmpty => exact readable_dictEmpty
  | dict h ih => exact readable_dict h ih
  | item _ ih => exact readable_item ih
  | itemsCons _ _ ihe ihes => exact readable_itemsCons ihe ihes
  | entry _ _ ihkey ihvalue => exact readable_entry ihkey ihvalue
  | entriesCons _ _ _ ihkey ihvalue ihes => exact readable_entriesCons ihkey ihvalue ihes
  | piecesEnd => exact readable_piecesEnd
  | text _ ih => exact readable_text _ ih
  | code hblank hkinds _ _ ihe ih => exact readable_code hblank hkinds ihe ih

end TaskBasic
