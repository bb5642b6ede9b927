import TaskBasic.Proofs.Expr.Sound
import TaskBasic.Proofs.Stmt.Grammar
import TaskBasic.Proofs.Token.Tiling

/-
Texts in block form.

Kinds of tokens are written down, each with a text of its own, as a line; lines
are put together as statements and blocks.

* `writes_line` — the line of tokens that can be written.
* `StmtReady`, `BlockReady` — a statement or block has a block form, wherever it stands.
-/

namespace TaskBasic

open List

variable {k : TokenKind} {φ : ExprForm} {ks : List TokenKind} {pre : List Char}
  {o : Option (List Stmt)} {var : String}

/-! ### What can be written -/

def Available (k : TokenKind) : Prop := ∃ l, TextOf l k

/-- The tokens are as `P` says, and close the brackets that they open. -/
structure Closed (P : TokenKind → Prop) (ks : List TokenKind) : Prop where
  each : ∀ k ∈ ks, P k
  balanced : ∀ n, nestingBehind n ks = n

namespace Closed

variable {P : TokenKind → Prop} {ks ls : List TokenKind} {k : TokenKind}

theorem nil : Closed P [] := ⟨nofun, fun _ => rfl⟩

theorem append (h : Closed P ks) (h' : Closed P ls) : Closed P (ks ++ ls) where
  each := forall_mem_append.mpr ⟨h.each, h'.each⟩
  balanced n := by rw [nestingBehind_append, h.balanced, h'.balanced]

theorem cons (hk : P k) (hnest : ∀ n, Scanner.nestingAfter n k = n) (h : Closed P ks) :
    Closed P (k :: ks) where
  each := forall_mem_cons.mpr ⟨hk, h.each⟩
  balanced n := by
    show nestingBehind (Scanner.nestingAfter n k) ks = n
    rw [hnest, h.balanced]

/-- Tokens between brackets. -/
theorem between {l r : Mark} (hl : P (.mark l)) (hr : P (.mark r))
    (hopen : ∀ n, Scanner.nestingAfter n (.mark l) = n + 1)
    (hclose : ∀ n, Scanner.nestingAfter (n + 1) (.mark r) = n) (h : Closed P ks) :
    Closed P (.mark l :: (ks ++ [.mark r])) where
  each := forall_mem_cons.mpr
    ⟨hl, forall_mem_append.mpr ⟨h.each, forall_mem_singleton.mpr hr⟩⟩
  balanced n := by
    show nestingBehind (Scanner.nestingAfter n (.mark l)) (ks ++ [.mark r]) = n
    rw [nestingBehind_append, hopen, h.balanced]
    exact hclose n

end Closed

/-- The tokens can be written. -/
abbrev Ready := Closed Available

/-- The tokens are those that statements are made of. -/
abbrev Proper := Closed (·.isPlain = true)

/-- The word that a keyword is written with. -/
def Keyword.text (k : Keyword) : String :=
  ((Keyword.words.find? fun entry => entry.2 == k).map (·.1)).getD ""

theorem available_of_tokens (source : String) (hk : k.isPlain = true)
    (h : ∃ t ∈ tokens source 1, t.form = k) : Available k := by
  obtain ⟨t, ht, rfl⟩ := h
  exact tokens_textOf ht hk

theorem available_keyword {k : Keyword} (hk : k ≠ .kwEnd) : Available (.keyword k) := by
  have hany : (tokens k.text 1).any (fun t => t.kind.isKeyword k) = true := by
    cases k <;> first | exact absurd rfl hk | decide +kernel
  obtain ⟨t, ht, hkind⟩ := any_eq_true.mp hany
  refine available_of_tokens k.text ?_ ⟨t, ht, ?_⟩
  · cases k <;> first | rfl | exact absurd rfl hk
  · rw [Token.form, TokenKind.eq_keyword hkind]
    rfl

def markTexts : String := "( ) [ ] = ,"

theorem available_mark {m : Mark}
    (hm : m ∈ [.leftParen, .rightParen, .leftBracket, .rightBracket, .assign, .comma]) :
    Available (.mark m) := by
  have hall : ∀ m ∈ [Mark.leftParen, .rightParen, .leftBracket, .rightBracket, .assign, .comma],
      (tokens markTexts 1).any (fun t => t.kind.isMark m) = true := by decide +kernel
  obtain ⟨t, ht, hkind⟩ := any_eq_true.mp (hall m hm)
  refine available_of_tokens markTexts rfl ⟨t, ht, ?_⟩
  rw [Token.form, TokenKind.eq_mark hkind]
  rfl

namespace Closed

variable {ks ls : List TokenKind}

theorem keyword {w : Keyword} (hw : w ≠ .kwEnd) (h : Ready ks) : Ready (.keyword w :: ks) :=
  .cons (available_keyword hw) (fun _ => rfl) h

theorem single (w : Keyword) (hw : w ≠ .kwEnd) : Ready [.keyword w] :=
  .keyword hw .nil

theorem name {s : String} (hs : Available (.name s)) (h : Ready ks) : Ready (.name s :: ks) :=
  .cons hs (fun _ => rfl) h

end Closed

theorem Level.nestingAfter_operator {ℓ : Level} {op : Expr → Expr → Expr}
    (h : ℓ.operator? k = some op) (n : Nat) : Scanner.nestingAfter n k = n := by
  cases k with
  | mark m => cases m <;> first | rfl | (cases ℓ <;> cases h)
  | _ => rfl

def TokenKind.inExpr : TokenKind → Bool
  | .keyword w => w ∈ [.kwOr, .kwAnd, .kwNot, .kwAwait, .kwSpawn, .kwTrue, .kwFalse, .kwNone]
  | k => k.isPlain

theorem Level.inExpr_operator {ℓ : Level} {op : Expr → Expr → Expr} (h : ℓ.operator? k = some op) :
    k.inExpr = true := by
  cases k with
  | keyword w => cases w <;> first | rfl | (cases ℓ <;> cases h)
  | newline | eof | error => cases ℓ <;> cases h
  | _ => rfl

/-- The tokens of an expression close the brackets that they open. -/
theorem Spells.balanced (h : Spells φ ks) (n : Nat) : nestingBehind n ks = n := by
  have hcons (k : TokenKind) (ks : List TokenKind) (n : Nat) :
      nestingBehind n (k :: ks) = nestingBehind (Scanner.nestingAfter n k) ks := rfl
  induction h generalizing n with
  | operation _ _ _ ih ih1 | suffix _ _ ih ih1 => rw [nestingBehind_append, ih, ih1]
  | not _ ih | neg _ ih | plus _ ih | await _ ih | spawn _ ih
  | comparison _ ih | unsigned _ ih | suffixed _ ih | item _ ih | callEmpty _ ih => exact ih n
  | chainLink hop _ _ _ ih ih1 =>
    rw [hcons, Level.nestingAfter_operator hop, nestingBehind_append, ih, ih1]
  | call _ _ ih ih1 | index _ _ ih ih1 =>
    rw [hcons, nestingBehind_append, ih]
    exact ih1 n
  | @literal k e hk =>
    cases k with
    | mark m => cases hk
    | _ => rfl
  | parens _ ih | array _ ih | dict _ ih =>
    rw [hcons, nestingBehind_append, ih]
    rfl
  | itemsCons _ _ ih ih1 | entry _ _ ih ih1 =>
    rw [nestingBehind_append, ih]
    exact ih1 n
  | entriesCons _ _ _ ih ih1 ih2 =>
    rw [nestingBehind_append, ih, hcons, nestingBehind_append]
    show nestingBehind (nestingBehind n _) _ = n
    rw [ih1]
    exact ih2 n
  | _ => rfl

theorem Spells.inExpr (h : Spells φ ks) : ∀ k ∈ ks, k.inExpr = true := by
  have hcons {k : TokenKind} {ks : List TokenKind} (hk : k.inExpr = true)
      (h : ∀ l ∈ ks, l.inExpr = true) : ∀ l ∈ k :: ks, l.inExpr = true :=
    forall_mem_cons.mpr ⟨hk, h⟩
  have happend {ks ls : List TokenKind} (h : ∀ l ∈ ks, l.inExpr = true)
      (h' : ∀ l ∈ ls, l.inExpr = true) : ∀ l ∈ ks ++ ls, l.inExpr = true :=
    forall_mem_append.mpr ⟨h, h'⟩
  induction h with
  | operation _ _ _ ih ih1 | suffix _ _ ih ih1 => exact happend ih ih1
  | not _ ih | neg _ ih | plus _ ih | await _ ih | spawn _ ih => exact hcons rfl ih
  | comparison _ ih | unsigned _ ih | suffixed _ ih | item _ ih => exact ih
  | chainLink hop _ _ _ ih ih1 => exact hcons (Level.inExpr_operator hop) (happend ih ih1)
  | callEmpty _ ih => exact hcons rfl (hcons rfl ih)
  | call _ _ ih ih1 | index _ _ ih ih1 => exact hcons rfl (happend ih (hcons rfl ih1))
  | @literal k e hk =>
    refine hcons ?_ nofun
    cases k with
    | keyword w => cases w <;> first | rfl | cases hk
    | newline | eof | error => cases hk
    | _ => rfl
  | parens _ ih | array _ ih | dict _ ih => exact hcons rfl (happend ih (hcons rfl nofun))
  | itemsCons _ _ ih ih1 | entry _ _ ih ih1 => exact happend ih (hcons rfl ih1)
  | entriesCons _ _ _ ih ih1 ih2 => exact happend ih (hcons rfl (happend ih1 (hcons rfl ih2)))
  | leastInt | arrayEmpty | dictEmpty => exact hcons rfl (hcons rfl nofun)
  | fstring => exact hcons rfl nofun
  | chainEnd | suffixEnd | piecesEnd | text | code => exact nofun

/-- The tokens of an expression are those that statements are made of. -/
theorem Spells.plain (h : Spells φ ks) : ∀ k ∈ ks, k.isPlain = true := by
  intro k hk
  have hin := h.inExpr k hk
  cases k with
  | keyword w => cases w <;> first | rfl | cases hin
  | _ => exact hin

theorem Spells.proper (h : Spells φ ks) : Proper ks :=
  ⟨h.plain, h.balanced⟩

/-- What was read from tokens that can be written can be written. -/
theorem Proper.ready {ts : List Token} (h : Proper (ts.map Token.form))
    (hts : ∀ t ∈ ts, t.form.isPlain = true → Available t.form) : Ready (ts.map Token.form) where
  each k hk := by
    have hplain := h.each k hk
    obtain ⟨t, ht, rfl⟩ := mem_map.mp hk
    exact hts t ht hplain
  balanced := h.balanced

/-! ### Lines -/

/-- The place where a text begins. -/
def origin : Place := ⟨0, 1⟩

/-- Behind the text `pre`, the tokens of the text `cs` are as `L` says. -/
def Renders (pre cs : List Char) (L : String → List Token → Prop) : Prop :=
  ∀ source rest us, source.toList = pre ++ (cs ++ rest) →
    Tokenizes 0 (origin.afterAll (pre ++ cs)) rest us →
    ∃ ts, Tokenizes 0 (origin.afterAll pre) (cs ++ rest) (ts ++ us) ∧ L source ts

theorem Renders.append {cs ds : List Char} {L M : String → List Token → Prop}
    (h : Renders pre cs L) (h' : Renders (pre ++ cs) ds M) :
    Renders pre (cs ++ ds) fun source ts => ∃ us vs, ts = us ++ vs ∧ L source us ∧ M source vs := by
  intro source rest ws hsource hrest
  rw [append_assoc] at hsource
  rw [← append_assoc] at hrest
  obtain ⟨vs, hvs, hM⟩ := h' source rest ws (by rw [hsource, append_assoc]) hrest
  obtain ⟨us, hus, hL⟩ := h source (ds ++ rest) (vs ++ ws) hsource hvs
  refine ⟨us ++ vs, ?_, us, vs, rfl, hL, hM⟩
  rwa [append_assoc, append_assoc]

theorem Renders.mono {cs : List Char} {L M : String → List Token → Prop} (h : Renders pre cs L)
    (hLM : ∀ source ts, L source ts → M source ts) : Renders pre cs M := by
  intro source rest us hsource hrest
  obtain ⟨ts, hts, hL⟩ := h source rest us hsource hrest
  exact ⟨ts, hts, hLM source ts hL⟩

/-- Wherever it stands, a text can be written whose tokens are as `L` says of some value. -/
def Writes {α : Type} (L : α → String → List Token → Prop) : Prop :=
  ∀ pre, ∃ cs a, Renders pre cs (L a)

section Writes

variable {α β : Type} {L : α → String → List Token → Prop} {M : β → String → List Token → Prop}

theorem Writes.append (h : Writes L) (h' : Writes M) :
    Writes fun (p : α × β) source ts => ∃ us vs, ts = us ++ vs ∧ L p.1 source us ∧
    M p.2 source vs := by
  intro pre
  obtain ⟨cs, a, hcs⟩ := h pre
  obtain ⟨ds, b, hds⟩ := h' (pre ++ cs)
  exact ⟨cs ++ ds, (a, b), hcs.append hds⟩

theorem Writes.mono (h : Writes L) (hLM : ∀ a, ∃ b, ∀ source ts, L a source ts → M b source ts) :
    Writes M := by
  intro pre
  obtain ⟨cs, a, hcs⟩ := h pre
  obtain ⟨b, hb⟩ := hLM a
  exact ⟨cs, b, hcs.mono hb⟩

theorem writes_pair {N : α → β → String → List Token → Prop} :
    (Writes fun p : α × β => N p.1 p.2) ↔ ∀ pre, ∃ cs a b, Renders pre cs (N a b) := by
  simp only [Writes, Prod.exists]

end Writes

def IsLine (n : Nat) (ks : List TokenKind) (ts : List Token) : Prop :=
  ∃ us v, ts = us ++ [v] ∧ us.map Token.form = ks ∧ v.EndsLine ∧ ∀ u ∈ us.head?, u.line = n

/-- Texts of tokens with blanks between them. -/
theorem exists_spaced :
    ∀ (ks : List TokenKind) (n : Nat), (∀ k ∈ ks, Available k) → ∃ cs, ∀ p ds us,
    Delimited ds → Tokenizes (nestingBehind n ks) (p.afterAll cs) ds us →
      ∃ ts, Tokenizes n p (cs ++ ds) (ts ++ us) ∧ ts.map Token.form = ks ∧
      ∀ t ∈ ts.head?, t.line = p.line.toNat
  | [], n, _ => ⟨[], fun p ds us _ h => ⟨[], h, rfl, nofun⟩⟩
  | [k], n, h => by
    obtain ⟨l, hl⟩ := h k (mem_singleton_self k)
    refine ⟨l, fun p ds us hds hus => ?_⟩
    obtain ⟨t, ht, hline, -, -, htokens⟩ := (hl ds hds).tokenizes hus
    refine ⟨[t], htokens, congrArg (fun k => [k]) ht, ?_⟩
    rintro _ ⟨⟩
    exact hline
  | k :: k' :: ks, n, h => by
    obtain ⟨l, hl⟩ := h k mem_cons_self
    obtain ⟨cs, hcs⟩ := exists_spaced (k' :: ks) (Scanner.nestingAfter n k) fun k hk =>
      h k (mem_cons_of_mem _ hk)
    refine ⟨l ++ ' ' :: cs, fun p ds us hds hus => ?_⟩
    rw [Place.afterAll_append] at hus
    obtain ⟨ts, hts, hforms, -⟩ := hcs ((p.afterAll l).after ' ') ds us hds hus
    obtain ⟨t, ht, hline, -, -, htokens⟩ :=
      (hl (' ' :: (cs ++ ds)) (delimited_cons _ (by decide))).tokenizes hts.blank
    refine ⟨t :: ts, ?_, ?_, ?_⟩
    · rwa [append_assoc]
    · rw [map_cons, ht, hforms]
    · rintro _ ⟨⟩
      exact hline

/-- The line of tokens that can be written. -/
theorem writes_line (h : Ready ks) : Writes fun n _ ts => IsLine n ks ts := by
  intro pre
  obtain ⟨cs, hcs⟩ := exists_spaced ks 0 h.each
  refine ⟨cs ++ ['\n'], (origin.afterAll pre).line.toNat, fun source rest us _ hus => ?_⟩
  rw [← append_assoc, Place.afterAll_append, Place.afterAll_append] at hus
  have hnewline := Tokenizes.newline hus
  rw [← h.balanced 0] at hnewline
  obtain ⟨ts, hts, hforms, hline⟩ := hcs _ _ _ (delimited_cons rest (by decide)) hnewline
  refine ⟨ts ++ [(((origin.afterAll pre).afterAll cs).token ['\n'] .newline)], ?_, ts, _, rfl,
    hforms, rfl, hline⟩
  rw [append_assoc, append_assoc]
  exact hts

theorem writes_word (w : Keyword) (hw : w ≠ .kwEnd) :
    Writes fun n _ ts => IsLine n [.keyword w] ts :=
  writes_line (.single w hw)

namespace IsLine

variable {n : Nat} {k : TokenKind} {ks ls : List TokenKind} {ts : List Token}

theorem cons (h : IsLine n (k :: ks) ts) : ∃ t us v, ts = t :: (us ++ [v]) ∧ t.form = k ∧
    us.map Token.form = ks ∧ v.EndsLine ∧ t.line = n := by
  obtain ⟨us, v, rfl, hforms, hv, hline⟩ := h
  obtain ⟨t, us, rfl, ht, hus⟩ := map_eq_cons_iff.mp hforms
  exact ⟨t, us, v, rfl, ht, hus, hv, hline t rfl⟩

theorem one (h : IsLine n [k] ts) : ∃ t v, ts = [t, v] ∧ t.form = k ∧ v.EndsLine ∧ t.line = n := by
  obtain ⟨t, us, v, rfl, ht, hus, hv, hline⟩ := h.cons
  obtain rfl := map_eq_nil_iff.mp hus
  exact ⟨t, v, rfl, ht, hv, hline⟩

theorem two {l : TokenKind} (h : IsLine n [k, l] ts) :
    ∃ t u v, ts = [t, u, v] ∧ t.form = k ∧ u.form = l ∧ v.EndsLine ∧ t.line = n := by
  obtain ⟨t, us, v, rfl, ht, hus, hv, hline⟩ := h.cons
  obtain ⟨u, rfl, hu⟩ := map_eq_singleton_iff.mp hus
  exact ⟨t, u, v, rfl, ht, hu, hv, hline⟩

end IsLine

/-! ### Parts of a text -/

theorem Text.dropBytes_append (cs ds : List Char) :
    Text.dropBytes (bytesOf cs) (cs ++ ds) = ds := by
  induction cs with
  | nil => cases ds <;> simp [Text.dropBytes, bytesOf]
  | cons c cs ih =>
    have hpos := c.utf8Size_pos
    rw [bytesOf_cons, cons_append, Text.dropBytes, if_neg (by omega), Nat.add_sub_cancel_left, ih]

theorem Text.takeBytes_append (cs ds : List Char) :
    Text.takeBytes (bytesOf cs) (cs ++ ds) = cs := by
  induction cs with
  | nil => cases ds <;> simp [Text.takeBytes, bytesOf]
  | cons c cs ih =>
    have hpos := c.utf8Size_pos
    rw [bytesOf_cons, cons_append, Text.takeBytes, if_neg (by omega), Nat.add_sub_cancel_left, ih]

/-- The part of a text between the places before and behind it. -/
theorem slice_mid {source : String} {mid rest : List Char}
    (h : source.toList = pre ++ (mid ++ rest)) :
    Text.slice source (origin.afterAll pre).offset (origin.afterAll (pre ++ mid)).offset =
      String.ofList mid := by
  have hstart : (origin.afterAll pre).offset = bytesOf pre := by
    rw [Place.afterAll_eq]
    exact Nat.zero_add _
  have hlength : (origin.afterAll (pre ++ mid)).offset - bytesOf pre = bytesOf mid := by
    rw [Place.afterAll_append, Place.afterAll_eq, hstart]
    exact Nat.add_sub_cancel_left _ _
  rw [Text.slice, hstart, hlength, h, Text.dropBytes_append, Text.takeBytes_append]

/-! ### Statements and blocks -/

/-- The tokens lay out the form on lines of their own. -/
def LaidOut (φ φ' : StmtForm) (source : String) (ts : List Token) : Prop :=
  ∃ us n, ts = us ++ [n] ∧ n.EndsLine ∧ Lays source φ φ' us

/-- The statement has a block form, wherever it stands. -/
def StmtReady (s : Stmt) : Prop :=
  ∀ pre, ∃ cs s', Renders pre cs (LaidOut (.stmt s) (.stmt s'))

/-- The block has a block form, wherever it stands. -/
def BlockReady (ss : List Stmt) : Prop :=
  ∀ pre, ∃ cs ss', Renders pre cs fun source ts => Lays source (.block ss) (.block ss') ts

/-- The further branches of an `if` have a block form, wherever they stand. -/
def BranchesReady (bs : List (Expr × List Stmt)) (o : Option (List Stmt)) : Prop :=
  ∀ pre, ∃ cs bs' o', Renders pre cs (LaidOut (.branches bs o) (.branches bs' o'))

/-- The arms of a `switch` have a block form, wherever they stand. -/
def ArmsReady (arms : List (List Expr × List Stmt)) (o : Option (List Stmt)) : Prop :=
  ∀ pre, ∃ cs arms' o', Renders pre cs (LaidOut (.arms arms o) (.arms arms' o'))

section Statements

variable {line : Nat} {e : Expr} {body : List Stmt} {ks : List TokenKind}

theorem BlockReady.nil : BlockReady [] := fun pre =>
  ⟨[], [], fun source rest us _ h => ⟨[], by rwa [append_nil] at h, .nil⟩⟩

theorem BlockReady.cons {s : Stmt} {ss : List Stmt} (hs : StmtReady s) (hss : BlockReady ss) :
    BlockReady (s :: ss) := by
  refine (Writes.append hs hss).mono fun ⟨s', ss'⟩ => ⟨s' :: ss', fun source ts hts => ?_⟩
  obtain ⟨_, vs, rfl, ⟨us, n, rfl, hn, hlays⟩, hlays'⟩ := hts
  rw [append_assoc]
  exact .cons hlays hn hlays'

theorem BlockReady.append {α : Type} {M : α → String → List Token → Prop} {ss : List Stmt}
    (h : BlockReady ss) (h' : Writes M) : Writes fun (p : List Stmt × α) source ts =>
      ∃ us vs, ts = us ++ vs ∧ Lays source (.block ss) (.block p.1) us ∧ M p.2 source vs :=
  Writes.append h h'

theorem StmtReady.simple {kind : StmtKind} (h : SpellsSimple kind ks) (hks : Ready ks) :
    StmtReady (.mk line kind) := by
  obtain ⟨k, ls, rfl, -⟩ := h.begins
  refine (writes_line hks).mono fun n => ⟨.mk n kind, fun source ts hts => ?_⟩
  obtain ⟨t, us, v, rfl, rfl, rfl, hv, rfl⟩ := hts.cons
  exact ⟨t :: us, v, rfl, hv, .simple h⟩

theorem StmtReady.debug {mid : List Char} (he : Spells (.expr .disjunction e) ks)
    (hmid : Holds 0 mid ks) :
    StmtReady (.mk line (.debug e (Text.trim (String.ofList mid)))) := by
  intro pre
  obtain ⟨l, hl⟩ := available_keyword (k := .kwDebug) nofun
  refine
    ⟨l ++ ' ' :: (mid ++ ['\n']), .mk (origin.afterAll pre).line.toNat
      (.debug e (Text.trim (String.ofList mid))),
    fun source rest us hsource hus => ?_⟩
  -- the word, a blank, the text and the end of the line
  have hplace : origin.afterAll (pre ++ (l ++ ' ' :: (mid ++ ['\n']))) =
      (((((origin.afterAll pre).afterAll l).after ' ').afterAll mid).after '\n') := by
    rw [Place.afterAll_append, Place.afterAll_append]
    show (((origin.afterAll pre).afterAll l).after ' ').afterAll (mid ++ ['\n']) = _
    rw [Place.afterAll_append]
    rfl
  rw [hplace] at hus
  have hnewline := Tokenizes.newline hus
  rw [← he.balanced 0] at hnewline
  obtain ⟨ts, hts, hforms, hstart, hstop⟩ :=
    hmid.tokenizes _ _ _ (delimited_cons rest (by decide)) hnewline
  obtain ⟨t, ht, hline, -, -, htokens⟩ :=
    (hl (' ' :: (mid ++ '\n' :: rest)) (delimited_cons _ (by decide))).tokenizes hts.blank
  obtain ⟨k, ls, rfl, -⟩ := he.begins rfl
  have hne : ts ≠ [] := by
    rintro rfl
    cases hforms
  obtain ⟨xs, v, rfl⟩ : ∃ xs v, ts = xs ++ [v] :=
    ⟨ts.dropLast, ts.getLast hne, (List.dropLast_concat_getLast hne).symm⟩
  refine ⟨t :: (xs ++ [v]) ++
    [((((origin.afterAll pre).afterAll l).after ' ').afterAll mid).token ['\n'] .newline],
    by simpa using htokens, t :: (xs ++ [v]), _, rfl, rfl, ?_⟩
  have hslice : Text.slice source (leading xs v).start v.stop = String.ofList mid := by
    have hpre : source.toList = (pre ++ (l ++ [' '])) ++ (mid ++ '\n' :: rest) := by
      rw [hsource]
      simp
    have hbegin : (leading xs v).start = (origin.afterAll (pre ++ (l ++ [' ']))).offset := by
      rw [Place.afterAll_append, Place.afterAll_append]
      refine hstart _ ?_
      cases xs <;> rfl
    have hend : v.stop = (origin.afterAll (pre ++ (l ++ [' ']) ++ mid)).offset := by
      rw [Place.afterAll_append, Place.afterAll_append, Place.afterAll_append]
      exact hstop v (by simp)
    rw [hbegin, hend, slice_mid hpre]
  rw [← hslice, ← hline]
  exact .debug ht (by rw [SpelledBy, hforms]; exact he) rfl

theorem StmtReady.whileLoop (he : Spells (.expr .disjunction e) ks) (hks : Ready ks)
    (hbody : BlockReady body) : StmtReady (.mk line (.whileLoop e body)) := by
  have hhead := writes_line (hks.keyword (w := .kwWhile) nofun)
  refine (hhead.append (hbody.append (writes_word .kwWend nofun))).mono
    fun ⟨n, body', _⟩ => ⟨.mk n (.whileLoop e body'), fun source ts hts => ?_⟩
  obtain ⟨_, _, rfl, hline1, us, _, rfl, hlays, hline3⟩ := hts
  obtain ⟨t, ts, n, rfl, ht, rfl, hn, rfl⟩ := hline1.cons
  obtain ⟨u, m, rfl, hu, hm, -⟩ := hline3.one
  exact ⟨t :: (ts ++ n :: (us ++ [u])), m, by simp, hm, .whileLoop ht he hn hlays hu⟩

theorem StmtReady.ifChain {bs : List (Expr × List Stmt)} (he : Spells (.expr .disjunction e) ks)
    (hks : Ready ks) (hbody : BlockReady body) (hrest : BranchesReady bs o) :
    StmtReady (.mk line (.ifChain ((e, body) :: bs) o)) := by
  have hhead := writes_line ((hks.append (.single .kwThen nofun)).keyword (w := .kwIf) nofun)
  refine (hhead.append (hbody.append (writes_pair.mpr hrest))).mono
    fun ⟨n, body', bs', o'⟩ => ⟨.mk n (.ifChain ((e, body') :: bs') o'), fun source ts hts => ?_⟩
  obtain ⟨_, _, rfl, hline1, us, _, rfl, hlays, vs, m, rfl, hm, hlays'⟩ := hts
  obtain ⟨t, ts, n, rfl, ht, hts, hn, rfl⟩ := hline1.cons
  obtain ⟨ts, _, rfl, rfl, hthen⟩ := map_eq_append_iff.mp hts
  obtain ⟨u, rfl, hu⟩ := map_eq_singleton_iff.mp hthen
  exact ⟨t :: (ts ++ u :: n :: (us ++ vs)), m, by simp, hm, .ifChain ht he hu hn hlays hlays'⟩

theorem BranchesReady.elseIf {bs : List (Expr × List Stmt)}
    (he : Spells (.expr .disjunction e) ks) (hks : Ready ks) (hbody : BlockReady body)
    (hrest : BranchesReady bs o) : BranchesReady ((e, body) :: bs) o := by
  have hhead := writes_line ((hks.append (.single .kwThen nofun)).keyword (w := .kwElseIf) nofun)
  refine writes_pair.mp ((hhead.append (hbody.append (writes_pair.mpr hrest))).mono
    fun ⟨_, body', bs', o'⟩ => ⟨((e, body') :: bs', o'), fun source ts hts => ?_⟩)
  obtain ⟨_, _, rfl, hline1, us, _, rfl, hlays, vs, m, rfl, hm, hlays'⟩ := hts
  obtain ⟨t, ts, n, rfl, ht, hts, hn, -⟩ := hline1.cons
  obtain ⟨ts, _, rfl, rfl, hthen⟩ := map_eq_append_iff.mp hts
  obtain ⟨u, rfl, hu⟩ := map_eq_singleton_iff.mp hthen
  exact ⟨t :: (ts ++ u :: n :: (us ++ vs)), m, by simp, hm, .elseIf ht he hu hn hlays hlays'⟩

theorem BranchesReady.endIf : BranchesReady [] none := by
  refine writes_pair.mp ((writes_word .kwEndIf nofun).mono
    fun _ => ⟨([], none), fun source ts hts => ?_⟩)
  obtain ⟨t, m, rfl, ht, hm, -⟩ := hts.one
  exact ⟨[t], m, rfl, hm, .endIf ht⟩

theorem BranchesReady.otherwise (hbody : BlockReady body) : BranchesReady [] (some body) := by
  refine writes_pair.mp
    (((writes_word .kwElse nofun).append (hbody.append (writes_word .kwEndIf nofun))).mono
    fun ⟨_, body', _⟩ => ⟨([], some body'), fun source ts hts => ?_⟩)
  obtain ⟨_, _, rfl, hline1, us, _, rfl, hlays, hline3⟩ := hts
  obtain ⟨t, n, rfl, ht, hn, -⟩ := hline1.one
  obtain ⟨u, m, rfl, hu, hm, -⟩ := hline3.one
  exact ⟨t :: n :: (us ++ [u]), m, by simp, hm, .elseBranch ht hn hlays hu⟩

theorem StmtReady.countLoop {start stop : Expr} {step : Option Expr}
    {ks1 ks2 ks3 : List TokenKind} (hvar : Available (.name var))
    (hstart : Spells (.expr .disjunction start) ks1) (hks1 : Ready ks1)
    (hstop : Spells (.expr .disjunction stop) ks2) (hks2 : Ready ks2)
    (hstep : SpellsStep step ks3) (hks3 : Ready ks3) (hbody : BlockReady body) :
    StmtReady (.mk line (.countLoop var start stop step body)) := by
  have hassign : Available (.mark .assign) := available_mark (by decide)
  have hhead : Ready (.keyword .kwFor :: .name var :: .mark .assign ::
      (ks1 ++ .keyword .kwTo :: (ks2 ++ ks3))) :=
    .keyword nofun
      (.name hvar (.cons hassign (fun _ => rfl) (hks1.append (.keyword nofun (hks2.append hks3)))))
  have hnext := writes_line ((Closed.nil.name hvar).keyword (w := .kwNext) nofun)
  refine ((writes_line hhead).append (hbody.append hnext)).mono
    fun ⟨n, body', _⟩ => ⟨.mk n (.countLoop var start stop step body'), fun source ts hts => ?_⟩
  obtain ⟨_, _, rfl, hline1, vs, _, rfl, hlays, hline3⟩ := hts
  obtain ⟨t, ts, n, rfl, ht, hts, hn, rfl⟩ := hline1.cons
  obtain ⟨t1, _, rfl, ht1, hts⟩ := map_eq_cons_iff.mp hts
  obtain ⟨t2, _, rfl, ht2, hts⟩ := map_eq_cons_iff.mp hts
  obtain ⟨ts, _, rfl, rfl, hus⟩ := map_eq_append_iff.mp hts
  obtain ⟨t3, _, rfl, ht3, hus⟩ := map_eq_cons_iff.mp hus
  obtain ⟨us, ws, rfl, rfl, rfl⟩ := map_eq_append_iff.mp hus
  obtain ⟨u, u1, m, rfl, hu, hu1, hm, -⟩ := hline3.two
  exact ⟨t :: t1 :: t2 :: (ts ++ t3 :: (us ++ (ws ++ n :: (vs ++ [u, u1])))), m, by simp, hm,
    .countLoop ht ht1 ht2 hstart ht3 hstop hstep hn hlays hu hu1⟩

theorem StmtReady.eachLoop (hvar : Available (.name var)) (he : Spells (.expr .disjunction e) ks)
    (hks : Ready ks) (hbody : BlockReady body) : StmtReady (.mk line (.eachLoop var e body)) := by
  have hhead : Ready (.keyword .kwFor :: .keyword .kwEach :: .name var :: .keyword .kwIn :: ks) :=
    .keyword nofun (.keyword nofun (.name hvar (.keyword nofun hks)))
  have hnext := writes_line ((Closed.nil.name hvar).keyword (w := .kwNext) nofun)
  refine ((writes_line hhead).append (hbody.append hnext)).mono
    fun ⟨n, body', _⟩ => ⟨.mk n (.eachLoop var e body'), fun source ts hts => ?_⟩
  obtain ⟨_, _, rfl, hline1, us, _, rfl, hlays, hline3⟩ := hts
  obtain ⟨t, ts, n, rfl, ht, hts, hn, rfl⟩ := hline1.cons
  obtain ⟨t1, _, rfl, ht1, hts⟩ := map_eq_cons_iff.mp hts
  obtain ⟨t2, _, rfl, ht2, hts⟩ := map_eq_cons_iff.mp hts
  obtain ⟨t3, ts, rfl, ht3, rfl⟩ := map_eq_cons_iff.mp hts
  obtain ⟨u, u1, m, rfl, hu, hu1, hm, -⟩ := hline3.two
  exact ⟨t :: t1 :: t2 :: t3 :: (ts ++ n :: (us ++ [u, u1])), m, by simp, hm,
    .eachLoop ht ht1 ht2 ht3 he hn hlays hu hu1⟩

theorem Ready.flags (isAsync isNative : Bool) : Ready (flagKinds isAsync isNative) := by
  cases isAsync <;> cases isNative
  · exact .nil
  · exact Closed.nil.keyword nofun
  · exact Closed.nil.keyword nofun
  · exact (Closed.single .kwNative nofun).keyword nofun

theorem StmtReady.function {name : String} {params : List String} {isAsync isNative : Bool}
    (hhead : SpellsHead name params ks) (hks : Ready ks) (hbody : BlockReady body) :
    StmtReady (.mk line (.function name params isAsync isNative body)) := by
  refine ((writes_line ((Ready.flags isAsync isNative).append hks)).append
    (hbody.append (writes_word .kwEndFunction nofun))).mono
    fun ⟨l, body', _⟩ =>
      ⟨.mk l (.function name params isAsync isNative body'), fun source ts hts => ?_⟩
  obtain ⟨_, _, rfl, ⟨_, n, rfl, hforms, hn, hline⟩, us, _, rfl, hlays, hline3⟩ := hts
  obtain ⟨fs, hs, rfl, hfs, rfl⟩ := map_eq_append_iff.mp hforms
  obtain ⟨u, m, rfl, hu, hm, -⟩ := hline3.one
  obtain ⟨t, hs', rfl, -⟩ := hhead.begins
  obtain rfl : (leading fs (leading (t :: hs') n)).line = l := by
    cases fs with
    | nil => exact hline t rfl
    | cons f fs => exact hline f rfl
  exact ⟨fs ++ ((t :: hs') ++ n :: (us ++ [u])), m, by simp, hm, .function hfs hhead hn hlays hu⟩

theorem StmtReady.tryCatch {handler : List Stmt} (hvar : Available (.name var))
    (hbody : BlockReady body) (hhandler : BlockReady handler) :
    StmtReady (.mk line (.tryBlock body (some (var, handler)) none)) := by
  have hcatch := writes_line ((Closed.nil.name hvar).keyword (w := .kwCatch) nofun)
  refine ((writes_word .kwTry nofun).append (hbody.append (hcatch.append
    (hhandler.append (writes_word .kwEndTry nofun))))).mono
    fun ⟨n, body', _, handler', _⟩ =>
      ⟨.mk n (.tryBlock body' (some (var, handler')) none), fun source ts hts => ?_⟩
  obtain ⟨_, _, rfl, hline1, ts, _, rfl, hlays, _, _, rfl, hline3, us, _, rfl, hlays1, hline5⟩ :=
    hts
  obtain ⟨t, n, rfl, ht, hn, rfl⟩ := hline1.one
  obtain ⟨u, u1, n1, rfl, hu, hu1, hn1, -⟩ := hline3.two
  obtain ⟨v, m, rfl, hv, hm, -⟩ := hline5.one
  exact ⟨t :: n :: (ts ++ u :: u1 :: n1 :: (us ++ [v])), m, by simp, hm,
    .tryCatch ht hn hlays hu hu1 hn1 hlays1 hv⟩

theorem StmtReady.tryFinally {cleanup : List Stmt} (hbody : BlockReady body)
    (hcleanup : BlockReady cleanup) :
    StmtReady (.mk line (.tryBlock body none (some cleanup))) := by
  refine ((writes_word .kwTry nofun).append (hbody.append ((writes_word .kwFinally nofun).append
    (hcleanup.append (writes_word .kwEndTry nofun))))).mono
    fun ⟨n, body', _, cleanup', _⟩ =>
      ⟨.mk n (.tryBlock body' none (some cleanup')), fun source ts hts => ?_⟩
  obtain ⟨_, _, rfl, hline1, ts, _, rfl, hlays, _, _, rfl, hline3, us, _, rfl, hlays1, hline5⟩ :=
    hts
  obtain ⟨t, n, rfl, ht, hn, rfl⟩ := hline1.one
  obtain ⟨u, n1, rfl, hu, hn1, -⟩ := hline3.one
  obtain ⟨v, m, rfl, hv, hm, -⟩ := hline5.one
  exact ⟨t :: n :: (ts ++ u :: n1 :: (us ++ [v])), m, by simp, hm,
    .tryFinally ht hn hlays hu hn1 hlays1 hv⟩

theorem StmtReady.tryBoth {handler cleanup : List Stmt} (hvar : Available (.name var))
    (hbody : BlockReady body) (hhandler : BlockReady handler) (hcleanup : BlockReady cleanup) :
    StmtReady (.mk line (.tryBlock body (some (var, handler)) (some cleanup))) := by
  have hcatch := writes_line ((Closed.nil.name hvar).keyword (w := .kwCatch) nofun)
  have hfinally := (writes_word .kwFinally nofun).append
    (hcleanup.append (writes_word .kwEndTry nofun))
  refine ((writes_word .kwTry nofun).append (hbody.append (hcatch.append
    (hhandler.append hfinally)))).mono
    fun ⟨n, body', _, handler', _, cleanup', _⟩ =>
      ⟨.mk n (.tryBlock body' (some (var, handler')) (some cleanup')), fun source ts hts => ?_⟩
  obtain ⟨_, _, rfl, hline1, ts, _, rfl, hlays, _, _, rfl, hline3, us, _, rfl, hlays1, _, _, rfl,
    hline5, ws, _, rfl, hlays2, hline7⟩ := hts
  obtain ⟨t, n, rfl, ht, hn, rfl⟩ := hline1.one
  obtain ⟨u, u1, n1, rfl, hu, hu1, hn1, -⟩ := hline3.two
  obtain ⟨w, n2, rfl, hw, hn2, -⟩ := hline5.one
  obtain ⟨v, m, rfl, hv, hm, -⟩ := hline7.one
  exact ⟨t :: n :: (ts ++ u :: u1 :: n1 :: (us ++ w :: n2 :: (ws ++ [v]))), m, by simp, hm,
    .tryBoth ht hn hlays hu hu1 hn1 hlays1 hw hn2 hlays2 hv⟩

theorem StmtReady.switchBlock {arms : List (List Expr × List Stmt)}
    (he : Spells (.expr .disjunction e) ks) (hks : Ready ks) (harms : ArmsReady arms o) :
    StmtReady (.mk line (.switchBlock e arms o)) := by
  refine ((writes_line (hks.keyword (w := .kwSwitch) nofun)).append (writes_pair.mpr harms)).mono
    fun ⟨n, arms', o'⟩ => ⟨.mk n (.switchBlock e arms' o'), fun source ts hts => ?_⟩
  obtain ⟨_, _, rfl, hline1, us, m, rfl, hm, hlays⟩ := hts
  obtain ⟨t, ts, n, rfl, ht, rfl, hn, rfl⟩ := hline1.cons
  exact ⟨t :: (ts ++ n :: us), m, by simp, hm, .switchBlock ht he hn hlays⟩

theorem ArmsReady.endSwitch : ArmsReady [] none := by
  refine writes_pair.mp ((writes_word .kwEndSwitch nofun).mono
    fun _ => ⟨([], none), fun source ts hts => ?_⟩)
  obtain ⟨t, m, rfl, ht, hm, -⟩ := hts.one
  exact ⟨[t], m, rfl, hm, .endSwitch ht⟩

theorem ArmsReady.otherwise (hbody : BlockReady body) : ArmsReady [] (some body) := by
  refine writes_pair.mp
    (((writes_word .kwDefault nofun).append (hbody.append (writes_word .kwEndSwitch nofun))).mono
    fun ⟨_, body', _⟩ => ⟨([], some body'), fun source ts hts => ?_⟩)
  obtain ⟨_, _, rfl, hline1, us, _, rfl, hlays, hline3⟩ := hts
  obtain ⟨t, n, rfl, ht, hn, -⟩ := hline1.one
  obtain ⟨u, m, rfl, hu, hm, -⟩ := hline3.one
  exact ⟨t :: n :: (us ++ [u]), m, by simp, hm, .defaultArm ht hn hlays hu⟩

theorem ArmsReady.case {values : List Expr} {arms : List (List Expr × List Stmt)}
    (hvalues : Spells (.items values) ks) (hks : Ready ks) (hbody : BlockReady body)
    (hrest : ArmsReady arms o) : ArmsReady ((values, body) :: arms) o := by
  have hhead := writes_line (hks.keyword (w := .kwCase) nofun)
  refine writes_pair.mp ((hhead.append (hbody.append (writes_pair.mpr hrest))).mono
    fun ⟨_, body', arms', o'⟩ => ⟨((values, body') :: arms', o'), fun source ts hts => ?_⟩)
  obtain ⟨_, _, rfl, hline1, us, _, rfl, hlays, vs, m, rfl, hm, hlays'⟩ := hts
  obtain ⟨t, ts, n, rfl, ht, rfl, hn, -⟩ := hline1.cons
  exact ⟨t :: (ts ++ n :: (us ++ vs)), m, by simp, hm, .caseArm ht hvalues hn hlays hlays'⟩

end Statements

end TaskBasic
