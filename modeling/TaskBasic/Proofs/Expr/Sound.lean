import TaskBasic.Proofs.Token.Local
import TaskBasic.Proofs.Expr.Grammar

/-
What the parser has read.

`Parse.Gives x Q` says that whenever the reader `x` succeeds, the tokens that it has
passed over are as `Q` says.

* `readsSpelled` — expressions are spelled by the tokens they were read from.
-/

namespace TaskBasic

open List

theorem TokenKind.eq_mark {k : TokenKind} {m : Mark} (h : k.isMark m = true) : k = .mark m := by
  cases k <;> simp_all [isMark]

theorem TokenKind.eq_keyword {k : TokenKind} {w : Keyword} (h : k.isKeyword w = true) :
    k = .keyword w := by
  cases k <;> simp_all [isKeyword]

/-- The tokens from here on end with the end of the text, which is nowhere else. -/
def Cursor.Ended (c : Cursor) : Prop :=
  ∃ us t, c.current :: c.rest = us ++ [t] ∧ t.kind = .eof ∧ ∀ u ∈ us, u.kind.isEof = false

/-- From the place `c`, the place `c'` is behind the tokens `ts`. -/
structure Cursor.Goes (c : Cursor) (ts : List Token) (c' : Cursor) : Prop where
  tokens : c.current :: c.rest = ts ++ c'.current :: c'.rest
  source : c'.source = c.source
  ended : c'.Ended
  previous : c'.previous = ts.getLast?.getD c.previous

namespace Cursor.Goes

variable {c c' c'' : Cursor} {ts us : List Token}

theorem refl (h : c.Ended) : c.Goes [] c := ⟨rfl, rfl, h, rfl⟩

theorem trans (h : c.Goes ts c') (h' : c'.Goes us c'') : c.Goes (ts ++ us) c'' where
  tokens := by rw [h.tokens, h'.tokens, append_assoc]
  source := h'.source.trans h.source
  ended := h'.ended
  previous := by
    rw [h'.previous, h.previous, List.getLast?_append]
    cases us.getLast? <;> rfl

theorem advance (h : c.Ended) (hc : c.current.kind.isEof = false) :
    c.Goes [c.current] c.advance := by
  obtain ⟨us, t, htokens, ht, hus⟩ := h
  obtain ⟨source, previous, current, rest⟩ := c
  cases us with
  | nil =>
    obtain ⟨rfl, -⟩ := List.cons.inj htokens
    simp only at hc
    rw [ht] at hc
    cases hc
  | cons u us =>
    obtain ⟨rfl, rfl⟩ := List.cons.inj htokens
    have hrest : ∀ u ∈ us, u.kind.isEof = false := fun u hu => hus u (mem_cons_of_mem _ hu)
    cases us with
    | nil => exact ⟨rfl, rfl, ⟨[], t, rfl, ht, hrest⟩, rfl⟩
    | cons v us => exact ⟨rfl, rfl, ⟨v :: us, t, rfl, ht, hrest⟩, rfl⟩

end Cursor.Goes

namespace Cursor

theorem Ended.rest_nil {c : Cursor} (h : c.Ended) (hc : c.current.kind.isEof = true) :
    c.rest = [] := by
  obtain ⟨us, t, htokens, -, hus⟩ := h
  cases us with
  | nil => exact (List.cons.inj htokens).2
  | cons u us =>
    obtain ⟨rfl, -⟩ := List.cons.inj htokens
    rw [hus _ mem_cons_self] at hc
    cases hc

theorem tokens_ofText (source : String) (line : Nat) :
    (ofText source line).current :: (ofText source line).rest = tokens source line ∧
      (ofText source line).Ended := by
  obtain ⟨_, h⟩ := exists_cut source.toList 0
  obtain ⟨ts, hts, hcut, -⟩ := h ⟨0, .ofNat line⟩
  obtain ⟨us, t, rfl, ht, hus⟩ := hcut.ends
  have htokens : (ofText source line).current :: (ofText source line).rest = us ++ [t] := by
    rw [ofText, hts.tokens]
    cases us <;> rfl
  rw [hts.tokens]
  exact ⟨htokens, us, t, htokens, ht, hus⟩

theorem ended_ofText (source : String) (line : Nat) : (ofText source line).Ended :=
  (tokens_ofText source line).2

theorem kinds_ofText (source : String) (line line' : Nat) :
    (ofText source line).kinds = (ofText source line').kinds := by
  rw [kinds, kinds, (tokens_ofText source line).1, (tokens_ofText source line').1,
    tokens_forms source line line']

end Cursor

namespace Parse

variable {α β : Type} {x : Parse α} {f : α → Parse β} {Q Q' : α → List Token → Prop}
  {R : β → List Token → Prop}

/-- Whenever the reader succeeds where a token of the given kind stands, it has passed over tokens
as `Q` says. -/
def GivesAt (k : TokenKind) (x : Parse α) (Q : α → List Token → Prop) : Prop :=
  ∀ c a c', c.Ended → c.current.kind = k → x.run c = .ok (a, c') → ∃ ts, c.Goes ts c' ∧ Q a ts

/-- Whenever the reader succeeds, it has passed over tokens as `Q` says. -/
def Gives (x : Parse α) (Q : α → List Token → Prop) : Prop :=
  ∀ c a c', c.Ended → x.run c = .ok (a, c') → ∃ ts, c.Goes ts c' ∧ Q a ts

theorem run_bind_inv {c c'' : Cursor} {b : β} (h : (x >>= f).run c = .ok (b, c'')) :
    ∃ a c', x.run c = .ok (a, c') ∧ (f a).run c' = .ok (b, c'') := by
  rw [StateT.run_bind] at h
  cases hx : x.run c with
  | error e => rw [hx] at h; cases h
  | ok r =>
    obtain ⟨a, c'⟩ := r
    rw [hx] at h
    exact ⟨a, c', rfl, h⟩

namespace Gives

theorem here (h : x.Gives Q) (k : TokenKind) : x.GivesAt k Q :=
  fun c a c' hc _ hrun => h c a c' hc hrun

theorem mono (h : x.Gives Q) (hQ : ∀ a ts, Q a ts → Q' a ts) : x.Gives Q' := fun c a c' hc hrun =>
  let ⟨ts, hts, hq⟩ := h c a c' hc hrun
  ⟨ts, hts, hQ a ts hq⟩

theorem bind (hx : x.Gives Q) (hf : ∀ a ts, Q a ts → (f a).Gives fun b us => R b (ts ++ us)) :
    (x >>= f).Gives R := by
  intro c b c'' hc hrun
  obtain ⟨a, c', hx', hf'⟩ := run_bind_inv hrun
  obtain ⟨ts, hts, hq⟩ := hx c a c' hc hx'
  obtain ⟨us, hus, hr⟩ := hf a ts hq c' b c'' hts.ended hf'
  exact ⟨ts ++ us, hts.trans hus, hr⟩

theorem pure {a : α} (h : Q a []) : (pure a : Parse α).Gives Q := by
  intro c a' c' hc hrun
  cases hrun
  exact ⟨[], .refl hc, h⟩

theorem fail (line : Nat) (cause : SyntaxCause) : (Parse.fail line cause : Parse α).Gives Q := by
  intro c a c' _ hrun
  cases hrun

theorem unexpected (wanted : String) : (Parse.unexpected wanted : Parse α).Gives Q := by
  intro c a c' _ hrun
  cases hrun

theorem kind {g : TokenKind → Parse α} (h : ∀ k, (g k).GivesAt k Q) :
    (Parse.kind >>= g).Gives Q := by
  intro c a c' hc hrun
  rw [run_bind_ok (run_kind c)] at hrun
  exact h _ c a c' hc rfl hrun

theorem line {g : Nat → Parse α} (h : ∀ n, (g n).Gives Q) : (Parse.line >>= g).Gives Q := by
  intro c a c' hc hrun
  rw [run_bind_ok (run_line c)] at hrun
  exact h _ c a c' hc hrun

/-- What a reader gives that passes over a token of the kind `k` if it stands here. -/
def Accepted (k : TokenKind) (b : Bool) (ts : List Token) : Prop :=
  if b then ∃ t, ts = [t] ∧ t.form = k else ts = []

/-- A token that may stand here, which is known by its kind. -/
theorem accepted {b : Parse Bool} {k : TokenKind} {p : TokenKind → Bool}
    (hb : ∀ c, b.run c = .ok (if p c.current.kind then (true, c.advance) else (false, c)))
    (hp : ∀ l, p l = true → l = k) (hk : k.isEof = false) (hbare : k.bare = k) :
    b.Gives (Accepted k) := by
  intro c b c' hc hrun
  rw [hb] at hrun
  split at hrun <;> cases hrun
  next hkind =>
    have hkind := hp _ hkind
    exact ⟨[c.current], .advance hc (by rw [hkind, hk]), c.current, rfl,
      by rw [Token.form, hkind, hbare]⟩
  next => exact ⟨[], .refl hc, rfl⟩

theorem acceptMark (m : Mark) : (acceptMark m).Gives (Accepted (.mark m)) :=
  accepted (run_acceptMark m) (fun _ => TokenKind.eq_mark) rfl rfl

theorem acceptKeyword (w : Keyword) : (acceptKeyword w).Gives (Accepted (.keyword w)) :=
  accepted (run_acceptKeyword w) (fun _ => TokenKind.eq_keyword) rfl rfl

/-- A choice by a token that may stand here. -/
theorem choice {k : TokenKind} {x : Parse Bool} {y n : Parse α} (hx : x.Gives (Accepted k))
    (hy : y.Gives fun a us => ∀ t, t.form = k → Q a (t :: us)) (hn : n.Gives Q) :
    (x >>= fun b => if b then y else n).Gives Q := by
  refine .bind hx fun b ts hts => ?_
  cases b with
  | true =>
    obtain ⟨t, rfl, ht⟩ := hts
    exact hy.mono fun a us h => h t ht
  | false =>
    obtain rfl : ts = [] := hts
    exact hn

theorem expectMark (m : Mark) (wanted : String) : (expectMark m wanted).Gives fun _ ts =>
    ∃ t, ts = [t] ∧ t.form = .mark m :=
  .choice (.acceptMark _) (.pure fun t ht => ⟨t, rfl, ht⟩) (.unexpected wanted)

theorem expectKeyword (w : Keyword) (wanted : String) : (expectKeyword w wanted).Gives fun _ ts =>
    ∃ t, ts = [t] ∧ t.form = .keyword w :=
  .choice (.acceptKeyword _) (.pure fun t ht => ⟨t, rfl, ht⟩) (.unexpected wanted)

theorem atMark (m : Mark) : (Parse.atMark m).Gives fun _ ts => ts = [] := by
  intro c b c' hc hrun
  cases hrun
  exact ⟨[], .refl hc, rfl⟩

/-- A list, which may be empty, before the bracket that closes it. -/
theorem inBrackets {m : Mark} {wanted : String} {x : Parse (List α)}
    {S : List α → List Token → Prop}
    {g : List α → Parse β} (hx : x.Gives S) (hg : ∀ xs us u, (xs = [] ∧ us = [] ∨ S xs us) →
      u.form = .mark m → (g xs).Gives fun b vs => R b (us ++ u :: vs)) :
    (do
      let xs ← if ← Parse.atMark m then Pure.pure [] else x
      Parse.expectMark m wanted
      g xs).Gives R := by
  have hend (xs : List α) (us : List Token) (h : xs = [] ∧ us = [] ∨ S xs us) :
      (Parse.expectMark m wanted >>= fun _ => g xs).Gives fun b vs => R b (us ++ vs) := by
    refine .bind (.expectMark m wanted) fun _ vs hvs => ?_
    obtain ⟨u, rfl, hu⟩ := hvs
    exact hg xs us u h hu
  refine .bind (.atMark m) fun b ts hts => ?_
  subst hts
  cases b with
  | true => exact .bind (.pure ⟨rfl, rfl⟩) fun xs us h => hend xs us (.inl h)
  | false => exact .bind hx fun xs us h => hend xs us (.inr h)

end Gives

/-- The token that stands here is passed over. -/
theorem GivesAt.advance {k : TokenKind} {g : Unit → Parse α} (hk : k.isEof = false)
    (h : (g ()).Gives fun a us => ∀ t, t.form = k.bare → Q a (t :: us)) :
    (Parse.advance >>= g).GivesAt k Q := by
  intro c a c' hc hkind hrun
  rw [run_bind_ok (run_advance c)] at hrun
  have hgoes := Cursor.Goes.advance hc (by rw [hkind, hk])
  obtain ⟨us, hus, hq⟩ := h c.advance a c' hgoes.ended hrun
  exact ⟨c.current :: us, hgoes.trans hus, hq c.current (by rw [Token.form, hkind])⟩

theorem GivesAt.line {k : TokenKind} {g : Nat → Parse α} (h : ∀ n, (g n).GivesAt k Q) :
    (Parse.line >>= g).GivesAt k Q := by
  intro c a c' hc hkind hrun
  rw [run_bind_ok (run_line c)] at hrun
  exact h _ c a c' hc hkind hrun

end Parse

/-! ### Expressions -/

structure ReadsSpelled (fuel : Nat) : Prop where
  expr : ∀ ℓ, (parseExprAt fuel ℓ).Gives fun e ts => Spells (.expr ℓ e) (ts.map Token.form)
  chain : ∀ ℓ tighter left, ℓ.operands? = some tighter →
    (parseChain fuel ℓ tighter left).Gives fun e ts => Spells (.chain ℓ left e) (ts.map Token.form)
  suffixes : ∀ left,
    (parseSuffixes fuel left).Gives fun e ts => Spells (.suffixes left e) (ts.map Token.form)
  primary : (parsePrimary fuel).Gives fun e ts => Spells (.primary e) (ts.map Token.form)
  items : ∀ done, (parseExprList fuel done).Gives fun es ts =>
    ∃ more, es = done.reverse ++ more ∧ Spells (.items more) (ts.map Token.form)
  entries : ∀ done, (parseEntries fuel done).Gives fun es ts =>
    ∃ more, es = done.reverse ++ more ∧ Spells (.entries more) (ts.map Token.form)
  parts : ∀ line done pieces, (parseFParts fuel line done pieces).Gives fun parts ts =>
    ts = [] ∧ ∃ more, parts = done.reverse ++ more ∧
      Spells (.pieces (pieces.map FPiece.bare) more) []

open Parse

variable {fuel : Nat}

theorem ReadsSpelled.zero : ReadsSpelled 0 where
  expr _ := .line fun _ => .fail _ _
  chain _ _ _ _ := .line fun _ => .fail _ _
  suffixes _ := .line fun _ => .fail _ _
  primary := .line fun _ => .fail _ _
  items _ := .line fun _ => .fail _ _
  entries _ := .line fun _ => .fail _ _
  parts _ _ _ := .line fun _ => .fail _ _

namespace ReadsSpelled

theorem operation (h : ReadsSpelled fuel) {ℓ tighter : Level} (ht : ℓ.operands? = some tighter) :
    (parseExprAt fuel tighter >>= fun e => parseChain fuel ℓ tighter e).Gives fun e ts =>
      Spells (.expr ℓ e) (ts.map Token.form) := by
  refine .bind (h.expr tighter) fun left ts hleft =>
    (h.chain ℓ tighter left ht).mono fun e us he => ?_
  rw [map_append]
  exact .operation ht hleft he

theorem expr_succ (h : ReadsSpelled fuel) (ℓ : Level) :
    (parseExprAt (fuel + 1) ℓ).Gives fun e ts => Spells (.expr ℓ e) (ts.map Token.form) := by
  cases ℓ with
  | disjunction | conjunction | comparison | sum | product => exact h.operation rfl
  | negation =>
    refine .choice (.acceptKeyword _) ?_ ((h.expr .comparison).mono fun e ts he => .comparison he)
    refine .bind (h.expr .negation) fun e ts he => .pure fun t ht => ?_
    rw [append_nil, map_cons, ht]
    exact .not he
  | sign =>
    refine .choice (.acceptMark _) (.kind fun k => ?_) (.choice (.acceptMark _) ?_ ?_)
    · have hneg : (parseExprAt fuel .sign >>= fun e => pure (.neg e)).Gives fun e us => ∀ t,
          t.form = .mark .minus → Spells (.expr .sign e) ((t :: us).map Token.form) := by
        refine .bind (h.expr .sign) fun e ts he => .pure fun t ht => ?_
        rw [append_nil, map_cons, ht]
        exact .neg he
      cases k with
      | leastMagnitude =>
        refine .advance rfl (.pure fun u hu t ht => ?_)
        simp only [map_cons, map_nil, ht, hu]
        exact .leastInt
      | _ => exact hneg.here _
    · refine (h.expr .sign).mono fun e ts he t ht => ?_
      rw [map_cons, ht]
      exact .plus he
    · exact (h.expr .task).mono fun e ts he => .unsigned he
  | task =>
    refine .choice (.acceptKeyword _) ?_ (.choice (.acceptKeyword _) (.line fun _ => ?_) ?_)
    · refine .bind (h.expr .task) fun e ts he => .pure fun t ht => ?_
      rw [append_nil, map_cons, ht]
      exact .await he
    · refine .bind (h.expr .suffix) fun e ts he => ?_
      cases e with
      | call callee args =>
        refine .pure fun t ht => ?_
        rw [append_nil, map_cons, ht]
        exact .spawn he
      | _ => exact .fail _ _
    · exact (h.expr .suffix).mono fun e ts he => .suffixed he
  | suffix =>
    refine .bind h.primary fun left ts hleft => (h.suffixes left).mono fun e us he => ?_
    rw [map_append]
    exact .suffix hleft he

theorem chain_succ (h : ReadsSpelled fuel) {ℓ tighter : Level} (ht : ℓ.operands? = some tighter)
    (left : Expr) : (parseChain (fuel + 1) ℓ tighter left).Gives fun e ts =>
      Spells (.chain ℓ left e) (ts.map Token.form) := by
  refine .kind fun k => ?_
  cases hop : ℓ.operator? k with
  | none => exact (Gives.pure .chainEnd).here k
  | some op =>
    have hk : k.isEof = false := by
      cases k <;> first | rfl | (cases ℓ <;> cases hop)
    refine .advance hk (.bind (h.expr tighter) fun right ts hright => ?_)
    refine (h.chain ℓ tighter (op left right) ht).mono fun e us he t hform => ?_
    rw [map_cons, map_append]
    refine .chainLink ?_ ht hright he
    rw [hform, Level.operator?_bare, hop]

theorem suffixes_succ (h : ReadsSpelled fuel) (left : Expr) :
    (parseSuffixes (fuel + 1) left).Gives fun e ts => Spells (.suffixes left e)
      (ts.map Token.form) := by
  refine .choice (.acceptMark _) (.inBrackets (h.items []) fun args us u hargs hu => ?_)
    (.choice (.acceptMark _) ?_ (.pure .suffixEnd))
  · refine (h.suffixes (.call left args)).mono fun e vs he t ht => ?_
    simp only [map_cons, map_append, ht, hu]
    rcases hargs with ⟨rfl, rfl⟩ | ⟨more, rfl, hmore⟩
    · exact .callEmpty he
    · exact .call hmore he
  · refine .bind (h.items []) fun keys ts hkeys => ?_
    obtain ⟨more, rfl, hmore⟩ := hkeys
    refine .bind (.expectMark _ _) fun _ us hus => ?_
    obtain ⟨u, rfl, hu⟩ := hus
    refine (h.suffixes (.index left keys)).mono fun e us he t ht => ?_
    simp only [cons_append, nil_append, map_cons, map_append, ht, hu]
    exact .index hmore he

theorem items_succ (h : ReadsSpelled fuel) (done : List Expr) :
    (parseExprList (fuel + 1) done).Gives fun es ts =>
      ∃ more, es = done.reverse ++ more ∧ Spells (.items more) (ts.map Token.form) := by
  refine .bind (h.expr .disjunction) fun e ts he => .choice (.acceptMark _) ?_ ?_
  · refine (h.items (e :: done)).mono fun es us hes t ht => ?_
    obtain ⟨more, rfl, hmore⟩ := hes
    refine ⟨e :: more, by simp, ?_⟩
    simp only [map_append, map_cons, ht]
    exact .itemsCons he hmore
  · refine .pure ⟨[e], by simp, ?_⟩
    rw [append_nil]
    exact .item he

theorem entries_succ (h : ReadsSpelled fuel) (done : List (Expr × Expr)) :
    (parseEntries (fuel + 1) done).Gives fun es ts =>
      ∃ more, es = done.reverse ++ more ∧ Spells (.entries more) (ts.map Token.form) := by
  refine .bind (h.expr .disjunction) fun key ts hkey => .bind (.expectMark _ _) fun _ us hus => ?_
  obtain ⟨u, rfl, hu⟩ := hus
  refine .bind (h.expr .disjunction) fun value vs hvalue => .choice (.acceptMark _) ?_ ?_
  · refine (h.entries ((key, value) :: done)).mono fun es ws hes t ht => ?_
    obtain ⟨more, rfl, hmore⟩ := hes
    refine ⟨(key, value) :: more, by simp, ?_⟩
    simp only [map_append, map_cons, cons_append, nil_append, ht, hu]
    exact .entriesCons hkey hvalue hmore
  · refine .pure ⟨[(key, value)], by simp, ?_⟩
    simp only [map_append, map_cons, cons_append, nil_append, append_nil, hu]
    exact .entry hkey hvalue

theorem primary_succ (h : ReadsSpelled fuel) :
    (parsePrimary (fuel + 1)).Gives fun e ts => Spells (.primary e) (ts.map Token.form) := by
  refine .kind fun k => ?_
  have hliteral (k : TokenKind) (hk : ∀ pieces, k ≠ .fstring pieces) {x : Parse Expr}
      (hnone : literal? k = none → x = Parse.unexpected "an expression")
      (hsome : ∀ e, literal? k = some e → x = do
        Parse.advance
        return e) : x.GivesAt k fun e ts => Spells (.primary e) (ts.map Token.form) := by
    cases he : literal? k with
    | none =>
      rw [hnone he]
      exact (Gives.unexpected _).here k
    | some e =>
      rw [hsome e he]
      have hbare : k.bare = k := by cases k <;> first | rfl | exact absurd rfl (hk _)
      refine .advance (by cases k <;> first | rfl | cases he) (.pure fun t ht => ?_)
      rw [map_cons, ht, hbare]
      exact .literal he
  cases k with
  | leastMagnitude => exact .line fun _ => (Gives.fail _ _).here _
  | fstring pieces =>
    refine .line fun line =>
      .advance rfl (.bind (h.parts line [] pieces) fun parts ts hparts => .pure fun t ht => ?_)
    obtain ⟨rfl, more, rfl, hmore⟩ := hparts
    simp only [append_nil, map_cons, map_nil, ht]
    exact .fstring hmore
  | mark m =>
    cases m with
    | leftParen =>
      refine .advance rfl
        (.bind (h.expr .disjunction) fun e ts he => .bind (.expectMark _ _) fun _ us hus =>
          .pure fun t ht => ?_)
      obtain ⟨u, rfl, hu⟩ := hus
      simp only [append_nil, map_append, map_cons, map_nil, ht, hu]
      exact .parens he
    | leftBracket =>
      refine .advance rfl (.inBrackets (h.items []) fun items us u hitems hu =>
        .pure fun t ht => ?_)
      simp only [map_append, map_cons, map_nil, ht, hu]
      rcases hitems with ⟨rfl, rfl⟩ | ⟨more, rfl, hmore⟩
      · exact .arrayEmpty
      · exact .array hmore
    | leftBrace =>
      refine .advance rfl (.inBrackets (h.entries []) fun entries us u hentries hu =>
        .pure fun t ht => ?_)
      simp only [map_append, map_cons, map_nil, ht, hu]
      rcases hentries with ⟨rfl, rfl⟩ | ⟨more, rfl, hmore⟩
      · exact .dictEmpty
      · exact .dict hmore
    | _ =>
      exact hliteral _ (by rintro _ ⟨⟩) (fun h => by dsimp only; rw [h]) fun e h => by
        dsimp only
        rw [h]
  | _ =>
    exact hliteral _ (by rintro _ ⟨⟩) (fun h => by dsimp only; rw [h]) fun e h => by
      dsimp only
      rw [h]

theorem parts_succ (h : ReadsSpelled fuel) (line : Nat) (done : List FPart) (pieces : List FPiece) :
    (parseFParts (fuel + 1) line done pieces).Gives fun parts ts =>
      ts = [] ∧ ∃ more, parts = done.reverse ++ more ∧
      Spells (.pieces (pieces.map FPiece.bare) more) [] := by
  match pieces with
  | [] => exact .pure ⟨rfl, [], by simp, .piecesEnd⟩
  | .text s :: pieces =>
    refine (h.parts line (.text s :: done) pieces).mono fun parts ts hparts => ?_
    obtain ⟨hts, more, rfl, hmore⟩ := hparts
    exact ⟨hts, .text s :: more, by simp, .text hmore⟩
  | .code source offset :: pieces =>
    intro c parts c' hc hrun
    rw [parseFParts] at hrun
    cases hblank : Text.isBlankText source with
    | true =>
      rw [hblank] at hrun
      cases hrun
    | false =>
    rw [hblank] at hrun
    cases hexpr : parseExprAt fuel .disjunction (Cursor.ofText source line) with
    | error e =>
      simp only [hexpr] at hrun
      cases hrun
    | ok r =>
    obtain ⟨e, inner⟩ := r
    simp only [hexpr] at hrun
    obtain ⟨us, hus, he⟩ := h.expr .disjunction _ e inner (Cursor.ended_ofText source line) hexpr
    cases heof : inner.current.kind.isEof with
    | false =>
      simp only [heof] at hrun
      cases hrun
    | true =>
      simp only [heof] at hrun
      obtain ⟨ts, hts, rfl, more, rfl, hmore⟩ :=
        h.parts line (.code e :: done) pieces c parts c' hc hrun
      refine ⟨[], hts, rfl, .code e :: more, by simp, .code hblank (fun line' => ?_) he hmore⟩
      rw [Cursor.kinds_ofText source line' line, Cursor.kinds, hus.tokens, hus.ended.rest_nil heof]
      have hform : inner.current.form = .eof := by
        cases hk : inner.current.kind <;> rw [hk] at heof <;> first | (rw [Token.form, hk]; rfl) |
          cases heof
      simp [hform]

end ReadsSpelled

theorem readsSpelled (fuel : Nat) : ReadsSpelled fuel := by
  induction fuel with
  | zero => exact .zero
  | succ fuel ih =>
    exact ⟨ih.expr_succ, fun _ _ left ht => ih.chain_succ ht left, ih.suffixes_succ,
      ih.primary_succ, ih.items_succ, ih.entries_succ, ih.parts_succ⟩

end TaskBasic
