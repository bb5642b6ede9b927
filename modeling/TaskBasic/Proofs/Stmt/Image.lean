import TaskBasic.Proofs.Stmt.Render

/-
The programs that the parser reads.

Whatever the parser has read can be written down again in block form: the words,
names and literals of a program are among the tokens of the text it was read from,
and each of them has a text of its own.

* `Parse.Makes` — what a reader gives, wherever the cursor stands in a text.
* `Parse.makesReady` — every statement that is read has a block form.
* `Program.blockReady` — and so has every program.
-/

namespace TaskBasic

open List

variable {φ : ExprForm} {ks : List TokenKind} {m : Mark} {k : TokenKind} {e : Expr} {α : Type}

/-! ### Where the parser is -/

/-- The cursor stands in its text where no bracket is open. -/
def Cursor.Known (c : Cursor) : Prop :=
  ∃ pre cs, c.source.toList = pre ++ cs ∧ Cut 0 (origin.afterAll pre) cs (c.current :: c.rest)

namespace Cursor.Known

variable {c c' : Cursor} {ts : List Token}

theorem available (h : c.Known) :
    ∀ t ∈ c.current :: c.rest, t.form.isPlain = true → Available t.form := by
  obtain ⟨pre, cs, -, hcut⟩ := h
  exact hcut.textOf

theorem goes (h : c.Known) (hc : c.Goes ts c')
    (hts : ∀ n, nestingBehind n (ts.map Token.form) = n) : c'.Known := by
  obtain ⟨pre, cs, hsource, hcut⟩ := h
  rw [hc.tokens] at hcut
  obtain ⟨x, rest, rfl, hrest⟩ := hcut.behind (cons_ne_nil _ _)
  rw [hts, ← Place.afterAll_append] at hrest
  exact ⟨pre ++ x, rest, by rw [hc.source, hsource, append_assoc], hrest⟩

end Cursor.Known

namespace Parse

variable {α β : Type} {x y : Parse α} {f : α → Parse β} {P Q : α → Prop} {R : β → Prop}

/-- Whenever the reader succeeds where a token of the given kind stands, what it gives is as `Q`
says. -/
def MakesAt (k : TokenKind) (x : Parse α) (Q : α → Prop) : Prop :=
  ∀ c a c', c.Ended → c.Known → c.current.kind = k → x.run c = .ok (a, c') → c'.Ended ∧
    c'.Known ∧ Q a

/-- Whenever the reader succeeds, what it gives is as `Q` says. -/
def Makes (x : Parse α) (Q : α → Prop) : Prop :=
  ∀ c a c', c.Ended → c.Known → x.run c = .ok (a, c') → c'.Ended ∧ c'.Known ∧ Q a

/-- What is known of the tokens that a reader has passed over. -/
theorem Gives.makes {S : α → List Token → Prop} (h : x.Gives S)
    (hS : ∀ a ts, S a ts → (∀ n, nestingBehind n (ts.map Token.form) = n) ∧
      ((∀ t ∈ ts, t.form.isPlain = true → Available t.form) → Q a)) : x.Makes Q := by
  intro c a c' hended hknown hrun
  obtain ⟨ts, hgoes, hs⟩ := h c a c' hended hrun
  obtain ⟨hbalanced, hq⟩ := hS a ts hs
  refine ⟨hgoes.ended, hknown.goes hgoes hbalanced, hq fun t ht => hknown.available t ?_⟩
  rw [hgoes.tokens]
  exact mem_append_left _ ht

/-- What is spelled by tokens that statements are made of can be written. -/
theorem Gives.ready {P : α → List TokenKind → Prop}
    (h : x.Gives fun a ts => P a (ts.map Token.form)) (hP : ∀ a ks, P a ks → Proper ks) :
    x.Makes fun a => ∃ ks, P a ks ∧ Ready ks :=
  h.makes fun _ _ h => ⟨(hP _ _ h).balanced, fun hts => ⟨_, h, (hP _ _ h).ready hts⟩⟩

namespace Makes

theorem here (h : x.Makes Q) (k : TokenKind) : x.MakesAt k Q := fun c a c' hended hknown _ hrun =>
  h c a c' hended hknown hrun

theorem mono (h : x.Makes P) (hPQ : ∀ a, P a → Q a) : x.Makes Q := fun c a c' hended hknown hrun =>
  let ⟨hended', hknown', hp⟩ := h c a c' hended hknown hrun
  ⟨hended', hknown', hPQ a hp⟩

theorem bind (hx : x.Makes P) (hf : ∀ a, P a → (f a).Makes R) : (x >>= f).Makes R := by
  intro c b c'' hended hknown hrun
  obtain ⟨a, c', hx', hf'⟩ := run_bind_inv hrun
  obtain ⟨hended', hknown', hp⟩ := hx c a c' hended hknown hx'
  exact hf a hp c' b c'' hended' hknown' hf'

theorem pure {a : α} (h : Q a) : (pure a : Parse α).Makes Q := by
  intro c a' c' hended hknown hrun
  cases hrun
  exact ⟨hended, hknown, h⟩

theorem fail (line : Nat) (cause : SyntaxCause) : (Parse.fail line cause : Parse α).Makes Q := by
  intro c a c' _ _ hrun
  cases hrun

theorem unexpected (wanted : String) : (Parse.unexpected wanted : Parse α).Makes Q := by
  intro c a c' _ _ hrun
  cases hrun

theorem kind {g : TokenKind → Parse α} (h : ∀ k, (g k).MakesAt k Q) :
    (Parse.kind >>= g).Makes Q := by
  intro c a c' hended hknown hrun
  rw [run_bind_ok (run_kind c)] at hrun
  exact h _ c a c' hended hknown rfl hrun

theorem line {g : Nat → Parse α} (h : ∀ n, (g n).Makes Q) : (Parse.line >>= g).Makes Q := by
  intro c a c' hended hknown hrun
  rw [run_bind_ok (run_line c)] at hrun
  exact h _ c a c' hended hknown hrun

theorem map {g : α → β} (hx : x.Makes P) (h : ∀ a, P a → R (g a)) : (g <$> x).Makes R :=
  .bind hx fun a ha => .pure (h a ha)

/-- A choice that does not depend on what is chosen by. -/
theorem choose {b : Parse Bool} (hb : b.Makes fun _ => True) (hx : x.Makes Q)
    (hy : y.Makes Q) : (b >>= fun b => if b then x else y).Makes Q := by
  refine .bind hb fun b _ => ?_
  cases b with
  | true => exact hx
  | false => exact hy

/-- A token that may stand here and is no bracket. -/
theorem accepted {b : Parse Bool} (hb : b.Gives (Gives.Accepted k))
    (hk : ∀ n, Scanner.nestingAfter n k = n) : b.Makes fun _ => True := by
  refine hb.makes fun b ts hts => ⟨fun n => ?_, fun _ => trivial⟩
  cases b with
  | true =>
    obtain ⟨t, rfl, ht⟩ := hts
    rw [map_singleton, ht]
    exact hk n
  | false =>
    obtain rfl : ts = [] := hts
    rfl

theorem acceptKeyword (w : Keyword) : (Parse.acceptKeyword w).Makes fun _ => True :=
  accepted (Gives.acceptKeyword w) fun _ => rfl

theorem acceptMark (hm : ∀ n, Scanner.nestingAfter n (.mark m) = n) :
    (Parse.acceptMark m).Makes fun _ => True :=
  accepted (Gives.acceptMark m) hm

theorem expectKeyword (w : Keyword) (wanted : String) :
    (Parse.expectKeyword w wanted).Makes fun _ => True :=
  choose (acceptKeyword w) (.pure trivial) (.unexpected wanted)

theorem expectMark (hm : ∀ n, Scanner.nestingAfter n (.mark m) = n) (wanted : String) :
    (Parse.expectMark m wanted).Makes fun _ => True :=
  choose (acceptMark hm) (.pure trivial) (.unexpected wanted)

end Makes

/-- The token that stands here is passed over. -/
theorem MakesAt.step (hk : k.isEof = false) (hnest : ∀ n, Scanner.nestingAfter n k = n) :
    Parse.advance.MakesAt k fun _ => True := by
  intro c _ c' hended hknown hkind hrun
  have hgoes := Cursor.Goes.advance hended (by rw [hkind, hk])
  cases hrun
  refine ⟨hgoes.ended, hknown.goes hgoes fun n => ?_, trivial⟩
  show Scanner.nestingAfter n c.current.form = n
  rw [Token.form, hkind, Scanner.nestingAfter_bare, hnest]

theorem MakesAt.advance {g : Unit → Parse α} (hk : k.isEof = false)
    (hnest : ∀ n, Scanner.nestingAfter n k = n) (h : (g ()).Makes Q) :
    (Parse.advance >>= g).MakesAt k Q := by
  intro c a c' hended hknown hkind hrun
  obtain ⟨_, c'', hstep, hrun⟩ := run_bind_inv hrun
  obtain ⟨hended', hknown', -⟩ := MakesAt.step hk hnest c _ c'' hended hknown hkind hstep
  exact h c'' a c' hended' hknown' hrun

end Parse

/-! ### Shapes of expressions -/

/-- What an operator of two operands makes. -/
def Expr.isOperation : Expr → Bool
  | .or _ _ | .and _ _ | .binary _ _ _ => true
  | _ => false

theorem Level.isOperation_operator {ℓ : Level} {op : Expr → Expr → Expr}
    (h : ℓ.operator? k = some op) (l r : Expr) : (op l r).isOperation = true := by
  unfold Level.operator? at h
  split at h <;> cases h <;> rfl

theorem Spells.chain_eq {ℓ : Level} {left : Expr} (h : Spells (.chain ℓ left e) ks)
    (he : e.isOperation = false) : left = e := by
  generalize hφ : ExprForm.chain ℓ left e = φ at h
  induction h generalizing left with
  | chainEnd =>
    cases hφ
    rfl
  | chainLink hop _ _ _ _ ih =>
    cases hφ
    rw [← ih rfl, Level.isOperation_operator hop] at he
    cases he
  | _ => cases hφ

theorem Spells.suffixes_eq {left : Expr} (h : Spells (.suffixes left e) ks)
    (hcall : ∀ callee args, e ≠ .call callee args)
    (hindex : ∀ object keys, e ≠ .index object keys) : left = e := by
  generalize hφ : ExprForm.suffixes left e = φ at h
  induction h generalizing left with
  | suffixEnd =>
    cases hφ
    rfl
  | callEmpty _ ih | call _ _ _ ih =>
    cases hφ
    exact absurd (ih rfl).symm (hcall _ _)
  | index _ _ _ ih =>
    cases hφ
    exact absurd (ih rfl).symm (hindex _ _)
  | _ => cases hφ

/-- Variables, subscripts and spawned calls, which are made at the tightest levels. -/
def Expr.isTight : Expr → Bool
  | .var _ | .index _ _ | .spawn _ _ => true
  | _ => false

def SpellsCore : Expr → List TokenKind → Prop
  | .var name, ks => ks = [.name name]
  | .spawn callee args, ks => Spells (.expr .suffix (.call callee args)) ks
  | e, ks => Spells (.expr .suffix e) ks

def ExprForm.whole? : ExprForm → Option Expr
  | .expr _ e | .primary e => some e
  | _ => none

theorem Expr.isOperation_of_isTight (h : e.isTight = true) : e.isOperation = false := by
  cases e <;> first | rfl | cases h

theorem Spells.core (h : Spells φ ks) (hφ : φ.whole? = some e) (he : e.isTight = true) :
    ∃ ls, (∀ k ∈ ls, k ∈ ks) ∧ SpellsCore e ls := by
  induction h generalizing e with
  | @operation _ _ left e' _ _ _ _ hchain ih _ =>
    obtain rfl : e' = e := Option.some.inj hφ
    obtain rfl := hchain.chain_eq (Expr.isOperation_of_isTight he)
    obtain ⟨ls, hls, hcore⟩ := ih rfl he
    exact ⟨ls, fun k hk => mem_append_left _ (hls k hk), hcore⟩
  | comparison _ ih | unsigned _ ih | suffixed _ ih => exact ih hφ he
  | plus _ ih =>
    obtain ⟨ls, hls, hcore⟩ := ih hφ he
    exact ⟨ls, fun k hk => mem_cons_of_mem _ (hls k hk), hcore⟩
  | parens _ ih =>
    obtain ⟨ls, hls, hcore⟩ := ih hφ he
    exact ⟨ls, fun k hk => mem_cons_of_mem _ (mem_append_left _ (hls k hk)), hcore⟩
  | @suffix left e' ks ls h1 h2 ih _ =>
    obtain rfl : e' = e := Option.some.inj hφ
    cases e' with
    | spawn | var =>
      obtain rfl := h2.suffixes_eq nofun nofun
      obtain ⟨ms, hms, hcore⟩ := ih rfl he
      exact ⟨ms, fun k hk => mem_append_left _ (hms k hk), hcore⟩
    | index => exact ⟨_, fun k hk => hk, .suffix h1 h2⟩
    | _ => cases he
  | spawn h1 _ =>
    obtain rfl := Option.some.inj hφ
    exact ⟨_, fun k hk => mem_cons_of_mem _ hk, h1⟩
  | @literal k e' hk =>
    obtain rfl : e' = e := Option.some.inj hφ
    refine ⟨[k], fun k hk => hk, ?_⟩
    cases k with
    | name s =>
      cases hk
      rfl
    | keyword w => cases w <;> cases hk <;> cases he
    | _ => cases hk <;> cases he
  | not | neg | leastInt | await | fstring | arrayEmpty | array | dictEmpty | dict =>
    obtain rfl := Option.some.inj hφ
    cases he
  | _ => cases hφ

/-- The tokens of an expression can be written, and so can those of its core. -/
theorem Spells.core_ready (h : Spells φ ks) (hφ : φ.whole? = some e) (hks : Ready ks)
    (he : e.isTight = true) : ∃ ls, SpellsCore e ls ∧ Ready ls := by
  obtain ⟨ls, hls, hcore⟩ := h.core hφ he
  refine ⟨ls, hcore, fun k hk => hks.each k (hls k hk), ?_⟩
  cases e with
  | spawn | index => exact hcore.balanced
  | var name =>
    subst hcore
    exact fun _ => rfl
  | _ => cases he

/-! ### Statements of one line -/

theorem Closed.assign {ls : List TokenKind} (hks : Ready ks) (hls : Ready ls) :
    Ready (ks ++ .mark .assign :: ls) :=
  hks.append (.cons (available_mark (by decide)) (fun _ => rfl) hls)

theorem Closed.comma {ls : List TokenKind} (hks : Ready ks) (hls : Ready ls) :
    Ready (ks ++ .mark .comma :: ls) :=
  hks.append (.cons (available_mark (by decide)) (fun _ => rfl) hls)

namespace Parse

variable {fuel : Nat}

theorem makes_expr (fuel : Nat) : (parseExpr fuel).Makes fun e =>
    ∃ ks, Spells (.expr .disjunction e) ks ∧ Ready ks :=
  ((readsSpelled fuel).expr .disjunction).ready fun _ _ => Spells.proper

theorem makes_items (fuel : Nat) : (parseExprList fuel []).Makes fun es =>
    ∃ ks, Spells (.items es) ks ∧ Ready ks :=
  (((readsSpelled fuel).items []).mono fun _ _ ⟨_, hes, h⟩ => hes ▸ h).ready
    fun _ _ => Spells.proper

theorem target?_eq {t : Target} (h : e.target? = some t) : e = t.expr ∧ e.isTight = true := by
  cases e <;> cases h <;> exact ⟨rfl, rfl⟩

theorem gives_target (fuel : Nat) :
    (target fuel).Gives fun t ts => SpellsTarget t (ts.map Token.form) := by
  refine .line fun _ => .bind ((readsSpelled fuel).expr .suffix) fun e ts he => ?_
  cases ht : e.target? with
  | none => exact .fail _ _
  | some t =>
    refine .pure ?_
    rw [append_nil, SpellsTarget, ← (target?_eq ht).1]
    exact he

theorem makes_target (fuel : Nat) :
    (target fuel).Makes fun t => ∃ ks, SpellsTarget t ks ∧ Ready ks :=
  (gives_target fuel).ready fun _ _ => Spells.proper

theorem gives_name : expectName.Gives fun s ts => ∃ t, ts = [t] ∧ t.form = .name s := by
  refine .kind fun k => ?_
  cases k with
  | name s => exact .advance rfl (.pure fun t ht => ⟨t, rfl, ht⟩)
  | _ => exact (Gives.unexpected _).here _

theorem makes_name : expectName.Makes fun s => Available (.name s) := by
  refine gives_name.makes fun s ts hts => ?_
  obtain ⟨t, rfl, ht⟩ := hts
  refine ⟨fun n => by rw [map_singleton, ht]; rfl, fun hts => ?_⟩
  rw [← ht]
  exact hts t (mem_singleton_self t) (by rw [ht]; rfl)

/-- A loop that reads items up to the last comma gives items that the tokens spell. -/
theorem gives_list {P : α → List TokenKind → Prop} {loop : Nat → List α → Parse (List α)}
    {r : Nat → Parse α} (hzero : ∀ done, loop 0 done = line >>= fun n => Parse.fail n .tooDeep)
    (hloop : ∀ n done, loop (n + 1) done = r n >>= fun a =>
      acceptMark .comma >>= fun more => if more then loop n (a :: done) else pure
        (a :: done).reverse)
    (hone : ∀ n, (r n).Gives fun a ts => P a (ts.map Token.form)) (fuel : Nat) :
    (loop fuel []).Gives fun as ts => SpellsList P as (ts.map Token.form) := by
  suffices hgives : ∀ done, (loop fuel done).Gives fun as ts =>
      ∃ more, as = done.reverse ++ more ∧ SpellsList P more (ts.map Token.form) from
    (hgives []).mono fun _ _ ⟨_, has, h⟩ => has ▸ h
  intro done
  induction fuel generalizing done with
  | zero =>
    rw [hzero]
    exact .line fun _ => .fail _ _
  | succ fuel ih =>
    rw [hloop]
    refine .bind (hone fuel) fun a ts ha => .choice (.acceptMark _) ?_ ?_
    · refine (ih (a :: done)).mono fun as us has t ht => ?_
      obtain ⟨more, rfl, hmore⟩ := has
      refine ⟨a :: more, by simp, ?_⟩
      rw [map_append, map_cons, ht]
      exact .cons ha hmore
    · refine .pure ⟨[a], by simp, ?_⟩
      rw [append_nil]
      exact .one ha

theorem proper_list {P : α → List TokenKind → Prop} (hP : ∀ a ks, P a ks → Proper ks)
    {as : List α} (h : SpellsList P as ks) : Proper ks := by
  induction h with
  | one h => exact hP _ _ h
  | cons h _ ih => exact (hP _ _ h).append (.cons rfl (fun _ => rfl) ih)

theorem makes_targets (fuel : Nat) : (targets fuel []).Makes fun ts =>
    ∃ ks, SpellsList SpellsTarget ts ks ∧ Ready ks :=
  (gives_list (fun _ => rfl) (fun _ _ => rfl) gives_target fuel).ready fun _ _ =>
    proper_list fun _ _ => Spells.proper

theorem gives_names (fuel : Nat) : (names fuel []).Gives fun ss ts =>
    SpellsList SpellsName ss (ts.map Token.form) := by
  have hone (n : Nat) : expectName.Gives fun s ts => SpellsName s (ts.map Token.form) :=
    gives_name.mono fun s ts hts => by
      obtain ⟨t, rfl, ht⟩ := hts
      exact congrArg (fun k => [k]) ht
  exact gives_list (fun _ => rfl) (fun _ _ => rfl) hone fuel

theorem proper_names {ss : List String} (h : SpellsList SpellsName ss ks) : Proper ks :=
  proper_list (fun _ _ h => by cases h; exact .cons rfl (fun _ => rfl) .nil) h

theorem makes_names (fuel : Nat) : (names fuel []).Makes fun ss =>
    ∃ ks, SpellsList SpellsName ss ks ∧ Ready ks :=
  (gives_names fuel).ready fun _ _ => proper_names

/-- Both kinds of brackets may stand around the sizes of an array. -/
def SpellsSizes (a : String × List Expr) (ks : List TokenKind) : Prop :=
  ∃ ls, Spells (.items a.2) ls ∧
    (ks = .name a.1 :: .mark .leftBracket :: (ls ++ [.mark .rightBracket]) ∨
      ks = .name a.1 :: .mark .leftParen :: (ls ++ [.mark .rightParen]))

theorem gives_array (fuel : Nat) :
    (array fuel).Gives fun a ts => SpellsSizes a (ts.map Token.form) := by
  refine .bind gives_name fun s ts hts => ?_
  obtain ⟨t, rfl, ht⟩ := hts
  have hrest (m : Mark) (wanted : String) (l : TokenKind) (hm : l = .mark .leftBracket ∧
      m = .rightBracket ∨ l = .mark .leftParen ∧ m = .rightParen) :
      (parseExprList fuel [] >>= fun es => Parse.expectMark m wanted >>= fun _ =>
        pure (s, es)).Gives fun a us => ∀ u, u.form = l →
          SpellsSizes a ((t :: u :: us).map Token.form) := by
    refine .bind ((readsSpelled fuel).items []) fun es us hes =>
      .bind (.expectMark _ _) fun _ vs hvs => .pure fun u hu => ?_
    obtain ⟨_, rfl, hspells⟩ := hes
    obtain ⟨v, rfl, hv⟩ := hvs
    rcases hm with ⟨rfl, rfl⟩ | ⟨rfl, rfl⟩
    · exact ⟨_, hspells, .inl (by simp [ht, hu, hv])⟩
    · exact ⟨_, hspells, .inr (by simp [ht, hu, hv])⟩
  refine .choice (.acceptMark _) ?_ ?_
  · rw [pure_bind]
    exact hrest _ _ _ (.inl ⟨rfl, rfl⟩)
  · refine .bind (.expectMark _ _) fun _ us hus => ?_
    obtain ⟨u, rfl, hu⟩ := hus
    rw [pure_bind]
    exact (hrest _ _ _ (.inr ⟨rfl, rfl⟩)).mono fun a us h => h u hu

/-- The tokens of an array, whatever its brackets are. -/
theorem SpellsSizes.proper {a : String × List Expr} (h : SpellsSizes a ks) : Proper ks := by
  obtain ⟨ls, hls, rfl | rfl⟩ := h
  · exact .cons rfl (fun _ => rfl) (.between rfl rfl (fun _ => rfl) (fun _ => rfl) hls.proper)
  · exact .cons rfl (fun _ => rfl) (.between rfl rfl (fun _ => rfl) (fun _ => rfl) hls.proper)

/-- An array can be written with square brackets. -/
theorem SpellsSizes.array {a : String × List Expr} (h : SpellsSizes a ks)
    (hks : ∀ k ∈ ks, Available k) : ∃ ls, SpellsArray a ls ∧ Ready ls := by
  obtain ⟨ls, hls, hform⟩ := h
  have hmem : .name a.1 ∈ ks ∧ ∀ k ∈ ls, k ∈ ks := by
    rcases hform with rfl | rfl <;> simp +contextual
  refine ⟨_, ⟨ls, hls, rfl⟩, .name (hks _ hmem.1) (.between (available_mark (by decide))
    (available_mark (by decide)) (fun _ => rfl) (fun _ => rfl)
      ⟨fun k hk => hks k (hmem.2 k hk), hls.balanced⟩)⟩

theorem arrays_ready {as : List (String × List Expr)} (h : SpellsList SpellsSizes as ks)
    (hks : ∀ k ∈ ks, Available k) : ∃ ls, SpellsList SpellsArray as ls ∧ Ready ls := by
  induction h with
  | one h =>
    obtain ⟨ls, hls, hready⟩ := h.array hks
    exact ⟨ls, .one hls, hready⟩
  | cons h _ ih =>
    obtain ⟨hks, hks'⟩ := forall_mem_append.mp hks
    obtain ⟨ls, hls, hready⟩ := h.array hks
    obtain ⟨ms, hms, hready'⟩ := ih (forall_mem_cons.mp hks').2
    exact ⟨_, .cons hls hms, hready.comma hready'⟩

theorem makes_arrays (fuel : Nat) : (arrays fuel []).Makes fun as =>
    ∃ ks, SpellsList SpellsArray as ks ∧ Ready ks := by
  refine (gives_list (fun _ => rfl) arrays_succ gives_array fuel).makes fun as ts has => ?_
  have hproper := proper_list (fun _ _ h => h.proper) has
  exact ⟨hproper.balanced, fun hts => arrays_ready has (hproper.ready hts).each⟩

theorem SpellsHead.proper {name : String} {params : List String} (h : SpellsHead name params ks) :
    Proper ks := by
  cases h with
  | noParams => exact ⟨by simp [TokenKind.isPlain], fun _ => rfl⟩
  | params hparams =>
    exact .cons rfl (fun _ => rfl) (.cons rfl (fun _ => rfl)
      (.between rfl rfl (fun _ => rfl) (fun _ => rfl) (proper_names hparams)))

theorem makes_head (fuel : Nat) : (functionHead fuel).Makes fun head =>
    ∃ ks, SpellsHead head.1 head.2 ks ∧ Ready ks := by
  refine Gives.ready (.bind (.expectKeyword _ _) fun _ ts hts => .bind gives_name fun name us hus =>
    .bind (.expectMark _ _) fun _ vs hvs => .inBrackets (gives_names fuel)
      fun params xs w hparams hw => .pure ?_) fun _ _ => SpellsHead.proper
  obtain ⟨t, rfl, ht⟩ := hts
  obtain ⟨u, rfl, hu⟩ := hus
  obtain ⟨v, rfl, hv⟩ := hvs
  simp only [cons_append, nil_append, map_append, map_cons, map_nil, ht, hu, hv, hw]
  rcases hparams with ⟨rfl, rfl⟩ | hparams
  · exact .noParams
  · exact .params hparams

/-- A statement of the kind has a block form, on any line. -/
def KindReady (kind : StmtKind) : Prop := ∀ line, StmtReady (.mk line kind)

theorem KindReady.simple {kind : StmtKind} (h : SpellsSimple kind ks) (hks : Ready ks) :
    KindReady kind := fun _ => .simple h hks

theorem makes_declaration (fuel : Nat) : (declaration fuel).Makes KindReady := by
  refine .bind (makes_target fuel) fun t ⟨ks, ht, hks⟩ => .choose (.acceptMark fun _ => rfl) ?_ ?_
  · exact .bind (makes_expr fuel) fun e ⟨ls, he, hls⟩ =>
      .pure (.simple (.assign ht he) (.keyword nofun (.assign hks hls)))
  · cases t with
    | var name =>
      obtain ⟨_, rfl, hname⟩ := Spells.core_ready ht rfl hks rfl
      exact .pure (.simple .declare (.keyword nofun hname))
    | index object keys => exact .unexpected _

theorem makes_inputting (fuel : Nat) : (inputting fuel).Makes KindReady := by
  refine .bind (makes_target fuel) fun t ⟨ks, ht, hks⟩ => .choose (.acceptMark fun _ => rfl) ?_ ?_
  · exact .bind (makes_expr fuel) fun e ⟨ls, he, hls⟩ =>
      .pure (.simple (.inputPrompt ht he) (.keyword nofun (.comma hks hls)))
  · exact .pure (.simple (.input ht) (.keyword nofun hks))

theorem makes_spawning (fuel : Nat) : (spawning fuel).Makes KindReady := by
  refine .bind (makes_expr fuel) fun e ⟨ks, he, hks⟩ => ?_
  have heval (h : ∀ callee args, e ≠ .spawn callee args) :
      (pure (.eval e) : Parse StmtKind).Makes KindReady :=
    .pure (.simple (.eval he fun _ => h) hks)
  cases e with
  | spawn callee args =>
    obtain ⟨ls, hcore, hls⟩ := he.core_ready rfl hks rfl
    exact .pure (.simple (.spawn hcore) (.keyword nofun hls))
  | _ => exact heval nofun

theorem makes_atMark {Q : α → Prop} {x y : Parse α} (hx : x.MakesAt (.mark m) Q) (hy : y.Makes Q) :
    (atMark m >>= fun b => if b then x else y).Makes Q := by
  intro c a c' hended hknown hrun
  rw [run_bind_ok (run_atMark m c)] at hrun
  cases hm : c.current.kind.isMark m with
  | true =>
    rw [hm] at hrun
    exact hx c a c' hended hknown (TokenKind.eq_mark hm) hrun
  | false =>
    rw [hm] at hrun
    exact hy c a c' hended hknown hrun

/-- An expression or an assignment, which does not begin with `spawn`. -/
theorem makes_evaluation (fuel : Nat) (hk : k ≠ .keyword .kwSpawn) :
    (evaluation fuel).MakesAt k KindReady := by
  intro c kind c'' hended hknown hkind hrun
  obtain ⟨e, c', hexpr, hrest⟩ := run_bind_inv hrun
  obtain ⟨ts, hgoes, he⟩ := (readsSpelled fuel).expr .disjunction c e c' hended hexpr
  have hready :=
    he.proper.ready fun t ht =>
      hknown.available t (by rw [hgoes.tokens]; exact mem_append_left _ ht)
  have hhead : (ts.map Token.form).head? ≠ some (.keyword .kwSpawn) := by
    intro hhead
    cases ts with
    | nil => cases hhead
    | cons t ts =>
      obtain ⟨rfl, -⟩ := List.cons.inj hgoes.tokens
      exact hk (hkind ▸ TokenKind.eq_of_bare (Option.some.inj hhead) (by rintro _ ⟨⟩))
  refine (makes_atMark ?_ (.pure (.simple (.eval he fun h => absurd h hhead) hready))) c' kind c''
    hgoes.ended (hknown.goes hgoes he.balanced) hrest
  cases ht : e.target? with
  | none => exact (Makes.line fun _ => .fail _ _).here _
  | some t =>
    obtain ⟨htarget, htight⟩ := target?_eq ht
    obtain ⟨ks, hcore, hks⟩ := he.core_ready rfl hready htight
    have hspells : SpellsTarget t ks := by
      subst htarget
      cases t with
      | var name =>
        subst hcore
        exact .suffix (.literal rfl) .suffixEnd
      | index object keys => exact hcore
    refine .advance rfl (fun _ => rfl) (.bind (makes_expr fuel) fun e' he' => ?_)
    obtain ⟨ls, he', hls⟩ := he'
    refine .pure ?_
    exact .simple (.assign hspells he') (.keyword (by rintro ⟨⟩) (.assign hks hls))

theorem makes_debugging (fuel : Nat) : (debugging fuel).Makes KindReady := by
  intro c kind c'' hended hknown hrun
  have hget (c : Cursor) : (get : Parse Cursor).run c = .ok (c, c) := rfl
  rw [debugging, run_bind_ok (hget c)] at hrun
  obtain ⟨e, c', hexpr, hrest⟩ := run_bind_inv hrun
  rw [run_bind_ok (hget c')] at hrest
  obtain ⟨ts, hgoes, he⟩ := (readsSpelled fuel).expr .disjunction c e c' hended hexpr
  have hknown' := hknown.goes hgoes he.balanced
  obtain ⟨pre, cs, hsource, hcut⟩ := hknown
  obtain ⟨_, _, hks, -⟩ := he.begins rfl
  cases ts with
  | nil => cases hks
  | cons t ts =>
    rw [hgoes.tokens] at hcut
    obtain ⟨g, mid, rest, rfl, hstart, hstop, -, hholds⟩ :=
      hcut.holds fun u hu => he.plain _ (mem_map_of_mem hu)
    have htext : Text.slice c'.source c.current.start c'.previous.stop = String.ofList mid := by
      obtain ⟨hcurrent, -⟩ := List.cons.inj hgoes.tokens
      obtain ⟨v, hv⟩ : ∃ v, (t :: ts).getLast? = some v :=
        ⟨_, List.getLast?_eq_some_getLast (cons_ne_nil _ _)⟩
      have hprevious : c'.previous = v := by rw [hgoes.previous, hv]; rfl
      have hpre : c.source.toList = pre ++ g ++ (mid ++ rest) := by
        rw [hsource]
        simp
      have hslice := slice_mid hpre
      rw [append_assoc, Place.afterAll_append, Place.afterAll_append] at hslice
      rw [hgoes.source, hprevious, hcurrent, hstart, hstop v hv, hslice]
    rw [htext] at hrest
    cases hrest
    exact ⟨hgoes.ended, hknown', fun _ => .debug he hholds⟩

theorem makes_terminator : atTerminator.Makes fun _ => True := by
  intro c b c' hended hknown hrun
  have hc : c' = c := by
    rw [atTerminator, run_bind_ok (run_kind c)] at hrun
    split at hrun <;> cases hrun <;> rfl
  subst hc
  exact ⟨hended, hknown, trivial⟩

theorem makes_import : importPath.Makes KindReady := by
  have hgives : importPath.Gives fun kind ts => ∃ path t, kind = .importModule path ∧ ts = [t] ∧
      t.form = .str path := by
    refine .kind fun k => ?_
    cases k with
    | str path => exact .advance rfl (.pure fun t ht => ⟨path, t, rfl, rfl, ht⟩)
    | _ => exact (Gives.unexpected _).here _
  refine hgives.makes fun kind ts h => ?_
  obtain ⟨path, t, rfl, rfl, ht⟩ := h
  refine ⟨fun n => by rw [map_singleton, ht]; rfl, fun hts => ?_⟩
  have hpath : Available (.str path) := by
    rw [← ht]
    exact hts t (mem_singleton_self t) (by rw [ht]; rfl)
  exact .simple .importModule (.keyword nofun (.cons hpath (fun _ => rfl) .nil))

/-- Statements that hold no others. -/
theorem makes_simple (fuel : Nat) : (simple fuel).Makes KindReady := by
  refine .kind fun k => ?_
  have hword {w : Keyword} {g : Unit → Parse StmtKind} (h : (g ()).Makes KindReady) :
      (advance >>= g).MakesAt (.keyword w) KindReady := .advance rfl (fun _ => rfl) h
  cases k with
  | keyword w =>
    cases w with
    | kwLet => exact hword (makes_declaration fuel)
    | kwPrint =>
      refine hword (.choose makes_terminator ?_ ?_)
      · exact .pure (.simple .printEmpty (.keyword nofun .nil))
      · exact .bind (makes_items fuel) fun es ⟨ks, hes, hks⟩ =>
          .pure (.simple (.print hes) (.keyword nofun hks))
    | kwInput => exact hword (makes_inputting fuel)
    | kwReturn =>
      refine hword (.choose makes_terminator ?_ ?_)
      · exact .pure (.simple .retEmpty (.keyword nofun .nil))
      · exact .bind (makes_expr fuel) fun e ⟨ks, he, hks⟩ =>
          .pure (.simple (.ret he) (.keyword nofun hks))
    | kwDim =>
      exact hword (.bind (makes_arrays fuel) fun as ⟨ks, has, hks⟩ =>
        .pure (.simple (.dim has) (.keyword nofun hks)))
    | kwData =>
      exact hword (.bind (makes_items fuel) fun es ⟨ks, hes, hks⟩ =>
        .pure (.simple (.data hes) (.keyword nofun hks)))
    | kwRead =>
      exact hword (.bind (makes_targets fuel) fun ts ⟨ks, hts, hks⟩ =>
        .pure (.simple (.read hts) (.keyword nofun hks)))
    | kwRestore => exact hword (.pure (.simple .restore (.keyword nofun .nil)))
    | kwBreak => exact hword (.pure (.simple .breakLoop (.keyword nofun .nil)))
    | kwContinue => exact hword (.pure (.simple .continueLoop (.keyword nofun .nil)))
    | kwImport => exact hword makes_import
    | kwSpawn => exact (makes_spawning fuel).here _
    | kwGlobal =>
      exact hword (.bind (makes_names fuel) fun ss ⟨ks, hss, hks⟩ =>
        .pure (.simple (.global hss) (.keyword nofun hks)))
    | kwRaise =>
      exact hword
        (.bind (makes_expr fuel) fun e ⟨ks, he, hks⟩ =>
          .pure (.simple (.raise he) (.keyword nofun hks)))
    | kwDebug => exact hword (makes_debugging fuel)
    | _ => exact makes_evaluation fuel nofun
  | _ => exact makes_evaluation fuel nofun

/-! ### Between statements -/

theorem goes_pastSeparators (source : String) (rest : List Token) :
    ∀ (c : Cursor) (previous current : Token),
    c.source = source → Cursor.Ended ⟨source, previous, current, rest⟩ →
    ∃ ts, Cursor.Goes ⟨source, previous, current, rest⟩ ts
      (c.pastSeparators previous current rest) ∧ ∀ n, nestingBehind n (ts.map Token.form) = n := by
  induction rest with
  | nil =>
    rintro ⟨_, _, _, _⟩ previous current rfl hended
    exact ⟨[], .refl hended, fun _ => rfl⟩
  | cons next rest ih =>
    rintro c previous current rfl hended
    rw [Cursor.pastSeparators]
    have hstep (hk : current.kind.isEof = false)
        (hnest : ∀ n, Scanner.nestingAfter n current.form = n) :
        ∃ ts, Cursor.Goes ⟨c.source, previous, current, next :: rest⟩ ts
          (c.pastSeparators current next rest) ∧ ∀ n, nestingBehind n (ts.map Token.form) = n := by
      have hgoes := Cursor.Goes.advance hended hk
      obtain ⟨ts, hts, hbalanced⟩ := ih c current next rfl hgoes.ended
      refine ⟨current :: ts, hgoes.trans hts, fun n => ?_⟩
      show nestingBehind (Scanner.nestingAfter n current.form) _ = n
      rw [hnest, hbalanced]
    split
    next hk => exact hstep (by rw [hk]; rfl) fun n => by rw [Token.form, hk]; rfl
    next hk => exact hstep (by rw [hk]; rfl) fun n => by rw [Token.form, hk]; rfl
    next => exact ⟨[], .refl hended, fun _ => rfl⟩

theorem makes_separators : skipSeparators.Makes fun _ => True := by
  intro c a c' hended hknown hrun
  obtain ⟨ts, hgoes, hbalanced⟩ :=
    goes_pastSeparators c.source c.rest c c.previous c.current rfl hended
  have hgoes : c.Goes ts (c.pastSeparators c.previous c.current c.rest) := hgoes
  have hc' : c' = c.pastSeparators c.previous c.current c.rest := by
    cases hrun
    rfl
  subst hc'
  exact ⟨hgoes.ended, hknown.goes hgoes hbalanced, trivial⟩

theorem makes_endLine : expectTerminator.Makes fun _ => True :=
  .choose makes_terminator makes_separators (.unexpected _)

/-- The word `else` and the word behind it. -/
theorem makes_elseIf : acceptElseIf.Makes fun _ => True := by
  have hpure (b : Bool) : (pure b : Parse Bool).Makes fun _ => True := .pure trivial
  refine .choose (.acceptKeyword _) (hpure true) ?_
  intro c b c' hended hknown hrun
  rw [run_bind_ok (run_atKeyword _ c)] at hrun
  cases helse : c.current.kind.isKeyword .kwElse with
  | false =>
    rw [helse] at hrun
    cases hrun
    exact ⟨hended, hknown, trivial⟩
  | true =>
  rw [helse] at hrun
  have hkind := TokenKind.eq_keyword helse
  have hget : (get : Parse Cursor).run c = .ok (c, c) := rfl
  rw [if_pos rfl, run_bind_ok hget] at hrun
  cases hrest : c.rest.head? with
  | none =>
    rw [hrest] at hrun
    cases hrun
    exact ⟨hended, hknown, trivial⟩
  | some next =>
    rw [hrest] at hrun
    cases hif : next.kind.isKeyword .kwIf with
    | false =>
      simp only [hif] at hrun
      cases hrun
      exact ⟨hended, hknown, trivial⟩
    | true =>
      simp only [hif, if_true] at hrun
      have hcurrent : c.advance.current.kind = .keyword .kwIf := by
        obtain ⟨source, previous, current, rest⟩ := c
        cases rest with
        | nil => cases hrest
        | cons t rest =>
          obtain rfl : t = next := Option.some.inj hrest
          exact TokenKind.eq_keyword hif
      -- two words are passed over
      have htwo : (advance >>= fun _ => pure true : Parse Bool).MakesAt (.keyword .kwIf) fun _ =>
          True :=
        .advance rfl (fun _ => rfl) (hpure true)
      obtain ⟨hended', hknown', -⟩ :=
        MakesAt.step rfl (fun _ => rfl) c _ _ hended hknown hkind (run_advance c)
      rw [run_bind_ok (run_advance c)] at hrun
      exact htwo c.advance b c' hended' hknown' hcurrent hrun

theorem makes_flags (fuel : Nat) (isAsync isNative : Bool) :
    (functionFlags fuel isAsync isNative).Makes fun _ => True := by
  induction fuel generalizing isAsync isNative with
  | zero => exact .line fun _ => .fail _ _
  | succ fuel ih =>
    exact .choose (.acceptKeyword _) (ih _ _) (.choose (.acceptKeyword _) (ih _ _) (.pure trivial))

theorem makes_next (var : String) : (next var).Makes fun _ => True := by
  refine .bind (.expectKeyword _ _) fun _ _ => .kind fun k => ?_
  cases k with
  | name s =>
    cases hs : s == var with
    | true =>
      simp only [hs, if_true]
      exact .step rfl fun _ => rfl
    | false =>
      simp only [hs]
      exact (Makes.line fun _ => .fail _ _).here _
  | _ => exact (Makes.pure trivial).here _

/-! ### Statements with blocks -/

/-- The further branches of an `if`, one by one. -/
def AllReady (bs : List (Expr × List Stmt)) : Prop :=
  ∀ b ∈ bs, (∃ ks, Spells (.expr .disjunction b.1) ks ∧ Ready ks) ∧ BlockReady b.2

/-- A block that need not be there. -/
def OptionReady (o : Option (List Stmt)) : Prop := ∀ body ∈ o, BlockReady body

theorem AllReady.branches {bs : List (Expr × List Stmt)} {o : Option (List Stmt)} (h : AllReady bs)
    (ho : OptionReady o) : BranchesReady bs o := by
  induction bs with
  | nil =>
    cases o with
    | none => exact .endIf
    | some body => exact .otherwise (ho body rfl)
  | cons b bs ih =>
    obtain ⟨⟨⟨ks, he, hks⟩, hbody⟩, hbs⟩ := forall_mem_cons.mp h
    exact .elseIf he hks hbody (ih hbs)

/-- The arms of a `switch`, one by one. -/
def CasesReady (cs : List (List Expr × List Stmt)) : Prop :=
  ∀ c ∈ cs, (∃ ks, Spells (.items c.1) ks ∧ Ready ks) ∧ BlockReady c.2

theorem CasesReady.arms {cs : List (List Expr × List Stmt)} {o : Option (List Stmt)}
    (h : CasesReady cs)
    (ho : OptionReady o) : ArmsReady cs o := by
  induction cs with
  | nil =>
    cases o with
    | none => exact .endSwitch
    | some body => exact .otherwise (ho body rfl)
  | cons c cs ih =>
    obtain ⟨⟨⟨ks, hvalues, hks⟩, hbody⟩, hcs⟩ := forall_mem_cons.mp h
    exact .case hvalues hks hbody (ih hcs)

structure MakesReady (fuel : Nat) : Prop where
  block : ∀ closing done, (block fuel closing done).Makes fun ss =>
    ∃ more, ss = done.reverse ++ more ∧ BlockReady more
  statement : (statement fuel).Makes StmtReady
  conditional : (conditional fuel).Makes KindReady
  branches : ∀ done, (branches fuel done).Makes fun r =>
    ∃ more, r.1 = done.reverse ++ more ∧ AllReady more ∧ OptionReady r.2
  forLoop : (forLoop fuel).Makes KindReady
  guarded : (guarded fuel).Makes KindReady
  arms : ∀ done o, OptionReady o → (arms fuel done o).Makes fun r =>
    ∃ more, r.1 = done.reverse ++ more ∧ CasesReady more ∧ OptionReady r.2

namespace MakesReady

theorem zero : MakesReady 0 where
  block _ _ := .line fun _ => .fail _ _
  statement := .line fun _ => .fail _ _
  conditional := .line fun _ => .fail _ _
  branches _ := .line fun _ => .fail _ _
  forLoop := .line fun _ => .fail _ _
  guarded := .line fun _ => .fail _ _
  arms _ _ _ := .line fun _ => .fail _ _

variable {fuel : Nat}

theorem body (h : MakesReady fuel) (closing : List Keyword) :
    (Parse.block fuel closing []).Makes BlockReady :=
  (h.block closing []).mono fun _ ⟨_, heq, hready⟩ => heq ▸ hready

theorem block_succ (h : MakesReady fuel) (closing : List Keyword) (done : List Stmt) :
    (Parse.block (fuel + 1) closing done).Makes fun ss =>
      ∃ more, ss = done.reverse ++ more ∧ BlockReady more := by
  refine .bind makes_separators fun _ _ => .kind fun k => Makes.here ?_ k
  split
  · exact .pure ⟨[], by simp, .nil⟩
  · refine .bind h.statement fun s hs => .bind makes_endLine fun _ _ => ?_
    refine (h.block closing (s :: done)).mono fun ss hss => ?_
    obtain ⟨more, rfl, hmore⟩ := hss
    exact ⟨s :: more, by simp, .cons hs hmore⟩

theorem branches_succ (h : MakesReady fuel) (done : List (Expr × List Stmt)) :
    (Parse.branches (fuel + 1) done).Makes fun r =>
      ∃ more, r.1 = done.reverse ++ more ∧ AllReady more ∧ OptionReady r.2 := by
  refine .choose makes_elseIf ?_ (.choose (.acceptKeyword _) ?_ ?_)
  · refine .bind (makes_expr fuel) fun e he => .bind (.acceptKeyword _) fun _ _ =>
      .bind (h.body _) fun body hbody => ?_
    refine (h.branches ((e, body) :: done)).mono fun r hr => ?_
    obtain ⟨more, heq, hmore, ho⟩ := hr
    exact ⟨(e, body) :: more, by simp [heq], forall_mem_cons.mpr ⟨⟨he, hbody⟩, hmore⟩, ho⟩
  · refine .bind (h.body _) fun body hbody => .bind (.expectKeyword _ _) fun _ _ => .pure ?_
    exact ⟨[], by simp, nofun, by rintro _ ⟨⟩; exact hbody⟩
  · exact .bind (.expectKeyword _ _) fun _ _ => .pure ⟨[], by simp, nofun, nofun⟩

theorem conditional_succ (h : MakesReady fuel) :
    (Parse.conditional (fuel + 1)).Makes KindReady := by
  refine .bind (makes_expr fuel) fun e ⟨ks, he, hks⟩ => .bind (.acceptKeyword _) fun _ _ =>
    .choose makes_terminator ?_ ?_
  · refine .bind (h.body _) fun body hbody => .bind (h.branches _) fun r hr => .pure fun _ => ?_
    obtain ⟨bs, o⟩ := r
    obtain ⟨more, rfl, hmore, ho⟩ := hr
    exact .ifChain he hks hbody (hmore.branches ho)
  · refine .bind h.statement fun s hs => .choose (.acceptKeyword _) ?_ ?_
    · refine .bind h.statement fun s' hs' => .pure fun _ => ?_
      exact .ifChain he hks (.cons hs .nil) (.otherwise (.cons hs' .nil))
    · exact .pure fun _ => .ifChain he hks (.cons hs .nil) .endIf

theorem forLoop_succ (h : MakesReady fuel) : (Parse.forLoop (fuel + 1)).Makes KindReady := by
  refine .choose (.acceptKeyword _) ?_ ?_
  · refine .bind makes_name fun var hvar => .bind (.expectKeyword _ _) fun _ _ =>
      .bind (makes_expr fuel) fun e ⟨ks, he, hks⟩ => .bind (h.body _) fun body hbody =>
      .bind (makes_next var) fun _ _ => .pure fun _ => ?_
    exact .eachLoop hvar he hks hbody
  · refine .bind makes_name fun var hvar => .bind (.expectMark (fun _ => rfl) _) fun _ _ =>
      .bind (makes_expr fuel) fun start ⟨ks1, hstart, hks1⟩ => .bind (.expectKeyword _ _) fun _ _ =>
      .bind (makes_expr fuel) fun stop ⟨ks2, hstop, hks2⟩ => ?_
    have hrest (step : Option Expr) (hstep : ∃ ks, SpellsStep step ks ∧ Ready ks) :
        (Parse.block fuel [.kwNext] [] >>= fun body => next var >>= fun _ =>
          pure (.countLoop var start stop step body) : Parse StmtKind).Makes KindReady := by
      obtain ⟨ks3, hstep, hks3⟩ := hstep
      refine .bind (h.body _) fun body hbody => .bind (makes_next var) fun _ _ => .pure fun _ => ?_
      exact .countLoop hvar hstart hks1 hstop hks2 hstep hks3 hbody
    refine .choose (.acceptKeyword _) ?_ ?_
    · refine .bind
        (.map (makes_expr fuel) (R := fun o => ∃ ks, SpellsStep o ks ∧ Ready ks)
          fun e he => ?_) hrest
      obtain ⟨ks, he, hks⟩ := he
      exact ⟨_, .some he, hks.keyword nofun⟩
    · exact .bind (.pure ⟨[], .none, .nil⟩) hrest

/-- The part behind `catch`. -/
def HandlerReady (o : Option (String × List Stmt)) : Prop :=
  ∀ h ∈ o, Available (.name h.1) ∧ BlockReady h.2

theorem tryBlock {body : List Stmt} {handler : Option (String × List Stmt)}
    {cleanup : Option (List Stmt)}
    (hbody : BlockReady body) (hhandler : HandlerReady handler) (hcleanup : OptionReady cleanup)
    (hsome : (handler.isNone && cleanup.isNone) = false) :
    KindReady (.tryBlock body handler cleanup) := by
  intro line
  cases handler with
  | none =>
    cases cleanup with
    | none => cases hsome
    | some cleanup => exact .tryFinally hbody (hcleanup _ rfl)
  | some handler =>
    obtain ⟨hvar, hblock⟩ := hhandler _ rfl
    cases cleanup with
    | none => exact .tryCatch hvar hbody hblock
    | some cleanup => exact .tryBoth hvar hbody hblock (hcleanup _ rfl)

theorem guarded_succ (h : MakesReady fuel) : (Parse.guarded (fuel + 1)).Makes KindReady := by
  refine .bind (h.body _) fun body hbody => ?_
  have hend (handler : Option (String × List Stmt)) (hhandler : HandlerReady handler)
      (cleanup : Option (List Stmt)) (hcleanup : OptionReady cleanup) :
      (if handler.isNone && cleanup.isNone then Parse.unexpected "'catch' or 'finally'"
        else Parse.expectKeyword .kwEndTry "'end try'" >>= fun _ =>
          pure (.tryBlock body handler cleanup) : Parse StmtKind).Makes KindReady := by
    split
    next => exact .unexpected _
    next hsome =>
      exact .bind (.expectKeyword _ _) fun _ _ =>
        .pure (tryBlock hbody hhandler hcleanup (Bool.eq_false_iff.mpr hsome))
  have hrest (handler : Option (String × List Stmt)) (hhandler : HandlerReady handler) :
      (acceptKeyword .kwFinally >>= fun b =>
        if b then (some <$> Parse.block fuel [.kwEndTry] []) >>= fun cleanup =>
          if handler.isNone && cleanup.isNone then Parse.unexpected "'catch' or 'finally'"
          else Parse.expectKeyword .kwEndTry "'end try'" >>= fun _ =>
            pure (.tryBlock body handler cleanup)
        else pure none >>= fun cleanup =>
          if handler.isNone && cleanup.isNone then Parse.unexpected "'catch' or 'finally'"
          else Parse.expectKeyword .kwEndTry "'end try'" >>= fun _ =>
            pure (.tryBlock body handler cleanup) : Parse StmtKind).Makes KindReady := by
    refine .choose (.acceptKeyword _) ?_ ?_
    · exact .bind (.map (h.body _) fun cleanup hcleanup => by rintro _ ⟨⟩; exact hcleanup)
        (hend handler hhandler)
    · exact .bind (.pure nofun) (hend handler hhandler)
  refine .choose (.acceptKeyword _) ?_ ?_
  · refine .bind makes_name fun var hvar => .bind (h.body _) fun block hblock =>
      .bind (P := HandlerReady) (.pure ?_) hrest
    rintro _ ⟨⟩
    exact ⟨hvar, hblock⟩
  · exact .bind (P := HandlerReady) (.pure nofun) hrest

theorem arms_succ (h : MakesReady fuel) (done : List (List Expr × List Stmt))
    (o : Option (List Stmt))
    (ho : OptionReady o) : (Parse.arms (fuel + 1) done o).Makes fun r =>
      ∃ more, r.1 = done.reverse ++ more ∧ CasesReady more ∧ OptionReady r.2 := by
  refine .bind makes_separators fun _ _ => .choose (.acceptKeyword _) ?_
    (.choose (.acceptKeyword _) ?_ ?_)
  · refine .bind (makes_items fuel) fun values hvalues => .bind (h.body _) fun body hbody => ?_
    refine (h.arms ((values, body) :: done) o ho).mono fun r hr => ?_
    obtain ⟨more, heq, hmore, hr⟩ := hr
    exact
      ⟨(values, body) :: more, by simp [heq], forall_mem_cons.mpr ⟨⟨hvalues, hbody⟩, hmore⟩, hr⟩
  · split
    next =>
      intro c a c' _ _ hrun
      cases hrun
    next =>
      refine .bind (h.body _) fun body hbody => h.arms done (some body) ?_
      rintro _ ⟨⟩
      exact hbody
  · exact .bind (.expectKeyword _ _) fun _ _ => .pure ⟨[], by simp, nofun, ho⟩

theorem statement_succ (h : MakesReady fuel) : (Parse.statement (fuel + 1)).Makes StmtReady := by
  refine .line fun line => .kind fun k => ?_
  have hword {w : Keyword} {g : Unit → Parse Stmt} (h : (g ()).Makes StmtReady) :
      (advance >>= g).MakesAt (.keyword w) StmtReady := .advance rfl (fun _ => rfl) h
  have hwhole {x : Parse StmtKind} (hx : x.Makes KindReady) :
      (x >>= fun kind => pure (.mk line kind) : Parse Stmt).Makes StmtReady :=
    .bind hx fun _ hkind => .pure (hkind line)
  have hfunction :
      (functionFlags fuel false false >>= fun flags => functionHead fuel >>= fun head =>
      Parse.block fuel [.kwEndFunction] [] >>= fun body =>
      Parse.expectKeyword .kwEndFunction "'end function'" >>= fun _ =>
      pure (.mk line (.function head.1 head.2 flags.1 flags.2 body)) :
        Parse Stmt).Makes StmtReady := by
    refine .bind (makes_flags fuel _ _) fun flags _ => .bind (makes_head fuel) fun head hhead =>
      .bind (h.body _) fun body hbody => .bind (.expectKeyword _ _) fun _ _ => .pure ?_
    obtain ⟨ks, hhead, hks⟩ := hhead
    exact .function hhead hks hbody
  cases k with
  | keyword w =>
    cases w with
    | kwIf => exact hword (hwhole h.conditional)
    | kwWhile =>
      refine hword
        (.bind (makes_expr fuel) fun e ⟨ks, he, hks⟩ => .bind (h.body _) fun body hbody =>
        .bind (.expectKeyword _ _) fun _ _ => .pure ?_)
      exact .whileLoop he hks hbody
    | kwFor => exact hword (hwhole h.forLoop)
    | kwFunction | kwAsync | kwNative => exact hfunction.here _
    | kwTry => exact hword (hwhole h.guarded)
    | kwSwitch =>
      refine hword
        (.bind (makes_expr fuel) fun e ⟨ks, he, hks⟩ => .bind (h.arms [] none nofun) fun r hr =>
          .pure ?_)
      obtain ⟨more, heq, hmore, ho⟩ := hr
      obtain rfl : r.1 = more := heq
      exact .switchBlock he hks (hmore.arms ho)
    | _ => exact (hwhole (makes_simple fuel)).here _
  | _ => exact (hwhole (makes_simple fuel)).here _

theorem succ (h : MakesReady fuel) : MakesReady (fuel + 1) where
  block := h.block_succ
  statement := h.statement_succ
  conditional := h.conditional_succ
  branches := h.branches_succ
  forLoop := h.forLoop_succ
  guarded := h.guarded_succ
  arms := h.arms_succ

end MakesReady

theorem makesReady (fuel : Nat) : MakesReady fuel := by
  induction fuel with
  | zero => exact .zero
  | succ fuel ih => exact ih.succ

end Parse

/-- The tokens of a text stand in it where they are read. -/
theorem Cursor.known_ofText (source : String) : (Cursor.ofText source 1).Known := by
  obtain ⟨_, h⟩ := exists_cut source.toList 0
  obtain ⟨ts, hts, hcut, -⟩ := h origin
  have hsource : (Cursor.ofText source 1).source = source := by
    rw [Cursor.ofText]
    split <;> rfl
  refine ⟨[], source.toList, by rw [hsource]; rfl, ?_⟩
  rw [(Cursor.tokens_ofText source 1).1, show tokens source 1 = ts from hts.tokens]
  exact hcut

theorem Program.blockReady {source : String} {p : Program} (h : Program.ofText source = .ok p) :
    BlockReady p := by
  have hmakes : (Parse.program (parseFuel source.length)).Makes BlockReady := by
    refine .bind ((Parse.makesReady _).body []) fun body hbody => ?_
    exact .choose (.kind fun k => Parse.Makes.here (.pure trivial) k) (.pure hbody) (.unexpected _)
  rw [Program.ofText] at h
  cases hrun : (Parse.program (parseFuel source.length)) (Cursor.ofText source 1) with
  | error e =>
    rw [hrun] at h
    cases h
  | ok r =>
    rw [hrun] at h
    cases h
    exact (hmakes _ _ _ (Cursor.ended_ofText source 1) (Cursor.known_ofText source) hrun).2.2

end TaskBasic
