import TaskBasic.Proofs.Expr.Sound

/-
Expressions with no more parentheses than needed.

`Expr.render` gives the tokens of an expression.  An operand stands in parentheses
exactly if its own operator binds more loosely than the level that is wanted there:
the level of the operator itself on the left, the next tighter one on the right.

* `Spells.rendered` — what can be spelled is spelled by its rendering.
* `parseExpr_render` — the parser reads an expression back from its rendering.
-/

namespace TaskBasic

open List

def BinaryOp.level : BinaryOp → Level
  | .eq | .ne | .lt | .le | .gt | .ge => .comparison
  | .add | .sub => .sum
  | .mul | .div | .mod => .product

/-- How a binary operator is written. -/
def BinaryOp.mark : BinaryOp → Mark
  | .add => .plus
  | .sub => .minus
  | .mul => .star
  | .div => .slash
  | .mod => .percent
  | .eq => .equalEqual
  | .ne => .bangEqual
  | .lt => .less
  | .le => .lessEqual
  | .gt => .greater
  | .ge => .greaterEqual

/-- The level of the right operands of a level whose operators take two. -/
def Level.tighter (ℓ : Level) : Level := ℓ.operands?.getD ℓ

/-- A way to write f-strings: pieces for all parts that can be written. -/
structure FWriter where
  pieces : List FPart → List FPiece
  spells : ∀ {parts ps}, Spells (.pieces ps parts) [] → Spells (.pieces (pieces parts) parts) []

namespace Expr

/-- The level of the outermost operator. -/
def level : Expr → Level
  | or _ _ => .disjunction
  | and _ _ => .conjunction
  | not _ => .negation
  | binary op _ _ => op.level
  | neg _ => .sign
  | int n => if n = leastInt then .sign else .suffix
  | await _ | spawn _ _ => .task
  | _ => .suffix

def bracketed (ℓ : Level) (e : Expr) (ks : List TokenKind) : List TokenKind :=
  if e.level.rank ≤ ℓ.rank then ks else .mark .leftParen :: (ks ++ [.mark .rightParen])

mutual

def render (w : FWriter) : Expr → List TokenKind
  | int n => if n = leastInt then [.mark .minus, .leastMagnitude] else [.int n]
  | float x => [.float x]
  | str s => [.str s]
  | absent => [.keyword .kwNone]
  | var name => [.name name]
  | fstring parts => [.fstring (w.pieces parts)]
  | or a b => bracketed .disjunction a (render w a) ++
      .keyword .kwOr :: bracketed .conjunction b (render w b)
  | and a b => bracketed .conjunction a (render w a) ++
      .keyword .kwAnd :: bracketed .negation b (render w b)
  | not a => .keyword .kwNot :: bracketed .negation a (render w a)
  | binary op a b => bracketed op.level a (render w a) ++
      .mark op.mark :: bracketed op.level.tighter b (render w b)
  | neg a => .mark .minus :: bracketed .sign a (render w a)
  | await a => .keyword .kwAwait :: bracketed .task a (render w a)
  | spawn callee args => .keyword .kwSpawn :: (bracketed .suffix callee (render w callee) ++
      .mark .leftParen :: (renderItems w args ++ [.mark .rightParen]))
  | call callee args => bracketed .suffix callee (render w callee) ++
      .mark .leftParen :: (renderItems w args ++ [.mark .rightParen])
  | index object keys => bracketed .suffix object (render w object) ++
      .mark .leftBracket :: (renderItems w keys ++ [.mark .rightBracket])
  | array items => .mark .leftBracket :: (renderItems w items ++ [.mark .rightBracket])
  | dict entries => .mark .leftBrace :: (renderEntries w entries ++ [.mark .rightBrace])

def renderItems (w : FWriter) : List Expr → List TokenKind
  | [] => []
  | [e] => render w e
  | e :: e' :: es => render w e ++ .mark .comma :: renderItems w (e' :: es)

def renderEntries (w : FWriter) : List (Expr × Expr) → List TokenKind
  | [] => []
  | [(key, value)] => render w key ++ .mark .colon :: render w value
  | (key, value) :: e' :: es => render w key ++
      .mark .colon :: (render w value ++ .mark .comma :: renderEntries w (e' :: es))

end

end Expr

/-! ### One operation more -/

namespace Spells

variable {ℓ tighter : Level} {left a b : Expr} {k : TokenKind} {op : Expr → Expr → Expr}
  {ks ls : List TokenKind}

theorem chain_snoc (hop : ℓ.operator? k = some op) (ht : ℓ.operands? = some tighter)
    (hb : Spells (.expr tighter b) ks) (h : Spells (.chain ℓ left a) ls) :
    Spells (.chain ℓ left (op a b)) (ls ++ k :: ks) := by
  generalize hφ : ExprForm.chain ℓ left a = φ at h
  induction h generalizing left with
  | chainEnd =>
    cases hφ
    have hlink : Spells (.chain ℓ a (op a b)) _ := .chainLink hop ht hb .chainEnd
    rwa [append_nil] at hlink
  | chainLink hop' ht' hright _ _ ih =>
    cases hφ
    rw [cons_append, append_assoc]
    exact .chainLink hop' ht' hright (ih rfl)
  | _ => cases hφ

/-- Operators group to the left: the first operand may have the same level. -/
theorem operate (hop : ℓ.operator? k = some op) (ht : ℓ.operands? = some tighter)
    (ha : Spells (.expr ℓ a) ks) (hb : Spells (.expr tighter b) ls) :
    Spells (.expr ℓ (op a b)) (ks ++ k :: ls) := by
  cases ha with
  | operation ht' hleft hchain =>
    rw [append_assoc]
    exact .operation ht' hleft (.chain_snoc hop ht hb hchain)
  | _ => cases ht

theorem suffixes_snoc (hb : ∀ {e ms}, Spells (.suffixes b e) ms → Spells (.suffixes a e) (ks ++ ms))
    (h : Spells (.suffixes left a) ls) : Spells (.suffixes left b) (ls ++ ks) := by
  generalize hφ : ExprForm.suffixes left a = φ at h
  induction h generalizing left with
  | suffixEnd =>
    cases hφ
    have hend := hb .suffixEnd
    rwa [append_nil] at hend
  | callEmpty _ ih =>
    cases hφ
    exact .callEmpty (ih rfl)
  | call hargs _ _ ih =>
    cases hφ
    rw [cons_append, append_assoc]
    exact .call hargs (ih rfl)
  | index hkeys _ _ ih =>
    cases hφ
    rw [cons_append, append_assoc]
    exact .index hkeys (ih rfl)
  | _ => cases hφ

theorem attach (hb : ∀ {e ms}, Spells (.suffixes b e) ms → Spells (.suffixes a e) (ls ++ ms))
    (ha : Spells (.expr .suffix a) ks) : Spells (.expr .suffix b) (ks ++ ls) := by
  cases ha with
  | operation ht => cases ht
  | suffix hprimary hsuffixes =>
    rw [append_assoc]
    exact .suffix hprimary (.suffixes_snoc hb hsuffixes)

end Spells

/-! ### Renderings -/

/-- The rendering of an expression spells it at the level of its operator. -/
def Expr.Shown (w : FWriter) (e : Expr) : Prop := Spells (.expr e.level e) (e.render w)

def ExprForm.Rendered (w : FWriter) : ExprForm → Prop
  | expr _ e | primary e => e.Shown w
  | chain _ left e | suffixes left e => left.Shown w → e.Shown w
  | items es => Spells (.items es) (Expr.renderItems w es)
  | entries es => Spells (.entries es) (Expr.renderEntries w es)
  | pieces _ _ => True

section

variable {w : FWriter} {e a b : Expr} {ℓ tighter : Level} {k : TokenKind} {op : Expr → Expr → Expr}

namespace Expr.Shown

theorem bracketed (h : e.Shown w) (ℓ : Level) :
    Spells (.expr ℓ e) (e.bracketed ℓ (e.render w)) := by
  rw [Expr.bracketed]
  split
  next hle => exact .loosen hle h
  next => exact .of_primary (.parens (.loosen (by cases e.level <;> decide) h))

theorem whole (h : e.Shown w) : Spells (.expr .disjunction e) (e.render w) :=
  .loosen (by cases e.level <;> decide) h

theorem operation (ha : a.Shown w) (hb : b.Shown w) (hop : ℓ.operator? k = some op)
    (ht : ℓ.operands? = some tighter) : (op a b).Shown w := by
  have hspells := Spells.operate hop ht (ha.bracketed ℓ) (hb.bracketed tighter)
  have hrender : (op a b).level = ℓ ∧ (op a b).render w =
      a.bracketed ℓ (a.render w) ++ k :: b.bracketed tighter (b.render w) := by
    rw [Level.operator?.eq_def] at hop
    split at hop <;> first
      | cases hop
        done
      | cases hop
        cases ht
        exact ⟨rfl, Expr.render.eq_def ..⟩
  rw [Shown, hrender.1, hrender.2]
  exact hspells

theorem literal (h : literal? k = some e) : e.Shown w := by
  have hint (n : Int64) : (Expr.int n).Shown w := by
    rw [Shown, Expr.level, Expr.render]
    split
    next hn => exact hn ▸ .leastInt
    next => exact .of_primary (.literal rfl)
  rw [literal?.eq_def] at h
  split at h <;> cases h
  case h_1 => exact hint _
  case h_4 => exact hint _
  case h_5 => exact hint _
  all_goals
    rw [Shown, Expr.render]
    exact .of_primary (.literal rfl)

end Expr.Shown

theorem Spells.rendered {φ : ExprForm} {ks : List TokenKind} (h : Spells φ ks) : φ.Rendered w := by
  induction h with
  | operation _ _ _ ihleft ihrest | suffix _ _ ihleft ihrest => exact ihrest ihleft
  | comparison _ ih | plus _ ih | unsigned _ ih | suffixed _ ih | parens _ ih => exact ih
  | chainEnd | suffixEnd => exact id
  | piecesEnd | text | code => trivial
  | literal h => exact .literal h
  | chainLink hop ht _ _ ihright ih => exact fun hleft => ih (hleft.operation ihright hop ht)
  | not _ ih =>
    rw [ExprForm.Rendered, Expr.Shown, Expr.render]
    exact .not (ih.bracketed .negation)
  | leastInt => exact .literal (k := .int TaskBasic.leastInt) rfl
  | neg _ ih =>
    rw [ExprForm.Rendered, Expr.Shown, Expr.render]
    exact .neg (ih.bracketed .sign)
  | await _ ih =>
    rw [ExprForm.Rendered, Expr.Shown, Expr.render]
    exact .await (ih.bracketed .task)
  | spawn _ ih =>
    rw [ExprForm.Rendered, Expr.Shown, Expr.render] at ih
    rw [ExprForm.Rendered, Expr.Shown, Expr.render]
    exact .spawn ih
  | callEmpty _ ih =>
    intro hleft
    refine ih ?_
    rw [Expr.Shown, Expr.render]
    exact .attach .callEmpty (hleft.bracketed .suffix)
  | call _ _ ihargs ih =>
    intro hleft
    refine ih ?_
    rw [Expr.Shown, Expr.render]
    refine .attach (fun h => ?_) (hleft.bracketed .suffix)
    rw [cons_append, append_assoc]
    exact .call ihargs h
  | index _ _ ihkeys ih =>
    intro hleft
    refine ih ?_
    rw [Expr.Shown, Expr.render]
    refine .attach (fun h => ?_) (hleft.bracketed .suffix)
    rw [cons_append, append_assoc]
    exact .index ihkeys h
  | fstring h _ =>
    rw [ExprForm.Rendered, Expr.Shown, Expr.render]
    exact .of_primary (.fstring (w.spells h))
  | arrayEmpty =>
    rw [ExprForm.Rendered, Expr.Shown, Expr.render]
    exact .of_primary .arrayEmpty
  | array _ ih =>
    rw [ExprForm.Rendered, Expr.Shown, Expr.render]
    exact .of_primary (.array ih)
  | dictEmpty =>
    rw [ExprForm.Rendered, Expr.Shown, Expr.render]
    exact .of_primary .dictEmpty
  | dict _ ih =>
    rw [ExprForm.Rendered, Expr.Shown, Expr.render]
    exact .of_primary (.dict ih)
  | item _ ih =>
    rw [ExprForm.Rendered, Expr.renderItems]
    exact .item ih.whole
  | @itemsCons _ es _ _ _ hes ih ihes =>
    cases es with
    | nil => cases hes
    | cons =>
      rw [ExprForm.Rendered, Expr.renderItems]
      exact .itemsCons ih.whole ihes
  | entry _ _ ihkey ihvalue =>
    rw [ExprForm.Rendered, Expr.renderEntries]
    exact .entry ihkey.whole ihvalue.whole
  | @entriesCons _ _ es _ _ _ _ _ hes ihkey ihvalue ihes =>
    cases es with
    | nil => cases hes
    | cons =>
      rw [ExprForm.Rendered, Expr.renderEntries]
      exact .entriesCons ihkey.whole ihvalue.whole ihes

end

/-! ### Reading back -/

namespace Cursor

theorem Ended.skip {c : Cursor} (h : c.Ended) (n : Nat) : (c.skip n).Ended := by
  induction n generalizing c with
  | zero => exact h
  | succ n ih =>
    refine ih ?_
    cases hc : c.current.kind.isEof with
    | false => exact (Goes.advance h hc).ended
    | true =>
      obtain ⟨source, previous, current, rest⟩ := c
      obtain rfl : rest = [] := h.rest_nil hc
      exact h

theorem weight_kinds_skip (c : Cursor) (n : Nat) : weight (c.skip n).kinds ≤ weight c.kinds := by
  induction n generalizing c with
  | zero => exact Nat.le_refl _
  | succ n ih =>
    refine Nat.le_trans (ih c.advance) ?_
    obtain ⟨source, previous, current, rest⟩ := c
    cases rest with
    | nil => exact Nat.le_refl _
    | cons next rest => exact Nat.le_add_left _ _

end Cursor

/-- The parser gives the expression somewhere in a text. -/
def Expr.Parsed (e : Expr) : Prop :=
  ∃ source line n fuel c, (parseExpr fuel).run ((Cursor.ofText source line).skip n) = .ok (e, c)

/-- Every expression that the parser gives is read back from its rendering, wherever in a text it
stands before a token that cannot go on with an expression, and that token is the next one then. -/
theorem parseExpr_render (w : FWriter) {e : Expr} (he : e.Parsed) {source : String} {line n : Nat}
    {k : TokenKind} (hsees : ((Cursor.ofText source line).skip n).Sees (e.render w) k)
    (hk : Level.disjunction.Ends k) :
    ∃ c, (parseExpr (parseFuel source.length)).run ((Cursor.ofText source line).skip n) =
      .ok (e, c) ∧
      c = (Cursor.ofText source line).skip (n + (e.render w).length) ∧ c.current.form = k := by
  obtain ⟨source', line', n', fuel, c, hrun⟩ := he
  obtain ⟨ts, -, hts⟩ := (readsSpelled fuel).expr .disjunction _ e c
    ((Cursor.ended_ofText source' line').skip n') hrun
  have hspells : Spells (.expr .disjunction e) (e.render w) := (Spells.rendered hts).whole
  have hweight : weight (e.render w) ≤ source.length + 1 := by
    obtain ⟨rest, hrest⟩ := hsees
    have hkinds :=
      Nat.le_trans (Cursor.weight_kinds_skip _ n) (Cursor.weight_kinds_ofText source line)
    rw [← hrest, weight_append, weight_append] at hkinds
    omega
  have hfuel : (ExprForm.expr .disjunction e).fuel (e.render w) ≤ parseFuel source.length := by
    simp only [ExprForm.fuel, Level.rank, parseFuel]
    omega
  refine ⟨_, hspells.read hfuel hk _ hsees, (Cursor.skip_add ..).symm, ?_⟩
  exact hsees.behind.here

/-- Some way to write f-strings. -/
theorem FWriter.exists : Nonempty FWriter := by
  classical
  refine ⟨⟨fun parts => if h : ∃ ps, Spells (.pieces ps parts) [] then h.choose else [], ?_⟩⟩
  intro parts ps h
  have hexists : ∃ ps, Spells (.pieces ps parts) [] := ⟨ps, h⟩
  rw [dif_pos hexists]
  exact hexists.choose_spec

/-- `(a - (b - c)) * -d` needs both pairs of parentheses. -/
theorem product_of_difference_render : ∃ c, (parseExpr (parseFuel 18)).run
    (Cursor.ofText "(a - (b - c)) * -d" 1) = .ok (.binary .mul
      (.binary .sub (.var "a") (.binary .sub (.var "b") (.var "c"))) (.neg (.var "d")), c) ∧
    c.current.form = .eof := by
  obtain ⟨w⟩ := FWriter.exists
  obtain ⟨c, hrun, -, hc⟩ := @parseExpr_render w _ ⟨"(a - (b - c)) * -d", 1, 0, 400, _, rfl⟩
    "(a - (b - c)) * -d" 1 0 .eof ⟨[], rfl⟩ ⟨fun ℓ _ => by cases ℓ <;> rfl, rfl, rfl⟩
  exact ⟨c, hrun, hc⟩

end TaskBasic
