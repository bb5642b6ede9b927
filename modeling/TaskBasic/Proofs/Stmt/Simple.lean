import TaskBasic.Proofs.Expr.Grammar
import TaskBasic.Stmt.Parse

/-
The grammar of statements that hold no others.

`SpellsSimple kind ks` says that the tokens `ks` spell a statement of one line.

* `SpellsSimple.takes` — the parser reads what is spelled.
-/

namespace TaskBasic

variable {ks : List TokenKind} {k : TokenKind} {fuel : Nat}

/-- True for the tokens that end a statement. -/
def TokenKind.isTerminator : TokenKind → Bool
  | .newline | .eof | .mark .colon => true
  | _ => false

namespace Parse

theorem run_skipSeparators {c : Cursor} (hnewline : c.current.kind ≠ .newline)
    (hcolon : c.current.kind ≠ .mark .colon) : skipSeparators.run c = .ok ((), c) := by
  obtain ⟨source, previous, current, rest⟩ := c
  have hpast : Cursor.pastSeparators ⟨source, previous, current, rest⟩ previous current rest =
      ⟨source, previous, current, rest⟩ := by
    cases rest with
    | nil => rfl
    | cons next rest =>
      rw [Cursor.pastSeparators]
      split
      next heq => exact absurd heq hnewline
      next heq => exact absurd heq hcolon
      next => rfl
  exact congrArg (fun c => Except.ok ((), c)) hpast

namespace Takes

theorem expect_name (s : String) (k : TokenKind) : expectName.Takes [.name s] s k := by
  intro c hc
  have hname : c.current.kind = .name s := TokenKind.eq_of_bare hc.head nofun
  rw [expectName, run_bind_ok (run_kind c), hname]
  rfl

theorem at_terminator (k : TokenKind) : atTerminator.Takes [] k.isTerminator k := fun c hc => by
  have hkind : c.current.kind.isTerminator = k.isTerminator := by
    rw [← hc.here]
    cases c.current.kind <;> rfl
  rw [atTerminator, run_bind_ok (run_kind c), ← hkind]
  cases c.current.kind with
  | mark m => cases m <;> rfl
  | _ => rfl

end Takes

end Parse

open Parse

theorem Spells.takes {ℓ : Level} {e : Expr}
    (h : Spells (.expr ℓ e) ks) (hfuel : 16 * weight ks + ℓ.rank ≤ fuel) (hk : ℓ.Ends k) :
    (parseExprAt fuel ℓ).Takes ks e k :=
  h.read hfuel hk

theorem Spells.takes_items {es : List Expr}
    (h : Spells (.items es) ks) (hfuel : 16 * weight ks + 10 ≤ fuel)
    (hk : Level.disjunction.Ends k) (hcomma : k.isMark .comma = false) :
    (parseExprList fuel []).Takes ks es k :=
  h.read hfuel ⟨hk, hcomma⟩ []

/-! ### Lists between commas -/

/-- The tokens `ks` spell the items, each one as `P` says, between commas. -/
inductive SpellsList {α : Type} (P : α → List TokenKind → Prop) : List α → List TokenKind → Prop
  | one {a ks} : P a ks → SpellsList P [a] ks
  | cons {a as ks ls} : P a ks → SpellsList P as ls →
    SpellsList P (a :: as) (ks ++ .mark .comma :: ls)

def Target.expr : Target → Expr
  | .var name => .var name
  | .index object keys => .index object keys

def SpellsTarget (t : Target) (ks : List TokenKind) : Prop := Spells (.expr .suffix t.expr) ks

theorem spells_var (name : String) : SpellsTarget (.var name) [.name name] :=
  .suffix (.literal rfl) .suffixEnd

def SpellsName (s : String) (ks : List TokenKind) : Prop := ks = [.name s]

def SpellsArray (a : String × List Expr) (ks : List TokenKind) : Prop :=
  ∃ ls, Spells (.items a.2) ls ∧
    ks = .name a.1 :: .mark .leftBracket :: (ls ++ [.mark .rightBracket])

/-! ### Statements of one line -/

/-- The tokens `ks` spell a statement that holds no other one.  The text behind `debug` is not told
by its tokens, so that this statement is not among them. -/
inductive SpellsSimple : StmtKind → List TokenKind → Prop
  | eval {e ks} : Spells (.expr .disjunction e) ks →
    (ks.head? = some (.keyword .kwSpawn) → ∀ callee args, e ≠ .spawn callee args) →
    SpellsSimple (.eval e) ks
  | assign {t e ks ls} : SpellsTarget t ks → Spells (.expr .disjunction e) ls →
    SpellsSimple (.assign t e) (.keyword .kwLet :: (ks ++ .mark .assign :: ls))
  | declare {name} : SpellsSimple (.declare name) [.keyword .kwLet, .name name]
  | printEmpty : SpellsSimple (.print []) [.keyword .kwPrint]
  | print {es ks} : Spells (.items es) ks → SpellsSimple (.print es) (.keyword .kwPrint :: ks)
  | input {t ks} : SpellsTarget t ks → SpellsSimple (.input t none) (.keyword .kwInput :: ks)
  | inputPrompt {t e ks ls} : SpellsTarget t ks → Spells (.expr .disjunction e) ls →
    SpellsSimple (.input t (some e)) (.keyword .kwInput :: (ks ++ .mark .comma :: ls))
  | retEmpty : SpellsSimple (.ret none) [.keyword .kwReturn]
  | ret {e ks} : Spells (.expr .disjunction e) ks →
    SpellsSimple (.ret (some e)) (.keyword .kwReturn :: ks)
  | dim {arrays ks} : SpellsList SpellsArray arrays ks →
    SpellsSimple (.dim arrays) (.keyword .kwDim :: ks)
  | data {es ks} : Spells (.items es) ks → SpellsSimple (.data es) (.keyword .kwData :: ks)
  | read {targets ks} : SpellsList SpellsTarget targets ks →
    SpellsSimple (.read targets) (.keyword .kwRead :: ks)
  | restore : SpellsSimple .restore [.keyword .kwRestore]
  | breakLoop : SpellsSimple .breakLoop [.keyword .kwBreak]
  | continueLoop : SpellsSimple .continueLoop [.keyword .kwContinue]
  | importModule {path} : SpellsSimple (.importModule path) [.keyword .kwImport, .str path]
  | spawn {callee args ks} : Spells (.expr .suffix (.call callee args)) ks →
    SpellsSimple (.spawn callee args) (.keyword .kwSpawn :: ks)
  | global {names ks} : SpellsList SpellsName names ks →
    SpellsSimple (.global names) (.keyword .kwGlobal :: ks)
  | raise {e ks} : Spells (.expr .disjunction e) ks →
    SpellsSimple (.raise e) (.keyword .kwRaise :: ks)

/-! ### Reading -/

/-- True for tokens, other than marks, that stand behind an expression in a statement. -/
def TokenKind.isEdge : TokenKind → Bool
  | .newline | .eof | .mark .assign | .keyword .kwThen | .keyword .kwTo | .keyword .kwStep => true
  | _ => false

theorem Level.ends_of_edge (h : k.isEdge = true) (ℓ : Level) : ℓ.Ends k := by
  refine ⟨fun ℓ' _ => ?_, ?_, ?_⟩
  · cases k with
    | keyword w => cases w <;> first | cases h; done | cases ℓ' <;> rfl
    | mark m => cases m <;> first | cases h; done | cases ℓ' <;> rfl
    | _ => cases ℓ' <;> rfl
  all_goals
    cases k with
    | mark m => cases m <;> first | cases h; done | rfl
    | _ => rfl

theorem Level.suffix_ends (hparen : k.isMark .leftParen = false)
    (hbracket : k.isMark .leftBracket = false) : Level.suffix.Ends k :=
  ⟨fun ℓ hℓ => by cases ℓ <;> first | rfl | simp [Level.rank] at hℓ, hparen, hbracket⟩

theorem TokenKind.begins_bare (k : TokenKind) (ℓ : Level) : k.bare.begins ℓ = k.begins ℓ := by
  cases k <;> rfl

theorem Level.ends_comma (ℓ : Level) : ℓ.Ends (.mark .comma) := Level.ends_of_mark (by decide) ℓ

theorem TokenKind.isMark_comma_of_edge (h : k.isEdge = true) :
    k.isMark .comma = false := by
  cases k with
  | mark m => cases m <;> first | cases h; done | rfl
  | _ => rfl

section Lists

variable {α : Type} {P : α → List TokenKind → Prop} {loop : Nat → List α → Parse (List α)}
  {r : Nat → Parse α} {as : List α} {ks : List TokenKind} {k : TokenKind} {fuel : Nat}

/-- A loop that reads items up to the last comma reads the items of a list. -/
theorem SpellsList.takes (hloop : ∀ n done, loop (n + 1) done = r n >>= fun a =>
      acceptMark .comma >>= fun more => if more then loop n (a :: done) else
        pure (a :: done).reverse)
    (hone : ∀ {a ks k n}, P a ks → 16 * weight ks + 10 ≤ n → k.isMark .leftParen = false →
      k.isMark .leftBracket = false → (r n).Takes ks a k)
    (h : SpellsList P as ks) (hk : k.isMark .comma = false) (hparen : k.isMark .leftParen = false)
    (hbracket : k.isMark .leftBracket = false) (hfuel : 16 * weight ks + 11 ≤ fuel)
    (done : List α) : (loop fuel done).Takes ks (done.reverse ++ as) k := by
  obtain ⟨n, rfl⟩ : ∃ n, fuel = n + 1 := ⟨fuel - 1, by omega⟩
  induction h generalizing n done with
  | @one a ks ha =>
    rw [hloop]
    have hend : ((acceptMark .comma) >>= fun more => if more then loop n (a :: done) else
        pure (a :: done).reverse).Takes [] ((a :: done).reverse) k :=
      .last (.no_mark hk) rfl
    rw [← List.reverse_cons, ← List.append_nil ks]
    exact .bind (hone ha (by omega) hparen hbracket) hend
  | @cons a as ks ls ha _ ih =>
    simp only [weight_append, weight_cons, TokenKind.weight] at hfuel
    obtain ⟨n, rfl⟩ : ∃ m, n = m + 1 := ⟨n - 1, by omega⟩
    rw [hloop]
    refine .bind (hone ha (by omega) rfl rfl) (.cons (.accept_mark _ _) ?_)
    have hrest := ih (a :: done) n (by omega)
    rwa [List.reverse_cons, List.append_assoc] at hrest

end Lists

namespace Parse

variable {fuel : Nat} {ks ls : List TokenKind} {k : TokenKind} {t : Target} {e : Expr}

theorem takes_target (h : SpellsTarget t ks) (hfuel : 16 * weight ks + 10 ≤ fuel)
    (hk : Level.suffix.Ends k) : (target fuel).Takes ks t k := by
  refine .line fun n => .last (h.takes (by simp only [Level.rank]; omega) hk) ?_
  cases t <;> rfl

theorem takes_targets {ts : List Target} (h : SpellsList SpellsTarget ts ks)
    (hk : k.isEdge = true) (hfuel : 16 * weight ks + 11 ≤ fuel) : (targets fuel []).Takes ks ts k :=
  h.takes (r := target) (fun _ _ => rfl)
    (fun ha hn hparen hbracket => takes_target ha hn (Level.suffix_ends hparen hbracket))
    (TokenKind.isMark_comma_of_edge hk) (Level.ends_of_edge hk .suffix).call
    (Level.ends_of_edge hk .suffix).subscript hfuel []

theorem takes_names {names : List String} (h : SpellsList SpellsName names ks)
    (hk : k.isMark .comma = false) (hparen : k.isMark .leftParen = false)
    (hbracket : k.isMark .leftBracket = false) (hfuel : 16 * weight ks + 11 ≤ fuel) :
    (Parse.names fuel []).Takes ks names k :=
  h.takes (r := fun _ => expectName) (fun _ _ => rfl)
    (fun ha _ _ _ => by cases ha; exact .expect_name _ _) hk hparen hbracket hfuel []

/-- Reads an array with its sizes. -/
def array (fuel : Nat) : Parse (String × List Expr) := do
  let name ← expectName
  let closing ← if ← acceptMark .leftBracket then pure Mark.rightBracket
    else do
      expectMark .leftParen "'[' or '('"
      pure Mark.rightParen
  let sizes ← parseExprList fuel []
  expectMark closing "closing bracket"
  return (name, sizes)

theorem arrays_succ (fuel : Nat) (done : List (String × List Expr)) :
    arrays (fuel + 1) done = array fuel >>= fun a => acceptMark .comma >>= fun more =>
      if more then arrays fuel (a :: done) else pure (a :: done).reverse := by
  simp only [arrays, array, bind_assoc]
  congr 1
  funext name
  congr 1
  funext bracket
  cases bracket <;> simp only [if_true, if_false, Bool.false_eq_true, bind_assoc, pure_bind]

theorem takes_array {a : String × List Expr} (h : SpellsArray a ks)
    (hfuel : 16 * weight ks + 10 ≤ fuel) : (array fuel).Takes ks a k := by
  obtain ⟨ls, hls, rfl⟩ := h
  simp only [weight_append, weight_cons, weight_nil, TokenKind.weight] at hfuel
  refine .cons (.expect_name _ _) (.cons (.accept_mark _ _) (.after (.pure _ _) ?_))
  exact .bind (hls.takes_items (by omega) (Level.ends_of_mark (by decide) _) rfl)
    (.last (.expect_mark _ _ _) rfl)

theorem takes_arrays {as : List (String × List Expr)} (h : SpellsList SpellsArray as ks)
    (hk : k.isEdge = true) (hfuel : 16 * weight ks + 11 ≤ fuel) : (arrays fuel []).Takes ks as k :=
  h.takes arrays_succ (fun ha hn _ _ => takes_array ha hn)
    (TokenKind.isMark_comma_of_edge hk) (Level.ends_of_edge hk .suffix).call
    (Level.ends_of_edge hk .suffix).subscript hfuel []

/-- A statement that begins like an expression is read as one. -/
theorem simple_eq_evaluation {c : Cursor} (hk : c.current.kind.begins .disjunction = true)
    (hspawn : c.current.kind ≠ .keyword .kwSpawn) :
    (simple fuel).run c = (evaluation fuel).run c := by
  rw [simple, run_bind_ok (run_kind c)]
  cases hkind : c.current.kind with
  | keyword m =>
    rw [hkind] at hk hspawn
    cases m <;> first | rfl | cases hk; done | exact absurd rfl hspawn
  | _ => rfl

/-- At a token that an expression begins with, no statement ends. -/
theorem not_terminator {φ : ExprForm} {ℓ : Level} (h : Spells φ ks) (hφ : φ.first? = some ℓ) :
    atTerminator.Takes [] false (firstOr ks k) := by
  obtain ⟨k1, ls, rfl, hk⟩ := h.begins hφ
  have hfalse : k1.isTerminator = false := by
    cases k1 with
    | mark m => cases m <;> first | rfl | cases hk
    | _ => first | rfl | cases hk
  have hat := Takes.at_terminator k1
  rwa [hfalse] at hat

theorem takes_evaluation (h : Spells (.expr .disjunction e) ks)
    (hfuel : 16 * weight ks + 9 ≤ fuel) : (evaluation fuel).Takes ks (.eval e) .newline := by
  exact .whole (h.takes hfuel (Level.ends_of_edge rfl _)) (.last (.at_mark _ _) rfl)

theorem takes_spawning {callee : Expr} {args : List Expr}
    (h : Spells (.expr .disjunction (.spawn callee args)) ks) (hfuel : 16 * weight ks + 9 ≤ fuel) :
    (spawning fuel).Takes ks (.spawn callee args) .newline :=
  .last (h.takes hfuel (Level.ends_of_edge rfl _)) rfl

theorem takes_spawning_eval (h : Spells (.expr .disjunction e) ks)
    (he : ∀ callee args, e ≠ .spawn callee args) (hfuel : 16 * weight ks + 9 ≤ fuel) :
    (spawning fuel).Takes ks (.eval e) .newline := by
  refine .last (h.takes hfuel (Level.ends_of_edge rfl _)) ?_
  cases e with
  | spawn callee args => exact absurd rfl (he callee args)
  | _ => rfl

end Parse

/-- The parser reads the statements of one line. -/
theorem SpellsSimple.takes {kind : StmtKind} (h : SpellsSimple kind ks)
    (hfuel : 16 * weight ks + 11 ≤ fuel) : (simple fuel).Takes ks kind .newline := by
  have hedge (ℓ : Level) : ℓ.Ends .newline := Level.ends_of_edge rfl ℓ
  cases h with
  | eval h hspawn =>
    obtain ⟨k, ls, rfl, hk⟩ := h.begins rfl
    by_cases hkind : k = .keyword .kwSpawn
    · subst hkind
      exact .kind (by rintro _ ⟨⟩) (takes_spawning_eval h (hspawn rfl) (by omega))
    · intro c hc
      have hhead := hc.head
      rw [simple_eq_evaluation]
      · exact takes_evaluation h (by omega) c hc
      · rw [← TokenKind.begins_bare, hhead, hk]
      · intro hhere
        exact hkind (by rw [← hhead, hhere]; rfl)
  | assign ht he =>
    simp only [weight_append, weight_cons, TokenKind.weight] at hfuel
    refine .kind (by rintro _ ⟨⟩) (.cons (.advance _ _) (.bind (takes_target ht (by omega) ?_) ?_))
    · exact Level.ends_of_edge rfl _
    · exact .cons (.accept_mark _ _)
        (.last (he.takes (by simp only [Level.rank]; omega) (hedge _)) rfl)
  | declare =>
    simp only [weight_cons, weight_nil, TokenKind.weight] at hfuel
    refine .kind (by rintro _ ⟨⟩)
      (.cons (.advance _ _) (.cons (takes_target (spells_var _) ?_ (hedge _)) ?_))
    · simp only [weight_cons, weight_nil, TokenKind.weight]
      omega
    · exact .last (.no_mark rfl) rfl
  | printEmpty | retEmpty =>
    exact .kind (by rintro _ ⟨⟩) (.cons (.advance _ _) (.last (.at_terminator _) rfl))
  | print h =>
    simp only [weight_cons, TokenKind.weight] at hfuel
    refine .kind (by rintro _ ⟨⟩) (.cons (.advance _ _) (.after (not_terminator h rfl) ?_))
    exact .last (h.takes_items (by omega) (hedge _) rfl) rfl
  | @input t ks ht =>
    simp only [weight_cons, TokenKind.weight] at hfuel
    refine .kind (by rintro _ ⟨⟩) (.cons (.advance _ _) ?_)
    rw [← List.append_nil ks]
    exact .bind (takes_target ht (by omega) (hedge _)) (.last (.no_mark rfl) rfl)
  | inputPrompt ht he =>
    simp only [weight_append, weight_cons, TokenKind.weight] at hfuel
    refine .kind (by rintro _ ⟨⟩) (.cons (.advance _ _) (.bind (takes_target ht (by omega) ?_) ?_))
    · exact Level.ends_comma _
    · exact .cons (.accept_mark _ _)
        (.last (he.takes (by simp only [Level.rank]; omega) (hedge _)) rfl)
  | ret he =>
    simp only [weight_cons, TokenKind.weight] at hfuel
    refine .kind (by rintro _ ⟨⟩) (.cons (.advance _ _) (.after (not_terminator he rfl) ?_))
    exact .last (he.takes (by simp only [Level.rank]; omega) (hedge _)) rfl
  | dim h =>
    simp only [weight_cons, TokenKind.weight] at hfuel
    exact .kind (by rintro _ ⟨⟩) (.cons (.advance _ _) (.last (takes_arrays h rfl (by omega)) rfl))
  | data h =>
    simp only [weight_cons, TokenKind.weight] at hfuel
    exact .kind (by rintro _ ⟨⟩)
      (.cons (.advance _ _) (.last (h.takes_items (by omega) (hedge _) rfl) rfl))
  | read h =>
    simp only [weight_cons, TokenKind.weight] at hfuel
    exact .kind (by rintro _ ⟨⟩) (.cons (.advance _ _) (.last (takes_targets h rfl (by omega)) rfl))
  | restore | breakLoop | continueLoop => exact .kind (by rintro _ ⟨⟩) (.last (.advance _ _) rfl)
  | importModule =>
    exact .kind (by rintro _ ⟨⟩)
      (.cons (.advance _ _) (.kind (by rintro _ ⟨⟩) (.last (.advance _ _) rfl)))
  | spawn h =>
    exact .kind (by rintro _ ⟨⟩) (takes_spawning (.loosen (by decide) (.spawn h)) (by omega))
  | global h =>
    simp only [weight_cons, TokenKind.weight] at hfuel
    exact .kind (by rintro _ ⟨⟩)
      (.cons (.advance _ _) (.last (takes_names h rfl rfl rfl (by omega)) rfl))
  | raise he =>
    simp only [weight_cons, TokenKind.weight] at hfuel
    exact .kind (by rintro _ ⟨⟩) (.cons (.advance _ _)
      (.last (he.takes (by simp only [Level.rank]; omega) (hedge _)) rfl))

end TaskBasic
