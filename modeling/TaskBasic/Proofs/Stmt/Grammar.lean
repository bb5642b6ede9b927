import TaskBasic.Proofs.Stmt.Simple

/-
The grammar of statements in block form.

`Lays source φ φ' ts` says that the tokens `ts` lay out the statements of `φ`, each one behind a
newline and every block between the words that open and close it.  `φ'` are the same statements
with the lines of their first tokens.

* `Lays.read` — the parser reads `φ'` from the tokens.
* `Program.ofText_laid` — the program of a text that is laid out.
-/

namespace TaskBasic

open Parse List

variable {ks : List TokenKind} {closing : List Keyword} {bs : List (Expr × List Stmt)}
  {cs : List (List Expr × List Stmt)}

variable {k : TokenKind} {ts : List Token} {source var : String} {o : Option (List Stmt)}
  {u1 : Token}

/-- The current token of the cursor and those behind it are `ts`, then `t`. -/
def Cursor.Has (c : Cursor) (source : String) (ts : List Token) (t : Token) : Prop :=
  c.source = source ∧ ts ++ [t] <+: c.current :: c.rest

/-- The first of the tokens, or `t` if there is none. -/
def leading (ts : List Token) (t : Token) : Token := ts.head?.getD t

@[simp] theorem leading_nil (t : Token) : leading [] t = t := rfl

@[simp] theorem leading_cons (u : Token) (ts : List Token) (t : Token) :
    leading (u :: ts) t = u := rfl

@[simp] theorem leading_append (ts us : List Token) (t : Token) :
    leading (ts ++ us) t = leading ts (leading us t) := by
  cases ts <;> rfl

namespace Cursor.Has

variable {c : Cursor} {source : String} {ts us : List Token} {t u : Token}

theorem head (h : c.Has source ts t) : c.current = leading ts t := by
  obtain ⟨-, rest, h⟩ := h
  cases ts <;> exact (List.cons.inj h).1.symm

theorem sees (h : c.Has source ts t) : c.Sees (ts.map Token.form) t.form := by
  obtain ⟨-, rest, h⟩ := h
  refine ⟨rest.map Token.form, ?_⟩
  rw [Cursor.kinds, ← h]
  simp

theorem advance (h : c.Has source (u :: ts) t) : c.advance.Has source ts t := by
  obtain ⟨hsource, rest, h⟩ := h
  obtain ⟨source, previous, current, rest'⟩ := c
  obtain ⟨-, rfl⟩ := List.cons.inj h
  cases ts <;> exact ⟨hsource, rest, rfl⟩

theorem skip (h : c.Has source (ts ++ us) t) : (c.skip ts.length).Has source us t := by
  induction ts generalizing c with
  | nil => exact h
  | cons u ts ih => exact ih h.advance

theorem skip_source (h : c.Has source ts t) : (c.skip ts.length).source = source := by
  rw [← append_nil ts] at h
  exact h.skip.1

theorem before (h : c.Has source (ts ++ us) t) : c.Has source ts (leading us t) := by
  obtain ⟨hsource, hprefix⟩ := h
  refine ⟨hsource, List.IsPrefix.trans ?_ hprefix⟩
  cases us with
  | nil => simp
  | cons u us => exact ⟨us ++ [t], by simp⟩

theorem previous (h : c.Has source (ts ++ [u]) t) : (c.skip (ts ++ [u]).length).previous = u := by
  have hlast := h.skip
  rw [length_append, Cursor.skip_add]
  generalize c.skip ts.length = c at hlast
  have hcurrent : c.current = u := hlast.head
  obtain ⟨-, rest, hrest⟩ := hlast
  obtain ⟨source, previous, current, rest'⟩ := c
  obtain ⟨-, rfl⟩ := List.cons.inj hrest
  exact hcurrent

end Cursor.Has

namespace Parse

variable {α β : Type} {x : Parse α} {f : α → Parse β} {g : Nat → Parse α} {a : α} {b : β}
  {source : String}
  {ts us : List Token} {t u : Token}

/-- Where the tokens `ts` stand before `t`, the reader passes them and gives `a`. -/
def Passes (x : Parse α) (source : String) (ts : List Token) (a : α) (t : Token) : Prop :=
  ∀ c : Cursor, c.Has source ts t → x.run c = .ok (a, c.skip ts.length)

theorem Takes.passes (h : x.Takes ks a k)
    (hts : ts.map Token.form = ks) (ht : t.form = k) : x.Passes source ts a t := by
  subst hts ht
  intro c hc
  rw [h c hc.sees, length_map]

namespace Passes

theorem bind (hx : x.Passes source ts a (leading us t)) (hf : (f a).Passes source us b t) :
    (x >>= f).Passes source (ts ++ us) b t := by
  intro c hc
  rw [run_bind_ok (hx c hc.before), hf _ hc.skip, length_append, Cursor.skip_add]

theorem after (hx : x.Passes source [] a (leading us t)) (hf : (f a).Passes source us b t) :
    (x >>= f).Passes source us b t :=
  bind hx hf

theorem cons (hx : x.Passes source [u] a (leading us t)) (hf : (f a).Passes source us b t) :
    (x >>= f).Passes source (u :: us) b t :=
  bind hx hf

theorem last (hx : x.Passes source ts a t) (hf : f a = pure b) :
    (x >>= f).Passes source ts b t := by
  intro c hc
  rw [run_bind_ok (hx c hc), hf]
  rfl

theorem map {f : α → β} (hx : x.Passes source ts a t) : (f <$> x).Passes source ts (f a) t := by
  rw [map_eq_pure_bind]
  exact last hx rfl

theorem pure (a : α) (t : Token) : (pure a : Parse α).Passes source [] a t := fun _ _ => rfl

theorem line (h : (g (leading ts t).line).Passes source ts a t) :
    (Parse.line >>= g).Passes source ts a t := fun c hc => by
  rw [run_bind_ok (run_line c), hc.head]
  exact h c hc

theorem advance (u t : Token) : Parse.advance.Passes source [u] () t := fun _ _ => rfl

theorem kind {f : TokenKind → Parse α} {k : TokenKind} (hu : u.form = k)
    (hk : ∀ pieces, k ≠ .fstring pieces) (h : (f k).Passes source (u :: us) a t) :
    (Parse.kind >>= f).Passes source (u :: us) a t := fun c hc => by
  have hkind : c.current.kind = k := TokenKind.eq_of_bare (by rw [← hu, hc.head]; rfl) hk
  rw [run_bind_ok (run_kind c), hkind]
  exact h c hc

end Passes

end Parse

/-! ### The layout -/

/-- What tokens can lay out. -/
inductive StmtForm
  | stmt (s : Stmt)
  | block (ss : List Stmt)
  /-- What stands behind the first block of an `if`, up to its end. -/
  | branches (bs : List (Expr × List Stmt)) (otherwise : Option (List Stmt))
  /-- The arms of a `switch`, up to its end. -/
  | arms (cases : List (List Expr × List Stmt)) (otherwise : Option (List Stmt))

/-- The words before a function. -/
def flagKinds (isAsync isNative : Bool) : List TokenKind :=
  (if isAsync then [.keyword .kwAsync] else []) ++ (if isNative then [.keyword .kwNative] else [])

inductive SpellsHead : String → List String → List TokenKind → Prop
  | noParams {name} : SpellsHead name []
      [.keyword .kwFunction, .name name, .mark .leftParen, .mark .rightParen]
  | params {name params ks} : SpellsList SpellsName params ks → SpellsHead name params
      (.keyword .kwFunction :: .name name :: .mark .leftParen :: (ks ++ [.mark .rightParen]))

/-- The step of a counting loop. -/
inductive SpellsStep : Option Expr → List TokenKind → Prop
  | none : SpellsStep none []
  | some {e ks} : Spells (.expr .disjunction e) ks → SpellsStep (some e) (.keyword .kwStep :: ks)

def SpelledBy (e : Expr) (ts : List Token) : Prop :=
  Spells (.expr .disjunction e) (ts.map Token.form)

/-- The word of the language. -/
def Token.Is (t : Token) (w : Keyword) : Prop := t.form = .keyword w

def Token.EndsLine (t : Token) : Prop := t.form = .newline

/-- The tokens lay out the statements of the first form; the second one has them with the lines of
their first tokens. -/
inductive Lays (source : String) : StmtForm → StmtForm → List Token → Prop
  | simple {line kind t ts} : SpellsSimple kind ((t :: ts).map Token.form) →
    Lays source (.stmt (.mk line kind)) (.stmt (.mk t.line kind)) (t :: ts)
  | debug {line e t u ts v} : t.Is .kwDebug → SpelledBy e (ts ++ [v]) → leading ts v = u →
    Lays source (.stmt (.mk line (.debug e (Text.trim (Text.slice source u.start v.stop)))))
      (.stmt (.mk t.line (.debug e (Text.trim (Text.slice source u.start v.stop)))))
      (t :: (ts ++ [v]))
  | ifChain {line e body body' bs bs' o o' t ts u n us vs} : t.Is .kwIf → SpelledBy e ts →
      u.Is .kwThen →
    n.EndsLine → Lays source (.block body) (.block body') us →
    Lays source (.branches bs o) (.branches bs' o') vs →
    Lays source (.stmt (.mk line (.ifChain ((e, body) :: bs) o)))
      (.stmt (.mk t.line (.ifChain ((e, body') :: bs') o'))) (t :: (ts ++ u :: n :: (us ++ vs)))
  | whileLoop {line e body body' t ts n us u} : t.Is .kwWhile → SpelledBy e ts → n.EndsLine →
    Lays source (.block body) (.block body') us → u.Is .kwWend →
    Lays source (.stmt (.mk line (.whileLoop e body))) (.stmt (.mk t.line (.whileLoop e body')))
      (t :: (ts ++ n :: (us ++ [u])))
  | countLoop {line var start stop step body body' t t1 t2 ts t3 us ws n vs u u1} : t.Is .kwFor →
    t1.form = .name var → t2.form = .mark .assign → SpelledBy start ts → t3.Is .kwTo →
    SpelledBy stop us → SpellsStep step (ws.map Token.form) → n.EndsLine →
    Lays source (.block body) (.block body') vs → u.Is .kwNext → u1.form = .name var →
    Lays source (.stmt (.mk line (.countLoop var start stop step body)))
      (.stmt (.mk t.line (.countLoop var start stop step body')))
      (t :: t1 :: t2 :: (ts ++ t3 :: (us ++ (ws ++ n :: (vs ++ [u, u1])))))
  | eachLoop {line var e body body' t t1 t2 t3 ts n us u u1} : t.Is .kwFor → t1.Is .kwEach →
    t2.form = .name var → t3.Is .kwIn → SpelledBy e ts → n.EndsLine →
    Lays source (.block body) (.block body') us → u.Is .kwNext → u1.form = .name var →
    Lays source (.stmt (.mk line (.eachLoop var e body)))
      (.stmt (.mk t.line (.eachLoop var e body')))
      (t :: t1 :: t2 :: t3 :: (ts ++ n :: (us ++ [u, u1])))
  | function {line name params isAsync isNative body body' fs hs n us u} :
    fs.map Token.form = flagKinds isAsync isNative → SpellsHead name params (hs.map Token.form) →
    n.EndsLine → Lays source (.block body) (.block body') us → u.Is .kwEndFunction →
    Lays source (.stmt (.mk line (.function name params isAsync isNative body)))
      (.stmt (.mk (leading fs (leading hs n)).line (.function name params isAsync isNative body')))
      (fs ++ (hs ++ n :: (us ++ [u])))
  | tryCatch {line body body' var handler handler' t n ts u u1 n1 us v} : t.Is .kwTry → n.EndsLine →
    Lays source (.block body) (.block body') ts → u.Is .kwCatch → u1.form = .name var →
    n1.EndsLine → Lays source (.block handler) (.block handler') us → v.Is .kwEndTry →
    Lays source (.stmt (.mk line (.tryBlock body (some (var, handler)) none)))
      (.stmt (.mk t.line (.tryBlock body' (some (var, handler')) none)))
      (t :: n :: (ts ++ u :: u1 :: n1 :: (us ++ [v])))
  | tryFinally {line body body' cleanup cleanup' t n ts u n1 us v} : t.Is .kwTry → n.EndsLine →
    Lays source (.block body) (.block body') ts → u.Is .kwFinally → n1.EndsLine →
    Lays source (.block cleanup) (.block cleanup') us → v.Is .kwEndTry →
    Lays source (.stmt (.mk line (.tryBlock body none (some cleanup))))
      (.stmt (.mk t.line (.tryBlock body' none (some cleanup'))))
      (t :: n :: (ts ++ u :: n1 :: (us ++ [v])))
  | tryBoth {line body body' var handler handler' cleanup cleanup' t n ts u u1 n1 us w n2 ws v} :
    t.Is .kwTry → n.EndsLine → Lays source (.block body) (.block body') ts → u.Is .kwCatch →
    u1.form = .name var → n1.EndsLine → Lays source (.block handler) (.block handler') us →
    w.Is .kwFinally → n2.EndsLine → Lays source (.block cleanup) (.block cleanup') ws →
    v.Is .kwEndTry →
    Lays source (.stmt (.mk line (.tryBlock body (some (var, handler)) (some cleanup))))
      (.stmt (.mk t.line (.tryBlock body' (some (var, handler')) (some cleanup'))))
      (t :: n :: (ts ++ u :: u1 :: n1 :: (us ++ w :: n2 :: (ws ++ [v]))))
  | switchBlock {line e cs cs' o o' t ts n us} : t.Is .kwSwitch → SpelledBy e ts → n.EndsLine →
    Lays source (.arms cs o) (.arms cs' o') us →
    Lays source (.stmt (.mk line (.switchBlock e cs o)))
    (.stmt (.mk t.line (.switchBlock e cs' o')))
      (t :: (ts ++ n :: us))
  | endIf {t} : t.Is .kwEndIf → Lays source (.branches [] none) (.branches [] none) [t]
  | elseBranch {body body' t n ts u} : t.Is .kwElse → n.EndsLine →
    Lays source (.block body) (.block body') ts → u.Is .kwEndIf →
    Lays source (.branches [] (some body)) (.branches [] (some body')) (t :: n :: (ts ++ [u]))
  | elseIf {e body body' bs bs' o o' t ts u n us vs} : t.Is .kwElseIf → SpelledBy e ts →
      u.Is .kwThen →
    n.EndsLine → Lays source (.block body) (.block body') us →
    Lays source (.branches bs o) (.branches bs' o') vs →
    Lays source (.branches ((e, body) :: bs) o) (.branches ((e, body') :: bs') o')
      (t :: (ts ++ u :: n :: (us ++ vs)))
  | endSwitch {t} : t.Is .kwEndSwitch → Lays source (.arms [] none) (.arms [] none) [t]
  | defaultArm {body body' t n ts u} : t.Is .kwDefault → n.EndsLine →
    Lays source (.block body) (.block body') ts → u.Is .kwEndSwitch →
    Lays source (.arms [] (some body)) (.arms [] (some body')) (t :: n :: (ts ++ [u]))
  | caseArm {values body body' cs cs' o o' t ts n us vs} : t.Is .kwCase →
    Spells (.items values) (ts.map Token.form) → n.EndsLine →
    Lays source (.block body) (.block body') us → Lays source (.arms cs o) (.arms cs' o') vs →
    Lays source (.arms ((values, body) :: cs) o) (.arms ((values, body') :: cs') o')
      (t :: (ts ++ n :: (us ++ vs)))
  | nil : Lays source (.block []) (.block []) []
  | cons {s s' ss ss' ts n us} : Lays source (.stmt s) (.stmt s') ts → n.EndsLine →
    Lays source (.block ss) (.block ss') us →
    Lays source (.block (s :: ss)) (.block (s' :: ss')) (ts ++ n :: us)

/-! ### Reading -/

/-- True for the words that a statement with blocks begins with. -/
def TokenKind.opensBlocks : TokenKind → Bool
  | .keyword .kwIf | .keyword .kwWhile | .keyword .kwFor | .keyword .kwFunction | .keyword .kwAsync
  | .keyword .kwNative | .keyword .kwTry | .keyword .kwSwitch => true
  | _ => false

theorem SpellsSimple.begins {kind : StmtKind} (h : SpellsSimple kind ks) :
    ∃ k ls, ks = k :: ls ∧ k.opensBlocks = false := by
  cases h with
  | eval h _ =>
    obtain ⟨k, ls, rfl, hk⟩ := h.begins rfl
    refine ⟨k, ls, rfl, ?_⟩
    cases k with
    | keyword w => cases w <;> first | rfl | cases hk
    | _ => rfl
  | _ => exact ⟨_, _, rfl, rfl⟩

/-- True for the words that close a block or open its next part. -/
def Keyword.closes : Keyword → Bool
  | .kwElseIf | .kwElse | .kwEndIf | .kwWend | .kwNext | .kwEndFunction | .kwCatch | .kwFinally
  | .kwEndTry | .kwCase | .kwDefault | .kwEndSwitch => true
  | _ => false

/-- True for the tokens that a statement can begin with. -/
def TokenKind.beginsStmt : TokenKind → Bool
  | .keyword w => !w.closes
  | k => k.begins .disjunction

def TokenKind.separates : TokenKind → Bool
  | .newline | .mark .colon => true
  | _ => false

def TokenKind.endsBlock (closing : List Keyword) (k : TokenKind) : Bool :=
  k.isEof || closing.any k.isKeyword

theorem TokenKind.beginsStmt_of_begins (h : k.begins .disjunction = true) :
    k.beginsStmt = true := by
  cases k with
  | keyword w => cases w <;> first | rfl | cases h
  | _ => exact h

theorem TokenKind.separates_of_beginsStmt (h : k.beginsStmt = true) : k.separates = false := by
  cases k with
  | mark m => cases m <;> first | rfl | cases h
  | newline => cases h
  | _ => rfl

theorem TokenKind.endsBlock_of_beginsStmt (h : k.beginsStmt = true)
    (hclosing : closing.all Keyword.closes = true) : k.endsBlock closing = false := by
  have hany : closing.any k.isKeyword = false := by
    rw [List.any_eq_false]
    intro w hw hk
    have hcloses := all_eq_true.mp hclosing w hw
    cases k with
    | keyword v =>
      obtain rfl : v = w := by simpa [isKeyword] using hk
      simp [beginsStmt, hcloses] at h
    | _ => cases hk
  rw [endsBlock, hany]
  cases k <;> first | rfl | cases h

theorem TokenKind.separates_of_endsBlock
    (h : k.endsBlock closing = true) : k.separates = false := by
  cases k with
  | newline | mark => simp [endsBlock, isEof, isKeyword] at h
  | _ => rfl

theorem SpellsHead.begins {name : String} {params : List String} {hs : List Token}
    (h : SpellsHead name params (hs.map Token.form)) : ∃ t us, hs = t :: us ∧ t.Is .kwFunction := by
  cases hs with
  | nil => cases h
  | cons t us =>
    refine ⟨t, us, rfl, ?_⟩
    rw [map_cons] at h
    show t.form = _
    generalize t.form = k at h
    generalize us.map Token.form = ks at h
    cases h <;> rfl

theorem Lays.begins {source : String} {s s' : Stmt} {ts : List Token}
    (h : Lays source (.stmt s) (.stmt s') ts) :
    ∃ t us, ts = t :: us ∧ t.form.beginsStmt = true := by
  have hword {t : Token} {w : Keyword} (ht : t.Is w) (hw : w.closes = false) :
      t.form.beginsStmt = true := by
    rw [ht, TokenKind.beginsStmt, hw]
    rfl
  cases h with
  | @simple _ _ t ts h =>
    refine ⟨t, ts, rfl, ?_⟩
    rw [map_cons] at h
    generalize t.form = k at h
    generalize ts.map Token.form = ks at h
    cases h with
    | eval h _ =>
      obtain ⟨_, _, heq, hk⟩ := h.begins rfl
      obtain ⟨rfl, -⟩ := List.cons.inj heq
      exact TokenKind.beginsStmt_of_begins hk
    | _ => rfl
  | @function _ _ _ isAsync isNative _ _ fs hs _ _ _ hflags hhead =>
    -- the first word is a flag, or `function`
    cases fs with
    | nil =>
      obtain ⟨t, hs, rfl, ht⟩ := hhead.begins
      exact ⟨t, _, rfl, hword ht rfl⟩
    | cons t fs =>
      rw [map_cons] at hflags
      refine ⟨t, _, rfl, ?_⟩
      cases isAsync <;> cases isNative <;> first | cases hflags |
        exact hword (List.cons.inj hflags).1 rfl
  | debug ht | ifChain ht | whileLoop ht | countLoop ht | eachLoop ht | tryCatch ht | tryFinally ht
  | tryBoth ht | switchBlock ht => exact ⟨_, _, rfl, hword ht rfl⟩

namespace Parse

variable {source : String} {fuel : Nat} {e : Expr} {ss : List Stmt} {ts : List Token}
  {t u n : Token}
  {w : Keyword} {closing : List Keyword} {c : Cursor} {k : TokenKind}

theorem passes_expr (h : SpelledBy e ts) (hfuel : 16 * weight (ts.map Token.form) + 9 ≤ fuel)
    (ht : t.form = k) (hk : k.isEdge = true) : (parseExpr fuel).Passes source ts e t :=
  (h.takes hfuel (Level.ends_of_edge hk _)).passes rfl ht

theorem passes_expect {wanted : String} (ht : t.Is w) :
    (expectKeyword w wanted).Passes source [t] () u :=
  (Takes.expect_keyword w wanted _).passes (congrArg (fun k => [k]) ht) rfl

theorem passes_accept (ht : t.Is w) : (acceptKeyword w).Passes source [t] true u :=
  (Takes.accept_keyword w _).passes (congrArg (fun k => [k]) ht) rfl

theorem passes_not (ht : t.form = k) (hk : k.isKeyword w = false) :
    (acceptKeyword w).Passes source [] false t :=
  (Takes.no_keyword hk).passes rfl ht

theorem passes_name {s : String} (ht : t.form = .name s) : expectName.Passes source [t] s u :=
  (Takes.expect_name s _).passes (congrArg (fun k => [k]) ht) rfl

theorem passes_atEnd (hn : n.EndsLine) : atTerminator.Passes source [] true n :=
  (Takes.at_terminator .newline).passes rfl hn

theorem pastSeparators_congr (c c' : Cursor) (h : c.source = c'.source) (p t : Token)
    (ts : List Token) : c.pastSeparators p t ts = c'.pastSeparators p t ts := by
  induction ts generalizing p t with
  | nil => simp only [Cursor.pastSeparators, h]
  | cons u us ih =>
    simp only [Cursor.pastSeparators, h]
    split
    · exact ih _ _
    · exact ih _ _
    · rfl

theorem separates_here (hc : c.current.form.separates = false) :
    skipSeparators.run c = .ok ((), c) := by
  refine run_skipSeparators ?_ ?_ <;> intro hkind <;> rw [Token.form, hkind] at hc <;> cases hc

/-- Behind the end of a line, the reader goes on with the next one. -/
theorem passes_separators (hn : n.EndsLine) (ht : t.form.separates = false) :
    skipSeparators.Passes source [n] () t := by
  rintro ⟨text, previous, current, rest⟩ ⟨-, us, hrest⟩
  obtain ⟨rfl, rfl⟩ := List.cons.inj hrest
  have hkind : n.kind = .newline := TokenKind.eq_of_bare hn nofun
  show Except.ok ((), Cursor.pastSeparators _ previous n (t :: us)) = _
  rw [Cursor.pastSeparators, hkind]
  have hcongr : Cursor.pastSeparators ⟨text, previous, n, t :: us⟩ n t us =
      Cursor.pastSeparators ⟨text, n, t, us⟩ n t us := by
    exact pastSeparators_congr _ _ (by rfl) n t us
  have hhere :
      (Except.ok ((), Cursor.pastSeparators ⟨text, n, t, us⟩ n t us) : Except SyntaxError _) = _ :=
    separates_here ht
  rw [← hcongr] at hhere
  exact hhere

theorem passes_endLine (hn : n.EndsLine) (ht : t.form.separates = false) :
    expectTerminator.Passes source [n] () t :=
  .after (passes_atEnd hn) (passes_separators hn ht)

end Parse

/-- The tokens are none, or a statement begins with them. -/
def OpensBlock (ts : List Token) : Prop := ∀ t ∈ ts.head?, t.form.beginsStmt = true

theorem OpensBlock.separates {t : Token} (h : OpensBlock ts)
    (ht : t.form.endsBlock closing = true) : (leading ts t).form.separates = false := by
  cases ts with
  | nil => exact TokenKind.separates_of_endsBlock ht
  | cons u us => exact TokenKind.separates_of_beginsStmt (h u rfl)

theorem Lays.opensBlock {ss ss' : List Stmt}
    (h : Lays source (.block ss) (.block ss') ts) : OpensBlock ts := by
  cases h with
  | nil => nofun
  | cons hs _ _ =>
    obtain ⟨u, us, rfl, hu⟩ := hs.begins
    rintro _ ⟨⟩
    exact hu

namespace StmtForm

/-- Enough fuel to read what the tokens lay out. -/
def fuel : StmtForm → List Token → Nat
  | stmt _, ts => 16 * TaskBasic.weight (ts.map Token.form) + 12
  | block _, ts => 16 * TaskBasic.weight (ts.map Token.form) + 1
  | branches _ _, ts | arms _ _, ts => 16 * TaskBasic.weight (ts.map Token.form)

def Read (source : String) (ts : List Token) (fuel : Nat) : StmtForm → Prop
  | stmt s => ∀ t, t.EndsLine → (statement fuel).Passes source ts s t
  | block ss => ∀ closing done t, closing.all Keyword.closes = true →
      t.form.endsBlock closing = true →
      (Parse.block fuel closing done).Passes source ts (done.reverse ++ ss) t
  | branches bs o => ∀ done t, (Parse.branches fuel done).Passes source ts (done.reverse ++ bs, o) t
  | arms cs o => ∀ done t, (Parse.arms fuel done none).Passes source ts (done.reverse ++ cs, o) t

/-- The parser reads what the form says, if it is given enough fuel. -/
def Readable (source : String) (φ : StmtForm) (ts : List Token) : Prop :=
  ∀ ⦃fuel : Nat⦄, φ.fuel ts ≤ fuel → φ.Read source ts fuel

theorem exists_fuel {φ : StmtForm} {t : Token} {fuel : Nat} (h : φ.fuel (t :: ts) ≤ fuel) :
    ∃ f, fuel = f + 2 ∧ 16 * TaskBasic.weight (ts.map Token.form) + 14 ≤ f := by
  have hweight := t.form.one_le_weight
  refine ⟨fuel - 2, ?_⟩
  cases φ <;> simp only [StmtForm.fuel, map_cons, weight_cons] at h <;> omega

end StmtForm

/-- A block behind the end of a line, where no separator stands before its first statement. -/
structure BodyBehind (source : String) (n : Token) (ts : List Token) (ss : List Stmt) : Prop where
  newline : n.EndsLine
  opens : OpensBlock ts
  read : (StmtForm.block ss).Readable source ts

theorem TokenKind.endsBlock_bare (closing : List Keyword) (k : TokenKind) :
    k.bare.endsBlock closing = k.endsBlock closing := by
  cases k <;> rfl

namespace Parse

open StmtForm (exists_fuel stmt)

variable {β : Type} {source : String} {fuel : Nat} {e : Expr} {s : Stmt} {ss body : List Stmt}
  {ts us vs : List Token} {t u v n : Token} {w : Keyword} {closing : List Keyword} {line : Nat}
variable {kind : StmtKind} {ws : List Token} {name : String} {params : List String}
  {cleanup : List Stmt} {n1 : Token}

theorem readable_nil : (StmtForm.block []).Readable source [] := by
  intro fuel hfuel closing done t _ ht c hc
  obtain ⟨fuel, rfl⟩ : ∃ f, fuel = f + 1 := ⟨fuel - 1, by simp only [StmtForm.fuel] at hfuel; omega⟩
  have hcurrent : c.current.kind.endsBlock closing = true := by
    rw [← TokenKind.endsBlock_bare, hc.head]
    exact ht
  have hseparates : c.current.form.separates = false := by
    rw [hc.head]
    exact TokenKind.separates_of_endsBlock ht
  rw [block, run_bind_ok (separates_here hseparates), run_bind_ok (run_kind c)]
  show (if c.current.kind.endsBlock closing = true then _ else _ : Parse (List Stmt)).run c = _
  rw [if_pos hcurrent, append_nil]
  rfl

theorem readable_cons {u : Token} {us : List Token} (hu : u.form.beginsStmt = true)
    (hs : (stmt s).Readable source (u :: us)) (hss : BodyBehind source n vs ss) :
    (StmtForm.block (s :: ss)).Readable source (u :: us ++ n :: vs) := by
  intro fuel hfuel closing done t hclosing ht c hc
  have hweight := n.form.one_le_weight
  simp only [StmtForm.fuel, map_append, map_cons, weight_append, weight_cons] at hfuel
  obtain ⟨fuel, rfl⟩ : ∃ f, fuel = f + 1 := ⟨fuel - 1, by omega⟩
  have hhead : c.current = u := hc.head
  have hcurrent : ¬c.current.kind.endsBlock closing = true := by
    rw [← TokenKind.endsBlock_bare, hhead]
    exact Bool.eq_false_iff.mp (TokenKind.endsBlock_of_beginsStmt hu hclosing)
  have hseparates : c.current.form.separates = false := by
    rw [hhead]
    exact TokenKind.separates_of_beginsStmt hu
  have hnext := hss.opens.separates ht
  rw [block, run_bind_ok (separates_here hseparates), run_bind_ok (run_kind c)]
  show (if c.current.kind.endsBlock closing = true then _ else _ : Parse (List Stmt)).run c = _
  rw [if_neg hcurrent]
  have hrest := @hss.read fuel (by simp only [StmtForm.fuel]; omega) closing
    (s :: done) t hclosing ht
  rw [reverse_cons, append_assoc] at hrest
  have hstmt : (statement fuel).Passes source (u :: us) s (leading (n :: vs) t) :=
    hs (by simp only [StmtForm.fuel, map_cons, weight_cons]; omega) n hss.newline
  exact Passes.bind hstmt (.cons (passes_endLine hss.newline hnext) hrest) c hc

/-- A reader that begins with the separators reads behind the end of a line what it would read on
the next one. -/
theorem Passes.newline {α : Type} {x : Parse α} {a : α} (hx : ∃ y, x = skipSeparators >>= y)
    (hn : n.EndsLine)
    (hnext : (leading ts t).form.separates = false) (h : x.Passes source ts a t) :
    x.Passes source (n :: ts) a t := by
  obtain ⟨y, hx⟩ := hx
  intro c hc
  have hskip : skipSeparators.run c = .ok ((), c.advance) :=
    passes_separators hn hnext c (Cursor.Has.before hc)
  have hagain : skipSeparators.run c.advance = .ok ((), c.advance) :=
    separates_here (by rw [hc.advance.head]; exact hnext)
  have hrest := h c.advance hc.advance
  rw [hx, run_bind_ok hagain] at hrest
  rw [hx, run_bind_ok hskip]
  exact hrest

theorem passes_block {f : List Stmt → Parse β} {b : β} (h : BodyBehind source n ts ss)
    (hfuel : 16 * weight (ts.map Token.form) + 1 ≤ fuel)
    (hclosing : closing.all Keyword.closes = true)
    (ht : (leading us t).form = k) (hk : k.endsBlock closing = true)
    (hf : (f ss).Passes source us b t) :
    (block fuel closing [] >>= f).Passes source (n :: (ts ++ us)) b t := by
  obtain ⟨fuel, rfl⟩ : ∃ g, fuel = g + 1 := ⟨fuel - 1, by omega⟩
  subst ht
  exact .bind (.newline ⟨_, by rw [block]⟩ h.newline (h.opens.separates hk)
    (h.read hfuel closing [] _ hclosing hk)) hf

theorem passes_statement {x : Parse StmtKind} (hx : x.Passes source ts kind t) :
    (x >>= fun kind => pure (Stmt.mk line kind)).Passes source ts (.mk line kind) t :=
  .last hx rfl

theorem readable_while {body : List Stmt} {e : Expr} (ht : t.Is .kwWhile) (he : SpelledBy e ts)
    (hbody : BodyBehind source n us body)
    (hu : u.Is .kwWend) :
    (stmt (.mk t.line (.whileLoop e body))).Readable source (t :: (ts ++ n :: (us ++ [u]))) := by
  intro fuel hfuel v hv
  obtain ⟨fuel, rfl, hle⟩ := exists_fuel hfuel
  simp only [map_cons, map_append, weight_cons, weight_append] at hle
  refine .line
    (.kind ht nofun (.cons (.advance _ _) (.bind (passes_expr he (by omega) hbody.newline rfl) ?_)))
  exact passes_block hbody (by omega) rfl hu rfl (.last (passes_expect hu) rfl)

theorem readable_ifChain {body : List Stmt}
    (ht : t.Is .kwIf) (he : SpelledBy e ts) (hu : u.Is .kwThen)
    (hbody : BodyBehind source n us body)
    (hends : ∀ v, (leading vs v).form.endsBlock [.kwElseIf, .kwElse, .kwEndIf] = true)
    (hrest : (StmtForm.branches bs o).Readable source vs) :
    (stmt (.mk t.line (.ifChain ((e, body) :: bs) o))).Readable source
      (t :: (ts ++ u :: n :: (us ++ vs))) := by
  intro fuel hfuel v hv
  obtain ⟨fuel, rfl, hle⟩ := exists_fuel hfuel
  simp only [map_cons, map_append, weight_cons, weight_append] at hle
  refine .line (.kind ht nofun (.cons (.advance _ _) (passes_statement ?_)))
  refine .bind (passes_expr he (by omega) hu rfl)
    (.cons (passes_accept hu) (.after (passes_atEnd hbody.newline) ?_))
  exact passes_block hbody (by omega) rfl rfl (hends _)
    (.last (hrest (by simp only [StmtForm.fuel]; omega) _ _) rfl)

/-! #### Branches -/

theorem passes_atKeyword : (atKeyword w).Passes source [] (t.form.isKeyword w) t := fun c hc => by
  rw [run_atKeyword, ← TokenKind.isKeyword_bare, hc.head]
  rfl

theorem passes_elseIf (ht : t.Is .kwElseIf) : acceptElseIf.Passes source [t] true u :=
  .last (passes_accept ht) rfl

theorem passes_noElseIf (ht : t.Is .kwEndIf) : acceptElseIf.Passes source [] false t := by
  have hat : (atKeyword .kwElse).Passes source [] (t.form.isKeyword .kwElse) t := passes_atKeyword
  rw [ht] at hat
  exact .after (passes_not ht rfl) (.last hat rfl)

theorem acceptElseIf_else {c : Cursor} (ht : t.Is .kwElse) (hn : n.EndsLine)
    (hc : c.Has source (t :: n :: us) v) : acceptElseIf.run c = .ok (false, c) := by
  have hkind : c.current.kind = .keyword .kwElse :=
    TokenKind.eq_of_bare (by rw [← ht, hc.head]; rfl) nofun
  have hnext : ∃ rest, c.rest = n :: rest := by
    obtain ⟨-, rest, hrest⟩ := hc
    exact ⟨us ++ [v] ++ rest, (List.cons.inj hrest).2.symm⟩
  obtain ⟨rest, hrest⟩ := hnext
  have hnewline : n.kind = .newline := TokenKind.eq_of_bare hn nofun
  have hno : (acceptKeyword .kwElseIf).run c = .ok (false, c) :=
    run_acceptKeyword_not (by rw [hkind]; rfl)
  rw [acceptElseIf, run_bind_ok hno]
  show (atKeyword .kwElse >>= _).run c = _
  rw [run_bind_ok (run_atKeyword _ c), hkind]
  show (get >>= _ : Parse Bool).run c = _
  rw [run_bind_ok (show (get : Parse Cursor).run c = .ok (c, c) from rfl), hrest]
  show (if n.kind.isKeyword .kwIf then _ else _ : Parse Bool).run c = _
  rw [hnewline]
  rfl

theorem readable_endIf (ht : t.Is .kwEndIf) : (StmtForm.branches [] none).Readable source [t] := by
  intro fuel hfuel done v
  obtain ⟨fuel, rfl, hle⟩ := exists_fuel hfuel
  rw [append_nil]
  exact .after (passes_noElseIf ht) (.after (passes_not ht rfl) (.last (passes_expect ht) rfl))

theorem readable_else (ht : t.Is .kwElse) (hbody : BodyBehind source n ts body)
    (hu : u.Is .kwEndIf) :
    (StmtForm.branches [] (some body)).Readable source (t :: n :: (ts ++ [u])) := by
  intro fuel hfuel done v c hc
  obtain ⟨fuel, rfl, hle⟩ := exists_fuel hfuel
  simp only [map_cons, map_append, weight_cons, weight_append] at hle
  rw [branches, run_bind_ok (acceptElseIf_else ht hbody.newline hc), append_nil]
  refine Passes.cons (passes_accept ht) ?_ c hc
  exact passes_block hbody (by omega) rfl hu rfl (.last (passes_expect hu) rfl)

theorem readable_elseIf
    (ht : t.Is .kwElseIf) (he : SpelledBy e ts) (hu : u.Is .kwThen)
    (hbody : BodyBehind source n us body)
    (hends : ∀ v, (leading vs v).form.endsBlock [.kwElseIf, .kwElse, .kwEndIf] = true)
    (hrest : (StmtForm.branches bs o).Readable source vs) :
    (StmtForm.branches ((e, body) :: bs) o).Readable source
      (t :: (ts ++ u :: n :: (us ++ vs))) := by
  intro fuel hfuel done v
  obtain ⟨fuel, rfl, hle⟩ := exists_fuel hfuel
  simp only [map_cons, map_append, weight_cons, weight_append] at hle
  have hbranches := @hrest (fuel + 1) (by simp only [StmtForm.fuel]; omega) ((e, body) :: done) v
  rw [reverse_cons, append_assoc] at hbranches
  refine .cons (passes_elseIf ht)
    (.bind (passes_expr he (by omega) hu rfl) (.cons (passes_accept hu) ?_))
  exact passes_block hbody (by omega) rfl rfl (hends v) hbranches

/-! #### Loops -/

theorem passes_next (ht : t.Is .kwNext) (hu : u.form = .name var) :
    (next var).Passes source [t, u] () v := by
  refine .cons (passes_expect ht) (.kind hu nofun ?_)
  show (if var == var then _ else _ : Parse Unit).Passes source [u] () v
  rw [if_pos (beq_self_eq_true var)]
  exact .advance _ _

theorem passes_assign {wanted : String} (ht : t.form = .mark .assign) :
    (expectMark .assign wanted).Passes source [t] () u :=
  (Takes.expect_mark _ wanted _).passes (congrArg (fun k => [k]) ht) rfl

theorem step_edge {step : Option Expr} (h : SpellsStep step (ws.map Token.form))
    (hn : n.EndsLine) (us : List Token) (v : Token) :
    (leading (ws ++ n :: us) v).form.isEdge = true := by
  cases ws with
  | nil => exact congrArg TokenKind.isEdge hn
  | cons w ws =>
    rw [map_cons] at h
    show w.form.isEdge = true
    generalize w.form = k at h
    generalize ws.map Token.form = ks at h
    cases h
    rfl

theorem readable_countLoop {start stop : Expr} {step : Option Expr}
    {t1 t2 t3 : Token} (ht : t.Is .kwFor) (ht1 : t1.form = .name var)
    (ht2 : t2.form = .mark .assign) (hstart : SpelledBy start ts) (ht3 : t3.Is .kwTo)
    (hstop : SpelledBy stop us) (hstep : SpellsStep step (ws.map Token.form))
    (hbody : BodyBehind source n vs body) (hu : u.Is .kwNext) (hu1 : u1.form = .name var) :
    (stmt (.mk t.line (.countLoop var start stop step body))).Readable source
      (t :: t1 :: t2 :: (ts ++ t3 :: (us ++ (ws ++ n :: (vs ++ [u, u1]))))) := by
  intro fuel hfuel v hv
  obtain ⟨fuel, rfl, hle⟩ := exists_fuel hfuel
  simp only [map_cons, map_append, weight_cons, weight_append] at hle
  have htail {f : Unit → Parse StmtKind} {kind : StmtKind} (hf : f () = pure kind) :
      (next var >>= f).Passes source [u, u1] kind v := .last (passes_next hu hu1) hf
  refine .line (.kind ht nofun (.cons (.advance _ _) (passes_statement ?_)))
  refine .after (passes_not ht1 rfl) (.cons (passes_name ht1) (.cons (passes_assign ht2) ?_))
  refine .bind (passes_expr hstart (by omega) ht3 rfl) (.cons (passes_expect ht3) ?_)
  refine .bind (passes_expr hstop (by omega) rfl (step_edge hstep hbody.newline _ _)) ?_
  cases ws with
  | nil =>
    cases hstep
    refine .after (passes_not hbody.newline rfl) (.after (.pure _ _) ?_)
    exact passes_block hbody (by omega) rfl hu rfl (htail rfl)
  | cons w ws =>
    simp only [map_cons, weight_cons] at hle hstep
    have h2 := w.form.one_le_weight
    generalize hw : w.form = k at hstep
    generalize hws : ws.map Token.form = ks at hstep
    cases hstep with
    | some hks =>
    rw [← hws] at hks
    refine .cons (passes_accept hw) ?_
    refine .bind (.map (passes_expr hks (by omega) hbody.newline rfl)) ?_
    exact passes_block hbody (by omega) rfl hu rfl (htail rfl)

theorem readable_eachLoop {t1 t2 t3 : Token} (ht : t.Is .kwFor)
    (ht1 : t1.Is .kwEach) (ht2 : t2.form = .name var) (ht3 : t3.Is .kwIn) (he : SpelledBy e ts)
    (hbody : BodyBehind source n us body) (hu : u.Is .kwNext) (hu1 : u1.form = .name var) :
    (stmt (.mk t.line (.eachLoop var e body))).Readable source
      (t :: t1 :: t2 :: t3 :: (ts ++ n :: (us ++ [u, u1]))) := by
  intro fuel hfuel v hv
  obtain ⟨fuel, rfl, hle⟩ := exists_fuel hfuel
  simp only [map_cons, map_append, weight_cons, weight_append] at hle
  refine .line (.kind ht nofun (.cons (.advance _ _) (passes_statement ?_)))
  refine .cons (passes_accept ht1) (.cons (passes_name ht2) (.cons (passes_expect ht3) ?_))
  refine .bind (passes_expr he (by omega) hbody.newline rfl) ?_
  exact passes_block hbody (by omega) rfl hu rfl (.last (passes_next hu hu1) rfl)

/-! #### Functions -/

theorem takes_flags {fuel : Nat} (isAsync isNative : Bool) :
    (functionFlags (fuel + 3) false false).Takes (flagKinds isAsync isNative) (isAsync, isNative)
      (.keyword .kwFunction) := by
  have hend (n : Nat) (a b : Bool) :
      (functionFlags (n + 1) a b).Takes [] (a, b) (.keyword .kwFunction) :=
    .after (.no_keyword rfl) (.last (.no_keyword rfl) rfl)
  have hnative (n : Nat) (a : Bool) :
      (functionFlags (n + 2) a false).Takes [.keyword .kwNative] (a, true) (.keyword .kwFunction) :=
    .after (.no_keyword rfl) (.cons (.accept_keyword _ _) (hend n a true))
  cases isAsync <;> cases isNative
  · exact hend _ _ _
  · exact hnative _ _
  · exact .cons (.accept_keyword _ _) (hend _ _ _)
  · exact .cons (.accept_keyword _ _) (hnative _ _)

theorem takes_head (h : SpellsHead name params ks) (hfuel : 16 * weight ks ≤ fuel) :
    (functionHead fuel).Takes ks (name, params) k := by
  cases h with
  | noParams =>
    refine .cons (.expect_keyword _ _ _) (.cons (.expect_name _ _) (.cons (.expect_mark _ _ _) ?_))
    exact .after (.at_mark _ _) (.after (.pure _ _) (.last (.expect_mark _ _ _) rfl))
  | @params _ ks h =>
    simp only [weight_append, weight_cons, weight_nil, TokenKind.weight] at hfuel
    refine .cons (.expect_keyword _ _ _) (.cons (.expect_name _ _) (.cons (.expect_mark _ _ _) ?_))
    have hfirst : (atMark .rightParen).Takes [] false (firstOr (ks ++ [.mark .rightParen]) k) := by
      cases h with
      | one hname | cons hname => cases hname; exact .at_mark _ _
    exact .after hfirst
      (.bind (takes_names h rfl rfl rfl (by omega)) (.last (.expect_mark _ _ _) rfl))

theorem readable_function {isAsync isNative : Bool}
    {fs hs : List Token} (hflags : fs.map Token.form = flagKinds isAsync isNative)
    (hhead : SpellsHead name params (hs.map Token.form))
    (hbody : BodyBehind source n us body) (hu : u.Is .kwEndFunction) :
    (stmt (.mk (leading fs (leading hs n)).line
      (.function name params isAsync isNative body))).Readable source
        (fs ++ (hs ++ n :: (us ++ [u]))) := by
  intro fuel hfuel v hv
  obtain ⟨t, hs, rfl, ht⟩ := hhead.begins
  have h1 := t.form.one_le_weight
  simp only [StmtForm.fuel, map_cons, map_append, weight_cons, weight_append] at hfuel
  obtain ⟨fuel, rfl⟩ : ∃ f, fuel = f + 4 := ⟨fuel - 4, by omega⟩
  have hrest :
      ((functionFlags (fuel + 3) false false) >>= fun p => functionHead (fuel + 3) >>= fun q =>
      block (fuel + 3) [.kwEndFunction] [] >>= fun body =>
        expectKeyword .kwEndFunction "'end function'" >>= fun _ =>
        pure (Stmt.mk (leading fs t).line (.function q.1 q.2 p.1 p.2 body))).Passes source
      (fs ++ (t :: hs ++ n :: (us ++ [u])))
        (.mk (leading fs t).line (.function name params isAsync isNative body)) v := by
    refine .bind ((takes_flags _ _).passes hflags ht)
      (.bind ((takes_head hhead ?_).passes rfl rfl) ?_)
    · simp only [map_cons, weight_cons]
      omega
    · exact passes_block hbody (by omega) rfl hu rfl (.last (passes_expect hu) rfl)
  refine .line ?_
  rw [leading_append, cons_append, leading_cons]
  -- the statement begins with a flag or with `function`
  cases fs with
  | nil => exact .kind ht nofun hrest
  | cons a fs =>
    cases isAsync <;> cases isNative <;> first | cases hflags |
      exact .kind (List.cons.inj hflags).1 nofun hrest

/-! #### Guarded blocks -/

/-- The block that always runs, behind its word. -/
theorem passes_cleanup {f : Option (List Stmt) → Parse β} {b : β}
    (h : BodyBehind source n ts cleanup) (hfuel : 16 * weight (ts.map Token.form) + 1 ≤ fuel)
    (hu : u.Is .kwEndTry) (hf : (f (some cleanup)).Passes source [u] b t) :
    ((some <$> block fuel [.kwEndTry] []) >>= f).Passes source (n :: (ts ++ [u])) b t := by
  rw [map_eq_pure_bind, bind_assoc]
  exact passes_block h hfuel rfl hu rfl (.after (.pure _ _) hf)

theorem readable_tryCatch {handler : List Stmt} (ht : t.Is .kwTry)
    (hbody : BodyBehind source n ts body) (hu : u.Is .kwCatch) (hu1 : u1.form = .name var)
    (hhandler : BodyBehind source n1 us handler) (hv : v.Is .kwEndTry) :
    (stmt (.mk t.line (.tryBlock body (some (var, handler)) none))).Readable source
      (t :: n :: (ts ++ u :: u1 :: n1 :: (us ++ [v]))) := by
  intro fuel hfuel z hz
  obtain ⟨fuel, rfl, hle⟩ := exists_fuel hfuel
  simp only [map_cons, map_append, weight_cons, weight_append] at hle
  refine .line (.kind ht nofun (.cons (.advance _ _) (passes_statement ?_)))
  refine passes_block hbody (by omega) rfl hu rfl ?_
  refine .cons (passes_accept hu) (.cons (passes_name hu1) ?_)
  refine passes_block hhandler (by omega) rfl hv rfl (.after (.pure _ _) ?_)
  exact .after (passes_not hv rfl) (.after (.pure _ _) (.last (passes_expect hv) rfl))

theorem readable_tryFinally (ht : t.Is .kwTry) (hbody : BodyBehind source n ts body)
    (hu : u.Is .kwFinally)
    (hcleanup : BodyBehind source n1 us cleanup) (hv : v.Is .kwEndTry) :
    (stmt (.mk t.line (.tryBlock body none (some cleanup)))).Readable source
      (t :: n :: (ts ++ u :: n1 :: (us ++ [v]))) := by
  intro fuel hfuel z hz
  obtain ⟨fuel, rfl, hle⟩ := exists_fuel hfuel
  simp only [map_cons, map_append, weight_cons, weight_append] at hle
  refine .line (.kind ht nofun (.cons (.advance _ _) (passes_statement ?_)))
  refine passes_block hbody (by omega) rfl hu rfl ?_
  refine .after (passes_not hu rfl) (.after (.pure _ _) (.cons (passes_accept hu) ?_))
  exact passes_cleanup hcleanup (by omega) hv (.last (passes_expect hv) rfl)

theorem readable_tryBoth {handler : List Stmt} {w n2 : Token} (ht : t.Is .kwTry) (hbody :
    BodyBehind source n ts body) (hu : u.Is .kwCatch)
    (hu1 : u1.form = .name var) (hhandler : BodyBehind source n1 us handler) (hw : w.Is .kwFinally)
    (hcleanup : BodyBehind source n2 ws cleanup) (hv : v.Is .kwEndTry) :
    (stmt (.mk t.line (.tryBlock body (some (var, handler)) (some cleanup)))).Readable source
      (t :: n :: (ts ++ u :: u1 :: n1 :: (us ++ w :: n2 :: (ws ++ [v])))) := by
  intro fuel hfuel z hz
  obtain ⟨fuel, rfl, hle⟩ := exists_fuel hfuel
  simp only [map_cons, map_append, weight_cons, weight_append] at hle
  refine .line (.kind ht nofun (.cons (.advance _ _) (passes_statement ?_)))
  refine passes_block hbody (by omega) rfl hu rfl ?_
  refine .cons (passes_accept hu) (.cons (passes_name hu1) ?_)
  refine passes_block hhandler (by omega) rfl hw rfl (.after (.pure _ _) ?_)
  refine .cons (passes_accept hw) ?_
  exact passes_cleanup hcleanup (by omega) hv (.last (passes_expect hv) rfl)

/-! #### Arms -/

theorem passes_here (ht : t.Is w) : skipSeparators.Passes source [] () t := fun c hc =>
  separates_here (by rw [hc.head]; exact congrArg TokenKind.separates ht)

theorem passes_endArms (ht : t.Is .kwEndSwitch) (fuel : Nat) (done : List (List Expr × List Stmt))
    (o : Option (List Stmt)) (u : Token) :
    (arms (fuel + 1) done o).Passes source [t] (done.reverse, o) u := by
  exact .after (passes_here ht) (.after (passes_not ht rfl)
    (.after (passes_not ht rfl) (.last (passes_expect ht) rfl)))

theorem readable_endSwitch (ht : t.Is .kwEndSwitch) :
    (StmtForm.arms [] none).Readable source [t] := by
  intro fuel hfuel done v
  obtain ⟨fuel, rfl, hle⟩ := exists_fuel hfuel
  rw [append_nil]
  exact passes_endArms ht (fuel + 1) done none v

theorem readable_default (ht : t.Is .kwDefault) (hbody : BodyBehind source n ts body)
    (hu : u.Is .kwEndSwitch) :
    (StmtForm.arms [] (some body)).Readable source (t :: n :: (ts ++ [u])) := by
  intro fuel hfuel done v
  obtain ⟨fuel, rfl, hle⟩ := exists_fuel hfuel
  simp only [map_cons, map_append, weight_cons, weight_append] at hle
  rw [append_nil]
  refine .after (passes_here ht) (.after (passes_not ht rfl) (.cons (passes_accept ht) ?_))
  exact passes_block hbody (by omega) rfl hu rfl (passes_endArms hu fuel done _ v)

theorem readable_case {values : List Expr}
    (ht : t.Is .kwCase) (hvalues : Spells (.items values) (ts.map Token.form))
    (hbody : BodyBehind source n us body)
    (hends : ∀ v, (leading vs v).form.endsBlock [.kwCase, .kwDefault, .kwEndSwitch] = true)
    (hrest : (StmtForm.arms cs o).Readable source vs) :
    (StmtForm.arms ((values, body) :: cs) o).Readable source (t :: (ts ++ n :: (us ++ vs))) := by
  intro fuel hfuel done v
  obtain ⟨fuel, rfl, hle⟩ := exists_fuel hfuel
  simp only [map_cons, map_append, weight_cons, weight_append] at hle
  have harms := @hrest (fuel + 1) (by simp only [StmtForm.fuel]; omega) ((values, body) :: done) v
  rw [reverse_cons, append_assoc] at harms
  have hitems : (parseExprList (fuel + 1) []).Takes (ts.map Token.form) values .newline :=
    hvalues.takes_items (by omega) (Level.ends_of_edge rfl _) rfl
  refine .after (passes_here ht)
    (.cons (passes_accept ht) (.bind (hitems.passes rfl hbody.newline) ?_))
  exact passes_block hbody (by omega) rfl rfl (hends v) harms

theorem readable_switch (ht : t.Is .kwSwitch)
    (he : SpelledBy e ts) (hn : n.EndsLine)
    (hends : ∀ v, (leading us v).form.endsBlock [.kwCase, .kwDefault, .kwEndSwitch] = true)
    (harms : (StmtForm.arms cs o).Readable source us) :
    (stmt (.mk t.line (.switchBlock e cs o))).Readable source (t :: (ts ++ n :: us)) := by
  intro fuel hfuel v hv
  obtain ⟨fuel, rfl, hle⟩ := exists_fuel hfuel
  simp only [map_cons, map_append, weight_cons, weight_append] at hle
  refine .line (.kind ht nofun (.cons (.advance _ _) (.bind (passes_expr he (by omega) hn rfl) ?_)))
  have hrest := @harms (fuel + 1) (by simp only [StmtForm.fuel]; omega) [] v
  exact .last (.newline ⟨_, by rw [arms]⟩ hn (TokenKind.separates_of_endsBlock (hends v)) hrest) rfl

/-! #### Statements of one line -/

/-- A statement that holds no other one is read as such. -/
theorem statement_simple {c : Cursor} {fuel : Nat}
    (h : SpellsSimple kind ks) (hc : c.Sees ks k) : (statement (fuel + 1)).run c =
      (simple fuel >>= fun kind => pure (Stmt.mk c.current.line kind)).run c := by
  rw [statement, run_bind_ok (run_line c), run_bind_ok (run_kind c)]
  obtain ⟨l, ls, rfl, hl⟩ := h.begins
  rw [← hc.head] at hl
  cases hkind : c.current.kind with
  | keyword w =>
    rw [hkind] at hl
    cases w <;> first | rfl | cases hl
  | _ => rfl

theorem readable_simple (h : SpellsSimple kind ((t :: ts).map Token.form)) :
    (stmt (.mk t.line kind)).Readable source (t :: ts) := by
  intro fuel hfuel v hv c hc
  simp only [StmtForm.fuel] at hfuel
  obtain ⟨fuel, rfl⟩ : ∃ f, fuel = f + 1 := ⟨fuel - 1, by omega⟩
  rw [statement_simple h hc.sees, hc.head]
  exact passes_statement ((h.takes (by omega)).passes rfl hv) c hc

theorem readable_debug {u : Token} (ht : t.Is .kwDebug) (he : SpelledBy e (ts ++ [v]))
    (hu : leading ts v = u) :
    (stmt (.mk t.line (.debug e (Text.trim (Text.slice source u.start v.stop))))).Readable source
      (t :: (ts ++ [v])) := by
  intro fuel hfuel z hz
  obtain ⟨fuel, rfl, hle⟩ := exists_fuel hfuel
  refine .line (.kind ht nofun (passes_statement (.kind ht nofun (.cons (.advance _ _) ?_))))
  intro c hc
  have hexpr : (parseExpr (fuel + 1)).run c = .ok (e, c.skip (ts ++ [v]).length) :=
    passes_expr he (by omega) hz rfl c hc
  have hget (c : Cursor) : (get : Parse Cursor).run c = .ok (c, c) := rfl
  have hsource : (c.skip (ts ++ [v]).length).source = source :=
    hc.skip_source
  rw [debugging, run_bind_ok (hget c), run_bind_ok hexpr, run_bind_ok (hget _), hsource,
    hc.previous, hc.head, leading_append, leading_cons, hu]
  rfl

end Parse

theorem Lays.branches_begin {bs' : List (Expr × List Stmt)}
    {o' : Option (List Stmt)} (h : Lays source (.branches bs o) (.branches bs' o') ts)
    (t : Token) : (leading ts t).form.endsBlock [.kwElseIf, .kwElse, .kwEndIf] = true := by
  cases h with
  | endIf ht | elseBranch ht | elseIf ht =>
    rw [leading_cons, ht]
    rfl

theorem Lays.arms_begin {cs' : List (List Expr × List Stmt)}
    {o' : Option (List Stmt)} (h : Lays source (.arms cs o) (.arms cs' o') ts)
    (t : Token) : (leading ts t).form.endsBlock [.kwCase, .kwDefault, .kwEndSwitch] = true := by
  cases h with
  | endSwitch ht | defaultArm ht | caseArm ht =>
    rw [leading_cons, ht]
    rfl

/-- The parser reads what is laid out. -/
theorem Lays.read {φ φ' : StmtForm} (h : Lays source φ φ' ts) : φ'.Readable source ts := by
  induction h with
  | simple h => exact readable_simple h
  | debug ht he hu => exact readable_debug ht he hu
  | ifChain ht he hu hn hbody hrest ih ih1 =>
    exact readable_ifChain ht he hu ⟨hn, hbody.opensBlock, ih⟩ hrest.branches_begin ih1
  | whileLoop ht he hn hbody hu ih => exact readable_while ht he ⟨hn, hbody.opensBlock, ih⟩ hu
  | countLoop ht ht1 ht2 hstart ht3 hstop hstep hn hbody hu hu1 ih =>
    exact readable_countLoop ht ht1 ht2 hstart ht3 hstop hstep ⟨hn, hbody.opensBlock, ih⟩ hu hu1
  | eachLoop ht ht1 ht2 ht3 he hn hbody hu hu1 ih =>
    exact readable_eachLoop ht ht1 ht2 ht3 he ⟨hn, hbody.opensBlock, ih⟩ hu hu1
  | function hflags hhead hn hbody hu ih =>
    exact readable_function hflags hhead ⟨hn, hbody.opensBlock, ih⟩ hu
  | tryCatch ht hn hbody hu hu1 hn1 hhandler hv ih ih1 =>
    exact readable_tryCatch ht ⟨hn, hbody.opensBlock, ih⟩ hu hu1 ⟨hn1, hhandler.opensBlock, ih1⟩ hv
  | tryFinally ht hn hbody hu hn1 hcleanup hv ih ih1 =>
    exact readable_tryFinally ht ⟨hn, hbody.opensBlock, ih⟩ hu ⟨hn1, hcleanup.opensBlock, ih1⟩ hv
  | tryBoth ht hn hbody hu hu1 hn1 hhandler hw hn2 hcleanup hv ih ih1 ih2 =>
    exact readable_tryBoth ht ⟨hn, hbody.opensBlock, ih⟩ hu hu1 ⟨hn1, hhandler.opensBlock, ih1⟩ hw
      ⟨hn2, hcleanup.opensBlock, ih2⟩ hv
  | switchBlock ht he hn harms ih => exact readable_switch ht he hn harms.arms_begin ih
  | endIf ht => exact readable_endIf ht
  | elseBranch ht hn hbody hu ih => exact readable_else ht ⟨hn, hbody.opensBlock, ih⟩ hu
  | elseIf ht he hu hn hbody hrest ih ih1 =>
    exact readable_elseIf ht he hu ⟨hn, hbody.opensBlock, ih⟩ hrest.branches_begin ih1
  | endSwitch ht => exact readable_endSwitch ht
  | defaultArm ht hn hbody hu ih => exact readable_default ht ⟨hn, hbody.opensBlock, ih⟩ hu
  | caseArm ht hvalues hn hbody hrest ih ih1 =>
    exact readable_case ht hvalues ⟨hn, hbody.opensBlock, ih⟩ hrest.arms_begin ih1
  | nil => exact readable_nil
  | cons hs hn hss ih ih1 =>
    obtain ⟨u, us, rfl, hu⟩ := hs.begins
    exact readable_cons hu ih ⟨hn, hss.opensBlock, ih1⟩

theorem Program.ofText_laid {p p' : Program} {t : Token}
    (htokens : tokens source 1 = ts ++ [t]) (ht : t.form = .eof)
    (h : Lays source (.block p) (.block p') ts) : Program.ofText source = .ok p' := by
  have hhas : (Cursor.ofText source 1).Has source ts t := by
    rw [Cursor.ofText, htokens]
    cases ts <;> exact ⟨rfl, [], by simp⟩
  have hweight : weight (ts.map Token.form) ≤ source.length := by
    have hkinds : (Cursor.ofText source 1).kinds = ts.map Token.form ++ [.eof] := by
      rw [Cursor.kinds, Cursor.ofText, htokens, ← ht]
      cases ts <;> simp
    exact Cursor.weight_ofText hkinds
  have hfuel : 16 * weight (ts.map Token.form) + 1 ≤ parseFuel source.length := by
    rw [parseFuel]
    omega
  have hblock : (block (parseFuel source.length) [] []).run (Cursor.ofText source 1) =
      .ok (p', (Cursor.ofText source 1).skip ts.length) :=
    h.read hfuel [] [] t rfl (by rw [ht]; rfl) _ hhas
  have hbehind : ((Cursor.ofText source 1).skip ts.length).current.kind = .eof := by
    rw [← append_nil ts] at hhas
    exact TokenKind.eq_of_bare (by rw [← ht, hhas.skip.head]; rfl) (by rintro _ ⟨⟩)
  generalize (Cursor.ofText source 1).skip ts.length = c' at hblock hbehind
  have hatEof : atEof.run c' = .ok (true, c') := by
    rw [atEof, run_bind_ok (run_kind c'), hbehind]
    rfl
  have hprogram : (Parse.program (parseFuel source.length)).run (Cursor.ofText source 1) =
      .ok (p', c') := by
    rw [Parse.program, run_bind_ok hblock, run_bind_ok hatEof]
    rfl
  exact congrArg (Except.map (·.1)) hprogram

end TaskBasic
