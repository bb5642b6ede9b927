import TaskBasic.Heap.Text
import TaskBasic.Proofs.Token.Spelling

/-
Values that can be written down.

`Heap.Plain h n v` says that the value is made of ints, writable texts, arrays and
dictionaries in at most `n` levels.  The text of such a value is scanned as the
tokens of an expression, `Heap.literal`.

* `Heap.Plain.scans` — the text is scanned as `Heap.tokens` says.
* `Heap.Plain.spells` — these tokens spell the expression.
-/

namespace TaskBasic

namespace Heap

/-- The value is made of ints, texts, arrays and dictionaries, in at most `levels` levels. -/
def Plain (h : Heap) : (levels : Nat) → Value → Prop
  | 0, _ => False
  | n + 1, v =>
    match v with
    | .absent | .int _ => True
    | .str s => Text.Writable s
    | .array r => r.index < h.arrays.size ∧ ∀ v ∈ (h.array r).toList, h.Plain n v
    | .dict r => r.index < h.dicts.size ∧
        ∀ e ∈ (h.dict r).toList, Text.Writable e.1 ∧ h.Plain n e.2
    | _ => False

def decidablePlain (h : Heap) : (levels : Nat) → (v : Value) → Decidable (h.Plain levels v)
  | 0, _ => .isFalse id
  | n + 1, v =>
    match v with
    | .absent | .int _ => .isTrue trivial
    | .str s => inferInstanceAs (Decidable (Text.Writable s))
    | .array r =>
      have := h.decidablePlain n
      inferInstanceAs (Decidable (r.index < h.arrays.size ∧ ∀ v ∈ (h.array r).toList, h.Plain n v))
    | .dict r =>
      have := h.decidablePlain n
      inferInstanceAs (Decidable (r.index < h.dicts.size ∧
        ∀ e ∈ (h.dict r).toList, Text.Writable e.1 ∧ h.Plain n e.2))
    | .float _ | .tuple _ | .function _ | .future _ => .isFalse id

instance (h : Heap) (levels : Nat) (v : Value) : Decidable (h.Plain levels v) :=
  h.decidablePlain levels v

def literal (h : Heap) : (levels : Nat) → Value → Expr
  | 0, _ => .absent
  | n + 1, v =>
    match v with
    | .int i => intLiteral i
    | .str s => .str s
    | .array r => .array ((h.array r).toList.map (h.literal n))
    | .dict r => .dict ((h.dict r).toList.map fun e => (.str e.1, h.literal n e.2))
    | _ => .absent

def tokens (h : Heap) : (levels : Nat) → Value → List TokenKind
  | 0, _ => []
  | n + 1, v =>
    match v with
    | .int i => intTokens i
    | .str s => [.str s]
    | .array r => .mark .leftBracket ::
        ([.mark .comma].intercalate ((h.array r).toList.map (h.tokens n)) ++ [.mark .rightBracket])
    | .dict r => .mark .leftBrace ::
        ([.mark .comma].intercalate ((h.dict r).toList.map fun e =>
          .str e.1 :: .mark .colon :: h.tokens n e.2) ++ [.mark .rightBrace])
    | _ => [.keyword .kwNone]

end Heap

/-! ### Scanning -/

/-- Before a delimiter the text `cs` is scanned as tokens of the kinds `ks`. -/
def ScansAs (n : Nat) (cs : List Char) (ks : List TokenKind) : Prop :=
  ∀ rest ls, Delimited rest → Scans n rest ls → Scans n (cs ++ rest) (ks ++ ls)

namespace ScansAs

variable {n : Nat} {α : Type}

theorem separated {text : α → List Char} {kinds : α → List TokenKind} {xs : List α}
    (h : ∀ x ∈ xs, ScansAs n (text x) (kinds x)) :
    ScansAs n ([',', ' '].intercalate (xs.map text))
      ([.mark .comma].intercalate (xs.map kinds)) := by
  induction xs with
  | nil => exact fun rest ls _ hrest => hrest
  | cons x xs ih =>
    have hx := h x List.mem_cons_self
    have ih := ih fun y hy => h y (List.mem_cons_of_mem _ hy)
    cases xs with
    | nil => simpa using hx
    | cons y ys =>
      intro rest ls hrest hscans
      have hbehind := (ih rest ls hrest hscans).blank
      have hcomma : Scans n (',' :: ' ' :: _) (.mark .comma :: _) :=
        .mark (by decide) (fun _ => rfl) hbehind
      have hall := hx _ _ (delimited_cons _ (by decide)) hcomma
      simpa [List.intercalate_cons_cons] using hall

theorem bracketed {text : List Char} {kinds : List TokenKind} {o c : Char} {l r : Mark}
    (h : ScansAs (n + 1) text kinds) (ho : o ∉ [' ', '\t', '\r', '\n', '/', ';'])
    (hl : ∀ next, markOf? o next = some (l, false))
    (hopen : Scanner.nestingAfter n (.mark l) = n + 1)
    (hc : c ∈ [')', ']', '\x7d']) (hr : ∀ next, markOf? c next = some (r, false))
    (hclose : Scanner.nestingAfter (n + 1) (.mark r) = n) :
    ScansAs n (o :: (text ++ [c])) (.mark l :: (kinds ++ [.mark r])) := by
  intro rest ls _ hrest
  have hdelimiter : ∀ d ∈ [')', ']', '\x7d'],
      d ∈ delimiters ∧ d ∉ [' ', '\t', '\r', '\n', '/', ';'] :=
    forall_mem_of_all (by decide)
  obtain ⟨hdelim, hgap⟩ := hdelimiter c hc
  have hend : Scans (n + 1) (c :: rest) (.mark r :: ls) := .mark hgap hr (by rwa [hclose])
  have hinner := h _ _ (delimited_cons rest hdelim) hend
  have hall : Scans n (o :: (text ++ c :: rest)) (.mark l :: (kinds ++ .mark r :: ls)) :=
    .mark ho hl (by rwa [hopen])
  simpa using hall

end ScansAs

theorem Heap.Plain.scans {h : Heap} {levels : Nat} {v : Value} (hv : h.Plain levels v) (n : Nat) :
    ScansAs n (h.render levels true v).toList (h.tokens levels v) := by
  induction levels generalizing v n with
  | zero => exact hv.elim
  | succ levels ih =>
    cases v with
    | absent =>
      intro rest ls hrest hscans
      have hnone : Lexeme "None".toList (.keyword .kwNone) :=
        .word (by decide) (forall_mem_of_all (by decide +kernel)) (by decide +kernel)
      exact .lexeme hnone hrest hscans
    | int i => exact fun rest ls hrest hscans => hscans.int hrest i
    | str s => exact fun rest ls hrest hscans => .lexeme (.quote hv) hrest hscans
    | array r =>
      have hitem : ∀ v ∈ (h.array r).toList,
          ScansAs (n + 1) (h.render levels true v).toList (h.tokens levels v) :=
        fun v hmem => ih (hv.2 v hmem) (n + 1)
      have hall := (ScansAs.separated hitem).bracketed (o := '[') (c := ']') (l := .leftBracket)
        (r := .rightBracket)
        (by decide) (fun _ => rfl) rfl (by decide) (fun _ => rfl) rfl
      rw [Heap.render, Heap.tokens]
      simpa [String.toList_intercalate, Function.comp_def] using hall
    | dict r =>
      have hentry : ∀ e ∈ (h.dict r).toList, ScansAs (n + 1)
          ((Text.quote e.1).toList ++ ':' :: ' ' :: (h.render levels true e.2).toList)
          (.str e.1 :: .mark .colon :: h.tokens levels e.2) := by
        intro e hmem rest ls hrest hscans
        obtain ⟨hkey, hvalue⟩ := hv.2 e hmem
        have hcolon : Scans (n + 1) (':' :: ' ' :: _) (.mark .colon :: _) :=
          .mark (by decide) (fun _ => rfl) (ih hvalue (n + 1) rest ls hrest hscans).blank
        have hall : Scans (n + 1) (_ ++ ':' :: ' ' :: _) (.str e.1 :: .mark .colon :: _) :=
          .lexeme (.quote hkey) (delimited_cons _ (by decide)) hcolon
        simpa using hall
      have hall := (ScansAs.separated hentry).bracketed (o := '\x7b') (c := '\x7d')
        (l := .leftBrace)
        (r := .rightBrace) (by decide) (fun _ => rfl) rfl (by decide) (fun _ => rfl) rfl
      rw [Heap.render, Heap.tokens]
      simpa [String.toList_intercalate, Function.comp_def] using hall
    | _ => exact hv.elim

/-! ### Spelling -/

theorem spells_int (i : Int64) : Spells (.expr .disjunction (intLiteral i)) (intTokens i) := by
  rw [intLiteral, intTokens]
  split
  · exact .of_primary (.literal rfl)
  · split
    · exact .loosen (by decide) .leastInt
    · have hsuffix := Spells.suffix (.literal (k := .int (-i)) rfl) .suffixEnd
      exact .loosen (by decide) (.neg (.unsigned (.suffixed hsuffix)))

theorem spells_items {α : Type} {expr : α → Expr} {kinds : α → List TokenKind} {x : α} {xs : List α}
    (h : ∀ y ∈ x :: xs, Spells (.expr .disjunction (expr y)) (kinds y)) :
    Spells (.items ((x :: xs).map expr)) ([.mark .comma].intercalate ((x :: xs).map kinds)) := by
  induction xs generalizing x with
  | nil => simpa using Spells.item (h x List.mem_cons_self)
  | cons y ys ih =>
    have hrest := ih fun z hz => h z (List.mem_cons_of_mem _ hz)
    simpa [List.intercalate_cons_cons] using Spells.itemsCons (h x List.mem_cons_self) hrest

theorem spells_entries {α : Type} {key value : α → Expr} {keys values : α → List TokenKind} {x : α}
    {xs : List α} (hkey : ∀ y ∈ x :: xs, Spells (.expr .disjunction (key y)) (keys y))
    (hvalue : ∀ y ∈ x :: xs, Spells (.expr .disjunction (value y)) (values y)) :
    Spells (.entries ((x :: xs).map fun y => (key y, value y)))
      ([.mark .comma].intercalate ((x :: xs).map fun y => keys y ++ .mark .colon :: values y)) := by
  induction xs generalizing x with
  | nil => simpa using Spells.entry (hkey x List.mem_cons_self) (hvalue x List.mem_cons_self)
  | cons y ys ih =>
    have hrest := ih (fun z hz => hkey z (List.mem_cons_of_mem _ hz))
      fun z hz => hvalue z (List.mem_cons_of_mem _ hz)
    simpa [List.intercalate_cons_cons] using
      Spells.entriesCons (hkey x List.mem_cons_self) (hvalue x List.mem_cons_self) hrest

theorem Heap.Plain.spells {h : Heap} {levels : Nat} {v : Value} (hv : h.Plain levels v) :
    Spells (.expr .disjunction (h.literal levels v)) (h.tokens levels v) := by
  induction levels generalizing v with
  | zero => exact hv.elim
  | succ levels ih =>
    cases v with
    | absent | str s => exact .of_primary (.literal rfl)
    | int i => exact spells_int i
    | array r =>
      rw [Heap.literal, Heap.tokens]
      cases hitems : (h.array r).toList with
      | nil => exact .of_primary .arrayEmpty
      | cons w ws =>
        have hall : ∀ x ∈ w :: ws, h.Plain levels x := fun x hx => hv.2 x (hitems ▸ hx)
        exact .of_primary (.array (spells_items fun x hx => ih (hall x hx)))
    | dict r =>
      rw [Heap.literal, Heap.tokens]
      cases hentries : (h.dict r).toList with
      | nil => exact .of_primary .dictEmpty
      | cons w ws =>
        have hall : ∀ x ∈ w :: ws, h.Plain levels x.2 := fun x hx => (hv.2 x (hentries ▸ hx)).2
        have hkeys : ∀ x ∈ w :: ws, Spells (.expr .disjunction (.str x.1)) [.str x.1] :=
          fun x _ => .of_primary (.literal rfl)
        exact .of_primary (.dict (spells_entries hkeys fun x hx => ih (hall x hx)))
    | _ => exact hv.elim

end TaskBasic
