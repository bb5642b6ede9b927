import TaskBasic.Prompt.Highlight

/-
Colours add nothing to an entry.

A terminal that knows no colours shows what is left of a text without the sequences that
switch them (`uncoloured`).  Of a highlighted entry this is the entry itself.

* `flatMap_spans` — the stretches of an entry are the entry, cut into pieces.
* `uncoloured_highlight` — highlighting loses nothing and adds nothing.
-/

namespace TaskBasic

open List

namespace Text

/-- The characters of the numbers in a sequence that switches a colour. -/
def isParameter (c : Char) : Bool :=
  c.isDigit || c == ';'

/-- What follows a sequence that switches a colour, if the text behind an escape character begins
with the rest of one: a bracket, numbers and the letter `m`. -/
def behindSequence? (cs : List Char) : Option (List Char) :=
  match cs.head?, (cs.tail.dropWhile isParameter).head? with
  | some '[', some 'm' => some (cs.tail.dropWhile isParameter).tail
  | _, _ => none

theorem length_behindSequence? {cs rest : List Char} (h : behindSequence? cs = some rest) :
    rest.length ≤ cs.length := by
  rw [behindSequence?] at h
  split at h
  · cases h
    have hle := (dropWhile_sublist isParameter (l := cs.tail)).length_le
    simp only [length_tail] at hle ⊢
    omega
  · cases h

/-- A text without the sequences that switch colours. -/
def uncoloured : List Char → List Char
  | [] => []
  | c :: cs =>
    match _h : if c = '\x1b' then behindSequence? cs else none with
    | some rest => uncoloured rest
    | none => c :: uncoloured cs
termination_by cs => cs.length
decreasing_by
  · split at _h
    · exact Nat.lt_succ_of_le (length_behindSequence? _h)
    · cases _h
  · exact Nat.lt_succ_self _

theorem uncoloured_cons {c : Char} (hc : c ≠ '\x1b') (cs : List Char) :
    uncoloured (c :: cs) = c :: uncoloured cs := by
  rw [uncoloured]
  split
  next h => simp [hc] at h
  next => rfl

/-- The text `t` shows the characters `s`, whatever follows it. -/
def Shows (t s : List Char) : Prop :=
  ∀ rest, uncoloured (t ++ rest) = s ++ uncoloured rest

theorem Shows.nil : Shows [] [] := fun _ => rfl

theorem Shows.append {t t' s s' : List Char} (h : Shows t s) (h' : Shows t' s') :
    Shows (t ++ t') (s ++ s') := by
  intro rest
  rw [append_assoc, h, h', append_assoc]

theorem Shows.plain {s : List Char} (h : '\x1b' ∉ s) : Shows s s := by
  induction s with
  | nil => exact .nil
  | cons c s ih =>
    rw [mem_cons, not_or] at h
    intro rest
    rw [cons_append, uncoloured_cons (Ne.symm h.1), ih h.2]
    rfl

/-- The text is a sequence that switches a colour. -/
def IsSequence (t : String) : Prop :=
  ∃ ps : List Char, (∀ c ∈ ps, isParameter c = true) ∧ t.toList = '\x1b' :: '[' :: (ps ++ ['m'])

/-- All that is added to a text in a style are sequences before and behind it. -/
def Wraps (paint : Style → String → String) : Prop :=
  ∀ style s, ∃ before behind, (∀ t ∈ before, IsSequence t) ∧ (∀ t ∈ behind, IsSequence t) ∧
    paint style s = String.join before ++ s ++ String.join behind

theorem isSequence_escape (code : Nat) : IsSequence (Style.escape code) := by
  refine ⟨Nat.toDigits 10 code, fun c hc => ?_, by simp [Style.escape]⟩
  rw [isParameter, Nat.isDigit_of_mem_toDigits (by decide) (by decide) hc, Bool.true_or]

theorem wraps_paint : Wraps Style.paint := fun style s =>
  ⟨[Style.escape style.on], [Style.escape style.off],
    forall_mem_singleton.mpr (isSequence_escape _), forall_mem_singleton.mpr (isSequence_escape _),
    by simp [Style.paint, String.join]⟩

theorem IsSequence.shows {t : String} (h : IsSequence t) : Shows t.toList [] := by
  intro rest
  obtain ⟨ps, hps, ht⟩ := h
  have htext : t.toList ++ rest = '\x1b' :: '[' :: (ps ++ 'm' :: rest) := by simp [ht]
  -- the numbers are passed over, and the letter `m` is none of their characters
  have hbehind : behindSequence? ('[' :: (ps ++ 'm' :: rest)) = some rest := by
    rw [behindSequence?, tail_cons, dropWhile_append_of_pos hps]
    rfl
  rw [htext, uncoloured, if_pos rfl]
  split
  next h =>
    rw [hbehind] at h
    cases h
    rfl
  next h =>
    rw [hbehind] at h
    cases h

theorem Shows.sequences {ts : List String} (h : ∀ t ∈ ts, IsSequence t) :
    Shows (String.join ts).toList [] := by
  rw [String.toList_join]
  induction ts with
  | nil => exact .nil
  | cons t ts ih =>
    obtain ⟨ht, hts⟩ := forall_mem_cons.mp h
    exact ht.shows.append (ih hts)

theorem Shows.paint {paint : Style → String → String} (hpaint : Wraps paint) {t : String}
    {s : List Char} (h : Shows t.toList s) (style : Style) :
    Shows (paint style t).toList s := by
  obtain ⟨before, behind, hbefore, hbehind, heq⟩ := hpaint style t
  have hwrapped := ((Shows.sequences hbefore).append h).append (.sequences hbehind)
  rw [nil_append, append_nil] at hwrapped
  rwa [heq, String.toList_append, String.toList_append]

theorem Shows.render {paint : Style → String → String} (hpaint : Wraps paint) {span : Span}
    (h : '\x1b' ∉ span.text.toList) :
    Shows (span.render paint).toList span.text.toList := by
  have hstyles : ∀ (styles : List Style) (t : String), Shows t.toList span.text.toList →
      Shows (styles.foldl (fun text style => paint style text) t).toList span.text.toList := by
    intro styles
    induction styles with
    | nil => exact fun t ht => ht
    | cons style styles ih => exact fun t ht => ih _ (ht.paint hpaint style)
  exact hstyles span.styles span.text (.plain h)

end Text

namespace Prompt

open Text (Span Style uncoloured Shows Wraps)

theorem flatMap_wordSpans (word : List Char) :
    (wordSpans word).flatMap (·.text.toList) = word.reverse := by
  rw [wordSpans]
  split
  next h => rw [isEmpty_iff.mp h]; rfl
  next => simp

/-- A word is written before the mark that begins a text literal, so inside of one no word is
pending. -/
theorem flatMap_spansFrom {quote : Option Char} {word : List Char}
    (h : quote = none ∨ word = []) (cs : List Char) :
    (spansFrom quote word cs).flatMap (·.text.toList) = word.reverse ++ cs := by
  induction cs generalizing quote word with
  | nil => rw [spansFrom, flatMap_wordSpans, append_nil]
  | cons c cs ih =>
    cases quote with
    | some mark =>
      obtain rfl : word = [] := by simpa using h
      rw [spansFrom, flatMap_cons, ih (.inr rfl)]
      simp
    | none =>
      -- the character goes on with the pending word, or stands behind it as a stretch of its own
      rw [spansFrom]
      split
      · rw [ih (.inl rfl), reverse_cons, append_assoc]
        rfl
      · rw [flatMap_append, flatMap_wordSpans, flatMap_cons, ih (.inr rfl)]
        simp

/-- The stretches of an entry are the entry, cut into pieces. -/
theorem flatMap_spans (entry : String) :
    (spans entry).flatMap (·.text.toList) = entry.toList := by
  rw [spans]
  split
  · simp
  · exact flatMap_spansFrom (.inl rfl) entry.toList

theorem shows_spans {paint : Style → String → String} (hpaint : Wraps paint) {ss : List Span}
    (h : ∀ s ∈ ss, '\x1b' ∉ s.text.toList) :
    Shows (String.join (ss.map (Span.render paint))).toList (ss.flatMap (·.text.toList)) := by
  rw [String.toList_join, flatMap_map]
  induction ss with
  | nil => exact .nil
  | cons s ss ih =>
    obtain ⟨hs, hrest⟩ := forall_mem_cons.mp h
    exact (Shows.render hpaint hs).append (ih hrest)

/-- Without the sequences that switch colours, a highlighted entry is the entry, whatever the
sequences are that stand around a text in a style. -/
theorem uncoloured_highlight {entry : String} (h : '\x1b' ∉ entry.toList) :
    (∀ paint, Wraps paint →
      String.ofList (uncoloured (highlightWith paint entry).toList) = entry) ∧
    String.ofList (uncoloured (highlight entry).toList) = entry := by
  have hall : ∀ paint, Wraps paint →
      String.ofList (uncoloured (highlightWith paint entry).toList) = entry := by
    intro paint hpaint
    have hpieces : ∀ s ∈ spans entry, '\x1b' ∉ s.text.toList := fun s hs hmem =>
      h (flatMap_spans entry ▸ mem_flatMap.mpr ⟨s, hs, hmem⟩)
    have hshows := shows_spans hpaint hpieces []
    rw [flatMap_spans, append_nil, uncoloured, append_nil] at hshows
    rw [highlightWith, hshows, String.ofList_toList]
  exact ⟨hall, hall _ Text.wraps_paint⟩

/-- A number directly before a text literal, and a literal that is not closed. -/
theorem uncoloured_highlight_open : '\x1b' ∉ "print 3.14'it\"s'+f(\"(x".toList ∧
    String.ofList (uncoloured (highlight "print 3.14'it\"s'+f(\"(x").toList) =
      "print 3.14'it\"s'+f(\"(x" :=
  have h : '\x1b' ∉ "print 3.14'it\"s'+f(\"(x".toList := by decide
  ⟨h, (uncoloured_highlight h).2⟩

end Prompt

end TaskBasic
