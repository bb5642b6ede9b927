import TaskBasic.Prompt.Completion
import TaskBasic.Proofs.Token.Tiling

/-
Words that are completed.

The word before the cursor begins one byte behind the last character that belongs to no
word.  If that character takes one byte, the line is cut between two characters, and what
is offered are the known words that begin with the word.

* `lastWord_eq` — the word that a text ends in.
* `completion_sound` — what is offered, and what is hinted at.
-/

namespace TaskBasic.Prompt

open List

theorem utf8ByteSize_ofList (cs : List Char) : (String.ofList cs).utf8ByteSize = bytesOf cs := by
  induction cs with
  | nil => rfl
  | cons c cs ih =>
    rw [String.ofList_cons, String.utf8ByteSize_append, ih,
      String.utf8ByteSize_singleton, bytesOf_cons]

theorem cut_append (cs ds : List Char) : Text.cut (bytesOf cs) (cs ++ ds) = .ok (cs, ds) := by
  induction cs with
  | nil => cases ds <;> rfl
  | cons c cs ih =>
    have hpos := c.utf8Size_pos
    rw [bytesOf_cons, cons_append, Text.cut, if_neg (by omega), if_neg (by omega),
      Nat.add_sub_cancel_left, ih]
    rfl

theorem wordStartFrom_word (offset start : Nat) {word : List Char}
    (h : ∀ c ∈ word, isWordChar c = true) : wordStartFrom offset start word = start := by
  induction word generalizing offset with
  | nil => rfl
  | cons c cs ih =>
    rw [wordStartFrom, if_pos (h c (by simp))]
    exact ih _ fun d hd => h d (by simp [hd])

theorem wordStartFrom_append (offset start : Nat) (cs : List Char) {c : Char} {word : List Char}
    (hc : isWordChar c = false) (h : ∀ c ∈ word, isWordChar c = true) :
    wordStartFrom offset start (cs ++ c :: word) = offset + bytesOf cs + 1 := by
  induction cs generalizing offset start with
  | nil => simp [wordStartFrom, hc, wordStartFrom_word _ _ h, bytesOf]
  | cons d cs ih =>
    rw [cons_append, wordStartFrom, ih]
    simp [bytesOf]
    omega

/-- The characters of a word that a text ends in. -/
def wordBefore (cs : List Char) : List Char := (cs.reverse.takeWhile isWordChar).reverse

/-- The last character that belongs to no word. -/
def separator? (cs : List Char) : Option Char := (cs.reverse.dropWhile isWordChar).head?

theorem wordStartFrom_eq (cs : List Char) :
    separator? cs = none ∧ wordBefore cs = cs ∧ wordStartFrom 0 0 cs = 0 ∨
    ∃ c ds, separator? cs = some c ∧ cs = ds ++ c :: wordBefore cs ∧
    wordStartFrom 0 0 cs = bytesOf ds + 1 := by
  have hcs : cs = (cs.reverse.dropWhile isWordChar).reverse ++ wordBefore cs := by
    rw [wordBefore, ← reverse_append, takeWhile_append_dropWhile, reverse_reverse]
  have hword : ∀ c ∈ wordBefore cs, isWordChar c = true := fun c hc =>
    all_eq_true.mp all_takeWhile c (mem_reverse.mp hc)
  have hhead := head_dropWhile isWordChar cs.reverse
  rw [separator?]
  generalize cs.reverse.dropWhile isWordChar = ds at hcs hhead
  cases ds with
  | nil =>
    rw [reverse_nil, nil_append] at hcs
    rw [← hcs] at hword
    exact .inl ⟨rfl, hcs.symm, wordStartFrom_word _ _ hword⟩
  | cons c ds =>
    rw [reverse_cons, append_assoc, singleton_append] at hcs
    have hstart := wordStartFrom_append 0 0 ds.reverse (hhead c rfl) hword
    rw [← hcs, Nat.zero_add] at hstart
    exact .inr ⟨c, ds.reverse, rfl, hcs, hstart⟩

theorem lastWord_eq {cs : List Char} (h : ∀ c ∈ separator? cs, c.utf8Size = 1) :
    lastWord cs = .ok (wordBefore cs) := by
  rcases wordStartFrom_eq cs with ⟨-, hword, hstart⟩ | ⟨c, ds, hsep, hcs, hstart⟩
  · rw [lastWord, hstart, hword]
    cases cs <;> rfl
  · have hbytes : bytesOf ds + 1 = bytesOf (ds ++ [c]) := by
      rw [bytesOf_append, bytesOf_cons, h c hsep]
      rfl
    have hcut := cut_append (ds ++ [c]) (wordBefore cs)
    rw [append_assoc, singleton_append, ← hcs] at hcut
    rw [lastWord, hstart, hbytes, hcut]
    rfl

theorem cut_inside (cs ds : List Char) {c : Char} (hc : 1 < c.utf8Size) :
    ∃ e, Text.cut (bytesOf cs + 1) (cs ++ c :: ds) = .error e := by
  induction cs with
  | nil =>
    have hlt : bytesOf [] + 1 < c.utf8Size := hc
    exact ⟨_, by rw [nil_append, Text.cut, if_neg (Nat.succ_ne_zero _), if_pos hlt]⟩
  | cons d cs ih =>
    obtain ⟨e, he⟩ := ih
    have hle : ¬d.utf8Size + bytesOf cs + 1 < d.utf8Size := by omega
    have hsub : d.utf8Size + bytesOf cs + 1 - d.utf8Size = bytesOf cs + 1 := by omega
    refine ⟨e, ?_⟩
    rw [bytesOf_cons, cons_append, Text.cut, if_neg (Nat.succ_ne_zero _), if_neg hle, hsub, he]
    rfl

/-- Behind the first byte of a longer character, there is no word. -/
theorem lastWord_error {cs : List Char} {c : Char} (hsep : separator? cs = some c)
    (hc : 1 < c.utf8Size) : ∃ e, lastWord cs = .error e := by
  rcases wordStartFrom_eq cs with ⟨hnone, -⟩ | ⟨c', ds, hsep', hcs, hstart⟩
  · rw [hnone] at hsep
    cases hsep
  · obtain rfl : c' = c := Option.some.inj (hsep'.symm.trans hsep)
    obtain ⟨e, he⟩ := cut_inside ds (wordBefore cs) hc
    rw [← hcs] at he
    refine ⟨e, ?_⟩
    rw [lastWord, hstart, he]
    rfl

theorem remainder?_eq_some {word : List Char} {text rest : String} :
    remainder? word text = some rest ↔ text.toList = word ++ rest.toList := by
  rw [remainder?]
  split
  next h =>
    obtain ⟨ds, hds⟩ := List.isPrefixOf_iff_prefix.mp h
    rw [← hds, drop_left, Option.some.injEq, append_cancel_left_eq]
    constructor
    · rintro rfl
      exact String.toList_ofList.symm
    · rintro rfl
      exact String.ofList_toList
  next h =>
    refine
      ⟨fun h => (by cases h), fun heq => absurd (List.isPrefixOf_iff_prefix.mpr ⟨_, heq.symm⟩) h⟩

/-- Where the last character that belongs to no word takes one byte, the line is cut between
characters. What is offered are exactly the known words that begin with the word before the cursor,
and what is hinted at goes on with it to a known word.  Where it takes more bytes, the cut fails. -/
theorem completion_sound {line : String} {before after : List Char}
    (hline : line.toList = before ++ after) :
    (∀ c, separator? before = some c → 1 < c.utf8Size →
      ∃ e, complete line (bytesOf before) = .error e) ∧
    ((∀ c ∈ separator? before, c.utf8Size = 1) →
    ∃ (pairs : List (String × String)) (missing : Option String),
      complete line (bytesOf before) = .ok pairs ∧
      hint line (bytesOf before) = .ok (missing.map Text.Style.dimmed.paint) ∧
      (∀ text rest, (text, rest) ∈ pairs ↔
        wordBefore before ≠ [] ∧ text ∈ offered ∧ text.toList = wordBefore before ++ rest.toList) ∧
      ∀ rest ∈ missing, String.ofList (wordBefore before ++ rest.toList) ∈ offered) := by
  refine ⟨fun c hsep hc => ?_, fun hsep => ?_⟩
  · obtain ⟨e, he⟩ := lastWord_error hsep hc
    refine ⟨e, ?_⟩
    rw [complete, hline, cut_append]
    simp only [bind, Except.bind, he]
  have hword := lastWord_eq hsep
  obtain ⟨missing, hmissing, hknown⟩ : ∃ missing, missing? line (bytesOf before) = .ok missing ∧
      ∀ rest ∈ missing, String.ofList (wordBefore before ++ rest.toList) ∈ offered := by
    by_cases hlt : bytesOf before < line.utf8ByteSize
    · exact ⟨none, by rw [missing?, if_pos hlt]; rfl, nofun⟩
    · obtain rfl : after = [] := by
        have hbytes := bytesOf_append before after
        rw [← hline, ← utf8ByteSize_ofList, String.ofList_toList] at hbytes
        cases after with
        | nil => rfl
        | cons c cs =>
          have hpos := c.utf8Size_pos
          rw [bytesOf_cons] at hbytes
          omega
      rw [append_nil] at hline
      rw [missing?, if_neg hlt, hline]
      simp only [bind, Except.bind, hword]
      by_cases hshort : (String.ofList (wordBefore before)).utf8ByteSize < 2
      · exact ⟨none, if_pos hshort, nofun⟩
      · refine ⟨_, if_neg hshort, fun rest hrest => ?_⟩
        obtain ⟨text, htext, hrest⟩ := mem_filterMap.mp (mem_of_find?_eq_some hrest)
        rw [← remainder?_eq_some.mp hrest, String.ofList_toList]
        exact htext
  refine ⟨if wordBefore before = [] then [] else offered.filterMap fun text =>
    (remainder? (wordBefore before) text).map fun rest => (text, rest), missing, ?_, ?_, ?_, hknown⟩
  · rw [complete, hline, cut_append]
    simp only [bind, Except.bind, hword]
    split <;> simp_all
    all_goals rfl
  · rw [hint, hmissing]
    rfl
  · intro text rest
    split
    next hnil => simp [hnil]
    next hne =>
      simp only [mem_filterMap, Option.map_eq_some_iff, Prod.mk.injEq, remainder?_eq_some]
      constructor
      · rintro ⟨text, htext, rest, hrest, rfl, rfl⟩
        exact ⟨hne, htext, hrest⟩
      · rintro ⟨-, htext, hrest⟩
        exact ⟨text, htext, rest, hrest, rfl, rfl⟩

theorem completion_sound_print :
    ∃ pairs, complete "x+pr" 4 = .ok pairs ∧ ("print", "int") ∈ pairs := by
  have hsep : ∀ c ∈ separator? "x+pr".toList, c.utf8Size = 1 := by
    have hplus : separator? "x+pr".toList = some '+' := by decide +kernel
    rw [hplus]
    rintro _ ⟨⟩
    rfl
  obtain ⟨pairs, -, hpairs, -, hmem, -⟩ :=
    (@completion_sound "x+pr" "x+pr".toList [] (append_nil _).symm).2 hsep
  have hknown : "print" ∈ offered := by
    rw [offered, List.mem_mergeSort]
    decide +kernel
  exact ⟨pairs, hpairs, (hmem _ _).mpr ⟨by decide +kernel, hknown, by decide +kernel⟩⟩

end TaskBasic.Prompt
