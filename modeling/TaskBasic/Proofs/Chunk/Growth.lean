import Mathlib.Data.List.Chain
import TaskBasic.Proofs.Code.Pushes

/-
How chunks grow.

Bytes are written one behind the other, each for a line, and operands of two bytes may be
overwritten later.  The lines are kept as runs of equal ones, from which the line of each
byte is found again.  Constants are added to a pool, where numbers and texts are shared.

* `Traced.edit` — an edit keeps the runs in step with the lines.
* `edits_traced` — the lines and operands of a chunk are those put into it.
* `indices_exact` — an index denotes its constant for good.
-/

namespace TaskBasic.Chunk

open List

/-! ### Lines -/

/-- What is done to the code of a chunk. -/
inductive Edit
  | byte (byte : UInt8) (line : Nat)
  | opcode (op : Opcode) (line : Nat)
  | wide (n : UInt16) (line : Nat)
  | patch (offset : Nat) (n : UInt16)

def edit (c : Chunk) : Edit → Chunk
  | .byte byte line => c.write byte line
  | .opcode op line => c.writeOpcode op line
  | .wide n line => c.writeWide n line
  | .patch offset n => c.patchWide offset n

def editAll (c : Chunk) (edits : List Edit) : Chunk :=
  edits.foldl edit c

/-- The lines of the bytes that an edit writes. -/
def Edit.lines : Edit → List Nat
  | byte _ line | opcode _ line => [line]
  | wide _ line => [line, line]
  | patch _ _ => []

/-- The lines that runs stand for, byte by byte. -/
def runLines (runs : List (Nat × UInt32)) : List Nat :=
  runs.flatMap fun run => replicate run.2.toNat run.1

/-- No line is repeated so often that 32 bits do not count it. -/
def Countable (lines : List Nat) : Prop :=
  ∀ line, ¬ replicate UInt32.size line <:+: lines

variable {c : Chunk} {lines : List Nat} {n : UInt16} {o line : Nat}

/-- The runs of a chunk stand for the lines of its bytes, as long as they can be counted, and no two
runs that touch could be one. -/
structure Traced (c : Chunk) (lines : List Nat) : Prop where
  size : c.size = lines.length
  runs : Countable lines → runLines c.lines.toList = lines
  maximal : c.lines.toList.IsChain fun run next => run.1 ≠ next.1

/-- A line is added to the last run, or it begins a new one behind a run of another line. -/
theorem pushLine_cases (runs : Array (Nat × UInt32)) (line : Nat) :
    (∃ (before : Array (Nat × UInt32)) (count : UInt32), runs = before.push (line, count) ∧
      pushLine runs line = before.push (line, count + 1)) ∨
    pushLine runs line = runs.push (line, 1) ∧ ∀ run ∈ runs.toList.getLast?, run.1 ≠ line := by
  rw [pushLine]
  split
  next last count hback =>
    obtain ⟨before, rfl⟩ := Array.back?_eq_some_iff.mp hback
    split
    next heq => exact .inl ⟨before, count, heq ▸ rfl, by rw [Array.pop_push, heq]⟩
    next hne => exact .inr ⟨rfl, by simpa using hne⟩
  next hnone =>
    refine .inr ⟨rfl, ?_⟩
    rw [Array.back?_eq_none_iff.mp hnone]
    rintro run ⟨⟩

theorem Countable.of_append {more : List Nat} (h : Countable (lines ++ more)) : Countable lines :=
  fun line hpart => h line (hpart.trans (prefix_append lines more).isInfix)

/-- The count of the last run does not wrap around. -/
theorem Countable.toNat_succ {runs : List (Nat × UInt32)} {count : UInt32}
    (h : Countable (runLines (runs ++ [(line, count)]) ++ [line])) :
    (count + 1).toNat = count.toNat + 1 := by
  have hne : count.toNat + 1 ≠ UInt32.size := by
    intro hsize
    refine h line ⟨runLines runs, [], ?_⟩
    simp [runLines, ← hsize, replicate_succ']
  rw [UInt32.toNat_add, UInt32.toNat_one]
  exact Nat.mod_eq_of_lt (Nat.lt_of_le_of_ne count.toNat_lt_size hne)

theorem Traced.write (h : c.Traced lines) (byte : UInt8) (line : Nat) :
    (c.write byte line).Traced (lines ++ [line]) := by
  obtain ⟨hsize, hruns, hmax⟩ := h
  have hsize' : (c.write byte line).size = (lines ++ [line]).length := by
    rw [length_append, ← hsize]
    exact Array.size_push _
  -- the last run grows by one, or a new run begins behind one of another line
  rcases pushLine_cases c.lines line with ⟨before, count, hlines, hpush⟩ | ⟨hpush, hlast⟩
  · rw [hlines, Array.toList_push] at hruns hmax
    refine ⟨hsize', fun hfew => ?_, ?_⟩
    all_goals rw [Chunk.write, hpush, Array.toList_push]
    · have hruns := hruns hfew.of_append
      rw [← hruns] at hfew ⊢
      simp [runLines, hfew.toNat_succ, replicate_succ']
    · rw [isChain_append] at hmax ⊢
      exact ⟨hmax.1, .singleton _, by simpa using hmax.2.2⟩
  · refine ⟨hsize', fun hfew => ?_, ?_⟩
    all_goals rw [Chunk.write, hpush, Array.toList_push]
    · have hruns := hruns hfew.of_append
      rw [← hruns]
      simp [runLines]
    · exact isChain_append.mpr ⟨hmax, .singleton _, by simpa using hlast⟩

theorem Traced.patchWide (h : c.Traced lines) (o : Nat) (n : UInt16) :
    (c.patchWide o n).Traced lines :=
  ⟨by rw [← h.size]; simp [Chunk.patchWide, Chunk.size], h.runs, h.maximal⟩

theorem Traced.edit (h : c.Traced lines) (e : Edit) : (c.edit e).Traced (lines ++ e.lines) := by
  cases e with
  | byte byte line | opcode op line => exact h.write _ line
  | wide n line =>
    have hwide :=
      (h.write (UInt8.ofNat (n.toNat / 256)) line).write (UInt8.ofNat (n.toNat % 256)) line
    rwa [append_assoc] at hwide
  | patch o n =>
    rw [Edit.lines, append_nil]
    exact h.patchWide o n

theorem Traced.editAll (h : c.Traced lines) (edits : List Edit) :
    (c.editAll edits).Traced (lines ++ edits.flatMap Edit.lines) := by
  induction edits generalizing c lines with
  | nil => rwa [flatMap_nil, append_nil]
  | cons e edits ih =>
    rw [flatMap_cons, ← append_assoc]
    exact ih (h.edit e)

/-! ### Operands -/

/-- The edit puts the operand `n` at the offset `o`. -/
def Puts (c : Chunk) (o : Nat) (n : UInt16) (e : Edit) : Prop :=
  (∃ line, e = .wide n line ∧ o = c.size) ∨ e = .patch o n ∧ o + 1 < c.size

/-- The edit overwrites one of the two bytes at the offset `o`. -/
def Edit.Touches (o : Nat) : Edit → Prop
  | patch offset _ => offset ≤ o + 1 ∧ o ≤ offset + 1
  | _ => False

theorem getElem?_patchWide (c : Chunk) (o : Nat) (n : UInt16) (i : Nat) :
    (c.patchWide o n).code[i]? =
      if i < c.size then
        if i = o then some (UInt8.ofNat (n.toNat / 256))
        else if i = o + 1 then some (UInt8.ofNat (n.toNat % 256)) else c.code[i]?
      else none := by
  simp only [Chunk.patchWide, Array.getElem?_setIfInBounds, Array.size_setIfInBounds, Chunk.size]
  grind

theorem readWide_patchWide (h : o + 1 < c.size) : (c.patchWide o n).readWide o = n := by
  rw [readWide, getElem?_patchWide, getElem?_patchWide, if_pos (by omega), if_pos h, if_pos rfl,
    if_neg (by omega), if_pos rfl]
  exact wideOfBytes_wideBytes n

theorem Puts.readWide {e : Edit} (h : c.Puts o n e) :
    (c.edit e).readWide o = n ∧ o + 1 < (c.edit e).size := by
  rcases h with ⟨line, rfl, rfl⟩ | ⟨rfl, hlt⟩
  · have hcode : (c.writeWide n line).code =
        (c.code.push (UInt8.ofNat (n.toNat / 256))).push (UInt8.ofNat (n.toNat % 256)) := rfl
    rw [edit, Chunk.readWide, Chunk.size, Chunk.size, hcode]
    refine ⟨?_, by simp⟩
    simp only [Array.getElem?_push, Array.size_push, Nat.left_eq_add, Nat.one_ne_zero, if_pos,
      if_false]
    exact wideOfBytes_wideBytes n
  · exact ⟨readWide_patchWide hlt, by simpa [edit, Chunk.patchWide, Chunk.size] using hlt⟩

theorem lines_bytes (byte : UInt8) (line n : Nat) :
    (({} : Chunk).editAll (replicate (n + 1) (.byte byte line))).lines =
      #[(line, UInt32.ofNat (n + 1))] := by
  induction n with
  | zero => rfl
  | succ n ih =>
    rw [replicate_succ', editAll, foldl_append]
    show ((({} : Chunk).editAll (replicate (n + 1) (.byte byte line))).write byte line).lines = _
    rw [Chunk.write, ih]
    simp [pushLine, UInt32.ofNat_add]

/-- A line that is repeated 2 ^ 32 times is lost: the count of its run is 0. -/
theorem lines_uncountable (byte : UInt8) (line : Nat) :
    (({} : Chunk).editAll (replicate UInt32.size (.byte byte line))).lines = #[(line, 0)] :=
  lines_bytes byte line 4294967295

/-! ### Constants -/

/-- Adds constants one after the other; the chunk then, and the indices they are given. -/
def addConstants (c : Chunk) : List Value → Chunk × List (Option UInt16)
  | [] => (c, [])
  | v :: vs =>
    let (c', index) := c.addConstant v
    let (c'', indices) := c'.addConstants vs
    (c'', index :: indices)

/-- No number or text stands in the pool twice. -/
def Shared (pool : Array Value) : Prop :=
  ∀ (i j : Nat) (v : Value), v.IsAtom → pool[i]? = some v → pool[j]? = some v → i = j

theorem sameConstant_self {v : Value} (h : v.IsAtom) : sameConstant v v = true := by
  cases v <;> first | exact beq_self_eq_true _ | cases h

/-- A constant is found in the pool if it is a number or text, or it is added behind the others. -/
theorem poolInsert_cases (pool : Array Value) (v : Value) :
    (poolInsert pool v).1 = pool ∧ v.IsAtom ∨
    poolInsert pool v = (pool.push v, pool.size) ∧ (v.IsAtom → v ∉ pool) := by
  rw [poolInsert]
  split
  next index hfound =>
    obtain ⟨hlt, hsame, -⟩ := Array.findIdx?_eq_some_iff_getElem.mp hfound
    refine .inl ⟨rfl, ?_⟩
    cases hw : pool[index] <;> cases v <;> simp_all [sameConstant, Value.IsAtom]
  next hnone =>
    refine .inr ⟨rfl, fun hatom hmem => ?_⟩
    have hself := Array.findIdx?_eq_none_iff.mp hnone v hmem
    rw [sameConstant_self hatom] at hself
    cases hself

theorem Shared.poolInsert {pool : Array Value} (h : Shared pool) (v : Value) :
    Shared (poolInsert pool v).1 := by
  rcases poolInsert_cases pool v with ⟨hpool, -⟩ | ⟨hpool, hnew⟩
  · rwa [hpool]
  · rw [hpool]
    intro i j w hatom hi hj
    rw [Array.getElem?_push] at hi hj
    have hmem {k : Nat} (hk : pool[k]? = some w) (hv : v = w) : False :=
      hnew (hv ▸ hatom) (hv ▸ Array.mem_of_getElem? hk)
    split at hi
    next hsize =>
      split at hj
      next hsize' => rw [hsize, hsize']
      next => exact (hmem hj (Option.some.inj hi)).elim
    next =>
      split at hj
      next => exact (hmem hi (Option.some.inj hj)).elim
      next => exact h i j w hatom hi hj

/-- The index that an addition is given tells its position, as long as indices reach it. -/
theorem poolIndex?_elim (p : Nat) : (poolIndex? p).elim (65535 < p) (·.toNat = p) := by
  rw [poolIndex?]
  split
  next hlt => exact UInt16.toNat_ofNat_of_lt' hlt
  next hge => exact Nat.le_of_not_lt hge

/-- Every addition with the position of its entry: positions that are there before are given to
numbers and texts only. -/
theorem addConstants_entries (values : List Value) (h : Shared c.constants) :
    ∃ entries : List (Value × Nat), entries.map Prod.fst = values ∧
      Forall₂ (fun e index => index.elim (65535 < e.2) (·.toNat = e.2)) entries
        (c.addConstants values).2 ∧
      (∀ e ∈ entries, (c.addConstants values).1.constants[e.2]? = some e.1) ∧
      (∀ e ∈ entries, e.2 < c.constants.size → e.1.IsAtom) ∧
      entries.Pairwise (fun e e' => e.2 = e'.2 → e.1.IsAtom) ∧
      Extends c.constants (c.addConstants values).1.constants ∧
      Shared (c.addConstants values).1.constants := by
  induction values generalizing c with
  | nil => exact ⟨[], rfl, .nil, nofun, nofun, .nil, .refl _, h⟩
  | cons v values ih =>
    have hshared : Shared (c.addConstant v).1.constants := h.poolInsert v
    obtain ⟨entries, hvalues, hindices, hdenote, hold, hpair, hext, hend⟩ := ih hshared
    have hentry : (c.addConstant v).1.constants[(poolInsert c.constants v).2]? = some v :=
      poolInsert_getElem? c.constants v
    have hlt := (Array.getElem?_eq_some_iff.mp hentry).1
    have hgrow {p : Nat} (hp : p < c.constants.size) : p < (c.addConstant v).1.constants.size :=
      (Array.getElem?_eq_some_iff.mp (extends_poolInsert _ v p _ (Array.getElem?_eq_getElem hp))).1
    refine ⟨(v, (poolInsert c.constants v).2) :: entries, congrArg (v :: ·) hvalues,
      .cons (poolIndex?_elim _) hindices, ?_, ?_, ?_, (extends_poolInsert _ v).trans hext, hend⟩
    · exact forall_mem_cons.mpr ⟨hext _ _ hentry, hdenote⟩
    · refine forall_mem_cons.mpr ⟨fun hp => ?_, fun e he hp => hold e he (hgrow hp)⟩
      rcases poolInsert_cases c.constants v with ⟨-, hatom⟩ | ⟨hpool, -⟩
      · exact hatom
      · rw [hpool] at hp
        exact absurd hp (Nat.lt_irrefl _)
    -- an entry is shared only if it was there before, and then it holds the constant of both
    · refine .cons (fun e he hp => ?_) hpair
      have hatom := hold e he (hp ▸ hlt)
      have hsame := hdenote e he
      rw [← hp, hext _ _ hentry] at hsame
      exact Option.some.inj hsame ▸ hatom

/-- Each addition has an entry with exactly its constant, which stays; its index is the position of
the entry, and it has none exactly if the position exceeds 65535.  No number or text has two
entries, and additions share one only if they are such. -/
theorem indices_exact (values : List Value) :
    let c := (({} : Chunk).addConstants values).1
    ∃ entries : List (Value × Nat), entries.map Prod.fst = values ∧
      Forall₂ (fun e index => index.elim (65535 < e.2) (·.toNat = e.2)) entries
        (({} : Chunk).addConstants values).2 ∧
      (∀ e ∈ entries, ∀ more, (c.addConstants more).1.constants[e.2]? = some e.1) ∧
      entries.Pairwise (fun e e' => e.2 = e'.2 → e.1.IsAtom ∧ e.1 = e'.1) ∧
      Shared c.constants := by
  intro c
  obtain ⟨entries, hvalues, hindices, hdenote, -, hpair, -, hend⟩ :=
    addConstants_entries (c := {}) values (fun i j v _ hi => by simp at hi)
  refine ⟨entries, hvalues, hindices, fun e he more => ?_, ?_, hend⟩
  · obtain ⟨_, _, _, _, _, _, hext, _⟩ := addConstants_entries more hend
    exact hext _ _ (hdenote e he)
  · refine hpair.imp_of_mem fun he he' h hp => ⟨h hp, ?_⟩
    have hsame := hdenote _ he'
    rw [← hp, hdenote _ he] at hsame
    exact Option.some.inj hsame

end TaskBasic.Chunk
