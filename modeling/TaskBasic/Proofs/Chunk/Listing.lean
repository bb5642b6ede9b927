import TaskBasic.Chunk.Listing
import TaskBasic.Proofs.Chunk.Sound

/-
What listings show.

The listing of a chunk is written from the bytes, not from instructions.
`Reads.instrLines` says that it has one line for each instruction that decoding
finds, in the same order, and `instrText_target` that the target shown for a
jump is the one that the jump leads to.
-/

namespace TaskBasic

namespace Chunk

/-- The lines for instructions at their offsets; `shown` is the source line of the
instruction before them. -/
def shownLines (h : Heap) (c : Chunk) : (shown : Option Nat) → List (Nat × Instr) → List String
  | _, [] => []
  | shown, (x, i) :: rest =>
    let line := c.lineAt x
    let column := if shown = some line then "   |" else Text.padLeft 4 ' ' (toString line)
    (Text.padLeft 4 '0' (toString x) ++ " " ++ column ++ " " ++ c.instrText h i.opcode (x + 1)) ::
      shownLines h c (some line) rest

theorem length_shownLines (h : Heap) (c : Chunk) (shown : Option Nat)
    (listing : List (Nat × Instr)) : (c.shownLines h shown listing).length = listing.length := by
  induction listing generalizing shown with
  | nil => rfl
  | cons entry rest ih => rw [shownLines, List.length_cons, List.length_cons, ih]

theorem shownLines_getElem? (h : Heap) (c : Chunk) (shown : Option Nat)
    {listing : List (Nat × Instr)} {k x : Nat} {i : Instr} (hk : listing[k]? = some (x, i)) :
    ∃ column, (c.shownLines h shown listing)[k]? = some (Text.padLeft 4 '0' (toString x) ++ " " ++
      column ++ " " ++ c.instrText h i.opcode (x + 1)) := by
  induction listing generalizing shown k with
  | nil => cases hk
  | cons entry rest ih =>
    cases k with
    | zero =>
      cases hk
      exact ⟨_, rfl⟩
    | succ k => exact ih _ hk

end Chunk

variable {c : Chunk} {o x next : Nat} {i : Instr}

/-- What the bytes at an offset say when an instruction can be decoded there. -/
theorem decode_byte (h : decode c.code x = .ok (i, next)) :
    ∃ byte, c.code[x]? = some byte ∧ Opcode.ofByte? byte = some i.opcode ∧
      next = x + 1 + i.opcode.width ∧
      i.opcode.withOperands? (c.code.extract (x + 1) (x + 1 + i.opcode.width)).toList =
        some i := by
  rw [decode] at h
  split at h
  next => cases h
  next byte hbyte =>
    split at h
    next => cases h
    next op hop =>
      split at h
      next => cases h
      next j hj =>
        cases h
        rw [Opcode.opcode_of_withOperands? hj]
        exact ⟨byte, hbyte, hop, rfl, hj⟩

theorem Reads.instrLines {h : Heap} {listing : List (Nat × Instr)} (hr : Reads c.code o listing)
    {fuel : Nat} (hfuel : listing.length < fuel) (shown : Option Nat) (done : List String) :
    c.instrLines h fuel shown o done = (c.shownLines h shown listing).reverse ++ done := by
  induction hr generalizing fuel shown done with
  | done =>
    cases fuel with
    | zero => cases hfuel
    | succ fuel => simp [Chunk.instrLines, Chunk.shownLines]
  | next hd _ ih =>
    obtain ⟨byte, hbyte, hop, rfl, _⟩ := decode_byte hd
    cases fuel with
    | zero => cases hfuel
    | succ fuel =>
      simp only [Chunk.instrLines, hbyte, hop]
      rw [ih (Nat.lt_of_succ_lt_succ hfuel), Chunk.shownLines, List.reverse_cons,
        List.append_assoc]
      rfl

/-- There are not more instructions than bytes. -/
theorem Reads.length_le {listing : List (Nat × Instr)} (hr : Reads c.code o listing) :
    o + listing.length ≤ c.size := by
  induction hr with
  | done => exact Nat.le_refl _
  | next hd _ ih =>
    have hnext := decode_next hd
    rw [Instr.size] at hnext
    rw [List.length_cons]
    omega

theorem extract_two {code : Array UInt8} {high low : UInt8} {rest : List UInt8}
    (h : (code.extract x (x + 2)).toList = high :: low :: rest) :
    code[x]? = some high ∧ code[x + 1]? = some low := by
  have h0 := congrArg (·[0]?) h
  have h1 := congrArg (·[1]?) h
  simp only [Array.getElem?_toList, Array.getElem?_extract, List.getElem?_cons_zero,
    List.getElem?_cons_succ] at h0 h1
  split at h0
  · split at h1
    · exact ⟨h0, h1⟩
    · cases h1
  · cases h0

/-- A wide operand is the number that listings read. -/
theorem decode_wide (h : decode c.code x = .ok (i, next)) (hi : i.opcode.width = 2) :
    i = Instr.build i.opcode (c.readWide (x + 1)) 0 := by
  obtain ⟨_, _, _, _, hops⟩ := decode_byte h
  unfold Opcode.withOperands? at hops
  rw [hi] at hops
  split at hops
  next hwidth => cases hwidth
  next hwidth _ => cases hwidth
  next high low rest _ hbytes =>
    obtain ⟨hhigh, hlow⟩ := extract_two hbytes
    rw [Chunk.readWide, hhigh, hlow]
    exact (Option.some.inj hops).symm
  next hwidth _ => cases hwidth
  next => cases hops

/-- A listing shows the offset that a jump leads to. -/
theorem instrText_target (h : Heap) (hd : decode c.code x = .ok (i, next)) {y : Nat}
    (hy : y ∈ i.targets next) :
    ∃ n : UInt16, c.instrText h i.opcode (x + 1) =
      Text.padRight 14 i.opcode.name ++ " " ++ (toString n.toNat ++ " -> " ++ toString y) := by
  have hnext := decode_next hd
  have hwidth : i.opcode.width = 2 := by
    cases i <;> first | rfl | cases hy
  have hwide := decode_wide hd hwidth
  refine ⟨c.readWide (x + 1), ?_⟩
  cases i with
  | jump n | jumpIfFalse n | jumpIfTrue n | tryBegin n | loop n =>
    simp only [Instr.opcode, Instr.build] at hwide
    obtain ⟨rfl⟩ := hwide
    obtain rfl := List.mem_singleton.mp hy
    rw [hnext]
    rfl
  | _ => cases hy

end TaskBasic
