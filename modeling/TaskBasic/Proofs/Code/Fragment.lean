import Mathlib.Algebra.GroupWithZero.Nat
import TaskBasic.Proofs.Code.Draft

/-
Fragments of code at their place.

* `decode_encode` — an instruction that stands between other bytes is read back.
* `Fragment.Each` — a property of each step at its offset; `Each.retarget` is about
  exits that become jumps.
* `Fragment.Sits` — the pieces of a fragment stand in a byte array one behind
  the other, and the exits among them jump to given offsets;
  `sits_chunk` says that the code of a chunk has its fragment at offset 0.
* `Compile.run_resolve_ok` — resolving the exits of a loop.
-/

namespace TaskBasic

open List

variable {ps : List Piece} {F : Fragment} {e : Exit} {target o : Nat}

/-! ### Bytes of instructions -/

@[simp] theorem Opcode.ofByte?_toByte (op : Opcode) : Opcode.ofByte? op.toByte = some op := by
  cases op <;> rfl

namespace Instr

theorem length_operands (i : Instr) : i.operands.length = i.opcode.width := by
  cases i with
  | binary op => cases op <;> rfl
  | _ => rfl

@[simp] theorem length_encode (i : Instr) : i.encode.length = i.size := by
  rw [encode, length_cons, length_operands, size]
  omega

theorem size_binary (op : BinaryOp) : (binary op).size = 1 := by
  cases op <;> rfl

theorem size_pos (i : Instr) : 0 < i.size := by
  rw [size]
  omega

end Instr

theorem wideOfBytes_wideBytes (n : UInt16) :
    wideOfBytes (UInt8.ofNat (n.toNat / 256)) (UInt8.ofNat (n.toNat % 256)) = n := by
  have hn : n.toNat < 65536 := n.toNat_lt
  have hhigh : (UInt8.ofNat (n.toNat / 256)).toNat = n.toNat / 256 := by
    rw [UInt8.toNat_ofNat']
    omega
  have hlow : (UInt8.ofNat (n.toNat % 256)).toNat = n.toNat % 256 := by
    rw [UInt8.toNat_ofNat']
    omega
  rw [wideOfBytes, hhigh, hlow, Nat.div_add_mod' n.toNat 256, UInt16.ofNat_toNat]

theorem Opcode.withOperands?_operands (i : Instr) :
    i.opcode.withOperands? i.operands = some i := by
  cases i with
  | binary op => cases op <;> rfl
  | _ =>
    simp [Instr.opcode, Instr.operands, Opcode.withOperands?, Opcode.width, Instr.build,
      Instr.wideBytes, wideOfBytes_wideBytes]

/-- Decoding reads back an instruction that stands between other bytes. -/
theorem decode_encode {code : Array UInt8} {before after : List UInt8} {i : Instr}
    (h : code.toList = before ++ (i.encode ++ after)) :
    decode code before.length = .ok (i, before.length + i.size) := by
  have hbyte : code[before.length]? = some i.opcode.toByte := by
    rw [← Array.getElem?_toList, h, List.getElem?_append_right (Nat.le_refl _)]
    simp [Instr.encode]
  have hops : (code.extract (before.length + 1) (before.length + 1 + i.opcode.width)).toList =
      i.operands := by
    rw [Array.toList_extract, h, ← Instr.length_operands]
    simp [Instr.encode]
  rw [decode, hbyte]
  simp only [Opcode.ofByte?_toByte, hops, Opcode.withOperands?_operands, Instr.size]
  rw [Nat.add_assoc]

/-! ### Sizes of fragments -/

namespace Fragment

/-- The number of bytes of a list of pieces. -/
def span (ps : List Piece) : Nat :=
  (ps.map fun p => p.step.size).sum

@[simp] theorem span_nil : span [] = 0 := rfl

@[simp] theorem span_cons (p : Piece) (ps : List Piece) :
    span (p :: ps) = p.step.size + span ps := by
  simp [span]

@[simp] theorem span_append (ps qs : List Piece) : span (ps ++ qs) = span ps + span qs := by
  simp [span]

@[simp] theorem span_replicate (n : Nat) (p : Piece) :
    span (List.replicate n p) = n * p.step.size := by
  simp [span]

end Fragment

/-! ### Fragments in code -/

/-- The step `s` stands in `code` at offset `o`; an exit is a jump to where `targets` says. -/
def Step.SitsAt (code : Array UInt8) (targets : Exit → Nat) (o : Nat) : Step → Prop
  | .instr i => decode code o = .ok (i, o + i.size)
  | .exit e => ∃ n : UInt16, decode code o = .ok (.jump n, o + 3) ∧ o + 3 + n.toNat = targets e

namespace Fragment

/-- Each step satisfies `P` at its offset, if the first one stands at the given offset. -/
def Each (P : Nat → Step → Prop) : Nat → List Piece → Prop
  | _, [] => True
  | o, p :: ps => P o p.step ∧ Each P (o + p.step.size) ps

theorem each_append {P : Nat → Step → Prop} {qs : List Piece} :
    Each P o (ps ++ qs) ↔ Each P o ps ∧ Each P (o + span ps) qs := by
  induction ps generalizing o with
  | nil => simp [Each]
  | cons p ps ih => rw [cons_append, Each, Each, ih, span_cons, and_assoc, Nat.add_assoc]

/-- The pieces stand in `code` one behind the other from an offset on. -/
abbrev Sits (code : Array UInt8) (targets : Exit → Nat) : Nat → List Piece → Prop :=
  Each (Step.SitsAt code targets)

variable {code : Array UInt8}

/-- The bytes of a piece in a chunk. -/
def encodePiece (p : Piece) : List UInt8 :=
  match p.step with
  | .instr i => i.encode
  | .exit _ => (Instr.jump unpatched).encode

theorem length_encodePiece (p : Piece) : (encodePiece p).length = p.step.size := by
  rw [encodePiece]
  split
  next i h => rw [h, Instr.length_encode, Step.size]
  next e h => rw [h, Step.size]; rfl

theorem writeBytes_code (c : Chunk) (bytes : List UInt8) (line : Nat) :
    (c.writeBytes bytes line).code.toList = c.code.toList ++ bytes := by
  rw [Chunk.writeBytes]
  induction bytes generalizing c with
  | nil => simp
  | cons b bytes ih =>
    rw [foldl_cons, ih]
    simp [Chunk.write]

theorem writeBytes_constants (c : Chunk) (bytes : List UInt8) (line : Nat) :
    (c.writeBytes bytes line).constants = c.constants := by
  rw [Chunk.writeBytes]
  induction bytes generalizing c with
  | nil => rfl
  | cons b bytes ih =>
    rw [foldl_cons, ih]
    rfl

theorem write_code (c : Chunk) (p : Piece) :
    (p.write c).code.toList = c.code.toList ++ encodePiece p := by
  rw [Piece.write, encodePiece]
  cases p.step with
  | instr i | exit e => exact writeBytes_code _ _ _

theorem write_constants (c : Chunk) (p : Piece) : (p.write c).constants = c.constants := by
  rw [Piece.write]
  split <;> exact writeBytes_constants _ _ _

theorem foldl_write_code (ps : List Piece) (c : Chunk) :
    (ps.foldl Piece.write c).code.toList = c.code.toList ++ ps.flatMap encodePiece := by
  induction ps generalizing c with
  | nil => simp
  | cons p ps ih =>
    rw [foldl_cons, ih, write_code, flatMap_cons, append_assoc]

theorem chunk_code (F : Fragment) (constants : Array Value) :
    (F.chunk constants).code.toList = F.toList.flatMap encodePiece := by
  rw [chunk, ← Array.foldl_toList, foldl_write_code]
  rfl

theorem foldl_write_constants (ps : List Piece) (c : Chunk) :
    (ps.foldl Piece.write c).constants = c.constants := by
  induction ps generalizing c with
  | nil => rfl
  | cons p ps ih => rw [foldl_cons, ih, write_constants]

@[simp] theorem chunk_constants (F : Fragment) (constants : Array Value) :
    (F.chunk constants).constants = constants := by
  rw [chunk, ← Array.foldl_toList, foldl_write_constants]

/-- No exit is left among the pieces. -/
def Resolved (ps : List Piece) : Prop :=
  ∀ p ∈ ps, ∀ e, p.step ≠ .exit e

theorem length_flatMap_encodePiece (ps : List Piece) :
    (ps.flatMap encodePiece).length = span ps := by
  induction ps with
  | nil => rfl
  | cons p ps ih => rw [flatMap_cons, length_append, length_encodePiece, ih, span_cons]

theorem sits_flatMap (targets : Exit → Nat) {before after : List UInt8}
    (hps : Resolved ps) (h : code.toList = before ++ (ps.flatMap encodePiece ++ after)) :
    Sits code targets before.length ps := by
  induction ps generalizing before with
  | nil => trivial
  | cons p ps ih =>
    have hrest : Resolved ps := fun q hq => hps q (mem_cons_of_mem _ hq)
    cases hp : p.step with
    | exit e => exact absurd hp (hps p (mem_cons_self ..) e)
    | instr i =>
      have hbytes : encodePiece p = i.encode := by rw [encodePiece, hp]
      rw [flatMap_cons, hbytes, append_assoc] at h
      constructor
      · rw [hp]
        exact decode_encode h
      · have h' : code.toList = (before ++ i.encode) ++ (ps.flatMap encodePiece ++ after) := by
          rw [h, append_assoc]
        have hsits := ih hrest h'
        rw [length_append, Instr.length_encode] at hsits
        rw [hp]
        exact hsits

theorem sits_chunk (targets : Exit → Nat) (hF : Resolved F.toList)
    (constants : Array Value) : Sits (F.chunk constants).code targets 0 F.toList := by
  have h : (F.chunk constants).code.toList = [] ++ (F.toList.flatMap encodePiece ++ []) := by
    rw [chunk_code, append_nil, nil_append]
  exact sits_flatMap targets hF h

/-! ### Exits that are resolved -/

/-- The pieces with the exits `e` turned into jumps to the offset `target`; the first piece
stands at the given offset. -/
def retarget (e : Exit) (target : Nat) : Nat → List Piece → List Piece
  | _, [] => []
  | o, p :: ps =>
    (if p.step = .exit e then
      ⟨p.line, .instr (.jump (UInt16.ofNat (target - (o + p.step.size))))⟩
    else p) :: retarget e target (o + p.step.size) ps

/-- The exits `e` among the pieces are less than 65536 bytes from the offset `target`. -/
abbrev InReach (e : Exit) (target : Nat) : Nat → List Piece → Prop :=
  Each fun o s => s = .exit e → target - (o + s.size) < 65536

theorem span_retarget (e : Exit) (target o : Nat) (ps : List Piece) :
    span (retarget e target o ps) = span ps := by
  induction ps generalizing o with
  | nil => rfl
  | cons p ps ih =>
    rw [retarget, span_cons, span_cons, ih]
    split
    next h => rw [h]; rfl
    next => rfl

theorem mem_retarget {q : Piece} (hq : q ∈ retarget e target o ps) :
    (q ∈ ps ∧ q.step ≠ .exit e) ∨ ∃ line n, q = ⟨line, .instr (.jump n)⟩ := by
  induction ps generalizing o with
  | nil => cases hq
  | cons p ps ih =>
    rw [retarget, mem_cons] at hq
    rcases hq with hq | hq
    · split at hq
      next => exact .inr ⟨_, _, hq⟩
      next hp =>
        subst hq
        exact .inl ⟨mem_cons_self .., hp⟩
    · rcases ih hq with ⟨hmem, hne⟩ | hjump
      · exact .inl ⟨mem_cons_of_mem _ hmem, hne⟩
      · exact .inr hjump

/-- Only the exits `e` that lie before `target` become something else. -/
theorem Each.retarget {P Q : Nat → Step → Prop} (h : Each P o ps) (hreach : InReach e target o ps)
    (hbehind : o + span ps ≤ target)
    (hjump : ∀ x n, x + 3 + UInt16.toNat n = target → P x (.exit e) → Q x (.instr (.jump n)))
    (hother : ∀ x s, s ≠ .exit e → P x s → Q x s) : Each Q o (retarget e target o ps) := by
  induction ps generalizing o with
  | nil => trivial
  | cons p ps ih =>
    rw [span_cons] at hbehind
    have hrest := ih h.2 hreach.2 (by omega)
    rw [Fragment.retarget]
    by_cases he : p.step = .exit e
    · have hp := h.1
      have hlt := hreach.1 he
      have hsize : p.step.size = 3 := by rw [he]; rfl
      rw [hsize] at hlt hrest hbehind
      rw [if_pos he, hsize]
      rw [he] at hp
      refine ⟨hjump o _ ?_ hp, hrest⟩
      rw [UInt16.toNat_ofNat_of_lt' hlt]
      omega
    · rw [if_neg he]
      exact ⟨hother o _ he h.1, hrest⟩

/-- The exits `e` lead to `target`, the others to where `targets` says. -/
def redirect (targets : Exit → Nat) (e : Exit) (target : Nat) : Exit → Nat :=
  fun x => if x = e then target else targets x

@[simp] theorem redirect_self (targets : Exit → Nat) (e : Exit) (target : Nat) :
    redirect targets e target e = target := if_pos rfl

theorem redirect_other (targets : Exit → Nat) {x : Exit} (h : x ≠ e) (target : Nat) :
    redirect targets e target x = targets x := if_neg h

end Fragment

namespace Compile

open Fragment

theorem run_resolveLoop_ok {d d' : Draft}
    {done : Fragment} {stop : Nat}
    (h : (ps.foldlM (fun ((done, offset) : Fragment × Nat) p => do
      let stop : Nat := offset + p.step.size
      if p.step = .exit e then
        let distance ← wide .jumpTooFar (target - stop)
        return (done.push ⟨p.line, .instr (.jump distance)⟩, stop)
      else return (done.push p, stop)) (done, o) : Compile (Fragment × Nat)).run d =
        .ok ((F, stop), d')) :
    d' = d ∧ F.toList = done.toList ++ retarget e target o ps ∧ InReach e target o ps := by
  induction ps generalizing done o with
  | nil =>
    rw [foldlM_nil, run_pure_ok] at h
    obtain ⟨h, rfl⟩ := h
    cases h
    exact ⟨rfl, by simp [retarget], trivial⟩
  | cons p ps ih =>
    rw [foldlM_cons, run_bind_ok] at h
    obtain ⟨⟨done1, o1⟩, d1, h1, h2⟩ := h
    rw [retarget]
    by_cases hp : p.step = .exit e
    · simp only [hp, if_true, run_bind_ok, run_wide_ok, run_pure_ok] at h1
      obtain ⟨_, _, ⟨hlt, rfl, rfl⟩, h1, rfl⟩ := h1
      cases h1
      obtain ⟨rfl, hF, hreach⟩ := ih h2
      refine ⟨rfl, ?_, ?_, ?_⟩
      · rw [hF, hp, if_pos rfl]
        simp
      · intro _
        rw [hp]
        exact hlt
      · rw [hp]
        exact hreach
    · simp only [hp, if_false, run_pure_ok] at h1
      obtain ⟨h1, rfl⟩ := h1
      cases h1
      obtain ⟨rfl, hF, hreach⟩ := ih h2
      refine ⟨rfl, ?_, fun h => absurd h hp, hreach⟩
      rw [hF, if_neg hp]
      simp

/-- Resolving the exits of a loop changes nothing but their pieces. -/
theorem run_resolve_ok {start : Nat} {code : Fragment} {d d' : Draft}
    (h : (resolve e start code).run d = .ok (F, d')) :
    d' = d ∧ F.toList = retarget e d.offset start code.toList ∧
    InReach e d.offset start code.toList := by
  simp only [resolve, run_bind_ok, run_get_ok] at h
  obtain ⟨_, d0, ⟨rfl, rfl⟩, ⟨done, stop⟩, d1, hloop, h⟩ := h
  rw [run_pure_ok] at h
  obtain ⟨rfl, rfl⟩ := h
  obtain ⟨hd, hF, hreach⟩ := run_resolveLoop_ok hloop
  exact ⟨hd, by simpa using hF, hreach⟩

end Compile

end TaskBasic
