import TaskBasic.Code.OfProgram

/-
What the parts of the compiler do to the draft of a function.

Every step of a compilation that succeeds is described by an equation for its
result and for the draft behind it.  `run_bind_ok` takes a compilation apart
into its steps; the other lemmas say what one step can have done:

* `run_emit_ok`, `run_emitTimes_ok` — emitting advances the offset only;
* `run_constant_ok` — a constant goes to the pool and nothing else changes;
* `run_reserve_ok`, `run_fill_ok`, `run_loopTo_ok` — jumps and the room for them;
* `run_declare_ok`, `run_discardAbove_ok`, `run_leave_ok` — locals.
-/

namespace TaskBasic

namespace Draft

/-- The draft after `n` more bytes. -/
def advance (d : Draft) (n : Nat) : Draft :=
  { d with offset := d.offset + n }

/-- The draft at a statement of the given line. -/
def atLine (d : Draft) (line : Nat) : Draft :=
  { d with line := line }

def withScope (d : Draft) (s : Scope) : Draft :=
  { d with scope := s }

@[simp] theorem advance_offset (d : Draft) (n : Nat) : (d.advance n).offset = d.offset + n := rfl
@[simp] theorem advance_scope (d : Draft) (n : Nat) : (d.advance n).scope = d.scope := rfl
@[simp] theorem advance_line (d : Draft) (n : Nat) : (d.advance n).line = d.line := rfl
@[simp] theorem advance_globals (d : Draft) (n : Nat) : (d.advance n).globals = d.globals := rfl
@[simp] theorem advance_constants (d : Draft) (n : Nat) :
    (d.advance n).constants = d.constants := rfl
@[simp] theorem advance_functions (d : Draft) (n : Nat) :
    (d.advance n).functions = d.functions := rfl

@[simp] theorem withScope_scope (d : Draft) (s : Scope) : (d.withScope s).scope = s := rfl

end Draft

namespace Compile

variable {α β : Type} {d d' : Draft} {F : Fragment}
variable {u : PUnit} {n : Nat} {name : String}

/-! ### Taking a compilation apart -/

@[simp] theorem run_bind_ok {x : Compile α} {f : α → Compile β} {b : β} :
    (x >>= f).run d = .ok (b, d') ↔
      ∃ a d1, x.run d = .ok (a, d1) ∧ (f a).run d1 = .ok (b, d') := by
  rw [StateT.run_bind]
  cases h : x.run d with
  | error e => simp [bind, Except.bind]
  | ok p =>
    obtain ⟨a, d1⟩ := p
    constructor
    · intro hf
      exact ⟨a, d1, rfl, hf⟩
    · rintro ⟨a', d1', hp, hf⟩
      cases hp
      exact hf

@[simp] theorem run_pure_ok {a b : α} :
    (pure a : Compile α).run d = .ok (b, d') ↔ b = a ∧ d' = d := by
  rw [StateT.run_pure]
  constructor
  · rintro ⟨⟩
    exact ⟨rfl, rfl⟩
  · rintro ⟨rfl, rfl⟩
    rfl

@[simp] theorem run_get_ok {a : Draft} :
    (get : Compile Draft).run d = .ok (a, d') ↔ a = d ∧ d' = d := by
  constructor
  · rintro ⟨⟩
    exact ⟨rfl, rfl⟩
  · rintro ⟨rfl, rfl⟩
    rfl

@[simp] theorem run_set_ok {s : Draft} : (set s : Compile PUnit).run d = .ok (u, d') ↔ d' = s := by
  constructor
  · rintro ⟨⟩
    rfl
  · rintro rfl
    rfl

@[simp] theorem run_modify_ok {f : Draft → Draft} :
    (modify f : Compile PUnit).run d = .ok (u, d') ↔ d' = f d := by
  constructor
  · rintro ⟨⟩
    rfl
  · rintro rfl
    rfl

@[simp] theorem run_fail_ok {cause : CompileCause} {a : α} :
    (fail cause : Compile α).run d = .ok (a, d') ↔ False := by
  rw [iff_false]
  rintro ⟨⟩

/-! ### Instructions and constants -/

@[simp] theorem run_step_ok {s : Step} :
    (step s).run d = .ok (F, d') ↔ F = #[⟨d.line, s⟩] ∧ d' = d.advance s.size := by
  constructor
  · rintro ⟨⟩
    exact ⟨rfl, rfl⟩
  · rintro ⟨rfl, rfl⟩
    rfl

@[simp] theorem run_emit_ok {i : Instr} :
    (emit i).run d = .ok (F, d') ↔ F = #[⟨d.line, .instr i⟩] ∧ d' = d.advance i.size :=
  run_step_ok

@[simp] theorem run_emitTimes_ok {i : Instr} : (emitTimes n i).run d = .ok (F, d') ↔
      F = Array.replicate n ⟨d.line, .instr i⟩ ∧ d' = d.advance (n * i.size) := by
  constructor
  · rintro ⟨⟩
    exact ⟨rfl, rfl⟩
  · rintro ⟨rfl, rfl⟩
    rfl

@[simp] theorem run_constant_ok {v : Value} {index : UInt16} :
    (constant v).run d = .ok (index, d') ↔
      poolIndex? (poolInsert d.constants v).2 = some index ∧
        d' = { d with constants := (poolInsert d.constants v).1 } := by
  simp only [constant, run_bind_ok, run_get_ok]
  constructor
  · rintro ⟨_, d0, ⟨rfl, rfl⟩, _, d1, h, hindex⟩
    rw [run_set_ok] at h
    subst h
    cases hp : poolIndex? (poolInsert d0.constants v).2 with
    | none => rw [hp, run_fail_ok] at hindex; exact hindex.elim
    | some n =>
      rw [hp, run_pure_ok] at hindex
      exact ⟨by rw [hindex.1], hindex.2⟩
  · rintro ⟨hp, rfl⟩
    refine ⟨d, d, ⟨rfl, rfl⟩, ⟨⟩, _, run_set_ok.mpr rfl, ?_⟩
    rw [hp]
    exact run_pure_ok.mpr ⟨rfl, rfl⟩

@[simp] theorem run_narrow_ok {what : Counted} {b : UInt8} :
    (narrow what n).run d = .ok (b, d') ↔ n < 256 ∧ b = UInt8.ofNat n ∧ d' = d := by
  rw [narrow]
  split
  next h => rw [run_pure_ok, and_iff_right h]
  next h => simp [h]

@[simp] theorem run_wide_ok {cause : CompileCause} {b : UInt16} :
    (wide cause n).run d = .ok (b, d') ↔ n < 65536 ∧ b = UInt16.ofNat n ∧ d' = d := by
  rw [wide]
  split
  next h => rw [run_pure_ok, and_iff_right h]
  next h => simp [h]

/-! ### Jumps -/

@[simp] theorem run_reserve_ok {gap : Gap} :
    reserve.run d = .ok (gap, d') ↔ gap = ⟨d.line, d.offset + 3⟩ ∧ d' = d.advance 3 := by
  constructor
  · rintro ⟨⟩
    exact ⟨rfl, rfl⟩
  · rintro ⟨rfl, rfl⟩
    rfl

@[simp] theorem run_fill_ok {gap : Gap} {jump : UInt16 → Instr} :
    (fill gap jump).run d = .ok (F, d') ↔
      d.offset - gap.stop < 65536 ∧
        F = #[⟨gap.line, .instr (jump (UInt16.ofNat (d.offset - gap.stop)))⟩] ∧ d' = d := by
  simp only [fill, run_bind_ok, run_get_ok, run_wide_ok, run_pure_ok]
  constructor
  · rintro ⟨_, _, ⟨rfl, rfl⟩, _, _, ⟨hlt, rfl, rfl⟩, rfl, rfl⟩
    exact ⟨hlt, rfl, rfl⟩
  · rintro ⟨hlt, rfl, rfl⟩
    exact ⟨_, _, ⟨rfl, rfl⟩, _, _, ⟨hlt, rfl, rfl⟩, rfl, rfl⟩

@[simp] theorem run_loopTo_ok {target : Nat} :
    (loopTo target).run d = .ok (F, d') ↔
      d.offset + 3 - target < 65536 ∧
        F = #[⟨d.line, .instr (.loop (UInt16.ofNat (d.offset + 3 - target)))⟩] ∧
        d' = d.advance 3 := by
  simp only [loopTo, run_bind_ok, run_get_ok, run_wide_ok, run_emit_ok]
  constructor
  · rintro ⟨_, _, ⟨rfl, rfl⟩, _, _, ⟨hlt, rfl, rfl⟩, rfl, rfl⟩
    exact ⟨hlt, rfl, rfl⟩
  · rintro ⟨hlt, rfl, rfl⟩
    exact ⟨_, _, ⟨rfl, rfl⟩, _, _, ⟨hlt, rfl, rfl⟩, rfl, rfl⟩

/-! ### Locals -/

@[simp] theorem run_declare_ok {slot : UInt16} : (declare name).run d = .ok (slot, d') ↔
      d.scope.declares name = false ∧ d.scope.locals.length < 65536 ∧
        slot = UInt16.ofNat d.scope.locals.length ∧ d' = d.withScope
          { d.scope with locals := ⟨name, d.scope.depth⟩ :: d.scope.locals } := by
  simp only [declare, run_bind_ok, run_get_ok, Scope.declare?]
  constructor
  · rintro ⟨_, d0, ⟨rfl, rfl⟩, h⟩
    cases hd : d0.scope.declares name with
    | true => simp [hd] at h
    | false =>
      simp only [hd, Bool.false_eq_true, if_false, run_bind_ok, run_set_ok, run_wide_ok] at h
      obtain ⟨_, _, rfl, hlt, rfl, rfl⟩ := h
      exact ⟨rfl, hlt, rfl, rfl⟩
  · rintro ⟨hd, hlt, rfl, rfl⟩
    refine ⟨d, d, ⟨rfl, rfl⟩, ?_⟩
    rw [if_neg (by simp [hd]), run_bind_ok]
    exact ⟨⟨⟩, _, run_set_ok.mpr rfl, run_wide_ok.mpr ⟨hlt, rfl, rfl⟩⟩

@[simp] theorem run_isGlobal_ok {b : Bool} :
    (isGlobal name).run d = .ok (b, d') ↔ b = d.globals.contains name ∧ d' = d := by
  simp only [isGlobal, run_bind_ok, run_get_ok, run_pure_ok]
  constructor
  · rintro ⟨_, _, ⟨rfl, rfl⟩, rfl, rfl⟩
    exact ⟨rfl, rfl⟩
  · rintro ⟨rfl, rfl⟩
    exact ⟨_, _, ⟨rfl, rfl⟩, rfl, rfl⟩

/-- The slot of the local that a name stands for. -/
def slotIn (d : Draft) (name : String) : Option Nat :=
  if d.globals.contains name then none else d.scope.slot? name

@[simp] theorem run_localSlot?_ok {slot : Option UInt16} :
    (localSlot? name).run d = .ok (slot, d') ↔
      slot = (slotIn d name).map UInt16.ofNat ∧ d' = d := by
  simp only [localSlot?, run_bind_ok, run_get_ok, slotIn]
  constructor
  · rintro ⟨_, d0, ⟨rfl, rfl⟩, h⟩
    split at h
    next hg => rw [if_pos hg]; exact run_pure_ok.mp h
    next hg => rw [if_neg hg]; exact run_pure_ok.mp h
  · rintro ⟨rfl, rfl⟩
    refine ⟨d', d', ⟨rfl, rfl⟩, ?_⟩
    split
    next hg => exact run_pure_ok.mpr ⟨rfl, rfl⟩
    next hg => exact run_pure_ok.mpr ⟨rfl, rfl⟩

@[simp] theorem run_enter_ok : enter.run d = .ok (u, d') ↔ d' = d.withScope d.scope.enter :=
  run_modify_ok

@[simp] theorem run_abandon_ok : abandon.run d = .ok (u, d') ↔ d' = d.withScope d.scope.leave :=
  run_modify_ok

/-- Code that pops `n` values. -/
def pops (line n : Nat) : Fragment :=
  Array.replicate n ⟨line, .instr .pop⟩

theorem run_popping_ok (f : Draft → Draft) :
    (do let code ← emitTimes n .pop; modify f; return code : Compile Fragment).run d = .ok (F, d') ↔
      F = pops d.line n ∧ d' = f (d.advance n) := by
  simp only [run_bind_ok, run_emitTimes_ok, run_modify_ok, run_pure_ok]
  constructor
  · rintro ⟨_, _, ⟨rfl, rfl⟩, _, _, rfl, rfl, rfl⟩
    exact ⟨rfl, by simp [Instr.size, Instr.opcode, Opcode.width]⟩
  · rintro ⟨rfl, rfl⟩
    exact ⟨_, _, ⟨rfl, rfl⟩, ⟨⟩, _, rfl, rfl, by simp [Instr.size, Instr.opcode, Opcode.width]⟩

@[simp] theorem run_discardAbove_ok {depth : Nat} :
    (discardAbove depth).run d = .ok (F, d') ↔
      F = pops d.line (d.scope.countAbove depth) ∧
        d' = (d.advance (d.scope.countAbove depth)).withScope (d.scope.dropAbove depth) :=
  run_popping_ok fun d => d.withScope (d.scope.dropAbove depth)

@[simp] theorem run_leave_ok :
    leave.run d = .ok (F, d') ↔
      F = pops d.line (d.scope.countAbove (d.scope.depth - 1)) ∧
        d' = (d.advance (d.scope.countAbove (d.scope.depth - 1))).withScope d.scope.leave :=
  run_popping_ok fun d => d.withScope d.scope.leave

end Compile

end TaskBasic
