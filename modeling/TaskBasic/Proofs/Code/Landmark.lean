import TaskBasic.Proofs.Code.Fragment

/-
What the compiler knows about places in the code.

A `Site` is what surrounds a statement, as the compiler keeps it
(`Surroundings`), together with the offsets that these things have in the code:
where the exits of the loop lead, where the handlers of the open `try` regions
begin, and which `finally` blocks are still to run (`Duty`).  A `Landmark` is a
place in the code with what is known about it there.

* `Forward`, `Backward` — jumps of three bytes, by the offset they lead to.
* `Resolves` — a loop body whose exits have been turned into jumps.
-/

namespace TaskBasic

/-! ### Places -/

/-- What happens behind the copy of a `finally` block. -/
inductive Transfer
  /-- What stands behind the `try` statement follows. -/
  | onward
  /-- The message in a local is raised again. -/
  | rethrow (slot : UInt16)
  /-- A jump out of the loop, or to its next round. -/
  | jump (target : Nat)
  /-- The function returns the value in a local. -/
  | ret (slot : UInt16)
deriving DecidableEq

/-- A loop statement in the code. -/
structure LoopMark where
  leaveTo : Nat
  /-- Where a `continue` leads. -/
  againTo : Nat
  /-- Locals declared deeper belong to the body. -/
  depth : Nat
  /-- The locals that are live at both places. -/
  locals : List Local
  /-- The number of `try` regions that are open there. -/
  tryDepth : Nat
deriving DecidableEq

/-- A `try` statement, with what is known where it begins. -/
structure Attempt where
  offset : Nat
  depth : Nat
  locals : List Local
  /-- The names that stand for globals. -/
  globals : List String
  /-- The variable of the catch block. -/
  caught : Option String
  /-- The innermost loop around the statement. -/
  home : Option LoopMark
deriving DecidableEq

/-- A copy of a `finally` block. -/
structure Copy where
  /-- Its `try` statement. -/
  owner : Attempt
  /-- The block. -/
  final : List Stmt
  transfer : Transfer
  start : Nat
  stop : Nat
  /-- Locals declared deeper belong to the copy. -/
  depth : Nat
  /-- The locals that are live where it begins. -/
  locals : List Local

/-- A `try` statement with a `finally` block that a place lies in. -/
inductive Duty
  /-- The place lies in the body or in the catch block: the `finally` block is still to run. -/
  | owed (owner : Attempt)
  /-- The place lies in a copy of the `finally` block. -/
  | running (copy : Copy)

/-- True where a copy of a `finally` block runs. -/
def Duty.isRunning : Duty → Bool
  | owed _ => false
  | running _ => true

/-- The duties that are left when the `finally` blocks that run are given up. -/
def giveUp (D : List Duty) : List Duty :=
  D.dropWhile Duty.isRunning

/-- The duties that are left when the `finally` block of the statement `owner` has run. -/
def settle (owner : Attempt) : List Duty → List Duty
  | [] => []
  | .owed other :: rest => if other = owner then rest else settle owner rest
  | .running _ :: rest => settle owner rest

@[simp] theorem settle_owed_self (owner : Attempt) (rest : List Duty) :
    settle owner (.owed owner :: rest) = rest := if_pos rfl

/-- A `try` region that is open. -/
structure OpenTry where
  frame : TryFrame
  start : Nat
  /-- Its `try` statement. -/
  owner : Attempt
  /-- The offset of its handler. -/
  handler : Nat
  /-- The locals that were live when it was opened. -/
  locals : List Local
  /-- The duties at the handler. -/
  duties : List Duty

structure LoopExit where
  loop : LoopMark
  opens : List OpenTry
  duties : List Duty

/-- What surrounds a statement. -/
structure Site where
  inFunction : Bool := false
  returnSlot : Option UInt16 := none
  loop : Option LoopFrame := none
  /-- Where the exits of the loop lead. -/
  exits : Exit → Nat := fun _ => 0
  /-- The open `try` regions, innermost first. -/
  opens : List OpenTry := []
  /-- The `try` statements with a `finally` block, innermost first. -/
  duties : List Duty := []
  /-- The innermost loop around the statement in the program text. -/
  home : Option LoopMark := none
  /-- The loop that `exits` lead out of. -/
  jumps : Option LoopExit := none

namespace Site

/-- The surroundings that the compiler keeps. -/
def around (s : Site) : Surroundings :=
  { inFunction := s.inFunction, returnSlot := s.returnSlot, loop := s.loop,
    tries := s.opens.map OpenTry.frame }

def within (s : Site) (opens : List OpenTry) (duties : List Duty) : Site :=
  { s with opens := opens, duties := duties }

def inLoop (s : Site) (loop : LoopFrame) (exits : Exit → Nat) (home : LoopMark) : Site :=
  { s with loop := some loop, exits := exits, home := some home,
           jumps := some ⟨home, s.opens, s.duties⟩ }

/-- The site inside a copy of a `finally` block. -/
def running (s : Site) (opens : List OpenTry) (c : Copy) (duties : List Duty) : Site :=
  { s with opens := opens, duties := .running c :: duties, home := c.owner.home }

end Site

/-- A place in the code, and what is known about it. -/
inductive Landmark
  /-- A statement begins or ends. -/
  | rest (offset : Nat) (locals : List Local) (globals : List String) (opens : List OpenTry)
      (duties : List Duty)
  /-- The code of an expression. -/
  | value (start stop : Nat) (locals : List Local) (globals : List String) (duties : List Duty)
  | copy (c : Copy)
  /-- The jump of a `break` or `continue`. -/
  | leap (e : Exit) (offset : Nat) (site : Site)
  /-- The end of the code of a `return` that leaves no region. -/
  | finish (offset : Nat) (site : Site)
  /-- The way from a `return`, whose value is in a local, through `finally` blocks to the end of
  the function. -/
  | returning (start stop : Nat) (slot : UInt16) (site : Site)

/-- The mark of a statement that begins or ends at the draft's offset. -/
def Draft.landmark (d : Draft) (site : Site) : Landmark :=
  .rest d.offset d.scope.locals d.globals site.opens site.duties

/-- The `try` statement that begins here. -/
def Draft.attempt (d : Draft) (site : Site) (handling : Option (String × List Stmt)) : Attempt :=
  { offset := d.offset, depth := d.scope.depth, locals := d.scope.locals, globals := d.globals
    caught := handling.map Prod.fst, home := site.home }

/-- The copy of a `finally` block that begins here and ends at offset `stop`. -/
def Draft.copy (d : Draft) (owner : Attempt) (final : List Stmt) (transfer : Transfer)
    (stop : Nat) : Copy :=
  { owner := owner, final := final, transfer := transfer, start := d.offset, stop := stop
    depth := d.scope.depth, locals := d.scope.locals }

/-! ### Jumps -/

/-- The code is one instruction at offset `o` that can lead forward to `target`. -/
def Forward (make : UInt16 → Instr) (o target : Nat) (F : Fragment) : Prop :=
  ∃ line n, F = #[⟨line, .instr (make n)⟩] ∧ (make n).size = 3 ∧ o + 3 + n.toNat = target

/-- The code is a jump at offset `o` back to `target`. -/
def Backward (o target : Nat) (F : Fragment) : Prop :=
  ∃ line n, F = #[⟨line, .instr (.loop n)⟩] ∧ target + n.toNat = o + 3

/-- `F'` is the code `F`, which begins at offset `o`, with the exits `e` turned into jumps to
the offset `target`. -/
def Resolves (e : Exit) (o target : Nat) (F F' : Fragment) : Prop :=
  F'.toList = Fragment.retarget e target o F.toList ∧ Fragment.InReach e target o F.toList

theorem Forward.span {make : UInt16 → Instr} {o target : Nat} {F : Fragment}
    (h : Forward make o target F) : Fragment.span F.toList = 3 := by
  obtain ⟨line, n, rfl, hsize, _⟩ := h
  simp [Step.size, hsize]

theorem Backward.span {o target : Nat} {F : Fragment} (h : Backward o target F) :
    Fragment.span F.toList = 3 := by
  obtain ⟨line, n, rfl, _⟩ := h
  rfl

theorem Resolves.span {e : Exit} {o target : Nat} {F F' : Fragment} (h : Resolves e o target F F') :
    Fragment.span F'.toList = Fragment.span F.toList := by
  rw [h.1, Fragment.span_retarget]

namespace Compile

variable {d d' : Draft} {F : Fragment}

/-- A filled gap is a jump to the place reached by now. -/
theorem run_fill_forward {make : UInt16 → Instr} {line o : Nat} (hsize : ∀ n, (make n).size = 3)
    (hle : o + 3 ≤ d.offset) (h : (fill ⟨line, o + 3⟩ make).run d = .ok (F, d')) :
    Forward make o d.offset F ∧ d' = d := by
  obtain ⟨hlt, rfl, rfl⟩ := run_fill_ok.mp h
  refine ⟨⟨line, _, rfl, hsize _, ?_⟩, rfl⟩
  rw [UInt16.toNat_ofNat_of_lt' hlt]
  exact Nat.add_sub_cancel' hle

theorem run_loopTo_backward {target : Nat} (hle : target ≤ d.offset + 3)
    (h : (loopTo target).run d = .ok (F, d')) :
    Backward d.offset target F ∧ d' = d.advance 3 := by
  obtain ⟨hlt, rfl, rfl⟩ := run_loopTo_ok.mp h
  refine ⟨⟨d.line, _, rfl, ?_⟩, rfl⟩
  rw [UInt16.toNat_ofNat_of_lt' hlt]
  omega

theorem run_resolve_resolves {e : Exit} {start : Nat} {F' : Fragment}
    (h : (resolve e start F).run d = .ok (F', d')) :
    Resolves e start d.offset F F' ∧ d' = d := by
  obtain ⟨hd, hF, hreach⟩ := run_resolve_ok h
  exact ⟨⟨hF, hreach⟩, hd⟩

end Compile

end TaskBasic
