import TaskBasic.Machine.Step

/-
What the building blocks of instructions do to a machine.

`m.on stack` is the machine `m` with the operand stack `stack`.  The equations
say what running a building block on such a machine comes to, as long as the
values it takes lie on top of the stack.
-/

namespace TaskBasic

/-- The machine with another operand stack. -/
def Machine.on (m : Machine) (stack : Array Value) : Machine :=
  { m with task := { m.task with stack := stack } }

namespace Machine

variable (m : Machine) (S S' : Array Value)

theorem on_stack : m.on m.task.stack = m := rfl

@[simp] theorem on_on : (m.on S).on S' = m.on S' := rfl

@[simp] theorem task_stack_on : (m.on S).task.stack = S := rfl

@[simp] theorem task_frames_on : (m.on S).task.frames = m.task.frames := rfl

@[simp] theorem task_tries_on : (m.on S).task.tries = m.task.tries := rfl

@[simp] theorem heap_on : (m.on S).heap = m.heap := rfl

@[simp] theorem program_on : (m.on S).program = m.program := rfl

end Machine

namespace Exec

variable {α β : Type} (m : Machine) (S : Array Value)

@[simp] theorem run_fail (cause : Failure) :
    (fail cause : Exec α).run m = .error (.failure cause) m := rfl

@[simp] theorem run_heap : heap.run m = .ok m.heap m := rfl

@[simp] theorem run_modifyTask (f : Task → Task) :
    (modifyTask f).run m = .ok () { m with task := f m.task } := rfl

@[simp] theorem run_alloc (f : Heap → Heap × α) :
    (alloc f).run m = .ok (f m.heap).2 { m with heap := (f m.heap).1 } := rfl

@[simp] theorem run_ite {c : Prop} [Decidable c] (x y : Exec α) :
    (if c then x else y).run m = if c then x.run m else y.run m := by
  split <;> rfl

@[simp] theorem run_ofExcept (r : Except Failure α) : (ofExcept r).run m = match r with
    | .ok a => .ok a m
    | .error cause => .error (.failure cause) m := by
  cases r <;> rfl

@[simp] theorem run_push (v : Value) : (push v).run m = .ok () (m.on (m.task.stack.push v)) := rfl

@[simp] theorem run_pop (v : Value) : pop.run (m.on (S.push v)) = .ok v (m.on S) := by
  have hback : (S.push v).back? = some v := Array.back?_push
  have hpop : (S.push v).pop = S := Array.pop_push
  simp only [pop, EStateM.run_bind, EStateM.run_get, Machine.task_stack_on, hback, run_modifyTask,
    hpop, EStateM.run_pure]
  rfl

theorem run_popMany (vs : List Value) :
    (popMany vs.length).run (m.on (S ++ vs.toArray)) = .ok vs (m.on S) := by
  have hsize : (S ++ vs.toArray).size - vs.length = S.size := by simp
  have hle : vs.length ≤ (S ++ vs.toArray).size := by simp
  have hkeep : (S ++ vs.toArray).take S.size = S := by simp
  have htake : ((S ++ vs.toArray).extract S.size (S ++ vs.toArray).size).toList = vs := by simp
  simp only [popMany, EStateM.run_bind, EStateM.run_get, Machine.task_stack_on, if_pos hle,
    run_modifyTask, EStateM.run_pure, hsize, hkeep, htake]
  rfl

theorem run_frame {f : Frame} {F : List Frame} (hf : m.task.frames = f :: F) :
    frame.run m = .ok f m := by
  simp only [frame, EStateM.run_bind, EStateM.run_get, hf]
  rfl

section

variable {m : Machine} {f : Frame} {F : List Frame} {g : Function} {k : UInt16}

theorem run_constant (hf : m.task.frames = f :: F) (hg : m.heap.function f.function = g)
    {v : Value} (hk : g.chunk.constants[k.toNat]? = some v) : (constant k).run m = .ok v m := by
  simp only [constant, EStateM.run_bind, run_frame m hf, run_heap, hg, hk]
  rfl

theorem run_name (hf : m.task.frames = f :: F) (hg : m.heap.function f.function = g) {s : String}
    (hk : g.chunk.constants[k.toNat]? = some (.str s)) : (name k).run m = .ok s m := by
  simp only [name, EStateM.run_bind, run_constant hf hg hk]
  rfl

end

theorem run_jumpTo {f : Frame} {F : List Frame} (hf : m.task.frames = f :: F) (y : Nat) :
    (jumpTo y).run m =
      .ok () { m with task := { m.task with frames := { f with ip := y } :: F } } := by
  simp only [jumpTo, EStateM.run_bind, EStateM.run_get, hf]
  rfl

@[simp] theorem run_checkArity (f : Function) (count : Nat) : (checkArity f count).run m =
    if f.arity = count then .ok () m
    else .error (.failure (.arity f.name (toString f.arity) count)) m := by
  rw [checkArity, run_ite]
  rfl

/-- Entering a function: the checks, one after the other, and a new frame. -/
theorem run_enter (env : Env) (r : FunctionRef) (count : Nat) :
    (enter env r count).run m =
      if (m.heap.function r).isAsync then .error (.failure (.asyncCall (m.heap.function r).name)) m
      else if (m.heap.function r).arity ≠ count then
        .error (.failure (.arity (m.heap.function r).name (toString (m.heap.function r).arity)
          count)) m
      else if env.config.maxCallDepth ≤ m.task.frames.length then
        .error (.failure (.callDepth env.config.maxCallDepth)) m
      else if m.task.stack.size < count then .error (.failure .stackUnderflow) m
      else .ok () { m with task := { m.task with
        frames := { function := r, base := m.task.stack.size - count } :: m.task.frames } } := by
  simp only [enter, EStateM.run_bind, run_heap, run_ite, run_fail, run_checkArity, EStateM.run_get,
    run_modifyTask]
  by_cases hasync : (m.heap.function r).isAsync = true
  · simp only [if_pos hasync]
  · simp only [if_neg hasync]
    by_cases harity : (m.heap.function r).arity = count
    · rw [if_pos harity, if_neg (not_not_intro harity)]
    · rw [if_neg harity, if_pos harity]

end Exec

end TaskBasic
