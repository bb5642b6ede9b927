import TaskBasic.Proofs.Machine.Run

/-
Calls and subscripts.

A function is called by an instruction that finds it below its arguments, by one
that knows its name, or by a subscript with the arguments as keys.  A container
is indexed by all of these, and by the instructions that start tasks.

* `Exec.run_call_function`, `Exec.run_callNamed_function`,
  `Exec.run_getIndex_function` — each way to a function enters it with the same
  stack.
* `Exec.call_paths_agree` — all ways to a function, and all ways to an element,
  come to the same.
-/

namespace TaskBasic.Exec

variable {env : Env} {m : Machine} {S : Array Value} {r : FunctionRef} {args : List Value}
  {c key : Value} {f : Frame} {F : List Frame} {index : UInt16} {n : String}

/-! ### Building blocks -/

theorem run_pushAll (args : List Value) (S : Array Value) :
    (args.forM push).run (m.on S) = .ok () (m.on (S ++ args.toArray)) := by
  induction args generalizing S with
  | nil => rw [Array.append_empty]; rfl
  | cons a args ih =>
    refine (ih (S.push a)).trans ?_
    simp

theorem size_push_append : (S.push c ++ args.toArray).size = S.size + 1 + args.length := by
  simp only [Array.size_append, Array.size_push, List.size_toArray]

theorem run_peek_below (m : Machine) (S : Array Value) (c : Value) (args : List Value) :
    (peek args.length).run (m.on (S.push c ++ args.toArray)) =
      .ok c (m.on (S.push c ++ args.toArray)) := by
  have hplace : S.size + 1 + args.length - 1 - args.length = S.size := by omega
  have hc : (S.push c ++ args.toArray)[S.size]? = some c := by simp
  simp only [peek, EStateM.run_bind, EStateM.run_get, Machine.task_stack_on, size_push_append,
    hplace, hc]
  rw [if_pos (by omega)]
  rfl

/-! ### Functions -/

/-- Entering a function that lies below its arguments. -/
def callsOn (env : Env) (m : Machine) (S : Array Value) (r : FunctionRef) (args : List Value) :
    EStateM.Result Fault Machine Flow :=
  (andNext (enter env r args.length)).run (m.on (S.push (.function r) ++ args.toArray))

theorem run_call_function (hargs : args.length ≤ 255) :
    (execute env (.call (.ofNat args.length))).run
      (m.on (S.push (.function r) ++ args.toArray)) = callsOn env m S r args := by
  rw [execute, callsOn, UInt8.toNat_ofNat_of_lt' (Nat.lt_succ_of_le hargs), andNext, andNext,
    EStateM.run_bind, EStateM.run_bind, call, EStateM.run_bind, run_peek_below]

theorem run_callNamed_function (hargs : args.length ≤ 255) (hf : m.task.frames = f :: F)
    (hn : (m.heap.function f.function).chunk.constants[index.toNat]? = some (.str n))
    (hr : m.program.globals[n]? = some (.function r)) :
    (execute env (.callNamed index (.ofNat args.length))).run (m.on (S ++ args.toArray)) =
      callsOn env m S r args := by
  have hglobal : (m.on (S ++ args.toArray)).program.globals[n]? = some (.function r) := hr
  rw [execute, EStateM.run_bind, run_name (m := m.on (S ++ args.toArray)) hf rfl hn,
    UInt8.toNat_ofNat_of_lt' (Nat.lt_succ_of_le hargs)]
  simp only [callNamed, EStateM.run_bind, EStateM.run_get, hglobal, run_popMany, run_push,
    Machine.on_on, Machine.task_stack_on, run_pushAll]
  rfl

theorem run_getIndex_function (hkey : keyArguments key = args) :
    (execute env .getIndex).run (m.on ((S.push (.function r)).push key)) =
      callsOn env m S r args := by
  rw [execute, callsOn, andNext, andNext, EStateM.run_bind, EStateM.run_bind, getIndex]
  simp only [EStateM.run_bind, run_pop, hkey, run_push, Machine.on_on, Machine.task_stack_on,
    run_pushAll]

/-- A call that succeeds has a new frame, whose slots begin with the arguments. -/
theorem callsOn_eq_ok {flow : Flow} {m' : Machine} (h : callsOn env m S r args = .ok flow m') :
    flow = .next ∧ m'.task.stack = S.push (.function r) ++ args.toArray ∧
      m'.task.frames = { function := r, base := S.size + 1 } :: m.task.frames := by
  have hbase : (S.push (.function r) ++ args.toArray).size - args.length = S.size + 1 := by
    rw [size_push_append, Nat.add_sub_cancel]
  rw [callsOn, andNext, EStateM.run_bind] at h
  cases hrun : (enter env r args.length).run (m.on (S.push (.function r) ++ args.toArray)) with
  | error fault m1 =>
    rw [hrun] at h
    cases h
  | ok u m1 =>
    rw [hrun] at h
    cases h
    rw [run_enter] at hrun
    repeat' split at hrun
    all_goals cases hrun
    exact ⟨rfl, rfl, by rw [← hbase]; rfl⟩

/-! ### Containers -/

/-- The element of a container instead of the container and the key. -/
def elementOn (m : Machine) (S : Array Value) (c key : Value) : EStateM.Result Fault Machine Flow :=
  match m.heap.get c key with
  | .ok v => .ok .next (m.on (S.push v))
  | .error cause => .error (.failure cause) (m.on S)

/-- A future of the element, which is there already, instead of the container and the key. -/
def futureOn (m : Machine) (S : Array Value) (c key : Value) : EStateM.Result Fault Machine Flow :=
  match m.heap.get c key with
  | .ok v =>
    let (h, p) := m.heap.newPromise (.ofValue v)
    .ok .next ({ m with heap := h }.on (S.push (.future p)))
  | .error cause => .error (.failure cause) (m.on S)

theorem run_container (hc : c.kind = .array ∨ c.kind = .dict) (hf : m.task.frames = f :: F)
    (hn : (m.heap.function f.function).chunk.constants[index.toNat]? = some (.str n))
    (hglobal : m.program.globals[n]? = some c) :
    (execute env (.call 1)).run (m.on ((S.push c).push key)) = elementOn m S c key ∧
      (execute env (.callNamed index 1)).run (m.on (S.push key)) = elementOn m S c key ∧
      (execute env .getIndex).run (m.on ((S.push c).push key)) = elementOn m S c key ∧
      (execute env (.spawn 1)).run (m.on ((S.push c).push key)) = futureOn m S c key ∧
      (execute env (.spawnNamed index 1)).run (m.on (S.push key)) = futureOn m S c key := by
  have hpeek : (peek 1).run (m.on ((S.push c).push key)) = .ok c (m.on ((S.push c).push key)) := by
    simpa using run_peek_below m S c [key]
  have hpopMany (T : Array Value) : (popMany 1).run (m.on (T.push key)) = .ok [key] (m.on T) := by
    simpa using run_popMany m T [key]
  have hname : (name index).run (m.on (S.push key)) = .ok n (m.on (S.push key)) :=
    run_name (m := m.on (S.push key)) hf rfl hn
  rw [elementOn, futureOn]
  cases c with
  | array a | dict a =>
    refine ⟨?_, ?_, ?_, ?_, ?_⟩
    all_goals
      simp only [execute, andNext, call, callNamed, callIndex, getIndex, spawn, spawnNamed,
        spawnIndex,
        UInt8.toNat_one, EStateM.run_bind, EStateM.run_get, hpeek, hpopMany, hname, hglobal,
          if_true,
        run_pop, run_heap, run_ofExcept, Machine.program_on, Machine.heap_on]
      generalize m.heap.get _ key = x
      cases x <;> rfl
  | _ => simp [Value.kind] at hc

/-- Calling a function comes to the same whether it lies below its arguments, is known by its name,
or is subscripted with the arguments as keys: it is entered with the function below its arguments,
where its slots begin, or not for the same reason.  Calling or subscripting a container with one
argument gives its element, and starting a task for that a future of the element which is resolved
already; or all fail for the same reason. -/
theorem call_paths_agree (env : Env) (m : Machine) (S : Array Value) (hf : m.task.frames = f :: F)
    (index : UInt16)
    (hn : (m.heap.function f.function).chunk.constants[index.toNat]? = some (.str n)) :
    (∀ r args, m.program.globals[n]? = some (.function r) → args.length ≤ 255 →
      (∀ a ∈ args, a.kind ≠ .tuple) →
      (execute env (.call (.ofNat args.length))).run
        (m.on (S.push (.function r) ++ args.toArray)) = callsOn env m S r args ∧
      (execute env (.callNamed index (.ofNat args.length))).run (m.on (S ++ args.toArray)) =
        callsOn env m S r args ∧
      (∀ key, key = .tuple args ∨ args = [key] →
        (execute env .getIndex).run (m.on ((S.push (.function r)).push key)) =
          callsOn env m S r args) ∧
      ∀ flow m', callsOn env m S r args = .ok flow m' →
        flow = .next ∧ m'.task.stack = S.push (.function r) ++ args.toArray ∧
          m'.task.frames = { function := r, base := S.size + 1 } :: m.task.frames) ∧
    ∀ c key, m.program.globals[n]? = some c → c.kind = .array ∨ c.kind = .dict →
      (execute env (.call 1)).run (m.on ((S.push c).push key)) = elementOn m S c key ∧
      (execute env (.callNamed index 1)).run (m.on (S.push key)) = elementOn m S c key ∧
      (execute env .getIndex).run (m.on ((S.push c).push key)) = elementOn m S c key ∧
      (execute env (.spawn 1)).run (m.on ((S.push c).push key)) = futureOn m S c key ∧
      (execute env (.spawnNamed index 1)).run (m.on (S.push key)) = futureOn m S c key := by
  refine ⟨fun r args hglobal hargs hsingle => ?_, fun c key hglobal hc => ?_⟩
  · refine ⟨run_call_function hargs, run_callNamed_function hargs hf hn hglobal, fun key hkey => ?_,
      fun _ _ => callsOn_eq_ok⟩
    refine run_getIndex_function ?_
    rcases hkey with rfl | rfl
    · rfl
    · have htuple := hsingle key List.mem_cons_self
      cases key with
      | tuple keys => exact absurd rfl htuple
      | _ => rfl
  · exact run_container hc hf hn hglobal

/-- A program with a function of two arguments and an array, of which `g` is a name of one. -/
def caller (g : Value) : Machine where
  heap := {
    arrays := #[#[.int 5]]
    functions := #[{ name := "<main>", arity := 0, chunk := { constants := #[.str "g"] } },
      { name := "f", arity := 2, chunk := {} }] }
  console := {}
  modules := {}
  program := { globals := (∅ : Dict).insert "g" g }
  scheduler := {}
  task := .start 0 ⟨0⟩ [] ⟨0⟩

theorem caller_paths_agree :
    (execute {} (.callNamed 0 2)).run ((caller (.function ⟨1⟩)).on #[.int 1, .int 2]) =
        (execute {} .getIndex).run
          ((caller (.function ⟨1⟩)).on #[.function ⟨1⟩, .tuple [.int 1, .int 2]]) ∧
      (execute {} (.spawnNamed 0 1)).run ((caller (.array ⟨0⟩)).on #[.int (-1)]) =
        (execute {} (.spawn 1)).run ((caller (.array ⟨0⟩)).on #[.array ⟨0⟩, .int (-1)]) := by
  have hglobal (g : Value) : (caller g).program.globals["g"]? = some g :=
    Std.TreeMap.getElem?_insert_self
  obtain ⟨-, hnamed, hindex, -⟩ := (call_paths_agree {} (caller (.function ⟨1⟩)) #[] rfl 0
    rfl).1 ⟨1⟩ [.int 1, .int 2] (hglobal _) (by decide) (by decide)
  obtain ⟨-, -, -, hspawn, hspawned⟩ := (call_paths_agree {} (caller (.array ⟨0⟩)) #[] rfl 0
    rfl).2 (.array ⟨0⟩) (.int (-1)) (hglobal _) (.inl rfl)
  exact ⟨hnamed.trans (hindex _ (.inl rfl)).symm, hspawned.trans hspawn.symm⟩

end TaskBasic.Exec
