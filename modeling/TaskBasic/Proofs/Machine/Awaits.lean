import TaskBasic.Proofs.Machine.Run

/-
What an await comes to.

The end of an await looks at all futures that are awaited, and replaces the value
on top of the stack by what they came to.  Of an array that is the values of its
elements in their order, or the first error (`inOrder`).

* `run_finishAwait_array` — how the await of an array ends.
* `finishAwait_settled` — a task that is awake again finds nothing pending in what
  it has waited for.
-/

namespace TaskBasic

theorem Promise.isSettled_iff {q : Promise} :
    q.isSettled = true ↔ ∃ outcome, q.outcome? = some outcome := by
  obtain ⟨state, _⟩ := q
  cases state <;> simp [Promise.isSettled, Promise.outcome?]

theorem Heap.isReady_iff {h : Heap} {v : Value} : h.isReady v = true ↔
    ∀ p, (v = .future p ∨ ∃ r, v = .array r ∧ .future p ∈ h.array r) →
      (h.promise p).isSettled = true := by
  constructor
  · rintro hready p (rfl | ⟨r, rfl, hp⟩)
    · exact hready
    · rw [Heap.isReady, Array.all_eq_true'] at hready
      exact hready _ hp
  · intro hall
    cases v with
    | future p => exact hall p (.inl rfl)
    | array r =>
      rw [Heap.isReady, Array.all_eq_true']
      intro item hitem
      split
      · exact hall _ (.inr ⟨r, rfl, hitem⟩)
      · rfl
    | _ => rfl

theorem Heap.promise_modifyPromise (h : Heap) (p q : PromiseRef) {f : Promise → Promise}
    (hf : f default = default) :
    (h.modifyPromise p f).promise q = if p = q then f (h.promise q) else h.promise q := by
  obtain ⟨i⟩ := p
  obtain ⟨j⟩ := q
  simp only [Heap.promise, Heap.modifyPromise, Array.getElem?_modify, PromiseRef.mk.injEq]
  split
  · cases h.promises[j]? with
    | none => exact hf.symm
    | some q => rfl
  · rfl

/-! ### The elements of an array -/

/-- What an awaited element comes to: a future to its outcome, and any other value to itself. -/
def Value.awaited (outcome : PromiseRef → Except String Value) : Value → Except String Value
  | .future p => outcome p
  | v => .ok v

/-- The values in their order, or the first error. -/
def inOrder : List (Except String Value) → Except String (List Value)
  | [] => .ok []
  | .error message :: _ => .error message
  | .ok v :: rest => (inOrder rest).map (v :: ·)

namespace Heap

/-- The heap once a future has been looked at. -/
def lookAt (h : Heap) : Value → Heap
  | .future p => h.modifyPromise p Promise.observe
  | _ => h

variable {h : Heap} {p : PromiseRef} {items : List Value}

theorem promise_lookAt (h : Heap) (v : Value) (p : PromiseRef) :
    (h.lookAt v).promise p = h.promise p ∨ (h.lookAt v).promise p = (h.promise p).observe := by
  cases v with
  | future q =>
    rw [lookAt, promise_modifyPromise h q p rfl]
    split
    · exact .inr rfl
    · exact .inl rfl
  | _ => exact .inl rfl

theorem outcome?_lookAt (h : Heap) (v : Value) (p : PromiseRef) :
    ((h.lookAt v).promise p).outcome? = (h.promise p).outcome? := by
  rcases h.promise_lookAt v p with heq | heq
  · rw [heq]
  · rw [heq, Promise.observe]
    split <;> rfl

theorem observed_lookAt (v : Value) (hp : (h.promise p).observed = true) :
    ((h.lookAt v).promise p).observed = true := by
  rcases h.promise_lookAt v p with heq | heq
  · rw [heq, hp]
  · rw [heq, Promise.observe]
    split
    · rfl
    · exact hp

theorem arrays_lookAll (h : Heap) (items : List Value) :
    (items.foldl lookAt h).arrays = h.arrays := by
  induction items generalizing h with
  | nil => rfl
  | cons v items ih =>
    rw [List.foldl_cons, ih]
    cases v <;> rfl

/-- What has been looked at stays so. -/
theorem observed_lookAll (items : List Value) (hp : (h.promise p).observed = true) :
    ((items.foldl lookAt h).promise p).observed = true := by
  induction items generalizing h with
  | nil => exact hp
  | cons v items ih => exact ih (observed_lookAt v hp)

theorem observed_of_mem (hmem : .future p ∈ items) {outcome : Except String Value}
    (hp : (h.promise p).outcome? = some outcome) :
    ((items.foldl lookAt h).promise p).observed = true := by
  induction items generalizing h with
  | nil => cases hmem
  | cons v items ih =>
    rcases List.mem_cons.mp hmem with rfl | hmem
    · refine observed_lookAll items ?_
      rw [lookAt, promise_modifyPromise h p p rfl, if_pos rfl, Promise.observe, Promise.isSettled]
      rw [Promise.outcome?] at hp
      cases hstate : (h.promise p).state with
      | pending =>
        rw [hstate] at hp
        cases hp
      | resolved | rejected => rfl
    · exact ih hmem ((outcome?_lookAt h v p).trans hp)

theorem isReady_array_iff {a : ArrayRef} : h.isReady (.array a) = true ↔
    ∀ p, .future p ∈ (h.array a).toList → (h.promise p).outcome? ≠ none := by
  simp only [isReady_iff, reduceCtorEq, false_or, Value.array.injEq, exists_eq_left',
    Promise.isSettled_iff, Array.mem_toList_iff, Option.ne_none_iff_exists']

end Heap

/-! ### The end of an await -/

/-- A machine whose task has awaited the array on top of its stack. -/
def Machine.joined (m : Machine) (items : List Value) :
    Except String (List Value) → EStateM.Result Fault Machine Flow
  | .ok vs =>
    .ok .next { m with
      heap := ((items.foldl Heap.lookAt m.heap).newArray vs.toArray).1
      task := { m.task with
        stack := m.task.stack.pop.push (.array ⟨m.heap.arrays.size⟩), awaiting := false } }
  | .error message =>
    .error (.failure (.raised message)) { m with
      heap := items.foldl Heap.lookAt m.heap
      task := { m.task with stack := m.task.stack.pop, awaiting := false } }

namespace Exec

variable {m m' : Machine} {outcome : PromiseRef → Except String Value} {items : List Value}
  {a : ArrayRef}

theorem run_settledElement {v : Value}
    (hv : ∀ p, v = .future p → (m.heap.promise p).outcome? = some (outcome p)) :
    (settledElement v).run m =
      .ok ((v.awaited outcome).mapError .raised) { m with heap := m.heap.lookAt v } := by
  cases v with
  | future p =>
    simp only [settledElement, settledValue, EStateM.run_bind, run_heap, EStateM.run_modify,
      hv p rfl, Value.awaited]
    cases outcome p <;> rfl
  | _ => rfl

/-- All elements are looked at, whether or not one of them has failed. -/
theorem run_settledElements
    (hitems : ∀ p, .future p ∈ items → (m.heap.promise p).outcome? = some (outcome p)) :
    (items.mapM settledElement).run m =
      .ok (items.map fun v => (v.awaited outcome).mapError .raised)
        { m with heap := items.foldl Heap.lookAt m.heap } := by
  induction items generalizing m with
  | nil => rfl
  | cons v items ih =>
    have hhead := run_settledElement (m := m) (v := v) fun p hp =>
      hitems p (hp ▸ List.mem_cons_self)
    have hrest := ih (m := { m with heap := m.heap.lookAt v }) fun p hp =>
      (Heap.outcome?_lookAt m.heap v p).trans (hitems p (List.mem_cons_of_mem _ hp))
    rw [List.mapM_cons, EStateM.run_bind, hhead]
    dsimp only
    rw [EStateM.run_bind, hrest]
    rfl

theorem mapM_id_inOrder (outcomes : List (Except String Value)) :
    (outcomes.map (·.mapError Failure.raised)).mapM id = (inOrder outcomes).mapError .raised := by
  induction outcomes with
  | nil => rfl
  | cons x outcomes ih =>
    rw [List.map_cons, List.mapM_cons, ih]
    cases x with
    | error message => rfl
    | ok v =>
      rw [inOrder]
      cases inOrder outcomes <;> rfl

theorem run_pop_awaited {S : Array Value} {v : Value} (hS : m.task.stack = S.push v) :
    pop.run ({ m with task := { m.task with awaiting := false } } : Machine) =
      .ok v { m with task := { m.task with stack := S, awaiting := false } } := by
  have h := run_pop ({ m with task := { m.task with awaiting := false } } : Machine) S v
  rw [← hS] at h
  exact h

theorem run_finishAwait_array (htop : m.task.stack.back? = some (.array a))
    (hitems : (m.heap.array a).toList = items)
    (hsettled : ∀ p, .future p ∈ items → (m.heap.promise p).outcome? = some (outcome p)) :
    (andNext finishAwait).run m = m.joined items (inOrder (items.map (·.awaited outcome))) := by
  obtain ⟨S, hS⟩ : ∃ S : Array Value, m.task.stack = S.push (.array a) :=
    Array.back?_eq_some_iff.mp htop
  have hrun := run_settledElements (m := { m with task := { m.task with
    stack := S, awaiting := false } }) hsettled
  have hpop := run_pop_awaited hS
  have hmap : items.map (fun v => (v.awaited outcome).mapError Failure.raised) =
      (items.map (·.awaited outcome)).map (·.mapError .raised) := by
    rw [List.map_map]
    rfl
  simp only [andNext, finishAwait, EStateM.run_bind, run_modifyTask, hpop, run_heap, hitems, hrun,
    run_ofExcept, hmap, mapM_id_inOrder]
  cases inOrder (items.map (·.awaited outcome)) with
  | error message =>
    rw [Machine.joined, hS, Array.pop_push]
    rfl
  | ok vs =>
    rw [Machine.joined, hS, Array.pop_push, ← Heap.arrays_lookAll m.heap items]
    rfl

theorem run_await_array (htop : m.task.stack.back? = some (.array a)) : await.run m =
    if m.heap.isReady (.array a) = true then (andNext finishAwait).run m
    else .ok .suspend { m with task := { m.task with awaiting := true } } := by
  obtain ⟨S, hS⟩ := Array.back?_eq_some_iff.mp htop
  have hpeek : (peek 0).run m = .ok (.array a) m := by
    simp [peek, EStateM.run_bind, EStateM.run_get, hS]
  simp only [await, EStateM.run_bind, hpeek, run_heap, run_ite]
  split <;> rfl

theorem finishAwait_settled (hm : ∀ v, m.task.stack.back? = some v → m.heap.isReady v = true) :
    finishAwait.run m ≠ .error (.failure .stillPending) m' := by
  cases hback : m.task.stack.back? with
  | none =>
    simp only [finishAwait, pop, EStateM.run_bind, run_modifyTask, EStateM.run_get, hback]
    rintro ⟨⟩
  | some v =>
    obtain ⟨S, hS⟩ := Array.back?_eq_some_iff.mp hback
    have hsettled p (hp : v = .future p ∨ ∃ r, v = .array r ∧ .future p ∈ m.heap.array r) :
        (m.heap.promise p).outcome? = some (((m.heap.promise p).outcome?).getD (.error "")) := by
      obtain ⟨outcome, houtcome⟩ := Promise.isSettled_iff.mp (Heap.isReady_iff.mp (hm v hback) p hp)
      rw [houtcome]
      rfl
    cases v with
    | future p =>
      have hrun := run_settledElement (m := { m with task := { m.task with
        stack := S, awaiting := false } }) (v := .future p) fun q hq => hsettled q (.inl hq)
      simp only [finishAwait, EStateM.run_bind, run_modifyTask, run_pop_awaited hS]
      rw [show settledValue p = settledElement (.future p) from rfl, hrun, Value.awaited]
      generalize Option.getD _ _ = outcome
      cases outcome <;> rintro ⟨⟩
    | array a =>
      have hjoined := run_finishAwait_array hback rfl fun p hp =>
        hsettled p (.inr ⟨a, rfl, Array.mem_toList_iff.mp hp⟩)
      intro hrun
      rw [andNext, EStateM.run_bind, hrun] at hjoined
      generalize inOrder _ = result at hjoined
      cases result <;> cases hjoined
    | _ =>
      simp only [finishAwait, EStateM.run_bind, run_modifyTask, run_pop_awaited hS]
      rintro ⟨⟩

theorem await_settled : await.run m ≠ .error (.failure .stillPending) m' := by
  simp only [await, peek, EStateM.run_bind, EStateM.run_get, run_ite, EStateM.run_pure, run_fail]
  by_cases hsize : 0 < m.task.stack.size
  · simp only [if_pos hsize, run_heap, Nat.sub_zero]
    by_cases hready : m.heap.isReady (m.task.stack[m.task.stack.size - 1]?.getD .absent) = true
    · have htop : ∀ v, m.task.stack.back? = some v → m.heap.isReady v = true := by
        intro v hv
        rw [Array.back?] at hv
        rw [hv] at hready
        exact hready
      rw [if_pos hready]
      cases hrun : finishAwait.run m with
      | ok u m1 => rintro ⟨⟩
      | error e m1 =>
        rintro ⟨⟩
        exact finishAwait_settled htop hrun
    · rw [if_neg hready]
      rintro ⟨⟩
  · simp only [if_neg hsize]
    rintro ⟨⟩

end Exec

end TaskBasic
