import TaskBasic.Proofs.Code.Layout
import TaskBasic.Proofs.Machine.Works

/-
What instructions do with values.

Each operation that instructions are made of, and each instruction that only
handles values, is specified once: how many values it takes and leaves, that its
result is known, and what it does to the ledger.

* `works_execute` — the instructions that leave the frames alone.
-/

namespace TaskBasic

namespace Exec

variable {s : Scene} {μ : Mode} {k : Nat} {env : Env} {α : Type} {Q : α → Machine → Prop}
  {S : Nat → α → Machine → Prop}

/-! ### Calls -/

theorem spec_notAFunction (v : Value) : Spec s μ k (notAFunction v : Exec α) Q S :=
  .heap fun _ _ => .fail rfl

theorem works_checkArity (g : Function) (count : Nat) :
    Works s μ k (checkArity g count) k fun _ => g.arity = count := by
  rw [checkArity]
  split
  · exact .pure (by assumption)
  · exact .fail rfl

theorem works_builtin (name : String) : Works s μ k (builtin env name) k fun _ => True := by
  rw [builtin]
  split
  · exact .pure trivial
  · exact .fail rfl

theorem works_applyBuiltin (b : Builtin) {args : List Value} (hargs : ∀ v ∈ args, v.Known s.bound) :
    Works s μ k (applyBuiltin env b args) k fun r => r.Known s.bound := by
  refine .heap fun h hh => ?_
  have hcall := Builtin.gives_call b hh.known env.now hargs
  split
  next heq =>
    rw [heq] at hcall
    exact .bind (works_setHeap (hh.kept hcall.1.1 hcall.1.2)) fun _ _ => .pure hcall.2
  next heq =>
    rw [heq] at hcall
    exact .throw (Fault.isTame_of_isOrdinary hcall)

/-- The element of a container, where it is pushed. -/
theorem works_get {object key : Value} (ho : object.Known s.bound) :
    Works s μ k (do push (← ofExcept ((← heap).get object key))) (k + 1) fun _ => True :=
  .heap fun _ hh => .bind (.ofExcept (Heap.gives_get hh.known ho key)) fun _ => works_push

/-! ### Promises -/

theorem works_newPromise {p : Promise} (hp : p.Known s.bound)
    (σ : Scheduler → PromiseRef → Scheduler) (c : ModuleCache → PromiseRef → ModuleCache)
    (hallows : μ.Allows s.ledger { s.ledger with
      states := s.ledger.states.push p.state
      scheduler := σ s.ledger.scheduler ⟨s.ledger.states.size⟩
      modules := c s.ledger.modules ⟨s.ledger.states.size⟩ })
    (hready : ∀ q, ∀ t ∈ (σ s.ledger.scheduler q).ready,
      t ∈ s.ledger.scheduler.ready ∨ t.IsNew s.toLibrary)
    (hwaiting : ∀ q, (σ s.ledger.scheduler q).waiting = s.ledger.scheduler.waiting) :
    Works s μ k (modifyGet fun m => ((⟨m.heap.promises.size⟩ : PromiseRef),
      { m with
        heap := (m.heap.newPromise p).1
        scheduler := σ m.scheduler ⟨m.heap.promises.size⟩
        modules := c m.modules ⟨m.heap.promises.size⟩ })) k fun _ => True := by
  refine .edit (fun _ _ => rfl) fun m hm =>
    ⟨⟨{ hm.toSound with heap := hm.heap.newPromise hp }, ?_, ?_, ?_⟩, trivial⟩
  all_goals rw [← hm.ledger] at *
  · have hsize : m.ledger.states.size = m.heap.promises.size := Array.size_map
    rw [hsize] at hallows
    show μ.Allows m.ledger ⟨(m.heap.promises.push p).map Promise.state, _, _, _, _, _⟩
    rw [Array.map_push]
    exact hallows
  · exact hready _
  · exact hwaiting _

theorem works_ofValue {v : Value} (hv : v.Known s.bound) :
    Works s .entry k (alloc fun h => h.newPromise (.ofValue v)) k fun _ => True :=
  works_newPromise (Promise.known_ofValue hv) (fun σ _ => σ) (fun c _ => c) (.resolved v)
    (fun _ _ => .inl) fun _ => rfl

theorem works_register (ms : Nat) : Works s .entry k (register (.sleep ms)) k fun _ => True :=
  works_newPromise (Promise.known_pending _) (fun σ p => σ.register (.sleep ms) p) (fun c _ => c)
    (.registered ms) (fun _ _ => .inl) fun _ => rfl

theorem works_spawnFunction {r : FunctionRef} (hr : r.index < s.bound) {args : List Value}
    (hargs : ∀ v ∈ args, v.Known s.bound) :
    Works s .entry k (spawnFunction r args) k fun _ => True := by
  refine .heap fun h hh => .bind (works_checkArity _ _) fun _ harity => ?_
  rw [Heap.function, hh.functions] at harity
  refine works_newPromise (Promise.known_pending _) (fun σ p => σ.spawn r args p) (fun c _ => c)
    (.spawned r args) (fun p t ht => ?_) fun _ => rfl
  rcases List.mem_append.mp ht with ht | ht
  · exact .inl ht
  · exact .inr ⟨_, r, args, p, hr, hargs, harity.symm, List.mem_singleton.mp ht⟩

theorem works_spawnIndex {container : Value} (hc : container.Known s.bound) (key : Value) :
    Works s .entry k (spawnIndex container key) k fun _ => True :=
  .heap fun _ hh => .bind (.ofExcept (Heap.gives_get hh.known hc key)) fun _ => works_ofValue

theorem works_spawn (count : Nat) : Works s .entry (count + 1) (spawn count) 1 fun _ => True := by
  rw [Nat.add_comm]
  refine .bind (works_popMany count) fun args hargs => .bind works_pop fun callee hcallee => ?_
  dsimp only
  split
  · cases hcallee with
    | function hr =>
      exact Works.also (works_spawnFunction hr hargs.2) fun _ _ _ => works_push .future
  · exact Works.also (works_spawnIndex .array _) fun _ _ _ => works_push .future
  · exact Works.also (works_spawnIndex .dict _) fun _ _ _ => works_push .future
  · exact Works.also (P := fun _ => True) (spec_notAFunction _) fun _ _ _ => works_push .future

theorem works_spawnNamed (name : String) (count : Nat) :
    Works s .entry count (spawnNamed env name count) 1 fun _ => True := by
  refine .bind (works_popAll count) fun args hargs => .get (fun _ _ => rfl) fun m hm => ?_
  dsimp only
  split
  next heq =>
    cases hm.globals _ _ heq with
    | function hr =>
      exact Works.also (works_spawnFunction hr hargs.2) fun _ _ _ => works_push .future
  next => exact Works.also (works_spawnIndex .array _) fun _ _ _ => works_push .future
  next => exact Works.also (works_spawnIndex .dict _) fun _ _ _ => works_push .future
  next =>
    refine Works.also (P := fun _ => True) ?_ fun _ _ _ => works_push .future
    refine .bind (works_builtin name) fun b _ => .bind (works_applyBuiltin b hargs.2) fun r hr => ?_
    split
    · exact works_ofValue hr
    · exact works_register _

/-- A module that is being loaded is waited for, unless its load waits for the importer. -/
theorem works_importModule (request : String) :
    Works s .deed k (importModule env request) k fun _ => True := by
  rw [importModule]
  refine .get (fun _ _ => by dsimp only) fun m hm => ?_
  split
  · exact .fail rfl
  dsimp only
  have hmodules : m.modules = s.ledger.modules := congrArg Ledger.modules hm.ledger
  have hpath : m.program.path = s.ledger.path := congrArg Ledger.path hm.ledger
  rw [hmodules, hpath]
  split
  next globals _ =>
    exact works_newPromise (Promise.known_ofValue .dict) (fun σ _ => σ) (fun c _ => c)
      (.enters (.resolved (.dict globals))) (fun _ _ => .inl) fun _ => rfl
  next p hget =>
    split
    · exact .fail rfl
    next hcycle =>
      refine works_newPromise (Promise.known_pending _) (fun σ q => σ.register (.wait p) q)
        (fun c _ => c.noted s.ledger.path _)
          (.waits hget fun importer himporter hleads => hcycle ?_)
        (fun _ _ => .inl) fun _ => rfl
      rw [himporter]
      exact ModuleCache.closesCycle_iff.mpr hleads
  next hget =>
    exact works_newPromise (Promise.known_pending _) (fun σ q => σ.register (.load _) q)
      (fun c q => (c.begin _ q).noted s.ledger.path _) (.loads hget) (fun _ _ => .inl) fun _ => rfl

/-! ### Awaiting -/

theorem states_observe (h : Heap) (p : PromiseRef) :
    (h.modifyPromise p Promise.observe).promises.map Promise.state =
      h.promises.map Promise.state := by
  rw [Heap.modifyPromise]
  apply Array.ext
  · simp
  · intro i _ _
    simp only [Array.getElem_map, Array.getElem_modify]
    split
    · rw [Promise.observe]
      split <;> rfl
    · rfl

theorem ledger_observe (m : Machine) (p : PromiseRef) :
    ({ m with heap := m.heap.modifyPromise p Promise.observe } : Machine).ledger = m.ledger := by
  show Ledger.mk _ _ _ _ _ _ = _
  rw [states_observe]
  rfl

/-- The first of several failures is one of them. -/
theorem mem_of_mapM_error {rs : List (Except Failure α)} {cause : Failure}
    (h : rs.mapM id = .error cause) : .error cause ∈ rs := by
  induction rs with
  | nil => cases h
  | cons r rs ih =>
    rw [List.mapM_cons] at h
    cases r with
    | error c =>
      cases h
      exact List.mem_cons_self ..
    | ok a =>
      cases hrs : rs.mapM id with
      | error c =>
        simp only [id, hrs, bind, Except.bind] at h
        cases h
        exact List.mem_cons_of_mem _ (ih hrs)
      | ok as =>
        simp only [id, hrs, bind, Except.bind, pure, Except.pure] at h
        cases h

/-- The value is known, or what has been raised in its place does not come from the stack. -/
def Settles (n : Nat) : Except Failure Value → Prop
  | .ok v => v.Known n
  | .error cause => cause.blamesStack = false

theorem works_settled {P : α → Prop} {r : Except Failure α} (hok : ∀ a, r = .ok a → P a)
    (herror : ∀ cause, r = .error cause → cause.blamesStack = false) :
    Works s .late k (ofExcept r) k P := by
  cases r with
  | ok a => exact .pure (hok a rfl)
  | error cause =>
    exact ⟨fun _ hm => ⟨hm.toSound.kept hm.ledger, hm.frames, hm.tries, fun _ => rfl⟩,
      fun _ m _ _ => ⟨.error (.failure cause) m, fun _ _ => rfl, herror cause rfl⟩⟩

theorem works_settledValue (p : PromiseRef) :
    Works s .calm k (settledValue p) k (Settles s.bound) := by
  refine .heap fun h hh => .bind (.modify (fun _ _ => rfl) fun m hm => ?_) fun _ _ => ?_
  · exact ⟨{ hm.toSound with heap := hm.heap.modifyPromise fun _ hq => hq.observe },
      ledger_observe m p⟩
  · split
    next heq => exact .pure ((hh.known.promise p).outcome heq)
    · exact .pure rfl
    · exact .pure rfl

theorem works_settledElement {v : Value} (hv : v.Known s.bound) :
    Works s .calm k (settledElement v) k (Settles s.bound) := by
  rw [settledElement.eq_def]
  split
  · exact works_settledValue _
  · exact .pure hv

/-- The value that has been waited for takes the place of the awaited one. -/
theorem spec_finishAwait : Spec s .late (k + 1) finishAwait
    (fun _ m => m.For { s.task with awaiting := false })
    fun _ _ m => m.Like { s.task with awaiting := false } (k + 1) := by
  refine .setAwaiting (Spec.mono (?_ : Works _ _ _ _ (k + 1) fun _ => True) (fun _ _ h => h.1)
    fun _ _ _ h => h.2.1)
  refine .bind works_pop fun v hv => ?_
  dsimp only
  split
  · refine .bind (works_settledValue _) fun r hr =>
      Works.also (works_settled (P := Value.Known s.bound)
      ?_ ?_) fun _ _ hv => works_push hv
    · rintro _ rfl
      exact hr
    · rintro _ rfl
      exact hr
  · refine .heap fun h hh => .bind (.mapM (fun _ => works_settledElement) fun v hv =>
      hh.known.array _ v (Array.mem_toList_iff.mp hv)) fun outcomes hout => ?_
    refine Works.also (works_settled (P := fun items => ∀ v ∈ items, v.Known s.bound)
      (fun items hitems v hv => ?_) fun cause hcause => ?_) fun items _ hitems =>
        .bind (works_newArray hitems) fun _ => works_push
    · obtain ⟨r, hr, rfl⟩ := mem_of_mapM_ok hitems v hv
      exact hout _ hr
    · exact hout _ (mem_of_mapM_error hcause)
  · exact works_push hv

theorem literalEntries_known {n : Nat} {entries : Dict} (he : entries.Known n) {vs : List Value}
    (hvs : ∀ v ∈ vs, v.Known n) : Gives (Dict.Known n) (literalEntries entries vs) := by
  fun_induction literalEntries entries vs with
  | case1 entries key value rest ih =>
    exact ih (he.insert key (hvs _ (by simp))) fun v hv => hvs v (by simp [hv])
  | case2 => rfl
  | case3 => exact he

theorem inputValue_known (n : Nat) (line : String) : (inputValue line).Known n := by
  unfold inputValue
  dsimp only
  split
  · exact .int
  split
  · exact .str
  split
  · exact .str
  split
  · exact .int
  · exact .float

/-! ### Instructions -/

theorem works_binary (op : BinaryOp) : Works s μ 2 (binary op) 1 fun _ => True := by
  refine .bind works_pop fun right _ => .bind works_pop fun left _ => .heap fun h hh => ?_
  have hop := Heap.gives_binary hh.known op left right
  split
  next heq =>
    rw [heq] at hop
    exact .bind (works_setHeap (hh.kept hop.1 hop.2.1)) fun _ _ => works_push hop.2.2
  next heq =>
    rw [heq] at hop
    exact .throw (Fault.isTame_of_isOrdinary hop)

theorem works_setGlobals {globals : Machine → Dict}
    (htask : ∀ m t, globals { m with task := t } = globals m)
    (hglobals : ∀ m, m.In s → (globals m).Known s.bound) :
    Works s μ k (modify fun m => { m with program := { m.program with globals := globals m } }) k
      fun _ => True :=
  .modify (fun m t => by rw [htask]) fun m hm => ⟨{ hm.toSound with globals := hglobals m hm }, rfl⟩

theorem works_mergeGlobals : Works s μ 1 mergeGlobals 0 fun _ => True := by
  refine .bind works_pop fun v _ => ?_
  split
  · exact .heap fun h hh => works_setGlobals (fun _ _ => rfl) fun m hm =>
      hm.globals.merge (hh.known.dict _)
  · exact .fail rfl

theorem works_setCursor (cursor : Nat) :
    Works s μ k (modify fun m => { m with program := { m.program with dataCursor := cursor } }) k
      fun _ => True :=
  .modify (fun _ _ => rfl) fun _ hm => ⟨{ hm.toSound with }, rfl⟩

theorem works_print (line : String) :
    Works s μ k (modify fun m => { m with console := m.console.print line }) k fun _ => True :=
  .modify (fun _ _ => rfl) fun _ hm => ⟨{ hm.toSound with }, rfl⟩

theorem works_readInput (prompt : String) : Works s μ 0 (readInput prompt) 1 fun _ => True := by
  refine .bind (P := fun _ => True) (.edit (fun _ _ => rfl) fun m hm => ?_) fun line _ =>
    works_push ?_
  · exact ⟨Machine.Sound.kept { hm.toSound with } hm.ledger, trivial⟩
  · cases line with
    | none => exact .absent
    | some line =>
      rw [Option.map_some, Option.getD_some]
      exact inputValue_known _ line

end Exec

/-- What an instruction may do to the ledger. -/
def Instr.mode : Instr → Mode
  | importModule _ => .deed
  | await => .late
  | _ => .entry

/-- True for the instructions that only handle values. -/
def Instr.isPlain : Instr → Bool
  | jump _ | jumpIfFalse _ | jumpIfTrue _ | loop _ | call _ | callNamed _ _ | ret | getIndex
  | tryBegin _ | tryEnd | getLocal _ | setLocal _ | await | raise => false
  | _ => true

namespace Exec

variable {s : Scene} {env : Env} {f : Frame} {F : List Frame}

/-- The instructions that only handle values. -/
theorem works_execute (hf : s.task.frames = f :: F) {i : Instr} (hi : i.isPlain = true) :
    Works s i.mode i.takes (execute env i) i.gives fun flow => ∀ v, flow ≠ .finished v := by
  have hnext : ∀ {μ : Mode} {k k' : Nat} {action : Exec Unit},
      Works s μ k action k' (fun _ => True) →
      Works s μ k (andNext action) k' fun flow => ∀ v, flow ≠ .finished v :=
    fun h => .also h fun _ _ _ => .pure nofun
  cases i with
  | constant index => exact hnext (.bind (works_constant hf index) fun _ => works_push)
  | pushAbsent => exact hnext (works_push .absent)
  | pop => exact hnext (.bind works_pop fun _ _ => .pure trivial)
  | dup => exact hnext (.bind (works_peek Nat.one_pos) fun _ => works_push)
  | getGlobal index =>
    refine hnext (.bind (works_name hf index) fun name _ => .get (fun _ _ => rfl) fun m hm => ?_)
    split
    next heq => exact works_push (hm.globals _ _ heq)
    next => exact .fail rfl
  | setGlobal index =>
    exact hnext
      (.bind (works_name hf index) fun name _ => .bind (works_peek Nat.one_pos) fun v hv =>
      works_setGlobals (fun _ _ => rfl) fun m hm => hm.globals.insert name hv)
  | binary op => exact hnext (works_binary op)
  | neg =>
    exact hnext (.bind works_pop fun v _ => .bind (.ofExcept (Heap.gives_negate v)) fun _ =>
      works_push)
  | logicNot | toBool => exact hnext (.bind works_pop fun v _ => .heap fun _ _ => works_push .int)
  | buildArray count =>
    exact hnext (.bind (works_popAll _) fun items hitems => .bind (works_newArray hitems.2)
      fun _ => works_push)
  | buildDict count =>
    exact hnext (.bind (works_popAll _) fun flat hflat => .bind
      (.ofExcept (literalEntries_known (Dict.known_empty _) hflat.2)) fun entries he =>
        .bind (P := fun _ => True) (works_alloc fun _ hh => ⟨hh.newDict he, ⟨rfl, rfl⟩, trivial⟩)
          fun _ _ => works_push .dict)
  | buildTuple count =>
    exact hnext (.bind (works_popAll _) fun _ hvs => works_push (.tuple hvs.2))
  | buildString count =>
    exact hnext (.bind (works_popAll _) fun _ _ => .heap fun _ _ => works_push .str)
  | newArray count =>
    exact hnext (.bind (works_popAll _) fun sizes _ => .heap fun h hh => .bind
      (.ofExcept (Heap.gives_dim sizes hh.known)) fun r hr =>
        .bind (works_setHeap (hh.kept hr.1 hr.2.1)) fun _ _ => works_push hr.2.2)
  | setIndex =>
    exact hnext (.bind works_pop fun v hv => .bind works_pop fun key _ => .bind works_pop
      fun object ho => .heap fun h hh => .bind (.ofExcept (Heap.gives_set hh.known ho hv key))
        fun h' hh' => .bind (works_setHeap (hh.kept hh'.1 hh'.2)) fun _ _ => works_push hv)
  | len =>
    exact hnext (.bind works_pop fun v _ => .heap fun h _ => .bind (.ofExcept (Heap.gives_length v))
      fun _ _ => works_push .int)
  | iterValue =>
    exact hnext (.bind works_pop fun index _ => .bind works_pop fun collection hc =>
      .heap fun h hh =>
      .bind (.ofExcept (Heap.gives_iterValue hh.known hc index)) fun _ => works_push)
  | readData =>
    refine hnext (.get (fun _ _ => rfl) fun m hm => ?_)
    dsimp only
    split
    next heq =>
      exact .bind (works_setCursor _) fun _ _ => works_push (hm.data _ (Array.mem_of_getElem? heq))
    next => exact .fail rfl
  | restoreData => exact hnext (works_setCursor 0)
  | print count =>
    exact hnext (.bind (works_popAll _) fun items _ => .heap fun _ _ => works_print _)
  | debug index =>
    exact hnext (.bind (works_constant hf index) fun label _ => .bind works_pop fun v _ =>
      .heap fun _ _ => works_print _)
  | input prompted =>
    refine hnext ?_
    rw [Instr.takes_input]
    dsimp only
    split
    · exact .bind (P := fun _ => True) (.pure trivial) fun _ _ => works_readInput _
    · exact .bind works_pop fun v _ => .heap fun _ _ =>
        .bind (P := fun _ => True) (.pure trivial) fun _ _ => works_readInput _
  | spawn count => exact hnext (works_spawn _)
  | spawnNamed index count =>
    exact hnext (.bind (works_name hf index) fun name _ => works_spawnNamed name _)
  | importModule index =>
    exact hnext (.bind (works_name hf index) fun name _ => Works.also (works_importModule name)
      fun _ _ _ => works_push .future)
  | mergeGlobals => exact hnext works_mergeGlobals
  | jump _ | jumpIfFalse _ | jumpIfTrue _ | loop _ | call _ | callNamed _ _ | ret | getIndex
  | tryBegin _ | tryEnd | getLocal _ | setLocal _ | await | raise => cases hi

end Exec

end TaskBasic
