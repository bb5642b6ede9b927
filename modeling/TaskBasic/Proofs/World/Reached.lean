import TaskBasic.Proofs.World.Fine
import TaskBasic.Session

/-
What can be reached.

An engine is between two evaluations, in a session, or in the middle of one, in
a world.  `Reached P` holds of the situations that can be reached when all
programs that are compiled, modules included, satisfy `P`.  Between evaluations
the host may do what it likes to a session, as long as the functions that values
refer to come from the compiler.

* `Reached.fine` — what lasts holds in every situation that can be reached.
-/

namespace TaskBasic

variable {P : Program → Prop} {G : Function → Prop}

/-! ### Compiled programs -/

theorem Expr.literal?_known {e : Expr} {v : Value} (h : e.literal? = some v) (n : Nat) :
    v.Known n := by
  unfold Expr.literal? at h
  split at h
  case h_5 =>
    obtain ⟨x, _, rfl⟩ := Option.map_eq_some_iff.mp h
    exact x.toValue_known n
  case h_7 => cases h
  all_goals
    cases h
    constructor

theorem Stmt.data_known {s : Stmt} {vs : List Value} (h : s.data = .ok vs) (n : Nat) :
    ∀ v ∈ vs, v.Known n := by
  unfold Stmt.data at h
  split at h
  next =>
    intro v hv
    obtain ⟨e, _, he⟩ := mem_of_mapM_ok h v hv
    split at he
    next heq =>
      cases he
      exact Expr.literal?_known heq n
    next => cases he
  next =>
    cases h
    nofun

theorem Program.data_known {p : Program} {data : Array Value} (h : p.data = .ok data) (n : Nat) :
    ∀ v ∈ data, v.Known n := by
  have hall : ∀ (ss : List Stmt) (pool data : Array Value), (∀ v ∈ pool, v.Known n) →
      ss.foldlM (fun pool (s : Stmt) => do return pool ++ (← s.data).toArray) pool = .ok data →
      ∀ v ∈ data, v.Known n := by
    intro ss
    induction ss with
    | nil =>
      intro pool data hpool h
      cases h
      exact hpool
    | cons s ss ih =>
      intro pool data hpool h
      rw [List.foldlM_cons] at h
      cases hs : s.data with
      | error e =>
        rw [hs] at h
        cases h
      | ok vs =>
        rw [hs] at h
        refine ih _ data (fun v hv => ?_) h
        rcases Array.mem_append.mp hv with hv | hv
        · exact hpool v hv
        · exact Stmt.data_known hs n v (List.mem_toArray.mp hv)
  exact hall _ #[] data nofun h

theorem compiles_of_isRoutine {T : List Stmt → Prop} {Q : StmtKind → Prop}
    (hT : ∀ p, P p → Tidy T (blockNested true p))
    (hQ : ∀ p, P p → ∀ s ∈ blockNested true p, Q s.kind)
    (hG : ∀ {f}, f.IsRoutine T Q → G f) : Compiles P G := by
  intro p interactive base c hp hc
  have hall := compile_isRoutine hc (hT p hp) (hQ p hp)
  have hparts : c.main.arity = 0 ∧ p.data = .ok c.data := by
    simp only [Program.compile, bind, Except.bind, pure, Except.pure] at hc
    split at hc
    next => cases hc
    next data hdata =>
      split at hc
      next => cases hc
      next =>
        cases hc
        exact ⟨rfl, hdata⟩
  exact ⟨fun g hg => hG (hall g hg).1, fun g hg => (hall g hg).2, hparts.1,
    fun n => Program.data_known hparts.2 n⟩

theorem compiles_of_routine {T : List Stmt → Prop} (hT : ∀ p, P p → Tidy T (blockNested true p))
    (hG : ∀ {f ss ms}, Routine T f ss ms → G f) : Compiles P G :=
  compiles_of_isRoutine (Q := fun _ => True) hT (fun _ _ _ _ => trivial)
    fun ⟨_, _, hr, _⟩ => hG hr

/-! ### Situations -/

/-- What an engine can be in: between two evaluations, or in one. -/
inductive Situation
  | resting (s : Session)
  | running (w : World)

/-- The values of a session refer to none but its functions. -/
structure Session.Known (s : Session) : Prop where
  heap : s.shared.heap.Known s.shared.heap.functions.size
  program : s.program.Known s.shared.heap.functions.size

/-- The situations that can be reached if all programs that are compiled satisfy `P`. -/
inductive Reached (P : Program → Prop) : Situation → Prop
  /-- In the beginning there are no values. -/
  | fresh (env : Env) (console : Console) :
    Reached P (.resting { shared := { env := env, console := console } })
  /-- The host changes a session. -/
  | host {s s'} : Reached P (.resting s) →
    s'.shared.heap.functions = s.shared.heap.functions → s'.Known → Reached P (.resting s')
  /-- A program begins. -/
  | begins {s p interactive c} (limit allowance : Nat) : Reached P (.resting s) → P p →
    p.compile interactive s.shared.heap.functions.size = .ok c →
    Reached P (.running (World.start
      { shared := s.shared, limit := limit, allowance := allowance } c s.program none))
  /-- A step. -/
  | ticks {w w'} : Reached P (.running w) → w.Reading P → w.tick = .going w' →
    Reached P (.running w')
  | ends {w w' program result} : Reached P (.running w) → w.Reading P →
    w.tick = .ended w' program result →
    Reached P (.resting { shared := w'.shared, program := program })
  /-- Everything waits for something that does not happen. -/
  | hangs {w w' program} : Reached P (.running w) → w.Reading P → w.tick = .hang w' →
    program.Known w'.shared.heap.functions.size →
    Reached P (.resting { shared := w'.shared, program := program })
  /-- The evaluation is given up. -/
  | stops {w program} : Reached P (.running w) →
    program.Known w.shared.heap.functions.size →
    Reached P (.resting { shared := w.shared, program := program })

/-- The functions of a situation satisfy `G`, its tasks satisfy `I`, and values refer to these
functions only. -/
def Situation.Fine (G : Function → Prop) (I : Array Function → Task → Prop) : Situation → Prop
  | .resting s => s.shared.heap.Fine G ∧ s.program.Known s.shared.heap.functions.size
  | .running w => w.Fine G I

theorem Reached.fine {I : Array Function → Task → Prop}
    (hI : Lasting G I) (hP : Compiles P G) {x : Situation} (h : Reached P x) : x.Fine G I := by
  induction h with
  | fresh env console =>
    have hnone : ∀ g, g ∉ (#[] : Array Function) := fun g => Array.not_mem_empty g
    exact ⟨⟨fun g hg => absurd hg (hnone g), fun g hg => absurd hg (hnone g), Heap.known_empty _⟩,
      Dict.known_empty _, fun v hv => absurd hv (Array.not_mem_empty v)⟩
  | host _ hfs hknown ih =>
    refine ⟨⟨?_, ?_, hknown.heap⟩, hknown.program⟩
    · rw [hfs]
      exact ih.1.functions
    · rw [hfs]
      exact ih.1.known
  | @begins s _ _ _ limit allowance _ hp hc ih =>
    have hw : ({ shared := s.shared, limit := limit, allowance := allowance } : World).Fine G I :=
      ⟨ih.1, fun _ h => absurd h (Array.not_mem_empty _)⟩
    exact hw.start hI (hP hp hc) ih.2.globals none
  | ticks _ hread htick ih =>
    have h := World.Fine.tick hI hP ih hread
    rwa [htick] at h
  | ends _ hread htick ih =>
    have h := World.Fine.tick hI hP ih hread
    rw [htick] at h
    exact ⟨h.1.heap, h.2⟩
  | hangs _ hread htick hprogram ih =>
    have h := World.Fine.tick hI hP ih hread
    rw [htick] at h
    exact ⟨h.heap, hprogram⟩
  | stops _ hprogram ih => exact ⟨ih.heap, hprogram⟩

structure World.Has (w : World) (run : Run) (t : Task) : Prop where
  isRun : some run ∈ w.runs
  isTask : run.current = some t ∨ t ∈ run.scheduler.ready ∨ t ∈ run.scheduler.waiting

theorem World.Fine.task {I : Array Function → Task → Prop} {w : World}
    (hw : w.Fine G I) {run : Run} {t : Task} (ht : w.Has run t) :
    t.Fine I w.shared.heap.functions := by
  have hrun := hw.runs run ht.isRun
  rcases ht.isTask with h | h | h
  · exact hrun.current t h
  · exact hrun.scheduler.ready t h
  · exact hrun.scheduler.waiting t h

end TaskBasic
