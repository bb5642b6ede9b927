import TaskBasic.Proofs.Heap.Literal
import TaskBasic.Proofs.Machine.Evaluates
import TaskBasic.Proofs.Stmt.Simple
import TaskBasic.Session

/-
Texts of values that are evaluated.

A text that spells an expression is a program of one statement.  Its code in a
session is that of the expression and a return, so that the session ends with the
value of the expression.

* `Program.ofText_expr` — such a text is parsed as the expression.
* `World.run_steps` — the steps of a machine as steps of the world.
* `Session.run_expr` — the session ends with the value.
* `repr_round_trip` — for the text of a plain value that is a value like it.
-/

namespace TaskBasic

variable {e : Expr} {c : Compiled} {v : Value} {h : Heap}

/-! ### A program of one expression -/

namespace Parse

variable {c : Cursor} {k : TokenKind}

theorem run_statement_expr {fuel : Nat} (hk : c.current.kind.begins .disjunction = true)
    (hspawn : c.current.kind ≠ .keyword .kwSpawn) :
    (statement (fuel + 1)).run c =
      (evaluation fuel >>= fun kind => pure (Stmt.mk c.current.line kind)).run c := by
  rw [statement, run_bind_ok (run_line c), run_bind_ok (run_kind c)]
  have hsimple : simple fuel c = evaluation fuel c := simple_eq_evaluation hk hspawn
  have hrest : (simple fuel >>= fun kind => pure (Stmt.mk c.current.line kind)).run c =
      (evaluation fuel >>= fun kind => pure (Stmt.mk c.current.line kind)).run c := by
    rw [StateT.run_bind, StateT.run_bind]
    exact congrArg (· >>= _) hsimple
  cases hkind : c.current.kind with
  | keyword m =>
    rw [hkind] at hk
    cases m <;> first | cases hk; done | exact hrest
  | _ => exact hrest

end Parse

open Parse in
theorem Program.ofText_expr {source : String} {ks : List TokenKind}
    (hkinds : (Cursor.ofText source 1).kinds = ks ++ [.eof])
    (h : Spells (.expr .disjunction e) ks) (hspawn : ks.head? ≠ some (.keyword .kwSpawn)) :
    ∃ line, Program.ofText source = .ok [.mk line (.eval e)] := by
  have hweight := Cursor.weight_ofText hkinds
  rw [Program.ofText, parseFuel]
  obtain ⟨f, hf⟩ : ∃ f, 16 * (source.length + 2) = f + 3 := ⟨16 * (source.length + 2) - 3, by omega⟩
  rw [hf]
  generalize Cursor.ofText source 1 = c at hkinds ⊢
  have hsees : c.Sees ks .eof := ⟨[], by rw [hkinds, List.append_nil]⟩
  obtain ⟨k, ls, rfl, hk⟩ := h.begins rfl
  -- the statement is read as an expression, and the text ends behind it
  have hbegins : c.current.kind.begins .disjunction = true := by
    rw [← hk, ← hsees.head]
    cases c.current.kind <;> rfl
  have hnewline : c.current.kind ≠ .newline := fun heq => by rw [heq] at hbegins; cases hbegins
  have hcolon : c.current.kind ≠ .mark .colon := fun heq => by rw [heq] at hbegins; cases hbegins
  have hnotSpawn : c.current.kind ≠ .keyword .kwSpawn := fun heq => by
    have hhead := hsees.head
    rw [heq] at hhead
    exact hspawn (congrArg some hhead.symm)
  have hexpr : (parseExpr (f + 1)).run c = .ok (e, c.skip (k :: ls).length) :=
    h.read (by simp only [ExprForm.fuel, Level.rank]; omega)
      ⟨fun ℓ _ => by cases ℓ <;> rfl, rfl, rfl⟩
      c hsees
  have heof : (c.skip (k :: ls).length).current.kind = .eof :=
    TokenKind.eq_of_bare hsees.behind.here (by rintro _ ⟨⟩)
  generalize c.skip (k :: ls).length = c' at hexpr heof
  have hassign : (atMark .assign).run c' = .ok (false, c') := by
    rw [run_atMark, heof]
    rfl
  have hevaluation : (evaluation (f + 1)).run c = .ok (.eval e, c') := by
    rw [evaluation, run_bind_ok hexpr, run_bind_ok hassign]
    rfl
  have hstatement : (statement (f + 2)).run c = .ok (.mk c.current.line (.eval e), c') := by
    rw [run_statement_expr hbegins hnotSpawn, run_bind_ok hevaluation]
    rfl
  have hseparators : skipSeparators.run c' = .ok ((), c') :=
    run_skipSeparators (by rw [heof]; rintro ⟨⟩) (by rw [heof]; rintro ⟨⟩)
  have hend : expectTerminator.run c' = .ok ((), c') := by
    have hterminator : atTerminator.run c' = .ok (true, c') := by
      rw [atTerminator, run_bind_ok (run_kind c'), heof]
      rfl
    rw [expectTerminator, run_bind_ok hterminator]
    exact hseparators
  have hbehind : (block (f + 2) [] [.mk c.current.line (.eval e)]).run c' =
      .ok ([.mk c.current.line (.eval e)], c') := by
    rw [block, run_bind_ok hseparators, run_bind_ok (run_kind c'), heof]
    rfl
  have hopen : (c.current.kind.isEof || [].any c.current.kind.isKeyword) = false := by
    cases hkind : c.current.kind <;> rw [hkind] at hbegins <;> first | rfl | cases hbegins
  have hblock : (block (f + 3) [] []).run c = .ok ([.mk c.current.line (.eval e)], c') := by
    rw [block, run_bind_ok (run_skipSeparators hnewline hcolon), run_bind_ok (run_kind c), hopen]
    show (statement (f + 2) >>= _).run c = _
    rw [run_bind_ok hstatement, run_bind_ok hend, hbehind]
  have hatEof : atEof.run c' = .ok (true, c') := by
    rw [atEof, run_bind_ok (run_kind c'), heof]
    rfl
  have hprogram : (Parse.program (f + 3)).run c = .ok ([.mk c.current.line (.eval e)], c') := by
    rw [Parse.program, run_bind_ok hblock, run_bind_ok hatEof]
    rfl
  exact ⟨c.current.line, congrArg (Except.map (·.1)) hprogram⟩

open Compile in
/-- The code of such a program in a session: that of the expression, and a return. -/
theorem Program.compile_expr {line base : Nat}
    (h : Program.compile [.mk line (.eval e)] true base = .ok c) :
    ∃ (A : Fragment) (d : Draft), (Compile.expr e).run { base := base, line := line } = .ok (A, d) ∧
      c.main.chunk = Fragment.chunk (A ++ #[⟨d.line, .instr .ret⟩]) d.constants := by
  simp only [Program.compile, bind, Except.bind, pure, Except.pure] at h
  split at h
  next => cases h
  next data _ =>
    split at h
    next => cases h
    next result hrun =>
      obtain ⟨code, d⟩ := result
      cases h
      have hrun : (Compile.program (Program.fuel [.mk line (.eval e)]) true
          [.mk line (.eval e)]).run { base := base } = .ok (code, d) := hrun
      simp only [Compile.program, run_bind_ok, run_pure_ok] at hrun
      obtain ⟨A, d1, hA, B, d2, hB, C, _, hC, rfl, rfl⟩ := hrun
      -- there are no functions, and nothing before the last statement
      cases hA
      cases hB
      simp only [List.getLast?_singleton, ending, if_true, run_bind_ok, run_modify_ok, run_emit_ok,
        run_pure_ok] at hC
      obtain ⟨_, _, rfl, A, d', he, _, _, ⟨rfl, rfl⟩, rfl, rfl⟩ := hC
      exact ⟨A, d', he, by simp⟩

/-! ### Steps of the world -/

namespace World

variable {w : World} {run : Run} {m m' : Machine} {t t' : Option Task}

/-- The run that `putBack` leaves behind. -/
def puttingBack (run : Run) (m : Machine) (t : Option Task) : Run :=
  { run with program := m.program, scheduler := m.scheduler, current := t }

theorem run?_putBack_focus (h : w.focus < w.runs.size) :
    (w.putBack w.focus run m t).run? w.focus = some (puttingBack run m t) := by
  simp only [putBack, run?, setRun, Array.getElem?_setIfInBounds_self_of_lt h]
  rfl

theorem putBack_putBack :
    (w.putBack w.focus run m t).putBack w.focus (puttingBack run m t) m' t' =
      w.putBack w.focus run m' t' := by
  simp only [putBack, setRun, puttingBack, Array.setIfInBounds_setIfInBounds]

theorem tick_putBack (h : w.focus < w.runs.size) (hending : run.ending = none) :
    (w.putBack w.focus run m (some m.task)).tick = .going
      ((w.putBack w.focus run m (some m.task)).runTask w.focus (puttingBack run m (some m.task))
        m.task) := by
  have hfocus : (w.putBack w.focus run m (some m.task)).focus = w.focus := rfl
  rw [tick, hfocus, run?_putBack_focus h]
  simp only [puttingBack, hending]

theorem canResume_putBack (hawaiting : m.task.awaiting = false) :
    (!m.task.canResume (w.putBack w.focus run m t).shared.heap) = false := by
  rw [Task.canResume, hawaiting]
  rfl

/-- The running task takes a step of the machine. -/
theorem taskAction_putBack (hawaiting : m.task.awaiting = false) :
    (taskAction (w.putBack w.focus run m t).shared.env m.task).run
      { heap := (w.putBack w.focus run m t).shared.heap,
        console := (w.putBack w.focus run m t).shared.console,
        modules := (w.putBack w.focus run m t).shared.modules,
        program := (puttingBack run m t).program,
        scheduler := (puttingBack run m t).scheduler, task := m.task } =
      (Exec.step w.shared.env).run m := by
  rw [taskAction, hawaiting]
  rfl

/-- An instruction is a step of the world. -/
theorem tick_next (h : w.focus < w.runs.size) (hending : run.ending = none)
    (hawaiting : m.task.awaiting = false) (hstep : (Exec.step w.shared.env).run m = .ok .next m') :
    (w.putBack w.focus run m (some m.task)).tick =
      .going (w.putBack w.focus run m' (some m'.task)) := by
  rw [tick_putBack h hending, runTask, canResume_putBack hawaiting, if_neg Bool.false_ne_true]
  simp only [taskAction_putBack hawaiting, hstep]
  exact congrArg Progress.going putBack_putBack

theorem tick_finished (h : w.focus < w.runs.size) (hending : run.ending = none)
    (hawaiting : m.task.awaiting = false)
    (hstep : (Exec.step w.shared.env).run m = .ok (.finished v) m') :
    (w.putBack w.focus run m (some m.task)).tick = .going
      (((w.putBack w.focus run m' none).settle m'.task.promise (.ok v)).wake w.focus) := by
  rw [tick_putBack h hending, runTask, canResume_putBack hawaiting, if_neg Bool.false_ne_true]
  simp only [taskAction_putBack hawaiting, hstep]
  exact congrArg
    (fun w' : World => Progress.going ((w'.settle m'.task.promise (.ok v)).wake w.focus))
    putBack_putBack

theorem run_steps (h : w.focus < w.runs.size) (hending : run.ending = none)
    (hsteps : Steps w.shared.env m m') (hawaiting : m.task.awaiting = false) :
    ∃ n, ∀ fuel, World.run (n + fuel) (w.putBack w.focus run m (some m.task)) =
      World.run fuel (w.putBack w.focus run m' (some m'.task)) := by
  induction hsteps using Relation.ReflTransGen.head_induction_on with
  | refl => exact ⟨0, fun fuel => by rw [Nat.zero_add]⟩
  | head hstep _ ih =>
    obtain ⟨n, hn⟩ := ih (hstep.2.trans hawaiting)
    refine ⟨n + 1, fun fuel => ?_⟩
    rw [Nat.succ_add, World.run, tick_next h hending hawaiting hstep.1]
    exact hn fuel

end World

/-! ### Sessions -/

/-- A return from the only frame ends the task. -/
theorem Exec.run_ret_poised {m : Machine} {f : Frame} {ip : Nat} {S : Array Value}
    (env : Env) (v : Value) :
    (Exec.execute env .ret).run (m.poised f [] ip h (S.push v)) = .ok (.finished v)
      { m with
        heap := h
        task := { m.task with
          frames := []
          tries := m.task.tries.filter fun b => decide (b.frameDepth ≤ 0)
          stack := S.take (f.base - 1) } } := by
  have hpop : pop.run (m.poised f [] ip h (S.push v)) = .ok v (m.poised f [] ip h S) :=
    run_pop (m.poised f [] ip h S) S v
  show ret.run _ = _
  simp only [ret, EStateM.run_bind, hpop]
  rfl

namespace Session

/-- The heap in which a session begins to run a program. -/
def begun (s : Session) (c : Compiled) : Heap :=
  { s.shared.heap with
    functions := (s.shared.heap.functions ++ c.functions).push c.main
    promises := s.shared.heap.promises.push {} }

/-- The machine with which a session begins to run a program. -/
def machine (s : Session) (c : Compiled) : Machine where
  heap := s.begun c
  console := s.shared.console
  modules := s.shared.modules
  program := { s.program with data := c.data, dataCursor := 0 }
  scheduler := { nextTask := 1 }
  task := Task.start 0 ⟨(s.shared.heap.functions ++ c.functions).size⟩ []
    ⟨s.shared.heap.promises.size⟩

/-- The frame of the program. -/
def frame (s : Session) (c : Compiled) : Frame :=
  ⟨⟨(s.shared.heap.functions ++ c.functions).size⟩, 0, 1⟩

theorem function_begun (s : Session) (c : Compiled) :
    (s.begun c).function (s.frame c).function = c.main := by
  simp only [begun, frame, Heap.function, Array.getElem?_push_size, Option.getD_some]

/-- The world in which a session runs a program. -/
def world (s : Session) : World :=
  { shared := s.shared, limit := s.shared.env.now + patience, allowance := roundAllowance }

def mainRun (s : Session) (c : Compiled) : Run where
  program := { s.program with data := c.data, dataCursor := 0 }
  scheduler := { nextTask := 1 }
  main := ⟨s.shared.heap.promises.size⟩

theorem run_of_ended (s : Session) {c : Compiled} {fuel : Nat} {w : World} {program : ProgramState}
    {result : Except EvalError Value}
    (h : (s.world.start c s.program none).run fuel = .ended w program result) :
    s.run fuel c 0 = ({ shared := w.shared, program := program }, result) := by
  have hworld : World.mk s.shared #[] 0 [] [] [] (roundAllowance - 0) []
      (s.shared.env.now + patience) = s.world := rfl
  simp only [Session.run, hworld, h]

theorem run_start (s : Session) (c : Compiled) (fuel : Nat) :
    (s.world.start c s.program none).run (fuel + 1) =
      World.run fuel
        ((s.world.start c s.program none).putBack (s.world.start c s.program none).focus
        (s.mainRun c) (s.machine c) (some (s.machine c).task)) := by
  have htick : (s.world.start c s.program none).tick = .going
      ((s.world.start c s.program none).putBack 0 (s.mainRun c) (s.machine c)
        (some (s.machine c).task)) := rfl
  rw [World.run, htick]
  rfl

def ended (s : Session) (h : Heap) (v : Value) : Shared :=
  { s.shared with
    heap := h.modifyPromise ⟨s.shared.heap.promises.size⟩ fun p => p.settle (.ok v) }

def after (s : Session) (c : Compiled) (h : Heap) (v : Value) : Session where
  shared := s.ended h v
  program := { s.program with data := c.data, dataCursor := 0 }

theorem run_finished (s : Session) (c : Compiled) {t : Task} (v : Value)
    (hpromises : h.promises = s.shared.heap.promises.push {})
    (ht : t.promise = ⟨s.shared.heap.promises.size⟩) (fuel : Nat) :
    ∃ w : World, w.shared = s.ended h v ∧
      World.run (fuel + 1) ((((s.world.start c s.program none).putBack 0 (s.mainRun c)
        { s.machine c with heap := h, task := t } none).settle t.promise (.ok v)).wake 0) =
      .ended w { s.program with data := c.data, dataCursor := 0 } (.ok v) := by
  have houtcome : ((s.ended h v).heap.promise ⟨s.shared.heap.promises.size⟩).outcome? =
      some (.ok v) := by
    have hget : (s.ended h v).heap.promise ⟨s.shared.heap.promises.size⟩ =
        ({} : Promise).settle (.ok v) := by
      simp only [ended, Heap.modifyPromise, Heap.promise, hpromises, Array.getElem?_modify,
        Array.getElem?_push_size, if_true, Option.map_some, Option.getD_some]
    rw [hget]
    rfl
  let w : World := { s.world with
    shared := s.ended h v
    runs := #[some (s.mainRun c)] }
  have hworld : ((((s.world.start c s.program none).putBack 0 (s.mainRun c)
      { s.machine c with heap := h, task := t } none).settle t.promise (.ok v)).wake 0) = w := by
    rw [ht]
    rfl
  have htick : w.tick = .ended (w.drop 0) { s.program with data := c.data, dataCursor := 0 }
    (.ok v) := by
    have hresting : w.restingResult (s.mainRun c) = .ok v := by
      have hmain : (w.shared.heap.promise (s.mainRun c).main).outcome? = some (.ok v) := houtcome
      rw [World.restingResult, hmain]
      rfl
    show w.endRun 0 (s.mainRun c) (w.restingResult (s.mainRun c)) = _
    rw [hresting]
    rfl
  refine ⟨w.drop 0, rfl, ?_⟩
  rw [hworld, World.run, htick]

theorem before_expr {s : Session} {d d' : Draft} {A : Fragment}
    (he : (Compile.expr e).run d = .ok (A, d')) (hoffset : d.offset = 0)
    (hscope : d.scope.locals = [])
    (hglobals : d.globals = [])
    (hchunk : c.main.chunk = Fragment.chunk (A ++ #[⟨d'.line, .instr .ret⟩]) d'.constants) :
    (s.machine c).Before (s.frame c) [] ⟨[], [], s.program.globals⟩ d A d' ∧
      decode c.main.chunk.code d'.offset = .ok (.ret, d'.offset + 1) := by
  obtain ⟨ms, hp⟩ := Compile.pushes_expr (D := []) he
  have hresolved : Fragment.Resolved (A ++ #[(⟨d'.line, .instr .ret⟩ : Piece)]).toList := by
    intro p hmem x hx
    rw [Array.toList_append, List.mem_append] at hmem
    rcases hmem with hmem | hmem
    · exact hp.resolved p hmem x hx
    · cases List.mem_singleton.mp hmem
      cases hx
  have hsits : Fragment.Sits c.main.chunk.code (fun _ => 0) d.offset
      (A ++ #[(⟨d'.line, .instr .ret⟩ : Piece)]).toList := by
    rw [hchunk, hoffset]
    exact Fragment.sits_chunk _ hresolved _
  obtain ⟨hcode, hret⟩ := hsits.split hp.emitted.offset
  refine ⟨⟨rfl, hoffset.symm, ?_, ?_, ⟨?_, nofun, hglobals.symm, ?_⟩, rfl⟩, hret.decode rfl⟩
  · show Fragment.Sits ((s.begun c).function _).chunk.code _ _ _
    rwa [s.function_begun]
  · show Extends d'.constants ((s.begun c).function _).chunk.constants
    rw [s.function_begun, hchunk, Fragment.chunk_constants]
    exact .refl _
  · rw [hscope]
    rfl
  · rw [hscope]
    exact Nat.zero_le _

theorem run_expr {s : Session} {line : Nat}
    (hc : Program.compile [.mk line (.eval e)] true s.shared.heap.functions.size = .ok c)
    (hv : (e.value (Bindings.mk [] [] s.program.globals).read).run (s.begun c) = .ok v h) :
    ∃ n, ∀ fuel, n ≤ fuel → s.run fuel c 0 = (s.after c h v, .ok v) := by
  obtain ⟨A, d', he, hchunk⟩ := Program.compile_expr hc
  obtain ⟨hm, hret⟩ := before_expr (s := s) he rfl rfl rfl hchunk
  have hgrows : (s.begun c).Grows h := by
    have hvalue := (e.value_grows (Bindings.mk [] [] s.program.globals).read).grows (s.begun c)
    rwa [hv] at hvalue
  -- the value is computed, and returned
  have hdelivers := hm.delivers he s.shared.env
  rw [Eval.run_map, show (s.machine c).heap = s.begun c from rfl, hv] at hdelivers
  have hsteps : Steps s.shared.env (s.machine c) ((s.machine c).poised (s.frame c) [] d'.offset h
      ((s.machine c).task.stack.push v)) := by
    rw [← Array.append_singleton]
    exact hm.poised_start ▸ hdelivers
  have hfunction : h.function (s.frame c).function = c.main :=
    (hgrows.function _).trans (s.function_begun c)
  have hend : (Exec.step s.shared.env).run ((s.machine c).poised (s.frame c) [] d'.offset h
      ((s.machine c).task.stack.push v)) = _ :=
    (run_step hfunction hret).trans (Exec.run_ret_poised s.shared.env v)
  have hmain : (s.mainRun c).ending = none := rfl
  obtain ⟨n, hn⟩ := World.run_steps (w := s.world.start c s.program none) Nat.zero_lt_one hmain
    hsteps rfl
  have hfinished := World.tick_finished (w := s.world.start c s.program none) Nat.zero_lt_one hmain
    rfl hend
  refine ⟨n + 3, fun fuel hfuel => ?_⟩
  obtain ⟨k, rfl⟩ : ∃ k, fuel = n + (k + 2) + 1 := ⟨fuel - (n + 3), by omega⟩
  let t : Task := { (s.machine c).task with
    frames := []
    tries := (s.machine c).task.tries.filter fun b => decide (b.frameDepth ≤ 0)
    stack := (s.machine c).task.stack.take ((s.frame c).base - 1) }
  obtain ⟨w', hshared, hw'⟩ := s.run_finished c (t := t) v hgrows.promises rfl k
  have hrun : (s.world.start c s.program none).run (n + (k + 2) + 1) =
      .ended w' { s.program with data := c.data, dataCursor := 0 } (.ok v) := by
    rw [s.run_start, hn, World.run, hfinished]
    exact hw'
  rw [after, ← hshared]
  exact s.run_of_ended hrun

end Session

theorem Heap.Plain.head_tokens {n : Nat} (hv : h.Plain n v) :
    (h.tokens n v).head? ≠ some (.keyword .kwSpawn) := by
  cases n with
  | zero => exact hv.elim
  | succ n =>
    cases v with
    | int i =>
      rw [Heap.tokens, intTokens]
      split
      · rintro ⟨⟩
      · split <;> rintro ⟨⟩
    | absent | str | array | dict => rintro ⟨⟩
    | _ => exact hv.elim

/-- Printing and evaluating are inverse: the text of a plain value is a program, and if it can be
compiled in a session, then the session ends with a value that is made of the same ints and texts in
the same way, and is equal to the value that was printed. -/
theorem repr_round_trip {s : Session} {v : Value} (hv : s.shared.heap.Plain textLevels v) :
    ∃ p, Program.ofText (s.shared.heap.repr v) = .ok p ∧
      ∀ c, p.compile true s.shared.heap.functions.size = .ok c →
        ∃ n, ∀ fuel, n ≤ fuel → ∃ (s' : Session) (v' : Value),
          s.eval fuel (s.shared.heap.repr v) true = (s', .ok v') ∧
            s.shared.heap.Alike s'.shared.heap textLevels v v' ∧
            s'.shared.heap.equal v v' = some true := by
  have hscans := hv.scans 0 [] [.eof] delimited_nil .eof
  rw [List.append_nil] at hscans
  obtain ⟨line, hp⟩ := Program.ofText_expr (hscans.kinds 1) hv.spells hv.head_tokens
  refine ⟨_, hp, fun c hc => ?_⟩
  obtain ⟨v', h, k, hrun, hgrows, hk, hlevels, halike⟩ := hv.value (s.begun c)
  obtain ⟨n, hn⟩ := Session.run_expr hc hrun
  -- the end of the program settles a promise, and leaves all containers as they are
  have hwithin : s.shared.heap.Within (s.ended h v').heap := ⟨hgrows.arrays, hgrows.dicts⟩
  have hended {m : Nat} (hm : k ≤ m) : s.shared.heap.Alike (s.ended h v').heap m v v' :=
    halike.mono ⟨List.prefix_refl _, List.prefix_refl _⟩ hm
  have hcontainers : k ≤ (s.ended h v').heap.equalLevels := by
    have hle : h.containers + 1 ≤ (s.ended h v').heap.equalLevels := Heap.le_equalLevels _
    omega
  have hcompile : compileText (s.shared.heap.repr v) true s.shared.heap.functions.size = .ok c := by
    rw [compileText, Heap.repr, hp]
    simp only [hc]
    rfl
  refine ⟨n, fun fuel hfuel => ⟨s.after c h v', v', ?_, hended hk,
    (hended hcontainers).equal? hv hwithin⟩⟩
  rw [Session.eval, hcompile]
  exact hn fuel hfuel

/-- An array with the least int, a text with a quote, and a dictionary with an array. -/
theorem nested_array_round_trip :
    let s : Session := { shared := { heap := {
      arrays := #[#[.int leastInt, .str "a\"b", .dict ⟨0⟩], #[.absent]]
      dicts := #[Std.TreeMap.ofList [("k", Value.array ⟨1⟩)]] } } }
    let v : Value := .array ⟨0⟩
    s.shared.heap.repr v = "[-9223372036854775808, \"a\\\"b\", \x7b\"k\": [None]\x7d]" ∧
      ∃ n, ∀ fuel, n ≤ fuel → ∃ (s' : Session) (v' : Value),
        s.eval fuel (s.shared.heap.repr v) true = (s', .ok v') ∧
          s.shared.heap.Alike s'.shared.heap textLevels v v' ∧
          s'.shared.heap.equal v v' = some true := by
  intro s v
  refine ⟨by decide +kernel, ?_⟩
  obtain ⟨p, hp, hround⟩ := repr_round_trip (s := s) (v := v) (by decide +kernel)
  have hok : ((Program.ofText (s.shared.heap.repr v)).toOption.any fun p =>
      (p.compile true s.shared.heap.functions.size).isOk) = true := by decide +kernel
  rw [hp] at hok
  cases hc : p.compile true s.shared.heap.functions.size with
  | ok c => exact hround c hc
  | error e =>
    have hok : (p.compile true s.shared.heap.functions.size).isOk = true := hok
    rw [hc] at hok
    cases hok

end TaskBasic
