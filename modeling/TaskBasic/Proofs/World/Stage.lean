import TaskBasic.Proofs.World.Loads
import TaskBasic.Session

/-
Sequences of evaluations.

`World.Evolves` is one step of the programs that run together, in any order that
the engine may choose: whose turn it is when a program waits, which task that can
go on goes on first, which native work is looked at first, and when files have
been read and sleeps are over.  A stage is a session between two evaluations, or
the world of one that goes on; `Stage.Reached` holds of the stages that any
sequence of evaluations leads to.

* `Stage.Reached.sound` — who loads which module, at every stage.
-/

namespace TaskBasic

open Relation

variable {program : ProgramState} {result : Except EvalError Value}

namespace World

/-- One step, in any order that the engine may choose. -/
inductive Evolves (w : World) : World → Prop
  | ticks {w' : World} : w.tick = .going w' → Evolves w w'
  /-- When no task of a program can go on, another program has its turn. -/
  | turns {run : Run} (r : Nat) : w.run? w.focus = some run → run.ending = none →
    run.current = none → run.scheduler.ready = [] → run.scheduler.natives ≠ [] →
    Evolves w { w with focus := r }
  /-- Tasks go on in another order, and native work is looked at in another order, or more often. -/
  | reorders {r : Nat} {run : Run} {ready : List Task} {queue : List Nat} : w.run? r = some run →
    ready.Perm run.scheduler.ready → run.scheduler.queue ⊆ queue →
    Evolves w (w.setRun r { run with
      scheduler := { run.scheduler with ready := ready, queue := queue } })
  /-- A file has been read. -/
  | reads {n : NativeRef} : n ∈ w.reads →
    Evolves w (World.endRead { w with reads := w.reads.erase n } n)
  /-- A sleep is over. -/
  | wakes {time : Nat} {n : NativeRef} : (time, n) ∈ w.sleepers →
    Evolves w (World.endSleep { w with sleepers := w.sleepers.erase (time, n) } n)
  /-- Time goes on, and files change. -/
  | passes (env : Env) : Evolves w { w with shared := { w.shared with env := env } }

variable {w w' : World} {early : Outline → Sketch → Prop}

theorem Evolves.steps (h : w.Evolves w')
    (hends : ∀ run, w.run? w.focus = some run → run.ending.isSome → early w.outline run.sketch) :
    Outline.Steps early w.outline w'.outline := by
  cases h with
  | ticks htick => exact tick_steps htick hends
  | turns r | passes env => exact .refl
  | @reorders r run ready queue hrun hready =>
    rw [outline_setRun_same hrun]
    refine Run.sketch_congr rfl rfl (Multiset.coe_eq_coe.mpr ?_) rfl rfl
    exact ((hready.append_right _).append_left _).map Task.promise
  | @reads n hn =>
    show Outline.Steps early ({ w with reads := w.reads.erase n } : World).outline _
    exact steps_edits (edits_endRead _ n)
  | @wakes time n hn =>
    exact steps_edits (edits_endSleeps w.sleepers [(time, n)]
      { w with sleepers := w.sleepers.erase (time, n) }
      (fun d hd => List.mem_singleton.mp hd ▸ hn) List.erase_subset)

/-- What the last step of an evaluation is. -/
theorem tick_ended (h : w.tick = .ended w' program result) :
    ∃ run, w.run? w.focus = some run ∧ w' = w.drop w.focus ∧ program = run.program ∧
      (run.owner = none ∨ run.program.path = none) ∧
      (run.ending = some result ∨ run.ending = none ∧ run.scheduler.natives = []) := by
  have hend : ∀ {run : Run} {result' : Except EvalError Value},
      w.endRun w.focus run result' = .ended w' program result →
      w' = w.drop w.focus ∧ program = run.program ∧ (run.owner = none ∨ run.program.path = none) ∧
        result' = result := by
    intro run result' h
    rw [endRun.eq_def] at h
    dsimp only at h
    split at h
    next => split at h <;> cases h
    next hnot =>
      cases h
      refine ⟨rfl, rfl, ?_, rfl⟩
      cases howner : run.owner with
      | none => exact .inl rfl
      | some n =>
        cases hpath : run.program.path with
        | none => exact .inr rfl
        | some path => exact absurd hpath (hnot n path howner)
  rw [tick.eq_def] at h
  split at h
  next => cases h
  next run hrun =>
    split at h
    next result' hending =>
      obtain ⟨hdrop, hprogram, hmain, rfl⟩ := hend h
      exact ⟨run, hrun, hdrop, hprogram, hmain, .inl hending⟩
    next => cases h
    next => cases h
    next hending _ _ =>
      split at h
      next hnatives =>
        obtain ⟨hdrop, hprogram, hmain, _⟩ := hend h
        exact ⟨run, hrun, hdrop, hprogram, hmain, .inr ⟨hending, List.isEmpty_iff.mp hnatives⟩⟩
      next => exact absurd h (goOn_ne_ended hrun)

end World

/-! ### Stages -/

/-- What an engine can be in: a session between two evaluations, or the world of one.  The
evaluation of a file has the path of the file and the promise that it counts as a load with. -/
inductive Stage
  | idle (s : Session)
  | busy (file : Option (String × PromiseRef)) (w : World)

namespace Stage

/-- The stages that sequences of evaluations lead to, if steps are taken in worlds that satisfy
`ok` only. -/
inductive Reached (ok : World → Prop) : Stage → Prop
  /-- In the beginning no module is known. -/
  | fresh (env : Env) (console : Console) :
    Reached ok (.idle { shared := { env := env, console := console } })
  /-- The host changes a session, but neither its modules nor its promises. -/
  | hosts {s s' : Session} (new : Array Promise) : Reached ok (.idle s) →
    s'.shared.modules = s.shared.modules →
    s'.shared.heap.promises = s.shared.heap.promises ++ new → s'.program.path = none →
    Reached ok (.idle s')
  /-- The evaluation of a text begins. -/
  | evals {s : Session} (c : Compiled) (limit allowance : Nat) : Reached ok (.idle s) →
    Reached ok (.busy none (World.start
      { shared := s.shared, limit := limit, allowance := allowance } c s.program none))
  | evalsFile {s : Session} (c : Compiled) (path baseDir : String) (limit allowance : Nat) :
    Reached ok (.idle s) →
    Reached ok (.busy (some (path, ⟨s.shared.heap.promises.size⟩)) (World.start
      { shared := { s.shared with
          heap := (s.shared.heap.newPromise {}).1
          modules := s.shared.modules.begin path ⟨s.shared.heap.promises.size⟩ }
        limit := limit
        allowance := allowance }
      c { s.program with baseDir := baseDir, path := some path } none))
  /-- A step. -/
  | evolves {file : Option (String × PromiseRef)} {w w' : World} : Reached ok (.busy file w) →
    ok w → w.Evolves w' → Reached ok (.busy file w')
  | ends {w w' : World} {program : ProgramState} {result : Except EvalError Value} :
    Reached ok (.busy none w) → ok w → w.tick = .ended w' program result →
    Reached ok (.idle { shared := w'.shared, program := program })
  | endsFile {path : String} {p : PromiseRef} {w w' : World} {program : ProgramState}
      {result : Except EvalError Value} {s : Session} (outcome : Except String Value) :
    Reached ok (.busy (some (path, p)) w) → ok w → w.tick = .ended w' program result →
    s.shared.modules = w'.shared.modules.erase path →
    s.shared.heap.promises = (w'.shared.heap.modifyPromise p (·.settle outcome)).promises →
    s.program.path = none → Reached ok (.idle s)

/-- What holds at every stage. -/
def Sound : Stage → Prop
  | .idle s => s.shared.modules.Sound s.shared.heap.promises.size ∧ s.program.path = none
  | .busy file w => w.outline.Sound file

def modules : Stage → ModuleCache
  | .idle s => s.shared.modules
  | .busy _ w => w.shared.modules

variable {ok : World → Prop} {x : Stage}

theorem sound_start {shared : Shared} {file : Option (String × PromiseRef)}
    (hcache : shared.modules.Sound shared.heap.promises.size)
    (hpath : program.path = file.map Prod.fst)
    (hfile : ∀ path p, file = some (path, p) → shared.modules.get? path = some (.loading p))
    (c : Compiled) (limit allowance : Nat) :
    (World.start { shared := shared, limit := limit, allowance := allowance } c program
      none).outline.Sound file := by
  have hsize : shared.heap.promises.size ≤
      ((shared.heap.promises.map Promise.state).push .pending).size := by
    rw [Array.size_push, Array.size_map]
    omega
  rw [World.outline_start]
  exact Outline.Sound.begins (congrArg (Array.push · _) Array.map_empty) rfl (hcache.mono hsize) rfl
    rfl hpath hfile

theorem Sound.ends {w w' : World} {file : Option (String × PromiseRef)} (h : w.outline.Sound file)
    (htick : w.tick = .ended w' program result) :
    w'.shared.modules.Sound w'.shared.heap.promises.size ∧ program.path = file.map Prod.fst := by
  obtain ⟨run, hrun, rfl, rfl, hmain, _⟩ := World.tick_ended htick
  have hs := World.run?_outline_of hrun
  constructor
  · have hsize : w.outline.states.size = w.shared.heap.promises.size := Array.size_map
    exact hsize ▸ h.cache
  · rcases hmain with howner | hpath
    · exact (h.main hs howner).2
    · cases howner : run.owner with
      | none => exact (h.main hs howner).2
      | some n =>
        obtain ⟨_, path, _, _, hpath'⟩ := h.owned hs howner
        cases hpath.symm.trans hpath'

theorem Reached.sound (h : x.Reached ok) : x.Sound := by
  induction h with
  | fresh env console =>
    refine ⟨⟨nofun, nofun, ?_, ?_⟩, rfl⟩
    · rintro a b ⟨t, ht, _⟩
      cases ht
    · intro a hcycle
      obtain ⟨m, ⟨t, ht, _⟩, _⟩ := TransGen.head'_iff.mp hcycle
      cases ht
  | hosts new _ hmodules hpromises hpath ih =>
    refine ⟨?_, hpath⟩
    rw [hmodules, hpromises, Array.size_append]
    exact ih.1.mono (Nat.le_add_right _ _)
  | evals c limit allowance _ ih =>
    exact sound_start ih.1 ih.2 (fun _ _ hfile => absurd hfile (Option.not_mem_none _)) c limit
      allowance
  | @evalsFile s c path baseDir limit allowance _ ih =>
    refine sound_start ?_ rfl (fun path' p hfile => ?_) c limit allowance
    · show (s.shared.modules.begin path _).Sound (s.shared.heap.promises.push {}).size
      rw [Array.size_push]
      exact ih.1.begin path
    · cases hfile
      rw [ModuleCache.get?_begin, Path.same_refl]
      rfl
  | evolves _ _ hstep ih =>
    have hsteps : Outline.Steps (fun _ _ => True) _ _ := hstep.steps fun _ _ _ => trivial
    exact hsteps.sound ih
  | ends _ _ htick ih => exact Sound.ends ih htick
  | @endsFile path p w w' program result s outcome _ _ htick hmodules hpromises hpath ih =>
    refine ⟨?_, hpath⟩
    rw [hmodules, hpromises, Heap.modifyPromise, Array.size_modify]
    exact (Sound.ends ih htick).1.forgets (ModuleCache.forgets_erase _ _)

end Stage

end TaskBasic
