import TaskBasic.Proofs.World.ImportGraph

/-
What the evaluation of a file leaves as it was.

While a file is evaluated, imports start from its directory and it counts as a
module that is being loaded; afterwards neither is so.  The modules that have
been loaded stay loaded, except for the file itself: what the cache has held for
it is forgotten.

* `Outline.Step.loaded_stays` — no step touches a module that has been loaded.
* `World.run_ended` — evaluations that come to an end are sequences of steps.
* `Session.evalFile_restores` — what holds after the evaluation of a file.
-/

namespace TaskBasic

open Relation

variable {a : String} {g : DictRef}

namespace Outline

variable {early : Outline → Sketch → Prop} {file : Option (String × PromiseRef)} {o o' : Outline}

/-- A load that begins or ends is that of another module. -/
theorem Step.loaded_stays (hstep : Step early o o') (h : o.Sound file)
    (ha : o.modules.get? a = some (.loaded g)) : o'.modules.get? a = some (.loaded g) := by
  have hother {path : String} (hpath : o.modules.get? path ≠ some (.loaded g)) :
      Path.same path a = false := by
    refine Bool.eq_false_iff.mpr fun hsame => hpath ?_
    rw [ModuleCache.get?_congr hsame, ha]
  have hloading {path : String} (hpath : ∃ p, o.modules.get? path = some (.loading p)) :
      Path.same path a = false := by
    obtain ⟨p, hp⟩ := hpath
    exact hother fun hloaded => by cases hp.symm.trans hloaded
  cases hstep with
  | resolves | spawns | sleeps | proceeds | dozes | rouses | forgets | starts | pays | stops =>
    exact ha
  | completes => exact modules_complete o _ _ ▸ ha
  | waits => exact (o.modules.get?_noted _ _ a).trans ha
  | loads hs hnone =>
    refine (ModuleCache.get?_noted _ _ _ a).trans ?_
    rw [ModuleCache.get?_begin, hother (hnone ▸ by rintro ⟨⟩)]
    exact ha
  | @refuses r id s native path message content hs hn hread =>
    have hdrives : o.Drives file (some ⟨r, id⟩) path native.promise :=
      .native ((native?_of_run? hs).trans hn) (hread ▸ .read content)
    rw [modules_complete, ModuleCache.get?_erase, hloading ⟨_, h.driven hdrives⟩]
    exact ha
  | loaded globals hs _ hpath _ hd =>
    rw [modules_complete, ModuleCache.get?_finish, hloading (h.loading hs hpath), hd.modules]
    exact ha
  | fails message hs _ hpath _ hd =>
    rw [modules_complete, ModuleCache.get?_erase, hloading (h.loading hs hpath), hd.modules]
    exact ha
  | exits hs _ hpath _ hd =>
    rw [ModuleCache.get?_erase, hloading (h.loading hs hpath), hd.modules]
    exact ha

theorem Steps.loaded_stays (hsteps : Steps early o o') (h : o.Sound file)
    (ha : o.modules.get? a = some (.loaded g)) : o'.modules.get? a = some (.loaded g) := by
  induction hsteps with
  | refl => exact ha
  | tail hsteps hstep ih => exact hstep.loaded_stays (Steps.sound hsteps h) ih

end Outline

namespace World

variable {fuel : Nat} {w w' : World} {program : ProgramState} {result : Except EvalError Value}

/-- A run that comes to an end takes steps, of which the last one ends it. -/
theorem run_ended (h : w.run fuel = .ended w' program result) :
    ∃ v, ReflTransGen Evolves w v ∧ v.tick = .ended w' program result := by
  induction fuel generalizing w with
  | zero => cases h
  | succ fuel ih =>
    rw [run] at h
    cases htick : w.tick with
    | going v =>
      rw [htick] at h
      obtain ⟨u, hsteps, hends⟩ := ih h
      exact ⟨u, hsteps.head (.ticks htick), hends⟩
    | ended | hang =>
      rw [htick] at h
      exact ⟨w, .refl, htick.trans h⟩

theorem loaded_of_run {file : Option (String × PromiseRef)}
    (hrun : w.run fuel = .ended w' program result) (h : w.outline.Sound file)
    (ha : w.shared.modules.get? a = some (.loaded g)) :
    w'.shared.modules.get? a = some (.loaded g) := by
  obtain ⟨v, hevolves, htick⟩ := run_ended hrun
  have hsteps : Outline.Steps (fun _ _ => True) w.outline v.outline := by
    clear htick
    induction hevolves with
    | refl => exact .refl
    | tail _ hstep ih => exact ih.trans (hstep.steps fun _ _ _ => trivial)
  obtain ⟨_, _, rfl, _⟩ := tick_ended htick
  exact Outline.Steps.loaded_stays hsteps h ha

end World

namespace Session

/-- A run that comes to an end keeps what has been loaded. -/
theorem loaded_of_run {fuel : Nat} {s : Session} {c : Compiled} {spent : Nat}
    {file : Option (String × PromiseRef)}
    (h : ∀ limit allowance,
      (World.start { shared := s.shared, limit := limit, allowance := allowance }
      c s.program none).outline.Sound file)
    (hends : (s.run fuel c spent).2 ≠ .error .hang)
    (ha : s.shared.modules.get? a = some (.loaded g)) :
    (s.run fuel c spent).1.shared.modules.get? a = some (.loaded g) := by
  rw [run] at hends ⊢
  split at hends
  next hrun => exact World.loaded_of_run hrun (h _ _) ha
  next => exact absurd rfl hends
  next => exact absurd rfl hends

def inFile (s : Session) (path : String) : Session where
  shared := { s.shared with
    heap := (s.shared.heap.newPromise {}).1
    modules := s.shared.modules.begin path (s.shared.heap.newPromise {}).2 }
  program := { s.program with baseDir := Path.directory path, path := some path }

theorem modules_runFile (fuel : Nat) (s : Session) (path : String) (c : Compiled) :
    (s.runFile fuel path c).1.shared.modules =
      ((s.inFile path).run fuel c 1).1.shared.modules.erase path := by
  rw [runFile, inFile]
  dsimp only
  generalize run fuel _ c 1 = x
  obtain ⟨after, _ | _⟩ := x <;> rfl

theorem loaded_of_runFile {fuel : Nat} {s : Session} {path : String} {c : Compiled}
    (hreached : (Stage.idle s).Reached fun _ => True)
    (hends : (s.runFile fuel path c).2 ≠ .error .hang)
    (ha : s.shared.modules.get? a = some (.loaded g)) (hother : Path.same path a = false) :
    (s.runFile fuel path c).1.shared.modules.get? a = some (.loaded g) := by
  have hsound (limit allowance : Nat) :=
    (hreached.evalsFile c path (Path.directory path) limit allowance).sound
  rw [modules_runFile, ModuleCache.get?_erase, hother]
  refine loaded_of_run (s := s.inFile path) hsound hends ?_
  rw [inFile, ModuleCache.get?_begin, hother]
  exact ha

/-- However the evaluation of a file ends, imports start from where they started before and the
session is in the module that it was in; and once it has ended, every other module that had been
loaded is loaded, with the same globals. -/
theorem evalFile_restores (fuel : Nat) (s : Session) (path : String) :
    (s.evalFile fuel path).1.program.baseDir = s.program.baseDir ∧
      (s.evalFile fuel path).1.program.path = s.program.path ∧
      ∀ a g, (Stage.idle s).Reached (fun _ => True) → (s.evalFile fuel path).2 ≠ .error .hang →
        s.shared.modules.get? a = some (.loaded g) →
        (∀ file, s.shared.env.files.canonical path = .ok file → Path.same file a = false) →
        (s.evalFile fuel path).1.shared.modules.get? a = some (.loaded g) := by
  rw [evalFile]
  split
  · exact ⟨rfl, rfl, fun _ _ _ _ ha _ => ha⟩
  · split
    · exact ⟨rfl, rfl, fun _ _ _ _ ha _ => ha⟩
    · split
      · exact ⟨rfl, rfl, fun _ _ _ _ ha _ => ha⟩
      next file hfile =>
        refine ⟨rfl, rfl, fun a g hreached hends ha hother => ?_⟩
        exact loaded_of_runFile hreached hends ha (hother file hfile)

theorem reached_eval {fuel : Nat} {s : Session} {source : String} {interactive : Bool}
    (h : (Stage.idle s).Reached fun _ => True)
    (hends : (s.eval fuel source interactive).2 ≠ .error .hang) :
    (Stage.idle (s.eval fuel source interactive).1).Reached fun _ => True := by
  rw [eval] at hends ⊢
  split at hends
  next => exact h
  next c _ =>
    rw [run] at hends ⊢
    split at hends
    next hrun =>
      obtain ⟨v, hsteps, htick⟩ := World.run_ended hrun
      exact ((h.evals c _ _).evolvesTo (fun _ => trivial) hsteps).ends trivial htick
    next => exact absurd rfl hends
    next => exact absurd rfl hends

/-- The evaluation of a text that imports two modules. -/
def importBoth : Session × Except EvalError Value :=
  eval 60 { shared := { env := { files := { contents :=
    [(["k.mn"], "x = 1\n"), (["m.mn"], "y = 2\n")] } } } } "import \"k\"\nimport \"m\"\n" false

/-- The evaluation of one module leaves the other one loaded; of the one itself the cache knows
nothing more, so that it is loaded again when it is imported. -/
theorem importBoth_restored :
    importBoth.1.shared.modules.get? "/k.mn" = some (.loaded ⟨0⟩) ∧
      importBoth.1.shared.modules.get? "/m.mn" = some (.loaded ⟨1⟩) ∧
      (importBoth.1.evalFile 60 "/m.mn").1.shared.modules.get? "/k.mn" = some (.loaded ⟨0⟩) ∧
      (importBoth.1.evalFile 60 "/m.mn").1.shared.modules.get? "/m.mn" = none := by
  have hk : importBoth.1.shared.modules.get? "/k.mn" = some (.loaded ⟨0⟩) := by decide +kernel
  have hfile : (importBoth.1.shared.env.files.canonical "/m.mn").toOption = some "/m.mn" := by
    decide +kernel
  have hno {r : Except EvalError Value} (hr : r.toOption.isSome = true) : r ≠ .error .hang := by
    rintro rfl
    cases hr
  refine ⟨hk, by decide +kernel, ?_, by decide +kernel⟩
  refine (evalFile_restores 60 importBoth.1 "/m.mn").2.2 _ _ ?_ (hno (by decide +kernel)) hk ?_
  · exact reached_eval (.fresh _ _) (hno (by decide +kernel))
  · intro file hcanonical
    rw [hcanonical] at hfile
    cases hfile
    decide +kernel

end Session

end TaskBasic
