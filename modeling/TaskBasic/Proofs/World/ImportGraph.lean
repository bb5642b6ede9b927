import TaskBasic.Proofs.World.Stage
import TaskBasic.Proofs.World.Wakeups

/-
Loads do not wait for each other in a circle.

The cache records which module that is being loaded waits for which.  An import
that has to wait is checked against the record, an import that begins a load is
not; it needs no check, because a module that is not known waits for nothing.

* `awaitsLoad_waits` — what modules really wait for has been recorded.
* `imports_acyclic` — at every stage the record has no circle.
-/

namespace TaskBasic

open Relation

namespace World

variable {w : World} {file : Option (String × PromiseRef)} {a b : String}

/-- A program of the module `a` has native work that loads the module `b` or waits for its load. -/
def AwaitsLoad (w : World) (a b : String) : Prop :=
  ∃ r run importer, w.run? r = some run ∧ run.program.path = some importer ∧
    Path.same importer a = true ∧
    ∃ n ∈ run.scheduler.natives, ∃ path, w.outline.Seeks n.work path ∧ Path.same path b = true

theorem awaitsLoad_waits (h : w.outline.Sound file) (hawaits : w.AwaitsLoad a b) :
    w.shared.modules.Waits a b := by
  obtain ⟨r, run, importer, hrun, himporter, ha, n, hn, path, hseeks, hb⟩ := hawaits
  have hs := run?_outline_of hrun
  have hmem : n.quiet ∈ run.sketch.natives := List.mem_map_of_mem hn
  have hnative : w.outline.native? ⟨r, n.id⟩ = some n.quiet :=
    (Outline.native?_of_run? hs).trans ((h.tidy hs).native?_of_mem hmem)
  exact (h.recorded hs himporter hnative hseeks).congr ha hb

/-- The world `n` steps after the evaluation of a text has begun, if there are the given files
and nothing else. -/
def evaluating (files : Files) (source : String) (n : Nat) : Option World :=
  (compileText source false 0).toOption.map fun c =>
    after n (start { shared := { env := { files := files } }, limit := Session.patience } c {} none)

end World

namespace Stage

variable {x : Stage}

theorem Reached.evolvesTo {ok : World → Prop} {file : Option (String × PromiseRef)} {w w' : World}
    (h : Reached ok (.busy file w)) (hok : ∀ v, ok v) (hsteps : ReflTransGen World.Evolves w w') :
    Reached ok (.busy file w') := by
  induction hsteps with
  | refl => exact h
  | tail _ hstep ih => exact ih.evolves (hok _) hstep

theorem reached_evaluating {files : Files} {source : String} {n : Nat} {w : World}
    (h : World.evaluating files source n = some w) : Reached (fun _ => True) (.busy none w) := by
  obtain ⟨c, _, rfl⟩ := Option.map_eq_some_iff.mp h
  exact ((Reached.fresh { files := files } {}).evals c Session.patience roundAllowance).evolvesTo
    (fun _ => trivial) (World.reaches_after .ticks n _)

theorem Sound.cache (h : x.Sound) : ∃ size, x.modules.Sound size := by
  cases x with
  | idle s => exact ⟨_, h.1⟩
  | busy file w => exact ⟨_, Outline.Sound.cache h⟩

/-- At every stage that a sequence of evaluations leads to, no module waits for itself, directly
or through others, and only modules that are being loaded wait.  While programs run, what their
modules wait for has been recorded, so that no modules wait for each other in a circle. -/
theorem imports_acyclic (h : x.Reached fun _ => True) :
    x.modules.Acyclic ∧
      (∀ a b, x.modules.Waits a b → ∃ p, x.modules.get? a = some (.loading p)) ∧
      ∀ file w, x = .busy file w →
        (∀ a b, w.AwaitsLoad a b → w.shared.modules.Waits a b) ∧
        ∀ a, ¬ TransGen w.AwaitsLoad a a := by
  have hsound := h.sound
  obtain ⟨size, hcache⟩ := hsound.cache
  refine ⟨hcache.acyclic, fun a b => hcache.loading, ?_⟩
  rintro file w rfl
  have hrecorded : ∀ a b, w.AwaitsLoad a b → w.shared.modules.Waits a b :=
    fun a b => World.awaitsLoad_waits hsound
  refine ⟨hrecorded, fun a hcircle => ?_⟩
  exact hcache.acyclic a (TransGen.mono hrecorded a a hcircle)

/-- Three modules that import each other in a circle. -/
def circle : Files :=
  { contents := [(["a.mn"], "import \"b\"\n"), (["b.mn"], "import \"c\"\n"),
      (["c.mn"], "try\n  import \"a\"\ncatch e\n  print e\nend try\n")] }

theorem circle_acyclic : ∃ w, World.evaluating circle "import \"a\"\n" 60 = some w ∧
    w.shared.modules.imports = [("/a.mn", ["/b.mn"]), ("/b.mn", ["/c.mn"])] ∧
    w.shared.console.events = [.printed "Circular import of '/a.mn'"] ∧
    w.shared.modules.Acyclic ∧
    (∀ a b, w.shared.modules.Waits a b → ∃ p, w.shared.modules.get? a = some (.loading p)) ∧
    ∀ a, ¬ TransGen w.AwaitsLoad a a := by
  have hstate : (World.evaluating circle "import \"a\"\n" 60).map (fun w =>
      (w.shared.modules.imports, w.shared.console.events)) =
      some ([("/a.mn", ["/b.mn"]), ("/b.mn", ["/c.mn"])],
        [.printed "Circular import of '/a.mn'"]) := by
    decide +kernel
  obtain ⟨w, hw, hstate⟩ := Option.map_eq_some_iff.mp hstate
  obtain ⟨himports, hevents⟩ := Prod.mk.inj hstate
  obtain ⟨hacyclic, hloading, hbusy⟩ := imports_acyclic (reached_evaluating hw)
  exact ⟨w, hw, himports, hevents, hacyclic, hloading, (hbusy none w rfl).2⟩

end Stage

end TaskBasic
