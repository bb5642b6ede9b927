import TaskBasic.Proofs.World.ImportGraph

/-
No load is left behind, if programs do not end too early.

A run that ends takes its native work with it, and with it the loads that this
work drives; their modules stay marked as loading, and whoever waits for them
waits for ever.  This is the only way for a load to be left behind: as long as
no run ends while it loads a module, every module that is marked as loading is
being loaded, and none is between two evaluations.

* `Outline.Held` — every load has a driver.
* `World.Careful` — the run that ends loads no module.
* `no_load_left_behind` — careful sequences of evaluations leave no load behind.
-/

namespace TaskBasic

open Relation

variable {path path' : String} {p : PromiseRef} {w : World} {file : Option (String × PromiseRef)}

namespace Outline

variable {o o' : Outline} {r : Nat} {s : Sketch} {n : NativeRef}
  {file : Option (String × PromiseRef)}

/-- Every module that is marked as loading has a driver. -/
def Held (file : Option (String × PromiseRef)) (o : Outline) : Prop :=
  ∀ path p, o.modules.get? path = some (.loading p) →
    ∃ d path', Path.same path' path = true ∧ o.Drives file d path' p

/-- The native work of a run loads no module. -/
def Careful (o : Outline) (s : Sketch) : Prop :=
  ∀ native ∈ s.natives, ∀ path, ¬ o.Loads path native.work

/-- What is marked as loading has been so before, and its driver drives it still. -/
theorem Held.of_drives (h : o.Held file)
    (hget : ∀ {path p}, o'.modules.get? path = some (.loading p) →
      o.modules.get? path = some (.loading p) ∧
        ∀ d path', Path.same path' path = true → o.Drives file d path' p →
        o'.Drives file d path' p) :
    o'.Held file := by
  intro path p hp
  obtain ⟨hp, hdrives⟩ := hget hp
  obtain ⟨d, path', hsame, hd⟩ := h path p hp
  exact ⟨d, path', hsame, hdrives d path' hsame hd⟩

/-- Native work changes that drives nothing, or drives on. -/
theorem Held.touches (h : o.Held file) (ht : o.Touches n o')
    (hget : ∀ path, o'.modules.get? path = o.modules.get? path)
    (hself : ∀ {path p}, o.Drives file (some n) path p → o'.Drives file (some n) path p) :
    o'.Held file := by
  refine h.of_drives fun {path p} hp => ⟨hget path ▸ hp, fun d path' _ hd => ?_⟩
  by_cases hdn : d = some n
  · subst hdn
    exact hself hd
  · exact ht.drives hdn hd

theorem Held.setRun (h : o.Held file) (id : Nat) {s' : Sketch} (hs : o.run? r = some s)
    (hb : o.Becomes r id s' o') (hget : ∀ path, o'.modules.get? path = o.modules.get? path)
    (howner : s'.owner = s.owner) (hpath : s'.path = s.path)
    (hnatives : ∀ i, i ≠ id → s'.native? i = s.native? i)
    (hself : ∀ {old path}, s.native? id = some old → o.Loads path old.work →
      ∃ new, s'.native? id = some new ∧ new.promise = old.promise ∧
        (o.Loads path new.work ∨ o'.Loads path new.work)) :
    o'.Held file := by
  obtain ⟨ht, hnative'⟩ := hb.touches hs howner hpath hnatives
  refine h.touches ht hget fun {path p} hdrives => ?_
  obtain ⟨hnative, hloads⟩ := hdrives
  obtain ⟨new, hnew, hpromise, hloads⟩ := hself ((native?_of_run? hs).symm.trans hnative) hloads
  exact .of_native (hnative'.trans hnew) hpromise
    (hloads.elim (Loads.mono fun _ _ => ht.isSome) fun hloads => hloads)

theorem not_drives {native : Native} (hnative : o.native? n = some native)
    (hwork : ∀ path, ¬ o.Loads path native.work) : ¬ o.Drives file (some n) path p := by
  rintro ⟨hnative', hloads⟩
  cases hnative.symm.trans hnative'
  exact hwork _ hloads

/-- When a run ends that loads nothing, the other runs go on. -/
theorem Drops.others (hd : o.Drops r o') (h : o.Sound file) (hs : o.run? r = some s)
    (hcareful : o.Careful s) {q : Nat} (hq : q ≠ r) : o'.run? q = o.run? q := by
  -- by induction on the number of the run, as its owner has a smaller one
  induction q using Nat.strong_induction_on with
  | _ q ih =>
    cases ht : o.run? q with
    | none =>
      cases ht' : o'.run? q with
      | none => rfl
      | some t => cases ht.symm.trans (hd.before ht')
    | some t =>
      refine (hd.kept q t).mpr ⟨ht, hq, fun m howner => ?_⟩
      obtain ⟨native, path, hnative, hwork, _⟩ := h.owned ht howner
      have hlt := (h.running hnative hwork).1
      obtain ⟨u, hu, hn⟩ := native?_eq_some_iff.mp hnative
      have hm : m.run ≠ r := by
        intro heq
        rw [heq] at hu
        cases hs.symm.trans hu
        refine hcareful native (Sketch.mem_of_native? hn).1 path ?_
        rw [hwork]
        exact .running (Option.isSome_iff_exists.mpr ⟨t, ht⟩)
      rw [ih m.run hlt hm, hu]
      exact ⟨hlt, rfl⟩

/-- If the main program loads nothing, there is no other run. -/
theorem Sound.only_main (h : o.Sound file) (hs : o.run? 0 = some s) (hcareful : o.Careful s)
    {q : Nat}
    (hq : (o.run? q).isSome = true) : q = 0 := by
  induction q using Nat.strong_induction_on with
  | _ q ih =>
    obtain ⟨t, ht⟩ := Option.isSome_iff_exists.mp hq
    cases howner : t.owner with
    | none => exact (h.main ht howner).1
    | some m =>
      obtain ⟨native, path, hnative, hwork, _⟩ := h.owned ht howner
      obtain ⟨u, hu, hn⟩ := native?_eq_some_iff.mp hnative
      have hm := ih m.run (h.running hnative hwork).1 (Option.isSome_iff_exists.mpr ⟨u, hu⟩)
      rw [hm, hs] at hu
      cases hu
      refine absurd ?_ (hcareful native (Sketch.mem_of_native? hn).1 path)
      rw [hwork]
      exact .running hq

/-- The driver of another module goes on when a run ends that loads nothing. -/
theorem Drops.drives_other (hd : o.Drops r o') (h : o.Sound file) (hs : o.run? r = some s)
    (hcareful : o.Careful s) (hpath : s.path = some path) {d : Option NativeRef}
    (hother : Path.same path path' = false) (hdrives : o.Drives file d path' p) :
    o'.Drives file d path' p := by
  cases hdrives with
  | file hfile => exact .file hfile
  | @native m native path' hnative hloads =>
    obtain ⟨u, hu, hn⟩ := native?_eq_some_iff.mp hnative
    have hm : m.run ≠ r := by
      intro heq
      rw [heq] at hu
      cases hs.symm.trans hu
      exact hcareful native (Sketch.mem_of_native? hn).1 _ hloads
    have hnative' : o'.native? m = some native := by
      rw [Outline.native?, hd.others h hs hcareful hm]
      exact hnative
    refine .native hnative' ?_
    cases hwork : native.work with
    | running path'' q =>
      rw [hwork] at hloads
      cases hloads with
      | running hq =>
        refine .running ?_
        by_cases heq : q = r
        · -- the run that has ended runs another module
          subst heq
          have hpath' := ((h.running hnative hwork).2.2 s hs).2
          cases hpath.symm.trans hpath'
          rw [Path.same_refl] at hother
          cases hother
        · rw [hd.others h hs hcareful heq]
          exact hq
    | _ =>
      rw [hwork] at hloads
      cases hloads <;> constructor

theorem Held.forget {modules : ModuleCache} {outcome : Except String Value}
    (hforgets : o'.modules.Forgets path modules)
    (hdrives : ∀ {path' p}, o'.modules.get? path' = some (.loading p) →
    Path.same path path' = false →
      ∃ d path'', Path.same path'' path' = true ∧ d ≠ some n ∧ o'.Drives file d path'' p) :
    (Outline.complete { o' with modules := modules } n outcome).Held file := by
  intro path' p hp
  rw [modules_complete] at hp
  obtain ⟨hother, hp⟩ := hforgets.before hp
  obtain ⟨d, path'', hsame, hdn, hd⟩ := hdrives hp hother
  refine ⟨d, path'', hsame, ?_⟩
  obtain ⟨ht, _⟩ := touches_complete { o' with modules := modules } n outcome
  refine ht.drives hdn ?_
  exact hd.of_runs rfl

/-- A load begins, and is driven at once. -/
theorem Held.loads (h : o.Sound file) (hheld : o.Held file) (hs : o.run? r = some s)
    (ho' : Outline.setRun
      { o with
        states := o.states.push .pending
        modules := (o.modules.begin path ⟨o.states.size⟩).noted s.path path } r
      (s.register (.load path) ⟨o.states.size⟩) = o') : o'.Held file := by
  have htidy := h.tidy hs
  have hregister := htidy.native?_register (.load path) ⟨o.states.size⟩
  have hb : o.Becomes r s.nextNative (s.register (.load path) ⟨o.states.size⟩) o' :=
    .of_setRun hs (by rw [← ho']; rfl)
  obtain ⟨ht, hself⟩ := hb.touches hs rfl rfl fun i hi => by rw [hregister, if_neg hi]
  have hnew : o'.native? ⟨r, s.nextNative⟩ =
      some { id := s.nextNative, promise := ⟨o.states.size⟩, work := .load path } := by
    rw [hself, hregister, if_pos rfl]
  intro path' p hp
  rw [← ho'] at hp
  replace hp := (ModuleCache.get?_noted _ _ _ _).symm.trans hp
  rw [ModuleCache.get?_begin] at hp
  by_cases hsame : Path.same path path' = true
  · rw [if_pos hsame] at hp
    cases hp
    exact ⟨_, path, hsame, .native hnew .load⟩
  · rw [if_neg hsame] at hp
    obtain ⟨d, path'', hsame', hd⟩ := hheld path' p hp
    refine ⟨d, path'', hsame', ht.drives ?_ hd⟩
    rintro rfl
    obtain ⟨hnative, _⟩ := hd
    cases htidy.native?_next.symm.trans ((native?_of_run? hs).symm.trans hnative)

theorem Held.drops (h : o.Sound file) (hheld : o.Held file) (hs : o.run? r = some s)
    (howner : s.owner = some n) (hpath : s.path = some path)
    (hends : s.natives = [] ∨ o.Careful s) (hd : o.Drops r o')
    (hp : o'.modules.get? path' = some (.loading p)) (hother : Path.same path path' = false) :
    ∃ d path'', Path.same path'' path' = true ∧ d ≠ some n ∧ o'.Drives file d path'' p := by
  have hcareful : o.Careful s := by
    rcases hends with hnone | hcareful
    · intro native hnative
      rw [hnone] at hnative
      cases hnative
    · exact hcareful
  rw [hd.modules] at hp
  obtain ⟨d, path'', hsame, hdrives⟩ := hheld path' p hp
  have hother' : Path.same path path'' = false := by
    rw [Path.same_congr hsame]
    exact hother
  refine ⟨d, path'', hsame, ?_, hd.drives_other h hs hcareful hpath hother' hdrives⟩
  -- the owner of the run drives the module of the run only
  rintro rfl
  obtain ⟨hnative, hloads⟩ := hdrives
  obtain ⟨native, path0, hnative', hwork, hpath0⟩ := h.owned hs howner
  cases hnative'.symm.trans hnative
  cases hpath.symm.trans hpath0
  rw [hwork] at hloads
  cases hloads
  rw [Path.same_refl] at hother'
  cases hother'

/-- No step leaves a load behind. -/
theorem Step.held (hstep : Step Careful o o') (h : o.Sound file) (hheld : o.Held file) :
    o'.Held file := by
  cases hstep with
  | resolves v | forgets hsub =>
    exact hheld.of_drives fun hp => ⟨hp, fun d path' _ hd => hd.of_runs rfl⟩
  | @spawns r s hs | @pays r s p outcome hs hp | stops hs hp =>
    exact hheld.setRun 0 hs (.of_setRun hs rfl) (fun _ => rfl) rfl rfl (fun _ _ => rfl)
      fun {old path} hold hloads => ⟨old, hold, rfl, .inl hloads⟩
  | @sleeps r s ms hs =>
    have htidy := h.tidy hs
    refine hheld.setRun s.nextNative hs (.of_setRun hs rfl) (fun _ => rfl) rfl rfl (fun i hi => ?_)
      fun hold _ => ?_
    · rw [htidy.native?_register, if_neg hi]
    · cases htidy.native?_next.symm.trans hold
  | @waits r s path p hs hget hback =>
    have htidy := h.tidy hs
    refine hheld.setRun s.nextNative hs (.of_setRun hs rfl)
      (fun _ => ModuleCache.get?_noted _ _ _ _) rfl rfl (fun i hi => ?_) fun hold _ => ?_
    · rw [htidy.native?_register, if_neg hi]
    · cases htidy.native?_next.symm.trans hold
  | loads hs hget => exact Held.loads h hheld hs rfl
  | @proceeds r id s native work hs hn hproceeds =>
    refine hheld.setRun id hs (.of_setRun hs rfl) (fun _ => rfl) rfl rfl
      (fun i hi => ?_) fun {old path} hold hloads => ?_
    · rw [Sketch.native?_setWork, if_neg hi]
    · cases hn.symm.trans hold
      refine ⟨{ native with work := work }, ?_, rfl, ?_⟩
      · rw [Sketch.native?_setWork, if_pos rfl, hn]
        rfl
      · generalize native.work = before at hproceeds hloads
        cases hproceeds with
        | reading =>
          cases hloads
          exact .inl .reading
        | read =>
          cases hloads
          exact .inl (.read _)
  | @dozes r id ms s native hs hn hwork =>
    refine hheld.setRun id hs (.of_setRun hs rfl) (fun _ => rfl) rfl rfl
      (fun i hi => ?_) fun {old path} hold hloads => ?_
    · rw [Sketch.native?_setWork, if_neg hi]
    · cases hn.symm.trans hold
      rw [hwork] at hloads
      cases hloads
  | @rouses n s hn hs =>
    refine hheld.setRun n.native hs (.of_setRun hs rfl) (fun _ => rfl) rfl rfl (fun i hi => ?_)
      fun {old path} hold hloads => ?_
    · rw [Sketch.native?_setWork, if_neg hi]
    · have hsleep := ((h.sleepers hn).2 _ hs).2 _ hold
      rw [hloads.isSleep] at hsleep
      cases hsleep
  | @completes r id s native outcome hs hn hover =>
    have hnative : o.native? ⟨r, id⟩ = some native := (native?_of_run? hs).trans hn
    refine hheld.touches (touches_complete o _ _).1 (fun _ => by rw [modules_complete]) fun hd => ?_
    refine absurd hd (not_drives hnative fun path hloads => ?_)
    rcases hover with ⟨hsleep, _⟩ | ⟨p, hwait, _⟩
    · rw [hloads.isSleep] at hsleep
      cases hsleep
    · rw [hwait] at hloads
      cases hloads
  | @starts r id s native path content hs hn hread =>
    have hself : (s.setWork id (.running path o.runs.size)).native? id =
        some { native with work := .running path o.runs.size } := by
      rw [Sketch.native?_setWork, if_pos rfl, hn]
      rfl
    refine hheld.setRun id hs (.push _ hs hself rfl rfl rfl rfl) (fun _ => rfl) rfl rfl
      (fun i hi => ?_) fun {old path'} hold hloads => ⟨_, hself, ?_⟩
    · rw [Sketch.native?_setWork, if_neg hi]
    · cases hn.symm.trans hold
      rw [hread] at hloads
      cases hloads
      refine ⟨rfl, .inr (.running ?_)⟩
      rw [Outline.run?, Array.getElem?_push, Outline.setRun, Array.size_setIfInBounds, if_pos rfl]
      rfl
  | @refuses r id s native path message content hs hn hread =>
    have hnative : o.native? ⟨r, id⟩ = some native := (native?_of_run? hs).trans hn
    refine Held.forget (ModuleCache.forgets_erase _ _) fun {path' p} hp hother => ?_
    obtain ⟨d, path'', hsame, hd⟩ := hheld path' p hp
    refine ⟨d, path'', hsame, ?_, hd⟩
    rintro rfl
    obtain ⟨hnative', hloads⟩ := hd
    cases hnative.symm.trans hnative'
    rw [hread] at hloads
    cases hloads
    rw [hsame] at hother
    cases hother
  | loaded globals hs howner hpath hends hd =>
    exact Held.forget (ModuleCache.forgets_finish _ _ _)
      (Held.drops h hheld hs howner hpath hends hd)
  | fails message hs howner hpath hends hd =>
    exact Held.forget (ModuleCache.forgets_erase _ _) (Held.drops h hheld hs howner hpath hends hd)
  | @exits r s n path o1 hs howner hpath hends hd =>
    intro path' p hp
    obtain ⟨hother, hp⟩ := (ModuleCache.forgets_erase o1.modules path).before hp
    obtain ⟨d, path'', hsame, _, hdrives⟩ := Held.drops h hheld hs howner hpath hends hd hp hother
    exact ⟨d, path'', hsame, hdrives.of_runs rfl⟩

/-- A load goes with the run that drives it, unlike its mark in the cache. -/
theorem Drops.left_behind (hd : o.Drops r o') (h : o.Sound file) (hs : o.run? r = some s)
    {id : Nat} (hdrives : o.Drives file (some ⟨r, id⟩) path p) :
    (∀ m own, s.owner = some m → s.path = some own → Path.same own path = false) ∧
      ∀ {d path' p'}, Path.same path' path = true → ¬ o'.Drives file d path' p' := by
  constructor
  · intro m own howner hown
    refine Bool.eq_false_iff.mpr fun hsame => ?_
    obtain ⟨p', hdrives'⟩ := h.drives hs hown
    have heq := h.unique hdrives' hdrives hsame
    rw [howner] at heq
    cases heq
    -- no run belongs to its own native work
    obtain ⟨_, _, hnative, hwork, _⟩ := h.owned hs howner
    exact absurd (h.running hnative hwork).1 (Nat.lt_irrefl r)
  · intro d path' p' hsame hdrives'
    have heq := h.unique (hd.drives hdrives') hdrives hsame
    subst heq
    obtain ⟨hnative, _⟩ := hdrives'
    obtain ⟨t, ht, _⟩ := native?_eq_some_iff.mp hnative
    cases hd.run?_self.symm.trans ht

theorem Steps.held (hsteps : Steps Careful o o') (h : o.Sound file) (hheld : o.Held file) :
    o'.Held file := by
  induction hsteps with
  | refl => exact hheld
  | tail hbefore hstep ih => exact hstep.held (Steps.sound hbefore h) ih

end Outline

/-! ### Sequences of evaluations -/

/-- No program ends by an error or by a request to exit while its native work loads a module. -/
def World.Careful (w : World) : Prop :=
  ∀ run, w.run? w.focus = some run → run.ending.isSome = true →
    ∀ n ∈ run.scheduler.natives, ∀ path, ¬ w.outline.Loads path n.work

theorem World.Careful.sketch (h : w.Careful) (run : Run) (hrun : w.run? w.focus = some run)
    (hending : run.ending.isSome = true) : w.outline.Careful run.sketch := by
  intro native hnative path hloads
  obtain ⟨n, hn, rfl⟩ := List.mem_map.mp hnative
  exact h run hrun hending n hn path hloads

namespace Stage

variable {x : Stage}

/-- Every load has a driver, and between two evaluations there is none. -/
def Held : Stage → Prop
  | .idle s => ∀ path p, s.shared.modules.get? path ≠ some (.loading p)
  | .busy file w => w.outline.Held file

/-- The main program ends, and there is no load left besides its own. -/
theorem Held.ends {w' : World} {program : ProgramState} {result : Except EvalError Value}
    (h : w.outline.Sound file) (hheld : w.outline.Held file) (hcareful : w.Careful)
    (htick : w.tick = .ended w' program result)
    (hp : w'.shared.modules.get? path = some (.loading p)) :
    ∃ path', Path.same path' path = true ∧ file = some (path', p) := by
  obtain ⟨run, hrun, rfl, rfl, hmain, hends⟩ := World.tick_ended htick
  have hs := World.run?_outline_of hrun
  have hfirst : w.focus = 0 := by
    cases howner : run.owner with
    | none => exact (h.main hs howner).1
    | some n =>
      obtain ⟨_, path', _, _, hpath⟩ := h.owned hs howner
      rcases hmain with hnone | hnone
      · cases hnone.symm.trans howner
      · cases hnone.symm.trans hpath
  have hloads : w.outline.Careful run.sketch := by
    rcases hends with hending | ⟨_, hnone⟩
    · exact hcareful.sketch run hrun (by rw [hending]; rfl)
    · intro native hnative
      rw [Run.sketch, hnone] at hnative
      cases hnative
  obtain ⟨d, path', hsame, hd⟩ := hheld path p hp
  cases hd with
  | file hfile => exact ⟨path', hsame, hfile⟩
  | @native m native path' hnative hloads' =>
    obtain ⟨s, hs', hn⟩ := Outline.native?_eq_some_iff.mp hnative
    have hm := h.only_main (hfirst ▸ hs) hloads (Option.isSome_iff_exists.mpr ⟨s, hs'⟩)
    rw [hm, ← hfirst, hs] at hs'
    cases hs'
    exact absurd hloads' (hloads native (Sketch.mem_of_native? hn).1 path')

theorem Reached.held (h : x.Reached World.Careful) : x.Held := by
  induction h with
  | fresh env console => nofun
  | hosts new _ hmodules _ _ ih =>
    intro path p hp
    rw [hmodules] at hp
    exact ih path p hp
  | evals c limit allowance _ ih => exact fun path p hp => absurd hp (ih path p)
  | @evalsFile s c path baseDir limit allowance _ ih =>
    intro path' p hp
    replace hp : (s.shared.modules.begin path _).get? path' = some (.loading p) := hp
    rw [ModuleCache.get?_begin] at hp
    split at hp
    next hsame =>
      cases hp
      exact ⟨none, path, hsame, .file rfl⟩
    next => exact absurd hp (ih path' p)
  | evolves hw hcareful hstep ih =>
    exact (hstep.steps hcareful.sketch).held hw.sound ih
  | ends hw hcareful htick ih =>
    intro path p hp
    obtain ⟨_, _, hfile⟩ := Held.ends hw.sound ih hcareful htick hp
    cases hfile
  | @endsFile path p w w' program result s outcome hw hcareful htick hmodules _ _ ih =>
    intro path' p' hp
    rw [hmodules] at hp
    obtain ⟨hother, hp⟩ := (ModuleCache.forgets_erase _ _).before hp
    obtain ⟨_, hsame, hfile⟩ := Held.ends hw.sound ih hcareful htick hp
    cases hfile
    rw [hsame] at hother
    cases hother

/-! ### Loads that are left behind -/

theorem left_behind (h : w.outline.Sound file) {run : Run} (hrun : w.run? w.focus = some run)
    (hending : run.ending.isSome = true) {n : Native} (hn : n ∈ run.scheduler.natives)
    (hloads : w.outline.Loads path n.work) :
    (∃ w' program result, w.tick = .ended w' program result ∧
      w'.shared.modules.get? path = some (.loading n.promise)) ∨
    ∃ w', w.tick = .going w' ∧ w'.shared.modules.get? path = some (.loading n.promise) ∧
      ∀ d path' p, Path.same path' path = true → ¬ w'.outline.Drives file d path' p := by
  have hs := World.run?_outline_of hrun
  have hmem : n.quiet ∈ run.sketch.natives := List.mem_map_of_mem hn
  have hnative : w.outline.native? ⟨w.focus, n.id⟩ = some n.quiet :=
    (Outline.native?_of_run? hs).trans ((h.tidy hs).native?_of_mem hmem)
  have hdrives : w.outline.Drives file (some ⟨w.focus, n.id⟩) path n.promise :=
    .of_native hnative rfl hloads
  have hget : w.shared.modules.get? path = some (.loading n.promise) := h.driven hdrives
  obtain ⟨result, hending⟩ := Option.isSome_iff_exists.mp hending
  have htick : w.tick = w.endRun w.focus run result := by
    rw [World.tick, hrun]
    dsimp only
    rw [hending]
  obtain ⟨hown, hfree⟩ := (w.drops_outline w.focus).left_behind h hs hdrives
  rw [htick, World.endRun.eq_def]
  dsimp only
  split
  next m own howner hpath =>
    have hother := hown m own howner hpath
    have hcompleted : ∀ (o : Outline) (outcome : Except String Value),
        o.runs = (w.drop w.focus).outline.runs →
        o.modules.get? path = some (.loading n.promise) →
        (o.complete m outcome).modules.get? path = some (.loading n.promise) ∧
          ∀ d path' p, Path.same path' path = true →
            ¬ (o.complete m outcome).Drives file d path' p := by
      intro o outcome hruns hget
      refine ⟨by rwa [Outline.modules_complete], fun d path' p hsame hd => ?_⟩
      exact hfree hsame ((Outline.drives_complete hd).2.of_runs hruns.symm)
    have hfinished : ∀ globals, (w.shared.modules.finish own globals).get? path =
        some (.loading n.promise) :=
          fun globals => by rw [ModuleCache.get?_finish, hother]; exact hget
    have herased : (w.shared.modules.erase own).get? path = some (.loading n.promise) := by
      rw [ModuleCache.get?_erase, hother]
      exact hget
    refine .inr ?_
    split
    next v =>
      refine ⟨_, rfl, ?_⟩
      show (World.outline _).modules.get? path = _ ∧ _
      rw [World.finishLoad]
      dsimp only
      rw [World.outline_complete]
      exact hcompleted _ _ rfl (hfinished _)
    next e =>
      refine ⟨_, rfl, ?_⟩
      show (World.outline _).modules.get? path = _ ∧ _
      rw [World.failLoad.eq_def]
      dsimp only
      split
      · rw [World.outline_finish]
        exact ⟨herased, fun _ _ _ hsame hd => hfree hsame (hd.of_runs rfl)⟩
      · rw [World.outline_finish]
        exact ⟨herased, fun _ _ _ hsame hd => hfree hsame (hd.of_runs rfl)⟩
      · rw [World.outline_complete]
        exact hcompleted _ _ rfl herased
  next => exact .inl ⟨_, _, _, rfl, hget⟩

/-- If no program ends by an error or a request to exit while its native work loads a module, then
every module that is marked as loading is being loaded, and between two evaluations none is marked
so: each module is unknown or loaded.  A program that does end so leaves the module marked as
loading and without a driver. -/
theorem no_load_left_behind (x : Stage) :
    (x.Reached World.Careful →
      (∀ s, x = .idle s → ∀ path, s.shared.modules.get? path = none ∨
        ∃ globals, s.shared.modules.get? path = some (.loaded globals)) ∧
      ∀ file w, x = .busy file w → ∀ path p, w.shared.modules.get? path = some (.loading p) →
        ∃ d path', Path.same path' path = true ∧ w.outline.Drives file d path' p) ∧
    (x.Reached (fun _ => True) → ∀ file w, x = .busy file w → ∀ run, w.run? w.focus = some run →
      run.ending.isSome = true → ∀ n ∈ run.scheduler.natives, ∀ path, w.outline.Loads path n.work →
      (∃ w' program result, w.tick = .ended w' program result ∧
        w'.shared.modules.get? path = some (.loading n.promise)) ∨
      ∃ w', w.tick = .going w' ∧ w'.shared.modules.get? path = some (.loading n.promise) ∧
        ∀ d path' p, Path.same path' path = true → ¬ w'.outline.Drives file d path' p) := by
  refine ⟨fun h => ⟨?_, ?_⟩, fun h => ?_⟩
  · rintro s rfl path
    cases hget : s.shared.modules.get? path with
    | none => exact .inl rfl
    | some state =>
      cases state with
      | loading p => exact absurd hget (h.held path p)
      | loaded globals => exact .inr ⟨globals, rfl⟩
  · rintro file w rfl
    exact h.held
  · rintro file w rfl run hrun hending n hn path hloads
    exact left_behind h.sound hrun hending hn hloads

def smallModule : Files :=
  { contents := [(["m.mn"], "x = 7\n")] }

/-- A program that imports it in a task, and fails meanwhile. -/
def hastyProgram : String :=
  "async function f()\n  import \"m\"\nend function\nasync function g()\nend function\n" ++
    "t = spawn f()\nawait spawn g()\nraise \"boom\"\n"

end Stage

/-- The program whose turn it is does not end, or has no native work. -/
def World.isCalm (w : World) : Bool :=
  match w.run? w.focus with
  | some run => run.ending.isNone || run.scheduler.natives.isEmpty
  | none => true

/-- The next `n` steps are taken in calm worlds. -/
def World.staysCalm : Nat → World → Bool
  | 0, _ => true
  | n + 1, w =>
    w.isCalm && match w.tick with
      | .going w => staysCalm n w
      | _ => true

/-- The evaluation of a text takes its first `n` steps in calm worlds. -/
def World.evaluatesCalmly (files : Files) (source : String) (n : Nat) : Bool :=
  (compileText source false 0).toOption.any fun c =>
    staysCalm n
      (start { shared := { env := { files := files } }, limit := Session.patience } c {} none)

theorem World.Careful.of_isCalm (h : w.isCalm = true) : w.Careful := by
  intro run hrun hending n hn
  rw [isCalm, hrun] at h
  rcases (Bool.or_eq_true _ _).mp h with hnone | hempty
  · rw [Option.isNone_iff_eq_none.mp hnone] at hending
    cases hending
  · rw [List.isEmpty_iff.mp hempty] at hn
    cases hn

namespace Stage

theorem Reached.after {n : Nat} (h : Reached World.Careful (.busy file w))
    (hcalm : World.staysCalm n w = true) :
    Reached World.Careful (.busy file (World.after n w)) := by
  induction n generalizing w with
  | zero => exact h
  | succ n ih =>
    rw [World.staysCalm, Bool.and_eq_true] at hcalm
    obtain ⟨hnow, hlater⟩ := hcalm
    rw [World.after]
    split
    next w' htick =>
      rw [htick] at hlater
      exact ih (h.evolves (.of_isCalm hnow) (.ticks htick)) hlater
    next => exact h

theorem careful_evaluating {files : Files} {source : String} {n : Nat}
    (h : World.evaluating files source n = some w)
    (hcalm : World.evaluatesCalmly files source n = true) :
    Reached World.Careful (.busy none w) := by
  obtain ⟨c, hc, rfl⟩ := Option.map_eq_some_iff.mp h
  rw [World.evaluatesCalmly, hc] at hcalm
  exact ((Reached.fresh { files := files } {}).evals c Session.patience roundAllowance).after hcalm

/-- Whether the program whose turn it is ends, and the promises of its loads that have not begun
to read their files. -/
def outlook (w : World) : Option (Bool × List PromiseRef) :=
  (w.run? w.focus).map fun run =>
    (run.ending.isSome, (run.scheduler.natives.filter fun n => match n.work with
      | .load path => path == "/m.mn"
      | _ => false).map Native.promise)

/-- In its first 14 steps the program has left no load behind; with its last one it does. -/
theorem hastyProgram_leaves_load : ∃ w₁ w₂,
    World.evaluating smallModule hastyProgram 14 = some w₁ ∧
    World.evaluating smallModule hastyProgram 23 = some w₂ ∧
    w₁.shared.modules.get? "/m.mn" = some (.loading ⟨3⟩) ∧
    (∃ d path', Path.same path' "/m.mn" = true ∧ w₁.outline.Drives none d path' ⟨3⟩) ∧
    outlook w₂ = some (true, [⟨3⟩]) ∧
    ((∃ w' program result, w₂.tick = .ended w' program result ∧
      w'.shared.modules.get? "/m.mn" = some (.loading ⟨3⟩)) ∨
    ∃ w', w₂.tick = .going w' ∧ w'.shared.modules.get? "/m.mn" = some (.loading ⟨3⟩) ∧
      ∀ d path' p, Path.same path' "/m.mn" = true → ¬ w'.outline.Drives none d path' p) := by
  have hget : (World.evaluating smallModule hastyProgram 14).map
      (fun w => w.shared.modules.get? "/m.mn") = some (some (.loading ⟨3⟩)) := by
    decide +kernel
  have houtlook : (World.evaluating smallModule hastyProgram 23).map outlook =
      some (some (true, [⟨3⟩])) := by
    decide +kernel
  have hcalm : World.evaluatesCalmly smallModule hastyProgram 14 = true := by
    decide +kernel
  obtain ⟨w₁, hw₁, hget⟩ := Option.map_eq_some_iff.mp hget
  obtain ⟨w₂, hw₂, houtlook⟩ := Option.map_eq_some_iff.mp houtlook
  refine ⟨w₁, w₂, hw₁, hw₂, hget, ?_, houtlook, ?_⟩
  · exact ((no_load_left_behind _).1 (careful_evaluating hw₁ hcalm)).2 none w₁ rfl _ _ hget
  · obtain ⟨run, hrun, heq⟩ := Option.map_eq_some_iff.mp houtlook
    obtain ⟨hending, hnatives⟩ := Prod.mk.inj heq
    have hmem : (⟨3⟩ : PromiseRef) ∈ [⟨3⟩] := List.mem_singleton.mpr rfl
    rw [← hnatives] at hmem
    obtain ⟨n, hn, hpromise⟩ := List.mem_map.mp hmem
    obtain ⟨hn, hruns⟩ := List.mem_filter.mp hn
    rw [← hpromise]
    refine (no_load_left_behind _).2 (reached_evaluating hw₂) none w₂ rfl run hrun hending n hn _ ?_
    split at hruns
    next path hwork =>
      rw [hwork, beq_iff_eq.mp hruns]
      exact .load
    next => cases hruns

end Stage

end TaskBasic
