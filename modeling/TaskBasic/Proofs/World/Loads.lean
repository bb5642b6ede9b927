import TaskBasic.Proofs.Modules.Sound
import TaskBasic.Proofs.World.Moves

/-
Who loads which module.

A load is driven by native work of the run that imported the module first, or by
the evaluation of a file, which counts as a load of its own.  Whatever happens,
a module has at most one driver, what is driven is marked as loading with the
promise of its driver, and each module records what it waits for.

* `Outline.Sound` — what every step preserves.
* `Outline.Step.sound` — one step; `Outline.Steps.sound` — any number of steps.
-/

namespace TaskBasic

open Relation

variable {native : Native} {file : Option (String × PromiseRef)} {path path' : String}
  {p : PromiseRef} {work : Work} {d : Option NativeRef}

/-! ### Native work by its number -/

namespace Sketch

variable {s : Sketch} {id i : Nat} {work : Work} {p : PromiseRef}

/-- The numbers of the native work are different ones, and have been given out. -/
structure Tidy (s : Sketch) : Prop where
  nodup : (s.natives.map Native.id).Nodup
  below : ∀ n ∈ s.natives, n.id < s.nextNative

theorem mem_of_native? {n : Native} (h : s.native? id = some n) : n ∈ s.natives ∧ n.id = id :=
  ⟨List.mem_of_find?_eq_some h, beq_iff_eq.mp (List.find?_some h :)⟩

theorem Tidy.native?_of_mem (h : s.Tidy) {n : Native} (hn : n ∈ s.natives) :
    s.native? n.id = some n := by
  obtain ⟨m, hm⟩ : ∃ m, s.native? n.id = some m :=
    Option.isSome_iff_exists.mp (List.find?_isSome.mpr ⟨n, hn, beq_self_eq_true _⟩)
  obtain ⟨hmem, hid⟩ := mem_of_native? hm
  rw [hm, List.inj_on_of_nodup_map h.nodup hmem hn hid]

theorem Tidy.native?_next (h : s.Tidy) : s.native? s.nextNative = none := by
  rw [native?, List.find?_eq_none]
  intro n hn hid
  have hlt := h.below n hn
  rw [beq_iff_eq.mp hid] at hlt
  exact Nat.lt_irrefl _ hlt

theorem Tidy.native?_register (h : s.Tidy) (work : Work) (p : PromiseRef) (id : Nat) :
    (s.register work p).native? id =
    if id = s.nextNative then some { id := s.nextNative, promise := p, work := work }
    else s.native? id := by
  rw [register, native?, List.find?_append, List.find?_singleton]
  by_cases hid : id = s.nextNative
  · subst hid
    have hnone := h.native?_next
    rw [native?] at hnone
    rw [hnone, if_pos rfl, if_pos (beq_self_eq_true _)]
    rfl
  · rw [if_neg hid, if_neg (by simpa using fun h => hid h.symm), Option.or_none]
    rfl

theorem native?_setWork : (s.setWork i work).native? id =
    if id = i then (s.native? id).map ({ · with work := work }) else s.native? id := by
  rw [setWork, native?, List.find?_map]
  have hsame : ((fun n : Native => n.id == id) ∘ fun n : Native =>
      if n.id == i then { n with work := work } else n) = fun n => n.id == id := by
    funext n
    dsimp only [Function.comp]
    split <;> rfl
  rw [hsame]
  cases hn : s.natives.find? (·.id == id) with
  | none =>
    rw [native?, hn]
    split <;> rfl
  | some n =>
    obtain rfl : n.id = id := (mem_of_native? hn).2
    rw [native?, hn, Option.map_some]
    by_cases h : n.id = i
    · rw [if_pos h, if_pos (beq_iff_eq.mpr h)]
      rfl
    · rw [if_neg h, if_neg (by simpa using h)]

theorem native?_remove : (s.remove i).native? id = if id = i then none else s.native? id := by
  rw [remove, native?, List.find?_filter]
  by_cases h : id = i
  · subst h
    rw [if_pos rfl, List.find?_eq_none]
    intro n _ hn
    simp at hn
  · rw [if_neg h, native?]
    congr 1
    funext n
    by_cases hid : n.id = id
    · simp [hid, h]
    · simp [hid]

theorem Tidy.of_nil (h : s.natives = []) : s.Tidy :=
  ⟨h ▸ List.nodup_nil, h ▸ fun _ hn => absurd hn List.not_mem_nil⟩

theorem Tidy.register (h : s.Tidy) (work : Work) (p : PromiseRef) : (s.register work p).Tidy := by
  constructor
  · show ((s.natives ++ [_]).map Native.id).Nodup
    rw [List.map_append, List.nodup_append]
    refine ⟨h.nodup, List.nodup_singleton _, fun id hid id' hid' => ?_⟩
    obtain ⟨n, hn, rfl⟩ := List.mem_map.mp hid
    cases List.mem_singleton.mp hid'
    exact Nat.ne_of_lt (h.below n hn)
  · intro n hn
    show n.id < s.nextNative + 1
    rcases List.mem_append.mp hn with hn | hn
    · exact Nat.lt_succ_of_lt (h.below n hn)
    · cases List.mem_singleton.mp hn
      exact Nat.lt_succ_self _

theorem Tidy.setWork (h : s.Tidy) (i : Nat) (work : Work) : (s.setWork i work).Tidy := by
  constructor
  · have hids : (s.setWork i work).natives.map Native.id = s.natives.map Native.id := by
      rw [Sketch.setWork, List.map_map]
      refine List.map_congr_left fun n _ => ?_
      dsimp only [Function.comp]
      split <;> rfl
    rw [hids]
    exact h.nodup
  · intro n hn
    obtain ⟨m, hm, rfl⟩ := List.mem_map.mp hn
    have hlt := h.below m hm
    split
    · exact hlt
    · exact hlt

theorem Tidy.remove (h : s.Tidy) (i : Nat) : (s.remove i).Tidy where
  nodup := h.nodup.sublist (List.filter_sublist.map _)
  below n hn := h.below n (List.mem_of_mem_filter hn)

end Sketch

namespace Outline

variable {o o' : Outline} {r : Nat} {s s' : Sketch} {n : NativeRef}

/-- The native work with a number. -/
def native? (o : Outline) (n : NativeRef) : Option Native :=
  (o.run? n.run).bind (·.native? n.native)

theorem native?_eq_some_iff : o.native? n = some native ↔
    ∃ s, o.run? n.run = some s ∧ s.native? n.native = some native :=
  Option.bind_eq_some_iff

theorem native?_of_run? (h : o.run? n.run = some s) : o.native? n = s.native? n.native := by
  rw [native?, h, Option.bind_some]

/-! ### Drivers -/

inductive Loads (o : Outline) (path : String) : Work → Prop
  | load : Loads o path (.load path)
  | reading : Loads o path (.reading path)
  | read (content : Except FileError String) : Loads o path (.read path content)
  | running {q : Nat} : (o.run? q).isSome = true → Loads o path (.running path q)

/-- Who drives the load of a module that is marked as loading with the promise `p`: native work,
or else the evaluation of a file. -/
inductive Drives (o : Outline) (file : Option (String × PromiseRef)) :
    Option NativeRef → String → PromiseRef → Prop
  | native {n : NativeRef} {native : Native} {path : String} : o.native? n = some native →
    o.Loads path native.work → Drives o file (some n) path native.promise
  | file {path : String} {p : PromiseRef} : file = some (path, p) → Drives o file none path p

theorem Drives.of_native (hnative : o.native? n = some native) (hp : native.promise = p)
    (hloads : o.Loads path native.work) : o.Drives file (some n) path p := by
  rw [← hp]
  exact .native hnative hloads

theorem Loads.mono (hruns : ∀ q, work = .running path q → (o.run? q).isSome = true →
    (o'.run? q).isSome = true) (h : o.Loads path work) : o'.Loads path work := by
  cases h with
  | load => exact .load
  | reading => exact .reading
  | read content => exact .read content
  | running hq => exact .running (hruns _ rfl hq)

theorem Loads.isSleep (h : o.Loads path work) : work.isSleep = false := by
  cases h <;> rfl

theorem Drives.mono (hruns : ∀ q, (o.run? q).isSome = true → (o'.run? q).isSome = true)
    (hnatives : ∀ m native, d = some m → o.native? m = some native → o'.native? m = some native)
    (h : o.Drives file d path p) : o'.Drives file d path p := by
  cases h with
  | native hnative hloads =>
    exact .native (hnatives _ _ rfl hnative) (hloads.mono fun q _ => hruns q)
  | file hfile => exact .file hfile

theorem Drives.of_runs (h : o.Drives file d path p) (hruns : o'.runs = o.runs) :
    o'.Drives file d path p := by
  have hrun : ∀ q, o'.run? q = o.run? q := fun q => by rw [Outline.run?, Outline.run?, hruns]
  refine h.mono (fun q hq => (hrun q).symm ▸ hq) fun m native _ hnative => ?_
  rw [native?, hrun]
  exact hnative

/-- The work waits for the module `path` or loads it. -/
def Seeks (o : Outline) (work : Work) (path : String) : Prop :=
  o.Loads path work ∨ ∃ p, work = .wait p ∧ o.modules.get? path = some (.loading p)

/-- What every step preserves. -/
structure Sound (file : Option (String × PromiseRef)) (o : Outline) : Prop where
  cache : o.modules.Sound o.states.size
  tidy : ∀ {r s}, o.run? r = some s → s.Tidy
  sleepers : ∀ {n}, n ∈ o.sleepers → n.run < o.runs.size ∧ ∀ s, o.run? n.run = some s →
    n.native < s.nextNative ∧ ∀ native, s.native? n.native = some native →
      native.work.isSleep = true
  running : ∀ {n native path q}, o.native? n = some native → native.work = .running path q →
    n.run < q ∧ q < o.runs.size ∧ ∀ s, o.run? q = some s → s.owner = some n ∧ s.path = some path
  owned : ∀ {q s n}, o.run? q = some s → s.owner = some n →
    ∃ native path, o.native? n = some native ∧ native.work = .running path q ∧ s.path = some path
  /-- The main program is the first run. -/
  main : ∀ {q s}, o.run? q = some s → s.owner = none → q = 0 ∧ s.path = file.map Prod.fst
  /-- What is waited for is known. -/
  awaited : ∀ {n native p}, o.native? n = some native → native.work = .wait p →
    p.index < o.states.size
  driven : ∀ {d path p}, o.Drives file d path p → o.modules.get? path = some (.loading p)
  unique : ∀ {d d' path path' p p'}, o.Drives file d path p → o.Drives file d' path' p' →
    Path.same path path' = true → d = d'
  recorded : ∀ {n native s importer path}, o.run? n.run = some s → s.path = some importer →
    o.native? n = some native → o.Seeks native.work path → o.modules.Waits importer path

namespace Sound

variable {file : Option (String × PromiseRef)}

theorem drives (h : o.Sound file) (hs : o.run? r = some s) (hpath : s.path = some path) :
    ∃ p, o.Drives file s.owner path p := by
  cases howner : s.owner with
  | none =>
    have hfile := (h.main hs howner).2
    rw [hpath] at hfile
    obtain ⟨⟨path', p⟩, hfile', rfl⟩ := Option.map_eq_some_iff.mp hfile.symm
    exact ⟨p, .file hfile'⟩
  | some n =>
    obtain ⟨native, path', hnative, hwork, hpath'⟩ := h.owned hs howner
    cases hpath.symm.trans hpath'
    refine ⟨native.promise, .native hnative ?_⟩
    rw [hwork]
    exact .running (Option.isSome_iff_exists.mpr ⟨s, hs⟩)

theorem loading (h : o.Sound file) (hs : o.run? r = some s) (hpath : s.path = some path) :
    ∃ p, o.modules.get? path = some (.loading p) := by
  obtain ⟨p, hp⟩ := h.drives hs hpath
  exact ⟨p, h.driven hp⟩

end Sound

/-! ### Changes of native work -/

/-- Nothing changes but the native work `n`, which may have begun to run modules: their runs have
numbers that were free, and no native work yet. -/
structure Touches (o : Outline) (n : NativeRef) (o' : Outline) : Prop where
  size : o.runs.size ≤ o'.runs.size
  runs : ∀ q < o.runs.size, (o'.run? q).map (fun s => (s.owner, s.path)) =
    (o.run? q).map fun s => (s.owner, s.path)
  fresh : ∀ {q s'}, o.runs.size ≤ q → o'.run? q = some s' → s'.natives = [] ∧ s'.owner = some n ∧
    ∃ native path, o'.native? n = some native ∧ native.work = .running path q ∧ s'.path = some path
  natives : ∀ m, m ≠ n → o'.native? m = o.native? m

theorem touches_of_runs (hruns : o'.runs = o.runs) (n : NativeRef) : o.Touches n o' := by
  have hrun : ∀ q, o'.run? q = o.run? q := fun q => by rw [Outline.run?, Outline.run?, hruns]
  refine ⟨by rw [hruns], fun q _ => by rw [hrun], fun hq hs' => ?_, fun m _ => ?_⟩
  · exact absurd (lt_of_run? hs') (Nat.not_lt.mpr (hruns ▸ hq))
  · rw [native?, native?, hrun]

namespace Touches

variable {file : Option (String × PromiseRef)} {q : Nat} {path : String} {m : NativeRef}

theorem run? (h : o.Touches n o') (hq : q < o.runs.size) (hs : o'.run? q = some s') :
    ∃ s, o.run? q = some s ∧ s.owner = s'.owner ∧ s.path = s'.path := by
  have hq := h.runs q hq
  rw [hs, Option.map_some] at hq
  obtain ⟨s, hs, heq⟩ := Option.map_eq_some_iff.mp hq.symm
  exact ⟨s, hs, (Prod.mk.inj heq).1, (Prod.mk.inj heq).2⟩

theorem isSome (h : o.Touches n o') (hq : (o.run? q).isSome = true) :
    (o'.run? q).isSome = true := by
  obtain ⟨s, hs⟩ := Option.isSome_iff_exists.mp hq
  have hrun := congrArg Option.isSome (h.runs q (lt_of_run? hs))
  rwa [Option.isSome_map, Option.isSome_map, hq] at hrun

theorem run_lt (h : o.Touches n o') (hnative : o'.native? m = some native) :
    m.run < o.runs.size := by
  obtain ⟨s, hs, hn⟩ := native?_eq_some_iff.mp hnative
  by_contra hge
  rw [Sketch.native?, (h.fresh (Nat.le_of_not_lt hge) hs).1] at hn
  cases hn

theorem loads (h : o.Touches n o') (ho : o.Sound file) (hnative : o.native? m = some native)
    (hloads : o'.Loads path native.work) : o.Loads path native.work := by
  refine hloads.mono fun q hwork hlive => ?_
  obtain ⟨s', hs'⟩ := Option.isSome_iff_exists.mp hlive
  obtain ⟨s, hs, _⟩ := h.run? (ho.running hnative hwork).2.1 hs'
  exact Option.isSome_iff_exists.mpr ⟨s, hs⟩

theorem drives (h : o.Touches n o') (hd : d ≠ some n) (hdrives : o.Drives file d path p) :
    o'.Drives file d path p := by
  refine hdrives.mono (fun _ => h.isSome) fun m native hm hnative => ?_
  rw [h.natives m fun heq => hd (hm.trans (congrArg some heq)), hnative]

theorem running (h : o.Touches n o') (ho : o.Sound file) (hnative : o.native? m = some native)
    (hwork : native.work = .running path q) : m.run < q ∧ q < o'.runs.size ∧
      ∀ s, o'.run? q = some s → s.owner = some m ∧ s.path = some path := by
  obtain ⟨hlt, hsize, hrun⟩ := ho.running hnative hwork
  refine ⟨hlt, Nat.lt_of_lt_of_le hsize h.size, fun s' hs' => ?_⟩
  obtain ⟨s, hs, howner, hpath⟩ := h.run? hsize hs'
  rw [← howner, ← hpath]
  exact hrun s hs

end Touches

/-- The run `r` has become `s'`; its native work `id` may have begun to run modules. -/
structure Becomes (o : Outline) (r id : Nat) (s' : Sketch) (o' : Outline) : Prop where
  size : o.runs.size ≤ o'.runs.size
  run? : ∀ q < o.runs.size, o'.run? q = if q = r then some s' else o.run? q
  fresh : ∀ {q t}, o.runs.size ≤ q → o'.run? q = some t → t.natives = [] ∧
    t.owner = some ⟨r, id⟩ ∧ ∃ native path, s'.native? id = some native ∧
      native.work = .running path q ∧ t.path = some path

namespace Becomes

variable {id : Nat}

theorem of_setRun (hs : o.run? r = some s) (hruns : o'.runs = (o.setRun r s').runs) :
    o.Becomes r id s' o' := by
  have hsize : o'.runs.size = o.runs.size := by
    rw [hruns, setRun, Array.size_setIfInBounds]
  refine ⟨hsize.ge, fun q _ => ?_, fun hq ht => ?_⟩
  · rw [← run?_setRun hs q, Outline.run?, Outline.run?, hruns]
  · exact absurd (lt_of_run? ht) (Nat.not_lt.mpr (hsize ▸ hq))

theorem push (states : Array Promise.State) {new : Sketch} (hs : o.run? r = some s)
    (hnative : s'.native? id = some native) (hwork : native.work = .running path o.runs.size)
    (howner : new.owner = some ⟨r, id⟩) (hpath : new.path = some path)
    (hnatives : new.natives = []) :
    o.Becomes r id s' { o.setRun r s' with
      states := states, runs := (o.setRun r s').runs.push (some new) } := by
  have hsize : (o.setRun r s').runs.size = o.runs.size := by
    rw [setRun, Array.size_setIfInBounds]
  refine ⟨?_, fun q hq => ?_, fun {q t} hq ht => ?_⟩
  · rw [Array.size_push, hsize]
    exact Nat.le_succ _
  · rw [← run?_setRun hs q, Outline.run?, Outline.run?, Array.getElem?_push, hsize,
      if_neg (Nat.ne_of_lt hq)]
  · rw [Outline.run?, Array.getElem?_push, hsize] at ht
    split at ht
    next heq =>
      cases ht
      exact ⟨hnatives, howner, native, path, hnative, heq ▸ hwork, hpath⟩
    next =>
      rw [Array.getElem?_eq_none (hsize ▸ hq)] at ht
      cases ht

/-- What the native work `id` is, once the run `r` is as it is then. -/
theorem touches (h : o.Becomes r id s' o') (hs : o.run? r = some s) (howner : s'.owner = s.owner)
    (hpath : s'.path = s.path) (hnatives : ∀ i, i ≠ id → s'.native? i = s.native? i) :
    o.Touches ⟨r, id⟩ o' ∧ o'.native? ⟨r, id⟩ = s'.native? id := by
  have hself : o'.native? ⟨r, id⟩ = s'.native? id := by
    refine native?_of_run? (n := ⟨r, id⟩) ?_
    rw [h.run? r (lt_of_run? hs), if_pos rfl]
  refine ⟨⟨h.size, fun q hq => ?_, fun hq ht => hself ▸ h.fresh hq ht, fun m hm => ?_⟩, hself⟩
  · rw [h.run? q hq]
    split
    next heq =>
      rw [heq, hs, Option.map_some, Option.map_some, howner, hpath]
    next => rfl
  · by_cases hq : m.run < o.runs.size
    · rw [Outline.native?, h.run? _ hq, Outline.native?]
      split
      next heq =>
        rw [heq, hs]
        refine hnatives m.native fun hid => hm ?_
        rw [← heq, ← hid]
      next => rfl
    · -- a run that has begun has no native work
      have hnone : o.run? m.run = none := by
        cases hm : o.run? m.run with
        | none => rfl
        | some t => exact absurd (lt_of_run? hm) hq
      rw [Outline.native?, Outline.native?, hnone]
      cases ht : o'.run? m.run with
      | none => rfl
      | some t =>
        rw [Option.bind_some, Sketch.native?, (h.fresh (Nat.le_of_not_lt hq) ht).1]
        rfl

end Becomes

/-- Native work that there is is removed, and its promise settled. -/
theorem complete_cases (o : Outline) (n : NativeRef) (outcome : Except String Value) :
    o.native? n = none ∧ o.complete n outcome = o ∨
      ∃ s native, o.run? n.run = some s ∧ s.native? n.native = some native ∧
        o.complete n outcome =
          Outline.setRun { o with
            states := o.states.modify native.promise.index (·.settle outcome) } n.run
            (s.remove n.native) := by
  rw [complete]
  cases hs : o.run? n.run with
  | none => exact .inl ⟨by rw [native?, hs]; rfl, rfl⟩
  | some s =>
    dsimp only
    cases hn : s.native? n.native with
    | none => exact .inl ⟨(native?_of_run? hs).trans hn, rfl⟩
    | some native => exact .inr ⟨s, native, rfl, hn, rfl⟩

theorem touches_complete (o : Outline) (n : NativeRef) (outcome : Except String Value) :
    o.Touches n (o.complete n outcome) ∧ (o.complete n outcome).native? n = none ∧
      (o.complete n outcome).runs.size = o.runs.size := by
  rcases complete_cases o n outcome with ⟨hnone, heq⟩ | ⟨s, native, hs, hn, heq⟩
  · rw [heq]
    exact ⟨touches_of_runs rfl n, hnone, rfl⟩
  · have hremove :
        ∀ i, (s.remove n.native).native? i = if i = n.native then none else s.native? i :=
      fun i => Sketch.native?_remove
    have hb : o.Becomes n.run n.native (s.remove n.native) (o.complete n outcome) :=
      .of_setRun hs (by rw [heq]; rfl)
    obtain ⟨htouches, hself⟩ := hb.touches hs rfl rfl fun i hi => by rw [hremove, if_neg hi]
    refine ⟨htouches, by rw [hself, hremove, if_pos rfl], ?_⟩
    rw [heq, setRun, Array.size_setIfInBounds]

/-- What has ended drives nothing, and nothing else has changed. -/
theorem drives_complete {outcome : Except String Value}
    (h : (o.complete n outcome).Drives file d path p) : d ≠ some n ∧ o.Drives file d path p := by
  obtain ⟨htouches, hnone, hsize⟩ := touches_complete o n outcome
  have hd : d ≠ some n := by
    rintro rfl
    obtain ⟨hnative, _⟩ := h
    rw [hnone] at hnative
    cases hnative
  refine ⟨hd, h.mono (fun q hq => ?_) fun m native hm hnative => ?_⟩
  · obtain ⟨s', hs'⟩ := Option.isSome_iff_exists.mp hq
    obtain ⟨s, hs, _⟩ := htouches.run? (hsize ▸ lt_of_run? hs') hs'
    exact Option.isSome_iff_exists.mpr ⟨s, hs⟩
  · rw [← htouches.natives m fun heq => hd (hm.trans (congrArg some heq)), hnative]

theorem modules_complete (o : Outline) (n : NativeRef) (outcome : Except String Value) :
    (o.complete n outcome).modules = o.modules := by
  rcases complete_cases o n outcome with ⟨_, heq⟩ | ⟨_, _, _, _, heq⟩
  · rw [heq]
  · rw [heq]
    rfl

theorem complete_modules (o : Outline) (modules : ModuleCache) (n : NativeRef)
    (outcome : Except String Value) :
    Outline.complete { o with modules := modules } n outcome =
      { o.complete n outcome with modules := modules } := by
  rcases complete_cases o n outcome with ⟨hnone, heq⟩ | ⟨s, native, hs, hn, heq⟩
  · rw [heq]
    rcases complete_cases { o with modules := modules } n outcome with ⟨_, heq'⟩ |
      ⟨s, native, hs, hn, _⟩
    · exact heq'
    · cases hnone.symm.trans ((native?_of_run? (o := o) hs).trans hn)
  · have hs' : ({ o with modules := modules } : Outline).run? n.run = some s := hs
    rw [heq, complete, hs']
    dsimp only
    rw [hn]
    rfl

/-- What the new native work may be. -/
structure Sound.Fits (file : Option (String × PromiseRef)) (o : Outline) (n : NativeRef)
    (o' : Outline) (native : Native) : Prop where
  running : ∀ {path q}, native.work = .running path q → n.run < q ∧ q < o'.runs.size ∧
    ∀ s, o'.run? q = some s → s.owner = some n ∧ s.path = some path
  awaited : ∀ {p}, native.work = .wait p → p.index < o'.states.size
  driven : ∀ {path}, o'.Loads path native.work →
    o'.modules.get? path = some (.loading native.promise) ∧
      ∀ {d path' p}, o.Drives file d path' p → Path.same path path' = true → d = some n
  recorded : ∀ {s importer path}, o.run? n.run = some s → s.path = some importer →
    o'.Seeks native.work path → o'.modules.Waits importer path

/-- Native work changes. -/
theorem Sound.touches (h : o.Sound file) (ht : o.Touches n o')
    (hstates : o.states.size ≤ o'.states.size) (hcache : o'.modules.Sound o'.states.size)
    (hkeeps : o.modules.Keeps o.states.size o'.modules)
    (htidy : ∀ {r s}, o'.run? r = some s → s.Tidy)
    (hsleepers : ∀ {n}, n ∈ o'.sleepers → n.run < o'.runs.size ∧ ∀ s, o'.run? n.run = some s →
      n.native < s.nextNative ∧
        ∀ native, s.native? n.native = some native → native.work.isSleep = true)
    (hstays : ∀ {old path q}, o.native? n = some old → old.work = .running path q →
      (o.run? q).isSome = true → ∃ native, o'.native? n = some native ∧ native.work = old.work)
    (hfits : ∀ {native}, o'.native? n = some native →
      o.native? n = some native ∨ Sound.Fits file o n o' native) : o'.Sound file := by
  have hcases : ∀ {m native}, o'.native? m = some native →
      o.native? m = some native ∨ m = n ∧ Sound.Fits file o n o' native := by
    intro m native hnative
    by_cases hm : m = n
    · subst hm
      exact (hfits hnative).imp_right fun hfits => ⟨rfl, hfits⟩
    · exact .inl (ht.natives m hm ▸ hnative)
  have hdrives : ∀ {d path p}, o'.Drives file d path p → o.Drives file d path p ∨ d = some n ∧
      o'.modules.get? path = some (.loading p) ∧
        ∀ {d path' p}, o.Drives file d path' p → Path.same path path' = true → d = some n := by
    intro d path p hd
    cases hd with
    | native hnative hloads =>
      rcases hcases hnative with hold | ⟨rfl, hfits⟩
      · exact .inl (.native hold (ht.loads h hold hloads))
      · exact .inr ⟨rfl, hfits.driven hloads⟩
    | file hfile => exact .inl (.file hfile)
  refine ⟨hcache, htidy, hsleepers, fun hnative hwork => ?_, fun {q s' m} hs' howner' => ?_,
    fun {q s'} hs' howner' => ?_, fun hnative hwork => ?_, fun hd => ?_, fun hd hd' hsame => ?_,
    fun {m native s' importer path} hs' himporter hnative hseeks => ?_⟩
  · rcases hcases hnative with hold | ⟨rfl, hfits⟩
    · exact ht.running h hold hwork
    · exact hfits.running hwork
  · by_cases hq : q < o.runs.size
    · obtain ⟨s, hs, howner, hpath⟩ := ht.run? hq hs'
      obtain ⟨old, path, hold, hwork, hpath'⟩ := h.owned hs (howner.trans howner')
      by_cases hm : m = n
      · subst hm
        obtain ⟨native, hnative, heq⟩ := hstays hold hwork (Option.isSome_iff_exists.mpr ⟨s, hs⟩)
        exact ⟨native, path, hnative, heq.trans hwork, hpath ▸ hpath'⟩
      · exact ⟨old, path, (ht.natives m hm).trans hold, hwork, hpath ▸ hpath'⟩
    · obtain ⟨_, howner, hbegun⟩ := ht.fresh (Nat.le_of_not_lt hq) hs'
      cases howner.symm.trans howner'
      exact hbegun
  · by_cases hq : q < o.runs.size
    · obtain ⟨s, hs, howner, hpath⟩ := ht.run? hq hs'
      rw [← hpath]
      exact h.main hs (howner.trans howner')
    · cases (ht.fresh (Nat.le_of_not_lt hq) hs').2.1.symm.trans howner'
  · rcases hcases hnative with hold | ⟨rfl, hfits⟩
    · exact Nat.lt_of_lt_of_le (h.awaited hold hwork) hstates
    · exact hfits.awaited hwork
  · rcases hdrives hd with hd | ⟨_, hget, _⟩
    · exact hkeeps.loads (h.driven hd)
    · exact hget
  · rcases hdrives hd with hd | ⟨rfl, _, hown⟩
    · rcases hdrives hd' with hd' | ⟨rfl, _, hown⟩
      · exact h.unique hd hd' hsame
      · exact hown hd (Path.same_symm hsame)
    · rcases hdrives hd' with hd' | ⟨rfl, _⟩
      · exact (hown hd' hsame).symm
      · rfl
  · obtain ⟨s, hs, _, hpath⟩ := ht.run? (ht.run_lt hnative) hs'
    rw [← hpath] at himporter
    rcases hcases hnative with hold | ⟨rfl, hfits⟩
    · refine hkeeps.waits (h.recorded hs himporter hold ?_)
      rcases hseeks with hloads | ⟨p, hwork, hp⟩
      · exact .inl (ht.loads h hold hloads)
      · exact .inr ⟨p, hwork, hkeeps.known (h.awaited hold hwork) hp⟩
    · exact hfits.recorded hs himporter hseeks

/-- The work becomes `work` without any change to what it sleeps, waits or runs for. -/
structure GoesOn (old work : Work) : Prop where
  sleep : old.isSleep = true → work.isSleep = true
  running : ∀ {path q}, old ≠ .running path q ∧ work ≠ .running path q
  wait : ∀ {p}, work ≠ .wait p
  loads : ∀ {path} {o o' : Outline}, o'.Loads path work → o.Loads path old

theorem GoesOn.of_sleep {old : Work} (hold : old.isSleep = true) (hwork : work.isSleep = true) :
    GoesOn old work := by
  refine ⟨fun _ => hwork, ⟨?_, ?_⟩, ?_, fun hloads => ?_⟩
  · rintro rfl
    cases hold
  · rintro rfl
    cases hwork
  · rintro p rfl
    cases hwork
  · cases hloads <;> cases hwork

theorem GoesOn.of_proceeds {old : Work} (h : old.Proceeds work) : GoesOn old work := by
  cases h with
  | reading =>
    refine ⟨nofun, ⟨nofun, nofun⟩, nofun, fun hloads => ?_⟩
    cases hloads
    exact .load
  | read =>
    refine ⟨nofun, ⟨nofun, nofun⟩, nofun, fun hloads => ?_⟩
    cases hloads
    exact .reading

namespace Sound

variable {file : Option (String × PromiseRef)} {id : Nat} {native : Native}

theorem of_runs (h : o.Sound file) (hruns : o'.runs = o.runs)
    (hstates : o.states.size ≤ o'.states.size) (hmodules : o'.modules = o.modules)
    (hsleepers : ∀ {n}, n ∈ o'.sleepers → n.run < o.runs.size ∧ ∀ s, o.run? n.run = some s →
      n.native < s.nextNative ∧
        ∀ native, s.native? n.native = some native → native.work.isSleep = true) :
    o'.Sound file := by
  have hrun : ∀ q, o'.run? q = o.run? q := fun q => by rw [Outline.run?, Outline.run?, hruns]
  have hnative : ∀ m, o'.native? m = o.native? m := fun m => by
    rw [Outline.native?, Outline.native?, hrun]
  refine h.touches (touches_of_runs hruns ⟨0, 0⟩) hstates ?_ (hmodules ▸ .refl _) (fun hs => ?_)
    (fun hn => ?_) (fun hold _ _ => ?_) (fun hn => ?_)
  · rw [hmodules]
    exact h.cache.mono hstates
  · exact h.tidy (hrun _ ▸ hs)
  · rw [hruns, hrun]
    exact hsleepers hn
  · exact ⟨_, (hnative _).trans hold, rfl⟩
  · exact .inl ((hnative _).symm.trans hn)

theorem setRun (h : o.Sound file) (id : Nat) (hs : o.run? r = some s)
    (hb : o.Becomes r id s' o') (hslept : o'.sleepers = o.sleepers)
    (hstates : o.states.size ≤ o'.states.size) (hcache : o'.modules.Sound o'.states.size)
    (hkeeps : o.modules.Keeps o.states.size o'.modules)
    (howner : s'.owner = s.owner) (hpath : s'.path = s.path)
    (hnatives : ∀ i, i ≠ id → s'.native? i = s.native? i) (htidy : s'.Tidy)
    (hnext : s.nextNative ≤ s'.nextNative)
    (hsleep : ∀ {native}, id < s.nextNative → s'.native? id = some native →
      ∃ old, s.native? id = some old ∧ (old.work.isSleep = true → native.work.isSleep = true))
    (hstays : ∀ {old path q}, s.native? id = some old → old.work = .running path q →
      (o.run? q).isSome = true → ∃ native, s'.native? id = some native ∧ native.work = old.work)
    (hfits : ∀ {native}, s'.native? id = some native →
      s.native? id = some native ∨ Sound.Fits file o ⟨r, id⟩ o' native) : o'.Sound file := by
  obtain ⟨ht, hnative'⟩ := hb.touches hs howner hpath hnatives
  have hnative : o.native? ⟨r, id⟩ = s.native? id := native?_of_run? hs
  refine h.touches ht hstates hcache hkeeps (fun {q t} hq => ?_) (fun {m} hm => ?_) ?_ ?_
  · by_cases hlt : q < o.runs.size
    · rw [hb.run? q hlt] at hq
      split at hq
      · cases hq
        exact htidy
      · exact h.tidy hq
    · exact .of_nil (hb.fresh (Nat.le_of_not_lt hlt) hq).1
  · -- the numbers of the sleepers have been given out, so none of them is new
    rw [hslept] at hm
    obtain ⟨hsize, hsleeps⟩ := h.sleepers hm
    refine ⟨Nat.lt_of_lt_of_le hsize hb.size, fun t hq => ?_⟩
    rw [hb.run? _ hsize] at hq
    split at hq
    next heq =>
      cases hq
      rw [heq] at hsleeps
      obtain ⟨hlt, hsleeps⟩ := hsleeps s hs
      refine ⟨Nat.lt_of_lt_of_le hlt hnext, fun native hn => ?_⟩
      by_cases hid : m.native = id
      · rw [hid] at hn hlt hsleeps
        obtain ⟨old, hold, himp⟩ := hsleep hlt hn
        exact himp (hsleeps old hold)
      · rw [hnatives _ hid] at hn
        exact hsleeps native hn
    next => exact hsleeps t hq
  · rw [hnative, hnative']
    exact hstays
  · rw [hnative, hnative']
    exact hfits

theorem tasks (h : o.Sound file) (hs : o.run? r = some s) (tasks : Multiset PromiseRef)
    {states : Array Promise.State} (hstates : o.states.size ≤ states.size) :
    (Outline.setRun { o with states := states } r { s with tasks := tasks }).Sound file :=
  h.setRun 0 hs (.of_setRun hs rfl) rfl hstates (h.cache.mono hstates) (.refl _) rfl rfl
    (fun _ _ => rfl) ⟨(h.tidy hs).nodup, (h.tidy hs).below⟩ (Nat.le_refl _)
    (fun {native} _ hn => ⟨native, hn, fun hsleep => hsleep⟩)
    (fun {old _ _} hold _ _ => ⟨old, hold, rfl⟩) (fun hn => .inl hn)

theorem register (h : o.Sound file) (hs : o.run? r = some s)
    (hruns : o'.runs = (o.setRun r (s.register work p)).runs) (hslept : o'.sleepers = o.sleepers)
    (hstates : o.states.size ≤ o'.states.size) (hcache : o'.modules.Sound o'.states.size)
    (hkeeps : o.modules.Keeps o.states.size o'.modules)
    (hfits : Sound.Fits file o ⟨r, s.nextNative⟩ o'
      { id := s.nextNative, promise := p, work := work }) : o'.Sound file := by
  have htidy := h.tidy hs
  have hnew := htidy.native?_register work p s.nextNative
  rw [if_pos rfl] at hnew
  refine h.setRun s.nextNative hs (.of_setRun hs hruns) hslept hstates hcache hkeeps rfl rfl
    (fun i hi => ?_) (htidy.register work p) (Nat.le_succ _) (fun hlt _ => ?_) (fun hold _ _ => ?_)
    (fun hn => ?_)
  · rw [htidy.native?_register, if_neg hi]
  · exact absurd hlt (Nat.lt_irrefl _)
  · rw [htidy.native?_next] at hold
    cases hold
  · cases hnew.symm.trans hn
    exact .inr hfits

theorem setWork (h : o.Sound file) (hs : o.run? r = some s) (id : Nat)
    (hgoes : ∀ {old}, s.native? id = some old → GoesOn old.work work) :
    (o.setRun r (s.setWork id work)).Sound file := by
  have hnew : (s.setWork id work).native? id = (s.native? id).map ({ · with work := work }) := by
    rw [Sketch.native?_setWork, if_pos rfl]
  have hbefore : ∀ {native}, (s.setWork id work).native? id = some native →
      ∃ old, s.native? id = some old ∧ native = { old with work := work } := by
    intro native hn
    rw [hnew] at hn
    obtain ⟨old, hold, rfl⟩ := Option.map_eq_some_iff.mp hn
    exact ⟨old, hold, rfl⟩
  have hnative : o.native? ⟨r, id⟩ = s.native? id := native?_of_run? hs
  refine h.setRun id hs (.of_setRun hs rfl) rfl (Nat.le_refl _) h.cache (.refl _) rfl rfl
    (fun i hi => ?_) ((h.tidy hs).setWork id work) (Nat.le_refl _) (fun _ hn => ?_)
    (fun hold hwork _ => ?_) (fun hn => ?_)
  · rw [Sketch.native?_setWork, if_neg hi]
  · obtain ⟨old, hold, rfl⟩ := hbefore hn
    exact ⟨old, hold, (hgoes hold).sleep⟩
  · exact absurd hwork (hgoes hold).running.1
  · obtain ⟨old, hold, rfl⟩ := hbefore hn
    have hgoes := hgoes hold
    rw [← hnative] at hold
    refine .inr ⟨fun hwork => absurd hwork hgoes.running.2, fun hwork => absurd hwork hgoes.wait,
      fun hloads => ?_, fun hs' himporter hseeks => ?_⟩
    · have hdrives : o.Drives file (some ⟨r, id⟩) _ _ := .native hold (hgoes.loads hloads)
      exact ⟨h.driven hdrives, fun hother hsame => (h.unique hdrives hother hsame).symm⟩
    · refine h.recorded hs' himporter hold (.inl ?_)
      rcases hseeks with hloads | ⟨p, hwork, _⟩
      · exact hgoes.loads hloads
      · exact absurd hwork hgoes.wait

/-- Native work ends, unless it runs a module still. -/
theorem complete (h : o.Sound file) (outcome : Except String Value)
    (hrunning : ∀ {native path q}, o.native? n = some native → native.work = .running path q →
      (o.run? q).isSome = false) : (o.complete n outcome).Sound file := by
  rcases complete_cases o n outcome with ⟨_, heq⟩ | ⟨s, native, hs, hn, heq⟩
  · rwa [heq]
  · have hnew : (s.remove n.native).native? n.native = none := by
      rw [Sketch.native?_remove, if_pos rfl]
    have hsize : (o.states.modify native.promise.index (·.settle outcome)).size = o.states.size :=
      Array.size_modify
    have hstates := Nat.le_of_eq hsize.symm
    rw [heq]
    refine h.setRun n.native hs (.of_setRun hs rfl) rfl hstates (h.cache.mono hstates)
      (.refl _) rfl rfl (fun i hi => ?_) ((h.tidy hs).remove n.native) (Nat.le_refl _)
      (fun _ hn' => ?_) (fun hold hwork hlive => ?_) (fun hn' => ?_)
    · rw [Sketch.native?_remove, if_neg hi]
    · rw [hnew] at hn'
      cases hn'
    · rw [hrunning ((native?_of_run? hs).trans hold) hwork] at hlive
      cases hlive
    · rw [hnew] at hn'
      cases hn'

/-- A module that nobody drives is no longer being loaded. -/
theorem forget (h : o.Sound file) {modules : ModuleCache}
    (hforgets : o.modules.Forgets path modules)
    (hfree : ∀ {d path' p}, o.Drives file d path' p → Path.same path path' = false) :
    ({ o with modules := modules } : Outline).Sound file := by
  have hdrives : ∀ {d path p}, ({ o with modules := modules } : Outline).Drives file d path p →
      o.Drives file d path p := fun hd => hd.of_runs rfl
  have hloads : ∀ {path work}, ({ o with modules := modules } : Outline).Loads path work →
      o.Loads path work := Loads.mono fun _ _ hq => hq
  refine ⟨h.cache.forgets hforgets, h.tidy, h.sleepers, h.running, h.owned, h.main, h.awaited,
    fun hd => ?_, fun hd hd' => h.unique (hdrives hd) (hdrives hd'),
      fun hs himporter hnative hseeks => ?_⟩
  · rw [hforgets.others (hfree (hdrives hd))]
    exact h.driven (hdrives hd)
  · obtain ⟨p, hp⟩ := h.drives hs himporter
    refine hforgets.waits.mpr ⟨hfree hp, h.recorded hs himporter hnative ?_⟩
    rcases hseeks with hseeks | ⟨p, hwork, hp⟩
    · exact .inl (hloads hseeks)
    · exact .inr ⟨p, hwork, (hforgets.before hp).2⟩

end Sound

/-! ### The end and the beginning of runs -/

namespace Drops

theorem before (h : o.Drops r o') {q : Nat} (hs : o'.run? q = some s) : o.run? q = some s :=
  ((h.kept q s).mp hs).1

theorem isSome (h : o.Drops r o') {q : Nat} (hq : (o'.run? q).isSome = true) :
    (o.run? q).isSome = true := by
  obtain ⟨s, hs⟩ := Option.isSome_iff_exists.mp hq
  exact Option.isSome_iff_exists.mpr ⟨s, h.before hs⟩

theorem run?_self (h : o.Drops r o') : o'.run? r = none := by
  cases hs : o'.run? r with
  | none => rfl
  | some s => exact absurd rfl ((h.kept r s).mp hs).2.1

theorem native? (h : o.Drops r o') (hnative : o'.native? n = some native) :
    o.native? n = some native := by
  obtain ⟨s, hs, hn⟩ := native?_eq_some_iff.mp hnative
  exact native?_eq_some_iff.mpr ⟨s, h.before hs, hn⟩

theorem drives (h : o.Drops r o') (hd : o'.Drives file d path p) : o.Drives file d path p :=
  hd.mono (fun _ => h.isSome) fun _ _ _ => h.native?

end Drops

namespace Sound

variable {file : Option (String × PromiseRef)} {id : Nat} {native : Native}

/-- A run and all that belong to it are gone. -/
theorem drops (h : o.Sound file) (hd : o.Drops r o') : o'.Sound file := by
  refine ⟨?_, fun hs => h.tidy (hd.before hs), fun hn => ?_, fun hnative hwork => ?_,
    fun {q s n} hs howner => ?_, fun hs => h.main (hd.before hs), fun hnative => ?_,
    fun hdrives => ?_, fun hdrives hdrives' => h.unique (hd.drives hdrives) (hd.drives hdrives'),
    fun hs himporter hnative hseeks => ?_⟩
  · rw [hd.states, hd.modules]
    exact h.cache
  · obtain ⟨hsize, hsleeps⟩ := h.sleepers (hd.sleepers hn)
    rw [hd.size]
    exact ⟨hsize, fun s hs => hsleeps s (hd.before hs)⟩
  · obtain ⟨hlt, hsize, hrun⟩ := h.running (hd.native? hnative) hwork
    rw [hd.size]
    exact ⟨hlt, hsize, fun s hs => hrun s (hd.before hs)⟩
  · -- a run that is left has an owner that is left
    obtain ⟨native, path, hnative, hwork, hpath⟩ := h.owned (hd.before hs) howner
    obtain ⟨_, hlive⟩ := ((hd.kept q s).mp hs).2.2 n howner
    obtain ⟨t, ht⟩ := Option.isSome_iff_exists.mp hlive
    refine ⟨native, path, ?_, hwork, hpath⟩
    rw [native?_of_run? ht, ← native?_of_run? (hd.before ht)]
    exact hnative
  · rw [hd.states]
    exact h.awaited (hd.native? hnative)
  · rw [hd.modules]
    exact h.driven (hd.drives hdrives)
  · rw [hd.modules]
    refine h.recorded (hd.before hs) himporter (hd.native? hnative) ?_
    rcases hseeks with hloads | ⟨p, hwork, hp⟩
    · exact .inl (hloads.mono fun _ _ => hd.isSome)
    · exact .inr ⟨p, hwork, hd.modules ▸ hp⟩

end Sound

/-- A module that the native work `id` of the run `r` has read begins to run. -/
theorem Sound.starts (h : o.Sound file) {id : Nat} {content : Except FileError String}
    {states : Array Promise.State} {new : Sketch} (hs : o.run? r = some s)
    (hn : s.native? id = some native) (hread : native.work = .read path content)
    (hstates : o.states.size ≤ states.size) (howner : new.owner = some ⟨r, id⟩)
    (hpath : new.path = some path) (hnew : new.natives = []) :
    ({ o.setRun r (s.setWork id (.running path o.runs.size)) with
      states := states
      runs := (o.setRun r (s.setWork id (.running path o.runs.size))).runs.push (some new) } :
        Outline).Sound file := by
  have hself : (s.setWork id (.running path o.runs.size)).native? id =
      some { native with work := .running path o.runs.size } := by
    rw [Sketch.native?_setWork, if_pos rfl, hn]
    rfl
  have hnative : o.native? ⟨r, id⟩ = some native := (native?_of_run? hs).trans hn
  have hloads : o.Loads path native.work := hread ▸ .read content
  have hdrives : o.Drives file (some ⟨r, id⟩) path native.promise := .native hnative hloads
  have hb := Becomes.push states hs hself rfl howner hpath hnew
  refine h.setRun id hs hb rfl hstates (h.cache.mono hstates) (.refl _) rfl rfl (fun i hi => ?_)
    ((h.tidy hs).setWork id _) (Nat.le_refl _) (fun _ _ => ⟨native, hn, fun hsleep => ?_⟩)
    (fun hold hwork _ => ?_) (fun hn' => .inr ?_)
  · rw [Sketch.native?_setWork, if_neg hi]
  · rw [hread] at hsleep
    cases hsleep
  · cases hn.symm.trans hold
    cases hread.symm.trans hwork
  · cases hself.symm.trans hn'
    refine ⟨fun hwork => ?_, nofun, fun hloads' => ?_, fun hs' himporter hseeks => ?_⟩
    · cases hwork
      refine ⟨lt_of_run? hs, ?_, fun t ht => ?_⟩
      · rw [Array.size_push, Outline.setRun, Array.size_setIfInBounds]
        exact Nat.lt_succ_self _
      · obtain ⟨_, howner, native', path', hn', hwork, hpath⟩ := hb.fresh (Nat.le_refl _) ht
        cases hself.symm.trans hn'
        cases hwork
        exact ⟨howner, hpath⟩
    · cases hloads'
      exact ⟨h.driven hdrives, fun hother hsame => (h.unique hdrives hother hsame).symm⟩
    · rcases hseeks with hloads' | ⟨p, hwork, _⟩
      · cases hloads'
        exact h.recorded hs' himporter hnative (.inl hloads)
      · cases hwork

/-! ### Steps -/

section

variable {file : Option (String × PromiseRef)} {early : Outline → Sketch → Prop}

namespace Sound

theorem sleeps (h : o.Sound file) (hs : o.run? r = some s) (ms : Nat) :
    (Outline.setRun { o with states := o.states.push .pending } r
      (s.register (.sleep ms) ⟨o.states.size⟩)).Sound file := by
  have hstates : o.states.size ≤ (o.states.push .pending).size := by
    rw [Array.size_push]
    omega
  refine h.register hs rfl rfl hstates (h.cache.mono hstates) (.refl _)
    ⟨nofun, nofun, fun hloads => ?_, fun _ _ hseeks => ?_⟩
  · cases hloads
  · rcases hseeks with hloads | ⟨p, hwork, _⟩
    · cases hloads
    · cases hwork

theorem waits (h : o.Sound file) (hs : o.run? r = some s)
    (hget : o.modules.get? path = some (.loading p))
    (hback : ∀ importer, s.path = some importer → ¬ o.modules.Leads path importer) : (Outline.setRun
      { o with states := o.states.push .pending, modules := o.modules.noted s.path path } r
      (s.register (.wait p) ⟨o.states.size⟩)).Sound file := by
  have hstates : o.states.size ≤ (o.states.push .pending).size := by
    rw [Array.size_push]
    omega
  refine h.register hs rfl rfl hstates
    ((h.cache.mono hstates).noted (fun i hi => h.loading hs hi) hback)
    ((ModuleCache.Keeps.refl _).noted _ _) ⟨nofun, fun hwork => ?_, fun hloads => ?_,
      fun hs' himporter hseeks => ?_⟩
  · cases hwork
    exact Nat.lt_of_lt_of_le (h.cache.known hget) hstates
  · cases hloads
  · cases hs.symm.trans hs'
    rcases hseeks with hloads | ⟨p', hwork, hp'⟩
    · cases hloads
    · -- the promise tells which module is waited for
      cases hwork
      have hget' := (ModuleCache.get?_noted o.modules s.path path _).symm.trans hp'
      show (o.modules.noted s.path path).Waits _ _
      rw [himporter]
      exact ModuleCache.waits_noted _ (h.cache.apart hget hget')

theorem loads (h : o.Sound file) (hs : o.run? r = some s) (hget : o.modules.get? path = none) :
    (Outline.setRun
      { o with
        states := o.states.push .pending
        modules := (o.modules.begin path ⟨o.states.size⟩).noted s.path path } r
      (s.register (.load path) ⟨o.states.size⟩)).Sound file := by
  have hsize : (o.states.push .pending).size = o.states.size + 1 := Array.size_push _
  have hself :
      (o.modules.begin path ⟨o.states.size⟩).get? path = some (.loading ⟨o.states.size⟩) := by
    rw [ModuleCache.get?_begin, Path.same_refl]
    rfl
  -- a module that is not in the cache waits for nothing, and the importer is in the cache
  have hback : ∀ importer, s.path = some importer →
      ¬ (o.modules.begin path ⟨o.states.size⟩).Leads path importer := by
    intro importer himporter hleads
    have hnowhere : ∀ b, ¬ (o.modules.begin path ⟨o.states.size⟩).Waits path b := by
      intro b hwaits
      obtain ⟨p, hp⟩ := h.cache.loading ((ModuleCache.waits_begin _).mp hwaits)
      cases hget.symm.trans hp
    have hsame := ModuleCache.leads_of_no_waits hnowhere hleads
    obtain ⟨p, hp⟩ := h.loading hs himporter
    rw [ModuleCache.get?_congr hsame, hp] at hget
    cases hget
  have hloading : ∀ importer, s.path = some importer →
      ∃ p, (o.modules.begin path ⟨o.states.size⟩).get? importer = some (.loading p) := by
    intro importer himporter
    obtain ⟨p, hp⟩ := h.loading hs himporter
    exact ⟨p, (ModuleCache.Keeps.begin hget).loads hp⟩
  have hcache : ((o.modules.begin path ⟨o.states.size⟩).noted s.path path).Sound
      (o.states.push .pending).size := by
    rw [hsize]
    exact (h.cache.begin path).noted hloading hback
  refine h.register hs rfl rfl (Nat.le_of_lt (Nat.lt_of_succ_le (Nat.le_of_eq hsize.symm))) hcache
    ((ModuleCache.Keeps.begin hget).noted _ _) ⟨nofun, nofun, fun hloads => ?_,
      fun hs' himporter hseeks => ?_⟩
  · cases hloads
    refine ⟨(ModuleCache.get?_noted _ _ _ _).trans hself, fun hother hsame => ?_⟩
    have hother := h.driven hother
    rw [← ModuleCache.get?_congr hsame, hget] at hother
    cases hother
  · cases hs.symm.trans hs'
    rcases hseeks with hloads | ⟨p, hwork, _⟩
    · cases hloads
      show ((o.modules.begin _ _).noted s.path _).Waits _ _
      rw [himporter]
      exact ModuleCache.waits_noted _ (Path.same_refl _)
    · cases hwork

theorem complete_forget {outcome : Except String Value} (h : (o.complete n outcome).Sound file)
    {modules : ModuleCache} (hforgets : o.modules.Forgets path modules)
    (hfree : ∀ {d path' p}, (o.complete n outcome).Drives file d path' p →
      Path.same path path' = false) :
    (Outline.complete { o with modules := modules } n outcome).Sound file := by
  rw [complete_modules]
  refine h.forget ?_ hfree
  rw [modules_complete]
  exact hforgets

theorem complete_owner (h : o.Sound file) (hs : o.run? r = some s) (howner : s.owner = some n)
    (hd : o.Drops r o') (outcome : Except String Value) : (o'.complete n outcome).Sound file := by
  refine (h.drops hd).complete outcome fun {native path q} hnative hwork => ?_
  obtain ⟨native', path', hnative', hwork', _⟩ := h.owned hs howner
  cases hnative'.symm.trans (hd.native? hnative)
  cases hwork.symm.trans hwork'
  rw [hd.run?_self]
  rfl

/-- When a run ends, nobody drives its module any more. -/
theorem free_of_drops (h : o.Sound file) (hs : o.run? r = some s) (howner : s.owner = some n)
    (hpath : s.path = some path) (hd : o.Drops r o') (hdrives : o'.Drives file d path' p) :
    Path.same path path' = false := by
  refine Bool.eq_false_iff.mpr fun hsame => ?_
  obtain ⟨p0, hown⟩ := h.drives hs hpath
  have hdn := h.unique hown (hd.drives hdrives) hsame
  rw [howner] at hdn
  subst hdn
  obtain ⟨hnative, hloads⟩ := hdrives
  obtain ⟨native', path'', hnative', hwork', _⟩ := h.owned hs howner
  cases hnative'.symm.trans (hd.native? hnative)
  rw [hwork'] at hloads
  cases hloads with
  | running hlive =>
    rw [hd.run?_self] at hlive
    cases hlive

end Sound

theorem Step.sound (hstep : Step early o o') (h : o.Sound file) : o'.Sound file := by
  cases hstep with
  | resolves v => exact h.of_runs rfl (by rw [Array.size_push]; omega) rfl h.sleepers
  | spawns hs => exact h.tasks hs _ (by rw [Array.size_push]; omega)
  | sleeps ms hs => exact h.sleeps hs ms
  | waits hs hget hback => exact h.waits hs hget hback
  | loads hs hget => exact h.loads hs hget
  | proceeds hs hn hproceeds =>
    refine h.setWork hs _ fun hold => ?_
    cases hn.symm.trans hold
    exact .of_proceeds hproceeds
  | @dozes r id ms s native hs hn hwork =>
    have hsleeps : GoesOn native.work .sleeping := .of_sleep (by rw [hwork]; rfl) rfl
    have hset := h.setWork hs id fun hold => Option.some.inj (hn.symm.trans hold) ▸ hsleeps
    refine hset.of_runs rfl (Nat.le_refl _) rfl fun {m} hm => ?_
    rcases List.mem_append.mp hm with hm | hm
    · exact hset.sleepers hm
    · cases List.mem_singleton.mp hm
      have hself :
          (o.setRun r (s.setWork id .sleeping)).run? r = some (s.setWork id .sleeping) := by
        rw [run?_setRun hs, if_pos rfl]
      refine ⟨lt_of_run? hself, fun t ht => ?_⟩
      cases hself.symm.trans ht
      obtain ⟨hmem, hid⟩ := Sketch.mem_of_native? hn
      refine ⟨hid ▸ (h.tidy hs).below native hmem, fun native' hnative' => ?_⟩
      rw [Sketch.native?_setWork, if_pos rfl, hn] at hnative'
      cases hnative'
      rfl
  | rouses hn hs =>
    refine h.setWork hs _ fun hold => .of_sleep ?_ rfl
    exact ((h.sleepers hn).2 _ hs).2 _ hold
  | forgets hsub => exact h.of_runs rfl (Nat.le_refl _) rfl fun hn => h.sleepers (hsub hn)
  | completes hs hn hover =>
    refine h.complete _ fun {native path q} hnative hwork => ?_
    cases ((native?_of_run? hs).trans hn).symm.trans hnative
    rcases hover with ⟨hsleep, _⟩ | ⟨p, hwait, _⟩
    · rw [hwork] at hsleep
      cases hsleep
    · cases hwork.symm.trans hwait
  | starts hs hn hread =>
    exact h.starts hs hn hread (by rw [Array.size_push]; omega) rfl rfl rfl
  | @refuses r id s native path message content hs hn hread =>
    have hnative : o.native? ⟨r, id⟩ = some native := (native?_of_run? hs).trans hn
    have hown : o.Drives file (some ⟨r, id⟩) path native.promise :=
      .native hnative (hread ▸ .read content)
    refine Sound.complete_forget (h.complete _ fun hnative' hwork => ?_)
      (ModuleCache.forgets_erase _ _) fun hdrives => ?_
    · cases hnative.symm.trans hnative'
      cases hwork.symm.trans hread
    · obtain ⟨hd, hdrives⟩ := drives_complete hdrives
      exact Bool.eq_false_iff.mpr fun hsame => hd (h.unique hown hdrives hsame).symm
  | @pays r s p outcome hs hp =>
    have hsize : (o.states.modify p.index (·.settle outcome)).size = o.states.size :=
      Array.size_modify
    exact h.tasks hs _ (Nat.le_of_eq hsize.symm)
  | stops hs hp => exact h.tasks hs _ (Nat.le_refl _)
  | loaded globals hs howner hpath _ hd =>
    exact Sound.complete_forget (h.complete_owner hs howner hd _) (ModuleCache.forgets_finish _ _ _)
      fun hdrives => h.free_of_drops hs howner hpath hd (drives_complete hdrives).2
  | fails message hs howner hpath _ hd =>
    exact Sound.complete_forget (h.complete_owner hs howner hd _) (ModuleCache.forgets_erase _ _)
      fun hdrives => h.free_of_drops hs howner hpath hd (drives_complete hdrives).2
  | exits hs howner hpath _ hd =>
    exact (h.drops hd).forget (ModuleCache.forgets_erase _ _) (h.free_of_drops hs howner hpath hd)

theorem Steps.sound (hsteps : Steps early o o') (h : o.Sound file) : o'.Sound file := by
  induction hsteps with
  | refl => exact h
  | tail _ hstep ih => exact hstep.sound ih

theorem Sound.begins {new : Sketch} (hruns : o.runs = #[some new]) (hsleepers : o.sleepers = [])
    (hcache : o.modules.Sound o.states.size) (howner : new.owner = none)
    (hnatives : new.natives = []) (hpath : new.path = file.map Prod.fst)
    (hfile : ∀ path p, file = some (path, p) → o.modules.get? path = some (.loading p)) :
    o.Sound file := by
  have hrun : ∀ {q s}, o.run? q = some s → q = 0 ∧ s = new := by
    intro q s hs
    rw [Outline.run?, hruns] at hs
    cases q with
    | zero =>
      cases hs
      exact ⟨rfl, rfl⟩
    | succ q => cases hs
  have hnative : ∀ n, o.native? n = none := by
    intro n
    refine Option.eq_none_iff_forall_ne_some.mpr fun native hn => ?_
    obtain ⟨s, hs, hn⟩ := native?_eq_some_iff.mp hn
    cases (hrun hs).2
    rw [Sketch.native?, hnatives] at hn
    cases hn
  refine ⟨hcache, fun hs => ?_, hsleepers ▸ (by rintro ⟨⟩), fun hn => ?_, fun hs ho => ?_,
    fun hs _ => ?_, fun hn => ?_, fun hd => ?_, fun hd hd' _ => ?_, fun _ _ hn => ?_⟩
  · cases (hrun hs).2
    exact .of_nil hnatives
  · cases (hnative _).symm.trans hn
  · cases (hrun hs).2
    cases howner.symm.trans ho
  · obtain ⟨rfl, rfl⟩ := hrun hs
    exact ⟨rfl, hpath⟩
  · cases (hnative _).symm.trans hn
  · cases hd with
    | native hn => cases (hnative _).symm.trans hn
    | file hfile' => exact hfile _ _ hfile'
  · cases hd with
    | native hn => cases (hnative _).symm.trans hn
    | file =>
      cases hd' with
      | native hn => cases (hnative _).symm.trans hn
      | file => rfl
  · cases (hnative _).symm.trans hn

end

end Outline

end TaskBasic
