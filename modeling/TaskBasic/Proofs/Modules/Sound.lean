import TaskBasic.Proofs.Machine.Deeds

/-
What the module cache can look like.

Modules that are being loaded have promises of their own, and only they wait for
others.  Loads that begin, waits that are recorded and loads that end keep this.

* `ModuleCache.Sound` — what always holds of the cache.
* `ModuleCache.Keeps` — a change that no load in the cache notices.
* `ModuleCache.Forgets` — the end of one load.
-/

namespace TaskBasic

open Relation

namespace ModuleCache

variable (c : ModuleCache)

theorem get?_noted (importer : Option String) (path a : String) :
    (c.noted importer path).get? a = c.get? a := by
  cases importer with
  | none => rfl
  | some i => exact get?_addImport

theorem waits_noted {importer path b : String}
    (h : Path.same path b = true) : (c.noted (some importer) path).Waits importer b :=
  waits_addImport.mpr (.inr ⟨Path.same_refl importer, h⟩)

end ModuleCache

/-- The promises of the loads are different ones and among the first `size`; only modules that
are being loaded wait, and none of them for itself. -/
structure ModuleCache.Sound (size : Nat) (c : ModuleCache) : Prop where
  known : ∀ {a p}, c.get? a = some (.loading p) → p.index < size
  apart : ∀ {a b p}, c.get? a = some (.loading p) → c.get? b = some (.loading p) →
    Path.same a b = true
  loading : ∀ {a b}, c.Waits a b → ∃ p, c.get? a = some (.loading p)
  acyclic : c.Acyclic

namespace ModuleCache.Sound

variable {c : ModuleCache} {size : Nat} {path : String}

theorem mono {size' : Nat} (h : c.Sound size) (hsize : size ≤ size') : c.Sound size' :=
  { h with known := fun hp => Nat.lt_of_lt_of_le (h.known hp) hsize }

/-- A load begins, with a promise that is new. -/
theorem begin (h : c.Sound size) (path : String) : (c.begin path ⟨size⟩).Sound (size + 1) := by
  have hget : ∀ {a p}, (c.begin path ⟨size⟩).get? a = some (.loading p) →
      Path.same path a = true ∧ p = ⟨size⟩ ∨ c.get? a = some (.loading p) ∧ p.index < size := by
    intro a p hp
    rw [get?_begin] at hp
    split at hp
    next hsame =>
      cases hp
      exact .inl ⟨hsame, rfl⟩
    next => exact .inr ⟨hp, h.known hp⟩
  refine ⟨fun {a p} hp => ?_, fun {a b p} ha hb => ?_, fun {a b} hwaits => ?_, ?_⟩
  · rcases hget hp with ⟨_, rfl⟩ | ⟨_, hlt⟩
    · exact Nat.lt_succ_self size
    · omega
  · rcases hget ha with ⟨hsame, rfl⟩ | ⟨ha, hlt⟩
    · rcases hget hb with ⟨hsame', _⟩ | ⟨_, hlt⟩
      · exact Path.same_trans (Path.same_symm hsame) hsame'
      · exact absurd hlt (Nat.lt_irrefl size)
    · rcases hget hb with ⟨_, rfl⟩ | ⟨hb, _⟩
      · exact absurd hlt (Nat.lt_irrefl size)
      · exact h.apart ha hb
  · obtain ⟨p, hp⟩ := h.loading ((waits_begin _).mp hwaits)
    rw [get?_begin]
    split
    · exact ⟨_, rfl⟩
    · exact ⟨p, hp⟩
  · exact h.acyclic.mono fun a b hwaits => (waits_begin _).mp hwaits

/-- A module that is being loaded begins to wait for one that does not wait for it. -/
theorem noted (h : c.Sound size) {importer : Option String}
    (hloading : ∀ i, importer = some i → ∃ p, c.get? i = some (.loading p))
    (hback : ∀ i, importer = some i → ¬ c.Leads path i) : (c.noted importer path).Sound size := by
  cases importer with
  | none => exact h
  | some i =>
    show (c.addImport i path).Sound size
    refine ⟨fun {a p} hp => ?_, fun {a b p} ha hb => ?_, fun {a b} hwaits => ?_, ?_⟩
    · rw [get?_addImport] at hp
      exact h.known hp
    · rw [get?_addImport] at ha hb
      exact h.apart ha hb
    · rw [get?_addImport]
      rcases waits_addImport.mp hwaits with hwaits | ⟨hsame, _⟩
      · exact h.loading hwaits
      · obtain ⟨p, hp⟩ := hloading i rfl
        exact ⟨p, get?_congr hsame ▸ hp⟩
    · exact h.acyclic.addImport (hback i rfl)

end ModuleCache.Sound

/-- The cache `c'` is `c`, except that the module `path` is no longer being loaded. -/
structure ModuleCache.Forgets (c : ModuleCache) (path : String) (c' : ModuleCache) : Prop where
  others : ∀ {a}, Path.same path a = false → c'.get? a = c.get? a
  ended : ∀ {p}, c'.get? path ≠ some (.loading p)
  waits : ∀ {a b}, c'.Waits a b ↔ Path.same path a = false ∧ c.Waits a b

namespace ModuleCache

variable {c c' : ModuleCache} {size : Nat} {path : String}

theorem forgets_finish (c : ModuleCache) (path : String) (globals : DictRef) :
    c.Forgets path (c.finish path globals) := by
  refine ⟨fun {a} hsame => ?_, fun {p} => ?_, waits_finish globals⟩
  · rw [get?_finish, hsame]
    rfl
  · rw [get?_finish, Path.same_refl]
    nofun

theorem forgets_erase (c : ModuleCache) (path : String) : c.Forgets path (c.erase path) := by
  refine ⟨fun {a} hsame => ?_, fun {p} => ?_, waits_erase⟩
  · rw [get?_erase, hsame]
    rfl
  · rw [get?_erase, Path.same_refl]
    nofun

/-- What is being loaded afterwards is another module, and was being loaded before. -/
theorem Forgets.before (h : c.Forgets path c') {a : String} {p : PromiseRef}
    (hp : c'.get? a = some (.loading p)) :
    Path.same path a = false ∧ c.get? a = some (.loading p) := by
  cases hsame : Path.same path a with
  | false => exact ⟨rfl, h.others hsame ▸ hp⟩
  | true => exact absurd (get?_congr hsame ▸ hp) h.ended

theorem Sound.forgets (h : c.Sound size) (hforgets : c.Forgets path c') : c'.Sound size := by
  refine ⟨fun {a p} hp => h.known (hforgets.before hp).2,
    fun {a b p} ha hb => h.apart (hforgets.before ha).2 (hforgets.before hb).2,
    fun {a b} hwaits => ?_, h.acyclic.mono fun a b hwaits => (hforgets.waits.mp hwaits).2⟩
  obtain ⟨hother, hwaits⟩ := hforgets.waits.mp hwaits
  rw [hforgets.others hother]
  exact h.loading hwaits

end ModuleCache

/-- What is being loaded in the cache `c` is so in `c'`, and waits as before; what is being loaded
in `c'` besides has a promise that is not among the first `size`. -/
structure ModuleCache.Keeps (size : Nat) (c c' : ModuleCache) : Prop where
  loads : ∀ {a p}, c.get? a = some (.loading p) → c'.get? a = some (.loading p)
  known : ∀ {a p}, p.index < size → c'.get? a = some (.loading p) → c.get? a = some (.loading p)
  waits : ∀ {a b}, c.Waits a b → c'.Waits a b

namespace ModuleCache.Keeps

variable {c c' : ModuleCache} {size : Nat} {path : String}

theorem refl (c : ModuleCache) : c.Keeps size c :=
  ⟨id, fun _ => id, id⟩

theorem noted (h : c.Keeps size c') (importer : Option String) (path : String) :
    c.Keeps size (c'.noted importer path) := by
  cases importer with
  | none => exact h
  | some i =>
    show c.Keeps size (c'.addImport i path)
    refine ⟨fun {a p} hp => ?_, fun {a p} hlt hp => ?_, fun {a b} hwaits => ?_⟩
    · rw [get?_addImport]
      exact h.loads hp
    · rw [get?_addImport] at hp
      exact h.known hlt hp
    · exact waits_addImport.mpr (.inl (h.waits hwaits))

theorem begin (hpath : c.get? path = none) : c.Keeps size (c.begin path ⟨size⟩) := by
  refine ⟨fun {a p} hp => ?_, fun {a p} hlt hp => ?_, (waits_begin _).mpr⟩
  · rw [get?_begin]
    split
    next hsame =>
      rw [get?_congr hsame, hp] at hpath
      cases hpath
    next => exact hp
  · rw [get?_begin] at hp
    split at hp
    · cases hp
      exact absurd hlt (Nat.lt_irrefl size)
    · exact hp

end ModuleCache.Keeps

end TaskBasic
