import TaskBasic.Proofs.Code.Scoping

/-
The books that are kept on locals are exact.

Declaring a local and counting those of inner blocks look only at the newest locals.  That
is enough because depths never decrease from an older local to a newer one (`Sorted`),
whatever happens to a scope: blocks begin and end, names are declared, and locals are
dropped on a way out of a block that goes on behind it.

* `Sorted.apply`, `Sorted.applyAll` — one step, and all steps, keep the order.
* `Balanced.grows` — what blocks within a block leave behind.
* `bookkeeping_exact` — what the books say at any time.
-/

namespace TaskBasic.Scope

open List

/-- What happens to a scope. -/
inductive Act
  | enter
  | leave
  | declare (name : String)
  /-- The locals deeper than `depth` are dropped, and the block goes on. -/
  | drop (depth : Nat)

/-- A name that cannot be declared leaves the scope as it is. -/
def apply (s : Scope) : Act → Scope
  | .enter => s.enter
  | .leave => s.leave
  | .declare name => ((s.declare? name).map Prod.fst).getD s
  | .drop depth => s.dropAbove depth

def applyAll (s : Scope) (acts : List Act) : Scope :=
  acts.foldl apply s

/-- Acts that leave every block they enter, and no other, and drop no locals besides. -/
inductive Balanced : List Act → Prop
  | nil : Balanced []
  | declare (name : String) {acts : List Act} : Balanced acts → Balanced (.declare name :: acts)
  | block {inner acts : List Act} :
    Balanced inner → Balanced acts → Balanced (.enter :: (inner ++ .leave :: acts))

/-- Depths do not decrease from an older local to a newer one, no block declares a name twice, and
no local belongs to a block that has been left. -/
structure Sorted (s : Scope) : Prop where
  order : s.locals.Pairwise fun newer older => older.depth ≤ newer.depth
  distinct : s.locals.Nodup
  bounded : ∀ l ∈ s.locals, l.depth ≤ s.depth

variable {s : Scope} {name : String} {slot : Nat}

/-! ### What the newest locals tell -/

/-- Where a property is lost only from newer to older locals, those that have it come first. -/
theorem takeWhile_eq_filter {p : Local → Bool} {L : List Local}
    (h : L.Pairwise fun newer older => p older = true → p newer = true) :
    L.takeWhile p = L.filter p ∧ ∀ l ∈ L.dropWhile p, ¬ p l = true := by
  induction h with
  | nil => exact ⟨rfl, nofun⟩
  | @cons l L hl _ ih =>
    by_cases hp : p l = true
    · rw [takeWhile_cons_of_pos hp, filter_cons_of_pos hp, dropWhile_cons_of_pos hp, ih.1]
      exact ⟨rfl, ih.2⟩
    · have hnone : ∀ older ∈ L, ¬ p older = true := fun older holder hp' => hp (hl older holder hp')
      rw [takeWhile_cons_of_neg hp, filter_cons_of_neg hp, dropWhile_cons_of_neg hp,
        filter_eq_nil_iff.mpr hnone]
      exact ⟨rfl, forall_mem_cons.mpr ⟨hp, hnone⟩⟩

theorem Sorted.above (h : s.Sorted) (d : Nat) : s.locals.Pairwise fun newer older =>
    decide (d < older.depth) = true → decide (d < newer.depth) = true :=
  h.order.imp fun hle hd => decide_eq_true (Nat.lt_of_lt_of_le (of_decide_eq_true hd) hle)

theorem Sorted.countAbove_eq (h : s.Sorted) (d : Nat) :
    s.countAbove d = s.locals.countP fun l => decide (d < l.depth) := by
  rw [countAbove, (takeWhile_eq_filter (h.above d)).1, countP_eq_length_filter]

theorem Sorted.declares_iff (h : s.Sorted) (name : String) :
    s.declares name = true ↔ ⟨name, s.depth⟩ ∈ s.locals := by
  have hown : s.locals.Pairwise fun newer older =>
      decide (older.depth = s.depth) = true → decide (newer.depth = s.depth) = true := by
    -- No local lies deeper than the current block.
    refine h.order.imp_of_mem fun hnewer _ hle hd => ?_
    have hbound := h.bounded _ hnewer
    simp only [decide_eq_true_eq] at hd ⊢
    omega
  rw [declares, (takeWhile_eq_filter hown).1, any_filter, any_eq_true]
  constructor
  · rintro ⟨⟨n, k⟩, hl, hk⟩
    simp only [Bool.and_eq_true, decide_eq_true_eq, beq_iff_eq] at hk
    obtain ⟨rfl, rfl⟩ := hk
    exact hl
  · exact fun hl => ⟨_, hl, by simp⟩

theorem Sorted.declare?_eq (h : s.Sorted) (name : String) : s.declare? name =
    if ⟨name, s.depth⟩ ∈ s.locals then none
    else some ({ s with locals := ⟨name, s.depth⟩ :: s.locals }, s.locals.length) := by
  rw [declare?]
  exact if_congr (h.declares_iff name) rfl rfl

/-- The slot of a name is the number of locals that are older than the newest one of that name. -/
theorem slot?_eq_some_iff : s.slot? name = some slot ↔ ∃ newer l older,
    s.locals = newer ++ l :: older ∧ l.name = name ∧ older.length = slot ∧
      ∀ l' ∈ newer, l'.name ≠ name := by
  rw [slot?, Option.map_eq_some_iff]
  constructor
  · rintro ⟨i, hi, rfl⟩
    obtain ⟨hlt, hname, hfirst⟩ := findIdx?_eq_some_iff_getElem.mp hi
    refine ⟨s.locals.take i, s.locals[i], s.locals.drop (i + 1), by simp, beq_iff_eq.mp hname,
      ?_, ?_⟩
    · rw [length_drop]
      omega
    · intro l hl
      obtain ⟨j, hj, rfl⟩ := mem_take_iff_getElem.mp hl
      simpa using hfirst j (by omega)
  · rintro ⟨newer, l, older, hlocals, rfl, rfl, hnewer⟩
    have hnone : newer.findIdx? (·.name == l.name) = none :=
      findIdx?_eq_none_iff.mpr (by simpa using hnewer)
    refine ⟨newer.length, ?_, ?_⟩
    · rw [hlocals, findIdx?_append, hnone]
      simp [findIdx?_cons]
    · rw [hlocals, length_append, length_cons]
      omega

/-! ### Steps and runs -/

theorem Sorted.empty : Sorted {} := ⟨.nil, .nil, nofun⟩

theorem Sorted.cut (h : s.Sorted) {d k : Nat} (hk : ∀ l ∈ TaskBasic.cut d s.locals, l.depth ≤ k) :
    Sorted ⟨TaskBasic.cut d s.locals, k⟩ :=
  ⟨h.order.sublist (cut_suffix _ _).sublist, h.distinct.sublist (cut_suffix _ _).sublist, hk⟩

/-- Whatever happens keeps the order: locals are declared at the greatest depth only, and the
newest ones are dropped. -/
theorem Sorted.apply (h : s.Sorted) (a : Act) : (s.apply a).Sorted := by
  cases a with
  | enter => exact ⟨h.order, h.distinct, fun l hl => Nat.le_succ_of_le (h.bounded l hl)⟩
  | leave =>
    rw [Scope.apply, leave, dropAbove_eq]
    -- the locals that are kept begin where they are no longer too deep
    refine h.cut fun l hl => Nat.le_of_not_lt fun hlt => ?_
    exact (takeWhile_eq_filter (h.above _)).2 l hl (decide_eq_true hlt)
  | declare name =>
    rw [Scope.apply, h.declare?_eq]
    split
    next => exact h
    next hnew =>
      exact ⟨.cons h.bounded h.order, nodup_cons.mpr ⟨hnew, h.distinct⟩,
        forall_mem_cons.mpr ⟨Nat.le_refl _, h.bounded⟩⟩
  | drop d =>
    rw [Scope.apply, dropAbove_eq]
    exact h.cut fun l hl => h.bounded l (mem_of_mem_cut hl)

theorem Sorted.applyAll (h : s.Sorted) (acts : List Act) : (s.applyAll acts).Sorted := by
  induction acts generalizing s with
  | nil => exact h
  | cons a acts ih => exact ih (h.apply a)

theorem Balanced.grows {acts : List Act} (hacts : Balanced acts) (h : s.Sorted) :
    (s.applyAll acts).depth = s.depth ∧
      ∃ new, (s.applyAll acts).locals = new ++ s.locals ∧ ∀ l ∈ new, l.depth = s.depth := by
  induction hacts generalizing s with
  | nil => exact ⟨rfl, [], rfl, nofun⟩
  | @declare name acts _ ih =>
    obtain ⟨hsame, own, hown, hdeep⟩ : (s.apply (.declare name)).depth = s.depth ∧
        ∃ own, (s.apply (.declare name)).locals = own ++ s.locals ∧ ∀ l ∈ own,
          l.depth = s.depth := by
      rw [Scope.apply, h.declare?_eq]
      split
      next => exact ⟨rfl, [], rfl, nofun⟩
      next => exact ⟨rfl, [⟨name, s.depth⟩], rfl, by simp⟩
    obtain ⟨hdepth, new, hlocals, hnew⟩ := ih (h.apply (.declare name))
    refine ⟨hdepth.trans hsame, new ++ own, ?_, forall_mem_append.mpr ⟨?_, hdeep⟩⟩
    · rw [append_assoc, ← hown]
      exact hlocals
    · exact fun l hl => (hnew l hl).trans hsame
  | @block inner acts _ _ ih ihs =>
    -- an inner block is left as it was entered, so that only what follows it counts
    have hin := h.apply .enter
    obtain ⟨hdepth, new, hlocals, hnew⟩ := ih hin
    have hback := leave_append hdepth hlocals hnew h.bounded
    have hrun : s.applyAll (.enter :: (inner ++ .leave :: acts)) = s.applyAll acts := by
      rw [applyAll, foldl_cons, foldl_append, foldl_cons]
      exact congrArg (applyAll · acts) hback
    rw [hrun]
    exact ihs h

/-- At any time: depths never decrease from an older local to a newer one, and none exceeds that of
the block; a block declares no name twice, and exactly the names that it has declared are refused;
the count of deeper locals is that of all of them; a name means the newest local of that name; and
a block gives back all of its own locals and no others. -/
theorem bookkeeping_exact (acts : List Act) :
    let s := ({} : Scope).applyAll acts
    (s.locals.Pairwise fun newer older => older.depth ≤ newer.depth) ∧
      (∀ l ∈ s.locals, l.depth ≤ s.depth) ∧ s.locals.Nodup ∧
      (∀ name, if ⟨name, s.depth⟩ ∈ s.locals then s.declare? name = none ∧
        s.apply (.declare name) = s
        else s.declare? name = some (s.apply (.declare name), s.locals.length) ∧
          s.apply (.declare name) = { s with locals := ⟨name, s.depth⟩ :: s.locals }) ∧
      (∀ d, s.countAbove d = s.locals.countP fun l => decide (d < l.depth)) ∧
      (∀ name slot, s.slot? name = some slot ↔ ∃ newer l older, s.locals = newer ++ l :: older ∧
        l.name = name ∧ older.length = slot ∧ ∀ l' ∈ newer, l'.name ≠ name) ∧
      ∀ inner, Balanced inner →
        let t := s.enter.applyAll inner
        t.leave = s ∧ t.countAbove (t.depth - 1) + s.locals.length = t.locals.length := by
  intro s
  have h : s.Sorted := Sorted.empty.applyAll acts
  refine ⟨h.order, h.bounded, h.distinct, fun name => ?_, h.countAbove_eq,
    fun _ _ => slot?_eq_some_iff, ?_⟩
  · rw [Scope.apply, h.declare?_eq]
    split
    next => exact ⟨rfl, rfl⟩
    next => exact ⟨rfl, rfl⟩
  · intro inner hinner t
    obtain ⟨hdepth, new, hlocals, hnew⟩ := hinner.grows (h.apply .enter)
    have hback : t.leave = s := leave_append hdepth hlocals hnew h.bounded
    have hlength := t.length_dropAbove (t.depth - 1)
    exact ⟨hback, by rw [← hlength, Nat.add_comm, ← congrArg (·.locals.length) hback]; rfl⟩

/-- A name is declared again in an inner block, after the locals of the block have been dropped. -/
theorem bookkeeping_exact_shadowed :
    let s := ({} : Scope).applyAll [.enter, .declare "x", .enter, .declare "x", .drop 1]
    let inner : List Act := [.declare "x", .enter, .declare "y", .leave]
    Balanced inner ∧ (s.enter.applyAll inner).leave = s :=
  have h : Balanced [.declare "x", .enter, .declare "y", .leave] :=
    .declare _ (.block (.declare _ .nil) .nil)
  ⟨h, ((bookkeeping_exact _).2.2.2.2.2.2 _ h).1⟩

end TaskBasic.Scope
