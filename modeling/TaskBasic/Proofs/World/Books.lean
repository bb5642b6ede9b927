import Mathlib.Data.List.Nodup
import Mathlib.Data.List.Perm.Basic
import Mathlib.Logic.Function.Basic
import Mathlib.Logic.Relation
import TaskBasic.Proofs.World.Turn

/-
The books of a program: which promises are pending, and who is to settle them.

Every task and all native work owes the promise that it settles when it ends.
`Books.Step` says what a step of a program does to its books, `Books.Balanced`
that exactly the promises that are owed are pending, and `Books.Since` what
stays true of books as time goes by.

* `Books.Step.balanced`, `Books.Step.since` — what a step preserves.
* `Turn.steps` — a turn of a program takes steps in its books.
-/

namespace TaskBasic

open List

/-- What owes promises. -/
inductive Role
  | task
  | native
deriving DecidableEq

/-- A task, or native work, by its number. -/
structure Owner where
  role : Role
  id : Nat
deriving DecidableEq

structure Books where
  states : Array Promise.State
  debts : List (Owner × PromiseRef)
  /-- The number of the next task, and of the next native work. -/
  next : Role → Nat

def Promise.State.settle : Promise.State → Except String Value → Promise.State
  | .pending, .ok value => .resolved value
  | .pending, .error message => .rejected message
  | s, _ => s

theorem Promise.state_settle (p : Promise) (outcome : Except String Value) :
    (p.settle outcome).state = p.state.settle outcome := by
  obtain ⟨state, observed⟩ := p
  cases state <;> cases outcome <;> rfl

theorem Promise.State.settle_ne_pending (s : Promise.State) (outcome : Except String Value) :
    s.settle outcome ≠ .pending := by
  cases s <;> cases outcome <;> simp [Promise.State.settle]

theorem Promise.State.settle_of_ne {s : Promise.State} (hs : s ≠ .pending)
    (outcome : Except String Value) : s.settle outcome = s := by
  cases s with
  | pending => exact absurd rfl hs
  | resolved | rejected => rfl

/-- States of promises at two times: some are new, and some that were pending are settled. -/
def Later (A A' : Array Promise.State) : Prop :=
  ∀ (i : Nat) (s : Promise.State), A[i]? = some s → s ≠ .pending → A'[i]? = some s

theorem later_push (A : Array Promise.State) (s : Promise.State) : Later A (A.push s) := by
  intro i s' hs _
  have hlt := (Array.getElem?_eq_some_iff.mp hs).1
  rw [Array.getElem?_push, if_neg (Nat.ne_of_lt hlt)]
  exact hs

theorem later_settle (A : Array Promise.State) (j : Nat) (outcome : Except String Value) :
    Later A (A.modify j (·.settle outcome)) := by
  intro i s hs hne
  rw [Array.getElem?_modify]
  split
  · rw [hs, Option.map_some, Promise.State.settle_of_ne hne]
  · exact hs

theorem Heap.outcome?_later {h h' : Heap}
    (hlater : Later (h.promises.map Promise.state) (h'.promises.map Promise.state)) {p : PromiseRef}
    {outcome : Except String Value} (hp : (h.promise p).outcome? = some outcome) :
    (h'.promise p).outcome? = some outcome := by
  rw [Heap.promise] at hp ⊢
  cases hq : h.promises[p.index]? with
  | none =>
    rw [hq] at hp
    cases hp
  | some q =>
    rw [hq, Option.getD_some] at hp
    have hne : q.state ≠ .pending := by
      intro hstate
      rw [Promise.outcome?, hstate] at hp
      cases hp
    have hkept := hlater p.index q.state (by rw [Array.getElem?_map, hq]; rfl) hne
    rw [Array.getElem?_map] at hkept
    obtain ⟨q', hq', hstate⟩ := Option.map_eq_some_iff.mp hkept
    rw [hq', Option.getD_some, Promise.outcome?, hstate]
    exact hp

namespace Books

/-- What happens to the books of a program whose main task owes the promise `main`. -/
inductive Step (main : PromiseRef) (B : Books) : Books → Prop
  /-- Tasks move from one list to another. -/
  | moves {debts} : B.debts.Perm debts → Step main B { B with debts := debts }
  /-- A promise with its value. -/
  | resolves (v : Value) : Step main B { B with states := B.states.push (.resolved v) }
  /-- A new promise, and a new owner that is to settle it. -/
  | owes (role : Role) :
    Step main B
      { states := B.states.push .pending
        debts := (⟨role, B.next role⟩, ⟨B.states.size⟩) :: B.debts
        next := Function.update B.next role (B.next role + 1) }
  /-- An owner ends, and its promise is settled; the main task does not fail. -/
  | pays {owner p debts outcome} : B.debts.Perm ((owner, p) :: debts) →
    (p = main → ∃ v, outcome = .ok v) →
    Step main B
      { B with states := B.states.modify p.index (·.settle outcome), debts := debts }

/-- Of the promises since the one numbered `first`, those are pending that are owed, and by one
owner each; and the main task has not failed. -/
structure Balanced (first : Nat) (main : PromiseRef) (B : Books) : Prop where
  owners : (B.debts.map Prod.fst).Nodup
  fresh : ∀ e ∈ B.debts, e.1.id < B.next e.1.role
  promises : (B.debts.map fun e => e.2.index).Nodup
  since : ∀ e ∈ B.debts, first ≤ e.2.index
  pending : ∀ i, first ≤ i → (B.states[i]? = some .pending ↔ ∃ e ∈ B.debts, e.2.index = i)
  main_since : first ≤ main.index ∧ main.index < B.states.size
  main_kept : ∀ message, B.states[main.index]? ≠ some (.rejected message)

structure Since (B B' : Books) : Prop where
  next : ∀ role, B.next role ≤ B'.next role
  kept : ∀ (i : Nat) (s : Promise.State), B.states[i]? = some s → s ≠ .pending →
    B'.states[i]? = some s
  paid : ∀ e ∈ B.debts, e ∈ B'.debts ∨ ∃ s, B'.states[e.2.index]? = some s ∧ s ≠ .pending
  old : ∀ e ∈ B'.debts, e.1.id < B.next e.1.role → e ∈ B.debts

variable {first : Nat} {main : PromiseRef} {B B' B'' : Books}

theorem Since.refl (B : Books) : B.Since B :=
  ⟨fun _ => Nat.le_refl _, fun _ _ h _ => h, fun _ h => .inl h, fun _ h _ => h⟩

theorem Since.trans (h : B.Since B') (h' : B'.Since B'') : B.Since B'' where
  next role := Nat.le_trans (h.next role) (h'.next role)
  kept i s hs hne := h'.kept i s (h.kept i s hs hne) hne
  paid e he := by
    rcases h.paid e he with he | ⟨s, hs, hne⟩
    · exact h'.paid e he
    · exact .inr ⟨s, h'.kept _ s hs hne, hne⟩
  old e he hlt := h.old e (h'.old e he (Nat.lt_of_lt_of_le hlt (h.next _))) hlt

namespace Balanced

theorem pending_of_mem (hB : B.Balanced first main) {e : Owner × PromiseRef} (he : e ∈ B.debts) :
    B.states[e.2.index]? = some .pending :=
  (hB.pending e.2.index (hB.since e he)).mpr ⟨e, he, rfl⟩

theorem index_lt (hB : B.Balanced first main) {e : Owner × PromiseRef} (he : e ∈ B.debts) :
    e.2.index < B.states.size :=
  (Array.getElem?_eq_some_iff.mp (hB.pending_of_mem he)).1

theorem perm (hB : B.Balanced first main) {debts : List (Owner × PromiseRef)}
    (hperm : B.debts.Perm debts) : Balanced first main { B with debts := debts } where
  owners := (hperm.map _).nodup_iff.mp hB.owners
  fresh e he := hB.fresh e (hperm.mem_iff.mpr he)
  promises := (hperm.map _).nodup_iff.mp hB.promises
  since e he := hB.since e (hperm.mem_iff.mpr he)
  pending i hi := by
    rw [hB.pending i hi]
    exact exists_congr fun e => and_congr_left fun _ => hperm.mem_iff
  main_since := hB.main_since
  main_kept := hB.main_kept

/-- A new promise is not the one of the main task. -/
theorem main_push (hB : B.Balanced first main) (s : Promise.State) :
    (first ≤ main.index ∧ main.index < (B.states.push s).size) ∧
      ∀ message, (B.states.push s)[main.index]? ≠ some (.rejected message) := by
  obtain ⟨hfirst, hlt⟩ := hB.main_since
  rw [Array.size_push, Array.getElem?_push, if_neg (Nat.ne_of_lt hlt)]
  exact ⟨⟨hfirst, Nat.lt_succ_of_lt hlt⟩, hB.main_kept⟩

theorem resolves (hB : B.Balanced first main) (v : Value) :
    Balanced first main { B with states := B.states.push (.resolved v) } where
  owners := hB.owners
  fresh := hB.fresh
  promises := hB.promises
  since := hB.since
  pending i hi := by
    by_cases hsize : i = B.states.size
    · subst hsize
      -- the new promise is not pending, and nobody owes it
      refine ⟨fun h => ?_, fun ⟨e, he, hindex⟩ => ?_⟩
      · rw [Array.getElem?_push_size] at h
        cases h
      · have hlt := hB.index_lt he
        omega
    · show (B.states.push _)[i]? = _ ↔ _
      rw [Array.getElem?_push, if_neg hsize]
      exact hB.pending i hi
  main_since := (hB.main_push _).1
  main_kept := (hB.main_push _).2

theorem owes (hB : B.Balanced first main) (role : Role) : Balanced first main
    { states := B.states.push .pending
      debts := (⟨role, B.next role⟩, ⟨B.states.size⟩) :: B.debts
      next := Function.update B.next role (B.next role + 1) } where
  owners := by
    refine nodup_cons.mpr ⟨fun hmem => ?_, hB.owners⟩
    obtain ⟨e, he, howner⟩ := mem_map.mp hmem
    have hlt := hB.fresh e he
    rw [howner] at hlt
    exact absurd hlt (Nat.lt_irrefl _)
  fresh e he := by
    rcases mem_cons.mp he with rfl | he
    · simp
    · have hlt := hB.fresh e he
      show e.1.id < Function.update B.next role (B.next role + 1) e.1.role
      by_cases hrole : e.1.role = role
      · rw [hrole, Function.update_self, ← hrole]
        exact Nat.lt_succ_of_lt hlt
      · rw [Function.update_of_ne hrole]
        exact hlt
  promises := by
    refine nodup_cons.mpr ⟨fun hmem => ?_, hB.promises⟩
    obtain ⟨e, he, hindex⟩ := mem_map.mp hmem
    have hlt := hB.index_lt he
    exact absurd hindex (Nat.ne_of_lt hlt)
  since e he := by
    rcases mem_cons.mp he with rfl | he
    · have hmain := hB.main_since
      exact Nat.le_of_lt (Nat.lt_of_le_of_lt hmain.1 hmain.2)
    · exact hB.since e he
  pending i hi := by
    by_cases hsize : i = B.states.size
    · subst hsize
      refine iff_of_true ?_ ⟨_, mem_cons_self, rfl⟩
      exact Array.getElem?_push_size
    · show (B.states.push _)[i]? = _ ↔ _
      rw [Array.getElem?_push, if_neg hsize, hB.pending i hi, exists_mem_cons_iff,
        or_iff_right (Ne.symm hsize)]
  main_since := (hB.main_push _).1
  main_kept := (hB.main_push _).2

theorem pays (hB : B.Balanced first main) {owner : Owner} {p : PromiseRef}
    {debts : List (Owner × PromiseRef)} {outcome : Except String Value}
    (hperm : B.debts.Perm ((owner, p) :: debts)) (hmain : p = main → ∃ v, outcome = .ok v) :
    Balanced first main
      { B with states := B.states.modify p.index (·.settle outcome), debts := debts } := by
  have hB' := hB.perm hperm
  have hpaid : ∀ e ∈ debts, e.2.index ≠ p.index := by
    intro e he heq
    exact (nodup_cons.mp hB'.promises).1 (mem_map.mpr ⟨e, he, heq⟩)
  refine ⟨(nodup_cons.mp hB'.owners).2, fun e he => hB'.fresh e (mem_cons_of_mem _ he),
    (nodup_cons.mp hB'.promises).2, fun e he => hB'.since e (mem_cons_of_mem _ he),
    fun i hi => ?_, ?_, fun message => ?_⟩
  · show (B.states.modify _ _)[i]? = _ ↔ _
    rw [Array.getElem?_modify]
    by_cases hp : p.index = i
    · rw [if_pos hp]
      refine iff_of_false (fun hpending => ?_) fun ⟨e, he, hindex⟩ =>
        hpaid e he (hindex.trans hp.symm)
      obtain ⟨s, _, hs⟩ := Option.map_eq_some_iff.mp hpending
      exact s.settle_ne_pending outcome hs
    · rw [if_neg hp, hB'.pending i hi, exists_mem_cons_iff, or_iff_right hp]
  · rw [Array.size_modify]
    exact hB.main_since
  · show (B.states.modify _ _)[main.index]? ≠ _
    rw [Array.getElem?_modify]
    by_cases hp : p.index = main.index
    · -- the promise of the main task is kept, since it is pending
      obtain ⟨v, rfl⟩ := hmain (by cases p; cases main; cases hp; rfl)
      have hpending := hB'.pending_of_mem mem_cons_self
      rw [if_pos hp, ← hp, hpending]
      nofun
    · rw [if_neg hp]
      exact hB.main_kept message

end Balanced

theorem Step.balanced (hB : B.Balanced first main) (h : B.Step main B') :
    B'.Balanced first main := by
  cases h with
  | moves hperm => exact hB.perm hperm
  | resolves v => exact hB.resolves v
  | owes role => exact hB.owes role
  | pays hperm hmain => exact hB.pays hperm hmain

/-- Promises that are added do not change the others. -/
theorem Step.since (hB : B.Balanced first main) (h : B.Step main B') : B.Since B' := by
  cases h with
  | moves hperm =>
    exact ⟨fun _ => Nat.le_refl _, fun _ _ hs _ => hs, fun e he => .inl (hperm.mem_iff.mp he),
      fun e he _ => hperm.mem_iff.mpr he⟩
  | resolves v =>
    exact ⟨fun _ => Nat.le_refl _, later_push _ _, fun e he => .inl he, fun e he _ => he⟩
  | owes role =>
    refine ⟨fun role' => ?_, later_push _ _, fun e he => .inl (mem_cons_of_mem _ he),
      fun e he hlt => ?_⟩
    · show B.next role' ≤ Function.update B.next role (B.next role + 1) role'
      by_cases hrole : role' = role
      · subst hrole
        rw [Function.update_self]
        exact Nat.le_succ _
      · exact Nat.le_of_eq (Function.update_of_ne hrole _ _).symm
    · -- the new owner has a number that was free
      rcases mem_cons.mp he with rfl | he
      · exact absurd hlt (Nat.lt_irrefl _)
      · exact he
  | @pays owner p debts outcome hperm _ =>
    refine ⟨fun _ => Nat.le_refl _, later_settle _ _ _, fun e he => ?_,
      fun e he _ => hperm.mem_iff.mpr (mem_cons_of_mem _ he)⟩
    rcases mem_cons.mp (hperm.mem_iff.mp he) with rfl | he'
    · refine .inr ⟨Promise.State.settle .pending outcome, ?_, Promise.State.settle_ne_pending _ _⟩
      show (B.states.modify _ _)[p.index]? = _
      rw [Array.getElem?_modify, if_pos rfl, hB.pending_of_mem he]
      rfl
    · exact .inl he'

/-- What a step preserves, many steps preserve. -/
theorem balanced_of_steps (hB : B.Balanced first main)
    (h : Relation.ReflTransGen (Step main) B B') : B'.Balanced first main ∧ B.Since B' := by
  induction h with
  | refl => exact ⟨hB, .refl B⟩
  | tail _ hstep ih => exact ⟨hstep.balanced ih.1, ih.2.trans (hstep.since ih.1)⟩

theorem step_of_perm (hstates : B'.states = B.states) (hnext : B'.next = B.next)
    (hperm : B.debts.Perm B'.debts) : B.Step main B' := by
  obtain ⟨states, debts, next⟩ := B'
  cases hstates
  cases hnext
  exact .moves hperm

end Books

/-! ### The books of a program -/

def Task.debt (t : Task) : Owner × PromiseRef :=
  (⟨.task, t.id⟩, t.promise)

def Native.debt (n : Native) : Owner × PromiseRef :=
  (⟨.native, n.id⟩, n.promise)

namespace Scheduler

def debts (s : Scheduler) : List (Owner × PromiseRef) :=
  (s.ready ++ s.waiting).map Task.debt ++ s.natives.map Native.debt

def next (s : Scheduler) : Role → Nat
  | .task => s.nextTask
  | .native => s.nextNative

variable (s : Scheduler)

theorem debts_spawn (r : FunctionRef) (args : List Value) (p : PromiseRef) :
    (s.spawn r args p).debts.Perm ((⟨.task, s.nextTask⟩, p) :: s.debts) := by
  have hready : (s.spawn r args p).ready ++ (s.spawn r args p).waiting =
      s.ready ++ Task.start s.nextTask r args p :: s.waiting := by
    rw [spawn, append_assoc, singleton_append]
  rw [debts, hready]
  exact (perm_middle.map Task.debt).append_right _

theorem debts_register (work : Work) (p : PromiseRef) :
    (s.register work p).debts.Perm ((⟨.native, s.nextNative⟩, p) :: s.debts) := by
  have hnatives : (s.register work p).natives.map Native.debt =
      s.natives.map Native.debt ++ [(⟨.native, s.nextNative⟩, p)] := map_append
  rw [debts, hnatives, ← append_assoc]
  exact List.perm_append_singleton _ _

/-- The tasks that are left are those there were, and the one taken back. -/
theorem perm_park (h : Heap) (t : Task) :
    ((s.park h t).ready ++ (s.park h t).waiting).Perm (t :: (s.ready ++ s.waiting)) := by
  rw [park]
  split
  · show ((s.ready ++ [t]) ++ s.waiting).Perm _
    rw [append_assoc, singleton_append]
    exact perm_middle
  · show (s.ready ++ (s.waiting ++ [t])).Perm _
    rw [← append_assoc]
    exact List.perm_append_singleton t _

theorem perm_wake (h : Heap) :
    ((s.wake h).ready ++ (s.wake h).waiting).Perm (s.ready ++ s.waiting) := by
  rw [wake, partition_eq_filter_filter, append_assoc]
  exact (List.filter_append_perm _ _).append_left _

theorem natives_park (h : Heap) (t : Task) : (s.park h t).natives = s.natives := by
  rw [park]
  split <;> rfl

theorem debts_park (h : Heap) (t : Task) : (s.park h t).debts.Perm (t.debt :: s.debts) := by
  rw [debts, s.natives_park]
  exact ((s.perm_park h t).map Task.debt).append_right _

theorem debts_wake (h : Heap) : (s.wake h).debts.Perm s.debts :=
  ((s.perm_wake h).map Task.debt).append_right _

theorem next_park (h : Heap) (t : Task) : (s.park h t).next = s.next := by
  rw [park]
  split <;> rfl

theorem debts_remove (hs : (s.natives.map Native.id).Nodup) {n : Native} (hn : n ∈ s.natives) :
    s.debts.Perm (n.debt :: (s.remove n.id).debts) := by
  have hnatives : s.natives.Perm (n :: s.natives.filter (·.id != n.id)) := by
    obtain ⟨as, bs, has⟩ := List.append_of_mem hn
    rw [has] at hs ⊢
    rw [map_append, map_cons, List.nodup_middle, nodup_cons, ← map_append] at hs
    -- the others have other numbers
    have hothers : ∀ m ∈ as ++ bs, (m.id != n.id) = true := by
      intro m hm
      refine bne_iff_ne.mpr fun heq => hs.1 ?_
      exact heq ▸ mem_map_of_mem hm
    have hself : (n.id != n.id) = false := by simp
    rw [List.filter_append, List.filter_cons, hself,
      if_neg Bool.false_ne_true, ← List.filter_append, List.filter_eq_self.mpr hothers]
    exact perm_middle
  refine ((hnatives.map Native.debt).append_left _).trans ?_
  exact perm_middle

theorem Similar.debts {s s' : Scheduler} (h : s.Similar s') : s'.debts = s.debts := by
  have hnatives : s'.natives.map Native.debt = s.natives.map Native.debt := by
    have hmap := congrArg (List.map fun q : Nat × PromiseRef => ((⟨.native, q.1⟩, q.2) : Owner × _))
      h.natives
    rw [map_map, map_map] at hmap
    exact hmap
  rw [Scheduler.debts, Scheduler.debts, h.ready, h.waiting, hnatives]

theorem Similar.next {s s' : Scheduler} (h : s.Similar s') : s'.next = s.next := by
  funext role
  cases role with
  | task => exact h.nextTask
  | native => exact h.nextNative

/-- Native work that owes promises as owners do has numbers of its own. -/
theorem nodup_natives {s : Scheduler} (hs : (s.debts.map Prod.fst).Nodup) :
    (s.natives.map Native.id).Nodup := by
  rw [debts, map_append, map_map] at hs
  have hright := (nodup_append.mp hs).2.1
  refine List.Nodup.of_map (Owner.mk .native) ?_
  rw [map_map] at hright ⊢
  exact hright

end Scheduler

/-- The books of a program: its tasks and its native work owe promises. -/
def Run.books (h : Heap) (run : Run) : Books :=
  { states := h.promises.map Promise.state
    debts := run.current.toList.map Task.debt ++ run.scheduler.debts
    next := run.scheduler.next }

def Ledger.books (L : Ledger) : Books :=
  { states := L.states
    debts := (⟨.task, L.id⟩, L.promise) :: L.scheduler.debts
    next := L.scheduler.next }

section

open Relation

variable {first : Nat} {main : PromiseRef} {h h' : Heap} {run run' : Run}

theorem next_spawn (s : Scheduler) (r : FunctionRef) (args : List Value) (p : PromiseRef) :
    (s.spawn r args p).next = Function.update s.next .task (s.next .task + 1) := by
  funext role
  cases role <;> rfl

theorem next_register (s : Scheduler) (work : Work) (p : PromiseRef) :
    (s.register work p).next = Function.update s.next .native (s.next .native + 1) := by
  funext role
  cases role <;> rfl

theorem Ledger.Entry.steps {L L' : Ledger} (he : L.Entry L') :
    ReflTransGen (Books.Step main) L.books L'.books := by
  cases he with
  | nothing => exact .refl
  | resolved v => exact .single (.resolves v)
  | spawned r args =>
    refine .tail (.single (.owes .task)) (Books.step_of_perm rfl (next_spawn ..) ?_)
    exact (List.Perm.swap _ _ _).trans ((L.scheduler.debts_spawn r args _).symm.cons _)
  | registered ms =>
    refine .tail (.single (.owes .native)) (Books.step_of_perm rfl (next_register ..) ?_)
    exact (List.Perm.swap _ _ _).trans ((L.scheduler.debts_register (.sleep ms) _).symm.cons _)

theorem states_settle (h : Heap) (p : PromiseRef) (outcome : Except String Value) :
    (h.modifyPromise p (·.settle outcome)).promises.map Promise.state =
      (h.promises.map Promise.state).modify p.index (·.settle outcome) := by
  refine Array.ext_getElem? fun i => ?_
  rw [Array.getElem?_map, Array.getElem?_modify, Heap.modifyPromise, Array.getElem?_modify,
    Array.getElem?_map]
  split
  · rw [Option.map_map, Option.map_map]
    congr 1
    funext q
    exact q.state_settle outcome
  · rfl

theorem Acted.steps {t : Task} {m : Machine} (ha : Acted h run t m) :
    ReflTransGen (Books.Step main) (run.books h) m.ledger.books := by
  obtain ⟨modules, hentry⟩ := ha.entry
  have hbooks : run.books h = (t.ledger h modules run).books := by
    rw [Run.books, ha.current]
    rfl
  rw [hbooks]
  exact hentry.steps

theorem Turn.steps (hB : (run.books h).Balanced first run.main) (ht : Turn h run h' run')
    (hending : run'.ending = none) :
    ReflTransGen (Books.Step run.main) (run.books h) (run'.books h') := by
  cases ht with
  | @picks t ready hcurrent hready =>
    refine .single (Books.step_of_perm rfl rfl (.of_eq ?_))
    rw [Run.books, Run.books, hcurrent, Scheduler.debts, hready]
    rfl
  | @parks t hcurrent _ =>
    refine .single (Books.step_of_perm rfl (Scheduler.next_park _ h t) ?_)
    rw [Run.books, hcurrent]
    exact ((Scheduler.debts_wake _ h).trans (Scheduler.debts_park _ h t)).symm
  | @goes t m t' ha hid hpromise =>
    have hbooks : (run.after m (some t')).books m.heap = m.ledger.books := by
      rw [Run.books, Ledger.books]
      show ({ states := _, debts := [t'.debt] ++ _, next := _ } : Books) = _
      rw [Task.debt, hid, hpromise]
      rfl
    rw [hbooks]
    exact ha.steps
  | @suspends t m ha =>
    refine ha.steps.tail (Books.step_of_perm rfl (Scheduler.next_park _ m.heap m.task) ?_)
    exact ((Scheduler.debts_wake _ _).trans (Scheduler.debts_park _ _ m.task)).symm
  | @settles t m outcome _ ha hmain heq =>
    subst heq
    refine (ha.steps.tail (.pays (.refl _) hmain)).tail (Books.step_of_perm ?_ rfl ?_)
    · exact states_settle m.heap m.task.promise outcome
    · exact (Scheduler.debts_wake _ _).symm
  | stops => cases hending
  | @looks run' hcurrent _ hsimilar =>
    refine .single (Books.step_of_perm rfl hsimilar.scheduler.next (.of_eq ?_))
    rw [Run.books, Run.books, hsimilar.current, hsimilar.scheduler.debts]
  | @completes run' n _ hcurrent _ hsimilar hn heq =>
    subst heq
    have hbooks : run'.books h = run.books h := by
      rw [Run.books, Run.books, hsimilar.current, hsimilar.scheduler.debts, hsimilar.scheduler.next]
    have hdebts : (run'.books h).debts = run'.scheduler.debts := by
      rw [Run.books, hsimilar.current, hcurrent]
      rfl
    have hids : (run'.scheduler.natives.map Native.id).Nodup := by
      refine Scheduler.nodup_natives ?_
      rw [← hdebts, hbooks]
      exact hB.owners
    have hremove := Scheduler.debts_remove run'.scheduler hids hn
    rw [← hdebts] at hremove
    rw [← hbooks]
    have hpays : Books.Step run.main (run'.books h) _ := .pays hremove fun _ => ⟨.absent, rfl⟩
    refine (ReflTransGen.single hpays).tail (Books.step_of_perm ?_ rfl ?_)
    · exact states_settle h n.promise _
    · rw [Run.books, hsimilar.current, hcurrent]
      exact (Scheduler.debts_wake _ _).symm

end

end TaskBasic
