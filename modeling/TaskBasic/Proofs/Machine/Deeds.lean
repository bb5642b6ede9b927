import TaskBasic.Proofs.Code.Pieces
import TaskBasic.Proofs.Machine.Awaits
import TaskBasic.Proofs.Machine.Control

/-
What tasks do to the ledger.

* `taskAction_records`, `taskAction_deeds` — what a task does next makes at most
  one entry in the ledger, or is an import that begins to wait or to load.
-/

namespace TaskBasic

/-- A computation has changed the ledger `L` as `R` says, and has not failed because something
awaited is pending. -/
def Recorded {α : Type} (R : Ledger → Ledger → Prop) (L : Ledger) :
    EStateM.Result Fault Machine α → Prop
  | .ok _ m => R L m.ledger
  | .error fault m => R L m.ledger ∧ fault ≠ .failure .stillPending

namespace Exec

variable {m m' : Machine}

theorem decode_error {code : Array UInt8} {ip : Nat} {cause : Failure}
    (h : decode code ip = .error cause) : cause ≠ .stillPending := by
  rw [decode] at h
  split at h
  · cases h
    rintro ⟨⟩
  · split at h
    · cases h
      rintro ⟨⟩
    · split at h
      · cases h
        rintro ⟨⟩
      · cases h

/-- The next action of a task that can go on does what its next instruction may do. -/
theorem taskAction_recorded {R : Ledger → Ledger → Prop} (env : Env) (hrefl : ∀ L, R L L)
    (hm : m.task.canResume m.heap = true)
    (hfetch : m.task.awaiting = false → ∀ i m', fetch.run m = .ok i m' →
      ∀ L L', i.mode.Allows L L' → R L L') :
    Recorded R m.ledger ((World.taskAction env m.task).run m) := by
  obtain ⟨n, hsound⟩ := m.exists_sound
  rw [World.taskAction]
  cases hawaiting : m.task.awaiting with
  | true =>
    have htop : ∀ v, m.task.stack.back? = some v → m.heap.isReady v = true := by
      intro v hv
      rw [Task.canResume, hawaiting, hv] at hm
      exact hm
    have hends :=
      (spec_finishAwait (s := ⟨⟨n, m.heap.functions⟩, m.task, m.ledger⟩) (k := 0)).ends m
      ⟨hsound, ⟨rfl, rfl, rfl⟩, rfl⟩
    rw [if_pos rfl, andNext, EStateM.run_bind]
    cases hrun : finishAwait.run m with
    | ok u m' =>
      rw [hrun] at hends
      have heq : m'.ledger = m.ledger := hends.1.ledger
      show R m.ledger m'.ledger
      rw [heq]
      exact hrefl _
    | error e m' =>
      rw [hrun] at hends
      have heq : m'.ledger = m.ledger := hends.1.ledger
      refine ⟨?_, ?_⟩
      · rw [heq]
        exact hrefl _
      · rintro rfl
        exact finishAwait_settled htop hrun
  | false =>
    rw [if_neg Bool.false_ne_true, step, EStateM.run_bind]
    cases hframes : m.task.frames with
    | nil =>
      have hrun : fetch.run m = .error (.failure .noFrame) m := by
        simp only [fetch, frame, EStateM.run_bind, EStateM.run_get, hframes, run_fail]
      rw [hrun]
      exact ⟨hrefl _, (by rintro ⟨⟩)⟩
    | cons f F =>
      have hrun := run_fetch hframes
      cases hd : decode (m.heap.function f.function).chunk.code f.ip with
      | error cause =>
        rw [hrun, hd]
        refine ⟨hrefl _, ?_⟩
        rintro ⟨⟩
        exact decode_error hd rfl
      | ok result =>
        obtain ⟨i, next⟩ := result
        rw [hd] at hrun
        have hi := hfetch hawaiting i _ hrun
        have hends := ends_execute (s := ⟨⟨n, m.heap.functions⟩,
          { m.task with frames := { f with ip := next } :: F }, m.ledger⟩) rfl env i
          (m := { m with task := { m.task with frames := { f with ip := next } :: F } })
          ⟨{ hsound with }, ⟨rfl, rfl, rfl⟩, rfl⟩
        rw [hrun]
        dsimp only
        generalize ({ m with task := _ } : Machine) = m1 at hends
        cases hexec : (execute env i).run m1 with
        | ok flow m' =>
          rw [hexec] at hends
          exact hi _ _ hends.1.ledger
        | error e m' =>
          rw [hexec] at hends
          refine ⟨hi _ _ hends.1.ledger, ?_⟩
          rintro rfl
          have hlate := hends.2.2.2 rfl
          cases i with
          | await => exact await_settled hexec
          | _ => cases hlate

theorem taskAction_records (env : Env) (hm : m.task.canResume m.heap = true)
    (hfetch : m.task.awaiting = false → ∀ i m', fetch.run m = .ok i m' → i.isImport = false) :
    Recorded Ledger.Entry m.ledger ((World.taskAction env m.task).run m) := by
  refine taskAction_recorded env (fun _ => .nothing) hm fun hawaiting i m' hrun L L' hL => ?_
  have hi := hfetch hawaiting i m' hrun
  cases i with
  | importModule index => cases hi
  | await =>
    rw [show L' = L from hL]
    exact .nothing
  | _ => exact hL

theorem taskAction_deeds (env : Env) (hm : m.task.canResume m.heap = true) :
    Recorded Ledger.Deed m.ledger ((World.taskAction env m.task).run m) := by
  refine taskAction_recorded env (fun _ => .enters .nothing) hm fun _ i _ _ L L' hL => ?_
  cases i with
  | importModule index => exact hL
  | await =>
    rw [show L' = L from hL]
    exact .enters .nothing
  | _ => exact .enters hL

end Exec

end TaskBasic
