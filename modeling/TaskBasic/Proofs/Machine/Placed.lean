import TaskBasic.Proofs.World.Fine

/-
Where the frames of tasks stand.

`Task.Placed` says that every frame of a task is about to take an instruction of
its function, and that the handlers of `try` regions are instructions too.
`placed_lasting` says that this holds of all tasks, always, if the functions
have sound chunks.
-/

namespace TaskBasic

open List

def Function.IsSound (g : Function) : Prop :=
  ∃ listing, g.chunk.Sound listing

/-- The frame would find an instruction at the offset `ip`. -/
def Frame.FindsAt (fs : Array Function) (f : Frame) (ip : Nat) : Prop :=
  ∃ g listing i, fs[f.function.index]? = some g ∧ g.chunk.Sound listing ∧ (ip, i) ∈ listing

/-- The `try` region belongs to one of the frames, whose function has its handler. -/
def TryBlock.Placed (fs : Array Function) (frames : List Frame) (b : TryBlock) : Prop :=
  b.frameDepth ≤ frames.length ∧
    ∃ f rest, frames.drop (frames.length - b.frameDepth) = f :: rest ∧ f.FindsAt fs b.handler

/-- The `try` regions belong to frames, the inner ones to inner frames. -/
structure TriesPlaced (fs : Array Function) (frames : List Frame) (tries : List TryBlock) :
    Prop where
  each : ∀ b ∈ tries, b.Placed fs frames
  ordered : tries.Pairwise fun b c => c.frameDepth ≤ b.frameDepth

/-- All frames are about to take an instruction, and all handlers are instructions. -/
structure Task.Placed (fs : Array Function) (t : Task) : Prop where
  active : t.frames ≠ []
  frames : ∀ f ∈ t.frames, f.FindsAt fs f.ip
  tries : TriesPlaced fs t.frames t.tries

section

variable {fs : Array Function} {f : Frame} {F : List Frame} {R : List TryBlock} {b : TryBlock}

theorem Frame.FindsAt.more {ip : Nat} (h : f.FindsAt fs ip) (new : Array Function) :
    f.FindsAt (fs ++ new) ip := by
  obtain ⟨g, listing, i, hg, hsound, hi⟩ := h
  refine ⟨g, listing, i, ?_, hsound, hi⟩
  obtain ⟨hlt, hget⟩ := Array.getElem?_eq_some_iff.mp hg
  rw [Array.getElem?_append_left hlt, hg]

/-- The offset of the innermost frame does not matter for regions. -/
theorem TryBlock.Placed.withIp (h : b.Placed fs (f :: F)) (y : Nat) :
    b.Placed fs ({ f with ip := y } :: F) := by
  obtain ⟨hle, g, rest, hdrop, hfinds⟩ := h
  refine ⟨hle, ?_⟩
  cases hk : (f :: F).length - b.frameDepth with
  | zero =>
    rw [hk] at hdrop
    cases hdrop
    exact ⟨_, _, rfl, hfinds⟩
  | succ k =>
    rw [hk] at hdrop
    exact ⟨g, rest, hdrop, hfinds⟩

theorem TryBlock.Placed.enter (h : b.Placed fs F) (f : Frame) : b.Placed fs (f :: F) := by
  obtain ⟨hle, g, rest, hdrop, hfinds⟩ := h
  refine ⟨Nat.le_succ_of_le hle, g, rest, ?_, hfinds⟩
  rw [length_cons, Nat.succ_sub hle, drop_succ_cons]
  exact hdrop

theorem TryBlock.Placed.leave (h : b.Placed fs (f :: F)) (hle : b.frameDepth ≤ F.length) :
    b.Placed fs F := by
  obtain ⟨_, g, rest, hdrop, hfinds⟩ := h
  rw [length_cons, Nat.succ_sub hle, drop_succ_cons] at hdrop
  exact ⟨hle, g, rest, hdrop, hfinds⟩

namespace TriesPlaced

theorem withIp (h : TriesPlaced fs (f :: F) R) (y : Nat) :
    TriesPlaced fs ({ f with ip := y } :: F) R :=
  ⟨fun b hb => (h.each b hb).withIp y, h.ordered⟩

theorem enter (h : TriesPlaced fs F R) (f : Frame) : TriesPlaced fs (f :: F) R :=
  ⟨fun b hb => (h.each b hb).enter f, h.ordered⟩

theorem leave (h : TriesPlaced fs (f :: F) R) :
    TriesPlaced fs F (R.filter fun b => decide (b.frameDepth ≤ F.length)) := by
  refine ⟨fun b hb => ?_, h.ordered.filter _⟩
  obtain ⟨hb, hle⟩ := mem_filter.mp hb
  exact (h.each b hb).leave (of_decide_eq_true hle)

theorem opens (h : TriesPlaced fs (f :: F) R) {handler depth : Nat}
    (hf : f.FindsAt fs handler) :
    TriesPlaced fs (f :: F) (⟨handler, depth, F.length + 1⟩ :: R) := by
  refine ⟨fun b hb => ?_, ?_⟩
  · rcases mem_cons.mp hb with rfl | hb
    · exact ⟨Nat.le_refl _, f, F, by simp, hf⟩
    · exact h.each b hb
  · exact pairwise_cons.mpr ⟨fun b hb => (h.each b hb).1, h.ordered⟩

theorem closes (h : TriesPlaced fs F R) : TriesPlaced fs F (R.drop 1) :=
  ⟨fun b hb => h.each b (List.mem_of_mem_drop hb), h.ordered.drop⟩

end TriesPlaced

theorem Frame.FindsAt.decode {i : Instr} {next : Nat} (h : f.FindsAt fs f.ip)
    (hd : decode (fs[f.function.index]?.getD default).chunk.code f.ip = .ok (i, next)) :
    (∀ y, i.Leads next y → f.FindsAt fs y) ∧ ∀ y ∈ i.targets next, f.FindsAt fs y := by
  obtain ⟨g, listing, j, hg, hsound, hj⟩ := h
  rw [hg, Option.getD_some] at hd
  obtain ⟨next', hd'⟩ := hsound.reads.decode hj
  rw [hd] at hd'
  cases hd'
  have hnext := decode_next hd
  have htargets : ∀ y ∈ i.targets next, f.FindsAt fs y := by
    intro y hy
    rw [hnext] at hy
    obtain ⟨k, hk⟩ := hsound.targets _ _ hj y hy
    exact ⟨g, listing, k, hg, hsound, hk⟩
  refine ⟨fun y hy => ?_, htargets⟩
  rcases hy with ⟨hfalls, rfl⟩ | hy
  · obtain ⟨k, hk⟩ := hsound.falls _ _ hj hfalls
    exact ⟨g, listing, k, hg, hsound, hnext ▸ hk⟩
  · exact htargets y hy

theorem findsAt_entry (hsound : ∀ g ∈ fs, g.IsSound) {r : FunctionRef} (hr : r.index < fs.size)
    (base : Nat) : (⟨r, 0, base⟩ : Frame).FindsAt fs 0 := by
  obtain ⟨listing, hl⟩ := hsound fs[r.index] (Array.getElem_mem hr)
  obtain ⟨i, hi⟩ := hl.first
  exact ⟨_, listing, i, Array.getElem?_eq_getElem hr, hl, hi⟩

/-- An instruction leaves frames at instructions, unless it ends the task. -/
theorem Moves.placed (hsound : ∀ g ∈ fs, g.IsSound) {i : Instr} {next : Nat} {flow : Flow}
    {F' : List Frame} {R' : List TryBlock}
    (hd : decode (fs[f.function.index]?.getD default).chunk.code f.ip = .ok (i, next))
    (hframes : ∀ g ∈ f :: F, g.FindsAt fs g.ip) (htries : TriesPlaced fs (f :: F) R)
    (h : Moves fs.size i ({ f with ip := next } :: F) R flow F' R')
    (hflow : ∀ v, flow ≠ .finished v) :
    F' ≠ [] ∧ (∀ g ∈ F', g.FindsAt fs g.ip) ∧ TriesPlaced fs F' R' := by
  have hf := hframes f (mem_cons_self ..)
  have hF : ∀ g ∈ F, g.FindsAt fs g.ip := fun g hg => hframes g (mem_cons_of_mem _ hg)
  obtain ⟨hleads, htargets⟩ := hf.decode hd
  have hat : ∀ y, f.FindsAt fs y → ∀ g ∈ { f with ip := y } :: F, g.FindsAt fs g.ip := by
    intro y hy g hg
    rcases mem_cons.mp hg with rfl | hg
    · exact hy
    · exact hF g hg
  cases h with
  | on hy _ => exact ⟨cons_ne_nil _ _, hat _ (hleads _ hy), htries.withIp _⟩
  | opens hi =>
    subst hi
    refine ⟨cons_ne_nil _ _, hat next (hleads _ (.inl ⟨rfl, rfl⟩)), ?_⟩
    exact (htries.withIp next).opens (htargets _ (mem_singleton.mpr rfl))
  | closes hi =>
    subst hi
    exact ⟨cons_ne_nil _ _, hat next (hleads _ (.inl ⟨rfl, rfl⟩)), (htries.withIp next).closes⟩
  | enters hfalls hr =>
    refine ⟨cons_ne_nil _ _, fun g hg => ?_, (htries.withIp next).enter _⟩
    rcases mem_cons.mp hg with rfl | hg
    · exact findsAt_entry hsound hr _
    · exact hat next (hleads _ (.inl ⟨hfalls, rfl⟩)) g hg
  | returns hne => exact ⟨hne, hF, htries.leave⟩
  | ends _ => exact absurd rfl (hflow _)

/-- The regions around a handler belong to the frames that are left. -/
theorem TryBlock.Placed.cut {c : TryBlock} {g : Frame} {rest : List Frame} {depth : Nat}
    (hdepth : depth ≤ F.length) (hdrop : F.drop (F.length - depth) = g :: rest)
    (h : c.Placed fs F) (hle : c.frameDepth ≤ depth) : c.Placed fs (g :: rest) := by
  obtain ⟨_, g', rest', hdrop', hfinds⟩ := h
  have hlength : (g :: rest).length = depth := by
    rw [← hdrop, length_drop]
    omega
  refine ⟨hlength ▸ hle, g', rest', ?_, hfinds⟩
  rw [hlength, ← hdrop, List.drop_drop, ← hdrop']
  congr 1
  omega

/-- The task goes on in a handler. -/
theorem TriesPlaced.recover {t t' : Task} {message : String} (hF : ∀ g ∈ F, g.FindsAt fs g.ip)
    (htries : TriesPlaced fs (f :: F) t.tries) (hframes : t.frames = f :: F)
    (h : t.recover? message = some t') : t'.Placed fs := by
  rw [Task.recover?] at h
  split at h
  next => cases h
  next b tries hb =>
    rw [hb] at htries
    obtain ⟨hle, g, rest, hdrop, hfinds⟩ := htries.each b (mem_cons_self ..)
    rw [hframes, hdrop] at h
    cases h
    refine ⟨cons_ne_nil _ _, fun g' hg' => ?_, ⟨fun c hc => ?_, ?_⟩⟩
    · rcases mem_cons.mp hg' with rfl | hg'
      · exact hfinds
      · have htail : rest = F.drop ((f :: F).length - b.frameDepth) := by
          have h := congrArg List.tail hdrop
          rw [List.tail_drop, drop_succ_cons, List.tail_cons] at h
          exact h.symm
        rw [htail] at hg'
        exact hF g' (List.mem_of_mem_drop hg')
    · have hc' := List.rel_of_pairwise_cons htries.ordered hc
      exact ((htries.each c (mem_cons_of_mem _ hc)).cut hle hdrop hc').withIp _
    · exact htries.ordered.of_cons

theorem placed_starts (hsound : ∀ g ∈ fs, g.IsSound) : Starts fs (Task.Placed fs) := by
  intro id r args p hr _ _
  refine ⟨cons_ne_nil _ _, fun f hf => ?_, nofun, .nil⟩
  rw [mem_singleton.mp hf]
  exact findsAt_entry hsound hr 1

theorem placed_lasting : Lasting Function.IsSound Task.Placed where
  more new h :=
    ⟨h.active, fun f hf => (h.frames f hf).more new,
      ⟨fun b hb => let ⟨hle, f, rest, hdrop, hfinds⟩ := h.tries.each b hb
        ⟨hle, f, rest, hdrop, hfinds.more new⟩, h.tries.ordered⟩⟩
  start hsound _ := placed_starts hsound
  step {fs env m flow m'} hsound hknown hm ht hrun hflow := by
    cases hframes : m.task.frames with
    | nil => exact absurd hframes ht.active
    | cons f F =>
      obtain ⟨_, hF, hR⟩ := ht
      rw [hframes] at hF hR
      have hmoves := Exec.taskAction_moves hknown (placed_starts hsound).fine env ⟨hm, hframes, rfl⟩
      rw [hrun] at hmoves
      have hplaced : ∃ F' R', (F' ≠ [] ∧ (∀ g ∈ F', g.FindsAt fs g.ip) ∧ TriesPlaced fs F' R') ∧
          m'.task.frames = F' ∧ m'.task.tries = R' := by
        rcases hmoves with ⟨_, _, hm'⟩ | ⟨_, i, next, hd, F', R', hmoves, hm'⟩
        · exact ⟨_, _, ⟨cons_ne_nil _ _, hF, hR⟩, hm'.frames, hm'.tries⟩
        · exact ⟨F', R', hmoves.placed hsound hd hF hR hflow, hm'.frames, hm'.tries⟩
      obtain ⟨_, _, ⟨hne, hall, htries⟩, rfl, rfl⟩ := hplaced
      exact ⟨hne, hall, htries⟩
  recover {fs env m cause m' message t} hsound hknown hm ht hrun hrec := by
    cases hframes : m.task.frames with
    | nil => exact absurd hframes ht.active
    | cons f F =>
      obtain ⟨_, hF, hR⟩ := ht
      rw [hframes] at hF hR
      have hmoves := Exec.taskAction_moves hknown (placed_starts hsound).fine env ⟨hm, hframes, rfl⟩
      rw [hrun] at hmoves
      obtain ⟨ip, hm'⟩ := hmoves
      have hR' := hR.withIp ip
      rw [← hm'.tries] at hR'
      exact hR'.recover (fun g hg => hF g (mem_cons_of_mem _ hg)) hm'.frames hrec

end

end TaskBasic
