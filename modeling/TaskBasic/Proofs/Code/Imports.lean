import TaskBasic.Proofs.Chunk.Sound

/-
Programs that import nothing.

`Program.ImportFree` says that no statement of a program is an `import`, at
whatever depth, and `Function.ImportFree` that a function's chunk is sound and
none of its instructions imports a module.

* `importFree_of_isRoutine` — the functions of such a program are such.
-/

namespace TaskBasic

open Compile Fragment

/-- No statement of the program is an `import`, at whatever depth. -/
def Program.ImportFree (p : Program) : Prop :=
  ∀ s ∈ blockNested true p, s.kind.isImport = false

instance (p : Program) : Decidable p.ImportFree :=
  inferInstanceAs (Decidable (∀ s ∈ blockNested true p, s.kind.isImport = false))

/-! ### Functions -/

/-- The function has a sound chunk, and none of its instructions imports a module. -/
def Function.ImportFree (f : Function) : Prop :=
  ∃ listing, f.chunk.Sound listing ∧ ∀ x i, (x, i) ∈ listing → i.isImport = false

theorem Fragment.importFree_listing {A : Exit → Prop} {F : Fragment} (hF : Only A True F)
    (o : Nat) : ∀ x i, (x, i) ∈ listing o F.toList → i.isImport = false := by
  intro x i hx
  obtain ⟨qs, p, rs, hF', hp, -⟩ := mem_listing hx
  have hstep := hF p (by rw [hF']; simp)
  rw [hp] at hstep
  exact hstep trivial

theorem importFree_of_chunk {f : Function} {W : Fragment} {pool : Array Value}
    {listing : List (Nat × Instr)} (hsound : f.chunk.Sound listing) (hf : f.chunk = W.chunk pool)
    (hW : Only (fun _ => False) True W) : f.ImportFree := by
  have hreads := hsound.reads
  rw [hf] at hreads
  rw [hreads.unique (reads_chunk hW.resolved pool)] at hsound
  exact ⟨_, hsound, importFree_listing hW 0⟩

theorem importFree_of_isRoutine {T : List Stmt → Prop} {f : Function}
    (h : f.IsRoutine T fun k => k.isImport = false) : f.ImportFree := by
  obtain ⟨ss, ms, hr, hkinds⟩ := h
  obtain ⟨listing, hsound⟩ := routine_sound hr
  have hkinds : ∀ s ∈ blockNested true ss, True → s.kind.isImport = false :=
    fun s hs _ => hkinds s hs
  have hclosing : ∀ line, Only (fun _ => False) True (closing line) := fun line => by
    simp [Only, closing]
  cases hr with
  | @function _ _ _ _ _ d first _ _ _ d2 _ hopen h _ =>
    have hfirst : Only (fun _ => False) True first := by
      rcases run_opening_ok hopen with ⟨_, _, _, rfl, _⟩ | ⟨_, _, _, rfl, _⟩ <;> simp
    refine importFree_of_chunk hsound rfl ?_
    simp only [only_append]
    exact ⟨⟨hfirst, h.only_body hkinds rfl⟩, hclosing _⟩
  | main h _ =>
    refine importFree_of_chunk hsound rfl ?_
    exact only_append.mpr ⟨h.only_body hkinds rfl, hclosing _⟩
  | interactive h hp _ =>
    refine importFree_of_chunk hsound rfl ?_
    simp only [only_append]
    exact ⟨⟨h.only_body hkinds rfl, hp.only⟩, (only_piece _ _).mpr fun _ => rfl⟩

end TaskBasic
