import TaskBasic.Proofs.Chunk.Listing
import TaskBasic.Proofs.Machine.Placed
import TaskBasic.Proofs.World.Reached

/-
Compiled code is well formed, and tasks never leave it.

The chunks of a compiled program are sound (`Chunk.Sound`) and are listed
instruction by instruction (`Chunk.Lists`); the compiler has put them together
(`Compile.Assembled`) and left no jump without a target; and whatever task takes
its next step finds an instruction there, with its constants (`Takes`).
-/

namespace TaskBasic

namespace Instr

def constantOperand? : Instr → Option UInt16
  | constant k | getGlobal k | setGlobal k | callNamed k _ | spawnNamed k _ | importModule k
  | debug k => some k
  | _ => none

/-- The constant that an instruction takes as a name. -/
def nameOperand? : Instr → Option UInt16
  | getGlobal k | setGlobal k | callNamed k _ | spawnNamed k _ | importModule k | debug k => some k
  | _ => none

variable {i : Instr} {pool : Array Value} {k : UInt16}

theorem Pooled.constant (h : i.Pooled pool) (hk : i.constantOperand? = some k) :
    ∃ v, pool[k.toNat]? = some v := by
  cases i with
  | constant => cases hk; exact h
  | getGlobal | setGlobal | callNamed | spawnNamed | importModule | debug =>
    cases hk
    obtain ⟨s, hs⟩ := h
    exact ⟨_, hs⟩
  | _ => cases hk

theorem Pooled.name (h : i.Pooled pool) (hk : i.nameOperand? = some k) :
    ∃ s, pool[k.toNat]? = some (.str s) := by
  cases i with
  | getGlobal | setGlobal | callNamed | spawnNamed | importModule | debug => cases hk; exact h
  | _ => cases hk

end Instr

/-- The listing of the chunk has one line for each instruction, in order, and shows for each jump
the offset that it leads to. -/
structure Chunk.Lists (h : Heap) (c : Chunk) (listing : List (Nat × Instr)) : Prop where
  length : (c.instrLines h (c.size + 1) none 0 []).reverse.length = listing.length
  line : ∀ (k x : Nat) (i : Instr), listing[k]? = some (x, i) → ∃ column,
    (c.instrLines h (c.size + 1) none 0 []).reverse[k]? = some (Text.padLeft 4 '0' (toString x) ++
      " " ++ column ++ " " ++ c.instrText h i.opcode (x + 1))
  target : ∀ (x : Nat) (i : Instr), (x, i) ∈ listing → ∀ y ∈ i.targets (x + i.size), ∃ n : UInt16,
    c.instrText h i.opcode (x + 1) =
      Text.padRight 14 i.opcode.name ++ " " ++ (toString n.toNat ++ " -> " ++ toString y)

theorem Chunk.Sound.lists {c : Chunk} {listing : List (Nat × Instr)} (hc : c.Sound listing)
    (h : Heap) : c.Lists h listing := by
  have hlength : listing.length < c.size + 1 := by
    have := hc.reads.length_le
    omega
  have hlines := hc.reads.instrLines (h := h) hlength none []
  rw [List.append_nil] at hlines
  refine ⟨?_, fun k x i hk => ?_, fun x i hx y hy => ?_⟩
  · rw [hlines, List.reverse_reverse, length_shownLines]
  · rw [hlines, List.reverse_reverse]
    exact c.shownLines_getElem? h none hk
  · obtain ⟨next, hd⟩ := hc.reads.decode hx
    rw [← decode_next hd] at hy
    exact instrText_target h hd hy

/-- The machine whose innermost frame, which is `f` in front of `F`, goes on at `ip`. -/
def Machine.goOn (m : Machine) (f : Frame) (F : List Frame) (ip : Nat) : Machine :=
  { m with task := { m.task with frames := { f with ip := ip } :: F } }

theorem Machine.Runs.goOn {fs : Array Function} {J : Task → Prop} {m : Machine} (hm : m.Runs fs J)
    (f : Frame) (F : List Frame) (ip : Nat) :
    (m.goOn f F ip).At fs J ({ f with ip := ip } :: F) m.task.tries :=
  { hm with frames := rfl, tries := rfl }

/-- The instruction `i` is the next one of the machine's task.  It is one of those that decoding
the function's code from offset 0 finds; `m'` is the machine that has taken it.  The constants
that it names are there, and where it leads is what `Moves` says. -/
structure Takes (env : Env) (m : Machine) (i : Instr) (m' : Machine) : Prop where
  listed : ∃ f F g listing, m.task.frames = f :: F ∧
    m.heap.functions[f.function.index]? = some g ∧ g.chunk.Sound listing ∧ (f.ip, i) ∈ listing ∧
    m' = m.goOn f F (f.ip + i.size)
  fetch : Exec.fetch.run m = .ok i m'
  constant : ∀ k, i.constantOperand? = some k → ∃ v, (Exec.constant k).run m' = .ok v m'
  name : ∀ k, i.nameOperand? = some k → ∃ s, (Exec.name k).run m' = .ok s m'
  moves : ∀ flow m'', (Exec.execute env i).run m' = .ok flow m'' →
    Moves m.heap.functions.size i m'.task.frames m'.task.tries flow m''.task.frames m''.task.tries

theorem Task.Placed.takes {fs : Array Function} {m : Machine} {J : Task → Prop}
    (hknown : FunctionsKnown fs) (hJ : Starts fs J) (hm : m.Runs fs J)
    (ht : m.task.Placed fs) (env : Env) : ∃ i m', Takes env m i m' := by
  cases hframes : m.task.frames with
  | nil => exact absurd hframes ht.active
  | cons f F =>
    have hf := ht.frames f (hframes ▸ List.mem_cons_self ..)
    obtain ⟨g, listing, i, hg, hl, hi⟩ := hf
    obtain ⟨next, hd⟩ := hl.reads.decode hi
    have hnext := decode_next hd
    subst hnext
    rw [← hm.functions] at hg
    have hfunction : m.heap.function f.function = g := by
      rw [Heap.function, hg]
      rfl
    have hfetch := Exec.run_fetch hframes
    rw [hfunction, hd] at hfetch
    have hpooled := hl.pooled f.ip i hi
    refine ⟨i, m.goOn f F (f.ip + i.size), ⟨f, F, g, listing, hframes, hg, hl, hi, rfl⟩, hfetch,
      fun k hk => ?_, fun k hk => ?_, fun flow m'' hrun => ?_⟩
    · obtain ⟨v, hv⟩ := hpooled.constant hk
      exact ⟨v, Exec.run_constant (m := m.goOn f F (f.ip + i.size)) rfl hfunction hv⟩
    · obtain ⟨s, hs⟩ := hpooled.name hk
      exact ⟨s, Exec.run_name (m := m.goOn f F (f.ip + i.size)) rfl hfunction hs⟩
    · have hmoved := Exec.execute_moves hknown hJ env i (hm.goOn f F (f.ip + i.size))
      rw [hrun] at hmoved
      obtain ⟨F', R', hmoves, hat⟩ := hmoved
      rw [hm.functions, hat.frames, hat.tries]
      exact hmoves

/-- Compiled code is well formed: the chunks of a program are written from what the compiler has put
together, and none of the pieces is a jump whose target it still has to fill in; the chunks are
sound, and so are their listings; and in every world that can be reached, every task takes an
instruction. -/
theorem compiled_code_well_formed :
    (∀ {p : Program} {interactive : Bool} {base : Nat} {c : Compiled},
      p.compile interactive base = .ok c → ∀ f ∈ c.functions.push c.main,
        (∃ ss W, Compile.Assembled ss f.chunk W) ∧
        (∀ ss W, Compile.Assembled ss f.chunk W → Fragment.Resolved W.toList) ∧
        ∃ listing, f.chunk.Sound listing ∧ ∀ h, f.chunk.Lists h listing) ∧
    ∀ {w : World} {run : Run} {t : Task}, Reached (fun _ => True) (.running w) → w.Has run t →
      ∃ i m', Takes w.shared.env (w.machine run t) i m' := by
  have htidy : ∀ p : Program, Tidy AnyBlock (blockNested true p) := fun _ _ _ _ _ => trivial
  refine ⟨fun {p interactive base c} hc f hf => ?_, fun {w run t} hw ht => ?_⟩
  · obtain ⟨⟨ss, ms, hroutine, -⟩, -⟩ :=
      compile_isRoutine hc (htidy p) (Q := fun _ => True) (fun _ _ => trivial) f hf
    obtain ⟨listing, hl⟩ := routine_sound hroutine
    exact ⟨hroutine.assembled, fun _ _ hwhole => hwhole.resolved, listing, hl, hl.lists⟩
  · have hcompiles : Compiles (fun _ => True) Function.IsSound :=
      compiles_of_routine (P := fun _ => True) (T := AnyBlock) (G := Function.IsSound)
        (fun p _ => htidy p) fun hroutine => routine_sound hroutine
    have hfine : w.Fine Function.IsSound Task.Placed := hw.fine placed_lasting hcompiles
    have htask := hfine.task ht
    exact htask.1.takes hfine.heap.known
      (placed_lasting.start hfine.heap.functions hfine.heap.known).fine
      (hfine.machine_runs (hfine.runs run ht.isRun) htask) _

/-- A loop that is left out of a `try` statement, beside a function with a loop of its own. -/
def guardedLoop : Program :=
  [.mk 1 (.function "count" ["n"] false false
      [.mk 2 (.countLoop "i" (.int 1) (.var "n") none [.mk 3 (.print [.var "i"])]),
        .mk 4 (.ret (some (.var "n")))]),
    .mk 6 (.whileLoop (.int 1)
      [.mk 7 (.tryBlock [.mk 8 (.eval (.call (.var "count") [.int 3])), .mk 9 .breakLoop]
        (some ("e", [.mk 10 (.raise (.var "e"))])) (some [.mk 11 (.print [.str "done"])]))])]

theorem guardedLoop_compiles :
    ∃ c, guardedLoop.compile false 0 = .ok c ∧ c.functions.size = 1 := by
  have hsize : (guardedLoop.compile false 0).toOption.map (fun c => c.functions.size) = some 1 := by
    decide +kernel
  cases hc : guardedLoop.compile false 0 with
  | error e =>
    rw [hc] at hsize
    cases hsize
  | ok c =>
    rw [hc] at hsize
    exact ⟨c, rfl, Option.some.inj hsize⟩

theorem guardedLoop_well_formed : ∃ c, guardedLoop.compile false 0 = .ok c ∧
    (∀ f ∈ c.functions.push c.main, ∃ ss W, Compile.Assembled ss f.chunk W ∧
      Fragment.Resolved W.toList ∧ ∃ listing, f.chunk.Sound listing ∧
      ∀ h, f.chunk.Lists h listing) ∧
    ∃ run t, (World.start { shared := {}, limit := 0 } c {} none).Has run t ∧ ∃ i m',
      Takes {} ((World.start { shared := {}, limit := 0 } c {} none).machine run t) i m' := by
  obtain ⟨c, hc, -⟩ := guardedLoop_compiles
  have hreached : Reached (fun _ => True)
      (.running (World.start { shared := {}, limit := 0 } c {} none)) :=
    .begins 0 roundAllowance (.fresh {} {}) trivial hc
  have htask : ∃ run t, (World.start { shared := {}, limit := 0 } c {} none).Has run t :=
    ⟨_, _, Array.mem_push_self, .inr (.inl List.mem_cons_self)⟩
  obtain ⟨run, t, ht⟩ := htask
  refine ⟨c, hc, fun f hf => ?_, run, t, ht, compiled_code_well_formed.2 hreached ht⟩
  obtain ⟨⟨ss, W, hwhole⟩, hresolved, hsound⟩ := compiled_code_well_formed.1 hc f hf
  exact ⟨ss, W, hwhole, hresolved ss W hwhole, hsound⟩

end TaskBasic
