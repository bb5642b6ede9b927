import TaskBasic.Proofs.Code.Pieces

/-
Chunks that can be taken apart into instructions.

`Reads code o listing` says that decoding from offset `o` on takes the rest of
the code apart into the instructions of `listing`.  `Chunk.Sound` says that this
goes well from offset 0, that jumps lead to instructions of the listing, that
control does not run behind the last one, and that constants are where
instructions look for them.

* `routine_sound` — the chunk of every compiled function is sound.
* `Compile.Assembled.resolved` — the compiler leaves no jump without a target.
-/

namespace TaskBasic

open Compile Fragment List

variable {o x : Nat} {i : Instr} {code : Array UInt8} {F W : Fragment} {pool : Array Value}
  {T : List Stmt → Prop} {ss : List Stmt} {ms : List Landmark}

/-! ### Listings -/

/-- Decoding the code from an offset on gives these instructions, one behind the other up to
the end of the code. -/
inductive Reads (code : Array UInt8) : Nat → List (Nat × Instr) → Prop
  | done : Reads code code.size []
  | next {o i o' rest} :
    decode code o = .ok (i, o') →
    Reads code o' rest →
    Reads code o ((o, i) :: rest)

/-- Whether the next instruction can follow an instruction. -/
def Instr.falls : Instr → Bool
  | .jump _ | .loop _ | .ret | .raise => false
  | _ => true

/-- The code of a chunk is made of instructions that stay inside of it. -/
structure Chunk.Sound (c : Chunk) (listing : List (Nat × Instr)) : Prop where
  /-- Instructions follow each other from offset 0 to the end. -/
  reads : Reads c.code 0 listing
  /-- There is a first instruction. -/
  first : ∃ i, (0, i) ∈ listing
  /-- Jumps lead to instructions. -/
  targets : ∀ x i, (x, i) ∈ listing → ∀ y ∈ i.targets (x + i.size), ∃ j, (y, j) ∈ listing
  /-- Jumps backward do not lead before the first byte. -/
  inCode : ∀ x i, (x, i) ∈ listing → i.InCode (x + i.size)
  /-- Where control goes on, there is an instruction. -/
  falls : ∀ x i, (x, i) ∈ listing → i.falls = true → ∃ j, (x + i.size, j) ∈ listing
  /-- Constants are in the pool, and names are texts. -/
  pooled : ∀ x i, (x, i) ∈ listing → i.Pooled c.constants

namespace Reads

variable {code : Array UInt8} {o : Nat} {listing : List (Nat × Instr)}

theorem decode (h : Reads code o listing) (hx : (x, i) ∈ listing) :
    ∃ next, TaskBasic.decode code x = .ok (i, next) := by
  induction h with
  | done => cases hx
  | next hd _ ih =>
    rcases mem_cons.mp hx with heq | hx
    · cases heq
      exact ⟨_, hd⟩
    · exact ih hx

theorem head (h : Reads code o listing) (hne : listing ≠ []) : ∃ i, (o, i) ∈ listing := by
  cases h with
  | done => exact absurd rfl hne
  | next _ _ => exact ⟨_, mem_cons_self ..⟩

theorem unique {listing' : List (Nat × Instr)} (h : Reads code o listing)
    (h' : Reads code o listing') : listing = listing' := by
  induction h generalizing listing' with
  | done =>
    cases h' with
    | done => rfl
    | next hd _ => simp [TaskBasic.decode] at hd
  | next hd _ ih =>
    cases h' with
    | done => simp [TaskBasic.decode] at hd
    | next hd' hr' =>
      rw [hd] at hd'
      cases hd'
      rw [ih hr']

end Reads

theorem Instr.opcode_build (op : Opcode) (wide : UInt16) (narrow : UInt8) :
    (Instr.build op wide narrow).opcode = op := by
  cases op <;> rfl

theorem Opcode.opcode_of_withOperands? {op : Opcode} {bytes : List UInt8}
    (h : op.withOperands? bytes = some i) : i.opcode = op := by
  unfold Opcode.withOperands? at h
  split at h <;> cases h <;> exact Instr.opcode_build ..

/-- The next offset is behind the bytes of an instruction. -/
theorem decode_next {next : Nat} (h : decode code x = .ok (i, next)) : next = x + i.size := by
  rw [decode] at h
  split at h
  next => cases h
  next byte hbyte =>
    split at h
    next => cases h
    next op hop =>
      split at h
      next => cases h
      next j hj =>
        cases h
        rw [Instr.size, Opcode.opcode_of_withOperands? hj, Nat.add_assoc]

theorem Reads.falls {listing : List (Nat × Instr)} (h : Reads code o listing)
    (hx : (x, i) ∈ listing) :
    (∃ j, (x + i.size, j) ∈ listing) ∨ listing.getLast? = some (x, i) := by
  induction h with
  | done => cases hx
  | next hd hr ih =>
    rcases mem_cons.mp hx with heq | hx
    · cases heq
      cases hr with
      | done => exact .inr rfl
      | next hd' _ =>
        rw [decode_next hd]
        exact .inl ⟨_, mem_cons_of_mem _ (mem_cons_self ..)⟩
    · rcases ih hx with ⟨k, hk⟩ | hlast
      · exact .inl ⟨k, mem_cons_of_mem _ hk⟩
      · refine .inr ?_
        rw [getLast?_cons, hlast]
        rfl

/-! ### Fragments as listings -/

namespace Fragment

def listing : Nat → List Piece → List (Nat × Instr)
  | _, [] => []
  | o, p :: ps =>
    match p.step with
    | .instr i => (o, i) :: listing (o + p.step.size) ps
    | .exit _ => listing (o + p.step.size) ps

/-- Where an instruction of a listing stands. -/
theorem mem_listing {ps : List Piece} (h : (x, i) ∈ listing o ps) :
    ∃ qs p rs, ps = qs ++ p :: rs ∧ p.step = .instr i ∧ x = o + span qs := by
  induction ps generalizing o with
  | nil => cases h
  | cons p ps ih =>
    rw [listing] at h
    have hrest (h : (x, i) ∈ listing (o + p.step.size) ps) :
        ∃ qs q rs, p :: ps = qs ++ q :: rs ∧ q.step = .instr i ∧ x = o + span qs := by
      obtain ⟨qs, q, rs, rfl, hq, rfl⟩ := ih h
      exact ⟨p :: qs, q, rs, rfl, hq, by rw [span_cons, Nat.add_assoc]⟩
    split at h
    next j hj =>
      rcases mem_cons.mp h with heq | h
      · cases heq
        exact ⟨[], p, ps, rfl, hj, rfl⟩
      · exact hrest h
    next => exact hrest h

theorem Each.listing {P : Nat → Step → Prop} {ps : List Piece} (h : Each P o ps)
    (hx : (x, i) ∈ listing o ps) : P x (.instr i) := by
  obtain ⟨qs, p, rs, rfl, hp, rfl⟩ := mem_listing hx
  exact hp ▸ (each_append.mp h).2.1

theorem reads_listing {exits : Exit → Nat} {ps : List Piece} (hps : Resolved ps)
    (hs : Sits code exits o ps) (hsize : o + span ps = code.size) :
    Reads code o (listing o ps) := by
  induction ps generalizing o with
  | nil =>
    rw [span_nil, Nat.add_zero] at hsize
    rw [hsize]
    exact .done
  | cons p ps ih =>
    have hrest : Resolved ps := fun q hq => hps q (mem_cons_of_mem _ hq)
    rw [span_cons, ← Nat.add_assoc] at hsize
    have hreads := ih hrest hs.2 hsize
    have hstep := hs.1
    rw [listing]
    cases hp : p.step with
    | exit e => exact absurd hp (hps p (mem_cons_self ..) e)
    | instr i =>
      rw [hp] at hreads hstep
      exact .next hstep hreads

theorem listing_append (o : Nat) (ps qs : List Piece) :
    listing o (ps ++ qs) = listing o ps ++ listing (o + span ps) qs := by
  induction ps generalizing o with
  | nil => simp [listing]
  | cons p ps ih =>
    rw [cons_append, listing, listing, ih, span_cons, Nat.add_assoc]
    cases p.step <;> rfl

/-- An offset at which an instruction of the fragment begins. -/
def Begins (F : Fragment) (x : Nat) : Prop :=
  ∃ i, (x, i) ∈ listing 0 F.toList

theorem begins_of_append {ps qs : List Piece} (hF : Resolved F.toList) (hps : F.toList = ps ++ qs)
    (hqs : qs ≠ []) : Begins F (span ps) := by
  rw [hps] at hF
  rw [Begins, hps, listing_append, Nat.zero_add]
  obtain ⟨q, qs, rfl⟩ := exists_cons_of_ne_nil hqs
  rw [listing]
  cases hq : q.step with
  | exit e => exact absurd hq (hF q (by simp) e)
  | instr i => exact ⟨i, mem_append_right _ (mem_cons_self ..)⟩

/-- The code of a chunk is taken apart into its pieces. -/
theorem reads_chunk (hW : Resolved W.toList) (pool : Array Value) :
    Reads (W.chunk pool).code 0 (listing 0 W.toList) := by
  refine reads_listing hW (sits_chunk (fun _ => 0) hW pool) ?_
  rw [Nat.zero_add, ← length_flatMap_encodePiece, ← chunk_code W pool, Array.length_toList]

end Fragment

/-! ### Routines -/

theorem resolved_append {G : Fragment} :
    Resolved (F ++ G).toList ↔ Resolved F.toList ∧ Resolved G.toList := by
  simp only [Resolved, Array.toList_append, mem_append]
  exact ⟨fun h => ⟨fun p hp => h p (.inl hp), fun p hp => h p (.inr hp)⟩,
    fun ⟨hF, hG⟩ p hp => hp.elim (hF p) (hG p)⟩

/-- Code that leads nowhere else, and the return behind it. -/
theorem sound_of_aims {exits : Exit → Nat} {o' : Nat} (line : Nat) (hF : Resolved F.toList)
    (h : Aims (fun _ => False) pool exits 0 F o') :
    ∃ listing, (Fragment.chunk (F ++ #[⟨line, .instr .ret⟩]) pool).Sound listing := by
  generalize hW : F ++ #[⟨line, .instr .ret⟩] = W
  have hpieces : W.toList = F.toList ++ [⟨line, .instr .ret⟩] := by rw [← hW, Array.toList_append]
  have hresolved : Resolved W.toList := by
    rw [← hW]
    exact resolved_append.mpr ⟨hF, by simp [Resolved]⟩
  have hreads := reads_chunk hresolved pool
  have haimed : Each (Step.Aimed (Begins W) pool exits) 0 W.toList := by
    rw [hpieces, each_append]
    refine ⟨h.aimed _ nofun ?_, ⟨nofun, trivial, trivial⟩, trivial⟩
    rintro _ ⟨ps, qs, hps, rfl⟩
    rw [Nat.zero_add]
    exact begins_of_append hresolved (by rw [hpieces, hps, append_assoc]) (by simp)
  refine ⟨_, hreads, ?_, fun x i hx => (haimed.listing hx).1,
    fun x i hx => (haimed.listing hx).2.1, ?_, ?_⟩
  · refine hreads.head ?_
    rw [hpieces, listing_append]
    simp [listing]
  · intro x i hx hfalls
    rcases hreads.falls hx with hnext | hlast
    · exact hnext
    · rw [hpieces, listing_append] at hlast
      simp only [listing, List.getLast?_append, List.getLast?_singleton, Option.some_or,
        Option.some.injEq, Prod.mk.injEq] at hlast
      rw [← hlast.2] at hfalls
      cases hfalls
  · intro x i hx
    rw [chunk_constants]
    exact (haimed.listing hx).2.2

/-- The code of a routine: what stands before its body, the body, what computes the value to
return, and the return. -/
theorem sound_of_parts {site : Site} {d d' : Draft} {first value : Fragment} {o' : Nat} (line : Nat)
    (h : Emits T (.body site ss) d F d' ms) (hsite : site.loop = none)
    (hd : d.offset = span first.toList) (hpool : Extends d'.constants pool)
    (hfirst : ∀ p ∈ first.toList, p.step = .instr .pushAbsent) (hvalue : Resolved value.toList)
    (haimed : Aims (fun _ => False) pool site.exits d'.offset value o') :
    ∃ listing, (Fragment.chunk (first ++ F ++ value ++ #[⟨line, .instr .ret⟩]) pool).Sound
      listing := by
  have hbefore : Aims (fun _ => False) pool site.exits 0 first d.offset :=
    .plains (by rw [hd, Nat.zero_add]) fun p hp => ⟨_, hfirst p hp, fun _ => rfl, trivial⟩
  have hbody : Aims (fun _ => False) pool site.exits d.offset F d'.offset :=
    h.aimed (by intro _ he; rw [Phrase.site, hsite] at he; cases he) hpool
  have hresolved : Resolved first.toList := fun p hp e he => by
    rw [hfirst p hp] at he
    cases he
  exact sound_of_aims line
    (resolved_append.mpr ⟨resolved_append.mpr ⟨hresolved, h.resolved_body hsite⟩, hvalue⟩)
    ((hbefore.seq hbody).seq haimed)

/-- A function begins with room for the value to be returned, if with anything. -/
theorem opening_pieces {params : List String} {body : List Stmt} {d d1 : Draft} {first : Fragment}
    {slot : Option UInt16} (h : (opening params body).run d.forFunction = .ok ((first, slot), d1)) :
    ∀ p ∈ first.toList, p.step = .instr .pushAbsent := by
  rcases run_opening_ok h with ⟨_, _, _, rfl, _⟩ | ⟨_, _, _, rfl, _⟩ <;> simp

theorem routine_sound {f : Function} (h : Routine T f ss ms) :
    ∃ listing, f.chunk.Sound listing := by
  have hclosing : ∀ (F : Fragment) line, F ++ closing line =
      F ++ #[⟨line, .instr .pushAbsent⟩] ++ #[⟨line, .instr .ret⟩] := by
    intro F line
    rw [Array.append_assoc]
    rfl
  have hresolved : ∀ line, Resolved (#[⟨line, .instr .pushAbsent⟩] : Fragment).toList := by
    simp [Resolved]
  cases h with
  | @function _ _ _ _ _ d first _ _ _ d2 _ hopen h _ =>
    rw [hclosing]
    refine sound_of_parts _ h rfl ?_ (.refl _) (opening_pieces hopen) (hresolved _)
      (.plain (fun _ => rfl) trivial)
    rw [(added_opening hopen).offset]
    exact Nat.zero_add _
  | @main _ _ d1 _ _ h _ =>
    have hparts := sound_of_parts d1.line h rfl (show _ = span (#[] : Fragment).toList from rfl)
      (.refl _)
      nofun (hresolved d1.line) (.plain (fun _ => rfl) trivial)
    rwa [Array.empty_append, ← hclosing] at hparts
  | @interactive _ _ _ _ _ _ _ d2 _ _ h hp _ =>
    have hparts := sound_of_parts d2.line h rfl (show _ = span (#[] : Fragment).toList from rfl)
      hp.emitted.pool nofun hp.resolved (hp.aimed (.refl _))
    rwa [Array.empty_append] at hparts

/-- All exits are gone from what the compiler puts together: no jump is left without a target. -/
theorem Compile.Assembled.resolved {c : Chunk} (h : Assembled ss c W) : Resolved W.toList := by
  have hclosing : ∀ line, Resolved (closing line).toList := by simp [Resolved, closing]
  cases h with
  | function hrun =>
    obtain ⟨first, slot, d1, G, d2, hopen, hbody, rfl, -⟩ := run_functionCode_ok hrun
    obtain ⟨ms, hms⟩ :=
      emits_sequence { inFunction := true, returnSlot := slot } (emits_stmt _) hbody
    have hfirst : Resolved first.toList := fun p hp e he => by
      rw [opening_pieces hopen p hp] at he
      cases he
    exact resolved_append.mpr ⟨resolved_append.mpr ⟨hfirst, hms.resolved_body rfl⟩, hclosing _⟩
  | program hrun =>
    rcases emits_program hrun with ⟨F, d1, ms, hbody, rfl, -⟩ |
      ⟨F, d1, ms, line, e, G, d2, ns, hbody, hlast, rfl, -⟩
    · exact resolved_append.mpr ⟨hbody.resolved_body rfl, hclosing _⟩
    · refine resolved_append.mpr ⟨resolved_append.mpr ⟨hbody.resolved_body rfl, hlast.resolved⟩, ?_⟩
      simp [Resolved]

theorem Routine.assembled {f : Function} (h : Routine T f ss ms) :
    ∃ ts W, Assembled ts f.chunk W := by
  cases h with
  | function _ _ hwhole | main _ hwhole | interactive _ _ hwhole => exact ⟨_, _, hwhole⟩

end TaskBasic
