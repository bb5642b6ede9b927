import TaskBasic.Proofs.Chunk.Sound

/-
The stack at every place in the code.

A layout `N` gives for each offset in the code of a function a `Note`: how many
values the frame has on the stack there, and which `try` regions of it are open.
`Instr.Fits` says of the instruction at an offset that it finds the values that it
takes, and that the layout has the right notes wherever it leads.

`Laid X o F o' ν ν' K R` says that the code `F` between the offsets `o` and
`o'` has a layout that leads from the note `ν` to the note `ν'`.  `K` is what is
then known of the whole layout, and `R` what it has to provide in return: the
notes at the places outside of `F` that `F` leads to.  `Laid.seq` puts code
together, and `Laid.imp` settles the demands of one part by what another part
provides.

A note may also say which `finally` blocks are still to run, and a `Watch` whether
that matters; here it does not (`Watch.stack`).
-/

namespace TaskBasic

open Compile Fragment

variable {i : Instr} {e : Exit} {target : Nat}

/-! ### What instructions do to the stack -/

namespace Instr

/-- The number of values on top of the stack that an instruction looks at or takes away. -/
def takes : Instr → Nat
  | pop | dup | neg | logicNot | toBool | jumpIfFalse _ | jumpIfTrue _ | len => 1
  | setLocal _ | setGlobal _ | debug _ | mergeGlobals | await | raise | ret => 1
  | binary _ | getIndex | iterValue => 2
  | setIndex => 3
  | call n | spawn n => n.toNat + 1
  | callNamed _ n | spawnNamed _ n | buildTuple n | newArray n | print n => n.toNat
  | buildArray n | buildString n => n.toNat
  | buildDict n => n.toNat * 2
  | input prompted => if prompted = 0 then 0 else 1
  | _ => 0

theorem takes_input (prompted : UInt8) :
    (input prompted).takes = if prompted = 0 then 0 else 1 := rfl

/-- The number of values that stand in their place behind the instruction. -/
def gives : Instr → Nat
  | pop | jump _ | jumpIfFalse _ | jumpIfTrue _ | loop _ | ret | restoreData | print _
  | debug _ => 0
  | mergeGlobals | tryBegin _ | tryEnd | raise => 0
  | dup => 2
  | _ => 1

/-- The local that an instruction reads or writes. -/
def slot? : Instr → Option UInt16
  | getLocal slot | setLocal slot => some slot
  | _ => none

/-- True for the instructions that cannot fail if they find the values that they take. -/
def isQuiet : Instr → Bool
  | pop | jump _ | loop _ | tryBegin _ | tryEnd => true
  | _ => false

/-- True for the instructions behind which the next one always follows. -/
def isStraight : Instr → Bool
  | jump _ | jumpIfFalse _ | jumpIfTrue _ | loop _ | ret | raise | tryBegin _ | tryEnd => false
  | _ => true

/-- True for the instructions that open or close a `try` region. -/
def isTry : Instr → Bool
  | tryBegin _ | tryEnd => true
  | _ => false

theorem isTry_of_isStraight (h : i.isStraight = true) : i.isTry = false := by
  cases i <;> first | rfl | cases h

theorem targets_of_isStraight (h : i.isStraight = true) (next : Nat) : i.targets next = [] := by
  cases i <;> first | rfl | cases h

end Instr

/-! ### Notes -/

/-- What is known at a place in the code. -/
structure Note where
  /-- The number of values that the frame has on the stack. -/
  height : Nat
  /-- The open `try` regions of the frame. -/
  opens : List OpenTry
  duties : List Duty

/-- What a layout looks after besides the stack. -/
structure Watch where
  /-- Whether it looks after duties. -/
  duties : Prop
  /-- The copies of `finally` blocks in the code. -/
  copies : Copy → Prop

/-- What becomes of the duties on the way to the offset `y`, where copies of `finally` blocks
begin and end. -/
inductive Shift (C : Copy → Prop) (y : Nat) : List Duty → List Duty → Prop
  | refl {D} : Shift C y D D
  | start {c D D'} : C c → c.start = y → Shift C y (.running c :: D) D' →
    Shift C y (.owed c.owner :: D) D'
  | finish {c D D'} : c.stop = y → Shift C y D D' → Shift C y (.running c :: D) D'

/-- The watch that looks after nothing but the stack. -/
def Watch.stack : Watch := ⟨False, fun _ => False⟩

section

variable {N : Nat → Note} {o : Nat} {ν : Note} {opens : List OpenTry}

/-- The first `n` values of a frame hold the locals of its regions. -/
def Below (opens : List OpenTry) (n : Nat) : Prop :=
  ∀ t ∈ opens, t.locals.length ≤ n

theorem Below.mono {n n' : Nat} (h : Below opens n) (hn : n ≤ n') : Below opens n' :=
  fun t ht => Nat.le_trans (h t ht) hn

/-- Code that leads to the offset `o` with the note `ν` agrees with the layout there. -/
structure Arrives (S : Watch) (N : Nat → Note) (o : Nat) (ν : Note) : Prop where
  height : (N o).height = ν.height
  opens : (N o).opens = ν.opens
  duties : S.duties → Shift S.copies o ν.duties (N o).duties

theorem Arrives.of_eq (h : N o = ν) : Arrives .stack N o ν := by
  subst h
  exact ⟨rfl, rfl, False.elim⟩

theorem Arrives.free {h : Nat} {D D' : List Duty} (ho : Arrives .stack N o ⟨h, opens, D⟩) :
    Arrives .stack N o ⟨h, opens, D'⟩ :=
  ⟨ho.height, ho.opens, False.elim⟩

/-- A failure leads to the handler of the innermost region, if there is one. -/
def Recovers (N : Nat → Note) : List OpenTry → Prop
  | [] => True
  | t :: ts => Arrives .stack N t.handler ⟨t.locals.length + 1, ts, []⟩

/-- The notes that can stand behind the instruction `i` at offset `o`, which has the note `ν`. -/
inductive Note.Next (o : Nat) (i : Instr) (ν : Note) : Note → Prop
  | plain : i.isTry = false → Next o i ν { ν with height := ν.height - i.takes + i.gives }
  | opened {n t} : i = .tryBegin n → t.handler = o + 3 + n.toNat → t.start = o →
    t.locals.length = ν.height → Next o i ν { ν with opens := t :: ν.opens }
  | closed {t ts} : i = .tryEnd → ν.opens = t :: ts → Next o i ν { ν with opens := ts }

/-- The instruction `i` at offset `o` fits the layout. -/
structure Instr.Fits (N : Nat → Note) (o : Nat) (i : Instr) : Prop where
  enough : i.takes ≤ (N o).height
  slot : ∀ slot, i.slot? = some slot → slot.toNat < (N o).height
  margin : Below (N o).opens ((N o).height - i.takes)
  next : i.falls = true → ∃ ν, (N o).Next o i ν ∧ Arrives .stack N (o + i.size) ν
  jumps : i.isTry = false → ∀ y ∈ i.targets (o + i.size),
    Arrives .stack N y { N o with height := (N o).height - i.takes + i.gives }
  fails : i.isQuiet = false → Recovers N (N o).opens

/-- The step at offset `o` fits the layout; the exits of a loop lead to where `X` says. -/
def Step.Fits (N : Nat → Note) (X : Exit → Nat) (o : Nat) : Step → Prop
  | .instr i => i.Fits N o
  | .exit e => Below (N o).opens (N o).height ∧ Arrives .stack N (X e) (N o)

end

/-! ### Code with a layout -/

/-- The code `F` has a layout from the note `ν` to the note `ν'`. -/
structure Laid (X : Exit → Nat) (o : Nat) (F : Fragment) (o' : Nat) (ν ν' : Note)
    (K R : (Nat → Note) → Prop) : Prop where
  stop : o' = o + span F.toList
  notes : ∃ A : Nat → Note, ∀ N : Nat → Note, (∀ x, o ≤ x → x < o' → N x = A x) →
    Arrives .stack N o' ν' → Arrives .stack N o ν ∧ K N ∧ (R N → Each (Step.Fits N X) o F.toList)

namespace Laid

variable {X : Exit → Nat} {o m o' : Nat} {F G : Fragment} {ν μ ν' : Note}
  {K K1 K2 R R1 R2 : (Nat → Note) → Prop}

theorem le (h : Laid X o F o' ν ν' K R) : o ≤ o' := by
  rw [h.stop]
  exact Nat.le_add_right _ _

theorem nil (o : Nat) (ν : Note) :
    Laid X o #[] o ν ν (fun _ => True) (fun _ => True) :=
  ⟨rfl, fun _ => ν, fun _ _ hend => ⟨hend, trivial, fun _ => trivial⟩⟩

/-- Two parts one behind the other: the layout is spliced where they meet. -/
theorem seq (h1 : Laid X o F m ν μ K1 R1) (h2 : Laid X m G o' μ ν' K2 R2) :
    Laid X o (F ++ G) o' ν ν' (fun N => K1 N ∧ Arrives .stack N m μ ∧ K2 N)
      (fun N => R1 N ∧ R2 N) := by
  have hle1 := h1.le
  have hle2 := h2.le
  obtain ⟨hm, A1, hA1⟩ := h1
  obtain ⟨ho', A2, hA2⟩ := h2
  refine ⟨?_, fun x => if x < m then A1 x else A2 x, ?_⟩
  · rw [Array.toList_append, span_append, ho', hm, Nat.add_assoc]
  intro N hN hend
  have hright : ∀ x, m ≤ x → x < o' → N x = A2 x := by
    intro x hmx hx
    rw [hN x (Nat.le_trans hle1 hmx) hx]
    exact if_neg (Nat.not_lt_of_le hmx)
  have hleft : ∀ x, o ≤ x → x < m → N x = A1 x := by
    intro x hox hx
    rw [hN x hox (Nat.lt_of_lt_of_le hx hle2)]
    exact if_pos hx
  obtain ⟨hmid, hK2, hG⟩ := hA2 N hright hend
  obtain ⟨hstart, hK1, hF⟩ := hA1 N hleft hmid
  refine ⟨hstart, ⟨hK1, hmid, hK2⟩, fun hR => ?_⟩
  rw [Array.toList_append, each_append, ← hm]
  exact ⟨hF hR.1, hG hR.2⟩

/-- What the parts demand of each other is settled by what they provide. -/
theorem imp (h : Laid X o F o' ν ν' K1 R1)
    (hK : ∀ N, Arrives .stack N o ν → Arrives .stack N o' ν' → K1 N → K N)
    (hR : ∀ N, Arrives .stack N o ν → Arrives .stack N o' ν' → K1 N → R N → R1 N) :
    Laid X o F o' ν ν' K R := by
  obtain ⟨ho', A, hA⟩ := h
  refine ⟨ho', A, fun N hN hend => ?_⟩
  obtain ⟨hstart, hK1, hF⟩ := hA N hN hend
  exact ⟨hstart, hK N hstart hend hK1, fun h => hF (hR N hstart hend hK1 h)⟩

theorem instr {line : Nat} (ν : Note) (henough : i.takes ≤ ν.height)
    (hslot : ∀ slot, i.slot? = some slot → slot.toNat < ν.height)
    (hmargin : Below ν.opens (ν.height - i.takes)) (hnext : i.falls = true → ν.Next o i ν') :
    Laid X o #[⟨line, .instr i⟩] (o + i.size) ν ν' (fun _ => True) (fun N =>
      (i.isTry = false → ∀ y ∈ i.targets (o + i.size),
        Arrives .stack N y { ν with height := ν.height - i.takes + i.gives }) ∧
      (i.isQuiet = false → Recovers N ν.opens)) := by
  refine ⟨by simp [Step.size], fun _ => ν, fun N hN hend => ?_⟩
  have hν : N o = ν := hN o (Nat.le_refl o) (Nat.lt_add_of_pos_right i.size_pos)
  refine ⟨.of_eq hν, trivial, fun hR => ⟨?_, trivial⟩⟩
  show i.Fits N o
  refine ⟨?_, ?_, ?_, fun hfalls => ⟨ν', ?_, hend⟩, ?_, ?_⟩
  all_goals rw [hν]
  · exact henough
  · exact hslot
  · exact hmargin
  · exact hnext hfalls
  · exact hR.1
  · exact hR.2

/-- Room for a jump out of a loop, or to its next round. -/
theorem exit {line h : Nat} {opens : List OpenTry} (hbase : Below opens h) (ν' : Note) :
    Laid X o #[⟨line, .exit e⟩] (o + 3) ⟨h, opens, []⟩ ν' (fun _ => True)
      (fun N => Arrives .stack N (X e) ⟨h, opens, []⟩) := by
  refine ⟨rfl, fun _ => ⟨h, opens, []⟩, fun N hN _ => ?_⟩
  have hν : N o = ⟨h, opens, []⟩ := hN o (Nat.le_refl o) (by omega)
  refine ⟨.of_eq hν, trivial, fun hR => ⟨?_, trivial⟩⟩
  rw [Step.Fits, hν]
  exact ⟨hbase, hR⟩

end Laid

theorem Step.Fits.jump {N : Nat → Note} {X : Exit → Nat} {o : Nat} {n : UInt16}
    (hn : o + 3 + n.toNat = X e) (h : (Step.exit e).Fits N X o) : (Instr.jump n).Fits N o where
  enough := Nat.zero_le _
  slot := nofun
  margin := h.1
  next := nofun
  jumps _ y hy := by
    obtain rfl := List.mem_singleton.mp hy
    rw [show o + (Instr.jump n).size + n.toNat = X e from hn]
    exact h.2
  fails := nofun

/-! ### Putting code together -/

/-- What a layout says about marked places. -/
def Landmark.Agrees (S : Watch) (N : Nat → Note) : Landmark → Prop
  | rest o L _ opens D => Arrives S N o ⟨L.length, opens, D⟩
  | value start stop L _ _ => L.length ≤ (N start).height ∧
      (N stop).height = (N start).height + 1 ∧ (N stop).opens = (N start).opens
  | _ => True

/-- A layout agrees with all the marks. -/
def Marked (S : Watch) (ms : List Landmark) (N : Nat → Note) : Prop :=
  ∀ m ∈ ms, m.Agrees S N

section

variable {N : Nat → Note} {m : Landmark} {ms ns : List Landmark}

theorem marked_nil : Marked .stack [] N := nofun

theorem marked_append : Marked .stack (ms ++ ns) N ↔ Marked .stack ms N ∧ Marked .stack ns N :=
  List.forall_mem_append

theorem marked_cons : Marked .stack (m :: ms) N ↔ m.Agrees .stack N ∧ Marked .stack ms N :=
  List.forall_mem_cons

end

/-- The code leads from `h` values on the stack to `h'`, and may fail on the way. -/
def Flows (X : Exit → Nat) (opens : List OpenTry) (o : Nat) (F : Fragment) (o' h h' : Nat) : Prop :=
  Laid X o F o' ⟨h, opens, []⟩ ⟨h', opens, []⟩ (fun _ => True) (fun N => Recovers N opens)

namespace Laid

variable {X : Exit → Nat} {o m o' : Nat} {F G : Fragment} {ν μ ν' : Note}
  {ms ns : List Landmark} {R : (Nat → Note) → Prop}

theorem append (h1 : Laid X o F m ν μ (Marked .stack ms) R)
    (h2 : Laid X m G o' μ ν' (Marked .stack ns) R) :
    Laid X o (F ++ G) o' ν ν' (Marked .stack (ms ++ ns)) R :=
  (h1.seq h2).imp (fun _ _ _ hK => marked_append.mpr ⟨hK.1, hK.2.2⟩) fun _ _ _ _ hR => ⟨hR, hR⟩

/-- Code without marks behind other code. -/
theorem more (h1 : Laid X o F m ν μ (Marked .stack ms) R)
    (h2 : Laid X m G o' μ ν' (fun _ => True) R) :
    Laid X o (F ++ G) o' ν ν' (Marked .stack ms) R :=
  (h1.seq h2).imp (fun _ _ _ hK => hK.1) fun _ _ _ _ hR => ⟨hR, hR⟩

/-- Code without marks before other code. -/
theorem before (h1 : Laid X o F m ν μ (fun _ => True) R)
    (h2 : Laid X m G o' μ ν' (Marked .stack ms) R) :
    Laid X o (F ++ G) o' ν ν' (Marked .stack ms) R :=
  (h1.seq h2).imp (fun _ _ _ hK => hK.2.2) fun _ _ _ _ hR => ⟨hR, hR⟩

theorem unmarked (h : Laid X o F o' ν ν' (fun _ => True) R) :
    Laid X o F o' ν ν' (Marked .stack []) R :=
  h.imp (fun _ _ _ _ => marked_nil) fun _ _ _ _ hR => hR

theorem empty (o : Nat) (ν : Note) : Laid X o #[] o ν ν (Marked .stack []) R :=
  (nil o ν).imp (fun _ _ _ _ => marked_nil) fun _ _ _ _ _ => trivial

/-- The demands of code may be more than it needs. -/
theorem asks {K R' : (Nat → Note) → Prop} (h : Laid X o F o' ν ν' K R)
    (hR : ∀ N, R' N → R N) : Laid X o F o' ν ν' K R' :=
  h.imp (fun _ _ _ hK => hK) fun N _ _ _ hR' => hR N hR'

section

variable {line n h h' base : Nat} {i : Instr} {opens : List OpenTry}

/-- An instruction behind which the next one follows; `base` values lie below those that it
takes. -/
theorem straight (hbase : Below opens base) (hi : i.isStraight = true)
    (hsize : i.size = n) (henough : base + i.takes ≤ h) (hh : h' = h - i.takes + i.gives)
    (hslot : ∀ slot, i.slot? = some slot → slot.toNat < h) :
    Flows X opens o #[⟨line, .instr i⟩] (o + n) h h' := by
  subst hsize hh
  refine (instr ⟨h, opens, []⟩ ?_ hslot (hbase.mono ?_)
    fun _ => .plain (Instr.isTry_of_isStraight hi)).imp
    (fun _ _ _ _ => trivial) fun N _ _ _ hR => ⟨?_, fun _ => hR⟩
  · exact Nat.le_trans (Nat.le_add_left _ _) henough
  · exact Nat.le_sub_of_add_le henough
  · intro _ y hy
    rw [Instr.targets_of_isStraight hi] at hy
    cases hy

/-- The instruction reads or writes no local. -/
theorem plain (hbase : Below opens base) (hi : i.isStraight = true)
    (hsize : i.size = n) (henough : base + i.takes ≤ h) (hh : h' = h - i.takes + i.gives)
    (hslot : i.slot? = none) :
    Flows X opens o #[⟨line, .instr i⟩] (o + n) h h' :=
  straight hbase hi hsize henough hh (by rw [hslot]; nofun)

/-- The instruction makes `g` values of `k` that lie on top. -/
theorem gathers {k g : Nat} (hbase : Below opens h) (hi : i.isStraight = true)
    (hsize : i.size = n) (htakes : i.takes = k) (hgives : i.gives = g) (hslot : i.slot? = none) :
    Flows X opens o #[⟨line, .instr i⟩] (o + n) (h + k) (h + g) := by
  refine plain hbase hi hsize (Nat.le_of_eq (by rw [htakes])) ?_ hslot
  rw [htakes, hgives, Nat.add_sub_cancel]

theorem read {slot : UInt16} (hbase : Below opens h) (hslot : slot.toNat < h) :
    Flows X opens o #[⟨line, .instr (.getLocal slot)⟩] (o + 3) h (h + 1) :=
  straight hbase rfl rfl (Nat.le_refl _) rfl (by rintro _ ⟨⟩; exact hslot)

theorem write {slot : UInt16} (hbase : Below opens h) (hslot : slot.toNat < h) :
    Flows X opens o #[⟨line, .instr (.setLocal slot)⟩] (o + 3) (h + 1) (h + 1) :=
  straight hbase rfl rfl (Nat.le_refl _) rfl (by rintro _ ⟨⟩; exact Nat.lt_succ_of_lt hslot)

theorem branch {make : UInt16 → Instr} (hmake : make = .jumpIfFalse ∨ make = .jumpIfTrue)
    (hF : Forward make o target F) (hbase : Below opens h) :
    Laid X o F (o + 3) ⟨h + 1, opens, []⟩ ⟨h, opens, []⟩ (fun _ => True)
      (fun N => Arrives .stack N target ⟨h, opens, []⟩ ∧ Recovers N opens) := by
  obtain ⟨line, n, rfl, hsize, rfl⟩ := hF
  have hform : (make n).takes = 1 ∧ (make n).gives = 0 ∧ (make n).slot? = none ∧
      (make n).isTry = false ∧ ∀ x, (make n).targets x = [x + n.toNat] := by
    rcases hmake with rfl | rfl <;> exact ⟨rfl, rfl, rfl, rfl, fun _ => rfl⟩
  obtain ⟨htakes, hgives, hslot, htry, htargets⟩ := hform
  have hheight : h + 1 - (make n).takes + (make n).gives = h := by rw [htakes, hgives]; rfl
  rw [← hsize]
  refine (instr ⟨h + 1, opens, []⟩ ?_ ?_ ?_ fun _ => ?_).imp
    (fun _ _ _ _ => trivial) fun N _ _ _ hR => ⟨?_, fun _ => hR.2⟩
  · rw [htakes]
    exact Nat.succ_le_succ (Nat.zero_le h)
  · rw [hslot]
    nofun
  · rw [htakes]
    exact hbase
  · have hplain := Note.Next.plain (o := o) (ν := ⟨h + 1, opens, []⟩) htry
    rwa [hheight] at hplain
  · intro _ y hy
    rw [htargets, List.mem_singleton] at hy
    rw [hy, hheight]
    exact hR.1

theorem jump {target : Nat} (hF : Forward .jump o target F) (hbase : Below opens h)
    (ν' : Note) :
    Laid X o F (o + 3) ⟨h, opens, []⟩ ν' (fun _ => True)
      (fun N => Arrives .stack N target ⟨h, opens, []⟩) := by
  obtain ⟨line, n, rfl, hsize, rfl⟩ := hF
  refine (instr (i := .jump n) ⟨h, opens, []⟩ (Nat.zero_le _) nofun hbase nofun).imp
    (fun _ _ _ _ => trivial) fun N _ _ _ hR => ⟨?_, nofun⟩
  intro _ y hy
  obtain rfl := List.mem_singleton.mp hy
  exact hR

theorem back (hF : Backward o target F) (hbase : Below opens h) (ν' : Note) :
    Laid X o F (o + 3) ⟨h, opens, []⟩ ν' (fun _ => True)
      (fun N => Arrives .stack N target ⟨h, opens, []⟩) := by
  obtain ⟨line, n, rfl, hn⟩ := hF
  refine (instr (i := .loop n) ⟨h, opens, []⟩ (Nat.zero_le _) nofun hbase nofun).imp
    (fun _ _ _ _ => trivial) fun N _ _ _ hR => ⟨?_, nofun⟩
  intro _ y hy
  have hsub : o + (Instr.loop n).size - n.toNat = target := by
    show o + 3 - n.toNat = target
    omega
  rw [Instr.targets, List.mem_singleton, hsub] at hy
  rw [hy]
  exact hR

/-- A value is dropped. -/
theorem pop (hbase : Below opens h) :
    Laid X o #[⟨line, .instr .pop⟩] (o + 1) ⟨h + 1, opens, []⟩ ⟨h, opens, []⟩ (fun _ => True)
      (fun _ => True) := by
  refine (instr (i := .pop) ⟨h + 1, opens, []⟩ ?_ nofun hbase fun _ => .plain rfl).imp
    (fun _ _ _ _ => trivial) fun N _ _ _ _ => ⟨fun _ _ hy => (by cases hy), nofun⟩
  show 1 ≤ h + 1
  omega

/-- The values that `leave` and `discardAbove` drop. -/
theorem pops (line k : Nat) (hbase : Below opens h) :
    Laid X o (Compile.pops line k) (o + k) ⟨h + k, opens, []⟩ ⟨h, opens, []⟩ (fun _ => True)
      (fun _ => True) := by
  induction k generalizing o with
  | zero => exact nil o _
  | succ k ih =>
    have hfirst : Laid X o #[⟨line, .instr .pop⟩] (o + 1) ⟨h + (k + 1), opens, []⟩
        ⟨h + k, opens, []⟩ (fun _ => True) (fun _ => True) :=
          pop (hbase.mono (Nat.le_add_right _ _))
    have hpieces : Compile.pops line (k + 1) = #[⟨line, .instr .pop⟩] ++ Compile.pops line k := by
      apply Array.toList_inj.mp
      simp [Compile.pops, List.replicate_succ]
    rw [hpieces, show o + (k + 1) = o + 1 + k by omega]
    exact (hfirst.seq ih).imp (fun _ _ _ _ => trivial) fun _ _ _ _ _ => ⟨trivial, trivial⟩

theorem opened {t : OpenTry} {target : Nat} (hF : Forward .tryBegin o target F)
    (hbase : Below opens h) (hhandler : t.handler = target) (hstart : t.start = o)
    (hlocals : t.locals.length = h) :
    Laid X o F (o + 3) ⟨h, opens, []⟩ ⟨h, t :: opens, []⟩ (fun _ => True) (fun _ => True) := by
  obtain ⟨line, n, rfl, hsize, rfl⟩ := hF
  refine (instr (i := .tryBegin n) ⟨h, opens, []⟩ (Nat.zero_le _) nofun hbase
    fun _ => .opened rfl hhandler hstart hlocals).imp
    (fun _ _ _ _ => trivial) fun N _ _ _ _ => ⟨nofun, nofun⟩

theorem closed {t : OpenTry} (hbase : Below (t :: opens) h) :
    Laid X o #[⟨line, .instr .tryEnd⟩] (o + 1) ⟨h, t :: opens, []⟩ ⟨h, opens, []⟩ (fun _ => True)
      (fun _ => True) := by
  exact (instr (i := .tryEnd) ⟨h, t :: opens, []⟩ (Nat.zero_le _) nofun hbase
    fun _ => .closed rfl rfl).imp
    (fun _ _ _ _ => trivial) fun N _ _ _ _ => ⟨nofun, nofun⟩

/-- A value that is raised leads to a handler. -/
theorem raise (hbase : Below opens h) (ν' : Note) :
    Laid X o #[⟨line, .instr .raise⟩] (o + 1) ⟨h + 1, opens, []⟩ ν' (fun _ => True)
      (fun N => Recovers N opens) := by
  refine (instr (i := .raise) ⟨h + 1, opens, []⟩ ?_ nofun hbase nofun).imp
    (fun _ _ _ _ => trivial) fun N _ _ _ hR => ⟨fun _ _ hy => (by cases hy), fun _ => hR⟩
  exact Nat.succ_le_succ (Nat.zero_le h)

/-- The function returns. -/
theorem ret (hbase : Below opens h) (ν' : Note) :
    Laid X o #[⟨line, .instr .ret⟩] (o + 1) ⟨h + 1, opens, []⟩ ν' (fun _ => True)
      (fun N => Recovers N opens) := by
  refine (instr (i := .ret) ⟨h + 1, opens, []⟩ ?_ nofun hbase nofun).imp
    (fun _ _ _ _ => trivial) fun N _ _ _ hR => ⟨fun _ _ hy => (by cases hy), fun _ => hR⟩
  exact Nat.succ_le_succ (Nat.zero_le h)

end

/-- A loop body whose exits have been resolved. -/
theorem resolved {K : (Nat → Note) → Prop} {F' : Fragment}
    (h : Laid (redirect X e target) o F o' ν ν' K R) (hF : Resolves e o target F F')
    (hle : o' ≤ target) : Laid X o F' o' ν ν' K R := by
  obtain ⟨hstop, A, hA⟩ := h
  obtain ⟨hpieces, hreach⟩ := hF
  refine ⟨by rw [hstop, hpieces, span_retarget], A, fun N hN hend => ?_⟩
  obtain ⟨hstart, hK, hfits⟩ := hA N hN hend
  refine ⟨hstart, hK, fun hR => ?_⟩
  rw [hpieces]
  refine (hfits hR).retarget hreach (hstop ▸ hle)
    (fun x n hn hp => hp.jump (by rw [hn, redirect_self])) fun x s hs hp => ?_
  cases s with
  | instr i => exact hp
  | exit y => rwa [Step.Fits, redirect_other X fun hy => hs (by rw [hy])] at hp

end Laid

end TaskBasic
