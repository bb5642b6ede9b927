import TaskBasic.Proofs.Code.Layout

/-
The layout of expressions and of statements without blocks.

The code of an expression leaves one value more on the stack (`Pushes.laid`), and
that of a statement the locals that are live behind it (`Acts.laid`).
-/

namespace TaskBasic

open Compile
open Draft (advance_scope advance_offset)

variable {k slot : Nat} {s : Scope} {name : String} {L : List Local}

/-- The number of values that the code of an expression or of parts of one leaves on the stack. -/
def ExprPhrase.count : ExprPhrase → Nat
  | one _ | form _ | call _ _ _ => 1
  | many es => es.length
  | entries es => es.length * 2
  | parts ps => ps.length

section

variable {X : Exit → Nat} {opens : List OpenTry} {D : List Duty} {d d' : Draft}
  {F : Fragment} {ms : List Landmark} {n : Nat}

theorem toNat_narrow (h : k < 256) : (UInt8.ofNat k).toNat = k :=
  UInt8.toNat_ofNat_of_lt' h

theorem toNat_wide (h : k < 65536) : (UInt16.ofNat k).toNat = k :=
  UInt16.toNat_ofNat_of_lt' h

theorem Scope.slot?_lt (h : s.slot? name = some slot) : slot < s.locals.length := by
  rw [Scope.slot?, Option.map_eq_some_iff] at h
  obtain ⟨i, hi, rfl⟩ := h
  have hlt := (List.findIdx?_eq_some_iff_getElem.mp hi).1
  omega

theorem slotIn_slot? (h : slotIn d name = some slot) : d.scope.slot? name = some slot := by
  rw [slotIn] at h
  split at h
  · cases h
  · exact h

theorem toNat_slot_lt (h : slotIn d name = some slot) :
    (UInt16.ofNat slot).toNat < d.scope.locals.length := by
  have hlt := Scope.slot?_lt (slotIn_slot? h)
  have hle : (UInt16.ofNat slot).toNat ≤ slot := by
    rw [UInt16.toNat_ofNat']
    exact Nat.mod_le _ _
  omega

/-- A local that is declared lies on top of the others. -/
theorem declared_height {slot : UInt16} (h : (declare name).run d = .ok (slot, d')) :
    d'.scope.locals.length = d.scope.locals.length + 1 ∧ slot.toNat = d.scope.locals.length ∧
      d'.offset = d.offset := by
  obtain ⟨-, hlt, rfl, rfl⟩ := run_declare_ok.mp h
  exact ⟨rfl, UInt16.toNat_ofNat_of_lt' hlt, rfl⟩

theorem Below.grown {s' : Scope} (h : Below opens s.locals.length) (hs : s.Grown s') :
    Below opens s'.locals.length := by
  obtain ⟨new, hlocals, -⟩ := hs.more
  exact h.mono (List.IsSuffix.length_le ⟨new, hlocals.symm⟩)

/-! ### Expressions -/

/-- Packing keys leaves one value. -/
theorem laid_packing {o : Nat} (line : Nat) (hk : k < 256) (hbase : Below opens n) :
    Flows X opens o (packing line k) (o + Fragment.span (packing line k).toList) (n + k)
      (n + 1) := by
  rw [packing]
  by_cases h : k = 1
  · rw [if_pos h, h]
    exact (Laid.nil o _).imp (fun _ _ _ _ => trivial) fun _ _ _ _ _ => trivial
  · rw [if_neg h]
    exact Laid.gathers hbase rfl rfl (toNat_narrow hk) rfl rfl

/-- The code of an expression leaves one value more on the stack. -/
theorem Pushes.laid {p : ExprPhrase} (h : Pushes D p d F d' ms) (hn : d.scope.locals.length ≤ n)
    (hbase : Below opens n) :
    Laid X d.offset F d'.offset ⟨n, opens, []⟩ ⟨n + p.count, opens, []⟩ (Marked .stack ms)
      (fun N => Recovers N opens) := by
  induction h generalizing n with
  | one _ ih =>
    refine (ih hn hbase).imp (fun N hstart hstop hK => ?_) fun _ _ _ _ hR => hR
    refine marked_cons.mpr ⟨⟨?_, ?_, ?_⟩, hK⟩
    · rw [hstart.height]
      exact hn
    · rw [hstop.height, hstart.height]
      rfl
    · rw [hstop.opens, hstart.opens]
  | @pooled e v d index d' _ hc =>
    have hoff : d'.offset = d.offset := constant_offset hc
    rw [advance_offset, hoff]
    exact (Laid.plain hbase rfl rfl (Nat.le_refl _) rfl rfl).unmarked
  | absent => exact (Laid.plain hbase rfl rfl (Nat.le_refl _) rfl rfl).unmarked
  | fstring hlt _ ih | array hlt _ ih =>
    exact (ih hn hbase).more (Laid.gathers hbase rfl rfl (toNat_wide hlt) rfl rfl)
  | readLocal hslot =>
    exact (Laid.read hbase (Nat.lt_of_lt_of_le (toNat_slot_lt hslot) hn)).unmarked
  | @readGlobal name d index d1 _ hc =>
    have hoff : d1.offset = d.offset := constant_offset hc
    rw [advance_offset, hoff]
    exact (Laid.plain hbase rfl rfl (Nat.le_refl _) rfl rfl).unmarked
  | @binary op a b d F d1 ms G d2 ns ha _ iha ihb =>
    have hright := ihb (n := n + 1) (by rw [ha.emitted.scope]; omega) (hbase.mono (by omega))
    exact ((iha hn hbase).append hright).more
      (Laid.plain hbase rfl (Instr.size_binary op) (Nat.le_refl _) rfl rfl)
  | neg _ ih | not _ ih | awaitCall _ ih | await _ ih =>
    exact (ih hn hbase).more (Laid.plain hbase rfl rfl (Nat.le_refl _) rfl rfl)
  | @and a b d F d1 ms skip G d2 ns out index d3 ha hskip hb hout hc iha ihb =>
    have hleft := iha hn hbase
    have hbranch := Laid.branch (X := X) (.inl rfl) hskip hbase
    have hright := ihb (n := n) (by rw [advance_scope, ha.emitted.scope]; exact hn) hbase
    have htruth : Flows X opens d2.offset #[⟨d2.line, .instr .toBool⟩] (d2.offset + 1) (n + 1)
        (n + 1) :=
      Laid.plain hbase rfl rfl (Nat.le_refl _) rfl rfl
    -- The jump over the constant is always taken, so the constant begins one value lower.
    have hjump := Laid.jump (X := X) hout
      (hbase.mono (Nat.le_succ n)) ⟨n, opens, []⟩
    have hno : Flows X opens (d2.offset + 4) #[⟨d2.line, .instr (.constant index)⟩]
        (d2.offset + 7) n (n + 1) :=
      Laid.plain hbase rfl rfl (Nat.le_refl _) rfl rfl
    have hend : d3.offset + 3 = d2.offset + 7 := by
      have hoff : d3.offset = d2.offset + 4 := constant_offset hc
      omega
    rw [advance_offset, hend]
    simp only [Array.append_assoc]
    refine (hleft.seq (hbranch.seq (hright.seq (htruth.seq (hjump.seq hno))))).imp ?_ ?_
    · rintro N - - ⟨hms, -, -, -, hns, -⟩
      exact marked_append.mpr ⟨hms, hns⟩
    · rintro N - hstop ⟨-, -, -, -, -, -, -, -, -, hno, -⟩ hR
      exact ⟨hR, ⟨hno, hR⟩, hR, hR, hstop, hR⟩
  | @or a b d F d1 ms skip index d2 out G d3 ns ha hskip hc hout hb iha ihb =>
    have hoff : d2.offset = d1.offset + 3 := constant_offset hc
    have hstart : (d2.advance 6).offset = d1.offset + 9 := by rw [advance_offset, hoff]
    have hscope : (d2.advance 6).scope = d.scope := by
      rw [advance_scope, (emitted_constant hc trivial).scope, advance_scope,
        ha.emitted.scope]
    have hleft := iha hn hbase
    have hbranch := Laid.branch (X := X) (.inl rfl) hskip hbase
    have hyes : Flows X opens (d1.offset + 3) #[⟨d1.line, .instr (.constant index)⟩]
        (d1.offset + 6) n (n + 1) :=
      Laid.plain hbase rfl rfl (Nat.le_refl _) rfl rfl
    have hjump := Laid.jump (X := X) hout
      (hbase.mono (Nat.le_succ n)) ⟨n, opens, []⟩
    have hright := ihb (n := n) (by rw [hscope]; exact hn) hbase
    rw [hstart] at hright
    have htruth : Flows X opens d3.offset #[⟨d3.line, .instr .toBool⟩] (d3.offset + 1) (n + 1)
        (n + 1) :=
      Laid.plain hbase rfl rfl (Nat.le_refl _) rfl rfl
    simp only [Array.append_assoc]
    refine (hleft.seq (hbranch.seq (hyes.seq (hjump.seq (hright.seq htruth))))).imp ?_ ?_
    · rintro N - - ⟨hms, -, -, -, -, -, -, -, hns, -⟩
      exact marked_append.mpr ⟨hms, hns⟩
    · rintro N - hstop ⟨-, -, -, -, -, -, -, hright, -⟩ hR
      exact ⟨hR, ⟨hright, hR⟩, hR, hstop, hR, hR⟩
  | called _ ih | spawned _ ih => exact ih hn hbase
  | @byName spawning callee name args d index d1 F d2 ms _ hlt hc h ih =>
    have hemitted := emitted_constant hc trivial
    have hargs := ih (n := n) (by rw [hemitted.scope]; exact hn) hbase
    rw [constant_offset hc] at hargs
    have htakes : (namedCall spawning index args.length).takes = args.length := by
      cases spawning <;> exact toNat_narrow hlt
    refine hargs.more (Laid.gathers hbase ?_ (size_namedCall _ _ _) htakes ?_ ?_)
    all_goals cases spawning <;> rfl
  | @byValue spawning callee args d F d1 ms G d2 ns _ hlt ha _ iha ihb =>
    have hargs := ihb (n := n + 1) (by rw [ha.emitted.scope]; omega) (hbase.mono (by omega))
    have htakes : (directCall spawning args.length).takes = args.length + 1 := by
      cases spawning <;> exact congrArg (· + 1) (toNat_narrow hlt)
    refine ((iha hn hbase).append hargs).more (Laid.plain hbase ?_ (size_directCall _ _) ?_ ?_ ?_)
    · cases spawning <;> rfl
    · rw [htakes]
      show n + (args.length + 1) ≤ n + 1 + args.length
      omega
    · rw [htakes]
      have hgives : (directCall spawning args.length).gives = 1 := by cases spawning <;> rfl
      rw [hgives]
      show n + 1 = n + 1 + args.length - (args.length + 1) + 1
      omega
    · cases spawning <;> rfl
  | @index object keys d F d1 ms G d2 ns ha _ hlt iha ihb =>
    have hkeys := ihb (n := n + 1) (by rw [ha.emitted.scope]; omega) (hbase.mono (by omega))
    have hpack := laid_packing (X := X) (o := d2.offset) d2.line hlt
      (hbase.mono (Nat.le_succ n))
    exact (((iha hn hbase).append hkeys).more hpack).more
      (Laid.plain hbase rfl rfl (Nat.le_refl _) rfl rfl)
  | dict hlt _ ih =>
    have htakes := congrArg (· * 2) (toNat_wide hlt)
    exact (ih hn hbase).more (Laid.gathers hbase rfl rfl htakes rfl rfl)
  | manyNil | entriesNil | partsNil => exact .empty _ _
  | @manyCons e es d F d1 ms G d2 ns ha _ ih ihs =>
    have hrest := ihs (n := n + 1) (by rw [ha.emitted.scope]; omega) (hbase.mono (by omega))
    have hcount : n + (ExprPhrase.many (e :: es)).count = n + 1 + es.length := by
      show n + (es.length + 1) = n + 1 + es.length
      omega
    rw [hcount]
    exact (ih hn hbase).append hrest
  | @entriesCons key value es d F d1 ms G d2 ns H d3 os hk hv _ ihk ihv ihs =>
    have hvalue := ihv (n := n + 1) (by rw [hk.emitted.scope]; omega) (hbase.mono (by omega))
    have hrest := ihs (n := n + 1 + 1) (by rw [hv.emitted.scope, hk.emitted.scope]; omega)
      (hbase.mono (by omega))
    have hcount : n + (ExprPhrase.entries ((key, value) :: es)).count =
        n + 1 + 1 + es.length * 2 := by
      show n + (es.length + 1) * 2 = n + 1 + 1 + es.length * 2
      omega
    rw [hcount]
    exact ((ihk hn hbase).append hvalue).append hrest
  | @partsText s ps d index d1 F d2 ms hc _ ih =>
    have hemitted := emitted_constant hc trivial
    have hrest := ih (n := n + 1) (by rw [advance_scope, hemitted.scope]; omega)
      (hbase.mono (by omega))
    have hcount : n + (ExprPhrase.parts (.text s :: ps)).count = n + 1 + ps.length := by
      show n + (ps.length + 1) = n + 1 + ps.length
      omega
    rw [advance_offset, constant_offset hc] at hrest
    rw [hcount]
    exact Laid.before (Laid.plain hbase rfl rfl (Nat.le_refl _) rfl rfl) hrest
  | @partsCode e ps d F d1 ms G d2 ns ha _ ih ihs =>
    have hrest := ihs (n := n + 1) (by rw [ha.emitted.scope]; omega) (hbase.mono (by omega))
    have hcount : n + (ExprPhrase.parts (.code e :: ps)).count = n + 1 + ps.length := by
      show n + (ps.length + 1) = n + 1 + ps.length
      omega
    rw [hcount]
    exact (ih hn hbase).append hrest

/-- The locals that a source reads are among the first `n`. -/
def Source.InReach (n : Nat) : Source → Prop
  | item each index => each.toNat < n ∧ index.toNat < n
  | _ => True

theorem Yields.laid {source : Source} (h : Yields D source d F d' ms) (hsource : source.InReach n)
    (hn : d.scope.locals.length ≤ n) (hbase : Below opens n) :
    Laid X d.offset F d'.offset ⟨n, opens, []⟩ ⟨n + 1, opens, []⟩ (Marked .stack ms)
      (fun N => Recovers N opens) := by
  cases h with
  | expr h => exact h.laid hn hbase
  | input | readData => exact (Laid.plain hbase rfl rfl (Nat.le_refl _) rfl rfl).unmarked
  | prompt h => exact (h.laid hn hbase).more (Laid.plain hbase rfl rfl (Nat.le_refl _) rfl rfl)
  | newArray hlt h =>
    exact (h.laid hn hbase).more (Laid.gathers hbase rfl rfl (toNat_narrow hlt) rfl rfl)
  | @item each index _ =>
    have hfirst : Flows X opens d.offset #[⟨d.line, .instr (.getLocal each)⟩] (d.offset + 3) n
        (n + 1) :=
      Laid.read hbase hsource.1
    have hsecond : Flows X opens (d.offset + 3) #[⟨d.line, .instr (.getLocal index)⟩]
        (d.offset + 6) (n + 1) (n + 2) :=
      Laid.read (hbase.mono (Nat.le_succ n)) (Nat.lt_succ_of_lt hsource.2)
    exact (hfirst.unmarked.more hsecond).more (Laid.plain hbase rfl rfl (Nat.le_refl _) rfl rfl)

end

section

variable {X : Exit → Nat} {site : Site} {opens : List OpenTry} {d d' : Draft}
  {F : Fragment} {ms : List Landmark}

/-! ### Assignments -/

/-- A value on top of the locals is dropped. -/
theorem laid_pop {o line n : Nat} (hbase : Below opens n) :
    Flows X opens o #[⟨line, .instr .pop⟩] (o + 1) (n + 1) n :=
  (Laid.pop hbase).asks fun _ _ => trivial

/-- The code that stores a value leaves the stack with the locals that are live behind it. -/
theorem Stores.laid {target : Target} {source : Source} (h : Stores site target source d F d' ms)
    (hsource : source.InReach d.scope.locals.length) (hbase : Below opens d.scope.locals.length) :
    Laid X d.offset F d'.offset ⟨d.scope.locals.length, opens, []⟩
      ⟨d'.scope.locals.length, opens, []⟩ (Marked .stack ms)
      (fun N => Recovers N opens) := by
  cases h with
  | @toLocal name _ _ F d1 _ slot h hslot =>
    have hscope : d1.scope = d.scope := h.emitted.scope
    have hlt := toNat_slot_lt hslot
    rw [hscope] at hlt
    have hset : Flows X opens d1.offset
        #[⟨d1.line, .instr (.setLocal (UInt16.ofNat slot))⟩] (d1.offset + 3)
          (d.scope.locals.length + 1) (d.scope.locals.length + 1) := Laid.write hbase hlt
    rw [advance_scope, hscope]
    exact ((h.laid hsource (Nat.le_refl _) hbase).more hset).more (laid_pop hbase)
  | toNew h _ _ hd =>
    obtain ⟨hheight, -, hoff⟩ := declared_height hd
    rw [hheight, hoff, h.emitted.scope]
    exact h.laid hsource (Nat.le_refl _) hbase
  | @toGlobal name _ _ F d1 _ index d2 h _ _ hc =>
    have hconstant := emitted_constant hc trivial
    have hscope : (d2.advance 4).scope = d.scope := by
      rw [advance_scope, hconstant.scope, h.emitted.scope]
    have hset : Flows X opens d1.offset #[⟨d1.line, .instr (.setGlobal index)⟩]
        (d1.offset + 3) (d.scope.locals.length + 1) (d.scope.locals.length + 1) :=
      Laid.plain hbase rfl rfl (Nat.le_refl _) rfl rfl
    rw [hscope, advance_offset, constant_offset hc]
    exact ((h.laid hsource (Nat.le_refl _) hbase).more hset).more (laid_pop hbase)
  | @toElement _ keys _ _ F d1 ms G d2 ns H d3 os ho hk hlt hv =>
    have hscope2 : d2.scope = d.scope := hk.emitted.scope.trans ho.emitted.scope
    have hscope : (d3.advance 2).scope = d.scope := hv.emitted.scope.trans hscope2
    rw [hscope]
    -- The object, the packed keys and the value lie above the locals.
    have hobject := ho.laid (X := X) (Nat.le_refl _) hbase
    have hkeys := hk.laid (X := X) (n := d.scope.locals.length + 1)
      (by rw [ho.emitted.scope]; exact Nat.le_succ _) (hbase.mono (Nat.le_succ _))
    have hpack := laid_packing (X := X) (o := d2.offset) d2.line hlt
      (hbase.mono (Nat.le_succ d.scope.locals.length))
    have hbase2 : Below opens (d.scope.locals.length + 2) :=
      hbase.mono (Nat.le_add_right _ _)
    have hvalue := hv.laid (X := X) ?_ ?_ hbase2
    · have hset : Flows X opens d3.offset #[⟨d3.line, .instr .setIndex⟩]
          (d3.offset + 1) (d.scope.locals.length + 2 + 1) (d.scope.locals.length + 1) :=
        Laid.plain hbase rfl rfl (Nat.le_refl _) rfl rfl
      have hall := (((hobject.append hkeys).more hpack).append hvalue).more hset
      exact hall.more (laid_pop hbase)
    · cases source with
      | item each index => exact ⟨Nat.lt_add_right 2 hsource.1, Nat.lt_add_right 2 hsource.2⟩
      | _ => trivial
    · rw [advance_scope, hscope2]
      exact Nat.le_add_right _ _

theorem StoresAll.laid {stores : List (Target × Source)} (h : StoresAll site stores d F d' ms)
    (hsource : ∀ x ∈ stores, ∀ n, x.2.InReach n) (hbase : Below opens d.scope.locals.length) :
    Laid X d.offset F d'.offset ⟨d.scope.locals.length, opens, []⟩
      ⟨d'.scope.locals.length, opens, []⟩ (Marked .stack ms)
      (fun N => Recovers N opens) := by
  induction h with
  | nil => exact .empty _ _
  | cons h _ ih =>
    obtain ⟨hfirst, hrest⟩ := List.forall_mem_cons.mp hsource
    exact (h.laid (X := X) (hfirst _) hbase).append (ih hrest (hbase.grown h.grows.scope))

theorem Ensures.laid (h : Ensures site name d F d') (hbase : Below opens d.scope.locals.length) :
    Flows X opens d.offset F d'.offset d.scope.locals.length d'.scope.locals.length
      := by
  cases h with
  | place _ _ hd =>
    obtain ⟨hheight, -, hoff⟩ := declared_height hd
    rw [hheight, hoff]
    exact Laid.plain hbase rfl rfl (Nat.le_refl _) rfl rfl
  | nothing _ => exact (Laid.nil _ _).asks fun _ _ => trivial

/-- A match jumps behind the tests, and a miss to `next`, both with the same values on the
stack. -/
theorem Tests.laid {D : List Duty} {subject : UInt16} {next n : Nat} {values : List Expr}
    (h : Tests D subject next values d F d' ms) (hsubject : subject.toNat < n)
    (hn : d.scope.locals.length ≤ n) (hbase : Below opens n) :
    Laid X d.offset F d'.offset ⟨n, opens, []⟩ ⟨n, opens, []⟩ (Marked .stack ms)
      (fun N => Arrives .stack N next ⟨n, opens, []⟩ ∧ Recovers N opens) := by
  induction h with
  | nil hmiss =>
    exact (Laid.jump hmiss hbase _).imp (fun _ _ _ _ => marked_nil) fun _ _ _ _ hR => hR.1
  | @cons value rest d F d1 ms hit G d2 ns hv hhit _ ih =>
    have hget : Flows X opens d.offset #[⟨d.line, .instr (.getLocal subject)⟩] (d.offset + 3) n
        (n + 1) :=
      Laid.read hbase hsubject
    have hvalue := hv.laid (X := X) (Nat.le_succ_of_le hn) (hbase.mono (Nat.le_succ n))
    have heq : Flows X opens d1.offset #[⟨d1.line, .instr (.binary .eq)⟩] (d1.offset + 1)
        (n + 1 + 1) (n + 1) :=
      Laid.plain hbase rfl rfl (Nat.le_refl _) rfl rfl
    have hbranch := Laid.branch (X := X) (.inr rfl) hhit hbase
    have hrest := ih (by rw [advance_scope, hv.emitted.scope]; exact hn)
    simp only [Array.append_assoc]
    refine (hget.seq (hvalue.seq (heq.seq (hbranch.seq hrest)))).imp ?_ ?_
    · rintro N - - ⟨-, -, hms, -, -, -, -, -, hns⟩
      exact marked_append.mpr ⟨hms, hns⟩
    · rintro N - hstop - hR
      exact ⟨hR.2, hR.2, hR.2, ⟨hstop, hR.2⟩, hR⟩

/-! ### Simple statements -/

/-- The code of a simple statement leaves the stack with the locals that are live behind it. -/
theorem Acts.laid {k : StmtKind} (h : Acts site k d F d' ms)
    (hbase : Below opens d.scope.locals.length) :
    Laid X d.offset F d'.offset ⟨d.scope.locals.length, opens, []⟩
      ⟨d'.scope.locals.length, opens, []⟩ (Marked .stack ms)
      (fun N => Recovers N opens) := by
  cases h with
  | @eval e _ F d1 _ h | @spawn callee args _ F d1 _ h =>
    rw [advance_scope, h.emitted.scope]
    exact (h.laid (Nat.le_refl _) hbase).more (laid_pop hbase)
  | assign h | input h => exact h.laid trivial hbase
  | declareLocal _ hd =>
    obtain ⟨hheight, -, hoff⟩ := declared_height hd
    rw [hheight, hoff]
    exact (Laid.plain hbase rfl rfl (Nat.le_refl _) rfl rfl).unmarked
  | @declareGlobal name _ index d1 _ hc =>
    have hscope : (d1.advance 4).scope = d.scope := (emitted_constant hc trivial).scope
    have habsent : Flows X opens d.offset #[⟨d.line, .instr .pushAbsent⟩]
        (d.offset + 1) d.scope.locals.length (d.scope.locals.length + 1) :=
      Laid.plain hbase rfl rfl (Nat.le_refl _) rfl rfl
    have hset : Flows X opens (d.offset + 1) #[⟨d.line, .instr (.setGlobal index)⟩]
        (d.offset + 4) (d.scope.locals.length + 1) (d.scope.locals.length + 1) :=
      Laid.plain hbase rfl rfl (Nat.le_refl _) rfl rfl
    rw [hscope, advance_offset, constant_offset hc]
    exact (habsent.unmarked.more hset).more (laid_pop hbase)
  | print hlt h =>
    rw [advance_scope, h.emitted.scope]
    exact (h.laid (Nat.le_refl _) hbase).more
      (Laid.gathers (g := 0) hbase rfl rfl (toNat_narrow hlt) rfl rfl)
  | dim h | read h =>
    refine h.laid (fun x hx n => ?_) hbase
    obtain ⟨_, -, rfl⟩ := List.mem_map.mp hx
    trivial
  | data | global _ => exact .empty _ _
  | restore => exact (Laid.plain hbase rfl rfl (Nat.le_refl _) rfl rfl).unmarked
  | @importModule path _ index d1 hc =>
    have hscope : (d1.advance 5).scope = d.scope := (emitted_constant hc trivial).scope
    have hload : Flows X opens d.offset #[⟨d.line, .instr (.importModule index)⟩]
        (d.offset + 3) d.scope.locals.length (d.scope.locals.length + 1) :=
      Laid.plain hbase rfl rfl (Nat.le_refl _) rfl rfl
    have hawait : Flows X opens (d.offset + 3) #[⟨d.line, .instr .await⟩]
        (d.offset + 4) (d.scope.locals.length + 1) (d.scope.locals.length + 1) :=
      Laid.plain hbase rfl rfl (Nat.le_refl _) rfl rfl
    rw [hscope, advance_offset, constant_offset hc]
    exact (hload.unmarked.more hawait).more (Laid.plain hbase rfl rfl (Nat.le_refl _) rfl rfl)
  | raise h => exact (h.laid (Nat.le_refl _) hbase).more (Laid.raise hbase _)
  | @debug e text _ F d1 _ index d2 h hc =>
    have hscope : (d2.advance 3).scope = d.scope :=
      (emitted_constant hc trivial).scope.trans h.emitted.scope
    rw [hscope, advance_offset, constant_offset hc]
    exact (h.laid (Nat.le_refl _) hbase).more (Laid.plain hbase rfl rfl (Nat.le_refl _) rfl rfl)

end

end TaskBasic
