import TaskBasic.Proofs.Code.Pieces
import TaskBasic.Proofs.Machine.Poised

/-
The code of an expression computes its value.

* `Pushes.works` — the code of an expression delivers its value, by induction on
  the rules that the code comes about by; one lemma for each way in which values
  are put together.
* `expression_computes` — the code that the compiler makes of an expression
  computes its value, and changes nothing that was there before.
-/

namespace TaskBasic

variable {e x y : Expr} {v : Value} {α : Type} {line o o' start stop target : Nat} {A B : Fragment}
  {d d' d1 d2 d3 : Draft} {p : ExprPhrase} {index : UInt16}

section

variable {env : Env} {m : Machine} {f : Frame} {F : List Frame} {g : Function} {h h' : Heap}
  {S S' : Array Value} {ip next : Nat} {i : Instr}

/-! ### The code of expressions -/

/-- The values that a phrase pushes, the first one first. -/
def ExprPhrase.values (read : String → Except Failure Value) : ExprPhrase → Eval (List Value)
  | .one e | .form e => (fun v => [v]) <$> e.value read
  | .many es => id <$> Expr.values read es
  | .entries es => Exec.inTurn <$> Expr.entryValues read es
  | .parts ps => id <$> FPart.values read ps
  | .call _ _ _ => throw .beyond

theorem Expr.value_of_pooled? (he : e.pooled? = some v) (read : String → Except Failure Value)
    (h : Heap) : (e.value read).run h = .ok v h := by
  unfold Expr.pooled? at he
  split at he
  case h_5 | h_6 =>
    obtain ⟨x, hx, rfl⟩ := Option.map_eq_some_iff.mp he
    exact Expr.value_of_fold? read hx h
  case h_7 => cases he
  all_goals
    cases he
    rw [Expr.value]
    rfl

theorem Heap.Grows.function {h h' : Heap} (hh : h.Grows h') (r : FunctionRef) :
    h'.function r = h.function r := by
  rw [Heap.function, Heap.function, hh.functions]

theorem Eval.Growing.function {x : Eval α} (hx : x.Growing) {h h' : Heap} {a : α}
    (ha : x.run h = .ok a h') (r : FunctionRef) : h'.function r = h.function r := by
  have hgrows := hx.grows h
  rw [ha] at hgrows
  exact hgrows.function r

theorem Fragment.Sits.split {code : Array UInt8} {exits : Exit → Nat}
    (hs : Fragment.Sits code exits o (A ++ B).toList) (ho : o' = o + Fragment.span A.toList) :
    Fragment.Sits code exits o A.toList ∧ Fragment.Sits code exits o' B.toList := by
  rw [Array.toList_append] at hs
  exact ho ▸ Fragment.each_append.mp hs

theorem Fragment.Sits.decode {code : Array UInt8} {exits : Exit → Nat} {i : Instr}
    (hs : Fragment.Sits code exits o #[(⟨line, .instr i⟩ : Piece)].toList) (ho : o' = o + i.size) :
    TaskBasic.decode code o = .ok (i, o') := by
  rw [ho]
  exact hs.1

/-- The code of a phrase delivers its values. -/
def ExprPhrase.Works (env : Env) (m : Machine) (f : Frame) (F : List Frame) (g : Function)
    (exits : Exit → Nat) (b : Bindings) (p : ExprPhrase) (d : Draft) (A : Fragment) (d' : Draft) :
    Prop :=
  ∀ (h : Heap) (S : Array Value), h.function f.function = g → b.Match d f.base S →
    Fragment.Sits g.chunk.code exits d.offset A.toList →
    Extends d'.constants g.chunk.constants →
    Delivers env m f F d.offset S h d'.offset S ((p.values b.read).run h)

variable {exits : Exit → Nat} {b : Bindings}

theorem Forward.decode {make : UInt16 → Instr} (hj : Forward make o' target A)
    (hs : Fragment.Sits g.chunk.code exits o A.toList) (ho : o = o') :
    ∃ n, decode g.chunk.code o = .ok (make n, o + 3) ∧ o + 3 + n.toNat = target := by
  obtain ⟨line, n, rfl, hsize, htarget⟩ := hj
  refine ⟨n, hs.decode (by rw [hsize]), ?_⟩
  rw [ho]
  exact htarget

open Compile in
/-- Both operands of a binary operator are computed, the left one first. -/
theorem works_binary {op : BinaryOp} (hx : Emitted d A d1) (hy : Emitted d1 B d2)
    (ihx : ExprPhrase.Works env m f F g exits b (.one x) d A d1)
    (ihy : ExprPhrase.Works env m f F g exits b (.one y) d1 B d2) :
    ExprPhrase.Works env m f F g exits b (.form (.binary op x y)) d
      (A ++ B ++ #[⟨line, .instr (.binary op)⟩]) (d2.advance 1) := by
  intro h S hg hmatch hs hpool
  obtain ⟨hs, hop⟩ := hs.split (hx.trans hy).offset
  obtain ⟨hsx, hsy⟩ := hs.split hx.offset
  rw [ExprPhrase.values, Expr.value, map_bind]
  refine .bind (ihx h S hg hmatch hsx (hy.pool.trans hpool)) fun v h1 hv => ?_
  have hg1 := ((x.value_grows b.read).function hv _).trans hg
  rw [map_bind]
  refine .above [v] (ihy h1 _ hg1 ((hmatch.emitted hx).append _) hsy hpool) fun w h2 hw => ?_
  have hg2 := ((y.value_grows b.read).function hw _).trans hg1
  exact .replaces hg2 (hop.decode (by rw [Instr.size_binary]; rfl)) (Exec.replaces_binary op v w)

/-- Some operands are computed, one after the other, and replaced by what the instruction makes of
them. -/
theorem works_gathered {x : Eval α} {values : α → List Value} {make : α → Eval Value} {n : Nat}
    (he : e.value b.read = x >>= make) (hp : p.values b.read = values <$> x) (hgrows : x.Growing)
    (hsize : i.size = n)
    (hi : ∀ a h h', x.run h = .ok a h' → Exec.Replaces env i (values a) (make a))
    (hx : Emitted d A d1) (ih : ExprPhrase.Works env m f F g exits b p d A d1) :
    ExprPhrase.Works env m f F g exits b (.form e) d (A ++ #[⟨line, .instr i⟩]) (d1.advance n) := by
  intro h S hg hmatch hs hpool
  obtain ⟨hsx, hop⟩ := hs.split hx.offset
  have hvalues := ih h S hg hmatch hsx hpool
  rw [hp] at hvalues
  rw [ExprPhrase.values, he, map_bind]
  refine .bind hvalues fun a h1 ha => ?_
  have hg1 := (hgrows.function ha _).trans hg
  exact .replaces hg1 (hop.decode (by rw [hsize]; rfl)) (hi a h h1 ha)

open Compile in
/-- The keys of a subscript are packed into a tuple, unless there is just one. -/
theorem works_index {object : Expr} {keys : List Expr} (ho : Emitted d A d1)
    (hk : Emitted d1 B d2) (hkeys : keys.length < 256)
    (iho : ExprPhrase.Works env m f F g exits b (.one object) d A d1)
    (ihk : ExprPhrase.Works env m f F g exits b (.many keys) d1 B d2) :
    ExprPhrase.Works env m f F g exits b (.form (.index object keys)) d
      (A ++ B ++ packing d2.line keys.length ++ #[⟨d2.line, .instr .getIndex⟩])
      (d2.advance (Fragment.span (packing d2.line keys.length).toList + 1)) := by
  intro h S hg hmatch hs hpool
  obtain ⟨hs, hget⟩ := hs.split ((ho.trans hk).trans (.advance d2 rfl)).offset
  obtain ⟨hs, hpack⟩ := hs.split (ho.trans hk).offset
  obtain ⟨hso, hsk⟩ := hs.split ho.offset
  rw [ExprPhrase.values, Expr.value, map_bind]
  refine .bind (iho h S hg hmatch hso (hk.pool.trans hpool)) fun o h1 hv => ?_
  have hg1 := ((object.value_grows b.read).function hv _).trans hg
  rw [map_bind]
  refine .above [o] (ihk h1 _ hg1 ((hmatch.emitted ho).append _) hsk hpool) fun vs h2 hvs => ?_
  have hg2 := ((Expr.values_grows b.read keys).function hvs _).trans hg1
  have hlength := Expr.length_values hvs
  rw [packing] at hpack hget ⊢
  by_cases hone : keys.length = 1
  · -- the key itself stands on the stack
    obtain ⟨key, rfl⟩ : ∃ key, vs = [key] := List.length_eq_one_iff.mp (hlength.trans hone)
    rw [if_pos hone] at hget ⊢
    refine .replaces hg2 (hget.decode rfl) (Exec.replaces_getIndex fun h => ?_)
    rw [List.foldlM_cons]
    cases h.get o key <;> rfl
  · rw [if_neg hone] at hget hpack ⊢
    have hpacked : Exec.Replaces env (.buildTuple (UInt8.ofNat vs.length)) vs (return .tuple vs) :=
      Exec.replaces_buildTuple (by omega)
    rw [hlength] at hpacked
    have htuple : Steps env (m.poised f F d2.offset h2 (S ++ [o].toArray ++ vs.toArray))
        (m.poised f F (d2.offset + 2) h2 (S ++ [o].toArray ++ [Value.tuple vs].toArray)) :=
      Delivers.replaces hg2 (hpack.decode rfl) hpacked
    rw [Array.append_assoc, Array.append_assoc, List.append_toArray [o] vs,
      List.append_toArray [o] [Value.tuple vs]] at htuple
    refine .after htuple (.replaces hg2 (hget.decode rfl) (Exec.replaces_getIndex fun h => ?_))
    exact Exec.getEach_eq h o vs

/-- The function has a constant that the code of a phrase names. -/
theorem Extends.constant_at {n : Nat} {pool : Array Value}
    (hpool : Extends (d1.advance n).constants pool)
    (hconst : (Compile.constant v).run d = .ok (index, d1)) : pool[index.toNat]? = some v := by
  have hat := Compile.constant_at hconst
  exact hpool _ _ hat

theorem Delivers.readGlobal {name : String} (hg : h.function f.function = g)
    (hi : decode g.chunk.code start = .ok (.getGlobal index, stop))
    (hv : g.chunk.constants[index.toNat]? = some (.str name))
    (hglobals : m.program.globals = b.globals) : Delivers env m f F start S h stop S
      (((fun v => [v]) <$> Eval.ofExcept (b.readGlobal name)).run h) := by
  have hrun : (Exec.execute env (.getGlobal index)).run (m.poised f F stop h S) = _ :=
    Exec.run_getGlobal_poised hg hv hglobals
  cases hread : b.readGlobal name with
  | ok v =>
    rw [hread] at hrun
    exact .pushed hg hi hrun
  | error cause =>
    rw [hread] at hrun
    refine ⟨_, stop, #[], Relation.ReflTransGen.refl, ?_⟩
    rw [run_step hg hi, hrun, Array.append_empty]

/-- A value that is replaced by its truth. -/
theorem Delivers.toBool {x : Eval Value} {mid : Nat} {S0 : Array Value}
    (hx : Delivers env m f F start S0 h mid S (((fun v => [v]) <$> x).run h)) (hgrows : x.Growing)
    (hg : h.function f.function = g) (hi : decode g.chunk.code mid = .ok (.toBool, stop)) :
    Delivers env m f F start S0 h stop S (((fun v => [v]) <$> (do
      let y ← x
      return Value.ofBool (← Eval.isTrue y))).run h) := by
  rw [map_bind]
  refine .bind hx fun v h' hv => ?_
  exact .replaces ((hgrows.function hv _).trans hg) hi (Exec.replaces_toBool v)

theorem Delivers.branch {r : EStateM.Result Stop Heap (List Value)} {n : UInt16}
    (hg : h.function f.function = g)
    (hi : decode g.chunk.code start = .ok (.jumpIfFalse n, start + 3))
    (htarget : start + 3 + n.toNat = target)
    (hr : Delivers env m f F (if h.isTrue v then start + 3 else target) S h stop S r) :
    Delivers env m f F start (S ++ [v].toArray) h stop S r := by
  refine .step hg hi (Exec.run_jumpIfFalse_poised n v) ?_
  rw [htarget]
  exact hr

theorem Delivers.jumping {r : EStateM.Result Stop Heap (List Value)} {mid : Nat} {n : UInt16}
    {S0 : Array Value} (hr : Delivers env m f F start S0 h mid S r)
    (hg : ∀ vs h', r = .ok vs h' → h'.function f.function = g)
    (hi : decode g.chunk.code mid = .ok (.jump n, mid + 3)) (htarget : mid + 3 + n.toNat = target) :
    Delivers env m f F start S0 h target S r := by
  match r, hr with
  | .ok vs h', hr =>
    refine Relation.ReflTransGen.tail hr ⟨?_, rfl⟩
    rw [run_step (hg vs h' rfl) hi, Exec.run_jump_poised, htarget]
  | .error (.fault e) h', hr => exact hr
  | .error .beyond _, _ => trivial

theorem Eval.Growing.function_map {β : Type} {x : Eval α} {k : α → β} (hx : x.Growing)
    {h h' : Heap} {y : β} (hy : (k <$> x).run h = .ok y h') (r : FunctionRef) :
    h'.function r = h.function r := by
  rw [Eval.run_map] at hy
  cases hrun : x.run h with
  | ok a h1 =>
    rw [hrun] at hy
    cases hy
    exact hx.function hrun r
  | error e h1 =>
    rw [hrun] at hy
    cases hy

/-- The truth of a value, as `and` and `or` give it. -/
theorem Eval.Growing.toBool {x : Eval Value} (hx : x.Growing) : Eval.Growing (do
    let y ← x
    return Value.ofBool (← Eval.isTrue y)) :=
  .bind hx fun _ => .bind (.isTrue _) fun _ => .pure _

open Compile in
/-- The right operand of `and` is computed only if the left one is true. -/
theorem works_and {skip out : Fragment} {line' : Nat} (hx : Emitted d A d1)
    (hskip : Forward .jumpIfFalse d1.offset (d2.offset + 4) skip)
    (hy : Emitted (d1.advance 3) B d2) (hout : Forward .jump (d2.offset + 1) (d2.offset + 7) out)
    (hconst : (constant (.int 0)).run (d2.advance 4) = .ok (index, d3))
    (ihx : ExprPhrase.Works env m f F g exits b (.one x) d A d1)
    (ihy : ExprPhrase.Works env m f F g exits b (.one y) (d1.advance 3) B d2) :
    ExprPhrase.Works env m f F g exits b (.form (.and x y)) d
      (A ++ skip ++ B ++ #[⟨line, .instr .toBool⟩] ++ out ++ #[⟨line', .instr (.constant index)⟩])
      (d3.advance 3) := by
  intro h S hg hmatch hs hpool
  have hxs := hx.trans (hskip.emitted d1)
  have hxy := hxs.trans hy
  have hbool : Emitted d (A ++ skip ++ B ++ #[⟨line, .instr .toBool⟩]) (d2.advance 1) :=
    hxy.instr rfl
  have hend : d3.offset = d2.offset + 4 := constant_offset hconst
  obtain ⟨hs, hno⟩ := hs.split (hbool.trans (hout.emitted _)).offset
  obtain ⟨hs, hsout⟩ := hs.split hbool.offset
  obtain ⟨hs, hsbool⟩ := hs.split hxy.offset
  obtain ⟨hs, hsy⟩ := hs.split hxs.offset
  obtain ⟨hsx, hsskip⟩ := hs.split hx.offset
  have hpool3 : Extends d3.constants g.chunk.constants := hpool
  have hpool2 : Extends d2.constants g.chunk.constants := (constant_extends hconst).trans hpool3
  obtain ⟨n, hi, htarget⟩ := hskip.decode hsskip rfl
  obtain ⟨k, hk, hstop⟩ := hout.decode hsout rfl
  rw [ExprPhrase.values, Expr.value, map_bind]
  refine .bind (ihx h S hg hmatch hsx (hy.pool.trans hpool2)) fun v h1 hv => ?_
  have hg1 := ((x.value_grows b.read).function hv _).trans hg
  rw [map_bind, EStateM.run_bind, Eval.run_isTrue]
  refine .branch hg1 hi htarget ?_
  have hlast : d2.offset + 7 = (d3.advance 3).offset := by rw [Draft.advance_offset, hend]
  cases htrue : h1.isTrue v with
  | true =>
    simp only [if_true]
    have hright := ihy h1 S hg1 ((hmatch.emitted hx).advance 3) hsy hpool2
    have htruth := hright.toBool (y.value_grows b.read) hg1 (hsbool.decode rfl)
    rw [← hlast]
    exact htruth.jumping
      (fun vs h' hr => ((y.value_grows b.read).toBool.function_map hr _).trans hg1) hk hstop
  | false =>
    simp only [Bool.false_eq_true, if_false]
    exact .pushed hg1 (hno.decode hlast.symm)
      (Exec.run_constant_poised hg1 (hpool3 _ _ (constant_at hconst)))

open Compile in
/-- The right operand of `or` is computed only if the left one is false. -/
theorem works_or {skip out : Fragment} {line' : Nat} (hx : Emitted d A d1)
    (hskip : Forward .jumpIfFalse d1.offset (d1.offset + 9) skip)
    (hconst : (constant (.int 1)).run (d1.advance 3) = .ok (index, d2))
    (hout : Forward .jump (d1.offset + 6) (d3.offset + 1) out) (hy : Emitted (d2.advance 6) B d3)
    (ihx : ExprPhrase.Works env m f F g exits b (.one x) d A d1)
    (ihy : ExprPhrase.Works env m f F g exits b (.one y) (d2.advance 6) B d3) :
    ExprPhrase.Works env m f F g exits b (.form (.or x y)) d
      (A ++ skip ++ #[⟨line, .instr (.constant index)⟩] ++ out ++ B ++ #[⟨line', .instr .toBool⟩])
      (d3.advance 1) := by
  intro h S hg hmatch hs hpool
  have hxs := hx.trans (hskip.emitted d1)
  have hconstant : Emitted (d1.advance 3) #[⟨line, .instr (.constant index)⟩] (d2.advance 3) :=
    (emitted_constant hconst trivial).first rfl
  have hyes := hxs.trans hconstant
  have hjump := hyes.trans (hout.emitted _)
  have hmid : d2.offset = d1.offset + 3 := constant_offset hconst
  obtain ⟨hs, hsbool⟩ := hs.split (hjump.trans hy).offset
  obtain ⟨hs, hsy⟩ := hs.split hjump.offset
  obtain ⟨hs, hsout⟩ := hs.split hyes.offset
  obtain ⟨hs, hsyes⟩ := hs.split hxs.offset
  obtain ⟨hsx, hsskip⟩ := hs.split hx.offset
  have hpool3 : Extends d3.constants g.chunk.constants := hpool
  have hpool2 : Extends d2.constants g.chunk.constants := hy.pool.trans hpool3
  obtain ⟨n, hi, htarget⟩ := hskip.decode hsskip rfl
  obtain ⟨k, hk, hstop⟩ := hout.decode hsout (by rw [Draft.advance_offset, hmid])
  rw [ExprPhrase.values, Expr.value, map_bind]
  refine .bind (ihx h S hg hmatch hsx ((constant_extends hconst).trans hpool2)) fun v h1 hv => ?_
  have hg1 := ((x.value_grows b.read).function hv _).trans hg
  rw [map_bind, EStateM.run_bind, Eval.run_isTrue]
  refine .branch hg1 hi htarget ?_
  cases htrue : h1.isTrue v with
  | true =>
    simp only [if_true]
    have hpushed : Delivers env m f F (d1.offset + 3) S h1 (d2.offset + 3) S (.ok [.int 1] h1) :=
      .pushed hg1 (hsyes.decode (by rw [hmid]; rfl))
        (Exec.run_constant_poised hg1 (hpool2 _ _ (constant_at hconst)))
    refine hpushed.jumping (fun vs h' hr => ?_) hk hstop
    cases hr
    exact hg1
  | false =>
    simp only [Bool.false_eq_true, if_false]
    have hmatch' : b.Match (d2.advance 6) f.base S :=
      ((hmatch.emitted hxs).emitted (emitted_constant hconst trivial)).advance 6
    have hright := ihy h1 S hg1 hmatch' hsy hpool3
    rw [Draft.advance_offset, hmid] at hright
    exact hright.toBool (y.value_grows b.read) hg1 (hsbool.decode rfl)

/-- An expression, and others behind it. -/
theorem works_cons {β : Type} {q : ExprPhrase} {x : Eval α} {make : Value → α → β}
    {values : α → List Value} {result : β → List Value} (hp : p.values b.read = result <$> (do
      let v ← e.value b.read
      let a ← x
      return make v a)) (hq : q.values b.read = values <$> x)
    (hresult : ∀ v a, result (make v a) = v :: values a) (he : Emitted d A d1)
    (hx : Emitted d1 B d2) (ihe : ExprPhrase.Works env m f F g exits b (.one e) d A d1)
    (ihx : ExprPhrase.Works env m f F g exits b q d1 B d2) :
    ExprPhrase.Works env m f F g exits b p d (A ++ B) d2 := by
  intro h S hg hmatch hs hpool
  obtain ⟨hse, hsx⟩ := hs.split he.offset
  rw [hp, map_bind]
  refine .bind (ihe h S hg hmatch hse (hx.pool.trans hpool)) fun v h1 hv => ?_
  have hg1 := ((e.value_grows b.read).function hv _).trans hg
  have hrest := ihx h1 _ hg1 ((hmatch.emitted he).append [v].toArray) hsx hpool
  rw [hq] at hrest
  rw [map_bind]
  refine .above [v] hrest fun a h2 ha => ?_
  have hvalues : [v] ++ values a = result (make v a) := by rw [hresult]; rfl
  rw [hvalues]
  exact .refl _

/-- An entry of a dictionary, key first, and others behind it. -/
theorem works_entry {key value : Expr} {es : List (Expr × Expr)} {C : Fragment}
    (hk : Emitted d A d1) (hv : Emitted d1 B d2) (hes : Emitted d2 C d3)
    (ihk : ExprPhrase.Works env m f F g exits b (.one key) d A d1)
    (ihv : ExprPhrase.Works env m f F g exits b (.one value) d1 B d2)
    (ihes : ExprPhrase.Works env m f F g exits b (.entries es) d2 C d3) :
    ExprPhrase.Works env m f F g exits b (.entries ((key, value) :: es)) d (A ++ B ++ C) d3 := by
  intro h S hg hmatch hs hpool
  obtain ⟨hs, hses⟩ := hs.split (hk.trans hv).offset
  obtain ⟨hsk, hsv⟩ := hs.split hk.offset
  have hpool2 := hes.pool.trans hpool
  rw [ExprPhrase.values, Expr.entryValues, map_bind]
  refine .bind (ihk h S hg hmatch hsk (hv.pool.trans hpool2)) fun v h1 hrun => ?_
  have hg1 := ((key.value_grows b.read).function hrun _).trans hg
  rw [map_bind]
  refine .above [v] (ihv h1 _ hg1 ((hmatch.emitted hk).append _) hsv hpool2) fun w h2 hrun => ?_
  have hg2 := ((value.value_grows b.read).function hrun _).trans hg1
  rw [map_bind]
  refine .above [v, w] (ihes h2 _ hg2 ((hmatch.emitted (hk.trans hv)).append _) hses hpool)
    fun rest h3 _ => ?_
  exact .refl _

theorem works_text {s : String} {ps : List FPart}
    (hconst : (Compile.constant (.str s)).run d = .ok (index, d1))
    (hps : Emitted (d1.advance 3) B d2)
    (ih : ExprPhrase.Works env m f F g exits b (.parts ps) (d1.advance 3) B d2) :
    ExprPhrase.Works env m f F g exits b (.parts (.text s :: ps)) d
      (#[⟨line, .instr (.constant index)⟩] ++ B) d2 := by
  intro h S hg hmatch hs hpool
  have hfirst : Emitted d #[⟨line, .instr (.constant index)⟩] (d1.advance 3) :=
    (Compile.emitted_constant hconst trivial).first rfl
  obtain ⟨hsfirst, hsps⟩ := hs.split hfirst.offset
  have hindex := (hps.pool.trans hpool).constant_at hconst
  have hpushed : Steps env (m.poised f F d.offset h S)
      (m.poised f F (d1.advance 3).offset h (S ++ [Value.str s].toArray)) :=
    Delivers.pushed hg (hsfirst.decode hfirst.offset) (Exec.run_constant_poised hg hindex)
  refine .after hpushed ?_
  have hrest := ih h _ hg ((hmatch.emitted hfirst).append [.str s].toArray) hsps hpool
  rw [ExprPhrase.values, FPart.values, map_bind]
  exact .above [.str s] hrest fun vs h' _ => .refl _

open Compile in
/-- The code of an expression delivers its value. -/
theorem Pushes.works {D : List Duty} {ms : List Landmark} (hp : Pushes D p d A d' ms)
    (hglobals : m.program.globals = b.globals) : p.Works env m f F g exits b d A d' := by
  induction hp with
  | one _ ih => exact ih
  | pooled hpooled hconst =>
    intro h S hg hmatch hs hpool
    rw [ExprPhrase.values, Eval.run_map, Expr.value_of_pooled? hpooled]
    exact .pushed hg (hs.decode (by rw [Draft.advance_offset, constant_offset hconst]; rfl))
      (Exec.run_constant_poised hg (hpool.constant_at hconst))
  | absent =>
    intro h S hg hmatch hs hpool
    rw [ExprPhrase.values, Expr.value]
    exact .pushed hg (hs.decode rfl) Exec.run_pushAbsent_poised
  | readLocal hslot =>
    intro h S hg hmatch hs hpool
    obtain ⟨v, hread, hv, hlt⟩ := hmatch.read_local hslot
    rw [ExprPhrase.values, Expr.value, hread]
    exact .pushed hg (hs.decode rfl) (Exec.run_getLocal_poised hlt hv)
  | readGlobal hslot hconst =>
    intro h S hg hmatch hs hpool
    rw [ExprPhrase.values, Expr.value, hmatch.read_global hslot]
    exact .readGlobal hg (hs.decode (by rw [Draft.advance_offset, constant_offset hconst]; rfl))
      (hpool.constant_at hconst) hglobals
  | fstring hlt hps ih =>
    refine works_gathered (by rw [Expr.value]) rfl (FPart.values_grows _ _) rfl
      (fun vs h h' hvs => ?_) hps.emitted ih
    rw [← FPart.length_values hvs] at hlt ⊢
    exact Exec.replaces_buildString hlt
  | binary hx hy ihx ihy => exact works_binary hx.emitted hy.emitted ihx ihy
  | neg hx ih =>
    exact works_gathered (by rw [Expr.value]) rfl (Expr.value_grows _ _) rfl
      (fun v _ _ _ => Exec.replaces_neg v) hx.emitted ih
  | not hx ih =>
    exact works_gathered (by rw [Expr.value]) rfl (Expr.value_grows _ _) rfl
      (fun v _ _ _ => Exec.replaces_logicNot v) hx.emitted ih
  | and hx hskip hy hout hconst ihx ihy =>
    exact works_and hx.emitted hskip hy.emitted hout hconst ihx ihy
  | or hx hskip hconst hout hy ihx ihy =>
    exact works_or hx.emitted hskip hconst hout hy.emitted ihx ihy
  | index ho hk hlt iho ihk => exact works_index ho.emitted hk.emitted hlt iho ihk
  | array hlt hitems ih =>
    refine works_gathered (by rw [Expr.value]) rfl (Expr.values_grows _ _) rfl
      (fun vs h h' hvs => ?_) hitems.emitted ih
    rw [← Expr.length_values hvs] at hlt ⊢
    exact Exec.replaces_buildArray hlt
  | dict hlt hentries ih =>
    refine works_gathered (by rw [Expr.value]) rfl (Expr.entryValues_grows _ _) rfl
      (fun vs h h' hvs => ?_) hentries.emitted ih
    rw [← Expr.length_entryValues hvs] at hlt ⊢
    exact Exec.replaces_buildDict hlt
  | called | spawned | awaitCall | await =>
    intro h S hg hmatch hs hpool
    rw [ExprPhrase.values, Expr.value]
    trivial
  | byName | byValue =>
    intro h S hg hmatch hs hpool
    trivial
  | manyNil =>
    intro h S hg hmatch hs hpool
    rw [ExprPhrase.values, Expr.values]
    exact Delivers.refl []
  | entriesNil =>
    intro h S hg hmatch hs hpool
    rw [ExprPhrase.values, Expr.entryValues]
    exact Delivers.refl []
  | partsNil =>
    intro h S hg hmatch hs hpool
    rw [ExprPhrase.values, FPart.values]
    exact Delivers.refl []
  | manyCons he hes ihe ihes =>
    exact works_cons (by rw [ExprPhrase.values, Expr.values]) rfl (fun _ _ => rfl) he.emitted
      hes.emitted ihe ihes
  | entriesCons hk hv hes ihk ihv ihes =>
    exact works_entry hk.emitted hv.emitted hes.emitted ihk ihv ihes
  | partsText hconst hps ih => exact works_text hconst hps.emitted ih
  | partsCode he hps ihe ihps =>
    exact works_cons (by rw [ExprPhrase.values, FPart.values]) rfl (fun _ _ => rfl) he.emitted
      hps.emitted ihe ihps

/-! ### What the compiler makes of an expression -/

/-- The innermost frame `f` of the machine, above the frames `F`, has come to the code `A`, which
the compiler has written between the drafts `d` and `d'`; the locals of its scope lie on the stack,
and all variables have the values that `b` gives them. -/
structure Machine.Before (m : Machine) (f : Frame) (F : List Frame) (b : Bindings) (d : Draft)
    (A : Fragment) (d' : Draft) : Prop where
  frames : m.task.frames = f :: F
  start : f.ip = d.offset
  code : Fragment.Sits (m.heap.function f.function).chunk.code (fun _ => 0) d.offset A.toList
  pool : Extends d'.constants (m.heap.function f.function).chunk.constants
  locals : b.Match d f.base m.task.stack
  globals : m.program.globals = b.globals

/-- The machine comes to an instruction that fails with `e`, and then has the heap `h`.  The
globals and the stack below are as they were, and so is all in the heap that was there before. -/
def Machine.Fails (env : Env) (m : Machine) (f : Frame) (F : List Frame) (e : Fault) (h : Heap) :
    Prop :=
  m.heap.Grows h ∧ ∃ (m1 : Machine) (ip : Nat) (more : Array Value),
    Steps env m m1 ∧ (Exec.step env).run m1 = .error e (m.poised f F ip h (m.task.stack ++ more))

/-- The machine carries out the evaluation `x`: its innermost frame comes to the offset `stop` with
the value on top of the stack, or to an instruction that raises what `x` does.  The globals and the
stack below are as they were, and so is all in the heap that was there before. -/
def Machine.CarriesOut (env : Env) (m : Machine) (f : Frame) (F : List Frame) (stop : Nat)
    (x : Eval Value) : Prop :=
  match x.run m.heap with
  | .ok v h => m.heap.Grows h ∧ Steps env m (m.poised f F stop h (m.task.stack.push v))
  | .error (.fault (.failure cause)) h => m.Fails env f F (.failure cause) h
  | _ => False

end

theorem Machine.Before.delivers (he : (Compile.expr e).run d = .ok (A, d')) {m : Machine}
    {f : Frame} {F : List Frame} {b : Bindings} (hm : m.Before f F b d A d') (env : Env) :
    Delivers env m f F d.offset m.task.stack m.heap d'.offset m.task.stack
      (((fun v => [v]) <$> e.value b.read).run m.heap) := by
  obtain ⟨ms, hp⟩ := Compile.pushes_expr (D := []) he
  have hworks : (ExprPhrase.one e).Works env m f F (m.heap.function f.function)
      (fun _ => 0) b d A d' :=
    hp.works hm.globals
  exact hworks m.heap m.task.stack rfl hm.locals hm.code hm.pool

theorem Machine.Before.poised_start {m : Machine} {f : Frame} {F : List Frame} {b : Bindings}
    (hm : m.Before f F b d A d') : m.poised f F d.offset m.heap m.task.stack = m := by
  rw [← hm.start, Machine.poised_self hm.frames]

/-- The code of an expression computes its value: what the evaluation from left to right yields,
which computes nothing beforehand, or the failure that it raises.  That is so unless the evaluation
compares values that contain themselves: such a comparison has no end, and the code comes to it,
too.  And it is so unless the evaluation comes to a call, which is beyond what expressions can say:
in the expression itself, or because a function is subscripted. -/
theorem expression_computes {e : Expr} {d d' : Draft} {A : Fragment}
    (he : (Compile.expr e).run d = .ok (A, d')) {m : Machine} {f : Frame} {F : List Frame}
    {b : Bindings} (hm : m.Before f F b d A d') (env : Env) :
    ((∀ h, (e.value b.read).run m.heap ≠ .error (.fault .endless) h) →
      (∀ h, (e.value b.read).run m.heap ≠ .error .beyond h) →
      m.CarriesOut env f F d'.offset (e.value b.read)) ∧
    ∀ h, (e.value b.read).run m.heap = .error (.fault .endless) h → m.Fails env f F .endless h := by
  have hdelivers := hm.delivers he env
  have hgrows := (e.value_grows b.read).grows m.heap
  rw [Eval.run_map] at hdelivers
  have hfails {e' : Fault} {h : Heap} (hrun : (e.value b.read).run m.heap = .error (.fault e') h) :
      m.Fails env f F e' h := by
    rw [hrun] at hdelivers hgrows
    obtain ⟨m₁, ip, more, hsteps, hfail⟩ := hdelivers
    exact ⟨hgrows, m₁, ip, more, hm.poised_start ▸ hsteps, hfail⟩
  refine ⟨fun hends hwithin => ?_, fun h hrun => hfails hrun⟩
  rw [Machine.CarriesOut]
  cases hrun : (e.value b.read).run m.heap with
  | ok v h =>
    rw [hrun] at hdelivers hgrows
    refine ⟨hgrows, ?_⟩
    rw [← Array.append_singleton]
    exact hm.poised_start ▸ hdelivers
  | error stop h =>
    cases stop with
    | beyond => exact hwithin h hrun
    | fault e' =>
      cases e' with
      | failure cause => exact hfails hrun
      | exit code => exact (e.value_grows b.read).stays m.heap h code hrun
      | endless => exact hends h hrun

/-- `not (x == 2) or 7 % (x - 2)`, where the local `x` is 2: the division by zero fails when it is
carried out. -/
theorem remainder_by_zero_computes :
    let e : Expr := .or (.not (.binary .eq (.var "x") (.int 2)))
      (.binary .mod (.int 7) (.binary .sub (.var "x") (.int 2)))
    let d : Draft := { scope := { locals := [⟨"x", 0⟩] } }
    let b : Bindings := ⟨[("x", .int 2)], [], ∅⟩
    ∃ (A : Fragment) (d' : Draft) (m : Machine) (f : Frame),
      (Compile.expr e).run d = .ok (A, d') ∧ m.Before f [] b d A d' ∧
        (e.value b.read).run m.heap = .error (.fault (.failure .divisionByZero)) m.heap ∧
        m.CarriesOut {} f [] d'.offset (e.value b.read) := by
  intro e d b
  have hok : ((Compile.expr e).run d).isOk = true := by decide +kernel
  obtain ⟨⟨A, d'⟩, he⟩ : ∃ r, (Compile.expr e).run d = .ok r := by
    cases he : (Compile.expr e).run d with
    | ok r => exact ⟨r, rfl⟩
    | error x => rw [he] at hok; cases hok
  have hA : Fragment.Resolved A.toList := by
    obtain ⟨_, hp⟩ := Compile.pushes_expr (D := []) he
    exact hp.resolved
  let main : Function := ⟨"main", 0, A.chunk d'.constants, false, false⟩
  let f : Frame := ⟨⟨0⟩, 0, 0⟩
  let task : Task := { id := 0, stack := #[.int 2], frames := [f], promise := ⟨0⟩ }
  let m : Machine := ⟨{ functions := #[main] }, {}, {}, {}, {}, task⟩
  have hm : m.Before f [] b d A d' :=
    { frames := rfl
      start := rfl
      code := Fragment.sits_chunk _ hA _
      pool := by
        show Extends d'.constants (A.chunk d'.constants).constants
        rw [Fragment.chunk_constants]
        exact .refl _
      locals := ⟨rfl, by simp [b, m, task, f], rfl, by decide⟩
      globals := rfl }
  have hrun : (e.value b.read).run m.heap =
      .error (.fault (.failure .divisionByZero)) m.heap := rfl
  exact ⟨A, d', m, f, he, hm, hrun,
    (expression_computes he hm {}).1 (fun _ => by rw [hrun]; nofun) fun _ => by rw [hrun]; nofun⟩

end TaskBasic
