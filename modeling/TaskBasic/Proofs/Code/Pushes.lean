import TaskBasic.Proofs.Code.Landmark

/-
How the code of expressions is put together.

`Pushes D phrase d F d' marks` says: beginning with the draft `d`, the compiler
turns `phrase` into the code `F` and has the draft `d'` then; `marks` are the
places of all expressions in it, and `D` are the duties there.

* `pushes_expr` — the compiler works by these rules.
* `Pushes.emitted` — the code of an expression leaves all of the draft but the
  offset and the pool alone.
-/

namespace TaskBasic

variable {a e : Expr} {v : Value} {n : Nat} {index : UInt16}

/-! ### Pools that grow -/

/-- Every constant of `a` is in `b`, at the same position. -/
def Extends (a b : Array Value) : Prop :=
  ∀ (i : Nat) (v : Value), a[i]? = some v → b[i]? = some v

theorem Extends.refl (a : Array Value) : Extends a a := fun _ _ h => h

theorem Extends.trans {a b c : Array Value} (h1 : Extends a b) (h2 : Extends b c) :
    Extends a c := fun i v h => h2 i v (h1 i v h)

theorem extends_poolInsert (pool : Array Value) (v : Value) :
    Extends pool (poolInsert pool v).1 := by
  rw [poolInsert]
  split
  · exact Extends.refl pool
  · intro i w h
    have hlt : i < pool.size := (Array.getElem?_eq_some_iff.mp h).1
    rw [Array.getElem?_push, if_neg (Nat.ne_of_lt hlt)]
    exact h

theorem sameConstant_eq {w : Value} (h : sameConstant v w = true) : v = w := by
  cases v <;> cases w <;> simp_all [sameConstant]

/-- A pool has a constant at the position given for it. -/
theorem poolInsert_getElem? (pool : Array Value) (v : Value) :
    (poolInsert pool v).1[(poolInsert pool v).2]? = some v := by
  rw [poolInsert]
  split
  next index h =>
    obtain ⟨hlt, hsame, _⟩ := Array.findIdx?_eq_some_iff_getElem.mp h
    rw [Array.getElem?_eq_getElem hlt, sameConstant_eq hsame]
  next => simp

/-- Numbers and texts. -/
def Value.IsAtom : Value → Prop
  | .int _ | .float _ | .str _ => True
  | _ => False

/-- Every constant of `b` is in `a`, or it is an atom. -/
def Fresh (a b : Array Value) : Prop :=
  ∀ v ∈ b, v ∈ a ∨ v.IsAtom

theorem Fresh.refl (a : Array Value) : Fresh a a := fun _ h => .inl h

theorem Fresh.trans {a b c : Array Value} (h1 : Fresh a b) (h2 : Fresh b c) : Fresh a c :=
  fun v hv => (h2 v hv).elim (h1 v) .inr

theorem mem_poolInsert {pool : Array Value} {w : Value} (h : w ∈ (poolInsert pool v).1) :
    w ∈ pool ∨ w = v := by
  rw [poolInsert] at h
  split at h
  · exact .inl h
  · exact Array.mem_push.mp h

/-! ### Code that leaves the draft alone -/

/-- The code `F` was emitted between the drafts `d` and `d'`, which differ in nothing but
the offset and the pool. -/
structure Emitted (d : Draft) (F : Fragment) (d' : Draft) : Prop where
  offset : d'.offset = d.offset + Fragment.span F.toList
  pool : Extends d.constants d'.constants
  fresh : Fresh d.constants d'.constants
  scope : d'.scope = d.scope
  globals : d'.globals = d.globals
  line : d'.line = d.line
  functions : d'.functions = d.functions
  base : d'.base = d.base

namespace Emitted

variable {d d1 d2 : Draft} {F G : Fragment}

theorem refl (d : Draft) : Emitted d #[] d :=
  ⟨rfl, Extends.refl _, Fresh.refl _, rfl, rfl, rfl, rfl, rfl⟩

theorem trans (h1 : Emitted d F d1) (h2 : Emitted d1 G d2) : Emitted d (F ++ G) d2 where
  offset := by rw [h2.offset, h1.offset, Array.toList_append, Fragment.span_append, Nat.add_assoc]
  pool := h1.pool.trans h2.pool
  fresh := h1.fresh.trans h2.fresh
  scope := h2.scope.trans h1.scope
  globals := h2.globals.trans h1.globals
  line := h2.line.trans h1.line
  functions := h2.functions.trans h1.functions
  base := h2.base.trans h1.base

/-- Pieces that are written while the draft advances by their size. -/
theorem advance (d : Draft) {F : Fragment} (hn : Fragment.span F.toList = n) :
    Emitted d F (d.advance n) :=
  ⟨by rw [hn]; rfl, Extends.refl _, Fresh.refl _, rfl, rfl, rfl, rfl, rfl⟩

theorem instr (h : Emitted d F d1) {line : Nat} {i : Instr} (hn : i.size = n) :
    Emitted d (F ++ #[⟨line, .instr i⟩]) (d1.advance n) :=
  h.trans (advance d1 (by simp [Step.size, hn]))

theorem first (h : Emitted d #[] d1) {line : Nat} {i : Instr} (hn : i.size = n) :
    Emitted d #[⟨line, .instr i⟩] (d1.advance n) := by
  have h' : Emitted d (#[] ++ #[⟨line, .instr i⟩]) (d1.advance n) := h.instr hn
  rwa [Array.empty_append] at h'

end Emitted

namespace Compile

variable {d d' : Draft} {F : Fragment}

theorem constant_at (h : (constant v).run d = .ok (index, d')) :
    d'.constants[index.toNat]? = some v := by
  obtain ⟨hindex, rfl⟩ := run_constant_ok.mp h
  rw [poolIndex?] at hindex
  split at hindex
  next hlt =>
    cases hindex
    rw [UInt16.toNat_ofNat_of_lt' hlt]
    exact poolInsert_getElem? d.constants v
  next => cases hindex

theorem constant_offset (h : (constant v).run d = .ok (index, d')) : d'.offset = d.offset := by
  obtain ⟨_, rfl⟩ := run_constant_ok.mp h
  rfl

theorem constant_line (h : (constant v).run d = .ok (index, d')) : d'.line = d.line := by
  obtain ⟨_, rfl⟩ := run_constant_ok.mp h
  rfl

theorem constant_extends (h : (constant v).run d = .ok (index, d')) :
    Extends d.constants d'.constants := by
  obtain ⟨_, rfl⟩ := run_constant_ok.mp h
  exact extends_poolInsert d.constants v

theorem emitted_constant (h : (constant v).run d = .ok (index, d')) (hv : v.IsAtom) :
    Emitted d #[] d' := by
  refine ⟨constant_offset h, constant_extends h, ?_, ?_, ?_, constant_line h, ?_, ?_⟩
  all_goals obtain ⟨_, rfl⟩ := run_constant_ok.mp h
  · intro w hw
    rcases mem_poolInsert hw with hw | rfl
    · exact .inl hw
    · exact .inr hv
  all_goals rfl

/-- A constant that is added behind other code. -/
theorem emitted_then_constant {d1 : Draft} (h : Emitted d F d1)
    (hc : (constant v).run d1 = .ok (index, d')) (hv : v.IsAtom) : Emitted d F d' := by
  have h' := h.trans (emitted_constant hc hv)
  rwa [Array.append_empty] at h'

def calledName? (d : Draft) : Expr → Option String
  | .var name => if (slotIn d name).isSome then none else some name
  | _ => none

theorem run_globalCallee?_ok {callee : Expr} {name : Option String}
    (h : (globalCallee? callee).run d = .ok (name, d')) :
    name = calledName? d callee ∧ d' = d := by
  cases callee with
  | var x =>
    rw [globalCallee?, run_bind_ok] at h
    obtain ⟨_, _, hslot, h⟩ := h
    obtain ⟨rfl, rfl⟩ := run_localSlot?_ok.mp hslot
    rw [Option.isSome_map] at h
    rw [calledName?]
    split at h
    next hs => rw [if_pos hs]; exact run_pure_ok.mp h
    next hs => rw [if_neg hs]; exact run_pure_ok.mp h
  | _ => exact run_pure_ok.mp h

def namedCall (spawning : Bool) (name : UInt16) (count : Nat) : Instr :=
  if spawning then .spawnNamed name (UInt8.ofNat count) else .callNamed name (UInt8.ofNat count)

def directCall (spawning : Bool) (count : Nat) : Instr :=
  if spawning then .spawn (UInt8.ofNat count) else .call (UInt8.ofNat count)

theorem size_namedCall (spawning : Bool) (name : UInt16) (count : Nat) :
    (namedCall spawning name count).size = 4 := by
  cases spawning <;> rfl

theorem size_directCall (spawning : Bool) (count : Nat) : (directCall spawning count).size = 2 := by
  cases spawning <;> rfl

/-- The instructions that build the key of a subscript from `n` keys. -/
def packing (line n : Nat) : Fragment :=
  if n = 1 then #[] else #[⟨line, .instr (.buildTuple (UInt8.ofNat n))⟩]

theorem run_packKeys_ok (h : (packKeys n).run d = .ok (F, d')) :
    n < 256 ∧ F = packing d.line n ∧ d' = d.advance (Fragment.span F.toList) := by
  rw [packKeys] at h
  split at h
  next hn =>
    obtain ⟨rfl, rfl⟩ := run_pure_ok.mp h
    exact ⟨by omega, by rw [packing, if_pos hn], rfl⟩
  next hn =>
    simp only [run_bind_ok, run_narrow_ok, run_emit_ok] at h
    obtain ⟨_, _, ⟨hlt, rfl, rfl⟩, rfl, rfl⟩ := h
    exact ⟨hlt, by rw [packing, if_neg hn], rfl⟩

end Compile

/-! ### The rules -/

inductive ExprPhrase
  | one (e : Expr)
  /-- The code of an expression. -/
  | form (e : Expr)
  /-- Expressions one after another. -/
  | many (es : List Expr)
  /-- The keys and values of a dictionary. -/
  | entries (es : List (Expr × Expr))
  | parts (ps : List FPart)
  /-- A call, or the start of a call as a task. -/
  | call (spawning : Bool) (callee : Expr) (args : List Expr)

/-- The constant that the code of an expression pushes, if it does no more than that. -/
def Expr.pooled? : Expr → Option Value
  | .int n => some (.int n)
  | .float x => some (.float x)
  | .str s => some (.str s)
  | .fstring [] => some (.str "")
  | .binary op a b => (Expr.binary op a b).fold?.map Number.toValue
  | .neg a => (Expr.neg a).fold?.map Number.toValue
  | _ => none

theorem Number.toValue_isAtom (x : Number) : x.toValue.IsAtom := by
  cases x <;> trivial

theorem Expr.pooled?_isAtom (h : e.pooled? = some v) : v.IsAtom := by
  unfold Expr.pooled? at h
  split at h
  case h_5 | h_6 =>
    obtain ⟨x, _, rfl⟩ := Option.map_eq_some_iff.mp h
    exact x.toValue_isAtom
  case h_7 => cases h
  all_goals
    cases h
    trivial

open Compile in
/-- The code of an expression or of parts of one. -/
inductive Pushes (D : List Duty) : ExprPhrase → Draft → Fragment → Draft → List Landmark → Prop
  | one {e d F d' ms} :
    Pushes D (.form e) d F d' ms →
    Pushes D (.one e) d F d' (.value d.offset d'.offset d.scope.locals d.globals D :: ms)
  | pooled {e v d index d'} :
    e.pooled? = some v →
    (constant v).run d = .ok (index, d') →
    Pushes D (.form e) d #[⟨d.line, .instr (.constant index)⟩] (d'.advance 3) []
  | absent {d} :
    Pushes D (.form .absent) d #[⟨d.line, .instr .pushAbsent⟩] (d.advance 1) []
  | fstring {parts d F d1 ms} :
    parts.length < 65536 →
    Pushes D (.parts parts) d F d1 ms →
    Pushes D (.form (.fstring parts)) d
      (F ++ #[⟨d1.line, .instr (.buildString (UInt16.ofNat parts.length))⟩]) (d1.advance 3) ms
  | readLocal {name slot d} :
    slotIn d name = some slot →
    Pushes D (.form (.var name)) d #[⟨d.line, .instr (.getLocal (UInt16.ofNat slot))⟩]
    (d.advance 3) []
  | readGlobal {name d index d1} :
    slotIn d name = none →
    (constant (.str name)).run d = .ok (index, d1) →
    Pushes D (.form (.var name)) d #[⟨d.line, .instr (.getGlobal index)⟩] (d1.advance 3) []
  | binary {op a b d F d1 ms G d2 ns} :
    Pushes D (.one a) d F d1 ms →
    Pushes D (.one b) d1 G d2 ns →
    Pushes D (.form (.binary op a b)) d (F ++ G ++ #[⟨d2.line, .instr (.binary op)⟩]) (d2.advance 1)
      (ms ++ ns)
  | neg {a d F d1 ms} :
    Pushes D (.one a) d F d1 ms →
    Pushes D (.form (.neg a)) d (F ++ #[⟨d1.line, .instr .neg⟩]) (d1.advance 1) ms
  | not {a d F d1 ms} :
    Pushes D (.one a) d F d1 ms →
    Pushes D (.form (.not a)) d (F ++ #[⟨d1.line, .instr .logicNot⟩]) (d1.advance 1) ms
  | and {a b d F d1 ms skip G d2 ns out index d3} :
    Pushes D (.one a) d F d1 ms →
    Forward .jumpIfFalse d1.offset (d2.offset + 4) skip →
    Pushes D (.one b) (d1.advance 3) G d2 ns →
    Forward .jump (d2.offset + 1) (d2.offset + 7) out →
    (constant (.int 0)).run (d2.advance 4) = .ok (index, d3) →
    Pushes D (.form (.and a b)) d
      (F ++ skip ++ G ++ #[⟨d2.line, .instr .toBool⟩] ++ out ++
        #[⟨d2.line, .instr (.constant index)⟩]) (d3.advance 3) (ms ++ ns)
  | or {a b d F d1 ms skip index d2 out G d3 ns} :
    Pushes D (.one a) d F d1 ms →
    Forward .jumpIfFalse d1.offset (d1.offset + 9) skip →
    (constant (.int 1)).run (d1.advance 3) = .ok (index, d2) →
    Forward .jump (d1.offset + 6) (d3.offset + 1) out →
    Pushes D (.one b) (d2.advance 6) G d3 ns →
    Pushes D (.form (.or a b)) d
      (F ++ skip ++ #[⟨d1.line, .instr (.constant index)⟩] ++ out ++ G ++
        #[⟨d3.line, .instr .toBool⟩]) (d3.advance 1) (ms ++ ns)
  | called {callee args d F d' ms} :
    Pushes D (.call false callee args) d F d' ms →
    Pushes D (.form (.call callee args)) d F d' ms
  | spawned {callee args d F d' ms} :
    Pushes D (.call true callee args) d F d' ms →
    Pushes D (.form (.spawn callee args)) d F d' ms
  | byName {spawning callee name args d index d1 F d2 ms} :
    calledName? d callee = some name →
    args.length < 256 →
    (constant (.str name)).run d = .ok (index, d1) →
    Pushes D (.many args) d1 F d2 ms →
    Pushes D (.call spawning callee args) d
      (F ++ #[⟨d2.line, .instr (namedCall spawning index args.length)⟩]) (d2.advance 4) ms
  | byValue {spawning callee args d F d1 ms G d2 ns} :
    calledName? d callee = none →
    args.length < 256 →
    Pushes D (.one callee) d F d1 ms →
    Pushes D (.many args) d1 G d2 ns →
    Pushes D (.call spawning callee args) d
      (F ++ G ++ #[⟨d2.line, .instr (directCall spawning args.length)⟩]) (d2.advance 2) (ms ++ ns)
  | index {object keys d F d1 ms G d2 ns} :
    Pushes D (.one object) d F d1 ms →
    Pushes D (.many keys) d1 G d2 ns →
    keys.length < 256 →
    Pushes D (.form (.index object keys)) d
      (F ++ G ++ packing d2.line keys.length ++ #[⟨d2.line, .instr .getIndex⟩])
      (d2.advance (Fragment.span (packing d2.line keys.length).toList + 1)) (ms ++ ns)
  | array {items d F d1 ms} :
    items.length < 65536 →
    Pushes D (.many items) d F d1 ms →
    Pushes D (.form (.array items)) d
      (F ++ #[⟨d1.line, .instr (.buildArray (UInt16.ofNat items.length))⟩]) (d1.advance 3) ms
  | dict {entries d F d1 ms} :
    entries.length < 65536 →
    Pushes D (.entries entries) d F d1 ms →
    Pushes D (.form (.dict entries)) d
      (F ++ #[⟨d1.line, .instr (.buildDict (UInt16.ofNat entries.length))⟩]) (d1.advance 3) ms
  | awaitCall {callee args d F d1 ms} :
    Pushes D (.call true callee args) d F d1 ms →
    Pushes D (.form (.await (.call callee args))) d (F ++ #[⟨d1.line, .instr .await⟩])
      (d1.advance 1) ms
  | await {a d F d1 ms} :
    Pushes D (.one a) d F d1 ms →
    Pushes D (.form (.await a)) d (F ++ #[⟨d1.line, .instr .await⟩]) (d1.advance 1) ms
  | manyNil {d} :
    Pushes D (.many []) d #[] d []
  | manyCons {e es d F d1 ms G d2 ns} :
    Pushes D (.one e) d F d1 ms →
    Pushes D (.many es) d1 G d2 ns →
    Pushes D (.many (e :: es)) d (F ++ G) d2 (ms ++ ns)
  | entriesNil {d} :
    Pushes D (.entries []) d #[] d []
  | entriesCons {key value es d F d1 ms G d2 ns H d3 os} :
    Pushes D (.one key) d F d1 ms →
    Pushes D (.one value) d1 G d2 ns →
    Pushes D (.entries es) d2 H d3 os →
    Pushes D (.entries ((key, value) :: es)) d (F ++ G ++ H) d3 (ms ++ ns ++ os)
  | partsNil {d} :
    Pushes D (.parts []) d #[] d []
  | partsText {s ps d index d1 F d2 ms} :
    (constant (.str s)).run d = .ok (index, d1) →
    Pushes D (.parts ps) (d1.advance 3) F d2 ms →
    Pushes D (.parts (.text s :: ps)) d (#[⟨d.line, .instr (.constant index)⟩] ++ F) d2 ms
  | partsCode {e ps d F d1 ms G d2 ns} :
    Pushes D (.one e) d F d1 ms →
    Pushes D (.parts ps) d1 G d2 ns →
    Pushes D (.parts (.code e :: ps)) d (F ++ G) d2 (ms ++ ns)

/-! ### What the code does to the draft -/

theorem Forward.emitted {make : UInt16 → Instr} {o target : Nat} {F : Fragment}
    (h : Forward make o target F) (d : Draft) : Emitted d F (d.advance 3) :=
  Emitted.advance d h.span

open Compile in
/-- The code of an expression leaves all of the draft but the offset and the pool alone. -/
theorem Pushes.emitted {D : List Duty} {p : ExprPhrase} {d d' : Draft} {F : Fragment}
    {ms : List Landmark}
    (h : Pushes D p d F d' ms) : Emitted d F d' := by
  induction h with
  | one _ ih | called _ ih | spawned _ ih => exact ih
  | pooled hpooled hconst => exact (emitted_constant hconst (Expr.pooled?_isAtom hpooled)).first rfl
  | absent | readLocal _ => exact (Emitted.refl _).first rfl
  | fstring _ _ ih | neg _ ih | not _ ih | array _ _ ih | dict _ _ ih | awaitCall _ ih
  | await _ ih => exact ih.instr rfl
  | readGlobal _ hconst => exact (emitted_constant hconst trivial).first rfl
  | binary _ _ iha ihb => exact (iha.trans ihb).instr (Instr.size_binary _)
  | and _ hskip _ hout hconst iha ihb =>
    have hleft := (iha.trans (hskip.emitted _)).trans ihb
    exact ((hleft.instr rfl).trans (hout.emitted _)).trans
      ((emitted_constant hconst trivial).first rfl)
  | or _ hskip hconst hout _ iha ihb =>
    have hleft := iha.trans (hskip.emitted _)
    exact (((hleft.trans ((emitted_constant hconst trivial).first (i := .constant _) rfl)).trans
      (hout.emitted _)).trans ihb).instr rfl
  | byName _ _ hconst _ ih =>
    have h := (emitted_constant hconst trivial).trans ih
    rw [Array.empty_append] at h
    exact h.instr (size_namedCall _ _ _)
  | byValue _ _ _ _ ihf iha => exact (ihf.trans iha).instr (size_directCall _ _)
  | index _ _ _ iho ihk => exact ((iho.trans ihk).trans (Emitted.advance _ rfl)).instr rfl
  | manyNil | entriesNil | partsNil => exact Emitted.refl _
  | manyCons _ _ ih ihs | partsCode _ _ ih ihs => exact ih.trans ihs
  | entriesCons _ _ _ ihk ihv ihs => exact (ihk.trans ihv).trans ihs
  | partsText hconst _ ih => exact ((emitted_constant hconst trivial).first rfl).trans ih

/-! ### The compiler works by these rules -/

namespace Compile

variable {D : List Duty} {d d' : Draft} {F : Fragment}

/-- The code of an expression comes about by the rules. -/
def PushesForm (D : List Duty) (e : Expr) : Prop :=
  ∀ (d : Draft) (F : Fragment) (d' : Draft), (expr e).run d = .ok (F, d') →
    ∃ ms, Pushes D (.form e) d F d' ms

/-- The code that `x` gives for a phrase, behind other code, comes about by the rules. -/
def PushesBehind (D : List Duty) (p : ExprPhrase) (x : Fragment → Compile Fragment) : Prop :=
  ∀ (done : Fragment) (d : Draft) (F : Fragment) (d' : Draft), (x done).run d = .ok (F, d') →
    ∃ G ms, F = done ++ G ∧ Pushes D p d G d' ms

theorem run_push_ok (h : (push v).run d = .ok (F, d')) :
    ∃ index d1, (constant v).run d = .ok (index, d1) ∧
      F = #[⟨d.line, .instr (.constant index)⟩] ∧ d' = d1.advance 3 := by
  simp only [push, run_bind_ok, run_emit_ok] at h
  obtain ⟨index, d1, hindex, rfl, rfl⟩ := h
  exact ⟨index, d1, hindex, by rw [constant_line hindex], rfl⟩

theorem pushes_pooled (he : e.pooled? = some v) (h : (push v).run d = .ok (F, d')) :
    ∃ ms, Pushes D (.form e) d F d' ms := by
  obtain ⟨index, d1, hindex, rfl, rfl⟩ := run_push_ok h
  exact ⟨[], .pooled he hindex⟩

theorem pushes_read {name : String} (h : (read name).run d = .ok (F, d')) :
    ∃ ms, Pushes D (.form (.var name)) d F d' ms := by
  rw [read, run_bind_ok] at h
  obtain ⟨_, _, hslot, h⟩ := h
  obtain ⟨rfl, rfl⟩ := run_localSlot?_ok.mp hslot
  cases hs : slotIn _ name with
  | some slot =>
    rw [hs] at h
    obtain ⟨rfl, rfl⟩ := run_emit_ok.mp h
    exact ⟨[], .readLocal hs⟩
  | none =>
    simp only [hs, Option.map_none, run_bind_ok, run_emit_ok, nameConstant] at h
    obtain ⟨index, d1, hindex, rfl, rfl⟩ := h
    rw [constant_line hindex]
    exact ⟨[], .readGlobal hs hindex⟩

theorem pushes_call {callee : Expr} {args : List Expr} (spawning : Bool)
    (hcallee : PushesForm D callee) (hargs : PushesBehind D (.many args) (exprs args))
    (h : (call callee args.length (expr callee) (exprs args)
      (if spawning then .spawnNamed else .callNamed)
      (if spawning then .spawn else .call)).run d = .ok (F, d')) :
    ∃ ms, Pushes D (.call spawning callee args) d F d' ms := by
  simp only [call, run_bind_ok, run_narrow_ok] at h
  obtain ⟨_, _, ⟨hlt, rfl, rfl⟩, _, d0, hname, h⟩ := h
  obtain ⟨rfl, rfl⟩ := run_globalCallee?_ok hname
  cases hcalled : calledName? d0 callee with
  | some name =>
    simp only [hcalled, run_bind_ok, run_emit_ok, run_pure_ok, nameConstant] at h
    obtain ⟨index, d1, hindex, code, d2, hcode, _, _, ⟨rfl, rfl⟩, rfl, rfl⟩ := h
    obtain ⟨G, ms, rfl, hms⟩ := hargs _ _ _ _ hcode
    rw [Array.empty_append]
    refine ⟨ms, ?_⟩
    cases spawning <;> exact .byName hcalled hlt hindex hms
  | none =>
    simp only [hcalled, run_bind_ok, run_emit_ok, run_pure_ok] at h
    obtain ⟨value, d1, hvalue, code, d2, hcode, _, _, ⟨rfl, rfl⟩, rfl, rfl⟩ := h
    obtain ⟨ms, hms⟩ := hcallee _ _ _ hvalue
    obtain ⟨G, ns, rfl, hns⟩ := hargs _ _ _ _ hcode
    refine ⟨.value d0.offset d1.offset d0.scope.locals d0.globals D :: ms ++ ns, ?_⟩
    cases spawning <;> exact .byValue hcalled hlt (.one hms) hns

theorem pushes_and {b : Expr} (iha : PushesForm D a) (ihb : PushesForm D b)
    (h : (expr (.and a b)).run d = .ok (F, d')) : ∃ ms, Pushes D (.form (.and a b)) d F d' ms := by
  simp only [expr, run_bind_ok, run_reserve_ok, run_emit_ok, run_pure_ok] at h
  obtain ⟨G, d1, ha, _, _, ⟨rfl, rfl⟩, H, d2, hb, _, _, ⟨rfl, rfl⟩, _, _, ⟨rfl, rfl⟩, h⟩ := h
  obtain ⟨skip, _, hskip, no, d3, hno, out, _, hout, rfl, rfl⟩ := h
  obtain ⟨ms, hms⟩ := iha _ _ _ ha
  obtain ⟨ns, hns⟩ := ihb _ _ _ hb
  have hb : d2.offset = d1.offset + 3 + Fragment.span H.toList := hns.emitted.offset
  obtain ⟨jskip, rfl⟩ := run_fill_forward (fun _ => rfl)
    (show d1.offset + 3 ≤ d2.offset + 4 by omega) hskip
  obtain ⟨index, d4, hindex, rfl, rfl⟩ := run_push_ok hno
  have hno : d4.offset = d2.offset + 4 := constant_offset hindex
  obtain ⟨jout, rfl⟩ := run_fill_forward (fun _ => rfl)
    (show d2.offset + 1 + 3 ≤ d4.offset + 3 by omega) hout
  have hend : (d4.advance 3).offset = d2.offset + 7 := by rw [Draft.advance_offset, hno]
  rw [hend] at jout
  exact ⟨_, .and (.one hms) jskip (.one hns) jout hindex⟩

theorem pushes_or {b : Expr} (iha : PushesForm D a) (ihb : PushesForm D b)
    (h : (expr (.or a b)).run d = .ok (F, d')) : ∃ ms, Pushes D (.form (.or a b)) d F d' ms := by
  simp only [expr, run_bind_ok, run_reserve_ok, run_emit_ok, run_pure_ok] at h
  obtain ⟨G, d1, ha, _, _, ⟨rfl, rfl⟩, yes, d2, hyes, _, _, ⟨rfl, rfl⟩, skip, _, hskip, h⟩ := h
  obtain ⟨H, d3, hb, _, _, ⟨rfl, rfl⟩, out, _, hout, rfl, rfl⟩ := h
  obtain ⟨ms, hms⟩ := iha _ _ _ ha
  obtain ⟨index, d4, hindex, rfl, rfl⟩ := run_push_ok hyes
  have hyes : d4.offset = d1.offset + 3 := constant_offset hindex
  obtain ⟨jskip, rfl⟩ := run_fill_forward (fun _ => rfl)
    (show d1.offset + 3 ≤ d4.offset + 6 by omega) hskip
  obtain ⟨ns, hns⟩ := ihb _ _ _ hb
  have hb : d3.offset = d4.offset + 6 + Fragment.span H.toList := hns.emitted.offset
  obtain ⟨jout, rfl⟩ := run_fill_forward (fun _ => rfl)
    (show d4.offset + 3 + 3 ≤ d3.offset + 1 by omega) hout
  have hmid : ((d4.advance 3).advance 3).offset = d1.offset + 9 := by
    simp only [Draft.advance_offset, hyes]
  rw [hmid] at jskip
  rw [Draft.advance_offset, hyes] at jout
  have hright : Pushes D (.form b) (d4.advance 6) H d3 ns := hns
  have hrule := Pushes.or (.one hms) jskip hindex jout (.one hright)
  exact ⟨_, hrule⟩

theorem expr_await (ha : ∀ callee args, a ≠ .call callee args) : expr (.await a) = do
      let code ← expr a
      return code ++ (← emit .await) := by
  rw [expr]
  exact ha

mutual

theorem pushes_form : (e : Expr) → PushesForm D e
  | .int n, d, F, d', h => pushes_pooled rfl (by rwa [expr] at h)
  | .float x, d, F, d', h => pushes_pooled rfl (by rwa [expr] at h)
  | .str s, d, F, d', h => pushes_pooled rfl (by rwa [expr] at h)
  | .absent, d, F, d', h => by
    rw [expr, run_emit_ok] at h
    obtain ⟨rfl, rfl⟩ := h
    exact ⟨[], .absent⟩
  | .var name, d, F, d', h => pushes_read (by rwa [expr] at h)
  | .fstring [], d, F, d', h => pushes_pooled rfl (by rwa [expr] at h)
  | .fstring (p :: ps), d, F, d', h => by
    simp only [expr, List.isEmpty_cons, Bool.false_eq_true, if_false, run_bind_ok, run_wide_ok,
      run_emit_ok, run_pure_ok] at h
    obtain ⟨_, _, ⟨hlt, rfl, rfl⟩, code, d1, hcode, _, _, ⟨rfl, rfl⟩, rfl, rfl⟩ := h
    obtain ⟨G, ms, rfl, hms⟩ := pushes_fparts (p :: ps) _ _ _ _ hcode
    rw [Array.empty_append]
    exact ⟨ms, .fstring hlt hms⟩
  | .binary op a b, d, F, d', h => by
    rw [expr] at h
    cases hfold : (Expr.binary op a b).fold? with
    | some x =>
      simp only [hfold] at h
      exact pushes_pooled (by rw [Expr.pooled?, hfold]; rfl) h
    | none =>
      simp only [hfold, run_bind_ok, run_emit_ok, run_pure_ok] at h
      obtain ⟨G, d1, ha, H, d2, hb, _, _, ⟨rfl, rfl⟩, rfl, rfl⟩ := h
      obtain ⟨ms, hms⟩ := pushes_form a _ _ _ ha
      obtain ⟨ns, hns⟩ := pushes_form b _ _ _ hb
      rw [Instr.size_binary]
      exact ⟨_, .binary (.one hms) (.one hns)⟩
  | .neg a, d, F, d', h => by
    rw [expr] at h
    cases hfold : (Expr.neg a).fold? with
    | some x =>
      simp only [hfold] at h
      exact pushes_pooled (by rw [Expr.pooled?, hfold]; rfl) h
    | none =>
      simp only [hfold, run_bind_ok, run_emit_ok, run_pure_ok] at h
      obtain ⟨G, d1, ha, _, _, ⟨rfl, rfl⟩, rfl, rfl⟩ := h
      obtain ⟨ms, hms⟩ := pushes_form a _ _ _ ha
      exact ⟨_, .neg (.one hms)⟩
  | .not a, d, F, d', h => by
    simp only [expr, run_bind_ok, run_emit_ok, run_pure_ok] at h
    obtain ⟨G, d1, ha, _, _, ⟨rfl, rfl⟩, rfl, rfl⟩ := h
    obtain ⟨ms, hms⟩ := pushes_form a _ _ _ ha
    exact ⟨_, .not (.one hms)⟩
  | .and a b, d, F, d', h => pushes_and (pushes_form a) (pushes_form b) h
  | .or a b, d, F, d', h => pushes_or (pushes_form a) (pushes_form b) h
  | .call callee args, d, F, d', h => by
    rw [expr] at h
    obtain ⟨ms, hms⟩ := pushes_call false (pushes_form callee) (pushes_exprs args) h
    exact ⟨ms, .called hms⟩
  | .index object keys, d, F, d', h => by
    simp only [expr, run_bind_ok, run_emit_ok, run_pure_ok] at h
    obtain ⟨G, d1, ho, code, d2, hk, pack, _, hpack, _, _, ⟨rfl, rfl⟩, rfl, rfl⟩ := h
    obtain ⟨ms, hms⟩ := pushes_form object _ _ _ ho
    obtain ⟨H, ns, rfl, hns⟩ := pushes_exprs keys _ _ _ _ hk
    obtain ⟨hlt, rfl, rfl⟩ := run_packKeys_ok hpack
    exact ⟨_, .index (.one hms) hns hlt⟩
  | .array items, d, F, d', h => by
    simp only [expr, run_bind_ok, run_wide_ok, run_emit_ok, run_pure_ok] at h
    obtain ⟨_, _, ⟨hlt, rfl, rfl⟩, code, d1, hcode, _, _, ⟨rfl, rfl⟩, rfl, rfl⟩ := h
    obtain ⟨G, ms, rfl, hms⟩ := pushes_exprs items _ _ _ _ hcode
    rw [Array.empty_append]
    exact ⟨ms, .array hlt hms⟩
  | .dict entries, d, F, d', h => by
    simp only [expr, run_bind_ok, run_wide_ok, run_emit_ok, run_pure_ok] at h
    obtain ⟨_, _, ⟨hlt, rfl, rfl⟩, code, d1, hcode, _, _, ⟨rfl, rfl⟩, rfl, rfl⟩ := h
    obtain ⟨G, ms, rfl, hms⟩ := pushes_pairs entries _ _ _ _ hcode
    rw [Array.empty_append]
    exact ⟨ms, .dict hlt hms⟩
  | .await a, d, F, d', h => by
    cases a with
    | call callee args =>
      simp only [expr, run_bind_ok, run_emit_ok, run_pure_ok] at h
      obtain ⟨G, d1, hcall, _, _, ⟨rfl, rfl⟩, rfl, rfl⟩ := h
      obtain ⟨ms, hms⟩ := pushes_call true (pushes_form callee) (pushes_exprs args) hcall
      exact ⟨ms, .awaitCall hms⟩
    | _ =>
      rw [expr_await (fun _ _ => Expr.noConfusion)] at h
      simp only [run_bind_ok, run_emit_ok, run_pure_ok] at h
      obtain ⟨G, d1, ha, _, _, ⟨rfl, rfl⟩, rfl, rfl⟩ := h
      obtain ⟨ms, hms⟩ := pushes_form _ _ _ _ ha
      exact ⟨_, .await (.one hms)⟩
  | .spawn callee args, d, F, d', h => by
    rw [expr] at h
    obtain ⟨ms, hms⟩ := pushes_call true (pushes_form callee) (pushes_exprs args) h
    exact ⟨ms, .spawned hms⟩

theorem pushes_exprs : (es : List Expr) → PushesBehind D (.many es) (exprs es)
  | [], done, d, F, d', h => by
    rw [exprs, run_pure_ok] at h
    obtain ⟨rfl, rfl⟩ := h
    exact ⟨#[], [], by rw [Array.append_empty], .manyNil⟩
  | e :: es, done, d, F, d', h => by
    simp only [exprs, run_bind_ok] at h
    obtain ⟨G, d1, he, hes⟩ := h
    obtain ⟨ms, hms⟩ := pushes_form e _ _ _ he
    obtain ⟨H, ns, rfl, hns⟩ := pushes_exprs es _ _ _ _ hes
    exact ⟨G ++ H, _, by rw [Array.append_assoc], .manyCons (.one hms) hns⟩

theorem pushes_pairs : (es : List (Expr × Expr)) → PushesBehind D (.entries es) (pairs es)
  | [], done, d, F, d', h => by
    rw [pairs, run_pure_ok] at h
    obtain ⟨rfl, rfl⟩ := h
    exact ⟨#[], [], by rw [Array.append_empty], .entriesNil⟩
  | (key, value) :: es, done, d, F, d', h => by
    simp only [pairs, run_bind_ok] at h
    obtain ⟨G, d1, hkey, H, d2, hvalue, hes⟩ := h
    obtain ⟨ms, hms⟩ := pushes_form key _ _ _ hkey
    obtain ⟨ns, hns⟩ := pushes_form value _ _ _ hvalue
    obtain ⟨K, os, rfl, hos⟩ := pushes_pairs es _ _ _ _ hes
    exact ⟨G ++ H ++ K, _, by simp only [Array.append_assoc],
      .entriesCons (.one hms) (.one hns) hos⟩

theorem pushes_fparts : (ps : List FPart) → PushesBehind D (.parts ps) (fparts ps)
  | [], done, d, F, d', h => by
    rw [fparts, run_pure_ok] at h
    obtain ⟨rfl, rfl⟩ := h
    exact ⟨#[], [], by rw [Array.append_empty], .partsNil⟩
  | .text s :: ps, done, d, F, d', h => by
    simp only [fparts, run_bind_ok] at h
    obtain ⟨G, d1, hs, hps⟩ := h
    obtain ⟨index, d2, hindex, rfl, rfl⟩ := run_push_ok hs
    obtain ⟨H, ns, rfl, hns⟩ := pushes_fparts ps _ _ _ _ hps
    exact ⟨_, _, by rw [Array.append_assoc], .partsText hindex hns⟩
  | .code e :: ps, done, d, F, d', h => by
    simp only [fparts, run_bind_ok] at h
    obtain ⟨G, d1, he, hps⟩ := h
    obtain ⟨ms, hms⟩ := pushes_form e _ _ _ he
    obtain ⟨H, ns, rfl, hns⟩ := pushes_fparts ps _ _ _ _ hps
    exact ⟨G ++ H, _, by rw [Array.append_assoc], .partsCode (.one hms) hns⟩

end

/-- The code of an expression comes about by the rules. -/
theorem pushes_expr (h : (expr e).run d = .ok (F, d')) : ∃ ms, Pushes D (.one e) d F d' ms := by
  obtain ⟨ms, hms⟩ := pushes_form e d F d' h
  exact ⟨_, .one hms⟩

end Compile

end TaskBasic
