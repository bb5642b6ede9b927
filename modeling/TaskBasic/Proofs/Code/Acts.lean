import TaskBasic.Proofs.Code.Pushes

/-
How the code of statements without blocks is put together.

* `Yields` — the code of a value that is to be stored, of one of the kinds in
  `Source`.
* `Stores`, `StoresAll` — the code that stores values into targets.
* `Tests` — the code that compares a local with the values of a `case`.
* `Acts` — the code of a statement that contains no statements and leaves none.

`acts_stmt` says that the compiler works by these rules, and `Acts.grown` what
their code does to the draft: it declares some locals in the current block.
-/

namespace TaskBasic

open Compile

variable {n : Nat} {name : String} {source : Source} {subject : UInt16} {values : List Expr}

/-! ### Scopes that grow -/

/-- The scope `s'` has all locals of `s` and more of the same block, as far as there are slots. -/
structure Scope.Grown (s s' : Scope) : Prop where
  depth : s'.depth = s.depth
  more : ∃ new, s'.locals = new ++ s.locals ∧ ∀ l ∈ new, l.depth = s.depth
  small : s.locals.length ≤ 65536 → s'.locals.length ≤ 65536

theorem Scope.Grown.refl (s : Scope) : s.Grown s :=
  ⟨rfl, ⟨[], rfl, nofun⟩, id⟩

theorem Scope.Grown.of_eq {s s' : Scope} (h : s' = s) : s.Grown s' :=
  h ▸ refl s

theorem Scope.Grown.trans {s s1 s2 : Scope} (h1 : s.Grown s1) (h2 : s1.Grown s2) :
    s.Grown s2 := by
  obtain ⟨hd1, ⟨new1, hl1, hn1⟩, hs1⟩ := h1
  obtain ⟨hd2, ⟨new2, hl2, hn2⟩, hs2⟩ := h2
  refine ⟨hd2.trans hd1, ⟨new2 ++ new1, by rw [hl2, hl1, List.append_assoc], ?_⟩, hs2 ∘ hs1⟩
  intro l hl
  rcases List.mem_append.mp hl with hl | hl
  · rw [hn2 l hl, hd1]
  · exact hn1 l hl

def Value.Refers (n : Nat) : Value → Prop
  | .function r => r.index < n
  | v => v.IsAtom

theorem Value.IsAtom.refers {v : Value} (h : v.IsAtom) (n : Nat) : v.Refers n := by
  cases v <;> first | exact h | exact h.elim

theorem Value.Refers.mono {v : Value} {n' : Nat} (h : v.Refers n) (hle : n ≤ n') : v.Refers n' := by
  cases v with
  | function r => exact Nat.lt_of_lt_of_le h hle
  | _ => exact h

/-- The code `F` was emitted between the drafts `d` and `d'`; constants, functions and names of
globals were only added. -/
structure Added (d : Draft) (F : Fragment) (d' : Draft) : Prop where
  offset : d'.offset = d.offset + Fragment.span F.toList
  pool : Extends d.constants d'.constants
  fresh : ∀ v ∈ d'.constants, v ∈ d.constants ∨ v.Refers (d'.base + d'.functions.size)
  functions : d.functions.toList <+: d'.functions.toList
  base : d'.base = d.base
  globals : d.globals <:+ d'.globals

namespace Added

variable {d d1 d2 : Draft} {F G : Fragment}

theorem of_emitted (h : Emitted d F d1) : Added d F d1 :=
  ⟨h.offset, h.pool, fun v hv => (h.fresh v hv).imp_right (·.refers _),
    h.functions ▸ List.prefix_rfl, h.base, h.globals ▸ List.suffix_rfl⟩

theorem refl (d : Draft) : Added d #[] d :=
  of_emitted (Emitted.refl d)

theorem size_le (h : Added d F d1) : d.base + d.functions.size ≤ d1.base + d1.functions.size := by
  rw [h.base]
  exact Nat.add_le_add_left h.functions.length_le _

theorem trans (h1 : Added d F d1) (h2 : Added d1 G d2) : Added d (F ++ G) d2 where
  offset := by rw [h2.offset, h1.offset, Array.toList_append, Fragment.span_append, Nat.add_assoc]
  pool := h1.pool.trans h2.pool
  fresh v hv := (h2.fresh v hv).elim
    (fun h => (h1.fresh v h).imp_right (·.mono h2.size_le)) .inr
  functions := h1.functions.trans h2.functions
  base := h2.base.trans h1.base
  globals := h1.globals.trans h2.globals

/-- Pieces that are written while the draft advances by their size. -/
theorem advance (h : Added d F d1) (hn : Fragment.span G.toList = n) :
    Added d (F ++ G) (d1.advance n) :=
  h.trans (of_emitted (Emitted.advance d1 hn))

theorem instr (h : Added d F d1) {line : Nat} {i : Instr} (hn : i.size = n) :
    Added d (F ++ #[⟨line, .instr i⟩]) (d1.advance n) :=
  h.advance (by simp [Step.size, hn])

/-- The scope and the line do not matter. -/
theorem withScope (h : Added d F d1) (s : Scope) : Added d F (d1.withScope s) :=
  { h with }

theorem declare (h : Added d F d1) {slot : UInt16}
    (hd : (Compile.declare name).run d1 = .ok (slot, d2)) : Added d F d2 := by
  obtain ⟨_, _, _, rfl⟩ := run_declare_ok.mp hd
  exact h.withScope _

theorem le (h : Added d F d1) : d.offset ≤ d1.offset := by
  rw [h.offset]
  exact Nat.le_add_right _ _

end Added

/-- Besides, at most locals of the current block were declared. -/
structure Grows (d : Draft) (F : Fragment) (d' : Draft) : Prop extends Added d F d' where
  scope : d.scope.Grown d'.scope
  same : d'.functions = d.functions

namespace Grows

variable {d d1 d2 : Draft} {F G : Fragment}

theorem of_emitted (h : Emitted d F d1) : Grows d F d1 :=
  ⟨.of_emitted h, .of_eq h.scope, h.functions⟩

theorem refl (d : Draft) : Grows d #[] d :=
  of_emitted (Emitted.refl d)

theorem trans (h1 : Grows d F d1) (h2 : Grows d1 G d2) : Grows d (F ++ G) d2 :=
  ⟨h1.toAdded.trans h2.toAdded, h1.scope.trans h2.scope, h2.same.trans h1.same⟩

theorem declare (h : Grows d F d1) {slot : UInt16}
    (hd : (Compile.declare name).run d1 = .ok (slot, d2)) : Grows d F d2 := by
  refine ⟨h.toAdded.declare hd, h.scope.trans ?_, ?_⟩
  all_goals obtain ⟨_, hlt, _, rfl⟩ := run_declare_ok.mp hd
  · exact ⟨rfl, ⟨[⟨name, d1.scope.depth⟩], rfl, by simp⟩, fun _ => hlt⟩
  · exact h.same

end Grows

/-! ### The rules -/

/-- Where a value to be stored comes from. -/
inductive Source
  | expr (e : Expr)
  | input (prompt : Option Expr)
  | newArray (sizes : List Expr)
  | readData
  /-- The element of a collection in the local `each` at the index in the local `index`. -/
  | item (each index : UInt16)

/-- The code of a value to be stored. -/
inductive Yields (D : List Duty) : Source → Draft → Fragment → Draft → List Landmark → Prop
  | expr {e d F d' ms} :
    Pushes D (.one e) d F d' ms →
    Yields D (.expr e) d F d' ms
  | input {d} :
    Yields D (.input none) d #[⟨d.line, .instr (.input 0)⟩] (d.advance 2) []
  | prompt {e d F d1 ms} :
    Pushes D (.one e) d F d1 ms →
    Yields D (.input (some e)) d (F ++ #[⟨d1.line, .instr (.input 1)⟩]) (d1.advance 2) ms
  | newArray {sizes d F d1 ms} :
    sizes.length < 256 →
    Pushes D (.many sizes) d F d1 ms →
    Yields D (.newArray sizes) d
      (F ++ #[⟨d1.line, .instr (.newArray (UInt8.ofNat sizes.length))⟩]) (d1.advance 2) ms
  | readData {d} :
    Yields D .readData d #[⟨d.line, .instr .readData⟩] (d.advance 1) []
  | item {each index d} :
    Yields D (.item each index) d
      #[⟨d.line, .instr (.getLocal each)⟩, ⟨d.line, .instr (.getLocal index)⟩,
        ⟨d.line, .instr .iterValue⟩] (d.advance 7) []

/-- Whether a name that stands for no local becomes one when it is assigned. -/
def Site.declares (site : Site) (d : Draft) (name : String) : Bool :=
  site.inFunction && !d.globals.contains name

/-- The code that stores a value. -/
inductive Stores (site : Site) : Target → Source → Draft → Fragment → Draft → List Landmark → Prop
  | toLocal {name source d F d1 ms slot} :
    Yields site.duties source d F d1 ms →
    slotIn d1 name = some slot →
    Stores site (.var name) source d
      (F ++ #[⟨d1.line, .instr (.setLocal (UInt16.ofNat slot))⟩] ++ #[⟨d1.line, .instr .pop⟩])
      (d1.advance 4) ms
  | toNew {name source d F d1 ms slot d2} :
    Yields site.duties source d F d1 ms →
    slotIn d1 name = none →
    site.declares d1 name = true →
    (declare name).run d1 = .ok (slot, d2) →
    Stores site (.var name) source d F d2 ms
  | toGlobal {name source d F d1 ms index d2} :
    Yields site.duties source d F d1 ms →
    slotIn d1 name = none →
    site.declares d1 name = false →
    (constant (.str name)).run d1 = .ok (index, d2) →
    Stores site (.var name) source d
      (F ++ #[⟨d1.line, .instr (.setGlobal index)⟩] ++ #[⟨d1.line, .instr .pop⟩]) (d2.advance 4) ms
  | toElement {object keys source d F d1 ms G d2 ns H d3 os} :
    Pushes site.duties (.one object) d F d1 ms →
    Pushes site.duties (.many keys) d1 G d2 ns →
    keys.length < 256 →
    Yields site.duties source
    (d2.advance (Fragment.span (packing d2.line keys.length).toList)) H d3 os →
    Stores site (.index object keys) source d
      (F ++ G ++ packing d2.line keys.length ++ H ++ #[⟨d3.line, .instr .setIndex⟩] ++
        #[⟨d3.line, .instr .pop⟩])
      (d3.advance 2) (ms ++ ns ++ os)

/-- The code that stores values one after another. -/
inductive StoresAll (site : Site) :
    List (Target × Source) → Draft → Fragment → Draft → List Landmark → Prop
  | nil {d} : StoresAll site [] d #[] d []
  | cons {target source rest d F d1 ms G d2 ns} :
    Stores site target source d F d1 ms →
    StoresAll site rest d1 G d2 ns →
    StoresAll site ((target, source) :: rest) d (F ++ G) d2 (ms ++ ns)

/-- The code that gives a loop variable a place. -/
inductive Ensures (site : Site) (name : String) : Draft → Fragment → Draft → Prop
  | place {d slot d'} :
    site.declares d name = true →
    d.scope.slot? name = none →
    (declare name).run (d.advance 1) = .ok (slot, d') →
    Ensures site name d #[⟨d.line, .instr .pushAbsent⟩] d'
  | nothing {d} :
    site.declares d name = false ∨ (d.scope.slot? name).isSome →
    Ensures site name d #[] d

/-- The code that compares a local with the values of a `case`: a match jumps behind the code,
which ends with a jump to `next`. -/
inductive Tests (D : List Duty) (subject : UInt16) (next : Nat) :
    List Expr → Draft → Fragment → Draft → List Landmark → Prop
  | nil {d miss} :
    Forward .jump d.offset next miss →
    Tests D subject next [] d miss (d.advance 3) []
  | cons {value rest d F d1 ms hit G d2 ns} :
    Pushes D (.one value) (d.advance 3) F d1 ms →
    Forward .jumpIfTrue (d1.offset + 1) d2.offset hit →
    Tests D subject next rest (d1.advance 4) G d2 ns →
    Tests D subject next (value :: rest) d
      (#[⟨d.line, .instr (.getLocal subject)⟩] ++ F ++ #[⟨d1.line, .instr (.binary .eq)⟩] ++
        hit ++ G)
      d2 (ms ++ ns)

/-- The code of a statement that contains no statements and leaves none. -/
inductive Acts (site : Site) : StmtKind → Draft → Fragment → Draft → List Landmark → Prop
  | eval {e d F d1 ms} :
    Pushes site.duties (.one e) d F d1 ms →
    Acts site (.eval e) d (F ++ #[⟨d1.line, .instr .pop⟩]) (d1.advance 1) ms
  | assign {target value d F d' ms} :
    Stores site target (.expr value) d F d' ms →
    Acts site (.assign target value) d F d' ms
  | declareLocal {name d slot d'} :
    site.declares d name = true →
    (declare name).run (d.advance 1) = .ok (slot, d') →
    Acts site (.declare name) d #[⟨d.line, .instr .pushAbsent⟩] d' []
  | declareGlobal {name d index d1} :
    site.declares d name = false →
    (constant (.str name)).run (d.advance 1) = .ok (index, d1) →
    Acts site (.declare name) d
      (#[⟨d.line, .instr .pushAbsent⟩] ++ #[⟨d.line, .instr (.setGlobal index)⟩] ++
        #[⟨d.line, .instr .pop⟩]) (d1.advance 4) []
  | print {items d F d1 ms} :
    items.length < 256 →
    Pushes site.duties (.many items) d F d1 ms →
    Acts site (.print items) d
      (F ++ #[⟨d1.line, .instr (.print (UInt8.ofNat items.length))⟩]) (d1.advance 2) ms
  | input {target prompt d F d' ms} :
    Stores site target (.input prompt) d F d' ms →
    Acts site (.input target prompt) d F d' ms
  | dim {arrays d F d' ms} :
    StoresAll site (arrays.map fun (name, sizes) => (.var name, .newArray sizes)) d F d' ms →
    Acts site (.dim arrays) d F d' ms
  | data {items d} :
    Acts site (.data items) d #[] d []
  | read {targets d F d' ms} :
    StoresAll site (targets.map fun t => (t, .readData)) d F d' ms →
    Acts site (.read targets) d F d' ms
  | restore {d} :
    Acts site .restore d #[⟨d.line, .instr .restoreData⟩] (d.advance 1) []
  | importModule {path d index d1} :
    (constant (.str path)).run d = .ok (index, d1) →
    Acts site (.importModule path) d
      (#[⟨d.line, .instr (.importModule index)⟩] ++ #[⟨d.line, .instr .await⟩] ++
        #[⟨d.line, .instr .mergeGlobals⟩]) (d1.advance 5) []
  | spawn {callee args d F d1 ms} :
    Pushes site.duties (.one (.spawn callee args)) d F d1 ms →
    Acts site (.spawn callee args) d (F ++ #[⟨d1.line, .instr .pop⟩]) (d1.advance 1) ms
  | global {names d} :
    site.inFunction = true →
    Acts site (.global names) d #[] { d with globals := names ++ d.globals } []
  | raise {e d F d1 ms} :
    Pushes site.duties (.one e) d F d1 ms →
    Acts site (.raise e) d (F ++ #[⟨d1.line, .instr .raise⟩]) (d1.advance 1) ms
  | debug {e text d F d1 ms index d2} :
    Pushes site.duties (.one e) d F d1 ms →
    (constant (.str text)).run d1 = .ok (index, d2) →
    Acts site (.debug e text) d (F ++ #[⟨d1.line, .instr (.debug index)⟩]) (d2.advance 3) ms

/-- True for the statements that contain no statements and do not leave any. -/
def StmtKind.isSimple : StmtKind → Bool
  | .ifChain _ _ | .whileLoop _ _ | .countLoop _ _ _ _ _ | .eachLoop _ _ _ => false
  | .function _ _ _ _ _ | .ret _ | .breakLoop | .continueLoop => false
  | .tryBlock _ _ _ | .switchBlock _ _ _ => false
  | _ => true

/-! ### What the code does to the draft -/

section

variable {site : Site} {d d' : Draft} {F : Fragment} {ms : List Landmark}

theorem Yields.emitted {D : List Duty} (h : Yields D source d F d' ms) : Emitted d F d' := by
  cases h with
  | expr h => exact h.emitted
  | input | readData => exact (Emitted.refl _).first rfl
  | prompt h | newArray _ h => exact h.emitted.instr rfl
  | item => exact Emitted.advance _ rfl

theorem Stores.grows {target : Target} (h : Stores site target source d F d' ms) :
    Grows d F d' := by
  cases h with
  | toLocal h _ => exact .of_emitted ((h.emitted.instr rfl).instr rfl)
  | toNew h _ _ hd => exact (Grows.of_emitted h.emitted).declare hd
  | toGlobal h _ _ hc =>
    exact .of_emitted (((emitted_then_constant h.emitted hc trivial).instr rfl).instr rfl)
  | toElement ho hk _ hs =>
    exact .of_emitted (((((ho.emitted.trans hk.emitted).trans (Emitted.advance _ rfl)).trans
      hs.emitted).instr rfl).instr rfl)

theorem StoresAll.grows {stores : List (Target × Source)} (h : StoresAll site stores d F d' ms) :
    Grows d F d' := by
  induction h with
  | nil => exact .refl _
  | cons h _ ih => exact h.grows.trans ih

theorem Ensures.grows (h : Ensures site name d F d') : Grows d F d' := by
  cases h with
  | place _ _ hd => exact (Grows.of_emitted ((Emitted.refl d).first rfl)).declare hd
  | nothing _ => exact .refl _

theorem Tests.emitted {D : List Duty} {next : Nat} (h : Tests D subject next values d F d' ms) :
    Emitted d F d' := by
  induction h with
  | nil hmiss => exact hmiss.emitted _
  | cons hv hhit _ ih =>
    exact ((((((Emitted.refl _).first (i := .getLocal subject) rfl).trans hv.emitted).instr
      (i := .binary .eq) rfl).trans (hhit.emitted _)).trans ih)

theorem Acts.grows {k : StmtKind} (h : Acts site k d F d' ms) : Grows d F d' := by
  cases h with
  | eval h | print _ h | spawn h | raise h => exact .of_emitted (h.emitted.instr rfl)
  | assign h | input h | dim h | read h => exact h.grows
  | declareLocal _ hd => exact (Grows.of_emitted ((Emitted.refl d).first rfl)).declare hd
  | declareGlobal _ hc =>
    have habsent : Emitted d #[⟨d.line, .instr .pushAbsent⟩] (d.advance 1) :=
      (Emitted.refl d).first rfl
    exact .of_emitted (((emitted_then_constant habsent hc trivial).instr rfl).instr rfl)
  | data => exact .refl _
  | restore => exact .of_emitted ((Emitted.refl _).first rfl)
  | importModule hc =>
    exact .of_emitted ((((emitted_constant hc trivial).first rfl).instr rfl).instr rfl)
  | global _ =>
    exact ⟨⟨rfl, Extends.refl _, fun _ h => .inl h, List.prefix_rfl, rfl, List.suffix_append _ _⟩,
      .refl _, rfl⟩
  | debug h hc =>
    exact .of_emitted ((emitted_then_constant h.emitted hc trivial).instr rfl)

end

/-! ### The compiler works by these rules -/

namespace Compile

variable {D : List Duty} {site : Site} {d d' : Draft} {F : Fragment}

/-- The code that `x` gives for a value comes about by the rules. -/
def YieldsOf (D : List Duty) (source : Source) (x : Compile Fragment) : Prop :=
  ∀ (d : Draft) (F : Fragment) (d' : Draft), x.run d = .ok (F, d') →
    ∃ ms, Yields D source d F d' ms

theorem yields_expr (e : Expr) : YieldsOf D (.expr e) (expr e) := by
  intro d F d' h
  obtain ⟨ms, hms⟩ := pushes_expr h
  exact ⟨ms, .expr hms⟩

theorem yields_input : YieldsOf D (.input none) (emit (.input 0)) := by
  intro d F d' h
  obtain ⟨rfl, rfl⟩ := run_emit_ok.mp h
  exact ⟨[], .input⟩

theorem yields_prompt (e : Expr) : YieldsOf D (.input (some e)) (do
    let code ← expr e
    return code ++ (← emit (.input 1))) := by
  intro d F d' h
  simp only [run_bind_ok, run_emit_ok, run_pure_ok] at h
  obtain ⟨G, d1, he, _, _, ⟨rfl, rfl⟩, rfl, rfl⟩ := h
  obtain ⟨ms, hms⟩ := pushes_expr he
  exact ⟨ms, .prompt hms⟩

theorem yields_newArray {sizes : List Expr} (hlt : sizes.length < 256) :
    YieldsOf D (.newArray sizes) (do
      let code ← exprs sizes #[]
      return code ++ (← emit (.newArray (UInt8.ofNat sizes.length)))) := by
  intro d F d' h
  simp only [run_bind_ok, run_emit_ok, run_pure_ok] at h
  obtain ⟨_, d1, hsizes, _, _, ⟨rfl, rfl⟩, rfl, rfl⟩ := h
  obtain ⟨G, ms, rfl, hms⟩ := pushes_exprs sizes _ _ _ _ hsizes
  rw [Array.empty_append]
  exact ⟨ms, .newArray hlt hms⟩

theorem yields_readData : YieldsOf D .readData (emit .readData) := by
  intro d F d' h
  obtain ⟨rfl, rfl⟩ := run_emit_ok.mp h
  exact ⟨[], .readData⟩

theorem yields_eachItem (each index : UInt16) :
    YieldsOf D (.item each index) (eachItem each index) := by
  intro d F d' h
  simp only [eachItem, run_bind_ok, run_emit_ok, run_pure_ok] at h
  obtain ⟨_, _, ⟨rfl, rfl⟩, _, _, ⟨rfl, rfl⟩, _, _, ⟨rfl, rfl⟩, rfl, rfl⟩ := h
  exact ⟨[], .item⟩

theorem stores_storeVariable {G : Fragment} {d1 : Draft} {ms : List Landmark}
    (hyields : Yields site.duties source d G d1 ms)
    (h : (storeVariable site.around name).run d1 = .ok (F, d')) :
    Stores site (.var name) source d (G ++ F) d' ms := by
  rw [storeVariable, run_bind_ok] at h
  obtain ⟨_, d2, hslot, h⟩ := h
  obtain ⟨rfl, rfl⟩ := run_localSlot?_ok.mp hslot
  cases hs : slotIn d2 name with
  | some slot =>
    simp only [hs, Option.map_some, run_bind_ok, run_emit_ok, run_pure_ok] at h
    obtain ⟨_, _, ⟨rfl, rfl⟩, _, _, ⟨rfl, rfl⟩, rfl, rfl⟩ := h
    rw [← Array.append_assoc]
    exact .toLocal hyields hs
  | none =>
    simp only [hs, Option.map_none, run_bind_ok, run_isGlobal_ok] at h
    obtain ⟨_, d3, ⟨rfl, rfl⟩, h⟩ := h
    cases hdecl : site.declares d3 name with
    | true =>
      have hdecl' : (site.around.inFunction && !d3.globals.contains name) = true := hdecl
      simp only [hdecl', if_true, run_bind_ok, run_pure_ok] at h
      obtain ⟨slot, _, hd, rfl, rfl⟩ := h
      rw [Array.append_empty]
      exact .toNew hyields hs hdecl hd
    | false =>
      have hdecl' : (site.around.inFunction && !d3.globals.contains name) = false := hdecl
      simp only [hdecl', Bool.false_eq_true, if_false, run_bind_ok, run_emit_ok, run_pure_ok,
        nameConstant] at h
      obtain ⟨index, d4, hindex, _, _, ⟨rfl, rfl⟩, _, _, ⟨rfl, rfl⟩, rfl, rfl⟩ := h
      rw [← Array.append_assoc, constant_line hindex, Draft.advance_line,
        constant_line hindex]
      exact .toGlobal hyields hs hdecl hindex

theorem stores_store {target : Target} {x : Compile Fragment} (hx : YieldsOf site.duties source x)
    (h : (store site.around target x).run d = .ok (F, d')) :
    ∃ ms, Stores site target source d F d' ms := by
  cases target with
  | var name =>
    simp only [store, run_bind_ok, run_pure_ok] at h
    obtain ⟨G, d1, hvalue, H, _, hstore, rfl, rfl⟩ := h
    obtain ⟨ms, hms⟩ := hx _ _ _ hvalue
    exact ⟨ms, stores_storeVariable hms hstore⟩
  | index object keys =>
    simp only [store, run_bind_ok, run_emit_ok, run_pure_ok] at h
    obtain ⟨G, d1, ho, _, d2, hk, h⟩ := h
    obtain ⟨_, _, hpack, H, d3, hvalue, _, _, ⟨rfl, rfl⟩, _, _, ⟨rfl, rfl⟩, rfl, rfl⟩ := h
    obtain ⟨ms, hms⟩ := pushes_expr ho
    obtain ⟨K, ns, rfl, hns⟩ := pushes_exprs keys _ _ _ _ hk
    obtain ⟨hlt, rfl, rfl⟩ := run_packKeys_ok hpack
    obtain ⟨os, hos⟩ := hx _ _ _ hvalue
    exact ⟨_, .toElement hms hns hlt hos⟩

theorem storesAll_dim {arrays : List (String × List Expr)} {acc : Fragment}
    (h : (arrays.foldlM (fun code (name, sizes) => do
      let count ← narrow .dimensions sizes.length
      let more ← store site.around (.var name) do
        let code ← exprs sizes #[]
        return code ++ (← emit (.newArray count))
      return code ++ more) acc : Compile Fragment).run d = .ok (F, d')) :
    ∃ G ms, F = acc ++ G ∧
      StoresAll site (arrays.map fun (name, sizes) => (.var name, .newArray sizes)) d G d' ms := by
  induction arrays generalizing acc d with
  | nil =>
    obtain ⟨rfl, rfl⟩ := run_pure_ok.mp h
    exact ⟨#[], [], by simp, .nil⟩
  | cons array arrays ih =>
    obtain ⟨name, sizes⟩ := array
    simp only [List.foldlM_cons, run_bind_ok, run_narrow_ok] at h
    obtain ⟨_, d1, ⟨_, _, ⟨hlt, rfl, rfl⟩, G, _, hstore, hacc⟩, hrest⟩ := h
    obtain ⟨rfl, rfl⟩ := run_pure_ok.mp hacc
    obtain ⟨ms, hms⟩ := stores_store (yields_newArray hlt) hstore
    obtain ⟨H, ns, rfl, hns⟩ := ih hrest
    exact ⟨G ++ H, _, by rw [Array.append_assoc], .cons hms hns⟩

theorem storesAll_read {targets : List Target} {acc : Fragment}
    (h : (targets.foldlM (fun code t => do
      return code ++ (← store site.around t (emit .readData))) acc : Compile Fragment).run d =
        .ok (F, d')) :
    ∃ G ms, F = acc ++ G ∧
      StoresAll site (targets.map fun t => (t, .readData)) d G d' ms := by
  induction targets generalizing acc d with
  | nil =>
    obtain ⟨rfl, rfl⟩ := run_pure_ok.mp h
    exact ⟨#[], [], by simp, .nil⟩
  | cons target targets ih =>
    simp only [List.foldlM_cons, run_bind_ok, run_pure_ok] at h
    obtain ⟨_, d1, ⟨G, _, hstore, rfl, rfl⟩, hrest⟩ := h
    obtain ⟨ms, hms⟩ := stores_store yields_readData hstore
    obtain ⟨H, ns, rfl, hns⟩ := ih hrest
    exact ⟨G ++ H, _, by rw [Array.append_assoc], .cons hms hns⟩

theorem ensures_ensureVariable (h : (ensureVariable site.around name).run d = .ok (F, d')) :
    Ensures site name d F d' := by
  simp only [ensureVariable, run_bind_ok, run_get_ok] at h
  obtain ⟨_, d0, ⟨rfl, rfl⟩, h⟩ := h
  split at h
  next hplace =>
    simp only [Bool.and_eq_true] at hplace
    simp only [run_bind_ok, run_emit_ok, run_pure_ok] at h
    obtain ⟨_, _, ⟨rfl, rfl⟩, slot, _, hd, rfl, rfl⟩ := h
    have hdecl : site.declares d0 name = true := by
      rw [Site.declares, Bool.and_eq_true]
      exact hplace.1
    exact .place hdecl (Option.isNone_iff_eq_none.mp hplace.2) hd
  next hplace =>
    obtain ⟨rfl, rfl⟩ := run_pure_ok.mp h
    cases hdecl : site.declares d' name with
    | false => exact .nothing (.inl hdecl)
    | true =>
      have hdecl' : (site.around.inFunction && !d'.globals.contains name) = true := hdecl
      rw [hdecl', Bool.true_and, Option.isNone_iff_eq_none] at hplace
      exact .nothing (.inr (Option.isSome_iff_ne_none.mpr hplace))

/-- The room for the jump stands last. -/
theorem caseTests_gap {gap : Gap} (h : (caseTests subject values).run d = .ok ((F, gap), d')) :
    gap.stop = d'.offset := by
  induction values generalizing d F d' with
  | nil =>
    simp only [caseTests, run_bind_ok, run_reserve_ok, run_pure_ok] at h
    obtain ⟨_, _, ⟨rfl, rfl⟩, h, rfl⟩ := h
    cases h
    rfl
  | cons value rest ih =>
    simp only [caseTests, run_bind_ok, run_emit_ok, run_reserve_ok, run_fill_ok, run_pure_ok] at h
    obtain ⟨_, _, ⟨rfl, rfl⟩, G, d1, hvalue, _, _, ⟨rfl, rfl⟩, _, _, ⟨rfl, rfl⟩, h⟩ := h
    obtain ⟨⟨more, gap'⟩, d2, hrest, hit, _, ⟨_, _, rfl⟩, h, rfl⟩ := h
    obtain ⟨rfl, rfl⟩ := Prod.mk.inj h
    exact ih hrest

theorem tests_caseTests {gap : Gap} {next : Nat} {miss : Fragment}
    (hmiss : ∀ o, gap.stop = o + 3 → Forward .jump o next miss)
    (h : (caseTests subject values).run d = .ok ((F, gap), d')) :
    ∃ ms, Tests D subject next values d (F ++ miss) d' ms := by
  induction values generalizing d F d' with
  | nil =>
    simp only [caseTests, run_bind_ok, run_reserve_ok, run_pure_ok] at h
    obtain ⟨_, _, ⟨rfl, rfl⟩, h, rfl⟩ := h
    cases h
    rw [Array.empty_append]
    exact ⟨[], .nil (hmiss _ rfl)⟩
  | cons value rest ih =>
    simp only [caseTests, run_bind_ok, run_emit_ok, run_reserve_ok, run_pure_ok] at h
    obtain ⟨_, _, ⟨rfl, rfl⟩, G, d1, hvalue, _, _, ⟨rfl, rfl⟩, _, _, ⟨rfl, rfl⟩, h⟩ := h
    obtain ⟨⟨more, gap'⟩, d2, hrest, hit, _, hhit, h, rfl⟩ := h
    obtain ⟨rfl, rfl⟩ := Prod.mk.inj h
    obtain ⟨ms, hms⟩ := pushes_expr hvalue
    obtain ⟨ns, hns⟩ := ih hrest
    have hle : d1.offset + 4 ≤ d2.offset := by
      rw [hns.emitted.offset]
      exact Nat.le_add_right _ _
    obtain ⟨jhit, rfl⟩ := run_fill_forward (fun _ => rfl) hle hhit
    refine ⟨ms ++ ns, ?_⟩
    rw [Array.append_assoc]
    exact .cons hms jhit hns

theorem acts_declaration (h : (declaration site.around name).run d = .ok (F, d')) :
    Acts site (.declare name) d F d' [] := by
  simp only [declaration, run_bind_ok, run_emit_ok, run_isGlobal_ok] at h
  obtain ⟨_, _, ⟨rfl, rfl⟩, _, _, ⟨rfl, rfl⟩, h⟩ := h
  cases hdecl : site.declares d name with
  | true =>
    have hdecl' : (site.around.inFunction && !d.globals.contains name) = true := hdecl
    simp only [Draft.advance_globals, hdecl', if_true, run_bind_ok, run_pure_ok] at h
    obtain ⟨slot, _, hd, rfl, rfl⟩ := h
    exact .declareLocal hdecl hd
  | false =>
    have hdecl' : (site.around.inFunction && !d.globals.contains name) = false := hdecl
    simp only [Draft.advance_globals, hdecl', Bool.false_eq_true, if_false, run_bind_ok,
      run_emit_ok, run_pure_ok, nameConstant] at h
    obtain ⟨index, d1, hindex, _, _, ⟨rfl, rfl⟩, _, _, ⟨rfl, rfl⟩, rfl, rfl⟩ := h
    simp only [Draft.advance_line, constant_line hindex]
    exact .declareGlobal hdecl hindex

/-- The code of a simple statement comes about by the rules. -/
theorem acts_stmt {fuel : Nat} {k : StmtKind} (hk : k.isSimple = true)
    (h : (stmt (fuel + 1) site.around (.mk d.line k)).run d = .ok (F, d')) :
    ∃ ms, Acts site k d F d' ms := by
  have hline {x : Compile Fragment}
      (hx : (modify (fun e : Draft => { e with line := d.line }) >>= fun _ => x).run d =
        .ok (F, d')) : x.run d = .ok (F, d') := hx
  cases k with
  | eval e =>
    rw [stmt] at h
    replace h := hline h
    simp only [run_bind_ok, run_emit_ok, run_pure_ok] at h
    obtain ⟨G, d1, he, _, _, ⟨rfl, rfl⟩, rfl, rfl⟩ := h
    obtain ⟨ms, hms⟩ := pushes_expr he
    exact ⟨ms, .eval hms⟩
  | assign target value =>
    rw [stmt] at h
    obtain ⟨ms, hms⟩ := stores_store (yields_expr value) (hline h)
    exact ⟨ms, .assign hms⟩
  | declare name =>
    rw [stmt] at h
    exact ⟨[], acts_declaration (hline h)⟩
  | print items =>
    rw [stmt] at h
    replace h := hline h
    simp only [run_bind_ok, run_narrow_ok, run_emit_ok, run_pure_ok] at h
    obtain ⟨_, _, ⟨hlt, rfl, rfl⟩, _, d1, hitems, _, _, ⟨rfl, rfl⟩, rfl, rfl⟩ := h
    obtain ⟨G, ms, rfl, hms⟩ := pushes_exprs items _ _ _ _ hitems
    rw [Array.empty_append]
    exact ⟨ms, .print hlt hms⟩
  | input target prompt =>
    cases prompt with
    | none =>
      rw [stmt] at h
      obtain ⟨ms, hms⟩ := stores_store yields_input (hline h)
      exact ⟨ms, .input hms⟩
    | some e =>
      rw [stmt] at h
      obtain ⟨ms, hms⟩ := stores_store (yields_prompt e) (hline h)
      exact ⟨ms, .input hms⟩
  | dim arrays =>
    rw [stmt] at h
    obtain ⟨G, ms, rfl, hms⟩ := storesAll_dim (hline h)
    rw [Array.empty_append]
    exact ⟨ms, .dim hms⟩
  | data items =>
    rw [stmt] at h
    obtain ⟨rfl, rfl⟩ := run_pure_ok.mp (hline h)
    exact ⟨[], .data⟩
  | read targets =>
    rw [stmt] at h
    obtain ⟨G, ms, rfl, hms⟩ := storesAll_read (hline h)
    rw [Array.empty_append]
    exact ⟨ms, .read hms⟩
  | restore =>
    rw [stmt] at h
    obtain ⟨rfl, rfl⟩ := run_emit_ok.mp (hline h)
    exact ⟨[], .restore⟩
  | importModule path =>
    rw [stmt] at h
    replace h := hline h
    simp only [run_bind_ok, run_emit_ok, run_pure_ok] at h
    obtain ⟨index, d1, hindex, _, _, ⟨rfl, rfl⟩, _, _, ⟨rfl, rfl⟩, _, _, ⟨rfl, rfl⟩, rfl, rfl⟩ := h
    simp only [Draft.advance_line, constant_line hindex]
    exact ⟨[], .importModule hindex⟩
  | spawn callee args =>
    rw [stmt] at h
    replace h := hline h
    rw [run_bind_ok] at h
    obtain ⟨G, d1, he, h⟩ := h
    simp only [run_bind_ok, run_emit_ok, run_pure_ok] at h
    obtain ⟨_, _, ⟨rfl, rfl⟩, rfl, rfl⟩ := h
    obtain ⟨ms, hms⟩ := pushes_expr he
    exact ⟨ms, .spawn hms⟩
  | global names =>
    rw [stmt] at h
    replace h := hline h
    dsimp only at h
    split at h
    next hin =>
      simp only [run_bind_ok, run_modify_ok, run_pure_ok] at h
      obtain ⟨_, _, rfl, rfl, rfl⟩ := h
      exact ⟨[], .global hin⟩
    next => exact absurd h (by simp)
  | raise e =>
    rw [stmt] at h
    replace h := hline h
    simp only [run_bind_ok, run_emit_ok, run_pure_ok] at h
    obtain ⟨G, d1, he, _, _, ⟨rfl, rfl⟩, rfl, rfl⟩ := h
    obtain ⟨ms, hms⟩ := pushes_expr he
    exact ⟨ms, .raise hms⟩
  | debug e text =>
    rw [stmt] at h
    replace h := hline h
    simp only [run_bind_ok, run_emit_ok, run_pure_ok] at h
    obtain ⟨G, d1, he, index, d2, hindex, _, _, ⟨rfl, rfl⟩, rfl, rfl⟩ := h
    obtain ⟨ms, hms⟩ := pushes_expr he
    rw [constant_line hindex]
    exact ⟨ms, .debug hms hindex⟩
  | _ => exact absurd hk (by simp [StmtKind.isSimple])

end Compile

end TaskBasic
