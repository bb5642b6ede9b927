import TaskBasic.Proofs.Code.Acts

/-
How the code of statements is put together.

`Emits phrase d F d' marks` says: beginning with the draft `d`, the compiler
turns `phrase` into the code `F` and has the draft `d'` then.  There is one rule
for each way in which statements contain others.  `marks` are the places of all
statements, expressions and copies of `finally` blocks in the code.

`Emits.added` says what the code adds to the draft.

The offsets that a rule names (of handlers, of the ends of loops) are those that
are known only when the code is complete, so a rule may refer to a draft that
comes later in it.
-/

namespace TaskBasic

/-- What is turned into code. -/
inductive Phrase
  | stmt (site : Site) (s : Stmt)
  | kind (site : Site) (k : StmtKind)
  /-- Statements one after another. -/
  | body (site : Site) (ss : List Stmt)
  /-- Statements in a block of their own. -/
  | block (site : Site) (ss : List Stmt)
  /-- The branches of an `if`, and the block if no condition holds. -/
  | branches (site : Site) (otherwise : Option (List Stmt)) (bs : List (Expr × List Stmt))
  /-- The cases of a `switch` on the local `subject`, and the block if no value matches. -/
  | arms (site : Site) (subject : UInt16) (otherwise : Option (List Stmt))
      (cs : List (List Expr × List Stmt))
  /-- The handler of a `try` statement that begins at `owner`; `landing` are the duties there. -/
  | handler (site : Site) (owner : Attempt) (handling : Option (String × List Stmt))
      (cleanup : Option (List Stmt)) (landing : List Duty)
  | leaving (site : Site) (transfer : Transfer) (depth : Nat)
  /-- The way out of all open regions but the outermost `tryDepth`, and of all locals deeper
  than `scopeDepth`. -/
  | unwind (site : Site) (transfer : Transfer) (scopeDepth tryDepth : Nat)

namespace Draft

/-- The draft in which the body of a function is compiled. -/
def forFunction (d : Draft) : Draft :=
  { base := d.base, functions := d.functions, line := d.line }

def withFunction (d : Draft) (f : Function) (before : Array Function) : Draft :=
  { d with functions := before.push f }

/-- The `try` region that is opened here. -/
def openTry (d : Draft) (cleanup : Option (List Stmt)) (owner : Attempt) (handler : Nat)
    (landing : List Duty) : OpenTry :=
  { frame := ⟨cleanup, d.scope.depth⟩, start := d.offset, owner := owner, handler := handler,
    locals := d.scope.locals, duties := landing }

end Draft

namespace Compile

/-- The code behind the body of a function. -/
def closing (line : Nat) : Fragment :=
  #[⟨line, .instr .pushAbsent⟩, ⟨line, .instr .ret⟩]

/-- The test for another round of a loop over a collection. -/
def eachTesting (line : Nat) (each index : UInt16) : Fragment :=
  #[⟨line, .instr (.getLocal index)⟩, ⟨line, .instr (.getLocal each)⟩, ⟨line, .instr .len⟩,
    ⟨line, .instr (.binary .lt)⟩]

/-- The code that adds one to the index of a loop over a collection. -/
def eachCounting (line : Nat) (index one : UInt16) : Fragment :=
  #[⟨line, .instr (.getLocal index)⟩, ⟨line, .instr (.constant one)⟩, ⟨line, .instr (.binary .add)⟩,
    ⟨line, .instr (.setLocal index)⟩, ⟨line, .instr .pop⟩]

/-- The compiler puts the pieces of a chunk together: those of a function with the given body, or
those of a program with the given statements. -/
inductive Assembled : List Stmt → Chunk → Fragment → Prop
  | function {fuel params body d W d'} :
    (functionCode (stmt fuel) params body).run (Draft.forFunction d) = .ok (W, d') →
    Assembled body (W.chunk d'.constants) W
  | program {fuel interactive p base W d} :
    (program fuel interactive p).run { base := base } = .ok (W, d) →
    Assembled p (W.chunk d.constants) W

/-- The code that binds a function to a global. -/
def binding (line : Nat) (f name : UInt16) : Fragment :=
  #[⟨line, .instr (.constant f)⟩, ⟨line, .instr (.setGlobal name)⟩, ⟨line, .instr .pop⟩]

end Compile

open Compile Fragment in
/-- The code of a phrase, of which all `finally` blocks satisfy `T`. -/
inductive Emits (T : List Stmt → Prop) :
    Phrase → Draft → Fragment → Draft → List Landmark → Prop
  | stmt {site line k d F d' ms} :
    Emits T (.kind site k) (d.atLine line) F d' ms →
    Emits T (.stmt site (.mk line k)) d F d' (d.landmark site :: (ms ++ [d'.landmark site]))
  | simple {site k d F d' ms} :
    Acts site k d F d' ms →
    Emits T (.kind site k) d F d' ms
  | nil {site d} :
    Emits T (.body site []) d #[] d []
  | cons {site s ss d F d1 ms G d2 ns} :
    Emits T (.stmt site s) d F d1 ms →
    Emits T (.body site ss) d1 G d2 ns →
    Emits T (.body site (s :: ss)) d (F ++ G) d2 (ms ++ ns)
  | block {site ss d F d1 ms drop d2} :
    Emits T (.body site ss) (d.withScope d.scope.enter) F d1 ms →
    Compile.leave.run d1 = .ok (drop, d2) →
    Emits T (.block site ss) d (F ++ drop) d2 ms
  -- branches
  | ifChain {site bs otherwise d F d' ms} :
    Emits T (.branches site otherwise bs) d F d' ms →
    Emits T (.kind site (.ifChain bs otherwise)) d F d' ms
  | branchesNone {site d} :
    Emits T (.branches site none []) d #[] d []
  | branchesElse {site body d F d' ms} :
    Emits T (.block site body) d F d' ms →
    Emits T (.branches site (some body) []) d F d' ms
  | branchesLast {site condition body d test d1 ms skip F d2 ns} :
    Pushes site.duties (.one condition) d test d1 ms →
    Forward .jumpIfFalse d1.offset d2.offset skip →
    Emits T (.block site body) (d1.advance 3) F d2 ns →
    Emits T (.branches site none [(condition, body)]) d (test ++ skip ++ F) d2 (ms ++ ns)
  | branchesCons {site otherwise condition body rest d test d1 ms skip F d2 ns out G d3 os} :
    Pushes site.duties (.one condition) d test d1 ms →
    Forward .jumpIfFalse d1.offset (d2.offset + 3) skip →
    Emits T (.block site body) (d1.advance 3) F d2 ns →
    Forward .jump d2.offset d3.offset out →
    Emits T (.branches site otherwise rest) (d2.advance 3) G d3 os →
    Emits T (.branches site otherwise ((condition, body) :: rest)) d
      (test ++ skip ++ F ++ out ++ G) d3 (ms ++ ns ++ os)
  -- loops
  | whileLoop {site condition body d test d1 ms out F d2 ns F' back} :
    Pushes site.duties (.one condition) d test d1 ms →
    Forward .jumpIfFalse d1.offset (d2.offset + 3) out →
    Emits T (.block (site.inLoop ⟨d1.scope.depth, site.opens.length, some d.offset⟩
      (redirect site.exits .leave (d2.offset + 3))
      ⟨d2.offset + 3, d.offset, d1.scope.depth, d1.scope.locals, site.opens.length⟩) body)
      (d1.advance 3) F d2 ns →
    Resolves .leave (d1.offset + 3) (d2.offset + 3) F F' →
    Backward d2.offset d.offset back →
    Emits T (.kind site (.whileLoop condition body)) d (test ++ out ++ F' ++ back) (d2.advance 3)
      (ms ++ ns)
  | countLoop {site var start stop step body d first d1 ms bound d2 ns slot2 d3 stride d4 os slot4
      d5 test d6 ps out F d7 qs F' F'' next d8 rs back drop d9} :
    Stores site (.var var) (.expr start) d first d1 ms →
    Pushes site.duties (.one stop) (d1.withScope d1.scope.enter) bound d2 ns →
    (declare endName).run d2 = .ok (slot2, d3) →
    Pushes site.duties (.one (step.getD (.int 1))) d3 stride d4 os →
    (declare stepName).run d4 = .ok (slot4, d5) →
    Pushes site.duties (.one (countCondition var)) d5 test d6 ps →
    Forward .jumpIfFalse d6.offset (d8.offset + 3) out →
    Emits T (.block (site.inLoop ⟨d6.scope.depth, site.opens.length, none⟩
      (redirect (redirect site.exits .leave (d8.offset + 3)) .again d7.offset)
      ⟨d8.offset + 3, d7.offset, d6.scope.depth, d6.scope.locals, site.opens.length⟩) body)
      (d6.advance 3) F d7 qs →
    Resolves .again (d6.offset + 3) d7.offset F F' →
    Resolves .leave (d6.offset + 3) (d8.offset + 3) F' F'' →
    Stores site (.var var) (.expr (countNext var)) d7 next d8 rs →
    Backward d8.offset d5.offset back →
    Compile.leave.run (d8.advance 3) = .ok (drop, d9) →
    Emits T (.kind site (.countLoop var start stop step body)) d
      (first ++ bound ++ stride ++ test ++ out ++ F'' ++ next ++ back ++ drop) d9
      (ms ++ ns ++ os ++ ps ++ qs ++ rs)
  | eachLoop {site var items body d place d1 all d2 ms each d3 zero d4 index d5 out bind d6 ns
      F d7 os F' F'' one d8 back drop d9} :
    Ensures site var d place d1 →
    Pushes site.duties (.one items) (d1.withScope d1.scope.enter) all d2 ms →
    (declare eachName).run d2 = .ok (each, d3) →
    (constant (.int 0)).run d3 = .ok (zero, d4) →
    (declare indexName).run (d4.advance 3) = .ok (index, d5) →
    Forward .jumpIfFalse (d5.offset + 8) (d7.offset + 14) out →
    Stores site (.var var) (.item each index) (d5.advance 11) bind d6 ns →
    Emits T (.block (site.inLoop ⟨d6.scope.depth, site.opens.length, none⟩
      (redirect (redirect site.exits .leave (d7.offset + 14)) .again d7.offset)
      ⟨d7.offset + 14, d7.offset, d6.scope.depth, d6.scope.locals, site.opens.length⟩) body) d6 F
        d7 os →
    Resolves .again d6.offset d7.offset F F' →
    Resolves .leave d6.offset (d7.offset + 14) F' F'' →
    (constant (.int 1)).run (d7.advance 3) = .ok (one, d8) →
    Backward (d7.offset + 11) d5.offset back →
    Compile.leave.run (d8.advance 11) = .ok (drop, d9) →
    Emits T (.kind site (.eachLoop var items body)) d
      (place ++ all ++ #[⟨d3.line, .instr (.constant zero)⟩] ++ eachTesting d5.line each index ++
        out ++ bind ++ F'' ++ eachCounting d7.line index one ++ back ++ drop) d9 (ms ++ ns ++ os)
  -- cases
  | switchBlock {site subject arms otherwise d value d1 ms slot d2 F d3 ns drop d4} :
    Pushes site.duties (.one subject) (d.withScope d.scope.enter) value d1 ms →
    (declare switchName).run d1 = .ok (slot, d2) →
    Emits T (.arms site slot otherwise arms) d2 F d3 ns →
    Compile.leave.run d3 = .ok (drop, d4) →
    Emits T (.kind site (.switchBlock subject arms otherwise)) d (value ++ F ++ drop) d4 (ms ++ ns)
  | armsNone {site subject d} :
    Emits T (.arms site subject none []) d #[] d []
  | armsElse {site subject body d F d' ms} :
    Emits T (.block site body) d F d' ms →
    Emits T (.arms site subject (some body) []) d F d' ms
  | armsCons {site subject otherwise values body rest d tests d1 ms F d2 ns out G d3 os} :
    Tests site.duties subject (d2.offset + 3) values d tests d1 ms →
    Emits T (.block site body) d1 F d2 ns →
    Forward .jump d2.offset d3.offset out →
    Emits T (.arms site subject otherwise rest) (d2.advance 3) G d3 os →
    Emits T (.arms site subject otherwise ((values, body) :: rest)) d
      (tests ++ F ++ out ++ G) d3 (ms ++ ns ++ os)
  -- functions
  | function {site name params isAsync isNative body d first slot d1 F d2 ms f d3 index d4} :
    params.length ≤ 255 →
    (opening params body).run d.forFunction = .ok ((first, slot), d1) →
    Emits T (.body { inFunction := true, returnSlot := slot } body) d1 F d2 ms →
    (constant (.function ⟨d2.base + d2.functions.size⟩)).run (d.withFunction
      { name := name, arity := params.length
        chunk := Fragment.chunk (first ++ F ++ closing d2.line) d2.constants
        isAsync := isAsync, isNative := isNative } d2.functions) = .ok (f, d3) →
    (constant (.str name)).run (d3.advance 3) = .ok (index, d4) →
    Assembled body (Fragment.chunk (first ++ F ++ closing d2.line) d2.constants)
      (first ++ F ++ closing d2.line) →
    Emits T (.kind site (.function name params isAsync isNative body)) d (binding d.line f index)
      (d4.advance 4) []
  -- ways out
  | leavingNil {site transfer depth d} :
    site.opens = [] →
    Emits T (.leaving site transfer depth) d #[] d []
  | leavingStop {site transfer depth t outer d} :
    site.opens = t :: outer →
    outer.length < depth →
    Emits T (.leaving site transfer depth) d #[] d []
  | leavingPlain {site transfer depth t outer d drop d1 F d2 ms} :
    site.opens = t :: outer →
    depth ≤ outer.length →
    t.frame.cleanup = none →
    (discardAbove t.frame.scopeDepth).run d = .ok (drop, d1) →
    Emits T (.leaving (site.within outer site.duties) transfer depth) (d1.advance 1) F d2 ms →
    Emits T (.leaving site transfer depth) d (drop ++ #[⟨d1.line, .instr .tryEnd⟩] ++ F) d2 ms
  | leavingCleanup {site transfer depth t outer final d drop d1 F d2 ms G d3 ns} :
    T final →
    site.opens = t :: outer →
    depth ≤ outer.length →
    t.frame.cleanup = some final →
    (discardAbove t.frame.scopeDepth).run d = .ok (drop, d1) →
    Emits T (.block (site.running outer
      ((d1.advance 1).copy t.owner final transfer d2.offset) (settle t.owner site.duties))
      final) (d1.advance 1) F d2 ms →
    Emits T (.leaving (site.within outer (settle t.owner site.duties)) transfer depth) d2 G d3 ns →
    Emits T (.leaving site transfer depth) d
      (drop ++ #[⟨d1.line, .instr .tryEnd⟩] ++ F ++ G) d3
      (.copy ((d1.advance 1).copy t.owner final transfer d2.offset) :: (ms ++ ns))
  | unwind {site transfer scopeDepth tryDepth d F d1 ms drop d2} :
    Emits T (.leaving site transfer tryDepth) d F d1 ms →
    (discardAbove scopeDepth).run d1 = .ok (drop, d2) →
    Emits T (.unwind site transfer scopeDepth tryDepth) d (F ++ drop) d2 ms
  | breakLoop {site loop d F d1 ms} :
    site.loop = some loop →
    Emits T (.unwind site (.jump (site.exits .leave)) loop.scopeDepth loop.tryDepth) d F d1 ms →
    Emits T (.kind site .breakLoop) d (F ++ #[⟨d1.line, .exit .leave⟩])
      ((d1.advance 3).withScope { d1.scope with locals := d.scope.locals })
      (ms ++ [.leap .leave d1.offset site])
  | continueOn {site loop d F d1 ms} :
    site.loop = some loop →
    loop.again? = none →
    Emits T (.unwind site (.jump (site.exits .again)) loop.scopeDepth loop.tryDepth) d F d1 ms →
    Emits T (.kind site .continueLoop) d (F ++ #[⟨d1.line, .exit .again⟩])
      ((d1.advance 3).withScope { d1.scope with locals := d.scope.locals })
      (ms ++ [.leap .again d1.offset site])
  | continueBack {site loop target d F d1 ms back} :
    site.loop = some loop →
    loop.again? = some target →
    Emits T (.unwind site (.jump target) loop.scopeDepth loop.tryDepth) d F d1 ms →
    (loopTo target).run d1 = .ok (back, d1.advance 3) →
    Emits T (.kind site .continueLoop) d (F ++ back)
      ((d1.advance 3).withScope { d1.scope with locals := d.scope.locals })
      (ms ++ [.leap .again d1.offset site])
  | retPlain {site value d F d1 ms} :
    site.inFunction = true →
    site.returnSlot = none ∨ site.opens = [] →
    Pushes site.duties (.one (value.getD .absent)) d F d1 ms →
    Emits T (.kind site (.ret value)) d (F ++ #[⟨d1.line, .instr .ret⟩]) (d1.advance 1)
      (ms ++ [.finish d1.offset site])
  | retAcross {site slot value d F d1 ms G d2 ns} :
    site.inFunction = true →
    site.returnSlot = some slot →
    site.opens ≠ [] →
    Pushes site.duties (.one (value.getD .absent)) d F d1 ms →
    Emits T (.unwind (site.within site.opens (giveUp site.duties)) (.ret slot) d1.scope.depth 0)
      (d1.advance 4) G d2 ns →
    Emits T (.kind site (.ret value)) d
      (F ++ #[⟨d1.line, .instr (.setLocal slot)⟩] ++ #[⟨d1.line, .instr .pop⟩] ++ G ++
        #[⟨d2.line, .instr (.getLocal slot)⟩] ++ #[⟨d2.line, .instr .ret⟩])
      ((d2.advance 4).withScope { d2.scope with locals := d1.scope.locals })
      (ms ++ ns ++ [.returning (d1.offset + 4) d2.offset slot site])
  -- handlers
  | tryPlain {site body handling d begin F d1 ms skip H d2 ns} :
    Forward .tryBegin d.offset (d1.offset + 4) begin →
    Emits T (.block (site.within
      (d.openTry none (d.attempt site handling) (d1.offset + 4) site.duties :: site.opens)
      site.duties) body) (d.advance 3) F d1 ms →
    Forward .jump (d1.offset + 1) d2.offset skip →
    Emits T (.handler site (d.attempt site handling) handling none site.duties) (d1.advance 4)
      H d2 ns →
    Emits T (.kind site (.tryBlock body handling none)) d
      (begin ++ F ++ #[⟨d1.line, .instr .tryEnd⟩] ++ skip ++ H) d2 (ms ++ ns)
  | tryCleanup {site body handling final d begin F d1 ms skip landing H d2 ns G d3 os} :
    T final →
    Forward .tryBegin d.offset (d1.offset + 4) begin →
    Emits T (.block (site.within
      (d.openTry (some final) (d.attempt site handling) (d1.offset + 4) landing :: site.opens)
      (.owed (d.attempt site handling) :: site.duties)) body) (d.advance 3) F d1 ms →
    Forward .jump (d1.offset + 1) d2.offset skip →
    Emits T (.handler site (d.attempt site handling) handling (some final) landing) (d1.advance 4)
      H d2 ns →
    Emits T (.block (site.running site.opens
      (d2.copy (d.attempt site handling) final .onward d3.offset) site.duties) final)
      d2 G d3 os →
    Emits T (.kind site (.tryBlock body handling (some final))) d
      (begin ++ F ++ #[⟨d1.line, .instr .tryEnd⟩] ++ skip ++ H ++ G) d3
      (ms ++ ns ++
        (.copy (d2.copy (d.attempt site handling) final .onward d3.offset) :: os))
  | handlerNone {site owner d} :
    Emits T (.handler site owner none none site.duties) d #[⟨d.line, .instr .pop⟩] (d.advance 1) []
  | handlerCatch {site owner name body d slot d1 F d2 ms drop d3} :
    (declare name).run (d.withScope d.scope.enter) = .ok (slot, d1) →
    Emits T (.body site body) d1 F d2 ms →
    Compile.leave.run d2 = .ok (drop, d3) →
    Emits T (.handler site owner (some (name, body)) none site.duties) d (F ++ drop) d3 ms
  | handlerFinally {site owner final d slot d1 F d2 ms} :
    T final →
    (declare errorName).run (d.withScope d.scope.enter) = .ok (slot, d1) →
    Emits T (.block (site.running site.opens
      (d1.copy owner final (.rethrow slot) d2.offset) site.duties) final) d1 F d2 ms →
    Emits T (.handler site owner none (some final)
      (.running (d1.copy owner final (.rethrow slot) d2.offset) :: site.duties)) d
      (F ++ #[⟨d2.line, .instr (.getLocal slot)⟩] ++ #[⟨d2.line, .instr .raise⟩])
      ((d2.advance 4).withScope d2.scope.leave)
      (.copy (d1.copy owner final (.rethrow slot) d2.offset) :: ms)
  | handlerBoth {site owner name body final d slot d1 begin F d2 ms drop d3 skip caught d4 error d5
      G d6 ns} :
    T final →
    (declare name).run (d.withScope d.scope.enter) = .ok (slot, d1) →
    Forward .tryBegin d.offset (d3.offset + 3) begin →
    Emits T (.block (site.within
      (d1.openTry (some final) owner (d3.offset + 3)
        (.running (d5.copy owner final (.rethrow error) d6.offset) :: site.duties) ::
        site.opens) (.owed owner :: site.duties)) body) (d1.advance 3) F d2 ms →
    Compile.leave.run (d2.advance 1) = .ok (drop, d3) →
    Forward .jump d3.offset (d6.offset + 4) skip →
    (declare caughtName).run ((d3.advance 3).withScope d3.scope.enter) = .ok (caught, d4) →
    (declare errorName).run d4 = .ok (error, d5) →
    Emits T (.block (site.running site.opens
      (d5.copy owner final (.rethrow error) d6.offset) site.duties) final)
      d5 G d6 ns →
    Emits T (.handler site owner (some (name, body)) (some final) (.owed owner :: site.duties)) d
      (begin ++ F ++ #[⟨d2.line, .instr .tryEnd⟩] ++ drop ++ skip ++ G ++
        #[⟨d6.line, .instr (.getLocal error)⟩] ++ #[⟨d6.line, .instr .raise⟩])
      ((d6.advance 4).withScope d6.scope.leave)
      (ms ++ (.copy (d5.copy owner final (.rethrow error) d6.offset) :: ns))

/-- No condition on blocks. -/
def AnyBlock : List Stmt → Prop := fun _ => True

/-! ### What the code adds to the draft -/

namespace Compile

variable {d d' d1 : Draft} {F G : Fragment}

@[simp] theorem span_pops (line n : Nat) : Fragment.span (pops line n).toList = n := by
  rw [pops, Array.toList_replicate, Fragment.span_replicate]
  exact Nat.mul_one n

theorem discardAbove_added {depth : Nat} (h : (discardAbove depth).run d = .ok (F, d')) :
    Added d F d' := by
  obtain ⟨rfl, rfl⟩ := run_discardAbove_ok.mp h
  exact (Added.of_emitted (Emitted.advance d (span_pops _ _))).withScope _

theorem leave_added (h : Compile.leave.run d = .ok (F, d')) : Added d F d' := by
  obtain ⟨rfl, rfl⟩ := run_leave_ok.mp h
  exact (Added.of_emitted (Emitted.advance d (span_pops _ _))).withScope _

theorem added_resolves {e : Exit} {o target : Nat} (h : Resolves e o target F G)
    (hF : Added d F d') : Added d G d' :=
  { hF with offset := by rw [hF.offset, h.span] }

theorem constant_added {v : Value} {index : UInt16} (h : (constant v).run d = .ok (index, d'))
    (hv : v.Refers (d.base + d.functions.size)) : Added d #[] d' := by
  refine ⟨constant_offset h, constant_extends h, ?_, ?_, ?_, ?_⟩
  all_goals obtain ⟨_, rfl⟩ := run_constant_ok.mp h
  · intro w hw
    rcases mem_poolInsert hw with hw | rfl
    · exact .inl hw
    · exact .inr hv
  · exact List.prefix_rfl
  · rfl
  · exact List.suffix_rfl

theorem added_constant {v : Value} {index : UInt16} (h : Added d F d1)
    (hc : (constant v).run d1 = .ok (index, d')) (hv : v.Refers (d1.base + d1.functions.size)) :
    Added d F d' := by
  have h' := h.trans (constant_added hc hv)
  rwa [Array.append_empty] at h'

/-- Code in a block that begins with a local. -/
theorem added_declared {name : String} {slot : UInt16}
    (hd : (declare name).run (d.withScope d.scope.enter) = .ok (slot, d1)) (h : Added d1 F d') :
    Added d F d' := by
  obtain ⟨_, _, _, rfl⟩ := run_declare_ok.mp hd
  exact { h with }

theorem added_counting {index one : UInt16}
    (h : (constant (.int 1)).run (d.advance 3) = .ok (one, d')) :
    Added d (eachCounting d.line index one) (d'.advance 8) := by
  have hc := Added.of_emitted (emitted_constant h trivial)
  refine { hc with offset := ?_ }
  rw [Draft.advance_offset, hc.offset]
  rfl

/-- The scope at the beginning of a function, without the local for values to be returned. -/
def paramScope (params : List String) : Scope :=
  { locals := (params.map fun name => ⟨name, 1⟩).reverse, depth := 1 }

/-- Whether a function needs a local for values to be returned. -/
def keepsResult (body : List Stmt) : Bool :=
  body.any fun s => (s.nested false).any Stmt.isTryWithReturn

theorem run_declareParams_ok {params : List String} {u : Unit}
    (h : (declareParams params).run d = .ok (u, d')) :
    d' = d.withScope { d.scope with
      locals := (params.map fun name => ⟨name, d.scope.depth⟩).reverse ++ d.scope.locals } ∧
    (d.scope.locals.length ≤ 65536 → d'.scope.locals.length ≤ 65536) := by
  induction params generalizing d with
  | nil =>
    obtain ⟨-, rfl⟩ := run_pure_ok.mp h
    exact ⟨rfl, id⟩
  | cons param params ih =>
    simp only [declareParams, run_bind_ok, run_declare_ok] at h
    obtain ⟨_, d1, ⟨_, hlt, _, rfl⟩, hrest⟩ := h
    obtain ⟨hd', hsmall⟩ := ih hrest
    refine ⟨?_, fun _ => hsmall hlt⟩
    rw [hd']
    simp [Draft.withScope]

/-- What the beginning of a function does: it emits nothing, or room for a value to be
returned. -/
theorem run_opening_ok {params : List String} {body : List Stmt} {first : Fragment}
    {slot : Option UInt16}
    (h : (opening params body).run d.forFunction = .ok ((first, slot), d')) :
    (keepsResult body = false ∧ params.length ≤ 65536 ∧ slot = none ∧ first = #[] ∧
        d' = d.forFunction.withScope (paramScope params)) ∨
      (keepsResult body = true ∧ params.length < 65536 ∧
        slot = some (UInt16.ofNat params.length) ∧ first = #[⟨d.line, .instr .pushAbsent⟩] ∧
        d' = (d.forFunction.advance 1).withScope
          { paramScope params with locals := ⟨returnName, 1⟩ :: (paramScope params).locals }) := by
  simp only [opening, run_bind_ok, run_enter_ok] at h
  obtain ⟨_, _, rfl, _, d1, hparams, h⟩ := h
  obtain ⟨hd1, hsmall⟩ := run_declareParams_ok hparams
  replace hd1 : d1 = d.forFunction.withScope (paramScope params) := by
    rw [hd1]
    simp [Draft.withScope, Draft.forFunction, paramScope, Scope.enter]
  have hlength : (paramScope params).locals.length = params.length := by simp [paramScope]
  split at h
  next hkeeps =>
    simp only [run_bind_ok, run_emit_ok, run_declare_ok, run_pure_ok] at h
    obtain ⟨_, _, ⟨rfl, rfl⟩, _, _, ⟨_, hlt, rfl, rfl⟩, h, rfl⟩ := h
    cases h
    subst hd1
    simp only [Draft.advance_scope, Draft.withScope_scope, hlength] at hlt
    refine .inr ⟨hkeeps, hlt, ?_, rfl, rfl⟩
    simp only [Draft.advance_scope, Draft.withScope_scope, hlength]
  next hkeeps =>
    obtain ⟨h, rfl⟩ := run_pure_ok.mp h
    cases h
    have hsmall := hsmall (Nat.zero_le _)
    rw [hd1, Draft.withScope_scope, hlength] at hsmall
    exact .inl ⟨Bool.eq_false_iff.mpr hkeeps, hsmall, rfl, rfl, hd1⟩

/-- The beginning of a function leaves functions and constants alone. -/
theorem added_opening {params : List String} {body : List Stmt} {first : Fragment}
    {slot : Option UInt16}
    (h : (opening params body).run d.forFunction = .ok ((first, slot), d')) :
    Added d.forFunction first d' := by
  rcases run_opening_ok h with ⟨_, _, _, rfl, rfl⟩ | ⟨_, _, _, rfl, rfl⟩
  · exact (Added.refl _).withScope _
  · exact (Added.of_emitted ((Emitted.refl _).first rfl)).withScope _

end Compile

open Compile in
/-- The code of a phrase is as long as the draft says, and constants and functions are only
added. -/
theorem Emits.added {T : List Stmt → Prop} {p : Phrase} {d d' : Draft} {F : Fragment}
    {ms : List Landmark} (h : Emits T p d F d' ms) : Added d F d' := by
  induction h with
  | stmt _ ih => exact { ih with }
  | simple h => exact h.grows.toAdded
  | nil | branchesNone | armsNone | leavingNil _ | leavingStop _ _ => exact .refl _
  | cons _ _ ih ihs => exact ih.trans ihs
  | block _ hleave ih => exact Added.trans { ih with } (leave_added hleave)
  | ifChain _ ih | branchesElse _ ih | armsElse _ ih => exact ih
  | branchesLast hc hskip _ ih => exact ((Added.of_emitted hc.emitted).advance hskip.span).trans ih
  | branchesCons hc hskip _ hout _ ih ihs =>
    exact
      ((((Added.of_emitted hc.emitted).advance hskip.span).trans ih).advance hout.span).trans ihs
  | whileLoop hc hout _ hres hback ih =>
    exact (((Added.of_emitted hc.emitted).advance hout.span).trans
      (added_resolves hres ih)).advance hback.span
  | countLoop hfirst hbound hend hstride hstep htest hout _ hagain hleave hnext hback hdrop ih =>
    have hhead := (hfirst.grows.toAdded.withScope _).trans (.of_emitted hbound.emitted)
    have hinit := (hhead.declare hend).trans (.of_emitted hstride.emitted)
    have hloop := ((hinit.declare hstep).trans (.of_emitted htest.emitted)).advance hout.span
    have hbody := hloop.trans (added_resolves hleave (added_resolves hagain ih))
    exact ((hbody.trans hnext.grows.toAdded).advance hback.span).trans (leave_added hdrop)
  | @eachLoop site var items body d place d1 all d2 ms each d3 zero d4 index d5 out bind d6 ns F d7
      os F' F'' one d8 back drop d9 hplace hall heach hzero hindex hout hbind _ hagain hleave hone
      hback hdrop ih =>
    have hhead := (hplace.grows.toAdded.withScope _).trans (.of_emitted hall.emitted)
    have hinit : Added d (place ++ all ++ #[⟨d3.line, .instr (.constant zero)⟩]) (d4.advance 3) :=
      (added_constant (hhead.declare heach) hzero trivial).instr rfl
    have htesting : Added d5 (eachTesting d5.line each index) (d5.advance 8) :=
      .of_emitted (.advance d5 rfl)
    have htest : Added d5 (eachTesting d5.line each index ++ out) (d5.advance 11) :=
      htesting.advance hout.span
    have hnext : Added d7 (eachCounting d7.line index one) (d8.advance 8) :=
      added_counting hone
    have hbody := ((hinit.declare hindex).trans htest).trans hbind.grows.toAdded
    have hround := (hbody.trans (added_resolves hleave (added_resolves hagain ih))).trans hnext
    have h := (hround.advance hback.span).trans (leave_added hdrop)
    simpa only [Array.append_assoc] using h
  | @switchBlock site subject arms otherwise d value d1 ms slot d2 F d3 ns drop d4 hv hslot _ hdrop
      ih =>
    have hv' := Added.of_emitted hv.emitted
    have hvalue : Added d value d1 := { hv' with }
    exact ((hvalue.declare hslot).trans ih).trans (leave_added hdrop)
  | armsCons ht _ hout _ ih ihs =>
    exact (((Added.of_emitted ht.emitted).trans ih).advance hout.span).trans ihs
  | @function site name params isAsync isNative body d first slot d1 F d2 ms f d3 index d4 _ hopen _
      hf hname _ ih =>
    have hbody : Added d.forFunction (first ++ F) d2 := (added_opening hopen).trans ih
    have hadd : ∀ g, Added d #[] (d.withFunction g d2.functions) := fun g =>
      ⟨rfl, Extends.refl _, fun _ h => .inl h,
        hbody.functions.trans (by simp [Draft.withFunction]), rfl, List.suffix_rfl⟩
    have hfunction := added_constant (hadd _) hf (by
      rw [Value.Refers, hbody.base]
      simp [Draft.withFunction, Draft.forFunction])
    have hconstant : Added d #[⟨d.line, .instr (.constant f)⟩] (d3.advance 3) :=
      hfunction.instr rfl
    have hbound : Added d #[⟨d.line, .instr (.constant f)⟩, ⟨d.line, .instr (.setGlobal index)⟩]
        (d4.advance 3) := (added_constant hconstant hname trivial).instr rfl
    exact hbound.instr (i := .pop) rfl
  | leavingPlain _ _ _ hdrop _ ih =>
    exact ((discardAbove_added hdrop).instr (i := .tryEnd) rfl).trans ih
  | leavingCleanup _ _ _ _ hdrop _ _ ih ihs =>
    exact (((discardAbove_added hdrop).instr (i := .tryEnd) rfl).trans ih).trans ihs
  | unwind _ hdrop ih => exact ih.trans (discardAbove_added hdrop)
  | breakLoop _ _ ih | continueOn _ _ _ ih => exact (ih.advance rfl).withScope _
  | continueBack _ _ _ hback ih =>
    obtain ⟨_, rfl, _⟩ := run_loopTo_ok.mp hback
    exact (ih.advance rfl).withScope _
  | retPlain _ _ hv => exact .of_emitted (hv.emitted.instr rfl)
  | @retAcross site slot value d F d1 ms G d2 ns _ _ _ hv _ ih =>
    have hkeep : Added d (F ++ #[⟨d1.line, .instr (.setLocal slot)⟩] ++ #[⟨d1.line, .instr .pop⟩])
        (d1.advance 4) := .of_emitted ((hv.emitted.instr rfl).instr rfl)
    exact (((hkeep.trans ih).instr rfl).instr rfl).withScope _
  | @tryPlain site body handling d begin F d1 ms skip H d2 ns hbegin _ hskip _ ih ihh =>
    have hbody : Added d (begin ++ F ++ #[⟨d1.line, .instr .tryEnd⟩]) (d1.advance 1) :=
      ((Added.of_emitted (hbegin.emitted _)).trans ih).instr rfl
    exact (hbody.advance hskip.span).trans ihh
  | @tryCleanup site body handling final d begin F d1 ms skip landing H d2 ns G d3 os _ hbegin _
      hskip _ _ ih ihh ihf =>
    have hbody : Added d (begin ++ F ++ #[⟨d1.line, .instr .tryEnd⟩]) (d1.advance 1) :=
      ((Added.of_emitted (hbegin.emitted _)).trans ih).instr rfl
    exact ((hbody.advance hskip.span).trans ihh).trans ihf
  | handlerNone => exact .of_emitted ((Emitted.refl _).first rfl)
  | handlerCatch hslot _ hdrop ih =>
    exact (added_declared hslot ih).trans (leave_added hdrop)
  | handlerFinally _ hslot _ ih =>
    exact (((added_declared hslot ih).instr rfl).instr rfl).withScope _
  | @handlerBoth site owner name body final d slot d1 begin F d2 ms drop d3 skip caught d4
    error d5 G
      d6 ns _ hslot hbegin _ hdrop hskip hcaught herror _ ih ihf =>
    have hbody : Added d (begin ++ F ++ #[⟨d2.line, .instr .tryEnd⟩]) (d2.advance 1) :=
      (added_declared hslot ((Added.of_emitted (hbegin.emitted _)).trans ih)).instr rfl
    have hskipped : Added d (begin ++ F ++ #[⟨d2.line, .instr .tryEnd⟩] ++ drop ++ skip)
        (d3.advance 3) := (hbody.trans (leave_added hdrop)).advance hskip.span
    have hfinal := (((hskipped.withScope _).declare hcaught).declare herror).trans ihf
    exact ((hfinal.instr rfl).instr rfl).withScope _

end TaskBasic
