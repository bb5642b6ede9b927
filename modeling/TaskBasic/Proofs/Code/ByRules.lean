import TaskBasic.Proofs.Code.Emits

/-
The compiler works by the rules of `Emits`.

`emits_stmt` says so for statements.  The functions of the compiler that take
the code of statements as an argument are treated for any such code that comes
about by the rules (`ByRules`).
-/

namespace TaskBasic

variable {body ss : List Stmt} {cleanup otherwise : Option (List Stmt)} {name : String}

namespace Compile

/-- The code that `st` gives for a statement comes about by the rules. -/
def ByRules (st : Surroundings → Stmt → Compile Fragment) : Prop :=
  ∀ (site : Site) (s : Stmt) (d : Draft) (F : Fragment) (d' : Draft),
    (st site.around s).run d = .ok (F, d') → ∃ ms, Emits AnyBlock (.stmt site s) d F d' ms

variable {D : List Duty} {st : Surroundings → Stmt → Compile Fragment} {site : Site}
  {d d' : Draft} {F : Fragment}

theorem emits_foldlM (hst : ByRules st) {acc : Fragment}
    (h : (ss.foldlM (fun code s => do return code ++ (← st site.around s)) acc :
      Compile Fragment).run d = .ok (F, d')) :
    ∃ G ms, F = acc ++ G ∧ Emits AnyBlock (.body site ss) d G d' ms := by
  induction ss generalizing acc d with
  | nil =>
    rw [List.foldlM_nil, run_pure_ok] at h
    obtain ⟨rfl, rfl⟩ := h
    exact ⟨#[], [], by simp, .nil⟩
  | cons s ss ih =>
    simp only [List.foldlM_cons, run_bind_ok, run_pure_ok] at h
    obtain ⟨_, d1, ⟨G, _, hs, rfl, rfl⟩, hss⟩ := h
    obtain ⟨ms, hms⟩ := hst site s d G d1 hs
    obtain ⟨H, ns, rfl, hns⟩ := ih hss
    exact ⟨G ++ H, ms ++ ns, by rw [Array.append_assoc], .cons hms hns⟩

theorem emits_sequence (site : Site) (hst : ByRules st)
    (h : (sequence (st site.around) ss).run d = .ok (F, d')) :
    ∃ ms, Emits AnyBlock (.body site ss) d F d' ms := by
  obtain ⟨G, ms, hF, hms⟩ := emits_foldlM hst h
  rw [Array.empty_append] at hF
  subst hF
  exact ⟨ms, hms⟩

theorem emits_block (site : Site) (hst : ByRules st)
    (h : (block (st site.around) ss).run d = .ok (F, d')) :
    ∃ ms, Emits AnyBlock (.block site ss) d F d' ms := by
  simp only [block, run_bind_ok, run_enter_ok, run_pure_ok] at h
  obtain ⟨_, _, rfl, G, d1, hbody, drop, _, hleave, rfl, rfl⟩ := h
  obtain ⟨ms, hms⟩ := emits_sequence site hst hbody
  exact ⟨ms, .block hms hleave⟩

theorem emits_conditional (hst : ByRules st) {bs : List (Expr × List Stmt)}
    (h : (conditional (block (st site.around)) otherwise bs).run d = .ok (F, d')) :
    ∃ ms, Emits AnyBlock (.branches site otherwise bs) d F d' ms := by
  induction bs generalizing d F d' with
  | nil =>
    cases otherwise with
    | none =>
      obtain ⟨rfl, rfl⟩ := run_pure_ok.mp h
      exact ⟨[], .branchesNone⟩
    | some body =>
      rw [conditional] at h
      obtain ⟨ms, hms⟩ := emits_block site hst h
      exact ⟨ms, .branchesElse hms⟩
  | cons branch rest ih =>
    obtain ⟨condition, body⟩ := branch
    simp only [conditional, run_bind_ok, run_reserve_ok] at h
    obtain ⟨test, d1, htest, _, _, ⟨rfl, rfl⟩, G, d2, hbody, h⟩ := h
    obtain ⟨ls, htest⟩ := pushes_expr htest
    obtain ⟨ms, hms⟩ := emits_block site hst hbody
    cases hlast : rest.isEmpty && otherwise.isNone with
    | true =>
      simp only [hlast, if_true, run_bind_ok, run_pure_ok] at h
      obtain ⟨skip, _, hskip, rfl, rfl⟩ := h
      obtain ⟨jskip, rfl⟩ := run_fill_forward (fun _ => rfl) hms.added.le hskip
      simp only [Bool.and_eq_true, List.isEmpty_iff, Option.isNone_iff_eq_none] at hlast
      obtain ⟨rfl, rfl⟩ := hlast
      exact ⟨_, .branchesLast htest jskip hms⟩
    | false =>
      simp only [hlast, Bool.false_eq_true, if_false, run_bind_ok, run_reserve_ok,
        run_pure_ok] at h
      obtain ⟨_, _, ⟨rfl, rfl⟩, skip, _, hskip, G', d3, hrest, out, _, hout, rfl, rfl⟩ := h
      obtain ⟨jskip, rfl⟩ := run_fill_forward (fun _ => rfl)
        (Nat.le_trans hms.added.le (Nat.le_add_right _ 3)) hskip
      obtain ⟨ns, hns⟩ := ih hrest
      obtain ⟨jout, rfl⟩ := run_fill_forward (fun _ => rfl) hns.added.le hout
      exact ⟨_, .branchesCons htest jskip hms jout hns⟩

theorem emits_cases (hst : ByRules st) {slot : UInt16} {arms : List (List Expr × List Stmt)}
    (h : (cases (block (st site.around)) slot otherwise arms).run d = .ok (F, d')) :
    ∃ ms, Emits AnyBlock (.arms site slot otherwise arms) d F d' ms := by
  induction arms generalizing d F d' with
  | nil =>
    cases otherwise with
    | none =>
      obtain ⟨rfl, rfl⟩ := run_pure_ok.mp h
      exact ⟨[], .armsNone⟩
    | some body =>
      rw [Compile.cases] at h
      obtain ⟨ms, hms⟩ := emits_block site hst h
      exact ⟨ms, .armsElse hms⟩
  | cons arm rest ih =>
    obtain ⟨values, body⟩ := arm
    simp only [Compile.cases, run_bind_ok, run_reserve_ok, run_pure_ok] at h
    obtain ⟨⟨tests, gap⟩, d1, htests, G, d2, hbody, _, _, ⟨rfl, rfl⟩, miss, _, hmiss, H, d3,
      hrest, out, _, hout, rfl, rfl⟩ := h
    obtain ⟨_, _, rfl⟩ := run_fill_ok.mp hmiss
    obtain ⟨ms, hms⟩ := emits_block site hst hbody
    obtain ⟨ns, hns⟩ := ih hrest
    obtain ⟨jout, rfl⟩ := run_fill_forward (fun _ => rfl) hns.added.le hout
    have hgap : gap.stop ≤ d2.offset + 3 := by
      rw [caseTests_gap htests]
      exact Nat.le_trans hms.added.le (Nat.le_add_right _ 3)
    have jmiss (o : Nat) (ho : gap.stop = o + 3) : Forward .jump o (d2.offset + 3) miss := by
      obtain ⟨line, stop⟩ := gap
      obtain rfl : stop = o + 3 := ho
      exact (run_fill_forward (fun _ => rfl) hgap hmiss).1
    obtain ⟨ls, hls⟩ := tests_caseTests jmiss htests
    exact ⟨_, .armsCons hls hms jout hns⟩

/-- The block of statements inside other `try` regions, as jumps out of regions need it. -/
abbrev blockWithin (st : Surroundings → Stmt → Compile Fragment) (around : Surroundings)
    (tries : List TryFrame) (body : List Stmt) : Compile Fragment :=
  block (st { around with tries := tries }) body

theorem emits_leaveTries (hst : ByRules st) (site : Site) (transfer : Transfer) {depth : Nat}
    (h : (leaveTries (blockWithin st site.around) depth site.around.tries).run d = .ok (F, d')) :
    ∃ ms, Emits AnyBlock (.leaving site transfer depth) d F d' ms := by
  obtain ⟨opens, hopens⟩ : ∃ opens, site.opens = opens := ⟨_, rfl⟩
  have htries : site.around.tries = opens.map OpenTry.frame := by rw [Site.around, hopens]
  rw [htries] at h
  induction opens generalizing site d F with
  | nil =>
    obtain ⟨rfl, rfl⟩ := run_pure_ok.mp h
    exact ⟨[], .leavingNil hopens⟩
  | cons t outer ih =>
    rw [List.map_cons, leaveTries] at h
    by_cases hstop : outer.length < depth
    · rw [List.length_map, if_pos hstop] at h
      obtain ⟨rfl, rfl⟩ := run_pure_ok.mp h
      exact ⟨[], .leavingStop hopens hstop⟩
    · rw [List.length_map, if_neg hstop] at h
      rw [run_bind_ok] at h
      obtain ⟨drop, d1, hdrop, h⟩ := h
      rw [run_bind_ok] at h
      obtain ⟨_, _, htry, h⟩ := h
      obtain ⟨rfl, rfl⟩ := run_emit_ok.mp htry
      cases hcleanup : t.frame.cleanup with
      | none =>
        simp only [hcleanup, run_bind_ok, run_pure_ok] at h
        obtain ⟨_, _, ⟨rfl, rfl⟩, G, _, hrest, rfl, rfl⟩ := h
        obtain ⟨ns, hns⟩ := ih (site.within outer site.duties) hrest rfl rfl
        exact ⟨ns, .leavingPlain hopens (Nat.le_of_not_lt hstop) hcleanup hdrop hns⟩
      | some final =>
        simp only [hcleanup, run_bind_ok, run_pure_ok] at h
        obtain ⟨H, _, hfinal, _, d2, ⟨rfl, rfl⟩, G, _, hrest, rfl, rfl⟩ := h
        obtain ⟨ms, hms⟩ := emits_block (site.running outer
          ((d1.advance 1).copy t.owner final transfer d2.offset)
          (settle t.owner site.duties)) hst hfinal
        obtain ⟨ns, hns⟩ := ih (site.within outer (settle t.owner site.duties)) hrest rfl rfl
        exact ⟨_, .leavingCleanup trivial hopens (Nat.le_of_not_lt hstop) hcleanup hdrop hms hns⟩

theorem emits_exit (hst : ByRules st) (site : Site) (transfer : Transfer)
    {scopeDepth tryDepth : Nat}
    {jump : Compile Fragment}
    (h : (exit (blockWithin st site.around) site.around.tries scopeDepth tryDepth jump).run d =
      .ok (F, d')) :
    ∃ G d1 J d2 ms, Emits AnyBlock (.unwind site transfer scopeDepth tryDepth) d G d1 ms ∧
      jump.run d1 = .ok (J, d2) ∧ F = G ++ J ∧
      d' = d2.withScope { d2.scope with locals := d.scope.locals } := by
  simp only [exit, run_bind_ok, run_get_ok, run_modify_ok, run_pure_ok] at h
  obtain ⟨_, d0, ⟨rfl, rfl⟩, L, d1, hleave, drop, d2, hdrop, J, d3, hjump, _, _, rfl, rfl, rfl⟩ := h
  obtain ⟨ms, hms⟩ := emits_leaveTries hst site transfer hleave
  exact ⟨L ++ drop, d2, J, d3, ms, .unwind hms hdrop, hjump, rfl, rfl⟩

theorem emits_whileLoop (hst : ByRules st) {condition : Expr}
    (h : (whileLoop (fun loop => block (st { site.around with loop := some loop }))
      site.around.tries.length condition body).run d = .ok (F, d')) :
    ∃ ms, Emits AnyBlock (.kind site (.whileLoop condition body)) d F d' ms := by
  simp only [whileLoop, run_bind_ok, run_get_ok, run_reserve_ok, run_pure_ok] at h
  obtain ⟨_, d0, ⟨rfl, rfl⟩, test, d1, htest, _, _, ⟨rfl, rfl⟩, _, _, ⟨rfl, rfl⟩, G, d2, hbody,
      h⟩ := h
  obtain ⟨back, d3, hback, out, _, hout, G', _, hresolve, rfl, rfl⟩ := h
  obtain ⟨ls, hls⟩ := pushes_expr htest
  rw [show site.around.tries.length = site.opens.length from List.length_map ..] at hbody
  obtain ⟨ms, hms⟩ := emits_block
    (site.inLoop ⟨d1.scope.depth, site.opens.length, some d0.offset⟩
      (Fragment.redirect site.exits .leave (d2.offset + 3))
      ⟨d2.offset + 3, d0.offset, d1.scope.depth, d1.scope.locals, site.opens.length⟩) hst hbody
  have hle : d1.offset + 3 ≤ d2.offset := hms.added.le
  have hle0 : d0.offset ≤ d1.offset := (Added.of_emitted hls.emitted).le
  obtain ⟨jback, rfl⟩ := run_loopTo_backward (by omega) hback
  obtain ⟨jout, rfl⟩ := run_fill_forward (fun _ => rfl)
    (Nat.le_trans hle (Nat.le_add_right _ 3)) hout
  obtain ⟨hres, rfl⟩ := run_resolve_resolves hresolve
  exact ⟨_, .whileLoop hls jout hms hres jback⟩

theorem emits_countStep {step : Option Expr} (h : (countStep step).run d = .ok (F, d')) :
    ∃ ms, Pushes D (.one (step.getD (.int 1))) d F d' ms := by
  cases step with
  | some e => exact pushes_expr h
  | none => exact pushes_expr (by rwa [Option.getD_none, expr])

theorem emits_countLoop (hst : ByRules st) {var : String} {start stop : Expr} {step : Option Expr}
    (h : (countLoop site.around (fun loop => block (st { site.around with loop := some loop }))
      var start stop step body).run d = .ok (F, d')) :
    ∃ ms, Emits AnyBlock (.kind site (.countLoop var start stop step body)) d F d' ms := by
  simp only [countLoop, run_bind_ok, run_get_ok, run_enter_ok, run_reserve_ok, run_pure_ok] at h
  obtain ⟨first, d1, hfirst, _, _, rfl, bound, d2, hbound, slot2, d3, hslot2, h⟩ := h
  obtain ⟨stride, d4, hstride, slot4, _, hslot4, _, d5, ⟨rfl, rfl⟩, test, d6, htest, h⟩ := h
  obtain ⟨_, _, ⟨rfl, rfl⟩, _, _, ⟨rfl, rfl⟩, G, _, hbody, G', d7, hagain, h⟩ := h
  obtain ⟨next, d8, hnext, back, d9, hback, out, _, hout, G'', _, hres, h⟩ := h
  obtain ⟨drop, _, hdrop, rfl, rfl⟩ := h
  obtain ⟨ms, hfirst⟩ := stores_store (yields_expr start) hfirst
  obtain ⟨ns, hbound⟩ := pushes_expr hbound
  obtain ⟨os, hstride⟩ := emits_countStep hstride
  obtain ⟨ps, htest⟩ := pushes_expr htest
  obtain ⟨hagain, rfl⟩ := run_resolve_resolves hagain
  obtain ⟨rs, hnext⟩ := stores_store (yields_expr (countNext var)) hnext
  rw [show site.around.tries.length = site.opens.length from List.length_map ..] at hbody
  obtain ⟨qs, hbody⟩ := emits_block (site.inLoop ⟨d6.scope.depth, site.opens.length, none⟩
    (Fragment.redirect (Fragment.redirect site.exits .leave (d8.offset + 3)) .again d7.offset)
    ⟨d8.offset + 3, d7.offset, d6.scope.depth, d6.scope.locals, site.opens.length⟩) hst hbody
  have hle5 : d5.offset ≤ d6.offset := (Added.of_emitted htest.emitted).le
  have hle6 : d6.offset + 3 ≤ d7.offset := hbody.added.le
  have hle7 : d7.offset ≤ d8.offset := hnext.grows.le
  obtain ⟨jback, rfl⟩ := run_loopTo_backward (by omega) hback
  obtain ⟨jout, rfl⟩ := run_fill_forward (fun _ => rfl)
    (show d6.offset + 3 ≤ d8.offset + 3 by omega) hout
  obtain ⟨hleave, rfl⟩ := run_resolve_resolves hres
  exact ⟨_, .countLoop hfirst hbound hslot2 hstride hslot4 htest jout hbody hagain hleave hnext
    jback hdrop⟩

theorem run_eachTest_ok {each index : UInt16} (h : (eachTest each index).run d = .ok (F, d')) :
    F = eachTesting d.line each index ∧ d' = d.advance 8 := by
  simp only [eachTest, run_bind_ok, run_emit_ok, run_pure_ok] at h
  obtain ⟨_, _, ⟨rfl, rfl⟩, _, _, ⟨rfl, rfl⟩, _, _, ⟨rfl, rfl⟩, _, _, ⟨rfl, rfl⟩, rfl, rfl⟩ := h
  exact ⟨rfl, rfl⟩

theorem run_eachNext_ok {index : UInt16} (h : (eachNext index).run d = .ok (F, d')) :
    ∃ one d1, (constant (.int 1)).run (d.advance 3) = .ok (one, d1) ∧
      F = eachCounting d.line index one ∧ d' = d1.advance 8 := by
  simp only [eachNext, run_bind_ok, run_emit_ok, run_pure_ok] at h
  obtain ⟨_, _, ⟨rfl, rfl⟩, _, _, hpush, _, _, ⟨rfl, rfl⟩, _, _, ⟨rfl, rfl⟩, _, _, ⟨rfl, rfl⟩, rfl,
    rfl⟩ := h
  obtain ⟨one, d1, hone, rfl, rfl⟩ := run_push_ok hpush
  have hline : d1.line = d.line := by rw [constant_line hone, Draft.advance_line]
  refine ⟨one, d1, hone, ?_, rfl⟩
  simp only [Draft.advance_line, hline]
  rfl

theorem emits_eachLoop (hst : ByRules st) {var : String} {items : Expr}
    (h : (eachLoop site.around (fun loop => block (st { site.around with loop := some loop }))
      var items body).run d = .ok (F, d')) :
    ∃ ms, Emits AnyBlock (.kind site (.eachLoop var items body)) d F d' ms := by
  simp only [eachLoop, run_bind_ok, run_get_ok, run_enter_ok, run_reserve_ok, run_pure_ok] at h
  obtain ⟨place, d1, hplace, _, _, rfl, all, d2, hall, each, d3, heach, h⟩ := h
  obtain ⟨_, _, hzero, index, _, hindex, _, d5, ⟨rfl, rfl⟩, _, _, htest, h⟩ := h
  obtain ⟨_, _, ⟨rfl, rfl⟩, bind, _, hbind, _, _, ⟨rfl, rfl⟩, _, d6, ⟨rfl, rfl⟩, G, _, hbody, h⟩ :=
    h
  obtain ⟨G', d7, hagain, next, _, hnext, back, _, hback, out, _, hout, G'', _, hres, h⟩ := h
  obtain ⟨drop, _, hdrop, rfl, rfl⟩ := h
  obtain ⟨ms, hall⟩ := pushes_expr hall
  obtain ⟨zero, d4, kzero, rfl, rfl⟩ := run_push_ok hzero
  obtain ⟨rfl, rfl⟩ := run_eachTest_ok htest
  obtain ⟨ns, hbind⟩ := stores_store (yields_eachItem each index) hbind
  obtain ⟨hagain, rfl⟩ := run_resolve_resolves hagain
  obtain ⟨one, d8, hone, rfl, rfl⟩ := run_eachNext_ok hnext
  have hoff8 : d8.offset = d7.offset + 3 := constant_offset hone
  rw [show site.around.tries.length = site.opens.length from List.length_map ..] at hbody
  obtain ⟨os, hbody⟩ := emits_block (site.inLoop ⟨d6.scope.depth, site.opens.length, none⟩
    (Fragment.redirect (Fragment.redirect site.exits .leave (d7.offset + 14)) .again d7.offset)
    ⟨d7.offset + 14, d7.offset, d6.scope.depth, d6.scope.locals, site.opens.length⟩) hst hbody
  have hle5 : d5.offset + 11 ≤ d6.offset := hbind.grows.le
  have hle6 : d6.offset ≤ d7.offset := hbody.added.le
  obtain ⟨jback, rfl⟩ := run_loopTo_backward
    (show d5.offset ≤ d8.offset + 8 + 3 by omega) hback
  obtain ⟨jout, rfl⟩ := run_fill_forward (fun _ => rfl)
    (show d5.offset + 8 + 3 ≤ d8.offset + 8 + 3 by omega) hout
  obtain ⟨hleave, rfl⟩ := run_resolve_resolves hres
  have hend : ((d8.advance 8).advance 3).offset = d7.offset + 14 := by
    simp only [Draft.advance_offset, hoff8]
  have hloop : (d8.advance 8).offset = d7.offset + 11 := by
    simp only [Draft.advance_offset, hoff8]
  rw [hend] at jout hleave
  rw [hloop] at jback
  exact
    ⟨_, .eachLoop (ensures_ensureVariable hplace) hall heach kzero hindex jout hbind hbody hagain
    hleave hone jback hdrop⟩

theorem emits_switchBlock (hst : ByRules st) {subject : Expr}
    {arms : List (List Expr × List Stmt)}
    (h : (switchBlock (block (st site.around)) subject arms otherwise).run d = .ok (F, d')) :
    ∃ ms, Emits AnyBlock (.kind site (.switchBlock subject arms otherwise)) d F d' ms := by
  simp only [switchBlock, run_bind_ok, run_enter_ok, run_pure_ok] at h
  obtain ⟨_, _, rfl, value, d1, hvalue, slot, d2, hslot, G, d3, harms, drop, _, hdrop, rfl, rfl⟩ :=
    h
  obtain ⟨ls, hls⟩ := pushes_expr hvalue
  obtain ⟨ms, hms⟩ := emits_cases hst harms
  exact ⟨_, .switchBlock hls hslot hms hdrop⟩

theorem run_guarded_ok {block : List TryFrame → List Stmt → Compile Fragment}
    {tries : List TryFrame} {ending : Compile Fragment} {gap : Gap}
    (h : (guarded block tries cleanup body ending).run d = .ok ((F, gap), d')) :
    ∃ G d1 drop d2 begin,
      (block (⟨cleanup, d.scope.depth⟩ :: tries) body).run (d.advance 3) = .ok (G, d1) ∧
      ending.run (d1.advance 1) = .ok (drop, d2) ∧
      (fill ⟨d.line, d.offset + 3⟩ .tryBegin).run (d2.advance 3) = .ok (begin, d2.advance 3) ∧
      F = begin ++ G ++ #[⟨d1.line, .instr .tryEnd⟩] ++ drop ∧
      gap = ⟨d2.line, d2.offset + 3⟩ ∧ d' = d2.advance 3 := by
  simp only [guarded, run_bind_ok, run_get_ok, run_reserve_ok, run_emit_ok, run_pure_ok] at h
  obtain ⟨_, _, ⟨rfl, rfl⟩, _, _, ⟨rfl, rfl⟩, G, d1, hbody, _, _, ⟨rfl, rfl⟩, drop, d2, hend, h⟩ :=
    h
  obtain ⟨_, _, ⟨rfl, rfl⟩, begin, _, hbegin, hF, rfl⟩ := h
  obtain ⟨_, _, rfl⟩ := run_fill_ok.mp hbegin
  cases hF
  exact ⟨G, d1, drop, d2, begin, hbody, hend, hbegin, by simp only [Array.append_assoc], rfl, rfl⟩

/-- The parts of code that raises a message again. -/
theorem run_rethrow_ok {block : List Stmt → Compile Fragment} {final : List Stmt}
    (h : (rethrow block final).run d = .ok (F, d')) :
    ∃ slot d1 G d2, (declare errorName).run d = .ok (slot, d1) ∧
      (block final).run d1 = .ok (G, d2) ∧
      F = G ++ #[⟨d2.line, .instr (.getLocal slot)⟩] ++ #[⟨d2.line, .instr .raise⟩] ∧
      d' = d2.advance 4 := by
  simp only [rethrow, run_bind_ok, run_emit_ok, run_pure_ok] at h
  obtain ⟨slot, d1, hslot, G, d2, hfinal, _, _, ⟨rfl, rfl⟩, _, _, ⟨rfl, rfl⟩, rfl, rfl⟩ := h
  exact ⟨slot, d1, G, d2, hslot, hfinal, rfl, rfl⟩

theorem run_declare_offset {slot : UInt16} (h : (declare name).run d = .ok (slot, d')) :
    d'.offset = d.offset := by
  obtain ⟨_, _, _, rfl⟩ := run_declare_ok.mp h
  rfl

theorem emits_handlerBoth (hst : ByRules st) (owner : Attempt) {final : List Stmt}
    (h : (handler (fun tries => st { site.around with tries := tries }) site.around.tries
      (some (name, body)) (some final)).run d = .ok (F, d')) :
    ∃ ms, Emits AnyBlock (.handler site owner (some (name, body)) (some final)
      (.owed owner :: site.duties)) d F d' ms := by
  simp only [handler, run_bind_ok, run_enter_ok, run_abandon_ok, run_pure_ok] at h
  obtain ⟨_, _, rfl, slot, d1, hslot, ⟨code, gap⟩, _, hguarded, _, _, rfl, caught, d4, hcaught,
      h⟩ := h
  obtain ⟨again, _, hrethrow, _, _, rfl, skip, _, hskip, rfl, rfl⟩ := h
  obtain ⟨G, d2, drop, d3, begin, hbody, hdrop, hbegin, rfl, rfl, rfl⟩ := run_guarded_ok hguarded
  obtain ⟨error, d5, H, d6, herror, hfinal, rfl, rfl⟩ := run_rethrow_ok hrethrow
  let copy : Copy := (d5.copy owner final (.rethrow error) d6.offset)
  obtain ⟨ms, hms⟩ := emits_block (site.within (d1.openTry (some final) owner (d3.offset + 3)
    (.running copy :: site.duties) :: site.opens) (.owed owner :: site.duties)) hst hbody
  obtain ⟨ns, hns⟩ := emits_block (site.running site.opens copy site.duties) hst hfinal
  have hoff1 : d1.offset = (d.withScope d.scope.enter).offset := run_declare_offset hslot
  have hle2 : d1.offset + 3 ≤ d2.offset := hms.added.le
  have hle3 : d2.offset + 1 ≤ d3.offset := by
    have h := leave_added hdrop
    exact h.le
  have hoff4 : d4.offset = d3.offset + 3 := run_declare_offset hcaught
  have hoff5 : d5.offset = d4.offset := run_declare_offset herror
  have hle6 : d5.offset ≤ d6.offset := hns.added.le
  obtain ⟨jbegin, -⟩ := run_fill_forward (fun _ => rfl)
    (show d1.offset + 3 ≤ d3.offset + 3 by omega) hbegin
  obtain ⟨jskip, rfl⟩ := run_fill_forward (fun _ => rfl)
    (show d3.offset + 3 ≤ d6.offset + 4 by omega) hskip
  rw [hoff1] at jbegin
  have hrule := Emits.handlerBoth trivial hslot jbegin hms hdrop jskip hcaught herror hns
  simp only [Array.append_assoc] at hrule ⊢
  exact ⟨_, hrule⟩

theorem emits_handler (hst : ByRules st) (owner : Attempt)
    {handling : Option (String × List Stmt)}
    (h : (handler (fun tries => st { site.around with tries := tries }) site.around.tries handling
      cleanup).run d = .ok (F, d')) :
    ∃ landing ms, Emits AnyBlock (.handler site owner handling cleanup landing) d F d' ms ∧
      (cleanup = none → landing = site.duties) := by
  rcases handling with _ | ⟨name, body⟩ <;> rcases cleanup with _ | final
  · obtain ⟨rfl, rfl⟩ := run_emit_ok.mp h
    exact ⟨site.duties, [], .handlerNone, fun _ => rfl⟩
  · simp only [handler, run_bind_ok, run_enter_ok, run_abandon_ok, run_pure_ok] at h
    obtain ⟨_, _, rfl, code, _, hrethrow, _, _, rfl, rfl, rfl⟩ := h
    obtain ⟨slot, d1, G, d2, hslot, hfinal, rfl, rfl⟩ := run_rethrow_ok hrethrow
    obtain ⟨ms, hms⟩ := emits_block (site.running site.opens
      (d1.copy owner final (.rethrow slot) d2.offset) site.duties) hst hfinal
    exact ⟨_, _, .handlerFinally trivial hslot hms, (by rintro ⟨⟩)⟩
  · simp only [handler, run_bind_ok, run_enter_ok, run_pure_ok] at h
    obtain ⟨_, _, rfl, slot, d1, hslot, G, d2, hbody, drop, _, hdrop, rfl, rfl⟩ := h
    obtain ⟨ms, hms⟩ := emits_sequence site hst hbody
    exact ⟨site.duties, ms, .handlerCatch hslot hms hdrop, fun _ => rfl⟩
  · obtain ⟨ms, hms⟩ := emits_handlerBoth hst owner h
    exact ⟨_, ms, hms, (by rintro ⟨⟩)⟩

theorem emits_tryBlock (hst : ByRules st) {handling : Option (String × List Stmt)}
    (h : (tryBlock (fun tries => st { site.around with tries := tries }) site.around.tries body
      handling cleanup).run d = .ok (F, d')) :
    ∃ ms, Emits AnyBlock (.kind site (.tryBlock body handling cleanup)) d F d' ms := by
  rw [tryBlock, run_bind_ok] at h
  obtain ⟨⟨code, gap⟩, _, hguarded, h⟩ := h
  obtain ⟨G, d1, _, _, begin, hbody, hpure, hbegin, rfl, rfl, rfl⟩ := run_guarded_ok hguarded
  obtain ⟨rfl, rfl⟩ := run_pure_ok.mp hpure
  rw [run_bind_ok] at h
  obtain ⟨H, _, hhandler, h⟩ := h
  obtain ⟨landing, ns, hns, hlanding⟩ := emits_handler hst (d.attempt site handling) hhandler
  rw [run_bind_ok] at h
  obtain ⟨skip, d2, hskip, h⟩ := h
  obtain ⟨jskip, rfl⟩ := run_fill_forward (fun _ => rfl) hns.added.le hskip
  rw [Array.append_empty] at h
  cases cleanup with
  | none =>
    obtain rfl := hlanding rfl
    obtain ⟨rfl, rfl⟩ := run_pure_ok.mp h
    obtain ⟨ms, hms⟩ := emits_block (site.within
      (d.openTry none (d.attempt site handling) (d1.offset + 4) site.duties :: site.opens)
      site.duties) hst hbody
    have hle1 : d.offset + 3 ≤ d1.offset := hms.added.le
    obtain ⟨jbegin, -⟩ := run_fill_forward (fun _ => rfl)
      (show d.offset + 3 ≤ d1.offset + 4 by omega) hbegin
    exact ⟨_, .tryPlain jbegin hms jskip hns⟩
  | some final =>
    simp only [run_bind_ok, run_pure_ok] at h
    obtain ⟨K, _, hfinal, rfl, rfl⟩ := h
    obtain ⟨ms, hms⟩ := emits_block (site.within
      (d.openTry (some final) (d.attempt site handling) (d1.offset + 4) landing :: site.opens)
      (.owed (d.attempt site handling) :: site.duties)) hst hbody
    have hle1 : d.offset + 3 ≤ d1.offset := hms.added.le
    obtain ⟨jbegin, -⟩ := run_fill_forward (fun _ => rfl)
      (show d.offset + 3 ≤ d1.offset + 4 by omega) hbegin
    obtain ⟨os, hos⟩ := emits_block (site.running site.opens
      (d2.copy (d.attempt site handling) final .onward d'.offset) site.duties) hst
      hfinal
    exact ⟨_, .tryCleanup trivial jbegin hms jskip hns hos⟩

theorem emits_returnValue {value : Option Expr} (h : (returnValue value).run d = .ok (F, d')) :
    ∃ ms, Pushes D (.one (value.getD .absent)) d F d' ms := by
  cases value with
  | some e => exact pushes_expr h
  | none => exact pushes_expr (by rwa [Option.getD_none, expr])

theorem emits_ret (hst : ByRules st) {value : Option Expr} (hin : site.inFunction = true)
    (h : (do
      let code ← returnValue value
      return code ++ (← returning (blockWithin st site.around) site.around)).run d =
        .ok (F, d')) :
    ∃ ms, Emits AnyBlock (.kind site (.ret value)) d F d' ms := by
  simp only [run_bind_ok, run_pure_ok] at h
  obtain ⟨code, d1, hvalue, G, _, hret, rfl, rfl⟩ := h
  obtain ⟨ls, hvalue⟩ := emits_returnValue hvalue
  rw [returning] at hret
  cases hslot : site.returnSlot with
  | none =>
    have hslot' : site.around.returnSlot = none := hslot
    simp only [hslot', run_emit_ok] at hret
    obtain ⟨rfl, rfl⟩ := hret
    exact ⟨_, .retPlain hin (.inl hslot) hvalue⟩
  | some slot =>
    have hslot' : site.around.returnSlot = some slot := hslot
    cases hopens : site.opens with
    | nil =>
      have htries : site.around.tries = [] := by rw [Site.around, hopens]; rfl
      simp only [hslot', htries, run_emit_ok] at hret
      obtain ⟨rfl, rfl⟩ := hret
      exact ⟨_, .retPlain hin (.inr hopens) hvalue⟩
    | cons t outer =>
      have htries : site.around.tries = t.frame :: outer.map OpenTry.frame := by
        rw [Site.around, hopens]; rfl
      simp only [hslot', htries, run_bind_ok, run_emit_ok, run_get_ok, run_pure_ok] at hret
      obtain ⟨_, _, ⟨rfl, rfl⟩, _, _, ⟨rfl, rfl⟩, _, _, ⟨rfl, rfl⟩, K, _, hexit, rfl, rfl⟩ := hret
      rw [← htries] at hexit
      obtain ⟨L, d2, J, d3, ms, hms, hjump, rfl, rfl⟩ := emits_exit hst
        (site.within site.opens (giveUp site.duties)) (.ret slot) hexit
      simp only [run_bind_ok, run_emit_ok, run_pure_ok] at hjump
      obtain ⟨_, _, ⟨rfl, rfl⟩, _, _, ⟨rfl, rfl⟩, rfl, rfl⟩ := hjump
      have hrule := Emits.retAcross hin hslot (by rw [hopens]; simp) hvalue hms
      simp only [Array.append_assoc] at hrule ⊢
      exact ⟨_, hrule⟩

theorem run_functionCode_ok {params : List String} {W : Fragment}
    (h : (functionCode st params body).run d = .ok (W, d')) :
    ∃ first slot d1 G d2, (opening params body).run d = .ok ((first, slot), d1) ∧
      (sequence (st { inFunction := true, returnSlot := slot }) body).run d1 = .ok (G, d2) ∧
      W = first ++ G ++ closing d2.line ∧ d' = d2.advance 2 := by
  simp only [functionCode, run_bind_ok, run_emit_ok, run_pure_ok] at h
  obtain ⟨⟨first, slot⟩, d1, hopen, G, d2, hbody, _, _, ⟨rfl, rfl⟩, _, _, ⟨rfl, rfl⟩, rfl, rfl⟩ := h
  exact ⟨first, slot, d1, G, d2, hopen, hbody, Array.append_assoc, rfl⟩

theorem emits_function {fuel : Nat} (hst : ByRules (stmt fuel)) {params : List String}
    {isAsync isNative : Bool}
    (h : (functionDeclaration (stmt fuel) name params isAsync isNative body).run d = .ok (F, d')) :
    ∃ ms, Emits AnyBlock (.kind site (.function name params isAsync isNative body)) d F d' ms := by
  rw [functionDeclaration] at h
  by_cases hparams : 255 < params.length
  · rw [if_pos hparams] at h
    exact absurd h (by simp)
  · rw [if_neg hparams, run_bind_ok] at h
    obtain ⟨f, d3, hfun, h⟩ := h
    simp only [function, run_bind_ok, run_get_ok, run_set_ok, run_pure_ok] at hfun
    obtain ⟨_, d0, ⟨rfl, rfl⟩, _, _, rfl, W, _, hcode, _, _, ⟨rfl, rfl⟩, _, _, rfl, rfl, rfl⟩ :=
      hfun
    have hwhole := Assembled.function hcode
    obtain ⟨first, slot, d1, G, d2, hopen, hbody, rfl, rfl⟩ := run_functionCode_ok hcode
    obtain ⟨ms, hms⟩ := emits_sequence { inFunction := true, returnSlot := slot } hst hbody
    simp only [run_bind_ok, run_emit_ok, run_pure_ok, nameConstant] at h
    obtain ⟨_, _, hpush, index, d4, hindex, _, _, ⟨rfl, rfl⟩, _, _, ⟨rfl, rfl⟩, rfl, rfl⟩ := h
    obtain ⟨f, d3, hf, rfl, rfl⟩ := run_push_ok hpush
    have hline3 : d3.line = d0.line := by rw [constant_line hf]
    have hline4 : d4.line = d3.line := by rw [constant_line hindex, Draft.advance_line]
    have hrule := @Emits.function AnyBlock site _ _ _ _ _ _ _ _ _ _ _ _ _ _ _ _
      (Nat.le_of_not_lt hparams) hopen hms hf hindex hwhole
    refine ⟨[], ?_⟩
    simp only [Draft.advance_line, hline4, hline3]
    exact hrule

theorem emits_breakLoop (hst : ByRules st) {loop : LoopFrame} (hloop : site.loop = some loop)
    (h : (exit (blockWithin st site.around) site.around.tries loop.scopeDepth loop.tryDepth
      (step (.exit .leave))).run d = .ok (F, d')) :
    ∃ ms, Emits AnyBlock (.kind site .breakLoop) d F d' ms := by
  obtain ⟨G, d1, J, d2, ms, hms, hjump, rfl, rfl⟩ :=
    emits_exit hst site (.jump (site.exits .leave)) h
  obtain ⟨rfl, rfl⟩ := run_step_ok.mp hjump
  exact ⟨_, .breakLoop hloop hms⟩

theorem emits_continueLoop (hst : ByRules st) {loop : LoopFrame} (hloop : site.loop = some loop)
    (h : (exit (blockWithin st site.around) site.around.tries loop.scopeDepth loop.tryDepth
      (match loop.again? with
        | some target => loopTo target
        | none => step (.exit .again))).run d = .ok (F, d')) :
    ∃ ms, Emits AnyBlock (.kind site .continueLoop) d F d' ms := by
  cases hagain : loop.again? with
  | none =>
    obtain ⟨G, d1, J, d2, ms, hms, hjump, rfl, rfl⟩ :=
      emits_exit hst site (.jump (site.exits .again)) h
    simp only [hagain] at hjump
    obtain ⟨rfl, rfl⟩ := run_step_ok.mp hjump
    exact ⟨_, .continueOn hloop hagain hms⟩
  | some target =>
    obtain ⟨G, d1, J, d2, ms, hms, hjump, rfl, rfl⟩ := emits_exit hst site (.jump target) h
    simp only [hagain] at hjump
    obtain ⟨_, _, rfl⟩ := run_loopTo_ok.mp hjump
    exact ⟨_, .continueBack hloop hagain hms hjump⟩

/-- The line that a draft has before a statement does not matter. -/
theorem run_stmt_atLine (fuel line : Nat) (around : Surroundings) (k : StmtKind) (d : Draft) :
    (stmt (fuel + 1) around (.mk line k)).run (d.atLine line) =
      (stmt (fuel + 1) around (.mk line k)).run d := by
  rw [stmt.eq_def]
  rfl

/-- The compiler works by the rules. -/
theorem emits_stmt (fuel : Nat) : ByRules (stmt fuel) := by
  induction fuel with
  | zero =>
    intro site s d F d' h
    exact absurd h (by simp [stmt])
  | succ fuel ih =>
    rintro site ⟨line, k⟩ d F d' h
    suffices hk : ∃ ms, Emits AnyBlock (.kind site k) (d.atLine line) F d' ms by
      obtain ⟨ms, hms⟩ := hk
      exact ⟨_, .stmt hms⟩
    have hline {x : Compile Fragment}
        (hx : (modify (fun d : Draft => { d with line := line }) >>= fun _ => x).run d =
          .ok (F, d')) : x.run (d.atLine line) = .ok (F, d') := hx
    cases k with
    | ifChain bs otherwise =>
      rw [stmt] at h
      obtain ⟨ms, hms⟩ := emits_conditional ih (hline h)
      exact ⟨ms, .ifChain hms⟩
    | whileLoop condition body =>
      rw [stmt] at h
      exact emits_whileLoop ih (hline h)
    | countLoop var start stop step body =>
      rw [stmt] at h
      exact emits_countLoop ih (hline h)
    | eachLoop var items body =>
      rw [stmt] at h
      exact emits_eachLoop ih (hline h)
    | function name params isAsync isNative body =>
      rw [stmt] at h
      exact emits_function ih (hline h)
    | ret value =>
      rw [stmt] at h
      replace h := hline h
      dsimp only at h
      split at h
      next hin => exact emits_ret ih hin h
      next => exact absurd h (by simp)
    | breakLoop =>
      rw [stmt] at h
      replace h := hline h
      dsimp only at h
      split at h
      next loop hloop => exact emits_breakLoop ih hloop h
      next => exact absurd h (by simp)
    | continueLoop =>
      rw [stmt] at h
      replace h := hline h
      dsimp only at h
      split at h
      next loop hloop => exact emits_continueLoop ih hloop h
      next => exact absurd h (by simp)
    | tryBlock body handling cleanup =>
      rw [stmt] at h
      exact emits_tryBlock ih (hline h)
    | switchBlock subject arms otherwise =>
      rw [stmt] at h
      exact emits_switchBlock ih (hline h)
    | _ =>
      obtain ⟨ms, hms⟩ := acts_stmt rfl ((run_stmt_atLine fuel line site.around _ d).trans h)
      exact ⟨ms, .simple hms⟩

end Compile

end TaskBasic
