import TaskBasic.Heap.Operate

/-
Arithmetic on ints.

Sums, differences, products and the opposite sign are those of the integers, or
an overflow where the result has no machine word.  A modulo is found by a
remainder of machine words and at most one addition; neither overflows.

* `Number.toInt_floorMod` — the modulo of two ints is that of integers.
* `Heap.int_arithmetic_exact` — what the operators give for two ints.
-/

namespace TaskBasic

/-- The integer is the value of a machine word. -/
def Fits (n : Int) : Prop := Int64.minValue.toInt ≤ n ∧ n ≤ Int64.maxValue.toInt

/-- The result is `give` of the int with the value `n`, or `overflow` if there is none. -/
def IsExact {ε α : Type} (n : Int) (give : Int64 → α) (overflow : ε) (result : Except ε α) : Prop :=
  (Fits n → ∃ i, i.toInt = n ∧ result = .ok (give i)) ∧ (result = .error overflow ↔ ¬Fits n)

namespace Number

theorem isExact_exact {ε α : Type} {give : Int64 → α} {overflow : ε}
    {g : Except Failure Number → Except ε α}
    (hok : ∀ i, g (.ok (int i)) = .ok (give i)) (herror : g (.error .overflow) = .error overflow)
    (n : Int) : IsExact n give overflow (g (exact n)) := by
  rw [exact, int64OfInt?]
  by_cases h : Fits n
  · obtain ⟨hlow, hhigh⟩ := h
    rw [if_pos ⟨hlow, hhigh⟩]
    refine ⟨fun _ => ⟨_, Int64.toInt_ofInt_of_le hlow (Int.lt_add_one_of_le hhigh), hok _⟩,
      fun hn => ?_, fun hn => absurd ⟨hlow, hhigh⟩ hn⟩
    cases (hok _).symm.trans hn
  · rw [if_neg (show ¬(_ ∧ _) from h)]
    exact ⟨fun hn => absurd hn h, fun _ => h, fun _ => herror⟩

/-! ### The modulo -/

variable {x y : Int64}

/-- A remainder and a divisor of the other sign have their sum within a machine word. -/
theorem toInt_remainder_add (hsign : x % y < 0 ↔ ¬y < 0) :
    (x % y + y).toInt = x.toInt.tmod y.toInt + y.toInt := by
  have hlow := (x % y).le_toInt
  have hhigh := (x % y).toInt_lt
  have hlow' := y.le_toInt
  have hhigh' := y.toInt_lt
  rw [Int64.lt_iff_toInt_lt, Int64.lt_iff_toInt_lt, Int64.toInt_zero] at hsign
  rw [Int64.toInt_add, ← Int64.toInt_mod]
  exact Int.bmod_eq_of_le (by omega) (by omega)

theorem toInt_floorMod (hy : y ≠ 0) : (floorMod x y).toInt = x.toInt.fmod y.toInt := by
  have hy : y.toInt ≠ 0 := fun h => hy (Int64.toInt_inj.mp h)
  have hnonneg := Int.emod_nonneg x.toInt hy
  have hlt := Int.emod_lt x.toInt hy
  have hzero : x % y = 0 ↔ x.toInt.tmod y.toInt = 0 := by
    rw [← Int64.toInt_mod, ← Int64.toInt_inj, Int64.toInt_zero]
  have hneg : x % y < 0 ↔ x.toInt.tmod y.toInt < 0 := by
    rw [Int64.lt_iff_toInt_lt, Int64.toInt_mod, Int64.toInt_zero]
  have hneg' : y < 0 ↔ y.toInt < 0 := Int64.lt_iff_toInt_lt
  -- both are told from the remainder that is never negative
  have htmod := Int.tmod_eq_emod (a := x.toInt) (b := y.toInt)
  simp only [Int.dvd_iff_emod_eq_zero] at htmod
  simp only [Int.fmod_eq_emod, Int.dvd_iff_emod_eq_zero, floorMod, ne_eq, decide_eq_decide, hzero,
    hneg, hneg']
  split
  · rw [toInt_remainder_add (by rw [hneg, hneg']; omega)]
    split at htmod <;> split <;> omega
  · rw [Int64.toInt_mod]
    split at htmod <;> split <;> omega

/-- The modulo is zero or has the sign of the divisor, and is smaller. -/
theorem fmod_bounds {n m : Int} (hm : m ≠ 0) :
    (n.fmod m = 0 ∨ (n.fmod m < 0 ↔ m < 0)) ∧ (n.fmod m).natAbs < m.natAbs := by
  have hnonneg := Int.emod_nonneg n hm
  have hlt := Int.emod_lt n hm
  simp only [Int.fmod_eq_emod, Int.dvd_iff_emod_eq_zero]
  split <;> omega

end Number

namespace Heap

variable (h : Heap) (x y : Int64)

theorem binary_mod_int : h.binary .mod (.int x) (.int y) =
    if y = 0 then .error (.failure .divisionByZero) else .ok (h, .int (Number.floorMod x y)) := by
  show orFault (((if y = 0 then _ else _ : Except Failure Number).map Number.toValue).map
      (h, ·)) = _
  split <;> rfl

/-- What the operators give for two ints.  Sums, differences, products and the opposite sign are
exact, or an overflow where the result has no machine word.  A modulo fails for the divisor zero
only; it is what `x` has above the multiple of `y` that the quotient rounded down gives, it is zero
or has the sign of `y`, and it is smaller than `y`.  Neither the remainder nor the addition that it
is found with overflows. -/
theorem int_arithmetic_exact :
    (∀ op f, (op, f) ∈ [(BinaryOp.add, (· + ·)), (.sub, (· - ·)), (.mul, (· * ·))] →
      IsExact (f x.toInt y.toInt) (h, .int ·) (.failure .overflow)
        (h.binary op (.int x) (.int y))) ∧
    IsExact (-x.toInt) .int .overflow (negate (.int x)) ∧
    (h.binary .mod (.int x) (.int y) = .error (.failure .divisionByZero) ↔ y = 0) ∧
    (y ≠ 0 → ∃ r : Int64, h.binary .mod (.int x) (.int y) = .ok (h, .int r) ∧
      r.toInt = x.toInt - y.toInt * x.toInt.fdiv y.toInt ∧
      (r = 0 ∨ (r < 0 ↔ y < 0)) ∧ r.toInt.natAbs < y.toInt.natAbs) ∧
    (x % y).toInt = x.toInt.tmod y.toInt ∧
    ((x % y < 0 ↔ ¬y < 0) → (x % y + y).toInt = (x % y).toInt + y.toInt) ∧
    Failure.overflow.message = "Integer overflow" ∧
    Failure.divisionByZero.message = "Division by zero" := by
  refine ⟨fun op f hop => ?_, Number.isExact_exact (g := (·.map Number.toValue))
    (fun _ => rfl) rfl _, ?_, fun hy => ?_, Int64.toInt_mod x y, fun hsign => ?_, rfl, rfl⟩
  · simp only [List.mem_cons, Prod.mk.injEq, List.not_mem_nil, or_false] at hop
    rcases hop with ⟨rfl, rfl⟩ | ⟨rfl, rfl⟩ | ⟨rfl, rfl⟩ <;>
      exact Number.isExact_exact (g := fun r => orFault ((r.map Number.toValue).map (h, ·)))
        (fun _ => rfl) rfl _
  · rw [binary_mod_int]
    split <;> simp_all
  · rw [binary_mod_int, if_neg hy]
    have hfmod := Number.toInt_floorMod (x := x) hy
    have hy : y.toInt ≠ 0 := fun h => hy (Int64.toInt_inj.mp h)
    obtain ⟨hsign, hsmall⟩ := Number.fmod_bounds (n := x.toInt) hy
    refine ⟨_, rfl, hfmod.trans (Int.fmod_def _ _), ?_, hfmod ▸ hsmall⟩
    rw [← Int64.toInt_inj, Int64.lt_iff_toInt_lt, Int64.lt_iff_toInt_lt, hfmod]
    exact hsign
  · rw [Number.toInt_remainder_add hsign, Int64.toInt_mod]

end Heap

end TaskBasic
