import Mathlib.Algebra.Field.GeomSum
import Mathlib.Tactic.FieldSimp
import Mathlib.Tactic.Ring

/-! # Annuities due

The value of equal payments that are each made at the beginning of a period, at
a fixed rate a period, right after the last period.
-/

namespace SysProg.Annuity

open Finset

variable {K : Type} [Field K]

/-- `n` payments of `M`, the first of which has earned the rate `r` for `n` periods
    and the last for one. -/
def due (M r : K) (n : Nat) : K := ∑ k ∈ range n, M * (1 + r) ^ (k + 1)

@[simp] theorem due_zero (M r : K) : due M r 0 = 0 := by
  simp [due]

/-- A period later there is one payment more, and everything has earned `r`. -/
theorem due_succ (M r : K) (n : Nat) : due M r (n + 1) = (due M r n + M) * (1 + r) := by
  have later : due M r n * (1 + r) = ∑ k ∈ range n, M * (1 + r) ^ (k + 2) := by
    rw [due, sum_mul]
    apply sum_congr rfl
    intro k _
    rw [mul_assoc, ← pow_succ]
  rw [add_mul, later, due, sum_range_succ']
  ring

/-- The closed form. -/
theorem due_eq (M : K) {r : K} (rate : r ≠ 0) (n : Nat) :
    due M r n = M * (1 + r) * ((1 + r) ^ n - 1) / r := by
  have first : due M r n = M * (1 + r) * ∑ k ∈ range n, (1 + r) ^ k := by
    rw [due, mul_sum]
    apply sum_congr rfl
    intro k _
    ring
  have powers : (∑ k ∈ range n, (1 + r) ^ k) * r = (1 + r) ^ n - 1 := by
    have geometric := geom_sum_mul (1 + r) n
    rwa [add_sub_cancel_left] at geometric
  rw [first, ← powers]
  field_simp

/-- Without interest only the payments count. -/
theorem due_of_zero (M : K) (n : Nat) : due M 0 n = n * M := by
  simp [due]

end SysProg.Annuity
