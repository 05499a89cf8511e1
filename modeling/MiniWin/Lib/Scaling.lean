import Mathlib.Algebra.Order.Ring.Int
import Mathlib.Tactic.Linarith

/-!
# Positions on two scales

A position on a scale of `m` steps, put on one of `r` steps by a division that rounds down. It goes
from end to end and keeps the order; and back and forth it loses no more than a step of the other
scale.
-/

namespace Scaling

/-- The position `x` of `m`, among `r`. -/
def scale (r m x : ℤ) : ℤ := r * x / m

variable {r m x y : ℤ}

@[simp] theorem scale_zero (r m : ℤ) : scale r m 0 = 0 := by
  unfold scale
  rw [Int.mul_zero, Int.zero_ediv]

/-- The end goes to the end. -/
theorem scale_end (r : ℤ) (hm : 0 < m) : scale r m m = r := Int.mul_ediv_cancel _ hm.ne'

theorem scale_mono (hr : 0 ≤ r) (hm : 0 < m) (h : x ≤ y) : scale r m x ≤ scale r m y :=
  Int.ediv_le_ediv hm (Int.mul_le_mul_of_nonneg_left h hr)

theorem scale_nonneg (hr : 0 ≤ r) (hm : 0 < m) (hx : 0 ≤ x) : 0 ≤ scale r m x :=
  (scale_zero r m).symm.trans_le (scale_mono hr hm hx)

theorem scale_le (hr : 0 ≤ r) (hm : 0 < m) (hx : x ≤ m) : scale r m x ≤ r :=
  (scale_mono hr hm hx).trans_eq (scale_end r hm)

/-- **Back and forth** a position loses no more than the steps of its own scale that go into one of
the other. -/
theorem scale_scale (hr : 0 < r) (hm : 0 < m) (x : ℤ) :
    scale r m (scale m r x) ≤ x ∧ x ≤ scale r m (scale m r x) + max 1 ((r + m - 1) / m) := by
  obtain ⟨p, hp⟩ : ∃ p, scale m r x = p := ⟨_, rfl⟩
  obtain ⟨t, ht⟩ : ∃ t, scale r m p = t := ⟨_, rfl⟩
  have hplo : p * r ≤ m * x := hp ▸ Int.ediv_mul_le _ hr.ne'
  have hphi : m * x < (p + 1) * r := hp ▸ Int.lt_ediv_add_one_mul_self _ hr
  have htlo : t * m ≤ r * p := ht ▸ Int.ediv_mul_le _ hm.ne'
  have hthi : r * p < (t + 1) * m := ht ▸ Int.lt_ediv_add_one_mul_self _ hm
  have hceil : r ≤ (r + m - 1) / m * m := by
    have := Int.lt_ediv_add_one_mul_self (r + m - 1) hm
    linarith
  rw [hp, ht]
  refine ⟨?_, ?_⟩
  · refine Int.le_of_mul_le_mul_right (a := m) ?_ hm
    linarith
  · by_contra hnot
    have hfar : (r + m - 1) / m + 1 ≤ x - t := by
      omega
    have hmul := Int.mul_le_mul_of_nonneg_right hfar hm.le
    linarith

end Scaling
