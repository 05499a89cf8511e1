import Mathlib.Data.Nat.Digits.Lemmas
import Mathlib.Tactic.Common

/-!
# Numerals

The digits of a number in a base, zero as one digit, and the number of a row of digits as it is read
from the front.
-/

namespace Numeral

variable {b n d : ℕ}

/-- The digits of a number, the low ones first. -/
def low (b n : ℕ) : List ℕ := if n = 0 then [0] else b.digits n

/-- The number of a row of digits, behind those that make `v`. -/
def read (b v : ℕ) (ds : List ℕ) : ℕ := ds.foldl (fun v d => v * b + d) v

theorem low_ne_nil (b n : ℕ) : low b n ≠ [] := by
  unfold low
  split
  · exact List.cons_ne_nil 0 []
  · next hn => exact Nat.digits_ne_nil_iff_ne_zero.mpr hn

/-- **Digit by digit.** -/
theorem low_step (hb : 1 < b) (n : ℕ) :
    low b n = n % b :: if n / b = 0 then [] else low b (n / b) := by
  unfold low
  by_cases hn : n = 0
  · rw [if_pos hn, hn, Nat.zero_mod, Nat.zero_div, if_pos rfl]
  · rw [if_neg hn, Nat.digits_def' hb (Nat.pos_of_ne_zero hn)]
    by_cases hdiv : n / b = 0
    · rw [if_pos hdiv, hdiv, Nat.digits_zero]
    · rw [if_neg hdiv, if_neg hdiv]

theorem low_lt (hb : 1 < b) (h : d ∈ low b n) : d < b := by
  unfold low at h
  split at h
  · rw [List.mem_singleton.mp h]
    exact Nat.zero_lt_one.trans hb
  · exact Nat.digits_lt_base hb h

/-- **A numeral is read back.** -/
theorem read_low (b n : ℕ) : read b 0 (low b n).reverse = n := by
  unfold read low
  split
  · next hn =>
    rw [hn, List.reverse_singleton]
    show 0 * b + 0 = 0
    rw [Nat.zero_mul]
  · have hfold : (fun x y => y * b + x) = fun x y => x + b * y := by
      funext x y
      rw [Nat.mul_comm, Nat.add_comm]
    have hdigits := Nat.ofDigits_digits b n
    rw [Nat.ofDigits_eq_foldr] at hdigits
    rw [List.foldl_reverse, hfold]
    exact hdigits

/-- What has been read is no more than the whole. -/
theorem le_read (hb : 0 < b) (v : ℕ) (ds : List ℕ) : v ≤ read b v ds := by
  induction ds generalizing v with
  | nil => exact le_rfl
  | cons d ds ih =>
    have hle : v ≤ v * b + d := (Nat.le_mul_of_pos_right v hb).trans (Nat.le_add_right ..)
    exact hle.trans (ih _)

theorem read_zeros (b k : ℕ) (ds : List ℕ) : read b 0 (List.replicate k 0 ++ ds) = read b 0 ds := by
  induction k with
  | zero => rfl
  | succ k ih =>
    rw [List.replicate_succ, List.cons_append]
    show read b (0 * b + 0) _ = _
    rw [Nat.zero_mul]
    exact ih

/-- A number without a zero in front has none in its numeral. -/
theorem getLast_low (hn : n ≠ 0) (h : low b n ≠ []) : (low b n).getLast h ≠ 0 := by
  have hlow : low b n = b.digits n := if_neg hn
  simp only [hlow]
  exact Nat.getLast_digit_ne_zero b hn

end Numeral
