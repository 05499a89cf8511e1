import Mathlib.Logic.Function.Iterate
import Mathlib.Data.List.Basic

/-!
# Products by shifting and exclusive or

A shift register moves its bits one place to the right, and where a one falls out at the right a
constant is added, by exclusive or. Such a step is linear (`step_xor`). The product of a row of
bits with a value is the sum of the values that the register has where the bits are one,
`combine`; the product bit after bit, `product`, is that.

Since the step is linear the bits can be read from the last to the first, and several at a time
(`combine_append`): this is how a table of the products of short rows is used. A step does nothing
but shift where only zeros fall out (`iterate_step_of_low`).
-/

namespace ShiftXor

variable {w : Nat} (R : BitVec w)

/-- One place to the right. -/
def step (v : BitVec w) : BitVec w := if v.getLsbD 0 then (v >>> 1) ^^^ R else v >>> 1

/-- The sum of the values at the bits that are one. -/
def combine : List Bool → BitVec w → BitVec w
  | [], _ => 0
  | x :: xs, v => (if x then v else 0) ^^^ combine xs (step R v)

/-- The product bit after bit: the sum so far, and the value of the register. -/
def product (xs : List Bool) (v : BitVec w) : BitVec w :=
  (xs.foldl (fun (z, v) x => (if x then z ^^^ v else z, step R v)) (0, v)).1

theorem zero_xor (v : BitVec w) : 0 ^^^ v = v := BitVec.zero_xor

@[simp] theorem step_zero : step R 0 = 0 := by
  simp [step]

/-- **A step is linear.** -/
theorem step_xor (u v : BitVec w) : step R (u ^^^ v) = step R u ^^^ step R v := by
  unfold step
  rw [BitVec.getLsbD_xor, BitVec.ushiftRight_xor_distrib]
  cases u.getLsbD 0 <;> cases v.getLsbD 0 <;> simp only [Bool.xor_false, Bool.xor_true,
    Bool.not_false, Bool.not_true, Bool.false_eq_true, if_true, if_false]
  · ac_rfl
  · ac_rfl
  -- both add the constant, which is then not there
  · calc u >>> 1 ^^^ v >>> 1 = u >>> 1 ^^^ v >>> 1 ^^^ (R ^^^ R) := by
          rw [BitVec.xor_self, BitVec.xor_zero]
      _ = u >>> 1 ^^^ R ^^^ (v >>> 1 ^^^ R) := by ac_rfl

theorem iterate_step_xor (n : Nat) (u v : BitVec w) :
    (step R)^[n] (u ^^^ v) = (step R)^[n] u ^^^ (step R)^[n] v := by
  induction n generalizing u v with
  | zero => rfl
  | succ n ih => rw [Function.iterate_succ_apply, Function.iterate_succ_apply,
      Function.iterate_succ_apply, step_xor, ih]

/-- **Only zeros fall out.** -/
theorem iterate_step_of_low {n : Nat} {v : BitVec w} (h : ∀ i < n, v.getLsbD i = false) :
    (step R)^[n] v = v >>> n := by
  induction n with
  | zero => rfl
  | succ n ih =>
    have hlow : (v >>> n).getLsbD 0 = false := by
      rw [BitVec.getLsbD_ushiftRight]
      exact h n (Nat.lt_succ_self n)
    rw [Function.iterate_succ_apply', ih fun i hi => h i (Nat.lt_succ_of_lt hi), step, hlow,
      if_neg Bool.false_ne_true, ← BitVec.shiftRight_add]

/-! ## Rows of bits -/

/-- A product with a value that the register has a step later. -/
theorem combine_step (xs : List Bool) (v : BitVec w) :
    combine R xs (step R v) = step R (combine R xs v) := by
  induction xs generalizing v with
  | nil => exact (step_zero R).symm
  | cons x xs ih =>
    rw [combine, combine, ih, step_xor]
    cases x
    · rw [if_neg Bool.false_ne_true, if_neg Bool.false_ne_true, step_zero]
    · rw [if_pos rfl, if_pos rfl]

/-- **Two rows of bits**, the second of which can be read first. -/
theorem combine_append (xs ys : List Bool) (v : BitVec w) :
    combine R (xs ++ ys) v = combine R xs v ^^^ (step R)^[xs.length] (combine R ys v) := by
  induction xs generalizing v with
  | nil => exact (zero_xor (combine R ys v)).symm
  | cons x xs ih =>
    rw [List.cons_append, combine, ih, combine, BitVec.xor_assoc, List.length_cons,
      Function.iterate_succ_apply, ← combine_step]

/-- The sum of two rows of bits. -/
theorem combine_zipWith (xs ys : List Bool) (v : BitVec w) (h : xs.length = ys.length) :
    combine R (xs.zipWith xor ys) v = combine R xs v ^^^ combine R ys v := by
  induction xs generalizing ys v with
  | nil => rw [List.zipWith_nil_left, List.length_eq_zero_iff.mp h.symm]; exact (zero_xor _).symm
  | cons x xs ih =>
    obtain ⟨y, ys, rfl⟩ := List.exists_cons_of_length_eq_add_one h.symm
    have hbit : (if xor x y then v else 0) = (if x then v else 0) ^^^ (if y then v else 0) := by
      cases x <;> cases y <;> simp
    rw [List.zipWith_cons_cons, combine, combine, combine, ih ys _ (Nat.succ.inj h), hbit]
    ac_rfl

/-- **The product bit after bit.** -/
theorem product_eq (xs : List Bool) (v : BitVec w) : product R xs v = combine R xs v := by
  have key (z : BitVec w) : (xs.foldl (fun (z, v) x => (if x then z ^^^ v else z, step R v))
      (z, v)).1 = z ^^^ combine R xs v := by
    induction xs generalizing z v with
    | nil => exact BitVec.xor_zero.symm
    | cons x xs ih =>
      rw [List.foldl_cons, combine]
      rw [ih]
      cases x
      · rw [if_neg Bool.false_ne_true, if_neg Bool.false_ne_true, zero_xor]
      · rw [if_pos rfl, if_pos rfl, BitVec.xor_assoc]
  rw [product, key 0, zero_xor]

end ShiftXor
