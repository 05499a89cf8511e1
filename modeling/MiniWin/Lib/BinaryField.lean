import Mathlib.Algebra.CharP.Two
import Mathlib.Algebra.Field.ZMod
import Mathlib.Algebra.Polynomial.OfFn
import Mathlib.RingTheory.AdjoinRoot

/-!
# Bits as polynomials

A row of `w` bits is a polynomial over the field of two elements, `poly`, the bit at `i` being the
coefficient of `X ^ i`. Modulo a polynomial `X ^ w + R` different rows have different classes, `elem`
(`elem_injective`): exclusive or is the sum there, one place to the left the product with the root
(`elem_double`), and `mul`, which doubles and adds, the product (`elem_mul`).
-/

namespace BinaryField

open Polynomial

variable {w : ℕ}

/-- The polynomial of a row of bits. -/
noncomputable def poly (v : BitVec w) : (ZMod 2)[X] :=
  ofFn w fun i => if v.getLsbD i then 1 else 0

/-- `X ^ w + R`. -/
noncomputable def modulus (R : BitVec w) : (ZMod 2)[X] := X ^ w + poly R

/-- The polynomials modulo `X ^ w + R`. -/
abbrev Classes (R : BitVec w) : Type := AdjoinRoot (modulus R)

/-- The class of a row of bits. -/
noncomputable def elem (R v : BitVec w) : Classes R := AdjoinRoot.mk (modulus R) (poly v)

/-- One place to the left, and the bit that falls out comes back as `R`. -/
def double (R v : BitVec w) : BitVec w := if v.msb then (v <<< 1) ^^^ R else v <<< 1

/-- One bit of the product: the sum so far, the first factor doubled, the rest of the second. -/
def mulStep (R : BitVec w) : BitVec w × BitVec w × BitVec w → BitVec w × BitVec w × BitVec w
  | (r, a, b) => (if b.getLsbD 0 then r ^^^ a else r, double R a, b >>> 1)

/-- The product, bit after bit. -/
def mul (R a b : BitVec w) : BitVec w := ((mulStep R)^[w] (0, a, b)).1

/-! ## Polynomials -/

theorem coeff_poly (v : BitVec w) (i : ℕ) :
    (poly v).coeff i = if v.getLsbD i then 1 else 0 := by
  unfold poly
  by_cases hi : i < w
  · rw [ofFn_coeff_eq_val_of_lt _ hi]
  · rw [ofFn_coeff_eq_zero_of_ge _ (Nat.le_of_not_lt hi),
      BitVec.getLsbD_of_ge v i (Nat.le_of_not_lt hi), if_neg Bool.false_ne_true]

theorem degree_poly_lt (v : BitVec w) : (poly v).degree < w := ofFn_degree_lt _

@[simp] theorem poly_zero : poly (0 : BitVec w) = 0 := by
  ext i
  rw [coeff_poly, coeff_zero]
  exact if_neg (by simp)

theorem poly_injective : Function.Injective (poly (w := w)) := fun u v h => by
  refine BitVec.eq_of_getLsbD_eq fun i _ => ?_
  have hi : (poly u).coeff i = (poly v).coeff i := by rw [h]
  rw [coeff_poly, coeff_poly] at hi
  cases hu : u.getLsbD i <;> cases hv : v.getLsbD i <;> simp [hu, hv] at hi ⊢

/-- **Exclusive or is the sum.** -/
theorem poly_xor (u v : BitVec w) : poly (u ^^^ v) = poly u + poly v := by
  ext i
  rw [coeff_add, coeff_poly, coeff_poly, coeff_poly, BitVec.getLsbD_xor]
  cases u.getLsbD i <;> cases v.getLsbD i <;> simp
  exact (CharTwo.add_self_eq_zero (1 : ZMod 2)).symm

/-- The lowest bit, and the others. -/
theorem poly_shiftRight (v : BitVec w) :
    poly v = (if v.getLsbD 0 then (1 : (ZMod 2)[X]) else 0) + X * poly (v >>> 1) := by
  ext i
  cases i with
  | zero => cases h : v.getLsbD 0 <;> simp [coeff_poly, h]
  | succ i =>
    have hone : (if v.getLsbD 0 then 1 else 0 : (ZMod 2)[X]).coeff (i + 1) = 0 := by
      cases v.getLsbD 0 <;> simp [coeff_one]
    rw [coeff_add, hone, coeff_X_mul, coeff_poly, coeff_poly, BitVec.getLsbD_ushiftRight, zero_add,
      Nat.add_comm 1 i]

/-- One place to the left: the highest bit falls out. -/
theorem poly_shiftLeft (v : BitVec w) :
    poly (v <<< 1) + (if v.msb then (X ^ w : (ZMod 2)[X]) else 0) = X * poly v := by
  ext i
  rw [coeff_add, coeff_poly, BitVec.getLsbD_shiftLeft]
  cases i with
  | zero =>
    have hw : v.msb = true → w ≠ 0 := by
      rintro h rfl
      simp [BitVec.msb_eq_getLsbD_last] at h
    cases h : v.msb <;> simp [coeff_X_pow]
    exact fun h0 => hw h h0.symm
  | succ i =>
    rw [coeff_X_mul, coeff_poly, Nat.add_sub_cancel]
    rcases Nat.lt_trichotomy (i + 1) w with hlt | heq | hgt
    · have hne : (if v.msb then X ^ w else 0 : (ZMod 2)[X]).coeff (i + 1) = 0 := by
        cases v.msb <;> simp [coeff_X_pow, hlt.ne]
      simp [hne, hlt]
    · subst heq
      cases h : v.msb <;> simp [BitVec.msb_eq_getLsbD_last] at h <;> simp [h]
    · have hne : (if v.msb then X ^ w else 0 : (ZMod 2)[X]).coeff (i + 1) = 0 := by
        cases v.msb <;> simp [coeff_X_pow, hgt.ne']
      rw [hne, BitVec.getLsbD_of_ge v i (Nat.le_of_lt_succ hgt)]
      simp

/-! ## Classes -/

section Classes

variable (R : BitVec w)

theorem degree_modulus : (modulus R).degree = w := by
  unfold modulus
  rw [degree_add_eq_left_of_degree_lt, degree_X_pow]
  rw [degree_X_pow]
  exact degree_poly_lt R

@[simp] theorem elem_zero : elem R 0 = 0 := by
  rw [elem, poly_zero, map_zero]

theorem elem_xor (u v : BitVec w) : elem R (u ^^^ v) = elem R u + elem R v := by
  rw [elem, poly_xor, map_add]
  rfl

/-- **One place to the left is the product with the root.** -/
theorem elem_double (v : BitVec w) :
    elem R (double R v) = AdjoinRoot.root (modulus R) * elem R v := by
  have hroot : AdjoinRoot.mk (modulus R) (X ^ w) = elem R R := by
    refine AdjoinRoot.mk_eq_mk.mpr (dvd_of_eq ?_)
    rw [CharTwo.sub_eq_add, modulus]
  have hshift := congrArg (AdjoinRoot.mk (modulus R)) (poly_shiftLeft v)
  rw [map_add, map_mul, AdjoinRoot.mk_X] at hshift
  refine Eq.trans ?_ hshift
  unfold double
  cases h : v.msb
  · simp [elem]
  · rw [if_pos rfl, if_pos rfl, elem_xor, hroot, elem]

/-- **Different rows are of different classes.** -/
theorem elem_injective : Function.Injective (elem R) := fun u v h => by
  have hdvd := AdjoinRoot.mk_eq_mk.mp h
  refine poly_injective (sub_eq_zero.mp (eq_zero_of_dvd_of_degree_lt hdvd ?_))
  rw [degree_modulus]
  exact (degree_sub_le _ _).trans_lt (max_lt (degree_poly_lt u) (degree_poly_lt v))

/-- What a step keeps: the sum so far with the product of what is left. -/
theorem elem_mulStep (r a b : BitVec w) :
    elem R (mulStep R (r, a, b)).1
        + elem R (mulStep R (r, a, b)).2.1 * elem R (mulStep R (r, a, b)).2.2
      = elem R r + elem R a * elem R b := by
  have hb : elem R b = (if b.getLsbD 0 then 1 else 0)
      + AdjoinRoot.root (modulus R) * elem R (b >>> 1) := by
    rw [elem, poly_shiftRight b, map_add, map_mul, AdjoinRoot.mk_X]
    cases b.getLsbD 0 <;> simp [elem]
  unfold mulStep
  dsimp only
  rw [elem_double, hb]
  cases b.getLsbD 0
  · simp only [Bool.false_eq_true, if_false]
    ring
  · simp only [if_true, elem_xor]
    ring

/-- After `n` bits the second factor is `n` places to the right. -/
theorem elem_iterate_mulStep (n : ℕ) (r a b : BitVec w) :
    ((mulStep R)^[n] (r, a, b)).2.2 = b >>> n ∧
      elem R ((mulStep R)^[n] (r, a, b)).1
          + elem R ((mulStep R)^[n] (r, a, b)).2.1 * elem R (b >>> n)
        = elem R r + elem R a * elem R b := by
  induction n with
  | zero => exact ⟨rfl, rfl⟩
  | succ n ih =>
    obtain ⟨hshift, hsum⟩ := ih
    rw [Function.iterate_succ_apply']
    have hstep := elem_mulStep R ((mulStep R)^[n] (r, a, b)).1 ((mulStep R)^[n] (r, a, b)).2.1
      ((mulStep R)^[n] (r, a, b)).2.2
    have hnext : (mulStep R ((mulStep R)^[n] (r, a, b))).2.2 = b >>> (n + 1) := by
      rw [BitVec.shiftRight_add, ← hshift]
      rfl
    rw [← hnext]
    exact ⟨rfl, hstep.trans ((congrArg (_ + _ * elem R ·) hshift).trans hsum)⟩

/-- **Doubling and adding gives the product.** -/
theorem elem_mul (a b : BitVec w) : elem R (mul R a b) = elem R a * elem R b := by
  obtain ⟨-, h⟩ := elem_iterate_mulStep R w 0 a b
  have hzero : b >>> w = 0 := BitVec.ushiftRight_eq_zero (Nat.le_refl w)
  rwa [hzero, elem_zero, mul_zero, add_zero, zero_add] at h

end Classes

end BinaryField
