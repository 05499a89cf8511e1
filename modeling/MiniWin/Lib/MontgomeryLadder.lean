import MiniWin.Lib.Limbs
import Mathlib.AlgebraicGeometry.EllipticCurve.Affine.Point
import Mathlib.FieldTheory.IsAlgClosed.AlgebraicClosure
import Mathlib.Tactic.FieldSimp
import Mathlib.Tactic.LinearCombination

/-!
# The Montgomery ladder

On the curve `y² = x³ + A x² + x` the first coordinates of `Q + Q`, and of `Q + R` where `R - Q` is
known, are found from the first coordinates alone. `Has A X Z Q` says that the fraction `X / Z` is
the first coordinate of `Q`, with `X / 0` for the point at infinity; `Has.double` and `Has.add` are
the two formulas, which hold whatever the points are as long as the difference is not `0` or
infinity.

A ladder keeps `n • P` and `(n + 1) • P`, and a bit more of the scalar doubles the one and adds the
two (`Has.rung`). The whole ladder finds the first coordinate of the multiple (`ladder_first`). Which
field the point itself is over does not matter, so that the ladder is defined over every field, and
two multiples can be taken in any order (`ladder_comm`).
-/

open WeierstrassCurve.Affine
open Limbs (countdown countdown_inv)

namespace MontgomeryLadder

variable {F : Type*} [Field F] {A : F}

/-- `y² = x³ + A x² + x`. -/
def curve (A : F) : WeierstrassCurve.Affine F where
  a₁ := 0
  a₂ := A
  a₃ := 0
  a₄ := 1
  a₆ := 0

/-- The first coordinate as a fraction. -/
def Has (X Z : F) : (curve A).Point → Prop
  | 0 => Z = 0 ∧ X ≠ 0
  | .some x _ _ => Z ≠ 0 ∧ X = x * Z

/-- The sum of a point with itself. -/
def double (a24 X Z : F) : F × F :=
  let AA := (X + Z) * (X + Z)
  let BB := (X - Z) * (X - Z)
  let E := AA - BB
  (AA * BB, E * (AA + a24 * E))

/-- The sum of two points with a known difference. -/
def add (x1 X2 Z2 X3 Z3 : F) : F × F :=
  let DA := (X3 - Z3) * (X2 + Z2)
  let CB := (X3 + Z3) * (X2 - Z2)
  ((DA + CB) * (DA + CB), x1 * ((DA - CB) * (DA - CB)))

theorem equation {x y : F} (h : (curve A).Nonsingular x y) : y ^ 2 = x ^ 3 + A * x ^ 2 + x := by
  have := ((curve A).equation_iff x y).mp h.1
  simpa [curve] using this

@[simp] theorem negY_eq (x y : F) : (curve A).negY x y = -y := by
  simp [negY, curve]

theorem addX_eq (x₁ x₂ ℓ : F) : (curve A).addX x₁ x₂ ℓ = ℓ ^ 2 - A - x₁ - x₂ := by
  simp [addX, curve]

/-- What a curve and a constant of its ladder have to be. -/
structure Good (A a24 : F) : Prop where
  two : (2 : F) ≠ 0
  sq : A ^ 2 ≠ 4
  a24 : 4 * a24 = A - 2

variable {a24 X Z X2 Z2 X3 Z3 x1 : F} {P Q R : (curve A).Point}

theorem has_zero : Has X Z (0 : (curve A).Point) ↔ Z = 0 ∧ X ≠ 0 := Iff.rfl

theorem has_some {x y : F} {h : (curve A).Nonsingular x y} :
    Has X Z (.some x y h) ↔ Z ≠ 0 ∧ X = x * Z := Iff.rfl

/-- What is equal to its negative has the second coordinate zero. -/
theorem eq_negY_iff (hA : Good A a24) {x y : F} : y = (curve A).negY x y ↔ y = 0 := by
  rw [negY_eq]
  constructor
  · intro h
    have : 2 * y = 0 := by linear_combination h
    exact (mul_eq_zero.mp this).resolve_left hA.two
  · rintro rfl
    exact neg_zero.symm

/-- The first coordinates of a point without its double at infinity are not `1` and `-1`. -/
theorem sq_ne_one (hA : Good A a24) {x y : F} (heq : y ^ 2 = x ^ 3 + A * x ^ 2 + x) (hy : y = 0) :
    x ^ 2 - 1 ≠ 0 := by
  intro hx
  rw [hy] at heq
  have hfactor : x * (A * x + 2) = 0 := by linear_combination -heq - x * hx
  rcases mul_eq_zero.mp hfactor with h | h
  · rw [h] at hx
    exact one_ne_zero (by linear_combination -hx : (1 : F) = 0)
  · exact hA.sq (by linear_combination (A * x - 2) * h - A ^ 2 * hx)

variable [DecidableEq F]

/-- The double of a point that is not at infinity. -/
theorem double_x (hA : Good A a24) {x y : F} {h : (curve A).Nonsingular x y} (hy : y ≠ 0) :
    ∃ x' y' h', (.some x y h : (curve A).Point) + .some x y h = .some x' y' h'
      ∧ x' * (4 * y ^ 2) = (x ^ 2 - 1) ^ 2 := by
  have hne : y ≠ (curve A).negY x y := mt (eq_negY_iff hA).mp hy
  have hslope : (curve A).slope x x y y = (3 * x ^ 2 + 2 * A * x + 1) / (2 * y) := by
    rw [slope_of_Y_ne rfl hne, negY_eq]
    simp only [curve]
    ring_nf
  refine ⟨_, _, _, Point.add_self_of_Y_ne hne, ?_⟩
  have h2 := hA.two
  rw [addX_eq, hslope]
  field_simp
  linear_combination (-16 * (A + 2 * x)) * equation h

/-- **Doubling.** -/
theorem Has.double (hA : Good A a24) (h : Has X Z Q) :
    Has (double a24 X Z).1 (double a24 X Z).2 (Q + Q) := by
  have hX : (MontgomeryLadder.double a24 X Z).1 = (X ^ 2 - Z ^ 2) ^ 2 := by
    unfold MontgomeryLadder.double
    ring
  have hZ : (MontgomeryLadder.double a24 X Z).2
      = 4 * (X * Z) * (X ^ 2 + A * (X * Z) + Z ^ 2) := by
    unfold MontgomeryLadder.double
    linear_combination 4 * (X * Z) ^ 2 * hA.a24
  rw [hX, hZ]
  cases Q with
  | zero =>
    obtain ⟨rfl, hx⟩ := h
    refine ⟨by ring, ?_⟩
    rw [show (X ^ 2 - 0 ^ 2) ^ 2 = X ^ 4 by ring]
    exact pow_ne_zero 4 hx
  | some x y hxy =>
    obtain ⟨hz, rfl⟩ := h
    have heq := equation hxy
    by_cases hy : y = 0
    · rw [Point.add_self_of_Y_eq ((eq_negY_iff hA).mpr hy), has_zero]
      constructor
      · rw [hy] at heq
        linear_combination -4 * Z ^ 4 * heq
      · rw [show ((x * Z) ^ 2 - Z ^ 2) ^ 2 = Z ^ 4 * (x ^ 2 - 1) ^ 2 by ring]
        exact mul_ne_zero (pow_ne_zero 4 hz) (pow_ne_zero 2 (sq_ne_one hA heq hy))
    · obtain ⟨x', y', h', hsum, hx'⟩ := double_x hA (h := hxy) hy
      rw [hsum, has_some]
      have hzy : 4 * (x * Z * Z) * ((x * Z) ^ 2 + A * (x * Z * Z) + Z ^ 2)
          = 4 * y ^ 2 * Z ^ 4 := by
        linear_combination -4 * Z ^ 4 * heq
      rw [hzy]
      constructor
      · have h4 : (4 : F) ≠ 0 := by
          rw [show (4 : F) = 2 ^ 2 by norm_num]
          exact pow_ne_zero 2 hA.two
        exact mul_ne_zero (mul_ne_zero h4 (pow_ne_zero 2 hy)) (pow_ne_zero 4 hz)
      · linear_combination -Z ^ 4 * hx'

/-- The sum and the difference of two points with different first coordinates. -/
theorem add_sub_x {x₂ y₂ x₃ y₃ : F} (h₂ : (curve A).Nonsingular x₂ y₂)
    (h₃ : (curve A).Nonsingular x₃ y₃) (hne : x₂ ≠ x₃) :
    ∃ x y h x' y' h', (.some x₂ y₂ h₂ : (curve A).Point) + .some x₃ y₃ h₃ = .some x y h
      ∧ (.some x₃ y₃ h₃ : (curve A).Point) - .some x₂ y₂ h₂ = .some x' y' h'
      ∧ x * x' * (x₂ - x₃) ^ 2 = (x₂ * x₃ - 1) ^ 2 := by
  have hsub : (.some x₃ y₃ h₃ : (curve A).Point) - .some x₂ y₂ h₂
      = .some x₃ y₃ h₃ + .some x₂ _ (((curve A).nonsingular_neg x₂ y₂).mpr h₂) := by
    rw [sub_eq_add_neg, Point.neg_some]
  refine ⟨_, _, _, _, _, _, Point.add_of_X_ne hne, hsub.trans (Point.add_of_X_ne hne.symm), ?_⟩
  have hd : x₂ - x₃ ≠ 0 := sub_ne_zero.mpr hne
  have hd' : x₃ - x₂ ≠ 0 := sub_ne_zero.mpr hne.symm
  have e2 := equation h₂
  have e3 := equation h₃
  rw [addX_eq, addX_eq, slope_of_X_ne hne, slope_of_X_ne hne.symm, negY_eq]
  have hsum : (((y₂ - y₃) / (x₂ - x₃)) ^ 2 - A - x₂ - x₃) * (x₂ - x₃) ^ 2
      = (x₂ + x₃) * (1 + x₂ * x₃) + 2 * A * x₂ * x₃ - 2 * y₂ * y₃ := by
    field_simp
    linear_combination e2 + e3
  have hdiff : (((y₃ - -y₂) / (x₃ - x₂)) ^ 2 - A - x₃ - x₂) * (x₂ - x₃) ^ 2
      = (x₂ + x₃) * (1 + x₂ * x₃) + 2 * A * x₂ * x₃ + 2 * y₂ * y₃ := by
    rw [show (x₂ - x₃) ^ 2 = (x₃ - x₂) ^ 2 by ring]
    field_simp
    linear_combination e2 + e3
  refine mul_right_cancel₀ (pow_ne_zero 2 hd) ?_
  linear_combination (((y₃ - -y₂) / (x₃ - x₂)) ^ 2 - A - x₃ - x₂) * (x₂ - x₃) ^ 2 * hsum
    + ((x₂ + x₃) * (1 + x₂ * x₃) + 2 * A * x₂ * x₃ - 2 * y₂ * y₃) * hdiff
    - 4 * y₃ ^ 2 * e2 - 4 * (x₂ ^ 3 + A * x₂ ^ 2 + x₂) * e3

/-- **Adding**, where the difference is known. -/
theorem Has.add (hA : Good A a24) (hQ : Has X2 Z2 Q) (hR : Has X3 Z3 R) (hP : Has x1 1 P)
    (hx1 : x1 ≠ 0) (hdiff : R - Q = P) :
    Has (add x1 X2 Z2 X3 Z3).1 (add x1 X2 Z2 X3 Z3).2 (Q + R) := by
  have hX : (MontgomeryLadder.add x1 X2 Z2 X3 Z3).1 = 4 * (X2 * X3 - Z2 * Z3) ^ 2 := by
    unfold MontgomeryLadder.add
    ring
  have hZ : (MontgomeryLadder.add x1 X2 Z2 X3 Z3).2 = 4 * x1 * (X2 * Z3 - X3 * Z2) ^ 2 := by
    unfold MontgomeryLadder.add
    ring
  have h4 : (4 : F) ≠ 0 := by
    rw [show (4 : F) = 2 ^ 2 by norm_num]
    exact pow_ne_zero 2 hA.two
  rw [hX, hZ]
  cases Q with
  | zero =>
    -- `R` is the difference
    obtain ⟨rfl, hx2⟩ := hQ
    obtain rfl : R = P := by
      rw [← hdiff]
      exact (sub_zero R).symm
    cases R with
    | zero => exact absurd hP.1 one_ne_zero
    | some x₃ y₃ h₃ =>
      obtain ⟨hz3, rfl⟩ := hR
      obtain rfl : x1 = x₃ := hP.2.trans (mul_one x₃)
      rw [← Point.zero_def, zero_add, has_some]
      refine ⟨?_, by ring⟩
      rw [show 4 * x1 * (X2 * Z3 - x1 * Z3 * 0) ^ 2 = 4 * x1 * (X2 * Z3) ^ 2 by ring]
      exact mul_ne_zero (mul_ne_zero h4 hx1) (pow_ne_zero 2 (mul_ne_zero hx2 hz3))
  | some x₂ y₂ h₂ =>
    obtain ⟨hz2, rfl⟩ := hQ
    cases R with
    | zero =>
      -- `Q` is the difference with the other sign
      obtain ⟨rfl, hx3⟩ := hR
      rw [← Point.zero_def, zero_sub, Point.neg_some] at hdiff
      rw [← hdiff] at hP
      obtain rfl : x1 = x₂ := hP.2.trans (mul_one x₂)
      rw [← Point.zero_def, add_zero, has_some]
      refine ⟨?_, by ring⟩
      rw [show 4 * x1 * (x1 * Z2 * 0 - X3 * Z2) ^ 2 = 4 * x1 * (X3 * Z2) ^ 2 by ring]
      exact mul_ne_zero (mul_ne_zero h4 hx1) (pow_ne_zero 2 (mul_ne_zero hx3 hz2))
    | some x₃ y₃ h₃ =>
      obtain ⟨hz3, rfl⟩ := hR
      by_cases hne : x₂ = x₃
      · -- the points are opposite, and the difference is a double
        subst hne
        have hor : (.some x₂ y₃ h₃ : (curve A).Point) = .some x₂ y₂ h₂
          ∨ (.some x₂ y₃ h₃ : (curve A).Point) = -.some x₂ y₂ h₂ := Point.X_eq_iff.mp rfl
        rcases hor with h | h
        · rw [h, sub_self] at hdiff
          rw [← hdiff] at hP
          exact absurd hP.1 one_ne_zero
        · rw [h, ← neg_add'] at hdiff
          rw [h, add_neg_cancel, has_zero]
          refine ⟨by ring, ?_⟩
          by_cases hy : y₂ = 0
          · rw [Point.add_self_of_Y_eq ((eq_negY_iff hA).mpr hy), neg_zero] at hdiff
            rw [← hdiff] at hP
            exact absurd hP.1 one_ne_zero
          · obtain ⟨x', y', h', hdouble, hx'⟩ := double_x hA (h := h₂) hy
            rw [hdouble, Point.neg_some] at hdiff
            rw [← hdiff] at hP
            obtain rfl : x1 = x' := hP.2.trans (mul_one x')
            have hsq : (x₂ ^ 2 - 1) ^ 2 ≠ 0 := by
              rw [← hx']
              exact mul_ne_zero hx1 (mul_ne_zero h4 (pow_ne_zero 2 hy))
            rw [show 4 * (x₂ * Z2 * (x₂ * Z3) - Z2 * Z3) ^ 2
              = 4 * (x₂ ^ 2 - 1) ^ 2 * (Z2 * Z3) ^ 2 by ring]
            exact mul_ne_zero (mul_ne_zero h4 hsq) (pow_ne_zero 2 (mul_ne_zero hz2 hz3))
      · obtain ⟨x, y, h, x', y', h', hsum, hsub, hprod⟩ := add_sub_x h₂ h₃ hne
        rw [hsub] at hdiff
        rw [← hdiff] at hP
        obtain rfl : x1 = x' := hP.2.trans (mul_one x')
        rw [hsum, has_some]
        constructor
        · rw [show 4 * x1 * (x₂ * Z2 * Z3 - x₃ * Z3 * Z2) ^ 2
            = 4 * x1 * ((x₂ - x₃) * (Z2 * Z3)) ^ 2 by ring]
          exact mul_ne_zero (mul_ne_zero h4 hx1)
            (pow_ne_zero 2 (mul_ne_zero (sub_ne_zero.mpr hne) (mul_ne_zero hz2 hz3)))
        · linear_combination -4 * (Z2 * Z3) ^ 2 * hprod

/-- **A rung of the ladder**: a bit more of the scalar, `n` being the bits in front of it. The two
points are there in the order that the bit asks for. -/
theorem Has.rung (hA : Good A a24) (hP : Has x1 1 P) (hx1 : x1 ≠ 0) {n : Nat} (b : Bool)
    (h2 : Has X2 Z2 ((n + b.toNat) • P)) (h3 : Has X3 Z3 ((n + (!b).toNat) • P)) :
    Has (MontgomeryLadder.double a24 X2 Z2).1 (MontgomeryLadder.double a24 X2 Z2).2
        ((2 * n + b.toNat + b.toNat) • P)
      ∧ Has (MontgomeryLadder.add x1 X2 Z2 X3 Z3).1 (MontgomeryLadder.add x1 X2 Z2 X3 Z3).2
        ((2 * n + 1) • P) := by
  constructor
  · have hsum : (2 * n + b.toNat + b.toNat) • P = (n + b.toNat) • P + (n + b.toNat) • P := by
      rw [← add_smul]
      congr 1
      omega
    rw [hsum]
    exact h2.double hA
  · have hsum : (2 * n + 1) • P = (n + b.toNat) • P + (n + (!b).toNat) • P := by
      rw [← add_smul]
      congr 1
      cases b <;> simp only [Bool.toNat_true, Bool.toNat_false, Bool.not_true, Bool.not_false]
        <;> omega
    rw [hsum]
    cases b with
    | false =>
      refine h2.add hA h3 hP hx1 ?_
      simp only [Bool.toNat_false, Bool.not_false, Bool.toNat_true, add_smul, one_smul, zero_smul]
      abel
    | true =>
      -- the difference has the other sign, and the same first coordinate
      refine h2.add hA h3 (P := -P) ?_ hx1 ?_
      · cases P with
        | zero => exact absurd hP.1 one_ne_zero
        | some x y h =>
          rw [Point.neg_some]
          exact hP
      · simp only [Bool.toNat_false, Bool.not_true, Bool.toNat_true, add_smul, one_smul, zero_smul]
        abel

/-! ## The ladder -/

section
omit [DecidableEq F]

/-- What the ladder keeps: two fractions, and whether they are the other way round. -/
structure Rails (F : Type*) where
  x2 : F
  z2 : F
  x3 : F
  z3 : F
  swap : Bool

/-- The fractions change places. -/
def Rails.cswap (s : Rails F) (b : Bool) : Rails F :=
  if b then { s with x2 := s.x3, z2 := s.z3, x3 := s.x2, z3 := s.z2 } else s

/-- A rung, of this bit. The change of places is put off to the next one. -/
def Rails.step (a24 x1 : F) (bit : Bool) (s : Rails F) : Rails F :=
  let s := s.cswap (s.swap ^^ bit)
  let d := double a24 s.x2 s.z2
  let a := add x1 s.x2 s.z2 s.x3 s.z3
  ⟨d.1, d.2, a.1, a.2, bit⟩

/-- What the ladder begins with. -/
def Rails.start (x1 : F) : Rails F := ⟨1, 0, x1, 1, false⟩

/-- The ladder, on the `k` bits of `n` from the top. -/
def ladder (a24 x1 : F) (k n : Nat) : F × F :=
  let s := countdown (fun t => Rails.step a24 x1 (n.testBit t)) k (Rails.start x1)
  let s := s.cswap s.swap
  (s.x2, s.z2)

/-- The number that the fraction is. -/
def quotient (a24 x1 : F) (k n : Nat) : F := (ladder a24 x1 k n).1 / (ladder a24 x1 k n).2

/-- The first coordinate of a point. -/
def first : (curve A).Point → F
  | 0 => 0
  | .some x _ _ => x

theorem Has.first {P : (curve A).Point} (h : Has X Z P) : X / Z = first P := by
  cases P with
  | zero =>
    obtain ⟨rfl, -⟩ := h
    exact div_zero X
  | some x y hxy =>
    obtain ⟨hz, rfl⟩ := h
    exact mul_div_cancel_right₀ x hz

end

/-- The fractions are `n • P` and `(n + 1) • P`, or the other way round. -/
def Rails.Keeps (s : Rails F) (P : (curve A).Point) (n : Nat) : Prop :=
  Has s.x2 s.z2 ((n + s.swap.toNat) • P) ∧ Has s.x3 s.z3 ((n + (!s.swap).toNat) • P)

/-- They are put in the order that a bit asks for. -/
theorem Rails.Keeps.cswap {s : Rails F} {n : Nat} (h : s.Keeps P n) (bit : Bool) :
    Has (s.cswap (s.swap ^^ bit)).x2 (s.cswap (s.swap ^^ bit)).z2 ((n + bit.toNat) • P)
      ∧ Has (s.cswap (s.swap ^^ bit)).x3 (s.cswap (s.swap ^^ bit)).z3 ((n + (!bit).toNat) • P) := by
  obtain ⟨x2, z2, x3, z3, swap⟩ := s
  obtain ⟨h2, h3⟩ := h
  cases swap <;> cases bit
  · exact ⟨h2, h3⟩
  · exact ⟨h3, h2⟩
  · exact ⟨h3, h2⟩
  · exact ⟨h2, h3⟩

theorem Rails.Keeps.step (hA : Good A a24) {s : Rails F} {n : Nat} (hP : Has x1 1 P) (hx1 : x1 ≠ 0)
    (h : s.Keeps P n) (bit : Bool) : (s.step a24 x1 bit).Keeps P (2 * n + bit.toNat) := by
  obtain ⟨h2, h3⟩ := h.cswap bit
  obtain ⟨hdouble, hadd⟩ := Has.rung hA hP hx1 bit h2 h3
  refine ⟨hdouble, ?_⟩
  have hsum : 2 * n + bit.toNat + (!bit).toNat = 2 * n + 1 := by
    cases bit <;> rfl
  show Has _ _ ((2 * n + bit.toNat + (!bit).toNat) • P)
  rw [hsum]
  exact hadd

/-- **What the ladder is up to**: the bits of `n` that it has read. -/
theorem ladder_keeps (hA : Good A a24) (hP : Has x1 1 P) (hx1 : x1 ≠ 0) {k n : Nat}
    (hn : n < 2 ^ k) : Has (ladder a24 x1 k n).1 (ladder a24 x1 k n).2 (n • P) := by
  have hend := countdown_inv (f := fun t => Rails.step a24 x1 (n.testBit t)) (n := k)
    (a := Rails.start x1) (fun t s => s.Keeps P (n / 2 ^ t)) (fun t s _ hs => ?_) ?_
  · rw [Nat.pow_zero, Nat.div_one] at hend
    have hlast := (hend.cswap false).1
    rw [Bool.xor_false, Bool.toNat_false, Nat.add_zero] at hlast
    exact hlast
  · have hbits : n / 2 ^ t = 2 * (n / 2 ^ (t + 1)) + (n.testBit t).toNat := by
      rw [Nat.toNat_testBit, Nat.pow_succ, ← Nat.div_div_eq_div_mul, Nat.div_add_mod]
    rw [hbits]
    exact hs.step hA hP hx1 _
  · rw [Nat.div_eq_of_lt hn]
    constructor
    · have hzero : (0 + 0) • P = 0 := zero_smul ℕ P
      show Has 1 0 ((0 + 0) • P)
      rw [hzero]
      exact ⟨rfl, one_ne_zero⟩
    · have hone : (0 + 1) • P = P := one_smul ℕ P
      show Has x1 1 ((0 + 1) • P)
      rw [hone]
      exact hP

section
omit [DecidableEq F]

/-- Each of the fractions is nothing above something, or something above nothing. -/
def Rails.Flat (s : Rails F) : Prop := s.x2 * s.z2 = 0 ∧ s.x3 * s.z3 = 0

theorem Rails.Flat.cswap {s : Rails F} (h : s.Flat) (b : Bool) : (s.cswap b).Flat := by
  cases b with
  | false => exact h
  | true => exact ⟨h.2, h.1⟩

theorem Rails.Flat.step {s : Rails F} (h : s.Flat) (a24 : F) (bit : Bool) :
    (s.step a24 0 bit).Flat := by
  obtain ⟨u, hu⟩ : ∃ u, s.cswap (s.swap ^^ bit) = u := ⟨_, rfl⟩
  have h2 : u.x2 * u.z2 = 0 := (hu ▸ h.cswap _ : u.Flat).1
  unfold Rails.step
  rw [hu]
  constructor
  · show (double a24 u.x2 u.z2).1 * (double a24 u.x2 u.z2).2 = 0
    unfold double
    linear_combination (u.x2 + u.z2) ^ 2 * (u.x2 - u.z2) ^ 2 * 4
      * ((u.x2 + u.z2) * (u.x2 + u.z2) + a24 * ((u.x2 + u.z2) * (u.x2 + u.z2)
        - (u.x2 - u.z2) * (u.x2 - u.z2))) * h2
  · show (add 0 u.x2 u.z2 u.x3 u.z3).1 * (add 0 u.x2 u.z2 u.x3 u.z3).2 = 0
    unfold add
    dsimp only
    rw [zero_mul, mul_zero]

/-- From the coordinate zero the ladder does not get away. -/
theorem quotient_zero (a24 : F) (k n : Nat) : quotient a24 0 k n = 0 := by
  have hend := countdown_inv (f := fun t => Rails.step a24 0 (n.testBit t)) (n := k)
    (a := Rails.start 0) (fun _ s => s.Flat) (fun _ _ _ hs => hs.step a24 _)
    ⟨mul_zero 1, zero_mul 1⟩
  rw [quotient, div_eq_zero_iff]
  exact mul_eq_zero.mp (hend.cswap _).1

end

/-- A point with the first coordinate zero is its own negative. -/
theorem add_self_of_first (hA : Good A a24) (hP : first P = 0) : P + P = 0 := by
  cases P with
  | zero => exact add_zero 0
  | some x y h =>
    obtain rfl : x = 0 := hP
    have hy : y = 0 := by
      have heq := equation h
      rw [zero_pow two_ne_zero, zero_pow three_ne_zero, mul_zero, add_zero, add_zero] at heq
      exact pow_eq_zero_iff two_ne_zero |>.mp heq
    exact Point.add_self_of_Y_eq ((eq_negY_iff hA).mpr hy)

theorem first_even (hA : Good A a24) {n : Nat} (hn : Even n) (hP : first P = 0) :
    first (n • P) = 0 := by
  obtain ⟨m, rfl⟩ := hn
  rw [← two_mul, mul_comm, mul_smul, two_smul, add_self_of_first hA hP, smul_zero]
  rfl

/-- **The ladder finds the first coordinate of the multiple.** -/
theorem ladder_first (hA : Good A a24) {k n : Nat} (hn : n < 2 ^ k) (heven : Even n)
    (P : (curve A).Point) : quotient a24 (first P) k n = first (n • P) := by
  by_cases hx1 : first P = 0
  · rw [hx1, quotient_zero, first_even hA heven hx1]
  · refine (ladder_keeps hA ?_ hx1 hn).first
    cases P with
    | zero => exact absurd rfl hx1
    | some x y h => exact ⟨one_ne_zero, (mul_one x).symm⟩

/-! ## The field of the point -/

section
variable {K : Type*} [Field K] (φ : F →+* K)

omit [DecidableEq F]

/-- What the ladder keeps, in another field. -/
def Rails.map (s : Rails F) : Rails K := ⟨φ s.x2, φ s.z2, φ s.x3, φ s.z3, s.swap⟩

theorem Rails.map_cswap (s : Rails F) (b : Bool) : (s.cswap b).map φ = (s.map φ).cswap b := by
  cases b <;> rfl

theorem Rails.map_step (a24 x1 : F) (bit : Bool) (s : Rails F) :
    (s.step a24 x1 bit).map φ = (s.map φ).step (φ a24) (φ x1) bit := by
  unfold Rails.step
  rw [show (s.map φ).swap = s.swap from rfl, ← Rails.map_cswap]
  obtain ⟨x2, z2, x3, z3, swap⟩ := s.cswap (s.swap ^^ bit)
  simp only [Rails.map, double, add, map_mul, map_add, map_sub]

theorem map_quotient (a24 x1 : F) (k n : Nat) :
    φ (quotient a24 x1 k n) = quotient (φ a24) (φ x1) k n := by
  have hstart : (Rails.start x1).map φ = Rails.start (φ x1) := by
    simp only [Rails.map, Rails.start, map_one, map_zero]
  have hrun (k : Nat) (s : Rails F) :
      (countdown (fun t => Rails.step a24 x1 (n.testBit t)) k s).map φ
        = countdown (fun t => Rails.step (φ a24) (φ x1) (n.testBit t)) k (s.map φ) := by
    induction k generalizing s with
    | zero => rfl
    | succ k ih =>
      rw [countdown, ih, Rails.map_step]
      rfl
  unfold quotient ladder
  dsimp only
  rw [← hstart, ← hrun, map_div₀]
  rw [show ∀ s : Rails F, (s.map φ).swap = s.swap from fun _ => rfl, ← Rails.map_cswap]
  rfl

theorem Good.map (hA : Good A a24) : Good (φ A) (φ a24) where
  two := by
    rw [← map_ofNat φ 2]
    exact (map_ne_zero φ).mpr hA.two
  sq h := hA.sq (φ.injective (by rw [map_pow, h, map_ofNat]))
  a24 := by
    rw [← map_ofNat φ 4, ← map_ofNat φ 2, ← map_mul, ← map_sub, hA.a24]

/-- With enough square roots, everything is the first coordinate of a point. -/
theorem exists_first [IsAlgClosed F] (hA : Good A a24) (x : F) :
    ∃ P : (curve A).Point, first P = x := by
  obtain ⟨y, hy⟩ := IsAlgClosed.exists_pow_nat_eq (x ^ 3 + A * x ^ 2 + x) two_pos
  have heq : (curve A).Equation x y := by
    rw [equation_iff]
    simp only [curve]
    linear_combination hy
  have hdisc : (curve A).Δ ≠ 0 := by
    have h16 : (16 : F) ≠ 0 := by
      rw [show (16 : F) = 2 ^ 4 by norm_num]
      exact pow_ne_zero 4 hA.two
    have hval : (curve A).Δ = 16 * (A ^ 2 - 4) := by
      simp only [curve, WeierstrassCurve.Δ, WeierstrassCurve.b₂, WeierstrassCurve.b₄,
        WeierstrassCurve.b₆, WeierstrassCurve.b₈]
      ring
    rw [hval]
    exact mul_ne_zero h16 (sub_ne_zero.mpr hA.sq)
  exact ⟨.some x y ((equation_iff_nonsingular_of_Δ_ne_zero hdisc).mp heq), rfl⟩

/-- **Two multiples are taken in any order.** -/
theorem quotient_comm (hA : Good A a24) {k m n : Nat} (hm : m < 2 ^ k) (hn : n < 2 ^ k)
    (hm2 : Even m) (hn2 : Even n) (x : F) :
    quotient a24 (quotient a24 x k n) k m = quotient a24 (quotient a24 x k m) k n := by
  classical
  let φ := algebraMap F (AlgebraicClosure F)
  refine φ.injective ?_
  obtain ⟨P, hP⟩ := exists_first (hA.map φ) (φ x)
  rw [map_quotient, map_quotient, map_quotient, map_quotient, ← hP,
    ladder_first (hA.map φ) hn hn2, ladder_first (hA.map φ) hm hm2,
    ladder_first (hA.map φ) hm hm2, ladder_first (hA.map φ) hn hn2, smul_comm]

end

end MontgomeryLadder
