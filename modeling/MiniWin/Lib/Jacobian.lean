import MiniWin.Lib.Limbs
import Mathlib.AlgebraicGeometry.EllipticCurve.Affine.Point
import Mathlib.Tactic.FieldSimp
import Mathlib.Tactic.LinearCombination

/-!
# Jacobian coordinates

On the curve `y² = x³ - 3 x + b` three numbers stand for a point: `x / z²` and `y / z³` are its
coordinates, and `z` is zero at infinity. Doubling and adding need no division then. Both look at
the points first, since the formulas do not hold for all of them; with the cases told apart they
hold for all points (`Has.double`, `Has.add`), and bit after bit they make any multiple
(`Has.mul`).
-/

open WeierstrassCurve.Affine
open Limbs (countdown countdown_inv)

namespace Jacobian

variable {F : Type*} [Field F] {b : F}

/-- `y² = x³ - 3 x + b`. -/
def curve (b : F) : WeierstrassCurve.Affine F where
  a₁ := 0
  a₂ := 0
  a₃ := 0
  a₄ := -3
  a₆ := b

/-- Three numbers for a point. -/
@[ext] structure Triple (F : Type*) where
  x : F
  y : F
  z : F

/-- The point that a triple is for. -/
def Has (t : Triple F) : (curve b).Point → Prop
  | 0 => t.z = 0
  | .some x y _ => t.z ≠ 0 ∧ t.x = x * t.z ^ 2 ∧ t.y = y * t.z ^ 3

/-- The point at infinity. -/
def Triple.inf : Triple F := ⟨0, 1, 0⟩

@[simp] theorem negY_eq (x y : F) : (curve b).negY x y = -y := by
  simp [negY, curve]

theorem addX_eq (x₁ x₂ ℓ : F) : (curve b).addX x₁ x₂ ℓ = ℓ ^ 2 - x₁ - x₂ := by
  simp [addX, curve]

theorem addY_eq (x₁ x₂ y₁ ℓ : F) :
    (curve b).addY x₁ x₂ y₁ ℓ = -(ℓ * ((curve b).addX x₁ x₂ ℓ - x₁) + y₁) := by
  simp [addY, negAddY, curve]

/-- What is equal to its negative has the second coordinate zero. -/
theorem eq_negY_iff (h2 : (2 : F) ≠ 0) {x y : F} : y = (curve b).negY x y ↔ y = 0 := by
  rw [negY_eq]
  constructor
  · intro h
    have hdouble : 2 * y = 0 := by linear_combination h
    exact (mul_eq_zero.mp hdouble).resolve_left h2
  · rintro rfl
    exact neg_zero.symm

theorem has_zero {t : Triple F} : Has t (0 : (curve b).Point) ↔ t.z = 0 := Iff.rfl

theorem has_some {t : Triple F} {x y : F} {h : (curve b).Nonsingular x y} :
    Has t (.some x y h) ↔ t.z ≠ 0 ∧ t.x = x * t.z ^ 2 ∧ t.y = y * t.z ^ 3 := Iff.rfl

theorem disc_ne_zero (h2 : (2 : F) ≠ 0) (hb : 27 * b ^ 2 ≠ 108) : (curve b).Δ ≠ 0 := by
  have hval : (curve b).Δ = 2 ^ 4 * (108 - 27 * b ^ 2) := by
    simp only [curve, WeierstrassCurve.Δ, WeierstrassCurve.b₂, WeierstrassCurve.b₄,
      WeierstrassCurve.b₆, WeierstrassCurve.b₈]
    ring
  rw [hval]
  exact mul_ne_zero (pow_ne_zero 4 h2) (sub_ne_zero.mpr (Ne.symm hb))

/-- The points of the curve are the solutions of its equation. -/
theorem nonsingular_iff (h2 : (2 : F) ≠ 0) (hb : 27 * b ^ 2 ≠ 108) {x y : F} :
    (curve b).Nonsingular x y ↔ y ^ 2 = x ^ 3 - 3 * x + b := by
  rw [← equation_iff_nonsingular_of_Δ_ne_zero (disc_ne_zero h2 hb), equation_iff]
  simp only [curve]
  constructor
  · intro h
    linear_combination h
  · intro h
    linear_combination h

/-- A triple is for the point at infinity where `z` is zero. -/
theorem Has.z_eq_zero_iff {t : Triple F} {P : (curve b).Point} (h : Has t P) :
    t.z = 0 ↔ P = 0 := by
  cases P with
  | zero => exact iff_of_true h rfl
  | some x y hxy => exact iff_of_false h.1 (Point.some_ne_zero hxy)

theorem has_inf : Has (Triple.inf : Triple F) (0 : (curve b).Point) := rfl

variable [DecidableEq F]

/-- The sum of a point with itself. -/
def Triple.double (t : Triple F) : Triple F :=
  if t.z = 0 ∨ t.y = 0 then .inf
  else
    let delta := t.z * t.z
    let gamma := t.y * t.y
    let beta := t.x * gamma
    let alpha := 3 * ((t.x - delta) * (t.x + delta))
    let x3 := alpha * alpha - 8 * beta
    let z3 := (t.y + t.z) * (t.y + t.z) - gamma - delta
    ⟨x3, alpha * (4 * beta - x3) - 8 * (gamma * gamma), z3⟩

/-- The sum of two points. -/
def Triple.add (s t : Triple F) : Triple F :=
  if s.z = 0 then t
  else if t.z = 0 then s
  else
    let z1z1 := s.z * s.z
    let z2z2 := t.z * t.z
    let u1 := s.x * z2z2
    let u2 := t.x * z1z1
    let s1 := s.y * (t.z * z2z2)
    let s2 := t.y * (s.z * z1z1)
    let h := u2 - u1
    let d := s2 - s1
    if h = 0 then if d = 0 then s.double else .inf
    else
      let r := d + d
      let i2 := (h + h) * (h + h)
      let j := h * i2
      let v := u1 * i2
      let x3 := r * r - j - (v + v)
      ⟨x3, r * (v - x3) - (s1 * j + s1 * j), ((s.z + t.z) * (s.z + t.z) - z1z1 - z2z2) * h⟩

/-- **Doubling.** -/
theorem Has.double (h2 : (2 : F) ≠ 0) {t : Triple F} {P : (curve b).Point} (h : Has t P) :
    Has t.double (P + P) := by
  unfold Triple.double
  cases P with
  | zero =>
    rw [if_pos (.inl h)]
    exact has_inf
  | some x y hxy =>
    obtain ⟨hz, hx, hy⟩ := h
    by_cases hy0 : y = 0
    · rw [if_pos (.inr (by rw [hy, hy0, zero_mul])),
        Point.add_self_of_Y_eq ((eq_negY_iff h2).mpr hy0)]
      exact has_inf
    · have hne : y ≠ (curve b).negY x y := mt (eq_negY_iff h2).mp hy0
      have hY : t.y ≠ 0 := hy ▸ mul_ne_zero hy0 (pow_ne_zero 3 hz)
      have hslope : (curve b).slope x x y y = (3 * x ^ 2 - 3) / (2 * y) := by
        rw [slope_of_Y_ne rfl hne, negY_eq]
        simp only [curve]
        ring_nf
      rw [if_neg (not_or_intro hz hY), Point.add_self_of_Y_ne hne, has_some]
      simp only [addX_eq, addY_eq, hslope]
      have hzd : (t.y + t.z) * (t.y + t.z) - t.y * t.y - t.z * t.z = 2 * y * t.z ^ 4 := by
        rw [hy]
        ring
      rw [hzd, hx, hy]
      refine ⟨mul_ne_zero (mul_ne_zero h2 hy0) (pow_ne_zero 4 hz), ?_, ?_⟩
      · field_simp
        ring
      · field_simp
        ring

/-- **Adding.** -/
theorem Has.add (h2 : (2 : F) ≠ 0) {s t : Triple F} {P Q : (curve b).Point} (hP : Has s P)
    (hQ : Has t Q) : Has (s.add t) (P + Q) := by
  unfold Triple.add
  cases P with
  | zero =>
    rw [if_pos (has_zero.mp hP), ← Point.zero_def, zero_add]
    exact hQ
  | some x₁ y₁ h₁ =>
    obtain ⟨hz1, hx1, hy1⟩ := id hP
    rw [if_neg hz1]
    cases Q with
    | zero =>
      rw [if_pos (has_zero.mp hQ), ← Point.zero_def, add_zero]
      exact hP
    | some x₂ y₂ h₂ =>
      obtain ⟨hz2, hx2, hy2⟩ := hQ
      rw [if_neg hz2]
      have hh : t.x * (s.z * s.z) - s.x * (t.z * t.z) = (x₂ - x₁) * (s.z * t.z) ^ 2 := by
        rw [hx1, hx2]
        ring
      have hd : t.y * (s.z * (s.z * s.z)) - s.y * (t.z * (t.z * t.z))
          = (y₂ - y₁) * (s.z * t.z) ^ 3 := by
        rw [hy1, hy2]
        ring
      have hw : s.z * t.z ≠ 0 := mul_ne_zero hz1 hz2
      by_cases hne : x₁ = x₂
      · subst hne
        rw [if_pos (by rw [hh, sub_self, zero_mul])]
        have hor : (.some x₁ y₁ h₁ : (curve b).Point) = .some x₁ y₂ h₂
            ∨ (.some x₁ y₁ h₁ : (curve b).Point) = -.some x₁ y₂ h₂ := Point.X_eq_iff.mp rfl
        by_cases hy : y₂ = y₁
        · subst hy
          rw [if_pos (by rw [hd, sub_self, zero_mul])]
          exact hP.double h2
        · rw [if_neg (by rw [hd]; exact mul_ne_zero (sub_ne_zero.mpr hy) (pow_ne_zero 3 hw))]
          rcases hor with h | h
          · exact absurd (Point.some.inj h).2.symm hy
          · rw [h, neg_add_cancel]
            exact has_inf
      · have hdx : x₂ - x₁ ≠ 0 := sub_ne_zero.mpr (Ne.symm hne)
        have hdx' : x₁ - x₂ ≠ 0 := sub_ne_zero.mpr hne
        rw [if_neg (by rw [hh]; exact mul_ne_zero hdx (pow_ne_zero 2 hw)),
          Point.add_of_X_ne hne, has_some]
        simp only [addX_eq, addY_eq, slope_of_X_ne hne, hh, hd]
        have hzs : ((s.z + t.z) * (s.z + t.z) - s.z * s.z - t.z * t.z) * ((x₂ - x₁) * (s.z * t.z) ^ 2)
            = 2 * (x₂ - x₁) * (s.z * t.z) ^ 3 := by
          ring
        rw [hzs, hx1, hy1]
        refine ⟨mul_ne_zero (mul_ne_zero h2 hdx) (pow_ne_zero 3 hw), ?_, ?_⟩
        · field_simp
          ring
        · field_simp
          ring

/-- The bits of a scalar from one on. -/
theorem div_pow_succ (n i : Nat) :
    n / 2 ^ i = n / 2 ^ (i + 1) + n / 2 ^ (i + 1) + (n.testBit i).toNat := by
  rw [Nat.toNat_testBit, Nat.pow_succ, ← Nat.div_div_eq_div_mul, ← Nat.two_mul, Nat.div_add_mod]

/-- One bit of a scalar. -/
def Triple.mulStep (t : Triple F) (n i : Nat) (s : Triple F) : Triple F :=
  if n.testBit i then s.double.add t else s.double

/-- The multiple by the `k` bits of `n`, from the top. -/
def Triple.mul (t : Triple F) (n k : Nat) : Triple F := countdown (t.mulStep n) k .inf

theorem Has.mulStep (h2 : (2 : F) ≠ 0) {s t : Triple F} {n i : Nat} {P : (curve b).Point}
    (ht : Has t P) (hs : Has s ((n / 2 ^ (i + 1)) • P)) :
    Has (t.mulStep n i s) ((n / 2 ^ i) • P) := by
  have hdouble := hs.double h2
  unfold Triple.mulStep
  rw [div_pow_succ n i]
  cases n.testBit i with
  | true =>
    rw [Bool.toNat_true, add_smul, add_smul, one_smul]
    exact hdouble.add h2 ht
  | false =>
    rw [Bool.toNat_false, add_smul, add_smul, zero_smul, add_zero]
    exact hdouble

/-- **Multiples.** -/
theorem Has.mul (h2 : (2 : F) ≠ 0) {t : Triple F} {P : (curve b).Point} (h : Has t P) {n k : Nat}
    (hn : n < 2 ^ k) : Has (t.mul n k) (n • P) := by
  have hend := countdown_inv (f := t.mulStep n) (n := k) (a := Triple.inf)
    (fun i s => Has s ((n / 2 ^ i) • P)) (fun i s _ hs => h.mulStep h2 hs) ?_
  · rw [Nat.pow_zero, Nat.div_one] at hend
    exact hend
  · have hzero : (n / 2 ^ k) • P = 0 := by
      rw [Nat.div_eq_of_lt hn]
      exact zero_smul ℕ P
    rw [hzero]
    exact has_inf

end Jacobian
