import MiniWin.Crypto.EccField
import MiniWin.Lib.Jacobian

/-!
# The points of the curves

Doubling and adding do with arrays what the formulas of Jacobian coordinates do with the numbers
that the arrays stand for, and look at the same cases. The multiplication by a scalar then keeps the
multiple by the bits that it has read.
-/

namespace Ecc

open Jacobian (Triple Has)
open Limbs

/-- What a curve is after `ecc_curve_prepare`, as far as its field goes. -/
structure Curve.Ready (c : Curve) : Prop where
  fp : (ecc_fp c).Good
  one : Stands (ecc_fp c) c.p_one 1

/-- The arrays stand for the triple. -/
structure Is (c : Curve) (a : Point) (t : Triple (ZMod (value c.p))) : Prop where
  x : Stands (ecc_fp c) a.x t.x
  y : Stands (ecc_fp c) a.y t.y
  z : Stands (ecc_fp c) a.z t.z

variable {c : Curve} {a b : Point} {s t : Triple (ZMod (value c.p))}

theorem stands_zero {f : Field} (hf : f.Good) : Stands f (ecc_zero f.n) 0 := by
  refine ⟨List.length_replicate, ?_, ?_⟩
  · rw [ecc_zero, value_replicate]
    exact hf.prime.pos
  · rw [ecc_zero, value_replicate, Nat.cast_zero, zero_mul]

/-! ## Choosing without a branch -/

theorem cmov_eq {dst src : Words} (h : dst.length = src.length) (b : Bool) :
    cmov (0 - b.toUInt32) dst src = if b then src else dst := by
  have hlimb (d s : UInt32) :
      (d &&& ~~~(0 - b.toUInt32)) ||| (s &&& (0 - b.toUInt32)) = if b then s else d := by
    cases b with
    | true =>
      show (d &&& ~~~(0 - 1)) ||| (s &&& (0 - 1)) = s
      rw [show (0 - 1 : UInt32) = -1 by decide, UInt32.and_neg_one, UInt32.not_neg_one,
        UInt32.and_zero, UInt32.zero_or]
    | false =>
      show (d &&& ~~~(0 - 0)) ||| (s &&& (0 - 0)) = d
      rw [UInt32.sub_zero, UInt32.and_zero, UInt32.or_zero, UInt32.not_zero, UInt32.and_neg_one]
  unfold cmov
  induction dst generalizing src with
  | nil =>
    obtain rfl : src = [] := List.length_eq_zero_iff.mp h.symm
    exact (ite_self _).symm
  | cons d dst ih =>
    obtain ⟨s, src, rfl⟩ : ∃ s src', src = s :: src' := List.exists_cons_of_length_eq_add_one h.symm
    rw [List.zipWith_cons_cons, hlimb, ih (Nat.succ.inj h)]
    cases b <;> rfl

theorem Is.cmov (ha : Is c a s) (hb : Is c b t) (bit : Bool) :
    Is c (ecc_pt_cmov a b (0 - bit.toUInt32)) (if bit then t else s) := by
  unfold ecc_pt_cmov
  rw [cmov_eq (ha.x.width.trans hb.x.width.symm), cmov_eq (ha.y.width.trans hb.y.width.symm),
    cmov_eq (ha.z.width.trans hb.z.width.symm)]
  cases bit with
  | true => exact hb
  | false => exact ha

/-! ## The formulas -/

variable [Fact (value c.p).Prime]

theorem is_inf (hc : c.Ready) : Is c (ecc_pt_set_inf c) Triple.inf :=
  ⟨stands_zero hc.fp, hc.one, stands_zero hc.fp⟩

/-- **Doubling** is that of the coordinates. -/
theorem Is.dbl (hc : c.Ready) (h : Is c a t) : Is c (ecc_pt_dbl c a) t.double := by
  have hf := hc.fp
  unfold ecc_pt_dbl Triple.double
  simp only [ecc_pt_is_inf, Bool.or_eq_true, h.z.is_zero hf, h.y.is_zero hf]
  by_cases hcase : t.z = 0 ∨ t.y = 0
  · rw [if_pos hcase, if_pos hcase]
    exact is_inf hc
  rw [if_neg hcase, if_neg hcase]
  have delta := h.z.mm hf h.z
  have gamma := h.y.mm hf h.y
  have beta := h.x.mm hf gamma
  have prod := (h.x.ms hf delta).mm hf (h.x.ma hf delta)
  have alpha := ((prod.ma hf prod).ma hf prod).congr
    (show _ = 3 * ((t.x - t.z * t.z) * (t.x + t.z * t.z)) by ring)
  have beta2 := beta.ma hf beta
  have beta4 := (beta2.ma hf beta2).congr (show _ = 4 * (t.x * (t.y * t.y)) by ring)
  have beta8 := (beta4.ma hf beta4).congr (show _ = 8 * (t.x * (t.y * t.y)) by ring)
  have x3 := (alpha.mm hf alpha).ms hf beta8
  have sum := h.y.ma hf h.z
  have z3 := ((sum.mm hf sum).ms hf gamma).ms hf delta
  have square := gamma.mm hf gamma
  have square2 := square.ma hf square
  have square4 := square2.ma hf square2
  have square8 := (square4.ma hf square4).congr
    (show _ = 8 * (t.y * t.y * (t.y * t.y)) by ring)
  have y3 := (alpha.mm hf (beta4.ms hf x3)).ms hf square8
  refine ⟨?x, ?y, ?z⟩ <;> dsimp only
  case x => exact x3
  case y => exact y3
  case z => exact z3

/-- **Adding** is that of the coordinates. -/
theorem Is.add (hc : c.Ready) (ha : Is c a s) (hb : Is c b t) :
    Is c (ecc_pt_add c a b) (s.add t) := by
  have hf := hc.fp
  have z1z1 := ha.z.mm hf ha.z
  have z2z2 := hb.z.mm hf hb.z
  have u1 := ha.x.mm hf z2z2
  have u2 := hb.x.mm hf z1z1
  have s1 := ha.y.mm hf (hb.z.mm hf z2z2)
  have s2 := hb.y.mm hf (ha.z.mm hf z1z1)
  have h := u2.ms hf u1
  have d := s2.ms hf s1
  unfold ecc_pt_add Triple.add
  simp only [ecc_pt_is_inf, ha.z.is_zero hf, hb.z.is_zero hf, h.is_zero hf, d.is_zero hf]
  split
  · exact hb
  split
  · exact ha
  split
  · split
    · exact ha.dbl hc
    · exact is_inf hc
  have r := d.ma hf d
  have hh := h.ma hf h
  have i2 := hh.mm hf hh
  have j := h.mm hf i2
  have v := u1.mm hf i2
  have x3 := ((r.mm hf r).ms hf j).ms hf (v.ma hf v)
  have sj := s1.mm hf j
  have y3 := (r.mm hf (v.ms hf x3)).ms hf (sj.ma hf sj)
  have sum := ha.z.ma hf hb.z
  have z3 := (((sum.mm hf sum).ms hf z1z1).ms hf z2z2).mm hf h
  refine ⟨?x, ?y, ?z⟩ <;> dsimp only
  case x => exact x3
  case y => exact y3
  case z => exact z3

/-- **One bit of the scalar.** -/
theorem Is.mulRound (hc : c.Ready) {k : Words} {i : Nat} {r : Point} (ha : Is c a t)
    (hr : Is c r s) : Is c (mulRound c k a i r) (t.mulStep (value k) i s) := by
  have hdouble := hr.dbl hc
  unfold Ecc.mulRound Triple.mulStep
  rw [bit_eq]
  exact hdouble.cmov (hdouble.add hc ha) _

/-! ## Points of the curve -/

/-- The arrays stand for the point. -/
def Represents (c : Curve) [Fact (value c.p).Prime] {B : ZMod (value c.p)} (a : Point)
    (P : (Jacobian.curve B).Point) : Prop :=
  ∃ t, Is c a t ∧ Has t P

variable {B : ZMod (value c.p)} {P Q : (Jacobian.curve B).Point}

theorem two_ne_zero_of (hc : c.Ready) : (2 : ZMod (value c.p)) ≠ 0 := by
  intro h
  have hdvd : value c.p ∣ 2 := (ZMod.natCast_eq_zero_iff 2 _).mp h
  exact absurd (Nat.le_of_dvd two_pos hdvd) (Nat.not_le.mpr hc.fp.two_lt)

theorem represents_inf (hc : c.Ready) :
    Represents c (ecc_pt_set_inf c) (0 : (Jacobian.curve B).Point) :=
  ⟨Triple.inf, is_inf hc, Jacobian.has_inf⟩

theorem Represents.dbl (hc : c.Ready) (h : Represents c a P) :
    Represents c (ecc_pt_dbl c a) (P + P) := by
  obtain ⟨t, ht, hP⟩ := h
  exact ⟨t.double, ht.dbl hc, hP.double (two_ne_zero_of hc)⟩

theorem Represents.add (hc : c.Ready) (ha : Represents c a P) (hb : Represents c b Q) :
    Represents c (ecc_pt_add c a b) (P + Q) := by
  obtain ⟨s, hs, hP⟩ := ha
  obtain ⟨t, ht, hQ⟩ := hb
  exact ⟨s.add t, hs.add hc ht, hP.add (two_ne_zero_of hc) hQ⟩

theorem Represents.is_inf_iff (hc : c.Ready) (h : Represents c a P) :
    ecc_pt_is_inf a = true ↔ P = 0 := by
  obtain ⟨t, ht, hP⟩ := h
  rw [ecc_pt_is_inf, ht.z.is_zero hc.fp, hP.z_eq_zero_iff]

/-- **The multiplication by a scalar**, of any point. -/
theorem Represents.scalar_mul (hc : c.Ready) {k : Words} (hk : k.length = c.n)
    (h : Represents c a P) : Represents c (ecc_scalar_mul c k a) (value k • P) := by
  obtain ⟨t, ht, hP⟩ := h
  have hbits : value k < 2 ^ (c.n * 32) := by
    rw [Nat.mul_comm, ← hk]
    exact value_lt k
  have hloop := countdown_rel (n := c.n * 32) (Is c)
    (fun i _ _ _ hr => ht.mulRound hc (k := k) (i := i) hr) (is_inf hc)
  exact ⟨_, hloop, hP.mul (two_ne_zero_of hc) hbits⟩

/-! ## Coordinates -/

/-- **The coordinates** of a point that is not at infinity. -/
theorem Represents.to_affine (hc : c.Ready) (h : Represents c a P) :
    (P = 0 ∧ ecc_to_affine c a = none)
      ∨ ∃ x y hxy X Y, P = .some x y hxy ∧ ecc_to_affine c a = some (X, Y)
        ∧ X.length = c.n ∧ value X = x.val ∧ Y.length = c.n ∧ value Y = y.val := by
  have hinf := h.is_inf_iff hc
  obtain ⟨t, ht, hP⟩ := h
  unfold ecc_to_affine
  cases P with
  | zero =>
    rw [if_pos (hinf.mpr rfl)]
    exact .inl ⟨rfl, rfl⟩
  | some x y hxy =>
    obtain ⟨hz, hx, hy⟩ := hP
    have zi := ht.z.minv hc.fp hc.one
    have zi2 := zi.mm hc.fp zi
    have zi3 := zi2.mm hc.fp zi
    have hX : t.x * (t.z⁻¹ * t.z⁻¹) = x := by
      rw [hx]
      field_simp
    have hY : t.y * (t.z⁻¹ * t.z⁻¹ * t.z⁻¹) = y := by
      rw [hy]
      field_simp
    obtain ⟨hxlen, hxval⟩ := ((ht.x.mm hc.fp zi2).congr hX).from_mont hc.fp
    obtain ⟨hylen, hyval⟩ := ((ht.y.mm hc.fp zi3).congr hY).from_mont hc.fp
    rw [if_neg (mt hinf.mp (WeierstrassCurve.Affine.Point.some_ne_zero hxy))]
    exact .inr ⟨x, y, hxy, _, _, rfl, rfl, hxlen, hxval, hylen, hyval⟩

/-- The last coefficient of the curve. -/
def Curve.coeff (c : Curve) : ZMod (value c.p) := (value c.b : ZMod (value c.p))

/-- What the curve is given by. -/
structure Curve.Given (c : Curve) : Prop where
  b_width : c.b.length = c.n
  b_lt : value c.b < value c.p
  disc : 27 * c.coeff ^ 2 ≠ 108

/-- A pair of numbers below the prime is looked at. -/
theorem load_checked_cases (hc : c.Ready) (hg : c.Given) {x y : Words} (hx : x.length = c.n)
    (hy : y.length = c.n) :
    (∃ hxy : (Jacobian.curve c.coeff).Nonsingular (value x) (value y),
        value x < value c.p ∧ value y < value c.p
          ∧ ∃ q, ecc_pt_load_checked c x y = some q
            ∧ Represents c q (.some _ _ hxy : (Jacobian.curve c.coeff).Point))
      ∨ ecc_pt_load_checked c x y = none
        ∧ ¬(value x < value c.p ∧ value y < value c.p
          ∧ (Jacobian.curve c.coeff).Nonsingular (value x) (value y)) := by
  have hf := hc.fp
  have hcmp {v : Words} (hv : v.length = c.n) : ecc_cmp v c.p c.n ≠ .lt ↔ ¬value v < value c.p := by
    rw [cmp_eq hv hf.width, ne_eq, Nat.compare_eq_lt]
  unfold ecc_pt_load_checked
  simp only [hcmp hx, hcmp hy]
  by_cases hrange : ¬value x < value c.p ∨ ¬value y < value c.p
  · rw [if_pos hrange]
    exact .inr ⟨rfl, fun h => hrange.elim (absurd h.1) (absurd h.2.1)⟩
  rw [if_neg hrange]
  rw [not_or, not_not, not_not] at hrange
  have xm := Stands.to_mont hf hx hrange.1
  have ym := Stands.to_mont hf hy hrange.2
  have bm := Stands.to_mont hf hg.b_width hg.b_lt
  have lhs := ym.mm hf ym
  have rhs := ((((xm.mm hf xm).mm hf xm).ms hf ((xm.ma hf xm).ma hf xm)).ma hf bm)
  have hiff : (Jacobian.curve c.coeff).Nonsingular (value x) (value y)
      ↔ (value y : ZMod (value c.p)) * value y
        = value x * value x * value x - (value x + value x + value x) + value c.b := by
    rw [Jacobian.nonsingular_iff (two_ne_zero_of hc) hg.disc]
    refine Eq.congr (by ring) ?_
    rw [Curve.coeff]
    ring
  split
  · next hne =>
    rw [cmp_eq lhs.width rhs.width, ne_eq, Nat.compare_eq_eq, lhs.eq_iff hf rhs, ← hiff] at hne
    exact .inr ⟨rfl, fun h => hne h.2.2⟩
  · next heq =>
    rw [not_not, cmp_eq lhs.width rhs.width, Nat.compare_eq_eq, lhs.eq_iff hf rhs, ← hiff] at heq
    refine .inl ⟨heq, hrange.1, hrange.2, _, rfl, ⟨_, _, 1⟩, ⟨xm, ym, hc.one⟩, ?_⟩
    exact ⟨one_ne_zero, by ring, by ring⟩

end Ecc
