import Mathlib.Algebra.Order.Ring.Abs
import Mathlib.Order.Bounds.Basic
import Mathlib.Tactic.Linarith
import Mathlib.Tactic.Ring

/-!
# Wide arithmetic

`mw_isqrt64` and `mw_muldiv` of `sdk/include/mw_libc.h`, on the machine's own integers.
-/

namespace Sdk

/-! ## The square root -/

/-- The first loop: down to a power of four that is not above `n`. -/
def isqrtBit (n bit : UInt64) : UInt64 :=
  if bit > n then isqrtBit n (bit >>> 2) else bit
termination_by bit.toNat
decreasing_by
  next h =>
  rw [gt_iff_lt, UInt64.lt_iff_toNat_lt] at h
  rw [UInt64.toNat_shiftRight, Nat.shiftRight_eq_div_pow]
  exact Nat.div_lt_self (by omega) (by decide)

/-- The second loop: one digit of the root for each power of four. -/
def isqrtDigits (n res bit : UInt64) : UInt64 :=
  if bit = 0 then res
  else if n ≥ res + bit then isqrtDigits (n - (res + bit)) ((res >>> 1) + bit) (bit >>> 2)
  else isqrtDigits n (res >>> 1) (bit >>> 2)
termination_by bit.toNat
decreasing_by
  all_goals
    next h _ =>
    rw [UInt64.toNat_shiftRight, Nat.shiftRight_eq_div_pow]
    exact Nat.div_lt_self (Nat.pos_of_ne_zero fun h0 => h (UInt64.toNat.inj h0)) (by decide)

def mwIsqrt64 (n : UInt64) : UInt32 := (isqrtDigits n 0 (isqrtBit n ((1 : UInt64) <<< 62))).toUInt32

/-- Four to the power of `j`, one digit on. -/
def bitAt (j : ℕ) : ℕ := 4 ^ j / 4

@[simp] theorem bitAt_succ (j : ℕ) : bitAt (j + 1) = 4 ^ j := by
  unfold bitAt
  rw [Nat.pow_succ, Nat.mul_div_cancel _ (by decide)]

theorem shift_bitAt {bit : UInt64} {j : ℕ} (h : bit.toNat = bitAt (j + 1)) :
    (bit >>> 2).toNat = bitAt j := by
  rw [UInt64.toNat_shiftRight, Nat.shiftRight_eq_div_pow, h, bitAt_succ]
  rfl

/-- **The first loop** ends at a power of four, and the number is below the next one. -/
theorem isqrtBit_spec (n : UInt64) (j : ℕ) (bit : UInt64) (hbit : bit.toNat = bitAt j)
    (hn : n.toNat < 4 ^ j) :
    ∃ i ≤ j, (isqrtBit n bit).toNat = bitAt i ∧ n.toNat < 4 ^ i := by
  induction j generalizing bit with
  | zero =>
    unfold isqrtBit
    rw [if_neg fun hgt => by
      rw [gt_iff_lt, UInt64.lt_iff_toNat_lt, hbit] at hgt
      exact Nat.not_lt_zero _ hgt]
    exact ⟨0, le_rfl, hbit, hn⟩
  | succ j ih =>
    unfold isqrtBit
    split
    · next hgt =>
      rw [gt_iff_lt, UInt64.lt_iff_toNat_lt, hbit, bitAt_succ] at hgt
      obtain ⟨i, hi, hspec⟩ := ih (bit >>> 2) (shift_bitAt hbit) hgt
      exact ⟨i, hi.trans (Nat.le_succ j), hspec⟩
    · exact ⟨j + 1, le_rfl, hbit, hn⟩

/-- **The second loop.** With the root `P` so far, `n` is what is left of the number and `res` is
`P` shifted; each round finds the next digit. -/
theorem isqrtDigits_spec (j P : ℕ) (n res bit : UInt64) (hbit : bit.toNat = bitAt j)
    (hres : res.toNat = P * 2 ^ j) (hP : P + 2 ^ j ≤ 2 ^ 32)
    (hn : n.toNat + P * P < (P + 2 ^ j) * (P + 2 ^ j)) :
    let r := (isqrtDigits n res bit).toNat
    r < 2 ^ 32 ∧ r * r ≤ n.toNat + P * P ∧ n.toNat + P * P < (r + 1) * (r + 1) := by
  induction j generalizing P n res bit with
  | zero =>
    unfold isqrtDigits
    rw [if_pos (UInt64.toNat.inj hbit), hres, Nat.pow_zero, Nat.mul_one]
    exact ⟨by omega, Nat.le_add_left .., hn⟩
  | succ j ih =>
    have hne : bit ≠ 0 := fun h0 => by
      rw [h0, bitAt_succ] at hbit
      exact absurd hbit (Nat.pow_pos (by decide)).ne
    have hpow : 4 ^ j = 2 ^ j * 2 ^ j := by rw [← Nat.mul_pow]
    rw [bitAt_succ, hpow] at hbit
    rw [Nat.pow_succ] at hres hP hn
    generalize hd : 2 ^ j = d at *
    have hshift : (bit >>> 2).toNat = bitAt j := by
      refine shift_bitAt ?_
      rw [bitAt_succ, hpow, hbit]
    have hhalf : (res >>> 1).toNat = P * d := by
      rw [UInt64.toNat_shiftRight, Nat.shiftRight_eq_div_pow, hres, ← Nat.mul_assoc]
      exact Nat.mul_div_cancel _ (by decide)
    have hsquare : (P + d) * (P + d) = P * P + (P * (d * 2) + d * d) := by ring
    have hlt : (P + d) * (P + d) < 2 ^ 64 := by
      have hle : P + d < 2 ^ 32 := by
        have : 0 < d := hd ▸ Nat.two_pow_pos j
        omega
      calc (P + d) * (P + d) < 2 ^ 32 * 2 ^ 32 := Nat.mul_lt_mul'' hle hle
        _ = 2 ^ 64 := by decide
    have hsum : (res + bit).toNat = P * (d * 2) + d * d := by
      rw [UInt64.toNat_add, hres, hbit, Nat.mod_eq_of_lt (by omega)]
    unfold isqrtDigits
    rw [if_neg hne]
    split
    · next hge =>
      rw [ge_iff_le, UInt64.le_iff_toNat_le, hsum] at hge
      have hleft : (n - (res + bit)).toNat + (P + d) * (P + d) = n.toNat + P * P := by
        rw [UInt64.toNat_sub_of_le _ _ (UInt64.le_iff_toNat_le.mpr (hsum ▸ hge)), hsum]
        omega
      have hnext : ((res >>> 1) + bit).toNat = (P + d) * d := by
        have hmul : (P + d) * d ≤ (P + d) * (P + d) := Nat.mul_le_mul_left _ (Nat.le_add_left ..)
        rw [UInt64.toNat_add, hhalf, hbit, ← Nat.add_mul, Nat.mod_eq_of_lt (by omega)]
      rw [← hleft]
      refine ih (P + d) _ _ _ hshift hnext (by omega) ?_
      rw [hleft, show P + d + d = P + d * 2 by omega]
      exact hn
    · next hlt =>
      rw [ge_iff_le, UInt64.le_iff_toNat_le, hsum, not_le] at hlt
      refine ih P _ _ _ hshift hhalf (by omega) ?_
      omega

/-- **`mw_isqrt64` is the square root**, rounded down. -/
theorem mwIsqrt64_isGreatest (n : UInt64) :
    IsGreatest {r : ℕ | r * r ≤ n.toNat} (mwIsqrt64 n).toNat := by
  obtain ⟨i, hi, hbit, hn⟩ := isqrtBit_spec n 32 ((1 : UInt64) <<< 62) rfl n.toNat_lt
  have hpow : 2 ^ i ≤ 2 ^ 32 := Nat.pow_le_pow_right (by decide) hi
  obtain ⟨hlt, hle, hgt⟩ := isqrtDigits_spec i 0 n 0 _ hbit (Nat.zero_mul _).symm
    (by omega) (by rwa [Nat.zero_mul, Nat.zero_add, Nat.add_zero, ← Nat.mul_pow])
  have hroot : (mwIsqrt64 n).toNat =
      (isqrtDigits n 0 (isqrtBit n ((1 : UInt64) <<< 62))).toNat := by
    unfold mwIsqrt64
    rw [UInt64.toNat_toUInt32, Nat.mod_eq_of_lt hlt]
  rw [hroot]
  refine ⟨by simpa using hle, fun r hr => ?_⟩
  have hr : r * r < (_ + 1) * (_ + 1) := lt_of_le_of_lt hr (by simpa using hgt)
  exact Nat.lt_succ_iff.mp (Nat.mul_self_lt_mul_self_iff.mp hr)

/-! ## The quotient of a product -/

/-- `divl`: it faults if the quotient is no word. -/
def divl (hi lo ac : UInt32) : Option UInt32 :=
  let n := hi.toNat * 2 ^ 32 + lo.toNat
  if ac = 0 ∨ n / ac.toNat ≥ 2 ^ 32 then none else some (UInt32.ofNat (n / ac.toNat))

/-- The least and the greatest `int`. -/
def saturated (neg : Bool) : Int32 := if neg then Int32.minValue else Int32.maxValue

/-- `mw_muldiv`, with the sign and the absolute values. -/
def muldivAbs (neg : Bool) (ap : UInt64) (ac : UInt32) : Option Int32 :=
  if ac = 0 ∨ (ap >>> 32).toUInt32 ≥ ac then some (saturated neg)
  else do
    let q ← divl (ap >>> 32).toUInt32 ap.toUInt32 ac
    pure (if q > 0x7FFFFFFF then saturated neg else if neg then -q.toInt32 else q.toInt32)

/-- `mw_muldiv`; with `none` it faults. The negative of the least `int` wraps around to itself. -/
def mwMuldiv (a b c : Int32) : Option Int32 :=
  let p := a.toInt64 * b.toInt64
  muldivAbs (decide (p < 0) != decide (c < 0)) (if p < 0 then -p else p).toUInt64
    (if c < 0 then -c else c).toUInt32

/-- What it is to calculate. -/
def muldivExact (a b c : ℤ) : ℤ :=
  if c ≠ 0 ∧ -2 ^ 31 ≤ (a * b).tdiv c ∧ (a * b).tdiv c < 2 ^ 31 then (a * b).tdiv c
  else if (if c < 0 then -(a * b) else a * b) < 0 then -2 ^ 31
  else 2 ^ 31 - 1

theorem bmod_emod_pow (x : ℤ) (k : ℕ) : x.bmod (2 ^ k) % 2 ^ k = x % 2 ^ k := by
  have h := Int.bmod_emod (x := x) (m := 2 ^ k)
  push_cast at h
  exact h

theorem toNat_toUInt32 (x : Int32) : (x.toUInt32.toNat : ℤ) = x.toInt % 2 ^ 32 := by
  have h : x.toInt = (x.toUInt32.toNat : ℤ).bmod (2 ^ 32) := x.toBitVec.toInt_eq_toNat_bmod
  rw [h, bmod_emod_pow]
  exact (Int.emod_eq_of_lt (Int.natCast_nonneg _) (Int.ofNat_lt.mpr x.toUInt32.toNat_lt)).symm

theorem toNat_toUInt64 (x : Int64) : (x.toUInt64.toNat : ℤ) = x.toInt % 2 ^ 64 := by
  have h : x.toInt = (x.toUInt64.toNat : ℤ).bmod (2 ^ 64) := x.toBitVec.toInt_eq_toNat_bmod
  rw [h, bmod_emod_pow]
  exact (Int.emod_eq_of_lt (Int.natCast_nonneg _) (Int.ofNat_lt.mpr x.toUInt64.toNat_lt)).symm

/-- **The absolute value** of an `int`, as a word: the least one is its own negative. -/
theorem abs_toUInt32 (c : Int32) : (if c < 0 then -c else c).toUInt32.toNat = c.toInt.natAbs := by
  have hlo := c.le_toInt
  have hhi := c.toInt_lt
  have hneg : c < 0 ↔ c.toInt < 0 := Int32.lt_iff_toInt_lt
  zify
  split
  · next h =>
    rw [hneg] at h
    rw [toNat_toUInt32, Int32.toInt_neg, bmod_emod_pow, abs_of_neg h]
    exact Int.emod_eq_of_lt (by omega) (by omega)
  · next h =>
    rw [hneg] at h
    rw [toNat_toUInt32, abs_of_nonneg (by omega)]
    exact Int.emod_eq_of_lt (by omega) (by omega)

/-- The product fits a `long long`. -/
theorem product_bounds (a b : Int32) :
    -2 ^ 62 ≤ a.toInt * b.toInt ∧ a.toInt * b.toInt ≤ 2 ^ 62 := by
  have ha := abs_le.mpr ⟨a.le_toInt, a.toInt_lt.le⟩
  have hb := abs_le.mpr ⟨b.le_toInt, b.toInt_lt.le⟩
  have hmul := mul_le_mul ha hb (abs_nonneg _) (by decide)
  rw [← abs_mul] at hmul
  exact abs_le.mp (hmul.trans_eq (by decide))

theorem toInt_product (a b : Int32) : (a.toInt64 * b.toInt64).toInt = a.toInt * b.toInt := by
  obtain ⟨hlo, hhi⟩ := product_bounds a b
  rw [Int64.toInt_mul, Int32.toInt_toInt64, Int32.toInt_toInt64]
  exact Int.bmod_eq_of_le_mul_two (by omega) (by omega)

theorem abs_toUInt64 {p : Int64} {x : ℤ} (hp : p.toInt = x) (hlo : -2 ^ 62 ≤ x) (hhi : x ≤ 2 ^ 62) :
    (if p < 0 then -p else p).toUInt64.toNat = x.natAbs := by
  have hneg : p < 0 ↔ x < 0 := by
    rw [← hp]
    exact Int64.lt_iff_toInt_lt
  zify
  split
  · next h =>
    rw [hneg] at h
    rw [toNat_toUInt64, Int64.toInt_neg, bmod_emod_pow, abs_of_neg h, hp]
    exact Int.emod_eq_of_lt (by omega) (by omega)
  · next h =>
    rw [hneg] at h
    rw [toNat_toUInt64, abs_of_nonneg (by omega), hp]
    exact Int.emod_eq_of_lt (by omega) (by omega)

/-- A quotient by its absolute value and its sign. -/
theorem tdiv_eq_natAbs (x c : ℤ) : x.tdiv c =
    if (decide (x < 0) != decide (c < 0)) then -((x.natAbs / c.natAbs : ℕ) : ℤ)
    else ((x.natAbs / c.natAbs : ℕ) : ℤ) := by
  rw [Int.natCast_ediv]
  rcases lt_or_ge x 0 with hx | hx <;> rcases lt_or_ge c 0 with hc | hc
  · rw [decide_eq_true hx, decide_eq_true hc, Int.ofNat_natAbs_of_nonpos hx.le,
      Int.ofNat_natAbs_of_nonpos hc.le, ← Int.tdiv_eq_ediv_of_nonneg (by omega), Int.neg_tdiv,
      Int.tdiv_neg]
    exact (Int.neg_neg _).symm
  · rw [decide_eq_true hx, decide_eq_false hc.not_gt, Int.ofNat_natAbs_of_nonpos hx.le,
      Int.natAbs_of_nonneg hc, ← Int.tdiv_eq_ediv_of_nonneg (by omega), Int.neg_tdiv]
    exact (Int.neg_neg _).symm
  · rw [decide_eq_false hx.not_gt, decide_eq_true hc, Int.natAbs_of_nonneg hx,
      Int.ofNat_natAbs_of_nonpos hc.le, ← Int.tdiv_eq_ediv_of_nonneg hx, Int.tdiv_neg]
    exact (Int.neg_neg _).symm
  · rw [decide_eq_false hx.not_gt, decide_eq_false hc.not_gt, Int.natAbs_of_nonneg hx,
      Int.natAbs_of_nonneg hc, Int.tdiv_eq_ediv_of_nonneg hx]
    rfl

theorem toInt_saturated (neg : Bool) :
    (saturated neg).toInt = if neg then -2 ^ 31 else 2 ^ 31 - 1 := by
  cases neg <;> rfl

/-- `divl` gives the quotient, if it is a word. -/
theorem divl_eq {ap : UInt64} {ac : UInt32} (h : ap.toNat / ac.toNat < 2 ^ 32) (hac : ac ≠ 0) :
    divl (ap >>> 32).toUInt32 ap.toUInt32 ac = some (UInt32.ofNat (ap.toNat / ac.toNat)) := by
  have hwhole : (ap >>> 32).toUInt32.toNat * 2 ^ 32 + ap.toUInt32.toNat = ap.toNat := by
    have hlt := ap.toNat_lt
    rw [UInt64.toNat_toUInt32, UInt64.toNat_toUInt32, UInt64.toNat_shiftRight,
      Nat.shiftRight_eq_div_pow]
    show ap.toNat / 2 ^ 32 % 2 ^ 32 * 2 ^ 32 + ap.toNat % 2 ^ 32 = ap.toNat
    omega
  unfold divl
  dsimp only
  rw [hwhole, if_neg (not_or.mpr ⟨hac, h.not_ge⟩)]

/-- A quotient below the sign bit, with its sign. -/
theorem toInt_signed {q : ℕ} (hq : q < 2 ^ 31) (neg : Bool) :
    (if neg then -(UInt32.ofNat q).toInt32 else (UInt32.ofNat q).toInt32).toInt =
      if neg then -(q : ℤ) else q := by
  have hpos : (UInt32.ofNat q).toInt32.toInt = q := Int32.toInt_ofNat_of_lt hq
  cases neg with
  | false => exact hpos
  | true =>
    show (-(UInt32.ofNat q).toInt32).toInt = -(q : ℤ)
    rw [Int32.toInt_neg, hpos]
    exact Int.bmod_eq_of_le_mul_two (by omega) (by omega)

/-- **The absolute values** give the quotient, or the bound that it is beyond. -/
theorem muldivAbs_spec (neg : Bool) (ap : UInt64) (ac : UInt32) :
    ∃ q, muldivAbs neg ap ac = some q ∧ q.toInt =
      if ac.toNat = 0 ∨ 2 ^ 31 ≤ ap.toNat / ac.toNat then (if neg then -2 ^ 31 else 2 ^ 31 - 1)
      else (if neg then -((ap.toNat / ac.toNat : ℕ) : ℤ) else (ap.toNat / ac.toNat : ℕ)) := by
  have hlt := ap.toNat_lt
  have hhi : (ap >>> 32).toUInt32.toNat = ap.toNat / 2 ^ 32 := by
    rw [UInt64.toNat_toUInt32, UInt64.toNat_shiftRight, Nat.shiftRight_eq_div_pow]
    show ap.toNat / 2 ^ 32 % 2 ^ 32 = ap.toNat / 2 ^ 32
    omega
  have hzero : ac = 0 ↔ ac.toNat = 0 := ⟨fun h => h ▸ rfl, fun h => UInt32.toNat.inj h⟩
  unfold muldivAbs
  split
  · next hsat =>
    refine ⟨saturated neg, rfl, ?_⟩
    rw [hzero, ge_iff_le, UInt32.le_iff_toNat_le, hhi] at hsat
    have hbeyond : ac.toNat = 0 ∨ 2 ^ 31 ≤ ap.toNat / ac.toNat := by
      refine or_iff_not_imp_left.mpr fun hne => ?_
      rw [Nat.le_div_iff_mul_le (Nat.pos_of_ne_zero hne)]
      have hge := hsat.resolve_left hne
      omega
    rw [toInt_saturated, if_pos hbeyond]
  · next hfit =>
    rw [not_or, hzero, ge_iff_le, UInt32.le_iff_toNat_le, hhi, not_le] at hfit
    have hq : ap.toNat / ac.toNat < 2 ^ 32 := by
      rw [Nat.div_lt_iff_lt_mul (by omega)]
      omega
    rw [divl_eq hq (hzero.not.mpr hfit.1)]
    refine ⟨_, rfl, ?_⟩
    have hcast : UInt32.ofNat (ap.toNat / ac.toNat) > 0x7FFFFFFF ↔
        2 ^ 31 ≤ ap.toNat / ac.toNat := by
      rw [gt_iff_lt, UInt32.lt_iff_toNat_lt, UInt32.toNat_ofNat_of_lt' hq]
      exact Nat.succ_le_iff.symm
    split
    · next hgt =>
      have hbeyond : ac.toNat = 0 ∨ 2 ^ 31 ≤ ap.toNat / ac.toNat := .inr (hcast.mp hgt)
      rw [toInt_saturated, if_pos hbeyond]
    · next hgt =>
      have hle : ¬ 2 ^ 31 ≤ ap.toNat / ac.toNat := hcast.not.mp hgt
      rw [toInt_signed (not_le.mp hle), if_neg (not_or.mpr ⟨hfit.1, hle⟩)]

/-- What is to be calculated, by absolute values and signs. -/
theorem muldivExact_eq (a b c : ℤ) : muldivExact a b c =
    if c.natAbs = 0 ∨ 2 ^ 31 ≤ (a * b).natAbs / c.natAbs then
      (if decide (a * b < 0) != decide (c < 0) then -2 ^ 31 else 2 ^ 31 - 1)
    else (if decide (a * b < 0) != decide (c < 0) then -(((a * b).natAbs / c.natAbs : ℕ) : ℤ)
      else ((a * b).natAbs / c.natAbs : ℕ)) := by
  have hpos : 2 ^ 31 ≤ (a * b).natAbs / c.natAbs → a * b ≠ 0 := fun hge h0 => by
    rw [h0, Int.natAbs_zero, Nat.zero_div] at hge
    exact absurd hge (by decide)
  unfold muldivExact
  rw [tdiv_eq_natAbs]
  generalize a * b = x at *
  generalize x.natAbs / c.natAbs = q at *
  by_cases hx : x < 0 <;> by_cases hc : c < 0
  all_goals
    simp only [hx, hc, decide_true, decide_false, bne_self_eq_false, Bool.true_bne,
      Bool.false_bne, Bool.not_false, if_true, if_false, Bool.false_eq_true]
    split <;> split <;> omega

/-- **`mw_muldiv` does not fault**, and is the quotient where there is one. -/
theorem mwMuldiv_spec (a b c : Int32) :
    ∃ q, mwMuldiv a b c = some q ∧ q.toInt = muldivExact a.toInt b.toInt c.toInt := by
  obtain ⟨hlo, hhi⟩ := product_bounds a b
  have hpneg : (a.toInt64 * b.toInt64 < 0) ↔ a.toInt * b.toInt < 0 := by
    rw [← toInt_product]
    exact Int64.lt_iff_toInt_lt
  have hcneg : c < 0 ↔ c.toInt < 0 := Int32.lt_iff_toInt_lt
  obtain ⟨q, hq, hval⟩ := muldivAbs_spec
    (decide (a.toInt64 * b.toInt64 < 0) != decide (c < 0))
    (if a.toInt64 * b.toInt64 < 0 then -(a.toInt64 * b.toInt64)
      else a.toInt64 * b.toInt64).toUInt64
    (if c < 0 then -c else c).toUInt32
  refine ⟨q, hq, hval.trans ?_⟩
  rw [abs_toUInt64 (toInt_product a b) hlo hhi, abs_toUInt32, decide_eq_decide.mpr hpneg,
    decide_eq_decide.mpr hcneg]
  exact (muldivExact_eq ..).symm

/-- **The wide arithmetic is exact.** -/
theorem wide_arithmetic_exact :
    (∀ n : UInt64, IsGreatest {r : ℕ | r * r ≤ n.toNat} (mwIsqrt64 n).toNat) ∧
    ∀ a b c : Int32,
      ∃ q, mwMuldiv a b c = some q ∧ q.toInt = muldivExact a.toInt b.toInt c.toInt :=
  ⟨mwIsqrt64_isGreatest, mwMuldiv_spec⟩

end Sdk
