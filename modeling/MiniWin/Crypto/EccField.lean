import MiniWin.Crypto.Ecc
import MiniWin.Lib.Lucas
import MiniWin.Net.BignumSpec
import Mathlib.Algebra.Field.ZMod

/-!
# The arithmetic of the curves

Sums and differences of rows of limbs, with what goes over at the end, and Montgomery's product: a
pass of its outer loop takes in a limb of the second factor, adds the multiple of the modulus that
makes the lowest limb zero, and drops that limb. What is kept stays below twice the modulus
(`Half`), so that one subtraction at the end is enough.
-/

namespace Ecc

open Bignum (halves high_lt)
open Limbs

/-! ## Rows of limbs -/

theorem value_small {n : Nat} (hn : 0 < n) (v : UInt32) : value (small n v) = v.toNat := by
  obtain ⟨k, rfl⟩ := Nat.exists_eq_succ_of_ne_zero hn.ne'
  show value (v :: List.replicate k 0) = v.toNat
  rw [value_cons, value_replicate, Nat.mul_zero, Nat.add_zero]

theorem length_small (n : Nat) (v : UInt32) : (small n v).length = n := by
  rw [small, List.length_set, ecc_zero, List.length_replicate]

theorem toNat_low (s : UInt64) (h : s.toNat < 2 ^ 32) : s.toUInt32.toNat = s.toNat := by
  rw [UInt64.toNat_toUInt32]
  exact Nat.mod_eq_of_lt h

theorem value_addFrom (a b : Words) (c : UInt64) (h : a.length = b.length) (hc : c.toNat ≤ 1) :
    (addFrom a b c).1.length = a.length ∧ (addFrom a b c).2.toNat ≤ 1
      ∧ value (addFrom a b c).1 + 2 ^ (32 * a.length) * (addFrom a b c).2.toNat
        = value a + value b + c.toNat := by
  induction a generalizing b c with
  | nil =>
    have hlow := toNat_low c (by omega)
    refine ⟨rfl, ?_, ?_⟩
    · show c.toUInt32.toNat ≤ 1
      omega
    · obtain rfl : b = [] := List.length_eq_zero_iff.mp h.symm
      show 0 + 2 ^ 0 * c.toUInt32.toNat = 0 + 0 + c.toNat
      omega
  | cons x a ih =>
    obtain ⟨y, b, rfl⟩ : ∃ y b', b = y :: b' := List.exists_cons_of_length_eq_add_one h.symm
    obtain ⟨s, hs⟩ : ∃ s, x.toUInt64 + y.toUInt64 + c = s := ⟨_, rfl⟩
    have hval : s.toNat = x.toNat + y.toNat + c.toNat := by
      have := x.toNat_lt
      have := y.toNat_lt
      rw [← hs, UInt64.toNat_add, UInt64.toNat_add, UInt32.toNat_toUInt64, UInt32.toNat_toUInt64]
      omega
    have hsplit := halves s
    have hhigh : (s >>> 32).toNat ≤ 1 := by
      have := x.toNat_lt
      have := y.toNat_lt
      omega
    obtain ⟨hlen, hle, hsum⟩ := ih b (s >>> 32) (Nat.succ.inj h) hhigh
    unfold addFrom
    rw [hs]
    refine ⟨congrArg (· + 1) hlen, hle, ?_⟩
    rw [value_cons, value_cons, value_cons, List.length_cons, weight_succ]
    linarith

theorem value_subFrom (a b : Words) (br : UInt64) (h : a.length = b.length) (hbr : br.toNat ≤ 1) :
    (subFrom a b br).1.length = a.length ∧ (subFrom a b br).2.toNat ≤ 1
      ∧ value (subFrom a b br).1 + value b + br.toNat
        = value a + 2 ^ (32 * a.length) * (subFrom a b br).2.toNat := by
  induction a generalizing b br with
  | nil =>
    have hlow := toNat_low br (by omega)
    refine ⟨rfl, ?_, ?_⟩
    · show br.toUInt32.toNat ≤ 1
      omega
    · obtain rfl : b = [] := List.length_eq_zero_iff.mp h.symm
      show 0 + 0 + br.toNat = 0 + 2 ^ 0 * br.toUInt32.toNat
      omega
  | cons x a ih =>
    obtain ⟨y, b, rfl⟩ : ∃ y b', b = y :: b' := List.exists_cons_of_length_eq_add_one h.symm
    obtain ⟨d, hd⟩ : ∃ d, x.toUInt64 - y.toUInt64 - br = d := ⟨_, rfl⟩
    obtain ⟨w, hw⟩ : ∃ w, (d >>> 32) &&& 1 = w := ⟨_, rfl⟩
    -- what is below zero has come round, and its high half is odd
    have hval : w.toNat ≤ 1 ∧ d.toUInt32.toNat + y.toNat + br.toNat = x.toNat + 2 ^ 32 * w.toNat := by
      have hx := x.toNat_lt
      have hy := y.toNat_lt
      have hsub : d.toNat = (2 ^ 64 - br.toNat + (2 ^ 64 - y.toNat + x.toNat) % 2 ^ 64) % 2 ^ 64 := by
        rw [← hd, UInt64.toNat_sub, UInt64.toNat_sub, UInt32.toNat_toUInt64, UInt32.toNat_toUInt64]
      have hw1 : w.toNat = d.toNat / 2 ^ 32 % 2 := by
        rw [← hw, UInt64.toNat_and, UInt64.toNat_shiftRight, Nat.shiftRight_eq_div_pow]
        exact Nat.and_one_is_mod _
      rw [UInt64.toNat_toUInt32, hw1]
      omega
    obtain ⟨hlen, hle, hsum⟩ := ih b w (Nat.succ.inj h) hval.1
    unfold subFrom
    dsimp only
    rw [hd, hw]
    refine ⟨congrArg (· + 1) hlen, hle, ?_⟩
    rw [value_cons, value_cons, value_cons, List.length_cons, weight_succ]
    have hlimb := hval.2
    linarith

theorem value_mulAdd (b : UInt32) (t a : Words) (c : UInt64) (h : t.length = a.length)
    (hc : c.toNat < 2 ^ 32) :
    (mulAdd b t a c).1.length = t.length ∧ (mulAdd b t a c).2.toNat < 2 ^ 32
      ∧ value (mulAdd b t a c).1 + 2 ^ (32 * t.length) * (mulAdd b t a c).2.toNat
        = value t + value a * b.toNat + c.toNat := by
  induction t generalizing a c with
  | nil =>
    obtain rfl : a = [] := List.length_eq_zero_iff.mp h.symm
    refine ⟨rfl, hc, ?_⟩
    show 0 + 2 ^ 0 * c.toNat = 0 + 0 * b.toNat + c.toNat
    omega
  | cons x t ih =>
    obtain ⟨y, a, rfl⟩ : ∃ y a', a = y :: a' := List.exists_cons_of_length_eq_add_one h.symm
    obtain ⟨s, hs⟩ : ∃ s, x.toUInt64 + y.toUInt64 * b.toUInt64 + c = s := ⟨_, rfl⟩
    have hval : s.toNat = x.toNat + y.toNat * b.toNat + c.toNat := by
      have hy := Nat.le_pred_of_lt y.toNat_lt
      have hb := Nat.le_pred_of_lt b.toNat_lt
      have hmul : y.toNat * b.toNat ≤ (2 ^ 32 - 1) * (2 ^ 32 - 1) := Nat.mul_le_mul hy hb
      have := x.toNat_lt
      rw [← hs, UInt64.toNat_add, UInt64.toNat_add, UInt64.toNat_mul, UInt32.toNat_toUInt64,
        UInt32.toNat_toUInt64, UInt32.toNat_toUInt64]
      omega
    have hsplit := halves s
    obtain ⟨hlen, hlt, hsum⟩ := ih a (s >>> 32) (Nat.succ.inj h) (high_lt s)
    unfold mulAdd
    rw [hs]
    refine ⟨congrArg (· + 1) hlen, hlt, ?_⟩
    rw [value_cons, value_cons, value_cons, List.length_cons, weight_succ]
    linarith

/-- A difference that fits, or a borrow. -/
theorem sub_raw_cases {a b : Words} (h : a.length = b.length) :
    (ecc_sub_raw a b).1.length = a.length
      ∧ ((ecc_sub_raw a b).2 = 0 ∧ value (ecc_sub_raw a b).1 + value b = value a
        ∨ (ecc_sub_raw a b).2 ≠ 0
          ∧ value (ecc_sub_raw a b).1 + value b = value a + 2 ^ (32 * a.length)) := by
  obtain ⟨hlen, hle, hval⟩ := value_subFrom a b 0 h (Nat.zero_le 1)
  rw [show (0 : UInt64).toNat = 0 from rfl, Nat.add_zero] at hval
  refine ⟨hlen, ?_⟩
  obtain ⟨w, hw⟩ : ∃ w, (subFrom a b 0).2 = w := ⟨_, rfl⟩
  unfold ecc_sub_raw
  rw [hw] at hle hval ⊢
  by_cases h0 : w = 0
  · subst h0
    exact .inl ⟨rfl, hval⟩
  · have hone : w.toNat = 1 := by
      have : w.toNat ≠ 0 := fun hz => h0 (UInt32.toNat_inj.mp hz)
      omega
    rw [hone, Nat.mul_one] at hval
    exact .inr ⟨h0, hval⟩

/-- **One subtraction** brings what is below twice the modulus below it. -/
theorem reduce {t m : Words} {hi : UInt32} {n : Nat} (htn : t.length = n) (hmn : m.length = n)
    (hlt : value t + 2 ^ (32 * n) * hi.toNat < 2 * value m) {r : Words}
    (hr : (if hi ≠ 0 ∨ (ecc_sub_raw t m).2 = 0 then (ecc_sub_raw t m).1 else t) = r) :
    r.length = n ∧ value r < value m
      ∧ (value r = value t + 2 ^ (32 * n) * hi.toNat
        ∨ value r + value m = value t + 2 ^ (32 * n) * hi.toNat) := by
  subst htn
  have h : t.length = m.length := hmn.symm
  obtain ⟨hlen, hcases⟩ := sub_raw_cases h
  have ht := value_lt t
  have hm : value m < 2 ^ (32 * t.length) := h ▸ value_lt m
  have htmp : value (ecc_sub_raw t m).1 < 2 ^ (32 * t.length) := hlen ▸ value_lt _
  generalize 2 ^ (32 * t.length) = R at *
  by_cases h0 : hi = 0
  · subst h0
    rw [show (0 : UInt32).toNat = 0 from rfl, Nat.mul_zero, Nat.add_zero] at hlt ⊢
    rcases hcases with ⟨hb, hval⟩ | ⟨hb, hval⟩
    · rw [if_pos (.inr hb)] at hr
      subst hr
      exact ⟨hlen, by omega, .inr hval⟩
    · rw [if_neg (by simp [hb])] at hr
      subst hr
      exact ⟨rfl, by omega, .inl rfl⟩
  · rw [if_pos (.inl h0)] at hr
    subst hr
    have hpos : hi.toNat ≠ 0 := fun hz => h0 (UInt32.toNat_inj.mp hz)
    have hone : hi.toNat = 1 := by
      by_contra hne
      have htwo : R * 2 ≤ R * hi.toNat := Nat.mul_le_mul_left R (by omega)
      omega
    rw [hone, Nat.mul_one] at hlt ⊢
    rcases hcases with ⟨hb, hval⟩ | ⟨hb, hval⟩
    · omega
    · exact ⟨hlen, by omega, .inr hval⟩

/-! ## A modulus -/

/-- What the modulus and what is derived from it have to be. -/
structure Field.Good (f : Field) : Prop where
  width : f.m.length = f.n
  rr_width : f.rr.length = f.n
  pos : 0 < f.n
  prime : (value f.m).Prime
  two_lt : 2 < value f.m
  m0 : f.m0 * f.m.headD 0 + 1 = 0
  rr : value f.rr = 2 ^ (64 * f.n) % value f.m

/-- What the product needs of it: an odd modulus with the multiplier that belongs to it. -/
structure Field.Fits (f : Field) : Prop where
  width : f.m.length = f.n
  pos : 0 < f.n
  m0 : f.m0 * f.m.headD 0 + 1 = 0

theorem Field.Good.fits {f : Field} (h : f.Good) : f.Fits := ⟨h.width, h.pos, h.m0⟩

/-- What has a multiplier is not zero. -/
theorem Field.Fits.value_pos {f : Field} (h : f.Fits) : 0 < value f.m := by
  obtain ⟨y, ys, hy⟩ : ∃ y ys, f.m = y :: ys :=
    List.exists_cons_of_length_pos (by rw [h.width]; exact h.pos)
  have hm0 := h.m0
  rw [hy, value_cons]
  rw [hy, List.headD_cons] at hm0
  rcases Nat.eq_zero_or_pos y.toNat with hz | hpos
  · rw [UInt32.toNat_inj.mp (hz.trans UInt32.toNat_zero.symm), UInt32.mul_zero] at hm0
    exact absurd hm0 (by decide)
  · exact Nat.lt_of_lt_of_le hpos (Nat.le_add_right _ _)

/-- What is kept between the passes of the outer loop. -/
structure Half (f : Field) (t : Words × UInt32) (v : Nat) : Prop where
  width : t.1.length = f.n
  value : value t.1 + 2 ^ (32 * f.n) * t.2.toNat = v
  lt : v < 2 * Limbs.value f.m

/-- The multiple of the modulus makes the lowest limb zero. -/
theorem low_zero {t m m0 : UInt32} (h : m0 * m + 1 = 0) :
    ∃ c, c < 2 ^ 32 ∧ t.toNat + (t * m0).toNat * m.toNat = 2 ^ 32 * c
      ∧ ((t.toUInt64 + (t * m0).toUInt64 * m.toUInt64) >>> 32).toNat = c := by
  have hzero : t + t * m0 * m = 0 := by
    calc t + t * m0 * m = t * (m0 * m + 1) := by
          rw [UInt32.mul_add, UInt32.mul_one, UInt32.mul_assoc, UInt32.add_comm]
      _ = 0 := by rw [h, UInt32.mul_zero]
  obtain ⟨q, hq⟩ : ∃ q, t * m0 = q := ⟨_, rfl⟩
  rw [hq] at hzero ⊢
  have ht := t.toNat_lt
  have hmul : q.toNat * m.toNat ≤ (2 ^ 32 - 1) * (2 ^ 32 - 1) :=
    Nat.mul_le_mul (Nat.le_pred_of_lt q.toNat_lt) (Nat.le_pred_of_lt m.toNat_lt)
  have hmod : (t.toNat + q.toNat * m.toNat) % 2 ^ 32 = 0 := by
    have := congrArg UInt32.toNat hzero
    rw [UInt32.toNat_add, UInt32.toNat_mul, Nat.add_mod_mod] at this
    exact this
  refine ⟨(t.toNat + q.toNat * m.toNat) / 2 ^ 32, by omega, by omega, ?_⟩
  rw [UInt64.toNat_shiftRight, Nat.shiftRight_eq_div_pow, UInt64.toNat_add, UInt64.toNat_mul,
    UInt32.toNat_toUInt64, UInt32.toNat_toUInt64, UInt32.toNat_toUInt64, Nat.add_mod_mod,
    Nat.mod_eq_of_lt (by omega)]
  rfl

/-- **A pass of the outer loop** takes in a limb. -/
theorem Half.round {f : Field} (hf : f.Fits) {a : Words} (ha : a.length = f.n)
    (hlt : Limbs.value a < Limbs.value f.m) {t : Words × UInt32} {v : Nat} (h : Half f t v)
    (b : UInt32) :
    ∃ v' q, Half f (mmRound f a t b) v'
      ∧ 2 ^ 32 * v' = v + Limbs.value a * b.toNat + q * Limbs.value f.m := by
  obtain ⟨hwidth, hval, hhalf⟩ := h
  obtain ⟨hlen0, hc, hsum0⟩ := value_mulAdd b t.1 a 0 (hwidth.trans ha.symm) (by decide)
  obtain ⟨t0, ht0⟩ : ∃ t0, mulAdd b t.1 a 0 = t0 := ⟨_, rfl⟩
  rw [ht0] at hlen0 hc hsum0
  have hpos := hf.pos
  obtain ⟨x, xs, hx⟩ : ∃ x xs, t0.1 = x :: xs := List.exists_cons_of_length_pos (by omega)
  obtain ⟨y, ys, hy⟩ : ∃ y ys, f.m = y :: ys :=
    List.exists_cons_of_length_pos (by rw [hf.width]; exact hpos)
  have hm0 := hf.m0
  rw [hy, List.headD_cons] at hm0
  obtain ⟨c1, hc1, hlow, hshift⟩ := low_zero (t := x) hm0
  have hxs : xs.length + 1 = f.n := by
    rw [← hwidth, ← hlen0, hx, List.length_cons]
  have hys : ys.length + 1 = f.n := by
    rw [← hf.width, hy, List.length_cons]
  obtain ⟨hlen1, hc2, hsum1⟩ := value_mulAdd (x * f.m0) xs ys
    ((x.toUInt64 + (x * f.m0).toUInt64 * y.toUInt64) >>> 32) (by omega) (by rw [hshift]; exact hc1)
  obtain ⟨t1, ht1⟩ : ∃ t1, mulAdd (x * f.m0) xs ys
    ((x.toUInt64 + (x * f.m0).toUInt64 * y.toUInt64) >>> 32) = t1 := ⟨_, rfl⟩
  rw [ht1] at hlen1 hc2 hsum1
  rw [hshift] at hsum1
  obtain ⟨s, hs⟩ : ∃ s, t.2.toUInt64 + t0.2 = s := ⟨_, rfl⟩
  obtain ⟨u, hu⟩ : ∃ u, s.toUInt32.toUInt64 + t1.2 = u := ⟨_, rfl⟩
  have hsval : s.toNat = t.2.toNat + t0.2.toNat := by
    have := t.2.toNat_lt
    rw [← hs, UInt64.toNat_add, UInt32.toNat_toUInt64]
    omega
  have huval : u.toNat = s.toUInt32.toNat + t1.2.toNat := by
    have := s.toUInt32.toNat_lt
    rw [← hu, UInt64.toNat_add, UInt32.toNat_toUInt64]
    omega
  have hssplit := halves s
  have husplit := halves u
  have hshigh := toNat_low _ (high_lt s)
  have huhigh := toNat_low _ (high_lt u)
  have hround : mmRound f a t b
      = (t1.1 ++ [u.toUInt32], (s >>> 32).toUInt32 + (u >>> 32).toUInt32) := by
    unfold mmRound
    dsimp only
    rw [ht0, hx, hy, List.headD_cons, List.headD_cons, List.tail_cons, List.tail_cons, ht1, hs, hu]
  obtain ⟨k, hk⟩ : ∃ k, xs.length = k := ⟨_, rfl⟩
  obtain ⟨q, hq⟩ : ∃ q, (x * f.m0).toNat = q := ⟨_, rfl⟩
  have hn : f.n = k + 1 := by omega
  rw [hq] at hlow hsum1
  rw [hx, hwidth, value_cons, hn, weight_succ, show (0 : UInt64).toNat = 0 from rfl,
    Nat.add_zero] at hsum0
  rw [hk] at hsum1 hlen1
  rw [hn, weight_succ] at hval
  have hm : Limbs.value f.m = y.toNat + 2 ^ 32 * Limbs.value ys := by
    rw [hy, value_cons]
  have hfull : Limbs.value f.m < 2 ^ 32 * 2 ^ (32 * k) := by
    rw [← weight_succ, ← hn, ← hf.width]
    exact value_lt f.m
  obtain ⟨v', hv'⟩ : ∃ v', Limbs.value t1.1 + 2 ^ (32 * k) * u.toUInt32.toNat
    + 2 ^ 32 * 2 ^ (32 * k) * ((s >>> 32).toNat + (u >>> 32).toNat) = v' := ⟨_, rfl⟩
  have hmain : 2 ^ 32 * v' = v + Limbs.value a * b.toNat + q * Limbs.value f.m := by
    rw [← hv']
    zify at *
    linear_combination 2 ^ 32 * hsum1 + 2 ^ 32 * 2 ^ (32 * k) * (husplit + huval)
      + 2 ^ 32 * 2 ^ (32 * k) * (hssplit + hsval) + hsum0 + hval - q * hm - hlow
  have hbound : v' < 2 * Limbs.value f.m := by
    have hab : Limbs.value a * b.toNat ≤ (Limbs.value f.m - 1) * (2 ^ 32 - 1) :=
      Nat.mul_le_mul (by omega) (Nat.le_pred_of_lt b.toNat_lt)
    have hqm : q * Limbs.value f.m ≤ (2 ^ 32 - 1) * Limbs.value f.m :=
      Nat.mul_le_mul_right _ (hq ▸ Nat.le_pred_of_lt (x * f.m0).toNat_lt)
    omega
  have hcarry : (s >>> 32).toNat + (u >>> 32).toNat < 2 := by
    by_contra hge
    have htwo : 2 ^ 32 * 2 ^ (32 * k) * 2
        ≤ 2 ^ 32 * 2 ^ (32 * k) * ((s >>> 32).toNat + (u >>> 32).toNat) :=
      Nat.mul_le_mul_left _ (by omega)
    omega
  refine ⟨v', q, ⟨?_, ?_, hbound⟩, hmain⟩
  · rw [hround, List.length_append, hlen1, List.length_singleton, hn]
  · have hhi : ((s >>> 32).toUInt32 + (u >>> 32).toUInt32).toNat
        = (s >>> 32).toNat + (u >>> 32).toNat := by
      rw [UInt32.toNat_add, hshigh, huhigh]
      exact Nat.mod_eq_of_lt (by omega)
    rw [hround]
    rw [hhi, value_append, hlen1, value_cons, value_nil, Nat.mul_zero, Nat.add_zero, hn,
      weight_succ]
    exact hv'

/-- **The passes** take in the limbs of the second factor. -/
theorem Half.loop {f : Field} (hf : f.Fits) {a : Words} (ha : a.length = f.n)
    (hlt : Limbs.value a < Limbs.value f.m) (b : Words) {t : Words × UInt32} {v : Nat}
    (h : Half f t v) :
    ∃ v' q, Half f (b.foldl (mmRound f a) t) v'
      ∧ 2 ^ (32 * b.length) * v' = v + Limbs.value a * Limbs.value b + q * Limbs.value f.m := by
  induction b generalizing t v with
  | nil =>
    refine ⟨v, 0, h, ?_⟩
    rw [List.length_nil, value_nil, Nat.mul_zero, Nat.mul_zero, Nat.zero_mul, Nat.pow_zero,
      Nat.one_mul]
    rfl
  | cons x b ih =>
    obtain ⟨v₁, q₁, h₁, hval₁⟩ := h.round hf ha hlt x
    obtain ⟨v₂, q₂, h₂, hval₂⟩ := ih h₁
    refine ⟨v₂, q₁ + 2 ^ 32 * q₂, h₂, ?_⟩
    rw [List.length_cons, weight_succ, value_cons, Nat.mul_assoc, hval₂]
    linarith

/-- **Montgomery's product.** -/
theorem mm_eq {f : Field} (hf : f.Fits) {a b : Words} (ha : a.length = f.n)
    (hlt : value a < value f.m) (hb : b.length = f.n) :
    (ecc_mm f a b).length = f.n ∧ value (ecc_mm f a b) < value f.m
      ∧ (value (ecc_mm f a b) : ZMod (value f.m)) * 2 ^ (32 * f.n) = value a * value b := by
  have hstart : Half f (ecc_zero f.n, 0) 0 := by
    refine ⟨List.length_replicate, ?_, Nat.mul_pos two_pos hf.value_pos⟩
    show value (List.replicate f.n 0) + 2 ^ (32 * f.n) * 0 = 0
    rw [value_replicate, Nat.mul_zero]
  obtain ⟨v, q, ⟨hwidth, hval, hhalf⟩, hmain⟩ := hstart.loop hf ha hlt b
  rw [← hval] at hhalf
  obtain ⟨hlen, hred, hcases⟩ := reduce hwidth hf.width hhalf rfl
  rw [hval] at hcases
  have hcast : (value (ecc_mm f a b) : ZMod (value f.m)) = v := by
    rcases hcases with h | h
    · exact congrArg Nat.cast h
    · rw [← h, Nat.cast_add, ZMod.natCast_self, add_zero]
      rfl
  refine ⟨hlen, hred, ?_⟩
  have hmul := congrArg (Nat.cast : Nat → ZMod (value f.m)) hmain
  push_cast at hmul
  rw [ZMod.natCast_self, mul_zero, add_zero, zero_add, hb] at hmul
  rw [hcast, mul_comm, hmul]

/-- **A sum** below the modulus. -/
theorem ma_eq {f : Field} (hm : f.m.length = f.n) {a b : Words} (ha : a.length = f.n)
    (hb : b.length = f.n) (halt : value a < value f.m) (hblt : value b < value f.m) :
    (ecc_ma f a b).length = f.n ∧ value (ecc_ma f a b) < value f.m
      ∧ (value (ecc_ma f a b) : ZMod (value f.m)) = value a + value b := by
  obtain ⟨hlen, hle, hval⟩ := value_addFrom a b 0 (ha.trans hb.symm) (Nat.zero_le 1)
  rw [show (0 : UInt64).toNat = 0 from rfl, Nat.add_zero] at hval
  rw [ha] at hlen hval
  have hlt : value (addFrom a b 0).1 + 2 ^ (32 * f.n) * (addFrom a b 0).2.toNat
      < 2 * value f.m := by
    rw [hval]
    omega
  obtain ⟨hlen', hred, hcases⟩ := reduce hlen hm hlt rfl
  rw [hval] at hcases
  refine ⟨hlen', hred, ?_⟩
  rw [← Nat.cast_add]
  rcases hcases with h | h
  · exact congrArg Nat.cast h
  · rw [← h, Nat.cast_add, ZMod.natCast_self, add_zero]
    rfl

/-- **A difference** below the modulus. -/
theorem ms_eq {f : Field} (hm : f.m.length = f.n) {a b : Words} (ha : a.length = f.n)
    (hb : b.length = f.n) (halt : value a < value f.m) (hblt : value b < value f.m) :
    (ecc_ms f a b).length = f.n ∧ value (ecc_ms f a b) < value f.m
      ∧ (value (ecc_ms f a b) : ZMod (value f.m)) = value a - value b := by
  obtain ⟨hlen, hcases⟩ := sub_raw_cases (ha.trans hb.symm)
  rw [ha] at hlen hcases
  have hcast : ∀ r : Words, r.length = f.n → value r < value f.m
      → (value r + value b = value a ∨ value r + value b = value a + value f.m)
      → r.length = f.n ∧ value r < value f.m
        ∧ (value r : ZMod (value f.m)) = value a - value b := by
    intro r hr hlt hor
    refine ⟨hr, hlt, ?_⟩
    rw [eq_sub_iff_add_eq, ← Nat.cast_add]
    rcases hor with h | h
    · rw [h]
    · rw [h, Nat.cast_add, ZMod.natCast_self, add_zero]
  unfold ecc_ms
  dsimp only
  rcases hcases with ⟨hb0, hval⟩ | ⟨hb0, hval⟩
  · rw [if_neg (not_not.mpr hb0)]
    exact hcast _ hlen (by omega) (.inl hval)
  · rw [if_pos hb0]
    -- adding the modulus takes the borrow back
    obtain ⟨hlen', hle, hadd⟩ := value_addFrom (ecc_sub_raw a b).1 f.m 0
      (hlen.trans hm.symm) (Nat.zero_le 1)
    rw [show (0 : UInt64).toNat = 0 from rfl, Nat.add_zero, hlen] at hadd
    have hres : value (addFrom (ecc_sub_raw a b).1 f.m 0).1 < 2 ^ (32 * f.n) := by
      have := value_lt (addFrom (ecc_sub_raw a b).1 f.m 0).1
      rwa [hlen', hlen] at this
    have hdiff : value (ecc_sub_raw a b).1 < 2 ^ (32 * f.n) := by
      have := value_lt (ecc_sub_raw a b).1
      rwa [hlen] at this
    have hone : (addFrom (ecc_sub_raw a b).1 f.m 0).2.toNat = 1 := by
      by_contra hne
      have hz : (addFrom (ecc_sub_raw a b).1 f.m 0).2.toNat = 0 := by omega
      rw [hz, Nat.mul_zero] at hadd
      omega
    rw [hone, Nat.mul_one] at hadd
    unfold ecc_add_raw
    exact hcast _ (hlen'.trans hlen) (by omega) (.inr (by omega))

/-! ## What an array stands for -/

/-- A number below the modulus, times Montgomery's factor. -/
structure Stands (f : Field) (a : Words) (x : ZMod (value f.m)) : Prop where
  width : a.length = f.n
  lt : value a < value f.m
  cast : (value a : ZMod (value f.m)) = x * 2 ^ (32 * f.n)

section
variable {f : Field} {a b : Words} {x y : ZMod (value f.m)}

/-- Montgomery's factor has an inverse. -/
theorem factor_ne_zero (hf : f.Good) : (2 ^ (32 * f.n) : ZMod (value f.m)) ≠ 0 := by
  have := Fact.mk hf.prime
  refine pow_ne_zero _ fun h => ?_
  have hdvd : value f.m ∣ 2 := (ZMod.natCast_eq_zero_iff 2 _).mp h
  exact absurd (Nat.le_of_dvd two_pos hdvd) (Nat.not_le.mpr hf.two_lt)

theorem Stands.mm (hf : f.Good) (ha : Stands f a x) (hb : Stands f b y) :
    Stands f (ecc_mm f a b) (x * y) := by
  have := Fact.mk hf.prime
  obtain ⟨hlen, hlt, hcast⟩ := mm_eq hf.fits ha.width ha.lt hb.width
  refine ⟨hlen, hlt, mul_right_cancel₀ (factor_ne_zero hf) ?_⟩
  rw [hcast, ha.cast, hb.cast]
  ring

theorem Stands.ma (hf : f.Good) (ha : Stands f a x) (hb : Stands f b y) :
    Stands f (ecc_ma f a b) (x + y) := by
  obtain ⟨hlen, hred, hcast⟩ := ma_eq hf.width ha.width hb.width ha.lt hb.lt
  refine ⟨hlen, hred, ?_⟩
  rw [hcast, ha.cast, hb.cast, add_mul]

theorem Stands.ms (hf : f.Good) (ha : Stands f a x) (hb : Stands f b y) :
    Stands f (ecc_ms f a b) (x - y) := by
  obtain ⟨hlen, hred, hcast⟩ := ms_eq hf.width ha.width hb.width ha.lt hb.lt
  refine ⟨hlen, hred, ?_⟩
  rw [hcast, ha.cast, hb.cast, sub_mul]

theorem Stands.congr (h : Stands f a x) (hxy : x = y) : Stands f a y := hxy ▸ h

/-- A number comes in. -/
theorem Stands.to_mont (hf : f.Good) (ha : a.length = f.n) (hlt : value a < value f.m) :
    Stands f (ecc_to_mont f a) (value a) := by
  have := Fact.mk hf.prime
  obtain ⟨hlen, hred, hcast⟩ := mm_eq hf.fits ha hlt hf.rr_width
  refine ⟨hlen, hred, mul_right_cancel₀ (factor_ne_zero hf) ?_⟩
  have hrr : (value f.rr : ZMod (value f.m)) = 2 ^ (32 * f.n) * 2 ^ (32 * f.n) := by
    rw [hf.rr, ZMod.natCast_mod, Nat.cast_pow, ← pow_add]
    congr 1
    omega
  refine hcast.trans ?_
  rw [hrr]
  ring

/-- A number goes out. -/
theorem Stands.from_mont (hf : f.Good) (ha : Stands f a x) :
    (ecc_from_mont f a).length = f.n ∧ value (ecc_from_mont f a) = x.val := by
  have := Fact.mk hf.prime
  obtain ⟨hlen, hred, hcast⟩ := mm_eq hf.fits ha.width ha.lt (length_small f.n 1)
  refine ⟨hlen, ?_⟩
  rw [value_small hf.pos, show (1 : UInt32).toNat = 1 from rfl, Nat.cast_one, mul_one,
    ha.cast] at hcast
  have hval := mul_right_cancel₀ (factor_ne_zero hf) hcast
  rw [← hval]
  exact (ZMod.val_cast_of_lt hred).symm

theorem Stands.eq_iff (hf : f.Good) (ha : Stands f a x) (hb : Stands f b y) :
    value a = value b ↔ x = y := by
  have := Fact.mk hf.prime
  constructor
  · intro h
    refine mul_right_cancel₀ (factor_ne_zero hf) ?_
    rw [← ha.cast, ← hb.cast, h]
  · rintro rfl
    have hcast : (value a : ZMod (value f.m)) = value b := ha.cast.trans hb.cast.symm
    rw [ZMod.natCast_eq_natCast_iff', Nat.mod_eq_of_lt ha.lt, Nat.mod_eq_of_lt hb.lt] at hcast
    exact hcast

/-- A row of limbs is zero where all of them are. -/
theorem is_zero_iff (a : Words) : ecc_is_zero a = true ↔ value a = 0 := by
  have hfold (v : UInt32) : a.foldl (· ||| ·) v = 0 ↔ v = 0 ∧ value a = 0 := by
    induction a generalizing v with
    | nil => exact (and_iff_left rfl).symm
    | cons x a ih =>
      have hx : x = 0 ↔ x.toNat = 0 := by
        rw [← UInt32.toNat_inj]
        rfl
      rw [List.foldl_cons, ih, UInt32.or_eq_zero_iff, value_cons, hx, and_assoc]
      refine and_congr_right fun _ => ?_
      omega
  rw [ecc_is_zero, beq_iff_eq, hfold]
  exact and_iff_right rfl

theorem Stands.is_zero (hf : f.Good) (ha : Stands f a x) : ecc_is_zero a = true ↔ x = 0 := by
  have hzero : Stands f (ecc_zero f.n) 0 := by
    refine ⟨List.length_replicate, ?_, ?_⟩
    · rw [ecc_zero, value_replicate]
      exact hf.prime.pos
    · rw [ecc_zero, value_replicate, Nat.cast_zero, zero_mul]
  rw [is_zero_iff, ← ha.eq_iff hf hzero, ecc_zero, value_replicate]

/-- A comparison of all limbs. -/
theorem cmp_eq {n : Nat} (ha : a.length = n) (hb : b.length = n) :
    ecc_cmp a b n = compare (value a) (value b) := by
  rw [ecc_cmp, Bignum.cmpFrom_eq, List.take_of_length_le ha.le, List.take_of_length_le hb.le]

/-! ## Inverses -/

/-- The bit of a number. -/
theorem bit_eq (e : Words) (i : Nat) : bit e i = ((value e).testBit i).toUInt32 := by
  have hmod : (i % 32).toUInt32.toNat % 32 = i % 32 := by
    show i % 32 % 2 ^ 32 % 32 = i % 32
    omega
  have hbool (c : Bool) : c.toUInt32.toNat = c.toNat := by
    cases c <;> rfl
  refine UInt32.toNat_inj.mp ?_
  unfold bit
  rw [hbool, testBit_value, Nat.toNat_testBit, UInt32.toNat_and, UInt32.toNat_shiftRight, hmod,
    Nat.shiftRight_eq_div_pow]
  exact Nat.and_one_is_mod _

theorem bit_ne_zero_iff (e : Words) (i : Nat) : bit e i ≠ 0 ↔ (value e).testBit i = true := by
  rw [bit_eq]
  cases (value e).testBit i <;> decide

/-- **The inverse**, by Fermat. -/
theorem Stands.minv (hf : f.Good) (ha : Stands f a x) {one : Words} (hone : Stands f one 1) :
    Stands f (ecc_minv f a one) x⁻¹ := by
  have := Fact.mk hf.prime
  have htwo : value (small f.n 2) = 2 := value_small hf.pos 2
  obtain ⟨hlen, hcases⟩ := sub_raw_cases (a := f.m) (b := small f.n 2)
    (hf.width.trans (length_small f.n 2).symm)
  have he : value (ecc_sub_raw f.m (small f.n 2)).1 = value f.m - 2 := by
    have hlt := hf.two_lt
    have hfit : value (ecc_sub_raw f.m (small f.n 2)).1 < 2 ^ (32 * f.m.length) := hlen ▸ value_lt _
    rw [htwo] at hcases
    omega
  obtain ⟨e, hsub⟩ : ∃ e, (ecc_sub_raw f.m (small f.n 2)).1 = e := ⟨_, rfl⟩
  rw [hsub] at he hlen
  have hbits : value e < 2 ^ (f.n * 32) := by
    rw [Nat.mul_comm, ← hf.width, ← hlen]
    exact value_lt e
  have hend := countdown_inv (f := minvRound f a e) (n := f.n * 32) (a := one)
    (fun i acc => Stands f acc (x ^ (value e / 2 ^ i))) (fun i acc _ hacc => ?_) ?_
  · rw [Nat.pow_zero, Nat.div_one, he, Lucas.pow_sub_two hf.two_lt] at hend
    unfold ecc_minv
    rw [hsub]
    exact hend
  · have hsplit : value e / 2 ^ i = 2 * (value e / 2 ^ (i + 1)) + ((value e).testBit i).toNat := by
      rw [Nat.toNat_testBit, Nat.pow_succ, ← Nat.div_div_eq_div_mul, Nat.div_add_mod]
    have hsq := hacc.mm hf hacc
    rw [← pow_add, ← Nat.two_mul] at hsq
    unfold minvRound
    rw [hsplit]
    simp only [bit_ne_zero_iff]
    cases (value e).testBit i with
    | true =>
      rw [if_pos rfl, Bool.toNat_true, pow_succ]
      exact hsq.mm hf ha
    | false =>
      rw [if_neg Bool.false_ne_true, Bool.toNat_false, Nat.add_zero]
      exact hsq
  · rw [Nat.div_eq_of_lt hbits, pow_zero]
    exact hone

end

/-! ## What is derived from a modulus -/

/-- A doubling below the modulus. -/
theorem value_rrRound {m x : Words} (h : x.length = m.length) (hlt : value x < value m) :
    (rrRound m x).length = m.length ∧ value (rrRound m x) = 2 * value x % value m := by
  obtain ⟨hlen, hle, hval⟩ := value_addFrom x x 0 rfl (Nat.zero_le 1)
  rw [show (0 : UInt64).toNat = 0 from rfl, Nat.add_zero, h] at hval
  rw [h] at hlen
  have hhalf : value (addFrom x x 0).1 + 2 ^ (32 * m.length) * (addFrom x x 0).2.toNat
      < 2 * value m := by omega
  obtain ⟨hlen', hred, hcases⟩ := reduce hlen rfl hhalf rfl
  rw [hval, ← Nat.two_mul] at hcases
  refine ⟨hlen', ?_⟩
  have hmod : value (rrRound m x) % value m = 2 * value x % value m := by
    rcases hcases with hc | hc
    · exact congrArg (· % value m) hc
    · rw [← hc, Nat.add_mod_right]
      rfl
  rw [← hmod]
  exact (Nat.mod_eq_of_lt hred).symm

/-- What so many doublings have made, and what is taken halfway. -/
structure Doubled (m : Words) (n k : Nat) (s : Words × Words) : Prop where
  width : s.1.length = n
  value : Limbs.value s.1 = 2 ^ k % Limbs.value m
  half : 32 * n ≤ k → s.2.length = n ∧ Limbs.value s.2 = 2 ^ (32 * n) % Limbs.value m

theorem Doubled.step {m : Words} {n k : Nat} {s : Words × Words} (hm : m.length = n)
    (hpos : 0 < Limbs.value m) (h : Doubled m n k s) :
    Doubled m n (k + 1) (rrRound m s.1, if k = 32 * n - 1 then rrRound m s.1 else s.2) := by
  obtain ⟨hlen, hval⟩ := value_rrRound (h.width.trans hm.symm) (h.value ▸ Nat.mod_lt _ hpos)
  rw [h.value, Nat.mul_mod_mod, ← Nat.pow_succ'] at hval
  refine ⟨hlen.trans hm, hval, fun hk => ?_⟩
  by_cases hlast : k = 32 * n - 1
  · rw [if_pos hlast]
    refine ⟨hlen.trans hm, ?_⟩
    rcases Nat.eq_zero_or_pos n with rfl | hn
    · obtain rfl : m = [] := List.length_eq_zero_iff.mp hm
      exact absurd hpos (Nat.lt_irrefl 0)
    · rw [hval, show k.succ = 32 * n by omega]
  · rw [if_neg hlast]
    exact h.half (by omega)

/-- So many rounds. -/
def doublings (m : Words) (n k : Nat) : Words × Words :=
  (List.range k).foldl
    (fun s i => (rrRound m s.1, if i = 32 * n - 1 then rrRound m s.1 else s.2))
    (small n 1, ecc_zero n)

theorem doublings_succ (m : Words) (n k : Nat) :
    doublings m n (k + 1) = (rrRound m (doublings m n k).1,
      if k = 32 * n - 1 then rrRound m (doublings m n k).1 else (doublings m n k).2) := by
  unfold doublings
  rw [List.range_succ, List.foldl_append, List.foldl_cons, List.foldl_nil]

/-- **The powers of two** below the modulus: all of them, and the one halfway. -/
theorem doublings_eq {m : Words} {n : Nat} (hm : m.length = n) (hn : 0 < n) (hone : 1 < value m)
    (k : Nat) : Doubled m n k (doublings m n k) := by
  induction k with
  | zero =>
    refine ⟨length_small n 1, ?_, fun h => by omega⟩
    rw [Nat.pow_zero, Nat.mod_eq_of_lt hone]
    exact value_small hn 1
  | succ k ih =>
    rw [doublings_succ]
    exact ih.step hm (Nat.lt_trans Nat.zero_lt_one hone)

theorem compute_rr_eq {m : Words} {n : Nat} (hm : m.length = n) (hn : 0 < n) (hone : 1 < value m) :
    Doubled m n (64 * n) (ecc_compute_rr m n) := doublings_eq hm hn hone (64 * n)

end Ecc
