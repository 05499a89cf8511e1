import MiniWin.Lib.BigEndian
import MiniWin.Net.Bignum
import Mathlib.Data.Nat.Bitwise
import Mathlib.Data.Nat.Size

/-!
# The arithmetic of big numbers

What each function of `Bignum` does to the numbers that the limbs are. A sum and a difference carry
from limb to limb, a product adds up its rows, and a remainder takes in one bit of the dividend
after another: what has been read is below the modulus before, so that a limb more than the modulus
has is enough for it. A power reads its exponent in the same way.
-/

namespace Bignum
open Limbs

variable {n : Nat}

/-- The two halves of a double limb. -/
theorem halves (p : UInt64) : p.toUInt32.toNat + 2 ^ 32 * (p >>> 32).toNat = p.toNat := by
  rw [UInt64.toNat_toUInt32, UInt64.toNat_shiftRight, Nat.shiftRight_eq_div_pow]
  exact Nat.mod_add_div _ _

theorem high_lt (p : UInt64) : (p >>> 32).toNat < 2 ^ 32 := by
  rw [UInt64.toNat_shiftRight, Nat.shiftRight_eq_div_pow]
  exact Nat.div_lt_of_lt_mul p.toNat_lt

/-- **A sum**, up to what the highest limb carries over. -/
theorem value_addLimbs (a b : List UInt32) (carry : UInt32) (h : a.length = b.length) :
    value (addLimbs a b carry)
      = (value a + value b + carry.toNat) % 2 ^ (32 * a.length) := by
  induction a generalizing b carry with
  | nil =>
    show 0 = _ % 1
    rw [Nat.mod_one]
  | cons x a ih =>
    obtain ⟨y, b, rfl⟩ : ∃ y b', b = y :: b' := List.exists_cons_of_length_eq_add_one h.symm
    obtain ⟨sum, hsum⟩ : ∃ sum, x.toUInt64 + y.toUInt64 + carry.toUInt64 = sum := ⟨_, rfl⟩
    have hval : sum.toNat = x.toNat + y.toNat + carry.toNat := by
      have := x.toNat_lt
      have := y.toNat_lt
      have := carry.toNat_lt
      rw [← hsum, UInt64.toNat_add, UInt64.toNat_add, UInt32.toNat_toUInt64, UInt32.toNat_toUInt64,
        UInt32.toNat_toUInt64]
      omega
    have hcarry : ((sum >>> 32).toUInt32).toNat = (sum >>> 32).toNat := by
      rw [UInt64.toNat_toUInt32]
      exact Nat.mod_eq_of_lt (high_lt sum)
    have hsplit := halves sum
    unfold addLimbs
    dsimp only
    rw [hsum, value_cons, ih b _ (Nat.succ.inj h), hcarry, List.length_cons, weight_succ,
      value_cons, value_cons]
    have hlow := sum.toUInt32.toNat_lt
    rw [show x.toNat + 2 ^ 32 * value a + (y.toNat + 2 ^ 32 * value b) + carry.toNat
      = sum.toUInt32.toNat + 2 ^ 32 * (value a + value b + (sum >>> 32).toNat) by omega,
      Nat.mod_mul, Nat.add_mul_mod_self_left, Nat.mod_eq_of_lt hlow,
      Nat.add_mul_div_left _ _ (by decide), Nat.div_eq_of_lt hlow, Nat.zero_add]

theorem toNat_ofInt {z : Int} {v : Nat} (h : z = v) (hv : v < 2 ^ 32) :
    (UInt32.ofInt z).toNat = v := by
  unfold UInt32.ofInt
  have hz : (z % 2 ^ 32).toNat = v := by omega
  rw [hz]
  exact UInt32.toNat_ofNat_of_lt' hv

/-- **A difference**, where it is no less than zero. -/
theorem value_subLimbs (a b : List UInt32) (w : Nat) (h : a.length = b.length) (hw : w ≤ 1)
    (hle : value b + w ≤ value a) :
    value (subLimbs a b w) = value a - (value b + w) := by
  induction a generalizing b w with
  | nil =>
    show 0 = _
    rw [value_nil, Nat.zero_sub]
  | cons x a ih =>
    obtain ⟨y, b, rfl⟩ : ∃ y b', b = y :: b' := List.exists_cons_of_length_eq_add_one h.symm
    have hx := x.toNat_lt
    have hy := y.toNat_lt
    rw [value_cons, value_cons] at hle
    unfold subLimbs
    dsimp only
    split
    · next hneg =>
      have hlow : (UInt32.ofInt ((x.toNat : Int) - y.toNat - w + 2 ^ 32)).toNat
          = x.toNat + 2 ^ 32 - (y.toNat + w) := toNat_ofInt (by omega) (by omega)
      have hrec := ih b 1 (Nat.succ.inj h) (Nat.le_refl 1) (by omega)
      rw [value_cons, value_cons, value_cons, hlow]
      have : value (subLimbs a b (1 : Int)) = _ := hrec
      omega
    · next hpos =>
      have hlow : (UInt32.ofInt ((x.toNat : Int) - y.toNat - w)).toNat
          = x.toNat - (y.toNat + w) := toNat_ofInt (by omega) (by omega)
      have hrec := ih b 0 (Nat.succ.inj h) (Nat.zero_le 1) (by omega)
      rw [value_cons, value_cons, value_cons, hlow]
      have : value (subLimbs a b (0 : Int)) = _ := hrec
      omega


/-- The first limbs of two numbers, with one limb more. -/
theorem compare_lt {p q x y w : Nat} (hp : p < w) (hxy : x < y) : p + w * x < q + w * y := by
  calc p + w * x < w + w * x := Nat.add_lt_add_right hp _
    _ = w * (x + 1) := by rw [Nat.mul_succ, Nat.add_comm]
    _ ≤ w * y := Nat.mul_le_mul_left w hxy
    _ ≤ q + w * y := Nat.le_add_left _ _

theorem compare_add_right (p q t : Nat) : compare (p + t) (q + t) = compare p q := by
  rcases Nat.lt_trichotomy p q with h | rfl | h
  · rw [Nat.compare_eq_lt.mpr h, Nat.compare_eq_lt.mpr (Nat.add_lt_add_right h t)]
  · rw [Nat.compare_eq_eq.mpr rfl, Nat.compare_eq_eq.mpr rfl]
  · rw [Nat.compare_eq_gt.mpr h, Nat.compare_eq_gt.mpr (Nat.add_lt_add_right h t)]

theorem cmpFrom_eq (a b : List UInt32) (i : Nat) :
    cmpFrom a b i = compare (value (a.take i)) (value (b.take i)) := by
  induction i with
  | zero => rfl
  | succ i ih =>
    unfold cmpFrom
    rw [value_take_succ, value_take_succ]
    have ha := value_take_lt a i
    have hb := value_take_lt b i
    split
    · next hne =>
      split
      · next hlt =>
        exact (Nat.compare_eq_lt.mpr (compare_lt ha (UInt32.lt_iff_toNat_lt.mp hlt))).symm
      · next hge =>
        refine (Nat.compare_eq_gt.mpr (compare_lt hb ?_)).symm
        have hle := UInt32.le_iff_toNat_le.mp (UInt32.not_lt.mp hge)
        exact Nat.lt_of_le_of_ne hle fun hc => hne (UInt32.toNat_inj.mp hc.symm)
    · next heq =>
      rw [not_not] at heq
      rw [ih, heq]
      exact (compare_add_right _ _ _).symm

theorem usedFrom_le (limb : List UInt32) (i : Nat) : usedFrom limb i ≤ i := by
  induction i with
  | zero => exact Nat.le_refl 0
  | succ i ih =>
    unfold usedFrom
    split
    · exact Nat.le_refl _
    · exact Nat.le_succ_of_le ih

theorem value_used (limb : List UInt32) (i : Nat) :
    value (limb.take (usedFrom limb i)) = value (limb.take i) := by
  induction i with
  | zero => rfl
  | succ i ih =>
    unfold usedFrom
    split
    · rfl
    · next h =>
      rw [not_not] at h
      rw [ih, value_take_succ, h, UInt32.toNat_zero, Nat.mul_zero, Nat.add_zero]

/-- The limb below the highest is set. -/
theorem used_ne_zero (limb : List UInt32) (i : Nat) (h : usedFrom limb i ≠ 0) :
    limb.getD (usedFrom limb i - 1) 0 ≠ 0 := by
  induction i with
  | zero => exact absurd rfl h
  | succ i ih =>
    unfold usedFrom at h ⊢
    split
    · next hne => exact hne
    · next heq =>
      rw [if_neg heq] at h
      exact ih h

/-- The bit that a mask reads. -/
theorem and_bit (w : UInt32) {i : Nat} (h : i < 32) :
    (w &&& 1 <<< i.toUInt32 ≠ 0) ↔ w.toNat.testBit i = true := by
  have hmask : (1 <<< i.toUInt32 : UInt32).toNat = 2 ^ i := by
    have hi : i.toUInt32.toNat % 32 = i := by
      show i % 2 ^ 32 % 32 = i
      omega
    rw [UInt32.toNat_shiftLeft, hi, UInt32.toNat_one, Nat.one_shiftLeft]
    exact Nat.mod_eq_of_lt (Nat.pow_lt_pow_right (by decide) h)
  rw [ne_eq, ← UInt32.toNat_inj, UInt32.toNat_and, hmask, Nat.and_two_pow, UInt32.toNat_zero]
  cases w.toNat.testBit i with
  | true => simp
  | false => simp

/-- **The bits of a limb.** -/
theorem bitsFrom_eq (w : UInt32) {k : Nat} (hk : k ≤ 32) (h : w.toNat < 2 ^ k) :
    bitsFrom w k = w.toNat.size := by
  induction k with
  | zero =>
    rw [Nat.pow_zero, Nat.lt_one_iff] at h
    rw [h]
    rfl
  | succ k ih =>
    unfold bitsFrom
    split
    · next hset =>
      refine Nat.le_antisymm ?_ (Nat.size_le.mpr h)
      exact Nat.lt_size.mpr (Nat.ge_two_pow_of_testBit ((and_bit w hk).mp hset))
    · next hclear =>
      refine ih (Nat.le_of_succ_le hk) ?_
      rw [and_bit w hk, Bool.not_eq_true] at hclear
      refine Nat.lt_pow_two_of_testBit _ fun i hi => ?_
      rcases Nat.eq_or_lt_of_le hi with rfl | hlt
      · exact hclear
      · exact Nat.testBit_lt_two_pow (Nat.lt_of_lt_of_le h (Nat.pow_le_pow_right (by decide) hlt))

theorem bits_eq (w : UInt32) : bitsFrom w 32 = w.toNat.size :=
  bitsFrom_eq w (Nat.le_refl 32) w.toNat_lt

/-- The bits of a number, from those of its highest part. -/
theorem size_add_mul {p x s : Nat} (hp : p < 2 ^ s) (hx : x ≠ 0) :
    (p + 2 ^ s * x).size = s + x.size := by
  refine Nat.le_antisymm (Nat.size_le.mpr ?_) ?_
  · rw [Nat.pow_add]
    exact (compare_lt hp x.lt_size_self).trans_eq (Nat.zero_add _)
  · obtain ⟨j, hj⟩ := Nat.exists_eq_succ_of_ne_zero (Nat.size_pos.mpr (Nat.pos_of_ne_zero hx)).ne'
    rw [hj, Nat.add_succ]
    refine Nat.lt_size.mpr ?_
    rw [Nat.pow_add]
    refine Nat.le_add_left_of_le (Nat.mul_le_mul_left _ (Nat.lt_size.mp ?_))
    omega

theorem wideBitsFrom_eq (wide : List UInt32) (i : Nat) :
    wideBitsFrom wide i = (value (wide.take i)).size := by
  induction i with
  | zero => rfl
  | succ i ih =>
    unfold wideBitsFrom
    rw [value_take_succ]
    split
    · next h =>
      have hne : (wide.getD i 0).toNat ≠ 0 := fun hc => h (UInt32.toNat_inj.mp hc)
      rw [bits_eq, size_add_mul (value_take_lt wide i) hne, Nat.mul_comm]
    · next h =>
      rw [not_not] at h
      rw [ih, h, UInt32.toNat_zero, Nat.mul_zero, Nat.add_zero]

theorem Row.take_value (a : Row n) : Limbs.value (a.limb.take n) = a.value := by
  rw [List.take_of_length_le (Nat.le_of_eq a.width)]
  rfl

theorem Row.value_lt (a : Row n) : a.value < 2 ^ (32 * n) := value_lt_of_length a.width

theorem wideBits_eq (wide : Wide) : wideBits wide = wide.value.size := by
  unfold wideBits
  rw [wideBitsFrom_eq, wide.take_value]

theorem used_value (a : Num) : value (a.limb.take (usedLimbs a)) = a.value := by
  unfold usedLimbs
  rw [value_used, a.take_value]

theorem lt_used (a : Num) : a.value < 2 ^ (32 * usedLimbs a) :=
  used_value a ▸ value_take_lt _ _

/-- **The bits of a number.** -/
theorem bitLength_eq (a : Num) : bitLength a = a.value.size := by
  unfold bitLength
  dsimp only
  split
  · next h => rw [← used_value, h]; rfl
  · next h =>
    obtain ⟨u, hu⟩ := Nat.exists_eq_succ_of_ne_zero h
    have hne := used_ne_zero a.limb bignumLimbs h
    change a.limb.getD (usedLimbs a - 1) 0 ≠ 0 at hne
    rw [← used_value a, hu, Nat.succ_sub_one, value_take_succ, bits_eq,
      size_add_mul (value_take_lt _ u) fun hc => ?_, Nat.mul_comm]
    rw [hu, Nat.succ_sub_one] at hne
    exact hne (UInt32.toNat_inj.mp hc)

/-- **A comparison.** -/
theorem cmp_eq (a b : Num) : cmp a b = compare a.value b.value := by
  unfold cmp
  rw [cmpFrom_eq, a.take_value, b.take_value]

theorem cmp_ne_lt (a b : Num) : cmp a b ≠ .lt ↔ b.value ≤ a.value := by
  rw [cmp_eq, ne_eq, Nat.compare_eq_lt, Nat.not_lt]

theorem value_sub {a b : Num} (h : b.value ≤ a.value) : (sub a b).value = a.value - b.value :=
  value_subLimbs a.limb b.limb 0 (a.width.trans b.width.symm) (by decide) h

theorem value_add (a b : Num) : (add a b).value = (a.value + b.value) % 2 ^ (32 * bignumLimbs) := by
  have h := value_addLimbs a.limb b.limb 0 (a.width.trans b.width.symm)
  rw [UInt32.toNat_zero, Nat.add_zero, a.width] at h
  exact h


/-! ## Products -/

/-- The lowest limb of a sum, and what it carries over. -/
theorem mod_halves (p : UInt64) (t k : Nat) :
    p.toUInt32.toNat + 2 ^ 32 * ((t + (p >>> 32).toNat) % 2 ^ (32 * k))
      = (p.toNat + 2 ^ 32 * t) % 2 ^ (32 * (k + 1)) := by
  have hlow := p.toUInt32.toNat_lt
  rw [weight_succ, ← halves p, Nat.add_assoc, ← Nat.mul_add, Nat.add_comm _ t, Nat.mod_mul,
    Nat.add_mul_mod_self_left, Nat.mod_eq_of_lt hlow, Nat.add_mul_div_left _ _ (by decide),
    Nat.div_eq_of_lt hlow, Nat.zero_add]

theorem value_carryInto (result : List UInt32) (carry : UInt64) (hc : carry.toNat < 2 ^ 32) :
    value (carryInto result carry) = (value result + carry.toNat) % 2 ^ (32 * result.length) := by
  induction result generalizing carry with
  | nil =>
    show 0 = _ % 1
    rw [Nat.mod_one]
  | cons r rs ih =>
    unfold carryInto
    split
    · next h =>
      rw [h, UInt64.toNat_zero, Nat.add_zero, Nat.mod_eq_of_lt (value_lt _)]
    · have hsum : (r.toUInt64 + carry).toNat = r.toNat + carry.toNat := by
        have := r.toNat_lt
        rw [UInt64.toNat_add, UInt32.toNat_toUInt64]
        omega
      dsimp only
      rw [value_cons, ih _ (high_lt _), List.length_cons, mod_halves, hsum, value_cons]
      congr 1
      omega

/-- **A row of a product**, up to what does not fit into the limbs. -/
theorem value_mulRow (a : UInt32) (b result : List UInt32) (carry : UInt64)
    (hc : carry.toNat < 2 ^ 32) (hb : b.length ≤ result.length) :
    value (mulRow a b result carry)
      = (value result + a.toNat * value b + carry.toNat) % 2 ^ (32 * result.length) := by
  induction b generalizing result carry with
  | nil =>
    rw [value_nil, Nat.mul_zero, Nat.add_zero]
    exact value_carryInto result carry hc
  | cons y b ih =>
    cases result with
    | nil => exact nomatch hb
    | cons r rs =>
      have hprod : (a.toUInt64 * y.toUInt64 + r.toUInt64 + carry).toNat
          = a.toNat * y.toNat + r.toNat + carry.toNat := by
        have ha := Nat.le_pred_of_lt a.toNat_lt
        have hy := Nat.le_pred_of_lt y.toNat_lt
        have hmul : a.toNat * y.toNat ≤ (2 ^ 32 - 1) * (2 ^ 32 - 1) := Nat.mul_le_mul ha hy
        have := r.toNat_lt
        rw [UInt64.toNat_add, UInt64.toNat_add, UInt64.toNat_mul, UInt32.toNat_toUInt64,
          UInt32.toNat_toUInt64, UInt32.toNat_toUInt64]
        omega
      unfold mulRow
      dsimp only
      rw [value_cons, ih rs _ (high_lt _) (Nat.le_of_succ_le_succ hb), List.length_cons,
        mod_halves, hprod, value_cons, value_cons]
      congr 1
      ring

/-- A product takes no more limbs than its factors. -/
theorem mul_lt (a b : List UInt32) : value a * value b < 2 ^ (32 * (a.length + b.length)) := by
  rw [Nat.mul_add, Nat.pow_add]
  exact Nat.mul_lt_mul'' (value_lt a) (value_lt b)

/-- What the limbs below `i` have added up to. -/
theorem value_mulSteps (a b result : List UInt32) (i : Nat) (hz : value result = 0)
    (h : i + b.length ≤ result.length) :
    value ((List.range i).foldl (mulStep a b) result) = value (a.take i) * value b := by
  induction i with
  | zero =>
    rw [List.take_zero, value_nil, Nat.zero_mul]
    exact hz
  | succ i ih =>
    have hlen := length_mulSteps a b result (List.range i)
    have hprev := ih (by omega)
    rw [List.range_succ, List.foldl_append, List.foldl_cons, List.foldl_nil]
    obtain ⟨part, hpart⟩ : ∃ part, (List.range i).foldl (mulStep a b) result = part := ⟨_, rfl⟩
    rw [hpart] at hprev hlen ⊢
    rw [value_take_succ, Nat.add_mul, ← hprev]
    unfold mulStep
    split
    · next h =>
      rw [h, UInt32.toNat_zero, Nat.mul_zero, Nat.zero_mul, Nat.add_zero]
    · have hi : i + b.length ≤ part.length := by omega
      have hsplit := value_take_drop part i
      have hfit : value (part.drop i) + (a.getD i 0).toNat * value b
          < 2 ^ (32 * (part.drop i).length) := by
        have htop : value (a.take (i + 1)) * value b < 2 ^ (32 * part.length) := by
          refine Nat.lt_of_lt_of_le (mul_lt _ _) (Nat.pow_le_pow_right (by decide) ?_)
          have := List.length_take_le (i + 1) a
          omega
        refine Nat.lt_of_mul_lt_mul_left (a := 2 ^ (32 * i)) ?_
        rw [← Nat.pow_add, List.length_drop, show 32 * i + 32 * (part.length - i)
          = 32 * part.length by omega]
        refine Nat.lt_of_le_of_lt ?_ htop
        rw [value_take_succ, Nat.add_mul, ← hprev, Nat.mul_add, Nat.mul_assoc]
        omega
      rw [value_append, List.length_take, Nat.min_eq_left (by omega),
        value_mulRow _ b _ 0 (by decide) (by rw [List.length_drop]; omega), UInt64.toNat_zero,
        Nat.add_zero, Nat.mod_eq_of_lt hfit, Nat.mul_add, Nat.mul_assoc, ← Nat.add_assoc, hsplit]

theorem usedLimbs_le (a : Num) : usedLimbs a ≤ bignumLimbs := usedFrom_le _ _

/-- **A product.** -/
theorem value_mulWide (a b : Num) : (mulWide a b).value = a.value * b.value := by
  refine (value_mulSteps _ _ _ _ (value_replicate _) ?_).trans ?_
  · have ha := usedLimbs_le a
    have hb := Nat.le_trans (List.length_take_le (usedLimbs b) b.limb) (usedLimbs_le b)
    rw [List.length_replicate]
    omega
  · rw [used_value, used_value]

/-! ## Remainders -/

/-- A bit goes into a limb that has room for it. -/
theorem or_bit (x c : UInt32) (hx : x.toNat % 2 = 0) (hc : c.toNat ≤ 1) :
    (x ||| c).toNat = x.toNat + c.toNat := by
  have hor := Nat.two_pow_add_eq_or_of_lt (i := 1) (b := c.toNat) (by omega) (x.toNat / 2)
  rw [Nat.pow_one, Nat.mul_div_cancel' (Nat.dvd_of_mod_eq_zero hx)] at hor
  rw [UInt32.toNat_or, hor]

/-- The limb that a shift leaves, and the bit that it puts out. -/
theorem shift_limb (x c : UInt32) (hc : c.toNat ≤ 1) :
    (x <<< 1 ||| c).toNat + 2 ^ 32 * (x >>> 31).toNat = 2 * x.toNat + c.toNat := by
  have hx := x.toNat_lt
  have hleft : (x <<< 1).toNat = 2 * x.toNat % 2 ^ 32 := by
    rw [UInt32.toNat_shiftLeft, Nat.shiftLeft_eq, Nat.mul_comm]
    rfl
  have hright : (x >>> 31).toNat = x.toNat / 2 ^ 31 := by
    rw [UInt32.toNat_shiftRight, Nat.shiftRight_eq_div_pow]
    rfl
  rw [or_bit _ _ (by omega) hc, hleft, hright]
  omega

/-- **A shift**, where nothing is put out at the top. -/
theorem value_shiftLimbs (k : Nat) (limb : List UInt32) (c : UInt32) (hc : c.toNat ≤ 1)
    (hk : k ≤ limb.length) (hfit : 2 * value limb + c.toNat < 2 ^ (32 * k)) :
    value (shiftLimbs k limb c) = 2 * value limb + c.toNat := by
  induction k generalizing limb c with
  | zero =>
    rw [Nat.mul_zero, Nat.pow_zero] at hfit
    have : shiftLimbs 0 limb c = limb := by cases limb <;> rfl
    rw [this]
    omega
  | succ k ih =>
    cases limb with
    | nil => exact nomatch hk
    | cons x xs =>
      have hlimb := shift_limb x c hc
      rw [value_cons] at hfit ⊢
      have hout : (x >>> 31).toNat ≤ 1 := by
        have hx := x.toNat_lt
        rw [UInt32.toNat_shiftRight, Nat.shiftRight_eq_div_pow]
        show x.toNat / 2 ^ 31 ≤ 1
        omega
      have hrest : 2 * value xs + (x >>> 31).toNat < 2 ^ (32 * k) := by
        rw [weight_succ] at hfit
        refine Nat.lt_of_mul_lt_mul_left (a := 2 ^ 32) ?_
        omega
      unfold shiftLimbs
      rw [value_cons, ih xs _ hout (Nat.le_of_succ_le_succ hk) hrest]
      omega

/-- The bit of a number that is read out of its limbs. -/
theorem in_bit_eq {k : Nat} (a : Row k) (i : Nat) :
    (a.limb.getD (i / 32) 0 >>> (i % 32).toUInt32 &&& 1).toNat = a.value / 2 ^ i % 2 := by
  have hi : (i % 32).toUInt32.toNat % 32 = i % 32 := by
    show i % 32 % 2 ^ 32 % 32 = i % 32
    omega
  rw [UInt32.toNat_and, UInt32.toNat_shiftRight, hi, UInt32.toNat_one, Nat.and_one_is_mod,
    Nat.shiftRight_eq_div_pow, ← Nat.toNat_testBit, ← testBit_value, Nat.toNat_testBit]
  rfl

theorem value_modify_zero (limb : List UInt32) (c : UInt32) (h : limb ≠ []) :
    value limb % 2 = 0 → c.toNat ≤ 1 →
      value (limb.modify 0 (· ||| c)) = value limb + c.toNat := by
  intro heven hc
  obtain ⟨x, xs, rfl⟩ := List.exists_cons_of_ne_nil h
  rw [value_cons] at heven
  have hor := or_bit x c (by omega) hc
  show value ((x ||| c) :: xs) = _
  rw [value_cons, value_cons, hor]
  omega

/-- A modulus that leaves room for one bit. -/
def Roomy (m : Num) : Prop := 2 * m.value ≤ 2 ^ (32 * bignumLimbs)

theorem roomy_of_lt {m : Num} {k : Nat} (hk : k + 1 = 32 * bignumLimbs) (h : m.value < 2 ^ k) :
    Roomy m := by
  unfold Roomy
  rw [← hk, Nat.pow_succ']
  exact Nat.mul_le_mul_left 2 (Nat.le_of_lt h)

/-- What has been read of the dividend fits into the limbs that a division works on. -/
theorem fits_work {m r : Num} (hm : Roomy m) (hr : r.value < m.value) :
    2 * r.value < 2 ^ (32 * min (usedLimbs m + 1) bignumLimbs) := by
  rcases Nat.le_total (usedLimbs m + 1) bignumLimbs with hle | hle
  · have hused := lt_used m
    rw [Nat.min_eq_left hle, weight_succ]
    omega
  · rw [Nat.min_eq_right hle]
    exact Nat.lt_of_lt_of_le (Nat.mul_lt_mul_of_pos_left hr (by decide)) hm

theorem value_shiftIn (wide : Wide) {m r : Num} (i : Nat) (hm : Roomy m)
    (hr : r.value < m.value) :
    (shiftIn wide (min (usedLimbs m + 1) bignumLimbs) i r).value
      = 2 * r.value + wide.value / 2 ^ i % 2 := by
  have hshift := value_shiftLimbs (min (usedLimbs m + 1) bignumLimbs) r.limb 0 (by decide)
    (by rw [r.width]; exact Nat.min_le_right _ _) (fits_work hm hr)
  rw [UInt32.toNat_zero, Nat.add_zero] at hshift
  have hne : shiftLimbs (min (usedLimbs m + 1) bignumLimbs) r.limb 0 ≠ [] := by
    rw [← List.length_pos_iff, length_shiftLimbs, r.width]
    decide
  have hbit := in_bit_eq wide i
  refine (value_modify_zero _ _ hne (by rw [hshift]; omega) (by omega)).trans ?_
  rw [hshift, hbit]
  rfl

/-- **One round** of the division. -/
theorem value_modRound (wide : Wide) {m r : Num} (i : Nat) (hm : Roomy m)
    (hpos : 0 < m.value) (h : r.value = wide.value / 2 ^ (i + 1) % m.value) :
    (modRound wide m (min (usedLimbs m + 1) bignumLimbs) i r).value
      = wide.value / 2 ^ i % m.value := by
  have hr : r.value < m.value := h ▸ Nat.mod_lt _ hpos
  have hin := value_shiftIn wide i hm hr
  have hread : wide.value / 2 ^ i % m.value
      = (2 * r.value + wide.value / 2 ^ i % 2) % m.value := by
    have hdiv : wide.value / 2 ^ (i + 1) = wide.value / 2 ^ i / 2 := by
      rw [Nat.pow_succ, Nat.div_div_eq_div_mul]
    rw [h, hdiv, Nat.add_mod, Nat.mul_mod_mod, ← Nat.add_mod, Nat.div_add_mod]
  rw [hread]
  unfold modRound
  dsimp only
  split
  · next hge =>
    rw [cmp_ne_lt, hin] at hge
    rw [value_sub (hin ▸ hge), hin, Nat.mod_eq_sub_mod hge]
    exact (Nat.mod_eq_of_lt (by omega)).symm
  · next hlt =>
    rw [cmp_ne_lt, hin, Nat.not_le] at hlt
    rw [hin, Nat.mod_eq_of_lt hlt]

/-- **A remainder.** -/
theorem value_modWide (wide : Wide) {m : Num} (hm : Roomy m) (hpos : 0 < m.value) :
    (modWide wide m).value = wide.value % m.value := by
  have hend := countdown_inv (f := modRound wide m (min (usedLimbs m + 1) bignumLimbs))
    (n := wideBits wide) (a := zero bignumLimbs)
    (fun i r => r.value = wide.value / 2 ^ i % m.value)
    (fun i r _ hr => value_modRound wide i hm hpos hr) ?_
  · rw [Nat.pow_zero, Nat.div_one] at hend
    exact hend
  · rw [wideBits_eq, Nat.div_eq_of_lt wide.value.lt_size_self, Nat.zero_mod]
    exact value_replicate _

/-- **A product below the modulus.** -/
theorem value_mulmod (a b : Num) {m : Num} (hm : Roomy m) (hpos : 0 < m.value) :
    (mulmod a b m).value = a.value * b.value % m.value := by
  unfold mulmod
  rw [value_modWide _ hm hpos, value_mulWide]


/-- **A sum below the modulus.** -/
theorem value_addmod {a b m : Num} (hm : Roomy m) (ha : a.value < m.value)
    (hb : b.value < m.value) :
    (addmod a b m).value = (a.value + b.value) % m.value := by
  have hadd : (add a b).value = a.value + b.value := by
    rw [value_add]
    refine Nat.mod_eq_of_lt (Nat.lt_of_lt_of_le ?_ hm)
    omega
  unfold addmod
  dsimp only
  split
  · next hge =>
    rw [cmp_ne_lt, hadd] at hge
    rw [value_sub (hadd ▸ hge), hadd, Nat.mod_eq_sub_mod hge]
    exact (Nat.mod_eq_of_lt (by omega)).symm
  · next hlt =>
    rw [cmp_ne_lt, hadd, Nat.not_le] at hlt
    rw [hadd, Nat.mod_eq_of_lt hlt]

/-- **A difference below the modulus.** -/
theorem value_submod {a b m : Num} (ha : a.value < m.value) (hb : b.value < m.value) :
    ((submod a b m).value : Int) = ((a.value : Int) - b.value) % m.value := by
  unfold submod
  split
  · next hge =>
    rw [cmp_ne_lt] at hge
    rw [value_sub hge, Nat.cast_sub hge]
    exact (Int.emod_eq_of_lt (by omega) (by omega)).symm
  · next hlt =>
    rw [cmp_ne_lt, Nat.not_le] at hlt
    have hdiff : (sub b a).value = b.value - a.value := value_sub (Nat.le_of_lt hlt)
    rw [value_sub (by omega), hdiff]
    have hval : ((m.value - (b.value - a.value) : Nat) : Int)
        = (a.value : Int) - b.value + m.value := by omega
    rw [hval, ← Int.add_emod_right]
    exact (Int.emod_eq_of_lt (by omega) (by omega)).symm

/-! ## Powers -/

theorem value_reduced (base : Num) {m : Num} (hm : Roomy m) (hpos : 0 < m.value) :
    (reduced base m).value = base.value % m.value := by
  unfold reduced
  split
  · have hwide : (widen base).value = base.value := by
      refine (value_append _ _).trans ?_
      show _ + _ * value (List.replicate _ 0) = _
      rw [value_replicate, Nat.mul_zero, Nat.add_zero]
      rfl
    rw [value_modWide _ hm hpos, hwide]
  · next hlt =>
    rw [cmp_ne_lt, Nat.not_le] at hlt
    exact (Nat.mod_eq_of_lt hlt).symm

theorem value_one : one.value = 1 := by
  decide +kernel

/-- **One round** of a power: one bit more of the exponent has been read. -/
theorem value_powRound {b m acc : Num} {x e i : Nat} {set : Nat → Bool} (hm : Roomy m)
    (hpos : 0 < m.value) (hb : b.value = x % m.value) (hset : set i = e.testBit i)
    (h : acc.value = x ^ (e / 2 ^ (i + 1)) % m.value) :
    (powRound b m set i acc).value = x ^ (e / 2 ^ i) % m.value := by
  obtain ⟨q, hq⟩ : ∃ q, e / 2 ^ (i + 1) = q := ⟨_, rfl⟩
  have hbits : e / 2 ^ i = 2 * q + (e.testBit i).toNat := by
    rw [Nat.toNat_testBit, ← hq, Nat.pow_succ, ← Nat.div_div_eq_div_mul, Nat.div_add_mod]
  rw [hq] at h
  have hsq : (mulmod acc acc m).value = x ^ (2 * q) % m.value := by
    rw [value_mulmod _ _ hm hpos, h, ← Nat.mul_mod, ← Nat.pow_add, Nat.two_mul]
  unfold powRound
  dsimp only
  rw [hset, hbits]
  cases e.testBit i with
  | true =>
    rw [if_pos rfl, value_mulmod _ _ hm hpos, hsq, hb, ← Nat.mul_mod, Bool.toNat_true,
      ← Nat.pow_succ]
  | false =>
    rw [if_neg Bool.false_ne_true, hsq]
    rfl

/-- **A power**, of an exponent whose bits are read from the top. -/
theorem value_powLoop (base : Num) {m : Num} {e n : Nat} {set : Nat → Bool} (hm : Roomy m)
    (hone : 1 < m.value) (hset : ∀ i < n, set i = e.testBit i) (he : e < 2 ^ n) :
    (countdown (powRound (reduced base m) m set) n one).value = base.value ^ e % m.value := by
  have hpos : 0 < m.value := by omega
  have hend := countdown_inv (f := powRound (reduced base m) m set) (n := n) (a := one)
    (fun i acc => acc.value = base.value ^ (e / 2 ^ i) % m.value)
    (fun i acc hi hacc =>
      value_powRound hm hpos (value_reduced base hm hpos) (hset i hi) hacc) ?_
  · rw [Nat.pow_zero, Nat.div_one] at hend
    exact hend
  · rw [Nat.div_eq_of_lt he, Nat.pow_zero, Nat.mod_eq_of_lt hone]
    exact value_one

theorem value_modpowU32exp (base : Num) (exp : UInt32) {m : Num} (hm : Roomy m)
    (hone : 1 < m.value) :
    (modpowU32exp base exp m).value = base.value ^ exp.toNat % m.value := by
  refine value_powLoop base hm hone (fun i hi => ?_) (bits_eq exp ▸ Nat.lt_size_self _)
  have hlt : i < 32 := by
    rw [bits_eq] at hi
    exact Nat.lt_of_lt_of_le hi (Nat.size_le.mpr exp.toNat_lt)
  rw [Bool.eq_iff_iff, decide_eq_true_iff]
  exact and_bit exp hlt

theorem value_modpow (base exp : Num) {m : Num} (hm : Roomy m) (hone : 1 < m.value) :
    (modpow base exp m).value = base.value ^ exp.value % m.value := by
  refine value_powLoop base hm hone (fun i _ => ?_) (bitLength_eq exp ▸ Nat.lt_size_self _)
  rw [Bool.eq_iff_iff, decide_eq_true_iff]
  refine (and_bit _ (Nat.mod_lt i (by decide))).trans ?_
  rw [← testBit_value]
  rfl

/-! ## Bytes -/

theorem getD_modify (limb : List UInt32) (q j : Nat) (f : UInt32 → UInt32) (hq : q < limb.length) :
    (limb.modify q f).getD j 0 = if j = q then f (limb.getD j 0) else limb.getD j 0 := by
  rw [List.getD_eq_getElem?_getD, List.getElem?_modify, List.getD_eq_getElem?_getD]
  split
  · next h =>
    rw [List.getElem?_eq_getElem (h ▸ hq)]
    simp [h]
  · next h =>
    simp [Ne.symm h]

/-- The byte goes to its place. -/
theorem testBit_modify (limb : List UInt32) (q : Nat) (w : UInt32) (hq : q < limb.length)
    (k : Nat) :
    (value (limb.modify q (· ||| w))).testBit k
      = ((value limb).testBit k || decide (k / 32 = q) && w.toNat.testBit (k % 32)) := by
  rw [testBit_value, testBit_value, getD_modify limb q _ _ hq]
  split
  · next h =>
    rw [UInt32.toNat_or, Nat.testBit_or, decide_eq_true h, Bool.true_and]
  · next h =>
    rw [decide_eq_false h, Bool.false_and, Bool.or_false]

/-- The byte that is `i` bytes from the end. -/
theorem byte_eq (data : List UInt8) {i : Nat} (h : i < data.length) :
    (data.getD (data.length - 1 - i) 0).toNat = BigEndian.value data / 2 ^ (8 * i) % 2 ^ 8 := by
  induction data using List.reverseRecOn generalizing i with
  | nil => exact nomatch h
  | append_singleton l b ih =>
    have hb := b.toNat_lt
    rw [List.length_append, List.length_singleton] at h ⊢
    rw [BigEndian.value_append_singleton, Nat.add_sub_cancel, List.getD_eq_getElem?_getD]
    cases i with
    | zero =>
      rw [Nat.sub_zero, List.getElem?_concat_length, Option.getD_some]
      omega
    | succ i =>
      have hlt : i < l.length := by omega
      have hdiv : (BigEndian.value l * 256 + b.toNat) / 2 ^ (8 * (i + 1))
          = BigEndian.value l / 2 ^ (8 * i) := by
        rw [show 8 * (i + 1) = 8 + 8 * i by omega, Nat.pow_add, ← Nat.div_div_eq_div_mul]
        congr 1
        omega
      rw [List.getElem?_append_left (by omega), ← List.getD_eq_getElem?_getD,
        show l.length - (i + 1) = l.length - 1 - i by omega, ih hlt, hdiv]

theorem testBit_shifted (b : UInt8) {s : Nat} (hs : s ≤ 24) (j : Nat) (hj : j < 32) :
    (b.toUInt32 <<< s.toUInt32).toNat.testBit j
      = (decide (s ≤ j) && b.toNat.testBit (j - s)) := by
  have hmod : s.toUInt32.toNat % 32 = s := by
    show s % 2 ^ 32 % 32 = s
    omega
  rw [UInt32.toNat_shiftLeft, hmod, Nat.testBit_mod_two_pow, decide_eq_true hj, Bool.true_and,
    Nat.testBit_shiftLeft, UInt8.toNat_toUInt32]

/-- **One byte more.** -/
theorem value_orByte (data : List UInt8) (limb : List UInt32) (i : Nat)
    (hl : limb.length = bignumLimbs) (hi : i < data.length) (hroom : i < 520)
    (h : value limb = BigEndian.value data % 2 ^ (8 * i)) :
    value (orByte data limb i) = BigEndian.value data % 2 ^ (8 * (i + 1)) := by
  have hq : i / 4 < bignumLimbs := by
    show i / 4 < 130
    omega
  have hbyte := byte_eq data hi
  refine Nat.eq_of_testBit_eq fun k => ?_
  unfold orByte
  rw [if_pos hq, testBit_modify _ _ _ (hl ▸ hq),
    testBit_shifted _ (by omega) _ (Nat.mod_lt k (by decide)), h, hbyte,
    Nat.testBit_mod_two_pow, Nat.testBit_mod_two_pow, Nat.testBit_mod_two_pow,
    Nat.testBit_div_two_pow, Bool.eq_iff_iff]
  simp only [Bool.or_eq_true, Bool.and_eq_true, decide_eq_true_eq]
  constructor
  · rintro (⟨hlow, hbit⟩ | ⟨hlimb, hshift, hwidth, hbit⟩)
    · exact ⟨by omega, hbit⟩
    · rw [show k % 32 - i % 4 * 8 + 8 * i = k by omega] at hbit
      exact ⟨by omega, hbit⟩
  · rintro ⟨hlt, hbit⟩
    rcases Nat.lt_or_ge k (8 * i) with hlow | hge
    · exact Or.inl ⟨hlow, hbit⟩
    · refine Or.inr ⟨by omega, by omega, by omega, ?_⟩
      rw [show k % 32 - i % 4 * 8 + 8 * i = k by omega]
      exact hbit

/-- The bytes that lie above the limbs are left out. -/
theorem value_orBytes (data : List UInt8) (i : Nat) (hi : i ≤ data.length) :
    value ((List.range i).foldl (orByte data) (zero bignumLimbs).limb)
      = BigEndian.value data % 2 ^ (8 * min i 520) := by
  induction i with
  | zero =>
    rw [Nat.zero_min, Nat.mul_zero, Nat.pow_zero, Nat.mod_one]
    exact value_replicate _
  | succ i ih =>
    rw [List.range_succ, List.foldl_append, List.foldl_cons, List.foldl_nil]
    have hprev := ih (Nat.le_of_succ_le hi)
    rcases Nat.lt_or_ge i 520 with hlt | hge
    · rw [Nat.min_eq_left (Nat.le_of_lt hlt)] at hprev
      rw [Nat.min_eq_left hlt]
      exact value_orByte data _ i ((length_orBytes ..).trans (zero _).width) hi hlt hprev
    · rw [Nat.min_eq_right hge] at hprev
      rw [Nat.min_eq_right (Nat.le_succ_of_le hge)]
      unfold orByte
      rw [if_neg (by show ¬i / 4 < 130; omega)]
      exact hprev

/-- **A number out of bytes**, of those that the limbs have room for. -/
theorem value_fromBytesBe (data : List UInt8) :
    (fromBytesBe data).value = BigEndian.value data % 2 ^ (32 * bignumLimbs) := by
  refine (value_orBytes data data.length (Nat.le_refl _)).trans ?_
  rcases Nat.le_total data.length 520 with hle | hge
  · have hlt : BigEndian.value data < 2 ^ (8 * data.length) :=
      BigEndian.pow_256 _ ▸ BigEndian.value_lt data
    rw [Nat.min_eq_left hle, Nat.mod_eq_of_lt hlt, Nat.mod_eq_of_lt]
    refine Nat.lt_of_lt_of_le hlt (Nat.pow_le_pow_right (by decide) ?_)
    show 8 * data.length ≤ 32 * 130
    omega
  · have hbits : 8 * 520 = 32 * bignumLimbs := rfl
    rw [Nat.min_eq_right hge, hbits]

/-- A byte of a number. -/
theorem byteAt_eq (a : Num) (i : Nat) : (byteAt a i).toNat = a.value / 2 ^ (8 * i) % 2 ^ 8 := by
  unfold byteAt
  split
  · have hmod : (i % 4 * 8).toUInt32.toNat % 32 = i % 4 * 8 := by
      show i % 4 * 8 % 2 ^ 32 % 32 = i % 4 * 8
      omega
    refine Nat.eq_of_testBit_eq fun j => ?_
    rw [UInt32.toNat_toUInt8, UInt32.toNat_shiftRight, hmod, Nat.testBit_mod_two_pow,
      Nat.testBit_shiftRight, Nat.testBit_mod_two_pow, Nat.testBit_div_two_pow]
    by_cases hj : j < 8
    · have hbit := testBit_value a.limb (j + 8 * i)
      rw [show (j + 8 * i) / 32 = i / 4 by omega,
        show (j + 8 * i) % 32 = i % 4 * 8 + j by omega] at hbit
      rw [← hbit]
      rfl
    · rw [decide_eq_false hj, Bool.false_and, Bool.false_and]
  · next h =>
    rw [Nat.div_eq_of_lt]
    · rfl
    · refine Nat.lt_of_lt_of_le a.value_lt (Nat.pow_le_pow_right (by decide) ?_)
      omega

/-- **A number as bytes.** -/
theorem toBytesBe_eq (a : Num) (n : Nat) : toBytesBe a n = BigEndian.bytes n a.value :=
  (BigEndian.bytes_eq fun i => by rw [byteAt_eq, BigEndian.pow_256]; rfl).symm

/-! ## The arithmetic -/

/-- **The arithmetic is that of the numbers below the modulus**, on all limbs, and bytes go in and
out as they are. -/
theorem arithmetic_mod :
    (∀ m : Num, 1 < m.value → m.value < 2 ^ 4159 →
      (∀ base exp, (modpowU32exp base exp m).value = base.value ^ exp.toNat % m.value)
        ∧ (∀ base exp, (modpow base exp m).value = base.value ^ exp.value % m.value)
        ∧ ∀ a b : Num, a.value < m.value → b.value < m.value →
          (addmod a b m).value = (a.value + b.value) % m.value
            ∧ ((submod a b m).value : Int) = ((a.value : Int) - b.value) % m.value
            ∧ (mulmod a b m).value = a.value * b.value % m.value)
    ∧ ∀ data : List UInt8, data.length ≤ 520 →
      toBytesBe (fromBytesBe data) data.length = data := by
  refine ⟨fun m hone hlt => ?_, fun data hlen => ?_⟩
  · have hm : Roomy m := roomy_of_lt (k := 4159) rfl hlt
    refine ⟨fun base exp => value_modpowU32exp base exp hm hone,
      fun base exp => value_modpow base exp hm hone, fun a b ha hb => ?_⟩
    exact ⟨value_addmod hm ha hb, value_submod ha hb, value_mulmod a b hm (by omega)⟩
  · have hlt : BigEndian.value data < 2 ^ (32 * bignumLimbs) := by
      refine Nat.lt_of_lt_of_le (BigEndian.value_lt data) ?_
      rw [BigEndian.pow_256]
      refine Nat.pow_le_pow_right (by decide) ?_
      show 8 * data.length ≤ 32 * 130
      omega
    rw [toBytesBe_eq, value_fromBytesBe, Nat.mod_eq_of_lt hlt, BigEndian.bytes_value]

/-- 5 to the third modulo 97, and the bytes of 5. -/
theorem arithmetic_mod_97 :
    (modpowU32exp (fromBytesBe [5]) 3 (fromBytesBe [97])).value = 28
      ∧ (modpow (fromBytesBe [5]) (fromBytesBe [3]) (fromBytesBe [97])).value = 28
      ∧ ((submod (fromBytesBe [3]) (fromBytesBe [5]) (fromBytesBe [97])).value : Int) = 95
      ∧ toBytesBe (fromBytesBe [5]) 1 = [5] := by
  have hval : ∀ b : UInt8, (fromBytesBe [b]).value = b.toNat := fun b => by
    have hbyte : BigEndian.value [b] = b.toNat := Nat.zero_add _
    have hbits : 2 ^ 8 ≤ 2 ^ (32 * bignumLimbs) := Nat.pow_le_pow_right (by decide) (by decide)
    rw [value_fromBytesBe, hbyte, Nat.mod_eq_of_lt (Nat.lt_of_lt_of_le b.toNat_lt hbits)]
  have hmod : (fromBytesBe [97]).value = 97 := hval 97
  have hlt : (fromBytesBe [97]).value < 2 ^ 4159 := by
    have hbits : ∀ k ≥ 7, 2 ^ 7 ≤ 2 ^ k := fun k hk => Nat.pow_le_pow_right (by decide) hk
    rw [hmod]
    exact Nat.lt_of_lt_of_le (by decide : 97 < 2 ^ 7) (hbits 4159 (by decide))
  obtain ⟨h₁, h₂, h₃⟩ := arithmetic_mod.1 (fromBytesBe [97]) (by rw [hmod]; decide) hlt
  have hsub := (h₃ (fromBytesBe [3]) (fromBytesBe [5]) (by rw [hval, hval]; decide)
    (by rw [hval, hval]; decide)).2.1
  refine ⟨(h₁ _ _).trans ?_, (h₂ _ _).trans ?_, hsub.trans ?_, arithmetic_mod.2 [5] (by decide)⟩
  · rw [hval, hval]
    decide
  · rw [hval, hval, hval]
    decide
  · rw [hval, hval, hval]
    decide

end Bignum
