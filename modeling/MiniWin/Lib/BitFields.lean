import Mathlib.Data.Nat.Bitwise
import Mathlib.Data.List.OfFn
import Mathlib.Tactic.Common

/-!
# Bit fields

Numbers in a row of bytes, from some bit on, with the low bits first. A bit behind the last byte is
not set. A field is unsigned, or in two's complement of its own size.
-/

namespace BitFields

/-- A bit of a row of bytes. -/
def bitAt (r : List UInt8) (k : ℕ) : Bool :=
  match r[k / 8]? with
  | some b => b.toNat.testBit (k % 8)
  | none => false

/-- The bits from `off` on, as a number. -/
def raw (r : List UInt8) (off size : ℕ) : ℕ := Nat.ofBits fun i : Fin size => bitAt r (off + i)

/-- The value of a field. -/
def value (r : List UInt8) (off size : ℕ) (signed : Bool) : ℤ :=
  if signed ∧ (raw r off size).testBit (size - 1) then raw r off size - 2 ^ size else raw r off size

variable {r : List UInt8} {off size v : ℕ}

theorem bitAt_eq_false {k : ℕ} (h : r.length ≤ k / 8) : bitAt r k = false := by
  unfold bitAt
  rw [List.getElem?_eq_none h]

theorem testBit_raw (r : List UInt8) (off size i : ℕ) :
    (raw r off size).testBit i = (decide (i < size) && bitAt r (off + i)) := by
  unfold raw
  rw [Nat.testBit_ofBits]
  by_cases hi : i < size
  · rw [dif_pos hi, decide_eq_true hi, Bool.true_and]
  · rw [dif_neg hi, decide_eq_false hi, Bool.false_and]

theorem raw_lt (r : List UInt8) (off size : ℕ) : raw r off size < 2 ^ size :=
  Nat.ofBits_lt_two_pow _

/-- **The low bits** of a field are the field of so many bits. -/
theorem raw_mod (r : List UInt8) (off size n : ℕ) :
    raw r off size % 2 ^ n = raw r off (min size n) := by
  refine Nat.eq_of_testBit_eq fun i => ?_
  rw [Nat.testBit_mod_two_pow, testBit_raw, testBit_raw]
  by_cases hn : i < n <;> by_cases hs : i < size <;> simp [hn, hs]

/-- The sign bit is the half that a number is in. -/
theorem testBit_top (hv : v < 2 ^ size) (hs : 0 < size) :
    v.testBit (size - 1) = decide (2 ^ (size - 1) ≤ v) := by
  obtain ⟨k, rfl⟩ : ∃ k, size = k + 1 := ⟨size - 1, by omega⟩
  rw [Nat.add_sub_cancel]
  rw [Nat.pow_succ] at hv
  by_cases hle : 2 ^ k ≤ v
  · rw [decide_eq_true hle]
    exact Nat.testBit_of_two_pow_le_and_two_pow_add_one_gt hle (by rw [Nat.pow_succ]; exact hv)
  · rw [decide_eq_false hle]
    exact Nat.testBit_lt_two_pow (not_le.mp hle)

/-! ## The range of a field -/

theorem value_unsigned (r : List UInt8) (off size : ℕ) :
    value r off size false = raw r off size := if_neg fun h => nomatch h.1

theorem value_signed_lt (r : List UInt8) (off size : ℕ) :
    value r off size true < 2 ^ (size - 1) := by
  have hlt := raw_lt r off size
  unfold value
  rcases Nat.eq_zero_or_pos size with rfl | hs
  · have h0 : raw r off 0 = 0 := Nat.lt_one_iff.mp hlt
    rw [h0, if_neg fun h => nomatch h.2]
    exact Int.one_pos
  · rw [testBit_top hlt hs]
    have hdouble : 2 ^ size = 2 * 2 ^ (size - 1) := by
      rw [← Nat.pow_succ', Nat.succ_eq_add_one, Nat.sub_add_cancel hs]
    by_cases htop : 2 ^ (size - 1) ≤ raw r off size
    · rw [if_pos ⟨rfl, decide_eq_true htop⟩]
      have : (raw r off size : ℤ) < (2 ^ size : ℕ) := Int.ofNat_lt.mpr hlt
      have : (0 : ℤ) < 2 ^ (size - 1) := Int.pow_pos (by decide)
      push_cast at *
      omega
    · rw [if_neg fun h => htop (of_decide_eq_true h.2)]
      exact_mod_cast not_le.mp htop

theorem neg_le_value_signed (r : List UInt8) (off size : ℕ) :
    -2 ^ (size - 1) ≤ value r off size true := by
  have hlt := raw_lt r off size
  have hpow : (0 : ℤ) < 2 ^ (size - 1) := Int.pow_pos (by decide)
  unfold value
  split
  · next hneg =>
    have hs : 0 < size := by
      rcases Nat.eq_zero_or_pos size with rfl | hs
      · have h0 : raw r off 0 = 0 := Nat.lt_one_iff.mp hlt
        rw [h0] at hneg
        exact nomatch hneg.2
      · exact hs
    rw [testBit_top hlt hs] at hneg
    have hle : 2 ^ (size - 1) ≤ raw r off size := of_decide_eq_true hneg.2
    have hdouble : (2 : ℤ) ^ size = 2 * 2 ^ (size - 1) := by
      rw [← Int.pow_succ', Nat.sub_add_cancel hs]
    have : ((2 ^ (size - 1) : ℕ) : ℤ) ≤ raw r off size := Int.ofNat_le.mpr hle
    push_cast at this
    omega
  · omega

/-! ## Writing a field -/

/-- So many bytes of a number, the low ones first. -/
def bytes (n v : ℕ) : List UInt8 := List.ofFn fun j : Fin n => UInt8.ofNat (v >>> (8 * j.val))

theorem bitAt_bytes {n k : ℕ} (hk : k < 8 * n) (v : ℕ) : bitAt (bytes n v) k = v.testBit k := by
  have hin : k / 8 < n := by omega
  have hget : (bytes n v)[k / 8]? = some (UInt8.ofNat (v >>> (8 * (k / 8)))) := by
    unfold bytes
    rw [List.getElem?_ofFn, dif_pos hin]
  unfold bitAt
  rw [hget]
  show (UInt8.ofNat _).toNat.testBit (k % 8) = _
  rw [UInt8.toNat_ofNat', Nat.testBit_mod_two_pow, Nat.testBit_shiftRight,
    decide_eq_true (Nat.mod_lt k (by decide)), Bool.true_and, Nat.div_add_mod]

/-- A row of bytes with this field. -/
def withField (off size v : ℕ) : List UInt8 := bytes ((off + size + 7) / 8) (v <<< off)

theorem raw_withField (hv : v < 2 ^ size) : raw (withField off size v) off size = v := by
  refine Nat.eq_of_testBit_eq fun i => ?_
  rw [testBit_raw]
  by_cases hi : i < size
  · unfold withField
    rw [decide_eq_true hi, Bool.true_and, bitAt_bytes (by omega), Nat.testBit_shiftLeft,
      decide_eq_true (Nat.le_add_right off i), Bool.true_and, Nat.add_sub_cancel_left]
  · rw [decide_eq_false hi, Bool.false_and]
    exact (Nat.testBit_lt_two_pow (hv.trans_le (Nat.pow_le_pow_right (by decide)
      (not_lt.mp hi)))).symm

/-- A number of the lower half is a value of a field, signed or not. -/
theorem value_withField (hv : v < 2 ^ size) {signed : Bool} (hhalf : signed → v < 2 ^ (size - 1)) :
    value (withField off size v) off size signed = v := by
  unfold value
  rw [raw_withField hv]
  exact if_neg fun h => Bool.false_ne_true
    ((Nat.testBit_lt_two_pow (hhalf h.1)).symm.trans h.2)

end BitFields
