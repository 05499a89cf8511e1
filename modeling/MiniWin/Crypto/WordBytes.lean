import MiniWin.Lib.BigEndian
import MiniWin.Lib.Block

/-!
# Words as bytes

The loads and stores of 64-bit words, the highest byte first, that `sha512.h` and `gcm.h` both have.
-/

namespace WordBytes

variable {w : Nat}

/-- `sha512_get64_be` and `gcm_get64_be`. -/
def get64_be (p : Block) (o : Nat) : BitVec 64 :=
  ((p o).toBitVec.zeroExtend 64 <<< 56) ||| ((p (o + 1)).toBitVec.zeroExtend 64 <<< 48)
    ||| ((p (o + 2)).toBitVec.zeroExtend 64 <<< 40) ||| ((p (o + 3)).toBitVec.zeroExtend 64 <<< 32)
    ||| ((p (o + 4)).toBitVec.zeroExtend 64 <<< 24) ||| ((p (o + 5)).toBitVec.zeroExtend 64 <<< 16)
    ||| ((p (o + 6)).toBitVec.zeroExtend 64 <<< 8) ||| (p (o + 7)).toBitVec.zeroExtend 64

/-- `sha512_put64_be` and `gcm_put64_be`. -/
def put64_be (v : BitVec 64) : List UInt8 :=
  (List.range 8).map fun i => ⟨(v >>> (56 - 8 * i)).truncate 8⟩

/-- Bytes shifted in from the right. -/
def shiftIn (w : Nat) (l : List UInt8) : BitVec w :=
  l.foldl (fun v b => (v <<< 8) ||| b.toBitVec.zeroExtend w) 0

theorem shiftIn_eq (l : List UInt8) : shiftIn w l = BitVec.ofNat w (BigEndian.value l) := by
  induction l using List.reverseRecOn with
  | nil => rfl
  | append_singleton l b ih =>
    have hsum : BigEndian.value l * 256 + b.toNat = BigEndian.value l <<< 8 ||| b.toNat := by
      rw [← Nat.shiftLeft_add_eq_or_of_lt b.toNat_lt, Nat.shiftLeft_eq]
    have hsnoc : shiftIn w (l ++ [b]) = (shiftIn w l <<< 8) ||| b.toBitVec.zeroExtend w := by
      rw [shiftIn, List.foldl_append]
      rfl
    rw [hsnoc, ih, BigEndian.value_append_singleton, hsum]
    refine BitVec.eq_of_getLsbD_eq fun i hi => ?_
    simp only [BitVec.getLsbD_or, BitVec.getLsbD_shiftLeft, BitVec.getLsbD_ofNat,
      BitVec.getLsbD_setWidth, Nat.testBit_or, Nat.testBit_shiftLeft, hi, decide_true,
      Bool.true_and]
    by_cases h8 : i < 8
    · simp only [h8, decide_true, Bool.not_true, Bool.false_and, Bool.false_or]
      rw [decide_eq_false (by omega)]
      rfl
    · rw [decide_eq_true (show i ≥ 8 by omega)]
      simp only [h8, decide_false, Bool.not_false, Bool.true_and, show i - 8 < w by omega,
        decide_true]
      rfl

/-- A byte of a word. -/
theorem toNat_byte (v : BitVec w) (i : Nat) :
    (⟨(v >>> (8 * i)).truncate 8⟩ : UInt8).toNat = v.toNat / 256 ^ i % 256 := by
  show ((v >>> (8 * i)).truncate 8).toNat = _
  rw [BitVec.truncate, BitVec.toNat_setWidth, BitVec.toNat_ushiftRight, Nat.shiftRight_eq_div_pow,
    BigEndian.pow_256]

theorem get64_be_eq (p : Block) (o : Nat) :
    get64_be p o = BitVec.ofNat 64 (BigEndian.value (p.slice o 8)) := by
  rw [← shiftIn_eq]
  simp [shiftIn, get64_be, Block.slice, List.range_succ, BitVec.shiftLeft_or_distrib,
    ← BitVec.shiftLeft_add]

theorem put64_be_eq (v : BitVec 64) : put64_be v = BigEndian.bytes 8 v.toNat := by
  rw [BigEndian.bytes_eq (toNat_byte v)]
  rfl

end WordBytes
