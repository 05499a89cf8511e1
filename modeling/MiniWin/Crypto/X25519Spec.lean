import MiniWin.Lib.BigEndian
import MiniWin.Lib.Lucas
import MiniWin.Lib.MontgomeryLadder
import Mathlib.Algebra.Field.ZMod
import Mathlib.Tactic.NormNum.Prime

/-!
# X25519, as the standard has it

Section 5 of RFC 7748: bytes are numbers with the lowest byte first, a scalar has some of its bits
set and cleared, the highest bit of a coordinate is ignored, and the function is the ladder over the
numbers below `2 ^ 255 - 19`. That the ladder is the first coordinate of a multiple is the library's
theorem; it has the numbers below a prime for a field, so that the prime is shown to be one.
-/

namespace Rfc7748

open MontgomeryLadder (quotient ladder)

/-! ## The field -/

def p : Nat := 2 ^ 255 - 19

/-- The small primes of the table. -/
def small : List Nat :=
  [2, 3, 5, 7, 13, 19, 31, 47, 107, 127, 223, 353, 2437, 4153, 57467, 65147, 75707, 132049, 430751,
   569003, 1923133, 8574133]

/-- The primes down from `p`. -/
def rows : List Lucas.Row := [
  ⟨31757755568855353, 10, [2, 2, 2, 3, 31, 107, 223, 4153, 430751]⟩,
  ⟨2773320623, 5, [2, 2437, 569003]⟩,
  ⟨72106336199, 7, [2, 13, 2773320623]⟩,
  ⟨1919519569386763, 2, [2, 3, 7, 19, 47, 47, 127, 8574133]⟩,
  ⟨75445702479781427272750846543864801, 7,
    [2, 2, 2, 2, 2, 3, 3, 5, 5, 75707, 72106336199, 1919519569386763]⟩,
  ⟨74058212732561358302231226437062788676166966415465897661863160754340907, 2,
    [2, 3, 353, 57467, 132049, 1923133, 31757755568855353, 75445702479781427272750846543864801]⟩,
  ⟨57896044618658097711785492504343953926634992332820282019728792003956564819949, 2,
    [2, 2, 3, 65147, 74058212732561358302231226437062788676166966415465897661863160754340907]⟩]

theorem prime_small : ∀ q ∈ small, q.Prime := by
  unfold small
  simp only [List.forall_mem_cons]
  norm_num

instance : Fact (Lucas.Checks small rows) := ⟨by decide +kernel⟩

theorem prime_p : p.Prime := by
  have hrows : Lucas.Checks small rows := Fact.out
  exact hrows.prime prime_small (rows.getLast (by decide)) (List.getLast_mem _)

instance : Fact p.Prime := ⟨prime_p⟩

theorem good : MontgomeryLadder.Good (486662 : ZMod p) 121665 where
  two := by decide +kernel
  sq := by decide +kernel
  a24 := by decide +kernel

/-! ## The function -/

/-- The sum of `b[i] << 8*i`. -/
def decodeLittleEndian (b : List UInt8) : Nat := b.foldr (fun x n => x.toNat + 256 * n) 0

/-- The bytes of a key. -/
abbrev keyBytes : Nat := 32

/-- The unused bit is ignored. -/
def decodeUCoordinate (u : Vector UInt8 keyBytes) : ZMod p :=
  (decodeLittleEndian (u.set 31 (u[31] &&& 127)).toList : ZMod p)

def decodeScalar25519 (k : Vector UInt8 keyBytes) : Nat :=
  decodeLittleEndian ((k.set 0 (k[0] &&& 248)).set 31 (k[31] &&& 127 ||| 64)).toList

/-- `(u >> 8*i) & 0xff`. -/
def encodeUCoordinate (u : ZMod p) : Vector UInt8 32 :=
  Vector.ofFn fun i => UInt8.ofNat (u.val / 256 ^ i.val % 256)

/-- `x_2 * (z_2 ^ (p - 2))`, for the scalar `k` and the coordinate `u`. -/
def mult (k : Nat) (u : ZMod p) : ZMod p :=
  (ladder 121665 u 255 k).1 * (ladder 121665 u 255 k).2 ^ (p - 2)

def X25519 (k u : Vector UInt8 32) : Vector UInt8 32 :=
  encodeUCoordinate (mult (decodeScalar25519 k) (decodeUCoordinate u))

/-! ## What it is -/

theorem mult_eq (k : Nat) (u : ZMod p) : mult k u = quotient 121665 u 255 k := by
  rw [mult, Lucas.pow_sub_two (by decide +kernel), quotient, div_eq_mul_inv]

theorem decodeLittleEndian_append (a b : List UInt8) :
    decodeLittleEndian (a ++ b) = decodeLittleEndian a + 256 ^ a.length * decodeLittleEndian b := by
  induction a with
  | nil => simp [decodeLittleEndian]
  | cons x a ih =>
    have hx (l : List UInt8) :
        decodeLittleEndian (x :: l) = x.toNat + 256 * decodeLittleEndian l := rfl
    rw [List.cons_append, hx, hx, ih, List.length_cons, pow_succ']
    ring

/-- The bytes, the highest first. -/
theorem value_reverse (b : List UInt8) : BigEndian.value b.reverse = decodeLittleEndian b := by
  unfold BigEndian.value decodeLittleEndian
  rw [List.foldl_reverse]
  congr 1
  funext x n
  ring

theorem decodeLittleEndian_lt (b : List UInt8) : decodeLittleEndian b < 256 ^ b.length := by
  rw [← value_reverse, ← List.length_reverse]
  exact BigEndian.value_lt _

theorem testBit_decodeLittleEndian (b : List UInt8) (t : Nat) :
    (decodeLittleEndian b).testBit t = (b.getD (t / 8) 0).toNat.testBit (t % 8) := by
  induction b generalizing t with
  | nil => simp [decodeLittleEndian]
  | cons x b ih =>
    have hx : decodeLittleEndian (x :: b) = 2 ^ 8 * decodeLittleEndian b + x.toNat :=
      Nat.add_comm _ _
    rw [hx, Nat.testBit_two_pow_mul_add _ x.toNat_lt]
    split
    · next h => rw [Nat.div_eq_of_lt h, Nat.mod_eq_of_lt h, List.getD_cons_zero]
    · next h =>
      have hdiv : t / 8 = (t - 8) / 8 + 1 := by omega
      rw [ih, hdiv, List.getD_cons_succ, ← Nat.mod_eq_sub_mod (by omega)]

theorem decodeScalar_even (k : Vector UInt8 32) : Even (decodeScalar25519 k) := by
  have hbit := testBit_decodeLittleEndian
    ((k.set 0 (k[0] &&& 248)).set 31 (k[31] &&& 127 ||| 64)).toList 0
  have hbyte : ((k.set 0 (k[0] &&& 248)).set 31 (k[31] &&& 127 ||| 64)).toList.getD (0 / 8) 0
      = k[0] &&& 248 := by
    rw [List.getD_eq_getElem _ _ (by simp)]
    simp
  have h248 : (248 : Nat).testBit (0 % 8) = false := rfl
  rw [hbyte, UInt8.toNat_and, Nat.testBit_and, show (248 : UInt8).toNat = 248 from rfl, h248,
    Bool.and_false, Nat.testBit_zero, decide_eq_false_iff_not] at hbit
  exact Nat.even_iff.mpr (Nat.mod_two_ne_one.mp hbit)

theorem decodeScalar_lt (k : Vector UInt8 32) : decodeScalar25519 k < 2 ^ 255 := by
  refine Nat.lt_pow_two_of_testBit _ fun t ht => ?_
  rw [decodeScalar25519, testBit_decodeLittleEndian]
  by_cases hlast : t = 255
  · subst hlast
    have hbyte : ((k.set 0 (k[0] &&& 248)).set 31 (k[31] &&& 127 ||| 64)).toList.getD (255 / 8) 0
        = k[31] &&& 127 ||| 64 := by
      rw [List.getD_eq_getElem _ _ (by simp)]
      simp
    have h127 : (127 : Nat).testBit (255 % 8) = false := rfl
    have h64 : (64 : Nat).testBit (255 % 8) = false := rfl
    rw [hbyte, UInt8.toNat_or, UInt8.toNat_and, Nat.testBit_or, Nat.testBit_and,
      show (127 : UInt8).toNat = 127 from rfl, show (64 : UInt8).toNat = 64 from rfl, h127, h64,
      Bool.and_false, Bool.or_false]
  · rw [List.getD_eq_default _ _ (by simp only [Vector.length_toList, keyBytes]; omega)]
    exact Nat.zero_testBit _

/-- **Multiples are taken in any order.** -/
theorem mult_comm (j k : Vector UInt8 32) (u : ZMod p) :
    mult (decodeScalar25519 j) (mult (decodeScalar25519 k) u)
      = mult (decodeScalar25519 k) (mult (decodeScalar25519 j) u) := by
  rw [mult_eq, mult_eq, mult_eq, mult_eq]
  exact MontgomeryLadder.quotient_comm good (decodeScalar_lt j) (decodeScalar_lt k)
    (decodeScalar_even j) (decodeScalar_even k) u

/-- What is encoded is read back. -/
theorem decode_encode (x : ZMod p) : decodeLittleEndian (encodeUCoordinate x).toList = x.val := by
  have hlt : x.val < 256 ^ 32 := Nat.lt_trans (ZMod.val_lt x) (by decide +kernel)
  have hbytes : (encodeUCoordinate x).toList.reverse = BigEndian.bytes 32 x.val := by
    rw [BigEndian.bytes_eq fun i => UInt8.toNat_ofNat_of_lt' (Nat.mod_lt _ (by decide))]
    refine congrArg List.reverse (List.ext_getElem (by simp) fun i _ _ => ?_)
    simp [encodeUCoordinate]
  rw [← value_reverse, hbytes, BigEndian.value_bytes hlt]

theorem encode_inj {x y : ZMod p} (h : encodeUCoordinate x = encodeUCoordinate y) : x = y := by
  refine ZMod.val_injective p ?_
  rw [← decode_encode, ← decode_encode, h]

/-- The unused bit, which is worth 19. -/
theorem decode_mask (u : Vector UInt8 keyBytes) :
    (decodeLittleEndian u.toList : ZMod p)
      = decodeUCoordinate u + if u[31] < 128 then 0 else 19 := by
  have hset (x : UInt8) : (u.set 31 x).toList = u.toList.take 31 ++ [x] := by
    have hdrop : u.toList.drop (31 + 1) = [] := List.drop_of_length_le (by simp)
    rw [Vector.toList_set, List.set_eq_take_append_cons_drop, if_pos (by simp), hdrop]
  have hself := hset u[31]
  rw [Vector.set_getElem_self] at hself
  obtain ⟨low, hlow⟩ : ∃ low, u.toList.take 31 = low := ⟨_, rfl⟩
  have hlen : low.length = 31 := by
    rw [← hlow, List.length_take, Vector.length_toList]
    rfl
  have hbyte (x : UInt8) : decodeLittleEndian (low ++ [x])
      = decodeLittleEndian low + 256 ^ 31 * x.toNat := by
    rw [decodeLittleEndian_append, hlen]
    rfl
  have hand : (u[31] &&& 127).toNat = u[31].toNat % 128 := by
    rw [UInt8.toNat_and]
    exact Nat.and_two_pow_sub_one_eq_mod _ 7
  have h19 : ((256 ^ 31 * 128 : Nat) : ZMod p) = 19 := by
    decide +kernel
  unfold decodeUCoordinate
  rw [hset, hlow, hself, hlow, hbyte, hbyte, hand]
  have hx := u[31].toNat_lt
  split
  · next h =>
    have hlt : u[31].toNat < 128 := h
    rw [Nat.mod_eq_of_lt hlt, add_zero]
  · next h =>
    have hge : 128 ≤ u[31].toNat := Nat.not_lt.mp h
    have hsplit : u[31].toNat = u[31].toNat % 128 + 128 := by omega
    rw [← h19, ← Nat.cast_add, add_assoc, ← Nat.mul_add, ← hsplit]

end Rfc7748
