import MiniWin.Lib.BigEndian
import MiniWin.Net.Tls
import Mathlib.Data.List.TakeWhile

/-!
# RSA signatures

`pkcs1_verify` of `kernel/pkcs1.h`, and of `kernel/bignum.h` what it calls, on numbers in place of
limbs. The hashes are an input. A signature is right for one number only (`check_unique`), whatever
exponent it was raised to.
-/

namespace Pkcs1

open Tls (Hash)

/-- The `DigestInfo` prefixes. -/
def digestInfoPrefix : Hash → List UInt8
  | .sha256 => [0x30, 0x31, 0x30, 0x0d, 0x06, 0x09, 0x60, 0x86, 0x48, 0x01, 0x65, 0x03, 0x04, 0x02,
      0x01, 0x05, 0x00, 0x04, 0x20]
  | .sha384 => [0x30, 0x41, 0x30, 0x0d, 0x06, 0x09, 0x60, 0x86, 0x48, 0x01, 0x65, 0x03, 0x04, 0x02,
      0x02, 0x05, 0x00, 0x04, 0x30]
  | .sha512 => [0x30, 0x51, 0x30, 0x0d, 0x06, 0x09, 0x60, 0x86, 0x48, 0x01, 0x65, 0x03, 0x04, 0x02,
      0x03, 0x05, 0x00, 0x04, 0x40]

/-- The bytes of a digest. -/
def hashLen : Hash → Nat
  | .sha256 => 32
  | .sha384 => 48
  | .sha512 => 64

/-- `pkcs1_hash`. -/
structure Digests where
  hash : Hash → List UInt8 → List UInt8
  length_hash : ∀ h data, (hash h data).length = hashLen h

/-- The bits of the `BIGNUM_LIMBS` limbs. -/
def bignumBits : Nat := 130 * 32

/-- `bn_from_bytes_be`. -/
def bnFromBytes (l : List UInt8) : Nat := BigEndian.value l % 2 ^ bignumBits

/-- `bn_bit_length`. -/
def bitLength (n : Nat) : Nat := if n = 0 then 0 else n.log2 + 1

/-- One round of `bn_modpow_u32exp`. -/
def powRound (b exp m acc i : Nat) : Nat :=
  let acc := acc * acc % m
  if exp.testBit i then acc * b % m else acc

/-- `bn_modpow_u32exp`, from the highest bit of the exponent down. -/
def modpow (base exp m : Nat) : Nat :=
  (List.range (bitLength exp)).reverse.foldl (powRound (base % m) exp m) 1

/-- The number a signature was raised to is padded as it ought to be, and holds the hash. -/
def check (D : Digests) (h : Hash) (data : List UInt8) (mod_bytes v : Nat) : Bool :=
  let recovered := BigEndian.bytes mod_bytes v
  let i := 2 + ((recovered.drop 2).takeWhile (· = 0xFF)).length
  mod_bytes ≥ 11 ∧ recovered[0]? = some 0x00 ∧ recovered[1]? = some 0x01 ∧ i ≥ 10
    ∧ recovered[i]? = some 0x00 ∧ recovered.drop (i + 1) = digestInfoPrefix h ++ D.hash h data

/-- The bytes of a modulus, if a signature under it can be checked. -/
def modBytes (modulus : Nat) : Nat := (bitLength modulus + 7) / 8

/-- `pkcs1_verify`. -/
def verify (D : Digests) (h : Hash) (data sig : List UInt8) (modulus exponent : Nat) : Bool :=
  if modBytes modulus = 0 ∨ modBytes modulus > 512 then false
  else if sig.length ≠ modBytes modulus then false
  else check D h data (modBytes modulus) (modpow (bnFromBytes sig) exponent modulus)

/-! ## The power -/

variable {D : Digests} {h : Hash} {data sig : List UInt8} {b e m n k v w : Nat}

theorem powRounds (acc k : Nat) :
    (List.range k).reverse.foldl (powRound b e m) acc % m = acc ^ 2 ^ k * b ^ (e % 2 ^ k) % m := by
  induction k generalizing acc with
  | zero =>
    show acc % m = _
    rw [Nat.pow_zero, Nat.pow_one, Nat.mod_one, Nat.pow_zero, Nat.mul_one]
  | succ k ih =>
    have hround : powRound b e m acc k % m = acc ^ 2 * b ^ (e.testBit k).toNat % m := by
      unfold powRound
      dsimp only
      cases e.testBit k with
      | true =>
        rw [if_pos rfl, Bool.toNat_true, Nat.pow_one, Nat.mod_mod, Nat.mod_mul_mod, Nat.pow_two]
      | false =>
        rw [if_neg Bool.false_ne_true, Bool.toNat_false, Nat.pow_zero, Nat.mul_one, Nat.mod_mod,
          Nat.pow_two]
    have hbits : e % 2 ^ (k + 1) = (e.testBit k).toNat * 2 ^ k + e % 2 ^ k := by
      rw [Nat.mod_pow_succ, Nat.toNat_testBit]
      ring
    rw [List.range_succ, List.reverse_append, List.reverse_singleton, List.singleton_append,
      List.foldl_cons, ih, Nat.mul_mod, Nat.pow_mod, hround, ← Nat.pow_mod, ← Nat.mul_mod, hbits]
    congr 1
    rw [Nat.mul_pow, ← Nat.pow_mul, ← Nat.pow_mul, Nat.pow_add, Nat.mul_assoc]
    ring

theorem foldl_lt (hm : 0 < m) (hacc : v < m) (l : List Nat) : l.foldl (powRound b e m) v < m := by
  induction l generalizing v with
  | nil => exact hacc
  | cons i l ih =>
    refine ih ?_
    unfold powRound
    dsimp only
    split <;> exact Nat.mod_lt _ hm

theorem lt_bitLength (e : Nat) : e < 2 ^ bitLength e := by
  unfold bitLength
  split
  · next h => rw [h]; decide
  · exact Nat.lt_log2_self

/-- **The power is a power.** -/
theorem modpow_eq (hm : 1 < m) (b e : Nat) : modpow b e m = b ^ e % m := by
  have hlt : modpow b e m < m := foldl_lt (by omega) hm _
  have hpow := powRounds (b := b % m) (e := e) (m := m) 1 (bitLength e)
  rw [Nat.mod_eq_of_lt (lt_bitLength e), Nat.one_pow, Nat.one_mul, ← Nat.pow_mod] at hpow
  rw [← hpow]
  exact (Nat.mod_eq_of_lt hlt).symm


/-! ## The padding -/

/-- **What a number looks like that is checked**: the number of padding bytes is what the width
leaves. -/
theorem check_bytes (hc : check D h data k v = true) : ∃ t, t + (digestInfoPrefix h).length
      + hashLen h + 3 = k
    ∧ BigEndian.bytes k v = [0x00, 0x01] ++ List.replicate t 0xFF ++ [0x00]
      ++ (digestInfoPrefix h ++ D.hash h data) := by
  unfold check at hc
  obtain ⟨r, hr⟩ : ∃ r, BigEndian.bytes k v = r := ⟨_, rfl⟩
  have hlen : r.length = k := by rw [← hr, BigEndian.length_bytes]
  rw [hr] at hc ⊢
  obtain ⟨-, h₀, h₁, -, hend, hrest⟩ := of_decide_eq_true hc
  obtain ⟨b₀, b₁, body, rfl⟩ : ∃ b₀ b₁ body, r = b₀ :: b₁ :: body := by
    match r, h₀, h₁ with
    | b₀ :: b₁ :: body, _, _ => exact ⟨b₀, b₁, body, rfl⟩
  obtain rfl := Option.some.inj h₀
  obtain rfl := Option.some.inj h₁
  obtain ⟨pad, hpad⟩ : ∃ pad, body.takeWhile (fun b => decide (b = 0xFF)) = pad := ⟨_, rfl⟩
  have hbody : ([0x00, 0x01] ++ body : List UInt8).drop 2 = body := rfl
  change (0 :: 1 :: body)[2 + ((body.takeWhile fun b => decide (b = 0xFF)).length)]? = _ at hend
  change (0 :: 1 :: body).drop (2 + ((body.takeWhile fun b => decide (b = 0xFF)).length) + 1) = _
    at hrest
  rw [hpad] at hend hrest
  have hall : pad = List.replicate pad.length 0xFF := by
    refine List.eq_replicate_of_mem fun b hb => ?_
    rw [← hpad] at hb
    exact of_decide_eq_true (List.mem_takeWhile_imp (p := fun b => decide (b = 0xFF)) hb)
  obtain ⟨tail, htail⟩ : ∃ tail, body = pad ++ tail :=
    ⟨body.dropWhile _, by rw [← hpad, List.takeWhile_append_dropWhile]⟩
  subst htail
  have hend' : tail[0]? = some 0 := by
    have : (0 :: 1 :: (pad ++ tail))[2 + pad.length]? = (pad ++ tail)[pad.length]? := by
      rw [Nat.add_comm]
      rfl
    rw [this, List.getElem?_append_right (Nat.le_refl _), Nat.sub_self] at hend
    exact hend
  have hrest' : tail.drop 1 = digestInfoPrefix h ++ D.hash h data := by
    have : (0 :: 1 :: (pad ++ tail)).drop (2 + pad.length + 1) = (pad ++ tail).drop (pad.length + 1) := by
      rw [show 2 + pad.length + 1 = (pad.length + 1) + 2 by omega]
      rfl
    rw [this, ← List.drop_drop, List.drop_left] at hrest
    exact hrest
  obtain ⟨rest, rfl⟩ : ∃ rest, tail = 0 :: rest := by
    cases tail with
    | nil => exact nomatch hend'
    | cons b rest => exact ⟨rest, by rw [Option.some.inj hend']⟩
  obtain rfl : rest = digestInfoPrefix h ++ D.hash h data := hrest'
  refine ⟨pad.length, ?_, ?_⟩
  · rw [← hlen, List.length_cons, List.length_cons, List.length_append, List.length_cons,
      List.length_append, D.length_hash]
    omega
  · rw [← hall]
    simp only [List.cons_append, List.nil_append, List.append_assoc]

/-- **One number is right.** -/
theorem check_unique (hv : v < 256 ^ k) (hw : w < 256 ^ k) (hcv : check D h data k v = true)
    (hcw : check D h data k w = true) : v = w := by
  obtain ⟨t, ht, hbv⟩ := check_bytes hcv
  obtain ⟨t', ht', hbw⟩ := check_bytes hcw
  obtain rfl : t = t' := by omega
  exact BigEndian.bytes_inj hv hw (hbv.trans hbw.symm)

theorem lt_modBytes (n : Nat) : n < 256 ^ modBytes n := by
  have hle : bitLength n ≤ 8 * modBytes n := by
    unfold modBytes
    omega
  calc n < 2 ^ bitLength n := lt_bitLength n
    _ ≤ 2 ^ (8 * modBytes n) := Nat.pow_le_pow_right (by decide) hle
    _ = 256 ^ modBytes n := (BigEndian.pow_256 _).symm

/-- **A signature as it ought to be**, of any length, under a key of any size. -/
def Valid (D : Digests) (h : Hash) (data sig : List UInt8) (n e : Nat) : Prop :=
  modBytes n ≤ 512 ∧ sig.length = modBytes n
    ∧ check D h data (modBytes n) (BigEndian.value sig ^ e % n) = true

theorem bnFromBytes_eq (hl : sig.length ≤ 512) : bnFromBytes sig = BigEndian.value sig := by
  have hlt : 256 ^ sig.length ≤ 2 ^ bignumBits := by
    rw [BigEndian.pow_256]
    exact Nat.pow_le_pow_right (by decide) (by unfold bignumBits; omega)
  exact Nat.mod_eq_of_lt (Nat.lt_of_lt_of_le (BigEndian.value_lt sig) hlt)

/-- What `pkcs1_verify` has found out. -/
theorem verify_some (hv : verify D h data sig n e = true) : modBytes n ≤ 512
    ∧ sig.length = modBytes n ∧ check D h data (modBytes n) (BigEndian.value sig ^ e % n) = true := by
  unfold verify at hv
  split at hv
  · exact nomatch hv
  next hbytes =>
  rw [not_or, Nat.not_lt] at hbytes
  split at hv
  · exact nomatch hv
  next hsig =>
  rw [not_not] at hsig
  have hn : 1 < n := by
    have hk : modBytes n ≥ 11 := by
      unfold check at hv
      exact (of_decide_eq_true hv).1
    by_contra hle
    obtain rfl | rfl : n = 0 ∨ n = 1 := by omega
    · revert hk; decide
    · revert hk; decide
  rw [bnFromBytes_eq (by omega), modpow_eq hn] at hv
  exact ⟨hbytes.2, hsig, hv⟩

/-- **What the fields cut off is all that a check can miss**: the signature that lies behind the
512th byte, the modulus above the limbs, and the exponent behind the fourth byte. -/
theorem verify_cut (hv : verify D h data (sig.take 512) (n % 2 ^ bignumBits) e = true) (e' : Nat) :
    Valid D h data sig n e' ↔ sig.length ≤ 512 ∧ n < 2 ^ bignumBits
      ∧ BigEndian.value sig ^ e' % n = BigEndian.value sig ^ e % n := by
  obtain ⟨hk, hsig, hcheck⟩ := verify_some hv
  constructor
  · rintro ⟨hk', hsig', hcheck'⟩
    have hn : n < 2 ^ bignumBits := by
      calc n < 256 ^ modBytes n := lt_modBytes n
        _ = 2 ^ (8 * modBytes n) := BigEndian.pow_256 _
        _ ≤ 2 ^ bignumBits := Nat.pow_le_pow_right (by decide) (by unfold bignumBits; omega)
    rw [List.take_of_length_le (by omega), Nat.mod_eq_of_lt hn] at hcheck
    have hpos : 0 < n := by
      by_contra hz
      obtain rfl : n = 0 := by omega
      unfold check at hcheck
      exact absurd (of_decide_eq_true hcheck).1 (by decide)
    have hlt : ∀ v, v % n < 256 ^ modBytes n := fun v =>
      Nat.lt_trans (Nat.mod_lt v hpos) (lt_modBytes n)
    exact ⟨by omega, hn, check_unique (hlt _) (hlt _) hcheck' hcheck⟩
  · rintro ⟨hle, hn, hpow⟩
    rw [Nat.mod_eq_of_lt hn] at hk hsig hcheck
    rw [List.take_of_length_le hle] at hsig hcheck
    exact ⟨hk, hsig, by rw [hpow]; exact hcheck⟩

end Pkcs1
