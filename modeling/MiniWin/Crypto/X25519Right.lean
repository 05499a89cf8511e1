import MiniWin.Crypto.X25519Spec
import MiniWin.Net.BignumSpec

/-!
# X25519

`kernel/x25519.h`: the multiplication of a point of Curve25519 by a scalar, on the numbers of
`kernel/bignum.h`. Bytes on the wire have the lowest first, those of the numbers the highest.
-/

namespace X25519

open Bignum (zero fromBytesBe toBytesBe addmod submod mulmod modpow)
open Limbs (countdown)

/-- `u8[32]`. -/
abbrev Bytes32 := Vector UInt8 32

/-- `X25519_A24_CONSTANT`. -/
def x25519_a24 : UInt32 := 121665

/-- `bn_zero`, and then the lowest limb. -/
def limb (n : UInt32) : Bignum.Num :=
  ⟨(zero Bignum.bignumLimbs).limb.set 0 n, List.length_set.trans (zero Bignum.bignumLimbs).width⟩

/-- `x25519_prime`. -/
def x25519_prime : Bignum.Num := fromBytesBe (0x7f :: (List.replicate 30 0xff ++ [0xed]))

/-- `x25519_clamp`. -/
def x25519_clamp (k : Bytes32) : Bytes32 :=
  let k := k.set 0 (k[0] &&& 248)
  let k := k.set 31 (k[31] &&& 127)
  k.set 31 (k[31] ||| 64)

/-- `k[t / 8] >> (t % 8) & 1`. -/
def bit (k : Bytes32) (t : Nat) : UInt8 := (k.toList.getD (t / 8) 0 >>> (t % 8).toUInt8) &&& 1

/-- The variables of the loop. -/
structure Ladder where
  x2 : Bignum.Num
  z2 : Bignum.Num
  x3 : Bignum.Num
  z3 : Bignum.Num
  swap : UInt8

/-- The pairs change places. -/
def Ladder.cswap (s : Ladder) : Ladder :=
  if s.swap ≠ 0 then { s with x2 := s.x3, z2 := s.z3, x3 := s.x2, z3 := s.z2 } else s

/-- One pass through the loop. -/
def round (p x1 : Bignum.Num) (k : Bytes32) (t : Nat) (s : Ladder) : Ladder :=
  let kt := bit k t
  let s := { s with swap := s.swap ^^^ kt }.cswap
  let A := addmod s.x2 s.z2 p
  let AA := mulmod A A p
  let B := submod s.x2 s.z2 p
  let BB := mulmod B B p
  let E := submod AA BB p
  let C := addmod s.x3 s.z3 p
  let D := submod s.x3 s.z3 p
  let DA := mulmod D A p
  let CB := mulmod C B p
  let sum_da_cb := addmod DA CB p
  let diff_da_cb := submod DA CB p
  let diff_sq := mulmod diff_da_cb diff_da_cb p
  let a24_e := mulmod (limb x25519_a24) E p
  let aa_plus_a24e := addmod AA a24_e p
  { x2 := mulmod AA BB p
    z2 := mulmod E aa_plus_a24e p
    x3 := mulmod sum_da_cb sum_da_cb p
    z3 := mulmod x1 diff_sq p
    swap := kt }

/-- What the loop begins with. -/
def start (x1 : Bignum.Num) : Ladder :=
  { x2 := limb 1, z2 := zero _, x3 := x1, z3 := limb 1, swap := 0 }

/-- `x25519_scalarmult`. -/
def x25519_scalarmult (scalar u_point : Bytes32) : Bytes32 :=
  let k := x25519_clamp scalar
  let p := x25519_prime
  let u_be := (List.finRange 32).map fun i => u_point.get i.rev
  let x1 := fromBytesBe u_be
  let s := (countdown (round p x1 k) 255 (start x1)).cswap
  let p_minus_2 := Bignum.sub p (limb 2)
  let z2_inv := modpow s.z2 p_minus_2 p
  let result := mulmod s.x2 z2_inv p
  let result_be := toBytesBe result 32
  Vector.ofFn fun i : Fin 32 => result_be.getD i.rev 0

/-- `x25519_derive_public`. -/
def x25519_derive_public (private_key : Bytes32) : Bytes32 :=
  x25519_scalarmult private_key (Vector.ofFn fun i => if i = 0 then 9 else 0)

end X25519

/-!
## The ladder of X25519 is the one of the standard

Every operation of the loop is that of the field, also on what is not below the prime: the two
first coordinates may be up to `2 ^ 256`, which is how the coordinate of the peer comes in, and what
a product makes is below the prime. The loop is the ladder then, rung by rung.

The coordinate itself is read with all of its bits. With the highest one set the number is
`2 ^ 255 + v` in place of `v`, and that is `v + 19` in the field.
-/

namespace X25519

open Bignum (Roomy value_add value_sub value_mulmod value_modpow cmp_ne_lt addmod submod mulmod)
open Limbs (countdown countdown_inv)
open MontgomeryLadder (Rails)
open Rfc7748 (decodeLittleEndian)

/-! ## The field -/

theorem value_limb (n : UInt32) : (limb n).value = n.toNat := by
  show Limbs.value (n :: List.replicate 129 0) = n.toNat
  rw [Limbs.value_cons, Limbs.value_replicate, Nat.mul_zero, Nat.add_zero]

theorem value_prime : x25519_prime.value = Rfc7748.p := by
  decide +kernel

theorem p_le : Rfc7748.p ≤ 2 ^ 256 :=
  (Nat.sub_le _ _).trans (Nat.pow_le_pow_right Nat.two_pos (by decide))

theorem roomy_prime : Roomy x25519_prime := by
  refine Bignum.roomy_of_lt (k := 4159) (by decide) ?_
  rw [value_prime]
  exact Nat.lt_of_le_of_lt p_le (Nat.pow_lt_pow_right (by decide) (by decide))

theorem prime_pos : 0 < x25519_prime.value := by
  rw [value_prime]
  exact Rfc7748.prime_p.pos

/-- A number that stands for this element of the field, and is below a bound. -/
def Stands (bound : Nat) (a : Bignum.Num) (x : ZMod Rfc7748.p) : Prop :=
  a.value < bound ∧ (a.value : ZMod Rfc7748.p) = x

variable {a b : Bignum.Num} {x y : ZMod Rfc7748.p}

theorem Stands.mulmod {m n : Nat} (ha : Stands m a x) (hb : Stands n b y) :
    Stands Rfc7748.p (mulmod a b x25519_prime) (x * y) := by
  obtain ⟨-, rfl⟩ := ha
  obtain ⟨-, rfl⟩ := hb
  have hval := value_mulmod a b roomy_prime prime_pos
  rw [value_prime] at hval
  refine ⟨?_, ?_⟩
  · rw [hval]
    exact Nat.mod_lt _ (value_prime ▸ prime_pos)
  · rw [hval, ZMod.natCast_mod, Nat.cast_mul]

theorem two_mul_pow_le {k n : Nat} (h : k < n) : 2 * 2 ^ k ≤ 2 ^ n := by
  rw [← Nat.pow_succ']
  exact Nat.pow_le_pow_right two_pos h

/-- The sum of what has room for it. -/
theorem Stands.addmod {n : Nat} (ha : Stands (2 ^ 256) a x) (hb : Stands n b y) (hn : n ≤ 2 ^ 256) :
    Stands (2 * 2 ^ 256) (addmod a b x25519_prime) (x + y) := by
  obtain ⟨ha, rfl⟩ := ha
  obtain ⟨hb, rfl⟩ := hb
  have hsum : a.value + b.value < 2 * 2 ^ 256 := by omega
  have hroom : 2 * 2 ^ 256 ≤ 2 ^ (32 * Bignum.bignumLimbs) := two_mul_pow_le (by decide)
  have hval : (Bignum.add a b).value = a.value + b.value := by
    rw [value_add]
    exact Nat.mod_eq_of_lt (Nat.lt_of_lt_of_le hsum hroom)
  unfold Bignum.addmod
  dsimp only
  split
  · next hge =>
    rw [cmp_ne_lt] at hge
    have hdiff := value_sub hge
    rw [hval] at hge hdiff
    refine ⟨?_, ?_⟩
    · rw [hdiff]
      exact Nat.lt_of_le_of_lt (Nat.sub_le _ _) hsum
    · rw [hdiff, Nat.cast_sub hge, value_prime, ZMod.natCast_self, sub_zero, Nat.cast_add]
  · refine ⟨?_, ?_⟩
    · rw [hval]
      exact hsum
    · rw [hval, Nat.cast_add]

/-- The difference to what is below the prime. -/
theorem Stands.submod {n : Nat} (ha : Stands n a x) (hb : Stands Rfc7748.p b y) :
    Stands (max n (Rfc7748.p + 1)) (submod a b x25519_prime) (x - y) := by
  obtain ⟨ha, rfl⟩ := ha
  obtain ⟨hb, rfl⟩ := hb
  unfold Bignum.submod
  split
  · next hge =>
    rw [cmp_ne_lt] at hge
    refine ⟨?_, ?_⟩
    · rw [value_sub hge]
      omega
    · rw [value_sub hge, Nat.cast_sub hge]
  · next hlt =>
    rw [cmp_ne_lt, Nat.not_le] at hlt
    have hdiff : (Bignum.sub b a).value = b.value - a.value := value_sub (Nat.le_of_lt hlt)
    have hle : b.value - a.value ≤ Rfc7748.p := by omega
    have hval : (Bignum.sub x25519_prime (Bignum.sub b a)).value
        = Rfc7748.p - (b.value - a.value) := by
      rw [value_sub (by rw [hdiff, value_prime]; exact hle), hdiff, value_prime]
    refine ⟨?_, ?_⟩
    · rw [hval]
      omega
    · rw [hval, Nat.cast_sub hle, Nat.cast_sub (Nat.le_of_lt hlt), ZMod.natCast_self]
      ring

theorem Stands.mono {m n : Nat} (h : Stands m a x) (hmn : m ≤ n) : Stands n a x :=
  ⟨Nat.lt_of_lt_of_le h.1 hmn, h.2⟩

/-! ## The loop -/

/-- The variables are what the ladder keeps. -/
structure Matches (s : Ladder) (r : Rails (ZMod Rfc7748.p)) : Prop where
  x2 : Stands (2 ^ 256) s.x2 r.x2
  z2 : Stands Rfc7748.p s.z2 r.z2
  x3 : Stands (2 ^ 256) s.x3 r.x3
  z3 : Stands Rfc7748.p s.z3 r.z3
  swap : s.swap = r.swap.toUInt8

theorem Matches.cswap {s : Ladder} {r : Rails (ZMod Rfc7748.p)} (h : Matches s r) {f : UInt8}
    {b : Bool} (hf : f = b.toUInt8) :
    Matches { { s with swap := f }.cswap with swap := s.swap } (r.cswap b) := by
  subst hf
  cases b with
  | false => exact h
  | true => exact ⟨h.x3, h.z3, h.x2, h.z2, h.swap⟩

theorem bit_eq (k : Bytes32) (t : Nat) :
    bit k t = ((decodeLittleEndian k.toList).testBit t).toUInt8 := by
  have hbool (b : Bool) : b.toUInt8.toNat = b.toNat := by
    cases b <;> rfl
  have hmod : (t % 8).toUInt8.toNat % 8 = t % 8 := by
    show t % 8 % 2 ^ 8 % 8 = t % 8
    omega
  rw [Rfc7748.testBit_decodeLittleEndian]
  refine UInt8.toNat_inj.mp ?_
  unfold bit
  rw [hbool, Nat.toNat_testBit, UInt8.toNat_and, UInt8.toNat_shiftRight, hmod,
    Nat.shiftRight_eq_div_pow]
  exact Nat.and_one_is_mod _

theorem stands_limb {n : UInt32} {m : Nat} (hn : n.toNat < m) : Stands m (limb n) (n.toNat : ZMod _) :=
  ⟨(value_limb n).symm ▸ hn, by rw [value_limb]⟩

theorem stands_a24 : Stands (2 ^ 256) (limb x25519_a24) 121665 :=
  stands_limb (n := x25519_a24) (by decide)

theorem stands_one {m : Nat} (hm : 1 < m) : Stands m (limb 1) 1 := by
  have h := stands_limb (n := 1) hm
  rwa [show (1 : UInt32).toNat = 1 from rfl, Nat.cast_one] at h

theorem stands_zero : Stands Rfc7748.p (Bignum.zero Bignum.bignumLimbs) 0 := by
  have h : (Bignum.zero Bignum.bignumLimbs).value = 0 := Limbs.value_replicate _
  refine ⟨?_, ?_⟩
  · rw [h]
    exact Rfc7748.prime_p.pos
  · rw [h, Nat.cast_zero]

/-- **A pass through the loop** is a rung. -/
theorem Matches.round {s : Ladder} {r : Rails (ZMod Rfc7748.p)} (h : Matches s r) {x1 : Bignum.Num}
    {u : ZMod Rfc7748.p} {m : Nat} (hx1 : Stands m x1 u) (k : Bytes32) (t : Nat) :
    Matches (round x25519_prime x1 k t s)
      (r.step 121665 u ((decodeLittleEndian k.toList).testBit t)) := by
  have hswap : s.swap ^^^ bit k t
      = (r.swap ^^ (decodeLittleEndian k.toList).testBit t).toUInt8 := by
    rw [h.swap, bit_eq]
    cases r.swap <;> cases (decodeLittleEndian k.toList).testBit t <;> rfl
  obtain ⟨v, hv⟩ : ∃ v, { s with swap := s.swap ^^^ bit k t }.cswap = v := ⟨_, rfl⟩
  obtain ⟨q, hq⟩ : ∃ q, r.cswap (r.swap ^^ (decodeLittleEndian k.toList).testBit t) = q := ⟨_, rfl⟩
  have hpairs := h.cswap hswap
  rw [hv, hq] at hpairs
  have hA := hpairs.x2.addmod hpairs.z2 p_le
  have hAA := hA.mulmod hA
  have hB := hpairs.x2.submod hpairs.z2
  have hBB := hB.mulmod hB
  have hE := hAA.submod hBB
  have hC := hpairs.x3.addmod hpairs.z3 p_le
  have hD := hpairs.x3.submod hpairs.z3
  have hDA := hD.mulmod hA
  have hCB := hC.mulmod hB
  have hsum := (hDA.mono p_le).addmod hCB p_le
  have hdiff := hDA.submod hCB
  have haa := (hAA.mono p_le).addmod (stands_a24.mulmod hE) p_le
  unfold X25519.round Rails.step MontgomeryLadder.double MontgomeryLadder.add
  dsimp only
  rw [hv, hq]
  refine ⟨?x2, ?z2, ?x3, ?z3, bit_eq k t⟩ <;> dsimp only
  case x2 => exact (hAA.mulmod hBB).mono p_le
  case z2 => exact hE.mulmod haa
  case x3 => exact (hsum.mulmod hsum).mono p_le
  case z3 => exact hx1.mulmod (hdiff.mulmod hdiff)

theorem matches_start {x1 : Bignum.Num} {u : ZMod Rfc7748.p} (hx1 : Stands (2 ^ 256) x1 u) :
    Matches (start x1) (Rails.start u) where
  x2 := stands_one (by decide)
  z2 := stands_zero
  x3 := hx1
  z3 := stands_one Rfc7748.prime_p.one_lt
  swap := rfl

/-! ## The multiplication -/

/-- The coordinate of the peer, with all of its bits. -/
def rawCoordinate (u : Bytes32) : ZMod Rfc7748.p := (decodeLittleEndian u.toList : ZMod Rfc7748.p)

/-- What is encoded is read as it was. -/
theorem rawCoordinate_encode (x : ZMod Rfc7748.p) :
    rawCoordinate (Rfc7748.encodeUCoordinate x) = x := by
  rw [rawCoordinate, Rfc7748.decode_encode, ZMod.natCast_zmod_val]

theorem clamp_eq (k : Bytes32) :
    decodeLittleEndian (x25519_clamp k).toList = Rfc7748.decodeScalar25519 k := by
  unfold Rfc7748.decodeScalar25519 x25519_clamp
  have h31 : (k.set 0 (k[0] &&& 248))[31] = k[31] := Vector.getElem_set_ne _ _ (by decide)
  have hset : ((k.set 0 (k[0] &&& 248)).set 31 (k[31] &&& 127))[31] = k[31] &&& 127 :=
    Vector.getElem_set_self _
  dsimp only
  rw [h31, hset, Vector.set_set]

theorem stands_coordinate (u : Bytes32) :
    Stands (2 ^ 256) (Bignum.fromBytesBe ((List.finRange 32).map fun i => u.get i.rev))
      (rawCoordinate u) := by
  have hbytes : ((List.finRange 32).map fun i => u.get i.rev) = u.toList.reverse := by
    refine List.ext_getElem (by simp) fun i _ _ => ?_
    simp [Vector.get, Fin.rev]
  have hlt : decodeLittleEndian u.toList < 2 ^ 256 := by
    have h := Rfc7748.decodeLittleEndian_lt u.toList
    rw [Vector.length_toList] at h
    exact h
  have hval := Bignum.value_fromBytesBe u.toList.reverse
  rw [Rfc7748.value_reverse, Nat.mod_eq_of_lt (Nat.lt_of_lt_of_le hlt
    (Nat.pow_le_pow_right (by decide) (by decide)))] at hval
  rw [hbytes]
  refine ⟨?_, ?_⟩
  · rw [hval]
    exact hlt
  · rw [hval]
    rfl

/-- The bytes of a number below the prime. -/
theorem encode_eq {a : Bignum.Num} {x : ZMod Rfc7748.p} (h : Stands Rfc7748.p a x) :
    Vector.ofFn (fun i : Fin 32 => (Bignum.toBytesBe a 32).getD i.rev 0)
      = Rfc7748.encodeUCoordinate x := by
  obtain ⟨hlt, rfl⟩ := h
  have hval : ((a.value : ZMod Rfc7748.p)).val = a.value := ZMod.val_cast_of_lt hlt
  unfold Rfc7748.encodeUCoordinate
  rw [Bignum.toBytesBe_eq, hval,
    BigEndian.bytes_eq fun i => UInt8.toNat_ofNat_of_lt' (Nat.mod_lt _ (by decide))]
  congr 1
  funext i
  have hrev : 31 - (31 - i.val) = i.val := by omega
  have hlt : 31 - i.val < 32 := by omega
  rw [List.getD_eq_getElem _ _ (by simp [hlt])]
  simp [hrev]

theorem Stands.modpow {m : Nat} (h : Stands m a x) :
    Stands Rfc7748.p (Bignum.modpow a (Bignum.sub x25519_prime (limb 2)) x25519_prime)
      (x ^ (Rfc7748.p - 2)) := by
  obtain ⟨-, rfl⟩ := h
  have htwo : (limb 2).value ≤ x25519_prime.value := by
    rw [value_limb, value_prime]
    exact Rfc7748.prime_p.two_le
  have hval := value_modpow a (Bignum.sub x25519_prime (limb 2)) roomy_prime
    (value_prime ▸ Rfc7748.prime_p.one_lt)
  rw [value_sub htwo, value_limb, value_prime] at hval
  refine ⟨?_, ?_⟩
  · rw [hval]
    exact Nat.mod_lt _ Rfc7748.prime_p.pos
  · rw [hval, ZMod.natCast_mod, Nat.cast_pow]
    rfl

/-- **The multiplication** is the one of the standard, of the coordinate with all of its bits. -/
theorem scalarmult_eq (scalar u : Bytes32) :
    x25519_scalarmult scalar u = Rfc7748.encodeUCoordinate
      (Rfc7748.mult (Rfc7748.decodeScalar25519 scalar) (rawCoordinate u)) := by
  have hx1 := stands_coordinate u
  have hloop := Limbs.countdown_rel (n := 255) Matches
    (fun t _ _ _ h => h.round hx1 (x25519_clamp scalar) t) (matches_start hx1)
  rw [clamp_eq] at hloop
  unfold x25519_scalarmult Rfc7748.mult MontgomeryLadder.ladder
  dsimp only
  generalize countdown (X25519.round _ _ _) 255 _ = s at hloop ⊢
  generalize countdown _ 255 (Rails.start (rawCoordinate u)) = r at hloop ⊢
  have hend := hloop.cswap hloop.swap
  exact encode_eq (hend.x2.mulmod hend.z2.modpow)

/-! ## What the standard says -/

/-- **X25519 is that of the standard where the highest bit of the coordinate is clear**, and where
it is set, it is when the multiple of `v + 19` happens to have the coordinate of that of `v`. The
two sides of an exchange get the same secret. -/
theorem scalarmult_eq_iff (k u a b : Vector UInt8 32) :
    (x25519_scalarmult k u = Rfc7748.X25519 k u
        ↔ u[31] < 128
          ∨ Rfc7748.mult (Rfc7748.decodeScalar25519 k) (Rfc7748.decodeUCoordinate u + 19)
            = Rfc7748.mult (Rfc7748.decodeScalar25519 k) (Rfc7748.decodeUCoordinate u))
      ∧ x25519_scalarmult a (x25519_derive_public b)
        = x25519_scalarmult b (x25519_derive_public a) := by
  constructor
  · have hraw : rawCoordinate u
        = Rfc7748.decodeUCoordinate u + if u[31] < 128 then 0 else 19 := Rfc7748.decode_mask u
    rw [scalarmult_eq, Rfc7748.X25519, hraw]
    by_cases hu : u[31] < 128
    · rw [if_pos hu, add_zero]
      exact iff_of_true rfl (.inl hu)
    · rw [if_neg hu, or_iff_right hu]
      exact ⟨Rfc7748.encode_inj, congrArg _⟩
  · rw [x25519_derive_public, x25519_derive_public, scalarmult_eq, scalarmult_eq, scalarmult_eq,
      scalarmult_eq, rawCoordinate_encode, rawCoordinate_encode, Rfc7748.mult_comm]

/-- The coordinate zero, with the highest bit set. -/
theorem scalarmult_high_bit :
    x25519_scalarmult (Vector.replicate 32 0) ((Vector.replicate 32 0).set 31 128)
      ≠ Rfc7748.X25519 (Vector.replicate 32 0) ((Vector.replicate 32 0).set 31 128) := by
  have hx : (MontgomeryLadder.ladder (121665 : ZMod Rfc7748.p) 19 255 (2 ^ 254)).1 ≠ 0 := by
    decide +kernel
  have hz : (MontgomeryLadder.ladder (121665 : ZMod Rfc7748.p) 19 255 (2 ^ 254)).2 ≠ 0 := by
    decide +kernel
  have hscalar : Rfc7748.decodeScalar25519 (Vector.replicate 32 0) = 2 ^ 254 := by
    decide +kernel
  have hraw : rawCoordinate ((Vector.replicate 32 0).set 31 128) = 19 := by
    decide +kernel
  have hzero : Rfc7748.decodeUCoordinate ((Vector.replicate 32 0).set 31 128) = 0 := by
    decide +kernel
  rw [scalarmult_eq, Rfc7748.X25519, hraw, hscalar, hzero]
  refine mt Rfc7748.encode_inj ?_
  rw [Rfc7748.mult_eq, Rfc7748.mult_eq, MontgomeryLadder.quotient_zero]
  exact div_ne_zero hx hz

end X25519
