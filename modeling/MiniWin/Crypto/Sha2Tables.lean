import MiniWin.Crypto.Sha2
import MiniWin.Lib.BlockHash
import Mathlib.Analysis.SpecialFunctions.Pow.NthRootLemmas
import Mathlib.NumberTheory.PrimeCounting

/-!
# The Secure Hash Standard

What FIPS 180-4 says of SHA-256, SHA-384 and SHA-512, for messages that are whole bytes. The
constants are what the standard says they are, the first bits of the fractional parts of roots of
primes, and the padding has the least number of zeros that makes the last block full.

`Core.Meets` says that the functions and the tables of a header are those of the standard, and
`Core.Meets.process_block` that the work on a block is the standard's then. The loop over the words
has the schedule `W` in its array (`Core.Meets.expand`), and the rounds are the same.
-/

namespace Sha2

variable {w : Nat}

namespace Fips

/-! ## Constants -/

/-- The first `w` bits of the fractional part of the `n`th root of a number. -/
def fraction (n w p : Nat) : BitVec w := BitVec.ofNat w (Nat.nthRoot n (p * 2 ^ (n * w)))

/-- The constants of the rounds, from the cube roots of the primes. -/
noncomputable def K (w t : Nat) : BitVec w := fraction 3 w (Nat.nth Nat.Prime t)

/-- An initial hash value, from the square roots of eight primes. -/
noncomputable def initial (w first : Nat) : Words w where
  a := fraction 2 w (Nat.nth Nat.Prime first)
  b := fraction 2 w (Nat.nth Nat.Prime (first + 1))
  c := fraction 2 w (Nat.nth Nat.Prime (first + 2))
  d := fraction 2 w (Nat.nth Nat.Prime (first + 3))
  e := fraction 2 w (Nat.nth Nat.Prime (first + 4))
  f := fraction 2 w (Nat.nth Nat.Prime (first + 5))
  g := fraction 2 w (Nat.nth Nat.Prime (first + 6))
  h := fraction 2 w (Nat.nth Nat.Prime (first + 7))

/-! ## Functions -/

def Ch (x y z : BitVec w) : BitVec w := (x &&& y) ^^^ (~~~x &&& z)

def Maj (x y z : BitVec w) : BitVec w := (x &&& y) ^^^ (x &&& z) ^^^ (y &&& z)

/-- What the two widths differ in. -/
structure Functions (w : Nat) where
  rounds : Nat
  /-- `Σ₀`. -/
  sum0 : BitVec w → BitVec w
  /-- `Σ₁`. -/
  sum1 : BitVec w → BitVec w
  /-- `σ₀`. -/
  sigma0 : BitVec w → BitVec w
  /-- `σ₁`. -/
  sigma1 : BitVec w → BitVec w

def functions256 : Functions 32 where
  rounds := 64
  sum0 x := x.rotateRight 2 ^^^ x.rotateRight 13 ^^^ x.rotateRight 22
  sum1 x := x.rotateRight 6 ^^^ x.rotateRight 11 ^^^ x.rotateRight 25
  sigma0 x := x.rotateRight 7 ^^^ x.rotateRight 18 ^^^ (x >>> 3)
  sigma1 x := x.rotateRight 17 ^^^ x.rotateRight 19 ^^^ (x >>> 10)

def functions512 : Functions 64 where
  rounds := 80
  sum0 x := x.rotateRight 28 ^^^ x.rotateRight 34 ^^^ x.rotateRight 39
  sum1 x := x.rotateRight 14 ^^^ x.rotateRight 18 ^^^ x.rotateRight 41
  sigma0 x := x.rotateRight 1 ^^^ x.rotateRight 8 ^^^ (x >>> 7)
  sigma1 x := x.rotateRight 19 ^^^ x.rotateRight 61 ^^^ (x >>> 6)

/-! ## A block -/

/-- The words of a block. -/
def M (w : Nat) (block : List UInt8) (t : Nat) : BitVec w :=
  BitVec.ofNat w (BigEndian.value ((block.drop (t * (w / 8))).take (w / 8)))

/-- The message schedule. -/
def W (F : Functions w) (block : List UInt8) (t : Nat) : BitVec w :=
  if t < 16 then M w block t
  else F.sigma1 (W F block (t - 2)) + W F block (t - 7) + F.sigma0 (W F block (t - 15))
    + W F block (t - 16)

/-- A round. -/
noncomputable def step (F : Functions w) (block : List UInt8) (v : Words w) (t : Nat) : Words w :=
  let T1 := v.h + F.sum1 v.e + Ch v.e v.f v.g + K w t + W F block t
  let T2 := F.sum0 v.a + Maj v.a v.b v.c
  { a := T1 + T2, b := v.a, c := v.b, d := v.c, e := v.d + T1, f := v.e, g := v.f, h := v.g }

/-- The next hash value. -/
noncomputable def compress (F : Functions w) (H : Words w) (block : List UInt8) : Words w :=
  H + (List.range F.rounds).foldl (step F block) H

/-! ## A message -/

/-- The hash value of a message, in blocks of 16 words with a field of two words for the number of
its bits. -/
noncomputable def hash (F : Functions w) (H : Words w) (message : List UInt8) : List UInt8 :=
  let length := BigEndian.bytes (2 * (w / 8)) (8 * message.length)
  let H := BlockHash.chain (16 * (w / 8)) (compress F) H
    (BlockHash.padded (16 * (w / 8)) 0x80 0 length message)
  H.toList.flatMap fun v => BigEndian.bytes (w / 8) v.toNat

theorem length_hash (F : Functions w) (H : Words w) (message : List UInt8) :
    (hash F H message).length = 8 * (w / 8) := by
  simp only [hash, Words.toList, List.flatMap_cons, List.flatMap_nil, List.length_append,
    BigEndian.length_bytes, List.length_nil]
  omega

noncomputable def sha256 (message : List UInt8) : List UInt8 :=
  hash functions256 (initial 32 0) message

noncomputable def sha512 (message : List UInt8) : List UInt8 :=
  hash functions512 (initial 64 0) message

/-- SHA-384 starts from the ninth to sixteenth primes, and its digest is the left 384 bits. -/
noncomputable def sha384 (message : List UInt8) : List UInt8 :=
  (hash functions512 (initial 64 8) message).take 48

end Fips

/-! ## The work on a block -/

open Fips

/-- The functions and the tables of a header are those of the standard. -/
structure Core.Meets (core : Core w) (F : Functions w) : Prop where
  bytes : core.bytes = w / 8
  get_be : ∀ p o, core.get_be p o = BitVec.ofNat w (BigEndian.value (p.slice o (w / 8)))
  put_be : ∀ v, core.put_be v = BigEndian.bytes (w / 8) v.toNat
  rounds : core.k.length = F.rounds
  rounds_ge : 16 ≤ F.rounds
  k : ∀ t < F.rounds, core.k.getD t 0 = K w t
  s0 : core.s0 = F.sigma0
  s1 : core.s1 = F.sigma1
  S0 : core.S0 = F.sum0
  S1 : core.S1 = F.sum1

/-- A part of a run of bytes. -/
theorem drop_take_slice (b : Block) {o n i k : Nat} (h : i + k ≤ n) :
    ((b.slice o n).drop i).take k = b.slice (o + i) k := by
  obtain ⟨m, rfl⟩ := Nat.exists_eq_add_of_le h
  rw [Nat.add_assoc, Block.slice_add, List.drop_left' (Block.length_slice b o i), Block.slice_add,
    List.take_left' (Block.length_slice b _ k)]

theorem W_of_lt (F : Functions w) (block : List UInt8) {t : Nat} (h : t < 16) :
    W F block t = M w block t := by
  rw [W, if_pos h]

theorem W_of_ge (F : Functions w) (block : List UInt8) {t : Nat} (h : 16 ≤ t) :
    W F block t = F.sigma1 (W F block (t - 2)) + W F block (t - 7) + F.sigma0 (W F block (t - 15))
      + W F block (t - 16) := by
  rw [W, if_neg (Nat.not_lt.mpr h)]

/-- The first words of an array. -/
theorem getD_map_range {β : Type*} (f : Nat → β) (d : β) {n i : Nat} (h : i < n) :
    ((List.range n).map f).getD i d = f i := by
  rw [List.getD_eq_getElem _ _ (by simpa using h), List.getElem_map, List.getElem_range]

namespace Core.Meets

variable {core : Core w} {F : Functions w}

/-- What is loaded of a block. -/
theorem load (hF : core.Meets F) (p : Block) :
    core.load p = (List.range 16).map (W F (p.slice 0 (16 * (w / 8)))) := by
  refine List.map_congr_left fun t ht => ?_
  rw [List.mem_range] at ht
  have hmul : t * (w / 8) + w / 8 ≤ 16 * (w / 8) := by
    rw [← Nat.succ_mul]
    exact Nat.mul_le_mul_right _ ht
  rw [W_of_lt F _ ht, M, drop_take_slice p hmul, Nat.zero_add, hF.get_be, hF.bytes]

/-- **The array holds the schedule**, as far as it goes. -/
theorem expand (hF : core.Meets F) (block : List UInt8) (n m : Nat) (hm : 16 ≤ m) :
    core.expand n ((List.range m).map (W F block)) = (List.range (m + n)).map (W F block) := by
  induction n generalizing m with
  | zero => rfl
  | succ n ih =>
    have hword : W F block (m - 16) + core.s0 (W F block (m - 15)) + W F block (m - 7)
        + core.s1 (W F block (m - 2)) = W F block m := by
      rw [W_of_ge F block hm, hF.s0, hF.s1]
      ac_rfl
    have hsnoc : (List.range m).map (W F block) ++ [W F block m]
        = (List.range (m + 1)).map (W F block) := by
      rw [List.range_succ, List.map_append, List.map_singleton]
    rw [Core.expand, List.length_map, List.length_range, getD_map_range _ _ (by omega),
      getD_map_range _ _ (by omega), getD_map_range _ _ (by omega), getD_map_range _ _ (by omega),
      hword, hsnoc, ih (m + 1) (by omega), Nat.add_right_comm, Nat.add_assoc m n 1]

/-- **The work on a block** is what the standard says. -/
theorem process_block (hF : core.Meets F) (H : Words w) (p : Block) :
    core.process_block H p = compress F H (p.slice 0 (16 * (w / 8))) := by
  have hrounds : 16 + (F.rounds - 16) = F.rounds := Nat.add_sub_of_le hF.rounds_ge
  unfold Core.process_block compress
  dsimp only
  rw [hF.load, hF.expand _ _ _ (Nat.le_refl 16), hF.rounds, hrounds]
  congr 1
  refine List.foldl_ext _ _ _ fun v t ht => ?_
  rw [List.mem_range] at ht
  unfold Core.round step
  rw [hF.k t ht, getD_map_range _ _ ht, hF.S0, hF.S1]
  rfl

theorem serialize (hF : core.Meets F) (H : Words w) :
    core.serialize H = H.toList.flatMap fun v => BigEndian.bytes (w / 8) v.toNat :=
  congrArg (H.toList.flatMap ·) (funext hF.put_be)

end Core.Meets

end Sha2

/-!
## The functions and tables of `sha256.h` and `sha512.h`

They are those of the standard. That a number of a table is the fraction of a root is a comparison
of powers (`fraction_of_within`), made for the whole table at once, and the primes are found by
trial division. The loads and stores are shifts by whole bytes.
-/

namespace Sha2
open Fips WordBytes

variable {w : Nat}

/-! ## Primes -/

/-- The numbers with a property, in their order. -/
theorem filter_range (p : Nat → Prop) [DecidablePred p] (n : Nat) :
    (List.range n).filter (fun i => p i) = (List.range (Nat.count p n)).map (Nat.nth p) := by
  induction n with
  | zero => rw [Nat.count_zero]; rfl
  | succ n ih =>
    rw [List.range_succ, List.filter_append, ih, Nat.count_succ]
    by_cases h : p n
    · rw [if_pos h, List.range_succ, List.map_append, List.map_singleton, Nat.nth_count h]
      simp [h]
    · rw [if_neg h, Nat.add_zero]
      simp [h]

/-- Trial division. -/
def undivided (p : Nat) : Bool := decide (2 ≤ p) && (List.range' 2 (p - 2)).all fun m => p % m ≠ 0

theorem undivided_iff (p : Nat) : undivided p = true ↔ p.Prime := by
  unfold undivided
  rw [Nat.prime_def_lt', Bool.and_eq_true, decide_eq_true_eq, List.all_eq_true]
  refine and_congr_right fun hp => forall_congr' fun m => ?_
  rw [List.mem_range'_1, decide_eq_true_eq, Nat.dvd_iff_mod_eq_zero]
  exact ⟨fun h h2 hlt => h ⟨h2, by omega⟩, fun h hm => h hm.1 (by omega)⟩

/-- As many primes as there are rounds. -/
def primes : List Nat :=
  [2, 3, 5, 7, 11, 13, 17, 19, 23, 29, 31, 37, 41, 43, 47, 53, 59, 61, 67, 71, 73, 79, 83, 89, 97,
   101, 103, 107, 109, 113, 127, 131, 137, 139, 149, 151, 157, 163, 167, 173, 179, 181, 191, 193,
   197, 199, 211, 223, 227, 229, 233, 239, 241, 251, 257, 263, 269, 271, 277, 281, 283, 293, 307,
   311, 313, 317, 331, 337, 347, 349, 353, 359, 367, 373, 379, 383, 389, 397, 401, 409]

theorem filter_undivided : (List.range 410).filter undivided = primes := by
  decide +kernel

/-- **The primes of the table are the first ones.** -/
theorem nth_prime {t : Nat} (h : t < 80) : Nat.nth Nat.Prime t = primes.getD t 0 := by
  have hall : primes = (List.range (Nat.count Nat.Prime 410)).map (Nat.nth Nat.Prime) := by
    rw [← filter_range, ← filter_undivided]
    exact List.filter_congr fun p _ => by
      rw [Bool.eq_iff_iff, undivided_iff, decide_eq_true_eq]
  have hlen : Nat.count Nat.Prime 410 = 80 := by
    have := congrArg List.length hall
    rw [List.length_map, List.length_range] at this
    exact this.symm
  rw [hall, hlen, getD_map_range _ _ h]

/-! ## Roots -/

/-- A number with these fractional bits is the root, up to what is behind them. -/
def within (n w p x : Nat) : Bool :=
  (List.range 32).any fun q =>
    decide ((q * 2 ^ w + x) ^ n ≤ p * 2 ^ (n * w)) && decide (p * 2 ^ (n * w) < (q * 2 ^ w + x + 1) ^ n)

theorem fraction_of_within {n p : Nat} {x : BitVec w} (h : within n w p x.toNat = true) :
    fraction n w p = x := by
  obtain ⟨q, -, hq⟩ := List.any_eq_true.mp h
  rw [Bool.and_eq_true, decide_eq_true_eq, decide_eq_true_eq] at hq
  apply BitVec.eq_of_toNat_eq
  rw [fraction, Nat.nthRoot_eq_of_le_of_lt hq.1 hq.2, BitVec.toNat_ofNat, Nat.mul_comm,
    Nat.mul_add_mod, Nat.mod_eq_of_lt x.isLt]

/-- A table of cube roots. -/
theorem k_of_within {k : List (BitVec w)} {n : Nat} (hn : n ≤ 80)
    (h : (List.range n).all (fun t => within 3 w (primes.getD t 0) (k.getD t 0).toNat) = true)
    {t : Nat} (ht : t < n) : k.getD t 0 = K w t := by
  have := List.all_eq_true.mp h t (List.mem_range.mpr ht)
  rw [K, nth_prime (Nat.lt_of_lt_of_le ht hn), fraction_of_within this]

/-- Eight words of square roots. -/
theorem initial_of_within {iv : Words w} {first : Nat} (hn : first ≤ 8)
    (h : (List.range 8).all
      (fun t => within 2 w (primes.getD (first + t) 0) (iv.toList.getD t 0).toNat) = true) :
    iv = initial w first := by
  have key (t : Nat) (ht : t < 8) :
      iv.toList.getD t 0 = fraction 2 w (Nat.nth Nat.Prime (first + t)) := by
    have := List.all_eq_true.mp h t (List.mem_range.mpr ht)
    rw [nth_prime (by omega), fraction_of_within this]
  exact Words.ext (key 0 (by decide)) (key 1 (by decide)) (key 2 (by decide)) (key 3 (by decide))
    (key 4 (by decide)) (key 5 (by decide)) (key 6 (by decide)) (key 7 (by decide))

/-- Eight words that have the fractional bits of square roots. -/
abbrev IvWithin (iv : Words w) (first : Nat) : Prop :=
  ((List.range 8).all fun t =>
    within 2 w (primes.getD (first + t) 0) (iv.toList.getD t 0).toNat) = true

/-- A table that has the fractional bits of cube roots. -/
abbrev KWithin (k : List (BitVec w)) (n : Nat) : Prop :=
  ((List.range n).all fun t => within 3 w (primes.getD t 0) (k.getD t 0).toNat) = true

/-- The tables of the two headers. -/
theorem tables_within :
    IvWithin sha256_iv 0 ∧ IvWithin sha512_iv 0 ∧ IvWithin sha384_iv 8
      ∧ KWithin sha256_core.k 64 ∧ KWithin sha512_core.k 80 := by
  decide +kernel

/-- **The initial hash values** of the standard. -/
theorem sha256_iv_eq : sha256_iv = initial 32 0 := initial_of_within (by decide) tables_within.1

theorem sha512_iv_eq : sha512_iv = initial 64 0 := initial_of_within (by decide) tables_within.2.1

theorem sha384_iv_eq : sha384_iv = initial 64 8 := initial_of_within (by decide) tables_within.2.2.1

/-! ## Shifts -/

theorem rotr_eq (x : BitVec w) {n : Nat} (h : n < w) : rotr x n = x.rotateRight n := by
  rw [rotr, BitVec.rotateRight_def, Nat.mod_eq_of_lt h]

theorem sha256_get32_be_eq (p : Block) (o : Nat) :
    sha256_get32_be p o = BitVec.ofNat 32 (BigEndian.value (p.slice o 4)) := by
  rw [← shiftIn_eq]
  simp [shiftIn, sha256_get32_be, Block.slice, List.range_succ, BitVec.shiftLeft_or_distrib,
    ← BitVec.shiftLeft_add]

theorem sha256_put32_be_eq (v : BitVec 32) :
    sha256_put32_be v = BigEndian.bytes 4 v.toNat := by
  rw [BigEndian.bytes_eq (toNat_byte v)]
  rfl

/-! ## The two headers -/

theorem sha256_meets : sha256_core.Meets functions256 where
  bytes := rfl
  get_be := sha256_get32_be_eq
  put_be := sha256_put32_be_eq
  rounds := rfl
  rounds_ge := by decide
  k t ht := k_of_within (n := 64) (by decide) tables_within.2.2.2.1 ht
  s0 := by
    funext x
    simp only [sha256_core, functions256, sha256_rotr, rotr_eq, Nat.reduceLT]
  s1 := by
    funext x
    simp only [sha256_core, functions256, sha256_rotr, rotr_eq, Nat.reduceLT]
  S0 := by
    funext x
    simp only [sha256_core, functions256, sha256_rotr, rotr_eq, Nat.reduceLT]
  S1 := by
    funext x
    simp only [sha256_core, functions256, sha256_rotr, rotr_eq, Nat.reduceLT]

theorem sha512_meets : sha512_core.Meets functions512 where
  bytes := rfl
  get_be := get64_be_eq
  put_be := put64_be_eq
  rounds := rfl
  rounds_ge := by decide
  k t ht := k_of_within (n := 80) (by decide) tables_within.2.2.2.2 ht
  s0 := by
    funext x
    simp only [sha512_core, functions512, sha512_rotr, rotr_eq, Nat.reduceLT]
  s1 := by
    funext x
    simp only [sha512_core, functions512, sha512_rotr, rotr_eq, Nat.reduceLT]
  S0 := by
    funext x
    simp only [sha512_core, functions512, sha512_rotr, rotr_eq, Nat.reduceLT]
  S1 := by
    funext x
    simp only [sha512_core, functions512, sha512_rotr, rotr_eq, Nat.reduceLT]

end Sha2
