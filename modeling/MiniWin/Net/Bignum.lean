import MiniWin.Lib.Limbs

/-!
# Big numbers

`kernel/bignum.h`: numbers of `BIGNUM_LIMBS` limbs, and the arithmetic of a power modulo another.
Every loop goes over the limbs, or over the bits, as the source's does.
-/

namespace Bignum

open Limbs (countdown)

/-- `BIGNUM_LIMBS`. -/
def bignumLimbs : Nat := 130

/-- So many limbs, the lowest first. -/
structure Row (n : Nat) where
  limb : List UInt32
  width : limb.length = n
deriving DecidableEq

/-- `bignum_t`. -/
abbrev Num := Row bignumLimbs

/-- `u32[2 * BIGNUM_LIMBS]`, which a product fills. -/
abbrev Wide := Row (2 * bignumLimbs)

/-- The number that the limbs are. -/
def Row.value {n : Nat} (a : Row n) : Nat := Limbs.value a.limb

/-- `bn_zero`. -/
def zero (n : Nat) : Row n := ⟨List.replicate n 0, List.length_replicate⟩

/-! ## Bytes -/

/-- A byte goes into its limb. -/
def orByte (data : List UInt8) (limb : List UInt32) (i : Nat) : List UInt32 :=
  if i / 4 < bignumLimbs then
    limb.modify (i / 4)
      (· ||| (data.getD (data.length - 1 - i) 0).toUInt32 <<< (i % 4 * 8).toUInt32)
  else limb

theorem length_orByte (data : List UInt8) (limb : List UInt32) (i : Nat) :
    (orByte data limb i).length = limb.length := by
  unfold orByte
  split
  · exact List.length_modify ..
  · rfl

theorem length_orBytes (data : List UInt8) (is : List Nat) (limb : List UInt32) :
    (is.foldl (orByte data) limb).length = limb.length := by
  induction is generalizing limb with
  | nil => rfl
  | cons i is ih => rw [List.foldl_cons, ih, length_orByte]

/-- `bn_from_bytes_be`. -/
def fromBytesBe (data : List UInt8) : Num :=
  ⟨(List.range data.length).foldl (orByte data) (zero bignumLimbs).limb,
    (length_orBytes ..).trans (zero bignumLimbs).width⟩

/-- The byte that is `i` bytes from the end. -/
def byteAt (a : Num) (i : Nat) : UInt8 :=
  if i / 4 < bignumLimbs then (a.limb.getD (i / 4) 0 >>> (i % 4 * 8).toUInt32).toUInt8 else 0

/-- `bn_to_bytes_be`, which writes the last byte first. -/
def toBytesBe (a : Num) (out_len : Nat) : List UInt8 :=
  ((List.range out_len).map (byteAt a)).reverse

/-! ## Lengths -/

/-- The limbs in use, of the first `i`. -/
def usedFrom (limb : List UInt32) : Nat → Nat
  | 0 => 0
  | i + 1 => if limb.getD i 0 ≠ 0 then i + 1 else usedFrom limb i

/-- `bn_used_limbs`. -/
def usedLimbs (a : Num) : Nat := usedFrom a.limb bignumLimbs

/-- One more than the highest bit that is set, of the first `bit` of a limb. -/
def bitsFrom (w : UInt32) : Nat → Nat
  | 0 => 0
  | bit + 1 => if w &&& 1 <<< bit.toUInt32 ≠ 0 then bit + 1 else bitsFrom w bit

/-- One more than the highest bit that is set, of the first limbs. -/
def wideBitsFrom (wide : List UInt32) : Nat → Nat
  | 0 => 0
  | limb + 1 =>
    if wide.getD limb 0 ≠ 0 then limb * 32 + bitsFrom (wide.getD limb 0) 32
    else wideBitsFrom wide limb

/-- `bn_wide_bit_length`, plus one: 0 stands for its -1. -/
def wideBits (wide : Wide) : Nat := wideBitsFrom wide.limb (2 * bignumLimbs)

/-- `bn_bit_length`. -/
def bitLength (a : Num) : Nat :=
  let used := usedLimbs a
  if used = 0 then 0 else (used - 1) * 32 + bitsFrom (a.limb.getD (used - 1) 0) 32

/-! ## Sums and differences -/

/-- The comparison of the first `i` limbs, from the highest down. -/
def cmpFrom (a b : List UInt32) : Nat → Ordering
  | 0 => .eq
  | i + 1 =>
    if a.getD i 0 ≠ b.getD i 0 then (if a.getD i 0 < b.getD i 0 then .lt else .gt)
    else cmpFrom a b i

/-- `bn_cmp`. -/
def cmp (a b : Num) : Ordering := cmpFrom a.limb b.limb bignumLimbs

/-- The differences of the limbs, with what the limb below has borrowed. -/
def subLimbs : List UInt32 → List UInt32 → Int → List UInt32
  | a :: as, b :: bs, borrow =>
    let diff : Int := a.toNat - b.toNat - borrow
    if diff < 0 then UInt32.ofInt (diff + 2 ^ 32) :: subLimbs as bs 1
    else UInt32.ofInt diff :: subLimbs as bs 0
  | _, _, _ => []

/-- The sums of the limbs, with what the limb below has carried over. -/
def addLimbs : List UInt32 → List UInt32 → UInt32 → List UInt32
  | a :: as, b :: bs, carry =>
    let sum : UInt64 := a.toUInt64 + b.toUInt64 + carry.toUInt64
    sum.toUInt32 :: addLimbs as bs (sum >>> 32).toUInt32
  | _, _, _ => []

theorem length_subLimbs (a b : List UInt32) (borrow : Int) (h : a.length = b.length) :
    (subLimbs a b borrow).length = a.length := by
  induction a generalizing b borrow with
  | nil => rfl
  | cons x a ih =>
    cases b with
    | nil => exact nomatch h
    | cons y b =>
      unfold subLimbs
      dsimp only
      split
      · exact congrArg (· + 1) (ih b 1 (Nat.succ.inj h))
      · exact congrArg (· + 1) (ih b 0 (Nat.succ.inj h))

theorem length_addLimbs (a b : List UInt32) (carry : UInt32) (h : a.length = b.length) :
    (addLimbs a b carry).length = a.length := by
  induction a generalizing b carry with
  | nil => rfl
  | cons x a ih =>
    cases b with
    | nil => exact nomatch h
    | cons y b => exact congrArg (· + 1) (ih b _ (Nat.succ.inj h))

/-- `bn_sub`. -/
def sub (a b : Num) : Num :=
  ⟨subLimbs a.limb b.limb 0, (length_subLimbs _ _ _ (a.width.trans b.width.symm)).trans a.width⟩

/-- `bn_add`. -/
def add (a b : Num) : Num :=
  ⟨addLimbs a.limb b.limb 0, (length_addLimbs _ _ _ (a.width.trans b.width.symm)).trans a.width⟩

/-! ## Products -/

/-- What is left over goes into the limbs above, until nothing is left. -/
def carryInto : List UInt32 → UInt64 → List UInt32
  | r :: rs, carry =>
    if carry = 0 then r :: rs
    else
      let sum : UInt64 := r.toUInt64 + carry
      sum.toUInt32 :: carryInto rs (sum >>> 32)
  | [], _ => []

/-- One limb times the others, on top of what is there. -/
def mulRow (a : UInt32) : List UInt32 → List UInt32 → UInt64 → List UInt32
  | [], result, carry => carryInto result carry
  | b :: bs, r :: rs, carry =>
    let prod : UInt64 := a.toUInt64 * b.toUInt64 + r.toUInt64 + carry
    prod.toUInt32 :: mulRow a bs rs (prod >>> 32)
  | _ :: _, [], _ => []

/-- The limb at `i` times the others goes to the limbs from `i` on. -/
def mulStep (a b result : List UInt32) (i : Nat) : List UInt32 :=
  if a.getD i 0 = 0 then result
  else result.take i ++ mulRow (a.getD i 0) b (result.drop i) 0

theorem length_carryInto (result : List UInt32) (carry : UInt64) :
    (carryInto result carry).length = result.length := by
  induction result generalizing carry with
  | nil => rfl
  | cons r rs ih =>
    unfold carryInto
    split
    · rfl
    · exact congrArg (· + 1) (ih _)

theorem length_mulRow (a : UInt32) (b result : List UInt32) (carry : UInt64) :
    (mulRow a b result carry).length = result.length := by
  induction b generalizing result carry with
  | nil => exact length_carryInto ..
  | cons x b ih =>
    cases result with
    | nil => rfl
    | cons r rs => exact congrArg (· + 1) (ih rs _)

theorem length_mulStep (a b result : List UInt32) (i : Nat) :
    (mulStep a b result i).length = result.length := by
  unfold mulStep
  split
  · rfl
  · rw [List.length_append, length_mulRow, ← List.length_append, List.take_append_drop]

theorem length_mulSteps (a b result : List UInt32) (is : List Nat) :
    (is.foldl (mulStep a b) result).length = result.length := by
  induction is generalizing result with
  | nil => rfl
  | cons i is ih => rw [List.foldl_cons, ih, length_mulStep]

/-- `bn_mul_wide`. -/
def mulWide (a b : Num) : Wide :=
  ⟨(List.range (usedLimbs a)).foldl (mulStep a.limb (b.limb.take (usedLimbs b)))
      (zero (2 * bignumLimbs)).limb,
    (length_mulSteps ..).trans (zero (2 * bignumLimbs)).width⟩

/-! ## Remainders -/

/-- The first `n` limbs move up by one bit. -/
def shiftLimbs : Nat → List UInt32 → UInt32 → List UInt32
  | n + 1, x :: xs, carry => (x <<< 1 ||| carry) :: shiftLimbs n xs (x >>> 31)
  | _, xs, _ => xs

theorem length_shiftLimbs (n : Nat) (limb : List UInt32) (carry : UInt32) :
    (shiftLimbs n limb carry).length = limb.length := by
  induction limb generalizing n carry with
  | nil => cases n <;> rfl
  | cons x xs ih =>
    cases n with
    | zero => rfl
    | succ n => exact congrArg (· + 1) (ih n _)

/-- The remainder moves up by one bit, and the next bit of the dividend comes in. -/
def shiftIn (wide : Wide) (work_limbs bit : Nat) (rem : Num) : Num :=
  let in_bit := wide.limb.getD (bit / 32) 0 >>> (bit % 32).toUInt32 &&& 1
  ⟨(shiftLimbs work_limbs rem.limb 0).modify 0 (· ||| in_bit),
    (List.length_modify ..).trans ((length_shiftLimbs ..).trans rem.width)⟩

/-- One round of the division. -/
def modRound (wide : Wide) (mod : Num) (work_limbs bit : Nat) (rem : Num) : Num :=
  let rem := shiftIn wide work_limbs bit rem
  if cmp rem mod ≠ .lt then sub rem mod else rem

/-- `bn_mod_wide`. -/
def modWide (wide : Wide) (mod : Num) : Num :=
  let work_limbs := min (usedLimbs mod + 1) bignumLimbs
  countdown (modRound wide mod work_limbs) (wideBits wide) (zero bignumLimbs)

/-- `bn_mulmod`. -/
def mulmod (a b m : Num) : Num := modWide (mulWide a b) m

/-- `bn_addmod`. -/
def addmod (a b m : Num) : Num :=
  let sum := add a b
  if cmp sum m ≠ .lt then sub sum m else sum

/-- `bn_submod`. -/
def submod (a b m : Num) : Num :=
  if cmp a b ≠ .lt then sub a b else sub m (sub b a)

/-! ## Powers -/

/-- A number in twice the limbs. -/
def widen (b : Num) : Wide :=
  ⟨b.limb ++ (zero bignumLimbs).limb, by rw [List.length_append, b.width, (zero _).width]; rfl⟩

/-- The base, below the modulus. -/
def reduced (base m : Num) : Num := if cmp base m ≠ .lt then modWide (widen base) m else base

/-- What a power starts from. -/
def one : Num := ⟨(zero bignumLimbs).limb.set 0 1, List.length_set.trans (zero bignumLimbs).width⟩

/-- One round of a power: `set` says whether the bit of the exponent is set. -/
def powRound (b m : Num) (set : Nat → Bool) (i : Nat) (acc : Num) : Num :=
  let acc := mulmod acc acc m
  if set i then mulmod acc b m else acc

/-- `bn_modpow_u32exp`. -/
def modpowU32exp (base : Num) (exp : UInt32) (m : Num) : Num :=
  countdown (powRound (reduced base m) m fun i => exp &&& 1 <<< i.toUInt32 ≠ 0)
    (bitsFrom exp 32) one

/-- `bn_modpow`. -/
def modpow (base exp m : Num) : Num :=
  countdown
    (powRound (reduced base m) m fun i => exp.limb.getD (i / 32) 0 &&& 1 <<< (i % 32).toUInt32 ≠ 0)
    (bitLength exp) one

end Bignum
