import Mathlib.Data.Nat.Bitwise
import Mathlib.Logic.Function.Basic

/-!
# Blocks of bytes

A block is a function from offsets to bytes. A program that keeps its data in
blocks reads and writes three things inside them: little-endian numbers,
runs of bytes copied in from elsewhere, and single bits of a bit map. Each of
the three has a writer here, and for each writer the two facts a proof about
the program needs: what reading the same place gives back, and that every
other place is as it was.
-/

/-- A block of bytes, by offset. -/
abbrev Block := Nat → UInt8

namespace Block

/-- The block of zeros. -/
def zero : Block := fun _ => 0

@[simp] theorem zero_apply (i : Nat) : zero i = 0 := rfl

/-- The little-endian 16-bit number at an offset. -/
def le16 (b : Block) (o : Nat) : Nat :=
  (b o).toNat + 256 * (b (o + 1)).toNat

/-- The little-endian 32-bit number at an offset. -/
def le32 (b : Block) (o : Nat) : Nat :=
  (b o).toNat + 256 * (b (o + 1)).toNat + 65536 * (b (o + 2)).toNat
    + 16777216 * (b (o + 3)).toNat

/-- Byte `i` of the little-endian form of `w`. -/
def byteOf (w i : Nat) : UInt8 := UInt8.ofNat (w / 256 ^ i)

/-- The block with `src` copied over it from offset `o` on. -/
def put (b : Block) (o : Nat) (src : List UInt8) : Block := fun i =>
  if o ≤ i ∧ i < o + src.length then src.getD (i - o) 0 else b i

/-- The block with the `n` bytes from `p` on copied to `q`, one after the other. -/
def copied (b : Block) (q p : Nat) : Nat → Block
  | 0 => b
  | n + 1 => Function.update (copied b q p n) (q + n) (copied b q p n (p + n))

/-- The `n` bytes from offset `o` on. -/
def slice (b : Block) (o n : Nat) : List UInt8 :=
  (List.range n).map fun k => b (o + k)

/-- The block with the `n` 32-bit numbers `w 0, …, w (n - 1)` written from
offset `o` on. -/
def putWords (b : Block) (o n : Nat) (w : Nat → Nat) : Block := fun i =>
  if o ≤ i ∧ i < o + 4 * n then byteOf (w ((i - o) / 4)) ((i - o) % 4) else b i

/-- The block with the 32-bit number `v` written at offset `o`. -/
def put32 (b : Block) (o v : Nat) : Block := b.putWords o 1 fun _ => v

/-- Bit `i` of the block read as a bit map, eight bits to a byte. -/
def testBit (b : Block) (i : Nat) : Bool := (b (i / 8)).toNat.testBit (i % 8)

/-- The block with bit `i` switched on or off. -/
def setBit (b : Block) (i : Nat) (on : Bool) : Block :=
  Function.update b (i / 8)
    (if on then b (i / 8) ||| UInt8.ofNat (2 ^ (i % 8))
      else b (i / 8) &&& ~~~ UInt8.ofNat (2 ^ (i % 8)))

/-! ## Numbers -/

theorem le32_lt (b : Block) (o : Nat) : b.le32 o < 4294967296 := by
  have h0 := (b o).toNat_lt
  have h1 := (b (o + 1)).toNat_lt
  have h2 := (b (o + 2)).toNat_lt
  have h3 := (b (o + 3)).toNat_lt
  unfold le32
  omega

@[simp] theorem le32_zero (o : Nat) : zero.le32 o = 0 := rfl

/-- Only the four bytes of a number decide it. -/
theorem le32_congr {b c : Block} {o p : Nat} (h : ∀ i < 4, b (o + i) = c (p + i)) :
    b.le32 o = c.le32 p := by
  have h0 := h 0 (by omega)
  have h1 := h 1 (by omega)
  have h2 := h 2 (by omega)
  have h3 := h 3 (by omega)
  simp only [Nat.add_zero] at h0
  simp only [le32, h0, h1, h2, h3]

theorem toNat_byteOf (w i : Nat) : (byteOf w i).toNat = w / 256 ^ i % 256 := by
  simp [byteOf]

/-- The four little-endian bytes of a number add up to it. -/
theorem byteOf_sum (w : Nat) :
    (byteOf w 0).toNat + 256 * (byteOf w 1).toNat + 65536 * (byteOf w 2).toNat
      + 16777216 * (byteOf w 3).toNat = w % 4294967296 := by
  simp only [toNat_byteOf]
  omega

/-- **A number written is the number read**, up to what 32 bits can hold. -/
theorem le32_putWords (b : Block) {o n j : Nat} (w : Nat → Nat) (hj : j < n) :
    (b.putWords o n w).le32 (o + 4 * j) = w j % 4294967296 := by
  have key : ∀ i < 4, (b.putWords o n w) (o + 4 * j + i) = byteOf (w j) i := by
    intro i hi
    have hcond : o ≤ o + 4 * j + i ∧ o + 4 * j + i < o + 4 * n := by omega
    have hdiv : (o + 4 * j + i - o) / 4 = j := by omega
    have hmod : (o + 4 * j + i - o) % 4 = i := by omega
    simp only [putWords, hcond, and_self, if_true, hdiv, hmod]
  have h0 := key 0 (by omega)
  simp only [Nat.add_zero] at h0
  simp only [le32, h0, key 1 (by omega), key 2 (by omega), key 3 (by omega)]
  exact byteOf_sum (w j)

/-- Bytes outside the numbers written are as they were. -/
theorem putWords_apply_of_not_mem (b : Block) {o n i : Nat} (w : Nat → Nat)
    (h : i < o ∨ o + 4 * n ≤ i) : b.putWords o n w i = b i := by
  have hcond : ¬(o ≤ i ∧ i < o + 4 * n) := by omega
  simp only [putWords, hcond, if_false]

theorem le32_putWords_of_disjoint (b : Block) {o n p : Nat} (w : Nat → Nat)
    (h : p + 4 ≤ o ∨ o + 4 * n ≤ p) : (b.putWords o n w).le32 p = b.le32 p :=
  le32_congr fun i hi => putWords_apply_of_not_mem b w (by omega)

theorem le32_put32 (b : Block) (o v : Nat) :
    (b.put32 o v).le32 o = v % 4294967296 :=
  le32_putWords (o := o) (j := 0) b (fun _ => v) (by omega)

theorem le32_put32_of_lt (b : Block) (o : Nat) {v : Nat} (h : v < 4294967296) :
    (b.put32 o v).le32 o = v := by
  rw [le32_put32, Nat.mod_eq_of_lt h]

theorem le32_put32_of_disjoint (b : Block) {o p : Nat} (v : Nat)
    (h : p + 4 ≤ o ∨ o + 4 ≤ p) : (b.put32 o v).le32 p = b.le32 p :=
  le32_putWords_of_disjoint b _ (by omega)

theorem put32_apply_of_not_mem (b : Block) {o i : Nat} (v : Nat) (h : i < o ∨ o + 4 ≤ i) :
    b.put32 o v i = b i :=
  putWords_apply_of_not_mem b _ (by omega)

/-- The numbers of a table of 32-bit entries, one entry rewritten. -/
theorem le32_put32_index (b : Block) (i j v : Nat) :
    (b.put32 (4 * i) v).le32 (4 * j)
      = if j = i then v % 4294967296 else b.le32 (4 * j) := by
  by_cases h : j = i
  · subst h
    rw [if_pos rfl, le32_put32]
  · rw [if_neg h, le32_put32_of_disjoint b v (by omega)]

/-! ## Runs of bytes -/

theorem put_apply_of_mem (b : Block) {o i : Nat} {src : List UInt8} (h : i < src.length) :
    b.put o src (o + i) = src[i] := by
  have hcond : o ≤ o + i ∧ o + i < o + src.length := by omega
  have hsub : o + i - o = i := by omega
  simp only [put, hcond, and_self, if_true, hsub]
  simp [h]

theorem put_apply_of_not_mem (b : Block) {o i : Nat} {src : List UInt8}
    (h : i < o ∨ o + src.length ≤ i) : b.put o src i = b i := by
  have hcond : ¬(o ≤ i ∧ i < o + src.length) := by omega
  simp only [put, hcond, if_false]

theorem le32_put_of_disjoint (b : Block) {o p : Nat} {src : List UInt8}
    (h : p + 4 ≤ o ∨ o + src.length ≤ p) : (b.put o src).le32 p = b.le32 p :=
  le32_congr fun i hi => put_apply_of_not_mem b (by omega)

@[simp] theorem length_slice (b : Block) (o n : Nat) : (b.slice o n).length = n := by
  simp [slice]

@[simp] theorem getElem_slice (b : Block) (o n : Nat) {i : Nat}
    (h : i < (b.slice o n).length) : (b.slice o n)[i] = b (o + i) := by
  simp [slice]

theorem slice_congr {b c : Block} {o p n : Nat} (h : ∀ i < n, b (o + i) = c (p + i)) :
    b.slice o n = c.slice p n :=
  List.ext_getElem (by simp) fun i h₁ _ => by simpa using h i (by simpa using h₁)

/-- A run of bytes is its first part and what is behind. -/
theorem slice_add (b : Block) (o m n : Nat) : b.slice o (m + n) = b.slice o m ++ b.slice (o + m) n := by
  unfold slice
  rw [List.range_add, List.map_append, List.map_map]
  congr 1
  exact List.map_congr_left fun k _ => congrArg b (Nat.add_assoc o m k).symm

/-- Two runs that are there one behind the other. -/
theorem slice_append_inj (b : Block) {o : Nat} {xs ys : List UInt8}
    (h : b.slice o (xs ++ ys).length = xs ++ ys) :
    b.slice o xs.length = xs ∧ b.slice (o + xs.length) ys.length = ys := by
  rw [List.length_append, slice_add] at h
  exact List.append_inj h (length_slice b o xs.length)

/-- **A run of bytes written is the run read.** -/
theorem slice_put (b : Block) (o : Nat) (src : List UInt8) :
    (b.put o src).slice o src.length = src :=
  List.ext_getElem (by simp) fun i _ h₂ => by
    rw [getElem_slice, put_apply_of_mem b h₂]

/-- Two runs one behind the other are one run. -/
theorem put_put_append (b : Block) (o : Nat) (xs ys : List UInt8) :
    (b.put o xs).put (o + xs.length) ys = b.put o (xs ++ ys) := by
  funext i
  unfold put
  rw [List.length_append]
  by_cases hx : o ≤ i ∧ i < o + xs.length
  · rw [if_neg (by omega), if_pos hx, if_pos (by omega), List.getD_append _ _ _ _ (by omega)]
  · by_cases hy : o + xs.length ≤ i ∧ i < o + xs.length + ys.length
    · rw [if_pos hy, if_pos (by omega), List.getD_append_right _ _ _ _ (by omega)]
      congr 1
      omega
    · rw [if_neg hy, if_neg hx, if_neg (by omega)]

theorem copied_of_outside (b : Block) {q p i : Nat} :
    ∀ {n : Nat}, i < q ∨ q + n ≤ i → b.copied q p n i = b i
  | 0, _ => rfl
  | n + 1, h => by
    unfold copied
    rw [Function.update_of_ne (by omega)]
    exact copied_of_outside b (by omega)

/-- **A copy to a place that is not behind the original, or apart.** -/
theorem copied_apply (b : Block) {q p : Nat} : ∀ {n : Nat}, p + n ≤ q ∨ q ≤ p → ∀ k < n,
    b.copied q p n (q + k) = b (p + k)
  | 0, _, k, hk => absurd hk (Nat.not_lt_zero k)
  | n + 1, hapart, k, hk => by
    unfold copied
    by_cases hkn : k = n
    · rw [hkn, Function.update_self]
      exact copied_of_outside b (by omega)
    · rw [Function.update_of_ne (by omega)]
      exact copied_apply b (by omega) k (by omega)

/-- A copy from within the first `len` bytes depends on these alone. -/
theorem copied_congr {b c : Block} {len q p : Nat} (h : ∀ i < len, c i = b i) :
    ∀ {n : Nat}, p + n ≤ len → ∀ i < len, c.copied q p n i = b.copied q p n i
  | 0, _, i, hi => h i hi
  | n + 1, hn, i, hi => by
    have ih := copied_congr (q := q) (p := p) h (n := n) (by omega)
    unfold copied
    rw [ih (p + n) (by omega)]
    by_cases hq : i = q + n
    · rw [hq, Function.update_self, Function.update_self]
    · rw [Function.update_of_ne hq, Function.update_of_ne hq]
      exact ih i hi

/-! ## Bits -/

theorem toNat_two_pow {k : Nat} (h : k < 8) : (UInt8.ofNat (2 ^ k)).toNat = 2 ^ k := by
  have : 2 ^ k < 2 ^ 8 := Nat.pow_lt_pow_right (by omega) h
  simp only [UInt8.toNat_ofNat']
  exact Nat.mod_eq_of_lt this

/-- Switching a bit of a byte on leaves its other bits alone. -/
theorem byte_or_testBit (x : UInt8) {k j : Nat} (hk : k < 8) :
    (x ||| UInt8.ofNat (2 ^ k)).toNat.testBit j
      = (decide (k = j) || x.toNat.testBit j) := by
  rw [UInt8.toNat_or, Nat.testBit_or, toNat_two_pow hk, Nat.testBit_two_pow, Bool.or_comm]

/-- Switching a bit of a byte off leaves its other bits alone. -/
theorem byte_and_testBit (x : UInt8) {k j : Nat} (hk : k < 8) (hj : j < 8) :
    (x &&& ~~~ UInt8.ofNat (2 ^ k)).toNat.testBit j
      = (!decide (k = j) && x.toNat.testBit j) := by
  have hlt : 2 ^ k < 2 ^ 8 := Nat.pow_lt_pow_right (by omega) hk
  rw [UInt8.toNat_and, Nat.testBit_and, UInt8.toNat_not, toNat_two_pow hk]
  have hsub : UInt8.size - 1 - 2 ^ k = 2 ^ 8 - (2 ^ k + 1) := by
    simp only [UInt8.size]
    omega
  rw [hsub, Nat.testBit_two_pow_sub_succ hlt, Nat.testBit_two_pow]
  simp [hj, Bool.and_comm]

/-- **A bit written is the bit read, and no other bit changes.** -/
theorem testBit_setBit (b : Block) (i j : Nat) (on : Bool) :
    (b.setBit i on).testBit j = if j = i then on else b.testBit j := by
  have hk : i % 8 < 8 := Nat.mod_lt _ (by omega)
  have hj : j % 8 < 8 := Nat.mod_lt _ (by omega)
  by_cases hb : j / 8 = i / 8
  · have hji : j = i ↔ i % 8 = j % 8 := by omega
    simp only [testBit, setBit, hb, Function.update_self]
    cases on
    · simp only [Bool.false_eq_true, if_false, byte_and_testBit _ hk hj, hji]
      split <;> simp_all
    · simp only [if_true, byte_or_testBit _ hk, hji]
      split <;> simp_all
  · have hji : j ≠ i := fun h => hb (by rw [h])
    simp only [testBit, setBit, Function.update_of_ne hb, hji, if_false]

end Block
