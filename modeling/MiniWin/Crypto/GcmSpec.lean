import MiniWin.Crypto.Gcm
import MiniWin.Lib.BlockHash
import MiniWin.Lib.ShiftXor

/-!
# The product with the hash key

SP 800-38D, for initial values of 96 bits and tags of 128: a block is a row of 128 bits, the first
one being the highest, and `mul` is its product bit after bit. `toBlock` reads a cell of 16 bytes as
a block, and `getMsbD_toBlock` says where each bit is.

`mult_h_eq` is that the table does the same. An entry of the table is the product of its four bits
(`entry_build_table`), and to go four places on is a shift and a look at the four bits that fall out
(`shift4`). By `ShiftXor.combine_append` the bytes can be taken from the last to the first.
-/

namespace Gcm
open ShiftXor

namespace Spec

/-- The constant of the reduction, `11100001 ‖ 0¹²⁰`. -/
def R : BitVec 128 := 0xe1 <<< 120

/-- The bits `x₀ x₁ … x₁₂₇` of a block. -/
def bits (X : BitVec 128) : List Bool := (List.range 128).map X.getMsbD

/-- The product of two blocks, bit after bit. -/
def mul (X Y : BitVec 128) : BitVec 128 := product R (bits X) Y

def ofBytes (l : List UInt8) : BitVec 128 := BitVec.ofNat 128 (BigEndian.value l)

def toBytes (X : BitVec 128) : List UInt8 := BigEndian.bytes 16 X.toNat

/-- The hash of a row of whole blocks. -/
def ghash (H : BitVec 128) (X : List UInt8) : BitVec 128 :=
  BlockHash.chain 16 (fun Y X => mul (Y ^^^ ofBytes X) H) 0 X

/-- The last 32 bits count. -/
def inc (X : BitVec 128) : BitVec 128 := X.extractLsb' 32 96 ++ (X.setWidth 32 + 1)

/-- Counter mode: every byte meets its byte of the row of enciphered counters. -/
def gctr (CIPH : BitVec 128 → BitVec 128) (ICB : BitVec 128) (X : List UInt8) : List UInt8 :=
  X.mapIdx fun j x => x ^^^ (toBytes (CIPH (inc^[j / 16] ICB))).getD (j % 16) 0

/-- Zeros up to a whole number of blocks. -/
def pad (X : List UInt8) : List UInt8 := X ++ List.replicate ((16 - X.length % 16) % 16) 0

def J0 (IV : BitVec 96) : BitVec 128 := IV ++ 1#32

def tag (CIPH : BitVec 128 → BitVec 128) (IV : BitVec 96) (A C : List UInt8) : List UInt8 :=
  let S := ghash (CIPH 0) (pad A ++ pad C ++ BigEndian.bytes 8 (8 * A.length)
    ++ BigEndian.bytes 8 (8 * C.length))
  gctr CIPH (J0 IV) (toBytes S)

/-- The authenticated encryption function: the ciphertext and the tag. -/
def encrypt (CIPH : BitVec 128 → BitVec 128) (IV : BitVec 96) (A P : List UInt8) :
    List UInt8 × List UInt8 :=
  let C := gctr CIPH (inc (J0 IV)) P
  (C, tag CIPH IV A C)

end Spec

open Spec

/-! ## Cells and blocks -/

/-- A cell as a block. -/
def toBlock (c : Cell) : BitVec 128 := ofBytes c.toList

/-- A block as a cell. -/
def toCell (X : BitVec 128) : Cell := ⟨(toBytes X).toArray, by simp [toBytes]⟩

@[simp] theorem toList_toCell (X : BitVec 128) : (toCell X).toList = toBytes X := rfl

@[simp] theorem toBlock_toCell (X : BitVec 128) : toBlock (toCell X) = X := by
  unfold toBlock
  rw [toList_toCell, ofBytes, toBytes, BigEndian.value_bytes X.isLt, BitVec.ofNat_toNat,
    BitVec.setWidth_eq]

theorem toBytes_ofBytes {l : List UInt8} (h : l.length = 16) : toBytes (ofBytes l) = l := by
  have hlt : BigEndian.value l < 2 ^ 128 := by
    have := BigEndian.value_lt l
    rwa [h] at this
  rw [toBytes, ofBytes, BitVec.toNat_ofNat, Nat.mod_eq_of_lt hlt]
  exact (congrArg (BigEndian.bytes · _) h.symm).trans (BigEndian.bytes_value l)

@[simp] theorem toCell_toBlock (c : Cell) : toCell (toBlock c) = c :=
  Vector.toList_inj.mp (toBytes_ofBytes (Vector.length_toList))

theorem get_eq_getD (c : Cell) (i : Fin 16) : c.get i = c.toList.getD i 0 := by
  have hlt : i.val < c.toList.length := by
    rw [Vector.length_toList]
    exact i.isLt
  exact (List.getD_eq_getElem c.toList 0 hlt).symm

/-- **Where a bit of a block is** among the bytes. -/
theorem getMsbD_toBlock (c : Cell) {i : Nat} (h : i < 128) :
    (toBlock c).getMsbD i = (c.get ⟨i / 8, by omega⟩).toBitVec.getLsbD (7 - i % 8) := by
  have hlen : c.toList.length = 16 := Vector.length_toList
  have hbyte : (c.get ⟨i / 8, by omega⟩).toNat
      = BigEndian.value c.toList / 2 ^ (8 * (15 - i / 8)) % 2 ^ 8 := by
    have hget := BigEndian.getElem_toNat c.toList (i := i / 8) (by omega)
    rw [BigEndian.pow_256, show c.toList.length - 1 - i / 8 = 15 - i / 8 by omega] at hget
    exact hget
  show (ofBytes c.toList).getMsbD i = (c.get ⟨i / 8, by omega⟩).toNat.testBit (7 - i % 8)
  rw [hbyte, Nat.testBit_mod_two_pow, Nat.testBit_div_two_pow, BitVec.getMsbD_eq_getLsbD, ofBytes,
    BitVec.getLsbD_ofNat, decide_eq_true h, decide_eq_true (show 128 - 1 - i < 128 by omega),
    decide_eq_true (show 7 - i % 8 < 8 by omega), Bool.true_and, Bool.true_and, Bool.true_and]
  congr 1
  omega

/-- Cells with the same bytes. -/
theorem cell_ext {b c : Cell} (h : ∀ i, b.get i = c.get i) : b = c :=
  Vector.ext fun i hi => h ⟨i, hi⟩

@[simp] theorem get_ofFn (f : Fin 16 → UInt8) (i : Fin 16) : (Vector.ofFn f).get i = f i :=
  Vector.getElem_ofFn i.isLt

theorem toBlock_xor (a b : Cell) : toBlock (gcm_xor_block a b) = toBlock a ^^^ toBlock b := by
  refine BitVec.eq_of_getMsbD_eq fun i hi => ?_
  rw [BitVec.getMsbD_xor, getMsbD_toBlock _ hi, getMsbD_toBlock _ hi, getMsbD_toBlock _ hi,
    gcm_xor_block, get_ofFn, UInt8.toBitVec_xor, BitVec.getLsbD_xor]

@[simp] theorem toBlock_zero : toBlock zero = 0 := by
  decide +kernel

/-! ## Words -/

/-- A row of two parts. -/
theorem toNat_append {m n : Nat} (x : BitVec m) (y : BitVec n) :
    (x ++ y).toNat = x.toNat * 2 ^ n + y.toNat := by
  rw [BitVec.toNat_append, ← Nat.shiftLeft_add_eq_or_of_lt y.isLt, Nat.shiftLeft_eq]

/-- Two words stored in a cell. -/
theorem toBlock_put (y : Cell) (zh zl : BitVec 64) :
    toBlock (gcm_put64_be (gcm_put64_be y 0 zh) 8 zl) = zh ++ zl := by
  have hword (v : BitVec 64) (k : Nat) (hk : k < 64) :
      ((WordBytes.put64_be v).getD (k / 8) 0).toBitVec.getLsbD (7 - k % 8) = v.getMsbD k := by
    have hlt : k / 8 < 8 := by omega
    rw [WordBytes.put64_be, List.getD_eq_getElem _ _ (by simpa using hlt), List.getElem_map,
      List.getElem_range]
    show ((v >>> (56 - 8 * (k / 8))).truncate 8).getLsbD (7 - k % 8) = _
    rw [BitVec.truncate, BitVec.getLsbD_setWidth, BitVec.getLsbD_ushiftRight,
      BitVec.getMsbD_eq_getLsbD, decide_eq_true hk, decide_eq_true (show 7 - k % 8 < 8 by omega),
      Bool.true_and, Bool.true_and]
    congr 1
    omega
  refine BitVec.eq_of_getMsbD_eq fun i hi => ?_
  rw [getMsbD_toBlock _ hi, BitVec.getMsbD_append]
  simp only [gcm_put64_be, get_ofFn]
  by_cases h : 64 ≤ i
  · rw [if_pos (by omega), if_pos h, ← hword zl (i - 64) (by omega)]
    congr 2
    · congr 1
      omega
    · omega
  · rw [if_neg (by omega), if_pos (by omega), if_neg h, ← hword zh i (by omega), Nat.sub_zero]

/-- The two words of a cell. -/
theorem get_append (c : Cell) : gcm_get64_be c 0 ++ gcm_get64_be c 8 = toBlock c := by
  have hword (o : Nat) : WordBytes.put64_be (gcm_get64_be c o)
      = Block.slice (c.toList.getD · 0) o 8 := by
    have hval := BigEndian.bytes_value (Block.slice (c.toList.getD · 0) o 8)
    rw [Block.length_slice] at hval
    rw [gcm_get64_be, WordBytes.put64_be_eq, WordBytes.get64_be_eq, BitVec.toNat_ofNat,
      show (2 : Nat) ^ 64 = 256 ^ 8 from rfl, BigEndian.bytes_mod, hval]
  have hget (i : Fin 16) (o : Nat) (h : o ≤ i.val ∧ i.val < o + 8) :
      (WordBytes.put64_be (gcm_get64_be c o)).getD (i - o) 0 = c.get i := by
    rw [hword, List.getD_eq_getElem _ _ (by rw [Block.length_slice]; omega), Block.getElem_slice,
      Nat.add_sub_cancel' h.1, get_eq_getD]
  rw [← toBlock_put c]
  congr 1
  refine cell_ext fun i => ?_
  rw [gcm_put64_be, get_ofFn]
  split
  · next h => exact hget i 8 h
  · next h =>
    rw [gcm_put64_be, get_ofFn, if_pos (by omega)]
    exact hget i 0 (by omega)

/-! ## The table -/

/-- Four bits, the highest first. -/
def nibble (n : Nat) : List Bool := (List.range 4).map fun j => n.testBit (3 - j)

/-- An entry of the table. -/
def Table.entry (t : Table) (n : Nat) : BitVec 128 := t.hh n ++ t.hl n

theorem entry_set (t : Table) (i : Nat) (h l : BitVec 64) (n : Nat) :
    (t.set i h l).entry n = if n = i then h ++ l else t.entry n := by
  have hset : (t.set i h l).entry n = Function.update t.hh i h n ++ Function.update t.hl i l n := rfl
  rw [hset, Function.update_apply, Function.update_apply, Table.entry]
  split <;> rfl

/-- The words of a value that is moved to the right. -/
theorem append_ushiftRight (vh vl : BitVec 64) {k : Nat} (hk : k ≤ 64) :
    (vh >>> k) ++ ((vh <<< (64 - k)) ||| (vl >>> k)) = (vh ++ vl) >>> k := by
  refine BitVec.eq_of_getLsbD_eq fun i hi => ?_
  rw [BitVec.getLsbD_ushiftRight, BitVec.getLsbD_append, BitVec.getLsbD_append]
  by_cases h : i < 64
  · rw [if_pos h, BitVec.getLsbD_or, BitVec.getLsbD_shiftLeft, BitVec.getLsbD_ushiftRight,
      decide_eq_true h, Bool.true_and]
    by_cases hlow : k + i < 64
    · rw [if_pos hlow, decide_eq_true (show i < 64 - k by omega), Bool.not_true, Bool.false_and,
        Bool.false_or]
    · rw [if_neg hlow, decide_eq_false (show ¬i < 64 - k by omega), Bool.not_false, Bool.true_and,
        BitVec.getLsbD_of_ge vl _ (by omega), Bool.or_false]
      congr 1
      omega
  · rw [if_neg h, if_neg (by omega), BitVec.getLsbD_ushiftRight]
    congr 1
    omega

/-- The words of a value that the register has a step later. -/
theorem append_halve (vh vl : BitVec 64) :
    ((vh >>> 1) ^^^ (if vl.getLsbD 0 then 0xe100000000000000#64 else 0))
      ++ ((vh <<< 63) ||| (vl >>> 1)) = step R (vh ++ vl) := by
  have hlow : (vh ++ vl).getLsbD 0 = vl.getLsbD 0 := by
    rw [BitVec.getLsbD_append, if_pos (by decide)]
  rw [step, hlow, ← append_ushiftRight vh vl (show 1 ≤ 64 by decide)]
  split
  · rw [show R = 0xe100000000000000#64 ++ 0#64 by decide, BitVec.xor_append, BitVec.xor_zero]
  · rw [BitVec.ofNat_eq_ofNat, BitVec.xor_zero]

/-- An entry is the product of its four bits. -/
def Right (h : Cell) (t : Table) (n : Nat) : Prop := t.entry n = combine R (nibble n) (toBlock h)

/-- A round of the loop over the powers of two. -/
theorem halve_eq (t : Table) (vh vl : BitVec 64) (i : Nat) :
    ∃ vh' vl', halve (t, vh, vl) i = (t.set i vh' vl', vh', vl')
      ∧ vh' ++ vl' = step R (vh ++ vl) :=
  ⟨_, _, rfl, append_halve vh vl⟩

/-- The loop over the powers of two. -/
theorem right_powers (h : Cell) : Right h (powers h) 0 ∧ Right h (powers h) 1
    ∧ Right h (powers h) 2 ∧ Right h (powers h) 4 ∧ Right h (powers h) 8 := by
  obtain ⟨t, ht⟩ : ∃ t, ((⟨fun _ => 0, fun _ => 0⟩ : Table).set 0 0 0).set 8 (gcm_get64_be h 0)
    (gcm_get64_be h 8) = t := ⟨_, rfl⟩
  obtain ⟨v1h, v1l, hs1, h1⟩ := halve_eq t (gcm_get64_be h 0) (gcm_get64_be h 8) 4
  obtain ⟨v2h, v2l, hs2, h2⟩ := halve_eq (t.set 4 v1h v1l) v1h v1l 2
  obtain ⟨v3h, v3l, hs3, h3⟩ := halve_eq ((t.set 4 v1h v1l).set 2 v2h v2l) v2h v2l 1
  have hpowers : powers h = ((t.set 4 v1h v1l).set 2 v2h v2l).set 1 v3h v3l := by
    unfold powers
    dsimp only
    rw [ht, List.foldl_cons, List.foldl_cons, List.foldl_cons, List.foldl_nil, hs1, hs2, hs3]
  rw [get_append] at h1
  rw [h1] at h2
  rw [h2] at h3
  rw [hpowers, ← ht]
  have hcombine : combine R (nibble 0) (toBlock h) = 0
      ∧ combine R (nibble 1) (toBlock h) = step R (step R (step R (toBlock h)))
      ∧ combine R (nibble 2) (toBlock h) = step R (step R (toBlock h))
      ∧ combine R (nibble 4) (toBlock h) = step R (toBlock h)
      ∧ combine R (nibble 8) (toBlock h) = toBlock h := by
    refine ⟨?_, ?_, ?_, ?_, ?_⟩ <;> simp [nibble, List.range_succ, combine, Nat.testBit]
  obtain ⟨c0, c1, c2, c4, c8⟩ := hcombine
  refine ⟨?_, ?_, ?_, ?_, ?_⟩
  · simp [Right, entry_set, c0]
  · simp [Right, entry_set, c1, h3]
  · simp [Right, entry_set, c2, h2]
  · simp [Right, entry_set, c4, h1]
  · simp [Right, entry_set, c8, get_append]

/-- The bits of a power of two and of what is below it. -/
theorem nibble_add {i j : Nat} (hi : i = 2 ∨ i = 4 ∨ i = 8) (hj : j < i) :
    nibble (i + j) = (nibble i).zipWith xor (nibble j) := by
  have hall : ∀ i ∈ [2, 4, 8], ∀ j < i, nibble (i + j) = (nibble i).zipWith xor (nibble j) := by
    decide
  exact hall i (by simpa using hi) j hj

/-- A run of the inner loop: the entries behind a power of two. -/
theorem right_double {h : Cell} {t : Table} {i : Nat} (hi : i = 2 ∨ i = 4 ∨ i = 8)
    (hlow : ∀ n < i, Right h t n) (hpow : Right h t i) :
    (∀ n < 2 * i, Right h (double t i) n)
      ∧ ∀ n, 2 * i ≤ n → (double t i).entry n = t.entry n := by
  have key (k : Nat) (hk : k < i) :
      let t' := (List.range' 1 k).foldl
        (fun t j => t.set (i + j) (t.hh i ^^^ t.hh j) (t.hl i ^^^ t.hl j)) t
      (∀ n ≤ i + k, Right h t' n) ∧ ∀ n > i + k, t'.entry n = t.entry n := by
    induction k with
    | zero =>
      refine ⟨fun n hn => ?_, fun n _ => rfl⟩
      rcases Nat.lt_or_eq_of_le hn with hlt | rfl
      · exact hlow n hlt
      · exact hpow
    | succ k ih =>
      obtain ⟨ihl, ihr⟩ := ih (by omega)
      rw [List.range'_concat, List.foldl_append, List.foldl_cons, List.foldl_nil, Nat.one_mul,
        Nat.add_comm 1 k]
      obtain ⟨u, hu⟩ : ∃ u, (List.range' 1 k).foldl
        (fun t j => t.set (i + j) (t.hh i ^^^ t.hh j) (t.hl i ^^^ t.hl j)) t = u := ⟨_, rfl⟩
      rw [hu] at ihl ihr ⊢
      have hnew : (u.hh i ^^^ u.hh (k + 1)) ++ (u.hl i ^^^ u.hl (k + 1))
          = combine R (nibble (i + (k + 1))) (toBlock h) := by
        rw [← BitVec.xor_append, nibble_add hi hk,
          combine_zipWith R (nibble i) (nibble (k + 1)) _ rfl, ← ihl i (by omega), ← ihl (k + 1) (by omega), Table.entry, Table.entry]
      refine ⟨fun n hn => ?_, fun n hn => ?_⟩
      · rw [Right, entry_set]
        split
        · next heq => rw [heq, hnew]
        · next hne => exact ihl n (by omega)
      · rw [entry_set, if_neg (by omega), ihr n (by omega)]
  obtain ⟨hl, hr⟩ := key (i - 1) (by omega)
  exact ⟨fun n hn => hl n (by omega), fun n hn => hr n (by omega)⟩

/-- **Each entry is the product of its four bits.** -/
theorem entry_build_table (h : Cell) {n : Nat} (hn : n < 16) :
    (gcm_build_table h).entry n = combine R (nibble n) (toBlock h) := by
  obtain ⟨h0, h1, h2, h4, h8⟩ := right_powers h
  have hlow : ∀ n < 2, Right h (powers h) n := by
    intro n hn
    obtain rfl | rfl : n = 0 ∨ n = 1 := by omega
    · exact h0
    · exact h1
  obtain ⟨hlow2, hkeep2⟩ := right_double (.inl rfl) hlow h2
  obtain ⟨hlow4, hkeep4⟩ := right_double (.inr (.inl rfl)) hlow2
    ((hkeep2 4 (Nat.le_refl 4)).trans h4)
  obtain ⟨hlow8, -⟩ := right_double (.inr (.inr rfl)) hlow4
    (((hkeep4 8 (Nat.le_refl 8)).trans (hkeep2 8 (by decide))).trans h8)
  exact hlow8 n hn

/-- The four bits that fall out. -/
theorem getLsbD_low {w i : Nat} (hw : 4 ≤ w) : (0xf : BitVec w).getLsbD i = decide (i < 4) := by
  show (BitVec.ofNat w (2 ^ 4 - 1)).getLsbD i = _
  rw [BitVec.getLsbD_ofNat, Nat.testBit_two_pow_sub_one]
  by_cases h : i < 4
  · rw [decide_eq_true h, decide_eq_true (Nat.lt_of_lt_of_le h hw), Bool.and_true]
  · rw [decide_eq_false h, Bool.and_false]

/-- **Four places on** are a shift, and what the four bits that fall out add. -/
theorem shift4 (zh zl : BitVec 64) :
    ((zh >>> 4) ^^^ (last4.getD (zl &&& 0xf).toNat 0 <<< 48)) ++ ((zh <<< 60) ||| (zl >>> 4))
      = (step R)^[4] (zh ++ zl) := by
  obtain ⟨z, hz⟩ : ∃ z : BitVec 128, zh ++ zl = z := ⟨_, rfl⟩
  have hsplit : z = (z &&& ~~~0xf) ^^^ (z &&& 0xf) := by
    refine BitVec.eq_of_getLsbD_eq fun i hi => ?_
    simp only [BitVec.getLsbD_xor, BitVec.getLsbD_and, BitVec.getLsbD_not, hi]
    cases z.getLsbD i <;> cases (0xf : BitVec 128).getLsbD i <;> rfl
  have hhigh : (step R)^[4] (z &&& ~~~0xf) = z >>> 4 := by
    rw [iterate_step_of_low]
    · refine BitVec.eq_of_getLsbD_eq fun i hi => ?_
      rw [BitVec.getLsbD_ushiftRight, BitVec.getLsbD_ushiftRight, BitVec.getLsbD_and,
        BitVec.getLsbD_not, getLsbD_low (by decide), decide_eq_false (show ¬4 + i < 4 by omega),
        Bool.not_false, Bool.and_true]
      by_cases h : 4 + i < 128
      · rw [decide_eq_true h, Bool.and_true]
      · rw [BitVec.getLsbD_of_ge z _ (by omega), Bool.false_and]
    · intro i hi
      rw [BitVec.getLsbD_and, BitVec.getLsbD_not, getLsbD_low (by decide), decide_eq_true hi,
        Bool.not_true, Bool.and_false, Bool.and_false]
  have hlow : ∀ k < 16, (step R)^[4] (BitVec.ofNat 128 k) = (last4.getD k 0 <<< 48) ++ 0#64 := by
    decide +kernel
  have hlt : (zl &&& 0xf).toNat < 16 :=
    Nat.lt_of_le_of_lt (BitVec.toNat_and zl 0xf ▸ Nat.and_le_right) (by decide)
  have hk : z &&& 0xf = BitVec.ofNat 128 (zl &&& 0xf).toNat := by
    refine BitVec.eq_of_getLsbD_eq fun i hi => ?_
    rw [BitVec.getLsbD_ofNat, BitVec.testBit_toNat, decide_eq_true hi, Bool.true_and,
      BitVec.getLsbD_and, BitVec.getLsbD_and, getLsbD_low (by decide), getLsbD_low (by decide),
      ← hz, BitVec.getLsbD_append]
    by_cases h : i < 4
    · rw [if_pos (by omega)]
    · rw [decide_eq_false h, Bool.and_false, Bool.and_false]
  rw [hz, hsplit, iterate_step_xor, hhigh, hk, hlow _ hlt, ← hz,
    ← append_ushiftRight zh zl (show 4 ≤ 64 by decide), BitVec.xor_append, BitVec.xor_zero]

/-- Four bits more in front of those that were looked up. -/
theorem look_eq {h : Cell} {z : BitVec 64 × BitVec 64} {rest : List Bool}
    (hz : z.1 ++ z.2 = combine R rest (toBlock h)) {n : Nat} (hn : n < 16) :
    (look (gcm_build_table h) z n).1 ++ (look (gcm_build_table h) z n).2
      = combine R (nibble n ++ rest) (toBlock h) := by
  obtain ⟨zh, zl⟩ := z
  rw [combine_append, ← hz, ← entry_build_table h hn, BitVec.xor_comm, look, Table.entry]
  rw [← BitVec.xor_append, shift4]
  rfl

/-! ## The product -/

/-- The bits of a byte. -/
def byteBits (b : UInt8) : List Bool := (List.range 8).map fun j => b.toBitVec.getLsbD (7 - j)

theorem byteBits_eq (b : UInt8) :
    byteBits b = nibble ((b >>> 4) &&& 0xf).toNat ++ nibble (b &&& 0xf).toNat := by
  have hf (i : Nat) (hi : i < 4) : (15 : Nat).testBit i = true := by
    have hall : ∀ i < 4, (15 : Nat).testBit i = true := by decide
    exact hall i hi
  simp [byteBits, nibble, List.range_succ, BitVec.getLsbD, Nat.testBit_shiftRight, hf]

theorem nibble_lt (b : UInt8) : (b &&& 0xf).toNat < 16 :=
  Nat.lt_of_le_of_lt (UInt8.toNat_and b 0xf ▸ Nat.and_le_right) (by decide)

/-- The bits of a block are those of its bytes. -/
theorem bits_toBlock (y : Cell) :
    bits (toBlock y) = (List.finRange 16).flatMap fun i => byteBits (y.get i) := by
  have hrange : List.range 128
      = (List.finRange 16).flatMap fun i => (List.range 8).map (8 * i.val + ·) := by
    decide +kernel
  rw [bits, hrange, List.map_flatMap]
  congr 1
  funext i
  rw [List.map_map, byteBits]
  refine List.map_congr_left fun j hj => ?_
  rw [List.mem_range] at hj
  have hdiv : (8 * i.val + j) / 8 = i.val := by omega
  have hmod : (8 * i.val + j) % 8 = j := by omega
  rw [Function.comp_apply, getMsbD_toBlock y (by omega), hmod]
  simp only [hdiv]

/-- The bytes from the last to the first. -/
theorem look_bytes {h y : Cell} (is : List (Fin 16)) (his : ∀ i ∈ is, i ≠ 15)
    {z : BitVec 64 × BitVec 64} {rest : List Bool}
    (hz : z.1 ++ z.2 = combine R rest (toBlock h)) :
    (is.reverse.foldl (look_byte (gcm_build_table h) y) z).1
        ++ (is.reverse.foldl (look_byte (gcm_build_table h) y) z).2
      = combine R ((is.flatMap fun i => byteBits (y.get i)) ++ rest) (toBlock h) := by
  induction is with
  | nil => exact hz
  | cons i is ih =>
    have ih := ih fun j hj => his j (List.mem_cons_of_mem i hj)
    rw [List.reverse_cons, List.foldl_append, List.foldl_cons, List.foldl_nil, List.flatMap_cons,
      look_byte, if_pos (his i List.mem_cons_self), look_eq (look_eq ih (nibble_lt _))
      (nibble_lt _), byteBits_eq, List.append_assoc, List.append_assoc]

/-- **The product by the table** is the product bit after bit. -/
theorem mult_h_eq (h y : Cell) :
    toBlock (gcm_mult_h (gcm_build_table h) y) = mul (toBlock y) (toBlock h) := by
  have hlast : (List.finRange 16).reverse = 15 :: ((List.finRange 16).take 15).reverse := by
    decide
  have hbits : bits (toBlock y) = (((List.finRange 16).take 15).flatMap fun i =>
      byteBits (y.get i)) ++ byteBits (y.get 15) := by
    rw [bits_toBlock, ← List.flatMap_singleton (f := fun i => byteBits (y.get i)) 15,
      ← List.flatMap_append]
    rfl
  have hfirst : (gcm_build_table h).hh (y.get 15 &&& 0xf).toNat
      ++ (gcm_build_table h).hl (y.get 15 &&& 0xf).toNat
        = combine R (nibble (y.get 15 &&& 0xf).toNat) (toBlock h) :=
    entry_build_table h (nibble_lt _)
  have hbyte := look_eq (z := (_, _)) hfirst (nibble_lt (y.get 15 >>> 4))
  rw [← byteBits_eq] at hbyte
  rw [mul, product_eq, hbits, ← look_bytes _ (by decide) hbyte, gcm_mult_h]
  rw [toBlock_put, hlast, List.foldl_cons]
  rfl

end Gcm
