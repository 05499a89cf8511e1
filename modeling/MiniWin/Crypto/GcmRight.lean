import MiniWin.Crypto.GcmSpec

/-!
# The authenticated encryption

The hash is taken in as it comes, the additional data and the ciphertext each filled up with zeros
(`absorb_eq`), and the keystream is made block after block (`ctr_apply_eq`). So `gcm_encrypt` is
the function of the standard, and since counter mode undoes itself, `gcm_decrypt` gives back the one
plaintext that has this ciphertext and tag, or leaves the ciphertext as it is.
-/

namespace Gcm
open Spec

/-- The cipher as a function of blocks. -/
def cipher (E : Cell → Cell) (X : BitVec 128) : BitVec 128 := toBlock (E (toCell X))

theorem toBlock_cipher (E : Cell → Cell) (c : Cell) : toBlock (E c) = cipher E (toBlock c) := by
  rw [cipher, toCell_toBlock]

/-! ## The hash -/

/-- What is between the blocks of the hash. -/
def absorbed (H : BitVec 128) (Y : BitVec 128) (X : List UInt8) : BitVec 128 :=
  BlockHash.chain 16 (fun Y X => mul (Y ^^^ ofBytes X) H) Y X

/-- At most a block, with zeros behind it. -/
theorem toBlock_xor_into (y : Cell) {data : List UInt8} {n : Nat} (h : data.length + n = 16) :
    toBlock (xor_into y data) = toBlock y ^^^ ofBytes (data ++ List.replicate n 0) := by
  have hlen : (data ++ List.replicate n 0).length = 16 := by
    rw [List.length_append, List.length_replicate, h]
  have hcell : xor_into y data
      = gcm_xor_block y (toCell (ofBytes (data ++ List.replicate n 0))) := by
    refine cell_ext fun i => ?_
    have hget : (toCell (ofBytes (data ++ List.replicate n 0))).get i
        = (data ++ List.replicate n 0).getD i 0 := by
      rw [get_eq_getD, toList_toCell, toBytes_ofBytes hlen]
    rw [xor_into, gcm_xor_block, get_ofFn, get_ofFn, hget]
    split
    · next hi => rw [List.getD_append _ _ _ _ hi]
    · next hi =>
      rw [List.getD_append_right _ _ _ _ (by omega), List.getD_replicate _ (by omega),
        UInt8.xor_zero]
  rw [hcell, toBlock_xor, toBlock_toCell]

theorem length_pad (X : List UInt8) : 16 ∣ (pad X).length := by
  rw [pad, List.length_append, List.length_replicate]
  omega

/-- **What is absorbed** is filled up with zeros. -/
theorem absorb_eq (h y : Cell) (data : List UInt8) :
    toBlock (gcm_absorb (gcm_build_table h) y data)
      = absorbed (toBlock h) (toBlock y) (pad data) := by
  induction y, data using gcm_absorb.induct (gcm_build_table h) with
  | case1 y data hge ih =>
    have hlen : (data.take 16).length = 16 := by
      rw [List.length_take]
      omega
    have hpad : pad data = data.take 16 ++ pad (data.drop 16) := by
      have hmod : (data.length - 16) % 16 = data.length % 16 := by omega
      rw [pad, pad, ← List.append_assoc, List.take_append_drop, List.length_drop, hmod]
    have hxor := toBlock_xor_into y (n := 0) hlen
    rw [List.replicate_zero, List.append_nil] at hxor
    rw [gcm_absorb, if_pos hge, ih, mult_h_eq, hpad, absorbed, absorbed,
      BlockHash.chain_append (by decide) hlen, hxor]
  | case2 y data hlt hpos =>
    have hn : data.length + (16 - data.length) = 16 := by omega
    have hmod : (16 - data.length % 16) % 16 = 16 - data.length := by omega
    have hone := BlockHash.chain_append (B := 16) (l := data ++ List.replicate (16 - data.length) 0)
      (m := []) (f := fun Y X => mul (Y ^^^ ofBytes X) (toBlock h)) (s := toBlock y) (by decide)
      (by rw [List.length_append, List.length_replicate, hn])
    rw [List.append_nil, BlockHash.chain_of_lt (l := []) (by decide)] at hone
    rw [gcm_absorb, if_neg hlt, if_pos hpos, mult_h_eq, toBlock_xor_into y hn, absorbed, pad, hmod,
      hone]
  | case3 y data hlt hnil =>
    obtain rfl : data = [] := List.eq_nil_of_length_eq_zero (by omega)
    rw [gcm_absorb, if_neg hlt, if_neg hnil, absorbed]
    exact (BlockHash.chain_of_lt (by decide)).symm

/-- The last block of the hash. -/
theorem absorb_lengths_eq (h y : Cell) (a c : Nat) :
    toBlock (gcm_absorb_lengths (gcm_build_table h) y a c) = absorbed (toBlock h) (toBlock y)
      (BigEndian.bytes 8 (8 * a) ++ BigEndian.bytes 8 (8 * c)) := by
  have hword (n : Nat) : BigEndian.value (BigEndian.bytes 8 (8 * n))
      = (BitVec.ofNat 64 (n * 8)).toNat := by
    rw [← BigEndian.bytes_mod, BigEndian.value_bytes (Nat.mod_lt _ (by decide)),
      BitVec.toNat_ofNat, Nat.mul_comm]
    rfl
  have hblock : ofBytes (BigEndian.bytes 8 (8 * a) ++ BigEndian.bytes 8 (8 * c))
      = BitVec.ofNat 64 (a * 8) ++ BitVec.ofNat 64 (c * 8) := by
    have hlt := (BitVec.ofNat 64 (a * 8) ++ BitVec.ofNat 64 (c * 8)).isLt
    refine BitVec.eq_of_toNat_eq ?_
    rw [toNat_append] at hlt ⊢
    rw [ofBytes, BigEndian.value_append, BigEndian.length_bytes, hword, hword, BitVec.toNat_ofNat]
    exact Nat.mod_eq_of_lt hlt
  have hone := BlockHash.chain_append (m := []) (s := toBlock y)
    (f := fun Y X => mul (Y ^^^ ofBytes X) (toBlock h)) (show 0 < 16 by decide)
    (show (BigEndian.bytes 8 (8 * a) ++ BigEndian.bytes 8 (8 * c)).length = 16 by
      rw [List.length_append, BigEndian.length_bytes, BigEndian.length_bytes])
  rw [List.append_nil, BlockHash.chain_of_lt (l := []) (by decide)] at hone
  rw [gcm_absorb_lengths, mult_h_eq, toBlock_xor, toBlock_put, absorbed, hone, hblock]

/-! ## Counter mode -/

/-- What the standard adds one to. -/
theorem toNat_inc (X : BitVec 128) :
    (inc X).toNat = X.toNat / 2 ^ 32 * 2 ^ 32 + (X.toNat % 2 ^ 32 + 1) % 2 ^ 32 := by
  have hlt := X.isLt
  rw [inc, toNat_append, BitVec.extractLsb'_toNat, Nat.shiftRight_eq_div_pow, BitVec.toNat_add,
    BitVec.toNat_setWidth, Nat.mod_eq_of_lt (by omega)]
  rfl

/-- A byte that is counted up. -/
theorem set_append {p : List UInt8} {c : Cell} {i : Fin 16} {v x : UInt8} {q : List UInt8}
    (hp : p.length = i.val) (hc : c.toList = p ++ v :: q) :
    c.get i = v ∧ (c.set i x).toList = p ++ x :: q := by
  constructor
  · rw [get_eq_getD, hc, ← hp, List.getD_append_right _ _ _ _ (Nat.le_refl _), Nat.sub_self,
      List.getD_cons_zero]
  · rw [Vector.toList_set, hc, ← hp, List.set_append_right _ _ (Nat.le_refl _), Nat.sub_self,
      List.set_cons_zero]

/-- A byte counts up, or becomes zero and has the byte in front of it count up. -/
theorem count_up_cons {p : List UInt8} {c : Cell} {i : Fin 16} {v : UInt8} {q : List UInt8}
    (is : List (Fin 16)) (hp : p.length = i.val) (hc : c.toList = p ++ v :: q) :
    (v.toNat < 255 ∧ (count_up (i :: is) c).toList = p ++ (v + 1) :: q)
      ∨ v.toNat = 255 ∧ ∃ c', c'.toList = p ++ 0 :: q ∧ count_up (i :: is) c = count_up is c' := by
  have hv := v.toNat_lt
  have hadd : (v + 1).toNat = (v.toNat + 1) % 256 := UInt8.toNat_add v 1
  obtain ⟨hget, hset⟩ := set_append (x := v + 1) hp hc
  have hnew := (set_append (x := 0) hp hset).1
  by_cases h : v.toNat = 255
  · have hzero : v + 1 = 0 := by
      rw [← UInt8.toNat_inj, hadd, h]
      rfl
    refine .inr ⟨h, c.set i (v + 1), by rw [hset, hzero], ?_⟩
    rw [count_up, hget, hnew, if_neg (not_not.mpr hzero)]
  · have hne : v + 1 ≠ 0 := by
      rw [ne_eq, ← UInt8.toNat_inj, hadd]
      show ¬(v.toNat + 1) % 256 = 0
      omega
    refine .inl ⟨by omega, ?_⟩
    rw [count_up, hget, hnew, if_pos hne, hset]

/-- The number of a cell with these last bytes. -/
theorem toNat_toBlock {c : Cell} {p : List UInt8} {v w x y : UInt8}
    (hp : p.length = 12) (hc : c.toList = p ++ [v, w, x, y]) :
    (toBlock c).toNat = BigEndian.value p * 2 ^ 32
      + (((v.toNat * 256 + w.toNat) * 256 + x.toNat) * 256 + y.toNat) := by
  have hlt : BigEndian.value (p ++ [v, w, x, y]) < 2 ^ 128 := by
    have hlen : (p ++ [v, w, x, y]).length = 16 := by
      rw [List.length_append, hp]
      rfl
    have := BigEndian.value_lt (p ++ [v, w, x, y])
    rwa [hlen] at this
  rw [toBlock, ofBytes, hc, BitVec.toNat_ofNat, Nat.mod_eq_of_lt hlt, BigEndian.value_append]
  simp [BigEndian.value]

/-- **The last four bytes count.** -/
theorem inc32_eq (c : Cell) : toBlock (gcm_inc32 c) = inc (toBlock c) := by
  obtain ⟨p, hpl, v, w, x, y, hc⟩ : ∃ p : List UInt8, p.length = 12
      ∧ ∃ v w x y, c.toList = p ++ [v, w, x, y] := by
    have hlen : c.toList.length = 16 := Vector.length_toList
    refine ⟨c.toList.take 12, by rw [List.length_take]; omega, ?_⟩
    have hdrop : (c.toList.drop 12).length = 4 := by rw [List.length_drop]; omega
    obtain ⟨v, w, x, y, h⟩ : ∃ v w x y, c.toList.drop 12 = [v, w, x, y] := by
      match c.toList.drop 12, hdrop with
      | [v, w, x, y], _ => exact ⟨v, w, x, y, rfl⟩
    exact ⟨v, w, x, y, by rw [← h, List.take_append_drop]⟩
  have hv := v.toNat_lt
  have hw := w.toNat_lt
  have hx := x.toNat_lt
  have hy := y.toNat_lt
  have hsucc {u : UInt8} (h : u.toNat < 255) : (u + 1).toNat = u.toNat + 1 := by
    show (u.toNat + 1) % 256 = u.toNat + 1
    omega
  refine BitVec.eq_of_toNat_eq ?_
  rw [toNat_inc, toNat_toBlock hpl hc]
  -- how many of the last bytes are full, from the last one on
  have hc3 : c.toList = (p ++ [v, w, x]) ++ y :: [] := by
    rw [hc, List.append_assoc]
    rfl
  rcases count_up_cons (i := 15) [14, 13, 12] (by simp [hpl]) hc3 with
    ⟨h, hr⟩ | ⟨hy', c', hc', hr⟩
  · rw [List.append_assoc] at hr
    rw [gcm_inc32, toNat_toBlock hpl hr, hsucc h]
    omega
  have hc2 : c'.toList = (p ++ [v, w]) ++ x :: [0] := by
    rw [hc', List.append_assoc, List.append_assoc]
    rfl
  rw [gcm_inc32, hr]
  rcases count_up_cons (i := 14) [13, 12] (by simp [hpl]) hc2 with ⟨h, hr⟩ | ⟨hx', c', hc', hr⟩
  · rw [List.append_assoc] at hr
    rw [toNat_toBlock hpl hr, hsucc h]
    show _ + (_ * 256 + 0) = _
    omega
  have hc1 : c'.toList = (p ++ [v]) ++ w :: [0, 0] := by
    rw [hc', List.append_assoc, List.append_assoc]
    rfl
  rw [hr]
  rcases count_up_cons (i := 13) [12] (by simp [hpl]) hc1 with ⟨h, hr⟩ | ⟨hw', c', hc', hr⟩
  · rw [List.append_assoc] at hr
    rw [toNat_toBlock hpl hr, hsucc h]
    show _ + ((_ * 256 + 0) * 256 + 0) = _
    omega
  have hc0 : c'.toList = p ++ v :: [0, 0, 0] := by
    rw [hc', List.append_assoc]
    rfl
  rw [hr]
  rcases count_up_cons (i := 12) [] (by simp [hpl]) hc0 with ⟨h, hr⟩ | ⟨hv', c', hc', hr⟩
  · rw [toNat_toBlock hpl hr, hsucc h]
    show _ + (((_ * 256 + 0) * 256 + 0) * 256 + 0) = _
    omega
  · rw [hr, count_up, toNat_toBlock hpl hc']
    show _ + (((0 * 256 + 0) * 256 + 0) * 256 + 0) = _
    omega

/-- A block of data. -/
theorem gctr_take (CIPH : BitVec 128 → BitVec 128) (X : BitVec 128) {data : List UInt8}
    (h : data.length ≤ 16) : gctr CIPH X data = data.zipWith (· ^^^ ·) (toBytes (CIPH X)) := by
  have hlen : (toBytes (CIPH X)).length = 16 := BigEndian.length_bytes _ _
  refine List.ext_getElem (by rw [gctr, List.length_mapIdx, List.length_zipWith]; omega)
    fun i hi _ => ?_
  rw [gctr, List.length_mapIdx] at hi
  rw [List.getElem_zipWith]
  simp only [gctr, List.getElem_mapIdx, Nat.div_eq_of_lt (show i < 16 by omega),
    Nat.mod_eq_of_lt (show i < 16 by omega), Function.iterate_zero, id_eq]
  rw [List.getD_eq_getElem _ _ (by omega)]

/-- The blocks behind a full one. -/
theorem gctr_append (CIPH : BitVec 128 → BitVec 128) (X : BitVec 128) {l : List UInt8}
    (m : List UInt8) (h : l.length = 16) :
    gctr CIPH X (l ++ m) = gctr CIPH X l ++ gctr CIPH (inc X) m := by
  have hnext (i : Nat) : (toBytes (CIPH (inc^[(i + 16) / 16] X))).getD ((i + 16) % 16) 0
      = (toBytes (CIPH (inc^[i / 16] (inc X)))).getD (i % 16) 0 := by
    rw [Nat.add_div_right i (by decide), Nat.add_mod_right, Function.iterate_succ_apply]
  simp only [gctr, List.mapIdx_append, h, hnext]

/-- **Counter mode** block after block. -/
theorem ctr_apply_eq (E : Cell → Cell) (c : Cell) (data : List UInt8) :
    gcm_ctr_apply E c data = gctr (cipher E) (toBlock c) data := by
  induction c, data using gcm_ctr_apply.induct E with
  | case1 c data hpos chunk ih =>
    have hkey : (E c).toList = toBytes (cipher E (toBlock c)) := by
      rw [← toBlock_cipher, ← toList_toCell, toCell_toBlock]
    rw [gcm_ctr_apply, if_pos hpos]
    dsimp only
    by_cases h : data.length < 16
    · have hchunk : chunk = data.length := if_pos h
      rw [hchunk, List.drop_length] at ih
      rw [if_pos h, List.take_length, List.drop_length, ih, hkey, gctr_take _ _ (Nat.le_of_lt h)]
      exact List.append_nil _
    · have hchunk : chunk = 16 := if_neg h
      have hlen : (data.take 16).length = 16 := by
        rw [List.length_take]
        omega
      rw [hchunk] at ih
      rw [if_neg h, ih, hkey, inc32_eq, ← gctr_take _ _ (Nat.le_of_eq hlen),
        ← gctr_append _ _ _ hlen, List.take_append_drop]
  | case2 c data hnil =>
    obtain rfl : data = [] := List.eq_nil_of_length_eq_zero (by omega)
    rw [gcm_ctr_apply, if_neg hnil]
    rfl

/-! ## Encryption and decryption -/

/-- The initial value as a row of bits. -/
def ivBits (iv : Vector UInt8 12) : BitVec 96 := BitVec.ofNat 96 (BigEndian.value iv.toList)

theorem first_counter_eq (iv : Vector UInt8 12) : toBlock (first_counter iv) = J0 (ivBits iv) := by
  have hlt : BigEndian.value iv.toList < 2 ^ 96 := by
    have := BigEndian.value_lt iv.toList
    rwa [Vector.length_toList] at this
  have hlist : (first_counter iv).toList = iv.toList ++ [0, 0, 0, 1] := Vector.toList_append
  refine BitVec.eq_of_toNat_eq ?_
  rw [toNat_toBlock Vector.length_toList hlist, J0, toNat_append, ivBits, BitVec.toNat_ofNat,
    Nat.mod_eq_of_lt hlt]
  rfl

theorem toList_xor_block (a b : Cell) :
    (gcm_xor_block a b).toList = a.toList.zipWith (· ^^^ ·) b.toList := by
  have ha : a.toList.length = 16 := Vector.length_toList
  have hb : b.toList.length = 16 := Vector.length_toList
  refine List.ext_getElem (by rw [Vector.length_toList, List.length_zipWith, ha, hb]; rfl)
    fun i hi _ => ?_
  rw [List.getElem_zipWith]
  simp only [gcm_xor_block, Vector.getElem_toList, Vector.getElem_ofFn]
  rfl

/-- **The tag** is that of the standard. -/
theorem compute_tag_eq (E : Cell → Cell) (iv : Vector UInt8 12) (aad ct : List UInt8) :
    (gcm_compute_tag E iv aad ct).toList = tag (cipher E) (ivBits iv) aad ct := by
  have hkey : toBlock (E zero) = cipher E 0 := by
    rw [toBlock_cipher, toBlock_zero]
  obtain ⟨y, hy⟩ : ∃ y, gcm_absorb_lengths (gcm_build_table (E zero))
      (gcm_absorb (gcm_build_table (E zero)) (gcm_absorb (gcm_build_table (E zero)) zero aad) ct)
      aad.length ct.length = y := ⟨_, rfl⟩
  have hhash : toBlock y = ghash (cipher E 0) (pad aad ++ pad ct
      ++ BigEndian.bytes 8 (8 * aad.length) ++ BigEndian.bytes 8 (8 * ct.length)) := by
    have hdvd : 16 ∣ (pad aad ++ pad ct).length := by
      rw [List.length_append]
      exact Nat.dvd_add (length_pad aad) (length_pad ct)
    rw [← hy, absorb_lengths_eq, absorb_eq, absorb_eq, toBlock_zero, hkey, List.append_assoc _ _
      (BigEndian.bytes 8 (8 * ct.length)), ghash, BlockHash.chain_append_of_dvd (by decide) hdvd,
      BlockHash.chain_append_of_dvd (by decide) (length_pad aad)]
    rfl
  have hlen : (toBytes (toBlock y)).length = 16 := BigEndian.length_bytes _ _
  have hbytes : toBytes (toBlock y) = y.toList := by
    rw [← toList_toCell, toCell_toBlock]
  have hlast : toBytes (cipher E (J0 (ivBits iv))) = (E (first_counter iv)).toList := by
    rw [← first_counter_eq, ← toBlock_cipher, ← toList_toCell, toCell_toBlock]
  rw [tag, ← hhash, gctr_take _ _ (Nat.le_of_eq hlen), hbytes, hlast, ← toList_xor_block,
    gcm_compute_tag, hy]

/-- Counter mode undoes itself. -/
theorem gctr_gctr (CIPH : BitVec 128 → BitVec 128) (X : BitVec 128) (data : List UInt8) :
    gctr CIPH X (gctr CIPH X data) = data := by
  rw [gctr, gctr, List.mapIdx_mapIdx, List.mapIdx_eq_iff]
  intro i
  cases data[i]? with
  | none => rfl
  | some x =>
    refine congrArg some ?_
    rw [Function.comp_apply, UInt8.xor_assoc, UInt8.xor_self, UInt8.xor_zero]

/-- A disjunction is zero where all of it is. -/
theorem foldl_or_eq_zero {α : Type*} (f : α → UInt8) (l : List α) (d : UInt8) :
    l.foldl (fun d i => d ||| f i) d = 0 ↔ d = 0 ∧ ∀ i ∈ l, f i = 0 := by
  induction l generalizing d with
  | nil => simp
  | cons a l ih =>
    rw [List.foldl_cons, ih, UInt8.or_eq_zero_iff, List.forall_mem_cons, and_assoc]

/-- **Decryption compares all of the tag first.** -/
theorem decrypt_eq (E : Cell → Cell) (iv : Vector UInt8 12) (aad ct : List UInt8) (t : Cell) :
    gcm_decrypt E iv aad ct t
      = if gcm_compute_tag E iv aad ct = t then
          (1, gcm_ctr_apply E (gcm_inc32 (first_counter iv)) ct)
        else (0, ct) := by
  have hdiff : (List.finRange 16).foldl
      (fun diff i => diff ||| ((gcm_compute_tag E iv aad ct).get i ^^^ t.get i)) (0 : UInt8) = 0
        ↔ gcm_compute_tag E iv aad ct = t := by
    rw [foldl_or_eq_zero]
    simp only [UInt8.xor_eq_zero_iff, List.mem_finRange, true_implies, true_and]
    exact ⟨cell_ext, fun h i => by rw [h]⟩
  rw [gcm_decrypt]
  by_cases h : gcm_compute_tag E iv aad ct = t
  · rw [if_neg (not_not.mpr (hdiff.mpr h)), if_pos h]
  · rw [if_pos (mt hdiff.mp h), if_neg h]

/-- A buffer that is decrypted is the plaintext, and there is one for this tag. -/
theorem decrypt_eq_one_iff (E : Cell → Cell) (iv : Vector UInt8 12) (aad ct pt : List UInt8)
    (t : Cell) :
    gcm_decrypt E iv aad ct t = (1, pt) ↔ gcm_encrypt E iv aad pt = (ct, t) := by
  have hundo (data : List UInt8) : gcm_ctr_apply E (gcm_inc32 (first_counter iv))
      (gcm_ctr_apply E (gcm_inc32 (first_counter iv)) data) = data := by
    rw [ctr_apply_eq, ctr_apply_eq, gctr_gctr]
  rw [decrypt_eq]
  constructor
  · intro h
    split at h
    · next ht =>
      obtain ⟨-, rfl⟩ := Prod.mk.inj h
      rw [gcm_encrypt, hundo, ht]
    · exact absurd (Prod.mk.inj h).1 Nat.zero_ne_one
  · intro h
    obtain ⟨rfl, rfl⟩ := Prod.mk.inj h
    rw [if_pos rfl, hundo]

/-- What is not decrypted is left as it is. -/
theorem decrypt_cases (E : Cell → Cell) (iv : Vector UInt8 12) (aad ct : List UInt8) (t : Cell) :
    (∃ pt, gcm_decrypt E iv aad ct t = (1, pt)) ∨ gcm_decrypt E iv aad ct t = (0, ct) := by
  rw [decrypt_eq]
  split
  · exact .inl ⟨_, rfl⟩
  · exact .inr rfl

/-- **AES-GCM.** The product by the table is the product bit after bit; what is encrypted is the
ciphertext and the tag of the standard; and decryption gives back the plaintext that has this
ciphertext and tag where there is one, and otherwise leaves the buffer as it is. -/
theorem aes_gcm (E : Cell → Cell) (iv : Vector UInt8 12) (aad : List UInt8) :
    (∀ h y, toBlock (gcm_mult_h (gcm_build_table h) y) = mul (toBlock y) (toBlock h))
      ∧ (∀ plaintext, ((gcm_encrypt E iv aad plaintext).1,
          (gcm_encrypt E iv aad plaintext).2.toList)
          = encrypt (cipher E) (ivBits iv) aad plaintext)
      ∧ ∀ ciphertext t,
        ((gcm_decrypt E iv aad ciphertext t).1 = 1
          ↔ ∃ plaintext, gcm_encrypt E iv aad plaintext = (ciphertext, t))
        ∧ (∀ plaintext, gcm_decrypt E iv aad ciphertext t = (1, plaintext)
          ↔ gcm_encrypt E iv aad plaintext = (ciphertext, t))
        ∧ ((gcm_decrypt E iv aad ciphertext t).1 = 1
          ∨ gcm_decrypt E iv aad ciphertext t = (0, ciphertext)) := by
  have hcounter : toBlock (gcm_inc32 (first_counter iv)) = inc (J0 (ivBits iv)) := by
    rw [inc32_eq, first_counter_eq]
  refine ⟨mult_h_eq, fun plaintext => ?_, fun ciphertext t =>
    ⟨?_, fun plaintext => decrypt_eq_one_iff E iv aad ciphertext plaintext t, ?_⟩⟩
  · rw [gcm_encrypt, encrypt]
    rw [compute_tag_eq, ctr_apply_eq, hcounter]
  · constructor
    · intro h
      refine ⟨(gcm_decrypt E iv aad ciphertext t).2, ?_⟩
      rw [← decrypt_eq_one_iff]
      exact Prod.ext h rfl
    · rintro ⟨plaintext, h⟩
      rw [(decrypt_eq_one_iff E iv aad ciphertext plaintext t).mpr h]
  · rcases decrypt_cases E iv aad ciphertext t with ⟨plaintext, h⟩ | h
    · exact .inl (by rw [h])
    · exact .inr h

end Gcm
