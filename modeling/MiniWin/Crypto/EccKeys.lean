import MiniWin.Crypto.EccCurves

/-!
# Key agreement

A key is a point as bytes: `encode` is the uncompressed form, and what `ecc_parse_point` takes is
just that of the points of the curve. A private key is a scalar below the order of the base point,
so that no multiple that the two sides make is at infinity, and the one of the other side's key is
the same on both sides.
-/

namespace Ecc

open Limbs

/-! ## Bytes -/

/-- The first `len` bytes. -/
def firstBytes (be : List UInt8) (len : Nat) : List UInt8 := (List.range len).map (be.getD · 0)

theorem firstBytes_eq_take {be : List UInt8} {len : Nat} (h : len ≤ be.length) :
    firstBytes be len = be.take len := by
  refine List.ext_getElem (by simp [firstBytes, h]) fun i h₁ h₂ => ?_
  have hi : i < be.length := by
    rw [List.length_take] at h₂
    omega
  simp [firstBytes, hi]

/-- One byte more, which is the next one below. -/
theorem value_orByte {be : List UInt8} {len v i : Nat} {r : Words} (hr : len ≤ 4 * r.length)
    (hi : i < len) (h : value r = v * 2 ^ (8 * (len - i))) :
    value (orByte be len r i) = (v * 256 + (be.getD i 0).toNat) * 2 ^ (8 * (len - (i + 1))) := by
  obtain ⟨e, he⟩ : ∃ e, len - 1 - i = e := ⟨_, rfl⟩
  have hexp : 8 * (len - i) = 8 * e + 8 := by omega
  have hexp' : 8 * (len - (i + 1)) = 8 * e := by omega
  have hbyte := (be.getD i 0).toNat_lt
  unfold orByte
  rw [he, hexp', Nat.mul_comm _ (2 ^ (8 * e))]
  rw [hexp, Nat.mul_comm] at h
  refine Nat.eq_of_testBit_eq fun k => ?_
  rw [Bignum.testBit_modify _ _ _ (by omega),
    Bignum.testBit_shifted _ (by omega) _ (Nat.mod_lt k (by decide)), h, Nat.testBit_two_pow_mul,
    Nat.testBit_two_pow_mul, Nat.mul_comm v 256, Nat.testBit_two_pow_mul_add v hbyte, Bool.eq_iff_iff]
  simp only [Bool.or_eq_true, Bool.and_eq_true, decide_eq_true_eq]
  constructor
  · rintro (⟨hlow, hbit⟩ | ⟨hlimb, hshift, hbit⟩)
    · refine ⟨by omega, ?_⟩
      rw [if_neg (by omega), show k - 8 * e - 8 = k - (8 * e + 8) by omega]
      exact hbit
    · rw [show k % 32 - 8 * (e % 4) = k - 8 * e by omega] at hbit
      refine ⟨by omega, ?_⟩
      have hlt : k - 8 * e < 8 := by
        by_contra hge
        rw [Nat.testBit_lt_two_pow (Nat.lt_of_lt_of_le hbyte
          (Nat.pow_le_pow_right two_pos (Nat.not_lt.mp hge)))] at hbit
        exact Bool.false_ne_true hbit
      rw [if_pos hlt]
      exact hbit
  · rintro ⟨hge, hbit⟩
    split at hbit
    · next hlt =>
      refine .inr ⟨by omega, by omega, ?_⟩
      rw [show k % 32 - 8 * (e % 4) = k - 8 * e by omega]
      exact hbit
    · refine .inl ⟨by omega, ?_⟩
      rw [show k - (8 * e + 8) = k - 8 * e - 8 by omega]
      exact hbit

/-- **A number out of bytes.** -/
theorem from_be_eq {n len : Nat} (h : len ≤ 4 * n) (be : List UInt8) :
    (ecc_from_be n be len).length = n
      ∧ value (ecc_from_be n be len) = BigEndian.value (firstBytes be len) := by
  have hloop (i : Nat) (hi : i ≤ len) :
      ((List.range i).foldl (orByte be len) (ecc_zero n)).length = n
        ∧ value ((List.range i).foldl (orByte be len) (ecc_zero n))
          = BigEndian.value (firstBytes be i) * 2 ^ (8 * (len - i)) := by
    induction i with
    | zero =>
      refine ⟨List.length_replicate, ?_⟩
      show value (List.replicate n 0) = 0 * _
      rw [value_replicate, Nat.zero_mul]
    | succ i ih =>
      obtain ⟨hlen, hval⟩ := ih (Nat.le_of_succ_le hi)
      rw [List.range_succ, List.foldl_append, List.foldl_cons, List.foldl_nil]
      refine ⟨(List.length_modify ..).trans hlen, ?_⟩
      rw [value_orByte (by rw [hlen]; exact h) hi hval, firstBytes, firstBytes, List.range_succ,
        List.map_append, List.map_singleton, BigEndian.value_append_singleton]
  obtain ⟨hlen, hval⟩ := hloop len (Nat.le_refl len)
  rw [Nat.sub_self, Nat.mul_zero, Nat.pow_zero, Nat.mul_one] at hval
  exact ⟨hlen, hval⟩

/-- **A number as bytes.** -/
theorem to_be_eq (len : Nat) (a : Words) : ecc_to_be len a = BigEndian.bytes len (value a) := by
  have hbyte (i : Nat) : ((a.getD (i / 4) 0 >>> (8 * (i % 4)).toUInt32).toUInt8).toNat
      = value a / 256 ^ i % 256 := by
    have hmod : (8 * (i % 4)).toUInt32.toNat % 32 = 8 * (i % 4) := by
      show 8 * (i % 4) % 2 ^ 32 % 32 = 8 * (i % 4)
      omega
    rw [BigEndian.pow_256]
    refine Nat.eq_of_testBit_eq fun j => ?_
    show _ = (value a / 2 ^ (8 * i) % 2 ^ 8).testBit j
    rw [UInt32.toNat_toUInt8, UInt32.toNat_shiftRight, hmod, Nat.testBit_mod_two_pow,
      Nat.testBit_shiftRight, Nat.testBit_mod_two_pow, Nat.testBit_div_two_pow]
    by_cases hj : j < 8
    · have hbit := testBit_value a (j + 8 * i)
      rw [show (j + 8 * i) / 32 = i / 4 by omega,
        show (j + 8 * i) % 32 = 8 * (i % 4) + j by omega] at hbit
      rw [← hbit]
    · rw [decide_eq_false hj, Bool.false_and, Bool.false_and]
  rw [BigEndian.bytes_eq hbyte]
  unfold ecc_to_be
  refine List.ext_getElem (by simp) fun i h₁ h₂ => ?_
  simp

/-! ## Keys as bytes -/

/-- The uncompressed form of a point. -/
def encode (c : Curve) (x y : ZMod (value c.p)) : List UInt8 :=
  0x04 :: (BigEndian.bytes c.bytes x.val ++ BigEndian.bytes c.bytes y.val)

variable {c : Curve}

/-- What is below the prime has room in a field of bytes. -/
theorem val_lt_bytes (hw : c.Works) {v : Nat} (hv : v < 2 ^ (32 * c.n)) : v < 256 ^ c.bytes := by
  rw [BigEndian.pow_256, hw.bytes, show 8 * (4 * c.n) = 32 * c.n by omega]
  exact hv

theorem p_lt_bytes (hw : c.Works) : value c.p < 256 ^ c.bytes :=
  val_lt_bytes hw (value_lt_of_length hw.fp.width)

/-- A scalar out of bytes is what went into them. -/
theorem from_be_bytes (hw : c.Works) {k : Nat} (hk : k < 2 ^ (32 * c.n)) :
    (ecc_from_be c.n (BigEndian.bytes c.bytes k) c.bytes).length = c.n
      ∧ value (ecc_from_be c.n (BigEndian.bytes c.bytes k) c.bytes) = k := by
  have hroom : c.bytes ≤ 4 * c.n := hw.bytes.le
  obtain ⟨hlen, hval⟩ := from_be_eq hroom (BigEndian.bytes c.bytes k)
  refine ⟨hlen, ?_⟩
  rw [hval, firstBytes_eq_take (BigEndian.length_bytes _ _).ge,
    List.take_of_length_le (BigEndian.length_bytes _ _).le,
    BigEndian.value_bytes (val_lt_bytes hw hk)]

variable [Fact (value c.p).Prime]

theorem zmod_val_lt (x : ZMod (value c.p)) : x.val < value c.p :=
  have : NeZero (value c.p) := ⟨(Fact.out : (value c.p).Prime).ne_zero⟩
  ZMod.val_lt x

/-- A key is that of one point. -/
theorem encode_inj (hw : c.Works) {x y u v : ZMod (value c.p)} (h : encode c x y = encode c u v) :
    x = u ∧ y = v := by
  have hsplit := List.append_inj (List.cons.inj h).2 (by rw [BigEndian.length_bytes,
    BigEndian.length_bytes])
  have hval {a b : ZMod (value c.p)}
      (h : BigEndian.bytes c.bytes a.val = BigEndian.bytes c.bytes b.val) : a = b :=
    ZMod.val_injective _ (BigEndian.bytes_inj (Nat.lt_trans (zmod_val_lt a) (p_lt_bytes hw))
      (Nat.lt_trans (zmod_val_lt b) (p_lt_bytes hw)) h)
  exact ⟨hval hsplit.1, hval hsplit.2⟩

/-- **What is taken for a key** is the uncompressed form of a point of the curve. -/
theorem parse_cases (hw : c.Works) (buf : List UInt8) :
    (∃ x y hxy, buf = encode c x y ∧ ∃ q, ecc_parse_point c buf = some q
        ∧ Represents c q (.some x y hxy : (Jacobian.curve c.coeff).Point))
      ∨ ecc_parse_point c buf = none
        ∧ ∀ x y, (Jacobian.curve c.coeff).Nonsingular x y → buf ≠ encode c x y := by
  have hroom : c.bytes ≤ 4 * c.n := hw.bytes.le
  unfold ecc_parse_point
  by_cases hshape : buf.length ≠ 1 + 2 * c.bytes ∨ buf.headD 0 ≠ 0x04
  · rw [if_pos hshape]
    refine .inr ⟨rfl, fun x y _ heq => ?_⟩
    rw [heq, encode] at hshape
    rcases hshape with h | h
    · refine h ?_
      rw [List.length_cons, List.length_append, BigEndian.length_bytes, BigEndian.length_bytes]
      omega
    · exact h rfl
  rw [if_neg hshape]
  rw [not_or, not_not, not_not] at hshape
  obtain ⟨hlen, hhead⟩ := hshape
  obtain ⟨b, rest, rfl⟩ : ∃ b rest, buf = b :: rest :=
    List.exists_cons_of_length_pos (by omega)
  obtain rfl : b = 0x04 := hhead
  rw [List.length_cons] at hlen
  rw [show (0x04 :: rest : List UInt8).drop 1 = rest from rfl,
    show (0x04 :: rest : List UInt8).drop (1 + c.bytes) = rest.drop c.bytes by
      rw [Nat.add_comm]; rfl]
  obtain ⟨hxlen, hxval⟩ := from_be_eq hroom rest
  obtain ⟨hylen, hyval⟩ := from_be_eq hroom (rest.drop c.bytes)
  rw [firstBytes_eq_take (by omega)] at hxval
  rw [firstBytes_eq_take (by rw [List.length_drop]; omega),
    List.take_of_length_le (by rw [List.length_drop]; omega)] at hyval
  have hxbytes := BigEndian.bytes_value (rest.take c.bytes)
  have hybytes := BigEndian.bytes_value (rest.drop c.bytes)
  rw [← hxval, List.length_take, Nat.min_eq_left (by omega)] at hxbytes
  rw [← hyval, List.length_drop, show rest.length - c.bytes = c.bytes by omega] at hybytes
  rcases load_checked_cases hw.toReady hw.toGiven hxlen hylen with
    ⟨hxy, hxlt, hylt, q, hq, hrep⟩ | ⟨hnone, hnot⟩
  · refine .inl ⟨_, _, hxy, ?_, q, hq, hrep⟩
    rw [encode, ZMod.val_cast_of_lt hxlt, ZMod.val_cast_of_lt hylt, hxbytes, hybytes,
      List.take_append_drop]
  · refine .inr ⟨hnone, fun x y hxy heq => hnot ?_⟩
    have hsplit := (List.take_append_drop c.bytes rest).trans (List.cons.inj heq).2
    have htake : (rest.take c.bytes).length = (BigEndian.bytes c.bytes x.val).length := by
      rw [List.length_take, BigEndian.length_bytes]
      omega
    obtain ⟨hx, hy⟩ := List.append_inj hsplit htake
    have hxv : value (ecc_from_be c.n rest c.bytes) = x.val := by
      rw [hxval, hx, BigEndian.value_bytes (Nat.lt_trans (zmod_val_lt x) (p_lt_bytes hw))]
    have hyv : value (ecc_from_be c.n (rest.drop c.bytes) c.bytes) = y.val := by
      rw [hyval, hy, BigEndian.value_bytes (Nat.lt_trans (zmod_val_lt y) (p_lt_bytes hw))]
    rw [hxv, hyv, ZMod.natCast_zmod_val, ZMod.natCast_zmod_val]
    exact ⟨zmod_val_lt x, zmod_val_lt y, hxy⟩

/-! ## The functions, on a curve that is prepared -/

/-- The base point. -/
theorem represents_base (hw : c.Works)
    (h : (Jacobian.curve c.coeff).Nonsingular (value c.gx) (value c.gy)) :
    Represents c (ecc_base_point c) (.some _ _ h : (Jacobian.curve c.coeff).Point) := by
  have hx := Stands.to_mont hw.fp hw.gx_width hw.gx_lt
  have hy := Stands.to_mont hw.fp hw.gy_width hw.gy_lt
  exact ⟨⟨_, _, 1⟩, ⟨hx, hy, hw.one⟩, one_ne_zero, by ring, by ring⟩

/-- One subtraction of the order. -/
theorem reduce_once {n : Nat} {k order r : Words} (hk : k.length = n) (ho : order.length = n)
    (hlt : value k < 2 * value order)
    (hr : (if ecc_cmp k order n ≠ .lt then (ecc_sub_raw k order).1 else k) = r) :
    r.length = n ∧ value r = value k % value order := by
  have hiff : ecc_cmp k order n ≠ .lt ↔ value order ≤ value k := by
    rw [cmp_eq hk ho, ne_eq, Nat.compare_eq_lt, Nat.not_lt]
  obtain ⟨hlen, hcases⟩ := sub_raw_cases (hk.trans ho.symm)
  have hfit : value (ecc_sub_raw k order).1 < 2 ^ (32 * k.length) := hlen ▸ value_lt _
  subst hr
  by_cases hge : value order ≤ value k
  · rw [if_pos (hiff.mpr hge)]
    refine ⟨hlen.trans hk, ?_⟩
    rw [Nat.mod_eq_sub_mod hge, Nat.mod_eq_of_lt (by omega)]
    omega
  · rw [if_neg (mt hiff.mp hge)]
    exact ⟨hk, (Nat.mod_eq_of_lt (Nat.not_le.mp hge)).symm⟩

/-- No multiple of a point whose order is prime is at infinity, but those by the order. -/
theorem smul_ne_zero_of {G : Type*} [AddCommGroup G] {P : G} {n k : Nat} (hn : n.Prime)
    (hnP : n • P = 0) (hP : P ≠ 0) (hk : ¬n ∣ k) : k • P ≠ 0 := by
  have horder : addOrderOf P = n :=
    (hn.eq_one_or_self_of_dvd _ (addOrderOf_dvd_of_nsmul_eq_zero hnP)).resolve_left
      fun h => hP (AddMonoid.addOrderOf_eq_one_iff.mp h)
  rw [ne_eq, ← addOrderOf_dvd_iff_nsmul_eq_zero, horder]
  exact hk

/-- **A key pair**: a scalar below the order, not zero, and its multiple of the base point. -/
theorem keygen_cases (hw : c.Works) (hprep : ecc_curve_prepare c = c) (rand : List UInt8)
    (h : (Jacobian.curve c.coeff).Nonsingular (value c.gx) (value c.gy))
    (horder : value c.order
      • (.some (value c.gx) (value c.gy) h : (Jacobian.curve c.coeff).Point) = 0) :
    ecdh_keygen c rand = none
        ∧ value (topBit c.n (ecc_from_be c.n rand c.bytes)) % value c.order = 0
      ∨ ∃ k x y hxy, 0 < k ∧ k < value c.order
        ∧ k • (.some (value c.gx) (value c.gy) h : (Jacobian.curve c.coeff).Point) = .some x y hxy
        ∧ ecdh_keygen c rand = some (BigEndian.bytes c.bytes k, encode c x y) := by
  have hroom : c.bytes ≤ 4 * c.n := hw.bytes.le
  unfold ecdh_keygen
  dsimp only
  rw [hprep]
  have hlen0 : (topBit c.n (ecc_from_be c.n rand c.bytes)).length = c.n := by
    rw [topBit, List.length_modify]
    exact (from_be_eq hroom rand).1
  obtain ⟨k, hk⟩ : ∃ k, (if ecc_cmp (topBit c.n (ecc_from_be c.n rand c.bytes)) c.order c.n ≠ .lt
    then (ecc_sub_raw (topBit c.n (ecc_from_be c.n rand c.bytes)) c.order).1
    else topBit c.n (ecc_from_be c.n rand c.bytes)) = k := ⟨_, rfl⟩
  obtain ⟨hklen, hkval⟩ := reduce_once hlen0 hw.fn.width
    (Nat.lt_of_lt_of_le (value_lt_of_length hlen0) hw.top) hk
  rw [hk]
  by_cases hzero : ecc_is_zero k = true
  · rw [if_pos hzero]
    exact .inl ⟨rfl, hkval ▸ (is_zero_iff k).mp hzero⟩
  rw [if_neg hzero]
  have hlt : value k < value c.order := by
    rw [hkval]
    exact Nat.mod_lt _ hw.fn.prime.pos
  have hpos : 0 < value k := Nat.pos_of_ne_zero (mt (is_zero_iff k).mpr hzero)
  have hmul := (represents_base hw h).scalar_mul hw.toReady hklen
  rcases hmul.to_affine hw.toReady with ⟨hz, -⟩ | ⟨x, y, hxy, X, Y, hP, hsome, -, hX, -, hY⟩
  · refine absurd hz (smul_ne_zero_of hw.fn.prime horder
      (WeierstrassCurve.Affine.Point.some_ne_zero h) fun hd => ?_)
    exact absurd (Nat.le_of_dvd hpos hd) (Nat.not_le.mpr hlt)
  · rw [hsome]
    refine .inr ⟨value k, x, y, hxy, hpos, hlt, hP, ?_⟩
    dsimp only
    rw [to_be_eq, to_be_eq, to_be_eq, hX, hY]
    rfl

/-- **A secret**: the first coordinate of the multiple of the point that the key is for. -/
theorem shared_encode (hw : c.Works) (hprep : ecc_curve_prepare c = c) {k : Nat}
    (hk : k < 2 ^ (32 * c.n)) {x y x' y' : ZMod (value c.p)} {hxy hxy'}
    (hmul : k • (.some x y hxy : (Jacobian.curve c.coeff).Point) = .some x' y' hxy')
    (secret_out : List UInt8) :
    ecdh_shared c (BigEndian.bytes c.bytes k) (encode c x y) secret_out
      = (1, BigEndian.bytes c.bytes x'.val ++ secret_out.drop c.bytes) := by
  obtain ⟨hklen, hkval⟩ := from_be_bytes hw hk
  unfold ecdh_shared
  dsimp only
  rw [hprep]
  rcases parse_cases hw (encode c x y) with ⟨u, v, huv, heq, q, hq, hrep⟩ | ⟨-, hnot⟩
  · obtain ⟨rfl, rfl⟩ := encode_inj hw heq
    rw [hq]
    have hscalar := hrep.scalar_mul hw.toReady hklen
    rw [hkval, hmul] at hscalar
    rcases hscalar.to_affine hw.toReady with ⟨hz, -⟩ | ⟨u, v, huv, X, Y, hP, hsome, -, hX, -, -⟩
    · exact absurd hz (WeierstrassCurve.Affine.Point.some_ne_zero _)
    · obtain ⟨rfl, rfl⟩ := WeierstrassCurve.Affine.Point.some.inj hP
      dsimp only
      rw [hsome]
      dsimp only
      rw [to_be_eq, hX]
  · exact absurd rfl (hnot x y hxy)

/-- **Agreement**, on a curve that is prepared. -/
theorem shared_agree (hw : c.Works) (hprep : ecc_curve_prepare c = c)
    {randA randB privA pubA privB pubB : List UInt8}
    (hA : ecdh_keygen c randA = some (privA, pubA))
    (hB : ecdh_keygen c randB = some (privB, pubB)) :
    ∃ secret, (∀ out, ecdh_shared c privA pubB out = (1, secret ++ out.drop c.bytes))
      ∧ ∀ out, ecdh_shared c privB pubA out = (1, secret ++ out.drop c.bytes) := by
  obtain ⟨h, horder⟩ := hw.base
  have hfull : value c.order < 2 ^ (32 * c.n) := value_lt_of_length hw.fn.width
  rcases keygen_cases hw hprep randA h horder with ⟨hnone, -⟩ | ⟨a, xa, ya, ha, ha0, halt, haG, heqA⟩
  · exact absurd (hA.symm.trans hnone) (Option.some_ne_none _)
  rcases keygen_cases hw hprep randB h horder with ⟨hnone, -⟩ | ⟨b, xb, yb, hb, hb0, hblt, hbG, heqB⟩
  · exact absurd (hB.symm.trans hnone) (Option.some_ne_none _)
  obtain ⟨rfl, rfl⟩ := Prod.mk.inj (Option.some.inj (hA.symm.trans heqA))
  obtain ⟨rfl, rfl⟩ := Prod.mk.inj (Option.some.inj (hB.symm.trans heqB))
  have hndvd : ¬value c.order ∣ a * b := by
    rw [hw.fn.prime.dvd_mul, not_or]
    exact ⟨fun hd => absurd (Nat.le_of_dvd ha0 hd) (Nat.not_le.mpr halt),
      fun hd => absurd (Nat.le_of_dvd hb0 hd) (Nat.not_le.mpr hblt)⟩
  have hne := smul_ne_zero_of hw.fn.prime horder (WeierstrassCurve.Affine.Point.some_ne_zero h) hndvd
  obtain ⟨x, y, hxy, hP⟩ : ∃ x y hxy,
      (a * b) • (.some (value c.gx) (value c.gy) h : (Jacobian.curve c.coeff).Point)
        = .some x y hxy := by
    cases hPeq : (a * b) • (.some (value c.gx) (value c.gy) h : (Jacobian.curve c.coeff).Point) with
    | zero => exact absurd hPeq hne
    | some x y hxy => exact ⟨x, y, hxy, rfl⟩
  have hab : a • (.some xb yb hb : (Jacobian.curve c.coeff).Point) = .some x y hxy := by
    rw [← hbG, ← mul_smul, hP]
  have hba : b • (.some xa ya ha : (Jacobian.curve c.coeff).Point) = .some x y hxy := by
    rw [← haG, ← mul_smul, Nat.mul_comm, hP]
  exact ⟨_, shared_encode hw hprep (Nat.lt_trans halt hfull) hab,
    shared_encode hw hprep (Nat.lt_trans hblt hfull) hba⟩

/-- A string that is not a key is not used. -/
theorem shared_of_not_key (hw : c.Works) (hprep : ecc_curve_prepare c = c) {peer : List UInt8}
    (hpeer : ∀ x y, (Jacobian.curve c.coeff).Nonsingular x y → peer ≠ encode c x y)
    (priv secret_out : List UInt8) : ecdh_shared c priv peer secret_out = (0, secret_out) := by
  unfold ecdh_shared
  dsimp only
  rw [hprep]
  rcases parse_cases hw peer with ⟨x, y, hxy, heq, -⟩ | ⟨hnone, -⟩
  · exact absurd heq (hpeer x y hxy)
  · rw [hnone]

/-! ## The functions, on the curves that there are -/

theorem atLeastTwo_three : Nat.AtLeastTwo 3 := ⟨by decide⟩

attribute [local instance] atLeastTwo_three in
/-- A string is the uncompressed form of a point of the curve. -/
def IsKey (c : Curve) (peer : List UInt8) : Prop :=
  ∃ x y : ZMod (value c.p), y ^ 2 = x ^ 3 - 3 * x + c.coeff ∧ peer = encode c x y

omit [Fact (value c.p).Prime]

/-- Preparing changes nothing that a key is made of. -/
theorem isKey_prepare (peer : List UInt8) : IsKey (ecc_curve_prepare c) peer ↔ IsKey c peer := by
  unfold ecc_curve_prepare
  cases c.ready <;> exact Iff.rfl

theorem bytes_prepare (c : Curve) : (ecc_curve_prepare c).bytes = c.bytes := by
  unfold ecc_curve_prepare
  cases c.ready <;> rfl

/-- A curve that is prepared is left as it is. -/
theorem Curves.prepare_prepare {c : Curve} (h : Curves c) :
    ecc_curve_prepare (ecc_curve_prepare c) = ecc_curve_prepare c := by
  unfold Curves at h
  simp only [List.mem_cons, List.not_mem_nil, or_false] at h
  rcases h with rfl | rfl | rfl | rfl
  · exact sound_p256.prepare_prepare
  · exact sound_p384.prepare_prepare
  · rw [sound_p256.prepare_prepare]
    exact sound_p256.prepare_prepare
  · rw [sound_p384.prepare_prepare]
    exact sound_p384.prepare_prepare

theorem keygen_prepare {c : Curve} (h : Curves c) (rand : List UInt8) :
    ecdh_keygen (ecc_curve_prepare c) rand = ecdh_keygen c rand := by
  unfold ecdh_keygen
  rw [h.prepare_prepare]

theorem shared_prepare {c : Curve} (h : Curves c) (priv peer out : List UInt8) :
    ecdh_shared (ecc_curve_prepare c) priv peer out = ecdh_shared c priv peer out := by
  unfold ecdh_shared
  rw [h.prepare_prepare]

/-- **Key agreement.** Two key pairs give the same secret on both sides, and a string that is not
the key of a point of the curve gives none and leaves the buffer as it is. -/
theorem ecdh {c : Curve} (h : Curves c) :
    (∀ randA randB privA pubA privB pubB, ecdh_keygen c randA = some (privA, pubA)
        → ecdh_keygen c randB = some (privB, pubB)
        → ∃ secret, (∀ out, ecdh_shared c privA pubB out = (1, secret ++ out.drop c.bytes))
          ∧ ∀ out, ecdh_shared c privB pubA out = (1, secret ++ out.drop c.bytes))
      ∧ ∀ priv peer out, ¬IsKey c peer → ecdh_shared c priv peer out = (0, out) := by
  have hw := h.works
  have hprime := Fact.mk hw.fp.prime
  constructor
  · intro randA randB privA pubA privB pubB hA hB
    rw [← keygen_prepare h] at hA hB
    obtain ⟨secret, hsecret⟩ := shared_agree hw h.prepare_prepare hA hB
    refine ⟨secret, ?_⟩
    simpa only [shared_prepare h, bytes_prepare] using hsecret
  · intro priv peer out hpeer
    rw [← shared_prepare h]
    refine shared_of_not_key hw h.prepare_prepare (fun x y hxy heq => hpeer ?_) priv out
    rw [← isKey_prepare]
    exact ⟨x, y, (Jacobian.nonsingular_iff (two_ne_zero_of hw.toReady) hw.disc).mp hxy, heq⟩

/-- Key agreement with oneself, on P-256. -/
theorem ecdh_p256 : ∃ priv pub secret,
    ecdh_keygen ecc_p256 (List.replicate 32 0) = some (priv, pub)
      ∧ ecdh_shared ecc_p256 priv pub [] = (1, secret)
      ∧ ecdh_shared ecc_p256 priv [] [] = (0, []) := by
  have hc : Curves ecc_p256 := List.mem_cons_self
  have hw := hc.works
  have hprime := Fact.mk hw.fp.prime
  obtain ⟨h, horder⟩ := hw.base
  rcases keygen_cases hw hc.prepare_prepare (List.replicate 32 0) h horder with
    ⟨-, hzero⟩ | ⟨k, x, y, hxy, -, -, -, hkey⟩
  · have hne : value (topBit 8 (ecc_from_be 8 (List.replicate 32 0) 32)) % value ecc_p256.order ≠ 0 := by
      decide +kernel
    exact absurd hzero hne
  · rw [keygen_prepare hc] at hkey
    obtain ⟨secret, hsecret, -⟩ := (ecdh hc).1 _ _ _ _ _ _ hkey hkey
    refine ⟨_, _, _, hkey, hsecret [], (ecdh hc).2 _ _ _ ?_⟩
    rintro ⟨u, v, -, heq⟩
    exact List.cons_ne_nil _ _ heq.symm

end Ecc

/-!
## What a signature is

A signature is a sequence of two numbers, each with a tag and a length in front of it. The lengths
are those of ASN.1 in the short form and in the long form of one byte and of two; `IsDerSig` is the
signature of DER, in which no length and no number is longer than it has to be. What the numbers have
to do with the key and the digest is `Verifies`.
-/

namespace Ecc

open Limbs (value)

/-- A length. -/
inductive IsLen : List UInt8 → Nat → Prop
  | short {b : UInt8} (h : b < 0x80) : IsLen [b] b.toNat
  | one (x : UInt8) : IsLen [0x81, x] x.toNat
  | two (x y : UInt8) : IsLen [0x82, x, y] (BigEndian.value [x, y])

/-- A number that is not negative. -/
def IsInt (enc : List UInt8) (v : Nat) : Prop :=
  ∃ len content, enc = 0x02 :: (len ++ content) ∧ IsLen len content.length ∧ content ≠ []
    ∧ content.headD 0 < 0x80 ∧ BigEndian.value content = v

/-- A sequence of two numbers. -/
def IsSig (enc : List UInt8) (r s : Nat) : Prop :=
  ∃ len ri si, enc = 0x30 :: (len ++ (ri ++ si)) ∧ IsLen len (ri ++ si).length ∧ IsInt ri r
    ∧ IsInt si s

/-- The shortest length that there is. -/
def IsDerLen (enc : List UInt8) (n : Nat) : Prop :=
  IsLen enc n ∧ (enc.length = 1 ∨ 128 ≤ n ∧ enc.length = 2 ∨ 256 ≤ n)

/-- A number without a zero in front that it could do without. -/
def IsDerInt (enc : List UInt8) (v : Nat) : Prop :=
  ∃ len content, enc = 0x02 :: (len ++ content) ∧ IsDerLen len content.length ∧ content ≠ []
    ∧ content.headD 0 < 0x80 ∧ (content.headD 0 = 0 → content.length = 1 ∨ 0x80 ≤ content.getD 1 0)
    ∧ BigEndian.value content = v

/-- The signature of DER. -/
def IsDerSig (enc : List UInt8) (r s : Nat) : Prop :=
  ∃ len ri si, enc = 0x30 :: (len ++ (ri ++ si)) ∧ IsDerLen len (ri ++ si).length ∧ IsDerInt ri r
    ∧ IsDerInt si s

/-- The numbers are in range, the key is that of a point `Q`, and `r` is the first coordinate of
`(e / s) • G + (r / s) • Q`, where `e` is the front of the digest. -/
def Verifies (c : Curve) [Fact (value c.p).Prime] (pub hash : List UInt8) (r s : Nat) : Prop :=
  (0 < r ∧ r < value c.order) ∧ (0 < s ∧ s < value c.order)
    ∧ ∃ (x y X Y : ZMod (value c.p)) (hG : (Jacobian.curve c.coeff).Nonsingular (value c.gx) (value c.gy))
        (hxy : (Jacobian.curve c.coeff).Nonsingular x y)
        (hXY : (Jacobian.curve c.coeff).Nonsingular X Y),
      pub = encode c x y
        ∧ ((BigEndian.value (hash.take c.bytes) * (s : ZMod (value c.order))⁻¹ : ZMod (value c.order)).val
            • (.some _ _ hG : (Jacobian.curve c.coeff).Point)
          + (r * (s : ZMod (value c.order))⁻¹ : ZMod (value c.order)).val • .some x y hxy)
          = .some X Y hXY
        ∧ X.val % value c.order = r

/-! ## The signature of DER is one -/

end Ecc
