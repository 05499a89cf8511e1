import MiniWin.Crypto.EccKeys
import MiniWin.Net.Asn1

/-!
# Verification is right

What is read as a signature is a sequence of two numbers, and every such sequence is read. The loop
over the bits of the two scalars keeps the sum of the two multiples by the bits that it has read,
whatever the points are, and its result is compared below the order.
-/

namespace Ecc

open Limbs

/-! ## Reading -/

theorem len_pos {enc : List UInt8} {n : Nat} (h : IsLen enc n) : 0 < enc.length := by
  cases h <;> exact Nat.succ_pos _

/-- A length is read. -/
theorem der_len_append {enc : List UInt8} {n : Nat} (h : IsLen enc n) (rest : List UInt8) :
    ecc_der_len (enc ++ rest) = (enc.length, n) := by
  cases h with
  | short hb =>
    rw [List.singleton_append, ecc_der_len, if_pos hb]
    rfl
  | one x =>
    have hval := Asn1.shiftIn_toNat [x] (Nat.le_of_ble_eq_true rfl)
    rw [List.cons_append, ecc_der_len, if_neg (by decide)]
    have hnb : ((0x81 : UInt8) &&& 0x7F).toNat = 1 := rfl
    rw [hnb, if_neg (by simp)]
    exact congrArg (Prod.mk 2) (hval.trans (Nat.zero_add _))
  | two x y =>
    have hval := Asn1.shiftIn_toNat [x, y] (Nat.le_of_ble_eq_true rfl)
    rw [List.cons_append, ecc_der_len, if_neg (by decide)]
    have hnb : ((0x82 : UInt8) &&& 0x7F).toNat = 2 := rfl
    rw [hnb, if_neg (by simp)]
    exact congrArg (Prod.mk 3) hval

/-- The long forms of one byte and of two. -/
theorem long_form {b : UInt8} (hb : ¬b < 0x80)
    (hnb : ¬((b &&& 0x7F).toNat = 0 ∨ (b &&& 0x7F).toNat > 2)) :
    b = 0x81 ∧ (b &&& 0x7F).toNat = 1 ∨ b = 0x82 ∧ (b &&& 0x7F).toNat = 2 := by
  have hlt := b.toNat_lt
  have hge : 128 ≤ b.toNat := Nat.not_lt.mp hb
  have hand : (b &&& 0x7F).toNat = b.toNat % 128 := by
    rw [UInt8.toNat_and]
    exact Nat.and_two_pow_sub_one_eq_mod _ 7
  rw [hand] at hnb ⊢
  have hor : b.toNat = 129 ∨ b.toNat = 130 := by omega
  rcases hor with h | h
  · exact .inl ⟨UInt8.toNat_inj.mp h, by omega⟩
  · exact .inr ⟨UInt8.toNat_inj.mp h, by omega⟩

/-- What is read as a length is one. -/
theorem der_len_ne_zero {p : List UInt8} (h : (ecc_der_len p).1 ≠ 0) :
    ∃ enc rest n, p = enc ++ rest ∧ IsLen enc n ∧ ecc_der_len p = (enc.length, n) := by
  obtain ⟨enc, rest, n, rfl, henc⟩ : ∃ enc rest n, p = enc ++ rest ∧ IsLen enc n := by
    cases p with
    | nil => exact absurd rfl h
    | cons b p =>
      rw [ecc_der_len] at h
      by_cases hb : b < 0x80
      · exact ⟨[b], p, _, rfl, .short hb⟩
      · rw [if_neg hb] at h
        dsimp only at h
        by_cases hnb : (b &&& 0x7F).toNat = 0 ∨ (b &&& 0x7F).toNat > 2 ∨ p.length < (b &&& 0x7F).toNat
        · rw [if_pos hnb] at h
          exact absurd rfl h
        · rw [← or_assoc, not_or, Nat.not_lt] at hnb
          obtain ⟨hnb, hroom⟩ := hnb
          rcases long_form hb hnb with ⟨rfl, hnb⟩ | ⟨rfl, hnb⟩
          · rw [hnb] at hroom
            obtain ⟨x, p, rfl⟩ : ∃ x p', p = x :: p' := List.exists_cons_of_length_pos hroom
            exact ⟨[0x81, x], p, _, rfl, .one x⟩
          · rw [hnb] at hroom
            obtain ⟨x, p, rfl⟩ : ∃ x p', p = x :: p' :=
              List.exists_cons_of_length_pos (Nat.lt_of_lt_of_le Nat.zero_lt_two hroom)
            obtain ⟨y, p, rfl⟩ : ∃ y p', p = y :: p' :=
              List.exists_cons_of_length_pos (Nat.le_of_succ_le_succ hroom)
            exact ⟨[0x82, x, y], p, _, rfl, .two x y⟩
  exact ⟨enc, rest, n, rfl, henc, der_len_append henc rest⟩

theorem high_bit_iff (b : UInt8) : b &&& 0x80 ≠ 0 ↔ ¬b < 0x80 := by
  obtain ⟨v⟩ := b
  have hall : ∀ v : BitVec 8, UInt8.ofBitVec v &&& 0x80 ≠ 0 ↔ ¬UInt8.ofBitVec v < 0x80 := by
    decide +kernel
  exact hall v

/-- The zeros in front go, all but the last byte. -/
theorem strip_append (content rest : List UInt8) (hne : content ≠ []) :
    ∃ short, strip content.length (content ++ rest) = (short.length, short ++ rest) ∧ short ≠ []
      ∧ BigEndian.value short = BigEndian.value content
      ∧ (short.length = 1 ∨ short.headD 0 ≠ 0) := by
  induction content with
  | nil => exact absurd rfl hne
  | cons x content ih =>
    cases content with
    | nil => exact ⟨[x], rfl, List.cons_ne_nil _ _, rfl, .inl rfl⟩
    | cons y content =>
      show ∃ short, (if x = 0 then strip (content.length + 1) (y :: content ++ rest)
        else (content.length + 2, x :: (y :: content ++ rest))) = _ ∧ _
      by_cases hx : x = 0
      · subst hx
        rw [if_pos rfl]
        obtain ⟨short, hstrip, hshort, hval, hhead⟩ := ih (List.cons_ne_nil _ _)
        have hzero : BigEndian.value (0 :: y :: content) = BigEndian.value (y :: content) := by
          have happ := BigEndian.value_append [0] (y :: content)
          rw [show BigEndian.value [0] = 0 from rfl, Nat.zero_mul, Nat.zero_add] at happ
          exact happ
        exact ⟨short, hstrip, hshort, hval.trans hzero.symm, hhead⟩
      · rw [if_neg hx]
        exact ⟨x :: y :: content, rfl, List.cons_ne_nil _ _, rfl, .inr hx⟩

/-- A row of bytes without a zero in front is as long as its number is large. -/
theorem short_le_iff {short : List UInt8} {k : Nat} (hk : 0 < k)
    (h : short.length = 1 ∨ short.headD 0 ≠ 0) :
    short.length ≤ k ↔ BigEndian.value short < 256 ^ k := by
  constructor
  · intro hle
    exact Nat.lt_of_lt_of_le (BigEndian.value_lt short) (Nat.pow_le_pow_right (by decide) hle)
  · intro hlt
    by_contra hgt
    rcases h with h | h
    · omega
    · obtain ⟨x, l, rfl⟩ : ∃ x l, short = x :: l := List.exists_cons_of_length_pos (by omega)
      have hx : 1 ≤ x.toNat := Nat.pos_of_ne_zero fun h0 => h (UInt8.toNat_inj.mp h0)
      have hval : BigEndian.value (x :: l) = x.toNat * 256 ^ l.length + BigEndian.value l := by
        have happ := BigEndian.value_append [x] l
        rw [show BigEndian.value [x] = 0 * 256 + x.toNat from rfl, Nat.zero_mul,
          Nat.zero_add] at happ
        exact happ
      rw [List.length_cons] at hgt
      have hpow : 256 ^ k ≤ 256 ^ l.length := Nat.pow_le_pow_right (by decide) (by omega)
      have hmul : 1 * 256 ^ l.length ≤ x.toNat * 256 ^ l.length := Nat.mul_le_mul_right _ hx
      omega

variable {c : Curve}

/-- A number is read, where it has room. -/
theorem der_uint_append (hw : c.Works) {enc : List UInt8} {v : Nat} (h : IsInt enc v)
    (rest : List UInt8) :
    (v < 256 ^ c.bytes ∧ ∃ w, ecc_der_uint c (enc ++ rest) = some (w, rest) ∧ w.length = c.n
        ∧ value w = v)
      ∨ 256 ^ c.bytes ≤ v ∧ ecc_der_uint c (enc ++ rest) = none := by
  obtain ⟨len, content, rfl, hlen, hne, hhead, hval⟩ := h
  have hpos : 0 < content.length := List.length_pos_of_ne_nil hne
  have hlenpos := len_pos hlen
  have hn : 0 < c.n := hw.fp.pos
  have hbytes : 0 < c.bytes := by
    rw [hw.bytes]
    omega
  obtain ⟨short, hstrip, hshort, hsval, hshead⟩ := strip_append content rest hne
  have hheadapp : (content ++ rest).headD 0 = content.headD 0 := by
    obtain ⟨x, l, rfl⟩ := List.exists_cons_of_ne_nil hne
    rfl
  have hread : ecc_der_uint c (0x02 :: (len ++ content) ++ rest)
      = if short.length > c.bytes then none
        else some (ecc_from_be c.n (short ++ rest) short.length, rest) := by
    rw [List.cons_append, List.append_assoc, ecc_der_uint, if_neg (not_not.mpr rfl),
      der_len_append hlen]
    dsimp only
    rw [if_neg hlenpos.ne', if_neg (by
      rw [List.length_append, List.length_append]
      omega), List.drop_left, if_neg (by
      rw [high_bit_iff, not_not, hheadapp]
      exact hhead), hstrip]
    rw [List.drop_left]
  have hiff := short_le_iff hbytes hshead
  rw [hsval, hval] at hiff
  rw [hread]
  by_cases hlt : v < 256 ^ c.bytes
  · have hle := hiff.mpr hlt
    obtain ⟨hwlen, hwval⟩ := from_be_eq (hle.trans hw.bytes.le) (short ++ rest)
    refine .inl ⟨hlt, _, if_neg (Nat.not_lt.mpr hle), hwlen, ?_⟩
    rw [hwval, firstBytes_eq_take (by rw [List.length_append]; omega), List.take_left, hsval, hval]
  · exact .inr ⟨Nat.not_lt.mp hlt, if_pos (Nat.not_le.mp (mt hiff.mp hlt))⟩

/-- What is read as a number is one. -/
theorem der_uint_some {buf rest : List UInt8} {w : Words} (h : ecc_der_uint c buf = some (w, rest)) :
    ∃ enc behind v, buf = enc ++ behind ∧ IsInt enc v := by
  cases buf with
  | nil => exact absurd h.symm (Option.some_ne_none _)
  | cons tag p =>
    rw [ecc_der_uint] at h
    by_cases htag : tag ≠ 0x02
    · rw [if_pos htag] at h
      exact absurd h.symm (Option.some_ne_none _)
    obtain rfl := not_not.mp htag
    rw [if_neg htag] at h
    dsimp only at h
    by_cases hhl : (ecc_der_len p).1 = 0
    · rw [if_pos hhl] at h
      exact absurd h.symm (Option.some_ne_none _)
    rw [if_neg hhl] at h
    obtain ⟨len, q, n, rfl, hlen, heq⟩ := der_len_ne_zero hhl
    rw [heq] at h
    dsimp only at h
    by_cases hroom : n = 0 ∨ (len ++ q).length < len.length + n
    · rw [if_pos hroom] at h
      exact absurd h.symm (Option.some_ne_none _)
    rw [if_neg hroom, List.drop_left] at h
    rw [not_or, List.length_append] at hroom
    have htake : (q.take n).length = n := by
      rw [List.length_take]
      omega
    by_cases hhigh : q.headD 0 &&& 0x80 ≠ 0
    · rw [if_pos hhigh] at h
      exact absurd h.symm (Option.some_ne_none _)
    rw [high_bit_iff, not_not] at hhigh
    refine ⟨0x02 :: (len ++ q.take n), q.drop n, _, ?_, len, q.take n, rfl, ?_, ?_, ?_, rfl⟩
    · rw [List.cons_append, List.append_assoc, List.take_append_drop]
    · rw [htake]
      exact hlen
    · intro hnil
      rw [hnil, List.length_nil] at htake
      exact hroom.1 htake.symm
    · cases q with
      | nil =>
        rw [List.take_nil, List.length_nil] at htake
        exact absurd htake.symm hroom.1
      | cons x q =>
        obtain ⟨k, rfl⟩ := Nat.exists_eq_succ_of_ne_zero hroom.1
        exact hhigh

theorem three_le_length {enc : List UInt8} {v : Nat} (h : IsInt enc v) : 3 ≤ enc.length := by
  obtain ⟨len, content, rfl, hlen, hne, -⟩ := h
  have := len_pos hlen
  have := List.length_pos_of_ne_nil hne
  rw [List.length_cons, List.length_append]
  omega

/-- **A signature is read**, where its numbers have room. -/
theorem parseSig_of_isSig (hw : c.Works) {sig : List UInt8} {r s : Nat} (h : IsSig sig r s)
    (hr : r < 256 ^ c.bytes) (hs : s < 256 ^ c.bytes) :
    ∃ wr ws, parseSig c sig = some (wr, ws) ∧ wr.length = c.n ∧ value wr = r ∧ ws.length = c.n
      ∧ value ws = s := by
  obtain ⟨len, ri, si, rfl, hlen, hri, hsi⟩ := h
  have hlenpos := len_pos hlen
  have hrlen := three_le_length hri
  have hslen := three_le_length hsi
  rcases der_uint_append hw hri si with ⟨-, wr, hwr, hwrlen, hwrval⟩ | ⟨hge, -⟩
  · rcases der_uint_append hw hsi [] with ⟨-, ws, hws, hwslen, hwsval⟩ | ⟨hge, -⟩
    · refine ⟨wr, ws, ?_, hwrlen, hwrval, hwslen, hwsval⟩
      rw [List.append_nil] at hws
      unfold parseSig
      rw [if_neg (by
        rw [not_or, List.length_cons, List.length_append, List.length_append]
        exact ⟨by omega, not_not.mpr rfl⟩), List.drop_one, List.tail_cons, der_len_append hlen]
      dsimp only
      rw [if_neg (by
        simp only [List.length_cons, List.length_append]
        omega), Nat.add_comm 1, List.drop_succ_cons, List.drop_left, hwr]
      dsimp only
      rw [hws]
      rfl
    · exact absurd hs (Nat.not_lt.mpr hge)
  · exact absurd hr (Nat.not_lt.mpr hge)

/-- **What is read as a signature is one.** -/
theorem isSig_of_parseSig (hw : c.Works) {sig : List UInt8} {wr ws : Words}
    (h : parseSig c sig = some (wr, ws)) :
    wr.length = c.n ∧ ws.length = c.n ∧ IsSig sig (value wr) (value ws) := by
  unfold parseSig at h
  by_cases hhead : sig.length < 8 ∨ sig.headD 0 ≠ 0x30
  · rw [if_pos hhead] at h
    exact absurd h.symm (Option.some_ne_none _)
  rw [if_neg hhead] at h
  rw [not_or, not_not] at hhead
  obtain ⟨tag, p, rfl⟩ : ∃ tag p, sig = tag :: p := List.exists_cons_of_length_pos (by omega)
  obtain rfl : tag = 0x30 := hhead.2
  rw [List.drop_one, List.tail_cons] at h
  dsimp only at h
  by_cases hlens : (ecc_der_len p).1 = 0 ∨ 1 + (ecc_der_len p).1 + (ecc_der_len p).2 ≠ (0x30 :: p).length
  · rw [if_pos hlens] at h
    exact absurd h.symm (Option.some_ne_none _)
  rw [if_neg hlens] at h
  rw [not_or, not_not] at hlens
  obtain ⟨len, q, n, rfl, hlen, heq⟩ := der_len_ne_zero hlens.1
  rw [heq, List.length_cons, List.length_append] at hlens
  rw [heq, Nat.add_comm 1, List.drop_succ_cons, List.drop_left] at h
  cases hrr : ecc_der_uint c q with
  | none =>
    rw [hrr] at h
    exact absurd h.symm (Option.some_ne_none _)
  | some a =>
    obtain ⟨wr', rest⟩ := a
    rw [hrr] at h
    dsimp only at h
    obtain ⟨ri, behind, r, rfl, hri⟩ := der_uint_some hrr
    rcases der_uint_append hw hri behind with ⟨-, w, hwr, hwrlen, hwrval⟩ | ⟨-, hnone⟩
    · obtain ⟨rfl, rfl⟩ := Prod.mk.inj (Option.some.inj (hrr.symm.trans hwr))
      cases hss : ecc_der_uint c rest with
      | none =>
        rw [hss] at h
        exact absurd h.symm (Option.some_ne_none _)
      | some a =>
        obtain ⟨ws', last⟩ := a
        rw [hss] at h
        dsimp only at h
        obtain ⟨si, behind, s, rfl, hsi⟩ := der_uint_some hss
        rcases der_uint_append hw hsi behind with ⟨-, w, hws, hwslen, hwsval⟩ | ⟨-, hnone⟩
        · obtain ⟨rfl, rfl⟩ := Prod.mk.inj (Option.some.inj (hss.symm.trans hws))
          by_cases hlast : last ≠ []
          · rw [if_pos hlast] at h
            exact absurd h.symm (Option.some_ne_none _)
          rw [if_neg hlast] at h
          obtain rfl := not_not.mp hlast
          obtain ⟨rfl, rfl⟩ := Prod.mk.inj (Option.some.inj h)
          refine ⟨hwrlen, hwslen, len, ri, si, by rw [List.append_nil], ?_, hwrval ▸ hri, hwsval ▸ hsi⟩
          rw [List.append_nil] at hlens
          rw [show (ri ++ si).length = n by omega]
          exact hlen
        · exact absurd (hss.symm.trans hnone) (Option.some_ne_none _)
    · exact absurd (hrr.symm.trans hnone) (Option.some_ne_none _)

/-! ## The two scalars -/

variable [Fact (value c.p).Prime] {B : ZMod (value c.p)} {P Q : (Jacobian.curve B).Point}
  {g q gq acc : Point}

/-- **One bit of each of the scalars.** -/
theorem Represents.shamirRound (hw : c.Works) {u1 u2 : Words} {i : Nat} (hg : Represents c g P)
    (hq : Represents c q Q) (hgq : Represents c gq (P + Q))
    (hacc : Represents c acc ((value u1 / 2 ^ (i + 1)) • P + (value u2 / 2 ^ (i + 1)) • Q)) :
    Represents c (shamirRound c g q gq u1 u2 i acc)
      ((value u1 / 2 ^ i) • P + (value u2 / 2 ^ i) • Q) := by
  have hdouble := hacc.dbl hw.toReady
  have hsum : (value u1 / 2 ^ i) • P + (value u2 / 2 ^ i) • Q
      = ((value u1 / 2 ^ (i + 1)) • P + (value u2 / 2 ^ (i + 1)) • Q)
        + ((value u1 / 2 ^ (i + 1)) • P + (value u2 / 2 ^ (i + 1)) • Q)
        + (((value u1).testBit i).toNat • P + ((value u2).testBit i).toNat • Q) := by
    rw [Jacobian.div_pow_succ (value u1) i, Jacobian.div_pow_succ (value u2) i]
    simp only [add_smul]
    abel
  unfold Ecc.shamirRound
  simp only [bit_ne_zero_iff]
  rw [hsum]
  cases (value u1).testBit i with
  | true =>
    cases (value u2).testBit i with
    | true =>
      rw [if_pos ⟨rfl, rfl⟩, Bool.toNat_true, one_smul, one_smul]
      exact hdouble.add hw.toReady hgq
    | false =>
      rw [if_neg (fun h => Bool.false_ne_true h.2), if_pos rfl, Bool.toNat_true, Bool.toNat_false,
        one_smul, zero_nsmul, add_zero]
      exact hdouble.add hw.toReady hg
  | false =>
    cases (value u2).testBit i with
    | true =>
      rw [if_neg (fun h => Bool.false_ne_true h.1), if_neg Bool.false_ne_true, if_pos rfl,
        Bool.toNat_true, Bool.toNat_false, one_smul, zero_nsmul, zero_add]
      exact hdouble.add hw.toReady hq
    | false =>
      rw [if_neg (fun h => Bool.false_ne_true h.1), if_neg Bool.false_ne_true,
        if_neg Bool.false_ne_true, Bool.toNat_false, zero_nsmul, zero_nsmul, zero_add, add_zero]
      exact hdouble

/-- **The loop makes the sum of the two multiples.** -/
theorem Represents.shamir (hw : c.Works) {u1 u2 : Words} (h1 : u1.length = c.n)
    (h2 : u2.length = c.n) (hg : Represents c g P) (hq : Represents c q Q) :
    Represents c
      (countdown (Ecc.shamirRound c g q (ecc_pt_add c g q) u1 u2) (c.n * 32) (ecc_pt_set_inf c))
      (value u1 • P + value u2 • Q) := by
  have hgq := hg.add hw.toReady hq
  have hend := countdown_inv (f := Ecc.shamirRound c g q (ecc_pt_add c g q) u1 u2) (n := c.n * 32)
    (a := ecc_pt_set_inf c)
    (fun i r => Represents c r ((value u1 / 2 ^ i) • P + (value u2 / 2 ^ i) • Q))
    (fun i r _ hr => hg.shamirRound hw hq hgq hr) ?_
  · rw [Nat.pow_zero, Nat.div_one, Nat.div_one] at hend
    exact hend
  · have hzero {u : Words} (hu : u.length = c.n) (R : (Jacobian.curve B).Point) :
        (value u / 2 ^ (c.n * 32)) • R = 0 := by
      rw [Nat.div_eq_of_lt (by rw [Nat.mul_comm]; exact value_lt_of_length hu)]
      exact zero_smul ℕ R
    rw [hzero h1, hzero h2, add_zero]
    exact represents_inf hw.toReady

/-! ## Verification -/

omit [Fact (value c.p).Prime] in
theorem inRange_iff (hw : c.Works) {r : Words} (hr : r.length = c.n) :
    inRange c r = true ↔ 0 < value r ∧ value r < value c.order := by
  rw [inRange, Bool.and_eq_true, Bool.not_eq_true', ← Bool.not_eq_true, is_zero_iff, beq_iff_eq,
    cmp_eq hr hw.fn.width, Nat.compare_eq_lt, ← ne_eq, ← Nat.pos_iff_ne_zero]

omit [Fact (value c.p).Prime] in
/-- A product with what stands for a number is not Montgomery's any more. -/
theorem mm_plain {f : Field} (hf : f.Good) {a b : Words} {y : ZMod (value f.m)}
    (ha : a.length = f.n) (hlt : value a < value f.m) (hb : Stands f b y) :
    (ecc_mm f a b).length = f.n
      ∧ value (ecc_mm f a b) = ((value a : ZMod (value f.m)) * y).val := by
  have := Fact.mk hf.prime
  obtain ⟨hlen, hred, hcast⟩ := mm_eq hf.fits ha hlt hb.width
  refine ⟨hlen, ?_⟩
  rw [hb.cast, ← mul_assoc] at hcast
  rw [← mul_right_cancel₀ (factor_ne_zero hf) hcast]
  exact (ZMod.val_cast_of_lt hred).symm

/-- **The check** of two numbers. -/
theorem checkSig_iff (hw : c.Works) (pub hash : List UInt8) {r s : Words} (hr : r.length = c.n)
    (hs : s.length = c.n) :
    checkSig c pub hash r s = 1 ↔ Verifies c pub hash (value r) (value s) := by
  have hpos : 0 < value c.order := hw.fn.prime.pos
  have htop := hw.top
  unfold checkSig
  by_cases hrange : inRange c r = true ∧ inRange c s = true
  swap
  · have hnot : (!inRange c r || !inRange c s) = true := by
      rw [Bool.or_eq_true, Bool.not_eq_true', Bool.not_eq_true', ← Bool.not_eq_true,
        ← Bool.not_eq_true, ← not_and_or]
      exact hrange
    rw [if_pos hnot]
    refine iff_of_false Nat.zero_ne_one fun h => hrange ?_
    exact ⟨(inRange_iff hw hr).mpr h.1, (inRange_iff hw hs).mpr h.2.1⟩
  rw [hrange.1, hrange.2, if_neg (by decide)]
  have hr' := (inRange_iff hw hr).mp hrange.1
  have hs' := (inRange_iff hw hs).mp hrange.2
  obtain ⟨hG, -⟩ := hw.base
  rcases parse_cases hw pub with ⟨x, y, hxy, hpub, q, hq, hrep⟩ | ⟨hnone, hnot⟩
  swap
  · rw [hnone]
    refine iff_of_false Nat.zero_ne_one fun h => ?_
    obtain ⟨-, -, x, y, -, -, -, hxy, -, hpub, -⟩ := h
    exact hnot x y hxy hpub
  rw [hq]
  dsimp only
  have hfn := hw.fn
  have hwide : hash.take c.bytes = firstBytes hash (min hash.length c.bytes) := by
    rw [firstBytes_eq_take (Nat.min_le_left _ _), List.take_eq_take_iff]
    omega
  have huse : (if hash.length > c.bytes then c.bytes else hash.length) = min hash.length c.bytes := by
    split <;> omega
  rw [huse]
  obtain ⟨helen0, heval0⟩ := from_be_eq (n := c.n)
    ((Nat.min_le_right hash.length c.bytes).trans hw.bytes.le) hash
  rw [← hwide] at heval0
  obtain ⟨helen, heval⟩ := reduce_once helen0 hw.fn.width
    (Nat.lt_of_lt_of_le (value_lt_of_length helen0) hw.top) (r := subOnce c _) rfl
  have hone := (Stands.to_mont hfn (length_small c.n 1) (by
    rw [value_small hw.fp.pos]
    exact hfn.prime.one_lt)).congr (y := 1) (by rw [value_small hw.fp.pos]; exact Nat.cast_one)
  have hinv := (Stands.to_mont hfn hs hs'.2).minv hfn hone
  have helt : value (subOnce c (ecc_from_be c.n hash (min hash.length c.bytes))) < value c.order := by
    rw [heval]
    exact Nat.mod_lt _ hpos
  obtain ⟨hu1len, hu1⟩ := mm_plain hfn helen helt hinv
  obtain ⟨hu2len, hu2⟩ := mm_plain hfn hr hr'.2 hinv
  have hsum := (represents_base hw hG).shamir hw hu1len hu2len hrep
  rw [hu1, hu2, heval, heval0, ZMod.natCast_mod] at hsum
  rcases hsum.to_affine hw.toReady with ⟨hz, hnone⟩ | ⟨X, Y, hXY, X', Y', hP, hsome, hX'len, hX', -, -⟩
  · rw [hnone]
    refine iff_of_false Nat.zero_ne_one fun h => ?_
    obtain ⟨-, -, u, v, U, V, _, huv, hUV, hpub', heq, -⟩ := h
    obtain ⟨rfl, rfl⟩ := encode_inj hw (hpub.symm.trans hpub')
    exact WeierstrassCurve.Affine.Point.some_ne_zero hUV (heq.symm.trans hz)
  · rw [hsome]
    dsimp only
    obtain ⟨hxlen, hxval⟩ := reduce_once hX'len hw.fn.width (r := subOnce c X') (by
      rw [hX']
      exact Nat.lt_trans (zmod_val_lt X) hw.p_lt) rfl
    have hiff : ecc_cmp (subOnce c X') r c.n = .eq ↔ X.val % value c.order = value r := by
      rw [cmp_eq hxlen hr, Nat.compare_eq_eq, hxval, hX']
    constructor
    · intro h
      split at h
      · next heq => exact ⟨hr', hs', x, y, X, Y, hG, hxy, hXY, hpub, hP, hiff.mp heq⟩
      · exact absurd h Nat.zero_ne_one
    · rintro ⟨-, -, u, v, U, V, _, huv, hUV, hpub', heq, hmod⟩
      obtain ⟨rfl, rfl⟩ := encode_inj hw (hpub.symm.trans hpub')
      obtain ⟨rfl, rfl⟩ := WeierstrassCurve.Affine.Point.some.inj (hP.symm.trans heq)
      rw [if_pos (hiff.mpr hmod)]

/-- Preparing changes nothing that a signature depends on. -/
theorem verifies_prepare (c : Curve) : ∀ [Fact (value (ecc_curve_prepare c).p).Prime]
    [Fact (value c.p).Prime] (pub hash : List UInt8) (r s : Nat),
    Verifies (ecc_curve_prepare c) pub hash r s ↔ Verifies c pub hash r s := by
  obtain ⟨c', hc'⟩ : ∃ c', ecc_curve_prepare c = c' := ⟨_, rfl⟩
  rw [hc']
  unfold ecc_curve_prepare at hc'
  split at hc' <;> subst hc' <;> exact fun _ _ _ _ => Iff.rfl

/-- A signature that verifies is taken. -/
theorem verify_of_isSig {c : Curve} [Fact (value c.p).Prime] (h : Curves c)
    {pub hash sig : List UInt8} {r s : Nat} (hsig : IsSig sig r s) (hver : Verifies c pub hash r s) :
    ecdsa_verify_der c pub hash sig = 1 := by
  have hw := h.works
  have hprime := Fact.mk hw.fp.prime
  have hfull : value (ecc_curve_prepare c).order < 256 ^ (ecc_curve_prepare c).bytes :=
    val_lt_bytes hw (value_lt_of_length hw.fn.width)
  rw [← verifies_prepare c] at hver
  obtain ⟨wr, ws, hparse, hr, rfl, hs, rfl⟩ := parseSig_of_isSig hw hsig
    (Nat.lt_trans hver.1.2 hfull) (Nat.lt_trans hver.2.1.2 hfull)
  unfold ecdsa_verify_der
  dsimp only
  rw [hparse]
  exact (checkSig_iff hw pub hash hr hs).mpr hver

/-- What is taken is a signature that verifies. -/
theorem isSig_of_verify {c : Curve} [Fact (value c.p).Prime] (h : Curves c)
    {pub hash sig : List UInt8} (hone : ecdsa_verify_der c pub hash sig = 1) :
    ∃ r s, IsSig sig r s ∧ Verifies c pub hash r s := by
  have hw := h.works
  have hprime := Fact.mk hw.fp.prime
  unfold ecdsa_verify_der at hone
  dsimp only at hone
  cases hparse : parseSig (ecc_curve_prepare c) sig with
  | none =>
    rw [hparse] at hone
    exact absurd hone Nat.zero_ne_one
  | some w =>
    obtain ⟨wr, ws⟩ := w
    obtain ⟨hr, hs, hsig⟩ := isSig_of_parseSig hw hparse
    rw [hparse] at hone
    have hver := (checkSig_iff hw pub hash hr hs).mp hone
    rw [verifies_prepare c] at hver
    exact ⟨_, _, hsig, hver⟩

/-- **Verification.** A signature is taken when it is a sequence of two numbers that verifies. -/
theorem ecdsa_verify {c : Curve} [Fact (value c.p).Prime] (h : Curves c)
    (pub hash sig : List UInt8) :
    ecdsa_verify_der c pub hash sig = 1 ↔ ∃ r s, IsSig sig r s ∧ Verifies c pub hash r s :=
  ⟨isSig_of_verify h, fun ⟨_, _, hsig, hver⟩ => verify_of_isSig h hsig hver⟩

/-! ## A length that is longer than it has to be -/

/-- A number that takes 32 bytes. -/
def int256 (v : Nat) : List UInt8 := 0x02 :: ([0x20] ++ BigEndian.bytes 32 v)

/-- The signature of nothing by the key that is the base point, with the length of the sequence in
the long form. -/
def longSig : List UInt8 := 0x30 :: ([0x81, 0x44] ++ (int256 gx256 ++ int256 gx256))

def baseKey : List UInt8 := 0x04 :: (BigEndian.bytes 32 gx256 ++ BigEndian.bytes 32 gy256)

instance : Fact (value ecc_p256.p).Prime := ⟨sound_p256.p_prime⟩

theorem isInt_int256 {v : Nat} (hv : v < 256 ^ 32) (h : (BigEndian.bytes 32 v).headD 0 < 0x80) :
    IsInt (int256 v) v := by
  refine ⟨[0x20], BigEndian.bytes 32 v, rfl, ?_, ?_, h, BigEndian.value_bytes hv⟩
  · rw [BigEndian.length_bytes]
    exact .short (by decide)
  · exact List.ne_nil_of_length_pos (by rw [BigEndian.length_bytes]; decide)

/-- It is a signature, but not one of DER. -/
theorem isSig_longSig : IsSig longSig gx256 gx256 ∧ ∀ r s, ¬IsDerSig longSig r s := by
  constructor
  · have hint : IsInt (int256 gx256) gx256 := isInt_int256 (by decide +kernel) (by decide +kernel)
    exact ⟨[0x81, 0x44], _, _, rfl, .one 0x44, hint, hint⟩
  · rintro r s ⟨len, ri, si, heq, ⟨hlen, hshort⟩, -, -⟩
    have htail := (List.cons.inj heq).2
    obtain ⟨n, hn⟩ : ∃ n, (ri ++ si).length = n := ⟨_, rfl⟩
    rw [hn] at hlen hshort
    cases hlen with
    | short hb =>
      obtain rfl := (List.cons.inj htail).1
      exact absurd hb (by decide)
    | one x =>
      obtain rfl := (List.cons.inj (List.cons.inj htail).2).1
      exact absurd hshort (by decide)
    | two x y => exact absurd (List.cons.inj htail).1 (by decide)

/-- The key is that of the base point, and each of the two numbers its first coordinate. -/
theorem verifies_baseKey : Verifies ecc_p256 baseKey [] gx256 gx256 := by
  have hp : value ecc_p256.p = prime256 := by decide +kernel
  have hn : value ecc_p256.order = order256 := by decide +kernel
  have hx : value ecc_p256.gx = gx256 := by decide +kernel
  have hy : value ecc_p256.gy = gy256 := by decide +kernel
  obtain ⟨hG, -⟩ := sound_p256.base
  have hrange : 0 < gx256 ∧ gx256 < value ecc_p256.order := by
    rw [hn]
    decide +kernel
  have hlt : gx256 < value ecc_p256.p := by
    rw [hp]
    decide +kernel
  have hlty : gy256 < value ecc_p256.p := by
    rw [hp]
    decide +kernel
  have hfact : Fact (value ecc_p256.order).Prime := ⟨sound_p256.order_prime⟩
  have hunit : (gx256 : ZMod (value ecc_p256.order)) ≠ 0 := by
    rw [ne_eq, ZMod.natCast_eq_zero_iff]
    exact fun h => absurd (Nat.le_of_dvd hrange.1 h) (Nat.not_le.mpr hrange.2)
  refine ⟨hrange, hrange, _, _, _, _, hG, hG, hG, ?_, ?_, ?_⟩
  · rw [hx, hy, encode, ZMod.val_cast_of_lt hlt, ZMod.val_cast_of_lt hlty]
    rfl
  · rw [show BigEndian.value (List.take ecc_p256.bytes []) = 0 from rfl, Nat.cast_zero, zero_mul,
      mul_inv_cancel₀ hunit, ZMod.val_zero, ZMod.val_one, zero_nsmul, one_smul, zero_add]
  · rw [hx, ZMod.val_cast_of_lt hlt]
    exact Nat.mod_eq_of_lt hrange.2

/-- **A signature is taken that DER does not have.** -/
theorem ecdsa_verify_long : ecdsa_verify_der ecc_p256 baseKey [] longSig = 1
    ∧ ∀ r s, ¬IsDerSig longSig r s :=
  ⟨verify_of_isSig List.mem_cons_self isSig_longSig.1 verifies_baseKey, isSig_longSig.2⟩

/-- The signature is taken since it verifies. -/
theorem ecdsa_verify_p256 :
    Curves ecc_p256 ∧ ecdsa_verify_der ecc_p256 baseKey [] longSig = 1 :=
  have hc : Curves ecc_p256 := List.mem_cons_self
  ⟨hc, (ecdsa_verify hc baseKey [] longSig).mpr ⟨_, _, isSig_longSig.1, verifies_baseKey⟩⟩

end Ecc
