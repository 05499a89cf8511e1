import MiniWin.Net.X509Trace

/-!
# X.509: memory safety

Which inputs keep the parser inside the certificate. An address is in the certificate by how far it
is from its first byte, in the 32 bits of an address, and so nothing is said here about where the
certificate lies.

Two things go wrong, and nothing else. A length of nearly `2 ^ 32` makes the position and the length
go round in `asn1_parse_tlv`, and the element then leads back to its own header. And the count of
unused bits of a KeyUsage may be more than the bits that there are: of two bytes a third is read,
which is the byte behind the BIT STRING, and not always in the certificate.
-/

namespace X509

open Asn1 Pkcs1

/-- A row lies in another. -/
def Within (r B : Row) : Prop := (r.p - B.p).toNat + r.remaining.toNat ≤ B.remaining.toNat

/-- A byte of a row. -/
def InBuf (B : Row) (p : UInt32) : Prop := (p - B.p).toNat < B.remaining.toNat

/-- **What a call of `asn1_parse_tlv` has to come to**: a value in the bytes that it was given, and
a next element behind this one. -/
structure Inside (r : Row) (t : Tlv) : Prop where
  value : Within t.row r
  next_pos : 0 < (t.next - r.p).toNat
  next_le : (t.next - r.p).toNat ≤ r.remaining.toNat

/-- An access that stays inside the certificate. -/
def Access.Safe (m : Mem) (B : Row) : Access → Prop
  | .call r => ∀ t, r.parse m = some t → Inside r t
  | .read p => InBuf B p
  | .usage _ => True

/-- A header whose length goes round: four bytes of length, and nearly all bits of them set. -/
def GoesRound (m : Mem) (r : Row) : Prop :=
  6 ≤ r.remaining ∧ m (r.p + 1) = 0x84 ∧ m (r.p + 2) = 0xFF ∧ m (r.p + 3) = 0xFF
    ∧ m (r.p + 4) = 0xFF ∧ 0xFA ≤ m (r.p + 5)

/-- **What the parser may meet**: no length that goes round, and no KeyUsage of two bytes with more
than eight unused bits at the end of the certificate. -/
def Access.Sound (m : Mem) (B : Row) : Access → Prop
  | .call r => ¬ GoesRound m r
  | .read _ => True
  | .usage bits => bits.len = 2 → 8 < m bits.value → InBuf B (bits.value + 2)

/-- The bytes of a certificate that lies at the address 0. -/
def derAt (bytes : List UInt8) : Mem := fun p => bytes.getD p.toNat 0

/-- An element of a row that is as it should be. -/
structure Elem (r : Row) (t : Tlv) : Prop extends Inside r t where
  value_pos : 0 < (t.value - r.p).toNat
  next_eq : t.next = t.value + t.len

variable {m : Mem} {r r' B : Row} {t : Tlv} {p q k : UInt32} {fuel : Nat}

/-! ## Addresses -/

theorem offset_add (h : (p - q).toNat + k.toNat < 2 ^ 32) :
    (p + k - q).toNat = (p - q).toNat + k.toNat := by
  have heq : p + k - q = p - q + k := by
    rw [UInt32.sub_eq_add_neg, UInt32.sub_eq_add_neg, UInt32.add_assoc, UInt32.add_comm k,
      ← UInt32.add_assoc]
  rw [heq, UInt32.toNat_add, Nat.mod_eq_of_lt h]

theorem offset_trans (h : (r.p - B.p).toNat + (p - r.p).toNat < 2 ^ 32) :
    (p - B.p).toNat = (r.p - B.p).toNat + (p - r.p).toNat := by
  have hp : p = r.p + (p - r.p) := by rw [UInt32.add_comm, UInt32.sub_add_cancel]
  conv_lhs => rw [hp]
  exact offset_add h

theorem within_self (r : Row) : Within r r := by
  unfold Within
  rw [UInt32.sub_self]
  exact (Nat.zero_add _).le

theorem Within.trans (h : Within r r') (h' : Within r' B) : Within r B := by
  have hlt := B.remaining.toNat_lt
  unfold Within at h h' ⊢
  rw [offset_trans (r := r') (by omega)]
  omega

theorem Within.inBuf (h : Within r B) (hp : InBuf r p) : InBuf B p := by
  have hlt := B.remaining.toNat_lt
  unfold Within InBuf at *
  rw [offset_trans (r := r) (by omega)]
  omega

theorem Within.le (h : Within r B) : r.remaining.toNat ≤ B.remaining.toNat :=
  (Nat.le_add_left _ _).trans h

/-- A byte so far into a row. -/
theorem inBuf_add {i : Nat} (hi : i < r.remaining.toNat) : InBuf r (r.p + UInt32.ofNat i) := by
  unfold InBuf
  rw [UInt32.add_comm, UInt32.add_sub_cancel,
    UInt32.toNat_ofNat_of_lt' (hi.trans r.remaining.toNat_lt)]
  exact hi

theorem inBuf_head (h : Within r B) (hpos : 0 < r.remaining.toNat) : InBuf B r.p := by
  have hin := h.inBuf (inBuf_add hpos)
  rwa [show r.p + UInt32.ofNat 0 = r.p from UInt32.add_zero _] at hin

/-- The bytes of a row. -/
theorem inBuf_span {n : Nat} (h : Within r B) (hn : n ≤ r.remaining.toNat) :
    ∀ p ∈ span r.p n, InBuf B p := by
  intro p hp
  obtain ⟨i, hi, rfl⟩ := List.mem_map.1 hp
  exact h.inBuf (inBuf_add ((List.mem_range.1 hi).trans_le hn))

/-- A row without its first bytes. -/
theorem Within.skip {n : UInt32} (h : Within ⟨p, n⟩ B) (hk : k.toNat ≤ n.toNat) :
    Within ⟨p + k, n - k⟩ B := by
  refine Within.trans ?_ h
  unfold Within
  dsimp only
  rw [UInt32.add_comm, UInt32.add_sub_cancel,
    UInt32.toNat_sub_of_le _ _ (UInt32.le_iff_toNat_le.2 hk)]
  omega

/-- The bytes of a row from some place on. -/
theorem Within.part {n n' : UInt32} (h : Within ⟨p, n⟩ B) (hn : n'.toNat ≤ n.toNat) :
    Within ⟨p, n'⟩ B := by
  unfold Within at h ⊢
  dsimp only at h ⊢
  omega

/-! ## Elements -/

theorem Elem.behind (h : Elem r t) : Within (r.behind t) r := by
  have hle := h.next_le
  unfold Within Row.behind
  dsimp only
  rw [UInt32.toNat_sub_of_le _ _ (UInt32.le_iff_toNat_le.2 hle)]
  omega

theorem Elem.shrinks (h : Elem r t) : (r.behind t).remaining.toNat < r.remaining.toNat := by
  have hle := h.next_le
  have hpos := h.next_pos
  unfold Row.behind
  dsimp only
  rw [UInt32.toNat_sub_of_le _ _ (UInt32.le_iff_toNat_le.2 hle)]
  omega

theorem Elem.shorter (h : Elem r t) : t.row.remaining.toNat < r.remaining.toNat := by
  have hval : (t.value - r.p).toNat + t.len.toNat ≤ r.remaining.toNat := h.value
  have hpos := h.value_pos
  show t.len.toNat < _
  omega

theorem Elem.row_within (h : Elem r t) (hr : Within r B) : Within t.row B := h.value.trans hr

theorem Elem.behind_within (h : Elem r t) (hr : Within r B) : Within (r.behind t) B :=
  h.behind.trans hr

/-- Where the size of an element does not go round, it is in the row. -/
theorem elem_of_size (h : r.parse m = some t) (hsize : t.size r.p < 2 ^ 32) : Elem r t := by
  obtain ⟨pos, hpos, -, hc, -⟩ := parseTlv_some h
  obtain ⟨ht, hle⟩ := closeTlv_some hc
  have hval : t.value - r.p = pos := by
    rw [ht]
    show r.p + pos - r.p = pos
    rw [UInt32.add_comm, UInt32.add_sub_cancel]
  unfold Tlv.size at hsize
  rw [hval] at hsize
  have hsum : (pos + t.len).toNat = pos.toNat + t.len.toNat := by
    rw [UInt32.toNat_add, Nat.mod_eq_of_lt hsize]
  have hnext : (t.next - r.p).toNat = pos.toNat + t.len.toNat := by
    rw [(parseTlv_next h).2.1]
    unfold Tlv.size
    rw [hval, Nat.mod_eq_of_lt hsize]
  have hfits : pos.toNat + t.len.toNat ≤ r.remaining.toNat := by
    rw [← hsum]
    exact Nat.le_of_not_lt hle
  refine ⟨⟨?_, by omega, by omega⟩, by rw [hval]; omega, ?_⟩
  · show (t.value - r.p).toNat + t.len.toNat ≤ r.remaining.toNat
    rw [hval]
    exact hfits
  · rw [ht]

/-- An element whose length is in four bytes has them in the row. -/
theorem long_le (h : r.parse m = some t) (hlong : m (r.p + 1) = 0x84) : 6 ≤ r.remaining := by
  unfold Row.parse parseTlv at h
  split at h
  · exact nomatch h
  dsimp only at h
  rw [hlong] at h
  rw [if_neg (by decide), if_neg (by decide)] at h
  split at h
  · exact nomatch h
  · next hle => exact Nat.le_of_not_lt hle

theorem elem_of_sound (h : r.parse m = some t) (hround : ¬ GoesRound m r) : Elem r t := by
  refine elem_of_size h (Nat.lt_of_not_le fun hsize => hround ?_)
  obtain ⟨h₁, h₂, h₃, h₄, h₅⟩ := parseTlv_round h hsize
  refine ⟨long_le h h₁, h₁, h₂, h₃, h₄, UInt8.le_iff_toNat_le.2 ?_⟩
  rw [h₅]
  exact Nat.le_add_right 250 _

/-- A length that goes round makes an element that is not in the row. -/
theorem not_inside_of_round (h : GoesRound m r) : ∃ t, r.parse m = some t ∧ ¬ Inside r t := by
  obtain ⟨hsix, h₁, h₂, h₃, h₄, h₅⟩ := h
  have hsix' : 6 ≤ r.remaining.toNat := hsix
  have h₅' : 250 ≤ (m (r.p + 5)).toNat := UInt8.le_iff_toNat_le.1 h₅
  have h₅'' := (m (r.p + 5)).toNat_lt
  have hlen := longLen_four m r.p
  rw [h₂, h₃, h₄] at hlen
  change _ = ((255 * 256 + 255) * 256 + 255) * 256 + (m (r.p + 5)).toNat at hlen
  have hsum : ((6 : UInt32) + longLen m (r.p + 2) 4).toNat
      = (6 + (longLen m (r.p + 2) 4).toNat) % 2 ^ 32 := UInt32.toNat_add _ _
  have hclose : ¬ (6 : UInt32) + longLen m (r.p + 2) 4 > r.remaining := by
    show ¬ r.remaining.toNat < ((6 : UInt32) + longLen m (r.p + 2) 4).toNat
    omega
  have hshort : ¬ r.remaining < 2 := by
    show ¬ r.remaining.toNat < 2
    omega
  refine ⟨⟨m r.p, longLen m (r.p + 2) 4, r.p + 6, r.p + 6 + longLen m (r.p + 2) 4⟩, ?_,
    fun hin => ?_⟩
  · unfold Row.parse parseTlv
    rw [if_neg hshort]
    dsimp only
    rw [h₁, if_neg (by decide), if_neg (by decide)]
    exact (if_neg (Nat.not_lt_of_le hsix')).trans (if_neg hclose)
  · have hval : (r.p + 6 - r.p).toNat + (longLen m (r.p + 2) 4).toNat ≤ r.remaining.toNat :=
      hin.value
    have hlt := r.remaining.toNat_lt
    rw [UInt32.add_comm, UInt32.add_sub_cancel] at hval
    change 6 + _ ≤ _ at hval
    omega

/-! ## What each read is given -/

/-- What a guarantee on the accesses gives, for one that is asked for. -/
structure Rely (m : Mem) (B : Row) (G P : Access → Prop) : Prop where
  call : ∀ r, G (.call r) → P (.call r) ∧ ∀ t, r.parse m = some t → Elem r t
  read : ∀ p, InBuf B p → P (.read p)
  usage : ∀ bits, Within bits.row B → 2 ≤ bits.len.toNat →
    (∀ s ∈ Access.usage bits :: (usageReads m bits).map .read, G s) →
    ∀ s ∈ Access.usage bits :: (usageReads m bits).map .read, P s

theorem inBuf_sameReads {same : UInt8 → UInt8 → Bool} {l : List UInt8} {n : UInt32}
    (h : Within ⟨p, n⟩ B) (hl : l.length ≤ n.toNat) :
    ∀ q ∈ sameReads same m p l, InBuf B q := by
  induction l generalizing p n with
  | nil => exact nofun
  | cons b l ih =>
    have hpos : 1 ≤ n.toNat := (Nat.le_add_left 1 l.length).trans hl
    intro q hq
    obtain rfl | hq := List.mem_cons.1 hq
    · exact inBuf_head h hpos
    · split at hq
      · refine ih (h.skip (k := 1) hpos) ?_ q hq
        rw [UInt32.toNat_sub_of_le n 1 (UInt32.le_iff_toNat_le.2 hpos)]
        exact Nat.le_sub_one_of_lt hl
      · exact nomatch hq

theorem inBuf_tlvReads (h : Within r B) : ∀ p ∈ tlvReads m r, InBuf B p := by
  unfold tlvReads
  split
  · exact nofun
  · next htwo =>
    have htwo' : 2 ≤ r.remaining.toNat := Nat.le_of_not_lt htwo
    dsimp only
    split
    · exact inBuf_span h htwo'
    · next hlong =>
      simp only [not_or] at hlong
      have hlt := r.remaining.toNat_lt
      have hle : (2 + (m (r.p + 1) &&& 0x7F).toUInt32).toNat ≤ r.remaining.toNat :=
        Nat.le_of_not_lt hlong.2.2.2
      have hbyte := (m (r.p + 1) &&& 0x7F).toNat_lt
      rw [UInt32.toNat_add, UInt8.toNat_toUInt32] at hle
      change (2 + _) % 2 ^ 32 ≤ _ at hle
      exact inBuf_span h (by omega)

theorem inBuf_oidReads {oid : List UInt8} (h : Within t.row B) :
    ∀ p ∈ oidReads m t oid, InBuf B p := by
  unfold oidReads
  split
  · next heq => exact inBuf_sameReads h heq.2.ge
  · exact nofun

theorem inBuf_first (h : Within t.row B) (hlen : t.len ≠ 0) : InBuf B t.value :=
  inBuf_head h (Nat.pos_of_ne_zero fun h0 => hlen (UInt32.toNat_inj.1 h0))

theorem inBuf_timeReads (h : Within t.row B) : ∀ p ∈ timeReads t, InBuf B p := by
  unfold timeReads
  split
  · split
    · exact nofun
    · next hlen => exact inBuf_span h ((by decide : 12 ≤ 13).trans (Nat.le_of_not_lt hlen))
  · split
    · split
      · exact nofun
      · next hlen => exact inBuf_span h ((by decide : 14 ≤ 15).trans (Nat.le_of_not_lt hlen))
    · exact nofun

theorem inBuf_smallIntReads (h : Within t.row B) : ∀ p ∈ smallIntReads m t, InBuf B p := by
  unfold smallIntReads
  split
  · exact nofun
  · next hlen =>
    have hone : (1 : UInt32).toNat ≤ t.len.toNat :=
      Nat.pos_of_ne_zero fun h0 => hlen (UInt32.toNat_inj.1 h0)
    split
    · refine List.forall_mem_cons.2 ⟨inBuf_first h hlen, ?_⟩
      refine inBuf_span (h.skip (k := 1) hone) ((Nat.min_le_left _ _).trans ?_)
      exact (UInt32.toNat_sub_of_le _ _ (UInt32.le_iff_toNat_le.2 hone)).ge
    · exact List.forall_mem_cons.2 ⟨inBuf_first h hlen, inBuf_span h (Nat.min_le_left _ _)⟩

theorem inBuf_modulusReads (h : Within t.row B) (hnext : t.next = t.value + t.len) :
    ∀ p ∈ modulusReads m t, InBuf B p := by
  unfold modulusReads
  split
  · exact nofun
  · next hlen =>
    refine List.forall_mem_cons.2 ⟨inBuf_first h hlen, ?_⟩
    generalize hn : (if m t.value = 0 then t.len.toNat - 1 else t.len.toNat) = n
    have hle : min n (bignumBits / 8) ≤ t.len.toNat := by
      refine (Nat.min_le_left _ _).trans ?_
      rw [← hn]
      split
      · exact Nat.sub_le _ _
      · exact le_rfl
    generalize min n (bignumBits / 8) = k at hle
    -- the last bytes of the value
    have hk : (UInt32.ofNat k).toNat = k :=
      UInt32.toNat_ofNat_of_lt' (hle.trans_lt t.len.toNat_lt)
    have hsub : (t.len - UInt32.ofNat k).toNat = t.len.toNat - k := by
      rw [UInt32.toNat_sub_of_le _ _ (UInt32.le_iff_toNat_le.2 (hk.trans_le hle)), hk]
    have hlast : t.next - UInt32.ofNat k = t.value + (t.len - UInt32.ofNat k) := by
      rw [hnext, UInt32.sub_eq_add_neg, UInt32.sub_eq_add_neg, UInt32.add_assoc]
    rw [hlast]
    refine inBuf_span (h.skip (k := t.len - UInt32.ofNat k) (by rw [hsub]; exact Nat.sub_le _ _))
      ?_
    show k ≤ (t.len - (t.len - UInt32.ofNat k)).toNat
    rw [UInt32.toNat_sub_of_le _ _ (UInt32.le_iff_toNat_le.2 (by rw [hsub]; exact Nat.sub_le _ _)),
      hsub]
    omega

/-- A byte of the value of an element. -/
theorem inBuf_value {i : Nat} (h : Within t.row B) (hi : i < t.len.toNat) :
    InBuf B (t.value + UInt32.ofNat i) := h.inBuf (inBuf_add (r := t.row) hi)

/-- **A KeyUsage is read in the certificate**, but for a third byte of two. -/
theorem inBuf_usageReads (h : Within t.row B) (htwo : 2 ≤ t.len.toNat)
    (hend : t.len = 2 → 8 < m t.value → InBuf B (t.value + 2)) :
    ∀ p ∈ usageReads m t, InBuf B p := by
  unfold usageReads
  refine List.forall_mem_cons.2 ⟨inBuf_head h (show 0 < t.len.toNat by omega), ?_⟩
  intro p hp
  obtain ⟨b, hb, rfl⟩ := List.mem_map.1 hp
  obtain ⟨hrange, hbits⟩ := List.mem_filter.1 hb
  have hb16 : b < 16 := List.mem_range.1 hrange
  rw [UInt32.add_assoc]
  by_cases hlow : b < 8
  · rw [Nat.div_eq_of_lt hlow]
    exact inBuf_value (i := 1) h (by omega)
  · have hone : b / 8 = 1 := by omega
    rw [hone]
    by_cases hthree : 3 ≤ t.len.toNat
    · exact inBuf_value (i := 2) h (by omega)
    · have hlen : t.len = 2 := UInt32.toNat_inj.1 (show _ = 2 by omega)
      refine hend hlen (Nat.lt_of_not_le fun hcount => hlow ?_)
      -- with at most eight unused bits there are at most eight
      have hcount' : (m t.value).toUInt32 ≤ 8 := by
        rw [UInt32.le_iff_toNat_le, UInt8.toNat_toUInt32]
        exact hcount
      have hlt := of_decide_eq_true hbits
      rw [hlen, show ((2 : UInt32) - 1) * 8 = 8 from rfl, UInt32.lt_iff_toNat_lt,
        UInt32.toNat_sub_of_le _ _ hcount', UInt32.toNat_ofNat_of_lt' (hb16.trans (by decide))]
        at hlt
      exact hlt.trans_le (Nat.sub_le 8 _)

theorem inBuf_nameReads {n : UInt32} {host : List UInt8} (h : Within ⟨p, n⟩ B) :
    ∀ q ∈ nameReads m p n host, InBuf B q := by
  intro q hq
  obtain hq | hq := List.mem_append.1 hq
  · split at hq
    · next hn =>
      have htwo : 2 < n.toNat := hn
      obtain rfl | hq := List.mem_cons.1 hq
      · exact inBuf_head h (show 0 < n.toNat by omega)
      · split at hq
        · obtain rfl := List.mem_singleton.1 hq
          exact h.inBuf (inBuf_add (r := ⟨p, n⟩) (i := 1) (show 1 < n.toNat by omega))
        · exact nomatch hq
    · exact nomatch hq
  · split at hq
    · next hstar =>
      have htwo : 2 < n.toNat := hstar.1
      split at hq
      · exact nomatch hq
      · next c rest hrest =>
        split at hq
        · next hlen =>
          refine inBuf_sameReads (h.skip (k := 2) htwo.le) ?_ q hq
          rw [UInt32.toNat_sub_of_le n 2 (UInt32.le_iff_toNat_le.2 htwo.le)]
          exact hlen.le
        · exact nomatch hq
    · split at hq
      · next hlen => exact inBuf_sameReads h hlen.le q hq
      · exact nomatch hq

end X509
