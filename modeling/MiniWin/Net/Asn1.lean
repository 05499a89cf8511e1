import MiniWin.Lib.BigEndian
import Mathlib.Data.List.Range
import Mathlib.Logic.Function.Basic

/-!
# DER: the reader of tags, lengths and values

`kernel/asn1.h`. A certificate lies in memory, of which a pointer is a 32-bit address, and what is
added to one can go round: `asn1_parse_tlv` adds a length of up to 32 bits to a position before it
compares.
-/

namespace Asn1

/-- The address space. -/
abbrev Mem := UInt32 → UInt8

/-- So many bytes from an address on. -/
def Mem.slice (m : Mem) (p : UInt32) (n : Nat) : List UInt8 :=
  (List.range n).map fun i => m (p + UInt32.ofNat i)

def tagInteger : UInt8 := 0x02
def tagBitString : UInt8 := 0x03
def tagOctetString : UInt8 := 0x04
def tagOid : UInt8 := 0x06
def tagUtcTime : UInt8 := 0x17
def tagGeneralizedTime : UInt8 := 0x18
def tagSequence : UInt8 := 0x30
def tagSet : UInt8 := 0x31

/-- `ASN1_TAG_CONTEXT`. -/
def tagContext (n : UInt8) : UInt8 := 0xA0 + n

/-- `ASN1_TAG_CONTEXT_PRIMITIVE`. -/
def tagContextPrimitive (n : UInt8) : UInt8 := 0x80 + n

/-- `asn1_tlv_t`. -/
structure Tlv where
  tag : UInt8
  len : UInt32
  value : UInt32
  next : UInt32
  deriving DecidableEq

/-- The length in so many bytes, the highest first. -/
def longLen (m : Mem) (p : UInt32) (n : Nat) : UInt32 :=
  (m.slice p n).foldl (fun len b => (len <<< 8) ||| b.toUInt32) 0

/-- The last steps of `asn1_parse_tlv`, with the value at `pos`. -/
def closeTlv (m : Mem) (data max_len pos len : UInt32) : Option Tlv :=
  if pos + len > max_len then none
  else some { tag := m data, len := len, value := data + pos, next := data + pos + len }

/-- `asn1_parse_tlv`. -/
def parseTlv (m : Mem) (data max_len : UInt32) : Option Tlv :=
  if max_len < 2 then none
  else
    let len_byte := m (data + 1)
    if len_byte < 0x80 then closeTlv m data max_len 2 len_byte.toUInt32
    else
      let num_len_bytes := len_byte &&& 0x7F
      if num_len_bytes = 0 ∨ num_len_bytes > 4 then none
      else if 2 + num_len_bytes.toUInt32 > max_len then none
      else
        closeTlv m data max_len (2 + num_len_bytes.toUInt32)
          (longLen m (data + 2) num_len_bytes.toNat)

/-- `asn1_expect`. -/
def expect (m : Mem) (data max_len : UInt32) (tag : UInt8) : Option Tlv :=
  (parseTlv m data max_len).filter fun t => t.tag = tag

/-- A place in a row of elements, and how many bytes the row has from there on. -/
structure Row where
  p : UInt32
  remaining : UInt32
  deriving DecidableEq

/-- The elements that an element holds. -/
def Tlv.row (t : Tlv) : Row := { p := t.value, remaining := t.len }

/-- The row behind its first element. -/
def Row.behind (r : Row) (t : Tlv) : Row :=
  { p := t.next, remaining := r.remaining - (t.next - r.p) }

def Row.parse (m : Mem) (r : Row) : Option Tlv := parseTlv m r.p r.remaining

def Row.expect (m : Mem) (r : Row) (tag : UInt8) : Option Tlv := Asn1.expect m r.p r.remaining tag

/-- `asn1_small_int`. -/
def smallInt (m : Mem) (t : Tlv) : UInt32 :=
  let v := m.slice t.value t.len.toNat
  let v := if v.head? = some 0 then v.drop 1 else v
  (v.take 4).foldl (fun v b => (v <<< 8) ||| b.toUInt32) 0

/-- `asn1_oid_equals`. -/
def oidEquals (m : Mem) (t : Tlv) (oid : List UInt8) : Bool :=
  t.tag = tagOid ∧ t.len.toNat = oid.length ∧ m.slice t.value oid.length = oid

/-- `asn1_bit_string_bytes`: where the bytes are, and how many. -/
def bitStringBytes (t : Tlv) : UInt32 × UInt32 :=
  if t.len = 0 then (t.value, 0) else (t.value + 1, t.len - 1)

/-! ## What is read -/

variable {m : Mem} {p n n' : UInt32} {t t' : Tlv}

@[simp] theorem length_slice (m : Mem) (p : UInt32) (n : Nat) : (m.slice p n).length = n := by
  unfold Mem.slice
  rw [List.length_map, List.length_range]

theorem take_slice (m : Mem) (p : UInt32) {k n : Nat} (h : k ≤ n) :
    (m.slice p n).take k = m.slice p k := by
  unfold Mem.slice
  rw [← List.map_take, List.take_range, Nat.min_eq_left h]

theorem getElem_slice (m : Mem) (p : UInt32) {i n : Nat} (h : i < n) :
    (m.slice p n)[i]? = some (m (p + UInt32.ofNat i)) := by
  unfold Mem.slice
  rw [List.getElem?_map, List.getElem?_range h]
  rfl

/-- The bytes of an element that begins at `p`, as its header says. -/
def Tlv.size (p : UInt32) (t : Tlv) : Nat := (t.value - p).toNat + t.len.toNat

/-- **The whole of an element**, from its tag on. -/
def Mem.whole (m : Mem) (p : UInt32) (t : Tlv) : List UInt8 := m.slice p (t.size p)

theorem shift_or (v : UInt32) (b : UInt8) (hv : v.toNat < 2 ^ 24) :
    ((v <<< 8) ||| b.toUInt32).toNat = v.toNat * 256 + b.toNat := by
  have hb : b.toNat < 2 ^ 8 := b.toNat_lt
  have hshift : (v <<< 8).toNat = v.toNat <<< 8 := by
    rw [UInt32.toNat_shiftLeft]
    show v.toNat <<< 8 % 2 ^ 32 = v.toNat <<< 8
    rw [Nat.shiftLeft_eq]
    omega
  rw [UInt32.toNat_or, hshift, UInt8.toNat_toUInt32, ← Nat.shiftLeft_add_eq_or_of_lt hb,
    Nat.shiftLeft_eq]

/-- **Up to four bytes are the number that they are.** -/
theorem shiftIn_toNat (l : List UInt8) (hl : l.length ≤ 4) :
    (l.foldl (fun v b => (v <<< 8) ||| b.toUInt32) 0 : UInt32).toNat = BigEndian.value l := by
  induction l using List.reverseRecOn with
  | nil => rfl
  | append_singleton l b ih =>
    rw [List.length_append, List.length_singleton] at hl
    have hbound : 256 ^ l.length ≤ 2 ^ 24 := by
      rw [BigEndian.pow_256]
      exact Nat.pow_le_pow_right (by decide) (by omega)
    have hval := ih (by omega)
    have hlt := BigEndian.value_lt l
    rw [List.foldl_append, List.foldl_cons, List.foldl_nil, shift_or _ _ (by omega), hval,
      BigEndian.value_append_singleton]

theorem longLen_toNat (m : Mem) (p : UInt32) {k : Nat} (hk : k ≤ 4) :
    (longLen m p k).toNat = BigEndian.value (m.slice p k) ∧ (longLen m p k).toNat < 256 ^ k := by
  have hval : (longLen m p k).toNat = BigEndian.value (m.slice p k) :=
    shiftIn_toNat _ (by rw [length_slice]; exact hk)
  have hlt := BigEndian.value_lt (m.slice p k)
  rw [length_slice] at hlt
  exact ⟨hval, by rw [hval]; exact hlt⟩

/-- A length in four bytes. -/
theorem longLen_four (m : Mem) (p : UInt32) :
    (longLen m (p + 2) 4).toNat = (((m (p + 2)).toNat * 256 + (m (p + 3)).toNat) * 256
      + (m (p + 4)).toNat) * 256 + (m (p + 5)).toNat := by
  have hbytes : m.slice (p + 2) 4 = [m (p + 2), m (p + 3), m (p + 4), m (p + 5)] := by
    show [m (p + 2 + 0), m (p + 2 + 1), m (p + 2 + 2), m (p + 2 + 3)] = _
    simp only [UInt32.add_assoc]
    rfl
  rw [(longLen_toNat m (p + 2) le_rfl).1, hbytes]
  show (((0 * 256 + _) * 256 + _) * 256 + _) * 256 + _ = _
  rw [Nat.zero_mul, Nat.zero_add]

/-- **What `asn1_parse_tlv` reads**: a header of two to six bytes, and a value that ends inside what
there is, but for the round that the addition can make. -/
theorem parseTlv_some (h : parseTlv m p n = some t) : ∃ pos : UInt32,
    2 ≤ pos.toNat ∧ pos.toNat ≤ 6 ∧ closeTlv m p n pos t.len = some t
      ∧ (m (p + 1) < 0x80 ∧ pos = 2 ∧ t.len = (m (p + 1)).toUInt32
        ∨ ¬ m (p + 1) < 0x80 ∧ pos = 2 + (m (p + 1) &&& 0x7F).toUInt32
          ∧ (m (p + 1) &&& 0x7F).toNat ≤ 4
          ∧ t.len = longLen m (p + 2) (m (p + 1) &&& 0x7F).toNat) := by
  unfold parseTlv at h
  split at h
  · exact nomatch h
  dsimp only at h
  have hclose : ∀ {pos len : UInt32}, closeTlv m p n pos len = some t → t.len = len := fun hc => by
    unfold closeTlv at hc
    split at hc
    · exact nomatch hc
    · rw [← Option.some.inj hc]
  split at h
  · next hshort =>
    have hlen := hclose h
    exact ⟨2, by decide, by decide, by rw [hlen]; exact h, .inl ⟨hshort, rfl, hlen⟩⟩
  · next hlong =>
    split at h
    · exact nomatch h
    next hnum =>
    split at h
    · exact nomatch h
    have hlen := hclose h
    rw [not_or] at hnum
    have hle : (m (p + 1) &&& 0x7F).toNat ≤ 4 := Nat.le_of_not_lt hnum.2
    have hpos : (2 + (m (p + 1) &&& 0x7F).toUInt32).toNat = 2 + (m (p + 1) &&& 0x7F).toNat := by
      rw [UInt32.toNat_add, UInt8.toNat_toUInt32]
      show (2 + _) % 2 ^ 32 = _
      omega
    exact ⟨_, by omega, by omega, by rw [hlen]; exact h, .inr ⟨hlong, rfl, hle, hlen⟩⟩

theorem closeTlv_some {pos len : UInt32} (h : closeTlv m p n pos len = some t) :
    t = { tag := m p, len := len, value := p + pos, next := p + pos + len }
      ∧ ¬ pos + len > n := by
  unfold closeTlv at h
  split at h
  · exact nomatch h
  · next hle => exact ⟨(Option.some.inj h).symm, hle⟩

/-- An element does not depend on how much there is, if that is enough. -/
theorem parseTlv_agree (h : parseTlv m p n = some t) (h' : parseTlv m p n' = some t') : t = t' := by
  obtain ⟨pos, -, -, hc, hf⟩ := parseTlv_some h
  obtain ⟨pos', -, -, hc', hf'⟩ := parseTlv_some h'
  obtain ⟨ht, -⟩ := closeTlv_some hc
  obtain ⟨ht', -⟩ := closeTlv_some hc'
  obtain ⟨hshort, hpos, hlen⟩ | ⟨hlong, hpos, -, hlen⟩ := hf
  · obtain ⟨-, hpos', hlen'⟩ | ⟨hlong', -⟩ := hf'
    · rw [ht, ht', hpos, hpos', hlen, hlen']
    · exact absurd hshort hlong'
  · obtain ⟨hshort', -⟩ | ⟨-, hpos', -, hlen'⟩ := hf'
    · exact absurd hshort' hlong
    · rw [ht, ht', hpos, hpos', hlen, hlen']

/-- The next element begins where the header says, up to the round. -/
theorem parseTlv_next (h : parseTlv m p n = some t) :
    t.tag = m p ∧ (t.next - p).toNat = t.size p % 2 ^ 32 ∧ 2 ≤ t.size p := by
  obtain ⟨pos, hle, -, hc, -⟩ := parseTlv_some h
  obtain ⟨ht, -⟩ := closeTlv_some hc
  have hval : t.value - p = pos := by
    rw [ht]
    show p + pos - p = pos
    rw [UInt32.add_comm, UInt32.add_sub_cancel]
  have hnext : t.next - p = pos + t.len := by
    conv_lhs => rw [ht]
    show p + pos + t.len - p = _
    rw [UInt32.add_assoc, UInt32.add_comm, UInt32.add_sub_cancel]
  refine ⟨by rw [ht], ?_, ?_⟩
  · rw [hnext, UInt32.toNat_add]
    unfold Tlv.size
    rw [hval]
  · unfold Tlv.size
    rw [hval]
    omega

/-- **Where the addition goes round**, the length is written in four bytes, and the next element is
one of the six bytes of the header. -/
theorem parseTlv_round (h : parseTlv m p n = some t) (hround : 2 ^ 32 ≤ t.size p) :
    m (p + 1) = 0x84 ∧ m (p + 2) = 0xFF ∧ m (p + 3) = 0xFF ∧ m (p + 4) = 0xFF
      ∧ (m (p + 5)).toNat = 250 + (t.next - p).toNat := by
  obtain ⟨pos, -, -, hc, hf⟩ := parseTlv_some h
  obtain ⟨-, hnext, -⟩ := parseTlv_next h
  have hsize : t.size p = pos.toNat + t.len.toNat := by
    obtain ⟨ht, -⟩ := closeTlv_some hc
    unfold Tlv.size
    conv_lhs => rw [ht]
    show (p + pos - p).toNat + t.len.toNat = _
    rw [UInt32.add_comm, UInt32.add_sub_cancel]
  obtain ⟨-, hpos, hlen⟩ | ⟨hlong, hpos, hle, hlen⟩ := hf
  · have hbyte := (m (p + 1)).toNat_lt
    rw [hsize, hpos, hlen, UInt8.toNat_toUInt32] at hround
    have : (2 : UInt32).toNat = 2 := rfl
    omega
  obtain ⟨k, hk⟩ : ∃ k, (m (p + 1) &&& 0x7F).toNat = k := ⟨_, rfl⟩
  obtain ⟨hval, hlt⟩ := longLen_toNat m (p + 2) hle
  have hpos' : pos.toNat = 2 + k := by
    rw [hpos, UInt32.toNat_add, UInt8.toNat_toUInt32, hk]
    show (2 + k) % 2 ^ 32 = 2 + k
    omega
  rw [hk] at hle hval hlt hlen
  rw [hsize, hpos', hlen] at hround hnext
  -- three bytes of length are not enough
  have hfour : k = 4 := by
    by_contra hne
    have : 256 ^ k ≤ 256 ^ 3 := Nat.pow_le_pow_right (by decide) (by omega)
    omega
  subst hfour
  have hnum := longLen_four m p
  have h₂ := (m (p + 2)).toNat_lt
  have h₃ := (m (p + 3)).toNat_lt
  have h₄ := (m (p + 4)).toNat_lt
  have h₅ := (m (p + 5)).toNat_lt
  have hbyte : ∀ b : UInt8, ¬ b < 0x80 → (b &&& 0x7F).toNat = 4 → b = 0x84 := fun b hge hb => by
    rw [UInt8.toNat_and, show (0x7F : UInt8).toNat = 2 ^ 7 - 1 from rfl,
      Nat.and_two_pow_sub_one_eq_mod] at hb
    have hge' : 0x80 ≤ b.toNat := Nat.le_of_not_lt hge
    have hlt := b.toNat_lt
    exact UInt8.toNat_inj.mp (by show _ = 132; omega)
  exact ⟨hbyte _ hlong hk, UInt8.toNat_inj.mp (by show _ = 255; omega),
    UInt8.toNat_inj.mp (by show _ = 255; omega), UInt8.toNat_inj.mp (by show _ = 255; omega),
    by omega⟩

/-- **Where the next element is then**: it is this one, or it begins with a byte of its length. -/
theorem parseTlv_round_next (h : parseTlv m p n = some t) (hround : 2 ^ 32 ≤ t.size p) :
    t.next = p ∨ m t.next = 0x84 ∨ m t.next = 0xFF := by
  obtain ⟨h₁, h₂, h₃, h₄, h₅⟩ := parseTlv_round h hround
  have h₅' := (m (p + 5)).toNat_lt
  obtain ⟨k, hk⟩ : ∃ k, t.next - p = k := ⟨_, rfl⟩
  have hnext : t.next = p + k := by rw [← hk, UInt32.add_comm, UInt32.sub_add_cancel]
  rw [hk] at h₅
  rw [hnext]
  have hcases : k = 0 ∨ k = 1 ∨ k = 2 ∨ k = 3 ∨ k = 4 ∨ k = 5 := by
    simp only [← UInt32.toNat_inj]
    show k.toNat = 0 ∨ k.toNat = 1 ∨ k.toNat = 2 ∨ k.toNat = 3 ∨ k.toNat = 4 ∨ k.toNat = 5
    omega
  obtain rfl | rfl | rfl | rfl | rfl | rfl := hcases
  · exact .inl (UInt32.add_zero p)
  · exact .inr (.inl h₁)
  · exact .inr (.inr h₂)
  · exact .inr (.inr h₃)
  · exact .inr (.inr h₄)
  · exact .inr (.inr (UInt8.toNat_inj.mp h₅))

/-- A header of six bytes. -/
theorem parseTlv_long (h : parseTlv m p n = some t) (hlong : m (p + 1) = 0x84) : 6 ≤ t.size p := by
  obtain ⟨pos, -, -, hc, hf⟩ := parseTlv_some h
  obtain ⟨ht, -⟩ := closeTlv_some hc
  rw [hlong] at hf
  obtain ⟨hshort, -⟩ | ⟨-, hpos, -⟩ := hf
  · exact absurd hshort (by decide)
  · have hval : t.value - p = pos := by
      rw [ht]
      show p + pos - p = pos
      rw [UInt32.add_comm, UInt32.add_sub_cancel]
    unfold Tlv.size
    rw [hval, hpos]
    exact Nat.le_add_right 6 _

theorem expect_some {tag : UInt8} (h : expect m p n tag = some t) :
    parseTlv m p n = some t ∧ t.tag = tag := by
  obtain ⟨hp, htag⟩ := Option.filter_eq_some_iff.mp h
  exact ⟨hp, of_decide_eq_true htag⟩

/-! ## Rows of elements -/

/-- **An element of a row.** -/
inductive InRow (m : Mem) : Row → Tlv → Prop where
  | here {r : Row} {t : Tlv} (h : r.parse m = some t) : InRow m r t
  | next {r : Row} {t u : Tlv} (h : r.parse m = some t) (hu : InRow m (r.behind t) u) : InRow m r u

variable {r : Row}

theorem inRow_cons (h : r.parse m = some t) :
    InRow m r t' ↔ t' = t ∨ InRow m (r.behind t) t' := by
  constructor
  · intro hin
    cases hin with
    | here h' =>
      rw [h] at h'
      exact .inl (Option.some.inj h').symm
    | next h' hu =>
      rw [h] at h'
      obtain rfl := Option.some.inj h'
      exact .inr hu
  · rintro (rfl | hu)
    · exact .here h
    · exact .next h hu

theorem inRow_none (h : r.parse m = none) : ¬ InRow m r t := by
  intro hin
  cases hin with
  | here h' => rw [h] at h'; exact nomatch h'
  | next h' _ => rw [h] at h'; exact nomatch h'

theorem inRow_empty (h : r.remaining = 0) : ¬ InRow m r t := by
  refine inRow_none ?_
  unfold Row.parse parseTlv
  rw [h]
  rfl

end Asn1
