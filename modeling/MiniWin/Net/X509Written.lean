import MiniWin.Net.X509Read

/-!
# X509: what a certificate says

The times, names, keys and signatures of a certificate as its bytes have them, whole, and for each
what has to hold for the fields of `x509_cert_t` to say the same.
-/

namespace X509

open Asn1 Tls Pkcs1

variable {m : Mem} {fuel : Nat} {r : Row} {s s' : Shape} {c c' : Cert} {t : Tlv} {C : Crypto}

/-! ## Times -/

/-- A point of time. -/
structure Time where
  year : Nat
  month : Nat
  day : Nat
  hour : Nat
  minute : Nat
  second : Nat

/-- `YYYYMMDDHHMMSS`. -/
def Time.packed (x : Time) : Nat :=
  x.year * 10000000000 + x.month * 100000000 + x.day * 1000000 + x.hour * 10000 + x.minute * 100
    + x.second

/-- Two digits. -/
def decimal (a b : UInt8) : Option Nat :=
  if 0x30 ≤ a ∧ a ≤ 0x39 ∧ 0x30 ≤ b ∧ b ≤ 0x39 then
    some ((a.toNat - 48) * 10 + (b.toNat - 48)) else none

/-- What follows the year, with the `Z` at the end. -/
def inYear (year : Nat) : List UInt8 → Option Time
  | [a, b, c, d, e, f, g, h, i, j, z] => do
    let month ← decimal a b
    let day ← decimal c d
    let hour ← decimal e f
    let minute ← decimal g h
    let second ← decimal i j
    if z = 0x5A ∧ 1 ≤ month ∧ month ≤ 12 ∧ 1 ≤ day ∧ day ≤ 31 ∧ hour < 24 ∧ minute < 60
        ∧ second < 60 then some ⟨year, month, day, hour, minute, second⟩ else none
  | _ => none

/-- **A well-formed time.** -/
def readTime (m : Mem) (t : Tlv) : Option Time :=
  match m.slice t.value t.len.toNat with
  | a :: b :: rest =>
    if t.tag = tagUtcTime then
      (decimal a b).bind fun yy => inYear (if yy < 50 then 2000 + yy else 1900 + yy) rest
    else if t.tag = tagGeneralizedTime then
      match rest with
      | c :: d :: rest =>
        (decimal a b).bind fun hi => (decimal c d).bind fun lo => inYear (hi * 100 + lo) rest
      | _ => none
    else none
  | _ => none

/-- The digits that the code reads. -/
theorem decimal_twoDigits {p i : UInt32} {a b : UInt8} {v : Nat} (ha : m (p + i) = a)
    (hb : m (p + (i + 1)) = b) (hv : decimal a b = some v) :
    (twoDigits m p i).toNat = v ∧ v < 100
      ∧ (digit m p i).toNat = a.toNat - 48 ∧ (digit m p (i + 1)).toNat = b.toNat - 48
      ∧ v = (a.toNat - 48) * 10 + (b.toNat - 48) := by
  unfold decimal at hv
  split at hv
  · next hdig =>
    obtain ⟨h₁, h₂, h₃, h₄⟩ := hdig
    have h₁' : 48 ≤ a.toNat := h₁
    have h₂' : a.toNat ≤ 57 := h₂
    have h₃' : 48 ≤ b.toNat := h₃
    have h₄' : b.toNat ≤ 57 := h₄
    have hdigit : ∀ {x : UInt8}, 48 ≤ x.toNat → (x.toUInt32 - 48).toNat = x.toNat - 48 := fun hx => by
      rw [UInt32.toNat_sub_of_le _ _ (by rw [UInt32.le_iff_toNat_le, UInt8.toNat_toUInt32]; exact hx),
        UInt8.toNat_toUInt32]
      rfl
    have hda : (digit m p i).toNat = a.toNat - 48 := by
      unfold digit
      rw [ha, hdigit h₁']
    have hdb : (digit m p (i + 1)).toNat = b.toNat - 48 := by
      unfold digit
      rw [hb, hdigit h₃']
    have hval := (Option.some.inj hv).symm
    refine ⟨?_, by omega, hda, hdb, hval⟩
    unfold twoDigits
    rw [UInt32.toNat_add, UInt32.toNat_mul, hda, hdb]
    show ((a.toNat - 48) * 10 % 2 ^ 32 + (b.toNat - 48)) % 2 ^ 32 = v
    omega
  · exact nomatch hv

/-- A packed time is that of its parts. -/
theorem packTime_toNat {p year pos : UInt32} {x : Time} (hy : year.toNat = x.year)
    (hn : (twoDigits m p pos).toNat = x.month) (hd : (twoDigits m p (pos + 2)).toNat = x.day)
    (hh : (twoDigits m p (pos + 4)).toNat = x.hour) (hi : (twoDigits m p (pos + 6)).toNat = x.minute)
    (hs : (twoDigits m p (pos + 8)).toNat = x.second) (hle : x.year < 10000 ∧ x.month < 100
      ∧ x.day < 100 ∧ x.hour < 100 ∧ x.minute < 100 ∧ x.second < 100) :
    (packTime m p year pos).toNat = x.packed := by
  unfold packTime Time.packed
  simp only [UInt64.toNat_add, UInt64.toNat_mul, UInt32.toNat_toUInt64, hy, hn, hd, hh, hi, hs]
  show ((((((x.year * 10000000000 % 2 ^ 64 + x.month * 100000000 % 2 ^ 64) % 2 ^ 64
    + x.day * 1000000 % 2 ^ 64) % 2 ^ 64 + x.hour * 10000 % 2 ^ 64) % 2 ^ 64
    + x.minute * 100 % 2 ^ 64) % 2 ^ 64 + x.second) % 2 ^ 64) = _
  omega

/-- The bytes behind the year, at `pos`. -/
theorem inYear_packTime {p year pos : UInt32} {y : Nat} {rest : List UInt8} {x : Time}
    (hrest : ∀ i b, rest[i]? = some b → m (p + (pos + UInt32.ofNat i)) = b)
    (h : inYear y rest = some x) (hy : year.toNat = y) (hle : y < 10000) :
    (packTime m p year pos).toNat = x.packed := by
  unfold inYear at h
  split at h
  · next b₀ b₁ b₂ b₃ b₄ b₅ b₆ b₇ b₈ b₉ z =>
    obtain ⟨month, hmonth, h⟩ := Option.bind_eq_some_iff.mp h
    obtain ⟨day, hday, h⟩ := Option.bind_eq_some_iff.mp h
    obtain ⟨hour, hhour, h⟩ := Option.bind_eq_some_iff.mp h
    obtain ⟨minute, hminute, h⟩ := Option.bind_eq_some_iff.mp h
    obtain ⟨second, hsecond, h⟩ := Option.bind_eq_some_iff.mp h
    split at h
    · obtain rfl := Option.some.inj h
      have hpair : ∀ {k : Nat} {a b : UInt8} {v : Nat},
          [b₀, b₁, b₂, b₃, b₄, b₅, b₆, b₇, b₈, b₉, z][k]? = some a →
          [b₀, b₁, b₂, b₃, b₄, b₅, b₆, b₇, b₈, b₉, z][k + 1]? = some b → decimal a b = some v →
          (twoDigits m p (pos + UInt32.ofNat k)).toNat = v ∧ v < 100 := fun {k a b v} ha hb hv => by
        have hsecond := hrest _ _ hb
        rw [UInt32.ofNat_add, ← UInt32.add_assoc pos] at hsecond
        obtain ⟨hval, hlt, -⟩ := decimal_twoDigits (hrest _ _ ha) hsecond hv
        exact ⟨hval, hlt⟩
      obtain ⟨hn, hn'⟩ := hpair (k := 0) rfl rfl hmonth
      obtain ⟨hd, hd'⟩ := hpair (k := 2) rfl rfl hday
      obtain ⟨hh, hh'⟩ := hpair (k := 4) rfl rfl hhour
      obtain ⟨hi, hi'⟩ := hpair (k := 6) rfl rfl hminute
      obtain ⟨hs, hs'⟩ := hpair (k := 8) rfl rfl hsecond
      have hzero : pos + UInt32.ofNat 0 = pos := UInt32.add_zero pos
      rw [hzero] at hn
      exact packTime_toNat hy hn hd hh hi hs ⟨hle, hn', hd', hh', hi', hs'⟩
    · exact nomatch h
  · exact nomatch h

/-- **A well-formed time is kept as it is.** -/
theorem parseTime_toNat {x : Time} (h : readTime m t = some x) :
    (parseTime m t).toNat = x.packed := by
  have hbyte : ∀ i b, (m.slice t.value t.len.toNat)[i]? = some b →
      m (t.value + UInt32.ofNat i) = b := fun i b hb => by
    have hi : i < t.len.toNat := by
      obtain ⟨hi, -⟩ := List.getElem?_eq_some_iff.mp hb
      rw [length_slice] at hi
      exact hi
    rw [getElem_slice _ _ hi] at hb
    exact Option.some.inj hb
  have hlength := length_slice m t.value t.len.toNat
  unfold readTime at h
  obtain ⟨content, hcontent⟩ : ∃ content, m.slice t.value t.len.toNat = content := ⟨_, rfl⟩
  rw [hcontent] at h hbyte hlength
  split at h
  swap
  · exact nomatch h
  next a b rest =>
  have ha := hbyte 0 a rfl
  have hb := hbyte 1 b rfl
  have hlen : ∀ {y : Nat} {l : List UInt8}, inYear y l = some x → l.length = 11 := fun hl => by
    unfold inYear at hl
    split at hl
    · rfl
    · exact nomatch hl
  split at h
  · next hutc =>
    obtain ⟨yy, hyy, h⟩ := Option.bind_eq_some_iff.mp h
    obtain ⟨hval, hlt, -⟩ := decimal_twoDigits ha hb hyy
    have hlong : ¬ t.len < 13 := by
      rw [List.length_cons, List.length_cons, hlen h] at hlength
      rw [UInt32.lt_iff_toNat_lt]
      show ¬ t.len.toNat < 13
      omega
    unfold parseTime
    rw [if_pos hutc, if_neg hlong]
    refine inYear_packTime (fun i c hc => ?_) h ?_ ?_
    · have := hbyte (i + 2) c hc
      rw [UInt32.ofNat_add, UInt32.add_comm (UInt32.ofNat i)] at this
      exact this
    · have hiff : twoDigits m t.value 0 < 50 ↔ yy < 50 := by
        rw [UInt32.lt_iff_toNat_lt, show (twoDigits m t.value 0).toNat = yy from hval]
        exact Iff.rfl
      by_cases hyear : yy < 50
      · rw [if_pos (hiff.mpr hyear), if_pos hyear, UInt32.toNat_add,
          show (twoDigits m t.value 0).toNat = yy from hval]
        show (2000 + yy) % 2 ^ 32 = _
        omega
      · rw [if_neg (fun hc => hyear (hiff.mp hc)), if_neg hyear, UInt32.toNat_add,
          show (twoDigits m t.value 0).toNat = yy from hval]
        show (1900 + yy) % 2 ^ 32 = _
        omega
    · split <;> omega
  split at h
  · next hutc hgen =>
    split at h
    swap
    · exact nomatch h
    next c d rest =>
    obtain ⟨hi, hhi, h⟩ := Option.bind_eq_some_iff.mp h
    obtain ⟨lo, hlo, h⟩ := Option.bind_eq_some_iff.mp h
    obtain ⟨-, hlt, hda, hdb, hhi'⟩ := decimal_twoDigits ha hb hhi
    obtain ⟨-, hlt', hdc, hdd, hlo'⟩ := decimal_twoDigits (hbyte 2 c rfl) (hbyte 3 d rfl) hlo
    have hlong : ¬ t.len < 15 := by
      rw [List.length_cons, List.length_cons, List.length_cons, List.length_cons, hlen h] at hlength
      rw [UInt32.lt_iff_toNat_lt]
      show ¬ t.len.toNat < 15
      omega
    unfold parseTime
    rw [if_neg hutc, if_pos hgen, if_neg hlong]
    refine inYear_packTime (fun i c hc => ?_) h ?_ (by omega)
    · have := hbyte (i + 4) c hc
      rw [UInt32.ofNat_add, UInt32.add_comm (UInt32.ofNat i)] at this
      exact this
    · simp only [UInt32.toNat_add, UInt32.toNat_mul]
      rw [show (digit m t.value 0).toNat = _ from hda, show (digit m t.value 1).toNat = _ from hdb,
        show (digit m t.value 2).toNat = _ from hdc, show (digit m t.value 3).toNat = _ from hdd]
      show ((((a.toNat - 48) * 1000 % 2 ^ 32 + (b.toNat - 48) * 100 % 2 ^ 32) % 2 ^ 32
        + (c.toNat - 48) * 10 % 2 ^ 32) % 2 ^ 32 + (d.toNat - 48)) % 2 ^ 32 = hi * 100 + lo
      omega
  · exact nomatch h

/-- **The certificate is valid at this time**, from a well-formed time to another. -/
def Shape.ValidAt (m : Mem) (s : Shape) (now : UInt64) : Prop :=
  ∃ before after, readTime m s.not_before = some before ∧ readTime m s.not_after = some after
    ∧ before.packed ≤ now.toNat ∧ now.toNat ≤ after.packed

/-- Both times are well formed. -/
def Shape.Timed (m : Mem) (s : Shape) : Prop :=
  (readTime m s.not_before).isSome ∧ (readTime m s.not_after).isSome

theorem validAt_iff {now : UInt64} (h : Stored fuel m s c) (hv : isValidNow c now = true) :
    s.ValidAt m now ↔ s.Timed m := by
  unfold isValidNow at hv
  obtain ⟨hge, hle⟩ := of_decide_eq_true hv
  rw [ge_iff_le, UInt64.le_iff_toNat_le, h.not_before] at hge
  rw [UInt64.le_iff_toNat_le, h.not_after] at hle
  constructor
  · rintro ⟨before, after, hb, ha, -⟩
    exact ⟨by rw [hb]; rfl, by rw [ha]; rfl⟩
  · rintro ⟨hb, ha⟩
    obtain ⟨before, hb⟩ := Option.isSome_iff_exists.mp hb
    obtain ⟨after, ha⟩ := Option.isSome_iff_exists.mp ha
    rw [parseTime_toNat hb] at hge
    rw [parseTime_toNat ha] at hle
    exact ⟨before, after, hb, ha, hge, hle⟩

/-! ## Authority -/

/-- If the certificate has this extension, one of them has a value. -/
def Shape.Valued (m : Mem) (s : Shape) (oid : List UInt8) : Prop :=
  ∀ x, s.Has m x → x.is m oid → ∃ y, s.Has m y ∧ y.is m oid ∧ y.octet ≠ none

/-- **A certificate that may sign others**: it says CA:TRUE, and keyCertSign if it has a keyUsage,
and has no critical extension that is unknown. -/
structure Shape.IsCa (m : Mem) (s : Shape) : Prop where
  ca : ∃ x octet, s.Has m x ∧ x.is m oidBasicConstraints ∧ x.octet = some octet
    ∧ caFlag m octet = some true
  cert_sign : ∀ x, s.Has m x → x.is m oidKeyUsage → ∃ y octet ku, s.Has m y ∧ y.is m oidKeyUsage
    ∧ y.octet = some octet ∧ keyUsage m octet = some ku ∧ ku &&& kuKeyCertSign ≠ 0
  understood : ∀ x, s.Has m x → x.critical = true → extUnderstood m x.oid = true

theorem isCa_iff (h : Stored fuel m s c) (hok : caExtensionsOk c = true) :
    s.IsCa m ↔ s.Valued m oidKeyUsage := by
  have hkept := h.kept
  obtain ⟨hca, hcrit, hku⟩ := of_decide_eq_true hok
  rw [Bool.not_eq_true] at hcrit
  constructor
  · intro hs x hx hxku
    obtain ⟨y, octet, ku, hy, hyku, hoctet, -⟩ := hs.cert_sign x hx hxku
    exact ⟨y, hy, hyku, by rw [hoctet]; exact Option.some_ne_none octet⟩
  · intro hs
    refine ⟨hkept.ca hca, fun x hx hxku => ?_, hkept.understood hcrit⟩
    cases hhas : c.ext.has_key_usage with
    | true =>
      obtain ⟨y, octet, hy, hyku, hoctet, hval⟩ := hkept.usage hhas
      exact ⟨y, octet, _, hy, hyku, hoctet, hval, hku hhas⟩
    | false =>
      -- a keyUsage that is not kept has no value
      obtain ⟨y, hy, hyku, hne⟩ := hs x hx hxku
      exact absurd (hkept.no_usage hcrit hhas y hy hyku) hne

/-! ## Host names -/

/-- A common name of the subject, whole. -/
def Shape.CommonName (m : Mem) (s : Shape) (name : List UInt8) : Prop :=
  ∃ rdn atv v, InRow m s.subject.t.row rdn ∧ rdn.tag = tagSet ∧ InRow m rdn.row atv
    ∧ atv.tag = tagSequence ∧ commonName m atv = some v ∧ name = m.slice v.value v.len.toNat

/-- A dNSName of a subjectAltName. -/
def Shape.DnsName (m : Mem) (s : Shape) (name : List UInt8) : Prop :=
  ∃ x octet names gn, s.Has m x ∧ x.is m oidSubjectAltName ∧ x.octet = some octet
    ∧ octet.row.expect m tagSequence = some names ∧ InRow m names.row gn
    ∧ gn.tag = tagContextPrimitive 2 ∧ name = m.slice gn.value gn.len.toNat

/-- **The certificate is for this host**: one of its dNSNames matches, or, if it has no
subjectAltName, a common name. -/
def Shape.Covers (m : Mem) (s : Shape) (host : List UInt8) : Prop :=
  (∃ name, s.DnsName m name ∧ nameMatchesHost name host = true)
    ∨ ((∀ x, s.Has m x → ¬ x.is m oidSubjectAltName)
      ∧ ∃ name, s.CommonName m name ∧ nameMatchesHost name host = true)

/-- A name is no longer than the host that it matches, but for the star. -/
theorem nameMatchesHost_le {pattern host : List UInt8} (h : nameMatchesHost pattern host = true) :
    pattern.length ≤ host.length + 1 := by
  unfold nameMatchesHost at h
  split at h
  · split at h
    · exact nomatch h
    · next c suffix b rest hrest =>
      have hsame := congrArg List.length (of_decide_eq_true h).1
      rw [List.length_map, List.length_map, List.length_cons] at hsame
      have hle := (List.dropWhile_suffix (fun b : UInt8 => decide (b ≠ 0x2E)) (l := host)).length_le
      rw [hrest, List.length_cons] at hle
      rw [List.length_cons, List.length_cons, List.length_cons]
      omega
  · have hsame := congrArg List.length (of_decide_eq_true h)
    rw [List.length_map, List.length_map] at hsame
    omega

/-- What is kept of a common name. -/
def KeptName (m : Mem) (cn : List UInt8) (v : Tlv) : Prop :=
  cn = m.slice v.value (min v.len.toNat cnMax)

theorem cnInSet_some : ∀ {fuel : Nat} {r : Row} {cn cn' : List UInt8},
    cnInSet m fuel r cn = some cn' → cn' = cn ∨ ∃ atv v, InRow m r atv ∧ atv.tag = tagSequence
      ∧ commonName m atv = some v ∧ KeptName m cn' v
  | 0, _, _, _, h => nomatch h
  | fuel + 1, r, cn, cn', h => by
    unfold cnInSet at h
    split at h
    · exact .inl (Option.some.inj h).symm
    split at h
    · exact .inl (Option.some.inj h).symm
    next atv hatv =>
    obtain ⟨hparse, htag⟩ := expect_some hatv
    have hparse' : r.parse m = some atv := hparse
    obtain heq | ⟨u, v, hu, hrest⟩ := cnInSet_some h
    · cases hv : commonName m atv with
      | none =>
        rw [hv] at heq
        exact .inl heq
      | some v =>
        rw [hv] at heq
        exact .inr ⟨atv, v, .here hparse', htag, hv, heq⟩
    · exact .inr ⟨u, v, .next hparse' hu, hrest⟩

theorem extractCn_some : ∀ {fuel : Nat} {r : Row} {cn cn' : List UInt8},
    extractCn m fuel r cn = some cn' → cn' = cn ∨ ∃ rdn atv v, InRow m r rdn ∧ rdn.tag = tagSet
      ∧ InRow m rdn.row atv ∧ atv.tag = tagSequence ∧ commonName m atv = some v
      ∧ KeptName m cn' v
  | 0, _, _, _, h => nomatch h
  | fuel + 1, r, cn, cn', h => by
    unfold extractCn at h
    split at h
    · exact .inl (Option.some.inj h).symm
    split at h
    · exact .inl (Option.some.inj h).symm
    next rdn hrdn =>
    obtain ⟨hparse, htag⟩ := expect_some hrdn
    have hparse' : r.parse m = some rdn := hparse
    obtain ⟨cn₁, hset, h⟩ := Option.bind_eq_some_iff.mp h
    obtain heq | ⟨u, atv, v, hu, hrest⟩ := extractCn_some h
    · obtain heq' | ⟨atv, v, hatv, hrest⟩ := cnInSet_some hset
      · exact .inl (heq.trans heq')
      · rw [heq]
        exact .inr ⟨rdn, atv, v, .here hparse', htag, hatv, hrest⟩
    · exact .inr ⟨u, atv, v, .next hparse' hu, hrest⟩

theorem sanMatches_true {host : List UInt8} : ∀ {fuel : Nat} {r : Row},
    sanMatches m host fuel r = some true → ∃ gn, InRow m r gn ∧ gn.tag = tagContextPrimitive 2
      ∧ nameMatchesHost (m.slice gn.value gn.len.toNat) host = true
  | 0, _, h => nomatch h
  | fuel + 1, r, h => by
    unfold sanMatches at h
    split at h
    · exact nomatch h
    split at h
    · exact nomatch h
    next gn hgn =>
    split at h
    · next hmatch => exact ⟨gn, .here hgn, hmatch.1, hmatch.2⟩
    · obtain ⟨u, hu, hrest⟩ := sanMatches_true h
      exact ⟨u, .next hgn hu, hrest⟩

/-- **The host matches the certificate, if its subjectAltName is not passed over.** -/
theorem covers_iff {host : List UInt8} {n : Nat} (h : Stored fuel m s c)
    (hcrit : c.ext.has_unknown_critical = false) (hhost : host.length < 128)
    (hm : matchesHostname n m c host = some true) :
    s.Covers m host ↔ s.Valued m oidSubjectAltName := by
  have hkept := h.kept
  unfold matchesHostname at hm
  cases hsan : c.ext.san_ext with
  | some san =>
    rw [hsan] at hm
    obtain ⟨x, octet, hx, hxsan, hoctet, rfl⟩ := hkept.san san hsan
    have hcovers : s.Covers m host := by
      dsimp only at hm
      split at hm
      · exact nomatch hm
      next names hnames =>
      obtain ⟨gn, hgn, htag, hmatch⟩ := sanMatches_true hm
      exact .inl ⟨_, ⟨x, octet, names, gn, hx, hxsan, hoctet, hnames, hgn, htag, rfl⟩, hmatch⟩
    exact iff_of_true hcovers fun _ _ _ =>
      ⟨x, hx, hxsan, by rw [hoctet]; exact Option.some_ne_none octet⟩
  | none =>
    rw [hsan] at hm
    have hno := hkept.no_san hcrit hsan
    obtain ⟨hcn, hmatch⟩ := of_decide_eq_true (Option.some.inj hm)
    constructor
    · rintro (⟨name, ⟨x, octet, -, -, hx, hxsan, hoctet, -⟩, -⟩ | ⟨hnone, -⟩)
      · rw [hno x hx hxsan] at hoctet
        exact nomatch hoctet
      · exact fun x hx hxsan => absurd hxsan (hnone x hx)
    · intro hval
      refine .inr ⟨fun x hx hxsan => ?_, ?_⟩
      · obtain ⟨y, hy, hysan, hne⟩ := hval x hx hxsan
        exact hne (hno y hy hysan)
      · obtain heq | ⟨rdn, atv, v, hrdn, htag, hatv, htag', hv, hname⟩ := extractCn_some h.cn
        · exact absurd heq hcn
        · -- a name that is cut is too long for a host
          have hle := nameMatchesHost_le hmatch
          have hwhole : c.cn = m.slice v.value v.len.toNat := by
            unfold KeptName at hname
            rw [hname, length_slice] at hle
            rw [hname]
            congr 1
            unfold cnMax at hle ⊢
            omega
          exact ⟨c.cn, ⟨rdn, atv, v, hrdn, htag, hatv, htag', hv, hwhole⟩, hmatch⟩

/-! ## Names -/

/-- **A name that is kept whole has no other that is kept as it is.** -/
theorem whole_eq {a b : Placed} {n n' : UInt32} (ha : parseTlv m a.p n = some a.t)
    (hb : parseTlv m b.p n' = some b.t) (hsize : b.t.size b.p < maxNameLen)
    (heq : a.kept m = b.kept m) : a.whole m = b.whole m := by
  have hlen := congrArg List.length heq
  unfold Placed.kept at hlen
  rw [length_slice, length_slice] at hlen
  unfold maxNameLen at hsize hlen
  rw [Nat.mod_eq_of_lt (show b.t.size b.p < 2 ^ 32 by omega)] at hlen
  have hwhole : b.kept m = b.whole m := by
    unfold Placed.kept Placed.whole Mem.whole maxNameLen
    rw [Nat.mod_eq_of_lt (show b.t.size b.p < 2 ^ 32 by omega), Nat.min_eq_left (by omega)]
  by_cases hround : a.t.size a.p < 2 ^ 32
  · rw [Nat.mod_eq_of_lt hround] at hlen
    rw [← hwhole, ← heq]
    unfold Placed.kept Placed.whole Mem.whole maxNameLen
    rw [Nat.mod_eq_of_lt hround, Nat.min_eq_left (by omega)]
  · -- what is kept would be a part of the header
    obtain ⟨hlong, -, -, -, hlast⟩ := parseTlv_round ha (Nat.le_of_not_lt hround)
    obtain ⟨-, hnext, -⟩ := parseTlv_next ha
    obtain ⟨-, -, htwo⟩ := parseTlv_next hb
    have hbyte := (m (a.p + 5)).toNat_lt
    have hsecond : m (a.p + 1) = m (b.p + 1) := by
      have hget := congrArg (fun l => l[1]?) heq
      unfold Placed.kept maxNameLen at hget
      rw [getElem_slice _ _ (by omega), getElem_slice _ _ (by omega)] at hget
      exact Option.some.inj hget
    have hsix := parseTlv_long hb (hsecond ▸ hlong)
    omega

/-! ## Keys -/

/-- The modulus and the exponent of an RSA key. -/
def rsaKey (m : Mem) (spki : Tlv) : Option (Tlv × Tlv) := do
  let alg ← spki.row.expect m tagSequence
  let alg_oid ← alg.row.parse m
  if oidEquals m alg_oid oidRsaEncryption then rsaInts m (spki.row.behind alg) else none

/-- A key on one of the curves. -/
def curveKey (m : Mem) (spki : Tlv) : Option PublicKey := do
  let alg ← spki.row.expect m tagSequence
  let alg_oid ← alg.row.parse m
  if oidEquals m alg_oid oidEcPublicKey then ecKey m (alg.row.behind alg_oid) (spki.row.behind alg)
  else none

variable {spki : Tlv} {k : PublicKey}

/-- **What is kept of a key.** -/
theorem parseKey_some (h : parseKey m spki = some k) :
    (k.pubkey_valid = true → ∃ mod_t exp_t, rsaKey m spki = some (mod_t, exp_t)
      ∧ k.modulus = bnFromBytes (intBytes m mod_t) ∧ k.exponent = smallInt m exp_t)
    ∧ (k.ec_point ≠ [] → curveKey m spki = some k) := by
  obtain ⟨alg, halg, h⟩ := Option.bind_eq_some_iff.mp h
  obtain ⟨alg_oid, hoid, h⟩ := Option.bind_eq_some_iff.mp h
  dsimp only at h
  split at h
  · next hec =>
    obtain rfl := Option.some.inj h
    cases hk : ecKey m (alg.row.behind alg_oid) (spki.row.behind alg) with
    | none => exact ⟨fun hv => (nomatch hv), fun hne => absurd rfl hne⟩
    | some k =>
      refine ⟨fun hv => ?_, fun _ => bind_some halg (bind_some hoid ?_)⟩
      · -- a key on a curve is no RSA key
        obtain ⟨curve_oid, -, hk⟩ := Option.bind_eq_some_iff.mp hk
        obtain ⟨pt_bits, -, hk⟩ := Option.bind_eq_some_iff.mp hk
        obtain ⟨⟨group, want⟩, -, hk⟩ := Option.bind_eq_some_iff.mp hk
        dsimp only at hk
        split at hk
        · rw [← Option.some.inj hk] at hv
          exact nomatch hv
        · exact nomatch hk
      · rw [if_pos hec]
        exact hk
  split at h
  · next hrsa =>
    split at h
    · next mod_t exp_t hints =>
      obtain rfl := Option.some.inj h
      exact ⟨fun _ => ⟨mod_t, exp_t, bind_some halg (bind_some hoid (by
        rw [if_pos hrsa]
        exact hints)), rfl, rfl⟩, fun hne => absurd rfl hne⟩
    · obtain rfl := Option.some.inj h
      exact ⟨fun hv => (nomatch hv), fun hne => absurd rfl hne⟩
  · obtain rfl := Option.some.inj h
    exact ⟨fun hv => (nomatch hv), fun hne => absurd rfl hne⟩

/-- An exponent is kept up to its fourth byte. -/
theorem smallInt_toNat (m : Mem) (t : Tlv) :
    (smallInt m t).toNat = BigEndian.value ((intBytes m t).take 4) :=
  shiftIn_toNat _ (by rw [List.length_take]; exact Nat.min_le_left 4 _)

/-! ## Signatures -/

/-- **The child is signed with the key of the parent**, by the scheme that its algorithm names,
over all the bytes of its signed part. -/
def SignedBy (C : Crypto) (m : Mem) (child parent : Shape) : Prop :=
  match sigAlg m child.sig_alg_oid with
  | none => False
  | some (.rsaPkcs1, hash) => ∃ mod_t exp_t, rsaKey m parent.spki = some (mod_t, exp_t)
      ∧ Valid C.toDigests hash (child.tbs.whole m) (bitString m child.sig_bits)
        (BigEndian.value (intBytes m mod_t)) (BigEndian.value (intBytes m exp_t))
  | some (.ecdsa, hash) => ∃ k, curveKey m parent.spki = some k
      ∧ ecdsaVerifyDer C k.ec_group k.ec_point (C.hash hash (child.tbs.whole m))
        (bitString m child.sig_bits) = true

/-- **Nothing that the check needs is cut off**: the signature has room, and so has the modulus of
an RSA key; and what is kept of its exponent does the same to the signature. -/
def Uncut (m : Mem) (child parent : Shape) : Prop :=
  (bitString m child.sig_bits).length ≤ sigSize
    ∧ ∀ hash, sigAlg m child.sig_alg_oid = some (.rsaPkcs1, hash) → ∀ mod_t exp_t,
      rsaKey m parent.spki = some (mod_t, exp_t) →
        BigEndian.value (intBytes m mod_t) < 2 ^ bignumBits
        ∧ BigEndian.value (bitString m child.sig_bits) ^ BigEndian.value (intBytes m exp_t)
            % BigEndian.value (intBytes m mod_t)
          = BigEndian.value (bitString m child.sig_bits)
            ^ BigEndian.value ((intBytes m exp_t).take 4) % BigEndian.value (intBytes m mod_t)

/-- The frame of an ECDSA signature does not depend on what is behind it. -/
theorem eccDerLen_append {l l' : List UInt8} {r : Nat × Nat} (h : eccDerLen l = some r) :
    eccDerLen (l ++ l') = some r := by
  cases l with
  | nil => exact nomatch h
  | cons b rest =>
    rw [List.cons_append]
    simp only [eccDerLen] at h ⊢
    split at h
    · next hb => rw [if_pos hb]; exact h
    · next hb =>
      rw [if_neg hb]
      split at h
      · exact nomatch h
      · next hok =>
        rw [not_or, not_or, Nat.not_lt] at hok
        rw [if_neg (by
          rw [not_or, not_or, List.length_append]
          exact ⟨hok.1, by omega, by omega⟩), List.take_append_of_le_length (by omega)]
        exact h

theorem ecdsa_frame {group : UInt16} {pub digest sig : List UInt8}
    (h : ecdsaVerifyDer C group pub digest sig = true) :
    8 ≤ sig.length ∧ ∃ hl len, eccDerLen (sig.drop 1) = some (hl, len) ∧ 1 + hl + len = sig.length := by
  unfold ecdsaVerifyDer at h
  split at h
  · exact nomatch h
  next hhead =>
  rw [not_or, Nat.not_lt] at hhead
  split at h
  · exact nomatch h
  next hl len hlen =>
  split at h
  · exact nomatch h
  · next heq => exact ⟨hhead.1, hl, len, hlen, not_not.mp heq⟩

/-- **A signature that is cut is not accepted whole as well**, since its frame says how long it is. -/
theorem ecdsa_uncut {group group' : UInt16} {pub pub' digest digest' sig : List UInt8}
    (h : ecdsaVerifyDer C group pub digest (sig.take sigSize) = true)
    (h' : ecdsaVerifyDer C group' pub' digest' sig = true) : sig.length ≤ sigSize := by
  by_contra hlong
  obtain ⟨height, hl, len, hlen, heq⟩ := ecdsa_frame h
  obtain ⟨-, hl', len', hlen', heq'⟩ := ecdsa_frame h'
  have hsplit : sig.drop 1 = (sig.take sigSize).drop 1 ++ sig.drop sigSize := by
    rw [← List.drop_append_of_le_length (by omega), List.take_append_drop]
  have happ : eccDerLen ((sig.take sigSize).drop 1 ++ sig.drop sigSize) = some (hl, len) :=
    eccDerLen_append hlen
  rw [← hsplit, hlen'] at happ
  obtain ⟨rfl, rfl⟩ := Prod.mk.inj (Option.some.inj happ)
  rw [List.length_take] at heq
  omega

section
variable {p : Cert} (hc : Stored fuel m s c)
include hc

/-- A signature of the child that holds whole is kept whole. -/
theorem signed_length (hv : verifySignedBy C m c p = true) (hs : SignedBy C m s s') :
    (bitString m s.sig_bits).length ≤ sigSize := by
  unfold SignedBy at hs
  unfold verifySignedBy at hv
  rw [hc.sig_alg, hc.signature] at hv
  split at hs
  · exact hs.elim
  · next hash halg =>
    obtain ⟨mod_t, exp_t, -, hle, hlen, -⟩ := hs
    rw [hlen]
    exact hle
  · next hash halg =>
    obtain ⟨k, -, hk⟩ := hs
    rw [halg] at hv
    dsimp only at hv
    split at hv
    · exact ecdsa_uncut hv hk
    · exact nomatch hv

/-- **The child is signed by the parent, if nothing is cut off.** -/
theorem signedBy_iff (hp : Stored fuel m s' p) (hv : verifySignedBy C m c p = true) :
    SignedBy C m s s' ↔ Uncut m s s' := by
  have hlength : SignedBy C m s s' → (bitString m s.sig_bits).length ≤ sigSize :=
    signed_length hc hv
  unfold verifySignedBy at hv
  rw [hc.sig_alg, hc.signature, hc.tbs] at hv
  dsimp only at hv
  unfold SignedBy Uncut at *
  split at hv
  · exact nomatch hv
  · next hash halg =>
    rw [Bool.and_eq_true] at hv
    obtain ⟨mod_t, exp_t, hkey, hmod, hexp⟩ := (parseKey_some hp.key).1 hv.1
    have hverify := hv.2
    rw [hmod, hexp, smallInt_toNat] at hverify
    have hcut := verify_cut hverify (BigEndian.value (intBytes m exp_t))
    rw [halg] at hlength ⊢
    constructor
    · intro hs
      obtain ⟨mod', exp', hkey', hvalid⟩ := hs
      rw [hkey] at hkey'
      obtain ⟨rfl, rfl⟩ := Prod.mk.inj (Option.some.inj hkey')
      obtain ⟨hle, hn, hpow⟩ := hcut.mp hvalid
      refine ⟨hle, fun _ _ mod' exp' hkey' => ?_⟩
      rw [hkey] at hkey'
      obtain ⟨rfl, rfl⟩ := Prod.mk.inj (Option.some.inj hkey')
      exact ⟨hn, hpow⟩
    · rintro ⟨hle, hrest⟩
      obtain ⟨hn, hpow⟩ := hrest hash rfl mod_t exp_t hkey
      exact ⟨mod_t, exp_t, hkey, hcut.mpr ⟨hle, hn, hpow⟩⟩
  · next hash halg =>
    rw [halg] at hlength ⊢
    split at hv
    · next hgroup =>
      have hkey := (parseKey_some hp.key).2 hgroup.2
      constructor
      · intro hs
        exact ⟨hlength hs, fun _ hne => nomatch hne⟩
      · rintro ⟨hle, -⟩
        rw [List.take_of_length_le hle] at hv
        exact ⟨p.key, hkey, hv⟩
    · exact nomatch hv

end

end X509
