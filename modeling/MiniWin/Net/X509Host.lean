import MiniWin.Net.X509Chain

/-!
# X.509: the host that a certificate is for

What it is for a name to fit a host (`Fits`), and what `x509_name_matches_host` asks instead: a label
in place of the star may be empty there, and the bytes behind the star have to be ASCII. A
certificate offers its names to the check (`Cert.Offers`); they need not be the ones that it has
(`Shape.Named`), since a common name is cut, and what has no value is passed over.
-/

namespace X509

open Asn1

/-! ## Names and hosts -/

/-- Equal up to ASCII case. -/
def SameHost (a b : List UInt8) : Prop := a.map asciiLower = b.map asciiLower

/-- The name with a star in front of the suffix. -/
def star (suffix : List UInt8) : List UInt8 := 0x2A :: 0x2E :: suffix

/-- **A name fits a host**: they are the same, or a star stands for the first label. -/
def Fits (name host : List UInt8) : Prop :=
  SameHost name host ∨ ∃ suffix label rest, suffix ≠ [] ∧ name = star suffix ∧ label ≠ [] ∧
    0x2E ∉ label ∧ host = label ++ 0x2E :: rest ∧ SameHost rest suffix

/-- A star stands for an empty label. -/
def FitsEmpty (name host : List UInt8) : Prop :=
  ∃ suffix rest, suffix ≠ [] ∧ name = star suffix ∧ host = 0x2E :: rest ∧ SameHost rest suffix

/-- A name with a star, and bytes behind it that are not ASCII. -/
def HighStar (name : List UInt8) : Prop :=
  ∃ suffix, suffix ≠ [] ∧ name = star suffix ∧ ∃ b ∈ suffix, 0x80 ≤ b

theorem asciiLower_lt (b : UInt8) : asciiLower b < 0x80 ↔ b < 0x80 := by
  unfold asciiLower
  split
  · next h =>
    obtain ⟨h₁, h₂⟩ := h
    simp only [ge_iff_le, UInt8.le_iff_toNat_le, UInt8.lt_iff_toNat_lt, UInt8.toNat_add] at h₁ h₂ ⊢
    simp only [UInt8.reduceToNat] at h₁ h₂ ⊢
    omega
  · exact Iff.rfl

/-- Only letters have another case. -/
theorem asciiLower_eq {b d : UInt8} (h : asciiLower b = d) (hd : d < 0x61) : b = d := by
  unfold asciiLower at h
  split at h
  · next hb =>
    obtain ⟨h₁, h₂⟩ := hb
    have hnat := congrArg UInt8.toNat h
    simp only [ge_iff_le, UInt8.le_iff_toNat_le, UInt8.lt_iff_toNat_lt, UInt8.toNat_add,
      UInt8.reduceToNat] at h₁ h₂ hd hnat
    omega
  · exact h

theorem SameHost.ascii {a b : List UInt8} (h : SameHost a b) :
    a.all (· < 0x80) = true ↔ ∀ x ∈ b, x < 0x80 := by
  have hmap : ∀ l : List UInt8, (∀ x ∈ l, x < 0x80) ↔ ∀ x ∈ l.map asciiLower, x < 0x80 := fun l => by
    simp only [List.forall_mem_map, asciiLower_lt]
  rw [hmap b, ← show a.map asciiLower = b.map asciiLower from h, ← hmap a]
  simp

/-- The part of a host behind its first dot. -/
theorem dropWhile_dot {label rest : List UInt8} (h : (0x2E : UInt8) ∉ label) :
    (label ++ 0x2E :: rest).dropWhile (· ≠ 0x2E) = 0x2E :: rest := by
  rw [List.dropWhile_append_of_pos]
  · rfl
  · intro b hb
    exact decide_eq_true fun hc => h (hc ▸ hb)

/-- **`x509_name_matches_host`**: the fitting names, but for the ones that are not ASCII behind a
star, and with the empty label. -/
theorem nameMatchesHost_iff (name host : List UInt8) : nameMatchesHost name host = true ↔
    (Fits name host ∨ FitsEmpty name host) ∧ ¬ HighStar name := by
  unfold nameMatchesHost
  split
  · next c suffix =>
    have hstar : ∀ s, (0x2A : UInt8) :: 0x2E :: c :: suffix = star s ↔ s = c :: suffix := fun s => by
      unfold star
      rw [List.cons.injEq, List.cons.injEq]
      exact ⟨fun h => h.2.2.symm, fun h => ⟨rfl, rfl, h.symm⟩⟩
    have hhigh : HighStar (0x2A :: 0x2E :: c :: suffix) ↔ ¬ ∀ x ∈ c :: suffix, x < 0x80 := by
      unfold HighStar
      simp only [hstar, not_forall, UInt8.not_lt, exists_prop]
      constructor
      · rintro ⟨s, -, rfl, hb⟩
        exact hb
      · exact fun hb => ⟨_, List.cons_ne_nil _ _, rfl, hb⟩
    rw [hhigh, not_not]
    have hhost := List.takeWhile_append_dropWhile (p := fun b : UInt8 => decide (b ≠ 0x2E))
      (l := host)
    have hlabel : (0x2E : UInt8) ∉ host.takeWhile (· ≠ 0x2E) := fun hc => by
      simpa using List.mem_takeWhile_imp hc
    constructor
    · intro h
      split at h
      · exact nomatch h
      · next d rest hdrop =>
        obtain ⟨hsame, hall⟩ := of_decide_eq_true h
        have hd := List.head?_dropWhile_not (fun b : UInt8 => decide (b ≠ 0x2E)) host
        rw [hdrop] at hd hhost
        obtain rfl : d = 0x2E := by simpa using hd
        refine ⟨?_, (SameHost.ascii hsame).mp hall⟩
        by_cases hempty : host.takeWhile (· ≠ 0x2E) = []
        · rw [hempty, List.nil_append] at hhost
          exact Or.inr ⟨c :: suffix, rest, List.cons_ne_nil _ _, rfl, hhost.symm, hsame⟩
        · exact Or.inl (Or.inr ⟨c :: suffix, _, rest, List.cons_ne_nil _ _, rfl, hempty, hlabel,
            hhost.symm, hsame⟩)
    · rintro ⟨hfits, hascii⟩
      -- whatever stands in front of the first dot, what is behind it is the suffix
      obtain ⟨label, rest, hno, rfl, hsame⟩ : ∃ label rest, (0x2E : UInt8) ∉ label ∧
          host = label ++ 0x2E :: rest ∧ SameHost rest (c :: suffix) := by
        rcases hfits with (hsame | ⟨s, label, rest, -, hs, -, hno, rfl, hsame⟩) |
          ⟨s, rest, -, hs, rfl, hsame⟩
        · match host, hsame with
          | x :: y :: rest, hsame =>
            unfold SameHost at hsame
            simp only [List.map_cons, List.cons.injEq] at hsame
            obtain ⟨hx, hy, hrest⟩ := hsame
            obtain rfl : x = 0x2A := asciiLower_eq hx.symm (by decide)
            obtain rfl : y = 0x2E := asciiLower_eq hy.symm (by decide)
            refine ⟨[0x2A], rest, by decide, rfl, ?_⟩
            exact hrest.symm
          | [], hsame => exact nomatch hsame
          | [_], hsame => exact absurd (congrArg List.length hsame) (by simp)
        · obtain rfl := (hstar s).mp hs
          exact ⟨label, rest, hno, rfl, hsame⟩
        · obtain rfl := (hstar s).mp hs
          exact ⟨[], rest, List.not_mem_nil, rfl, hsame⟩
      rw [dropWhile_dot hno]
      exact decide_eq_true ⟨hsame, (SameHost.ascii hsame).mpr hascii⟩
  · next hnot =>
    have hno : ∀ s, s ≠ [] → name ≠ star s := by
      intro s hs hname
      obtain ⟨c, s, rfl⟩ := List.exists_cons_of_ne_nil hs
      exact hnot c s hname
    have hhigh : ¬ HighStar name := fun ⟨s, hs, hname, _⟩ => hno s hs hname
    constructor
    · intro h
      rw [decide_eq_true_eq] at h
      exact ⟨Or.inl (Or.inl h), hhigh⟩
    · rintro ⟨(h | ⟨s, -, -, hs, hname, -⟩) | ⟨s, -, hs, hname, -⟩, -⟩
      · rw [decide_eq_true_eq]
        exact h
      · exact absurd hname (hno s hs)
      · exact absurd hname (hno s hs)

/-! ## The names of a certificate -/

/-- **A name of the certificate**: a dNSName, or, if it has no subjectAltName, a common name. -/
def Shape.Named (m : Mem) (s : Shape) (name : List UInt8) : Prop :=
  s.DnsName m name ∨ ((∀ x, s.Has m x → ¬ x.is m oidSubjectAltName) ∧ s.CommonName m name)

/-- **The certificate is for this host.** -/
def Shape.IsFor (m : Mem) (s : Shape) (host : List UInt8) : Prop :=
  ∃ name, s.Named m name ∧ Fits name host

/-- What is kept of the certificate offers this name to the check. -/
def Cert.Offers (m : Mem) (c : Cert) (name : List UInt8) : Prop :=
  match c.ext.san_ext with
  | some san => ∃ names gn, san.expect m tagSequence = some names ∧ InRow m names.row gn
    ∧ gn.tag = tagContextPrimitive 2 ∧ name = m.slice gn.value gn.len.toNat
  | none => name = c.cn ∧ name ≠ []

/-- What is kept as the common name is not a name of the certificate: there is a subjectAltName that
has no value, or the common name was cut. -/
def Cert.Stray (m : Mem) (s : Shape) (c : Cert) (name : List UInt8) : Prop :=
  c.ext.san_ext = none ∧ ((∃ x, s.Has m x ∧ x.is m oidSubjectAltName)
    ∨ ∃ whole, s.CommonName m whole ∧ cnMax < whole.length ∧ name = whole.take cnMax)

variable {m : Mem} {fuel : Nat} {r : Row} {s : Shape} {c : Cert} {host name : List UInt8}

/-- The loop comes to every element. -/
theorem sanMatches_of_inRow {gn : Tlv} (h : InRow m r gn) (htag : gn.tag = tagContextPrimitive 2)
    (hmatch : nameMatchesHost (m.slice gn.value gn.len.toNat) host = true) :
    ∃ n, sanMatches m host n r = some true := by
  induction h with
  | here h =>
    refine ⟨1, ?_⟩
    unfold sanMatches
    rw [if_neg fun hc => inRow_empty hc (.here h), h]
    exact if_pos ⟨htag, hmatch⟩
  | next h hu ih =>
    obtain ⟨n, hn⟩ := ih htag hmatch
    refine ⟨n + 1, ?_⟩
    unfold sanMatches
    rw [if_neg fun hc => inRow_empty hc (.here h), h]
    dsimp only
    split
    · rfl
    · exact hn

/-- **`x509_matches_hostname`** returns 1 for a name that is offered to it. -/
theorem matchesHostname_iff : (∃ n, matchesHostname n m c host = some true) ↔
    ∃ name, c.Offers m name ∧ nameMatchesHost name host = true := by
  unfold matchesHostname Cert.Offers
  cases c.ext.san_ext with
  | none =>
    constructor
    · rintro ⟨n, h⟩
      obtain ⟨hcn, hmatch⟩ := of_decide_eq_true (Option.some.inj h)
      exact ⟨c.cn, ⟨rfl, hcn⟩, hmatch⟩
    · rintro ⟨name, ⟨rfl, hne⟩, hmatch⟩
      exact ⟨0, congrArg some (decide_eq_true ⟨hne, hmatch⟩)⟩
  | some san =>
    dsimp only
    constructor
    · rintro ⟨n, h⟩
      split at h
      · exact nomatch h
      next names hnames =>
      obtain ⟨gn, hgn, htag, hmatch⟩ := sanMatches_true h
      exact ⟨_, ⟨names, gn, hnames, hgn, htag, rfl⟩, hmatch⟩
    · rintro ⟨name, ⟨names, gn, hnames, hgn, htag, rfl⟩, hmatch⟩
      rw [hnames]
      exact sanMatches_of_inRow hgn htag hmatch

/-- **What is offered is a name of the certificate, or stray.** -/
theorem Stored.offers (h : Stored fuel m s c) (ho : c.Offers m name) :
    s.Named m name ∨ c.Stray m s name := by
  unfold Cert.Offers at ho
  cases hsan : c.ext.san_ext with
  | some san =>
    rw [hsan] at ho
    obtain ⟨names, gn, hnames, hgn, htag, rfl⟩ := ho
    obtain ⟨x, octet, hx, hxsan, hoctet, rfl⟩ := h.kept.san san hsan
    exact Or.inl (Or.inl ⟨x, octet, names, gn, hx, hxsan, hoctet, hnames, hgn, htag, rfl⟩)
  | none =>
    rw [hsan] at ho
    obtain ⟨rfl, hne⟩ := ho
    by_cases hno : ∃ x, s.Has m x ∧ x.is m oidSubjectAltName
    · exact Or.inr ⟨hsan, Or.inl hno⟩
    have hnone : ∀ x, s.Has m x → ¬ x.is m oidSubjectAltName := fun x hx hxsan => hno ⟨x, hx, hxsan⟩
    obtain heq | ⟨rdn, atv, v, hrdn, htag, hatv, htag', hv, hname⟩ := extractCn_some h.cn
    · exact absurd heq hne
    have hwhole : s.CommonName m (m.slice v.value v.len.toNat) :=
      ⟨rdn, atv, v, hrdn, htag, hatv, htag', hv, rfl⟩
    unfold KeptName at hname
    by_cases hlen : v.len.toNat ≤ cnMax
    · rw [Nat.min_eq_left hlen] at hname
      rw [hname]
      exact Or.inl (Or.inr ⟨hnone, hwhole⟩)
    · refine Or.inr ⟨hsan, Or.inr ⟨_, hwhole, ?_, ?_⟩⟩
      · rw [length_slice]
        omega
      · rw [hname, take_slice m v.value (by omega), Nat.min_eq_right (by omega)]

/-- **`x509_matches_hostname` is right** about a certificate that `x509_parse` has read just when no
name is matched with an empty label in place of the star, or although it is stray, unless another
name fits; and no name that fits is passed over, unless another name is matched. -/
theorem matchesHostname_right (hp : parse fuel m r.p r.remaining = .ok c)
    (hs : shape m r = some s) (host : List UInt8) :
    ((∃ n, matchesHostname n m c host = some true) ↔ s.IsFor m host) ↔
      (∀ name, c.Offers m name → ¬ HighStar name →
        FitsEmpty name host ∨ (Fits name host ∧ c.Stray m s name) → s.IsFor m host) ∧
      (∀ name, s.Named m name → Fits name host → HighStar name ∨ ¬ c.Offers m name →
        ∃ name', c.Offers m name' ∧ ¬ HighStar name' ∧
          (Fits name' host ∨ FitsEmpty name' host)) := by
  obtain ⟨s', hs', hst⟩ := parse_stored hp
  obtain rfl := Option.some.inj (hs.symm.trans hs')
  rw [matchesHostname_iff]
  simp only [nameMatchesHost_iff]
  constructor
  · intro hiff
    refine ⟨fun name ho hhigh hwhy => ?_, fun name hn hfits _ => ?_⟩
    · refine hiff.mp ⟨name, ho, ?_, hhigh⟩
      rcases hwhy with hempty | ⟨hfits, -⟩
      · exact Or.inr hempty
      · exact Or.inl hfits
    · obtain ⟨name', ho, hmatch, hhigh⟩ := hiff.mpr ⟨name, hn, hfits⟩
      exact ⟨name', ho, hhigh, hmatch⟩
  · rintro ⟨hover, hmiss⟩
    constructor
    · rintro ⟨name, ho, hfits | hempty, hhigh⟩
      · rcases hst.offers ho with hn | hstray
        · exact ⟨name, hn, hfits⟩
        · exact hover name ho hhigh (Or.inr ⟨hfits, hstray⟩)
      · exact hover name ho hhigh (Or.inl hempty)
    · rintro ⟨name, hn, hfits⟩
      by_cases hkept : c.Offers m name ∧ ¬ HighStar name
      · exact ⟨name, hkept.1, Or.inl hfits, hkept.2⟩
      · have hwhy : HighStar name ∨ ¬ c.Offers m name := by
          by_cases hhigh : HighStar name
          · exact Or.inl hhigh
          · exact Or.inr fun ho => hkept ⟨ho, hhigh⟩
        obtain ⟨name', ho, hhigh, hmatch⟩ := hmiss name hn hfits hwhy
        exact ⟨name', ho, hmatch, hhigh⟩

/-! ## A star for nothing -/

namespace StarLeaf

/-- The common name `*.b`. -/
def starName : List UInt8 := star [0x62]

def starDer : List UInt8 :=
  OneLeaf.certificate (OneLeaf.tbs OneLeaf.jan2020 starName [0x33]) [0x00]

def memory : Mem := fun p => starDer.getD (p.toNat - 0x1000) 0

def row : Row := ⟨0x1000, UInt32.ofNat starDer.length⟩

/-- The certificate matches these hosts. -/
def matched (hosts : List (List UInt8)) : Bool :=
  match parse 8 memory row.p row.remaining with
  | .ok c => hosts.all fun host => matchesHostname 0 memory c host = some true
  | .error _ => false

/-- There is nothing behind the key, and the subject is one common name. -/
def lone (s : Shape) : Bool :=
  s.tail.remaining == 0 &&
    match s.subject.t.row.expect memory tagSet with
    | none => false
    | some rdn => (s.subject.t.row.behind rdn).remaining == 0 &&
      match rdn.row.expect memory tagSequence with
      | none => false
      | some atv => (rdn.row.behind atv).remaining == 0 &&
        (commonName memory atv).map (fun v => memory.slice v.value v.len.toNat) == some starName

theorem matched_lone : matched [[0x2E, 0x62], [0x61, 0x2E, 0x62]] = true
    ∧ (shape memory row).all lone = true := by
  decide +kernel

theorem matched_hosts : matched [[0x2E, 0x62], [0x61, 0x2E, 0x62]] = true := matched_lone.1

theorem lone_shape : (shape memory row).all lone = true := matched_lone.2

variable {s : Shape} {name : List UInt8}

theorem lone_named (h : lone s = true) : s.Named memory name ↔ name = starName := by
  unfold lone at h
  simp only [Bool.and_eq_true, beq_iff_eq] at h
  obtain ⟨htail, h⟩ := h
  have hno : ∀ x, ¬ s.Has memory x := fun x ⟨t, exts, hin, _⟩ => inRow_empty htail hin
  split at h
  · exact nomatch h
  next rdn hrdn =>
  obtain ⟨hrdn_parse, hrdn_tag⟩ := expect_some hrdn
  simp only [Bool.and_eq_true, beq_iff_eq] at h
  obtain ⟨hrdn_end, h⟩ := h
  split at h
  · exact nomatch h
  next atv hatv =>
  obtain ⟨hatv_parse, hatv_tag⟩ := expect_some hatv
  simp only [Bool.and_eq_true, beq_iff_eq] at h
  obtain ⟨hatv_end, hname⟩ := h
  obtain ⟨v, hv, hstar⟩ := Option.map_eq_some_iff.mp hname
  constructor
  · rintro (⟨x, octet, names, gn, hx, -⟩ | ⟨-, rdn', atv', v', hrdn', -, hatv', -, hv', rfl⟩)
    · exact absurd hx (hno x)
    · obtain rfl | hin := (inRow_cons hrdn_parse).mp hrdn'
      · obtain rfl | hin := (inRow_cons hatv_parse).mp hatv'
        · rw [hv] at hv'
          obtain rfl := Option.some.inj hv'
          exact hstar
        · exact (inRow_empty hatv_end hin).elim
      · exact (inRow_empty hrdn_end hin).elim
  · rintro rfl
    exact Or.inr ⟨fun x hx => absurd hx (hno x), rdn, atv, v, .here hrdn_parse, hrdn_tag,
      .here hatv_parse, hatv_tag, hv, hstar.symm⟩

theorem parsed : ∃ c s, parse 8 memory row.p row.remaining = .ok c ∧ shape memory row = some s ∧
    lone s = true ∧ matchesHostname 0 memory c [0x2E, 0x62] = some true ∧
    matchesHostname 0 memory c [0x61, 0x2E, 0x62] = some true := by
  have hmatched := matched_hosts
  have hlone := lone_shape
  unfold matched at hmatched
  split at hmatched
  · next c hc =>
    obtain ⟨s, hs, -⟩ := parse_stored hc
    rw [hs] at hlone
    have hall := List.all_eq_true.mp hmatched
    exact ⟨c, s, hc, hs, hlone, of_decide_eq_true (hall _ (by simp)),
      of_decide_eq_true (hall _ (by simp))⟩
  · exact nomatch hmatched

end StarLeaf

open StarLeaf

/-- The host `a.b` is one that the certificate is for. -/
theorem matchesHostname_right_star : ∃ c s, parse 8 memory row.p row.remaining = .ok c ∧
    shape memory row = some s ∧
    ∀ name, c.Offers memory name → ¬ HighStar name →
      FitsEmpty name [0x61, 0x2E, 0x62] ∨ (Fits name [0x61, 0x2E, 0x62] ∧ c.Stray memory s name) →
      s.IsFor memory [0x61, 0x2E, 0x62] := by
  obtain ⟨c, s, hc, hs, hlone, -, hmatch⟩ := parsed
  have hfor : s.IsFor memory [0x61, 0x2E, 0x62] :=
    ⟨starName, (lone_named hlone).mpr rfl, Or.inr ⟨[0x62], [0x61], [0x62], by decide, rfl,
      by decide, by decide, rfl, rfl⟩⟩
  exact ⟨c, s, hc, hs, ((matchesHostname_right hc hs _).mp (iff_of_true ⟨0, hmatch⟩ hfor)).1⟩

/-- The host `.b` is matched with the name `*.b`. -/
theorem matchesHostname_empty_label : ¬ ∀ (fuel : Nat) (m : Mem) (r : Row) (c : Cert) (s : Shape)
    (host : List UInt8), parse fuel m r.p r.remaining = .ok c → shape m r = some s →
    ((∃ n, matchesHostname n m c host = some true) ↔ s.IsFor m host) := by
  intro hall
  obtain ⟨c, s, hc, hs, hlone, hmatch, -⟩ := parsed
  obtain ⟨name, hn, hfits⟩ := (hall 8 memory row c s [0x2E, 0x62] hc hs).mp ⟨0, hmatch⟩
  obtain rfl := (lone_named hlone).mp hn
  rcases hfits with hsame | ⟨suffix, label, rest, -, -, hne, hno, hhost, -⟩
  · exact absurd hsame (by unfold SameHost; decide)
  · obtain ⟨b, label, rfl⟩ := List.exists_cons_of_ne_nil hne
    obtain rfl : (0x2E : UInt8) = b := (List.cons.inj hhost).1
    exact hno List.mem_cons_self

end X509
