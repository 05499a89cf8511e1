import MiniWin.Net.X509

/-!
# X.509: a certificate as it is written

Where the parts of a certificate are (`shape`), and what `x509_parse` keeps of them (`Stored`): the
names and the signature as far as there is room, the key in its limbs, and of the extensions what
`Kept` says.
-/

namespace X509

open Asn1 Tls Pkcs1

/-- An element, and where it begins. -/
structure Placed where
  p : UInt32
  t : Tlv

/-- The whole of it. -/
def Placed.whole (m : Mem) (x : Placed) : List UInt8 := m.whole x.p x.t

/-- The parts of a certificate. -/
structure Shape where
  tbs : Placed
  issuer : Placed
  not_before : Tlv
  not_after : Tlv
  subject : Placed
  spki : Tlv
  tail : Row
  sig_alg_oid : Tlv
  sig_bits : Tlv

/-- **The parts of the certificate** at this place in memory. -/
def shape (m : Mem) (r : Row) : Option Shape := do
  let outer ← r.expect m tagSequence
  let tbs ← outer.row.expect m tagSequence
  let r ← skipVersion m tbs.row
  let serial ← r.parse m
  let r := r.behind serial
  let alg ← r.expect m tagSequence
  let r_issuer := r.behind alg
  let issuer ← r_issuer.expect m tagSequence
  let r := r_issuer.behind issuer
  let validity ← r.expect m tagSequence
  let nb ← validity.row.parse m
  let na ← (validity.row.behind nb).parse m
  let r_subject := r.behind validity
  let subject ← r_subject.expect m tagSequence
  let r := r_subject.behind subject
  let spki ← r.expect m tagSequence
  let sig_alg ← (outer.row.behind tbs).expect m tagSequence
  let sig_alg_oid ← sig_alg.row.parse m
  let sig_bits ← ((outer.row.behind tbs).behind sig_alg).expect m tagBitString
  return {
    tbs := ⟨outer.value, tbs⟩, issuer := ⟨r_issuer.p, issuer⟩, not_before := nb, not_after := na,
    subject := ⟨r_subject.p, subject⟩, spki := spki, tail := r.behind spki,
    sig_alg_oid := sig_alg_oid, sig_bits := sig_bits }

/-- As much of a name as is kept. -/
def Placed.kept (m : Mem) (x : Placed) : List UInt8 :=
  m.slice x.p (min (x.t.size x.p % 2 ^ 32) maxNameLen)

/-- **What is kept of a certificate.** -/
structure Stored (fuel : Nat) (m : Mem) (s : Shape) (c : Cert) : Prop where
  tbs : m.slice c.tbs_data c.tbs_len.toNat = s.tbs.whole m
  issuer : c.issuer = s.issuer.kept m
  subject : c.subject = s.subject.kept m
  not_before : c.not_before = parseTime m s.not_before
  not_after : c.not_after = parseTime m s.not_after
  key : parseKey m s.spki = some c.key
  ext : parseTail m fuel s.tail {} = some c.ext
  sig_alg : c.sig_alg = sigAlg m s.sig_alg_oid
  signature : c.signature = (bitString m s.sig_bits).take sigSize
  cn : extractCn m fuel s.subject.t.row [] = some c.cn
  issuer_read : ∃ n, parseTlv m s.issuer.p n = some s.issuer.t
  subject_read : ∃ n, parseTlv m s.subject.p n = some s.subject.t

variable {m : Mem} {fuel : Nat} {r : Row} {s : Shape} {c : Cert} {t : Tlv}

theorem bind_ok {α β : Type} {x : Except Stop α} {f : α → Except Stop β} {b : β}
    (h : (x >>= f) = .ok b) : ∃ a, x = .ok a ∧ f a = .ok b := by
  cases x with
  | error e => exact nomatch h
  | ok a => exact ⟨a, rfl, h⟩

theorem bind_some {α β : Type} {x : Option α} {f : α → Option β} {a : α} {b : β} (hx : x = some a)
    (hf : f a = some b) : (x >>= f) = some b := by
  rw [hx]
  exact hf

theorem must_ok {α : Type} {o : Option α} {a : α} (h : must o = .ok a) : o = some a := by
  cases o with
  | none => exact nomatch h
  | some b => exact congrArg some (Except.ok.inj h)

theorem ends_ok {α : Type} {o : Option α} {a : α} (h : ends o = .ok a) : o = some a := by
  cases o with
  | none => exact nomatch h
  | some b => exact congrArg some (Except.ok.inj h)

theorem nameBytes_eq (h : r.expect m tagSequence = some t) :
    nameBytes m r t = (⟨r.p, t⟩ : Placed).kept m := by
  unfold nameBytes Placed.kept
  rw [(parseTlv_next (expect_some h).1).2.1]

/-- **The length of the signed part does not go round**: the algorithm that follows it would be the
signed part itself, and the signature too. -/
theorem tbs_fits {outer tbs sig_alg sig_bits : Tlv} (ht : outer.row.expect m tagSequence = some tbs)
    (ha : (outer.row.behind tbs).expect m tagSequence = some sig_alg)
    (hs : ((outer.row.behind tbs).behind sig_alg).expect m tagBitString = some sig_bits) :
    tbs.size outer.value < 2 ^ 32 := by
  by_contra hround
  obtain ⟨hp, -⟩ := expect_some ht
  obtain ⟨hpa, htaga⟩ := expect_some ha
  obtain ⟨hps, htags⟩ := expect_some hs
  have htag : m tbs.next = tagSequence := by
    rw [← htaga, (parseTlv_next hpa).1]
    rfl
  obtain hnext | hnext | hnext := parseTlv_round_next hp (Nat.le_of_not_lt hround)
  · -- the algorithm and the signature are the signed part
    have hpa' : parseTlv m tbs.next (outer.row.behind tbs).remaining = some sig_alg := hpa
    rw [hnext] at hpa'
    obtain rfl := parseTlv_agree hpa' hp
    have hps' : parseTlv m sig_alg.next ((outer.row.behind sig_alg).behind sig_alg).remaining
        = some sig_bits := hps
    rw [hnext] at hps'
    rw [parseTlv_agree hps' hp, htaga] at htags
    exact absurd htags (by decide)
  · rw [htag] at hnext
    exact absurd hnext (by decide)
  · rw [htag] at hnext
    exact absurd hnext (by decide)

/-- **What `x509_parse` accepts has its parts**, and is kept as it says. -/
theorem parse_stored (h : parse fuel m r.p r.remaining = .ok c) :
    ∃ s, shape m r = some s ∧ Stored fuel m s c := by
  unfold parse at h
  obtain ⟨outer, houter, h⟩ := bind_ok h
  obtain ⟨tbs, htbs, h⟩ := bind_ok h
  obtain ⟨r₁, hr₁, h⟩ := bind_ok h
  obtain ⟨serial, hserial, h⟩ := bind_ok h
  obtain ⟨alg, halg, h⟩ := bind_ok h
  obtain ⟨issuer, hissuer, h⟩ := bind_ok h
  obtain ⟨validity, hvalidity, h⟩ := bind_ok h
  obtain ⟨nb, hnb, h⟩ := bind_ok h
  obtain ⟨na, hna, h⟩ := bind_ok h
  obtain ⟨subject, hsubject, h⟩ := bind_ok h
  obtain ⟨cn, hcn, h⟩ := bind_ok h
  obtain ⟨spki, hspki, h⟩ := bind_ok h
  obtain ⟨key, hkey, h⟩ := bind_ok h
  obtain ⟨ext, hext, h⟩ := bind_ok h
  obtain ⟨sig_alg, hsig_alg, h⟩ := bind_ok h
  obtain ⟨oid, hoid, h⟩ := bind_ok h
  obtain ⟨bits, hbits, h⟩ := bind_ok h
  obtain rfl := Except.ok.inj h
  have hissuer' := must_ok hissuer
  have hsubject' := must_ok hsubject
  refine ⟨{
    tbs := ⟨outer.value, tbs⟩, issuer := ⟨((r₁.behind serial).behind alg).p, issuer⟩,
    not_before := nb, not_after := na,
    subject := ⟨((((r₁.behind serial).behind alg).behind issuer).behind validity).p, subject⟩,
    spki := spki,
    tail := ((((((r₁.behind serial).behind alg).behind issuer).behind validity).behind
      subject).behind spki),
    sig_alg_oid := oid, sig_bits := bits }, ?_, {
    tbs := ?_
    issuer := nameBytes_eq hissuer'
    subject := nameBytes_eq hsubject'
    not_before := rfl
    not_after := rfl
    key := must_ok hkey
    ext := ends_ok hext
    sig_alg := rfl
    signature := rfl
    cn := ends_ok hcn
    issuer_read := ⟨_, (expect_some hissuer').1⟩
    subject_read := ⟨_, (expect_some hsubject').1⟩ }⟩
  · exact bind_some (must_ok houter) <| bind_some (must_ok htbs) <| bind_some (must_ok hr₁) <|
      bind_some (must_ok hserial) <| bind_some (must_ok halg) <| bind_some hissuer' <|
      bind_some (must_ok hvalidity) <| bind_some (must_ok hnb) <| bind_some (must_ok hna) <|
      bind_some hsubject' <| bind_some (must_ok hspki) <|
      bind_some (must_ok hsig_alg) <| bind_some (must_ok hoid) <| bind_some (must_ok hbits) rfl
  · have hfits := tbs_fits (must_ok htbs) (must_ok hsig_alg) (must_ok hbits)
    show m.slice outer.value ((tbs.value - outer.value) + tbs.len).toNat
      = m.slice outer.value (tbs.size outer.value)
    unfold Tlv.size at hfits ⊢
    rw [UInt32.toNat_add, Nat.mod_eq_of_lt hfits]

/-! ## Extensions -/

def Ext.is (m : Mem) (x : Ext) (oid : List UInt8) : Prop := oidEquals m x.oid oid = true

/-- An element has one identifier. -/
theorem oid_unique {oid oid' : List UInt8} (h : oidEquals m t oid = true)
    (h' : oidEquals m t oid' = true) : oid = oid' := by
  obtain ⟨-, hlen, hval⟩ := of_decide_eq_true h
  obtain ⟨-, hlen', hval'⟩ := of_decide_eq_true h'
  rw [← hval, ← hval', ← hlen, ← hlen']

/-- **What is kept of some extensions.** The flag for what is not understood covers what cannot be
read of a keyUsage, but not one that has no value. -/
structure Kept (m : Mem) (P : Ext → Prop) (e : Extensions) : Prop where
  understood : e.has_unknown_critical = false → ∀ x, P x → x.critical = true →
    extUnderstood m x.oid = true
  no_usage : e.has_unknown_critical = false → e.has_key_usage = false → ∀ x, P x →
    x.is m oidKeyUsage → x.octet = none
  usage : e.has_key_usage = true → ∃ x octet, P x ∧ x.is m oidKeyUsage ∧ x.octet = some octet
    ∧ keyUsage m octet = some e.key_usage
  ca : e.is_ca = true → ∃ x octet, P x ∧ x.is m oidBasicConstraints ∧ x.octet = some octet
    ∧ caFlag m octet = some true
  no_san : e.has_unknown_critical = false → e.san_ext = none → ∀ x, P x →
    x.is m oidSubjectAltName → x.octet = none
  san : ∀ r, e.san_ext = some r → ∃ x octet, P x ∧ x.is m oidSubjectAltName
    ∧ x.octet = some octet ∧ r = octet.row

variable {P Q : Ext → Prop} {e e' : Extensions} {x : Ext}

theorem kept_start (m : Mem) : Kept m (fun _ => False) {} where
  understood _ _ h := h.elim
  no_usage _ _ _ h := h.elim
  usage h := nomatch h
  ca h := nomatch h
  no_san _ _ _ h := h.elim
  san _ h := nomatch h

/-- What cannot be read may hold anything. -/
theorem Kept.flag (h : Kept m P e) (hPQ : ∀ x, P x → Q x) :
    Kept m Q { e with has_unknown_critical := true } where
  understood hu := nomatch hu
  no_usage hu := nomatch hu
  usage hk := by
    obtain ⟨x, octet, hx, hrest⟩ := h.usage hk
    exact ⟨x, octet, hPQ x hx, hrest⟩
  ca hc := by
    obtain ⟨x, octet, hx, hrest⟩ := h.ca hc
    exact ⟨x, octet, hPQ x hx, hrest⟩
  no_san hu := nomatch hu
  san r hr := by
    obtain ⟨x, octet, hx, hrest⟩ := h.san r hr
    exact ⟨x, octet, hPQ x hx, hrest⟩

/-- One extension more, of which this is kept. -/
theorem Kept.grow (h : Kept m P e)
    (hu : e'.has_unknown_critical = false → e.has_unknown_critical = false
      ∧ (x.critical = true → extUnderstood m x.oid = true))
    (hk : (e'.has_key_usage = e.has_key_usage ∧ e'.key_usage = e.key_usage
        ∧ (e'.has_unknown_critical = false → x.is m oidKeyUsage → x.octet = none))
      ∨ (e'.has_key_usage = true ∧ x.is m oidKeyUsage ∧ ∃ octet, x.octet = some octet
        ∧ keyUsage m octet = some e'.key_usage))
    (hc : e'.is_ca = e.is_ca ∨ (e'.is_ca = true → x.is m oidBasicConstraints ∧ ∃ octet,
      x.octet = some octet ∧ caFlag m octet = some true))
    (hs : (e'.san_ext = e.san_ext ∧ (x.is m oidSubjectAltName → x.octet = none))
      ∨ (x.is m oidSubjectAltName ∧ ∃ octet, x.octet = some octet
        ∧ e'.san_ext = some octet.row)) :
    Kept m (fun y => P y ∨ y = x) e' where
  understood hu' y hy hcrit := by
    obtain ⟨hold, hnew⟩ := hu hu'
    obtain hy | rfl := hy
    · exact h.understood hold y hy hcrit
    · exact hnew hcrit
  no_usage hu' hno y hy hku := by
    obtain ⟨hhas, -, hnew⟩ | ⟨htrue, -⟩ := hk
    · obtain hy | rfl := hy
      · exact h.no_usage (hu hu').1 (hhas ▸ hno) y hy hku
      · exact hnew hu' hku
    · rw [htrue] at hno
      exact nomatch hno
  usage hhas := by
    obtain ⟨hsame, hbits, -⟩ | ⟨-, hku, octet, hoctet, hval⟩ := hk
    · obtain ⟨y, octet, hy, hku, hoctet, hval⟩ := h.usage (hsame ▸ hhas)
      exact ⟨y, octet, .inl hy, hku, hoctet, by rw [hbits]; exact hval⟩
    · exact ⟨x, octet, .inr rfl, hku, hoctet, hval⟩
  ca hca := by
    obtain hsame | hnew := hc
    · obtain ⟨y, octet, hy, hrest⟩ := h.ca (hsame ▸ hca)
      exact ⟨y, octet, .inl hy, hrest⟩
    · obtain ⟨hbc, octet, hrest⟩ := hnew hca
      exact ⟨x, octet, .inr rfl, hbc, hrest⟩
  no_san hu' hno y hy hsan := by
    obtain ⟨hsame, hnew⟩ | ⟨-, octet, -, hsome⟩ := hs
    · obtain hy | rfl := hy
      · exact h.no_san (hu hu').1 (hsame ▸ hno) y hy hsan
      · exact hnew hsan
    · rw [hsome] at hno
      exact nomatch hno
  san r hr := by
    obtain ⟨hsame, -⟩ | ⟨hsan, octet, hoctet, hsome⟩ := hs
    · obtain ⟨y, octet, hy, hrest⟩ := h.san r (hsame ▸ hr)
      exact ⟨y, octet, .inl hy, hrest⟩
    · rw [hsome] at hr
      exact ⟨x, octet, .inr rfl, hsan, hoctet, (Option.some.inj hr).symm⟩

/-- **An extension is kept.** -/
theorem Kept.apply (h : Kept m P e) (x : Ext) :
    Kept m (fun y => P y ∨ y = x) (applyExt m x e) := by
  obtain ⟨e₁, he₁⟩ : ∃ e₁, (if x.critical = true ∧ ¬ extUnderstood m x.oid = true then
      { e with has_unknown_critical := true } else e) = e₁ := ⟨_, rfl⟩
  have hu : e₁.has_unknown_critical = false → e.has_unknown_critical = false
      ∧ (x.critical = true → extUnderstood m x.oid = true) := fun hfalse => by
    rw [← he₁] at hfalse
    split at hfalse
    · exact nomatch hfalse
    · next hcrit => exact ⟨hfalse, fun hc => not_not.mp fun hno => hcrit ⟨hc, hno⟩⟩
  have hsame : e₁.has_key_usage = e.has_key_usage ∧ e₁.key_usage = e.key_usage
      ∧ e₁.is_ca = e.is_ca ∧ e₁.san_ext = e.san_ext := by
    rw [← he₁]
    split <;> exact ⟨rfl, rfl, rfl, rfl⟩
  obtain ⟨hhas, hbits, hca, hsan⟩ := hsame
  -- an extension of one kind is not of another
  have hother : ∀ {oid oid' : List UInt8}, x.is m oid → oid ≠ oid' → x.is m oid' →
      x.octet = none := fun h hne h' => absurd (oid_unique h h') hne
  unfold applyExt
  dsimp only
  rw [he₁]
  cases hoctet : x.octet with
  | none =>
    exact h.grow hu (.inl ⟨hhas, hbits, fun _ _ => hoctet⟩) (.inl hca)
      (.inl ⟨hsan, fun _ => hoctet⟩)
  | some octet =>
    dsimp only
    by_cases his : oidEquals m x.oid oidSubjectAltName = true
    · rw [if_pos his]
      exact h.grow hu (.inl ⟨hhas, hbits, fun _ => hother his (by decide)⟩) (.inl hca)
        (.inr ⟨his, octet, hoctet, rfl⟩)
    rw [if_neg his]
    have hno : x.is m oidSubjectAltName → x.octet = none := fun h' => absurd h' his
    by_cases hik : oidEquals m x.oid oidKeyUsage = true
    · rw [if_pos hik]
      cases hku : keyUsage m octet with
      | some ku =>
        exact h.grow hu (.inr ⟨rfl, hik, octet, hoctet, hku⟩) (.inl hca) (.inl ⟨hsan, hno⟩)
      | none =>
        exact h.grow (fun hf => nomatch hf) (.inl ⟨hhas, hbits, fun hf => nomatch hf⟩) (.inl hca)
          (.inl ⟨hsan, hno⟩)
    rw [if_neg hik]
    have hnoku : e₁.has_unknown_critical = false → x.is m oidKeyUsage → x.octet = none :=
      fun _ h' => absurd h' hik
    by_cases hib : oidEquals m x.oid oidBasicConstraints = true
    · rw [if_pos hib]
      cases hflag : caFlag m octet with
      | some ca =>
        refine h.grow hu (.inl ⟨hhas, hbits, hnoku⟩) (.inr fun htrue => ⟨hib, octet, hoctet, ?_⟩)
          (.inl ⟨hsan, hno⟩)
        rw [hflag, show ca = true from htrue]
      | none => exact h.grow hu (.inl ⟨hhas, hbits, hnoku⟩) (.inl hca) (.inl ⟨hsan, hno⟩)
    · rw [if_neg hib]
      exact h.grow hu (.inl ⟨hhas, hbits, hnoku⟩) (.inl hca) (.inl ⟨hsan, hno⟩)

theorem Kept.congr (h : Kept m P e) (hPQ : ∀ x, P x ↔ Q x) : Kept m Q e := by
  rw [show P = Q from funext fun x => propext (hPQ x)] at h
  exact h

/-- An extension of a row of them. -/
def ExtIn (m : Mem) (r : Row) (x : Ext) : Prop :=
  ∃ t, InRow m r t ∧ t.tag = tagSequence ∧ readExt m t = some x

/-- **A row of extensions is kept.** -/
theorem Kept.row : ∀ {fuel : Nat} {r : Row} {P : Ext → Prop} {e e' : Extensions}, Kept m P e →
    parseExtensions m fuel r e = some e' → Kept m (fun x => P x ∨ ExtIn m r x) e'
  | 0, _, _, _, _, _, hp => nomatch hp
  | fuel + 1, r, P, e, e', h, hp => by
    unfold parseExtensions at hp
    split at hp
    · next hempty =>
      obtain rfl := Option.some.inj hp
      exact h.congr fun x => ⟨.inl, fun hx => hx.elim id fun ⟨t, ht, _⟩ =>
        (inRow_empty hempty ht).elim⟩
    split at hp
    · obtain rfl := Option.some.inj hp
      exact h.flag fun _ => .inl
    next t ht =>
    obtain ⟨hparse, htag⟩ := expect_some ht
    split at hp
    · obtain rfl := Option.some.inj hp
      exact h.flag fun _ => .inl
    next x hx =>
    refine ((h.apply x).row hp).congr fun y => ?_
    have hin : ∀ u, InRow m r u ↔ u = t ∨ InRow m (r.behind t) u := fun u => inRow_cons hparse
    constructor
    · rintro ((hy | rfl) | ⟨u, hu, hrest⟩)
      · exact .inl hy
      · exact .inr ⟨t, (hin t).mpr (.inl rfl), htag, hx⟩
      · exact .inr ⟨u, (hin u).mpr (.inr hu), hrest⟩
    · rintro (hy | ⟨u, hu, hrest⟩)
      · exact .inl (.inl hy)
      · obtain rfl | hu := (hin u).mp hu
        · rw [hx] at hrest
          exact .inl (.inr (Option.some.inj hrest.2).symm)
        · exact .inr ⟨u, hu, hrest⟩

/-- An extension of what is behind the key: it is in the SEQUENCE that an element `[3]` holds. -/
def ExtBehind (m : Mem) (r : Row) (x : Ext) : Prop :=
  ∃ t exts, InRow m r t ∧ t.tag = tagContext 3 ∧ t.row.expect m tagSequence = some exts
    ∧ ExtIn m exts.row x

theorem Kept.tail : ∀ {fuel : Nat} {r : Row} {P : Ext → Prop} {e e' : Extensions}, Kept m P e →
    parseTail m fuel r e = some e' → Kept m (fun x => P x ∨ ExtBehind m r x) e'
  | 0, _, _, _, _, _, hp => nomatch hp
  | fuel + 1, r, P, e, e', h, hp => by
    unfold parseTail at hp
    split at hp
    · next hempty =>
      obtain rfl := Option.some.inj hp
      exact h.congr fun x => ⟨.inl, fun hx => hx.elim id fun ⟨t, _, ht, _⟩ =>
        (inRow_empty hempty ht).elim⟩
    split at hp
    · next hnone =>
      obtain rfl := Option.some.inj hp
      exact h.congr fun x => ⟨.inl, fun hx => hx.elim id fun ⟨t, _, ht, _⟩ =>
        (inRow_none hnone ht).elim⟩
    next t ht =>
    have hin : ∀ u, InRow m r u ↔ u = t ∨ InRow m (r.behind t) u := fun u => inRow_cons ht
    obtain ⟨e₁, he₁, hp⟩ := Option.bind_eq_some_iff.mp hp
    obtain ⟨o, ho⟩ : ∃ o, (if t.tag = tagContext 3 then t.row.expect m tagSequence else none) = o :=
      ⟨_, rfl⟩
    rw [ho] at he₁
    cases o with
    | none =>
      obtain rfl := Option.some.inj he₁
      refine (h.tail hp).congr fun x => or_congr_right ⟨?_, ?_⟩
      · rintro ⟨u, exts, hu, hrest⟩
        exact ⟨u, exts, (hin u).mpr (.inr hu), hrest⟩
      · rintro ⟨u, exts, hu, htag, hexts, hx⟩
        obtain rfl | hu := (hin u).mp hu
        · rw [if_pos htag, hexts] at ho
          exact nomatch ho
        · exact ⟨u, exts, hu, htag, hexts, hx⟩
    | some exts =>
      have htag : t.tag = tagContext 3 := by
        by_contra hne
        rw [if_neg hne] at ho
        exact nomatch ho
      rw [if_pos htag] at ho
      refine ((h.row he₁).tail hp).congr fun x => ⟨?_, ?_⟩
      · rintro ((hx | hx) | ⟨u, exts', hu, hrest⟩)
        · exact .inl hx
        · exact .inr ⟨t, exts, (hin t).mpr (.inl rfl), htag, ho, hx⟩
        · exact .inr ⟨u, exts', (hin u).mpr (.inr hu), hrest⟩
      · rintro (hx | ⟨u, exts', hu, htag', hexts, hx⟩)
        · exact .inl (.inl hx)
        · obtain rfl | hu := (hin u).mp hu
          · rw [ho] at hexts
            obtain rfl := Option.some.inj hexts
            exact .inl (.inr hx)
          · exact .inr ⟨u, exts', hu, htag', hexts, hx⟩

/-- **The extensions of the certificate.** -/
def Shape.Has (m : Mem) (s : Shape) (x : Ext) : Prop := ExtBehind m s.tail x

theorem Stored.kept (h : Stored fuel m s c) : Kept m (s.Has m) c.ext :=
  ((kept_start m).tail h.ext).congr fun _ => ⟨fun hx => hx.elim False.elim id, .inr⟩

end X509
