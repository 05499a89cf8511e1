import MiniWin.Net.X509Read
import MiniWin.Net.X509Safe

/-!
# X.509: do the extensions fail closed?

What a certificate says behind its key, read strictly: elements up to the end, in each `[3]` one
SEQUENCE of extensions, and each extension an identifier, a flag that may be missing and a value.
`FailClosed` is that all of it is there and is understood, and `x509_parse` sees to some of it: to
the end of a row of extensions, to the critical ones, to a keyUsage with a value.

The rest it passes over in silence. It leaves the elements behind the key where one cannot be read,
it leaves out a `[3]` that holds no SEQUENCE and what is behind the SEQUENCE in one that does. An
extension may have anything for its identifier, no value at all, or more behind its value. A
basicConstraints that cannot be read says nothing, and of two extensions of one kind the last one
counts. `Regular` is that a certificate has none of that.
-/

namespace X509

open Asn1 Tls Pkcs1

/-- **A row that is read to its end**, every element in its place. -/
inductive Tiles (m : Mem) : Row → List Tlv → Prop where
  | nil {r : Row} (h : r.remaining = 0) : Tiles m r []
  | cons {r : Row} {t : Tlv} {ts : List Tlv} (h : r.parse m = some t) (hin : Inside r t)
      (hs : Tiles m (r.behind t) ts) : Tiles m r (t :: ts)

/-- **An extension as it should be written**: its identifier, the flag, and its value. -/
structure Parts (m : Mem) (x oid : Tlv) (flag : Option Tlv) (octet : Tlv) : Prop where
  tiles : Tiles m x.row (oid :: (flag.toList ++ [octet]))
  oid_tag : oid.tag = tagOid
  flag_tag : ∀ b, flag = some b → b.tag = 0x01
  octet_tag : octet.tag = tagOctetString

/-- The CA flag of a basicConstraints, which is `FALSE` where it is not written. -/
def basicCa (m : Mem) (octet : Tlv) : Option Bool :=
  match octet.row.expect m tagSequence with
  | none => none
  | some bc =>
    if bc.len = 0 then some false
    else (bc.row.parse m).map fun ca => ca.tag = 0x01 ∧ isTrue m ca

/-- The bytes of a row. -/
def rowBytes (m : Mem) (r : Row) : List UInt8 := m.slice r.p r.remaining.toNat

/-- **An extension is understood**: a critical one is of those that are known, and the value of each
of the three that are used is what is kept. -/
structure Decoded (m : Mem) (c : Cert) (oid : Tlv) (flag : Option Tlv) (octet : Tlv) : Prop where
  critical : (∃ b, flag = some b ∧ isTrue m b = true) → extUnderstood m oid = true
  san : oidEquals m oid oidSubjectAltName = true →
    c.ext.san_ext.map (rowBytes m) = some (rowBytes m octet.row)
  usage : oidEquals m oid oidKeyUsage = true →
    c.ext.has_key_usage = true ∧ keyUsage m octet = some c.ext.key_usage
  ca : oidEquals m oid oidBasicConstraints = true → basicCa m octet = some c.ext.is_ca

/-- What is behind the key is read to its end, and understood. -/
def Understood (m : Mem) (s : Shape) (c : Cert) : Prop :=
  ∃ ts, Tiles m s.tail ts ∧ ∀ t ∈ ts, t.tag = tagContext 3 →
    ∃ exts xs, Tiles m t.row [exts] ∧ exts.tag = tagSequence ∧ Tiles m exts.row xs
      ∧ ∀ x ∈ xs, x.tag = tagSequence
        ∧ ∃ oid flag octet, Parts m x oid flag octet ∧ Decoded m c oid flag octet

/-- The value of an extension that the certificate has, by its identifier. -/
def Carries (m : Mem) (s : Shape) (id : List UInt8) (octet : Tlv) : Prop :=
  ∃ t exts x oid flag, InRow m s.tail t ∧ t.tag = tagContext 3 ∧ Tiles m t.row [exts]
    ∧ InRow m exts.row x ∧ Parts m x oid flag octet ∧ oidEquals m oid id = true

/-- **The extensions fail closed**: they are read and understood, and the common name says nothing
of a certificate that has a subjectAltName. -/
structure FailClosed (m : Mem) (s : Shape) (c : Cert) : Prop where
  understood : Understood m s c
  no_fallback : ∀ octet, Carries m s oidSubjectAltName octet → ∀ fuel host cn,
    matchesHostname fuel m { c with cn := cn } host = matchesHostname fuel m c host

/-- **Nothing is there for the parser to pass over.** -/
structure Regular (m : Mem) (s : Shape) : Prop where
  /-- Behind the key are elements up to the end. -/
  tail : ∃ ts, Tiles m s.tail ts
  /-- A `[3]` holds one SEQUENCE and nothing else. -/
  one : ∀ t, InRow m s.tail t → t.tag = tagContext 3 →
    ∃ exts, Tiles m t.row [exts] ∧ exts.tag = tagSequence
  /-- What is in the SEQUENCE has the parts of an extension. -/
  parts : ∀ t exts x, InRow m s.tail t → t.tag = tagContext 3 → Tiles m t.row [exts] →
    InRow m exts.row x → ∃ oid flag octet, Parts m x oid flag octet
  /-- Two extensions of one kind say the same, and a basicConstraints can be read. -/
  san : ∀ o o', Carries m s oidSubjectAltName o → Carries m s oidSubjectAltName o' →
    rowBytes m o.row = rowBytes m o'.row
  usage : ∀ o o', Carries m s oidKeyUsage o → Carries m s oidKeyUsage o' →
    keyUsage m o = keyUsage m o'
  ca : ∃ b, ∀ o, Carries m s oidBasicConstraints o → basicCa m o = some b

variable {m : Mem} {r : Row} {s : Shape} {c : Cert} {t t' : Tlv} {ts ts' : List Tlv} {fuel : Nat}
  {e e' : Extensions}

/-! ## Rows -/

theorem Tiles.inRow (h : Tiles m r ts) : InRow m r t ↔ t ∈ ts := by
  induction h with
  | nil h => exact iff_of_false (inRow_empty h) List.not_mem_nil
  | cons h _ _ ih => rw [inRow_cons h, ih, List.mem_cons]

theorem Tiles.unique (h : Tiles m r ts) (h' : Tiles m r ts') : ts = ts' := by
  induction h generalizing ts' with
  | nil h =>
    cases h' with
    | nil => rfl
    | cons hp => exact absurd (InRow.here hp) (inRow_empty h)
  | cons h _ _ ih =>
    cases h' with
    | nil h' => exact absurd (InRow.here h) (inRow_empty h')
    | cons hp _ hs' =>
      obtain rfl := Option.some.inj (h.symm.trans hp)
      rw [ih hs']

/-- The first element of a row. -/
theorem Tiles.head (h : Tiles m r (t :: ts)) : r.parse m = some t ∧ Tiles m (r.behind t) ts := by
  cases h with
  | cons h _ hs => exact ⟨h, hs⟩

theorem expect_of_parse {tag : UInt8} (h : r.parse m = some t) (htag : t.tag = tag) :
    r.expect m tag = some t :=
  Option.filter_eq_some_iff.2 ⟨h, decide_eq_true htag⟩

/-! ## One extension -/

/-- What `x509_parse_extensions` reads of an extension that is as it should be. -/
theorem Parts.readExt {x oid octet : Tlv} {flag : Option Tlv} (h : Parts m x oid flag octet) :
    ∃ critical, readExt m x = some { oid := oid, critical := critical, octet := some octet }
      ∧ (critical = true ↔ ∃ b, flag = some b ∧ isTrue m b = true) := by
  obtain ⟨htiles, -, hflag, hoctet⟩ := h
  obtain ⟨hoid, hrest⟩ := htiles.head
  unfold X509.readExt
  rw [hoid, Option.map_some]
  cases flag with
  | none =>
    obtain ⟨hp, -⟩ := hrest.head
    have hno : ((x.row.behind oid).parse m).filter (·.tag = 0x01) = none := by
      rw [hp, Option.filter_some, hoctet]
      rfl
    refine ⟨false, ?_, iff_of_false Bool.false_ne_true fun ⟨_, hb, _⟩ => nomatch hb⟩
    dsimp only
    rw [hno, expect_of_parse hp hoctet]
  | some b =>
    obtain ⟨hp, hrest⟩ := hrest.head
    obtain ⟨hp', -⟩ := hrest.head
    have hb : ((x.row.behind oid).parse m).filter (·.tag = 0x01) = some b :=
      expect_of_parse hp (hflag b rfl)
    refine ⟨isTrue m b, ?_, ?_⟩
    · dsimp only
      rw [hb]
      dsimp only
      rw [expect_of_parse hp' hoctet]
    · exact ⟨fun htrue => ⟨b, rfl, htrue⟩, fun ⟨_, hb, htrue⟩ => Option.some.inj hb ▸ htrue⟩

/-- An extension is read in one way. -/
theorem Parts.unique {x oid oid' octet octet' : Tlv} {flag flag' : Option Tlv}
    (h : Parts m x oid flag octet) (h' : Parts m x oid' flag' octet') :
    oid = oid' ∧ flag = flag' ∧ octet = octet' := by
  obtain ⟨hoid, hrest⟩ := List.cons.inj (h.tiles.unique h'.tiles)
  refine ⟨hoid, ?_⟩
  cases flag with
  | none =>
    cases flag' with
    | none => exact ⟨rfl, List.head_eq_of_cons_eq hrest⟩
    | some b' => exact nomatch (List.cons.inj hrest).2
  | some b =>
    cases flag' with
    | none => exact nomatch (List.cons.inj hrest).2
    | some b' =>
      obtain ⟨hb, hoctet⟩ := List.cons.inj hrest
      exact ⟨congrArg some hb, List.head_eq_of_cons_eq hoctet⟩

/-! ## What is kept -/

/-- What the extensions leave, one after another. -/
def applied (m : Mem) (l : List Ext) (e : Extensions) : Extensions :=
  l.foldl (fun e x => applyExt m x e) e

/-- The flag stays. -/
theorem applyExt_flag {x : Ext} (h : (applyExt m x e).has_unknown_critical = false) :
    e.has_unknown_critical = false ∧ (x.critical = true → extUnderstood m x.oid = true)
      ∧ ∀ octet, x.octet = some octet → oidEquals m x.oid oidKeyUsage = true →
        keyUsage m octet ≠ none := by
  unfold applyExt at h
  dsimp only at h
  generalize he₁ : (if x.critical = true ∧ ¬ extUnderstood m x.oid = true then
    { e with has_unknown_critical := true } else e) = e₁ at h
  have hmark : e₁.has_unknown_critical = false → e.has_unknown_critical = false
      ∧ (x.critical = true → extUnderstood m x.oid = true) := fun hfalse => by
    rw [← he₁] at hfalse
    split at hfalse
    · exact nomatch hfalse
    · next hcrit => exact ⟨hfalse, fun hc => not_not.mp fun hno => hcrit ⟨hc, hno⟩⟩
  cases hoctet : x.octet with
  | none =>
    rw [hoctet] at h
    exact ⟨(hmark h).1, (hmark h).2, nofun⟩
  | some octet =>
    rw [hoctet] at h
    dsimp only at h
    by_cases hsan : oidEquals m x.oid oidSubjectAltName = true
    · rw [if_pos hsan] at h
      exact ⟨(hmark h).1, (hmark h).2, fun _ _ hku => absurd (oid_unique hsan hku) (by decide)⟩
    rw [if_neg hsan] at h
    by_cases hku : oidEquals m x.oid oidKeyUsage = true
    · rw [if_pos hku] at h
      cases hval : keyUsage m octet with
      | none =>
        rw [hval] at h
        exact nomatch h
      | some ku =>
        rw [hval] at h
        refine ⟨(hmark h).1, (hmark h).2, fun o ho _ => ?_⟩
        rw [← Option.some.inj ho, hval]
        exact Option.some_ne_none ku
    rw [if_neg hku] at h
    have hrest : e₁.has_unknown_critical = false := by
      split at h
      · split at h
        · exact h
        · exact h
      · exact h
    exact ⟨(hmark hrest).1, (hmark hrest).2, fun _ _ hno => absurd hno hku⟩

/-- The flag is no other field. -/
theorem mark_fields (p : Prop) [Decidable p] (e : Extensions) :
    (if p then { e with has_unknown_critical := true } else e).san_ext = e.san_ext
      ∧ (if p then { e with has_unknown_critical := true } else e).is_ca = e.is_ca
      ∧ ((if p then { e with has_unknown_critical := true } else e).has_key_usage,
          (if p then { e with has_unknown_critical := true } else e).key_usage)
        = (e.has_key_usage, e.key_usage) := by
  split <;> exact ⟨rfl, rfl, rfl⟩

/-- The fields that an extension with a value sets. -/
theorem applyExt_san {x : Ext} {octet : Tlv} (ho : x.octet = some octet) (e : Extensions) :
    (applyExt m x e).san_ext
      = if oidEquals m x.oid oidSubjectAltName = true then some octet.row else e.san_ext := by
  obtain ⟨hmark, -, -⟩ := mark_fields (x.critical = true ∧ ¬ extUnderstood m x.oid = true) e
  unfold applyExt
  rw [ho]
  dsimp only
  split
  · rfl
  · split
    · split <;> exact hmark
    · split
      · split <;> exact hmark
      · exact hmark

theorem applyExt_usage {x : Ext} {octet : Tlv} {u : UInt16} (ho : x.octet = some octet)
    (hval : oidEquals m x.oid oidKeyUsage = true → keyUsage m octet = some u) (e : Extensions) :
    ((applyExt m x e).has_key_usage, (applyExt m x e).key_usage)
      = if oidEquals m x.oid oidKeyUsage = true then (true, u)
        else (e.has_key_usage, e.key_usage) := by
  obtain ⟨-, -, hmark⟩ := mark_fields (x.critical = true ∧ ¬ extUnderstood m x.oid = true) e
  unfold applyExt
  rw [ho]
  dsimp only
  by_cases hku : oidEquals m x.oid oidKeyUsage = true
  · rw [if_neg fun hsan => absurd (oid_unique hku hsan) (by decide), if_pos hku, if_pos hku,
      hval hku]
  · rw [if_neg hku, if_neg hku]
    split
    · exact hmark
    · split
      · split <;> exact hmark
      · exact hmark

theorem applyExt_ca {x : Ext} {octet : Tlv} (ho : x.octet = some octet) (e : Extensions) :
    (applyExt m x e).is_ca
      = if oidEquals m x.oid oidBasicConstraints = true then (caFlag m octet).getD e.is_ca
        else e.is_ca := by
  obtain ⟨-, hmark, -⟩ := mark_fields (x.critical = true ∧ ¬ extUnderstood m x.oid = true) e
  unfold applyExt
  rw [ho]
  dsimp only
  by_cases hbc : oidEquals m x.oid oidBasicConstraints = true
  · rw [if_neg fun hsan => absurd (oid_unique hbc hsan) (by decide),
      if_neg fun hku => absurd (oid_unique hbc hku) (by decide), if_pos hbc, if_pos hbc]
    cases caFlag m octet with
    | none => exact hmark
    | some b => rfl
  · rw [if_neg hbc, if_neg hbc]
    split
    · exact hmark
    · split
      · split <;> exact hmark
      · exact hmark

/-- The flag that is read of a basicConstraints, and the one that it says. -/
theorem caFlag_of_basicCa {octet : Tlv} {b : Bool} (h : basicCa m octet = some b) :
    (caFlag m octet).getD false = b := by
  unfold basicCa at h
  unfold caFlag
  cases hbc : octet.row.expect m tagSequence with
  | none =>
    rw [hbc] at h
    exact nomatch h
  | some bc =>
    rw [hbc] at h
    dsimp only [Option.bind_eq_bind, Option.bind_some] at h ⊢
    split at h
    · next hempty =>
      rw [← Option.some.inj h]
      have hnone : bc.row.parse m = none := by
        unfold Row.parse Asn1.parseTlv
        exact if_pos (show bc.len < 2 by rw [hempty]; decide)
      rw [hnone]
      rfl
    · obtain ⟨ca, hca, rfl⟩ := Option.map_eq_some_iff.1 h
      rw [hca, Option.bind_some]
      by_cases htag : ca.tag = 0x01
      · rw [if_pos htag]
        simp [htag]
      · rw [if_neg htag]
        simp [htag]

theorem applied_flag {l : List Ext} (h : (applied m l e).has_unknown_critical = false) :
    e.has_unknown_critical = false ∧ ∀ x ∈ l, (x.critical = true → extUnderstood m x.oid = true)
      ∧ ∀ octet, x.octet = some octet → oidEquals m x.oid oidKeyUsage = true →
        keyUsage m octet ≠ none := by
  induction l generalizing e with
  | nil => exact ⟨h, nofun⟩
  | cons x l ih =>
    obtain ⟨hx, hl⟩ := ih h
    obtain ⟨he, hflag⟩ := applyExt_flag hx
    exact ⟨he, List.forall_mem_cons.2 ⟨hflag, hl⟩⟩

/-- A field that every extension of some kind sets alike, and no other extension sets. -/
theorem applied_field {β : Type} (f : Extensions → β) (v : β) (K : Ext → Prop) {l : List Ext}
    (hset : ∀ x ∈ l, ∀ e, K x → f (applyExt m x e) = v)
    (hkeep : ∀ x ∈ l, ∀ e, ¬ K x → f (applyExt m x e) = f e) :
    (∃ x ∈ l, K x) ∨ f e = v → f (applied m l e) = v := by
  induction l generalizing e with
  | nil => exact fun h => h.resolve_left fun ⟨_, hx, _⟩ => nomatch hx
  | cons x l ih =>
    have ih' := ih (e := applyExt m x e) (fun y hy => hset y (List.mem_cons_of_mem _ hy))
      fun y hy => hkeep y (List.mem_cons_of_mem _ hy)
    intro h
    refine ih' ?_
    by_cases hK : K x
    · exact .inr (hset x List.mem_cons_self e hK)
    · obtain ⟨y, hy, hKy⟩ | h := h
      · obtain rfl | hy := List.mem_cons.1 hy
        · exact absurd hKy hK
        · exact .inl ⟨y, hy, hKy⟩
      · exact .inr ((hkeep x List.mem_cons_self e hK).trans h)

/-! ## The loops -/

/-- An element whose length goes round is not in front of a row that is read to its end, if that is
a row of SEQUENCEs. -/
theorem elem_of_tiles (h : r.parse m = some t) (hs : Tiles m (r.behind t) ts)
    (htags : ∀ x ∈ ts, x.tag = tagSequence) : Elem r t := by
  refine elem_of_size h (Nat.lt_of_not_le fun hround => ?_)
  obtain ⟨h₁, -, -, -, h₅⟩ := parseTlv_round h hround
  have hsix : 6 ≤ r.remaining.toNat := long_le h h₁
  have hbyte := (m (r.p + 5)).toNat_lt
  have hle : (t.next - r.p).toNat ≤ r.remaining.toNat := by omega
  have hrem : (r.behind t).remaining.toNat = r.remaining.toNat - (t.next - r.p).toNat :=
    UInt32.toNat_sub_of_le _ _ (UInt32.le_iff_toNat_le.2 hle)
  cases hs with
  | nil hempty =>
    rw [hempty] at hrem
    change 0 = _ at hrem
    omega
  | @cons _ y _ hy hin _ =>
    obtain hnext | hnext := parseTlv_round_next h hround
    · -- the row behind it is the row itself
      have hsame : r.behind t = r := by
        unfold Row.behind
        rw [hnext, UInt32.sub_self, UInt32.sub_zero]
      rw [hsame] at hy hin
      obtain rfl := Option.some.inj (h.symm.trans hy)
      have hpos := hin.next_pos
      rw [hnext, UInt32.sub_self] at hpos
      exact absurd hpos (by decide)
    · have htag : m t.next = tagSequence := by
        rw [← htags y List.mem_cons_self, (parseTlv_next hy).1]
        rfl
      rw [htag] at hnext
      exact absurd hnext (by decide)

/-- **A row of extensions is read to its end**, or flagged: an element whose length goes round is
followed by nothing that could be an extension, but for itself. -/
theorem parseExtensions_reads (h : parseExtensions m fuel r e = some e')
    (hflag : e'.has_unknown_critical = false) :
    ∃ xs l, Tiles m r xs ∧ (∀ x ∈ xs, x.tag = tagSequence)
      ∧ List.Forall₂ (fun x ext => readExt m x = some ext) xs l ∧ e' = applied m l e := by
  induction fuel generalizing r e with
  | zero => cases h
  | succ fuel ih =>
    unfold parseExtensions at h
    split at h
    · next hempty =>
      exact ⟨[], [], .nil hempty, List.forall_mem_nil _, .nil, (Option.some.inj h).symm⟩
    split at h
    · rw [← Option.some.inj h] at hflag
      cases hflag
    next x hx =>
    obtain ⟨hp, htag⟩ := expect_some hx
    split at h
    · rw [← Option.some.inj h] at hflag
      cases hflag
    next ext hext =>
    obtain ⟨xs, l, htiles, htags, hall, happ⟩ := ih h
    exact ⟨x :: xs, ext :: l, .cons hp (elem_of_tiles hp htiles htags).toInside htiles,
      List.forall_mem_cons.2 ⟨htag, htags⟩, .cons hext hall, happ⟩

/-- An extension of an element behind the key. -/
def ExtHere (m : Mem) (t : Tlv) (x : Ext) : Prop :=
  t.tag = tagContext 3 ∧ ∃ exts xs, t.row.expect m tagSequence = some exts
    ∧ Tiles m exts.row xs ∧ ∃ y ∈ xs, readExt m y = some x

/-- The extensions of an element are those of its SEQUENCE, in their order. -/
theorem mem_iff_extHere {exts : Tlv} {xs : List Tlv} {l : List Ext} {x : Ext}
    (htag : t.tag = tagContext 3) (hexts : t.row.expect m tagSequence = some exts)
    (htiles : Tiles m exts.row xs) (hall : List.Forall₂ (fun y x => readExt m y = some x) xs l) :
    x ∈ l ↔ ExtHere m t x := by
  have hmem : x ∈ l ↔ ∃ y ∈ xs, readExt m y = some x := by
    clear htiles
    induction hall with
    | nil => exact iff_of_false List.not_mem_nil fun ⟨_, hy, _⟩ => nomatch hy
    | @cons y z ys zs hyz _ ih =>
      rw [List.mem_cons, ih, List.exists_mem_cons_iff, hyz, Option.some_inj, eq_comm]
  rw [hmem]
  constructor
  · exact fun h => ⟨htag, exts, xs, hexts, htiles, h⟩
  · rintro ⟨-, exts', xs', hexts', htiles', h⟩
    obtain rfl := Option.some.inj (hexts.symm.trans hexts')
    rwa [htiles.unique htiles']

/-- **What is behind the key is read**, where it is elements and each `[3]` holds a SEQUENCE. -/
theorem parseTail_reads (hts : Tiles m r ts) (h : parseTail m fuel r e = some e')
    (hflag : e'.has_unknown_critical = false) :
    ∃ l, e' = applied m l e ∧ (∀ x, x ∈ l ↔ ∃ t ∈ ts, ExtHere m t x)
      ∧ ∀ t ∈ ts, t.tag = tagContext 3 → ∀ exts, t.row.expect m tagSequence = some exts →
        ∃ xs, Tiles m exts.row xs ∧ ∀ y ∈ xs, y.tag = tagSequence := by
  induction hts generalizing fuel e with
  | nil hempty =>
    cases fuel with
    | zero => cases h
    | succ fuel =>
      unfold parseTail at h
      rw [if_pos hempty] at h
      refine ⟨[], (Option.some.inj h).symm, fun x => ?_, List.forall_mem_nil _⟩
      exact iff_of_false List.not_mem_nil (by rintro ⟨_, ⟨⟩, _⟩)
  | @cons r t ts hp hin hts ih =>
    cases fuel with
    | zero => cases h
    | succ fuel =>
      unfold parseTail at h
      rw [if_neg fun hempty => inRow_empty hempty (.here hp), hp] at h
      obtain ⟨e₁, he₁, h⟩ := Option.bind_eq_some_iff.mp h
      obtain ⟨l', rfl, hmem, hrows⟩ := ih h
      obtain ⟨o, ho⟩ :
        ∃ o, (if t.tag = tagContext 3 then t.row.expect m tagSequence else none) = o := ⟨_, rfl⟩
      rw [ho] at he₁
      cases o with
      | none =>
        obtain rfl := Option.some.inj he₁
        have hno : t.tag = tagContext 3 → t.row.expect m tagSequence = none := fun htag => by
          rwa [if_pos htag] at ho
        refine ⟨l', rfl, fun x => (hmem x).trans ?_, ?_⟩
        · rw [List.exists_mem_cons_iff]
          refine (or_iff_right ?_).symm
          rintro ⟨htag, exts, xs, hexts, -⟩
          rw [hno htag] at hexts
          cases hexts
        · refine List.forall_mem_cons.2 ⟨fun htag exts hexts => ?_, hrows⟩
          rw [hno htag] at hexts
          cases hexts
      | some exts =>
        have htag : t.tag = tagContext 3 := by
          by_contra hne
          rw [if_neg hne] at ho
          cases ho
        rw [if_pos htag] at ho
        obtain ⟨xs, l, htiles, htags, hall, rfl⟩ :=
          parseExtensions_reads he₁ (applied_flag hflag).1
        refine ⟨l ++ l', (List.foldl_append ..).symm, fun x => ?_, ?_⟩
        · rw [List.mem_append, List.exists_mem_cons_iff, hmem, mem_iff_extHere htag ho htiles hall]
        · refine List.forall_mem_cons.2 ⟨fun _ exts' hexts => ?_, hrows⟩
          obtain rfl := Option.some.inj (ho.symm.trans hexts)
          exact ⟨xs, htiles, htags⟩

/-! ## What the certificate carries -/

theorem Understood.decoded {id : List UInt8} {octet : Tlv} (h : Understood m s c)
    (hc : Carries m s id octet) :
    ∃ oid flag, Decoded m c oid flag octet ∧ oidEquals m oid id = true := by
  obtain ⟨ts, hts, hall⟩ := h
  obtain ⟨t, exts, x, oid, flag, ht, htag, hexts, hx, hparts, hoid⟩ := hc
  obtain ⟨exts', xs, hexts', -, hxs, hdec⟩ := hall t (hts.inRow.1 ht) htag
  obtain ⟨rfl, -⟩ := List.cons.inj (hexts.unique hexts')
  obtain ⟨-, oid', flag', octet', hparts', hdec'⟩ := hdec x (hxs.inRow.1 hx)
  obtain ⟨rfl, rfl, rfl⟩ := hparts.unique hparts'
  exact ⟨oid, flag, hdec', hoid⟩

theorem Understood.regular (h : Understood m s c) : Regular m s := by
  refine ⟨?_, ?_, ?_, ?_, ?_, c.ext.is_ca, ?_⟩
  · obtain ⟨ts, hts, -⟩ := h
    exact ⟨ts, hts⟩
  · obtain ⟨ts, hts, hall⟩ := h
    intro t ht htag
    obtain ⟨exts, -, hexts, hseq, -⟩ := hall t (hts.inRow.1 ht) htag
    exact ⟨exts, hexts, hseq⟩
  · obtain ⟨ts, hts, hall⟩ := h
    intro t exts x ht htag hexts hx
    obtain ⟨exts', xs, hexts', -, hxs, hdec⟩ := hall t (hts.inRow.1 ht) htag
    obtain ⟨rfl, -⟩ := List.cons.inj (hexts.unique hexts')
    obtain ⟨-, oid, flag, octet, hparts, -⟩ := hdec x (hxs.inRow.1 hx)
    exact ⟨oid, flag, octet, hparts⟩
  · intro o o' ho ho'
    obtain ⟨oid, flag, hdec, hoid⟩ := h.decoded ho
    obtain ⟨oid', flag', hdec', hoid'⟩ := h.decoded ho'
    exact Option.some.inj ((hdec.san hoid).symm.trans (hdec'.san hoid'))
  · intro o o' ho ho'
    obtain ⟨oid, flag, hdec, hoid⟩ := h.decoded ho
    obtain ⟨oid', flag', hdec', hoid'⟩ := h.decoded ho'
    exact (hdec.usage hoid).2.trans (hdec'.usage hoid').2.symm
  · intro o ho
    obtain ⟨oid, flag, hdec, hoid⟩ := h.decoded ho
    exact hdec.ca hoid

/-- **An extension that is read is one that is carried**, with its value. -/
theorem Regular.carries {x : Ext} (h : Regular m s) (hts : Tiles m s.tail ts) (ht : t ∈ ts)
    (hx : ExtHere m t x) :
    ∃ octet, x.octet = some octet ∧ ∀ id, oidEquals m x.oid id = true → Carries m s id octet := by
  obtain ⟨htag, exts, xs, hexts, hxs, y, hy, hread⟩ := hx
  have htin := hts.inRow.2 ht
  obtain ⟨exts', hexts', hseq⟩ := h.one t htin htag
  obtain rfl := Option.some.inj (hexts.symm.trans (expect_of_parse hexts'.head.1 hseq))
  obtain ⟨oid, flag, octet, hparts⟩ := h.parts t exts y htin htag hexts' (hxs.inRow.2 hy)
  obtain ⟨critical, hread', -⟩ := hparts.readExt
  obtain rfl := Option.some.inj (hread.symm.trans hread')
  exact ⟨octet, rfl, fun id hid =>
    ⟨t, exts, y, oid, flag, htin, htag, hexts', hxs.inRow.2 hy, hparts, hid⟩⟩

/-- What some extensions leave is what the last ones of each kind say. -/
theorem Regular.decoded {l : List Ext} {x : Ext} {octet : Tlv} (h : Regular m s)
    (hl : ∀ x ∈ l, ∃ octet, x.octet = some octet
      ∧ ∀ id, oidEquals m x.oid id = true → Carries m s id octet)
    (hflag : (applied m l {}).has_unknown_critical = false) (hx : x ∈ l)
    (ho : x.octet = some octet) :
    (oidEquals m x.oid oidSubjectAltName = true →
        (applied m l {}).san_ext.map (rowBytes m) = some (rowBytes m octet.row))
      ∧ (oidEquals m x.oid oidKeyUsage = true → (applied m l {}).has_key_usage = true
        ∧ keyUsage m octet = some (applied m l {}).key_usage)
      ∧ (oidEquals m x.oid oidBasicConstraints = true →
        basicCa m octet = some (applied m l {}).is_ca) := by
  obtain ⟨octet', ho', hcarries⟩ := hl x hx
  obtain rfl := Option.some.inj (ho.symm.trans ho')
  refine ⟨fun hid => ?_, fun hid => ?_, fun hid => ?_⟩
  · refine applied_field (·.san_ext.map (rowBytes m)) (some (rowBytes m octet.row))
      (fun y => oidEquals m y.oid oidSubjectAltName = true) (fun y hy e hK => ?_)
      (fun y hy e hK => ?_) (.inl ⟨x, hx, hid⟩)
    · obtain ⟨o, ho, hcar⟩ := hl y hy
      rw [applyExt_san ho, if_pos hK, Option.map_some, h.san _ _ (hcar _ hK) (hcarries _ hid)]
    · obtain ⟨o, ho, -⟩ := hl y hy
      rw [applyExt_san ho, if_neg hK]
  · obtain ⟨ku, hku⟩ := Option.ne_none_iff_exists'.1 (((applied_flag hflag).2 x hx).2 octet ho hid)
    have hboth := applied_field (m := m) (e := {}) (fun e => (e.has_key_usage, e.key_usage))
      (true, ku) (fun y => oidEquals m y.oid oidKeyUsage = true) (l := l) (fun y hy e hK => ?_)
      (fun y hy e hK => ?_) (.inl ⟨x, hx, hid⟩)
    · obtain ⟨hhas, hval⟩ := Prod.mk.inj hboth
      exact ⟨hhas, by rw [hval, hku]⟩
    · obtain ⟨o, ho, hcar⟩ := hl y hy
      rw [applyExt_usage ho fun hK => (h.usage _ _ (hcar _ hK) (hcarries _ hid)).trans hku,
        if_pos hK]
    · obtain ⟨o, ho, -⟩ := hl y hy
      rw [applyExt_usage (u := ku) ho fun hK' => absurd hK' hK, if_neg hK]
  · obtain ⟨b, hb⟩ := h.ca
    rw [hb octet (hcarries _ hid)]
    refine congrArg some (Eq.symm ?_)
    have hflagOf : ∀ y ∈ l, oidEquals m y.oid oidBasicConstraints = true →
        ∃ o, y.octet = some o ∧ (caFlag m o).getD false = b := fun y hy hK => by
      obtain ⟨o, ho, hcar⟩ := hl y hy
      exact ⟨o, ho, caFlag_of_basicCa (hb o (hcar _ hK))⟩
    cases b with
    | true =>
      refine applied_field (·.is_ca) true (fun y => oidEquals m y.oid oidBasicConstraints = true)
        (fun y hy e hK => ?_) (fun y hy e hK => ?_) (.inl ⟨x, hx, hid⟩)
      · obtain ⟨o, ho, hval⟩ := hflagOf y hy hK
        rw [applyExt_ca ho, if_pos hK]
        cases hca : caFlag m o with
        | none =>
          rw [hca] at hval
          exact nomatch hval
        | some v =>
          rw [hca] at hval
          exact hval
      · obtain ⟨o, ho, -⟩ := hl y hy
        rw [applyExt_ca ho, if_neg hK]
    | false =>
      -- no flag is set, and there is none to begin with
      refine List.foldlRecOn l _ (motive := fun e : Extensions => e.is_ca = false) rfl
        fun e he y hy => ?_
      by_cases hK : oidEquals m y.oid oidBasicConstraints = true
      · obtain ⟨o, ho, hval⟩ := hflagOf y hy hK
        rw [applyExt_ca ho, if_pos hK, he]
        exact hval
      · obtain ⟨o, ho, -⟩ := hl y hy
        rw [applyExt_ca ho, if_neg hK]
        exact he

theorem Regular.understood (h : Regular m s) (hext : parseTail m fuel s.tail {} = some c.ext)
    (hflag : c.ext.has_unknown_critical = false) : Understood m s c := by
  obtain ⟨ts, hts⟩ := h.tail
  obtain ⟨l, heq, hmem, hrows⟩ := parseTail_reads hts hext hflag
  have hl : ∀ x ∈ l, ∃ octet, x.octet = some octet
      ∧ ∀ id, oidEquals m x.oid id = true → Carries m s id octet := fun x hx => by
    obtain ⟨t, ht, hhere⟩ := (hmem x).1 hx
    exact h.carries hts ht hhere
  refine ⟨ts, hts, fun t ht htag => ?_⟩
  have htin := hts.inRow.2 ht
  obtain ⟨exts, hexts, hseq⟩ := h.one t htin htag
  have hexpect := expect_of_parse hexts.head.1 hseq
  obtain ⟨xs, hxs, htags⟩ := hrows t ht htag exts hexpect
  refine ⟨exts, xs, hexts, hseq, hxs, fun x hx => ⟨htags x hx, ?_⟩⟩
  obtain ⟨oid, flag, octet, hparts⟩ := h.parts t exts x htin htag hexts (hxs.inRow.2 hx)
  obtain ⟨critical, hread, hcrit⟩ := hparts.readExt
  have hin : (⟨oid, critical, some octet⟩ : Ext) ∈ l :=
    (hmem _).2 ⟨t, ht, htag, exts, xs, hexpect, hxs, x, hx, hread⟩
  rw [heq] at hflag
  obtain ⟨hsan, husage, hca⟩ := h.decoded hl hflag hin rfl
  rw [← heq] at hsan husage hca
  exact ⟨oid, flag, octet, hparts,
    { critical := fun hset => (((applied_flag hflag).2 _ hin).1 (hcrit.2 hset)), san := hsan
      usage := husage, ca := hca }⟩

theorem Understood.no_fallback {octet : Tlv} {host cn : List UInt8} (h : Understood m s c)
    (hc : Carries m s oidSubjectAltName octet) :
    matchesHostname fuel m { c with cn := cn } host = matchesHostname fuel m c host := by
  obtain ⟨oid, flag, hdec, hoid⟩ := h.decoded hc
  obtain ⟨san, hsan, -⟩ := Option.map_eq_some_iff.1 (hdec.san hoid)
  unfold matchesHostname
  dsimp only
  rw [hsan]

/-- **The extensions of a certificate that `x509_parse` accepts and does not flag fail closed**
just where nothing is there for it to pass over. -/
theorem failClosed_iff (h : parse fuel m r.p r.remaining = .ok c)
    (hflag : c.ext.has_unknown_critical = false) :
    ∃ s, shape m r = some s ∧ (FailClosed m s c ↔ Regular m s) := by
  obtain ⟨s, hs, hstored⟩ := parse_stored h
  refine ⟨s, hs, fun hclosed => hclosed.understood.regular, fun hreg => ?_⟩
  have hund := hreg.understood hstored.ext hflag
  exact ⟨hund, fun _ hc _ _ _ => hund.no_fallback hc⟩

/-- A certificate that is accepted. -/
theorem accepted {der_len : UInt32} {p : UInt32}
    (h : (parse fuel m p der_len).toOption.map (·.ext.has_unknown_critical) = some false) :
    ∃ c, parse fuel m p der_len = .ok c ∧ c.ext.has_unknown_critical = false := by
  cases hp : parse fuel m p der_len with
  | error e =>
    rw [hp] at h
    exact nomatch h
  | ok c =>
    rw [hp] at h
    exact ⟨c, rfl, Option.some.inj h⟩

/-- The bytes of a certificate with a critical basicConstraints. -/
def caDer : List UInt8 := [
  0x30, 0x33, 0x30, 0x2A, 0x02, 0x01, 0x01, 0x30, 0x00, 0x30, 0x00, 0x30, 0x04, 0x17, 0x00, 0x17,
  0x00, 0x30, 0x00, 0x30, 0x04, 0x30, 0x02, 0x06, 0x00, 0xA3, 0x13, 0x30, 0x11, 0x30, 0x0F, 0x06,
  0x03, 0x55, 0x1D, 0x13, 0x01, 0x01, 0xFF, 0x04, 0x05, 0x30, 0x03, 0x01, 0x01, 0xFF, 0x30, 0x02,
  0x06, 0x00, 0x03, 0x01, 0x00]

theorem failClosed_iff_caDer :
    ∃ c, parse 4 (derAt caDer) 0 53 = .ok c ∧ c.ext.has_unknown_critical = false
      ∧ ∃ s, shape (derAt caDer) ⟨0, 53⟩ = some s
        ∧ (FailClosed (derAt caDer) s c ↔ Regular (derAt caDer) s) := by
  obtain ⟨c, hc, hflag⟩ := accepted (m := derAt caDer) (by decide +kernel :
    (parse 4 (derAt caDer) 0 53).toOption.map (·.ext.has_unknown_critical) = some false)
  exact ⟨c, hc, hflag, failClosed_iff (r := ⟨0, 53⟩) hc hflag⟩

/-- The bytes of a certificate with a `[3]` that holds an OCTET STRING. -/
def hiddenDer : List UInt8 := [
  0x30, 0x22, 0x30, 0x19, 0x02, 0x01, 0x01, 0x30, 0x00, 0x30, 0x00, 0x30, 0x04, 0x17, 0x00, 0x17,
  0x00, 0x30, 0x00, 0x30, 0x04, 0x30, 0x02, 0x06, 0x00, 0xA3, 0x02, 0x04, 0x00, 0x30, 0x02, 0x06,
  0x00, 0x03, 0x01, 0x00]

/-- What is in a `[3]` may be no SEQUENCE, and the certificate is accepted all the same. -/
theorem not_failClosed :
    ¬ ∀ fuel m r c, parse fuel m r.p r.remaining = .ok c → c.ext.has_unknown_critical = false →
      ∃ s, shape m r = some s ∧ FailClosed m s c := by
  intro hall
  obtain ⟨c, hc, hflag⟩ := accepted (m := derAt hiddenDer) (by decide +kernel :
    (parse 4 (derAt hiddenDer) 0 36).toOption.map (·.ext.has_unknown_critical) = some false)
  obtain ⟨s, hs, hclosed⟩ := hall 4 (derAt hiddenDer) ⟨0, 36⟩ c hc hflag
  have htail : (shape (derAt hiddenDer) ⟨0, 36⟩).map (·.tail) = some ⟨25, 4⟩ := by decide +kernel
  rw [hs] at htail
  obtain ⟨ts, hts, hthree⟩ := hclosed.understood
  rw [show s.tail = ⟨25, 4⟩ from Option.some.inj htail] at hts
  have hfirst : (⟨25, 4⟩ : Row).parse (derAt hiddenDer) = some ⟨0xA3, 2, 27, 29⟩ := by
    decide +kernel
  obtain ⟨exts, -, hexts, hseq, -⟩ := hthree _ (hts.inRow.1 (.here hfirst)) rfl
  have hin : (⟨27, 2⟩ : Row).parse (derAt hiddenDer) = some ⟨0x04, 0, 29, 29⟩ := by decide +kernel
  obtain rfl := Option.some.inj (hin.symm.trans hexts.head.1)
  exact absurd hseq (by decide)

end X509
