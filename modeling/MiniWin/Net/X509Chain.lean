import MiniWin.Net.X509Written

/-!
# X.509: chains of certificates

`tls_verify_certificate_chain` of `kernel/tls.h`: what a chain that it accepts has proved, and what
it has not. The roots are certificates in memory, too.
-/

namespace X509

open Asn1 Tls Pkcs1

/-! ## The check -/

/-- `tls_anchored_by`. -/
def anchoredBy (fuel : Nat) (C : Crypto) (m : Mem) (cert : Cert) (der : Row) : Option Bool :=
  match parse fuel m der.p der.remaining with
  | .error .endless => none
  | .error .refused => some false
  | .ok root => some (issuerMatchesSubject cert root && verifySignedBy C m cert root)

/-- The loop over the roots. -/
def anchored (fuel : Nat) (C : Crypto) (m : Mem) (cert : Cert) : List Row → Option Bool
  | [] => some false
  | r :: roots =>
    match anchoredBy fuel C m cert r with
    | none => none
    | some true => some true
    | some false => anchored fuel C m cert roots

/-- The loop over the certificates: `Fail.none` when nothing is wrong with them. -/
def checkCerts (now : UInt64) : List Cert → Fail
  | [] => .none
  | cert :: certs =>
    if ¬ hasUsableKey cert ∨ cert.sig_alg = none then .cert_chain
    else if ¬ isValidNow cert now then .cert_chain
    else if cert.ext.has_unknown_critical then .cert_extension
    else checkCerts now certs

/-- The loop over the links. -/
def checkLinks (C : Crypto) (m : Mem) : List Cert → Fail
  | child :: parent :: certs =>
    if ¬ issuerMatchesSubject child parent then .cert_chain
    else if ¬ parent.ext.is_ca then .cert_chain
    else if ¬ caExtensionsOk parent then .cert_extension
    else if ¬ verifySignedBy C m child parent then .cert_chain
    else checkLinks C m (parent :: certs)
  | _ => .none

/-- `tls_verify_certificate_chain`: the reason it fails for, `Fail.none` if it does not. -/
def verifyChain (fuel : Nat) (C : Crypto) (m : Mem) (roots : List Row) (now : UInt64)
    (host : List UInt8) (chain : List Cert) : Option Fail :=
  match chain.head?, chain.getLast? with
  | some leaf, some last =>
    match checkCerts now chain with
    | .none =>
      if ¬ leafExtensionsOk leaf then some .cert_extension
      else
        match matchesHostname fuel m leaf host with
        | none => none
        | some false => some .hostname_mismatch
        | some true =>
          match checkLinks C m chain with
          | .none =>
            (anchored fuel C m last roots).map fun ok => if ok then .none else .cert_untrusted
          | f => some f
    | f => some f
  | _, _ => some .cert_chain

/-! ## What a chain is to prove -/

/-- **The child is issued by the parent**: the names are the same, whole, and it is signed. -/
structure IssuedBy (C : Crypto) (m : Mem) (child parent : Shape) : Prop where
  name : child.issuer.whole m = parent.subject.whole m
  signed : SignedBy C m child parent

/-- **A chain of trust** from a certificate for the host to one that a root has issued. -/
structure Trusted (C : Crypto) (m : Mem) (roots : List Row) (now : UInt64) (host : List UInt8)
    (chain : List Shape) : Prop where
  valid : ∀ s ∈ chain, s.ValidAt m now
  covers : ∀ s, chain.head? = some s → s.Covers m host
  issued : chain.IsChain fun child parent => IssuedBy C m child parent ∧ parent.IsCa m
  anchor : ∀ s, chain.getLast? = some s →
    ∃ r ∈ roots, ∃ root, shape m r = some root ∧ IssuedBy C m s root

/-- Names that are the same as far as they are kept are the same. -/
def SameNames (m : Mem) (child parent : Shape) : Prop :=
  child.issuer.kept m = parent.subject.kept m → child.issuer.whole m = parent.subject.whole m

/-- **Nothing that the check needs is cut off, and nothing that it cannot read is passed over**: the
times are well formed, names and signatures have room, and a keyUsage or subjectAltName has a
value. -/
structure Readable (m : Mem) (chain : List Shape) : Prop where
  timed : ∀ s ∈ chain, s.Timed m
  named : ∀ s, chain.head? = some s → s.Valued m oidSubjectAltName
  links : chain.IsChain fun child parent =>
    SameNames m child parent ∧ Uncut m child parent ∧ parent.Valued m oidKeyUsage
  anchor : ∀ s, chain.getLast? = some s → (bitString m s.sig_bits).length ≤ sigSize

/-- **A root that is kept as it is**: its name has room, and so have its modulus and its exponent. -/
def RootOk (m : Mem) (r : Row) : Prop :=
  ∀ root, shape m r = some root → root.subject.t.size root.subject.p < maxNameLen
    ∧ ∀ mod_t exp_t, rsaKey m root.spki = some (mod_t, exp_t) →
      BigEndian.value (intBytes m mod_t) < 2 ^ bignumBits ∧ (intBytes m exp_t).length ≤ 4

variable {m : Mem} {fuel : Nat} {r : Row} {s s' : Shape} {c c' : Cert} {C : Crypto} {now : UInt64}
  {host : List UInt8} {roots : List Row} {certs : List Cert} {shapes : List Shape}

/-! ## The loops -/

theorem checkCerts_none (h : checkCerts now certs = .none) :
    ∀ c ∈ certs, isValidNow c now = true ∧ c.ext.has_unknown_critical = false := by
  induction certs with
  | nil => exact fun c hc => absurd hc List.not_mem_nil
  | cons cert certs ih =>
    unfold checkCerts at h
    split at h
    · exact nomatch h
    split at h
    · exact nomatch h
    next hvalid =>
    split at h
    · exact nomatch h
    next hcrit =>
    rw [List.forall_mem_cons]
    exact ⟨⟨not_not.mp hvalid, Bool.eq_false_iff.mpr hcrit⟩, ih h⟩

/-- **A link that is accepted.** -/
theorem link_iff (hc : Stored fuel m s c) (hp : Stored fuel m s' c')
    (hname : issuerMatchesSubject c c' = true) (hca : caExtensionsOk c' = true)
    (hsign : verifySignedBy C m c c' = true) : IssuedBy C m s s' ∧ s'.IsCa m
      ↔ SameNames m s s' ∧ Uncut m s s' ∧ s'.Valued m oidKeyUsage := by
  have hkept : s.issuer.kept m = s'.subject.kept m := by
    rw [← hc.issuer, ← hp.subject]
    exact of_decide_eq_true hname
  have hsigned := signedBy_iff hc hp hsign
  have hisCa := isCa_iff hp hca
  constructor
  · rintro ⟨⟨hwhole, hs⟩, hi⟩
    exact ⟨fun _ => hwhole, hsigned.mp hs, hisCa.mp hi⟩
  · rintro ⟨hwhole, hu, hv⟩
    exact ⟨⟨hwhole hkept, hsigned.mpr hu⟩, hisCa.mpr hv⟩

theorem links_iff (hst : List.Forall₂ (Stored fuel m) shapes certs)
    (h : checkLinks C m certs = .none) :
    (shapes.IsChain fun child parent => IssuedBy C m child parent ∧ parent.IsCa m)
      ↔ shapes.IsChain fun child parent =>
        SameNames m child parent ∧ Uncut m child parent ∧ parent.Valued m oidKeyUsage := by
  induction hst with
  | nil => exact iff_of_true .nil .nil
  | @cons s c shapes certs hc hst ih =>
    cases hst with
    | nil => exact iff_of_true (.singleton s) (.singleton s)
    | @cons s' c' shapes certs hp hst =>
      unfold checkLinks at h
      split at h
      · exact nomatch h
      next hname =>
      split at h
      · exact nomatch h
      split at h
      · exact nomatch h
      next hca =>
      split at h
      · exact nomatch h
      next hsign =>
      rw [List.isChain_cons_cons, List.isChain_cons_cons, ih h,
        link_iff hc hp (not_not.mp hname) (not_not.mp hca) (not_not.mp hsign)]

theorem anchored_true (h : anchored fuel C m c roots = some true) : ∃ r ∈ roots, ∃ root,
    parse fuel m r.p r.remaining = .ok root ∧ issuerMatchesSubject c root = true
      ∧ verifySignedBy C m c root = true := by
  induction roots with
  | nil => exact nomatch h
  | cons r roots ih =>
    unfold anchored at h
    split at h
    · exact nomatch h
    · next hr =>
      unfold anchoredBy at hr
      split at hr
      · exact nomatch hr
      · exact nomatch hr
      · next root hroot =>
        have hboth := Option.some.inj hr
        rw [Bool.and_eq_true] at hboth
        exact ⟨r, List.mem_cons_self, root, hroot, hboth.1, hboth.2⟩
    · obtain ⟨r', hr', hrest⟩ := ih h
      exact ⟨r', List.mem_cons_of_mem _ hr', hrest⟩

/-- **The root has issued the last certificate, if its signature is kept whole.** -/
theorem anchor_iff (hc : Stored fuel m s c) (hroots : ∀ r ∈ roots, RootOk m r)
    (h : anchored fuel C m c roots = some true) :
    (∃ r ∈ roots, ∃ root, shape m r = some root ∧ IssuedBy C m s root)
      ↔ (bitString m s.sig_bits).length ≤ sigSize := by
  obtain ⟨r, hr, root, hparse, hname, hsign⟩ := anchored_true h
  obtain ⟨sr, hsr, hst⟩ := parse_stored hparse
  constructor
  · rintro ⟨r', hr', root', hroot', hissued⟩
    exact signed_length hc hsign hissued.signed
  · intro hlen
    obtain ⟨hsize, hkey⟩ := hroots r hr sr hsr
    obtain ⟨n, hn⟩ := hc.issuer_read
    obtain ⟨n', hn'⟩ := hst.subject_read
    refine ⟨r, hr, sr, hsr, ?_, (signedBy_iff hc hst hsign).mpr ⟨hlen, ?_⟩⟩
    · refine whole_eq hn hn' hsize ?_
      rw [← hc.issuer, ← hst.subject]
      exact of_decide_eq_true hname
    · intro hash _ mod_t exp_t hrsa
      obtain ⟨hmod, hexp⟩ := hkey mod_t exp_t hrsa
      exact ⟨hmod, by rw [List.take_of_length_le hexp]⟩

/-! ## The theorem -/

theorem verifyChain_none (h : verifyChain fuel C m roots now host certs = some .none) :
    ∃ leaf last, certs.head? = some leaf ∧ certs.getLast? = some last
      ∧ checkCerts now certs = .none ∧ matchesHostname fuel m leaf host = some true
      ∧ checkLinks C m certs = .none ∧ anchored fuel C m last roots = some true := by
  unfold verifyChain at h
  split at h
  swap
  · exact nomatch h
  next leaf last hleaf hlast =>
  split at h
  swap
  · next f hne => exact absurd (Option.some.inj h) (fun h' => hne h')
  next hcerts =>
  split at h
  · exact nomatch h
  split at h
  · exact nomatch h
  · exact nomatch h
  next hhost =>
  split at h
  swap
  · next f hne => exact absurd (Option.some.inj h) (fun h' => hne h')
  next hlinks =>
  obtain ⟨ok, hok, hif⟩ := Option.map_eq_some_iff.mp h
  cases ok with
  | false => exact nomatch hif
  | true => exact ⟨leaf, last, hleaf, hlast, hcerts, hhost, hlinks, hok⟩

/-- What is kept of a chain. -/
theorem stored_chain {rows : List Row}
    (hparsed : List.Forall₂ (fun r c => parse fuel m r.p r.remaining = .ok c) rows certs)
    (hshapes : List.Forall₂ (fun r s => shape m r = some s) rows shapes) :
    List.Forall₂ (Stored fuel m) shapes certs := by
  induction hparsed generalizing shapes with
  | nil =>
    cases hshapes
    exact .nil
  | cons hc _ ih =>
    cases hshapes with
    | cons hs hshapes =>
      obtain ⟨s, hs', hst⟩ := parse_stored hc
      obtain rfl := Option.some.inj (hs.symm.trans hs')
      exact .cons hst (ih hshapes)

theorem mem_stored (hst : List.Forall₂ (Stored fuel m) shapes certs) (hs : s ∈ shapes) :
    ∃ c ∈ certs, Stored fuel m s c := by
  induction hst with
  | nil => exact absurd hs List.not_mem_nil
  | @cons s' c' _ _ h _ ih =>
    rcases List.mem_cons.mp hs with rfl | hs
    · exact ⟨c', List.mem_cons_self, h⟩
    · obtain ⟨c, hc, hsc⟩ := ih hs
      exact ⟨c, List.mem_cons_of_mem _ hc, hsc⟩

theorem head_stored (hst : List.Forall₂ (Stored fuel m) shapes certs) (hs : shapes.head? = some s)
    (hc : certs.head? = some c) : Stored fuel m s c := by
  cases hst with
  | nil => exact nomatch hs
  | cons h _ =>
    obtain rfl := Option.some.inj hs
    obtain rfl := Option.some.inj hc
    exact h

theorem last_stored (hst : List.Forall₂ (Stored fuel m) shapes certs)
    (hs : shapes.getLast? = some s) (hc : certs.getLast? = some c) : Stored fuel m s c := by
  refine head_stored (List.forall₂_reverse_iff.mpr hst) ?_ ?_
  · rw [List.head?_reverse]
    exact hs
  · rw [List.head?_reverse]
    exact hc

/-- **A chain that is accepted is a chain of trust** exactly if it is readable. -/
theorem chain_trusted_iff {rows : List Row} (hroots : ∀ r ∈ roots, RootOk m r)
    (hhost : host.length < 128)
    (hparsed : List.Forall₂ (fun r c => parse fuel m r.p r.remaining = .ok c) rows certs)
    (hshapes : List.Forall₂ (fun r s => shape m r = some s) rows shapes)
    (h : verifyChain fuel C m roots now host certs = some .none) :
    Trusted C m roots now host shapes ↔ Readable m shapes := by
  have hst := stored_chain hparsed hshapes
  obtain ⟨leaf, last, hleaf, hlast, hcerts, hmatch, hlinks, hanchor⟩ := verifyChain_none h
  have hall := checkCerts_none hcerts
  have hvalid : (∀ s ∈ shapes, s.ValidAt m now) ↔ ∀ s ∈ shapes, s.Timed m := by
    refine forall₂_congr fun s hs => ?_
    obtain ⟨c, hc, hsc⟩ := mem_stored hst hs
    exact validAt_iff hsc (hall c hc).1
  have hcovers : (∀ s, shapes.head? = some s → s.Covers m host)
      ↔ ∀ s, shapes.head? = some s → s.Valued m oidSubjectAltName :=
    forall₂_congr fun s hs => covers_iff (head_stored hst hs hleaf)
      (hall leaf (List.mem_of_head? hleaf)).2 hhost hmatch
  have hanchors : (∀ s, shapes.getLast? = some s →
        ∃ r ∈ roots, ∃ root, shape m r = some root ∧ IssuedBy C m s root)
      ↔ ∀ s, shapes.getLast? = some s → (bitString m s.sig_bits).length ≤ sigSize :=
    forall₂_congr fun s hs => anchor_iff (last_stored hst hs hlast) hroots hanchor
  have hissued := links_iff hst hlinks
  exact ⟨fun ⟨h₁, h₂, h₃, h₄⟩ =>
      ⟨hvalid.mp h₁, hcovers.mp h₂, hissued.mp h₃, hanchors.mp h₄⟩,
    fun ⟨h₁, h₂, h₃, h₄⟩ => ⟨hvalid.mpr h₁, hcovers.mpr h₂, hissued.mpr h₃, hanchors.mpr h₄⟩⟩

/-! ## A chain of one -/

namespace OneLeaf

/-- An element with a length of one or two bytes. -/
def der (tag : UInt8) (content : List UInt8) : List UInt8 :=
  let len := UInt8.ofNat content.length
  [tag] ++ (if content.length < 128 then [len] else [0x81, len]) ++ content

def algorithm (oid : List UInt8) : List UInt8 := der tagSequence (der tagOid oid ++ [0x05, 0x00])

/-- A name of one common name. -/
def name (cn : List UInt8) : List UInt8 :=
  der tagSequence (der tagSet (der tagSequence (der tagOid oidCommonName ++ der 0x0c cn)))

def rsaSpki (modulus : List UInt8) : List UInt8 :=
  der tagSequence (algorithm oidRsaEncryption ++ der tagBitString
    (0x00 :: der tagSequence (der tagInteger modulus ++ der tagInteger [0x03])))

/-- A certificate of version 1, issued by `R`, that is valid up to the year 2030. -/
def tbs (not_before subject modulus : List UInt8) : List UInt8 :=
  der tagSequence (der tagInteger [0x01] ++ algorithm oidSha256WithRsa ++ name [0x52]
    ++ der tagSequence (not_before ++ der tagUtcTime
      [0x33, 0x30, 0x30, 0x31, 0x30, 0x31, 0x30, 0x30, 0x30, 0x30, 0x30, 0x30, 0x5a])
    ++ name subject ++ rsaSpki modulus)

def certificate (tbs : List UInt8) (sig : List UInt8) : List UInt8 :=
  der tagSequence (tbs ++ algorithm oidSha256WithRsa ++ der tagBitString (0x00 :: sig))

/-- A number of 62 bytes. -/
def wide (hi lo : Nat) : List UInt8 := BigEndian.bytes 31 hi ++ BigEndian.bytes 31 lo

/-- The first of January 2020. -/
def jan2020 : List UInt8 :=
  der tagUtcTime [0x32, 0x30, 0x30, 0x31, 0x30, 0x31, 0x30, 0x30, 0x30, 0x30, 0x30, 0x30, 0x5a]

def rootDer : List UInt8 :=
  certificate (tbs jan2020 [0x52] (0x00 :: wide
    0xd76d9f969323f569940d8659f6d60af36e4d534236d37624fa11d47a8367e8
    0xf5f5e1697de372c80794c6d07fcd47754950adccd63a1ad1330aa91f3cd0f7)) (wide 0 0)

/-- The host `a.b`. -/
def site : List UInt8 := [0x61, 0x2e, 0x62]

def datedTbs : List UInt8 := tbs jan2020 site [0x33]

def datedDer : List UInt8 :=
  certificate datedTbs (wide
    0x5525ee26042addd5991fd3e5c00608e6fec7376573a2ec9f2956e83c0bcb1b
    0xbd3ec12b31482e240eb1f716bd7639a1634471cf0a8d885ffdd3ea3d77dbd5)

/-- A NULL where the time from which it is valid has to be. -/
def undatedTbs : List UInt8 := tbs [0x05, 0x00] site [0x33]

def undatedDer : List UInt8 :=
  certificate undatedTbs (wide
    0xcd949809467d8d2eae925181f88811a0d4b1aaac8ad2bd10dcbd22f8318dd0
    0x75e85b9182fe8c0a781cef98969567a1c290e48c6dbce8968dfe696f265070)

/-- The SHA-256 of the two. -/
def crypto : Crypto where
  hash h data :=
    if data = datedTbs then BigEndian.bytes (hashLen h)
      0x5da5eb0109ab20f1aec33d19badd0e4a1e3b15beacc212ea8363686602b326ea
    else if data = undatedTbs then BigEndian.bytes (hashLen h)
      0x8b0dc0bc34aace5dad6caaf5a51a935c88c8e4fceb6021b231943b601b829a74
    else BigEndian.bytes (hashLen h) 0
  length_hash h data := by
    split
    · exact BigEndian.length_bytes _ _
    split <;> exact BigEndian.length_bytes _ _
  ecdsa _ _ _ _ := false

/-- A leaf at `0x1000`, with the root behind it. -/
def memory (leaf : List UInt8) : Mem := fun p => (leaf ++ rootDer).getD (p.toNat - 0x1000) 0

def leafRow (leaf : List UInt8) : Row := ⟨0x1000, UInt32.ofNat leaf.length⟩

def rootRow (leaf : List UInt8) : Row :=
  ⟨0x1000 + UInt32.ofNat leaf.length, UInt32.ofNat rootDer.length⟩

/-- The first of January 2026. -/
def jan2026 : UInt64 := 20260101000000

/-- What the root has to be, as a check. -/
def rootFits (m : Mem) (r : Row) : Bool :=
  (shape m r).all fun root => root.subject.t.size root.subject.p < maxNameLen
    ∧ (rsaKey m root.spki).all fun k =>
      (intBytes m k.1).length ≤ 512 ∧ (intBytes m k.2).length ≤ 4

theorem rootOk_of_fits (h : rootFits m r = true) : RootOk m r := by
  intro root hroot
  unfold rootFits at h
  rw [hroot] at h
  obtain ⟨hsize, hkey⟩ := of_decide_eq_true h
  refine ⟨hsize, fun mod_t exp_t hk => ?_⟩
  rw [hk] at hkey
  obtain ⟨hmod, hexp⟩ := of_decide_eq_true hkey
  dsimp only at hmod
  refine ⟨?_, hexp⟩
  calc BigEndian.value (intBytes m mod_t) < 256 ^ (intBytes m mod_t).length := BigEndian.value_lt _
    _ = 2 ^ (8 * (intBytes m mod_t).length) := BigEndian.pow_256 _
    _ ≤ 2 ^ bignumBits := Nat.pow_le_pow_right (by decide) (by unfold bignumBits; omega)

/-- The leaf is read and accepted. -/
def accepts (leaf : List UInt8) : Bool :=
  match parse 8 (memory leaf) (leafRow leaf).p (leafRow leaf).remaining with
  | .ok c => verifyChain 8 crypto (memory leaf) [rootRow leaf] jan2026 site [c] = some .none
  | .error _ => false

theorem parsed_of_accepts {leaf : List UInt8} (h : accepts leaf = true) : ∃ c s,
    parse 8 (memory leaf) (leafRow leaf).p (leafRow leaf).remaining = .ok c
    ∧ shape (memory leaf) (leafRow leaf) = some s
    ∧ verifyChain 8 crypto (memory leaf) [rootRow leaf] jan2026 site [c] = some .none := by
  unfold accepts at h
  split at h
  · next c hc =>
    obtain ⟨s, hs, -⟩ := parse_stored hc
    exact ⟨c, s, hc, hs, of_decide_eq_true h⟩
  · exact nomatch h

/-- What the two certificates are found to be. -/
theorem certs_read : accepts datedDer = true ∧ accepts undatedDer = true
    ∧ (shape (memory datedDer) (leafRow datedDer)).all (fun s =>
        (readTime (memory datedDer) s.not_before).isSome
          ∧ (readTime (memory datedDer) s.not_after).isSome
          ∧ (bitString (memory datedDer) s.sig_bits).length ≤ sigSize
          ∧ s.tail.remaining = 0) = true := by
  decide +kernel

theorem dated_accepts : accepts datedDer = true := certs_read.1

theorem undated_accepts : accepts undatedDer = true := certs_read.2.1

/-- What is read of the leaf: its times, the bytes of its signature, and that nothing is behind its
key. -/
theorem dated_shape : (shape (memory datedDer) (leafRow datedDer)).all (fun s =>
    (readTime (memory datedDer) s.not_before).isSome
      ∧ (readTime (memory datedDer) s.not_after).isSome
      ∧ (bitString (memory datedDer) s.sig_bits).length ≤ sigSize
      ∧ s.tail.remaining = 0) = true :=
  certs_read.2.2

end OneLeaf

open OneLeaf

theorem chain_trusted_iff_one : ∃ s, shape (memory datedDer) (leafRow datedDer) = some s
    ∧ Trusted crypto (memory datedDer) [rootRow datedDer] jan2026 site [s] := by
  obtain ⟨c, s, hc, hs, haccept⟩ := parsed_of_accepts dated_accepts
  have hshape := dated_shape
  rw [hs] at hshape
  obtain ⟨hbefore, hafter, hsig, htail⟩ := of_decide_eq_true hshape
  refine ⟨s, hs, (chain_trusted_iff ?_ (by decide) (.cons hc .nil) (.cons hs .nil) haccept).mpr
    { timed := ?_, named := ?_, links := List.isChain_singleton s, anchor := ?_ }⟩
  · intro r hr
    obtain rfl := List.mem_singleton.mp hr
    exact rootOk_of_fits (by decide +kernel)
  · intro s' hs'
    obtain rfl := List.mem_singleton.mp hs'
    exact ⟨hbefore, hafter⟩
  · intro s' hs' x hx
    obtain rfl := Option.some.inj hs'
    obtain ⟨t, exts, hin, -⟩ := hx
    exact (inRow_empty htail hin).elim
  · intro s' hs'
    obtain rfl := Option.some.inj hs'
    exact hsig

/-- A certificate that has no time from which it is valid is accepted. -/
theorem chain_undated : ¬ ∀ (fuel : Nat) (C : Crypto) (m : Mem) (roots : List Row) (now : UInt64)
    (host : List UInt8) (rows : List Row) (certs : List Cert) (shapes : List Shape),
    (∀ r ∈ roots, RootOk m r) → host.length < 128 →
    List.Forall₂ (fun r c => parse fuel m r.p r.remaining = .ok c) rows certs →
    List.Forall₂ (fun r s => shape m r = some s) rows shapes →
    verifyChain fuel C m roots now host certs = some .none →
    Trusted C m roots now host shapes := by
  intro hall
  obtain ⟨c, s, hc, hs, haccept⟩ := parsed_of_accepts undated_accepts
  have hroots : ∀ r ∈ [rootRow undatedDer], RootOk (memory undatedDer) r := by
    intro r hr
    obtain rfl := List.mem_singleton.mp hr
    exact rootOk_of_fits (by decide +kernel)
  have htrusted := hall 8 crypto (memory undatedDer) [rootRow undatedDer] jan2026 site _ _ _
    hroots (by decide) (.cons hc .nil) (.cons hs .nil) haccept
  obtain ⟨before, after, hbefore, -⟩ := htrusted.valid s List.mem_cons_self
  have hnone : (shape (memory undatedDer) (leafRow undatedDer)).all
      (fun s => decide (readTime (memory undatedDer) s.not_before = none)) = true := by
    decide +kernel
  rw [hs] at hnone
  have hread : readTime (memory undatedDer) s.not_before = none := of_decide_eq_true hnone
  rw [hread] at hbefore
  exact nomatch hbefore

end X509
