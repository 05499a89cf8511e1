import MiniWin.Lib.Logged
import MiniWin.Net.X509

/-!
# X.509: what the parser reads

The functions of `kernel/asn1.h` and `kernel/x509.h` once more, with everything they do to memory:
every call of `asn1_parse_tlv`, and the address of every byte of the certificate that is read, in a
loop as far as the loop goes.
-/

namespace X509

open Asn1 Tls Pkcs1

/-- What the parser does to memory. -/
inductive Access where
  /-- `asn1_parse_tlv` is called with the row. -/
  | call (r : Row)
  /-- The byte is read. -/
  | read (p : UInt32)
  /-- The BIT STRING is taken for a KeyUsage. -/
  | usage (bits : Tlv)
  deriving DecidableEq

/-- So many addresses. -/
def span (p : UInt32) (n : Nat) : List UInt32 := (List.range n).map fun i => p + UInt32.ofNat i

/-- A loop that compares bytes until two are different. -/
def sameReads (same : UInt8 → UInt8 → Bool) (m : Mem) : UInt32 → List UInt8 → List UInt32
  | _, [] => []
  | p, b :: l => p :: if same (m p) b then sameReads same m (p + 1) l else []

/-- The reads of `asn1_parse_tlv`. -/
def tlvReads (m : Mem) (r : Row) : List UInt32 :=
  if r.remaining < 2 then []
  else
    let num_len_bytes := m (r.p + 1) &&& 0x7F
    if m (r.p + 1) < 0x80 ∨ num_len_bytes = 0 ∨ num_len_bytes > 4
        ∨ 2 + num_len_bytes.toUInt32 > r.remaining then
      span r.p 2
    else span r.p (2 + num_len_bytes.toNat)

/-- The reads of `asn1_oid_equals`. -/
def oidReads (m : Mem) (t : Tlv) (oid : List UInt8) : List UInt32 :=
  if t.tag = tagOid ∧ t.len.toNat = oid.length then sameReads (· = ·) m t.value oid else []

/-- The reads of `asn1_small_int`. -/
def smallIntReads (m : Mem) (t : Tlv) : List UInt32 :=
  if t.len = 0 then []
  else if m t.value = 0 then t.value :: span (t.value + 1) (min (t.len.toNat - 1) 4)
  else t.value :: span t.value (min t.len.toNat 4)

/-- The reads of `x509_parse_time`. -/
def timeReads (t : Tlv) : List UInt32 :=
  if t.tag = tagUtcTime then if t.len < 13 then [] else span t.value 12
  else if t.tag = tagGeneralizedTime then if t.len < 15 then [] else span t.value 14
  else []

/-- The reads of a modulus: `bn_from_bytes_be` passes over what no limb holds. -/
def modulusReads (m : Mem) (t : Tlv) : List UInt32 :=
  if t.len = 0 then []
  else
    let n := if m t.value = 0 then t.len.toNat - 1 else t.len.toNat
    t.value :: span (t.next - UInt32.ofNat (min n (bignumBits / 8))) (min n (bignumBits / 8))

/-- The bits of a KeyUsage that are looked at, and the bytes that they are in. -/
def usageReads (m : Mem) (bits : Tlv) : List UInt32 :=
  let nbits := (bits.len - 1) * 8 - (m bits.value).toUInt32
  bits.value :: ((List.range 16).filter fun b => UInt32.ofNat b < nbits).map fun b =>
    bits.value + 1 + UInt32.ofNat (b / 8)

/-- The reads of `x509_name_matches_host`. -/
def nameReads (m : Mem) (pattern pattern_len : UInt32) (host : List UInt8) : List UInt32 :=
  (if pattern_len > 2 then
    pattern :: if m pattern = 0x2A then [pattern + 1] else []
  else [])
    ++ if pattern_len > 2 ∧ m pattern = 0x2A ∧ m (pattern + 1) = 0x2E then
      match host.dropWhile (· ≠ 0x2E) with
      | [] => []
      | _ :: rest =>
        if rest.length = pattern_len.toNat - 2 then
          sameReads (fun a b => asciiLower a = asciiLower b ∧ b < 0x80) m (pattern + 2) rest
        else []
    else if host.length = pattern_len.toNat then
      sameReads (fun a b => asciiLower a = asciiLower b) m pattern host
    else []

/-! ## The functions with their reads -/

namespace Trace

/-- A function of the parser with what it does to memory. -/
abbrev T := Logged Access Stop

/-- A value, and the bytes it is read from. -/
def reading {α : Type} (a : α) (l : List UInt32) : T α := .emit a (l.map .read)

/-- `asn1_parse_tlv`. -/
def parseTlv (m : Mem) (r : Row) : T (Option Tlv) :=
  .emit (r.parse m) (.call r :: (tlvReads m r).map .read)

/-- `asn1_expect`. -/
def expect (m : Mem) (r : Row) (tag : UInt8) : T (Option Tlv) := do
  let t ← parseTlv m r
  return t.filter fun t => t.tag = tag

/-- `asn1_oid_equals`. -/
def oidEquals (m : Mem) (t : Tlv) (oid : List UInt8) : T Bool :=
  reading (Asn1.oidEquals m t oid) (oidReads m t oid)

/-- Bytes that are copied. -/
def slice (m : Mem) (p : UInt32) (n : Nat) : T (List UInt8) := reading (m.slice p n) (span p n)

/-- The byte at `p`. -/
def byte (m : Mem) (p : UInt32) : T UInt8 := reading (m p) [p]

/-- What the certificate has to have. -/
def must {α : Type} : Option α → T α
  | some a => pure a
  | none => .stop .refused

/-- The attribute of a name, if it is a common name: its value. -/
def commonName (m : Mem) (atv : Tlv) : T (Option Tlv) := do
  match ← parseTlv m atv.row with
  | none => return none
  | some oid =>
    if ← oidEquals m oid oidCommonName then parseTlv m (atv.row.behind oid) else return none

/-- What is kept of an attribute. -/
def keptName (m : Mem) (cn : List UInt8) : Option Tlv → T (List UInt8)
  | some v => slice m v.value (min v.len.toNat cnMax)
  | none => pure cn

/-- The inner loop of `x509_extract_cn`. -/
def cnInSet (m : Mem) : Nat → Row → List UInt8 → T (List UInt8)
  | 0, _, _ => .stop .endless
  | fuel + 1, r, cn =>
    if r.remaining = 0 then pure cn
    else do
      match ← expect m r tagSequence with
      | none => pure cn
      | some atv =>
        let v ← commonName m atv
        let cn ← keptName m cn v
        cnInSet m fuel (r.behind atv) cn

/-- `x509_extract_cn`. -/
def extractCn (m : Mem) : Nat → Row → List UInt8 → T (List UInt8)
  | 0, _, _ => .stop .endless
  | fuel + 1, r, cn =>
    if r.remaining = 0 then pure cn
    else do
      match ← expect m r tagSet with
      | none => pure cn
      | some rdn =>
        let cn ← cnInSet m fuel rdn.row cn
        extractCn m fuel (r.behind rdn) cn

/-- The comparisons of `x509_ext_understood`. -/
def oneOf (m : Mem) (oid : Tlv) : List (List UInt8) → T Bool
  | [] => pure false
  | o :: os => do if ← oidEquals m oid o then return true else oneOf m oid os

/-- A BOOLEAN that is not `FALSE`. -/
def isTrue (m : Mem) (t : Tlv) : T Bool :=
  if t.len > 0 then do return (← byte m t.value) ≠ 0x00 else pure false

/-- One extension, if its identifier can be read. -/
def readExt (m : Mem) (x : Tlv) : T (Option Ext) := do
  match ← parseTlv m x.row with
  | none => return none
  | some oid =>
    match ← expect m (x.row.behind oid) 0x01 with
    | some b =>
      let critical ← isTrue m b
      let octet ← expect m ((x.row.behind oid).behind b) tagOctetString
      return some { oid := oid, critical := critical, octet := octet }
    | none =>
      let octet ← expect m (x.row.behind oid) tagOctetString
      return some { oid := oid, critical := false, octet := octet }

/-- The value of a keyUsage extension. -/
def keyUsage (m : Mem) (octet : Tlv) : T (Option UInt16) := do
  match ← expect m octet.row tagBitString with
  | none => return none
  | some bits =>
    if bits.len ≥ 2 then
      .emit (some (keyUsageBits m bits)) (.usage bits :: (usageReads m bits).map .read)
    else return none

/-- The CA flag of a basicConstraints extension, if it has one. -/
def caFlag (m : Mem) (octet : Tlv) : T (Option Bool) := do
  match ← expect m octet.row tagSequence with
  | none => return none
  | some bc =>
    if bc.len = 0 then return none
    else
      match ← expect m bc.row 0x01 with
      | none => return none
      | some ca => do
        let b ← isTrue m ca
        return some b

/-- What is kept of the value of an extension. -/
def applyValue (m : Mem) (x : Ext) (e : Extensions) (octet : Tlv) : T Extensions := do
  if ← oidEquals m x.oid oidSubjectAltName then
    return { e with san_ext := some octet.row }
  else if ← oidEquals m x.oid oidKeyUsage then
    match ← keyUsage m octet with
    | some ku => return { e with has_key_usage := true, key_usage := ku }
    | none => return { e with has_unknown_critical := true }
  else if ← oidEquals m x.oid oidBasicConstraints then
    match ← caFlag m octet with
    | some ca => return { e with is_ca := ca }
    | none => return e
  else return e

/-- The identifiers of `x509_ext_understood`. -/
def understood : List (List UInt8) :=
  [oidBasicConstraints, oidKeyUsage, oidSubjectAltName, oidSubjectKeyId, oidAuthorityKeyId,
    oidExtKeyUsage, oidCertPolicies, oidPolicyMappings, oidPolicyConstraints, oidInhibitAnyPolicy]

/-- The flag of a critical extension. -/
def checkCritical (m : Mem) (x : Ext) (e : Extensions) : T Extensions :=
  if x.critical then do
    if ← oneOf m x.oid understood then return e
    else return { e with has_unknown_critical := true }
  else pure e

/-- What an extension changes. -/
def applyExt (m : Mem) (x : Ext) (e : Extensions) : T Extensions := do
  let e ← checkCritical m x e
  match x.octet with
  | none => pure e
  | some octet => applyValue m x e octet

/-- `x509_parse_extensions`. -/
def parseExtensions (m : Mem) : Nat → Row → Extensions → T Extensions
  | 0, _, _ => .stop .endless
  | fuel + 1, r, e =>
    if r.remaining = 0 then pure e
    else do
      match ← expect m r tagSequence with
      | none => return { e with has_unknown_critical := true }
      | some x =>
        match ← readExt m x with
        | none => return { e with has_unknown_critical := true }
        | some ext =>
          let e ← applyExt m ext e
          parseExtensions m fuel (r.behind x) e

/-- The extensions in an element behind the key. -/
def inElement (m : Mem) (fuel : Nat) (t : Tlv) (e : Extensions) : T Extensions :=
  if t.tag = tagContext 3 then do
    match ← expect m t.row tagSequence with
    | none => pure e
    | some exts => parseExtensions m fuel exts.row e
  else pure e

/-- The loop over what is behind the key. -/
def parseTail (m : Mem) : Nat → Row → Extensions → T Extensions
  | 0, _, _ => .stop .endless
  | fuel + 1, r, e =>
    if r.remaining = 0 then pure e
    else do
      match ← parseTlv m r with
      | none => pure e
      | some t =>
        let e ← inElement m fuel t e
        parseTail m fuel (r.behind t) e

/-- The group of a curve, and the bytes of a point on it. -/
def curveGroup (m : Mem) (oid : Tlv) : T (Option (UInt16 × Nat)) := do
  if ← oidEquals m oid oidCurveP256 then return some (23, 65)
  else if ← oidEquals m oid oidCurveP384 then return some (24, 97)
  else return none

/-- A point on the curve of a group, which is so many bytes. -/
def ecPoint (m : Mem) (pt_bits : Tlv) (group : UInt16) (want : Nat) : T (Option PublicKey) := do
  if (bitStringBytes pt_bits).2.toNat = want then
    if (← byte m (bitStringBytes pt_bits).1) = 0x04 then
      let point ← slice m (bitStringBytes pt_bits).1 (bitStringBytes pt_bits).2.toNat
      return some { ec_group := group, ec_point := point }
    else return none
  else return none

/-- A key on a curve. -/
def ecKey (m : Mem) (params key : Row) : T (Option PublicKey) := do
  match ← parseTlv m params with
  | none => return none
  | some curve_oid =>
    match ← expect m key tagBitString with
    | none => return none
    | some pt_bits =>
      match ← curveGroup m curve_oid with
      | none => return none
      | some (group, want) => ecPoint m pt_bits group want

/-- The modulus and the exponent of an RSA key. -/
def rsaInts (m : Mem) (key : Row) : T (Option (Tlv × Tlv)) := do
  match ← expect m key tagBitString with
  | none => return none
  | some pk_bits =>
    match ← expect m ⟨(bitStringBytes pk_bits).1, (bitStringBytes pk_bits).2⟩ tagSequence with
    | none => return none
    | some rsa_seq =>
      match ← expect m rsa_seq.row tagInteger with
      | none => return none
      | some mod_t =>
        match ← expect m (rsa_seq.row.behind mod_t) tagInteger with
        | none => return none
        | some exp_t => return some (mod_t, exp_t)

/-- The key in the integers of an RSA key. -/
def rsaKey (m : Mem) : Option (Tlv × Tlv) → T PublicKey
  | none => pure {}
  | some (mod_t, exp_t) =>
    reading { modulus := bnFromBytes (intBytes m mod_t), exponent := smallInt m exp_t,
              pubkey_valid := true } (modulusReads m mod_t ++ smallIntReads m exp_t)

/-- The subjectPublicKeyInfo. -/
def parseKey (m : Mem) (spki : Tlv) : T PublicKey := do
  let alg ← must (← expect m spki.row tagSequence)
  let alg_oid ← must (← parseTlv m alg.row)
  if ← oidEquals m alg_oid oidEcPublicKey then
    return (← ecKey m (alg.row.behind alg_oid) (spki.row.behind alg)).getD {}
  else if ← oidEquals m alg_oid oidRsaEncryption then
    rsaKey m (← rsaInts m (spki.row.behind alg))
  else return {}

/-- The scheme and the hash of a signatureAlgorithm. -/
def sigAlg (m : Mem) (oid : Tlv) : T (Option (Scheme × Hash)) := do
  if ← oidEquals m oid oidSha256WithRsa then return some (.rsaPkcs1, .sha256)
  else if ← oidEquals m oid oidSha384WithRsa then return some (.rsaPkcs1, .sha384)
  else if ← oidEquals m oid oidSha512WithRsa then return some (.rsaPkcs1, .sha512)
  else if ← oidEquals m oid oidEcdsaWithSha256 then return some (.ecdsa, .sha256)
  else if ← oidEquals m oid oidEcdsaWithSha384 then return some (.ecdsa, .sha384)
  else if ← oidEquals m oid oidEcdsaWithSha512 then return some (.ecdsa, .sha512)
  else return none

/-- The optional version in front of the serial number, and the serial number. -/
def skipSerial (m : Mem) (r : Row) : T Row := do
  let t ← must (← parseTlv m r)
  if t.tag = tagContext 0 then
    let serial ← must (← parseTlv m (r.behind t))
    return (r.behind t).behind serial
  else return r.behind t

/-- The bytes of a name that are kept. -/
def nameBytes (m : Mem) (r : Row) (t : Tlv) : T (List UInt8) :=
  slice m r.p (min (t.next - r.p).toNat maxNameLen)

/-- The two times of a validity. -/
def validity (m : Mem) (t : Tlv) : T (UInt64 × UInt64) := do
  let nb ← must (← parseTlv m t.row)
  let na ← must (← parseTlv m (t.row.behind nb))
  reading (parseTime m nb, parseTime m na) (timeReads nb ++ timeReads na)

/-- `x509_parse`. -/
def parse (fuel : Nat) (m : Mem) (der der_len : UInt32) : T Cert := do
  let outer ← must (← expect m ⟨der, der_len⟩ tagSequence)
  let tbs ← must (← expect m outer.row tagSequence)
  let r ← skipSerial m tbs.row
  let alg ← must (← expect m r tagSequence)
  let r := r.behind alg
  let issuer ← must (← expect m r tagSequence)
  let issuer_bytes ← nameBytes m r issuer
  let r := r.behind issuer
  let valid ← must (← expect m r tagSequence)
  let times ← validity m valid
  let r := r.behind valid
  let subject ← must (← expect m r tagSequence)
  let subject_bytes ← nameBytes m r subject
  let cn ← extractCn m fuel subject.row []
  let r := r.behind subject
  let spki ← must (← expect m r tagSequence)
  let key ← parseKey m spki
  let ext ← parseTail m fuel (r.behind spki) {}
  let r := outer.row.behind tbs
  let sig_alg ← must (← expect m r tagSequence)
  let sig_alg_oid ← must (← parseTlv m sig_alg.row)
  let scheme ← sigAlg m sig_alg_oid
  let sig_bits ← must (← expect m (r.behind sig_alg) tagBitString)
  let signature ←
    slice m (bitStringBytes sig_bits).1 (min (bitStringBytes sig_bits).2.toNat sigSize)
  return {
    tbs_data := outer.value, tbs_len := (tbs.value - outer.value) + tbs.len,
    issuer := issuer_bytes, subject := subject_bytes,
    not_before := times.1, not_after := times.2,
    key := key, ext := ext, sig_alg := scheme, signature := signature, cn := cn }

/-- The loop of `x509_matches_hostname`. -/
def sanMatches (m : Mem) (host : List UInt8) : Nat → Row → T Bool
  | 0, _ => .stop .endless
  | fuel + 1, r =>
    if r.remaining = 0 then pure false
    else do
      match ← parseTlv m r with
      | none => return false
      | some gn =>
        if gn.tag = tagContextPrimitive 2 then
          if ← reading (nameMatchesHost (m.slice gn.value gn.len.toNat) host)
              (nameReads m gn.value gn.len host) then
            return true
          else sanMatches m host fuel (r.behind gn)
        else sanMatches m host fuel (r.behind gn)

/-- `x509_matches_hostname`. The common name is no part of the certificate in memory. -/
def matchesHostname (fuel : Nat) (m : Mem) (cert : Cert) (host : List UInt8) : T Bool :=
  match cert.ext.san_ext with
  | some san => do
    match ← expect m san tagSequence with
    | none => return false
    | some names_seq => sanMatches m host fuel names_seq.row
  | none => pure (cert.cn ≠ [] ∧ nameMatchesHost cert.cn host)

end Trace

end X509
