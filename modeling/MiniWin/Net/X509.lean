import MiniWin.Net.Asn1
import MiniWin.Net.Pkcs1

/-!
# X.509: certificates

`kernel/x509.h`, and of `kernel/ecc.h` what frames an ECDSA signature. A loop over a row of elements
gets a number of rounds, since an element whose length goes round leads back to itself.
-/

namespace X509

open Asn1 Tls Pkcs1

/-! ## Object identifiers -/

def oidRsaEncryption : List UInt8 := [0x2a, 0x86, 0x48, 0x86, 0xf7, 0x0d, 0x01, 0x01, 0x01]
def oidSha256WithRsa : List UInt8 := [0x2a, 0x86, 0x48, 0x86, 0xf7, 0x0d, 0x01, 0x01, 0x0b]
def oidSha384WithRsa : List UInt8 := [0x2a, 0x86, 0x48, 0x86, 0xf7, 0x0d, 0x01, 0x01, 0x0c]
def oidSha512WithRsa : List UInt8 := [0x2a, 0x86, 0x48, 0x86, 0xf7, 0x0d, 0x01, 0x01, 0x0d]
def oidEcdsaWithSha256 : List UInt8 := [0x2a, 0x86, 0x48, 0xce, 0x3d, 0x04, 0x03, 0x02]
def oidEcdsaWithSha384 : List UInt8 := [0x2a, 0x86, 0x48, 0xce, 0x3d, 0x04, 0x03, 0x03]
def oidEcdsaWithSha512 : List UInt8 := [0x2a, 0x86, 0x48, 0xce, 0x3d, 0x04, 0x03, 0x04]
def oidEcPublicKey : List UInt8 := [0x2a, 0x86, 0x48, 0xce, 0x3d, 0x02, 0x01]
def oidCurveP256 : List UInt8 := [0x2a, 0x86, 0x48, 0xce, 0x3d, 0x03, 0x01, 0x07]
def oidCurveP384 : List UInt8 := [0x2b, 0x81, 0x04, 0x00, 0x22]
def oidSubjectAltName : List UInt8 := [0x55, 0x1d, 0x11]
def oidBasicConstraints : List UInt8 := [0x55, 0x1d, 0x13]
def oidKeyUsage : List UInt8 := [0x55, 0x1d, 0x0f]
def oidSubjectKeyId : List UInt8 := [0x55, 0x1d, 0x0e]
def oidAuthorityKeyId : List UInt8 := [0x55, 0x1d, 0x23]
def oidExtKeyUsage : List UInt8 := [0x55, 0x1d, 0x25]
def oidCertPolicies : List UInt8 := [0x55, 0x1d, 0x20]
def oidPolicyMappings : List UInt8 := [0x55, 0x1d, 0x21]
def oidPolicyConstraints : List UInt8 := [0x55, 0x1d, 0x24]
def oidInhibitAnyPolicy : List UInt8 := [0x55, 0x1d, 0x36]
def oidCommonName : List UInt8 := [0x55, 0x04, 0x03]

/-! ## A certificate -/

/-- The schemes of a signature. -/
inductive Scheme where
  | rsaPkcs1 | ecdsa
  deriving DecidableEq

/-- The public key of a certificate. -/
structure PublicKey where
  modulus : Nat := 0
  exponent : UInt32 := 0
  pubkey_valid : Bool := false
  ec_group : UInt16 := 0
  ec_point : List UInt8 := []

/-- What is kept of the extensions. The value of a subjectAltName is where it lies in memory, and
no value lies at the null pointer. -/
structure Extensions where
  has_key_usage : Bool := false
  key_usage : UInt16 := 0
  has_unknown_critical : Bool := false
  is_ca : Bool := false
  san_ext : Option Row := none

/-- `x509_cert_t`. The scheme and the hash of its signature are there if `sig_alg_supported`. -/
structure Cert where
  tbs_data : UInt32
  tbs_len : UInt32
  issuer : List UInt8
  subject : List UInt8
  not_before : UInt64
  not_after : UInt64
  key : PublicKey
  ext : Extensions
  sig_alg : Option (Scheme × Hash)
  signature : List UInt8
  cn : List UInt8

/-- `X509_MAX_NAME_LEN`. -/
def maxNameLen : Nat := 512

/-- The bytes of `signature`. -/
def sigSize : Nat := 512

/-- The characters that `cn` holds. -/
def cnMax : Nat := 255

/-- `X509_KU_DIGITAL_SIGNATURE` and `X509_KU_KEY_CERT_SIGN`. -/
def kuDigitalSignature : UInt16 := 0x01
def kuKeyCertSign : UInt16 := 0x20

/-! ## Times -/

/-- The digit at `s[i]`, if it is one. -/
def digit (m : Mem) (s i : UInt32) : UInt32 := (m (s + i)).toUInt32 - 48

def twoDigits (m : Mem) (s i : UInt32) : UInt32 := digit m s i * 10 + digit m s (i + 1)

/-- A packed time, with what follows the year at `pos`. -/
def packTime (m : Mem) (s year pos : UInt32) : UInt64 :=
  year.toUInt64 * 10000000000 + (twoDigits m s pos).toUInt64 * 100000000
    + (twoDigits m s (pos + 2)).toUInt64 * 1000000 + (twoDigits m s (pos + 4)).toUInt64 * 10000
    + (twoDigits m s (pos + 6)).toUInt64 * 100 + (twoDigits m s (pos + 8)).toUInt64

/-- `x509_parse_time`. -/
def parseTime (m : Mem) (t : Tlv) : UInt64 :=
  if t.tag = tagUtcTime then
    if t.len < 13 then 0
    else
      let yy := twoDigits m t.value 0
      packTime m t.value (if yy < 50 then 2000 + yy else 1900 + yy) 2
  else if t.tag = tagGeneralizedTime then
    if t.len < 15 then 0
    else
      packTime m t.value (digit m t.value 0 * 1000 + digit m t.value 1 * 100
        + digit m t.value 2 * 10 + digit m t.value 3) 4
  else 0

/-! ## Names -/

/-- The bytes of a name that are kept. -/
def nameBytes (m : Mem) (r : Row) (t : Tlv) : List UInt8 :=
  m.slice r.p (min (t.next - r.p).toNat maxNameLen)

/-- The attribute of a name, if it is a common name: its value. -/
def commonName (m : Mem) (atv : Tlv) : Option Tlv := do
  let oid ← atv.row.parse m
  if oidEquals m oid oidCommonName then (atv.row.behind oid).parse m else none

/-- The inner loop of `x509_extract_cn`. -/
def cnInSet (m : Mem) : Nat → Row → List UInt8 → Option (List UInt8)
  | 0, _, _ => none
  | fuel + 1, r, cn =>
    if r.remaining = 0 then some cn
    else
      match r.expect m tagSequence with
      | none => some cn
      | some atv =>
        cnInSet m fuel (r.behind atv)
          (match commonName m atv with
          | some v => m.slice v.value (min v.len.toNat cnMax)
          | none => cn)

/-- `x509_extract_cn`. -/
def extractCn (m : Mem) : Nat → Row → List UInt8 → Option (List UInt8)
  | 0, _, _ => none
  | fuel + 1, r, cn =>
    if r.remaining = 0 then some cn
    else
      match r.expect m tagSet with
      | none => some cn
      | some rdn => (cnInSet m fuel rdn.row cn).bind (extractCn m fuel (r.behind rdn))

/-! ## Extensions -/

/-- `x509_ext_understood`. -/
def extUnderstood (m : Mem) (oid : Tlv) : Bool :=
  [oidBasicConstraints, oidKeyUsage, oidSubjectAltName, oidSubjectKeyId, oidAuthorityKeyId,
    oidExtKeyUsage, oidCertPolicies, oidPolicyMappings, oidPolicyConstraints,
    oidInhibitAnyPolicy].any (oidEquals m oid)

/-- An extension: what it is, if it is critical, and its value, if it has one. -/
structure Ext where
  oid : Tlv
  critical : Bool
  octet : Option Tlv

/-- A BOOLEAN that is not `FALSE`. -/
def isTrue (m : Mem) (t : Tlv) : Bool := t.len > 0 ∧ m t.value ≠ 0x00

/-- One extension, if its identifier can be read. -/
def readExt (m : Mem) (x : Tlv) : Option Ext :=
  (x.row.parse m).map fun oid =>
    let r := x.row.behind oid
    match (r.parse m).filter (·.tag = 0x01) with
    | some b =>
      { oid := oid, critical := isTrue m b, octet := (r.behind b).expect m tagOctetString }
    | none => { oid := oid, critical := false, octet := r.expect m tagOctetString }

/-- The bits of a KeyUsage, bit `i` the `i`-th of the BIT STRING. -/
def keyUsageBits (m : Mem) (bits : Tlv) : UInt16 :=
  let nbits := (bits.len - 1) * 8 - (m bits.value).toUInt32
  (List.range 16).foldl (fun ku b =>
    if UInt32.ofNat b < nbits
        ∧ m (bits.value + 1 + UInt32.ofNat (b / 8)) &&& (0x80 >>> UInt8.ofNat (b % 8)) ≠ 0
    then ku ||| (1 <<< UInt16.ofNat b) else ku) 0

/-- The value of a keyUsage extension. -/
def keyUsage (m : Mem) (octet : Tlv) : Option UInt16 :=
  ((octet.row.expect m tagBitString).filter (·.len ≥ 2)).map (keyUsageBits m)

/-- The CA flag of a basicConstraints extension, if it has one. -/
def caFlag (m : Mem) (octet : Tlv) : Option Bool := do
  let bc ← octet.row.expect m tagSequence
  let ca ← bc.row.parse m
  if ca.tag = 0x01 then some (isTrue m ca) else none

/-- What an extension changes. -/
def applyExt (m : Mem) (x : Ext) (e : Extensions) : Extensions :=
  let e :=
    if x.critical ∧ ¬ extUnderstood m x.oid then { e with has_unknown_critical := true } else e
  match x.octet with
  | none => e
  | some octet =>
    if oidEquals m x.oid oidSubjectAltName then
      { e with san_ext := some octet.row }
    else if oidEquals m x.oid oidKeyUsage then
      match keyUsage m octet with
      | some ku => { e with has_key_usage := true, key_usage := ku }
      | none => { e with has_unknown_critical := true }
    else if oidEquals m x.oid oidBasicConstraints then
      match caFlag m octet with
      | some ca => { e with is_ca := ca }
      | none => e
    else e

/-- `x509_parse_extensions`. -/
def parseExtensions (m : Mem) : Nat → Row → Extensions → Option Extensions
  | 0, _, _ => none
  | fuel + 1, r, e =>
    if r.remaining = 0 then some e
    else
      match r.expect m tagSequence with
      | none => some { e with has_unknown_critical := true }
      | some x =>
        match readExt m x with
        | none => some { e with has_unknown_critical := true }
        | some ext => parseExtensions m fuel (r.behind x) (applyExt m ext e)

/-- The loop over what is behind the key. -/
def parseTail (m : Mem) : Nat → Row → Extensions → Option Extensions
  | 0, _, _ => none
  | fuel + 1, r, e =>
    if r.remaining = 0 then some e
    else
      match r.parse m with
      | none => some e
      | some t =>
        (match if t.tag = tagContext 3 then t.row.expect m tagSequence else none with
          | some exts => parseExtensions m fuel exts.row e
          | none => some e).bind (parseTail m fuel (r.behind t))

/-! ## Keys and signatures -/

/-- The group of a curve, and the bytes of a point on it. -/
def curveGroup (m : Mem) (oid : Tlv) : Option (UInt16 × Nat) :=
  if oidEquals m oid oidCurveP256 then some (23, 65)
  else if oidEquals m oid oidCurveP384 then some (24, 97)
  else none

/-- The content of a BIT STRING. -/
def bitString (m : Mem) (t : Tlv) : List UInt8 :=
  m.slice (bitStringBytes t).1 (bitStringBytes t).2.toNat

/-- A key on a curve. -/
def ecKey (m : Mem) (params key : Row) : Option PublicKey := do
  let curve_oid ← params.parse m
  let pt_bits ← key.expect m tagBitString
  let (group, want) ← curveGroup m curve_oid
  if (bitStringBytes pt_bits).2.toNat = want ∧ m (bitStringBytes pt_bits).1 = 0x04 then
    some { ec_group := group, ec_point := bitString m pt_bits }
  else none

/-- The modulus and the exponent of an RSA key. -/
def rsaInts (m : Mem) (key : Row) : Option (Tlv × Tlv) := do
  let pk_bits ← key.expect m tagBitString
  let rsa_seq ← expect m (bitStringBytes pk_bits).1 (bitStringBytes pk_bits).2 tagSequence
  let mod_t ← rsa_seq.row.expect m tagInteger
  let exp_t ← (rsa_seq.row.behind mod_t).expect m tagInteger
  some (mod_t, exp_t)

/-- The bytes of an INTEGER, without a zero in front. -/
def intBytes (m : Mem) (t : Tlv) : List UInt8 :=
  let v := m.slice t.value t.len.toNat
  if v.head? = some 0x00 then v.drop 1 else v

/-- The subjectPublicKeyInfo. -/
def parseKey (m : Mem) (spki : Tlv) : Option PublicKey := do
  let alg ← spki.row.expect m tagSequence
  let alg_oid ← alg.row.parse m
  let key := spki.row.behind alg
  if oidEquals m alg_oid oidEcPublicKey then
    some ((ecKey m (alg.row.behind alg_oid) key).getD {})
  else if oidEquals m alg_oid oidRsaEncryption then
    match rsaInts m key with
    | some (mod_t, exp_t) =>
      some { modulus := bnFromBytes (intBytes m mod_t), exponent := smallInt m exp_t,
             pubkey_valid := true }
    | none => some {}
  else some {}

/-- The scheme and the hash of a signatureAlgorithm. -/
def sigAlg (m : Mem) (oid : Tlv) : Option (Scheme × Hash) :=
  if oidEquals m oid oidSha256WithRsa then some (.rsaPkcs1, .sha256)
  else if oidEquals m oid oidSha384WithRsa then some (.rsaPkcs1, .sha384)
  else if oidEquals m oid oidSha512WithRsa then some (.rsaPkcs1, .sha512)
  else if oidEquals m oid oidEcdsaWithSha256 then some (.ecdsa, .sha256)
  else if oidEquals m oid oidEcdsaWithSha384 then some (.ecdsa, .sha384)
  else if oidEquals m oid oidEcdsaWithSha512 then some (.ecdsa, .sha512)
  else none

/-! ## The parser -/

/-- Why `x509_parse` gives no certificate: it refuses it, or it does not come to its end. -/
inductive Stop where
  | refused | endless
  deriving DecidableEq

/-- What the certificate has to have. -/
def must {α : Type} : Option α → Except Stop α
  | some a => .ok a
  | none => .error .refused

/-- What a loop comes to. -/
def ends {α : Type} : Option α → Except Stop α
  | some a => .ok a
  | none => .error .endless

/-- The optional version in front of the serial number. -/
def skipVersion (m : Mem) (r : Row) : Option Row :=
  (r.parse m).bind fun t => if t.tag = tagContext 0 then some (r.behind t) else some r

/-- `x509_parse`. -/
def parse (fuel : Nat) (m : Mem) (der der_len : UInt32) : Except Stop Cert := do
  let outer ← must (expect m der der_len tagSequence)
  let tbs ← must (outer.row.expect m tagSequence)
  let r ← must (skipVersion m tbs.row)
  let serial ← must (r.parse m)
  let r := r.behind serial
  let alg ← must (r.expect m tagSequence)
  let r := r.behind alg
  let issuer ← must (r.expect m tagSequence)
  let issuer_bytes := nameBytes m r issuer
  let r := r.behind issuer
  let validity ← must (r.expect m tagSequence)
  let nb ← must (validity.row.parse m)
  let na ← must ((validity.row.behind nb).parse m)
  let r := r.behind validity
  let subject ← must (r.expect m tagSequence)
  let subject_bytes := nameBytes m r subject
  let cn ← ends (extractCn m fuel subject.row [])
  let r := r.behind subject
  let spki ← must (r.expect m tagSequence)
  let key ← must (parseKey m spki)
  let ext ← ends (parseTail m fuel (r.behind spki) {})
  -- behind the certificate proper: the algorithm and the signature
  let r := outer.row.behind tbs
  let sig_alg ← must (r.expect m tagSequence)
  let sig_alg_oid ← must (sig_alg.row.parse m)
  let sig_bits ← must ((r.behind sig_alg).expect m tagBitString)
  return {
    tbs_data := outer.value, tbs_len := (tbs.value - outer.value) + tbs.len,
    issuer := issuer_bytes, subject := subject_bytes,
    not_before := parseTime m nb, not_after := parseTime m na,
    key := key, ext := ext, sig_alg := sigAlg m sig_alg_oid,
    signature := (bitString m sig_bits).take sigSize, cn := cn }

/-! ## Signatures -/

/-- `ecc_der_len`: the bytes of a length, and the length. -/
def eccDerLen : List UInt8 → Option (Nat × Nat)
  | [] => none
  | b :: rest =>
    if b < 0x80 then some (1, b.toNat)
    else
      let nb := (b &&& 0x7F).toNat
      if nb = 0 ∨ nb > 2 ∨ rest.length < nb then none
      else some (1 + nb, BigEndian.value (rest.take nb))

/-- What the checks of signatures call: the hashes, and the arithmetic on curves, of a group, a
point, a digest and a signature. -/
structure Crypto extends Digests where
  ecdsa : UInt16 → List UInt8 → List UInt8 → List UInt8 → Bool

/-- `ecdsa_verify_der`: a SEQUENCE that takes up all of the signature, and in it what is right. -/
def ecdsaVerifyDer (C : Crypto) (group : UInt16) (pub digest sig : List UInt8) : Bool :=
  if sig.length < 8 ∨ sig.head? ≠ some 0x30 then false
  else
    match eccDerLen (sig.drop 1) with
    | none => false
    | some (hl, seq_len) =>
      if 1 + hl + seq_len ≠ sig.length then false else C.ecdsa group pub digest sig

/-- `x509_verify_signed_by`. -/
def verifySignedBy (C : Crypto) (m : Mem) (cert issuer : Cert) : Bool :=
  let tbs := m.slice cert.tbs_data cert.tbs_len.toNat
  match cert.sig_alg with
  | none => false
  | some (.rsaPkcs1, hash) =>
    issuer.key.pubkey_valid
      && verify C.toDigests hash tbs cert.signature issuer.key.modulus issuer.key.exponent.toNat
  | some (.ecdsa, hash) =>
    if (issuer.key.ec_group = 23 ∨ issuer.key.ec_group = 24) ∧ issuer.key.ec_point ≠ [] then
      ecdsaVerifyDer C issuer.key.ec_group issuer.key.ec_point (C.hash hash tbs) cert.signature
    else false

/-- `x509_has_usable_key`. -/
def hasUsableKey (cert : Cert) : Bool := cert.key.pubkey_valid || cert.key.ec_group ≠ 0

/-- `x509_is_valid_now`. -/
def isValidNow (cert : Cert) (now : UInt64) : Bool :=
  now ≥ cert.not_before ∧ now ≤ cert.not_after

/-! ## Host names -/

/-- `x509_ascii_lower`. -/
def asciiLower (c : UInt8) : UInt8 := if c ≥ 0x41 ∧ c ≤ 0x5A then c + 32 else c

/-- `x509_name_matches_host`. -/
def nameMatchesHost (pattern host : List UInt8) : Bool :=
  match pattern with
  | 0x2A :: 0x2E :: c :: suffix =>
    match host.dropWhile (· ≠ 0x2E) with
    | [] => false
    -- the bytes of a host are signed here, so that no pattern has one above 127
    | _ :: rest => rest.map asciiLower = (c :: suffix).map asciiLower ∧ rest.all (· < 0x80)
  | _ => pattern.map asciiLower = host.map asciiLower

/-- The loop of `x509_matches_hostname`. -/
def sanMatches (m : Mem) (host : List UInt8) : Nat → Row → Option Bool
  | 0, _ => none
  | fuel + 1, r =>
    if r.remaining = 0 then some false
    else
      match r.parse m with
      | none => some false
      | some gn =>
        if gn.tag = tagContextPrimitive 2 ∧ nameMatchesHost (m.slice gn.value gn.len.toNat) host then
          some true
        else sanMatches m host fuel (r.behind gn)

/-- `x509_matches_hostname`. -/
def matchesHostname (fuel : Nat) (m : Mem) (cert : Cert) (host : List UInt8) : Option Bool :=
  match cert.ext.san_ext with
  | some san =>
    match san.expect m tagSequence with
    | none => some false
    | some names_seq => sanMatches m host fuel names_seq.row
  | none => some (cert.cn ≠ [] ∧ nameMatchesHost cert.cn host)

/-- `x509_issuer_matches_subject`. -/
def issuerMatchesSubject (child parent : Cert) : Bool := child.issuer = parent.subject

/-- `x509_leaf_extensions_ok`. -/
def leafExtensionsOk (c : Cert) : Bool :=
  ¬ c.ext.has_unknown_critical ∧ (c.ext.has_key_usage → c.ext.key_usage &&& kuDigitalSignature ≠ 0)

/-- `x509_ca_extensions_ok`. -/
def caExtensionsOk (c : Cert) : Bool :=
  c.ext.is_ca ∧ ¬ c.ext.has_unknown_critical
    ∧ (c.ext.has_key_usage → c.ext.key_usage &&& kuKeyCertSign ≠ 0)

end X509
