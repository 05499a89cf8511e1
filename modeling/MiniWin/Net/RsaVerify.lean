import MiniWin.Net.BignumSpec
import MiniWin.Net.X509Chain

/-!
# The signatures that an RSA key accepts

`pkcs1_verify` on the limbs of `Bignum` accepts what a signature is, and beside it what is a
signature plus a multiple of the modulus: the power reduces its base, and nothing compares the two.
Through a certificate, what `x509_parse` cuts off comes to this: a signature behind its 512th byte,
and an exponent behind its fourth.
-/

namespace Pkcs1

open Tls (Hash)

/-- What the recovered bytes have to be. -/
def checkRecovered (D : Digests) (h : Hash) (data : List UInt8) (mod_bytes : Nat)
    (recovered : List UInt8) : Bool :=
  let i := 2 + ((recovered.drop 2).takeWhile (· = 0xFF)).length
  mod_bytes ≥ 11 ∧ recovered[0]? = some 0x00 ∧ recovered[1]? = some 0x01 ∧ i ≥ 10
    ∧ recovered[i]? = some 0x00 ∧ recovered.drop (i + 1) = digestInfoPrefix h ++ D.hash h data

/-- `pkcs1_verify`. -/
def pkcs1Verify (D : Digests) (h : Hash) (data sig : List UInt8) (modulus : Bignum.Num)
    (exponent : UInt32) : Bool :=
  let mod_bytes := (Bignum.bitLength modulus + 7) / 8
  if mod_bytes = 0 ∨ mod_bytes > 512 then false
  else if sig.length ≠ mod_bytes then false
  else
    let recovered := Bignum.modpowU32exp (Bignum.fromBytesBe sig) exponent modulus
    checkRecovered D h data mod_bytes (Bignum.toBytesBe recovered mod_bytes)

/-- What is signed: a digest, and so many bytes in front of it. -/
def padded (D : Digests) (h : Hash) (data : List UInt8) (t : Nat) : List UInt8 :=
  [0x00, 0x01] ++ List.replicate t 0xFF ++ [0x00] ++ (digestInfoPrefix h ++ D.hash h data)

/-- The power of a signature is the digest, with eight bytes of padding or more. -/
def Encoded (D : Digests) (h : Hash) (data : List UInt8) (n v : Nat) : Prop :=
  ∃ t ≥ 8, BigEndian.bytes (modBytes n) v = padded D h data t

/-- **A signature**: it has the bytes of the modulus, it is below it, and its power is the
digest. -/
structure Signature (D : Digests) (h : Hash) (data sig : List UInt8) (n e : Nat) : Prop where
  length : sig.length = modBytes n
  below : BigEndian.value sig < n
  encoded : Encoded D h data n (BigEndian.value sig ^ e % n)

/-- What is left of a signature modulo the modulus. -/
def remainder (sig : List UInt8) (n : Nat) : List UInt8 :=
  BigEndian.bytes (modBytes n) (BigEndian.value sig % n)

/-- So many bytes, of which the remainder is a signature. -/
def Wrapped (D : Digests) (h : Hash) (data sig : List UInt8) (n e : Nat) : Prop :=
  sig.length = modBytes n ∧ Signature D h data (remainder sig n) n e

/-! ## The limbs -/

variable {D : Digests} {h : Hash} {data sig : List UInt8} {n e e' v t : Nat}

theorem bitLength_eq_size (n : Nat) : bitLength n = n.size := by
  unfold bitLength
  split
  · next h => rw [h]; rfl
  · next h =>
    refine Nat.le_antisymm (Nat.lt_size.mpr (Nat.log2_self_le h)) (Nat.size_le.mpr ?_)
    exact Nat.lt_log2_self

theorem modBytes_eq (m : Bignum.Num) : (Bignum.bitLength m + 7) / 8 = modBytes m.value := by
  unfold modBytes
  rw [Bignum.bitLength_eq, bitLength_eq_size]

theorem modBytes_pos (h : 2 ≤ modBytes n) : 1 < n := by
  by_contra hle
  obtain rfl | rfl : n = 0 ∨ n = 1 := by omega
  · exact absurd h (by decide)
  · exact absurd h (by decide)

theorem roomy {m : Bignum.Num} (hk : modBytes m.value ≤ 512) : Bignum.Roomy m := by
  have hbits : ∀ k, 8 * 512 ≤ k → 256 ^ modBytes m.value ≤ 2 ^ k := fun k hle => by
    rw [BigEndian.pow_256]
    exact Nat.pow_le_pow_right (by decide) (by omega)
  exact Bignum.roomy_of_lt (k := 4159) rfl
    (Nat.lt_of_lt_of_le (lt_modBytes m.value) (hbits 4159 (by decide)))

theorem check_eq (D : Digests) (h : Hash) (data : List UInt8) (k v : Nat) :
    check D h data k v = checkRecovered D h data k (BigEndian.bytes k v) := rfl

theorem check_short {k : Nat} (hk : k < 11) : check D h data k v = false := by
  unfold check
  exact decide_eq_false fun hc => absurd hc.1 (Nat.not_le_of_lt hk)

/-- **The limbs compute what the numbers do.** -/
theorem pkcs1Verify_eq (D : Digests) (h : Hash) (data sig : List UInt8) (m : Bignum.Num)
    (exponent : UInt32) :
    pkcs1Verify D h data sig m exponent = verify D h data sig m.value exponent.toNat := by
  unfold pkcs1Verify verify
  dsimp only
  rw [modBytes_eq]
  split
  · rfl
  next hk =>
  split
  · rfl
  rw [not_or, Nat.not_lt] at hk
  rw [Bignum.toBytesBe_eq, ← check_eq]
  rcases Nat.lt_or_ge (modBytes m.value) 11 with hlt | hge
  · rw [check_short hlt, check_short hlt]
  · have hone := modBytes_pos (Nat.le_trans (by decide : 2 ≤ 11) hge)
    have hbits : 32 * Bignum.bignumLimbs = bignumBits := rfl
    rw [Bignum.value_modpowU32exp _ _ (roomy hk.2) hone, Bignum.value_fromBytesBe, modpow_eq hone,
      hbits]
    rfl

/-! ## The padding -/

theorem padded_eq (D : Digests) (h : Hash) (data : List UInt8) (t : Nat) : padded D h data t
    = 0x00 :: 0x01 :: (List.replicate t 0xFF ++ 0x00 :: (digestInfoPrefix h ++ D.hash h data)) := by
  unfold padded
  simp only [List.cons_append, List.nil_append, List.append_assoc]

theorem length_padded (D : Digests) (h : Hash) (data : List UInt8) (t : Nat) : t + 3
    ≤ (padded D h data t).length := by
  rw [padded_eq, List.length_cons, List.length_cons, List.length_append, List.length_replicate,
    List.length_cons]
  omega

/-- Padding is read to its end. -/
theorem check_padded {k : Nat} (hb : BigEndian.bytes k v = padded D h data t) :
    check D h data k v = true ↔ 8 ≤ t := by
  have hlen := length_padded D h data t
  rw [← hb, BigEndian.length_bytes] at hlen
  obtain ⟨rest, hrest⟩ : ∃ rest, digestInfoPrefix h ++ D.hash h data = rest := ⟨_, rfl⟩
  rw [padded_eq, hrest] at hb
  have htake : (List.replicate t 0xFF ++ 0x00 :: rest).takeWhile
      (fun b : UInt8 => decide (b = 0xFF)) = List.replicate t 0xFF := by
    rw [List.takeWhile_append_of_pos fun b hb => by rw [List.eq_of_mem_replicate hb]; decide,
      List.takeWhile_cons_of_neg (by decide), List.append_nil]
  have hmid : (0x00 :: 0x01 :: (List.replicate t 0xFF ++ 0x00 :: rest))[2 + t]?
      = some (0x00 : UInt8) := by
    rw [Nat.add_comm, List.getElem?_cons_succ, List.getElem?_cons_succ,
      List.getElem?_append_right (by rw [List.length_replicate]), List.length_replicate,
      Nat.sub_self]
    rfl
  have hdrop : (0x00 :: 0x01 :: (List.replicate t 0xFF ++ 0x00 :: rest)).drop (2 + t + 1)
      = (rest : List UInt8) := by
    rw [show 2 + t + 1 = t + 1 + 1 + 1 by omega, List.drop_succ_cons, List.drop_succ_cons,
      List.drop_append, List.length_replicate, Nat.add_sub_cancel_left,
      List.drop_eq_nil_of_le (by rw [List.length_replicate]; omega)]
    rfl
  rw [check_eq, hb]
  unfold checkRecovered
  rw [List.drop_succ_cons, List.drop_succ_cons, List.drop_zero, htake, List.length_replicate]
  dsimp only
  rw [hmid, hdrop, hrest, decide_eq_true_iff]
  constructor
  · rintro ⟨-, -, -, hten, -⟩
    omega
  · intro ht
    exact ⟨by omega, rfl, rfl, by omega, rfl, rfl⟩

theorem check_iff : check D h data (modBytes n) v = true ↔ Encoded D h data n v := by
  constructor
  · intro hc
    obtain ⟨t, -, hb⟩ := check_bytes hc
    exact ⟨t, (check_padded hb).mp hc, hb⟩
  · rintro ⟨t, ht, hb⟩
    exact (check_padded hb).mpr ht

/-- What is encoded has eleven bytes or more. -/
theorem Encoded.one_lt (henc : Encoded D h data n v) : 1 < n := by
  obtain ⟨t, ht, hb⟩ := henc
  have hlen := length_padded D h data t
  rw [← hb, BigEndian.length_bytes] at hlen
  exact modBytes_pos (by omega)

/-! ## What is accepted -/

theorem value_remainder (hn : 0 < n) :
    BigEndian.value (remainder sig n) = BigEndian.value sig % n :=
  BigEndian.value_bytes (Nat.lt_trans (Nat.mod_lt _ hn) (lt_modBytes n))

theorem wrapped_iff : Wrapped D h data sig n e
    ↔ sig.length = modBytes n ∧ Encoded D h data n (BigEndian.value sig ^ e % n) := by
  have hpow : ∀ hn : 0 < n, BigEndian.value (remainder sig n) ^ e % n
      = BigEndian.value sig ^ e % n := fun hn => by
    rw [value_remainder hn, ← Nat.pow_mod]
  refine and_congr_right fun _ => ⟨fun hs => ?_, fun henc => ?_⟩
  · have hn := hs.encoded.one_lt
    have := hs.encoded
    rwa [hpow (by omega)] at this
  · have hn : 0 < n := Nat.lt_of_succ_lt henc.one_lt
    refine ⟨BigEndian.length_bytes _ _, ?_, by rwa [hpow hn]⟩
    rw [value_remainder hn]
    exact Nat.mod_lt _ hn

/-- A signature is one of those that are below the modulus. -/
theorem signature_iff : Signature D h data sig n e
    ↔ Wrapped D h data sig n e ∧ BigEndian.value sig < n := by
  rw [wrapped_iff]
  exact ⟨fun hs => ⟨⟨hs.length, hs.encoded⟩, hs.below⟩, fun ⟨⟨hl, he⟩, hb⟩ => ⟨hl, hb, he⟩⟩

/-- **What is accepted**: so many bytes of which the remainder is a signature. -/
theorem verify_iff (hk : modBytes n ≤ 512) :
    verify D h data sig n e = true ↔ Wrapped D h data sig n e := by
  rw [wrapped_iff]
  constructor
  · intro hv
    obtain ⟨-, hl, hc⟩ := verify_some hv
    exact ⟨hl, check_iff.mp hc⟩
  · rintro ⟨hl, henc⟩
    have hone := henc.one_lt
    have hpos : modBytes n ≠ 0 := fun hz => by
      have := lt_modBytes n
      rw [hz] at this
      omega
    unfold verify
    rw [if_neg (not_or.mpr ⟨hpos, Nat.not_lt.mpr hk⟩), if_neg (not_not.mpr hl),
      bnFromBytes_eq (by omega), modpow_eq hone]
    exact check_iff.mpr henc

theorem verify_valid_iff (hk : modBytes n ≤ 512) :
    (verify D h data sig n e = true ↔ Signature D h data sig n e)
      ↔ (Wrapped D h data sig n e → BigEndian.value sig < n) := by
  rw [verify_iff hk, signature_iff]
  exact ⟨fun h hw => (h.mp hw).2, fun h => ⟨fun hw => ⟨hw, h hw⟩, And.left⟩⟩

/-- **What is kept of a signature and of an exponent is enough**: not even the remainder of the
first 512 bytes of a longer one is a signature, and the exponent `e` stands for `e'`. -/
structure Enough (D : Digests) (h : Hash) (data sig : List UInt8) (n e e' : Nat) : Prop where
  long : 512 < sig.length → ¬ Wrapped D h data (sig.take 512) n e
  below : Wrapped D h data sig n e → BigEndian.value sig < n
  exponent : Signature D h data sig n e ↔ Signature D h data sig n e'

theorem verify_kept_iff (hk : modBytes n ≤ 512) :
    (verify D h data (sig.take 512) n e = true ↔ Signature D h data sig n e')
      ↔ Enough D h data sig n e e' := by
  rw [verify_iff hk]
  rcases Nat.lt_or_ge 512 sig.length with hlong | hle
  · -- a signature is not that long
    have hlen : sig.length ≠ modBytes n := by omega
    have hno : ∀ e, ¬ Signature D h data sig n e := fun e hs => hlen hs.length
    refine ⟨fun hiff => ⟨fun _ hw => hno e' (hiff.mp hw), fun hw => absurd hw.1 hlen,
      iff_of_false (hno e) (hno e')⟩, fun hc => iff_of_false (hc.long hlong) (hno e')⟩
  · rw [List.take_of_length_le hle]
    constructor
    · intro hiff
      have hbelow : Wrapped D h data sig n e → BigEndian.value sig < n := fun hw =>
        (hiff.mp hw).below
      refine ⟨fun hlt => absurd hlt (Nat.not_lt.mpr hle), hbelow, ?_⟩
      rw [← hiff, signature_iff]
      exact ⟨And.left, fun hw => ⟨hw, hbelow hw⟩⟩
    · rintro ⟨-, hbelow, hexp⟩
      rw [← hexp, signature_iff]
      exact ⟨fun hw => ⟨hw, hbelow hw⟩, And.left⟩

end Pkcs1

namespace X509

open Asn1 Tls Pkcs1

variable {m m' : Mem} {spki mod_t exp_t : Tlv} {k : PublicKey} {fuel fuel' : Nat} {c p : Cert}
  {s s' : Shape} {hash : Hash} {C : Crypto}

/-- An RSA key that can be read is kept. -/
theorem parseKey_rsa (h : parseKey m spki = some k) (hkey : rsaKey m spki = some (mod_t, exp_t)) :
    k.pubkey_valid = true ∧ k.modulus = bnFromBytes (intBytes m mod_t)
      ∧ k.exponent = smallInt m exp_t := by
  obtain ⟨alg, halg, h⟩ := Option.bind_eq_some_iff.mp h
  obtain ⟨oid, hoid, h⟩ := Option.bind_eq_some_iff.mp h
  obtain ⟨alg', halg', hkey⟩ := Option.bind_eq_some_iff.mp hkey
  rw [halg] at halg'
  obtain rfl := Option.some.inj halg'
  obtain ⟨oid', hoid', hkey⟩ := Option.bind_eq_some_iff.mp hkey
  rw [hoid] at hoid'
  obtain rfl := Option.some.inj hoid'
  dsimp only at h
  split at hkey
  · next hrsa =>
    have hec : ¬ oidEquals m oid oidEcPublicKey = true := fun hec =>
      absurd (oid_unique hec hrsa) (by decide)
    rw [if_neg hec, if_pos hrsa, hkey] at h
    rw [← Option.some.inj h]
    exact ⟨rfl, rfl, rfl⟩
  · exact nomatch hkey

theorem bnFromBytes_of_modBytes {l : List UInt8} (hk : modBytes (BigEndian.value l) ≤ 512) :
    bnFromBytes l = BigEndian.value l := by
  refine Nat.mod_eq_of_lt (Nat.lt_of_lt_of_le (lt_modBytes _) ?_)
  rw [BigEndian.pow_256]
  exact Nat.pow_le_pow_right (by decide) (by unfold bignumBits; omega)

theorem value_modulus {l : List UInt8} (hk : modBytes (BigEndian.value l) ≤ 512) :
    (Bignum.fromBytesBe l).value = BigEndian.value l := by
  have hbits : 32 * Bignum.bignumLimbs = bignumBits := rfl
  rw [Bignum.value_fromBytesBe, hbits]
  exact bnFromBytes_of_modBytes hk

/-- **A certificate is checked** with what is kept of its signature, and of the exponent of its
issuer. -/
theorem verifySignedBy_rsa (hc : Stored fuel m s c) (hp : Stored fuel' m' s' p)
    (halg : sigAlg m s.sig_alg_oid = some (.rsaPkcs1, hash))
    (hkey : rsaKey m' s'.spki = some (mod_t, exp_t))
    (hk : modBytes (BigEndian.value (intBytes m' mod_t)) ≤ 512) :
    verifySignedBy C m c p = verify C.toDigests hash (s.tbs.whole m)
      ((bitString m s.sig_bits).take 512) (BigEndian.value (intBytes m' mod_t))
      (BigEndian.value ((intBytes m' exp_t).take 4)) := by
  obtain ⟨hvalid, hmod, hexp⟩ := parseKey_rsa hp.key hkey
  unfold verifySignedBy
  rw [hc.sig_alg, halg, hc.signature, hc.tbs]
  dsimp only
  rw [hvalid, hmod, hexp, smallInt_toNat, bnFromBytes_of_modBytes hk, Bool.true_and]
  rfl

/-! ## What is accepted is a signature, or not -/

/-- **The signatures are accepted, and no others**, exactly if what is accepted is below the
modulus; and through two certificates, exactly if what is kept of them is enough. -/
theorem rsa_accepts_iff (C : Crypto) :
    (∀ (h : Hash) (data sig : List UInt8) (modulus : Bignum.Num) (exponent : UInt32),
      modBytes modulus.value ≤ 512 →
      ((pkcs1Verify C.toDigests h data sig modulus exponent = true
          ↔ Signature C.toDigests h data sig modulus.value exponent.toNat)
        ↔ (Wrapped C.toDigests h data sig modulus.value exponent.toNat
          → BigEndian.value sig < modulus.value)))
    ∧ ∀ (fuel fuel' : Nat) (m m' : Mem) (r r' : Row) (c p : Cert) (s s' : Shape) (hash : Hash)
        (mod_t exp_t : Tlv),
      parse fuel m r.p r.remaining = .ok c → shape m r = some s →
      parse fuel' m' r'.p r'.remaining = .ok p → shape m' r' = some s' →
      sigAlg m s.sig_alg_oid = some (.rsaPkcs1, hash) → rsaKey m' s'.spki = some (mod_t, exp_t) →
      modBytes (BigEndian.value (intBytes m' mod_t)) ≤ 512 →
      ((verifySignedBy C m c p = true
          ↔ Signature C.toDigests hash (s.tbs.whole m) (bitString m s.sig_bits)
            (BigEndian.value (intBytes m' mod_t)) (BigEndian.value (intBytes m' exp_t)))
        ↔ Enough C.toDigests hash (s.tbs.whole m) (bitString m s.sig_bits)
          (BigEndian.value (intBytes m' mod_t)) (BigEndian.value ((intBytes m' exp_t).take 4))
          (BigEndian.value (intBytes m' exp_t))) := by
  refine ⟨fun h data sig modulus exponent hk => ?_, fun fuel fuel' m m' r r' c p s s' hash
    mod_t exp_t hc hs hp hs' halg hkey hk => ?_⟩
  · rw [pkcs1Verify_eq]
    exact verify_valid_iff hk
  · obtain ⟨t, ht, hc⟩ := parse_stored hc
    obtain ⟨t', ht', hp⟩ := parse_stored hp
    rw [hs] at ht
    rw [hs'] at ht'
    obtain rfl := Option.some.inj ht
    obtain rfl := Option.some.inj ht'
    rw [verifySignedBy_rsa hc hp halg hkey hk]
    exact verify_kept_iff hk

open OneLeaf

/-- The modulus of the root. -/
def rootModulus : List UInt8 := wide
  0xd76d9f969323f569940d8659f6d60af36e4d534236d37624fa11d47a8367e8
  0xf5f5e1697de372c80794c6d07fcd47754950adccd63a1ad1330aa91f3cd0f7

/-- The signature of the leaf. -/
def datedSig : List UInt8 := wide
  0x5525ee26042addd5991fd3e5c00608e6fec7376573a2ec9f2956e83c0bcb1b
  0xbd3ec12b31482e240eb1f716bd7639a1634471cf0a8d885ffdd3ea3d77dbd5

/-- What is read of the leaf and of the root. -/
def readsDated (m : Mem) (s : Shape) (mod_t exp_t : Tlv) : Bool :=
  sigAlg m s.sig_alg_oid = some (.rsaPkcs1, .sha256) ∧ bitString m s.sig_bits = datedSig
    ∧ intBytes m mod_t = rootModulus ∧ intBytes m exp_t = [3] ∧ s.tbs.whole m = datedTbs

/-- What is read of the certificate and of its root, and the numbers of the signature. -/
theorem dated_facts : ((shape (memory datedDer) (leafRow datedDer)).bind fun s =>
      (shape (memory datedDer) (rootRow datedDer)).bind fun s' =>
        (rsaKey (memory datedDer) s'.spki).map fun k =>
          readsDated (memory datedDer) s k.1 k.2) = some true
    ∧ (parse 8 (memory datedDer) (leafRow datedDer).p
        (leafRow datedDer).remaining).isOk = true
    ∧ (parse 8 (memory datedDer) (rootRow datedDer).p
        (rootRow datedDer).remaining).isOk = true
    ∧ modBytes (BigEndian.value rootModulus) ≤ 512
    ∧ BigEndian.value datedSig < BigEndian.value rootModulus := by
  decide +kernel

theorem dated_reads : ((shape (memory datedDer) (leafRow datedDer)).bind fun s =>
    (shape (memory datedDer) (rootRow datedDer)).bind fun s' =>
      (rsaKey (memory datedDer) s'.spki).map fun k =>
        readsDated (memory datedDer) s k.1 k.2) = some true :=
  dated_facts.1

theorem dated_parses : (parse 8 (memory datedDer) (leafRow datedDer).p
      (leafRow datedDer).remaining).isOk = true
    ∧ (parse 8 (memory datedDer) (rootRow datedDer).p
      (rootRow datedDer).remaining).isOk = true :=
  ⟨dated_facts.2.1, dated_facts.2.2.1⟩

theorem parse_of_isOk {r : Row} (h : (parse fuel m r.p r.remaining).isOk = true) :
    ∃ c, parse fuel m r.p r.remaining = .ok c := by
  cases hc : parse fuel m r.p r.remaining with
  | error e => rw [hc] at h; exact nomatch h
  | ok c => exact ⟨c, rfl⟩

theorem rootModulus_bytes : modBytes (BigEndian.value rootModulus) ≤ 512 := dated_facts.2.2.2.1

theorem datedSig_below : BigEndian.value datedSig < BigEndian.value rootModulus :=
  dated_facts.2.2.2.2

/-- The signature of the leaf is accepted if it is one, by itself and through the certificates. -/
theorem rsa_accepts_iff_dated :
    (pkcs1Verify crypto.toDigests .sha256 datedTbs datedSig (Bignum.fromBytesBe rootModulus) 3
        = true
      ↔ Signature crypto.toDigests .sha256 datedTbs datedSig (BigEndian.value rootModulus) 3)
    ∧ ∃ c p, parse 8 (memory datedDer) (leafRow datedDer).p (leafRow datedDer).remaining = .ok c
      ∧ parse 8 (memory datedDer) (rootRow datedDer).p (rootRow datedDer).remaining = .ok p
      ∧ (verifySignedBy crypto (memory datedDer) c p = true
        ↔ Signature crypto.toDigests .sha256 datedTbs datedSig
          (BigEndian.value rootModulus) 3) := by
  have hmod := value_modulus rootModulus_bytes
  constructor
  · have h := (rsa_accepts_iff crypto).1 .sha256 datedTbs datedSig
      (Bignum.fromBytesBe rootModulus) 3 (by rw [hmod]; exact rootModulus_bytes)
    rw [hmod] at h
    exact h.mpr fun _ => datedSig_below
  · obtain ⟨c, hc⟩ := parse_of_isOk dated_parses.1
    obtain ⟨p, hp⟩ := parse_of_isOk dated_parses.2
    have hreads := dated_reads
    obtain ⟨s, hs, hreads⟩ := Option.bind_eq_some_iff.mp hreads
    obtain ⟨s', hs', hreads⟩ := Option.bind_eq_some_iff.mp hreads
    obtain ⟨⟨mod_t, exp_t⟩, hkey, hreads⟩ := Option.map_eq_some_iff.mp hreads
    obtain ⟨halg, hsig, hmodulus, hexp, htbs⟩ := of_decide_eq_true hreads
    have h := (rsa_accepts_iff crypto).2 8 8 _ _ _ _ c p s s' .sha256 mod_t exp_t hc hs hp hs' halg
      hkey (by rw [hmodulus]; exact rootModulus_bytes)
    rw [hsig, hmodulus, hexp, htbs] at h
    exact ⟨c, p, hc, hp, h.mpr
      { long := fun hlong => absurd hlong (by decide), below := fun _ => datedSig_below,
        exponent := Iff.rfl }⟩

/-- A modulus of 62 bytes. -/
def forgedModulus : List UInt8 := 0x40 :: List.replicate 61 0

/-- The padded digest itself, which is its own power of exponent 1, and the modulus on top of it. -/
def forgedSig : List UInt8 :=
  BigEndian.bytes 62 (BigEndian.value (padded crypto.toDigests .sha256 [] 8)
    + BigEndian.value forgedModulus)

/-- A number above the modulus is accepted. -/
theorem rsa_accepts_above : ¬ ∀ (C : Crypto) (h : Hash) (data sig : List UInt8) (modulus : Bignum.Num)
    (exponent : UInt32), modBytes modulus.value ≤ 512 →
      (pkcs1Verify C.toDigests h data sig modulus exponent = true
        ↔ Signature C.toDigests h data sig modulus.value exponent.toNat) := by
  intro hall
  have hk : modBytes (BigEndian.value forgedModulus) ≤ 512 := by decide +kernel
  have hmod := value_modulus hk
  have h := hall crypto .sha256 [] forgedSig (Bignum.fromBytesBe forgedModulus) 1
    (by rw [hmod]; exact hk)
  rw [pkcs1Verify_eq, hmod] at h
  have hbelow := (h.mp (by decide +kernel)).below
  exact absurd hbelow (by decide +kernel)

end X509
