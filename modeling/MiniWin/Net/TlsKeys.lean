import MiniWin.Crypto.Aes
import MiniWin.Net.Tls

/-!
# The key schedule

`hmac_sha256.h`, `hmac_sha384.h`, and in `tls.h` `tls_prf` and what is made with it: the master
secret, the keys and salts of both directions, and the two Finished values. An array is a list of its
bytes, and what is read or written outside of one is `none` (`copy`, `read`). `junk` stands for what
the arrays of a function have in them before anything is written.

The hashes are any two functions whose values have their lengths; taking a message in piece after
piece is taking in the pieces in a row.
-/

namespace Tls.Schedule

open Net

/-- `SHA-256` and `SHA-384`, of which only the length of the value counts. -/
structure Hashes where
  sha256 : List UInt8 → List UInt8
  sha384 : List UInt8 → List UInt8
  length_sha256 : ∀ m, (sha256 m).length = 32
  length_sha384 : ∀ m, (sha384 m).length = 48

/-- `for (i = 0; i < n; i++) dst[p + i] = src[i];` -/
def copy (dst : List UInt8) (p : ℕ) (src : List UInt8) (n : ℕ) : Option (List UInt8) :=
  if n ≤ src.length ∧ p + n ≤ dst.length then some (dst.take p ++ src.take n ++ dst.drop (p + n))
  else none

/-- The `n` bytes from `p` on. -/
def read (src : List UInt8) (p n : ℕ) : Option (List UInt8) :=
  if p + n ≤ src.length then some ((src.drop p).take n) else none

/-- `while (label[label_len]) label_len++;` -/
def strlen : List UInt8 → Option ℕ
  | [] => none
  | c :: s => if c ≠ 0 then (strlen s).map (· + 1) else some 0

variable (S : Hashes) (junk : UInt8)

def hmac_sha256 (key msg : List UInt8) : Option (List UInt8) := do
  let key_block := List.replicate 64 junk
  let key_block ← if 64 < key.length then do
      let hashed_key := S.sha256 key
      let key_block ← copy key_block 0 hashed_key 32
      copy key_block 32 (List.replicate (64 - 32) 0) (64 - 32)
    else do
      let key_block ← copy key_block 0 key key.length
      copy key_block key.length (List.replicate (64 - key.length) 0) (64 - key.length)
  let ipad := key_block.map (· ^^^ 0x36)
  let opad := key_block.map (· ^^^ 0x5c)
  let inner := S.sha256 (ipad ++ msg)
  pure (S.sha256 (opad ++ inner))

def hmac_sha384 (key msg : List UInt8) : Option (List UInt8) := do
  let key_block := List.replicate 128 junk
  let key_block ← copy key_block 0 (List.replicate 128 0) 128
  let key_block ← if 128 < key.length then copy key_block 0 (S.sha384 key) 48
    else copy key_block 0 key key.length
  let ipad := key_block.map (· ^^^ 0x36)
  let opad := key_block.map (· ^^^ 0x5c)
  let inner := S.sha384 (ipad ++ msg)
  pure (S.sha384 (opad ++ inner))

def tls_hmac (suite : UInt16) (out key : List UInt8) (key_len : ℕ) (msg : List UInt8)
    (msg_len : ℕ) : Option (List UInt8) := do
  let key ← read key 0 key_len
  let msg ← read msg 0 msg_len
  if suiteIsSha384 suite then copy out 0 (← hmac_sha384 S junk key msg) 48
  else copy out 0 (← hmac_sha256 S junk key msg) 32

/-- The loop of `tls_prf`: `none` as well if `rounds` were not enough. -/
def prf_loop (suite : UInt16) (h out_len : ℕ) (secret : List UInt8) (secret_len : ℕ)
    (label_seed : List UInt8) (ls_len : ℕ) :
    ℕ → List UInt8 → List UInt8 → ℕ → Option (List UInt8)
  | 0, _, _, _ => none
  | rounds + 1, out, a, produced =>
    if produced < out_len then do
      let a_plus_seed ← copy (List.replicate (48 + 256) junk) 0 a h
      let a_plus_seed ← copy a_plus_seed h label_seed ls_len
      let block ← tls_hmac S junk suite (List.replicate 48 junk) secret secret_len a_plus_seed
        (h + ls_len)
      let take := min (out_len - produced) h
      let out ← copy out produced block take
      let next_a ← tls_hmac S junk suite (List.replicate 48 junk) secret secret_len a h
      let a ← copy a 0 next_a h
      prf_loop suite h out_len secret secret_len label_seed ls_len rounds out a (produced + take)
    else some out

def tls_prf (rounds : ℕ) (suite : UInt16) (out : List UInt8) (out_len : ℕ) (secret : List UInt8)
    (secret_len : ℕ) (label seed : List UInt8) (seed_len : ℕ) : Option (List UInt8) := do
  let h := if suiteIsSha384 suite then 48 else 32
  let label_len ← strlen label
  let ls_len := label_len + seed_len
  let label_seed ← copy (List.replicate 256 junk) 0 label label_len
  let label_seed ← copy label_seed label_len seed seed_len
  let a ← tls_hmac S junk suite (List.replicate 48 junk) secret secret_len label_seed ls_len
  prf_loop S junk suite h out_len secret secret_len label_seed ls_len rounds out a 0

/-- The fields of `tls_conn` that the keys are made of, and the keys. -/
structure Conn where
  cipher_suite : UInt16
  client_random : List UInt8
  server_random : List UInt8
  master_secret : List UInt8
  client_write_aes : Aes.Ctx
  server_write_aes : Aes.Ctx
  client_write_iv : List UInt8
  server_write_iv : List UInt8
  /-- What the two running hashes have taken in. -/
  transcript : List UInt8

/-- A text with the zero behind it. -/
def cstr (s : String) : List UInt8 := bytes s ++ [0]

def tls_derive_keys (rounds : ℕ) (premaster : List UInt8) (premaster_len : ℕ) (c : Conn) :
    Option Conn := do
  let seed ← copy (List.replicate 64 junk) 0 c.client_random 32
  let seed ← copy seed 32 c.server_random 32
  let master_secret ← tls_prf S junk rounds c.cipher_suite c.master_secret 48 premaster
    premaster_len (cstr "master secret") seed 64
  let klen := suiteKeyLen c.cipher_suite
  let seed2 ← copy (List.replicate 64 junk) 0 c.server_random 32
  let seed2 ← copy seed2 32 c.client_random 32
  let key_block ← tls_prf S junk rounds c.cipher_suite (List.replicate (2 * 32 + 2 * 4) junk)
    (2 * klen + 8) master_secret 48 (cstr "key expansion") seed2 64
  let client_key ← read key_block 0 klen
  let server_key ← read key_block klen klen
  let client_iv ← read key_block (klen + klen) 4
  let server_iv ← read key_block (klen + klen + 4) 4
  pure { c with
    master_secret
    client_write_aes := Aes.aes_set_key c.client_write_aes client_key klen
    server_write_aes := Aes.aes_set_key c.server_write_aes server_key klen
    client_write_iv := ← copy c.client_write_iv 0 client_iv 4
    server_write_iv := ← copy c.server_write_iv 0 server_iv 4 }

def tls_compute_finished (rounds : ℕ) (out label : List UInt8) (c : Conn) :
    Option (List UInt8) := do
  let transcript_hash := List.replicate 48 junk
  let (transcript_hash, hl) ← if suiteIsSha384 c.cipher_suite then
      (copy transcript_hash 0 (S.sha384 c.transcript) 48).map (·, 48)
    else (copy transcript_hash 0 (S.sha256 c.transcript) 32).map (·, 32)
  let full ← tls_prf S junk rounds c.cipher_suite (List.replicate 12 junk) 12 c.master_secret 48
    label transcript_hash hl
  copy out 0 full 12

/-! ## What the documents say -/

namespace Rfc

/-- RFC 2104, `B` being the length of a block. -/
def hmac (H : List UInt8 → List UInt8) (B : ℕ) (key text : List UInt8) : List UInt8 :=
  let K := if B < key.length then H key else key
  let K := K ++ List.replicate (B - K.length) 0
  H (K.map (· ^^^ 0x5c) ++ H (K.map (· ^^^ 0x36) ++ text))

/-- `A(i)` of RFC 5246, for an HMAC with its secret. -/
def A (mac : List UInt8 → List UInt8) (seed : List UInt8) : ℕ → List UInt8
  | 0 => seed
  | i + 1 => mac (A mac seed i)

/-- The first `n` bytes of `P_hash`, of as many blocks as there are bytes. -/
def p_hash (mac : List UInt8 → List UInt8) (seed : List UInt8) (n : ℕ) : List UInt8 :=
  ((List.range n).flatMap fun i => mac (A mac seed (i + 1) ++ seed)).take n

/-- What a suite of RFC 5288 and RFC 5289 is made of. -/
structure Suite where
  H : List UInt8 → List UInt8
  B : ℕ
  enc_key_length : ℕ

/-- `PRF(secret, label, seed)`, to `n` bytes. -/
def prf (s : Suite) (secret label seed : List UInt8) (n : ℕ) : List UInt8 :=
  p_hash (hmac s.H s.B secret) (label ++ seed) n

/-- The suites with AES-GCM and ephemeral keys that are signed with ECDSA or RSA. -/
def suite : UInt16 → Option Suite
  | 0xC02B => some ⟨S.sha256, 64, 16⟩
  | 0xC02C => some ⟨S.sha384, 128, 32⟩
  | 0xC02F => some ⟨S.sha256, 64, 16⟩
  | 0xC030 => some ⟨S.sha384, 128, 32⟩
  | _ => none

structure Keys where
  master_secret : List UInt8
  client_write_key : List UInt8
  server_write_key : List UInt8
  client_write_IV : List UInt8
  server_write_IV : List UInt8

/-- The keys of RFC 5246, without MAC keys, with salts of four bytes. -/
def keys (s : Suite) (pre_master_secret client_random server_random : List UInt8) : Keys :=
  let master_secret := prf s pre_master_secret (bytes "master secret")
    (client_random ++ server_random) 48
  let key_block := prf s master_secret (bytes "key expansion") (server_random ++ client_random)
    (2 * s.enc_key_length + 2 * 4)
  { master_secret
    client_write_key := key_block.take s.enc_key_length
    server_write_key := (key_block.drop s.enc_key_length).take s.enc_key_length
    client_write_IV := (key_block.drop (2 * s.enc_key_length)).take 4
    server_write_IV := (key_block.drop (2 * s.enc_key_length + 4)).take 4 }

def verify_data (s : Suite) (master_secret finished_label handshake_messages : List UInt8) :
    List UInt8 :=
  prf s master_secret finished_label (s.H handshake_messages) 12

end Rfc

end Tls.Schedule
