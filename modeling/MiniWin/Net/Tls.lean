import MiniWin.Lib.Walk
import MiniWin.Net.Tcp

/-!
# TLS

The client of `kernel/tls.h`. The fields of `tls_conn` are those of `Conn`, but for the counter of
the sending side and the two buffers `TLS_RX_RAW` and `TLS_APP_RECV`, which stand in `St`; a buffer
up to its fill level is a list. The hash, the ciphers, the curves and the certificates are in files
of their own: `Prims` is what `tls.h` asks of them. What the random generator gives comes from
`Env`, as the time-stamp counter is mixed into it in every call.

`Conn.log` is what was received since `tls_connect`, `St.read` what `tcp_poll_recv` gave, `St.sent`
what was given to `tcp_send_data`, and `St.taken` the application data the reader took.
-/

namespace Tls

open Net Walk

/-! ## Constants -/

def contentChangeCipherSpec : UInt8 := 20
def contentAlert : UInt8 := 21
def contentHandshake : UInt8 := 22
def contentApplicationData : UInt8 := 23

def hsClientHello : UInt8 := 1
def hsServerHello : UInt8 := 2
def hsCertificate : UInt8 := 11
def hsServerKeyExchange : UInt8 := 12
def hsCertificateRequest : UInt8 := 13
def hsServerHelloDone : UInt8 := 14
def hsClientKeyExchange : UInt8 := 16
def hsFinished : UInt8 := 20

def suiteEcdsaAes128 : UInt16 := 0xC02B
def suiteEcdsaAes256 : UInt16 := 0xC02C
def suiteRsaAes128 : UInt16 := 0xC02F
def suiteRsaAes256 : UInt16 := 0xC030

def suiteIsEcdsa (s : UInt16) : Bool := s = suiteEcdsaAes128 ∨ s = suiteEcdsaAes256
def suiteIsSha384 (s : UInt16) : Bool := s = suiteEcdsaAes256 ∨ s = suiteRsaAes256
def suiteSupported (s : UInt16) : Bool :=
  s = suiteEcdsaAes128 ∨ s = suiteEcdsaAes256 ∨ s = suiteRsaAes128 ∨ s = suiteRsaAes256
def suiteKeyLen (s : UInt16) : Nat := if suiteIsSha384 s then 32 else 16

def groupSecp256r1 : UInt16 := 0x0017
def groupSecp384r1 : UInt16 := 0x0018
def groupX25519 : UInt16 := 0x001D

def maxRecordPlaintext : Nat := 16384
def maxRecordCiphertext : Nat := maxRecordPlaintext + 2048
def rxRawBufSize : Nat := 0x5000
def hsBufSize : Nat := 0x8000
def appRecvBufSize : Nat := 0x8000
def chainMax : Nat := 5

/-- `tls_state_t`. -/
inductive State where
  | closed | wait_tcp | client_hello_sent | client_finished_sent | established | failed
  deriving DecidableEq, Repr

/-- `tls_fail_reason_t`. -/
inductive Fail where
  | none | tcp | unexpected_message | unsupported_cipher_suite | unsupported_curve | cert_parse
  | cert_chain | cert_untrusted | hostname_mismatch | ske_signature | decrypt | server_finished
  | buffer_overflow | peer_alert | bad_record | protocol_version | cert_extension
  deriving DecidableEq, Repr

/-- The hashes of `pkcs1.h`. -/
inductive Hash where
  | sha256 | sha384 | sha512
  deriving DecidableEq, Repr

/-! ## What is asked of other files -/

/-- The arguments of `gcm_encrypt` and `gcm_decrypt`, without the tag. -/
structure Aead where
  key : List UInt8
  nonce : List UInt8
  aad : List UInt8
  text : List UInt8
  deriving DecidableEq

/-- A curve of `ecc.h`, and the size of a coordinate. -/
def curveBytes (group : UInt16) : Option Nat :=
  if group = groupSecp256r1 then some 32 else if group = groupSecp384r1 then some 48 else none

/-- The hash and its MAC are those of SHA-384 if the flag is set, else of SHA-256. -/
structure Prims (Cert : Type) where
  hash : Bool → List UInt8 → List UInt8
  hmac : Bool → List UInt8 → List UInt8 → List UInt8
  /-- The ciphertext and the tag. -/
  gcmEncrypt : Aead → List UInt8 × List UInt8
  gcmDecrypt : Aead → List UInt8 → Option (List UInt8)
  /-- Both work in place, and the tag is a `u8[16]`. -/
  gcmEncrypt_length : ∀ x, (gcmEncrypt x).1.length = x.text.length ∧ (gcmEncrypt x).2.length = 16
  gcmDecrypt_length : ∀ x tag plain, gcmDecrypt x tag = some plain → plain.length = x.text.length
  x25519Public : List UInt8 → List UInt8
  x25519 : List UInt8 → List UInt8 → List UInt8
  /-- The private and the public key, from random bytes. -/
  ecdhKeygen : UInt16 → List UInt8 → Option (List UInt8 × List UInt8)
  ecdhShared : UInt16 → List UInt8 → List UInt8 → Option (List UInt8)
  /-- `x509_parse` into a record that may hold an earlier certificate. -/
  x509Parse : List UInt8 → Cert → Bool × Cert
  /-- `tls_verify_certificate_chain` at a time, for a host: the reason to reject the chain. -/
  verifyCertificateChain : UInt64 → List UInt8 → List Cert → Option Fail
  /-- The signature of some bytes under the key of a certificate, with ECDSA or with RSA. -/
  verifySignature : Bool → Hash → List UInt8 → List UInt8 → Cert → Bool

/-- What the functions find around them in one call. -/
structure Env where
  tcp : Tcp.Env
  /-- `now_packed`. -/
  now : UInt64
  /-- `tls_rng_bytes`, of so many bytes. -/
  random : Nat → List UInt8

/-! ## The connection -/

/-- What is received in a connection. -/
inductive Event where
  /-- A handshake message is dispatched. -/
  | message (now : UInt64) (msg_type : UInt8) (body : List UInt8)
  /-- A ChangeCipherSpec record is processed. -/
  | change_cipher_spec
  /-- `tls_decrypt_record` accepts a record. -/
  | opened (seq : UInt64) (content_type : UInt8) (x : Aead) (tag plain : List UInt8)
  /-- There is application data to be read, from a record that was `decrypted` or not. -/
  | app_data (state : State) (decrypted : Bool) (plain : List UInt8)

/-- `tls_conn_t`, but for what `St` has of it. -/
structure Conn (Cert : Type) where
  state : State
  fail_reason : Fail
  hostname : List UInt8
  alert_level : UInt8
  alert_desc : UInt8
  peer_close_notify : Bool
  client_random : List UInt8
  server_random : List UInt8
  cipher_suite : UInt16
  kx_curve : UInt16
  my_private : List UInt8
  my_public : List UInt8
  peer_public : List UInt8
  master_secret : List UInt8
  client_write_key : List UInt8
  server_write_key : List UInt8
  client_write_iv : List UInt8
  server_write_iv : List UInt8
  server_seq : UInt64
  write_cipher_active : Bool
  read_cipher_active : Bool
  /-- What both running hashes were fed. -/
  transcript : List UInt8
  chain : Nat → Cert
  chain_len : Nat
  /-- `TLS_HS_BUF[0 .. hs_buf_len)`. -/
  hs_buf : List UInt8
  log : List Event

/-- A record given to `tcp_send_data`, with the call of `gcm_encrypt` it comes from. -/
structure Sent where
  sealing : Option Aead
  record : List UInt8
  /-- The connection it is given to. -/
  tcp : Tcp.Conn
  queued : Bool

structure St (Cert : Type) where
  conn : Conn Cert
  client_seq : UInt64
  /-- `TLS_RX_RAW[0 .. rx_raw_len)`. -/
  rx_raw : List UInt8
  /-- `TLS_APP_RECV[0 .. app_recv_len)`. -/
  app_recv : List UInt8
  tcp : Tcp.St
  read : List UInt8
  sent : List Sent
  taken : List UInt8

variable {Cert : Type}

def St.put (c : Conn Cert) (s : St Cert) : St Cert := { s with conn := c }

def Conn.note (x : Event) (c : Conn Cert) : Conn Cert := { c with log := c.log ++ [x] }

/-- The reason to give the connection up. -/
def Conn.fail (why : Fail) (c : Conn Cert) : Conn Cert := { c with fail_reason := why }

/-- The connection given up. -/
def Conn.lost (c : Conn Cert) : Conn Cert := { c with state := .failed }

/-- The `n` low bytes of a number, the highest one first. -/
def beBytes (n v : Nat) : List UInt8 :=
  (List.range n).map fun i => UInt8.ofNat (v >>> (8 * (n - 1 - i)))

def be (l : List UInt8) : Nat := l.foldl (fun n b => n * 256 + b.toNat) 0

/-- A sequence number on the wire. -/
def seqBytes (seq : UInt64) : List UInt8 := beBytes 8 seq.toNat

section
variable (P : Prims Cert)

/-! ## Keys -/

/-- The blocks of `tls_prf` from `A(i)` on. -/
def prfBlocks (sha384 : Bool) (secret label_seed : List UInt8) : Nat → List UInt8 → List UInt8
  | 0, _ => []
  | n + 1, a =>
    P.hmac sha384 secret (a ++ label_seed)
      ++ prfBlocks sha384 secret label_seed n (P.hmac sha384 secret a)

/-- `tls_prf`. -/
def prf (sha384 : Bool) (out_len : Nat) (secret label seed : List UInt8) : List UInt8 :=
  let h := if sha384 then 48 else 32
  (prfBlocks P sha384 secret (label ++ seed) ((out_len + h - 1) / h)
    (P.hmac sha384 secret (label ++ seed))).take out_len

/-- `tls_derive_keys`. -/
def deriveKeys (premaster : List UInt8) (c : Conn Cert) : Conn Cert :=
  let sha384 := suiteIsSha384 c.cipher_suite
  let master := prf P sha384 48 premaster (bytes "master secret")
    (c.client_random ++ c.server_random)
  let klen := suiteKeyLen c.cipher_suite
  let block := prf P sha384 (2 * klen + 8) master (bytes "key expansion")
    (c.server_random ++ c.client_random)
  { c with
    master_secret := master
    client_write_key := block.take klen
    server_write_key := (block.drop klen).take klen
    client_write_iv := (block.drop (2 * klen)).take 4
    server_write_iv := (block.drop (2 * klen + 4)).take 4 }

/-- `tls_compute_finished`. -/
def computeFinished (label : List UInt8) (c : Conn Cert) : List UInt8 :=
  let sha384 := suiteIsSha384 c.cipher_suite
  prf P sha384 12 c.master_secret label (P.hash sha384 c.transcript)

/-! ## Sending -/

/-- The call of `gcm_encrypt` in `tls_write_record`. -/
def sealing (content_type : UInt8) (plaintext : List UInt8) (s : St Cert) : Aead where
  key := s.conn.client_write_key
  nonce := s.conn.client_write_iv ++ seqBytes s.client_seq
  aad := seqBytes s.client_seq ++ [content_type, 3, 3] ++ beBytes 2 plaintext.length
  text := plaintext

def recordHeader (content_type : UInt8) (len : Nat) : List UInt8 :=
  [content_type, 3, 3] ++ beBytes 2 len

/-- `tcp_send_data` of a record. -/
def sendRecord (e : Env) (x : Option Aead) (record : List UInt8) (s : St Cert) : Bool × St Cert :=
  match Tcp.sendData e.tcp record s.tcp with
  | (queued, tcp) =>
    (queued, { s with
      tcp := tcp
      sent := s.sent ++ [{ sealing := x, record := record, tcp := s.tcp.conn, queued := queued }] })

/-- `tls_write_record`. -/
def writeRecord (e : Env) (content_type : UInt8) (plaintext : List UInt8) (s : St Cert) :
    Bool × St Cert :=
  let len := plaintext.length
  if 5 + len + (if s.conn.write_cipher_active then 8 + 16 else 0) > Tcp.sendSpace s.tcp.conn then
    (false, s)
  else if s.conn.write_cipher_active then
    let x := sealing content_type plaintext s
    let (ciphertext, tag) := P.gcmEncrypt x
    sendRecord e (some x)
      (recordHeader content_type (8 + len + 16) ++ seqBytes s.client_seq ++ ciphertext ++ tag)
      { s with client_seq := s.client_seq + 1 }
  else sendRecord e none (recordHeader content_type len ++ plaintext) s

/-- `tls_transcript_update`. -/
def transcriptUpdate (msg : List UInt8) (c : Conn Cert) : Conn Cert :=
  { c with transcript := c.transcript ++ msg }

def handshakeMessage (msg_type : UInt8) (body : List UInt8) : List UInt8 :=
  msg_type :: beBytes 3 body.length ++ body

/-- `tls_send_handshake`. No caller looks at what it returns. -/
def sendHandshake (e : Env) (msg_type : UInt8) (body : List UInt8) (s : St Cert) : St Cert :=
  let msg := handshakeMessage msg_type body
  (writeRecord P e contentHandshake msg (s.put (transcriptUpdate msg s.conn))).2

/-- The server name extension, which is left out for an address. -/
def serverName (host : List UInt8) : List UInt8 :=
  let dotted := host.all fun c => ('0'.toUInt8 ≤ c ∧ c ≤ '9'.toUInt8) ∨ c = '.'.toUInt8
  if host ≠ [] ∧ dotted then []
  else
    let name := 0 :: beBytes 2 host.length ++ host
    [0, 0] ++ beBytes 2 (name.length + 2) ++ beBytes 2 name.length ++ name

/-- The extensions behind it: the groups, the point formats and the signature algorithms. -/
def extensions (host : List UInt8) : List UInt8 :=
  serverName host ++ [0x00, 0x0A, 0x00, 0x08, 0x00, 0x06, 0x00, 0x1D, 0x00, 0x17, 0x00, 0x18]
    ++ [0x00, 0x0B, 0x00, 0x02, 0x01, 0x00]
    ++ [0x00, 0x0D, 0x00, 0x0C, 0x00, 0x0A, 0x04, 0x03, 0x05, 0x03, 0x04, 0x01, 0x05, 0x01, 0x06,
      0x01]

def clientHelloBody (random host : List UInt8) : List UInt8 :=
  [3, 3] ++ random ++ [0, 0x00, 0x08, 0xC0, 0x2B, 0xC0, 0x2F, 0xC0, 0x2C, 0xC0, 0x30, 0x01, 0x00]
    ++ beBytes 2 (extensions host).length ++ extensions host

/-- `tls_send_client_hello`. -/
def sendClientHello (e : Env) (s : St Cert) : St Cert :=
  let random := e.random 32
  sendHandshake P e hsClientHello (clientHelloBody random s.conn.hostname)
    (s.put { s.conn with client_random := random })

/-- `tls_send_client_key_exchange`. -/
def sendClientKeyExchange (e : Env) (s : St Cert) : St Cert :=
  sendHandshake P e hsClientKeyExchange
    (UInt8.ofNat s.conn.my_public.length :: s.conn.my_public) s

/-- `tls_send_finished`. -/
def sendFinished (e : Env) (s : St Cert) : St Cert :=
  let verify_data := computeFinished P (bytes "client finished") s.conn
  let s := (writeRecord P e contentChangeCipherSpec [1] s).2
  sendHandshake P e hsFinished verify_data
    { s with conn := { s.conn with write_cipher_active := true }, client_seq := 0 }

/-! ## The messages of the server -/

/-- The extensions of a ServerHello end where the message does. -/
def extensionsOk : Nat → List UInt8 → Bool
  | 0, l => l = []
  | fuel + 1, l =>
    l = [] || (4 ≤ l.length && be ((l.drop 2).take 2) ≤ l.length - 4
      && extensionsOk fuel (l.drop (4 + be ((l.drop 2).take 2))))

/-- `tls_parse_server_hello`. -/
def parseServerHello (body : List UInt8) (c : Conn Cert) : Bool × Conn Cert :=
  if body.length < 2 + 32 + 1 then (false, c)
  else if be (body.take 2) ≠ 0x0303 then (false, c.fail .protocol_version)
  else
    let c := { c with server_random := (body.drop 2).take 32 }
    let session_id_len := (body.getD 34 0).toNat
    let pos := 35 + session_id_len
    if session_id_len > 32 then (false, c.fail .unexpected_message)
    else if pos + 3 > body.length then (false, c.fail .unexpected_message)
    else
      let cipher_suite := UInt16.ofNat (be ((body.drop pos).take 2))
      let compression := body.getD (pos + 2) 0
      let rest := body.drop (pos + 3)
      if ¬ suiteSupported cipher_suite then (false, c.fail .unsupported_cipher_suite)
      else if compression ≠ 0 then (false, c.fail .unexpected_message)
      else if rest ≠ [] ∧ ¬ (2 ≤ rest.length ∧ be (rest.take 2) = rest.length - 2
          ∧ extensionsOk rest.length (rest.drop 2)) then (false, c.fail .unexpected_message)
      else (true, { c with cipher_suite := cipher_suite })

/-- The loop of `tls_parse_certificate_message`: the certificates so far are `count`. -/
def certificates : Nat → Nat → List UInt8 → Conn Cert → Bool × Conn Cert
  | 0, _, _, c => (false, c)
  | fuel + 1, count, rest, c =>
    if rest = [] then (decide (count > 0), { c with chain_len := count })
    else if rest.length < 3 then (false, c)
    else
      let cert_len := be (rest.take 3)
      if 3 + cert_len > rest.length then (false, c)
      else if count ≥ chainMax then (false, c.fail .buffer_overflow)
      else
        let (parsed, cert) := P.x509Parse ((rest.drop 3).take cert_len) (c.chain count)
        let c := { c with chain := Function.update c.chain count cert }
        if ¬ parsed then (false, c.fail .cert_parse)
        else certificates fuel (count + 1) (rest.drop (3 + cert_len)) c

/-- `tls_parse_certificate_message`. -/
def parseCertificateMessage (body : List UInt8) (c : Conn Cert) : Bool × Conn Cert :=
  if body.length < 3 then (false, c)
  else
    let total_len := be (body.take 3)
    if 3 + total_len > body.length then (false, c)
    else certificates P (total_len + 1) 0 ((body.drop 3).take total_len) c

/-- `tls_conn.chain`, as far as it is filled. -/
def Conn.certs (c : Conn Cert) : List Cert := (List.range c.chain_len).map c.chain

/-- The Certificate message: parsed, and its chain verified. -/
def acceptCertificate (now : UInt64) (body : List UInt8) (c : Conn Cert) : Bool × Conn Cert :=
  match parseCertificateMessage P body c with
  | (false, c) => (false, c)
  | (true, c) =>
    match P.verifyCertificateChain now c.hostname c.certs with
    | some why => (false, c.fail why)
    | none => (true, c)

/-- The size of a public key on a curve. -/
def publicLen (group : UInt16) : Option Nat :=
  if group = groupX25519 then some 32 else if group = groupSecp256r1 then some 65
  else if group = groupSecp384r1 then some 97 else none

def hashOf (hash_byte : UInt8) : Option Hash :=
  if hash_byte = 4 then some .sha256 else if hash_byte = 5 then some .sha384
  else if hash_byte = 6 then some .sha512 else none

/-- The signature of a ServerKeyExchange, behind its parameters of `params_end` bytes. -/
def checkSignature (body : List UInt8) (params_end : Nat) (c : Conn Cert) : Bool × Conn Cert :=
  if params_end + 4 > body.length then (false, c.fail .unexpected_message)
  else
    let sig_byte := body.getD (params_end + 1) 0
    let is_ecdsa_sig := decide (sig_byte = 3)
    match hashOf (body.getD params_end 0) with
    | none => (false, c.fail .ske_signature)
    | some hash_id =>
      if sig_byte ≠ 1 ∧ sig_byte ≠ 3 then (false, c.fail .ske_signature)
      else if is_ecdsa_sig ≠ suiteIsEcdsa c.cipher_suite then (false, c.fail .ske_signature)
      else
        let sig_len := be ((body.drop (params_end + 2)).take 2)
        let sig_start := params_end + 4
        if sig_start + sig_len > body.length then (false, c.fail .unexpected_message)
        else if P.verifySignature is_ecdsa_sig hash_id
            (c.client_random ++ c.server_random ++ body.take params_end)
            ((body.drop sig_start).take sig_len) (c.chain 0) then (true, c)
        else (false, c.fail .ske_signature)

/-- `tls_parse_server_key_exchange`. -/
def parseServerKeyExchange (body : List UInt8) (c : Conn Cert) : Bool × Conn Cert :=
  if body.length < 4 then (false, c.fail .unexpected_message)
  else if body.getD 0 0 ≠ 3 then (false, c.fail .unsupported_curve)
  else
    let named_curve := UInt16.ofNat (be ((body.drop 1).take 2))
    let pubkey_len := (body.getD 3 0).toNat
    if publicLen named_curve ≠ some pubkey_len ∨ 4 + pubkey_len > body.length then
      (false, c.fail .unsupported_curve)
    else
      checkSignature P body (4 + pubkey_len)
        { c with kx_curve := named_curve, peer_public := (body.drop 4).take pubkey_len }

/-- The key exchange: the premaster secret, and our key pair as far as it was made. -/
def keyExchange (e : Env) (c : Conn Cert) : Option (List UInt8) × Conn Cert :=
  if c.kx_curve = groupX25519 then
    let c := { c with my_private := e.random 32, my_public := P.x25519Public (e.random 32) }
    (some (P.x25519 c.my_private c.peer_public), c)
  else
    match curveBytes c.kx_curve with
    | none => (none, c)
    | some n =>
      match P.ecdhKeygen c.kx_curve (e.random n) with
      | none => (none, c)
      | some (my_private, my_public) =>
        (P.ecdhShared c.kx_curve my_private c.peer_public,
          { c with my_private := my_private, my_public := my_public })

/-- `tls_verify_server_finished`. -/
def verifyServerFinished (received : List UInt8) (c : Conn Cert) : Bool :=
  received.length = 12 ∧ received = computeFinished P (bytes "server finished") c

/-- What comes of a message: the connection goes on, or it is given up. -/
def settle (r : Bool × Conn Cert) : Conn Cert := if r.1 then r.2 else r.2.lost

/-- The ServerHelloDone. -/
def serverHelloDone (e : Env) (s : St Cert) : St Cert :=
  match keyExchange P e s.conn with
  | (none, c) => s.put (c.fail .unsupported_curve).lost
  | (some premaster, c) =>
    let s := sendFinished P e (sendClientKeyExchange P e (s.put (deriveKeys P premaster c)))
    s.put { s.conn with state := .client_finished_sent }

/-- `tls_dispatch_handshake_message`. -/
def dispatchHandshakeMessage (e : Env) (msg_type : UInt8) (body : List UInt8) (s : St Cert) :
    St Cert :=
  let s := s.put (s.conn.note (.message e.now msg_type body))
  match s.conn.state with
  | .client_hello_sent =>
    if msg_type = hsServerHello then s.put (settle (parseServerHello body s.conn))
    else if msg_type = hsCertificate then s.put (settle (acceptCertificate P e.now body s.conn))
    else if msg_type = hsServerKeyExchange then
      s.put (settle (parseServerKeyExchange P body s.conn))
    else if msg_type = hsCertificateRequest then s
    else if msg_type = hsServerHelloDone then serverHelloDone P e s
    else s.put (s.conn.fail .unexpected_message).lost
  | .client_finished_sent =>
    if msg_type = hsFinished then
      if verifyServerFinished P body s.conn then s.put { s.conn with state := .established }
      else s.put (s.conn.fail .server_finished).lost
    else s.put (s.conn.fail .unexpected_message).lost
  | _ => s

/-! ## Reassembly -/

/-- One round of `tls_process_handshake_buffer`, which returns when the connection fails. -/
def handshakeRound (e : Env) (s : St Cert) : Option (St Cert) :=
  let buf := s.conn.hs_buf
  let body_len := be ((buf.drop 1).take 3)
  let total := 4 + body_len
  if s.conn.state = .failed ∨ buf.length < 4 ∨ buf.length < total then none
  else
    let msg_type := buf.getD 0 0
    -- a Finished does not count in the hash it is checked with
    let is_server_finished := s.conn.state = .client_finished_sent ∧ msg_type = hsFinished
    let s := if is_server_finished then s else s.put (transcriptUpdate (buf.take total) s.conn)
    let s := dispatchHandshakeMessage P e msg_type ((buf.drop 4).take body_len) s
    let s :=
      if is_server_finished ∧ s.conn.state ≠ .failed then
        s.put (transcriptUpdate (buf.take total) s.conn)
      else s
    some (s.put { s.conn with hs_buf := buf.drop total })

/-- `tls_process_handshake_buffer`. -/
def processHandshakeBuffer (e : Env) (s : St Cert) : St Cert :=
  rounds (handshakeRound P e) s.conn.hs_buf.length s

/-- The call of `gcm_decrypt` in `tls_decrypt_record`, and the tag. -/
def opening (content_type : UInt8) (payload : List UInt8) (c : Conn Cert) : Aead × List UInt8 :=
  let ct_len := payload.length - 24
  ({ key := c.server_write_key
     nonce := c.server_write_iv ++ payload.take 8
     aad := seqBytes c.server_seq ++ [content_type, 3, 3] ++ beBytes 2 ct_len
     text := (payload.drop 8).take ct_len }, payload.drop (8 + ct_len))

/-- `tls_decrypt_record`. -/
def decryptRecord (content_type : UInt8) (payload : List UInt8) (c : Conn Cert) :
    Option (List UInt8) × Conn Cert :=
  if payload.length < 8 + 16 then (none, c.fail .unexpected_message)
  else
    let (x, tag) := opening content_type payload c
    match P.gcmDecrypt x tag with
    | none => (none, c.fail .decrypt)
    | some plain =>
      (some plain, { c with server_seq := c.server_seq + 1 }.note
        (.opened c.server_seq content_type x tag plain))

/-- The text of a record, which is its payload until decryption begins. -/
def recordText (content_type : UInt8) (payload : List UInt8) (c : Conn Cert) :
    Option (List UInt8) × Conn Cert :=
  if c.read_cipher_active then decryptRecord P content_type payload c else (some payload, c)

/-- An alert. -/
def handleAlert (plain : List UInt8) (c : Conn Cert) : Conn Cert :=
  if plain.length < 2 then c
  else
    let level := plain.getD 0 0
    let desc := plain.getD 1 0
    let c := { c with
      alert_level := level
      alert_desc := desc
      peer_close_notify := c.peer_close_notify || (level = 1 && desc = 0) }
    if level = 2 then (c.fail .peer_alert).lost else c

/-- A record with its header off, and the application data in it. -/
def handleRecord (content_type : UInt8) (payload : List UInt8) (c : Conn Cert) :
    Conn Cert × List UInt8 :=
  if content_type = contentChangeCipherSpec then
    ({ c with read_cipher_active := true, server_seq := 0 }.note .change_cipher_spec, [])
  else
    match recordText P content_type payload c with
    | (none, c) => (c.lost, [])
    | (some plain, c) =>
      if content_type = contentAlert then (handleAlert plain c, [])
      else if content_type = contentHandshake then
        if c.hs_buf.length + plain.length > hsBufSize then ((c.fail .buffer_overflow).lost, [])
        else ({ c with hs_buf := c.hs_buf ++ plain }, [])
      else (c.note (.app_data c.state c.read_cipher_active plain), plain)

/-- A header that no peer of TLS 1.2 sends. -/
def badHeader (raw : List UInt8) : Bool :=
  let content_type := raw.getD 0 0
  let rec_len := be ((raw.drop 3).take 2)
  ¬ (content_type ≥ contentChangeCipherSpec ∧ content_type ≤ contentApplicationData)
    ∨ raw.getD 1 0 ≠ 3 ∨ raw.getD 2 0 < 1 ∨ raw.getD 2 0 > 3
    ∨ rec_len > maxRecordCiphertext ∨ 5 + rec_len > rxRawBufSize

/-- One round of `tls_process_raw_buffer`, which returns when the connection fails. A record of
application data is not taken before there is room for it. -/
def rawRound (e : Env) (s : St Cert) : Option (St Cert) :=
  let raw := s.rx_raw
  let content_type := raw.getD 0 0
  let rec_len := be ((raw.drop 3).take 2)
  let total := 5 + rec_len
  if s.conn.state = .failed ∨ raw.length < 5 then none
  else if badHeader raw then some (s.put (s.conn.fail .bad_record).lost)
  else if raw.length < total then none
  else if content_type = contentApplicationData
      ∧ s.app_recv.length + rec_len > appRecvBufSize then none
  else
    let (c, plain) := handleRecord P content_type ((raw.drop 5).take rec_len) s.conn
    let room := appRecvBufSize - s.app_recv.length
    let s := { s with conn := c, app_recv := s.app_recv ++ plain.take room }
    if c.state = .failed then some s
    else some (processHandshakeBuffer P e { s with rx_raw := raw.drop total })

/-- `tls_process_raw_buffer`. -/
def processRawBuffer (e : Env) (s : St Cert) : St Cert :=
  rounds (rawRound P e) (s.rx_raw.length + 1) s

/-! ## The calls -/

/-- `tls_connect`. The certificates, the keys and the random values of the last connection stay. -/
def connect (e : Env) (ip : UInt32) (port : UInt16) (hostname : List UInt8) (s : St Cert) :
    St Cert where
  conn := { s.conn with
    state := .wait_tcp, fail_reason := .none, chain_len := 0, hs_buf := [], server_seq := 0
    write_cipher_active := false, read_cipher_active := false, alert_level := 0, alert_desc := 0
    peer_close_notify := false, hostname := hostname.take 127, transcript := []
    cipher_suite := 0, kx_curve := 0, log := [] }
  client_seq := 0
  rx_raw := []
  app_recv := []
  tcp := Tcp.connect e.tcp ip port s.tcp
  read := []
  sent := []
  taken := []

/-- `tls_poll`, which returns the state. -/
def poll (e : Env) (s : St Cert) : St Cert :=
  match s.conn.state with
  | .wait_tcp =>
    if s.tcp.conn.state = .established then
      let s := sendClientHello P e s
      s.put { s.conn with state := .client_hello_sent }
    else if s.tcp.conn.state = .closed then s.put (s.conn.fail .tcp).lost
    else s
  | .client_hello_sent | .client_finished_sent | .established =>
    let room := rxRawBufSize - s.rx_raw.length
    if room > 0 then
      let (got, tcp) := Tcp.pollRecv e.tcp (UInt16.ofNat (min room 0xFFFF)) s.tcp
      processRawBuffer P e
        { s with rx_raw := s.rx_raw ++ got, read := s.read ++ got, tcp := tcp }
    else processRawBuffer P e s
  | _ => s

/-- The loop of `tls_send_app_data`. -/
def sendChunks (e : Env) : Nat → List UInt8 → St Cert → Bool × St Cert
  | 0, _, s => (true, s)
  | fuel + 1, data, s =>
    if data = [] then (true, s)
    else
      match writeRecord P e contentApplicationData (data.take maxRecordPlaintext) s with
      | (false, s) => (false, s)
      | (true, s) => sendChunks e fuel (data.drop maxRecordPlaintext) s

/-- `tls_send_app_data`. -/
def sendAppData (e : Env) (data : List UInt8) (s : St Cert) : Bool × St Cert :=
  if s.conn.state ≠ .established then (false, s) else sendChunks P e data.length data s

/-- `tls_poll_recv_app_data`: the bytes copied out. -/
def pollRecvAppData (maxlen : UInt16) (s : St Cert) : List UInt8 × St Cert :=
  let n := if s.app_recv.length < maxlen.toNat then s.app_recv.length else maxlen.toNat
  (s.app_recv.take n,
    { s with app_recv := s.app_recv.drop n, taken := s.taken ++ s.app_recv.take n })

/-- `tls_close`. -/
def close (e : Env) (s : St Cert) : St Cert :=
  let s := if s.conn.write_cipher_active then (writeRecord P e contentAlert [1, 0] s).2 else s
  { s with conn := { s.conn with state := .closed }, tcp := Tcp.close e.tcp s.tcp }

end

end Tls
