import MiniWin.Net.Tls

/-!
# What a run of TLS can do

The calls of `tls.h`, in any order and with anything happening to the TCP connection in between,
and the moves they are made of: `Move` says once what there is, and `Reached.keeps` that what every
move keeps holds in every state reached.
-/

namespace Tls

open Net Walk Relation

/-! ## Runs -/

/-- A call of `tls.h`, or whatever the other layers do to the TCP connection. -/
inductive Call where
  | connect (e : Env) (ip : UInt32) (port : UInt16) (hostname : List UInt8)
  | poll (e : Env)
  | sendAppData (e : Env) (data : List UInt8)
  | recvAppData (maxlen : UInt16)
  | close (e : Env)
  | tcp (t : Tcp.St)

variable {Cert : Type}

def Call.run (P : Prims Cert) (s : St Cert) : Call → St Cert
  | .connect e ip port hostname => Tls.connect e ip port hostname s
  | .poll e => Tls.poll P e s
  | .sendAppData e data => (Tls.sendAppData P e data s).2
  | .recvAppData maxlen => (pollRecvAppData maxlen s).2
  | .close e => Tls.close P e s
  | .tcp t => { s with tcp := t }

/-- Before the first connection. -/
structure Boot (s : St Cert) : Prop where
  state : s.conn.state = .closed
  write_cipher_active : s.conn.write_cipher_active = false
  read_cipher_active : s.conn.read_cipher_active = false
  server_seq : s.conn.server_seq = 0
  log : s.conn.log = []
  app_recv : s.app_recv = []
  sent : s.sent = []
  taken : s.taken = []

/-- The states of all runs, over any number of connections. -/
inductive Reached (P : Prims Cert) : St Cert → Prop
  | boot {s : St Cert} (h : Boot s) : Reached P s
  | call {s : St Cert} (h : Reached P s) (k : Call) : Reached P (k.run P s)

/-! ## Writing -/

section
variable (P : Prims Cert)

/-- The record `tls_write_record` makes of a sealing. -/
def sealedRecord (content_type : UInt8) (seq : UInt64) (x : Aead) : List UInt8 :=
  recordHeader content_type (8 + x.text.length + 16) ++ seqBytes seq ++ (P.gcmEncrypt x).1
    ++ (P.gcmEncrypt x).2

/-- What `tls_write_record` can do. -/
inductive Written (content_type : UInt8) (plaintext : List UInt8) (s : St Cert) :
    St Cert → Prop
  | refused : Written content_type plaintext s s
  | plain (t : Tcp.St) (queued : Bool) (h : s.conn.write_cipher_active = false) :
    Written content_type plaintext s { s with
      tcp := t
      sent := s.sent ++ [{ sealing := none
                           record := recordHeader content_type plaintext.length ++ plaintext
                           tcp := s.tcp.conn, queued := queued }] }
  | sealed (t : Tcp.St) (queued : Bool) (h : s.conn.write_cipher_active = true)
    (hq : queued = false → s.tcp.conn.state ≠ .established ∨ s.tcp.conn.fin_pending = true) :
    Written content_type plaintext s { s with
      tcp := t
      client_seq := s.client_seq + 1
      sent := s.sent ++ [{ sealing := some (sealing content_type plaintext s)
                           record := sealedRecord P content_type s.client_seq
                             (sealing content_type plaintext s)
                           tcp := s.tcp.conn, queued := queued }] }

end

variable {P : Prims Cert} {e : Env} {content_type msg_type : UInt8}
  {payload plaintext plain body : List UInt8} {s t : St Cert} {c c' : Conn Cert}

/-- TCP refuses what it has room for only when it is of no use any more. -/
theorem sendData_refuses {e : Tcp.Env} {data : List UInt8} {s : Tcp.St}
    (h : (Tcp.sendData e data s).1 = false) (hroom : data.length ≤ Tcp.sendSpace s.conn) :
    s.conn.state ≠ .established ∨ s.conn.fin_pending = true := by
  unfold Tcp.sendData at h
  split_ifs at h with h₁ h₂
  · exact h₁
  · omega

theorem sealedRecord_length (P : Prims Cert) (content_type : UInt8) (seq : UInt64) (x : Aead) :
    (sealedRecord P content_type seq x).length = 5 + x.text.length + 24 := by
  obtain ⟨hc, ht⟩ := P.gcmEncrypt_length x
  simp only [sealedRecord, recordHeader, seqBytes, beBytes, List.length_append, List.length_map,
    List.length_range, List.length_cons, List.length_nil, hc, ht]
  omega

theorem writeRecord_written (P : Prims Cert) (e : Env) (content_type : UInt8)
    (plaintext : List UInt8) (s : St Cert) :
    Written P content_type plaintext s (writeRecord P e content_type plaintext s).2 := by
  unfold writeRecord
  cases ha : s.conn.write_cipher_active with
  | false =>
    simp only [Bool.false_eq_true, if_false]
    split
    · exact .refused
    · exact .plain _ _ ha
  | true =>
    simp only [if_true]
    split
    · exact .refused
    · rename_i hroom
      refine .sealed _ _ ha fun hq => sendData_refuses hq ?_
      have hlen := sealedRecord_length P content_type s.client_seq
        (sealing content_type plaintext s)
      have htext : (sealing content_type plaintext s).text.length = plaintext.length := rfl
      exact le_of_eq_of_le hlen (by omega)

theorem Written.conn (h : Written P content_type plaintext s t) : t.conn = s.conn := by
  cases h <;> rfl

@[simp] theorem writeRecord_conn (P : Prims Cert) (e : Env) (content_type : UInt8)
    (plaintext : List UInt8) (s : St Cert) :
    (writeRecord P e content_type plaintext s).2.conn = s.conn :=
  (writeRecord_written P e content_type plaintext s).conn

/-! ## Messages -/

theorem sendHandshake_conn (P : Prims Cert) (e : Env) (msg_type : UInt8) (body : List UInt8)
    (s : St Cert) :
    (sendHandshake P e msg_type body s).conn
      = transcriptUpdate (handshakeMessage msg_type body) s.conn := by
  simp only [sendHandshake, writeRecord_conn, St.put]

/-- The connection after `serverHelloDone` has derived its keys. -/
def flight (P : Prims Cert) (c : Conn Cert) : Conn Cert :=
  let c := transcriptUpdate (handshakeMessage hsClientKeyExchange
    (UInt8.ofNat c.my_public.length :: c.my_public)) c
  let verify_data := computeFinished P (bytes "client finished") c
  { transcriptUpdate (handshakeMessage hsFinished verify_data)
      { c with write_cipher_active := true } with state := .client_finished_sent }

theorem serverHelloDone_conn (P : Prims Cert) (e : Env) (s : St Cert) :
    (serverHelloDone P e s).conn
      = match keyExchange P e s.conn with
        | (none, c) => (c.fail .unsupported_curve).lost
        | (some premaster, c) => flight P (deriveKeys P premaster c) := by
  unfold serverHelloDone
  cases keyExchange P e s.conn with
  | mk premaster c =>
    cases premaster with
    | none => rfl
    | some premaster =>
      simp only [St.put, sendFinished, sendClientKeyExchange, sendHandshake_conn,
        writeRecord_conn, flight]

/-- Where a connection is given up over a message, some of what is in it may have been taken
over. -/
inductive Refused (c : Conn Cert) : Conn Cert → Prop
  | mk (why : Fail) (server_random : List UInt8) (suite : UInt16) (chain : Nat → Cert)
    (chain_len : Nat) (kx_curve : UInt16) (peer_public my_private my_public : List UInt8) :
    Refused c { c with
      state := .failed, fail_reason := why, server_random := server_random
      cipher_suite := suite, chain := chain, chain_len := chain_len, kx_curve := kx_curve
      peer_public := peer_public, my_private := my_private, my_public := my_public }

/-- What comes of a handshake message. -/
inductive Dispatched (P : Prims Cert) (e : Env) (msg_type : UInt8) (body : List UInt8)
    (s : St Cert) : St Cert → Prop
  | server_hello (c : Conn Cert) (hs : s.conn.state = .client_hello_sent)
    (ht : msg_type = hsServerHello) (h : parseServerHello body s.conn = (true, c)) :
    Dispatched P e msg_type body s (s.put c)
  | certificate (c : Conn Cert) (hs : s.conn.state = .client_hello_sent)
    (ht : msg_type = hsCertificate) (h : acceptCertificate P e.now body s.conn = (true, c)) :
    Dispatched P e msg_type body s (s.put c)
  | server_key_exchange (c : Conn Cert) (hs : s.conn.state = .client_hello_sent)
    (ht : msg_type = hsServerKeyExchange) (h : parseServerKeyExchange P body s.conn = (true, c)) :
    Dispatched P e msg_type body s (s.put c)
  | certificate_request (hs : s.conn.state = .client_hello_sent)
    (ht : msg_type = hsCertificateRequest) : Dispatched P e msg_type body s s
  | server_hello_done (premaster : List UInt8) (c : Conn Cert)
    (hs : s.conn.state = .client_hello_sent) (ht : msg_type = hsServerHelloDone)
    (h : keyExchange P e s.conn = (some premaster, c)) :
    Dispatched P e msg_type body s (serverHelloDone P e s)
  | finished (hs : s.conn.state = .client_finished_sent) (ht : msg_type = hsFinished)
    (h : verifyServerFinished P body s.conn = true) :
    Dispatched P e msg_type body s (s.put { s.conn with state := .established })
  | ignored (hs : s.conn.state ≠ .client_hello_sent) (hs' : s.conn.state ≠ .client_finished_sent) :
    Dispatched P e msg_type body s s
  | refused (c : Conn Cert)
    (hs : s.conn.state = .client_hello_sent ∨ s.conn.state = .client_finished_sent)
    (h : Refused s.conn c) : Dispatched P e msg_type body s (s.put c)

theorem settle_of_true {r : Bool × Conn Cert} (h : r.1 = true) : settle r = r.2 := by
  simp only [settle, h, if_true]

theorem settle_of_false {r : Bool × Conn Cert} (h : r.1 = false) : settle r = r.2.lost := by
  simp only [settle, h, Bool.false_eq_true, if_false]

/-! ### What the messages set -/

theorem parseServerHello_frame (body : List UInt8) (c : Conn Cert) : ∃ why r suite,
    (parseServerHello body c).2
      = { c with fail_reason := why, server_random := r, cipher_suite := suite } := by
  unfold parseServerHello
  simp only [Conn.fail]
  split_ifs <;> exact ⟨_, _, _, rfl⟩

theorem certificates_frame (P : Prims Cert) (fuel count : Nat) (rest : List UInt8)
    (c : Conn Cert) : ∃ why chain n,
      (certificates P fuel count rest c).2
        = { c with fail_reason := why, chain := chain, chain_len := n } := by
  induction fuel generalizing count rest c with
  | zero => exact ⟨c.fail_reason, c.chain, c.chain_len, rfl⟩
  | succ fuel ih =>
    unfold certificates
    simp only [Conn.fail]
    split_ifs
    · exact ⟨_, _, _, rfl⟩
    · exact ⟨_, _, _, rfl⟩
    · exact ⟨_, _, _, rfl⟩
    · exact ⟨_, _, _, rfl⟩
    · obtain ⟨why, chain, n, hih⟩ := ih (count + 1) (rest.drop (3 + be (rest.take 3)))
        { c with chain := Function.update c.chain count
                  (P.x509Parse ((rest.drop 3).take (be (rest.take 3))) (c.chain count)).2 }
      exact ⟨why, chain, n, hih⟩
    · exact ⟨_, _, _, rfl⟩

theorem acceptCertificate_frame (P : Prims Cert) (now : UInt64) (body : List UInt8)
    (c : Conn Cert) : ∃ why chain n,
      (acceptCertificate P now body c).2
        = { c with fail_reason := why, chain := chain, chain_len := n } := by
  have hparse : ∃ why chain n, (parseCertificateMessage P body c).2
      = { c with fail_reason := why, chain := chain, chain_len := n } := by
    unfold parseCertificateMessage
    simp only []
    split_ifs
    · exact ⟨_, _, _, rfl⟩
    · exact ⟨_, _, _, rfl⟩
    · exact certificates_frame P _ _ _ c
  obtain ⟨why, chain, n, hparse⟩ := hparse
  unfold acceptCertificate
  split
  · next c' h => exact ⟨why, chain, n, by rw [← hparse, h]⟩
  · next c' h =>
    obtain rfl : c' = { c with fail_reason := why, chain := chain, chain_len := n } := by
      rw [← hparse, h]
    split
    · next why' _ => exact ⟨why', chain, n, rfl⟩
    · exact ⟨why, chain, n, rfl⟩

theorem parseServerKeyExchange_frame (P : Prims Cert) (body : List UInt8) (c : Conn Cert) :
    ∃ why curve key, (parseServerKeyExchange P body c).2
      = { c with fail_reason := why, kx_curve := curve, peer_public := key } := by
  have hcheck : ∀ n c', ∃ why, (checkSignature P body n c').2 = { c' with fail_reason := why } := by
    intro n c'
    unfold checkSignature
    simp only [Conn.fail]
    split
    · exact ⟨_, rfl⟩
    · split
      · exact ⟨_, rfl⟩
      · split_ifs <;> exact ⟨_, rfl⟩
  unfold parseServerKeyExchange
  simp only [Conn.fail]
  split_ifs
  · exact ⟨_, _, _, rfl⟩
  · exact ⟨_, _, _, rfl⟩
  · exact ⟨_, _, _, rfl⟩
  · obtain ⟨why, h⟩ := hcheck (4 + (body.getD 3 0).toNat)
      { c with kx_curve := UInt16.ofNat (be ((body.drop 1).take 2))
               peer_public := (body.drop 4).take (body.getD 3 0).toNat }
    exact ⟨why, _, _, h⟩

theorem keyExchange_frame (P : Prims Cert) (e : Env) (c : Conn Cert) : ∃ priv pub,
    (keyExchange P e c).2 = { c with my_private := priv, my_public := pub } := by
  unfold keyExchange
  split_ifs
  · exact ⟨_, _, rfl⟩
  · split
    · exact ⟨c.my_private, c.my_public, rfl⟩
    · split
      · exact ⟨c.my_private, c.my_public, rfl⟩
      · exact ⟨_, _, rfl⟩

theorem Refused.of_settle {r : Bool × Conn Cert} (h : r.1 = false) (hr : Refused c r.2.lost) :
    Refused c (settle r) := by
  rwa [settle_of_false h]

/-- **What the dispatcher does**, from the connection with the message noted. -/
theorem dispatch_dispatched (P : Prims Cert) (e : Env) (msg_type : UInt8) (body : List UInt8)
    (s : St Cert) :
    Dispatched P e msg_type body (s.put (s.conn.note (.message e.now msg_type body)))
      (dispatchHandshakeMessage P e msg_type body s) := by
  unfold dispatchHandshakeMessage
  simp only []
  generalize s.put (s.conn.note (.message e.now msg_type body)) = s
  have unexpected : (s.conn.state = .client_hello_sent ∨ s.conn.state = .client_finished_sent) →
      Dispatched P e msg_type body s (s.put (s.conn.fail .unexpected_message).lost) :=
    fun hs => .refused _ hs (.mk .unexpected_message s.conn.server_random s.conn.cipher_suite s.conn.chain
      s.conn.chain_len s.conn.kx_curve s.conn.peer_public s.conn.my_private s.conn.my_public)
  split
  · next hs =>
    split_ifs with h₁ h₂ h₃ h₄ h₅
    · obtain ⟨why, r, suite, hframe⟩ := parseServerHello_frame body s.conn
      cases hb : (parseServerHello body s.conn).1 with
      | true =>
        rw [settle_of_true hb]
        exact .server_hello _ hs h₁ (Prod.ext hb rfl)
      | false =>
        refine .refused _ (.inl hs) (.of_settle hb ?_)
        rw [hframe]
        exact .mk why r suite s.conn.chain s.conn.chain_len s.conn.kx_curve s.conn.peer_public
          s.conn.my_private s.conn.my_public
    · obtain ⟨why, chain, n, hframe⟩ := acceptCertificate_frame P e.now body s.conn
      cases hb : (acceptCertificate P e.now body s.conn).1 with
      | true =>
        rw [settle_of_true hb]
        exact .certificate _ hs h₂ (Prod.ext hb rfl)
      | false =>
        refine .refused _ (.inl hs) (.of_settle hb ?_)
        rw [hframe]
        exact .mk why s.conn.server_random s.conn.cipher_suite chain n s.conn.kx_curve
          s.conn.peer_public s.conn.my_private s.conn.my_public
    · obtain ⟨why, curve, key, hframe⟩ := parseServerKeyExchange_frame P body s.conn
      cases hb : (parseServerKeyExchange P body s.conn).1 with
      | true =>
        rw [settle_of_true hb]
        exact .server_key_exchange _ hs h₃ (Prod.ext hb rfl)
      | false =>
        refine .refused _ (.inl hs) (.of_settle hb ?_)
        rw [hframe]
        exact .mk why s.conn.server_random s.conn.cipher_suite s.conn.chain s.conn.chain_len
          curve key s.conn.my_private s.conn.my_public
    · exact .certificate_request hs h₄
    · obtain ⟨priv, pub, hframe⟩ := keyExchange_frame P e s.conn
      cases hk : keyExchange P e s.conn with
      | mk premaster c =>
        cases premaster with
        | some premaster => exact .server_hello_done premaster c hs h₅ hk
        | none =>
          obtain rfl : c = { s.conn with my_private := priv, my_public := pub } := by
            rw [← hframe, hk]
          simp only [serverHelloDone, hk]
          exact .refused _ (.inl hs) (.mk _ s.conn.server_random s.conn.cipher_suite s.conn.chain
            s.conn.chain_len s.conn.kx_curve s.conn.peer_public priv pub)
    · exact unexpected (.inl hs)
  · next hs =>
    split_ifs with h₁ h₂
    · exact .finished hs h₁ h₂
    · exact .refused _ (.inr hs) (.mk .server_finished s.conn.server_random s.conn.cipher_suite
        s.conn.chain s.conn.chain_len s.conn.kx_curve s.conn.peer_public s.conn.my_private
        s.conn.my_public)
    · exact unexpected (.inr hs)
  · next hs hs' => exact .ignored hs hs'

/-- The rest of a state, which no handshake message changes. -/
structure Kept (s t : St Cert) : Prop where
  log : t.conn.log = s.conn.log
  hostname : t.conn.hostname = s.conn.hostname
  client_random : t.conn.client_random = s.conn.client_random
  server_seq : t.conn.server_seq = s.conn.server_seq
  read_cipher_active : t.conn.read_cipher_active = s.conn.read_cipher_active
  app_recv : t.app_recv = s.app_recv
  taken : t.taken = s.taken
  rx_raw : t.rx_raw = s.rx_raw
  read : t.read = s.read

theorem Kept.refl (s : St Cert) : Kept s s := ⟨rfl, rfl, rfl, rfl, rfl, rfl, rfl, rfl, rfl⟩

/-- The buffers of the receiving side. -/
def SameBuffers (s t : St Cert) : Prop :=
  t.app_recv = s.app_recv ∧ t.taken = s.taken ∧ t.rx_raw = s.rx_raw ∧ t.read = s.read

theorem Written.rest (h : Written P content_type plaintext s t) : SameBuffers s t := by
  cases h <;> exact ⟨rfl, rfl, rfl, rfl⟩

theorem writeRecord_rest (P : Prims Cert) (e : Env) (content_type : UInt8)
    (plaintext : List UInt8) (s : St Cert) :
    SameBuffers s (writeRecord P e content_type plaintext s).2 :=
  (writeRecord_written P e content_type plaintext s).rest

theorem SameBuffers.trans {u : St Cert} (h : SameBuffers s t) (h' : SameBuffers t u) :
    SameBuffers s u :=
  ⟨h'.1.trans h.1, h'.2.1.trans h.2.1, h'.2.2.1.trans h.2.2.1, h'.2.2.2.trans h.2.2.2⟩

theorem sendHandshake_rest (P : Prims Cert) (e : Env) (msg_type : UInt8) (body : List UInt8)
    (s : St Cert) : SameBuffers s (sendHandshake P e msg_type body s) :=
  writeRecord_rest P e contentHandshake _ _

theorem sendFinished_rest (P : Prims Cert) (e : Env) (s : St Cert) :
    SameBuffers s (sendFinished P e s) := by
  unfold sendFinished
  have hccs := writeRecord_rest P e contentChangeCipherSpec [1] s
  generalize (writeRecord P e contentChangeCipherSpec [1] s).2 = s₁ at hccs ⊢
  exact hccs.trans (sendHandshake_rest P e hsFinished _
    { s₁ with conn := { s₁.conn with write_cipher_active := true }, client_seq := 0 })

theorem serverHelloDone_rest (P : Prims Cert) (e : Env) (s : St Cert) :
    SameBuffers s (serverHelloDone P e s) := by
  unfold serverHelloDone
  split
  · exact ⟨rfl, rfl, rfl, rfl⟩
  · next premaster c _ =>
    generalize deriveKeys P premaster c = c
    have hkey : SameBuffers (s.put c) (sendClientKeyExchange P e (s.put c)) :=
      sendHandshake_rest P e hsClientKeyExchange _ (s.put c)
    generalize sendClientKeyExchange P e (s.put c) = s₁ at hkey ⊢
    have hfin := sendFinished_rest P e s₁
    generalize sendFinished P e s₁ = s₂ at hfin ⊢
    exact hkey.trans hfin

theorem Dispatched.kept (h : Dispatched P e msg_type body s t) : Kept s t := by
  cases h with
  | server_hello c hs ht h =>
    obtain ⟨why, r, suite, hframe⟩ := parseServerHello_frame body s.conn
    obtain rfl : c = _ := (congrArg Prod.snd h).symm.trans hframe
    exact ⟨rfl, rfl, rfl, rfl, rfl, rfl, rfl, rfl, rfl⟩
  | certificate c hs ht h =>
    obtain ⟨why, chain, n, hframe⟩ := acceptCertificate_frame P e.now body s.conn
    obtain rfl : c = _ := (congrArg Prod.snd h).symm.trans hframe
    exact ⟨rfl, rfl, rfl, rfl, rfl, rfl, rfl, rfl, rfl⟩
  | server_key_exchange c hs ht h =>
    obtain ⟨why, curve, key, hframe⟩ := parseServerKeyExchange_frame P body s.conn
    obtain rfl : c = _ := (congrArg Prod.snd h).symm.trans hframe
    exact ⟨rfl, rfl, rfl, rfl, rfl, rfl, rfl, rfl, rfl⟩
  | certificate_request hs ht => exact .refl s
  | server_hello_done premaster c hs ht h =>
    obtain ⟨priv, pub, hframe⟩ := keyExchange_frame P e s.conn
    obtain rfl : c = _ := (congrArg Prod.snd h).symm.trans hframe
    obtain ⟨happ, htaken, hraw, hread⟩ := serverHelloDone_rest P e s
    have hconn := serverHelloDone_conn P e s
    rw [h] at hconn
    constructor <;> first | assumption | (rw [hconn]; rfl)
  | finished hs ht h => exact ⟨rfl, rfl, rfl, rfl, rfl, rfl, rfl, rfl, rfl⟩
  | ignored hs hs' => exact .refl s
  | refused c hs h =>
    cases h
    exact ⟨rfl, rfl, rfl, rfl, rfl, rfl, rfl, rfl, rfl⟩

/-! ## The moves -/

/-- Records are read in these states. -/
def Conn.Live (c : Conn Cert) : Prop :=
  c.state = .client_hello_sent ∨ c.state = .client_finished_sent ∨ c.state = .established

/-- Such a state, or given up. -/
def Conn.Up (c : Conn Cert) : Prop := c.Live ∨ c.state = .failed

/-- A change to the alerts, the buffer of the handshake and the transcript; the connection may be
given up. -/
inductive Quiet (c : Conn Cert) : Conn Cert → Prop
  | mk (state : State) (h : state = c.state ∨ state = .failed) (why : Fail) (level desc : UInt8)
    (close_notify : Bool) (transcript : List UInt8) (ht : c.transcript <+: transcript)
    (buf : List UInt8) :
    Quiet c { c with
      state := state, fail_reason := why, alert_level := level, alert_desc := desc
      peer_close_notify := close_notify, transcript := transcript, hs_buf := buf }

/-- A record that `tls_decrypt_record` accepted has just been noted. -/
def Conn.Opened (P : Prims Cert) (content_type : UInt8) (plain : List UInt8) (c : Conn Cert) :
    Prop :=
  ∃ before seq x tag, c.log = before ++ [.opened seq content_type x tag plain]
    ∧ P.gcmDecrypt x tag = some plain ∧ x.key = c.server_write_key
    ∧ x.aad.take 8 = seqBytes seq

/-- One move. -/
inductive Move (P : Prims Cert) : St Cert → St Cert → Prop
  | connect (e : Env) (ip : UInt32) (port : UInt16) (hostname : List UInt8) (s : St Cert) :
    Move P s (Tls.connect e ip port hostname s)
  | hello (e : Env) (s : St Cert) (h : s.conn.state = .wait_tcp) :
    Move P s ((sendClientHello P e s).put
      { (sendClientHello P e s).conn with state := .client_hello_sent })
  | write (e : Env) (content_type : UInt8) (plaintext : List UInt8) (s : St Cert)
    (h : s.conn.write_cipher_active = true ∨ s.conn.state = .established) :
    Move P s (writeRecord P e content_type plaintext s).2
  | close (t : Tcp.St) (s : St Cert) :
    Move P s { s with conn := { s.conn with state := .closed }, tcp := t }
  | tcp (t : Tcp.St) (raw read : List UInt8) (s : St Cert) :
    Move P s { s with tcp := t, rx_raw := raw, read := read }
  | take (maxlen : UInt16) (s : St Cert) : Move P s (pollRecvAppData maxlen s).2
  | unconnected (s : St Cert) (h : s.conn.state = .wait_tcp) :
    Move P s (s.put (s.conn.fail .tcp).lost)
  | quiet (c : Conn Cert) (s : St Cert) (hl : s.conn.Up) (h : Quiet s.conn c) :
    Move P s (s.put c)
  | change_cipher_spec (s : St Cert) (hl : s.conn.Live) :
    Move P s (s.put
      ({ s.conn with read_cipher_active := true, server_seq := 0 }.note .change_cipher_spec))
  | opened (content_type : UInt8) (payload plain : List UInt8) (s : St Cert) (hl : s.conn.Live)
    (ha : s.conn.read_cipher_active = true)
    (h : P.gcmDecrypt (opening content_type payload s.conn).1
      (opening content_type payload s.conn).2 = some plain) :
    Move P s (s.put ({ s.conn with server_seq := s.conn.server_seq + 1 }.note
      (.opened s.conn.server_seq content_type (opening content_type payload s.conn).1
        (opening content_type payload s.conn).2 plain)))
  | app_data (plain : List UInt8) (s : St Cert) (hl : s.conn.Live)
    (h : s.conn.read_cipher_active = true → s.conn.Opened P contentApplicationData plain) :
    Move P s { s with
      conn := s.conn.note (.app_data s.conn.state s.conn.read_cipher_active plain)
      app_recv := s.app_recv ++ plain }
  | message (e : Env) (msg_type : UInt8) (body : List UInt8) (s : St Cert) (hl : s.conn.Live) :
    Move P s (dispatchHandshakeMessage P e msg_type body s)

abbrev Moves (P : Prims Cert) : St Cert → St Cert → Prop := ReflTransGen (Move P)

/-! ## The calls are made of moves -/

theorem Conn.Live.up (h : c.Live) : c.Up := .inl h

theorem Conn.Up.live (h : c.Up) (hf : c.state ≠ .failed) : c.Live := h.resolve_right hf

theorem Conn.Up.of_state (h : c.Up) (hs : c'.state = c.state) : c'.Up := by
  unfold Conn.Up Conn.Live at *
  rwa [hs]

theorem Quiet.up (h : Quiet c c') (hu : c.Up) : c'.Up := by
  obtain ⟨state, hs, _⟩ := h
  rcases hs with rfl | rfl
  · exact hu.of_state rfl
  · exact .inr rfl

theorem Refused.up (h : Refused c c') : c'.Up := by
  cases h
  exact .inr rfl

theorem Dispatched.up (h : Dispatched P e msg_type body s t) (hu : s.conn.Up) : t.conn.Up := by
  cases h with
  | server_hello c hs ht h =>
    obtain ⟨why, r, suite, hframe⟩ := parseServerHello_frame body s.conn
    refine hu.of_state ?_
    rw [h] at hframe
    rw [show (s.put c).conn = c from rfl, show c = _ from hframe]
  | certificate c hs ht h =>
    obtain ⟨why, chain, n, hframe⟩ := acceptCertificate_frame P e.now body s.conn
    refine hu.of_state ?_
    rw [h] at hframe
    rw [show (s.put c).conn = c from rfl, show c = _ from hframe]
  | server_key_exchange c hs ht h =>
    obtain ⟨why, curve, key, hframe⟩ := parseServerKeyExchange_frame P body s.conn
    refine hu.of_state ?_
    rw [h] at hframe
    rw [show (s.put c).conn = c from rfl, show c = _ from hframe]
  | certificate_request hs ht => exact hu
  | server_hello_done premaster c hs ht h =>
    rw [serverHelloDone_conn, h]
    exact .inl (.inr (.inl rfl))
  | finished hs ht h => exact .inl (.inr (.inr rfl))
  | ignored hs hs' => exact hu
  | refused c hs h => exact h.up

theorem dispatch_up (P : Prims Cert) (e : Env) (msg_type : UInt8) (body : List UInt8)
    (hu : s.conn.Up) : (dispatchHandshakeMessage P e msg_type body s).conn.Up :=
  (dispatch_dispatched P e msg_type body s).up (hu.of_state rfl)

theorem Quiet.hash (msg : List UInt8) (c : Conn Cert) : Quiet c (transcriptUpdate msg c) :=
  .mk c.state (.inl rfl) c.fail_reason c.alert_level c.alert_desc c.peer_close_notify _
    (List.prefix_append _ _) c.hs_buf

theorem Quiet.buffer (buf : List UInt8) (c : Conn Cert) : Quiet c { c with hs_buf := buf } :=
  .mk c.state (.inl rfl) c.fail_reason c.alert_level c.alert_desc c.peer_close_notify _
    List.prefix_rfl buf

theorem Quiet.fail (why : Fail) (c : Conn Cert) : Quiet c (c.fail why).lost :=
  .mk .failed (.inr rfl) why c.alert_level c.alert_desc c.peer_close_notify _
    List.prefix_rfl c.hs_buf

/-- A message may be hashed. -/
theorem hashed_moves (msg : List UInt8) (hu : s.conn.Up)
    (ht : t = s ∨ t = s.put (transcriptUpdate msg s.conn)) :
    Moves P s t ∧ t.conn.state = s.conn.state := by
  rcases ht with rfl | rfl
  · exact ⟨.refl, rfl⟩
  · exact ⟨.single (.quiet _ s hu (.hash msg s.conn)), rfl⟩

theorem handshakeRound_moves (hu : s.conn.Up) (h : handshakeRound P e s = some t) :
    Moves P s t ∧ t.conn.Up := by
  unfold handshakeRound at h
  simp only [] at h
  split at h
  · exact nomatch h
  · next hgo =>
    rw [not_or] at hgo
    obtain rfl := Option.some.inj h
    generalize s.conn.hs_buf.take (4 + be ((s.conn.hs_buf.drop 1).take 3)) = msg
    generalize (s.conn.hs_buf.drop 4).take (be ((s.conn.hs_buf.drop 1).take 3)) = body
    generalize s.conn.hs_buf.drop (4 + be ((s.conn.hs_buf.drop 1).take 3)) = rest
    generalize s.conn.hs_buf.getD 0 0 = msg_type
    generalize hs₁ : (if s.conn.state = .client_finished_sent ∧ msg_type = hsFinished then s
      else s.put (transcriptUpdate msg s.conn)) = s₁
    obtain ⟨hm₁, hst₁⟩ := hashed_moves (P := P) msg hu (hs₁ ▸ ite_eq_or_eq _ _ _)
    have hu₁ : s₁.conn.Up := hu.of_state hst₁
    have hm₂ := Move.message (P := P) e msg_type body s₁ (hu₁.live (by rw [hst₁]; exact hgo.1))
    have hu₂ := dispatch_up P e msg_type body hu₁
    generalize dispatchHandshakeMessage P e msg_type body s₁ = s₂ at hm₂ hu₂ ⊢
    generalize hs₃ : (if (s.conn.state = .client_finished_sent ∧ msg_type = hsFinished)
      ∧ s₂.conn.state ≠ .failed then s₂.put (transcriptUpdate msg s₂.conn) else s₂) = s₃
    obtain ⟨hm₃, hst₃⟩ := hashed_moves (P := P) msg hu₂ (hs₃ ▸ (ite_eq_or_eq _ _ _).symm)
    have hu₃ : s₃.conn.Up := hu₂.of_state hst₃
    have hm₄ := Move.quiet (P := P) _ s₃ hu₃ (.buffer rest s₃.conn)
    exact ⟨((hm₁.tail hm₂).trans hm₃).tail hm₄, (Quiet.buffer rest s₃.conn).up hu₃⟩

/-- What the rounds of a loop are made of, the loop is made of. -/
theorem rounds_moves {f : St Cert → Option (St Cert)} {n : Nat} (hu : s.conn.Up)
    (hf : ∀ s t, s.conn.Up → f s = some t → Moves P s t ∧ t.conn.Up) :
    Moves P s (rounds f n s) ∧ (rounds f n s).conn.Up := by
  refine (leads_rounds f n s).keeps (I := fun t => Moves P s t ∧ t.conn.Up) ?_ ⟨.refl, hu⟩
  intro a b hab ⟨ha, hua⟩
  obtain ⟨hm, hub⟩ := hf a b hua hab
  exact ⟨ha.trans hm, hub⟩

theorem processHandshakeBuffer_moves (P : Prims Cert) (e : Env) (hu : s.conn.Up) :
    Moves P s (processHandshakeBuffer P e s) ∧ (processHandshakeBuffer P e s).conn.Up :=
  rounds_moves hu fun _ _ hu h => handshakeRound_moves hu h

theorem recordText_none (h : recordText P content_type payload c = (none, c')) :
    Quiet c c'.lost := by
  unfold recordText decryptRecord at h
  simp only [Conn.fail] at h
  split_ifs at h
  · rw [← (Prod.mk.inj h).2]
    exact .fail _ c
  · split at h
    · rw [← (Prod.mk.inj h).2]
      exact .fail _ c
    · cases (Prod.mk.inj h).1
  · cases (Prod.mk.inj h).1

theorem seqBytes_length (seq : UInt64) : (seqBytes seq).length = 8 := by
  simp only [seqBytes, beBytes, List.length_map, List.length_range]

theorem recordText_some (hl : s.conn.Live)
    (h : recordText P content_type payload s.conn = (some plain, c)) :
    Moves P s (s.put c) ∧ c.state = s.conn.state
      ∧ (c.read_cipher_active = true → c.Opened P content_type plain) := by
  unfold recordText decryptRecord at h
  simp only [] at h
  split_ifs at h with ha hlen
  · cases (Prod.mk.inj h).1
  · split at h
    · cases (Prod.mk.inj h).1
    · next plain' hdec =>
      obtain ⟨hplain, rfl⟩ := Prod.mk.inj h
      obtain rfl := Option.some.inj hplain
      refine ⟨.single (.opened content_type payload _ s hl ha hdec), rfl, fun _ => ?_⟩
      refine ⟨s.conn.log, s.conn.server_seq, _, _, rfl, hdec, rfl, ?_⟩
      simp only [opening, List.append_assoc]
      rw [← seqBytes_length s.conn.server_seq, List.take_left]
  · obtain ⟨hplain, rfl⟩ := Prod.mk.inj h
    obtain rfl := Option.some.inj hplain
    exact ⟨.refl, rfl, fun hc => absurd hc ha⟩

theorem handleAlert_quiet (plain : List UInt8) (c : Conn Cert) : Quiet c (handleAlert plain c) := by
  unfold handleAlert
  simp only [Conn.fail, Conn.lost]
  split_ifs
  · exact .mk c.state (.inl rfl) _ _ _ _ _ List.prefix_rfl _
  · exact .mk .failed (.inr rfl) _ _ _ _ _ List.prefix_rfl _
  · exact .mk c.state (.inl rfl) _ _ _ _ _ List.prefix_rfl _

theorem recordText_length (h : recordText P content_type payload c = (some plain, c')) :
    plain.length ≤ payload.length := by
  unfold recordText decryptRecord at h
  simp only [] at h
  split_ifs at h
  · cases (Prod.mk.inj h).1
  · split at h
    · cases (Prod.mk.inj h).1
    · next plain' hdec =>
      obtain rfl := Option.some.inj (Prod.mk.inj h).1
      rw [P.gcmDecrypt_length _ _ _ hdec]
      simp only [opening, List.length_take, List.length_drop]
      omega
  · exact Nat.le_of_eq (by rw [Option.some.inj (Prod.mk.inj h).1])

/-- A type of record other than these is application data. -/
theorem eq_applicationData
    (ht : contentChangeCipherSpec ≤ content_type ∧ content_type ≤ contentApplicationData)
    (hccs : content_type ≠ contentChangeCipherSpec) (hal : content_type ≠ contentAlert)
    (hhs : content_type ≠ contentHandshake) : content_type = contentApplicationData := by
  simp only [contentChangeCipherSpec, contentAlert, contentHandshake, contentApplicationData,
    UInt8.le_iff_toNat_le, ne_eq, ← UInt8.toNat_inj, UInt8.reduceToNat] at *
  omega

/-- Application data that was not held back fits. -/
theorem handleRecord_room {n : Nat} (c : Conn Cert)
    (ht : contentChangeCipherSpec ≤ content_type ∧ content_type ≤ contentApplicationData)
    (hroom : content_type = contentApplicationData → n + payload.length ≤ appRecvBufSize) :
    (handleRecord P content_type payload c).2.take (appRecvBufSize - n)
      = (handleRecord P content_type payload c).2 := by
  unfold handleRecord
  split
  · exact List.take_nil
  · next hccs =>
    split
    · exact List.take_nil
    · next plain c' hr =>
      have hlen := recordText_length hr
      split
      · exact List.take_nil
      · next hal =>
        split
        · split <;> exact List.take_nil
        · next hhs =>
          have hfit := hroom (eq_applicationData ht hccs hal hhs)
          exact List.take_of_length_le (show plain.length ≤ _ by omega)

/-- A record, with the application data in it put where the reader finds it. -/
def recorded (P : Prims Cert) (content_type : UInt8) (payload : List UInt8) (s : St Cert) :
    St Cert :=
  { s with
    conn := (handleRecord P content_type payload s.conn).1
    app_recv := s.app_recv ++ (handleRecord P content_type payload s.conn).2.take
      (appRecvBufSize - s.app_recv.length) }

theorem recorded_moves (hl : s.conn.Live)
    (ht : contentChangeCipherSpec ≤ content_type ∧ content_type ≤ contentApplicationData)
    (hroom : content_type = contentApplicationData →
      s.app_recv.length + payload.length ≤ appRecvBufSize) :
    Moves P s (recorded P content_type payload s)
      ∧ (recorded P content_type payload s).conn.Up := by
  -- where there is no application data
  have put : ∀ {c : Conn Cert}, handleRecord P content_type payload s.conn = (c, []) →
      Moves P s (s.put c) → c.Up → Moves P s (recorded P content_type payload s)
        ∧ (recorded P content_type payload s).conn.Up := by
    intro c h hm hu
    simp only [recorded, h, List.take_nil, List.append_nil]
    exact ⟨hm, hu⟩
  unfold handleRecord at put
  split at put
  · exact put rfl (.single (.change_cipher_spec s hl)) (hl.up.of_state rfl)
  · next hccs =>
    cases hr : recordText P content_type payload s.conn with
    | mk text c =>
      simp only [hr] at put
      cases text with
      | none =>
        have hq := recordText_none hr
        exact put rfl (.single (.quiet _ s hl.up hq)) (hq.up hl.up)
      | some plain =>
        simp only [] at put
        obtain ⟨hm, hst, hopen⟩ := recordText_some hl hr
        have hlc : (s.put c).conn.Live := by
          unfold Conn.Live at *
          rwa [show (s.put c).conn.state = s.conn.state from hst]
        have quiet : ∀ {c' : Conn Cert}, Quiet c c' → Moves P s (s.put c') ∧ c'.Up :=
          fun hq => ⟨hm.tail (.quiet _ (s.put c) hlc.up hq), hq.up hlc.up⟩
        split at put
        · obtain ⟨hm, hu⟩ := quiet (handleAlert_quiet plain c)
          exact put rfl hm hu
        · next hal =>
          split at put
          · split at put
            · obtain ⟨hm, hu⟩ := quiet (.fail .buffer_overflow c)
              exact put rfl hm hu
            · obtain ⟨hm, hu⟩ := quiet (.buffer (c.hs_buf ++ plain) c)
              exact put rfl hm hu
          · next hhs =>
            have hct := eq_applicationData ht hccs hal hhs
            have hrec : recorded P content_type payload s
                = { s with conn := c.note (.app_data c.state c.read_cipher_active plain)
                           app_recv := s.app_recv ++ plain } := by
              simp only [recorded, handleRecord_room s.conn ht hroom]
              simp only [handleRecord, if_neg hccs, hr, if_neg hal, if_neg hhs]
            rw [hrec]
            exact ⟨hm.tail (.app_data plain (s.put c) hlc (hct ▸ hopen)), hlc.up.of_state rfl⟩

theorem not_badHeader {raw : List UInt8} (h : ¬ badHeader raw = true) :
    (contentChangeCipherSpec ≤ raw.getD 0 0 ∧ raw.getD 0 0 ≤ contentApplicationData)
      ∧ 5 + be ((raw.drop 3).take 2) ≤ rxRawBufSize := by
  unfold badHeader at h
  simp only [ge_iff_le, decide_eq_true_eq, not_or, not_not, gt_iff_lt, Nat.not_lt] at h
  exact ⟨h.1, h.2.2.2.2.2⟩

theorem rawRound_moves (hu : s.conn.Up) (h : rawRound P e s = some t) :
    Moves P s t ∧ t.conn.Up := by
  unfold rawRound at h
  simp only [] at h
  split at h
  · exact nomatch h
  · next hgo =>
    rw [not_or] at hgo
    split at h
    · obtain rfl := Option.some.inj h
      exact ⟨.single (.quiet _ s hu (.fail .bad_record s.conn)), (Quiet.fail _ s.conn).up hu⟩
    · next hbad =>
      obtain ⟨ht, -⟩ := not_badHeader hbad
      split at h
      · exact nomatch h
      · split at h
        · exact nomatch h
        · next hheld =>
          have hroom : s.rx_raw.getD 0 0 = contentApplicationData → s.app_recv.length
              + ((s.rx_raw.drop 5).take (be ((s.rx_raw.drop 3).take 2))).length
              ≤ appRecvBufSize := by
            intro hct
            have hlen := List.length_take_le (be ((s.rx_raw.drop 3).take 2)) (s.rx_raw.drop 5)
            have hfit := not_and.mp hheld hct
            omega
          obtain ⟨hm, hur⟩ := recorded_moves (P := P) (hu.live hgo.1) ht hroom
          change (if (recorded P (s.rx_raw.getD 0 0) _ s).conn.state = .failed then _ else _)
            = _ at h
          split at h
          · obtain rfl := Option.some.inj h
            exact ⟨hm, hur⟩
          · obtain rfl := Option.some.inj h
            have hslid := hm.tail (.tcp s.tcp
              (s.rx_raw.drop (5 + be ((s.rx_raw.drop 3).take 2))) s.read _)
            obtain ⟨hp, hup⟩ := processHandshakeBuffer_moves P e (s := { recorded P _ _ s with
              rx_raw := s.rx_raw.drop (5 + be ((s.rx_raw.drop 3).take 2)) }) (hur.of_state rfl)
            exact ⟨hslid.trans hp, hup⟩

theorem processRawBuffer_moves (P : Prims Cert) (e : Env) (hu : s.conn.Up) :
    Moves P s (processRawBuffer P e s) :=
  (rounds_moves hu fun _ _ hu h => rawRound_moves hu h).1

theorem poll_moves (P : Prims Cert) (e : Env) (s : St Cert) : Moves P s (poll P e s) := by
  have received : s.conn.Up → Moves P s
      (if rxRawBufSize - s.rx_raw.length > 0 then
        processRawBuffer P e { s with
          rx_raw := s.rx_raw ++ (Tcp.pollRecv e.tcp
            (UInt16.ofNat (min (rxRawBufSize - s.rx_raw.length) 0xFFFF)) s.tcp).1
          read := s.read ++ (Tcp.pollRecv e.tcp
            (UInt16.ofNat (min (rxRawBufSize - s.rx_raw.length) 0xFFFF)) s.tcp).1
          tcp := (Tcp.pollRecv e.tcp
            (UInt16.ofNat (min (rxRawBufSize - s.rx_raw.length) 0xFFFF)) s.tcp).2 }
      else processRawBuffer P e s) := by
    intro hu
    split
    · exact .head (.tcp _ _ _ s) (processRawBuffer_moves P e (hu.of_state rfl))
    · exact processRawBuffer_moves P e hu
  unfold poll
  split
  · next hs =>
    split
    · exact .single (.hello e s hs)
    · split
      · exact .single (.unconnected s hs)
      · exact .refl
  · next hs => exact received (.inl (.inl hs))
  · next hs => exact received (.inl (.inr (.inl hs)))
  · next hs => exact received (.inl (.inr (.inr hs)))
  · exact .refl

theorem sendChunks_moves (P : Prims Cert) (e : Env) (fuel : Nat) (data : List UInt8) (s : St Cert)
    (hs : s.conn.state = .established) : Moves P s (sendChunks P e fuel data s).2 := by
  induction fuel generalizing data s with
  | zero => exact .refl
  | succ fuel ih =>
    unfold sendChunks
    split
    · exact .refl
    · have hm := Move.write (P := P) e contentApplicationData (data.take maxRecordPlaintext) s
        (.inr hs)
      have hconn := writeRecord_conn P e contentApplicationData (data.take maxRecordPlaintext) s
      split
      · next s' hw => exact .single (hw ▸ hm)
      · next s' hw =>
        rw [hw] at hm hconn
        exact .head hm (ih _ s' ((congrArg Conn.state hconn).trans hs))

/-- **A call is made of moves.** -/
theorem Call.run_moves (P : Prims Cert) (s : St Cert) (k : Call) : Moves P s (k.run P s) := by
  cases k with
  | connect e ip port hostname => exact .single (.connect e ip port hostname s)
  | poll e => exact poll_moves P e s
  | sendAppData e data =>
    simp only [Call.run, Tls.sendAppData]
    split
    · exact .refl
    · next hs => exact sendChunks_moves P e _ data s (not_not.mp hs)
  | recvAppData maxlen => exact .single (.take maxlen s)
  | close e =>
    simp only [Call.run, Tls.close]
    split
    · next ha => exact .tail (.single (.write e contentAlert [1, 0] s (.inl ha))) (.close _ _)
    · exact .single (.close _ s)
  | tcp t => exact .single (.tcp t s.rx_raw s.read s)

theorem Moves.keeps {I : St Cert → Prop} (move : ∀ s t, Move P s t → I s → I t)
    (h : Moves P s t) (hs : I s) : I t := by
  induction h with
  | refl => exact hs
  | tail _ hm ih => exact move _ _ hm ih

/-- **What holds at first and is kept by every move holds in every state reached.** -/
theorem Reached.keeps {I : St Cert → Prop} (boot : ∀ s, Boot s → I s)
    (move : ∀ s t, Move P s t → I s → I t) (h : Reached P s) : I s := by
  induction h with
  | boot h => exact boot _ h
  | call h k ih => exact Moves.keeps move (Call.run_moves P _ k) ih

/-! ## Logs -/

/-- The last element of a list that is split somewhere. -/
theorem split_last {α : Type} {l before after : List α} {x y : α}
    (h : l ++ [y] = before ++ x :: after) :
    (before = l ∧ x = y) ∨ ∃ after', l = before ++ x :: after' := by
  rcases List.eq_nil_or_concat after with rfl | ⟨after, z, rfl⟩
  · rw [List.append_singleton_inj] at h
    exact .inl ⟨h.1.symm, h.2.symm⟩
  · have h' : l ++ [y] = (before ++ x :: after) ++ [z] := by simp [h]
    rw [List.append_singleton_inj] at h'
    exact .inr ⟨after, h'.1⟩

/-! ## Primitives to compute with -/

namespace Toy

def sum (l : List UInt8) : UInt8 := l.foldl (· + ·) 0

def tag (x : Aead) : List UInt8 := List.replicate 16 (sum (x.key ++ x.nonce ++ x.aad ++ x.text))

/-- A certificate is its bytes, and good for the host of that name. It signs with its bytes and a
sum; a tag is a sum, too. -/
def prims : Prims (List UInt8) where
  hash _ l := l
  hmac sha384 key l := List.replicate (if sha384 then 48 else 32) (sum (key ++ l))
  gcmEncrypt x := (x.text, tag x)
  gcmDecrypt x t := if t = tag x then some x.text else none
  gcmEncrypt_length x := ⟨rfl, List.length_replicate⟩
  gcmDecrypt_length x t plain h := by
    split at h
    · rw [Option.some.inj h]
    · exact nomatch h
  x25519Public key := key
  x25519 key peer := List.zipWith (· + ·) key peer
  ecdhKeygen _ _ := none
  ecdhShared _ _ _ := none
  x509Parse l _ := (l ≠ [], l)
  verifyCertificateChain _ host chain :=
    if chain.head? = some host then none else some .hostname_mismatch
  verifySignature _ _ data sig cert := sig = cert ++ [sum data]

def env : Env where
  tcp := { net_ticks := 0, wall := 0, my_ip := 0, answer := fun _ => .sent }
  now := 0
  random n := List.replicate n 7

/-! ### A server -/

def record (content_type : UInt8) (l : List UInt8) : List UInt8 :=
  recordHeader content_type l.length ++ l

def serverHello : List UInt8 :=
  handshakeMessage hsServerHello ([3, 3] ++ List.replicate 32 9 ++ [0, 0xC0, 0x2F, 0])

def certificate (cert : List UInt8) : List UInt8 :=
  handshakeMessage hsCertificate
    (beBytes 3 (3 + cert.length) ++ beBytes 3 cert.length ++ cert)

def keyExchange (cert : List UInt8) : List UInt8 :=
  let params := [3, 0, 0x1D, 32] ++ List.replicate 32 5
  let sig := cert ++ [sum (env.random 32 ++ List.replicate 32 9 ++ params)]
  handshakeMessage hsServerKeyExchange (params ++ [4, 1] ++ beBytes 2 sig.length ++ sig)

def helloDone : List UInt8 := handshakeMessage hsServerHelloDone []

def changeCipherSpec : List UInt8 := record contentChangeCipherSpec [1]

def finished (c : Conn (List UInt8)) : List UInt8 :=
  handshakeMessage hsFinished (computeFinished prims (bytes "server finished") c)

/-- A record of the server under its key. -/
def sealRecord (content_type : UInt8) (seq : UInt64) (l : List UInt8) (c : Conn (List UInt8)) :
    List UInt8 :=
  sealedRecord prims content_type seq
    { key := c.server_write_key
      nonce := c.server_write_iv ++ seqBytes seq
      aad := seqBytes seq ++ [content_type, 3, 3] ++ beBytes 2 l.length
      text := l }

/-! ### Runs -/

def boot : St (List UInt8) where
  conn :=
    { state := .closed, fail_reason := .none, hostname := [], alert_level := 0, alert_desc := 0
      peer_close_notify := false, client_random := [], server_random := [], cipher_suite := 0
      kx_curve := 0, my_private := [], my_public := [], peer_public := [], master_secret := []
      client_write_key := [], server_write_key := [], client_write_iv := []
      server_write_iv := [], server_seq := 0, write_cipher_active := false
      read_cipher_active := false, transcript := [], chain := fun _ => [], chain_len := 0
      hs_buf := [], log := [] }
  client_seq := 0
  rx_raw := []
  app_recv := []
  tcp := {}
  read := []
  sent := []
  taken := []

def runAll (s : St (List UInt8)) (ks : List Call) : St (List UInt8) := ks.foldl (Call.run prims) s

theorem boot_reached : Reached prims boot := .boot ⟨rfl, rfl, rfl, rfl, rfl, rfl, rfl, rfl⟩

theorem runAll_reached {s : St (List UInt8)} (h : Reached prims s) (ks : List Call) :
    Reached prims (runAll s ks) := by
  induction ks generalizing s with
  | nil => exact h
  | cons k ks ih => exact ih (h.call k)

/-- The TCP connection with these bytes to be read. -/
def arrived (l : List UInt8) : Call := .tcp { conn := { state := .established, recv_buf := l } }

/-- The bytes come in, and are polled for. -/
def fed (l : List UInt8) : List Call := [arrived l, .poll env]

def host : List UInt8 := bytes "a"

/-- A connection whose handshake has come to our Finished. -/
def halfway : St (List UInt8) :=
  runAll boot ([.connect env 1 443 host] ++ fed [] ++ fed (record contentHandshake
    (serverHello ++ certificate host ++ keyExchange host ++ helloDone)))

/-- What the server answers to it: its ChangeCipherSpec and its Finished. -/
def answer : List UInt8 :=
  changeCipherSpec ++ sealRecord contentHandshake 0 (finished halfway.conn) halfway.conn

/-- A connection whose handshake is over. -/
def established : St (List UInt8) := runAll halfway (fed answer)

theorem halfway_reached : Reached prims halfway := runAll_reached boot_reached _

theorem established_reached : Reached prims established := runAll_reached halfway_reached _

end Toy

end Tls
