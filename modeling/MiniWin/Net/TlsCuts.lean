import MiniWin.Net.TlsMove

/-!
# TLS: the stream may come in any pieces

A connection after its ClientHello is a reader of the stream of the server, one record at a time.
The polls take the records from a buffer as they come, hold application data back while the reader
has not taken what is there, and put the handshake messages together from them in a second buffer;
what they have made of the stream is what that reader makes of it.
-/

namespace Tls

open Net Walk Cursor

variable {Cert : Type} {P : Prims Cert} {s t : St Cert} {c : Conn Cert} {e e' : Env}

/-! ## The connection for itself -/

/-- A connection with nothing around it. -/
def Conn.alone (c : Conn Cert) : St Cert where
  conn := c
  client_seq := 0
  rx_raw := []
  app_recv := []
  tcp := {}
  read := []
  sent := []
  taken := []

/-- What the messages in the buffer do to a connection. -/
def messages (P : Prims Cert) (e : Env) (c : Conn Cert) : Conn Cert :=
  (processHandshakeBuffer P e c.alone).conn

/-- A step of the reader: the next record of the stream, and the messages it completes. -/
def takeRecord (P : Prims Cert) (e : Env) (x : Reader (Conn Cert) UInt8 UInt8) :
    Option (Reader (Conn Cert) UInt8 UInt8) :=
  let rec_len := be ((x.rest.drop 3).take 2)
  if x.state.state = .failed ∨ x.rest.length < 5 then none
  else if badHeader x.rest then some { x with state := (x.state.fail .bad_record).lost }
  else if x.rest.length < 5 + rec_len then none
  else
    let (c, plain) := handleRecord P (x.rest.getD 0 0) ((x.rest.drop 5).take rec_len) x.state
    if c.state = .failed then some { x with state := c, out := x.out ++ plain }
    else some
      { state := messages P e c, rest := x.rest.drop (5 + rec_len), out := x.out ++ plain }

/-- The clock and the random generator of two calls are the same. -/
def Env.Same (e e' : Env) : Prop := e.now = e'.now ∧ e.random = e'.random

/-- The dispatcher does not look at anything but the connection, the clock and the generator. -/
theorem dispatch_congr (P : Prims Cert) (msg_type : UInt8) (body : List UInt8)
    (he : e.Same e') (h : s.conn = t.conn) :
    (dispatchHandshakeMessage P e msg_type body s).conn
      = (dispatchHandshakeMessage P e' msg_type body t).conn := by
  obtain ⟨hnow, hrandom⟩ := he
  have hkey : keyExchange P e = keyExchange P e' := by
    funext c
    unfold keyExchange
    rw [hrandom]
  have hnote : (s.put (s.conn.note (.message e.now msg_type body))).conn
      = (t.put (t.conn.note (.message e'.now msg_type body))).conn := by
    simp only [St.put, h, hnow]
  unfold dispatchHandshakeMessage
  simp only []
  generalize s.put (s.conn.note (.message e.now msg_type body)) = s at hnote
  generalize t.put (t.conn.note (.message e'.now msg_type body)) = t at hnote
  obtain ⟨c, _, _, _, _, _, _, _⟩ := s
  obtain ⟨c', _, _, _, _, _, _, _⟩ := t
  obtain rfl : c = c' := hnote
  simp only []
  split
  · split_ifs <;> first | rfl | simp only [serverHelloDone_conn, hkey] | simp only [St.put, hnow]
  · split_ifs <;> rfl
  · rfl

/-- The connection at the end of a round, from the one the dispatcher leaves. -/
def slide (p : Prop) [Decidable p] (msg rest : List UInt8) (c : Conn Cert) : Conn Cert :=
  { (if p ∧ c.state ≠ .failed then transcriptUpdate msg c else c) with hs_buf := rest }

theorem slide_conn (p : Prop) [Decidable p] (msg rest : List UInt8) (s : St Cert) :
    (let t := if p ∧ s.conn.state ≠ .failed then s.put (transcriptUpdate msg s.conn) else s
     t.put { t.conn with hs_buf := rest }).conn = slide p msg rest s.conn := by
  unfold slide
  dsimp only
  split <;> rfl

theorem handshakeRound_map (P : Prims Cert) (he : e.Same e') (s : St Cert) :
    (handshakeRound P e s).map St.conn
      = (handshakeRound P e' s.conn.alone).map St.conn := by
  unfold handshakeRound
  simp only [show s.conn.alone.conn = s.conn from rfl]
  split
  · rfl
  · simp only [Option.map_some]
    refine congrArg some ((slide_conn _ _ _ _).trans (.trans ?_ (slide_conn _ _ _ _).symm))
    refine congrArg (slide _ _ _) (dispatch_congr P _ _ he ?_)
    split <;> rfl

/-- **The messages do to a connection** what they do to it alone. -/
theorem processHandshakeBuffer_conn (P : Prims Cert) (he : e.Same e') (s : St Cert) :
    (processHandshakeBuffer P e s).conn = messages P e' s.conn := by
  let round : Conn Cert → Option (Conn Cert) :=
    fun c => (handshakeRound P e' c.alone).map St.conn
  have h₁ : ∀ n, (rounds (handshakeRound P e) n s).conn = rounds round n s.conn :=
    fun n => rounds_semiconj (handshakeRound_map P he) n s
  have h₂ : ∀ n, (rounds (handshakeRound P e') n s.conn.alone).conn = rounds round n s.conn :=
    fun n => rounds_semiconj (handshakeRound_map P ⟨rfl, rfl⟩) n s.conn.alone
  exact (h₁ _).trans (h₂ _).symm

/-! ## A poll is made of the steps of the reader -/

/-- The reader a connection is. -/
def St.reader (s : St Cert) : Reader (Conn Cert) UInt8 UInt8 where
  state := s.conn
  rest := s.rx_raw
  out := s.taken ++ s.app_recv

theorem header_append {l : List UInt8} (h : 5 ≤ l.length) (m : List UInt8) :
    badHeader (l ++ m) = badHeader l ∧ (l ++ m).getD 0 0 = l.getD 0 0
      ∧ ((l ++ m).drop 3).take 2 = (l.drop 3).take 2 := by
  have hget : ∀ i < 5, (l ++ m).getD i 0 = l.getD i 0 := fun i hi => by
    simp only [List.getD_eq_getElem?_getD, List.getElem?_append_left (show i < l.length by omega)]
  have hlen : ((l ++ m).drop 3).take 2 = (l.drop 3).take 2 := by
    rw [List.drop_append_of_le_length (by omega), List.take_append_of_le_length]
    rw [List.length_drop]
    omega
  refine ⟨?_, hget 0 (by omega), hlen⟩
  unfold badHeader
  simp only [hget 0 (by omega), hget 1 (by omega), hget 2 (by omega), hlen]

/-- A record is the same, whatever comes behind it. -/
theorem takeRecord_stable (P : Prims Cert) : Stable (takeRecord P) := by
  rintro e ⟨c, rest, out⟩ y h m
  change takeRecord P e ⟨c, rest ++ m, out⟩ = some ⟨y.state, y.rest ++ m, y.out⟩
  unfold takeRecord at h ⊢
  simp only [] at h ⊢
  have hlong : rest.length ≤ (rest ++ m).length := by
    rw [List.length_append]
    omega
  split at h
  · exact nomatch h
  · next hgo =>
    rw [not_or] at hgo
    obtain ⟨hbad, htype, hlen⟩ := header_append (show 5 ≤ rest.length by omega) m
    rw [if_neg (show ¬ (c.state = .failed ∨ (rest ++ m).length < 5) from
      not_or.mpr ⟨hgo.1, by omega⟩), hbad, htype, hlen]
    split at h
    · next hb =>
      obtain rfl := Option.some.inj h
      rw [if_pos hb]
    · next hb =>
      rw [if_neg hb]
      split at h
      · exact nomatch h
      · next hwhole =>
        have hpay : ((rest ++ m).drop 5).take (be ((rest.drop 3).take 2))
            = (rest.drop 5).take (be ((rest.drop 3).take 2)) := by
          rw [List.drop_append_of_le_length (by omega), List.take_append_of_le_length]
          rw [List.length_drop]
          omega
        rw [if_neg (show ¬ (rest ++ m).length < 5 + be ((rest.drop 3).take 2) by omega), hpay]
        split at h
        · next hf =>
          obtain rfl := Option.some.inj h
          rw [if_pos hf]
        · next hf =>
          obtain rfl := Option.some.inj h
          rw [if_neg hf, List.drop_append_of_le_length (by omega)]

/-- The messages leave the buffers of the records alone. -/
theorem dispatch_kept (P : Prims Cert) (e : Env) (msg_type : UInt8) (body : List UInt8)
    (s : St Cert) : SameBuffers s (dispatchHandshakeMessage P e msg_type body s) := by
  have hk := (dispatch_dispatched P e msg_type body s).kept
  exact ⟨hk.app_recv, hk.taken, hk.rx_raw, hk.read⟩

theorem handshakeRound_kept (h : handshakeRound P e s = some t) : SameBuffers s t := by
  unfold handshakeRound at h
  simp only [] at h
  split at h
  · exact nomatch h
  · obtain rfl := Option.some.inj h
    have hput : ∀ (p : Prop) [Decidable p] (s : St Cert) (c : Conn Cert),
        SameBuffers s (if p then s.put c else s) := by
      intro p _ s c
      split <;> exact ⟨rfl, rfl, rfl, rfl⟩
    have hput' : ∀ (p : Prop) [Decidable p] (s : St Cert) (c : Conn Cert),
        SameBuffers s (if p then s else s.put c) := by
      intro p _ s c
      split <;> exact ⟨rfl, rfl, rfl, rfl⟩
    exact (hput' _ s _).trans ((dispatch_kept P e _ _ _).trans ((hput _ _ _).trans
      ⟨rfl, rfl, rfl, rfl⟩))

theorem processHandshakeBuffer_kept (P : Prims Cert) (e : Env) (s : St Cert) :
    SameBuffers s (processHandshakeBuffer P e s) :=
  (leads_rounds _ _ s).keeps (fun _ _ h hs => hs.trans (handshakeRound_kept h))
    ⟨rfl, rfl, rfl, rfl⟩

/-- **A round of the raw buffer is a step of the reader.** -/
theorem rawRound_takeRecord (h : rawRound P e s = some t) :
    takeRecord P e s.reader = some t.reader ∧ t.read = s.read := by
  unfold rawRound at h
  unfold takeRecord St.reader
  simp only [] at h ⊢
  split at h
  · exact nomatch h
  · next hgo =>
    rw [if_neg hgo]
    split at h
    · next hb =>
      obtain rfl := Option.some.inj h
      rw [if_pos hb]
      exact ⟨rfl, rfl⟩
    · next hb =>
      rw [if_neg hb]
      split at h
      · exact nomatch h
      · next hwhole =>
        rw [if_neg hwhole]
        split at h
        · exact nomatch h
        · next hheld =>
          have hroom : s.rx_raw.getD 0 0 = contentApplicationData → s.app_recv.length
              + ((s.rx_raw.drop 5).take (be ((s.rx_raw.drop 3).take 2))).length
              ≤ appRecvBufSize := by
            intro hct
            have hlen := List.length_take_le (be ((s.rx_raw.drop 3).take 2)) (s.rx_raw.drop 5)
            have hfit := not_and.mp hheld hct
            omega
          rw [handleRecord_room s.conn (not_badHeader hb).1 hroom] at h
          split at h
          · next hf =>
            obtain rfl := Option.some.inj h
            rw [if_pos hf, List.append_assoc]
            exact ⟨rfl, rfl⟩
          · next hf =>
            obtain rfl := Option.some.inj h
            rw [if_neg hf, processHandshakeBuffer_conn P ⟨rfl, rfl⟩, List.append_assoc]
            obtain ⟨happ, htaken, hraw, hread⟩ := processHandshakeBuffer_kept P e { s with
              conn := (handleRecord P (s.rx_raw.getD 0 0)
                ((s.rx_raw.drop 5).take (be ((s.rx_raw.drop 3).take 2))) s.conn).1
              app_recv := s.app_recv ++ (handleRecord P (s.rx_raw.getD 0 0)
                ((s.rx_raw.drop 5).take (be ((s.rx_raw.drop 3).take 2))) s.conn).2
              rx_raw := s.rx_raw.drop (5 + be ((s.rx_raw.drop 3).take 2)) }
            rw [happ, htaken, hraw, hread]
            exact ⟨rfl, rfl⟩

/-! ## A session -/

/-- What happens to a connection from its ClientHello on, until it is closed: `envs` are those of
its polls. -/
inductive Session (P : Prims Cert) (s₀ : St Cert) : List Env → St Cert → Prop
  | start (e e' : Env) (ip : UInt32) (port : UInt16) (hostname : List UInt8) (s : St Cert)
    (tcp : Tcp.St) (ht : tcp.conn.state = .established)
    (h : s₀ = poll P e' { connect e ip port hostname s with tcp := tcp }) : Session P s₀ [] s₀
  | poll {envs : List Env} {s : St Cert} (h : Session P s₀ envs s) (e : Env) :
    Session P s₀ (e :: envs) (poll P e s)
  | recvAppData {envs : List Env} {s : St Cert} (h : Session P s₀ envs s) (maxlen : UInt16) :
    Session P s₀ envs (pollRecvAppData maxlen s).2
  | sendAppData {envs : List Env} {s : St Cert} (h : Session P s₀ envs s) (e : Env)
    (data : List UInt8) : Session P s₀ envs (sendAppData P e data s).2
  | tcp {envs : List Env} {s : St Cert} (h : Session P s₀ envs s) (t : Tcp.St) :
    Session P s₀ envs { s with tcp := t }

/-- What stands in a session. -/
structure Reading (P : Prims Cert) (s₀ : St Cert) (envs : List Env) (s : St Cert) : Prop where
  up : s.conn.Up
  fits : s.rx_raw.length ≤ rxRawBufSize
  fed : ∃ es, (∀ e ∈ es, e ∈ envs) ∧ Fed (takeRecord P) s₀.conn [] es s.read s.reader

theorem Reading.same {s₀ : St Cert} {envs : List Env} (h : Reading P s₀ envs s)
    (hconn : t.conn = s.conn) (hraw : t.rx_raw = s.rx_raw) (hread : t.read = s.read)
    (hout : t.taken ++ t.app_recv = s.taken ++ s.app_recv) : Reading P s₀ envs t := by
  have hreader : t.reader = s.reader := by simp only [St.reader, hconn, hraw, hout]
  obtain ⟨hu, hfits, hfed⟩ := h
  refine ⟨hconn ▸ hu, hraw ▸ hfits, ?_⟩
  rwa [hreader, hread]

theorem sendChunks_same (P : Prims Cert) (e : Env) (fuel : Nat) (data : List UInt8) (s : St Cert) :
    (sendChunks P e fuel data s).2.conn = s.conn
      ∧ SameBuffers s (sendChunks P e fuel data s).2 := by
  induction fuel generalizing data s with
  | zero => exact ⟨rfl, rfl, rfl, rfl, rfl⟩
  | succ fuel ih =>
    unfold sendChunks
    split
    · exact ⟨rfl, rfl, rfl, rfl, rfl⟩
    · have hconn := writeRecord_conn P e contentApplicationData (data.take maxRecordPlaintext) s
      have hrest := writeRecord_rest P e contentApplicationData (data.take maxRecordPlaintext) s
      split
      · next s' hw =>
        rw [hw] at hconn hrest
        exact ⟨hconn, hrest⟩
      · next s' hw =>
        rw [hw] at hconn hrest
        obtain ⟨hc, hr⟩ := ih (data.drop maxRecordPlaintext) s'
        exact ⟨hc.trans hconn, hrest.trans hr⟩

theorem handleRecord_length (P : Prims Cert) (content_type : UInt8) (payload : List UInt8)
    (c : Conn Cert) : (handleRecord P content_type payload c).2.length ≤ payload.length := by
  unfold handleRecord
  split
  · exact Nat.zero_le _
  · split
    · exact Nat.zero_le _
    · next plain c' hr =>
      have hlen := recordText_length hr
      split_ifs <;> first | exact Nat.zero_le _ | exact hlen

/-- **A round uses the raw buffer up**, or is the last one. -/
theorem rawRound_uses (h : rawRound P e s = some t) : t.rx_raw.length ≤ s.rx_raw.length
    ∧ (t.conn.state = .failed ∨ (t.rx_raw.length < s.rx_raw.length
      ∧ t.app_recv.length + t.rx_raw.length ≤ s.app_recv.length + s.rx_raw.length)) := by
  unfold rawRound at h
  simp only [] at h
  split at h
  · exact nomatch h
  · split at h
    · obtain rfl := Option.some.inj h
      exact ⟨Nat.le_refl _, .inl rfl⟩
    · split at h
      · exact nomatch h
      · next hwhole =>
        split at h
        · exact nomatch h
        · split at h
          · next hf =>
            obtain rfl := Option.some.inj h
            exact ⟨Nat.le_refl _, .inl hf⟩
          · obtain rfl := Option.some.inj h
            have hlen := handleRecord_length P (s.rx_raw.getD 0 0)
              ((s.rx_raw.drop 5).take (be ((s.rx_raw.drop 3).take 2))) s.conn
            obtain ⟨happ, htaken, hraw, hread⟩ := processHandshakeBuffer_kept P e { s with
              conn := (handleRecord P (s.rx_raw.getD 0 0)
                ((s.rx_raw.drop 5).take (be ((s.rx_raw.drop 3).take 2))) s.conn).1
              app_recv := s.app_recv ++ (handleRecord P (s.rx_raw.getD 0 0)
                ((s.rx_raw.drop 5).take (be ((s.rx_raw.drop 3).take 2))) s.conn).2.take
                  (appRecvBufSize - s.app_recv.length)
              rx_raw := s.rx_raw.drop (5 + be ((s.rx_raw.drop 3).take 2)) }
            rw [happ, hraw]
            simp only [List.length_append, List.length_drop, List.length_take] at hlen ⊢
            refine ⟨by omega, .inr ⟨by omega, by omega⟩⟩

theorem processRawBuffer_reading {s₀ : St Cert} {envs : List Env}
    (h : Reading P s₀ envs s) (e : Env) (he : e ∈ envs) :
    Reading P s₀ envs (processRawBuffer P e s) := by
  refine (leads_rounds _ _ s).keeps (I := fun t => Reading P s₀ envs t) (fun a b hab ha => ?_) h
  obtain ⟨hu, hfits, es, hes, hfed⟩ := ha
  obtain ⟨hstep, hread⟩ := rawRound_takeRecord hab
  refine ⟨(rawRound_moves hu hab).2, Nat.le_trans (rawRound_uses hab).1 hfits, es ++ [e], ?_, ?_⟩
  · intro e' he'
    rcases List.mem_append.mp he' with he' | he'
    · exact hes e' he'
    · rwa [List.mem_singleton.mp he']
  · rw [hread]
    exact hfed.step e hstep

/-- The rounds of a poll, which are enough: the loop ends because there is nothing to be done. -/
theorem processRawBuffer_final (P : Prims Cert) (e : Env) (s : St Cert) :
    rawRound P e (processRawBuffer P e s) = none := by
  refine rounds_final (μ := fun s => if s.conn.state = .failed then 0 else s.rx_raw.length + 1)
    (fun a b hab => ?_) _ s ?_
  · have ha : a.conn.state ≠ .failed := by
      intro hf
      unfold rawRound at hab
      simp only [hf, true_or, if_true] at hab
      exact nomatch hab
    obtain ⟨-, huses⟩ := rawRound_uses hab
    simp only [ha, if_false]
    split
    · omega
    · next hb =>
      have := huses.resolve_left hb
      omega
  · split <;> omega

/-- **Nothing is left that a poll could take**, unless application data is held back because the
reader has not taken what is there. -/
theorem takeRecord_of_final (hfits : s.app_recv.length + s.rx_raw.length ≤ rxRawBufSize)
    (h : rawRound P e s = none) (e' : Env) : takeRecord P e' s.reader = none := by
  unfold rawRound at h
  unfold takeRecord St.reader
  simp only [] at h ⊢
  split at h
  · next hgo => rw [if_pos hgo]
  · next hgo =>
    rw [if_neg hgo]
    split at h
    · exact nomatch h
    · next hb =>
      rw [if_neg hb]
      split at h
      · next hshort => rw [if_pos hshort]
      · next hwhole =>
        split at h
        · next hheld =>
          have hsize : appRecvBufSize = 0x8000 ∧ rxRawBufSize = 0x5000 := ⟨rfl, rfl⟩
          omega
        · split at h <;> exact nomatch h

theorem pollRecv_length (e : Tcp.Env) (room : Nat) (t : Tcp.St) :
    (Tcp.pollRecv e (UInt16.ofNat (min room 0xFFFF)) t).1.length ≤ room := by
  have hto : (UInt16.ofNat (min room 0xFFFF)).toNat = min room 0xFFFF := by
    rw [UInt16.toNat_ofNat']
    exact Nat.mod_eq_of_lt (by omega)
  unfold Tcp.pollRecv
  simp only [List.length_take, hto]
  split <;> omega

/-- What a poll hands to the loop. -/
theorem poll_reading {s₀ : St Cert} {envs : List Env} (h : Reading P s₀ envs s) (e : Env) :
    (s.conn.state = .failed ∧ poll P e s = s)
      ∨ ∃ t, Reading P s₀ (e :: envs) t ∧ t.app_recv = s.app_recv
        ∧ poll P e s = processRawBuffer P e t := by
  obtain ⟨hu, hfits, es, hes, hfed⟩ := h
  have received : ∃ t, Reading P s₀ (e :: envs) t ∧ t.app_recv = s.app_recv
      ∧ (if rxRawBufSize - s.rx_raw.length > 0 then
          processRawBuffer P e { s with
            rx_raw := s.rx_raw ++ (Tcp.pollRecv e.tcp
              (UInt16.ofNat (min (rxRawBufSize - s.rx_raw.length) 0xFFFF)) s.tcp).1
            read := s.read ++ (Tcp.pollRecv e.tcp
              (UInt16.ofNat (min (rxRawBufSize - s.rx_raw.length) 0xFFFF)) s.tcp).1
            tcp := (Tcp.pollRecv e.tcp
              (UInt16.ofNat (min (rxRawBufSize - s.rx_raw.length) 0xFFFF)) s.tcp).2 }
        else processRawBuffer P e s) = processRawBuffer P e t := by
    split
    · have hlen := pollRecv_length e.tcp (rxRawBufSize - s.rx_raw.length) s.tcp
      generalize Tcp.pollRecv e.tcp _ s.tcp = got at hlen ⊢
      refine ⟨{ s with rx_raw := s.rx_raw ++ got.1, read := s.read ++ got.1, tcp := got.2 },
        ⟨hu.of_state rfl, ?_, es, fun e' he' => List.mem_cons_of_mem e (hes e' he'),
          hfed.more got.1⟩, rfl, rfl⟩
      simp only [List.length_append]
      omega
    · exact ⟨s, ⟨hu, hfits, es, fun e' he' => List.mem_cons_of_mem e (hes e' he'), hfed⟩, rfl, rfl⟩
  unfold poll
  rcases hu with (hs | hs | hs) | hs
  · rw [hs]
    exact .inr received
  · rw [hs]
    exact .inr received
  · rw [hs]
    exact .inr received
  · rw [hs]
    exact .inl ⟨rfl, rfl⟩

theorem Session.reading {s₀ : St Cert} {envs : List Env} (h : Session P s₀ envs s) :
    Reading P s₀ envs s := by
  induction h with
  | start e e' ip port hostname s tcp ht h =>
    have hbuf := sendHandshake_rest P e' hsClientHello
      (clientHelloBody (e'.random 32) (hostname.take 127))
      { connect e ip port hostname s with
        conn := { (connect e ip port hostname s).conn with client_random := e'.random 32 }
        tcp := tcp }
    have hpoll : s₀ = (sendClientHello P e' { connect e ip port hostname s with tcp := tcp }).put
        { (sendClientHello P e' { connect e ip port hostname s with tcp := tcp }).conn with
          state := .client_hello_sent } := by
      rw [h]
      unfold Tls.poll
      simp only [Tls.connect, ht, if_true]
    obtain ⟨happ, htaken, hraw, hread⟩ : SameBuffers _ (sendClientHello P e'
      { connect e ip port hostname s with tcp := tcp }) := hbuf
    generalize sendClientHello P e' { connect e ip port hostname s with tcp := tcp } = s₁
      at hpoll happ htaken hraw hread
    have hr : s₀.reader = ⟨s₀.conn, [], []⟩ := by
      simp only [hpoll, St.put, St.reader, happ, htaken, hraw]
      rfl
    refine ⟨?_, ?_, [], by simp, ?_⟩
    · rw [hpoll]
      exact .inl (.inl rfl)
    · rw [hpoll]
      simp only [St.put, hraw]
      exact Nat.zero_le _
    · rw [hr, show s₀.read = [] by rw [hpoll]; exact hread]
      exact .start
  | poll h e ih =>
    rcases poll_reading ih e with ⟨-, heq⟩ | ⟨t, ht, -, heq⟩
    · rw [heq]
      obtain ⟨hu, hfits, es, hes, hfed⟩ := ih
      exact ⟨hu, hfits, es, fun e' he' => List.mem_cons_of_mem e (hes e' he'), hfed⟩
    · rw [heq]
      exact processRawBuffer_reading ht e List.mem_cons_self
  | recvAppData h maxlen ih =>
    refine ih.same rfl rfl rfl ?_
    simp only [pollRecvAppData, List.append_assoc, List.take_append_drop]
  | sendAppData h e data ih =>
    unfold Tls.sendAppData
    split
    · exact ih
    · obtain ⟨hconn, happ, htaken, hraw, hread⟩ := sendChunks_same P e data.length data _
      exact ih.same hconn hraw hread (by rw [happ, htaken])
  | tcp h t ih => exact ih.same rfl rfl rfl rfl

/-- **The pieces do not matter.** At any time of a session, the connection and the application data
taken or ready to be taken are what the stream gives one record at a time, each record with the
clock and the random values of the poll that took it, and the rest of the stream is still there;
a poll behind which the reader had taken everything leaves nothing that could be processed. -/
theorem one_record_at_a_time {s₀ : St Cert} {envs : List Env} (h : Session P s₀ envs s) :
    (∃ es, (∀ e ∈ es, e ∈ envs) ∧ ∀ more,
      oneByOne (takeRecord P) es ⟨s₀.conn, s.read ++ more, []⟩
        = ⟨s.conn, s.rx_raw ++ more, s.taken ++ s.app_recv⟩)
    ∧ ∀ e e', s.app_recv = [] → takeRecord P e' (poll P e s).reader = none := by
  have hr := h.reading
  obtain ⟨-, -, es, hes, hfed⟩ := hr
  refine ⟨⟨es, hes, fun more => hfed.oneByOne (takeRecord_stable P) more⟩, fun e e' happ => ?_⟩
  rcases poll_reading h.reading e with ⟨hf, heq⟩ | ⟨t, ht, happ', heq⟩
  · rw [heq]
    unfold takeRecord St.reader
    simp only [hf, true_or, if_true]
  · rw [heq]
    have hinv := (leads_rounds (rawRound P e) (t.rx_raw.length + 1) t).keeps
      (I := fun u => u.conn.state = .failed
        ∨ u.app_recv.length + u.rx_raw.length ≤ rxRawBufSize) ?_ (.inr ?_)
    · rcases hinv with hf | hfits
      · unfold takeRecord St.reader
        exact if_pos (.inl hf)
      · exact takeRecord_of_final hfits (processRawBuffer_final P e t) e'
    · intro a b hab ha
      rcases ha with hf | hfits
      · unfold rawRound at hab
        simp only [hf, true_or, if_true] at hab
        exact nomatch hab
      · exact (rawRound_uses hab).2.imp id fun h => Nat.le_trans h.2 hfits
    · rw [happ', happ]
      simpa using ht.fits

theorem Session.fed {s₀ s : St (List UInt8)} {envs : List Env} (h : Session Toy.prims s₀ envs s)
    (l : List UInt8) : Session Toy.prims s₀ (Toy.env :: envs) (Toy.runAll s (Toy.fed l)) :=
  (h.tcp _).poll Toy.env

theorem Toy.greeted_session : Session Toy.prims
    (Toy.runAll Toy.boot ([.connect Toy.env 1 443 Toy.host] ++ Toy.fed [])) []
    (Toy.runAll Toy.boot ([.connect Toy.env 1 443 Toy.host] ++ Toy.fed [])) :=
  .start Toy.env Toy.env 1 443 Toy.host Toy.boot
    { conn := { state := .established, recv_buf := [] } } rfl rfl

/-- A flight of the server that comes in two pieces, cut in the middle of a message. -/
theorem flight_in_two_pieces :
    let flight := Toy.record contentHandshake (Toy.serverHello ++ Toy.certificate Toy.host
      ++ Toy.keyExchange Toy.host ++ Toy.helloDone)
    let s₀ := Toy.runAll Toy.boot ([.connect Toy.env 1 443 Toy.host] ++ Toy.fed [])
    let s := Toy.runAll (Toy.runAll s₀ (Toy.fed (flight.take 50))) (Toy.fed (flight.drop 50))
    s.conn.state = .client_finished_sent ∧ (∃ es, (∀ e ∈ es, e ∈ [Toy.env, Toy.env])
      ∧ ∀ more, oneByOne (takeRecord Toy.prims) es ⟨s₀.conn, s.read ++ more, []⟩
        = ⟨s.conn, s.rx_raw ++ more, s.taken ++ s.app_recv⟩) :=
  ⟨by decide +kernel, (one_record_at_a_time ((Toy.greeted_session.fed _).fed _)).1⟩

end Tls
