import MiniWin.Net.TcpSend

/-!
# TCP: runs of the sending half

Every entry point of `tcp.h` refines the sender of `MiniWin.Net.TcpSend`, so every run does.
`Run` is a connection from its `tcp_connect` on, with the number its SYN has, the bytes the
application gave to it and the segments that wait for an acknowledgement.
-/

namespace Tcp

open Net

/-! ## Segments in -/

theorem updatePeerWindow_line (g : Segment) (c : Conn) : (updatePeerWindow g c).line = c.line := by
  unfold updatePeerWindow
  split_ifs <;> rfl

theorem store_line (k : Nat) (g : Segment) (c : Conn) : (store k g c).line = c.line := by
  unfold store
  dsimp only
  split_ifs <;> rfl

theorem storeFresh_line (g : Segment) (c : Conn) : (storeFresh g c).line = c.line := by
  unfold storeFresh
  dsimp only
  split_ifs
  · exact store_line _ g c
  · rfl

/-- The connection is written beside its sending half, and an ACK goes out. -/
theorem keeps_conn_sendAck (e : Env) {f : Conn → Conn} (hf : ∀ c, (f c).line = c.line) :
    Keeps fun s => sendAck e { s with conn := f s.conn } :=
  (keeps_of_line (f := fun s => { s with conn := f s.conn }) (fun s => hf s.conn)
    fun _ => rfl).andThen (sendAck_keeps e)

theorem countFin_keeps (e : Env) (g : Segment) : Keeps (countFin e g) :=
  let f : Conn → Conn := fun c => { c with rcv_nxt := g.seq + g.len + 1, peer_fin_seen := true }
  keeps_conn_sendAck e (f := f) fun _ => rfl

theorem tailData_keeps (e : Env) (g : Segment) : Keeps (tailData e g) :=
  Keeps.ite (keeps_conn_sendAck e (store_line 0 g)) keeps_id

theorem inEstablished_keeps (e : Env) (g : Segment) : Keeps (inEstablished e g) := by
  have hwindow : Keeps fun s => if g.has flagAck then
      { s with conn := updatePeerWindow g s.conn } else s :=
    Keeps.ite (keeps_of_line (fun s => updatePeerWindow_line g s.conn) fun _ => rfl) keeps_id
  have hdata : Keeps fun s => if g.data ≠ [] then
      sendAck e { s with conn := storeFresh g s.conn } else s :=
    Keeps.ite (keeps_conn_sendAck e (storeFresh_line g)) keeps_id
  have hfin : Keeps fun s => if g.has flagFin ∧ g.seq + g.len = s.conn.rcv_nxt then countFin e g s
      else if g.has flagFin ∧ g.seq + g.len + 1 = s.conn.rcv_nxt then sendAck e s else s :=
    Keeps.ite (countFin_keeps e g) (Keeps.ite (sendAck_keeps e) keeps_id)
  exact ((hwindow.andThen hdata).andThen hfin).andThen (pumpSend_keeps e)

/-- Nothing before the pump touches the sending half. -/
theorem inEstablished_eq (e : Env) (g : Segment) (s : St) :
    ∃ s', s'.conn.line = s.conn.line ∧ inEstablished e g s = pumpSend e s' := by
  have hwindow : ∀ s : St, (if g.has flagAck then
      { s with conn := updatePeerWindow g s.conn } else s).conn.line = s.conn.line := by
    intro s
    split
    · exact updatePeerWindow_line g s.conn
    · rfl
  have hdata : ∀ s : St, (if g.data ≠ [] then
      sendAck e { s with conn := storeFresh g s.conn } else s).conn.line = s.conn.line := by
    intro s
    split
    · exact storeFresh_line g s.conn
    · rfl
  have hfin : ∀ s : St, (if g.has flagFin ∧ g.seq + g.len = s.conn.rcv_nxt then countFin e g s
      else if g.has flagFin ∧ g.seq + g.len + 1 = s.conn.rcv_nxt then sendAck e s
      else s).conn.line = s.conn.line := by
    intro s
    split
    · rfl
    split <;> rfl
  exact ⟨_, ((hfin _).trans (hdata _)).trans (hwindow s), rfl⟩

/-- A connection with a free wire closes. -/
theorem Tracks.shut {isn : UInt32} {app : List UInt8} {u : List Sent} {q : Sender Sym} {c : Line}
    {out : List Sent} (h : Tracks isn app u q c out) (hp : c.retx_pending = false) :
    Tracks isn app u q { c with state := .closed } out :=
  { h with
    phase := trivial
    pending := fun hne => absurd rfl hne
    closed := fun _ => hp }

/-- In `TCP_FIN_WAIT_2` nothing is on the wire. -/
theorem Tracks.not_pending {isn : UInt32} {app : List UInt8} {u : List Sent} {q : Sender Sym}
    {c : Line} {out : List Sent} (h : Tracks isn app u q c out) (hst : c.state ≠ .closed)
    (hflight : q.flight = 0) : c.retx_pending = false := by
  have hiff := h.pending hst
  rw [hflight] at hiff
  exact Bool.eq_false_iff.mpr fun hp => Nat.lt_irrefl 0 (hiff.mp hp)

/-- The last step of the goodbye. -/
theorem shutFinWait2_keeps : Keeps fun s =>
    if s.conn.state = .finWait2 then { s with conn := { s.conn with state := .closed } } else s := by
  intro isn app u q s h
  show Grows isn app u s (if s.conn.state = .finWait2 then _ else s)
  split_ifs with hst
  · have hph := h.phase
    unfold Phase at hph
    rw [show s.conn.line.state = .finWait2 from hst] at hph
    have hopen : s.conn.line.state ≠ .closed := by
      rw [show s.conn.line.state = .finWait2 from hst]; decide
    exact ⟨[], rfl, q, h.shut (h.not_pending hopen hph.2.2)⟩
  · exact h.grows rfl rfl

theorem tailData_state (e : Env) (g : Segment) (s : St) :
    (tailData e g s).conn.state = s.conn.state := by
  unfold tailData
  split_ifs
  · exact congrArg Line.state (store_line 0 g s.conn)
  · rfl

theorem inFinWait2_grows {e : Env} {g : Segment} {isn : UInt32} {app : List UInt8}
    {u : List Sent} {q : Sender Sym} {s : St} (h : Tracks isn app u q s.conn.line s.out)
    (hst : s.conn.state = .finWait2) : Grows isn app u s (inFinWait2 e g s) := by
  have htail := tailData_keeps e g _ _ _ _ _ h
  unfold inFinWait2
  dsimp only
  split_ifs
  · have hclose := (htail.andThen (countFin_keeps e g)).andThen shutFinWait2_keeps
    have hstill : (countFin e g (tailData e g s)).conn.state = .finWait2 :=
      (tailData_state e g s).trans hst
    rwa [if_pos hstill] at hclose
  · exact htail

/-- Our FIN is acknowledged: the first step of `case TCP_FIN_WAIT_1`. -/
theorem Tracks.finAcked {isn : UInt32} {app : List UInt8} {u : List Sent} {q : Sender Sym}
    {c : Line} {out : List Sent} (h : Tracks isn app u q c out) (hst : c.state = .finWait1)
    (hflight : q.flight = 0) (seen : Bool) :
    Tracks isn app u q { c with state := if seen then .closed else .finWait2 } out := by
  have hopen : c.state ≠ .closed := by rw [hst]; decide
  cases seen with
  | true => exact h.shut (h.not_pending hopen hflight)
  | false =>
    have hph := h.phase
    unfold Phase at hph
    rw [hst] at hph
    exact { h with
      phase := ⟨hph.1, hph.2.1, hflight⟩
      pending := fun _ => h.pending hopen
      closed := fun hc => State.noConfusion hc }

theorem inFinWait1_grows {e : Env} {g : Segment} {isn : UInt32} {app : List UInt8}
    {u : List Sent} {q : Sender Sym} {s : St} (h : Tracks isn app u q s.conn.line s.out)
    (hst : s.conn.state = .finWait1)
    (hflight : g.has flagAck = true → g.ack = s.conn.snd_nxt → q.flight = 0) :
    Grows isn app u s (inFinWait1 e g s) := by
  have hacked : Grows isn app u s (if g.has flagAck ∧ g.ack = s.conn.snd_nxt then
      { s with conn := { s.conn with
          state := if s.conn.peer_fin_seen then .closed else .finWait2 } } else s) := by
    split
    · next hc => exact ⟨[], rfl, q, h.finAcked hst (hflight hc.1 hc.2) s.conn.peer_fin_seen⟩
    · exact h.grows rfl rfl
  have hclose : Keeps fun s => if g.has flagFin ∧ g.seq + g.len = s.conn.rcv_nxt then
      if (countFin e g s).conn.state = .finWait2 then
        { countFin e g s with conn := { (countFin e g s).conn with state := .closed } }
      else countFin e g s
    else s :=
    Keeps.ite ((countFin_keeps e g).andThen shutFinWait2_keeps) keeps_id
  have hall := (hacked.andThen (tailData_keeps e g)).andThen hclose
  exact hall

theorem synOptions_mss (fuel : Nat) (opts : List UInt8) (mss : UInt16) (h : 64 ≤ mss.toNat) :
    64 ≤ (synOptions fuel opts mss).toNat := by
  induction fuel generalizing opts mss with
  | zero => exact h
  | succ fuel ih =>
    cases opts with
    | nil => exact h
    | cons kind opts =>
      unfold synOptions
      split
      · exact h
      split
      · exact ih _ _ h
      cases opts with
      | nil => exact h
      | cons olen opts =>
        dsimp only
        split
        · exact h
        split
        · next hopt => exact ih _ _ (UInt16.le_iff_toNat_le.mp hopt.2.2)
        · exact ih _ _ h

/-- The handshake is complete. -/
theorem Tracks.establish {isn : UInt32} {app : List UInt8} {u : List Sent} {q : Sender Sym}
    {c : Line} {out : List Sent} (h : Tracks isn app u q c out) (hst : c.state = .synSent)
    (hflight : q.flight = 0) {mss : UInt16} (hmss : 64 ≤ mss.toNat) :
    Tracks isn app u q { c with state := .established, peer_mss := mss } out := by
  have hopen : c.state ≠ .closed := by rw [hst]; decide
  have hph := h.phase
  unfold Phase at hph
  rw [hst] at hph
  obtain ⟨rfl, hbuf, hstream, hsum⟩ := hph
  have hacked : q.acked = 1 := by omega
  exact { h with
    phase := ⟨hstream, by omega, by rw [hbuf, hstream, hacked]; rfl⟩
    pending := fun _ => h.pending hopen
    closed := fun hc => State.noConfusion hc
    mss := hmss }

theorem inSynSent_grows {e : Env} {g : Segment} {isn : UInt32} {app : List UInt8}
    {u : List Sent} {q : Sender Sym} {s : St} (h : Tracks isn app u q s.conn.line s.out)
    (hst : s.conn.state = .synSent)
    (hflight : g.has flagAck = true → g.ack = s.conn.snd_nxt → q.flight = 0) :
    Grows isn app u s (inSynSent e g s) := by
  unfold inSynSent
  dsimp only
  split
  · next hc =>
    let mss := synOptions g.opts.length g.opts s.conn.peer_mss
    have hmss : 64 ≤ mss.toNat := synOptions_mss _ _ _ h.mss
    let c : Conn := { s.conn with
      rcv_nxt := g.seq + 1, peer_mss := mss, peer_wnd := g.window.toUInt32, wl1 := g.seq,
      wl2 := g.ack, wl_valid := true, state := .established }
    have hup : Grows isn app u s { s with conn := c } :=
      ⟨[], rfl, q, h.establish hst (hflight hc.2.1 hc.2.2) hmss⟩
    exact hup.andThen (sendAck_keeps e)
  · exact h.grows rfl rfl

theorem handleRst_conn (e : Env) (g : Segment) (s : St) :
    (handleRst e g s).conn = s.conn ∨ (handleRst e g s).conn = giveUp s.conn := by
  unfold handleRst
  dsimp only
  split
  · split
    · exact Or.inl rfl
    · exact Or.inr rfl
  split
  · generalize (if recvWindow s.conn = 0 then 1 else (recvWindow s.conn).toUInt32) = wnd
    split
    · exact Or.inl rfl
    · exact Or.inl rfl
  · exact Or.inr rfl

theorem handleRst_keeps (e : Env) (g : Segment) : Keeps (handleRst e g) := by
  intro isn app u q s h
  unfold handleRst
  dsimp only
  split
  · split
    · exact h.grows rfl rfl
    · exact ⟨[], rfl, q, h.giveUp⟩
  · split
    · generalize (if recvWindow s.conn = 0 then 1 else (recvWindow s.conn).toUInt32) = wnd
      split
      · exact sendAck_keeps e _ _ _ _ _ h
      · exact h.grows rfl rfl
    · exact ⟨[], rfl, q, h.giveUp⟩

/-- **A segment that passed the checks.** What it acknowledges is no longer waiting. -/
theorem handleSegment_grows {e : Env} {g : Segment} {isn : UInt32} {app : List UInt8}
    {u : List Sent} {q : Sender Sym} {s : St} (h : Tracks isn app u q s.conn.line s.out)
    (hopen : s.conn.state ≠ .closed) :
    Grows isn app (unacked g u) s (handleSegment e g s) := by
  by_cases hr : g.has flagRst = true
  · rw [handleSegment, if_pos hr, unacked, if_neg fun hc => hc.2 hr]
    exact handleRst_keeps e g _ _ _ _ _ h
  obtain ⟨q', h', hflight⟩ := h.acked hopen (Bool.eq_false_iff.mpr hr)
  let s' : St := { s with conn := ackInFlight g s.conn }
  have hstate : s'.conn.state = s.conn.state := ackInFlight_state g s.conn
  have hnxt : s'.conn.snd_nxt = s.conn.snd_nxt := ackInFlight_snd_nxt g s.conn
  have hflight' : g.has flagAck = true → g.ack = s'.conn.snd_nxt → q'.flight = 0 :=
    fun ha hk => hflight ha (hk.trans hnxt)
  rw [handleSegment_of_not_rst (t := s') hr rfl]
  show Grows isn app _ s' _
  cases hst : s'.conn.state with
  | closed => exact absurd (hstate.symm.trans hst) hopen
  | synSent => exact inSynSent_grows h' hst hflight'
  | established => exact inEstablished_keeps e g _ _ _ _ _ h'
  | finWait1 => exact inFinWait1_grows h' hst hflight'
  | finWait2 => exact inFinWait2_grows h' hst
  | timeWait => exact h'.grows rfl rfl

/-- A closed connection hears nothing. -/
theorem received_closed {c : Conn} (h : c.state = .closed) (ip : IpPacket) :
    received c ip = none := by
  unfold received
  simp [h]

theorem handlePacket_grows {e : Env} {ip : IpPacket} {isn : UInt32} {app : List UInt8}
    {u : List Sent} {q : Sender Sym} {s : St} (h : Tracks isn app u q s.conn.line s.out) :
    Grows isn app (match received s.conn ip with | some g => unacked g u | none => u) s
      (handlePacket e ip s) := by
  unfold handlePacket
  cases hr : received s.conn ip with
  | none => exact h.grows rfl rfl
  | some g =>
    exact handleSegment_grows h fun hcl => Option.some_ne_none g (hr ▸ received_closed hcl ip)

/-! ## The other calls -/

theorem close_keeps (e : Env) : Keeps (close e) := by
  have hset : Keeps fun s => pumpSend e { s with conn := { s.conn with fin_pending := true } } :=
    (keeps_of_line (f := fun s => { s with conn := { s.conn with fin_pending := true } })
      (fun _ => rfl) fun _ => rfl).andThen (pumpSend_keeps e)
  exact Keeps.ite keeps_id hset

/-- What `tcp_poll_recv` hands out leaves the front of the buffer. -/
theorem pollRecv_conn (e : Env) (maxlen : UInt16) (s : St) :
    ∃ n, (pollRecv e maxlen s).1 = s.conn.recv_buf.take n
      ∧ (pollRecv e maxlen s).2.conn = { s.conn with recv_buf := s.conn.recv_buf.drop n } := by
  unfold pollRecv
  dsimp only
  refine ⟨_, rfl, ?_⟩
  generalize (if s.conn.recv_buf.length < maxlen.toNat then s.conn.recv_buf.length
    else maxlen.toNat) = n
  split <;> rfl

theorem pollRecv_keeps (e : Env) (maxlen : UInt16) : Keeps fun s => (pollRecv e maxlen s).2 := by
  intro isn app u q s h
  unfold pollRecv
  dsimp only
  generalize (if s.conn.recv_buf.length < maxlen.toNat then s.conn.recv_buf.length
    else maxlen.toNat) = n
  have hdrop : Grows isn app u s
      { s with conn := { s.conn with recv_buf := s.conn.recv_buf.drop n } } := h.grows rfl rfl
  split
  · exact hdrop.andThen (sendAck_keeps e)
  · exact hdrop

theorem sendData_grows {e : Env} {data : List UInt8} {isn : UInt32} {app : List UInt8}
    {u : List Sent} {q : Sender Sym} {s : St} (h : Tracks isn app u q s.conn.line s.out) :
    Grows isn (app ++ if (sendData e data s).1 then data else []) u s (sendData e data s).2 := by
  unfold sendData
  split
  · rw [if_neg Bool.false_ne_true, List.append_nil]
    exact h.grows rfl rfl
  next hst =>
  split
  · rw [if_neg Bool.false_ne_true, List.append_nil]
    exact h.grows rfl rfl
  next hlen =>
  have hst : s.conn.state = .established := not_not.mp fun hc => hst (Or.inl hc)
  have hroom : (s.conn.line.send_buf ++ data).length ≤ sendBufSize := by
    have hold : s.conn.send_buf.length ≤ sendBufSize := h.room
    have hnew : ¬ data.length > sendBufSize - s.conn.send_buf.length := hlen
    show (s.conn.send_buf ++ data).length ≤ _
    rw [List.length_append]
    omega
  rw [if_pos rfl]
  have hpush : Grows isn (app ++ data) u s
      { s with conn := { s.conn with send_buf := s.conn.send_buf ++ data } } :=
    ⟨[], rfl, q.push (data.map .byte), h.push hst hroom⟩
  exact hpush.andThen (pumpSend_keeps e)

/-- The sender of a connection whose SYN is on the wire (`1`) or was refused (`0`). -/
def synSender (flight : Nat) (h : flight ≤ 1) : Sender Sym := ⟨[.syn], 0, flight, by simpa using h⟩

theorem connect_tracks (e : Env) (remote_ip : UInt32) (remote_port : UInt16) (s : St)
    (hout : s.out = []) :
    ∃ q, Tracks (fresh e remote_ip remote_port s).snd_una []
      (counting (connect e remote_ip remote_port s).out) q
      (connect e remote_ip remote_port s).conn.line (connect e remote_ip remote_port s).out := by
  let c := fresh e remote_ip remote_port s
  let x : Sent := ⟨c, flagSyn, [], e.answer 0⟩
  have hx : ∀ stream, (x.counts → ∃ pos ≤ stream.length,
      x.seq = c.snd_una + UInt32.ofNat pos ∧ Slice stream pos x.syms) →
      ∀ y ∈ [x], Logged c.snd_una stream [x] y := by
    intro stream hs y hy
    obtain rfl := List.mem_singleton.mp hy
    exact ⟨Or.inr ⟨rfl, Or.inl rfl⟩, hs, fun _ => ⟨Nat.zero_le _, Nat.zero_le _⟩,
      fun hp => Bool.noConfusion hp⟩
  have hmss : 64 ≤ mssDefault.toNat := by decide
  unfold connect
  dsimp only [sendSegment]
  rw [hout]
  split
  · next s' hs' =>
    obtain ⟨hv, rfl⟩ := Prod.mk.inj hs'
    have hcount : x.counts = false := by simp [Sent.counts, show x.verdict = .failed from hv]
    have hu : counting [x] = [] := by simp [counting, hcount]
    refine ⟨synSender 0 (Nat.zero_le 1), ?_⟩
    show Tracks c.snd_una [] (counting [x]) _ _ [x]
    rw [hu]
    exact
      { una := by show c.snd_una = c.snd_una + UInt32.ofNat 0; simp
        nxt := by show c.snd_una = c.snd_una + UInt32.ofNat 0; simp
        stream := Or.inl rfl
        phase := trivial
        pending := fun hne => absurd rfl hne
        closed := fun _ => rfl
        slot := fun hp => Bool.noConfusion hp
        unarmed := fun _ => rfl
        len_le := Nat.le_refl 0
        len_mss := Nat.zero_le _
        room := Nat.zero_le _
        mss := hmss
        flying := fun y hy => absurd hy List.not_mem_nil
        idle := fun _ => rfl
        origin := fun hpos => absurd hpos (Nat.lt_irrefl 0)
        log := hx _ fun hc => by rw [hcount] at hc; exact absurd hc (by decide) }
  · next v s' hv hs' =>
    obtain ⟨hve, rfl⟩ := Prod.mk.inj hs'
    have hleft : x.verdict ≠ .failed := fun hf => hv (hve.symm.trans hf)
    have hsyms : x.syms = [.syn] := symbols_syn
    have hu : counting [x] = [x] := by simp [counting, Sent.counts, hleft, hsyms]
    refine ⟨synSender 1 (Nat.le_refl 1), ?_⟩
    show Tracks c.snd_una [] (counting [x]) _ _ [x]
    rw [hu]
    exact
      { una := by show c.snd_una = c.snd_una + UInt32.ofNat 0; simp
        nxt := rfl
        stream := Or.inl rfl
        phase := ⟨rfl, rfl, rfl, rfl⟩
        pending := fun _ => ⟨fun _ => Nat.one_pos, fun _ => rfl⟩
        closed := fun hc => State.noConfusion hc
        slot := fun _ => symbols_syn
        unarmed := fun hp => Bool.noConfusion hp
        len_le := Nat.le_refl 0
        len_mss := Nat.zero_le _
        room := Nat.zero_le _
        mss := hmss
        flying := fun y hy => by
          obtain rfl := List.mem_singleton.mp hy
          exact ⟨List.mem_singleton_self _, hleft, rfl, rfl, hsyms⟩
        idle := fun hc => absurd hc Nat.one_ne_zero
        origin := fun _ => ⟨x, List.mem_singleton_self x, rfl⟩
        log := hx _ fun _ => ⟨0, Nat.zero_le _, by simp [Sent.seq, x, c, fresh, clearRetransmit],
          by rw [hsyms]; exact List.prefix_rfl⟩ }

/-! ## Runs -/

/-- The segments that went out from `s` to `s'` and wait for an acknowledgement. -/
def sentSince (s s' : St) : List Sent :=
  counting (s'.out.take (s'.out.length - s.out.length))

/-- What waits after the packet `ip` came in and before anything is sent in answer. -/
def afterPacket (c : Conn) (ip : IpPacket) (u : List Sent) : List Sent :=
  match received c ip with
  | some g => unacked g u
  | none => u

/-- **A connection, from its `tcp_connect` on**, whatever went on before: its first number, the
bytes given to it, the segments that were sent and are not acknowledged, and the state. Every
call finds an environment of its own. `ok` says which segments may come in at all. -/
inductive Run (ok : Conn → Segment → Prop) : UInt32 → List UInt8 → List Sent → St → Prop where
  | connect (e : Env) (remote_ip : UInt32) (remote_port : UInt16) (s : St) (hout : s.out = []) :
    Run ok (fresh e remote_ip remote_port s).snd_una []
      (counting (Tcp.connect e remote_ip remote_port s).out)
      (Tcp.connect e remote_ip remote_port s)
  | sendData {isn : UInt32} {app : List UInt8} {u : List Sent} {s : St} (e : Env)
      (data : List UInt8) (h : Run ok isn app u s) :
    Run ok isn (app ++ if (Tcp.sendData e data s).1 then data else [])
      (sentSince s (Tcp.sendData e data s).2 ++ u) (Tcp.sendData e data s).2
  | close {isn : UInt32} {app : List UInt8} {u : List Sent} {s : St} (e : Env)
      (h : Run ok isn app u s) :
    Run ok isn app (sentSince s (Tcp.close e s) ++ u) (Tcp.close e s)
  | pumpSend {isn : UInt32} {app : List UInt8} {u : List Sent} {s : St} (e : Env)
      (h : Run ok isn app u s) :
    Run ok isn app (sentSince s (Tcp.pumpSend e s) ++ u) (Tcp.pumpSend e s)
  | pollRecv {isn : UInt32} {app : List UInt8} {u : List Sent} {s : St} (e : Env)
      (maxlen : UInt16) (h : Run ok isn app u s) :
    Run ok isn app (sentSince s (Tcp.pollRecv e maxlen s).2 ++ u) (Tcp.pollRecv e maxlen s).2
  | pollRetransmit {isn : UInt32} {app : List UInt8} {u : List Sent} {s : St} (e : Env)
      (h : Run ok isn app u s) :
    Run ok isn app (sentSince s (Tcp.pollRetransmit e s) ++ u) (Tcp.pollRetransmit e s)
  | packet {isn : UInt32} {app : List UInt8} {u : List Sent} {s : St} (e : Env) (ip : IpPacket)
      (h : Run ok isn app u s) (hok : ∀ g, received s.conn ip = some g → ok s.conn g) :
    Run ok isn app (sentSince s (handlePacket e ip s) ++ afterPacket s.conn ip u)
      (handlePacket e ip s)

theorem Grows.sentSince {isn : UInt32} {app : List UInt8} {u : List Sent} {s s' : St}
    (h : Grows isn app u s s') :
    ∃ q, Tracks isn app (Tcp.sentSince s s' ++ u) q s'.conn.line s'.out := by
  obtain ⟨l, hl, q, hq⟩ := h
  have hsince : Tcp.sentSince s s' = counting l := by
    rw [Tcp.sentSince, hl, List.length_append, Nat.add_sub_cancel, List.take_left]
  exact ⟨q, hsince ▸ hq⟩

/-- **Every run refines the stop-and-wait sender.** -/
theorem Run.tracks {ok : Conn → Segment → Prop} {isn : UInt32} {app : List UInt8}
    {u : List Sent} {s : St} (h : Run ok isn app u s) :
    ∃ q, Tracks isn app u q s.conn.line s.out := by
  induction h with
  | connect e remote_ip remote_port s hout => exact connect_tracks e remote_ip remote_port s hout
  | sendData e data _ ih =>
    obtain ⟨q, hq⟩ := ih
    exact (sendData_grows hq).sentSince
  | close e _ ih =>
    obtain ⟨q, hq⟩ := ih
    exact (close_keeps e _ _ _ _ _ hq).sentSince
  | pumpSend e _ ih =>
    obtain ⟨q, hq⟩ := ih
    exact (pumpSend_keeps e _ _ _ _ _ hq).sentSince
  | pollRecv e maxlen _ ih =>
    obtain ⟨q, hq⟩ := ih
    exact (pollRecv_keeps e maxlen _ _ _ _ _ hq).sentSince
  | pollRetransmit e _ ih =>
    obtain ⟨q, hq⟩ := ih
    exact (pollRetransmit_keeps e _ _ _ _ _ hq).sentSince
  | packet e ip _ _ ih =>
    obtain ⟨q, hq⟩ := ih
    exact (handlePacket_grows hq).sentSince

/-! ## The send stream -/

def Sym.byte? : Sym → Option UInt8
  | .byte b => some b
  | .syn | .fin => none

theorem filterMap_byte (data : List UInt8) : (data.map Sym.byte).filterMap Sym.byte? = data := by
  rw [List.filterMap_map]
  exact List.filterMap_some

/-- A slice of the stream that holds data is a slice of the application's bytes. -/
theorem slice_app {app data : List UInt8} {stream : List Sym} {pos : Nat}
    (hstream : stream = .syn :: app.map .byte ∨ stream = .syn :: app.map .byte ++ [.fin])
    (h : Slice stream pos (data.map .byte)) (hne : data ≠ []) :
    ∃ off, pos = off + 1 ∧ Slice app off data := by
  have hlen : 0 < (data.map Sym.byte).length := by
    rw [List.length_map]; exact List.length_pos_iff.mpr hne
  have hhead := h.get hlen
  obtain ⟨b, rest, rfl⟩ := List.exists_cons_of_ne_nil hne
  cases pos with
  | zero => rcases hstream with rfl | rfl <;> simp at hhead
  | succ off =>
    obtain ⟨more, hmore, rfl⟩ : ∃ more : List Sym, (∀ k, (more.drop k).filterMap Sym.byte? = [])
        ∧ stream = .syn :: (app.map .byte ++ more) := by
      rcases hstream with rfl | rfl
      · exact ⟨[], fun k => by rw [List.drop_nil]; rfl, by rw [List.append_nil]⟩
      · exact ⟨[.fin], fun k => by cases k <;> simp [Sym.byte?], rfl⟩
    have hbytes := List.IsPrefix.filterMap Sym.byte? h
    rw [List.drop_succ_cons, List.drop_append, List.filterMap_append, hmore, List.append_nil,
      ← List.map_drop, filterMap_byte, filterMap_byte] at hbytes
    exact ⟨off, rfl, hbytes⟩

/-- **The send stream is exact.** `app` is the bytes `tcp_send_data` accepted. -/
structure SendExact (isn : UInt32) (app : List UInt8) (u : List Sent) (s : St) : Prop where
  /-- A data segment holds the bytes of the stream its number says. -/
  data : ∀ x ∈ s.out, x.verdict ≠ .failed → x.data ≠ [] →
    ∃ off, x.seq - (isn + 1) = UInt32.ofNat off ∧ Slice app off x.data
  /-- A first transmission fits the peer's segment size and the window it last announced. -/
  first : ∀ x ∈ s.out, x.conn.retx_pending = false →
    x.data.length ≤ x.conn.peer_mss.toNat ∧ x.data.length ≤ x.conn.peer_wnd.toNat
  /-- What is no first transmission repeats one. -/
  again : ∀ x ∈ s.out, x.conn.retx_pending = true → x.data ≠ [] →
    ∃ y ∈ s.out, y.conn.retx_pending = false ∧ y.verdict ≠ .failed ∧ y.seq = x.seq
      ∧ y.flags = x.flags ∧ y.data = x.data
  /-- One segment at most is not acknowledged … -/
  one : ∀ x ∈ u, ∀ y ∈ u, x.seq = y.seq ∧ x.flags = y.flags ∧ x.data = y.data
  /-- … and `snd_nxt - snd_una` is its length. -/
  outstanding : ∀ x ∈ u, x.seq = s.conn.snd_una
    ∧ s.conn.snd_nxt - s.conn.snd_una = UInt32.ofNat x.syms.length
  idle : u = [] → s.conn.snd_nxt - s.conn.snd_una = 0
  /-- The FIN follows the last byte. -/
  fin : ∀ x ∈ s.out, x.verdict ≠ .failed → x.flags &&& flagFin ≠ 0 →
    x.seq - (isn + 1) = UInt32.ofNat app.length
  room : s.conn.send_buf.length ≤ sendBufSize
  retx_len : s.conn.retx_len ≤ s.conn.send_buf.length

theorem Tracks.slice_data {isn : UInt32} {app : List UInt8} {u : List Sent} {q : Sender Sym}
    {c : Line} {out : List Sent} (h : Tracks isn app u q c out) {x : Sent} (hx : x ∈ out)
    (hv : x.verdict ≠ .failed) (hne : x.data ≠ []) :
    ∃ off, x.seq - (isn + 1) = UInt32.ofNat off ∧ Slice app off x.data := by
  have hkind : x.flags = flagAck ||| flagPsh :=
    (h.log x hx).kind.resolve_right fun hc => hne hc.1
  have hsyms : x.syms = x.data.map .byte := by
    rw [Sent.syms, hkind, symbols_data]
  have hcount : x.counts := by
    simp [Sent.counts, hv, hsyms, hne]
  obtain ⟨pos, -, hseq, hslice⟩ := (h.log x hx).slice hcount
  rw [hsyms] at hslice
  obtain ⟨off, rfl, happ⟩ := slice_app h.stream hslice hne
  refine ⟨off, ?_, happ⟩
  rw [hseq, UInt32.ofNat_add]
  grind

theorem Tracks.seq_fin {isn : UInt32} {app : List UInt8} {u : List Sent} {q : Sender Sym}
    {c : Line} {out : List Sent} (h : Tracks isn app u q c out) {x : Sent} (hx : x ∈ out)
    (hv : x.verdict ≠ .failed) (hfin : x.flags &&& flagFin ≠ 0) :
    x.seq - (isn + 1) = UInt32.ofNat app.length := by
  obtain ⟨hdata, hflags⟩ : x.data = [] ∧ x.flags = flagFin ||| flagAck := by
    rcases (h.log x hx).kind with hk | ⟨hd, hk | hk | hk⟩
    · rw [hk] at hfin; exact absurd rfl hfin
    · rw [hk] at hfin; exact absurd rfl hfin
    · rw [hk] at hfin; exact absurd rfl hfin
    · exact ⟨hd, hk⟩
  have hsyms : x.syms = [.fin] := by rw [Sent.syms, hdata, hflags]; rfl
  have hcount : x.counts := by simp [Sent.counts, hv, hsyms]
  obtain ⟨pos, -, hseq, hslice⟩ := (h.log x hx).slice hcount
  rw [hsyms] at hslice
  have hget : q.stream[pos]? = some .fin := by simpa using hslice.get (i := 0) (by simp)
  -- the only FIN of the stream is its last symbol
  have hpos : pos = app.length + 1 := by
    cases pos with
    | zero => rcases h.stream with hs | hs <;> simp [hs] at hget
    | succ off =>
      rcases h.stream with hs | hs
      · simp [hs] at hget
      · rw [hs, List.cons_append, List.getElem?_cons_succ] at hget
        have hge : app.length ≤ off := by
          by_contra hlt
          rw [List.getElem?_append_left (by rw [List.length_map]; omega), List.getElem?_map] at hget
          obtain ⟨b, -, hb⟩ := Option.map_eq_some_iff.mp hget
          exact Sym.noConfusion hb
        have hlt := (List.getElem?_eq_some_iff.mp hget).1
        simp only [List.length_append, List.length_map, List.length_singleton] at hlt
        omega
  rw [hseq, hpos, UInt32.ofNat_add]
  grind

/-- An environment in which every segment leaves at once. -/
def calm : Env := ⟨0, 0, 0x0A00020F, fun _ => .sent⟩

/-- What a peer whose end of the connection is `c` puts on the wire. -/
def peerPacket (c : Conn) (flags : UInt8) (data : List UInt8) : IpPacket where
  src_ip := 0x0A000202
  dst_ip := 0x0A00020F
  payload := ((Sent.mk { c with remote_ip := 0x0A00020F } flags data .sent).bytes 0x0A000202).take
    1500
  payload_lt := Nat.lt_of_le_of_lt (List.length_take_le _ _) (by decide)

/-- The peer of the first connection of a fresh system, with the initial number 5000. -/
def firstPeer : Conn :=
  { local_port := 80, remote_port := 49152, snd_nxt := 5000, rcv_nxt := 0xC0001001 }

def firstOpen : St := connect calm 0x0A000202 80 {}

def firstSynAck : IpPacket := peerPacket firstPeer (flagSyn ||| flagAck) []

def firstUp : St := handlePacket calm firstSynAck firstOpen

end Tcp
