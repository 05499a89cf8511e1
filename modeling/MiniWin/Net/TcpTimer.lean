import MiniWin.Net.TcpRun

/-!
# TCP: what waits is sent again

The retransmit slot is armed whenever something that was sent waits for its acknowledgement.
It is for the SYN too, unless a segment that acknowledges the SYN without being a SYN-ACK comes
in: the ACK test all states share empties the slot, and `TCP_SYN_SENT` then ignores the segment.
-/

namespace Tcp

open Net

/-- The segments that do not take the SYN out of the slot and leave the connection where it
was: in `TCP_SYN_SENT`, an ACK of the SYN is a SYN-ACK or a RST. -/
def AnswersSyn (c : Conn) (g : Segment) : Prop :=
  c.state = .synSent → g.has flagAck = true → g.ack = c.snd_nxt →
    g.has flagSyn = true ∨ g.has flagRst = true

/-- The slot of a connection that waits for its SYN-ACK is armed. -/
def SynArmed (c : Conn) : Prop := c.state = .synSent → c.retx_pending = true

theorem synArmed_of_state {c : Conn} (h : c.state ≠ .synSent) : SynArmed c := fun hc => absurd hc h

/-! ## Only `tcp_connect` waits for a SYN-ACK -/

theorem txRefused_state (e : Env) (c : Conn) :
    (txRefused e c).state = c.state ∨ (txRefused e c).state = .closed := by
  rcases txRefused_line e c with h | h
  · exact Or.inl (congrArg Line.state h)
  · exact Or.inr (congrArg Line.state h)

theorem zeroWindowWait_state (e : Env) (s : St) :
    (zeroWindowWait e s).conn.state = s.conn.state ∨ (zeroWindowWait e s).conn.state = .closed := by
  unfold zeroWindowWait
  dsimp only
  split
  · exact Or.inl rfl
  split
  · exact Or.inr rfl
  split
  · exact Or.inl rfl
  · exact Or.inl rfl

theorem pumpData_state (e : Env) (s : St) :
    (pumpData e s).conn.state = s.conn.state ∨ (pumpData e s).conn.state = .closed := by
  unfold pumpData
  split
  · exact zeroWindowWait_state e s
  · dsimp only [sendSegment]
    split
    · next s' hs' =>
      obtain ⟨-, rfl⟩ := Prod.mk.inj hs'
      exact txRefused_state e _
    · next v s' _ hs' =>
      obtain ⟨-, rfl⟩ := Prod.mk.inj hs'
      exact Or.inl rfl

theorem pumpFin_state (e : Env) (s : St) :
    (pumpFin e s).conn.state = s.conn.state ∨ (pumpFin e s).conn.state = .closed
      ∨ (pumpFin e s).conn.state = .finWait1 := by
  unfold pumpFin
  dsimp only [sendSegment]
  split
  · next s' hs' =>
    obtain ⟨-, rfl⟩ := Prod.mk.inj hs'
    rcases txRefused_state e s.conn with h | h
    · exact Or.inl h
    · exact Or.inr (Or.inl h)
  · next v s' _ hs' =>
    obtain ⟨-, rfl⟩ := Prod.mk.inj hs'
    exact Or.inr (Or.inr rfl)

theorem pumpSend_state (e : Env) (s : St) :
    pumpSend e s = s ∨ (pumpSend e s).conn.state ≠ .synSent := by
  unfold pumpSend
  dsimp only
  split
  · exact Or.inl rfl
  next hst =>
  have hst : s.conn.state = .established := not_not.mp hst
  split
  · exact Or.inl rfl
  split
  · exact Or.inl rfl
  split
  · exact Or.inl rfl
  split
  · refine Or.inr ?_
    rcases pumpData_state e s with h | h
    · rw [h, hst]; decide
    · rw [h]; decide
  · refine Or.inr ?_
    rcases pumpFin_state e s with h | h | h
    · rw [h, hst]; decide
    · rw [h]; decide
    · rw [h]; decide

theorem SynArmed.pumpSend {s : St} (h : SynArmed s.conn) (e : Env) :
    SynArmed (Tcp.pumpSend e s).conn := by
  rcases pumpSend_state e s with hp | hp
  · rw [hp]; exact h
  · exact synArmed_of_state hp

theorem SynArmed.resend {s : St} (h : SynArmed s.conn) (e : Env) :
    SynArmed (Tcp.resend e s).conn := by
  unfold Tcp.resend
  dsimp only
  split
  · exact h
  split
  · exact h
  split
  · exact synArmed_of_state fun hc => State.noConfusion hc
  · exact h

theorem SynArmed.close {s : St} (h : SynArmed s.conn) (e : Env) :
    SynArmed (Tcp.close e s).conn := by
  unfold Tcp.close
  split
  · exact h
  · next hst =>
    refine SynArmed.pumpSend (s := { s with conn := { s.conn with fin_pending := true } }) ?_ e
    exact h

theorem SynArmed.sendData {s : St} (h : SynArmed s.conn) (e : Env) (data : List UInt8) :
    SynArmed (Tcp.sendData e data s).2.conn := by
  unfold Tcp.sendData
  split
  · exact h
  split
  · exact h
  · refine SynArmed.pumpSend
      (s := { s with conn := { s.conn with send_buf := s.conn.send_buf ++ data } }) ?_ e
    exact h

theorem SynArmed.pollRecv {s : St} (h : SynArmed s.conn) (e : Env) (maxlen : UInt16) :
    SynArmed (Tcp.pollRecv e maxlen s).2.conn := by
  obtain ⟨n, -, hc⟩ := pollRecv_conn e maxlen s
  rw [hc]
  exact h

/-! ## Segments -/

theorem inEstablished_state {e : Env} {g : Segment} {s : St} (h : s.conn.state = .established) :
    (inEstablished e g s).conn.state ≠ .synSent := by
  obtain ⟨s', hl, hs'⟩ := inEstablished_eq e g s
  have hst : s'.conn.state = .established := (congrArg Line.state hl).trans h
  rw [hs']
  rcases pumpSend_state e s' with hp | hp
  · rw [hp, hst]; decide
  · exact hp

theorem inFinWait1_state {e : Env} {g : Segment} {s : St} (h : s.conn.state = .finWait1) :
    (inFinWait1 e g s).conn.state ≠ .synSent := by
  -- the state after the first step
  let s' : St := if g.has flagAck ∧ g.ack = s.conn.snd_nxt then
    { s with conn := { s.conn with
        state := if s.conn.peer_fin_seen then .closed else .finWait2 } } else s
  have hs' : s'.conn.state ≠ .synSent := by
    show (if _ then _ else s : St).conn.state ≠ _
    split
    · show (if _ then State.closed else State.finWait2) ≠ _
      split <;> decide
    · rw [h]; decide
  have htail : (tailData e g s').conn.state ≠ .synSent := by rwa [tailData_state]
  show (if g.has flagFin ∧ g.seq + g.len = (tailData e g s').conn.rcv_nxt then
    if (countFin e g (tailData e g s')).conn.state = .finWait2 then
      { countFin e g (tailData e g s') with
        conn := { (countFin e g (tailData e g s')).conn with state := .closed } }
    else countFin e g (tailData e g s')
    else tailData e g s').conn.state ≠ _
  split
  · split
    · exact fun hc => State.noConfusion hc
    · exact htail
  · exact htail

theorem inFinWait2_state {e : Env} {g : Segment} {s : St} (h : s.conn.state = .finWait2) :
    (inFinWait2 e g s).conn.state ≠ .synSent := by
  unfold inFinWait2
  dsimp only
  split
  · exact fun hc => State.noConfusion hc
  · rw [tailData_state, h]; decide

/-- An ACK of the SYN that comes in in `TCP_SYN_SENT` is its SYN-ACK, so the slot is emptied
only when the connection is established. -/
theorem SynArmed.inSynSent {s : St} (h : SynArmed s.conn) (e : Env) {g : Segment}
    (hst : s.conn.state = .synSent) (hok : AnswersSyn s.conn g) (hr : g.has flagRst = false) :
    SynArmed (Tcp.inSynSent e g { s with conn := ackInFlight g s.conn }).conn := by
  unfold Tcp.inSynSent
  dsimp only
  rw [ackInFlight_snd_nxt]
  split
  · exact synArmed_of_state fun hc => State.noConfusion hc
  · next hno =>
    have hkeep : ackInFlight g s.conn = s.conn := by
      unfold ackInFlight
      refine if_neg fun hc => ?_
      rcases hok hst hc.1 hc.2.1 with hsyn | hrst
      · exact hno ⟨hsyn, hc.1, hc.2.1⟩
      · rw [hr] at hrst; exact absurd hrst (by decide)
    rw [hkeep]
    exact h

theorem SynArmed.handleSegment {s : St} (h : SynArmed s.conn) (e : Env) {g : Segment}
    (hok : AnswersSyn s.conn g) : SynArmed (Tcp.handleSegment e g s).conn := by
  by_cases hr : g.has flagRst = true
  · rw [Tcp.handleSegment, if_pos hr]
    rcases handleRst_conn e g s with hc | hc
    · rw [hc]; exact h
    · rw [hc]; exact synArmed_of_state fun hc => State.noConfusion hc
  let s' : St := { s with conn := ackInFlight g s.conn }
  have hstate : s'.conn.state = s.conn.state := ackInFlight_state g s.conn
  rw [handleSegment_of_not_rst (t := s') hr rfl]
  cases hst : s'.conn.state with
  | synSent => exact h.inSynSent e (hstate.symm.trans hst) hok (Bool.eq_false_iff.mpr hr)
  | established => exact synArmed_of_state (inEstablished_state hst)
  | finWait1 => exact synArmed_of_state (inFinWait1_state hst)
  | finWait2 => exact synArmed_of_state (inFinWait2_state hst)
  | closed => exact synArmed_of_state (by rw [hst]; decide)
  | timeWait => exact synArmed_of_state (by rw [hst]; decide)

theorem synArmed_connect (e : Env) (remote_ip : UInt32) (remote_port : UInt16) (s : St) :
    SynArmed (connect e remote_ip remote_port s).conn := by
  unfold connect
  dsimp only [sendSegment]
  split
  · exact synArmed_of_state fun hc => State.noConfusion hc
  · exact fun _ => rfl

theorem Run.synArmed {isn : UInt32} {app : List UInt8} {u : List Sent} {s : St}
    (h : Run AnswersSyn isn app u s) : SynArmed s.conn := by
  induction h with
  | connect e remote_ip remote_port s _ => exact synArmed_connect e remote_ip remote_port s
  | sendData e data _ ih => exact ih.sendData e data
  | close e _ ih => exact ih.close e
  | pumpSend e _ ih => exact ih.pumpSend e
  | pollRecv e maxlen _ ih => exact ih.pollRecv e maxlen
  | pollRetransmit e _ ih => exact (ih.pumpSend e).resend e
  | @packet _ _ _ s e ip _ hok ih =>
    unfold handlePacket
    cases hr : received s.conn ip with
    | none => exact ih
    | some g => exact ih.handleSegment e (hok g hr)

/-! ## The timer -/

/-- The slot is armed, and describes the segment `x`. -/
structure Describes (c : Conn) (x : Sent) : Prop where
  pending : c.retx_pending = true
  seq : x.seq = c.snd_una
  flags : x.flags = c.retx_flags
  data : x.data = c.send_buf.take c.retx_len

/-- **Nothing waits without a timer.** `u` is what was sent and is not acknowledged. -/
structure TimerArmed (isn : UInt32) (u : List Sent) (s : St) : Prop where
  /-- The slot describes whatever waits. -/
  waiting : s.conn.state ≠ .closed → ∀ x ∈ u, Describes s.conn x
  /-- While there is no SYN-ACK, that is the SYN. -/
  syn : s.conn.state = .synSent → ∃ x ∈ u, x.flags = flagSyn ∧ x.seq = isn
  /-- When its time is up it goes out again, until the retries are used up. -/
  again : s.conn.state ≠ .closed → ∀ x ∈ u, ∀ e : Env,
    ¬ e.net_ticks - s.conn.retx_tick_sent < retransmitTicks → s.conn.retx_count < maxRetries →
    ∃ y, (pollRetransmit e s).out = y :: s.out ∧ y.seq = x.seq ∧ y.flags = x.flags
      ∧ y.data = x.data

/-- A segment in the slot whose time is up goes out again. -/
theorem Describes.again {c : Conn} {x : Sent} (h : Describes c x) {s : St} (hs : s.conn = c)
    (hmss : c.retx_len ≤ sendMss) {e : Env}
    (hdue : ¬ e.net_ticks - c.retx_tick_sent < retransmitTicks) (hcount : c.retx_count < maxRetries) :
    ∃ y, (pollRetransmit e s).out = y :: s.out ∧ y.seq = x.seq ∧ y.flags = x.flags
      ∧ y.data = x.data := by
  subst hs
  have hpump : pumpSend e s = s := by
    unfold pumpSend
    dsimp only
    split
    · rfl
    · rw [if_pos h.pending]
  let y : Sent := ⟨{ s.conn with snd_nxt := s.conn.snd_una }, s.conn.retx_flags,
    (s.conn.send_buf.take s.conn.retx_len).take sendMss, e.answer s.out.length⟩
  refine ⟨y, ?_, h.seq.symm, h.flags.symm, ?_⟩
  · rw [pollRetransmit, hpump]
    unfold resend
    dsimp only
    rw [if_neg (not_not.mpr h.pending), if_neg hdue, if_neg (Nat.not_le.mpr hcount)]
    rfl
  · show (s.conn.send_buf.take s.conn.retx_len).take sendMss = x.data
    rw [List.take_take, Nat.min_eq_right hmss, h.data]

/-- **Whatever waits is in the slot**, in every run in which an ACK of the SYN that comes in in
`TCP_SYN_SENT` has the SYN or the RST flag too. -/
theorem timer_armed {isn : UInt32} {app : List UInt8} {u : List Sent} {s : St}
    (h : Run AnswersSyn isn app u s) : TimerArmed isn u s := by
  obtain ⟨q, hq⟩ := h.tracks
  have hdescribes : s.conn.state ≠ .closed → ∀ x ∈ u, Describes s.conn x := by
    intro hopen x hx
    obtain ⟨-, -, hseq, hflags, hsyms⟩ := hq.flying x hx
    have hp : s.conn.retx_pending = true := (hq.pending hopen).mpr <| by
      by_contra hzero
      have hu := hq.idle (Nat.eq_zero_of_not_pos hzero)
      rw [hu] at hx
      exact List.not_mem_nil hx
    have hsame : symbols x.flags x.data
        = symbols x.flags (s.conn.send_buf.take s.conn.retx_len) := by
      rw [show symbols x.flags x.data = q.onWire from hsyms, hflags]
      exact (hq.slot hp).symm
    exact ⟨hp, hseq, hflags, data_eq_of_symbols hsame⟩
  refine ⟨hdescribes, fun hst => ?_, fun hopen x hx e hdue hcount =>
    (hdescribes hopen x hx).again rfl hq.len_mss hdue hcount⟩
  -- the SYN is the only symbol of the stream, so it is what the armed slot holds
  have hopen : s.conn.state ≠ .closed := by rw [hst]; decide
  have hph := hq.phase
  unfold Phase at hph
  rw [show s.conn.line.state = .synSent from hst] at hph
  obtain ⟨-, -, hstream, hsum⟩ := hph
  have hflight : 0 < q.flight := (hq.pending hopen).mp (h.synArmed hst)
  obtain ⟨x, hx, -⟩ := hq.origin hflight
  obtain ⟨hmem, -, hseq, -, hsyms⟩ := hq.flying x hx
  have hacked : q.acked = 0 := by omega
  have hwire : q.onWire = [.syn] := by
    rw [Sender.onWire, hstream, hacked, show q.flight = 1 from by omega]; rfl
  refine ⟨x, hx, ?_, by rw [hseq, hq.una, hacked]; simp⟩
  have hone : symbols x.flags x.data = [.syn] := hsyms.trans hwire
  rcases (hq.log x hmem).kind with hk | ⟨hd, hk | hk | hk⟩
  · rw [hk, symbols_data] at hone
    cases hdata : x.data <;> simp [hdata] at hone
  · exact hk
  · rw [hk, hd, symbols_ack] at hone; cases hone
  · rw [hk, hd, symbols_fin] at hone; cases hone

/-- The handshake of `send_stream_exact_two_bytes`: its data segment is in the slot. -/
theorem timer_armed_two_bytes :
    ∃ u, u ≠ [] ∧ TimerArmed 0xC0001000 u (sendData calm [104, 105] firstUp).2 := by
  have hisn : (fresh calm 0x0A000202 80 {}).snd_una = 0xC0001000 := by decide +kernel
  have hok : ∀ g, received firstOpen.conn firstSynAck = some g → AnswersSyn firstOpen.conn g := by
    intro g hg _ _ _
    have hsyn : (received firstOpen.conn firstSynAck).map (fun g => g.has flagSyn) = some true := by
      decide +kernel
    rw [hg] at hsyn
    exact Or.inl (Option.some.inj hsyn)
  have hrun := timer_armed
    (((Run.connect calm 0x0A000202 80 {} rfl).packet calm firstSynAck hok).sendData
      calm [104, 105])
  rw [hisn] at hrun
  refine ⟨_, ?_, hrun⟩
  have hlen : 0 < (sentSince firstUp (sendData calm [104, 105] firstUp).2).length := by
    decide +kernel
  exact List.append_ne_nil_of_left_ne_nil (List.ne_nil_of_length_pos hlen) _

/-- An ACK of the SYN without the SYN flag empties the slot, and the connection still waits for
the SYN-ACK. -/
theorem syn_left_without_timer :
    ¬ ∀ (isn : UInt32) (app : List UInt8) (u : List Sent) (s : St),
      Run (fun _ _ => True) isn app u s → TimerArmed isn u s := by
  intro h
  let ip : IpPacket := peerPacket firstPeer flagAck []
  have hopen : Run (fun _ _ => True) _ _ _ firstOpen := Run.connect calm 0x0A000202 80 {} rfl
  have hrun := hopen.packet calm ip fun _ _ => trivial
  have harmed := h _ _ _ _ hrun
  obtain ⟨x, hx, -⟩ := harmed.syn (by decide +kernel)
  have hp := (harmed.waiting (by decide +kernel) x hx).pending
  exact absurd hp (by decide +kernel)

end Tcp
