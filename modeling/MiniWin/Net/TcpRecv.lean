import Mathlib.Algebra.Group.Nat.Defs
import MiniWin.Net.TcpTimer

/-!
# TCP: what is received

The peer has a stream of bytes, and every segment that comes in holds the bytes its sequence
number says. What `tcp_poll_recv` has handed out, followed by what is in the buffer, is then
the beginning of that stream – unless a segment with the SYN flag brings data that is new. Its
first byte has the number behind the SYN, and `tcp_handle_packet` takes it for that of the SYN.
-/

namespace Tcp

open Net

/-! ## The peer -/

/-- The peer of a connection: its first number and all the bytes it sends. -/
structure Peer where
  isn : UInt32
  stream : List UInt8
  short : stream.length < 2 ^ 31

/-- The number of the first data byte of a segment: the SYN takes up one of its own. -/
def Segment.start (g : Segment) : UInt32 := if g.has flagSyn then g.seq + 1 else g.seq

/-- A segment of the peer: its data is the stream at the position its number says, and its FIN
is behind the last byte. -/
structure Peer.Carries (p : Peer) (g : Segment) : Prop where
  syn : g.has flagSyn = true → g.seq = p.isn
  data : g.data ≠ [] ∨ g.has flagFin = true → ∃ off,
    g.start = p.isn + 1 + UInt32.ofNat off ∧ Slice p.stream off g.data
      ∧ off + g.data.length ≤ p.stream.length
      ∧ (g.has flagFin = true → off + g.data.length = p.stream.length)

/-- A SYN that carries data carries only bytes that were received before. -/
def SynHeld (c : Conn) (g : Segment) : Prop :=
  g.has flagSyn = true → g.data ≠ [] → g.data.length < (c.rcv_nxt - g.seq).toNat

/-! ## The receiving half -/

/-- `1` once the FIN of the peer is counted in `rcv_nxt`. -/
def Conn.finCount (c : Conn) : Nat := if c.peer_fin_seen then 1 else 0

/-- **`got` was handed out, and the connection goes on behind it.** -/
structure Holds (p : Peer) (got : List UInt8) (c : Conn) : Prop where
  held : got ++ c.recv_buf <+: p.stream
  nxt : c.rcv_nxt = p.isn + 1 + UInt32.ofNat ((got ++ c.recv_buf).length + c.finCount)
  fin : c.peer_fin_seen = true → got ++ c.recv_buf = p.stream
  room : c.recv_buf.length ≤ recvBufSize

/-- What the receiving half reads and writes. -/
def Conn.inbound (c : Conn) : UInt32 × List UInt8 × Bool := (c.rcv_nxt, c.recv_buf, c.peer_fin_seen)

theorem Holds.of_inbound {p : Peer} {got : List UInt8} {c c' : Conn} (h : Holds p got c)
    (hc : c'.inbound = c.inbound) : Holds p got c' := by
  obtain ⟨hnxt, hrest⟩ := Prod.mk.inj hc
  obtain ⟨hbuf, hfin⟩ := Prod.mk.inj hrest
  exact ⟨hbuf ▸ h.held, by rw [hnxt, h.nxt, hbuf, Conn.finCount, Conn.finCount, hfin],
    by rw [hbuf, hfin]; exact h.fin, hbuf ▸ h.room⟩

theorem Holds.length_le {p : Peer} {got : List UInt8} {c : Conn} (h : Holds p got c) :
    (got ++ c.recv_buf).length + c.finCount ≤ 2 ^ 31 := by
  have hle := h.held.length_le
  have hshort := p.short
  have hfin : c.finCount ≤ 1 := by unfold Conn.finCount; split <;> decide
  omega

/-- Two numbers of the peer are equal when their positions are. -/
theorem position_inj {isn : UInt32} {a b : Nat} (ha : a ≤ 2 ^ 31) (hb : b ≤ 2 ^ 31)
    (h : isn + 1 + UInt32.ofNat a = isn + 1 + UInt32.ofNat b) : a = b := by
  have hab : UInt32.ofNat a = UInt32.ofNat b := by grind
  have hnat := congrArg UInt32.toNat hab
  rw [UInt32.toNat_ofNat', UInt32.toNat_ofNat'] at hnat
  omega

/-- How far one position is behind another, as `tcp_handle_packet` computes it. -/
theorem position_sub {isn : UInt32} {a b : Nat} (ha : a ≤ 2 ^ 31) (hb : b ≤ 2 ^ 31)
    (hlt : isn + 1 + UInt32.ofNat a - (isn + 1 + UInt32.ofNat b) < 0x80000000) :
    b ≤ a ∧ (isn + 1 + UInt32.ofNat a - (isn + 1 + UInt32.ofNat b)).toNat = a - b := by
  have hsub : isn + 1 + UInt32.ofNat a - (isn + 1 + UInt32.ofNat b)
      = UInt32.ofNat a - UInt32.ofNat b := by grind
  rw [hsub] at hlt ⊢
  have hnat := UInt32.lt_iff_toNat_lt.mp hlt
  rw [UInt32.toNat_sub, UInt32.toNat_ofNat', UInt32.toNat_ofNat'] at hnat ⊢
  have hc : (0x80000000 : UInt32).toNat = 2 ^ 31 := rfl
  omega

/-- Nothing of a SYN is stored when all its bytes are old. -/
theorem SynHeld.storeFresh_eq {c : Conn} {g : Segment} (h : SynHeld c g)
    (hsyn : g.has flagSyn = true) (hne : g.data ≠ []) : storeFresh g c = c := by
  unfold storeFresh
  dsimp only
  exact if_neg fun hc => Nat.lt_asymm hc.2 (h hsyn hne)

theorem SynHeld.storeFresh {c : Conn} {g : Segment} (h : SynHeld c g) :
    SynHeld (Tcp.storeFresh g c) g := by
  intro hsyn hne
  rw [h.storeFresh_eq hsyn hne]
  exact h hsyn hne

/-- **Data that overlaps what is held, or follows it, extends it.** -/
theorem Holds.storeFresh {p : Peer} {got : List UInt8} {c : Conn} (h : Holds p got c)
    {g : Segment} (hg : p.Carries g) (hheld : SynHeld c g) (hne : g.data ≠ []) :
    Holds p got (Tcp.storeFresh g c) := by
  cases hsyn : g.has flagSyn with
  | true => rw [hheld.storeFresh_eq hsyn hne]; exact h
  | false =>
  unfold Tcp.storeFresh
  dsimp only
  split
  swap
  · exact h
  next hcond =>
  obtain ⟨hlt, hlen⟩ := hcond
  obtain ⟨off, hstart, hslice, hoff, -⟩ := hg.data (Or.inl hne)
  have hseq : g.seq = p.isn + 1 + UInt32.ofNat off := by
    rw [← hstart, Segment.start, hsyn]; rfl
  have hshort := p.short
  rw [h.nxt, hseq] at hlt hlen ⊢
  obtain ⟨hle, hnat⟩ := position_sub h.length_le (by omega) hlt
  rw [hnat] at hlen ⊢
  -- a FIN that is counted leaves no data in front of it
  have hnofin : c.peer_fin_seen = false := Bool.eq_false_iff.mpr fun hfin => by
    have hall := congrArg List.length (h.fin hfin)
    rw [Conn.finCount, if_pos hfin] at hlen
    omega
  have hzero : c.finCount = 0 := by rw [Conn.finCount, hnofin]; rfl
  rw [hzero, Nat.add_zero] at hle hlen ⊢
  unfold store
  dsimp only
  generalize hpart : g.data.drop ((got ++ c.recv_buf).length - off) = part
  split
  swap
  · exact h
  next hroom =>
  have hnew := hslice.extend h.held hle
  rw [hpart, List.append_assoc] at hnew
  refine ⟨hnew, ?_, fun hfin => ?_, ?_⟩
  · show c.rcv_nxt + UInt32.ofNat part.length
      = p.isn + 1 + UInt32.ofNat ((got ++ (c.recv_buf ++ part)).length + c.finCount)
    have hsum : (got ++ (c.recv_buf ++ part)).length = (got ++ c.recv_buf).length + part.length := by
      rw [← List.append_assoc]; exact List.length_append
    rw [h.nxt, hzero, Nat.add_zero, Nat.add_zero, hsum, UInt32.ofNat_add, UInt32.add_assoc]
  · exact absurd (hnofin.symm.trans hfin) (by decide)
  · have := h.room
    show (c.recv_buf ++ part).length ≤ _
    rw [List.length_append]
    omega

/-- **A FIN is counted only behind the last byte.** -/
theorem Holds.countFin {p : Peer} {got : List UInt8} {c : Conn} (h : Holds p got c)
    {g : Segment} (hg : p.Carries g) (hheld : SynHeld c g) (hf : g.has flagFin = true)
    (hseq : g.seq + g.len = c.rcv_nxt) :
    Holds p got { c with rcv_nxt := g.seq + g.len + 1, peer_fin_seen := true } := by
  obtain ⟨off, hstart, -, hoff, hend⟩ := hg.data (Or.inr hf)
  have hend := hend hf
  have hshort := p.short
  have hle := h.length_le
  -- the number of the FIN is that of the end of the stream
  have hfin : (got ++ c.recv_buf).length + c.finCount = p.stream.length := by
    cases hsyn : g.has flagSyn with
    | true =>
      -- the end of a SYN with old data is behind `rcv_nxt`
      have hdata : g.data = [] := by
        by_contra hne
        have hnew := hheld hsyn hne
        have hsub : c.rcv_nxt - g.seq = g.len := by rw [← hseq]; grind
        rw [hsub, Segment.len, UInt32.toNat_ofNat'] at hnew
        exact absurd hnew (Nat.not_lt.mpr (Nat.mod_le _ _))
      have hzero : g.len = 0 := by rw [Segment.len, hdata]; rfl
      rw [hg.syn hsyn, hzero, h.nxt] at hseq
      have hback : UInt32.ofNat ((got ++ c.recv_buf).length + c.finCount) + 1 = 0 := by grind
      have hnat := congrArg UInt32.toNat hback
      rw [UInt32.toNat_add, UInt32.toNat_ofNat'] at hnat
      have hone : (1 : UInt32).toNat = 1 := rfl
      have hnull : (0 : UInt32).toNat = 0 := rfl
      omega
    | false =>
      have hnum : g.seq = p.isn + 1 + UInt32.ofNat off := by
        rw [← hstart, Segment.start, hsyn]; rfl
      rw [hnum, Segment.len, UInt32.add_assoc, ← UInt32.ofNat_add, hend, h.nxt] at hseq
      exact (position_inj (by omega) hle hseq).symm
  have hheld := h.held.length_le
  have hcount : c.finCount = 0 := by
    unfold Conn.finCount
    split
    · next hseen =>
      have hall := congrArg List.length (h.fin hseen)
      rw [Conn.finCount, if_pos hseen] at hfin
      omega
    · rfl
  have hall : got ++ c.recv_buf = p.stream := h.held.eq_of_length (by omega)
  refine ⟨h.held, ?_, fun _ => hall, h.room⟩
  show g.seq + g.len + 1 = p.isn + 1 + UInt32.ofNat ((got ++ c.recv_buf).length + 1)
  rw [hseq, h.nxt, hcount, Nat.add_zero, UInt32.ofNat_add, UInt32.add_assoc]
  rfl

/-! ## What leaves the receiving half alone -/

theorem txRefused_inbound (e : Env) (c : Conn) : (txRefused e c).inbound = c.inbound := by
  unfold txRefused
  dsimp only
  split_ifs <;> rfl

theorem zeroWindowWait_inbound (e : Env) (s : St) :
    (zeroWindowWait e s).conn.inbound = s.conn.inbound := by
  unfold zeroWindowWait
  dsimp only
  split_ifs <;> rfl

theorem pumpData_inbound (e : Env) (s : St) : (pumpData e s).conn.inbound = s.conn.inbound := by
  unfold pumpData
  split
  · exact zeroWindowWait_inbound e s
  · dsimp only [sendSegment]
    split
    · next s' hs' =>
      obtain ⟨-, rfl⟩ := Prod.mk.inj hs'
      exact txRefused_inbound e _
    · next v s' _ hs' =>
      obtain ⟨-, rfl⟩ := Prod.mk.inj hs'
      rfl

theorem pumpFin_inbound (e : Env) (s : St) : (pumpFin e s).conn.inbound = s.conn.inbound := by
  unfold pumpFin
  dsimp only [sendSegment]
  split
  · next s' hs' =>
    obtain ⟨-, rfl⟩ := Prod.mk.inj hs'
    exact txRefused_inbound e _
  · next v s' _ hs' =>
    obtain ⟨-, rfl⟩ := Prod.mk.inj hs'
    rfl

theorem pumpSend_inbound (e : Env) (s : St) : (pumpSend e s).conn.inbound = s.conn.inbound := by
  unfold pumpSend
  dsimp only
  split_ifs
  all_goals first
    | rfl
    | exact pumpData_inbound e s
    | exact pumpFin_inbound e s

theorem pollRetransmit_inbound (e : Env) (s : St) :
    (pollRetransmit e s).conn.inbound = s.conn.inbound := by
  have hresend : ∀ s, (resend e s).conn.inbound = s.conn.inbound := by
    intro s
    unfold resend
    dsimp only
    split_ifs <;> rfl
  exact (hresend _).trans (pumpSend_inbound e s)

theorem close_inbound (e : Env) (s : St) : (close e s).conn.inbound = s.conn.inbound := by
  unfold close
  split
  · rfl
  · exact pumpSend_inbound e _

theorem sendData_inbound (e : Env) (data : List UInt8) (s : St) :
    (sendData e data s).2.conn.inbound = s.conn.inbound := by
  unfold sendData
  split
  · rfl
  split
  · rfl
  · exact pumpSend_inbound e _

theorem ackInFlight_inbound (g : Segment) (c : Conn) : (ackInFlight g c).inbound = c.inbound := by
  unfold ackInFlight
  split <;> rfl

theorem updatePeerWindow_inbound (g : Segment) (c : Conn) :
    (updatePeerWindow g c).inbound = c.inbound := by
  unfold updatePeerWindow
  split_ifs <;> rfl

theorem handleRst_inbound (e : Env) (g : Segment) (s : St) :
    (handleRst e g s).conn.inbound = s.conn.inbound := by
  rcases handleRst_conn e g s with h | h <;> rw [h]
  rfl

/-! ## Segments -/

/-- The next expected bytes are data that follows what is held. -/
theorem store_eq_storeFresh {g : Segment} {c : Conn} (hne : g.data ≠ []) (hseq : g.seq = c.rcv_nxt) :
    store 0 g c = storeFresh g c := by
  have hpos : 0 < g.data.length := List.length_pos_iff.mpr hne
  have hsub : c.rcv_nxt - g.seq = 0 := by rw [hseq]; exact UInt32.sub_self _
  unfold storeFresh
  dsimp only
  rw [hsub, if_pos ⟨by decide, hpos⟩]
  rfl

/-- What a segment finds: the stream held so far, and of a SYN nothing that is new. -/
structure Finds (p : Peer) (got : List UInt8) (g : Segment) (c : Conn) : Prop where
  holds : Holds p got c
  held : SynHeld c g

theorem Finds.of_inbound {p : Peer} {got : List UInt8} {g : Segment} {c c' : Conn}
    (h : Finds p got g c) (hc : c'.inbound = c.inbound) : Finds p got g c' := by
  refine ⟨h.holds.of_inbound hc, fun hsyn hne => ?_⟩
  rw [(Prod.mk.inj hc).1]
  exact h.held hsyn hne

theorem Finds.storeFresh {p : Peer} {got : List UInt8} {g : Segment} {c : Conn}
    (h : Finds p got g c) (hg : p.Carries g) (hne : g.data ≠ []) :
    Finds p got g (Tcp.storeFresh g c) :=
  ⟨h.holds.storeFresh hg h.held hne, h.held.storeFresh⟩

theorem Finds.tailData {p : Peer} {got : List UInt8} {g : Segment} {s : St}
    (h : Finds p got g s.conn) (hg : p.Carries g) (e : Env) :
    Finds p got g (Tcp.tailData e g s).conn := by
  unfold Tcp.tailData
  split
  · next hc =>
    show Finds p got g (store 0 g s.conn)
    rw [store_eq_storeFresh hc.1 hc.2]
    exact h.storeFresh hg hc.1
  · exact h

theorem Finds.countFin {p : Peer} {got : List UInt8} {g : Segment} {s : St}
    (h : Finds p got g s.conn) (hg : p.Carries g) (e : Env)
    (hc : g.has flagFin = true ∧ g.seq + g.len = s.conn.rcv_nxt) :
    Holds p got (Tcp.countFin e g s).conn :=
  h.holds.countFin hg h.held hc.1 hc.2

theorem Finds.inEstablished {p : Peer} {got : List UInt8} {g : Segment} {s : St}
    (h : Finds p got g s.conn) (hg : p.Carries g) (e : Env) :
    Holds p got (Tcp.inEstablished e g s).conn := by
  have hwindow : ∀ s : St, Finds p got g s.conn → Finds p got g (if g.has flagAck then
      { s with conn := updatePeerWindow g s.conn } else s).conn := by
    intro s hs
    split
    · exact hs.of_inbound (updatePeerWindow_inbound g s.conn)
    · exact hs
  have hdata : ∀ s : St, Finds p got g s.conn → Finds p got g (if g.data ≠ [] then
      sendAck e { s with conn := Tcp.storeFresh g s.conn } else s).conn := by
    intro s hs
    split
    · next hne => exact hs.storeFresh hg hne
    · exact hs
  have hfin : ∀ s : St, Finds p got g s.conn → Holds p got
      (if g.has flagFin ∧ g.seq + g.len = s.conn.rcv_nxt then Tcp.countFin e g s
      else if g.has flagFin ∧ g.seq + g.len + 1 = s.conn.rcv_nxt then sendAck e s
      else s).conn := by
    intro s hs
    split
    · next hc => exact hs.countFin hg e hc
    split
    · exact hs.holds
    · exact hs.holds
  exact (hfin _ (hdata _ (hwindow s h))).of_inbound (pumpSend_inbound e _)

theorem Finds.inFinWait1 {p : Peer} {got : List UInt8} {g : Segment} {s : St}
    (h : Finds p got g s.conn) (hg : p.Carries g) (e : Env) :
    Holds p got (Tcp.inFinWait1 e g s).conn := by
  have hacked : Finds p got g (if g.has flagAck ∧ g.ack = s.conn.snd_nxt then
      { s with conn := { s.conn with
          state := if s.conn.peer_fin_seen then .closed else .finWait2 } } else s : St).conn := by
    split
    · exact h.of_inbound rfl
    · exact h
  have hclose : ∀ s : St, Finds p got g s.conn → Holds p got
      (if g.has flagFin ∧ g.seq + g.len = s.conn.rcv_nxt then
        if (Tcp.countFin e g s).conn.state = .finWait2 then
          { Tcp.countFin e g s with
            conn := { (Tcp.countFin e g s).conn with state := .closed } }
        else Tcp.countFin e g s
      else s).conn := by
    intro s hs
    split
    · next hc =>
      have hcount := hs.countFin hg e hc
      split
      · exact hcount.of_inbound rfl
      · exact hcount
    · exact hs.holds
  exact hclose _ (hacked.tailData hg e)

theorem Finds.inFinWait2 {p : Peer} {got : List UInt8} {g : Segment} {s : St}
    (h : Finds p got g s.conn) (hg : p.Carries g) (e : Env) :
    Holds p got (Tcp.inFinWait2 e g s).conn := by
  have htail := h.tailData hg e
  unfold Tcp.inFinWait2
  dsimp only
  split
  · next hc => exact (htail.countFin hg e hc).of_inbound rfl
  · exact htail.holds

/-- **A segment of the peer extends what is held.** -/
theorem Finds.handleSegment {p : Peer} {got : List UInt8} {g : Segment} {s : St}
    (h : Finds p got g s.conn) (hup : s.conn.state ≠ .synSent) (hg : p.Carries g) (e : Env) :
    Holds p got (Tcp.handleSegment e g s).conn ∧ (Tcp.handleSegment e g s).conn.state ≠ .synSent := by
  by_cases hr : g.has flagRst = true
  · rw [Tcp.handleSegment, if_pos hr]
    refine ⟨h.holds.of_inbound (handleRst_inbound e g s), ?_⟩
    rcases handleRst_conn e g s with hc | hc <;> rw [hc]
    · exact hup
    · exact fun hcl => State.noConfusion hcl
  let s' : St := { s with conn := ackInFlight g s.conn }
  have h' : Finds p got g s'.conn := h.of_inbound (ackInFlight_inbound g s.conn)
  have hstate : s'.conn.state = s.conn.state := ackInFlight_state g s.conn
  rw [handleSegment_of_not_rst (t := s') hr rfl]
  cases hst : s'.conn.state with
  | synSent => exact absurd (hstate.symm.trans hst) hup
  | established => exact ⟨h'.inEstablished hg e, inEstablished_state hst⟩
  | finWait1 => exact ⟨h'.inFinWait1 hg e, inFinWait1_state hst⟩
  | finWait2 => exact ⟨h'.inFinWait2 hg e, inFinWait2_state hst⟩
  | closed => exact ⟨h'.holds, by rw [hst]; decide⟩
  | timeWait => exact ⟨h'.holds, by rw [hst]; decide⟩

/-! ## Runs -/

/-- A connection that is not established yet. -/
inductive Opening : St → Prop where
  | connect (e : Env) (remote_ip : UInt32) (remote_port : UInt16) (s : St) :
    Opening (Tcp.connect e remote_ip remote_port s)
  | sendData {s : St} (e : Env) (data : List UInt8) (h : Opening s) :
    Opening (Tcp.sendData e data s).2
  | close {s : St} (e : Env) (h : Opening s) : Opening (Tcp.close e s)
  | pollRecv {s : St} (e : Env) (maxlen : UInt16) (h : Opening s) :
    Opening (Tcp.pollRecv e maxlen s).2
  | pollRetransmit {s : St} (e : Env) (h : Opening s) : Opening (Tcp.pollRetransmit e s)
  | packet {s : St} (e : Env) (ip : IpPacket) (h : Opening s)
      (hst : (handlePacket e ip s).conn.state ≠ .established) : Opening (handlePacket e ip s)

/-- **A connection after its handshake**: the bytes `tcp_poll_recv` handed out, and the state.
The handshake was with the peer `p`, every segment that comes in is one of its own, and `ok`
says which of those may come in. -/
inductive Inbound (p : Peer) (ok : Conn → Segment → Prop) : List UInt8 → St → Prop where
  | handshake {s : St} (e : Env) (ip : IpPacket) (g : Segment) (h : Opening s)
      (hr : received s.conn ip = some g) (hseq : g.seq = p.isn)
      (hst : (handlePacket e ip s).conn.state = .established) :
    Inbound p ok [] (handlePacket e ip s)
  | pollRecv {got : List UInt8} {s : St} (e : Env) (maxlen : UInt16) (h : Inbound p ok got s) :
    Inbound p ok (got ++ (Tcp.pollRecv e maxlen s).1) (Tcp.pollRecv e maxlen s).2
  | sendData {got : List UInt8} {s : St} (e : Env) (data : List UInt8) (h : Inbound p ok got s) :
    Inbound p ok got (Tcp.sendData e data s).2
  | close {got : List UInt8} {s : St} (e : Env) (h : Inbound p ok got s) :
    Inbound p ok got (Tcp.close e s)
  | pollRetransmit {got : List UInt8} {s : St} (e : Env) (h : Inbound p ok got s) :
    Inbound p ok got (Tcp.pollRetransmit e s)
  | packet {got : List UInt8} {s : St} (e : Env) (ip : IpPacket) (h : Inbound p ok got s)
      (hg : ∀ g, received s.conn ip = some g → p.Carries g ∧ ok s.conn g) :
    Inbound p ok got (handlePacket e ip s)

/-- **The receive stream is exact.** -/
structure ReceiveExact (p : Peer) (got : List UInt8) (s : St) : Prop where
  /-- What was handed out and what is in the buffer are the beginning of the stream. -/
  held : got ++ s.conn.recv_buf <+: p.stream
  /-- Their number is how far `rcv_nxt` has come, the FIN not counted. -/
  count : (s.conn.rcv_nxt - (p.isn + 1) - if s.conn.peer_fin_seen then 1 else 0).toNat
    = got.length + s.conn.recv_buf.length
  room : s.conn.recv_buf.length ≤ recvBufSize
  /-- The FIN is seen behind the last byte only. -/
  fin : s.conn.peer_fin_seen = true → got ++ s.conn.recv_buf = p.stream

theorem pumpSend_up {s : St} (e : Env) (h : s.conn.state ≠ .synSent) :
    (pumpSend e s).conn.state ≠ .synSent := by
  rcases pumpSend_state e s with hp | hp
  · rw [hp]; exact h
  · exact hp

theorem sendData_up {s : St} (e : Env) (data : List UInt8) (h : s.conn.state ≠ .synSent) :
    (sendData e data s).2.conn.state ≠ .synSent := by
  unfold sendData
  split
  · exact h
  split
  · exact h
  · exact pumpSend_up e h

theorem close_up {s : St} (e : Env) (h : s.conn.state ≠ .synSent) :
    (close e s).conn.state ≠ .synSent := by
  unfold close
  split
  · exact h
  · exact pumpSend_up e h

theorem pollRetransmit_up {s : St} (e : Env) (h : s.conn.state ≠ .synSent) :
    (pollRetransmit e s).conn.state ≠ .synSent := by
  have hp := pumpSend_up e h
  rw [pollRetransmit]
  unfold resend
  dsimp only
  split
  · exact hp
  split
  · exact hp
  split
  · exact fun hc => State.noConfusion hc
  · exact hp

/-! ### The handshake -/

/-- Nothing was received yet. -/
structure Quiet (c : Conn) : Prop where
  state : c.state = .synSent ∨ c.state = .closed
  buf : c.recv_buf = []
  fin : c.peer_fin_seen = false

theorem Quiet.not_established {c : Conn} (h : Quiet c) : c.state ≠ .established := by
  rcases h.state with hs | hs <;> rw [hs] <;> decide

/-- A connection that is not established sends nothing from its queue. -/
theorem pumpSend_of_state {s : St} (e : Env) (h : s.conn.state ≠ .established) :
    pumpSend e s = s := by
  unfold pumpSend
  dsimp only
  rw [if_pos h]

theorem Quiet.resend {s : St} (h : Quiet s.conn) (e : Env) : Quiet (Tcp.resend e s).conn := by
  unfold Tcp.resend
  dsimp only
  split
  · exact h
  split
  · exact h
  split
  · exact ⟨Or.inr rfl, h.buf, h.fin⟩
  · exact ⟨h.state, h.buf, h.fin⟩

/-- In `TCP_SYN_SENT` a segment completes the handshake, or nothing is received. -/
theorem Quiet.handleSegment {s : St} (h : Quiet s.conn) (e : Env) (g : Segment) :
    Quiet (Tcp.handleSegment e g s).conn ∨
      (Tcp.handleSegment e g s).conn.inbound = (g.seq + 1, [], false)
        ∧ (Tcp.handleSegment e g s).conn.state = .established := by
  by_cases hr : g.has flagRst = true
  · rw [Tcp.handleSegment, if_pos hr]
    refine Or.inl ?_
    rcases handleRst_conn e g s with hc | hc <;> rw [hc]
    · exact h
    · exact ⟨Or.inr rfl, h.buf, h.fin⟩
  let s' : St := { s with conn := ackInFlight g s.conn }
  have hstate : s'.conn.state = s.conn.state := ackInFlight_state g s.conn
  obtain ⟨-, hrest⟩ := Prod.mk.inj (ackInFlight_inbound g s.conn)
  obtain ⟨hbuf, hfin⟩ := Prod.mk.inj hrest
  have h' : Quiet s'.conn := ⟨by rw [hstate]; exact h.state, hbuf.trans h.buf, hfin.trans h.fin⟩
  rw [handleSegment_of_not_rst (t := s') hr rfl]
  rcases h'.state with hs | hs <;> rw [hs]
  · dsimp only
    unfold inSynSent
    dsimp only
    split
    · refine Or.inr ⟨?_, rfl⟩
      show (g.seq + 1, s'.conn.recv_buf, s'.conn.peer_fin_seen) = _
      rw [h'.buf, h'.fin]
    · exact Or.inl h'
  · exact Or.inl h'

theorem Opening.quiet {s : St} (h : Opening s) : Quiet s.conn := by
  induction h with
  | connect e remote_ip remote_port s =>
    unfold Tcp.connect
    dsimp only [sendSegment]
    split
    · next s' hs' =>
      obtain ⟨-, rfl⟩ := Prod.mk.inj hs'
      exact ⟨Or.inr rfl, rfl, rfl⟩
    · next v s' _ hs' =>
      obtain ⟨-, rfl⟩ := Prod.mk.inj hs'
      exact ⟨Or.inl rfl, rfl, rfl⟩
  | sendData e data _ ih =>
    unfold Tcp.sendData
    rw [if_pos (Or.inl ih.not_established)]
    exact ih
  | close e _ ih =>
    unfold Tcp.close
    rw [if_pos ih.not_established]
    exact ih
  | @pollRecv s e maxlen _ ih =>
    obtain ⟨n, -, hc⟩ := pollRecv_conn e maxlen s
    rw [hc]
    exact ⟨ih.state, by rw [ih.buf, List.drop_nil], ih.fin⟩
  | pollRetransmit e _ ih =>
    rw [Tcp.pollRetransmit, pumpSend_of_state e ih.not_established]
    exact ih.resend e
  | @packet s e ip _ hst ih =>
    unfold handlePacket at hst ⊢
    cases hr : received s.conn ip with
    | none => exact ih
    | some g =>
      rw [hr] at hst
      exact (ih.handleSegment e g).resolve_right fun hc => hst hc.2

/-- **After the handshake nothing is received, and the next byte is the first of the peer.** -/
theorem Opening.handshake {s : St} (h : Opening s) {p : Peer} {e : Env} {ip : IpPacket}
    {g : Segment} (hr : received s.conn ip = some g) (hseq : g.seq = p.isn)
    (hst : (handlePacket e ip s).conn.state = .established) :
    Holds p [] (handlePacket e ip s).conn := by
  unfold handlePacket at hst ⊢
  rw [hr] at hst ⊢
  dsimp only at hst ⊢
  obtain ⟨hin, -⟩ := (h.quiet.handleSegment e g).resolve_left fun hq => hq.not_established hst
  obtain ⟨hnxt, hrest⟩ := Prod.mk.inj hin
  obtain ⟨hbuf, hfin⟩ := Prod.mk.inj hrest
  refine ⟨?_, ?_, fun hf => absurd (hfin.symm.trans hf) (by decide), ?_⟩
  · rw [hbuf]; exact List.nil_prefix
  · rw [hnxt, hbuf, Conn.finCount, hfin, hseq]
    exact (UInt32.add_zero _).symm
  · rw [hbuf]; exact Nat.zero_le _

/-! ### The run -/

theorem Holds.pollRecv {p : Peer} {got : List UInt8} {s : St} (h : Holds p got s.conn) (e : Env)
    (maxlen : UInt16) :
    Holds p (got ++ (Tcp.pollRecv e maxlen s).1) (Tcp.pollRecv e maxlen s).2.conn := by
  obtain ⟨n, hout, hc⟩ := pollRecv_conn e maxlen s
  have hjoin : (got ++ s.conn.recv_buf.take n) ++ s.conn.recv_buf.drop n
      = got ++ s.conn.recv_buf := by
    rw [List.append_assoc, List.take_append_drop]
  rw [hout, hc]
  refine ⟨hjoin ▸ h.held, ?_, fun hf => hjoin.trans (h.fin hf), ?_⟩
  · exact hjoin ▸ h.nxt
  · exact Nat.le_trans (by simp) h.room

/-- **Every step of a run keeps what is held.** -/
theorem Inbound.holds {p : Peer} {got : List UInt8} {s : St} (h : Inbound p SynHeld got s) :
    Holds p got s.conn ∧ s.conn.state ≠ .synSent := by
  induction h with
  | handshake e ip g h hr hseq hst =>
    exact ⟨h.handshake hr hseq hst, by rw [hst]; decide⟩
  | @pollRecv got s e maxlen _ ih =>
    obtain ⟨n, -, hc⟩ := pollRecv_conn e maxlen s
    exact ⟨ih.1.pollRecv e maxlen, by rw [hc]; exact ih.2⟩
  | sendData e data _ ih =>
    exact ⟨ih.1.of_inbound (sendData_inbound e data _), sendData_up e data ih.2⟩
  | close e _ ih => exact ⟨ih.1.of_inbound (close_inbound e _), close_up e ih.2⟩
  | pollRetransmit e _ ih =>
    exact ⟨ih.1.of_inbound (pollRetransmit_inbound e _), pollRetransmit_up e ih.2⟩
  | @packet got s e ip _ hg ih =>
    unfold handlePacket
    cases hr : received s.conn ip with
    | none => exact ih
    | some g =>
      obtain ⟨hcarries, hheld⟩ := hg g hr
      exact Finds.handleSegment ⟨ih.1, hheld⟩ ih.2 hcarries e

/-- **What is received is the stream of the peer**, in every run in which a SYN brings no data
that is new. -/
theorem receive_stream_exact {p : Peer} {got : List UInt8} {s : St}
    (h : Inbound p SynHeld got s) : ReceiveExact p got s := by
  have hh := h.holds.1
  refine ⟨hh.held, ?_, hh.room, hh.fin⟩
  have hcount : s.conn.rcv_nxt - (p.isn + 1) - (if s.conn.peer_fin_seen then 1 else 0)
      = UInt32.ofNat (got ++ s.conn.recv_buf).length := by
    rw [hh.nxt, UInt32.ofNat_add, Conn.finCount]
    split <;> grind
  have hle := hh.length_le
  rw [hcount, UInt32.toNat_ofNat', ← List.length_append]
  omega

/-- The peer of `firstPeer`, with two bytes to send. -/
def firstStream : Peer := ⟨5000, [65, 66], by decide⟩

/-- Its SYN-ACK, with the data it may carry. -/
def firstSynSegment (data : List UInt8) : Segment :=
  { seq := 5000, ack := 0xC0001001, flags := flagSyn ||| flagAck, window := 20480,
    opts := [2, 4, 5, 120], data := data }

theorem received_firstSynAck (data : List UInt8) (h : data = [] ∨ data = [65, 66]) :
    received firstOpen.conn (peerPacket firstPeer (flagSyn ||| flagAck) data)
      = some (firstSynSegment data) := by
  rcases h with rfl | rfl <;> decide +kernel

/-- The two bytes come in one segment behind the handshake, and one of them is read. -/
theorem receive_stream_exact_two_bytes :
    (pollRecv calm 1 (handlePacket calm (peerPacket { firstPeer with snd_nxt := 5001 }
      (flagAck ||| flagPsh) [65, 66]) firstUp)).1 = [65]
    ∧ ReceiveExact firstStream [65] (pollRecv calm 1 (handlePacket calm
        (peerPacket { firstPeer with snd_nxt := 5001 } (flagAck ||| flagPsh) [65, 66]) firstUp)).2 := by
  have hone : (pollRecv calm 1 (handlePacket calm (peerPacket { firstPeer with snd_nxt := 5001 }
      (flagAck ||| flagPsh) [65, 66]) firstUp)).1 = [65] := by decide +kernel
  have hup : Inbound firstStream SynHeld [] firstUp :=
    .handshake calm firstSynAck (firstSynSegment []) (.connect calm 0x0A000202 80 {})
      (received_firstSynAck [] (Or.inl rfl)) rfl (by decide +kernel)
  have hg : ∀ g, received firstUp.conn
      (peerPacket { firstPeer with snd_nxt := 5001 } (flagAck ||| flagPsh) [65, 66]) = some g →
      firstStream.Carries g ∧ SynHeld firstUp.conn g := by
    intro g hr
    have hval : received firstUp.conn
        (peerPacket { firstPeer with snd_nxt := 5001 } (flagAck ||| flagPsh) [65, 66])
      = some { seq := 5001, ack := 0xC0001001, flags := flagAck ||| flagPsh, window := 20480,
               opts := [], data := [65, 66] } := by decide +kernel
    obtain rfl := Option.some.inj (hr.symm.trans hval)
    exact ⟨⟨fun hs => absurd hs (by decide), fun _ =>
        ⟨0, by decide, List.prefix_refl _, by decide, by decide⟩⟩,
      fun hs => absurd hs (by decide)⟩
  have hrun := receive_stream_exact ((hup.packet calm _ hg).pollRecv calm 1)
  rw [hone] at hrun
  exact ⟨hone, hrun⟩

/-- A SYN-ACK that carries both bytes comes in twice. The handshake takes no data, and the
second time the second byte is stored as if it were the first. -/
theorem receive_stream_shifted :
    ¬ ∀ (p : Peer) (got : List UInt8) (s : St),
      Inbound p (fun _ _ => True) got s → ReceiveExact p got s := by
  intro h
  let ip : IpPacket := peerPacket firstPeer (flagSyn ||| flagAck) [65, 66]
  have hcarries : firstStream.Carries (firstSynSegment [65, 66]) :=
    ⟨fun _ => rfl, fun _ => ⟨0, by decide, List.prefix_refl _, by decide, by decide⟩⟩
  have hup : Inbound firstStream (fun _ _ => True) [] (handlePacket calm ip firstOpen) :=
    .handshake calm ip (firstSynSegment [65, 66]) (.connect calm 0x0A000202 80 {})
      (received_firstSynAck [65, 66] (Or.inr rfl)) rfl (by decide +kernel)
  have hrun := h _ _ _ <| hup.packet calm ip fun g hr => by
    have hval : received (handlePacket calm ip firstOpen).conn ip
        = some (firstSynSegment [65, 66]) := by decide +kernel
    obtain rfl := Option.some.inj (hr.symm.trans hval)
    exact ⟨hcarries, trivial⟩
  have hbuf : (handlePacket calm ip (handlePacket calm ip firstOpen)).conn.recv_buf = [66] := by
    decide +kernel
  have hheld := hrun.held
  rw [hbuf] at hheld
  exact absurd hheld (by decide)

end Tcp
