import MiniWin.Net.Wire

/-!
# TCP

The one connection of `kernel/tcp.h`. `Conn` is `tcp_conn` with its two buffers: the bytes
of `TCP_SEND_BUF` up to `send_len` and those of `TCP_RECV_BUF` up to `recv_len` are lists.

What the functions ask of the rest of the kernel is in `Env`: the loop counter `net_ticks`,
the seconds of the day, our address, and what `ip_send` answers. `St.out` is every segment
given to `ip_send`, the last one first, each with the connection as it was at that moment.
-/

namespace Tcp

open Net

/-! ## Constants -/

def flagFin : UInt8 := 0x01
def flagSyn : UInt8 := 0x02
def flagRst : UInt8 := 0x04
def flagPsh : UInt8 := 0x08
def flagAck : UInt8 := 0x10

def hdrLenMin : Nat := 20
def synHdrLen : Nat := 24
def recvMss : Nat := 1400
def sendMss : Nat := 1200
def mssDefault : UInt16 := 536
/-- `MW_TCP_RECV_SIZE`. -/
def recvBufSize : Nat := 32768
/-- `MW_TCP_SEND_SIZE`. -/
def sendBufSize : Nat := 20480
def advWindowMax : Nat := 20480

def maxRetries : Nat := 5
def txFailBackoffTicks : UInt32 := 100
def txFailGiveupSecs : UInt32 := 8
def zeroWindowProbeSecs : UInt32 := 2
def zeroWindowGiveupSecs : UInt32 := 30
def txFailMinCount : Nat := 3
def txFailBackstop : Nat := 4000
def retransmitTicks : UInt32 := 800

/-! ## The connection -/

inductive State where
  | closed | synSent | established | finWait1 | finWait2 | timeWait
  deriving DecidableEq, Repr

structure Conn where
  state : State := .closed
  remote_ip : UInt32 := 0
  remote_port : UInt16 := 0
  local_port : UInt16 := 0
  snd_una : UInt32 := 0
  snd_nxt : UInt32 := 0
  rcv_nxt : UInt32 := 0
  peer_mss : UInt16 := 0
  /-- `TCP_SEND_BUF[0 .. send_len)`. -/
  send_buf : List UInt8 := []
  fin_pending : Bool := false
  retx_len : Nat := 0
  retx_flags : UInt8 := 0
  retx_pending : Bool := false
  retx_tick_sent : UInt32 := 0
  retx_count : Nat := 0
  tx_fail_count : Nat := 0
  tx_next_tick : UInt32 := 0
  tx_first_fail_wall : UInt32 := 0
  peer_wnd : UInt32 := 0
  wl1 : UInt32 := 0
  wl2 : UInt32 := 0
  wl_valid : Bool := false
  zero_wnd_active : Bool := false
  zero_wnd_first_wall : UInt32 := 0
  zero_wnd_probe_wall : UInt32 := 0
  /-- `TCP_RECV_BUF[0 .. recv_len)`. -/
  recv_buf : List UInt8 := []
  peer_fin_seen : Bool := false
  deriving DecidableEq

/-- A segment given to `ip_send`, with the connection it was built from. -/
structure Sent where
  conn : Conn
  flags : UInt8
  data : List UInt8
  verdict : Verdict
  deriving DecidableEq

/-- What one call finds around it. `answer k` is the verdict on the `k`-th segment. -/
structure Env where
  net_ticks : UInt32
  wall : UInt32
  my_ip : UInt32
  answer : Nat → Verdict

/-- `net_wall_elapsed`. -/
def Env.elapsed (e : Env) (since : UInt32) : UInt32 := (e.wall + 86400 - since) % 86400

structure St where
  conn : Conn := {}
  next_port : UInt16 := 49152
  out : List Sent := []

/-! ## Segments out -/

def recvWindow (c : Conn) : UInt16 :=
  let room := recvBufSize - c.recv_buf.length
  if room > advWindowMax then UInt16.ofNat advWindowMax else UInt16.ofNat room

def sendSpace (c : Conn) : Nat := sendBufSize - c.send_buf.length

/-- The pseudo-header both checksums start with. -/
def pseudo (src dst : UInt32) (len : Nat) : List UInt8 :=
  put32be src ++ put32be dst ++ [0, 6] ++ put16be (UInt16.ofNat len)

/-- The header `tcp_send_segment` builds, with `csum` in the checksum field. -/
def Sent.header (x : Sent) (csum : UInt16) : List UInt8 :=
  let syn := x.flags &&& flagSyn ≠ 0
  put16be x.conn.local_port ++ put16be x.conn.remote_port
    ++ put32be x.conn.snd_nxt
    ++ put32be (if x.flags &&& flagAck ≠ 0 then x.conn.rcv_nxt else 0)
    ++ [UInt8.ofNat ((if syn then synHdrLen else hdrLenMin) / 4) <<< 4, x.flags]
    ++ put16be (recvWindow x.conn) ++ put16be csum ++ put16be 0
    ++ if syn then [2, 4] ++ put16be (UInt16.ofNat recvMss) else []

/-- The bytes `tcp_send_segment` gives to `ip_send`. -/
def Sent.bytes (my_ip : UInt32) (x : Sent) : List UInt8 :=
  let bare := x.header 0 ++ x.data
  let sum := checksumAdd (checksumAdd 0 (pseudo my_ip x.conn.remote_ip bare.length)) bare
  x.header (checksumFinish sum) ++ x.data

/-- The sequence number in its header. -/
def Sent.seq (x : Sent) : UInt32 := x.conn.snd_nxt

def sendSegment (e : Env) (flags : UInt8) (data : List UInt8) (s : St) : Verdict × St :=
  let v := e.answer s.out.length
  let x : Sent := { conn := s.conn, flags := flags, data := data.take sendMss, verdict := v }
  (v, { s with out := x :: s.out })

/-- `tcp_send_segment(TCP_FLAG_ACK, 0, 0)` where its result is not looked at. -/
def sendAck (e : Env) (s : St) : St := (sendSegment e flagAck [] s).2

def armRetransmit (e : Env) (flags : UInt8) (data_len : Nat) (c : Conn) : Conn :=
  { c with retx_flags := flags, retx_len := data_len, retx_pending := true,
           retx_tick_sent := e.net_ticks, retx_count := 0 }

def clearRetransmit (c : Conn) : Conn :=
  { c with retx_pending := false, retx_len := 0, retx_count := 0 }

/-- The connection given up: `TCP_CLOSED` with nothing to send again. -/
def giveUp (c : Conn) : Conn := clearRetransmit { c with state := .closed }

/-! ## Opening -/

/-- What `tcp_connect` writes before it sends the SYN. -/
def fresh (e : Env) (remote_ip : UInt32) (remote_port : UInt16) (s : St) : Conn :=
  let isn : UInt32 := (0x1000 : UInt32) + (e.net_ticks <<< 8) + (s.next_port.toUInt32 <<< 16)
  clearRetransmit
    { s.conn with
      state := .synSent, remote_ip := remote_ip, remote_port := remote_port,
      local_port := s.next_port, snd_una := isn, snd_nxt := isn, rcv_nxt := 0,
      recv_buf := [], send_buf := [], fin_pending := false, peer_mss := mssDefault,
      peer_fin_seen := false, tx_fail_count := 0, tx_next_tick := 0, peer_wnd := 0,
      wl_valid := false, zero_wnd_active := false }

def connect (e : Env) (remote_ip : UInt32) (remote_port : UInt16) (s : St) : St :=
  let port := s.next_port + 1
  let s := { s with conn := fresh e remote_ip remote_port s,
                    next_port := if port > 60000 then 49152 else port }
  match sendSegment e flagSyn [] s with
  | (.failed, s) => { s with conn := { s.conn with state := .closed } }
  | (_, s) =>
    let c := armRetransmit e flagSyn 0 s.conn
    { s with conn := { c with snd_nxt := c.snd_nxt + 1 } }

/-! ## The send queue -/

/-- `tcp_tx_refused`. -/
def txRefused (e : Env) (c : Conn) : Conn :=
  let first := if c.tx_fail_count = 0 then e.wall else c.tx_first_fail_wall
  let c := { c with tx_first_fail_wall := first, tx_fail_count := c.tx_fail_count + 1,
                    tx_next_tick := e.net_ticks + txFailBackoffTicks }
  if (c.tx_fail_count ≥ txFailMinCount ∧ e.elapsed c.tx_first_fail_wall ≥ txFailGiveupSecs)
      ∨ c.tx_fail_count ≥ txFailBackstop then giveUp c
  else c

/-- `tcp_zero_window_wait`: the probe is a bare ACK with the previous sequence number. -/
def zeroWindowWait (e : Env) (s : St) : St :=
  let c := s.conn
  if ¬ c.zero_wnd_active then
    { s with conn := { c with zero_wnd_active := true, zero_wnd_first_wall := e.wall,
                              zero_wnd_probe_wall := e.wall } }
  else if e.elapsed c.zero_wnd_first_wall ≥ zeroWindowGiveupSecs then
    { s with conn := giveUp c }
  else if e.elapsed c.zero_wnd_probe_wall ≥ zeroWindowProbeSecs then
    let c := { c with zero_wnd_probe_wall := e.wall, snd_nxt := c.snd_nxt - 1 }
    let s := sendAck e { s with conn := c }
    { s with conn := { s.conn with snd_nxt := s.conn.snd_nxt + 1 } }
  else s

/-- How many bytes of the queue the next segment takes. -/
def segLen (c : Conn) : Nat :=
  let cap := if c.peer_mss.toNat < sendMss then c.peer_mss.toNat else sendMss
  let cap := if cap > c.peer_wnd.toNat then c.peer_wnd.toNat else cap
  if c.send_buf.length > cap then cap else c.send_buf.length

/-- The first branch of `tcp_pump_send`: a data segment from the front of the queue. -/
def pumpData (e : Env) (s : St) : St :=
  if s.conn.peer_wnd = 0 then zeroWindowWait e s
  else
    let s := { s with conn := { s.conn with zero_wnd_active := false } }
    let n := segLen s.conn
    match sendSegment e (flagAck ||| flagPsh) (s.conn.send_buf.take n) s with
    | (.failed, s) => { s with conn := txRefused e s.conn }
    | (_, s) =>
      let c := armRetransmit e (flagAck ||| flagPsh) n { s.conn with tx_fail_count := 0 }
      { s with conn := { c with snd_nxt := c.snd_nxt + UInt32.ofNat n } }

/-- The second branch: the FIN that `tcp_close` asked for. -/
def pumpFin (e : Env) (s : St) : St :=
  match sendSegment e (flagFin ||| flagAck) [] s with
  | (.failed, s) => { s with conn := txRefused e s.conn }
  | (_, s) =>
    let c := armRetransmit e (flagFin ||| flagAck) 0
      { s.conn with tx_fail_count := 0, fin_pending := false }
    { s with conn := { c with snd_nxt := c.snd_nxt + 1, state := .finWait1 } }

def pumpSend (e : Env) (s : St) : St :=
  let c := s.conn
  if c.state ≠ .established then s
  else if c.retx_pending then s
  else if c.send_buf = [] ∧ ¬ c.fin_pending then s
  else if c.tx_fail_count > 0 ∧ e.net_ticks < c.tx_next_tick then s
  else if c.send_buf ≠ [] then pumpData e s
  else pumpFin e s

/-- `tcp_send_data`: `true` when all of `data` was queued. `len` is a `u16`. -/
def sendData (e : Env) (data : List UInt8) (s : St) : Bool × St :=
  if s.conn.state ≠ .established ∨ s.conn.fin_pending then (false, s)
  else if data.length > sendSpace s.conn then (false, s)
  else
    let s := { s with conn := { s.conn with send_buf := s.conn.send_buf ++ data } }
    (true, pumpSend e s)

def close (e : Env) (s : St) : St :=
  if s.conn.state ≠ .established then s
  else pumpSend e { s with conn := { s.conn with fin_pending := true } }

/-- `tcp_poll_recv`: the bytes copied out. -/
def pollRecv (e : Env) (maxlen : UInt16) (s : St) : List UInt8 × St :=
  let c := s.conn
  let n := if c.recv_buf.length < maxlen.toNat then c.recv_buf.length else maxlen.toNat
  let was_full_ish := recvBufSize - c.recv_buf.length < recvMss
  let s := { s with conn := { c with recv_buf := c.recv_buf.drop n } }
  (c.recv_buf.take n,
    if n > 0 ∧ was_full_ish ∧ c.state = .established then sendAck e s else s)

/-! ## Segments in -/

/-- The fields `tcp_handle_packet` reads out of a segment. -/
structure Segment where
  seq : UInt32
  ack : UInt32
  flags : UInt8
  window : UInt16
  /-- The option bytes, from the end of the plain header to the data. -/
  opts : List UInt8
  data : List UInt8
  deriving DecidableEq

def Segment.has (g : Segment) (flag : UInt8) : Bool := g.flags &&& flag ≠ 0

/-- `data_len`, as it enters the sequence arithmetic. -/
def Segment.len (g : Segment) : UInt32 := UInt32.ofNat g.data.length

def checksumOk (ip : IpPacket) : Bool :=
  checksumFinish (checksumAdd (checksumAdd 0 (pseudo ip.src_ip ip.dst_ip ip.payload.length))
    ip.payload) = 0

/-- The segment in `ip`, if the checks at the top of `tcp_handle_packet` let it through. -/
def received (c : Conn) (ip : IpPacket) : Option Segment :=
  let seg := ip.payload
  let hdr_len := ((seg.getD 12 0) >>> 4).toNat * 4
  if seg.length < hdrLenMin then none
  else if c.state = .closed then none
  else if ip.src_ip ≠ c.remote_ip ∨ get16be seg 0 ≠ c.remote_port
      ∨ get16be seg 2 ≠ c.local_port then none
  else if ¬ checksumOk ip then none
  else if hdr_len < hdrLenMin ∨ hdr_len > seg.length then none
  else some
    { seq := get32be seg 4, ack := get32be seg 8, flags := seg.getD 13 0,
      window := get16be seg 14, opts := (seg.take hdr_len).drop hdrLenMin,
      data := seg.drop hdr_len }

/-- `tcp_parse_syn_options`: the value of `peer_mss` after the options. Every round of the
loop takes at least one byte, so their number is fuel enough. -/
def synOptions : Nat → List UInt8 → UInt16 → UInt16
  | fuel + 1, kind :: opts, mss =>
    if kind = 0 then mss
    else if kind = 1 then synOptions fuel opts mss
    else match opts with
      | [] => mss
      | olen :: _ =>
        if olen < 2 ∨ olen.toNat > (kind :: opts).length then mss
        else
          let v := get16be (kind :: opts) 2
          synOptions fuel ((kind :: opts).drop olen.toNat)
            (if kind = 2 ∧ olen = 4 ∧ v ≥ 64 then v else mss)
  | _, _, mss => mss

/-- A RST: believed in `TCP_SYN_SENT` when it acknowledges the SYN, else when its sequence
number is the next one; one inside the window gets a challenge ACK. -/
def handleRst (e : Env) (g : Segment) (s : St) : St :=
  let c := s.conn
  if c.state = .synSent then
    if ¬ g.has flagAck ∨ g.ack ≠ c.snd_nxt then s else { s with conn := giveUp c }
  else if g.seq ≠ c.rcv_nxt then
    let wnd := if recvWindow c = 0 then 1 else (recvWindow c).toUInt32
    if g.seq - c.rcv_nxt < wnd then sendAck e s else s
  else { s with conn := giveUp c }

/-- The ACK test all states share: an ACK of everything sent empties the retransmit slot, and
the acknowledged bytes leave the queue. -/
def ackInFlight (g : Segment) (c : Conn) : Conn :=
  if g.has flagAck ∧ g.ack = c.snd_nxt ∧ c.retx_pending then
    let acked := c.retx_len
    let c := clearRetransmit { c with snd_una := g.ack }
    { c with send_buf := c.send_buf.drop acked }
  else c

/-- `tcp_update_peer_window`. -/
def updatePeerWindow (g : Segment) (c : Conn) : Conn :=
  if g.ack - c.snd_una > c.snd_nxt - c.snd_una then c
  else if ¬ c.wl_valid ∨ (0 < g.seq - c.wl1 ∧ g.seq - c.wl1 < 0x80000000)
      ∨ (g.seq = c.wl1 ∧ g.ack - c.wl2 < 0x80000000) then
    { c with peer_wnd := g.window.toUInt32, wl1 := g.seq, wl2 := g.ack, wl_valid := true }
  else c

/-- `case TCP_SYN_SENT`. -/
def inSynSent (e : Env) (g : Segment) (s : St) : St :=
  let c := s.conn
  if g.has flagSyn ∧ g.has flagAck ∧ g.ack = c.snd_nxt then
    sendAck e { s with conn :=
      { c with rcv_nxt := g.seq + 1, peer_mss := synOptions g.opts.length g.opts c.peer_mss,
               peer_wnd := g.window.toUInt32, wl1 := g.seq, wl2 := g.ack, wl_valid := true,
               state := .established } }
  else s

/-- The bytes of a segment behind the first `already`, if the buffer has room for them all. -/
def store (already : Nat) (g : Segment) (c : Conn) : Conn :=
  let part := g.data.drop already
  if part.length ≤ recvBufSize - c.recv_buf.length then
    { c with recv_buf := c.recv_buf ++ part, rcv_nxt := c.rcv_nxt + UInt32.ofNat part.length }
  else c

/-- Data in `TCP_ESTABLISHED`: what overlaps bytes we hold is cut off. `already` is an `i32`
in the source, so it is negative from `0x80000000` on. -/
def storeFresh (g : Segment) (c : Conn) : Conn :=
  let already := c.rcv_nxt - g.seq
  if already < 0x80000000 ∧ already.toNat < g.data.length then store already.toNat g c else c

/-- Data in `TCP_FIN_WAIT_1` and `TCP_FIN_WAIT_2`: only the next expected bytes. -/
def tailData (e : Env) (g : Segment) (s : St) : St :=
  if g.data ≠ [] ∧ g.seq = s.conn.rcv_nxt then
    sendAck e { s with conn := store 0 g s.conn }
  else s

/-- The FIN of the peer, counted. -/
def countFin (e : Env) (g : Segment) (s : St) : St :=
  sendAck e { s with conn := { s.conn with rcv_nxt := g.seq + g.len + 1, peer_fin_seen := true } }

/-- `case TCP_ESTABLISHED`. -/
def inEstablished (e : Env) (g : Segment) (s : St) : St :=
  let s := if g.has flagAck then { s with conn := updatePeerWindow g s.conn } else s
  let s := if g.data ≠ [] then sendAck e { s with conn := storeFresh g s.conn } else s
  let s :=
    if g.has flagFin ∧ g.seq + g.len = s.conn.rcv_nxt then countFin e g s
    else if g.has flagFin ∧ g.seq + g.len + 1 = s.conn.rcv_nxt then sendAck e s
    else s
  pumpSend e s

/-- `case TCP_FIN_WAIT_1`. -/
def inFinWait1 (e : Env) (g : Segment) (s : St) : St :=
  let s :=
    if g.has flagAck ∧ g.ack = s.conn.snd_nxt then
      { s with conn := { s.conn with
          state := if s.conn.peer_fin_seen then .closed else .finWait2 } }
    else s
  let s := tailData e g s
  if g.has flagFin ∧ g.seq + g.len = s.conn.rcv_nxt then
    let s := countFin e g s
    if s.conn.state = .finWait2 then { s with conn := { s.conn with state := .closed } } else s
  else s

/-- `case TCP_FIN_WAIT_2`. -/
def inFinWait2 (e : Env) (g : Segment) (s : St) : St :=
  let s := tailData e g s
  if g.has flagFin ∧ g.seq + g.len = s.conn.rcv_nxt then
    let s := countFin e g s
    { s with conn := { s.conn with state := .closed } }
  else s

/-- What `tcp_handle_packet` does with a segment that passed its checks. -/
def handleSegment (e : Env) (g : Segment) (s : St) : St :=
  if g.has flagRst then handleRst e g s
  else
    let s := { s with conn := ackInFlight g s.conn }
    match s.conn.state with
    | .synSent => inSynSent e g s
    | .established => inEstablished e g s
    | .finWait1 => inFinWait1 e g s
    | .finWait2 => inFinWait2 e g s
    | .closed | .timeWait => s

theorem handleSegment_of_not_rst {e : Env} {g : Segment} {s t : St} (h : ¬ g.has flagRst = true)
    (ht : t = { s with conn := ackInFlight g s.conn }) : handleSegment e g s =
      match t.conn.state with
      | .synSent => inSynSent e g t
      | .established => inEstablished e g t
      | .finWait1 => inFinWait1 e g t
      | .finWait2 => inFinWait2 e g t
      | .closed | .timeWait => t := by
  rw [ht, handleSegment, if_neg h]

def handlePacket (e : Env) (ip : IpPacket) (s : St) : St :=
  match received s.conn ip with
  | none => s
  | some g => handleSegment e g s

/-! ## The timer -/

/-- The half of `tcp_poll_retransmit` behind the nudge to the queue: an overdue segment goes
out again, with the number and the bytes it had. -/
def resend (e : Env) (s : St) : St :=
  let c := s.conn
  if ¬ c.retx_pending then s
  else if e.net_ticks - c.retx_tick_sent < retransmitTicks then s
  else if c.retx_count ≥ maxRetries then { s with conn := giveUp c }
  else
    let s := { s with conn := { c with snd_nxt := c.snd_una } }
    let s := (sendSegment e c.retx_flags (c.send_buf.take c.retx_len) s).2
    { s with conn := { s.conn with snd_nxt := c.snd_nxt, retx_tick_sent := e.net_ticks,
                                   retx_count := s.conn.retx_count + 1 } }

def pollRetransmit (e : Env) (s : St) : St := resend e (pumpSend e s)

end Tcp
