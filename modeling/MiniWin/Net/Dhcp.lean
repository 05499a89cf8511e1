import MiniWin.Net.Wire

/-!
# DHCP

The client of `kernel/dhcp.h`: the conversation that gets a lease, and the lease clock that
renews it, rebinds it and gives it up. The globals of the source are one state, with
`net_cfg` in it; what `udp_send` was given is a log. The RTC may say anything at any reading.
-/

namespace Dhcp

open Net

/-- `dhcp_state_t`. -/
inductive State where
  | idle | discoverSent | requestSent | bound | renewing | rebinding
  deriving DecidableEq, Repr

/-- `net_config_t`. -/
structure Cfg where
  my_ip : UInt32 := 0
  netmask : UInt32 := 0
  gateway_ip : UInt32 := 0
  dns_ip : UInt32 := 0
  ready : Bool := false
  deriving DecidableEq

/-- What the client reads of the machine in one call. -/
structure Env where
  net_ticks : UInt32
  /-- `net_wall_seconds()`, at each reading of the call. -/
  wall : Nat → UInt32
  /-- The time-stamp counter. -/
  tsc_lo : UInt32
  tsc_hi : UInt32

/-- `nic.mac`. -/
abbrev Mac := Fin 6 → UInt8

/-- A datagram given to `udp_send`, from port 68 to port 67. -/
structure Sent where
  src : UInt32
  dst : UInt32
  data : List UInt8
  deriving DecidableEq

/-- The globals of `dhcp.h`, and what was sent so far, the last first. -/
structure St where
  state : State := .idle
  offered_ip : UInt32 := 0
  server_id : UInt32 := 0
  last_sent_wall : UInt32 := 0
  last_sent_tick : UInt32 := 0
  tries : Nat := 0
  started : Bool := false
  xid : UInt32 := 0x1234ABCD
  lease_secs : UInt32 := 0
  lease_age : UInt32 := 0
  lease_mark : UInt32 := 0
  lease_tick_mark : UInt32 := 0
  ciaddr : UInt32 := 0
  cfg : Cfg := {}
  out : List Sent := []

def serverPort : UInt16 := 67
def msgDiscover : UInt8 := 1
def msgOffer : UInt8 := 2
def msgRequest : UInt8 := 3
def msgAck : UInt8 := 5
def msgNak : UInt8 := 6
def magicCookie : UInt32 := 0x63825363
def optSubnetMask : UInt8 := 1
def optRouter : UInt8 := 3
def optDns : UInt8 := 6
def optRequestedIp : UInt8 := 50
def optLeaseTime : UInt8 := 51
def optMsgType : UInt8 := 53
def optServerId : UInt8 := 54
def optParamReq : UInt8 := 55
def fixedLen : Nat := 236

/-- `net_wall_elapsed`, with the reading `now` of the clock. -/
def wallElapsed (now since : UInt32) : UInt32 := (now + 86400 - since) % 86400

/-- `dhcp_new_xid`, with the reading `now` of the clock. -/
def newXid (mac : Mac) (e : Env) (now xid : UInt32) : UInt32 :=
  let x := e.tsc_lo ^^^ (e.tsc_hi * 0x9E3779B1) ^^^ (e.net_ticks * 2654435761)
    ^^^ (now * 40503) ^^^ (xid * 1664525 + 1013904223)
  let x := (List.finRange 6).foldl
    (fun (x : UInt32) i => ((x <<< 7) ||| (x >>> 25)) ^^^ ((mac i).toUInt32 * 0x01000193)) x
  let x := x ^^^ (x <<< 13)
  let x := x ^^^ (x >>> 17)
  let x := x ^^^ (x <<< 5)
  if x = 0 then 0xA5A5A5A5 else x

/-! ## Packets out -/

/-- `dhcp_build_packet`. -/
def buildPacket (mac : Mac) (xid ciaddr : UInt32) (msg_type : UInt8)
    (requested_ip server_id : UInt32) : List UInt8 :=
  [1, 1, 6, 0] ++ put32be xid ++ put16be 0
    ++ put16be (if ciaddr ≠ 0 then 0 else 0x8000) ++ put32be ciaddr
    ++ List.replicate 12 0 ++ (List.finRange 6).map mac ++ List.replicate (fixedLen - 34) 0
    ++ put32be magicCookie ++ [optMsgType, 1, msg_type]
    ++ (if requested_ip ≠ 0 then [optRequestedIp, 4] ++ put32be requested_ip else [])
    ++ (if server_id ≠ 0 then [optServerId, 4] ++ put32be server_id else [])
    ++ [optParamReq, 3, optSubnetMask, optRouter, optDns, 255]

/-- `dhcp_send_discover`; `now` is what the clock says afterwards. -/
def sendDiscover (mac : Mac) (e : Env) (now : UInt32) (s : St) : St :=
  let pkt := buildPacket mac s.xid s.ciaddr msgDiscover 0 0
  { s with out := ⟨0, ip4Broadcast, pkt⟩ :: s.out, state := .discoverSent,
           last_sent_wall := now, last_sent_tick := e.net_ticks }

/-- `dhcp_send_request`. -/
def sendRequest (mac : Mac) (e : Env) (now requested_ip server_id : UInt32) (s : St) : St :=
  let pkt := buildPacket mac s.xid s.ciaddr msgRequest requested_ip server_id
  { s with out := ⟨0, ip4Broadcast, pkt⟩ :: s.out, state := .requestSent,
           last_sent_wall := now, last_sent_tick := e.net_ticks }

/-- `dhcp_send_extension`: unicast to the server of the lease, or broadcast. -/
def sendExtension (mac : Mac) (e : Env) (now : UInt32) (broadcast : Bool) (s : St) : St :=
  let pkt := buildPacket mac s.xid s.cfg.my_ip msgRequest 0 0
  let dst := if broadcast ∨ s.server_id = 0 then ip4Broadcast else s.server_id
  { s with ciaddr := 0, out := ⟨s.cfg.my_ip, dst, pkt⟩ :: s.out,
           last_sent_wall := now, last_sent_tick := e.net_ticks }

/-- `dhcp_drop_lease`. -/
def dropLease (e : Env) (now : UInt32) (s : St) : St :=
  { s with cfg := ⟨0, 0, 0, 0, false⟩, lease_secs := 0, ciaddr := 0, tries := 0, state := .idle,
           last_sent_wall := now, last_sent_tick := e.net_ticks }

/-! ## Replies -/

/-- The value of an option: at most four of its bytes. -/
def optionValue (l : List UInt8) : UInt32 :=
  (l.take 4).foldl (fun v b => (v <<< 8) ||| b.toUInt32) 0

/-- `dhcp_find_option`. Every round of the loop takes at least one byte, so their number is fuel
enough. -/
def findOption (want_opt : UInt8) : Nat → List UInt8 → Option UInt32
  | fuel + 1, opt :: opts =>
    if opt = 255 then none
    else if opt = 0 then findOption want_opt fuel opts
    else match opts with
      | [] => none
      | opt_len :: opts =>
        if opt_len.toNat > opts.length then none
        else if opt = want_opt then some (optionValue (opts.take opt_len.toNat))
        else findOption want_opt fuel (opts.drop opt_len.toNat)
  | _, _ => none

/-- The option list of a reply. -/
def options (r : Datagram) : List UInt8 := r.data.drop (fixedLen + 4)

def option (r : Datagram) (want_opt : UInt8) : Option UInt32 :=
  findOption want_opt (options r).length (options r)

/-- `yiaddr`. -/
def offeredIp (r : Datagram) : UInt32 := get32be r.data 16

/-- `dhcp_find_option` leaves the type at `0` when there is none. -/
def msgType (r : Datagram) : UInt32 := (option r optMsgType).getD 0

/-- The checks at the top of `dhcp_handle_reply`. -/
def forUs (mac : Mac) (xid : UInt32) (r : Datagram) : Bool :=
  r.src_port = serverPort ∧ ¬ r.data.length < fixedLen + 4
    ∧ r.data.getD 0 0 = 2 ∧ r.data.getD 1 0 = 1 ∧ r.data.getD 2 0 = 6
    ∧ get32be r.data fixedLen = magicCookie ∧ get32be r.data 4 = xid
    ∧ ∀ i : Fin 6, r.data.getD (28 + i) 0 = mac i

/-- An OFFER in `DHCP_STATE_DISCOVER_SENT`. -/
def handleOffer (mac : Mac) (e : Env) (r : Datagram) (s : St) : St :=
  if offeredIp r = 0 ∨ offeredIp r = ip4Broadcast then s
  else
    let server_id := (option r optServerId).getD r.src_ip
    sendRequest mac e (e.wall 0) (offeredIp r) server_id
      { s with offered_ip := offeredIp r, server_id := server_id }

/-- A reply from another server than the one we deal with. -/
def otherServer (r : Datagram) (s : St) : Bool :=
  match option r optServerId with
  | some server_id => s.state ≠ .rebinding ∧ s.server_id ≠ 0 ∧ server_id ≠ s.server_id
  | none => false

/-- An ACK in a state that waits for one. -/
def handleAck (e : Env) (r : Datagram) (s : St) : St :=
  let renewing := s.state ≠ .requestSent
  if otherServer r s then s
  else
    let expect_ip := if renewing then s.cfg.my_ip else s.offered_ip
    if offeredIp r = 0 ∨ (expect_ip ≠ 0 ∧ offeredIp r ≠ expect_ip) then s
    else
      -- a renewal that omits an option keeps what was there
      let keep (opt : UInt8) (old : UInt32) : UInt32 :=
        (option r opt).getD (if renewing then old else 0)
      { s with
        cfg := ⟨offeredIp r, keep optSubnetMask s.cfg.netmask, keep optRouter s.cfg.gateway_ip,
          keep optDns s.cfg.dns_ip, true⟩
        server_id := (option r optServerId).getD s.server_id
        state := .bound, tries := 0, ciaddr := 0
        lease_secs := (option r optLeaseTime).getD 0
        lease_age := 0, lease_mark := e.wall 0, lease_tick_mark := e.net_ticks }

/-- A NAK in a state that waits for an answer. -/
def handleNak (e : Env) (r : Datagram) (s : St) : St :=
  if otherServer r s then s
  else if s.state = .requestSent then
    { s with state := .idle, last_sent_wall := e.wall 0, last_sent_tick := e.net_ticks }
  else dropLease e (e.wall 0) s

/-- A state that waits for an ACK or a NAK. -/
def State.asking (st : State) : Bool := st = .requestSent ∨ st = .renewing ∨ st = .rebinding

/-- `dhcp_handle_reply`. -/
def handleReply (mac : Mac) (e : Env) (r : Datagram) (s : St) : St :=
  if ¬ forUs mac s.xid r then s
  else if msgType r = msgOffer.toUInt32 ∧ s.state = .discoverSent then handleOffer mac e r s
  else if msgType r = msgAck.toUInt32 ∧ s.state.asking then handleAck e r s
  else if msgType r = msgNak.toUInt32 ∧ s.state.asking then handleNak e r s
  else s

/-- `dhcp_start`. -/
def start (mac : Mac) (e : Env) (s : St) : St :=
  sendDiscover mac e (e.wall 1) { s with started := true, xid := newXid mac e (e.wall 0) s.xid }

/-! ## The clock -/

/-- The half of `dhcp_lease_tick` behind the sample of the clock. -/
def leaseDue (mac : Mac) (e : Env) (s : St) : St :=
  let t1 := s.lease_secs / 2
  let t2 := s.lease_secs - s.lease_secs / 8
  if s.lease_age ≥ s.lease_secs then dropLease e (e.wall 2) s
  else if s.state = .bound ∧ s.lease_age ≥ t1 then
    sendExtension mac e (e.wall 3) false
      { s with state := .renewing, xid := newXid mac e (e.wall 2) s.xid }
  else if s.state = .renewing ∧ s.lease_age ≥ t2 then
    sendExtension mac e (e.wall 3) true
      { s with state := .rebinding, xid := newXid mac e (e.wall 2) s.xid }
  else if (s.state = .renewing ∨ s.state = .rebinding)
      ∧ wallElapsed (e.wall 2) s.last_sent_wall ≥ 30 then
    sendExtension mac e (e.wall 3) (s.state = .rebinding) s
  else s

/-- `dhcp_lease_tick`. -/
def leaseTick (mac : Mac) (e : Env) (s : St) : St :=
  if s.lease_secs = 0 ∨ s.lease_secs = 0xFFFFFFFF then s
  else if e.net_ticks - s.lease_tick_mark < 64 then s
  else
    let s := { s with lease_tick_mark := e.net_ticks }
    let d := wallElapsed (e.wall 0) s.lease_mark
    if d = 0 then s
    else leaseDue mac e { s with lease_age := s.lease_age + d, lease_mark := e.wall 1 }

/-- The address is held. -/
def State.holding (st : State) : Bool := st = .bound ∨ st = .renewing ∨ st = .rebinding

/-- The half of `dhcp_poll` that repeats an unanswered DISCOVER or REQUEST. -/
def resend (mac : Mac) (e : Env) (s : St) : St :=
  let s := { s with tries := s.tries + 1 }
  if s.state = .discoverSent then sendDiscover mac e (e.wall 1) s
  else if s.state = .requestSent then
    if s.tries ≥ 3 then
      sendDiscover mac e (e.wall 2)
        { s with xid := newXid mac e (e.wall 1) s.xid, tries := 0 }
    else sendRequest mac e (e.wall 1) s.offered_ip s.server_id s
  else s

/-- `dhcp_poll`. -/
def poll (mac : Mac) (e : Env) (s : St) : St :=
  if ¬ s.started then s
  else if s.state.holding then leaseTick mac e s
  else
    let waited := wallElapsed (e.wall 0) s.last_sent_wall
    let tick_stale := e.net_ticks - s.last_sent_tick > 200000
    if s.state = .idle then
      if waited ≥ 1 ∨ tick_stale then
        sendDiscover mac e (e.wall 2)
          { s with xid := newXid mac e (e.wall 1) s.xid, tries := 0 }
      else s
    else
      let interval : UInt32 := if s.tries < 2 then 3 else if s.tries < 4 then 6 else 12
      if waited < interval ∧ ¬ tick_stale then s
      else resend mac e s

end Dhcp
