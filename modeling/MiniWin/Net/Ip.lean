import MiniWin.Net.Arp

/-!
# IP and UDP

`kernel/ip.h` and `kernel/udp.h`: the frame that `ip_send_now` gives to the card, the header that
`ip_parse` reads back, and the datagrams in between. A frame is no longer than a `u16` says.
-/

namespace Ip

open Net

/-- `IP_HDR_LEN`. -/
def hdrLen : Nat := 20

/-- `IP_TTL_DEFAULT`. -/
def ttlDefault : UInt8 := 64

/-- `ETH_HDR_LEN`. -/
def ethHdrLen : Nat := 14

/-- `ETH_MTU`. -/
def ethMtu : Nat := 1500

/-- `ETHERTYPE_IPV4`. -/
def ethertypeIpv4 : UInt16 := 0x0800

/-- `IP_PROTO_TCP` and `IP_PROTO_UDP`. -/
def protoTcp : UInt8 := 6
def protoUdp : UInt8 := 17

/-- `net_checksum`. -/
def checksum (data : List UInt8) : UInt16 := checksumFinish (checksumAdd 0 data)

/-- The header, with `csum` in the checksum field. -/
def header (src_ip dst_ip : UInt32) (proto : UInt8) (payload_len : Nat) (csum : UInt16) :
    List UInt8 :=
  [0x45, 0x00] ++ put16be (UInt16.ofNat (hdrLen + payload_len)) ++ put16be 0 ++ put16be 0x4000
    ++ [ttlDefault, proto] ++ put16be csum ++ put32be src_ip ++ put32be dst_ip

/-- `ip_build_header`. -/
def buildHeader (src_ip dst_ip : UInt32) (proto : UInt8) (payload_len : Nat) : List UInt8 :=
  header src_ip dst_ip proto payload_len (checksum (header src_ip dst_ip proto payload_len 0))

/-- The frame of `ip_send_now`. -/
def sendNow (my_mac : Arp.Mac) (my_ip dst_ip : UInt32) (proto : UInt8) (payload : List UInt8)
    (dst_mac : Arp.Mac) : List UInt8 :=
  Arp.macBytes dst_mac ++ Arp.macBytes my_mac ++ put16be ethertypeIpv4
    ++ buildHeader my_ip dst_ip proto payload.length ++ payload

/-- `ip_packet_t`. -/
structure Parsed extends IpPacket where
  version_ihl : UInt8
  proto : UInt8
  total_len : UInt16

theorem payload_lt {data : List UInt8} {ihl : Nat} (total : UInt16) :
    ((data.drop ihl).take (total.toNat - ihl)).length < 65536 := by
  have hle := List.length_take_le (total.toNat - ihl) (data.drop ihl)
  have := total.toNat_lt
  omega

/-- The bytes of the header, as it says itself. -/
def ihlBytes (data : List UInt8) : Nat := (data.getD 0 0 &&& 0x0F).toNat * 4

/-- `ip_parse`. -/
def parse (data : List UInt8) : Option Parsed :=
  let ihl_bytes := ihlBytes data
  let total_len := get16be data 2
  if data.length < hdrLen then none
  else if data.getD 0 0 >>> 4 ≠ 4 then none
  else if ihl_bytes < hdrLen ∨ ihl_bytes > data.length then none
  else if checksum (data.take ihl_bytes) ≠ 0 then none
  else if total_len.toNat < ihl_bytes ∨ total_len.toNat > data.length then none
  else
    some {
      version_ihl := data.getD 0 0, proto := data.getD 9 0, total_len := total_len,
      src_ip := get32be data 12, dst_ip := get32be data 16,
      payload := (data.drop ihl_bytes).take (total_len.toNat - ihl_bytes),
      payload_lt := payload_lt total_len }

/-! ## UDP -/

/-- `UDP_HDR_LEN`. -/
def udpHdrLen : Nat := 8

/-- What is added up in front of a datagram. -/
def udpPseudo (src_ip dst_ip : UInt32) (udp_len : UInt16) : List UInt8 :=
  put32be src_ip ++ put32be dst_ip ++ [0, protoUdp] ++ put16be udp_len

/-- The header of a datagram, with `csum` in the checksum field. -/
def udpHeader (src_port dst_port udp_len csum : UInt16) : List UInt8 :=
  put16be src_port ++ put16be dst_port ++ put16be udp_len ++ put16be csum

/-- The checksum of a datagram that lies behind a header like this. -/
def udpChecksum (src_ip dst_ip : UInt32) (udp_len : UInt16) (pkt : List UInt8) : UInt16 :=
  checksumFinish (checksumAdd (checksumAdd 0 (udpPseudo src_ip dst_ip udp_len)) pkt)

/-- What `udp_send` gives to `ip_send`. -/
def udpSend (src_ip : UInt32) (src_port : UInt16) (dst_ip : UInt32) (dst_port : UInt16)
    (payload : List UInt8) : List UInt8 :=
  let udp_len := UInt16.ofNat (udpHdrLen + payload.length)
  let csum := udpChecksum src_ip dst_ip udp_len (udpHeader src_port dst_port udp_len 0 ++ payload)
  -- a zero says that there is no checksum
  udpHeader src_port dst_port udp_len (if csum = 0 then 0xFFFF else csum) ++ payload

/-- `udp_listener_t`. -/
structure Listener (α : Type) where
  port : UInt16
  handler : α
  active : Bool

/-- What a handler is called with. -/
structure Delivery (α : Type) where
  handler : α
  src_ip : UInt32
  src_port : UInt16
  data : List UInt8

/-- The tests of `udp_handle_packet`. -/
def udpPasses (ip : IpPacket) : Bool :=
  let udp_len := get16be ip.payload 4
  ip.payload.length ≥ udpHdrLen ∧ udp_len.toNat ≥ udpHdrLen ∧ udp_len.toNat ≤ ip.payload.length
    ∧ (get16be ip.payload 6 ≠ 0 →
      udpChecksum ip.src_ip ip.dst_ip udp_len (ip.payload.take udp_len.toNat) = 0)

/-- `udp_handle_packet`. -/
def udpHandle {α : Type} (listeners : List (Listener α)) (ip : IpPacket) : Option (Delivery α) :=
  if udpPasses ip then
    (listeners.find? fun l => l.active ∧ l.port = get16be ip.payload 2).map fun l =>
      { handler := l.handler, src_ip := ip.src_ip, src_port := get16be ip.payload 0,
        data := (ip.payload.drop udpHdrLen).take ((get16be ip.payload 4).toNat - udpHdrLen) }
  else none

end Ip
