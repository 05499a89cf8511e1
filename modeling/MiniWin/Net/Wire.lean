import Mathlib.Data.List.Basic

/-!
# Bytes on the wire

The helpers of `kernel/net.h` that every protocol above Ethernet shares: numbers in
big-endian order and the Internet checksum. A packet is the list of its bytes; a byte past
its end reads as `0`, and every caller checks the length before it reads.
-/

namespace Net

def get16be (p : List UInt8) (i : Nat) : UInt16 :=
  (p.getD i 0).toUInt16 <<< 8 ||| (p.getD (i + 1) 0).toUInt16

def get32be (p : List UInt8) (i : Nat) : UInt32 :=
  (p.getD i 0).toUInt32 <<< 24 ||| (p.getD (i + 1) 0).toUInt32 <<< 16
    ||| (p.getD (i + 2) 0).toUInt32 <<< 8 ||| (p.getD (i + 3) 0).toUInt32

def put16be (v : UInt16) : List UInt8 :=
  [(v >>> 8).toUInt8, v.toUInt8]

def put32be (v : UInt32) : List UInt8 :=
  [(v >>> 24).toUInt8, (v >>> 16).toUInt8, (v >>> 8).toUInt8, v.toUInt8]

/-! ## Text -/

/-- The bytes of a text in ASCII. -/
def bytes (s : String) : List UInt8 := s.toList.map fun c => UInt8.ofNat c.toNat

/-- An ASCII letter in lower case. -/
def lower (c : UInt8) : UInt8 := if 'A'.toUInt8 ≤ c ∧ c ≤ 'Z'.toUInt8 then c + 32 else c

/-! ## The Internet checksum -/

/-- `net_checksum_add`: an odd last byte is the high half of a word. -/
def checksumAdd : UInt32 → List UInt8 → UInt32
  | sum, [] => sum
  | sum, [a] => sum + a.toUInt32 <<< 8
  | sum, a :: b :: data => checksumAdd (sum + (a.toUInt32 <<< 8 ||| b.toUInt32)) data

/-- One round of the loop of `net_checksum_finish`. -/
def checksumFold (sum : UInt32) : UInt32 :=
  if sum >>> 16 = 0 then sum else (sum &&& (0xFFFF : UInt32)) + (sum >>> 16)

/-- `net_checksum_finish`. No 32-bit sum needs more than three rounds of the loop. -/
def checksumFinish (sum : UInt32) : UInt16 :=
  let sum : UInt32 := ~~~ checksumFold (checksumFold (checksumFold sum))
  (sum &&& (0xFFFF : UInt32)).toUInt16

/-- `NET_IP4_BROADCAST`. -/
def ip4Broadcast : UInt32 := 0xFFFFFFFF

/-- `ip_packet_t`, as far as the layers above IP read it. `payload_len` is a `u16`. -/
structure IpPacket where
  src_ip : UInt32
  dst_ip : UInt32
  payload : List UInt8
  payload_lt : payload.length < 65536

/-- What `udp_handle_packet` hands to the listener of a port. Its data is a UDP datagram in an IP
packet, so there are never more bytes than two 16-bit lengths and their headers leave. -/
structure Datagram where
  src_ip : UInt32
  src_port : UInt16
  data : List UInt8
  data_le : data.length ≤ 65507

/-- The verdicts of `ip_send`: `IP_SEND_FAILED`, `IP_SEND_SENT` and `IP_SEND_QUEUED`. -/
inductive Verdict where
  | failed | sent | queued
  deriving DecidableEq, Repr

end Net
