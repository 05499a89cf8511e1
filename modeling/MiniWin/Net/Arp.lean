import Mathlib.Data.Fintype.Basic
import Mathlib.Data.List.FinRange
import Mathlib.Logic.Function.Basic
import MiniWin.Net.Wire

/-!
# ARP

The cache of `kernel/arp.h`: eight entries, which addresses are looked up in. Requests of our own
and what comes in from the network change it.
-/

namespace Arp

open Net

/-- `ARP_CACHE_SIZE`. -/
abbrev cacheSize : Nat := 8

abbrev Mac := Fin 6 → UInt8

/-- `ARP_ENTRY_EMPTY`, `ARP_ENTRY_PENDING` and `ARP_ENTRY_RESOLVED`. -/
inductive EntryState where
  | empty | pending | resolved
  deriving DecidableEq, Repr

/-- `arp_entry_t`. -/
structure Entry where
  ip : UInt32
  mac : Mac
  state : EntryState
  age : UInt16
  deriving DecidableEq

/-- The globals of `arp.h`, with what was given to `nic.send` and to `arp_resolved_cb`, the last
first. -/
structure St where
  cache : Fin cacheSize → Entry := fun _ => ⟨0, fun _ => 0, .empty, 0⟩
  initialized : Bool := false
  out : List (List UInt8) := []
  flushed : List (UInt32 × Mac) := []

/-- What ARP reads of the machine in one call. -/
structure Env where
  /-- `nic.present`. -/
  present : Bool
  /-- `nic.mac`. -/
  mac : Mac
  /-- `net_cfg.ready` and `net_cfg.my_ip`. -/
  ready : Bool
  my_ip : UInt32
  net_ticks : UInt32

def etherArp : UInt16 := 0x0806
def etherIpv4 : UInt16 := 0x0800

/-- `arp_cache_init`. -/
def cacheInit (s : St) : St :=
  { s with cache := fun i => { s.cache i with state := .empty }, initialized := true }

/-- The cache is set up when it is first used. -/
def St.ready (s : St) : St := if s.initialized then s else cacheInit s

/-- `arp_find_pending_slot`. -/
def findPendingSlot (s : St) (ip : UInt32) : Option (Fin cacheSize) :=
  (List.finRange cacheSize).find? fun i => (s.cache i).ip = ip ∧ (s.cache i).state = .pending

/-- `arp_find_or_alloc_slot`: the entry of the address, the first empty one, or slot `0`. -/
def findOrAllocSlot (s : St) (ip : UInt32) : Fin cacheSize :=
  match (List.finRange cacheSize).find? fun i =>
      (s.cache i).state ≠ .empty ∧ (s.cache i).ip = ip with
  | some i => i
  | none => ((List.finRange cacheSize).find? fun i => (s.cache i).state = .empty).getD 0

/-! ## Packets out -/

def macBytes (mac : Mac) : List UInt8 := (List.finRange 6).map mac

/-- An ARP packet of ours in its frame, to `dst`. -/
def packet (dst src : Mac) (opcode : UInt16) (sender_ip : UInt32) (target_mac : Mac)
    (target_ip : UInt32) : List UInt8 :=
  macBytes dst ++ macBytes src ++ put16be etherArp ++ put16be 1 ++ put16be etherIpv4 ++ [6, 4]
    ++ put16be opcode ++ macBytes src ++ put32be sender_ip ++ macBytes target_mac
    ++ put32be target_ip

/-- `arp_send_request`. -/
def sendRequest (e : Env) (sender_ip target_ip : UInt32) (s : St) : St :=
  if ¬ e.present then s
  else
    let s := s.ready
    let slot := findOrAllocSlot s target_ip
    { s with
      cache := Function.update s.cache slot
        { s.cache slot with ip := target_ip, state := .pending, age := e.net_ticks.toUInt16 }
      out := packet (fun _ => 0xFF) e.mac 1 sender_ip (fun _ => 0) target_ip :: s.out }

/-- `arp_send_reply`. -/
def sendReply (e : Env) (my_ip : UInt32) (requester_mac : Mac) (requester_ip : UInt32) (s : St) :
    St :=
  if ¬ e.present then s
  else { s with out := packet requester_mac e.mac 2 my_ip requester_mac requester_ip :: s.out }

/-! ## Frames in -/

/-- Six bytes of a frame. -/
def macAt (frame : List UInt8) (i : Nat) : Mac := fun k => frame.getD (i + k) 0

def opcode (frame : List UInt8) : UInt16 := get16be frame 20
def senderMac (frame : List UInt8) : Mac := macAt frame 22
def senderIp (frame : List UInt8) : UInt32 := get32be frame 28
def targetMac (frame : List UInt8) : Mac := macAt frame 32
def targetIp (frame : List UInt8) : UInt32 := get32be frame 38

/-- The checks of `arp_handle_frame` on any ARP packet. -/
def checked (e : Env) (frame : List UInt8) : Bool :=
  get16be frame 14 = 1 ∧ get16be frame 16 = etherIpv4
    ∧ frame.getD 18 0 = 6 ∧ frame.getD 19 0 = 4
    ∧ (opcode frame = 1 ∨ opcode frame = 2)
    ∧ senderIp frame ≠ 0 ∧ senderIp frame ≠ ip4Broadcast
    ∧ senderMac frame 0 &&& 1 = 0
    ∧ macAt frame 6 = senderMac frame
    ∧ ¬ (e.ready = true ∧ senderIp frame = e.my_ip)

/-- The sender of a frame as a resolved entry. -/
def sender (frame : List UInt8) : Entry := ⟨senderIp frame, senderMac frame, .resolved, 0⟩

/-- A reply is believed if it is addressed to us and answers a question we have outstanding. -/
def handleReply (e : Env) (frame : List UInt8) (s : St) : St :=
  if targetIp frame ≠ e.my_ip then s
  else if targetMac frame ≠ e.mac then s
  else
    match findPendingSlot s (senderIp frame) with
    | none => s
    | some slot =>
      { s with
        cache := Function.update s.cache slot (sender frame)
        flushed := (senderIp frame, senderMac frame) :: s.flushed }

/-- A request for our address is answered. Who asks is remembered, if there is a free slot and no
entry for the address yet. -/
def handleRequest (e : Env) (frame : List UInt8) (s : St) : St :=
  let existing := ((List.finRange cacheSize).filter fun i =>
    (s.cache i).state ≠ .empty ∧ (s.cache i).ip = senderIp frame).getLast?
  let empty := (List.finRange cacheSize).find? fun i => (s.cache i).state = .empty
  let s :=
    match existing, empty with
    | none, some slot => { s with cache := Function.update s.cache slot (sender frame) }
    | _, _ => s
  sendReply e e.my_ip (senderMac frame) (senderIp frame) s

/-- `arp_handle_frame`: whether the frame was ARP. -/
def handleFrame (e : Env) (frame : List UInt8) (s : St) : Bool × St :=
  if frame.length < 42 then (false, s)
  else if get16be frame 12 ≠ etherArp then (false, s)
  else
    let s := s.ready
    if ¬ checked e frame then (true, s)
    else if opcode frame = 2 then (true, handleReply e frame s)
    else if e.ready = true ∧ targetIp frame = e.my_ip then (true, handleRequest e frame s)
    else (true, s)

end Arp
