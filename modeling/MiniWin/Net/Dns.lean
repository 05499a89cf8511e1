import MiniWin.Lib.Block
import MiniWin.Net.Wire

/-!
# DNS

The client of `kernel/dns.h`: one lookup at a time, of one A record. A datagram is the memory its
first byte is in and a 16-bit length, so that a read behind its end reads what is there. The walk
of `dns_skip_name` has a 16-bit position, which can come round: `none` as its outcome, and as that
of a call, says that it does not return.
-/

namespace Dns

open Net

def serverPort : UInt16 := 53
def typeA : UInt16 := 1
def typeCname : UInt16 := 5
def classIn : UInt16 := 1
def maxAttempts : Nat := 4
def attemptSeconds : UInt32 := 3
def tickBackstop : UInt32 := 200000
def maxName : Nat := 128

/-- `dns_state_t`. -/
inductive State where
  | idle | querying | resolved | failed
  deriving DecidableEq, Repr

/-- The text in `hostname`, which fits and holds no `0`. -/
structure Host where
  text : List UInt8
  fits : text.length < maxName
  ended : 0 ∉ text

/-- `dns_client_t`. The first `nattempts` of its servers are the list; `sent` is what `udp_send`
was given in this lookup. -/
structure Client where
  state : State
  query_id : UInt16
  query_tick : UInt32
  result_ip : UInt32
  query_wall : UInt32
  servers : List UInt32
  attempt : Nat
  fail : List UInt8
  hostname : Host
  sent : List (UInt32 × List UInt8)

/-- What the client reads of the machine in one call. -/
structure Env where
  net_ticks : UInt32
  /-- `net_wall_seconds()`. -/
  wall : UInt32

/-- What `udp_handle_packet` hands to the listener. -/
structure Dgram where
  src_ip : UInt32
  src_port : UInt16
  data : Block
  len : UInt16

/-! ## Names -/

/-- `dns_encode_name`: the length of the label, which is one byte, and its bytes. -/
def encodeLabels (label : List UInt8) : List UInt8 → List UInt8
  | [] => UInt8.ofNat label.length :: label
  | c :: host =>
    if c = '.'.toUInt8 then UInt8.ofNat label.length :: label ++ encodeLabels [] host
    else encodeLabels (label ++ [c]) host

def encodeName (host : List UInt8) : List UInt8 := encodeLabels [] host ++ [0]

/-- A byte with the two top bits set begins a pointer. -/
def isPointer (b : UInt8) : Bool := b &&& 0xC0 = 0xC0

/-- The loop of `dns_skip_name`. More than `2 ^ 16` rounds come round to where it has been. -/
def skipFrom (data : Block) (len offset : Nat) : Nat → Nat → Option Nat
  | 0, _ => none
  | fuel + 1, pos =>
    if pos < len then
      if isPointer (data pos) then
        if pos + 2 > len then some 0 else some ((pos + 2 + 2 ^ 16 - offset) % 2 ^ 16)
      else if data pos = 0 then some ((pos + 1 + 2 ^ 16 - offset) % 2 ^ 16)
      else skipFrom data len offset fuel ((pos + 1 + (data pos).toNat) % 2 ^ 16)
    else some 0

/-- `dns_skip_name`. -/
def skipName (data : Block) (len offset : Nat) : Option Nat :=
  skipFrom data len offset (2 ^ 16 + 1) offset

/-- The loop of `dns_decode_name`, with the text so far. Every round takes a hop or adds to the
text, so that the rounds suffice. -/
def decodeFrom (data : Block) (len cap : Nat) :
    Nat → Nat → Nat → List UInt8 → Option (List UInt8)
  | 0, _, _, _ => none
  | fuel + 1, hops, p, out =>
    if p ≥ len then none
    else
      let b := data p
      if isPointer b then
        if p + 1 ≥ len then none
        else
          let ptr := (b &&& 0x3F).toNat * 256 + (data (p + 1)).toNat
          if ptr ≥ p ∨ hops + 1 > 16 then none else decodeFrom data len cap fuel (hops + 1) ptr out
      else if b &&& 0xC0 ≠ 0 then none
      else if b = 0 then some out
      else
        let next := (p + 1 + b.toNat) % 2 ^ 16
        if next > len then none
        else if out ≠ [] ∧ out.length + 1 ≥ cap then none
        else
          let out := if out ≠ [] then out ++ ['.'.toUInt8] else out
          if out.length + b.toNat ≥ cap then none
          else decodeFrom data len cap fuel hops next
            (out ++ (data.slice (p + 1) b.toNat).map lower)

/-- `dns_decode_name`: the text without the `0` behind it, or `none` for `-1`. -/
def decodeName (data : Block) (len p cap : Nat) : Option (List UInt8) :=
  decodeFrom data len cap (cap + 17) 0 p []

/-- The end of a C string, one dot in front of it perhaps. -/
def ended : List UInt8 → Bool
  | [] => true
  | c :: cs => c = 0 ∨ (c = '.'.toUInt8 ∧ cs.headD 0 = 0)

/-- `dns_name_eq`, of C strings. -/
def nameEq : List UInt8 → List UInt8 → Bool
  | a :: as, b :: bs =>
    if ended (a :: as) && ended (b :: bs) then true
    else if lower a ≠ lower b then false
    else nameEq as bs
  | as, bs => ended as && ended bs

/-- The C string at the beginning of a text. -/
def cString (text : List UInt8) : List UInt8 := text.takeWhile (· ≠ 0)

/-! ## Sending and giving up -/

/-- A number in decimal. -/
def decimal (n : Nat) : List UInt8 := (Nat.repr n).toList.map fun c => UInt8.ofNat c.toNat

/-- `dns_ip_str`. -/
def ipStr (ip : UInt32) : List UInt8 :=
  decimal (ip.toNat / 2 ^ 24) ++ ['.'.toUInt8] ++ decimal (ip.toNat / 2 ^ 16 % 256)
    ++ ['.'.toUInt8] ++ decimal (ip.toNat / 2 ^ 8 % 256) ++ ['.'.toUInt8]
    ++ decimal (ip.toNat % 256)

/-- `dns_fail_append`: `fail` has room for 95 bytes. -/
def failAppend (text : List UInt8) (c : Client) : Client :=
  { c with fail := c.fail ++ text.take (95 - c.fail.length) }

/-- `dns_send_attempt`. -/
def sendAttempt (e : Env) (c : Client) : Client :=
  { c with
    query_tick := e.net_ticks
    query_wall := e.wall
    sent := c.sent ++ [(c.servers.getD c.attempt 0,
      put16be c.query_id ++ put16be 0x0100 ++ put16be 1 ++ put16be 0 ++ put16be 0 ++ put16be 0
        ++ encodeName c.hostname.text ++ put16be typeA ++ put16be classIn)] }

/-- The servers without those that stand further in front. -/
def distinct (servers : List UInt32) : List UInt32 := servers.reverse.dedup.reverse

/-- `dns_next_attempt_or_fail`. -/
def nextAttemptOrFail (e : Env) (why : List UInt8) (c : Client) : Client :=
  if c.attempt + 1 < c.servers.length then sendAttempt e { c with attempt := c.attempt + 1 }
  else
    let c := failAppend (bytes " Tried:") (failAppend why { c with fail := [] })
    let c := (distinct c.servers).foldl (fun c ip => failAppend (ipStr ip) (failAppend (bytes " ") c)) c
    { c with state := .failed }

/-- `dns_resolve`. -/
def resolve (e : Env) (dns_ip gateway_ip : UInt32) (host : Host) : Client :=
  sendAttempt e
    { state := .querying
      query_id := ((e.net_ticks * 2654435761) >>> 16).toUInt16
      query_tick := 0
      result_ip := 0
      query_wall := 0
      servers := ([dns_ip, dns_ip, gateway_ip, 0x08080808, 0x01010101].filter (· ≠ 0)).take
        maxAttempts
      attempt := 0
      fail := []
      hostname := host
      sent := [] }

/-! ## Replies -/

def get16 (data : Block) (i : Nat) : UInt16 := (data i).toUInt16 <<< 8 ||| (data (i + 1)).toUInt16

def get32 (data : Block) (i : Nat) : UInt32 :=
  (data i).toUInt32 <<< 24 ||| (data (i + 1)).toUInt32 <<< 16
    ||| (data (i + 2)).toUInt32 <<< 8 ||| (data (i + 3)).toUInt32

/-- The check of the echoed question: the place behind it, or `none` inside to ignore the reply. -/
def question (d : Dgram) (rcode : UInt16) (c : Client) : Option (Option Nat) :=
  let len := d.len.toNat
  let qdcount := get16 d.data 4
  if qdcount > 1 then some none
  else if qdcount = 1 then
    match decodeName d.data len 12 256 with
    | none => some none
    | some qname =>
      match skipName d.data len 12 with
      | none => none
      | some nlen =>
        if nlen = 0 ∨ 12 + nlen + 4 > len then some none
        else if nameEq (cString qname) c.hostname.text = false ∨ get16 d.data (12 + nlen) ≠ typeA
            ∨ get16 d.data (12 + nlen + 2) ≠ classIn then some none
        else some (some (12 + nlen + 4))
  else if rcode = 0 ∨ rcode = 3 then some none
  else some (some 12)

/-- What the walk over the answers comes to. -/
inductive Answers where
  | broken
  | found (ip : UInt32)
  /-- The end, and whether there was a record of another name. -/
  | ran_out (saw_foreign : Bool)

/-- The walk over `n` answers from `pos` on, for the name `want`. -/
def answers (d : Dgram) : Nat → Nat → List UInt8 → Bool → Option Answers
  | 0, _, _, saw_foreign => some (.ran_out saw_foreign)
  | n + 1, pos, want, saw_foreign =>
    let len := d.len.toNat
    match skipName d.data len pos with
    | none => none
    | some nlen =>
      if nlen = 0 ∨ pos + nlen + 10 > len then some .broken
      else
        let owner_ok := (decodeName d.data len pos 256).any fun owner => nameEq (cString owner) want
        let saw_foreign := saw_foreign || !owner_ok
        let rtype := get16 d.data (pos + nlen)
        let rclass := get16 d.data (pos + nlen + 2)
        let rdlength := (get16 d.data (pos + nlen + 8)).toNat
        let pos := pos + nlen + 10
        if pos + rdlength > len then some .broken
        else if owner_ok ∧ rtype = typeCname ∧ rclass = classIn then
          let want := match decodeName d.data len pos 256 with
            | none => want
            | some target => cString target
          answers d n (pos + rdlength) want saw_foreign
        else if owner_ok ∧ rtype = typeA ∧ rclass = classIn ∧ rdlength = 4 then
          some (.found (get32 d.data pos))
        else answers d n (pos + rdlength) want saw_foreign

/-- `dns_handle_reply`. -/
def handleReply (e : Env) (d : Dgram) (c : Client) : Option Client :=
  if c.state ≠ .querying then some c
  else if d.src_port ≠ serverPort then some c
  else if d.src_ip ∉ c.servers.take (c.attempt + 1) then some c
  else if d.len < 12 then some c
  else if get16 d.data 0 ≠ c.query_id then some c
  else
    let flags := get16 d.data 2
    if flags &&& 0x8000 = 0 then some c
    else if (flags >>> 11) &&& 0x0F ≠ 0 then some c
    else
      let rcode := flags &&& 0x0F
      match question d rcode c with
      | none => none
      | some none => some c
      | some (some pos) =>
        if rcode ≠ 0 then
          if rcode = 3 then
            some { failAppend (bytes " says it does not exist).") (failAppend (ipStr d.src_ip)
              (failAppend (bytes "No such host (server ") { c with fail := [] })) with
                state := .failed }
          else
            some (nextAttemptOrFail e
              (bytes "Server error " ++ [UInt8.ofNat (48 + rcode.toNat % 10)]) c)
        else
          match answers d (get16 d.data 6).toNat pos (c.hostname.text.map lower) false with
          | none => none
          | some .broken => some { c with state := .failed }
          | some (.found ip) => some { c with result_ip := ip, state := .resolved }
          | some (.ran_out true) => some c
          | some (.ran_out false) =>
            some { failAppend (bytes "The name exists but has no IPv4 address (A record).")
              { c with fail := [] } with state := .failed }

/-- `dns_poll`. -/
def poll (e : Env) (c : Client) : Client :=
  if c.state ≠ .querying then c
  else if (e.wall + 86400 - c.query_wall) % 86400 ≥ attemptSeconds
      ∨ e.net_ticks - c.query_tick > tickBackstop then
    nextAttemptOrFail e (bytes "No reply from the DNS server.") c
  else c

end Dns
