import MiniWin.Net.IpSpec
import MiniWin.Net.Tcp

/-!
# What is sent is accepted

What the stack sends, its own receiver takes in again: packets, datagrams and segments. A byte that
changes on the way is seen by the checksums, but for the places where the packet itself says what
they cover: the length of a header, the length of a datagram, and the zero that says that there is
no checksum.
-/

namespace Ip

open Net OnesComplement

variable {src dst : UInt32} {src_port dst_port len csum : UInt16} {payload l a b : List UInt8}
  {n : Nat}

/-! ## A checksum behind a pseudo header -/

/-- **The checksum in its place** makes the sum a multiple of 65535. -/
theorem field_mod {p : List UInt8} {c : UInt16} (ha : a.length % 2 = 0) (hlen : p.length ≤ 12)
    (hl : (a ++ (put16be 0 ++ b)).length ≤ 65536)
    (hc : c.toNat % 65535
      = (checksumFinish (checksumAdd (checksumAdd 0 p) (a ++ (put16be 0 ++ b)))).toNat % 65535) :
    (words p + words (a ++ (put16be c ++ b))) % 65535 = 0 := by
  have hp := words_le p
  have hlow := words_lt hl
  have hzero : (0 : UInt32).toNat = 0 := rfl
  have hzero' : (0 : UInt16).toNat = 0 := rfl
  have hpseudo : (checksumAdd 0 p).toNat = words p := by
    rw [checksumAdd_toNat p 0 (by omega), hzero, Nat.zero_add]
  have hadd := add_finish (s := checksumAdd 0 p) (l := a ++ (put16be 0 ++ b))
    (by rw [hpseudo]; omega)
  have hsplit : ∀ c : UInt16, words (a ++ (put16be c ++ b)) = words a + (c.toNat + words b) :=
    fun c => by
      rw [words_append ha, words_append (by rw [length_put16be]), words_put16be]
  rw [hpseudo, hsplit] at hadd
  rw [hsplit]
  omega

/-- **A sum is checked.** -/
theorem finish_eq_zero {p : List UInt8} (hlen : p.length ≤ 12) (hpos : 0 < words p)
    (hl : l.length ≤ 65536) :
    checksumFinish (checksumAdd (checksumAdd 0 p) l) = 0 ↔ (words p + words l) % 65535 = 0 := by
  have hp := words_le p
  have hlow := words_lt hl
  have hzero : (0 : UInt32).toNat = 0 := rfl
  have hpseudo : (checksumAdd 0 p).toNat = words p := by
    rw [checksumAdd_toNat p 0 (by omega), hzero, Nat.zero_add]
  rw [finish_add_eq_zero (by rw [hpseudo]; omega) (by rw [hpseudo]; omega), hpseudo]

/-! ## Datagrams -/

/-- The words of a pseudo header, of UDP or of TCP. -/
theorem words_pseudo (src dst : UInt32) (proto : UInt8) (len : UInt16) :
    words (put32be src ++ put32be dst ++ [0, proto] ++ put16be len)
      = words (put32be src ++ put32be dst) + proto.toNat + len.toNat := by
  have hproto : words [0, proto] = proto.toNat := by
    rw [words_cons_cons, words_nil]
    show 0 * 256 + proto.toNat + 0 = proto.toNat
    omega
  rw [words_append (by simp), words_append (by simp), words_put16be, hproto]

theorem words_udpPseudo (src dst : UInt32) (len : UInt16) : words (udpPseudo src dst len)
    = words (put32be src ++ put32be dst) + 17 + len.toNat :=
  words_pseudo src dst protoUdp len

theorem length_udpPseudo (src dst : UInt32) (len : UInt16) :
    (udpPseudo src dst len).length ≤ 12 := by
  unfold udpPseudo
  simp

/-- What is read of a datagram. -/
structure UdpReads (pkt : List UInt8) (src_port dst_port len csum : UInt16) : Prop where
  src_port : get16be pkt 0 = src_port
  dst_port : get16be pkt 2 = dst_port
  len : get16be pkt 4 = len
  csum : get16be pkt 6 = csum

theorem reads_udpHeader (src_port dst_port len csum : UInt16) (payload : List UInt8) :
    UdpReads (udpHeader src_port dst_port len csum ++ payload) src_port dst_port len csum := by
  unfold udpHeader
  simp only [List.append_assoc]
  refine ⟨get16be_put16be [] _ _, get16be_put16be (put16be src_port) _ _, ?_, ?_⟩
  · have h := get16be_put16be (put16be src_port ++ put16be dst_port) (put16be csum ++ payload) len
    simp only [List.append_assoc] at h
    exact h
  · have h := get16be_put16be (put16be src_port ++ put16be dst_port ++ put16be len) payload csum
    simp only [List.append_assoc] at h
    exact h

/-- The checksum of a datagram that is sent, never zero. -/
def sentChecksum (src dst : UInt32) (src_port dst_port : UInt16) (payload : List UInt8) : UInt16 :=
  let len := UInt16.ofNat (udpHdrLen + payload.length)
  let c := udpChecksum src dst len (udpHeader src_port dst_port len 0 ++ payload)
  if c = 0 then 0xFFFF else c

theorem udpSend_eq (src dst : UInt32) (src_port dst_port : UInt16) (payload : List UInt8) :
    udpSend src src_port dst dst_port payload
      = udpHeader src_port dst_port (UInt16.ofNat (udpHdrLen + payload.length))
        (sentChecksum src dst src_port dst_port payload) ++ payload := rfl

theorem sentChecksum_ne_zero : sentChecksum src dst src_port dst_port payload ≠ 0 := by
  unfold sentChecksum
  dsimp only
  split
  · decide
  · next h => exact h

/-- A datagram that is sent. -/
structure UdpSent (src dst : UInt32) (src_port dst_port : UInt16) (payload pkt : List UInt8) :
    Prop where
  reads : UdpReads pkt src_port dst_port (UInt16.ofNat (udpHdrLen + payload.length))
    (sentChecksum src dst src_port dst_port payload)
  length : pkt.length = 8 + payload.length
  len : (UInt16.ofNat (udpHdrLen + payload.length)).toNat = 8 + payload.length
  data : pkt.drop 8 = payload
  sum : (words (udpPseudo src dst (UInt16.ofNat (udpHdrLen + payload.length))) + words pkt)
    % 65535 = 0

theorem udpSent_udpSend (src dst : UInt32) (src_port dst_port : UInt16)
    (hn : udpHdrLen + payload.length ≤ ethMtu - hdrLen) :
    UdpSent src dst src_port dst_port payload (udpSend src src_port dst dst_port payload) := by
  have hn' : 8 + payload.length ≤ 1480 := hn
  have hlt : 8 + payload.length < 65536 := by omega
  rw [udpSend_eq]
  refine ⟨reads_udpHeader _ _ _ _ _, ?_, UInt16.toNat_ofNat_of_lt' hlt, List.drop_left' rfl, ?_⟩
  · rw [List.length_append]
    rfl
  · obtain ⟨len, hlen⟩ : ∃ len, UInt16.ofNat (udpHdrLen + payload.length) = len := ⟨_, rfl⟩
    have hc : (sentChecksum src dst src_port dst_port payload).toNat % 65535
        = (udpChecksum src dst len (udpHeader src_port dst_port len 0 ++ payload)).toNat
          % 65535 := by
      unfold sentChecksum
      rw [hlen]
      dsimp only
      split
      · next h =>
        rw [h]
        rfl
      · rfl
    have heq : ∀ c, udpHeader src_port dst_port len c ++ payload
        = (put16be src_port ++ put16be dst_port ++ put16be len) ++ (put16be c ++ payload) :=
      fun c => by
        unfold udpHeader
        simp only [List.append_assoc]
    rw [hlen, heq]
    unfold udpChecksum at hc
    rw [heq] at hc
    refine field_mod (a := put16be src_port ++ put16be dst_port ++ put16be len)
      (p := udpPseudo src dst len) ?_ ?_ ?_ hc
    · simp
    · exact length_udpPseudo src dst len
    · simp
      omega


/-- **A datagram passes**, and what is delivered is what was sent. -/
theorem UdpSent.passes {pkt : List UInt8} (h : UdpSent src dst src_port dst_port payload pkt)
    (hlt : pkt.length < 65536) :
    udpPasses { src_ip := src, dst_ip := dst, payload := pkt, payload_lt := hlt } = true := by
  have hlen := h.length
  unfold udpPasses
  dsimp only
  rw [decide_eq_true_iff, h.reads.len, h.len, h.reads.csum, ← h.length, List.take_length]
  refine ⟨by unfold udpHdrLen; omega, by unfold udpHdrLen; omega, Nat.le_refl _, fun _ => ?_⟩
  unfold udpChecksum
  refine (finish_eq_zero (length_udpPseudo ..) ?_ (by omega)).mpr h.sum
  rw [words_udpPseudo]
  omega

theorem UdpSent.handle {α : Type} {pkt : List UInt8}
    (h : UdpSent src dst src_port dst_port payload pkt)
    (hlt : pkt.length < 65536) (listeners : List (Listener α)) :
    udpHandle listeners { src_ip := src, dst_ip := dst, payload := pkt, payload_lt := hlt }
      = (listeners.find? fun l => l.active ∧ l.port = dst_port).map fun l =>
        { handler := l.handler, src_ip := src, src_port := src_port, data := payload } := by
  unfold udpHandle
  rw [if_pos (h.passes hlt)]
  dsimp only
  rw [h.reads.dst_port, h.reads.src_port, h.reads.len, h.len]
  have hdata : (pkt.drop udpHdrLen).take (8 + payload.length - udpHdrLen) = payload := by
    unfold udpHdrLen
    rw [h.data, Nat.add_sub_cancel_left, List.take_length]
  rw [hdata]

/-- **A change of a datagram that is believed**: it says that it has no checksum, or that it is
shorter, and the words that are cut off make up for the change. -/
inductive Believed (old new : List UInt8) : Prop where
  | unchecked (h : get16be new 6 = 0)
  | shorter (hle : 8 ≤ (get16be new 4).toNat) (hlt : (get16be new 4).toNat < old.length)
      (hsum : (2 * (old.length - (get16be new 4).toNat)
        + (words old - words (old.take (get16be new 4).toNat))) % 65535 = 0)

/-- A byte of the length changes what it is. -/
theorem length_set {i : Nat} {c : UInt8} (hi : i < l.length) (h : i = 4 ∨ i = 5) :
    (get16be (l.set i c) 4).toNat + weight i * (l.getD i 0).toNat
      = (get16be l 4).toNat + weight i * c.toNat := by
  have hself : (l.set i c).getD i 0 = c := by
    rw [List.getD_eq_getElem?_getD, List.getElem?_set_self hi, Option.getD_some]
  have hread : ∀ l : List UInt8, (get16be l 4).toNat
      = (l.getD 4 0).toNat * 256 + (l.getD 5 0).toNat := fun l => get16be_toNat l 4
  have hfour : weight 4 = 256 := rfl
  have hfive : weight 5 = 1 := rfl
  obtain rfl | rfl := h
  · have hother : (l.set 4 c).getD 5 0 = l.getD 5 0 := getD_set_ne (by decide)
    rw [hread, hread, hself, hother, hfour]
    omega
  · have hother : (l.set 5 c).getD 4 0 = l.getD 4 0 := getD_set_ne (by decide)
    rw [hread, hread, hself, hother, hfive]
    omega

/-- **A changed byte of a datagram is seen**, unless the datagram itself says that it need not
be. -/
theorem UdpSent.set {pkt : List UInt8} (h : UdpSent src dst src_port dst_port payload pkt)
    {i : Nat} {c : UInt8} (hi : i < pkt.length) (hne : pkt.getD i 0 ≠ c)
    (hlt : (pkt.set i c).length < 65536) :
    udpPasses { src_ip := src, dst_ip := dst, payload := pkt.set i c, payload_lt := hlt } = false
      ↔ ¬ Believed pkt (pkt.set i c) := by
  have hset : (pkt.set i c).length = pkt.length := List.length_set
  have hlen := h.length
  have hfield : (get16be pkt 4).toNat = pkt.length := by rw [h.reads.len, h.len, hlen]
  have hwords := h.sum
  rw [words_udpPseudo, h.len, ← hlen] at hwords
  rw [← Bool.not_eq_true, not_iff_not]
  unfold udpPasses udpChecksum udpHdrLen
  dsimp only
  rw [decide_eq_true_iff, hset]
  by_cases hi' : i = 4 ∨ i = 5
  · -- the length has changed, and with it what is added up
    have hcsum : get16be (pkt.set i c) 6 ≠ 0 := by
      rw [get16be_set_ne (by omega) (by omega), h.reads.csum]
      exact sentChecksum_ne_zero
    have hnew := length_set hi hi' (c := c)
    rw [hfield] at hnew
    obtain ⟨len, hl⟩ : ∃ len, get16be (pkt.set i c) 4 = len := ⟨_, rfl⟩
    rw [hl] at hnew ⊢
    have hne' : len.toNat ≠ pkt.length := fun hc => by
      have hw := weight_cases i
      refine hne (UInt8.toNat_inj.mp ?_)
      obtain hw | hw := hw <;> rw [hw] at hnew <;> omega
    have hcut := words_take_le pkt len.toNat
    have hsum : 8 ≤ len.toNat → words ((pkt.set i c).take len.toNat) + pkt.length
        = words (pkt.take len.toNat) + len.toNat := fun hle => by
      have hs := words_set (pkt.take len.toNat) i c (by rw [List.length_take]; omega)
      have hget : (pkt.take len.toNat).getD i 0 = pkt.getD i 0 := by
        rw [List.getD_eq_getElem?_getD, List.getElem?_take, if_pos (by omega),
          List.getD_eq_getElem?_getD]
      rw [hget] at hs
      rw [List.take_set]
      omega
    have hshort : ((pkt.set i c).take len.toNat).length ≤ 65536 := by
      have := List.length_take_le' len.toNat (pkt.set i c)
      omega
    rw [finish_eq_zero (length_udpPseudo ..) (by rw [words_udpPseudo]; omega) hshort,
      words_udpPseudo]
    constructor
    · rintro ⟨-, hle, hle', hmod⟩
      have hmod := hmod hcsum
      have := hsum hle
      refine .shorter (by rw [hl]; exact hle) (by rw [hl]; omega) ?_
      rw [hl]
      omega
    · rintro (hz | ⟨hle, hlt', hmod⟩)
      · exact absurd hz hcsum
      · rw [hl] at hle hlt' hmod
        have := hsum hle
        exact ⟨by omega, hle, Nat.le_of_lt hlt', fun _ => by omega⟩
  · have hfield' : get16be (pkt.set i c) 4 = get16be pkt 4 :=
      get16be_set_ne (by omega) (by omega)
    have hmod := set_mod_ne hi hne hwords
    rw [hfield', hfield, List.take_of_length_le (by rw [hset]), finish_eq_zero
      (length_udpPseudo ..) (by rw [words_udpPseudo]; omega) (by omega), words_udpPseudo, hfield]
    constructor
    · rintro ⟨-, -, -, hpass⟩
      by_contra hno
      exact hmod (hpass fun hz => hno (.unchecked hz))
    · rintro (hz | ⟨-, hlt', -⟩)
      · exact ⟨by omega, by omega, Nat.le_refl _, fun hc => absurd hz hc⟩
      · rw [hfield', hfield] at hlt'
        exact absurd hlt' (Nat.lt_irrefl _)


/-! ## Segments -/

/-- A segment is a header up to its checksum, the checksum, and what follows. -/
theorem header_segment (x : Tcp.Sent) : ∃ a b : List UInt8, a.length = 16
    ∧ b.length ≤ 6 ∧ ∀ c, x.header c = a ++ (put16be c ++ b) := by
  refine ⟨put16be x.conn.local_port ++ put16be x.conn.remote_port ++ put32be x.conn.snd_nxt
    ++ put32be (if x.flags &&& Tcp.flagAck ≠ 0 then x.conn.rcv_nxt else 0)
    ++ [UInt8.ofNat ((if x.flags &&& Tcp.flagSyn ≠ 0 then Tcp.synHdrLen else Tcp.hdrLenMin) / 4)
      <<< 4, x.flags] ++ put16be (Tcp.recvWindow x.conn),
    put16be 0 ++ if x.flags &&& Tcp.flagSyn ≠ 0 then [2, 4] ++ put16be (UInt16.ofNat Tcp.recvMss)
      else [], by simp, ?_, fun c => ?_⟩
  · rw [List.length_append, length_put16be]
    split
    · simp
    · simp
  · unfold Tcp.Sent.header
    dsimp only
    simp only [List.append_assoc]

/-- What is sent of a segment. -/
structure TcpSent (my_ip : UInt32) (x : Tcp.Sent) : Prop where
  length : (x.bytes my_ip).length ≤ 24 + x.data.length
  sum : x.data.length ≤ Tcp.sendMss →
    (words (Tcp.pseudo my_ip x.conn.remote_ip (x.bytes my_ip).length) + words (x.bytes my_ip))
      % 65535 = 0

theorem length_pseudo (src dst : UInt32) (n : Nat) : (Tcp.pseudo src dst n).length ≤ 12 := by
  unfold Tcp.pseudo
  simp

theorem words_pseudo_pos (src dst : UInt32) (n : Nat) : 0 < words (Tcp.pseudo src dst n) := by
  have h := words_pseudo src dst 6 (UInt16.ofNat n)
  have hsix : (6 : UInt8).toNat = 6 := rfl
  unfold Tcp.pseudo
  omega

theorem tcpSent (my_ip : UInt32) (x : Tcp.Sent) : TcpSent my_ip x := by
  obtain ⟨a, b, ha, hb, hx⟩ := header_segment x
  have hlen : ∀ c, (x.header c ++ x.data).length = 18 + b.length + x.data.length := fun c => by
    rw [hx, List.length_append, List.length_append, List.length_append, length_put16be, ha]
    omega
  constructor
  · unfold Tcp.Sent.bytes
    dsimp only
    rw [hlen]
    omega
  · intro hmss
    have hmss' : x.data.length ≤ 1200 := hmss
    have hshape : ∀ c, x.header c ++ x.data = a ++ (put16be c ++ (b ++ x.data)) := fun c => by
      rw [hx]
      simp only [List.append_assoc]
    have hsame : (x.bytes my_ip).length = (x.header 0 ++ x.data).length := by
      unfold Tcp.Sent.bytes
      dsimp only
      rw [hlen, hlen]
    rw [hsame]
    unfold Tcp.Sent.bytes
    dsimp only
    rw [hshape, hshape]
    refine field_mod (by rw [ha]) (length_pseudo ..) ?_ rfl
    rw [← hshape, hlen]
    omega

theorem checksumOk_iff {src dst : UInt32} (hlt : l.length < 65536) :
    Tcp.checksumOk { src_ip := src, dst_ip := dst, payload := l, payload_lt := hlt } = true
      ↔ (words (Tcp.pseudo src dst l.length) + words l) % 65535 = 0 := by
  unfold Tcp.checksumOk
  rw [decide_eq_true_iff]
  exact finish_eq_zero (length_pseudo ..) (words_pseudo_pos ..) (Nat.le_of_lt hlt)

/-! ## What is sent, and what is made of it -/

/-- **A packet comes back** as it was sent, and a byte of its header that changes is seen. -/
def PacketBack (my_mac dst_mac : Arp.Mac) (my_ip dst_ip : UInt32) (proto : UInt8)
    (payload : List UInt8) : Prop :=
  (∃ h, parse ((sendNow my_mac my_ip dst_ip proto payload dst_mac).drop ethHdrLen)
      = some (parsed my_ip dst_ip proto payload h))
    ∧ ∀ i < hdrLen, ∀ b : UInt8,
      ((sendNow my_mac my_ip dst_ip proto payload dst_mac).drop ethHdrLen).getD i 0 ≠ b →
      (parse (((sendNow my_mac my_ip dst_ip proto payload dst_mac).drop ethHdrLen).set i b) = none
        ↔ ¬ LongHeader i b payload)

/-- **A datagram is delivered** to the listener of its port, and a byte of it that changes is
seen. -/
def DatagramBack {α : Type} (listeners : List (Listener α)) (my_mac dst_mac : Arp.Mac)
    (my_ip dst_ip : UInt32) (src_port dst_port : UInt16) (payload pkt : List UInt8) : Prop :=
  (∃ p, parse ((sendNow my_mac my_ip dst_ip protoUdp pkt dst_mac).drop ethHdrLen) = some p
      ∧ p.proto = protoUdp ∧ udpPasses p.toIpPacket = true
      ∧ udpHandle listeners p.toIpPacket
        = (listeners.find? fun l => l.active ∧ l.port = dst_port).map fun l =>
          { handler := l.handler, src_ip := my_ip, src_port := src_port, data := payload })
    ∧ ∀ i < pkt.length, ∀ b : UInt8, pkt.getD i 0 ≠ b → ∀ h,
      (udpPasses { src_ip := my_ip, dst_ip := dst_ip, payload := pkt.set i b, payload_lt := h }
        = false ↔ ¬ Believed pkt (pkt.set i b))

/-- **A segment passes**, and a byte of it that changes is seen. -/
def SegmentBack (my_mac dst_mac : Arp.Mac) (my_ip : UInt32) (x : Tcp.Sent) : Prop :=
  (∃ p, parse ((sendNow my_mac my_ip x.conn.remote_ip protoTcp (x.bytes my_ip) dst_mac).drop
        ethHdrLen) = some p
      ∧ p.proto = protoTcp ∧ p.payload = x.bytes my_ip ∧ Tcp.checksumOk p.toIpPacket = true)
    ∧ ∀ i < (x.bytes my_ip).length, ∀ b : UInt8, (x.bytes my_ip).getD i 0 ≠ b → ∀ h,
      Tcp.checksumOk {
        src_ip := my_ip, dst_ip := x.conn.remote_ip, payload := (x.bytes my_ip).set i b,
        payload_lt := h } = false

/-- The card's header is not read here. -/
theorem drop_sendNow (my_mac dst_mac : Arp.Mac) (my_ip dst_ip : UInt32) (proto : UInt8)
    (payload : List UInt8) : (sendNow my_mac my_ip dst_ip proto payload dst_mac).drop ethHdrLen
      = buildHeader my_ip dst_ip proto payload.length ++ payload := by
  unfold sendNow
  rw [List.append_assoc]
  refine List.drop_left' ?_
  unfold Arp.macBytes ethHdrLen
  simp

/-- **What is sent is accepted.** -/
theorem sent_accepted :
    (∀ (my_mac dst_mac : Arp.Mac) (my_ip dst_ip : UInt32) (proto : UInt8) (payload : List UInt8),
      payload.length ≤ ethMtu - hdrLen → PacketBack my_mac dst_mac my_ip dst_ip proto payload)
    ∧ (∀ (α : Type) (listeners : List (Listener α)) (my_mac dst_mac : Arp.Mac)
        (my_ip dst_ip : UInt32) (src_port dst_port : UInt16) (payload : List UInt8),
      udpHdrLen + payload.length ≤ ethMtu - hdrLen →
      DatagramBack listeners my_mac dst_mac my_ip dst_ip src_port dst_port payload
        (udpSend my_ip src_port dst_ip dst_port payload))
    ∧ ∀ (my_mac dst_mac : Arp.Mac) (my_ip : UInt32) (x : Tcp.Sent),
      x.data.length ≤ Tcp.sendMss → SegmentBack my_mac dst_mac my_ip x := by
  refine ⟨fun my_mac dst_mac my_ip dst_ip proto payload hn => ?_,
    fun α listeners my_mac dst_mac my_ip dst_ip src_port dst_port payload hn => ?_,
    fun my_mac dst_mac my_ip x hn => ?_⟩
  · unfold PacketBack
    rw [drop_sendNow]
    exact ⟨parse_built my_ip dst_ip proto hn, fun i hi b hne => parse_set hn hi hne⟩
  · have hsent := udpSent_udpSend my_ip dst_ip src_port dst_port hn
    obtain ⟨pkt, hpkt⟩ : ∃ pkt, udpSend my_ip src_port dst_ip dst_port payload = pkt := ⟨_, rfl⟩
    rw [hpkt] at hsent ⊢
    have hlen : pkt.length ≤ ethMtu - hdrLen := by
      rw [hsent.length]
      exact hn
    obtain ⟨hlt, hparse⟩ := parse_built my_ip dst_ip protoUdp hlen
    unfold DatagramBack
    rw [drop_sendNow]
    exact ⟨⟨_, hparse, rfl, hsent.passes hlt, hsent.handle hlt listeners⟩,
      fun i hi b hne h => hsent.set hi hne h⟩
  · have hsent := tcpSent my_ip x
    have hlen : (x.bytes my_ip).length ≤ ethMtu - hdrLen := by
      have := hsent.length
      unfold Tcp.sendMss at hn
      unfold ethMtu hdrLen
      omega
    obtain ⟨hlt, hparse⟩ := parse_built my_ip x.conn.remote_ip protoTcp hlen
    unfold SegmentBack
    rw [drop_sendNow]
    refine ⟨⟨_, hparse, rfl, rfl, (checksumOk_iff hlt).mpr (hsent.sum hn)⟩, fun i hi b hne h => ?_⟩
    rw [← Bool.not_eq_true, checksumOk_iff, List.length_set]
    exact set_mod_ne hi hne (hsent.sum hn)

/-- The address of no card. -/
def noMac : Arp.Mac := fun _ => 0

/-- The first segment of a connection to 10.0.0.1. -/
def firstSyn : Tcp.Sent :=
  { conn := { remote_ip := 0x0A000001, remote_port := 80 }, flags := Tcp.flagSyn, data := [],
    verdict := .sent }

/-- A packet, a datagram for a listener on port 53, and a segment. -/
theorem sent_accepted_each :
    (∃ h, parse ((sendNow noMac 0x0A000002 0x0A000001 1 [65] noMac).drop ethHdrLen)
      = some (parsed 0x0A000002 0x0A000001 1 [65] h))
    ∧ (∃ p, parse ((sendNow noMac 0x0A000002 0x0A000001 protoUdp
          (udpSend 0x0A000002 1024 0x0A000001 53 [65, 66]) noMac).drop ethHdrLen) = some p
        ∧ (udpHandle [⟨68, 1, true⟩, ⟨53, 2, true⟩] p.toIpPacket).map (fun d => (d.handler, d.data))
          = some (2, [65, 66]))
    ∧ ∃ p, parse ((sendNow noMac 0x0A000002 0x0A000001 protoTcp (firstSyn.bytes 0x0A000002)
          noMac).drop ethHdrLen) = some p ∧ Tcp.checksumOk p.toIpPacket = true := by
  refine ⟨(sent_accepted.1 noMac noMac 0x0A000002 0x0A000001 1 [65] (by decide)).1, ?_, ?_⟩
  · obtain ⟨⟨p, hp, -, -, hdata⟩, -⟩ := sent_accepted.2.1 Nat [⟨68, 1, true⟩, ⟨53, 2, true⟩] noMac
      noMac 0x0A000002 0x0A000001 1024 53 [65, 66] (by decide)
    refine ⟨p, hp, ?_⟩
    rw [hdata]
    rfl
  · obtain ⟨⟨p, hp, -, -, hok⟩, -⟩ := sent_accepted.2.2 noMac noMac 0x0A000002 firstSyn (by decide)
    exact ⟨p, hp, hok⟩

/-- A header that is changed to one of 24 bytes is believed, if the first words of the payload are
`0xFEFF` and 0. -/
theorem longer_header_believed : ¬ ∀ (my_mac dst_mac : Arp.Mac) (my_ip dst_ip : UInt32)
    (proto : UInt8) (payload : List UInt8), payload.length ≤ ethMtu - hdrLen →
    ∀ i < hdrLen, ∀ b : UInt8,
      ((sendNow my_mac my_ip dst_ip proto payload dst_mac).drop ethHdrLen).getD i 0 ≠ b →
      parse (((sendNow my_mac my_ip dst_ip proto payload dst_mac).drop ethHdrLen).set i b)
        = none := by
  intro hall
  have hnone := hall noMac noMac 0x0A000002 0x0A000001 1 [0xFE, 0xFF, 0x00, 0x00] (by decide) 0
    (by decide) 0x46 (by decide +kernel)
  have hsome : (parse (((sendNow noMac 0x0A000002 0x0A000001 1 [0xFE, 0xFF, 0x00, 0x00]
      noMac).drop ethHdrLen).set 0 0x46)).isSome = true := by decide +kernel
  rw [hnone] at hsome
  exact nomatch hsome

end Ip
