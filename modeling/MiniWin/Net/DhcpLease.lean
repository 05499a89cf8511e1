import Mathlib.Algebra.Group.Nat.Defs
import MiniWin.Net.Dhcp

/-!
# DHCP: the lease

An address is in use exactly while the client holds a lease for it: it is the one the last
accepted ACK granted, and it is gone once the lease has run out. The age of a lease is counted
here without the 32 bits of `dhcp_lease_age`.
-/

namespace Dhcp

open Net

/-! ## Runs -/

/-- An ACK that was accepted, and the client it came to. -/
structure Ack where
  before : St
  reply : Datagram

/-- Only an ACK takes the client to `DHCP_STATE_BOUND`. -/
def Accepts (s s' : St) : Prop := s.state ≠ .bound ∧ s'.state = .bound

/-- **The runs of the client** on a machine with the address `mac`: the ACK that was accepted
last, the seconds `dhcp_lease_tick` has counted since, and the state. -/
inductive Run (mac : Mac) : Option Ack → Nat → St → Prop where
  | start (e : Env) : Run mac none 0 (Dhcp.start mac e {})
  | poll {last : Option Ack} {age : Nat} {s : St} (e : Env) (h : Run mac last age s) :
    Run mac last (age + ((Dhcp.poll mac e s).lease_age - s.lease_age).toNat) (Dhcp.poll mac e s)
  | reply {last : Option Ack} {age : Nat} {s : St} (e : Env) (r : Datagram)
      (h : Run mac last age s) (hno : ¬ Accepts s (handleReply mac e r s)) :
    Run mac last age (handleReply mac e r s)
  | ack {last : Option Ack} {age : Nat} {s : St} (e : Env) (r : Datagram)
      (h : Run mac last age s) (hyes : Accepts s (handleReply mac e r s)) :
    Run mac (some ⟨s, r⟩) 0 (handleReply mac e r s)

/-- The last datagram sent is the request the client waits for an answer to. -/
def Asked (mac : Mac) (s : St) : Prop :=
  match s.state with
  | .requestSent => s.out.head? =
      some ⟨0, ip4Broadcast, buildPacket mac s.xid 0 msgRequest s.offered_ip s.server_id⟩
  | .renewing => s.out.head? =
      some ⟨s.cfg.my_ip, if s.server_id = 0 then ip4Broadcast else s.server_id,
        buildPacket mac s.xid s.cfg.my_ip msgRequest 0 0⟩
  | .rebinding => s.out.head? =
      some ⟨s.cfg.my_ip, ip4Broadcast, buildPacket mac s.xid s.cfg.my_ip msgRequest 0 0⟩
  | _ => True

/-- Outside `DHCP_STATE_REBINDING`, an ACK that names a server names the one that was chosen. -/
def Ack.FromServer (a : Ack) : Prop :=
  a.before.state ≠ .rebinding → ∀ id, option a.reply optServerId = some id → id = a.before.server_id

/-- **What an accepted ACK matches.** -/
structure Ack.Matches (mac : Mac) (a : Ack) : Prop where
  ack : msgType a.reply = msgAck.toUInt32
  asking : a.before.state.asking = true
  xid : get32be a.reply.data 4 = a.before.xid
  chaddr : ∀ i : Fin 6, a.reply.data.getD (28 + i) 0 = mac i
  /-- It grants the address asked for, or the one held. -/
  asked : Asked mac a.before
  address : offeredIp a.reply =
    if a.before.state = .requestSent then a.before.offered_ip else a.before.cfg.my_ip
  /-- When the chosen server is known, the ACK does not name another. -/
  server : a.before.server_id ≠ 0 → a.FromServer

/-- **An address is in use only under its lease.** -/
structure LeaseSafe (mac : Mac) (last : Option Ack) (age : Nat) (s : St) : Prop where
  ready : s.cfg.ready = true ↔ s.state = .bound ∨ s.state = .renewing ∨ s.state = .rebinding
  granted : s.cfg.ready = true →
    ∃ a, last = some a ∧ a.Matches mac ∧ s.cfg.my_ip = offeredIp a.reply
  /-- Once a lease has run out, nothing of it is left until the next ACK. -/
  expired : ∀ a secs, last = some a → option a.reply optLeaseTime = some secs →
    0 < secs.toNat → secs.toNat + 86400 ≤ 2 ^ 32 → secs.toNat ≤ age → s.cfg = ⟨0, 0, 0, 0, false⟩
  /-- An ACK or a NAK that nobody waits for changes nothing. -/
  unasked : ∀ (e : Env) (r : Datagram),
    msgType r = msgAck.toUInt32 ∨ msgType r = msgNak.toUInt32 →
    s.state ≠ .requestSent ∧ s.state ≠ .renewing ∧ s.state ≠ .rebinding →
    handleReply mac e r s = s

/-! ## What holds in every run -/

/-- **The state, the configuration and the lease belong together.** -/
structure Leased (mac : Mac) (last : Option Ack) (age : Nat) (s : St) : Prop where
  ciaddr : s.ciaddr = 0
  ready : s.cfg.ready = s.state.holding
  down : s.state.holding = false → s.cfg = ⟨0, 0, 0, 0, false⟩
  offered : s.state = .requestSent → s.offered_ip ≠ 0
  asked : Asked mac s
  /-- The ACK of the lease. -/
  granted : s.state.holding = true → ∃ a, last = some a ∧ s.cfg.my_ip = offeredIp a.reply
    ∧ s.lease_secs = (option a.reply optLeaseTime).getD 0 ∧ s.cfg.my_ip ≠ 0
  valid : ∀ a, last = some a → a.Matches mac
  /-- A lease that can run out has not. -/
  running : s.state.holding = true → s.lease_secs ≠ 0 → s.lease_secs.toNat + 86400 ≤ 2 ^ 32 →
    age = s.lease_age.toNat ∧ s.lease_age.toNat < s.lease_secs.toNat

section
variable {mac : Mac} {last : Option Ack} {age : Nat} {s : St}

theorem Leased.sendDiscover (h : Leased mac last age s) (hs : s.state.holding = false) (e : Env)
    (now xid : UInt32) (tries : Nat) :
    Leased mac last age (Dhcp.sendDiscover mac e now { s with xid := xid, tries := tries }) where
  ciaddr := h.ciaddr
  ready := h.ready.trans hs
  down _ := h.down hs
  offered hst := State.noConfusion hst
  asked := trivial
  granted hst := absurd hst Bool.false_ne_true
  valid := h.valid
  running hst := absurd hst Bool.false_ne_true

theorem Leased.sendRequest (h : Leased mac last age s) (hs : s.state.holding = false) (e : Env)
    (now : UInt32) {requested_ip server_id : UInt32} (hne : requested_ip ≠ 0) (tries : Nat) :
    Leased mac last age (Dhcp.sendRequest mac e now requested_ip server_id
      { s with offered_ip := requested_ip, server_id := server_id, tries := tries }) where
  ciaddr := h.ciaddr
  ready := h.ready.trans hs
  down _ := h.down hs
  offered _ := hne
  asked := by
    show some _ = _
    rw [h.ciaddr]
    rfl
  granted hst := absurd hst Bool.false_ne_true
  valid := h.valid
  running hst := absurd hst Bool.false_ne_true

/-- A request to extend the lease, out of a state that holds the address. -/
theorem Leased.sendExtension (h : Leased mac last age s) (hs : s.state.holding = true) (e : Env)
    (now xid : UInt32) {st : State} {broadcast : Bool}
    (hst : st = if broadcast then .rebinding else .renewing) :
    Leased mac last age
      (Dhcp.sendExtension mac e now broadcast { s with state := st, xid := xid }) where
  ciaddr := rfl
  ready := by
    rw [hst]
    cases broadcast <;> exact h.ready.trans hs
  down hdown := by
    rw [hst] at hdown
    cases broadcast <;> exact absurd hdown.symm Bool.false_ne_true
  offered hreq := by
    rw [hst] at hreq
    cases broadcast <;> exact State.noConfusion hreq
  asked := by
    rw [hst]
    cases broadcast <;> simp [Asked, Dhcp.sendExtension]
  granted _ := h.granted hs
  valid := h.valid
  running _ := h.running hs

/-- What the lease clock read does not outlive the lease. -/
theorem Leased.dropLease (h : Leased mac last age s) (e : Env) (now : UInt32) (age' : Nat)
    (lease_age lease_mark : UInt32) :
    Leased mac last age'
      (Dhcp.dropLease e now { s with lease_age := lease_age, lease_mark := lease_mark }) where
  ciaddr := rfl
  ready := rfl
  down _ := rfl
  offered hst := State.noConfusion hst
  asked := trivial
  granted hst := absurd hst Bool.false_ne_true
  valid := h.valid
  running hst := absurd hst Bool.false_ne_true

/-! ### The clock -/

theorem wallElapsed_lt (now since : UInt32) : (wallElapsed now since).toNat < 86400 := by
  unfold wallElapsed
  rw [UInt32.toNat_mod]
  exact Nat.mod_lt _ (by decide)

/-- **The lease grows older by what the clock says, and is given up in time.** -/
theorem Leased.leaseDue (h : Leased mac last age s) (hs : s.state.holding = true) (e : Env) {d : UInt32} (hd : d.toNat < 86400) (mark : UInt32) :
    Leased mac last (age + d.toNat)
      (Dhcp.leaseDue mac e { s with lease_age := s.lease_age + d, lease_mark := mark }) := by
  unfold Dhcp.leaseDue
  dsimp only
  split
  · exact h.dropLease e _ _ _ _
  next hlt =>
  have hyoung : (s.lease_age + d).toNat < s.lease_secs.toNat :=
    UInt32.lt_iff_toNat_lt.mp (UInt32.not_le.mp hlt)
  have hnow : Leased mac last (age + d.toNat)
      { s with lease_age := s.lease_age + d, lease_mark := mark } :=
    { h with
      running := fun hs' hne hle => by
        obtain ⟨hage, hold⟩ := h.running hs' hne hle
        have hle : s.lease_secs.toNat + 86400 ≤ 2 ^ 32 := hle
        refine ⟨?_, hyoung⟩
        show age + d.toNat = (s.lease_age + d).toNat
        rw [UInt32.toNat_add, Nat.mod_eq_of_lt (by omega), hage] }
  split
  · exact hnow.sendExtension hs e _ _ rfl
  split
  · exact hnow.sendExtension hs e _ _ rfl
  split
  · next hst =>
    exact hnow.sendExtension hs e _ s.xid (by rcases hst.1 with hr | hr <;> rw [hr] <;> rfl)
  · exact hnow

theorem Leased.leaseTick (h : Leased mac last age s) (hs : s.state.holding = true) (e : Env) :
    Leased mac last (age + ((Dhcp.leaseTick mac e s).lease_age - s.lease_age).toNat)
      (Dhcp.leaseTick mac e s) := by
  have hsame : age + (s.lease_age - s.lease_age).toNat = age := by rw [UInt32.sub_self]; rfl
  unfold Dhcp.leaseTick
  dsimp only
  split
  · rw [hsame]; exact h
  split
  · rw [hsame]; exact h
  split
  · rw [hsame]; exact { h with }
  have hd := wallElapsed_lt (e.wall 0) s.lease_mark
  generalize wallElapsed (e.wall 0) s.lease_mark = d at hd ⊢
  have htick : Leased mac last age { s with lease_tick_mark := e.net_ticks } := { h with }
  have hdue := htick.leaseDue hs e hd (e.wall 1)
  have hage : ∀ t : St, (Dhcp.leaseDue mac e t).lease_age = t.lease_age := by
    intro t
    unfold Dhcp.leaseDue
    dsimp only
    split_ifs <;> rfl
  have hsub : s.lease_age + d - s.lease_age = d := by grind
  rw [hage, hsub]
  exact hdue

theorem Leased.resend (h : Leased mac last age s) (hs : s.state.holding = false) (e : Env) :
    Leased mac last age (Dhcp.resend mac e s)
      ∧ (Dhcp.resend mac e s).lease_age = s.lease_age := by
  unfold Dhcp.resend
  dsimp only
  split
  · exact ⟨h.sendDiscover hs e _ s.xid _, rfl⟩
  split
  swap
  · exact ⟨{ h with }, rfl⟩
  next hreq =>
  split
  · exact ⟨h.sendDiscover hs e _ _ _, rfl⟩
  · exact ⟨h.sendRequest hs e _ (h.offered hreq) _, rfl⟩

theorem Leased.poll (h : Leased mac last age s) (e : Env) :
    Leased mac last (age + ((Dhcp.poll mac e s).lease_age - s.lease_age).toNat)
      (Dhcp.poll mac e s) := by
  have hsame : age + (s.lease_age - s.lease_age).toNat = age := by rw [UInt32.sub_self]; rfl
  unfold Dhcp.poll
  split
  · rw [hsame]; exact h
  split
  · next hs => exact h.leaseTick hs e
  next hs =>
  have hs : s.state.holding = false := Bool.eq_false_iff.mpr hs
  dsimp only
  split
  · split
    · refine hsame.symm ▸ ?_
      exact h.sendDiscover hs e _ _ _
    · rw [hsame]; exact h
  next hidle =>
  generalize (if s.tries < 2 then 3 else if s.tries < 4 then 6 else 12 : UInt32) = interval
  split
  · rw [hsame]; exact h
  · obtain ⟨hresend, hage⟩ := h.resend hs e
    rw [hage, hsame]
    exact hresend

/-! ### Replies -/

theorem Leased.handleOffer (h : Leased mac last age s) (hst : s.state = .discoverSent) (e : Env)
    (r : Datagram) : Leased mac last age (Dhcp.handleOffer mac e r s) := by
  unfold Dhcp.handleOffer
  split
  · exact h
  · next hip =>
    exact h.sendRequest (by rw [hst]; rfl) e _ (fun hc => hip (Or.inl hc)) s.tries

theorem Leased.handleNak (h : Leased mac last age s) (e : Env) (r : Datagram) : Leased mac last age (Dhcp.handleNak e r s) := by
  unfold Dhcp.handleNak
  split
  · exact h
  split
  · next hreq =>
    have hs : s.state.holding = false := by rw [hreq]; rfl
    exact
      { ciaddr := h.ciaddr
        ready := h.ready.trans hs
        down := fun _ => h.down hs
        offered := fun hc => State.noConfusion hc
        asked := trivial
        granted := fun hc => absurd hc Bool.false_ne_true
        valid := h.valid
        running := fun hc => absurd hc Bool.false_ne_true }
  · exact h.dropLease e _ age s.lease_age s.lease_mark

/-- **An ACK is ignored, or it matches what the client waits for and starts a lease.** -/
theorem Leased.handleAck (h : Leased mac last age s) {r : Datagram} (hus : forUs mac s.xid r = true)
    (htype : msgType r = msgAck.toUInt32) (hst : s.state.asking = true) (e : Env) :
    Dhcp.handleAck e r s = s ∨ Accepts s (Dhcp.handleAck e r s)
      ∧ Leased mac (some ⟨s, r⟩) 0 (Dhcp.handleAck e r s) := by
  unfold Dhcp.handleAck
  dsimp only
  split
  · exact Or.inl rfl
  next hserver =>
  generalize hexp : (if s.state ≠ .requestSent then s.cfg.my_ip else s.offered_ip) = expect_ip
  split
  · exact Or.inl rfl
  next hip =>
  obtain ⟨hzero, hexpect⟩ := not_or.mp hip
  have hbound : s.state ≠ .bound := by
    intro hb
    rw [hb] at hst
    exact absurd hst (by decide)
  refine Or.inr ⟨⟨hbound, rfl⟩, ?_⟩
  unfold forUs at hus
  obtain ⟨-, -, -, -, -, -, hxid, hchaddr⟩ := of_decide_eq_true hus
  -- a client that waits for an ACK knows the address it must grant
  have hknown : expect_ip ≠ 0 := by
    rw [← hexp]
    split
    · next hne =>
      have hs : s.state.holding = true := by
        rcases of_decide_eq_true hst with hr | hr | hr
        · exact absurd hr hne
        · rw [hr]; rfl
        · rw [hr]; rfl
      obtain ⟨a, -, -, -, hmy⟩ := h.granted hs
      exact hmy
    · next hreq => exact h.offered (not_not.mp hreq)
  have haddress := not_not.mp (not_and.mp hexpect hknown)
  have hmatches : Ack.Matches mac ⟨s, r⟩ :=
    { ack := htype
      asking := hst
      xid := hxid
      chaddr := hchaddr
      asked := h.asked
      address := by
        rw [haddress, ← hexp]
        exact ite_not _ _ _
      server := fun hne hreb id hid => by
        unfold otherServer at hserver
        rw [show option r optServerId = some id from hid] at hserver
        by_contra hother
        exact hserver (decide_eq_true ⟨hreb, hne, hother⟩) }
  exact
    { ciaddr := rfl
      ready := rfl
      down := fun hc => absurd hc.symm Bool.false_ne_true
      offered := fun hc => State.noConfusion hc
      asked := trivial
      granted := fun _ => ⟨_, rfl, rfl, rfl, hzero⟩
      valid := fun a ha => Option.some.inj ha ▸ hmatches
      running := fun _ hne _ => ⟨rfl, UInt32.lt_iff_toNat_lt.mp (UInt32.pos_iff_ne_zero.mpr hne)⟩ }

/-- **What a reply can do.** -/
theorem Leased.handleReply (h : Leased mac last age s) (e : Env) (r : Datagram) :
    Leased mac last age (Dhcp.handleReply mac e r s) ∧ ¬ Accepts s (Dhcp.handleReply mac e r s)
      ∨ Accepts s (Dhcp.handleReply mac e r s)
        ∧ Leased mac (some ⟨s, r⟩) 0 (Dhcp.handleReply mac e r s) := by
  have hsame : ¬ Accepts s s := fun ha => ha.1 ha.2
  unfold Dhcp.handleReply
  split
  · exact Or.inl ⟨h, hsame⟩
  next hus =>
  split
  · next hst =>
    refine Or.inl ⟨h.handleOffer hst.2 e r, ?_⟩
    unfold Dhcp.handleOffer
    split
    · exact hsame
    · exact fun ha => State.noConfusion ha.2
  split
  · next hst =>
    rcases h.handleAck (Decidable.not_not.mp hus) hst.1 hst.2 e with hno | hyes
    · rw [hno]; exact Or.inl ⟨h, hsame⟩
    · exact Or.inr hyes
  split
  · next hst =>
    refine Or.inl ⟨h.handleNak e r, ?_⟩
    unfold Dhcp.handleNak
    split
    · exact hsame
    split
    · exact fun ha => State.noConfusion ha.2
    · exact fun ha => State.noConfusion ha.2
  · exact Or.inl ⟨h, hsame⟩

/-- **In every run the state, the configuration and the lease belong together.** -/
theorem Run.leased (h : Run mac last age s) : Leased mac last age s := by
  induction h with
  | start e =>
    exact
      { ciaddr := rfl
        ready := rfl
        down := fun _ => rfl
        offered := fun hst => State.noConfusion hst
        asked := trivial
        granted := fun hst => absurd hst Bool.false_ne_true
        valid := fun _ ha => nomatch ha
        running := fun hst => absurd hst Bool.false_ne_true }
  | poll e _ ih => exact ih.poll e
  | reply e r _ hno ih => exact ((ih.handleReply e r).resolve_right fun hc => hno hc.1).1
  | ack e r _ hyes ih => exact ((ih.handleReply e r).resolve_left fun hc => hc.2 hyes).2

end

theorem State.holding_iff (st : State) :
    st.holding = true ↔ st = .bound ∨ st = .renewing ∨ st = .rebinding := by
  cases st <;> decide

/-- **An address is in use only under its lease**, in every run. -/
theorem lease_safe {mac : Mac} {last : Option Ack} {age : Nat} {s : St} (h : Run mac last age s) :
    LeaseSafe mac last age s := by
  have hl := h.leased
  refine ⟨hl.ready ▸ State.holding_iff s.state, fun hready => ?_, ?_, ?_⟩
  · obtain ⟨a, ha, hip, -⟩ := hl.granted (hl.ready ▸ hready)
    exact ⟨a, ha, hl.valid a ha, hip⟩
  · intro a secs ha hopt hpos hfinite hage
    by_contra hcfg
    have hs : s.state.holding = true := by
      by_contra hno
      exact hcfg (hl.down (Bool.eq_false_iff.mpr hno))
    obtain ⟨a', ha', -, hsecs, -⟩ := hl.granted hs
    obtain rfl := Option.some.inj (ha.symm.trans ha')
    rw [hopt, Option.getD_some] at hsecs
    obtain ⟨heq, hlt⟩ := hl.running hs
      (by rw [hsecs]; rintro rfl; exact Nat.lt_irrefl _ hpos) (by rw [hsecs]; exact hfinite)
    rw [hsecs] at hlt
    omega
  · intro e r htype hst
    have hask : ¬ s.state.asking = true := fun hc => by
      rcases of_decide_eq_true hc with hr | hr | hr
      · exact hst.1 hr
      · exact hst.2.1 hr
      · exact hst.2.2 hr
    have hoffer : msgType r ≠ msgOffer.toUInt32 := by
      rcases htype with ht | ht <;> rw [ht] <;> decide
    unfold handleReply
    split
    · rfl
    rw [if_neg fun hc => hoffer hc.1, if_neg fun hc => hask hc.2, if_neg fun hc => hask hc.2]

/-! ### A conversation -/

def firstMac : Mac := fun i => #[0x52, 0x54, 0, 0x12, 0x34, 0x56].getD i 0

/-- A clock that reads `now` all the time. -/
def still (now : UInt32) : Env := ⟨100 * now, fun _ => now, 7, 0⟩

def firstDiscover : St := start firstMac (still 0) {}

/-- The reply of a server to `s`, with the option list `opts`. -/
def serverReply (src_ip your_ip : UInt32) (opts : List UInt8) (s : St) : Datagram where
  src_ip := src_ip
  src_port := serverPort
  data := (([2, 1, 6, 0] ++ put32be s.xid ++ List.replicate 8 0 ++ put32be your_ip
    ++ List.replicate 8 0 ++ (List.finRange 6).map firstMac ++ List.replicate (fixedLen - 34) 0
    ++ put32be magicCookie ++ opts).take 1024)
  data_le := Nat.le_trans (List.length_take_le _ _) (by decide)

/-- A server offers `10.0.2.15`, and acknowledges it for 100 seconds. -/
def firstOffer : Datagram :=
  serverReply 0x0A000202 0x0A00020F [53, 1, 2, 54, 4, 10, 0, 2, 2, 255] firstDiscover

def firstRequest : St := handleReply firstMac (still 1) firstOffer firstDiscover

def firstAck : Datagram :=
  serverReply 0x0A000202 0x0A00020F
    [53, 1, 5, 54, 4, 10, 0, 2, 2, 51, 4, 0, 0, 0, 100, 1, 4, 255, 255, 255, 0, 255] firstRequest

def firstBound : St := handleReply firstMac (still 2) firstAck firstRequest

/-- The lease of 100 seconds is held, and 120 seconds later it is gone. -/
theorem lease_safe_expired :
    firstBound.cfg = ⟨0x0A00020F, 0xFFFFFF00, 0, 0, true⟩
    ∧ (poll firstMac (still 122) firstBound).cfg = ⟨0, 0, 0, 0, false⟩
    ∧ LeaseSafe firstMac (some ⟨firstRequest, firstAck⟩) 120
        (poll firstMac (still 122) firstBound) := by
  have hreq : Run firstMac none 0 firstRequest :=
    (Run.start (still 0)).reply (still 1) firstOffer (by
      intro ha
      exact absurd ha.2 (by decide +kernel))
  have hbound : Run firstMac (some ⟨firstRequest, firstAck⟩) 0 firstBound :=
    hreq.ack (still 2) firstAck ⟨by decide +kernel, by decide +kernel⟩
  have hage : 0 + ((poll firstMac (still 122) firstBound).lease_age - firstBound.lease_age).toNat
      = 120 := by decide +kernel
  have hsafe := lease_safe (hbound.poll (still 122))
  rw [hage] at hsafe
  exact ⟨by decide +kernel, by decide +kernel, hsafe⟩

/-- An offer that names the server `0.0.0.0` leaves the chosen server unknown, and the ACK of any
server is accepted. -/
theorem ack_of_any_server :
    ¬ ∀ (mac : Mac) (last : Option Ack) (age : Nat) (s : St),
      Run mac last age s → ∀ a, last = some a → a.FromServer := by
  intro h
  let offer : Datagram :=
    serverReply 0x0A000202 0x0A00020F [53, 1, 2, 54, 4, 0, 0, 0, 0, 255] firstDiscover
  let s : St := handleReply firstMac (still 1) offer firstDiscover
  let r : Datagram := serverReply 0x0A0002FE 0x0A00020F [53, 1, 5, 54, 4, 10, 0, 2, 254, 255] s
  have hreq : Run firstMac none 0 s :=
    (Run.start (still 0)).reply (still 1) offer (fun ha => absurd ha.2 (by decide +kernel))
  have hack := hreq.ack (still 2) r ⟨by decide +kernel, by decide +kernel⟩
  have hfrom := h _ _ _ _ hack _ rfl (by decide +kernel) 0x0A0002FE (by decide +kernel)
  exact absurd hfrom (by decide +kernel)

end Dhcp
