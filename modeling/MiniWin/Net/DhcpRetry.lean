import Mathlib.Data.List.Induction
import MiniWin.Net.DhcpLease

/-!
# DHCP: retries

An unanswered REQUEST is sent again when its time is up, until the client gives the conversation
up and starts over. `dhcp_tries` counts the retries of the DISCOVER and those of the REQUEST, so
that the former leave less room for the latter.
-/

namespace Dhcp

open Net

/-! ## Runs -/

/-- How often the DISCOVER of a conversation has been sent again, after a poll: a client that waits
for an OFFER and sends something sends it again. -/
def resent (mac : Mac) (e : Env) (k : Nat) (s : St) : Nat :=
  if s.state = .discoverSent then if (poll mac e s).out = s.out then k else k + 1
  else if (poll mac e s).state = .discoverSent then 0 else k

/-- **The runs of the client**, with how often the DISCOVER of the conversation has been sent
again. -/
inductive Conversation (mac : Mac) : Nat → St → Prop where
  | start (e : Env) : Conversation mac 0 (Dhcp.start mac e {})
  | poll {k : Nat} {s : St} (e : Env) (h : Conversation mac k s) :
    Conversation mac (resent mac e k s) (Dhcp.poll mac e s)
  | reply {k : Nat} {s : St} (e : Env) (r : Datagram) (h : Conversation mac k s) :
    Conversation mac k (handleReply mac e r s)

/-- Nothing but polls, one after the other. -/
def polls (mac : Mac) (es : List Env) (s : St) : St := es.foldl (fun s e => poll mac e s) s

/-- The time of the last DISCOVER or REQUEST is up. -/
def due (e : Env) (s : St) : Bool :=
  let interval : UInt32 := if s.tries < 2 then 3 else if s.tries < 4 then 6 else 12
  ¬ (wallElapsed (e.wall 0) s.last_sent_wall < interval
    ∧ ¬ e.net_ticks - s.last_sent_tick > 200000)

/-- The REQUEST of a client that waits for its ACK. -/
def request (mac : Mac) (s : St) : Sent :=
  ⟨0, ip4Broadcast, buildPacket mac s.xid s.ciaddr msgRequest s.offered_ip s.server_id⟩

/-- A new conversation: another `xid` is drawn, and a DISCOVER is sent with it. -/
structure StartsOver (mac : Mac) (e : Env) (s s' : St) : Prop where
  state : s'.state = .discoverSent
  xid : s'.xid = newXid mac e (e.wall 1) s.xid
  out : s'.out = ⟨0, ip4Broadcast, buildPacket mac s'.xid s'.ciaddr msgDiscover 0 0⟩ :: s.out

/-- **The REQUEST is sent again `n` times before the client starts over**, while nothing is
received. -/
structure Repeats (mac : Mac) (n : Nat) (s : St) : Prop where
  /-- As long as the client waits, nothing but the REQUEST is sent, at most `n` times. -/
  again : ∀ es, (polls mac es s).state = .requestSent →
    ∃ k ≤ n, (polls mac es s).out = List.replicate k (request mac s) ++ s.out
  /-- Whenever the time is up, something is sent. -/
  goes : ∀ es e, (polls mac es s).state = .requestSent → due e (polls mac es s) = true →
    (poll mac e (polls mac es s)).out ≠ (polls mac es s).out
  /-- Where it stops waiting, it has been sent again `n` times, and the client starts over. -/
  «over» : ∀ es e, (polls mac es s).state = .requestSent →
    (poll mac e (polls mac es s)).state ≠ .requestSent →
      (polls mac es s).out = List.replicate n (request mac s) ++ s.out
        ∧ StartsOver mac e (polls mac es s) (poll mac e (polls mac es s))

variable {mac : Mac} {e : Env} {s : St} {k n : Nat}

/-! ## One poll -/

/-- A poll of a client that waits for an answer, before the time is up. -/
theorem poll_early (hst : s.state = .discoverSent ∨ s.state = .requestSent)
    (hdue : due e s = false) : poll mac e s = s := by
  unfold due at hdue
  simp only [decide_eq_false_iff_not, not_not] at hdue
  unfold poll
  split
  · rfl
  rw [if_neg (by rcases hst with hst | hst <;> rw [hst] <;> decide)]
  rw [if_neg (by rcases hst with hst | hst <;> rw [hst] <;> decide)]
  exact if_pos (by simpa using hdue)

/-- A poll of a client that waits for an answer, when the time is up. -/
theorem poll_due (hs : s.started = true) (hst : s.state = .discoverSent ∨ s.state = .requestSent)
    (hdue : due e s = true) : poll mac e s = resend mac e s := by
  unfold due at hdue
  rw [decide_eq_true_eq] at hdue
  unfold poll
  rw [if_neg (by simp [hs])]
  rw [if_neg (by rcases hst with hst | hst <;> rw [hst] <;> decide)]
  rw [if_neg (by rcases hst with hst | hst <;> rw [hst] <;> decide)]
  exact if_neg (by simpa using hdue)

theorem resend_discover (hst : s.state = .discoverSent) :
    resend mac e s = sendDiscover mac e (e.wall 1) { s with tries := s.tries + 1 } := by
  unfold resend
  rw [if_pos hst]

theorem resend_request (hst : s.state = .requestSent) (ht : s.tries < 2) :
    resend mac e s
      = sendRequest mac e (e.wall 1) s.offered_ip s.server_id { s with tries := s.tries + 1 } := by
  unfold resend
  rw [if_neg (by rw [hst]; decide), if_pos hst, if_neg (by show ¬ s.tries + 1 ≥ 3; omega)]

theorem resend_over (hst : s.state = .requestSent) (ht : 2 ≤ s.tries) :
    resend mac e s = sendDiscover mac e (e.wall 2)
      { s with xid := newXid mac e (e.wall 1) s.xid, tries := 0 } := by
  unfold resend
  rw [if_neg (by rw [hst]; decide), if_pos hst, if_pos (by show s.tries + 1 ≥ 3; omega)]

/-! ## Waiting for the ACK -/

/-- The client has sent its REQUEST again `k` times since it was in the state `s`. -/
structure Waits (mac : Mac) (s : St) (k : Nat) (s₁ : St) : Prop where
  state : s₁.state = .requestSent
  started : s₁.started = true
  request : request mac s₁ = Dhcp.request mac s
  out : s₁.out = List.replicate k (Dhcp.request mac s) ++ s.out
  tries : s₁.tries = s.tries + k
  few : k ≤ 2 - s.tries

theorem waits_self (hst : s.state = .requestSent) (hs : s.started = true) : Waits mac s 0 s :=
  ⟨hst, hs, rfl, rfl, rfl, Nat.zero_le _⟩

/-- One more, or the client starts over. -/
theorem Waits.poll {s₁ : St} (h : Waits mac s k s₁) (e : Env) :
    (due e s₁ = false ∧ poll mac e s₁ = s₁) ∨
      (due e s₁ = true ∧ k < 2 - s.tries ∧ Waits mac s (k + 1) (Dhcp.poll mac e s₁)) ∨
        due e s₁ = true ∧ k = 2 - s.tries ∧ StartsOver mac e s₁ (Dhcp.poll mac e s₁) := by
  have htries := h.tries
  have hfew := h.few
  cases hdue : due e s₁ with
  | false => exact Or.inl ⟨rfl, poll_early (Or.inr h.state) hdue⟩
  | true =>
    rw [poll_due h.started (Or.inr h.state) hdue]
    by_cases ht : s₁.tries < 2
    · rw [resend_request h.state ht]
      refine Or.inr (Or.inl ⟨rfl, by omega, rfl, h.started, h.request, ?_, ?_, by omega⟩)
      · show Dhcp.request mac s₁ :: s₁.out = _
        rw [h.request, h.out]
        rfl
      · show s₁.tries + 1 = _
        omega
    · rw [resend_over h.state (by omega)]
      exact Or.inr (Or.inr ⟨rfl, by omega, rfl, rfl, rfl⟩)

theorem polls_concat (mac : Mac) (es : List Env) (e : Env) (s : St) :
    polls mac (es ++ [e]) s = poll mac e (polls mac es s) := by
  unfold polls
  rw [List.foldl_append]
  rfl

/-- A client that waits for an OFFER goes on doing so, while nothing is received. -/
theorem poll_discover (hst : s.state = .discoverSent) : (poll mac e s).state = .discoverSent := by
  cases hs : s.started with
  | false =>
    unfold poll
    rw [if_pos (by simp [hs])]
    exact hst
  | true =>
    cases hdue : due e s with
    | false => rw [poll_early (Or.inl hst) hdue, hst]
    | true =>
      rw [poll_due hs (Or.inl hst) hdue, resend_discover hst]
      rfl

/-- **After any polls** the client still waits for its ACK, or has started over. -/
theorem waits_polls (hst : s.state = .requestSent) (hs : s.started = true) (es : List Env) :
    (∃ k, Waits mac s k (polls mac es s)) ∨ (polls mac es s).state = .discoverSent := by
  induction es using List.reverseRecOn with
  | nil => exact Or.inl ⟨0, waits_self hst hs⟩
  | append_singleton es e ih =>
    rw [polls_concat]
    rcases ih with ⟨k, hk⟩ | hd
    · rcases hk.poll e with ⟨-, hp⟩ | ⟨-, -, hp⟩ | ⟨-, -, hp⟩
      · rw [hp]
        exact Or.inl ⟨k, hk⟩
      · exact Or.inl ⟨k + 1, hp⟩
      · exact Or.inr hp.state
    · exact Or.inr (poll_discover hd)

/-- **The REQUEST is sent again as often as the DISCOVER has left room for.** -/
theorem repeats (hst : s.state = .requestSent) (hs : s.started = true) :
    Repeats mac (2 - s.tries) s := by
  have hwait : ∀ es, (polls mac es s).state = .requestSent →
      ∃ k, Waits mac s k (polls mac es s) := fun es hes => by
    rcases waits_polls hst hs es with hk | hd
    · exact hk
    · rw [hd] at hes
      exact nomatch hes
  refine ⟨fun es hes => ?_, fun es e hes hdue => ?_, fun es e hes hne => ?_⟩
  · obtain ⟨k, hk⟩ := hwait es hes
    exact ⟨k, hk.few, hk.out⟩
  · obtain ⟨k, hk⟩ := hwait es hes
    rcases hk.poll e with ⟨hno, -⟩ | ⟨-, -, hp⟩ | ⟨-, -, hp⟩
    · rw [hno] at hdue
      exact nomatch hdue
    · rw [hp.out, hk.out, List.replicate_succ, List.cons_append]
      exact List.cons_ne_self _ _
    · rw [hp.out]
      exact List.cons_ne_self _ _
  · obtain ⟨k, hk⟩ := hwait es hes
    rcases hk.poll e with ⟨-, hp⟩ | ⟨-, -, hp⟩ | ⟨-, hlast, hp⟩
    · exact absurd (by rw [hp, hk.state]) hne
    · exact absurd hp.state hne
    · exact ⟨hlast ▸ hk.out, hp⟩

/-- A reading of the machine at which the time of the last packet is up. -/
theorem exists_due (s : St) : ∃ e, due e s = true := by
  refine ⟨⟨s.last_sent_tick + 200001, fun _ => 0, 0, 0⟩, ?_⟩
  unfold due
  rw [decide_eq_true_eq]
  refine fun hc => hc.2 ?_
  show s.last_sent_tick + 200001 - s.last_sent_tick > 200000
  rw [UInt32.add_comm, UInt32.add_sub_cancel]
  decide

/-- The client does start over. -/
theorem exists_over {k : Nat} {s₁ : St} (h : Waits mac s k s₁) : ∃ es e,
    (polls mac es s₁).state = .requestSent ∧ (poll mac e (polls mac es s₁)).state ≠ .requestSent := by
  obtain ⟨e, he⟩ := exists_due s₁
  rcases h.poll e with ⟨hno, -⟩ | ⟨-, hlt, hp⟩ | ⟨-, -, hp⟩
  · rw [hno] at he
    exact nomatch he
  · obtain ⟨es, e', hes, hne⟩ := exists_over hp
    exact ⟨e :: es, e', hes, hne⟩
  · refine ⟨[], e, h.state, fun hc => ?_⟩
    rw [show polls mac [] s₁ = s₁ from rfl, hp.state] at hc
    exact nomatch hc
termination_by 2 - s.tries - k

/-- There is one number of retries. -/
theorem Repeats.unique {m : Nat} (hst : s.state = .requestSent) (hs : s.started = true)
    (hn : Repeats mac n s) (hm : Repeats mac m s) : n = m := by
  have hwait : Waits mac s 0 s := waits_self hst hs
  obtain ⟨es, e, hes, hne⟩ := exists_over hwait
  have heq := (hn.over es e hes hne).1.symm.trans (hm.over es e hes hne).1
  simpa using congrArg List.length heq

/-! ## The whole conversation -/

/-- A DISCOVER that was sent again has been counted. -/
structure Counted (k : Nat) (s : St) : Prop where
  started : s.started = true
  tries : s.state = .discoverSent → s.tries = k

theorem Counted.ite {c : Prop} [Decidable c] {a b : St} (ha : Counted k a) (hb : Counted k b) :
    Counted k (if c then a else b) := by
  split
  · exact ha
  · exact hb

/-- A reply does not take the client back to `DHCP_STATE_DISCOVER_SENT`. -/
theorem Counted.handleReply (h : Counted k s) (e : Env) (r : Datagram) :
    Counted k (handleReply mac e r s) := by
  unfold Dhcp.handleReply handleOffer handleAck handleNak
  exact h.ite (.ite (h.ite ⟨h.started, fun hc => nomatch hc⟩)
    (.ite (h.ite (h.ite ⟨h.started, fun hc => nomatch hc⟩))
      (.ite (h.ite (.ite ⟨h.started, fun hc => nomatch hc⟩ ⟨h.started, fun hc => nomatch hc⟩)) h)))

theorem leaseTick_counted (mac : Mac) (e : Env) (h : Counted k s) (hst : s.state.holding = true) :
    (leaseTick mac e s).started = true ∧ (leaseTick mac e s).state ≠ .discoverSent := by
  have hne : s.state ≠ .discoverSent := by
    rintro hc
    rw [hc] at hst
    exact nomatch hst
  unfold leaseTick
  split
  · exact ⟨h.started, hne⟩
  split
  · exact ⟨h.started, hne⟩
  dsimp only
  split
  · exact ⟨h.started, hne⟩
  unfold leaseDue
  dsimp only
  split
  · exact ⟨h.started, fun hc => nomatch hc⟩
  split
  · exact ⟨h.started, fun hc => nomatch hc⟩
  split
  · exact ⟨h.started, fun hc => nomatch hc⟩
  split
  · exact ⟨h.started, hne⟩
  · exact ⟨h.started, hne⟩

/-- A poll of a client that does not wait for an OFFER: if it does afterwards, the conversation is a
new one. -/
theorem poll_counted (mac : Mac) (h : Counted k s) (e : Env) (hne : s.state ≠ .discoverSent) :
    (poll mac e s).started = true ∧
      ((poll mac e s).state = .discoverSent → (poll mac e s).tries = 0) := by
  by_cases hr : s.state = .requestSent
  · have hwait : Waits mac s 0 s := waits_self hr h.started
    rcases hwait.poll e with ⟨-, hp⟩ | ⟨-, -, hp⟩ | ⟨hdue, ht, -⟩
    · rw [hp]
      exact ⟨h.started, fun hst => absurd hst hne⟩
    · exact ⟨hp.started, fun hst => State.noConfusion (hst.symm.trans hp.state)⟩
    · rw [poll_due h.started (Or.inr hr) hdue, resend_over hr (by omega)]
      exact ⟨h.started, fun _ => rfl⟩
  unfold poll
  rw [if_neg (by simp [h.started])]
  split
  · next hh =>
    obtain ⟨hs', hne'⟩ := leaseTick_counted mac e h hh
    exact ⟨hs', fun hc => absurd hc hne'⟩
  · next hh =>
    have hi : s.state = .idle := by
      cases hst : s.state with
      | idle => rfl
      | requestSent => exact absurd hst hr
      | discoverSent => exact absurd hst hne
      | bound | renewing | rebinding => rw [hst] at hh; exact absurd rfl hh
    dsimp only
    rw [if_pos hi]
    split
    · exact ⟨h.started, fun _ => rfl⟩
    · exact ⟨h.started, fun hst => absurd hst hne⟩

theorem Counted.poll (h : Counted k s) (e : Env) :
    Counted (resent mac e k s) (poll mac e s) := by
  unfold resent
  by_cases hd : s.state = .discoverSent
  · rw [if_pos hd]
    cases hdue : due e s with
    | false =>
      rw [poll_early (Or.inl hd) hdue, if_pos rfl]
      exact h
    | true =>
      have hne : (sendDiscover mac e (e.wall 1) { s with tries := s.tries + 1 }).out ≠ s.out :=
        List.cons_ne_self _ _
      rw [poll_due h.started (Or.inl hd) hdue, resend_discover hd, if_neg hne]
      exact ⟨h.started, fun _ => congrArg (· + 1) (h.tries hd)⟩
  · obtain ⟨hs', ht⟩ := poll_counted mac h e hd
    rw [if_neg hd]
    refine ⟨hs', fun hst => ?_⟩
    rw [if_pos hst]
    exact ht hst

theorem Conversation.counted (h : Conversation mac k s) : Counted k s := by
  induction h with
  | start e => exact ⟨rfl, fun _ => rfl⟩
  | poll e _ ih => exact ih.poll e
  | reply e r _ ih => exact ih.handleReply e r

/-! ## An accepted OFFER -/

/-- A reply to a client that waits for an OFFER leaves the count of the retries as it is. -/
theorem offer_tries (hd : s.state = .discoverSent) (r : Datagram) :
    (handleReply mac e r s).tries = s.tries := by
  have hask : s.state.asking = false := by
    rw [hd]
    rfl
  unfold handleReply
  split
  · rfl
  split
  · unfold handleOffer
    split
    · rfl
    · rfl
  rw [if_neg (by simp [hask]), if_neg (by simp [hask])]

/-- **The REQUEST is sent again twice exactly if the DISCOVER was not sent again** before the OFFER
came, in every run. -/
theorem repeats_twice_iff (h : Conversation mac k s) (hd : s.state = .discoverSent) (e : Env)
    (r : Datagram) (hacc : (handleReply mac e r s).state = .requestSent) :
    Repeats mac 2 (handleReply mac e r s) ↔ k = 0 := by
  have hs : (handleReply mac e r s).started = true := (h.counted.handleReply e r).started
  have hrep : Repeats mac (2 - (handleReply mac e r s).tries) (handleReply mac e r s) :=
    repeats hacc hs
  rw [offer_tries hd, h.counted.tries hd] at hrep
  constructor
  · intro htwo
    have := htwo.unique hacc hs hrep
    omega
  · rintro rfl
    exact hrep

/-- The first DISCOVER is answered. -/
theorem repeats_twice_iff_first : Repeats firstMac 2 firstRequest ↔ 0 = 0 :=
  repeats_twice_iff (.start (still 0)) rfl (still 1) firstOffer (by decide +kernel)

/-- The DISCOVER is sent again once, and so is the REQUEST. -/
theorem repeats_once :
    ¬ ∀ (mac : Mac) (k : Nat) (s : St) (e : Env) (r : Datagram), Conversation mac k s →
      s.state = .discoverSent → (handleReply mac e r s).state = .requestSent →
        Repeats mac 2 (handleReply mac e r s) := by
  intro h
  let s : St := poll firstMac (still 3) firstDiscover
  have hrun : Conversation firstMac _ s := .poll (still 3) (.start (still 0))
  have htwo := h firstMac _ s (still 4) firstOffer hrun (by decide +kernel) (by decide +kernel)
  obtain ⟨hout, -⟩ := htwo.over [still 7] (still 13) (by decide +kernel) (by decide +kernel)
  exact absurd (congrArg List.length hout) (by decide +kernel)

end Dhcp
