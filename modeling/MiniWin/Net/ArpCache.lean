import Mathlib.Algebra.GroupWithZero.Nat
import Mathlib.Data.List.Induction
import MiniWin.Net.Arp

/-!
# ARP: who is believed

No address has two entries, and an entry is resolved only by an answer to a question of ours or by
a question to us while its sender is unknown. What is resolved stays as it is until the entry goes
to another address or is asked for again.
-/

namespace Arp

open Net

local instance neZero_cacheSize : NeZero cacheSize := ⟨by decide⟩

/-! ## Runs -/

/-- What happens to the cache: a frame comes in, or `arp_send_request` is called. -/
inductive Event where
  | frame (f : List UInt8)
  | ask (sender_ip target_ip : UInt32)

def step (s : St) (x : Env × Event) : St :=
  match x.2 with
  | .frame f => (handleFrame x.1 f s).2
  | .ask sender_ip target_ip => sendRequest x.1 sender_ip target_ip s

/-- Events one after the other. -/
def run (s : St) (xs : List (Env × Event)) : St := xs.foldl step s

/-- **The states the cache gets into.** -/
def Reached (s : St) : Prop := ∃ xs, s = run {} xs

/-- The entry is one for the address. -/
def Entry.For (a : Entry) (ip : UInt32) : Prop := a.state ≠ .empty ∧ a.ip = ip

instance (a : Entry) (ip : UInt32) : Decidable (a.For ip) := inferInstanceAs (Decidable (_ ∧ _))

/-- No two entries are for one address. -/
def Distinct (s : St) : Prop :=
  ∀ i j ip, (s.cache i).For ip → (s.cache j).For ip → i = j

/-- A reply to us, while the address is asked for. -/
structure Answered (s : St) (x : Env × Event) (i : Fin cacheSize) (f : List UInt8) : Prop where
  event : x.2 = .frame f
  opcode : Arp.opcode f = 2
  ip : targetIp f = x.1.my_ip
  mac : targetMac f = x.1.mac
  pending : (s.cache i).ip = senderIp f ∧ (s.cache i).state = .pending

/-- A request for our address, of a sender that has no entry, while there is a free slot. -/
structure AskedUs (s : St) (x : Env × Event) (i : Fin cacheSize) (f : List UInt8) : Prop where
  event : x.2 = .frame f
  opcode : Arp.opcode f = 1
  ip : x.1.ready = true ∧ targetIp f = x.1.my_ip
  unknown : ∀ j, ¬ (s.cache j).For (senderIp f)
  free : (s.cache i).state = .empty

/-- The slot `arp_send_request` takes: that of the address, a free one, or the first. -/
def Takes (s : St) (ip : UInt32) (i : Fin cacheSize) : Prop :=
  (s.cache i).For ip ∨ (∀ j, ¬ (s.cache j).For ip) ∧
    ((s.cache i).state = .empty ∨ i = 0 ∧ ∀ j, (s.cache j).state ≠ .empty)

/-- **What an event can do to the cache.** -/
inductive Change (s : St) (x : Env × Event) : (Fin cacheSize → Entry) → Prop
  | none : Change s x s.cache
  | ask {sender_ip ip : UInt32} {i : Fin cacheSize} {a : Entry} (hx : x.2 = .ask sender_ip ip)
    (hi : Takes s ip i) (ha : a.ip = ip ∧ a.state = .pending) :
    Change s x (Function.update s.cache i a)
  | answered {i : Fin cacheSize} {f : List UInt8} (h : Answered s x i f) :
    Change s x (Function.update s.cache i (sender f))
  | askedUs {i : Fin cacheSize} {f : List UInt8} (h : AskedUs s x i f) :
    Change s x (Function.update s.cache i (sender f))

variable {s : St} {x : Env × Event} {ip : UInt32} {i j : Fin cacheSize}

/-! ## One event -/

/-- A search through the slots. -/
theorem find_slot {p : Fin cacheSize → Prop} [DecidablePred p]
    (h : (List.finRange cacheSize).find? (fun i => decide (p i)) = some i) : p i := by
  simpa using List.find?_some h

theorem find_no_slot {p : Fin cacheSize → Prop} [DecidablePred p]
    (h : (List.finRange cacheSize).find? (fun i => decide (p i)) = none) (j : Fin cacheSize) :
    ¬ p j := by
  simpa using List.find?_eq_none.mp h j (List.mem_finRange j)

theorem takes_slot (s : St) (ip : UInt32) : Takes s ip (findOrAllocSlot s ip) := by
  unfold findOrAllocSlot
  split
  · next i hi => exact Or.inl (find_slot hi)
  · next hnone =>
    refine Or.inr ⟨find_no_slot hnone, ?_⟩
    cases hfree : (List.finRange cacheSize).find? fun i => decide ((s.cache i).state = .empty) with
    | some i => exact Or.inl (find_slot hfree)
    | none => exact Or.inr ⟨rfl, find_no_slot hfree⟩

/-- A cache that is not set up yet is empty. -/
def Fresh (s : St) : Prop := s.initialized = false → ∀ i, (s.cache i).state = .empty

theorem Fresh.ready (h : Fresh s) : s.ready.cache = s.cache ∧ s.ready.initialized = true := by
  unfold St.ready
  split
  · next hi => exact ⟨rfl, hi⟩
  · next hi =>
    refine ⟨funext fun i => ?_, rfl⟩
    show { s.cache i with state := .empty } = s.cache i
    rw [← h (by simpa using hi) i]

theorem sendReply_cache (e : Env) (my_ip : UInt32) (mac : Mac) (ip : UInt32) (s : St) :
    (sendReply e my_ip mac ip s).cache = s.cache ∧
      (sendReply e my_ip mac ip s).initialized = s.initialized := by
  unfold sendReply
  split
  · exact ⟨rfl, rfl⟩
  · exact ⟨rfl, rfl⟩

theorem change_reply {f : List UInt8} (hx : x.2 = .frame f) (hop : opcode f = 2) :
    Change s x (handleReply x.1 f s).cache := by
  unfold handleReply
  split
  · exact .none
  · next hip =>
    split
    · exact .none
    · next hmac =>
      split
      · exact .none
      · next slot hslot =>
        exact .answered ⟨hx, hop, not_not.mp hip, not_not.mp hmac, find_slot hslot⟩

theorem change_request {f : List UInt8} (hx : x.2 = .frame f) (hop : opcode f = 1)
    (hip : x.1.ready = true ∧ targetIp f = x.1.my_ip) :
    Change s x (handleRequest x.1 f s).cache := by
  unfold handleRequest
  dsimp only
  rw [(sendReply_cache _ _ _ _ _).1]
  split
  · next slot hold hfree =>
    rw [List.getLast?_eq_none_iff, List.filter_eq_nil_iff] at hold
    refine .askedUs ⟨hx, hop, hip, fun j hj => ?_, find_slot hfree⟩
    exact hold j (List.mem_finRange j) (decide_eq_true hj)
  · exact .none

/-- **Every event changes the cache in one of these ways.** -/
theorem change_step (h : Fresh s) (x : Env × Event) : Change s x (step s x).cache := by
  obtain ⟨e, ev⟩ := x
  unfold step
  cases ev with
  | ask sender_ip ip =>
    dsimp only
    unfold sendRequest
    split
    · exact .none
    · have htake := takes_slot s.ready ip
      dsimp only
      rw [h.ready.1]
      unfold Takes at htake
      rw [h.ready.1] at htake
      exact .ask rfl htake ⟨rfl, rfl⟩
  | frame f =>
    dsimp only
    unfold handleFrame
    split
    · exact .none
    split
    · exact .none
    have hready : ∀ {c}, Change s.ready (e, .frame f) c → Change s (e, .frame f) c := fun hc => by
      have heq := h.ready.1
      cases hc with
      | none => rw [heq]; exact .none
      | ask hx => exact nomatch hx
      | answered ha =>
        rw [heq]
        exact .answered { ha with pending := heq ▸ ha.pending }
      | askedUs ha =>
        rw [heq]
        exact .askedUs { ha with unknown := heq ▸ ha.unknown, free := heq ▸ ha.free }
    dsimp only
    refine hready ?_
    split
    · exact .none
    · next hchk =>
      split
      · next hop => exact change_reply rfl hop
      · next hop =>
        have hone : opcode f = 1 := by
          have := of_decide_eq_true (not_not.mp hchk)
          exact this.2.2.2.2.1.resolve_right hop
        split
        · next hip => exact change_request rfl hone hip
        · exact .none

/-! ## Runs of events -/

/-- The invariant of the runs. -/
structure Sound (s : St) : Prop where
  fresh : Fresh s
  distinct : Distinct s

/-- An entry for an address that has no other. -/
theorem Distinct.update {a : Entry} (h : Distinct s) {c : Fin cacheSize → Entry}
    (hc : c = Function.update s.cache i a)
    (hother : ∀ j, j ≠ i → ∀ ip, a.For ip → ¬ (s.cache j).For ip) :
    ∀ j k ip, (c j).For ip → (c k).For ip → j = k := by
  subst hc
  intro j k ip hj hk
  by_cases hji : j = i
  · subst hji
    by_contra hkj
    rw [Function.update_self] at hj
    rw [Function.update_of_ne (Ne.symm hkj)] at hk
    exact hother k (Ne.symm hkj) ip hj hk
  · rw [Function.update_of_ne hji] at hj
    by_cases hki : k = i
    · subst hki
      rw [Function.update_self] at hk
      exact absurd hj (hother j hji ip hk)
    · rw [Function.update_of_ne hki] at hk
      exact h j k ip hj hk

theorem Change.distinct {c : Fin cacheSize → Entry} (hs : Distinct s) (h : Change s x c) :
    ∀ j k ip, (c j).For ip → (c k).For ip → j = k := by
  cases h with
  | none => exact hs
  | ask hx hi ha =>
    rename_i sender_ip ip i a
    refine hs.update rfl fun j hj ip' hfor hold => ?_
    obtain rfl := ha.1.symm.trans hfor.2
    rcases hi with hi | ⟨hno, -⟩
    · exact hj (hs j i _ hold hi)
    · exact hno j hold
  | answered ha =>
    refine hs.update rfl fun j hj ip hfor hold => hj (hs j _ _ hold ⟨?_, ?_⟩)
    · rw [ha.pending.2]
      exact fun hc => nomatch hc
    · exact ha.pending.1.trans hfor.2
  | askedUs ha =>
    refine hs.update rfl fun j _ ip hfor hold => ha.unknown j ⟨hold.1, hold.2.trans ?_⟩
    exact hfor.2.symm

/-- A cache that has not been set up has not been used. -/
theorem Fresh.step (h : Fresh s) (x : Env × Event) : Fresh (step s x) := by
  have hready : s.ready.initialized = true := h.ready.2
  have hkeep : ∀ {s' : St}, s'.initialized = true → Fresh s' := fun hs' hc => by
    rw [hs'] at hc
    exact nomatch hc
  obtain ⟨e, ev⟩ := x
  unfold Arp.step
  cases ev with
  | ask sender_ip ip =>
    dsimp only
    unfold sendRequest
    split
    · exact h
    · exact hkeep hready
  | frame f =>
    dsimp only
    unfold handleFrame
    split
    · exact h
    split
    · exact h
    dsimp only
    split
    · exact hkeep hready
    split
    · refine hkeep ?_
      unfold handleReply
      split
      · exact hready
      split
      · exact hready
      split
      · exact hready
      · exact hready
    split
    · refine hkeep ?_
      unfold handleRequest
      dsimp only
      rw [(sendReply_cache _ _ _ _ _).2]
      split
      · exact hready
      · exact hready
    · exact hkeep hready

theorem Sound.step (h : Sound s) (x : Env × Event) : Sound (step s x) :=
  ⟨h.fresh.step x, (change_step h.fresh x).distinct h.distinct⟩

theorem run_concat (s : St) (xs : List (Env × Event)) (x : Env × Event) :
    run s (xs ++ [x]) = step (run s xs) x := by
  unfold run
  rw [List.foldl_append]
  rfl

theorem Sound.run (h : Sound s) (xs : List (Env × Event)) : Sound (run s xs) := by
  induction xs using List.reverseRecOn with
  | nil => exact h
  | append_singleton xs x ih =>
    rw [run_concat]
    exact ih.step x

theorem Reached.sound (h : Reached s) : Sound s := by
  obtain ⟨xs, rfl⟩ := h
  exact Sound.run ⟨fun _ _ => rfl, fun i j ip hi => absurd rfl hi.1⟩ xs

/-! ## What is resolved -/

/-- **How an entry becomes a resolved one**: it is one already, or a reply or a request has made it
one. -/
def Learned (s : St) (x : Env × Event) (i : Fin cacheSize) : Prop :=
  (step s x).cache i = s.cache i ∨
    ∃ f, (step s x).cache i = sender f ∧ (Answered s x i f ∨ AskedUs s x i f)

/-- `arp_send_request` is called for the address. -/
def Asks (x : Env × Event) (ip : UInt32) : Prop := ∃ sender_ip, x.2 = .ask sender_ip ip

theorem learned (h : Sound s) (x : Env × Event) (hres : ((step s x).cache i).state = .resolved) :
    Learned s x i := by
  unfold Learned
  have hc := change_step h.fresh x
  generalize (step s x).cache = c at hc hres ⊢
  cases hc with
  | none => exact Or.inl rfl
  | ask hx hi ha =>
    rename_i sender_ip ip k a
    by_cases hk : i = k
    · subst hk
      rw [Function.update_self, ha.2] at hres
      exact nomatch hres
    · exact Or.inl (Function.update_of_ne hk _ _)
  | answered ha =>
    rename_i k f
    by_cases hk : i = k
    · subst hk
      exact Or.inr ⟨f, Function.update_self .., Or.inl ha⟩
    · exact Or.inl (Function.update_of_ne hk _ _)
  | askedUs ha =>
    rename_i k f
    by_cases hk : i = k
    · subst hk
      exact Or.inr ⟨f, Function.update_self .., Or.inr ha⟩
    · exact Or.inl (Function.update_of_ne hk _ _)

/-- A resolved entry whose address is not asked for again stays, or goes to another address. -/
theorem resolved_step (h : Sound s) (hres : (s.cache i).state = .resolved)
    (hno : ¬ Asks x (s.cache i).ip) :
    (step s x).cache i = s.cache i ∨ ((step s x).cache i).ip ≠ (s.cache i).ip := by
  have hc := change_step h.fresh x
  generalize (step s x).cache = c at hc ⊢
  cases hc with
  | none => exact Or.inl rfl
  | ask hx hi ha =>
    rename_i sender_ip ip k a
    by_cases hk : i = k
    · subst hk
      rw [Function.update_self, ha.1]
      exact Or.inr fun hc => hno ⟨sender_ip, by rw [hx, hc]⟩
    · exact Or.inl (Function.update_of_ne hk _ _)
  | answered ha =>
    rename_i k f
    refine Or.inl (Function.update_of_ne (fun hk => ?_) _ _)
    rw [hk, ha.pending.2] at hres
    exact nomatch hres
  | askedUs ha =>
    rename_i k f
    refine Or.inl (Function.update_of_ne (fun hk => ?_) _ _)
    rw [hk, ha.free] at hres
    exact nomatch hres

/-- The entry is resolved and still the same after the events, or it went to another address on the
way. -/
def Stays (s : St) (i : Fin cacheSize) (xs : List (Env × Event)) : Prop :=
  (run s xs).cache i = s.cache i ∨
    ∃ ys zs, xs = ys ++ zs ∧ ((run s ys).cache i).ip ≠ (s.cache i).ip

theorem stays (h : Sound s) (hres : (s.cache i).state = .resolved) (xs : List (Env × Event))
    (hno : ∀ x ∈ xs, ¬ Asks x (s.cache i).ip) : Stays s i xs := by
  induction xs using List.reverseRecOn with
  | nil => exact Or.inl rfl
  | append_singleton xs x ih =>
    rcases ih fun y hy => hno y (List.mem_append_left _ hy) with hsame | ⟨ys, zs, rfl, hne⟩
    · have hx := hno x (List.mem_append_right _ List.mem_cons_self)
      rw [← hsame] at hres hx
      unfold Stays
      rw [run_concat]
      rcases resolved_step (h.run xs) hres hx with hstep | hne
      · exact Or.inl (hstep.trans hsame)
      · refine Or.inr ⟨xs ++ [x], [], (List.append_nil _).symm, ?_⟩
        rw [run_concat, ← hsame]
        exact hne
    · exact Or.inr ⟨ys, zs ++ [x], List.append_assoc _ _ _, hne⟩

/-- **What the cache holds**, after any frames and requests: no address has two entries, an entry
is resolved by a reply to us while its address is asked for or by a request to us while its sender
is unknown and a slot is free, and then stays the same until it goes to another address or its own
is asked for again. -/
theorem cache_guarded (h : Reached s) : Distinct s ∧
    (∀ x i, ((step s x).cache i).state = .resolved → Learned s x i) ∧
      ∀ i xs, (s.cache i).state = .resolved → (∀ x ∈ xs, ¬ Asks x (s.cache i).ip) → Stays s i xs :=
  ⟨h.sound.distinct, fun x _ => learned h.sound x, fun _ xs hres => stays h.sound hres xs⟩

/-! ### Asked again -/

def ourMac : Mac := fun _ => 2

/-- We are `10.0.2.15`. -/
def atHome : Env := ⟨true, ourMac, true, 0x0A00020F, 0⟩

/-- `10.0.2.2` tells us that it is at `mac`. -/
def isAt (mac : Mac) : Env × Event := (atHome, .frame (packet ourMac mac 2 0x0A000202 ourMac 0x0A00020F))

def whoHas : Env × Event := (atHome, .ask 0x0A00020F 0x0A000202)

def answers (mac : Mac) : St := run {} [whoHas, isAt mac]

/-- The address has been asked for, and answered. -/
theorem cache_guarded_answers : Distinct (answers ourMac) ∧
    (∀ x i, ((step (answers ourMac) x).cache i).state = .resolved → Learned (answers ourMac) x i) ∧
      ∀ i xs, ((answers ourMac).cache i).state = .resolved →
        (∀ x ∈ xs, ¬ Asks x ((answers ourMac).cache i).ip) → Stays (answers ourMac) i xs :=
  cache_guarded ⟨_, rfl⟩

/-- **Asked for again, an address can get another MAC** without leaving the cache. -/
theorem mac_changes : ¬ ∀ (s : St) (xs : List (Env × Event)) (i : Fin cacheSize), Reached s →
    (s.cache i).state = .resolved →
      (∀ ys zs, xs = ys ++ zs → ((run s ys).cache i).For (s.cache i).ip) →
        ((run s xs).cache i).state = .resolved → ((run s xs).cache i).mac = (s.cache i).mac := by
  intro h
  have hstay : ∀ n ≤ 2, ((run (answers fun _ => 4) ([whoHas, isAt fun _ => 6].take n)).cache 0).For
      ((answers fun _ => 4).cache 0).ip := by
    unfold Entry.For
    decide +kernel
  have hmac := h (answers fun _ => 4) [whoHas, isAt fun _ => 6] 0 ⟨_, rfl⟩ (by decide +kernel)
    (fun ys zs hxs => by
      have hlen : ys.length ≤ 2 := by
        have := congrArg List.length hxs
        rw [List.length_append] at this
        show ys.length ≤ [whoHas, isAt fun _ => 6].length
        omega
      have := hstay ys.length hlen
      rwa [hxs, List.take_left] at this) (by decide +kernel)
  exact absurd (congrFun hmac 0) (by decide +kernel)

end Arp
