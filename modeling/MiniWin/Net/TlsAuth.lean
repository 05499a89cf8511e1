import Mathlib.Data.List.Nodup
import Mathlib.Data.List.TakeWhile
import Mathlib.Data.List.Infix
import MiniWin.Net.TlsMove

/-!
# Who is at the other end

What a connection that is established has been shown. The dispatcher takes the messages of the
server in any order, any number of times; where they come as they should, the server is the one
the certificates name, and where application data comes behind its Finished and encrypted, it is
of that server.
-/

namespace Tls

open Net Relation

variable {Cert : Type} {P : Prims Cert} {s t : St Cert} {c c' : Conn Cert} {e : Env}
  {msg_type : UInt8} {body : List UInt8} {log : List Event}

/-! ## What the messages show -/

/-- The cipher suite of a ServerHello. -/
def suiteOf (body : List UInt8) : UInt16 :=
  UInt16.ofNat (be ((body.drop (35 + (body.getD 34 0).toNat)).take 2))

/-- A ServerHello is acceptable, and the connection has its values. -/
structure Hello (body : List UInt8) (c : Conn Cert) : Prop where
  accepted : (parseServerHello body c).1 = true
  server_random : c.server_random = (body.drop 2).take 32
  cipher_suite : c.cipher_suite = suiteOf body

/-- The chain of the connection comes from a Certificate message, and passed for its host. -/
structure Vouched (P : Prims Cert) (now : UInt64) (body : List UInt8) (c : Conn Cert) : Prop where
  parsed : ∃ c₀ c₁, parseCertificateMessage P body c₀ = (true, c₁)
    ∧ c₁.chain = c.chain ∧ c₁.chain_len = c.chain_len
  nonempty : 0 < c.chain_len
  verified : P.verifyCertificateChain now c.hostname c.certs = none

/-- The parameters of the key exchange come from a ServerKeyExchange, signed under the leaf. -/
structure Signed (P : Prims Cert) (body : List UInt8) (c : Conn Cert) : Prop where
  curve : c.kx_curve = UInt16.ofNat (be ((body.drop 1).take 2))
  key : c.peer_public = (body.drop 4).take c.peer_public.length
  signature : ∃ hash_id n, P.verifySignature (suiteIsEcdsa c.cipher_suite) hash_id
    (c.client_random ++ c.server_random ++ body.take (4 + c.peer_public.length))
    ((body.drop (4 + c.peer_public.length + 4)).take n) (c.chain 0) = true

/-- A Finished has the verify data of the messages before it. -/
def Confirmed (P : Prims Cert) (body : List UInt8) (c : Conn Cert) : Prop :=
  ∃ before, before <+: c.transcript
    ∧ verifyServerFinished P body { c with transcript := before } = true

/-! ### They are shown when the message is accepted -/

theorem parseServerHello_fst (body : List UInt8) (c c' : Conn Cert) :
    (parseServerHello body c).1 = (parseServerHello body c').1 := by
  unfold parseServerHello
  simp only []
  split_ifs <;> rfl

theorem parseServerHello_true (h : parseServerHello body c = (true, c')) :
    c' = { c with server_random := (body.drop 2).take 32, cipher_suite := suiteOf body } := by
  unfold parseServerHello at h
  simp only [] at h
  split_ifs at h <;> first | exact absurd (Prod.mk.inj h).1 (by decide) | exact (Prod.mk.inj h).2.symm

theorem Hello.of_parse (h : parseServerHello body c = (true, c')) : Hello body c' := by
  have hc := parseServerHello_true h
  refine ⟨?_, by rw [hc], by rw [hc]⟩
  rw [parseServerHello_fst body c' c, h]

theorem certificates_true {fuel count : Nat} {rest : List UInt8}
    (h : certificates P fuel count rest c = (true, c')) : 0 < c'.chain_len := by
  induction fuel generalizing count rest c with
  | zero => exact nomatch h
  | succ fuel ih =>
    unfold certificates at h
    simp only [] at h
    split_ifs at h
    · obtain ⟨hpos, rfl⟩ := Prod.mk.inj h
      exact of_decide_eq_true hpos
    · exact absurd (Prod.mk.inj h).1 (by decide)
    · exact absurd (Prod.mk.inj h).1 (by decide)
    · exact absurd (Prod.mk.inj h).1 (by decide)
    · exact ih h
    · exact absurd (Prod.mk.inj h).1 (by decide)

theorem Vouched.of_accept {now : UInt64} (h : acceptCertificate P now body c = (true, c')) :
    Vouched P now body c' := by
  unfold acceptCertificate at h
  split at h
  · exact absurd (Prod.mk.inj h).1 (by decide)
  · next c₁ hparse =>
    split at h
    · exact absurd (Prod.mk.inj h).1 (by decide)
    · next hver =>
      obtain ⟨-, rfl⟩ := Prod.mk.inj h
      refine ⟨⟨c, c₁, hparse, rfl, rfl⟩, ?_, hver⟩
      unfold parseCertificateMessage at hparse
      simp only [] at hparse
      split_ifs at hparse
      · exact absurd (Prod.mk.inj hparse).1 (by decide)
      · exact absurd (Prod.mk.inj hparse).1 (by decide)
      · exact certificates_true hparse

theorem Signed.of_check {n : Nat} (h : checkSignature P body n c = (true, c')) : c' = c
    ∧ ∃ hash_id m, P.verifySignature (suiteIsEcdsa c.cipher_suite) hash_id
      (c.client_random ++ c.server_random ++ body.take n) ((body.drop (n + 4)).take m)
      (c.chain 0) = true := by
  unfold checkSignature at h
  simp only [] at h
  split at h
  · exact absurd (Prod.mk.inj h).1 (by decide)
  · split at h
    · exact absurd (Prod.mk.inj h).1 (by decide)
    · next hash_id _ =>
      split_ifs at h with h₁ h₂ h₃ h₄
      · exact absurd (Prod.mk.inj h).1 (by decide)
      · exact absurd (Prod.mk.inj h).1 (by decide)
      · exact absurd (Prod.mk.inj h).1 (by decide)
      · rw [not_not.mp h₂] at h₄
        exact ⟨(Prod.mk.inj h).2.symm, hash_id, _, h₄⟩
      · exact absurd (Prod.mk.inj h).1 (by decide)

theorem Signed.of_parse (h : parseServerKeyExchange P body c = (true, c')) : Signed P body c' := by
  unfold parseServerKeyExchange at h
  simp only [] at h
  split_ifs at h with h₁ h₂ h₃
  · exact absurd (Prod.mk.inj h).1 (by decide)
  · exact absurd (Prod.mk.inj h).1 (by decide)
  · exact absurd (Prod.mk.inj h).1 (by decide)
  · obtain ⟨rfl, hash_id, m, hver⟩ := Signed.of_check h
    have hlen : ((body.drop 4).take (body.getD 3 0).toNat).length = (body.getD 3 0).toNat := by
      rw [List.length_take, List.length_drop]
      have := not_or.mp h₃
      omega
    refine ⟨rfl, by rw [hlen], hash_id, m, ?_⟩
    simp only [hlen]
    exact hver

/-! ### They stay -/

/-- What is shown does not depend on the rest of the connection. -/
structure Agree (c c' : Conn Cert) : Prop where
  hostname : c'.hostname = c.hostname
  client_random : c'.client_random = c.client_random
  server_random : c'.server_random = c.server_random
  cipher_suite : c'.cipher_suite = c.cipher_suite
  kx_curve : c'.kx_curve = c.kx_curve
  peer_public : c'.peer_public = c.peer_public
  chain : c'.chain = c.chain
  chain_len : c'.chain_len = c.chain_len
  master_secret : c'.master_secret = c.master_secret
  server_write_key : c'.server_write_key = c.server_write_key
  write : c.write_cipher_active = true → c'.write_cipher_active = true
  read : c.read_cipher_active = true → c'.read_cipher_active = true
  transcript : c.transcript <+: c'.transcript

theorem Hello.mono (h : Hello body c) (hr : c'.server_random = c.server_random)
    (hs : c'.cipher_suite = c.cipher_suite) : Hello body c' :=
  ⟨(parseServerHello_fst body c' c).trans h.accepted, hr.trans h.server_random,
    hs.trans h.cipher_suite⟩

theorem Vouched.mono {now : UInt64} (h : Vouched P now body c) (hh : c'.hostname = c.hostname)
    (hc : c'.chain = c.chain) (hl : c'.chain_len = c.chain_len) : Vouched P now body c' := by
  obtain ⟨⟨c₀, c₁, hparse, hchain, hlen⟩, hpos, hver⟩ := h
  refine ⟨⟨c₀, c₁, hparse, hchain.trans hc.symm, hlen.trans hl.symm⟩, hl ▸ hpos, ?_⟩
  unfold Conn.certs at hver ⊢
  rwa [hh, hc, hl]

theorem Signed.mono (h : Signed P body c) (hr : c'.client_random = c.client_random)
    (hr' : c'.server_random = c.server_random) (hs : c'.cipher_suite = c.cipher_suite)
    (hk : c'.kx_curve = c.kx_curve) (hp : c'.peer_public = c.peer_public)
    (hc : c'.chain = c.chain) : Signed P body c' := by
  obtain ⟨hcurve, hkey, hsig⟩ := h
  refine ⟨hk.trans hcurve, ?_, ?_⟩
  · rwa [hp]
  · rwa [hr, hr', hs, hp, hc]

theorem verifyServerFinished_congr (hm : c'.master_secret = c.master_secret)
    (hs : c'.cipher_suite = c.cipher_suite) (ht : c'.transcript = c.transcript) :
    verifyServerFinished P body c' = verifyServerFinished P body c := by
  unfold verifyServerFinished computeFinished
  rw [hm, hs, ht]

theorem Confirmed.mono (h : Confirmed P body c) (hm : c'.master_secret = c.master_secret)
    (hs : c'.cipher_suite = c.cipher_suite) (ht : c.transcript <+: c'.transcript) :
    Confirmed P body c' := by
  obtain ⟨before, hpre, hver⟩ := h
  refine ⟨before, hpre.trans ht, ?_⟩
  rw [← hver]
  exact verifyServerFinished_congr hm hs rfl

/-! ## The order of a handshake -/

/-- The type of a message, or none for a ChangeCipherSpec; a CertificateRequest asks for nothing
this client does. -/
def Event.kind : Event → Option (Option UInt8)
  | .message _ msg_type _ => if msg_type = hsCertificateRequest then none else some (some msg_type)
  | .change_cipher_spec => some none
  | _ => none

def Event.isFinished : Event → Bool
  | .message _ msg_type _ => msg_type = hsFinished
  | _ => false

/-- The messages and the ChangeCipherSpecs up to the first Finished. -/
def handshake : List Event → List Event
  | [] => []
  | x :: log =>
    if x.isFinished then [x]
    else if x.kind.isSome then x :: handshake log
    else handshake log

def kinds (log : List Event) : List (Option UInt8) := (handshake log).filterMap Event.kind

/-- The order they should come in. -/
def order : List (Option UInt8) :=
  [some hsServerHello, some hsCertificate, some hsServerKeyExchange, some hsServerHelloDone, none,
    some hsFinished]

theorem handshake_append_of_finished (h : ∃ x ∈ log, x.isFinished = true) (l : List Event) :
    handshake (log ++ l) = handshake log := by
  induction log with
  | nil => simp at h
  | cons x log ih =>
    simp only [List.cons_append, handshake]
    split
    · rfl
    · next hx =>
      rw [ih (by simpa [hx] using h)]

theorem handshake_append (h : ∀ x ∈ log, x.isFinished = false) (x : Event) :
    handshake (log ++ [x])
      = handshake log ++ if x.isFinished || x.kind.isSome then [x] else [] := by
  induction log with
  | nil => cases hf : x.isFinished <;> cases hk : x.kind <;> simp [handshake, hf, hk]
  | cons y log ih =>
    have hy := h y List.mem_cons_self
    have ih := ih fun z hz => h z (List.mem_cons_of_mem y hz)
    simp only [List.cons_append, handshake, hy, Bool.false_eq_true, if_false, ih]
    split <;> simp

/-- What comes next says what came before. -/
theorem takeWhile_of_prefix {α : Type} [DecidableEq α] {l o : List α} {a : α}
    (h : l ++ [a] <+: o) (hn : o.Nodup) : l = o.takeWhile (· ≠ a) := by
  obtain ⟨r, rfl⟩ := h
  have hnot : ∀ x ∈ l, decide (x ≠ a) = true := by
    rintro x hx
    rw [List.append_assoc, List.nodup_append] at hn
    exact decide_eq_true (hn.2.2 x hx a (by simp))
  rw [List.append_assoc, List.takeWhile_append_of_pos hnot]
  simp

/-- A chain, and parameters signed under its leaf. -/
structure Keys (P : Prims Cert) (sh : List UInt8) (now : UInt64) (ct ske : List UInt8)
    (c : Conn Cert) : Prop where
  hello : Hello sh c
  vouched : Vouched P now ct c
  signed : Signed P ske c

/-- What a connection has been shown by a handshake that is in order so far. -/
inductive Shown (P : Prims Cert) (c : Conn Cert) : List Event → Prop
  | start : Shown P c []
  | hello (n₁ : UInt64) (sh : List UInt8) (h : Hello sh c) :
    Shown P c [.message n₁ hsServerHello sh]
  | certificate (n₁ n₂ : UInt64) (sh ct : List UInt8) (h : Hello sh c) (hv : Vouched P n₂ ct c) :
    Shown P c [.message n₁ hsServerHello sh, .message n₂ hsCertificate ct]
  | key_exchange (n₁ n₂ n₃ : UInt64) (sh ct ske : List UInt8) (h : Keys P sh n₂ ct ske c) :
    Shown P c [.message n₁ hsServerHello sh, .message n₂ hsCertificate ct,
      .message n₃ hsServerKeyExchange ske]
  | done (n₁ n₂ n₃ n₄ : UInt64) (sh ct ske d : List UInt8) (h : Keys P sh n₂ ct ske c)
    (hw : c.write_cipher_active = true) :
    Shown P c [.message n₁ hsServerHello sh, .message n₂ hsCertificate ct,
      .message n₃ hsServerKeyExchange ske, .message n₄ hsServerHelloDone d]
  | changed (n₁ n₂ n₃ n₄ : UInt64) (sh ct ske d : List UInt8) (h : Keys P sh n₂ ct ske c)
    (hw : c.write_cipher_active = true) (hr : c.read_cipher_active = true) :
    Shown P c [.message n₁ hsServerHello sh, .message n₂ hsCertificate ct,
      .message n₃ hsServerKeyExchange ske, .message n₄ hsServerHelloDone d, .change_cipher_spec]
  | finished (n₁ n₂ n₃ n₄ n₅ : UInt64) (sh ct ske d fin : List UInt8)
    (h : Keys P sh n₂ ct ske c) (hw : c.write_cipher_active = true)
    (hr : c.read_cipher_active = true) (hf : Confirmed P fin c) :
    Shown P c [.message n₁ hsServerHello sh, .message n₂ hsCertificate ct,
      .message n₃ hsServerKeyExchange ske, .message n₄ hsServerHelloDone d, .change_cipher_spec,
      .message n₅ hsFinished fin]

theorem Keys.mono {sh ct ske : List UInt8} {now : UInt64} (h : Keys P sh now ct ske c)
    (ha : Agree c c') : Keys P sh now ct ske c' :=
  ⟨h.hello.mono ha.server_random ha.cipher_suite,
    h.vouched.mono ha.hostname ha.chain ha.chain_len,
    h.signed.mono ha.client_random ha.server_random ha.cipher_suite ha.kx_curve ha.peer_public
      ha.chain⟩

theorem Shown.mono {l : List Event} (h : Shown P c l) (ha : Agree c c') : Shown P c' l := by
  cases h with
  | start => exact .start
  | hello n₁ sh h => exact .hello n₁ sh (h.mono ha.server_random ha.cipher_suite)
  | certificate n₁ n₂ sh ct h hv =>
    exact .certificate n₁ n₂ sh ct (h.mono ha.server_random ha.cipher_suite)
      (hv.mono ha.hostname ha.chain ha.chain_len)
  | key_exchange n₁ n₂ n₃ sh ct ske h => exact .key_exchange n₁ n₂ n₃ sh ct ske (h.mono ha)
  | done n₁ n₂ n₃ n₄ sh ct ske d h hw =>
    exact .done n₁ n₂ n₃ n₄ sh ct ske d (h.mono ha) (ha.write hw)
  | changed n₁ n₂ n₃ n₄ sh ct ske d h hw hr =>
    exact .changed n₁ n₂ n₃ n₄ sh ct ske d (h.mono ha) (ha.write hw) (ha.read hr)
  | finished n₁ n₂ n₃ n₄ n₅ sh ct ske d fin h hw hr hf =>
    exact .finished n₁ n₂ n₃ n₄ n₅ sh ct ske d fin (h.mono ha) (ha.write hw) (ha.read hr)
      (hf.mono ha.master_secret ha.cipher_suite ha.transcript)

theorem Shown.length_kinds {l : List Event} (h : Shown P c l) :
    (l.filterMap Event.kind).length = l.length := by
  cases h <;> rfl

/-! ## Over a run -/

/-- The server has sent its Finished. -/
def HasFinished (log : List Event) : Prop := ∃ x ∈ log, x.isFinished = true

/-- What stands in a connection at any time. -/
structure Standing (P : Prims Cert) (c : Conn Cert) : Prop where
  fresh : c.state = .wait_tcp → c.log = []
  finished : c.Live → (c.state = .established ↔ HasFinished c.log)
  confirmed : c.state = .established →
    ∃ now fin, .message now hsFinished fin ∈ c.log ∧ Confirmed P fin c
  shown : c.Live → kinds c.log <+: order → Shown P c (handshake c.log)

/-- In a state in which no record is read there is nothing to be said but that none has been. -/
theorem Standing.of_not_live (hl : ¬ c.Live) (hf : c.state = .wait_tcp → c.log = []) :
    Standing P c :=
  ⟨hf, fun h => absurd h hl, fun h => absurd (.inr (.inr h)) hl, fun h => absurd h hl⟩

theorem not_live (hs : c.state = .failed ∨ c.state = .closed ∨ c.state = .wait_tcp) :
    ¬ c.Live := by
  unfold Conn.Live
  rcases hs with hs | hs | hs <;> simp [hs]

theorem HasFinished.append {l : List Event} (h : HasFinished log) : HasFinished (log ++ l) := by
  obtain ⟨x, hx, hf⟩ := h
  exact ⟨x, List.mem_append_left l hx, hf⟩

theorem hasFinished_append {x : Event} (hx : x.isFinished = false) :
    HasFinished (log ++ [x]) ↔ HasFinished log := by
  simp [HasFinished, hx]

theorem not_hasFinished (h : ¬ HasFinished log) : ∀ x ∈ log, x.isFinished = false := by
  intro x hx
  cases hf : x.isFinished with
  | false => rfl
  | true => exact absurd ⟨x, hx, hf⟩ h

/-- What the handshake is after an event it has no part in. -/
theorem handshake_other {x : Event} (hk : x.kind = none ∧ x.isFinished = false) :
    handshake (log ++ [x]) = handshake log := by
  by_cases hf : HasFinished log
  · exact handshake_append_of_finished hf [x]
  · rw [handshake_append (not_hasFinished hf), hk.1, hk.2]
    simp

/-- **A step of the handshake** that is in order: it comes behind those it should. -/
theorem handshake_next {x : Event} {k : Option UInt8} (hn : ¬ HasFinished log)
    (hk : x.kind = some k) (h : kinds (log ++ [x]) <+: order) :
    handshake (log ++ [x]) = handshake log ++ [x] ∧ kinds log = order.takeWhile (· ≠ k)
      ∧ kinds log <+: order := by
  have heq : handshake (log ++ [x]) = handshake log ++ [x] := by
    rw [handshake_append (not_hasFinished hn), hk]
    simp
  have hkinds : kinds (log ++ [x]) = kinds log ++ [k] := by
    unfold kinds
    rw [heq, List.filterMap_append]
    simp [hk]
  rw [hkinds] at h
  exact ⟨heq, takeWhile_of_prefix h (by decide), (List.prefix_append _ _).trans h⟩

/-- An event the handshake has no part in, or one behind it. -/
theorem Standing.other {l : List Event} (h : Standing P c) (ha : Agree c c')
    (hs : c'.state = c.state) (hl : c.Live) (hlog : c'.log = c.log ++ l)
    (hh : handshake (c.log ++ l) = handshake c.log)
    (hf : HasFinished (c.log ++ l) ↔ HasFinished c.log) : Standing P c' := by
  refine ⟨fun hw => absurd hl (not_live (.inr (.inr (hs ▸ hw)))), fun _ => ?_, fun he => ?_,
    fun _ hk => ?_⟩
  · rw [hs, hlog, hf]
    exact h.finished hl
  · obtain ⟨now, fin, hmem, hconf⟩ := h.confirmed (hs ▸ he)
    exact ⟨now, fin, hlog ▸ List.mem_append_left l hmem,
      hconf.mono ha.master_secret ha.cipher_suite ha.transcript⟩
  · rw [hlog] at hk ⊢
    unfold kinds at hk
    rw [hh] at hk ⊢
    exact (h.shown hl hk).mono ha

theorem Agree.note (x : Event) (c : Conn Cert) : Agree c (c.note x) :=
  ⟨rfl, rfl, rfl, rfl, rfl, rfl, rfl, rfl, rfl, rfl, id, id, List.prefix_rfl⟩

/-- A ChangeCipherSpec. -/
theorem Standing.change (h : Standing P c) (hl : c.Live) :
    Standing P ({ c with read_cipher_active := true, server_seq := 0 }.note .change_cipher_spec) := by
  have ha : Agree c ({ c with read_cipher_active := true, server_seq := 0 }.note
      .change_cipher_spec) :=
    ⟨rfl, rfl, rfl, rfl, rfl, rfl, rfl, rfl, rfl, rfl, id, fun _ => rfl, List.prefix_rfl⟩
  by_cases hf : HasFinished c.log
  · exact h.other ha rfl hl rfl (handshake_append_of_finished hf _)
      ⟨fun _ => hf, HasFinished.append⟩
  · have hne : c.state ≠ .established := fun he => hf ((h.finished hl).mp he)
    refine ⟨fun hw => absurd hl (not_live (.inr (.inr hw))), fun _ => ?_,
      fun he => absurd he hne, fun _ hk => ?_⟩
    · exact ⟨fun he => absurd he hne, fun hx => absurd ((hasFinished_append rfl).mp hx) hf⟩
    · obtain ⟨heq, hkinds, hpre⟩ := handshake_next hf rfl hk
      have hs := h.shown hl hpre
      have hlen := hs.length_kinds
      rw [show (handshake c.log).filterMap Event.kind = _ from hkinds,
        show (order.takeWhile (· ≠ none)).length = 4 from rfl] at hlen
      change Shown P _ (handshake (c.log ++ [.change_cipher_spec]))
      rw [heq]
      generalize handshake c.log = l at hs hlen
      cases hs <;> simp at hlen
      case done n₁ n₂ n₃ n₄ sh ct ske d hk hw =>
        exact .changed n₁ n₂ n₃ n₄ sh ct ske d (hk.mono ha) hw rfl

/-- A message that counts, before the Finished of the server. -/
theorem Standing.message {x : Event} {k : Option UInt8} (h : Standing P c) (hl : c.Live)
    (hne : c.state ≠ .established) (hl' : c'.Live) (hne' : c'.state ≠ .established)
    (hlog : c'.log = c.log ++ [x]) (hk : x.kind = some k) (hf : x.isFinished = false) (n : Nat)
    (hlen : (order.takeWhile (· ≠ k)).length = n)
    (hshown : ∀ l, Shown P c l → l.length = n → Shown P c' (l ++ [x])) : Standing P c' := by
  have hn : ¬ HasFinished c.log := fun hx => hne ((h.finished hl).mpr hx)
  refine ⟨fun hw => absurd hl' (not_live (.inr (.inr hw))), fun _ => ?_,
    fun he => absurd he hne', fun _ hkinds => ?_⟩
  · rw [hlog, hasFinished_append hf]
    exact ⟨fun he => absurd he hne', fun hx => absurd hx hn⟩
  · rw [hlog] at hkinds ⊢
    obtain ⟨heq, hk', hpre⟩ := handshake_next hn hk hkinds
    have hs := h.shown hl hpre
    have hlen' := hs.length_kinds
    rw [show (handshake c.log).filterMap Event.kind = _ from hk', hlen] at hlen'
    rw [heq]
    exact hshown _ hs hlen'.symm

theorem Conn.Live.of_hello (hs : c.state = .client_hello_sent) :
    c.Live ∧ c.state ≠ .established :=
  ⟨.inl hs, by rw [hs]; decide⟩

theorem Standing.server_hello {now : UInt64} (h : Standing P c)
    (hs : c.state = .client_hello_sent)
    (hp : parseServerHello body (c.note (.message now hsServerHello body)) = (true, c')) :
    Standing P c' := by
  have hello := Hello.of_parse hp
  obtain rfl := parseServerHello_true hp
  obtain ⟨hl, hne⟩ := Conn.Live.of_hello hs
  refine h.message hl hne (.inl hs) hne rfl rfl rfl 0 rfl fun l hs' hlen => ?_
  cases hs' <;> simp at hlen
  exact .hello now body hello

theorem Standing.certificate {now : UInt64} (h : Standing P c)
    (hs : c.state = .client_hello_sent)
    (hp : acceptCertificate P now body (c.note (.message now hsCertificate body)) = (true, c')) :
    Standing P c' := by
  have hv := Vouched.of_accept hp
  obtain ⟨why, chain, n, hframe⟩ := acceptCertificate_frame P now body
    (c.note (.message now hsCertificate body))
  obtain rfl : c' = _ := (congrArg Prod.snd hp).symm.trans hframe
  obtain ⟨hl, hne⟩ := Conn.Live.of_hello hs
  refine h.message hl hne (.inl hs) hne rfl rfl rfl 1 rfl fun l hs' hlen => ?_
  cases hs' <;> simp at hlen
  case hello n₁ sh hsh => exact .certificate n₁ now sh body (hsh.mono rfl rfl) hv

theorem Standing.server_key_exchange {now : UInt64} (h : Standing P c)
    (hs : c.state = .client_hello_sent)
    (hp : parseServerKeyExchange P body (c.note (.message now hsServerKeyExchange body))
      = (true, c')) : Standing P c' := by
  have hsig := Signed.of_parse hp
  obtain ⟨why, curve, key, hframe⟩ := parseServerKeyExchange_frame P body
    (c.note (.message now hsServerKeyExchange body))
  obtain rfl : c' = _ := (congrArg Prod.snd hp).symm.trans hframe
  obtain ⟨hl, hne⟩ := Conn.Live.of_hello hs
  refine h.message hl hne (.inl hs) hne rfl rfl rfl 2 rfl fun l hs' hlen => ?_
  cases hs' <;> simp at hlen
  case certificate n₁ n₂ sh ct hsh hv =>
    exact .key_exchange n₁ n₂ now sh ct body ⟨hsh.mono rfl rfl, hv.mono rfl rfl rfl, hsig⟩

theorem Standing.server_hello_done {premaster : List UInt8} (h : Standing P c)
    (hs : c.state = .client_hello_sent)
    (hk : keyExchange P e (c.note (.message e.now hsServerHelloDone body))
      = (some premaster, c')) : Standing P (flight P (deriveKeys P premaster c')) := by
  obtain ⟨priv, pub, hframe⟩ := keyExchange_frame P e
    (c.note (.message e.now hsServerHelloDone body))
  obtain rfl : c' = _ := (congrArg Prod.snd hk).symm.trans hframe
  obtain ⟨hl, hne⟩ := Conn.Live.of_hello hs
  refine h.message hl hne (.inr (.inl rfl)) (by simp [flight]) rfl rfl rfl 3 rfl
    fun l hs' hlen => ?_
  cases hs' <;> simp at hlen
  case key_exchange n₁ n₂ n₃ sh ct ske hkeys =>
    exact .done n₁ n₂ n₃ e.now sh ct ske body
      ⟨hkeys.hello.mono rfl rfl, hkeys.vouched.mono rfl rfl rfl,
        hkeys.signed.mono rfl rfl rfl rfl rfl rfl⟩ rfl

/-- **The Finished of the server.** -/
theorem Standing.server_finished {now : UInt64} (h : Standing P c)
    (hs : c.state = .client_finished_sent) (hv : verifyServerFinished P body c = true) :
    Standing P { c.note (.message now hsFinished body) with state := .established } := by
  have hl : c.Live := .inr (.inl hs)
  have hn : ¬ HasFinished c.log := fun hx => by
    have := (h.finished hl).mpr hx
    rw [hs] at this
    exact nomatch this
  have hconf : Confirmed P body
      { c.note (.message now hsFinished body) with state := .established } :=
    ⟨c.transcript, List.prefix_rfl, hv⟩
  have hfin : HasFinished (c.log ++ [.message now hsFinished body]) :=
    ⟨.message now hsFinished body, by simp, rfl⟩
  refine ⟨(nomatch ·), fun _ => ⟨fun _ => hfin, fun _ => rfl⟩,
    fun _ => ⟨now, body, by simp [Conn.note], hconf⟩, fun _ hk => ?_⟩
  obtain ⟨heq, hk', hpre⟩ := handshake_next hn rfl hk
  have hshown := h.shown hl hpre
  have hlen := hshown.length_kinds
  rw [show (handshake c.log).filterMap Event.kind = _ from hk',
    show (order.takeWhile (· ≠ some hsFinished)).length = 5 from rfl] at hlen
  change Shown P _ (handshake (c.log ++ [.message now hsFinished body]))
  rw [heq]
  generalize handshake c.log = l at hshown hlen
  cases hshown <;> simp at hlen
  case changed n₁ n₂ n₃ n₄ sh ct ske d hkeys hw hr =>
    exact .finished n₁ n₂ n₃ n₄ now sh ct ske d body
      ⟨hkeys.hello.mono rfl rfl, hkeys.vouched.mono rfl rfl rfl,
        hkeys.signed.mono rfl rfl rfl rfl rfl rfl⟩ hw hr hconf

theorem dispatched_standing (hd : Dispatched P e msg_type body
      (s.put (s.conn.note (.message e.now msg_type body))) t)
    (h : Standing P s.conn) (hl : s.conn.Live) : Standing P t.conn := by
  cases hd with
  | server_hello c hs ht hp =>
    subst ht
    exact h.server_hello hs hp
  | certificate c hs ht hp =>
    subst ht
    exact h.certificate hs hp
  | server_key_exchange c hs ht hp =>
    subst ht
    exact h.server_key_exchange hs hp
  | certificate_request hs ht =>
    subst ht
    exact h.other (.note _ s.conn) rfl hl rfl (handshake_other ⟨rfl, rfl⟩)
      (hasFinished_append rfl)
  | server_hello_done premaster c hs ht hk =>
    subst ht
    have hconn := serverHelloDone_conn P e
      (s.put (s.conn.note (.message e.now hsServerHelloDone body)))
    rw [hk] at hconn
    rw [hconn]
    exact h.server_hello_done hs hk
  | finished hs ht hv =>
    subst ht
    exact h.server_finished hs ((verifyServerFinished_congr rfl rfl rfl).trans hv)
  | ignored hs hs' =>
    have he : s.conn.state = .established := (hl.resolve_left hs).resolve_left hs'
    have hf := (h.finished hl).mp he
    exact h.other (.note _ s.conn) rfl hl rfl (handshake_append_of_finished hf _)
      ⟨fun _ => hf, HasFinished.append⟩
  | refused c hs hr =>
    cases hr
    exact .of_not_live (not_live (.inl rfl)) (nomatch ·)

theorem Move.standing (hm : Move P s t) (h : Standing P s.conn) : Standing P t.conn := by
  cases hm with
  | connect e ip port hostname => exact .of_not_live (not_live (.inr (.inr rfl))) fun _ => rfl
  | hello e _ hs =>
    have hconn : (sendClientHello P e s).conn = _ := sendHandshake_conn P e hsClientHello _ _
    have hlog : (sendClientHello P e s).conn.log = [] := by
      rw [hconn]
      exact h.fresh hs
    generalize sendClientHello P e s = s₁ at hlog
    refine ⟨(nomatch ·), fun _ => ?_, (nomatch ·), fun _ _ => ?_⟩
    · change State.client_hello_sent = State.established ↔ HasFinished s₁.conn.log
      rw [hlog]
      simp [HasFinished]
    · change Shown P _ (handshake s₁.conn.log)
      rw [hlog]
      exact .start
  | write e content_type plaintext => rwa [writeRecord_conn]
  | close => exact .of_not_live (not_live (.inr (.inl rfl))) (nomatch ·)
  | tcp => exact h
  | take => exact h
  | unconnected => exact .of_not_live (not_live (.inl rfl)) (nomatch ·)
  | quiet c _ hu hq =>
    obtain ⟨state, hs, why, level, desc, notify, transcript, ht, buf⟩ := hq
    by_cases hf : state = .failed
    · subst hf
      exact .of_not_live (not_live (.inl rfl)) (nomatch ·)
    · obtain rfl := hs.resolve_right hf
      exact h.other (l := []) ⟨rfl, rfl, rfl, rfl, rfl, rfl, rfl, rfl, rfl, rfl, id, id, ht⟩ rfl
        (hu.live hf) (List.append_nil _).symm (by rw [List.append_nil])
        (by rw [List.append_nil])
  | change_cipher_spec _ hl => exact h.change hl
  | opened content_type payload plain _ hl ha hdec =>
    exact h.other ⟨rfl, rfl, rfl, rfl, rfl, rfl, rfl, rfl, rfl, rfl, id, id, List.prefix_rfl⟩ rfl
      hl rfl (handshake_other ⟨rfl, rfl⟩) (hasFinished_append rfl)
  | app_data plain _ hl ho =>
    exact h.other (.note _ s.conn) rfl hl rfl (handshake_other ⟨rfl, rfl⟩)
      (hasFinished_append rfl)
  | message e msg_type body _ hl =>
    exact dispatched_standing (dispatch_dispatched P e msg_type body s) h hl

theorem Reached.standing (h : Reached P s) : Standing P s.conn := by
  refine h.keeps (I := fun s => Standing P s.conn) ?_ fun _ _ hm => hm.standing
  exact fun s hb => .of_not_live (not_live (.inr (.inl hb.state))) fun _ => hb.log

/-- **An authenticated connection**: one acceptable ServerHello, one Certificate whose chain passed
for this host, one ServerKeyExchange signed under its leaf, the ServerHelloDone, a ChangeCipherSpec
and a Finished with the right verify data were processed, in this order, and both ciphers are on. -/
def Authenticated (P : Prims Cert) (c : Conn Cert) : Prop :=
  ∃ n₁ n₂ n₃ n₄ n₅ sh ct ske d fin,
    handshake c.log
      = [.message n₁ hsServerHello sh, .message n₂ hsCertificate ct,
        .message n₃ hsServerKeyExchange ske, .message n₄ hsServerHelloDone d,
        .change_cipher_spec, .message n₅ hsFinished fin]
    ∧ Hello sh c ∧ Vouched P n₂ ct c ∧ Signed P ske c ∧ Confirmed P fin c
    ∧ c.read_cipher_active = true ∧ c.write_cipher_active = true

theorem Authenticated.kinds_eq (h : Authenticated P c) : kinds c.log = order := by
  obtain ⟨n₁, n₂, n₃, n₄, n₅, sh, ct, ske, d, fin, hlog, -⟩ := h
  unfold kinds
  rw [hlog]
  rfl

/-- **Which connections are authenticated**: of those that are established, the ones whose
messages came in order. -/
theorem authenticated_iff (h : Reached P s) (hs : s.conn.state = .established) :
    Authenticated P s.conn ↔ kinds s.conn.log = order := by
  refine ⟨Authenticated.kinds_eq, fun hk => ?_⟩
  have hshown := h.standing.shown (.inr (.inr hs)) (hk ▸ List.prefix_rfl)
  have hlen := hshown.length_kinds
  rw [show (handshake s.conn.log).filterMap Event.kind = _ from hk,
    show order.length = 6 from rfl] at hlen
  unfold Authenticated
  generalize handshake s.conn.log = l at hshown hlen
  cases hshown <;> simp at hlen
  case finished n₁ n₂ n₃ n₄ n₅ sh ct ske d fin hkeys hw hr hf =>
    exact ⟨n₁, n₂, n₃, n₄, n₅, sh, ct, ske, d, fin, rfl, hkeys.hello, hkeys.vouched,
      hkeys.signed, hf, hr, hw⟩

theorem authenticated_established : Authenticated Toy.prims Toy.established.conn :=
  (authenticated_iff Toy.established_reached (by decide +kernel)).mpr (by decide +kernel)

/-- Two connections to a host that an attacker answers. In the first one it shows a certificate of
its own, which is rejected; in the second one it shows none. -/
def Toy.impersonated : St (List UInt8) :=
  let own := bytes "m"
  let s := runAll boot ([.connect env 1 443 host] ++ fed [] ++ fed (record contentHandshake
    (certificate own)) ++ [.connect env 1 443 host] ++ fed [] ++ fed (record contentHandshake
    (serverHello ++ keyExchange own ++ helloDone)))
  runAll s (fed (changeCipherSpec ++ sealRecord contentHandshake 0 (finished s.conn) s.conn))

/-- **The certificate of a connection that was rejected** vouches for the next one. -/
theorem certificate_left_out :
    Reached Toy.prims Toy.impersonated ∧ Toy.impersonated.conn.state = .established
      ∧ kinds Toy.impersonated.conn.log
        = [some hsServerHello, some hsServerKeyExchange, some hsServerHelloDone, none,
          some hsFinished]
      ∧ ¬ Authenticated Toy.prims Toy.impersonated.conn := by
  have hk : kinds Toy.impersonated.conn.log
      = [some hsServerHello, some hsServerKeyExchange, some hsServerHelloDone, none,
        some hsFinished] := by decide +kernel
  refine ⟨Toy.runAll_reached (Toy.runAll_reached Toy.boot_reached _) _, by decide +kernel, hk, ?_⟩
  intro hauth
  exact absurd (hk.symm.trans hauth.kinds_eq) (by decide)

/-! ## What the reader gets -/

/-- The application data of an event. -/
def Event.bytes : Event → List UInt8
  | .app_data _ _ plain => plain
  | _ => []

def Event.isData : Event → Bool
  | .app_data _ _ _ => true
  | _ => false

/-- All application data, in the order it came. -/
def appBytes (log : List Event) : List UInt8 := log.flatMap Event.bytes

/-- Application data is that of a record that was opened, under the key of this connection and its
own number, with the Finished of the server before it. -/
def Accepted (P : Prims Cert) (c : Conn Cert) (before : List Event) (plain : List UInt8) : Prop :=
  ∃ earlier seq x tag, before = earlier ++ [.opened seq contentApplicationData x tag plain]
    ∧ P.gcmDecrypt x tag = some plain ∧ x.key = c.server_write_key
    ∧ x.aad.take 8 = seqBytes seq
    ∧ ∃ now fin, .message now hsFinished fin ∈ earlier ∧ Confirmed P fin c

/-- **Only authenticated data reaches the reader.** -/
structure Genuine (P : Prims Cert) (s : St Cert) : Prop where
  delivered : s.taken ++ s.app_recv = appBytes s.conn.log
  accepted : ∀ before state decrypted plain after,
    s.conn.log = before ++ .app_data state decrypted plain :: after → plain ≠ [] →
    Accepted P s.conn before plain

/-- No application data comes before the Finished of the server, or in the clear. -/
def Sheltered (log : List Event) : Prop :=
  ∀ state decrypted plain, .app_data state decrypted plain ∈ log → plain ≠ [] →
    state = .established ∧ decrypted = true

def Event.isSheltered : Event → Bool
  | .app_data state decrypted plain => plain ≠ [] → state = .established ∧ decrypted = true
  | _ => true

theorem sheltered_iff : (∀ x ∈ log, x.isSheltered = true) ↔ Sheltered log := by
  constructor
  · intro h state decrypted plain hmem
    exact of_decide_eq_true (h _ hmem)
  · intro h x hx
    cases x with
    | app_data state decrypted plain => exact decide_eq_true (h state decrypted plain hx)
    | _ => rfl

instance (log : List Event) : Decidable (Sheltered log) := decidable_of_iff _ sheltered_iff

/-- What stands about the application data of a connection at any time. -/
structure Traced (P : Prims Cert) (c : Conn Cert) : Prop where
  last_opened : ∀ earlier seq content_type x tag plain,
    c.log = earlier ++ [.opened seq content_type x tag plain] → c.read_cipher_active = true
  early : c.state = .client_hello_sent ∨ c.state = .client_finished_sent →
    ∀ decrypted plain, .app_data .established decrypted plain ∉ c.log
  accepted : ∀ before plain after,
    c.log = before ++ .app_data .established true plain :: after → Accepted P c before plain
  opened : ∀ before state decrypted plain after earlier seq content_type x tag plain',
    c.log = before ++ .app_data state decrypted plain :: after →
    before = earlier ++ [.opened seq content_type x tag plain'] → decrypted = true
  finished : ∀ before state decrypted plain after,
    c.log = before ++ .app_data state decrypted plain :: after → HasFinished before →
    state = .established

theorem Accepted.mono {before : List Event} {plain : List UInt8} (h : Accepted P c before plain)
    (hk : c'.server_write_key = c.server_write_key) (hm : c'.master_secret = c.master_secret)
    (hs : c'.cipher_suite = c.cipher_suite) (ht : c.transcript <+: c'.transcript) :
    Accepted P c' before plain := by
  obtain ⟨earlier, seq, x, tag, hbefore, hdec, hkey, haad, now, fin, hmem, hconf⟩ := h
  exact ⟨earlier, seq, x, tag, hbefore, hdec, hkey.trans hk.symm, haad, now, fin, hmem,
    hconf.mono hm hs ht⟩

/-- An element that is not in what follows. -/
theorem split_left {α : Type} {l l' before after : List α} {x : α}
    (h : l ++ l' = before ++ x :: after) (hx : x ∉ l') : ∃ after', l = before ++ x :: after' := by
  rcases List.append_eq_append_iff.mp h with ⟨r, rfl, hr⟩ | ⟨r, rfl, hr⟩
  · exact absurd (hr ▸ List.mem_append_right r List.mem_cons_self) hx
  · cases r with
    | nil => exact absurd (show x ∈ [] ++ l' from hr ▸ List.mem_cons_self) hx
    | cons y r =>
      obtain ⟨rfl, -⟩ := List.cons.inj hr
      exact ⟨r, rfl⟩

/-- Events that are not application data. -/
theorem Traced.other {l : List Event} (h : Traced P c) (hlog : c'.log = c.log ++ l)
    (hl : ∀ x ∈ l, x.isData = false)
    (hlast : ∀ earlier seq content_type x tag plain,
      c'.log = earlier ++ [.opened seq content_type x tag plain] → c'.read_cipher_active = true)
    (hst : c'.state = .client_hello_sent ∨ c'.state = .client_finished_sent →
      c.state = .client_hello_sent ∨ c.state = .client_finished_sent)
    (hsame : c.state = .client_hello_sent ∨ c.state = .client_finished_sent
      ∨ (c'.server_write_key = c.server_write_key ∧ c'.master_secret = c.master_secret
        ∧ c'.cipher_suite = c.cipher_suite ∧ c.transcript <+: c'.transcript)) : Traced P c' := by
  have hdata : ∀ state decrypted plain, Event.app_data state decrypted plain ∉ l :=
    fun state decrypted plain hmem => nomatch hl _ hmem
  refine ⟨hlast, fun hs decrypted plain hmem => ?_, fun before plain after heq => ?_,
    fun before state decrypted plain after earlier seq ct x tag p heq => ?_,
    fun before state decrypted plain after heq => ?_⟩
  · rw [hlog, List.mem_append] at hmem
    exact hmem.elim (h.early (hst hs) decrypted plain) (hdata _ _ _)
  · obtain ⟨after', heq'⟩ := split_left (hlog ▸ heq) (hdata _ _ _)
    have hnot : ¬ (c.state = .client_hello_sent ∨ c.state = .client_finished_sent) :=
      fun hs => h.early hs true plain (by rw [heq']; simp)
    rw [not_or] at hnot
    obtain ⟨hk, hm, hs, ht⟩ := (hsame.resolve_left hnot.1).resolve_left hnot.2
    exact (h.accepted before plain after' heq').mono hk hm hs ht
  · obtain ⟨after', heq'⟩ := split_left (hlog ▸ heq) (hdata _ _ _)
    exact h.opened before state decrypted plain after' earlier seq ct x tag p heq'
  · obtain ⟨after', heq'⟩ := split_left (hlog ▸ heq) (hdata _ _ _)
    exact h.finished before state decrypted plain after' heq'

/-- Nothing is noted. -/
theorem Traced.same (h : Traced P c) (hlog : c'.log = c.log)
    (hread : c'.read_cipher_active = c.read_cipher_active)
    (hst : c'.state = .client_hello_sent ∨ c'.state = .client_finished_sent →
      c.state = .client_hello_sent ∨ c.state = .client_finished_sent)
    (hk : c'.server_write_key = c.server_write_key) (hm : c'.master_secret = c.master_secret)
    (hs : c'.cipher_suite = c.cipher_suite) (ht : c.transcript <+: c'.transcript) :
    Traced P c' := by
  refine h.other (l := []) (by rw [hlog, List.append_nil]) (fun x hx => nomatch hx) ?_ hst
    (.inr (.inr ⟨hk, hm, hs, ht⟩))
  rw [hlog, hread]
  exact h.last_opened

/-- A message or a ChangeCipherSpec is noted. -/
theorem last_not_opened {x : Event} (hlog : c'.log = c.log ++ [x])
    (hx : ∀ seq content_type y tag plain, x ≠ .opened seq content_type y tag plain)
    (earlier : List Event) (seq : UInt64) (content_type : UInt8) (y : Aead)
    (tag plain : List UInt8) (h : c'.log = earlier ++ [.opened seq content_type y tag plain]) :
    c'.read_cipher_active = true := by
  rw [hlog, List.append_singleton_inj] at h
  exact absurd h.2 (hx _ _ _ _ _)

/-- **Application data.** -/
theorem Traced.data {plain : List UInt8} (h : Traced P c) (hs : Standing P c) (hl : c.Live)
    (ho : c.read_cipher_active = true → c.Opened P contentApplicationData plain) :
    Traced P (c.note (.app_data c.state c.read_cipher_active plain)) := by
  refine ⟨last_not_opened rfl (by simp), fun hst decrypted plain' hmem => ?_,
    fun before plain' after heq => ?_,
    fun before state decrypted plain' after earlier seq ct x tag p heq hbefore => ?_,
    fun before state decrypted plain' after heq hfin => ?_⟩
  · rcases List.mem_append.mp hmem with hmem | hmem
    · exact h.early hst decrypted plain' hmem
    · have he := (Event.app_data.inj (List.mem_singleton.mp hmem)).1
      rcases hst with hst | hst
      · exact nomatch he.trans hst
      · exact nomatch he.trans hst
  · rcases split_last heq with ⟨rfl, hx⟩ | ⟨after', heq'⟩
    · obtain ⟨hst, hread, rfl⟩ := Event.app_data.inj hx
      obtain ⟨earlier, seq, x, tag, hlog, hdec, hkey, haad⟩ := ho hread.symm
      obtain ⟨now, fin, hmem, hconf⟩ := hs.confirmed hst.symm
      rw [hlog, List.mem_append] at hmem
      have hmem := hmem.resolve_right (by simp)
      exact ⟨earlier, seq, x, tag, hlog, hdec, hkey, haad, now, fin, hmem,
        hconf.mono rfl rfl List.prefix_rfl⟩
    · exact (h.accepted before plain' after' heq').mono rfl rfl rfl List.prefix_rfl
  · rcases split_last heq with ⟨rfl, hx⟩ | ⟨after', heq'⟩
    · obtain ⟨-, hread, -⟩ := Event.app_data.inj hx
      exact hread.trans (h.last_opened earlier seq ct x tag p hbefore)
    · exact h.opened before state decrypted plain' after' earlier seq ct x tag p heq' hbefore
  · rcases split_last heq with ⟨rfl, hx⟩ | ⟨after', heq'⟩
    · obtain ⟨hst, -, -⟩ := Event.app_data.inj hx
      exact hst.trans ((hs.finished hl).mpr hfin)
    · exact h.finished before state decrypted plain' after' heq' hfin

theorem dispatched_traced (hd : Dispatched P e msg_type body
      (s.put (s.conn.note (.message e.now msg_type body))) t) (h : Traced P s.conn) :
    Traced P t.conn := by
  have hlog : t.conn.log = s.conn.log ++ [.message e.now msg_type body] := hd.kept.log
  have hdata : ∀ x ∈ [Event.message e.now msg_type body], x.isData = false := by simp [Event.isData]
  have hlast := last_not_opened hlog (by simp)
  -- a connection still in its handshake has no application data to lose
  have early : s.conn.state = .client_hello_sent ∨ s.conn.state = .client_finished_sent →
      Traced P t.conn := fun hs =>
    h.other hlog hdata hlast (fun _ => hs) (hs.elim .inl fun hs => .inr (.inl hs))
  cases hd with
  | server_hello c hs => exact early (.inl hs)
  | certificate c hs => exact early (.inl hs)
  | server_key_exchange c hs => exact early (.inl hs)
  | certificate_request hs => exact early (.inl hs)
  | server_hello_done premaster c hs => exact early (.inl hs)
  | finished hs => exact early (.inr hs)
  | ignored hs hs' =>
    exact h.other hlog hdata hlast id (.inr (.inr ⟨rfl, rfl, rfl, List.prefix_rfl⟩))
  | refused c hs => exact early hs

/-- The bytes of the log are those the reader took or can take. -/
def Drained (s : St Cert) : Prop := s.taken ++ s.app_recv = appBytes s.conn.log

theorem Drained.note {x : Event} (h : Drained s) (hx : x.bytes = []) (hlog : t.conn.log
    = s.conn.log ++ [x]) (ha : t.app_recv = s.app_recv) (ht : t.taken = s.taken) : Drained t := by
  unfold Drained appBytes at *
  rw [ht, ha, h, hlog, List.flatMap_append]
  simp [hx]

theorem Move.traced (hm : Move P s t) (h : Drained s ∧ Standing P s.conn ∧ Traced P s.conn) :
    Drained t ∧ Standing P t.conn ∧ Traced P t.conn := by
  obtain ⟨hd, hs, h⟩ := h
  suffices hboth : Drained t ∧ Traced P t.conn from ⟨hboth.1, hm.standing hs, hboth.2⟩
  cases hm with
  | connect e ip port hostname =>
    exact ⟨rfl, by simp [Tls.connect], by simp [Tls.connect], by simp [Tls.connect],
      by simp [Tls.connect], by simp [Tls.connect]⟩
  | hello e _ hw =>
    have hconn : (sendClientHello P e s).conn = _ := sendHandshake_conn P e hsClientHello _ _
    have hrest : SameBuffers _ _ := sendHandshake_rest P e hsClientHello
      (clientHelloBody (e.random 32) s.conn.hostname)
      (s.put { s.conn with client_random := e.random 32 })
    have hlog : (sendClientHello P e s).conn.log = [] := by
      rw [hconn]
      exact hs.fresh hw
    have happ : (sendClientHello P e s).app_recv = s.app_recv := hrest.1
    have htaken : (sendClientHello P e s).taken = s.taken := hrest.2.1
    generalize sendClientHello P e s = s₁ at hlog happ htaken
    refine ⟨?_, by simp [St.put, hlog], by simp [St.put, hlog], by simp [St.put, hlog],
      by simp [St.put, hlog], by simp [St.put, hlog]⟩
    change s₁.taken ++ s₁.app_recv = appBytes s₁.conn.log
    rw [hlog, htaken, happ, hd, hs.fresh hw]
  | write e content_type plaintext =>
    obtain ⟨happ, htaken, -⟩ := writeRecord_rest P e content_type plaintext s
    unfold Drained
    rw [writeRecord_conn, happ, htaken]
    exact ⟨hd, h⟩
  | close =>
    exact ⟨hd, h.same rfl rfl (by simp) rfl rfl rfl List.prefix_rfl⟩
  | tcp => exact ⟨hd, h⟩
  | take maxlen =>
    refine ⟨?_, h⟩
    unfold Drained at *
    simp only [pollRecvAppData, List.append_assoc, List.take_append_drop]
    exact hd
  | unconnected =>
    exact ⟨hd, h.same rfl rfl (by simp [St.put, Conn.lost]) rfl rfl rfl List.prefix_rfl⟩
  | quiet c _ hu hq =>
    obtain ⟨state, hst, why, level, desc, notify, transcript, ht, buf⟩ := hq
    refine ⟨hd, h.same rfl rfl (fun hlive => ?_) rfl rfl rfl ht⟩
    rcases hst with rfl | rfl
    · exact hlive
    · exact absurd hlive (by simp [St.put])
  | change_cipher_spec =>
    refine ⟨hd.note rfl rfl rfl rfl, h.other rfl (by simp [Event.isData])
      (last_not_opened rfl (by simp)) id (.inr (.inr ⟨rfl, rfl, rfl, List.prefix_rfl⟩))⟩
  | opened content_type payload plain _ hl ha hdec =>
    exact ⟨hd.note rfl rfl rfl rfl, h.other rfl (by simp [Event.isData]) (fun _ _ _ _ _ _ _ => ha)
      id (.inr (.inr ⟨rfl, rfl, rfl, List.prefix_rfl⟩))⟩
  | app_data plain _ hl ho =>
    refine ⟨?_, h.data hs hl ho⟩
    unfold Drained appBytes at *
    simp only [Conn.note, List.flatMap_append, List.flatMap_singleton, Event.bytes]
    rw [← hd, List.append_assoc]
  | message e msg_type body _ hl =>
    have hdisp := dispatch_dispatched P e msg_type body s
    exact ⟨hd.note rfl hdisp.kept.log hdisp.kept.app_recv hdisp.kept.taken,
      dispatched_traced hdisp h⟩

theorem Reached.traced (h : Reached P s) : Drained s ∧ Standing P s.conn ∧ Traced P s.conn := by
  refine h.keeps (I := fun s => Drained s ∧ Standing P s.conn ∧ Traced P s.conn) ?_
    fun _ _ hm => hm.traced
  intro s hb
  refine ⟨?_, .of_not_live (not_live (.inr (.inl hb.state))) fun _ => hb.log,
    by simp [hb.log], by simp [hb.log], by simp [hb.log], by simp [hb.log], by simp [hb.log]⟩
  unfold Drained
  rw [hb.taken, hb.app_recv, hb.log]
  rfl

/-- **When only authenticated data reaches the reader**: as long as application data comes behind
the Finished of the server, and encrypted. -/
theorem genuine_iff (h : Reached P s) : Genuine P s ↔ Sheltered s.conn.log := by
  obtain ⟨hd, -, ht⟩ := h.traced
  constructor
  · intro hg state decrypted plain hmem hne
    obtain ⟨before, after, hlog⟩ := List.append_of_mem hmem
    obtain ⟨earlier, seq, x, tag, rfl, -, -, -, now, fin, hmem, -⟩ :=
      hg.accepted before state decrypted plain after hlog hne
    exact ⟨ht.finished _ state decrypted plain after hlog ⟨_, List.mem_append_left _ hmem, rfl⟩,
      ht.opened _ state decrypted plain after earlier seq _ x tag plain hlog rfl⟩
  · intro hsh
    refine ⟨hd, fun before state decrypted plain after hlog hne => ?_⟩
    obtain ⟨rfl, rfl⟩ := hsh state decrypted plain (by rw [hlog]; simp) hne
    exact ht.accepted before plain after hlog

/-- A page that comes as it should. -/
def Toy.served : St (List UInt8) :=
  runAll established (fed (sealRecord contentApplicationData 1 (bytes "x") established.conn)
    ++ [.recvAppData 100])

theorem genuine_served : Toy.served.taken = bytes "x" ∧ Genuine Toy.prims Toy.served :=
  ⟨by decide +kernel,
    (genuine_iff (Toy.runAll_reached Toy.established_reached _)).mpr (by decide +kernel)⟩

/-- A page that comes in the clear, before the server has shown anything, and then a handshake. -/
def Toy.injected : St (List UInt8) :=
  let s := runAll boot ([.connect env 1 443 host] ++ fed [] ++ fed (record contentApplicationData
    (bytes "x") ++ record contentHandshake
    (serverHello ++ certificate host ++ keyExchange host ++ helloDone)))
  runAll s (fed (changeCipherSpec ++ sealRecord contentHandshake 0 (finished s.conn) s.conn)
    ++ [.recvAppData 100])

theorem plaintext_delivered :
    Reached Toy.prims Toy.injected ∧ Toy.injected.conn.state = .established
      ∧ Toy.injected.taken = bytes "x" ∧ ¬ Genuine Toy.prims Toy.injected := by
  have hr : Reached Toy.prims Toy.injected :=
    Toy.runAll_reached (Toy.runAll_reached Toy.boot_reached _) _
  exact ⟨hr, by decide +kernel, by decide +kernel,
    fun hg => absurd ((genuine_iff hr).mp hg) (by decide +kernel)⟩

end Tls
