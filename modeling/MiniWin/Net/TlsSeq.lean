import Mathlib.Algebra.Group.Nat.Defs
import Mathlib.Data.List.Induction
import Mathlib.Data.List.Nodup
import MiniWin.Net.TlsMove

/-!
# The record numbers of TLS

The counters of the two sides. What the server sends is numbered as it should be as long as no
ChangeCipherSpec comes behind a record that was accepted; what we send always is.
-/

namespace Tls

open Net Relation

variable {Cert : Type} {P : Prims Cert} {s t : St Cert} {c c' : Conn Cert}

/-! ## The records of the server -/

/-- The key and the number a record was accepted under. -/
def Event.number : Event → Option (List UInt8 × UInt64)
  | .opened seq _ x _ _ => some (x.key, seq)
  | _ => none

def Event.isChange : Event → Bool
  | .change_cipher_spec => true
  | _ => false

/-- The keys and the numbers of the records `tls_decrypt_record` accepted. -/
def numbers (log : List Event) : List (List UInt8 × UInt64) := log.filterMap Event.number

/-- **No record is accepted twice**: none under a key and a number that were used before, and the
counter stands at how many were accepted. -/
structure Numbered (c : Conn Cert) : Prop where
  nodup : (numbers c.log).Nodup
  counted : (numbers c.log).map (fun x => x.2.toNat) = List.range (numbers c.log).length
  server_seq : c.server_seq.toNat = (numbers c.log).length

/-- No ChangeCipherSpec comes behind a record that was accepted. -/
def ChangesFirst (log : List Event) : Prop :=
  ∀ before after, log = before ++ .change_cipher_spec :: after → numbers before = []

/-- How many records were accepted since the last ChangeCipherSpec. -/
def recent (log : List Event) : Nat :=
  log.foldl (fun n x => if x.isChange then 0 else n + (Event.number x).toList.length) 0

theorem numbers_append (log : List Event) (x : Event) :
    numbers (log ++ [x]) = numbers log ++ (Event.number x).toList := by
  unfold numbers
  rw [List.filterMap_append]
  cases h : Event.number x <;> simp [h]

theorem recent_append (log : List Event) (x : Event) :
    recent (log ++ [x])
      = if x.isChange then 0 else recent log + (Event.number x).toList.length := by
  simp only [recent, List.foldl_append, List.foldl_cons, List.foldl_nil]

/-- Behind a list that ends in no ChangeCipherSpec there is nothing new to be asked. -/
theorem changesFirst_append {log : List Event} {x : Event} (hx : x.isChange = false) :
    ChangesFirst (log ++ [x]) ↔ ChangesFirst log := by
  constructor
  · intro h before after heq
    exact h before (after ++ [x]) (by simp [heq])
  · intro h before after heq
    rcases split_last heq with ⟨-, rfl⟩ | ⟨after, hlog⟩
    · exact nomatch hx
    · exact h before after hlog

theorem changesFirst_change {log : List Event} :
    ChangesFirst (log ++ [.change_cipher_spec]) ↔ numbers log = [] := by
  constructor
  · intro h
    exact h log [] rfl
  · intro h before after heq
    have hpre : before <+: log := by
      rcases split_last heq with ⟨rfl, -⟩ | ⟨after, rfl⟩
      · exact List.prefix_rfl
      · exact List.prefix_append _ _
    have hsub := (hpre.filterMap Event.number).length_le
    rw [show log.filterMap Event.number = [] from h] at hsub
    exact List.eq_nil_of_length_eq_zero (Nat.le_zero.mp hsub)

theorem Event.eq_change {x : Event} (h : x.isChange = true) : x = .change_cipher_spec := by
  cases x with
  | change_cipher_spec => rfl
  | _ => exact nomatch h

theorem recent_le (log : List Event) : recent log ≤ (numbers log).length := by
  induction log using List.reverseRecOn with
  | nil => exact Nat.le_refl 0
  | append_singleton log x ih =>
    rw [recent_append, numbers_append, List.length_append]
    split <;> omega

/-- All records that were accepted are recent ones if no change comes behind one. -/
theorem changesFirst_iff (log : List Event) :
    ChangesFirst log ↔ recent log = (numbers log).length := by
  induction log using List.reverseRecOn with
  | nil => exact ⟨fun _ => rfl, fun _ before after h => by simp at h⟩
  | append_singleton log x ih =>
    rw [recent_append, numbers_append, List.length_append]
    cases hx : x.isChange with
    | true =>
      obtain rfl := Event.eq_change hx
      rw [changesFirst_change, if_pos rfl]
      simp only [Event.number, Option.toList_none, List.length_nil, Nat.add_zero]
      exact ⟨fun h => by simp [h], fun h => List.eq_nil_of_length_eq_zero h.symm⟩
    | false =>
      rw [changesFirst_append hx, ih]
      simp

/-- What the counter and the numbers are over a run. -/
structure Counts (c : Conn Cert) : Prop where
  server_seq : c.server_seq = UInt64.ofNat (recent c.log)
  numbers : ChangesFirst c.log →
    (numbers c.log).map Prod.snd = (List.range (numbers c.log).length).map UInt64.ofNat

theorem Counts.of_eq (h : Counts c) (hlog : c'.log = c.log) (hseq : c'.server_seq = c.server_seq) :
    Counts c' :=
  ⟨by rw [hlog, hseq, h.server_seq], by rw [hlog]; exact h.numbers⟩

/-- Messages and application data are not counted. -/
theorem Counts.note {x : Event} (h : Counts c) (hx : x.isChange = false)
    (hn : Event.number x = none) (hlog : c'.log = c.log ++ [x])
    (hseq : c'.server_seq = c.server_seq) : Counts c' := by
  constructor
  · rw [hlog, hseq, h.server_seq, recent_append, hx, hn]
    rfl
  · rw [hlog, changesFirst_append hx, numbers_append, hn]
    simpa using h.numbers

theorem Counts.change (c : Conn Cert) :
    Counts ({ c with read_cipher_active := true, server_seq := 0 }.note .change_cipher_spec) := by
  constructor
  · simp only [Conn.note, recent_append]
    rfl
  · intro hfirst
    simp only [Conn.note, numbers_append] at hfirst ⊢
    rw [changesFirst_change.mp hfirst]
    rfl

theorem Counts.opened (h : Counts c) (content_type : UInt8) (x : Aead) (tag plain : List UInt8) :
    Counts ({ c with server_seq := c.server_seq + 1 }.note
      (.opened c.server_seq content_type x tag plain)) := by
  constructor
  · simp only [Conn.note, recent_append, h.server_seq]
    simp [Event.isChange, Event.number, UInt64.ofNat_add]
  · intro hfirst
    simp only [Conn.note] at hfirst ⊢
    have hc := (changesFirst_append rfl).mp hfirst
    have hrecent := (changesFirst_iff c.log).mp hc
    rw [numbers_append]
    simp only [Event.number, Option.toList_some, List.map_append, List.length_append,
      List.length_singleton, List.range_succ, h.numbers hc, h.server_seq, hrecent, List.map_cons,
      List.map_nil]

theorem Move.counts (hm : Move P s t) (h : Counts s.conn) : Counts t.conn := by
  cases hm with
  | connect e ip port hostname => exact ⟨rfl, fun _ => rfl⟩
  | hello e _ hs =>
    have hconn : (sendClientHello P e s).conn = _ := sendHandshake_conn P e hsClientHello _ _
    refine h.of_eq ?_ ?_ <;> simp only [St.put, hconn, transcriptUpdate]
  | write e content_type plaintext => rwa [writeRecord_conn]
  | close => exact h.of_eq rfl rfl
  | tcp => exact h
  | take => exact h
  | unconnected => exact h.of_eq rfl rfl
  | quiet c _ hl hq =>
    obtain ⟨state, hs, _⟩ := hq
    exact h.of_eq rfl rfl
  | change_cipher_spec => exact .change s.conn
  | opened content_type payload plain _ hl ha hdec => exact h.opened _ _ _ _
  | app_data => exact h.note rfl rfl rfl rfl
  | message e msg_type body =>
    have hk := (dispatch_dispatched P e msg_type body s).kept
    exact h.note rfl rfl hk.log hk.server_seq

theorem Reached.counts (h : Reached P s) : Counts s.conn := by
  refine h.keeps (I := fun s => Counts s.conn) ?_ fun _ _ hm => hm.counts
  intro s hb
  constructor
  · rw [hb.server_seq, hb.log]
    rfl
  · rw [hb.log]
    exact fun _ => rfl

/-- **When no record is accepted twice.** In a connection it is so exactly as long as every
ChangeCipherSpec comes before the first record that is accepted, and the counter has not gone
round. -/
theorem numbered_iff (h : Reached P s) :
    Numbered s.conn
      ↔ ChangesFirst s.conn.log ∧ (numbers s.conn.log).length < 2 ^ 64 := by
  have hc := h.counts
  constructor
  · intro hn
    have hseq := hn.server_seq
    rw [hc.server_seq, UInt64.toNat_ofNat'] at hseq
    have hle := recent_le s.conn.log
    have hmod := Nat.mod_le (recent s.conn.log) (2 ^ 64)
    have hlt := Nat.mod_lt (recent s.conn.log) (show 2 ^ 64 > 0 by decide)
    exact ⟨(changesFirst_iff _).mpr (by omega), by omega⟩
  · rintro ⟨hfirst, hlt⟩
    have hrecent := (changesFirst_iff _).mp hfirst
    have hcounted : (numbers s.conn.log).map (fun x => x.2.toNat)
        = List.range (numbers s.conn.log).length := by
      rw [show (fun x : List UInt8 × UInt64 => x.2.toNat) = UInt64.toNat ∘ Prod.snd from rfl,
        ← List.map_map, hc.numbers hfirst, List.map_map]
      refine (List.map_congr_left fun i hi => ?_).trans (List.map_id _)
      have hi := List.mem_range.mp hi
      simp only [Function.comp_apply, UInt64.toNat_ofNat', id_eq]
      exact Nat.mod_eq_of_lt (by omega)
    refine ⟨?_, hcounted, ?_⟩
    · exact List.Nodup.of_map (fun x => x.2.toNat) (hcounted ▸ List.nodup_range)
    · rw [hc.server_seq, hrecent, UInt64.toNat_ofNat']
      exact Nat.mod_eq_of_lt hlt

theorem numbered_established : Numbered Toy.established.conn :=
  (numbered_iff Toy.established_reached).mpr
    ⟨(changesFirst_iff _).mpr (by decide +kernel), by decide +kernel⟩

/-- An attacker sends the answer of the server a second time. -/
theorem answer_replayed :
    let s := Toy.runAll Toy.established (Toy.fed Toy.answer)
    Reached Toy.prims s ∧ s.conn.state = .established
      ∧ numbers s.conn.log = [(s.conn.server_write_key, 0), (s.conn.server_write_key, 0)]
      ∧ ¬ Numbered s.conn := by
  have hnum : numbers (Toy.runAll Toy.established (Toy.fed Toy.answer)).conn.log
      = [((Toy.runAll Toy.established (Toy.fed Toy.answer)).conn.server_write_key, 0),
        ((Toy.runAll Toy.established (Toy.fed Toy.answer)).conn.server_write_key, 0)] := by
    decide +kernel
  refine ⟨Toy.runAll_reached Toy.established_reached _, by decide +kernel, hnum, fun h => ?_⟩
  have hdup := h.nodup
  rw [hnum] at hdup
  simp at hdup

/-! ## Our records -/

/-- The calls of `gcm_encrypt`. -/
def sealings (sent : List Sent) : List Aead := sent.filterMap Sent.sealing

/-- A record is sealed under the number `n`, and TCP takes it while it is of any use. -/
structure SealedAs (P : Prims Cert) (c : Conn Cert) (n : Nat) (r : Sent) (x : Aead) : Prop where
  key : x.key = c.client_write_key
  nonce : x.nonce = c.client_write_iv ++ seqBytes (UInt64.ofNat n)
  record : ∃ content_type, r.record = sealedRecord P content_type (UInt64.ofNat n) x
    ∧ x.aad = seqBytes (UInt64.ofNat n) ++ [content_type, 3, 3] ++ beBytes 2 x.text.length
  queued : r.queued = true ∨ r.tcp.state ≠ .established ∨ r.tcp.fin_pending = true

/-- **No nonce is used twice**, and a record has the number of the records encrypted before it. -/
structure SealedInOrder (P : Prims Cert) (s : St Cert) : Prop where
  nodup : ((sealings s.sent).map fun x => (x.key, x.nonce)).Nodup
  numbered : ∀ before r after, s.sent = before ++ r :: after → ∀ x, r.sealing = some x →
    (UInt64.ofNat (sealings before).length).toNat = (sealings before).length
      ∧ SealedAs P s.conn (sealings before).length r x

/-- What is true of our records over a run. -/
structure Seals (P : Prims Cert) (s : St Cert) : Prop where
  idle : s.conn.write_cipher_active = false → sealings s.sent = []
  client_seq : s.conn.write_cipher_active = true →
    s.client_seq = UInt64.ofNat (sealings s.sent).length
  records : ∀ before r after, s.sent = before ++ r :: after → ∀ x, r.sealing = some x →
    SealedAs P s.conn (sealings before).length r x

theorem sealings_append (sent : List Sent) (r : Sent) :
    sealings (sent ++ [r]) = sealings sent ++ r.sealing.toList := by
  unfold sealings
  rw [List.filterMap_append]
  cases h : r.sealing <;> simp [h]

theorem Seals.of_idle (ha : s.conn.write_cipher_active = false) (hs : sealings s.sent = []) :
    Seals P s := by
  refine ⟨fun _ => hs, fun h => absurd h (by rw [ha]; decide), fun before r after hsent x hx => ?_⟩
  have hmem : x ∈ sealings s.sent :=
    List.mem_filterMap.mpr ⟨r, by rw [hsent]; simp, hx⟩
  rw [hs] at hmem
  exact nomatch hmem

/-- What does not touch the sending side. -/
theorem Seals.of_eq (h : Seals P s) (hsent : t.sent = s.sent) (hseq : t.client_seq = s.client_seq)
    (ha : t.conn.write_cipher_active = s.conn.write_cipher_active)
    (hk : t.conn.client_write_key = s.conn.client_write_key)
    (hiv : t.conn.client_write_iv = s.conn.client_write_iv) : Seals P t := by
  refine ⟨?_, ?_, fun before r after heq x hx => ?_⟩
  · rw [ha, hsent]
    exact h.idle
  · rw [ha, hsent, hseq]
    exact h.client_seq
  · obtain ⟨hkey, hnonce, hrecord, hqueued⟩ := h.records before r after (hsent ▸ heq) x hx
    exact ⟨hkey.trans hk.symm, hiv ▸ hnonce, hrecord, hqueued⟩

variable {content_type msg_type : UInt8} {plaintext body : List UInt8} {e : Env}

/-- **A record is written**, and sealed under the next number. -/
theorem Written.seals (hw : Written P content_type plaintext s t) (h : Seals P s) : Seals P t := by
  cases hw with
  | refused => exact h
  | plain tcp queued ha =>
    refine .of_idle ha ?_
    rw [sealings_append, h.idle ha]
    rfl
  | sealed tcp queued ha hq =>
    have hseq := h.client_seq ha
    refine ⟨fun hi => absurd hi (by simp [ha]), fun _ => ?_, fun before r after heq x hx => ?_⟩
    · rw [sealings_append, List.length_append, hseq]
      simp [UInt64.ofNat_add]
    · rcases split_last heq with ⟨rfl, rfl⟩ | ⟨after', hsent⟩
      · obtain rfl := Option.some.inj hx
        refine ⟨rfl, ?_, ⟨content_type, ?_, ?_⟩, ?_⟩
        · simp only [sealing, hseq]
        · simp only [hseq]
        · simp only [sealing, hseq]
        · cases queued with
          | true => exact .inl rfl
          | false => exact .inr (hq rfl)
      · exact h.records before r after' hsent x hx

theorem sendHandshake_seals (e : Env) (msg_type : UInt8) (body : List UInt8) (h : Seals P s) :
    Seals P (sendHandshake P e msg_type body s) :=
  (writeRecord_written P e contentHandshake _ _).seals (h.of_eq rfl rfl rfl rfl rfl)

/-- The count begins again before anything is sealed. -/
theorem sendFinished_seals (e : Env) (ha : s.conn.write_cipher_active = false)
    (h : Seals P s) : Seals P (sendFinished P e s) := by
  have hccs := (writeRecord_written P e contentChangeCipherSpec [1] s).seals h
  have hnone := hccs.idle (by rwa [writeRecord_conn])
  refine sendHandshake_seals e _ _ ⟨(nomatch ·), fun _ => ?_, ?_⟩
  · simp only [hnone]
    rfl
  · intro before r after heq x hx
    have hmem : x ∈ sealings (writeRecord P e contentChangeCipherSpec [1] s).2.sent :=
      List.mem_filterMap.mpr ⟨r, by rw [heq]; simp, hx⟩
    rw [hnone] at hmem
    exact nomatch hmem

theorem serverHelloDone_seals (e : Env) (ha : s.conn.write_cipher_active = false)
    (h : Seals P s) : Seals P (serverHelloDone P e s) := by
  obtain ⟨priv, pub, hframe⟩ := keyExchange_frame P e s.conn
  unfold serverHelloDone
  split
  · next c hk =>
    obtain rfl : c = _ := (congrArg Prod.snd hk).symm.trans hframe
    exact h.of_eq rfl rfl rfl rfl rfl
  · next premaster c hk =>
    obtain rfl : c = _ := (congrArg Prod.snd hk).symm.trans hframe
    generalize hc : deriveKeys P premaster _ = c
    have hca : c.write_cipher_active = false := by rw [← hc]; exact ha
    have h₁ : Seals P (sendClientKeyExchange P e (s.put c)) :=
      sendHandshake_seals e _ _ (.of_idle hca (h.idle ha))
    have ha₁ : (sendClientKeyExchange P e (s.put c)).conn.write_cipher_active = false := by
      rw [sendClientKeyExchange, sendHandshake_conn]
      exact hca
    have h₂ := sendFinished_seals e ha₁ h₁
    generalize sendFinished P e (sendClientKeyExchange P e (s.put c)) = s₂ at h₂ ⊢
    exact h₂.of_eq rfl rfl rfl rfl rfl

/-- Before the client has sent its Finished, nothing is sealed. -/
def Early (c : Conn Cert) : Prop :=
  c.write_cipher_active = true → c.state ≠ .wait_tcp ∧ c.state ≠ .client_hello_sent

theorem Early.inactive (h : Early c) (hs : c.state = .wait_tcp ∨ c.state = .client_hello_sent) :
    c.write_cipher_active = false := by
  cases ha : c.write_cipher_active with
  | false => rfl
  | true =>
    obtain ⟨hw, hh⟩ := h ha
    exact absurd hs (by simp [hw, hh])

theorem Dispatched.seals (hd : Dispatched P e msg_type body s t) (h : Seals P s)
    (hearly : Early s.conn) : Seals P t ∧ Early t.conn := by
  cases hd with
  | server_hello c hs ht hp =>
    obtain ⟨why, r, suite, hframe⟩ := parseServerHello_frame body s.conn
    obtain rfl : c = _ := (congrArg Prod.snd hp).symm.trans hframe
    exact ⟨h.of_eq rfl rfl rfl rfl rfl, hearly⟩
  | certificate c hs ht hp =>
    obtain ⟨why, chain, n, hframe⟩ := acceptCertificate_frame P e.now body s.conn
    obtain rfl : c = _ := (congrArg Prod.snd hp).symm.trans hframe
    exact ⟨h.of_eq rfl rfl rfl rfl rfl, hearly⟩
  | server_key_exchange c hs ht hp =>
    obtain ⟨why, curve, key, hframe⟩ := parseServerKeyExchange_frame P body s.conn
    obtain rfl : c = _ := (congrArg Prod.snd hp).symm.trans hframe
    exact ⟨h.of_eq rfl rfl rfl rfl rfl, hearly⟩
  | certificate_request => exact ⟨h, hearly⟩
  | server_hello_done premaster c hs ht hk =>
    refine ⟨serverHelloDone_seals e (hearly.inactive (.inr hs)) h, fun _ => ?_⟩
    have hconn := serverHelloDone_conn P e s
    rw [hk] at hconn
    rw [hconn]
    exact ⟨by simp [flight], by simp [flight]⟩
  | finished => exact ⟨h.of_eq rfl rfl rfl rfl rfl, fun _ => ⟨by simp [St.put], by simp [St.put]⟩⟩
  | ignored => exact ⟨h, hearly⟩
  | refused c hs hr =>
    cases hr
    exact ⟨h.of_eq rfl rfl rfl rfl rfl, fun _ => ⟨by simp [St.put], by simp [St.put]⟩⟩

theorem Move.seals (hm : Move P s t) (h : Seals P s ∧ Early s.conn) :
    Seals P t ∧ Early t.conn := by
  obtain ⟨h, hearly⟩ := h
  cases hm with
  | connect e ip port hostname => exact ⟨.of_idle rfl rfl, (nomatch ·)⟩
  | hello e _ hs =>
    have ha := hearly.inactive (.inl hs)
    have hw := sendHandshake_seals e hsClientHello
      (clientHelloBody (e.random 32) s.conn.hostname)
      (show Seals P (s.put { s.conn with client_random := e.random 32 }) from
        .of_idle ha (h.idle ha))
    have hconn := sendHandshake_conn P e hsClientHello
      (clientHelloBody (e.random 32) s.conn.hostname)
      (s.put { s.conn with client_random := e.random 32 })
    simp only [sendClientHello]
    generalize sendHandshake P e hsClientHello _ _ = s₁ at hw hconn ⊢
    refine ⟨hw.of_eq rfl rfl rfl rfl rfl, fun hact => ?_⟩
    have hact : s₁.conn.write_cipher_active = true := hact
    rw [hconn] at hact
    exact absurd (ha.symm.trans hact) (by decide)
  | write e content_type plaintext =>
    refine ⟨(writeRecord_written P e content_type plaintext s).seals h, ?_⟩
    rwa [writeRecord_conn]
  | close => exact ⟨h.of_eq rfl rfl rfl rfl rfl, fun _ => ⟨by simp, by simp⟩⟩
  | tcp => exact ⟨h.of_eq rfl rfl rfl rfl rfl, hearly⟩
  | take => exact ⟨h.of_eq rfl rfl rfl rfl rfl, hearly⟩
  | unconnected =>
    exact ⟨h.of_eq rfl rfl rfl rfl rfl, fun _ => ⟨by simp [St.put, Conn.lost],
      by simp [St.put, Conn.lost]⟩⟩
  | quiet c _ hl hq =>
    obtain ⟨state, hs, _⟩ := hq
    refine ⟨h.of_eq rfl rfl rfl rfl rfl, fun ha => ?_⟩
    rcases hs with rfl | rfl
    · exact hearly ha
    · exact ⟨by simp [St.put], by simp [St.put]⟩
  | change_cipher_spec => exact ⟨h.of_eq rfl rfl rfl rfl rfl, hearly⟩
  | opened => exact ⟨h.of_eq rfl rfl rfl rfl rfl, hearly⟩
  | app_data => exact ⟨h.of_eq rfl rfl rfl rfl rfl, hearly⟩
  | message e msg_type body =>
    exact (dispatch_dispatched P e msg_type body s).seals (h.of_eq rfl rfl rfl rfl rfl) hearly

theorem Reached.seals (h : Reached P s) : Seals P s := by
  refine (h.keeps (I := fun s => Seals P s ∧ Early s.conn) ?_ fun _ _ hm => hm.seals).1
  intro s hb
  refine ⟨.of_idle hb.write_cipher_active (by rw [hb.sent]; rfl), fun ha => ?_⟩
  rw [hb.write_cipher_active] at ha
  exact nomatch ha

/-! ### Numbers and nonces -/

theorem be_seqBytes (seq : UInt64) : be (seqBytes seq) = seq.toNat := by
  have hlt := seq.toNat_lt
  simp only [be, seqBytes, beBytes, List.range_succ, List.range_zero, List.nil_append,
    List.cons_append, List.map_cons, List.map_nil, List.foldl_cons, List.foldl_nil,
    UInt8.toNat_ofNat', Nat.shiftRight_eq_div_pow]
  omega

theorem seqBytes_inj {a b : UInt64} (h : seqBytes a = seqBytes b) : a = b := by
  rw [← UInt64.toNat_inj, ← be_seqBytes, ← be_seqBytes, h]

/-- The nonces are those of the numbers from nought. -/
theorem Seals.nonces (h : Seals P s) :
    (sealings s.sent).map (fun x => (x.key, x.nonce))
      = (List.range (sealings s.sent).length).map fun n =>
        (s.conn.client_write_key, s.conn.client_write_iv ++ seqBytes (UInt64.ofNat n)) := by
  have hrec := h.records
  generalize s.sent = sent at hrec
  induction sent using List.reverseRecOn with
  | nil => rfl
  | append_singleton sent r ih =>
    have ih := ih fun before r' after heq => hrec before r' (after ++ [r]) (by simp [heq])
    rw [sealings_append, List.map_append, List.length_append, ih]
    cases hx : r.sealing with
    | none => simp
    | some x =>
      obtain ⟨hkey, hnonce, -, -⟩ := hrec sent r [] rfl x hx
      simp [List.range_succ, hkey, hnonce]

/-- **No nonce is used twice** as long as no more records are encrypted than there are numbers. -/
theorem sealed_in_order (h : Reached P s) (hn : (sealings s.sent).length ≤ 2 ^ 64) :
    SealedInOrder P s := by
  have hs := h.seals
  constructor
  · rw [hs.nonces]
    refine List.Nodup.map_on (fun i hi j hj heq => ?_) List.nodup_range
    have hi := List.mem_range.mp hi
    have hj := List.mem_range.mp hj
    have hnat := congrArg UInt64.toNat
      (seqBytes_inj (List.append_cancel_left (Prod.mk.inj heq).2))
    rw [UInt64.toNat_ofNat', UInt64.toNat_ofNat', Nat.mod_eq_of_lt (by omega),
      Nat.mod_eq_of_lt (by omega)] at hnat
    exact hnat
  · intro before r after heq x hx
    refine ⟨?_, hs.records before r after heq x hx⟩
    have hlt : (sealings before).length < (sealings s.sent).length := by
      simp only [heq, sealings, List.filterMap_append, List.filterMap_cons_some hx,
        List.length_append, List.length_cons]
      omega
    rw [UInt64.toNat_ofNat']
    exact Nat.mod_eq_of_lt (by omega)

theorem sealed_in_order_established : SealedInOrder Toy.prims Toy.established :=
  sealed_in_order Toy.established_reached (by decide +kernel)

/-- A byte is sent where TCP has room for it. -/
theorem sendAppData_one (e : Env) (b : UInt8) (hs : s.conn.state = .established)
    (ha : s.conn.write_cipher_active = true) (hroom : 30 ≤ Tcp.sendSpace s.tcp.conn) :
    (sendAppData P e [b] s).2.conn = s.conn
      ∧ (sealings (sendAppData P e [b] s).2.sent).length = (sealings s.sent).length + 1 := by
  have hw : (sendAppData P e [b] s).2 = (writeRecord P e contentApplicationData [b] s).2 := by
    simp only [sendAppData, hs, ne_eq, not_true_eq_false, if_false, List.length_singleton,
      sendChunks, List.cons_ne_nil, maxRecordPlaintext, List.take_succ_cons, List.take_nil]
    split <;> simp_all
  refine ⟨by rw [hw, writeRecord_conn], ?_⟩
  rw [hw]
  simp only [writeRecord, ha, if_true, List.length_singleton, sendRecord,
    if_neg (show ¬ 5 + 1 + (8 + 16) > Tcp.sendSpace s.tcp.conn by omega), sealings_append,
    Option.toList_some, List.length_append]

/-- So many records of one byte. -/
def Toy.sending (n : Nat) : List Call :=
  (List.replicate n [Toy.arrived [], .sendAppData Toy.env [0]]).flatten

theorem Toy.sending_sealings (n : Nat) {s : St (List UInt8)} (hs : s.conn.state = .established)
    (ha : s.conn.write_cipher_active = true) :
    (sealings (Toy.runAll s (Toy.sending n)).sent).length = (sealings s.sent).length + n := by
  induction n generalizing s with
  | zero => rfl
  | succ n ih =>
    obtain ⟨hconn, hlen⟩ := sendAppData_one (P := Toy.prims) (s := Call.run Toy.prims s
      (Toy.arrived [])) Toy.env 0 hs ha (show 30 ≤ 20480 by decide)
    have hstep : Toy.runAll s (Toy.sending (n + 1)) = Toy.runAll
        (sendAppData Toy.prims Toy.env [0] (Call.run Toy.prims s (Toy.arrived []))).2
        (Toy.sending n) := rfl
    rw [hstep, ih (by rw [hconn]; exact hs) (by rw [hconn]; exact ha), hlen]
    change (sealings s.sent).length + 1 + n = _
    omega

/-- **The number goes round**: behind our Finished, `2 ^ 64` records of application data bring the
first nonce again. -/
theorem number_goes_round :
    let s := Toy.runAll Toy.established (Toy.sending (2 ^ 64))
    Reached Toy.prims s ∧ ¬ SealedInOrder Toy.prims s := by
  generalize hn : 2 ^ 64 = n
  have hr := Toy.runAll_reached Toy.established_reached (Toy.sending n)
  refine ⟨hr, fun h => ?_⟩
  have hlen := Toy.sending_sealings n (s := Toy.established) (by decide +kernel)
    (by decide +kernel)
  have hone : (sealings Toy.established.sent).length = 1 := by decide +kernel
  have hdup := h.nodup
  rw [hr.seals.nonces, hlen, hone] at hdup
  have h0 : (UInt64.ofNat 0) = UInt64.ofNat n := by
    rw [← UInt64.toNat_inj, UInt64.toNat_ofNat', UInt64.toNat_ofNat', ← hn, Nat.mod_self,
      Nat.zero_mod]
  have hinj := List.inj_on_of_nodup_map hdup (x := 0) (y := n)
    (List.mem_range.mpr (by omega)) (List.mem_range.mpr (by omega))
  simp only [h0, forall_const] at hinj
  omega

end Tls
