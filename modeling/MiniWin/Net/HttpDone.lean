import MiniWin.Net.HttpCuts
import MiniWin.Net.HttpPoll
import MiniWin.Net.TcpRun
import MiniWin.Net.TlsMove

/-!
# HTTP: when a response counts as complete

A client is done when the bytes it has taken say that the response has ended, or when the transport
has and there is nothing left to take. The first is a matter of the bytes alone, however they were
cut; the second is not: the end of the transport may come anywhere in the response.
-/

namespace Hr

open Net Walk

/-! ## Responses that do not fit -/

section
variable {m : Block} {X d : List UInt8} {s s' t : Resp} {fuel i old : Nat}

theorem parseHeaders_truncated (head : List UInt8) (s : Resp) (q : Bool) :
    parseHeaders head { s with truncated := q } = { parseHeaders head s with truncated := q } := by
  have hline : ∀ (t : Resp) (l : List UInt8), headerLine { t with truncated := q } l
      = { headerLine t l with truncated := q } := by
    intro t l
    unfold headerLine
    dsimp only
    repeat' split
    all_goals rfl
  have hfold : ∀ (ls : List (List UInt8)) (t : Resp),
      ls.foldl headerLine { t with truncated := q } = { ls.foldl headerLine t with truncated := q } :=
    fun ls t => @List.foldl_hom _ _ _ (fun t : Resp => { t with truncated := q }) _ _ ls t hline
  exact hfold _ { s with status := _ }

theorem lookForEnd_truncated (s : Resp) (q : Bool) :
    lookForEnd old { s with truncated := q } = { lookForEnd old s with truncated := q } := by
  unfold lookForEnd
  dsimp only
  split
  · rfl
  split
  · rfl
  · unfold headersEnd
    dsimp only
    rw [parseHeaders_truncated _ { s with hdr_done := true, body_start := _ }]
    dsimp only
    split <;> rfl

/-- The response when these bytes have arrived, of which the buffer holds the first. -/
def Holds (m : Block) (X : List UInt8) (s : Resp) : Prop :=
  ∃ c p, s = { seen m (X.take bufSize) with
      truncated := decide (bufSize < X.length), complete := c, chunk_pos := p }
    ∧ if headEnd (X.take bufSize) = none then c = false ∧ p = 0
      else Settled (seen m (X.take bufSize)) c p

theorem Holds.reset (m : Block) : Holds m [] (reset m) :=
  ⟨false, 0, rfl, (if_pos (show headEnd [] = none from rfl)).mpr ⟨rfl, rfl⟩⟩

theorem take_append_room : (X ++ d).take bufSize
    = X.take bufSize ++ d.take (bufSize - (X.take bufSize).length) := by
  rw [List.take_append, List.length_take]
  congr 2
  omega

/-- **A call of `hr_feed`**, also when the buffer is full. -/
theorem Holds.feed (h : Holds m X s) (hf : feed fuel d s = some s') : Holds m (X ++ d) s' := by
  obtain ⟨c, p, rfl, hs⟩ := h
  obtain ⟨Y, hY⟩ : ∃ Y, X.take bufSize = Y := ⟨_, rfl⟩
  obtain ⟨a, ha⟩ : ∃ a, d.take (bufSize - Y.length) = a := ⟨_, rfl⟩
  obtain ⟨q, hq⟩ : ∃ q, decide (bufSize < (X ++ d).length) = q := ⟨_, rfl⟩
  have hYlen : Y.length = min bufSize X.length := by rw [← hY, List.length_take]
  have halen : a.length = min (bufSize - Y.length) d.length := by rw [← ha, List.length_take]
  have hall : (X ++ d).take bufSize = Y ++ a := by rw [take_append_room, hY, ha]
  rw [hY] at hs
  unfold Holds
  rw [hall, hq]
  have hst : Stands m Y { seen m Y with complete := c, chunk_pos := p } := ⟨c, p, rfl, hs⟩
  have hlen := (seen_spec m Y).2.1
  have hstore : store d { seen m Y with
        truncated := decide (bufSize < X.length), complete := c, chunk_pos := p }
      = { store a { seen m Y with complete := c, chunk_pos := p } with truncated := q } := by
    have hflag : (decide (bufSize < X.length) || decide (min d.length (bufSize - Y.length) < d.length))
        = q := by
      rw [← hq, List.length_append, ← Bool.decide_or, decide_eq_decide]
      omega
    have htake : d.take (min d.length (bufSize - Y.length)) = a := by
      rw [← ha, Nat.min_comm, ← List.take_eq_take_min]
    unfold store
    dsimp only
    rw [hlen, hflag, htake, Nat.min_eq_left (show a.length ≤ bufSize - Y.length by omega),
      List.take_length, show min d.length (bufSize - Y.length) = a.length by omega]
  obtain ⟨c₁, p₁, heq, hnone, hfin, hway⟩ := hst.lookForEnd (d := a)
    (by rw [List.length_append]; omega)
  unfold Hr.feed at hf
  rw [hY] at hf
  rw [hstore, lookForEnd_truncated] at hf
  change settle fuel { lookForEnd (seen m Y).len _ with truncated := q } = _ at hf
  rw [show (seen m Y).len = ({ seen m Y with complete := c, chunk_pos := p } : Resp).len from rfl,
    heq] at hf
  have hdone := (seen_spec m (Y ++ a)).2.2.2.2.2
  cases hend : headEnd (Y ++ a) with
  | none =>
    rw [hend] at hdone
    unfold settle at hf
    rw [if_neg fun hc => absurd (hdone.symm.trans hc.1) (by decide)] at hf
    obtain rfl := Option.some.inj hf
    exact ⟨c₁, p₁, rfl, by rw [if_pos rfl]; exact hnone hend⟩
  | some i =>
    rw [hend] at hdone
    obtain ⟨c', p', rfl, hs'⟩ := settle_some (r := { seen m (Y ++ a) with truncated := q }) hdone
      (fun hc => ⟨(hfin hc).bodyless, (hfin hc).walked, (hfin hc).sized⟩) hway hf
    exact ⟨c', p', rfl, by
      rw [if_neg (by simp)]
      exact ⟨hs'.bodyless, hs'.walked, hs'.sized⟩⟩

theorem Holds.starts (h : Holds m X s) : s.len = (X.take bufSize).length
    ∧ s.hdr_done = (headEnd (X.take bufSize)).isSome
    ∧ s.truncated = decide (bufSize < X.length) ∧ s.finished = false := by
  obtain ⟨c, p, rfl, -⟩ := h
  obtain ⟨-, hlen, -, -, hfin, hdone⟩ := seen_spec m (X.take bufSize)
  exact ⟨hlen, hdone, rfl, hfin⟩

/-! ## The end of a response -/

/-- **The bytes say that the response has ended**: its headers are all there, and it has no body, or
the sizes of its chunks lead to a line that is zero or no number, or there are as many bytes behind
the headers as they say. -/
def EndsIn (X : List UInt8) : Prop :=
  ∃ i, headEnd X = some i ∧
    (noBody (seen Block.zero X).status = true
      ∨ ((seen Block.zero X).chunked = true ∧ ∃ p,
        Leads (nextChunk (mem Block.zero X) X.length) (i + 4) p
          ∧ lineAt (mem Block.zero X) X.length p = .last)
      ∨ ((seen Block.zero X).chunked = false ∧ (seen Block.zero X).have_clen = true
        ∧ (seen Block.zero X).clen.toNat ≤ X.length - (i + 4)))

theorem seen_moved (h : headEnd X = some i) : seen m X
    = { seen Block.zero X with buf := mem m X, len := X.length } := by
  have happ := seen_append (m := m) (e := Block.zero) (d := []) h
  rw [List.append_nil] at happ
  exact happ

/-- **Complete means that the bytes say so.** -/
theorem Holds.endsIn (h : Holds m X s) (hc : s.complete = true) : EndsIn (X.take bufSize) := by
  obtain ⟨c, p, rfl, hs⟩ := h
  obtain rfl : c = true := hc
  obtain ⟨Y, hY⟩ : ∃ Y, X.take bufSize = Y := ⟨_, rfl⟩
  rw [hY] at hs ⊢
  cases hend : headEnd Y with
  | none =>
    rw [if_pos hend] at hs
    exact nomatch hs.1
  | some i =>
    rw [if_neg (by rw [hend]; simp)] at hs
    have hmoved := seen_moved (m := m) hend
    refine ⟨i, hend, ?_⟩
    obtain ⟨hbuf, hlen, -⟩ := seen_spec m Y
    have hstart := seen_start (m := m) hend
    cases hno : noBody (seen Block.zero Y).status with
    | true => exact .inl rfl
    | false =>
      have hno' : noBody (seen m Y).status = false := by rw [hmoved]; exact hno
      cases hch : (seen Block.zero Y).chunked with
      | true =>
        have hch' : (seen m Y).chunked = true := by rw [hmoved]; exact hch
        obtain ⟨hp, -, hlast⟩ := hs.walked hno' hch'
        rw [hbuf, hlen, hstart.2] at hp
        rw [hbuf, hlen] at hlast
        have hsame : ∀ k < Y.length, mem Block.zero Y k = mem m Y k := fun k hk => by
          rw [mem_apply hk, mem_apply hk]
        refine .inr (.inl ⟨rfl, p, hp.mono (nextChunk_mono (Nat.le_refl _) hsame), ?_⟩)
        rw [lineAt_congr fun k _ hk => hsame k hk]
        exact of_decide_eq_true hlast.symm
      | false =>
        have hch' : (seen m Y).chunked = false := by rw [hmoved]; exact hch
        obtain ⟨hhave, hge⟩ := of_decide_eq_true (hs.sized hno' hch').symm
        rw [hmoved] at hhave hge
        refine .inr (.inr ⟨rfl, hhave, ?_⟩)
        rw [← hmoved, hlen, hstart.1] at hge
        rw [hmoved] at hge
        exact hge

/-- **What a client shows** of the bytes it has taken, when `over` says that the transport came to
an end behind them. -/
structure Shown (X : List UInt8) («over» : Prop) (s : Resp) : Prop where
  fits : X.length ≤ bufSize ∧ s.too_big = false ∨ isRedirect s = true
  ends : EndsIn (X.take bufSize) ∨ «over»
  /-- A body of a known length is that many bytes from behind the headers. -/
  sized : ∀ i, headEnd X = some i → (seen Block.zero X).chunked = false →
    (seen Block.zero X).have_clen = true → X.length ≤ bufSize →
    (seen Block.zero X).clen.toNat ≤ X.length - (i + 4) →
    s.buf.slice s.body_start s.body_len = (X.drop (i + 4)).take (seen Block.zero X).clen.toNat

theorem finish_kept (h : finish fuel s = some s') : s'.too_big = s.too_big
    ∧ isRedirect s' = isRedirect s := by
  unfold finish at h
  split at h
  · obtain rfl := Option.some.inj h
    exact ⟨rfl, rfl⟩
  split at h
  · obtain rfl := Option.some.inj h
    exact ⟨rfl, rfl⟩
  split at h
  · obtain ⟨⟨w, buf⟩, -, rfl⟩ := Option.map_eq_some_iff.mp h
    exact ⟨rfl, rfl⟩
  · obtain rfl := Option.some.inj h
    exact ⟨rfl, rfl⟩

/-- **The body of a known length.** -/
theorem Holds.finish_sized (h : Holds m X s) (hf : finish fuel s = some s') {i : Nat}
    (hi : headEnd X = some i) (hch : (seen Block.zero X).chunked = false)
    (hhave : (seen Block.zero X).have_clen = true) (hfit : X.length ≤ bufSize)
    (hle : (seen Block.zero X).clen.toNat ≤ X.length - (i + 4)) :
    s'.buf.slice s'.body_start s'.body_len
      = (X.drop (i + 4)).take (seen Block.zero X).clen.toNat := by
  obtain ⟨c, p, rfl, -⟩ := h
  rw [List.take_of_length_le hfit] at hf
  obtain ⟨hbuf, hlen, -, -, hfin, hdone⟩ := seen_spec m X
  have hstart := (seen_start (m := m) hi).1
  have hmoved := seen_moved (m := m) hi
  have hch' : (seen m X).chunked = false := by rw [hmoved]; exact hch
  have hhave' : (seen m X).have_clen = true := by rw [hmoved]; exact hhave
  have hclen : (seen m X).clen = (seen Block.zero X).clen := by rw [hmoved]
  have hlt := headEnd_lt hi
  unfold finish at hf
  rw [if_neg (by rw [hfin]; decide), if_neg (by rw [hdone, hi]; simp),
    if_neg (by rw [hch']; decide)] at hf
  obtain rfl := Option.some.inj hf
  have hcut : (if (seen m X).have_clen = true ∧ (seen m X).clen.toNat < (seen m X).len
        - (seen m X).body_start then (seen m X).clen.toNat
      else (seen m X).len - (seen m X).body_start) = (seen Block.zero X).clen.toNat := by
    rw [hhave', hclen, hlen, hstart]
    by_cases hlt' : (seen Block.zero X).clen.toNat < X.length - (i + 4)
    · exact if_pos ⟨rfl, hlt'⟩
    · rw [if_neg fun hc => hlt' hc.2]
      omega
  dsimp only
  rw [hcut, hbuf, hstart]
  refine List.ext_getElem (by rw [Block.length_slice, List.length_take, List.length_drop]; omega)
    fun k hk _ => ?_
  rw [Block.length_slice] at hk
  rw [Block.getElem_slice, mem_apply (by omega), List.getElem_take, List.getElem_drop]

theorem Holds.shown (h : Holds m X s) (hf : finish fuel s = some s') (hfits : sizeFatal s = false)
    {«over» : Prop} (hends : s.complete = true ∨ «over») : Shown X «over» s' where
  fits := by
    obtain ⟨htoo, hred⟩ := finish_kept hf
    rw [htoo, hred]
    unfold sizeFatal at hfits
    cases hr : isRedirect s with
    | true => exact .inr rfl
    | false =>
      rw [hr, Bool.not_false, Bool.and_true, Bool.or_eq_false_iff, h.starts.2.2.1] at hfits
      exact .inl ⟨Nat.le_of_not_lt (of_decide_eq_false hfits.1), hfits.2⟩
  ends := hends.imp_left h.endsIn
  sized i hi hch hhave hfit hle := h.finish_sized hf hi hch hhave hfit hle

end

end Hr

namespace Http

open Net Hr

/-! ## The loop -/

variable {σ ε : Type}

/-- **What the loop may rely on**: the bytes come out of the queue in order, and nothing else
changes. -/
structure Transport.Lawful (T : Transport ε σ) : Prop where
  queue : ∀ e t, (T.recv e t).1 ++ T.queue (T.recv e t).2 = T.queue t
  «over» : ∀ e t, T.over (T.recv e t).2 = T.over t
  lost : ∀ e t, T.lost (T.recv e t).2 = T.lost t

/-- The response is made of what was taken. -/
def St.Holds (s : St σ) : Prop := ∃ m, Hr.Holds m s.pieces.flatten s.hr

/-- From one state to another only bytes were taken. -/
structure Drained (T : Transport ε σ) (s s' : St σ) : Prop where
  client : s'.client = s.client
  post : s'.post = s.post
  taken : s'.pieces.flatten ++ T.queue s'.link = s.pieces.flatten ++ T.queue s.link
  «over» : T.over s'.link = T.over s.link
  lost : T.lost s'.link = T.lost s.link
  holds : s.Holds → s'.Holds

variable {T : Transport ε σ} {fuel : Nat} {e : ε} {s s' : St σ}

theorem drain_drained (hT : T.Lawful) : ∀ {n : Nat} {s : St σ}, drain T fuel e n s = some s' →
    Drained T s s'
  | 0, s, h => by
    obtain rfl := Option.some.inj h
    exact ⟨rfl, rfl, rfl, rfl, rfl, id⟩
  | n + 1, s, h => by
    unfold drain at h
    split at h
    · obtain rfl := Option.some.inj h
      exact ⟨rfl, rfl, rfl, rfl, rfl, id⟩
    have hqueue := hT.queue e s.link
    have hover := hT.over e s.link
    have hlost := hT.lost e s.link
    split at h
    · next link hrecv =>
      rw [hrecv] at hqueue hover hlost
      obtain rfl := Option.some.inj h
      exact ⟨rfl, rfl, by rw [← hqueue]; rfl, hover, hlost, id⟩
    · next data link _ hrecv =>
      rw [hrecv] at hqueue hover hlost
      obtain ⟨hr, hfeed, hrest⟩ := Option.bind_eq_some_iff.mp h
      have ih := drain_drained hT hrest
      refine ⟨ih.client, ih.post, ?_, ih.over.trans hover, ih.lost.trans hlost, fun hs => ?_⟩
      · rw [ih.taken, ← hqueue, List.flatten_append, List.flatten_singleton, List.append_assoc]
      · obtain ⟨m, hm⟩ := hs
        exact ih.holds ⟨m, by
          rw [List.flatten_append, List.flatten_singleton]
          exact hm.feed hfeed⟩

/-- **What `case HTTP_AWAITING_RESPONSE` can come to**: the response is too big, or it is lost, or it
is shown, or the client goes on waiting. -/
theorem await_cases (hT : T.Lawful) (hs : s.Holds) (h : await T fuel e s = some s') :
    (s'.Holds ∧ s'.client.state = .failed)
    ∨ (s'.Holds ∧ s'.client = s.client ∧ ¬ (T.over s.link = true ∧ T.queue s'.link = []))
    ∨ (s'.client.state = .done ∧ ¬ (T.lost s.link = true ∧ s'.pieces.flatten = [])
      ∧ Shown s'.pieces.flatten
        (T.over s.link = true ∧ s'.pieces.flatten = s.pieces.flatten ++ T.queue s.link) s'.hr) := by
  obtain ⟨t, hdrain, hend⟩ := Option.bind_eq_some_iff.mp h
  have hd := drain_drained hT hdrain
  obtain ⟨m, hm⟩ := hd.holds hs
  unfold conclude at hend
  split at hend
  · obtain rfl := Option.some.inj hend
    exact .inl ⟨⟨m, hm⟩, rfl⟩
  next hfits =>
  split at hend
  · next hends =>
    split at hend
    · obtain rfl := Option.some.inj hend
      exact .inl ⟨⟨m, hm⟩, rfl⟩
    next hlost =>
    obtain ⟨hr, hfin, rfl⟩ := Option.map_eq_some_iff.mp hend
    refine .inr (.inr ⟨rfl, fun hl => hlost ⟨?_, hd.lost.trans hl.1⟩, ?_⟩)
    · rw [hm.starts.1, show t.pieces.flatten = [] from hl.2]
      rfl
    · refine hm.shown hfin (Bool.not_eq_true _ ▸ hfits) (hends.imp_right fun ho => ?_)
      refine ⟨hd.over.symm.trans ho.1, ?_⟩
      rw [← hd.taken, ho.2, List.append_nil]
      rfl
  · next hgo =>
    obtain rfl := Option.some.inj hend
    exact .inr (.inl ⟨⟨m, hm⟩, hd.client, fun ho => hgo (.inr ⟨hd.over.trans ho.1, ho.2⟩)⟩)

/-- **A lost connection that brought nothing is a failure.** -/
theorem await_lost (hT : T.Lawful) (hs : s.Holds) (hnone : s.pieces.flatten = [])
    (hqueue : T.queue s.link = []) (hover : T.over s.link = true) (hlost : T.lost s.link = true) :
    ∃ link, await T fuel e s = some ({ s with link := link }.goto .failed) := by
  obtain ⟨m, hm⟩ := hs
  rw [hnone] at hm
  obtain ⟨c, p, heq, hnot⟩ := hm
  obtain ⟨rfl, -⟩ := (if_pos (show headEnd (([] : List UInt8).take bufSize) = none from rfl)).mp hnot
  have hsmall : sizeFatal s.hr = false := by rw [heq]; rfl
  have hlen : s.hr.len = 0 := by rw [heq]; rfl
  have hgo : s.hr.complete = false := by rw [heq]
  have hrecv := hT.queue e s.link
  have hover' := (hT.over e s.link).trans hover
  have hlost' := (hT.lost e s.link).trans hlost
  rw [hqueue, List.append_eq_nil_iff] at hrecv
  obtain ⟨link, hlink⟩ : ∃ link, (T.recv e s.link).2 = link := ⟨_, rfl⟩
  rw [hlink] at hrecv hover' hlost'
  have hdrain : drain T fuel e 8 s = some { s with link := link } := by
    unfold drain
    rw [if_neg (by rw [hgo]; decide),
      show T.recv e s.link = ([], link) from Prod.ext hrecv.1 hlink]
  refine ⟨link, ?_⟩
  unfold await
  rw [hdrain]
  show conclude T fuel e { s with link := link } = _
  unfold conclude
  rw [if_neg (by show ¬ sizeFatal s.hr = true; rw [hsmall]; decide),
    if_pos (.inr ⟨hover', hrecv.2⟩), if_pos ⟨hlen, hlost'⟩]

/-! ## Runs -/

/-- What happens to a client between its calls, and the calls. -/
inductive Event (ε : Type) where
  /-- Whatever the other layers do to the TCP connection. -/
  | tcp (change : Tcp.St → Tcp.St)
  | post (body : Option (List UInt8))
  | poll (fuel : Nat) (e : ε)

/-- A client: how a request begins, its poll, and where its TCP connection is. -/
structure Fetcher (ε σ : Type) where
  begins : St σ → Prop
  poll : Nat → ε → St σ → Option (St σ)
  onTcp : (Tcp.St → Tcp.St) → σ → σ

def Event.run (F : Fetcher ε σ) (s : St σ) : Event ε → Option (St σ)
  | .tcp change => some { s with link := F.onTcp change s.link }
  | .post body => some { s with post := body }
  | .poll fuel e => F.poll fuel e s

/-- The states of a client from a request on. -/
inductive Fetched (F : Fetcher ε σ) : St σ → Prop where
  | get {s : St σ} (h : F.begins s) : Fetched F s
  | event {s s' : St σ} (h : Fetched F s) (k : Event ε) (hk : k.run F s = some s') : Fetched F s'

theorem Fetched.events {F : Fetcher ε σ} : ∀ {ks : List (Event ε)} {s : St σ}, Fetched F s →
    ks.foldlM (Event.run F) s = some s' → Fetched F s'
  | [], s, h, hk => by
    obtain rfl := Option.some.inj hk
    exact h
  | k :: ks, s, h, hk => by
    obtain ⟨t, ht, hrest⟩ := Option.bind_eq_some_iff.mp hk
    exact Fetched.events (h.event k ht) hrest

/-- Until it is shown, a response is made of what was taken. -/
def St.Waits (s : St σ) : Prop := s.client.state ≠ .done → s.Holds

theorem Fetched.waits {F : Fetcher ε σ} (hbegins : ∀ {s}, F.begins s → s.Waits)
    (hpoll : ∀ {fuel e s s'}, F.poll fuel e s = some s' → s.Waits → s'.Waits) (h : Fetched F s) :
    s.Waits := by
  induction h with
  | get h => exact hbegins h
  | event _ k hk ih =>
    cases k with
    | tcp change =>
      obtain rfl := Option.some.inj hk
      exact ih
    | post body =>
      obtain rfl := Option.some.inj hk
      exact ih
    | poll fuel e => exact hpoll hk ih

theorem begin_waits (usual port : UInt16) (host path : List UInt8) (s : St σ) :
    (begin usual port host path s).Waits := fun _ => ⟨s.hr.buf, .reset _⟩

theorem await_waits (hT : T.Lawful) (hs : s.Holds) (h : await T fuel e s = some s') : s'.Waits := by
  obtain ⟨h', -⟩ | ⟨h', -⟩ | ⟨hdone, -⟩ := await_cases hT hs h
  · exact fun _ => h'
  · exact fun _ => h'
  · exact fun hne => absurd hdone hne

/-! ## `http_poll` -/

theorem overTcp_lawful : overTcp.Lawful where
  queue e t := by
    obtain ⟨n, hdata, hconn⟩ := Tcp.pollRecv_conn e tmpSize t
    show (Tcp.pollRecv e tmpSize t).1 ++ (Tcp.pollRecv e tmpSize t).2.conn.recv_buf = _
    rw [hdata, hconn]
    exact List.take_append_drop n _
  «over» e t := by
    obtain ⟨n, -, hconn⟩ := Tcp.pollRecv_conn e tmpSize t
    show decide ((Tcp.pollRecv e tmpSize t).2.conn.peer_fin_seen
      ∨ (Tcp.pollRecv e tmpSize t).2.conn.state = .closed) = _
    rw [hconn]
    rfl
  lost e t := by
    obtain ⟨n, -, hconn⟩ := Tcp.pollRecv_conn e tmpSize t
    show decide ((Tcp.pollRecv e tmpSize t).2.conn.state = .closed
      ∧ (Tcp.pollRecv e tmpSize t).2.conn.peer_fin_seen = false) = _
    rw [hconn]
    rfl

def client : Fetcher Tcp.Env Tcp.St where
  begins s := ∃ e server_ip port host path s₀, s = get e server_ip port host path s₀
  poll := poll
  onTcp change t := change t

theorem poll_waits {e : Tcp.Env} {s s' : St Tcp.St} (h : poll fuel e s = some s') (hs : s.Waits) :
    s'.Waits := by
  unfold poll at h
  split at h
  · next hst =>
    have hs' : s.Holds := hs (by rw [hst]; simp)
    split at h
    · obtain rfl := Option.some.inj h
      exact fun _ => hs'
    split at h
    · obtain rfl := Option.some.inj h
      exact fun _ => hs'
    · obtain rfl := Option.some.inj h
      exact hs
  · next hst =>
    have hs' : s.Holds := hs (by rw [hst]; simp)
    split at h
    · obtain rfl := Option.some.inj h
      exact fun _ => hs'
    · obtain rfl := Option.some.inj h
      exact fun _ => hs'
  · next hst => exact await_waits overTcp_lawful (hs (by rw [hst]; simp)) h
  · obtain rfl := Option.some.inj h
    exact hs

theorem client_waits {s : St Tcp.St} (h : Fetched client s) : s.Waits := by
  refine h.waits (fun {s} hb => ?_) poll_waits
  obtain ⟨e, ip, port, host, path, s₀, rfl⟩ := hb
  exact begin_waits 80 port host path s₀

/-- **A call of `http_poll`.** -/
structure Fair (s s' : St Tcp.St) : Prop where
  /-- It shows a response when the bytes say that it has ended, or when the peer has closed the
  connection, or it is lost, and everything that arrived was taken. -/
  done : s.client.state ≠ .done → s'.client.state = .done →
    s.client.state = .awaiting_response ∧ Shown s'.pieces.flatten
      ((s.link.conn.peer_fin_seen = true ∨ s.link.conn.state = .closed)
        ∧ s'.pieces.flatten = s.pieces.flatten ++ s.link.conn.recv_buf) s'.hr
  refused : s.client.state = .connecting → s.link.conn.state = .closed → s'.client.state = .failed
  /-- A connection that was lost before anything came is a failure. -/
  lost : s.client.state = .awaiting_response → s.link.conn.state = .closed →
    s.link.conn.peer_fin_seen = false → s.pieces.flatten = [] → s.link.conn.recv_buf = [] →
    s'.client.state = .failed

theorem poll_fair {e : Tcp.Env} {s s' : St Tcp.St} (hs : s.Waits) (h : poll fuel e s = some s') :
    Fair s s' := by
  unfold poll at h
  split at h
  · next hst =>
    refine ⟨fun _ hdone => ?_, fun _ hc => ?_, fun hw => nomatch hst.symm.trans hw⟩
    · split at h
      · obtain rfl := Option.some.inj h
        exact nomatch hdone
      split at h
      · obtain rfl := Option.some.inj h
        exact nomatch hdone
      · obtain rfl := Option.some.inj h
        exact nomatch hst.symm.trans hdone
    · rw [if_neg (by rw [hc]; simp), if_pos hc] at h
      obtain rfl := Option.some.inj h
      rfl
  · next hst =>
    refine ⟨fun _ hdone => ?_, fun hw => (nomatch hst.symm.trans hw),
      fun hw => nomatch hst.symm.trans hw⟩
    split at h
    · obtain rfl := Option.some.inj h
      exact nomatch hst.symm.trans hdone
    · obtain rfl := Option.some.inj h
      exact nomatch hdone
  · next hst =>
    have hw : s.Holds := hs (by rw [hst]; simp)
    refine ⟨fun _ hdone => ?_, fun hc => (nomatch hst.symm.trans hc),
      fun _ hclosed hfin hnone hempty => ?_⟩
    · obtain ⟨-, hf⟩ | ⟨-, hc, -⟩ | ⟨-, -, hshown⟩ := await_cases overTcp_lawful hw h
      · exact nomatch hf.symm.trans hdone
      · exact nomatch hst.symm.trans ((congrArg Client.state hc).symm.trans hdone)
      · refine ⟨hst, hshown.fits, hshown.ends.imp_right fun ho => ⟨of_decide_eq_true ho.1, ho.2⟩,
          hshown.sized⟩
    · obtain ⟨link, hlink⟩ : ∃ link, await overTcp fuel e s
          = some ({ s with link := link }.goto .failed) :=
        await_lost overTcp_lawful hw hnone hempty (decide_eq_true (.inr hclosed))
          (decide_eq_true ⟨hclosed, hfin⟩)
      obtain rfl := Option.some.inj (hlink.symm.trans h)
      rfl
  · next hother₁ hother₂ hother₃ =>
    obtain rfl := Option.some.inj h
    exact ⟨fun hne hdone => absurd hdone hne, fun hc => absurd hc hother₁,
      fun hw => absurd hw hother₃⟩

end Http

namespace Https

open Net Hr Http

/-! ## `https_poll` -/

variable {Cert : Type} {P : Tls.Prims Cert} {fuel : Nat} {e : Tls.Env} {s s' : St (Tls.St Cert)}

theorem overTls_lawful (P : Tls.Prims Cert) : (overTls P).Lawful where
  queue _ _ := List.take_append_drop _ _
  «over» _ _ := rfl
  lost _ _ := rfl

def client (P : Tls.Prims Cert) : Fetcher Tls.Env (Tls.St Cert) where
  begins s := ∃ e server_ip port host path s₀, s = get e server_ip port host path s₀
  poll := poll P
  onTcp change t := { t with tcp := change t.tcp }

theorem poll_waits (h : poll P fuel e s = some s') (hs : s.Waits) : s'.Waits := by
  unfold poll at h
  split at h
  · next hst =>
    have hs' : s.Holds := hs (by rw [hst]; simp)
    dsimp only at h
    split at h
    · obtain rfl := Option.some.inj h
      exact fun _ => hs'
    split at h
    · obtain rfl := Option.some.inj h
      exact fun _ => hs'
    · obtain rfl := Option.some.inj h
      exact fun _ => hs'
  · next hst =>
    have hs' : s.Holds := hs (by rw [hst]; simp)
    dsimp only at h
    split at h
    · split at h
      · obtain rfl := Option.some.inj h
        exact fun _ => hs'
      · obtain rfl := Option.some.inj h
        exact fun _ => hs'
    · obtain rfl := Option.some.inj h
      exact fun _ => hs'
  · next hst =>
    have hs' : s.Holds := hs (by rw [hst]; simp)
    dsimp only at h
    split at h
    · obtain rfl := Option.some.inj h
      exact fun _ => hs'
    · exact await_waits (s := { s with link := Tls.poll P e s.link }) (overTls_lawful P) hs' h
  · obtain rfl := Option.some.inj h
    exact hs

theorem client_waits (h : Fetched (client P) s) : s.Waits := by
  refine h.waits (fun {s} hb => ?_) poll_waits
  obtain ⟨e, ip, port, host, path, s₀, rfl⟩ := hb
  exact begin_waits 443 port host path s₀

/-- **A call of `https_poll`**, which runs TLS first: `t` is what TLS comes to. -/
structure Fair (s : St (Tls.St Cert)) (t : Tls.St Cert) (s' : St (Tls.St Cert)) : Prop where
  /-- It shows a response when the bytes say that it has ended, or when the stream has and
  everything that arrived was taken. -/
  done : s.client.state ≠ .done → s'.client.state = .done →
    s.client.state = .awaiting_response ∧ t.conn.state ≠ .failed ∧ Shown s'.pieces.flatten
      ((t.tcp.conn.peer_fin_seen = true ∨ t.conn.peer_close_notify = true
          ∨ t.tcp.conn.state = .closed)
        ∧ t.tcp.conn.recv_buf = [] ∧ t.rx_raw = []
        ∧ s'.pieces.flatten = s.pieces.flatten ++ t.app_recv) s'.hr
  failed : s.client.state = .connecting ∨ s.client.state = .awaiting_response →
    t.conn.state = .failed → s'.client.state = .failed

theorem poll_fair (hs : s.Waits) (h : poll P fuel e s = some s') :
    Fair s (Tls.poll P e s.link) s' := by
  unfold poll at h
  obtain ⟨t, ht⟩ : ∃ t, Tls.poll P e s.link = t := ⟨_, rfl⟩
  rw [ht] at h ⊢
  split at h
  · next hst =>
    dsimp only at h
    refine ⟨fun _ hdone => ?_, fun _ hf => ?_⟩
    · split at h
      · obtain rfl := Option.some.inj h
        exact nomatch hdone
      split at h
      · obtain rfl := Option.some.inj h
        exact nomatch hdone
      · obtain rfl := Option.some.inj h
        exact nomatch hst.symm.trans hdone
    · rw [if_neg (by rw [hf]; simp), if_pos hf] at h
      obtain rfl := Option.some.inj h
      rfl
  · next hst =>
    dsimp only at h
    refine ⟨fun _ hdone => ?_, fun hw => ?_⟩
    · split at h
      · split at h
        · obtain rfl := Option.some.inj h
          exact nomatch hdone
        · obtain rfl := Option.some.inj h
          exact nomatch hst.symm.trans hdone
      · obtain rfl := Option.some.inj h
        exact nomatch hst.symm.trans hdone
    · rw [hst] at hw
      simp at hw
  · next hst =>
    have hw : s.Holds := hs (by rw [hst]; simp)
    dsimp only at h
    split at h
    · obtain rfl := Option.some.inj h
      exact ⟨fun _ hdone => (nomatch hdone), fun _ _ => rfl⟩
    next hup =>
    refine ⟨fun _ hdone => ?_, fun _ hf => absurd hf hup⟩
    obtain ⟨-, hf⟩ | ⟨-, hc, -⟩ | ⟨-, -, hshown⟩ :=
      await_cases (s := { s with link := t }) (overTls_lawful P) hw h
    · exact nomatch hf.symm.trans hdone
    · exact nomatch hst.symm.trans ((congrArg Client.state hc).symm.trans hdone)
    · refine ⟨hst, hup, hshown.fits, hshown.ends.imp_right fun ho => ?_, hshown.sized⟩
      obtain ⟨hover, htcp, hraw⟩ := of_decide_eq_true ho.1
      exact ⟨hover, htcp, hraw, ho.2⟩
  · next hother₁ hother₂ hother₃ =>
    obtain rfl := Option.some.inj h
    exact ⟨fun hne hdone => absurd hdone hne, fun hw => absurd hw (by
      rintro (hc | hc)
      · exact hother₁ hc
      · exact hother₃ hc)⟩

end Https

/-! ## Two runs -/

namespace Http

open Net Hr

/-- A request to a server at `10.0.2.2`, up to where the client waits for the answer. -/
def asked : St Tcp.St :=
  get Tcp.calm 0x0A000202 80 (bytes "a") (bytes "/")
    { client := {}, hr := reset Block.zero, post := none, link := {}, pieces := [] }

/-- A segment of the server. -/
def segment (seq : UInt32) (flags : UInt8) (data : List UInt8) : Event Tcp.Env :=
  .tcp (Tcp.handlePacket Tcp.calm (Tcp.peerPacket { Tcp.firstPeer with snd_nxt := seq } flags data))

def pollOnce : Event Tcp.Env := .poll 1 Tcp.calm

/-- The handshake, the request and an answer, and then what comes behind it. -/
def answered (page : List UInt8) (flags : UInt8) : List (Event Tcp.Env) :=
  [.tcp (Tcp.handlePacket Tcp.calm Tcp.firstSynAck), pollOnce, pollOnce, pollOnce,
    segment 5001 Tcp.flagAck page, pollOnce, segment (5001 + UInt32.ofNat page.length) flags []]

theorem asked_fetched : Fetched client asked := .get ⟨_, _, _, _, _, _, rfl⟩

/-- Three bytes of a page of ten. -/
def shortPage : List UInt8 := bytes "HTTP/1.1 200 OK\r\nContent-Length: 10\r\n\r\nabc"

/-- What the framing of a response establishes, or else an orderly end of the stream. -/
def EndsOrderly (X : List UInt8) (orderly : Prop) : Prop :=
  ∃ i, headEnd X = some i ∧
    if (seen Block.zero X).chunked = true then
      ∃ p, Walk.Leads (nextChunk (mem Block.zero X) X.length) (i + 4) p
        ∧ lineAt (mem Block.zero X) X.length p = .last ∧ hexval (mem Block.zero X p) ≠ none
    else if (seen Block.zero X).have_clen = true then
      (seen Block.zero X).clen.toNat ≤ X.length - (i + 4)
    else orderly

/-- A page that is all there. -/
def wholePage : List UInt8 := bytes "HTTP/1.1 200 OK\r\nContent-Length: 3\r\n\r\nabc"

end Http

namespace Https

open Net Hr Http Tls

def askedTls : Http.St (Tls.St (List UInt8)) :=
  get Toy.env 1 443 Toy.host (bytes "/")
    { client := {}, hr := reset Block.zero, post := none, link := Toy.boot, pieces := [] }

/-- These bytes come in, and the client is polled. -/
def fedTls (data : List UInt8) : List (Event Env) :=
  [.tcp fun _ => { conn := { state := .established, recv_buf := data } }, .poll 1 Toy.env]

/-- The handshake, the request and the record with the page. -/
def answeredTls : List (Event Env) :=
  fedTls [] ++ fedTls (Toy.record contentHandshake (Toy.serverHello ++ Toy.certificate Toy.host
    ++ Toy.keyExchange Toy.host ++ Toy.helloDone)) ++ fedTls Toy.answer ++ fedTls []
    ++ [.tcp fun _ => { conn :=
      { state := .established
        recv_buf := Toy.sealRecord contentApplicationData 1 wholePage Toy.established.conn } }]

end Https
