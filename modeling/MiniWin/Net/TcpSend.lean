import MiniWin.Lib.StopAndWait
import MiniWin.Net.Tcp

/-!
# TCP: what is sent

The sending half of a connection is a stop-and-wait sender over the symbols that take up
sequence numbers: the SYN, the bytes of the application and the FIN. `Tracks` is the
refinement: it ties the sequence numbers, the queue and the retransmit slot of the
connection to such a sender, and the segments handed to `ip_send` to its stream.
-/

namespace Tcp

open Net

/-! ## Symbols -/

/-- What takes up a sequence number. -/
inductive Sym where
  | syn | byte (b : UInt8) | fin
  deriving DecidableEq

/-- The symbols of a segment. -/
def symbols (flags : UInt8) (data : List UInt8) : List Sym :=
  (if flags &&& flagSyn ≠ 0 then [.syn] else []) ++ data.map .byte
    ++ if flags &&& flagFin ≠ 0 then [.fin] else []

def Sent.syms (x : Sent) : List Sym := symbols x.flags x.data

/-- The host let go of it, and it takes up sequence numbers. -/
def Sent.counts (x : Sent) : Bool := x.verdict ≠ .failed ∧ x.syms ≠ []

/-- The segments of a list that wait for an acknowledgement once they are sent. -/
def counting (l : List Sent) : List Sent := l.filter Sent.counts

@[simp] theorem counting_append (l k : List Sent) :
    counting (l ++ k) = counting l ++ counting k := List.filter_append ..

theorem symbols_ack : symbols flagAck [] = [] := rfl

theorem symbols_data (data : List UInt8) :
    symbols (flagAck ||| flagPsh) data = data.map .byte := by
  show [] ++ data.map Sym.byte ++ [] = _
  rw [List.nil_append, List.append_nil]

theorem symbols_fin : symbols (flagFin ||| flagAck) [] = [.fin] := rfl

theorem symbols_syn : symbols flagSyn [] = [.syn] := rfl

theorem byte_injective : Function.Injective Sym.byte := fun _ _ h => Sym.byte.inj h

/-- The data of two segments with the same flags and symbols is the same. -/
theorem data_eq_of_symbols {flags : UInt8} {data data' : List UInt8}
    (h : symbols flags data = symbols flags data') : data = data' := by
  have hmid := List.append_cancel_left (List.append_cancel_right h)
  exact List.map_injective_iff.mpr byte_injective hmid

/-- A segment all of whose symbols are bytes has as many symbols as data bytes. -/
theorem length_symbols_of_bytes {flags : UInt8} {data : List UInt8}
    (h : ∀ x ∈ symbols flags data, x ≠ .syn ∧ x ≠ .fin) :
    symbols flags data = data.map .byte := by
  have hsyn : ¬ flags &&& flagSyn ≠ 0 := fun hs =>
    (h .syn (by rw [symbols, if_pos hs]; simp)).1 rfl
  have hfin : ¬ flags &&& flagFin ≠ 0 := fun hf =>
    (h .fin (by rw [symbols, if_pos hf]; simp)).2 rfl
  rw [symbols, if_neg hsyn, if_neg hfin, List.nil_append, List.append_nil]

/-! ## The refinement -/

/-- The sending half of a connection. -/
structure Line where
  state : State
  snd_una : UInt32
  snd_nxt : UInt32
  peer_mss : UInt16
  send_buf : List UInt8
  retx_len : Nat
  retx_flags : UInt8
  retx_pending : Bool

def Conn.line (c : Conn) : Line :=
  ⟨c.state, c.snd_una, c.snd_nxt, c.peer_mss, c.send_buf, c.retx_len, c.retx_flags,
    c.retx_pending⟩

/-- Where a connection in each state stands in its stream. -/
def Phase (app : List UInt8) (q : Sender Sym) (c : Line) : Prop :=
  match c.state with
  | .closed => True
  | .synSent => app = [] ∧ c.send_buf = [] ∧ q.stream = [.syn] ∧ q.acked + q.flight = 1
  | .established =>
    q.stream = .syn :: app.map .byte ∧ 0 < q.acked
      ∧ c.send_buf.map .byte = q.stream.drop q.acked
  | .finWait1 => q.stream = .syn :: app.map .byte ++ [.fin] ∧ c.send_buf = [] ∧ 0 < q.acked
  | .finWait2 => q.stream = .syn :: app.map .byte ++ [.fin] ∧ c.send_buf = [] ∧ q.flight = 0
  | .timeWait => False

/-- Segments are data, or bare: a SYN, an ACK or a FIN. -/
def Sent.Kind (x : Sent) : Prop :=
  x.flags = flagAck ||| flagPsh
    ∨ x.data = [] ∧ (x.flags = flagSyn ∨ x.flags = flagAck ∨ x.flags = flagFin ||| flagAck)

/-- What is known of a segment that was handed to `ip_send`. It was a first transmission
when nothing was on the wire, and else it repeats one. -/
structure Logged (isn : UInt32) (stream : List Sym) (out : List Sent) (x : Sent) : Prop where
  kind : x.Kind
  slice : x.counts → ∃ pos ≤ stream.length,
    x.seq = isn + UInt32.ofNat pos ∧ Slice stream pos x.syms
  first : x.conn.retx_pending = false →
    x.data.length ≤ x.conn.peer_mss.toNat ∧ x.data.length ≤ x.conn.peer_wnd.toNat
  again : x.conn.retx_pending = true → x.syms ≠ [] →
    ∃ y ∈ out, y.conn.retx_pending = false ∧ y.verdict ≠ .failed ∧ y.seq = x.seq
      ∧ y.flags = x.flags ∧ y.data = x.data

/-- **The sending half `c` refines the sender `q`.** `u` is the segments that were sent and
are not acknowledged, `app` what the application gave to `tcp_send_data`. -/
structure Tracks (isn : UInt32) (app : List UInt8) (u : List Sent) (q : Sender Sym) (c : Line)
    (out : List Sent) : Prop where
  una : c.snd_una = isn + UInt32.ofNat q.acked
  nxt : c.snd_nxt = c.snd_una + UInt32.ofNat q.flight
  stream : q.stream = .syn :: app.map .byte ∨ q.stream = .syn :: app.map .byte ++ [.fin]
  phase : Phase app q c
  pending : c.state ≠ .closed → (c.retx_pending = true ↔ 0 < q.flight)
  closed : c.state = .closed → c.retx_pending = false
  slot : c.retx_pending = true → symbols c.retx_flags (c.send_buf.take c.retx_len) = q.onWire
  unarmed : c.retx_pending = false → c.retx_len = 0
  len_le : c.retx_len ≤ c.send_buf.length
  len_mss : c.retx_len ≤ sendMss
  room : c.send_buf.length ≤ sendBufSize
  mss : 64 ≤ c.peer_mss.toNat
  flying : ∀ x ∈ u, x ∈ out ∧ x.verdict ≠ .failed ∧ x.seq = c.snd_una
    ∧ x.flags = c.retx_flags ∧ x.syms = q.onWire
  idle : q.flight = 0 → u = []
  origin : 0 < q.flight → ∃ x ∈ u, x.conn.retx_pending = false
  log : ∀ x ∈ out, Logged isn q.stream out x

/-- From `s` to `s'` some segments went out, and `s'` refines a sender again. -/
def Grows (isn : UInt32) (app : List UInt8) (u : List Sent) (s s' : St) : Prop :=
  ∃ l, s'.out = l ++ s.out ∧ ∃ q, Tracks isn app (counting l ++ u) q s'.conn.line s'.out

/-- A function that refines the sender wherever it is called. -/
def Keeps (f : St → St) : Prop :=
  ∀ isn app u q s, Tracks isn app u q s.conn.line s.out → Grows isn app u s (f s)

theorem Tracks.grows {isn : UInt32} {app : List UInt8} {u : List Sent} {q : Sender Sym}
    {s s' : St} (h : Tracks isn app u q s.conn.line s.out)
    (hl : s'.conn.line = s.conn.line) (ho : s'.out = s.out) : Grows isn app u s s' :=
  ⟨[], ho, q, by rw [hl, ho]; exact h⟩

theorem Grows.andThen {isn : UInt32} {app : List UInt8} {u : List Sent} {s s' : St}
    (h : Grows isn app u s s') {f : St → St} (hf : Keeps f) : Grows isn app u s (f s') := by
  obtain ⟨l, hl, q, hq⟩ := h
  obtain ⟨k, hk, q', hq'⟩ := hf _ _ _ _ _ hq
  refine ⟨k ++ l, by rw [hk, hl, List.append_assoc], q', ?_⟩
  rwa [counting_append, List.append_assoc]

theorem Keeps.andThen {f g : St → St} (hf : Keeps f) (hg : Keeps g) : Keeps fun s => g (f s) :=
  fun _ _ _ _ _ h => (hf _ _ _ _ _ h).andThen hg

theorem Keeps.ite {p : St → Prop} [DecidablePred p] {f g : St → St} (hf : Keeps f)
    (hg : Keeps g) : Keeps fun s => if p s then f s else g s := by
  intro isn app u q s h
  show Grows isn app u s (if p s then f s else g s)
  split_ifs
  · exact hf _ _ _ _ _ h
  · exact hg _ _ _ _ _ h

/-- What changes neither the sending half nor the log. -/
theorem keeps_of_line {f : St → St} (hl : ∀ s, (f s).conn.line = s.conn.line)
    (ho : ∀ s, (f s).out = s.out) : Keeps f := fun _ _ _ _ s h => h.grows (hl s) (ho s)

theorem keeps_id : Keeps fun s => s := fun _ _ _ _ _ h => h.grows rfl rfl

/-! ## Segments that take up no sequence numbers -/

theorem Logged.cons {isn : UInt32} {stream : List Sym} {out : List Sent} {x : Sent}
    (h : Logged isn stream out x) (y : Sent) : Logged isn stream (y :: out) x where
  kind := h.kind
  slice := h.slice
  first := h.first
  again hp hne := by
    obtain ⟨z, hz, hrest⟩ := h.again hp hne
    exact ⟨z, List.mem_cons_of_mem y hz, hrest⟩

/-- The stream grows behind what was sent. -/
theorem Logged.push {isn : UInt32} {stream : List Sym} {out : List Sent} {x : Sent}
    (h : Logged isn stream out x) (more : List Sym) : Logged isn (stream ++ more) out x where
  kind := h.kind
  slice hx := by
    obtain ⟨pos, hpos, hseq, hs⟩ := h.slice hx
    exact ⟨pos, by rw [List.length_append]; omega, hseq, hs.append hpos more⟩
  first := h.first
  again := h.again

/-- The log after one more segment. -/
theorem log_cons {isn : UInt32} {stream : List Sym} {out : List Sent} {x : Sent}
    (hlog : ∀ y ∈ out, Logged isn stream out y) (hx : Logged isn stream (x :: out) x) :
    ∀ y ∈ x :: out, Logged isn stream (x :: out) y := by
  intro y hy
  cases List.mem_cons.mp hy with
  | inl h => exact h ▸ hx
  | inr h => exact (hlog y h).cons x

/-- A bare ACK in the log. -/
theorem logged_ack {isn : UInt32} {stream : List Sym} {out : List Sent} {x : Sent}
    (hf : x.flags = flagAck) (hd : x.data = []) : Logged isn stream out x := by
  have hsyms : x.syms = [] := by rw [Sent.syms, hf, hd]; rfl
  refine ⟨Or.inr ⟨hd, Or.inr (Or.inl hf)⟩, fun h => ?_, fun _ => ?_, fun _ h => absurd hsyms h⟩
  · simp [Sent.counts, hsyms] at h
  · rw [hd]
    exact ⟨Nat.zero_le _, Nat.zero_le _⟩

theorem counting_ack {x : Sent} (hf : x.flags = flagAck) (hd : x.data = []) :
    counting [x] = [] := by
  have hsyms : x.syms = [] := by rw [Sent.syms, hf, hd]; rfl
  simp [counting, Sent.counts, hsyms]

theorem Tracks.ack {isn : UInt32} {app : List UInt8} {u : List Sent} {q : Sender Sym} {c : Line}
    {out : List Sent} (h : Tracks isn app u q c out) {x : Sent} (hf : x.flags = flagAck)
    (hd : x.data = []) : Tracks isn app u q c (x :: out) :=
  { h with
    flying := fun y hy => ⟨List.mem_cons_of_mem x (h.flying y hy).1, (h.flying y hy).2⟩
    log := log_cons h.log (logged_ack hf hd) }

theorem sendAck_keeps (e : Env) : Keeps (sendAck e) := by
  intro isn app u q s h
  let x : Sent := { conn := s.conn, flags := flagAck, data := [], verdict := e.answer s.out.length }
  refine ⟨[x], rfl, q, ?_⟩
  rw [counting_ack rfl rfl]
  exact h.ack rfl rfl

/-! ## Giving up -/

/-- The sending half of a connection given up. -/
def Line.giveUp (c : Line) : Line :=
  { c with state := .closed, retx_pending := false, retx_len := 0 }

/-- A connection that is closed keeps what it sent and waits for nothing. -/
theorem Tracks.giveUp {isn : UInt32} {app : List UInt8} {u : List Sent} {q : Sender Sym}
    {c : Line} {out : List Sent} (h : Tracks isn app u q c out) :
    Tracks isn app u q c.giveUp out :=
  { h with
    phase := trivial
    pending := fun hne => absurd rfl hne
    closed := fun _ => rfl
    slot := fun hp => Bool.noConfusion hp
    unarmed := fun _ => rfl
    len_le := Nat.zero_le _
    len_mss := Nat.zero_le _ }

theorem txRefused_line (e : Env) (c : Conn) :
    (txRefused e c).line = c.line ∨ (txRefused e c).line = c.line.giveUp := by
  unfold txRefused
  dsimp only
  split_ifs <;> first | exact Or.inr rfl | exact Or.inl rfl

theorem Tracks.txRefused {isn : UInt32} {app : List UInt8} {u : List Sent} {q : Sender Sym}
    {c : Conn} {out : List Sent} (h : Tracks isn app u q c.line out) (e : Env) :
    Tracks isn app u q (Tcp.txRefused e c).line out := by
  rcases txRefused_line e c with hl | hl
  · rw [hl]; exact h
  · rw [hl]; exact h.giveUp

theorem zeroWindowWait_keeps (e : Env) : Keeps (zeroWindowWait e) := by
  intro isn app u q s h
  unfold zeroWindowWait
  dsimp only
  split
  · exact h.grows rfl rfl
  split
  · exact ⟨[], rfl, q, h.giveUp⟩
  split
  · -- the probe goes out with the sequence number before the next one, and is not counted
    let c := { s.conn with zero_wnd_probe_wall := e.wall, snd_nxt := s.conn.snd_nxt - 1 }
    let x : Sent := ⟨c, flagAck, [], e.answer s.out.length⟩
    have hl : Conn.line { c with snd_nxt := c.snd_nxt + 1 } = s.conn.line := by
      simp [Conn.line, c]
    refine ⟨[x], rfl, q, ?_⟩
    rw [counting_ack rfl rfl]
    show Tracks isn app u q (Conn.line { c with snd_nxt := c.snd_nxt + 1 }) (x :: s.out)
    rw [hl]
    exact h.ack rfl rfl
  · exact h.grows rfl rfl

/-! ## First transmissions -/

/-- The sending half after a segment of `size` symbols went out, `n` of them data. -/
def Line.launched (c : Line) (st : State) (flags : UInt8) (n size : Nat) : Line :=
  { c with state := st, snd_nxt := c.snd_nxt + UInt32.ofNat size, retx_len := n,
           retx_flags := flags, retx_pending := true }

/-- **A segment goes out on a free wire.** The sender `q'` is `q` with the symbols of the
segment on the wire; for a FIN its stream has grown by that symbol. -/
theorem Tracks.launched {isn : UInt32} {app : List UInt8} {u : List Sent} {q q' : Sender Sym}
    {c : Line} {out : List Sent} {x : Sent} {st : State} {n : Nat} {more : List Sym}
    (h : Tracks isn app u q c out) (hfree : q.flight = 0)
    (hstream : q'.stream = q.stream ++ more) (hacked : q'.acked = q.acked)
    (hform : q'.stream = .syn :: app.map .byte ∨ q'.stream = .syn :: app.map .byte ++ [.fin])
    (hphase : Phase app q' (c.launched st x.flags n q'.flight)) (hst : st ≠ .closed)
    (hsyms : x.syms = q'.onWire) (hflight : 0 < q'.flight)
    (hdata : x.data = c.send_buf.take n) (hn : n ≤ c.send_buf.length) (hmss : n ≤ sendMss)
    (hkind : x.Kind) (hseq : x.seq = c.snd_nxt) (hv : x.verdict ≠ .failed)
    (hp : x.conn.retx_pending = false)
    (hfirst : x.data.length ≤ x.conn.peer_mss.toNat ∧ x.data.length ≤ x.conn.peer_wnd.toNat) :
    Tracks isn app (counting [x] ++ u) q' (c.launched st x.flags n q'.flight) (x :: out) := by
  have hu : u = [] := h.idle hfree
  have hnxt : c.snd_nxt = c.snd_una := by simpa [hfree] using h.nxt
  have hne : x.syms ≠ [] := fun hnil => by
    have hlen := q'.length_onWire
    rw [← hsyms, hnil] at hlen
    exact absurd hlen (by simp; omega)
  have hcount : counting [x] = [x] := by simp [counting, Sent.counts, hv, hne]
  rw [hu, hcount, List.append_nil]
  have hx : Logged isn q'.stream (x :: out) x := by
    refine ⟨hkind, fun _ => ⟨q'.acked, ?_, ?_, ?_⟩, fun _ => hfirst, fun hpt => ?_⟩
    · exact Nat.le_trans (Nat.le_add_right _ _) q'.sent_le
    · rw [hseq, hnxt, h.una, hacked]
    · rw [hsyms]; exact q'.slice_onWire
    · rw [hp] at hpt; exact absurd hpt (by decide)
  exact
    { una := by rw [hacked]; exact h.una
      nxt := by show c.snd_nxt + _ = c.snd_una + _; rw [hnxt]
      stream := hform
      phase := hphase
      pending := fun _ => ⟨fun _ => hflight, fun _ => rfl⟩
      closed := fun hc => absurd hc hst
      slot := fun _ => by
        show symbols x.flags (c.send_buf.take n) = q'.onWire
        rw [← hdata]; exact hsyms
      unarmed := fun hc => Bool.noConfusion hc
      len_le := hn
      len_mss := hmss
      room := h.room
      mss := h.mss
      flying := fun y hy => by
        obtain rfl := List.mem_singleton.mp hy
        exact ⟨List.mem_cons_self, hv, hseq.trans hnxt, rfl, hsyms⟩
      idle := fun hc => absurd hc (Nat.pos_iff_ne_zero.mp hflight)
      origin := fun _ => ⟨x, List.mem_singleton_self x, hp⟩
      log := log_cons (fun y hy => hstream ▸ (h.log y hy).push more) hx }

/-- A segment the host did not let go of leaves the sender where it was. -/
theorem Tracks.refused {isn : UInt32} {app : List UInt8} {u : List Sent} {q : Sender Sym}
    {c : Line} {out : List Sent} {x : Sent} (h : Tracks isn app u q c out)
    (hkind : x.Kind) (hv : x.verdict = .failed) (hp : x.conn.retx_pending = false)
    (hfirst : x.data.length ≤ x.conn.peer_mss.toNat ∧ x.data.length ≤ x.conn.peer_wnd.toNat) :
    Tracks isn app (counting [x] ++ u) q c (x :: out) := by
  have hcount : x.counts = false := by simp [Sent.counts, hv]
  have hc : counting [x] = [] := by simp [counting, hcount]
  rw [hc, List.nil_append]
  have hx : Logged isn q.stream (x :: out) x := by
    refine ⟨hkind, fun hcx => ?_, fun _ => hfirst, fun hpt => ?_⟩
    · rw [hcount] at hcx; exact absurd hcx (by decide)
    · rw [hp] at hpt; exact absurd hpt (by decide)
  exact { h with
    flying := fun y hy => ⟨List.mem_cons_of_mem x (h.flying y hy).1, (h.flying y hy).2⟩
    log := log_cons h.log hx }

theorem segLen_le (c : Conn) :
    segLen c ≤ c.send_buf.length ∧ segLen c ≤ sendMss ∧ segLen c ≤ c.peer_mss.toNat
      ∧ segLen c ≤ c.peer_wnd.toNat := by
  unfold segLen
  dsimp only
  split_ifs <;> omega

theorem segLen_pos {c : Conn} (hbuf : c.send_buf ≠ []) (hmss : 64 ≤ c.peer_mss.toNat)
    (hwnd : c.peer_wnd ≠ 0) : 0 < segLen c := by
  have hlen : 0 < c.send_buf.length := List.length_pos_iff.mpr hbuf
  have hw : 0 < c.peer_wnd.toNat := Nat.pos_of_ne_zero fun h0 =>
    hwnd (UInt32.toNat_inj.mp h0)
  have hs : sendMss = 1200 := rfl
  unfold segLen
  dsimp only
  split_ifs <;> omega

/-- What `pumpSend` knows when it comes to send: the connection is established and nothing
is on the wire. -/
theorem Tracks.free {isn : UInt32} {app : List UInt8} {u : List Sent} {q : Sender Sym}
    {c : Line} {out : List Sent} (h : Tracks isn app u q c out) (hst : c.state = .established)
    (hp : c.retx_pending = false) :
    q.flight = 0 ∧ q.stream = .syn :: app.map .byte ∧ 0 < q.acked
      ∧ c.send_buf.map .byte = q.stream.drop q.acked := by
  refine ⟨?_, ?_⟩
  · have hiff := h.pending (by rw [hst]; decide)
    rw [hp] at hiff
    by_contra hne
    exact absurd (hiff.mpr (Nat.pos_of_ne_zero hne)) (by decide)
  · have hph := h.phase
    unfold Phase at hph
    rw [hst] at hph
    exact hph

theorem pumpData_grows {e : Env} {isn : UInt32} {app : List UInt8} {u : List Sent}
    {q : Sender Sym} {s : St} (h : Tracks isn app u q s.conn.line s.out)
    (hst : s.conn.state = .established) (hp : s.conn.retx_pending = false)
    (hbuf : s.conn.send_buf ≠ []) : Grows isn app u s (pumpData e s) := by
  unfold pumpData
  split
  · exact zeroWindowWait_keeps e _ _ _ _ _ h
  next hwnd =>
  obtain ⟨hfree, hstream, hacked, hqueue⟩ := h.free hst hp
  let c := { s.conn with zero_wnd_active := false }
  let n := segLen c
  obtain ⟨hnle, hnmss, hnpeer, hnwnd⟩ : n ≤ c.send_buf.length ∧ n ≤ sendMss
    ∧ n ≤ c.peer_mss.toNat ∧ n ≤ c.peer_wnd.toNat := segLen_le c
  have hnpos : 0 < n := segLen_pos hbuf h.mss hwnd
  have htake : (c.send_buf.take n).take sendMss = c.send_buf.take n := by
    rw [List.take_take, Nat.min_eq_right hnmss]
  have hlen : (c.send_buf.take n).length = n := by
    rw [List.length_take]; omega
  let x : Sent := ⟨c, flagAck ||| flagPsh, (c.send_buf.take n).take sendMss,
    e.answer s.out.length⟩
  have hdata : x.data = c.send_buf.take n := htake
  have hfirst : x.data.length ≤ x.conn.peer_mss.toNat ∧ x.data.length ≤ x.conn.peer_wnd.toNat := by
    rw [hdata, hlen]; exact ⟨hnpeer, hnwnd⟩
  have hkind : x.Kind := Or.inl rfl
  dsimp only [sendSegment]
  split
  · -- refused: the bytes stay queued
    next s' hs' =>
    obtain ⟨hv, rfl⟩ := Prod.mk.inj hs'
    exact ⟨[x], rfl, q, Tracks.txRefused (c := c) (h.refused hkind hv hp hfirst) e⟩
  · next v s' hv hs' =>
    obtain ⟨hve, rfl⟩ := Prod.mk.inj hs'
    -- the queue is the rest of the stream, so its first `n` bytes are the next `n` symbols
    have hroom : q.acked + n ≤ q.stream.length := by
      have hbuflen : s.conn.send_buf.length = q.stream.length - q.acked := by
        rw [← List.length_drop, ← hqueue, List.length_map]; rfl
      have hnlen : n ≤ s.conn.send_buf.length := hnle
      omega
    have hphase : Phase app (q.launch n hroom)
        (c.line.launched s.conn.state (flagAck ||| flagPsh) n n) := by
      unfold Phase
      rw [show (c.line.launched s.conn.state (flagAck ||| flagPsh) n n).state = .established
        from hst]
      exact ⟨hstream, hacked, hqueue⟩
    have hsyms : x.syms = (q.launch n hroom).onWire := by
      show symbols (flagAck ||| flagPsh) x.data = (q.stream.drop q.acked).take n
      rw [symbols_data, hdata, List.map_take, ← hqueue]; rfl
    have hleft : x.verdict ≠ .failed := fun hf => hv (hve.symm.trans hf)
    have hopen : s.conn.state ≠ .closed := by rw [hst]; decide
    exact ⟨[x], rfl, q.launch n hroom, h.launched hfree (List.append_nil _).symm rfl
      (Or.inl hstream) hphase hopen hsyms hnpos hdata hnle hnmss hkind rfl hleft hp hfirst⟩

/-- The sender with the FIN at the end of its stream, and on the wire. -/
def finSender (q : Sender Sym) (h : q.acked + q.flight ≤ q.stream.length) : Sender Sym :=
  (q.push [.fin]).launch 1 (by simp; omega)

theorem pumpFin_grows {e : Env} {isn : UInt32} {app : List UInt8} {u : List Sent}
    {q : Sender Sym} {s : St} (h : Tracks isn app u q s.conn.line s.out)
    (hst : s.conn.state = .established) (hp : s.conn.retx_pending = false)
    (hbuf : s.conn.send_buf = []) : Grows isn app u s (pumpFin e s) := by
  obtain ⟨hfree, hstream, hacked, hqueue⟩ := h.free hst hp
  let x : Sent := ⟨s.conn, flagFin ||| flagAck, [], e.answer s.out.length⟩
  have hfirst : x.data.length ≤ x.conn.peer_mss.toNat ∧ x.data.length ≤ x.conn.peer_wnd.toNat :=
    ⟨Nat.zero_le _, Nat.zero_le _⟩
  have hkind : x.Kind := Or.inr ⟨rfl, Or.inr (Or.inr rfl)⟩
  unfold pumpFin
  dsimp only [sendSegment]
  split
  · -- refused: the FIN is offered again later
    next s' hs' =>
    obtain ⟨hv, rfl⟩ := Prod.mk.inj hs'
    exact ⟨[x], rfl, q, Tracks.txRefused (c := s.conn) (h.refused hkind hv hp hfirst) e⟩
  · next v s' hv hs' =>
    obtain ⟨hve, rfl⟩ := Prod.mk.inj hs'
    -- the queue is empty, so every byte of the stream is acknowledged
    have hend : q.stream.drop q.acked = [] := by
      rw [← hqueue, show s.conn.line.send_buf = [] from hbuf]; rfl
    let q' := finSender q q.sent_le
    have hform : q'.stream = .syn :: app.map .byte ++ [Sym.fin] := by
      show q.stream ++ [Sym.fin] = _
      rw [hstream]
    have hsyms : x.syms = q'.onWire := by
      have hle := q.sent_le
      show symbols (flagFin ||| flagAck) [] = ((q.stream ++ [Sym.fin]).drop q.acked).take 1
      rw [symbols_fin, List.drop_append_of_le_length (by omega), hend]; rfl
    have hleft : x.verdict ≠ .failed := fun hf => hv (hve.symm.trans hf)
    have hopen : State.finWait1 ≠ .closed := by decide
    exact ⟨[x], rfl, q', h.launched hfree rfl rfl (Or.inr hform) ⟨hform, hbuf, hacked⟩
      hopen hsyms Nat.one_pos rfl (Nat.zero_le _) (Nat.zero_le _) hkind rfl hleft hp hfirst⟩

theorem pumpSend_keeps (e : Env) : Keeps (pumpSend e) := by
  intro isn app u q s h
  unfold pumpSend
  dsimp only
  split
  · exact h.grows rfl rfl
  next hst =>
  split
  · exact h.grows rfl rfl
  next hp =>
  have hst : s.conn.state = .established := not_not.mp hst
  have hp : s.conn.retx_pending = false := Bool.not_eq_true _ ▸ hp
  split
  · exact h.grows rfl rfl
  split
  · exact h.grows rfl rfl
  split
  · next hbuf => exact pumpData_grows h hst hp hbuf
  · next hbuf => exact pumpFin_grows h hst hp (not_not.mp hbuf)

/-! ## Retransmissions -/

/-- **A segment that goes out again is the one on the wire.** -/
theorem Tracks.resent {isn : UInt32} {app : List UInt8} {u : List Sent} {q : Sender Sym}
    {c : Line} {out : List Sent} {x : Sent} (h : Tracks isn app u q c out)
    (hc : c.retx_pending = true) (hseq : x.seq = c.snd_una) (hflags : x.flags = c.retx_flags)
    (hdata : x.data = c.send_buf.take c.retx_len) (hp : x.conn.retx_pending = true) :
    Tracks isn app (counting [x] ++ u) q c (x :: out) := by
  have hopen : c.state ≠ .closed := fun hcl => by
    rw [h.closed hcl] at hc; exact absurd hc (by decide)
  have hflight : 0 < q.flight := (h.pending hopen).mp hc
  have hsyms : x.syms = q.onWire := by
    rw [Sent.syms, hflags, hdata]; exact h.slot hc
  have hx : Logged isn q.stream (x :: out) x := by
    obtain ⟨y, hy, hyp⟩ := h.origin hflight
    obtain ⟨hmem, hv, hys, hyf, hysy⟩ := h.flying y hy
    have hsame : symbols x.flags y.data = symbols x.flags x.data := by
      rw [show symbols x.flags y.data = y.syms from by rw [Sent.syms, hyf, hflags], hysy]
      exact hsyms.symm
    have hyd : y.data = x.data := data_eq_of_symbols hsame
    have hyfx : y.flags = x.flags := hyf.trans hflags.symm
    have hkind : x.Kind := by
      have := (h.log y hmem).kind
      rwa [Sent.Kind, hyfx, hyd] at this
    refine ⟨hkind, fun _ => ⟨q.acked, ?_, ?_, ?_⟩, fun hpf => ?_, fun _ _ => ?_⟩
    · exact Nat.le_trans (Nat.le_add_right _ _) q.sent_le
    · rw [hseq, h.una]
    · rw [hsyms]; exact q.slice_onWire
    · rw [hp] at hpf; exact absurd hpf (by decide)
    · exact ⟨y, List.mem_cons_of_mem x hmem, hyp, hv, hys.trans hseq.symm, hyfx, hyd⟩
  have hold : ∀ y ∈ u, y ∈ x :: out ∧ y.verdict ≠ .failed ∧ y.seq = c.snd_una
      ∧ y.flags = c.retx_flags ∧ y.syms = q.onWire :=
    fun y hy => ⟨List.mem_cons_of_mem x (h.flying y hy).1, (h.flying y hy).2⟩
  refine { h with
    flying := fun y hy => ?_
    idle := fun h0 => absurd h0 (Nat.pos_iff_ne_zero.mp hflight)
    origin := fun hpos => ?_
    log := log_cons h.log hx }
  · cases List.mem_append.mp hy with
    | inr hu => exact hold y hu
    | inl hx' =>
      obtain ⟨hmem, hcount⟩ := List.mem_filter.mp hx'
      obtain rfl := List.mem_singleton.mp hmem
      have hv : y.verdict ≠ .failed := by
        simp only [Sent.counts, decide_eq_true_eq] at hcount
        exact hcount.1
      exact ⟨List.mem_cons_self, hv, hseq, hflags, hsyms⟩
  · obtain ⟨y, hy, hyp⟩ := h.origin hpos
    exact ⟨y, List.mem_append_right _ hy, hyp⟩

theorem resend_keeps (e : Env) : Keeps (resend e) := by
  intro isn app u q s h
  unfold resend
  dsimp only
  split
  · exact h.grows rfl rfl
  next hp =>
  split
  · exact h.grows rfl rfl
  split
  · exact ⟨[], rfl, q, h.giveUp⟩
  · have hp : s.conn.retx_pending = true := not_not.mp hp
    let x : Sent := ⟨{ s.conn with snd_nxt := s.conn.snd_una }, s.conn.retx_flags,
      (s.conn.send_buf.take s.conn.retx_len).take sendMss, e.answer s.out.length⟩
    have hdata : x.data = s.conn.send_buf.take s.conn.retx_len := by
      show (s.conn.send_buf.take s.conn.retx_len).take sendMss = _
      have hle : s.conn.retx_len ≤ sendMss := h.len_mss
      rw [List.take_take, Nat.min_eq_right hle]
    exact ⟨[x], rfl, q, h.resent hp rfl rfl hdata hp⟩

theorem pollRetransmit_keeps (e : Env) : Keeps (pollRetransmit e) :=
  (pumpSend_keeps e).andThen (resend_keeps e)

/-! ## More to send, and acknowledgements -/

/-- **The application's bytes join the stream.** -/
theorem Tracks.push {isn : UInt32} {app data : List UInt8} {u : List Sent} {q : Sender Sym}
    {c : Line} {out : List Sent} (h : Tracks isn app u q c out) (hst : c.state = .established)
    (hroom : (c.send_buf ++ data).length ≤ sendBufSize) :
    Tracks isn (app ++ data) u (q.push (data.map .byte))
      { c with send_buf := c.send_buf ++ data } out := by
  have hph := h.phase
  unfold Phase at hph
  rw [hst] at hph
  obtain ⟨hstream, hacked, hqueue⟩ := hph
  have hform : (q.push (data.map .byte)).stream = Sym.syn :: (app ++ data).map .byte := by
    rw [Sender.push_stream, hstream, List.map_append]; rfl
  have hphase : Phase (app ++ data) (q.push (data.map .byte))
      { c with send_buf := c.send_buf ++ data } := by
    unfold Phase
    rw [hst]
    refine ⟨hform, hacked, ?_⟩
    have hle := q.sent_le
    rw [Sender.push_stream, Sender.push_acked, List.drop_append_of_le_length (by omega),
      List.map_append, hqueue]
  exact
    { una := h.una
      nxt := h.nxt
      stream := Or.inl hform
      phase := hphase
      pending := h.pending
      closed := h.closed
      slot := fun hp => by
        show symbols c.retx_flags ((c.send_buf ++ data).take c.retx_len) = _
        rw [List.take_append_of_le_length h.len_le, Sender.onWire_push]
        exact h.slot hp
      unarmed := h.unarmed
      len_le := by
        show c.retx_len ≤ (c.send_buf ++ data).length
        rw [List.length_append]
        exact Nat.le_trans h.len_le (Nat.le_add_right _ _)
      len_mss := h.len_mss
      room := hroom
      mss := h.mss
      flying := fun x hx => by
        rw [Sender.onWire_push]
        exact h.flying x hx
      idle := h.idle
      origin := h.origin
      log := fun x hx => (h.log x hx).push _ }

/-- The sending half after everything sent was acknowledged. -/
def Line.landed (c : Line) : Line :=
  { c with snd_una := c.snd_nxt, send_buf := c.send_buf.drop c.retx_len, retx_len := 0,
           retx_pending := false }

/-- In the established state the slot holds bytes only, as many as the sender has in flight. -/
theorem Tracks.retx_len_eq {isn : UInt32} {app : List UInt8} {u : List Sent} {q : Sender Sym}
    {c : Line} {out : List Sent} (h : Tracks isn app u q c out) (hst : c.state = .established)
    (hp : c.retx_pending = true) : c.retx_len = q.flight := by
  have hph := h.phase
  unfold Phase at hph
  rw [hst] at hph
  obtain ⟨-, -, hqueue⟩ := hph
  have hbytes : ∀ x ∈ q.onWire, x ≠ Sym.syn ∧ x ≠ Sym.fin := by
    intro x hx
    have hmem := List.mem_of_mem_take hx
    rw [← hqueue] at hmem
    obtain ⟨b, -, rfl⟩ := List.mem_map.mp hmem
    exact ⟨Sym.noConfusion, Sym.noConfusion⟩
  have hslot := h.slot hp
  rw [length_symbols_of_bytes (hslot ▸ hbytes)] at hslot
  have hlen := congrArg List.length hslot
  rw [List.length_map, List.length_take, Sender.length_onWire] at hlen
  have := h.len_le
  omega

/-- **An ACK of everything sent lands the segment on the wire.** -/
theorem Tracks.landed {isn : UInt32} {app : List UInt8} {u : List Sent} {q : Sender Sym}
    {c : Line} {out : List Sent} (h : Tracks isn app u q c out) (hp : c.retx_pending = true) :
    Tracks isn app [] q.land c.landed out := by
  have hopen : c.state ≠ .closed := fun hcl => by
    rw [h.closed hcl] at hp; exact absurd hp (by decide)
  have hphase : Phase app q.land c.landed := by
    have hph := h.phase
    have hwire : 0 < q.acked + q.flight := Nat.add_pos_right _ ((h.pending hopen).mp hp)
    unfold Phase at hph ⊢
    rw [show c.landed.state = c.state from rfl]
    cases hst : c.state with
    | closed => trivial
    | synSent =>
      rw [hst] at hph
      obtain ⟨happ, hbuf, hstream, hsum⟩ := hph
      exact ⟨happ, by rw [Line.landed, hbuf, List.drop_nil], hstream, hsum⟩
    | established =>
      have hlen := h.retx_len_eq hst hp
      rw [hst] at hph
      obtain ⟨hstream, -, hqueue⟩ := hph
      refine ⟨hstream, hwire, ?_⟩
      rw [Sender.drop_land, ← hqueue, ← hlen, Line.landed, List.map_drop]
    | finWait1 =>
      rw [hst] at hph
      obtain ⟨hstream, hbuf, -⟩ := hph
      exact ⟨hstream, by rw [Line.landed, hbuf, List.drop_nil], hwire⟩
    | finWait2 =>
      rw [hst] at hph
      obtain ⟨hstream, hbuf, -⟩ := hph
      exact ⟨hstream, by rw [Line.landed, hbuf, List.drop_nil], rfl⟩
    | timeWait =>
      rw [hst] at hph
      exact hph
  exact
    { una := by
        show c.snd_nxt = isn + UInt32.ofNat (q.acked + q.flight)
        rw [h.nxt, h.una, UInt32.ofNat_add, UInt32.add_assoc]
      nxt := by
        show c.snd_nxt = c.snd_nxt + UInt32.ofNat 0
        simp
      stream := h.stream
      phase := hphase
      pending := fun _ => ⟨fun hc => Bool.noConfusion hc, fun hc => absurd hc (Nat.lt_irrefl 0)⟩
      closed := fun _ => rfl
      slot := fun hc => Bool.noConfusion hc
      unarmed := fun _ => rfl
      len_le := Nat.zero_le _
      len_mss := Nat.zero_le _
      room := by
        show (c.send_buf.drop c.retx_len).length ≤ _
        rw [List.length_drop]
        exact Nat.le_trans (Nat.sub_le _ _) h.room
      mss := h.mss
      flying := fun x hx => absurd hx List.not_mem_nil
      idle := fun _ => rfl
      origin := fun hc => absurd hc (Nat.lt_irrefl 0)
      log := h.log }

/-- What stays unacknowledged of `u` when the segment `g` comes in: nothing is ever sent
behind a segment that waits, so the one number that acknowledges it is its end. -/
def unacked (g : Segment) (u : List Sent) : List Sent :=
  if g.has flagAck ∧ ¬ g.has flagRst then
    u.filter fun x => x.seq + UInt32.ofNat x.syms.length ≠ g.ack
  else u

/-- Every segment that waits ends at `snd_nxt`. -/
theorem Tracks.seq_end {isn : UInt32} {app : List UInt8} {u : List Sent} {q : Sender Sym}
    {c : Line} {out : List Sent} (h : Tracks isn app u q c out) {x : Sent} (hx : x ∈ u) :
    x.seq + UInt32.ofNat x.syms.length = c.snd_nxt := by
  obtain ⟨-, -, hseq, -, hsyms⟩ := h.flying x hx
  rw [hseq, hsyms, Sender.length_onWire, h.nxt]

theorem ackInFlight_line (g : Segment) (c : Conn) :
    (ackInFlight g c).line =
      if g.has flagAck ∧ g.ack = c.snd_nxt ∧ c.retx_pending then c.line.landed else c.line := by
  unfold ackInFlight
  split_ifs with hc
  · obtain ⟨-, hack, -⟩ := hc
    show ({ c.line with
      snd_una := g.ack, send_buf := _, retx_len := 0, retx_pending := false } : Line) = _
    rw [hack]; rfl
  · rfl

theorem ackInFlight_state (g : Segment) (c : Conn) : (ackInFlight g c).state = c.state := by
  unfold ackInFlight
  split <;> rfl

theorem ackInFlight_snd_nxt (g : Segment) (c : Conn) : (ackInFlight g c).snd_nxt = c.snd_nxt := by
  unfold ackInFlight
  split <;> rfl

/-- **The shared ACK test.** It keeps exactly the segments the ACK number does not cover. -/
theorem Tracks.acked {isn : UInt32} {app : List UInt8} {u : List Sent} {q : Sender Sym}
    {c : Conn} {out : List Sent} (h : Tracks isn app u q c.line out) (hopen : c.state ≠ .closed)
    {g : Segment} (hr : g.has flagRst = false) :
    ∃ q', Tracks isn app (unacked g u) q' (ackInFlight g c).line out
      ∧ (g.has flagAck = true → g.ack = c.snd_nxt → q'.flight = 0) := by
  have hfilter : g.has flagAck = true →
      unacked g u = u.filter fun x => x.seq + UInt32.ofNat x.syms.length ≠ g.ack := by
    intro ha
    rw [unacked, if_pos ⟨ha, by simp [hr]⟩]
  have hend : ∀ x ∈ u, x.seq + UInt32.ofNat x.syms.length = c.snd_nxt := fun x hx => h.seq_end hx
  by_cases ha : g.has flagAck = true
  swap
  · refine ⟨q, ?_, fun ha' => absurd ha' ha⟩
    rw [ackInFlight_line, if_neg (fun hc => ha hc.1), unacked, if_neg (fun hc => ha hc.1)]
    exact h
  by_cases hack : g.ack = c.snd_nxt
  swap
  · refine ⟨q, ?_, fun _ hack' => absurd hack' hack⟩
    rw [ackInFlight_line, if_neg (fun hc => hack hc.2.1), hfilter ha,
      List.filter_eq_self.mpr fun x hx => by simp [hend x hx, Ne.symm hack]]
    exact h
  have hnone : unacked g u = [] := by
    rw [hfilter ha]
    exact List.filter_eq_nil_iff.mpr fun x hx => by simp [hend x hx, hack]
  by_cases hp : c.retx_pending = true
  · refine ⟨q.land, ?_, fun _ _ => rfl⟩
    rw [ackInFlight_line, if_pos ⟨ha, hack, hp⟩, hnone]
    exact h.landed hp
  · -- nothing is on the wire, so nothing was waiting
    have hflight : q.flight = 0 := by
      by_contra hne
      exact hp ((h.pending hopen).mpr (Nat.pos_of_ne_zero hne))
    refine ⟨q, ?_, fun _ _ => hflight⟩
    rw [ackInFlight_line, if_neg (fun hc => hp hc.2.2), hnone, ← h.idle hflight]
    exact h

end Tcp
