import MiniWin.Net.HttpDone
import MiniWin.Net.HttpHead

/-!
# HTTP responses: a declared length

A body that is not chunked ends after as many bytes as `Content-Length` says. The number is read in
32 bits, and the answers that have no body end with their headers whatever it is.
-/

namespace Hr

open Net

variable {head X Y Z : List UInt8} {N i : Nat} {m : Block} {s : Resp} {cuts : List (List UInt8)}

theorem Fed.holds (h : Fed m cuts s) : Holds m cuts.flatten s := by
  induction h with
  | start => exact Holds.reset m
  | call _ hf ih =>
    rw [List.flatten_append, List.flatten_singleton]
    exact ih.feed hf

/-- **The headers declare a length of `N`** and no chunked body: each `Content-Length` says so, and
there is one. -/
structure LengthHead (head : List UInt8) (N : Nat) : Prop where
  isHead : IsHead head
  declares : ∃ l ∈ headerLines head, SaysLength N l
  all : ∀ l ∈ headerLines head, ∀ v, headerValue l (bytes "content-length") = some v →
    SaysLength N l
  unchunked : ∀ l ∈ headerLines head, ¬ SaysChunked l

/-- **What is known behind such headers.** -/
theorem LengthHead.seen (h : LengthHead head N) (m : Block) (Z : List UInt8) :
    (seen m (head ++ Z)).status = statusCode head ∧ (seen m (head ++ Z)).chunked = false
      ∧ (seen m (head ++ Z)).have_clen = true ∧ (seen m (head ++ Z)).clen.toNat = N % 2 ^ 32
      ∧ (bufSize < head.length + N % 2 ^ 32 → head.length ≤ bufSize →
        (seen m (head ++ Z)).too_big = true) := by
  obtain ⟨s, hs, hseen⟩ := h.isHead.seen m Z
  have hstatus := status_foldl (headerLines head) s
  have hchunked : ((headerLines head).foldl headerLine s).chunked = false := by
    rw [Bool.eq_false_iff, ne_eq, chunked_foldl, hs]
    rintro (hc | ⟨l, hl, hc⟩)
    · exact nomatch hc
    · exact h.unchunked l hl hc
  have hvalue : ∀ l ∈ headerLines head, ∀ v, headerValue l (bytes "content-length") = some v →
      decimalValue (v.takeWhile isDigit) = N := by
    intro l hl v hv
    obtain ⟨v', hv', -, hN⟩ := h.all l hl v hv
    obtain rfl := Option.some.inj (hv.symm.trans hv')
    exact hN
  obtain ⟨hclen, hhave⟩ := length_foldl hvalue s (by rw [hs]; exact fun hc => nomatch hc)
  obtain ⟨l, hl, v, hv, -⟩ := h.declares
  have hhave := hhave (.inr ⟨l, hl, v, hv⟩)
  have hclen := hclen hhave
  generalize (headerLines head).foldl headerLine s = t at hseen hstatus hchunked hhave hclen
  dsimp only at hseen
  rw [hs] at hstatus
  by_cases hbig : t.have_clen ∧ ¬ t.chunked ∧ t.clen.toNat > bufSize - head.length
  · rw [if_pos hbig] at hseen
    rw [hseen]
    exact ⟨hstatus, hchunked, hhave, hclen, fun _ _ => rfl⟩
  · rw [if_neg hbig] at hseen
    rw [hseen]
    refine ⟨hstatus, hchunked, hhave, hclen, fun hlong hfit => absurd ⟨hhave, ?_, ?_⟩ hbig⟩
    · rw [hchunked]
      decide
    · omega

/-- **A declared length of `N` is honoured** in every run over bytes that begin with these headers,
as far as they have come: the response is complete only when `N` bytes of the body are stored, a
body that does not fit is a failure unless the response is a redirect, and the body of a complete
response has `N` bytes. -/
def Honoured (head : List UInt8) (N : Nat) : Prop :=
  ∀ (m : Block) (cuts : List (List UInt8)) (body : List UInt8) (s : Resp),
    cuts.flatten <+: head ++ body → Fed m cuts s →
      (s.complete = true → s.hdr_done = true ∧ s.body_start + N ≤ s.len)
      ∧ (head <+: cuts.flatten → bufSize < head.length + N →
        sizeFatal s = true ∨ isRedirect s = true)
      ∧ (s.complete = true → ∀ fuel, ∃ t, finish fuel s = some t ∧ t.body_len = N)

/-- What the buffer holds has come to the end of the headers, or they are not all there. -/
theorem IsHead.held (h : IsHead head) {body : List UInt8} (hX : X <+: head ++ body) :
    (headEnd X = none ∧ X.length < head.length)
      ∨ ∃ Z, X = head ++ Z ∧ headEnd X = some (head.length - 4) := by
  rcases Nat.lt_or_ge X.length head.length with hlt | hge
  · exact .inl ⟨h.before (List.prefix_of_prefix_length_le hX (List.prefix_append _ _)
      (Nat.le_of_lt hlt)) hlt, hlt⟩
  · obtain ⟨Z, rfl⟩ := List.prefix_of_prefix_length_le (List.prefix_append head body) hX hge
    exact .inr ⟨Z, rfl, (h.append Z).1⟩

/-- **A declared length is honoured**, if 32 bits hold it and the response is one with a body. -/
theorem declared_length (h : LengthHead head N) (hN : N < 2 ^ 32)
    (hbody : noBody (statusCode head) = false) : Honoured head N := by
  intro m cuts body s hX hfed
  obtain ⟨c, p, rfl, hs⟩ := hfed.holds
  generalize cuts.flatten = X at hX hs ⊢
  have hY : X.take bufSize <+: head ++ body := (List.take_prefix _ _).trans hX
  obtain ⟨Y, hYX⟩ : ∃ Y, X.take bufSize = Y := ⟨_, rfl⟩
  have hlenY : Y.length = min bufSize X.length := by rw [← hYX, List.length_take]
  rw [hYX] at hY hs ⊢
  rcases h.isHead.held hY with ⟨hnone, hlt⟩ | ⟨Z, rfl, hend⟩
  · rw [if_pos hnone] at hs
    obtain ⟨rfl, rfl⟩ := hs
    refine ⟨(nomatch ·), fun hhead _ => ?_, (nomatch ·)⟩
    -- the headers are longer than the buffer
    have hle := hhead.length_le
    have hover : bufSize < X.length := by omega
    cases hr : isRedirect _ with
    | true => exact .inr rfl
    | false =>
      refine .inl ?_
      unfold sizeFatal
      rw [hr]
      dsimp only
      rw [decide_eq_true hover]
      rfl
  · rw [if_neg (by rw [hend]; simp)] at hs
    obtain ⟨hstatus, hchunked, hhave, hclen, hbig⟩ := h.seen m Z
    rw [Nat.mod_eq_of_lt hN] at hclen hbig
    obtain ⟨-, hlen, -, -, hfin, hdone⟩ := seen_spec m (head ++ Z)
    obtain ⟨hstart, -⟩ := seen_start (m := m) hend
    rw [hend] at hdone
    have hfour := (h.isHead.append Z).2
    rw [show head.length - 4 + 4 = head.length by omega] at hstart
    have hc := hs.sized (by rw [hstatus]; exact hbody) hchunked
    rw [hhave, hlen, hstart, hclen] at hc
    have hstored : c = true → head.length + N ≤ (head ++ Z).length := by
      intro htrue
      rw [htrue] at hc
      have hge := (of_decide_eq_true hc.symm).2
      rw [List.length_append] at hge ⊢
      omega
    refine ⟨fun hcomplete => ⟨hdone, ?_⟩, fun _ hlong => ?_, fun hcomplete fuel => ?_⟩
    · dsimp only
      rw [hstart, hlen]
      exact hstored hcomplete
    · have hlen' : (head ++ Z).length = head.length + Z.length := List.length_append
      have htoo := hbig hlong (by omega)
      cases hr : isRedirect _ with
      | true => exact .inr rfl
      | false =>
        refine .inl ?_
        unfold sizeFatal
        rw [hr]
        dsimp only
        rw [htoo, Bool.or_true]
        rfl
    · have hge := hstored hcomplete
      unfold finish
      dsimp only
      rw [hfin, hdone, hchunked, if_neg (by decide), if_neg (by simp), if_neg (by decide)]
      refine ⟨_, rfl, ?_⟩
      dsimp only
      rw [hhave, hclen, hlen, hstart]
      split
      · rfl
      · next hlt =>
        have := not_and.mp hlt rfl
        omega

/-- The headers with one line behind the status line, if that line declares the length. -/
theorem LengthHead.single {l v : List UInt8} (hhead : headEnd head = some (head.length - 4))
    (hlines : headerLines head = [l, ['\r'.toUInt8]])
    (hv : headerValue l (bytes "content-length") = some v) (hds : v.takeWhile isDigit ≠ [])
    (hN : decimalValue (v.takeWhile isDigit) = N) : LengthHead head N := by
  have hsays : SaysLength N l := ⟨v, hv, hds, hN⟩
  refine ⟨hhead, ⟨l, by rw [hlines]; exact List.mem_cons_self, hsays⟩, ?_, ?_⟩
  · intro l' hl' v' hv'
    rw [hlines, List.mem_cons, List.mem_singleton] at hl'
    rcases hl' with rfl | rfl
    · exact hsays
    · exact nomatch hv'
  · intro l' hl'
    rw [hlines, List.mem_cons, List.mem_singleton] at hl'
    rintro ⟨v', hv', -⟩
    rcases hl' with rfl | rfl
    · exact chunked_ne_length (headerValue_unique hv' hv (by decide) (by decide))
    · exact nomatch hv'

def threeBytes : List UInt8 := bytes "HTTP/1.1 200 OK\r\nContent-Length: 3\r\n\r\n"

theorem declared_length_three : Honoured threeBytes 3 :=
  declared_length (.single (l := bytes "Content-Length: 3\r") (v := bytes "3\r") (by decide +kernel)
    (by decide +kernel) (by decide +kernel) (by decide +kernel) (by decide +kernel)) (by decide)
    (by decide +kernel)

/-- The headers of an answer that has no body. -/
def notModified : List UInt8 := bytes "HTTP/1.1 304 Same\r\nContent-Length: 5\r\n\r\n"

/-- A length of `2 ^ 32 + 1`. -/
def wrapped : List UInt8 := bytes "HTTP/1.1 200 OK\r\nContent-Length: 4294967297\r\n\r\n"

/-- **Complete without the body**: an answer that has none, and one whose length is 1 in 32
bits. -/
theorem declared_length_fails :
    (¬ ∀ head N, LengthHead head N → N < 2 ^ 32 → Honoured head N)
      ∧ ¬ ∀ head N, LengthHead head N → noBody (statusCode head) = false → Honoured head N := by
  constructor
  · intro h
    have hfed : (feed 1 notModified (reset Block.zero)).map
        (fun s => (s.complete, s.len, s.body_start)) = some (true, 40, 40) := by decide +kernel
    obtain ⟨s, hs, heq⟩ := Option.map_eq_some_iff.mp hfed
    obtain ⟨hcomplete, hlen, hstart⟩ : s.complete = true ∧ s.len = 40 ∧ s.body_start = 40 := by
      simpa using heq
    have hstored := (h notModified 5 (.single (l := bytes "Content-Length: 5\r")
      (v := bytes "5\r") (by decide +kernel) (by decide +kernel) (by decide +kernel)
      (by decide +kernel) (by decide +kernel)) (by decide) Block.zero [notModified] [] s (by simp)
      (.call .start hs)).1 hcomplete
    omega
  · intro h
    have hfed : (feed 1 (wrapped ++ bytes "a") (reset Block.zero)).map
        (fun s => (s.complete, s.len, s.body_start)) = some (true, 48, 47) := by decide +kernel
    obtain ⟨s, hs, heq⟩ := Option.map_eq_some_iff.mp hfed
    obtain ⟨hcomplete, hlen, hstart⟩ : s.complete = true ∧ s.len = 48 ∧ s.body_start = 47 := by
      simpa using heq
    have hstored := (h wrapped 4294967297 (.single (l := bytes "Content-Length: 4294967297\r")
      (v := bytes "4294967297\r") (by decide +kernel) (by decide +kernel) (by decide +kernel)
      (by decide +kernel) (by decide +kernel)) (by decide +kernel) Block.zero
      [wrapped ++ bytes "a"] (bytes "a") s (by simp) (.call .start hs)).1 hcomplete
    omega

end Hr
