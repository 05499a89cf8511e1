import MiniWin.Net.HttpCuts

/-!
# HTTP responses: where the loops over the chunks go

`hr_walk_chunks` and `hr_finish` go from one chunk-size line to the next. A size that carries the
place of the next line past 32 bits can lead back, and can lead to a place in front of what has
been unwrapped by then; any other size leads on.
-/

namespace Hr

open Net Walk

/-! ## The loops -/

/-- **The walk of `hr_walk_chunks` from `p` comes to an end, and never goes back.** -/
inductive GoesOn (buf : Block) (len : Nat) : Nat → Prop where
  | stop {p : Nat} (h : nextChunk buf len p = none) : GoesOn buf len p
  | chunk {p q : Nat} (h : nextChunk buf len p = some q) (hle : p ≤ q) (hq : GoesOn buf len q) :
      GoesOn buf len p

/-- **The loop of `hr_finish` from `r` and `w` on comes to an end**, writes between `start` and
`len` only, and `w` never passes `r`. -/
inductive InPlace (start len : Nat) : Nat → Nat → Block → Prop where
  | «over» {r w : Nat} {buf : Block} (h : len ≤ r) (hw : start ≤ w ∧ w ≤ len) :
      InPlace start len r w buf
  | stop {r w : Nat} {buf : Block} (hr : r < len) (hw : start ≤ w ∧ w ≤ r)
      (h : ∀ data size, lineAt buf len r ≠ .chunk data size) : InPlace start len r w buf
  | chunk {r w data size : Nat} {buf : Block} (hr : r < len) (hw : start ≤ w ∧ w ≤ r)
      (hl : lineAt buf len r = .chunk data size) (hwrite : w + min size (len - data) ≤ len)
      (h : InPlace start len ((data + size + 2) % 2 ^ 32) (w + min size (len - data))
        (buf.copied w data (min size (len - data)))) : InPlace start len r w buf

variable {buf buf' : Block} {start len p q r w data size : Nat} {s : Resp}

theorem GoesOn.halts (h : GoesOn buf len p) : Halts (nextChunk buf len) p := by
  induction h with
  | stop h => exact halts_of_none h
  | chunk h _ _ ih => exact (halts_step h).mpr ih

theorem GoesOn.le (h : GoesOn buf len p) (hq : Leads (nextChunk buf len) p q) : p ≤ q := by
  induction h with
  | @stop p h =>
    rcases hq.cases_head with rfl | ⟨q', hq', -⟩
    · exact Nat.le_refl _
    · rw [h] at hq'
      exact nomatch hq'
  | @chunk p q' h hle _ ih =>
    rcases hq.cases_head with rfl | ⟨q'', hq'', hrest⟩
    · exact Nat.le_refl _
    · obtain rfl := Option.some.inj (h.symm.trans hq'')
      exact hle.trans (ih hrest)

theorem GoesOn.of_leads (h : GoesOn buf len p) (hq : Leads (nextChunk buf len) p q) :
    GoesOn buf len q := by
  induction hq with
  | refl => exact h
  | tail _ hs ih =>
    cases ih with
    | stop h =>
      rw [h] at hs
      exact nomatch hs
    | chunk h _ hrest =>
      obtain rfl := Option.some.inj (h.symm.trans hs)
      exact hrest

/-- A walk that ends does not lead from a place to itself. -/
theorem GoesOn.lt (h : GoesOn buf len p) (hq : nextChunk buf len p = some q) : p < q := by
  induction h generalizing q with
  | stop h =>
    rw [h] at hq
    exact nomatch hq
  | @chunk p q' h hle _ ih =>
    obtain rfl := Option.some.inj (h.symm.trans hq)
    refine Nat.lt_of_le_of_ne hle fun heq => ?_
    subst heq
    exact Nat.lt_irrefl _ (ih h)

/-- **`hr_walk_chunks` returns, and `chunk_pos` has not moved back.** -/
theorem GoesOn.returns (h : GoesOn s.buf s.len s.chunk_pos) :
    ∃ fuel s', walkChunks fuel s = some s' ∧ s.chunk_pos ≤ s'.chunk_pos := by
  obtain ⟨fuel, s', hs⟩ := exists_walkChunks h.halts s rfl rfl rfl
  obtain ⟨p, hp, -, rfl⟩ := walkChunks_some hs
  exact ⟨fuel, _, hs, h.le hp⟩

/-- **The loop of `hr_finish` returns**, and `w` is still inside. -/
theorem InPlace.returns (h : InPlace start len r w buf) (hlen : len ≤ bufSize) :
    ∃ fuel w' buf', unwrap len fuel r w buf = some (w', buf') ∧ start ≤ w' ∧ w' ≤ len := by
  induction h with
  | @«over» r w buf h hw => exact ⟨1, w, buf, by unfold unwrap; exact if_neg (by omega), hw⟩
  | @stop r w buf hr hw h =>
    refine ⟨1, w, buf, ?_, by omega, by omega⟩
    unfold unwrap
    rw [if_pos hr]
    cases hl : lineAt buf len r with
    | cut => rfl
    | last => rfl
    | chunk data size => exact absurd hl (h data size)
  | @chunk r w data size buf hr hw hl hwrite _ ih =>
    obtain ⟨fuel, w', buf', hun, hw'⟩ := ih
    refine ⟨fuel + 1, w', buf', ?_, hw'⟩
    unfold unwrap
    rw [if_pos hr, hl]
    dsimp only
    rw [if_neg (by omega)]
    exact hun

/-- **Both loops end and stay in bounds**: where the headers say that the body is chunked, the walk
from the body on, wherever a call resumes it, and the loop that unwraps; and `hr_finish` returns
and leaves a body inside what has arrived. -/
structure InBounds (s : Resp) : Prop where
  walk : s.hdr_done = true → s.chunked = true → GoesOn s.buf s.len s.body_start
    ∧ ∀ c, Leads (nextChunk s.buf s.len) s.body_start c →
      ∃ fuel s', walkChunks fuel { s with chunk_pos := c } = some s' ∧ c ≤ s'.chunk_pos
  unwrap : s.hdr_done = true → s.chunked = true →
    InPlace s.body_start s.len s.body_start s.body_start s.buf
  finish : ∃ fuel t, finish fuel s = some t ∧ t.len = s.len ∧ t.body_start + t.body_len ≤ t.len

/-! ## The sizes on the way -/

/-- The loop of `hr_finish` comes to the place `r` with `w` bytes unwrapped, when it reads what has
arrived. -/
inductive Way (buf : Block) (start len : Nat) : Nat → Nat → Prop where
  | start : Way buf start len start start
  | chunk {r w data size : Nat} (h : Way buf start len r w) (hr : r < len)
      (hl : lineAt buf len r = .chunk data size) :
      Way buf start len ((data + size + 2) % 2 ^ 32) (w + min size (len - data))

/-- **A size on the way that carries past 32 bits leads on all the same**: behind the line that it
is in, and behind all that is unwrapped by then. -/
def CarriesOn (buf : Block) (start len : Nat) : Prop :=
  ∀ r w data size, Way buf start len r w → r < len → lineAt buf len r = .chunk data size →
    2 ^ 32 ≤ data + size + 2 →
    r < data + size + 2 - 2 ^ 32 ∧ w + min size (len - data) ≤ data + size + 2 - 2 ^ 32

theorem lineAt_end (h : len ≤ p + 1) : lineAt buf len p = .cut := by
  unfold lineAt
  rw [show len - 1 - p = 0 by omega]
  rfl

theorem size_lt (h : lineAt buf len p = .chunk data size) : size < 2 ^ 32 := by
  unfold lineAt at h
  split at h
  · exact nomatch h
  split at h
  · exact nomatch h
  split at h
  · exact nomatch h
  · next n _ _ =>
    obtain ⟨-, rfl⟩ := Line.chunk.inj h
    exact n.toNat_lt

/-- Where a line leads, when no size carries or one that does leads on. -/
theorem CarriesOn.step (h : CarriesOn buf start len) (hlen : len < 2 ^ 31) (hway : Way buf start len r w)
    (hwr : w ≤ r) (hr : r < len) (hl : lineAt buf len r = .chunk data size) :
    r < (data + size + 2) % 2 ^ 32 ∧ w + min size (len - data) ≤ (data + size + 2) % 2 ^ 32
      ∧ w + min size (len - data) ≤ len := by
  have hdata := data_le hl
  have hsize := size_lt hl
  by_cases hcarry : 2 ^ 32 ≤ data + size + 2
  · rw [Nat.mod_eq_sub_mod hcarry, Nat.mod_eq_of_lt (by omega)]
    obtain ⟨hlt, hle⟩ := h r w data size hway hr hl hcarry
    exact ⟨hlt, hle, by omega⟩
  · rw [Nat.mod_eq_of_lt (by omega)]
    omega

/-- **Both loops from a place on the way.** -/
theorem CarriesOn.loops (h : CarriesOn buf start len) (hlen : len < 2 ^ 31) :
    ∀ n r w (b : Block), len - r ≤ n → Way buf start len r w → start ≤ w → w ≤ r → w ≤ len →
      (∀ i, r ≤ i → i < len → b i = buf i) →
      InPlace start len r w b ∧ (r ≤ len → GoesOn buf len r)
  | n, r, w, b, hn, hway, hstart, hwr, hwl, hb => by
    by_cases hr : len ≤ r
    · refine ⟨.«over» hr ⟨hstart, hwl⟩, fun hle => .stop ?_⟩
      unfold nextChunk
      rw [lineAt_end (by omega)]
    have hsame := lineAt_congr hb
    cases hl : lineAt buf len r with
    | cut =>
      refine ⟨.stop (by omega) ⟨hstart, hwr⟩ fun data size hc => ?_, fun _ => .stop ?_⟩
      · rw [hsame, hl] at hc
        exact nomatch hc
      · unfold nextChunk
        rw [hl]
    | last =>
      refine ⟨.stop (by omega) ⟨hstart, hwr⟩ fun data size hc => ?_,
        fun _ => .stop (nextChunk_of_last hl)⟩
      rw [hsame, hl] at hc
      exact nomatch hc
    | chunk data size =>
      obtain ⟨hlt, hle, hfit⟩ := h.step hlen hway hwr (by omega) hl
      cases n with
      | zero => omega
      | succ n =>
        have hdata := data_le hl
        obtain ⟨take, htake⟩ : ∃ take, min size (len - data) = take := ⟨_, rfl⟩
        have hnext := h.loops hlen n _ _ (b.copied w data (min size (len - data))) (by omega)
          (hway.chunk (by omega) hl) (by omega) hle hfit fun i hi hilt => by
            rw [b.copied_of_outside (by omega)]
            exact hb i (by omega) hilt
        refine ⟨.chunk (by omega) ⟨hstart, hwr⟩ (hsame.trans hl) hfit hnext.1, fun _ => ?_⟩
        cases hq : nextChunk buf len r with
        | none => exact .stop hq
        | some q =>
          obtain ⟨data', size', hl', rfl, hqle⟩ := nextChunk_eq_some.mp hq
          obtain ⟨rfl, rfl⟩ := Line.chunk.inj (hl.symm.trans hl')
          exact .chunk hq (by omega) (hnext.2 hqle)

/-- **Loops that end in bounds have met no size that leads back.** -/
theorem loops_on_way (hwalk : GoesOn buf len start) (hplace : InPlace start len start start buf)
    (hway : Way buf start len r w) : r < len → GoesOn buf len r
      ∧ ∃ b, (∀ i, r ≤ i → i < len → b i = buf i) ∧ InPlace start len r w b := by
  induction hway with
  | start => exact fun _ => ⟨hwalk, buf, fun _ _ _ => rfl, hplace⟩
  | @chunk r w data size _ hr hl ih =>
    intro hq
    obtain ⟨hgoes, b, hb, hin⟩ := ih hr
    have hnext : nextChunk buf len r = some ((data + size + 2) % 2 ^ 32) :=
      nextChunk_eq_some.mpr ⟨data, size, hl, rfl, Nat.le_of_lt hq⟩
    have hlb := (lineAt_congr hb).trans hl
    have hdata := data_le hl
    refine ⟨?_, ?_⟩
    · cases hgoes with
      | stop h =>
        rw [h] at hnext
        exact nomatch hnext
      | chunk h _ hrest =>
        obtain rfl := Option.some.inj (h.symm.trans hnext)
        exact hrest
    · cases hin with
      | «over» h => omega
      | stop _ _ h => exact absurd hlb (h data size)
      | @chunk _ _ data' size' _ _ hw hl' hwrite h =>
        obtain ⟨rfl, rfl⟩ := Line.chunk.inj (hlb.symm.trans hl')
        have hpass : w + min size (len - data) ≤ (data + size + 2) % 2 ^ 32 := by
          cases h with
          | «over» h => omega
          | stop _ hw' => exact hw'.2
          | chunk _ hw' => exact hw'.2
        have hlt := hgoes.lt hnext
        refine ⟨_, fun i hi hilt => ?_, h⟩
        rw [b.copied_of_outside (by omega)]
        exact hb i (by omega) hilt

/-- **The loops over the chunks end and stay in bounds exactly if every size that carries leads
on.** -/
theorem in_bounds_iff (hlen : s.len ≤ bufSize) (hstart : s.body_start ≤ s.len)
    (hfin : s.finished = false) : InBounds s
      ↔ (s.hdr_done = true → s.chunked = true → CarriesOn s.buf s.body_start s.len) := by
  have hsmall : s.len < 2 ^ 31 := Nat.lt_of_le_of_lt hlen (by decide)
  constructor
  · intro h hdone hch r w data size hway hr hl hcarry
    obtain ⟨hgoes, b, hb, hin⟩ := loops_on_way (h.walk hdone hch).1 (h.unwrap hdone hch) hway hr
    have hdata := data_le hl
    have hsize := size_lt hl
    have hlb := (lineAt_congr hb).trans hl
    have hmod : (data + size + 2) % 2 ^ 32 = data + size + 2 - 2 ^ 32 := by
      rw [Nat.mod_eq_sub_mod hcarry, Nat.mod_eq_of_lt (by omega)]
    refine ⟨?_, ?_⟩
    · by_cases hq : data + size + 2 - 2 ^ 32 ≤ s.len
      · exact hgoes.lt (nextChunk_eq_some.mpr ⟨data, size, hl, hmod.symm, hq⟩)
      · omega
    · cases hin with
      | «over» h => omega
      | stop _ _ h => exact absurd hlb (h data size)
      | @chunk _ _ data' size' _ _ hw hl' hwrite h =>
        obtain ⟨rfl, rfl⟩ := Line.chunk.inj (hlb.symm.trans hl')
        rw [hmod] at h
        generalize data + size + 2 - 2 ^ 32 = q at h ⊢
        cases h with
        | «over» h => omega
        | stop _ hw' => exact hw'.2
        | chunk _ hw' => exact hw'.2
  · intro h
    have hloops : s.hdr_done = true → s.chunked = true →
        InPlace s.body_start s.len s.body_start s.body_start s.buf
          ∧ GoesOn s.buf s.len s.body_start := by
      intro hdone hch
      obtain ⟨hin, hgoes⟩ := (h hdone hch).loops hsmall _ _ _ s.buf (Nat.le_refl _) .start
        (Nat.le_refl _) (Nat.le_refl _) hstart fun _ _ _ => rfl
      exact ⟨hin, hgoes hstart⟩
    refine ⟨fun hdone hch => ?_, fun hdone hch => (hloops hdone hch).1, ?_⟩
    · have hgoes := (hloops hdone hch).2
      exact ⟨hgoes, fun c hc => (hgoes.of_leads hc).returns (s := { s with chunk_pos := c })⟩
    · by_cases hdone : s.hdr_done = true
      · by_cases hch : s.chunked = true
        · obtain ⟨fuel, w, buf, hun, hle, hwl⟩ := (hloops hdone hch).1.returns hlen
          refine ⟨fuel, { s with buf := buf, body_len := w - s.body_start, finished := true }, ?_, rfl,
            by dsimp only; omega⟩
          unfold Hr.finish
          rw [if_neg (by rw [hfin]; decide), if_neg (not_not.mpr hdone), if_pos hch, hun]
          rfl
        · refine ⟨0, { s with
            body_len := if s.have_clen ∧ s.clen.toNat < s.len - s.body_start then s.clen.toNat
              else s.len - s.body_start
            finished := true }, ?_, rfl, by dsimp only; split <;> omega⟩
          unfold Hr.finish
          rw [if_neg (by rw [hfin]; decide), if_neg (not_not.mpr hdone), if_neg hch]
      · refine ⟨0, { s with body_start := 0, body_len := s.len, finished := true }, ?_, rfl,
          by dsimp only; omega⟩
        unfold Hr.finish
        rw [if_neg (by rw [hfin]; decide), if_pos hdone]

/-- The sizes of the first page do not carry. -/
theorem in_bounds_iff_firstPage : InBounds (seen Block.zero firstPage) := by
  obtain ⟨hbuf, hlen, -, -, hfin, -⟩ := seen_spec Block.zero firstPage
  have hhead : headEnd firstPage = some 43 := by decide +kernel
  have hstart := (seen_start (m := Block.zero) hhead).1
  have hchunk : lineAt (mem Block.zero firstPage) firstPage.length 47 = .chunk 50 3 := by
    decide +kernel
  have hlast : lineAt (mem Block.zero firstPage) firstPage.length 55 = .last := by decide +kernel
  have hway : ∀ {r w}, Way (mem Block.zero firstPage) 47 firstPage.length r w → r = 47 ∨ r = 55 := by
    intro r w h
    induction h with
    | start => exact .inl rfl
    | chunk _ _ hl ih =>
      rcases ih with rfl | rfl
      · obtain ⟨rfl, rfl⟩ := Line.chunk.inj (hchunk.symm.trans hl)
        exact .inr rfl
      · rw [hlast] at hl
        exact nomatch hl
  refine (in_bounds_iff (by rw [hlen]; decide +kernel) (by rw [hlen, hstart]; decide +kernel) hfin).mpr
    fun _ _ => ?_
  rw [hbuf, hlen, hstart]
  intro r w data size h _ hl hcarry
  rcases hway h with rfl | rfl
  · obtain ⟨rfl, rfl⟩ := Line.chunk.inj (hchunk.symm.trans hl)
    exact absurd hcarry (by decide)
  · rw [hlast] at hl
    exact nomatch hl

/-- The headers of a page whose only chunk has `2 ^ 32 - 12` bytes. -/
def loopPage : List UInt8 :=
  bytes "HTTP/1.1 200 OK\r\nTransfer-Encoding: chunked\r\n\r\nFFFFFFF4\r\n"

/-- **A size that leads back to its own line**: `hr_walk_chunks` does not return. -/
theorem size_leads_back : (∀ fuel, walkChunks fuel (seen Block.zero loopPage) = none)
    ∧ ¬ ∀ s : Resp, s.len ≤ bufSize → s.body_start ≤ s.len → s.finished = false → InBounds s := by
  obtain ⟨hbuf, hlen, -, -, hfin, hdone⟩ := seen_spec Block.zero loopPage
  have hhead : headEnd loopPage = some 43 := by decide +kernel
  obtain ⟨hstart, hpos⟩ := seen_start (m := Block.zero) hhead
  have hch : (seen Block.zero loopPage).chunked = true := by decide +kernel
  have hback : nextChunk (mem Block.zero loopPage) loopPage.length 47 = some 47 := by decide +kernel
  refine ⟨walkChunks_loop (by rw [hbuf, hlen, hpos]; exact hback), fun h => ?_⟩
  have hgoes := ((h (seen Block.zero loopPage) (by rw [hlen]; decide +kernel)
    (by rw [hlen, hstart]; decide +kernel) hfin).walk (by rw [hdone, hhead]; rfl) hch).1
  rw [hbuf, hlen, hstart] at hgoes
  exact Nat.lt_irrefl _ (hgoes.lt hback)

end Hr
