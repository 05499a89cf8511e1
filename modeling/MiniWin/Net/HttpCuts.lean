import MiniWin.Lib.Walk
import MiniWin.Net.Http
import Mathlib.Data.List.Find
import Mathlib.Data.List.Induction

/-!
# HTTP responses: the bytes may come in any pieces

What `hr_feed` has made of the bytes so far is a function of these bytes, and of how far the walk
over the chunk-size lines has come: on fewer bytes the walk goes the same way and ends earlier. So
the pieces do not matter as long as every walk ends. A size near `2 ^ 32` can lead a walk back to
where it has been.
-/

namespace Hr

open Net Walk

/-! ## The walk -/

/-- The place of the next chunk-size line, when the chunk at `p` is all here. -/
def nextChunk (buf : Block) (len p : Nat) : Option Nat :=
  match lineAt buf len p with
  | .chunk data size =>
    if (data + size + 2) % 2 ^ 32 > len then none else some ((data + size + 2) % 2 ^ 32)
  | .cut => none
  | .last => none

section
variable {buf buf' : Block} {len len' p q : Nat}

theorem nextChunk_eq_some : nextChunk buf len p = some q ↔ ∃ data size,
    lineAt buf len p = .chunk data size ∧ q = (data + size + 2) % 2 ^ 32 ∧ q ≤ len := by
  unfold nextChunk
  cases hl : lineAt buf len p with
  | cut => exact iff_of_false (fun h => nomatch h) fun ⟨_, _, h, _⟩ => nomatch h
  | last => exact iff_of_false (fun h => nomatch h) fun ⟨_, _, h, _⟩ => nomatch h
  | chunk data size =>
    dsimp only
    constructor
    · intro h
      split at h
      · exact nomatch h
      next hle =>
      obtain rfl := Option.some.inj h
      exact ⟨data, size, rfl, rfl, by omega⟩
    · rintro ⟨_, _, hline, rfl, hle⟩
      obtain ⟨rfl, rfl⟩ := Line.chunk.inj hline
      rw [if_neg (by omega)]

/-- **A line that is all here stays what it is**, whatever comes behind it. -/
theorem lineAt_mono (hle : len ≤ len') (hbuf : ∀ i, p ≤ i → i < len → buf' i = buf i) {l : Line}
    (hl : lineAt buf len p = l) (hne : l ≠ .cut) : lineAt buf' len' p = l := by
  unfold lineAt at hl ⊢
  cases hfind : (List.range' p (len - 1 - p)).find? fun i =>
      buf i = '\r'.toUInt8 ∧ buf (i + 1) = '\n'.toUInt8 with
  | none =>
    rw [hfind] at hl
    exact absurd hl.symm hne
  | some e =>
    rw [hfind] at hl
    obtain ⟨hcr, hmem, hfirst⟩ := List.find?_range'_eq_some.mp hfind
    obtain ⟨hpe, helt⟩ := List.mem_range'_1.mp hmem
    have hfind' : ((List.range' p (len' - 1 - p)).find? fun i =>
        buf' i = '\r'.toUInt8 ∧ buf' (i + 1) = '\n'.toUInt8) = some e := by
      refine List.find?_range'_eq_some.mpr ⟨?_, List.mem_range'_1.mpr ⟨hpe, by omega⟩,
        fun j hj hje => ?_⟩
      · rw [hbuf e hpe (by omega), hbuf (e + 1) (by omega) (by omega)]
        exact hcr
      · rw [hbuf j hj (by omega), hbuf (j + 1) (by omega) (by omega)]
        exact hfirst j hj hje
    rw [hfind']
    have hslice : buf'.slice p (e - p) = buf.slice p (e - p) :=
      Block.slice_congr fun i hi => hbuf _ (by omega) (by omega)
    dsimp only at hl ⊢
    rw [hslice]
    exact hl

theorem lineAt_congr (hbuf : ∀ i, p ≤ i → i < len → buf' i = buf i) :
    lineAt buf' len p = lineAt buf len p := by
  by_cases hc : lineAt buf len p = .cut
  · by_contra hne
    have hne' : lineAt buf' len p ≠ .cut := fun h => hne (h.trans hc.symm)
    exact hne (lineAt_mono (Nat.le_refl _) (fun i h₁ h₂ => (hbuf i h₁ h₂).symm) rfl hne').symm
  · exact lineAt_mono (Nat.le_refl _) hbuf rfl hc

/-- Where the data of a chunk begins. -/
theorem data_le {data size : Nat} (h : lineAt buf len p = .chunk data size) :
    p + 2 ≤ data ∧ data ≤ len := by
  unfold lineAt at h
  cases hfind : (List.range' p (len - 1 - p)).find? fun i =>
      buf i = '\r'.toUInt8 ∧ buf (i + 1) = '\n'.toUInt8 with
  | none =>
    rw [hfind] at h
    exact nomatch h
  | some e =>
    rw [hfind] at h
    have he := List.mem_range'_1.mp (List.find?_range'_eq_some.mp hfind).2.1
    dsimp only at h
    split at h
    · exact nomatch h
    split at h
    · exact nomatch h
    obtain ⟨rfl, -⟩ := Line.chunk.inj h
    omega

theorem nextChunk_mono (hle : len ≤ len') (hbuf : ∀ i < len, buf' i = buf i) (p q : Nat)
    (h : nextChunk buf len p = some q) : nextChunk buf' len' p = some q := by
  obtain ⟨data, size, hl, hq, hqle⟩ := nextChunk_eq_some.mp h
  exact nextChunk_eq_some.mpr ⟨data, size, lineAt_mono hle (fun i _ hi => hbuf i hi) hl (by simp), hq, by omega⟩

theorem nextChunk_of_last (h : lineAt buf len p = .last) : nextChunk buf len p = none := by
  unfold nextChunk
  rw [h]

end

/-- **What `hr_walk_chunks` leaves when it returns.** -/
theorem walkChunks_some : ∀ {fuel : Nat} {s s' : Resp}, walkChunks fuel s = some s' →
    ∃ p, Leads (nextChunk s.buf s.len) s.chunk_pos p ∧ nextChunk s.buf s.len p = none
      ∧ s' = { s with
        chunk_pos := p
        complete := s.complete || decide (lineAt s.buf s.len p = .last) }
  | 0, _, _, h => nomatch h
  | fuel + 1, s, s', h => by
    unfold walkChunks at h
    cases hl : lineAt s.buf s.len s.chunk_pos with
    | cut =>
      rw [hl] at h
      obtain rfl := Option.some.inj h
      refine ⟨s.chunk_pos, .refl, by unfold nextChunk; rw [hl], ?_⟩
      rw [hl, decide_eq_false (by simp), Bool.or_false]
    | last =>
      rw [hl] at h
      obtain rfl := Option.some.inj h
      refine ⟨s.chunk_pos, .refl, nextChunk_of_last hl, ?_⟩
      rw [hl, decide_eq_true rfl, Bool.or_true]
    | chunk data size =>
      rw [hl] at h
      dsimp only at h
      split at h
      · next hgt =>
        obtain rfl := Option.some.inj h
        refine ⟨s.chunk_pos, .refl, ?_, ?_⟩
        · unfold nextChunk
          rw [hl]
          exact if_pos hgt
        · rw [hl, decide_eq_false (by simp), Bool.or_false]
      · next hle =>
        obtain ⟨p, hp, hend, heq⟩ := walkChunks_some h
        exact ⟨p, .head (nextChunk_eq_some.mpr ⟨data, size, hl, rfl, by omega⟩) hp, hend, heq⟩

/-- **It returns if the walk ends.** -/
theorem exists_walkChunks {buf : Block} {len p : Nat} (h : Halts (nextChunk buf len) p) :
    ∀ s : Resp, s.buf = buf → s.len = len → s.chunk_pos = p →
      ∃ fuel s', walkChunks fuel s = some s' := by
  induction h with
  | intro p _ ih =>
    rintro s rfl rfl rfl
    cases hl : lineAt s.buf s.len s.chunk_pos with
    | cut => exact ⟨1, s, by unfold walkChunks; rw [hl]⟩
    | last => exact ⟨1, _, by unfold walkChunks; rw [hl]⟩
    | chunk data size =>
      by_cases hgt : (data + size + 2) % 2 ^ 32 > s.len
      · exact ⟨1, s, by unfold walkChunks; rw [hl]; exact if_pos hgt⟩
      · obtain ⟨fuel, s', hs⟩ := ih _ (nextChunk_eq_some.mpr ⟨data, size, hl, rfl, by omega⟩)
          { s with chunk_pos := (data + size + 2) % 2 ^ 32 } rfl rfl rfl
        exact ⟨fuel + 1, s', by unfold walkChunks; rw [hl]; exact (if_neg hgt).trans hs⟩

/-! ## The headers -/

/-- The bytes that have arrived, in the buffer. -/
def mem (m : Block) (X : List UInt8) : Block := m.put 0 X

/-- The blank line that ends the headers of these bytes. -/
def headEnd (X : List UInt8) : Option Nat :=
  (List.range' 0 (X.length - 3)).find? (blankAt (mem Block.zero X))

/-- What the headers of these bytes say, when they are all here. -/
def seen (m : Block) (X : List UInt8) : Resp :=
  match headEnd X with
  | none => { reset m with buf := mem m X, len := X.length }
  | some i => headersEnd (i + 4) { reset m with buf := mem m X, len := X.length }

section
variable {m e : Block} {X d : List UInt8} {i : Nat}

theorem mem_append : (mem m X).put X.length d = mem m (X ++ d) := by
  have h := Block.put_put_append m 0 X d
  rw [Nat.zero_add] at h
  exact h

theorem mem_apply (h : i < X.length) : mem m X i = X[i] := by
  have hput := Block.put_apply_of_mem m (o := 0) h
  rw [Nat.zero_add] at hput
  exact hput

theorem mem_prefix (h : i < X.length) : mem m (X ++ d) i = mem e X i := by
  rw [mem_apply (m := e) h, mem_apply (by rw [List.length_append]; omega)]
  exact List.getElem_append_left h

theorem blankAt_congr {buf buf' : Block} (h : ∀ k < 4, buf' (i + k) = buf (i + k)) :
    blankAt buf' i = blankAt buf i := by
  unfold blankAt
  rw [h 1 (by omega), h 2 (by omega), h 3 (by omega), show buf' i = buf i from h 0 (by omega)]

theorem find_blank (n : Nat) (hn : n ≤ X.length - 3) :
    (List.range' 0 n).find? (blankAt (mem m (X ++ d)))
      = (List.range' 0 n).find? (blankAt (mem e X)) := by
  refine List.find?_congr fun j hj => blankAt_congr fun k hk => mem_prefix ?_
  have := (List.mem_range'_1.mp hj).2
  omega

/-- **The search goes on three bytes in front of the new ones**, and misses nothing. -/
theorem resume (h : headEnd X = none) :
    (List.range' (X.length - 3) ((X ++ d).length - 3 - (X.length - 3))).find?
      (blankAt (mem m (X ++ d))) = headEnd (X ++ d) := by
  have hlen : X.length - 3 ≤ (X ++ d).length - 3 := by
    rw [List.length_append]
    omega
  have hsplit := @List.range'_append_1 0 (X.length - 3) ((X ++ d).length - 3 - (X.length - 3))
  rw [Nat.zero_add, Nat.add_sub_cancel' hlen] at hsplit
  have hall : headEnd (X ++ d)
      = (List.range' 0 ((X ++ d).length - 3)).find? (blankAt (mem m (X ++ d))) := by
    have := find_blank (m := Block.zero) (e := m) (X := X ++ d) (d := []) _ (Nat.le_refl _)
    rw [List.append_nil] at this
    exact this
  rw [hall, ← hsplit, List.find?_append, find_blank (e := Block.zero) _ (Nat.le_refl _)]
  rw [show (List.range' 0 (X.length - 3)).find? (blankAt (mem Block.zero X)) = none from h]
  rfl

theorem headEnd_append (h : headEnd X = some i) : headEnd (X ++ d) = some i := by
  unfold headEnd at h ⊢
  obtain ⟨hb, hmem, hfirst⟩ := List.find?_range'_eq_some.mp h
  have hi := (List.mem_range'_1.mp hmem).2
  have hsame : ∀ j ≤ i, blankAt (mem Block.zero (X ++ d)) j = blankAt (mem Block.zero X) j :=
    fun j hj => blankAt_congr fun k hk => mem_prefix (by omega)
  refine List.find?_range'_eq_some.mpr ⟨by rw [hsame i (Nat.le_refl _)]; exact hb,
    List.mem_range'_1.mpr ⟨Nat.zero_le _, by rw [List.length_append]; omega⟩, fun j hj hji => ?_⟩
  rw [hsame j (by omega)]
  exact hfirst j hj hji

theorem headEnd_lt (h : headEnd X = some i) : i + 4 ≤ X.length := by
  have := (List.mem_range'_1.mp (List.find?_range'_eq_some.mp h).2.1).2
  omega

/-- What a header line does not set. -/
structure Framed (s s' : Resp) : Prop where
  buf : s'.buf = s.buf
  len : s'.len = s.len
  truncated : s'.truncated = s.truncated
  hdr_done : s'.hdr_done = s.hdr_done
  body_start : s'.body_start = s.body_start
  complete : s'.complete = s.complete
  finished : s'.finished = s.finished

theorem headerLine_framed (s : Resp) (line : List UInt8) : Framed s (headerLine s line) := by
  unfold headerLine
  split
  · exact ⟨rfl, rfl, rfl, rfl, rfl, rfl, rfl⟩
  split
  · exact ⟨rfl, rfl, rfl, rfl, rfl, rfl, rfl⟩
  split
  · exact ⟨rfl, rfl, rfl, rfl, rfl, rfl, rfl⟩
  split
  · exact ⟨rfl, rfl, rfl, rfl, rfl, rfl, rfl⟩
  split <;> exact ⟨rfl, rfl, rfl, rfl, rfl, rfl, rfl⟩

theorem parseHeaders_framed (head : List UInt8) (s : Resp) : Framed s (parseHeaders head s) := by
  have hfold : ∀ (ls : List (List UInt8)) (t : Resp), Framed t (ls.foldl headerLine t) := by
    intro ls
    induction ls with
    | nil => exact fun t => ⟨rfl, rfl, rfl, rfl, rfl, rfl, rfl⟩
    | cons l ls ih =>
      intro t
      have h₁ := headerLine_framed t l
      have h₂ := ih (headerLine t l)
      exact ⟨h₂.buf.trans h₁.buf, h₂.len.trans h₁.len, h₂.truncated.trans h₁.truncated,
        h₂.hdr_done.trans h₁.hdr_done, h₂.body_start.trans h₁.body_start,
        h₂.complete.trans h₁.complete, h₂.finished.trans h₁.finished⟩
  have h := hfold (lines ((((head.dropWhile fun c => c ≠ ' '.toUInt8 ∧ c ≠ '\n'.toUInt8).dropWhile
    fun c => c = ' '.toUInt8).dropWhile fun c => c ≠ '\n'.toUInt8).drop 1))
  exact ⟨(h _).buf, (h _).len, (h _).truncated, (h _).hdr_done, (h _).body_start, (h _).complete,
    (h _).finished⟩

/-- The headers are read the same wherever they are, and whatever is behind them. -/
theorem parseHeaders_moved (head : List UInt8) (s : Resp) (b : Block) (n : Nat) :
    parseHeaders head { s with buf := b, len := n }
      = { parseHeaders head s with buf := b, len := n } := by
  have hline : ∀ (t : Resp) (l : List UInt8), headerLine { t with buf := b, len := n } l
      = { headerLine t l with buf := b, len := n } := by
    intro t l
    unfold headerLine
    dsimp only
    repeat' split
    all_goals rfl
  have hfold : ∀ (ls : List (List UInt8)) (t : Resp),
      ls.foldl headerLine { t with buf := b, len := n }
        = { ls.foldl headerLine t with buf := b, len := n } :=
    fun ls t => @List.foldl_hom _ _ _ (fun t : Resp => { t with buf := b, len := n }) _ _ ls t hline
  exact hfold _ { s with status := _ }

theorem headersEnd_moved {k : Nat} {s : Resp} {b : Block} {n : Nat}
    (h : b.slice 0 k = s.buf.slice 0 k) : headersEnd k { s with buf := b, len := n }
      = { headersEnd k s with buf := b, len := n } := by
  unfold headersEnd
  dsimp only
  rw [h, parseHeaders_moved _ { s with hdr_done := true, body_start := k }]
  dsimp only
  split <;> rfl

theorem seen_append (h : headEnd X = some i) : seen m (X ++ d)
    = { seen e X with buf := mem m (X ++ d), len := (X ++ d).length } := by
  unfold seen
  rw [h, headEnd_append h]
  have hslice : (mem m (X ++ d)).slice 0 (i + 4) = (mem e X).slice 0 (i + 4) :=
    Block.slice_congr fun k hk => by
      rw [Nat.zero_add]
      exact mem_prefix (by have := headEnd_lt h; omega)
  exact headersEnd_moved (s := { reset e with buf := mem e X, len := X.length }) hslice

theorem headersEnd_framed (k : Nat) (s : Resp) :
    Framed { s with hdr_done := true, body_start := k } (headersEnd k s)
      ∧ (headersEnd k s).chunk_pos = k := by
  have h := parseHeaders_framed (s.buf.slice 0 k) { s with hdr_done := true, body_start := k }
  unfold headersEnd
  dsimp only
  split <;> exact ⟨⟨h.buf, h.len, h.truncated, h.hdr_done, h.body_start, h.complete, h.finished⟩, rfl⟩

end

/-! ## How far the response has come -/

/-- **The end of the response as far as the bytes tell**: `r` is what the headers say, `c` whether
the response is known to be complete and `p` where the walk stands. -/
structure Settled (r : Resp) (c : Bool) (p : Nat) : Prop where
  bodyless : noBody r.status = true → c = true
  walked : noBody r.status = false → r.chunked = true →
    Leads (nextChunk r.buf r.len) r.chunk_pos p ∧ nextChunk r.buf r.len p = none
      ∧ c = decide (lineAt r.buf r.len p = .last)
  sized : noBody r.status = false → r.chunked = false →
    c = decide (r.have_clen ∧ r.len - r.body_start ≥ r.clen.toNat)

section
variable {r s s' : Resp} {c c' : Bool} {p p' fuel n : Nat} {b : Block}

theorem Settled.unique (h : Settled r c p) (h' : Settled r c' p') : c = c' := by
  cases hb : noBody r.status with
  | true => rw [h.bodyless hb, h'.bodyless hb]
  | false =>
    cases hc : r.chunked with
    | false => rw [h.sized hb hc, h'.sized hb hc]
    | true =>
      obtain ⟨hp, hend, hcp⟩ := h.walked hb hc
      obtain ⟨hp', hend', hcp'⟩ := h'.walked hb hc
      rw [hcp, hcp', hp.final_unique hp' hend hend']

/-- More bytes do not change that the response is complete. -/
theorem Settled.extend (h : Settled r true p) (hle : r.len ≤ n) (hb : ∀ i < r.len, b i = r.buf i) :
    Settled { r with buf := b, len := n } true p where
  bodyless _ := rfl
  walked hno hc := by
    obtain ⟨hp, -, hlast⟩ := h.walked hno hc
    have hlast' : lineAt b n p = .last :=
      lineAt_mono hle (fun i _ hi => hb i hi) (of_decide_eq_true hlast.symm) (by simp)
    exact ⟨hp.mono (nextChunk_mono hle hb), nextChunk_of_last hlast', (decide_eq_true hlast').symm⟩
  sized hno hc := by
    obtain ⟨hhave, hge⟩ := of_decide_eq_true (h.sized hno hc).symm
    exact (decide_eq_true ⟨hhave, by show r.clen.toNat ≤ n - r.body_start; omega⟩).symm

/-- More bytes, and the walk has gone its way already. -/
theorem Settled.leads (h : Settled r false p) (hle : r.len ≤ n) (hb : ∀ i < r.len, b i = r.buf i)
    (hc : r.chunked = true) : Leads (nextChunk b n) r.chunk_pos p := by
  refine (h.walked ?_ hc).1.mono (nextChunk_mono hle hb)
  cases hno : noBody r.status with
  | false => rfl
  | true => exact absurd (h.bodyless hno) Bool.false_ne_true

/-- **The end of a call of `hr_feed`.** -/
theorem settle_some (hdone : r.hdr_done = true) (hfin : c = true → Settled r true p)
    (hway : c = false → r.chunked = true → Leads (nextChunk r.buf r.len) r.chunk_pos p)
    (h : settle fuel { r with complete := c, chunk_pos := p } = some s') :
    ∃ c' p', s' = { r with complete := c', chunk_pos := p' } ∧ Settled r c' p' := by
  unfold settle at h
  dsimp only at h
  cases c with
  | true =>
    rw [if_neg (by simp)] at h
    obtain rfl := Option.some.inj h
    exact ⟨true, p, rfl, hfin rfl⟩
  | false =>
    rw [if_pos ⟨hdone, by simp⟩] at h
    obtain ⟨t, ht, rfl⟩ := Option.map_eq_some_iff.mp h
    -- the walk, or the length, and after it the answers that have no body
    have hwalk : ∃ c' p', t = { r with complete := c', chunk_pos := p' }
        ∧ (r.chunked = true → Leads (nextChunk r.buf r.len) r.chunk_pos p'
          ∧ nextChunk r.buf r.len p' = none ∧ c' = decide (lineAt r.buf r.len p' = .last))
        ∧ (r.chunked = false →
          c' = decide (r.have_clen ∧ r.len - r.body_start ≥ r.clen.toNat)) := by
      by_cases hc : r.chunked = true
      · rw [if_pos hc] at ht
        obtain ⟨q, hq, hend, rfl⟩ := walkChunks_some ht
        refine ⟨decide (lineAt r.buf r.len q = .last), q, by rw [Bool.false_or], fun _ => ?_,
          fun hf => absurd (hf.symm.trans hc) Bool.false_ne_true⟩
        exact ⟨(hway rfl hc).trans hq, hend, rfl⟩
      · rw [if_neg hc] at ht
        split at ht
        · next hge =>
          obtain rfl := Option.some.inj ht
          exact ⟨true, p, rfl, fun hf => absurd hf hc, fun _ => (decide_eq_true hge).symm⟩
        · next hlt =>
          obtain rfl := Option.some.inj ht
          exact ⟨false, p, rfl, fun hf => absurd hf hc, fun _ => (decide_eq_false hlt).symm⟩
    obtain ⟨c', p', rfl, hw, hsz⟩ := hwalk
    by_cases hno : noBody r.status = true
    · exact ⟨true, p', if_pos hno, fun _ => rfl,
        fun hf => absurd (hf.symm.trans hno) Bool.false_ne_true,
        fun hf => absurd (hf.symm.trans hno) Bool.false_ne_true⟩
    · exact ⟨c', p', if_neg hno, fun hf => absurd hf hno, fun _ => hw, fun _ => hsz⟩

/-- It returns if the walk ends. -/
theorem exists_settle (hway : c = false → r.chunked = true → Halts (nextChunk r.buf r.len) p) :
    ∃ fuel s', settle fuel { r with complete := c, chunk_pos := p } = some s' := by
  unfold settle
  dsimp only
  by_cases hgo : r.hdr_done = true ∧ ¬ c = true
  · by_cases hc : r.chunked = true
    · obtain ⟨fuel, t, ht⟩ := exists_walkChunks (hway (by simpa using hgo.2) hc)
        { r with complete := c, chunk_pos := p } rfl rfl rfl
      exact ⟨fuel, _, by rw [if_pos hgo, if_pos hc, ht]; rfl⟩
    · refine ⟨0, ?_⟩
      rw [if_pos hgo, if_neg hc]
      split <;> exact ⟨_, rfl⟩
  · exact ⟨0, _, if_neg hgo⟩

end

/-! ## Runs -/

/-- **The calls of `hr_feed`** on these pieces, one after the other, return and leave `s`. -/
inductive Fed (m : Block) : List (List UInt8) → Resp → Prop where
  | start : Fed m [] (reset m)
  | call {cuts : List (List UInt8)} {s s' : Resp} {fuel : Nat} {d : List UInt8}
      (h : Fed m cuts s) (hf : feed fuel d s = some s') : Fed m (cuts ++ [d]) s'

/-- The response when these bytes have arrived. -/
def Stands (m : Block) (X : List UInt8) (s : Resp) : Prop :=
  ∃ c p, s = { seen m X with complete := c, chunk_pos := p }
    ∧ if headEnd X = none then c = false ∧ p = 0 else Settled (seen m X) c p

section
variable {m : Block} {X d : List UInt8} {s s' : Resp} {fuel i : Nat}

theorem seen_spec (m : Block) (X : List UInt8) : (seen m X).buf = mem m X
    ∧ (seen m X).len = X.length ∧ (seen m X).truncated = false
    ∧ (seen m X).complete = false ∧ (seen m X).finished = false
    ∧ (seen m X).hdr_done = (headEnd X).isSome := by
  unfold seen
  cases headEnd X with
  | none => exact ⟨rfl, rfl, rfl, rfl, rfl, rfl⟩
  | some i =>
    have h := (headersEnd_framed (i + 4) { reset m with buf := mem m X, len := X.length }).1
    exact ⟨h.buf, h.len, h.truncated, h.complete, h.finished, h.hdr_done⟩

theorem seen_start (h : headEnd X = some i) :
    (seen m X).body_start = i + 4 ∧ (seen m X).chunk_pos = i + 4 := by
  unfold seen
  rw [h]
  have hf := headersEnd_framed (i + 4) { reset m with buf := mem m X, len := X.length }
  exact ⟨hf.1.body_start, hf.2⟩

theorem store_eq (h : s.len + d.length ≤ bufSize) :
    store d s = { s with buf := s.buf.put s.len d, len := s.len + d.length } := by
  unfold store
  dsimp only
  rw [Nat.min_eq_left (by omega), List.take_length, decide_eq_false (Nat.lt_irrefl _),
    Bool.or_false]

/-- As long as the headers have not ended, all that counts are the bytes. -/
theorem lookForEnd_seen (hX : headEnd X = none) (hfit : (X ++ d).length ≤ bufSize) :
    lookForEnd X.length (store d (seen m X)) = seen m (X ++ d) := by
  have hseen : ∀ {Y}, headEnd Y = none →
      seen m Y = { reset m with buf := mem m Y, len := Y.length } := by
    intro Y hY
    unfold seen
    rw [hY]
  rw [hseen hX, store_eq (by rw [List.length_append] at hfit; exact hfit)]
  dsimp only
  rw [mem_append, ← List.length_append]
  unfold Hr.lookForEnd
  rw [if_neg (by show ¬ false = true; decide)]
  dsimp only
  rw [resume hX]
  rfl

/-- **A call of `hr_feed` up to the search for the end of the headers.** -/
theorem Stands.lookForEnd (h : Stands m X s) (hfit : (X ++ d).length ≤ bufSize) :
    ∃ c p, lookForEnd s.len (store d s) = { seen m (X ++ d) with complete := c, chunk_pos := p }
      ∧ (headEnd (X ++ d) = none → c = false ∧ p = 0)
      ∧ (c = true → Settled (seen m (X ++ d)) true p)
      ∧ (c = false → (seen m (X ++ d)).chunked = true →
        Leads (nextChunk (seen m (X ++ d)).buf (seen m (X ++ d)).len)
          (seen m (X ++ d)).chunk_pos p) := by
  obtain ⟨c, p, rfl, hs⟩ := h
  obtain ⟨hbuf, hlen, -, -, -, hdone⟩ := seen_spec m X
  rw [List.length_append] at hfit
  have hstore : store d { seen m X with complete := c, chunk_pos := p }
      = { seen m X with
          buf := mem m (X ++ d), len := (X ++ d).length, complete := c, chunk_pos := p } := by
    rw [store_eq (by show (seen m X).len + d.length ≤ bufSize; omega)]
    dsimp only
    rw [hbuf, hlen, mem_append, List.length_append]
  cases hX : headEnd X with
  | some i =>
    rw [hX, if_neg (by simp)] at hs
    have happ := seen_append (m := m) (e := m) (d := d) hX
    have hle : (seen m X).len ≤ (X ++ d).length := by rw [hlen, List.length_append]; omega
    have hsame : ∀ k < (seen m X).len, mem m (X ++ d) k = (seen m X).buf k := fun k hk => by
      rw [hbuf]
      exact mem_prefix (by omega)
    refine ⟨c, p, ?_, fun hn => ?_, fun hc => ?_, fun hc hch => ?_⟩
    · rw [hstore, happ]
      exact if_pos (by show (seen m X).hdr_done = true; rw [hdone, hX]; rfl)
    · rw [headEnd_append hX] at hn
      exact nomatch hn
    · subst hc
      rw [happ]
      exact hs.extend hle hsame
    · subst hc
      rw [happ] at hch ⊢
      exact hs.leads hle hsame hch
  | none =>
    rw [hX, if_pos rfl] at hs
    obtain ⟨rfl, rfl⟩ := hs
    have hsame : { seen m X with complete := false, chunk_pos := 0 } = seen m X := by
      unfold seen
      rw [hX]
      rfl
    refine ⟨false, (seen m (X ++ d)).chunk_pos, ?_, fun hn => ?_, (fun hc => nomatch hc),
      fun _ _ => .refl⟩
    · rw [hsame]
      show Hr.lookForEnd (seen m X).len _ = _
      rw [hlen, lookForEnd_seen hX (by rw [List.length_append]; exact hfit)]
      have hc := (seen_spec m (X ++ d)).2.2.2.1
      generalize seen m (X ++ d) = r at hc ⊢
      cases r
      subst hc
      rfl
    · refine ⟨rfl, ?_⟩
      unfold seen
      rw [hn]
      rfl

theorem Stands.feed (h : Stands m X s) (hfit : (X ++ d).length ≤ bufSize)
    (hf : feed fuel d s = some s') : Stands m (X ++ d) s' := by
  obtain ⟨c, p, heq, hnone, hfin, hway⟩ := h.lookForEnd hfit
  unfold Hr.feed at hf
  rw [heq] at hf
  have hdone := (seen_spec m (X ++ d)).2.2.2.2.2
  cases hY : headEnd (X ++ d) with
  | none =>
    rw [hY] at hdone
    unfold settle at hf
    rw [if_neg fun hc => absurd (hdone.symm.trans hc.1) (by decide)] at hf
    obtain rfl := Option.some.inj hf
    exact ⟨c, p, rfl, by rw [if_pos hY]; exact hnone hY⟩
  | some i =>
    rw [hY] at hdone
    obtain ⟨c', p', rfl, hs⟩ := settle_some hdone hfin hway hf
    exact ⟨c', p', rfl, by rw [if_neg (by rw [hY]; simp)]; exact hs⟩

/-- **The pieces do not matter.** -/
theorem Fed.stands {cuts : List (List UInt8)} (h : Fed m cuts s)
    (hfit : cuts.flatten.length ≤ bufSize) : Stands m cuts.flatten s := by
  induction h with
  | start => exact ⟨false, 0, rfl, (if_pos (show headEnd [] = none from rfl)).mpr ⟨rfl, rfl⟩⟩
  | @call cuts s s' fuel d _ hf ih =>
    rw [List.flatten_append, List.flatten_singleton] at hfit ⊢
    exact (ih (by rw [List.length_append] at hfit; omega)).feed hfit hf

end

/-! ## `hr_finish` -/

/-- What a response comes to. -/
structure Result where
  status : Int32
  chunked : Bool
  encoded : Bool
  clen : UInt32
  complete : Bool
  body_start : Nat
  body_len : Nat
  location : List UInt8
  content_type : List UInt8
  /-- The bytes of the body, unwrapped. -/
  body : List UInt8
  deriving DecidableEq

def Resp.result (s : Resp) : Result where
  status := s.status
  chunked := s.chunked
  encoded := s.encoded
  clen := s.clen
  complete := s.complete
  body_start := s.body_start
  body_len := s.body_len
  location := s.location
  content_type := s.content_type
  body := s.buf.slice s.body_start s.body_len

/-- **The unwrapping ends, and stays in the buffer.** -/
inductive Unwraps (len : Nat) : Nat → Nat → Block → Prop where
  | «over» {r w : Nat} {buf : Block} (h : len ≤ r) : Unwraps len r w buf
  | cut {r w : Nat} {buf : Block} (h : lineAt buf len r = .cut) : Unwraps len r w buf
  | last {r w : Nat} {buf : Block} (h : lineAt buf len r = .last) : Unwraps len r w buf
  | chunk {r w data size : Nat} {buf : Block} (hl : lineAt buf len r = .chunk data size)
      (hfit : w + min size (len - data) ≤ bufSize)
      (h : Unwraps len ((data + size + 2) % 2 ^ 32) (w + min size (len - data))
        (buf.copied w data (min size (len - data)))) : Unwraps len r w buf

section
variable {len r w fuel : Nat} {buf buf' : Block}

theorem exists_unwrap (h : Unwraps len r w buf) : ∃ fuel x, unwrap len fuel r w buf = some x := by
  induction h with
  | «over» h => exact ⟨1, _, by unfold unwrap; exact if_neg (by omega)⟩
  | @cut r w buf h =>
    refine ⟨1, (w, buf), ?_⟩
    unfold unwrap
    rw [h]
    split <;> rfl
  | @last r w buf h =>
    refine ⟨1, (w, buf), ?_⟩
    unfold unwrap
    rw [h]
    split <;> rfl
  | @chunk r w data size buf hl hfit _ ih =>
    obtain ⟨fuel, x, hx⟩ := ih
    by_cases hr : r < len
    · refine ⟨fuel + 1, x, ?_⟩
      unfold unwrap
      rw [if_pos hr, hl]
      dsimp only
      rw [if_neg (by omega)]
      exact hx
    · exact ⟨1, _, by unfold unwrap; exact if_neg hr⟩

theorem unwraps_of_some : ∀ {fuel r w : Nat} {buf : Block} {x : Nat × Block},
    unwrap len fuel r w buf = some x → Unwraps len r w buf
  | 0, _, _, _, _, h => nomatch h
  | fuel + 1, r, w, buf, x, h => by
    unfold unwrap at h
    by_cases hr : r < len
    · rw [if_pos hr] at h
      cases hl : lineAt buf len r with
      | cut => exact .cut hl
      | last => exact .last hl
      | chunk data size =>
        rw [hl] at h
        dsimp only at h
        split at h
        · exact nomatch h
        next hfit => exact .chunk hl (by omega) (unwraps_of_some h)
    · exact .«over» (by omega)

/-- Only the bytes that have arrived decide it. -/
theorem Unwraps.congr (h : Unwraps len r w buf) : ∀ {buf' : Block},
    (∀ i < len, buf' i = buf i) → Unwraps len r w buf' := by
  induction h with
  | «over» h => exact fun _ => .«over» h
  | cut h => exact fun hb => .cut ((lineAt_congr fun i _ hi => hb i hi).trans h)
  | last h => exact fun hb => .last ((lineAt_congr fun i _ hi => hb i hi).trans h)
  | chunk hl hfit _ ih =>
    intro buf' hb
    have := data_le hl
    exact .chunk ((lineAt_congr fun i _ hi => hb i hi).trans hl) hfit
      (ih (Block.copied_congr hb (by omega)))

/-- What is known about the end of the response does not matter to `hr_finish`. -/
theorem finish_settled (fuel : Nat) (s : Resp) (c : Bool) (p : Nat) :
    finish fuel { s with complete := c, chunk_pos := p }
      = (finish fuel s).map fun t => { t with complete := c, chunk_pos := p } := by
  unfold finish
  dsimp only
  split
  · rfl
  split
  · rfl
  split
  · cases unwrap s.len fuel s.body_start s.body_start s.buf <;> rfl
  · rfl

end

/-! ## Any pieces -/

/-- **The chunks of a body come to an end**: so does the walk from one chunk-size line to the next,
and the unwrapping, which stays in the buffer. -/
structure ChunksEnd (B : List UInt8) (start : Nat) : Prop where
  walk : Halts (nextChunk (mem Block.zero B) B.length) start
  unwrap : Unwraps B.length start start (mem Block.zero B)

/-- Where the body of these bytes is chunked, its chunks come to an end. -/
def Ends (B : List UInt8) : Prop :=
  ∀ i, headEnd B = some i → (seen Block.zero B).chunked = true → ChunksEnd B (i + 4)

/-- These calls of `hr_feed`, and `hr_finish` behind them, return and leave this. -/
def Assembles (m : Block) (cuts : List (List UInt8)) (out : Result) : Prop :=
  ∃ s s' fuel, Fed m cuts s ∧ finish fuel s = some s' ∧ s'.result = out

/-- **However these bytes are cut, the same comes of them.** -/
def CutFree (m : Block) (B : List UInt8) : Prop :=
  ∃ out, ∀ cuts : List (List UInt8), cuts.flatten = B → Assembles m cuts out

section
variable {m : Block} {B X Y : List UInt8} {s s' : Resp} {fuel i : Nat}

theorem seen_chunked (h : headEnd X = some i) :
    (seen m X).chunked = (seen Block.zero (X ++ Y)).chunked := by
  rw [seen_append (m := Block.zero) (e := m) h]

/-- The walk over a part of the bytes ends if the walk over all of them does. -/
theorem Ends.prefix (h : Ends (X ++ Y)) (hX : headEnd X = some i)
    (hc : (seen m X).chunked = true) : Halts (nextChunk (mem m X) X.length) (i + 4) := by
  rw [seen_chunked (Y := Y) hX] at hc
  refine halts_mono (nextChunk_mono ?_ fun k hk => ?_) (h i (headEnd_append hX) hc).walk
  · rw [List.length_append]
    omega
  · exact mem_prefix hk

/-- **The calls return.** -/
theorem exists_fed (h : Ends B) (hB : B.length ≤ bufSize) (cuts : List (List UInt8)) :
    ∀ rest, cuts.flatten ++ rest = B → ∃ s, Fed m cuts s := by
  induction cuts using List.reverseRecOn with
  | nil => exact fun _ _ => ⟨_, .start⟩
  | append_singleton cuts d ih =>
    intro rest hrest
    rw [List.flatten_append, List.flatten_singleton] at hrest
    obtain ⟨s, hs⟩ := ih (d ++ rest) (by rw [← List.append_assoc]; exact hrest)
    have hlen := congrArg List.length hrest
    rw [List.length_append, List.length_append] at hlen
    have hfit : (cuts.flatten ++ d).length ≤ bufSize := by rw [List.length_append]; omega
    obtain ⟨c, p, heq, -, -, hway⟩ := (hs.stands (by omega)).lookForEnd hfit
    obtain ⟨hbuf, hlen', -, -, -, hdone⟩ := seen_spec m (cuts.flatten ++ d)
    obtain ⟨fuel, s', hset⟩ : ∃ fuel s', settle fuel (lookForEnd s.len (store d s)) = some s' := by
      rw [heq]
      cases hY : headEnd (cuts.flatten ++ d) with
      | none =>
        rw [hY] at hdone
        unfold settle
        exact ⟨0, _, if_neg fun hc => absurd (hdone.symm.trans hc.1) (by decide)⟩
      | some i =>
        refine exists_settle fun hc hch => (hway hc hch).halts.mp ?_
        rw [hbuf, hlen', (seen_start hY).2]
        exact Ends.prefix (by rw [hrest]; exact h) hY hch
    exact ⟨s', .call hs hset⟩

theorem exists_finish (h : Ends B) : ∃ fuel t, finish fuel (seen m B) = some t := by
  obtain ⟨hbuf, hlen, -, -, hfin, hdone⟩ := seen_spec m B
  unfold finish
  rw [hfin, hdone]
  cases hB : headEnd B with
  | none => exact ⟨0, _, rfl⟩
  | some i =>
    by_cases hc : (seen m B).chunked = true
    · rw [seen_chunked (Y := []) hB, List.append_nil] at hc
      have hun : Unwraps B.length (i + 4) (i + 4) (mem m B) := (h i hB hc).unwrap.congr fun k hk => by
        rw [mem_apply hk, mem_apply hk]
      obtain ⟨fuel, x, hx⟩ := exists_unwrap hun
      rw [seen_chunked (m := Block.zero) (Y := []) hB, List.append_nil,
        ← List.append_nil B, ← seen_chunked (m := m) hB] at hc
      refine ⟨fuel, ?_⟩
      rw [if_neg (by decide), if_neg (by simp), if_pos hc, (seen_start hB).1, hlen, hbuf, hx]
      exact ⟨_, rfl⟩
    · exact ⟨0, _, by rw [if_neg (by decide), if_neg (by simp), if_neg hc]⟩

theorem Stands.complete_unique (h : Stands m B s) (h' : Stands m B s') :
    s.complete = s'.complete := by
  obtain ⟨c, p, rfl, hs⟩ := h
  obtain ⟨c', p', rfl, hs'⟩ := h'
  by_cases hB : headEnd B = none
  · rw [if_pos hB] at hs hs'
    exact hs.1.trans hs'.1.symm
  · rw [if_neg hB] at hs hs'
    exact hs.unique hs'

/-- **Where the chunks end, the pieces do not matter.** -/
theorem cutFree_of_ends (hB : B.length ≤ bufSize) (h : Ends B) : CutFree m B := by
  obtain ⟨fuel, t, ht⟩ := exists_finish (m := m) h
  obtain ⟨s₁, hs₁⟩ := exists_fed (m := m) h hB [B] [] (by simp)
  have hst₁ : Stands m B s₁ := by
    have := hs₁.stands (by simpa using hB)
    rw [List.flatten_singleton] at this
    exact this
  refine ⟨{ t with complete := s₁.complete }.result, fun cuts hcuts => ?_⟩
  obtain ⟨s, hs⟩ := exists_fed (m := m) h hB cuts [] (by rw [List.append_nil]; exact hcuts)
  have hst : Stands m B s := hcuts ▸ hs.stands (by rw [hcuts]; exact hB)
  have hcomplete := hst.complete_unique hst₁
  obtain ⟨c, p, rfl, -⟩ := hst
  refine ⟨_, _, fuel, hs, by rw [finish_settled, ht]; rfl, ?_⟩
  rw [← hcomplete]
  rfl

/-- The call that takes all bytes at once returns only if the walk ends. -/
theorem halts_of_feed (hB : B.length ≤ bufSize) (hf : feed fuel B (reset m) = some s)
    (hi : headEnd B = some i) (hc : (seen m B).chunked = true) :
    Halts (nextChunk (mem m B) B.length) (i + 4) := by
  have hseen : lookForEnd 0 (store B (reset m)) = seen m B :=
    lookForEnd_seen (m := m) (X := []) (d := B) rfl hB
  obtain ⟨hbuf, hlen, -, hcomplete, -, hdone⟩ := seen_spec m B
  unfold feed at hf
  rw [show (reset m).len = 0 from rfl, hseen] at hf
  unfold settle at hf
  rw [if_pos ⟨by rw [hdone, hi]; rfl, by rw [hcomplete]; decide⟩] at hf
  obtain ⟨t, ht, -⟩ := Option.map_eq_some_iff.mp hf
  rw [if_pos hc] at ht
  obtain ⟨p, hp, hend, -⟩ := walkChunks_some ht
  rw [hbuf, hlen, (seen_start hi).2] at hp
  rw [hbuf, hlen] at hend
  exact hp.halts_of_none hend

theorem feed_of_fed (h : Fed m [B] s) : ∃ fuel, feed fuel B (reset m) = some s := by
  generalize hcuts : [B] = cuts at h
  cases h with
  | start => exact nomatch hcuts
  | @call cuts t _ fuel d ht hf =>
    cases cuts with
    | nil =>
      obtain rfl := List.head_eq_of_cons_eq hcuts
      generalize hnil : ([] : List (List UInt8)) = l at ht
      cases ht with
      | start => exact ⟨fuel, hf⟩
      | @call cuts _ _ _ _ _ _ => exact absurd hnil.symm (List.append_ne_nil_of_right_ne_nil _ (by simp))
    | cons x cuts =>
      exact absurd (List.tail_eq_of_cons_eq hcuts).symm
        (List.append_ne_nil_of_right_ne_nil _ (by simp))

/-- **Where the pieces do not matter, the chunks end.** -/
theorem ends_of_cutFree (hB : B.length ≤ bufSize) (h : CutFree m B) : Ends B := by
  obtain ⟨out, hall⟩ := h
  obtain ⟨s, s', fuel, hs, hfin, -⟩ := hall [B] (by simp)
  intro i hi hc
  rw [← List.append_nil B, ← seen_chunked (m := m) hi] at hc
  obtain ⟨fuel₁, hf⟩ := feed_of_fed hs
  have hsame : ∀ k < B.length, mem Block.zero B k = mem m B k := fun k hk => by
    rw [mem_apply hk, mem_apply hk]
  refine ⟨halts_mono (nextChunk_mono (Nat.le_refl _) fun k hk => (hsame k hk).symm)
    (halts_of_feed hB hf hi hc), ?_⟩
  have hst : Stands m B s := by
    have := hs.stands (by simpa using hB)
    rw [List.flatten_singleton] at this
    exact this
  obtain ⟨c, p, rfl, -⟩ := hst
  obtain ⟨hbuf, hlen, -, -, hnot, hdone⟩ := seen_spec m B
  rw [finish_settled] at hfin
  obtain ⟨t, ht, -⟩ := Option.map_eq_some_iff.mp hfin
  unfold finish at ht
  rw [hnot, hdone, hi, if_neg (by decide), if_neg (by simp), if_pos hc, (seen_start hi).1, hbuf,
    hlen] at ht
  obtain ⟨x, hx, -⟩ := Option.map_eq_some_iff.mp ht
  exact (unwraps_of_some hx).congr hsame

/-- No size on the walk from `start` carries the position past 32 bits. -/
def Plain (B : List UInt8) (start : Nat) : Prop :=
  ∀ p, Leads (nextChunk (mem Block.zero B) B.length) start p →
    ∀ data size, lineAt (mem Block.zero B) B.length p = .chunk data size →
      data + size + 2 < 2 ^ 32

theorem Plain.halts {start : Nat} (h : Plain B start) :
    ∀ n p, B.length - p ≤ n → Leads (nextChunk (mem Block.zero B) B.length) start p →
      Halts (nextChunk (mem Block.zero B) B.length) p
  | n, p, hn, hp => ⟨p, fun q hq => by
    obtain ⟨data, size, hl, rfl, hle⟩ := nextChunk_eq_some.mp hq
    have hsmall := h p hp data size hl
    have hdata := data_le hl
    have htail := hp.tail hq
    rw [Nat.mod_eq_of_lt hsmall] at hle htail ⊢
    cases n with
    | zero => omega
    | succ n => exact h.halts n _ (by omega) htail⟩

/-- **The write cursor never overtakes the read cursor**, so the unwrapping reads what has
arrived. -/
theorem Plain.unwraps {start : Nat} (h : Plain B start) (hB : B.length ≤ bufSize) :
    ∀ n r w (buf : Block), B.length - r ≤ n →
      Leads (nextChunk (mem Block.zero B) B.length) start r → w ≤ r →
      (∀ i, r ≤ i → i < B.length → buf i = mem Block.zero B i) → Unwraps B.length r w buf
  | n, r, w, buf, hn, hr, hw, hbuf => by
    by_cases hover : B.length ≤ r
    · exact .«over» hover
    have hsame := lineAt_congr hbuf
    cases hl : lineAt (mem Block.zero B) B.length r with
    | cut => exact .cut (hsame.trans hl)
    | last => exact .last (hsame.trans hl)
    | chunk data size =>
      have hsmall := h r hr data size hl
      have hdata := data_le hl
      obtain ⟨take, htake⟩ : ∃ take, min size (B.length - data) = take := ⟨_, rfl⟩
      refine .chunk (hsame.trans hl) (by omega) ?_
      rw [Nat.mod_eq_of_lt hsmall, htake]
      by_cases hend : B.length ≤ data + size + 2
      · exact .«over» hend
      cases n with
      | zero => omega
      | succ n =>
        refine h.unwraps hB n _ _ _ (by omega) (hr.tail ?_) (by omega) fun i hi hilt => ?_
        · exact nextChunk_eq_some.mpr ⟨data, size, hl, (Nat.mod_eq_of_lt hsmall).symm, by omega⟩
        · rw [buf.copied_of_outside (by omega)]
          exact hbuf i (by omega) hilt

/-- **Sizes that do not carry are enough.** -/
theorem Plain.chunksEnd {start : Nat} (h : Plain B start) (hB : B.length ≤ bufSize) :
    ChunksEnd B start where
  walk := h.halts _ _ (Nat.le_refl _) .refl
  unwrap := h.unwraps hB _ _ _ _ (Nat.le_refl _) .refl (Nat.le_refl _) fun _ _ _ => rfl

end

/-- A page of three bytes in one chunk. -/
def firstPage : List UInt8 :=
  bytes "HTTP/1.1 200 OK\r\nTransfer-Encoding: chunked\r\n\r\n3\r\nabc\r\n0\r\n\r\n"

theorem firstPage_ends : Ends firstPage := by
  intro i hi _
  have hstart : headEnd firstPage = some 43 := by decide +kernel
  obtain rfl := Option.some.inj (hstart.symm.trans hi)
  have hwalk : (walkChunks 3 (seen Block.zero firstPage)).isSome = true := by decide +kernel
  have hunwrap : (unwrap firstPage.length 3 47 47 (mem Block.zero firstPage)).isSome = true := by
    decide +kernel
  obtain ⟨s, hs⟩ := Option.isSome_iff_exists.mp hwalk
  obtain ⟨x, hx⟩ := Option.isSome_iff_exists.mp hunwrap
  obtain ⟨p, hp, hend, -⟩ := walkChunks_some hs
  obtain ⟨hbuf, hlen, -⟩ := seen_spec Block.zero firstPage
  rw [hbuf, hlen, (seen_start hstart).2] at hp
  rw [hbuf, hlen] at hend
  exact ⟨hp.halts_of_none hend, unwraps_of_some hx⟩

theorem walkChunks_loop {s : Resp} (h : nextChunk s.buf s.len s.chunk_pos = some s.chunk_pos) :
    ∀ fuel, walkChunks fuel s = none
  | 0 => rfl
  | fuel + 1 => by
    obtain ⟨data, size, hl, hp, hle⟩ := nextChunk_eq_some.mp h
    unfold walkChunks
    rw [hl]
    dsimp only
    rw [← hp, if_neg (by omega)]
    exact walkChunks_loop h fuel

/-- The headers of an answer that has no body. -/
def loopHead : List UInt8 := bytes "HTTP/1.1 204 x\r\nTransfer-Encoding: chunked\r\n\r\n"

/-- A chunk of `2 ^ 32 - 12` bytes, and a last one. -/
def loopBody : List UInt8 := bytes "FFFFFFF4\r\n0\r\n"

end Hr
