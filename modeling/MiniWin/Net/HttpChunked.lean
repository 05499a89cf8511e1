import MiniWin.Net.HttpHead

/-!
# HTTP responses: chunked bodies

The walk over a chunked body and its unwrapping are two loops over the same lines. What they come
to is said here from the side of the sender: a body that was written in chunks is complete when the
line that ends it is here, and unwraps to itself.
-/

namespace Hr

open Net Walk

/-! ## Chunks as they are written -/

def crlf : List UInt8 := bytes "\r\n"

/-- The number of a string of hex digits. -/
def hexNumber (ds : List UInt8) : Nat := ds.foldl (fun n c => n * 16 + ((hexval c).getD 0).toNat) 0

/-- **A chunk-size line of `n`**: digits in either case, an extension, and the end of the line. -/
structure SizeLine (n : Nat) (l : List UInt8) : Prop where
  written : ∃ ds ext, l = ds ++ ext ++ crlf ∧ ds ≠ [] ∧ (∀ c ∈ ds, (hexval c).isSome)
    ∧ hexNumber ds = n ∧ (ext = [] ∨ ext.head? = some ';'.toUInt8) ∧ ¬ crlf <:+: ext

/-- **A body in chunks**, none of them empty, up to the line that ends it. -/
inductive Encodes : List UInt8 → List UInt8 → Prop where
  | last {l : List UInt8} (h : SizeLine 0 l) : Encodes [] l
  | chunk {l data body enc : List UInt8} (hne : data ≠ []) (h : SizeLine data.length l)
      (hrest : Encodes body enc) : Encodes (data ++ body) (l ++ (data ++ crlf ++ enc))

variable {l ds ext body enc X Y Z A head rest : List UInt8} {n p r w len : Nat} {b m : Block}

/-! ## One line -/

theorem hexval_lt {c h : UInt8} (hc : hexval c = some h) : h.toNat < 16 := by
  unfold hexval at hc
  split at hc
  · next hr =>
    obtain rfl := Option.some.inj hc
    have h₁ := UInt8.le_iff_toNat_le.mp hr.1
    have h₂ := UInt8.le_iff_toNat_le.mp hr.2
    rw [UInt8.toNat_sub_of_le _ _ hr.1]
    have : '0'.toUInt8.toNat = 48 := rfl
    have : '9'.toUInt8.toNat = 57 := rfl
    omega
  split at hc
  · next hr =>
    obtain rfl := Option.some.inj hc
    have h₁ := UInt8.le_iff_toNat_le.mp hr.1
    have h₂ := UInt8.le_iff_toNat_le.mp hr.2
    rw [UInt8.toNat_add, UInt8.toNat_sub_of_le _ _ hr.1]
    have : 'a'.toUInt8.toNat = 97 := rfl
    have : 'f'.toUInt8.toNat = 102 := rfl
    have : (10 : UInt8).toNat = 10 := rfl
    omega
  split at hc
  · next hr =>
    obtain rfl := Option.some.inj hc
    have h₁ := UInt8.le_iff_toNat_le.mp hr.1
    have h₂ := UInt8.le_iff_toNat_le.mp hr.2
    rw [UInt8.toNat_add, UInt8.toNat_sub_of_le _ _ hr.1]
    have : 'A'.toUInt8.toNat = 65 := rfl
    have : 'F'.toUInt8.toNat = 70 := rfl
    have : (10 : UInt8).toNat = 10 := rfl
    omega
  · exact nomatch hc

/-- One digit more, in 32 bits. -/
theorem shift_or {size : UInt32} {h : UInt8} (hh : h.toNat < 16) :
    (size <<< 4 ||| h.toUInt32).toNat = (size.toNat * 16 + h.toNat) % 2 ^ 32 := by
  rw [UInt32.toNat_or, UInt32.toNat_shiftLeft, UInt8.toNat_toUInt32]
  show size.toNat <<< 4 % 2 ^ 32 ||| h.toNat = _
  have hmod : size.toNat <<< 4 % 2 ^ 32 = (size.toNat % 2 ^ 28) <<< 4 := by
    rw [Nat.shiftLeft_eq, Nat.shiftLeft_eq]
    omega
  rw [hmod, ← Nat.shiftLeft_add_eq_or_of_lt (by omega), Nat.shiftLeft_eq]
  omega

/-- What stands behind the digits is not read. -/
theorem lineSize_digits (hds : ∀ c ∈ ds, (hexval c).isSome)
    (hext : ext = [] ∨ ext.head? = some ';'.toUInt8) :
    ∀ (size : UInt32) (k : Nat) (any : Bool), size.toNat = k % 2 ^ 32 → any = true ∨ ds ≠ [] →
      ∃ v, lineSize size any (ds ++ ext) = some v ∧ v.toNat
        = ds.foldl (fun n c => n * 16 + ((hexval c).getD 0).toNat) k % 2 ^ 32 := by
  induction ds with
  | nil =>
    intro size k any hsize hany
    have hany := hany.resolve_right fun h => h rfl
    subst hany
    refine ⟨size, ?_, hsize⟩
    rw [List.nil_append]
    rcases hext with rfl | hext
    · rfl
    · obtain ⟨e, rfl⟩ := List.head?_eq_some_iff.mp hext
      rfl
  | cons c ds ih =>
    intro size k any hsize _
    obtain ⟨h, hh⟩ := Option.isSome_iff_exists.mp (hds c List.mem_cons_self)
    rw [List.cons_append]
    unfold lineSize
    rw [hh]
    dsimp only
    rw [List.foldl_cons, hh, Option.getD_some]
    refine ih (fun d hd => hds d (List.mem_cons_of_mem _ hd)) _ _ _ ?_ (.inl rfl)
    rw [shift_or (hexval_lt hh), hsize]
    omega

/-- The end of a chunk-size line is the first in it. -/
theorem SizeLine.ends (h : SizeLine n l) : ∃ k, k + 2 = l.length
    ∧ l[k]? = some '\r'.toUInt8 ∧ l[k + 1]? = some '\n'.toUInt8
    ∧ (∀ i < k, l[i]? = some '\r'.toUInt8 → l[i + 1]? ≠ some '\n'.toUInt8)
    ∧ ∃ v, lineSize 0 false (l.take k) = some v ∧ v.toNat = n % 2 ^ 32 := by
  obtain ⟨ds, ext, rfl, hne, hds, rfl, hext, hno⟩ := h.written
  refine ⟨(ds ++ ext).length, by simp [crlf, bytes]; omega, ?_, ?_, fun i hi hcr hlf => ?_, ?_⟩
  · rw [List.getElem?_append_right (Nat.le_refl _), Nat.sub_self]
    rfl
  · rw [List.getElem?_append_right (by omega), Nat.add_sub_cancel_left]
    rfl
  · rw [List.getElem?_append_left hi] at hcr
    rcases Nat.lt_or_ge i ds.length with hids | hids
    · rw [List.getElem?_append_left hids] at hcr
      have hdigit := hds _ (List.mem_of_getElem? hcr)
      exact absurd hdigit (by decide)
    rw [List.getElem?_append_right hids] at hcr
    rcases Nat.lt_or_ge (i + 1) (ds ++ ext).length with hlt | hge
    · rw [List.getElem?_append_left hlt, List.getElem?_append_right (by omega),
        show i + 1 - ds.length = i - ds.length + 1 by omega] at hlf
      obtain ⟨h₁, hcr⟩ := List.getElem?_eq_some_iff.mp hcr
      obtain ⟨h₂, hlf⟩ := List.getElem?_eq_some_iff.mp hlf
      refine hno ⟨ext.take (i - ds.length), ext.drop (i - ds.length + 2), ?_⟩
      have hsplit : ext.drop (i - ds.length) = crlf ++ ext.drop (i - ds.length + 2) := by
        rw [List.drop_eq_getElem_cons h₁, List.drop_eq_getElem_cons h₂, hcr, hlf]
        rfl
      rw [List.append_assoc, ← hsplit, List.take_append_drop]
    · rw [List.getElem?_append_right hge, show i + 1 - (ds ++ ext).length = 0 by omega] at hlf
      exact absurd hlf (by decide)
  · rw [List.take_left]
    exact lineSize_digits hds hext 0 0 false rfl (.inr hne)

/-- **What is at the place of a chunk-size line**, as far as it is here. -/
theorem SizeLine.lineAt (h : SizeLine n l) (hn : n < 2 ^ 32)
    (hb : ∀ i (hi : i < l.length), p + i < len → b (p + i) = l[i]) :
    Hr.lineAt b len p = if p + l.length ≤ len then
      if n = 0 then .last else .chunk (p + l.length) n else .cut := by
  obtain ⟨k, hk, hcr, hlf, hfirst, v, hv, hvn⟩ := h.ends
  rw [Nat.mod_eq_of_lt hn] at hvn
  have hget : ∀ i, i < l.length → p + i < len → l[i]? = some (b (p + i)) := fun i hi hlt => by
    rw [hb i hi hlt, List.getElem?_eq_getElem hi]
  have hnone : ∀ j, p ≤ j → j < p + k → j + 1 < len →
      ¬ (b j = '\r'.toUInt8 ∧ b (j + 1) = '\n'.toUInt8) := by
    rintro j hpj hjk hlt ⟨hj, hj'⟩
    obtain ⟨i, rfl⟩ : ∃ i, j = p + i := ⟨j - p, by omega⟩
    refine hfirst i (by omega) ((hget i (by omega) (by omega)).trans (congrArg some hj)) ?_
    rw [hget (i + 1) (by omega) (by omega), ← Nat.add_assoc, hj']
  have hend : p + k + 1 < len → b (p + k) = '\r'.toUInt8 ∧ b (p + k + 1) = '\n'.toUInt8 := by
    intro hlt
    exact ⟨Option.some.inj ((hget k (by omega) (by omega)).symm.trans hcr),
      Option.some.inj ((hget (k + 1) (by omega) hlt).symm.trans hlf)⟩
  unfold Hr.lineAt
  split
  · next hfind =>
    rw [if_neg fun hle => ?_]
    have := List.find?_eq_none.mp hfind (p + k) (List.mem_range'_1.mpr ⟨by omega, by omega⟩)
    exact this (decide_eq_true (hend (by omega)))
  · next e hfind =>
    obtain ⟨hpair, hmem, hbefore⟩ := List.find?_range'_eq_some.mp hfind
    obtain ⟨hpe, helt⟩ := List.mem_range'_1.mp hmem
    rw [decide_eq_true_eq] at hpair
    have hle : p + k ≤ e := by
      by_contra hlt
      exact hnone e hpe (by omega) (by omega) hpair
    obtain rfl : e = p + k := by
      by_contra hne
      have := hbefore (p + k) (by omega) (by omega)
      rw [decide_eq_true (hend (by omega))] at this
      exact nomatch this
    have hslice : b.slice p (p + k - p) = l.take k := by
      refine List.ext_getElem (by simp; omega) fun i hi hi' => ?_
      rw [List.length_take] at hi'
      rw [Block.getElem_slice, List.getElem_take]
      exact hb i (by omega) (by omega)
    rw [hslice, hv, if_pos (by omega)]
    dsimp only
    by_cases hzero : n = 0
    · rw [if_pos hzero, if_pos (UInt32.toNat_inj.mp (hvn.trans hzero :  v.toNat = (0 : UInt32).toNat))]
    · rw [if_neg hzero, if_neg fun h => hzero (by rw [← hvn, h]; rfl), hvn]
      congr 1
      omega

/-! ## The walk -/

/-- The buffer holds a line, as far as it has come. -/
theorem mem_line (hX : X <+: A ++ (l ++ Y)) (i : Nat) (hi : i < l.length)
    (hlt : A.length + i < X.length) : mem m X (A.length + i) = l[i] := by
  rw [mem_apply hlt, hX.getElem, List.getElem_append_right (by omega)]
  simp only [Nat.add_sub_cancel_left]
  exact List.getElem_append_left hi

/-- **How far the walk comes**: to the line that ends the body, if it is here. -/
theorem Encodes.walk (h : Encodes body enc) :
    ∀ {A : List UInt8}, X <+: A ++ enc ++ Z → A.length ≤ X.length →
      (A ++ enc ++ Z).length ≤ bufSize →
      ∃ q, Leads (nextChunk (mem m X) X.length) A.length q
        ∧ nextChunk (mem m X) X.length q = none
        ∧ (Hr.lineAt (mem m X) X.length q = .last ↔ A.length + enc.length ≤ X.length) := by
  induction h with
  | @last l hl =>
    intro A hX hA hfit
    have hline : Hr.lineAt (mem m X) X.length A.length = _ := hl.lineAt (by decide)
      (mem_line (by rw [← List.append_assoc]; exact hX))
    rw [if_pos rfl] at hline
    by_cases hle : A.length + l.length ≤ X.length
    · rw [if_pos hle] at hline
      exact ⟨A.length, .refl, nextChunk_of_last hline, iff_of_true hline hle⟩
    · rw [if_neg hle] at hline
      refine ⟨A.length, .refl, ?_, iff_of_false ?_ hle⟩
      · unfold nextChunk
        rw [hline]
      · rw [hline]
        exact nofun
  | @chunk l data body enc hne hl _ ih =>
    intro A hX hA hfit
    have hpos := List.length_pos_iff.mpr hne
    have htwo : crlf.length = 2 := rfl
    simp only [List.length_append, htwo] at hfit ⊢
    have hsmall : bufSize < 2 ^ 31 := by decide
    have hline : Hr.lineAt (mem m X) X.length A.length = _ := hl.lineAt (by omega)
      (mem_line (by rwa [List.append_assoc, List.append_assoc] at hX))
    rw [if_neg (show data.length ≠ 0 by omega)] at hline
    by_cases hle : A.length + l.length + data.length + 2 ≤ X.length
    · rw [if_pos (by omega)] at hline
      have hnext : nextChunk (mem m X) X.length A.length
          = some (A ++ l ++ data ++ crlf).length :=
        nextChunk_eq_some.mpr ⟨_, _, hline, by
          simp only [List.length_append, htwo]
          rw [Nat.mod_eq_of_lt (by omega)], by simp only [List.length_append, htwo]; omega⟩
      obtain ⟨q, hq, hend, hlast⟩ := ih (A := A ++ l ++ data ++ crlf)
        (by simpa only [List.append_assoc] using hX)
        (by simp only [List.length_append, htwo]; omega)
        (by simp only [List.length_append, htwo]; omega)
      refine ⟨q, hq.head hnext, hend, hlast.trans ?_⟩
      simp only [List.length_append, htwo]
      omega
    · -- the chunk or its line is not all here
      refine ⟨A.length, .refl, ?_, iff_of_false ?_ (by omega)⟩
      · unfold nextChunk
        rw [hline]
        by_cases hl : A.length + l.length ≤ X.length
        · rw [if_pos hl]
          dsimp only
          rw [Nat.mod_eq_of_lt (by omega), if_pos (by omega)]
        · rw [if_neg hl]
      · rw [hline]
        by_cases hl : A.length + l.length ≤ X.length
        · rw [if_pos hl]
          exact nofun
        · rw [if_neg hl]
          exact nofun

/-- **No size on the way carries.** -/
theorem Encodes.plain (h : Encodes body enc) : ∀ {A B : List UInt8}, B = A ++ enc ++ Z →
    B.length ≤ bufSize → Plain B A.length := by
  induction h with
  | @last l hl =>
    intro A B hB hfit p hp data size hchunk
    have hline : Hr.lineAt (mem Block.zero B) B.length A.length = _ := hl.lineAt (by decide)
      (mem_line (by rw [hB, List.append_assoc] <;> exact List.prefix_rfl))
    rw [if_pos rfl, if_pos (by rw [hB]; simp only [List.length_append]; omega)] at hline
    rcases hp.cases_head with rfl | ⟨q, hq, -⟩
    · rw [hline] at hchunk
      exact nomatch hchunk
    · rw [nextChunk_of_last hline] at hq
      exact nomatch hq
  | @chunk l data body enc hne hl _ ih =>
    intro A B hB hfit p hp d size hchunk
    have hpos := List.length_pos_iff.mpr hne
    have htwo : crlf.length = 2 := rfl
    have hsmall : bufSize < 2 ^ 31 := by decide
    have hall := ih (A := A ++ l ++ data ++ crlf) (B := B)
      (by rw [hB]; simp only [List.append_assoc]) hfit
    have hlen : B.length = A.length + l.length + data.length + 2 + enc.length + Z.length := by
      rw [hB]
      simp only [List.length_append, htwo]
      omega
    have hline : Hr.lineAt (mem Block.zero B) B.length A.length = _ := hl.lineAt (by omega)
      (mem_line (by rw [hB, List.append_assoc, List.append_assoc] <;> exact List.prefix_rfl))
    rw [if_neg (show data.length ≠ 0 by omega), if_pos (by omega)] at hline
    rcases hp.cases_head with rfl | ⟨q, hq, hrest⟩
    · obtain ⟨rfl, rfl⟩ := Line.chunk.inj (hline.symm.trans hchunk)
      omega
    · obtain ⟨d', n', hl', rfl, -⟩ := nextChunk_eq_some.mp hq
      obtain ⟨rfl, rfl⟩ := Line.chunk.inj (hline.symm.trans hl')
      refine hall p ?_ d size hchunk
      rw [Nat.mod_eq_of_lt (by omega)] at hrest
      simp only [List.length_append, htwo]
      exact hrest

/-! ## The unwrapping -/

/-- **A body in chunks unwraps to itself**, in place: what is written is behind what is read. -/
theorem Encodes.unwrap (h : Encodes body enc) : ∀ {A B : List UInt8} {fuel w : Nat} {b : Block}
    {x : Nat × Block}, B = A ++ enc ++ Z → B.length ≤ bufSize → w ≤ A.length →
    (∀ i, A.length ≤ i → i < B.length → b i = mem m B i) →
    Hr.unwrap B.length fuel A.length w b = some x →
      x.1 = w + body.length ∧ x.2.slice w body.length = body ∧ ∀ i < w, x.2 i = b i := by
  induction h with
  | @last l hl =>
    intro A B fuel w b x hB hfit hw hb hx
    have hline := (lineAt_congr hb).trans (hl.lineAt (by decide)
      (mem_line (by rw [hB, List.append_assoc] <;> exact List.prefix_rfl)))
    rw [if_pos rfl, if_pos (by rw [hB]; simp only [List.length_append]; omega)] at hline
    cases fuel with
    | zero => exact nomatch hx
    | succ fuel =>
      unfold Hr.unwrap at hx
      rw [hline] at hx
      have hx : x = (w, b) := by
        split at hx <;> exact (Option.some.inj hx).symm
      subst hx
      exact ⟨rfl, rfl, fun _ _ => rfl⟩
  | @chunk l data body enc hne hl _ ih =>
    intro A B fuel w b x hB hfit hw hb hx
    have hpos := List.length_pos_iff.mpr hne
    have htwo : crlf.length = 2 := rfl
    have hsmall : bufSize < 2 ^ 31 := by decide
    have hlen : B.length = A.length + l.length + data.length + 2 + enc.length + Z.length := by
      rw [hB]
      simp only [List.length_append, htwo]
      omega
    have hline := (lineAt_congr hb).trans (hl.lineAt (by omega)
      (mem_line (by rw [hB, List.append_assoc, List.append_assoc] <;> exact List.prefix_rfl)))
    rw [if_neg (show data.length ≠ 0 by omega), if_pos (by omega)] at hline
    cases fuel with
    | zero => exact nomatch hx
    | succ fuel =>
      unfold Hr.unwrap at hx
      rw [if_pos (by omega), hline] at hx
      dsimp only at hx
      rw [Nat.min_eq_left (by omega), if_neg (by omega), Nat.mod_eq_of_lt (by omega)] at hx
      have hplace : (A ++ l ++ data ++ crlf).length = A.length + l.length + data.length + 2 := by
        simp only [List.length_append, htwo]
      rw [← hplace] at hx
      obtain ⟨hx₁, hx₂, hx₃⟩ := ih (by rw [hB]; simp only [List.append_assoc]) hfit (by omega)
        (fun i hi hilt => by
          rw [b.copied_of_outside (by omega)]
          exact hb i (by omega) hilt) hx
      refine ⟨by rw [hx₁, List.length_append, Nat.add_assoc], ?_, fun i hi => ?_⟩
      · rw [List.length_append, Block.slice_add, hx₂]
        congr 1
        refine List.ext_getElem (by simp) fun i hi hi' => ?_
        rw [Block.getElem_slice, hx₃ _ (by omega), b.copied_apply (.inr (by omega)) i hi',
          hb _ (by omega) (by omega), Nat.add_assoc]
        have hdata := mem_line (m := m) (A := A ++ l) (l := data) (Y := crlf ++ enc ++ Z) (X := B)
          (by rw [hB]; simp only [List.append_assoc]; exact List.prefix_rfl) i hi'
          (by rw [List.length_append]; omega)
        rw [List.length_append, Nat.add_assoc] at hdata
        exact hdata
      · rw [hx₃ i (by omega), b.copied_of_outside (by omega)]

/-! ## Responses -/

/-- The headers say that the body is chunked. -/
structure ChunkedHead (head : List UInt8) : Prop where
  isHead : IsHead head
  declares : ∃ l ∈ headerLines head, SaysChunked l

/-- **What is known behind such headers.** -/
theorem ChunkedHead.seen (h : ChunkedHead head) (m : Block) (Z : List UInt8) :
    (seen m (head ++ Z)).status = statusCode head ∧ (Hr.seen m (head ++ Z)).chunked = true := by
  obtain ⟨s, hs, hseen⟩ := h.isHead.seen m Z
  have hstatus := status_foldl (headerLines head) s
  have hchunked := (chunked_foldl (headerLines head) s).mpr (.inr h.declares)
  generalize (headerLines head).foldl headerLine s = t at hseen hstatus hchunked
  rw [hseen]
  dsimp only
  rw [if_neg fun hc => hc.2.1 hchunked]
  rw [hs] at hstatus
  exact ⟨hstatus, hchunked⟩

/-- **The chunks of such a response come to an end.** -/
theorem ChunkedHead.ends (h : ChunkedHead head) (he : Encodes body enc)
    (hfit : (head ++ enc ++ Z).length ≤ bufSize) : Ends (head ++ enc ++ Z) := by
  intro i hi _
  rw [List.append_assoc] at hi
  obtain ⟨hend, hfour⟩ := h.isHead.append (enc ++ Z)
  obtain rfl := Option.some.inj (hend.symm.trans hi)
  rw [show head.length - 4 + 4 = head.length by omega]
  exact (he.plain rfl hfit).chunksEnd hfit

/-- **The body comes out of its chunks**, however the bytes arrive: `hr_feed` returns, the response
is complete when the end of the line that ends the body is here and not before, and by then
`hr_finish` leaves the body. Where `early` the headers are the whole response. -/
def Decoded (early : Prop) (head enc body rest : List UInt8) : Prop :=
  ∀ (m : Block) (cuts : List (List UInt8)), cuts.flatten <+: head ++ enc ++ rest →
    (∃ s, Fed m cuts s) ∧ ∀ s, Fed m cuts s →
      (s.complete = true ↔ head ++ enc <+: cuts.flatten ∨ early ∧ head <+: cuts.flatten)
      ∧ (head ++ enc <+: cuts.flatten → (∃ fuel t, finish fuel s = some t)
        ∧ ∀ fuel t, finish fuel s = some t → t.body_len = body.length
          ∧ t.buf.slice t.body_start t.body_len = body)

theorem prefix_iff_length (hX : X <+: A ++ Z) : A <+: X ↔ A.length ≤ X.length :=
  ⟨List.IsPrefix.length_le, fun h =>
    List.prefix_of_prefix_length_le (List.prefix_append A Z) hX h⟩

/-- **A body in chunks is decoded**, where the response fits. -/
theorem chunked_decoded (h : ChunkedHead head) (he : Encodes body enc)
    (hfit : (head ++ enc ++ rest).length ≤ bufSize) :
    Decoded (noBody (statusCode head) = true) head enc body rest := by
  intro m cuts hX
  obtain ⟨tail, htail⟩ := hX
  refine ⟨exists_fed (h.ends he hfit) hfit cuts tail htail, fun s hfed => ?_⟩
  have hX : cuts.flatten <+: head ++ enc ++ rest := ⟨tail, htail⟩
  have hfitX := hX.length_le
  obtain ⟨c, p, rfl, hs⟩ := hfed.stands (by omega)
  generalize cuts.flatten = X at hX hs hfitX ⊢
  have hhead : head <+: X ↔ head.length ≤ X.length :=
    prefix_iff_length (by rw [List.append_assoc] at hX; exact hX)
  rw [prefix_iff_length hX, hhead, List.length_append]
  have hfour := (h.isHead.append []).2
  rcases Nat.lt_or_ge X.length head.length with hlt | hge
  · -- the headers are not all here
    have hpre : X <+: head := List.prefix_of_prefix_length_le (by
      rw [List.append_assoc] at hX; exact hX) (List.prefix_append _ _) (by omega)
    rw [if_pos (h.isHead.before hpre hlt)] at hs
    obtain ⟨rfl, rfl⟩ := hs
    exact ⟨iff_of_false nofun (by omega), fun hc => absurd hc (by omega)⟩
  obtain ⟨Y, rfl⟩ := hhead.mpr hge
  obtain ⟨hend, -⟩ := h.isHead.append Y
  obtain ⟨hbuf, hlen, -, -, hfin, hdone⟩ := seen_spec m (head ++ Y)
  obtain ⟨hstart, hpos⟩ := seen_start (m := m) hend
  obtain ⟨hstatus, hchunked⟩ := h.seen m Y
  rw [show head.length - 4 + 4 = head.length by omega] at hstart hpos
  rw [if_neg (by rw [hend]; exact nofun)] at hs
  refine ⟨?_, fun hall => ?_⟩
  · cases hno : noBody (statusCode head) with
    | true => exact iff_of_true (hs.bodyless (by rw [hstatus]; exact hno)) (.inr ⟨rfl, hge⟩)
    | false =>
      obtain ⟨hp, hstop, hc⟩ := hs.walked (by rw [hstatus]; exact hno) hchunked
      rw [hbuf, hlen] at hp hstop hc
      rw [hpos] at hp
      obtain ⟨q, hq, hstop', hlast⟩ := he.walk (m := m) hX hge hfit
      obtain rfl := hp.final_unique hq hstop hstop'
      rw [or_iff_left fun h => Bool.false_ne_true h.1]
      dsimp only
      rw [hc, decide_eq_true_eq, hlast]
  · obtain ⟨Z, hZ⟩ : ∃ Z, head ++ Y = head ++ enc ++ Z := by
      obtain ⟨Z, hZ⟩ := (prefix_iff_length hX).mpr (by rw [List.length_append]; exact hall)
      exact ⟨Z, hZ.symm⟩
    have hfitZ : (head ++ Y).length ≤ bufSize := hfitX.trans hfit
    refine ⟨?_, fun fuel t ht => ?_⟩
    · obtain ⟨fuel, t, ht⟩ := exists_finish (m := m) (hZ ▸ h.ends he (hZ ▸ hfitZ))
      exact ⟨fuel, _, by rw [finish_settled, ht]; rfl⟩
    · unfold finish at ht
      dsimp only at ht
      rw [hfin, hdone, hend, hchunked, if_neg (by decide), if_neg (by simp), if_pos rfl, hstart,
        hlen, hbuf] at ht
      obtain ⟨x, hx, rfl⟩ := Option.map_eq_some_iff.mp ht
      obtain ⟨hx₁, hx₂, -⟩ := he.unwrap hZ hfitZ (Nat.le_refl _) (fun _ _ _ => rfl) hx
      dsimp only
      rw [hx₁, Nat.add_sub_cancel_left]
      exact ⟨rfl, hx₂⟩

/-- A page of three bytes in two chunks, with an extension. -/
def twoChunks : List UInt8 := bytes "2;a\r\nab\r\n01\r\nc\r\n0\r\n"

theorem twoChunks_encodes : Encodes (bytes "abc") twoChunks :=
  .chunk (l := bytes "2;a\r\n") (show bytes "ab" ≠ [] by decide)
    ⟨bytes "2", bytes ";a", by decide +kernel, by decide +kernel, by decide +kernel,
      by decide +kernel, by decide +kernel, by decide +kernel⟩
    (.chunk (l := bytes "01\r\n") (show bytes "c" ≠ [] by decide)
      ⟨bytes "01", [], by decide +kernel, by decide +kernel, by decide +kernel,
        by decide +kernel, by decide +kernel, by decide +kernel⟩
      (.last (l := bytes "0\r\n")
        ⟨bytes "0", [], by decide +kernel, by decide +kernel, by decide +kernel,
          by decide +kernel, by decide +kernel, by decide +kernel⟩))

/-- The headers with one line behind the status line. -/
theorem chunkedHead_of (hend : headEnd head = some (head.length - 4))
    (hlines : headerLines head = [bytes "Transfer-Encoding: chunked\r", ['\r'.toUInt8]]) :
    ChunkedHead head :=
  ⟨hend, _, by rw [hlines]; exact List.mem_cons_self, bytes "chunked\r", by decide, by decide⟩

def chunkedPage : List UInt8 := bytes "HTTP/1.1 200 OK\r\nTransfer-Encoding: chunked\r\n\r\n"

theorem chunked_decoded_twoChunks : Decoded (noBody (statusCode chunkedPage) = true) chunkedPage
    twoChunks (bytes "abc") (bytes "\r\n") :=
  chunked_decoded (chunkedHead_of (by decide +kernel) (by decide +kernel)) twoChunks_encodes
    (by decide +kernel)

/-- The headers of an answer that has no body. -/
def chunkedNone : List UInt8 := bytes "HTTP/1.1 204 No\r\nTransfer-Encoding: chunked\r\n\r\n"

/-- **Complete in front of the chunks**: an answer that has no body. -/
theorem chunked_early : ¬ ∀ head enc body rest, ChunkedHead head → Encodes body enc →
    (head ++ enc ++ rest).length ≤ bufSize → Decoded False head enc body rest := by
  intro h
  have hfed : (feed 1 chunkedNone (reset Block.zero)).map Resp.complete = some true := by
    decide +kernel
  obtain ⟨s, hs, hcomplete⟩ := Option.map_eq_some_iff.mp hfed
  have hdec := h chunkedNone twoChunks (bytes "abc") []
    (chunkedHead_of (by decide +kernel) (by decide +kernel)) twoChunks_encodes (by decide +kernel)
    Block.zero [chunkedNone] (by simp)
  have hend := (((hdec.2 s (.call .start hs)).1.mp hcomplete).resolve_right And.left).length_le
  exact absurd hend (by decide +kernel)

end Hr
