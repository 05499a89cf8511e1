import MiniWin.Programs.Trailer

/-!
# Trailers are read back

What `pack` writes is accepted by `mwp_trailer_parse`, with what was given. The program comes back
as it was exactly when `pack` has not cut it as a packed one, and the title exactly when there is no
NUL in it.
-/

namespace Mwp

variable {img data rest : List UInt8} {icon : Option Png} {title : List Char} {abi : ℤ} {l : Layout}
  {t : Trailer} {k stop : ℕ}

/-! ## Numbers in a file -/

theorem le16_packH {b : Block} {o v : ℕ} (h0 : b o = Block.byteOf v 0)
    (h1 : b (o + 1) = Block.byteOf v 1) : b.le16 o = v % 65536 := by
  unfold Block.le16
  rw [h0, h1, Block.toNat_byteOf, Block.toNat_byteOf]
  omega

/-- Behind a body, a file is read from the start of what follows. -/
theorem view_append (body tr : List UInt8) : view (body ++ tr) body.length = view tr 0 := by
  funext i
  show (body ++ tr).getD (body.length + i) 0 = tr.getD (0 + i) 0
  rw [List.getD_append_right _ _ _ _ (Nat.le_add_right ..), Nat.add_sub_cancel_left, Nat.zero_add]

theorem length_trailer (l : Layout) (payload abi : ℕ) : (trailer l payload abi).length = 32 := rfl

/-- The trailer at the end of a file. -/
theorem view_trailer (l : Layout) (payload abi : ℕ) :
    view (l.body ++ trailer l payload abi) ((l.body ++ trailer l payload abi).length - 32) =
      view (trailer l payload abi) 0 := by
  rw [List.length_append, length_trailer, Nat.add_sub_cancel]
  exact view_append ..

theorem view_flags (l : Layout) (payload abi : ℕ) :
    (view (trailer l payload abi) 0).le16 6 = l.flags % 65536 := le16_packH rfl rfl

theorem view_payload (l : Layout) (payload abi : ℕ) :
    (view (trailer l payload abi) 0).le32 8 = payload % 4294967296 := Block.byteOf_sum payload

theorem view_i16 (l : Layout) (payload abi : ℕ) :
    (view (trailer l payload abi) 0).le32 12 = l.i16 % 4294967296 := Block.byteOf_sum l.i16

theorem view_i32 (l : Layout) (payload abi : ℕ) :
    (view (trailer l payload abi) 0).le32 16 = l.i32 % 4294967296 := Block.byteOf_sum l.i32

theorem view_tit (l : Layout) (payload abi : ℕ) :
    (view (trailer l payload abi) 0).le32 20 = l.tit % 4294967296 := Block.byteOf_sum l.tit

theorem view_abi (l : Layout) (payload abi : ℕ) :
    (view (trailer l payload abi) 0).le32 24 = abi % 4294967296 := Block.byteOf_sum abi

/-! ## Texts in a file -/

theorem textAt_cons (hk : k < img.length) :
    textAt img k = if img.getD k 0 ≠ 0 then img.getD k 0 :: textAt img (k + 1) else [] := by
  have hget : img.getD k 0 = img[k] := List.getD_eq_getElem _ _ hk
  unfold textAt
  rw [List.drop_eq_getElem_cons hk, List.takeWhile_cons, hget]
  by_cases h0 : img[k] ≠ 0
  · rw [if_pos h0, if_pos (decide_eq_true h0)]
  · rw [if_neg h0, if_neg fun h => h0 (of_decide_eq_true h)]

/-- **The end of a title** that is found is the end of the text. -/
theorem titleEnd_eq (hstop : stop ≤ img.length) (h : titleEnd img stop k < stop) :
    titleEnd img stop k = k + (textAt img k).length := by
  fun_induction titleEnd img stop k with
  | case1 k hgo ih =>
    rw [ih h, textAt_cons (hgo.1.trans_le hstop), if_pos hgo.2, List.length_cons]
    omega
  | case2 k hend =>
    have h0 : ¬ img.getD k 0 ≠ 0 := fun hne => hend ⟨h, hne⟩
    rw [textAt_cons (h.trans_le hstop), if_neg h0]
    rfl

theorem titleEnd_le {n : ℕ} (hkn : k ≤ n) (h0 : img.getD n 0 = 0) : titleEnd img stop k ≤ n := by
  fun_induction titleEnd img stop k with
  | case1 k hgo ih =>
    refine ih (Nat.lt_of_le_of_ne hkn fun heq => hgo.2 ?_)
    rw [heq]
    exact h0
  | case2 k hend => exact hkn

/-- **A text in front of a NUL** is read back exactly when it has none itself. -/
theorem textAt_append (data tb rest : List UInt8) :
    textAt (data ++ (tb ++ 0 :: rest)) data.length = tb ↔ 0 ∉ tb := by
  unfold textAt
  rw [List.drop_left]
  constructor
  · intro h h0
    have hmem := List.mem_takeWhile_imp (h.symm ▸ h0)
    exact absurd rfl (of_decide_eq_true hmem)
  · intro h
    have hall : ∀ a ∈ tb, decide (a ≠ 0) = true := fun a ha => decide_eq_true fun h0 => h (h0 ▸ ha)
    rw [List.takeWhile_append_of_pos hall, List.takeWhile_cons_of_neg (by decide), List.append_nil]

/-! ## What the reader accepts -/

/-- **What is accepted** is inside. -/
theorem inside_of_parse (h : mwpTrailerParse img = some t) : Inside img t := by
  unfold mwpTrailerParse at h
  dsimp only at h
  split at h
  · exact nomatch h
  · next hlen =>
    split at h
    · exact nomatch h
    · split at h
      · exact nomatch h
      · next hpay =>
        split at h
        · exact nomatch h
        · next h16 =>
          split at h
          · exact nomatch h
          · next h32 =>
            split at h
            · exact nomatch h
            · next htit =>
              obtain rfl := Option.some.inj h
              refine ⟨⟨by dsimp only; omega, by dsimp only; omega⟩, fun hb => ?_, fun hb => ?_,
                fun hb => ?_⟩
              · dsimp only at hb ⊢
                rw [if_pos hb]
                have := not_and.mp h16 hb
                omega
              · dsimp only at hb ⊢
                rw [if_pos hb]
                have := not_and.mp h32 hb
                omega
              · dsimp only at hb ⊢
                rw [if_pos hb]
                have hin := not_and.mp htit hb
                have hend := titleEnd_eq (Nat.sub_le img.length 32)
                  (not_le.mp fun hle => hin (.inr (.inr hle)))
                omega

/-! ## What the writer makes -/

theorem length_mean (ps : List Pixel) : (mean ps).length = 4 := by
  unfold mean
  dsimp only
  split
  · rfl
  · rfl

theorem length_scale (p : Png) (n : ℕ) : (scale p n).length = n * (n * 4) := by
  unfold scale
  simp only [List.length_flatMap, length_mean, List.map_const', List.sum_replicate_nat,
    List.length_range]

/-- A layout that the reader accepts. -/
structure Layout.Good (l : Layout) (data : List UInt8) : Prop where
  payload : data <+: l.body
  flags : l.flags < 8
  icon16 : l.flags.testBit 0 → data.length ≤ l.i16 ∧ l.i16 + 1024 ≤ l.body.length
  icon32 : l.flags.testBit 1 → data.length ≤ l.i32 ∧ l.i32 + 4096 ≤ l.body.length
  title : l.flags.testBit 2 → l.tit = data.length ∧
    ∃ n, data.length ≤ n ∧ n < l.body.length ∧ l.body.getD n 0 = 0

theorem addTitle_good (data : List UInt8) (title : List Char) :
    (addTitle data title).Good data := by
  unfold addTitle
  split
  · have hn : data.length + ((utf8 title).take 23).length <
        (data ++ ((utf8 title).take 23 ++ [0])).length := by
      simp only [List.length_append, List.length_singleton]
      omega
    have hbits : (4 : ℕ).testBit 0 = false ∧ (4 : ℕ).testBit 1 = false := by decide
    refine ⟨List.prefix_append .., (by decide : 4 < 8),
      fun h => absurd (hbits.1.symm.trans h) Bool.false_ne_true,
      fun h => absurd (hbits.2.symm.trans h) Bool.false_ne_true,
      fun _ => ⟨rfl, _, Nat.le_add_right .., hn, ?_⟩⟩
    rw [List.getD_append_right _ _ _ _ (Nat.le_add_right ..), Nat.add_sub_cancel_left,
      List.getD_append_right _ _ _ _ le_rfl, Nat.sub_self]
    rfl
  · have hbits (i : ℕ) : ¬ (0 : ℕ).testBit i = true := fun h =>
      Bool.false_ne_true ((Nat.zero_testBit i).symm.trans h)
    exact ⟨List.prefix_rfl, (by decide : 0 < 8), fun h => absurd h (hbits 0),
      fun h => absurd h (hbits 1), fun h => absurd h (hbits 2)⟩

theorem addIcons_prefix (l : Layout) (icon : Option Png) : l.body <+: (addIcons l icon).body := by
  cases icon with
  | none => exact List.prefix_rfl
  | some p =>
    have hpad : l.body <+: pad l.body := List.prefix_append ..
    exact (hpad.trans (List.prefix_append ..)).trans (List.prefix_append ..)

theorem addIcons_good (h : l.Good data) (icon : Option Png) : (addIcons l icon).Good data := by
  cases icon with
  | none => exact h
  | some p =>
    have hle := h.payload.length_le
    have hbody : l.body <+: pad l.body ++ scale p 16 ++ scale p 32 := addIcons_prefix l (some p)
    have hlen : l.body.length ≤ (pad l.body).length := (List.prefix_append ..).length_le
    have h16 := length_scale p 16
    have h32 := length_scale p 32
    refine ⟨h.payload.trans hbody, Nat.or_lt_two_pow (n := 3) h.flags (by decide), fun _ => ?_,
      fun _ => ?_, fun htit => ?_⟩
    · show data.length ≤ (pad l.body).length ∧
        (pad l.body).length + 1024 ≤ (pad l.body ++ scale p 16 ++ scale p 32).length
      simp only [List.length_append]
      omega
    · show data.length ≤ (pad l.body ++ scale p 16).length ∧
        (pad l.body ++ scale p 16).length + 4096 ≤
          (pad l.body ++ scale p 16 ++ scale p 32).length
      simp only [List.length_append]
      omega
    · have hbit : l.flags.testBit 2 = true := by
        have hor : (l.flags ||| 3).testBit 2 = true := htit
        rwa [Nat.testBit_or, show (3 : ℕ).testBit 2 = false by decide, Bool.or_false] at hor
      obtain ⟨heq, n, hn, hlt, h0⟩ := h.title hbit
      refine ⟨heq, n, hn, hlt.trans_le hbody.length_le, ?_⟩
      obtain ⟨more, hmore⟩ := hbody
      show (pad l.body ++ scale p 16 ++ scale p 32).getD n 0 = 0
      rw [← hmore, List.getD_append _ _ _ _ hlt]
      exact h0

theorem layout_good (data : List UInt8) (icon : Option Png) (title : List Char) :
    (layout data icon title).Good data := addIcons_good (addTitle_good data title) icon

/-! ## The way back -/

/-- What a file with a trailer has. -/
def Layout.trailer_of (l : Layout) (payload abi : ℕ) : Trailer where
  payload_len := payload
  icon16_off := if l.flags.testBit 0 then l.i16 else 0
  icon32_off := if l.flags.testBit 1 then l.i32 else 0
  title_off := if l.flags.testBit 2 then l.tit else 0
  min_abi := abi
  flags := l.flags

/-- The fields of a trailer fit into it. -/
structure Layout.Fits (l : Layout) (payload abi : ℕ) : Prop where
  payload : payload < 4294967296
  abi : abi < 4294967296
  i16 : l.i16 < 4294967296
  i32 : l.i32 < 4294967296
  tit : l.tit < 4294967296

theorem flags_small {n : ℕ} (h : n < 8) : n &&& 0xFFFFFFF8 = 0 := by
  have hall : ∀ m < 8, m &&& 0xFFFFFFF8 = 0 := by decide
  exact hall n h

/-- **A good layout** is accepted, with what was put into the trailer. -/
theorem parse_trailer (hg : l.Good data) {abi : ℕ} (hf : l.Fits data.length abi)
    (hne : data ≠ []) :
    mwpTrailerParse (l.body ++ trailer l data.length abi) =
      some (l.trailer_of data.length abi) := by
  have hpos := List.length_pos_of_ne_nil hne
  have hle := hg.payload.length_le
  have hflags := hg.flags
  have hlen : (l.body ++ trailer l data.length abi).length = l.body.length + 32 := by
    rw [List.length_append, length_trailer]
  have htitle : l.flags.testBit 2 →
      titleEnd (l.body ++ trailer l data.length abi) l.body.length l.tit < l.body.length := by
    intro hb
    obtain ⟨heq, n, hn, hlt, h0⟩ := hg.title hb
    refine (titleEnd_le (heq ▸ hn) ?_).trans_lt hlt
    rw [List.getD_append _ _ _ _ hlt]
    exact h0
  unfold mwpTrailerParse
  dsimp only
  rw [view_trailer, view_flags, view_payload, view_i16, view_i32, view_tit, view_abi, hlen,
    Nat.add_sub_cancel, Nat.mod_eq_of_lt (by omega : l.flags < 65536), Nat.mod_eq_of_lt hf.payload,
    Nat.mod_eq_of_lt hf.abi, Nat.mod_eq_of_lt hf.i16, Nat.mod_eq_of_lt hf.i32,
    Nat.mod_eq_of_lt hf.tit, if_neg (by omega), if_neg, if_neg, if_neg, if_neg, if_neg]
  · rfl
  · rintro ⟨hb, hout⟩
    have := htitle hb
    have := (hg.title hb).1
    obtain ⟨-, n, hn, hlt, -⟩ := hg.title hb
    omega
  · rintro ⟨hb, hout⟩
    have := hg.icon32 hb
    omega
  · rintro ⟨hb, hout⟩
    have := hg.icon16 hb
    omega
  · rintro (hver | hfl | hzero | hbig)
    · exact hver rfl
    · exact hfl (flags_small hflags)
    · omega
    · omega
  · rintro (h | h | h | h) <;> exact h rfl

/-- Nothing is accepted without a payload. -/
theorem parse_trailer_nil (l : Layout) (abi : ℕ) :
    mwpTrailerParse (l.body ++ trailer l 0 abi) = none := by
  unfold mwpTrailerParse
  dsimp only
  split
  · rfl
  · split
    · rfl
    · rw [if_pos]
      rw [view_trailer, view_payload]
      exact .inr (.inr (.inl rfl))

/-- What is packed looks like it, -/
theorem looksPacked_trailer (l : Layout) (payload abi : ℕ) :
    LooksPacked (l.body ++ trailer l payload abi) := by
  have hlen : (l.body ++ trailer l payload abi).length = l.body.length + 32 := by
    rw [List.length_append, length_trailer]
  refine ⟨by omega, ?_⟩
  rw [hlen, Nat.add_sub_cancel, List.drop_left]
  rfl

/-- **and its program proper** is what was packed. -/
theorem proper_trailer (hg : l.Good data) (hd : data.length < 4294967296) (abi : ℕ) :
    proper (l.body ++ trailer l data.length abi) = data := by
  obtain ⟨more, hmore⟩ := hg.payload
  unfold proper payloadWord
  rw [if_pos (looksPacked_trailer ..), view_trailer, view_payload, Nat.mod_eq_of_lt hd, ← hmore,
    List.append_assoc, List.take_left]

/-- The icons are where the trailer says. -/
theorem layout_icons (data : List UInt8) (p : Png) (title : List Char) :
    ((layout data (some p) title).body.drop (layout data (some p) title).i16).take 1024 =
        scale p 16 ∧
      ((layout data (some p) title).body.drop (layout data (some p) title).i32).take 4096 =
        scale p 32 := by
  have h16 : (scale p 16).length = 1024 := length_scale p 16
  have h32 : (scale p 32).length = 4096 := length_scale p 32
  obtain ⟨b, hb⟩ : ∃ b, b = pad (addTitle data title).body := ⟨_, rfl⟩
  show ((pad (addTitle data title).body ++ _ ++ _).drop
      (pad (addTitle data title).body).length).take 1024 = _ ∧
    ((pad (addTitle data title).body ++ _ ++ _).drop
      (pad (addTitle data title).body ++ scale p 16).length).take 4096 = _
  rw [← hb]
  refine ⟨?_, ?_⟩
  · rw [List.append_assoc, List.drop_left, ← h16, List.take_left]
  · rw [List.drop_left, ← h32, List.take_length]

/-- The title is behind the program. -/
theorem layout_title (data : List UInt8) (icon : Option Png) (h : title ≠ []) :
    (layout data icon title).tit = data.length ∧ ∃ more, (layout data icon title).body =
      data ++ ((utf8 title).take 23 ++ 0 :: more) := by
  have htitle : addTitle data title =
      ⟨data ++ ((utf8 title).take 23 ++ [0]), 0, 0, data.length, 4⟩ := if_pos h
  obtain ⟨more, hmore⟩ := addIcons_prefix (addTitle data title) icon
  refine ⟨?_, more, ?_⟩
  · unfold layout
    rw [htitle]
    cases icon with
    | none => rfl
    | some p => rfl
  · show (addIcons (addTitle data title) icon).body = _
    rw [← hmore, htitle, List.append_assoc, List.append_assoc, List.singleton_append]

theorem layout_flags (data : List UInt8) (icon : Option Png) (title : List Char) :
    (layout data icon title).flags =
      (if title ≠ [] then 4 else 0) + (if icon.isSome then 3 else 0) := by
  unfold layout addTitle
  cases icon with
  | none => split <;> rfl
  | some p =>
    have hthree : (4 ||| 3 : ℕ) = 4 + 3 := by decide
    split
    · exact hthree
    · exact Nat.zero_or 3

theorem flags_title (data : List UInt8) (icon : Option Png) (h : title ≠ []) :
    (layout data icon title).flags.testBit 2 = true := by
  rw [layout_flags, if_pos h]
  have hbits : (4 + 0 : ℕ).testBit 2 = true ∧ (4 + 3 : ℕ).testBit 2 = true := by decide
  split
  · exact hbits.2
  · exact hbits.1

theorem flags_icon (data : List UInt8) (p : Png) (title : List Char) :
    (layout data (some p) title).flags.testBit 0 = true ∧
      (layout data (some p) title).flags.testBit 1 = true := by
  rw [layout_flags, if_pos (Option.isSome_some : (some p).isSome = true)]
  split
  · decide
  · decide

/-! ## The round trip -/

variable {out : List UInt8}

/-- A program that is taken for a packed one, and cut. -/
def Cut (data : List UInt8) : Prop := LooksPacked data ∧ payloadWord data < data.length

theorem proper_eq (h : ¬ Cut data) : proper data = data := by
  unfold proper
  split
  · next hlooks => exact List.take_of_length_le (not_lt.mp fun hlt => h ⟨hlooks, hlt⟩)
  · rfl

theorem not_cut (h : (proper data).length = data.length) : ¬ Cut data := fun ⟨hlooks, hlt⟩ => by
  unfold proper at h
  rw [if_pos hlooks, List.length_take] at h
  omega

/-- Something is said of the program. -/
def Adds (icon : Option Png) (title : List Char) (abi : ℤ) : Prop :=
  title ≠ [] ∨ icon.isSome ∨ 1 < abi

/-- **What is packed** is a layout of the program proper, with its trailer. -/
theorem pack_cases (hadds : Adds icon title abi) (h : pack data icon title abi = some out) :
    ∃ n : ℕ, abi = n ∧ (layout (proper data) icon title).Fits (proper data).length n ∧
      out = (layout (proper data) icon title).body ++
        trailer (layout (proper data) icon title) (proper data).length n := by
  have hsome : ¬ ((layout (proper data) icon title).flags = 0 ∧ abi ≤ 1) := by
    rintro ⟨hzero, hle⟩
    rcases hadds with ht | hi | ha
    · have hbit := flags_title (proper data) icon ht
      rw [hzero] at hbit
      exact Bool.false_ne_true hbit
    · obtain ⟨p, rfl⟩ := Option.isSome_iff_exists.mp hi
      have hbit := (flags_icon (proper data) p title).1
      rw [hzero] at hbit
      exact Bool.false_ne_true hbit
    · omega
  unfold pack at h
  dsimp only at h
  rw [if_neg hsome] at h
  split at h
  · next hfit =>
    obtain ⟨h0, ha, hpay, h16, h32, htit⟩ := hfit
    refine ⟨abi.toNat, (Int.toNat_of_nonneg h0).symm, ⟨hpay, by omega, h16, h32, htit⟩,
      (Option.some.inj h).symm⟩
  · cases h

theorem pack_congr {a b : List UInt8} (h : proper a = proper b) :
    pack a icon title abi = pack b icon title abi := by
  unfold pack
  rw [h]

/-- The title is read back exactly when there is no NUL in it. -/
theorem title_back (data : List UInt8) (icon : Option Png) (h : title ≠ []) (tr : List UInt8)
    (payload abi : ℕ) : textAt ((layout data icon title).body ++ tr)
      ((layout data icon title).trailer_of payload abi).title_off = (utf8 title).take 23 ↔
        0 ∉ (utf8 title).take 23 := by
  obtain ⟨htit, more, hmore⟩ := layout_title data icon h
  have hoff : ((layout data icon title).trailer_of payload abi).title_off = data.length :=
    (if_pos (flags_title data icon h)).trans htit
  rw [hoff, hmore, List.append_assoc, List.append_assoc, List.cons_append]
  exact textAt_append ..

/-- The icons are read back. -/
theorem icons_back (data : List UInt8) (p : Png) (title : List Char) (tr : List UInt8)
    (payload abi : ℕ) :
    (((layout data (some p) title).body ++ tr).drop
        ((layout data (some p) title).trailer_of payload abi).icon16_off).take 1024 = scale p 16 ∧
      (((layout data (some p) title).body ++ tr).drop
        ((layout data (some p) title).trailer_of payload abi).icon32_off).take 4096 =
          scale p 32 := by
  have hg := layout_good data (some p) title
  obtain ⟨hb16, hb32⟩ := flags_icon data p title
  obtain ⟨h16, h32⟩ := layout_icons data p title
  have hin16 := (hg.icon16 hb16).2
  have hin32 := (hg.icon32 hb32).2
  have hoff16 : ((layout data (some p) title).trailer_of payload abi).icon16_off =
      (layout data (some p) title).i16 := if_pos hb16
  have hoff32 : ((layout data (some p) title).trailer_of payload abi).icon32_off =
      (layout data (some p) title).i32 := if_pos hb32
  rw [hoff16, hoff32, List.drop_append_of_le_length (by omega),
    List.drop_append_of_le_length (by omega),
    List.take_append_of_le_length (by rw [List.length_drop]; omega),
    List.take_append_of_le_length (by rw [List.length_drop]; omega)]
  exact ⟨h16, h32⟩

/-- **The round trip** works exactly for a program that is not cut and a title without a NUL. -/
theorem round_trip_iff (hne : data ≠ []) (hadds : Adds icon title abi)
    (hpack : pack data icon title abi = some out) :
    RoundTrip data icon title abi out ↔ ¬ Cut data ∧ 0 ∉ (utf8 title).take 23 := by
  obtain ⟨n, rfl, hfits, hout⟩ := pack_cases hadds hpack
  have hg := layout_good (proper data) icon title
  constructor
  · intro h
    obtain ⟨t, hparse, hlen, -, -, -, htext, -⟩ := h.parse
    have hprop : proper data ≠ [] := fun hnil => by
      rw [hout, hnil] at hparse
      exact nomatch (parse_trailer_nil _ n).symm.trans hparse
    rw [hout, parse_trailer hg hfits hprop] at hparse
    obtain rfl := Option.some.inj hparse
    refine ⟨not_cut hlen, ?_⟩
    by_cases ht : title ≠ []
    · rw [hout] at htext
      exact (title_back _ _ ht _ _ _).mp (htext ht)
    · rw [not_not.mp ht]
      exact List.not_mem_nil
  · rintro ⟨hcut, hnul⟩
    have hprop := proper_eq hcut
    rw [hprop] at hg hfits hout
    have hagain : proper out = proper data := by
      rw [hout, hprop]
      exact proper_trailer hg hfits.payload n
    obtain ⟨more, hmore⟩ := hg.payload
    refine ⟨⟨_, hout ▸ parse_trailer hg hfits hne, rfl, rfl, ?_, layout_flags .., fun ht => ?_, ?_⟩,
      (pack_congr hagain).trans hpack⟩
    · show out.take data.length = data
      rw [hout, ← hmore, List.append_assoc, List.take_left]
    · rw [hout]
      exact (title_back _ _ ht _ _ _).mpr hnul
    · rintro p rfl
      rw [hout]
      exact icons_back ..

/-- **The trailer.** What is accepted is inside of the file, for any file. And what is packed comes
back exactly when the program has not been taken for a packed one, and there is no NUL in what is
kept of the title. -/
theorem trailer_round_trip (img : List UInt8) (t : Trailer) (data : List UInt8)
    (icon : Option Png) (title : List Char) (abi : ℤ) (out : List UInt8) :
    (mwpTrailerParse img = some t → Inside img t) ∧
      (data ≠ [] → Adds icon title abi → pack data icon title abi = some out →
        (RoundTrip data icon title abi out ↔ ¬ Cut data ∧ 0 ∉ (utf8 title).take 23)) :=
  ⟨inside_of_parse, round_trip_iff⟩

theorem trailer_round_trip_small : ∃ out, pack [0xC3] none ['A'] 3 = some out ∧
    RoundTrip [0xC3] none ['A'] 3 out := by
  refine ⟨_, rfl, ((trailer_round_trip [] ⟨0, 0, 0, 0, 0, 0⟩ [0xC3] none ['A'] 3 _).2 (by decide)
    (.inl (by decide)) rfl).mpr ⟨fun h => absurd h.1.1 (by decide), by decide⟩⟩

/-- The four letters and 28 bytes of zero. -/
def lookalike : List UInt8 := magic ++ List.replicate 28 0

/-- A program that is no packed one, but has the four letters in the right place, is lost. -/
theorem lookalike_lost : mwpTrailerParse lookalike = none ∧ ∃ out,
    pack lookalike none ['A'] 1 = some out ∧ ¬ RoundTrip lookalike none ['A'] 1 out := by
  refine ⟨by decide, _, rfl, fun h => ?_⟩
  obtain ⟨t, hparse, -⟩ := h.parse
  exact nomatch (show mwpTrailerParse _ = none by decide +kernel).symm.trans hparse

end Mwp
