import MiniWin.Lib.Casts
import MiniWin.Lib.Scaling

/-!
# The scroll bar

`sb_thumb` and `sb_drag` of `kernel/ui/scrollbar.h`. A product that is no `int` has no result, and
nothing that goes by it has one.
-/

namespace Ui

open Narrow Scaling

/-- The result of a product of `int`s, if it is one. -/
def int (x : ℤ) : Option ℤ := if Fits 0x80000000 x then some x else none

/-- What a geometry callback reports: a bar on the screen, and what it is to show. -/
structure SbGeom where
  /-- Where the bar starts. -/
  o : ℤ
  /-- Its length. -/
  h : ℤ
  total : ℤ
  page : ℤ
  o_screen : Fits 0x8000 o
  h_screen : Fits 0x8000 h
  total_int : Fits 0x80000000 total
  page_int : 0 ≤ page ∧ page < 0x80000000

namespace SbGeom

/-- `sb_max_pos`. -/
def max_pos (b : SbGeom) : ℤ := if b.total > b.page then b.total - b.page else 0

/-- The length of the thumb, on this track. -/
def thumb (b : SbGeom) (track : ℤ) : Option ℤ := do
  let t ← if b.total > 0 ∧ b.total > b.page then (int (track * b.page)).map (·.tdiv b.total)
    else some track
  pure (min (max t 10) track)

/-- `sb_thumb`: where the thumb starts, and its length. -/
def sbThumb (b : SbGeom) (pos : ℤ) : Option (ℤ × ℤ) := do
  let track := max (b.h - 2 * 12) 4
  let t ← b.thumb track
  let room := track - t
  let off ← if b.max_pos > 0 then (int (room * pos)).map (·.tdiv b.max_pos) else some 0
  pure (b.o + 12 + off, t)

/-- What `sb_drag` stores, for a pointer at `c` that holds the thumb at `grab`. -/
def sbDrag (b : SbGeom) (pos grab c : ℤ) : Option ℤ := do
  let (_, th) ← b.sbThumb pos
  let room := b.h - 2 * 12 - th
  let want := min (max (c - grab - (b.o + 12)) 0) room
  if room > 0 then (int (want * b.max_pos)).map (·.tdiv room) else some 0

/-! ## What is meant -/

/-- **The bar works**: everything is an `int`, the thumb is on the track, goes from end to end, and
follows the position; the position follows the pointer, from end to end; and the thumb comes to
where the pointer holds it. -/
structure Works (b : SbGeom) : Prop where
  /-- The track that is drawn is the bar without its arrows. -/
  inside : ∀ pos, 0 ≤ pos → pos ≤ b.max_pos → ∃ ty th, b.sbThumb pos = some (ty, th) ∧
    0 < th ∧ b.o + 12 ≤ ty ∧ ty + th ≤ b.o + b.h - 12
  first : ∃ th, b.sbThumb 0 = some (b.o + 12, th)
  last : ∃ th, b.sbThumb b.max_pos = some (b.o + b.h - 12 - th, th)
  follows : ∀ p q, 0 ≤ p → p ≤ q → q ≤ b.max_pos → ∀ ty th ty' th',
    b.sbThumb p = some (ty, th) → b.sbThumb q = some (ty', th') → ty ≤ ty' ∧ th = th'
  drags : ∀ pos, 0 ≤ pos → pos ≤ b.max_pos → ∀ grab c, ∃ p, b.sbDrag pos grab c = some p ∧
    0 ≤ p ∧ p ≤ b.max_pos
  drags_mono : ∀ pos, 0 ≤ pos → pos ≤ b.max_pos → ∀ grab c c', c ≤ c' → ∀ p p',
    b.sbDrag pos grab c = some p → b.sbDrag pos grab c' = some p' → p ≤ p'
  /-- Where the thumb would be at an end of the track, or beyond it, the position is there. -/
  ends : ∀ pos, 0 ≤ pos → pos ≤ b.max_pos → ∀ grab c ty th, b.sbThumb pos = some (ty, th) →
    (c - grab ≤ b.o + 12 → b.sbDrag pos grab c = some 0) ∧
    (b.o + b.h - 12 - th ≤ c - grab → b.sbDrag pos grab c = some b.max_pos)
  /-- Between the ends the thumb is then where it is held, up to a pixel or to what a step of the
  position makes on the track. -/
  holds : ∀ pos, 0 ≤ pos → pos ≤ b.max_pos → ∀ grab c ty th p ty' th',
    b.sbThumb pos = some (ty, th) → b.o + 12 ≤ c - grab → c - grab ≤ b.o + b.h - 12 - th →
    b.sbDrag pos grab c = some p → b.sbThumb p = some (ty', th') →
    |ty' - (c - grab)| ≤ max 1 ((b.h - 24 - th + b.max_pos - 1) / b.max_pos)

/-- How long the thumb is to be, on a track that is longer than the least thumb. -/
def length (b : SbGeom) : ℤ := max ((b.h - 24) * b.page / b.total) 10

/-- **The condition**: the track has room for a thumb, and where there is something to scroll, room
for it to move; and the track by the page, and the room by what there is to scroll, is an `int`. -/
structure Roomy (b : SbGeom) : Prop where
  track : 28 ≤ b.h
  room : b.page < b.total → 34 < b.h
  thumb : b.page < b.total → (b.h - 24) * b.page < 0x80000000
  scroll : b.page < b.total → (b.h - 24 - b.length) * (b.total - b.page) < 0x80000000

/-! ## A bar with room -/

/-- The thumb of a bar with room. -/
def len (b : SbGeom) : ℤ := if b.page < b.total then b.length else b.h - 24

/-- How far it can move. -/
def room (b : SbGeom) : ℤ := b.h - 24 - b.len

variable {b : SbGeom}

theorem int_eq {x : ℤ} (hlo : 0 ≤ x) (hhi : x < 0x80000000) : int x = some x :=
  if_pos ⟨by omega, hhi⟩

/-- **Room to move** goes with something to scroll. -/
theorem Roomy.cases (h : b.Roomy) :
    (b.page < b.total ∧ 0 < b.max_pos ∧ 0 < b.room ∧ 10 ≤ b.len) ∨
      (¬ b.page < b.total ∧ b.max_pos = 0 ∧ b.room = 0 ∧ b.len = b.h - 24) := by
  unfold SbGeom.room SbGeom.len SbGeom.max_pos
  by_cases hpage : b.page < b.total
  · have hroom := h.room hpage
    have hpos := b.page_int.1
    have hlt : (b.h - 24) * b.page / b.total < b.h - 24 :=
      Int.ediv_lt_of_lt_mul (by omega) (Int.mul_lt_mul_of_pos_left hpage (by omega))
    have hten : 10 ≤ b.length := le_max_right ..
    have hlen : b.length < b.h - 24 := max_lt hlt (by omega)
    rw [if_pos hpage, if_pos hpage]
    exact .inl ⟨hpage, by omega, by omega, hten⟩
  · rw [if_neg hpage, if_neg hpage]
    exact .inr ⟨hpage, rfl, by omega, rfl⟩

theorem thumb_eq (h : b.Roomy) : b.thumb (b.h - 24) = some b.len := by
  have htrack := h.track
  have hpos := b.page_int.1
  unfold thumb
  rcases h.cases with ⟨hpage, hmax, hroom, hten⟩ | ⟨hpage, -, -, hlen⟩
  · have hmul : 0 ≤ (b.h - 24) * b.page := Int.mul_nonneg (by omega) hpos
    have hlength : b.len = max ((b.h - 24) * b.page / b.total) 10 := if_pos hpage
    rw [if_pos ⟨by omega, hpage⟩, int_eq hmul (h.thumb hpage), Option.map_some,
      Int.tdiv_eq_ediv_of_nonneg hmul, Option.bind_eq_bind, Option.bind_some]
    show some (min (max _ 10) (b.h - 24)) = _
    unfold room at hroom
    rw [← hlength, min_eq_left (by omega)]
  · rw [if_neg fun hshow => hpage hshow.2, Option.bind_eq_bind, Option.bind_some, hlen]
    exact congrArg some (min_eq_right (le_max_left ..))

/-- **What is drawn.** -/
theorem sbThumb_eq (h : b.Roomy) {pos : ℤ} (hlo : 0 ≤ pos) (hhi : pos ≤ b.max_pos) :
    b.sbThumb pos = some (b.o + 12 + scale b.room b.max_pos pos, b.len) := by
  have htrack := h.track
  unfold sbThumb
  dsimp only
  rw [max_eq_left (by omega : (4 : ℤ) ≤ b.h - 2 * 12), show b.h - 2 * 12 = b.h - 24 by omega,
    thumb_eq h, Option.bind_eq_bind, Option.bind_some]
  show (do
    let off ← if b.max_pos > 0 then (int (b.room * pos)).map fun (x : ℤ) => x.tdiv b.max_pos
      else some 0
    pure (b.o + 12 + off, b.len)) = _
  rcases h.cases with ⟨hpage, hmax, hroom, -⟩ | ⟨-, hmax, hroom, -⟩
  · have hmul : 0 ≤ b.room * pos := Int.mul_nonneg hroom.le hlo
    have hle : b.room * pos ≤ b.room * b.max_pos := Int.mul_le_mul_of_nonneg_left hhi hroom.le
    have hscroll : b.room * b.max_pos < 0x80000000 := by
      have hfit := h.scroll hpage
      unfold room len max_pos
      rwa [if_pos hpage, if_pos hpage]
    rw [if_pos hmax, int_eq hmul (by omega), Option.map_some, Int.tdiv_eq_ediv_of_nonneg hmul]
    rfl
  · rw [if_neg (by omega), hroom]
    unfold scale
    rw [Int.zero_mul, Int.zero_ediv]
    rfl

/-- **What is stored.** -/
theorem sbDrag_eq (h : b.Roomy) {pos : ℤ} (hlo : 0 ≤ pos) (hhi : pos ≤ b.max_pos) (grab c : ℤ) :
    b.sbDrag pos grab c =
      some (scale b.max_pos b.room (min (max (c - grab - (b.o + 12)) 0) b.room)) := by
  unfold sbDrag
  rw [sbThumb_eq h hlo hhi, Option.bind_eq_bind, Option.bind_some]
  dsimp only
  rw [show b.h - 2 * 12 - b.len = b.room by unfold room; omega]
  rcases h.cases with ⟨hpage, hmax, hroom, -⟩ | ⟨-, hmax, hroom, -⟩
  · obtain ⟨w, hw⟩ : ∃ w, min (max (c - grab - (b.o + 12)) 0) b.room = w := ⟨_, rfl⟩
    have hmul : 0 ≤ w * b.max_pos := Int.mul_nonneg (by omega) hmax.le
    have hle : w * b.max_pos ≤ b.room * b.max_pos :=
      Int.mul_le_mul_of_nonneg_right (by omega) hmax.le
    have hscroll : b.room * b.max_pos < 0x80000000 := by
      have hfit := h.scroll hpage
      unfold room len max_pos
      rwa [if_pos hpage, if_pos hpage]
    rw [hw, if_pos hroom, int_eq hmul (by omega), Option.map_some,
      Int.tdiv_eq_ediv_of_nonneg hmul, Int.mul_comm w]
    rfl
  · rw [if_neg (by omega), hmax]
    unfold scale
    rw [Int.zero_mul, Int.zero_ediv]

theorem max_pos_nonneg (b : SbGeom) : 0 ≤ b.max_pos := by
  unfold max_pos
  split <;> omega

theorem len_pos (h : b.Roomy) : 0 < b.len := by
  have htrack := h.track
  rcases h.cases with ⟨-, -, -, hten⟩ | ⟨-, -, -, hlen⟩ <;> omega

theorem room_nonneg (h : b.Roomy) : 0 ≤ b.room := by
  rcases h.cases with ⟨-, -, hroom, -⟩ | ⟨-, -, hroom, -⟩ <;> omega

/-- With nothing to scroll there is one position. -/
theorem scale_none (x : ℤ) : scale 0 0 x = 0 := by
  unfold scale
  rw [Int.zero_mul, Int.zero_ediv]

/-- Between the two scales of a bar everything goes from end to end. -/
theorem scale_ends (h : b.Roomy) :
    scale b.room b.max_pos b.max_pos = b.room ∧ scale b.max_pos b.room b.room = b.max_pos := by
  rcases h.cases with ⟨-, hmax, hroom, -⟩ | ⟨-, hmax, hroom, -⟩
  · exact ⟨scale_end _ hmax, scale_end _ hroom⟩
  · rw [hmax, hroom]
    exact ⟨scale_none 0, scale_none 0⟩

theorem scale_monos (h : b.Roomy) {x y : ℤ} (hxy : x ≤ y) :
    scale b.room b.max_pos x ≤ scale b.room b.max_pos y ∧
      scale b.max_pos b.room x ≤ scale b.max_pos b.room y := by
  rcases h.cases with ⟨-, hmax, hroom, -⟩ | ⟨-, hmax, hroom, -⟩
  · exact ⟨scale_mono hroom.le hmax hxy, scale_mono hmax.le hroom hxy⟩
  · rw [hmax, hroom, scale_none, scale_none]
    exact ⟨le_rfl, le_rfl⟩

/-- **A bar with room works.** -/
theorem Roomy.works (h : b.Roomy) : b.Works := by
  have hnonneg := b.max_pos_nonneg
  have hroom := room_nonneg h
  have hlen := len_pos h
  obtain ⟨hend, hend'⟩ := scale_ends h
  have hbar : b.o + 12 + b.room = b.o + b.h - 12 - b.len := by
    unfold SbGeom.room
    omega
  have hthumb := @sbThumb_eq b h
  have hdrag := @sbDrag_eq b h
  have hscale : ∀ pos, 0 ≤ pos → pos ≤ b.max_pos →
      0 ≤ scale b.room b.max_pos pos ∧ scale b.room b.max_pos pos ≤ b.room := fun pos hlo hhi =>
    ⟨(scale_zero ..).symm.trans_le (scale_monos h hlo).1, (scale_monos h hhi).1.trans_eq hend⟩
  have hstore : ∀ w, 0 ≤ w → w ≤ b.room →
      0 ≤ scale b.max_pos b.room w ∧ scale b.max_pos b.room w ≤ b.max_pos := fun w hlo hhi =>
    ⟨(scale_zero ..).symm.trans_le (scale_monos h hlo).2, (scale_monos h hhi).2.trans_eq hend'⟩
  constructor
  · intro pos hlo hhi
    have := hscale pos hlo hhi
    exact ⟨_, _, hthumb hlo hhi, hlen, by omega, by omega⟩
  · exact ⟨b.len, by rw [hthumb le_rfl hnonneg, scale_zero, Int.add_zero]⟩
  · exact ⟨b.len, by rw [hthumb hnonneg le_rfl, hend, hbar]⟩
  · intro p q hlo hpq hhi ty th ty' th' hp hq
    rw [hthumb hlo (hpq.trans hhi)] at hp
    rw [hthumb (hlo.trans hpq) hhi] at hq
    obtain ⟨rfl, rfl⟩ := Prod.mk.inj (Option.some.inj hp)
    obtain ⟨rfl, rfl⟩ := Prod.mk.inj (Option.some.inj hq)
    exact ⟨Int.add_le_add_left (scale_monos h hpq).1 _, rfl⟩
  · intro pos hlo hhi grab c
    have := hstore (min (max (c - grab - (b.o + 12)) 0) b.room) (by omega) (by omega)
    exact ⟨_, hdrag hlo hhi grab c, this⟩
  · intro pos hlo hhi grab c c' hc p p' hp hp'
    rw [hdrag hlo hhi] at hp hp'
    obtain rfl := Option.some.inj hp
    obtain rfl := Option.some.inj hp'
    exact (scale_monos h (by omega)).2
  · intro pos hlo hhi grab c ty th hty
    rw [hthumb hlo hhi] at hty
    obtain ⟨rfl, rfl⟩ := Prod.mk.inj (Option.some.inj hty)
    rw [hdrag hlo hhi]
    refine ⟨fun hc => ?_, fun hc => ?_⟩
    · rw [show min (max (c - grab - (b.o + 12)) 0) b.room = 0 by omega, scale_zero]
    · rw [show min (max (c - grab - (b.o + 12)) 0) b.room = b.room by omega, hend']
  · intro pos hlo hhi grab c ty th p ty' th' hty hcl hcr hp hty'
    rw [hthumb hlo hhi] at hty
    obtain ⟨rfl, rfl⟩ := Prod.mk.inj (Option.some.inj hty)
    rw [hdrag hlo hhi,
      show min (max (c - grab - (b.o + 12)) 0) b.room = c - grab - (b.o + 12) by omega] at hp
    obtain rfl := Option.some.inj hp
    have hin := hstore (c - grab - (b.o + 12)) (by omega) (by omega)
    rw [hthumb hin.1 hin.2] at hty'
    obtain ⟨rfl, rfl⟩ := Prod.mk.inj (Option.some.inj hty')
    rw [show b.h - 24 - b.len = b.room from rfl]
    rcases h.cases with ⟨-, hmax, hpos, -⟩ | ⟨-, hmax, hzero, -⟩
    · obtain ⟨hle, hge⟩ := scale_scale hpos hmax (c - grab - (b.o + 12))
      rw [abs_le]
      omega
    · rw [hmax, hzero, scale_none, abs_le]
      omega

/-! ## A bar that works -/

theorem int_some {x y : ℤ} (h : int x = some y) : x < 0x80000000 ∧ y = x := by
  unfold int at h
  split at h
  · next hfit => exact ⟨hfit.2, (Option.some.inj h).symm⟩
  · exact nomatch h

/-- A thumb is at least as long as the least track. -/
theorem thumb_some {track t : ℤ} (h : b.thumb track = some t) (htrack : 4 ≤ track) :
    4 ≤ t ∧ (b.page < b.total → track * b.page < 0x80000000 ∧
      t = min (max ((track * b.page).tdiv b.total) 10) track) := by
  have hpos := b.page_int.1
  unfold thumb at h
  split at h
  · next hshow =>
    cases hmul : int (track * b.page) with
    | none =>
      rw [hmul] at h
      exact nomatch h
    | some x =>
      obtain ⟨hlt, rfl⟩ := int_some hmul
      rw [hmul] at h
      obtain rfl := Option.some.inj h
      exact ⟨by omega, fun _ => ⟨hlt, rfl⟩⟩
  · next hfull =>
    obtain rfl := Option.some.inj h
    exact ⟨by omega, fun hpage => absurd ⟨by omega, hpage⟩ hfull⟩

theorem sbThumb_some {pos ty th : ℤ} (h : b.sbThumb pos = some (ty, th)) :
    b.thumb (max (b.h - 24) 4) = some th ∧
      (0 < b.max_pos → (max (b.h - 24) 4 - th) * pos < 0x80000000) := by
  unfold sbThumb at h
  dsimp only at h
  rw [show b.h - 2 * 12 = b.h - 24 by omega] at h
  cases hthumb : b.thumb (max (b.h - 24) 4) with
  | none =>
    rw [hthumb] at h
    exact nomatch h
  | some t =>
    rw [hthumb, Option.bind_eq_bind, Option.bind_some] at h
    split at h
    · cases hmul : int ((max (b.h - 24) 4 - t) * pos) with
      | none =>
        rw [hmul] at h
        exact nomatch h
      | some x =>
        rw [hmul] at h
        obtain ⟨-, rfl⟩ := Prod.mk.inj (Option.some.inj h)
        exact ⟨rfl, fun _ => (int_some hmul).1⟩
    · next hnone =>
      obtain ⟨-, rfl⟩ := Prod.mk.inj (Option.some.inj h)
      exact ⟨rfl, fun hmax => absurd hmax hnone⟩

/-- A thumb without room does not scroll. -/
theorem sbDrag_stuck {pos grab c ty th : ℤ} (h : b.sbThumb pos = some (ty, th))
    (hroom : b.h - 24 - th ≤ 0) : b.sbDrag pos grab c = some 0 := by
  unfold sbDrag
  rw [h, Option.bind_eq_bind, Option.bind_some]
  exact if_neg (by omega)

/-- **A bar that works has room.** -/
theorem Works.roomy (h : b.Works) : b.Roomy := by
  obtain ⟨ty, th, hthumb, -, hlo, hhi⟩ := h.inside 0 le_rfl b.max_pos_nonneg
  obtain ⟨hlen, -⟩ := sbThumb_some hthumb
  obtain ⟨hfour, hmul⟩ := thumb_some hlen (le_max_right ..)
  have htrack : 28 ≤ b.h := by omega
  rw [max_eq_left (by omega : (4 : ℤ) ≤ b.h - 24)] at hlen hmul
  have hmax : b.page < b.total → b.max_pos = b.total - b.page := fun hpage => if_pos hpage
  have hroom : b.page < b.total → 34 < b.h := fun hpage => by
    by_contra hshort
    obtain ⟨-, hth⟩ := hmul hpage
    have hzero : b.sbDrag 0 0 (b.o + b.h - 12 - th) = some 0 := sbDrag_stuck hthumb (by omega)
    obtain ⟨-, hend⟩ := h.ends 0 le_rfl b.max_pos_nonneg 0 (b.o + b.h - 12 - th) ty th hthumb
    rw [hzero] at hend
    have := Option.some.inj (hend (by omega))
    have := hmax hpage
    omega
  refine ⟨htrack, hroom, fun hpage => (hmul hpage).1, fun hpage => ?_⟩
  obtain ⟨th', hlast⟩ := h.last
  obtain ⟨hlen', hscroll⟩ := sbThumb_some hlast
  rw [max_eq_left (by omega : (4 : ℤ) ≤ b.h - 24), hmax hpage] at hscroll
  rw [max_eq_left (by omega : (4 : ℤ) ≤ b.h - 24), hlen] at hlen'
  obtain rfl := Option.some.inj hlen'
  have hpos := b.page_int.1
  have hth : th = b.length := by
    have hquot : (b.h - 24) * b.page / b.total < b.h - 24 :=
      Int.ediv_lt_of_lt_mul (by omega) (Int.mul_lt_mul_of_pos_left hpage (by omega))
    have hshort := hroom hpage
    rw [(hmul hpage).2, Int.tdiv_eq_ediv_of_nonneg (Int.mul_nonneg (by omega) hpos)]
    exact min_eq_left (max_le hquot.le (by omega))
  rw [← hth]
  exact hscroll (by omega)

/-- **A bar works exactly if it has room**, and what it multiplies is an `int`. -/
theorem works_iff_roomy (b : SbGeom) : b.Works ↔ b.Roomy := ⟨Works.roomy, Roomy.works⟩

/-- A page of ten million pixels. -/
def longPage : SbGeom where
  o := 40
  h := 400
  total := 10000000
  page := 400
  o_screen := by decide
  h_screen := by decide
  total_int := by decide
  page_int := by decide

/-- **A long page** is not scrolled to its end. -/
theorem longPage_fails : ¬ longPage.Works := fun h => by
  obtain ⟨th, hlast⟩ := h.last
  rw [show longPage.sbThumb longPage.max_pos = none by decide] at hlast
  exact nomatch hlast

end SbGeom

end Ui
