import MiniWin.Web.Flex
import Mathlib.Algebra.Order.BigOperators.Group.List
import Mathlib.Algebra.BigOperators.Ring.List
import Mathlib.Tactic.Linarith

/-!
# When flex lines conserve space

A factor of a stylesheet may be negative, the sum of the factors may then be zero or less, and an
item that is at its least width does not leave its share to the others. The condition says of each
line, by the sign of what is left, what may not be: in terms of the products and remainders of what
the items ask for.
-/

namespace Css

open Narrow

variable {cw gap free tg ts : ℤ} {wrap : Bool} {line behind : List FlexItem}

/-! ## What is meant -/

/-- **A line conserves space**: no item is less than nothing or than its least width; if there is
space left and someone wants it, the line fills the container up to one pixel for each item, and
does not exceed it; and a line that does not wrap exceeds the container only if all items that can
shrink are at their least. -/
structure Conserves (cw gap : ℤ) (wrap : Bool) (line : List (FlexItem × ℤ)) : Prop where
  least : ∀ p ∈ line, 0 ≤ p.2 ∧ p.1.least ≤ p.2
  fills : 0 < flexFree cw gap (line.map Prod.fst) → (∃ p ∈ line, 0 < p.1.grow) →
    cw - line.length < flexOuter gap line ∧ flexOuter gap line ≤ cw
  shrunk : wrap = false → flexFree cw gap (line.map Prod.fst) < 0 → cw < flexOuter gap line →
    ∀ p ∈ line, 0 < p.1.weight → p.2 = p.1.least

/-- What an item has above its least width. -/
def FlexItem.slack (it : FlexItem) : ℤ := it.base - it.least

/-- What it has above its least width or above nothing, whichever is less. -/
def FlexItem.reserve (it : FlexItem) : ℤ := it.base - max 0 it.least

/-- **The condition** on a line. If there is space left, then no item loses more of it than it has,
and the remainders of the shares do not come to less than nothing; or no one wants it, or there is
next to none. If space is missing in a line that does not wrap, then the shares of it, each up to
the slack of its item, make up for it, or all who can shrink are at their least. -/
structure Sound (cw gap : ℤ) (wrap : Bool) (line behind : List FlexItem) : Prop where
  ints : ∀ x ∈ flexInts cw gap wrap line behind, Fits 0x80000000 x
  grows : 0 < flexFree cw gap line → 0 < growSum line →
    (∀ it ∈ line, -((it.reserve + 1) * growSum line) < flexFree cw gap line * it.grow) ∧
      0 ≤ (line.map fun it => (flexFree cw gap line * it.grow).tmod (growSum line)).sum
  idle : 0 < flexFree cw gap line → growSum line ≤ 0 → (∃ it ∈ line, 0 < it.grow) →
    flexFree cw gap line < line.length
  shrinks : wrap = false → flexFree cw gap line < 0 → 0 < shrinkSum line →
    (∀ it ∈ line, 0 ≤ it.mn ∨
      flexNeed (flexFree cw gap line) * it.weight < (it.base + 1) * shrinkSum line) ∧
    (-flexFree cw gap line ≤
        (line.map fun it =>
          min (flexCut (flexFree cw gap line) (shrinkSum line) it) it.slack).sum ∨
      ∀ it ∈ line, 0 < it.weight →
        it.slack ≤ flexCut (flexFree cw gap line) (shrinkSum line) it)
  stuck : wrap = false → flexFree cw gap line < 0 → shrinkSum line ≤ 0 →
    ∀ it ∈ line, 0 < it.weight → it.base ≤ it.mn

/-! ## Sums -/

theorem outer_eq (cw : ℤ) (w : FlexItem → ℤ) (line : List FlexItem) :
    flexOuter gap (line.map fun it => (it, w it)) =
      cw - flexFree cw gap line + (line.map fun it => w it - it.base).sum := by
  have hsum : ∀ v : FlexItem → ℤ, flexOuter gap (line.map fun it => (it, v it)) =
      (line.map v).sum + ((line.map FlexItem.ex).sum + gap * ((line.length : ℤ) - 1)) := fun v => by
    unfold flexOuter
    rw [List.map_map, List.length_map, ← add_assoc, ← List.sum_map_add]
    rfl
  have hdiff : (line.map fun it => w it - it.base).sum + (line.map FlexItem.base).sum =
      (line.map w).sum := by
    rw [← List.sum_map_add]
    exact congrArg List.sum (List.map_congr_left fun it _ => Int.sub_add_cancel ..)
  unfold flexFree
  rw [hsum, hsum]
  show _ = _ - (_ - ((line.map FlexItem.base).sum + _)) + _
  omega

/-- What is shared out, and what the shares leave. -/
theorem share_add_rest (free tg : ℤ) (f : FlexItem → ℤ) (line : List FlexItem) :
    tg * (line.map fun it => (free * f it).tdiv tg).sum +
      (line.map fun it => (free * f it).tmod tg).sum = free * (line.map f).sum := by
  rw [← List.sum_map_mul_left, ← List.sum_map_mul_left, ← List.sum_map_add]
  exact congrArg List.sum (List.map_congr_left fun it _ => Int.mul_tdiv_add_tmod ..)

/-- The shares do not exceed the whole exactly if their remainders do not come to less than
nothing. -/
theorem share_le_iff (hline : growSum line = tg) (htg : 0 < tg) :
    (line.map fun it => (free * it.grow).tdiv tg).sum ≤ free ↔
      0 ≤ (line.map fun it => (free * it.grow).tmod tg).sum := by
  have hsum := share_add_rest free tg FlexItem.grow line
  rw [show (line.map FlexItem.grow).sum = tg from hline, mul_comm free] at hsum
  constructor
  · intro h
    have := Int.mul_le_mul_of_nonneg_left h htg.le
    omega
  · intro h
    exact Int.le_of_mul_le_mul_left (by omega) htg

/-- **The shares leave less than one for each item.** -/
theorem share_gt (free : ℤ) (hline : growSum line = tg) (htg : 0 < tg) :
    free - line.length < (line.map fun it => (free * it.grow).tdiv tg).sum := by
  have hsum := share_add_rest free tg FlexItem.grow line
  rw [show (line.map FlexItem.grow).sum = tg from hline, mul_comm free] at hsum
  have hne : 0 < (line.length : ℤ) := by
    rcases line with - | ⟨it, line⟩
    · exact absurd hline htg.ne
    · exact Int.natCast_pos.mpr (Nat.succ_pos _)
  have hrest : (line.map fun it => (free * it.grow).tmod tg).sum ≤ line.length * (tg - 1) := by
    have hle : ∀ it ∈ line, (free * it.grow).tmod tg ≤ tg - 1 := fun it _ =>
      Int.le_sub_one_of_lt (Int.tmod_lt_of_pos _ htg)
    refine (List.sum_le_sum hle).trans_eq ?_
    rw [List.map_const', List.sum_replicate, nsmul_eq_mul]
  refine Int.lt_of_mul_lt_mul_left (a := tg) ?_ htg.le
  calc tg * (free - line.length) < tg * free - line.length * (tg - 1) := by
        rw [Int.mul_sub, Int.mul_sub, Int.mul_comm tg line.length]
        omega
    _ ≤ tg * (line.map fun it => (free * it.grow).tdiv tg).sum := by omega

/-! ## One line -/

theorem FlexItem.least_le (it : FlexItem) : it.least ≤ it.base := min_le_right ..

/-- What is taken from an item that shrinks. -/
theorem base_sub_width (it : FlexItem) (c : ℤ) :
    max it.least (it.base - c) - it.base = -min c it.slack := by
  unfold FlexItem.slack
  omega

/-- The line with its widths. -/
def flexPlaced (cw gap : ℤ) (wrap : Bool) (line : List FlexItem) : List (FlexItem × ℤ) :=
  line.map fun it =>
    (it, flexWidth wrap (flexFree cw gap line) (growSum line) (shrinkSum line) it)

theorem placed_fst (cw gap : ℤ) (wrap : Bool) (line : List FlexItem) :
    (flexPlaced cw gap wrap line).map Prod.fst = line := by
  unfold flexPlaced
  rw [List.map_map]
  exact List.map_id line

/-- **There is space, and it is shared out.** -/
theorem conserves_grow (hfree : 0 < flexFree cw gap line) (htg : 0 < growSum line) :
    Conserves cw gap wrap (flexPlaced cw gap wrap line) ↔
      (∀ it ∈ line, -((it.reserve + 1) * growSum line) < flexFree cw gap line * it.grow) ∧
        0 ≤ (line.map fun it => (flexFree cw gap line * it.grow).tmod (growSum line)).sum := by
  have hw : ∀ it, flexWidth wrap (flexFree cw gap line) (growSum line) (shrinkSum line) it =
      it.base + (flexFree cw gap line * it.grow).tdiv (growSum line) := fun it =>
    if_pos ⟨hfree, htg⟩
  have houter : flexOuter gap (flexPlaced cw gap wrap line) = cw - flexFree cw gap line +
      (line.map fun it => (flexFree cw gap line * it.grow).tdiv (growSum line)).sum := by
    unfold flexPlaced
    rw [outer_eq cw]
    refine congrArg (_ + List.sum ·) (List.map_congr_left fun it _ => ?_)
    rw [hw]
    omega
  have hlen : (flexPlaced cw gap wrap line).length = line.length := List.length_map ..
  have hreserve : ∀ it : FlexItem, 0 ≤ it.reserve := fun it => by
    have := it.base_nonneg
    have := it.least_le
    unfold FlexItem.reserve
    omega
  have hleast : ∀ it : FlexItem,
      (0 ≤ it.base + (flexFree cw gap line * it.grow).tdiv (growSum line) ∧
        it.least ≤ it.base + (flexFree cw gap line * it.grow).tdiv (growSum line)) ↔
      -((it.reserve + 1) * growSum line) < flexFree cw gap line * it.grow := fun it => by
    rw [← neg_le_tdiv_iff htg (hreserve it)]
    unfold FlexItem.reserve
    omega
  constructor
  · rintro ⟨hl, hf, -⟩
    have hmem : ∀ it ∈ line, (it, it.base +
        (flexFree cw gap line * it.grow).tdiv (growSum line)) ∈ flexPlaced cw gap wrap line :=
      fun it hit => List.mem_map.mpr ⟨it, hit, by rw [hw]⟩
    refine ⟨fun it hit => (hleast it).mp (hl _ (hmem it hit)), (share_le_iff rfl htg).mp ?_⟩
    obtain ⟨it, hit, hpos⟩ : ∃ it ∈ line, 0 < it.grow := by
      by_contra hno
      push Not at hno
      have hle : growSum line ≤ (line.map fun _ => (0 : ℤ)).sum := List.sum_le_sum hno
      rw [List.map_const', List.sum_replicate, nsmul_eq_mul, mul_zero] at hle
      omega
    have hle := (hf (by rwa [placed_fst]) ⟨_, hmem it hit, hpos⟩).2
    omega
  · rintro ⟨hl, hr⟩
    refine ⟨fun p hp => ?_, fun _ _ => ?_, fun _ hneg => ?_⟩
    · obtain ⟨it, hit, rfl⟩ := List.mem_map.mp hp
      show 0 ≤ flexWidth .. ∧ it.least ≤ flexWidth ..
      rw [hw]
      exact (hleast it).mpr (hl it hit)
    · have hle := (share_le_iff rfl htg).mpr hr
      have hgt := share_gt (flexFree cw gap line) rfl htg
      rw [hlen, houter]
      omega
    · rw [placed_fst] at hneg
      omega

/-- Where no width is changed, the line takes what it takes. -/
theorem outer_unchanged (hw : ∀ it,
      flexWidth wrap (flexFree cw gap line) (growSum line) (shrinkSum line) it = it.base) :
    flexOuter gap (flexPlaced cw gap wrap line) = cw - flexFree cw gap line := by
  have hzero : (line.map fun it => flexWidth wrap (flexFree cw gap line) (growSum line)
      (shrinkSum line) it - it.base) = line.map fun _ => 0 :=
    List.map_congr_left fun it _ => by rw [hw, Int.sub_self]
  unfold flexPlaced
  rw [outer_eq cw, hzero, List.map_const', List.sum_replicate, nsmul_eq_mul, mul_zero,
    add_zero]

/-- **No width is changed.** -/
theorem conserves_unchanged (hw : ∀ it,
      flexWidth wrap (flexFree cw gap line) (growSum line) (shrinkSum line) it = it.base) :
    Conserves cw gap wrap (flexPlaced cw gap wrap line) ↔
      (0 < flexFree cw gap line → (∃ it ∈ line, 0 < it.grow) →
        flexFree cw gap line < line.length) ∧
      (wrap = false → flexFree cw gap line < 0 → ∀ it ∈ line, 0 < it.weight → it.base ≤ it.mn) := by
  have houter := outer_unchanged hw
  have hlen : (flexPlaced cw gap wrap line).length = line.length := List.length_map ..
  have hmem : ∀ it ∈ line, (it, it.base) ∈ flexPlaced cw gap wrap line := fun it hit =>
    List.mem_map.mpr ⟨it, hit, by rw [hw]⟩
  have hback : ∀ p ∈ flexPlaced cw gap wrap line, p.1 ∈ line ∧ p.2 = p.1.base := fun p hp => by
    obtain ⟨it, hit, rfl⟩ := List.mem_map.mp hp
    exact ⟨hit, hw it⟩
  constructor
  · rintro ⟨-, hf, hs⟩
    rw [placed_fst, hlen, houter] at hf
    rw [placed_fst, houter] at hs
    refine ⟨fun hfree ⟨it, hit, hpos⟩ => ?_, fun hwrap hfree it hit hpos => ?_⟩
    · have := (hf hfree ⟨_, hmem it hit, hpos⟩).1
      omega
    · have := hs hwrap hfree (by omega) _ (hmem it hit) hpos
      unfold FlexItem.least at this
      dsimp only at this
      omega
  · rintro ⟨hf, hs⟩
    refine ⟨fun p hp => ?_, fun hfree ⟨p, hp, hpos⟩ => ?_, fun hwrap hfree _ p hp hpos => ?_⟩
    · rw [(hback p hp).2]
      exact ⟨p.1.base_nonneg, p.1.least_le⟩
    · rw [placed_fst] at hfree
      have := hf hfree ⟨p.1, (hback p hp).1, hpos⟩
      rw [hlen, houter]
      omega
    · rw [placed_fst] at hfree
      have := hs hwrap hfree p.1 (hback p hp).1 hpos
      rw [(hback p hp).2]
      unfold FlexItem.least
      omega

/-- **Space is missing, and it is taken from the items.** -/
theorem conserves_shrink (hwrap : wrap = false) (hfree : flexFree cw gap line < 0)
    (hts : 0 < shrinkSum line) :
    Conserves cw gap wrap (flexPlaced cw gap wrap line) ↔
      (∀ it ∈ line, 0 ≤ it.mn ∨
        flexNeed (flexFree cw gap line) * it.weight < (it.base + 1) * shrinkSum line) ∧
      (-flexFree cw gap line ≤
          (line.map fun it =>
            min (flexCut (flexFree cw gap line) (shrinkSum line) it) it.slack).sum ∨
        ∀ it ∈ line, 0 < it.weight →
          it.slack ≤ flexCut (flexFree cw gap line) (shrinkSum line) it) := by
  have hw : ∀ it, flexWidth wrap (flexFree cw gap line) (growSum line) (shrinkSum line) it =
      max it.least (it.base - flexCut (flexFree cw gap line) (shrinkSum line) it) := fun it => by
    have hno : ¬ (flexFree cw gap line > 0 ∧ growSum line > 0) := fun h => by omega
    have hyes : flexFree cw gap line < 0 ∧ shrinkSum line > 0 ∧ ¬ wrap = true :=
      ⟨hfree, hts, by rw [hwrap]; exact Bool.false_ne_true⟩
    unfold flexWidth
    rw [if_neg hno, if_pos hyes]
  have houter : flexOuter gap (flexPlaced cw gap wrap line) = cw - flexFree cw gap line -
      (line.map fun it =>
        min (flexCut (flexFree cw gap line) (shrinkSum line) it) it.slack).sum := by
    have hsum : (line.map fun it => flexWidth wrap (flexFree cw gap line) (growSum line)
        (shrinkSum line) it - it.base).sum + (line.map fun it =>
          min (flexCut (flexFree cw gap line) (shrinkSum line) it) it.slack).sum =
        (line.map fun _ => (0 : ℤ)).sum := by
      rw [← List.sum_map_add]
      refine congrArg List.sum (List.map_congr_left fun it _ => ?_)
      rw [hw, base_sub_width]
      omega
    rw [List.map_const', List.sum_replicate, nsmul_eq_mul, mul_zero] at hsum
    unfold flexPlaced
    rw [outer_eq cw]
    omega
  have hmem : ∀ it ∈ line,
      (it, max it.least (it.base - flexCut (flexFree cw gap line) (shrinkSum line) it)) ∈
        flexPlaced cw gap wrap line := fun it hit => List.mem_map.mpr ⟨it, hit, by rw [hw]⟩
  have hnonneg : ∀ it : FlexItem,
      0 ≤ max it.least (it.base - flexCut (flexFree cw gap line) (shrinkSum line) it) ↔
      (0 ≤ it.mn ∨
        flexNeed (flexFree cw gap line) * it.weight < (it.base + 1) * shrinkSum line) := fun it => by
    rw [← tdiv_le_iff hts it.base_nonneg]
    have := it.base_nonneg
    show _ ↔ _ ∨ flexCut (flexFree cw gap line) (shrinkSum line) it ≤ _
    unfold FlexItem.least
    omega
  have hatleast : ∀ it : FlexItem,
      max it.least (it.base - flexCut (flexFree cw gap line) (shrinkSum line) it) = it.least ↔
        it.slack ≤ flexCut (flexFree cw gap line) (shrinkSum line) it := fun it => by
    unfold FlexItem.slack
    omega
  constructor
  · rintro ⟨hl, -, hs⟩
    refine ⟨fun it hit => (hnonneg it).mp (hl _ (hmem it hit)).1, ?_⟩
    by_cases hfits : flexOuter gap (flexPlaced cw gap wrap line) ≤ cw
    · exact .inl (by omega)
    · rw [placed_fst] at hs
      exact .inr fun it hit hpos =>
        (hatleast it).mp (hs hwrap hfree (by omega) _ (hmem it hit) hpos)
  · rintro ⟨hl, hs⟩
    refine ⟨fun p hp => ?_, fun hpos => ?_, fun _ _ hover p hp hpos => ?_⟩
    · obtain ⟨it, hit, rfl⟩ := List.mem_map.mp hp
      show 0 ≤ flexWidth .. ∧ it.least ≤ flexWidth ..
      rw [hw]
      exact ⟨(hnonneg it).mpr (hl it hit), le_max_left ..⟩
    · rw [placed_fst] at hpos
      omega
    · obtain ⟨it, hit, rfl⟩ := List.mem_map.mp hp
      show flexWidth .. = it.least
      rw [hw]
      obtain hs | hs := hs
      · omega
      · exact (hatleast it).mpr (hs it hit hpos)

/-- **One line.** -/
theorem line_conserves_iff (cw gap : ℤ) (wrap : Bool) (line behind : List FlexItem) :
    (∃ ws, flexLine cw gap wrap line behind = some ws ∧ Conserves cw gap wrap ws) ↔
      Sound cw gap wrap line behind := by
  unfold flexLine
  by_cases hints : ∀ x ∈ flexInts cw gap wrap line behind, Fits 0x80000000 x
  case neg =>
    rw [if_neg hints]
    exact iff_of_false (fun ⟨_, h, _⟩ => nomatch h) fun h => hints h.ints
  rw [if_pos hints]
  have hone : (∃ ws, some (line.map fun it => (it, flexWidth wrap (flexFree cw gap line)
        (growSum line) (shrinkSum line) it)) = some ws ∧ Conserves cw gap wrap ws) ↔
      Conserves cw gap wrap (flexPlaced cw gap wrap line) :=
    ⟨fun ⟨_, h, hc⟩ => by rwa [← Option.some.inj h] at hc, fun hc => ⟨_, rfl, hc⟩⟩
  rw [hone]
  by_cases hgrow : 0 < flexFree cw gap line ∧ 0 < growSum line
  · rw [conserves_grow hgrow.1 hgrow.2]
    refine ⟨fun h => ⟨hints, fun _ _ => h, ?_, ?_, ?_⟩, fun h => h.grows hgrow.1 hgrow.2⟩
    · intro _ hle
      omega
    · intro _ hlt
      omega
    · intro _ hlt
      omega
  by_cases hshrink : flexFree cw gap line < 0 ∧ 0 < shrinkSum line ∧ wrap = false
  · obtain ⟨hfree, hts, hwrap⟩ := hshrink
    rw [conserves_shrink hwrap hfree hts]
    refine ⟨fun h => ⟨hints, ?_, ?_, fun _ _ _ => h, ?_⟩, fun h => h.shrinks hwrap hfree hts⟩
    · intro hpos
      omega
    · intro hpos
      omega
    · intro _ _ hle
      omega
  · have hw : ∀ it,
        flexWidth wrap (flexFree cw gap line) (growSum line) (shrinkSum line) it = it.base :=
      fun it => by
        have hno : ¬ (flexFree cw gap line < 0 ∧ shrinkSum line > 0 ∧ ¬ wrap = true) := fun h =>
          hshrink ⟨h.1, h.2.1, Bool.not_eq_true _ ▸ h.2.2⟩
        unfold flexWidth
        rw [if_neg hgrow, if_neg hno]
    rw [conserves_unchanged hw]
    refine ⟨fun h => ⟨hints, ?_, fun hpos _ => h.1 hpos, ?_, fun hwrap hneg _ => h.2 hwrap hneg⟩,
      fun h => ⟨fun hpos => h.idle hpos ?_, fun hwrap hneg => h.stuck hwrap hneg ?_⟩⟩
    · exact fun hpos htg => absurd ⟨hpos, htg⟩ hgrow
    · exact fun hwrap hneg hts => absurd ⟨hneg, hts, hwrap⟩ hshrink
    · exact Int.not_lt.mp fun htg => hgrow ⟨hpos, htg⟩
    · exact Int.not_lt.mp fun hts => hshrink ⟨hneg, hts, hwrap⟩

/-! ## A row -/

/-- A box without anything, that grows like this. -/
def growing (flex_grow : ℤ) : FlexChild :=
  .elem { margin_left := ⟨0, 0⟩, margin_right := ⟨0, 0⟩, padding_left := ⟨0, 0⟩,
          padding_right := ⟨0, 0⟩, bw_left := 0, bw_right := 0, width := ⟨0, cssAuto⟩,
          flex_basis := ⟨0, cssAuto⟩, box_sizing_border := false, flex_grow := flex_grow,
          flex_shrink := 10 } 0 0

end Css
