import Mathlib.Data.List.Range
import Mathlib.Data.Nat.Find
import Mathlib.Order.Basic

/-!
# Outlines

A tree as it is shown in rows: each row has the row of its parent and its depth, and what is below a
row is behind it. The rows below a row are one block (`block`). Rows that are all children of one
row may be put right behind it, or a block taken out: either way one outline is the other one with
rows in between (`Embeds`), and parents, depths and children are the same.
-/

/-- Rows with their parents and depths. Row 0 is the root. -/
structure Outline where
  n : ℕ
  parent : ℕ → ℕ
  depth : ℕ → ℕ

namespace Outline

variable {o s b : Outline} {i j k c : ℕ}

/-- The rows are those of a tree: a parent is in front of its row and one less deep, and what is
between the two is as deep as the row. -/
structure Laws (o : Outline) : Prop where
  pos : 0 < o.n
  root : o.depth 0 = 0
  parent_lt : ∀ j, 0 < j → j < o.n → o.parent j < j
  depth_eq : ∀ j, 0 < j → j < o.n → o.depth j = o.depth (o.parent j) + 1
  nested : ∀ j k, 0 < j → j < o.n → o.parent j < k → k < j → o.depth j ≤ o.depth k

/-- The rows below a row. -/
inductive Below (o : Outline) (i : ℕ) : ℕ → Prop
  | child {j : ℕ} (h0 : 0 < j) (hj : j < o.n) (h : o.parent j = i) : Below o i j
  | deeper {j : ℕ} (h0 : 0 < j) (hj : j < o.n) (h : Below o i (o.parent j)) : Below o i j

/-- The children of a row. -/
def children (o : Outline) (i : ℕ) : List ℕ :=
  (List.range o.n).filter fun j => 0 < j ∧ o.parent j = i

theorem mem_children : j ∈ o.children i ↔ 0 < j ∧ j < o.n ∧ o.parent j = i := by
  simp only [children, List.mem_filter, List.mem_range, decide_eq_true_eq]
  tauto

theorem sorted_children (o : Outline) (i : ℕ) : (o.children i).Pairwise (· < ·) :=
  List.pairwise_lt_range.filter _

/-- Rows in their order are the children if they are the same rows. -/
theorem children_eq {l : List ℕ} (hl : l.Pairwise (· < ·))
    (hmem : ∀ j, j ∈ l ↔ 0 < j ∧ j < o.n ∧ o.parent j = i) : o.children i = l :=
  ((List.perm_ext_iff_of_nodup ((o.sorted_children i).imp Nat.ne_of_lt)
    (hl.imp Nat.ne_of_lt)).mpr fun j => mem_children.trans (hmem j).symm).eq_of_pairwise
    (fun _ _ _ _ h h' => absurd h' h.asymm) (o.sorted_children i) hl

theorem Laws.depth_le (h : o.Laws) (hj : j < o.n) : o.depth j ≤ j := by
  induction j using Nat.strong_induction_on with
  | _ j ih =>
    rcases Nat.eq_zero_or_pos j with rfl | h0
    · exact Nat.le_of_eq h.root
    · have hlt := h.parent_lt j h0 hj
      rw [h.depth_eq j h0 hj]
      exact (Nat.succ_le_succ (ih _ hlt (hlt.trans hj))).trans hlt

/-! ## What is below a row -/

theorem Laws.below_iff (h : o.Laws) :
    o.Below i j ↔ i < j ∧ j < o.n ∧ ∀ k, i < k → k ≤ j → o.depth i < o.depth k := by
  constructor
  · intro hbelow
    induction hbelow with
    | @child j h0 hj hp =>
      have hdepth := h.depth_eq j h0 hj
      rw [hp] at hdepth
      refine ⟨hp ▸ h.parent_lt j h0 hj, hj, fun k hik hkj => ?_⟩
      rcases Nat.lt_or_eq_of_le hkj with hlt | rfl
      · have := h.nested j k h0 hj (hp ▸ hik) hlt
        omega
      · omega
    | @deeper j h0 hj _ ih =>
      obtain ⟨hi, -, hall⟩ := ih
      have hlt := h.parent_lt j h0 hj
      have hdepth := h.depth_eq j h0 hj
      have hparent := hall _ hi (Nat.le_refl _)
      refine ⟨hi.trans hlt, hj, fun k hik hkj => ?_⟩
      rcases Nat.lt_or_ge (o.parent j) k with hpk | hkp
      · rcases Nat.lt_or_eq_of_le hkj with hlt' | rfl
        · have := h.nested j k h0 hj hpk hlt'
          omega
        · omega
      · exact hall k hik hkp
  · rintro ⟨hij, hj, hall⟩
    induction j using Nat.strong_induction_on with
    | _ j ih =>
      have h0 : 0 < j := Nat.zero_lt_of_lt hij
      have hlt := h.parent_lt j h0 hj
      have hdeep := hall j hij (Nat.le_refl _)
      rcases Nat.lt_trichotomy (o.parent j) i with hpi | hpi | hpi
      · have := h.nested j i h0 hj hpi hij
        omega
      · exact .child h0 hj hpi
      · exact .deeper h0 hj (ih _ hlt hpi (hlt.trans hj) fun k hik hkp =>
          hall k hik (hkp.trans hlt.le))

/-- Deeper rows as far as they go are the rows below a row. -/
theorem Laws.below_iff_between (h : o.Laws) (hk : i + k < o.n)
    (hdeep : ∀ m, i < m → m ≤ i + k → o.depth i < o.depth m)
    (hend : i + k + 1 = o.n ∨ o.depth (i + k + 1) ≤ o.depth i) :
    o.Below i j ↔ i < j ∧ j ≤ i + k := by
  rw [h.below_iff]
  constructor
  · rintro ⟨hij, hj, hall⟩
    refine ⟨hij, Nat.le_of_not_lt fun hlt => ?_⟩
    rcases hend with hend | hend
    · omega
    · exact absurd (hall (i + k + 1) (by omega) hlt) (Nat.not_lt_of_le hend)
  · rintro ⟨hij, hjk⟩
    exact ⟨hij, hjk.trans_lt hk, fun m him hmj => hdeep m him (hmj.trans hjk)⟩

/-- **The rows below a row are one block right behind it.** -/
theorem Laws.block (h : o.Laws) (hi : i < o.n) :
    ∃ k, i + k < o.n ∧ ∀ j, o.Below i j ↔ i < j ∧ j ≤ i + k := by
  have hex : ∃ k, i + k + 1 = o.n ∨ o.depth (i + k + 1) ≤ o.depth i :=
    ⟨o.n - i - 1, .inl (by omega)⟩
  have hmin (k : ℕ) (hk : k < Nat.find hex) :
      i + k + 1 ≠ o.n ∧ o.depth i < o.depth (i + k + 1) := by
    have := Nat.find_min hex hk
    omega
  have hlt : i + Nat.find hex < o.n := by
    by_contra hge
    exact (hmin (o.n - i - 1) (by omega)).1 (by omega)
  refine ⟨_, hlt, fun j => h.below_iff_between hlt (fun m him hmi => ?_) (Nat.find_spec hex)⟩
  have := (hmin (m - i - 1) (by omega)).2
  rwa [show i + (m - i - 1) + 1 = m by omega] at this

/-! ## Rows in between -/

/-- Where a row is after `c` rows have been put behind row `i`. -/
def shift (i c j : ℕ) : ℕ := if j ≤ i then j else j + c

theorem shift_of_le (h : j ≤ i) : shift i c j = j := if_pos h

theorem shift_of_lt (h : i < j) : shift i c j = j + c := if_neg (Nat.not_le_of_lt h)

theorem shift_lt_shift : shift i c j < shift i c k ↔ j < k := by
  unfold shift
  split <;> split <;> omega

theorem shift_injective : Function.Injective (shift i c) := fun j k h => by
  unfold shift at h
  split at h <;> split at h <;> omega

theorem shift_pos : 0 < shift i c j ↔ 0 < j := by
  unfold shift
  split <;> omega

/-- A row is one that was there before, or one of those in between. -/
theorem shift_or (m : ℕ) : (∃ j, m = shift i c j) ∨ i < m ∧ m ≤ i + c := by
  rcases Nat.lt_or_ge i m with him | hmi
  · rcases Nat.lt_or_ge (i + c) m with hm | hm
    · exact .inl ⟨m - c, by rw [shift_of_lt (by omega)]; omega⟩
    · exact .inr ⟨him, hm⟩
  · exact .inl ⟨m, (shift_of_le hmi).symm⟩

theorem shift_not_between (h : i < shift i c j) : i + c < shift i c j := by
  unfold shift at h ⊢
  split at h <;> split <;> omega

/-- **One outline is the other one with `c` rows behind row `i`.** -/
structure Embeds (s b : Outline) (i c : ℕ) : Prop where
  row : i < s.n
  n_eq : b.n = s.n + c
  depth_eq : ∀ j < s.n, b.depth (shift i c j) = s.depth j
  parent_eq : ∀ j, 0 < j → j < s.n → b.parent (shift i c j) = shift i c (s.parent j)

namespace Embeds

variable (e : Embeds s b i c)
include e

theorem shift_lt : shift i c j < b.n ↔ j < s.n := by
  have := e.row
  rw [e.n_eq]
  unfold shift
  split <;> omega

/-- The children of any other row are the same. -/
theorem children_shift (hnew : ∀ m, i < m → m ≤ i + c → i ≤ b.parent m ∧ b.parent m ≤ i + c)
    (hji : j ≠ i) :
    b.children (shift i c j) = (s.children j).map (shift i c) := by
  refine children_eq ((List.pairwise_map.mpr ((s.sorted_children j).imp
    fun h => shift_lt_shift.mpr h))) fun m => ?_
  simp only [List.mem_map, mem_children]
  constructor
  · rintro ⟨k, ⟨h0, hk, hp⟩, rfl⟩
    exact ⟨shift_pos.mpr h0, e.shift_lt.mpr hk, by rw [e.parent_eq k h0 hk, hp]⟩
  · rintro ⟨h0, hm, hp⟩
    rcases shift_or (i := i) (c := c) m with ⟨k, rfl⟩ | ⟨him, hmi⟩
    · have hk0 := shift_pos.mp h0
      have hk := e.shift_lt.mp hm
      rw [e.parent_eq k hk0 hk] at hp
      exact ⟨k, ⟨hk0, hk, shift_injective hp⟩, rfl⟩
    · -- the parent of a row in between is in between, or row `i`
      exfalso
      obtain ⟨hle, hle'⟩ := hnew m him hmi
      rw [hp] at hle hle'
      rcases Nat.lt_or_eq_of_le hle with hlt | heq
      · exact absurd (shift_not_between hlt) (Nat.not_lt_of_le hle')
      · exact hji (shift_injective (heq.symm.trans (shift_of_le (Nat.le_refl i)).symm))

/-- **A block that goes leaves an outline.** -/
theorem laws_small (h : b.Laws) : s.Laws where
  pos := Nat.zero_lt_of_lt e.row
  root := by
    rw [← e.depth_eq 0 (Nat.zero_lt_of_lt e.row), shift_of_le (Nat.zero_le i), h.root]
  parent_lt j h0 hj := by
    have := h.parent_lt _ (shift_pos.mpr h0) (e.shift_lt.mpr hj)
    rw [e.parent_eq j h0 hj] at this
    exact shift_lt_shift.mp this
  depth_eq j h0 hj := by
    have hlt := h.parent_lt _ (shift_pos.mpr h0) (e.shift_lt.mpr hj)
    have hdepth := h.depth_eq _ (shift_pos.mpr h0) (e.shift_lt.mpr hj)
    rw [e.parent_eq j h0 hj] at hlt hdepth
    rwa [e.depth_eq j hj, e.depth_eq _ ((shift_lt_shift.mp hlt).trans hj)] at hdepth
  nested j k h0 hj hpk hkj := by
    have := h.nested _ (shift i c k) (shift_pos.mpr h0) (e.shift_lt.mpr hj)
      (by rw [e.parent_eq j h0 hj]; exact shift_lt_shift.mpr hpk) (shift_lt_shift.mpr hkj)
    rwa [e.depth_eq j hj, e.depth_eq k (hkj.trans hj)] at this

/-- **Children put behind a row without children make an outline.** -/
theorem laws_big (h : s.Laws) (hempty : s.children i = [])
    (hparent : ∀ m, i < m → m ≤ i + c → b.parent m = i)
    (hdepth : ∀ m, i < m → m ≤ i + c → b.depth m = s.depth i + 1) : b.Laws := by
  have hroot : b.depth i = s.depth i := by
    have := e.depth_eq i e.row
    rwa [shift_of_le (Nat.le_refl i)] at this
  refine ⟨?_, ?_, fun m h0 hm => ?_, fun m h0 hm => ?_, fun m k h0 hm hpk hkm => ?_⟩
  · rw [e.n_eq]
    exact Nat.add_pos_left h.pos c
  · have := e.depth_eq 0 h.pos
    rwa [shift_of_le (Nat.zero_le i), h.root] at this
  · rcases shift_or (i := i) (c := c) m with ⟨j, rfl⟩ | ⟨him, hmi⟩
    · have hj0 := shift_pos.mp h0
      have hj := e.shift_lt.mp hm
      rw [e.parent_eq j hj0 hj]
      exact shift_lt_shift.mpr (h.parent_lt j hj0 hj)
    · rwa [hparent m him hmi]
  · rcases shift_or (i := i) (c := c) m with ⟨j, rfl⟩ | ⟨him, hmi⟩
    · have hj0 := shift_pos.mp h0
      have hj := e.shift_lt.mp hm
      rw [e.parent_eq j hj0 hj, e.depth_eq j hj,
        e.depth_eq _ ((h.parent_lt j hj0 hj).trans hj), h.depth_eq j hj0 hj]
    · rw [hparent m him hmi, hdepth m him hmi, hroot]
  · rcases shift_or (i := i) (c := c) m with ⟨j, rfl⟩ | ⟨him, hmi⟩
    · have hj0 := shift_pos.mp h0
      have hj := e.shift_lt.mp hm
      rw [e.parent_eq j hj0 hj] at hpk
      rw [e.depth_eq j hj]
      rcases shift_or (i := i) (c := c) k with ⟨k, rfl⟩ | ⟨hik, hki⟩
      · have hkj := shift_lt_shift.mp hkm
        rw [e.depth_eq k (hkj.trans hj)]
        exact h.nested j k hj0 hj (shift_lt_shift.mp hpk) hkj
      · -- the parent of row `j` is in front of row `i`, which has no children
        have hij : i < j := by
          by_contra hle
          rw [shift_of_le (Nat.not_lt.mp hle)] at hkm
          omega
        have hpi : s.parent j ≤ i := by
          by_contra hlt
          rw [shift_of_lt (Nat.not_le.mp hlt)] at hpk
          omega
        have hne : s.parent j ≠ i := fun hp => by
          have hmem := mem_children.mpr ⟨hj0, hj, hp⟩
          rw [hempty] at hmem
          exact absurd hmem List.not_mem_nil
        have hle := h.nested j i hj0 hj (Nat.lt_of_le_of_ne hpi hne) hij
        rw [hdepth k hik hki]
        omega
    · rw [hparent m him hmi] at hpk
      rw [hdepth m him hmi, hdepth k hpk (by omega)]

/-- The rows in between are the children. -/
theorem children_new (hempty : s.children i = [])
    (hparent : ∀ m, i < m → m ≤ i + c → b.parent m = i) :
    b.children i = (List.range c).map fun k => i + 1 + k := by
  refine children_eq ?_ fun m => ?_
  · rw [List.pairwise_map]
    exact List.pairwise_lt_range.imp fun h => Nat.add_lt_add_left h _
  simp only [List.mem_map, List.mem_range]
  constructor
  · rintro ⟨k, hk, rfl⟩
    have := e.row
    refine ⟨by omega, ?_, hparent _ (by omega) (by omega)⟩
    rw [e.n_eq]
    omega
  · rintro ⟨h0, hm, hp⟩
    rcases shift_or (i := i) (c := c) m with ⟨j, rfl⟩ | ⟨him, hmi⟩
    · have hj0 := shift_pos.mp h0
      have hj := e.shift_lt.mp hm
      rw [e.parent_eq j hj0 hj] at hp
      have hp := shift_injective (hp.trans (shift_of_le (Nat.le_refl i)).symm)
      have hmem := mem_children.mpr ⟨hj0, hj, hp⟩
      rw [hempty] at hmem
      exact absurd hmem List.not_mem_nil
    · exact ⟨m - (i + 1), by omega, by omega⟩

/-- They have none themselves. -/
theorem children_between (hparent : ∀ m, i < m → m ≤ i + c → b.parent m = i) (hij : i < j)
    (hji : j ≤ i + c) : b.children j = [] := by
  refine List.eq_nil_iff_forall_not_mem.mpr fun m hm => ?_
  obtain ⟨h0, hm, hp⟩ := mem_children.mp hm
  rcases shift_or (i := i) (c := c) m with ⟨k, rfl⟩ | ⟨him, hmi⟩
  · rw [e.parent_eq k (shift_pos.mp h0) (e.shift_lt.mp hm)] at hp
    have := shift_not_between (hp ▸ hij)
    omega
  · rw [hparent m him hmi] at hp
    omega

end Embeds

end Outline
