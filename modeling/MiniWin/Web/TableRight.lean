import MiniWin.Web.Table
import Mathlib.Algebra.Order.BigOperators.Group.List
import Mathlib.Algebra.BigOperators.Ring.List
import Mathlib.Tactic.Linarith

/-!
# When table columns add up

Without bounds they always do. So they do on the machine, if what the columns ask for and get fits a
`short`: the condition says what that comes to.
-/

namespace Css

open Function Calc Narrow

/-! ## What is meant -/

/-- **The columns add up**: each is as wide as its cells need, together they make up the table, the
table is not wider than there is room, unless its columns need it, and a cell goes from where its
first column begins to where its last one ends. -/
structure AddsUp (avail : ℤ) (st : TableStyle) (t : Table) : Prop where
  columns : ∀ c < t.ncols, 0 ≤ t.colmin c ∧ t.colmin c ≤ t.colw c
  sum : total t.colw t.ncols + st.spx * (t.ncols + 1) + st.tbh avail = t.W
  width : t.W ≤ max
    (avail - autoMargin st.margin_left avail - autoMargin st.margin_right avail)
    (total t.colmin t.ncols + st.spx * (t.ncols + 1) + st.tbh avail)
  cells : ∀ c ∈ t.cells, 0 < c.cs ∧ c.col + c.cs ≤ t.ncols ∧ ∀ x,
    t.colx st.spx x c.col + t.cwtot st.spx c =
      t.colx st.spx x (c.col + c.cs - 1) + t.colw (c.col + c.cs - 1)
  places : ∀ c ∈ t.cells, c.row < tbMaxR ∧ c.col + c.cs ≤ tbMaxCol ∧ c.rs ≤ 255 ∧
    Fits 0x8000 (c.row + c.rs : ℕ)

/-- **The condition**: what is asked for, and what a column gets of the space that is left, is small
enough. -/
structure Roomy (avail : ℤ) (st : TableStyle) (g : Grid) (s : Cols) (a : TableAsk) : Prop where
  /-- No cell is less than nothing by much. -/
  cells : ∀ c ∈ g.cells, -0x8000 ≤ c.cmin ∧ -0x8000 ≤ c.cmax
  /-- With a negative spacing, a spanning cell may ask a lot of its columns. -/
  spread : ∀ c, s.colmin c < 0x8000 ∧ s.colmax c < 0x8000
  margins : Fits 0x80000000 (avail - autoMargin st.margin_left avail) ∧
    Fits 0x80000000 (avail - autoMargin st.margin_left avail - autoMargin st.margin_right avail)
  percent : ∀ c < a.ncols, a.target * a.colpct c < 1000 * 0x8000
  grows : a.declared → a.summax < a.target → ∀ c < a.ncols,
    (a.target - a.summax) * a.colmax c < 0x80000000 ∧
      a.colmax c + (a.share (a.target - a.summax) c).value < 0x8000
  shrinks : a.summin < a.target → a.target < a.summax → ∀ c < a.ncols,
    (a.colmax c - a.colmin c) * (a.target - a.summin) < 0x80000000
  /-- The last column gets what the others leave. -/
  last : 0 < a.ncols → a.summin < a.target → a.declared ∨ a.target < a.summax →
    a.target - total (fun c => (a.width c).value) (a.ncols - 1) < 0x8000

/-! ## Sums -/

variable {f g : ℕ → ℤ} {n : ℕ}

@[simp] theorem total_zero (f : ℕ → ℤ) : total f 0 = 0 := rfl

@[simp] theorem total_succ (f : ℕ → ℤ) (n : ℕ) : total f (n + 1) = total f n + f n := by
  unfold total
  rw [List.range_succ, List.map_append, List.sum_append, List.map_singleton, List.sum_singleton]

theorem total_congr (h : ∀ c < n, f c = g c) : total f n = total g n :=
  congrArg List.sum (List.map_congr_left fun c hc => h c (List.mem_range.mp hc))

theorem total_le (h : ∀ c < n, f c ≤ g c) : total f n ≤ total g n :=
  List.sum_le_sum fun c hc => h c (List.mem_range.mp hc)

theorem total_nonneg (h : ∀ c < n, 0 ≤ f c) : 0 ≤ total f n := by
  refine List.sum_nonneg fun x hx => ?_
  obtain ⟨c, hc, rfl⟩ := List.mem_map.mp hx
  exact h c (List.mem_range.mp hc)

theorem total_const (x : ℤ) (n : ℕ) : total (fun _ => x) n = n * x := by
  unfold total
  rw [List.map_const', List.sum_replicate, List.length_range, nsmul_eq_mul]

theorem total_lt {m : ℕ} (h : ∀ c < n, f c < m) : total f n ≤ n * m :=
  (total_le fun c hc => (h c hc).le).trans_eq (total_const ..)

theorem le_total (h : ∀ c < n, 0 ≤ f c) {c : ℕ} (hc : c < n) : f c ≤ total f n := by
  induction n with
  | zero => exact absurd hc (Nat.not_lt_zero c)
  | succ n ih =>
    have hn := h n (Nat.lt_succ_self n)
    have hrest := total_nonneg fun c (hc : c < n) => h c (Nat.lt_succ_of_lt hc)
    rw [total_succ]
    rcases Nat.lt_succ_iff_lt_or_eq.mp hc with hlt | rfl
    · have := ih (fun c hc => h c (Nat.lt_succ_of_lt hc)) hlt
      omega
    · omega

theorem total_add (f g : ℕ → ℤ) (n : ℕ) : total (fun c => f c + g c) n = total f n + total g n :=
  List.sum_map_add

theorem total_sub (f g : ℕ → ℤ) (n : ℕ) : total (fun c => f c - g c) n = total f n - total g n := by
  rw [eq_sub_iff_add_eq, ← total_add]
  exact total_congr fun c _ => Int.sub_add_cancel ..

/-- **Shares by rounded division** do not exceed what is divided. -/
theorem total_tdiv_le (f : ℕ → ℤ) {x : ℤ} (hx : 0 ≤ x) (hf : ∀ c < n, 0 ≤ f c)
    (ht : 0 < total f n) : total (fun c => (x * f c).tdiv (total f n)) n ≤ x := by
  refine Int.le_of_mul_le_mul_left (a := total f n) ?_ ht
  have hmul : ∀ d, d * total f n = total (fun c => d * f c) n := fun d =>
    (List.sum_map_mul_left ..).symm
  calc total f n * total (fun c => (x * f c).tdiv (total f n)) n
      = total (fun c => total f n * (x * f c).tdiv (total f n)) n := (List.sum_map_mul_left ..).symm
    _ ≤ total (fun c => x * f c) n := total_le fun c hc => by
        rw [Int.tdiv_eq_ediv_of_nonneg (Int.mul_nonneg hx (hf c hc))]
        exact Int.mul_ediv_self_le ht.ne'
    _ = total f n * x := by rw [← hmul, Int.mul_comm]

/-! ## Cells -/

/-- A cell that the casts keep. -/
def Cell.Low (c : Cell) : Prop := -0x8000 ≤ c.cmin ∧ -0x8000 ≤ c.cmax

/-- What holds of every cell, in a table with these columns. -/
structure Cell.Sane (ncols : ℕ) (c : Cell) : Prop where
  row : c.row < tbMaxR
  span : c.col + c.cs ≤ ncols
  rs : c.rs ≤ 255
  cmin : c.cmin ≤ 30000
  cmax : c.cmax ≤ 30000
  fixed : 0 ≤ c.fixed ∧ c.fixed ≤ 4000

theorem Cell.Sane.mono {ncols m : ℕ} {c : Cell} (h : c.Sane ncols) (hm : ncols ≤ m) : c.Sane m :=
  { h with span := h.span.trans hm }

theorem toShort_value (x : ℤ) : (toShort x).value = x := rfl

theorem toShort_fine (x : ℤ) : (toShort x).Fine ↔ Fits 0x8000 x := fine_cast ..

theorem toInt_value (x : ℤ) : (toInt x).value = x := rfl

theorem toInt_fine (x : ℤ) : (toInt x).Fine ↔ Fits 0x80000000 x := fine_op ..

theorem CellIn.fixed_spec (c : CellIn) :
    c.fixed.Fine ∧ 0 ≤ c.fixed.value ∧ c.fixed.value ≤ 4000 := by
  unfold CellIn.fixed
  split
  · exact ⟨trivial, le_rfl, by decide⟩
  · rw [toShort_fine, toShort_value]
    unfold Fits
    omega

theorem placeCell_fine (nr : ℕ) (k : Fin tbMaxCol) (c : CellIn) :
    (placeCell nr k c).Fine ↔ (placeCell nr k c).value.Low := by
  have hfixed := c.fixed_spec.1
  unfold placeCell Cell.Low
  simp only [fine_bind, fine_pure, value_bind, value_pure, toShort_value, toShort_fine, hfixed,
    and_true]
  unfold Fits
  omega

/-- Where a cell is placed. -/
theorem placeCell_at (nr : ℕ) (k : Fin tbMaxCol) (c : CellIn) :
    (placeCell nr k c).value.col = k := by
  unfold placeCell
  simp only [value_bind, value_pure]

theorem placeCell_sane {nr ncols : ℕ} (hnr : nr < tbMaxR) (k : Fin tbMaxCol) (c : CellIn)
    (h : k + (placeCell nr k c).value.cs ≤ ncols) : (placeCell nr k c).value.Sane ncols := by
  obtain ⟨-, hfixed⟩ := c.fixed_spec
  unfold placeCell at *
  simp only [value_bind, value_pure, toShort_value] at *
  refine ⟨hnr, h, ?_, min_le_right .., min_le_right .., hfixed⟩
  show c.rspan ≤ 255
  unfold CellIn.rspan
  omega

/-- **What placing cells does**: it adds some behind those that there are, it calculates without a
mistake if they are kept by the casts, and the columns are enough for them. -/
structure Placed (p : Calc Grid) (g : Grid) (new : List Cell) : Prop where
  cells : p.value.cells = g.cells ++ new
  fine : p.Fine ↔ ∀ c ∈ new, c.Low
  sane : ∀ c ∈ new, c.Sane p.value.ncols
  ncols : g.ncols ≤ p.value.ncols
  bound : g.ncols ≤ tbMaxCol → p.value.ncols ≤ tbMaxCol

theorem Placed.refl (g : Grid) : Placed (pure g) g [] where
  cells := (List.append_nil _).symm
  fine := iff_of_true trivial nofun
  sane := nofun
  ncols := le_rfl
  bound := id

theorem Placed.trans {α : Type} {p : Calc α} {f : α → Calc Grid} {g g' : Grid}
    {new more : List Cell} (hcells : g'.cells = g.cells ++ new) (hfine : p.Fine ↔ ∀ c ∈ new, c.Low)
    (hsane : ∀ c ∈ new, c.Sane g'.ncols) (hncols : g.ncols ≤ g'.ncols)
    (hbound : g.ncols ≤ tbMaxCol → g'.ncols ≤ tbMaxCol) (h : Placed (f p.value) g' more) :
    Placed (p >>= f) g (new ++ more) := by
  refine ⟨?_, ?_, ?_, ?_, ?_⟩
  · rw [value_bind, h.cells, hcells, List.append_assoc]
  · rw [fine_bind, h.fine, hfine, List.forall_mem_append]
  · rw [value_bind]
    exact List.forall_mem_append.mpr ⟨fun c hc => (hsane c hc).mono h.ncols, h.sane⟩
  · rw [value_bind]
    exact hncols.trans h.ncols
  · rw [value_bind]
    exact fun hg => h.bound (hbound hg)

theorem placeRow_placed {nr : ℕ} (hnr : nr < tbMaxR) (row : List CellIn) :
    ∀ (col : ℕ) (g : Grid), ∃ new, Placed (placeRow nr col row g) g new := by
  induction row with
  | nil => exact fun _ g => ⟨[], .refl g⟩
  | cons c rest ih =>
    intro col g
    unfold placeRow
    split
    · exact ih col g
    split
    · exact ⟨[], .refl g⟩
    · next k _ =>
      have hfine := placeCell_fine nr k c
      have hsane := @placeCell_sane nr (max g.ncols (k + (placeCell nr k c).value.cs)) hnr k c
        (le_max_right ..)
      have hinside := (placeCell nr k c).value.inside
      rw [placeCell_at] at hinside
      obtain ⟨more, hmore⟩ := ih _ _
      refine ⟨[(placeCell nr k c).value] ++ more, Placed.trans rfl ?_ ?_ ?_ ?_ hmore⟩
      · rw [hfine, List.forall_mem_singleton]
      · exact List.forall_mem_singleton.mpr hsane
      · exact le_max_left ..
      · exact fun hg => max_le hg hinside

theorem placeRows_placed (rows : List (List CellIn)) :
    ∀ (nr : ℕ) (g : Grid), nr + rows.length ≤ tbMaxR →
      ∃ new, Placed (placeRows nr rows g) g new := by
  induction rows with
  | nil => exact fun _ g _ => ⟨[], .refl g⟩
  | cons row rows ih =>
    intro nr g hlen
    rw [List.length_cons] at hlen
    obtain ⟨new, h⟩ := placeRow_placed (by omega : nr < tbMaxR) row 0 g
    obtain ⟨more, hmore⟩ := ih (nr + 1) (placeRow nr 0 row g).value (by omega)
    exact ⟨new ++ more, Placed.trans h.cells h.fine h.sane h.ncols h.bound hmore⟩

/-- **The cells of a table.** -/
theorem tableGrid_placed (rows : List (List CellIn)) :
    Placed (tableGrid rows) ⟨fun _ => 0, [], 0⟩ (tableGrid rows).value.cells := by
  obtain ⟨new, h⟩ := placeRows_placed (rows.take tbMaxR) 0 ⟨fun _ => 0, [], 0⟩ (by
    rw [Nat.zero_add]
    exact List.length_take_le ..)
  have hnew : (tableGrid rows).value.cells = new := h.cells
  rw [hnew]
  exact h

/-! ## Columns -/

/-- Below the bound of a `short`. -/
def Small (f : ℕ → ℤ) : Prop := ∀ c, f c < 0x8000

/-- What holds of the columns throughout. -/
structure Cols.Good (s : Cols) : Prop where
  colmin : ∀ c, 0 ≤ s.colmin c
  colmax : ∀ c, 0 ≤ s.colmax c
  colfix : ∀ c, 0 ≤ s.colfix c ∧ s.colfix c ≤ 4000
  colpct : ∀ c, 0 ≤ s.colpct c

/-- What a column of a spanning cell gets. -/
def Cell.part (c : Cell) (d : ℤ) (k : ℕ) : ℤ :=
  d.tdiv c.cs + if k + 1 = c.cs then d.tmod c.cs else 0

theorem Cell.part_nonneg (c : Cell) {d : ℤ} (hd : 0 ≤ d) (k : ℕ) : 0 ≤ c.part d k := by
  have hdiv := Int.tdiv_nonneg hd (Int.natCast_nonneg c.cs)
  have hmod := Int.tmod_nonneg c.cs hd
  unfold Cell.part
  split <;> omega

theorem spread_value (c : Cell) (d : ℤ) (f : ℕ → ℤ) (j : ℕ) :
    (spread c d f).value j =
      if c.col ≤ j ∧ j < c.col + c.cs then f j + c.part d (j - c.col) else f j := by
  unfold spread
  rw [value_fill]
  split
  · next h =>
    rw [value_bind, toShort_value, toShort_value, Nat.add_sub_cancel' h.1]
    rfl
  · rfl

/-- **Spreading** makes no mistake exactly if what comes of it is small. -/
theorem spread_fine (c : Cell) {d : ℤ} (hd : 0 ≤ d) {f : ℕ → ℤ} (hf : ∀ j, 0 ≤ f j)
    (hsmall : Small f) : (spread c d f).Fine ↔ Small (spread c d f).value := by
  have hvalue := spread_value c d f
  have hpart := c.part_nonneg hd
  have hfine : (spread c d f).Fine ↔
      ∀ k < c.cs, Fits 0x8000 (c.part d k) ∧ Fits 0x8000 (f (c.col + k) + c.part d k) := by
    unfold spread
    rw [fine_fill]
    simp only [fine_bind, toShort_fine, toShort_value]
    rfl
  rw [hfine]
  unfold Fits
  constructor
  · intro h j
    rw [hvalue]
    split
    · next hj =>
      have := (h (j - c.col) (by omega)).2.2
      rwa [Nat.add_sub_cancel' hj.1] at this
    · exact hsmall j
  · intro h k hk
    have hj := h (c.col + k)
    rw [hvalue, if_pos (by omega), Nat.add_sub_cancel_left] at hj
    have := hf (c.col + k)
    have := hpart k
    omega

theorem cover_le (spx : ℤ) (c : Cell) (want : ℤ) (f : ℕ → ℤ) (j : ℕ) :
    f j ≤ (c.cover spx want f).value j := by
  unfold Cell.cover
  split
  · next hlt =>
    rw [spread_value]
    have := c.part_nonneg (sub_nonneg.mpr hlt.le) (j - c.col)
    split <;> omega
  · exact le_rfl

theorem cover_fine (spx : ℤ) (c : Cell) (want : ℤ) {f : ℕ → ℤ} (hf : ∀ j, 0 ≤ f j)
    (hsmall : Small f) :
    (c.cover spx want f).Fine ↔ Small (c.cover spx want f).value := by
  unfold Cell.cover
  split
  · next hlt => exact spread_fine c (sub_nonneg.mpr hlt.le) hf hsmall
  · exact iff_of_true trivial hsmall

/-- **Spanning cells** only add to the columns, and make no mistake exactly if what comes of it is
small. -/
theorem spanning_spec (spx : ℤ) (cells : List Cell) (s : Cols) (hs : s.Good) :
    let p := cells.foldlM (Cols.spanning spx) s
    p.value.Good ∧ (∀ j, s.colmin j ≤ p.value.colmin j ∧ s.colmax j ≤ p.value.colmax j) ∧
      (Small s.colmin → Small s.colmax →
        (p.Fine ↔ Small p.value.colmin ∧ Small p.value.colmax)) := by
  induction cells generalizing s with
  | nil => exact ⟨hs, fun j => ⟨le_rfl, le_rfl⟩, fun hmin hmax => iff_of_true trivial ⟨hmin, hmax⟩⟩
  | cons c cells ih =>
    have hmin := cover_le spx c c.cmin s.colmin
    have hmax := cover_le spx c c.cmax s.colmax
    obtain ⟨s', hs'⟩ : ∃ s', (s.spanning spx c).value = s' := ⟨_, rfl⟩
    have hs'min : s'.colmin = (c.cover spx c.cmin s.colmin).value := by
      rw [← hs']
      unfold Cols.spanning
      simp only [value_bind, value_pure]
    have hs'max : s'.colmax = (c.cover spx c.cmax s.colmax).value := by
      rw [← hs']
      unfold Cols.spanning
      simp only [value_bind, value_pure]
    have hgood : s'.Good := by
      refine ⟨fun j => ?_, fun j => ?_, ?_, ?_⟩
      · rw [hs'min]
        exact (hs.colmin j).trans (hmin j)
      · rw [hs'max]
        exact (hs.colmax j).trans (hmax j)
      · rw [← hs']
        unfold Cols.spanning
        simp only [value_bind, value_pure]
        exact hs.colfix
      · rw [← hs']
        unfold Cols.spanning
        simp only [value_bind, value_pure]
        exact hs.colpct
    obtain ⟨hout, hle, hfine⟩ := ih s' hgood
    rw [List.foldlM_cons]
    simp only [value_bind, fine_bind, hs']
    refine ⟨hout, fun j => ?_, fun hsmin hsmax => ?_⟩
    · have := hle j
      rw [hs'min, hs'max] at this
      exact ⟨(hmin j).trans this.1, (hmax j).trans this.2⟩
    · have hstep : (s.spanning spx c).Fine ↔ Small s'.colmin ∧ Small s'.colmax := by
        rw [hs'min, hs'max, ← cover_fine spx c c.cmin hs.colmin hsmin,
          ← cover_fine spx c c.cmax hs.colmax hsmax]
        unfold Cols.spanning
        simp only [fine_bind, fine_pure, and_true]
      rw [hstep]
      constructor
      · rintro ⟨⟨hmin', hmax'⟩, hrest⟩
        exact (hfine hmin' hmax').mp hrest
      · intro h
        have hmin' : Small s'.colmin := fun j => (hle j).1.trans_lt (h.1 j)
        have hmax' : Small s'.colmax := fun j => (hle j).2.trans_lt (h.2 j)
        exact ⟨⟨hmin', hmax'⟩, (hfine hmin' hmax').mpr h⟩

/-- **Cells of one column** ask for no more than a cell can. -/
theorem single_spec (cells : List Cell) (hcells : ∀ c ∈ cells, ∃ n, c.Sane n) (s : Cols)
    (hs : s.Good) (hle : ∀ j, s.colmin j ≤ 30000 ∧ s.colmax j ≤ 30000) :
    (cells.foldl Cols.single s).Good ∧
      ∀ j, (cells.foldl Cols.single s).colmin j ≤ 30000 ∧
        (cells.foldl Cols.single s).colmax j ≤ 30000 := by
  induction cells generalizing s with
  | nil => exact ⟨hs, hle⟩
  | cons c cells ih =>
    obtain ⟨hc, hrest⟩ := List.forall_mem_cons.mp hcells
    obtain ⟨n, hc⟩ := hc
    have hpt : ∀ {f : ℕ → ℤ} {P : ℤ → Prop} {x : ℤ}, (∀ j, P (f j)) → P x →
        ∀ j, P (update f c.col x j) := fun hf hx j => by
      rcases eq_or_ne j c.col with rfl | hj
      · rwa [update_self]
      · rw [update_of_ne hj]
        exact hf j
    have hmin := hs.colmin c.col
    have hmax := hs.colmax c.col
    have hfix := hs.colfix c.col
    have hpct := hs.colpct c.col
    have hlec := hle c.col
    have hsane := hc.fixed
    have hcmin := hc.cmin
    have hcmax := hc.cmax
    refine ih hrest (s.single c) ⟨?_, ?_, ?_, ?_⟩ fun j => ⟨?_, ?_⟩
    · exact hpt (P := (0 ≤ ·)) hs.colmin (by omega)
    · exact hpt (P := (0 ≤ ·)) hs.colmax (by omega)
    · exact hpt (P := fun x => 0 ≤ x ∧ x ≤ 4000) hs.colfix (by omega)
    · exact hpt (P := (0 ≤ ·)) hs.colpct (by omega)
    · exact hpt (P := (· ≤ 30000)) (fun j => (hle j).1) (by omega) j
    · exact hpt (P := (· ≤ 30000)) (fun j => (hle j).2) (by omega) j

/-- **The cells together.** -/
theorem tableCols_spec (spx : ℤ) (cells : List Cell) (hcells : ∀ c ∈ cells, ∃ n, c.Sane n) :
    (tableCols spx cells).value.Good ∧
      ((tableCols spx cells).Fine ↔
        Small (tableCols spx cells).value.colmin ∧ Small (tableCols spx cells).value.colmax) := by
  obtain ⟨hgood, hle⟩ := single_spec (cells.filter (·.cs = 1))
    (fun c hc => hcells c (List.mem_of_mem_filter hc))
    ⟨fun _ => 0, fun _ => 0, fun _ => 0, fun _ => 0⟩
    ⟨fun _ => le_rfl, fun _ => le_rfl, fun _ => ⟨le_rfl, show (0 : ℤ) ≤ 4000 by decide⟩,
      fun _ => le_rfl⟩
    fun _ => ⟨show (0 : ℤ) ≤ 30000 by decide, show (0 : ℤ) ≤ 30000 by decide⟩
  obtain ⟨hout, -, hfine⟩ := spanning_spec spx (cells.filter (·.cs ≠ 1)) _ hgood
  exact ⟨hout,
    hfine (fun j => (hle j).1.trans_lt (by decide)) fun j => (hle j).2.trans_lt (by decide)⟩

theorem wide_value (s : Cols) (c : ℕ) :
    (s.wide c).value =
      if s.colfix c > 0 then max (s.colmin c) (s.colfix c) else max (s.colmax c) (s.colmin c) := by
  unfold Cols.wide
  rw [value_ite]
  rfl

/-- What a column wants to be after that. -/
theorem settle_colmax (s : Cols) (ncols j : ℕ) :
    (s.settle ncols).value.colmax j = if j < ncols then (s.wide j).value else s.colmax j := by
  unfold Cols.settle
  simp only [value_bind, value_pure]
  rw [value_fill, Nat.sub_zero]
  exact if_congr (by omega) rfl rfl

theorem settle_rest (s : Cols) (ncols : ℕ) :
    (s.settle ncols).value.colmin = s.colmin ∧ (s.settle ncols).value.colpct = s.colpct := by
  unfold Cols.settle
  simp only [value_bind, value_pure, and_self]

theorem wide_le {s : Cols} (c : ℕ) : s.colmin c ≤ (s.wide c).value := by
  rw [wide_value]
  split <;> omega

theorem wide_lt {s : Cols} (hs : s.Good) (hmin : Small s.colmin) (hmax : Small s.colmax) (c : ℕ) :
    (s.wide c).value < 0x8000 := by
  have hfix := hs.colfix c
  have hmin := hmin c
  have hmax := hmax c
  rw [wide_value]
  split <;> omega

/-- **What the columns want to be** is calculated without a mistake. -/
theorem settle_fine {s : Cols} (hs : s.Good) (hmin : Small s.colmin) (ncols : ℕ) :
    (s.settle ncols).Fine := by
  unfold Cols.settle
  rw [fine_bind, fine_fill]
  refine ⟨fun c _ => ?_, trivial⟩
  have hfix := hs.colfix c
  have hmin := hmin c
  unfold Cols.wide
  rw [fine_ite]
  split
  · rw [toShort_fine]
    unfold Fits
    omega
  · trivial

/-! ## What there is for the columns -/

theorem lenResolve_bounds (l : CssLen) (base : ℤ) :
    -20000 ≤ lenResolve l base ∧ lenResolve l base ≤ 20000 := by
  unfold lenResolve
  split
  · decide
  · dsimp only
    generalize int32 _ = v
    constructor <;> split <;> try split
    all_goals omega

theorem rs_bounds (l : CssLen) (base : ℤ) : -20000 ≤ rs l base ∧ rs l base ≤ 20000 := by
  unfold rs
  split
  · decide
  · exact lenResolve_bounds l base

variable (avail : ℤ) (st : TableStyle) (rows : List (List CellIn))

theorem tbh_bounds : -40000 ≤ st.tbh avail ∧ st.tbh avail ≤ 40510 := by
  have hl := rs_bounds st.padding_left avail
  have hr := rs_bounds st.padding_right avail
  have hbl := st.bw_left.toNat_lt
  have hbr := st.bw_right.toNat_lt
  unfold TableStyle.tbh
  omega

theorem sumspace_bounds {ncols : ℕ} (h : ncols ≤ tbMaxCol) :
    -(0x8000 * 49) ≤ st.sumspace ncols ∧ st.sumspace ncols ≤ 0x8000 * 49 := by
  have hspx : -0x8000 ≤ st.spx ∧ st.spx ≤ 0x8000 := by
    obtain ⟨hlo, hhi⟩ := st.spacing_fits
    unfold TableStyle.spx
    split <;> omega
  have hn : ((ncols : ℤ) + 1) ≤ 49 := by
    unfold tbMaxCol at h
    omega
  unfold TableStyle.sumspace
  constructor <;> nlinarith

/-- The width that there is, without bounds. -/
theorem max_outer_value : (st.max_outer avail).value =
    avail - autoMargin st.margin_left avail - autoMargin st.margin_right avail := by
  unfold TableStyle.max_outer
  simp only [value_bind, toInt_value]

theorem max_outer_fine : (st.max_outer avail).Fine ↔
    Fits 0x80000000 (avail - autoMargin st.margin_left avail) ∧
      Fits 0x80000000
        (avail - autoMargin st.margin_left avail - autoMargin st.margin_right avail) := by
  unfold TableStyle.max_outer
  simp only [fine_bind, toInt_fine, toInt_value]

theorem target_value (W : ℤ) (ncols : ℕ) :
    (st.target avail W ncols).value = max 0 (W - st.tbh avail - st.sumspace ncols) := by
  unfold TableStyle.target
  simp only [value_bind, value_pure, toInt_value]

theorem target_fine (W : ℤ) (ncols : ℕ) : (st.target avail W ncols).Fine ↔
    Fits 0x80000000 (W - st.tbh avail) ∧
      Fits 0x80000000 (W - st.tbh avail - st.sumspace ncols) := by
  unfold TableStyle.target
  simp only [fine_bind, fine_pure, toInt_fine, toInt_value, and_true]

/-- **The width of a table** is between what its columns need and that or what there is. -/
theorem W_between (max_outer : ℤ) (any_pct : Bool) (ncols : ℕ) (summin summax : ℤ) :
    summin + st.sumspace ncols + st.tbh avail ≤ st.W avail max_outer any_pct ncols summin summax ∧
      st.W avail max_outer any_pct ncols summin summax ≤
        max max_outer (summin + st.sumspace ncols + st.tbh avail) := by
  unfold TableStyle.W
  dsimp only
  omega

/-- Without a percentage, a table is not so wide. -/
theorem W_le (max_outer : ℤ) (ncols : ℕ) {summin summax : ℤ} (h : summin ≤ summax) :
    st.W avail max_outer false ncols summin summax ≤
      max 60510 (summax + st.sumspace ncols + st.tbh avail) := by
  have hlen := lenResolve_bounds st.width avail
  have htbh := tbh_bounds avail st
  unfold TableStyle.W
  dsimp only
  split
  · split <;> omega
  · rw [if_neg Bool.false_ne_true]
    omega

/-! ## What is asked -/

/-- **What the columns ask for** goes with what there is for them. -/
structure Asked (a : TableAsk) : Prop where
  colmin : ∀ c, 0 ≤ a.colmin c
  colmax : ∀ c < a.ncols, a.colmin c ≤ a.colmax c
  target : a.summin ≤ a.target
  room : a.target + st.sumspace a.ncols + st.tbh avail ≤
    max (avail - autoMargin st.margin_left avail - autoMargin st.margin_right avail)
      (a.summin + st.sumspace a.ncols + st.tbh avail)

theorem Asked.summin_nonneg {a : TableAsk} (h : Asked avail st a) : 0 ≤ a.summin :=
  total_nonneg fun c _ => h.colmin c

theorem percents_value (s : Cols) (any_pct : Bool) (target : ℤ) (ncols j : ℕ) :
    (s.percents any_pct target ncols).value j =
      if any_pct ∧ j < ncols then (s.percent target j).value else s.colmax j := by
  unfold Cols.percents
  cases any_pct with
  | false => exact (if_neg fun h => Bool.false_ne_true h.1).symm
  | true =>
    rw [if_pos rfl, value_fill, Nat.sub_zero]
    exact if_congr (by simp) rfl rfl

theorem percent_value (s : Cols) (target : ℤ) (c : ℕ) : (s.percent target c).value =
    if s.colpct c = 0 then s.colmax c
    else max (s.colmin c) ((target * s.colpct c).tdiv 1000) := by
  unfold Cols.percent
  simp only [value_ite, value_bind, value_pure, toInt_value, toShort_value]

/-- **A percentage** makes no mistake exactly if what it comes to is a `short`. -/
theorem percent_fine {s : Cols} {target : ℤ} (ht : 0 ≤ target) {c : ℕ} (hlo : 0 ≤ s.colmin c)
    (hhi : s.colmin c < 0x8000) (hpct : 0 ≤ s.colpct c) :
    (s.percent target c).Fine ↔ target * s.colpct c < 1000 * 0x8000 := by
  have hmul := Int.mul_nonneg ht hpct
  unfold Cols.percent
  rw [fine_ite]
  split
  · next hzero =>
    rw [hzero, Int.mul_zero]
    exact iff_of_true trivial (by decide)
  · simp only [fine_bind, toInt_fine, toInt_value, toShort_fine]
    rw [Int.tdiv_eq_ediv_of_nonneg hmul]
    unfold Fits
    omega

/-- **The percentages together.** -/
theorem percents_fine {s : Cols} {target : ℤ} (ht : 0 ≤ target) (hlo : ∀ c, 0 ≤ s.colmin c)
    (hhi : Small s.colmin) (hpct : ∀ c, 0 ≤ s.colpct c) (ncols : ℕ) :
    (s.percents ((List.range ncols).any fun c => s.colpct c ≠ 0) target ncols).Fine ↔
      ∀ c < ncols, target * s.colpct c < 1000 * 0x8000 := by
  unfold Cols.percents
  rw [fine_ite]
  split
  · rw [fine_fill]
    exact forall₂_congr fun c _ => percent_fine ht (hlo c) (hhi c) (hpct c)
  · next hnone =>
    refine iff_of_true trivial fun c hc => ?_
    have hzero : s.colpct c = 0 := by
      by_contra hne
      exact hnone (List.any_eq_true.mpr ⟨c, List.mem_range.mpr hc, decide_eq_true hne⟩)
    rw [hzero, Int.mul_zero]
    decide

/-- **What is left of the width** is an `int`, if the percentages are small enough. -/
theorem room_fits {max_outer : ℤ} {ncols : ℕ} (hn : ncols ≤ tbMaxCol) {summin summax : ℤ}
    (hmin : 0 ≤ summin) (hle : summin ≤ summax) (hmax : summax ≤ ncols * 0x8000)
    {any_pct : Bool}
    (hpct : any_pct = true →
      (st.target avail (st.W avail max_outer any_pct ncols summin summax) ncols).value <
        1000 * 0x8000) :
    (st.target avail (st.W avail max_outer any_pct ncols summin summax) ncols).Fine := by
  have htbh := tbh_bounds avail st
  have hspace := sumspace_bounds st hn
  have hlo := (W_between avail st max_outer any_pct ncols summin summax).1
  have hn' : (ncols : ℤ) ≤ 48 := by
    unfold tbMaxCol at hn
    omega
  rw [target_value] at hpct
  rw [target_fine]
  unfold Fits
  cases any_pct with
  | true =>
    have := hpct rfl
    omega
  | false =>
    have := W_le avail st max_outer ncols hle
    omega

/-- **The columns without bounds** ask for something that goes with what there is. -/
theorem tableAsk_asked : Asked avail st (tableAsk avail st rows).value := by
  have hgrid := tableGrid_placed rows
  obtain ⟨hgood, -⟩ := tableCols_spec st.spx _ fun c hc => ⟨_, hgrid.sane c hc⟩
  unfold tableAsk
  simp only [value_bind, value_pure, target_value, max_outer_value]
  generalize (tableGrid rows).value = g at *
  obtain ⟨hmin, hpct⟩ := settle_rest (tableCols st.spx g.cells).value g.ncols
  have hwide := settle_colmax (tableCols st.spx g.cells).value g.ncols
  generalize (tableCols st.spx g.cells).value = s at *
  generalize hs' : (s.settle g.ncols).value = s' at *
  refine ⟨?_, ?_, ?_, ?_⟩
  · rw [hmin]
    exact hgood.colmin
  · intro c hc
    dsimp only
    rw [percents_value, hmin]
    have hle : s.colmin c ≤ s'.colmax c := by
      rw [hwide, if_pos hc]
      exact wide_le c
    split
    · rw [percent_value, hmin]
      split
      · exact hle
      · exact le_max_left ..
    · exact hle
  · show total s'.colmin g.ncols ≤ _
    obtain ⟨hlo, -⟩ := W_between avail st
      (avail - autoMargin st.margin_left avail - autoMargin st.margin_right avail)
      ((List.range g.ncols).any fun c => s'.colpct c ≠ 0) g.ncols (total s'.colmin g.ncols)
      (total s'.colmax g.ncols)
    refine le_trans ?_ (le_max_right ..)
    omega
  · show _ ≤ max _ (total s'.colmin g.ncols + _ + _)
    obtain ⟨hlo, hhi⟩ := W_between avail st
      (avail - autoMargin st.margin_left avail - autoMargin st.margin_right avail)
      ((List.range g.ncols).any fun c => s'.colpct c ≠ 0) g.ncols (total s'.colmin g.ncols)
      (total s'.colmax g.ncols)
    have hnonneg : 0 ≤ total s'.colmin g.ncols := total_nonneg fun c _ => by
      rw [hmin]
      exact hgood.colmin c
    dsimp only
    omega

/-- **What is asked is calculated without a mistake** exactly if the cells, the columns, the margins
and the percentages are small enough; and then so are the columns, and what there is for them. -/
theorem tableAsk_fine {g : Grid} {s : Cols} {a : TableAsk} (hg : (tableGrid rows).value = g)
    (hs : (tableCols st.spx g.cells).value = s) (ha : (tableAsk avail st rows).value = a) :
    ((tableAsk avail st rows).Fine ↔
      (∀ c ∈ g.cells, -0x8000 ≤ c.cmin ∧ -0x8000 ≤ c.cmax) ∧
      (∀ c, s.colmin c < 0x8000 ∧ s.colmax c < 0x8000) ∧
      (Fits 0x80000000 (avail - autoMargin st.margin_left avail) ∧ Fits 0x80000000
        (avail - autoMargin st.margin_left avail - autoMargin st.margin_right avail)) ∧
      ∀ c < a.ncols, a.target * a.colpct c < 1000 * 0x8000) ∧
    ((tableAsk avail st rows).Fine →
      Fits 0x80000000 a.target ∧ ∀ c < a.ncols, a.colmax c < 0x8000) := by
  have hgrid := tableGrid_placed rows
  obtain ⟨hgood, hcols⟩ := tableCols_spec st.spx _ fun c hc => ⟨_, hgrid.sane c hc⟩
  have hn := hgrid.bound (Nat.zero_le _)
  have hfine := hgrid.fine
  rw [hg] at hgood hcols hn hfine
  rw [hs] at hgood hcols
  obtain ⟨hmin, hpct⟩ := settle_rest s g.ncols
  have hwide := settle_colmax s g.ncols
  have hsettle := fun hsmall : Small s.colmin => settle_fine hgood hsmall g.ncols
  obtain ⟨s', hs'⟩ : ∃ s', (s.settle g.ncols).value = s' := ⟨_, rfl⟩
  rw [hs'] at hmin hpct hwide
  have hW := W_between avail st
    (avail - autoMargin st.margin_left avail - autoMargin st.margin_right avail)
    ((List.range g.ncols).any fun c => s'.colpct c ≠ 0) g.ncols (total s'.colmin g.ncols)
    (total s'.colmax g.ncols)
  obtain ⟨W, hWeq⟩ : ∃ W, st.W avail
    (avail - autoMargin st.margin_left avail - autoMargin st.margin_right avail)
    ((List.range g.ncols).any fun c => s'.colpct c ≠ 0) g.ncols (total s'.colmin g.ncols)
    (total s'.colmax g.ncols) = W := ⟨_, rfl⟩
  have htarget : a.target = (st.target avail W g.ncols).value := by
    rw [← ha]
    simp only [tableAsk, value_bind, value_pure, max_outer_value, hg, hs, hs', hWeq]
  have hncols : a.ncols = g.ncols := by
    rw [← ha]
    simp only [tableAsk, value_bind, value_pure, hg]
  have hcolpct : a.colpct = s'.colpct := by
    rw [← ha]
    simp only [tableAsk, value_bind, value_pure, hg, hs, hs']
  have hcolmax : a.colmax = (s'.percents ((List.range g.ncols).any fun c => s'.colpct c ≠ 0)
      (st.target avail W g.ncols).value g.ncols).value := by
    rw [← ha]
    simp only [tableAsk, value_bind, value_pure, max_outer_value, hg, hs, hs', hWeq]
  have hall : (tableAsk avail st rows).Fine ↔ (∀ c ∈ g.cells, c.Low) ∧
      (Small s.colmin ∧ Small s.colmax) ∧ (s.settle g.ncols).Fine ∧ (st.max_outer avail).Fine ∧
      (st.target avail W g.ncols).Fine ∧
      (s'.percents ((List.range g.ncols).any fun c => s'.colpct c ≠ 0)
        (st.target avail W g.ncols).value g.ncols).Fine := by
    rw [← hfine, ← hcols]
    simp only [tableAsk, fine_bind, fine_pure, max_outer_value, hg, hs, hs', hWeq, and_true]
  have ht : 0 ≤ (st.target avail W g.ncols).value := by
    rw [target_value]
    exact le_max_left ..
  have hlo : ∀ c, 0 ≤ s'.colmin c := hmin ▸ hgood.colmin
  have hnonneg : ∀ c, 0 ≤ s'.colpct c := hpct ▸ hgood.colpct
  have hpercents := fun hsmall : Small s.colmin =>
    percents_fine ht hlo (hmin ▸ hsmall) hnonneg g.ncols
  have hlt : Small s.colmin → Small s.colmax → ∀ c < g.ncols, s'.colmax c < 0x8000 :=
    fun hsmin hsmax c hc => by
      rw [hwide, if_pos hc]
      exact wide_lt hgood hsmin hsmax c
  have hroom : Small s.colmin → Small s.colmax →
      (∀ c < g.ncols, (st.target avail W g.ncols).value * s'.colpct c < 1000 * 0x8000) →
      (st.target avail W g.ncols).Fine := fun hsmin hsmax hp => by
    rw [← hWeq] at hp ⊢
    refine room_fits avail st hn (total_nonneg fun c _ => hlo c) (total_le fun c hc => ?_)
      (total_lt (hlt hsmin hsmax)) fun hany => ?_
    · rw [hmin, hwide, if_pos hc]
      exact wide_le c
    · obtain ⟨c, hc, hne⟩ := List.any_eq_true.mp hany
      have hone : 1 ≤ s'.colpct c := by
        have := hnonneg c
        have := of_decide_eq_true hne
        omega
      refine lt_of_le_of_lt ?_ (hp c (List.mem_range.mp hc))
      rw [← hWeq] at ht
      exact le_mul_of_one_le_right ht hone
  rw [hall, htarget, hncols, hcolpct, hcolmax, max_outer_fine]
  refine ⟨?_, ?_⟩
  · constructor
    · rintro ⟨hcells, ⟨hsmin, hsmax⟩, -, hmargins, -, hp⟩
      exact ⟨hcells, fun c => ⟨hsmin c, hsmax c⟩, hmargins, (hpercents hsmin).mp hp⟩
    · rintro ⟨hcells, hsmall, hmargins, hp⟩
      have hsmin : Small s.colmin := fun c => (hsmall c).1
      have hsmax : Small s.colmax := fun c => (hsmall c).2
      exact ⟨hcells, ⟨hsmin, hsmax⟩, hsettle hsmin, hmargins, hroom hsmin hsmax hp,
        (hpercents hsmin).mpr hp⟩
  · rintro ⟨-, ⟨hsmin, hsmax⟩, -, -, hfits, hp⟩
    have hp := (hpercents hsmin).mp hp
    refine ⟨?_, fun c hc => ?_⟩
    · rw [target_fine] at hfits
      rw [target_value]
      exact ⟨by omega, max_lt (by decide) hfits.2.2⟩
    · rw [percents_value, percent_value]
      have hmul := Int.mul_nonneg ht (hnonneg c)
      have := hp c hc
      have := hlt hsmin hsmax c hc
      have hsmin : s'.colmin c < 0x8000 := (hmin ▸ hsmin) c
      rw [Int.tdiv_eq_ediv_of_nonneg hmul]
      split
      · split <;> omega
      · assumption

/-! ## What the columns get -/

variable {avail st} {a : TableAsk}

theorem share_value (extra : ℤ) (c : ℕ) : (a.share extra c).value =
    if a.declared ∧ extra > 0 then
      if a.summax > 0 then (extra * a.colmax c).tdiv a.summax else extra.tdiv (max 1 a.ncols : ℕ)
    else 0 := by
  unfold TableAsk.share
  simp only [value_ite, value_bind, value_pure, toInt_value]
  push_cast
  rfl

theorem width_value (c : ℕ) : (a.width c).value =
    if a.target ≥ a.summax then a.colmax c + (a.share (a.target - a.summax) c).value
    else if a.target > a.summin then
      a.colmin c + ((a.colmax c - a.colmin c) * (a.target - a.summin)).tdiv (a.summax - a.summin)
    else a.colmin c := by
  unfold TableAsk.width
  simp only [value_ite, value_bind, value_pure, toInt_value, toShort_value]

/-- **Shares** are not less than nothing, and not more than there is. -/
theorem share_spec (hmax : ∀ c < a.ncols, 0 ≤ a.colmax c) {extra : ℤ} (hextra : 0 ≤ extra) :
    (∀ c < a.ncols, 0 ≤ (a.share extra c).value) ∧
      total (fun c => (a.share extra c).value) a.ncols ≤ extra := by
  simp only [share_value]
  split
  · split
    · next hpos =>
      refine ⟨fun c hc => Int.tdiv_nonneg (Int.mul_nonneg hextra (hmax c hc)) hpos.le, ?_⟩
      exact total_tdiv_le a.colmax hextra hmax hpos
    · refine ⟨fun c _ => Int.tdiv_nonneg hextra (Int.natCast_nonneg _), ?_⟩
      rw [total_const]
      calc (a.ncols : ℤ) * extra.tdiv (max 1 a.ncols : ℕ)
          ≤ (max 1 a.ncols : ℕ) * extra.tdiv (max 1 a.ncols : ℕ) :=
            Int.mul_le_mul_of_nonneg_right (Int.ofNat_le.mpr (le_max_right ..))
              (Int.tdiv_nonneg hextra (Int.natCast_nonneg _))
        _ ≤ extra := by
            rw [Int.tdiv_eq_ediv_of_nonneg hextra]
            exact Int.mul_ediv_self_le (by omega)
  · refine ⟨fun _ _ => le_rfl, ?_⟩
    rwa [total_const, Int.mul_zero]

/-- **The widths**, before the rounding is made up for. -/
theorem width_spec (h : Asked avail st a) :
    (∀ c < a.ncols, a.colmin c ≤ (a.width c).value) ∧
      total (fun c => (a.width c).value) a.ncols ≤ a.target := by
  have hmax : ∀ c < a.ncols, 0 ≤ a.colmax c := fun c hc => (h.colmin c).trans (h.colmax c hc)
  simp only [width_value]
  split
  · next hge =>
    obtain ⟨hshare, htotal⟩ := share_spec hmax (sub_nonneg.mpr hge)
    refine ⟨fun c hc => ?_, ?_⟩
    · have := h.colmax c hc
      have := hshare c hc
      omega
    · rw [total_add]
      show a.summax + _ ≤ _
      omega
  split
  · next hlt hgt =>
    have hroom : 0 ≤ a.target - a.summin := by omega
    have hslack : ∀ c < a.ncols, 0 ≤ a.colmax c - a.colmin c := fun c hc =>
      sub_nonneg.mpr (h.colmax c hc)
    have hspan : total (fun c => a.colmax c - a.colmin c) a.ncols = a.summax - a.summin :=
      total_sub ..
    have hpos : 0 < a.summax - a.summin := by omega
    refine ⟨fun c hc => ?_, ?_⟩
    · have := Int.tdiv_nonneg (Int.mul_nonneg (hslack c hc) hroom) hpos.le
      omega
    · have hshares := total_tdiv_le (fun c => a.colmax c - a.colmin c) hroom hslack (hspan ▸ hpos)
      rw [hspan] at hshares
      rw [total_add]
      simp only [mul_comm _ (a.target - a.summin)]
      show a.summin + _ ≤ _
      omega
  · exact ⟨fun _ _ => le_rfl, h.target⟩

/-- The last column has what the others leave. -/
theorem last_eq {colw : ℕ → ℤ} (hn : 0 < a.ncols) :
    colw (a.ncols - 1) + a.target - total colw a.ncols =
      a.target - total colw (a.ncols - 1) := by
  have hsucc := total_succ colw (a.ncols - 1)
  rw [Nat.sub_add_cancel hn] at hsucc
  omega

/-- **Rounding** leaves the columns as wide as their cells need, and together within what there
is. -/
theorem round_spec {colw : ℕ → ℤ} (hle : ∀ c < a.ncols, a.colmin c ≤ colw c)
    (htotal : total colw a.ncols ≤ a.target) :
    (∀ c < a.ncols, a.colmin c ≤ (a.round colw).value c) ∧
      total (a.round colw).value a.ncols ≤ a.target := by
  unfold TableAsk.round
  rw [value_ite]
  split
  · next hshort =>
    simp only [value_bind, value_pure, toShort_value]
    refine ⟨fun c hc => ?_, ?_⟩
    · rcases eq_or_ne c (a.ncols - 1) with rfl | hne
      · rw [update_self]
        exact le_max_left ..
      · rw [update_of_ne hne]
        exact hle c hc
    · have hn := hshort.1
      have hlast := hle (a.ncols - 1) (by omega)
      have hsucc := total_succ colw (a.ncols - 1)
      obtain ⟨last, hlast'⟩ : ∃ last, max (a.colmin (a.ncols - 1))
        (colw (a.ncols - 1) + a.target - total colw a.ncols) = last := ⟨_, rfl⟩
      have hupdate := total_succ (update colw (a.ncols - 1) last) (a.ncols - 1)
      have hothers : total (update colw (a.ncols - 1) last) (a.ncols - 1) =
          total colw (a.ncols - 1) := total_congr fun c hc => update_of_ne hc.ne ..
      rw [Nat.sub_add_cancel hn] at hsucc hupdate
      rw [hlast', hupdate, hothers, update_self]
      omega
  · exact ⟨hle, htotal⟩

/-- The widths, before the rounding is made up for. -/
def TableAsk.widths (a : TableAsk) : ℕ → ℤ := (fill 0 a.width a.ncols fun _ => 0).value

theorem widths_eq {c : ℕ} (hc : c < a.ncols) : a.widths c = (a.width c).value := by
  unfold TableAsk.widths
  rw [value_fill, if_pos (by omega), Nat.sub_zero]

/-- **A share** makes no mistake exactly if what is multiplied for it is small enough. -/
theorem share_fine (hmax : ∀ c < a.ncols, 0 ≤ a.colmax c) {extra : ℤ} (hextra : 0 ≤ extra) {c : ℕ}
    (hc : c < a.ncols) :
    (a.share extra c).Fine ↔ (a.declared → 0 < extra → extra * a.colmax c < 0x80000000) := by
  have hmul := Int.mul_nonneg hextra (hmax c hc)
  have hle : a.colmax c ≤ a.summax := le_total hmax hc
  unfold TableAsk.share
  rw [fine_ite]
  split
  · next hgrow =>
    rw [fine_ite]
    split
    · simp only [fine_bind, fine_pure, toInt_fine, and_true]
      unfold Fits
      exact ⟨fun h _ _ => h.2, fun h => ⟨by omega, h hgrow.1 hgrow.2⟩⟩
    · have := hmax c hc
      have hzero : a.colmax c = 0 := by omega
      rw [hzero, Int.mul_zero]
      exact iff_of_true trivial fun _ _ => by decide
  · next hidle => exact iff_of_true trivial fun hd hlt => absurd ⟨hd, hlt⟩ hidle

/-- **A width** makes no mistake exactly if it is small enough, and so is what is multiplied for
it. -/
theorem width_fine (h : Asked avail st a) (ht : Fits 0x80000000 a.target) {c : ℕ}
    (hc : c < a.ncols) (hsmall : a.colmax c < 0x8000) :
    (a.width c).Fine ↔
      (a.declared → a.summax < a.target →
        (a.target - a.summax) * a.colmax c < 0x80000000 ∧
          a.colmax c + (a.share (a.target - a.summax) c).value < 0x8000) ∧
      (a.summin < a.target → a.target < a.summax →
        (a.colmax c - a.colmin c) * (a.target - a.summin) < 0x80000000) := by
  have hmin := h.colmin c
  have hmax := h.colmax c hc
  have hnonneg : ∀ c < a.ncols, 0 ≤ a.colmax c := fun c hc => (h.colmin c).trans (h.colmax c hc)
  have hle : a.colmax c ≤ a.summax := le_total hnonneg hc
  have hsummin := h.summin_nonneg
  unfold TableAsk.width Fits at *
  rw [fine_ite]
  split
  · next hge =>
    simp only [fine_bind, toInt_fine, toInt_value, toShort_fine]
    have hshare := (share_spec hnonneg (sub_nonneg.mpr hge)).1 c hc
    have hidle : ¬ (a.declared ∧ a.summax < a.target) →
        (a.share (a.target - a.summax) c).value = 0 := fun hidle => by
      rw [share_value, if_neg fun h => hidle ⟨h.1, by omega⟩]
    rw [share_fine hnonneg (sub_nonneg.mpr hge) hc]
    unfold Fits
    by_cases hgrow : a.declared ∧ a.summax < a.target
    · constructor
      · rintro ⟨-, hmul, hsum⟩
        exact ⟨fun hd hlt => ⟨hmul hd (by omega), hsum.2⟩, by omega⟩
      · rintro ⟨hgrows, -⟩
        have := hgrows hgrow.1 hgrow.2
        exact ⟨by omega, fun _ _ => this.1, by omega⟩
    · have := hidle hgrow
      constructor
      · exact fun _ => ⟨fun hd hlt => absurd ⟨hd, hlt⟩ hgrow, by omega⟩
      · exact fun _ => ⟨by omega, fun hd hlt => absurd ⟨hd, by omega⟩ hgrow, by omega⟩
  · next hlt =>
    rw [fine_ite]
    split
    · next hgt =>
      simp only [fine_bind, toInt_fine, toInt_value, toShort_fine]
      have hroom : 0 < a.target - a.summin := by omega
      have hmul := Int.mul_nonneg (sub_nonneg.mpr hmax) hroom.le
      have hquot : ((a.colmax c - a.colmin c) * (a.target - a.summin)).tdiv
          (a.summax - a.summin) ≤ a.colmax c - a.colmin c := by
        rw [tdiv_le_iff (by omega) (by omega)]
        nlinarith
      have hquot' := Int.tdiv_nonneg hmul (by omega : 0 ≤ a.summax - a.summin)
      unfold Fits
      constructor
      · exact fun h => ⟨fun _ _ => by omega, fun _ _ => h.1.2⟩
      · exact fun h => ⟨⟨by omega, h.2 (by omega) (by omega)⟩, by omega⟩
    · exact iff_of_true trivial ⟨fun _ _ => by omega, fun _ _ => by omega⟩

theorem width_lt {c : ℕ} (hfine : (a.width c).Fine) (hle : a.colmin c ≤ a.colmax c)
    (hsmall : a.colmax c < 0x8000) : (a.width c).value < 0x8000 := by
  unfold TableAsk.width at *
  rw [fine_ite] at hfine
  rw [value_ite]
  split at hfine
  · rw [if_pos ‹_›]
    simp only [fine_bind, toShort_fine, value_bind, toShort_value, toInt_value] at hfine ⊢
    exact hfine.2.2.2
  · rw [if_neg ‹_›, value_ite]
    rw [fine_ite] at hfine
    split at hfine
    · rw [if_pos ‹_›]
      simp only [fine_bind, toShort_fine, value_bind, toShort_value, toInt_value] at hfine ⊢
      exact hfine.2.2
    · rw [if_neg ‹_›]
      exact hle.trans_lt hsmall

/-- **Rounding** makes no mistake exactly if what the others leave for the last column is small
enough. -/
theorem round_fine (h : Asked avail st a) (hw : ∀ c < a.ncols, (a.width c).value < 0x8000) :
    (a.round a.widths).Fine ↔
      (0 < a.ncols → a.summin < a.target → a.declared ∨ a.target < a.summax →
        a.target - total (fun c => (a.width c).value) (a.ncols - 1) < 0x8000) := by
  obtain ⟨hle, htotal⟩ := width_spec h
  have hwidths : ∀ n ≤ a.ncols, total a.widths n = total (fun c => (a.width c).value) n :=
    fun n hn => total_congr fun c hc => widths_eq (hc.trans_le hn)
  have hge : a.summin ≤ total a.widths a.ncols := by
    rw [hwidths _ le_rfl]
    exact total_le hle
  rw [← hwidths _ le_rfl] at htotal
  rw [← hwidths _ (Nat.sub_le ..)]
  unfold TableAsk.round
  rw [fine_ite]
  split
  · next hshort =>
    obtain ⟨hn, hmin, hfill, hne⟩ := hshort
    have hlast := hle (a.ncols - 1) (by omega)
    have hlast' := hw (a.ncols - 1) (by omega)
    have := h.colmin (a.ncols - 1)
    simp only [fine_bind, fine_pure, toShort_fine, and_true]
    rw [last_eq hn]
    unfold Fits
    constructor
    · exact fun hfits _ _ _ => by omega
    · intro hfits
      have := hfits hn (by omega) hfill
      omega
  · next hshort =>
    refine iff_of_true trivial fun hn hlt hfill => ?_
    have heq : total a.widths a.ncols = a.target := by
      by_contra hne
      exact hshort ⟨hn, hlt.le, hfill, hne⟩
    have hsucc := total_succ a.widths (a.ncols - 1)
    have hlast := hw (a.ncols - 1) (by omega)
    rw [← widths_eq (by omega)] at hlast
    rw [Nat.sub_add_cancel hn] at hsucc
    omega

/-! ## The table -/

theorem colx_add (t : Table) (spx x : ℤ) (c n : ℕ) :
    t.colx spx x (c + n) = t.colx spx x c + total (fun k => t.colw (c + k)) n + spx * n := by
  induction n with
  | zero =>
    rw [total_zero, Nat.cast_zero, Int.mul_zero, Int.add_zero, Int.add_zero]
    rfl
  | succ n ih =>
    rw [total_succ, Nat.cast_succ, Int.mul_add, Int.mul_one]
    show t.colx spx x (c + n) + t.colw (c + n) + spx = _
    omega

/-- **The box of a cell** goes to the end of its last column. -/
theorem box_ends (t : Table) (spx x : ℤ) (c : Cell) :
    t.colx spx x c.col + t.cwtot spx c =
      t.colx spx x (c.col + c.cs - 1) + t.colw (c.col + c.cs - 1) := by
  obtain ⟨n, hn⟩ : ∃ n, c.cs = n + 1 := ⟨c.cs - 1, (Nat.sub_add_cancel c.cs_pos).symm⟩
  unfold Table.cwtot
  rw [hn, ← Nat.add_assoc, Nat.add_sub_cancel, colx_add, total_succ, Nat.cast_succ,
    Int.add_sub_cancel]
  omega

theorem tableAsk_cells (avail : ℤ) (st : TableStyle) (rows : List (List CellIn)) :
    (tableAsk avail st rows).value.cells = (tableGrid rows).value.cells ∧
      (tableAsk avail st rows).value.ncols = (tableGrid rows).value.ncols := by
  unfold tableAsk
  simp only [value_bind, value_pure, and_self]

/-- **Without bounds the columns add up.** -/
theorem layTable_addsUp (avail : ℤ) (st : TableStyle) (rows : List (List CellIn)) :
    AddsUp avail st (layTable avail st rows).value := by
  have hcellsane := (tableGrid_placed rows).sane
  have hasked := tableAsk_asked avail st rows
  obtain ⟨hcells, hncols⟩ := tableAsk_cells avail st rows
  rw [← hcells, ← hncols] at hcellsane
  unfold layTable
  simp only [value_bind, value_pure]
  generalize (tableAsk avail st rows).value = a at *
  obtain ⟨hle, htotal⟩ := width_spec hasked
  have hwidths : ∀ c < a.ncols, a.colmin c ≤ a.widths c := fun c hc =>
    (hle c hc).trans_eq (widths_eq hc).symm
  obtain ⟨hle', htotal'⟩ := round_spec hwidths
    ((total_congr fun c hc => widths_eq hc).trans_le htotal)
  refine ⟨fun c hc => ⟨hasked.colmin c, hle' c hc⟩, rfl, ?_, fun c hc => ?_, fun c hc => ?_⟩
  · refine le_trans ?_ hasked.room
    exact Int.add_le_add_right (Int.add_le_add_right htotal' _) _
  · exact ⟨c.cs_pos, (hcellsane c hc).span, fun x => box_ends _ _ x c⟩
  · have hsane := hcellsane c hc
    have hrow := hsane.row
    have hrs := hsane.rs
    refine ⟨hrow, c.inside, hrs, ?_⟩
    unfold tbMaxR at hrow
    unfold Fits
    omega

/-- **The machine's columns add up** exactly if what is asked for is small enough. -/
theorem layTable_adds_up_iff (avail : ℤ) (st : TableStyle) (rows : List (List CellIn)) :
    (∃ t, (layTable avail st rows).run = some t ∧ (layTable avail st rows).Exact ∧
      AddsUp avail st t) ↔
    Roomy avail st (tableGrid rows).value
      (tableCols st.spx (tableGrid rows).value.cells).value (tableAsk avail st rows).value := by
  rw [right_iff _ (layTable_addsUp avail st rows)]
  have hasked := tableAsk_asked avail st rows
  obtain ⟨hfine, hfits⟩ := tableAsk_fine avail st rows rfl rfl rfl
  unfold layTable
  simp only [fine_bind, fine_pure, and_true, fine_fill]
  constructor
  · rintro ⟨hask, hwidths, hround⟩
    obtain ⟨htarget, hcolmax⟩ := hfits hask
    obtain ⟨hcells, hspread, hmargins, hpercent⟩ := hfine.mp hask
    have hwidth := fun c hc => (width_fine hasked htarget hc (hcolmax c hc)).mp (hwidths c hc)
    exact
      { cells := hcells
        spread := hspread
        margins := hmargins
        percent := hpercent
        grows := fun hd hlt c hc => (hwidth c hc).1 hd hlt
        shrinks := fun hgt hlt c hc => (hwidth c hc).2 hgt hlt
        last := (round_fine hasked fun c hc =>
          width_lt (hwidths c hc) (hasked.colmax c hc) (hcolmax c hc)).mp hround }
  · intro h
    have hask := hfine.mpr ⟨h.cells, h.spread, h.margins, h.percent⟩
    obtain ⟨htarget, hcolmax⟩ := hfits hask
    have hwidths := fun c hc => (width_fine hasked htarget hc (hcolmax c hc)).mpr
      ⟨fun hd hlt => h.grows hd hlt c hc, fun hgt hlt => h.shrinks hgt hlt c hc⟩
    exact ⟨hask, hwidths, (round_fine hasked fun c hc =>
      width_lt (hwidths c hc) (hasked.colmax c hc) (hcolmax c hc)).mpr h.last⟩

/-- A cell without padding or border, with these widths. -/
def plainCell (width : CssLen) (mx : ℤ) : CellIn where
  colspan := 1
  rowspan := 1
  mn := mx
  mx := mx
  padding_left := ⟨0, 0⟩
  padding_right := ⟨0, 0⟩
  bw_left := 0
  bw_right := 0
  width := width
  box_sizing_border := false

/-- A table without margins, padding or border. -/
def plainTable : TableStyle where
  margin_left := ⟨0, 0⟩
  margin_right := ⟨0, 0⟩
  padding_left := ⟨0, 0⟩
  padding_right := ⟨0, 0⟩
  bw_left := 0
  bw_right := 0
  width := ⟨0, cssAuto⟩
  box_sizing_border := false
  border_collapse := false
  spacing_x := 2
  spacing_fits := by decide

/-- **A column of three thousand percent** becomes narrower than nothing. -/
theorem layTable_negative : ¬ ∃ t,
    (layTable 1200 plainTable [[plainCell ⟨0, 30000⟩ 50, plainCell ⟨0, cssAuto⟩ 50]]).run = some t ∧
    (layTable 1200 plainTable
      [[plainCell ⟨0, 30000⟩ 50, plainCell ⟨0, cssAuto⟩ 50]]).Exact ∧
    AddsUp 1200 plainTable t := by
  rintro ⟨t, hrun, -, hadds⟩
  have hwidth : (layTable 1200 plainTable
      [[plainCell ⟨0, 30000⟩ 50, plainCell ⟨0, cssAuto⟩ 50]]).run.map
        (fun t => (t.ncols, t.colw 0)) = some (2, -14286) := by decide +kernel
  rw [hrun] at hwidth
  obtain ⟨hn, hw⟩ := Prod.mk.inj (Option.some.inj hwidth)
  have hcol := hadds.columns 0 (by omega)
  omega

end Css
