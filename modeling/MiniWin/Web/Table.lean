import MiniWin.Web.Flex

/-!
# Table columns

The first two parts of `lay_table` of `kernel/layout.h`: where the cells of a table go, and how wide
its columns become. A column is a `short`, and what is calculated for it an `int`; each cast is
marked, and so is each result that could leave an `int`. What could not is not: the places of the
cells, and the sums over the forty-eight columns that there may be.
-/

namespace Css

open Function Calc

/-! ## Cells -/

def tbMaxC : ℕ := 900
def tbMaxR : ℕ := 360
def tbMaxCol : ℕ := 48

/-- A cast to `short`. -/
def toShort (x : ℤ) : Calc ℤ := Calc.cast 0x8000 x

/-- The result of an operation on `int`s. -/
def toInt (x : ℤ) : Calc ℤ := Calc.op 0x80000000 x

/-- A cell as the document has it: the numbers of its attributes, its intrinsic widths, and its
style. -/
structure CellIn where
  colspan : ℤ
  rowspan : ℤ
  mn : ℤ
  mx : ℤ
  padding_left : CssLen
  padding_right : CssLen
  bw_left : UInt8
  bw_right : UInt8
  width : CssLen
  box_sizing_border : Bool

/-- `tbcell_t`, as far as the columns go by it. -/
structure Cell where
  row : ℕ
  col : ℕ
  cs : ℕ
  rs : ℕ
  cmin : ℤ
  cmax : ℤ
  fixed : ℤ
  pct : ℤ
  cs_pos : 0 < cs
  inside : col + cs ≤ tbMaxCol

/-- The cells so far: up to which row each column is taken, and how many columns there are. -/
structure Grid where
  busy : ℕ → ℕ
  cells : List Cell
  ncols : ℕ

/-- How many columns a cell at `k` takes. -/
def CellIn.span (c : CellIn) (k : Fin tbMaxCol) : ℕ :=
  min (min (max c.colspan 1) tbMaxCol).toNat (tbMaxCol - k)

def CellIn.rspan (c : CellIn) : ℕ := (min (max c.rowspan 1) 255).toNat

theorem CellIn.span_pos (c : CellIn) (k : Fin tbMaxCol) : 0 < c.span k := by
  have hk := k.isLt
  unfold span tbMaxCol at *
  omega

theorem CellIn.span_le (c : CellIn) (k : Fin tbMaxCol) : k + c.span k ≤ tbMaxCol := by
  have hk := k.isLt
  unfold span
  omega

/-- Padding and border. -/
def CellIn.chor (c : CellIn) : ℤ :=
  rs c.padding_left 0 + rs c.padding_right 0 + c.bw_left.toNat + c.bw_right.toNat

/-- The width that a cell states. -/
def CellIn.fixed (c : CellIn) : Calc ℤ :=
  if c.width.pct = cssAuto ∨ c.width.pct ≠ 0 then pure 0
  else toShort (min (max 0 (c.width.px + if c.box_sizing_border then 0 else c.chor)) 4000)

/-- A cell at the column `k` of the row `nr`. -/
def placeCell (nr : ℕ) (k : Fin tbMaxCol) (c : CellIn) : Calc Cell := do
  let cmin ← toShort (min (c.mn + c.chor) 30000)
  let cmax ← toShort (min (c.mx + c.chor) 30000)
  let fixed ← c.fixed
  pure { row := nr, col := k, cs := c.span k, rs := c.rspan, cmin := cmin, cmax := cmax,
         fixed := fixed, pct := if c.width.pct = cssAuto then 0 else c.width.pct,
         cs_pos := c.span_pos k, inside := c.span_le k }

/-- The cells of the row `nr`, from the column `col` on. -/
def placeRow (nr : ℕ) : ℕ → List CellIn → Grid → Calc Grid
  | _, [], g => pure g
  | col, c :: rest, g =>
    if g.cells.length ≥ tbMaxC then placeRow nr col rest g
    else
      match (List.finRange tbMaxCol).find? fun k => col ≤ k.val ∧ g.busy k.val ≤ nr with
      | none => pure g
      | some k => do
        let cell ← placeCell nr k c
        let last := k + cell.cs
        placeRow nr last rest
          { busy := fun j => if k ≤ j ∧ j < last then nr + cell.rs else g.busy j
            cells := g.cells ++ [cell]
            ncols := max g.ncols last }

/-- The rows from `nr` on. -/
def placeRows : ℕ → List (List CellIn) → Grid → Calc Grid
  | _, [], g => pure g
  | nr, row :: rows, g => do
    let g ← placeRow nr 0 row g
    placeRows (nr + 1) rows g

/-- **The cells of a table.** -/
def tableGrid (rows : List (List CellIn)) : Calc Grid :=
  placeRows 0 (rows.take tbMaxR) { busy := fun _ => 0, cells := [], ncols := 0 }

/-! ## Columns -/

/-- What is known of each column. -/
structure Cols where
  colmin : ℕ → ℤ
  colmax : ℕ → ℤ
  colfix : ℕ → ℤ
  colpct : ℕ → ℤ

/-- A cell of one column. -/
def Cols.single (s : Cols) (c : Cell) : Cols where
  colmin := update s.colmin c.col (max (s.colmin c.col) c.cmin)
  colmax := update s.colmax c.col (max (s.colmax c.col) c.cmax)
  colfix := update s.colfix c.col (max (s.colfix c.col) c.fixed)
  colpct := update s.colpct c.col (max (s.colpct c.col) c.pct)

/-- The sum of some columns. -/
def total (f : ℕ → ℤ) (n : ℕ) : ℤ := ((List.range n).map f).sum

/-- `d` spread over the columns of a cell, with the remainder in the last one. -/
def spread (c : Cell) (d : ℤ) (f : ℕ → ℤ) : Calc (ℕ → ℤ) :=
  fill c.col (fun k => do
    let part ← toShort (d.tdiv c.cs + if k + 1 = c.cs then d.tmod c.cs else 0)
    toShort (f (c.col + k) + part)) c.cs f

/-- What the columns of a cell have, with the space between them. -/
def Cell.sum (spx : ℤ) (c : Cell) (f : ℕ → ℤ) : ℤ :=
  total (fun k => f (c.col + k)) c.cs + spx * (c.cs - 1)

/-- What the columns of a cell do not cover is spread over them. -/
def Cell.cover (spx : ℤ) (c : Cell) (want : ℤ) (f : ℕ → ℤ) : Calc (ℕ → ℤ) :=
  if want > c.sum spx f then spread c (want - c.sum spx f) f else pure f

/-- A cell of several columns. -/
def Cols.spanning (spx : ℤ) (s : Cols) (c : Cell) : Calc Cols := do
  let colmin ← c.cover spx c.cmin s.colmin
  let colmax ← c.cover spx c.cmax s.colmax
  pure { s with colmin := colmin, colmax := colmax }

/-- What the cells ask of the columns. -/
def tableCols (spx : ℤ) (cells : List Cell) : Calc Cols :=
  (cells.filter (·.cs ≠ 1)).foldlM (Cols.spanning spx)
    ((cells.filter (·.cs = 1)).foldl Cols.single ⟨fun _ => 0, fun _ => 0, fun _ => 0, fun _ => 0⟩)

/-- The widest that a column wants to be. -/
def Cols.wide (s : Cols) (c : ℕ) : Calc ℤ :=
  if s.colfix c > 0 then toShort (max (s.colmin c) (s.colfix c))
  else pure (max (s.colmax c) (s.colmin c))

def Cols.settle (s : Cols) (ncols : ℕ) : Calc Cols := do
  let colmax ← fill 0 s.wide ncols s.colmax
  pure { s with colmax := colmax }

/-! ## Widths -/

/-- What the engine reads of the style of a table. -/
structure TableStyle where
  margin_left : CssLen
  margin_right : CssLen
  padding_left : CssLen
  padding_right : CssLen
  bw_left : UInt8
  bw_right : UInt8
  width : CssLen
  box_sizing_border : Bool
  border_collapse : Bool
  spacing_x : ℤ
  /-- It is a `short`. -/
  spacing_fits : Narrow.Fits 0x8000 spacing_x

/-- Padding and border. -/
def TableStyle.tbh (st : TableStyle) (avail : ℤ) : ℤ :=
  rs st.padding_left avail + rs st.padding_right avail + st.bw_left.toNat + st.bw_right.toNat

def TableStyle.spx (st : TableStyle) : ℤ := if st.border_collapse then 0 else st.spacing_x

def TableStyle.sumspace (st : TableStyle) (ncols : ℕ) : ℤ := st.spx * (ncols + 1)

/-- A margin that is not automatic. -/
def autoMargin (l : CssLen) (avail : ℤ) : ℤ := if l.pct = cssAuto then 0 else rs l avail

/-- The width that there is for a table. -/
def TableStyle.max_outer (st : TableStyle) (avail : ℤ) : Calc ℤ := do
  let outer ← toInt (avail - autoMargin st.margin_left avail)
  toInt (outer - autoMargin st.margin_right avail)

/-- The width that a table gets, before its columns have theirs. -/
def TableStyle.W (st : TableStyle) (avail max_outer : ℤ) (any_pct : Bool) (ncols : ℕ)
    (summin summax : ℤ) : ℤ :=
  let least := summin + st.sumspace ncols + st.tbh avail
  let W :=
    if st.width.pct ≠ cssAuto then
      lenResolve st.width avail
        + if ¬ st.box_sizing_border ∧ st.width.pct = 0 then st.tbh avail else 0
    else if any_pct then max_outer
    else summax + st.sumspace ncols + st.tbh avail
  max (min W max_outer) least

/-- What is left of it for the columns. -/
def TableStyle.target (st : TableStyle) (avail W : ℤ) (ncols : ℕ) : Calc ℤ := do
  let inner ← toInt (W - st.tbh avail)
  let room ← toInt (inner - st.sumspace ncols)
  pure (max 0 room)

/-- The widest that a column wants to be, where it has a percentage. -/
def Cols.percent (s : Cols) (target : ℤ) (c : ℕ) : Calc ℤ :=
  if s.colpct c = 0 then pure (s.colmax c)
  else do
    let part ← toInt (target * s.colpct c)
    toShort (max (s.colmin c) (part.tdiv 1000))

def Cols.percents (s : Cols) (any_pct : Bool) (target : ℤ) (ncols : ℕ) : Calc (ℕ → ℤ) :=
  if any_pct then fill 0 (s.percent target) ncols s.colmax else pure s.colmax

/-- What the columns ask for, and what there is for them. -/
structure TableAsk where
  cells : List Cell
  ncols : ℕ
  colmin : ℕ → ℤ
  colmax : ℕ → ℤ
  colpct : ℕ → ℤ
  declared : Bool
  target : ℤ
  max_outer : ℤ

def tableAsk (avail : ℤ) (st : TableStyle) (rows : List (List CellIn)) : Calc TableAsk := do
  let g ← tableGrid rows
  let s ← tableCols st.spx g.cells
  let s ← s.settle g.ncols
  let any_pct := (List.range g.ncols).any fun c => s.colpct c ≠ 0
  let max_outer ← st.max_outer avail
  let W := st.W avail max_outer any_pct g.ncols (total s.colmin g.ncols) (total s.colmax g.ncols)
  let target ← st.target avail W g.ncols
  let colmax ← s.percents any_pct target g.ncols
  pure { cells := g.cells, ncols := g.ncols, colmin := s.colmin, colmax := colmax,
         colpct := s.colpct, declared := st.width.pct ≠ cssAuto ∨ any_pct, target := target,
         max_outer := max_outer }

def TableAsk.summin (a : TableAsk) : ℤ := total a.colmin a.ncols

def TableAsk.summax (a : TableAsk) : ℤ := total a.colmax a.ncols

/-- What a column gets of what is left. -/
def TableAsk.share (a : TableAsk) (extra : ℤ) (c : ℕ) : Calc ℤ :=
  if a.declared ∧ extra > 0 then
    if a.summax > 0 then do
      let part ← toInt (extra * a.colmax c)
      pure (part.tdiv a.summax)
    else pure (extra.tdiv (max 1 a.ncols))
  else pure 0

/-- The width of a column, before the rounding is made up for. -/
def TableAsk.width (a : TableAsk) (c : ℕ) : Calc ℤ :=
  if a.target ≥ a.summax then do
    let extra ← toInt (a.target - a.summax)
    let add ← a.share extra c
    toShort (a.colmax c + add)
  else if a.target > a.summin then do
    let part ← toInt ((a.colmax c - a.colmin c) * (a.target - a.summin))
    toShort (a.colmin c + part.tdiv (a.summax - a.summin))
  else pure (a.colmin c)

/-- The rounding is made up for in the last column. -/
def TableAsk.round (a : TableAsk) (colw : ℕ → ℤ) : Calc (ℕ → ℤ) :=
  if a.ncols > 0 ∧ a.target ≥ a.summin ∧ (a.declared ∨ a.target < a.summax)
      ∧ total colw a.ncols ≠ a.target then do
    let last := a.ncols - 1
    let w ← toShort (max (a.colmin last) (colw last + a.target - total colw a.ncols))
    pure (update colw last w)
  else pure colw

/-- What `lay_table` goes by when it lays out the rows. -/
structure Table where
  cells : List Cell
  ncols : ℕ
  colmin : ℕ → ℤ
  colw : ℕ → ℤ
  W : ℤ

/-- **The columns of a table.** -/
def layTable (avail : ℤ) (st : TableStyle) (rows : List (List CellIn)) : Calc Table := do
  let a ← tableAsk avail st rows
  let colw ← fill 0 a.width a.ncols fun _ => 0
  let colw ← a.round colw
  pure { cells := a.cells, ncols := a.ncols, colmin := a.colmin, colw := colw,
         W := total colw a.ncols + st.sumspace a.ncols + st.tbh avail }

/-- Where a column begins, if the first one begins at `x`. -/
def Table.colx (t : Table) (spx x : ℤ) : ℕ → ℤ
  | 0 => x
  | c + 1 => t.colx spx x c + t.colw c + spx

/-- The width of the box of a cell. -/
def Table.cwtot (t : Table) (spx : ℤ) (c : Cell) : ℤ :=
  spx * (c.cs - 1) + total (fun k => t.colw (c.col + k)) c.cs

end Css
