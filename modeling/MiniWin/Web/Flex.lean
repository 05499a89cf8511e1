import Mathlib.Algebra.Ring.Int.Defs
import MiniWin.Web.CssLen

/-!
# Flex rows

`lay_flex_content` of `kernel/layout.h`, for the direction of a row: what each child asks for, how
the children are broken into lines, and how wide each of them becomes. The intrinsic widths of a
child are what `lay_intrinsic` or `lay_replaced_size` gives. An `int` that overflows is undefined,
and a line with one has no widths.
-/

namespace Css

open Narrow Net

/-! ## The factors -/

/-- A number as `CP_FLEX_GROW` and `CP_FLEX_SHRINK` store it, times ten. -/
def flexFactor (x : Fixed) : ℤ := short (x.val.tdiv 10)

/-- What `CP_FLEX_GROW` and `CP_FLEX_SHRINK` store, if the text begins with a number. -/
def cssFlexFactor (v : List UInt8) : Option ℤ := (cssNum v).map fun r => flexFactor r.1

/-! ## The children -/

/-- `rs`. -/
def rs (l : CssLen) (base : ℤ) : ℤ := if l.pct = cssAuto then 0 else lenResolve l base

/-- What the engine reads of the style of a child, for a row. Of the four sides of a box there are
the left and the right one. -/
structure FlexStyle where
  margin_left : CssLen
  margin_right : CssLen
  padding_left : CssLen
  padding_right : CssLen
  bw_left : UInt8
  bw_right : UInt8
  width : CssLen
  flex_basis : CssLen
  box_sizing_border : Bool
  flex_grow : ℤ
  flex_shrink : ℤ

/-- A child of a row: a text that is not blank, or an element that is displayed, each with its
intrinsic widths. -/
inductive FlexChild where
  | text (mn mx : ℕ)
  | elem (st : FlexStyle) (mn mx : ℤ)

/-- `fxitem_t`, as far as the widths go by it. -/
structure FlexItem where
  base : ℤ
  mn : ℤ
  ex : ℤ
  grow : ℤ
  shrink : ℤ
  base_nonneg : 0 ≤ base
deriving DecidableEq

/-- `lay_box_extras`: both sums. -/
def FlexStyle.extras (st : FlexStyle) (base : ℤ) : ℤ :=
  (rs st.margin_left base + rs st.padding_left base + st.bw_left.toNat)
    + (rs st.margin_right base + rs st.padding_right base + st.bw_right.toNat)

/-- Padding and border. -/
def FlexStyle.hor (st : FlexStyle) (base : ℤ) : ℤ :=
  rs st.padding_left base + rs st.padding_right base + st.bw_left.toNat + st.bw_right.toNat

/-- A length for the content, if it is one for the box. -/
def FlexStyle.content (st : FlexStyle) (l : CssLen) (base : ℤ) : ℤ :=
  if st.box_sizing_border then lenResolve l base - st.hor base else lenResolve l base

/-- How wide a child is to be, to begin with. -/
def FlexStyle.base (st : FlexStyle) (cw mx : ℤ) : ℤ :=
  if st.flex_basis.pct ≠ cssAuto then st.content st.flex_basis cw
  else if st.width.pct ≠ cssAuto then st.content st.width cw
  else mx

/-- The loop over the children. -/
def flexItem (cw : ℕ) : FlexChild → FlexItem
  | .text mn mx =>
    { base := min mx cw, mn := mn, ex := 0, grow := 0, shrink := 10, base_nonneg := by omega }
  | .elem st mn mx =>
    { base := min (max 0 (st.base cw mx)) 4000, mn := min mn 4000, ex := st.extras cw,
      grow := min st.flex_grow 400, shrink := min st.flex_shrink 40, base_nonneg := by omega }

/-- `FX_MAX`. -/
def fxMax : ℕ := 96

def flexItems (cw : ℕ) (children : List FlexChild) : List FlexItem :=
  (children.take fxMax).map (flexItem cw)

/-- The gap between two columns. -/
def flexGap (gap_col : ℤ) : ℤ := min (max gap_col 0) 2000

/-! ## Lines -/

/-- The items that still go into a line, and those behind it. -/
def flexFill (cw gap : ℤ) (wrap : Bool) : ℤ → List FlexItem → List FlexItem × List FlexItem
  | _, [] => ([], [])
  | sum, it :: rest =>
    let add := it.base + it.ex + gap
    if wrap ∧ sum + add > cw then ([], it :: rest)
    else
      let r := flexFill cw gap wrap (sum + add) rest
      (it :: r.1, r.2)

/-- The lines of a row, each with what is behind it. Each of them has an item, so there are no more
than items. -/
def flexBreak (cw gap : ℤ) (wrap : Bool) : ℕ → List FlexItem → List (List FlexItem × List FlexItem)
  | 0, _ => []
  | _, [] => []
  | n + 1, it :: rest =>
    let r := flexFill cw gap wrap (it.base + it.ex) rest
    (it :: r.1, r.2) :: flexBreak cw gap wrap n r.2

/-- What a line takes, with these widths. -/
def flexOuter (gap : ℤ) (line : List (FlexItem × ℤ)) : ℤ :=
  (line.map fun p => p.2 + p.1.ex).sum + gap * ((line.length : ℤ) - 1)

/-- What is left of the container, if it is cut nowhere. -/
def flexFree (cw gap : ℤ) (line : List FlexItem) : ℤ :=
  cw - flexOuter gap (line.map fun it => (it, it.base))

def growSum (line : List FlexItem) : ℤ := (line.map FlexItem.grow).sum

/-- How much of what is missing falls to an item. -/
def FlexItem.weight (it : FlexItem) : ℤ := it.shrink * it.base

def shrinkSum (line : List FlexItem) : ℤ := (line.map FlexItem.weight).sum

/-- The least width that shrinking leaves. -/
def FlexItem.least (it : FlexItem) : ℤ := min it.mn it.base

/-- What is missing, as far as it is taken from the items. -/
def flexNeed (free : ℤ) : ℤ := min (-free) 4000

/-- What is taken from an item. -/
def flexCut (free ts : ℤ) (it : FlexItem) : ℤ := (flexNeed free * it.weight).tdiv ts

/-- The width of an item. -/
def flexWidth (wrap : Bool) (free tg ts : ℤ) (it : FlexItem) : ℤ :=
  if free > 0 ∧ tg > 0 then it.base + (free * it.grow).tdiv tg
  else if free < 0 ∧ ts > 0 ∧ ¬ wrap then max it.least (it.base - flexCut free ts it)
  else it.base

/-- The results of adding up a list. -/
def partialSums (l : List ℤ) : List ℤ := l.scanl (· + ·) 0

/-- Each but the first has a gap in front of it. -/
def gapped (gap : ℤ) : List ℤ → List ℤ
  | [] => []
  | x :: l => x :: l.map (· + gap)

/-- The `int`s that the widths of a line are calculated with. -/
def flexInts (cw gap : ℤ) (wrap : Bool) (line behind : List FlexItem) : List ℤ :=
  let free := flexFree cw gap line
  let tg := growSum line
  let ts := shrinkSum line
  let w := flexWidth wrap free tg ts
  partialSums (gapped gap ((line ++ behind.take 1).map fun it => it.base + it.ex)) ++
    [free, -free] ++ partialSums (line.map FlexItem.grow) ++ line.map FlexItem.weight ++
    partialSums (line.map FlexItem.weight) ++
    (if free > 0 ∧ tg > 0 then line.map fun it => free * it.grow else []) ++
    (if free < 0 ∧ ts > 0 ∧ ¬ wrap then (line.map fun it => flexNeed free * it.weight) ++
      line.map fun it => it.base - flexCut free ts it else []) ++
    line.map w ++ partialSums (gapped gap (line.map fun it => w it + it.ex))

/-- **The widths of a line**, if no `int` overflows. -/
def flexLine (cw gap : ℤ) (wrap : Bool) (line behind : List FlexItem) :
    Option (List (FlexItem × ℤ)) :=
  if ∀ x ∈ flexInts cw gap wrap line behind, Fits 0x80000000 x then
    some (line.map fun it =>
      (it, flexWidth wrap (flexFree cw gap line) (growSum line) (shrinkSum line) it))
  else none

/-- **The lines of a flex row** with their widths. -/
def flexRow (cw : ℕ) (gap_col : ℤ) (wrap : Bool) (children : List FlexChild) :
    List (Option (List (FlexItem × ℤ))) :=
  let items := flexItems cw children
  (flexBreak cw (flexGap gap_col) wrap items.length items).map fun r =>
    flexLine cw (flexGap gap_col) wrap r.1 r.2

end Css
