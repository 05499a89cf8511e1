import Mathlib.Algebra.Group.Nat.Defs
import MiniWin.Lib.Casts
import MiniWin.Web.Controls

/-!
# Lengths in a stylesheet

How `kernel/css.h` reads a length: a number with its unit, taken to device pixels, or a `calc()`,
`min()`, `max()` or `clamp()` of such lengths. Reading is a matter of the text alone, so it is
written for any way to calculate with what is read; the calculation of the engine, in `int`s that are
cast to `short`s, is one of them.
-/

namespace Css

open Net Dom

/-! ## Numbers -/

/-- A number times a hundred, as large as `css_num` lets it become. -/
structure Fixed where
  val : ℤ
  bounded : -999999 ≤ val ∧ val ≤ 999999
deriving DecidableEq

/-- `css_is_digit`, with what the digit is worth. -/
def digit (c : UInt8) : Option (Fin 10) :=
  if h : 0x30 ≤ c ∧ c ≤ 0x39 then
    some ⟨c.toNat - 0x30, by
      have := UInt8.le_iff_toNat_le.mp h.2
      have h39 : (0x39 : UInt8).toNat = 0x39 := rfl
      omega⟩
  else none

/-- The digits in front of the point. They no longer count once the number has four. -/
def whole (v : Fin 10000) : List UInt8 → Fin 10000 × List UInt8
  | [] => (v, [])
  | c :: s =>
    match digit c with
    | none => (v, c :: s)
    | some x => whole (if h : v.val < 1000 then ⟨v.val * 10 + x.val, by omega⟩ else v) s

/-- The digits behind the point, of which two count. -/
def fraction (frac fd : ℕ) : List UInt8 → ℕ × ℕ × List UInt8
  | [] => (frac, fd, [])
  | c :: s =>
    match digit c with
    | none => (frac, fd, c :: s)
    | some x => if fd < 2 then fraction (frac * 10 + x.val) (fd + 1) s else fraction frac fd s

theorem fraction_lt {frac fd : ℕ} (h : frac < 10 ^ fd) (hfd : fd ≤ 2) (s : List UInt8) :
    (fraction frac fd s).1 * 10 ^ (2 - (fraction frac fd s).2.1) < 100 := by
  induction s generalizing frac fd with
  | nil =>
    show frac * 10 ^ (2 - fd) < 100
    calc frac * 10 ^ (2 - fd) < 10 ^ fd * 10 ^ (2 - fd) :=
          Nat.mul_lt_mul_of_pos_right h (Nat.pow_pos (by decide))
      _ = 100 := by rw [← Nat.pow_add, Nat.add_sub_cancel' hfd]
  | cons c s ih =>
    unfold fraction
    split
    · calc frac * 10 ^ (2 - fd) < 10 ^ fd * 10 ^ (2 - fd) :=
            Nat.mul_lt_mul_of_pos_right h (Nat.pow_pos (by decide))
        _ = 100 := by rw [← Nat.pow_add, Nat.add_sub_cancel' hfd]
    · next x _ =>
      split
      · refine ih ?_ (by omega)
        rw [Nat.pow_succ]
        omega
      · exact ih h hfd

/-- `css_num`: the number in front of the text, and the text behind it. -/
def cssNum (s : List UInt8) : Option (Fixed × List UInt8) :=
  let neg := s.head? = some 0x2D
  let s₁ := if neg ∨ s.head? = some 0x2B then s.tail else s
  let w := whole 0 s₁
  let f := if w.2.head? = some 0x2E then fraction 0 0 w.2.tail else (0, 0, w.2)
  -- without a digit there is no number, only the sign and the point
  if w.2.length = s₁.length ∧ (w.2.head? = some 0x2E → f.2.2 = w.2.tail) then none
  else
    let frac := f.1 * 10 ^ (2 - f.2.1)
    have hfrac : frac < 100 := by
      show f.1 * 10 ^ (2 - f.2.1) < 100
      dsimp only [f]
      split
      · exact fraction_lt (by decide) (by decide) _
      · show 0 * _ < 100
        rw [Nat.zero_mul]
        decide
    some (⟨if neg then -(w.1.val * 100 + frac : ℕ) else (w.1.val * 100 + frac : ℕ), by
      have := w.1.isLt
      split <;> omega⟩, f.2.2)

/-! ## Units -/

/-- What a number may have behind it. -/
inductive LenUnit
  | bare | px | em | rem | ex | ch | pt | pc | inch | cm | mm | q
  | percent | vw | vh | vmin | vmax
deriving DecidableEq

def units : List (String × LenUnit) :=
  [("px", .px), ("em", .em), ("rem", .rem), ("ex", .ex), ("ch", .ch), ("pt", .pt), ("pc", .pc),
    ("in", .inch), ("cm", .cm), ("mm", .mm), ("q", .q), ("%", .percent), ("vw", .vw), ("vh", .vh),
    ("vmin", .vmin), ("vmax", .vmax)]

def unitOf (u : List UInt8) : Option LenUnit :=
  if u = [] then some .bare else (units.find? fun x => kw u x.1).map (·.2)

/-- The words that are `auto` as a length. -/
def autoWords : List String := ["auto", "none", "normal", "initial", "inherit", "unset"]

/-! ## Reading -/

/-- What to do with what is read: a number with its unit, the arguments between commas, and the sum
of a `calc()`, which starts at `zero`, takes one term after the other and is closed at the end. -/
structure LenOps (α β : Type) where
  auto : α
  num : Fixed → LenUnit → α
  one : α → α
  two : α → α → α
  three : α → α → α → α
  zero : β
  plus : β → Bool → α → β
  total : β → α

/-- The text in front of the parenthesis that closes. -/
def inside (depth : ℕ) : List UInt8 → List UInt8
  | [] => []
  | c :: s =>
    if c = 0x28 then c :: inside (depth + 1) s
    else if c = 0x29 then if depth = 1 then [] else c :: inside (depth - 1) s
    else c :: inside depth s

/-- There is a comma outside of all parentheses. -/
def hasComma (depth : ℤ) : List UInt8 → Bool
  | [] => false
  | c :: s =>
    if c = 0x28 then hasComma (depth + 1) s
    else if c = 0x29 then hasComma (depth - 1) s
    else c = 0x2C && depth = 0 || hasComma depth s

/-- The text up to what `stop` says outside of all parentheses, and the rest. -/
def upTo (stop : UInt8 → Bool) (depth : ℤ) : List UInt8 → List UInt8 × List UInt8
  | [] => ([], [])
  | c :: s =>
    if stop c ∧ depth = 0 then ([], c :: s)
    else
      let r := upTo stop (if c = 0x28 then depth + 1 else if c = 0x29 then depth - 1 else depth) s
      (c :: r.1, r.2)

/-- The loop over the arguments, of which there are at most `n`. -/
def lenArgs {α : Type} (parse : List UInt8 → Option α) : ℕ → List UInt8 → Option (List α)
  | 0, _ => some []
  | _ + 1, [] => some []
  | n + 1, c :: s =>
    let r := upTo (· = 0x2C) 0 ((c :: s).dropWhile isWs)
    (parse (r.1.rdropWhile isWs)).bind fun x => (lenArgs parse n r.2.tail).map (x :: ·)

/-- The sign in front of a term. The first term has none. -/
def termSign (first : Bool) (c : UInt8) (s : List UInt8) : Option (Bool × List UInt8) :=
  if first then some (false, c :: s)
  else if c = 0x2B then some (false, s.dropWhile isWs)
  else if c = 0x2D then some (true, s.dropWhile isWs)
  else none

mutual

/-- `css_parse_len`. -/
def parseLen {α β : Type} (o : LenOps α β) : ℕ → List UInt8 → Bool → Option α
  | 0, _, _ => none
  | k + 1, s, unitlessOk =>
    if s = [] then none
    else if autoWords.any (kw s ·) then some o.auto
    else if 5 < s.length ∧ kw (s.take 5) "calc(" then parseCalc o k (s.drop 5)
    else if 4 < s.length ∧ (kw (s.take 4) "min(" ∨ kw (s.take 4) "max(") then parseCalc o k (s.drop 4)
    else if 6 < s.length ∧ kw (s.take 6) "clamp(" then parseCalc o k (s.drop 6)
    else
      (cssNum s).bind fun x =>
        (unitOf x.2).bind fun u =>
          if u = .bare ∧ x.1.val ≠ 0 ∧ ¬ unitlessOk then none else some (o.num x.1 u)

/-- `css_calc`. -/
def parseCalc {α β : Type} (o : LenOps α β) : ℕ → List UInt8 → Option α
  | 0, _ => none
  | k + 1, s =>
    if hasComma 0 (inside 1 s) then
      (lenArgs (fun t => parseLen o k t true) 3 (inside 1 s)).bind fun
        | [a, b, c] => some (o.three a b c)
        | [a, b] => some (o.two a b)
        | [a] => some (o.one a)
        | _ => none
    else (terms o k (inside 1 s) true o.zero).map o.total

/-- The loop over the terms of a `calc()`. -/
def terms {α β : Type} (o : LenOps α β) : ℕ → List UInt8 → Bool → β → Option β
  | 0, _, _, _ => none
  | k + 1, s, first, acc =>
    match s.dropWhile isWs with
    | [] => some acc
    | c :: s =>
      (termSign first c s).bind fun x =>
        let r := upTo isWs 0 x.2
        (parseLen o k r.1 true).bind fun t => terms o k r.2 false (o.plus acc x.1 t)

end

/-! ### The fuel is enough -/

/-! ## The arithmetic of the engine -/

/-- A cast to `short`. -/
def short (x : ℤ) : ℤ := Narrow.wrap 0x8000 x

/-- An `int`. -/
def int32 (x : ℤ) : ℤ := Narrow.wrap 0x80000000 x

/-- `css_len_t`. -/
@[ext] structure CssLen where
  px : ℤ
  pct : ℤ
deriving DecidableEq

/-- `CSS_AUTO`. -/
def cssAuto : ℤ := 0x7FFF

/-- `css_len_px`. -/
def cssLenPx (px : ℤ) : CssLen :=
  ⟨short (if px > 32000 then 32000 else if px < -32000 then -32000 else px), 0⟩

/-- What a length is measured by: the size of the font, and the window. -/
structure LenEnv where
  fpx : ℤ
  viewport_w : ℤ
  viewport_h : ℤ

/-- The number of CSS pixels, times a hundred. The results of `w` are what an `int` makes of them. -/
def px100 (w : ℤ → ℤ) (e : LenEnv) (v : ℤ) : LenUnit → ℤ
  | .em => w (v * e.fpx)
  | .rem => w (v * 16)
  | .ex => (w (v * e.fpx)).tdiv 2
  | .ch => (w (w (v * e.fpx) * 6)).tdiv 10
  | .pt => (w (v * 4)).tdiv 3
  | .pc => w (v * 16)
  | .inch => w (v * 96)
  | .cm => (w (v * 3780)).tdiv 100
  | .mm => (w (v * 378)).tdiv 100
  | .q => (w (v * 95)).tdiv 100
  | _ => v

/-- CSS pixels times a hundred in device pixels, to the nearest. -/
def device (w : ℤ → ℤ) (p : ℤ) : ℤ :=
  let q := if p < 0 then w (-p) else p
  let dev := (w (w (q * 11) + 800)).tdiv 1600
  if p < 0 then w (-dev) else dev

/-- The side of the window that a unit goes by. -/
def side (e : LenEnv) : LenUnit → Option ℤ
  | .vw => some e.viewport_w
  | .vh => some e.viewport_h
  | .vmin => some (if e.viewport_w < e.viewport_h then e.viewport_w else e.viewport_h)
  | .vmax => some (if e.viewport_w > e.viewport_h then e.viewport_w else e.viewport_h)
  | _ => none

/-- A number with its unit as a length, with `n` for the casts to `short`. -/
def numLen (w n : ℤ → ℤ) (e : LenEnv) (v : ℤ) (u : LenUnit) : CssLen :=
  match u, side e u with
  | .percent, _ =>
    ⟨0, n (if v.tdiv 10 > 30000 then 30000 else if v.tdiv 10 < -30000 then -30000 else v.tdiv 10)⟩
  | _, some m => ⟨n ((w (m * v)).tdiv 10000), 0⟩
  | u, none => ⟨n (device w (px100 w e v u)), 0⟩

/-- The percentage of a term of a sum. -/
def CssLen.termPct (t : CssLen) : ℤ := if t.pct = cssAuto then 0 else t.pct

/-- What `css_calc` takes of two arguments. -/
def pick (a b : CssLen) : CssLen :=
  if a.pct = 0 ∧ b.pct ≠ 0 then a
  else if b.pct = 0 ∧ a.pct ≠ 0 then b
  else if a.px < b.px then a else b

def signed (neg : Bool) (x : ℤ) : ℤ := if neg then -x else x

/-- The engine's way to calculate. -/
def engine (e : LenEnv) : LenOps CssLen CssLen where
  auto := ⟨0, cssAuto⟩
  num v u := numLen int32 short e v.val u
  one a := a
  two a b := pick a b
  three _ b _ := b
  zero := cssLenPx 0
  plus acc neg t := ⟨short (acc.px + signed neg t.px), short (acc.pct + signed neg t.termPct)⟩
  total acc := acc

/-- `css_parse_len`: what it stores, if it takes the text. -/
def cssParseLen (e : LenEnv) (s : List UInt8) (unitlessOk : Bool) : Option CssLen :=
  parseLen (engine e) (s.length + 1) s unitlessOk

/-- `css_len_resolve`. -/
def lenResolve (l : CssLen) (base : ℤ) : ℤ :=
  if l.pct = cssAuto then 0
  else
    let b := if base > 20000 then 20000 else if base < -20000 then -20000 else base
    let v := int32 (l.px + (int32 (b * l.pct)).tdiv 1000)
    if v > 20000 then 20000 else if v < -20000 then -20000 else v

end Css
