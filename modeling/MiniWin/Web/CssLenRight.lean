import MiniWin.Web.CssLen
import Mathlib.Tactic.Linarith

/-!
# When lengths saturate

What a length comes to without bounds on the numbers, cut off at the bounds of a `short` where a
length is stored, against what the engine stores. `css_num` keeps its number below ten thousand, yet
the factor of a unit and the size of the font can still take it out of an `int`, and neither the
casts nor the sums of `calc()` stop at a bound. The condition is one on each number of the text, by
its unit, and one on each sum.

A text is read once, as an expression, and both ways to calculate are folds over it.
-/

namespace Css

open Net Dom Narrow

/-! ## What is read -/

mutual

/-- A length as it is written. -/
inductive LenExpr
  | auto
  | num (v : Fixed) (u : LenUnit)
  | one (a : LenExpr)
  | two (a b : LenExpr)
  | three (a b c : LenExpr)
  | total (s : LenSum)

/-- The terms of a `calc()`, the last one in front. -/
inductive LenSum
  | zero
  | plus (s : LenSum) (neg : Bool) (t : LenExpr)

end

/-- Nothing is calculated. -/
def written : LenOps LenExpr LenSum := ⟨.auto, .num, .one, .two, .three, .zero, .plus, .total⟩

variable {α β : Type}

mutual

def LenExpr.eval (o : LenOps α β) : LenExpr → α
  | .auto => o.auto
  | .num v u => o.num v u
  | .one a => o.one (a.eval o)
  | .two a b => o.two (a.eval o) (b.eval o)
  | .three a b c => o.three (a.eval o) (b.eval o) (c.eval o)
  | .total s => o.total (s.eval o)

def LenSum.eval (o : LenOps α β) : LenSum → β
  | .zero => o.zero
  | .plus s neg t => o.plus (s.eval o) neg (t.eval o)

end

theorem lenArgs_map (f : α → β) {p : List UInt8 → Option α} {p' : List UInt8 → Option β}
    (h : ∀ t, p' t = (p t).map f) (n : ℕ) (s : List UInt8) :
    lenArgs p' n s = (lenArgs p n s).map (List.map f) := by
  induction n generalizing s with
  | zero => rfl
  | succ n ih =>
    cases s with
    | nil => rfl
    | cons c s =>
      simp only [lenArgs, h, ih]
      cases p _ with
      | none => rfl
      | some x => cases lenArgs p n _ <;> rfl

/-- The three functions that read, for one amount of fuel. -/
theorem reads_map (o : LenOps α β) (k : ℕ) :
    (∀ s b, parseLen o k s b = (parseLen written k s b).map (·.eval o)) ∧
    (∀ s, parseCalc o k s = (parseCalc written k s).map (·.eval o)) ∧
    ∀ s first acc, terms o k s first (acc.eval o) =
      (terms written k s first acc).map (·.eval o) := by
  induction k with
  | zero => exact ⟨fun _ _ => rfl, fun _ => rfl, fun _ _ _ => rfl⟩
  | succ k ih =>
    obtain ⟨hparse, hcalc, hterms⟩ := ih
    refine ⟨fun s b => ?_, fun s => ?_, fun s first acc => ?_⟩
    · unfold parseLen
      split_ifs
      · rfl
      · rfl
      · exact hcalc _
      · exact hcalc _
      · exact hcalc _
      · cases cssNum s with
        | none => rfl
        | some x =>
          show (unitOf x.2).bind _ = Option.map _ ((unitOf x.2).bind _)
          cases unitOf x.2 with
          | none => rfl
          | some u =>
            show (if _ then _ else _) = Option.map _ (if _ then _ else _)
            split <;> rfl
    · unfold parseCalc
      split
      · rw [lenArgs_map _ fun t => hparse t true]
        rcases lenArgs (fun t => parseLen written k t true) 3 (inside 1 s) with
          _ | (_ | ⟨a, _ | ⟨b, _ | ⟨c, _ | _⟩⟩⟩) <;> rfl
      · have hz := hterms (inside 1 s) true .zero
        rw [show terms o k (inside 1 s) true o.zero = _ from hz]
        show Option.map _ (Option.map _ (terms written k (inside 1 s) true .zero)) =
          Option.map _ (Option.map _ (terms written k (inside 1 s) true .zero))
        cases terms written k (inside 1 s) true .zero <;> rfl
    · unfold terms
      cases s.dropWhile isWs with
      | nil => rfl
      | cons c s =>
        show (termSign first c s).bind _ = Option.map _ ((termSign first c s).bind _)
        cases termSign first c s with
        | none => rfl
        | some x =>
          show (parseLen o k _ true).bind _ = Option.map _ ((parseLen written k _ true).bind _)
          rw [hparse]
          cases parseLen written k (upTo isWs 0 x.2).1 true with
          | none => rfl
          | some t => exact hterms _ false (.plus acc x.1 t)

/-- What the engine takes a text for. -/
def readLen (s : List UInt8) (unitlessOk : Bool) : Option LenExpr :=
  parseLen written (s.length + 1) s unitlessOk

/-- **The engine calculates what is written.** -/
theorem cssParseLen_eq (e : LenEnv) (s : List UInt8) (b : Bool) :
    cssParseLen e s b = (readLen s b).map (·.eval (engine e)) :=
  (reads_map (engine e) _).1 s b

/-! ## Without bounds -/

def satPx (x : ℤ) : ℤ := sat (-0x8000) 0x7FFF x

/-- A percentage that is calculated stops short of the one that means `auto`. -/
def satPct (x : ℤ) : ℤ := sat (-0x8000) 0x7FFE x

/-- The way to calculate with numbers of any size, that stops at the bounds where it stores. -/
def exact (e : LenEnv) : LenOps CssLen CssLen where
  auto := ⟨0, cssAuto⟩
  num v u := numLen id satPx e v.val u
  one a := a
  two a b := pick a b
  three _ b _ := b
  zero := ⟨0, 0⟩
  plus acc neg t := ⟨acc.px + signed neg t.px, acc.pct + signed neg t.termPct⟩
  total acc := ⟨satPx acc.px, satPct acc.pct⟩

/-- The products with a number on the way to CSS pixels. -/
def products (e : LenEnv) (v : ℤ) : LenUnit → List ℤ
  | .em | .ex => [v * e.fpx]
  | .ch => [v * e.fpx, v * e.fpx * 6]
  | .rem | .pc => [v * 16]
  | .pt => [v * 4]
  | .inch => [v * 96]
  | .cm => [v * 3780]
  | .mm => [v * 378]
  | .q => [v * 95]
  | u => (side e u).elim [] fun m => [m * v]

/-- What is calculated on the way from CSS pixels to device pixels. -/
def deviceInts (p : ℤ) : List ℤ :=
  [p, p.natAbs, p.natAbs * 11, p.natAbs * 11 + 800, device id p]

/-- All that is calculated on the way from a number to a length. -/
def ints (e : LenEnv) (v : ℤ) (u : LenUnit) : List ℤ :=
  products e v u ++
    if u = .percent ∨ (side e u).isSome then [] else deviceInts (px100 id e v u)

/-- The device pixels of a number, without bounds. -/
def rawPx (e : LenEnv) (v : ℤ) (u : LenUnit) : ℤ :=
  match u, side e u with
  | .percent, _ => 0
  | _, some m => (m * v).tdiv 10000
  | u, none => device id (px100 id e v u)

mutual

/-- **The property**: at every length of the text, each number on the way fits in an `int`, and what
is stored is the exact length, cut off at the bounds. -/
def LenExpr.Saturates (e : LenEnv) : LenExpr → Prop
  | .auto => True
  | .num v u =>
    (∀ x ∈ ints e v.val u, Fits 0x80000000 x) ∧
      (LenExpr.num v u).eval (engine e) = (LenExpr.num v u).eval (exact e)
  | .one a => a.Saturates e ∧ (LenExpr.one a).eval (engine e) = (LenExpr.one a).eval (exact e)
  | .two a b =>
    a.Saturates e ∧ b.Saturates e ∧
      (LenExpr.two a b).eval (engine e) = (LenExpr.two a b).eval (exact e)
  | .three a b c =>
    a.Saturates e ∧ b.Saturates e ∧ c.Saturates e ∧
      (LenExpr.three a b c).eval (engine e) = (LenExpr.three a b c).eval (exact e)
  | .total s =>
    s.Saturates e ∧ (LenExpr.total s).eval (engine e) = (LenExpr.total s).eval (exact e)

/-- The terms of a sum do, and its additions fit in an `int`. -/
def LenSum.Saturates (e : LenEnv) : LenSum → Prop
  | .zero => True
  | .plus s neg t =>
    s.Saturates e ∧ t.Saturates e ∧
      Fits 0x80000000 ((s.eval (engine e)).px + signed neg (t.eval (engine e)).px) ∧
      Fits 0x80000000 ((s.eval (engine e)).pct + signed neg (t.eval (engine e)).termPct)

end

/-! ## The condition -/

/-- How large a number may be in front of its unit. -/
def LenUnit.Small (e : LenEnv) (v : ℤ) : LenUnit → Prop
  | .em => (v * e.fpx).natAbs ≤ 195225713
  | .ex => ((v * e.fpx).tdiv 2).natAbs ≤ 195225713
  | .ch => ((v * e.fpx * 6).tdiv 10).natAbs ≤ 195225713
  | .cm => v.natAbs ≤ 568117
  | u => (side e u).elim True fun m => Fits 0x80000000 (m * v)

mutual

/-- **The condition**: each number is small enough for its unit, and it and each sum end in the range
of a `short`, or by chance where they had to stop. -/
def LenExpr.InRange (e : LenEnv) : LenExpr → Prop
  | .auto => True
  | .num v u => u.Small e v.val ∧ Lands 0x8000 (-0x8000) 0x7FFF (rawPx e v.val u)
  | .one a => a.InRange e
  | .two a b => a.InRange e ∧ b.InRange e
  | .three a b c => a.InRange e ∧ b.InRange e ∧ c.InRange e
  | .total s =>
    s.InRange e ∧ Lands 0x8000 (-0x8000) 0x7FFF (s.eval (exact e)).px ∧
      Lands 0x8000 (-0x8000) 0x7FFE (s.eval (exact e)).pct

def LenSum.InRange (e : LenEnv) : LenSum → Prop
  | .zero => True
  | .plus s _ t => s.InRange e ∧ t.InRange e

end

/-! ## One number -/

variable {e : LenEnv} {v : ℤ}

/-- The product with the size of the font is no more than an `int` holds. -/
theorem font_product_le (hfont : 1 ≤ e.fpx ∧ e.fpx ≤ 400) (hv : -999999 ≤ v ∧ v ≤ 999999) :
    -399999600 ≤ v * e.fpx ∧ v * e.fpx ≤ 399999600 := by
  constructor <;> nlinarith

theorem device_natAbs_le (p : ℤ) : (device id p).natAbs ≤ p.natAbs * 11 + 800 := by
  unfold device
  simp only [id, tdiv_eq]
  split <;> omega

theorem deviceInts_fit_iff (p : ℤ) :
    (∀ x ∈ deviceInts p, Fits 0x80000000 x) ↔ p.natAbs ≤ 195225713 := by
  have hdev := device_natAbs_le p
  simp only [deviceInts, List.forall_mem_cons, List.not_mem_nil, false_imp_iff, imp_true_iff,
    and_true, Fits]
  omega

/-- **Which numbers keep everything in an `int`.** -/
theorem ints_fit_iff (hfont : 1 ≤ e.fpx ∧ e.fpx ≤ 400) (hv : -999999 ≤ v ∧ v ≤ 999999)
    (u : LenUnit) : (∀ x ∈ ints e v u, Fits 0x80000000 x) ↔ u.Small e v := by
  have hp := font_product_le hfont hv
  unfold ints
  rw [List.forall_mem_append]
  cases u
  case percent | vw | vh | vmin | vmax =>
    simp [products, side, LenUnit.Small]
  all_goals
    rw [if_neg (by simp [side]), deviceInts_fit_iff]
    simp only [products, px100, side, LenUnit.Small, Fits, id, tdiv_eq, List.forall_mem_cons,
      List.not_mem_nil, false_imp_iff, imp_true_iff, and_true, Option.elim_none,
      iff_true, true_and]
    generalize v * e.fpx = p at hp ⊢
    omega

theorem int32_eq {x : ℤ} (h : Fits 0x80000000 x) : int32 x = x := wrap_eq_self h

/-- CSS pixels that the engine calculates, if the products fit. -/
theorem px100_eq {u : LenUnit} (h : ∀ x ∈ products e v u, Fits 0x80000000 x) :
    px100 int32 e v u = px100 id e v u := by
  cases u <;> simp only [products, List.forall_mem_cons, List.not_mem_nil, false_imp_iff,
    imp_true_iff, and_true] at h <;> simp only [px100, id]
  case ch => rw [int32_eq h.1, int32_eq h.2]
  all_goals rw [int32_eq h]

theorem device_eq {p : ℤ} (h : p.natAbs ≤ 195225713) : device int32 p = device id p := by
  have hneg : int32 (-p) = -p := int32_eq ⟨by omega, by omega⟩
  have hdev := device_natAbs_le p
  unfold device at hdev ⊢
  simp only [id, hneg] at hdev ⊢
  generalize hq : (if p < 0 then -p else p) = q at hdev ⊢
  have hq' : 0 ≤ q ∧ q ≤ 195225713 := by split at hq <;> omega
  rw [int32_eq (x := q * 11) ⟨by omega, by omega⟩, int32_eq (x := q * 11 + 800) ⟨by omega, by omega⟩]
  split
  · next h' =>
    rw [if_pos h'] at hdev
    exact int32_eq ⟨by omega, by omega⟩
  · rfl

/-- The engine calculates a number as without bounds, if everything fits, up to the cast. -/
theorem numLen_eq {u : LenUnit} (h : ∀ x ∈ ints e v u, Fits 0x80000000 x) (n : ℤ → ℤ) :
    numLen int32 n e v u = numLen id n e v u := by
  unfold ints at h
  rw [List.forall_mem_append] at h
  have hpx := px100_eq h.1
  cases u
  case percent => rfl
  case vw | vh | vmin | vmax =>
    simp only [products, side, Option.elim_some, List.forall_mem_cons, List.not_mem_nil,
      false_imp_iff, imp_true_iff, and_true] at h
    simp only [numLen, side, id]
    rw [int32_eq h.1]
  all_goals
    have hdev := h.2
    rw [if_neg (by simp [side]), deviceInts_fit_iff] at hdev
    simp only [numLen, side]
    rw [hpx, device_eq hdev]

theorem numLen_px (n : ℤ → ℤ) (hn : n 0 = 0) (u : LenUnit) :
    (numLen id n e v u).px = n (rawPx e v u) := by
  cases u <;> simp [numLen, rawPx, side, hn]

/-- The percentage of a number is cut off as it is read. -/
theorem numLen_pct (u : LenUnit) :
    (numLen id short e v u).pct = (numLen id satPx e v u).pct := by
  cases u
  case percent =>
    show short _ = satPx _
    exact (wrap_eq_sat_iff (by decide) (by decide) (by decide) _).mpr (.inl (by split_ifs <;> omega))
  all_goals rfl

/-- **One number.** -/
theorem num_saturates_iff (hfont : 1 ≤ e.fpx ∧ e.fpx ≤ 400) (v : Fixed) (u : LenUnit) :
    (LenExpr.num v u).Saturates e ↔ (LenExpr.num v u).InRange e := by
  refine (and_congr_right_iff.mpr fun h => ?_).trans
    (and_congr_left' (ints_fit_iff hfont v.bounded u))
  show numLen int32 short e v.val u = numLen id satPx e v.val u ↔ _
  rw [numLen_eq h, ← wrap_eq_sat_iff (by decide) (by decide) (by decide)]
  have hpx := numLen_px (e := e) (v := v.val) short rfl u
  have hsat := numLen_px (e := e) (v := v.val) satPx rfl u
  constructor
  · intro heq
    rw [heq, hsat] at hpx
    exact hpx.symm
  · intro heq
    exact CssLen.ext (hpx.trans (heq.trans hsat.symm)) (numLen_pct u)

/-! ## A whole text -/

theorem pick_cases (a b : CssLen) : pick a b = a ∨ pick a b = b := by
  unfold pick
  split_ifs <;> simp

theorem fits_zero : Fits 0x8000 0 := by decide

theorem numLen_fits (w : ℤ → ℤ) (u : LenUnit) :
    Fits 0x8000 (numLen w short e v u).px ∧ Fits 0x8000 (numLen w short e v u).pct := by
  cases u
  case percent => exact ⟨fits_zero, wrap_fits (by decide) _⟩
  all_goals exact ⟨wrap_fits (by decide) _, fits_zero⟩

mutual

/-- What the engine stores is a `short`. -/
theorem LenExpr.engine_fits : (x : LenExpr) →
    Fits 0x8000 (x.eval (engine e)).px ∧ Fits 0x8000 (x.eval (engine e)).pct
  | .auto => ⟨fits_zero, show Fits 0x8000 cssAuto by decide⟩
  | .num _ u => numLen_fits int32 u
  | .one a => a.engine_fits
  | .two a b => by
    rcases pick_cases (a.eval (engine e)) (b.eval (engine e)) with h | h
    · show Fits _ (pick _ _).px ∧ Fits _ (pick _ _).pct
      rw [h]
      exact a.engine_fits
    · show Fits _ (pick _ _).px ∧ Fits _ (pick _ _).pct
      rw [h]
      exact b.engine_fits
  | .three _ b _ => b.engine_fits
  | .total s => s.engine_fits

theorem LenSum.engine_fits : (s : LenSum) →
    Fits 0x8000 (s.eval (engine e)).px ∧ Fits 0x8000 (s.eval (engine e)).pct
  | .zero => ⟨fits_zero, fits_zero⟩
  | .plus _ _ _ => ⟨wrap_fits (by decide) _, wrap_fits (by decide) _⟩

end

theorem LenExpr.Saturates.eval_eq {x : LenExpr} (h : x.Saturates e) :
    x.eval (engine e) = x.eval (exact e) := by
  cases x with
  | auto => rfl
  | num v u => exact h.2
  | one a => exact h.2
  | two a b => exact h.2.2
  | three a b c => exact h.2.2.2
  | total s => exact h.2

/-- **A sum is exact up to one cast**, however many its terms are. -/
theorem LenSum.Saturates.eval_eq : {s : LenSum} → s.Saturates e →
    (s.eval (engine e)).px = short (s.eval (exact e)).px ∧
      (s.eval (engine e)).pct = short (s.eval (exact e)).pct
  | .zero, _ => ⟨rfl, rfl⟩
  | .plus s neg t, h => by
    obtain ⟨hpx, hpct⟩ := LenSum.Saturates.eval_eq h.1
    have ht := h.2.1.eval_eq
    constructor
    · show short ((s.eval (engine e)).px + signed neg (t.eval (engine e)).px) = short _
      rw [hpx, ht]
      exact wrap_add_wrap ..
    · show short ((s.eval (engine e)).pct + signed neg (t.eval (engine e)).termPct) = short _
      rw [hpct, ht]
      exact wrap_add_wrap ..

/-- The addition of a term, in front of the cast. -/
theorem add_fits (neg : Bool) {x y : ℤ} (hx : Fits 0x8000 x) (hy : Fits 0x8000 y) :
    Fits 0x80000000 (x + signed neg y) := by
  obtain ⟨hx₁, hx₂⟩ := hx
  obtain ⟨hy₁, hy₂⟩ := hy
  unfold signed Fits
  split <;> omega

theorem termPct_fits {t : CssLen} (h : Fits 0x8000 t.pct) : Fits 0x8000 t.termPct := by
  unfold CssLen.termPct
  split
  · decide
  · exact h

mutual

theorem LenExpr.saturates_iff (hfont : 1 ≤ e.fpx ∧ e.fpx ≤ 400) :
    (x : LenExpr) → (x.Saturates e ↔ x.InRange e)
  | .auto => Iff.rfl
  | .num v u => num_saturates_iff hfont v u
  | .one a => (and_iff_left_of_imp fun h => h.eval_eq).trans (a.saturates_iff hfont)
  | .two a b => by
    have ha := a.saturates_iff hfont
    have hb := b.saturates_iff hfont
    show (a.Saturates e ∧ b.Saturates e ∧ _) ↔ a.InRange e ∧ b.InRange e
    rw [← ha, ← hb, ← and_assoc]
    refine and_iff_left_of_imp fun h => ?_
    show pick _ _ = pick _ _
    rw [h.1.eval_eq, h.2.eval_eq]
  | .three a b c => by
    have ha := a.saturates_iff hfont
    have hb := b.saturates_iff hfont
    have hc := c.saturates_iff hfont
    show (a.Saturates e ∧ b.Saturates e ∧ c.Saturates e ∧ _) ↔
      a.InRange e ∧ b.InRange e ∧ c.InRange e
    rw [← ha, ← hb, ← hc]
    refine and_congr_right fun _ => and_congr_right fun h => ?_
    exact and_iff_left h.eval_eq
  | .total s => by
    refine (and_congr_right fun h => ?_).trans (and_congr_left' (s.saturates_iff hfont))
    obtain ⟨hpx, hpct⟩ := h.eval_eq
    show s.eval (engine e) = ⟨satPx _, satPct _⟩ ↔ _
    rw [CssLen.ext_iff, hpx, hpct]
    exact and_congr (wrap_eq_sat_iff (by decide) (by decide) (by decide) _)
      (wrap_eq_sat_iff (by decide) (by decide) (by decide) _)

theorem LenSum.saturates_iff (hfont : 1 ≤ e.fpx ∧ e.fpx ≤ 400) :
    (s : LenSum) → (s.Saturates e ↔ s.InRange e)
  | .zero => Iff.rfl
  | .plus s neg t => by
    have hs := s.saturates_iff hfont
    have ht := t.saturates_iff hfont
    have hsf := s.engine_fits (e := e)
    have htf := t.engine_fits (e := e)
    show (s.Saturates e ∧ t.Saturates e ∧ _) ↔ s.InRange e ∧ t.InRange e
    rw [← hs, ← ht]
    refine and_congr_right fun _ => and_iff_left ?_
    exact ⟨add_fits neg hsf.1 htf.1, add_fits neg hsf.2 (termPct_fits htf.2)⟩

end

/-- **When a length saturates**: of a text that the engine takes, all is calculated in an `int`
without an overflow, and what is stored is the exact length cut off at the bounds, if and only if
each of its numbers is small enough for its unit, and each number and each sum comes to what a
`short` holds. -/
theorem cssParseLen_saturates_iff (hfont : 1 ≤ e.fpx ∧ e.fpx ≤ 400) {s : List UInt8} {b : Bool}
    {l : CssLen} (h : cssParseLen e s b = some l) :
    ∃ x, readLen s b = some x ∧ x.eval (engine e) = l ∧ (x.Saturates e ↔ x.InRange e) := by
  rw [cssParseLen_eq, Option.map_eq_some_iff] at h
  obtain ⟨x, hx, hl⟩ := h
  exact ⟨x, hx, hl, x.saturates_iff hfont⟩

theorem cssParseLen_saturates_px : ∃ x, readLen (bytes "16px") false = some x ∧
    x.eval (engine ⟨16, 620, 400⟩) = ⟨11, 0⟩ ∧
      (x.Saturates ⟨16, 620, 400⟩ ↔ x.InRange ⟨16, 620, 400⟩) :=
  cssParseLen_saturates_iff (by decide) (by decide +kernel)

/-- Five hundred inches are 33000 device pixels, and stored as less than nothing. -/
theorem cssParseLen_wraps :
    ¬ ∀ (e : LenEnv) (s : List UInt8) (b : Bool) (x : LenExpr), 1 ≤ e.fpx ∧ e.fpx ≤ 400 →
      readLen s b = some x → x.Saturates e := by
  intro h
  have hcode : cssParseLen ⟨16, 620, 400⟩ (bytes "500in") false = some ⟨-32536, 0⟩ := by
    decide +kernel
  have hexact : parseLen (exact ⟨16, 620, 400⟩) 6 (bytes "500in") false = some ⟨0x7FFF, 0⟩ := by
    decide +kernel
  rw [cssParseLen_eq, Option.map_eq_some_iff] at hcode
  obtain ⟨x, hx, hl⟩ := hcode
  rw [(reads_map _ _).1, show parseLen written 6 _ _ = some x from hx] at hexact
  have heq := (h ⟨16, 620, 400⟩ _ _ x (by decide) hx).eval_eq
  exact absurd (hl.symm.trans (heq.trans (Option.some.inj hexact))) (by decide)

end Css
