import Mathlib.Data.Int.DivMod
import Mathlib.Order.MinMax
import Mathlib.Tactic.Common
import Mathlib.Logic.Function.Basic

/-!
# Cutting an integer to a width

A cast to a signed type of `m` values on each side of zero keeps what lies in the range and takes
the rest modulo `2 * m`. A saturating cast stops at the bounds instead. The two agree in the range
and, by chance, where the rest falls on the bound it was to stop at.
-/

namespace Narrow

/-- The cast of two's complement to `-m … m - 1`. -/
def wrap (m : ℕ) (x : ℤ) : ℤ := Int.bmod x (2 * m)

/-- The cast that stops at the bounds. -/
def sat (lo hi x : ℤ) : ℤ := max lo (min x hi)

/-- What the width holds. -/
def Fits (m : ℕ) (x : ℤ) : Prop := -(m : ℤ) ≤ x ∧ x < m

instance (m : ℕ) (x : ℤ) : Decidable (Fits m x) := inferInstanceAs (Decidable (_ ∧ _))

/-- Where the cast ends as if it had stopped: in the range, or whole turns beyond a bound. -/
def Lands (m : ℕ) (lo hi x : ℤ) : Prop :=
  (lo ≤ x ∧ x ≤ hi) ∨ (hi < x ∧ (2 * m : ℤ) ∣ x - hi) ∨ (x < lo ∧ (2 * m : ℤ) ∣ x - lo)

variable {m : ℕ}

theorem wrap_fits (hm : 0 < m) (x : ℤ) : Fits m (wrap m x) := by
  have hlo := Int.le_bmod (x := x) (m := 2 * m) (by omega)
  have hhi := Int.bmod_lt (x := x) (m := 2 * m) (by omega)
  unfold Fits wrap
  omega

theorem wrap_eq_self {x : ℤ} (h : Fits m x) : wrap m x = x := by
  obtain ⟨hlo, hhi⟩ := h
  exact Int.bmod_eq_of_le_mul_two (by omega) (by omega)

/-- **A cast comes through a sum.** -/
theorem wrap_add_wrap (x y : ℤ) : wrap m (wrap m x + y) = wrap m (x + y) := Int.bmod_add_bmod

theorem wrap_eq_iff {x y : ℤ} (hy : Fits m y) :
    wrap m x = y ↔ (2 * m : ℤ) ∣ x - y := by
  have hself := wrap_eq_self hy
  constructor
  · rintro rfl
    refine ⟨Int.bdiv x (2 * m), ?_⟩
    have hdiv := Int.bmod_add_bdiv x (2 * m)
    push_cast at hdiv
    unfold wrap
    omega
  · intro h
    rw [← hself]
    unfold wrap
    exact Int.bmod_eq_bmod_iff_bmod_sub_eq_zero.mpr
      (Int.bmod_eq_zero_of_dvd (by exact_mod_cast h))

/-- **Where the two casts agree.** -/
theorem wrap_eq_sat_iff {lo hi : ℤ} (hlo : Fits m lo) (hhi : Fits m hi) (hle : lo ≤ hi) (x : ℤ) :
    wrap m x = sat lo hi x ↔ Lands m lo hi x := by
  unfold Lands
  rcases lt_or_ge x lo with h | h
  · have hsat : sat lo hi x = lo := max_eq_left ((min_le_left ..).trans h.le)
    rw [hsat, wrap_eq_iff hlo]
    refine ⟨fun hdvd => .inr (.inr ⟨h, hdvd⟩), ?_⟩
    rintro (⟨hge, -⟩ | ⟨hgt, -⟩ | ⟨-, hdvd⟩)
    · exact absurd h hge.not_gt
    · exact absurd (h.trans_le hle) hgt.not_gt
    · exact hdvd
  rcases lt_or_ge hi x with h' | h'
  · have hsat : sat lo hi x = hi := by
      unfold sat
      rw [min_eq_right h'.le, max_eq_right hle]
    rw [hsat, wrap_eq_iff hhi]
    refine ⟨fun hdvd => .inr (.inl ⟨h', hdvd⟩), ?_⟩
    rintro (⟨-, hlt⟩ | ⟨-, hdvd⟩ | ⟨hlt, -⟩)
    · exact absurd h' hlt.not_gt
    · exact hdvd
    · exact absurd hlt h.not_gt
  · have hsat : sat lo hi x = x := by
      unfold sat
      rw [min_eq_left h', max_eq_right h]
    rw [hsat]
    exact iff_of_true (wrap_eq_self ⟨hlo.1.trans h, h'.trans_lt hhi.2⟩) (.inl ⟨h, h'⟩)

/-- Division towards zero, in the terms of the other one. -/
theorem tdiv_eq (x d : ℤ) : x.tdiv d = if x < 0 then -(-x / d) else x / d := by
  split
  · next h =>
    rw [← Int.tdiv_eq_ediv_of_nonneg (by omega), Int.neg_tdiv, Int.neg_neg]
  · next h => exact Int.tdiv_eq_ediv_of_nonneg (by omega)

/-- A quotient is above a bound below zero. -/
theorem neg_le_tdiv_iff {x c t : ℤ} (ht : 0 < t) (hc : 0 ≤ c) :
    -c ≤ x.tdiv t ↔ -((c + 1) * t) < x := by
  have hpos : 0 < (c + 1) * t := Int.mul_pos (by omega) ht
  rw [tdiv_eq]
  split
  · rw [Int.neg_le_neg_iff, ← Int.lt_add_one_iff, Int.ediv_lt_iff_lt_mul ht]
    omega
  · next hx =>
    have hq : 0 ≤ x / t := Int.ediv_nonneg (by omega) ht.le
    omega

/-- A quotient is below a bound above zero. -/
theorem tdiv_le_iff {x c t : ℤ} (ht : 0 < t) (hc : 0 ≤ c) : x.tdiv t ≤ c ↔ x < (c + 1) * t := by
  have h := neg_le_tdiv_iff (x := -x) ht hc
  rw [Int.neg_tdiv] at h
  omega

end Narrow

/-!
## Calculations with casts

A calculation is written once, with a mark at each value that is cut to a width: either a cast,
which wraps around, or the result of an operation, which is undefined if it does not fit. On the
machine it can go wrong in both ways; without bounds it has a value. If all that is marked fits
there, then the machine makes no mistake, and only then.
-/

open Narrow Function

/-- A calculation. A mark says on each side of zero how many values there are, and whether what does
not fit wraps around. -/
inductive Calc (α : Type) : Type
  | done (a : α)
  | mark (m : ℕ) (wraps : Bool) (x : ℤ) (k : ℤ → Calc α)

namespace Calc

variable {α β : Type}

def bind : Calc α → (α → Calc β) → Calc β
  | done a, f => f a
  | mark m wraps x k, f => mark m wraps x fun y => (k y).bind f

instance : Monad Calc where
  pure := done
  bind := bind

/-- A cast. -/
def cast (m : ℕ) (x : ℤ) : Calc ℤ := mark m true x done

/-- The result of an operation. -/
def op (m : ℕ) (x : ℤ) : Calc ℤ := mark m false x done

/-- The loop that stores `v k` at `i + k`, for each `k` below `n`. -/
def fill (i : ℕ) (v : ℕ → Calc ℤ) : ℕ → (ℕ → ℤ) → Calc (ℕ → ℤ)
  | 0, f => pure f
  | n + 1, f => do
    let f ← fill i v n f
    let y ← v n
    pure (update f (i + n) y)

/-- What the machine calculates, if it is defined. -/
def run : Calc α → Option α
  | done a => some a
  | mark m true x k => (k (wrap m x)).run
  | mark m false x k => if Fits m x then (k x).run else none

/-- On the machine every cast keeps its value. -/
def Exact : Calc α → Prop
  | done _ => True
  | mark m true x k => Fits m x ∧ (k (wrap m x)).Exact
  | mark _ false x k => (k x).Exact

/-- What is calculated without bounds. -/
def value : Calc α → α
  | done a => a
  | mark _ _ x k => (k x).value

/-- Without bounds, all that is marked fits. -/
def Fine : Calc α → Prop
  | done _ => True
  | mark m _ x k => Fits m x ∧ (k x).Fine

/-- **If all fits** then the machine calculates as if there were no bounds. -/
theorem run_eq (p : Calc α) (h : p.Fine) : p.run = some p.value ∧ p.Exact := by
  induction p with
  | done a => exact ⟨rfl, trivial⟩
  | mark m wraps x k ih =>
    obtain ⟨hfit, hrest⟩ := h
    obtain ⟨hrun, hexact⟩ := ih x hrest
    cases wraps with
    | true =>
      unfold run Exact
      rw [wrap_eq_self hfit]
      exact ⟨hrun, hfit, hexact⟩
    | false =>
      unfold run Exact
      rw [if_pos hfit]
      exact ⟨hrun, hexact⟩

/-- **The machine makes no mistake** exactly if all fits. -/
theorem exact_iff (p : Calc α) : (∃ a, p.run = some a ∧ p.Exact) ↔ p.Fine := by
  refine ⟨?_, fun h => ⟨_, p.run_eq h⟩⟩
  rintro ⟨a, hrun, hexact⟩
  induction p with
  | done _ => trivial
  | mark m wraps x k ih =>
    cases wraps with
    | true =>
      unfold run at hrun
      obtain ⟨hfit, hexact⟩ := hexact
      rw [wrap_eq_self hfit] at hrun hexact
      exact ⟨hfit, ih x hrun hexact⟩
    | false =>
      unfold run at hrun
      split at hrun
      · next hfit => exact ⟨hfit, ih x hrun hexact⟩
      · exact nomatch hrun

/-- **A calculation that is right without bounds** is right on the machine exactly if all fits. -/
theorem right_iff {P : α → Prop} (p : Calc α) (hp : P p.value) :
    (∃ a, p.run = some a ∧ p.Exact ∧ P a) ↔ p.Fine := by
  refine ⟨fun ⟨a, hrun, hexact, _⟩ => p.exact_iff.mp ⟨a, hrun, hexact⟩, fun h => ?_⟩
  obtain ⟨hrun, hexact⟩ := p.run_eq h
  exact ⟨_, hrun, hexact, hp⟩

/-! ## Values -/

@[simp] theorem value_pure (a : α) : (pure a : Calc α).value = a := rfl

@[simp] theorem value_bind (p : Calc α) (f : α → Calc β) : (p >>= f).value = (f p.value).value := by
  show (p.bind f).value = _
  induction p with
  | done a => rfl
  | mark m wraps x k ih => exact ih x

@[simp] theorem value_ite {c : Prop} [Decidable c] (p q : Calc α) :
    (if c then p else q).value = if c then p.value else q.value := apply_ite ..

/-- **What a loop stores.** -/
theorem value_fill (i : ℕ) (v : ℕ → Calc ℤ) (n : ℕ) (f : ℕ → ℤ) (j : ℕ) :
    (fill i v n f).value j = if i ≤ j ∧ j < i + n then (v (j - i)).value else f j := by
  induction n with
  | zero => exact (if_neg fun h => by omega).symm
  | succ n ih =>
    unfold fill
    simp only [value_bind, value_pure]
    rcases eq_or_ne j (i + n) with rfl | hj
    · rw [update_self, if_pos (by omega), Nat.add_sub_cancel_left]
    · rw [update_of_ne hj, ih]
      exact if_congr (by omega) rfl rfl

/-! ## What has to fit -/

@[simp] theorem fine_pure (a : α) : (pure a : Calc α).Fine ↔ True := Iff.rfl

@[simp] theorem fine_bind (p : Calc α) (f : α → Calc β) :
    (p >>= f).Fine ↔ p.Fine ∧ (f p.value).Fine := by
  show (p.bind f).Fine ↔ _
  induction p with
  | done a => exact (and_iff_right trivial).symm
  | mark m wraps x k ih => exact (and_congr_right fun _ => ih x).trans and_assoc.symm

@[simp] theorem fine_cast (m : ℕ) (x : ℤ) : (cast m x).Fine ↔ Fits m x := and_iff_left trivial

@[simp] theorem fine_op (m : ℕ) (x : ℤ) : (op m x).Fine ↔ Fits m x := and_iff_left trivial

theorem fine_ite {c : Prop} [Decidable c] (p q : Calc α) :
    (if c then p else q).Fine ↔ if c then p.Fine else q.Fine := by
  split <;> rfl

/-- **In a loop** each of the values has to fit. -/
theorem fine_fill (i : ℕ) (v : ℕ → Calc ℤ) (n : ℕ) (f : ℕ → ℤ) :
    (fill i v n f).Fine ↔ ∀ k < n, (v k).Fine := by
  induction n with
  | zero => exact iff_of_true trivial fun k hk => absurd hk (Nat.not_lt_zero k)
  | succ n ih =>
    unfold fill
    simp only [fine_bind, fine_pure, and_true]
    rw [ih, Nat.forall_lt_succ_right]

end Calc
