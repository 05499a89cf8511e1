import Mathlib.Algebra.GroupWithZero.Nat
import Mathlib.Algebra.Group.Fin.Basic
import Mathlib.Data.Fin.Basic
import Mathlib.Data.List.TakeDrop
import Mathlib.Logic.Function.Basic

/-!
# Ring buffers

Cells in a circle, of which one is always free: the two positions are the same if nothing waits. A
ring is read as the list of what waits in it (`contents`). A push puts an element behind it unless
all the cells but one are in use, and a pop takes the first one.
-/

/-- Cells in a circle. What waits is from `head` on, up to `tail`. -/
structure RingBuffer (α : Type) (n : ℕ) where
  cells : Fin n → α
  head : Fin n
  tail : Fin n

namespace RingBuffer

variable {α : Type} {n : ℕ} [NeZero n] (r : RingBuffer α n)

/-- An element more, if there is room. -/
def push (a : α) : RingBuffer α n :=
  if r.tail + 1 = r.head then r
  else { r with cells := Function.update r.cells r.tail a, tail := r.tail + 1 }

/-- The element in front, and the ring without it. -/
def pop : Option (α × RingBuffer α n) :=
  if r.head = r.tail then none else some (r.cells r.head, { r with head := r.head + 1 })

/-- The ring with nothing in it. -/
def clear : RingBuffer α n := { r with head := 0, tail := 0 }

/-- So many cells from a place on. -/
def cellsFrom (c : Fin n → α) : Fin n → ℕ → List α
  | _, 0 => []
  | h, k + 1 => c h :: cellsFrom c (h + 1) k

/-- What waits, in its order. -/
def contents : List α := cellsFrom r.cells r.head (r.tail - r.head).val

/-! ## The cells -/

theorem val_next (x : Fin n) : (x + 1).val = if x.val + 1 = n then 0 else x.val + 1 := by
  have hval : (x + 1).val = (x.val + 1) % n := by simp [Fin.val_add]
  split
  · next hlast => rw [hval, hlast, Nat.mod_self]
  · next hlast => rw [hval, Nat.mod_eq_of_lt (Nat.lt_of_le_of_ne x.isLt hlast)]

/-- One step on, a place that is not this one is one nearer. -/
theorem val_sub_next {i h : Fin n} (hne : h ≠ i) : (i - h).val = (i - (h + 1)).val + 1 := by
  have hstep : i - h = i - (h + 1) + 1 := by rw [← sub_sub, sub_add_cancel]
  have hfar : i - h ≠ 0 := fun h0 => hne (sub_eq_zero.mp h0).symm
  rw [hstep, val_next, if_neg]
  intro hlast
  refine hfar (Fin.ext ?_)
  rw [hstep, val_next, if_pos hlast, Fin.val_zero]

@[simp] theorem length_cellsFrom (c : Fin n → α) (h : Fin n) (k : ℕ) :
    (cellsFrom c h k).length = k := by
  induction k generalizing h with
  | zero => rfl
  | succ k ih => rw [cellsFrom, List.length_cons, ih]

/-- Cells that are not looked at may be anything. -/
theorem cellsFrom_update (c : Fin n → α) (i : Fin n) (a : α) {h : Fin n} {k : ℕ}
    (hi : k ≤ (i - h).val) : cellsFrom (Function.update c i a) h k = cellsFrom c h k := by
  induction k generalizing h with
  | zero => rfl
  | succ k ih =>
    have hne : h ≠ i := by
      rintro rfl
      simp at hi
    rw [val_sub_next hne] at hi
    rw [cellsFrom, cellsFrom, Function.update_of_ne hne, ih (Nat.le_of_succ_le_succ hi)]

/-- The cells up to a place and the one at that place. -/
theorem cellsFrom_concat (c : Fin n → α) {h i : Fin n} {k : ℕ} (hk : (i - h).val = k) :
    cellsFrom c h (k + 1) = cellsFrom c h k ++ [c i] := by
  induction k generalizing h with
  | zero =>
    have hhere : h = i := (sub_eq_zero.mp (Fin.ext hk)).symm
    rw [hhere]
    rfl
  | succ k ih =>
    have hne : h ≠ i := by
      rintro rfl
      simp at hk
    rw [val_sub_next hne] at hk
    rw [cellsFrom, ih (Nat.succ.inj hk)]
    rfl

/-! ## The operations -/

@[simp] theorem length_contents : r.contents.length = (r.tail - r.head).val :=
  length_cellsFrom _ _ _

theorem contents_clear : r.clear.contents = [] := by
  rw [contents, show r.clear.tail - r.clear.head = 0 from sub_self _, Fin.val_zero]
  rfl

/-- A ring is full with one cell free. -/
theorem full_iff : r.tail + 1 = r.head ↔ r.contents.length + 1 = n := by
  rw [length_contents]
  have hnext := val_next (r.tail - r.head)
  have hsub : r.tail - r.head + 1 = r.tail + 1 - r.head := by rw [sub_add_eq_add_sub]
  constructor
  · intro h
    rw [hsub, h, sub_self, Fin.val_zero] at hnext
    by_contra hlast
    rw [if_neg hlast] at hnext
    exact Nat.succ_ne_zero _ hnext.symm
  · intro h
    rw [if_pos h, hsub] at hnext
    exact sub_eq_zero.mp (Fin.ext hnext)

/-- **A push** puts an element behind what waits, if fewer than all the cells but one wait. -/
theorem contents_push (a : α) : (r.push a).contents
    = if r.contents.length + 1 < n then r.contents ++ [a] else r.contents := by
  have hlt : r.contents.length < n := by
    rw [length_contents]
    exact (r.tail - r.head).isLt
  by_cases hfull : r.tail + 1 = r.head
  · have hlen := r.full_iff.mp hfull
    rw [push, if_pos hfull, if_neg (by omega)]
  · have hroom : r.contents.length + 1 ≠ n := fun h => hfull (r.full_iff.mpr h)
    rw [length_contents] at hroom hlt
    have hcount : (r.tail + 1 - r.head).val = (r.tail - r.head).val + 1 := by
      rw [← sub_add_eq_add_sub, val_next, if_neg hroom]
    rw [push, if_neg hfull, if_pos (by rw [length_contents]; omega), contents, contents]
    dsimp only
    rw [hcount, cellsFrom_concat _ rfl, cellsFrom_update _ _ _ (Nat.le_refl _),
      Function.update_self]

theorem pop_eq_none_iff : r.pop = none ↔ r.contents = [] := by
  rw [← List.length_eq_zero_iff, length_contents, pop]
  split
  · next h => simp [h]
  · next h =>
    simp only [reduceCtorEq, false_iff]
    exact fun hzero => h (sub_eq_zero.mp (Fin.ext hzero)).symm

/-- **A pop** takes the first of what waits. -/
theorem contents_pop {a : α} {r' : RingBuffer α n} (h : r.pop = some (a, r')) :
    r.contents = a :: r'.contents := by
  unfold pop at h
  split at h
  · exact nomatch h
  · next hne =>
    obtain ⟨rfl, rfl⟩ := Prod.mk.inj (Option.some.inj h)
    rw [contents, val_sub_next hne]
    rfl

end RingBuffer
