import Mathlib.Data.Nat.Digits.Defs
import Mathlib.Data.List.GetD
import Mathlib.Tactic.Ring

/-!
# Numbers as limbs, the lowest first

The number of a row of 32-bit limbs. A limb holds 32 of its bits, the limbs from one on hold what is
left of it after a shift, and the limbs below one hold its remainder. Bits and limbs are often read
from the highest down, by a loop with a rule of its own (`countdown_inv`).
-/

namespace Limbs

variable {l l' : List UInt32} {i k n : Nat}

/-- The number of some limbs. -/
def value (l : List UInt32) : Nat := Nat.ofDigits (2 ^ 32) (l.map UInt32.toNat)

@[simp] theorem value_nil : value [] = 0 := rfl

@[simp] theorem value_cons (x : UInt32) (l : List UInt32) :
    value (x :: l) = x.toNat + 2 ^ 32 * value l := Nat.ofDigits_cons

/-- The weight of a limb above another. -/
theorem weight_succ (i : Nat) : 2 ^ (32 * (i + 1)) = 2 ^ 32 * 2 ^ (32 * i) := by
  rw [Nat.mul_succ, Nat.pow_add, Nat.mul_comm]

theorem value_append (l l' : List UInt32) :
    value (l ++ l') = value l + 2 ^ (32 * l.length) * value l' := by
  unfold value
  rw [List.map_append, Nat.ofDigits_append, List.length_map, Nat.pow_mul]

@[simp] theorem value_replicate (n : Nat) : value (List.replicate n 0) = 0 := by
  unfold value
  rw [List.map_replicate]
  exact Nat.ofDigits_replicate_zero

theorem value_lt (l : List UInt32) : value l < 2 ^ (32 * l.length) := by
  have h := Nat.ofDigits_lt_base_pow_length (by decide : 1 < 2 ^ 32) (l := l.map UInt32.toNat)
    fun d hd => by
      obtain ⟨x, -, rfl⟩ := List.mem_map.mp hd
      exact x.toNat_lt
  rwa [List.length_map, ← Nat.pow_mul] at h

theorem value_lt_of_length (h : l.length = n) : value l < 2 ^ (32 * n) := h ▸ value_lt l

/-- One limb more. -/
theorem value_take_succ (l : List UInt32) (i : Nat) :
    value (l.take (i + 1)) = value (l.take i) + 2 ^ (32 * i) * (l.getD i 0).toNat := by
  by_cases h : i < l.length
  · rw [List.take_succ_eq_append_getElem h, value_append, List.length_take,
      Nat.min_eq_left (Nat.le_of_lt h), value_cons, value_nil, Nat.mul_zero, Nat.add_zero,
      List.getD_eq_getElem _ _ h]
  · rw [Nat.not_lt] at h
    rw [List.take_of_length_le (Nat.le_succ_of_le h), List.take_of_length_le h,
      List.getD_eq_default _ _ h, UInt32.toNat_zero, Nat.mul_zero, Nat.add_zero]

/-- The limbs below one, and those from it on. -/
theorem value_take_drop (l : List UInt32) (i : Nat) :
    value (l.take i) + 2 ^ (32 * i) * value (l.drop i) = value l := by
  by_cases h : i ≤ l.length
  · conv_rhs => rw [← List.take_append_drop i l, value_append, List.length_take,
      Nat.min_eq_left h]
  · rw [Nat.not_le] at h
    rw [List.take_of_length_le (Nat.le_of_lt h), List.drop_of_length_le (Nat.le_of_lt h), value_nil,
      Nat.mul_zero, Nat.add_zero]

theorem value_take_lt (l : List UInt32) (i : Nat) : value (l.take i) < 2 ^ (32 * i) := by
  refine Nat.lt_of_lt_of_le (value_lt _) (Nat.pow_le_pow_right (by decide) ?_)
  exact Nat.mul_le_mul_left 32 (List.length_take_le i l)

/-- **The limbs below one are the remainder.** -/
theorem value_take (l : List UInt32) (i : Nat) : value (l.take i) = value l % 2 ^ (32 * i) := by
  rw [← value_take_drop l i, Nat.add_mul_mod_self_left, Nat.mod_eq_of_lt (value_take_lt l i)]

/-- **A limb holds 32 bits.** -/
theorem testBit_value (l : List UInt32) (k : Nat) :
    (value l).testBit k = (l.getD (k / 32) 0).toNat.testBit (k % 32) := by
  have hlow : (value (l.take (k / 32 + 1))).testBit k = (value l).testBit k := by
    rw [value_take, Nat.testBit_mod_two_pow, decide_eq_true (by omega), Bool.true_and]
  rw [← hlow, value_take_succ, Nat.add_comm, Nat.testBit_two_pow_mul_add _ (value_take_lt l _),
    if_neg (by omega)]
  congr 1
  omega

/-! ## Loops from the top -/

/-- A loop over the numbers below `n`, from the highest down. -/
def countdown {α : Type*} (f : Nat → α → α) : Nat → α → α
  | 0, a => a
  | i + 1, a => countdown f i (f i a)

/-- **What a round keeps, the loop keeps.** -/
theorem countdown_inv {α : Type*} {f : Nat → α → α} (P : Nat → α → Prop) {a : α}
    (hstep : ∀ i a, i < n → P (i + 1) a → P i (f i a)) (h : P n a) : P 0 (countdown f n a) := by
  induction n generalizing a with
  | zero => exact h
  | succ n ih =>
    exact ih (fun i a hi => hstep i a (Nat.lt_succ_of_lt hi)) (hstep n a (Nat.lt_succ_self n) h)

/-- **Two loops whose rounds agree.** -/
theorem countdown_rel {α β : Type*} {f : Nat → α → α} {g : Nat → β → β} (R : α → β → Prop) {a : α}
    {b : β} (hstep : ∀ i a b, i < n → R a b → R (f i a) (g i b)) (h : R a b) :
    R (countdown f n a) (countdown g n b) := by
  induction n generalizing a b with
  | zero => exact h
  | succ n ih =>
    exact ih (fun i a b hi => hstep i a b (Nat.lt_succ_of_lt hi)) (hstep n a b (Nat.lt_succ_self n) h)

end Limbs
