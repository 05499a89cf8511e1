import Mathlib.Data.List.Basic
import Mathlib.Data.Nat.ModEq

/-!
# One's complement sums

Bytes are added up as words of two, the first the higher, and an odd last byte as the higher one of
a word. What overflows a word is added at its lower end, so that sums count modulo 65535. The
complement makes a sum zero, and a sum that is zero does not stay zero when one byte is changed:
255 times 256 is less than the modulus.
-/

namespace OnesComplement

variable {l l' : List UInt8} {i s c k : Nat}

/-- The sum of the words. -/
def words : List UInt8 → Nat
  | [] => 0
  | [a] => a.toNat * 256
  | a :: b :: l => a.toNat * 256 + b.toNat + words l

@[simp] theorem words_nil : words [] = 0 := rfl

@[simp] theorem words_singleton (a : UInt8) : words [a] = a.toNat * 256 := rfl

@[simp] theorem words_cons_cons (a b : UInt8) (l : List UInt8) :
    words (a :: b :: l) = a.toNat * 256 + b.toNat + words l := rfl

theorem words_le : ∀ l : List UInt8, words l ≤ 65535 * ((l.length + 1) / 2)
  | [] => Nat.zero_le _
  | [a] => by
    have := a.toNat_lt
    rw [words_singleton, List.length_singleton]
    omega
  | a :: b :: l => by
    have := a.toNat_lt
    have := b.toNat_lt
    have := words_le l
    rw [words_cons_cons, List.length_cons, List.length_cons]
    omega

/-- **Words of two parts**, the first of which has no half of one. -/
theorem words_append : ∀ {l : List UInt8} (_ : l.length % 2 = 0) (l' : List UInt8),
    words (l ++ l') = words l + words l'
  | [], _, _ => (Nat.zero_add _).symm
  | [_], h, _ => absurd h (by rw [List.length_singleton]; decide)
  | a :: b :: l, h, l' => by
    have hrest : l.length % 2 = 0 := by
      rw [List.length_cons, List.length_cons] at h
      omega
    rw [List.cons_append, List.cons_append, words_cons_cons, words_cons_cons,
      words_append hrest l']
    omega

theorem words_take_le : ∀ (l : List UInt8) (k : Nat), words (l.take k) ≤ words l
  | [], k => by rw [List.take_nil]
  | a :: l, 0 => Nat.zero_le _
  | [a], k + 1 => by rw [List.take_succ_cons, List.take_nil]
  | a :: b :: l, 1 => by
    show a.toNat * 256 ≤ a.toNat * 256 + b.toNat + words l
    omega
  | a :: b :: l, k + 2 => by
    have := words_take_le l k
    rw [List.take_succ_cons, List.take_succ_cons, words_cons_cons, words_cons_cons]
    omega

/-- What a byte counts in its word. -/
def weight (i : Nat) : Nat := if i % 2 = 0 then 256 else 1

theorem weight_add_two (i : Nat) : weight (i + 2) = weight i := by
  unfold weight
  rw [Nat.add_mod_right]

theorem weight_cases (i : Nat) : weight i = 256 ∨ weight i = 1 := by
  unfold weight
  split
  · exact Or.inl rfl
  · exact Or.inr rfl

/-- **One byte changes**, and the sum by what it counts. -/
theorem words_set : ∀ (l : List UInt8) (i : Nat) (b : UInt8), i < l.length →
    words (l.set i b) + weight i * (l.getD i 0).toNat = words l + weight i * b.toNat
  | [], _, _, h => nomatch h
  | [a], 0, b, _ => by
    show b.toNat * 256 + 256 * a.toNat = a.toNat * 256 + 256 * b.toNat
    omega
  | [_], i + 1, _, h => absurd h (by rw [List.length_singleton]; omega)
  | a :: c :: l, 0, b, _ => by
    show b.toNat * 256 + c.toNat + words l + 256 * a.toNat
      = a.toNat * 256 + c.toNat + words l + 256 * b.toNat
    omega
  | a :: c :: l, 1, b, _ => by
    show a.toNat * 256 + b.toNat + words l + 1 * c.toNat
      = a.toNat * 256 + c.toNat + words l + 1 * b.toNat
    omega
  | a :: c :: l, i + 2, b, h => by
    have ih := words_set l i b (by rw [List.length_cons, List.length_cons] at h; omega)
    rw [weight_add_two]
    show a.toNat * 256 + c.toNat + words (l.set i b) + weight i * (l.getD i 0).toNat
      = a.toNat * 256 + c.toNat + words l + weight i * b.toNat
    omega

/-! ## Folding -/

/-- What overflows a word is added at its lower end. -/
def fold (s : Nat) : Nat := s % 65536 + s / 65536

theorem fold_mod (s : Nat) : fold s % 65535 = s % 65535 := by
  unfold fold
  omega

theorem fold_eq_zero : fold s = 0 ↔ s = 0 := by
  unfold fold
  omega

/-- Two rounds are enough for a sum of 32 bits. -/
theorem fold_fold_le (h : s < 2 ^ 32) : fold (fold s) ≤ 65535 := by
  unfold fold
  omega

theorem fold_of_le (h : s ≤ 65535) : fold s = s := by
  unfold fold
  omega

/-- **A sum is all ones** in the end if it is a multiple of the modulus, but not zero. -/
theorem fold_eq_ones (h : s < 2 ^ 32) :
    fold (fold s) = 65535 ↔ s ≠ 0 ∧ s % 65535 = 0 := by
  have hle := fold_fold_le h
  have hmod : fold (fold s) % 65535 = s % 65535 := by rw [fold_mod, fold_mod]
  have hzero : fold (fold s) = 0 ↔ s = 0 := by rw [fold_eq_zero, fold_eq_zero]
  omega

/-- **The complement of a sum makes it zero.** -/
theorem add_complement (h : s < 2 ^ 32) : (s + (65535 - fold (fold s))) % 65535 = 0 := by
  have hle := fold_fold_le h
  have hmod : fold (fold s) % 65535 = s % 65535 := by rw [fold_mod, fold_mod]
  omega

/-- **One byte more or less is seen.** -/
theorem change_seen {w x y : Nat} (hx : x < 256) (hy : y < 256) (hne : x ≠ y)
    (hw : w = 256 ∨ w = 1) (h : (s + w * x) % 65535 = 0) : (s + w * y) % 65535 ≠ 0 := by
  obtain rfl | rfl := hw <;> omega

end OnesComplement
