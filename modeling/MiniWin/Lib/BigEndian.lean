import Mathlib.Algebra.Order.Ring.Nat
import Mathlib.Data.List.Induction
import Mathlib.Tactic.Ring

/-!
# Numbers as bytes, the highest first

The number of a row of bytes, and the bytes of a number in a field of a given width. A number that
fits into the field can be read back from it.
-/

namespace BigEndian

variable {l l' : List UInt8} {k v w : Nat}

/-- The number of some bytes. -/
def value (l : List UInt8) : Nat := l.foldl (fun n b => n * 256 + b.toNat) 0

/-- The bytes of a number in a field of this width. -/
def bytes : Nat → Nat → List UInt8
  | 0, _ => []
  | k + 1, v => bytes k (v / 256) ++ [UInt8.ofNat (v % 256)]

@[simp] theorem value_nil : value [] = 0 := rfl

@[simp] theorem value_append_singleton (l : List UInt8) (b : UInt8) :
    value (l ++ [b]) = value l * 256 + b.toNat := by
  unfold value
  rw [List.foldl_append]
  rfl

@[simp] theorem length_bytes (k v : Nat) : (bytes k v).length = k := by
  induction k generalizing v with
  | zero => rfl
  | succ k ih => rw [bytes, List.length_append, ih, List.length_singleton]

/-- **What fits is read back.** -/
theorem value_bytes (h : v < 256 ^ k) : value (bytes k v) = v := by
  induction k generalizing v with
  | zero =>
    rw [Nat.pow_zero] at h
    obtain rfl : v = 0 := by omega
    rfl
  | succ k ih =>
    have hdiv : v / 256 < 256 ^ k :=
      Nat.div_lt_of_lt_mul (by rw [Nat.mul_comm, ← Nat.pow_succ]; exact h)
    have hbyte : (UInt8.ofNat (v % 256)).toNat = v % 256 :=
      UInt8.toNat_ofNat_of_lt' (Nat.mod_lt v (by decide))
    rw [bytes, value_append_singleton, ih hdiv, hbyte]
    omega

theorem value_lt (l : List UInt8) : value l < 256 ^ l.length := by
  induction l using List.reverseRecOn with
  | nil => exact Nat.zero_lt_one
  | append_singleton l b ih =>
    have hb := b.toNat_lt
    rw [value_append_singleton, List.length_append, List.length_singleton, Nat.pow_succ]
    omega

/-- The bound of a field, in bits. -/
theorem pow_256 (k : Nat) : 256 ^ k = 2 ^ (8 * k) := by
  rw [Nat.pow_mul]

theorem bytes_inj (hv : v < 256 ^ k) (hw : w < 256 ^ k) (h : bytes k v = bytes k w) : v = w := by
  rw [← value_bytes hv, ← value_bytes hw, h]

/-- What is read is written back. -/
theorem bytes_value (l : List UInt8) : bytes l.length (value l) = l := by
  induction l using List.reverseRecOn with
  | nil => rfl
  | append_singleton l b ih =>
    have hb := b.toNat_lt
    have hdiv : (value l * 256 + b.toNat) / 256 = value l := by omega
    have hmod : (value l * 256 + b.toNat) % 256 = b.toNat := by omega
    rw [List.length_append, List.length_singleton, bytes, value_append_singleton, hdiv, hmod, ih,
      UInt8.ofNat_toNat]

/-- **Two rows of bytes.** -/
theorem value_append (l m : List UInt8) :
    value (l ++ m) = value l * 256 ^ m.length + value m := by
  induction m using List.reverseRecOn with
  | nil => rw [List.append_nil, List.length_nil, Nat.pow_zero, Nat.mul_one, value_nil, Nat.add_zero]
  | append_singleton m b ih =>
    rw [← List.append_assoc, value_append_singleton, ih, value_append_singleton,
      List.length_append, List.length_singleton, Nat.pow_succ]
    ring

/-- A field is its high part and its low part. -/
theorem bytes_add (j k v : Nat) : bytes (j + k) v = bytes j (v / 256 ^ k) ++ bytes k v := by
  induction k generalizing v with
  | zero => rw [Nat.pow_zero, Nat.div_one, bytes, List.append_nil, Nat.add_zero]
  | succ k ih =>
    rw [← Nat.add_assoc, bytes, ih, bytes, List.append_assoc, Nat.div_div_eq_div_mul,
      ← Nat.pow_succ']

/-- What does not fit into a field is not there. -/
theorem bytes_mod (k v : Nat) : bytes k (v % 256 ^ k) = bytes k v := by
  induction k generalizing v with
  | zero => rfl
  | succ k ih =>
    have hdvd : 256 ∣ 256 ^ (k + 1) := Dvd.intro_left (256 ^ k) (Nat.pow_succ 256 k).symm
    rw [bytes, Nat.mod_mod_of_dvd v hdvd, Nat.pow_succ', Nat.mod_mul_right_div_self, ih, bytes]

/-- A byte of the row. -/
theorem getElem_toNat (l : List UInt8) {i : Nat} (h : i < l.length) :
    l[i].toNat = value l / 256 ^ (l.length - 1 - i) % 256 := by
  induction l using List.reverseRecOn with
  | nil => exact absurd h (Nat.not_lt_zero i)
  | append_singleton l b ih =>
    have hb := b.toNat_lt
    rw [value_append_singleton, List.length_append, List.length_singleton]
    by_cases hi : i < l.length
    · have hexp : l.length + 1 - 1 - i = l.length - 1 - i + 1 := by omega
      have hdiv : (value l * 256 + b.toNat) / 256 = value l := by omega
      rw [List.getElem_append_left hi, ih hi, hexp, Nat.pow_succ', ← Nat.div_div_eq_div_mul, hdiv]
    · obtain rfl : i = l.length := by
        rw [List.length_append, List.length_singleton] at h
        omega
      rw [List.getElem_append_right (Nat.le_refl _)]
      simp only [Nat.sub_self, List.getElem_cons_zero, Nat.add_sub_cancel, Nat.pow_zero,
        Nat.div_one]
      omega

/-- The bytes, from the last to the first. -/
theorem bytes_eq {f : Nat → UInt8} (h : ∀ i, (f i).toNat = v / 256 ^ i % 256) :
    bytes k v = ((List.range k).map f).reverse := by
  induction k generalizing v f with
  | zero => rfl
  | succ k ih =>
    have hlast : UInt8.ofNat (v % 256) = f 0 := by
      rw [← UInt8.ofNat_toNat (x := f 0), h 0, Nat.pow_zero, Nat.div_one]
    have hrest : bytes k (v / 256) = ((List.range k).map (f ∘ Nat.succ)).reverse := ih fun i => by
      rw [Nat.div_div_eq_div_mul, ← Nat.pow_succ']
      exact h (i + 1)
    rw [bytes, hrest, hlast, List.range_succ_eq_map, List.map_cons, List.map_map, List.reverse_cons]

end BigEndian
