import Mathlib.Data.List.Basic

/-!
# Texts with references back

A text as a row of sequences: some letters as they are, and then some that were there before, at a
distance. A reference may reach into what it makes itself. What is copied letter by letter is then a
part of the text, if the text agrees with itself at that distance.
-/

namespace Backref

variable {α : Type}

/-- Letters as they are, and `len` from `off` letters back. -/
structure Seq (α : Type) where
  lits : List α
  off : ℕ
  len : ℕ

/-- `n` letters from `m` on, one by one. -/
def copyFrom : ℕ → ℕ → List α → Option (List α)
  | 0, _, out => some out
  | n + 1, m, out => do
    let a ← out[m]?
    copyFrom n (m + 1) (out ++ [a])

/-- What a sequence makes of a text. -/
def Seq.apply (out : List α) (s : Seq α) : Option (List α) :=
  copyFrom s.len (out.length + s.lits.length - s.off) (out ++ s.lits)

/-- **What is copied** is the next part of a text that agrees with itself. -/
theorem copyFrom_take {data : List α} {n i m : ℕ} (hm : m < i) (hi : i + n ≤ data.length)
    (h : ∀ k < n, data[m + k]? = data[i + k]?) :
    copyFrom n m (data.take i) = some (data.take (i + n)) := by
  induction n generalizing i m with
  | zero => rfl
  | succ n ih =>
    have hlt : i < data.length := by omega
    have hread : (data.take i)[m]? = some data[i] := by
      rw [List.getElem?_take_of_lt hm, ← List.getElem?_eq_getElem hlt]
      exact h 0 (Nat.succ_pos n)
    unfold copyFrom
    rw [hread, Option.bind_eq_bind, Option.bind_some, List.take_append_getElem hlt]
    rw [ih (by omega) (by omega) fun k hk => ?_, show i + 1 + n = i + (n + 1) by omega]
    have hnext := h (k + 1) (by omega)
    rwa [← Nat.add_assoc, Nat.add_right_comm, ← Nat.add_assoc, Nat.add_right_comm i] at hnext

/-- A sequence that a text has at `i`, and where it ends. -/
structure Seq.At (data : List α) (s : Seq α) (i : ℕ) : Prop where
  lits : data.take i ++ s.lits = data.take (i + s.lits.length)
  off_pos : 0 < s.off
  off_le : s.off ≤ i + s.lits.length
  inside : i + s.lits.length + s.len ≤ data.length
  agrees : ∀ k < s.len,
    data[i + s.lits.length - s.off + k]? = data[i + s.lits.length + k]?

/-- **A sequence of a text** makes the next part of it. -/
theorem Seq.At.apply_eq {data : List α} {s : Seq α} {i : ℕ} (h : s.At data i) :
    s.apply (data.take i) = some (data.take (i + s.lits.length + s.len)) := by
  have hin := h.inside
  have hoff := h.off_pos
  have hle := h.off_le
  unfold Seq.apply
  rw [h.lits, List.length_take_of_le (by omega)]
  exact copyFrom_take (by omega) hin h.agrees

theorem copyFrom_length {n m : ℕ} {out out' : List α} (h : copyFrom n m out = some out') :
    out'.length = out.length + n := by
  induction n generalizing m out with
  | zero =>
    obtain rfl := Option.some.inj h
    rfl
  | succ n ih =>
    unfold copyFrom at h
    cases ha : out[m]? with
    | none =>
      rw [ha] at h
      exact nomatch h
    | some a =>
      rw [ha] at h
      have hlen := ih h
      rw [List.length_append, List.length_singleton] at hlen
      omega

end Backref
