import Mathlib.Data.List.Basic
import Mathlib.Order.Bounds.Basic
import Mathlib.Tactic.Ring

/-!
# Hashes that take in a message block by block

A compression function turns a chaining value and a block of `B` symbols into the next chaining
value. `chain` folds it over the whole blocks of a message. A `Reader` is what a program keeps that
gets its message in pieces: the chaining value so far, and the symbols of the block that is not full
yet, fewer than `B` of them. `Reader.feed_start` says what it keeps after any message, and
`Reader.feed_append` that the pieces do not matter.

`padded` makes a whole number of blocks of any message: a marker, the least number of zeros, and a
field for the length. `chain_padded` reads the last one or two blocks off the reader.
-/

namespace BlockHash

variable {σ α : Type*} {B L : Nat} {f : σ → List α → σ} {s : σ} {l m : List α}

/-- The whole blocks of a message. -/
def blocks (B : Nat) (l : List α) : List (List α) :=
  (List.range (l.length / B)).map fun i => (l.drop (B * i)).take B

/-- The chaining value behind the whole blocks of a message. -/
def chain (B : Nat) (f : σ → List α → σ) (s : σ) (l : List α) : σ := (blocks B l).foldl f s

/-- What is behind the whole blocks. -/
def rest (B : Nat) (l : List α) : List α := l.drop (B * (l.length / B))

theorem blocks_of_lt (h : l.length < B) : blocks B l = [] := by
  rw [blocks, Nat.div_eq_of_lt h, List.range_zero, List.map_nil]

theorem chain_of_lt (h : l.length < B) : chain B f s l = s := by
  rw [chain, blocks_of_lt h, List.foldl_nil]

theorem rest_of_lt (h : l.length < B) : rest B l = l := by
  rw [rest, Nat.div_eq_of_lt h, Nat.mul_zero, List.drop_zero]

theorem length_rest (B : Nat) (l : List α) : (rest B l).length = l.length % B := by
  rw [rest, List.length_drop, Nat.mod_def]

/-- The first block, and the ones behind it. -/
theorem blocks_append (hB : 0 < B) (h : l.length = B) : blocks B (l ++ m) = l :: blocks B m := by
  have hdiv : (l ++ m).length / B = m.length / B + 1 := by
    rw [List.length_append, h, Nat.add_comm, Nat.add_div_right _ hB]
  unfold blocks
  rw [hdiv, List.range_succ_eq_map, List.map_cons, List.map_map, Nat.mul_zero, List.drop_zero,
    List.take_left' h]
  congr 1
  refine List.map_congr_left fun i _ => ?_
  rw [Function.comp_apply, Nat.mul_succ, Nat.add_comm, ← List.drop_drop, List.drop_left' h]

theorem chain_append (hB : 0 < B) (h : l.length = B) :
    chain B f s (l ++ m) = chain B f (f s l) m := by
  rw [chain, blocks_append hB h, List.foldl_cons, chain]

theorem rest_append (hB : 0 < B) (h : l.length = B) : rest B (l ++ m) = rest B m := by
  unfold rest
  rw [List.length_append, h, Nat.add_comm, Nat.add_div_right _ hB, Nat.mul_succ, Nat.add_comm,
    ← List.drop_drop, List.drop_left' h]

/-- A whole number of blocks in front. -/
theorem chain_append_of_dvd (hB : 0 < B) (h : B ∣ l.length) :
    chain B f s (l ++ m) = chain B f (chain B f s l) m := by
  obtain ⟨k, hk⟩ := h
  induction k generalizing s l with
  | zero =>
    obtain rfl : l = [] := List.eq_nil_of_length_eq_zero hk
    rw [List.nil_append, chain_of_lt (l := []) hB]
  | succ k ih =>
    rw [Nat.mul_succ] at hk
    have hfirst : (l.take B).length = B := by
      rw [List.length_take]
      omega
    have hrest : (l.drop B).length = B * k := by
      rw [List.length_drop]
      omega
    rw [← List.take_append_drop B l, List.append_assoc, chain_append hB hfirst, ih hrest,
      chain_append hB hfirst]

/-! ## A message in pieces -/

/-- What is kept of the message so far. -/
structure Reader (σ α : Type*) (B : Nat) where
  /-- The chaining value behind the blocks that were full. -/
  state : σ
  /-- The symbols of the block that is not full. -/
  held : List α
  held_lt : held.length < B

namespace Reader

variable {r : Reader σ α B}

theorem pos (r : Reader σ α B) : 0 < B := Nat.zero_lt_of_lt r.held_lt

@[ext] theorem ext {r r' : Reader σ α B} (hs : r.state = r'.state) (hh : r.held = r'.held) :
    r = r' := by
  cases r
  cases r'
  cases hs
  cases hh
  rfl

/-- In front of any message. -/
def start (hB : 0 < B) (s : σ) : Reader σ α B := ⟨s, [], hB⟩

/-- One symbol more: it may make the block full. -/
def push (f : σ → List α → σ) (r : Reader σ α B) (a : α) : Reader σ α B :=
  if h : r.held.length + 1 < B then ⟨r.state, r.held ++ [a], by simpa using h⟩
  else ⟨f r.state (r.held ++ [a]), [], r.pos⟩

/-- A piece more. -/
def feed (f : σ → List α → σ) (r : Reader σ α B) (l : List α) : Reader σ α B :=
  l.foldl (push f) r

@[simp] theorem feed_nil (f : σ → List α → σ) (r : Reader σ α B) : r.feed f [] = r := rfl

theorem feed_cons (f : σ → List α → σ) (r : Reader σ α B) (a : α) (l : List α) :
    r.feed f (a :: l) = (r.push f a).feed f l := rfl

/-- **Two pieces are one.** -/
theorem feed_append (f : σ → List α → σ) (r : Reader σ α B) (l m : List α) :
    r.feed f (l ++ m) = (r.feed f l).feed f m := List.foldl_append

/-- A piece that does not make the block full. -/
theorem feed_of_lt (h : r.held.length + l.length < B) :
    r.feed f l = ⟨r.state, r.held ++ l, by rw [List.length_append]; exact h⟩ := by
  induction l generalizing r with
  | nil => exact Reader.ext rfl (List.append_nil r.held).symm
  | cons a l ih =>
    rw [List.length_cons] at h
    have hpush : r.push f a = ⟨r.state, r.held ++ [a], by simp; omega⟩ := dif_pos (by omega)
    rw [feed_cons, hpush, ih (by simp only [List.length_append, List.length_singleton]; omega)]
    exact Reader.ext rfl (List.append_assoc r.held [a] l)

/-- A piece that makes the block just full. -/
theorem feed_of_eq (h : r.held.length + l.length = B) :
    r.feed f l = ⟨f r.state (r.held ++ l), [], r.pos⟩ := by
  have hlt := r.held_lt
  obtain ⟨m, a, rfl⟩ : ∃ m a, l = m ++ [a] := by
    rcases List.eq_nil_or_concat l with rfl | ⟨m, a, rfl⟩
    · exact absurd h (Nat.ne_of_lt hlt)
    · exact ⟨m, a, List.concat_eq_append⟩
  rw [List.length_append, List.length_singleton] at h
  have hm : r.feed f m = ⟨r.state, r.held ++ m, by rw [List.length_append]; omega⟩ :=
    feed_of_lt (by omega)
  have hfull : ¬(r.held ++ m).length + 1 < B := by
    rw [List.length_append]
    omega
  rw [feed_append, hm, feed_cons, feed_nil, push, dif_neg hfull]
  exact Reader.ext (congrArg (f r.state) (List.append_assoc r.held m [a])) rfl

/-- **What is kept of a message**: the chaining value behind its whole blocks, and the rest. -/
theorem feed_start (hB : 0 < B) (s : σ) (l : List α) :
    ((start hB s).feed f l).state = chain B f s l
      ∧ ((start hB s).feed f l).held = rest B l := by
  induction hn : l.length using Nat.strong_induction_on generalizing s l with
  | h n ih =>
    by_cases hlt : l.length < B
    · rw [feed_of_lt (r := start hB s) (by simpa [start] using hlt), chain_of_lt hlt,
        rest_of_lt hlt]
      exact ⟨rfl, List.nil_append l⟩
    · have hfull : (l.take B).length = B := by
        rw [List.length_take]
        omega
      have hrest := ih (l.drop B).length (by rw [List.length_drop]; omega) (f s (l.take B))
        (l.drop B) rfl
      rw [← List.take_append_drop B l, feed_append, chain_append hB hfull, rest_append hB hfull,
        feed_of_eq (r := start hB s) (by simpa [start] using hfull)]
      exact hrest

theorem feed_held_length (hB : 0 < B) (s : σ) (l : List α) :
    ((start hB s).feed f l).held.length = l.length % B := by
  rw [(feed_start hB s l).2, length_rest]

end Reader

/-! ## Padding -/

/-- How many zeros stand between the marker and the length field. -/
def zeros (B L n : Nat) : Nat := (B - (n + 1 + L) % B) % B

/-- A message with the marker, the zeros and the length field behind it. -/
def padded (B : Nat) (one zero : α) (len m : List α) : List α :=
  m ++ one :: List.replicate (zeros B len.length m.length) zero ++ len

/-- The zeros are those that the place in the block asks for. -/
theorem zeros_mod (B L n : Nat) : zeros B L (n % B) = zeros B L n := by
  unfold zeros
  rw [Nat.add_assoc (n % B), Nat.mod_add_mod, ← Nat.add_assoc]

/-- One block ends the message, where there is room for the length in it. -/
theorem zeros_of_le {n : Nat} (h : n + 1 + L ≤ B) : zeros B L n = B - L - (n + 1) := by
  unfold zeros
  rcases Nat.lt_or_ge (n + 1 + L) B with hlt | hge
  · rw [Nat.mod_eq_of_lt hlt, Nat.mod_eq_of_lt (by omega)]
    omega
  · rw [show n + 1 + L = B by omega, Nat.mod_self, Nat.sub_zero, Nat.mod_self]
    omega

/-- Otherwise the block is filled up, and another one takes the length. -/
theorem zeros_of_gt {n : Nat} (hn : n < B) (hL : L ≤ B) (h : B < n + 1 + L) :
    zeros B L n = B - (n + 1) + (B - L) := by
  unfold zeros
  rcases Nat.lt_or_ge (n + 1 + L) (2 * B) with hlt | hge
  · have hmod : (n + 1 + L) % B = n + 1 + L - B := by
      rw [Nat.mod_eq_sub_mod (by omega), Nat.mod_eq_of_lt (by omega)]
    rw [hmod, Nat.mod_eq_of_lt (by omega)]
    omega
  · rw [show n + 1 + L = 2 * B by omega, Nat.mul_mod_left, Nat.sub_zero, Nat.mod_self]
    omega

/-- **The last block** is what the reader has behind the zeros, with the length field. -/
theorem chain_padded {hB : 0 < B} {one zero : α} {len : List α} {r : Reader σ α B}
    (hr : r = (Reader.start hB s).feed f m) {r' : Reader σ α B}
    (h : r' = r.feed f (one :: List.replicate (zeros B len.length r.held.length) zero))
    (hlen : r'.held.length + len.length = B) :
    chain B f s (padded B one zero len m) = f r'.state (r'.held ++ len) := by
  have hz : zeros B len.length r.held.length = zeros B len.length m.length := by
    rw [hr, Reader.feed_held_length, zeros_mod]
  have hfeed : (Reader.start hB s).feed f (padded B one zero len m)
      = ⟨f r'.state (r'.held ++ len), [], hB⟩ := by
    rw [padded, Reader.feed_append, Reader.feed_append, ← hr, ← hz, ← h, Reader.feed_of_eq hlen]
  rw [← (Reader.feed_start hB s _).1, hfeed]

end BlockHash
