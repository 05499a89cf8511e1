import Mathlib.Data.List.GetD
import Mathlib.Logic.Function.Basic

/-!
# Loops over arrays that may overlap

A memory of objects, each of which has room for so many elements. A loop takes the elements of two
arrays from the first on, and stores what it makes of each pair, and of what it carries along, in a
third one. That array may be one of the two, or begin in front of them: what a round reads has not
been stored to by then (`zipLoop_eq`).
-/

namespace Arrays

open Function

/-- An element of an object. -/
structure Ptr (O : Type) where
  obj : O
  off : ℕ

abbrev Mem (O α : Type) := O → ℕ → α

variable {O α σ : Type} [DecidableEq O] (size : O → Option ℕ)

/-- So many elements further. -/
def Ptr.add (p : Ptr O) (i : ℕ) : Ptr O := ⟨p.obj, p.off + i⟩

omit [DecidableEq O] in
theorem Ptr.add_off (p : Ptr O) (i : ℕ) : (p.add i).off = p.off + i := rfl

/-- There is room for so many elements from here on. -/
def Room (p : Ptr O) (n : ℕ) : Prop := ∀ s ∈ size p.obj, p.off + n ≤ s

instance (p : Ptr O) (n : ℕ) : Decidable (Room size p n) :=
  inferInstanceAs (Decidable (∀ s ∈ size p.obj, p.off + n ≤ s))

def load (μ : Mem O α) (p : Ptr O) (i : ℕ) : Option α :=
  if Room size p (i + 1) then some (μ p.obj (p.off + i)) else none

/-- The memory with another element. -/
def poke (μ : Mem O α) (p : Ptr O) (i : ℕ) (v : α) : Mem O α :=
  update μ p.obj (update (μ p.obj) (p.off + i) v)

def store (μ : Mem O α) (p : Ptr O) (i : ℕ) (v : α) : Option (Mem O α) :=
  if Room size p (i + 1) then some (poke μ p i v) else none

/-- The loop: `r[i]`, and what is carried, become `step a[i] b[i]` of what is carried. -/
def zipLoop (step : α → α → σ → Option (α × σ)) :
    ℕ → Ptr O → Ptr O → Ptr O → Mem O α → σ → Option (Mem O α × σ)
  | 0, _, _, _, μ, c => some (μ, c)
  | n + 1, r, a, b, μ, c => do
    let (v, c) ← step (← load size μ a 0) (← load size μ b 0) c
    zipLoop step n (r.add 1) (a.add 1) (b.add 1) (← store size μ r 0 v) c

/-- A loop that copies. -/
def copy (n : ℕ) (r a : Ptr O) (μ : Mem O α) : Option (Mem O α) :=
  (zipLoop size (fun x _ c => some (x, c)) n r a a μ ()).map Prod.fst

/-- A loop that stores the same everywhere. -/
def fill (v : α) : ℕ → Ptr O → Mem O α → Option (Mem O α)
  | 0, _, μ => some μ
  | n + 1, r, μ => do fill v n (r.add 1) (← store size μ r 0 v)

/-! ## Rows -/

/-- What the loop makes of two rows. -/
def zipRow (step : α → α → σ → Option (α × σ)) : List α → List α → σ → Option (List α × σ)
  | x :: xs, y :: ys, c => do
    let (v, c) ← step x y c
    let (vs, c) ← zipRow step xs ys c
    some (v :: vs, c)
  | _, _, c => some ([], c)

/-- So many elements from here on. -/
def slice (μ : Mem O α) (p : Ptr O) (n : ℕ) : List α :=
  (List.range n).map fun i => μ p.obj (p.off + i)

/-- The memory with a row stored from here on. -/
def put (μ : Mem O α) (p : Ptr O) (l : List α) : Mem O α :=
  update μ p.obj fun i => if p.off ≤ i then l[i - p.off]?.getD (μ p.obj i) else μ p.obj i

/-- What is stored to the one array is not read from the other later on. -/
def Behind (r a : Ptr O) (n : ℕ) : Prop := r.obj = a.obj → r.off ≤ a.off ∨ a.off + n ≤ r.off

variable {size} {μ : Mem O α} {p r a b : Ptr O} {n i : ℕ} {l : List α} {v : α}

omit [DecidableEq O] in
@[simp] theorem length_slice : (slice μ p n).length = n := by
  rw [slice, List.length_map, List.length_range]

omit [DecidableEq O] in
theorem slice_succ (μ : Mem O α) (p : Ptr O) (n : ℕ) :
    slice μ p (n + 1) = μ p.obj p.off :: slice μ (p.add 1) n := by
  unfold slice
  rw [List.range_succ_eq_map, List.map_cons, List.map_map]
  refine congrArg _ (List.map_congr_left fun i _ => ?_)
  exact congrArg (μ p.obj) (by rw [Ptr.add_off, Nat.add_assoc, Nat.add_comm 1])

theorem put_nil (μ : Mem O α) (p : Ptr O) : put μ p [] = μ := by
  unfold put
  simp

theorem put_cons (μ : Mem O α) (p : Ptr O) (v : α) (l : List α) :
    put (poke μ p 0 v) (p.add 1) l = put μ p (v :: l) := by
  refine (update_idem _ _ μ).trans (congrArg (update μ p.obj) (funext fun i => ?_))
  rw [poke, show (p.add 1).obj = p.obj from rfl, update_self, Ptr.add_off]
  rcases Nat.lt_trichotomy i p.off with h | rfl | h
  · rw [if_neg (by omega), if_neg (by omega), update_of_ne (by omega)]
  · rw [if_neg (by omega), if_pos (Nat.le_refl _), Nat.add_zero, update_self, Nat.sub_self]
    rfl
  · rw [if_pos (by omega), if_pos (by omega), update_of_ne (by omega)]
    obtain ⟨k, rfl⟩ : ∃ k, i = p.off + 1 + k := Nat.exists_eq_add_of_le h
    rw [Nat.add_sub_cancel_left, show p.off + 1 + k - p.off = k + 1 by omega,
      List.getElem?_cons_succ]

theorem slice_poke (h : p.obj = a.obj → p.off < a.off ∨ a.off + n ≤ p.off) :
    slice (poke μ p 0 v) a n = slice μ a n := by
  unfold slice poke
  refine List.map_congr_left fun i hi => ?_
  have hi := List.mem_range.mp hi
  by_cases hobj : a.obj = p.obj
  · have := h hobj.symm
    rw [hobj, update_self, update_of_ne (by omega)]
  · rw [update_of_ne hobj]

omit [DecidableEq O] in
theorem Room.le (h : Room size p n) (hi : i ≤ n) : Room size p i := fun s hs => by
  have := h s hs
  omega

omit [DecidableEq O] in
theorem Room.tail (h : Room size p (n + 1)) : Room size (p.add 1) n := fun s hs => by
  have := h s hs
  rw [Ptr.add_off]
  omega

omit [DecidableEq O] in
theorem Behind.tail (h : Behind r a (n + 1)) : Behind (r.add 1) (a.add 1) n := fun ho => by
  have := h ho
  rw [Ptr.add_off, Ptr.add_off]
  omega

/-- **A loop over arrays is a loop over the rows in them**, as long as no round stores to what a
later one reads. -/
theorem zipLoop_eq (step : α → α → σ → Option (α × σ)) (hr : Room size r n) (ha : Room size a n)
    (hb : Room size b n) (hra : Behind r a n) (hrb : Behind r b n) (c : σ) :
    zipLoop size step n r a b μ c =
      (zipRow step (slice μ a n) (slice μ b n) c).map fun s => (put μ r s.1, s.2) := by
  induction n generalizing r a b μ c with
  | zero => exact congrArg (fun m => some (m, c)) (put_nil μ r).symm
  | succ n ih =>
    have hone : 1 ≤ n + 1 := Nat.le_add_left 1 n
    have hkept {q : Ptr O} (h : Behind r q (n + 1)) (v : α) :
        slice (poke μ r 0 v) (q.add 1) n = slice μ (q.add 1) n :=
      slice_poke fun ho => by
        have := h ho
        rw [Ptr.add_off]
        omega
    unfold zipLoop
    rw [load, if_pos (ha.le hone), load, if_pos (hb.le hone), slice_succ, slice_succ, zipRow]
    simp only [Option.bind_eq_bind, Option.bind_some, Nat.add_zero]
    cases step (μ a.obj a.off) (μ b.obj b.off) c with
    | none => rfl
    | some s =>
      obtain ⟨v, c⟩ := s
      simp only [Option.bind_some, store, if_pos (hr.le hone)]
      rw [ih hr.tail ha.tail hb.tail hra.tail hrb.tail, hkept hra, hkept hrb]
      cases zipRow step (slice μ (a.add 1) n) (slice μ (b.add 1) n) c with
      | none => rfl
      | some s => exact congrArg (fun m => some (m, s.2)) (put_cons μ r v s.1)

theorem zipRow_copy (xs : List α) : zipRow (fun x _ c => some (x, c)) xs xs () = some (xs, ()) := by
  induction xs with
  | nil => rfl
  | cons x xs ih =>
    unfold zipRow
    simp only [Option.bind_eq_bind, Option.bind_some, ih]

theorem copy_eq (hr : Room size r n) (ha : Room size a n) (hra : Behind r a n) :
    copy size n r a μ = some (put μ r (slice μ a n)) := by
  rw [copy, zipLoop_eq _ hr ha ha hra hra, zipRow_copy]
  rfl

theorem fill_eq (v : α) (hr : Room size r n) :
    fill size v n r μ = some (put μ r (List.replicate n v)) := by
  induction n generalizing r μ with
  | zero => exact congrArg some (put_nil μ r).symm
  | succ n ih =>
    unfold fill
    simp only [Option.bind_eq_bind, store, if_pos (hr.le (Nat.le_add_left 1 n)), Option.bind_some]
    rw [ih hr.tail, put_cons]
    rfl

/-! ## What an array holds -/

/-- The row is there. -/
def Has (μ : Mem O α) (p : Ptr O) (l : List α) : Prop := slice μ p l.length = l

omit [DecidableEq O] in
theorem has_iff : Has μ p l ↔ ∀ i (h : i < l.length), μ p.obj (p.off + i) = l[i] := by
  unfold Has slice
  constructor
  · intro h i hi
    have := List.getElem_of_eq h (by rwa [List.length_map, List.length_range])
    rw [List.getElem_map, List.getElem_range] at this
    exact this
  · intro h
    refine List.ext_getElem (by rw [List.length_map, List.length_range]) fun i _ hi => ?_
    rw [List.getElem_map, List.getElem_range]
    exact h i hi

omit [DecidableEq O] in
theorem Has.load {l₁ l₂ : List α} (h : Has μ p (l₁ ++ v :: l₂)) (hroom : Room size p (i + 1))
    (hi : i = l₁.length) : load size μ p i = some v := by
  subst hi
  rw [Arrays.load, if_pos hroom,
    has_iff.mp h l₁.length (by rw [List.length_append, List.length_cons]; omega),
    List.getElem_append_right (Nat.le_refl _)]
  simp

theorem Has.store {l₁ l₂ : List α} {u : α} (h : Has μ p (l₁ ++ u :: l₂))
    (hroom : Room size p (i + 1)) (hi : i = l₁.length) (v : α) :
    store size μ p i v = some (poke μ p i v) ∧ Has (poke μ p i v) p (l₁ ++ v :: l₂) := by
  subst hi
  have hset : l₁ ++ v :: l₂ = (l₁ ++ u :: l₂).set l₁.length v := by simp
  refine ⟨if_pos hroom, has_iff.mpr fun j hj => ?_⟩
  simp only [hset, List.getElem_set, poke, update_self]
  rw [hset, List.length_set] at hj
  split
  · next hij => rw [hij, update_self]
  · next hij => rw [update_of_ne (by omega), has_iff.mp h j hj]

theorem Has.put {l' : List α} (h : Has μ p l) (hle : l'.length ≤ l.length) :
    Has (put μ p l') p (l' ++ l.drop l'.length) := by
  refine has_iff.mpr fun j hj => ?_
  rw [List.length_append, List.length_drop] at hj
  rw [Arrays.put, update_self, if_pos (Nat.le_add_right _ _), Nat.add_sub_cancel_left]
  rcases Nat.lt_or_ge j l'.length with hlt | hge
  · rw [List.getElem?_eq_getElem hlt, List.getElem_append_left hlt]
    rfl
  · rw [List.getElem?_eq_none hge, List.getElem_append_right hge, List.getElem_drop,
      Option.getD_none, has_iff.mp h j (by omega)]
    congr 1
    omega

omit [DecidableEq O] in
theorem Has.slice (h : Has μ p l) (k : ℕ) (hn : k + n ≤ l.length) :
    slice μ (p.add k) n = (l.drop k).take n := by
  refine List.ext_getElem (by rw [length_slice, List.length_take, List.length_drop]; omega)
    fun i hi _ => ?_
  rw [length_slice] at hi
  simp only [Arrays.slice, List.getElem_map, List.getElem_range, List.getElem_take,
    List.getElem_drop]
  rw [← has_iff.mp h (k + i) (by omega), Ptr.add_off, Nat.add_assoc]
  rfl

/-- A row that has been stored is there. -/
theorem has_put (μ : Mem O α) (p : Ptr O) (l : List α) : Has (Arrays.put μ p l) p l := by
  have h : Has μ p (Arrays.slice μ p l.length) := by rw [Has, length_slice]
  have h' : Has (Arrays.put μ p l) p (l ++ _) := h.put (Nat.le_of_eq length_slice.symm)
  rwa [List.drop_of_length_le (Nat.le_of_eq length_slice), List.append_nil] at h'

theorem put_of_ne {o : O} (h : o ≠ p.obj) : put μ p l o = μ o := update_of_ne h _ _

theorem poke_of_ne {o : O} (h : o ≠ p.obj) : poke μ p i v o = μ o := update_of_ne h _ _

theorem slice_put_of_ne {q : Ptr O} (h : q.obj ≠ p.obj) : slice (put μ p l) q n = slice μ q n := by
  unfold slice
  rw [put_of_ne h]

theorem put_of_outside {i : ℕ} (h : i < p.off ∨ p.off + l.length ≤ i) :
    put μ p l p.obj i = μ p.obj i := by
  rw [put, update_self]
  split
  · rw [List.getElem?_eq_none (by omega)]
    rfl
  · rfl

theorem slice_put_of_apart {q : Ptr O} (h : q.off + n ≤ p.off ∨ p.off + l.length ≤ q.off) :
    slice (put μ p l) q n = slice μ q n := by
  by_cases hobj : q.obj = p.obj
  · unfold slice
    refine List.map_congr_left fun i hi => ?_
    rw [hobj]
    exact put_of_outside (by have := List.mem_range.mp hi; omega)
  · exact slice_put_of_ne hobj

theorem slice_put (μ : Mem O α) (p : Ptr O) (h : l.length = n) : slice (put μ p l) p n = l :=
  h ▸ has_put μ p l

end Arrays
