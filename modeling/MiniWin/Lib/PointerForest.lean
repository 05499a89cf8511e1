import Mathlib.Logic.Function.Basic
import Mathlib.Tactic.ByContra

/-!
# Forests of pointer tables

A forest is a family of trees whose nodes are the cells of one memory. An owner
has a pointer at each of its roots; some pointers lead to a *table* – a cell
that is itself a sequence of pointers – and the others to a leaf. The pointer
`0` leads nowhere.

`Place.ref` follows the pointers from an owner to a place of its tree. Two
things matter about a forest: which cells it owns (`Owned`), and that no two
places of it are the same cell (`Sep`). The forest grows by linking a cell it
did not own into a place that was empty, at a root (`ref_link_root`) or in a
table (`ref_link_entry`), and both are kept by either (`Sep.link`,
`owned_link`).
-/

/-- A place of a tree of pointer tables: a root, or an entry of the table that
another place leads to. -/
inductive Place (R : Type) where
  | root (r : R)
  | entry (p : Place R) (k : Nat)
  deriving DecidableEq

namespace Place

variable {R I : Type} (isTab : Place R → Bool) (tbl : Nat → Nat → Nat)

/-- The cell a place leads to, from the pointers `top` at the roots and the
entries `tbl` of the tables; `0` when there is nothing there. -/
def ref (top : R → Nat) : Place R → Nat
  | .root r => top r
  | .entry p k => if isTab p = false ∨ ref top p = 0 then 0 else tbl (ref top p) k

@[simp] theorem ref_root (top : R → Nat) (r : R) : ref isTab tbl top (.root r) = top r := rfl

theorem entry_ne_self (p : Place R) (k : Nat) : Place.entry p k ≠ p := by
  intro h
  have := congrArg sizeOf h
  simp only [Place.entry.sizeOf_spec] at this
  omega

theorem ref_entry (top : R → Nat) {p : Place R} (k : Nat) (ht : isTab p = true)
    (h : ref isTab tbl top p ≠ 0) :
    ref isTab tbl top (.entry p k) = tbl (ref isTab tbl top p) k := by
  rw [ref, if_neg (by simp [ht, h])]

theorem ref_entry_eq_zero (top : R → Nat) {p : Place R} (k : Nat)
    (h : isTab p = false ∨ ref isTab tbl top p = 0) : ref isTab tbl top (.entry p k) = 0 := by
  rw [ref, if_pos h]

/-- A place with something in it hangs from a table. -/
theorem of_ref_entry_ne_zero {top : R → Nat} {p : Place R} {k : Nat}
    (h : ref isTab tbl top (.entry p k) ≠ 0) :
    isTab p = true ∧ ref isTab tbl top p ≠ 0 := by
  by_contra hc
  refine h (ref_entry_eq_zero isTab tbl top k ?_)
  by_cases ht : isTab p = true
  · exact Or.inr (by_contra fun h0 => hc ⟨ht, h0⟩)
  · exact Or.inl (by simpa using ht)

variable {isTab tbl}

/-! ## What a change of the memory leaves alone -/

/-- **Only the tables of a tree decide it.** -/
theorem ref_congr {tbl' : Nat → Nat → Nat} {top : R → Nat}
    (h : ∀ q, isTab q = true → ref isTab tbl top q ≠ 0 →
      tbl' (ref isTab tbl top q) = tbl (ref isTab tbl top q)) (p : Place R) :
    ref isTab tbl' top p = ref isTab tbl top p := by
  induction p with
  | root r => rfl
  | entry p k ih =>
    by_cases hp : isTab p = false ∨ ref isTab tbl top p = 0
    · rw [ref_entry_eq_zero isTab tbl top k hp, ref_entry_eq_zero isTab tbl' top k (by rwa [ih])]
    · simp only [not_or, Bool.not_eq_false] at hp
      rw [ref_entry isTab tbl top k hp.1 hp.2,
        ref_entry isTab tbl' top k hp.1 (by rw [ih]; exact hp.2), ih, h p hp.1 hp.2]

/-- Fewer pointers at the roots: every place is empty or as before. -/
theorem ref_of_sub {top top' : R → Nat} (h : ∀ r, top r = 0 ∨ top r = top' r) (p : Place R) :
    ref isTab tbl top p = 0 ∨ ref isTab tbl top p = ref isTab tbl top' p := by
  induction p with
  | root r => exact h r
  | entry p k ih =>
    by_cases hp : isTab p = false ∨ ref isTab tbl top p = 0
    · exact Or.inl (ref_entry_eq_zero isTab tbl top k hp)
    · simp only [not_or, Bool.not_eq_false] at hp
      have heq := ih.resolve_left hp.2
      refine Or.inr ?_
      rw [ref_entry isTab tbl top k hp.1 hp.2,
        ref_entry isTab tbl top' k hp.1 (by rw [← heq]; exact hp.2), heq]

/-! ## Linking a cell into an empty place -/

section Link

variable [DecidableEq R] {top : R → Nat} {l : Nat}

/-- **Linking at a root.** A table linked in has to be empty. -/
theorem ref_link_root {r₀ : R} (h0 : top r₀ = 0)
    (hl : isTab (.root r₀) = true → ∀ k, tbl l k = 0) (p : Place R) :
    ref isTab tbl (Function.update top r₀ l) p
      = if p = .root r₀ then l else ref isTab tbl top p := by
  induction p with
  | root r =>
    by_cases hr : r = r₀
    · subst hr
      simp
    · simp [hr]
  | entry p k ih =>
    rw [if_neg (by simp)]
    by_cases hp : p = .root r₀
    · subst hp
      have hz : ref isTab tbl top (.entry (.root r₀) k) = 0 :=
        ref_entry_eq_zero isTab tbl top k (Or.inr h0)
      rw [hz, ref, ih, if_pos rfl]
      split
      · rfl
      · next hc => exact hl (by simpa using fun h => hc (Or.inl h)) k
    · rw [ref, ih, if_neg hp, ref]

/-- **Linking in a table.** The entry written was empty, and no other place of
the tree is that table. -/
theorem ref_link_entry {tbl' : Nat → Nat → Nat} {q₀ : Place R} {k₀ : Nat}
    (ht : isTab q₀ = true) (hq : ref isTab tbl top q₀ ≠ 0)
    (hinj : ∀ q, ref isTab tbl top q = ref isTab tbl top q₀ → q = q₀)
    (h0 : tbl (ref isTab tbl top q₀) k₀ = 0)
    (htbl : ∀ m k, tbl' m k = if m = ref isTab tbl top q₀ ∧ k = k₀ then l else tbl m k)
    (hl : l ≠ ref isTab tbl top q₀)
    (hz : isTab (.entry q₀ k₀) = true → ∀ k, tbl l k = 0) (p : Place R) :
    ref isTab tbl' top p = if p = .entry q₀ k₀ then l else ref isTab tbl top p := by
  induction p with
  | root r => rw [if_neg (by simp), ref_root, ref_root]
  | entry p k ih =>
    by_cases hp : p = .entry q₀ k₀
    · have hne : Place.entry p k ≠ .entry q₀ k₀ := by
        intro h
        injection h with h1 _
        exact entry_ne_self q₀ k₀ (hp ▸ h1)
      rw [if_neg hne]
      have hz' : ref isTab tbl top (.entry p k) = 0 := by
        refine ref_entry_eq_zero isTab tbl top k (Or.inr ?_)
        rw [hp, ref_entry isTab tbl top k₀ ht hq, h0]
      rw [hz', ref, ih, if_pos hp]
      split
      · rfl
      · next hc =>
        rw [htbl, if_neg (fun h => hl h.1)]
        exact hz (by simpa [hp] using fun h => hc (Or.inl h)) k
    · rw [if_neg hp] at ih
      by_cases hc : isTab p = false ∨ ref isTab tbl top p = 0
      · have hne : Place.entry p k ≠ .entry q₀ k₀ := by
          intro h
          injection h with h1 h2
          subst h1
          exact hc.elim (by simp [ht]) hq
        rw [if_neg hne, ref_entry_eq_zero isTab tbl top k hc,
          ref_entry_eq_zero isTab tbl' top k (by rwa [ih])]
      · simp only [not_or, Bool.not_eq_false] at hc
        rw [ref_entry isTab tbl' top k hc.1 (by rw [ih]; exact hc.2), ih, htbl,
          ref_entry isTab tbl top k hc.1 hc.2]
        by_cases heq : ref isTab tbl top p = ref isTab tbl top q₀ ∧ k = k₀
        · rw [if_pos heq, if_pos (by rw [hinj p heq.1, heq.2])]
        · rw [if_neg heq, if_neg]
          intro h
          injection h with h1 h2
          exact heq ⟨by rw [h1], h2⟩

end Link

/-! ## Forests -/

variable (isTab tbl)

/-- The cell belongs to some place of the forest. -/
def Owned (F : I → Option (R → Nat)) (l : Nat) : Prop :=
  l ≠ 0 ∧ ∃ i t p, F i = some t ∧ ref isTab tbl t p = l

/-- **No two places are the same cell.** -/
def Sep (F : I → Option (R → Nat)) : Prop :=
  ∀ i j t u p q, F i = some t → F j = some u → ref isTab tbl t p = ref isTab tbl u q →
    ref isTab tbl t p ≠ 0 → i = j ∧ p = q

variable {isTab tbl} {F : I → Option (R → Nat)}

/-- A forest with fewer owners, or with fewer pointers at their roots. -/
theorem Sep.of_sub (h : Sep isTab tbl F) {F' : I → Option (R → Nat)}
    (hsub : ∀ i t', F' i = some t' → ∃ t, F i = some t ∧ ∀ r, t' r = 0 ∨ t' r = t r) :
    Sep isTab tbl F' := by
  intro i j t' u' p q hi hj hpq h0
  obtain ⟨t, hit, ht⟩ := hsub i t' hi
  obtain ⟨u, hju, hu⟩ := hsub j u' hj
  have hp := (ref_of_sub ht p).resolve_left h0
  have hq := (ref_of_sub hu q).resolve_left (by rw [← hpq]; exact h0)
  exact h i j t u p q hit hju (by rw [← hp, ← hq, hpq]) (by rw [← hp]; exact h0)

theorem Owned.of_sub {F' : I → Option (R → Nat)}
    (hsub : ∀ i t', F' i = some t' → ∃ t, F i = some t ∧ ∀ r, t' r = 0 ∨ t' r = t r) {l : Nat}
    (h : Owned isTab tbl F' l) : Owned isTab tbl F l := by
  obtain ⟨h0, i, t', p, hi, hp⟩ := h
  obtain ⟨t, hit, ht⟩ := hsub i t' hi
  refine ⟨h0, i, t, p, hit, ?_⟩
  rw [← (ref_of_sub ht p).resolve_left (by rw [hp]; exact h0), hp]

section Link

variable [DecidableEq I] {tbl' : Nat → Nat → Nat} {i : I} {t t' : R → Nat} {p₀ : Place R} {l : Nat}

/-- **Linking a cell the forest did not own keeps its places apart.** -/
theorem Sep.link [DecidableEq R] (h : Sep isTab tbl F) (hi : F i = some t)
    (hown : ¬ Owned isTab tbl F l)
    (ht : ∀ p, ref isTab tbl' t' p = if p = p₀ then l else ref isTab tbl t p)
    (ho : ∀ j u, j ≠ i → F j = some u → ∀ p, ref isTab tbl' u p = ref isTab tbl u p) :
    Sep isTab tbl' (Function.update F i (some t')) := by
  -- every place of the new forest is the linked one or a place of the old
  have key : ∀ j u, Function.update F i (some t') j = some u → ∃ v, F j = some v ∧
      ∀ p, (j = i ∧ p = p₀ ∧ ref isTab tbl' u p = l)
        ∨ (¬(j = i ∧ p = p₀) ∧ ref isTab tbl' u p = ref isTab tbl v p) := by
    intro j u hj
    by_cases hji : j = i
    · subst hji
      rw [Function.update_self, Option.some.injEq] at hj
      subst hj
      refine ⟨t, hi, fun p => ?_⟩
      by_cases hp : p = p₀
      · exact Or.inl ⟨rfl, hp, by rw [ht, if_pos hp]⟩
      · exact Or.inr ⟨fun hc => hp hc.2, by rw [ht, if_neg hp]⟩
    · rw [Function.update_of_ne hji] at hj
      exact ⟨u, hj, fun p => Or.inr ⟨fun hc => hji hc.1, ho j u hji hj p⟩⟩
  intro j m u v p q hj hm hpq h0
  obtain ⟨u₀, hju, hu⟩ := key j u hj
  obtain ⟨v₀, hmv, hv⟩ := key m v hm
  rcases hu p with ⟨hj', hp', hpl⟩ | ⟨-, hpu⟩ <;> rcases hv q with ⟨hm', hq', hql⟩ | ⟨-, hqv⟩
  · exact ⟨hj'.trans hm'.symm, hp'.trans hq'.symm⟩
  · exact absurd ⟨by rwa [hpl] at h0, m, v₀, q, hmv, by rw [← hqv, ← hpq, hpl]⟩ hown
  · exact absurd ⟨by rwa [hpq, hql] at h0, j, u₀, p, hju, by rw [← hpu, hpq, hql]⟩ hown
  · exact h j m u₀ v₀ p q hju hmv (by rw [← hpu, ← hqv, hpq]) (by rw [← hpu]; exact h0)

/-- The cells owned after linking one more. -/
theorem owned_link [DecidableEq R] (hi : F i = some t) (h0 : ref isTab tbl t p₀ = 0) (hl : l ≠ 0)
    (ht : ∀ p, ref isTab tbl' t' p = if p = p₀ then l else ref isTab tbl t p)
    (ho : ∀ j u, j ≠ i → F j = some u → ∀ p, ref isTab tbl' u p = ref isTab tbl u p) (m : Nat) :
    Owned isTab tbl' (Function.update F i (some t')) m ↔ m = l ∨ Owned isTab tbl F m := by
  constructor
  · rintro ⟨hm, j, u, p, hj, hp⟩
    by_cases hji : j = i
    · subst hji
      rw [Function.update_self, Option.some.injEq] at hj
      subst hj
      rw [ht] at hp
      split at hp
      · exact Or.inl hp.symm
      · exact Or.inr ⟨hm, j, t, p, hi, hp⟩
    · rw [Function.update_of_ne hji] at hj
      exact Or.inr ⟨hm, j, u, p, hj, by rw [← ho j u hji hj p, hp]⟩
  · rintro (rfl | ⟨hm, j, u, p, hj, hp⟩)
    · exact ⟨hl, i, t', p₀, Function.update_self .., by rw [ht, if_pos rfl]⟩
    · by_cases hji : j = i
      · subst hji
        rw [hi, Option.some.injEq] at hj
        subst hj
        refine ⟨hm, j, t', p, Function.update_self .., ?_⟩
        rw [ht, if_neg (fun hc => hm (by rw [← hp, hc, h0])), hp]
      · exact ⟨hm, j, u, p, by rw [Function.update_of_ne hji, hj], by rw [ho j u hji hj p, hp]⟩

end Link

end Place
