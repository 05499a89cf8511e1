import Mathlib.Data.Fintype.Card
import Mathlib.Data.List.Nodup

/-!
# Slots that bear keys

A table has finitely many slots. A slot bears a key or is free, and no two slots bear the same key.
To enter a key is to find the slot that bears it, or else to take a free slot; which of them does
not matter here. A row of keys is entered one after the other (`Entered`), and whether each of them
gets a slot is a matter of counting: `Entered.all_iff`.
-/

namespace SlotTable

variable {ι κ : Type*} {t t' : ι → Option κ} {k : κ} {ks : List κ}

/-- No two slots bear the same key. -/
def Single (t : ι → Option κ) : Prop := ∀ ⦃i j : ι⦄ ⦃k : κ⦄, t i = some k → t j = some k → i = j

/-- Some slot bears the key. -/
def Bears (t : ι → Option κ) (k : κ) : Prop := ∃ i, t i = some k

section Enter

variable [DecidableEq ι]

/-- One key entered, with the slot it has then. -/
inductive Enter (t : ι → Option κ) (k : κ) : Option ι → (ι → Option κ) → Prop
  | held {i : ι} (h : t i = some k) : Enter t k (some i) t
  | took {i : ι} (hno : ¬ Bears t k) (h : t i = none) :
    Enter t k (some i) (Function.update t i (some k))
  | full (hno : ¬ Bears t k) (h : ∀ i, t i ≠ none) : Enter t k none t

/-- A row of keys entered. -/
inductive Entered : (ι → Option κ) → List κ → (ι → Option κ) → Prop
  | nil (t : ι → Option κ) : Entered t [] t
  | cons {t t' t'' : ι → Option κ} {k : κ} {ks : List κ} {o : Option ι} (h : Enter t k o t')
    (hs : Entered t' ks t'') : Entered t (k :: ks) t''

variable {o : Option ι} {i : ι} {l : κ}

/-- A slot keeps its key. -/
theorem Enter.keeps (h : Enter t k o t') (hi : t i = some l) : t' i = some l := by
  cases h with
  | held _ | full _ _ => exact hi
  | took hno hfree =>
    rw [Function.update_of_ne (by rintro rfl; rw [hi] at hfree; exact nomatch hfree)]
    exact hi

/-- A slot that was free has the entered key, if it has one. -/
theorem Enter.only (h : Enter t k o t') (hi : t' i = some l) :
    t i = some l ∨ t i = none ∧ l = k := by
  cases h with
  | held _ | full _ _ => exact Or.inl hi
  | @took j hno hfree =>
    by_cases hij : i = j
    · subst hij
      rw [Function.update_self] at hi
      exact Or.inr ⟨hfree, (Option.some.inj hi).symm⟩
    · rw [Function.update_of_ne hij] at hi
      exact Or.inl hi

/-- The slot an entered key has bears it. -/
theorem Enter.bears (h : Enter t k (some i) t') : t' i = some k := by
  cases h with
  | held h => exact h
  | took hno hfree => exact Function.update_self ..

theorem Enter.single (h : Enter t k o t') (ht : Single t) : Single t' := by
  intro i j l hi hj
  rcases h.only hi with hi' | ⟨hi', rfl⟩ <;> rcases h.only hj with hj' | ⟨hj', hl⟩
  · exact ht hi' hj'
  · -- a key is taken only if nothing bears it
    subst hl
    cases h with
    | held _ | full _ _ => exact ht hi hj
    | took hno _ => exact absurd ⟨i, hi'⟩ hno
  · cases h with
    | held _ | full _ _ => exact ht hi hj
    | took hno _ => exact absurd ⟨j, hj'⟩ hno
  · cases h with
    | held _ | full _ _ => exact ht hi hj
    | @took m hno hfree =>
      have hone : ∀ {n : ι}, t n = none → Function.update t m (some l) n = some l → n = m := by
        intro n hn hn'
        by_contra hc
        rw [Function.update_of_ne hc, hn] at hn'
        exact nomatch hn'
      rw [hone hi' hi, hone hj' hj]

/-- Another key is borne afterwards if it was before. -/
theorem Enter.bears_of_ne (h : Enter t k o t') (hl : l ≠ k) : Bears t' l ↔ Bears t l := by
  constructor
  · rintro ⟨i, hi⟩
    exact (h.only hi).elim (fun hi => ⟨i, hi⟩) fun hc => absurd hc.2 hl
  · rintro ⟨i, hi⟩
    exact ⟨i, h.keeps hi⟩

theorem Entered.keeps (h : Entered t ks t') (hi : t i = some l) : t' i = some l := by
  induction h with
  | nil _ => exact hi
  | cons h _ ih => exact ih (h.keeps hi)

theorem Entered.single (h : Entered t ks t') (ht : Single t) : Single t' := by
  induction h with
  | nil _ => exact ht
  | cons h _ ih => exact ih (h.single ht)

/-- **A key without a slot found none free**, and none is free at the end. -/
theorem Entered.full (h : Entered t ks t') (hl : l ∈ ks) (hno : ¬ Bears t' l) :
    ∀ i, t' i ≠ none := by
  induction h with
  | nil _ => exact absurd hl List.not_mem_nil
  | @cons t t' t'' k ks o h hs ih =>
    rcases List.mem_cons.mp hl with rfl | hl
    · cases o with
      | some i => exact absurd ⟨i, hs.keeps h.bears⟩ hno
      | none =>
        cases h with
        | full _ hfull =>
          intro i
          cases hi : t i with
          | none => exact absurd hi (hfull i)
          | some m =>
            rw [hs.keeps hi]
            simp
    · exact ih hl hno

end Enter

/-! ## Counting -/

open Classical in
/-- How many of the keys no slot bears. -/
noncomputable def fresh (t : ι → Option κ) (ks : List κ) : Nat :=
  (ks.filter fun k => ¬ Bears t k).length

theorem fresh_cons_of_bears (h : Bears t k) (ks : List κ) : fresh t (k :: ks) = fresh t ks := by
  unfold fresh
  rw [List.filter_cons_of_neg (by simpa using h)]

theorem fresh_cons_of_not (h : ¬ Bears t k) (ks : List κ) :
    fresh t (k :: ks) = fresh t ks + 1 := by
  unfold fresh
  rw [List.filter_cons_of_pos (by simpa using h), List.length_cons]

theorem fresh_congr (h : ∀ l ∈ ks, Bears t' l ↔ Bears t l) : fresh t' ks = fresh t ks := by
  unfold fresh
  congr 1
  refine List.filter_congr fun l hl => ?_
  rw [decide_eq_decide, h l hl]

open Classical in
/-- The keys that no slot bears. -/
noncomputable def freshOf (t : ι → Option κ) (ks : List κ) : List κ :=
  ks.filter fun k => ¬ Bears t k

theorem freshOf_cons_of_bears (h : Bears t k) (ks : List κ) :
    freshOf t (k :: ks) = freshOf t ks := by
  unfold freshOf
  rw [List.filter_cons_of_neg (by simpa using h)]

theorem freshOf_cons_of_not (h : ¬ Bears t k) (ks : List κ) :
    freshOf t (k :: ks) = k :: freshOf t ks := by
  unfold freshOf
  rw [List.filter_cons_of_pos (by simpa using h)]

theorem freshOf_congr (h : ∀ l ∈ ks, Bears t' l ↔ Bears t l) : freshOf t' ks = freshOf t ks := by
  unfold freshOf
  refine List.filter_congr fun l hl => ?_
  rw [decide_eq_decide, h l hl]

section Count

variable [Fintype ι]

open Classical in
/-- How many slots are free. -/
noncomputable def free (t : ι → Option κ) : Nat := (Finset.univ.filter fun i => t i = none).card

theorem free_eq_zero (h : ∀ i, t i ≠ none) : free t = 0 := by
  unfold free
  rw [Finset.card_eq_zero, Finset.filter_eq_empty_iff]
  exact fun i _ => h i

theorem free_update [DecidableEq ι] {i : ι} (h : t i = none) (k : κ) :
    free (Function.update t i (some k)) + 1 = free t := by
  have hmem : i ∈ Finset.univ.filter fun j => t j = none := by simpa using h
  unfold free
  rw [← Finset.card_erase_add_one hmem]
  congr 2
  ext j
  by_cases hj : j = i
  · subst hj
    simp
  · simp [hj]

/-- **Each key of a row gets a slot** exactly if the keys that no slot bears are no more than the
free slots. -/
theorem Entered.all_iff [DecidableEq ι] (h : Entered t ks t') (hnd : ks.Nodup) :
    (∀ k ∈ ks, Bears t' k) ↔ fresh t ks ≤ free t := by
  induction h with
  | nil t => simp [fresh]
  | @cons t t' t'' k ks o h hs ih =>
    obtain ⟨hk, hnd⟩ := List.nodup_cons.mp hnd
    have hrest : fresh t' ks = fresh t ks :=
      fresh_congr fun l hl => h.bears_of_ne fun hc => hk (hc ▸ hl)
    have hcons : (∀ l ∈ k :: ks, Bears t'' l) ↔ Bears t'' k ∧ fresh t ks ≤ free t' := by
      rw [List.forall_mem_cons, ih hnd, hrest]
    rw [hcons]
    cases h with
    | @held i hi =>
      rw [fresh_cons_of_bears ⟨i, hi⟩]
      exact and_iff_right ⟨i, hs.keeps hi⟩
    | @took i hno hfree =>
      rw [fresh_cons_of_not hno, ← free_update hfree k, Nat.add_le_add_iff_right]
      exact and_iff_right ⟨i, hs.keeps (Function.update_self ..)⟩
    | full hno hfull =>
      -- nothing is free for the key, and nothing will be
      rw [fresh_cons_of_not hno, free_eq_zero hfull]
      refine ⟨fun ⟨⟨i, hi⟩, _⟩ => ?_, fun hc => absurd hc (by omega)⟩
      cases ht : t i with
      | none => exact absurd ht (hfull i)
      | some m =>
        obtain rfl := Option.some.inj (hi.symm.trans (hs.keeps ht))
        exact absurd ⟨i, ht⟩ hno

/-- **Which keys of a row have a slot**: those that had one, and of the others as many as there are
free slots, from the front. -/
theorem Entered.bears_iff [DecidableEq ι] (h : Entered t ks t') (hnd : ks.Nodup) {l : κ}
    (hl : l ∈ ks) : Bears t' l ↔ Bears t l ∨ l ∈ (freshOf t ks).take (free t) := by
  induction h generalizing l with
  | nil _ => exact absurd hl List.not_mem_nil
  | @cons t t' t'' k ks o h hs ih =>
    obtain ⟨hk, hnd⟩ := List.nodup_cons.mp hnd
    have hother {m : κ} (hm : m ∈ ks) : Bears t' m ↔ Bears t m :=
      h.bears_of_ne fun hc => hk (hc ▸ hm)
    rw [freshOf_congr fun m hm => hother hm] at ih
    cases h with
    | @held i hi =>
      rw [freshOf_cons_of_bears ⟨i, hi⟩]
      rcases List.mem_cons.mp hl with rfl | hl
      · exact iff_of_true ⟨i, hs.keeps hi⟩ (.inl ⟨i, hi⟩)
      · exact ih hnd hl
    | @took i hno hfree =>
      have hbears : Bears t'' k := ⟨i, hs.keeps (Function.update_self ..)⟩
      rw [freshOf_cons_of_not hno, ← free_update hfree k, List.take_succ_cons]
      rcases List.mem_cons.mp hl with rfl | hl
      · exact iff_of_true hbears (.inr List.mem_cons_self)
      · rw [ih hnd hl, hother hl, List.mem_cons,
          or_iff_right (b := l ∈ _) fun hc : l = k => hk (hc ▸ hl)]
    | full hno hfull =>
      rw [free_eq_zero hfull, List.take_zero] at ih ⊢
      rcases List.mem_cons.mp hl with rfl | hl
      · refine iff_of_false (fun ⟨i, hi⟩ => ?_) (fun hc => hc.elim hno fun hm => nomatch hm)
        cases ht : t i with
        | none => exact absurd ht (hfull i)
        | some m =>
          obtain rfl := Option.some.inj (hi.symm.trans (hs.keeps ht))
          exact hno ⟨i, ht⟩
      · exact ih hnd hl

/-- What is free afterwards. -/
theorem Entered.free_eq [DecidableEq ι] (h : Entered t ks t') (hnd : ks.Nodup) :
    free t' = free t - (freshOf t ks).length := by
  induction h with
  | nil _ => rfl
  | @cons t t' t'' k ks o h hs ih =>
    obtain ⟨hk, hnd⟩ := List.nodup_cons.mp hnd
    rw [ih hnd, freshOf_congr fun l hl => h.bears_of_ne fun hc => hk (hc ▸ hl)]
    cases h with
    | @held i hi => rw [freshOf_cons_of_bears ⟨i, hi⟩]
    | @took i hno hfree =>
      have hfewer := free_update hfree k
      rw [freshOf_cons_of_not hno, List.length_cons]
      omega
    | full hno hfull => rw [free_eq_zero hfull, Nat.zero_sub, Nat.zero_sub]

open Classical in
/-- How many slots bear one of the keys. -/
noncomputable def held (t : ι → Option κ) (ks : List κ) : Nat :=
  (Finset.univ.filter fun i => ∃ k, t i = some k ∧ k ∈ ks).card

open Classical in
/-- How many slots bear a key that is not one of these. -/
noncomputable def others (t : ι → Option κ) (ks : List κ) : Nat :=
  (Finset.univ.filter fun i => ∃ k, t i = some k ∧ k ∉ ks).card

theorem held_cons_of_bears (ht : Single t) (hk : k ∉ ks) (hb : Bears t k) :
    held t (k :: ks) = held t ks + 1 := by
  classical
  obtain ⟨i, hi⟩ := hb
  have hins : (Finset.univ.filter fun j => ∃ l, t j = some l ∧ l ∈ k :: ks)
      = insert i (Finset.univ.filter fun j => ∃ l, t j = some l ∧ l ∈ ks) := by
    ext j
    simp only [Finset.mem_filter, Finset.mem_univ, true_and, Finset.mem_insert, List.mem_cons]
    constructor
    · rintro ⟨l, hj, rfl | hl⟩
      · exact Or.inl (ht hj hi)
      · exact Or.inr ⟨l, hj, hl⟩
    · rintro (rfl | ⟨l, hj, hl⟩)
      · exact ⟨k, hi, Or.inl rfl⟩
      · exact ⟨l, hj, Or.inr hl⟩
  have hnot : i ∉ Finset.univ.filter fun j => ∃ l, t j = some l ∧ l ∈ ks := by
    simp only [Finset.mem_filter, Finset.mem_univ, true_and, hi, Option.some.injEq]
    rintro ⟨l, rfl, hl⟩
    exact hk hl
  unfold held
  rw [hins, Finset.card_insert_of_notMem hnot]

theorem held_cons_of_not (hb : ¬ Bears t k) (ks : List κ) : held t (k :: ks) = held t ks := by
  classical
  unfold held
  refine congrArg Finset.card (Finset.filter_congr fun j _ => exists_congr fun l =>
    and_congr_right fun hj => ?_)
  rw [List.mem_cons]
  exact or_iff_right fun hl => hb ⟨j, hl ▸ hj⟩

/-- The keys of a row are borne by a slot each, or fresh. -/
theorem held_add_fresh (ht : Single t) (hnd : ks.Nodup) : held t ks + fresh t ks = ks.length := by
  induction ks with
  | nil => simp [held, fresh]
  | cons k ks ih =>
    obtain ⟨hk, hnd⟩ := List.nodup_cons.mp hnd
    have ih := ih hnd
    rw [List.length_cons]
    by_cases hb : Bears t k
    · rw [held_cons_of_bears ht hk hb, fresh_cons_of_bears hb]
      omega
    · rw [held_cons_of_not hb, fresh_cons_of_not hb]
      omega

/-- A slot bears one of the keys or another one, or is free. -/
theorem held_add_others_add_free (t : ι → Option κ) (ks : List κ) :
    held t ks + others t ks + free t = Fintype.card ι := by
  classical
  have hborne : held t ks + others t ks = (Finset.univ.filter fun i => ¬ t i = none).card := by
    unfold held others
    rw [← Finset.card_union_of_disjoint]
    · congr 1
      ext i
      cases hi : t i with
      | none => simp [hi]
      | some k => by_cases hk : k ∈ ks <;> simp [hi, hk]
    · rw [Finset.disjoint_left]
      simp only [Finset.mem_filter, Finset.mem_univ, true_and]
      rintro i ⟨k, hi, hk⟩ ⟨l, hi', hl⟩
      obtain rfl := Option.some.inj (hi.symm.trans hi')
      exact hl hk
  rw [hborne, Nat.add_comm]
  unfold free
  rw [Finset.card_filter_add_card_filter_not, Finset.card_univ]

/-- **If the keys and the others have room, the new keys have it.** -/
theorem fresh_le_free (ht : Single t) (hnd : ks.Nodup)
    (h : ks.length + others t ks ≤ Fintype.card ι) : fresh t ks ≤ free t := by
  have h1 := held_add_fresh ht hnd
  have h2 := held_add_others_add_free t ks
  omega

end Count

end SlotTable
