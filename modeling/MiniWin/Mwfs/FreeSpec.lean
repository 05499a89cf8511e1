import MiniWin.Mwfs.FileSpec

/-!
# Giving sectors back

`freeBlocks` walks the tables of an inode as they are on the disk and clears the
bit of every sector it meets, the tables' own last. Only bits change on the way,
so the walk sees the same tables to its end.
-/

namespace Mwfs

open Place

/-- The run from `s` to `s'` clears the bits of the sectors `X`, one at a time,
and does nothing else. -/
structure Cleared (g : Geo) (X : Nat → Prop) (s s' : St) : Prop where
  sane : Sane g s'
  sb : (view g s'.disk).sb = (view g s.disk).sb
  ino : (view g s'.disk).ino = (view g s.disk).ino
  sec : (view g s'.disk).sec = (view g s.disk).sec
  gone : ∀ l, X l → (view g s'.disk).bit l = false
  kept : ∀ l, ¬ X l → (view g s'.disk).bit l = (view g s.disk).bit l
  via : ∀ Q : View → Prop, Q (view g s.disk) → (∀ W l, Q W → X l → Q (W.setBit l false)) →
    Via g Q s s'

section Cleared

variable {g : Geo} {s s' s'' : St} {X Y : Nat → Prop}

theorem Cleared.refl (hs : Sane g s) (hX : ∀ l, ¬ X l) : Cleared g X s s :=
  ⟨hs, rfl, rfl, rfl, fun l hl => absurd hl (hX l), fun _ _ => rfl, fun _ h _ => .refl h⟩

theorem Cleared.trans (h : Cleared g X s s') (h' : Cleared g Y s' s'') :
    Cleared g (fun l => X l ∨ Y l) s s'' where
  sane := h'.sane
  sb := h'.sb.trans h.sb
  ino := h'.ino.trans h.ino
  sec := h'.sec.trans h.sec
  gone l hl := by
    by_cases hy : Y l
    · exact h'.gone l hy
    · rw [h'.kept l hy]
      exact h.gone l (hl.resolve_right hy)
  kept l hl := by
    rw [not_or] at hl
    rw [h'.kept l hl.2, h.kept l hl.1]
  via Q hQ hstep := by
    have h1 := h.via Q hQ fun W l hW hl => hstep W l hW (Or.inl hl)
    exact h1.trans (h'.via Q h1.last fun W l hW hl => hstep W l hW (Or.inr hl))

theorem Cleared.congr (h : Cleared g X s s') (hXY : ∀ l, X l ↔ Y l) : Cleared g Y s s' := by
  have : X = Y := funext fun l => propext (hXY l)
  rwa [← this]

theorem freeSector_cleared (hs : Sane g s) {l : Nat} (hl : g.Data l) :
    Cleared g (fun m => m = l) s (freeSector s l) := by
  have hw := freeSector_eq hs hl
  refine ⟨hw.sane, by rw [hw.eq]; rfl, by rw [hw.eq]; rfl, by rw [hw.eq]; rfl, ?_, ?_, ?_⟩
  · rintro m rfl
    rw [hw.eq]
    exact Function.update_self ..
  · intro m hm
    rw [hw.eq]
    exact Function.update_of_ne hm _ _
  · exact fun Q hQ hstep => hw.via hQ (hstep _ _ hQ rfl)

theorem freeList_cleared (hs : Sane g s) (ls : List Nat) (hls : ∀ l ∈ ls, l ≠ 0 → g.Data l) :
    Cleared g (fun m => m ≠ 0 ∧ m ∈ ls) s (freeList s ls) := by
  induction ls generalizing s with
  | nil => exact Cleared.refl hs fun l hl => absurd hl.2 (by simp)
  | cons l ls ih =>
    unfold freeList
    have hls' : ∀ m ∈ ls, m ≠ 0 → g.Data m := fun m hm => hls m (List.mem_cons_of_mem l hm)
    by_cases h0 : l = 0
    · rw [if_pos h0]
      refine (ih hs hls').congr fun m => ?_
      rw [List.mem_cons, h0]
      exact ⟨fun h => ⟨h.1, Or.inr h.2⟩, fun h => ⟨h.1, h.2.resolve_left h.1⟩⟩
    · rw [if_neg h0]
      have h1 := freeSector_cleared hs (hls l List.mem_cons_self h0)
      refine (h1.trans (ih h1.sane hls')).congr fun m => ?_
      rw [List.mem_cons]
      constructor
      · rintro (rfl | ⟨hm0, hm⟩)
        · exact ⟨h0, Or.inl rfl⟩
        · exact ⟨hm0, Or.inr hm⟩
      · rintro ⟨hm0, hm⟩
        exact hm.imp id fun hm => ⟨hm0, hm⟩

theorem mem_tableEntries {V : View} {q l : Nat} :
    l ∈ tableEntries (V.sec q) ↔ ∃ k, k < ptrs ∧ V.tbl q k = l := by
  unfold tableEntries
  simp only [List.mem_map, List.mem_range]
  refine exists_congr fun k => and_congr_right fun hk => ?_
  rw [View.tbl, if_pos hk]

theorem freeTable_cleared (hs : Sane g s) {q : Nat} (hq : g.Data q)
    (hls : ∀ k, k < ptrs → (view g s.disk).tbl q k ≠ 0 → g.Data ((view g s.disk).tbl q k)) :
    Cleared g (fun m => m = q ∨ (m ≠ 0 ∧ ∃ k, k < ptrs ∧ (view g s.disk).tbl q k = m)) s
      (freeTable s q) := by
  unfold freeTable
  rw [rd_data hs hq.le hq.lt]
  have h1 := freeList_cleared hs (tableEntries ((view g s.disk).sec q)) (by
    intro l hl hl0
    obtain ⟨k, hk, rfl⟩ := mem_tableEntries.mp hl
    exact hls k hk hl0)
  refine (h1.trans (freeSector_cleared h1.sane hq)).congr fun m => ?_
  rw [mem_tableEntries, or_comm]

theorem freeTables_cleared (hs : Sane g s) (qs : List Nat) (hqs : ∀ q ∈ qs, q ≠ 0 → g.Data q ∧
      ∀ k, k < ptrs → (view g s.disk).tbl q k ≠ 0 → g.Data ((view g s.disk).tbl q k)) :
    Cleared g (fun m => ∃ q ∈ qs, q ≠ 0 ∧
      (m = q ∨ (m ≠ 0 ∧ ∃ k, k < ptrs ∧ (view g s.disk).tbl q k = m))) s (freeTables s qs) := by
  induction qs generalizing s with
  | nil =>
    refine Cleared.refl hs ?_
    rintro l ⟨q, hq, -⟩
    exact absurd hq (by simp)
  | cons q qs ih =>
    unfold freeTables
    by_cases h0 : q = 0
    · rw [if_pos h0]
      refine (ih hs fun q' hq' => hqs q' (List.mem_cons_of_mem q hq')).congr fun m => ?_
      constructor
      · rintro ⟨q', hq', h⟩
        exact ⟨q', List.mem_cons_of_mem q hq', h⟩
      · rintro ⟨q', hq', hne, h⟩
        rcases List.mem_cons.mp hq' with rfl | hmem
        · exact absurd h0 hne
        · exact ⟨q', hmem, hne, h⟩
    · rw [if_neg h0]
      obtain ⟨hq, hls⟩ := hqs q List.mem_cons_self h0
      have h1 := freeTable_cleared hs hq hls
      have htbl : (view g (freeTable s q).disk).tbl = (view g s.disk).tbl := by
        funext q' k
        rw [View.tbl, View.tbl, h1.sec]
      have h2 := ih h1.sane fun q' hq' hne => by
        rw [htbl]
        exact hqs q' (List.mem_cons_of_mem q hq') hne
      rw [htbl] at h2
      refine (h1.trans h2).congr fun m => ?_
      constructor
      · rintro (h | ⟨q', hq', h⟩)
        · exact ⟨q, List.mem_cons_self, h0, h⟩
        · exact ⟨q', List.mem_cons_of_mem q hq', h⟩
      · rintro ⟨q', hq', hne, h⟩
        rcases List.mem_cons.mp hq' with rfl | hmem
        · exact Or.inl h
        · exact Or.inr ⟨q', hmem, hne, h⟩

end Cleared

/-! ## Everything under an inode -/

section Blocks

variable {g : Geo} {s : St} {t : Ino}

/-- The sector is one some place of the inode leads to. -/
def View.Has (V : View) (t : Ino) (l : Nat) : Prop := l ≠ 0 ∧ ∃ p, V.ref t.top p = l

theorem View.ref_root (V : View) (u : Nat → Nat) (r : Nat) : V.ref u (.root r) = u r := rfl

theorem View.ref_entry (V : View) {u : Nat → Nat} {p : Place Nat} (k : Nat)
    (ht : isTab p = true) (h0 : V.ref u p ≠ 0) :
    V.ref u (.entry p k) = V.tbl (V.ref u p) k :=
  Place.ref_entry isTab V.tbl u k ht h0

/-- The places of an inode, level by level. -/
theorem View.has_iff (V : View) (t : Ino) (l : Nat) : V.Has t l ↔ l ≠ 0 ∧
    (l ∈ (List.range ndirect).map t.direct
      ∨ (t.ind ≠ 0 ∧ (l = t.ind ∨ ∃ k, k < ptrs ∧ V.tbl t.ind k = l))
      ∨ (t.dind ≠ 0 ∧ (l = t.dind ∨ ∃ j, j < ptrs ∧ V.tbl t.dind j ≠ 0
          ∧ (l = V.tbl t.dind j ∨ ∃ k, k < ptrs ∧ V.tbl (V.tbl t.dind j) k = l)))) := by
  refine and_congr_right fun hl => ?_
  have htbl : ∀ q k, V.tbl q k = l → k < ptrs := by
    intro q k hk
    by_contra hc
    rw [View.tbl, if_neg hc] at hk
    exact hl hk.symm
  constructor
  · rintro ⟨p, hp⟩
    rcases p with r | ⟨p, k⟩
    · rw [V.ref_root, Ino.top] at hp
      split at hp
      · next hr => exact Or.inl (List.mem_map.mpr ⟨r, List.mem_range.mpr hr, hp⟩)
      · split at hp
        · exact Or.inr (Or.inl ⟨by rw [hp]; exact hl, Or.inl hp.symm⟩)
        · split at hp
          · exact Or.inr (Or.inr ⟨by rw [hp]; exact hl, Or.inl hp.symm⟩)
          · exact absurd hp.symm hl
    · have hne : V.ref t.top (.entry p k) ≠ 0 := by rw [hp]; exact hl
      obtain ⟨ht, h0⟩ := of_ref_entry_ne_zero isTab V.tbl hne
      rw [View.ref, Place.ref_entry isTab V.tbl t.top k ht h0] at hp
      rcases p with r | ⟨r | ⟨_, _⟩, j⟩
      · simp only [isTab, Bool.or_eq_true, beq_iff_eq] at ht
        rcases ht with rfl | rfl
        · exact Or.inr (Or.inl ⟨h0, Or.inr ⟨k, htbl _ _ hp, hp⟩⟩)
        · exact Or.inr (Or.inr ⟨h0, Or.inr ⟨k, htbl _ _ hp, by rw [show V.tbl t.dind k = l from hp]; exact hl,
            Or.inl hp.symm⟩⟩)
      · simp only [isTab, beq_iff_eq] at ht
        subst ht
        obtain ⟨ht, h9⟩ := of_ref_entry_ne_zero isTab V.tbl h0
        rw [Place.ref_entry isTab V.tbl t.top j ht h9] at hp h0
        have hj : j < ptrs := by
          by_contra hc
          rw [View.tbl, if_neg hc] at h0
          exact h0 rfl
        exact Or.inr (Or.inr ⟨h9, Or.inr ⟨j, hj, h0, Or.inr ⟨k, htbl _ _ hp, hp⟩⟩⟩)
      · exact absurd ht (by simp [isTab])
  · rintro (hmem | ⟨h0, rfl | ⟨k, hk, hkl⟩⟩ | ⟨h0, rfl | ⟨j, hj, hj0, rfl | ⟨k, hk, hkl⟩⟩⟩)
    · obtain ⟨r, hr, hrl⟩ := List.mem_map.mp hmem
      refine ⟨.root r, ?_⟩
      rw [V.ref_root, Ino.top, if_pos (List.mem_range.mp hr), hrl]
    · exact ⟨.root 8, rfl⟩
    · exact ⟨.entry (.root 8) k, (V.ref_entry (u := t.top) (p := .root 8) k rfl h0).trans hkl⟩
    · exact ⟨.root 9, rfl⟩
    · exact ⟨.entry (.root 9) j, V.ref_entry (u := t.top) (p := .root 9) j rfl h0⟩
    · have hmid : V.ref t.top (.entry (.root 9) j) = V.tbl t.dind j :=
        V.ref_entry (u := t.top) (p := .root 9) j rfl h0
      refine ⟨.entry (.entry (.root 9) j) k, ?_⟩
      rw [V.ref_entry k rfl (by rw [hmid]; exact hj0), hmid, hkl]

/-- **Giving back a file.** Exactly the sectors its places lead to are cleared. -/
theorem freeBlocks_spec (hs : Sane g s) (hd : ∀ l, (view g s.disk).Has t l → g.Data l) :
    Cleared g ((view g s.disk).Has t) s (freeBlocks s t) := by
  set V := view g s.disk with hV
  have hhas := V.has_iff t
  unfold freeBlocks
  dsimp only
  have h1 := freeList_cleared hs ((List.range ndirect).map t.direct)
    fun l hl hl0 => hd l ((hhas l).mpr ⟨hl0, Or.inl hl⟩)
  generalize freeList s ((List.range ndirect).map t.direct) = s₁ at h1 ⊢
  have htbl₁ : (view g s₁.disk).tbl = V.tbl := by
    funext q k
    rw [View.tbl, View.tbl, h1.sec]
  -- the indirect table, if there is one
  have h2 : Cleared g (fun m => m ≠ 0 ∧ t.ind ≠ 0 ∧
      (m = t.ind ∨ ∃ k, k < ptrs ∧ V.tbl t.ind k = m)) s₁
      (if t.ind = 0 then s₁ else freeTable s₁ t.ind) := by
    by_cases h0 : t.ind = 0
    · rw [if_pos h0]
      exact Cleared.refl h1.sane fun l hl => hl.2.1 h0
    · rw [if_neg h0]
      have hq := hd t.ind ((hhas _).mpr ⟨h0, Or.inr (Or.inl ⟨h0, Or.inl rfl⟩)⟩)
      refine (freeTable_cleared h1.sane hq ?_).congr fun m => ?_
      · intro k hk hk0
        rw [htbl₁] at hk0 ⊢
        exact hd _ ((hhas _).mpr ⟨hk0, Or.inr (Or.inl ⟨h0, Or.inr ⟨k, hk, rfl⟩⟩)⟩)
      · rw [htbl₁]
        constructor
        · rintro (rfl | ⟨hm0, hm⟩)
          · exact ⟨h0, h0, Or.inl rfl⟩
          · exact ⟨hm0, h0, Or.inr hm⟩
        · rintro ⟨hm0, -, hm⟩
          exact hm.imp id fun hm => ⟨hm0, hm⟩
  generalize (if t.ind = 0 then s₁ else freeTable s₁ t.ind) = s₂ at h2 ⊢
  have htbl₂ : (view g s₂.disk).tbl = V.tbl := by
    rw [← htbl₁]
    funext q k
    rw [View.tbl, View.tbl, h2.sec]
  by_cases h0 : t.dind = 0
  · rw [if_pos h0]
    refine (h1.trans h2).congr fun m => ?_
    rw [hhas]
    constructor
    · rintro (⟨hm0, hm⟩ | ⟨hm0, hm⟩)
      · exact ⟨hm0, Or.inl hm⟩
      · exact ⟨hm0, Or.inr (Or.inl hm)⟩
    · rintro ⟨hm0, hm | hm | hm⟩
      · exact Or.inl ⟨hm0, hm⟩
      · exact Or.inr ⟨hm0, hm⟩
      · exact absurd h0 hm.1
  · rw [if_neg h0]
    have hq := hd t.dind ((hhas _).mpr ⟨h0, Or.inr (Or.inr ⟨h0, Or.inl rfl⟩)⟩)
    rw [rd_data h2.sane hq.le hq.lt]
    have h3 := freeTables_cleared h2.sane (tableEntries ((view g s₂.disk).sec t.dind)) (by
      intro q hq hq0
      obtain ⟨j, hj, rfl⟩ := mem_tableEntries.mp hq
      rw [htbl₂] at hq0 ⊢
      refine ⟨hd _ ((hhas _).mpr ⟨hq0, Or.inr (Or.inr ⟨h0, Or.inr ⟨j, hj, hq0, Or.inl rfl⟩⟩)⟩), ?_⟩
      intro k hk hk0
      exact hd _ ((hhas _).mpr ⟨hk0, Or.inr (Or.inr ⟨h0, Or.inr ⟨j, hj, hq0,
        Or.inr ⟨k, hk, rfl⟩⟩⟩)⟩))
    refine ((h1.trans h2).trans (h3.trans (freeSector_cleared h3.sane hq))).congr fun m => ?_
    rw [hhas, htbl₂]
    constructor
    · rintro ((⟨hm0, hm⟩ | ⟨hm0, hm⟩) | ⟨q, hq, hq0, hm⟩ | rfl)
      · exact ⟨hm0, Or.inl hm⟩
      · exact ⟨hm0, Or.inr (Or.inl hm)⟩
      · obtain ⟨j, hj, rfl⟩ := mem_tableEntries.mp hq
        rw [htbl₂] at hq0 hm
        rcases hm with rfl | ⟨hm0, hm⟩
        · exact ⟨hq0, Or.inr (Or.inr ⟨h0, Or.inr ⟨j, hj, hq0, Or.inl rfl⟩⟩)⟩
        · exact ⟨hm0, Or.inr (Or.inr ⟨h0, Or.inr ⟨j, hj, hq0, Or.inr hm⟩⟩)⟩
      · exact ⟨h0, Or.inr (Or.inr ⟨h0, Or.inl rfl⟩)⟩
    · rintro ⟨hm0, hm | hm | ⟨-, rfl | ⟨j, hj, hj0, hm⟩⟩⟩
      · exact Or.inl (Or.inl ⟨hm0, hm⟩)
      · exact Or.inl (Or.inr ⟨hm0, hm⟩)
      · exact Or.inr (Or.inr rfl)
      · refine Or.inr (Or.inl ⟨V.tbl t.dind j, ?_, hj0, hm.imp id fun hm => ⟨hm0, hm⟩⟩)
        rw [mem_tableEntries, htbl₂]
        exact ⟨j, hj, rfl⟩

end Blocks

end Mwfs
