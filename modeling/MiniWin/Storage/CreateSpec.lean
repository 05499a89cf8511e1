import MiniWin.Storage.Create

/-!
# `part create`: what it makes

The gaps are the free places of the disk as long as no sum of 32 bits carries. Then what is picked
is free, and there is a pick exactly if there is room.
-/

namespace Storage

/-! ## Free places -/

/-- The sector belongs to a used entry. -/
def Takes (m : Block) (i x : Nat) : Prop :=
  Used m i ∧ entryStart m i ≤ x ∧ x < entryStart m i + entryCount m i

/-- The sector is behind the first megabyte, on the disk, and belongs to no used entry. -/
def Free (m : Block) (total x : Nat) : Prop := 2048 ≤ x ∧ x < total ∧ ∀ i < 4, ¬ Takes m i x

/-- There are `want` free sectors, a megabyte at least, behind an aligned start. -/
def Room (m : Block) (total want : Nat) : Prop :=
  ∃ start, 2048 ∣ start ∧ ∀ x, start ≤ x → x < start + max want 2048 → Free m total x

/-- The sectors that are free as far as the first `k` entries go. -/
def FreeTo (m : Block) (total k x : Nat) : Prop := 2048 ≤ x ∧ x < total ∧ ∀ i < k, ¬ Takes m i x

/-- **No sum carries**: a used entry that begins on the disk ends below `2 ^ 32`, and if the sector
behind it is free as far as the entries in front of it go, the next megabyte begins there, too. -/
def NoCarry (m : Block) (total : Nat) : Prop :=
  ∀ i < 4, Used m i → entryStart m i < total → entryStart m i + entryCount m i < 2 ^ 32
    ∧ (FreeTo m total i (entryStart m i + entryCount m i) →
      entryStart m i + entryCount m i ≤ 2 ^ 32 - 2048)

variable {m : Block} {total want k : Nat} {gs : List Gap} {g : Gap} {d : Dev} {id : Id}

/-! ## The gaps -/

/-- The gaps after the first `k` entries. -/
structure Carved (m : Block) (total k : Nat) (gs : List Gap) : Prop where
  gaps : Gap.Of (FreeTo m total k) gs
  length : gs.length ≤ k + 1
  low : ∀ g ∈ gs, 2048 ≤ g.start
  starts : ∀ g ∈ gs, g.start = 2048
    ∨ ∃ i < k, Used m i ∧ entryStart m i < total ∧ g.start = entryStart m i + entryCount m i
      ∧ FreeTo m total i g.start
  bound : ∀ g ∈ gs, g.start + g.len ≤ max total 2048

/-- Where nothing carries, a round of the loop is a cut. -/
theorem carveAt_eq {s n : Nat} (hsn : s + n < 2 ^ 32) (hb : ∀ g ∈ gs, g.start + g.len < 2 ^ 32)
    (g : Nat) : carveAt s n gs g = Gap.cutAt 5 s (s + n) gs g := by
  unfold carveAt Gap.cutAt
  cases hg : gs[g]? with
  | none => rfl
  | some gap =>
    have hb := hb gap (List.mem_of_getElem? hg)
    dsimp only
    rw [Nat.mod_eq_of_lt hb, Nat.mod_eq_of_lt hsn]
    have hleft : (if gap.start < s then s - gap.start else 0) = s - gap.start := by
      split <;> omega
    have hright : (if s + n < gap.start + gap.len then gap.start + gap.len - (s + n) else 0)
        = gap.start + gap.len - (s + n) := by
      split <;> omega
    rw [hleft, hright]
    by_cases hcond : s < gap.start + gap.len ∧ gap.start < s + n
    · rw [if_neg (not_not.mpr hcond), if_pos hcond]
    · rw [if_pos hcond, if_neg hcond]

theorem carve_foldl {s n : Nat} (hsn : s + n < 2 ^ 32) (hb : ∀ g ∈ gs, g.start + g.len < 2 ^ 32)
    (j : Nat) : (List.range j).foldl (carveAt s n) gs
      = (List.range j).foldl (Gap.cutAt 5 s (s + n)) gs
        ∧ ∀ g ∈ (List.range j).foldl (carveAt s n) gs, g.start + g.len < 2 ^ 32 := by
  induction j with
  | zero => exact ⟨rfl, hb⟩
  | succ j ih =>
    obtain ⟨heq, hlt⟩ := ih
    rw [List.range_succ, List.foldl_append, List.foldl_append, List.foldl_cons, List.foldl_nil,
      List.foldl_cons, List.foldl_nil, carveAt_eq hsn hlt, heq]
    refine ⟨rfl, fun g hg => ?_⟩
    obtain ⟨h, hh, -, -, hle⟩ := Gap.mem_cutAt hg
    rw [← heq] at hh
    exact Nat.lt_of_le_of_lt hle (hlt h hh)

/-- An entry behind the disk cuts nothing, whatever its sums are. -/
theorem carveAt_behind {s n : Nat} (hs : total ≤ s) (htotal : total < 2 ^ 32)
    (hgs : ∀ g ∈ gs, 2048 ≤ g.start ∧ g.start + g.len ≤ max total 2048) (g : Nat) :
    carveAt s n gs g = gs := by
  unfold carveAt
  cases hg : gs[g]? with
  | none => rfl
  | some gap =>
    obtain ⟨hge, hle⟩ := hgs gap (List.mem_of_getElem? hg)
    dsimp only
    rw [Nat.mod_eq_of_lt (by omega)]
    by_cases hcond : s < gap.start + gap.len ∧ gap.start < (s + n) % 2 ^ 32
    · -- the gap is empty
      have hlen : gap.len = 0 := by omega
      have hleft : (if gap.start < s then s - gap.start else 0) = 0 := if_neg (by omega)
      have hright : (if (s + n) % 2 ^ 32 < gap.start + gap.len then
          gap.start + gap.len - (s + n) % 2 ^ 32 else 0) = 0 := if_neg (by omega)
      have hself : (⟨gap.start, 0⟩ : Gap) = gap := by rw [← hlen]
      rw [if_neg (not_not.mpr hcond), hleft, hright, if_neg (fun h => h.1 rfl),
        if_neg (fun h => h rfl), if_neg (fun h => h rfl), hself]
      obtain ⟨hlt, rfl⟩ := List.getElem?_eq_some_iff.mp hg
      exact List.set_getElem_self hlt
    · exact if_pos hcond

/-- **One entry is cut out of the gaps.** -/
theorem Carved.step (h : Carved m total k gs) (htotal : total < 2 ^ 32) (hk : k < 4)
    (hno : Used m k → entryStart m k < total → entryStart m k + entryCount m k < 2 ^ 32) :
    Carved m total (k + 1) (carve m gs k) := by
  have hsucc : ∀ x, FreeTo m total (k + 1) x ↔ FreeTo m total k x ∧ ¬ Takes m k x := by
    intro x
    unfold FreeTo
    rw [Nat.forall_lt_succ_right, ← and_assoc, ← and_assoc, ← and_assoc]
  have hskip : (∀ x, FreeTo m total k x → ¬ Takes m k x) → Carved m total (k + 1) gs := fun hx =>
    ⟨h.gaps.congr fun x => by rw [hsucc]; exact (and_iff_left_of_imp (hx x)).symm,
      h.length.trans (Nat.le_succ _), h.low, fun g hg => (h.starts g hg).imp_right
        fun ⟨i, hi, hrest⟩ => ⟨i, Nat.lt_succ_of_lt hi, hrest⟩, h.bound⟩
  unfold carve
  by_cases hu : Used m k
  · rw [if_pos hu]
    rcases Nat.lt_or_ge (entryStart m k) total with hlt | hle
    · have hsn := hno hu hlt
      have hb : ∀ g ∈ gs, g.start + g.len < 2 ^ 32 := fun g hg => by
        have := h.bound g hg
        omega
      have hn := hu.2
      have hlen := h.length
      obtain ⟨hgaps, hlen'⟩ := h.gaps.cut (show entryStart m k < entryStart m k + entryCount m k by
        omega) (show gs.length < 5 by omega)
      obtain ⟨heq, -⟩ := carve_foldl hsn hb 5
      rw [show (List.range 5).foldl (carveAt (entryStart m k) (entryCount m k)) gs
        = Gap.cut 5 (entryStart m k) (entryStart m k + entryCount m k) gs from heq]
      refine ⟨hgaps.congr fun x => ?_, by omega, fun g hg => ?_, fun g hg => ?_, fun g hg => ?_⟩
      · rw [hsucc]
        exact and_congr_right fun _ => not_congr (and_iff_right hu).symm
      all_goals obtain ⟨h', hh', hs, hge, hle⟩ := Gap.mem_cut hg
      · exact (h.low h' hh').trans hge
      · rcases hs with hs | hs
        · exact (h.starts h' hh').imp (fun h => hs.trans h)
            fun ⟨i, hi, hu, hlt, hi', hfree⟩ => ⟨i, by omega, hu, hlt, hs.trans hi', hs ▸ hfree⟩
        · exact .inr ⟨k, Nat.lt_succ_self k, hu, hlt, hs.1, hs.1 ▸ h.gaps.free h' hh' _ hs.2⟩
      · exact hle.trans (h.bound h' hh')
    · have hsame : ∀ j, (List.range j).foldl (carveAt (entryStart m k) (entryCount m k)) gs = gs := by
        intro j
        induction j with
        | zero => rfl
        | succ j ih =>
          rw [List.range_succ, List.foldl_append, ih]
          exact carveAt_behind hle htotal (fun g hg => ⟨h.low g hg, h.bound g hg⟩) j
      rw [hsame]
      exact hskip fun x hx hx' => by
        have := hx.2.1
        have := hx'.2.1
        omega
  · rw [if_neg hu]
    exact hskip fun x _ hx => hu hx.1

/-- **The gaps of a disk** where nothing carries. -/
theorem carved (htotal : total < 2 ^ 32)
    (hno : ∀ i < 4, Used m i → entryStart m i < total → entryStart m i + entryCount m i < 2 ^ 32) :
    Carved m total 4 (freeGaps true m total) := by
  have hrun : ∀ j ≤ 4, Carved m total j ((List.range j).foldl (carve m) [wholeGap total]) := by
    intro j
    induction j with
    | zero =>
      intro _
      refine ⟨(Gap.Of.single 2048 _).congr fun x => ?_, Nat.le_refl _, ?_, ?_, ?_⟩
      · unfold FreeTo
        constructor
        · intro hx
          refine ⟨hx.1, ?_, fun i hi => absurd hi (Nat.not_lt_zero i)⟩
          split at hx <;> omega
        · rintro ⟨hge, hlt, -⟩
          rw [if_pos (by omega)]
          omega
      all_goals
        intro g hg
        rw [List.mem_singleton.mp hg]
        unfold wholeGap
      · exact Nat.le_refl _
      · exact .inl rfl
      · dsimp only
        split <;> omega
    | succ j ih =>
      intro hj
      rw [List.range_succ, List.foldl_append]
      exact (ih (by omega)).step htotal hj (hno j hj)
  exact hrun 4 (Nat.le_refl 4)

/-! ## The pick -/

/-- A gap will do: there are enough sectors behind its aligned start. -/
def Does (want : Nat) (g : Gap) : Prop := alignUp g.start + max want 2048 ≤ g.start + g.len

theorem alignUp_spec {a : Nat} (ha : a ≤ 2 ^ 32 - 2048) :
    a ≤ alignUp a ∧ 2048 ∣ alignUp a ∧ ∀ b, a ≤ b → 2048 ∣ b → alignUp a ≤ b := by
  unfold alignUp
  rw [Nat.mod_eq_of_lt (by omega)]
  refine ⟨by omega, by omega, fun b hab hb => ?_⟩
  omega

theorem choose_eq (want : Nat) (pick : Option Gap) (hend : g.start + g.len < 2 ^ 32) :
    (Does want g ∧ (choose want pick g = pick
        ∨ choose want pick g = some ⟨alignUp g.start, g.start + g.len - alignUp g.start⟩)
      ∧ choose want pick g ≠ none)
    ∨ ¬ Does want g ∧ choose want pick g = pick := by
  unfold choose Does
  dsimp only
  rw [Nat.mod_eq_of_lt hend]
  split
  · exact .inr ⟨by omega, rfl⟩
  split
  · exact .inr ⟨by omega, rfl⟩
  split
  · exact .inr ⟨by omega, rfl⟩
  refine .inl ⟨by omega, ?_⟩
  cases pick with
  | none => exact ⟨.inr rfl, nofun⟩
  | some p =>
    dsimp only
    split
    · exact ⟨.inr rfl, nofun⟩
    · exact ⟨.inl rfl, nofun⟩

/-- **What is picked** is a gap that will do, and if none is, none will. -/
theorem choose_foldl (want : Nat) (hend : ∀ g ∈ gs, g.start + g.len < 2 ^ 32) :
    ∀ pick : Option Gap, (gs.foldl (choose want) pick = none → pick = none ∧ ∀ g ∈ gs, ¬ Does want g)
      ∧ ∀ p, gs.foldl (choose want) pick = some p → pick = some p
        ∨ ∃ g ∈ gs, Does want g ∧ p = ⟨alignUp g.start, g.start + g.len - alignUp g.start⟩ := by
  induction gs with
  | nil => exact fun pick => ⟨fun h => ⟨h, nofun⟩, fun p h => .inl h⟩
  | cons g gs ih =>
    intro pick
    obtain ⟨hnone, hsome⟩ := ih (fun g' hg' => hend g' (List.mem_cons_of_mem _ hg'))
      (choose want pick g)
    rw [List.foldl_cons]
    rcases choose_eq want pick (hend g List.mem_cons_self) with
      ⟨hdoes, hpick, hne⟩ | ⟨hdoes, hpick⟩
    · refine ⟨fun h => absurd (hnone h).1 hne, fun p h => ?_⟩
      rcases hsome p h with hp | ⟨g', hg', hrest⟩
      · rcases hpick with hpick | hpick
        · exact .inl (hpick.symm.trans hp)
        · exact .inr ⟨g, List.mem_cons_self, hdoes, Option.some.inj (hp.symm.trans hpick)⟩
      · exact .inr ⟨g', List.mem_cons_of_mem _ hg', hrest⟩
    · rw [hpick] at hnone hsome ⊢
      refine ⟨fun h => ⟨(hnone h).1, List.forall_mem_cons.mpr ⟨hdoes, (hnone h).2⟩⟩, fun p h => ?_⟩
      exact (hsome p h).imp_right fun ⟨g', hg', hrest⟩ => ⟨g', List.mem_cons_of_mem _ hg', hrest⟩

/-- **What a pick is**: sectors that are free, enough of them, behind an aligned start. -/
structure Picked (m : Block) (total want : Nat) (p : Gap) : Prop where
  aligned : 2048 ∣ p.start
  enough : max want 2048 ≤ p.len
  free : ∀ x, p.Has x → Free m total x

/-- A disk without a table has the gaps of a table without entries. -/
theorem freeGaps_untabled (h : ∀ i < 4, ¬ Used m i) :
    freeGaps false m total = freeGaps true m total := by
  unfold freeGaps
  rw [if_neg Bool.false_ne_true, if_pos rfl]
  have hrun : ∀ j ≤ 4, (List.range j).foldl (carve m) [wholeGap total] = [wholeGap total] := by
    intro j
    induction j with
    | zero => exact fun _ => rfl
    | succ j ih =>
      intro hj
      rw [List.range_succ, List.foldl_append, ih (by omega)]
      exact if_neg (h j hj)
  exact (hrun 4 (Nat.le_refl 4)).symm

/-- **There is a pick exactly if there is room.** -/
theorem pick_spec {tabled : Bool} (want : Nat) (htotal : total < 2 ^ 32) (hno : NoCarry m total)
    (htabled : tabled = false → ∀ i < 4, ¬ Used m i) :
    ((freeGaps tabled m total).foldl (choose want) none = none ∧ ¬ Room m total want)
    ∨ ∃ p, (freeGaps tabled m total).foldl (choose want) none = some p ∧ Room m total want
      ∧ Picked m total want p := by
  have hsame : freeGaps tabled m total = freeGaps true m total := by
    cases tabled with
    | true => rfl
    | false => exact freeGaps_untabled (htabled rfl)
  rw [hsame]
  have hc := carved htotal fun i hi hu hlt => (hno i hi hu hlt).1
  generalize freeGaps true m total = gs at hc
  have hstart : ∀ g ∈ gs, g.start ≤ 2 ^ 32 - 2048 := by
    intro g hg
    rcases hc.starts g hg with hs | ⟨i, hi, hu, hlt, hs, hfree⟩
    · omega
    · rw [hs] at hfree ⊢
      exact (hno i hi hu hlt).2 hfree
  have hend : ∀ g ∈ gs, g.start + g.len < 2 ^ 32 := fun g hg => by
    have := hc.bound g hg
    omega
  obtain ⟨hnone, hsome⟩ := choose_foldl want hend none
  cases hpick : gs.foldl (choose want) none with
  | none =>
    refine .inl ⟨rfl, ?_⟩
    rintro ⟨start, hdvd, hfree⟩
    obtain ⟨g, hg, hle, hge⟩ := hc.gaps.all start (start + max want 2048) (by omega) hfree
    have halign := (alignUp_spec (hstart g hg)).2.2 start hle hdvd
    refine (hnone hpick).2 g hg ?_
    unfold Does
    omega
  | some p =>
    obtain ⟨g, hg, hdoes, rfl⟩ := (hsome p hpick).resolve_left nofun
    obtain ⟨hge, hdvd, -⟩ := alignUp_spec (hstart g hg)
    unfold Does at hdoes
    have hpicked : Picked m total want
        ⟨alignUp g.start, g.start + g.len - alignUp g.start⟩ := by
      refine ⟨hdvd, by dsimp only; omega, fun x hx => hc.gaps.free g hg x ?_⟩
      unfold Gap.Has at hx ⊢
      dsimp only at hx
      omega
    refine .inr ⟨_, rfl, ⟨alignUp g.start, hdvd, fun x h₁ h₂ => hpicked.free x ?_⟩, hpicked⟩
    unfold Gap.Has
    dsimp only
    omega

/-! ## The table -/

/-- The new table: the entry is filled, and the rest is as it was. -/
theorem mbrFill_spec (m : Block) (k start sectors : Nat) (hs : start < 2 ^ 32)
    (hn : sectors < 2 ^ 32) : entryType (mbrFill m (entryAt k) start sectors newType false) k = newType
      ∧ entryStart (mbrFill m (entryAt k) start sectors newType false) k = start
      ∧ entryCount (mbrFill m (entryAt k) start sectors newType false) k = sectors
      ∧ ∀ i, i < entryAt k ∨ entryAt k + 16 ≤ i →
        mbrFill m (entryAt k) start sectors newType false i = m i := by
  unfold mbrFill entryType entryStart entryCount
  generalize entryAt k = o
  refine ⟨?_, ?_, ?_, fun i hi => ?_⟩
  · rw [Block.put32_apply_of_not_mem _ _ (by omega), Block.put32_apply_of_not_mem _ _ (by omega),
      Block.put_apply_of_mem _ (by decide)]
    rfl
  · rw [Block.le32_put32_of_disjoint _ _ (by omega), Block.le32_put32_of_lt _ _ hs]
  · rw [Block.le32_put32_of_lt _ _ hn]
  · rw [Block.put32_apply_of_not_mem _ _ (by omega), Block.put32_apply_of_not_mem _ _ (by omega),
      Block.put_apply_of_not_mem _ (by simp; omega)]

end Storage
