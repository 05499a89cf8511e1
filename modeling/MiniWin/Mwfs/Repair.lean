import MiniWin.Mwfs.CheckWalk

/-!
# Repairing a volume

After its walk `mwfs_check` gives back the inodes it did not come to, with all the
sectors their pointers lead to, and then the sectors that are marked and that nothing
it came to owns. The first is safe only as long as such an orphan has its sectors to
itself. A power cut in the middle of `mwfs_ino_release` leaves an inode whose sectors
are free already, and the next save may take them: then the repair frees sectors of a
live file.
-/

namespace Mwfs

open Place

/-- What a lost inode leads to: data sectors, and none of an object of the graph. -/
def Lost (g : Geo) (G : Graph) (V : View) : Prop :=
  ∀ i, i ≠ 0 → i < g.inode_count → G i = none → (V.ino i).type ≠ tFree → ∀ l, V.Has (V.ino i) l →
    g.Data l ∧ ¬ Owns V (diskForest G V) l

section Release

variable {g : Geo} {G : Graph} {s : St} {i : Nat}

/-- **Releasing an inode the graph does not have**, whose sectors the graph does not
own: the graph is held as before. -/
theorem Rep.releaseLost (hs : Sane g s) (h : Rep g G (view g s.disk)) (hG : G i = none)
    (hi0 : i ≠ 0) (hlt : i < g.inode_count) (hlost : ∀ l, (view g s.disk).Has
      ((view g s.disk).ino i) l → g.Data l ∧ ¬ Owns (view g s.disk) (diskForest G (view g s.disk)) l) :
    Sane g (inoRelease s i) ∧ Rep g G (view g (inoRelease s i).disk) ∧
      (view g (inoRelease s i).disk).ino = Function.update (view g s.disk).ino i Ino.zero ∧
      (view g (inoRelease s i).disk).sec = (view g s.disk).sec := by
  set V := view g s.disk with hV
  have hc := freeBlocks_spec hs (t := V.ino i) fun l hl => (hlost l hl).1
  have hvia := hc.via (fun W => Inv g G (diskForest G V) W ∧ W.sec = V.sec) ⟨h, rfl⟩ fun W l hW hl => by
    obtain ⟨hd, hno⟩ := hlost l hl
    refine ⟨hW.1.setBit_off ⟨hd.le, hd.lt⟩ fun hown => hno ?_, hW.2⟩
    exact (owns_iff_of_sec (fun m _ => by rw [hW.2]) l).mp hown
  obtain ⟨s', hs', hw⟩ := inoPut_eq hc.sane hi0 hlt Ino.fits_zero
  have heq : inoRelease s i = s' := by
    unfold inoRelease
    rw [inoGet_eq hs hi0 hlt]
    dsimp only
    rw [← hV, hs']
  have hinv := hvia.last.1.setIno hG Ino.zero
  rw [heq]
  refine ⟨hw.sane, by rw [hw.eq]; exact hinv.rep, ?_, ?_⟩
  · rw [hw.eq, View.setIno_ino, hc.ino]
  · rw [hw.eq, View.setIno_sec, hc.sec]

/-- The other lost inodes still lead to the sectors they led to. -/
theorem Lost.release {V V' : View} (h : Lost g G V) (hG : G i = none)
    (hino : V'.ino = Function.update V.ino i Ino.zero) (hsec : V'.sec = V.sec) : Lost g G V' := by
  have hhas : ∀ t l, V'.Has t l ↔ V.Has t l := fun t l => by
    have href : ∀ p, V'.ref t.top p = V.ref t.top p := View.ref_congr_sec fun _ _ _ => by rw [hsec]
    exact and_congr_right fun _ => exists_congr fun p => by rw [href]
  have hobj : ∀ j o, G j = some o → V'.ino j = V.ino j := fun j o hj => by
    rw [hino]
    exact Function.update_of_ne (fun hji => by rw [hji, hG] at hj; exact absurd hj (by simp)) _ _
  intro j hj0 hjlt hj hty l hl
  by_cases hji : j = i
  · subst hji
    rw [hino, Function.update_self] at hty
    exact absurd rfl hty
  · rw [hino, Function.update_of_ne hji] at hty hl
    obtain ⟨hd, hno⟩ := h j hj0 hjlt hj hty l ((hhas _ l).mp hl)
    refine ⟨hd, fun hown => hno ?_⟩
    rw [diskForest_eq (fun _ => Iff.rfl) hobj] at hown
    exact (owns_iff_of_sec (fun m _ => by rw [hsec]) l).mp hown

end Release

/-! ## Orphans -/

/-- The check after its walk. `E` says that the volume held the graph and nothing
besides it. -/
structure Sweeping (fix : Bool) (E : Prop) (g : Geo) (G : Graph) (c : Chk) : Prop where
  rooted : Rooted g G c.s
  reach : ∀ j, c.reach j = true ↔ G j ≠ none
  lost : fix = true → Lost g G (view g c.s.disk)
  clean : E → Exact g G (view g c.s.disk) ∧ c.r.Clean

section Sweep

variable {fix : Bool} {E : Prop} {g : Geo} {G : Graph} {c : Chk}

theorem Sweeping.orphans (h : Sweeping fix E g G c) {inos : List Nat}
    (hinos : ∀ i ∈ inos, i ≠ 0 ∧ i < g.inode_count) :
    ∃ c', chkOrphans fix inos c = (.ok, c') ∧ Sweeping fix E g G c' := by
  induction inos generalizing c with
  | nil => exact ⟨c, rfl, h⟩
  | cons i inos ih =>
    have hinos' : ∀ j ∈ inos, j ≠ 0 ∧ j < g.inode_count := fun j hj =>
      hinos j (List.mem_cons_of_mem i hj)
    obtain ⟨hi0, hilt⟩ := hinos i List.mem_cons_self
    have hR := h.rooted
    unfold chkOrphans
    rw [inoGet_eq hR.sane hi0 hilt]
    dsimp only
    by_cases hin : ((view g c.s.disk).ino i).type = tFree ∨ c.reach i = true
    · rw [if_pos hin]
      exact ih h hinos'
    · rw [if_neg hin]
      rw [not_or, h.reach, not_not] at hin
      obtain ⟨hty, hG⟩ := hin
      have hE : ¬ E := fun hE => (h.clean hE).1.full i hty hG
      cases fix with
      | false =>
        rw [if_pos rfl]
        exact ih ⟨hR, h.reach, fun hc => absurd hc (by simp), fun hc => absurd hc hE⟩ hinos'
      | true =>
        rw [if_neg (by simp)]
        have hlost := h.lost rfl
        obtain ⟨hsane, hrep, hino, hsec⟩ := hR.rep.releaseLost hR.sane hG hi0 hilt
          (hlost i hi0 hilt hG hty)
        exact ih ⟨⟨⟨hsane, hR.geo, hR.ok, hrep⟩, hR.reach⟩, h.reach, fun _ =>
          hlost.release hG hino hsec, fun hc => absurd hc hE⟩ hinos'

/-! ## Leaks -/

theorem mem_inosFrom {g : Geo} {s : St} (hs : Sane g s) {n : Nat} (hn : 1 ≤ n) :
    ∀ i ∈ inosFrom s n, i ≠ 0 ∧ i < g.inode_count := by
  intro i hi
  unfold inosFrom at hi
  rw [List.mem_range'_1, hs.geo] at hi
  omega

theorem visit_leakMark {lo hi x : Nat} {ls : List Nat} {shadow : Nat → Bool} :
    visit (leakMark lo hi) ls shadow x = true ↔
      shadow x = true ∨ ∃ l ∈ ls, (lo ≤ l ∧ l < hi) ∧ x = l - lo := by
  induction ls generalizing shadow with
  | nil => simp [visit]
  | cons l ls ih =>
    show visit (leakMark lo hi) ls (leakMark lo hi l shadow).2 x = true ↔ _
    rw [ih, List.exists_mem_cons_iff]
    unfold leakMark
    dsimp only
    by_cases hl : lo ≤ l ∧ l < hi
    · rw [if_pos hl]
      by_cases hx : x = l - lo
      · subst hx
        simp [hl]
      · rw [Function.update_of_ne hx]
        simp [hx]
    · rw [if_neg hl]
      simp [hl]

/-- **The shadow** of a window: what the objects of the graph own there. -/
theorem Sweeping.shadow (h : Sweeping fix E g G c) (lo hi : Nat) {inos : List Nat}
    (hinos : ∀ i ∈ inos, i ≠ 0 ∧ i < g.inode_count) (shadow : Nat → Bool) :
    ∃ shadow', leakShadow c lo hi inos shadow = some shadow' ∧ ∀ x, shadow' x = true ↔
      shadow x = true ∨ ∃ i ∈ inos, G i ≠ none ∧ ∃ l, (view g c.s.disk).Has
        ((view g c.s.disk).ino i) l ∧ (lo ≤ l ∧ l < hi) ∧ x = l - lo := by
  induction inos generalizing shadow with
  | nil => exact ⟨shadow, rfl, fun x => by simp⟩
  | cons i inos ih =>
    have hinos' : ∀ j ∈ inos, j ≠ 0 ∧ j < g.inode_count := fun j hj =>
      hinos j (List.mem_cons_of_mem i hj)
    obtain ⟨hi0, hilt⟩ := hinos i List.mem_cons_self
    have hR := h.rooted
    unfold leakShadow
    cases hr : c.reach i with
    | false =>
      obtain ⟨shadow', hs', hx⟩ := ih hinos' shadow
      rw [if_pos rfl]
      refine ⟨shadow', hs', fun x => ?_⟩
      have hnone : ¬ G i ≠ none := fun hc => by
        rw [(h.reach i).mpr hc] at hr
        exact absurd hr (by simp)
      rw [hx, List.exists_mem_cons_iff]
      simp [hnone]
    | true =>
      have hG := (h.reach i).mp hr
      obtain ⟨o, ho⟩ := Option.ne_none_iff_exists'.mp hG
      rw [if_neg (by simp), inoGet_eq hR.sane hi0 hilt]
      dsimp only
      have hgoes : Goes (fun _ => c.s) (leakMark lo hi) (view g c.s.disk) (fun _ => True)
          ((view g c.s.disk).Has ((view g c.s.disk).ino i)) := by
        refine ⟨fun _ _ _ _ => rfl, fun _ _ _ _ => trivial, ?_⟩
        rintro l x ⟨hl0, p, rfl⟩ -
        have hdata := hR.rep.data ho p hl0
        exact rd_data hR.sane hdata.le hdata.lt
      rw [eachBlock_eq hgoes trivial]
      obtain ⟨shadow', hs', hx⟩ := ih hinos' (visit (leakMark lo hi)
        ((view g c.s.disk).sectors ((view g c.s.disk).ino i)) shadow)
      refine ⟨shadow', hs', fun x => ?_⟩
      rw [hx, visit_leakMark, List.exists_mem_cons_iff, or_assoc]
      simp only [View.mem_sectors, hG, ne_eq, not_false_eq_true, true_and]

theorem Sweeping.bits (h : Sweeping fix E g G c) {lo : Nat} {shadow : Nat → Bool}
    {lbas : List Nat} (hlbas : ∀ l ∈ lbas, g.Data l)
    (hsh : ∀ l ∈ lbas, shadow (l - lo) = true ↔ Owns (view g c.s.disk) (diskForest G
      (view g c.s.disk)) l) : Sweeping fix E g G (leakBits fix lo shadow lbas c) := by
  induction lbas generalizing c with
  | nil => exact h
  | cons l lbas ih =>
    have hR := h.rooted
    have hl := hlbas l List.mem_cons_self
    have hlbas' : ∀ m ∈ lbas, g.Data m := fun m hm => hlbas m (List.mem_cons_of_mem l hm)
    have hsh' := fun m hm => hsh m (List.mem_cons_of_mem l hm)
    unfold leakBits
    rw [bitGet_eq hR.sane hl.bit]
    by_cases hleak : some ((view g c.s.disk).bit l) = some true ∧ shadow (l - lo) = false
    · obtain ⟨hbit, hown⟩ := hleak
      have hno : ¬ Owns (view g c.s.disk) (diskForest G (view g c.s.disk)) l := fun hc => by
        rw [(hsh l List.mem_cons_self).mpr hc] at hown
        exact absurd hown (by simp)
      have hE : ¬ E := fun hE => hno ((h.clean hE).1.lean l hl (Option.some.inj hbit))
      rw [if_pos ⟨hbit, hown⟩]
      cases fix with
      | false =>
        rw [if_pos rfl]
        exact ih ⟨hR, h.reach, fun hc => absurd hc (by simp), fun hc => absurd hc hE⟩ hlbas' hsh'
      | true =>
        rw [if_neg (by simp)]
        obtain ⟨s', hs', hw⟩ := bitSet_eq hR.sane hl.bit false
        rw [hs']
        have hrep : Rep g G (view g s'.disk) := by
          rw [hw.eq]
          exact (Inv.setBit_off hR.rep ⟨hl.le, hl.lt⟩ hno).rep
        have hforest : diskForest G (view g s'.disk) = diskForest G (view g c.s.disk) :=
          diskForest_eq (fun _ => Iff.rfl) fun _ _ _ => by rw [hw.eq]; rfl
        refine ih ⟨⟨⟨hw.sane, hR.geo, hR.ok, hrep⟩, hR.reach⟩, h.reach, fun _ => ?_, fun hc =>
          absurd hc hE⟩ hlbas' fun m hm => ?_
        · rw [hw.eq]
          exact h.lost rfl
        · rw [hsh' m hm]
          show _ ↔ Owns (view g s'.disk) (diskForest G (view g s'.disk)) m
          rw [hforest, hw.eq]
          exact owns_setBit.symm
    · rw [if_neg hleak]
      exact ih h hlbas' hsh'

/-- An inode of the table leads to what its object owns. -/
theorem owns_iff_has (h : Rooted g G c.s) {l : Nat} :
    Owns (view g c.s.disk) (diskForest G (view g c.s.disk)) l ↔
      ∃ i, i ∈ inosFrom c.s 1 ∧ G i ≠ none ∧ (view g c.s.disk).Has ((view g c.s.disk).ino i) l := by
  have hmem : ∀ i, i ∈ inosFrom c.s 1 ↔ 1 ≤ i ∧ i < g.inode_count := fun i => by
    unfold inosFrom
    rw [List.mem_range'_1, h.sane.geo]
    omega
  constructor
  · rintro ⟨hl0, i, u, p, hi, hp⟩
    obtain ⟨⟨o, ho⟩, rfl⟩ := diskForest_some.mp hi
    obtain ⟨hi0, hilt⟩ := h.ok.bound i o ho
    exact ⟨i, (hmem i).mpr ⟨Nat.one_le_iff_ne_zero.mpr hi0, hilt⟩, by simp [ho], hl0, p, hp⟩
  · rintro ⟨i, -, hi, hl0, p, hp⟩
    obtain ⟨o, ho⟩ := Option.ne_none_iff_exists'.mp hi
    exact ⟨hl0, i, _, p, diskForest_some.mpr ⟨⟨o, ho⟩, rfl⟩, hp⟩

theorem Sweeping.leaks (h : Sweeping fix E g G c) (hall : ∀ l, l < g.sectors → g.HasBit l)
    {los : List Nat} (hlos : ∀ lo ∈ los, g.data_lba ≤ lo) :
    ∃ c', chkLeaks fix los c = (.ok, c') ∧ Sweeping fix E g G c' := by
  induction los generalizing c with
  | nil => exact ⟨c, rfl, h⟩
  | cons lo los ih =>
    have hR := h.rooted
    have hlo := hlos lo List.mem_cons_self
    unfold chkLeaks
    dsimp only
    obtain ⟨shadow, hs, hx⟩ := h.shadow lo (min (lo + 32768) c.s.vol.sectors)
      (mem_inosFrom hR.sane (Nat.le_refl 1)) fun _ => false
    rw [hs]
    refine ih (h.bits (fun l hl => ?_) fun l hl => ?_) fun m hm => hlos m (List.mem_cons_of_mem lo hm)
    · rw [List.mem_range'_1, hR.sane.geo] at hl
      exact ⟨by omega, by omega, hall l (by omega)⟩
    · rw [List.mem_range'_1] at hl
      rw [hx, owns_iff_has hR]
      constructor
      · rintro (hc | ⟨i, hi, hG, m, hm, hwin, hml⟩)
        · exact absurd hc (by simp)
        · obtain rfl : l = m := by omega
          exact ⟨i, hi, hG, hm⟩
      · rintro ⟨i, hi, hG, hm⟩
        exact Or.inr ⟨i, hi, hG, l, hm, by omega, rfl⟩

/-- **After the walk.** -/
theorem Walked.rest {G₀ : Graph} {V₀ : View} (h : Walked G₀ V₀ g G c)
    (hlost : fix = true → Lost g G₀ V₀) :
    ∃ c', chkRest fix c = (.ok, c') ∧ Rooted g G c'.s ∧ (Exact g G₀ V₀ → c'.r.Clean) := by
  have hR := h.rooted
  unfold chkRest
  cases hinc : c.r.incomplete with
  | true => exact ⟨c, rfl, hR, fun _ => h.clean⟩
  | false =>
    rw [if_neg (by simp)]
    have hdom : ∀ j, G j = none ↔ G₀ j = none := fun j => by
      rw [← kind_none_iff, ← kind_none_iff, h.kind]
    have hforest : diskForest G (view g c.s.disk) = diskForest G₀ V₀ :=
      diskForest_eq (fun j => (hdom j).symm) fun j o _ => by rw [h.kept.ino]
    have hsweep : Sweeping fix (Exact g G₀ V₀) g G c := by
      refine ⟨hR, h.reach hinc, fun hfix i hi0 hilt hi hty l hl => ?_, fun hE => ⟨⟨fun l hl hbit => ?_,
        fun j hj => ?_⟩, h.clean⟩⟩
      · -- the sectors of a lost inode are nobody's, so the walk has left them alone
        rw [h.kept.ino] at hty hl
        have hall := hlost hfix i hi0 hilt ((hdom i).mp hi) hty
        have hhas : V₀.Has (V₀.ino i) l := by
          obtain ⟨hl0, p, hp⟩ := hl
          refine ⟨hl0, p, ?_⟩
          rw [← hp]
          refine (View.ref_congr_sec (fun q _ hq => ?_) p).symm
          exact h.kept.sec _ (hall _ ⟨hq, q, rfl⟩).2
        rw [hforest]
        exact ⟨(hall l hhas).1, fun hc => (hall l hhas).2 ((h.kept.owns l).mp hc)⟩
      · rw [h.kept.bit] at hbit
        rw [hforest]
        exact (h.kept.owns l).mpr (hE.lean l hl hbit)
      · rw [h.kept.ino] at hj
        exact fun hc => hE.full j hj ((hdom j).mp hc)
    obtain ⟨c', hc', hs'⟩ := hsweep.orphans (mem_inosFrom hR.sane (by decide : 1 ≤ 2))
    rw [hc']
    dsimp only
    have hgeo := hs'.rooted.sane.geo
    by_cases hbig : 16 * 1024 * 1024 < c'.s.vol.sectors
    · rw [if_pos hbig]
      refine ⟨_, rfl, hs'.rooted, fun hE => ?_⟩
      have hc := (hs'.clean hE).2
      exact ⟨hc.1, hc.2, hc.3, hc.4, hc.5, hc.6⟩
    · rw [if_neg hbig]
      have hok := hR.sane.ok
      have hbit := hok.bitmap_sectors
      rw [hgeo] at hbig
      obtain ⟨c'', hc'', hs''⟩ := hs'.leaks (fun l hl => by unfold Geo.HasBit; omega)
        (show ∀ lo ∈ leakWindows c'.s, g.data_lba ≤ lo by
          intro lo hlo
          obtain ⟨k, -, rfl⟩ := List.mem_map.mp hlo
          rw [hgeo]
          exact Nat.le_add_right _ _)
      exact ⟨c'', hc'', hs''.rooted, fun hE => (hs''.clean hE).2⟩

/-- **A check of a volume that holds a graph.** The graph stays, but for second names;
and where the volume holds nothing besides it, nothing is reported but those. -/
theorem check_spec {s : St} (fix : Bool) (h : Rooted g G s) (hlost : fix = true → Lost g G (view g s.disk)) :
    ∃ r s' G', check fix s = some (.ok, r, s') ∧ Rooted g G' s' ∧ G'.kind = G.kind ∧
      (Exact g G (view g s.disk) → r.Clean) := by
  obtain ⟨c, G', hc, hw⟩ := chkWalk_spec fix h
  obtain ⟨c', hc', hR, hclean⟩ := hw.rest hlost
  refine ⟨c'.r, c'.s, G', ?_, hR, hw.kind, hclean⟩
  unfold check
  rw [hc]
  dsimp only
  rw [hc']

end Sweep

/-! ## The theorem -/

/-- The inode is in use, and no path leads to it. -/
def Orphan (s : St) (i : Nat) (t : Ino) : Prop :=
  inoGet s i = some t ∧ t.type ≠ tFree ∧ ∀ p, walk s rootIno p ≠ .ok i

/-- Every orphan has what it leads to for itself: data sectors, and none that belongs to
an inode the root leads to. -/
def OrphansApart (s : St) : Prop :=
  ∀ i t, Orphan s i t → ∀ l, (view s.vol.toGeo s.disk).Has t l → s.vol.toGeo.Data l ∧
    ∀ p j u, walk s rootIno p = .ok j → inoGet s j = some u →
      ¬ (view s.vol.toGeo s.disk).Has u l

theorem Rooted.lost {g : Geo} {G : Graph} {s : St} (h : Rooted g G s) (ho : OrphansApart s) :
    Lost g G (view g s.disk) := by
  intro i hi0 hilt hG hty l hl
  have hgeo := h.sane.geo
  have horph : Orphan s i ((view g s.disk).ino i) := by
    refine ⟨inoGet_eq h.sane hi0 hilt, hty, fun p hp => ?_⟩
    obtain ⟨o, ho⟩ := h.obj_of_leads ((h.walk_root p).mp hp)
    rw [hG] at ho
    exact absurd ho (by simp)
  obtain ⟨hdata, hno⟩ := ho i _ horph l (by rw [hgeo]; exact hl)
  rw [hgeo] at hdata hno
  refine ⟨hdata, ?_⟩
  rintro ⟨hl0, j, u, p, hj, hp⟩
  obtain ⟨⟨o, ho⟩, rfl⟩ := diskForest_some.mp hj
  obtain ⟨hj0, hjlt⟩ := h.ok.bound j o ho
  obtain ⟨q, hq⟩ := h.reach j o ho
  exact hno q j _ ((h.walk_root q).mpr (by rw [leads_fold hq]; exact hq)) (inoGet_eq h.sane hj0 hjlt)
    ⟨hl0, p, hp⟩

theorem Settled.orphansApart {g : Geo} {G : Graph} {s : St} (h : Settled g G s) :
    OrphansApart s := by
  rintro i t ⟨hi, hty, hno⟩
  have hlt : ¬(i = 0 ∨ g.inode_count ≤ i) := fun hc => by
    rw [inoGet_none h.sane hc] at hi
    exact absurd hi (by simp)
  rw [not_or, not_le] at hlt
  rw [inoGet_eq h.sane hlt.1 hlt.2, Option.some.injEq] at hi
  obtain ⟨o, ho⟩ := Option.ne_none_iff_exists'.mp (h.exact.full i (by rw [hi]; exact hty))
  obtain ⟨p, hp⟩ := h.tree.reach i o ho
  exact absurd ((h.walk_root p).mpr (by rw [leads_fold hp]; exact hp)) (hno p)

/-- A volume with a file `A`; the same when the power goes while `A` is deleted, after
its sector was given back and before its inode was; with a file `B` saved after that;
and repaired. -/
def halfReleased : St := (reopen oneName (cut (.unlink 1 [65]) oneName 2)).2
def reused : St := ((Op.put [] [66] [1] 0 0).call halfReleased).2
def repaired : St := ((check true reused).map fun x => x.2.2).getD reused

end Mwfs
