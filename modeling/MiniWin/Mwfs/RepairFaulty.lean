import MiniWin.Mwfs.CheckFaulty
import MiniWin.Mwfs.Repair

/-!
# A repair past what cannot be read

What `mwfs_check` gives back of a volume in order when its device fails to read some
sectors. The walk says nothing of what it could not read, so that the inodes behind it
count as orphans, up to the first of the table that cannot be read; and where the whole
table can be read, the sectors behind an indirect table that cannot be count as leaked.
-/

namespace Mwfs

open Place

/-- Nothing that a path leads to is released, and no sector it leads to is given back. -/
def Spares (s s' : St) : Prop :=
  ∀ p j t, walk s rootIno p = .ok j → inoGet s j = some t →
    (∃ t', inoGet s' j = some t' ∧ t'.type ≠ tFree) ∧
      ∀ l, (view s.vol.toGeo s.disk).Has t l → bitGet s' l = some true

/-- **All that a path leads to can be read**, as far as the check needs it: each inode, if
those in front of it can be, and each sector behind tables that can be, if the inodes all
can be and the bit of the sector too. -/
structure Traced (s : St) (f : Nat → Bool) : Prop where
  met : ∀ p j, walk s rootIno p = .ok j →
    (∀ i, 2 ≤ i → i ≤ j → (inoGet (s.reading f) i).isSome) → Met (s.reading f) j
  seen : s.vol.sectors ≤ 16 * 1024 * 1024 →
    (∀ i, 2 ≤ i → i < s.vol.inode_count → (inoGet (s.reading f) i).isSome) →
    ∀ p j t l, walk s rootIno p = .ok j → inoGet s j = some t →
      (view s.vol.toGeo s.disk).Has t l → (bitGet (s.reading f) l).isSome →
        l ∈ (view s.vol.toGeo s.disk).seen f t

section Sweep

variable {g : Geo} {f : Nat → Bool} {G : Graph} {s : St} {c c' c'' : Chk}

/-! ## Orphans -/

/-- Inodes have been released. -/
structure Swept (g : Geo) (f : Nat → Bool) (c c' : Chk) : Prop where
  faulty : Faulty g f c'.s
  reach : c'.reach = c.reach
  sec : (view g c'.s.disk).sec = (view g c.s.disk).sec
  ino : ∀ i, (view g c'.s.disk).ino i = (view g c.s.disk).ino i
    ∨ (view g c'.s.disk).ino i = Ino.zero

theorem Swept.refl (h : Faulty g f c.s) : Swept g f c c := ⟨h, rfl, rfl, fun _ => Or.inl rfl⟩

theorem Swept.trans (h : Swept g f c c') (h' : Swept g f c' c'') : Swept g f c c'' := by
  refine ⟨h'.faulty, h'.reach.trans h.reach, h'.sec.trans h.sec, fun i => ?_⟩
  rcases h'.ino i with hi | hi
  · rw [hi]
    exact h.ino i
  · exact Or.inr hi

/-- What the inodes in use lead to are data sectors. -/
def AllData (g : Geo) (V : View) : Prop :=
  ∀ i, (V.ino i).type ≠ tFree → ∀ l, V.Has (V.ino i) l → g.Data l

theorem AllData.swept (h : AllData g (view g c.s.disk)) (hs : Swept g f c c') :
    AllData g (view g c'.s.disk) := by
  intro i hty l hl
  rcases hs.ino i with hi | hi
  · rw [hi] at hty hl
    refine h i hty l ?_
    obtain ⟨hl0, p, hp⟩ := hl
    refine ⟨hl0, p, ?_⟩
    rw [← hp]
    exact (View.ref_congr_sec (fun _ _ _ => by rw [hs.sec]) p).symm
  · rw [hi] at hty
    exact absurd rfl hty

/-- **One inode.** It is released if it is in use and has not been reached, and if it can
be read. -/
theorem orphan_step (h : Faulty g f c.s) (hd : AllData g (view g c.s.disk)) {i : Nat} (h0 : i ≠ 0)
    (hi : i < g.inode_count) (inos : List Nat) :
    (f (g.itable_lba + i / 8) = false ∧ chkOrphans true (i :: inos) c = (.io, c)) ∨
      (f (g.itable_lba + i / 8) = true ∧ ∃ c', Swept g f c c' ∧
        chkOrphans true (i :: inos) c = chkOrphans true inos c' ∧
        ((((view g c.s.disk).ino i).type = tFree ∨ c.reach i = true) → c' = c) ∧
        (((view g c.s.disk).ino i).type ≠ tFree → c.reach i = false →
          (view g c'.s.disk).ino = Function.update (view g c.s.disk).ino i Ino.zero)) := by
  rw [chkOrphans, h.inoGet_eq h0 hi]
  cases hf : f (g.itable_lba + i / 8) with
  | false => exact Or.inl ⟨rfl, rfl⟩
  | true =>
    refine Or.inr ⟨rfl, ?_⟩
    rw [if_pos rfl]
    dsimp only
    by_cases hin : ((view g c.s.disk).ino i).type = tFree ∨ c.reach i = true
    · rw [if_pos hin]
      refine ⟨c, .refl h, rfl, fun _ => rfl, fun hty hr => ?_⟩
      rcases hin with hc | hc
      · exact absurd hc hty
      · rw [hr] at hc
        exact absurd hc (by simp)
    · rw [if_neg hin, if_neg (by simp)]
      rw [not_or] at hin
      obtain ⟨hfaulty, hino, hsec⟩ := h.inoRelease_eq h0 hi hf (hd i hin.1)
      refine ⟨{ c with s := inoRelease c.s i, r := { c.r with
        orphans := c.r.orphans + 1, fixed := c.r.fixed + 1 } }, ⟨hfaulty, rfl, hsec, fun k => ?_⟩, rfl,
        fun hc => ?_, fun _ _ => hino⟩
      · show (view g (inoRelease c.s i).disk).ino k = _ ∨ (view g (inoRelease c.s i).disk).ino k = _
        rw [hino]
        by_cases hk : k = i
        · subst hk
          exact Or.inr (Function.update_self ..)
        · exact Or.inl (Function.update_of_ne hk _ _)
      · exact absurd hc (not_or.mpr hin)

theorem orphans_swept (h : Faulty g f c.s) (hd : AllData g (view g c.s.disk)) (inos : List Nat)
    (hinos : ∀ i ∈ inos, i ≠ 0 ∧ i < g.inode_count) :
    Swept g f c (chkOrphans true inos c).2 := by
  induction inos generalizing c with
  | nil => exact .refl h
  | cons i inos ih =>
    obtain ⟨h0, hi⟩ := hinos i List.mem_cons_self
    rcases orphan_step h hd h0 hi inos with ⟨-, heq⟩ | ⟨-, c', hs, heq, -⟩
    · rw [heq]
      exact .refl h
    · rw [heq]
      exact hs.trans (ih hs.faulty (hd.swept hs) fun k hk => hinos k (List.mem_cons_of_mem i hk))

/-- **What was not reached is released**, if the table can be read as far as it is. -/
theorem orphans_lose (h : Faulty g f c.s) (hd : AllData g (view g c.s.disk)) {i n j : Nat}
    (hi : 0 < i) (hn : i + n ≤ g.inode_count) (hij : i ≤ j) (hjn : j < i + n)
    (hread : ∀ k, i ≤ k → k ≤ j → f (g.itable_lba + k / 8) = true)
    (hty : ((view g c.s.disk).ino j).type ≠ tFree) (hr : c.reach j = false) :
    (view g (chkOrphans true (List.range' i n) c).2.s.disk).ino j = Ino.zero := by
  induction n generalizing i c with
  | zero => omega
  | succ n ih =>
    have hinos : ∀ k ∈ List.range' (i + 1) n, k ≠ 0 ∧ k < g.inode_count := fun k hk => by
      rw [List.mem_range'_1] at hk
      omega
    rw [List.range'_succ]
    rcases orphan_step (i := i) h hd (by omega) (by omega) (List.range' (i + 1) n) with
      ⟨hf, -⟩ | ⟨-, c', hs, heq, hkeep, hrel⟩
    · rw [hread i (Nat.le_refl i) hij] at hf
      exact absurd hf (by simp)
    rw [heq]
    by_cases heqj : i = j
    · subst heqj
      have hzero : (view g c'.s.disk).ino i = Ino.zero := by
        rw [hrel hty hr]
        exact Function.update_self ..
      rcases (orphans_swept hs.faulty (hd.swept hs) _ hinos).ino i with hk | hk
      · exact hk.trans hzero
      · exact hk
    · have hsame : (view g c'.s.disk).ino j = (view g c.s.disk).ino j := by
        by_cases hin : ((view g c.s.disk).ino i).type = tFree ∨ c.reach i = true
        · rw [hkeep hin]
        · rw [not_or, Bool.not_eq_true] at hin
          rw [hrel hin.1 hin.2]
          exact Function.update_of_ne (fun hc => heqj hc.symm) _ _
      exact ih (i := i + 1) hs.faulty (hd.swept hs) (by omega) (by omega) (by omega) (by omega)
        (fun k hk hkj => hread k (by omega) hkj) (by rw [hsame]; exact hty)
        (by rw [hs.reach]; exact hr)

/-- **Nothing is released** where all that the check comes to was reached. -/
theorem orphans_keep (h : Faulty g f c.s) (hd : AllData g (view g c.s.disk)) {i n : Nat}
    (hi : 0 < i) (hn : i + n ≤ g.inode_count)
    (hall : ∀ j, i ≤ j → j < i + n → (∀ k, i ≤ k → k ≤ j → f (g.itable_lba + k / 8) = true) →
      ((view g c.s.disk).ino j).type ≠ tFree → c.reach j = true) :
    (chkOrphans true (List.range' i n) c = (.ok, c) ∧
        ∀ k, i ≤ k → k < i + n → f (g.itable_lba + k / 8) = true) ∨
      (chkOrphans true (List.range' i n) c = (.io, c) ∧
        ∃ k, i ≤ k ∧ k < i + n ∧ f (g.itable_lba + k / 8) = false) := by
  induction n generalizing i with
  | zero => exact Or.inl ⟨rfl, fun k _ _ => by omega⟩
  | succ n ih =>
    rw [List.range'_succ]
    rcases orphan_step (i := i) h hd (by omega) (by omega) (List.range' (i + 1) n) with
      ⟨hf, heq⟩ | ⟨hf, c', -, heq, hkeep, -⟩
    · exact Or.inr ⟨heq, i, Nat.le_refl i, by omega, hf⟩
    have hin : ((view g c.s.disk).ino i).type = tFree ∨ c.reach i = true := by
      by_cases hty : ((view g c.s.disk).ino i).type = tFree
      · exact Or.inl hty
      · refine Or.inr (hall i (Nat.le_refl i) (by omega) (fun k hk hki => ?_) hty)
        obtain rfl := Nat.le_antisymm hki hk
        exact hf
    rw [heq, hkeep hin]
    refine (ih (i := i + 1) (by omega) (by omega) fun j hj hjn hread => ?_).imp (fun ⟨hr, hk⟩ => ⟨hr, ?_⟩)
      fun ⟨hr, k, hk, hkn, hfk⟩ => ⟨hr, k, by omega, by omega, hfk⟩
    · refine hall j (by omega) (by omega) fun k hk hkj => ?_
      rcases Nat.eq_or_lt_of_le hk with rfl | hk
      · exact hf
      · exact hread k hk hkj
    · intro k hik hkn
      rcases Nat.eq_or_lt_of_le hik with rfl | hik
      · exact hf
      · exact hk k hik (by omega)

/-! ## Leaks -/

theorem View.seen_congr {V V' : View} (hsec : V'.sec = V.sec) (f : Nat → Bool) (t : Ino) :
    V'.seen f t = V.seen f t := by
  unfold View.seen View.pointers
  rw [hsec]

/-- The sectors that the inodes reached lead to, as far as they can be read. -/
def SeenBy (V : View) (f : Nat → Bool) (reach : Nat → Bool) (inos : List Nat) (l : Nat) : Prop :=
  ∃ i ∈ inos, reach i = true ∧ l ∈ V.seen f (V.ino i)

/-- **The shadow** of a window. -/
theorem shadow_seen (h : Faulty g f c.s) (hd : AllData g (view g c.s.disk)) (lo hi : Nat)
    {inos : List Nat} (hinos : ∀ i ∈ inos, i ≠ 0 ∧ i < g.inode_count)
    (hread : ∀ i ∈ inos, f (g.itable_lba + i / 8) = true)
    (hlive : ∀ i ∈ inos, c.reach i = true → ((view g c.s.disk).ino i).type ≠ tFree)
    (shadow : Nat → Bool) :
    ∃ shadow', leakShadow c lo hi inos shadow = some shadow' ∧ ∀ x, shadow' x = true ↔
      shadow x = true ∨ ∃ l, SeenBy (view g c.s.disk) f c.reach inos l ∧ (lo ≤ l ∧ l < hi)
        ∧ x = l - lo := by
  induction inos generalizing shadow with
  | nil => exact ⟨shadow, rfl, fun x => by simp [SeenBy]⟩
  | cons i inos ih =>
    obtain ⟨h0, hi'⟩ := hinos i List.mem_cons_self
    have hrest := ih (fun j hj => hinos j (List.mem_cons_of_mem i hj))
      (fun j hj => hread j (List.mem_cons_of_mem i hj))
      fun j hj => hlive j (List.mem_cons_of_mem i hj)
    unfold leakShadow
    cases hr : c.reach i with
    | false =>
      obtain ⟨shadow', hs', hx⟩ := hrest shadow
      refine ⟨shadow', hs', fun x => (hx x).trans (or_congr_right (exists_congr fun l => ?_))⟩
      unfold SeenBy
      rw [List.exists_mem_cons_iff, hr]
      simp
    | true =>
      rw [if_neg (by simp), h.inoGet_eq h0 hi', hread i List.mem_cons_self, if_pos rfl]
      dsimp only
      have hgoes : GoesBy f (fun _ => c.s) (leakMark lo hi) (view g c.s.disk) (fun _ => True)
          ((view g c.s.disk).Has ((view g c.s.disk).ino i)) :=
        ⟨fun _ _ _ _ => rfl, fun _ _ _ _ => trivial, fun l x hl _ =>
          h.rd_data (hd i (hlive i List.mem_cons_self hr) l hl)⟩
      rw [eachBlock_seen hgoes trivial]
      obtain ⟨shadow', hs', hx⟩ := hrest (visit (leakMark lo hi)
        ((view g c.s.disk).seen f ((view g c.s.disk).ino i)) shadow)
      refine ⟨shadow', hs', fun x => ?_⟩
      rw [hx, visit_leakMark, or_assoc]
      refine or_congr_right ?_
      constructor
      · rintro (⟨l, hl, hrest⟩ | ⟨l, ⟨j, hj, hjr, hl⟩, hrest⟩)
        · exact ⟨l, ⟨i, List.mem_cons_self, hr, hl⟩, hrest⟩
        · exact ⟨l, ⟨j, List.mem_cons_of_mem i hj, hjr, hl⟩, hrest⟩
      · rintro ⟨l, ⟨j, hj, hjr, hl⟩, hrest⟩
        rcases List.mem_cons.mp hj with rfl | hj
        · exact Or.inl ⟨l, hl, hrest⟩
        · exact Or.inr ⟨l, ⟨j, hj, hjr, hl⟩, hrest⟩

/-- The bits of these sectors have been cleared, and no others. -/
structure Wiped (g : Geo) (f : Nat → Bool) (X : Nat → Prop) (c c' : Chk) : Prop where
  only : OnlyBits g f c.s c'.s
  reach : c'.reach = c.reach
  bit : ∀ l, (view g c'.s.disk).bit l = true ↔ (view g c.s.disk).bit l = true ∧ ¬ X l

theorem Wiped.refl {X : Nat → Prop} (h : Faulty g f c.s) (hX : ∀ l, ¬ X l) : Wiped g f X c c :=
  ⟨.refl h, rfl, fun l => by simp [hX l]⟩

theorem Wiped.trans {X Y Z : Nat → Prop} (h : Wiped g f X c c') (h' : Wiped g f Y c' c'')
    (hZ : ∀ l, Z l ↔ X l ∨ Y l) : Wiped g f Z c c'' := by
  refine ⟨h.only.trans h'.only, h'.reach.trans h.reach, fun l => ?_⟩
  rw [h'.bit, h.bit, hZ, not_or, and_assoc]

/-- **A window**: the bits that can be read and have no shadow are cleared. -/
theorem leakBits_wiped (h : Faulty g f c.s) (lo : Nat) (shadow : Nat → Bool) (lbas : List Nat)
    (hlbas : ∀ l ∈ lbas, g.HasBit l) :
    Wiped g f (fun l => l ∈ lbas ∧ f (g.bitmap_lba + l / 4096) = true ∧ shadow (l - lo) = false) c
      (leakBits true lo shadow lbas c) := by
  induction lbas generalizing c with
  | nil => exact .refl h fun l hl => absurd hl.1 List.not_mem_nil
  | cons l lbas ih =>
    have hl := hlbas l List.mem_cons_self
    have hlbas' : ∀ m ∈ lbas, g.HasBit m := fun m hm => hlbas m (List.mem_cons_of_mem l hm)
    have hsplit : ∀ m, (m ∈ l :: lbas ∧ f (g.bitmap_lba + m / 4096) = true ∧ shadow (m - lo) = false)
        ↔ (m = l ∧ f (g.bitmap_lba + m / 4096) = true ∧ shadow (m - lo) = false) ∨
          (m ∈ lbas ∧ f (g.bitmap_lba + m / 4096) = true ∧ shadow (m - lo) = false) := fun m => by
      rw [List.mem_cons, or_and_right]
    unfold leakBits
    rw [h.bitGet_eq hl]
    by_cases hleak : (if f (g.bitmap_lba + l / 4096) = true then some ((view g c.s.disk).bit l)
        else none) = some true ∧ shadow (l - lo) = false
    · rw [if_pos hleak, if_neg (by simp)]
      obtain ⟨hget, hsh⟩ := hleak
      rcases h.bitSet_eq hl false with ⟨hf, -⟩ | ⟨hf, s', hs', hfaulty, hview⟩
      · rw [hf] at hget
        cases hget
      dsimp only
      rw [hs']
      have hone : Wiped g f (fun m => m = l ∧ f (g.bitmap_lba + m / 4096) = true ∧
          shadow (m - lo) = false) c { c with s := s', r := { c.r with
            leaked := c.r.leaked + 1, fixed := c.r.fixed + 1 } } := by
        refine ⟨⟨hfaulty, ?_, ?_⟩, rfl, fun m => ?_⟩
        · rw [hview, View.setBit_ino]
        · rw [hview, View.setBit_sec]
        · rw [hview, View.setBit_bit]
          by_cases hm : m = l
          · subst hm
            rw [Function.update_self]
            simp [hf, hsh]
          · rw [Function.update_of_ne hm]
            simp [hm]
      exact hone.trans (ih hfaulty hlbas') hsplit
    · rw [if_neg hleak]
      refine Wiped.trans (X := fun m => m = l ∧ f (g.bitmap_lba + m / 4096) = true ∧
        shadow (m - lo) = false) ⟨.refl h, rfl, fun m => ?_⟩ (ih h hlbas') hsplit
      -- its bit is clear already, or it stays
      constructor
      · refine fun hm => ⟨hm, ?_⟩
        rintro ⟨rfl, hf, hsh⟩
        rw [if_pos hf, hm] at hleak
        exact hleak ⟨rfl, hsh⟩
      · exact fun hm => hm.1

theorem chkLeaks_only (h : Faulty g f c.s) (hbit : ∀ l, l < g.sectors → g.HasBit l)
    (los : List Nat) : OnlyBits g f c.s (chkLeaks true los c).2.s := by
  induction los generalizing c with
  | nil => exact .refl h
  | cons lo los ih =>
    unfold chkLeaks
    dsimp only
    split
    · exact .refl h
    · next shadow _ =>
      have hwipe := leakBits_wiped h lo shadow (List.range' lo
        (min (lo + 32768) c.s.vol.sectors - lo)) fun l hl => by
          rw [List.mem_range'_1, h.geo] at hl
          exact hbit l (by omega)
      exact hwipe.only.trans (ih hwipe.only.faulty)

/-- **The leaks.** The bits of the sectors that were not come to are cleared. -/
theorem chkLeaks_wiped (h : Faulty g f c.s) (hd : AllData g (view g c.s.disk))
    (hbit : ∀ l, l < g.sectors → g.HasBit l)
    (hread : ∀ i, i ≠ 0 → i < g.inode_count → f (g.itable_lba + i / 8) = true)
    (hlive : ∀ i, i < g.inode_count → c.reach i = true → ((view g c.s.disk).ino i).type ≠ tFree)
    (los : List Nat) :
    ∃ c', chkLeaks true los c = (.ok, c') ∧
      Wiped g f (fun l => (∃ lo ∈ los, lo ≤ l ∧ l < lo + 32768) ∧ l < g.sectors ∧
        f (g.bitmap_lba + l / 4096) = true ∧
        ¬ SeenBy (view g c.s.disk) f c.reach (inosFrom c.s 1) l) c c' := by
  induction los generalizing c with
  | nil =>
    refine ⟨c, rfl, .refl h ?_⟩
    rintro l ⟨⟨lo, hlo, -⟩, -⟩
    exact absurd hlo List.not_mem_nil
  | cons lo los ih =>
    have hinos := mem_inosFrom h.sane (Nat.le_refl 1)
    change ∀ i ∈ inosFrom c.s 1, i ≠ 0 ∧ i < g.inode_count at hinos
    obtain ⟨shadow, hs, hx⟩ := shadow_seen h hd lo (min (lo + 32768) g.sectors) hinos
      (fun i hi => hread i (hinos i hi).1 (hinos i hi).2)
      (fun i hi => hlive i (hinos i hi).2) fun _ => false
    unfold chkLeaks
    dsimp only
    have hsec : c.s.vol.sectors = g.sectors := congrArg Geo.sectors h.geo
    rw [hsec, hs]
    dsimp only
    have hwipe := leakBits_wiped h lo shadow
      (List.range' lo (min (lo + 32768) g.sectors - lo)) fun l hl => by
        rw [List.mem_range'_1] at hl
        exact hbit l (by omega)
    obtain ⟨c₁, hc₁⟩ : ∃ c₁, leakBits true lo shadow
      (List.range' lo (min (lo + 32768) g.sectors - lo)) c = c₁ := ⟨_, rfl⟩
    rw [hc₁] at hwipe ⊢
    have hino := hwipe.only.ino
    have hsecs := hwipe.only.sec
    have hinos₁ : inosFrom c₁.s 1 = inosFrom c.s 1 := by
      have hcount : ∀ {s : St}, Faulty g f s → s.vol.inode_count = g.inode_count := fun h =>
        congrArg Geo.inode_count h.geo
      unfold inosFrom
      rw [hcount hwipe.only.faulty, hcount h]
    have hseen : ∀ l, SeenBy (view g c₁.s.disk) f c₁.reach (inosFrom c₁.s 1) l
        ↔ SeenBy (view g c.s.disk) f c.reach (inosFrom c.s 1) l := fun l => by
      unfold SeenBy
      rw [hinos₁, hwipe.reach, hino]
      simp only [View.seen_congr hsecs]
    have hdata₁ : AllData g (view g c₁.s.disk) := fun i hty l hl => by
      rw [hino] at hty hl
      obtain ⟨hl0, p, hp⟩ := hl
      refine hd i hty l ⟨hl0, p, ?_⟩
      rw [← hp]
      exact (View.ref_congr_sec (fun _ _ _ => by rw [hsecs]) p).symm
    obtain ⟨c', hc', hw'⟩ := ih hwipe.only.faulty hdata₁ (fun i hi hr => by
      rw [hino]
      rw [hwipe.reach] at hr
      exact hlive i hi hr)
    refine ⟨c', hc', hwipe.trans hw' fun l => ?_⟩
    have hsh : lo ≤ l → l < min (lo + 32768) g.sectors →
        (shadow (l - lo) = false ↔ ¬ SeenBy (view g c.s.disk) f c.reach (inosFrom c.s 1) l) := by
      intro hlo hhi
      rw [← Bool.not_eq_true, hx]
      refine not_congr ⟨?_, fun hl => Or.inr ⟨l, hl, ⟨hlo, hhi⟩, rfl⟩⟩
      rintro (hc | ⟨m, hm, hwin, hml⟩)
      · exact absurd hc (by simp)
      · obtain rfl : l = m := by omega
        exact hm
    rw [hseen, List.exists_mem_cons_iff, List.mem_range'_1]
    constructor
    · rintro ⟨hlo | hlo, hlt, hf, hno⟩
      · exact Or.inl ⟨by omega, hf, (hsh (by omega) (by omega)).mpr hno⟩
      · exact Or.inr ⟨hlo, hlt, hf, hno⟩
    · rintro (⟨hlo, hf, hno⟩ | ⟨hlo, hlt, hf, hno⟩)
      · exact ⟨Or.inl (by omega), by omega, hf, (hsh (by omega) (by omega)).mp hno⟩
      · exact ⟨Or.inr hlo, hlt, hf, hno⟩

end Sweep

/-! ## The theorem -/

section Spare

variable {g : Geo} {f : Nat → Bool} {G : Graph} {s s' : St}

/-- What is spared, inode by inode. -/
theorem Settled.spares_iff (h : Settled g G s) (hs' : Faulty g f s') :
    Spares s s'.working ↔ ∀ j, G j ≠ none → ((view g s'.disk).ino j).type ≠ tFree ∧
      ∀ l, (view g s.disk).Has ((view g s.disk).ino j) l → (view g s'.disk).bit l = true := by
  have hgeo := h.sane.geo
  have hget : ∀ {j o}, G j = some o → inoGet s j = some ((view g s.disk).ino j)
      ∧ inoGet s'.working j = some ((view g s'.disk).ino j) := fun hj => by
    obtain ⟨h0, hlt⟩ := h.ok.bound _ _ hj
    exact ⟨inoGet_eq h.sane h0 hlt, inoGet_eq hs'.sane h0 hlt⟩
  have hbit : ∀ {j o l}, G j = some o → (view g s.disk).Has ((view g s.disk).ino j) l →
      bitGet s'.working l = some ((view g s'.disk).bit l) := fun hj hl => by
    obtain ⟨hl0, p, rfl⟩ := hl
    exact bitGet_eq hs'.sane (h.rep.data hj p hl0).bit
  constructor
  · intro hsp j hj
    obtain ⟨o, ho⟩ := Option.ne_none_iff_exists'.mp hj
    obtain ⟨p, hp⟩ := h.tree.reach j o ho
    obtain ⟨⟨t', ht', hty⟩, hall⟩ := hsp p j _
      ((h.walk_root p).mpr (by rw [leads_fold hp]; exact hp)) (hget ho).1
    obtain rfl := Option.some.inj ((hget ho).2.symm.trans ht')
    refine ⟨hty, fun l hl => ?_⟩
    have hl' := hall l (by rw [hgeo]; exact hl)
    rw [hbit ho hl] at hl'
    exact Option.some.inj hl'
  · intro hall p j t hp ht
    obtain ⟨o, ho⟩ := h.obj_of_leads ((h.walk_root p).mp hp)
    obtain rfl := Option.some.inj ((hget ho).1.symm.trans ht)
    obtain ⟨hty, hbits⟩ := hall j (by rw [ho]; simp)
    refine ⟨⟨_, (hget ho).2, hty⟩, fun l hl => ?_⟩
    rw [hgeo] at hl
    rw [hbit ho hl, hbits l hl]

/-- What can be read, inode by inode. -/
theorem Settled.traced_iff (h : Settled g G s) : Traced s f ↔
    (∀ j, G j ≠ none → (∀ i, 2 ≤ i → i ≤ j → f (g.itable_lba + i / 8) = true) →
        Met (s.reading f) j) ∧
      (g.sectors ≤ 16 * 1024 * 1024 →
        (∀ i, 2 ≤ i → i < g.inode_count → f (g.itable_lba + i / 8) = true) →
        ∀ j, G j ≠ none → ∀ l, (view g s.disk).Has ((view g s.disk).ino j) l →
          f (g.bitmap_lba + l / 4096) = true → l ∈ (view g s.disk).seen f ((view g s.disk).ino j)) := by
  have hgeo := h.sane.geo
  have hfaulty := h.sane.faulty f
  have hread : ∀ i, 2 ≤ i → i < g.inode_count →
      ((inoGet (s.reading f) i).isSome ↔ f (g.itable_lba + i / 8) = true) := fun i hi hlt => by
    rw [hfaulty.inoGet_eq (by omega) hlt]
    cases f (g.itable_lba + i / 8) <;> simp
  have hpath : ∀ j, G j ≠ none ↔ ∃ p, walk s rootIno p = .ok j := fun j => by
    constructor
    · intro hj
      obtain ⟨o, ho⟩ := Option.ne_none_iff_exists'.mp hj
      obtain ⟨p, hp⟩ := h.tree.reach j o ho
      exact ⟨p, (h.walk_root p).mpr (by rw [leads_fold hp]; exact hp)⟩
    · rintro ⟨p, hp⟩
      obtain ⟨o, ho⟩ := h.obj_of_leads ((h.walk_root p).mp hp)
      rw [ho]
      simp
  have hbound : ∀ j, G j ≠ none → j ≠ 0 ∧ j < g.inode_count := fun j hj => by
    obtain ⟨o, ho⟩ := Option.ne_none_iff_exists'.mp hj
    exact h.ok.bound j o ho
  have hsectors : s.vol.sectors = g.sectors := congrArg Geo.sectors hgeo
  have hcount : s.vol.inode_count = g.inode_count := congrArg Geo.inode_count hgeo
  constructor
  · rintro ⟨hmet, hseen⟩
    rw [hsectors, hcount] at hseen
    refine ⟨fun j hj hall => ?_, fun hsmall hall j hj l hl hf => ?_⟩
    · obtain ⟨p, hp⟩ := (hpath j).mp hj
      have hlt := (hbound j hj).2
      exact hmet p j hp fun i hi hij => (hread i hi (by omega)).mpr (hall i hi hij)
    · obtain ⟨p, hp⟩ := (hpath j).mp hj
      obtain ⟨h0, hlt⟩ := hbound j hj
      obtain ⟨o, ho⟩ := Option.ne_none_iff_exists'.mp hj
      have hdata : g.Data l := by
        obtain ⟨hl0, q, rfl⟩ := hl
        exact h.rep.data ho q hl0
      rw [hgeo] at hseen
      refine hseen hsmall (fun i hi hic => (hread i hi hic).mpr (hall i hi hic)) p j _ l hp
        (inoGet_eq h.sane h0 hlt) hl ?_
      rw [hfaulty.bitGet_eq hdata.bit, hf]
      rfl
  · rintro ⟨hmet, hseen⟩
    refine ⟨fun p j hp hall => ?_, fun hsmall hall p j t l hp ht hl hb => ?_⟩
    · have hj := (hpath j).mpr ⟨p, hp⟩
      have hlt := (hbound j hj).2
      exact hmet j hj fun i hi hij => (hread i hi (by omega)).mp (hall i hi hij)
    · have hj := (hpath j).mpr ⟨p, hp⟩
      obtain ⟨h0, hlt⟩ := hbound j hj
      obtain ⟨o, ho⟩ := Option.ne_none_iff_exists'.mp hj
      obtain rfl := Option.some.inj ((inoGet_eq h.sane h0 hlt).symm.trans ht)
      rw [hsectors] at hsmall
      rw [hcount] at hall
      rw [hgeo] at hl ⊢
      have hdata : g.Data l := by
        obtain ⟨hl0, q, rfl⟩ := hl
        exact h.rep.data ho q hl0
      rw [hfaulty.bitGet_eq hdata.bit] at hb
      refine hseen hsmall (fun i hi hic => (hread i hi hic).mp (hall i hi hic)) j hj l hl ?_
      cases hf : f (g.bitmap_lba + l / 4096) with
      | true => rfl
      | false =>
        rw [hf] at hb
        exact absurd hb (by simp)

/-! ## After the walk -/

theorem Settled.hasBit (h : Settled g G s) (hsmall : ¬ 16 * 1024 * 1024 < g.sectors) {l : Nat}
    (hl : l < g.sectors) : g.HasBit l := by
  have hb := h.sane.ok.bitmap_sectors
  unfold Geo.HasBit
  omega

/-- The walk gives nothing back. -/
theorem Settled.spares_walk {G' : Graph} {c : Chk} (h : Settled g G s)
    (hw : Reading g f G (s.reading f) none G' c) : Spares s c.s.working := by
  refine (h.spares_iff hw.faulty).mpr fun j hj => ?_
  obtain ⟨o, ho⟩ := Option.ne_none_iff_exists'.mp hj
  rw [hw.ino, hw.bit]
  refine ⟨h.rep.not_free ho, fun l hl => ?_⟩
  obtain ⟨hl0, p, rfl⟩ := hl
  exact Inv.used h.rep _ (Inv.owns_ino h.rep ho hl0)

/-- The walk has been through every directory that it could read. -/
structure ReadOn (g : Geo) (f : Nat → Bool) (G : Graph) (s : St) (G' : Graph) (c : Chk) : Prop where
  settled : Settled g G s
  reading : Reading g f G (s.reading f) none G' c
  full : c.r.incomplete = false
  met : ∀ j, c.reach j = true ↔ Met (s.reading f) j

namespace ReadOn

variable {G' : Graph} {c : Chk} (h : ReadOn g f G s G' c)

include h

theorem ino : (view g c.s.disk).ino = (view g s.disk).ino := h.reading.ino

theorem sectors : c.s.vol.sectors = g.sectors := congrArg Geo.sectors h.reading.faulty.geo

/-- An inode is in use if a path leads to it. -/
theorem live (i : Nat) : ((view g c.s.disk).ino i).type ≠ tFree ↔ G i ≠ none := by
  rw [h.ino]
  refine ⟨h.settled.exact.full i, fun hG => ?_⟩
  obtain ⟨o, ho⟩ := Option.ne_none_iff_exists'.mp hG
  exact h.settled.rep.not_free ho

theorem allData : AllData g (view g c.s.disk) := by
  intro i hty l hl
  obtain ⟨o, ho⟩ := Option.ne_none_iff_exists'.mp fun hc =>
    (h.live i).mp hty ((h.reading.dom i).mp hc)
  obtain ⟨hl0, p, rfl⟩ := hl
  exact h.reading.rep.data ho p hl0

theorem rest : chkRest true c = match chkOrphans true (List.range' 2 (g.inode_count - 2)) c with
    | (.ok, c) =>
      if 16 * 1024 * 1024 < c.s.vol.sectors then
        (.ok, { c with r := { c.r with skipped_leak_scan := true } })
      else chkLeaks true (leakWindows c.s) c
    | (e, c) => (e, c) := by
  have hrange : inosFrom c.s 2 = List.range' 2 (g.inode_count - 2) := by
    unfold inosFrom
    rw [show c.s.vol.inode_count = g.inode_count from
      congrArg Geo.inode_count h.reading.faulty.geo]
  unfold chkRest
  rw [h.full, if_neg (by simp), hrange] <;> rfl

/-- **An inode that the walk did not come to is released.** -/
theorem released {j : Nat} (hG : G j ≠ none)
    (hread : ∀ i, 2 ≤ i → i ≤ j → f (g.itable_lba + i / 8) = true)
    (hnot : ¬ Met (s.reading f) j) : ¬ Spares s (chkRest true c).2.s.working := by
  have hw := h.reading
  have hmin := h.settled.sane.ok.minInodes
  obtain ⟨o, ho⟩ := Option.ne_none_iff_exists'.mp hG
  obtain ⟨hj0, hjlt⟩ := h.settled.ok.bound j o ho
  have hj1 : j ≠ 1 := fun hc => hnot (hc ▸ .root)
  have hr : c.reach j = false := Bool.eq_false_iff.mpr fun hc => hnot ((h.met j).mp hc)
  have hzero := orphans_lose hw.faulty h.allData (i := 2) (n := g.inode_count - 2) (by omega)
    (by omega) (by omega) (by omega) hread ((h.live j).mpr hG) hr
  have hswept := orphans_swept hw.faulty h.allData (List.range' 2 (g.inode_count - 2))
    fun i hi => by
      rw [List.mem_range'_1] at hi
      omega
  rw [h.rest]
  obtain ⟨⟨e, c₂⟩, hc₂⟩ : ∃ x, chkOrphans true (List.range' 2 (g.inode_count - 2)) c = x := ⟨_, rfl⟩
  rw [hc₂] at hzero hswept ⊢
  obtain ⟨x, hx⟩ : ∃ x, (match (e, c₂) with
    | (.ok, c) =>
      if 16 * 1024 * 1024 < c.s.vol.sectors then
        (Err.ok, { c with r := { c.r with skipped_leak_scan := true } })
      else chkLeaks true (leakWindows c.s) c
    | (e, c) => (e, c)) = x := ⟨_, rfl⟩
  have hlast : OnlyBits g f c₂.s x.2.s := by
    rw [← hx]
    split
    · next heq =>
      obtain ⟨rfl, rfl⟩ := Prod.mk.inj heq
      split
      · exact .refl hswept.faulty
      · next hsmall =>
        rw [show c₂.s.vol.sectors = g.sectors from congrArg Geo.sectors hswept.faulty.geo] at hsmall
        exact chkLeaks_only hswept.faulty (fun l => h.settled.hasBit hsmall) _
    · next heq =>
      obtain ⟨rfl, rfl⟩ := Prod.mk.inj heq
      exact .refl hswept.faulty
  rw [hx, h.settled.spares_iff hlast.faulty]
  refine fun hc => (hc j hG).1 ?_
  rw [hlast.ino]
  exact congrArg Ino.type hzero

/-- Where every inode can be read and has been reached, a sector of an object is seen under
its own inode. -/
theorem seenBy_iff (hreach : ∀ j, c.reach j = true ↔ G j ≠ none) (hsame : c.s = s.reading f) {j : Nat}
    {o : Obj} {l : Nat} (hj : G j = some o) (hl : (view g s.disk).Has ((view g s.disk).ino j) l) :
    SeenBy (view g c.s.disk) f c.reach (inosFrom c.s 1) l
      ↔ l ∈ (view g s.disk).seen f ((view g s.disk).ino j) := by
  have hview : view g c.s.disk = view g s.disk := by rw [hsame]; rfl
  unfold SeenBy
  rw [hview]
  constructor
  · rintro ⟨i, -, hr, hi⟩
    obtain ⟨oi, hoi⟩ := Option.ne_none_iff_exists'.mp ((hreach i).mp hr)
    obtain ⟨hl0, p, hp⟩ := View.has_of_seen hi
    obtain ⟨-, q, hq⟩ := hl
    have hpq : (view g s.disk).ref ((view g s.disk).ino i).top p
        = (view g s.disk).ref ((view g s.disk).ino j).top q := hp.trans hq.symm
    have hp0 : (view g s.disk).ref ((view g s.disk).ino i).top p ≠ 0 := by rw [hp]; exact hl0
    obtain ⟨rfl, -⟩ := h.settled.rep.sep i j _ _ p q (diskForest_some.mpr ⟨⟨oi, hoi⟩, rfl⟩)
      (diskForest_some.mpr ⟨⟨o, hj⟩, rfl⟩) hpq hp0
    exact hi
  · intro hi
    obtain ⟨h0, hlt⟩ := h.settled.ok.bound j o hj
    refine ⟨j, ?_, (hreach j).mpr (by rw [hj]; simp), hi⟩
    unfold inosFrom
    rw [List.mem_range'_1, show c.s.vol.inode_count = g.inode_count from
      congrArg Geo.inode_count h.reading.faulty.geo]
    omega

/-- **The leaks**, where every inode can be read and nothing was released. -/
theorem leaks (hsmall : ¬ 16 * 1024 * 1024 < g.sectors)
    (hread : ∀ i, i ≠ 0 → i < g.inode_count → f (g.itable_lba + i / 8) = true)
    (hmet : ∀ j, G j ≠ none → Met (s.reading f) j) :
    Spares s (chkLeaks true (leakWindows c.s) c).2.s.working ↔
      ∀ j, G j ≠ none → ∀ l, (view g s.disk).Has ((view g s.disk).ino j) l →
        f (g.bitmap_lba + l / 4096) = true →
          l ∈ (view g s.disk).seen f ((view g s.disk).ino j) := by
  have hs := h.settled
  have hw := h.reading
  have hsame : c.s = s.reading f := hw.same fun i h0 hlt => by
    rw [(hs.sane.faulty f).inoGet_eq h0 hlt, hread i h0 hlt]
    rfl
  have hreach : ∀ j, c.reach j = true ↔ G j ≠ none := fun j => by
    refine ⟨fun hj => ?_, fun hj => (h.met j).mpr (hmet j hj)⟩
    rcases hw.named j hj with rfl | ⟨d, e, he, rfl, -⟩
    · obtain ⟨sl, hsl⟩ := hs.ok.root
      rw [hsl]
      simp
    · obtain ⟨-, o, ho, -⟩ := hs.ok.entry d e he
      rw [ho]
      simp
  obtain ⟨c', hc', hwiped⟩ := chkLeaks_wiped hw.faulty h.allData (fun l => hs.hasBit hsmall) hread
    (fun i _ hr => (h.live i).mpr ((hreach i).mp hr)) (leakWindows c.s)
  rw [hc', hs.spares_iff hwiped.only.faulty]
  constructor
  · intro hsp j hj l hl hf
    obtain ⟨o, ho⟩ := Option.ne_none_iff_exists'.mp hj
    by_contra hnot
    refine ((hwiped.bit l).mp ((hsp j hj).2 l hl)).2 ?_
    have hdata : g.Data l := by
      obtain ⟨hl0, p, rfl⟩ := hl
      exact hs.rep.data ho p hl0
    have hle := hdata.le
    have hlt := hdata.lt
    refine ⟨⟨g.data_lba + 32768 * ((l - g.data_lba) / 32768), ?_, ?_⟩, hlt, hf, fun hc =>
      hnot ((h.seenBy_iff hreach hsame ho hl).mp hc)⟩
    · unfold leakWindows
      rw [h.sectors, show c.s.vol.data_lba = g.data_lba from congrArg Geo.data_lba hw.faulty.geo]
      refine List.mem_map.mpr ⟨(l - g.data_lba) / 32768, List.mem_range.mpr ?_, rfl⟩
      omega
    · omega
  · intro hseen j hj
    obtain ⟨o, ho⟩ := Option.ne_none_iff_exists'.mp hj
    rw [hwiped.only.ino]
    refine ⟨(h.live j).mpr hj, fun l hl => (hwiped.bit l).mpr ⟨?_, ?_⟩⟩
    · rw [hw.bit]
      obtain ⟨hl0, p, rfl⟩ := hl
      exact Inv.used hs.rep _ (Inv.owns_ino hs.rep ho hl0)
    · rintro ⟨-, -, hf, hno⟩
      exact hno ((h.seenBy_iff hreach hsame ho hl).mpr (hseen j hj l hl hf))

/-- **After a walk that has come to its end.** -/
theorem spares_iff : Spares s (chkRest true c).2.s.working ↔ Traced s f := by
  have hs := h.settled
  have hmin := hs.sane.ok.minInodes
  have hkept := hs.spares_walk h.reading
  rw [hs.traced_iff]
  by_cases hmet : ∀ j, G j ≠ none → (∀ i, 2 ≤ i → i ≤ j → f (g.itable_lba + i / 8) = true) →
      Met (s.reading f) j
  swap
  · rw [not_forall] at hmet
    obtain ⟨j, hj⟩ := hmet
    rw [Classical.not_imp, Classical.not_imp] at hj
    obtain ⟨hG, hread, hnot⟩ := hj
    exact iff_of_false (h.released hG hread hnot) fun hc => hnot (hc.1 j hG hread)
  rw [h.rest]
  rcases orphans_keep h.reading.faulty h.allData (i := 2) (n := g.inode_count - 2) (by omega)
    (by omega) fun j hj hjn hread hty =>
      (h.met j).mpr (hmet j ((h.live j).mp hty) hread) with ⟨heq, hread⟩ | ⟨heq, k, hk, hkn, hf⟩
  swap
  · rw [heq]
    refine iff_of_true hkept ⟨hmet, fun _ hall => ?_⟩
    rw [hall k hk (by omega)] at hf
    exact absurd hf (by simp)
  have hread' : ∀ i, i ≠ 0 → i < g.inode_count → f (g.itable_lba + i / 8) = true := by
    intro i h0 hlt
    by_cases h1 : i = 1
    · -- the root has its sector in common with the inode behind it
      subst h1
      exact hread 2 (Nat.le_refl 2) (by omega)
    · exact hread i (by omega) (by omega)
  have hmet' : ∀ j, G j ≠ none → Met (s.reading f) j := fun j hj => by
    obtain ⟨o, ho⟩ := Option.ne_none_iff_exists'.mp hj
    have hlt := (hs.ok.bound j o ho).2
    exact hmet j hj fun i hi hij => hread' i (by omega) (by omega)
  rw [heq]
  dsimp only
  rw [h.sectors]
  by_cases hbig : 16 * 1024 * 1024 < g.sectors
  · rw [if_pos hbig]
    exact iff_of_true hkept ⟨hmet, fun hc => by omega⟩
  · rw [if_neg hbig, h.leaks hbig hread' hmet']
    exact ⟨fun hseen => ⟨hmet, fun _ _ => hseen⟩, fun ht => ht.2 (by omega)
      fun i hi hlt => hread' i (by omega) hlt⟩

end ReadOn

theorem settled_oneName : ∃ g G, Settled g G oneName := by
  have hmk : Reached (fun op s => ¬ op.IntoItself s) (mkfs (device 64) []).2 :=
    Reached.device (by decide) (by decide +kernel)
  have hrun : Reached (fun op s => ¬ op.IntoItself s)
      ((Op.put rootIno [65] [1] 0 0).run (mkfs (device 64) []).2).2 := hmk.run fun hc => hc
  exact hrun.settled

end Spare

end Mwfs
