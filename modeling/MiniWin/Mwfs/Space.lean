import Mathlib.Data.Set.Card
import MiniWin.Mwfs.Repair

/-!
# Space accounting

On a volume that operations have led to, and no power cut, the bitmap says exactly
what is owned: the metadata, the bits past the end, and the sectors that the pointers
of an inode in use lead to, each by one pointer of one inode. So the allocator gives
up only when there is nothing left, the count of the free sectors is right, and a
check finds nothing.
-/

namespace Mwfs

open Place

/-! ## Counting zero bits -/

section Count

/-- How many of these are clear. -/
def clear (bit : Nat → Bool) (n : Nat) : Nat := ((List.range n).map fun l => (bit l).not.toNat).sum

theorem clear_add (bit : Nat → Bool) (m n : Nat) :
    clear bit (m + n) = clear bit m + clear (fun l => bit (m + l)) n := by
  unfold clear
  rw [List.range_add, List.map_append, List.sum_append, List.map_map]
  rfl

theorem clear_congr {bit bit' : Nat → Bool} {n : Nat} (h : ∀ l < n, bit l = bit' l) :
    clear bit n = clear bit' n := by
  unfold clear
  exact congrArg List.sum (List.map_congr_left fun l hl => by rw [h l (List.mem_range.mp hl)])

/-- Blocks of `m` bits counted one after the other. -/
theorem clear_mul (bit : Nat → Bool) (m n : Nat) :
    ((List.range n).map fun k => clear (fun l => bit (k * m + l)) m).sum = clear bit (n * m) := by
  induction n with
  | zero => rw [Nat.zero_mul]; rfl
  | succ n ih =>
    rw [List.range_succ, List.map_append, List.sum_append, ih, Nat.succ_mul, clear_add]
    simp

theorem clear_eq_ncard (bit : Nat → Bool) (n : Nat) :
    clear bit n = {l | l < n ∧ bit l = false}.ncard := by
  have hset : {l | l < n ∧ bit l = false} = ((Finset.range n).filter fun l => bit l = false) := by
    ext l
    simp
  rw [hset, Set.ncard_coe_finset, Finset.card_filter]
  unfold clear
  show ((Multiset.range n).map _).sum = ((Multiset.range n).map _).sum
  refine congrArg Multiset.sum (Multiset.map_congr rfl fun l _ => ?_)
  cases bit l <;> rfl

theorem zeroBits_eq (x : UInt8) : zeroBits x = clear x.toNat.testBit 8 := by
  unfold zeroBits clear
  generalize List.range 8 = ks
  induction ks with
  | nil => rfl
  | cons k ks ih =>
    rw [List.map_cons, List.sum_cons, ← ih]
    cases hb : x.toNat.testBit k with
    | true => rw [List.filter_cons_of_neg (by simp [hb])]; simp
    | false => rw [List.filter_cons_of_pos (by simp [hb])]; simp [Nat.add_comm]

/-- The zero bits of a sector of the bitmap. -/
theorem sum_zeroBits (b : Block) :
    ((List.range 512).map fun i => zeroBits (b i)).sum = clear b.testBit 4096 := by
  rw [← clear_mul b.testBit 8 512]
  refine congrArg List.sum (List.map_congr_left fun i _ => ?_)
  rw [zeroBits_eq]
  refine clear_congr fun k hk => ?_
  unfold Block.testBit
  rw [show (i * 8 + k) / 8 = i by omega, show (i * 8 + k) % 8 = k by omega]

end Count

section FreeCount

variable {g : Geo} {s : St}

theorem freeCountFrom_eq (hs : Sane g s) (free : Nat) {ks : List Nat}
    (hks : ∀ k ∈ ks, k < g.bitmap_sectors) :
    freeCountFrom s free ks
      = free + (ks.map fun k => clear (fun l => (view g s.disk).bit (k * 4096 + l)) 4096).sum := by
  induction ks generalizing free with
  | nil => rfl
  | cons k ks ih =>
    have hk := hks k List.mem_cons_self
    have hbit : g.HasBit (k * 4096) := by
      unfold Geo.HasBit
      omega
    have hlt := bitmap_lt hs hbit
    rw [Nat.mul_div_cancel k (by decide)] at hlt
    have hsec : clear (s.disk (g.bitmap_lba + k)).testBit 4096
        = clear (fun l => (view g s.disk).bit (k * 4096 + l)) 4096 := by
      refine clear_congr fun l hl => ?_
      obtain ⟨hdiv, hmod⟩ := bit_address k hl
      show _ = if (k * 4096 + l) / 4096 < g.bitmap_sectors then _ else _
      rw [hdiv, hmod, if_pos hk]
    unfold freeCountFrom
    rw [hs.geo, rd_eq hs hlt]
    dsimp only
    rw [ih _ fun m hm => hks m (List.mem_cons_of_mem k hm), List.map_cons, List.sum_cons,
      ← Nat.add_assoc, sum_zeroBits, hsec]

/-- **The count of the free sectors** is the number of clear bits. -/
theorem freeCount_eq (hs : Sane g s) :
    freeCount s = clear (view g s.disk).bit (g.bitmap_sectors * 4096) := by
  unfold freeCount
  rw [hs.geo, freeCountFrom_eq hs 0 (show ∀ k ∈ List.range g.bitmap_sectors, k < g.bitmap_sectors
    from fun k hk => List.mem_range.mp hk), Nat.zero_add, clear_mul]

end FreeCount

/-! ## The theorem -/

/-- Inode `i` is in use, and its pointer at the place `p` leads to the sector `l`: a
sector of data, an indirect table, or a table of the double-indirect one. -/
def References (s : St) (i : Nat) (p : Place Nat) (l : Nat) : Prop :=
  l ≠ 0 ∧ ∃ t, inoGet s i = some t ∧ t.type ≠ tFree ∧ (view s.vol.toGeo s.disk).ref t.top p = l

/-- **Every sector is accounted for.** -/
structure Accounted (s : St) : Prop where
  /-- The bits of the bitmap. -/
  bits : ∀ l, l < s.vol.bitmap_sectors * 4096 → (bitGet s l = some true ↔
    l < s.vol.data_lba ∨ s.vol.sectors ≤ l ∨ ∃ i p, References s i p l)
  /-- Every sector of the volume has a bit. -/
  bitmap : s.vol.sectors ≤ s.vol.bitmap_sectors * 4096
  /-- No sector is led to twice, and only sectors of the data area are led to. -/
  once : ∀ i j p q l, References s i p l → References s j q l → i = j ∧ p = q
  data : ∀ i p l, References s i p l → s.vol.data_lba ≤ l ∧ l < s.vol.sectors
  /-- An allocation fails only when no data sector is free. -/
  alloc : (alloc s).1 = 0 → ∀ l, s.vol.data_lba ≤ l → l < s.vol.sectors → bitGet s l = some true
  /-- The count of the free sectors. -/
  freeCount : freeCount s = {l | s.vol.data_lba ≤ l ∧ l < s.vol.sectors ∧
    ∀ i p, ¬ References s i p l}.ncard
  /-- A check, repairing or not, reports nothing. -/
  check : ∀ fix, ∃ r s', check fix s = some (.ok, r, s') ∧ r.orphans = 0 ∧ r.leaked = 0 ∧
    r.unmarked = 0 ∧ r.bad_blocks = 0

section Settled

variable {g : Geo} {G : Graph} {s : St}

theorem Settled.references_iff (h : Settled g G s) {i l : Nat} {p : Place Nat} :
    References s i p l ↔ l ≠ 0 ∧ ∃ u, diskForest G (view g s.disk) i = some u ∧
      (view g s.disk).ref u p = l := by
  unfold References
  rw [h.sane.geo]
  refine and_congr_right fun _ => ?_
  constructor
  · rintro ⟨t, ht, hty, hp⟩
    have hin : ¬(i = 0 ∨ g.inode_count ≤ i) := fun hc => by
      rw [inoGet_none h.sane hc] at ht
      exact absurd ht (by simp)
    rw [not_or, not_le] at hin
    rw [inoGet_eq h.sane hin.1 hin.2, Option.some.injEq] at ht
    subst ht
    obtain ⟨o, ho⟩ := Option.ne_none_iff_exists'.mp (h.exact.full i hty)
    exact ⟨_, diskForest_some.mpr ⟨⟨o, ho⟩, rfl⟩, hp⟩
  · rintro ⟨u, hu, hp⟩
    obtain ⟨⟨o, ho⟩, rfl⟩ := diskForest_some.mp hu
    obtain ⟨hi0, hilt⟩ := h.ok.bound i o ho
    exact ⟨_, inoGet_eq h.sane hi0 hilt, h.rep.not_free ho, hp⟩

theorem Settled.owns_iff (h : Settled g G s) {l : Nat} :
    Owns (view g s.disk) (diskForest G (view g s.disk)) l ↔ ∃ i p, References s i p l := by
  simp only [h.references_iff]
  constructor
  · rintro ⟨hl0, i, u, p, hi, hp⟩
    exact ⟨i, p, hl0, u, hi, hp⟩
  · rintro ⟨i, p, hl0, u, hi, hp⟩
    exact ⟨hl0, i, u, p, hi, hp⟩

/-- The bit of a sector. -/
theorem Settled.bit_iff (h : Settled g G s) {l : Nat} (hl : g.HasBit l) :
    (view g s.disk).bit l = true ↔
      l < g.data_lba ∨ g.sectors ≤ l ∨ ∃ i p, References s i p l := by
  rw [← h.owns_iff]
  constructor
  · intro hbit
    by_cases hin : g.data_lba ≤ l ∧ l < g.sectors
    · exact Or.inr (Or.inr (h.exact.lean l ⟨hin.1, hin.2, hl⟩ hbit))
    · rw [not_and_or, not_le, not_lt] at hin
      exact hin.imp id Or.inl
  · rintro (hlt | hge | hown)
    · exact Inv.pad h.rep l fun hc => absurd hc.1 (by omega)
    · exact Inv.pad h.rep l fun hc => absurd hc.2 (by omega)
    · exact Inv.used h.rep l hown

/-- The bitmap covers the volume, unless `n + 4095` has overflown. -/
theorem Geo.Ok.covers (hg : g.Ok) (hn : g.sectors ≤ 4294963200) :
    g.sectors ≤ g.bitmap_sectors * 4096 := by
  have := hg.bitmap_sectors
  omega

theorem Settled.accounted (h : Settled g G s) (hn : g.sectors ≤ 4294963200) : Accounted s := by
  have hgeo := h.sane.geo
  have hcover := h.sane.ok.covers hn
  have hhas : ∀ l, l < g.sectors → g.HasBit l := fun l hl => by
    unfold Geo.HasBit
    omega
  have hdata : ∀ i p l, References s i p l → g.data_lba ≤ l ∧ l < g.sectors := fun i p l hr => by
    have hd := Inv.data h.rep l (h.owns_iff.mpr ⟨i, p, hr⟩)
    exact ⟨hd.le, hd.lt⟩
  refine ⟨?_, ?_, ?_, ?_, ?_, ?_, ?_⟩
  · intro l hl
    rw [hgeo] at hl ⊢
    have hl' : g.HasBit l := by
      unfold Geo.HasBit
      omega
    rw [bitGet_eq h.sane hl', Option.some.injEq, h.bit_iff hl']
  · rw [hgeo]
    exact hcover
  · intro i j p q l hi hj
    obtain ⟨hl0, u, hu, hp⟩ := h.references_iff.mp hi
    obtain ⟨-, w, hw, hq⟩ := h.references_iff.mp hj
    exact Inv.ref_inj h.rep hu hw (hp.trans hq.symm) (by rw [hp]; exact hl0)
  · rw [hgeo]
    exact hdata
  · intro h0 l hle hlt
    rw [hgeo] at hle hlt
    rw [bitGet_eq h.sane (hhas l hlt)]
    rcases alloc_spec h.sane (Inv.padded h.rep) with ⟨-, hall⟩ | ⟨m, s', hr, hm, -⟩
    · rw [hall l trivial ⟨hle, hlt, hhas l hlt⟩]
    · rw [hr] at h0
      exact absurd h0 (hm.ne_zero h.sane.ok)
  · rw [freeCount_eq h.sane, clear_eq_ncard, hgeo]
    refine congrArg Set.ncard (Set.ext fun l => ?_)
    show l < g.bitmap_sectors * 4096 ∧ (view g s.disk).bit l = false ↔ _
    constructor
    · rintro ⟨hl, hbit⟩
      have hno : ¬(l < g.data_lba ∨ g.sectors ≤ l ∨ ∃ i p, References s i p l) := fun hc => by
        rw [(h.bit_iff (by unfold Geo.HasBit; omega)).mpr hc] at hbit
        exact absurd hbit (by simp)
      rw [not_or, not_or, not_lt, not_le] at hno
      exact ⟨hno.1, hno.2.1, fun i p hr => hno.2.2 ⟨i, p, hr⟩⟩
    · rintro ⟨hle, hlt, hno⟩
      refine ⟨by omega, ?_⟩
      rw [← Bool.not_eq_true, h.bit_iff (hhas l hlt)]
      rintro (hc | hc | ⟨i, p, hr⟩)
      · omega
      · omega
      · exact hno i p hr
  · intro fix
    have hR : Rooted g G s := h.rooted
    obtain ⟨r, s', -, hc, -, -, hclean⟩ := check_spec fix hR fun _ => hR.lost h.orphansApart
    have hr := hclean h.exact
    exact ⟨r, s', hc, hr.orphans, hr.leaked, hr.unmarked, hr.bad_blocks⟩

end Settled

/-- A volume with a directory `A` that is moved into itself. -/
def detached : St := ((Op.rename 1 [65] 3 [65]).run withA).2

end Mwfs
