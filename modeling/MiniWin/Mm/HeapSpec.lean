import MiniWin.Mm.HeapChunk
import MiniWin.Mm.PagesSpec

/-!
# The heap: one call

What holds between the calls: every chunk is a run of pages of its own, cut into blocks with
merged neighbours, and a word that looks like the header of a used block is one. `live` maps the
payload of every used block to its length; a call adds a payload, takes one away, or changes none,
and what the others hold stays.
-/

namespace Mm

open BoundaryTag

/-- A chunk is a run of pages that are handed out. -/
def InPages (pg : Pages) (c : Chunk) : Prop :=
  ∃ first n, 0 < n ∧ c.base = pg.base + first * pageSize ∧ c.bytes = n * pageSize
    ∧ pg.bitmap_pages ≤ first ∧ first + n ≤ pg.npages
    ∧ ∀ q, first ≤ q → q < first + n → pg.used q = true

/-- A place in page `q`. -/
def OnPage (pg : Pages) (q a : Nat) : Prop :=
  pg.base + q * pageSize ≤ a ∧ a < pg.base + (q + 1) * pageSize

/-- **The layout of the heap**: the blocks of each chunk. -/
structure Ok (lay : Fin 16 → List Blk) (pg : Pages) (chunks : Fin 16 → Chunk) : Prop where
  pages : Sound [] pg
  aligned : pg.base % pageSize = 0
  top : pg.base + pg.npages * pageSize < 2 ^ 32
  inPages : ∀ i, (chunks i).base ≠ 0 → InPages pg (chunks i)
  tiled : ∀ i, (chunks i).base ≠ 0 → Tiled pg.ram (chunks i) (lay i)
  merged : ∀ i, (chunks i).base ≠ 0 → Merged (lay i)
  apart : ∀ i j, i ≠ j → (chunks i).base ≠ 0 → (chunks j).base ≠ 0 →
    (chunks i).base + (chunks i).bytes ≤ (chunks j).base
      ∨ (chunks j).base + (chunks j).bytes ≤ (chunks i).base
  /-- A page that is free holds nothing that looks like a used block. -/
  clean : ∀ q a, pg.bitmap_pages ≤ q → q < pg.npages → pg.used q = false → OnPage pg q a →
    a % 16 = 0 → pg.ram.le32 (a + 8) ≠ magicUsed

/-- The used blocks. -/
def UsedAt (lay : Fin 16 → List Blk) (chunks : Fin 16 → Chunk) (i : Fin 16) (a : Nat) (b : Blk) : Prop :=
  (chunks i).base ≠ 0 ∧ At (lay i) (chunks i).base a b ∧ b.used = true

/-- **The heap and the payloads its clients hold.** -/
def Good (live : Nat → Option Nat) (s : Heap) : Prop :=
  ∃ lay, Ok lay s.pg s.chunks ∧ ∀ p cap, live p = some cap ↔
    ∃ i a b, UsedAt lay s.chunks i a b ∧ p = a + 16 ∧ b.size = cap + 16

/-- What the live payloads hold is the same. -/
def Same (live : Nat → Option Nat) (ram ram' : Block) : Prop :=
  ∀ p cap, live p = some cap → ∀ j, p ≤ j → j < p + cap → ram' j = ram j

section
variable {lay : Fin 16 → List Blk} {pg : Pages} {chunks : Fin 16 → Chunk} {i j : Fin 16}
  {a a' : Nat} {b b' : Blk} {ram : Block}

theorem Ok.placed (h : Ok lay pg chunks) (hi : (chunks i).base ≠ 0) : Placed (chunks i) := by
  obtain ⟨first, n, -, hbase, hbytes, -, hend, -⟩ := h.inPages i hi
  have := h.aligned
  have htop := h.top
  have hle : (first + n) * pageSize ≤ pg.npages * pageSize := Nat.mul_le_mul_right _ hend
  rw [Nat.add_mul] at hle
  unfold pageSize at *
  exact ⟨by omega, by omega⟩

/-- **Two used blocks are the same, or apart.** -/
theorem Ok.blocks_apart (h : Ok lay pg chunks) (hb : UsedAt lay chunks i a b)
    (hb' : UsedAt lay chunks j a' b') :
    (i = j ∧ a = a' ∧ b = b') ∨ a + b.size ≤ a' ∨ a' + b'.size ≤ a := by
  by_cases hij : i = j
  · subst hij
    exact (hb.2.1.apart hb'.2.1).imp (fun hs => ⟨rfl, hs⟩) id
  · have hr := (h.tiled i hb.1).range hb.2.1
    have hr' := (h.tiled j hb'.1).range hb'.2.1
    rcases h.apart i j hij hb.1 hb'.1 with hlt | hlt
    · exact Or.inr (Or.inl (by omega))
    · exact Or.inr (Or.inr (by omega))

theorem Tiled.congr {ram ram' : Block} {c : Chunk} {bs : List Blk} (ht : Tiled ram c bs)
    (hc : Placed c) (hram : ∀ a, c.base ≤ a → a < c.base + c.bytes → ram' a = ram a) :
    Tiled ram' c bs where
  laid := ht.laid.congr (fun b hb => Nat.le_trans (by decide) (ht.sizes b hb).1) fun a hle hlt =>
    hram a hle (by rw [← ht.fills]; exact hlt)
  sizes := ht.sizes
  fills := ht.fills
  tagged a hle hlt hal hmagic := by
    have hbytes : c.bytes % 16 = 0 := by
      have hstart : (c.base + total bs) % 16 = 0 :=
        (show Tiled ram c (bs ++ []) by rw [List.append_nil]; exact ht).start_aligned hc
      have := hc.aligned
      rw [ht.fills] at hstart
      omega
    have := hc.aligned
    refine ht.tagged a hle hlt hal ?_
    rw [← hmagic]
    exact (Block.le32_congr fun i hi => hram _ (by omega) (by omega)).symm

/-- A chunk is behind the bitmap. -/
theorem InPages.behind {c : Chunk} (h : InPages pg c) :
    pg.base + pg.bitmap_pages * pageSize ≤ c.base := by
  obtain ⟨first, n, -, hbase, -, hle, -⟩ := h
  have := Nat.mul_le_mul_right pageSize hle
  omega

/-- The 16 bytes from an aligned place on are on one page. -/
theorem OnPage.granule {q k : Nat} (ha : OnPage pg q a) (hbase : pg.base % pageSize = 0)
    (hal : a % 16 = 0) (hk : k < 16) : OnPage pg q (a + k) := by
  obtain ⟨h₁, h₂⟩ := ha
  unfold OnPage pageSize at *
  omega

/-- A place on a free page is in no chunk. -/
theorem Ok.free_page (h : Ok lay pg chunks) (hi : (chunks i).base ≠ 0) {q : Nat}
    (hfree : pg.used q = false) (ha : OnPage pg q a) :
    a < (chunks i).base ∨ (chunks i).base + (chunks i).bytes ≤ a := by
  obtain ⟨first, n, -, hbase, hbytes, -, -, hused⟩ := h.inPages i hi
  obtain ⟨hle, hlt⟩ := ha
  by_contra hin
  have hq : first ≤ q ∧ q < first + n := by
    unfold pageSize at *
    omega
  exact absurd ((hused q hq.1 hq.2).symm.trans hfree) (by decide)

/-- **The blocks of one chunk are changed.** -/
theorem Ok.change (h : Ok lay pg chunks) (hi : (chunks i).base ≠ 0) {bs' : List Blk}
    (ht : Tiled ram (chunks i) bs') (hm : Merged bs')
    (hout : ∀ j, j < (chunks i).base ∨ (chunks i).base + (chunks i).bytes ≤ j → ram j = pg.ram j) :
    Ok (Function.update lay i bs') { pg with ram := ram } chunks := by
  have hbehind := (h.inPages i hi).behind
  have hmap : ∀ k < pg.bitmap_pages * pageSize, ram (pg.base + k) = pg.ram (pg.base + k) :=
    fun k hk => hout _ (Or.inl (by omega))
  have hused := fun q => h.pages.toFits.used_of_ram hmap (q := q)
  refine ⟨h.pages.of_ram hmap, h.aligned, h.top, fun j hj => ?_, fun j hj => ?_, fun j hj => ?_,
    h.apart, fun q a hle hlt hfree ha hal => ?_⟩
  · obtain ⟨first, n, hn, hbase, hbytes, hle, hend, hall⟩ := h.inPages j hj
    exact ⟨first, n, hn, hbase, hbytes, hle, hend, fun q h₁ h₂ => by
      rw [hused q (by omega)]; exact hall q h₁ h₂⟩
  · by_cases hji : j = i
    · subst hji
      rw [Function.update_self]
      exact ht
    · rw [Function.update_of_ne hji]
      refine (h.tiled j hj).congr (h.placed hj) fun a hle hlt => hout a ?_
      rcases h.apart i j (Ne.symm hji) hi hj with hab | hab
      · exact Or.inr (by omega)
      · exact Or.inl (by omega)
  · by_cases hji : j = i
    · subst hji
      rw [Function.update_self]
      exact hm
    · rw [Function.update_of_ne hji]
      exact h.merged j hj
  · have hfree : pg.used q = false := (hused q hlt).symm.trans hfree
    have hclean := h.clean q a hle hlt hfree ha hal
    have ha : OnPage pg q a := ha
    intro hmagic
    refine hclean ?_
    rw [← hmagic]
    refine (Block.le32_congr fun k hk => hout _ ?_).symm
    rw [Nat.add_assoc]
    exact h.free_page hi hfree (ha.granule h.aligned hal (by omega))

/-- A call that only counts, or reads bits. -/
theorem Ok.of_touched (h : Ok lay pg chunks) {t : List Nat} {failed bad : UInt32}
    (ht : ∀ i ∈ t, i < pg.bitmap_pages * pageSize) :
    Ok lay { pg with failed := failed, bad_frees := bad, touched := t ++ pg.touched } chunks :=
  { h with pages := h.pages.of_touched ht }

/-! ## Chunks come and go -/

/-- Memory behind the bitmap is as it was, so what a chunk holds is. -/
theorem Ok.tiled_of_ram (h : Ok lay pg chunks) (hi : (chunks i).base ≠ 0)
    (hram : ∀ a, ¬ (pg.base ≤ a ∧ a < pg.base + pg.bitmap_pages * pageSize) →
      a < pg.base + pg.npages * pageSize → ram a = pg.ram a) :
    Tiled ram (chunks i) (lay i) := by
  refine (h.tiled i hi).congr (h.placed hi) fun a hle hlt => hram a ?_ ?_
  · have := (h.inPages i hi).behind
    omega
  · obtain ⟨first, n, -, hbase, hbytes, -, hend, -⟩ := h.inPages i hi
    have hle' : (first + n) * pageSize ≤ pg.npages * pageSize := Nat.mul_le_mul_right _ hend
    rw [Nat.add_mul] at hle'
    omega

/-- A slot that still holds a chunk when slot `i` is emptied. -/
theorem kept_slot {j : Fin 16} (hj : (Function.update chunks i {} j).base ≠ 0) :
    j ≠ i ∧ Function.update chunks i {} j = chunks j := by
  by_cases hji : j = i
  · subst hji
    rw [Function.update_self] at hj
    exact absurd rfl hj
  · exact ⟨hji, Function.update_of_ne hji _ _⟩

/-- A chunk is forgotten, and its pages stay allocated. -/
theorem Ok.forget (h : Ok lay pg chunks) (i : Fin 16) :
    Ok lay pg (Function.update chunks i {}) where
  pages := h.pages
  aligned := h.aligned
  top := h.top
  inPages j hj := by
    have hk := (kept_slot hj).2
    rw [hk] at hj ⊢
    exact h.inPages j hj
  tiled j hj := by
    have hk := (kept_slot hj).2
    rw [hk] at hj ⊢
    exact h.tiled j hj
  merged j hj := by
    rw [(kept_slot hj).2] at hj
    exact h.merged j hj
  apart j k hjk hj hk := by
    have hj' := (kept_slot hj).2
    have hk' := (kept_slot hk).2
    rw [hj'] at hj ⊢
    rw [hk'] at hk ⊢
    exact h.apart j k hjk hj hk
  clean := h.clean

/-- Pages that no chunk has are given back. -/
theorem Ok.given (h : Ok lay pg chunks) {pg' : Pages} {first n : Nat} (hg : Given pg first n pg')
    (hother : ∀ j, (chunks j).base ≠ 0 →
      (chunks j).base + (chunks j).bytes ≤ pg.base + first * pageSize
        ∨ pg.base + (first + n) * pageSize ≤ (chunks j).base)
    (hclean : ∀ a, pg.base + first * pageSize ≤ a → a < pg.base + (first + n) * pageSize →
      a % 16 = 0 → pg.ram.le32 (a + 8) ≠ magicUsed) : Ok lay pg' chunks := by
  have hbase : pg'.base = pg.base := by rw [hg.rest]
  have hbm : pg'.bitmap_pages = pg.bitmap_pages := by rw [hg.rest]
  have hnp : pg'.npages = pg.npages := by rw [hg.rest]
  refine ⟨h.pages.given hg, hbase ▸ h.aligned, by rw [hbase, hnp]; exact h.top, fun j hj => ?_,
    fun j hj => h.tiled_of_ram hj fun a ha _ => hg.ram a ha, h.merged, h.apart,
    fun q a hle hlt hfree ha hal => ?_⟩
  · obtain ⟨first', n', hn', hb, hbytes, hle, hend, hall⟩ := h.inPages j hj
    refine ⟨first', n', hn', by rw [hbase]; exact hb, hbytes, by rw [hbm]; exact hle,
      by rw [hnp]; exact hend, fun q h₁ h₂ => ?_⟩
    rw [hg.used, if_neg ?_]
    · exact hall q h₁ h₂
    · rcases hother j hj with ho | ho
      · have : first' + n' ≤ first := by
          rw [hb, hbytes, Nat.add_assoc, ← Nat.add_mul] at ho
          exact Nat.le_of_mul_le_mul_right (Nat.le_of_add_le_add_left ho) (by decide)
        omega
      · have : first + n ≤ first' := by
          rw [hb] at ho
          exact Nat.le_of_mul_le_mul_right (Nat.le_of_add_le_add_left ho) (by decide)
        omega
  · rw [hbm] at hle
    rw [hnp] at hlt
    have ha : OnPage pg q a := by unfold OnPage at ha ⊢; rwa [hbase] at ha
    have hsame : pg'.ram.le32 (a + 8) = pg.ram.le32 (a + 8) := by
      refine Block.le32_congr fun k hk => hg.ram _ ?_
      have := Nat.mul_le_mul_right pageSize hle
      obtain ⟨ha₁, -⟩ := ha
      omega
    rw [hsame]
    rw [hg.used] at hfree
    split at hfree
    · next hin =>
      obtain ⟨ha₁, ha₂⟩ := ha
      have h₁ := Nat.mul_le_mul_right pageSize hin.1
      have h₂ : (q + 1) * pageSize ≤ (first + n) * pageSize := Nat.mul_le_mul_right _ hin.2
      exact hclean a (by omega) (by omega) hal
    · exact h.clean q a hle hlt hfree ha hal

/-- **A chunk is given back to the page allocator.** -/
theorem Ok.drop (h : Ok lay pg chunks) (hi : (chunks i).base ≠ 0)
    (hfree : ∀ b ∈ lay i, b.used = false) :
    Ok lay (pagesFree (UInt32.ofNat (chunks i).base)
        (UInt32.ofNat ((chunks i).bytes / pageSize)) pg).2 (Function.update chunks i {})
      ∧ ∀ a, pg.base + pg.bitmap_pages * pageSize ≤ a →
        (pagesFree (UInt32.ofNat (chunks i).base)
          (UInt32.ofNat ((chunks i).bytes / pageSize)) pg).2.ram a = pg.ram a := by
  obtain ⟨first, n, hn, hbase, hbytes, hlow, hend, hall⟩ := h.inPages i hi
  have hplaced := h.placed hi
  have hsmall := h.pages.small
  have hp : (UInt32.ofNat (chunks i).base).toNat = (chunks i).base := by
    rw [UInt32.toNat_ofNat']
    exact Nat.mod_eq_of_lt (by have := hplaced.top; omega)
  have hnum : (UInt32.ofNat ((chunks i).bytes / pageSize)).toNat = n := by
    rw [UInt32.toNat_ofNat', hbytes, Nat.mul_div_cancel _ (by decide)]
    exact Nat.mod_eq_of_lt (by omega)
  have hpage : pg.pageOf (chunks i).base = first := by
    unfold Pages.pageOf
    rw [hbase, Nat.add_sub_cancel_left]
    exact Nat.mul_div_cancel _ (by decide)
  have hwrap : NoWrap pg (UInt32.ofNat (chunks i).base) (UInt32.ofNat ((chunks i).bytes / pageSize)) := by
    intro _ _ _ _
    rw [hp, hnum, hpage]
    omega
  have hforget := h.forget i
  rcases pagesFree_cases h.pages.toFits hwrap with ⟨t, bad, heq, ht⟩ | ⟨-, -, hg⟩
  · rw [heq]
    exact ⟨hforget.of_touched ht, fun _ _ => rfl⟩
  · rw [hp, hnum, hpage] at hg
    refine ⟨?_, fun a ha => hg.ram a (by omega)⟩
    have hrange : pg.base + (first + n) * pageSize = (chunks i).base + (chunks i).bytes := by
      rw [hbase, hbytes, Nat.add_mul]
      omega
    refine hforget.given hg (fun j hj => ?_) fun a hle hlt hal hmagic => ?_
    · obtain ⟨hji, hk⟩ := kept_slot hj
      rw [hk] at hj ⊢
      rw [hrange, ← hbase]
      exact h.apart j i hji hj hi
    · -- the blocks of the chunk are free, so nothing in it looks used
      obtain ⟨b, hb, hu⟩ := (h.tiled i hi).tagged a (by omega) (by omega) hal hmagic
      exact absurd (hu.symm.trans (hfree b hb.mem)) (by decide)

/-- The pages of a chunk are not in a run of free pages. -/
theorem Ok.outside_run (h : Ok lay pg chunks) (hj : (chunks j).base ≠ 0) {first n : Nat}
    (hrun : pg.Run first n) :
    (chunks j).base + (chunks j).bytes ≤ pg.base + first * pageSize
      ∨ pg.base + (first + n) * pageSize ≤ (chunks j).base := by
  obtain ⟨hn, -, hend, hfree⟩ := hrun
  obtain ⟨first', n', hn', hb, hbytes, -, hend', hall⟩ := h.inPages j hj
  have hpages : first' + n' ≤ first ∨ first + n ≤ first' := by
    by_contra hover
    have hq : (!pg.used (max first first')) = true := hfree _ (by omega) (by omega)
    rw [hall (max first first') (by omega) (by omega)] at hq
    exact absurd hq (by decide)
  rcases hpages with hp | hp
  · have := Nat.mul_le_mul_right pageSize hp
    rw [Nat.add_mul] at this
    exact Or.inl (by omega)
  · have := Nat.mul_le_mul_right pageSize hp
    exact Or.inr (by omega)

/-- What is behind the bitmap and not in the new chunk is as it was. -/
theorem Taken.ram_of_outside {pg' : Pages} {first n : Nat} (ht : Taken pg first n false pg')
    (hram : ∀ a, a < pg.base + first * pageSize ∨ pg.base + (first + n) * pageSize ≤ a →
      ram a = pg'.ram a) (hbehind : pg.base + pg.bitmap_pages * pageSize ≤ a)
    (hout : a < pg.base + first * pageSize ∨ pg.base + (first + n) * pageSize ≤ a) :
    ram a = pg.ram a :=
  (hram a hout).trans (ht.ram a (by omega) fun hf => absurd hf (by decide))

/-- **A fresh chunk.** -/
theorem Ok.addChunk (h : Ok lay pg chunks) (hi : (chunks i).base = 0) {pg' : Pages} {first n : Nat}
    (ht : Taken pg first n false pg')
    (hnew : Tiled ram ⟨pg.base + first * pageSize, n * pageSize⟩ [⟨n * pageSize, false⟩])
    (hram : ∀ a, a < pg.base + first * pageSize ∨ pg.base + (first + n) * pageSize ≤ a →
      ram a = pg'.ram a) :
    Ok (Function.update lay i [⟨n * pageSize, false⟩]) { pg' with ram := ram }
      (Function.update chunks i ⟨pg.base + first * pageSize, n * pageSize⟩) := by
  have hbase : pg'.base = pg.base := by rw [ht.rest]
  have hbm : pg'.bitmap_pages = pg.bitmap_pages := by rw [ht.rest]
  have hnp : pg'.npages = pg.npages := by rw [ht.rest]
  obtain ⟨hn, hlow, hend, -⟩ := ht.run
  have hlow' := Nat.mul_le_mul_right pageSize hlow
  have hsound := h.pages.taken ht
  have hmap : ∀ k < pg'.bitmap_pages * pageSize, ram (pg'.base + k) = pg'.ram (pg'.base + k) := by
    intro k hk
    rw [hbm] at hk
    rw [hbase]
    exact hram _ (Or.inl (by omega))
  have hused : ∀ q < pg.npages, Pages.used { pg' with ram := ram } q
      = if first ≤ q ∧ q < first + n then true else pg.used q := by
    intro q hq
    rw [hsound.toFits.used_of_ram hmap (by rw [hnp]; exact hq)]
    exact ht.used q hq
  have hother := fun j hj => h.outside_run (j := j) hj ht.run
  have hsplit : pg.base + (first + n) * pageSize
      = pg.base + first * pageSize + n * pageSize := by rw [Nat.add_mul]; omega
  have hslot : ∀ j, j ≠ i → Function.update chunks i
      ⟨pg.base + first * pageSize, n * pageSize⟩ j = chunks j := fun j hji => Function.update_of_ne hji _ _
  refine ⟨?_, by rw [hbase]; exact h.aligned, by rw [hbase, hnp]; exact h.top, fun j hj => ?_,
    fun j hj => ?_, fun j hj => ?_, fun j k hjk hj hk => ?_, fun q a hle hlt hfree ha hal => ?_⟩
  · have hs := hsound.of_ram hmap
    exact { hs with held := fun run hrun => absurd hrun List.not_mem_nil, apart := List.Pairwise.nil }
  · by_cases hji : j = i
    · subst hji
      rw [Function.update_self]
      refine ⟨first, n, hn, by rw [hbase], rfl, by rw [hbm]; exact hlow, by rw [hnp]; exact hend,
        fun q h₁ h₂ => ?_⟩
      rw [hused q (by omega), if_pos ⟨h₁, h₂⟩]
    · rw [hslot j hji] at hj ⊢
      obtain ⟨first', n', hn', hb, hbytes, hle', hend', hall⟩ := h.inPages j hj
      refine ⟨first', n', hn', by rw [hbase]; exact hb, hbytes, by rw [hbm]; exact hle',
        by rw [hnp]; exact hend', fun q h₁ h₂ => ?_⟩
      rw [hused q (by omega), hall q h₁ h₂]
      split <;> rfl
  · by_cases hji : j = i
    · subst hji
      rw [Function.update_self, Function.update_self]
      exact hnew
    · rw [hslot j hji] at hj ⊢
      rw [Function.update_of_ne hji]
      refine (h.tiled j hj).congr (h.placed hj) fun a hle hlt => ht.ram_of_outside hram ?_ ?_
      · have := (h.inPages j hj).behind
        omega
      · rcases hother j hj with ho | ho
        · exact Or.inl (by omega)
        · exact Or.inr (by omega)
  · by_cases hji : j = i
    · subst hji
      rw [Function.update_self]
      exact List.isChain_singleton _
    · rw [hslot j hji] at hj
      rw [Function.update_of_ne hji]
      exact h.merged j hj
  · by_cases hji : j = i
    · have hki : k ≠ i := fun hki => hjk (hji.trans hki.symm)
      rw [hslot k hki] at hk ⊢
      subst hji
      rw [Function.update_self]
      rcases hother k hk with ho | ho
      · exact Or.inr ho
      · exact Or.inl (hsplit ▸ ho)
    · rw [hslot j hji] at hj ⊢
      by_cases hki : k = i
      · subst hki
        rw [Function.update_self]
        rcases hother j hj with ho | ho
        · exact Or.inl ho
        · exact Or.inr (hsplit ▸ ho)
      · rw [hslot k hki] at hk ⊢
        exact h.apart j k hjk hj hk
  · have hle : pg.bitmap_pages ≤ q := hbm ▸ hle
    have hlt : q < pg.npages := hnp ▸ hlt
    have ha : OnPage pg q a := by
      obtain ⟨h₁, h₂⟩ := ha
      exact ⟨hbase ▸ h₁, hbase ▸ h₂⟩
    rw [hused q hlt] at hfree
    split at hfree
    · exact nomatch hfree
    next hout =>
    intro hmagic
    refine h.clean q a hle hlt hfree ha hal ?_
    rw [← hmagic]
    refine (Block.le32_congr fun k hk => ?_).symm
    obtain ⟨hg₁, hg₂⟩ := ha.granule h.aligned hal (show 8 + k < 16 by omega)
    rw [Nat.add_assoc]
    have hq₁ := Nat.mul_le_mul_right pageSize hle
    refine ht.ram_of_outside hram (by omega) ?_
    by_cases hfirst : q < first
    · have : (q + 1) * pageSize ≤ first * pageSize := Nat.mul_le_mul_right _ hfirst
      exact Or.inl (by omega)
    · have : (first + n) * pageSize ≤ q * pageSize := Nat.mul_le_mul_right _ (by omega)
      exact Or.inr (by omega)

/-- The header of a fresh chunk. -/
def freshHeader (b bytes : Nat) (ram : Block) : Block :=
  setPad b 0 (setMagic b magicFree (setPrevSize b 0 (setSize b bytes ram)))

theorem freshHeader_apply {b bytes : Nat} (ha : a < b ∨ b + 16 ≤ a) :
    freshHeader b bytes ram a = ram a := by
  unfold freshHeader setPad setMagic setPrevSize setSize
  rw [Block.put32_apply_of_not_mem _ _ (by omega), Block.put32_apply_of_not_mem _ _ (by omega),
    Block.put32_apply_of_not_mem _ _ (by omega), Block.put32_apply_of_not_mem _ _ (by omega)]

theorem freshHeader_tiled {c : Chunk} (hc : Placed c) (hbytes : c.bytes % 16 = 0)
    (hlarge : 32 ≤ c.bytes) (hclean : ∀ a, c.base < a → a < c.base + c.bytes → a % 16 = 0 →
      ram.le32 (a + 8) ≠ magicUsed) :
    Tiled (freshHeader c.base c.bytes ram) c [⟨c.bytes, false⟩] := by
  have htop := hc.top
  have hal := hc.aligned
  have hfree : magicFree < 4294967296 := by decide
  have hmagic : (freshHeader c.base c.bytes ram).le32 (c.base + 8) = magicFree := by
    unfold freshHeader setPad setMagic setPrevSize setSize
    simp (disch := omega) only [Block.le32_put32_of_disjoint, Block.le32_put32_of_lt]
  refine ⟨⟨⟨?_, ?_, hmagic⟩, trivial⟩, fun b hb => ?_, ?_, fun a hle hlt hal' hused => ?_⟩
  · unfold freshHeader setPad setMagic setPrevSize setSize
    simp (disch := omega) only [Block.le32_put32_of_disjoint, Block.le32_put32_of_lt]
  · unfold freshHeader setPad setMagic setPrevSize setSize
    simp (disch := omega) only [Block.le32_put32_of_disjoint, Block.le32_put32_of_lt]
  · obtain rfl := List.mem_singleton.mp hb
    exact ⟨hlarge, hbytes⟩
  · simp only [total_cons, total_nil, Nat.add_zero]
  · rcases Nat.eq_or_lt_of_le hle with rfl | hlt'
    · exact absurd (hmagic.symm.trans hused) (by decide)
    · refine absurd ?_ (hclean a hlt' hlt hal')
      rw [← hused]
      refine (Block.le32_congr fun k hk => freshHeader_apply (Or.inr ?_)).symm
      omega

end

section
variable {live : Nat → Option Nat} {s : Heap}

theorem Same.refl (ram : Block) : Same live ram ram := fun _ _ _ _ _ _ => rfl

theorem Same.trans {ram ram' ram'' : Block} (h : Same live ram ram') (h' : Same live ram' ram'') :
    Same live ram ram'' := fun p cap hp j hj hlt =>
  (h' p cap hp j hj hlt).trans (h p cap hp j hj hlt)

/-- A call that only counts, or reads bits of the bitmap. -/
theorem Good.of_touched (h : Good live s) {t : List Nat} {failed bad : UInt32}
    (ht : ∀ i ∈ t, i < s.pg.bitmap_pages * pageSize) :
    Good live { s with
      pg := { s.pg with failed := failed, bad_frees := bad, touched := t ++ s.pg.touched } } := by
  obtain ⟨lay, hok, hlive⟩ := h
  exact ⟨lay, hok.of_touched ht, hlive⟩

theorem Good.bad (h : Good live s) : Good live s.bad :=
  h.of_touched (t := []) fun _ hi => nomatch hi

theorem Good.fail (h : Good live s) : Good live s.fail :=
  h.of_touched (t := []) fun _ hi => nomatch hi

/-- **`mm_chunk_add` changes nothing that is held.** -/
theorem Good.chunkAdd (h : Good live s) {need : Nat} (hneed : need ≤ 2 ^ 30) :
    Good live (chunkAdd need s).2 ∧ Same live s.ram (chunkAdd need s).2.ram := by
  unfold Mm.chunkAdd
  split
  · exact ⟨h, Same.refl _⟩
  next i hslot =>
  have hi : (s.chunks i).base = 0 := by simpa using List.find?_some hslot
  obtain ⟨lay, hok, hlive⟩ := h
  dsimp only
  obtain ⟨n, hn⟩ : ∃ n, max ((need + pageSize - 1) / pageSize) chunkMinPg = n := ⟨_, rfl⟩
  rw [hn]
  have hn16 : 16 ≤ n := by rw [← hn]; exact Nat.le_max_right _ _
  have hn32 : n < 2 ^ 32 := by
    rw [← hn]
    unfold pageSize chunkMinPg
    omega
  have htoNat : (UInt32.ofNat n).toNat = n := by
    rw [UInt32.toNat_ofNat']
    exact Nat.mod_eq_of_lt hn32
  rcases pagesAlloc_cases hok.pages.toFits hok.pages.count (UInt32.ofNat n) false with
    ⟨t, failed, heq, ht, -⟩ | ⟨first, hfirst, ht⟩
  · rw [heq]
    exact ⟨⟨lay, hok.of_touched ht, hlive⟩, Same.refl _⟩
  generalize pagesAlloc (UInt32.ofNat n) false s.pg = r at hfirst ht
  obtain ⟨b, pg'⟩ := r
  obtain rfl : b = some (s.pg.base + first * pageSize) := hfirst
  rw [htoNat] at ht
  dsimp only at ht ⊢
  obtain ⟨-, hlow, hend, hfreeRun⟩ := ht.run
  have hlow' := Nat.mul_le_mul_right pageSize hlow
  have hend' : (first + n) * pageSize ≤ s.pg.npages * pageSize := Nat.mul_le_mul_right _ hend
  have hbaseAl := hok.aligned
  have htop := hok.top
  rw [Nat.add_mul] at hend'
  have hplaced : Placed ⟨s.pg.base + first * pageSize, n * pageSize⟩ := by
    unfold pageSize at *
    refine ⟨?_, ?_⟩
    · show (s.pg.base + first * 4096) % 16 = 0
      omega
    · show s.pg.base + first * 4096 + n * 4096 < 2 ^ 32
      omega
  have hout : ∀ a, a < s.pg.base + first * pageSize ∨ s.pg.base + (first + n) * pageSize ≤ a →
      freshHeader (s.pg.base + first * pageSize) (n * pageSize) pg'.ram a = pg'.ram a := by
    intro a ha
    rw [Nat.add_mul] at ha
    exact freshHeader_apply (by unfold pageSize at *; omega)
  have hnew : Tiled (freshHeader (s.pg.base + first * pageSize) (n * pageSize) pg'.ram)
      ⟨s.pg.base + first * pageSize, n * pageSize⟩ [⟨n * pageSize, false⟩] := by
    refine freshHeader_tiled hplaced ?_ ?_ fun a hle hlt hal hmagic => ?_
    · unfold pageSize; show _ * 4096 % 16 = 0; omega
    · unfold pageSize; show 32 ≤ _ * 4096; omega
    · -- the pages were free, and held nothing that looks used
      have hle : s.pg.base + first * pageSize < a := hle
      have hlt : a < s.pg.base + first * pageSize + n * pageSize := hlt
      obtain ⟨q, hq⟩ : ∃ q, (a - s.pg.base) / pageSize = q := ⟨_, rfl⟩
      have hon : OnPage s.pg q a ∧ first ≤ q ∧ q < first + n := by
        unfold OnPage pageSize at *
        omega
      have hfree : s.pg.used q = false := by
        have hf : (!s.pg.used q) = true := hfreeRun q hon.2.1 hon.2.2
        simpa using hf
      refine hok.clean q a (by omega) (by omega) hfree hon.1 hal ?_
      rw [← hmagic]
      refine (Block.le32_congr fun k hk => ht.ram _ ?_ fun hf => absurd hf (by decide)).symm
      omega
  refine ⟨⟨_, hok.addChunk hi ht hnew hout, fun p cap => ?_⟩, fun p cap hp j hj hlt => ?_⟩
  · rw [hlive]
    refine exists_congr fun k => exists_congr fun a => exists_congr fun b =>
      and_congr_left fun _ => ?_
    show _ ↔ UsedAt (Function.update lay i [⟨n * pageSize, false⟩])
      (Function.update s.chunks i ⟨s.pg.base + first * pageSize, n * pageSize⟩) k a b
    unfold UsedAt
    by_cases hk : k = i
    · subst hk
      rw [Function.update_self, Function.update_self]
      constructor
      · exact fun hu => absurd hi hu.1
      · rintro ⟨-, hat, hu⟩
        rw [at_cons_free hu rfl] at hat
        exact absurd hat not_at_nil
    · rw [Function.update_of_ne hk, Function.update_of_ne hk]
  · obtain ⟨k, a, b, hu, rfl, hb⟩ := (hlive p cap).mp hp
    have hr := (hok.tiled k hu.1).range hu.2.1
    have hbehind := (hok.inPages k hu.1).behind
    refine ht.ram_of_outside hout (by omega) ?_
    rcases hok.outside_run hu.1 ht.run with ho | ho
    · exact Or.inl (by omega)
    · exact Or.inr (by omega)

/-! ## `kmalloc` -/

/-- What is held in a block that stays is the same. -/
theorem Ok.kept {lay : Fin 16 → List Blk} {pg : Pages} {chunks : Fin 16 → Chunk} {i k : Fin 16}
    {a : Nat} {b : Blk} {ram : Block} {bs' : List Blk} (h : Ok lay pg chunks)
    (hi : (chunks i).base ≠ 0) (hch : Changed pg.ram (chunks i) (lay i) ram bs')
    (hu : UsedAt lay chunks k a b) (hstay : k = i → At bs' (chunks i).base a b) {j : Nat}
    (hj : a + 16 ≤ j) (hlt : j < a + b.size) : ram j = pg.ram j := by
  by_cases hk : k = i
  · subst hk
    exact hch.kept a b hu.2.2 hu.2.1 (hstay rfl) j hj hlt
  · have hr := (h.tiled k hu.1).range hu.2.1
    refine hch.outside j ?_
    rcases h.apart i k (Ne.symm hk) hi hu.1 with hab | hab
    · exact Or.inr (by omega)
    · exact Or.inl (by omega)

theorem usedAt_update {lay : Fin 16 → List Blk} {chunks : Fin 16 → Chunk} {i k : Fin 16} {a : Nat}
    {b : Blk} {bs' : List Blk} (hi : (chunks i).base ≠ 0) :
    UsedAt (Function.update lay i bs') chunks k a b ↔
      if k = i then At bs' (chunks i).base a b ∧ b.used = true else UsedAt lay chunks k a b := by
  unfold UsedAt
  by_cases hk : k = i
  · subst hk
    rw [Function.update_self, if_pos rfl]
    exact and_iff_right hi
  · rw [Function.update_of_ne hk, if_neg hk]

/-- **The walk over a chunk ends**, at a free block that is large enough if anywhere. -/
theorem walk_spec {ram : Block} {c : Chunk} (hc : Placed c) (need : Nat) :
    ∀ (post pre : List Blk) (fuel : Nat), Tiled ram c (pre ++ post) → post ≠ [] →
      post.length ≤ fuel → walk c need ram fuel (c.base + total pre) = some .miss
        ∨ ∃ h sz, walk c need ram fuel (c.base + total pre) = some (.hit h)
          ∧ At (pre ++ post) c.base h ⟨sz, false⟩ ∧ need ≤ sz
  | [], _, _, _, hne, _ => absurd rfl hne
  | b :: post, _, 0, _, _, hfuel => absurd hfuel (Nat.not_succ_le_zero _)
  | b :: post, pre, fuel + 1, ht, _, hfuel => by
    have hh := (laid_append.mp ht.laid).2.1
    have hsz := (ht.sizes b (by simp)).1
    have hmagic : magic ram (c.base + total pre) = tag b.used := hh.tag
    have hsize : size ram (c.base + total pre) = b.size := hh.size
    unfold walk
    rw [hmagic, hsize, ht.next_eq hc]
    rw [if_neg (by cases b.used <;> decide)]
    split
    · next hfit =>
      obtain ⟨hfree, hle⟩ := hfit
      refine Or.inr ⟨_, b.size, rfl, ⟨pre, post, ?_, rfl⟩, hle⟩
      rw [← tag_eq_free.mp hfree]
    rw [if_neg (show ¬ b.size < hdrSize by unfold hdrSize; omega)]
    by_cases hpost : post = []
    · rw [if_pos hpost]
      exact Or.inl rfl
    · rw [if_neg hpost]
      have ht' : Tiled ram c ((pre ++ [b]) ++ post) := by
        rw [List.append_assoc]
        exact ht
      have hstart : c.base + total pre + b.size = c.base + total (pre ++ [b]) := by
        rw [total_append, total_cons, total_nil]
        omega
      have hnext := walk_spec hc need post (pre ++ [b]) fuel ht' hpost (Nat.le_of_succ_le_succ hfuel)
      rw [List.append_assoc] at hnext
      rw [hstart]
      exact hnext

/-- A chunk has a block. -/
theorem Ok.blocks_ne {lay : Fin 16 → List Blk} {pg : Pages} {chunks : Fin 16 → Chunk}
    (h : Ok lay pg chunks) {i : Fin 16} (hi : (chunks i).base ≠ 0) : lay i ≠ [] := by
  intro hnil
  obtain ⟨first, n, hn, -, hbytes, -⟩ := h.inPages i hi
  have hzero := (h.tiled i hi).fills
  rw [hnil, total_nil] at hzero
  unfold pageSize at hbytes
  omega

theorem Ok.search {lay : Fin 16 → List Blk} {pg : Pages} {chunks : Fin 16 → Chunk}
    (h : Ok lay pg chunks) (need : Nat) : ∀ is : List (Fin 16),
    search chunks need pg.ram is = some .miss
      ∨ ∃ i a sz, search chunks need pg.ram is = some (.hit (i, a)) ∧ (chunks i).base ≠ 0
        ∧ At (lay i) (chunks i).base a ⟨sz, false⟩ ∧ need ≤ sz
  | [] => Or.inl rfl
  | i :: is => by
    have ih := h.search need is
    unfold Mm.search
    split
    · exact ih
    next hi =>
    have ht := h.tiled i hi
    have hlen := length_le_total fun b hb => (ht.sizes b hb).1
    have hne := h.blocks_ne hi
    have hwalk := walk_spec (h.placed hi) need (lay i) [] ((chunks i).bytes / hdrSize) ht hne (by
      rw [ht.fills] at hlen
      unfold hdrSize
      omega)
    rw [total_nil, Nat.add_zero, List.nil_append] at hwalk
    rcases hwalk with hmiss | ⟨a, sz, hhit, hat, hle⟩
    · rw [hmiss]
      exact ih
    · rw [hhit]
      exact Or.inr ⟨i, a, sz, rfl, hi, hat, hle⟩

/-- What an allocation that succeeds leaves. -/
structure Added (live : Nat → Option Nat) (s : Heap) (n p : Nat) (s' : Heap) : Prop where
  fresh : live p = none
  ne : p ≠ 0
  good : ∃ cap, n ≤ cap ∧ Good (Function.update live p (some cap)) s'
  same : Same live s.ram s'.ram

/-- **A pass ends**, with a new payload or without. -/
theorem Good.pass (h : Good live s) {need : Nat} (hneed : 32 ≤ need) (hal : need % 16 = 0) :
    pass need s = some .miss
      ∨ ∃ p s', pass need s = some (.hit (p, s')) ∧ Added live s (need - 16) p s' := by
  obtain ⟨lay, hok, hlive⟩ := h
  unfold Mm.pass
  rcases hok.search need (List.finRange 16) with hmiss | ⟨i, a, sz, hhit, hi, hat, hle⟩
  · rw [show Mm.search s.chunks need s.ram _ = _ from hmiss]
    exact Or.inl rfl
  rw [show Mm.search s.chunks need s.ram _ = _ from hhit]
  refine Or.inr ⟨_, _, rfl, ?_⟩
  obtain ⟨pre, post, hlay, rfl⟩ := hat
  have ht := hok.tiled i hi
  have hm := hok.merged i hi
  rw [hlay] at ht hm
  obtain ⟨bs', len, hch, hm', hlen, hused⟩ := ht.carve (hok.placed hi) hm hneed hal hle
  rw [← hlay] at hch hused
  have hnewAt : At (lay i) (s.chunks i).base ((s.chunks i).base + total pre) ⟨sz, false⟩ :=
    ⟨pre, post, hlay, rfl⟩
  -- the block that is taken was free
  have hfresh : live ((s.chunks i).base + total pre + hdrSize) = none := by
    cases hl : live ((s.chunks i).base + total pre + hdrSize) with
    | none => rfl
    | some cap =>
      obtain ⟨k, a, b, hu, ha, -⟩ := (hlive _ cap).mp hl
      have ha : a = (s.chunks i).base + total pre := by unfold hdrSize at ha; omega
      subst ha
      by_cases hk : k = i
      · subst hk
        rcases hu.2.1.apart hnewAt with ⟨-, hb⟩ | hb | hb
        · rw [hb] at hu
          exact absurd hu.2.2 Bool.false_ne_true
        · have := ((hok.tiled k hi).sizes b hu.2.1.mem).1
          omega
        · have hsz : 32 ≤ sz := ((hok.tiled k hi).sizes _ hnewAt.mem).1
          have hb : (s.chunks k).base + total pre + sz ≤ (s.chunks k).base + total pre := hb
          omega
      · have hr := (hok.tiled k hu.1).range hu.2.1
        have hr' := (hok.tiled i hi).range hnewAt
        have hsz := ((hok.tiled k hu.1).sizes b hu.2.1.mem).1
        have hsz' := ((hok.tiled i hi).sizes _ hnewAt.mem).1
        rcases hok.apart k i hk hu.1 hi with hab | hab <;> omega
  refine ⟨hfresh, by unfold hdrSize; omega, ⟨len - 16, by omega, _,
    hok.change hi hch.tiled hm' hch.outside, fun p cap => ?_⟩, fun p cap hp j hj hlt => ?_⟩
  · show _ ↔ ∃ k a b, UsedAt (Function.update lay i bs') s.chunks k a b ∧ _
    have hiff : ∀ k a b, UsedAt (Function.update lay i bs') s.chunks k a b ↔
        UsedAt lay s.chunks k a b ∨ (k = i ∧ a = (s.chunks i).base + total pre ∧ b = ⟨len, true⟩) := by
      intro k a b
      rw [usedAt_update hi]
      by_cases hk : k = i
      · subst hk
        rw [if_pos rfl]
        constructor
        · rintro ⟨hat, hu⟩
          exact ((hused a b hu).mp hat).imp (fun ho => ⟨hi, ho, hu⟩) fun hn => ⟨rfl, hn⟩
        · rintro (hu | ⟨-, ha, rfl⟩)
          · exact ⟨(hused a b hu.2.2).mpr (Or.inl hu.2.1), hu.2.2⟩
          · exact ⟨(hused a _ rfl).mpr (Or.inr ⟨ha, rfl⟩), rfl⟩
      · rw [if_neg hk]
        exact ⟨Or.inl, fun hor => hor.resolve_right fun hn => hk hn.1⟩
    by_cases hp : p = (s.chunks i).base + total pre + hdrSize
    · rw [hp, Function.update_self]
      constructor
      · intro hcap
        obtain rfl := Option.some.inj hcap
        exact ⟨i, _, _, (hiff _ _ _).mpr (Or.inr ⟨rfl, rfl, rfl⟩), rfl, by show len = _; omega⟩
      · rintro ⟨k, a, b, hu, ha, hb⟩
        rcases (hiff k a b).mp hu with ho | ⟨-, -, rfl⟩
        · have := (hlive _ cap).mpr ⟨k, a, b, ho, ha, hb⟩
          rw [hfresh] at this
          exact nomatch this
        · have hb : len = cap + 16 := hb
          rw [hb, Nat.add_sub_cancel]
    · rw [Function.update_of_ne hp, hlive]
      constructor
      · rintro ⟨k, a, b, hu, ha, hb⟩
        exact ⟨k, a, b, (hiff k a b).mpr (Or.inl hu), ha, hb⟩
      · rintro ⟨k, a, b, hu, ha, hb⟩
        rcases (hiff k a b).mp hu with ho | ⟨-, rfl, -⟩
        · exact ⟨k, a, b, ho, ha, hb⟩
        · exact absurd ha hp
  · obtain ⟨k, a, b, hu, rfl, hb⟩ := (hlive p cap).mp hp
    refine hok.kept hi hch hu (fun hk => ?_) hj (by omega)
    subst hk
    exact (hused a b hu.2.2).mpr (Or.inl hu.2.1)

/-- **`kmalloc` returns**: with a payload of at least `n` bytes that was nobody's, or with `NULL`
and what was held is held. -/
theorem Good.kmalloc (h : Good live s) (n : UInt32) :
    ∃ p s', kmalloc n s = some (p, s') ∧
      ((p = 0 ∧ Good live s' ∧ Same live s.ram s'.ram) ∨ Added live s n.toNat p s') := by
  unfold Mm.kmalloc
  split
  · exact ⟨_, _, rfl, Or.inl ⟨rfl, h.fail, Same.refl _⟩⟩
  next hn =>
  obtain ⟨hzero, hlarge⟩ := not_or.mp hn
  have hpos : 0 < n.toNat := Nat.pos_of_ne_zero fun hz => hzero (UInt32.toNat_inj.mp hz)
  have hround : n.toNat ≤ round n.toNat ∧ round n.toNat ≤ n.toNat + 15 ∧ round n.toNat % 16 = 0 := by
    unfold round maxTop at *
    omega
  obtain ⟨need, hneed⟩ : ∃ need, round n.toNat + hdrSize = need := ⟨_, rfl⟩
  dsimp only
  rw [hneed]
  have hfacts : 32 ≤ need ∧ need % 16 = 0 ∧ n.toNat ≤ need - 16 ∧ need ≤ 2 ^ 30 := by
    unfold hdrSize maxTop at *
    omega
  obtain ⟨h32, hal, hle, htop⟩ := hfacts
  rcases h.pass h32 hal with hmiss | ⟨p, s', hhit, hadd⟩
  swap
  · rw [hhit]
    obtain ⟨cap, hcap, hgood⟩ := hadd.good
    exact ⟨_, _, rfl, Or.inr { hadd with good := ⟨cap, by omega, hgood⟩ }⟩
  rw [hmiss]
  obtain ⟨hgood₁, hsame₁⟩ := h.chunkAdd htop
  generalize Mm.chunkAdd need s = r at hgood₁ hsame₁
  obtain ⟨slot, s₁⟩ := r
  cases slot with
  | none => exact ⟨_, _, rfl, Or.inl ⟨rfl, hgood₁.fail, hsame₁⟩⟩
  | some i =>
    dsimp only at hgood₁ hsame₁ ⊢
    rcases hgood₁.pass h32 hal with hmiss | ⟨p, s', hhit, hadd⟩
    · rw [hmiss]
      exact ⟨_, _, rfl, Or.inl ⟨rfl, hgood₁.fail, hsame₁⟩⟩
    · rw [hhit]
      obtain ⟨cap, hcap, hgood⟩ := hadd.good
      exact ⟨_, _, rfl, Or.inr { hadd with
        good := ⟨cap, by omega, hgood⟩, same := hsame₁.trans hadd.same }⟩

/-! ## Pointers -/

theorem chunkOf_some {p : Nat} {i : Fin 16} (h : chunkOf p s = some i) :
    (s.chunks i).base ≠ 0 ∧ (s.chunks i).base + 16 ≤ p
      ∧ p < (s.chunks i).base + (s.chunks i).bytes := by
  have hp := List.find?_some h
  exact of_decide_eq_true hp

/-- **The chunk of a live payload.** -/
theorem chunkOf_used {lay : Fin 16 → List Blk} (hok : Ok lay s.pg s.chunks) {i : Fin 16} {a : Nat}
    {b : Blk} (hu : UsedAt lay s.chunks i a b) : chunkOf (a + 16) s = some i := by
  have hr := (hok.tiled i hu.1).range hu.2.1
  have hsz := ((hok.tiled i hu.1).sizes b hu.2.1.mem).1
  cases hc : chunkOf (a + 16) s with
  | none =>
    have hno := List.find?_eq_none.mp hc i (List.mem_finRange i)
    refine absurd ?_ hno
    exact decide_eq_true ⟨hu.1, by unfold hdrSize; omega, by omega⟩
  | some k =>
    obtain ⟨hk, hle, hlt⟩ := chunkOf_some hc
    by_cases hki : k = i
    · rw [hki]
    · rcases hok.apart k i hki hk hu.1 with hab | hab <;> omega

/-- **A pointer that passes the tests of `kfree` is a live payload.** -/
theorem Ok.used_of_magic {lay : Fin 16 → List Blk} (hok : Ok lay s.pg s.chunks) {p : Nat}
    {i : Fin 16} (hc : chunkOf p s = some i) (hal : (p - (s.chunks i).base) % 16 = 0)
    (hmagic : magic s.ram (p - hdrSize) = magicUsed) :
    ∃ b, UsedAt lay s.chunks i (p - 16) b ∧ p = p - 16 + 16 ∧ ∃ cap, b.size = cap + 16 := by
  obtain ⟨hi, hle, hlt⟩ := chunkOf_some hc
  have hbase := (hok.placed hi).aligned
  obtain ⟨b, hb, hu⟩ := (hok.tiled i hi).tagged (p - 16) (by omega) (by omega) (by omega) hmagic
  have hsz := ((hok.tiled i hi).sizes b hb.mem).1
  exact ⟨b, ⟨hi, hb, hu⟩, by omega, b.size - 16, by omega⟩

/-- **What is not live is refused**, and counted. -/
theorem Good.kfree_refused (h : Good live s) {p : Nat} (hp : live p = none) (hne : p ≠ 0) :
    kfree p s = (false, s.bad) := by
  obtain ⟨lay, hok, hlive⟩ := h
  unfold Mm.kfree
  rw [if_neg hne]
  cases hc : chunkOf p s with
  | none => rfl
  | some i =>
    dsimp only
    split
    · rfl
    next hal =>
    rw [if_pos]
    refine Or.inl fun hmagic => ?_
    obtain ⟨b, hu, hpa, cap, hcap⟩ := hok.used_of_magic hc (not_not.mp hal) hmagic
    have := (hlive p cap).mpr ⟨i, _, b, hu, hpa, hcap⟩
    rw [hp] at this
    exact nomatch this

/-- **`mm_usable` is the length of a live payload**, and `0` of anything else. -/
theorem Good.usable (h : Good live s) (p : Nat) : usable p s = (live p).getD 0 := by
  obtain ⟨lay, hok, hlive⟩ := h
  unfold Mm.usable
  cases hl : live p with
  | none =>
    cases hc : chunkOf p s with
    | none => rfl
    | some i =>
      dsimp only
      split
      · rfl
      next hal =>
      rw [if_neg]
      · rfl
      intro hmagic
      obtain ⟨b, hu, hpa, cap, hcap⟩ := hok.used_of_magic hc (not_not.mp hal) hmagic
      have := (hlive p cap).mpr ⟨i, _, b, hu, hpa, hcap⟩
      rw [hl] at this
      exact nomatch this
  | some cap =>
    obtain ⟨i, a, b, hu, rfl, hb⟩ := (hlive p cap).mp hl
    have ht := hok.tiled i hu.1
    have hal := ht.aligned (hok.placed hu.1) hu.2.1
    have hbase := (hok.placed hu.1).aligned
    have htop := (hok.placed hu.1).top
    have hr := ht.range hu.2.1
    obtain ⟨prev, hh⟩ := ht.header hu.2.1
    have hmagic : magic s.ram a = magicUsed := hh.tag.trans (tag_eq_used.mpr hu.2.2)
    have hsize : size s.ram a = b.size := hh.size
    rw [chunkOf_used hok hu]
    dsimp only
    rw [if_neg (by omega), show a + 16 - hdrSize = a from rfl, if_pos hmagic, hsize, hb]
    show _ = cap
    unfold hdrSize
    omega

/-! ## Writing into a payload -/

/-- What a client, `kzalloc` or `krealloc` writes into a live payload. -/
theorem Good.fill (h : Good live s) {p cap : Nat} (hp : live p = some cap) {ram : Block}
    (hout : ∀ j, j < p ∨ p + cap ≤ j → ram j = s.ram j)
    (hmagic : ∀ a, a % 16 = 0 → p ≤ a → a < p + cap → ram.le32 (a + 8) ≠ magicUsed) :
    Good live (s.onRam fun _ => ram) ∧ Same (Function.update live p none) s.ram ram := by
  obtain ⟨lay, hok, hlive⟩ := h
  obtain ⟨i, a, ⟨sz, used⟩, hu, rfl, hb⟩ := (hlive p cap).mp hp
  have hb : sz = cap + 16 := hb
  obtain rfl : used = true := hu.2.2
  have ht := hok.tiled i hu.1
  have hal := ht.aligned (hok.placed hu.1) hu.2.1
  obtain ⟨pre, post, hlay, hat⟩ := id hu.2.1
  have htl : Tiled s.ram (s.chunks i) (pre ++ ([⟨sz, true⟩] ++ post)) := hlay ▸ ht
  obtain ⟨⟨hh, -⟩, hpost, hsum, -⟩ := htl.part
  have hsz : 32 ≤ sz := (htl.sizes ⟨sz, true⟩ (by simp)).1
  have hrep : Replaced s.ram (s.chunks i) pre [⟨sz, true⟩] post ram [⟨sz, true⟩] := by
    refine htl.replace ⟨?_, trivial⟩ (fun b hb => htl.sizes b ?_) rfl ?_ (fun hne => ?_) ?_
      (hok.placed hu.1)
    · exact hh.congr fun k hk => hout _ (Or.inl (by omega))
    · exact List.mem_append_right _ (List.mem_append_left _ hb)
    · intro j hj
      simp only [total_cons, total_nil] at hj
      exact hout j (by omega)
    · cases post with
      | nil => exact absurd rfl hne
      | cons x post =>
        rw [← hpost.1.prev]
        refine Block.le32_congr fun k hk => hout _ (Or.inr ?_)
        simp only [total_cons, total_nil]
        omega
    · intro a' hle hlt hal' hused
      simp only [total_cons, total_nil] at hlt
      by_cases ha' : a' = a
      · exact ⟨⟨sz, true⟩, by simp [ha', hat], rfl⟩
      · exact absurd hused (hmagic a' hal' (by omega) (by omega))
  have hm : Merged (lay i) := hok.merged i hu.1
  have htl' : Tiled ram (s.chunks i) (lay i) := hlay ▸ hrep.tiled
  have hchange := hok.change hu.1 htl' hm hrep.outside
  rw [Function.update_eq_self] at hchange
  refine ⟨⟨lay, hchange, hlive⟩, fun p' cap' hp' j hj hlt => ?_⟩
  have hpne : p' ≠ a + 16 := by
    rintro rfl
    rw [Function.update_self] at hp'
    exact nomatch hp'
  rw [Function.update_of_ne hpne] at hp'
  obtain ⟨i', a', b', hu', rfl, hb'⟩ := (hlive p' cap').mp hp'
  refine hout j ?_
  rcases hok.blocks_apart hu' hu with ⟨-, rfl, -⟩ | hab | hab
  · exact absurd rfl hpne
  · exact Or.inl (by omega)
  · have hab : a + sz ≤ a' := hab
    exact Or.inr (by omega)

/-! ## `kfree` -/

/-- What is left when the payload `p` is given back. -/
structure Removed (live : Nat → Option Nat) (s : Heap) (p : Nat) (s' : Heap) : Prop where
  good : Good (Function.update live p none) s'
  same : Same (Function.update live p none) s.ram s'.ram

/-- A block that fills its chunk is the only one. -/
theorem Tiled.eq_singleton {ram : Block} {c : Chunk} {bs : List Blk} {a : Nat} {b : Blk}
    (ht : Tiled ram c bs) (hb : At bs c.base a b) (hfull : b.size = c.bytes) : bs = [b] := by
  obtain ⟨pre, post, rfl, -⟩ := hb
  have hsum := ht.fills
  rw [total_append, total_cons, hfull] at hsum
  have hnil : ∀ l : List Blk, (∀ x ∈ l, 32 ≤ x.size) → total l = 0 → l = [] := by
    intro l hl hzero
    have := length_le_total hl
    exact List.length_eq_zero_iff.mp (by omega)
  rw [hnil pre (fun x hx => (ht.sizes x (List.mem_append_left _ hx)).1) (by omega),
    hnil post (fun x hx => (ht.sizes x (List.mem_append_right _ (List.mem_cons_of_mem _ hx))).1)
      (by omega)]
  rfl

/-- **A live payload is given back**, and nobody else notices. -/
theorem Good.kfree (h : Good live s) {p cap : Nat} (hp : live p = some cap) :
    (kfree p s).1 = true ∧ Removed live s p (kfree p s).2 := by
  obtain ⟨lay, hok, hlive⟩ := h
  obtain ⟨i, a, ⟨sz, used⟩, hu, rfl, hb⟩ := (hlive p cap).mp hp
  obtain rfl : used = true := hu.2.2
  have ht := hok.tiled i hu.1
  have hplaced := hok.placed hu.1
  have hal := ht.aligned hplaced hu.2.1
  have hbase := hplaced.aligned
  have htop := hplaced.top
  have hr : (s.chunks i).base ≤ a ∧ a + sz ≤ (s.chunks i).base + (s.chunks i).bytes :=
    ht.range hu.2.1
  have hsz : 32 ≤ sz := (ht.sizes _ hu.2.1.mem).1
  obtain ⟨prev, hh⟩ := ht.header hu.2.1
  have hmagic : magic s.ram a = magicUsed := hh.tag
  have hsize : size s.ram a = sz := hh.size
  obtain ⟨pre, post, hlay, hat⟩ := id hu.2.1
  have hm := hok.merged i hu.1
  rw [hlay] at ht hm
  obtain ⟨bs', b', hch, hm', hb', hfree, hused⟩ := ht.release hplaced hm
  rw [← hlay, ← hat] at hch hused
  rw [← hat] at hb'
  -- the layout that is left, and who holds what in it
  have hnew : Ok (Function.update lay i bs')
      { s.pg with ram := (release (s.chunks i) a s.ram).2 } s.chunks :=
    hok.change hu.1 hch.tiled hm' hch.outside
  have hiff : ∀ k x b, UsedAt (Function.update lay i bs') s.chunks k x b ↔
      UsedAt lay s.chunks k x b ∧ x ≠ a := by
    intro k x b
    rw [usedAt_update hu.1]
    by_cases hk : k = i
    · subst hk
      rw [if_pos rfl]
      constructor
      · rintro ⟨hx, hux⟩
        exact ⟨⟨hu.1, ((hused x b hux).mp hx).1, hux⟩, ((hused x b hux).mp hx).2⟩
      · rintro ⟨hux, hne⟩
        exact ⟨(hused x b hux.2.2).mpr ⟨hux.2.1, hne⟩, hux.2.2⟩
    · rw [if_neg hk]
      refine (and_iff_left_of_imp fun hux hxa => ?_).symm
      subst hxa
      rcases hok.blocks_apart hux hu with ⟨hki, -⟩ | hab | hab
      · exact hk hki
      · have := ((hok.tiled k hux.1).sizes b hux.2.1.mem).1
        omega
      · have hab : x + sz ≤ x := hab
        omega
  have hlive' : ∀ p cap, Function.update live (a + 16) none p = some cap ↔
      ∃ k x b, UsedAt (Function.update lay i bs') s.chunks k x b ∧ p = x + 16 ∧ b.size = cap + 16 := by
    intro p cap
    by_cases hpa : p = a + 16
    · rw [hpa, Function.update_self]
      refine iff_of_false (fun hc => nomatch hc) ?_
      rintro ⟨k, x, b, hux, hxa, -⟩
      exact ((hiff k x b).mp hux).2 (by omega)
    · rw [Function.update_of_ne hpa, hlive]
      refine exists_congr fun k => exists_congr fun x => exists_congr fun b => ?_
      rw [hiff]
      constructor
      · rintro ⟨hux, hpx, hcap⟩
        exact ⟨⟨hux, fun hxa => hpa (by omega)⟩, hpx, hcap⟩
      · rintro ⟨⟨hux, -⟩, hpx, hcap⟩
        exact ⟨hux, hpx, hcap⟩
  have hsame : Same (Function.update live (a + 16) none) s.ram (release (s.chunks i) a s.ram).2 := by
    intro p' cap' hp' j hj hlt
    obtain ⟨k, x, b, hux, rfl, hcap⟩ := (hlive' p' cap').mp hp'
    refine hok.kept hu.1 hch ((hiff k x b).mp hux).1 (fun hk => ?_) hj (by omega)
    subst hk
    exact (hused x b hux.2.2).mpr ⟨((hiff k x b).mp hux).1.2.1, ((hiff k x b).mp hux).2⟩
  have hfreeSize : size (release (s.chunks i) a s.ram).2 (release (s.chunks i) a s.ram).1 = b'.size := by
    obtain ⟨prev', hh'⟩ := hch.tiled.header hb'
    exact hh'.size
  unfold Mm.kfree
  rw [if_neg (by omega), chunkOf_used hok hu]
  dsimp only
  rw [if_neg (by omega), show a + 16 - hdrSize = a from rfl, hmagic, hsize, if_neg ?pass]
  case pass =>
    rw [Nat.mod_eq_of_lt (by omega)]
    unfold hdrSize
    omega
  rw [show mergePrev (s.chunks i) a (mergeNext (s.chunks i) a (setMagic a magicFree s.ram))
    = release (s.chunks i) a s.ram from rfl]
  generalize release (s.chunks i) a s.ram = r at hch hb' hnew hsame hfreeSize ⊢
  obtain ⟨h', ram'⟩ := r
  dsimp only at hch hb' hnew hsame hfreeSize ⊢
  split
  swap
  · exact ⟨rfl, ⟨_, hnew, hlive'⟩, hsame⟩
  next hfull =>
  -- the whole chunk is one free block
  have hone := hch.tiled.eq_singleton hb' (hfreeSize.symm.trans hfull.1)
  have hallFree : ∀ b ∈ Function.update lay i bs' i, b.used = false := by
    intro b hb
    rw [Function.update_self, hone] at hb
    obtain rfl := List.mem_singleton.mp hb
    exact hfree
  obtain ⟨hdrop, hdropRam⟩ := hnew.drop hu.1 hallFree
  have hiffDrop : ∀ k x b, UsedAt (Function.update lay i bs') (Function.update s.chunks i {}) k x b ↔
      UsedAt (Function.update lay i bs') s.chunks k x b := by
    intro k x b
    by_cases hk : k = i
    · subst hk
      refine iff_of_false (fun hux => ?_) fun hux => ?_
      · have hzero := hux.1
        rw [Function.update_self] at hzero
        exact hzero rfl
      · exact absurd (hux.2.2.symm.trans (hallFree b hux.2.1.mem)) (by decide)
    · unfold UsedAt
      rw [Function.update_of_ne hk]
  refine ⟨rfl, ⟨_, hdrop, fun p cap => ?_⟩, fun p' cap' hp' j hj hlt => ?_⟩
  · rw [hlive']
    exact exists_congr fun k => exists_congr fun x => exists_congr fun b =>
      and_congr_left fun _ => (hiffDrop k x b).symm
  · refine (hdropRam j ?_).trans (hsame p' cap' hp' j hj hlt)
    obtain ⟨k, x, b, hux, rfl, hcap⟩ := (hlive' p' cap').mp hp'
    have hbehind := (hnew.inPages k hux.1).behind
    have hrange := ((hnew.tiled k hux.1).range hux.2.1).1
    omega

/-! ## `kzalloc` and `krealloc` -/

/-- A payload is a number of 16-byte pieces at an aligned address. -/
theorem Good.payload (h : Good live s) {p cap : Nat} (hp : live p = some cap) :
    p % 16 = 0 ∧ cap % 16 = 0 ∧ 16 ≤ cap ∧ 16 ≤ p := by
  obtain ⟨lay, hok, hlive⟩ := h
  obtain ⟨i, a, b, hu, rfl, hb⟩ := (hlive p cap).mp hp
  have hal := (hok.tiled i hu.1).aligned (hok.placed hu.1) hu.2.1
  have hsz := (hok.tiled i hu.1).sizes b hu.2.1.mem
  omega

/-- **Two live payloads are the same, or apart.** -/
theorem Good.payloads_apart (h : Good live s) {p q cap cap' : Nat} (hp : live p = some cap)
    (hq : live q = some cap') : p = q ∨ p + cap + 16 ≤ q ∨ q + cap' + 16 ≤ p := by
  obtain ⟨lay, hok, hlive⟩ := h
  obtain ⟨i, a, b, hu, rfl, hb⟩ := (hlive p cap).mp hp
  obtain ⟨i', a', b', hu', rfl, hb'⟩ := (hlive q cap').mp hq
  rcases hok.blocks_apart hu hu' with ⟨-, rfl, -⟩ | hab | hab
  · exact Or.inl rfl
  · exact Or.inr (Or.inl (by omega))
  · exact Or.inr (Or.inr (by omega))

/-- A live payload holds nothing that looks like a used block. -/
theorem Good.unmarked (h : Good live s) {p cap a : Nat} (hp : live p = some cap) (hal : a % 16 = 0)
    (hle : p ≤ a) (hlt : a < p + cap) : s.ram.le32 (a + 8) ≠ magicUsed := by
  obtain ⟨lay, hok, hlive⟩ := h
  obtain ⟨i, x, b, hu, rfl, hb⟩ := (hlive p cap).mp hp
  have ht := hok.tiled i hu.1
  have hr := ht.range hu.2.1
  intro hmagic
  obtain ⟨b', hb', hu'⟩ := ht.tagged a (by omega) (by omega) hal hmagic
  have hsz := (ht.sizes b' hb'.mem).1
  rcases hu.2.1.apart hb' with ⟨hxa, -⟩ | hab | hab <;> omega

theorem zero_le32_ne {ram : Block} {o : Nat} (h : ∀ i < 4, ram (o + i) = 0) :
    ram.le32 o ≠ magicUsed := by
  have hz : ram.le32 o = Block.zero.le32 0 := Block.le32_congr fun i hi => (h i hi).trans rfl
  rw [hz]
  decide

/-- **`kzalloc` is `kmalloc`, and the payload is cleared.** -/
theorem Good.kzalloc (h : Good live s) (n : UInt32) :
    ∃ p s', kzalloc n s = some (p, s') ∧
      ((p = 0 ∧ Good live s' ∧ Same live s.ram s'.ram) ∨ Added live s n.toNat p s') := by
  obtain ⟨p, s', heq, hor⟩ := h.kmalloc n
  unfold Mm.kzalloc
  rw [heq]
  refine ⟨_, _, rfl, ?_⟩
  rcases hor with ⟨rfl, hgood⟩ | hadd
  · exact Or.inl ⟨rfl, hgood⟩
  refine Or.inr ?_
  rw [if_neg hadd.ne]
  obtain ⟨cap, hcap, hgood⟩ := hadd.good
  have hp : Function.update live p (some cap) p = some cap := Function.update_self _ _ _
  have hpay := hgood.payload hp
  have hround : round n.toNat ≤ cap ∧ round n.toNat % 16 = 0 := by
    unfold round
    omega
  obtain ⟨hfill, hsame⟩ := @Good.fill _ _ hgood _ _ hp (cleared s'.ram p (round n.toNat)) (fun j hj => by
      unfold cleared
      rw [if_neg (by omega)]) fun a hal hle hlt => by
    by_cases hin : a < p + round n.toNat
    · refine zero_le32_ne fun i hi => ?_
      unfold cleared
      rw [if_pos (by omega)]
    · have hold := hgood.unmarked hp hal hle hlt
      intro hmagic
      refine hold ?_
      rw [← hmagic]
      refine Block.le32_congr fun i hi => ?_
      unfold cleared
      rw [if_neg (by omega)]
  refine ⟨hadd.fresh, hadd.ne, ⟨cap, hcap, hfill⟩, hadd.same.trans ?_⟩
  rw [Function.update_idem] at hsame
  have hne : Function.update live p none = live := by
    rw [← hadd.fresh]
    exact Function.update_eq_self p live
  rw [hne] at hsame
  exact hsame

end

end Mm
