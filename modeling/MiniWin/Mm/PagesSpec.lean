import MiniWin.Lib.RunSearch
import MiniWin.Mm.Pages
import Mathlib.Data.Finset.Card
import Mathlib.Order.Interval.Finset.Nat

/-!
# The page allocator: what holds of every run

Pages that are handed out are nobody else's until they are given back, the free pages are
counted, and a run of free pages is found wherever it is. The bitmap has a bit for each page
except when `mm_init_region` rounds the last pages away; and a run given back must not reach
past the end of the 32 bits its pages are numbered with.
-/

namespace Mm

/-- The pages whose bit is clear. -/
def Pages.clear (s : Pages) : Finset Nat :=
  (Finset.Ico s.bitmap_pages s.npages).filter fun p => s.used p = false

@[simp] theorem Pages.mem_clear {s : Pages} {p : Nat} :
    p ∈ s.clear ↔ (s.bitmap_pages ≤ p ∧ p < s.npages) ∧ s.used p = false := by
  simp [clear]

/-- `k` contiguous pages are free, from page `first` on. -/
def Pages.Run (s : Pages) (first k : Nat) : Prop :=
  0 < k ∧ s.bitmap_pages ≤ first ∧ first + k ≤ s.npages
    ∧ FreeRun (fun p => !s.used p) first k

theorem Pages.Run.subset {s : Pages} {first k : Nat} (h : s.Run first k) :
    Finset.Ico first (first + k) ⊆ s.clear := by
  intro q hq
  obtain ⟨hle, hlt⟩ := Finset.mem_Ico.mp hq
  have hfree := h.2.2.2 q hle hlt
  have := h.2.1
  have := h.2.2.1
  exact Pages.mem_clear.mpr ⟨⟨by omega, by omega⟩, by simpa using hfree⟩

/-! ## Single operations -/

theorem setBit_bitmap (s : Pages) (p : Nat) (on : Bool) :
    (setBit p on s).bitmap = s.bitmap.setBit p on := by
  funext i
  unfold setBit Pages.bitmap Block.setBit
  by_cases hi : i = p / 8
  · subst hi; simp
  · have hne : s.base + i ≠ s.base + p / 8 := by omega
    rw [Function.update_of_ne hi]
    exact Function.update_of_ne hne _ _

theorem setBit_used (s : Pages) (p q : Nat) (on : Bool) :
    (setBit p on s).used q = if q = p then on else s.used q := by
  rw [Pages.used, setBit_bitmap, Block.testBit_setBit]
  rfl

/-- What a run of bits written leaves. -/
structure BitsSet (s : Pages) (on : Bool) (f len : Nat) (s' : Pages) : Prop where
  used : ∀ q, s'.used q = if f ≤ q ∧ q < f + len then on else s.used q
  touched : ∀ i ∈ s'.touched, i ∈ s.touched ∨ ∃ p, f ≤ p ∧ p < f + len ∧ i = p / 8
  ram : ∀ a, (∀ p, f ≤ p → p < f + len → a ≠ s.base + p / 8) → s'.ram a = s.ram a
  rest : s' = { s with ram := s'.ram, touched := s'.touched }

theorem setBits_spec (on : Bool) : ∀ (len f : Nat) (s : Pages), BitsSet s on f len (setBits on len f s)
  | 0, f, s =>
    { used := fun q => by rw [if_neg (by omega)]; rfl
      touched := fun i hi => Or.inl hi
      ram := fun _ _ => rfl
      rest := rfl }
  | len + 1, f, s => by
    have ih := setBits_spec on len (f + 1) (setBit f on s)
    refine ⟨fun q => ?_, fun i hi => ?_, fun a ha => ?_, ?_⟩
    · rw [setBits, ih.used, setBit_used]
      by_cases hf : q = f
      · rw [if_neg (by omega), if_pos hf, if_pos (by omega)]
      · rw [if_neg hf]
        exact if_congr (by omega) rfl rfl
    · rcases ih.touched i hi with hi | ⟨p, hle, hlt, rfl⟩
      · rcases List.mem_cons.mp hi with rfl | hi
        · exact Or.inr ⟨f, by omega, by omega, rfl⟩
        · exact Or.inl hi
      · exact Or.inr ⟨p, by omega, by omega, rfl⟩
    · rw [setBits, ih.ram a fun p hle hlt => ha p (by omega) (by omega)]
      exact Function.update_of_ne (ha f (by omega) (by omega)) _ _
    · rw [setBits, ih.rest]
      rfl

/-- The search of the source is the search for a run of clear bits, and it looks at no other. -/
theorem scan_eq (n : Nat) : ∀ (len p run : Nat) (s : Pages), ∃ t,
    scan n len p run s
        = (findRun (fun q => !s.used q) n len p run, { s with touched := t ++ s.touched })
      ∧ ∀ i ∈ t, ∃ q, p ≤ q ∧ q < p + len ∧ i = q / 8
  | 0, p, run, s => ⟨[], rfl, fun i hi => nomatch hi⟩
  | len + 1, p, run, s => by
    have hp : ∀ i ∈ [p / 8], ∃ q, p ≤ q ∧ q < p + (len + 1) ∧ i = q / 8 := fun i hi =>
      ⟨p, by omega, by omega, List.mem_singleton.mp hi⟩
    have hnext : ∀ run', ∃ t, scan n len (p + 1) run' { s with touched := p / 8 :: s.touched }
        = (findRun (fun q => !s.used q) n len (p + 1) run', { s with touched := t ++ s.touched })
        ∧ ∀ i ∈ t, ∃ q, p ≤ q ∧ q < p + (len + 1) ∧ i = q / 8 := by
      intro run'
      obtain ⟨t, ht, hmem⟩ := scan_eq n len (p + 1) run' { s with touched := p / 8 :: s.touched }
      refine ⟨t ++ [p / 8], ?_, fun i hi => ?_⟩
      · rw [ht, List.append_assoc]
        rfl
      · rcases List.mem_append.mp hi with hi | hi
        · obtain ⟨q, hle, hlt, rfl⟩ := hmem i hi
          exact ⟨q, by omega, by omega, rfl⟩
        · exact hp i hi
    unfold scan findRun bit
    cases hu : s.used p with
    | true => exact hnext 0
    | false =>
      dsimp only
      rw [if_pos (show (!false) = true from rfl)]
      split
      · exact ⟨[p / 8], rfl, hp⟩
      · exact hnext (run + 1)

/-- The test in front of a run that is given back. -/
theorem allUsed_eq : ∀ (len f : Nat) (s : Pages), ∃ t,
    (allUsed len f s).2 = { s with touched := t ++ s.touched }
      ∧ (∀ i ∈ t, ∃ q, f ≤ q ∧ q < f + len ∧ i = q / 8)
      ∧ ((allUsed len f s).1 = true → ∀ q, f ≤ q → q < f + len → s.used q = true)
  | 0, f, s => ⟨[], rfl, fun i hi => (nomatch hi), fun _ q h₁ h₂ => absurd h₁ (by omega)⟩
  | len + 1, f, s => by
    unfold allUsed bit
    cases hu : s.used f with
    | false =>
      exact ⟨[f / 8], rfl, fun i hi => ⟨f, by omega, by omega, List.mem_singleton.mp hi⟩,
        fun h => nomatch h⟩
    | true =>
      obtain ⟨t, ht, hmem, hall⟩ := allUsed_eq len (f + 1) { s with touched := f / 8 :: s.touched }
      refine ⟨t ++ [f / 8], ?_, fun i hi => ?_, fun h q hle hlt => ?_⟩
      · dsimp only
        rw [ht, List.append_assoc]
        rfl
      · rcases List.mem_append.mp hi with hi | hi
        · obtain ⟨q, hle, hlt, rfl⟩ := hmem i hi
          exact ⟨q, by omega, by omega, rfl⟩
        · exact ⟨f, by omega, by omega, List.mem_singleton.mp hi⟩
      · rcases Nat.eq_or_lt_of_le hle with rfl | hlt'
        · exact hu
        · exact hall h q hlt' (by omega)

/-! ## The bitmap and what it counts -/

/-- The bitmap has a bit for every page. -/
structure Fits (s : Pages) : Prop where
  base : s.base ≠ 0
  small : s.npages < 2 ^ 20
  room : s.bitmap_pages < s.npages
  bits : s.npages ≤ s.bitmap_pages * pageSize * 8
  hint_le : s.bitmap_pages ≤ s.hint
  hint_lt : s.hint < s.npages

/-- **The state and the pages that are handed out**, a set of them for each run. -/
structure Sound (live : List (Finset Nat)) (s : Pages) : Prop extends Fits s where
  count : s.clear.card = s.free_pg
  held : ∀ run ∈ live, ∀ q ∈ run, (s.bitmap_pages ≤ q ∧ q < s.npages) ∧ s.used q = true
  apart : live.Pairwise Disjoint
  inside : ∀ i ∈ s.touched, i < s.bitmap_pages * pageSize

theorem Fits.inside {s : Pages} (h : Fits s) {q : Nat} (hq : q < s.npages) :
    q / 8 < s.bitmap_pages * pageSize := by
  have := h.bits
  omega

theorem card_clear_le (s : Pages) : s.clear.card ≤ s.npages := by
  have hle := Finset.card_filter_le (Finset.Ico s.bitmap_pages s.npages) fun p => s.used p = false
  rw [Nat.card_Ico] at hle
  unfold Pages.clear
  omega

/-- What a call that hands out `n` pages from page `first` on leaves. -/
structure Taken (s : Pages) (first n : Nat) (zero : Bool) (s' : Pages) : Prop where
  run : s.Run first n
  used : ∀ q < s.npages, s'.used q = if first ≤ q ∧ q < first + n then true else s.used q
  free_pg : s'.free_pg = s.free_pg - n
  hint : s.bitmap_pages ≤ s'.hint ∧ s'.hint < s.npages
  touched : ∀ i ∈ s'.touched, i ∈ s.touched ∨ i < s.bitmap_pages * pageSize
  /-- Nothing else is written, the pages themselves and the bitmap apart. -/
  ram : ∀ a, ¬ (s.base ≤ a ∧ a < s.base + s.bitmap_pages * pageSize) →
    (zero = true → ¬ (s.base + first * pageSize ≤ a ∧ a < s.base + (first + n) * pageSize)) →
    s'.ram a = s.ram a
  rest : s' = { s with ram := s'.ram, touched := s'.touched, free_pg := s'.free_pg, hint := s'.hint }

/-- The bits that were read before do not matter. -/
theorem Taken.of_touched {s s' : Pages} {first n : Nat} {zero : Bool} {t : List Nat}
    (h : Taken { s with touched := t ++ s.touched } first n zero s')
    (ht : ∀ i ∈ t, i < s.bitmap_pages * pageSize) : Taken s first n zero s' :=
  { h with
    touched := fun i hi => by
      rcases h.touched i hi with hi | hi
      · rcases List.mem_append.mp hi with hi | hi
        · exact Or.inr (ht i hi)
        · exact Or.inl hi
      · exact Or.inr hi }

theorem take_spec {s : Pages} (h : Fits s) {n p : Nat} (zero : Bool) (hrun : s.Run (p + 1 - n) n)
    (hn : n ≤ p + 1) (hp : p < s.npages) :
    (take n p zero s).1 = s.base + (p + 1 - n) * pageSize
      ∧ Taken s (p + 1 - n) n zero (take n p zero s).2 := by
  obtain ⟨first, hfirst⟩ : ∃ first, p + 1 - n = first := ⟨_, rfl⟩
  rw [hfirst] at hrun ⊢
  have hset := setBits_spec true n first s
  obtain ⟨-, hle, hend, -⟩ := id hrun
  have hroom := h.room
  have hsmall := h.small
  unfold take
  rw [hfirst]
  dsimp only
  generalize setBits true n first s = s₁ at hset ⊢
  obtain ⟨hused, htouched, hram, hrest⟩ := hset
  have hbase : s₁.base = s.base := by rw [hrest]
  have hnp : s₁.npages = s.npages := by rw [hrest]
  have hbm : s₁.bitmap_pages = s.bitmap_pages := by rw [hrest]
  have hfree : s₁.free_pg = s.free_pg := by rw [hrest]
  have hsize : n * pageSize % 2 ^ 32 = n * pageSize := Nat.mod_eq_of_lt (by unfold pageSize; omega)
  have hhint : s.bitmap_pages ≤ (if p + 1 < s₁.npages then p + 1 else s₁.bitmap_pages)
      ∧ (if p + 1 < s₁.npages then p + 1 else s₁.bitmap_pages) < s.npages := by
    rw [hnp, hbm]
    split <;> omega
  have hbits : ∀ i ∈ s₁.touched, i ∈ s.touched ∨ i < s.bitmap_pages * pageSize := by
    intro i hi
    rcases htouched i hi with hi | ⟨q, -, hq, rfl⟩
    · exact Or.inl hi
    · exact Or.inr (h.inside (by omega))
  have hkeep : ∀ a, ¬ (s.base ≤ a ∧ a < s.base + s.bitmap_pages * pageSize) →
      s₁.ram a = s.ram a := by
    intro a ha
    refine hram a fun q _ hq => ?_
    have := h.inside (q := q) (by omega)
    omega
  cases zero with
  | false =>
    refine ⟨by rw [hbase], hrun, fun q _ => hused q, by rw [← hfree]; rfl, hhint, hbits,
      fun a ha _ => hkeep a ha, ?_⟩
    rw [hrest]
    rfl
  | true =>
    refine ⟨by rw [hbase], hrun, fun q hq => ?_, by rw [← hfree]; rfl, hhint, hbits,
      fun a ha hz => ?_, ?_⟩
    · rw [← hused q]
      -- the pages that are cleared are behind the bitmap
      have hin := h.inside hq
      have hbehind : ¬ (s₁.base + first * pageSize ≤ s₁.base + q / 8) := by
        have : s.bitmap_pages * pageSize ≤ first * pageSize := Nat.mul_le_mul_right _ hle
        omega
      show Block.testBit (fun i => cleared s₁.ram (s₁.base + first * pageSize)
        (n * pageSize % 2 ^ 32) (s₁.base + i)) q = s₁.bitmap.testBit q
      unfold Block.testBit cleared
      dsimp only
      rw [if_neg fun hc => hbehind hc.1]
      rfl
    · have hz := hz rfl
      show cleared s₁.ram (s₁.base + first * pageSize) (n * pageSize % 2 ^ 32) a = s.ram a
      unfold cleared
      rw [hsize, hbase, if_neg fun hc => hz ⟨hc.1, by rw [Nat.add_mul]; omega⟩]
      exact hkeep a ha
    · rw [hrest]
      rfl

/-- **What `mm_pages_alloc_z` does**: it finds a run of free pages if there is one. -/
theorem pagesAlloc_cases {s : Pages} (h : Fits s) (hcount : s.clear.card = s.free_pg) (n : UInt32)
    (zero : Bool) :
    (∃ t failed, pagesAlloc n zero s = (none, { s with failed := failed, touched := t ++ s.touched })
      ∧ (∀ i ∈ t, i < s.bitmap_pages * pageSize) ∧ ¬ ∃ first, s.Run first n.toNat)
    ∨ ∃ first, (pagesAlloc n zero s).1 = some (s.base + first * pageSize)
      ∧ Taken s first n.toNat zero (pagesAlloc n zero s).2 := by
  have hfreeLe : s.free_pg ≤ s.npages := hcount ▸ card_clear_le s
  have hsmall := h.small
  have hhint := h.hint_lt
  have hhintLe := h.hint_le
  unfold pagesAlloc
  split
  · next hc =>
    refine Or.inl ⟨[], _, rfl, fun i hi => (nomatch hi), ?_⟩
    rintro ⟨first, hrun⟩
    rcases hc with hb | hz | hmany
    · exact h.base hb
    · rw [hz] at hrun; exact absurd hrun.1 (by decide)
    · have hcard := Finset.card_le_card hrun.subset
      rw [Nat.card_Ico] at hcard
      omega
  next hc =>
  obtain ⟨-, hne, hmany⟩ := by simpa only [not_or] using hc
  have hpos : 0 < n.toNat := Nat.pos_of_ne_zero fun hz => hne (UInt32.toNat_inj.mp hz)
  have hempty : ∀ p, FreeRun (fun q => !s.used q) (p - 0) 0 := fun p q h₁ h₂ => absurd h₁ (by omega)
  obtain ⟨t₁, hscan₁, hin₁⟩ := scan_eq n.toNat (s.npages - s.hint) s.hint 0 s
  have hin₁ : ∀ i ∈ t₁, i < s.bitmap_pages * pageSize := by
    intro i hi
    obtain ⟨q, -, hq, rfl⟩ := hin₁ i hi
    exact h.inside (by omega)
  rw [hscan₁]
  cases hfind₁ : findRun (fun q => !s.used q) n.toNat (s.npages - s.hint) s.hint 0 with
  | some p =>
    obtain ⟨hlt, hn, hle, hrun⟩ := findRun_sound (Nat.zero_le _) (hempty _) hfind₁
    have hp : p < s.npages := by omega
    have hrun : s.Run (p + 1 - n.toNat) n.toNat := ⟨hpos, by omega, by omega, hrun⟩
    have hfits : Fits { s with touched := t₁ ++ s.touched } := { h with }
    obtain ⟨hr, htaken⟩ := take_spec hfits zero hrun hn hp
    exact Or.inr ⟨p + 1 - n.toNat, by rw [← hr], htaken.of_touched hin₁⟩
  | none =>
    dsimp only
    have hstop : (s.hint + n.toNat) % 2 ^ 32 = s.hint + n.toNat := Nat.mod_eq_of_lt (by omega)
    rw [hstop]
    obtain ⟨stop, hstop⟩ : ∃ stop, min (s.hint + n.toNat) s.npages = stop := ⟨_, rfl⟩
    have hstopLe : stop ≤ s.npages := by omega
    rw [hstop]
    obtain ⟨t₂, hscan₂, hin₂⟩ := scan_eq n.toNat (stop - s.bitmap_pages) s.bitmap_pages 0
      { s with touched := t₁ ++ s.touched }
    have hin₂ : ∀ i ∈ t₂ ++ t₁, i < s.bitmap_pages * pageSize := by
      intro i hi
      rcases List.mem_append.mp hi with hi | hi
      · obtain ⟨q, -, hq, rfl⟩ := hin₂ i hi
        exact h.inside (by omega)
      · exact hin₁ i hi
    rw [hscan₂, ← List.append_assoc]
    cases hfind₂ : findRun (fun q => !s.used q) n.toNat (stop - s.bitmap_pages) s.bitmap_pages 0 with
    | some p =>
      have hfind : findRun (fun q => !Pages.used { s with touched := t₁ ++ s.touched } q) n.toNat
        (stop - s.bitmap_pages) s.bitmap_pages 0 = some p := hfind₂
      obtain ⟨hlt, hn, hle, hrun⟩ := findRun_sound (Nat.zero_le _) (hempty _) hfind₂
      have hp : p < s.npages := by omega
      have hrun : s.Run (p + 1 - n.toNat) n.toNat := ⟨hpos, by omega, by omega, hrun⟩
      have hfits : Fits { s with touched := t₂ ++ t₁ ++ s.touched } := { h with }
      obtain ⟨hr, htaken⟩ := take_spec hfits zero hrun hn hp
      rw [hfind]
      exact Or.inr ⟨p + 1 - n.toNat, by rw [← hr], htaken.of_touched hin₂⟩
    | none =>
      have hfind : findRun (fun q => !Pages.used { s with touched := t₁ ++ s.touched } q) n.toNat
        (stop - s.bitmap_pages) s.bitmap_pages 0 = none := hfind₂
      rw [hfind]
      refine Or.inl ⟨t₂ ++ t₁, _, rfl, hin₂, ?_⟩
      rintro ⟨first, -, hle, hend, hrun⟩
      -- a run that begins at the hint or later is found in the first pass, any other in the second
      by_cases hlate : s.hint ≤ first
      · have := findRun_complete (Nat.zero_le _) hpos hfind₁ hlate hrun
        omega
      · have := findRun_complete (Nat.zero_le _) hpos hfind₂ hle hrun
        omega

/-- What a call that takes back `n` pages from page `first` on leaves. -/
structure Given (s : Pages) (first n : Nat) (s' : Pages) : Prop where
  pos : 0 < n
  range : s.bitmap_pages ≤ first ∧ first + n ≤ s.npages
  held : ∀ q, first ≤ q → q < first + n → s.used q = true
  used : ∀ q, s'.used q = if first ≤ q ∧ q < first + n then false else s.used q
  free_pg : s'.free_pg = (s.free_pg + n) % 2 ^ 32
  hint : s.bitmap_pages ≤ s'.hint ∧ s'.hint < s.npages
  touched : ∀ i ∈ s'.touched, i ∈ s.touched ∨ i < s.bitmap_pages * pageSize
  ram : ∀ a, ¬ (s.base ≤ a ∧ a < s.base + s.bitmap_pages * pageSize) → s'.ram a = s.ram a
  rest : s' = { s with ram := s'.ram, touched := s'.touched, free_pg := s'.free_pg, hint := s'.hint }

/-- A run that passes the test for its end really ends there: `first + n` keeps its 32 bits. -/
def NoWrap (s : Pages) (p n : UInt32) : Prop :=
  s.base ≤ p.toNat → (p.toNat - s.base) % pageSize = 0 → s.bitmap_pages ≤ s.pageOf p.toNat →
    (s.pageOf p.toNat + n.toNat) % 2 ^ 32 ≤ s.npages → s.pageOf p.toNat + n.toNat < 2 ^ 32

/-- **What `mm_pages_free` does**: all of the run is given back, or nothing is. -/
theorem pagesFree_cases {s : Pages} (h : Fits s) {p n : UInt32} (hw : NoWrap s p n) :
    (∃ t bad, pagesFree p n s = (false, { s with bad_frees := bad, touched := t ++ s.touched })
      ∧ ∀ i ∈ t, i < s.bitmap_pages * pageSize)
    ∨ (pagesFree p n s).1 = true ∧ p.toNat = s.base + s.pageOf p.toNat * pageSize
      ∧ Given s (s.pageOf p.toNat) n.toNat (pagesFree p n s).2 := by
  have hsmall := h.small
  unfold pagesFree
  dsimp only
  split
  · exact Or.inl ⟨[], _, rfl, fun i hi => nomatch hi⟩
  next hc =>
  obtain ⟨-, hbase, halign, hne⟩ := by simpa only [not_or] using hc
  have hpos : 0 < n.toNat := Nat.pos_of_ne_zero fun hz => hne (UInt32.toNat_inj.mp hz)
  have halign := not_not.mp halign
  have haddr : p.toNat = s.base + s.pageOf p.toNat * pageSize := by
    have := Nat.div_add_mod (p.toNat - s.base) pageSize
    unfold Pages.pageOf
    rw [Nat.mul_comm]
    omega
  have hw := hw (Nat.not_lt.mp hbase) halign
  generalize s.pageOf p.toNat = first at hw haddr ⊢
  split
  · exact Or.inl ⟨[], _, rfl, fun i hi => nomatch hi⟩
  next hrange =>
  obtain ⟨hle, hend⟩ := not_or.mp hrange
  have hw := hw (Nat.not_lt.mp hle) (Nat.not_lt.mp hend)
  rw [Nat.mod_eq_of_lt hw] at hend ⊢
  rw [Nat.add_sub_cancel_left]
  obtain ⟨t, ht, hin, hall⟩ := allUsed_eq n.toNat first s
  have hin : ∀ i ∈ t, i < s.bitmap_pages * pageSize := by
    intro i hi
    obtain ⟨q, -, hq, rfl⟩ := hin i hi
    exact h.inside (by omega)
  generalize allUsed n.toNat first s = r at ht hall
  obtain ⟨found, s₁⟩ := r
  cases found with
  | false => exact Or.inl ⟨t, _, by rw [show s₁ = _ from ht], hin⟩
  | true =>
    have ht : s₁ = { s with touched := t ++ s.touched } := ht
    obtain ⟨hused, htouched, hram, hrest⟩ := setBits_spec false n.toNat first s₁
    dsimp only
    generalize setBits false n.toNat first s₁ = s₂ at hused htouched hram hrest ⊢
    refine Or.inr ⟨rfl, haddr, hpos, by omega, hall rfl, fun q => ?_, ?_, ?_, fun i hi => ?_,
      fun a ha => ?_, ?_⟩
    · rw [ht] at hused
      exact hused q
    · rw [hrest, ht]
    · rw [hrest, ht]
      have := h.hint_le
      dsimp only
      split <;> omega
    · rcases htouched i hi with hi | ⟨q, -, hq, rfl⟩
      · rw [ht] at hi
        rcases List.mem_append.mp hi with hi | hi
        · exact Or.inr (hin i hi)
        · exact Or.inl hi
      · exact Or.inr (h.inside (by omega))
    · refine (hram a fun q _ hq => ?_).trans (by rw [ht])
      have := h.inside (q := q) (by omega)
      rw [ht]
      dsimp only
      omega
    · rw [hrest, ht]

/-! ## Every run of calls -/

section
variable {live : List (Finset Nat)} {s s' : Pages} {first n : Nat}

theorem Sound.of_touched (h : Sound live s) {t : List Nat} {failed bad : UInt32}
    (ht : ∀ i ∈ t, i < s.bitmap_pages * pageSize) :
    Sound live { s with failed := failed, bad_frees := bad, touched := t ++ s.touched } :=
  { h with
    inside := fun i hi => by
      rcases List.mem_append.mp hi with hi | hi
      · exact ht i hi
      · exact h.inside i hi }

/-- **Pages that are handed out were nobody's.** -/
theorem Sound.taken (h : Sound live s) {zero : Bool} (ht : Taken s first n zero s') :
    Sound (Finset.Ico first (first + n) :: live) s' := by
  have hbm : s'.bitmap_pages = s.bitmap_pages := by rw [ht.rest]
  have hnp : s'.npages = s.npages := by rw [ht.rest]
  have hbase : s'.base = s.base := by rw [ht.rest]
  have hrun := ht.run
  have hin : ∀ q, first ≤ q ∧ q < first + n → s.bitmap_pages ≤ q ∧ q < s.npages := by
    intro q hq
    have := hrun.2.1
    have := hrun.2.2.1
    omega
  have hclear : s'.clear = s.clear \ Finset.Ico first (first + n) := by
    ext q
    rw [Finset.mem_sdiff, Pages.mem_clear, Pages.mem_clear, Finset.mem_Ico, hbm, hnp]
    constructor
    · rintro ⟨hr, hq⟩
      rw [ht.used q hr.2] at hq
      split at hq
      · exact nomatch hq
      · next hno => exact ⟨⟨hr, hq⟩, hno⟩
    · rintro ⟨⟨hr, hq⟩, hno⟩
      exact ⟨hr, by rw [ht.used q hr.2, if_neg hno]; exact hq⟩
  refine ⟨⟨?_, ?_, ?_, ?_, ?_, ?_⟩, ?_, ?_, ?_, ?_⟩
  · rw [hbase]; exact h.base
  · rw [hnp]; exact h.small
  · rw [hbm, hnp]; exact h.room
  · rw [hbm, hnp]; exact h.bits
  · rw [hbm]; exact ht.hint.1
  · rw [hnp]; exact ht.hint.2
  · rw [hclear, Finset.card_sdiff_of_subset hrun.subset, Nat.card_Ico, h.count, ht.free_pg]
    omega
  · intro run hmem q hq
    rw [hbm, hnp]
    rcases List.mem_cons.mp hmem with rfl | hmem
    · have hr := hin q (Finset.mem_Ico.mp hq)
      exact ⟨hr, by rw [ht.used q hr.2, if_pos (Finset.mem_Ico.mp hq)]⟩
    · obtain ⟨hr, hu⟩ := h.held run hmem q hq
      refine ⟨hr, ?_⟩
      rw [ht.used q hr.2, hu]
      split <;> rfl
  · refine List.pairwise_cons.mpr ⟨fun run hmem => ?_, h.apart⟩
    rw [Finset.disjoint_left]
    intro q hq hqrun
    have hfree := (Pages.mem_clear.mp (hrun.subset hq)).2
    exact absurd ((h.held run hmem q hqrun).2.symm.trans hfree) (by decide)
  · intro i hi
    rw [hbm]
    rcases ht.touched i hi with hi | hi
    · exact h.inside i hi
    · exact hi

/-- **Pages that are given back are free again.** -/
theorem Sound.given (h : Sound live s) (ht : Given s first n s') :
    Sound (live.map (· \ Finset.Ico first (first + n))) s' := by
  have hbm : s'.bitmap_pages = s.bitmap_pages := by rw [ht.rest]
  have hnp : s'.npages = s.npages := by rw [ht.rest]
  have hbase : s'.base = s.base := by rw [ht.rest]
  have hin : ∀ q, first ≤ q ∧ q < first + n → s.bitmap_pages ≤ q ∧ q < s.npages := by
    intro q hq
    have := ht.range
    omega
  have hclear : s'.clear = s.clear ∪ Finset.Ico first (first + n) := by
    ext q
    rw [Finset.mem_union, Pages.mem_clear, Pages.mem_clear, Finset.mem_Ico, hbm, hnp, ht.used]
    constructor
    · rintro ⟨hr, hq⟩
      split at hq
      · next hyes => exact Or.inr hyes
      · exact Or.inl ⟨hr, hq⟩
    · rintro (⟨hr, hq⟩ | hq)
      · refine ⟨hr, ?_⟩
        split
        · rfl
        · exact hq
      · exact ⟨hin q hq, if_pos hq⟩
  have hdisj : Disjoint s.clear (Finset.Ico first (first + n)) := by
    rw [Finset.disjoint_left]
    intro q hq hmem
    obtain ⟨hle, hlt⟩ := Finset.mem_Ico.mp hmem
    exact absurd ((ht.held q hle hlt).symm.trans (Pages.mem_clear.mp hq).2) (by decide)
  refine ⟨⟨?_, ?_, ?_, ?_, ?_, ?_⟩, ?_, ?_, ?_, ?_⟩
  · rw [hbase]; exact h.base
  · rw [hnp]; exact h.small
  · rw [hbm, hnp]; exact h.room
  · rw [hbm, hnp]; exact h.bits
  · rw [hbm]; exact ht.hint.1
  · rw [hnp]; exact ht.hint.2
  · have hcard : (s.clear ∪ Finset.Ico first (first + n)).card = s.free_pg + n := by
      rw [Finset.card_union_of_disjoint hdisj, h.count, Nat.card_Ico]
      omega
    have hle := card_clear_le s'
    have hsmall := h.small
    rw [hclear, hcard, hnp] at hle
    rw [hclear, hcard, ht.free_pg]
    omega
  · intro run hmem q hq
    obtain ⟨run, hrun, rfl⟩ := List.mem_map.mp hmem
    obtain ⟨hq, hno⟩ := Finset.mem_sdiff.mp hq
    rw [hbm, hnp, ht.used, if_neg fun hc => hno (Finset.mem_Ico.mpr hc)]
    exact h.held run hrun q hq
  · exact List.pairwise_map.mpr (h.apart.imp fun hd =>
      hd.mono Finset.sdiff_subset Finset.sdiff_subset)
  · intro i hi
    rw [hbm]
    rcases ht.touched i hi with hi | hi
    · exact h.inside i hi
    · exact hi

theorem Fits.used_of_ram (h : Fits s) {ram : Block}
    (hram : ∀ i < s.bitmap_pages * pageSize, ram (s.base + i) = s.ram (s.base + i)) {q : Nat}
    (hq : q < s.npages) : Pages.used { s with ram := ram } q = s.used q := by
  show Block.testBit (fun i => ram (s.base + i)) q = s.bitmap.testBit q
  unfold Block.testBit
  dsimp only
  rw [hram _ (h.inside hq)]
  rfl

/-- Only the bitmap decides what is free. -/
theorem Sound.of_ram (h : Sound live s) {ram : Block}
    (hram : ∀ i < s.bitmap_pages * pageSize, ram (s.base + i) = s.ram (s.base + i)) :
    Sound live { s with ram := ram } := by
  have hused := fun q => h.toFits.used_of_ram hram (q := q)
  have hclear : Pages.clear { s with ram := ram } = s.clear := by
    ext p
    rw [Pages.mem_clear, Pages.mem_clear]
    exact and_congr_right fun hr => by rw [hused p hr.2]
  exact
    { h with
      count := by rw [hclear]; exact h.count
      held := fun run hrun q hq => by
        obtain ⟨hr, hu⟩ := h.held run hrun q hq
        exact ⟨hr, by rw [hused q hr.2]; exact hu⟩ }

/-- What the owner of a page writes into it is not in the bitmap. -/
theorem Sound.written (h : Sound live s) {run : Finset Nat} (hrun : run ∈ live) {q a : Nat}
    (hq : q ∈ run) (ha : s.base + q * pageSize ≤ a) (v : UInt8) :
    Sound live { s with ram := Function.update s.ram a v } := by
  obtain ⟨⟨hle, -⟩, -⟩ := h.held run hrun q hq
  have hbehind : s.bitmap_pages * pageSize ≤ q * pageSize := Nat.mul_le_mul_right _ hle
  exact h.of_ram fun i hi => Function.update_of_ne (by omega) _ _

end

/-- The pages of a region whose bitmap `mm_init_region` has room for: it takes `n / 8` bytes and
rounds up to pages. -/
def BitmapFits (n : Nat) : Prop := n % 32768 = 0 ∨ 8 ≤ n % 32768

theorem initRegion_sound {base bytes : UInt32} {ram : Block} {s : Pages}
    (h : initRegion base bytes ram = some s) (hfits : BitmapFits (bytes.toNat / pageSize)) :
    Sound [] s := by
  unfold initRegion at h
  dsimp only at h
  split at h
  · exact nomatch h
  next hc =>
  obtain ⟨hbase, hn, -⟩ := by simpa only [not_or] using hc
  obtain rfl := Option.some.inj h
  generalize hnp : bytes.toNat / pageSize = n at hn hfits ⊢
  have hlt : n < 2 ^ 20 := by
    have := bytes.toNat_lt
    rw [← hnp]
    unfold pageSize
    omega
  have hbm : n ≤ (n / 8 + pageSize - 1) / pageSize * pageSize * 8
      ∧ (n / 8 + pageSize - 1) / pageSize < n := by
    unfold BitmapFits at hfits
    unfold pageSize
    omega
  generalize (n / 8 + pageSize - 1) / pageSize = bm at hbm ⊢
  have hset := setBits_spec true bm 0
    { base := base.toNat, npages := n, bitmap_pages := bm, hint := bm, free_pg := n - bm
      ram := cleared ram base.toNat (bm * pageSize)
      touched := List.range (bm * pageSize) }
  generalize setBits true bm 0 _ = s at hset ⊢
  obtain ⟨hused, htouched, -, hrest⟩ := hset
  have hfree : ∀ q, bm ≤ q → q < n → s.used q = false := by
    intro q hle hlt
    rw [hused, if_neg (by omega)]
    have hin : q / 8 < bm * pageSize := by omega
    show Block.testBit (fun i => cleared ram base.toNat (bm * pageSize) (base.toNat + i)) q = false
    unfold Block.testBit cleared
    dsimp only
    rw [if_pos (by omega)]
    exact Nat.zero_testBit _
  have hclear : s.clear = Finset.Ico bm n := by
    ext q
    rw [Pages.mem_clear, hrest, Finset.mem_Ico]
    constructor
    · exact fun hq => hq.1
    · exact fun hq => ⟨hq, by rw [← hrest]; exact hfree q hq.1 hq.2⟩
  have hbase : base.toNat ≠ 0 := fun hz => hbase (UInt32.toNat_inj.mp hz)
  refine ⟨⟨?_, ?_, ?_, ?_, ?_, ?_⟩, ?_, fun run hrun => ?_, List.Pairwise.nil, fun i hi => ?_⟩
  · rw [hrest]; exact hbase
  · rw [hrest]; exact hlt
  · rw [hrest]; exact hbm.2
  · rw [hrest]; exact hbm.1
  · rw [hrest]
  · rw [hrest]; exact hbm.2
  · rw [hclear, Nat.card_Ico, hrest]
  · exact absurd hrun List.not_mem_nil
  · rw [hrest]
    rcases htouched i hi with hi | ⟨q, -, hq, rfl⟩
    · exact List.mem_range.mp hi
    · show q / 8 < bm * pageSize
      omega

/-- What a fresh region is, and that the memory behind its bitmap is as it was. -/
theorem initRegion_spec {base bytes : UInt32} {ram : Block} {s : Pages}
    (h : initRegion base bytes ram = some s) :
    s.base = base.toNat ∧ s.npages = bytes.toNat / pageSize ∧ base.toNat % pageSize = 0
      ∧ ∀ a, base.toNat + s.bitmap_pages * pageSize ≤ a → s.ram a = ram a := by
  unfold initRegion at h
  dsimp only at h
  split at h
  · exact nomatch h
  next hc =>
  obtain ⟨-, -, hal⟩ := by simpa only [not_or] using hc
  obtain rfl := Option.some.inj h
  generalize (bytes.toNat / pageSize / 8 + pageSize - 1) / pageSize = bm
  have hset := setBits_spec true bm 0
    { base := base.toNat, npages := bytes.toNat / pageSize, bitmap_pages := bm, hint := bm
      free_pg := bytes.toNat / pageSize - bm
      ram := cleared ram base.toNat (bm * pageSize)
      touched := List.range (bm * pageSize) }
  generalize setBits true bm 0 _ = s at hset ⊢
  obtain ⟨-, -, hram, hrest⟩ := hset
  refine ⟨by rw [hrest], by rw [hrest], by simpa using hal, fun a ha => ?_⟩
  have hbm : s.bitmap_pages = bm := by rw [hrest]
  rw [hbm] at ha
  refine (hram a fun p _ hp => ?_).trans (if_neg ?_)
  · show a ≠ base.toNat + p / 8
    unfold pageSize at ha
    omega
  · omega

/-- **The runs of the allocator** on some region: the pages of every run that was handed out, as
far as they were not given back, and the state. `sizes` says which page counts the region may
have, and `frees` which calls of `mm_pages_free` may come. -/
inductive Reaches (sizes : Nat → Prop) (frees : Pages → UInt32 → UInt32 → Prop) :
    List (Finset Nat) → Pages → Prop where
  | init {base bytes : UInt32} {ram : Block} {s : Pages}
      (hmem : base.toNat + bytes.toNat ≤ 2 ^ 32) (hn : sizes (bytes.toNat / pageSize))
      (h : initRegion base bytes ram = some s) : Reaches sizes frees [] s
  | alloc {live : List (Finset Nat)} {s : Pages} {r : Nat} (n : UInt32) (zero : Bool)
      (h : Reaches sizes frees live s) (hr : (pagesAlloc n zero s).1 = some r) :
    Reaches sizes frees (Finset.Ico (s.pageOf r) (s.pageOf r + n.toNat) :: live)
      (pagesAlloc n zero s).2
  | noAlloc {live : List (Finset Nat)} {s : Pages} (n : UInt32) (zero : Bool)
      (h : Reaches sizes frees live s) (hr : (pagesAlloc n zero s).1 = none) :
    Reaches sizes frees live (pagesAlloc n zero s).2
  | free {live : List (Finset Nat)} {s : Pages} (p n : UInt32) (h : Reaches sizes frees live s)
      (hf : frees s p n) (hr : (pagesFree p n s).1 = true) :
    Reaches sizes frees
      (live.map (· \ Finset.Ico (s.pageOf p.toNat) (s.pageOf p.toNat + n.toNat)))
      (pagesFree p n s).2
  | noFree {live : List (Finset Nat)} {s : Pages} (p n : UInt32) (h : Reaches sizes frees live s)
      (hf : frees s p n) (hr : (pagesFree p n s).1 = false) :
    Reaches sizes frees live (pagesFree p n s).2
  /-- The owner of a page writes into it. -/
  | write {live : List (Finset Nat)} {s : Pages} {run : Finset Nat} {q : Nat} (a : Nat) (v : UInt8)
      (h : Reaches sizes frees live s) (hrun : run ∈ live) (hq : q ∈ run)
      (ha : s.base + q * pageSize ≤ a) (hlt : a < s.base + (q + 1) * pageSize) :
    Reaches sizes frees live { s with ram := Function.update s.ram a v }

/-- **The page allocator keeps its promises.** -/
structure PagesSafe (live : List (Finset Nat)) (s : Pages) : Prop where
  /-- Every byte of the bitmap that was touched is in the first `mm_bitmap_pages` pages. -/
  touched : ∀ i ∈ s.touched, i < s.bitmap_pages * pageSize
  /-- No page is handed out twice. -/
  apart : live.Pairwise Disjoint
  inside : ∀ run ∈ live, ∀ q ∈ run, s.bitmap_pages ≤ q ∧ q < s.npages
  /-- `mm_free_pg` is the number of clear bits. -/
  count : s.free_pg = s.clear.card
  /-- A run of `k` free pages is found if there is one. -/
  complete : ∀ (k : UInt32) (zero : Bool), (pagesAlloc k zero s).1 = none →
    ¬ ∃ first, s.Run first k.toNat

theorem Reaches.sound {live : List (Finset Nat)} {s : Pages} (h : Reaches BitmapFits NoWrap live s) :
    Sound live s := by
  induction h with
  | init hmem hn h => exact initRegion_sound h hn
  | @alloc live s r n zero _ hr ih =>
    rcases pagesAlloc_cases ih.toFits ih.count n zero with ⟨t, failed, heq, -⟩ | ⟨first, hfirst, ht⟩
    · rw [heq] at hr; exact nomatch hr
    · obtain rfl := Option.some.inj (hr.symm.trans hfirst)
      have hpage : s.pageOf (s.base + first * pageSize) = first := by
        unfold Pages.pageOf
        rw [Nat.add_sub_cancel_left]
        exact Nat.mul_div_cancel _ (by decide)
      rw [hpage]
      exact ih.taken ht
  | @noAlloc live s n zero _ hr ih =>
    rcases pagesAlloc_cases ih.toFits ih.count n zero with ⟨t, failed, heq, ht, -⟩ | ⟨first, hfirst, -⟩
    · rw [heq]; exact ih.of_touched ht
    · rw [hfirst] at hr; exact nomatch hr
  | @free live s p n _ hw hr ih =>
    rcases pagesFree_cases ih.toFits hw with ⟨t, bad, heq, -⟩ | ⟨-, -, hg⟩
    · rw [heq] at hr; exact nomatch hr
    · exact ih.given hg
  | @noFree live s p n _ hw hr ih =>
    rcases pagesFree_cases ih.toFits hw with ⟨t, bad, heq, ht⟩ | ⟨hyes, -⟩
    · rw [heq]; exact ih.of_touched ht
    · exact absurd (hyes.symm.trans hr) (by decide)
  | write a v _ hrun hq ha _ ih => exact ih.written hrun hq ha v

/-- **The allocator is safe in every run** on a region its bitmap has room for, when no run is
given back that reaches past the end of the page numbers. -/
theorem pages_safe {live : List (Finset Nat)} {s : Pages} (h : Reaches BitmapFits NoWrap live s) :
    PagesSafe live s := by
  have hs := h.sound
  refine ⟨hs.inside, hs.apart, fun run hrun q hq => (hs.held run hrun q hq).1, hs.count.symm, ?_⟩
  intro k zero hnone
  rcases pagesAlloc_cases hs.toFits hs.count k zero with ⟨t, failed, -, -, hno⟩ | ⟨first, hfirst, -⟩
  · exact hno
  · rw [hfirst] at hnone; exact nomatch hnone

/-- Eight pages at `0x900000`. -/
def firstPages : Pages :=
  (initRegion 0x900000 0x8000 Block.zero).getD ⟨0, 0, 0, 0, 0, 0, 0, Block.zero, []⟩

theorem firstPages_init : initRegion 0x900000 0x8000 Block.zero = some firstPages := rfl

/-- Three pages are handed out and the middle one is given back. -/
theorem pages_safe_three :
    (pagesAlloc 3 true firstPages).1 = some 0x901000
    ∧ (pagesFree 0x902000 1 (pagesAlloc 3 true firstPages).2).1 = true
    ∧ PagesSafe [{1, 3}] (pagesFree 0x902000 1 (pagesAlloc 3 true firstPages).2).2 := by
  have hsome : (pagesAlloc 3 true firstPages).1 = some 0x901000 := by decide +kernel
  have hfree : (pagesFree 0x902000 1 (pagesAlloc 3 true firstPages).2).1 = true := by decide +kernel
  have hinit : Reaches BitmapFits NoWrap [] firstPages :=
    .init (by decide) (Or.inr (by decide)) firstPages_init
  have hrun := (hinit.alloc 3 true hsome).free 0x902000 1 (fun _ _ _ _ => by decide +kernel) hfree
  refine ⟨hsome, hfree, ?_⟩
  have hlive : [Finset.Ico (firstPages.pageOf 0x901000)
        (firstPages.pageOf 0x901000 + (3 : UInt32).toNat)].map
      (· \ Finset.Ico ((pagesAlloc 3 true firstPages).2.pageOf (0x902000 : UInt32).toNat)
        ((pagesAlloc 3 true firstPages).2.pageOf (0x902000 : UInt32).toNat + (1 : UInt32).toNat))
      = [{1, 3}] := by decide +kernel
  rw [hlive] at hrun
  exact pages_safe hrun

/-- Neither condition can be dropped. In a region of `32769` pages the bit of the last page is in
the byte behind the only page of the bitmap; and when one page is handed out and `2 ^ 32 - 1`
pages are given back there, no bit changes and the count does. -/
theorem pages_unsafe :
    (¬ ∀ (live : List (Finset Nat)) (s : Pages),
      Reaches (fun _ => True) NoWrap live s → PagesSafe live s)
    ∧ ¬ ∀ (live : List (Finset Nat)) (s : Pages),
      Reaches BitmapFits (fun _ _ _ => True) live s → PagesSafe live s := by
  constructor
  · intro h
    obtain ⟨s, hs⟩ : ∃ s, initRegion 0x900000 0x8001000 Block.zero = some s := ⟨_, rfl⟩
    have hinit : Reaches (fun _ => True) NoWrap [] s := .init (by decide) trivial hs
    obtain rfl := Option.some.inj hs
    have hrun := hinit.noFree 0x8900000 1 (fun _ _ _ _ => by decide +kernel) (by decide +kernel)
    have hhead : ((pagesFree 0x8900000 1 (setBits true 1 0
        { base := 0x900000, npages := 32769, bitmap_pages := 1, hint := 1, free_pg := 32768
          ram := cleared Block.zero 0x900000 4096, touched := List.range 4096 })).2.touched.head?)
        = some 4096 := by decide +kernel
    have hin := (h _ _ hrun).touched 4096 (List.mem_of_mem_head? hhead)
    exact absurd hin (by decide +kernel)
  · intro h
    have hsome : (pagesAlloc 1 false firstPages).1 = some 0x901000 := by decide +kernel
    have hinit : Reaches BitmapFits (fun _ _ _ => True) [] firstPages :=
      .init (by decide) (Or.inr (by decide)) firstPages_init
    have hrun := (hinit.alloc 1 false hsome).free 0x901000 0xFFFFFFFF trivial (by decide +kernel)
    have hcount := (h _ _ hrun).count
    exact absurd hcount (by decide +kernel)

end Mm
