import MiniWin.Mm.PagesSpec

/-!
# The page allocator: giving back, all or nothing

`mm_pages_free` in any state, with any pointer and any number of pages. The end of the run is
computed in 32 bits, and a number near `2 ^ 32` carries it past them: then the run in front of the
computed end is empty, no page is looked at, and the call is accepted.
-/

namespace Mm

variable {s : Pages} {p n : UInt32}

/-- The `n` pages from page `first` on are given back, and nothing else changes. -/
structure Freed (s : Pages) (first n : Nat) (s' : Pages) : Prop where
  pos : 0 < n
  range : s.bitmap_pages ≤ first ∧ first + n ≤ s.npages
  held : ∀ q, first ≤ q → q < first + n → s.used q = true
  used : ∀ q, s'.used q = if first ≤ q ∧ q < first + n then false else s.used q
  free_pg : s'.free_pg = (s.free_pg + n) % 2 ^ 32
  hint : s'.hint = min first s.hint
  /-- Of the memory, only the bytes of the bitmap with these bits are written. -/
  ram : ∀ a, (∀ q, first ≤ q → q < first + n → a ≠ s.base + q / 8) → s'.ram a = s.ram a
  rest : s' = { s with ram := s'.ram, touched := s'.touched, free_pg := s'.free_pg, hint := s'.hint }

/-- The call is counted as a bad one, and no more. -/
def Refused (s s' : Pages) : Prop :=
  ∃ t, s' = { s with bad_frees := s.bad_frees + 1, touched := t ++ s.touched }

/-- **All of the run is given back, or none of it is** and the call is refused. -/
def AllOrNothing (s : Pages) (p n : UInt32) : Prop :=
  ((pagesFree p n s).1 = true ∧ s.base ≠ 0 ∧ p.toNat = s.base + s.pageOf p.toNat * pageSize
    ∧ Freed s (s.pageOf p.toNat) n.toNat (pagesFree p n s).2)
  ∨ ((pagesFree p n s).1 = false ∧ Refused s (pagesFree p n s).2)

/-- The run passes every test on the pointer, and its end only because it is computed in 32
bits. -/
structure Carries (s : Pages) (p n : UInt32) : Prop where
  base : s.base ≠ 0
  base_le : s.base ≤ p.toNat
  aligned : (p.toNat - s.base) % pageSize = 0
  behind : s.bitmap_pages ≤ s.pageOf p.toNat
  carry : 2 ^ 32 ≤ s.pageOf p.toNat + n.toNat
  stop_le : s.pageOf p.toNat + n.toNat - 2 ^ 32 ≤ s.npages

theorem pageOf_lt (s : Pages) (p : UInt32) : s.pageOf p.toNat < 2 ^ 20 := by
  have := p.toNat_lt
  unfold Pages.pageOf pageSize
  omega

/-- **A run that carries is accepted, and no bit of it is cleared.** -/
theorem Carries.pagesFree (h : Carries s p n) : pagesFree p n s
    = (true, { s with
        free_pg := (s.free_pg + n.toNat) % 2 ^ 32
        hint := if s.pageOf p.toNat < s.hint then s.pageOf p.toNat else s.hint }) := by
  have hn := n.toNat_lt
  have hfirst := pageOf_lt s p
  have hcarry := h.carry
  have hstop_le := h.stop_le
  have hne : n ≠ 0 := by
    rintro rfl
    rw [show (0 : UInt32).toNat = 0 from rfl] at hcarry
    omega
  have hstop : (s.pageOf p.toNat + n.toNat) % 2 ^ 32 = s.pageOf p.toNat + n.toNat - 2 ^ 32 := by
    rw [Nat.mod_eq_sub_mod hcarry, Nat.mod_eq_of_lt (by omega)]
  have hempty : (s.pageOf p.toNat + n.toNat) % 2 ^ 32 - s.pageOf p.toNat = 0 := by omega
  have hrange : ¬ (s.pageOf p.toNat < s.bitmap_pages
      ∨ (s.pageOf p.toNat + n.toNat) % 2 ^ 32 > s.npages) := by
    have := h.behind
    omega
  have htests : ¬ (s.base = 0 ∨ p.toNat < s.base ∨ (p.toNat - s.base) % pageSize ≠ 0 ∨ n = 0) := by
    rintro (hb | hb | hb | hb)
    · exact h.base hb
    · exact absurd h.base_le (by omega)
    · exact hb h.aligned
    · exact hne hb
  unfold Mm.pagesFree
  rw [if_neg htests, if_neg hrange, hempty]
  rfl

/-- **Any other run is given back as a whole or refused.** -/
theorem allOrNothing_of_not_carries (h : ¬ Carries s p n) : AllOrNothing s p n := by
  have hn := n.toNat_lt
  have hfirst := pageOf_lt s p
  unfold AllOrNothing pagesFree
  dsimp only
  split
  · exact .inr ⟨rfl, [], rfl⟩
  next htests =>
  obtain ⟨hbase, hle, halign, hne⟩ := by simpa only [not_or] using htests
  have hpos : 0 < n.toNat := Nat.pos_of_ne_zero fun hz => hne (UInt32.toNat_inj.mp hz)
  have haddr : p.toNat = s.base + s.pageOf p.toNat * pageSize := by
    have := Nat.div_add_mod (p.toNat - s.base) pageSize
    unfold Pages.pageOf
    rw [Nat.mul_comm]
    omega
  split
  · exact .inr ⟨rfl, [], rfl⟩
  next hrange =>
  obtain ⟨hbehind, hstop⟩ := not_or.mp hrange
  have hplain : s.pageOf p.toNat + n.toNat < 2 ^ 32 := by
    by_contra hcarry
    refine h ⟨hbase, by omega, not_not.mp halign, by omega, by omega, ?_⟩
    rw [Nat.mod_eq_sub_mod (by omega), Nat.mod_eq_of_lt (by omega)] at hstop
    omega
  generalize s.pageOf p.toNat = first at haddr hbehind hstop hplain ⊢
  rw [Nat.mod_eq_of_lt hplain] at hstop ⊢
  rw [Nat.add_sub_cancel_left]
  obtain ⟨t, ht, -, hall⟩ := allUsed_eq n.toNat first s
  generalize allUsed n.toNat first s = r at ht hall
  obtain ⟨found, s₁⟩ := r
  dsimp only at ht
  cases found with
  | false => exact .inr ⟨rfl, t, by rw [ht]⟩
  | true =>
    obtain ⟨hused, -, hram, hrest⟩ := setBits_spec false n.toNat first s₁
    dsimp only
    generalize setBits false n.toNat first s₁ = s₂ at hused hram hrest ⊢
    rw [ht] at hused hram hrest
    refine .inl ⟨rfl, hbase, haddr, hpos, ⟨by omega, by omega⟩, hall rfl, hused, ?_, ?_, hram, ?_⟩
    · rw [hrest]
    · rw [hrest]
      dsimp only
      split <;> omega
    · rw [hrest]

/-- What carries is accepted, and its pages are not all in the region. -/
theorem Carries.not_allOrNothing (hpages : s.npages < 2 ^ 32) (h : Carries s p n) :
    ¬ AllOrNothing s p n := by
  rintro (⟨-, -, -, hfreed⟩ | ⟨hno, -⟩)
  · have := hfreed.range.2
    have := h.carry
    omega
  · rw [h.pagesFree] at hno
    exact nomatch hno

/-- **`mm_pages_free` is all or nothing exactly for the runs that do not carry**: the pointer is
refused, or the page number and the count keep their 32 bits, or what is left of the sum is still
behind the last page. -/
theorem all_or_nothing_iff (hpages : s.npages < 2 ^ 32) :
    AllOrNothing s p n ↔ ¬ Carries s p n :=
  ⟨fun h hc => hc.not_allOrNothing hpages h, allOrNothing_of_not_carries⟩

/-- One page of eight is handed out and given back. -/
theorem all_or_nothing_one : AllOrNothing (pagesAlloc 1 false firstPages).2 0x901000 1 :=
  (all_or_nothing_iff (by decide +kernel)).mpr fun h => absurd h.carry (by decide +kernel)

/-- **A run that is neither given back nor refused**: one page of eight is handed out, and
`2 ^ 32 - 1` pages are given back there. -/
theorem free_count_carries : ¬ ∀ (live : List (Finset Nat)) (s : Pages) (p n : UInt32),
    Reaches (fun _ => True) (fun _ _ _ => True) live s → AllOrNothing s p n := by
  intro h
  have hsome : (pagesAlloc 1 false firstPages).1 = some 0x901000 := by decide +kernel
  have hinit : Reaches (fun _ => True) (fun _ _ _ => True) [] firstPages :=
    .init (by decide) trivial firstPages_init
  have hcarries : Carries (pagesAlloc 1 false firstPages).2 0x901000 0xFFFFFFFF :=
    ⟨by decide +kernel, by decide +kernel, by decide +kernel, by decide +kernel,
      by decide +kernel, by decide +kernel⟩
  exact hcarries.not_allOrNothing (by decide +kernel) (h _ _ _ _ (hinit.alloc 1 false hsome))

end Mm
