import MiniWin.Mwfs.Steps

/-!
# What the allocators do

Both allocators either find nothing, and then there is nothing to be found, or
make one write that marks what they return.
-/

namespace Mwfs

variable {g : Geo} {s : St}

/-! ## Scanning the bitmap -/

/-- What a scan of bitmap sector `si` says about the bits `n` of it that it
looked at. -/
inductive Scan.Ok (g : Geo) (bit : Nat → Bool) (si : Nat) (looked : Nat → Prop) : Scan → Prop
  | next (h : ∀ n, looked n → bit (si * 4096 + n) = true ∨ si * 4096 + n < g.data_lba) :
    Ok g bit si looked .next
  | stop (l : Nat) (hclear : bit l = false) (hge : g.sectors ≤ l) : Ok g bit si looked .stop
  | hit (l : Nat) (hl : l / 4096 = si) (hclear : bit l = false) (hle : g.data_lba ≤ l)
    (hlt : l < g.sectors) : Ok g bit si looked (.hit l)

/-- Bits that are in use, or below the data area, can be passed over. -/
theorem Scan.Ok.skip {g : Geo} {bit : Nat → Bool} {si : Nat} {looked looked' : Nat → Prop}
    {r : Scan} (h : r.Ok g bit si looked)
    (hskip : ∀ n, looked' n → looked n ∨ bit (si * 4096 + n) = true ∨ si * 4096 + n < g.data_lba) :
    r.Ok g bit si looked' := by
  cases h with
  | next h => exact .next fun n hn => (hskip n hn).elim (h n) id
  | stop l hclear hge => exact .stop l hclear hge
  | hit l hl hclear hle hlt => exact .hit l hl hclear hle hlt

section Scan

variable {bit : Nat → Bool} {b : Block} {si : Nat}

theorem scanByte_ok (hb : ∀ n < 4096, b.testBit n = bit (si * 4096 + n)) {i : Nat} (hi : i < 512)
    {ks : List Nat} (hks : ∀ k ∈ ks, k < 8) :
    (scanByte g b si i ks).Ok g bit si fun n => ∃ k ∈ ks, n = i * 8 + k := by
  induction ks with
  | nil =>
    refine .next ?_
    rintro n ⟨k, hk, -⟩
    exact absurd hk (by simp)
  | cons k ks ih =>
    have hk : k < 8 := hks k List.mem_cons_self
    have ih := ih fun k' hk' => hks k' (List.mem_cons_of_mem k hk')
    have hbit : b.testBit (i * 8 + k) = bit (si * 4096 + (i * 8 + k)) :=
      hb (i * 8 + k) (by omega)
    have hadd : si * 4096 + i * 8 + k = si * 4096 + (i * 8 + k) := Nat.add_assoc _ _ _
    have hskip : bit (si * 4096 + (i * 8 + k)) = true ∨ si * 4096 + (i * 8 + k) < g.data_lba →
        (scanByte g b si i ks).Ok g bit si fun n => ∃ k' ∈ k :: ks, n = i * 8 + k' := by
      intro hor
      refine ih.skip ?_
      rintro n ⟨k', hk', rfl⟩
      rcases List.mem_cons.mp hk' with rfl | hmem
      · exact Or.inr hor
      · exact Or.inl ⟨k', hmem, rfl⟩
    unfold scanByte
    split
    · next h => exact hskip (Or.inl (by rw [← hbit, h]))
    · next h =>
      have hclear : bit (si * 4096 + i * 8 + k) = false := by
        rw [hadd, ← hbit]
        simpa using h
      dsimp only
      split
      · next hge => exact .stop _ hclear hge
      · next hlt =>
        split
        · next hd => exact hskip (Or.inr (by rw [← hadd]; exact hd))
        · next hd => exact .hit _ (by omega) hclear (by omega) (by omega)

theorem testBit_of_full {i k : Nat} (h : b i = 0xFF) (hk : k < 8) :
    b.testBit (i * 8 + k) = true := by
  have hdiv : (i * 8 + k) / 8 = i := by omega
  have hmod : (i * 8 + k) % 8 = k := by omega
  rw [Block.testBit, hdiv, hmod, h]
  clear hdiv hmod
  revert k
  decide

theorem scanBytes_ok (hb : ∀ n < 4096, b.testBit n = bit (si * 4096 + n))
    {is : List Nat} (his : ∀ i ∈ is, i < 512) :
    (scanBytes g b si is).Ok g bit si fun n => n / 8 ∈ is := by
  induction is with
  | nil => exact .next fun n hn => absurd hn (by simp)
  | cons i is ih =>
    have hi : i < 512 := his i List.mem_cons_self
    have ih := ih fun i' hi' => his i' (List.mem_cons_of_mem i hi')
    have hskip : (∀ k < 8, bit (si * 4096 + (i * 8 + k)) = true
          ∨ si * 4096 + (i * 8 + k) < g.data_lba) →
        (scanBytes g b si is).Ok g bit si fun n => n / 8 ∈ i :: is := by
      intro hor
      refine ih.skip fun n hn => ?_
      rcases List.mem_cons.mp hn with hni | hmem
      · have := hor (n % 8) (by omega)
        rw [show i * 8 + n % 8 = n by omega] at this
        exact Or.inr this
      · exact Or.inl hmem
    unfold scanBytes
    split
    · next hfull =>
      refine hskip fun k hk => Or.inl ?_
      rw [← hb (i * 8 + k) (by omega)]
      exact testBit_of_full hfull hk
    · have hbyte := scanByte_ok (g := g) hb hi (show ∀ k ∈ List.range 8, k < 8 by simp)
      cases hr : scanByte g b si i (List.range 8) with
      | next =>
        rw [hr] at hbyte
        cases hbyte with
        | next h => exact hskip fun k hk => h _ ⟨k, List.mem_range.mpr hk, rfl⟩
      | stop =>
        rw [hr] at hbyte
        cases hbyte with
        | stop l hclear hge => exact .stop l hclear hge
      | hit l =>
        rw [hr] at hbyte
        cases hbyte with
        | hit _ hl hclear hle hlt => exact .hit l hl hclear hle hlt

theorem scanSector_ok (hb : ∀ n < 4096, b.testBit n = bit (si * 4096 + n)) :
    (scanSector g b si).Ok g bit si fun n => n < 4096 := by
  unfold scanSector
  refine (scanBytes_ok (g := g) hb (show ∀ i ∈ List.range 512, i < 512 by simp)).skip fun n hn => Or.inl ?_
  exact List.mem_range.mpr (by omega)

end Scan

/-! ## Sectors -/

/-- The bits past the end of the volume are set. -/
def Padded (g : Geo) (V : View) : Prop := ∀ l, g.sectors ≤ l → V.bit l = true

theorem Inv.padded {G : Graph} {F : Forest} {V : View} (h : Inv g G F V) : Padded g V :=
  fun l hl => h.pad l fun hc => by omega

/-- What an allocation comes to. -/
def Allocated (g : Geo) (s : St) (r : Nat × St) (looked : Nat → Prop) : Prop :=
  (r = (0, s) ∧ ∀ l, looked l → g.Data l → (view g s.disk).bit l = true) ∨
    ∃ l s', r = (l, s') ∧ g.Data l ∧ (view g s.disk).bit l = false ∧
      Wrote g s s' ((view g s.disk).setBit l true)

/-- Bit `n` of bitmap sector `si`. -/
theorem bit_address (si : Nat) {n : Nat} (hn : n < 4096) :
    (si * 4096 + n) / 4096 = si ∧ (si * 4096 + n) % 4096 = n := by
  omega

theorem allocFrom_spec (hs : Sane g s) (hpad : Padded g (view g s.disk))
    (hbs : 0 < g.bitmap_sectors) (start : Nat) (passes : List Nat) :
    Allocated g s (allocFrom s start passes) fun l =>
      ∃ p ∈ passes, l / 4096 = (start + p) % g.bitmap_sectors := by
  induction passes with
  | nil => exact Or.inl ⟨rfl, fun l hl => absurd hl (by simp)⟩
  | cons p passes ih =>
    unfold allocFrom
    dsimp only
    rw [hs.geo]
    have hsi : (start + p) % g.bitmap_sectors < g.bitmap_sectors := Nat.mod_lt _ hbs
    generalize hsi' : (start + p) % g.bitmap_sectors = si at hsi ⊢
    have hlt : g.bitmap_lba + si < g.sectors := by
      have hbit : g.HasBit (si * 4096 + 0) := by
        rw [Geo.HasBit, (bit_address si (by omega)).1]
        exact hsi
      have := bitmap_lt hs hbit
      rwa [(bit_address si (by omega)).1] at this
    have hb : ∀ n < 4096, (s.disk (g.bitmap_lba + si)).testBit n
        = (view g s.disk).bit (si * 4096 + n) := by
      intro n hn
      obtain ⟨h1, h2⟩ := bit_address si hn
      show _ = if (si * 4096 + n) / 4096 < g.bitmap_sectors then _ else true
      rw [h1, h2, if_pos hsi]
    have hscan := scanSector_ok (g := g) hb
    rw [rd_eq hs hlt]
    dsimp only
    cases hr : scanSector g (s.disk (g.bitmap_lba + si)) si with
    | next =>
      rw [hr] at hscan
      cases hscan with
      | next hscan =>
        refine ih.imp (fun h => ⟨h.1, fun l hl hd => ?_⟩) id
        obtain ⟨p', hp', hlp⟩ := hl
        rcases List.mem_cons.mp hp' with rfl | hmem
        · have hl : si * 4096 + l % 4096 = l := by omega
          have hmod : l % 4096 < 4096 := by omega
          have := hscan (l % 4096) hmod
          rw [hl] at this
          exact this.resolve_right (by have := hd.le; omega)
        · exact h.2 l ⟨p', hmem, hlp⟩ hd
    | stop =>
      rw [hr] at hscan
      cases hscan with
      | stop l hclear hge =>
        rw [hpad l hge] at hclear
        exact absurd hclear (by simp)
    | hit l =>
      rw [hr] at hscan
      cases hscan with
      | hit _ hl hclear hle hlt' =>
        have hbit : g.HasBit l := by
          unfold Geo.HasBit
          omega
        have hsub : l - si * 4096 = l % 4096 := by omega
        dsimp only
        rw [wr_eq hs hlt, hsub]
        refine Or.inr ⟨l, _, rfl, ⟨hle, hlt', hbit⟩, hclear, ⟨hs.ok, ?_, hs.rd, hs.wr⟩,
          ⟨_, _, rfl⟩, ?_⟩
        · show s.vol.toGeo = g
          exact hs.geo
        · rw [← hl]
          exact view_write_bit hs.ok _ hbit true

/-- **The allocator.** It returns a clear sector of the data area and marks it,
or there is none. -/
theorem alloc_spec (hs : Sane g s) (hpad : Padded g (view g s.disk)) :
    Allocated g s (alloc s) fun _ => True := by
  unfold alloc
  rw [hs.geo]
  by_cases hbs : g.bitmap_sectors = 0
  · -- a bitmap of no sectors: nothing can be handed out
    rw [hbs]
    refine Or.inl ⟨rfl, fun l _ hl => ?_⟩
    have := hl.bit
    unfold Geo.HasBit at this
    omega
  · refine (allocFrom_spec hs hpad (by omega) _ _).imp (fun h => ⟨h.1, fun l _ hl => ?_⟩) id
    refine h.2 l ?_ hl
    -- the passes go round the bitmap once, so they meet every sector of it
    have hlt : l / 4096 < g.bitmap_sectors := hl.bit
    generalize hst : (if g.bitmap_sectors ≤ s.vol.cur_blk / 4096 then 0
      else s.vol.cur_blk / 4096) = st
    have hst' : st < g.bitmap_sectors := by
      rw [← hst]
      split <;> omega
    by_cases hge : st ≤ l / 4096
    · refine ⟨l / 4096 - st, List.mem_range.mpr (by omega), ?_⟩
      rw [show st + (l / 4096 - st) = l / 4096 by omega, Nat.mod_eq_of_lt hlt]
    · refine ⟨g.bitmap_sectors - st + l / 4096, List.mem_range.mpr (by omega), ?_⟩
      rw [show st + (g.bitmap_sectors - st + l / 4096) = l / 4096 + g.bitmap_sectors by omega,
        Nat.add_mod_right, Nat.mod_eq_of_lt hlt]

/-- **A fresh, cleared sector**, in two writes. -/
theorem newZeroed_spec (hs : Sane g s) (hpad : Padded g (view g s.disk)) :
    newZeroed s = (.full, 0, s) ∨
      ∃ l s', newZeroed s = (.ok, l, s') ∧ g.Data l ∧ (view g s.disk).bit l = false ∧ Sane g s' ∧
        view g s'.disk = ((view g s.disk).setBit l true).setSec l Block.zero ∧
        ∀ Q : View → Prop, Q (view g s.disk) → Q ((view g s.disk).setBit l true) →
          Q (view g s'.disk) → Via g Q s s' := by
  unfold newZeroed
  rcases alloc_spec hs hpad with ⟨hr, -⟩ | ⟨l, s₁, hr, hl, hclear, hw⟩
  · rw [hr]
    exact Or.inl rfl
  · obtain ⟨n, rfl⟩ : ∃ n, l = n + 1 := ⟨l - 1, by have := hl.ne_zero hs.ok; omega⟩
    obtain ⟨s₂, hs₂, hw₂⟩ := wr_data hw.sane hl.le hl.lt Block.zero
    rw [hr]
    dsimp only
    rw [hs₂]
    refine Or.inr ⟨n + 1, s₂, rfl, hl, hclear, hw₂.sane, by rw [hw₂.eq, hw.eq], ?_⟩
    intro Q h0 h1 h2
    refine (hw.via h0 h1).trans (hw₂.via ?_ ?_)
    · rw [hw.eq]
      exact h1
    · rw [← hw₂.eq]
      exact h2

/-- Giving a data sector back. -/
theorem freeSector_eq (hs : Sane g s) {l : Nat} (hl : g.Data l) :
    Wrote g s (freeSector s l) ((view g s.disk).setBit l false) := by
  obtain ⟨s', hs', hw⟩ := bitSet_eq hs hl.bit false
  rw [freeSector, hs.geo, if_pos ⟨hl.le, hl.lt⟩, hs']
  exact hw

/-! ## Inodes -/

theorem Ino.fits_empty {type : Nat} (h : type < 65536) : ({ Ino.zero with type := type }).Fits :=
  { Ino.fits_zero with type := h }

theorem inoAllocFrom_spec (hs : Sane g s) {type : Nat} (ht : type < 65536) (passes : List Nat) :
    inoAllocFrom s type passes = (0, s) ∨
      ∃ i s', inoAllocFrom s type passes = (i, s') ∧ 2 ≤ i ∧ i < g.inode_count ∧
        ((view g s.disk).ino i).type = tFree ∧
        Wrote g s s' ((view g s.disk).setIno i { Ino.zero with type := type }) := by
  induction passes with
  | nil => exact Or.inl rfl
  | cons p passes ih =>
    unfold inoAllocFrom
    dsimp only
    rw [hs.geo]
    have hmin := hs.ok.minInodes
    have hlt : (s.vol.cur_ino + p) % (g.inode_count - 2) < g.inode_count - 2 :=
      Nat.mod_lt _ (by omega)
    generalize hi : 2 + (s.vol.cur_ino + p) % (g.inode_count - 2) = i
    rw [inoGet_eq hs (by omega) (by omega)]
    dsimp only
    split
    · next hfree =>
      obtain ⟨s', hs', hw⟩ := inoPut_eq hs (i := i) (by omega) (by omega) (Ino.fits_empty ht)
      rw [hs']
      refine Or.inr ⟨i, _, rfl, by omega, by omega, hfree, ⟨hs.ok, ?_, ?_, ?_⟩, ?_, ?_⟩
      · exact hw.sane.geo
      · exact hw.sane.rd
      · exact hw.sane.wr
      · exact hw.tape
      · exact hw.eq
    · exact ih

/-- **The allocator of inodes.** It returns a free one and makes it an empty one
of this type, or nothing happens. -/
theorem inoAlloc_spec (hs : Sane g s) {type : Nat} (ht : type < 65536) :
    inoAlloc s type = (0, s) ∨
      ∃ i s', inoAlloc s type = (i, s') ∧ 2 ≤ i ∧ i < g.inode_count ∧
        ((view g s.disk).ino i).type = tFree ∧
        Wrote g s s' ((view g s.disk).setIno i { Ino.zero with type := type }) :=
  inoAllocFrom_spec hs ht _

end Mwfs
