import MiniWin.Mwfs.Ops

/-!
# A volume as bits, inodes and data sectors

Every sector `kernel/mwfs.h` writes is a bitmap sector with one bit changed,
an inode-table sector with one record changed, or a data sector. `View` is a
volume read that way, and the lemmas here say that each writer of the model
changes one component of the view at one place. Everything above reasons about
views and no longer about byte offsets.
-/

namespace Mwfs

/-- What `mwfs_geometry` guarantees. -/
structure Geo.Ok (g : Geo) : Prop where
  bitmap_lba : g.bitmap_lba = 1
  bitmap_sectors : g.bitmap_sectors = (g.sectors + 4095) % 4294967296 / 4096
  itable_lba : g.itable_lba = 1 + g.bitmap_sectors
  inode_count : g.inode_count = 8 * g.itable_sectors
  data_lba : g.data_lba = g.itable_lba + g.itable_sectors
  room : g.data_lba + 8 ≤ g.sectors
  lt : g.sectors < 4294967296
  minInodes : 32 ≤ g.inode_count
  maxInodes : g.inode_count ≤ 16384

theorem inodesFor_spec (n : Nat) :
    32 ≤ inodesFor n ∧ inodesFor n ≤ 16384 ∧ inodesFor n = 8 * (inodesFor n / 8) := by
  have hclamp : ∀ m, 32 ≤ m ∧ m ≤ 16384 →
      32 ≤ (m + 7) / 8 * 8 ∧ (m + 7) / 8 * 8 ≤ 16384 ∧
        (m + 7) / 8 * 8 = 8 * ((m + 7) / 8 * 8 / 8) := by
    intro m hm
    omega
  refine hclamp _ ?_
  have hmin : minInodes = 32 := rfl
  have hmax : maxInodes = 16384 := rfl
  by_cases h1 : n / 8 < minInodes
  · rw [if_pos h1, if_neg (by omega)]
    omega
  · rw [if_neg h1]
    by_cases h2 : maxInodes < n / 8
    · rw [if_pos h2]
      omega
    · rw [if_neg h2]
      omega

theorem geometry_ok {n : Nat} (hn : n < 4294967296) {g : Geo} (h : geometry n = some g) :
    g.Ok ∧ g.sectors = n := by
  obtain ⟨hmin, hmax, hdvd⟩ := inodesFor_spec n
  unfold geometry at h
  split at h
  · exact absurd h (by simp)
  · dsimp only at h
    split at h
    · next hroom =>
      obtain rfl := Option.some.inj h
      exact ⟨⟨rfl, rfl, rfl, hdvd, rfl, hroom, hn, hmin, hmax⟩, rfl⟩
    · exact absurd h (by simp)

/-- The sector has a bit in the bitmap. All sectors have, unless the volume is
so large that its bitmap wraps to no sectors at all. -/
def Geo.HasBit (g : Geo) (l : Nat) : Prop := l / 4096 < g.bitmap_sectors

/-- A sector that can be handed out: it lies in the data area and has a bit. -/
structure Geo.Data (g : Geo) (l : Nat) : Prop where
  le : g.data_lba ≤ l
  lt : l < g.sectors
  bit : g.HasBit l

theorem Geo.Data.ne_zero {g : Geo} (hg : g.Ok) {l : Nat} (h : g.Data l) : l ≠ 0 := by
  have h1 := h.le
  have h2 := hg.data_lba
  have h3 := hg.itable_lba
  omega

/-- A volume read as bits, inodes and data sectors. -/
@[ext]
structure View where
  sb : Block
  bit : Nat → Bool
  ino : Nat → Ino
  sec : Nat → Block

/-- The volume these sectors hold. -/
def view (g : Geo) (d : Nat → Block) : View where
  sb := d 0
  bit l := if l / 4096 < g.bitmap_sectors then (d (g.bitmap_lba + l / 4096)).testBit (l % 4096)
    else true
  ino i := if i < g.inode_count then Ino.ofBlock (d (g.itable_lba + i / 8)) (i % 8 * inoSize)
    else Ino.zero
  sec l := if g.data_lba ≤ l then d l else Block.zero

namespace View

def setBit (V : View) (l : Nat) (on : Bool) : View := { V with bit := Function.update V.bit l on }
def setIno (V : View) (i : Nat) (t : Ino) : View := { V with ino := Function.update V.ino i t }
def setSec (V : View) (l : Nat) (b : Block) : View := { V with sec := Function.update V.sec l b }

section Fields

variable (V : View) (l : Nat) (on : Bool) (t : Ino) (b : Block)

@[simp] theorem setBit_bit : (V.setBit l on).bit = Function.update V.bit l on := rfl
@[simp] theorem setBit_ino : (V.setBit l on).ino = V.ino := rfl
@[simp] theorem setBit_sec : (V.setBit l on).sec = V.sec := rfl
@[simp] theorem setIno_bit : (V.setIno l t).bit = V.bit := rfl
@[simp] theorem setIno_ino : (V.setIno l t).ino = Function.update V.ino l t := rfl
@[simp] theorem setIno_sec : (V.setIno l t).sec = V.sec := rfl
@[simp] theorem setSec_bit : (V.setSec l b).bit = V.bit := rfl
@[simp] theorem setSec_ino : (V.setSec l b).ino = V.ino := rfl
@[simp] theorem setSec_sec : (V.setSec l b).sec = Function.update V.sec l b := rfl

end Fields

end View

/-! ## The three kinds of write -/

section Writes

variable {g : Geo} (hg : g.Ok) (d : Nat → Block)

include hg

theorem view_write_bit {l : Nat} (hl : g.HasBit l) (on : Bool) :
    view g (Function.update d (g.bitmap_lba + l / 4096)
        ((d (g.bitmap_lba + l / 4096)).setBit (l % 4096) on))
      = (view g d).setBit l on := by
  have h1 := hg.bitmap_lba
  have h2 := hg.itable_lba
  have h3 := hg.data_lba
  have hl' : l / 4096 < g.bitmap_sectors := hl
  refine View.ext ?_ ?_ ?_ ?_
  · exact Function.update_of_ne (by omega) _ _
  · funext m
    by_cases hm : m = l
    · subst hm
      simp [view, hl', Block.testBit_setBit]
    · simp only [view, View.setBit_bit, Function.update_of_ne hm]
      split
      · by_cases hs : m / 4096 = l / 4096
        · rw [hs, Function.update_self, Block.testBit_setBit, if_neg (by omega)]
        · rw [Function.update_of_ne (by omega)]
      · rfl
  · funext i
    simp only [view, View.setBit_ino]
    rw [Function.update_of_ne (by omega)]
  · funext m
    simp only [view, View.setBit_sec]
    split
    · exact Function.update_of_ne (by omega) _ _
    · rfl

theorem view_write_ino {i : Nat} (hi : i < g.inode_count) {t : Ino} (ht : t.Fits) :
    view g (Function.update d (g.itable_lba + i / 8)
        ((d (g.itable_lba + i / 8)).putWords (i % 8 * inoSize) 16 t.words))
      = (view g d).setIno i t := by
  have h1 := hg.bitmap_lba
  have h2 := hg.itable_lba
  have h3 := hg.data_lba
  have h4 := hg.inode_count
  refine View.ext ?_ ?_ ?_ ?_
  · exact Function.update_of_ne (by omega) _ _
  · funext m
    simp only [view, View.setIno_bit]
    split
    · rw [Function.update_of_ne (by omega)]
    · rfl
  · funext j
    by_cases hj : j = i
    · subst hj
      simp only [view, View.setIno_ino, Function.update_self, hi, if_true]
      exact Ino.ofBlock_putWords ht _ _
    · simp only [view, View.setIno_ino, Function.update_of_ne hj]
      split
      · by_cases hs : j / 8 = i / 8
        · rw [hs, Function.update_self, Ino.ofBlock_congr]
          intro k hk
          refine Block.putWords_apply_of_not_mem _ _ ?_
          simp only [inoSize] at hk ⊢
          omega
        · rw [Function.update_of_ne (by omega)]
      · rfl
  · funext m
    simp only [view, View.setIno_sec]
    split
    · exact Function.update_of_ne (by omega) _ _
    · rfl

theorem view_write_sec {l : Nat} (hl : g.data_lba ≤ l) (b : Block) :
    view g (Function.update d l b) = (view g d).setSec l b := by
  have h1 := hg.bitmap_lba
  have h2 := hg.itable_lba
  have h3 := hg.data_lba
  have h4 := hg.inode_count
  refine View.ext ?_ ?_ ?_ ?_
  · exact Function.update_of_ne (by omega) _ _
  · funext m
    simp only [view, View.setSec_bit]
    split
    · rw [Function.update_of_ne (by omega)]
    · rfl
  · funext j
    simp only [view, View.setSec_ino]
    split
    · rw [Function.update_of_ne (by omega)]
    · rfl
  · funext m
    by_cases hm : m = l
    · subst hm
      simp [view, hl]
    · simp only [view, View.setSec_sec, Function.update_of_ne hm]

end Writes

/-! ## States of a volume -/

/-- The volume is mounted with this geometry and its device works. -/
structure Sane (g : Geo) (s : St) : Prop where
  ok : g.Ok
  geo : s.vol.toGeo = g
  rd : ∀ l, s.rdOk l = true
  wr : ∀ l, s.wrOk l = true

/-- The step from `s` to `s'` made one write, which left the volume `V'`. -/
structure Wrote (g : Geo) (s s' : St) (V' : View) : Prop where
  sane : Sane g s'
  tape : ∃ k b, s'.tape = s.tape.write k b
  eq : view g s'.disk = V'

/-- Every volume on the way from `s` to `s'` satisfies `Q`. -/
def Via (g : Geo) (Q : View → Prop) (s s' : St) : Prop :=
  s.tape.Through (fun d => Q (view g d)) s'.tape

section Via

variable {g : Geo} {Q : View → Prop} {s s' s'' : St}

theorem Via.refl (h : Q (view g s.disk)) : Via g Q s s := Tape.Through.refl h

theorem Via.trans (h : Via g Q s s') (h' : Via g Q s' s'') : Via g Q s s'' :=
  Tape.Through.trans h h'

theorem Via.mono {Q' : View → Prop} (hQ : ∀ V, Q V → Q' V) (h : Via g Q s s') : Via g Q' s s' :=
  Tape.Through.mono (fun _ => hQ _) h

theorem Via.last (h : Via g Q s s') : Q (view g s'.disk) := Tape.Through.last h

theorem Wrote.via {V' : View} (h : Wrote g s s' V') (h0 : Q (view g s.disk)) (h1 : Q V') :
    Via g Q s s' := by
  obtain ⟨k, b, ht⟩ := h.tape
  have hd : s'.disk = Function.update s.disk k b := congrArg Tape.store ht
  unfold Via
  rw [ht]
  exact Tape.Through.write h0 (by
    show Q (Mwfs.view g (Function.update s.disk k b))
    rw [← hd, h.eq]
    exact h1)

end Via

section Access

variable {g : Geo} {s : St} (hs : Sane g s)

include hs

theorem rd_eq {l : Nat} (hl : l < g.sectors) : rd s l = some (s.disk l) := by
  rw [rd, if_pos ⟨by rw [hs.geo]; exact hl, hs.rd l⟩]

theorem wr_eq {l : Nat} (hl : l < g.sectors) (b : Block) :
    wr s l b = (true, { s with tape := s.tape.write l b }) := by
  rw [wr, if_pos ⟨by rw [hs.geo]; exact hl, hs.wr l⟩]

theorem sane_write (l : Nat) (b : Block) : Sane g { s with tape := s.tape.write l b } :=
  ⟨hs.ok, hs.geo, hs.rd, hs.wr⟩

/-- Reading a data sector. -/
theorem rd_data {l : Nat} (hl : g.data_lba ≤ l) (hl' : l < g.sectors) :
    rd s l = some ((view g s.disk).sec l) := by
  rw [rd_eq hs hl']
  simp [view, hl]

/-- Writing a data sector. -/
theorem wr_data {l : Nat} (hl : g.data_lba ≤ l) (hl' : l < g.sectors) (b : Block) :
    ∃ s', wr s l b = (true, s') ∧ Wrote g s s' ((view g s.disk).setSec l b) :=
  ⟨_, wr_eq hs hl' b, sane_write hs l b, ⟨l, b, rfl⟩, view_write_sec hs.ok _ hl b⟩

theorem bitmap_lt {l : Nat} (hl : g.HasBit l) : g.bitmap_lba + l / 4096 < g.sectors := by
  have h1 := hs.ok.bitmap_lba
  have h2 := hs.ok.itable_lba
  have h3 := hs.ok.data_lba
  have h4 := hs.ok.room
  have hl' : l / 4096 < g.bitmap_sectors := hl
  omega

theorem bitGet_eq {l : Nat} (hl : g.HasBit l) : bitGet s l = some ((view g s.disk).bit l) := by
  have hl' : l / 4096 < g.bitmap_sectors := hl
  rw [bitGet, hs.geo, rd_eq hs (bitmap_lt hs hl)]
  simp [view, hl']

theorem bitSet_eq {l : Nat} (hl : g.HasBit l) (on : Bool) :
    ∃ s', bitSet s l on = (true, s') ∧ Wrote g s s' ((view g s.disk).setBit l on) := by
  rw [bitSet, hs.geo, rd_eq hs (bitmap_lt hs hl)]
  refine ⟨_, wr_eq hs (bitmap_lt hs hl) _, sane_write hs _ _, ⟨_, _, rfl⟩, ?_⟩
  exact view_write_bit hs.ok _ hl on

theorem itable_lt {i : Nat} (hi : i < g.inode_count) : g.itable_lba + i / 8 < g.sectors := by
  have h3 := hs.ok.data_lba
  have h4 := hs.ok.room
  have h5 := hs.ok.inode_count
  omega

theorem inoGet_eq {i : Nat} (h0 : i ≠ 0) (hi : i < g.inode_count) :
    inoGet s i = some ((view g s.disk).ino i) := by
  rw [inoGet, hs.geo, if_neg (by omega), rd_eq hs (itable_lt hs hi)]
  simp [view, hi]

theorem inoGet_none {i : Nat} (hi : i = 0 ∨ g.inode_count ≤ i) : inoGet s i = none := by
  rw [inoGet, hs.geo, if_pos hi]

theorem inoPut_eq {i : Nat} (h0 : i ≠ 0) (hi : i < g.inode_count) {t : Ino} (ht : t.Fits) :
    ∃ s', inoPut s i t = (true, s') ∧ Wrote g s s' ((view g s.disk).setIno i t) := by
  rw [inoPut, hs.geo, if_neg (by omega), rd_eq hs (itable_lt hs hi)]
  refine ⟨_, wr_eq hs (itable_lt hs hi) _, sane_write hs _ _, ⟨_, _, rfl⟩, ?_⟩
  exact view_write_ino hs.ok _ hi ht

end Access

/-- What an inode read from the disk can hold. -/
theorem fits_view (g : Geo) (d : Nat → Block) (i : Nat) : ((view g d).ino i).Fits := by
  simp only [view]
  split
  · exact Ino.fits_ofBlock _ _
  · exact Ino.fits_zero

end Mwfs
