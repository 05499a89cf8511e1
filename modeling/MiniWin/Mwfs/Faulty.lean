import MiniWin.Mwfs.CheckWalk

/-!
# Sectors that cannot be read

A volume on a device that writes every sector and reads some of them: always the same
ones. What a function of `mwfs.h` reads there is what it would read on a device that
works, or nothing.
-/

namespace Mwfs

open Place

/-- The volume on a device that reads these sectors. -/
def St.reading (s : St) (f : Nat → Bool) : St := { s with rdOk := f }

/-- The volume on a device that reads every sector. -/
def St.working (s : St) : St := s.reading fun _ => true

/-- The volume is mounted with this geometry, and its device reads these sectors. -/
structure Faulty (g : Geo) (f : Nat → Bool) (s : St) : Prop where
  ok : g.Ok
  geo : s.vol.toGeo = g
  rd : s.rdOk = f
  wr : ∀ l, s.wrOk l = true

section Access

variable {g : Geo} {f : Nat → Bool} {s : St}

theorem Sane.faulty (h : Sane g s) (f : Nat → Bool) : Faulty g f (s.reading f) :=
  ⟨h.ok, h.geo, rfl, h.wr⟩

theorem Faulty.sane (h : Faulty g f s) : Sane g s.working := ⟨h.ok, h.geo, fun _ => rfl, h.wr⟩

variable (h : Faulty g f s)

include h

theorem Faulty.write (l : Nat) (b : Block) : Faulty g f { s with tape := s.tape.write l b } :=
  ⟨h.ok, h.geo, h.rd, h.wr⟩

theorem Faulty.rd_eq {l : Nat} (hl : l < g.sectors) :
    Mwfs.rd s l = if f l then some (s.disk l) else none := by
  unfold Mwfs.rd
  rw [h.geo, h.rd]
  simp only [hl, true_and]

theorem Faulty.wr_eq {l : Nat} (hl : l < g.sectors) (b : Block) :
    Mwfs.wr s l b = (true, { s with tape := s.tape.write l b }) := by
  rw [Mwfs.wr, if_pos ⟨by rw [h.geo]; exact hl, h.wr l⟩]

theorem Faulty.rd_data {l : Nat} (hl : g.Data l) :
    Mwfs.rd s l = if f l then some ((view g s.disk).sec l) else none := by
  rw [h.rd_eq hl.lt]
  simp [view, hl.le]

theorem Faulty.bitGet_eq {l : Nat} (hl : g.HasBit l) :
    bitGet s l = if f (g.bitmap_lba + l / 4096) then some ((view g s.disk).bit l) else none := by
  have hl' : l / 4096 < g.bitmap_sectors := hl
  rw [bitGet, h.geo, h.rd_eq (bitmap_lt h.sane hl)]
  cases f (g.bitmap_lba + l / 4096) with
  | false => rfl
  | true => simp [view, hl']

/-- A bit that is set, if its sector can be read. -/
theorem Faulty.bitSet_eq {l : Nat} (hl : g.HasBit l) (on : Bool) :
    (f (g.bitmap_lba + l / 4096) = false ∧ bitSet s l on = (false, s)) ∨
      (f (g.bitmap_lba + l / 4096) = true ∧ ∃ s', bitSet s l on = (true, s') ∧ Faulty g f s' ∧
        view g s'.disk = (view g s.disk).setBit l on) := by
  rw [bitSet, h.geo, h.rd_eq (bitmap_lt h.sane hl)]
  cases f (g.bitmap_lba + l / 4096) with
  | false => exact Or.inl ⟨rfl, rfl⟩
  | true =>
    exact Or.inr ⟨rfl, _, h.wr_eq (bitmap_lt h.sane hl) _, h.write _ _, view_write_bit h.ok _ hl on⟩

theorem Faulty.inoGet_eq {i : Nat} (h0 : i ≠ 0) (hi : i < g.inode_count) :
    inoGet s i = if f (g.itable_lba + i / 8) then some ((view g s.disk).ino i) else none := by
  rw [inoGet, h.geo, if_neg (by omega), h.rd_eq (itable_lt h.sane hi)]
  cases f (g.itable_lba + i / 8) with
  | false => rfl
  | true => simp [view, hi]

theorem Faulty.inoPut_eq {i : Nat} (h0 : i ≠ 0) (hi : i < g.inode_count)
    (hf : f (g.itable_lba + i / 8) = true) {t : Ino} (ht : t.Fits) :
    ∃ s', inoPut s i t = (true, s') ∧ Faulty g f s' ∧
      view g s'.disk = (view g s.disk).setIno i t := by
  rw [inoPut, h.geo, if_neg (by omega), h.rd_eq (itable_lt h.sane hi), hf]
  exact ⟨_, h.wr_eq (itable_lt h.sane hi) _, h.write _ _, view_write_ino h.ok _ hi ht⟩

end Access

/-! ## Directories -/

/-- Sector `k` of a directory can be read, and the tables that lead to it. -/
structure View.Readable (V : View) (f : Nat → Bool) (t : Ino) (k : Nat) : Prop where
  ind : 8 ≤ k → k < 136 → f t.ind = true
  dind : 136 ≤ k → f t.dind = true ∧ f (V.mid t ((k - 136) / ptrs)) = true
  cell : f (V.cell t k) = true

section Dir

variable {g : Geo} {f : Nat → Bool} {s : St} {t : Ino} {k : Nat}

/-- A sector of a directory is there, so that the tables that lead to it are. -/
theorem View.Leads.readable {V : View} (h0 : V.cell t k ≠ 0) (hf : f (V.cell t k) = true) :
    V.Leads f t k ↔ V.Readable f t k := by
  have hind : 8 ≤ k → k < 136 → t.ind ≠ 0 := fun hge hlt hc => by
    obtain ⟨j, rfl⟩ : ∃ j, k = 8 + j := ⟨k - 8, by omega⟩
    exact h0 (by rw [V.cell_ind t (by omega), if_pos hc])
  have hmid : 136 ≤ k → V.mid t ((k - 136) / ptrs) ≠ 0 := fun hge hc => by
    obtain ⟨j, rfl⟩ : ∃ j, k = 136 + j := ⟨k - 136, by omega⟩
    rw [Nat.add_sub_cancel_left] at hc
    exact h0 (by rw [V.cell_dind, if_pos hc])
  have hdind : 136 ≤ k → t.dind ≠ 0 := fun hge hc => hmid hge (by rw [V.mid_eq, if_pos hc])
  constructor
  · exact fun h => ⟨fun hge hlt => h.ind hge hlt (hind hge hlt),
      fun hge => ⟨h.dind hge (hdind hge), h.mid hge (hmid hge)⟩, hf⟩
  · exact fun h => ⟨fun hge hlt _ => h.ind hge hlt, fun hge _ => (h.dind hge).1,
      fun hge _ => (h.dind hge).2⟩

/-- **Reading a sector of a directory.** -/
theorem Faulty.dirLoad_eq (h : Faulty g f s)
    (hd : ∀ p, (view g s.disk).ref t.top p ≠ 0 → g.Data ((view g s.disk).ref t.top p))
    (h0 : (view g s.disk).cell t k ≠ 0) :
    ((view g s.disk).Readable f t k ∧
        dirLoad s t k = .ok ((view g s.disk).cell t k, (view g s.disk).block t k)) ∨
      (¬ (view g s.disk).Readable f t k ∧ ∃ e, dirLoad s t k = .error e) := by
  have hk : k < maxSectors := not_le.mp fun hc => h0 (View.cell_eq_zero _ t hc)
  have hrd : Mwfs.rd s ((view g s.disk).cell t k) = _ := h.rd_data (hd (datPos k) h0)
  have hload : dirLoad s t k = _ := dirLoad.eq_def s t k
  cases hf : f ((view g s.disk).cell t k) with
  | false =>
    refine Or.inr ⟨fun hc => absurd (hf.symm.trans hc.cell) (by simp), ?_⟩
    rcases bmap_reading (fun p hp => h.rd_data (hd p hp)) hk false with ⟨-, hb⟩ | ⟨-, hb⟩
    · rw [hload, hb]
      dsimp only
      rw [if_neg h0, hrd, hf]
      exact ⟨_, rfl⟩
    · rw [hload, hb]
      exact ⟨_, rfl⟩
  | true =>
    rw [← View.Leads.readable h0 hf, hload]
    rcases bmap_reading (fun p hp => h.rd_data (hd p hp)) hk false with ⟨hl, hb⟩ | ⟨hl, hb⟩
    · refine Or.inl ⟨hl, ?_⟩
      rw [hb]
      dsimp only
      rw [if_neg h0, hrd, hf, View.block, if_neg h0]
      rfl
    · rw [hb]
      exact Or.inr ⟨hl, _, rfl⟩

/-- The first `m` sectors of a directory can be read, and the one behind them cannot. -/
structure View.Head (V : View) (f : Nat → Bool) (t : Ino) (m : Nat) : Prop where
  le : m ≤ (t.size + 511) / 512
  read : ∀ k, k < m → V.Readable f t k
  stop : m < (t.size + 511) / 512 → ¬ V.Readable f t m

theorem View.exists_head (V : View) (f : Nat → Bool) (t : Ino) : ∃ m, V.Head f t m := by
  have hfirst : ∀ n, ∃ m ≤ n, (∀ k, k < m → V.Readable f t k) ∧ (m < n → ¬ V.Readable f t m) := by
    intro n
    induction n with
    | zero => exact ⟨0, Nat.le_refl 0, fun k hk => by omega, fun h => by omega⟩
    | succ n ih =>
      obtain ⟨m, hle, hread, hstop⟩ := ih
      by_cases hn : m = n ∧ V.Readable f t n
      · obtain ⟨rfl, hr⟩ := hn
        refine ⟨m + 1, Nat.le_refl _, fun k hk => ?_, fun h => by omega⟩
        rcases Nat.lt_succ_iff_lt_or_eq.mp hk with hk | rfl
        · exact hread k hk
        · exact hr
      · refine ⟨m, by omega, hread, fun _ hr => ?_⟩
        by_cases hm : m = n
        · exact hn ⟨hm, hm ▸ hr⟩
        · exact hstop (by omega) hr
  obtain ⟨m, hle, hread, hstop⟩ := hfirst ((t.size + 511) / 512)
  exact ⟨m, hle, hread, hstop⟩

/-- The tables decide what can be read. -/
theorem View.Head.congr {V V' : View} {m : Nat} (h : V.Head f t m)
    (href : ∀ p, V'.ref t.top p = V.ref t.top p) : V'.Head f t m := by
  have hread : ∀ k, V'.Readable f t k ↔ V.Readable f t k := fun k => by
    have hmid : ∀ j, V'.mid t j = V.mid t j := fun j => href _
    have hcell : V'.cell t k = V.cell t k := href _
    constructor
    · rintro ⟨hi, hd, hc⟩
      exact ⟨hi, fun hk => by rw [← hmid]; exact hd hk, by rw [← hcell]; exact hc⟩
    · rintro ⟨hi, hd, hc⟩
      exact ⟨hi, fun hk => by rw [hmid]; exact hd hk, by rw [hcell]; exact hc⟩
  exact ⟨h.le, fun k hk => (hread k).mpr (h.read k hk), fun hm hr => h.stop hm ((hread m).mp hr)⟩

theorem View.Head.split {V : View} {m : Nat} (h : V.Head f t m) :
    dirSectors t = List.range m ++ (List.range ((t.size + 511) / 512 - m)).map (m + ·) := by
  unfold dirSectors
  rw [← List.range_add, Nat.add_sub_cancel' h.le]

theorem DirRep.slots_take {V : View} {slots : List (Option Dent)} {m : Nat} (h : DirRep V t slots)
    (hm : V.Head f t m) : V.slotsOf t (List.range m) = slots.take (8 * m) := by
  have hle := hm.le
  conv_rhs => rw [h.slots_eq]
  unfold dirSectors
  rw [View.slotsOf_range, View.slotsOf_range, ← List.map_take, List.take_range,
    Nat.min_eq_left (Nat.mul_le_mul_left 8 hle)]

variable {G : Graph} {d m : Nat} {slots : List (Option Dent)}

theorem Faulty.loads (h : Faulty g f s) (hrep : Rep g G (view g s.disk))
    (hd : G d = some (.dir slots)) (hm : (view g s.disk).Head f ((view g s.disk).ino d) m) :
    Loads s (view g s.disk) ((view g s.disk).ino d) (List.range m) := by
  refine ⟨fun k hk => ?_⟩
  have hr := hrep.dirRep hd
  have hkm := List.mem_range.mp hk
  have hle := hm.le
  have h0 := hr.cell k (hr.mem_sectors (List.mem_range.mpr (by omega)))
  rcases h.dirLoad_eq (hrep.data hd) h0 with ⟨-, hload⟩ | ⟨hno, -⟩
  · exact hload
  · exact absurd (hm.read k hkm) hno

/-- **What `mwfs_dir_nth` finds**: the entries of the sectors up to the first that cannot
be read. -/
theorem Faulty.dirNth_eq (h : Faulty g f s) (hrep : Rep g G (view g s.disk))
    (hd : G d = some (.dir slots)) (hm : (view g s.disk).Head f ((view g s.disk).ino d) m)
    {t : Ino} (hget : inoGet s d = some t) (ht : t = (view g s.disk).ino d) (idx : Nat) :
    (dirNth s d idx).join = (ents (slots.take (8 * m)))[idx]? := by
  subst ht
  have hr := hrep.dirRep hd
  unfold dirNth
  rw [hget]
  dsimp only
  rw [if_neg (not_not.mpr hr.type), hm.split, dirNthFrom_append (h.loads hrep hd hm),
    hr.slots_take hm]
  cases (ents (slots.take (8 * m)))[idx]? with
  | some e => rfl
  | none =>
    cases hn : (((view g s.disk).ino d).size + 511) / 512 - m with
    | zero => rfl
    | succ n =>
      have hlt : m < (((view g s.disk).ino d).size + 511) / 512 := by omega
      have h0 := hr.cell m (hr.mem_sectors (List.mem_range.mpr hlt))
      rw [List.range_succ_eq_map, List.map_cons, Nat.add_zero]
      unfold dirNthFrom
      rcases h.dirLoad_eq (hrep.data hd) h0 with ⟨hr', -⟩ | ⟨-, e, hload⟩
      · exact absurd hr' (hm.stop hlt)
      · rw [hload]
        rfl

theorem dirFindFrom_append {name : Name} {ks : List Nat} {r : Found}
    (h : dirFindFrom s t name ks = .ok r) (ks' : List Nat) :
    dirFindFrom s t name (ks ++ ks') = .ok r := by
  induction ks with
  | nil => exact nomatch h
  | cons k ks ih =>
    rw [List.cons_append]
    unfold dirFindFrom at h ⊢
    split at h
    · exact nomatch h
    split at h
    · exact h
    · exact ih h

/-- **Removing an entry that can be read**: it is gone, as on a device that works. -/
theorem Faulty.dirRemove_eq (h : Faulty g f s) (hrep : Rep g G (view g s.disk))
    (hd : G d = some (.dir slots)) (hm : (view g s.disk).Head f ((view g s.disk).ino d) m)
    (hget : inoGet s d ≠ none) {e : Dent} (he : e ∈ ents (slots.take (8 * m))) :
    ∃ s' k b, dirRemove s d e.name = (.ok, s') ∧ Faulty g f s' ∧
      dirRemove s.working d e.name = (.ok, s'.working) ∧
      (view g s.disk).cell ((view g s.disk).ino d) k ≠ 0 ∧
      view g s'.disk
        = (view g s.disk).setSec ((view g s.disk).cell ((view g s.disk).ino d) k) b := by
  have hr := hrep.dirRep hd
  obtain ⟨t, hget⟩ := Option.ne_none_iff_exists'.mp hget
  obtain ⟨ht, hgetw⟩ : t = (view g s.disk).ino d
      ∧ inoGet s.working d = some ((view g s.disk).ino d) := by
    have hbound : ¬ (d = 0 ∨ g.inode_count ≤ d) := fun hc => by
      unfold inoGet at hget
      rw [h.geo, if_pos hc] at hget
      exact nomatch hget
    rw [not_or, not_le] at hbound
    rw [h.inoGet_eq hbound.1 hbound.2] at hget
    refine ⟨?_, Mwfs.inoGet_eq h.sane hbound.1 hbound.2⟩
    split at hget
    · exact (Option.some.inj hget).symm
    · exact nomatch hget
  subst ht
  have hloads := h.loads hrep hd hm
  rcases dirFindFrom_spec hloads e.name with ⟨-, hno⟩ | ⟨k, x, e', hat, hname, hfind⟩
  · rw [hr.slots_take hm] at hno
    exact absurd rfl (hno e he)
  have hkm := List.mem_range.mp hat.mem
  have hle := hm.le
  have h0 := hr.cell k (hr.mem_sectors (List.mem_range.mpr (by omega)))
  have hdata := hrep.data hd (datPos k) h0
  have hloadsw : Loads s.working (view g s.disk) ((view g s.disk).ino d) (List.range m) := by
    refine ⟨fun k' hk' => ?_⟩
    refine (DirRep.loads h.sane (hrep.data hd) hr).load k' ?_
    exact List.mem_range.mpr (by have := List.mem_range.mp hk'; omega)
  have hfindw : dirFindFrom s.working ((view g s.disk).ino d) e.name (List.range m)
      = dirFindFrom s ((view g s.disk).ino d) e.name (List.range m) := by
    have hsame : ∀ ks, Loads s (view g s.disk) ((view g s.disk).ino d) ks →
        Loads s.working (view g s.disk) ((view g s.disk).ino d) ks →
        dirFindFrom s.working ((view g s.disk).ino d) e.name ks
          = dirFindFrom s ((view g s.disk).ino d) e.name ks := by
      intro ks hks hksw
      induction ks with
      | nil => rfl
      | cons k ks ih =>
        unfold dirFindFrom
        rw [hks.load k List.mem_cons_self, hksw.load k List.mem_cons_self, ih hks.tail hksw.tail]
    exact hsame _ hloads hloadsw
  have hread : Mwfs.rd s ((view g s.disk).cell ((view g s.disk).ino d) k)
      = some ((view g s.disk).sec ((view g s.disk).cell ((view g s.disk).ino d) k)) := by
    have hrd := h.rd_data hdata
    rw [show f ((view g s.disk).ref ((view g s.disk).ino d).top (datPos k)) = true from
      (hm.read k hkm).cell, if_pos rfl] at hrd
    exact hrd
  obtain ⟨l, hl⟩ : ∃ l, (view g s.disk).cell ((view g s.disk).ino d) k = l := ⟨_, rfl⟩
  obtain ⟨b, hb⟩ : ∃ b, dentClear ((view g s.disk).sec l) x = b := ⟨_, rfl⟩
  change g.Data ((view g s.disk).cell ((view g s.disk).ino d) k) at hdata
  rw [hl] at hfind hread hdata h0
  refine ⟨{ s with tape := s.tape.write l b }, k, b, ?_, h.write _ _, ?_, by rw [hl]; exact h0,
    by rw [hl]; exact view_write_sec h.ok _ hdata.le _⟩
  · unfold dirRemove dirFind
    rw [hget]
    dsimp only
    rw [if_neg (not_not.mpr hr.type), hm.split, dirFindFrom_append hfind]
    dsimp only
    unfold dirEdit
    rw [hread]
    dsimp only
    rw [hb, h.wr_eq hdata.lt]
  · unfold dirRemove dirFind
    rw [hgetw]
    dsimp only
    rw [if_neg (not_not.mpr hr.type), hm.split, dirFindFrom_append (hfindw.trans hfind)]
    dsimp only
    unfold dirEdit
    have hreadw : Mwfs.rd s.working l = some ((view g s.disk).sec l) :=
      Mwfs.rd_data h.sane hdata.le hdata.lt
    rw [hreadw]
    dsimp only
    rw [hb, Mwfs.wr_eq h.sane hdata.lt]
    rfl

end Dir

/-! ## Giving sectors back -/

/-- From `s` to `s'` only bits change. -/
structure OnlyBits (g : Geo) (f : Nat → Bool) (s s' : St) : Prop where
  faulty : Faulty g f s'
  ino : (view g s'.disk).ino = (view g s.disk).ino
  sec : (view g s'.disk).sec = (view g s.disk).sec

section Release

variable {g : Geo} {f : Nat → Bool} {s s' s'' : St} {t : Ino}

theorem OnlyBits.refl (h : Faulty g f s) : OnlyBits g f s s := ⟨h, rfl, rfl⟩

theorem OnlyBits.trans (h : OnlyBits g f s s') (h' : OnlyBits g f s' s'') : OnlyBits g f s s'' :=
  ⟨h'.faulty, h'.ino.trans h.ino, h'.sec.trans h.sec⟩

theorem Faulty.bitSet_only (h : Faulty g f s) {l : Nat} (hl : g.HasBit l) (on : Bool) :
    OnlyBits g f s (bitSet s l on).2 := by
  rcases h.bitSet_eq hl on with ⟨-, hs⟩ | ⟨-, s', hs, hf, hv⟩
  · rw [hs]
    exact .refl h
  · rw [hs]
    exact ⟨hf, by rw [hv, View.setBit_ino], by rw [hv, View.setBit_sec]⟩

theorem Faulty.freeSector_only (h : Faulty g f s) {l : Nat} (hl : g.HasBit l) :
    OnlyBits g f s (freeSector s l) := by
  unfold freeSector
  split
  · exact h.bitSet_only hl false
  · exact .refl h

theorem Faulty.freeList_only (h : Faulty g f s) (ls : List Nat)
    (hls : ∀ l ∈ ls, l ≠ 0 → g.Data l) : OnlyBits g f s (freeList s ls) := by
  induction ls generalizing s with
  | nil => exact .refl h
  | cons l ls ih =>
    have hls' : ∀ m ∈ ls, m ≠ 0 → g.Data m := fun m hm => hls m (List.mem_cons_of_mem l hm)
    unfold freeList
    by_cases h0 : l = 0
    · rw [if_pos h0]
      exact ih h hls'
    · rw [if_neg h0]
      have hfirst := h.freeSector_only (hls l List.mem_cons_self h0).bit
      exact hfirst.trans (ih hfirst.faulty hls')

theorem Faulty.freeTable_only (h : Faulty g f s) {q : Nat} (hq : g.Data q)
    (hls : ∀ l ∈ tableEntries ((view g s.disk).sec q), l ≠ 0 → g.Data l) :
    OnlyBits g f s (freeTable s q) := by
  unfold freeTable
  rw [h.rd_data hq]
  cases f q with
  | false => exact h.freeSector_only hq.bit
  | true =>
    have hlist := h.freeList_only _ hls
    exact hlist.trans (hlist.faulty.freeSector_only hq.bit)

theorem Faulty.freeTables_only (h : Faulty g f s) {V : View} (hV : (view g s.disk).sec = V.sec)
    (qs : List Nat) (hqs : ∀ q ∈ qs, q ≠ 0 → g.Data q ∧
      ∀ l ∈ tableEntries (V.sec q), l ≠ 0 → g.Data l) : OnlyBits g f s (freeTables s qs) := by
  induction qs generalizing s with
  | nil => exact .refl h
  | cons q qs ih =>
    have hqs' := fun q' hq' => hqs q' (List.mem_cons_of_mem q hq')
    unfold freeTables
    by_cases h0 : q = 0
    · rw [if_pos h0]
      exact ih h hV hqs'
    · rw [if_neg h0]
      obtain ⟨hq, hls⟩ := hqs q List.mem_cons_self h0
      have hfirst := h.freeTable_only hq (by rw [hV]; exact hls)
      exact hfirst.trans (ih hfirst.faulty (hfirst.sec.trans hV) hqs')

/-- **Giving back what an inode leads to** changes bits. -/
theorem Faulty.freeBlocks_only (h : Faulty g f s) (hd : ∀ l, (view g s.disk).Has t l → g.Data l) :
    OnlyBits g f s (freeBlocks s t) := by
  have hall : ∀ l ∈ (view g s.disk).sectors t, g.Data l := fun l hl =>
    hd l (View.mem_sectors.mp hl)
  unfold View.sectors at hall
  have hdirect := h.freeList_only ((List.range ndirect).map t.direct) fun l hl h0 =>
    hall l (List.mem_append_left _ (List.mem_append_left _ (mem_filled.mpr ⟨hl, h0⟩)))
  unfold freeBlocks
  dsimp only
  generalize freeList s ((List.range ndirect).map t.direct) = s₁ at hdirect ⊢
  have hind : OnlyBits g f s (if t.ind = 0 then s₁ else freeTable s₁ t.ind) := by
    by_cases h0 : t.ind = 0
    · rw [if_pos h0]
      exact hdirect
    · have htab := fun l hl => hall l (List.mem_append_left _ (List.mem_append_right _ hl))
      rw [if_neg h0] at htab ⊢
      refine hdirect.trans (hdirect.faulty.freeTable_only (htab _ List.mem_cons_self) ?_)
      rw [hdirect.sec]
      exact fun l hl hl0 => htab l (List.mem_cons_of_mem _ (mem_filled.mpr ⟨hl, hl0⟩))
  generalize (if t.ind = 0 then s₁ else freeTable s₁ t.ind) = s₂ at hind ⊢
  by_cases h0 : t.dind = 0
  · rw [if_pos h0]
    exact hind
  · have htop := fun l hl => hall l (List.mem_append_right _ hl)
    rw [if_neg h0] at htop ⊢
    have hq := htop _ List.mem_cons_self
    rw [hind.faulty.rd_data hq]
    cases f t.dind with
    | false => exact hind.trans (hind.faulty.freeSector_only hq.bit)
    | true =>
      have htabs := hind.faulty.freeTables_only hind.sec
        (tableEntries ((view g s₂.disk).sec t.dind)) fun q hq hq0 => by
          rw [hind.sec] at hq
          have hmem := fun l hl => htop l (List.mem_cons_of_mem _
            (List.mem_flatMap.mpr ⟨q, mem_filled.mpr ⟨hq, hq0⟩, hl⟩))
          exact ⟨hmem _ List.mem_cons_self, fun l hl hl0 =>
            hmem l (List.mem_cons_of_mem _ (mem_filled.mpr ⟨hl, hl0⟩))⟩
      exact (hind.trans htabs).trans (htabs.faulty.freeSector_only hq.bit)

/-- **Releasing an inode.** -/
theorem Faulty.inoRelease_eq (h : Faulty g f s) {i : Nat} (h0 : i ≠ 0) (hi : i < g.inode_count)
    (hf : f (g.itable_lba + i / 8) = true)
    (hd : ∀ l, (view g s.disk).Has ((view g s.disk).ino i) l → g.Data l) :
    Faulty g f (inoRelease s i) ∧
      (view g (inoRelease s i).disk).ino = Function.update (view g s.disk).ino i Ino.zero ∧
      (view g (inoRelease s i).disk).sec = (view g s.disk).sec := by
  have hfree := h.freeBlocks_only hd
  obtain ⟨s', hs', hfaulty, hv⟩ := hfree.faulty.inoPut_eq h0 hi hf Ino.fits_zero
  have heq : inoRelease s i = s' := by
    unfold inoRelease
    rw [h.inoGet_eq h0 hi, hf, if_pos rfl]
    dsimp only
    rw [hs']
  rw [heq]
  exact ⟨hfaulty, by rw [hv, View.setIno_ino, hfree.ino], by rw [hv, View.setIno_sec, hfree.sec]⟩

end Release

end Mwfs
