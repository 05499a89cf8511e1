import MiniWin.Mwfs.OpsSpec

/-!
# Formatting, mounting and reading back

`mwfs_mkfs` lays down a volume that holds nothing but an empty root, and
`mwfs_open` accepts every volume that holds a graph – also one that a power cut
has left half-way through an operation. What is in the graph then reads back:
`mwfs_file_get` gives the bytes of a file, and `mwfs_file_verify` accepts them.
-/

namespace Mwfs

/-! ## Formatting -/

/-- The graph of a fresh volume. -/
def emptyGraph : Graph := fun j => if j = rootIno then some (.dir []) else none

/-- Writing one sector after the other. -/
theorem wrAll_spec {g : Geo} {s : St} (hs : Sane g s) {lba : Nat} {bs : List Block}
    (h : lba + bs.length ≤ g.sectors) :
    ∃ s', wrAll s lba bs = (true, s') ∧ Sane g s' ∧ s'.vol = s.vol ∧
      ∀ l, s'.disk l = if lba ≤ l then bs[l - lba]?.getD (s.disk l) else s.disk l := by
  induction bs generalizing s lba with
  | nil => exact ⟨s, rfl, hs, rfl, fun l => by simp⟩
  | cons b bs ih =>
    rw [List.length_cons] at h
    obtain ⟨s', hs', hsane, hvol, hdisk⟩ := ih (sane_write hs lba b)
      (show lba + 1 + bs.length ≤ g.sectors by omega)
    unfold wrAll
    rw [wr_eq hs (by omega)]
    refine ⟨s', hs', hsane, hvol, fun l => ?_⟩
    rw [hdisk l]
    by_cases hl : l = lba
    · subst hl
      rw [if_neg (by omega), if_pos (Nat.le_refl l), Nat.sub_self]
      exact Function.update_self ..
    · have hold : Function.update s.disk lba b l = s.disk l := Function.update_of_ne hl _ _
      by_cases hin : lba + 1 ≤ l
      · rw [if_pos hin, if_pos (by omega), show l - lba = l - (lba + 1) + 1 by omega,
          List.getElem?_cons_succ]
        exact congrArg (bs[l - (lba + 1)]?.getD) hold
      · rw [if_neg hin, if_neg (by omega)]
        exact hold

/-- The bits of a byte set one after the other. -/
theorem foldl_or_testBit {c : Nat → Prop} [DecidablePred c] {ks : List Nat} (hks : ∀ k ∈ ks, k < 8)
    (x : UInt8) (j : Nat) :
    (ks.foldl (fun x k => if c k then x ||| UInt8.ofNat (2 ^ k) else x) x).toNat.testBit j
      = (x.toNat.testBit j || decide (j ∈ ks ∧ c j)) := by
  induction ks generalizing x with
  | nil => simp
  | cons k ks ih =>
    rw [List.foldl_cons, ih fun m hm => hks m (List.mem_cons_of_mem k hm)]
    by_cases hc : c k
    · rw [if_pos hc, Block.byte_or_testBit x (hks k List.mem_cons_self)]
      by_cases hjk : k = j
      · subst hjk
        simp [hc]
      · have hkj : ¬ j = k := fun h => hjk h.symm
        simp [hjk, hkj]
    · rw [if_neg hc]
      by_cases hjk : j = k
      · subst hjk
        simp [hc]
      · simp [hjk]

/-- **A fresh bitmap marks what is not the data area**, and nothing else. -/
theorem freshBitmap_testBit (g : Geo) (l : Nat) :
    (freshBitmap g (l / 4096)).testBit (l % 4096)
      = decide (l < g.data_lba ∨ g.sectors ≤ l) := by
  have haddr : l / 4096 * 4096 + l % 4096 / 8 * 8 + l % 4096 % 8 = l := by omega
  unfold Block.testBit freshBitmap
  rw [foldl_or_testBit (fun k hk => List.mem_range.mp hk), haddr]
  have hk : l % 4096 % 8 ∈ List.range 8 := List.mem_range.mpr (Nat.mod_lt _ (by omega))
  simp only [hk, true_and, UInt8.toNat_zero, Nat.zero_testBit, Bool.false_or]

theorem Ino.ofBlock_zero (o : Nat) : Ino.ofBlock Block.zero o = Ino.zero := by
  unfold Ino.ofBlock Ino.zero
  simp only [Block.le32_zero, ite_self]
  rfl

/-- Only the superblock of a view depends on sector 0. -/
theorem view_write_sb {g : Geo} (hg : g.Ok) (d : Nat → Block) (b : Block) :
    view g (Function.update d 0 b) = { view g d with sb := b } := by
  have h1 := hg.bitmap_lba
  have h2 := hg.itable_lba
  have h3 := hg.data_lba
  refine View.ext ?_ ?_ ?_ ?_
  · show Function.update d 0 b 0 = b
    exact Function.update_self ..
  · funext l
    simp only [view]
    rw [Function.update_of_ne (by omega)]
  · funext i
    simp only [view]
    rw [Function.update_of_ne (by omega)]
  · funext l
    simp only [view]
    split
    · exact Function.update_of_ne (by omega) _ _
    · rfl

/-- What a fresh volume looks like. -/
structure Blank (g : Geo) (V : View) : Prop where
  bit : ∀ l, g.HasBit l → V.bit l = decide (l < g.data_lba ∨ g.sectors ≤ l)
  noBit : ∀ l, ¬ g.HasBit l → V.bit l = true
  ino : V.ino = Function.update (fun _ => Ino.zero) rootIno { Ino.zero with type := tDir }

/-- The empty inodes of a blank volume lead nowhere. -/
theorem Blank.ref_eq_zero {g : Geo} {V : View} (h : Blank g V) (j : Nat) (p : Place Nat) :
    V.ref (V.ino j).top p = 0 := by
  refine ref_zero V (fun r => ?_) p
  rw [h.ino]
  by_cases hj : j = rootIno
  · subst hj
    rw [Function.update_self]
    unfold Ino.top
    simp [Ino.zero]
  · rw [Function.update_of_ne hj]
    unfold Ino.top
    simp [Ino.zero]

/-- **A blank volume holds the empty graph**, and nothing else. -/
theorem Blank.rep {g : Geo} {V : View} (h : Blank g V) {label : Name} (hlen : label.length = 16)
    (hsb : V.sb = sbBlock g label) : Rep g emptyGraph V ∧ Exact g emptyGraph V := by
  have hown : ∀ l, ¬ Owns V (diskForest emptyGraph V) l := by
    rintro l ⟨hl, j, u, p, hj, hp⟩
    obtain ⟨-, rfl⟩ := diskForest_some.mp hj
    exact hl (hp.symm.trans (h.ref_eq_zero j p))
  refine ⟨⟨⟨label, hlen, hsb⟩, fun l hl => ?_, ?_, fun l hl => absurd hl (hown l),
    fun l hl => absurd hl (hown l), fun j o hj => ?_⟩, fun l hl hbit => ?_, fun j hj => ?_⟩
  · by_cases hb : g.HasBit l
    · rw [h.bit l hb, decide_eq_true_eq]
      omega
    · exact h.noBit l hb
  · intro i j t u p q hi hj hpq h0
    obtain ⟨-, rfl⟩ := diskForest_some.mp hi
    exact absurd (h.ref_eq_zero i p) h0
  · refine ⟨_, diskForest_some.mpr ⟨⟨o, hj⟩, rfl⟩, fun r => Or.inr rfl, ?_⟩
    unfold emptyGraph at hj
    split at hj
    · next hroot =>
      obtain rfl := Option.some.inj hj
      rw [h.ino, hroot, Function.update_self]
      exact ⟨rfl, rfl, ⟨0, rfl⟩, fun k hk => absurd hk (by simp), fun x hx => absurd hx (by simp)⟩
    · exact absurd hj (by simp)
  · rw [h.bit l hl.bit, decide_eq_true_eq] at hbit
    have h1 := hl.le
    have h2 := hl.lt
    omega
  · rw [h.ino] at hj
    by_cases hroot : j = rootIno
    · rw [hroot]
      simp [emptyGraph]
    · rw [Function.update_of_ne hroot] at hj
      exact absurd rfl hj

theorem emptyGraph_ok {g : Geo} (hg : g.Ok) : GraphOk g emptyGraph := by
  have hmin := hg.minInodes
  have hobj : ∀ j o, emptyGraph j = some o → j = rootIno ∧ o = .dir [] := by
    intro j o hj
    unfold emptyGraph at hj
    split at hj
    · next hroot => exact ⟨hroot, (Option.some.inj hj).symm⟩
    · exact absurd hj (by simp)
  have hent : ∀ d e, ¬ Entry emptyGraph d e := by
    rintro d e ⟨slots, hd, hm⟩
    obtain ⟨-, ho⟩ := hobj d _ hd
    obtain rfl := Obj.dir.inj ho
    exact absurd hm (by simp [ents])
  refine ⟨⟨[], rfl⟩, fun j o hj => ?_, fun d e he => absurd he (hent d e),
    fun d e he => absurd he (hent d e), fun d slots hd => ?_⟩
  · rw [(hobj j o hj).1, rootIno]
    omega
  · obtain ⟨-, ho⟩ := hobj d _ hd
    obtain rfl := Obj.dir.inj ho
    exact List.nodup_nil

theorem length_strcpy (src : Name) {n : Nat} (hn : 0 < n) : (strcpy src n).length = n := by
  unfold strcpy
  rw [List.length_append, List.length_replicate, List.length_take]
  omega

/-- **`mwfs_mkfs`**: on a device that works, every size with a geometry is
formatted. -/
theorem mkfs_spec {s : St} {g : Geo} (hrd : ∀ l, s.rdOk l = true) (hwr : ∀ l, s.wrOk l = true)
    (hlt : s.vol.sectors < 4294967296) (hgeo : geometry s.vol.sectors = some g) (label : Name) :
    ∃ s', mkfs s label = (.ok, s') ∧ Sane g s' ∧ Rep g emptyGraph (view g s'.disk) ∧
      Exact g emptyGraph (view g s'.disk) := by
  obtain ⟨hg, -⟩ := geometry_ok hlt hgeo
  have h1 := hg.bitmap_lba
  have h2 := hg.itable_lba
  have h3 := hg.data_lba
  have h4 := hg.room
  have h5 := hg.inode_count
  have hs₀ : Sane g { s with vol := { s.vol with toGeo := g } } := ⟨hg, rfl, hrd, hwr⟩
  unfold mkfs
  rw [hgeo]
  dsimp only
  rw [wr_eq hs₀ (by omega)]
  dsimp only
  obtain ⟨s₂, hs₂, hsane₂, hvol₂, hdisk₂⟩ := wrAll_spec (sane_write hs₀ 0 Block.zero)
    (show g.bitmap_lba + ((List.range g.bitmap_sectors).map (freshBitmap g)).length ≤ g.sectors by
      rw [List.length_map, List.length_range]; omega)
  rw [hs₂]
  dsimp only
  obtain ⟨s₃, hs₃, hsane₃, hvol₃, hdisk₃⟩ := wrAll_spec hsane₂
    (show g.itable_lba + (List.replicate g.itable_sectors Block.zero).length ≤ g.sectors by
      rw [List.length_replicate]; omega)
  rw [hs₃]
  dsimp only
  obtain ⟨s₄, hs₄, hw₄⟩ := inoPut_eq hsane₃ (i := rootIno) (by decide)
    (by have := hg.minInodes; unfold rootIno; omega)
    (t := { Ino.zero with type := tDir }) (Ino.fits_empty (by decide))
  rw [hs₄]
  dsimp only
  unfold sbWrite
  have hs₅ : Sane g { s₄ with vol := { s₄.vol with
      label := strcpy label 16, cur_blk := g.data_lba, cur_ino := 1 } } :=
    ⟨hg, hw₄.sane.geo, hw₄.sane.rd, hw₄.sane.wr⟩
  rw [wr_eq hs₅ (by omega)]
  have hgeo₄ : s₄.vol.toGeo = g := hw₄.sane.geo
  refine ⟨_, rfl, sane_write hs₅ _ _, ?_⟩
  have hview : view g (Function.update s₄.disk 0 (sbBlock s₄.vol.toGeo (strcpy label 16)))
      = { (view g s₃.disk).setIno rootIno { Ino.zero with type := tDir } with
          sb := sbBlock g (strcpy label 16) } := by
    rw [view_write_sb hg, hw₄.eq, hgeo₄]
  have hblank : Blank g (view g (Function.update s₄.disk 0
      (sbBlock s₄.vol.toGeo (strcpy label 16)))) := by
    rw [hview]
    refine ⟨fun l hl => ?_, fun l hl => ?_, ?_⟩
    · have hl' : l / 4096 < g.bitmap_sectors := hl
      show (view g s₃.disk).bit l = _
      rw [← freshBitmap_testBit g l]
      simp only [view, hl', if_true]
      rw [hdisk₃, if_neg (by omega), hdisk₂, if_pos (by omega), Nat.add_sub_cancel_left,
        List.getElem?_map, List.getElem?_range hl', Option.map_some, Option.getD_some]
    · show (view g s₃.disk).bit l = true
      simp only [view]
      exact if_neg hl
    · show Function.update (view g s₃.disk).ino rootIno _ = _
      congr 1
      funext i
      simp only [view]
      split
      · next hi =>
        rw [hdisk₃, if_pos (by omega), List.getElem?_replicate, if_pos (by omega), Option.getD_some]
        exact Ino.ofBlock_zero _
      · rfl
  exact hblank.rep (length_strcpy label (by omega)) (by rw [hview])

/-! ## Mounting -/

/-- The ten numbers of a superblock read back. -/
theorem sbBlock_le32 (g : Geo) (label : Name) {j : Nat} (hj : j < 10) :
    (sbBlock g label).le32 (4 * j) = sbWords g j % 4294967296 := by
  unfold sbBlock
  dsimp only
  rw [Block.le32_put_of_disjoint _ (by omega),
    Block.le32_put32_of_disjoint _ _ (by unfold sbCrcOff; omega)]
  have := Block.le32_putWords (o := 0) Block.zero (sbWords g) hj
  rwa [Nat.zero_add] at this

/-- A superblock carries its own checksum. -/
theorem sbBlock_crc (g : Geo) (label : Name) :
    (sbBlock g label).le32 sbCrcOff = (crc32 ((sbBlock g label).slice 0 sbCrcOff)).toNat := by
  have hslice : (sbBlock g label).slice 0 sbCrcOff
      = (Block.zero.putWords 0 10 (sbWords g)).slice 0 sbCrcOff := by
    refine Block.slice_congr fun i hi => ?_
    unfold sbCrcOff at hi
    unfold sbBlock
    rw [Block.put_apply_of_not_mem _ (by omega)]
    exact Block.putWords_apply_of_not_mem _ _ (by unfold sbCrcOff; omega)
  rw [hslice]
  unfold sbBlock
  dsimp only
  rw [Block.le32_put_of_disjoint _ (by unfold sbCrcOff; omega), Block.le32_put32]
  exact Nat.mod_eq_of_lt (UInt32.toNat_lt _)

/-- The geometry a superblock was written with is the one it gives back. -/
theorem sbGeo_sbBlock {g : Geo} (hg : g.Ok) (label : Name) : sbGeo (sbBlock g label) = g := by
  have hword := fun {j : Nat} (hj : j < 10) => sbBlock_le32 g label hj
  have h1 := hg.bitmap_lba
  have h2 := hg.itable_lba
  have h3 := hg.data_lba
  have h4 := hg.room
  have h5 := hg.lt
  have h6 := hg.maxInodes
  unfold sbGeo
  rw [show 8 = 4 * 2 from rfl, show 12 = 4 * 3 from rfl, show 16 = 4 * 4 from rfl,
    show 20 = 4 * 5 from rfl, show 24 = 4 * 6 from rfl, show 28 = 4 * 7 from rfl,
    show 32 = 4 * 8 from rfl, hword (by omega), hword (by omega), hword (by omega),
    hword (by omega), hword (by omega), hword (by omega), hword (by omega)]
  simp only [sbWords]
  rw [Nat.mod_eq_of_lt (by omega), Nat.mod_eq_of_lt (by omega), Nat.mod_eq_of_lt (by omega),
    Nat.mod_eq_of_lt (by omega), Nat.mod_eq_of_lt (by omega), Nat.mod_eq_of_lt (by omega),
    Nat.mod_eq_of_lt (by omega)]

/-- **`mwfs_open`** accepts what holds a graph with a root, and writes nothing. -/
theorem openVol_spec {g : Geo} {G : Graph} {s : St} (hg : g.Ok)
    (hgeo : geometry g.sectors = some g) (hvol : g.sectors ≤ s.vol.sectors)
    (hrd : ∀ l, s.rdOk l = true) (hwr : ∀ l, s.wrOk l = true) (h : Rep g G (view g s.disk))
    (hroot : IsDir G rootIno) :
    ∃ s', openVol s = (.ok, s') ∧ Sane g s' ∧ s'.tape = s.tape ∧
      s'.rdOk = s.rdOk ∧ s'.wrOk = s.wrOk := by
  obtain ⟨label, -, hsb⟩ := Inv.sb h
  have hb : s.disk 0 = sbBlock g label := hsb
  have hmagic : (sbBlock g label).le32 0 = magic := sbBlock_le32 g label (j := 0) (by omega)
  have hversion : (sbBlock g label).le32 4 = version := sbBlock_le32 g label (j := 1) (by omega)
  have htotal : (sbBlock g label).le32 8 = g.sectors :=
    congrArg Geo.sectors (sbGeo_sbBlock hg label)
  have h64 : ¬ g.sectors < 64 := fun hc => by
    unfold geometry at hgeo
    rw [if_pos hc] at hgeo
    exact absurd hgeo (by simp)
  obtain ⟨slots, hslots⟩ := hroot
  unfold openVol
  rw [if_neg (by simp [hrd 0]), hb]
  dsimp only
  rw [if_neg (not_not.mpr hmagic), if_neg (not_not.mpr hversion),
    if_neg (not_not.mpr (sbBlock_crc g label)), htotal, if_neg (by omega),
    sbGeo_sbBlock hg label, if_neg (not_not.mpr hgeo)]
  have hs' : Sane g { s with vol := { s.vol with
      toGeo := g, label := (sbBlock g label).slice 48 15 ++ [0], cur_blk := g.data_lba,
      cur_ino := 1 } } := ⟨hg, rfl, hrd, hwr⟩
  have hget := inoGet_eq hs' (i := rootIno) (by decide)
    (by have := hg.minInodes; unfold rootIno; omega)
  refine ⟨_, ?_, hs', rfl, rfl, rfl⟩
  rw [hget]
  dsimp only
  rw [if_neg (not_not.mpr (h.dirRep hslots).type)]

/-! ## Reading back -/

section Reading

variable {g : Geo} {G : Graph} {s : St} {j : Nat}

/-- **`mwfs_file_get`** gives the bytes of a file. -/
theorem fileGet_spec (hs : Sane g s) (hok : GraphOk g G) (h : Rep g G (view g s.disk))
    {bytes : List UInt8} {aux : UInt32} (hj : G j = some (.file bytes aux)) (max : Nat) :
    fileGet s j max = if max < bytes.length then .error .toobig else .ok bytes := by
  obtain ⟨hj0, hlt⟩ := hok.bound j _ hj
  have hf := h.fileRep hj
  unfold fileGet
  rw [inoGet_eq hs hj0 hlt]
  dsimp only
  rw [if_neg (not_not.mpr hf.type), hf.size]
  split
  · rfl
  · rw [fileRep_pread hs rfl hf (h.data hj) (by omega)]
    dsimp only
    rw [List.drop_zero, List.take_length, if_neg (not_not.mpr rfl)]

/-- Only files have bytes. -/
theorem fileGet_dir (hs : Sane g s) (hok : GraphOk g G) (h : Rep g G (view g s.disk))
    {slots : List (Option Dent)} (hj : G j = some (.dir slots)) (max : Nat) :
    fileGet s j max = .error .isdir := by
  obtain ⟨hj0, hlt⟩ := hok.bound j _ hj
  unfold fileGet
  rw [inoGet_eq hs hj0 hlt]
  dsimp only
  rw [if_pos (by rw [(h.dirRep hj).type]; decide)]

/-- The loop of `mwfs_file_verify`: from sector `k` on, with the checksum of what
comes before. -/
theorem verifyFrom_spec {si : Ino} {bytes : List UInt8} (hsize : si.size = bytes.length)
    (hread : ∀ off n, off + n ≤ bytes.length → pread s si off n = some ((bytes.drop off).take n))
    {m k : Nat} (hk : k + m = (bytes.length + 511) / 512) {c : UInt32}
    (hcrc : c = crc32Update 0xFFFFFFFF (bytes.take (512 * k))) :
    verifyFrom s si c (List.range' k m) = some (crc32Update 0xFFFFFFFF bytes) := by
  induction m generalizing k c with
  | zero =>
    rw [List.range'_zero, verifyFrom, hcrc, List.take_of_length_le (by omega)]
  | succ m ih =>
    obtain ⟨n, hn, hn512⟩ : ∃ n, n = min (bytes.length - 512 * k) 512 ∧ n ≤ 512 :=
      ⟨_, rfl, by omega⟩
    have hchunk : ((bytes.drop (512 * k)).take n).length = n := by
      rw [List.length_take, List.length_drop]
      omega
    rw [List.range'_succ]
    unfold verifyFrom
    dsimp only
    rw [hsize, Nat.mul_comm k 512, ← hn, hread (512 * k) n (by omega)]
    dsimp only
    rw [if_neg (not_not.mpr hchunk)]
    refine ih (by omega) ?_
    have htake : bytes.take (512 * (k + 1)) = bytes.take (512 * k) ++ (bytes.drop (512 * k)).take n := by
      rw [← List.take_add]
      by_cases hle : 512 * (k + 1) ≤ bytes.length
      · rw [show 512 * k + n = 512 * (k + 1) by omega]
      · rw [List.take_of_length_le (by omega), List.take_of_length_le (by omega)]
    rw [hcrc, htake, crc32Update_append]

/-- **`mwfs_file_verify`** accepts every file of the graph. -/
theorem fileVerify_spec (hs : Sane g s) (hok : GraphOk g G) (h : Rep g G (view g s.disk))
    {bytes : List UInt8} {aux : UInt32} (hj : G j = some (.file bytes aux)) :
    fileVerify s j = true := by
  obtain ⟨hj0, hlt⟩ := hok.bound j _ hj
  have hf := h.fileRep hj
  have hloop := verifyFrom_spec (s := s) (k := 0) (c := 0xFFFFFFFF) hf.size
    (fun off n hn => fileRep_pread hs rfl hf (h.data hj) hn) (Nat.zero_add _) rfl
  unfold fileVerify
  rw [inoGet_eq hs hj0 hlt]
  dsimp only
  rw [if_neg (not_not.mpr hf.type), hf.size, List.range_eq_range', hloop]
  dsimp only
  rw [hf.crc]
  exact beq_self_eq_true _

/-- Where there is no directory, nothing is looked up. -/
theorem dirFind_not_dir (hs : Sane g s) (hno : ((view g s.disk).ino j).type ≠ tDir) (name : Name) :
    ∃ e, dirFind s j name = .error e ∧ (e = .io ∨ e = .notdir) := by
  unfold dirFind
  by_cases hj : j = 0 ∨ g.inode_count ≤ j
  · rw [inoGet_none hs hj]
    exact ⟨_, rfl, Or.inl rfl⟩
  · rw [not_or, not_le] at hj
    rw [inoGet_eq hs hj.1 hj.2]
    dsimp only
    rw [if_pos hno]
    exact ⟨_, rfl, Or.inr rfl⟩

theorem dirLookup_not_dir (hs : Sane g s) (hno : ((view g s.disk).ino j).type ≠ tDir)
    (name : Name) : ∃ e, dirLookup s j name = .error e ∧ (e = .io ∨ e = .notdir) := by
  obtain ⟨e, he, hwhy⟩ := dirFind_not_dir hs hno name
  refine ⟨e, ?_, hwhy⟩
  unfold dirLookup
  rw [he]

end Reading

end Mwfs
