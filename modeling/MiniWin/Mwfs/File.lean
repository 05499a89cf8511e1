import MiniWin.Mwfs.Basic

/-!
# Allocating sectors and inodes

The free-space bitmap and the inode table of `kernel/mwfs.h`. Both allocators
are next-fit: they start where the last allocation ended and wrap once.
-/

namespace Mwfs

/-! ## The free-space bitmap -/

/-- `mwfs_bit_get`: `none` on an I/O error. -/
def bitGet (s : St) (lba : Nat) : Option Bool :=
  match rd s (s.vol.bitmap_lba + lba / 4096) with
  | none => none
  | some b => some (b.testBit (lba % 4096))

/-- `mwfs_bit_set`. -/
def bitSet (s : St) (lba : Nat) (on : Bool) : Bool × St :=
  match rd s (s.vol.bitmap_lba + lba / 4096) with
  | none => (false, s)
  | some b => wr s (s.vol.bitmap_lba + lba / 4096) (b.setBit (lba % 4096) on)

/-- What the scan of one byte or one sector of the bitmap comes to: nothing
free here, the rest is past the end of the volume, or a free sector. -/
inductive Scan where
  | next
  | stop
  | hit (lba : Nat)
  deriving DecidableEq

/-- The eight bits of byte `i` of bitmap sector `si`. -/
def scanByte (g : Geo) (b : Block) (si i : Nat) : List Nat → Scan
  | [] => .next
  | k :: ks =>
    if b.testBit (i * 8 + k) then scanByte g b si i ks
    else
      let lba := si * 4096 + i * 8 + k
      if g.sectors ≤ lba then .stop
      else if lba < g.data_lba then scanByte g b si i ks
      else .hit lba

/-- These bytes of bitmap sector `si`; a full byte is passed over at once. -/
def scanBytes (g : Geo) (b : Block) (si : Nat) : List Nat → Scan
  | [] => .next
  | i :: is =>
    if b i = 0xFF then scanBytes g b si is
    else
      match scanByte g b si i (List.range 8) with
      | .next => scanBytes g b si is
      | r => r

/-- All of bitmap sector `si`. -/
@[irreducible]
def scanSector (g : Geo) (b : Block) (si : Nat) : Scan := scanBytes g b si (List.range 512)

/-- The passes of `mwfs_alloc` over the sectors of the bitmap. -/
def allocFrom (s : St) (start : Nat) : List Nat → Nat × St
  | [] => (0, s)
  | pass :: passes =>
    let si := (start + pass) % s.vol.bitmap_sectors
    match rd s (s.vol.bitmap_lba + si) with
    | none => (0, s)
    | some b =>
      match scanSector s.vol.toGeo b si with
      | .next => allocFrom s start passes
      | .stop => (0, s)
      | .hit lba =>
        match wr s (s.vol.bitmap_lba + si) (b.setBit (lba - si * 4096) true) with
        | (false, s) => (0, s)
        | (true, s) => (lba, { s with vol := { s.vol with cur_blk := lba + 1 } })

/-- `mwfs_alloc`: marks a free data sector used and returns it, or `0`. -/
def alloc (s : St) : Nat × St :=
  let start := s.vol.cur_blk / 4096
  allocFrom s (if s.vol.bitmap_sectors ≤ start then 0 else start)
    (List.range s.vol.bitmap_sectors)

/-- `mwfs_free_sector`. -/
def freeSector (s : St) (lba : Nat) : St :=
  if s.vol.data_lba ≤ lba ∧ lba < s.vol.sectors then (bitSet s lba false).2 else s

/-! ## Inodes -/

/-- `mwfs_ino_get`: `none` when there is no such inode or it cannot be read. -/
def inoGet (s : St) (ino : Nat) : Option Ino :=
  if ino = 0 ∨ s.vol.inode_count ≤ ino then none
  else
    match rd s (s.vol.itable_lba + ino / 8) with
    | none => none
    | some b => some (Ino.ofBlock b (ino % 8 * inoSize))

/-- `mwfs_ino_put`. -/
def inoPut (s : St) (ino : Nat) (t : Ino) : Bool × St :=
  if ino = 0 ∨ s.vol.inode_count ≤ ino then (false, s)
  else
    match rd s (s.vol.itable_lba + ino / 8) with
    | none => (false, s)
    | some b => wr s (s.vol.itable_lba + ino / 8) (b.putWords (ino % 8 * inoSize) 16 t.words)

/-- The passes of `mwfs_ino_alloc` over the inode table. -/
def inoAllocFrom (s : St) (type : Nat) : List Nat → Nat × St
  | [] => (0, s)
  | pass :: passes =>
    let ino := 2 + (s.vol.cur_ino + pass) % (s.vol.inode_count - 2)
    match inoGet s ino with
    | none => (0, s)
    | some t =>
      if t.type = tFree then
        match inoPut s ino { Ino.zero with type := type } with
        | (false, s) => (0, s)
        | (true, s) => (ino, { s with vol := { s.vol with cur_ino := ino } })
      else inoAllocFrom s type passes

/-- `mwfs_ino_alloc`: a free inode made an empty one of this type, or `0`. -/
def inoAlloc (s : St) (type : Nat) : Nat × St :=
  inoAllocFrom s type (List.range s.vol.inode_count)

end Mwfs

/-!
## The sectors of a file

How `kernel/mwfs.h` finds, reads, writes and gives back the sectors of a file
or a directory: eight direct pointers, a table of 128 more, and a table of 128
such tables. A pointer that is `0` is a hole.
-/

namespace Mwfs

/-- `mwfs_new_zeroed`: a fresh sector, cleared. -/
def newZeroed (s : St) : Err × Nat × St :=
  match alloc s with
  | (0, s) => (.full, 0, s)
  | (l + 1, s) =>
    match wr s (l + 1) Block.zero with
    | (false, s) => (.io, 0, s)
    | (true, s) => (.ok, l + 1, s)

/-- Where the pointer to a sector of a file is kept: in the inode, or in entry
`i` of the table at `tlba`, whose contents have been read. -/
inductive Slot where
  | direct (idx : Nat)
  | entry (tlba : Nat) (table : Block) (i : Nat)

/-- The first half of `mwfs_bmap`: finds where the pointer to sector `idx` is
kept, making the tables on the way to it when `create` says so. `none` with
`.ok` is a hole. -/
def bmapSlot (s : St) (t : Ino) (idx : Nat) (create : Bool) : Err × Option Slot × Ino × St :=
  if idx < ndirect then (.ok, some (.direct idx), t, s)
  else if idx - ndirect < ptrs then
    if t.ind = 0 ∧ create = false then (.ok, none, t, s)
    else
      match (if t.ind = 0 then newZeroed s else (.ok, t.ind, s)) with
      | (.ok, ind, s) =>
        match rd s ind with
        | none => (.io, none, { t with ind := ind }, s)
        | some table => (.ok, some (.entry ind table (idx - ndirect)), { t with ind := ind }, s)
      | (e, _, s) => (e, none, t, s)
  else
    let j := idx - ndirect - ptrs
    if ptrs * ptrs ≤ j then (.toobig, none, t, s)
    else if t.dind = 0 ∧ create = false then (.ok, none, t, s)
    else
      match (if t.dind = 0 then newZeroed s else (.ok, t.dind, s)) with
      | (.ok, dind, s) =>
        let t := { t with dind := dind }
        match rd s dind with
        | none => (.io, none, t, s)
        | some top =>
          let mid := top.le32 (4 * (j / ptrs))
          if mid = 0 ∧ create = false then (.ok, none, t, s)
          else
            match (if mid = 0 then newZeroed s else (.ok, mid, s)) with
            | (.ok, tlba, s) =>
              match (if mid = 0 then wr s dind (top.put32 (4 * (j / ptrs)) tlba) else (true, s)) with
              | (false, s) => (.io, none, t, s)
              | (true, s) =>
                match rd s tlba with
                | none => (.io, none, t, s)
                | some table => (.ok, some (.entry tlba table (j % ptrs)), t, s)
            | (e, _, s) => (e, none, t, s)
      | (e, _, s) => (e, none, t, s)

/-- The pointer kept at a slot. -/
def Slot.get (t : Ino) : Slot → Nat
  | .direct idx => t.direct idx
  | .entry _ table i => table.le32 (4 * i)

/-- The inode with the pointer at a slot of its own changed. -/
def Slot.setIno (t : Ino) (l : Nat) : Slot → Ino
  | .direct idx => { t with direct := Function.update t.direct idx l }
  | .entry _ _ _ => t

/-- The sector that fills a hole: cleared only with `zeroData`. -/
def takeFresh (s : St) (zeroData : Bool) : Err × Nat × St :=
  if zeroData then newZeroed s
  else match alloc s with
    | (0, s) => (.full, 0, s)
    | (l + 1, s) => (.ok, l + 1, s)

/-- The second half of `mwfs_bmap`: reads the pointer at the slot, and fills it
with a fresh sector when it is a hole and `create` says so. -/
def bmapFill (s : St) (t : Ino) (slot : Slot) (create zeroData : Bool) : Err × Nat × Ino × St :=
  if slot.get t ≠ 0 then (.ok, slot.get t, t, s)
  else if create = false then (.ok, 0, t, s)
  else
    match takeFresh s zeroData with
    | (.ok, l, s) =>
      let t := { slot.setIno t l with nblocks := (t.nblocks + 1) % 4294967296 }
      match slot with
      | .direct _ => (.ok, l, t, s)
      | .entry tlba table i =>
        match wr s tlba (table.put32 (4 * i) l) with
        | (false, s) => (.io, 0, t, s)
        | (true, s) => (.ok, l, t, s)
    | (e, _, s) => (e, 0, t, s)

/-- `mwfs_bmap`: the sector holding the `idx`-th sector of the file, `0` for a
hole. With `create` what is missing is allocated; the data sector itself is
cleared only with `zeroData`. The inode is updated in memory. -/
def bmap (s : St) (t : Ino) (idx : Nat) (create zeroData : Bool) : Err × Nat × Ino × St :=
  match bmapSlot s t idx create with
  | (.ok, some slot, t, s) => bmapFill s t slot create zeroData
  | (.ok, none, t, s) => (.ok, 0, t, s)
  | (e, _, t, s) => (e, 0, t, s)

/-- The loop of `mwfs_pread`: the bytes from `pos` on. -/
def preadFrom (s : St) (t : Ino) (pos len : Nat) : Option (List UInt8) :=
  if _h : len = 0 then some []
  else
    let idx := pos / 512
    let inn := pos % 512
    let n := min (512 - inn) len
    match bmap s t idx false false with
    | (.ok, lba, _, _) =>
      match (if lba = 0 then some Block.zero else rd s lba) with
      | none => none
      | some b =>
        match preadFrom s t (pos + n) (len - n) with
        | none => none
        | some rest => some (b.slice inn n ++ rest)
    | _ => none
termination_by len
decreasing_by
  have : pos % 512 < 512 := Nat.mod_lt _ (by omega)
  omega

/-- `mwfs_pread`: the bytes read, at most `len` of them and none past the end
of the file; `none` on an I/O error. -/
def pread (s : St) (t : Ino) (off len : Nat) : Option (List UInt8) :=
  if t.size ≤ off then some [] else preadFrom s t off (min len (t.size - off))

/-- `mwfs_pwrite`: writes the bytes at `off`, extending the file. The inode is
updated in memory. -/
def pwrite (s : St) (t : Ino) (off : Nat) (data : List UInt8) : Err × Ino × St :=
  if _h : data = [] then (.ok, t, s)
  else
    let idx := off / 512
    let inn := off % 512
    let n := min (512 - inn) data.length
    match bmap s t idx true (n ≠ 512) with
    | (.ok, lba, t, s) =>
      match (if n ≠ 512 then rd s lba else some Block.zero) with
      | none => (.io, t, s)
      | some b =>
        match wr s lba (b.put inn (data.take n)) with
        | (false, s) => (.io, t, s)
        | (true, s) =>
          pwrite s { t with size := if t.size < off + n then off + n else t.size } (off + n)
            (data.drop n)
    | (e, _, t, s) => (e, t, s)
termination_by data.length
decreasing_by
  have : off % 512 < 512 := Nat.mod_lt _ (by omega)
  have : data.length ≠ 0 := fun hl => _h (List.length_eq_zero_iff.mp hl)
  simp only [List.length_drop]
  omega

/-! ## Giving sectors back -/

/-- Gives back the sectors a list of pointers names. -/
def freeList (s : St) : List Nat → St
  | [] => s
  | l :: ls => freeList (if l = 0 then s else freeSector s l) ls

/-- The 128 pointers of a table. -/
def tableEntries (b : Block) : List Nat := (List.range ptrs).map fun i => b.le32 (4 * i)

/-- Gives back a table and the sectors it points at. -/
def freeTable (s : St) (tlba : Nat) : St :=
  let s := match rd s tlba with
    | none => s
    | some b => freeList s (tableEntries b)
  freeSector s tlba

/-- Gives back the tables a list of pointers names, and what they point at. -/
def freeTables (s : St) : List Nat → St
  | [] => s
  | l :: ls => freeTables (if l = 0 then s else freeTable s l) ls

/-- `mwfs_free_blocks`: gives back every sector a file or directory owns. The
inode whose pointers it empties is in memory, and both callers discard it. -/
def freeBlocks (s : St) (t : Ino) : St :=
  let s := freeList s ((List.range ndirect).map t.direct)
  let s := if t.ind = 0 then s else freeTable s t.ind
  if t.dind = 0 then s
  else
    let s := match rd s t.dind with
      | none => s
      | some top => freeTables s (tableEntries top)
    freeSector s t.dind

/-- `mwfs_ino_release`: frees an inode and everything under it. -/
def inoRelease (s : St) (ino : Nat) : St :=
  match inoGet s ino with
  | none => s
  | some t => (inoPut (freeBlocks s t) ino Ino.zero).2

end Mwfs
