import MiniWin.Mwfs.Dir

/-!
# Whole-file operations, formatting and mounting

A save never modifies a file in place: the new contents go to a fresh inode,
one directory-entry write switches the name over, and the old inode is freed
afterwards.
-/

namespace Mwfs

/-! ## Whole-file operations -/

/-- `mwfs_file_install`: the switch-over shared by every way of making a file.
The new inode is stored, one directory-entry write makes the name point at
it, then the old file is freed. On a failure the new inode is released. -/
def fileInstall (s : St) (dino : Nat) (name : Name) (ino : Nat) (t : Ino) (err : Err) : Err × St :=
  let f := dirLookup s dino name
  let (stored, s) := inoPut s ino t
  let e := if stored = false ∧ err = .ok then .io else err
  let e := if e = .ok then
      match f with
      | .ok (_, oldtype) => if oldtype = tDir then .isdir else .ok
      | .error .noent => .ok
      | .error e => e
    else e
  let (e, s) := if e = .ok then
      match f with
      | .ok _ => dirRetarget s dino name ino
      | .error _ => dirAdd s dino name ino tFile
    else (e, s)
  if e ≠ .ok then (e, inoRelease s ino)
  else
    match f with
    | .ok (old, _) => (.ok, inoRelease s old)
    | .error _ => (.ok, s)

/-- The part `mwfs_file_put` and `mwfs_file_copy` begin with: may this name be
made a file here? -/
def fileMayMake (s : St) (dino : Nat) (name : Name) : Err :=
  match dirLookup s dino name with
  | .ok (_, oldtype) => if oldtype = tDir then .isdir else .ok
  | .error .noent => .ok
  | .error e => e

/-- `mwfs_file_put`: creates or atomically replaces a file. `now` is what the
clock says. -/
def filePut (s : St) (dino : Nat) (name : Name) (data : List UInt8) (aux now : UInt32) :
    Err × St :=
  if nameOk name = false then (.name, s)
  else if fileMayMake s dino name ≠ .ok then (fileMayMake s dino name, s)
  else
    match inoAlloc s tFile with
    | (0, s) => (.full, s)
    | (ino + 1, s) =>
      match inoGet s (ino + 1) with
      | none => (.io, s)
      | some t =>
        match pwrite s { t with aux := aux, gen := now } 0 data with
        | (e, t, s) =>
          fileInstall s dino name (ino + 1)
            (if e = .ok then { t with crc := crc32 data } else t) e

/-- The loop of `mwfs_file_copy`, 512 bytes at a time. `src` reads the source
file: it sees the destination volume, which may be its own. -/
def copyFrom (src : St → Nat → Nat → Option (List UInt8)) (size : Nat) (s : St) (t : Ino)
    (crc : UInt32) : List Nat → Err × UInt32 × Ino × St
  | [] => (.ok, crc, t, s)
  | k :: ks =>
    let off := k * 512
    let n := min (size - off) 512
    match src s off n with
    | none => (.io, crc, t, s)
    | some b =>
      if b.length ≠ n then (.io, crc, t, s)
      else
        match pwrite s t off b with
        | (.ok, t, s) => copyFrom src size s t (crc32Update crc b) ks
        | (e, t, s) => (e, crc32Update crc b, t, s)

/-- `mwfs_file_copy` from a source inode that has been read: `srcIno` is the
inode and `src` reads its bytes. -/
def fileCopyWith (srcIno : Option Ino) (src : Ino → St → Nat → Nat → Option (List UInt8)) (s : St)
    (ddir : Nat) (name : Name) (now : UInt32) : Err × St :=
  if nameOk name = false then (.name, s)
  else
    match srcIno with
    | none => (.io, s)
    | some si =>
      if si.type ≠ tFile then (.isdir, s)
      else if fileMayMake s ddir name ≠ .ok then (fileMayMake s ddir name, s)
      else
        match inoAlloc s tFile with
        | (0, s) => (.full, s)
        | (ino + 1, s) =>
          match inoGet s (ino + 1) with
          | none => (.io, s)
          | some t =>
            match copyFrom (src si) si.size s { t with aux := si.aux, gen := now } 0xFFFFFFFF
                (List.range ((si.size + 511) / 512)) with
            | (e, crc, t, s) => fileInstall s ddir name (ino + 1) { t with crc := ~~~ crc } e

/-- `mwfs_file_copy` inside one volume (`sv` and `dv` the same). -/
def fileCopy (s : St) (srcIno ddir : Nat) (name : Name) (now : UInt32) : Err × St :=
  fileCopyWith (inoGet s srcIno) (fun si s off n => pread s si off n) s ddir name now

/-- `mwfs_file_get`: the whole file, at most `max` bytes. -/
def fileGet (s : St) (ino max : Nat) : Except Err (List UInt8) :=
  match inoGet s ino with
  | none => .error .io
  | some t =>
    if t.type ≠ tFile then .error .isdir
    else if max < t.size then .error .toobig
    else
      match pread s t 0 t.size with
      | none => .error .io
      | some bs => if bs.length ≠ t.size then .error .io else .ok bs

/-- The loop of `mwfs_file_verify`. -/
def verifyFrom (s : St) (t : Ino) (crc : UInt32) : List Nat → Option UInt32
  | [] => some crc
  | k :: ks =>
    let n := min (t.size - k * 512) 512
    match pread s t (k * 512) n with
    | none => none
    | some b => if b.length ≠ n then none else verifyFrom s t (crc32Update crc b) ks

/-- `mwfs_file_verify`: the file matches the CRC stored with it. -/
def fileVerify (s : St) (ino : Nat) : Bool :=
  match inoGet s ino with
  | none => false
  | some t =>
    if t.type ≠ tFile then false
    else
      match verifyFrom s t 0xFFFFFFFF (List.range ((t.size + 511) / 512)) with
      | none => false
      | some crc => ~~~ crc == t.crc

/-- `mwfs_mkdir`: the new directory's inode on success. A stamp that could not
be written is not an error. -/
def mkdir (s : St) (dino : Nat) (name : Name) (now : UInt32) : Err × Nat × St :=
  if nameOk name = false then (.name, 0, s)
  else
    match dirLookup s dino name with
    | .ok _ => (.exist, 0, s)
    | .error .noent =>
      match inoAlloc s tDir with
      | (0, s) => (.full, 0, s)
      | (ino + 1, s) =>
        let s := match inoGet s (ino + 1) with
          | none => s
          | some dt => (inoPut s (ino + 1) { dt with gen := now }).2
        match dirAdd s dino name (ino + 1) tDir with
        | (.ok, s) => (.ok, ino + 1, s)
        | (e, s) => (e, 0, inoRelease s (ino + 1))
    | .error e => (e, 0, s)

/-- `mwfs_unlink`: removes a file, or an empty directory. The entry goes first. -/
def unlink (s : St) (dino : Nat) (name : Name) : Err × St :=
  match dirLookup s dino name with
  | .error e => (e, s)
  | .ok (ino, type) =>
    if type = tDir ∧ dirIsEmpty s ino = false then (.notempty, s)
    else
      match dirRemove s dino name with
      | (.ok, s) => (.ok, inoRelease s ino)
      | (e, s) => (e, s)

/-- `mwfs_rename`: the new entry is written first, the old one removed second.
An existing file at the destination is replaced. -/
def rename (s : St) (fromDir : Nat) (fromName : Name) (toDir : Nat)
    (toName : Name) : Err × St :=
  match dirLookup s fromDir fromName with
  | .error e => (e, s)
  | .ok (ino, type) =>
    if nameOk toName = false then (.name, s)
    else
      match dirLookup s toDir toName with
      | .ok (dst, dtype) =>
        if dst = ino then (.ok, s)
        else if dtype = tDir ∨ type = tDir then (.exist, s)
        else
          match dirRetarget s toDir toName ino with
          | (.ok, s) =>
            match dirRemove s fromDir fromName with
            | (.ok, s) => (.ok, inoRelease s dst)
            | (e, s) => (e, s)
          | (e, s) => (e, s)
      | .error .noent =>
        match dirAdd s toDir toName ino type with
        | (.ok, s) => dirRemove s fromDir fromName
        | (e, s) => (e, s)
      | .error e => (e, s)

/-! ## Formatting and mounting -/

/-- How many inodes `mwfs_geometry` gives a volume of `n` sectors: one for every
eight sectors, within bounds, and whole sectors of them. -/
def inodesFor (n : Nat) : Nat :=
  let inodes := n / 8
  let inodes := if inodes < minInodes then minInodes else inodes
  let inodes := if maxInodes < inodes then maxInodes else inodes
  (inodes + 7) / 8 * 8

/-- `mwfs_geometry`: the geometry of a volume of `n` sectors, `none` when it is
too small to be useful. `n + 4095` is a 32-bit sum. -/
def geometry (n : Nat) : Option Geo :=
  if n < 64 then none
  else
    let bitmap_sectors := (n + 4095) % 4294967296 / 4096
    let itable_lba := 1 + bitmap_sectors
    let itable_sectors := inodesFor n / 8
    let data_lba := itable_lba + itable_sectors
    if data_lba + 8 ≤ n then
      some ⟨n, inodesFor n, 1, bitmap_sectors, itable_lba, itable_sectors, data_lba⟩
    else none

/-- The offset of the superblock's CRC. -/
def sbCrcOff : Nat := 44

/-- The ten numbers of the superblock that its CRC covers, and the zero after
them. -/
def sbWords (g : Geo) : Nat → Nat
  | 0 => magic
  | 1 => version
  | 2 => g.sectors
  | 3 => g.inode_count
  | 4 => g.bitmap_lba
  | 5 => g.bitmap_sectors
  | 6 => g.itable_lba
  | 7 => g.itable_sectors
  | 8 => g.data_lba
  | 9 => rootIno
  | _ => 0

/-- The superblock `mwfs_sb_write` writes. -/
def sbBlock (g : Geo) (label : Name) : Block :=
  let b := Block.zero.putWords 0 10 (sbWords g)
  let b := b.put32 sbCrcOff (crc32 (b.slice 0 sbCrcOff)).toNat
  b.put 48 label

/-- `mwfs_sb_write`. -/
def sbWrite (s : St) : Bool × St := wr s 0 (sbBlock s.vol.toGeo s.vol.label)

/-- `mwfs_strcpy` into a buffer of `n` bytes: padded with zeros, the last byte
always one. -/
def strcpy (src : Name) (n : Nat) : List UInt8 :=
  let t := (cstr src).take (n - 1)
  t ++ List.replicate (n - t.length) 0

/-- Sector `k` of a fresh bitmap: the metadata and the bits past the end are in
use. -/
def freshBitmap (g : Geo) (k : Nat) : Block := fun i =>
  (List.range 8).foldl (fun x bit =>
    if k * 4096 + i * 8 + bit < g.data_lba ∨ g.sectors ≤ k * 4096 + i * 8 + bit then
      x ||| UInt8.ofNat (2 ^ bit)
    else x) 0

/-- Writes one sector after the other from `lba` on; `false` at the first that
fails. -/
def wrAll (s : St) (lba : Nat) : List Block → Bool × St
  | [] => (true, s)
  | b :: bs =>
    match wr s lba b with
    | (false, s) => (false, s)
    | (true, s) => wrAll s (lba + 1) bs

/-- `mwfs_mkfs`: a fresh, empty filesystem over the whole volume. The superblock
is written last. -/
def mkfs (s : St) (label : Name) : Err × St :=
  match geometry s.vol.sectors with
  | none => (.small, s)
  | some g =>
    let s := { s with vol := { s.vol with toGeo := g } }
    match wr s 0 Block.zero with
    | (false, s) => (.io, s)
    | (true, s) =>
      match wrAll s g.bitmap_lba ((List.range g.bitmap_sectors).map (freshBitmap g)) with
      | (false, s) => (.io, s)
      | (true, s) =>
        match wrAll s g.itable_lba (List.replicate g.itable_sectors Block.zero) with
        | (false, s) => (.io, s)
        | (true, s) =>
          match inoPut s rootIno { Ino.zero with type := tDir } with
          | (false, s) => (.io, s)
          | (true, s) =>
            let s := { s with vol := { s.vol with
              label := strcpy label 16, cur_blk := g.data_lba, cur_ino := 1 } }
            match sbWrite s with
            | (true, s) => (.ok, s)
            | (false, s) => (.io, s)

/-- The geometry a superblock records. -/
def sbGeo (b : Block) : Geo where
  sectors := b.le32 8
  inode_count := b.le32 12
  bitmap_lba := b.le32 16
  bitmap_sectors := b.le32 20
  itable_lba := b.le32 24
  itable_sectors := b.le32 28
  data_lba := b.le32 32

/-- `mwfs_open`: reads the superblock of a volume whose `sectors` says how many
there are from its first on, and fills in the geometry. -/
def openVol (s : St) : Err × St :=
  if s.rdOk 0 = false then (.io, s)
  else
    let b := s.disk 0
    if b.le32 0 ≠ magic then (.nofs, s)
    else if b.le32 4 ≠ version then (.corrupt, s)
    else if b.le32 sbCrcOff ≠ (crc32 (b.slice 0 sbCrcOff)).toNat then (.corrupt, s)
    else if s.vol.sectors < b.le32 8 ∨ b.le32 8 < 64 then (.corrupt, s)
    else
      let g := sbGeo b
      let s := { s with vol := { s.vol with toGeo := g } }
      if geometry g.sectors ≠ some g then (.corrupt, s)
      else
        let s := { s with vol := { s.vol with
          label := b.slice 48 15 ++ [0], cur_blk := g.data_lba, cur_ino := 1 } }
        match inoGet s rootIno with
        | none => (.io, s)
        | some r => if r.type ≠ tDir then (.corrupt, s) else (.ok, s)

/-- The zero bits of a byte, counted. -/
def zeroBits (x : UInt8) : Nat :=
  ((List.range 8).filter fun k => !(x.toNat.testBit k)).length

/-- The scan of `mwfs_free_count`, which stops at a sector it cannot read. -/
def freeCountFrom (s : St) (free : Nat) : List Nat → Nat
  | [] => free
  | k :: ks =>
    match rd s (s.vol.bitmap_lba + k) with
    | none => free
    | some b => freeCountFrom s (free + ((List.range 512).map fun i => zeroBits (b i)).sum) ks

/-- `mwfs_free_count`: the free sectors of the volume, by counting zero bits. -/
def freeCount (s : St) : Nat := freeCountFrom s 0 (List.range s.vol.bitmap_sectors)

end Mwfs
