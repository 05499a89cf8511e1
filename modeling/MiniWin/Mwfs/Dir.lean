import MiniWin.Mwfs.File

/-!
# Directories

A directory of `kernel/mwfs.h` is a file of 64-byte entries, eight to a
sector: inode number, type, length of the name, name. An entry whose inode
number is `0` is free.
-/

namespace Mwfs

/-! ## Entries -/

/-- The bytes of a C string kept in a buffer: those before the first zero. -/
def cstr (bs : List UInt8) : Name := bs.takeWhile (· != 0)

/-- The inode number of entry `e` of a directory sector; `0` when it is free. -/
def dentIno (b : Block) (e : Nat) : Nat := b.le32 (e * dentSize)

/-- Entry `e` of a directory sector, read as a used one. -/
def dentAt (b : Block) (e : Nat) : Dent where
  ino := dentIno b e
  type := (b (e * dentSize + 4)).toNat
  name := cstr (b.slice (e * dentSize + 6) (min (b (e * dentSize + 5)).toNat nameMax))

/-- The 64 bytes `mwfs_dent_fill` writes. -/
def dentBytes (ino type : Nat) (name : Name) : List UInt8 :=
  [Block.byteOf ino 0, Block.byteOf ino 1, Block.byteOf ino 2, Block.byteOf ino 3,
    UInt8.ofNat type, UInt8.ofNat (name.take nameMax).length]
    ++ name.take nameMax ++ List.replicate (dentSize - 6 - (name.take nameMax).length) 0

/-- `mwfs_dent_fill`. -/
def dentFill (b : Block) (e ino type : Nat) (name : Name) : Block :=
  b.put (e * dentSize) (dentBytes ino type name)

/-- Entry `e` of a directory sector cleared. -/
def dentClear (b : Block) (e : Nat) : Block :=
  b.put (e * dentSize) (List.replicate dentSize 0)

/-! ## Walking a directory -/

/-- Sector `k` of a directory, with where it is: a hole is damage. -/
def dirLoad (s : St) (d : Ino) (k : Nat) : Except Err (Nat × Block) :=
  match bmap s d k false false with
  | (.ok, lba, _, _) =>
    if lba = 0 then .error .corrupt
    else
      match rd s lba with
      | none => .error .io
      | some b => .ok (lba, b)
  | _ => .error .corrupt

/-- The sectors `k` with `k * 512 < size`. -/
def dirSectors (d : Ino) : List Nat := List.range ((d.size + 511) / 512)

/-- The `idx`-th used entry among these of a sector, or how many are left to
pass over. -/
def dirNthIn (b : Block) : List Nat → Nat → Nat ⊕ Dent
  | [], idx => .inl idx
  | e :: es, idx =>
    if dentIno b e = 0 then dirNthIn b es idx
    else if idx = 0 then .inr (dentAt b e)
    else dirNthIn b es (idx - 1)

def dirNthFrom (s : St) (d : Ino) : List Nat → Nat → Option (Option Dent)
  | [], _ => some none
  | k :: ks, idx =>
    match dirLoad s d k with
    | .error _ => none
    | .ok (_, b) =>
      match dirNthIn b (List.range 8) idx with
      | .inr e => some (some e)
      | .inl idx => dirNthFrom s d ks idx

/-- `mwfs_dir_nth`: the `idx`-th used entry; `some none` when there are no
more, `none` on an error. -/
def dirNth (s : St) (dino idx : Nat) : Option (Option Dent) :=
  match inoGet s dino with
  | none => none
  | some d => if d.type ≠ tDir then none else dirNthFrom s d (dirSectors d) idx

/-- What `mwfs_dir_find` fills in: the entry's inode and type, and its sector
and place there. -/
structure Found where
  ino : Nat
  type : Nat
  sec : Nat
  ent : Nat
  deriving DecidableEq

/-- The first used entry among these of a sector with this name. -/
def dirFindIn (b : Block) (name : Name) : List Nat → Option Nat
  | [] => none
  | e :: es =>
    if dentIno b e ≠ 0 ∧ nameEq (dentAt b e).name name = true then some e
    else dirFindIn b name es

def dirFindFrom (s : St) (d : Ino) (name : Name) : List Nat → Except Err Found
  | [] => .error .noent
  | k :: ks =>
    match dirLoad s d k with
    | .error e => .error e
    | .ok (lba, b) =>
      match dirFindIn b name (List.range 8) with
      | some e => .ok ⟨dentIno b e, (dentAt b e).type, lba, e⟩
      | none => dirFindFrom s d name ks

/-- `mwfs_dir_find`. -/
def dirFind (s : St) (dino : Nat) (name : Name) : Except Err Found :=
  match inoGet s dino with
  | none => .error .io
  | some d => if d.type ≠ tDir then .error .notdir else dirFindFrom s d name (dirSectors d)

/-- `mwfs_dir_lookup`: the inode and the type of an entry. -/
def dirLookup (s : St) (dino : Nat) (name : Name) : Except Err (Nat × Nat) :=
  match dirFind s dino name with
  | .error e => .error e
  | .ok f => .ok (f.ino, f.type)

/-! ## Changing a directory -/

/-- The first free entry among these of a sector. -/
def dirFreeIn (b : Block) : List Nat → Option Nat
  | [] => none
  | e :: es => if dentIno b e ≠ 0 then dirFreeIn b es else some e

/-- The first free entry of a directory: its sector, the contents and the
place; `.ok none` when every entry is used. -/
def dirFreeFrom (s : St) (d : Ino) : List Nat → Except Err (Option (Nat × Block × Nat))
  | [] => .ok none
  | k :: ks =>
    match dirLoad s d k with
    | .error e => .error e
    | .ok (lba, b) =>
      match dirFreeIn b (List.range 8) with
      | some e => .ok (some (lba, b, e))
      | none => dirFreeFrom s d ks

/-- `mwfs_dir_add`: enters a new name, in a free entry or in a new sector. -/
def dirAdd (s : St) (dino : Nat) (name : Name) (ino type : Nat) : Err × St :=
  if nameOk name = false then (.name, s)
  else
    match inoGet s dino with
    | none => (.io, s)
    | some d =>
      if d.type ≠ tDir then (.notdir, s)
      else
        match dirFind s dino name with
        | .ok _ => (.exist, s)
        | .error .noent =>
          match dirFreeFrom s d (dirSectors d) with
          | .error e => (e, s)
          | .ok (some (lba, b, e)) =>
            match wr s lba (dentFill b e ino type name) with
            | (true, s) => (.ok, s)
            | (false, s) => (.io, s)
          | .ok none =>
            match pwrite s d d.size ((dentFill Block.zero 0 ino type name).slice 0 512) with
            | (e, d, s) =>
              match inoPut s dino d with
              | (true, s) => (e, s)
              | (false, s) => (if e = .ok then .io else e, s)
        | .error e => (e, s)

/-- Writes entry `ent` of the directory sector `sec` after a change to it. -/
def dirEdit (s : St) (sec : Nat) (f : Block → Block) : Err × St :=
  match rd s sec with
  | none => (.io, s)
  | some b =>
    match wr s sec (f b) with
    | (true, s) => (.ok, s)
    | (false, s) => (.io, s)

/-- `mwfs_dir_remove`. -/
def dirRemove (s : St) (dino : Nat) (name : Name) : Err × St :=
  match dirFind s dino name with
  | .error e => (e, s)
  | .ok f => dirEdit s f.sec fun b => dentClear b f.ent

/-- `mwfs_dir_retarget`: points an existing entry at another inode, in a single
write. -/
def dirRetarget (s : St) (dino : Nat) (name : Name) (ino : Nat) : Err × St :=
  match dirFind s dino name with
  | .error e => (e, s)
  | .ok f => dirEdit s f.sec fun b => b.put32 (f.ent * dentSize) ino

/-- `mwfs_dir_is_empty`. -/
def dirIsEmpty (s : St) (dino : Nat) : Bool := dirNth s dino 0 == some none

end Mwfs
