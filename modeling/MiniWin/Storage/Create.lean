import MiniWin.Lib.Block
import MiniWin.Lib.Gaps

/-!
# Storage devices and their partition tables

The table of block devices of `kernel/blk.h`, the storage ids of `kernel/storage.h` and the sector
with the partition table, as `part create` of `kernel/apps/shell_part.h` uses them. A device is what
a scan has found at its place in the table, with the sectors it reads and writes.
-/

namespace Storage

/-! ## Devices -/

/-- `st_type_t`. -/
inductive DevType where
  | ide | sata | nvme | scsi | usb | fd | cd
  deriving DecidableEq, Repr

/-- `ST_E_*`; `malformed` is `ST_E_SYNTAX`. -/
inductive Err where
  | malformed | unknown_type | no_driver | no_device | read_only
  deriving DecidableEq, Repr

/-- The bytes of a C string. -/
def ascii (s : String) : List UInt8 := s.toList.map Char.toUInt8

/-- `st_type_names`. -/
def typeNames : List (List UInt8 × DevType) :=
  [(ascii "ide", .ide), (ascii "sata", .sata), (ascii "nvme", .nvme), (ascii "scsi", .scsi),
    (ascii "usb", .usb), (ascii "fd", .fd), (ascii "cd", .cd)]

/-- `st_type_has_driver`. -/
def hasDriver (t : DevType) : Bool :=
  t = .ide ∨ t = .sata ∨ t = .scsi ∨ t = .nvme ∨ t = .fd ∨ t = .cd

/-- `blk_first_of`. -/
def firstOf : DevType → Option Nat
  | .ide => some 0
  | .sata => some 4
  | .scsi => some 12
  | .nvme => some 20
  | .fd => some 24
  | .cd => some 25
  | .usb => none

/-- `blk_count_of`. -/
def countOf : DevType → Nat
  | .ide => 4
  | .sata => 8
  | .scsi => 8
  | .nvme => 4
  | .fd => 1
  | .cd => 4
  | .usb => 0

/-- `blk_index`. -/
def blkIndex (type : DevType) (number : Nat) : Option Nat :=
  if number < 1 ∨ countOf type < number then none else (firstOf type).map (· + number - 1)

/-- `st_dev_t`, and the device behind it. -/
structure Dev where
  present : Bool
  sectors : UInt32
  store : Nat → Block
  rdOk : Nat → Bool
  wrOk : Nat → Bool

/-- `st_devs`. -/
abbrev Devs := Nat → Dev

/-- `blk_read`. -/
def blkRead (d : Dev) (lba : Nat) : Option Block :=
  if d.rdOk lba = true then some (d.store lba) else none

/-- `blk_write`. -/
def blkWrite (d : Dev) (lba : Nat) (b : Block) : Bool × Dev :=
  if d.wrOk lba = true then (true, { d with store := Function.update d.store lba b })
  else (false, d)

/-! ## Ids -/

/-- `st_id_t`. -/
structure Id where
  type : DevType
  dev : Nat
  part : Nat
  deriving DecidableEq

def isLetter (c : UInt8) : Bool :=
  ('a'.toUInt8 ≤ c ∧ c ≤ 'z'.toUInt8) ∨ ('A'.toUInt8 ≤ c ∧ c ≤ 'Z'.toUInt8)

def isDigit (c : UInt8) : Bool := '0'.toUInt8 ≤ c ∧ c ≤ '9'.toUInt8

/-- `st_lower`. -/
def lower (c : UInt8) : UInt8 := if 'A'.toUInt8 ≤ c ∧ c ≤ 'Z'.toUInt8 then c + 32 else c

def digit (c : UInt8) : Nat := (c - '0'.toUInt8).toNat

/-- `st_parse_id`. -/
def parseId (s : List UInt8) : Except Err Id :=
  let word := ((s.takeWhile isLetter).map lower).take 7
  let rest := s.dropWhile isLetter
  let ds := rest.takeWhile isDigit
  if word = [] then .error .malformed
  else if rest.dropWhile isDigit ≠ [] then .error .malformed
  else
    match typeNames.find? fun t => t.1 = word with
    | none => .error .unknown_type
    | some (_, type) =>
      if ds.length < 3 ∨ 8 < ds.length then .error .malformed
      else
        let dev := (ds.take (ds.length - 2)).foldl (fun n c => n * 10 + digit c) 0
        let part := (ds.drop (ds.length - 2)).foldl (fun n c => n * 10 + digit c) 0
        if dev = 0 then .error .malformed else .ok ⟨type, dev, part⟩

/-! ## The sector with the table -/

/-- `MBR_ENTRY`, the offset of an entry: they are numbered from 0. -/
def entryAt (i : Nat) : Nat := 446 + 16 * i

def entryType (m : Block) (i : Nat) : UInt8 := m (entryAt i + 4)
def entryStart (m : Block) (i : Nat) : Nat := m.le32 (entryAt i + 8)
def entryCount (m : Block) (i : Nat) : Nat := m.le32 (entryAt i + 12)

/-- An entry that `st_mbr_entry` does not call empty. -/
def Used (m : Block) (i : Nat) : Prop := entryType m i ≠ 0 ∧ entryCount m i ≠ 0

instance (m : Block) (i : Nat) : Decidable (Used m i) := by
  unfold Used
  infer_instance

/-- `ST_SCHEME_*`. -/
inductive Scheme where
  | none | mbr | gpt
  deriving DecidableEq

/-- `st_gpt_header`: whether there is a header that can be used. -/
def gptHeader (d : Dev) : Bool :=
  match blkRead d 1 with
  | .none => false
  | .some h =>
    h.slice 0 8 = ascii "EFI PART" ∧ h.le32 76 = 0
      ∧ ¬ (h.le32 84 < 128 ∨ 512 < h.le32 84 ∨ 512 % h.le32 84 ≠ 0) ∧ h.le32 80 ≠ 0

/-- `st_scheme`. -/
def scheme (d : Dev) : Scheme :=
  match blkRead d 0 with
  | .none => .none
  | .some s =>
    if s 510 ≠ 0x55 ∨ s 511 ≠ 0xAA then .none
    else if (∃ i ∈ List.range 4, entryType s i = 0xEE) ∧ gptHeader d = true then .gpt
    else if ∃ i ∈ List.range 4, entryType s i ≠ 0 then .mbr
    else .none

/-- A table with no entry, signed. -/
def freshTable : Block := fun i => if i = 510 then 0x55 else if i = 511 then 0xAA else 0

/-- `part_mbr_load`: the sector, and whether it had a table; `none` for a GPT or when it cannot be
read. -/
def mbrLoad (d : Dev) : Option (Bool × Block) :=
  match blkRead d 0 with
  | none => none
  | some m =>
    match scheme d with
    | .gpt => none
    | .mbr => some (true, m)
    | .none => some (false, freshTable)

/-- `part_mbr_store`: the sector is written and compared. -/
def mbrStore (d : Dev) (m : Block) : Bool × Dev :=
  match blkWrite d 0 m with
  | (false, d) => (false, d)
  | (true, d) =>
    match blkRead d 0 with
    | none => (false, d)
    | some back => (decide (∀ i ∈ List.range 512, back i = m i), d)

/-- `part_mbr_fill`, at the offset `o`. -/
def mbrFill (m : Block) (o start sectors : Nat) (type : UInt8) (active : Bool) : Block :=
  ((m.put o [if active then 0x80 else 0, 0xFE, 0xFF, 0xFF, type, 0xFE, 0xFF, 0xFF]).put32 (o + 8)
    start).put32 (o + 12) sectors

end Storage

/-!
## `part create`

`part_cmd_create` of `kernel/apps/shell_part.h`: the free gaps of a disk are carved in five slots,
and the new partition is the first that is big enough, or the biggest. Sector numbers, sums and
products are those of 32 bits.
-/

namespace Storage

/-- `PART_NEW_TYPE`. -/
def newType : UInt8 := 0xDA

/-- The cut of `[s, s + n)` out of the gap number `g`, as the loop over the slots makes it. -/
def carveAt (s n : Nat) (gaps : List Gap) (g : Nat) : List Gap :=
  match gaps[g]? with
  | none => gaps
  | some gap =>
    let a := gap.start
    let b := (a + gap.len) % 2 ^ 32
    let e := (s + n) % 2 ^ 32
    if ¬ (s < b ∧ a < e) then gaps
    else
      let left := if a < s then s - a else 0
      let right := if e < b then b - e else 0
      if left ≠ 0 ∧ right ≠ 0 ∧ gaps.length < 5 then gaps.set g ⟨a, left⟩ ++ [⟨e, right⟩]
      else if left ≠ 0 then gaps.set g ⟨a, left⟩
      else if right ≠ 0 then gaps.set g ⟨e, right⟩
      else gaps.set g ⟨a, 0⟩

/-- Entry `i` is cut out of every gap. -/
def carve (m : Block) (gaps : List Gap) (i : Nat) : List Gap :=
  if Used m i then (List.range 5).foldl (carveAt (entryStart m i) (entryCount m i)) gaps else gaps

/-- From 1 MB to the end of the device. -/
def wholeGap (total : Nat) : Gap := ⟨2048, if 2048 < total then total - 2048 else 0⟩

/-- The gaps of a disk; `tabled` says whether it had a table. -/
def freeGaps (tabled : Bool) (m : Block) (total : Nat) : List Gap :=
  if tabled then (List.range 4).foldl (carve m) [wholeGap total] else [wholeGap total]

/-- A start, moved up to the next megabyte. -/
def alignUp (s : Nat) : Nat := (s + 2047) % 2 ^ 32 / 2048 * 2048

/-- One round of the search for a gap: the pick so far, with its start moved. -/
def choose (want : Nat) (pick : Option Gap) (g : Gap) : Option Gap :=
  let a := alignUp g.start
  let stop := (g.start + g.len) % 2 ^ 32
  if stop ≤ a then pick
  else
    let len := stop - a
    if len < 2048 then pick
    else if want ≠ 0 ∧ len < want then pick
    else
      match pick with
      | none => some ⟨a, len⟩
      | some p => if want = 0 ∧ p.len < len then some ⟨a, len⟩ else some p

/-- The megabytes that were typed; none when that is not a number. -/
def megabytes (mb : List UInt8) : Option Nat :=
  mb.foldlM (fun v c => if ¬ isDigit c ∨ 2000000 < v then none else some (v * 10 + digit c)) 0

/-- What `part_cmd_create` prints. -/
inductive Reply where
  | usage
  | refused (e : Err)
  | primary
  | gpt
  | taken
  | not_megabytes
  | too_small
  | no_room
  | not_written
  | created (id : Id) (start len : Nat)

/-- The part of `part_cmd_create` behind the checks: `want` sectors, or as many as there are. -/
def place (id : Id) (d : Dev) (tabled : Bool) (m : Block) (want : Nat) : Reply × Dev :=
  match (freeGaps tabled m d.sectors.toNat).foldl (choose want) none with
  | none => (.no_room, d)
  | some p =>
    let len := if want ≠ 0 then want else p.len
    let len := if (p.start + len) % 2 ^ 32 < p.start then 2 ^ 32 - 1 - p.start else len
    match mbrStore d (mbrFill m (entryAt (id.part - 1)) p.start len newType false) with
    | (false, d) => (.not_written, d)
    | (true, d) => (.created id p.start len, d)

/-- `part_cmd_create` on the device an id names. -/
def createOn (id : Id) (d : Dev) (mb : List UInt8) : Reply × Dev :=
  match mbrLoad d with
  | none => (.gpt, d)
  | some (tabled, m) =>
    if tabled = true ∧ Used m (id.part - 1) then (.taken, d)
    else if mb = [] then place id d tabled m 0
    else
      match megabytes mb with
      | none => (.not_megabytes, d)
      | some v =>
        if v = 0 then (.too_small, d) else place id d tabled m (v * 2048 % 2 ^ 32)

/-- `part_cmd_create`. -/
def cmdCreate (arg mb : List UInt8) (devs : Devs) : Reply × Devs :=
  if arg = [] then (.usage, devs)
  else
    match parseId arg with
    | .error e => (.refused e, devs)
    | .ok id =>
      if id.part < 1 ∨ 4 < id.part then (.primary, devs)
      else if ¬ hasDriver id.type ∨ id.type = .cd then
        (.refused (if id.type = .cd then .read_only else .no_driver), devs)
      else
        match blkIndex id.type id.dev with
        | none => (.refused .no_device, devs)
        | some pos =>
          if ¬ (devs pos).present then (.refused .no_device, devs)
          else
            let (r, d) := createOn id (devs pos) mb
            (r, Function.update devs pos d)

end Storage
