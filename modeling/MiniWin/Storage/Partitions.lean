import MiniWin.Storage.Create
import Mathlib.Data.Set.Basic

/-!
# Partitions and targets

How `kernel/storage.h` finds a partition by its number, lists the partitions of a device, and finds
the sectors that a storage id names. Sector numbers, sums and products are those of 32 bits; a
device is what the scan has found.

What the formats say is beside it (`Assigns`): there a sector number is a natural number, and a
chain of boot records may go wherever its links point.
-/

namespace Storage

/-! ## One partition -/

/-- `st_part_t`. -/
structure Part where
  number : Nat
  start : Nat
  sectors : Nat
  type : UInt8
  is_gpt : Bool
  active : Bool
  extended_container : Bool
  deriving DecidableEq

/-- `st_is_extended_type`. -/
def isExtendedType (t : UInt8) : Bool := t = 0x05 ∨ t = 0x0F ∨ t = 0x85

/-- `st_mbr_entry`, of entry `i` of a sector. -/
def mbrEntry (m : Block) (i number : Nat) : Option Part :=
  if entryType m i = 0 ∨ entryCount m i = 0 then none
  else
    some ⟨number, entryStart m i, entryCount m i, entryType m i, false, m (entryAt i) = 0x80,
      isExtendedType (entryType m i)⟩

/-- What `st_gpt_header` fills in. -/
structure GptGeometry where
  entries_lba : Nat
  count : Nat
  esize : Nat

/-- `st_gpt_header`. -/
def gptGeometry (d : Dev) : Option GptGeometry :=
  match blkRead d 1 with
  | none => none
  | some h =>
    if h.slice 0 8 = ascii "EFI PART" ∧ h.le32 76 = 0
        ∧ ¬ (h.le32 84 < 128 ∨ 512 < h.le32 84 ∨ 512 % h.le32 84 ≠ 0) ∧ h.le32 80 ≠ 0 then
      some ⟨h.le32 72, min (h.le32 80) 128, h.le32 84⟩
    else none

def ST_MAX_PART_NUMBER : Nat := 99
def ST_MAX_LOGICAL : Nat := 32

/-- The part of `st_get_partition` for a GPT. -/
def gptPartition (d : Dev) (number : Nat) : Option Part :=
  match gptGeometry d with
  | none => none
  | some g =>
    if g.count < number then none
    else
      let byte_off := (number - 1) * g.esize
      match blkRead d ((g.entries_lba + byte_off / 512) % 2 ^ 32) with
      | none => none
      | some s =>
        let e := byte_off % 512
        if ∀ i ∈ List.range 16, s (e + i) = 0 then none
        else if s.le32 (e + 36) ≠ 0 ∨ s.le32 (e + 44) ≠ 0 then none
        else if s.le32 (e + 40) < s.le32 (e + 32) then none
        else
          some ⟨number, s.le32 (e + 32), (s.le32 (e + 40) - s.le32 (e + 32) + 1) % 2 ^ 32, 0, true,
            false, false⟩

/-- `ext_start`: where the first extended container is. -/
def extStart (m : Block) : Option Nat :=
  ((List.range 4).find? fun i => Used m i ∧ isExtendedType (entryType m i)).map (entryStart m)

/-- A boot record has the signature. -/
def Signed (e : Block) : Prop := e 510 = 0x55 ∧ e 511 = 0xAA

/-- The second entry is the link to the next one. -/
def Linked (e : Block) : Prop := isExtendedType (entryType e 1) ∧ entryCount e 1 ≠ 0

instance (e : Block) : Decidable (Signed e) := inferInstanceAs (Decidable (_ ∧ _))
instance (e : Block) : Decidable (Linked e) := inferInstanceAs (Decidable (_ ∧ _))

/-- The loop of `st_get_partition` over the chain, with so many rounds to go. -/
def walkChain (d : Dev) (ext_start number : Nat) : Nat → Nat → Nat → Option Part
  | 0, _, _ => none
  | rounds + 1, n, cur =>
    match blkRead d cur with
    | none => none
    | some e =>
      if ¬ Signed e then none
      else if n = number then
        (mbrEntry e 0 n).map fun p =>
          { p with start := (cur + p.start) % 2 ^ 32, extended_container := false }
      else if ¬ Linked e then none
      else
        let next := (ext_start + entryStart e 1) % 2 ^ 32
        if next ≤ cur then none else walkChain d ext_start number rounds (n + 1) next

/-- `st_get_partition`. -/
def getPartition (d : Dev) (number : Nat) : Option Part :=
  if number < 1 ∨ ST_MAX_PART_NUMBER < number then none
  else
    match scheme d with
    | .gpt => gptPartition d number
    | .none => none
    | .mbr =>
      match blkRead d 0 with
      | none => none
      | some s =>
        if number ≤ 4 then mbrEntry s (number - 1) number
        else
          match extStart s with
          | none => none
          | some ext => walkChain d ext number ST_MAX_LOGICAL 5 ext

/-- The loop of `st_list_partitions` from a number on, with room for so many more. -/
def listFrom (d : Dev) (mbr : Bool) : Nat → Nat → Nat → List Part
  | 0, _, _ => []
  | rounds + 1, num, room =>
    if room = 0 then []
    else
      match getPartition d num with
      | some p => p :: listFrom d mbr rounds (num + 1) (room - 1)
      | none => if mbr ∧ 4 < num then [] else listFrom d mbr rounds (num + 1) room

/-- `st_list_partitions`. -/
def listPartitions (d : Dev) (max : Nat) : List Part :=
  match scheme d with
  | .none => []
  | .gpt => listFrom d false (min 128 ST_MAX_PART_NUMBER) 1 max
  | .mbr => listFrom d true (min (4 + ST_MAX_LOGICAL) ST_MAX_PART_NUMBER) 1 max

/-! ## Targets -/

/-- The codes of `st_resolve`. -/
inductive Refusal where
  | id (e : Err)
  | no_partition | extended | too_small | overlap_boot | range
  deriving DecidableEq

/-- `ST_INSTALL_SECTORS`. -/
def installSectors : Nat := 2048

/-- `st_format_id`. -/
def formatId (id : Id) : List UInt8 :=
  (((typeNames.find? fun t => t.2 = id.type).map Prod.fst).getD []
      ++ (Nat.toDigits 10 id.dev).map Char.toUInt8)
    ++ [UInt8.ofNat (48 + id.part / 10 % 10), UInt8.ofNat (48 + id.part % 10)]

/-- `st_target_t`. -/
structure Target where
  id : Id
  pos : Nat
  base : Nat
  sectors : Nat
  partition : Option Part
  text : List UInt8

/-- `st_overlap`. -/
def overlap (a alen b blen : Nat) : Bool :=
  a < (b + blen) % 2 ^ 32 ∧ b < (a + alen) % 2 ^ 32

/-- The end of `st_resolve`: the region is big enough, and nothing runs from there. -/
def checkTarget (boot_dev boot_base : Nat) (t : Target) : Except Refusal Target :=
  if t.sectors < installSectors then .error .too_small
  else if t.pos = boot_dev ∧ overlap t.base t.sectors boot_base installSectors then
    .error .overlap_boot
  else .ok t

/-- `st_resolve`. -/
def resolve (devs : Devs) (boot_dev boot_base : Nat) (s : List UInt8) : Except Refusal Target :=
  match parseId s with
  | .error e => .error (.id e)
  | .ok id =>
    if ¬ hasDriver id.type then .error (.id .no_driver)
    else
      match blkIndex id.type id.dev with
      | none => .error (.id .no_device)
      | some pos =>
        if ¬ (devs pos).present then .error (.id .no_device)
        else if id.type = .cd then .error (.id .read_only)
        else if id.part = 0 then
          checkTarget boot_dev boot_base
            ⟨id, pos, 0, (devs pos).sectors.toNat, none, formatId id⟩
        else
          match getPartition (devs pos) id.part with
          | none => .error .no_partition
          | some p =>
            if p.extended_container then .error .extended
            else if (devs pos).sectors.toNat ≤ p.start
                ∨ (devs pos).sectors.toNat - p.start < p.sectors then .error .range
            else checkTarget boot_dev boot_base ⟨id, pos, p.start, p.sectors, p, formatId id⟩

/-! ## What the formats say -/

/-- A chain of boot records gets to sector `c` in so many steps. A link counts from the start of
the extended partition. -/
inductive Chain (d : Dev) (ext : Nat) : Nat → Nat → Nat → Prop
  | here {c : Nat} : Chain d ext c 0 c
  | next {cur c k : Nat} {e : Block} (hread : blkRead d cur = some e) (hsigned : Signed e)
    (hlinked : Linked e) (h : Chain d ext (ext + entryStart e 1) k c) : Chain d ext cur (k + 1) c

/-- A 64-bit number. -/
def le64 (s : Block) (o : Nat) : Nat := s.le32 o + 2 ^ 32 * s.le32 (o + 4)

/-- The range that the formats give a number: a primary entry has its place in the table, a logical
one that in the chain of the first extended partition, and a GPT entry that in its table, which is
on sectors of 32 bits. -/
inductive Assigns (d : Dev) : Nat → Nat → Nat → Prop
  | primary {m : Block} {i : Nat} (hscheme : scheme d = .mbr) (hread : blkRead d 0 = some m)
    (hi : i < 4) (hused : Used m i) : Assigns d (i + 1) (entryStart m i) (entryCount m i)
  | logical {m e : Block} {ext k c : Nat} (hscheme : scheme d = .mbr) (hread : blkRead d 0 = some m)
    (hext : extStart m = some ext) (hchain : Chain d ext ext k c) (hrec : blkRead d c = some e)
    (hsigned : Signed e) (hused : Used e 0) :
    Assigns d (k + 5) (c + entryStart e 0) (entryCount e 0)
  | gpt {h s : Block} {n q o : Nat} (hscheme : scheme d = .gpt) (hread : blkRead d 1 = some h)
    (hpos : 0 < n) (hcount : n ≤ h.le32 80)
    (hplace : le64 h 72 * 512 + (n - 1) * h.le32 84 = q * 512 + o) (ho : o < 512)
    (hq : q < 2 ^ 32) (hsector : blkRead d q = some s) (hused : ∃ i < 16, s (o + i) ≠ 0)
    (hle : le64 s (o + 32) ≤ le64 s (o + 40)) :
    Assigns d n (le64 s (o + 32)) (le64 s (o + 40) - le64 s (o + 32) + 1)

end Storage
