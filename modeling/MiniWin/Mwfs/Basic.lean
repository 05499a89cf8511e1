import MiniWin.Lib.Block
import MiniWin.Lib.Tape

/-!
# MWFS volumes

The data model of `kernel/mwfs.h`: a volume is a run of 512-byte sectors

* sector `0`: the superblock;
* `bitmap_lba`: one bit per sector of the volume, `1` = in use;
* `itable_lba`: 64-byte inodes, eight to a sector;
* `data_lba` on: file contents, directories, tables of sector pointers.

Sector numbers are relative to the first sector of the volume, as they are in
every function of `mwfs.h`: only `mwfs_rd` and `mwfs_wr` reach the device, and
they add `base` there. `St` is such a volume with the writes made to it, so
that a power cut can keep the first few of them.
-/

namespace Mwfs

/-! ## Constants -/

def inoSize : Nat := 64
def ndirect : Nat := 8
/-- Sector pointers per indirect sector. -/
def ptrs : Nat := 128
def nameMax : Nat := 31
def dentSize : Nat := 64
def maxInodes : Nat := 16384
def minInodes : Nat := 32
def rootIno : Nat := 1
def magic : Nat := 0x3246574D
def version : Nat := 1

/-- `MWFS_T_FREE`, `MWFS_T_FILE`, `MWFS_T_DIR`. They are numbers and not an
enumeration because a type is read from the disk, where any number can be. -/
def tFree : Nat := 0
def tFile : Nat := 1
def tDir : Nat := 2

/-- The results of `mwfs.h`: `MWFS_OK` and `MWFS_E_*`. -/
inductive Err where
  | ok | io | full | noent | exist | notdir | isdir | notempty | name | corrupt | toobig | nofs
  | small | perm | xdev
  deriving DecidableEq, Repr

/-- A name: the bytes of a C string before its terminator. -/
abbrev Name := List UInt8

/-! ## The volume -/

/-- The geometry of a volume, as the superblock records it. -/
structure Geo where
  sectors : Nat
  inode_count : Nat
  bitmap_lba : Nat
  bitmap_sectors : Nat
  itable_lba : Nat
  itable_sectors : Nat
  data_lba : Nat
  deriving DecidableEq

/-- `mwfs_vol_t`. -/
structure Vol extends Geo where
  used : Bool
  /-- The device. -/
  dev : Nat
  /-- The first sector of the volume on its device. -/
  base : Nat
  /-- Where the next allocation of a sector starts looking. -/
  cur_blk : Nat
  /-- Where the next allocation of an inode starts looking. -/
  cur_ino : Nat
  id : Name
  label : Name
  deriving DecidableEq

/-- `mwfs_ino_t`: an inode. -/
@[ext]
structure Ino where
  type : Nat
  flags : Nat
  size : Nat
  crc : UInt32
  aux : UInt32
  nblocks : Nat
  /-- The eight direct sector pointers; there is nothing past them. -/
  direct : Nat → Nat
  ind : Nat
  dind : Nat
  gen : UInt32

/-- `mwfs_dirent_t`: a used directory entry. -/
structure Dent where
  ino : Nat
  type : Nat
  name : Name
  deriving DecidableEq

/-- A volume, the sectors behind it and the writes made to them. `rdOk` and
`wrOk` say which sectors the device reads and writes without a failure. -/
structure St where
  vol : Vol
  tape : Tape Nat Block
  rdOk : Nat → Bool
  wrOk : Nat → Bool

/-- What the sectors hold. -/
abbrev St.disk (s : St) : Nat → Block := s.tape.store

/-! ## Small helpers -/

/-- One bit of the CRC: `(crc >> 1) ^ (0xEDB88320u & (u32)(-(i32)(crc & 1u)))`. -/
def crc32Bit (crc : UInt32) : UInt32 := (crc >>> 1) ^^^ (0xEDB88320 &&& (0 - (crc &&& 1)))

/-- One byte of the CRC. -/
def crc32Byte (crc : UInt32) (x : UInt8) : UInt32 :=
  crc32Bit (crc32Bit (crc32Bit (crc32Bit (crc32Bit (crc32Bit (crc32Bit (crc32Bit
    (crc ^^^ x.toUInt32))))))))

/-- `mwfs_crc32_update`. -/
def crc32Update (crc : UInt32) (data : List UInt8) : UInt32 := data.foldl crc32Byte crc

/-- `~mwfs_crc32_update(0xFFFFFFFFu, data, n)`. -/
def crc32 (data : List UInt8) : UInt32 := ~~~ crc32Update 0xFFFFFFFF data

theorem crc32Update_append (crc : UInt32) (a b : List UInt8) :
    crc32Update crc (a ++ b) = crc32Update (crc32Update crc a) b :=
  List.foldl_append

/-- The characters `mwfs_name_ok` allows. -/
def nameChar (c : UInt8) : Bool :=
  (65 ≤ c && c ≤ 90) || (97 ≤ c && c ≤ 122) || (48 ≤ c && c ≤ 57)
    || c == 46 || c == 95 || c == 45 || c == 44 || c == 32 || c == 40 || c == 41

/-- `mwfs_name_ok`: 1 to 31 allowed characters, the first neither a dot nor a
space and the last not a space. -/
def nameOk (name : Name) : Bool :=
  name.all nameChar && name.length ≤ nameMax && 0 < name.length
    && name.head? != some 46 && name.head? != some 32 && name.getLast? != some 32

/-- A lower-case letter as its capital. -/
def up (c : UInt8) : UInt8 := if 97 ≤ c ∧ c ≤ 122 then c - 32 else c

/-- A name with its letters made capitals: what `mwfs_name_eq` compares. -/
def fold (name : Name) : Name := name.map up

/-- `mwfs_name_eq`: case-insensitive, like the DOS names these imitate. -/
def nameEq : Name → Name → Bool
  | [], [] => true
  | x :: a, y :: b => up x == up y && nameEq a b
  | _, _ => false

theorem nameEq_iff (a b : Name) : nameEq a b = true ↔ fold a = fold b := by
  induction a generalizing b with
  | nil => cases b <;> simp [nameEq, fold]
  | cons x a ih =>
    cases b with
    | nil => simp [nameEq, fold]
    | cons y b => simp only [nameEq, Bool.and_eq_true, beq_iff_eq, ih, fold, List.map_cons,
        List.cons.injEq]

/-! ## Sectors -/

/-- `mwfs_rd`: `none` when the sector is outside the volume or cannot be read. -/
def rd (s : St) (lba : Nat) : Option Block :=
  if lba < s.vol.sectors ∧ s.rdOk lba = true then some (s.disk lba) else none

/-- `mwfs_wr`: whether the sector was written. -/
def wr (s : St) (lba : Nat) (b : Block) : Bool × St :=
  if lba < s.vol.sectors ∧ s.wrOk lba = true then (true, { s with tape := s.tape.write lba b })
  else (false, s)

/-! ## The inode record -/

/-- The sixteen 32-bit numbers of the 64-byte record. -/
def Ino.words (t : Ino) : Nat → Nat
  | 0 => t.type % 65536 + 65536 * (t.flags % 65536)
  | 1 => t.size
  | 2 => t.crc.toNat
  | 3 => t.aux.toNat
  | 4 => t.nblocks
  | 13 => t.ind
  | 14 => t.dind
  | 15 => t.gen.toNat
  | n => t.direct (n - 5)

/-- The record at an offset of a sector. -/
def Ino.ofBlock (b : Block) (o : Nat) : Ino where
  type := b.le32 o % 65536
  flags := b.le32 o / 65536
  size := b.le32 (o + 4)
  crc := UInt32.ofNat (b.le32 (o + 8))
  aux := UInt32.ofNat (b.le32 (o + 12))
  nblocks := b.le32 (o + 16)
  direct i := if i < ndirect then b.le32 (o + 4 * (5 + i)) else 0
  ind := b.le32 (o + 52)
  dind := b.le32 (o + 56)
  gen := UInt32.ofNat (b.le32 (o + 60))

/-- The empty record. -/
def Ino.zero : Ino where
  type := 0
  flags := 0
  size := 0
  crc := 0
  aux := 0
  nblocks := 0
  direct _ := 0
  ind := 0
  dind := 0
  gen := 0

/-- The record fits its 64 bytes. -/
structure Ino.Fits (t : Ino) : Prop where
  type : t.type < 65536
  flags : t.flags < 65536
  size : t.size < 4294967296
  nblocks : t.nblocks < 4294967296
  direct : ∀ i, t.direct i < 4294967296
  past : ∀ i, ndirect ≤ i → t.direct i = 0
  ind : t.ind < 4294967296
  dind : t.dind < 4294967296

theorem Ino.fits_ofBlock (b : Block) (o : Nat) : (Ino.ofBlock b o).Fits where
  type := Nat.mod_lt _ (by omega)
  flags := by
    have := b.le32_lt o
    show b.le32 o / 65536 < 65536
    omega
  size := b.le32_lt _
  nblocks := b.le32_lt _
  direct i := by
    show (if i < ndirect then b.le32 (o + 4 * (5 + i)) else 0) < 4294967296
    split
    · exact b.le32_lt _
    · omega
  past i hi := if_neg (by omega)
  ind := b.le32_lt _
  dind := b.le32_lt _

/-- Only the 64 bytes of a record decide it. -/
theorem Ino.ofBlock_congr {b c : Block} {o : Nat} (h : ∀ i, o ≤ i ∧ i < o + 64 → b i = c i) :
    Ino.ofBlock b o = Ino.ofBlock c o := by
  have hw : ∀ k, o ≤ k ∧ k + 4 ≤ o + 64 → b.le32 k = c.le32 k := fun k hk =>
    Block.le32_congr fun i hi => h _ (by omega)
  simp only [Ino.ofBlock, hw o (by omega), hw (o + 4) (by omega), hw (o + 8) (by omega),
    hw (o + 12) (by omega), hw (o + 16) (by omega), hw (o + 52) (by omega),
    hw (o + 56) (by omega), hw (o + 60) (by omega), Ino.mk.injEq, true_and, and_true]
  funext i
  split
  · next hi => exact hw _ (by simp only [ndirect] at hi; omega)
  · rfl

theorem Ino.fits_zero : Ino.zero.Fits :=
  ⟨by decide, by decide, by decide, by decide, fun _ => Nat.zero_lt_succ _, fun _ _ => rfl,
    by decide, by decide⟩

/-- **A record written is the record read.** -/
theorem Ino.ofBlock_putWords {t : Ino} (h : t.Fits) (b : Block) (o : Nat) :
    Ino.ofBlock (b.putWords o 16 t.words) o = t := by
  have hw : ∀ j < 16, (b.putWords o 16 t.words).le32 (o + 4 * j) = t.words j % 4294967296 :=
    fun j hj => Block.le32_putWords b t.words hj
  have h0 := hw 0 (by omega)
  have hdir : ∀ i < 8, t.words (5 + i) = t.direct i := by
    intro i hi
    match i, hi with
    | 0, _ | 1, _ | 2, _ | 3, _ | 4, _ | 5, _ | 6, _ | 7, _ => rfl
  have hty := h.type
  have hfl := h.flags
  simp only [Nat.mul_zero, Nat.add_zero] at h0
  rw [show t.words 0 = t.type % 65536 + 65536 * (t.flags % 65536) from rfl] at h0
  refine Ino.ext ?_ ?_ ?_ ?_ ?_ ?_ ?_ ?_ ?_ ?_ <;> simp only [Ino.ofBlock]
  · omega
  · omega
  · rw [hw 1 (by omega)]
    exact Nat.mod_eq_of_lt h.size
  · rw [hw 2 (by omega)]
    show UInt32.ofNat (t.crc.toNat % 4294967296) = t.crc
    rw [Nat.mod_eq_of_lt t.crc.toNat_lt, UInt32.ofNat_toNat]
  · rw [hw 3 (by omega)]
    show UInt32.ofNat (t.aux.toNat % 4294967296) = t.aux
    rw [Nat.mod_eq_of_lt t.aux.toNat_lt, UInt32.ofNat_toNat]
  · rw [hw 4 (by omega)]
    exact Nat.mod_eq_of_lt h.nblocks
  · funext i
    by_cases hi : i < 8
    · rw [if_pos (show i < ndirect from hi), hw (5 + i) (by omega), hdir i hi]
      exact Nat.mod_eq_of_lt (h.direct i)
    · rw [if_neg (show ¬ i < ndirect from hi)]
      exact (h.past i (by simpa [ndirect] using hi)).symm
  · rw [hw 13 (by omega)]
    exact Nat.mod_eq_of_lt h.ind
  · rw [hw 14 (by omega)]
    exact Nat.mod_eq_of_lt h.dind
  · rw [hw 15 (by omega)]
    show UInt32.ofNat (t.gen.toNat % 4294967296) = t.gen
    rw [Nat.mod_eq_of_lt t.gen.toNat_lt, UInt32.ofNat_toNat]

end Mwfs
