import MiniWin.Lib.Block

/-!
# The page allocator

The lower half of `kernel/mm.h`: a run of pages whose first pages hold a bitmap, one bit a page.
Memory is one block of bytes by address, the bitmap and all that is handed out included.
-/

namespace Mm

def pageSize : Nat := 4096

/-- The globals of the page allocator, the memory of the machine, and which bytes of the bitmap
were read or written so far. -/
structure Pages where
  base : Nat
  npages : Nat
  bitmap_pages : Nat
  hint : Nat
  free_pg : Nat
  failed : UInt32 := 0
  bad_frees : UInt32 := 0
  ram : Block
  touched : List Nat

/-- `mm_bitmap`, which is `mm_base`. -/
def Pages.bitmap (s : Pages) : Block := fun i => s.ram (s.base + i)

/-- The value of `mm_bit`. -/
def Pages.used (s : Pages) (p : Nat) : Bool := s.bitmap.testBit p

/-- `mm_bit`. -/
def bit (p : Nat) (s : Pages) : Bool × Pages := (s.used p, { s with touched := p / 8 :: s.touched })

/-- `mm_bit_set` and `mm_bit_clr`. -/
def setBit (p : Nat) (on : Bool) (s : Pages) : Pages :=
  { s with
    ram := Function.update s.ram (s.base + p / 8) (s.bitmap.setBit p on (p / 8))
    touched := p / 8 :: s.touched }

/-- `len` bits from `q` on. -/
def setBits (on : Bool) : Nat → Nat → Pages → Pages
  | 0, _, s => s
  | len + 1, q, s => setBits on len (q + 1) (setBit q on s)

/-- `len` bytes from `o` on are cleared. -/
def cleared (ram : Block) (o len : Nat) : Block := fun a =>
  if o ≤ a ∧ a < o + len then 0 else ram a

/-- `mm_init_region`, with the memory as it finds it. -/
def initRegion (base bytes : UInt32) (ram : Block) : Option Pages :=
  let n := bytes.toNat / pageSize
  if base = 0 ∨ n < 8 ∨ base.toNat % pageSize ≠ 0 then none
  else
    let bitmap_pages := (n / 8 + pageSize - 1) / pageSize
    some (setBits true bitmap_pages 0
      { base := base.toNat, npages := n, bitmap_pages := bitmap_pages, hint := bitmap_pages,
        free_pg := n - bitmap_pages
        ram := cleared ram base.toNat (bitmap_pages * pageSize)
        touched := List.range (bitmap_pages * pageSize) })

/-- The loop of `mm_pages_alloc_z` over the `len` pages from `p` on, with the `run` free pages it
has just counted: the last page of `n` free ones. -/
def scan (n : Nat) : Nat → Nat → Nat → Pages → Option Nat × Pages
  | 0, _, _, s => (none, s)
  | len + 1, p, run, s =>
    match bit p s with
    | (true, s) => scan n len (p + 1) 0 s
    | (false, s) => if run + 1 = n then (some p, s) else scan n len (p + 1) (run + 1) s

/-- The run of `n` pages that ends with `p` is handed out. -/
def take (n p : Nat) (zero : Bool) (s : Pages) : Nat × Pages :=
  let first := p + 1 - n
  let s := setBits true n first s
  let s := { s with
    free_pg := s.free_pg - n
    hint := if p + 1 < s.npages then p + 1 else s.bitmap_pages }
  let r := s.base + first * pageSize
  (r, if zero then { s with ram := cleared s.ram r (n * pageSize % 2 ^ 32) } else s)

/-- `mm_pages_alloc_z`: the address of `n` contiguous pages. The second pass looks at what is in
front of the hint, and `n` pages on. -/
def pagesAlloc (n : UInt32) (zero : Bool) (s : Pages) : Option Nat × Pages :=
  if s.base = 0 ∨ n = 0 ∨ n.toNat > s.free_pg then (none, { s with failed := s.failed + 1 })
  else
    match scan n.toNat (s.npages - s.hint) s.hint 0 s with
    | (some p, s) =>
      let (r, s) := take n.toNat p zero s
      (some r, s)
    | (none, s) =>
      let stop := min ((s.hint + n.toNat) % 2 ^ 32) s.npages
      match scan n.toNat (stop - s.bitmap_pages) s.bitmap_pages 0 s with
      | (some p, s) =>
        let (r, s) := take n.toNat p zero s
        (some r, s)
      | (none, s) => (none, { s with failed := s.failed + 1 })

/-- The first loop of `mm_pages_free`: it ends at the first page that is not allocated. -/
def allUsed : Nat → Nat → Pages → Bool × Pages
  | 0, _, s => (true, s)
  | len + 1, q, s =>
    match bit q s with
    | (true, s) => allUsed len (q + 1) s
    | (false, s) => (false, s)

/-- The page a pointer into the region is on. -/
def Pages.pageOf (s : Pages) (p : Nat) : Nat := (p - s.base) / pageSize

/-- `mm_pages_free`. -/
def pagesFree (p n : UInt32) (s : Pages) : Bool × Pages :=
  let bad (s : Pages) := (false, { s with bad_frees := s.bad_frees + 1 })
  if s.base = 0 ∨ p.toNat < s.base ∨ (p.toNat - s.base) % pageSize ≠ 0 ∨ n = 0 then bad s
  else
    let first := s.pageOf p.toNat
    let stop := (first + n.toNat) % 2 ^ 32
    if first < s.bitmap_pages ∨ stop > s.npages then bad s
    else
      match allUsed (stop - first) first s with
      | (false, s) => bad s
      | (true, s) =>
        let s := setBits false (stop - first) first s
        (true, { s with
          free_pg := (s.free_pg + n.toNat) % 2 ^ 32
          hint := if first < s.hint then first else s.hint })

end Mm
