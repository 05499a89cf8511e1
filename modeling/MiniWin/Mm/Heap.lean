import MiniWin.Mm.Pages

/-!
# The heap

The upper half of `kernel/mm.h`: up to 16 chunks of pages, each cut into blocks with a header
in front. A pointer is an address, `0` is `NULL`. The walks over the blocks of a chunk follow the
sizes in the headers; `none` as the outcome of a walk says that it has not ended after as many
steps as the chunk could hold blocks.
-/

namespace Mm

local instance neZero_chunks : NeZero 16 := ⟨by decide⟩

def hdrSize : Nat := 16
def magicUsed : Nat := 0xA110C8ED
def magicFree : Nat := 0xF4EEB10C
def maxTop : Nat := 0x40000000
def chunkMinPg : Nat := 16

/-- `mm_chunk_t`. A slot with base `0` holds no chunk. -/
structure Chunk where
  base : Nat := 0
  bytes : Nat := 0
  deriving DecidableEq

/-- The globals of `mm.h`, the page allocator among them. -/
structure Heap where
  pg : Pages
  chunks : Fin 16 → Chunk
  allocs : UInt32 := 0
  frees : UInt32 := 0

def Heap.ram (s : Heap) : Block := s.pg.ram

/-- The memory is changed, and nothing else. -/
def Heap.onRam (s : Heap) (f : Block → Block) : Heap :=
  { s with pg := { s.pg with ram := f s.pg.ram } }

/-- A refused call is counted. -/
def Heap.bad (s : Heap) : Heap :=
  { s with pg := { s.pg with bad_frees := s.pg.bad_frees + 1 } }

def Heap.fail (s : Heap) : Heap :=
  { s with pg := { s.pg with failed := s.pg.failed + 1 } }

/-- The heap of a fresh region. -/
def freshHeap (pg : Pages) : Heap := { pg := pg, chunks := fun _ => {} }

/-! ## Headers: `mm_hdr_t` -/

def size (ram : Block) (h : Nat) : Nat := ram.le32 h
def prevSize (ram : Block) (h : Nat) : Nat := ram.le32 (h + 4)
def magic (ram : Block) (h : Nat) : Nat := ram.le32 (h + 8)

def setSize (h v : Nat) (ram : Block) : Block := ram.put32 h v
def setPrevSize (h v : Nat) (ram : Block) : Block := ram.put32 (h + 4) v
def setMagic (h v : Nat) (ram : Block) : Block := ram.put32 (h + 8) v
def setPad (h v : Nat) (ram : Block) : Block := ram.put32 (h + 12) v

/-- `mm_next`. -/
def next (c : Chunk) (ram : Block) (h : Nat) : Option Nat :=
  let n := (h + size ram h) % 2 ^ 32
  if n ≥ c.base + c.bytes then none else some n

/-- `mm_prev`. -/
def prev (c : Chunk) (ram : Block) (h : Nat) : Option Nat :=
  if h = c.base then none else some ((h + 2 ^ 32 - prevSize ram h) % 2 ^ 32)

/-- `mm_round`. -/
def round (n : Nat) : Nat := (n + 15) % 2 ^ 32 / 16 * 16

/-- `mm_chunk_of`. -/
def chunkOf (p : Nat) (s : Heap) : Option (Fin 16) :=
  (List.finRange 16).find? fun i =>
    (s.chunks i).base ≠ 0 ∧ p ≥ (s.chunks i).base + hdrSize
      ∧ p < (s.chunks i).base + (s.chunks i).bytes

/-! ## Allocation -/

/-- `mm_chunk_add`: a chunk with one free block. -/
def chunkAdd (need_block : Nat) (s : Heap) : Option (Fin 16) × Heap :=
  match (List.finRange 16).find? fun i => (s.chunks i).base = 0 with
  | none => (none, s)
  | some i =>
    let pages := max ((need_block + pageSize - 1) / pageSize) chunkMinPg
    match pagesAlloc (UInt32.ofNat pages) false s.pg with
    | (none, pg) => (none, { s with pg := pg })
    | (some b, pg) =>
      let c : Chunk := ⟨b, pages * pageSize⟩
      let s : Heap := { s with pg := pg, chunks := Function.update s.chunks i c }
      (some i, s.onRam fun ram =>
        setPad b 0 (setMagic b magicFree (setPrevSize b 0 (setSize b c.bytes ram))))

/-- The half of `mm_carve` that cuts off what is not needed. -/
def split (c : Chunk) (h need : Nat) (ram : Block) : Block :=
  let r := h + need
  let rest := size ram h - need
  let ram := setPad r 0 (setMagic r magicFree (setPrevSize r need (setSize r rest ram)))
  let ram := match next c ram r with
    | some after => setPrevSize after (size ram r) ram
    | none => ram
  setSize h need ram

/-- `mm_carve`, which returns `h + MM_HDR`. -/
def carve (c : Chunk) (h need : Nat) (ram : Block) : Block :=
  setMagic h magicUsed (if size ram h ≥ need + hdrSize + 16 then split c h need ram else ram)

/-- What a walk over the blocks of one chunk, or of all, comes to. -/
inductive Walk (α : Type) where
  | hit (x : α)
  | smashed
  | miss

/-- The walk of `kmalloc` over the blocks of the chunk `c`. -/
def walk (c : Chunk) (need : Nat) (ram : Block) : Nat → Nat → Option (Walk Nat)
  | 0, _ => none
  | fuel + 1, h =>
    if magic ram h ≠ magicFree ∧ magic ram h ≠ magicUsed then some .smashed
    else if magic ram h = magicFree ∧ size ram h ≥ need then some (.hit h)
    else if size ram h < hdrSize then some .miss
    else match next c ram h with
      | none => some .miss
      | some n => walk c need ram fuel n

/-- The walk over these chunks. -/
def search (chunks : Fin 16 → Chunk) (need : Nat) (ram : Block) :
    List (Fin 16) → Option (Walk (Fin 16 × Nat))
  | [] => some .miss
  | i :: is =>
    if (chunks i).base = 0 then search chunks need ram is
    else match walk (chunks i) need ram ((chunks i).bytes / hdrSize) (chunks i).base with
      | none => none
      | some (.hit h) => some (.hit (i, h))
      | some .smashed => some .smashed
      | some .miss => search chunks need ram is

/-- One pass of `kmalloc`: `none` inside when nothing fits. -/
def pass (need : Nat) (s : Heap) : Option (Walk (Nat × Heap)) :=
  match search s.chunks need s.ram (List.finRange 16) with
  | none => none
  | some .miss => some .miss
  | some .smashed => some .smashed
  | some (.hit (i, h)) =>
    some (.hit (h + hdrSize,
      { s with allocs := s.allocs + 1 }.onRam (carve (s.chunks i) h need)))

/-- `kmalloc`. -/
def kmalloc (n : UInt32) (s : Heap) : Option (Nat × Heap) :=
  if n = 0 ∨ n.toNat > maxTop / 2 then some (0, s.fail)
  else
    let need := round n.toNat + hdrSize
    match pass need s with
    | none => none
    | some (.hit r) => some r
    | some .smashed => some (0, s.bad)
    | some .miss =>
      -- nothing fits: the heap grows by a chunk
      match chunkAdd need s with
      | (none, s) => some (0, s.fail)
      | (some _, s) =>
        match pass need s with
        | none => none
        | some (.hit r) => some r
        | some .smashed => some (0, s.bad)
        | some .miss => some (0, s.fail)

/-- `kzalloc`. -/
def kzalloc (n : UInt32) (s : Heap) : Option (Nat × Heap) :=
  match kmalloc n s with
  | none => none
  | some (p, s) =>
    some (p, if p = 0 then s else s.onRam fun ram => cleared ram p (round n.toNat))

/-! ## Giving back -/

/-- `mm_usable`. -/
def usable (p : Nat) (s : Heap) : Nat :=
  match chunkOf p s with
  | none => 0
  | some i =>
    if (p - (s.chunks i).base) % 16 ≠ 0 then 0
    else
      let h := p - hdrSize
      if magic s.ram h = magicUsed then (size s.ram h + 2 ^ 32 - hdrSize) % 2 ^ 32 else 0

/-- The block behind `h` is told the size of `h`. -/
def tellNext (c : Chunk) (h : Nat) (ram : Block) : Block :=
  match next c ram h with
  | some n => setPrevSize n (size ram h) ram
  | none => ram

/-- The block `n`, which is free, becomes a part of the block `h` in front of it. -/
def swallow (c : Chunk) (h n : Nat) (ram : Block) : Block :=
  tellNext c h (setMagic n 0 (setSize h ((size ram h + size ram n) % 2 ^ 32) ram))

/-- The forward merge of `kfree`. -/
def mergeNext (c : Chunk) (h : Nat) (ram : Block) : Block :=
  match next c ram h with
  | some n => if magic ram n = magicFree then swallow c h n ram else ram
  | none => ram

/-- The backward merge, and the header of the block that is left. -/
def mergePrev (c : Chunk) (h : Nat) (ram : Block) : Nat × Block :=
  match prev c ram h with
  | some pr => if magic ram pr = magicFree then (pr, swallow c pr h ram) else (h, ram)
  | none => (h, ram)

/-- `kfree`. -/
def kfree (p : Nat) (s : Heap) : Bool × Heap :=
  if p = 0 then (true, s)
  else
    match chunkOf p s with
    | none => (false, s.bad)
    | some i =>
      let c := s.chunks i
      let h := p - hdrSize
      if (p - c.base) % 16 ≠ 0 then (false, s.bad)
      else if magic s.ram h ≠ magicUsed ∨ size s.ram h < hdrSize + 16
          ∨ (h + size s.ram h) % 2 ^ 32 > c.base + c.bytes then (false, s.bad)
      else
        let (h, ram) := mergePrev c h (mergeNext c h (setMagic h magicFree s.ram))
        let s := { s with frees := s.frees + 1 }.onRam fun _ => ram
        if size s.ram h = c.bytes ∧ i ≠ 0 then
          -- the whole chunk is free: back to the page allocator
          let s := { s with chunks := Function.update s.chunks i {} }
          (true, { s with
            pg := (pagesFree (UInt32.ofNat c.base) (UInt32.ofNat (c.bytes / pageSize)) s.pg).2 })
        else (true, s)

/-- `krealloc`. -/
def krealloc (p : Nat) (n : UInt32) (s : Heap) : Option (Nat × Heap) :=
  if p = 0 then kmalloc n s
  else if n = 0 then some (0, (kfree p s).2)
  else
    let old := usable p s
    if old = 0 then some (0, s.bad)
    else if n.toNat ≤ old then some (p, s)
    else match kmalloc n s with
      | none => none
      | some (q, s) =>
        if q = 0 then some (0, s)
        else some (q, (kfree p (s.onRam fun ram => ram.copied q p old)).2)

/-! ## The check -/

/-- The walk of `mm_check` over the blocks of the chunk `c`: the problems found, and the bytes
seen. -/
def checkWalk (c : Chunk) (ram : Block) : Nat → Nat → Nat → Nat → Bool → Nat → Option (Nat × Nat)
  | 0, _, _, _, _, _ => none
  | fuel + 1, h, seen, prev, prev_free, bad =>
    if magic ram h ≠ magicUsed ∧ magic ram h ≠ magicFree then some (bad + 1, seen)
    else if size ram h < hdrSize + 16 ∨ size ram h % 16 ≠ 0
        ∨ (seen + size ram h) % 2 ^ 32 > c.bytes then some (bad + 1, seen)
    else
      let bad := if prevSize ram h ≠ prev then bad + 1 else bad
      let fr : Bool := magic ram h = magicFree
      let bad := if fr ∧ prev_free then bad + 1 else bad
      let seen := (seen + size ram h) % 2 ^ 32
      match next c ram h with
      | none => some (bad, seen)
      | some n => checkWalk c ram fuel n seen (size ram h) fr bad

/-- The problems of these chunks. -/
def checkChunks (chunks : Fin 16 → Chunk) (ram : Block) : List (Fin 16) → Option Nat
  | [] => some 0
  | i :: is =>
    if (chunks i).base = 0 then checkChunks chunks ram is
    else match checkWalk (chunks i) ram ((chunks i).bytes / hdrSize) (chunks i).base 0 0 false 0 with
      | none => none
      | some (bad, seen) =>
        (checkChunks chunks ram is).map
          ((if seen ≠ (chunks i).bytes then bad + 1 else bad) + ·)

/-- The clear bits, counted. -/
def clearCount (s : Pages) : Nat :=
  (List.range' s.bitmap_pages (s.npages - s.bitmap_pages)).countP fun p => !s.used p

/-- `mm_check`. -/
def mmCheck (s : Heap) : Option Nat :=
  (checkChunks s.chunks s.ram (List.finRange 16)).map fun bad =>
    if clearCount s.pg ≠ s.pg.free_pg then bad + 1 else bad

end Mm
