import MiniWin.Crypto.WordBytes

/-!
# SHA-256, SHA-512 and SHA-384

The two hashes of `sha256.h` and `sha512.h`. They differ in the width of a word, in the constants
and in the distances of the rotations, and both keep their message in the same way: a block that is
not full yet, and a counter of the bytes. What stands behind the first `buf_len` bytes of the block
is left over from the block before.

The two finish differently. `sha256_final` sends the padding through `update`, byte after byte, and
`sha512_final_n` writes it into the block.
-/

namespace Sha2

variable {w B : Nat}

/-- The words `h[0]` to `h[7]`, and the variables `a` to `h` of the rounds. -/
@[ext] structure Words (w : Nat) where
  a : BitVec w
  b : BitVec w
  c : BitVec w
  d : BitVec w
  e : BitVec w
  f : BitVec w
  g : BitVec w
  h : BitVec w
deriving DecidableEq

/-- The words as an array has them. -/
def Words.toList (v : Words w) : List (BitVec w) := [v.a, v.b, v.c, v.d, v.e, v.f, v.g, v.h]

instance : Add (Words w) where
  add v u := ⟨v.a + u.a, v.b + u.b, v.c + u.c, v.d + u.d, v.e + u.e, v.f + u.f, v.g + u.g, v.h + u.h⟩

/-- `sha256_rotr` and `sha512_rotr`. -/
def rotr (x : BitVec w) (n : Nat) : BitVec w := (x >>> n) ||| (x <<< (w - n))

/-- What a block is worked on with, in the one header and in the other. -/
structure Core (w : Nat) where
  /-- The bytes of a word. -/
  bytes : Nat
  get_be : Block → Nat → BitVec w
  put_be : BitVec w → List UInt8
  k : List (BitVec w)
  s0 : BitVec w → BitVec w
  s1 : BitVec w → BitVec w
  S0 : BitVec w → BitVec w
  S1 : BitVec w → BitVec w

namespace Core

variable (core : Core w)

/-- The loop over the first 16 words of `w`. -/
def load (block : Block) : List (BitVec w) :=
  (List.range 16).map fun i => core.get_be block (i * core.bytes)

/-- So many rounds of the loop over the other words, `i` being the length of what is there. -/
def expand : Nat → List (BitVec w) → List (BitVec w)
  | 0, ws => ws
  | n + 1, ws =>
    let s0 := core.s0 (ws.getD (ws.length - 15) 0)
    let s1 := core.s1 (ws.getD (ws.length - 2) 0)
    expand n (ws ++ [ws.getD (ws.length - 16) 0 + s0 + ws.getD (ws.length - 7) 0 + s1])

/-- One round over the eight variables. -/
def round (ws : List (BitVec w)) (v : Words w) (i : Nat) : Words w :=
  let S1 := core.S1 v.e
  let ch := (v.e &&& v.f) ^^^ (~~~v.e &&& v.g)
  let temp1 := v.h + S1 + ch + core.k.getD i 0 + ws.getD i 0
  let S0 := core.S0 v.a
  let maj := (v.a &&& v.b) ^^^ (v.a &&& v.c) ^^^ (v.b &&& v.c)
  let temp2 := S0 + maj
  { a := temp1 + temp2, b := v.a, c := v.b, d := v.c, e := v.d + temp1, f := v.e, g := v.f,
    h := v.g }

/-- `sha256_process_block` and `sha512_process_block`. -/
def process_block (h : Words w) (block : Block) : Words w :=
  let ws := core.expand (core.k.length - 16) (core.load block)
  h + (List.range core.k.length).foldl (core.round ws) h

/-- The words as bytes. -/
def serialize (h : Words w) : List UInt8 := h.toList.flatMap core.put_be

end Core

/-! ## The context -/

/-- `sha256_ctx_t` and `sha512_ctx_t`, with the block never left full. -/
structure Ctx (w B : Nat) where
  h : Words w
  buf : Block
  buf_len : Nat
  total_len : UInt64
  buf_len_lt : buf_len < B

/-- What an `init` leaves: the block keeps what it had. -/
def init (iv : Words w) (hB : 0 < B) (buf : Block) : Ctx w B :=
  { h := iv, buf := buf, buf_len := 0, total_len := 0, buf_len_lt := hB }

/-- How much of the data a round of the loop takes. -/
def Ctx.take (ctx : Ctx w B) (len : Nat) : Nat :=
  let room := B - ctx.buf_len
  if len < room then len else room

theorem Ctx.take_le (ctx : Ctx w B) (len : Nat) :
    ctx.buf_len + ctx.take len ≤ B ∧ ctx.take len ≤ len ∧ (0 < len → 0 < ctx.take len) := by
  have hlt := ctx.buf_len_lt
  unfold take
  dsimp only
  split <;> omega

/-- A round of the loop: it may make the block full. -/
def Ctx.pass (core : Core w) (ctx : Ctx w B) (data : List UInt8) : Ctx w B :=
  let take := ctx.take data.length
  let buf := ctx.buf.put ctx.buf_len (data.take take)
  if h : ctx.buf_len + take = B then
    { ctx with
      h := core.process_block ctx.h buf
      buf := buf
      buf_len := 0
      buf_len_lt := Nat.zero_lt_of_lt ctx.buf_len_lt }
  else
    { ctx with
      buf := buf
      buf_len := ctx.buf_len + take
      buf_len_lt := Nat.lt_of_le_of_ne (ctx.take_le data.length).1 h }

/-- The loop of an update. -/
def take_in (core : Core w) (ctx : Ctx w B) (data : List UInt8) : Ctx w B :=
  if 0 < data.length then
    take_in core (ctx.pass core data) (data.drop (ctx.take data.length))
  else ctx
termination_by data.length
decreasing_by
  have htake := ctx.take_le data.length
  rw [List.length_drop]
  omega

/-- `sha256_update` and `sha512_update`. -/
def update (core : Core w) (ctx : Ctx w B) (data : List UInt8) : Ctx w B :=
  take_in core { ctx with total_len := ctx.total_len + UInt64.ofNat data.length } data

/-! ## `sha256.h` -/

def sha256_k : List (BitVec 32) :=
  [0x428a2f98, 0x71374491, 0xb5c0fbcf, 0xe9b5dba5, 0x3956c25b, 0x59f111f1, 0x923f82a4, 0xab1c5ed5,
   0xd807aa98, 0x12835b01, 0x243185be, 0x550c7dc3, 0x72be5d74, 0x80deb1fe, 0x9bdc06a7, 0xc19bf174,
   0xe49b69c1, 0xefbe4786, 0x0fc19dc6, 0x240ca1cc, 0x2de92c6f, 0x4a7484aa, 0x5cb0a9dc, 0x76f988da,
   0x983e5152, 0xa831c66d, 0xb00327c8, 0xbf597fc7, 0xc6e00bf3, 0xd5a79147, 0x06ca6351, 0x14292967,
   0x27b70a85, 0x2e1b2138, 0x4d2c6dfc, 0x53380d13, 0x650a7354, 0x766a0abb, 0x81c2c92e, 0x92722c85,
   0xa2bfe8a1, 0xa81a664b, 0xc24b8b70, 0xc76c51a3, 0xd192e819, 0xd6990624, 0xf40e3585, 0x106aa070,
   0x19a4c116, 0x1e376c08, 0x2748774c, 0x34b0bcb5, 0x391c0cb3, 0x4ed8aa4a, 0x5b9cca4f, 0x682e6ff3,
   0x748f82ee, 0x78a5636f, 0x84c87814, 0x8cc70208, 0x90befffa, 0xa4506ceb, 0xbef9a3f7, 0xc67178f2]

def sha256_rotr (x : BitVec 32) (n : Nat) : BitVec 32 := rotr x n

def sha256_get32_be (p : Block) (o : Nat) : BitVec 32 :=
  ((p o).toBitVec.zeroExtend 32 <<< 24) ||| ((p (o + 1)).toBitVec.zeroExtend 32 <<< 16)
    ||| ((p (o + 2)).toBitVec.zeroExtend 32 <<< 8) ||| (p (o + 3)).toBitVec.zeroExtend 32

def sha256_put32_be (v : BitVec 32) : List UInt8 :=
  [⟨(v >>> 24).truncate 8⟩, ⟨(v >>> 16).truncate 8⟩, ⟨(v >>> 8).truncate 8⟩, ⟨v.truncate 8⟩]

def sha256_core : Core 32 where
  bytes := 4
  get_be := sha256_get32_be
  put_be := sha256_put32_be
  k := sha256_k
  s0 x := sha256_rotr x 7 ^^^ sha256_rotr x 18 ^^^ (x >>> 3)
  s1 x := sha256_rotr x 17 ^^^ sha256_rotr x 19 ^^^ (x >>> 10)
  S0 x := sha256_rotr x 2 ^^^ sha256_rotr x 13 ^^^ sha256_rotr x 22
  S1 x := sha256_rotr x 6 ^^^ sha256_rotr x 11 ^^^ sha256_rotr x 25

def sha256_process_block (h : Words 32) (block : Block) : Words 32 :=
  sha256_core.process_block h block

def sha256_iv : Words 32 where
  a := 0x6a09e667
  b := 0xbb67ae85
  c := 0x3c6ef372
  d := 0xa54ff53a
  e := 0x510e527f
  f := 0x9b05688c
  g := 0x1f83d9ab
  h := 0x5be0cd19

def sha256_init (buf : Block) : Ctx 32 64 := init sha256_iv (by decide) buf

def sha256_update (ctx : Ctx 32 64) (data : List UInt8) : Ctx 32 64 := update sha256_core ctx data

/-- What one byte does to the place in the block. -/
theorem take_in_one_buf_len (core : Core w) (ctx : Ctx w B) (x : UInt8) :
    (take_in core ctx [x]).buf_len = if ctx.buf_len + 1 = B then 0 else ctx.buf_len + 1 := by
  have htake := ctx.take_le 1
  have hone : ctx.take 1 = 1 := by omega
  have hnil : [x].drop (ctx.take [x].length) = [] := by
    rw [List.length_singleton, hone]
    rfl
  rw [take_in, if_pos (by simp), hnil, take_in, if_neg (by simp)]
  simp only [Ctx.pass, List.length_singleton, hone]
  split <;> rfl

/-- The loop `while (ctx->buf_len != 56)`. -/
def sha256_fill (ctx : Ctx 32 64) : Ctx 32 64 :=
  if ctx.buf_len ≠ 56 then sha256_fill (sha256_update ctx [0]) else ctx
termination_by (56 + 64 - ctx.buf_len) % 64
decreasing_by
  have hlt := ctx.buf_len_lt
  rw [sha256_update, update, take_in_one_buf_len]
  dsimp only
  split_ifs <;> omega

/-- The length is written behind the zeros without `update`. -/
def sha256_final (ctx : Ctx 32 64) : List UInt8 :=
  let bit_len := ctx.total_len * 8
  let ctx := sha256_update ctx [0x80]
  let ctx := sha256_fill ctx
  let len_bytes := (List.range 8).map fun i => (bit_len >>> UInt64.ofNat (56 - i * 8)).toUInt8
  let buf := ctx.buf.put ctx.buf_len len_bytes
  sha256_core.serialize (sha256_process_block ctx.h buf)

def sha256 (data : List UInt8) (buf : Block) : List UInt8 :=
  sha256_final (sha256_update (sha256_init buf) data)

/-! ## `sha512.h` -/

def sha512_k : List (BitVec 64) :=
  [0x428a2f98d728ae22, 0x7137449123ef65cd, 0xb5c0fbcfec4d3b2f, 0xe9b5dba58189dbbc,
   0x3956c25bf348b538, 0x59f111f1b605d019, 0x923f82a4af194f9b, 0xab1c5ed5da6d8118,
   0xd807aa98a3030242, 0x12835b0145706fbe, 0x243185be4ee4b28c, 0x550c7dc3d5ffb4e2,
   0x72be5d74f27b896f, 0x80deb1fe3b1696b1, 0x9bdc06a725c71235, 0xc19bf174cf692694,
   0xe49b69c19ef14ad2, 0xefbe4786384f25e3, 0x0fc19dc68b8cd5b5, 0x240ca1cc77ac9c65,
   0x2de92c6f592b0275, 0x4a7484aa6ea6e483, 0x5cb0a9dcbd41fbd4, 0x76f988da831153b5,
   0x983e5152ee66dfab, 0xa831c66d2db43210, 0xb00327c898fb213f, 0xbf597fc7beef0ee4,
   0xc6e00bf33da88fc2, 0xd5a79147930aa725, 0x06ca6351e003826f, 0x142929670a0e6e70,
   0x27b70a8546d22ffc, 0x2e1b21385c26c926, 0x4d2c6dfc5ac42aed, 0x53380d139d95b3df,
   0x650a73548baf63de, 0x766a0abb3c77b2a8, 0x81c2c92e47edaee6, 0x92722c851482353b,
   0xa2bfe8a14cf10364, 0xa81a664bbc423001, 0xc24b8b70d0f89791, 0xc76c51a30654be30,
   0xd192e819d6ef5218, 0xd69906245565a910, 0xf40e35855771202a, 0x106aa07032bbd1b8,
   0x19a4c116b8d2d0c8, 0x1e376c085141ab53, 0x2748774cdf8eeb99, 0x34b0bcb5e19b48a8,
   0x391c0cb3c5c95a63, 0x4ed8aa4ae3418acb, 0x5b9cca4f7763e373, 0x682e6ff3d6b2b8a3,
   0x748f82ee5defb2fc, 0x78a5636f43172f60, 0x84c87814a1f0ab72, 0x8cc702081a6439ec,
   0x90befffa23631e28, 0xa4506cebde82bde9, 0xbef9a3f7b2c67915, 0xc67178f2e372532b,
   0xca273eceea26619c, 0xd186b8c721c0c207, 0xeada7dd6cde0eb1e, 0xf57d4f7fee6ed178,
   0x06f067aa72176fba, 0x0a637dc5a2c898a6, 0x113f9804bef90dae, 0x1b710b35131c471b,
   0x28db77f523047d84, 0x32caab7b40c72493, 0x3c9ebe0a15c9bebc, 0x431d67c49c100d4c,
   0x4cc5d4becb3e42b6, 0x597f299cfc657e2a, 0x5fcb6fab3ad6faec, 0x6c44198c4a475817]

def sha512_rotr (x : BitVec 64) (n : Nat) : BitVec 64 := rotr x n

def sha512_get64_be (p : Block) (o : Nat) : BitVec 64 := WordBytes.get64_be p o

def sha512_put64_be (v : BitVec 64) : List UInt8 := WordBytes.put64_be v

def sha512_core : Core 64 where
  bytes := 8
  get_be := sha512_get64_be
  put_be := sha512_put64_be
  k := sha512_k
  s0 x := sha512_rotr x 1 ^^^ sha512_rotr x 8 ^^^ (x >>> 7)
  s1 x := sha512_rotr x 19 ^^^ sha512_rotr x 61 ^^^ (x >>> 6)
  S0 x := sha512_rotr x 28 ^^^ sha512_rotr x 34 ^^^ sha512_rotr x 39
  S1 x := sha512_rotr x 14 ^^^ sha512_rotr x 18 ^^^ sha512_rotr x 41

def sha512_process_block (h : Words 64) (block : Block) : Words 64 :=
  sha512_core.process_block h block

def sha512_iv : Words 64 where
  a := 0x6a09e667f3bcc908
  b := 0xbb67ae8584caa73b
  c := 0x3c6ef372fe94f82b
  d := 0xa54ff53a5f1d36f1
  e := 0x510e527fade682d1
  f := 0x9b05688c2b3e6c1f
  g := 0x1f83d9abfb41bd6b
  h := 0x5be0cd19137e2179

def sha384_iv : Words 64 where
  a := 0xcbbb9d5dc1059ed8
  b := 0x629a292a367cd507
  c := 0x9159015a3070dd17
  d := 0x152fecd8f70e5939
  e := 0x67332667ffc00b31
  f := 0x8eb44a8768581511
  g := 0xdb0c2e0d64f98fa7
  h := 0x47b5481dbefa4fa4

def sha512_init (block : Block) : Ctx 64 128 := init sha512_iv (by decide) block

def sha384_init (block : Block) : Ctx 64 128 := init sha384_iv (by decide) block

def sha512_update (ctx : Ctx 64 128) (data : List UInt8) : Ctx 64 128 := update sha512_core ctx data

/-- The marker, and a block for it alone where the length has no room behind it. -/
def sha512_mark (ctx : Ctx 64 128) : Words 64 × Block × Nat :=
  let block := ctx.buf.put ctx.buf_len [0x80]
  let block_len := ctx.buf_len + 1
  if block_len > 128 - 16 then
    let block := block.put block_len (List.replicate (128 - block_len) 0)
    (sha512_process_block ctx.h block, block, 0)
  else (ctx.h, block, block_len)

/-- The marker, the zeros and the length go into the block itself. -/
def sha512_final_n (ctx : Ctx 64 128) (out_len : Nat) : List UInt8 :=
  let bits_hi := ctx.total_len >>> 61
  let bits_lo := ctx.total_len <<< 3
  let (state, block, block_len) := sha512_mark ctx
  let block := block.put block_len (List.replicate (128 - 16 - block_len) 0)
  let block := block.put (128 - 16) (sha512_put64_be bits_hi.toBitVec)
  let block := block.put (128 - 8) (sha512_put64_be bits_lo.toBitVec)
  let full := sha512_core.serialize (sha512_process_block state block)
  full.take out_len

def sha512_final (ctx : Ctx 64 128) : List UInt8 := sha512_final_n ctx 64

def sha384_final (ctx : Ctx 64 128) : List UInt8 := sha512_final_n ctx 48

def sha512 (data : List UInt8) (block : Block) : List UInt8 :=
  sha512_final (sha512_update (sha512_init block) data)

def sha384 (data : List UInt8) (block : Block) : List UInt8 :=
  sha384_final (sha512_update (sha384_init block) data)

end Sha2
