import Mathlib.Data.Vector.Defs
import Mathlib.Logic.Function.Iterate

/-!
# AES

`aes.h`: the block cipher with keys of 16 and of 32 bytes, and cipher block chaining. A block that is
worked on in place is a vector that goes in and a vector that comes out. `w` is the list of the words
that are written so far, from the first on.
-/

namespace Aes

/-- `u8 block[16]`, the columns one behind the other. -/
abbrev Block := Vector UInt8 16

/-- `u8 temp[4]`. -/
abbrev Word := Vector UInt8 4

def sbox_table : List UInt8 :=
  [0x63, 0x7c, 0x77, 0x7b, 0xf2, 0x6b, 0x6f, 0xc5, 0x30, 0x01, 0x67, 0x2b, 0xfe, 0xd7, 0xab, 0x76,
   0xca, 0x82, 0xc9, 0x7d, 0xfa, 0x59, 0x47, 0xf0, 0xad, 0xd4, 0xa2, 0xaf, 0x9c, 0xa4, 0x72, 0xc0,
   0xb7, 0xfd, 0x93, 0x26, 0x36, 0x3f, 0xf7, 0xcc, 0x34, 0xa5, 0xe5, 0xf1, 0x71, 0xd8, 0x31, 0x15,
   0x04, 0xc7, 0x23, 0xc3, 0x18, 0x96, 0x05, 0x9a, 0x07, 0x12, 0x80, 0xe2, 0xeb, 0x27, 0xb2, 0x75,
   0x09, 0x83, 0x2c, 0x1a, 0x1b, 0x6e, 0x5a, 0xa0, 0x52, 0x3b, 0xd6, 0xb3, 0x29, 0xe3, 0x2f, 0x84,
   0x53, 0xd1, 0x00, 0xed, 0x20, 0xfc, 0xb1, 0x5b, 0x6a, 0xcb, 0xbe, 0x39, 0x4a, 0x4c, 0x58, 0xcf,
   0xd0, 0xef, 0xaa, 0xfb, 0x43, 0x4d, 0x33, 0x85, 0x45, 0xf9, 0x02, 0x7f, 0x50, 0x3c, 0x9f, 0xa8,
   0x51, 0xa3, 0x40, 0x8f, 0x92, 0x9d, 0x38, 0xf5, 0xbc, 0xb6, 0xda, 0x21, 0x10, 0xff, 0xf3, 0xd2,
   0xcd, 0x0c, 0x13, 0xec, 0x5f, 0x97, 0x44, 0x17, 0xc4, 0xa7, 0x7e, 0x3d, 0x64, 0x5d, 0x19, 0x73,
   0x60, 0x81, 0x4f, 0xdc, 0x22, 0x2a, 0x90, 0x88, 0x46, 0xee, 0xb8, 0x14, 0xde, 0x5e, 0x0b, 0xdb,
   0xe0, 0x32, 0x3a, 0x0a, 0x49, 0x06, 0x24, 0x5c, 0xc2, 0xd3, 0xac, 0x62, 0x91, 0x95, 0xe4, 0x79,
   0xe7, 0xc8, 0x37, 0x6d, 0x8d, 0xd5, 0x4e, 0xa9, 0x6c, 0x56, 0xf4, 0xea, 0x65, 0x7a, 0xae, 0x08,
   0xba, 0x78, 0x25, 0x2e, 0x1c, 0xa6, 0xb4, 0xc6, 0xe8, 0xdd, 0x74, 0x1f, 0x4b, 0xbd, 0x8b, 0x8a,
   0x70, 0x3e, 0xb5, 0x66, 0x48, 0x03, 0xf6, 0x0e, 0x61, 0x35, 0x57, 0xb9, 0x86, 0xc1, 0x1d, 0x9e,
   0xe1, 0xf8, 0x98, 0x11, 0x69, 0xd9, 0x8e, 0x94, 0x9b, 0x1e, 0x87, 0xe9, 0xce, 0x55, 0x28, 0xdf,
   0x8c, 0xa1, 0x89, 0x0d, 0xbf, 0xe6, 0x42, 0x68, 0x41, 0x99, 0x2d, 0x0f, 0xb0, 0x54, 0xbb, 0x16]

def inv_sbox_table : List UInt8 :=
  [0x52, 0x09, 0x6a, 0xd5, 0x30, 0x36, 0xa5, 0x38, 0xbf, 0x40, 0xa3, 0x9e, 0x81, 0xf3, 0xd7, 0xfb,
   0x7c, 0xe3, 0x39, 0x82, 0x9b, 0x2f, 0xff, 0x87, 0x34, 0x8e, 0x43, 0x44, 0xc4, 0xde, 0xe9, 0xcb,
   0x54, 0x7b, 0x94, 0x32, 0xa6, 0xc2, 0x23, 0x3d, 0xee, 0x4c, 0x95, 0x0b, 0x42, 0xfa, 0xc3, 0x4e,
   0x08, 0x2e, 0xa1, 0x66, 0x28, 0xd9, 0x24, 0xb2, 0x76, 0x5b, 0xa2, 0x49, 0x6d, 0x8b, 0xd1, 0x25,
   0x72, 0xf8, 0xf6, 0x64, 0x86, 0x68, 0x98, 0x16, 0xd4, 0xa4, 0x5c, 0xcc, 0x5d, 0x65, 0xb6, 0x92,
   0x6c, 0x70, 0x48, 0x50, 0xfd, 0xed, 0xb9, 0xda, 0x5e, 0x15, 0x46, 0x57, 0xa7, 0x8d, 0x9d, 0x84,
   0x90, 0xd8, 0xab, 0x00, 0x8c, 0xbc, 0xd3, 0x0a, 0xf7, 0xe4, 0x58, 0x05, 0xb8, 0xb3, 0x45, 0x06,
   0xd0, 0x2c, 0x1e, 0x8f, 0xca, 0x3f, 0x0f, 0x02, 0xc1, 0xaf, 0xbd, 0x03, 0x01, 0x13, 0x8a, 0x6b,
   0x3a, 0x91, 0x11, 0x41, 0x4f, 0x67, 0xdc, 0xea, 0x97, 0xf2, 0xcf, 0xce, 0xf0, 0xb4, 0xe6, 0x73,
   0x96, 0xac, 0x74, 0x22, 0xe7, 0xad, 0x35, 0x85, 0xe2, 0xf9, 0x37, 0xe8, 0x1c, 0x75, 0xdf, 0x6e,
   0x47, 0xf1, 0x1a, 0x71, 0x1d, 0x29, 0xc5, 0x89, 0x6f, 0xb7, 0x62, 0x0e, 0xaa, 0x18, 0xbe, 0x1b,
   0xfc, 0x56, 0x3e, 0x4b, 0xc6, 0xd2, 0x79, 0x20, 0x9a, 0xdb, 0xc0, 0xfe, 0x78, 0xcd, 0x5a, 0xf4,
   0x1f, 0xdd, 0xa8, 0x33, 0x88, 0x07, 0xc7, 0x31, 0xb1, 0x12, 0x10, 0x59, 0x27, 0x80, 0xec, 0x5f,
   0x60, 0x51, 0x7f, 0xa9, 0x19, 0xb5, 0x4a, 0x0d, 0x2d, 0xe5, 0x7a, 0x9f, 0x93, 0xc9, 0x9c, 0xef,
   0xa0, 0xe0, 0x3b, 0x4d, 0xae, 0x2a, 0xf5, 0xb0, 0xc8, 0xeb, 0xbb, 0x3c, 0x83, 0x53, 0x99, 0x61,
   0x17, 0x2b, 0x04, 0x7e, 0xba, 0x77, 0xd6, 0x26, 0xe1, 0x69, 0x14, 0x63, 0x55, 0x21, 0x0c, 0x7d]

/-- `aes_sbox[x]`. -/
def aes_sbox (x : UInt8) : UInt8 := sbox_table.getD x.toNat 0

/-- `aes_inv_sbox[x]`. -/
def aes_inv_sbox (x : UInt8) : UInt8 := inv_sbox_table.getD x.toNat 0

/-- `aes_rcon[i]`. -/
def aes_rcon (i : Nat) : UInt8 :=
  [0x00, 0x01, 0x02, 0x04, 0x08, 0x10, 0x20, 0x40, 0x80, 0x1b, 0x36].getD i 0

/-- `aes_ctx_t`. -/
structure Ctx where
  /-- There are 15 of them. -/
  round_key : Nat → Block
  rounds : Nat

def aes_xtime (x : UInt8) : UInt8 :=
  let hi := x &&& 0x80
  let shifted := x <<< 1
  if hi ≠ 0 then shifted ^^^ 0x1b else shifted

/-- The body of the loop of `aes_mul`. -/
def mul_round : UInt8 × UInt8 × UInt8 → UInt8 × UInt8 × UInt8
  | (result, a, b) => (if b &&& 1 ≠ 0 then result ^^^ a else result, aes_xtime a, b >>> 1)

def aes_mul (a b : UInt8) : UInt8 := (mul_round^[8] (0, a, b)).1

/-! ## The keys -/

/-- `temp`, which becomes part of the word `i`. -/
def temp (nk i : Nat) (prev : Word) : Word :=
  if i % nk = 0 then
    #v[aes_sbox prev[1] ^^^ aes_rcon (i / nk), aes_sbox prev[2], aes_sbox prev[3],
      aes_sbox prev[0]]
  else if 6 < nk ∧ i % nk = 4 then prev.map aes_sbox
  else prev

/-- `w[i]`. -/
def word (w : List Word) (i : Nat) : Word := w.getD i (Vector.replicate 4 0)

/-- The body of the loop that adds a word behind those that are there. -/
def expand_word (nk : Nat) (w : List Word) (i : Nat) : List Word :=
  w ++ [Vector.zipWith (· ^^^ ·) (word w (i - nk)) (temp nk i (word w (i - 1)))]

/-- The words of the key. -/
def key_words (key : List UInt8) (nk : Nat) : List Word :=
  (List.range nk).map fun i => Vector.ofFn fun j => key.getD (i * 4 + j) 0

def expand (key : List UInt8) (nk total_words : Nat) : List Word :=
  (List.range' nk (total_words - nk)).foldl (expand_word nk) (key_words key nk)

def aes_set_key (ctx : Ctx) (key : List UInt8) (key_len : Nat) : Ctx :=
  let nk := key_len / 4
  let rounds := nk + 6
  let w := expand key nk (4 * (rounds + 1))
  { rounds
    round_key r :=
      if r ≤ rounds then Vector.ofFn fun i => (word w (r * 4 + i / 4))[i.val % 4]
      else ctx.round_key r }

/-! ## Blocks -/

def aes_add_round_key (state rk : Block) : Block := Vector.zipWith (· ^^^ ·) state rk

def aes_sub_bytes (state : Block) : Block := state.map aes_sbox

def aes_inv_sub_bytes (state : Block) : Block := state.map aes_inv_sbox

def aes_shift_rows (s : Block) : Block :=
  -- row 1
  let t := s[1]
  let s := (((s.set 1 s[5]).set 5 s[9]).set 9 s[13]).set 13 t
  -- row 2
  let t := s[2]
  let s := (s.set 2 s[10]).set 10 t
  let t := s[6]
  let s := (s.set 6 s[14]).set 14 t
  -- row 3
  let t := s[15]
  (((s.set 15 s[11]).set 11 s[7]).set 7 s[3]).set 3 t

def aes_inv_shift_rows (s : Block) : Block :=
  let t := s[13]
  let s := (((s.set 13 s[9]).set 9 s[5]).set 5 s[1]).set 1 t
  let t := s[2]
  let s := (s.set 2 s[10]).set 10 t
  let t := s[6]
  let s := (s.set 6 s[14]).set 14 t
  let t := s[3]
  (((s.set 3 s[7]).set 7 s[11]).set 11 s[15]).set 15 t

/-- `col[row]`. -/
def cell (s : Block) (col row : Fin 4) : UInt8 :=
  have : 4 * col.val + row.val < 16 := by omega
  s[4 * col.val + row.val]

/-- The loop over the columns, each of which is read before it is written. -/
def columns (mix : UInt8 → UInt8 → UInt8 → UInt8 → Word) (s : Block) : Block :=
  Vector.ofFn fun i =>
    let c : Fin 4 := ⟨i / 4, by omega⟩
    (mix (cell s c 0) (cell s c 1) (cell s c 2) (cell s c 3))[i.val % 4]

def aes_mix_columns : Block → Block := columns fun a0 a1 a2 a3 =>
  #v[aes_mul a0 2 ^^^ aes_mul a1 3 ^^^ a2 ^^^ a3,
    a0 ^^^ aes_mul a1 2 ^^^ aes_mul a2 3 ^^^ a3,
    a0 ^^^ a1 ^^^ aes_mul a2 2 ^^^ aes_mul a3 3,
    aes_mul a0 3 ^^^ a1 ^^^ a2 ^^^ aes_mul a3 2]

def aes_inv_mix_columns : Block → Block := columns fun a0 a1 a2 a3 =>
  #v[aes_mul a0 14 ^^^ aes_mul a1 11 ^^^ aes_mul a2 13 ^^^ aes_mul a3 9,
    aes_mul a0 9 ^^^ aes_mul a1 14 ^^^ aes_mul a2 11 ^^^ aes_mul a3 13,
    aes_mul a0 13 ^^^ aes_mul a1 9 ^^^ aes_mul a2 14 ^^^ aes_mul a3 11,
    aes_mul a0 11 ^^^ aes_mul a1 13 ^^^ aes_mul a2 9 ^^^ aes_mul a3 14]

/-- A round, `rk` being its key. -/
def encrypt_round (block rk : Block) : Block :=
  aes_add_round_key (aes_mix_columns (aes_shift_rows (aes_sub_bytes block))) rk

def aes128_encrypt_block (ctx : Ctx) (block : Block) : Block :=
  let block := aes_add_round_key block (ctx.round_key 0)
  let block := (List.range' 1 (ctx.rounds - 1)).foldl
    (fun block round => encrypt_round block (ctx.round_key round)) block
  aes_add_round_key (aes_shift_rows (aes_sub_bytes block)) (ctx.round_key ctx.rounds)

def decrypt_round (block rk : Block) : Block :=
  aes_inv_sub_bytes (aes_inv_shift_rows (aes_inv_mix_columns (aes_add_round_key block rk)))

def aes128_decrypt_block (ctx : Ctx) (block : Block) : Block :=
  let block := aes_add_round_key block (ctx.round_key ctx.rounds)
  let block := aes_inv_sub_bytes (aes_inv_shift_rows block)
  let block := (List.range' 1 (ctx.rounds - 1)).reverse.foldl
    (fun block round => decrypt_round block (ctx.round_key round)) block
  aes_add_round_key block (ctx.round_key 0)

/-! ## Chaining -/

/-- The 16 bytes at `data + off`. -/
def block_at (data : Nat → UInt8) (off : Nat) : Block := Vector.ofFn fun i => data (off + i)

/-- The bytes with others at `data + off`. -/
def put_block (data : Nat → UInt8) (off : Nat) (b : Block) (i : Nat) : UInt8 :=
  if off ≤ i ∧ i < off + 16 then b[(i - off) % 16] else data i

/-- The loop of both functions from `off` on, `body` being what it does to a block, with `prev`:
`none` if `turns` were not enough. -/
def cbc (body : Block → Block → Block × Block) (len : UInt32) :
    Nat → UInt32 → Block → (Nat → UInt8) → Option (Nat → UInt8)
  | 0, _, _, _ => none
  | turns + 1, off, prev, data =>
    if off < len then
      let out := body prev (block_at data off.toNat)
      cbc body len turns (off + 16) out.2 (put_block data off.toNat out.1)
    else some data

def aes128_cbc_encrypt (turns : Nat) (ctx : Ctx) (iv : Block) (data : Nat → UInt8)
    (len : UInt32) : Option (Nat → UInt8) :=
  cbc (fun prev x =>
    let x := aes128_encrypt_block ctx (Vector.zipWith (· ^^^ ·) x prev)
    (x, x)) len turns 0 iv data

def aes128_cbc_decrypt (turns : Nat) (ctx : Ctx) (iv : Block) (data : Nat → UInt8)
    (len : UInt32) : Option (Nat → UInt8) :=
  cbc (fun prev cur_ct => (Vector.zipWith (· ^^^ ·) (aes128_decrypt_block ctx cur_ct) prev, cur_ct))
    len turns 0 iv data

end Aes
