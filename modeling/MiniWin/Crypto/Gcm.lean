import MiniWin.Crypto.WordBytes
import Mathlib.Data.List.FinRange

/-!
# AES-GCM

`gcm.h`, over any block cipher: `E` is what `aes128_encrypt_block` does with the expanded key of the
context. Data that is worked on in place is a list that goes in and a list that comes out.

The product with the hash key takes four bits at a time, from the last byte to the first, and looks
their product up in a table of sixteen.
-/

namespace Gcm

/-- `u8 x[16]`. -/
abbrev Cell := Vector UInt8 16

/-- `u8 x[16] = {0}`. -/
def zero : Cell := Vector.replicate 16 0

def gcm_xor_block (a b : Cell) : Cell := Vector.ofFn fun i => a.get i ^^^ b.get i

/-- `gcm_table_t`: the low and the high halves of the products. -/
structure Table where
  hl : Nat → BitVec 64
  hh : Nat → BitVec 64

/-- `t->hh[i] = h; t->hl[i] = l;` -/
def Table.set (t : Table) (i : Nat) (h l : BitVec 64) : Table where
  hl := Function.update t.hl i l
  hh := Function.update t.hh i h

def gcm_get64_be (p : Cell) (o : Nat) : BitVec 64 := WordBytes.get64_be (p.toList.getD · 0) o

def gcm_put64_be (p : Cell) (o : Nat) (v : BitVec 64) : Cell := Vector.ofFn fun i =>
  if o ≤ i.val ∧ i.val < o + 8 then (WordBytes.put64_be v).getD (i - o) 0 else p.get i

/-- The body of the loop over 4, 2 and 1. -/
def halve : Table × BitVec 64 × BitVec 64 → Nat → Table × BitVec 64 × BitVec 64
  | (t, vh, vl), i =>
    let carry : BitVec 64 := if vl.getLsbD 0 then 0xe100000000000000 else 0
    let vl' := (vh <<< 63) ||| (vl >>> 1)
    let vh' := (vh >>> 1) ^^^ carry
    (t.set i vh' vl', vh', vl')

/-- The entries of the powers of two. -/
def powers (h : Cell) : Table :=
  let vh := gcm_get64_be h 0
  let vl := gcm_get64_be h 8
  let t : Table := ⟨fun _ => 0, fun _ => 0⟩
  let t := (t.set 0 0 0).set 8 vh vl
  ([4, 2, 1].foldl halve (t, vh, vl)).1

/-- The entries behind a power of two: the loop over `j`. -/
def double (t : Table) (i : Nat) : Table :=
  (List.range' 1 (i - 1)).foldl
    (fun t j => t.set (i + j) (t.hh i ^^^ t.hh j) (t.hl i ^^^ t.hl j)) t

/-- Every entry is set, so that nothing depends on what the table was. -/
def gcm_build_table (h : Cell) : Table := [2, 4, 8].foldl double (powers h)

def last4 : List (BitVec 64) :=
  [0x0000, 0x1c20, 0x3840, 0x2460, 0x7080, 0x6ca0, 0x48c0, 0x54e0,
   0xe100, 0xfd20, 0xd940, 0xc560, 0x9180, 0x8da0, 0xa9c0, 0xb5e0]

/-- Four places on, with the product of four bits. -/
def look (t : Table) : BitVec 64 × BitVec 64 → Nat → BitVec 64 × BitVec 64
  | (zh, zl), n =>
    let rem := (zl &&& 0xf).toNat
    let zl := (zh <<< 60) ||| (zl >>> 4)
    let zh := zh >>> 4
    let zh := zh ^^^ (last4.getD rem 0 <<< 48)
    (zh ^^^ t.hh n, zl ^^^ t.hl n)

/-- A byte of the factor: its low half, which the last byte has behind it already, and its high
half. -/
def look_byte (t : Table) (y : Cell) (z : BitVec 64 × BitVec 64) (i : Fin 16) :
    BitVec 64 × BitVec 64 :=
  let lo := (y.get i &&& 0xf).toNat
  let hi := ((y.get i >>> 4) &&& 0xf).toNat
  let z := if i ≠ 15 then look t z lo else z
  look t z hi

def gcm_mult_h (t : Table) (y : Cell) : Cell :=
  let lo := (y.get 15 &&& 0xf).toNat
  let (zh, zl) := (List.finRange 16).reverse.foldl (look_byte t y) (t.hh lo, t.hl lo)
  gcm_put64_be (gcm_put64_be y 0 zh) 8 zl

/-- The loop `y[i] ^= data[i]`. -/
def xor_into (y : Cell) (data : List UInt8) : Cell := Vector.ofFn fun i =>
  if i.val < data.length then y.get i ^^^ data.getD i 0 else y.get i

def gcm_absorb (t : Table) (y : Cell) (data : List UInt8) : Cell :=
  if 16 ≤ data.length then gcm_absorb t (gcm_mult_h t (xor_into y (data.take 16))) (data.drop 16)
  else if 0 < data.length then gcm_mult_h t (xor_into y data)
  else y
termination_by data.length
decreasing_by
  rw [List.length_drop]
  omega

def gcm_absorb_lengths (t : Table) (y : Cell) (aad_len ct_len : Nat) : Cell :=
  let aad_bits := BitVec.ofNat 64 (aad_len * 8)
  let ct_bits := BitVec.ofNat 64 (ct_len * 8)
  let blk := gcm_put64_be (gcm_put64_be zero 0 aad_bits) 8 ct_bits
  gcm_mult_h t (gcm_xor_block y blk)

/-- The carry stops at the first byte that does not become zero. -/
def count_up : List (Fin 16) → Cell → Cell
  | [], counter => counter
  | i :: is, counter =>
    let counter := counter.set i (counter.get i + 1)
    if counter.get i ≠ 0 then counter else count_up is counter

def gcm_inc32 (counter : Cell) : Cell := count_up [15, 14, 13, 12] counter

def gcm_ctr_apply (E : Cell → Cell) (counter : Cell) (data : List UInt8) : List UInt8 :=
  if 0 < data.length then
    let keystream := E counter
    let chunk := if data.length < 16 then data.length else 16
    (data.take chunk).zipWith (· ^^^ ·) keystream.toList
      ++ gcm_ctr_apply E (gcm_inc32 counter) (data.drop chunk)
  else []
termination_by data.length
decreasing_by
  rw [List.length_drop]
  split <;> omega

/-- `iv` with the counter 1 behind it. -/
def first_counter (iv : Vector UInt8 12) : Cell := iv ++ (#v[0, 0, 0, 1] : Vector UInt8 4)

def gcm_compute_tag (E : Cell → Cell) (iv : Vector UInt8 12) (aad ct : List UInt8) : Cell :=
  let h := E zero
  let table := gcm_build_table h
  let y := zero
  let y := gcm_absorb table y aad
  let y := gcm_absorb table y ct
  let y := gcm_absorb_lengths table y aad.length ct.length
  let j0 := E (first_counter iv)
  gcm_xor_block y j0

/-- What is in the buffer behind it, and the tag. -/
def gcm_encrypt (E : Cell → Cell) (iv : Vector UInt8 12) (aad plaintext : List UInt8) :
    List UInt8 × Cell :=
  let counter := gcm_inc32 (first_counter iv)
  let plaintext := gcm_ctr_apply E counter plaintext
  (plaintext, gcm_compute_tag E iv aad plaintext)

/-- What is returned, and what is in the buffer behind it. -/
def gcm_decrypt (E : Cell → Cell) (iv : Vector UInt8 12) (aad ciphertext : List UInt8)
    (tag_in : Cell) : Nat × List UInt8 :=
  let expected := gcm_compute_tag E iv aad ciphertext
  let diff := (List.finRange 16).foldl (fun diff i => diff ||| (expected.get i ^^^ tag_in.get i)) (0 : UInt8)
  if diff ≠ 0 then (0, ciphertext)
  else
    let counter := gcm_inc32 (first_counter iv)
    (1, gcm_ctr_apply E counter ciphertext)

end Gcm
