import MiniWin.Crypto.Sha2Tables

/-!
# The digests

A context holds what a reader of the message holds (`Ctx.reader`): the first `buf_len` bytes of the
block and the hash value behind the blocks before it. An update feeds the reader (`update_reader`),
however the data goes into blocks, so that the pieces of a message do not matter.

The two ways to finish end in the same last block. Byte after byte the zeros stop where there is
room for just the length (`sha256_fill_reader`), and written into the block they stop there as
well, in that block or in the next one (`sha512_final_n_eq`).
-/

namespace Sha2
open Fips BlockHash

variable {w B : Nat} {core : Core w} {F : Functions w}

/-- A run of bytes written behind others. -/
theorem slice_put_behind (b : Block) (n : Nat) (l : List UInt8) :
    (b.put n l).slice 0 (n + l.length) = b.slice 0 n ++ l := by
  have hfront : (b.put n l).slice 0 n = b.slice 0 n :=
    Block.slice_congr fun i hi => Block.put_apply_of_not_mem b (by omega)
  have hback : (b.put n l).slice (0 + n) l.length = l := by
    rw [Nat.zero_add, Block.slice_put]
  rw [Block.slice_add, hfront, hback]

/-- What a context holds of its message. -/
def Ctx.reader (ctx : Ctx w B) : Reader (Words w) UInt8 B :=
  ⟨ctx.h, ctx.buf.slice 0 ctx.buf_len, by rw [Block.length_slice]; exact ctx.buf_len_lt⟩

theorem Ctx.reader_held_length (ctx : Ctx w B) : ctx.reader.held.length = ctx.buf_len :=
  Block.length_slice _ _ _

/-- A round of the loop. -/
theorem pass_reader (hF : core.Meets F) (hB : B = 16 * (w / 8)) (ctx : Ctx w B)
    (data : List UInt8) :
    (ctx.pass core data).reader
      = ctx.reader.feed (compress F) (data.take (ctx.take data.length)) := by
  have htake := ctx.take_le data.length
  have hlen : (data.take (ctx.take data.length)).length = ctx.take data.length := by
    rw [List.length_take, Nat.min_eq_left htake.2.1]
  have hslice := slice_put_behind ctx.buf ctx.buf_len (data.take (ctx.take data.length))
  rw [hlen] at hslice
  by_cases h : ctx.buf_len + ctx.take data.length = B
  · rw [Reader.feed_of_eq (by rw [ctx.reader_held_length, hlen, h])]
    simp only [Ctx.pass, dif_pos h]
    refine Reader.ext ?_ rfl
    show core.process_block ctx.h _ = compress F ctx.h (ctx.buf.slice 0 ctx.buf_len ++ _)
    rw [hF.process_block, ← hB, ← hslice, h]
  · rw [Reader.feed_of_lt (by rw [ctx.reader_held_length, hlen]; omega)]
    simp only [Ctx.pass, dif_neg h]
    exact Reader.ext rfl hslice

theorem take_in_reader (hF : core.Meets F) (hB : B = 16 * (w / 8)) (ctx : Ctx w B)
    (data : List UInt8) : (take_in core ctx data).reader = ctx.reader.feed (compress F) data := by
  induction ctx, data using take_in.induct core with
  | case1 ctx data hlen ih =>
    rw [take_in, if_pos hlen, ih, pass_reader hF hB, ← Reader.feed_append, List.take_append_drop]
  | case2 ctx data hlen =>
    obtain rfl : data = [] := List.eq_nil_of_length_eq_zero (by omega)
    rw [take_in, if_neg hlen, Reader.feed_nil]

/-- **An update feeds the reader.** -/
theorem update_reader (hF : core.Meets F) (hB : B = 16 * (w / 8)) (ctx : Ctx w B)
    (data : List UInt8) : (update core ctx data).reader = ctx.reader.feed (compress F) data :=
  take_in_reader hF hB _ data

theorem take_in_total_len (core : Core w) (ctx : Ctx w B) (data : List UInt8) :
    (take_in core ctx data).total_len = ctx.total_len := by
  induction ctx, data using take_in.induct core with
  | case1 ctx data hlen ih =>
    rw [take_in, if_pos hlen, ih]
    unfold Ctx.pass
    dsimp only
    split <;> rfl
  | case2 ctx data hlen => rw [take_in, if_neg hlen]

theorem update_total_len (core : Core w) (ctx : Ctx w B) (data : List UInt8) :
    (update core ctx data).total_len = ctx.total_len + UInt64.ofNat data.length :=
  take_in_total_len core _ data

/-- **A message in pieces** is the message. -/
theorem updates (hF : core.Meets F) (hB : B = 16 * (w / 8)) (pos : 0 < B) (iv : Words w)
    (buf : Block) (pieces : List (List UInt8)) :
    let ctx := pieces.foldl (update core) (init iv pos buf)
    ctx.reader = (Reader.start pos iv).feed (compress F) pieces.flatten
      ∧ ctx.total_len = UInt64.ofNat pieces.flatten.length := by
  induction pieces using List.reverseRecOn with
  | nil => exact ⟨rfl, rfl⟩
  | append_singleton pieces l ih =>
    obtain ⟨hr, ht⟩ := ih
    dsimp only at hr ht ⊢
    rw [List.foldl_append, List.foldl_cons, List.foldl_nil, List.flatten_append,
      List.flatten_singleton, update_reader hF hB, hr, ← Reader.feed_append, update_total_len, ht,
      List.length_append, UInt64.ofNat_add]
    exact ⟨rfl, rfl⟩

/-! ## `sha256_final` -/

/-- The zeros up to the place of the length. -/
theorem sha256_fill_reader (ctx : Ctx 32 64) :
    (sha256_fill ctx).reader = ctx.reader.feed (compress functions256)
        (List.replicate ((56 + 64 - ctx.buf_len) % 64) 0)
      ∧ (sha256_fill ctx).buf_len = 56 := by
  induction ctx using sha256_fill.induct with
  | case1 ctx hne ih =>
    have hlt := ctx.buf_len_lt
    have hlen : (sha256_update ctx [0]).buf_len
        = if ctx.buf_len + 1 = 64 then 0 else ctx.buf_len + 1 := take_in_one_buf_len _ _ _
    have hstep : (56 + 64 - ctx.buf_len) % 64
        = (56 + 64 - (sha256_update ctx [0]).buf_len) % 64 + 1 := by
      rw [hlen]
      split <;> omega
    have hreader : (sha256_update ctx [0]).reader = ctx.reader.feed (compress functions256) [0] :=
      update_reader sha256_meets rfl ctx [0]
    rw [sha256_fill, if_pos hne]
    refine ⟨?_, ih.2⟩
    rw [ih.1, hreader, ← Reader.feed_append, hstep]
    rfl
  | case2 ctx heq =>
    obtain h : ctx.buf_len = 56 := not_not.mp heq
    rw [sha256_fill, if_neg heq, h]
    exact ⟨rfl, rfl⟩

/-- The eight bytes of the length. -/
theorem len_bytes_eq (v : UInt64) :
    ((List.range 8).map fun i => (v >>> UInt64.ofNat (56 - i * 8)).toUInt8)
      = BigEndian.bytes 8 v.toNat := by
  rw [← UInt64.toNat_toBitVec, ← WordBytes.put64_be_eq]
  rfl

/-- **What `sha256_final` does** with what the context holds. -/
theorem sha256_final_eq {iv : Words 32} {m : List UInt8} {ctx : Ctx 32 64}
    (hr : ctx.reader = (Reader.start (by decide) iv).feed (compress functions256) m)
    (ht : ctx.total_len = UInt64.ofNat m.length) (hm : m.length < 2 ^ 61) :
    sha256_final ctx = hash functions256 iv m := by
  have hone : (sha256_update ctx [0x80]).reader
      = ctx.reader.feed (compress functions256) [0x80] := update_reader sha256_meets rfl ctx _
  have hlen : (sha256_update ctx [0x80]).buf_len
      = if ctx.buf_len + 1 = 64 then 0 else ctx.buf_len + 1 := take_in_one_buf_len _ _ _
  obtain ⟨hfill, hfull⟩ := sha256_fill_reader (sha256_update ctx [0x80])
  have hzeros : zeros 64 8 ctx.buf_len
      = (56 + 64 - (sha256_update ctx [0x80]).buf_len) % 64 := by
    have hlt := ctx.buf_len_lt
    rw [hlen, zeros]
    split <;> omega
  have hbits : (ctx.total_len * 8).toNat = 8 * m.length := by
    rw [ht, UInt64.toNat_mul, UInt64.toNat_ofNat_of_lt' (show m.length < 2 ^ 64 by omega)]
    show m.length * 8 % 2 ^ 64 = _
    omega
  obtain ⟨last, hlast⟩ : ∃ last, sha256_fill (sha256_update ctx [0x80]) = last := ⟨_, rfl⟩
  rw [hlast] at hfill hfull
  have hpad : last.reader = ctx.reader.feed (compress functions256) (0x80 :: List.replicate
      (zeros 64 (BigEndian.bytes 8 (8 * m.length)).length ctx.reader.held.length) 0) := by
    rw [hfill, hone, ← Reader.feed_append, BigEndian.length_bytes, Ctx.reader_held_length, hzeros]
    rfl
  have hroom : last.reader.held.length + (BigEndian.bytes 8 (8 * m.length)).length = 64 := by
    rw [Ctx.reader_held_length, hfull, BigEndian.length_bytes]
  have hheld : last.reader.held = last.buf.slice 0 56 := congrArg (Block.slice _ 0) hfull
  have hslice := slice_put_behind last.buf 56 (BigEndian.bytes 8 (8 * m.length))
  rw [BigEndian.length_bytes] at hslice
  unfold sha256_final Fips.hash
  dsimp only
  rw [len_bytes_eq, hbits, hlast, sha256_meets.serialize, sha256_process_block,
    sha256_meets.process_block, chain_padded hr hpad hroom, hfull, hheld, ← hslice]
  rfl

/-! ## `sha512_final_n` -/

/-- **The zeros up to the place of the length**, in this block or in the next one. -/
theorem sha512_mark_reader (ctx : Ctx 64 128) {state : Words 64} {block : Block} {len : Nat}
    (h : sha512_mark ctx = (state, block, len)) :
    ∃ r, r = ctx.reader.feed (compress functions512)
        (0x80 :: List.replicate (zeros 128 16 ctx.buf_len) 0)
      ∧ r.state = state
      ∧ r.held = (block.put len (List.replicate (128 - 16 - len) 0)).slice 0 (128 - 16) := by
  have hlt := ctx.buf_len_lt
  have hput (n : Nat) : ((ctx.buf.put ctx.buf_len [0x80]).put (ctx.buf_len + 1)
      (List.replicate n 0)).slice 0 (ctx.buf_len + 1 + n)
        = ctx.reader.held ++ 0x80 :: List.replicate n 0 := by
    refine Eq.trans ?_ (slice_put_behind ctx.buf ctx.buf_len (0x80 :: List.replicate n 0))
    rw [List.length_cons, List.length_replicate, Nat.add_assoc, Nat.add_comm 1 n]
    exact congrArg (Block.slice · 0 _) (Block.put_put_append ctx.buf ctx.buf_len [0x80] _)
  refine ⟨_, rfl, ?_⟩
  unfold sha512_mark at h
  dsimp only at h
  split at h
  · next hgt =>
    -- the block is filled up, and the zeros of the next one are all behind it
    obtain ⟨rfl, hb⟩ := Prod.mk.inj h
    obtain ⟨rfl, rfl⟩ := Prod.mk.inj hb
    have hfull : ctx.buf_len + 1 + (128 - (ctx.buf_len + 1)) = 128 := by omega
    have hslice := hput (128 - (ctx.buf_len + 1))
    rw [hfull] at hslice
    have hlen : ctx.reader.held.length
        + ((0x80 : UInt8) :: List.replicate (128 - (ctx.buf_len + 1)) 0).length = 128 := by
      rw [ctx.reader_held_length, List.length_cons, List.length_replicate]
      omega
    rw [zeros_of_gt hlt (by decide) (by omega), List.replicate_add, ← List.cons_append,
      Reader.feed_append, Reader.feed_of_eq hlen,
      Reader.feed_of_lt (by rw [List.length_nil, List.length_replicate]; decide)]
    refine ⟨?_, ?_⟩
    · show compress functions512 ctx.h _ = _
      rw [sha512_process_block, sha512_meets.process_block, ← hslice]
    · have := slice_put_behind ((ctx.buf.put ctx.buf_len [0x80]).put (ctx.buf_len + 1)
        (List.replicate (128 - (ctx.buf_len + 1)) 0)) 0 (List.replicate (128 - 16) 0)
      rw [List.length_replicate, Nat.zero_add] at this
      exact this.symm
  · next hle =>
    obtain ⟨rfl, hb⟩ := Prod.mk.inj h
    obtain ⟨rfl, rfl⟩ := Prod.mk.inj hb
    have hfull : ctx.buf_len + 1 + (128 - 16 - (ctx.buf_len + 1)) = 128 - 16 := by omega
    have hslice := hput (128 - 16 - (ctx.buf_len + 1))
    rw [hfull] at hslice
    have hlen : ctx.reader.held.length
        + ((0x80 : UInt8) :: List.replicate (128 - 16 - (ctx.buf_len + 1)) 0).length < 128 := by
      rw [ctx.reader_held_length, List.length_cons, List.length_replicate]
      omega
    rw [zeros_of_le (by omega), Reader.feed_of_lt hlen]
    exact ⟨rfl, hslice.symm⟩

/-- The two words of the length. -/
theorem bits_eq {n : Nat} {total : UInt64} (h : total.toNat = n) :
    sha512_put64_be (total >>> 61).toBitVec ++ sha512_put64_be (total <<< 3).toBitVec
      = BigEndian.bytes 16 (8 * n) := by
  have hhi : (total >>> 61).toBitVec.toNat = 8 * n / 256 ^ 8 := by
    rw [UInt64.toNat_toBitVec, UInt64.toNat_shiftRight, h, Nat.shiftRight_eq_div_pow]
    show n / 2 ^ 61 = _
    omega
  have hlo : (total <<< 3).toBitVec.toNat = 8 * n % 256 ^ 8 := by
    rw [UInt64.toNat_toBitVec, UInt64.toNat_shiftLeft, h, Nat.shiftLeft_eq]
    show n * 2 ^ 3 % 2 ^ 64 = _
    omega
  rw [sha512_put64_be, sha512_put64_be, WordBytes.put64_be_eq, WordBytes.put64_be_eq, hhi, hlo,
    BigEndian.bytes_mod]
  exact (BigEndian.bytes_add 8 8 (8 * n)).symm

/-- **What `sha512_final_n` does** with what the context holds. -/
theorem sha512_final_n_eq {iv : Words 64} {m : List UInt8} {ctx : Ctx 64 128} (out_len : Nat)
    (hr : ctx.reader = (Reader.start (by decide) iv).feed (compress functions512) m)
    (ht : ctx.total_len = UInt64.ofNat m.length) (hm : m.length < 2 ^ 64) :
    sha512_final_n ctx out_len = (Fips.hash functions512 iv m).take out_len := by
  obtain ⟨⟨state, block, len⟩, hmark⟩ : ∃ t, sha512_mark ctx = t := ⟨_, rfl⟩
  obtain ⟨r, hfeed, rfl, hheld⟩ := sha512_mark_reader ctx hmark
  have hbits := bits_eq (show ctx.total_len.toNat = m.length by
    rw [ht, UInt64.toNat_ofNat_of_lt' hm])
  obtain ⟨last, hlast⟩ : ∃ last, block.put len (List.replicate (128 - 16 - len) 0) = last :=
    ⟨_, rfl⟩
  rw [hlast] at hheld
  have hputs : (last.put (128 - 16) (sha512_put64_be (ctx.total_len >>> 61).toBitVec)).put
      (128 - 8) (sha512_put64_be (ctx.total_len <<< 3).toBitVec)
        = last.put (128 - 16) (BigEndian.bytes 16 (8 * m.length)) := by
    rw [← hbits, ← Block.put_put_append]
    rfl
  have hslice := slice_put_behind last (128 - 16) (BigEndian.bytes 16 (8 * m.length))
  rw [BigEndian.length_bytes] at hslice
  have hpad : r = ctx.reader.feed (compress functions512) (0x80 :: List.replicate
      (zeros 128 (BigEndian.bytes 16 (8 * m.length)).length ctx.reader.held.length) 0) := by
    rw [BigEndian.length_bytes, Ctx.reader_held_length, hfeed]
  have hroom : r.held.length + (BigEndian.bytes 16 (8 * m.length)).length = 128 := by
    rw [hheld, Block.length_slice, BigEndian.length_bytes]
  unfold sha512_final_n Fips.hash
  rw [hmark]
  dsimp only
  rw [hlast, hputs, sha512_meets.serialize, sha512_process_block, sha512_meets.process_block,
    chain_padded hr hpad hroom, hheld, ← hslice]

/-! ## Any message, in any pieces -/

/-- **The digests of a message that is shorter than 2⁶¹ bytes** are those of the standard, in
whatever pieces it is taken in and whatever the block had in it before. -/
theorem finals (pieces : List (List UInt8)) (buf : Block)
    (h : pieces.flatten.length < 2 ^ 61) :
    sha256_final (pieces.foldl sha256_update (sha256_init buf)) = Fips.sha256 pieces.flatten
      ∧ sha384_final (pieces.foldl sha512_update (sha384_init buf)) = Fips.sha384 pieces.flatten
      ∧ sha512_final (pieces.foldl sha512_update (sha512_init buf))
        = Fips.sha512 pieces.flatten := by
  obtain ⟨hr256, ht256⟩ := updates sha256_meets (B := 64) rfl (by decide) sha256_iv buf pieces
  obtain ⟨hr384, ht384⟩ := updates sha512_meets (B := 128) rfl (by decide) sha384_iv buf pieces
  obtain ⟨hr512, ht512⟩ := updates sha512_meets (B := 128) rfl (by decide) sha512_iv buf pieces
  refine ⟨?_, ?_, ?_⟩
  · rw [Fips.sha256, ← sha256_iv_eq]
    exact sha256_final_eq hr256 ht256 h
  · rw [Fips.sha384, ← sha384_iv_eq]
    exact sha512_final_n_eq 48 hr384 ht384 (by omega)
  · have hall := sha512_final_n_eq 64 hr512 ht512 (by omega)
    rw [Fips.sha512, ← sha512_iv_eq]
    exact hall.trans (List.take_of_length_le (Nat.le_of_eq (Fips.length_hash _ _ _)))

/-- The message `abc` in three pieces, one of them empty. -/
theorem finals_abc :
    sha256_final ([[97, 98], [], [99]].foldl sha256_update (sha256_init Block.zero))
      = Fips.sha256 [97, 98, 99]
    ∧ sha384_final ([[97, 98], [], [99]].foldl sha512_update (sha384_init Block.zero))
      = Fips.sha384 [97, 98, 99]
    ∧ sha512_final ([[97, 98], [], [99]].foldl sha512_update (sha512_init Block.zero))
      = Fips.sha512 [97, 98, 99] :=
  finals [[97, 98], [], [99]] Block.zero (by decide)

end Sha2
