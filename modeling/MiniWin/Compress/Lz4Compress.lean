import MiniWin.Compress.Lz4
import Mathlib.Algebra.Order.Ring.Int
import Mathlib.Logic.Function.Basic

/-!
# The compressor of LZ4 blocks

`lz4_compress` of `tools/gen_hangul_font.py`. Positions with the same four bytes are in chains, and
the longest match in a chain is taken. What it writes is a row of sequences of its text, whatever of
the text so far is in the chains.
-/

namespace Lz4

open Backref

/-! ## The source -/

/-- `heads` and `prev`: the last position of four bytes, and the one before a position. -/
structure Chains where
  heads : List UInt8 → ℤ
  prev : ℕ → ℤ

def Chains.none : Chains := ⟨fun _ => -1, fun _ => -1⟩

/-- `data[pos:pos + 4]`. -/
def key (data : List UInt8) (pos : ℕ) : List UInt8 := (data.drop pos).take 4

/-- `insert`. -/
def insert (data : List UInt8) (c : Chains) (pos : ℕ) : Chains :=
  if pos + 4 ≤ data.length then
    { heads := Function.update c.heads (key data pos) pos
      prev := Function.update c.prev pos (c.heads (key data pos)) }
  else c

/-- `for k in range(i, i + n): insert(k)`. -/
def insertFrom (data : List UInt8) (c : Chains) (i : ℕ) : ℕ → Chains
  | 0 => c
  | n + 1 => insert data (insertFrom data c i n) (i + n)

/-- The length of the match at `cand`, with what is left of `max_len` and the length so far. -/
def matchLen (data : List UInt8) (cand i : ℕ) : ℕ → ℕ → ℕ
  | 0, length => length
  | n + 1, length =>
    if data[cand + length]? = data[i + length]? then matchLen data cand i n (length + 1) else length

/-- The walk of a chain, with the best length and offset so far. -/
def bestOf (data : List UInt8) (c : Chains) (i maxLen : ℕ) : ℕ → ℤ → ℕ × ℕ → ℕ × ℕ
  | 0, _, best => best
  | tries + 1, cand, best =>
    if 0 ≤ cand ∧ i - cand ≤ 65535 then
      let length := matchLen data cand.toNat i maxLen 0
      bestOf data c i maxLen tries (c.prev cand.toNat)
        (if length > best.1 then (length, i - cand.toNat) else best)
    else best

/-- The best length and offset at `i`. -/
def findMatch (data : List UInt8) (chain : ℕ) (c : Chains) (i : ℕ) : ℕ × ℕ :=
  if i + 12 ≤ data.length then
    bestOf data c i (data.length - 5 - i) chain (c.heads (key data i)) (0, 0)
  else (0, 0)

/-- `emit`. -/
def emit (data : List UInt8) (litStart litEnd offset mlen : ℕ) : List UInt8 :=
  let lit := litEnd - litStart
  let tok := min lit 15 <<< 4 ||| if mlen ≠ 0 then min (mlen - 4) 15 else 0
  UInt8.ofNat tok :: (lenBytes lit ++ ((data.take litEnd).drop litStart ++
    if mlen ≠ 0 then
      UInt8.ofNat offset :: UInt8.ofNat (offset / 256) :: lenBytes (mlen - 4)
    else []))

/-- The loop over the positions. -/
def compressFrom (data : List UInt8) (chain : ℕ) (c : Chains) (anchor i : ℕ) (out : List UInt8) :
    List UInt8 :=
  if i < data.length then
    let best := findMatch data chain c i
    if best.1 ≥ 4 then
      compressFrom data chain (insertFrom data c i best.1) (i + best.1) (i + best.1)
        (out ++ emit data anchor i best.2 best.1)
    else compressFrom data chain (insert data c i) anchor (i + 1) out
  else out ++ emit data anchor data.length 0 0
termination_by data.length - i
decreasing_by
  · show data.length - (i + best.1) < data.length - i
    omega
  · omega

/-- **`lz4_compress`.** -/
def lz4Compress (data : List UInt8) (chain : ℕ) : List UInt8 :=
  compressFrom data chain Chains.none 0 0 []

/-! ## The chains -/

variable {data : List UInt8} {c : Chains} {i : ℕ}

/-- The chains lead to what is in front of `i`, and back. -/
structure Chains.Behind (c : Chains) (i : ℕ) : Prop where
  heads : ∀ k, c.heads k < i
  prev : ∀ p, c.prev p < p

theorem Chains.none_behind : Chains.none.Behind 0 :=
  ⟨fun _ => Int.negSucc_lt_zero 0, fun p => (Int.negSucc_lt_zero 0).trans_le (Int.natCast_nonneg p)⟩

theorem Chains.Behind.insert (h : c.Behind i) : (insert data c i).Behind (i + 1) := by
  have hnext : (i : ℤ) < (i + 1 : ℕ) := Int.ofNat_lt.mpr (Nat.lt_succ_self i)
  unfold Lz4.insert
  split
  · exact ⟨(Function.forall_update_iff c.heads fun _ v => v < (i + 1 : ℕ)).mpr
        ⟨hnext, fun k _ => (h.heads k).trans hnext⟩,
      (Function.forall_update_iff c.prev fun p v => v < (p : ℤ)).mpr
        ⟨h.heads _, fun p _ => h.prev p⟩⟩
  · exact ⟨fun k => (h.heads k).trans hnext, h.prev⟩

theorem Chains.Behind.insertFrom (h : c.Behind i) (n : ℕ) :
    (insertFrom data c i n).Behind (i + n) := by
  induction n with
  | zero => exact h
  | succ n ih => exact ih.insert

/-! ## Matches -/

theorem matchLen_spec {cand n length : ℕ} (h : ∀ k < length, data[cand + k]? = data[i + k]?) :
    matchLen data cand i n length ≤ length + n ∧
      ∀ k < matchLen data cand i n length, data[cand + k]? = data[i + k]? := by
  induction n generalizing length with
  | zero => exact ⟨le_rfl, h⟩
  | succ n ih =>
    unfold matchLen
    split
    · next heq =>
      obtain ⟨hle, hall⟩ := @ih (length + 1) fun k hk => by
        rcases Nat.lt_succ_iff_lt_or_eq.mp hk with hk | rfl
        · exact h k hk
        · exact heq
      exact ⟨by omega, hall⟩
    · exact ⟨Nat.le_add_right .., h⟩

/-- A length and an offset for a match at `i`. -/
structure Matches (data : List UInt8) (i maxLen : ℕ) (best : ℕ × ℕ) : Prop where
  len : best.1 ≤ maxLen
  off_pos : 0 < best.2
  off_le : best.2 ≤ i
  off_small : best.2 ≤ 65535
  agrees : ∀ k < best.1, data[i - best.2 + k]? = data[i + k]?

theorem bestOf_spec (h : c.Behind i) {maxLen tries : ℕ} {cand : ℤ} {best : ℕ × ℕ} (hcand : cand < i)
    (hbest : best.1 = 0 ∨ Matches data i maxLen best) :
    (bestOf data c i maxLen tries cand best).1 = 0 ∨
      Matches data i maxLen (bestOf data c i maxLen tries cand best) := by
  induction tries generalizing cand best with
  | zero => exact hbest
  | succ tries ih =>
    unfold bestOf
    split
    · next hin =>
      have hprev := h.prev cand.toNat
      refine ih (by omega) ?_
      split
      · obtain ⟨hle, hall⟩ := @matchLen_spec data i cand.toNat maxLen 0 fun k hk => nomatch hk
        have hback : i - (i - cand.toNat) = cand.toNat := by omega
        refine .inr ⟨by omega, ?_, Nat.sub_le .., ?_, ?_⟩
        · show 0 < i - cand.toNat
          omega
        · show i - cand.toNat ≤ 65535
          omega
        · rw [hback]
          exact hall
      · exact hbest
    · exact hbest

/-- **The match** found at a position is one of the text. -/
theorem findMatch_spec (h : c.Behind i) (chain : ℕ) :
    (findMatch data chain c i).1 = 0 ∨
      Matches data i (data.length - 5 - i) (findMatch data chain c i) := by
  unfold findMatch
  split
  · exact bestOf_spec h (h.heads _) (.inl rfl)
  · exact .inl rfl

/-! ## The sequences -/

/-- The literals from `anchor` and a match. -/
def seqOf (data : List UInt8) (anchor i : ℕ) (best : ℕ × ℕ) : Seq UInt8 :=
  ⟨(data.take i).drop anchor, best.2, best.1⟩

theorem slice_length {anchor : ℕ} (hi : i ≤ data.length) :
    ((data.take i).drop anchor).length = i - anchor := by
  rw [List.length_drop, List.length_take_of_le hi]

theorem slice_append {anchor : ℕ} (ha : anchor ≤ i) :
    data.take anchor ++ (data.take i).drop anchor = data.take i := by
  have htake : (data.take i).take anchor = data.take anchor := by
    rw [List.take_take, min_eq_left ha]
  rw [← htake, List.take_append_drop]

theorem emit_seq {anchor : ℕ} (hi : i ≤ data.length) {best : ℕ × ℕ} (hlen : best.1 ≥ 4) :
    emit data anchor i best.2 best.1 = encodeSeq (seqOf data anchor i best) := by
  unfold emit encodeSeq token seqOf
  rw [slice_length hi, if_pos (by omega), if_pos (by omega)]

theorem emit_last {anchor : ℕ} :
    emit data anchor data.length 0 0 = encodeLast (data.drop anchor) := by
  unfold emit encodeLast token
  rw [if_neg (by omega), if_neg (by omega), List.take_length, List.length_drop, List.append_nil,
    Nat.zero_min]

theorem seqOf_at {anchor : ℕ} (ha : anchor ≤ i) (hi : i < data.length) {best : ℕ × ℕ}
    (h : Matches data i (data.length - 5 - i) best) :
    (seqOf data anchor i best).At data anchor := by
  have hlen : anchor + (seqOf data anchor i best).lits.length = i := by
    show anchor + ((data.take i).drop anchor).length = i
    rw [slice_length hi.le]
    omega
  have hmax := h.len
  refine ⟨?_, h.off_pos, ?_, ?_, ?_⟩
  · rw [hlen]
    exact slice_append ha
  · rw [hlen]
    exact h.off_le
  · rw [hlen]
    show i + best.1 ≤ data.length
    omega
  · rw [hlen]
    exact h.agrees

/-- **What is written** from a position on is a row of sequences of the text. -/
theorem compressFrom_runs (chain anchor i : ℕ) (c : Chains) (out : List UInt8) (h : c.Behind i)
    (ha : anchor ≤ i) (hi : i ≤ data.length) :
    ∃ seqs last, Runs data anchor seqs last ∧
      compressFrom data chain c anchor i out = out ++ encode seqs last := by
  fun_induction compressFrom data chain c anchor i out with
  | case1 c anchor i out hlt best hbest ih =>
    have hmatch : Matches data i (data.length - 5 - i) best :=
      (findMatch_spec h chain).resolve_left (Nat.lt_of_lt_of_le (by decide) hbest).ne'
    have hmax : best.1 ≤ data.length - 5 - i := hmatch.len
    have hin : i + best.1 ≤ data.length := by omega
    obtain ⟨seqs, last, hruns, hout⟩ := ih (h.insertFrom _) le_rfl hin
    have hlen : anchor + ((data.take i).drop anchor).length + best.1 = i + best.1 := by
      rw [slice_length hi]
      omega
    refine ⟨seqOf data anchor i best :: seqs, last,
      .seq ⟨hmatch.off_pos, hmatch.off_small, hbest⟩ (seqOf_at ha hlt hmatch) ?_, ?_⟩
    · show Runs data (anchor + ((data.take i).drop anchor).length + best.1) seqs last
      rw [hlen]
      exact hruns
    · rw [hout, emit_seq hi hbest, encode_cons, List.append_assoc]
  | case2 c anchor i out hlt best hbest ih => exact ih h.insert (by omega) hlt
  | case3 c anchor i out hend =>
    refine ⟨[], data.drop anchor, .last (List.take_append_drop ..), ?_⟩
    rw [emit_last]
    rfl

/-- **`lz4_compress` and back.** -/
theorem lz4Compress_decode (data : List UInt8) (chain : ℕ) {dstcap : UInt32}
    (hroom : data.length ≤ dstcap.toNat) :
    lz4BlockDecode (lz4Compress data chain) dstcap = .ok data := by
  obtain ⟨seqs, last, hruns, hout⟩ :=
    compressFrom_runs chain 0 0 Chains.none [] Chains.none_behind le_rfl (Nat.zero_le data.length)
  unfold lz4Compress
  rw [hout]
  exact hruns.decode_eq hroom

/-- **The codec.** The decoder ends inside the buffers with 0 or the number of the bytes that it has
made, and makes a text again of what the compressor made of it. -/
theorem lz4_codec (src : List UInt8) (dstcap : UInt32) :
    (∃ r, lz4Returned src dstcap = some r ∧ r ≤ dstcap.toNat ∧
      (r = 0 ∨ ∃ out, lz4BlockDecode src dstcap = .ok out ∧ out.length = r)) ∧
    ∀ data chain, data.length ≤ dstcap.toNat →
      lz4BlockDecode (lz4Compress data chain) dstcap = .ok data ∧
        lz4Returned (lz4Compress data chain) dstcap = some data.length := by
  refine ⟨?_, fun data chain hroom => ?_⟩
  · unfold lz4Returned
    rcases lz4BlockDecode_safe src dstcap with h | ⟨out, h, hout⟩
    · rw [h]
      exact ⟨0, rfl, Nat.zero_le _, .inl rfl⟩
    · rw [h]
      exact ⟨out.length, rfl, hout, .inr ⟨out, rfl, rfl⟩⟩
  · have h := lz4Compress_decode data chain hroom
    unfold lz4Returned
    rw [h]
    exact ⟨rfl, rfl⟩

/-- A run, which is a match that reaches into itself. -/
theorem lz4_codec_run :
    lz4BlockDecode (lz4Compress (List.replicate 40 7) 512) 64 = .ok (List.replicate 40 7) ∧
      (lz4Compress (List.replicate 40 7) 512).length = 11 :=
  ⟨((lz4_codec [] 64).2 _ 512 (by decide)).1, by decide +kernel⟩

end Lz4
