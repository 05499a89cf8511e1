import MiniWin.Lib.Backref
import Mathlib.Data.Nat.Bitwise

/-!
# LZ4 blocks

`lz4_block_decode` of `kernel/lz.h`. The source is read and the output written by position, and an
access outside of them has a result of its own. The block format is that of the sequences it stands
for, and decoding it gives what they stand for.
-/

namespace Lz4

open Backref

/-! ## The decoder -/

/-- Why there is no output: the block is bad and the decoder returns 0, an access is outside of the
buffers, or there were not enough rounds. -/
inductive Stop
  | bad
  | outside
  | rounds
deriving DecidableEq

/-- `src[s]`. -/
def readAt (src : List UInt8) (s : ℕ) : Except Stop UInt8 :=
  match src[s]? with
  | some b => .ok b
  | none => .error .outside

/-- `*d++ = b`, with `dstcap` bytes of room. -/
def put (dstcap : ℕ) (out : List UInt8) (b : UInt8) : Except Stop (List UInt8) :=
  if out.length < dstcap then .ok (out ++ [b]) else .error .outside

/-- The bytes that extend a length, with the length so far. -/
def lenRun (src : List UInt8) (s x : ℕ) : Except Stop (ℕ × ℕ) :=
  if s ≥ src.length then .error .bad
  else do
    let b ← readAt src s
    let x := (x + b.toNat) % 2 ^ 32
    if b = 255 then lenRun src (s + 1) x else pure (s + 1, x)
termination_by src.length - s

/-- `while (lit--) *d++ = *s++`. -/
def literals (src : List UInt8) (dstcap : ℕ) : ℕ → ℕ → List UInt8 → Except Stop (ℕ × List UInt8)
  | 0, s, out => .ok (s, out)
  | n + 1, s, out => do
    let b ← readAt src s
    let out ← put dstcap out b
    literals src dstcap n (s + 1) out

/-- `while (len--) *d++ = *m++`. -/
def copyMatch (dstcap : ℕ) : ℕ → ℕ → List UInt8 → Except Stop (List UInt8)
  | 0, _, out => .ok out
  | n + 1, m, out => do
    let b ← readAt out m
    let out ← put dstcap out b
    copyMatch dstcap n (m + 1) out

/-- A length, of which the token has `x`. -/
def tokenLen (src : List UInt8) (s x base : ℕ) : Except Stop (ℕ × ℕ) :=
  if x = 15 then lenRun src s (x + base) else .ok (s, x + base)

/-- The literals of a sequence. -/
def decodeLits (src : List UInt8) (dstcap s token : ℕ) (out : List UInt8) :
    Except Stop (ℕ × List UInt8) := do
  let (s, lit) ← tokenLen src s (token / 16) 0
  if lit > src.length - s ∨ lit > dstcap - out.length then .error .bad
  else literals src dstcap lit s out

/-- The match of a sequence. -/
def decodeMatch (src : List UInt8) (dstcap s token : ℕ) (out : List UInt8) :
    Except Stop (ℕ × List UInt8) := do
  if src.length - s < 2 then .error .bad
  else
    let b0 ← readAt src s
    let b1 ← readAt src (s + 1)
    let off := b0.toNat ||| b1.toNat <<< 8
    if off = 0 ∨ off > out.length then .error .bad
    else
      let (s, len) ← tokenLen src (s + 2) (token % 16) 4
      if len > dstcap - out.length then .error .bad
      else
        let out ← copyMatch dstcap len (out.length - off) out
        pure (s, out)

/-- The loop over the sequences. -/
def decodeFrom (src : List UInt8) (dstcap : ℕ) : ℕ → ℕ → List UInt8 → Except Stop (List UInt8)
  | 0, _, _ => .error .rounds
  | n + 1, s, out => do
    if s < src.length then
      let token ← readAt src s
      let (s, out) ← decodeLits src dstcap (s + 1) token.toNat out
      if s = src.length then pure out
      else
        let (s, out) ← decodeMatch src dstcap s token.toNat out
        decodeFrom src dstcap n s out
    else pure out

/-- **`lz4_block_decode`**, with what it has written. -/
def lz4BlockDecode (src : List UInt8) (dstcap : UInt32) : Except Stop (List UInt8) :=
  decodeFrom src dstcap.toNat (src.length + 1) 0 []

/-- What it returns, if it ends and stays inside the buffers. -/
def lz4Returned (src : List UInt8) (dstcap : UInt32) : Option ℕ :=
  match lz4BlockDecode src dstcap with
  | .ok out => some out.length
  | .error .bad => some 0
  | .error _ => none

/-! ## It stays inside the buffers, and ends -/

variable {α β : Type} {src out : List UInt8} {cap s n : ℕ}

/-- A part of the decoder that finds the block bad, or has a result of this kind. -/
def Safe (p : Except Stop α) (Q : α → Prop) : Prop := p = .error .bad ∨ ∃ a, p = .ok a ∧ Q a

theorem Safe.ok {Q : α → Prop} {a : α} (h : Q a) : Safe (.ok a) Q := .inr ⟨a, rfl, h⟩

theorem Safe.bad {Q : α → Prop} : Safe (.error .bad : Except Stop α) Q := .inl rfl

theorem Safe.bind {p : Except Stop α} {f : α → Except Stop β} {Q : α → Prop} {R : β → Prop}
    (h : Safe p Q) (hf : ∀ a, Q a → Safe (f a) R) : Safe (p >>= f) R := by
  rcases h with rfl | ⟨a, rfl, ha⟩
  · exact .inl rfl
  · exact hf a ha

theorem Safe.mono {p : Except Stop α} {Q R : α → Prop} (h : Safe p Q) (hqr : ∀ a, Q a → R a) :
    Safe p R := h.imp id fun ⟨a, hp, ha⟩ => ⟨a, hp, hqr a ha⟩

theorem ok_bind (a : α) (f : α → Except Stop β) : ((.ok a : Except Stop α) >>= f) = f a := rfl

theorem readAt_eq (h : s < src.length) : readAt src s = .ok src[s] := by
  unfold readAt
  rw [List.getElem?_eq_getElem h]

theorem put_eq (h : out.length < cap) (b : UInt8) : put cap out b = .ok (out ++ [b]) := if_pos h

/-- **The extension of a length** ends behind where it starts. -/
theorem lenRun_safe (src : List UInt8) (s x : ℕ) :
    Safe (lenRun src s x) fun r => s < r.1 ∧ r.1 ≤ src.length := by
  fun_induction lenRun src s x with
  | case1 s x hend => exact .bad
  | case2 s x hin ih =>
    rw [not_le] at hin
    rw [readAt_eq hin]
    show Safe (if src[s] = 255 then _ else _) _
    split
    · exact (ih ..).mono fun r h => ⟨by omega, h.2⟩
    · exact .ok ⟨Nat.lt_succ_self s, hin⟩

theorem tokenLen_safe (hs : s ≤ src.length) (x base : ℕ) :
    Safe (tokenLen src s x base) fun r => s ≤ r.1 ∧ r.1 ≤ src.length := by
  unfold tokenLen
  split
  · exact (lenRun_safe src s _).mono fun r h => ⟨h.1.le, h.2⟩
  · exact .ok ⟨le_rfl, hs⟩

/-- **Literals** for which there is room on both sides are copied. -/
theorem literals_eq (hsrc : n ≤ src.length - s) (hout : n ≤ cap - out.length) :
    literals src cap n s out = .ok (s + n, out ++ (src.drop s).take n) := by
  induction n generalizing s out with
  | zero => rw [literals, List.take_zero, List.append_nil, Nat.add_zero]
  | succ n ih =>
    have hlt : s < src.length := by omega
    unfold literals
    rw [readAt_eq hlt]
    show (put cap out src[s] >>= fun out => literals src cap n (s + 1) out) = _
    rw [put_eq (by omega)]
    show literals src cap n (s + 1) (out ++ [src[s]]) = _
    rw [ih (by omega) (by rw [List.length_append, List.length_singleton]; omega),
      List.drop_eq_getElem_cons hlt, List.take_succ_cons, List.append_assoc,
      List.singleton_append, Nat.add_assoc, Nat.add_comm 1 n]

/-- **A match** for which there is room is what is copied of the text so far. -/
theorem copyMatch_eq {m : ℕ} (hm : m < out.length) (hout : n ≤ cap - out.length) :
    ∃ out', copyMatch cap n m out = .ok out' ∧ copyFrom n m out = some out' := by
  induction n generalizing m out with
  | zero => exact ⟨out, rfl, rfl⟩
  | succ n ih =>
    unfold copyMatch copyFrom
    rw [readAt_eq hm, List.getElem?_eq_getElem hm]
    show ∃ out', (put cap out out[m] >>= fun out => copyMatch cap n (m + 1) out) = _ ∧
      copyFrom n (m + 1) (out ++ [out[m]]) = _
    rw [put_eq (by omega)]
    have hlen : (out ++ [out[m]]).length = out.length + 1 := by
      rw [List.length_append, List.length_singleton]
    exact ih (by omega) (by omega)

theorem decodeLits_safe (hs : s ≤ src.length) (hout : out.length ≤ cap) (token : ℕ) :
    Safe (decodeLits src cap s token out) fun r =>
      s ≤ r.1 ∧ r.1 ≤ src.length ∧ r.2.length ≤ cap := by
  refine (tokenLen_safe hs ..).bind fun ⟨t, lit⟩ ht => ?_
  show Safe (if lit > src.length - t ∨ lit > cap - out.length then _ else _) _
  split
  · exact .bad
  · next hroom =>
    rw [literals_eq (by omega) (by omega)]
    refine .ok ⟨?_, ?_, ?_⟩
    · have := ht.1
      show s ≤ t + lit
      omega
    · show t + lit ≤ src.length
      omega
    · rw [List.length_append, List.length_take, List.length_drop]
      omega

theorem decodeMatch_safe (hs : s ≤ src.length) (hout : out.length ≤ cap) (token : ℕ) :
    Safe (decodeMatch src cap s token out) fun r =>
      s < r.1 ∧ r.1 ≤ src.length ∧ r.2.length ≤ cap := by
  unfold decodeMatch
  split
  · exact .bad
  · next hoff =>
    rw [readAt_eq (by omega : s < src.length), readAt_eq (by omega : s + 1 < src.length)]
    show Safe (if _ = 0 ∨ _ > out.length then _ else _) _
    split
    · exact .bad
    · next hback =>
      refine (tokenLen_safe (by omega : s + 2 ≤ src.length) ..).bind fun ⟨t, len⟩ ht => ?_
      show Safe (if len > cap - out.length then _ else _) _
      split
      · exact .bad
      · next hroom =>
        obtain ⟨out', hcopy, hfrom⟩ := @copyMatch_eq out cap len
          (out.length - (src[s].toNat ||| src[s + 1].toNat <<< 8)) (by omega) (by omega)
        rw [hcopy]
        have hlen := copyFrom_length hfrom
        refine .ok ⟨?_, ht.2, ?_⟩
        · have := ht.1
          show s < t
          omega
        · show out'.length ≤ cap
          omega

theorem decodeFrom_safe (hs : s ≤ src.length) (hout : out.length ≤ cap)
    (hn : src.length < n + s) : Safe (decodeFrom src cap n s out) fun o => o.length ≤ cap := by
  induction n generalizing s out with
  | zero => omega
  | succ n ih =>
    unfold decodeFrom
    split
    · next hlt =>
      rw [readAt_eq hlt]
      refine (decodeLits_safe (Nat.succ_le_of_lt hlt) hout src[s].toNat).bind fun ⟨t, o⟩ ht => ?_
      show Safe (if t = src.length then _ else _) _
      split
      · exact .ok ht.2.2
      · refine (decodeMatch_safe ht.2.1 ht.2.2 src[s].toNat).bind fun ⟨u, p⟩ hu => ?_
        refine ih hu.2.1 hu.2.2 ?_
        omega
    · exact .ok hout

/-- **The decoder ends and stays inside the buffers.** -/
theorem lz4BlockDecode_safe (src : List UInt8) (dstcap : UInt32) :
    Safe (lz4BlockDecode src dstcap) fun out => out.length ≤ dstcap.toNat :=
  decodeFrom_safe (Nat.zero_le _) (Nat.zero_le _) (Nat.lt_succ_self _)

/-! ## The format -/

/-- The bytes that extend a length by `r`. -/
def extra (r : ℕ) : List UInt8 :=
  if r ≥ 255 then 255 :: extra (r - 255) else [UInt8.ofNat r]
termination_by r
decreasing_by omega

/-- What of a length is behind the token. -/
def lenBytes (x : ℕ) : List UInt8 := if x ≥ 15 then extra (x - 15) else []

/-- A token, for literals and a match of these lengths. -/
def token (lit m : ℕ) : UInt8 := UInt8.ofNat (min lit 15 <<< 4 ||| min m 15)

/-- The bytes of a sequence. -/
def encodeSeq (q : Seq UInt8) : List UInt8 :=
  token q.lits.length (q.len - 4) :: (lenBytes q.lits.length ++ (q.lits ++
    (UInt8.ofNat q.off :: UInt8.ofNat (q.off / 256) :: lenBytes (q.len - 4))))

/-- The bytes of the literals at the end. -/
def encodeLast (last : List UInt8) : List UInt8 :=
  token last.length 0 :: (lenBytes last.length ++ last)

def encode (seqs : List (Seq UInt8)) (last : List UInt8) : List UInt8 :=
  seqs.flatMap encodeSeq ++ encodeLast last

theorem encode_cons (q : Seq UInt8) (seqs : List (Seq UInt8)) (last : List UInt8) :
    encode (q :: seqs) last = encodeSeq q ++ encode seqs last := by
  unfold encode
  rw [List.flatMap_cons, List.append_assoc]

/-- A sequence that the format has. -/
structure Fits (q : Seq UInt8) : Prop where
  off_pos : 0 < q.off
  off_le : q.off ≤ 65535
  len : 4 ≤ q.len

/-! ## Decoding it -/

variable {rest : List UInt8} {b : UInt8}

theorem drop_next {a : List UInt8} (h : src.drop s = a ++ rest) :
    src.drop (s + a.length) = rest := by
  rw [← List.drop_drop, h, List.drop_left]

theorem readAt_drop (h : src.drop s = b :: rest) : readAt src s = .ok b := by
  have hread : (src.drop s)[0]? = some b := h ▸ rfl
  rw [List.getElem?_drop, Nat.add_zero] at hread
  unfold readAt
  rw [hread]

theorem lt_of_drop (h : src.drop s = b :: rest) : s < src.length := by
  by_contra hge
  rw [List.drop_eq_nil_of_le (not_lt.mp hge)] at h
  exact nomatch h

theorem lenRun_more {x : ℕ} (h : src.drop s = b :: rest) (hb : b = 255)
    (hx : x + 255 < 2 ^ 32) : lenRun src s x = lenRun src (s + 1) (x + 255) := by
  have hval : b.toNat = 255 := congrArg UInt8.toNat hb
  rw [lenRun, if_neg (lt_of_drop h).not_ge, readAt_drop h, ok_bind]
  simp only [hval, Nat.mod_eq_of_lt hx]
  exact if_pos hb

theorem lenRun_end {x : ℕ} (h : src.drop s = b :: rest) (hb : b ≠ 255) :
    lenRun src s x = .ok (s + 1, (x + b.toNat) % 2 ^ 32) := by
  rw [lenRun, if_neg (lt_of_drop h).not_ge, readAt_drop h, ok_bind]
  exact if_neg hb

/-- **The extension of a length** is read back. -/
theorem lenRun_extra (r : ℕ) {x : ℕ} (h : src.drop s = extra r ++ rest) (hx : x + r < 2 ^ 32) :
    lenRun src s x = .ok (s + (extra r).length, x + r) := by
  induction r using Nat.strong_induction_on generalizing s x with
  | _ r ih =>
    unfold extra at h ⊢
    split at h
    · next hr =>
      have hnext : src.drop (s + 1) = extra (r - 255) ++ rest := drop_next (a := [255]) h
      have hsum : x + 255 + (r - 255) = x + r := by omega
      rw [lenRun_more h rfl (by omega), ih _ (by omega) hnext (by omega), if_pos hr,
        List.length_cons, hsum, Nat.add_assoc s, Nat.add_comm 1]
    · next hr =>
      have hsmall : (UInt8.ofNat r).toNat = r := UInt8.toNat_ofNat_of_lt' (by omega : r < 2 ^ 8)
      have hne : UInt8.ofNat r ≠ 255 := fun heq => hr (hsmall ▸ heq ▸ le_rfl)
      rw [lenRun_end h hne, hsmall, Nat.mod_eq_of_lt hx, if_neg hr]
      rfl

theorem tokenLen_eq {x base : ℕ} (h : src.drop s = lenBytes x ++ rest)
    (hx : x + base < 2 ^ 32) :
    tokenLen src s (min x 15) base = .ok (s + (lenBytes x).length, x + base) := by
  unfold lenBytes tokenLen at *
  by_cases hlong : x ≥ 15
  · rw [if_pos hlong] at h ⊢
    rw [if_pos (min_eq_right hlong), min_eq_right hlong, lenRun_extra (x - 15) h (by omega)]
    congr 2
    omega
  · rw [if_neg hlong]
    rw [min_eq_left (by omega), if_neg (by omega)]
    rfl

theorem token_toNat (lit m : ℕ) : (token lit m).toNat = min lit 15 * 16 + min m 15 := by
  have hshift : min lit 15 <<< 4 ||| min m 15 = min lit 15 * 16 + min m 15 := by
    rw [← Nat.shiftLeft_add_eq_or_of_lt (by omega : min m 15 < 2 ^ 4), Nat.shiftLeft_eq]
  unfold token
  rw [hshift]
  exact UInt8.toNat_ofNat_of_lt' (by omega : min lit 15 * 16 + min m 15 < 2 ^ 8)

/-- **The literals** of a sequence are read back. -/
theorem decodeLits_eq {lits : List UInt8} (m : ℕ)
    (h : src.drop s = lenBytes lits.length ++ (lits ++ rest))
    (hlen : lits.length < 2 ^ 32) (hroom : out.length + lits.length ≤ cap) :
    decodeLits src cap s (token lits.length m).toNat out =
      .ok (s + (lenBytes lits.length).length + lits.length, out ++ lits) := by
  have hnext := drop_next h
  have hin : lits.length ≤ src.length - (s + (lenBytes lits.length).length) := by
    have := congrArg List.length hnext
    rw [List.length_drop, List.length_append] at this
    omega
  unfold decodeLits
  rw [token_toNat, show (min lits.length 15 * 16 + min m 15) / 16 = min lits.length 15 by omega,
    tokenLen_eq h hlen]
  show (if lits.length + 0 > _ ∨ lits.length + 0 > _ then _ else _) = _
  rw [Nat.add_zero, if_neg (by omega), literals_eq hin (by omega), hnext, List.take_left]

/-- **The match** of a sequence is read back. -/
theorem decodeMatch_eq {q : Seq UInt8} (hq : Fits q) {out' : List UInt8} (lit : ℕ)
    (h : src.drop s =
      UInt8.ofNat q.off :: UInt8.ofNat (q.off / 256) :: (lenBytes (q.len - 4) ++ rest))
    (hlen : q.len < 2 ^ 32) (hback : q.off ≤ out.length)
    (hcopy : copyFrom q.len (out.length - q.off) out = some out') (hroom : out'.length ≤ cap) :
    decodeMatch src cap s (token lit (q.len - 4)).toNat out =
      .ok (s + 2 + (lenBytes (q.len - 4)).length, out') := by
  have hpos := hq.off_pos
  have hle := hq.off_le
  have hfour := hq.len
  have hsnd : src.drop (s + 1) = UInt8.ofNat (q.off / 256) :: (lenBytes (q.len - 4) ++ rest) :=
    drop_next (a := [_]) h
  have hnext : src.drop (s + 2) = lenBytes (q.len - 4) ++ rest := drop_next (a := [_, _]) h
  have hoff : (UInt8.ofNat q.off).toNat ||| (UInt8.ofNat (q.off / 256)).toNat <<< 8 = q.off := by
    rw [UInt8.toNat_ofNat', UInt8.toNat_ofNat', Nat.lor_comm,
      ← Nat.shiftLeft_add_eq_or_of_lt (Nat.mod_lt _ (by decide)), Nat.shiftLeft_eq]
    omega
  have hcopied := copyFrom_length hcopy
  have hlt := lt_of_drop hsnd
  unfold decodeMatch
  rw [if_neg (by omega), readAt_drop h, readAt_drop hsnd]
  show (if _ ||| _ = 0 ∨ _ ||| _ > out.length then _ else _) = _
  rw [hoff, if_neg (by omega), token_toNat,
    show (min lit 15 * 16 + min (q.len - 4) 15) % 16 = min (q.len - 4) 15 by omega,
    tokenLen_eq hnext (by omega)]
  show (if q.len - 4 + 4 > _ then _ else _) = _
  obtain ⟨made, hmade, hfrom⟩ := @copyMatch_eq out cap (q.len - 4 + 4) (out.length - q.off)
    (by omega) (by omega)
  rw [if_neg (by omega), hmade]
  rw [Nat.sub_add_cancel hfour, hcopy] at hfrom
  obtain rfl := Option.some.inj hfrom
  rfl

/-- **A sequence** is decoded to what it makes. -/
theorem decodeFrom_seq {q : Seq UInt8} (hq : Fits q) {out' : List UInt8}
    (h : src.drop s = encodeSeq q ++ rest) (happly : q.apply out = some out')
    (hback : q.off ≤ out.length + q.lits.length) (hroom : out'.length ≤ cap) (hcap : cap < 2 ^ 32)
    (n : ℕ) :
    decodeFrom src cap (n + 1) s out =
      decodeFrom src cap n (s + (encodeSeq q).length) out' := by
  have hlen := copyFrom_length happly
  rw [List.length_append] at hlen
  have htok : src.drop s = token q.lits.length (q.len - 4) :: (lenBytes q.lits.length ++
      (q.lits ++ (UInt8.ofNat q.off :: UInt8.ofNat (q.off / 256) ::
        (lenBytes (q.len - 4) ++ rest)))) := by
    rw [h]
    unfold encodeSeq
    rw [List.cons_append, List.append_assoc, List.append_assoc]
    rfl
  have hlits := drop_next (a := [_]) htok
  have hmatch := drop_next (drop_next hlits)
  have hlt := lt_of_drop hmatch
  rw [List.length_singleton] at hlits hmatch hlt
  rw [decodeFrom, if_pos (lt_of_drop htok), readAt_drop htok]
  show (decodeLits src cap (s + 1) (token q.lits.length (q.len - 4)).toNat out >>= _) = _
  rw [decodeLits_eq (q.len - 4) hlits (by omega) (by omega)]
  show (if s + 1 + (lenBytes q.lits.length).length + q.lits.length = src.length then _ else
    (decodeMatch src cap _ (token q.lits.length (q.len - 4)).toNat (out ++ q.lits) >>= _)) = _
  rw [if_neg hlt.ne, decodeMatch_eq hq q.lits.length hmatch (by omega)
    (by rw [List.length_append]; exact hback)
    (by rw [List.length_append]; exact happly) hroom]
  show decodeFrom src cap n _ out' = _
  congr 1
  unfold encodeSeq
  simp only [List.length_cons, List.length_append]
  omega

/-- **The literals at the end** are decoded to themselves. -/
theorem decodeFrom_last {last : List UInt8} (h : src.drop s = encodeLast last)
    (hroom : out.length + last.length ≤ cap) (hcap : cap < 2 ^ 32) (n : ℕ) :
    decodeFrom src cap (n + 1) s out = .ok (out ++ last) := by
  have htok : src.drop s = token last.length 0 :: (lenBytes last.length ++ (last ++ [])) := by
    rw [h, List.append_nil]
    rfl
  have hlits := drop_next (a := [_]) htok
  have hend : s + 1 + (lenBytes last.length).length + last.length = src.length := by
    have hlen := congrArg List.length htok
    have hlt := lt_of_drop htok
    simp only [List.length_drop, List.length_cons, List.length_append, List.length_nil] at hlen
    omega
  rw [List.length_singleton] at hlits
  rw [decodeFrom, if_pos (lt_of_drop htok), readAt_drop htok]
  show (decodeLits src cap (s + 1) (token last.length 0).toNat out >>= _) = _
  rw [decodeLits_eq 0 hlits (by omega) hroom]
  exact if_pos hend

/-- A row of sequences that a text has from `i` on, as the format has them. -/
inductive Runs (data : List UInt8) : ℕ → List (Seq UInt8) → List UInt8 → Prop
  | last {i : ℕ} {lits : List UInt8} (h : data.take i ++ lits = data) : Runs data i [] lits
  | seq {i : ℕ} {q : Seq UInt8} {seqs : List (Seq UInt8)} {lits : List UInt8} (hq : Fits q)
      (hat : q.At data i) (h : Runs data (i + q.lits.length + q.len) seqs lits) :
      Runs data i (q :: seqs) lits

/-- **The sequences of a text** are decoded to it. -/
theorem Runs.decodeFrom_eq {data : List UInt8} {i : ℕ} {seqs : List (Seq UInt8)}
    {last : List UInt8} (h : Runs data i seqs last) (hs : src.drop s = encode seqs last)
    (hi : i ≤ data.length) (hroom : data.length ≤ cap) (hcap : cap < 2 ^ 32)
    (hn : seqs.length < n) :
    decodeFrom src cap n s (data.take i) = .ok data := by
  induction h generalizing s n with
  | @last i lits hlast =>
    obtain ⟨n, rfl⟩ : ∃ m, n = m + 1 := ⟨n - 1, by omega⟩
    have hlen := congrArg List.length hlast
    rw [List.length_append] at hlen
    rw [decodeFrom_last hs (by omega) hcap, hlast]
  | @seq i q seqs lits hq hat _ ih =>
    obtain ⟨n, rfl⟩ : ∃ m, n = m + 1 := ⟨n - 1, by omega⟩
    have hin := hat.inside
    have hnext : src.drop s = encodeSeq q ++ encode seqs lits := hs.trans (encode_cons ..)
    have hlen : (data.take (i + q.lits.length + q.len)).length ≤ cap := by
      rw [List.length_take]
      omega
    have hback : q.off ≤ (data.take i).length + q.lits.length := by
      rw [List.length_take_of_le hi]
      exact hat.off_le
    rw [decodeFrom_seq hq hnext hat.apply_eq hback hlen hcap]
    rw [List.length_cons] at hn
    exact ih (drop_next hnext) hin (by omega)

theorem length_encode (seqs : List (Seq UInt8)) (last : List UInt8) :
    seqs.length < (encode seqs last).length := by
  induction seqs with
  | nil => exact Nat.succ_pos _
  | cons q seqs ih =>
    rw [encode_cons, List.length_append, List.length_cons]
    have hone : 1 ≤ (encodeSeq q).length := Nat.succ_pos _
    omega

/-- **A block of sequences of a text** is decoded to it. -/
theorem Runs.decode_eq {data : List UInt8} {seqs : List (Seq UInt8)} {last : List UInt8}
    (h : Runs data 0 seqs last) {dstcap : UInt32} (hroom : data.length ≤ dstcap.toNat) :
    lz4BlockDecode (encode seqs last) dstcap = .ok data :=
  h.decodeFrom_eq rfl (Nat.zero_le _) hroom dstcap.toNat_lt
    (Nat.lt_succ_of_lt (length_encode seqs last))

end Lz4
