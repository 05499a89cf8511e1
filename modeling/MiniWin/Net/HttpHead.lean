import MiniWin.Net.HttpCuts
import Mathlib.Data.List.TakeWhile

/-!
# HTTP responses: what the headers say

The header lines of a block are the lines behind the status line. What `hr_parse_headers` leaves of
them is said by the lines alone: the length is that of the last `Content-Length`, and the body is
chunked if `chunked` is the last coding in a `Transfer-Encoding`.
-/

namespace Hr

open Net

/-! ## Lines and codings -/

/-- The lines behind the status line. -/
def headerLines (head : List UInt8) : List (List UInt8) :=
  lines ((head.dropWhile fun c => c ≠ '\n'.toUInt8).drop 1)

/-- The codings in a value, in lower case. -/
def codings (v : List UInt8) : List (List UInt8) :=
  (((members v).map token).filter (· ≠ [])).map fun t => t.map lower

/-- The number of the status line, in the 32 bits of an `int`. -/
def statusCode (head : List UInt8) : Int32 :=
  ((((head.dropWhile fun c => c ≠ ' '.toUInt8 ∧ c ≠ '\n'.toUInt8).dropWhile
    fun c => c = ' '.toUInt8)).takeWhile isDigit).foldl
      (fun n c => n * 10 + (c - 48).toUInt32.toInt32) 0

/-- The line is a `Transfer-Encoding` whose last coding is `chunked`. -/
def SaysChunked (line : List UInt8) : Prop :=
  ∃ v, headerValue line (bytes "transfer-encoding") = some v
    ∧ (codings v).getLast? = some (bytes "chunked")

/-- The number of a string of digits. -/
def decimalValue (ds : List UInt8) : Nat := ds.foldl (fun n c => n * 10 + (c.toNat - 48)) 0

/-- The line is a `Content-Length` of `n`: digits, and behind them none. -/
def SaysLength (n : Nat) (line : List UInt8) : Prop :=
  ∃ v, headerValue line (bytes "content-length") = some v
    ∧ v.takeWhile isDigit ≠ [] ∧ decimalValue (v.takeWhile isDigit) = n

variable {line n n' v v' : List UInt8} {s : Resp}

/-- A line is the header of one name. -/
theorem headerValue_unique (h : headerValue line n = some v) (h' : headerValue line n' = some v')
    (hn : ':'.toUInt8 ∉ n) (hn' : ':'.toUInt8 ∉ n') : n = n' := by
  induction line generalizing n n' with
  | nil => exact nomatch h
  | cons c line ih =>
    have hcolon : lower ':'.toUInt8 = ':'.toUInt8 := by decide
    cases n with
    | nil =>
      cases n' with
      | nil => rfl
      | cons x n' =>
        unfold headerValue at h h'
        split at h
        · next hc =>
          split at h'
          · next hx =>
            rw [hc, hcolon] at hx
            exact absurd (hx ▸ List.mem_cons_self) hn'
          · exact nomatch h'
        · exact nomatch h
    | cons x n =>
      unfold headerValue at h
      split at h
      · next hx =>
        cases n' with
        | nil =>
          unfold headerValue at h'
          split at h'
          · next hc =>
            rw [hc, hcolon] at hx
            exact absurd (hx ▸ List.mem_cons_self) hn
          · exact nomatch h'
        | cons x' n' =>
          unfold headerValue at h'
          split at h'
          · next hx' =>
            rw [← hx, ← hx', ih h h' (fun hm => hn (List.mem_cons_of_mem _ hm))
              fun hm => hn' (List.mem_cons_of_mem _ hm)]
          · exact nomatch h'
      · exact nomatch h

/-- **The mask of `hr_value_tokens`** says whether the word is among the codings, and whether it
is the last one. -/
theorem valueTokens_spec (v word : List UInt8) (word2 : Option (List UInt8)) :
    (valueTokens v word word2).has = decide (word ∈ codings v)
      ∧ (valueTokens v word word2).last = decide ((codings v).getLast? = some word) := by
  unfold valueTokens codings
  generalize ((members v).map token).filter (· ≠ []) = ts
  induction ts using List.reverseRecOn with
  | nil => exact ⟨rfl, rfl⟩
  | append_singleton ts t ih =>
    rw [List.foldl_append, List.map_append, List.map_singleton, List.getLast?_concat]
    generalize ts.foldl _ ({} : Tokens) = f at ih ⊢
    obtain ⟨hhas, -⟩ := ih
    rw [List.foldl_cons, List.foldl_nil]
    unfold tokEq
    by_cases ht : t.map lower = word
    · rw [if_pos (by simpa using ht)]
      simp [ht]
    · rw [if_neg (by simpa using ht)]
      simp [ht, Ne.symm ht, hhas]

/-! ## One line -/

theorem chunked_ne_length : bytes "transfer-encoding" ≠ bytes "content-length" := by decide

/-- **A line makes the body chunked** if it says so. -/
theorem headerLine_chunked (s : Resp) (line : List UInt8) :
    (headerLine s line).chunked = true ↔ s.chunked = true ∨ SaysChunked line := by
  unfold headerLine
  split
  · next v hv =>
    refine (or_iff_left ?_).symm
    rintro ⟨v', hv', -⟩
    exact chunked_ne_length (headerValue_unique hv' hv (by decide) (by decide))
  split
  · next v hv =>
    obtain ⟨hhas, hlast⟩ := valueTokens_spec v (bytes "chunked") (some (bytes "identity"))
    dsimp only
    rw [hhas, hlast, Bool.or_eq_true, Bool.and_eq_true, decide_eq_true_eq, decide_eq_true_eq]
    refine or_congr_right ⟨fun h => ⟨v, hv, h.2⟩, ?_⟩
    rintro ⟨v', hv', h⟩
    obtain rfl := Option.some.inj (hv.symm.trans hv')
    exact ⟨List.mem_of_getLast? h, h⟩
  next hnone =>
  have hno : ¬ SaysChunked line := by
    rintro ⟨v, hv, -⟩
    rw [hnone] at hv
    exact nomatch hv
  rw [or_iff_left hno]
  split
  · rfl
  split
  · rfl
  split <;> rfl

theorem decimal_toNat (ds : List UInt8) (hds : ∀ c ∈ ds, isDigit c = true) (n : UInt32) (k : Nat)
    (hn : n.toNat = k % 2 ^ 32) :
    (ds.foldl (fun n c => n * 10 + (c - 48).toUInt32) n).toNat
      = ds.foldl (fun n c => n * 10 + (c.toNat - 48)) k % 2 ^ 32 := by
  induction ds generalizing n k with
  | nil => exact hn
  | cons c ds ih =>
    refine ih (fun d hd => hds d (List.mem_cons_of_mem _ hd)) _ _ ?_
    have hc : 48 ≤ c.toNat := by
      have := hds c List.mem_cons_self
      unfold isDigit at this
      exact (of_decide_eq_true this).1
    have hsub : (c - 48).toUInt32.toNat = c.toNat - 48 := by
      rw [UInt8.toNat_toUInt32, UInt8.toNat_sub_of_le _ _ hc]
      rfl
    rw [UInt32.toNat_add, UInt32.toNat_mul, hsub, hn]
    show (k % 2 ^ 32 * 10 % 2 ^ 32 + (c.toNat - 48)) % 2 ^ 32 = (k * 10 + (c.toNat - 48)) % 2 ^ 32
    omega

/-- **A line sets the length** if it is one, to the number it says in 32 bits. -/
theorem headerLine_length (s : Resp) (line : List UInt8) :
    (headerValue line (bytes "content-length") = none ∧ (headerLine s line).have_clen = s.have_clen
      ∧ (headerLine s line).clen = s.clen)
    ∨ ∃ v, headerValue line (bytes "content-length") = some v
      ∧ (headerLine s line).have_clen = true
      ∧ (headerLine s line).clen.toNat = decimalValue (v.takeWhile isDigit) % 2 ^ 32 := by
  unfold headerLine
  split
  · next v hv =>
    refine .inr ⟨v, hv, rfl, decimal_toNat _ (fun c hc => ?_) 0 0 rfl⟩
    exact List.mem_takeWhile_imp hc
  next hnone =>
  refine .inl ⟨hnone, ?_⟩
  split
  · exact ⟨rfl, rfl⟩
  split
  · exact ⟨rfl, rfl⟩
  split
  · exact ⟨rfl, rfl⟩
  split <;> exact ⟨rfl, rfl⟩

/-! ## The header block -/

theorem dropWhile_dropWhile {p q : UInt8 → Bool} (h : ∀ c, p c = true → q c = true)
    (l : List UInt8) : (l.dropWhile p).dropWhile q = l.dropWhile q := by
  induction l with
  | nil => rfl
  | cons c l ih =>
    by_cases hp : p c = true
    · rw [List.dropWhile_cons_of_pos hp, List.dropWhile_cons_of_pos (h c hp), ih]
    · rw [List.dropWhile_cons_of_neg hp]

/-- **The headers are read line by line.** -/
theorem parseHeaders_eq (head : List UInt8) (s : Resp) : parseHeaders head s
    = (headerLines head).foldl headerLine { s with status := statusCode head } := by
  have hrest : (((head.dropWhile fun c => c ≠ ' '.toUInt8 ∧ c ≠ '\n'.toUInt8).dropWhile
      fun c => c = ' '.toUInt8).dropWhile fun c => c ≠ '\n'.toUInt8)
      = head.dropWhile fun c => c ≠ '\n'.toUInt8 := by
    rw [dropWhile_dropWhile fun c hc => ?_, dropWhile_dropWhile fun c hc => ?_]
    · rw [decide_eq_true_eq] at hc ⊢
      exact hc.2
    · rw [decide_eq_true_eq] at hc ⊢
      rw [hc]
      decide
  unfold parseHeaders headerLines statusCode
  dsimp only
  rw [hrest]

theorem status_foldl (ls : List (List UInt8)) (s : Resp) :
    (ls.foldl headerLine s).status = s.status := by
  have hline : ∀ (s : Resp) line, (headerLine s line).status = s.status := by
    intro s line
    unfold headerLine
    repeat' split
    all_goals rfl
  induction ls generalizing s with
  | nil => rfl
  | cons l ls ih => rw [List.foldl_cons, ih, hline]

theorem chunked_foldl (ls : List (List UInt8)) (s : Resp) :
    (ls.foldl headerLine s).chunked = true ↔ s.chunked = true ∨ ∃ l ∈ ls, SaysChunked l := by
  induction ls generalizing s with
  | nil => simp
  | cons l ls ih => rw [List.foldl_cons, ih, headerLine_chunked, or_assoc, List.exists_mem_cons_iff]

/-- Where all lengths are the same, that is the length. -/
theorem length_foldl {ls : List (List UInt8)} {N : Nat}
    (hall : ∀ l ∈ ls, ∀ v, headerValue l (bytes "content-length") = some v →
      decimalValue (v.takeWhile isDigit) = N) :
    ∀ s : Resp, (s.have_clen = true → s.clen.toNat = N % 2 ^ 32) →
      ((ls.foldl headerLine s).have_clen = true → (ls.foldl headerLine s).clen.toNat = N % 2 ^ 32)
      ∧ (s.have_clen = true ∨ (∃ l ∈ ls, ∃ v, headerValue l (bytes "content-length") = some v) →
        (ls.foldl headerLine s).have_clen = true) := by
  induction ls with
  | nil => exact fun s hs => ⟨hs, fun h => h.elim id fun ⟨_, hl, _⟩ => absurd hl List.not_mem_nil⟩
  | cons l ls ih =>
    intro s hs
    have ih := ih fun l' hl' => hall l' (List.mem_cons_of_mem _ hl')
    rw [List.foldl_cons]
    rcases headerLine_length s l with ⟨hnone, hhave, hclen⟩ | ⟨v, hv, hhave, hclen⟩
    · obtain ⟨hval, hsome⟩ := ih (headerLine s l) (by rw [hhave, hclen]; exact hs)
      refine ⟨hval, fun h => hsome ?_⟩
      rw [hhave]
      refine h.imp_right ?_
      rintro ⟨l', hl', v', hv'⟩
      rcases List.mem_cons.mp hl' with rfl | hl'
      · rw [hnone] at hv'
        exact nomatch hv'
      · exact ⟨l', hl', v', hv'⟩
    · obtain ⟨hval, hsome⟩ := ih (headerLine s l) fun _ => by
        rw [hclen, hall l List.mem_cons_self v hv]
      exact ⟨hval, fun _ => hsome (.inl hhave)⟩

/-- **A header block**: it ends with the first blank line in it. -/
def IsHead (head : List UInt8) : Prop := headEnd head = some (head.length - 4)

variable {head Y : List UInt8} {m : Block}

/-- What comes in behind the headers does not change them. -/
theorem IsHead.append (h : IsHead head) (Y : List UInt8) :
    headEnd (head ++ Y) = some (head.length - 4) ∧ 4 ≤ head.length :=
  ⟨headEnd_append h, by have := headEnd_lt h; omega⟩

/-- Nothing is known as long as the headers are not all there. -/
theorem IsHead.before (h : IsHead head) {X : List UInt8} (hX : X <+: head)
    (hlt : X.length < head.length) : headEnd X = none := by
  cases hend : headEnd X with
  | none => rfl
  | some i =>
    obtain ⟨Y, rfl⟩ := hX
    have hlt' := headEnd_lt hend
    have heq := Option.some.inj ((headEnd_append (d := Y) hend).symm.trans h)
    omega

/-- **What is known when they are all there.** -/
theorem IsHead.seen (h : IsHead head) (m : Block) (Y : List UInt8) :
    ∃ s, s = { reset m with
        buf := mem m (head ++ Y), len := (head ++ Y).length, hdr_done := true
        body_start := head.length, status := statusCode head }
      ∧ seen m (head ++ Y) = (let t := (headerLines head).foldl headerLine s
        if t.have_clen ∧ ¬ t.chunked ∧ t.clen.toNat > bufSize - head.length then
          { t with chunk_pos := head.length, too_big := true }
        else { t with chunk_pos := head.length }) := by
  obtain ⟨hend, hfour⟩ := h.append Y
  refine ⟨_, rfl, ?_⟩
  unfold Hr.seen headersEnd
  rw [hend]
  dsimp only
  have hslice : (mem m (head ++ Y)).slice 0 (head.length - 4 + 4) = head := by
    rw [show head.length - 4 + 4 = head.length by omega]
    refine List.ext_getElem (Block.length_slice _ _ _) fun k hk hk' => ?_
    rw [Block.getElem_slice, Nat.zero_add, mem_apply (by rw [List.length_append]; omega),
      List.getElem_append_left hk']
  rw [hslice, parseHeaders_eq, show head.length - 4 + 4 = head.length by omega]

end Hr
