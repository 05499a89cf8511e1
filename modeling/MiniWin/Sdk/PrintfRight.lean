import MiniWin.Sdk.Printf

/-!
# Formatted text is what its format means

The loop over a format puts out what its parts expand to, byte by byte. As long as the whole is less
than `2 ^ 31` bytes, the cursor is its length, and the buffer has what fits of it.
-/

namespace Sdk

open Narrow Numeral

/-! ## Putting out -/

variable {cap : UInt32} {o : Out} {xs ys : List UInt8}

theorem puts_append (cap : UInt32) (o : Out) (xs ys : List UInt8) :
    o.puts cap (xs ++ ys) = (o.puts cap xs).puts cap ys := List.foldl_append ..

theorem put_n (h : o.n.toNat + 1 < 2 ^ 32) (b : UInt8) :
    (o.put cap b).n.toNat = o.n.toNat + 1 := by
  show (o.n + 1).toNat = _
  rw [UInt32.toNat_add]
  exact Nat.mod_eq_of_lt h

theorem put_buf (h : o.n.toNat + 1 < 2 ^ 32) (b : UInt8) (i : ℕ) :
    (o.put cap b).buf i =
      if i = o.n.toNat ∧ o.n.toNat + 1 < cap.toNat then b else o.buf i := by
  have hlt : o.n + 1 < cap ↔ o.n.toNat + 1 < cap.toNat := by
    rw [UInt32.lt_iff_toNat_lt, UInt32.toNat_add]
    exact Iff.of_eq (congrArg (· < cap.toNat) (Nat.mod_eq_of_lt h))
  show (if o.n + 1 < cap then Function.update o.buf o.n.toNat b else o.buf) i = _
  by_cases hcap : o.n + 1 < cap
  · rw [if_pos hcap, Function.update_apply]
    exact if_congr (and_iff_left (hlt.mp hcap)).symm rfl rfl
  · rw [if_neg hcap, if_neg fun hi => hcap (hlt.mpr hi.2)]

/-- **What is put out** moves the cursor, and is in the buffer as far as that goes. -/
theorem puts_spec (xs : List UInt8) (h : o.n.toNat + xs.length < 2 ^ 32) :
    (o.puts cap xs).n.toNat = o.n.toNat + xs.length ∧
      ∀ i, (o.puts cap xs).buf i =
        if o.n.toNat ≤ i ∧ i < o.n.toNat + xs.length ∧ i + 1 < cap.toNat then
          xs.getD (i - o.n.toNat) 0
        else o.buf i := by
  induction xs generalizing o with
  | nil =>
    refine ⟨rfl, fun i => ?_⟩
    rw [if_neg fun hi => by rw [List.length_nil] at hi; omega]
    rfl
  | cons b xs ih =>
    rw [List.length_cons] at h
    have hn := @put_n cap o (by omega) b
    obtain ⟨hlen, hbuf⟩ := @ih (o.put cap b) (by omega)
    refine ⟨?_, fun i => ?_⟩
    · show ((o.put cap b).puts cap xs).n.toNat = _
      rw [hlen, hn, List.length_cons]
      omega
    · show ((o.put cap b).puts cap xs).buf i = _
      rw [hbuf, hn, put_buf (by omega), List.length_cons]
      rcases Nat.lt_trichotomy i o.n.toNat with hi | hi | hi
      · rw [if_neg (by omega), if_neg (by omega), if_neg (by omega)]
      · subst hi
        rw [if_neg (by omega), Nat.sub_self]
        exact if_congr (by omega) rfl rfl
      · obtain ⟨k, hk⟩ : ∃ k, i - o.n.toNat = k + 1 := ⟨i - o.n.toNat - 1, by omega⟩
        have hk' : i - (o.n.toNat + 1) = k := by omega
        rw [hk, hk', List.getD_cons_succ,
          if_neg (by omega : ¬ (i = o.n.toNat ∧ o.n.toNat + 1 < cap.toNat))]
        exact if_congr (by omega) rfl rfl

/-! ## Numerals -/

/-- **The digits** that are taken off a number are its numeral, from behind. -/
theorem tmpDigits_eq {b : ℕ} (hb : 1 < b) (digit : ℕ → UInt8) (n : ℕ) :
    (tmpDigits hb digit n).reverse = numeral b digit n := by
  have hlow : tmpDigits hb digit n = (low b n).map digit := by
    fun_induction tmpDigits hb digit n with
    | case1 n ih =>
      rw [low_step hb, List.map_cons]
      by_cases hdiv : n / b = 0
      · rw [dif_pos hdiv, if_pos hdiv]
        rfl
      · rw [dif_neg hdiv, if_neg hdiv, ih hdiv]
  unfold numeral
  rw [hlow, List.map_reverse]

theorem decDigit_toNat {d : ℕ} (h : d < 10) : (decDigit d).toNat = 48 + d :=
  UInt8.toNat_ofNat_of_lt' (by omega : 48 + d < 2 ^ 8)

theorem isdigit_decDigit {d : ℕ} (h : d < 10) : mwIsdigit (decDigit d) = true := by
  have hn := decDigit_toNat h
  unfold mwIsdigit
  rw [Bool.and_eq_true, decide_eq_true_iff, decide_eq_true_iff, UInt8.le_iff_toNat_le,
    UInt8.le_iff_toNat_le, hn]
  exact ⟨Nat.le_add_right .., show 48 + d ≤ 57 by omega⟩

/-- A number has a digit in front, and none but zero has a zero there. -/
theorem low_reverse_cons {n : ℕ} (hn : n ≠ 0) :
    ∃ d ds, (low 10 n).reverse = d :: ds ∧ d ≠ 0 ∧ d < 10 := by
  have hne := low_ne_nil 10 n
  have hlast := getLast_low (b := 10) hn hne
  obtain ⟨ds, hds⟩ : ∃ ds, low 10 n = ds ++ [(low 10 n).getLast hne] :=
    ⟨_, (List.dropLast_append_getLast hne).symm⟩
  refine ⟨_, ds.reverse, (congrArg List.reverse hds).trans ?_, hlast,
    low_lt (by decide) (List.getLast_mem hne)⟩
  rw [List.reverse_append, List.reverse_singleton, List.singleton_append]

/-! ## Directives -/

/-- A flag as it is written. -/
def flag (minus : Bool) : UInt8 := if minus then 45 else 48

/-- **The flags** are read up to what is none. -/
theorem flagsOf_eq (flags : List Bool) {rest : List UInt8} (left zero : Bool)
    (hrest : ∀ c ∈ rest.head?, c ≠ 45 ∧ c ≠ 48) :
    flagsOf (flags.map flag ++ rest) left zero =
      (left || decide (true ∈ flags), zero || decide (false ∈ flags), rest) := by
  induction flags generalizing left zero with
  | nil =>
    have hno : ∀ b : Bool, decide (b ∈ ([] : List Bool)) = false := fun b =>
      decide_eq_false List.not_mem_nil
    rw [List.map_nil, List.nil_append, hno, hno, Bool.or_false, Bool.or_false]
    cases rest with
    | nil => rfl
    | cons c rest =>
      obtain ⟨h45, h48⟩ := hrest c rfl
      rw [flagsOf, if_neg h45, if_neg h48]
  | cons minus flags ih =>
    rw [List.map_cons, List.cons_append, flagsOf]
    cases minus with
    | true =>
      rw [if_pos (show flag true = 45 from rfl), ih]
      simp
    | false =>
      rw [if_neg (show ¬ flag false = 45 by decide), if_pos (show flag false = 48 from rfl), ih]
      simp

/-- **The width** is read up to what is no digit. -/
theorem widthOf_eq (ds : List ℕ) {rest : List UInt8} {v : ℕ} (hds : ∀ d ∈ ds, d < 10)
    (hsmall : read 10 v ds < 2 ^ 31) (hrest : ∀ c ∈ rest.head?, mwIsdigit c = false) :
    widthOf (ds.map decDigit ++ rest) v = (((read 10 v ds : ℕ) : ℤ), rest) := by
  induction ds generalizing v with
  | nil =>
    cases rest with
    | nil => rfl
    | cons c rest =>
      show widthOf (c :: rest) v = _
      rw [widthOf, if_neg (by rw [hrest c rfl]; decide)]
      rfl
  | cons d ds ih =>
    have hd := hds d List.mem_cons_self
    have hnext : v * 10 + d ≤ read 10 (v * 10 + d) ds := le_read (by decide) _ _
    have hwhole : read 10 (v * 10 + d) ds < 2 ^ 31 := hsmall
    have hval : wrap 0x80000000 ((v : ℤ) * 10 + ((decDigit d).toNat - 48)) = (v * 10 + d : ℕ) := by
      rw [decDigit_toNat hd]
      push_cast
      rw [show (v : ℤ) * 10 + (48 + d - 48) = v * 10 + d by omega]
      exact wrap_eq_self ⟨by omega, by omega⟩
    rw [List.map_cons, List.cons_append, widthOf, if_pos (isdigit_decDigit hd), hval]
    exact ih (fun e he => hds e (List.mem_cons_of_mem _ he)) hwhole

/-- A width as it is written. -/
def widthText (width : ℕ) : List UInt8 := if width = 0 then [] else numeral 10 decDigit width

theorem directive_eq (flags : List Bool) {width : ℕ} (hwidth : width < 2 ^ 31) {c : UInt8}
    (hc : c ≠ 45 ∧ mwIsdigit c = false) (rest : List UInt8) :
    directive (flags.map flag ++ (widthText width ++ c :: rest)) =
      ⟨decide (true ∈ flags), decide (false ∈ flags), width, c :: rest⟩ := by
  have hc48 : c ≠ 48 := fun h48 => by
    rw [h48] at hc
    exact absurd hc.2 (by decide)
  have hhead : ∀ b ∈ (widthText width ++ c :: rest).head?, b ≠ 45 ∧ b ≠ 48 := by
    unfold widthText
    intro b hb
    by_cases hw : width = 0
    · rw [if_pos hw] at hb
      obtain rfl := Option.some.inj hb
      exact ⟨hc.1, hc48⟩
    · obtain ⟨d, ds, hds, hd0, hd10⟩ := low_reverse_cons hw
      unfold numeral at hb
      rw [if_neg hw, hds] at hb
      obtain rfl := Option.some.inj hb
      have hn := decDigit_toNat hd10
      refine ⟨fun h45 => ?_, fun h48 => ?_⟩
      · rw [h45] at hn
        exact absurd hn (by show ¬ 45 = 48 + d; omega)
      · rw [h48] at hn
        exact absurd hn (by show ¬ 48 = 48 + d; omega)
  have hwidthOf : widthOf (widthText width ++ c :: rest) 0 = ((width : ℤ), c :: rest) := by
    have hdigit : ∀ b ∈ (c :: rest).head?, mwIsdigit b = false := fun b hb => by
      obtain rfl := Option.some.inj hb
      exact hc.2
    unfold widthText
    by_cases hw : width = 0
    · rw [if_pos hw, hw]
      exact widthOf_eq [] (v := 0) (fun d hd => absurd hd List.not_mem_nil) (by decide) hdigit
    · have hread := read_low 10 width
      rw [if_neg hw]
      have h := widthOf_eq (low 10 width).reverse (v := 0)
        (fun d hd => low_lt (by decide) (List.mem_reverse.mp hd)) (hread.symm ▸ hwidth) hdigit
      rw [hread] at h
      exact h
  unfold directive
  rw [flagsOf_eq flags false false hhead]
  dsimp only
  rw [hwidthOf, Bool.false_or, Bool.false_or]

/-! ## Fields -/

theorem toNat_neg (w : UInt32) : (0 - w).toNat = (2 ^ 32 - w.toNat) % 2 ^ 32 := by
  rw [UInt32.toNat_sub]
  rfl

/-- The sign and the size of an `int`. -/
theorem int_cases (w : UInt32) :
    (decide (w.toNat ≥ 2 ^ 31) = decide (int w < 0)) ∧
      (if decide (w.toNat ≥ 2 ^ 31) = true then 0 - w else w).toNat = (int w).natAbs := by
  have hlt := w.toNat_lt
  unfold int
  by_cases hneg : w.toNat < 2 ^ 31
  · rw [if_pos hneg, if_neg (fun h => absurd (of_decide_eq_true h) hneg.not_ge)]
    exact ⟨decide_eq_decide.mpr (by omega), rfl⟩
  · rw [if_neg hneg, if_pos (decide_eq_true (not_lt.mp hneg)), toNat_neg]
    exact ⟨decide_eq_decide.mpr (by omega), by omega⟩

/-- What the conversion of a value hands to the padding. -/
theorem converted_eq (v : Value) : ∃ s tmp neg, converted v.letter v.arg = some (s, tmp, neg) ∧
    s.isSome = v.isStr ∧ (if neg then [45] else []) = v.sign ∧ fieldBody s tmp = v.body ∧
    (s.isSome → neg = false) := by
  cases v with
  | dec i w =>
    obtain ⟨hneg, habs⟩ := int_cases w
    have hconv : ∀ c : UInt8, c = 100 ∨ c = 105 → converted c (.word w) =
        some (none, tmpDigits (by decide : 1 < 10) decDigit (int w).natAbs,
          decide (int w < 0)) := fun c hc => by
      unfold converted
      dsimp only
      rw [if_pos hc]
      rw [habs, hneg]
    refine ⟨none, _, _, hconv (if i then 105 else 100) ?_, rfl, ?_, tmpDigits_eq ..,
      fun h => (nomatch h)⟩
    · cases i with
      | true => exact .inr rfl
      | false => exact .inl rfl
    · exact if_congr decide_eq_true_iff rfl rfl
  | udec w => exact ⟨none, _, false, rfl, rfl, rfl, tmpDigits_eq .., fun h => (nomatch h)⟩
  | hex upper w =>
    cases upper with
    | true => exact ⟨none, _, false, rfl, rfl, rfl, tmpDigits_eq .., fun h => (nomatch h)⟩
    | false => exact ⟨none, _, false, rfl, rfl, rfl, tmpDigits_eq .., fun h => (nomatch h)⟩
  | chr w => exact ⟨none, _, false, rfl, rfl, rfl, rfl, fun _ => rfl⟩
  | str s h => exact ⟨some _, [], false, rfl, rfl, rfl, rfl, fun _ => rfl⟩

/-- What a field comes to, for its parts. -/
def padded (flags : List Bool) (fill : ℕ) (isStr : Bool) (sign body : List UInt8) : List UInt8 :=
  if true ∈ flags then sign ++ body ++ List.replicate fill 32
  else if false ∈ flags ∧ ¬ isStr then sign ++ List.replicate fill 48 ++ body
  else List.replicate fill 32 ++ sign ++ body

/-- **A field** is put out with its padding. -/
theorem field_eq (cap : UInt32) (o : Out) (flags : List Bool) (width : ℕ) (rest : List UInt8)
    {s : Option (List UInt8)} {tmp : List UInt8} {neg : Bool} (hneg : s.isSome → neg = false)
    (hlen : (fieldBody s tmp).length < 2 ^ 31) :
    o.field cap ⟨decide (true ∈ flags), decide (false ∈ flags), width, rest⟩ s tmp neg =
      o.puts cap (padded flags
        (width - ((if neg then [45] else []) ++ fieldBody s tmp).length) s.isSome
        (if neg then [45] else []) (fieldBody s tmp)) := by
  obtain ⟨fill, hfill⟩ : ∃ fill, fill =
      width - ((if neg then [45] else []) ++ fieldBody s tmp).length := ⟨_, rfl⟩
  have hall : fieldLen s tmp neg = ((if neg then [45] else []) ++ fieldBody s tmp).length := by
    rw [List.length_append]
    cases s with
    | none =>
      show (tmp.length : ℤ) + (if neg then 1 else 0) = (_ + tmp.reverse.length : ℕ)
      rw [List.length_reverse]
      cases neg with
      | true => exact add_comm (tmp.length : ℤ) 1
      | false => exact add_comm (tmp.length : ℤ) 0
    | some s =>
      have hs : s.length < 2 ^ 31 := hlen
      have hfits : Fits 0x80000000 s.length := ⟨by omega, by omega⟩
      rw [hneg rfl, if_neg Bool.false_ne_true, List.length_nil, Nat.zero_add]
      exact wrap_eq_self hfits
  have hpad : ((if (width : ℤ) > fieldLen s tmp neg then (width : ℤ) - fieldLen s tmp neg
      else 0)).toNat = fill := by
    rw [hall, hfill]
    split <;> omega
  have hsign : ∀ o : Out, (if ¬ s.isSome ∧ neg then o.put cap 45 else o) =
      o.puts cap (if neg then [45] else []) := fun o => by
    cases neg with
    | false =>
      rw [if_neg fun h => Bool.false_ne_true h.2]
      rfl
    | true =>
      rw [if_pos ⟨fun hs => Bool.false_ne_true (hneg hs).symm, rfl⟩]
      rfl
  rw [← hfill]
  unfold Out.field padded
  dsimp only
  rw [hpad, hsign]
  simp only [decide_eq_true_eq]
  by_cases hleft : true ∈ flags
  · simp only [hleft, not_true_eq_false, false_and, if_false, if_true, puts_append]
  · by_cases hzero : false ∈ flags ∧ ¬ s.isSome
    · simp only [hleft, hzero, Bool.false_eq_true, not_true_eq_false, not_false_eq_true, true_and,
        if_false, if_true, puts_append]
    · simp only [hleft, hzero, not_false_eq_true, true_and, if_false, if_true, puts_append]

/-! ## Formats -/

theorem formatFrom_char {b : UInt8} (hb : b ≠ 37) (fmt : List UInt8) (args : List Arg) (o : Out) :
    formatFrom cap (b :: fmt) args o = formatFrom cap fmt args (o.put cap b) := by
  rw [formatFrom, if_pos hb]

theorem formatFrom_field {fmt more : List UInt8} {c : UInt8} (hd : (directive fmt).rest = c :: more)
    (hc : TakesArg c) {a : Arg} {s : Option (List UInt8)} {tmp : List UInt8} {neg : Bool}
    (ha : converted c a = some (s, tmp, neg)) (args : List Arg) (o : Out) :
    formatFrom cap (37 :: fmt) (a :: args) o =
      formatFrom cap more args (o.field cap (directive fmt) s tmp neg) := by
  rw [formatFrom, if_neg fun h => h rfl]
  split
  · next heq => cases hd.symm.trans heq
  · next d e heq =>
    obtain ⟨rfl, rfl⟩ := List.cons.inj (hd.symm.trans heq)
    rw [if_pos hc]
    dsimp only
    rw [ha]

theorem formatFrom_other {fmt more : List UInt8} {c : UInt8} (hd : (directive fmt).rest = c :: more)
    (hc : ¬ TakesArg c) (args : List Arg) (o : Out) :
    formatFrom cap (37 :: fmt) args o =
      formatFrom cap more args
        (if c = 37 then o.put cap 37 else (o.put cap 37).put cap c) := by
  rw [formatFrom, if_neg fun h => h rfl]
  split
  · next heq => cases hd.symm.trans heq
  · next d e heq =>
    obtain ⟨rfl, rfl⟩ := List.cons.inj (hd.symm.trans heq)
    rw [if_neg hc]
    split <;> rfl

/-- A letter that is no flag and no digit ends a directive at once. -/
theorem directive_letter {c : UInt8} (hc : c ≠ 45 ∧ mwIsdigit c = false) (more : List UInt8) :
    (directive (c :: more)).rest = c :: more := by
  have h := @directive_eq [] 0 (by decide) c hc more
  exact congrArg Directive.rest h

theorem letter_ok (v : Value) :
    TakesArg v.letter ∧ v.letter ≠ 45 ∧ mwIsdigit v.letter = false := by
  have hall : ∀ c : UInt8, TakesArg c → TakesArg c ∧ c ≠ 45 ∧ mwIsdigit c = false := by
    unfold TakesArg
    decide +kernel
  refine hall _ ?_
  cases v with
  | dec i w => cases i <;> simp [Value.letter, TakesArg]
  | hex upper w => cases upper <;> simp [Value.letter, TakesArg]
  | _ => simp [Value.letter, TakesArg]

/-- **A part of a format** puts out what it expands to. -/
theorem formatFrom_piece (p : Piece) (hp : p.text.length < 2 ^ 31) (fmt : List UInt8)
    (args : List Arg) (o : Out) :
    formatFrom cap (p.format ++ fmt) (p.args ++ args) o =
      formatFrom cap fmt args (o.puts cap p.text) := by
  cases p with
  | char b h => exact formatFrom_char h.2 fmt args o
  | percent =>
    have hd := directive_letter (c := 37) (by decide) fmt
    exact formatFrom_other hd (by decide) args o
  | unknown c h =>
    obtain ⟨-, harg, h37, hlet⟩ := h
    refine (formatFrom_other (directive_letter hlet fmt) harg args o).trans ?_
    rw [if_neg h37]
    rfl
  | field flags width h v =>
    obtain ⟨harg, hlet⟩ := letter_ok v
    obtain ⟨s, tmp, neg, hconv, hstr, hsign, hbody, hneg⟩ := converted_eq v
    have hfmt : (Piece.field flags width h v).format ++ fmt =
        37 :: (flags.map flag ++ (widthText width ++ v.letter :: fmt)) := by
      show (37 :: (flags.map flag ++ (widthText width ++ [v.letter]))) ++ fmt = _
      rw [List.cons_append, List.append_assoc, List.append_assoc, List.singleton_append]
    have hd := directive_eq flags h hlet fmt
    have hlen : (fieldBody s tmp).length < 2 ^ 31 := by
      rw [hbody]
      refine lt_of_le_of_lt ?_ hp
      show v.body.length ≤ (if true ∈ flags then _ else if _ then _ else _ : List UInt8).length
      split_ifs <;> simp only [List.length_append] <;> omega
    rw [hfmt]
    refine (formatFrom_field (congrArg Directive.rest hd) harg hconv args o).trans ?_
    rw [hd, field_eq cap o flags width _ hneg hlen, hsign, hbody, hstr]
    rfl

/-- **A format** puts out what its parts expand to. -/
theorem formatFrom_eq (ps : List Piece) (h : (ps.flatMap Piece.text).length < 2 ^ 31) (o : Out) :
    formatFrom cap (ps.flatMap Piece.format) (ps.flatMap Piece.args) o =
      some (o.puts cap (ps.flatMap Piece.text)) := by
  induction ps generalizing o with
  | nil =>
    rw [List.flatMap_nil, formatFrom]
    rfl
  | cons p ps ih =>
    rw [List.flatMap_cons, List.length_append] at h
    rw [List.flatMap_cons, List.flatMap_cons, List.flatMap_cons, formatFrom_piece p (by omega),
      ih (by omega), puts_append]

/-! ## The contract -/

/-- What is returned is an `int`. -/
theorem returned_lt {buf buf' : Block} {fmt : List UInt8} {args : List Arg} {r : ℤ}
    (h : mwVsnprintf buf cap fmt args = some (buf', r)) : r < 2 ^ 31 := by
  unfold mwVsnprintf at h
  rw [Option.map_eq_some_iff] at h
  obtain ⟨o, -, ho⟩ := h
  rw [← (Prod.mk.inj ho).2]
  exact (wrap_fits (by decide) _).2

/-- Where the NUL is put. -/
theorem nul_at {n : UInt32} (hcap : cap ≠ 0) :
    (if n < cap then n else cap - 1).toNat = min n.toNat (cap.toNat - 1) := by
  have hpos : 0 < cap.toNat := Nat.pos_of_ne_zero fun h => hcap (UInt32.toNat.inj h)
  have hsub : (cap - 1).toNat = cap.toNat - 1 :=
    UInt32.toNat_sub_of_le _ _ (UInt32.le_iff_toNat_le.mpr hpos)
  split
  · next hlt =>
    have := UInt32.lt_iff_toNat_lt.mp hlt
    omega
  · next hlt =>
    rw [UInt32.lt_iff_toNat_lt] at hlt
    omega

/-- **A text of less than `2 ^ 31` bytes** is put out as it should be. -/
theorem conforms_of_lt {ps : List Piece} (h : (ps.flatMap Piece.text).length < 2 ^ 31)
    (buf : Block) (cap : UInt32) : Conforms ps buf cap := by
  obtain ⟨s, hs⟩ : ∃ s, s = ps.flatMap Piece.text := ⟨_, rfl⟩
  have hrun := @formatFrom_eq cap ps h ⟨0, buf⟩
  unfold Conforms
  rw [← hs] at h hrun ⊢
  have h0 : (0 : UInt32).toNat = 0 := rfl
  obtain ⟨hn, hbuf⟩ := @puts_spec cap ⟨0, buf⟩ s
    (show (0 : UInt32).toNat + s.length < 2 ^ 32 by omega)
  dsimp only at hn hbuf
  rw [h0, Nat.zero_add] at hn hbuf
  simp only [Nat.zero_le, Nat.sub_zero, true_and] at hbuf
  have hret : wrap 0x80000000 (Out.puts cap ⟨0, buf⟩ s).n.toNat = s.length := by
    rw [hn]
    exact wrap_eq_self ⟨by omega, by omega⟩
  unfold mwVsnprintf
  rw [hrun]
  dsimp only [Option.map_some]
  rw [hret]
  refine ⟨_, rfl, fun i hi => ?_, fun hcap => ?_⟩
  · split
    · next hne =>
      have hpos : 0 < cap.toNat := Nat.pos_of_ne_zero fun h => hne (UInt32.toNat.inj h)
      have hout : i ≠ min s.length (cap.toNat - 1) := by omega
      rw [nul_at hne, hn, Function.update_of_ne hout, hbuf, if_neg (by omega)]
    · rw [hbuf, if_neg (by omega)]
  · have hne : cap ≠ 0 := fun h0 => by
      rw [h0] at hcap
      exact Nat.lt_irrefl 0 hcap
    rw [if_pos hne, nul_at hne, hn]
    refine ⟨fun i hi => ?_, Function.update_self ..⟩
    have hin : i < s.length := hi.trans_le (min_le_left ..)
    have hroom : i + 1 < cap.toNat := by
      have := hi.trans_le (min_le_right ..)
      omega
    rw [Function.update_of_ne hi.ne, hbuf, if_pos ⟨hin, hroom⟩, List.getD_eq_getElem _ _ hin,
      List.getElem?_eq_getElem hin]

/-- **Formatting** conforms exactly as long as the whole text has less than `2 ^ 31` bytes. -/
theorem conforms_iff (ps : List Piece) (buf : Block) (cap : UInt32) :
    Conforms ps buf cap ↔ (ps.flatMap Piece.text).length < 2 ^ 31 := by
  refine ⟨fun ⟨buf', hret, _⟩ => ?_, fun h => conforms_of_lt h buf cap⟩
  have := returned_lt hret
  omega

/-! ## Reading back -/

theorem wrap_mul_add (m : ℕ) (x k y : ℤ) : wrap m (wrap m x * k + y) = wrap m (x * k + y) := by
  unfold wrap
  rw [← Int.bmod_add_bmod, Int.bmod_mul_bmod, Int.bmod_add_bmod]

/-- **The digits** of a number are read back, as an `int`. -/
theorem atoiDigits_eq (ds : List ℕ) {rest : List UInt8} {v : ℕ} (hds : ∀ d ∈ ds, d < 10)
    (hrest : ∀ c ∈ rest.head?, mwIsdigit c = false) :
    atoiDigits (ds.map decDigit ++ rest) (wrap 0x80000000 v) =
      wrap 0x80000000 (read 10 v ds : ℕ) := by
  induction ds generalizing v with
  | nil =>
    cases rest with
    | nil => rfl
    | cons c rest =>
      show atoiDigits (c :: rest) _ = _
      rw [atoiDigits, if_neg (by rw [hrest c rfl]; decide)]
      rfl
  | cons d ds ih =>
    have hd := hds d List.mem_cons_self
    have hval : ((decDigit d).toNat : ℤ) - 48 = d := by
      rw [decDigit_toNat hd]
      omega
    rw [List.map_cons, List.cons_append, atoiDigits, if_pos (isdigit_decDigit hd), hval,
      wrap_mul_add]
    have h := @ih (v * 10 + d) fun e he => hds e (List.mem_cons_of_mem _ he)
    push_cast at h
    exact h

/-- A digit is no space and no sign. -/
theorem digit_plain {c : UInt8} (h : mwIsdigit c = true) :
    mwIsspace c = false ∧ c ≠ 45 ∧ c ≠ 43 := by
  have hall : ∀ n : Fin 256, mwIsdigit (UInt8.ofNat n) = true →
      mwIsspace (UInt8.ofNat n) = false ∧ UInt8.ofNat n ≠ 45 ∧ UInt8.ofNat n ≠ 43 := by
    decide +kernel
  have hc := hall ⟨c.toNat, c.toNat_lt⟩
  rw [UInt8.ofNat_toNat] at hc
  exact hc h

/-- **A number** behind spaces, with its sign and zeros in front, is read back. -/
theorem mwAtoi_eq (spaces zeros n : ℕ) (neg : Bool) {rest : List UInt8}
    (hrest : ∀ c ∈ rest.head?, mwIsdigit c = false) :
    mwAtoi (List.replicate spaces 32 ++ ((if neg then [45] else []) ++
      (List.replicate zeros 48 ++ (numeral 10 decDigit n ++ rest)))) =
        wrap 0x80000000 (if neg then -n else n) := by
  have hdigits : List.replicate zeros 48 ++ (numeral 10 decDigit n ++ rest) =
      (List.replicate zeros 0 ++ (low 10 n).reverse).map decDigit ++ rest := by
    unfold numeral
    rw [List.map_append, List.map_replicate, List.append_assoc]
    rfl
  have hten : ∀ d ∈ List.replicate zeros 0 ++ (low 10 n).reverse, d < 10 := fun d hd => by
    rcases List.mem_append.mp hd with hd | hd
    · rw [List.eq_of_mem_replicate hd]
      decide
    · exact low_lt (by decide) (List.mem_reverse.mp hd)
  have hval := atoiDigits_eq (v := 0) _ hten hrest
  rw [read_zeros, read_low] at hval
  obtain ⟨d, ds, hds⟩ : ∃ d ds, List.replicate zeros 0 ++ (low 10 n).reverse = d :: ds :=
    List.exists_cons_of_ne_nil fun hnil =>
      low_ne_nil 10 n (List.reverse_eq_nil_iff.mp (List.append_eq_nil_iff.mp hnil).2)
  have hplain := digit_plain (isdigit_decDigit (hten d (hds ▸ List.mem_cons_self)))
  have hspaces : ∀ xs : List UInt8, (List.replicate spaces 32 ++ xs).dropWhile mwIsspace =
      xs.dropWhile mwIsspace := fun xs =>
    List.dropWhile_append_of_pos fun c hc => by
      rw [List.eq_of_mem_replicate hc]
      decide
  unfold mwAtoi
  rw [hspaces, hdigits, hds, List.map_cons, List.cons_append]
  rw [hds, List.map_cons, List.cons_append] at hval
  cases neg with
  | true =>
    rw [if_pos rfl, List.singleton_append, List.dropWhile_cons_of_neg (by decide)]
    show wrap 0x80000000 (-atoiDigits _ (wrap 0x80000000 (0 : ℕ))) = _
    rw [hval]
    exact Int.bmod_neg_bmod
  | false =>
    rw [if_neg Bool.false_ne_true, List.nil_append,
      List.dropWhile_cons_of_neg (by rw [hplain.1]; decide)]
    show (if decDigit d = 45 then _ else if decDigit d = 43 then _ else
      atoiDigits _ (wrap 0x80000000 (0 : ℕ))) = _
    rw [if_neg hplain.2.1, if_neg hplain.2.2, hval]
    rfl

/-- **A field of a number** is read back. -/
theorem mwAtoi_field (flags : List Bool) (width : ℕ) (h : width < 2 ^ 31) (i : Bool) (w : UInt32)
    {rest : List UInt8} (hrest : ∀ c ∈ rest.head?, mwIsdigit c = false) :
    mwAtoi ((Piece.field flags width h (.dec i w)).text ++ rest) = int w := by
  have hint : wrap 0x80000000 (if int w < 0 then -((int w).natAbs : ℤ) else (int w).natAbs) =
      int w := by
    have hsame : (if int w < 0 then -((int w).natAbs : ℤ) else (int w).natAbs) = int w := by
      split <;> omega
    have hlt := w.toNat_lt
    rw [hsame]
    unfold int
    split
    · exact wrap_eq_self ⟨by omega, by omega⟩
    · exact wrap_eq_self ⟨by omega, by omega⟩
  have hback := fun spaces zeros (rest : List UInt8) hrest =>
    @mwAtoi_eq spaces zeros (int w).natAbs (decide (int w < 0)) rest hrest
  simp only [decide_eq_true_eq, hint] at hback
  obtain ⟨fill, hfill⟩ : ∃ fill, fill = width - ((Value.dec i w).sign ++
    (Value.dec i w).body).length := ⟨_, rfl⟩
  have htext : (Piece.field flags width h (.dec i w)).text =
      padded flags fill false (Value.dec i w).sign (Value.dec i w).body := by
    rw [hfill]
    rfl
  have hsign : (Value.dec i w).sign = if int w < 0 then [45] else [] := rfl
  have hbody : (Value.dec i w).body = numeral 10 decDigit (int w).natAbs := rfl
  rw [htext, hsign, hbody]
  unfold padded
  by_cases hleft : true ∈ flags
  · have hpad : ∀ c ∈ (List.replicate fill 32 ++ rest).head?, mwIsdigit c = false := by
      cases fill with
      | zero => exact hrest
      | succ n =>
        intro c hc
        obtain rfl := Option.some.inj hc
        decide
    rw [if_pos hleft, List.append_assoc, List.append_assoc]
    exact hback 0 0 _ hpad
  · rw [if_neg hleft]
    by_cases hzero : false ∈ flags ∧ ¬ false = true
    · rw [if_pos hzero, List.append_assoc, List.append_assoc]
      exact hback 0 fill rest hrest
    · rw [if_neg hzero, List.append_assoc, List.append_assoc]
      exact hback fill 0 rest hrest

/-- A field is at least as long as its width. -/
theorem width_le_text (flags : List Bool) (width : ℕ) (h : width < 2 ^ 31) (v : Value) :
    width ≤ (Piece.field flags width h v).text.length := by
  show width ≤ (if true ∈ flags then _ else if _ then _ else _ : List UInt8).length
  split_ifs <;> simp only [List.length_append, List.length_replicate] <;> omega

/-- Two fields of a number. -/
def twoFields (a b : ℕ) (ha : a < 2 ^ 31) (hb : b < 2 ^ 31) : List Piece :=
  [.field [] a ha (.dec false 7), .field [] b hb (.dec false 7)]

theorem le_twoFields (a b : ℕ) (ha : a < 2 ^ 31) (hb : b < 2 ^ 31) :
    a + b ≤ ((twoFields a b ha hb).flatMap Piece.text).length := by
  have hfst := width_le_text [] a ha (.dec false 7)
  have hsnd := width_le_text [] b hb (.dec false 7)
  unfold twoFields
  rw [List.flatMap_cons, List.flatMap_cons, List.flatMap_nil, List.append_nil, List.length_append]
  exact Nat.add_le_add hfst hsnd

end Sdk
