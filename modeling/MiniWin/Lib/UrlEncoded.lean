import Mathlib.Data.List.Basic

/-!
# Names and values in one text

A row of names with their values as `name=value&name=value`, in which a byte that is not safe is
written as `%` and its two digits in base 16, and a space as `+`. Whatever the safe bytes are, as
long as none of them has a meaning of its own, the row can be read back.
-/

namespace UrlEncoded

/-- None of the bytes with a meaning of their own is safe. -/
def Sensible (safe : UInt8 → Bool) : Prop :=
  safe 0x25 = false ∧ safe 0x26 = false ∧ safe 0x2B = false ∧ safe 0x3D = false

/-- A digit in base 16. -/
def hexDigit (n : Nat) : UInt8 := UInt8.ofNat (if n < 10 then 0x30 + n else 0x41 + (n - 10))

/-- The value of a digit. -/
def hexValue (c : UInt8) : Nat := if c < 0x41 then c.toNat - 0x30 else c.toNat - 0x41 + 10

/-- A byte, written. -/
def escapeByte (safe : UInt8 → Bool) (c : UInt8) : List UInt8 :=
  if safe c then [c]
  else if c = 0x20 then [0x2B]
  else [0x25, hexDigit (c.toNat / 16), hexDigit (c.toNat % 16)]

def escape (safe : UInt8 → Bool) (l : List UInt8) : List UInt8 := l.flatMap (escapeByte safe)

/-- Bytes, read back. -/
def unescape : List UInt8 → List UInt8
  | 0x2B :: l => 0x20 :: unescape l
  | 0x25 :: a :: b :: l => UInt8.ofNat (hexValue a * 16 + hexValue b) :: unescape l
  | c :: l => c :: unescape l
  | [] => []

def encodePair (safe : UInt8 → Bool) (p : List UInt8 × List UInt8) : List UInt8 :=
  escape safe p.1 ++ 0x3D :: escape safe p.2

/-- The row as a text. -/
def encode (safe : UInt8 → Bool) (ps : List (List UInt8 × List UInt8)) : List UInt8 :=
  [0x26].intercalate (ps.map (encodePair safe))

def decodePair (l : List UInt8) : List UInt8 × List UInt8 :=
  (unescape (l.takeWhile (· ≠ 0x3D)), unescape ((l.dropWhile (· ≠ 0x3D)).drop 1))

/-- The row that a text means: split at `&` and, each part, at the first `=`. -/
def decode (l : List UInt8) : List (List UInt8 × List UInt8) :=
  if l = [] then [] else (l.splitOn 0x26).map decodePair

variable {safe : UInt8 → Bool} {l : List UInt8} {ps : List (List UInt8 × List UInt8)}

theorem hexDigit_lt : ∀ n < 16, hexValue (hexDigit n) = n ∧ hexDigit n ≠ 0x26 ∧ hexDigit n ≠ 0x3D := by
  decide

/-- What is not a sign of its own is read as it is. -/
theorem unescape_cons {c : UInt8} (h₁ : c ≠ 0x2B) (h₂ : c ≠ 0x25) (l : List UInt8) :
    unescape (c :: l) = c :: unescape l := by
  rw [unescape.eq_def]
  split
  · next h => exact absurd (List.cons.inj h).1 h₁
  · next h => exact absurd (List.cons.inj h).1 h₂
  · next h =>
    obtain ⟨rfl, rfl⟩ := List.cons.inj h
    rfl
  · next h => exact absurd h (List.cons_ne_nil _ _)

/-- **A byte is read back.** -/
theorem unescape_escapeByte (hs : Sensible safe) (c : UInt8) (l : List UInt8) :
    unescape (escapeByte safe c ++ l) = c :: unescape l := by
  unfold escapeByte
  split
  · next hsafe =>
    refine unescape_cons (fun h => ?_) (fun h => ?_) l <;> subst h
    · exact absurd hsafe (by rw [hs.2.2.1]; decide)
    · exact absurd hsafe (by rw [hs.1]; decide)
  · split
    · next h =>
      subst h
      rfl
    · have hlt := c.toNat_lt
      have hhi := (hexDigit_lt (c.toNat / 16) (by omega)).1
      have hlo := (hexDigit_lt (c.toNat % 16) (by omega)).1
      show UInt8.ofNat _ :: unescape l = _
      rw [hhi, hlo, Nat.div_add_mod' c.toNat 16, UInt8.ofNat_toNat]

theorem unescape_escape (hs : Sensible safe) (l : List UInt8) : unescape (escape safe l) = l := by
  induction l with
  | nil => rfl
  | cons c l ih =>
    show unescape (escapeByte safe c ++ escape safe l) = _
    rw [unescape_escapeByte hs, ih]

/-- What is written has no separators in it. -/
theorem not_mem_escape (hs : Sensible safe) (l : List UInt8) :
    0x26 ∉ escape safe l ∧ 0x3D ∉ escape safe l := by
  have hbyte (c : UInt8) : 0x26 ∉ escapeByte safe c ∧ 0x3D ∉ escapeByte safe c := by
    have hlt := c.toNat_lt
    obtain ⟨-, hhi⟩ := hexDigit_lt (c.toNat / 16) (by omega)
    obtain ⟨-, hlo⟩ := hexDigit_lt (c.toNat % 16) (by omega)
    unfold escapeByte
    split
    · next hsafe =>
      simp only [List.mem_singleton]
      constructor <;> rintro rfl
      · exact absurd hsafe (by rw [hs.2.1]; decide)
      · exact absurd hsafe (by rw [hs.2.2.2]; decide)
    · split
      · decide
      · simp only [List.mem_cons, List.not_mem_nil, or_false, not_or]
        exact ⟨⟨by decide, hhi.1.symm, hlo.1.symm⟩, by decide, hhi.2.symm, hlo.2.symm⟩
  constructor <;> intro h
  · obtain ⟨c, -, hc⟩ := List.mem_flatMap.mp h
    exact (hbyte c).1 hc
  · obtain ⟨c, -, hc⟩ := List.mem_flatMap.mp h
    exact (hbyte c).2 hc

theorem decodePair_encodePair (hs : Sensible safe) (p : List UInt8 × List UInt8) :
    decodePair (encodePair safe p) = p := by
  have hname : ∀ c ∈ escape safe p.1, decide (c ≠ 0x3D) = true := fun c hc =>
    decide_eq_true fun h => (not_mem_escape hs p.1).2 (h ▸ hc)
  unfold decodePair encodePair
  rw [List.takeWhile_append_of_pos hname, List.dropWhile_append_of_pos hname,
    List.takeWhile_cons_of_neg (by decide), List.dropWhile_cons_of_neg (by decide),
    List.append_nil, List.drop_one, List.tail_cons, unescape_escape hs, unescape_escape hs]

theorem encodePair_ne_nil (p : List UInt8 × List UInt8) : encodePair safe p ≠ [] :=
  List.append_ne_nil_of_right_ne_nil _ (List.cons_ne_nil _ _)

/-- **The row is read back.** -/
theorem decode_encode (hs : Sensible safe) (ps : List (List UInt8 × List UInt8)) :
    decode (encode safe ps) = ps := by
  unfold decode encode
  cases ps with
  | nil => rfl
  | cons p ps =>
    have hne : [0x26].intercalate ((p :: ps).map (encodePair safe)) ≠ [] := by
      intro h
      cases ps with
      | nil => exact encodePair_ne_nil p (by simpa using h)
      | cons q ps => simp [encodePair_ne_nil] at h
    have hsep : ∀ l ∈ (p :: ps).map (encodePair safe), 0x26 ∉ l := by
      intro l hl
      obtain ⟨q, -, rfl⟩ := List.mem_map.mp hl
      rw [encodePair, List.mem_append, List.mem_cons, not_or, not_or]
      exact ⟨(not_mem_escape hs _).1, by decide, (not_mem_escape hs _).1⟩
    rw [if_neg hne, List.splitOn_intercalate _ hsep (List.cons_ne_nil _ _), List.map_map]
    have hpair : decodePair ∘ encodePair safe = id := funext fun q => decodePair_encodePair hs q
    rw [hpair, List.map_id]

end UrlEncoded
