import Mathlib.Data.List.Basic

/-!
# The Hangul input method

The functions of `kernel/hangul_ime.h`, and what they need of `kernel/font_ko.h`. An index is -1 in
the source where there is none here. The text is its bytes, of which there are at most `maxlen`.
-/

namespace HangulIme

/-- The consonant of a key, in the order of initials. -/
def ko_consonant_index_for_letter : Char → Option Nat
  | 'r' => some 0 | 'R' => some 1 | 's' => some 2 | 'e' => some 3 | 'E' => some 4
  | 'f' => some 5 | 'a' => some 6 | 'q' => some 7 | 'Q' => some 8 | 't' => some 9
  | 'T' => some 10 | 'd' => some 11 | 'w' => some 12 | 'W' => some 13 | 'c' => some 14
  | 'z' => some 15 | 'x' => some 16 | 'v' => some 17 | 'g' => some 18
  | _ => none

/-- The vowel of a key. The other seven are made of two. -/
def ko_vowel_index_for_letter : Char → Option Nat
  | 'k' => some 0 | 'o' => some 1 | 'i' => some 2 | 'O' => some 3 | 'j' => some 4
  | 'p' => some 5 | 'u' => some 6 | 'P' => some 7 | 'h' => some 8 | 'y' => some 12
  | 'n' => some 13 | 'b' => some 17 | 'm' => some 18 | 'l' => some 20
  | _ => none

def ko_combine_medial (base add : Nat) : Option Nat :=
  if base = 8 ∧ add = 0 then some 9
  else if base = 8 ∧ add = 1 then some 10
  else if base = 8 ∧ add = 20 then some 11
  else if base = 13 ∧ add = 4 then some 14
  else if base = 13 ∧ add = 5 then some 15
  else if base = 13 ∧ add = 20 then some 16
  else if base = 18 ∧ add = 20 then some 19
  else none

/-- What a consonant is at the end of a syllable, where it can be there. -/
def ko_initial_to_simple_final : List (Option Nat) :=
  [some 1, some 2, some 4, some 7, none, some 8, some 16, some 17, none, some 19, some 20, some 21,
   some 22, none, some 23, some 24, some 25, some 26, some 27]

def ko_combine_final (base_final add_consonant_initial_idx : Nat) : Option Nat :=
  if base_final = 1 ∧ add_consonant_initial_idx = 9 then some 3
  else if base_final = 4 ∧ add_consonant_initial_idx = 12 then some 5
  else if base_final = 4 ∧ add_consonant_initial_idx = 18 then some 6
  else if base_final = 8 ∧ add_consonant_initial_idx = 0 then some 9
  else if base_final = 8 ∧ add_consonant_initial_idx = 6 then some 10
  else if base_final = 8 ∧ add_consonant_initial_idx = 7 then some 11
  else if base_final = 8 ∧ add_consonant_initial_idx = 9 then some 12
  else if base_final = 8 ∧ add_consonant_initial_idx = 16 then some 13
  else if base_final = 8 ∧ add_consonant_initial_idx = 17 then some 14
  else if base_final = 8 ∧ add_consonant_initial_idx = 18 then some 15
  else if base_final = 17 ∧ add_consonant_initial_idx = 9 then some 18
  else none

/-- What stays of a final when a vowel comes after it, and the initial that it hands back. -/
def ko_split_final_for_handback : Nat → Nat × Option Nat
  | 1 => (0, some 0)
  | 2 => (0, some 1)
  | 3 => (1, some 9)
  | 4 => (0, some 2)
  | 5 => (4, some 12)
  | 6 => (4, some 18)
  | 7 => (0, some 3)
  | 8 => (0, some 5)
  | 9 => (8, some 0)
  | 10 => (8, some 6)
  | 11 => (8, some 7)
  | 12 => (8, some 9)
  | 13 => (8, some 16)
  | 14 => (8, some 17)
  | 15 => (8, some 18)
  | 16 => (0, some 6)
  | 17 => (0, some 7)
  | 18 => (17, some 9)
  | 19 => (0, some 9)
  | 20 => (0, some 10)
  | 21 => (0, some 11)
  | 22 => (0, some 12)
  | 23 => (0, some 14)
  | 24 => (0, some 15)
  | 25 => (0, some 16)
  | 26 => (0, some 17)
  | 27 => (0, some 18)
  | _ => (0, none)

def KO_INITIAL_IEUNG : Nat := 11

def KO_SYLLABLE_BASE : Nat := 0xAC00

/-- The consonants on their own, which Unicode does not have in a row. -/
def ko_jamo_cp_for_initial : List Nat :=
  [0x3131, 0x3132, 0x3134, 0x3137, 0x3138, 0x3139, 0x3141, 0x3142, 0x3143,
   0x3145, 0x3146, 0x3147, 0x3148, 0x3149, 0x314A, 0x314B, 0x314C, 0x314D, 0x314E]

def ko_compose_codepoint (initial medial final_ : Nat) : Option Nat :=
  if initial > 18 then none
  else if medial > 20 then none
  else if final_ > 27 then none
  else some (KO_SYLLABLE_BASE + (initial * 21 + medial) * 28 + final_)

/-- The syllable that is being built: `ko_cur_initial`, `ko_cur_medial` and `ko_cur_final`. -/
structure Ime where
  initial : Option Nat
  medial : Option Nat
  final : Option Nat
  deriving DecidableEq, Repr

def ko_ime_reset : Ime := ⟨none, none, none⟩

/-- The code point of the syllable that is being built. -/
def ko_ime_preview_codepoint (s : Ime) : Option Nat :=
  match s.initial with
  | none => none
  | some i =>
    match s.medial with
    | none => ko_jamo_cp_for_initial[i]?
    | some m => ko_compose_codepoint i m (s.final.getD 0)

/-- Three bytes, where there is room for them. -/
def ko_emit_utf8 (buf : List UInt8) (maxlen : UInt32) (cp : Option Nat) : List UInt8 :=
  match cp with
  | none => buf
  | some cp =>
    if buf.length.toUInt32 + 3 > maxlen then buf
    else
      buf ++ [UInt8.ofNat (0xE0 ||| (cp >>> 12)), UInt8.ofNat (0x80 ||| ((cp >>> 6) &&& 0x3F)),
        UInt8.ofNat (0x80 ||| (cp &&& 0x3F))]

def ko_ime_commit (s : Ime) (buf : List UInt8) (maxlen : UInt32) : Ime × List UInt8 :=
  match s.initial with
  | none => (s, buf)
  | some i =>
    match s.medial with
    | none => (ko_ime_reset, ko_emit_utf8 buf maxlen ko_jamo_cp_for_initial[i]?)
    | some m => (ko_ime_reset, ko_emit_utf8 buf maxlen (ko_compose_codepoint i m (s.final.getD 0)))

/-- The part of `ko_ime_feed_key` for a consonant. -/
def feedConsonant (s : Ime) (cons : Nat) (buf : List UInt8) (maxlen : UInt32) :
    Ime × List UInt8 :=
  if s.initial = none then (⟨some cons, none, none⟩, buf)
  else if s.medial = none then
    let (s, buf) := ko_ime_commit s buf maxlen
    ({ s with initial := some cons }, buf)
  else
    match s.final with
    | none =>
      match ko_initial_to_simple_final.getD cons none with
      | none => (⟨some cons, none, none⟩, (ko_ime_commit s buf maxlen).2)
      | some simple => ({ s with final := some simple }, buf)
    | some f =>
      match ko_combine_final f cons with
      | some combined => ({ s with final := some combined }, buf)
      | none => (⟨some cons, none, none⟩, (ko_ime_commit s buf maxlen).2)

/-- The part of `ko_ime_feed_key` for a vowel. -/
def feedVowel (s : Ime) (vow : Nat) (buf : List UInt8) (maxlen : UInt32) : Ime × List UInt8 :=
  if s.initial = none then (⟨some KO_INITIAL_IEUNG, some vow, none⟩, buf)
  else
    match s.medial with
    | none => ({ s with medial := some vow }, buf)
    | some m =>
      match s.final with
      | none =>
        match ko_combine_medial m vow with
        | some combined => ({ s with medial := some combined }, buf)
        | none => (⟨some KO_INITIAL_IEUNG, some vow, none⟩, (ko_ime_commit s buf maxlen).2)
      | some f =>
        let (kept_final, new_initial) := ko_split_final_for_handback f
        let s := { s with final := if kept_final = 0 then none else some kept_final }
        (⟨new_initial, some vow, none⟩, (ko_ime_commit s buf maxlen).2)

/-- A key, and whether it was one of Hangul. -/
def ko_ime_feed_key (s : Ime) (c : Char) (buf : List UInt8) (maxlen : UInt32) :
    (Ime × List UInt8) × Bool :=
  match ko_consonant_index_for_letter c, ko_vowel_index_for_letter c with
  | none, none => (ko_ime_commit s buf maxlen, false)
  | some cons, _ => (feedConsonant s cons buf maxlen, true)
  | none, some vow => (feedVowel s vow buf maxlen, true)

/-- Keys, one after another. -/
def feedKeys (s : Ime) (cs : List Char) (buf : List UInt8) (maxlen : UInt32) : Ime × List UInt8 :=
  cs.foldl (fun st c => (ko_ime_feed_key st.1 c st.2 maxlen).1) (s, buf)

end HangulIme
