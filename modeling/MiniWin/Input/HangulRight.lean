import Mathlib.Algebra.GroupWithZero.Nat
import MiniWin.Input.HangulTyping
import Mathlib.Data.List.GetD

/-!
# The method is the machine

What the tables of the method say is what the keys say, so that a key does with the three indices
what the machine does with what is open. A text of syllables then comes out as it was meant, and
what any keys leave behind spells these keys.
-/

namespace HangulIme

local instance neZero_finals : NeZero 28 := ⟨by decide⟩

/-- The indices of what is open. -/
def Open.ime : Open → Ime
  | idle => ko_ime_reset
  | bare i => ⟨some i, none, none⟩
  | syllable s => ⟨some s.initial, some s.medial, if s.final = 0 then none else some s.final⟩

theorem Open.ime_syllable (s : Syllable) : (syllable s).ime
    = ⟨some s.initial, some s.medial, if s.final = 0 then none else some s.final⟩ := rfl

/-- Characters, one after another. -/
def emitAll (maxlen : UInt32) (buf : List UInt8) (cs : List Char) : List UInt8 :=
  cs.foldl (fun buf c => ko_emit_utf8 buf maxlen (some c.toNat)) buf

theorem emitAll_append (maxlen : UInt32) (buf : List UInt8) (cs ds : List Char) :
    emitAll maxlen buf (cs ++ ds) = emitAll maxlen (emitAll maxlen buf cs) ds :=
  List.foldl_append

/-! ## The tables -/

/-- The tables of the method are those of the letters. -/
theorem ime_tables :
    (∀ i : Fin 19,
      ko_consonant_index_for_letter (Key.consonant i).letter = some ↑i)
    ∧ (∀ v : Fin 14,
      ko_consonant_index_for_letter (Key.vowel v).letter = none
        ∧ ko_vowel_index_for_letter (Key.vowel v).letter = some ↑(simple v))
    ∧ (∀ i : Fin 19,
      ko_initial_to_simple_final.getD i none = (attach 0 i).map Fin.val)
    ∧ (∀ f : Fin 28, f ≠ 0 → ∀ i : Fin 19,
      ko_combine_final f i = (attach f i).map Fin.val)
    ∧ (∀ (m : Fin 21) (v : Fin 14),
      ko_combine_medial m (simple v) = (join m v).map Fin.val)
    ∧ (∀ g : Fin 28, g ≠ 0 →
      ko_split_final_for_handback g = (↑(split g).1, some ↑(split g).2))
    ∧ (∀ i : Fin 19, ko_jamo_cp_for_initial[i.val]? = some (jamo i).toNat) := by
  decide +kernel

theorem letter_consonant : ∀ i : Fin 19,
    ko_consonant_index_for_letter (Key.consonant i).letter = some ↑i :=
  ime_tables.1

theorem letter_vowel : ∀ v : Fin 14,
    ko_consonant_index_for_letter (Key.vowel v).letter = none
      ∧ ko_vowel_index_for_letter (Key.vowel v).letter = some ↑(simple v) :=
  ime_tables.2.1

theorem mem_consonantLetters {c : Char} (h : ko_consonant_index_for_letter c ≠ none) :
    c ∈ consonantLetters := by
  unfold ko_consonant_index_for_letter at h
  split at h
  case h_20 => exact absurd rfl h
  all_goals decide

theorem mem_vowelLetters {c : Char} (h : ko_vowel_index_for_letter c ≠ none) :
    c ∈ vowelLetters := by
  unfold ko_vowel_index_for_letter at h
  split at h
  case h_15 => exact absurd rfl h
  all_goals decide

/-- The other characters are no keys. -/
theorem letter_other {c : Char} (h : ∀ k : Key, k.letter ≠ c) :
    ko_consonant_index_for_letter c = none ∧ ko_vowel_index_for_letter c = none := by
  constructor <;> by_contra hsome
  · obtain ⟨i, hi⟩ := List.mem_iff_get.mp (mem_consonantLetters hsome)
    refine h (.consonant i) ?_
    rw [← hi]
    exact List.getD_eq_getElem _ _ i.isLt
  · obtain ⟨i, hi⟩ := List.mem_iff_get.mp (mem_vowelLetters hsome)
    refine h (.vowel i) ?_
    rw [← hi]
    exact List.getD_eq_getElem _ _ i.isLt

theorem simple_final : ∀ i : Fin 19,
    ko_initial_to_simple_final.getD i none = (attach 0 i).map Fin.val :=
  ime_tables.2.2.1

theorem combine_final : ∀ f : Fin 28, f ≠ 0 → ∀ i : Fin 19,
    ko_combine_final f i = (attach f i).map Fin.val :=
  ime_tables.2.2.2.1

theorem combine_medial : ∀ (m : Fin 21) (v : Fin 14),
    ko_combine_medial m (simple v) = (join m v).map Fin.val :=
  ime_tables.2.2.2.2.1

theorem split_final : ∀ g : Fin 28, g ≠ 0 →
    ko_split_final_for_handback g = (↑(split g).1, some ↑(split g).2) :=
  ime_tables.2.2.2.2.2.1

/-! ## One key -/

theorem compose_eq (s : Syllable) :
    ko_compose_codepoint s.initial s.medial s.final = some s.char.toNat := by
  obtain ⟨i, m, f⟩ := s
  rw [Syllable.toNat_char, ko_compose_codepoint, if_neg (by omega), if_neg (by omega),
    if_neg (by omega)]
  rfl

theorem jamo_eq : ∀ i : Fin 19, ko_jamo_cp_for_initial[i.val]? = some (jamo i).toNat :=
  ime_tables.2.2.2.2.2.2

/-- What is shown is what is open. -/
theorem preview_eq (o : Open) :
    ko_ime_preview_codepoint o.ime = (o.text.map Char.toNat).head? := by
  cases o with
  | idle => rfl
  | bare i => exact jamo_eq i
  | syllable s =>
    have hcompose := compose_eq s
    rw [Open.ime, ko_ime_preview_codepoint]
    dsimp only
    split
    · next hf =>
      rw [hf] at hcompose
      exact hcompose
    · exact hcompose

/-- It is written when it is finished. -/
theorem commit_eq (o : Open) (buf : List UInt8) (maxlen : UInt32) :
    ko_ime_commit o.ime buf maxlen = (ko_ime_reset, emitAll maxlen buf o.text) := by
  have hpreview := preview_eq o
  cases o with
  | idle => rfl
  | bare i =>
    rw [Open.ime, ko_ime_commit]
    dsimp only
    rw [jamo_eq]
    rfl
  | syllable s =>
    rw [ko_ime_preview_codepoint] at hpreview
    rw [ko_ime_commit]
    exact congrArg (fun cp => (ko_ime_reset, ko_emit_utf8 buf maxlen cp)) hpreview

theorem feedConsonant_eq (o : Open) (i : Fin 19) (buf : List UInt8) (maxlen : UInt32) :
    feedConsonant o.ime i buf maxlen
      = ((o.next (.consonant i)).2.ime, emitAll maxlen buf (o.next (.consonant i)).1) := by
  unfold feedConsonant
  rw [commit_eq]
  cases o with
  | idle => rfl
  | bare j => rfl
  | syllable s =>
    -- the final, if there is one, is attached to, and the syllable is finished if it cannot be
    have hattach (g : Fin 28) (hg : attach s.final i = some g) :
        (Open.syllable { s with final := g }).ime
          = { (Open.syllable s).ime with final := some ↑g } := by
      rw [Open.ime_syllable, if_neg (split_attach _ _ g hg).1]
      rfl
    rw [Open.next]
    cases hg : attach s.final i with
    | some g =>
      rw [hattach g hg, Open.ime_syllable, if_neg (Option.some_ne_none _), if_neg (Option.some_ne_none _)]
      by_cases hf : s.final = 0
      · rw [hf] at hg
        rw [if_pos hf, simple_final, hg]
        rfl
      · rw [if_neg hf]
        dsimp only
        rw [combine_final _ hf, hg]
        rfl
    | none =>
      rw [Open.ime_syllable, if_neg (Option.some_ne_none _), if_neg (Option.some_ne_none _)]
      by_cases hf : s.final = 0
      · rw [hf] at hg
        rw [if_pos hf, simple_final, hg]
        rfl
      · rw [if_neg hf]
        dsimp only
        rw [combine_final _ hf, hg]
        rfl

theorem feedVowel_eq (o : Open) (v : Fin 14) (buf : List UInt8) (maxlen : UInt32) :
    feedVowel o.ime (simple v) buf maxlen
      = ((o.next (.vowel v)).2.ime, emitAll maxlen buf (o.next (.vowel v)).1) := by
  unfold feedVowel
  cases o with
  | idle => rfl
  | bare j => rfl
  | syllable s =>
    have hcommit := commit_eq (.syllable s) buf maxlen
    rw [Open.ime] at hcommit
    rw [Open.next, Open.ime_syllable, if_neg (Option.some_ne_none _)]
    by_cases hf : s.final = 0
    · rw [if_pos hf] at hcommit ⊢
      rw [if_pos hf]
      dsimp only
      rw [hcommit, combine_medial]
      cases hm : join s.medial v with
      | none => rfl
      | some m =>
        rw [Open.ime, if_pos hf]
        rfl
    · -- what stays of the final is written, and what is handed back is the initial
      have hkept := commit_eq (.syllable { s with final := (split s.final).1 }) buf maxlen
      have hzero : (↑(split s.final).1 : Nat) = 0 ↔ (split s.final).1 = 0 :=
        Fin.val_eq_zero_iff
      rw [Open.ime] at hkept
      rw [if_neg hf, if_neg hf]
      dsimp only
      rw [split_final _ hf]
      simp only [hzero]
      dsimp only at hkept
      rw [hkept]
      rfl

/-- **A key** does what it does to the machine. -/
theorem feed_key_eq (o : Open) (k : Key) (buf : List UInt8) (maxlen : UInt32) :
    ko_ime_feed_key o.ime k.letter buf maxlen
      = (((o.next k).2.ime, emitAll maxlen buf (o.next k).1), true) := by
  unfold ko_ime_feed_key
  cases k with
  | consonant i =>
    rw [letter_consonant]
    exact congrArg (·, true) (feedConsonant_eq o i buf maxlen)
  | vowel v =>
    rw [(letter_vowel v).1, (letter_vowel v).2]
    exact congrArg (·, true) (feedVowel_eq o v buf maxlen)

/-- **Keys.** -/
theorem feedKeys_eq (o : Open) (ks : List Key) (buf : List UInt8) (maxlen : UInt32) :
    feedKeys o.ime (ks.map Key.letter) buf maxlen
      = ((o.run ks).2.ime, emitAll maxlen buf (o.run ks).1) := by
  induction ks generalizing o buf with
  | nil => rfl
  | cons k ks ih =>
    rw [Open.run_cons, emitAll_append, ← ih]
    unfold feedKeys
    rw [List.map_cons, List.foldl_cons, feed_key_eq]

/-! ## The bytes -/

/-- A character of three bytes. -/
def Wide (c : Char) : Prop := 0x800 ≤ c.toNat ∧ c.toNat < 0x10000

theorem Open.wide_text (o : Open) : ∀ c ∈ o.text, Wide c := by
  intro c hc
  cases o with
  | idle => exact absurd hc List.not_mem_nil
  | bare i =>
    obtain rfl := List.mem_singleton.mp hc
    have hall : ∀ i : Fin 19, 0x800 ≤ (jamo i).toNat ∧ (jamo i).toNat < 0x10000 := by
      decide +kernel
    exact hall i
  | syllable s =>
    obtain rfl := List.mem_singleton.mp hc
    have hcode := s.code_bounds
    rw [Wide, s.toNat_char]
    omega

/-- What a key finishes was open, as a whole or without what it hands back. -/
theorem Open.next_text (o : Open) (k : Key) : ∃ o' : Open, (o.next k).1 = o'.text := by
  cases k with
  | consonant c =>
    cases o with
    | idle => exact ⟨idle, rfl⟩
    | bare i => exact ⟨bare i, rfl⟩
    | syllable s =>
      rw [next]
      cases attach s.final c with
      | none => exact ⟨syllable s, rfl⟩
      | some g => exact ⟨idle, rfl⟩
  | vowel v =>
    cases o with
    | idle => exact ⟨idle, rfl⟩
    | bare i => exact ⟨idle, rfl⟩
    | syllable s =>
      rw [next]
      split
      · cases join s.medial v with
        | none => exact ⟨syllable s, rfl⟩
        | some m => exact ⟨idle, rfl⟩
      · exact ⟨syllable _, rfl⟩

theorem Open.wide_run (o : Open) (ks : List Key) : ∀ c ∈ (o.run ks).1, Wide c := by
  induction ks generalizing o with
  | nil => exact fun c hc => absurd hc List.not_mem_nil
  | cons k ks ih =>
    intro c hc
    rw [run_cons] at hc
    rcases List.mem_append.mp hc with h | h
    · obtain ⟨o', ho'⟩ := o.next_text k
      exact o'.wide_text c (ho' ▸ h)
    · exact ih _ c h

/-- A character where there is room. -/
theorem emit_eq {c : Char} (hc : Wide c) {buf : List UInt8} {maxlen : UInt32}
    (h : buf.length + 3 ≤ maxlen.toNat) :
    ko_emit_utf8 buf maxlen (some c.toNat) = buf ++ String.utf8EncodeChar c := by
  obtain ⟨hlo, hhi⟩ := hc
  have hmax := maxlen.toNat_lt
  have hroom : ¬buf.length.toUInt32 + 3 > maxlen := by
    rw [gt_iff_lt, UInt32.lt_iff_toNat_lt, UInt32.toNat_add, Nat.toUInt32_eq, UInt32.toNat_ofNat']
    have hthree : (3 : UInt32).toNat = 3 := rfl
    omega
  have htop : ∀ x < 16, 0xE0 ||| x = x + 0xE0 := by decide
  have htail : ∀ x < 64, 0x80 ||| x = x + 0x80 := by decide
  have hmod (x : Nat) : x &&& 0x3F = x % 64 := Nat.and_two_pow_sub_one_eq_mod x 6
  unfold String.utf8EncodeChar ko_emit_utf8
  dsimp only
  rw [if_neg hroom, if_neg (by show ¬c.toNat ≤ _; omega), if_neg (by show ¬c.toNat ≤ _; omega),
    if_pos (by show c.toNat ≤ _; omega), hmod, hmod, Nat.shiftRight_eq_div_pow,
    Nat.shiftRight_eq_div_pow, htop _ (by omega), htail _ (Nat.mod_lt _ (by decide)),
    htail _ (Nat.mod_lt _ (by decide))]
  have hdiv : c.toNat / 2 ^ 12 = c.toNat / 4096 % 16 := by omega
  rw [hdiv]
  rfl

/-- **All of them** where there is room for all of them. -/
theorem emitAll_eq {cs : List Char} (hcs : ∀ c ∈ cs, Wide c) {buf : List UInt8} {maxlen : UInt32}
    (h : buf.length + 3 * cs.length ≤ maxlen.toNat) :
    emitAll maxlen buf cs = buf ++ cs.flatMap String.utf8EncodeChar := by
  induction cs generalizing buf with
  | nil => exact (List.append_nil _).symm
  | cons c cs ih =>
    have hc := hcs c List.mem_cons_self
    have hlen : (String.utf8EncodeChar c).length = 3 := by
      unfold String.utf8EncodeChar
      rw [if_neg (by have := hc.1; show ¬c.toNat ≤ _; omega),
        if_neg (by have := hc.1; show ¬c.toNat ≤ _; omega),
        if_pos (by have := hc.2; show c.toNat ≤ _; omega)]
      rfl
    rw [List.length_cons] at h
    show emitAll maxlen (ko_emit_utf8 buf maxlen (some c.toNat)) cs = _
    rw [emit_eq hc (by omega), ih (fun d hd => hcs d (List.mem_cons_of_mem c hd)) (by
      rw [List.length_append, hlen]
      omega), List.append_assoc, List.flatMap_cons]

/-! ## Typing -/

/-- **Typing.** The keys of any syllables give just these syllables when a key comes that is none of
Hangul, and whatever is typed, the characters written and the one shown spell it. -/
theorem hangul_typing :
    (∀ (text : List Syllable) (buf : List UInt8) (maxlen : UInt32) (c : Char),
      (∀ k : Key, k.letter ≠ c) → buf.length + 3 * text.length ≤ maxlen.toNat →
      let st := feedKeys ko_ime_reset ((text.flatMap Syllable.keys).map Key.letter) buf maxlen
      ko_ime_feed_key st.1 c st.2 maxlen
        = ((ko_ime_reset, buf ++ text.flatMap fun s => String.utf8EncodeChar s.char), false))
    ∧ ∀ keys : List Key, ∃ chars : List Char, ∀ (buf : List UInt8) (maxlen : UInt32),
      let st := feedKeys ko_ime_reset (keys.map Key.letter) buf maxlen
      Fills keys (chars.flatMap spell
          ++ (ko_ime_preview_codepoint st.1).elim [] fun cp => spell (Char.ofNat cp))
        ∧ (buf.length + 3 * chars.length ≤ maxlen.toNat →
          st.2 = buf ++ chars.flatMap String.utf8EncodeChar) := by
  constructor
  · intro text buf maxlen c hc hroom
    dsimp only
    have htext := Open.run_text (o := .idle) (fun i h => Open.noConfusion h) text
    have hwide : ∀ d ∈ text.map Syllable.char, Wide d := by
      intro d hd
      obtain ⟨s, -, rfl⟩ := List.mem_map.mp hd
      exact Open.wide_text (.syllable s) _ (List.mem_singleton_self _)
    rw [show ko_ime_reset = Open.idle.ime from rfl, feedKeys_eq, ko_ime_feed_key,
      (letter_other hc).1, (letter_other hc).2]
    rw [commit_eq, ← emitAll_append, htext]
    refine congrArg (fun b => ((ko_ime_reset, b), false)) ?_
    rw [show Open.idle.text = [] from rfl, List.nil_append, emitAll_eq hwide (by
      rw [List.length_map]
      exact hroom), List.flatMap_map]
  · intro keys
    obtain ⟨ls, hfills, hls⟩ := Open.run_keys .idle keys
    refine ⟨(Open.idle.run keys).1, fun buf maxlen => ?_⟩
    rw [show ko_ime_reset = Open.idle.ime from rfl, feedKeys_eq]
    dsimp only
    rw [preview_eq]
    refine ⟨?_, emitAll_eq (Open.idle.wide_run keys)⟩
    have hopen (o : Open) : ((o.text.map Char.toNat).head?.elim [] fun cp => spell (Char.ofNat cp))
        = o.keys := by
      cases o with
      | idle => rfl
      | bare i =>
        show spell (Char.ofNat (jamo i).toNat) = _
        rw [Char.ofNat_toNat, spell_jamo]
        rfl
      | syllable s =>
        show spell (Char.ofNat s.char.toNat) = _
        rw [Char.ofNat_toNat, spell_char]
        rfl
    rw [hopen, hls]
    exact hfills

/-- 한글, typed with a space behind it. -/
theorem hangul_typing_hangul :
    let text : List Syllable := [⟨18, 0, 4⟩, ⟨0, 18, 8⟩]
    let st := feedKeys ko_ime_reset ((text.flatMap Syllable.keys).map Key.letter) [] 6
    ko_ime_feed_key st.1 ' ' st.2 6
      = ((ko_ime_reset, [0xED, 0x95, 0x9C, 0xEA, 0xB8, 0x80]), false) := by
  have hspace : ∀ k : Key, k.letter ≠ ' ' := by
    intro k
    cases k with
    | consonant i => revert i; decide
    | vowel v => revert v; decide
  exact (hangul_typing.1 [⟨18, 0, 4⟩, ⟨0, 18, 8⟩] [] 6 ' ' hspace (by decide)).trans (by decide)

end HangulIme
