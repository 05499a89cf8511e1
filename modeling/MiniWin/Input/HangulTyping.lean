import MiniWin.Input.HangulIme
import Mathlib.Data.Fintype.Card

/-!
# Typing Hangul

What is typed for a syllable, by the two-set keyboard: one key for the initial, one or two for the
vowel and none, one or two for the final. The machine that keeps the last syllable open is stated in
terms of these keys alone; the method does what it does, and the machine neither loses a key nor
makes one up, but for the silent initial of a vowel that has none.
-/

namespace HangulIme

/-- The nineteen keys of consonants and the fourteen of vowels. -/
inductive Key
  | consonant (i : Fin 19)
  | vowel (v : Fin 14)
  deriving DecidableEq

def consonantLetters : List Char :=
  ['r', 'R', 's', 'e', 'E', 'f', 'a', 'q', 'Q', 't', 'T', 'd', 'w', 'W', 'c', 'z', 'x', 'v', 'g']

def vowelLetters : List Char :=
  ['k', 'o', 'i', 'O', 'j', 'p', 'u', 'P', 'h', 'y', 'n', 'b', 'm', 'l']

def Key.letter : Key → Char
  | .consonant i => consonantLetters.getD i 'r'
  | .vowel v => vowelLetters.getD v 'k'

/-- The keys of the vowels: ㅘ is ㅗ and ㅏ. -/
def medialKeys (m : Fin 21) : List (Fin 14) :=
  [[0], [1], [2], [3], [4], [5], [6], [7], [8], [8, 0], [8, 1], [8, 13], [9], [10], [10, 4],
   [10, 5], [10, 13], [11], [12], [12, 13], [13]].getD m []

/-- The keys of the finals, of which the first is none: ㄳ is ㄱ and ㅅ. -/
def finalKeys (f : Fin 28) : List (Fin 19) :=
  [[], [0], [1], [0, 9], [2], [2, 12], [2, 18], [3], [5], [5, 0], [5, 6], [5, 7], [5, 9], [5, 16],
   [5, 17], [5, 18], [6], [7], [7, 9], [9], [10], [11], [12], [14], [15], [16], [17], [18]].getD f []

@[simp] theorem finalKeys_zero : finalKeys 0 = [] := rfl

/-- A syllable of modern Hangul. -/
structure Syllable where
  initial : Fin 19
  medial : Fin 21
  final : Fin 28
  deriving DecidableEq

namespace Syllable

def code (s : Syllable) : Nat := 0xAC00 + (s.initial * 21 + s.medial) * 28 + s.final

def char (s : Syllable) : Char := Char.ofNat s.code

/-- What is typed for the syllable. -/
def keys (s : Syllable) : List Key :=
  .consonant s.initial :: ((medialKeys s.medial).map .vowel
    ++ (finalKeys s.final).map .consonant)

/-- The syllable of a character. -/
def ofChar (c : Char) : Option Syllable :=
  if h : 0xAC00 ≤ c.toNat ∧ c.toNat < 0xAC00 + 11172 then
    some ⟨⟨(c.toNat - 0xAC00) / 588, by omega⟩, ⟨(c.toNat - 0xAC00) / 28 % 21, by omega⟩,
      ⟨(c.toNat - 0xAC00) % 28, by omega⟩⟩
  else none

end Syllable

/-- A consonant on its own. -/
def jamo (i : Fin 19) : Char := Char.ofNat (ko_jamo_cp_for_initial.getD i 0)

/-- The keys of a character. -/
def spell (c : Char) : List Key :=
  match Syllable.ofChar c with
  | some s => s.keys
  | none => ((List.finRange 19).filter (jamo · = c)).map .consonant

/-- The second row of keys is the first, with silent initials in front of vowels. -/
inductive Fills : List Key → List Key → Prop
  | nil : Fills [] []
  | key (k : Key) {ks ls : List Key} : Fills ks ls → Fills (k :: ks) (k :: ls)
  | silent (v : Fin 14) {ks ls : List Key} :
      Fills ks ls → Fills (.vowel v :: ks) (.consonant 11 :: .vowel v :: ls)

/-! ## The machine -/

/-- The final with one more consonant. -/
def attach (f : Fin 28) (c : Fin 19) : Option (Fin 28) :=
  (List.finRange 28).find? fun g => finalKeys g = finalKeys f ++ [c]

/-- The vowel with one more. -/
def join (m : Fin 21) (v : Fin 14) : Option (Fin 21) :=
  (List.finRange 21).find? fun n => medialKeys n = medialKeys m ++ [v]

/-- The vowel of one key. -/
def simple (v : Fin 14) : Fin 21 :=
  ((List.finRange 21).find? fun n => medialKeys n = [v]).getD 0

/-- A final without its last consonant, and the consonant. -/
def split (g : Fin 28) : Fin 28 × Fin 19 :=
  (((List.finRange 28).find? fun f => finalKeys f = (finalKeys g).dropLast).getD 0,
    (finalKeys g).getLast?.getD 0)

/-- What is open. -/
inductive Open
  | idle
  | bare (i : Fin 19)
  | syllable (s : Syllable)

namespace Open

/-- The character that it is. -/
def text : Open → List Char
  | idle => []
  | bare i => [jamo i]
  | syllable s => [s.char]

/-- The keys that it was made of. -/
def keys : Open → List Key
  | idle => []
  | bare i => [.consonant i]
  | syllable s => s.keys

/-- One key: the characters that are finished with it, and what is open then. -/
def next : Open → Key → List Char × Open
  | idle, .consonant c => ([], bare c)
  | bare i, .consonant c => ([jamo i], bare c)
  | syllable s, .consonant c =>
    match attach s.final c with
    | some g => ([], syllable { s with final := g })
    | none => ([s.char], bare c)
  | idle, .vowel v => ([], syllable ⟨11, simple v, 0⟩)
  | bare i, .vowel v => ([], syllable ⟨i, simple v, 0⟩)
  | syllable s, .vowel v =>
    if s.final = 0 then
      match join s.medial v with
      | some m => ([], syllable { s with medial := m })
      | none => ([s.char], syllable ⟨11, simple v, 0⟩)
    else
      ([{ s with final := (split s.final).1 }.char], syllable ⟨(split s.final).2, simple v, 0⟩)

/-- Keys, one after another. -/
def run (o : Open) : List Key → List Char × Open
  | [] => ([], o)
  | k :: ks => ((o.next k).1 ++ ((o.next k).2.run ks).1, ((o.next k).2.run ks).2)

@[simp] theorem run_nil (o : Open) : o.run [] = ([], o) := rfl

theorem run_cons (o : Open) (k : Key) (ks : List Key) :
    o.run (k :: ks) = ((o.next k).1 ++ ((o.next k).2.run ks).1, ((o.next k).2.run ks).2) := rfl

theorem run_append (o : Open) (ks ls : List Key) :
    o.run (ks ++ ls) = ((o.run ks).1 ++ ((o.run ks).2.run ls).1, ((o.run ks).2.run ls).2) := by
  induction ks generalizing o with
  | nil => rfl
  | cons k ks ih => rw [List.cons_append, run_cons, run_cons, ih, List.append_assoc]

end Open

/-! ## The tables -/

theorem attach_keys : ∀ (f : Fin 28) (c : Fin 19), ∀ g ∈ attach f c,
    finalKeys g = finalKeys f ++ [c] := by
  intro f c g hg
  simpa using List.find?_some hg

theorem join_keys : ∀ (m : Fin 21) (v : Fin 14), ∀ n ∈ join m v,
    medialKeys n = medialKeys m ++ [v] := by
  intro m v n hn
  simpa using List.find?_some hn

/-- What the keys of the letters say of each other. -/
theorem letter_keys :
    (∀ f g : Fin 28, finalKeys f = finalKeys g → f = g)
    ∧ (∀ f : Fin 28, f = 0 ∨ (finalKeys f).length = 1 ∨ (finalKeys f).length = 2
      ∧ (finalKeys f).dropLast ∈ (List.finRange 28).map finalKeys)
    ∧ (∀ m n : Fin 21, medialKeys m = medialKeys n → m = n)
    ∧ (∀ m : Fin 21, (medialKeys m).length = 1 ∨ (medialKeys m).length = 2)
    ∧ (∀ v : Fin 14, medialKeys (simple v) = [v])
    ∧ ∀ i : Fin 19, spell (jamo i) = [.consonant i] := by
  decide +kernel

theorem simple_keys : ∀ v : Fin 14, medialKeys (simple v) = [v] :=
  letter_keys.2.2.2.2.1

/-- The only one that is as it is asked for is the one that is found. -/
theorem find_of_unique {n : Nat} {p : Fin n → Bool} {i : Fin n} (hi : p i = true)
    (hall : ∀ j, p j = true → j = i) : (List.finRange n).find? p = some i := by
  cases hfind : (List.finRange n).find? p with
  | none => exact absurd hi (List.find?_eq_none.mp hfind i (List.mem_finRange i))
  | some j => rw [hall j (List.find?_some hfind)]

theorem attach_of_keys {f g : Fin 28} {c : Fin 19} (h : finalKeys g = finalKeys f ++ [c]) :
    attach f c = some g :=
  find_of_unique (decide_eq_true h) fun j hj =>
    letter_keys.1 j g ((of_decide_eq_true hj).trans h.symm)

theorem join_of_keys {m n : Fin 21} {v : Fin 14} (h : medialKeys n = medialKeys m ++ [v]) :
    join m v = some n :=
  find_of_unique (decide_eq_true h) fun j hj =>
    letter_keys.2.2.1 j n ((of_decide_eq_true hj).trans h.symm)

/-- One or two keys make the vowel. -/
theorem medial_cases (m : Fin 21) : (∃ v, medialKeys m = [v] ∧ simple v = m)
    ∨ ∃ v w, medialKeys m = [v, w] ∧ join (simple v) w = some m := by
  rcases letter_keys.2.2.2.1 m with hone | htwo
  · obtain ⟨v, hv⟩ := List.length_eq_one_iff.mp hone
    exact .inl ⟨v, hv, letter_keys.2.2.1 _ _ ((simple_keys v).trans hv.symm)⟩
  · obtain ⟨v, w, hvw⟩ := List.length_eq_two.mp htwo
    refine .inr ⟨v, w, hvw, join_of_keys ?_⟩
    rw [hvw, simple_keys]
    rfl

/-- None, one or two make the final. -/
theorem final_cases (f : Fin 28) : (f = 0 ∧ finalKeys f = [])
    ∨ (∃ a, finalKeys f = [a] ∧ attach 0 a = some f)
    ∨ ∃ a b g, finalKeys f = [a, b] ∧ attach 0 a = some g ∧ attach g b = some f := by
  rcases letter_keys.2.1 f with rfl | hone | ⟨htwo, hfirst⟩
  · exact .inl ⟨rfl, rfl⟩
  · obtain ⟨a, ha⟩ := List.length_eq_one_iff.mp hone
    exact .inr (.inl ⟨a, ha, attach_of_keys ha⟩)
  · obtain ⟨a, b, hab⟩ := List.length_eq_two.mp htwo
    obtain ⟨g, -, hg⟩ := List.mem_map.mp hfirst
    rw [hab] at hg
    refine .inr (.inr ⟨a, b, g, hab, attach_of_keys hg, attach_of_keys ?_⟩)
    rw [hab, hg]
    rfl

/-- A final without its last consonant is a final. -/
theorem split_of_keys {f g : Fin 28} {c : Fin 19} (h : finalKeys g = finalKeys f ++ [c]) :
    split g = (f, c) := by
  have hfind : ((List.finRange 28).find? fun j => finalKeys j = (finalKeys g).dropLast) = some f :=
    find_of_unique (by simp [h]) fun j hj => letter_keys.1 j f (by simpa [h] using hj)
  rw [split, hfind, h, List.getLast?_concat]
  rfl

/-- What was attached is what is handed back. -/
theorem split_attach (f : Fin 28) (c : Fin 19) : ∀ g ∈ attach f c, g ≠ 0 ∧ split g = (f, c) := by
  intro g hg
  have hkeys := attach_keys f c g hg
  refine ⟨?_, split_of_keys hkeys⟩
  rintro rfl
  exact List.cons_ne_nil _ _ (List.append_eq_nil_iff.mp hkeys.symm).2

theorem split_keys : ∀ g : Fin 28, g ≠ 0 →
    finalKeys g = finalKeys (split g).1 ++ [(split g).2] := by
  intro g hg
  rcases final_cases g with h | ⟨a, ha, -⟩ | ⟨a, b, f, hab, hf, -⟩
  · exact absurd h.1 hg
  · rw [split_of_keys (f := 0) ha, ha]
    rfl
  · have hkeys : finalKeys g = finalKeys f ++ [b] := by
      rw [attach_keys _ _ _ hf, hab]
      rfl
    rw [split_of_keys hkeys, hkeys]

/-! ## No key is lost and none is made up -/

theorem Fills.refl (ks : List Key) : Fills ks ks := by
  induction ks with
  | nil => exact .nil
  | cons k ks ih => exact .key k ih

theorem Fills.append {ks ls ks' ls' : List Key} (h : Fills ks ls) (h' : Fills ks' ls') :
    Fills (ks ++ ks') (ls ++ ls') := by
  induction h with
  | nil => exact h'
  | key k _ ih => exact .key k ih
  | silent v _ ih => exact .silent v ih

theorem Syllable.code_bounds (s : Syllable) : 0xAC00 ≤ s.code ∧ s.code < 0xAC00 + 11172 := by
  obtain ⟨i, m, f⟩ := s
  unfold code
  omega

theorem Syllable.toNat_char (s : Syllable) : s.char.toNat = s.code := by
  have hvalid : s.code.isValidChar := .inl (Nat.lt_trans s.code_bounds.2 (by decide))
  rw [char, Char.ofNat, dif_pos hvalid]
  rfl

theorem Syllable.ofChar_char (s : Syllable) : ofChar s.char = some s := by
  have hb := s.code_bounds
  rw [← s.toNat_char] at hb
  rw [ofChar, dif_pos hb]
  obtain ⟨i, m, f⟩ := s
  have hcode : (Syllable.mk i m f).char.toNat = 0xAC00 + (i * 21 + m) * 28 + f := toNat_char _
  simp only [hcode, Option.some.injEq, Syllable.mk.injEq, Fin.ext_iff]
  omega

@[simp] theorem spell_char (s : Syllable) : spell s.char = s.keys := by
  rw [spell, s.ofChar_char]

@[simp] theorem spell_jamo : ∀ i : Fin 19, spell (jamo i) = [.consonant i] :=
  letter_keys.2.2.2.2.2

/-- **One key.** -/
theorem Open.next_keys (o : Open) (k : Key) :
    ∃ ls, Fills [k] ls ∧ (o.next k).1.flatMap spell ++ (o.next k).2.keys = o.keys ++ ls := by
  have hkey := Fills.refl [k]
  cases k with
  | consonant c =>
    cases o with
    | idle => exact ⟨_, hkey, rfl⟩
    | bare i => exact ⟨_, hkey, by simp [next, keys]⟩
    | syllable s =>
      refine ⟨_, hkey, ?_⟩
      rw [next]
      cases hg : attach s.final c with
      | none => simp [keys]
      | some g => simp [keys, Syllable.keys, attach_keys _ _ g hg]
  | vowel v =>
    have hsilent := Fills.silent v .nil
    cases o with
    | idle => exact ⟨_, hsilent, by simp [next, keys, Syllable.keys, simple_keys]⟩
    | bare i => exact ⟨_, hkey, by simp [next, keys, Syllable.keys, simple_keys]⟩
    | syllable s =>
      rw [next]
      split
      · next hf =>
        cases hm : join s.medial v with
        | none => exact ⟨_, hsilent, by simp [keys, Syllable.keys, simple_keys]⟩
        | some m =>
          refine ⟨_, hkey, ?_⟩
          simp [keys, Syllable.keys, join_keys _ _ m hm, hf]
      · next hf =>
        refine ⟨_, hkey, ?_⟩
        simp [keys, Syllable.keys, simple_keys, split_keys _ hf]

/-- **Any keys.** -/
theorem Open.run_keys (o : Open) (ks : List Key) :
    ∃ ls, Fills ks ls ∧ (o.run ks).1.flatMap spell ++ (o.run ks).2.keys = o.keys ++ ls := by
  induction ks generalizing o with
  | nil => exact ⟨[], .nil, (List.append_nil _).symm⟩
  | cons k ks ih =>
    obtain ⟨ls, hls, hnext⟩ := o.next_keys k
    obtain ⟨ls', hls', hrun⟩ := ih (o.next k).2
    refine ⟨ls ++ ls', hls.append hls', ?_⟩
    rw [run_cons, List.flatMap_append, List.append_assoc, hrun, ← List.append_assoc, hnext,
      List.append_assoc]

/-! ## A syllable comes out as it was meant -/

/-- The initial and the first key of the vowel close the syllable in front. -/
theorem Open.run_start {o : Open} (ho : ∀ i, o ≠ bare i) (i : Fin 19) (v : Fin 14) :
    o.run [.consonant i, .vowel v] = (o.text, syllable ⟨i, simple v, 0⟩) := by
  cases o with
  | idle => rfl
  | bare j => exact absurd rfl (ho j)
  | syllable s =>
    rw [run_cons, next]
    cases hg : attach s.final i with
    | none => rfl
    | some g =>
      obtain ⟨hne, hsplit⟩ := split_attach _ _ g hg
      rw [run_cons, next]
      rw [if_neg hne, hsplit]
      rfl

theorem Open.run_medial (i : Fin 19) (m : Fin 21) :
    ∃ v vs, medialKeys m = v :: vs
      ∧ (syllable ⟨i, simple v, 0⟩).run (vs.map .vowel) = ([], syllable ⟨i, m, 0⟩) := by
  rcases medial_cases m with ⟨v, hkeys, rfl⟩ | ⟨v, w, hkeys, hjoin⟩
  · exact ⟨v, [], hkeys, rfl⟩
  · refine ⟨v, [w], hkeys, ?_⟩
    rw [List.map_singleton, run_cons, next]
    rw [if_pos rfl, hjoin]
    rfl

theorem Open.run_final (i : Fin 19) (m : Fin 21) (f : Fin 28) :
    (syllable ⟨i, m, 0⟩).run ((finalKeys f).map .consonant) = ([], syllable ⟨i, m, f⟩) := by
  rcases final_cases f with ⟨rfl, hkeys⟩ | ⟨a, hkeys, ha⟩ | ⟨a, b, g, hkeys, ha, hb⟩
  · rfl
  · rw [hkeys, List.map_singleton, run_cons, next]
    rw [ha]
    rfl
  · rw [hkeys, List.map_cons, List.map_singleton, run_cons, next]
    rw [ha]
    rw [run_cons, next]
    rw [hb]
    rfl

/-- **One syllable.** -/
theorem Open.run_syllable {o : Open} (ho : ∀ i, o ≠ bare i) (s : Syllable) :
    o.run s.keys = (o.text, syllable s) := by
  obtain ⟨i, m, f⟩ := s
  obtain ⟨v, vs, hkeys, hmedial⟩ := run_medial i m
  have hsplit : Syllable.keys ⟨i, m, f⟩ = [.consonant i, .vowel v] ++ (vs.map .vowel
      ++ (finalKeys f).map .consonant) := by
    rw [Syllable.keys, hkeys]
    rfl
  rw [hsplit, run_append, run_start ho, run_append, hmedial, run_final]
  simp

/-- **Any number of them.** -/
theorem Open.run_text {o : Open} (ho : ∀ i, o ≠ bare i) (text : List Syllable) :
    (o.run (text.flatMap Syllable.keys)).1 ++ (o.run (text.flatMap Syllable.keys)).2.text
      = o.text ++ text.map Syllable.char := by
  induction text generalizing o with
  | nil => simp
  | cons s text ih =>
    rw [List.flatMap_cons, run_append, run_syllable ho]
    rw [List.append_assoc, ih (fun i h => Open.noConfusion h)]
    rfl

end HangulIme
