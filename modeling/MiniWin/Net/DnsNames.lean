import MiniWin.Lib.Walk
import MiniWin.Lib.WireName
import MiniWin.Net.Dns
import Mathlib.Data.List.TakeWhile

/-!
# DNS: names

The three functions of `kernel/dns.h` that read names, against what a name on the wire is. They
read it right unless a label runs past the last 16-bit offset; and two names compare as they
should unless one has a label with a `0` in it, where the comparison of C strings stops.
-/

namespace Dns

open Net WireName Walk

section
variable {data : Block} {len p q e k : Nat} {ls : List (List UInt8)} {out : List UInt8}

/-! ## Bytes -/

theorem byte_cases (b : UInt8) : (isPointer b = true ↔ 192 ≤ b.toNat)
    ∧ (b &&& 0xC0 = 0 ↔ b.toNat < 64) ∧ (b &&& 0x3F).toNat = b.toNat % 64 := by
  have hall : ∀ n < 256, (isPointer (UInt8.ofNat n) = true ↔ 192 ≤ n)
      ∧ (UInt8.ofNat n &&& 0xC0 = 0 ↔ n < 64) ∧ (UInt8.ofNat n &&& 0x3F).toNat = n % 64 := by
    decide +kernel
  have h := hall b.toNat b.toNat_lt
  rw [UInt8.ofNat_toNat] at h
  exact h

theorem lower_byte (b : UInt8) : lower (lower b) = lower b
    ∧ (lower b = '.'.toUInt8 ↔ b = '.'.toUInt8) ∧ (lower b = 0 ↔ b = 0) := by
  have hall : ∀ n < 256, lower (lower (UInt8.ofNat n)) = lower (UInt8.ofNat n)
      ∧ (lower (UInt8.ofNat n) = '.'.toUInt8 ↔ UInt8.ofNat n = '.'.toUInt8)
      ∧ (lower (UInt8.ofNat n) = 0 ↔ UInt8.ofNat n = 0) := by
    decide +kernel
  have h := hall b.toNat b.toNat_lt
  rw [UInt8.ofNat_toNat] at h
  exact h

/-! ## `dns_decode_name` -/

/-- A label begins at `p`. -/
def IsLabel (data : Block) (len p : Nat) : Prop := p < len ∧ data p ≠ 0 ∧ (data p).toNat < 64

/-- The step of `dns_decode_name` from label to label. -/
def nameStep (data : Block) (len p : Nat) : Option Nat :=
  if isPointer (data p) then
    if p + 1 < len ∧ target data p < p then some (target data p) else none
  else if p < len ∧ data p ≠ 0 ∧ (data p).toNat < 64
      ∧ (p + 1 + (data p).toNat) % 2 ^ 16 ≤ len then
    some ((p + 1 + (data p).toNat) % 2 ^ 16)
  else none

/-- **The name at `p` is clean**: no label on the way runs past the last offset, and none holds a
`0`. -/
structure CleanName (data : Block) (len p : Nat) : Prop where
  fits : ∀ q, Leads (nameStep data len) p q → IsLabel data len q →
    q + 1 + (data q).toNat < 2 ^ 16
  nonzero : ∀ q, Leads (nameStep data len) p q → IsLabel data len q →
    ∀ i < (data q).toNat, data (q + 1 + i) ≠ 0

theorem CleanName.step (h : CleanName data len p) (hs : nameStep data len p = some q) :
    CleanName data len q :=
  ⟨fun r hr => h.fits r (.head hs hr), fun r hr => h.nonzero r (.head hs hr)⟩

/-- A name is clean that is clean from its first step on. -/
theorem CleanName.intro (hfit : IsLabel data len p → p + 1 + (data p).toNat < 2 ^ 16)
    (hnz : IsLabel data len p → ∀ i < (data p).toNat, data (p + 1 + i) ≠ 0)
    (hstep : ∀ q, nameStep data len p = some q → CleanName data len q) : CleanName data len p := by
  refine ⟨fun q hq => ?_, fun q hq => ?_⟩
  all_goals
    rcases hq.cases_head with rfl | ⟨q', hq', hrest⟩
  · exact hfit
  · exact (hstep q' hq').fits q hrest
  · exact hnz
  · exact (hstep q' hq').nonzero q hrest

theorem nameStep_label (h : IsLabel data len p) (hfit : p + 1 + (data p).toNat ≤ len)
    (hlen : len < 2 ^ 16) : nameStep data len p = some (p + 1 + (data p).toNat) := by
  have hp := (byte_cases (data p)).1
  obtain ⟨hlt, hne, h64⟩ := h
  unfold nameStep
  rw [if_neg (by rw [hp]; omega), Nat.mod_eq_of_lt (by omega), if_pos ⟨hlt, hne, h64, hfit⟩]

theorem nameStep_pointer (hp : p + 1 < len) (hb : 192 ≤ (data p).toNat) (hback : target data p < p) :
    nameStep data len p = some (target data p) := by
  unfold nameStep
  rw [if_pos ((byte_cases (data p)).1.mpr hb), if_pos ⟨hp, hback⟩]

/-- The text so far with more labels behind it. -/
def joined (out : List UInt8) (ls : List (List UInt8)) : List UInt8 :=
  ls.foldl (fun out l => (if out ≠ [] then out ++ ['.'.toUInt8] else out) ++ l.map lower) out

/-- The text of a name, in lower case. -/
def nameText (ls : List (List UInt8)) : List UInt8 := dotted '.'.toUInt8 (ls.map (·.map lower))

theorem joined_cons (out l : List UInt8) (ls : List (List UInt8)) : joined out (l :: ls)
    = joined ((if out ≠ [] then out ++ ['.'.toUInt8] else out) ++ l.map lower) ls := rfl

theorem joined_of_ne (hne : out ≠ []) :
    joined out ls = out ++ (ls.map (·.map lower)).flatMap ('.'.toUInt8 :: ·) := by
  induction ls generalizing out with
  | nil => simp [joined]
  | cons l ls ih =>
    rw [joined_cons, if_pos hne, ih (by simp)]
    simp

theorem joined_nil (hls : ∀ l ∈ ls, l ≠ []) : joined [] ls = nameText ls := by
  cases ls with
  | nil => rfl
  | cons l ls =>
    have hl : l.map lower ≠ [] := by
      rw [ne_eq, List.map_eq_nil_iff]
      exact hls l List.mem_cons_self
    rw [joined_cons, if_neg (not_not.mpr rfl), List.nil_append, joined_of_ne hl]
    unfold nameText
    rw [List.map_cons, dotted_cons]

theorem length_le_joined (out : List UInt8) (ls : List (List UInt8)) :
    out.length ≤ (joined out ls).length := by
  induction ls generalizing out with
  | nil => exact Nat.le_refl _
  | cons l ls ih =>
    rw [joined_cons]
    refine Nat.le_trans ?_ (ih _)
    split <;> simp only [List.length_append] <;> omega

theorem NameAt.ne_nil (h : NameAt data len k p ls) : ∀ l ∈ ls, l ≠ [] := by
  induction h with
  | root => exact fun l hl => absurd hl List.not_mem_nil
  | label hb _ _ _ ih =>
    intro l hl
    rcases List.mem_cons.mp hl with rfl | hl
    · intro hnil
      have hlen := congrArg List.length hnil
      rw [Block.length_slice] at hlen
      exact hb (UInt8.toNat_inj.mp hlen)
    · exact ih l hl
  | pointer _ _ _ _ ih => exact ih

/-- **A name is decoded to its text.** -/
theorem decodeFrom_of_name {cap : Nat} (hlen : len < 2 ^ 16) (h : NameAt data len k p ls) :
    ∀ (fuel hops : Nat) (out : List UInt8), hops + k ≤ 16 → (joined out ls).length < cap →
      16 - hops + (cap - out.length) + 1 ≤ fuel →
      decodeFrom data len cap fuel hops p out = some (joined out ls) := by
  induction h with
  | root hp hb =>
    intro fuel hops out _ _ hfuel
    obtain ⟨fuel, rfl⟩ : ∃ f, fuel = f + 1 := ⟨fuel - 1, by omega⟩
    unfold decodeFrom
    rw [if_neg (by omega), hb]
    rfl
  | @label k p ls hb hlabel hfit _ ih =>
    intro fuel hops out hk hcap hfuel
    obtain ⟨fuel, rfl⟩ : ∃ f, fuel = f + 1 := ⟨fuel - 1, by omega⟩
    have hp := byte_cases (data p)
    have hlong := length_le_joined ((if out ≠ [] then out ++ ['.'.toUInt8] else out)
      ++ (data.slice (p + 1) (data p).toNat).map lower) ls
    rw [← joined_cons] at hlong
    rw [List.length_append, List.length_map, Block.length_slice] at hlong
    have hpos : 0 < (data p).toNat := by
      rw [Nat.pos_iff_ne_zero]
      exact fun hz => hb (UInt8.toNat_inj.mp hz)
    have hdot : out.length ≤ (if out ≠ [] then out ++ ['.'.toUInt8] else out).length := by
      split <;> simp
    unfold decodeFrom
    dsimp only
    rw [if_neg (by omega), if_neg (by rw [hp.1]; omega), if_neg (by rw [not_not, hp.2.1]; exact hlabel),
      if_neg hb, Nat.mod_eq_of_lt (by omega), if_neg (by omega), if_neg, if_neg (by omega), joined_cons]
    · refine ih fuel hops _ hk hcap ?_
      rw [List.length_append, List.length_map, Block.length_slice]
      omega
    · rintro ⟨hne, hge⟩
      rw [if_pos hne, List.length_append, List.length_singleton] at hlong
      omega
  | @pointer k p ls hp hb hback _ ih =>
    intro fuel hops out hk hcap hfuel
    obtain ⟨fuel, rfl⟩ : ∃ f, fuel = f + 1 := ⟨fuel - 1, by omega⟩
    have hbyte := byte_cases (data p)
    unfold decodeFrom
    dsimp only
    rw [if_neg (show ¬ p ≥ len by omega), if_pos (hbyte.1.mpr hb),
      if_neg (show ¬ p + 1 ≥ len by omega), hbyte.2.2,
      show (data p).toNat % 64 * 256 + (data (p + 1)).toNat = target data p from rfl,
      if_neg (show ¬ (target data p ≥ p ∨ hops + 1 > 16) by omega)]
    exact ih fuel (hops + 1) out (by omega) hcap (by omega)

/-- **What is decoded is a name.** -/
theorem name_of_decodeFrom {cap : Nat} (hlen : len < 2 ^ 16) :
    ∀ (fuel hops p : Nat) (out t : List UInt8), CleanName data len p →
      decodeFrom data len cap fuel hops p out = some t → hops ≤ 16 → out.length < cap →
      ∃ k ls, NameAt data len k p ls ∧ hops + k ≤ 16 ∧ t = joined out ls ∧ t.length < cap
  | 0, _, _, _, _, _, h, _, _ => nomatch h
  | fuel + 1, hops, p, out, t, hclean, h, hhops, hout => by
    have hbyte := byte_cases (data p)
    unfold decodeFrom at h
    dsimp only at h
    split at h
    · exact nomatch h
    next hp =>
    split at h
    · next hptr =>
      split at h
      · exact nomatch h
      next hp2 =>
      rw [hbyte.2.2,
        show (data p).toNat % 64 * 256 + (data (p + 1)).toNat = target data p from rfl] at h
      split at h
      · exact nomatch h
      next hback =>
      have hb := hbyte.1.mp hptr
      have hs := nameStep_pointer (show p + 1 < len by omega) hb (by omega)
      obtain ⟨k, ls, hname, hk, ht⟩ :=
        name_of_decodeFrom hlen fuel (hops + 1) _ out t (hclean.step hs) h (by omega) hout
      exact ⟨k + 1, ls, .pointer (by omega) hb (by omega) hname, by omega, ht⟩
    next hptr =>
    split at h
    · exact nomatch h
    next h64 =>
    rw [not_not, hbyte.2.1] at h64
    split at h
    · next hz =>
      obtain rfl := Option.some.inj h
      exact ⟨0, [], .root (by omega) hz, by omega, rfl, hout⟩
    next hne =>
    have hlabel : IsLabel data len p := ⟨by omega, hne, h64⟩
    have hfits := hclean.fits p .refl hlabel
    rw [Nat.mod_eq_of_lt hfits] at h
    generalize hdot : (if out ≠ [] then out ++ ['.'.toUInt8] else out) = out' at h
    split at h
    · exact nomatch h
    next hin =>
    split at h
    · exact nomatch h
    split at h
    · exact nomatch h
    next hcap =>
    have hs := nameStep_label hlabel (by omega) hlen
    obtain ⟨k, ls, hname, hk, ht, hlt⟩ :=
      name_of_decodeFrom hlen fuel hops _ _ t (hclean.step hs) h hhops (by
        rw [List.length_append, List.length_map, Block.length_slice]
        omega)
    refine ⟨k, _, .label hne h64 (by omega) hname, hk, ?_, hlt⟩
    rw [joined_cons, hdot]
    exact ht

/-- **A name that fits is decoded to this text**: at most 16 pointers, less than 256 bytes. -/
def Decodes (data : Block) (len p : Nat) (t : List UInt8) : Prop :=
  ∃ k ls, NameAt data len k p ls ∧ k ≤ 16 ∧ t = nameText ls ∧ t.length < 256

theorem decodeName_of_decodes (hlen : len < 2 ^ 16) {t : List UInt8} (h : Decodes data len p t) :
    decodeName data len p 256 = some t := by
  obtain ⟨k, ls, hname, hk, rfl, hlt⟩ := h
  rw [← joined_nil (NameAt.ne_nil hname)] at hlt ⊢
  exact decodeFrom_of_name hlen hname _ 0 [] (by omega) hlt (by simp)

theorem decodes_of_decodeName (hlen : len < 2 ^ 16) (hclean : CleanName data len p) {t : List UInt8}
    (h : decodeName data len p 256 = some t) : Decodes data len p t := by
  obtain ⟨k, ls, hname, hk, rfl, hlt⟩ :=
    name_of_decodeFrom hlen _ 0 p [] t hclean h (by omega) (by decide)
  rw [joined_nil (NameAt.ne_nil hname)] at hlt ⊢
  exact ⟨k, ls, hname, by omega, rfl, hlt⟩

theorem Decodes.unique (hlen : len < 2 ^ 16) {t t' : List UInt8} (h : Decodes data len p t)
    (h' : Decodes data len p t') : t = t' :=
  Option.some.inj ((decodeName_of_decodes hlen h).symm.trans (decodeName_of_decodes hlen h'))

/-- The text of a clean name holds no `0`, so its C string is all of it. -/
theorem cString_of_clean {t : List UInt8} (hlen : len < 2 ^ 16) (hclean : CleanName data len p)
    (h : Decodes data len p t) : 0 ∉ t ∧ cString t = t := by
  have hnone : 0 ∉ t := by
    obtain ⟨k, ls, hname, -, rfl, -⟩ := h
    have hlabels : ∀ l ∈ ls.map (·.map lower), 0 ∉ l := by
      induction hname with
      | root => exact fun l hl => absurd hl List.not_mem_nil
      | @label k p ls hb hlabel hfit _ ih =>
        have his : IsLabel data len p := ⟨by omega, hb, hlabel⟩
        intro l hl
        rw [List.map_cons] at hl
        rcases List.mem_cons.mp hl with rfl | hl
        · intro hz
          obtain ⟨b, hbmem, hbz⟩ := List.mem_map.mp hz
          obtain ⟨i, hi, rfl⟩ := List.mem_map.mp hbmem
          exact hclean.nonzero p .refl his i (List.mem_range.mp hi) ((lower_byte _).2.2.mp hbz)
        · exact ih (hclean.step (nameStep_label his hfit hlen)) l hl
      | pointer hp hb hback _ ih => exact ih (hclean.step (nameStep_pointer hp hb hback))
    unfold nameText
    cases hls : ls.map (·.map lower) with
    | nil => exact List.not_mem_nil
    | cons l ls' =>
      rw [hls] at hlabels
      rw [dotted_cons, List.mem_append, List.mem_flatMap]
      rintro (hl | ⟨l', hl', hz⟩)
      · exact hlabels l List.mem_cons_self hl
      · rcases List.mem_cons.mp hz with hdot | hz
        · exact absurd hdot (by decide)
        · exact hlabels l' (List.mem_cons_of_mem _ hl') hz
  refine ⟨hnone, List.takeWhile_eq_self_iff.mpr fun c hc => ?_⟩
  rw [decide_eq_true_eq]
  rintro rfl
  exact hnone hc

/-! ## `dns_skip_name` -/

/-- The step of `dns_skip_name`. -/
def skipStep (data : Block) (len p : Nat) : Option Nat :=
  if p < len ∧ isPointer (data p) = false ∧ data p ≠ 0 then
    some ((p + 1 + (data p).toNat) % 2 ^ 16)
  else none

/-- **Skipping the name at `p` is clean**: no label on the way runs past the last offset. -/
def CleanSkip (data : Block) (len p : Nat) : Prop :=
  ∀ q, Leads (skipStep data len) p q → q < len → isPointer (data q) = false → data q ≠ 0 →
    q + 1 + (data q).toNat < 2 ^ 16

theorem CleanSkip.intro (hfit : p + 1 + (data p).toNat < 2 ^ 16)
    (hstep : ∀ q, skipStep data len p = some q → CleanSkip data len q) :
    CleanSkip data len p := by
  intro q hq
  rcases hq.cases_head with rfl | ⟨q', hq', hrest⟩
  · exact fun _ _ _ => hfit
  · exact hstep q' hq' q hrest

theorem skipFrom_spec (offset : Nat) (hlen : len < 2 ^ 16) :
    ∀ (fuel p : Nat), CleanSkip data len p → offset ≤ p → p ≤ 2 ^ 16 → 2 ^ 16 < fuel + p →
      (skipFrom data len offset fuel p = some 0 ∧ ¬ ∃ e, Extent data len p e)
        ∨ ∃ e, Extent data len p e ∧ skipFrom data len offset fuel p = some (e - offset)
  | 0, p, _, _, hp, hfuel => by omega
  | fuel + 1, p, hclean, hle, _, hfuel => by
    have hbyte := (byte_cases (data p)).1
    have hsub : ∀ e, offset ≤ e → e ≤ len → (e + 2 ^ 16 - offset) % 2 ^ 16 = e - offset := by
      intro e h₁ h₂
      rw [show e + 2 ^ 16 - offset = e - offset + 2 ^ 16 by omega, Nat.add_mod_right]
      exact Nat.mod_eq_of_lt (by omega)
    unfold skipFrom
    by_cases hp : p < len
    swap
    · rw [if_neg hp]
      exact Or.inl ⟨rfl, fun ⟨e, he⟩ => hp (Nat.lt_of_lt_of_le he.bounds.1 he.bounds.2)⟩
    rw [if_pos hp]
    by_cases hptr : isPointer (data p) = true
    · rw [if_pos hptr]
      by_cases hin : p + 2 > len
      · rw [if_pos hin]
        refine Or.inl ⟨rfl, fun ⟨e, he⟩ => ?_⟩
        cases he with
        | root _ hb => rw [hb] at hptr; exact absurd hptr (by decide)
        | pointer => omega
        | label _ _ hb => exact absurd (hbyte.mp hptr) (by omega)
      · rw [if_neg hin, hsub _ (by omega) (by omega)]
        exact Or.inr ⟨p + 2, .pointer (by omega) (hbyte.mp hptr), rfl⟩
    rw [if_neg hptr]
    by_cases hz : data p = 0
    · rw [if_pos hz, hsub _ (by omega) (by omega)]
      exact Or.inr ⟨p + 1, .root hp hz, rfl⟩
    rw [if_neg hz]
    have hptr : isPointer (data p) = false := by simpa using hptr
    have hfits := hclean p .refl hp hptr hz
    have hs : skipStep data len p = some (p + 1 + (data p).toNat) := by
      unfold skipStep
      rw [if_pos ⟨hp, hptr, hz⟩, Nat.mod_eq_of_lt hfits]
    have hlt : (data p).toNat < 192 := by
      rw [← Nat.not_le, ← hbyte, hptr]
      decide
    rw [Nat.mod_eq_of_lt hfits]
    rcases skipFrom_spec offset hlen fuel (p + 1 + (data p).toNat) 
      (fun q hq => hclean q (.head hs hq)) (by omega) (by omega) (by omega) with ⟨heq, hno⟩ | ⟨e, he, heq⟩
    · refine Or.inl ⟨heq, fun ⟨e, he⟩ => hno ?_⟩
      cases he with
      | root _ hb => exact absurd hb hz
      | pointer _ hb => omega
      | label _ _ _ h => exact ⟨e, h⟩
    · exact Or.inr ⟨e, .label hp hz hlt he, heq⟩

/-- **What a name takes up is skipped**, or there is no end of it. -/
theorem skipName_spec (hlen : len < 2 ^ 16) (hclean : CleanSkip data len p) (hp : p ≤ len) :
    (skipName data len p = some 0 ∧ ¬ ∃ e, Extent data len p e)
      ∨ ∃ e, Extent data len p e ∧ skipName data len p = some (e - p) :=
  skipFrom_spec p hlen _ p hclean (Nat.le_refl _) (by omega) (by omega)

theorem Extent.unique {e' : Nat} (h : Extent data len p e) (h' : Extent data len p e') :
    e = e' := by
  induction h with
  | root hp hb =>
    cases h' with
    | root => rfl
    | pointer _ hb' => rw [hb] at hb'; exact absurd hb' (by decide)
    | label _ hb' => exact absurd hb hb'
  | pointer hp hb =>
    cases h' with
    | root _ hb' => rw [hb'] at hb; exact absurd hb (by decide)
    | pointer => rfl
    | label _ _ hb' => omega
  | label hp hb hlabel _ ih =>
    cases h' with
    | root _ hb' => exact absurd hb' hb
    | pointer _ hb' => omega
    | label _ _ _ h' => exact ih h'

/-! ## `dns_name_eq` -/

/-- **Two names are the same**: up to case, and up to one dot at the end of either. -/
def SameName (a b : List UInt8) : Prop :=
  a.map lower = b.map lower ∨ a.map lower = b.map lower ++ ['.'.toUInt8]
    ∨ a.map lower ++ ['.'.toUInt8] = b.map lower

theorem sameName_cons {a b : UInt8} {as bs : List UInt8} :
    SameName (a :: as) (b :: bs) ↔ lower a = lower b ∧ SameName as bs := by
  unfold SameName
  simp only [List.map_cons, List.cons_append, List.cons.injEq, ← and_or_left]

theorem ended_iff {s : List UInt8} (h : 0 ∉ s) : ended s = true ↔ s = [] ∨ s = ['.'.toUInt8] := by
  cases s with
  | nil => exact iff_of_true rfl (Or.inl rfl)
  | cons c cs =>
    have hc : c ≠ 0 := fun hz => h (hz ▸ List.mem_cons_self)
    cases cs with
    | nil => simp [ended, hc]
    | cons c' cs =>
      have hc' : c' ≠ 0 := fun hz => h (hz ▸ List.mem_cons_of_mem _ List.mem_cons_self)
      simp [ended, hc, hc']

theorem sameName_nil {s : List UInt8} : SameName [] s ↔ s = [] ∨ s = ['.'.toUInt8] := by
  unfold SameName
  cases s with
  | nil => simp
  | cons c cs =>
    have hdot : '.'.toUInt8 = lower c ↔ c = '.'.toUInt8 := by
      rw [eq_comm]
      exact (lower_byte c).2.1
    simp [hdot]

theorem SameName.symm {a b : List UInt8} (h : SameName a b) : SameName b a :=
  h.elim (fun h => Or.inl h.symm)
    fun h => h.elim (fun h => Or.inr (Or.inr h.symm)) fun h => Or.inr (Or.inl h.symm)

/-- **C strings compare as names do.** -/
theorem nameEq_iff : ∀ {a b : List UInt8}, 0 ∉ a → 0 ∉ b → (nameEq a b = true ↔ SameName a b)
  | [], b, _, hb => by
    have h : nameEq [] b = ended b := by cases b <;> rfl
    rw [h, ended_iff hb, sameName_nil]
  | a :: as, [], ha, _ => by
    have h : nameEq (a :: as) [] = ended (a :: as) := by
      rw [nameEq]
      · exact Bool.and_true _
      · exact fun _ _ _ _ _ h => nomatch h
    rw [h, ended_iff ha]
    exact sameName_nil.symm.trans ⟨SameName.symm, SameName.symm⟩
  | a :: as, b :: bs, ha, hb => by
    have ih := nameEq_iff (fun h => ha (List.mem_cons_of_mem _ h))
      (fun h => hb (List.mem_cons_of_mem _ h))
    rw [nameEq]
    split
    · next hend =>
      rw [Bool.and_eq_true, ended_iff ha, ended_iff hb] at hend
      obtain ⟨h₁, h₂⟩ := hend
      rw [h₁.resolve_left (List.cons_ne_nil _ _), h₂.resolve_left (List.cons_ne_nil _ _)]
      exact iff_of_true rfl (Or.inl rfl)
    rw [sameName_cons]
    split
    · next hne => exact iff_of_false Bool.false_ne_true fun h => hne h.1
    · next heq => rw [ih, and_iff_right (not_not.mp heq)]

end

end Dns
