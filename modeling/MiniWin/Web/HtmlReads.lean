import MiniWin.Web.HtmlTree

/-!
# HTML: a token is read

Each part of the tokenizer reads what it needs, no byte behind a page of at most `maxLen` bytes,
and gets on. What a loop needs for this is that each round leaves less to read, and that a position
does not go round: the longest offset is that of an end tag of eight letters.
-/

namespace Dom

open Function Links

/-- The longest page whose positions do not go round. -/
def maxLen : Nat := 2 ^ 32 - 11

variable {arena : Nat → Node} {d d' : Doc} {i j k fuel : Nat} {h l name : List UInt8}

/-! ## Attributes -/

theorem skipBlanks_le : ∀ (l : List UInt8) (selfclose : Bool),
    (skipBlanks l selfclose).1.length ≤ l.length
  | [], _ => Nat.le_refl _
  | c :: l, selfclose => by
    unfold skipBlanks
    split
    · exact Nat.le_succ_of_le (skipBlanks_le l _)
    · exact Nat.le_refl _

/-- What is left begins with no blank and no slash. -/
theorem skipBlanks_head : ∀ {l : List UInt8} {selfclose : Bool} {c : UInt8} {rest : List UInt8}
    {s : Bool}, skipBlanks l selfclose = (c :: rest, s) → isWs c = false ∧ c ≠ 0x2F
  | [], _, _, _, _, hs => nomatch (Prod.mk.inj hs).1
  | c₀ :: l, selfclose, c, rest, s, hs => by
    unfold skipBlanks at hs
    split at hs
    · exact skipBlanks_head hs
    · next hc =>
      obtain ⟨rfl, -⟩ := List.cons.inj (Prod.mk.inj hs).1
      exact ⟨Bool.eq_false_iff.mpr fun h => hc (.inl h), fun h => hc (.inr h)⟩

theorem attrName_le : ∀ l : List UInt8, (attrName l).2.length ≤ l.length
  | [] => Nat.le_refl _
  | c :: l => by
    unfold attrName
    split
    · exact Nat.le_refl _
    · exact Nat.le_succ_of_le (attrName_le l)

theorem dropWhile_le (p : UInt8 → Bool) (l : List UInt8) : (l.dropWhile p).length ≤ l.length :=
  (List.dropWhile_suffix p).length_le

/-- A value that a sign is in front of. -/
theorem attrValue_sign (l : List UInt8) : (attrValue (0x3D :: l)).2.length ≤ l.length := by
  have hsign : (0x3D :: l : List UInt8).dropWhile isWs = 0x3D :: l := rfl
  have hle := dropWhile_le isWs l
  unfold attrValue
  rw [hsign]
  split
  · next l' heq =>
    obtain rfl := (List.cons.inj heq).2
    split
    · exact Nat.zero_le _
    · next q rest hrest =>
      rw [hrest, List.length_cons] at hle
      split
      · have := dropWhile_le (fun c => decide (c ≠ q)) rest
        show ((rest.dropWhile fun c => decide (c ≠ q)).drop 1).length ≤ _
        rw [List.length_drop]
        omega
      · have := dropWhile_le (fun c => decide (¬ isWs c = true ∧ c ≠ 0x3E)) (q :: rest)
        rw [List.length_cons] at this
        exact Nat.le_trans this hle
  · next hne => exact absurd rfl (hne l)

theorem attrValue_le (l : List UInt8) : (attrValue l).2.length ≤ l.length := by
  have hle := dropWhile_le isWs l
  unfold attrValue
  split
  · next rest hrest =>
    have hsign := attrValue_sign rest
    unfold attrValue at hsign
    rw [hrest, List.length_cons] at hle
    exact Nat.le_trans hsign (by omega)
  · exact hle

/-- **An attribute leaves less to read.** -/
theorem attr_shrinks {c : UInt8} (hw : isWs c = false) (hs : c ≠ 0x2F) (he : c ≠ 0x3E) :
    (attrValue (attrName (c :: l)).2).2.length ≤ l.length := by
  by_cases hc : c = 0x3D
  · -- an attribute without a name
    have hname : (attrName (c :: l)).2 = 0x3D :: l := by
      unfold attrName
      rw [if_pos (.inr (.inl hc)), hc]
    rw [hname]
    exact attrValue_sign l
  · have hname : (attrName (c :: l)).2 = (attrName l).2 := by
      conv_lhs => unfold attrName
      rw [if_neg]
      rintro (h | h | h | h)
      · rw [hw] at h
        exact nomatch h
      · exact hc h
      · exact he h
      · exact hs h.1
    rw [hname]
    exact Nat.le_trans (attrValue_le _) (attrName_le l)

theorem parseAttrs_some : ∀ {fuel : Nat} {l : List UInt8} (selfclose : Bool) (d : Doc),
    l.length < fuel → ∃ r, parseAttrs fuel l selfclose d = some r ∧ r.1.length ≤ l.length
  | 0, _, _, _, hf => absurd hf (Nat.not_lt_zero _)
  | fuel + 1, l, selfclose, d, hf => by
    have hle := skipBlanks_le l selfclose
    unfold parseAttrs
    split
    · exact ⟨_, rfl, Nat.zero_le _⟩
    · next c rest s hs =>
      rw [hs, List.length_cons] at hle
      split
      · exact ⟨_, rfl, Nat.le_of_succ_le hle⟩
      · next he =>
        obtain ⟨hw, hslash⟩ := skipBlanks_head hs
        have hless := attr_shrinks (l := rest) hw hslash he
        obtain ⟨r, hr, hrle⟩ := parseAttrs_some s
          (keepAttr (attrName (c :: rest)).1 (attrValue (attrName (c :: rest)).2).1 d)
          (show (attrValue (attrName (c :: rest)).2).2.length < fuel by omega)
        exact ⟨r, hr, by omega⟩

/-! ## Positions -/

theorem add32_eq (hi : i + k < 2 ^ 32) : add32 i k = i + k := Nat.mod_eq_of_lt hi

theorem inside_iff (hi : i + k < 2 ^ 32) : inside h i k = true ↔ i + k < h.length := by
  unfold inside
  rw [add32_eq hi, decide_eq_true_iff]

theorem at_some (hh : h.length < 2 ^ 32) (hi : i + k < h.length) : ∃ c, at_ h i k = some c := by
  unfold at_
  rw [add32_eq (Nat.lt_trans hi hh)]
  exact ⟨h[i + k], List.getElem?_eq_getElem hi⟩

theorem runTo_le (stop : UInt8 → Bool) (hi : i ≤ h.length) :
    i ≤ runTo stop h i ∧ runTo stop h i ≤ h.length := by
  have := (List.takeWhile_prefix (fun c => !stop c) (l := h.drop i)).length_le
  rw [List.length_drop] at this
  unfold runTo
  omega

theorem nameEnd_le (hi : i ≤ h.length) : i ≤ nameEnd h i ∧ nameEnd h i ≤ h.length :=
  runTo_le _ hi

theorem skipTag_le (hi : i ≤ h.length) : i ≤ skipTag h i ∧ skipTag h i ≤ h.length := by
  obtain ⟨h₁, h₂⟩ := runTo_le (h := h) (fun c => decide (c = 0x3E)) hi
  unfold skipTag
  dsimp only
  split <;> omega

/-- The elements whose text is taken raw have names of at most eight letters. -/
theorem raw_name {tag : Tag} (hraw : tag.rawness ≠ .normal) : tag.name.length ≤ 8 := by
  cases tag <;> first | exact absurd rfl hraw | decide

/-! ## Comments -/

section
variable (hlen : h.length ≤ maxLen)
include hlen

theorem len_lt : h.length + 10 < 2 ^ 32 := by
  unfold maxLen at hlen
  omega

theorem at_in (hi : i + k < h.length) : ∃ c, at_ h i k = some c :=
  at_some (by have := len_lt hlen; omega) hi

theorem inside_in (hi : i ≤ h.length) (hk : k ≤ 10) : inside h i k = true ↔ i + k < h.length :=
  inside_iff (by have := len_lt hlen; omega)

theorem add32_in (hi : i ≤ h.length) (hk : k ≤ 10) : add32 i k = i + k :=
  add32_eq (by have := len_lt hlen; omega)

/-- What ends a comment lies inside the page. -/
theorem commentEnds_some (hj : j + 2 < h.length) : ∃ b, commentEnds h j = some b
    ∧ (b = true → at_ h j 2 = some 0x3E ∨ j + 3 < h.length) := by
  obtain ⟨c₀, h₀⟩ := at_in hlen (show j + 0 < h.length by omega)
  obtain ⟨c₁, h₁⟩ := at_in hlen (show j + 1 < h.length by omega)
  obtain ⟨c₂, h₂⟩ := at_in hlen hj
  unfold commentEnds
  rw [h₀, Option.bind_some]
  split
  · exact ⟨false, rfl, fun hb => nomatch hb⟩
  rw [h₁, Option.bind_some]
  split
  · exact ⟨false, rfl, fun hb => nomatch hb⟩
  rw [h₂, Option.bind_some]
  split
  · next hc => exact ⟨true, rfl, fun _ => .inl (congrArg some hc)⟩
  split
  · next hin =>
    have h₃ := (inside_in hlen (by omega) (by decide)).mp hin.2
    obtain ⟨c₃, hc₃⟩ := at_in hlen h₃
    rw [hc₃, Option.map_some]
    exact ⟨_, rfl, fun _ => .inr h₃⟩
  · exact ⟨false, rfl, fun hb => nomatch hb⟩

theorem commentEnd_some : ∀ {fuel j : Nat}, j ≤ h.length → h.length - j < fuel →
    ∃ k, commentEnd h fuel j = some k ∧ j ≤ k ∧ k ≤ h.length
      ∧ (k + 2 < h.length → at_ h k 2 = some 0x3E ∨ k + 3 < h.length)
  | 0, _, _, hf => absurd hf (Nat.not_lt_zero _)
  | fuel + 1, j, hj, hf => by
    unfold commentEnd
    by_cases hin : inside h j 2 = true
    · have hlt := (inside_in hlen hj (by decide)).mp hin
      obtain ⟨b, hb, hend⟩ := commentEnds_some hlen hlt
      rw [if_pos hin, hb, Option.bind_some]
      cases b with
      | true =>
        exact ⟨j, rfl, Nat.le_refl _, hj, fun _ => hend rfl⟩
      | false =>
        rw [if_neg Bool.false_ne_true, add32_in hlen hj (by decide)]
        obtain ⟨k, hk, hjk, hle, hmore⟩ :=
          commentEnd_some (show j + 1 ≤ h.length by omega)
            (show h.length - (j + 1) < fuel by omega)
        exact ⟨k, hk, by omega, hle, hmore⟩
    · rw [if_neg hin]
      have hge : ¬ j + 2 < h.length := fun hlt => hin ((inside_in hlen hj (by decide)).mpr hlt)
      exact ⟨j, rfl, Nat.le_refl _, hj, fun hlt => absurd hlt hge⟩

theorem skipComment_some (hj : j ≤ h.length) (hf : h.length < fuel) :
    ∃ k, skipComment fuel h j = some k ∧ j ≤ k ∧ k ≤ h.length := by
  unfold skipComment
  split
  · next hc =>
    obtain ⟨hlt, -⟩ := List.getElem?_eq_some_iff.mp hc
    exact ⟨j + 1, rfl, Nat.le_succ j, hlt⟩
  · have hshort : ∃ b, (if inside h j 1 then (at_ h j 0).bind fun c => if c ≠ 0x2D then some false
        else (at_ h j 1).map (· = 0x3E) else some false) = some b
        ∧ (b = true → j + 2 ≤ h.length) := by
      split
      · next hin =>
        have hlt := (inside_in hlen hj (by decide)).mp hin
        obtain ⟨c₀, h₀⟩ := at_in hlen (show j + 0 < h.length by omega)
        obtain ⟨c₁, h₁⟩ := at_in hlen hlt
        rw [h₀, Option.bind_some]
        split
        · exact ⟨false, rfl, fun hb => nomatch hb⟩
        · rw [h₁, Option.map_some]
          exact ⟨_, rfl, fun _ => hlt⟩
      · exact ⟨false, rfl, fun hb => nomatch hb⟩
    obtain ⟨b, hb, hroom⟩ := hshort
    rw [hb, Option.bind_some]
    cases b with
    | true =>
      rw [if_pos rfl, add32_in hlen hj (by decide)]
      exact ⟨j + 2, rfl, Nat.le_add_right j 2, hroom rfl⟩
    | false =>
      obtain ⟨k, hk, hjk, hle, hmore⟩ := commentEnd_some hlen hj (show h.length - j < fuel by omega)
      rw [if_neg Bool.false_ne_true, hk, Option.bind_some]
      split
      · exact ⟨h.length, rfl, hj, Nat.le_refl _⟩
      · next hin =>
        have hlt := (inside_in hlen hle (by decide)).mp (not_not.mp hin)
        obtain ⟨c, hc⟩ := at_in hlen hlt
        rw [hc, Option.map_some]
        refine ⟨_, rfl, ?_⟩
        split
        · rw [add32_in hlen hle (by decide)]
          omega
        · next hne =>
          rw [add32_in hlen hle (by decide)]
          obtain hend | hend := hmore hlt
          · rw [hc] at hend
            exact absurd (Option.some.inj hend) hne
          · omega

theorem skipBang_some (hi : i + 1 < h.length) (hf : h.length < fuel) :
    ∃ k, skipBang fuel h i = some k ∧ i < k ∧ k ≤ h.length := by
  unfold skipBang
  have hcomment : ∃ b, (if inside h i 3 then (at_ h i 2).bind fun c => if c ≠ 0x2D then some false
      else (at_ h i 3).map (· = 0x2D) else some false) = some b
      ∧ (b = true → i + 4 ≤ h.length) := by
    split
    · next hin =>
      have hlt := (inside_in hlen (by omega) (by decide)).mp hin
      obtain ⟨c₂, h₂⟩ := at_in hlen (show i + 2 < h.length by omega)
      obtain ⟨c₃, h₃⟩ := at_in hlen hlt
      rw [h₂, Option.bind_some]
      split
      · exact ⟨false, rfl, fun hb => nomatch hb⟩
      · rw [h₃, Option.map_some]
        exact ⟨_, rfl, fun _ => hlt⟩
    · exact ⟨false, rfl, fun hb => nomatch hb⟩
  obtain ⟨b, hb, hroom⟩ := hcomment
  rw [hb, Option.bind_some]
  cases b with
  | true =>
    obtain ⟨k, hk, hik, hle⟩ := skipComment_some hlen (hroom rfl) hf
    rw [if_pos rfl, add32_in hlen (by omega) (by decide)]
    exact ⟨k, hk, by omega, hle⟩
  | false =>
    obtain ⟨h₁, h₂⟩ := skipTag_le (h := h) (show i + 2 ≤ h.length by omega)
    rw [if_neg Bool.false_ne_true]
    exact ⟨_, rfl, by omega, h₂⟩

/-! ## Raw text -/

theorem nameAt_some : ∀ {k : Nat} {name : List UInt8}, i + 2 + k + name.length ≤ h.length →
    ∃ b, nameAt h i k name = some b
  | _, [], _ => ⟨true, rfl⟩
  | k, n :: name, hroom => by
    rw [List.length_cons] at hroom
    obtain ⟨c, hc⟩ := at_in hlen (show i + (2 + k) < h.length by omega)
    unfold nameAt
    rw [hc, Option.bind_some]
    split
    · exact ⟨false, rfl⟩
    · exact nameAt_some (k := k + 1) (by omega)

theorem closeAt_some (hname : name.length ≤ 8) (hroom : i + (2 + name.length) ≤ h.length) :
    ∃ b, closeAt h name i = some b := by
  obtain ⟨c₀, h₀⟩ := at_in hlen (show i + 0 < h.length by omega)
  obtain ⟨c₁, h₁⟩ := at_in hlen (show i + 1 < h.length by omega)
  obtain ⟨same, hsame⟩ := nameAt_some hlen (show i + 2 + 0 + name.length ≤ h.length by omega)
  unfold closeAt
  rw [h₀, Option.bind_some]
  split
  · exact ⟨false, rfl⟩
  rw [h₁, Option.bind_some]
  split
  · exact ⟨false, rfl⟩
  rw [hsame, Option.bind_some]
  split
  · exact ⟨false, rfl⟩
  split
  · next hin =>
    have hlt := (inside_in hlen (show i ≤ h.length by omega) (by omega)).mp hin
    obtain ⟨c, hc⟩ := at_in hlen hlt
    rw [hc]
    exact ⟨_, rfl⟩
  · exact ⟨_, rfl⟩

theorem findClose_some (hname : name.length ≤ 8) : ∀ {fuel i : Nat}, i ≤ h.length →
    h.length - i < fuel → ∃ k, findClose h name fuel i = some k ∧ i ≤ k ∧ k ≤ h.length
  | 0, _, _, hf => absurd hf (Nat.not_lt_zero _)
  | fuel + 1, i, hi, hf => by
    unfold findClose
    rw [add32_in hlen hi (by omega), add32_in hlen hi (by decide)]
    split
    · next hroom =>
      obtain ⟨found, hfound⟩ := closeAt_some hlen hname hroom
      rw [hfound, Option.bind_some]
      cases found with
      | true => exact ⟨i, rfl, Nat.le_refl _, hi⟩
      | false =>
        obtain ⟨k, hk, hik, hle⟩ :=
          findClose_some hname (show i + 1 ≤ h.length by omega)
            (show h.length - (i + 1) < fuel by omega)
        exact ⟨k, hk, by omega, hle⟩
    · exact ⟨h.length, rfl, hi, Nat.le_refl _⟩

theorem rawElement_some {tag : Tag} (hraw : tag.rawness ≠ .normal) (hi : i ≤ h.length)
    (hf : h.length < fuel) (d : Doc) :
    ∃ r, rawElement fuel h tag i d = some r ∧ i ≤ r.1 ∧ r.1 ≤ h.length := by
  obtain ⟨k, hk, hik, hle⟩ :=
    findClose_some hlen (raw_name hraw) hi (show h.length - i < fuel by omega)
  obtain ⟨h₁, h₂⟩ := skipTag_le hle
  unfold rawElement
  rw [hk, Option.map_some]
  exact ⟨_, rfl, Nat.le_trans hik h₁, h₂⟩

/-! ## Tokens -/

theorem content_some (hi : i ≤ h.length) (hf : h.length < fuel) (tag : Tag) (el : Nat)
    (selfclose : Bool) (d : Doc) :
    ∃ r, content fuel h tag el i selfclose d = some r ∧ i ≤ r.1 ∧ r.1 ≤ h.length := by
  unfold content
  split
  · exact ⟨_, rfl, hi, Nat.le_refl _⟩
  split
  · next hraw => exact rawElement_some hlen hraw.1 hi hf d
  · exact ⟨_, rfl, Nat.le_refl _, hi⟩

theorem startTag_some (hi : i ≤ h.length) (hf : h.length < fuel) (d : Doc) :
    ∃ r, startTag fuel h i d = some r ∧ i ≤ r.1 ∧ r.1 ≤ h.length := by
  obtain ⟨hij, hj⟩ := nameEnd_le hi
  obtain ⟨⟨rest, selfclose, d₁⟩, hattrs, hrest⟩ := parseAttrs_some false d
    (show (h.drop (nameEnd h i)).length < fuel by rw [List.length_drop]; omega)
  rw [List.length_drop] at hrest
  obtain ⟨r, hr, hle, hend⟩ := content_some hlen (show h.length - rest.length ≤ h.length by omega)
    hf (startTagId h i)
    (openTag (startTagId h i) d.attrs.length d.pool.length selfclose d₁).1 selfclose
    (openTag (startTagId h i) d.attrs.length d.pool.length selfclose d₁).2
  unfold startTag
  rw [hattrs, Option.bind_some]
  exact ⟨r, hr, by dsimp only at hrest; omega, hend⟩

/-- **A token is read, and not beyond the end of the page.** -/
theorem token_some (hi : i < h.length) (hf : h.length < fuel) (d : Doc) :
    ∃ r, token fuel h i d = some r ∧ i < r.1 ∧ r.1 ≤ h.length := by
  have hdrop : h.drop i = h[i] :: h.drop (i + 1) := List.drop_eq_getElem_cons hi
  have hone : ∀ {c c₁ : UInt8} {rest : List UInt8}, h.drop i = c :: c₁ :: rest →
      i + 1 < h.length := fun heq => by
    have := congrArg List.length heq
    rw [List.length_drop, List.length_cons, List.length_cons] at this
    omega
  unfold token
  split
  · next hnil =>
    rw [hdrop] at hnil
    cases hnil
  next c rest hcons =>
  split
  · next hc =>
    obtain ⟨-, hle⟩ := runTo_le (h := h) (fun c => decide (c = 0x3C)) (Nat.le_of_lt hi)
    refine ⟨_, rfl, ?_, hle⟩
    show i < i + ((h.drop i).takeWhile fun c => !decide (c = 0x3C)).length
    rw [hcons, List.takeWhile_cons_of_pos (by rw [decide_eq_false hc]; rfl), List.length_cons]
    omega
  split
  · exact ⟨_, rfl, Nat.lt_succ_self i, hi⟩
  next c₁ rest =>
  have hlt := hone hcons
  obtain ⟨h₁, h₂⟩ := skipTag_le (h := h) (show i + 2 ≤ h.length from hlt)
  split
  · obtain ⟨k, hk, hik, hle⟩ := skipBang_some hlen hlt hf
    rw [hk, Option.map_some]
    exact ⟨_, rfl, hik, hle⟩
  split
  · exact ⟨_, rfl, by omega, h₂⟩
  split
  · split
    · exact ⟨_, rfl, by omega, h₂⟩
    next c₂ rest =>
    have hthree := congrArg List.length hcons
    rw [List.length_drop, List.length_cons, List.length_cons, List.length_cons] at hthree
    split
    · obtain ⟨h₃, h₄⟩ := nameEnd_le (show i + 2 ≤ h.length from hlt)
      obtain ⟨h₅, h₆⟩ := skipTag_le h₄
      exact ⟨_, rfl, Nat.lt_of_lt_of_le (Nat.lt_add_of_pos_right (by decide)) (Nat.le_trans h₃ h₅), h₆⟩
    split
    · exact ⟨_, rfl, by omega, by omega⟩
    · exact ⟨_, rfl, by omega, h₂⟩
  split
  · exact ⟨_, rfl, Nat.lt_succ_self i, hi⟩
  · obtain ⟨r, hr, hle, hend⟩ := startTag_some hlen (show i + 1 ≤ h.length from hi) hf d
    exact ⟨r, hr, hle, hend⟩

end

end Dom
