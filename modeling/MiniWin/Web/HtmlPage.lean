import MiniWin.Lib.Fuel
import MiniWin.Web.HtmlReads

/-!
# HTML: a page is read to its end

A page of at most `maxLen` bytes is read to its end and not further, and becomes a tree. In a page
of one byte more a position can go round.
-/

namespace Dom

variable {arena : Nat → Node} {d d' : Doc} {i j k fuel : Nat} {h l name : List UInt8}

/-! ## Rounds -/

theorem parseAttrs_mono (l : List UInt8) (selfclose : Bool) (d : Doc) :
    Fuel.Mono fun fuel => parseAttrs fuel l selfclose d := by
  refine .of_succ fun fuel => ?_
  induction fuel generalizing l selfclose d with
  | zero => exact fun _ hr => nomatch hr
  | succ fuel ih =>
    intro r hr
    rw [parseAttrs] at hr ⊢
    split at hr
    · exact hr
    · split at hr
      · next hc => rw [if_pos hc]; exact hr
      · next hc => rw [if_neg hc]; exact ih _ _ _ r hr

theorem commentEnd_mono (h : List UInt8) (j : Nat) : Fuel.Mono fun fuel => commentEnd h fuel j := by
  refine .of_succ fun fuel => ?_
  induction fuel generalizing j with
  | zero => exact fun _ hr => nomatch hr
  | succ fuel ih =>
    intro r hr
    rw [commentEnd] at hr ⊢
    split at hr
    · next hin =>
      obtain ⟨b, hb, hr⟩ := Option.bind_eq_some_iff.mp hr
      rw [if_pos hin, hb, Option.bind_some]
      cases b with
      | true => exact hr
      | false => exact ih _ r hr
    · next hin => rw [if_neg hin]; exact hr

theorem findClose_mono (h name : List UInt8) (i : Nat) :
    Fuel.Mono fun fuel => findClose h name fuel i := by
  refine .of_succ fun fuel => ?_
  induction fuel generalizing i with
  | zero => exact fun _ hr => nomatch hr
  | succ fuel ih =>
    intro r hr
    rw [findClose] at hr ⊢
    split at hr
    · next hin =>
      obtain ⟨b, hb, hr⟩ := Option.bind_eq_some_iff.mp hr
      rw [if_pos hin, hb, Option.bind_some]
      cases b with
      | true => exact hr
      | false => exact ih _ r hr
    · next hin => rw [if_neg hin]; exact hr

theorem skipBang_mono (h : List UInt8) (i : Nat) : Fuel.Mono fun fuel => skipBang fuel h i :=
  .bind (.const _) fun _ => .ite (.ite (.const _)
    (.bind (.const _) fun _ => .ite (.const _) (.bind (commentEnd_mono h _) fun _ => .const _) _) _)
    (.const _) _

theorem content_mono (h : List UInt8) (tag : Tag) (el i : Nat) (selfclose : Bool) (d : Doc) :
    Fuel.Mono fun fuel => content fuel h tag el i selfclose d :=
  .ite (.const _) (.ite (.map (findClose_mono h tag.name i) _) (.const _) _) _

theorem startTag_mono (h : List UInt8) (i : Nat) (d : Doc) :
    Fuel.Mono fun fuel => startTag fuel h i d :=
  .bind (parseAttrs_mono _ false d) fun _ => content_mono h _ _ _ _ _

theorem token_mono (h : List UInt8) (i : Nat) (d : Doc) : Fuel.Mono fun fuel => token fuel h i d := by
  unfold token
  cases h.drop i with
  | nil => exact .const _
  | cons c rest =>
    refine .ite (.const _) ?_ _
    cases rest with
    | nil => exact .const _
    | cons c₁ rest =>
      exact .ite ((skipBang_mono h i).map _) (.ite (.const _) (.ite (.const _)
        (.ite (.const _) (startTag_mono h (i + 1) d) _) _) _) _

/-! ## A page -/

/-- **The documents that the loop of `dom_parse` goes through**, and where it is in the page. -/
inductive Parsing (arena : Nat → Node) (h : List UInt8) : Nat → Doc → Prop where
  | start : Parsing arena h 0 (reset arena)
  | token {fuel i j : Nat} {d d' : Doc} (hp : Parsing arena h i d) (hi : i < h.length)
      (ht : d.truncated = false) (hr : token fuel h i d = some (j, d')) : Parsing arena h j d'

theorem Parsing.valid (hp : Parsing arena h i d) : Valid arena d := by
  induction hp with
  | start => exact valid_of_whole ⟨reset_whole arena, by rw [reset_eq]⟩
  | token _ _ _ hr ih => exact token_valid ih hr

theorem Parsing.le (hlen : h.length ≤ maxLen) (hp : Parsing arena h i d) : i ≤ h.length := by
  induction hp with
  | start => exact Nat.zero_le _
  | @token fuel i j d d' _ hi _ hr _ =>
    obtain ⟨r, hr', -, hle⟩ := token_some hlen hi (Nat.lt_succ_self h.length) d
    rw [← Fuel.Mono.agree (token_mono h i d) hr hr'] at hle
    exact hle

/-- **The loop comes to its end**, in as many rounds as there are bytes left, and one. -/
theorem tokens_some (hlen : h.length ≤ maxLen) : ∀ {n i : Nat} {d : Doc}, h.length - i < n →
    Parsing arena h i d → ∃ j d', Parsing arena h j d' ∧ (j = h.length ∨ d'.truncated = true)
      ∧ ∀ fuel m, h.length < fuel → n ≤ m →
        tokens fuel h m i d = some { d' with txt_node := 0 }
  | 0, _, _, hn, _ => absurd hn (Nat.not_lt_zero _)
  | n + 1, i, d, hn, hp => by
    by_cases hmore : i < h.length ∧ d.truncated = false
    · obtain ⟨⟨k, d₁⟩, hr, hik, hk⟩ := token_some hlen hmore.1 (Nat.lt_succ_self h.length) d
      obtain ⟨j, d', hp', hend, htokens⟩ :=
        tokens_some hlen (show h.length - k < n by omega) (.token hp hmore.1 hmore.2 hr)
      refine ⟨j, d', hp', hend, fun fuel m hf hm => ?_⟩
      obtain ⟨m, rfl⟩ : ∃ m', m = m' + 1 := ⟨m - 1, by omega⟩
      have hr' : token fuel h i d = some (k, d₁) := token_mono h i d hf hr
      rw [tokens, if_pos ⟨hmore.1, by rw [hmore.2]; exact Bool.false_ne_true⟩, hr',
        Option.bind_some]
      exact htokens fuel m hf (by omega)
    · have hstop : ¬ (i < h.length ∧ ¬ d.truncated = true) := fun hm =>
        hmore ⟨hm.1, Bool.eq_false_iff.mpr hm.2⟩
      refine ⟨i, d, hp, ?_, fun fuel m hf hm => ?_⟩
      · by_cases hi : i < h.length
        · exact .inr (not_not.mp fun ht => hstop ⟨hi, ht⟩)
        · exact .inl (Nat.le_antisymm (hp.le hlen) (Nat.le_of_not_lt hi))
      · obtain ⟨m, rfl⟩ : ∃ m', m = m' + 1 := ⟨m - 1, by omega⟩
        rw [tokens, if_neg hstop]

/-- A document with two open elements at least, the last of them `<html>`. -/
structure Sound (arena : Nat → Node) (d : Doc) : Prop where
  whole : Whole arena d
  two_le : 2 ≤ d.stk.length
  html : d.stk.getLast? = some d.html

theorem Valid.sound (h : Valid arena d) : Sound arena d where
  whole := h.whole
  two_le := h.whole.opened.two_le
  html := by
    obtain ⟨above, habove⟩ := h.whole.opened.ground
    rw [← habove, h.whole.roots.html.1]
    show (above ++ [_, 1]).getLast? = some 1
    rw [List.getLast?_append_of_ne_nil _ (List.cons_ne_nil _ _)]
    rfl

/-- **A page becomes a tree.** The parser goes through a page of at most `maxLen` bytes up to its
end, or until there is no room left, and reads nothing behind it; the document it builds is sound
after every token and in the end. -/
theorem parse_sound (arena : Nat → Node) (h : List UInt8) (hlen : h.length ≤ maxLen) :
    (∀ i d, Parsing arena h i d → i ≤ h.length ∧ Sound arena d)
    ∧ ∃ i d, Parsing arena h i d ∧ (i = h.length ∨ d.truncated = true)
      ∧ Sound arena { d with txt_node := 0 }
      ∧ ∀ fuel, h.length < fuel → parse fuel arena h = some { d with txt_node := 0 } := by
  refine ⟨fun i d hp => ⟨hp.le hlen, hp.valid.sound⟩, ?_⟩
  obtain ⟨i, d, hp, hend, htokens⟩ :=
    tokens_some hlen (show h.length - 0 < h.length + 1 by omega)
      (show Parsing arena h 0 (reset arena) from .start)
  have hv : Valid arena { d with txt_node := 0 } :=
    valid_of_whole ⟨(Ok.flags hp.valid.whole d.truncated d.skip_lf 0 d.foreign).whole, rfl⟩
  exact ⟨i, d, hp, hend, hv.sound, fun fuel hf => htokens fuel fuel hf hf⟩

/-- A paragraph with a bold word that is not closed. -/
theorem parse_sound_bold : (Net.bytes "<p>a<b>").length ≤ maxLen
    ∧ (∀ i d, Parsing (fun _ => {}) (Net.bytes "<p>a<b>") i d → i ≤ 7 ∧ Sound (fun _ => {}) d)
    ∧ ∃ i d, Parsing (fun _ => {}) (Net.bytes "<p>a<b>") i d ∧ (i = 7 ∨ d.truncated = true)
      ∧ Sound (fun _ => {}) { d with txt_node := 0 }
      ∧ ∀ fuel, 7 < fuel →
        parse fuel (fun _ => {}) (Net.bytes "<p>a<b>") = some { d with txt_node := 0 } :=
  ⟨by decide, parse_sound (fun _ => {}) (Net.bytes "<p>a<b>") (by decide)⟩

/-! ## A page that is too long -/

section
variable {n : Nat}

/-- So many blanks, and a tag whose end tag is looked for. -/
def blanksAndTextarea (n : Nat) : List UInt8 :=
  List.replicate n 0x20 ++ Net.bytes "<textarea>"

theorem blanks_length : (blanksAndTextarea n).length = n + 10 := by
  unfold blanksAndTextarea
  rw [List.length_append, List.length_replicate]
  rfl

theorem blanks_drop (k : Nat) :
    (blanksAndTextarea n).drop (n + k) = (Net.bytes "<textarea>").drop k := by
  unfold blanksAndTextarea
  rw [← List.drop_drop, List.drop_left' (List.length_replicate ..)]

theorem blanks_nameEnd : nameEnd (blanksAndTextarea n) (n + 1) = n + 9 := by
  unfold nameEnd runTo
  rw [blanks_drop]
  rfl

theorem blanks_startTagId : startTagId (blanksAndTextarea n) (n + 1) = .textarea := by
  have hname : nameOf (blanksAndTextarea n) (n + 1) = Net.bytes "textarea" := by
    unfold nameOf slice
    rw [blanks_nameEnd, blanks_drop, show n + 9 - (n + 1) = 8 by omega]
    rfl
  unfold startTagId
  rw [hname, if_neg (fun h => by have := h.2.2; revert this; decide)]
  rfl

/-- White space in the head is dropped. -/
theorem blanks_token (fuel : Nat) :
    token fuel (blanksAndTextarea (n + 1)) 0 (reset arena) = some (n + 1, reset arena) := by
  have hrun : runTo (fun c => decide (c = 0x3C)) (blanksAndTextarea (n + 1)) 0 = n + 1 := by
    unfold runTo blanksAndTextarea
    rw [List.drop_zero, List.takeWhile_append_of_pos, List.length_append, List.length_replicate]
    · show 0 + (n + 1 + 0) = n + 1
      omega
    · intro c hc
      rw [List.eq_of_mem_replicate hc]
      rfl
  have hslice : slice (blanksAndTextarea (n + 1)) 0 (n + 1) = List.replicate (n + 1) 0x20 := by
    unfold slice blanksAndTextarea
    rw [List.drop_zero, Nat.sub_zero, List.take_left' (List.length_replicate ..)]
  have hdrop : (blanksAndTextarea (n + 1)).drop 0 = 0x20 :: blanksAndTextarea n := by
    unfold blanksAndTextarea
    rw [List.drop_zero, List.replicate_succ, List.cons_append]
  have htext : addText true (List.replicate (n + 1) 0x20) (reset arena) = reset arena := by
    unfold addText
    rw [if_pos]
    refine ⟨by rw [reset_eq], by rw [reset_eq]; rfl, ?_⟩
    rw [List.all_replicate]
    rfl
  unfold token
  rw [hdrop]
  dsimp only
  rw [if_pos (by decide), hrun, hslice, htext]

/-- The end tag is looked for behind the page. -/
theorem blanks_findClose (hn : n + 20 = 2 ^ 32) (fuel : Nat) :
    findClose (blanksAndTextarea n) (Net.bytes "textarea") fuel (n + 10) = none := by
  cases fuel with
  | zero => rfl
  | succ fuel =>
    have hround : add32 (n + 10) (2 + (Net.bytes "textarea").length) = 0 := by
      unfold add32
      rw [show (Net.bytes "textarea").length = 8 from rfl, show n + 10 + (2 + 8) = 2 ^ 32 by omega,
        Nat.mod_self]
    have hread : at_ (blanksAndTextarea n) (n + 10) 0 = none := by
      unfold at_
      rw [List.getElem?_eq_none_iff, add32_eq (by omega), blanks_length]
    rw [findClose, hround, if_pos (Nat.zero_le _)]
    unfold closeAt
    rw [hread]
    rfl

theorem blanks_startTag (hn : n + 20 = 2 ^ 32) (fuel : Nat) :
    startTag fuel (blanksAndTextarea n) (n + 1) (reset arena) = none := by
  cases fuel with
  | zero => rfl
  | succ fuel =>
    have hattrs : parseAttrs (fuel + 1) ((blanksAndTextarea n).drop (n + 9)) false (reset arena)
        = some ([], false, reset arena) := by
      rw [blanks_drop]
      rfl
    have hel : (openTag .textarea 0 0 false (reset arena)).1 = 4 := by
      rw [reset_eq]
      rfl
    have hempty : (reset arena).attrs = [] ∧ (reset arena).pool = [] := by
      rw [reset_eq]
      exact ⟨rfl, rfl⟩
    unfold startTag
    dsimp only
    rw [blanks_nameEnd, blanks_startTagId, hattrs, Option.bind_some, hempty.1, hempty.2]
    dsimp only
    unfold content
    rw [if_neg (fun h => nomatch h.1), if_pos]
    · unfold rawElement
      show (findClose (blanksAndTextarea n) (Net.bytes "textarea") (fuel + 1)
        ((blanksAndTextarea n).length - 0)).map _ = none
      rw [blanks_length, Nat.sub_zero, blanks_findClose hn]
      rfl
    · refine ⟨by decide, ?_, fun h => nomatch h.1⟩
      show (openTag .textarea 0 0 false (reset arena)).1 ≠ 0
      rw [hel]
      decide

theorem blanks_round {i m fuel : Nat} (hi : i < n + 10) :
    tokens fuel (blanksAndTextarea n) (m + 1) i (reset arena)
      = (token fuel (blanksAndTextarea n) i (reset arena)).bind fun r =>
        tokens fuel (blanksAndTextarea n) m r.1 r.2 := by
  rw [tokens, if_pos]
  rw [blanks_length, reset_eq]
  exact ⟨hi, Bool.false_ne_true⟩

theorem blanks_tag (hn : n + 20 = 2 ^ 32) (fuel : Nat) :
    token fuel (blanksAndTextarea n) n (reset arena) = none := by
  have hdrop := blanks_drop (n := n) 0
  rw [Nat.add_zero, List.drop_zero] at hdrop
  unfold token
  rw [hdrop]
  exact blanks_startTag hn fuel

theorem blanks_tokens (hn : n + 1 + 20 = 2 ^ 32) (fuel : Nat) :
    ∀ m, tokens fuel (blanksAndTextarea (n + 1)) m 0 (reset arena) = none
  | 0 => by rw [tokens]
  | 1 => by rw [blanks_round (by omega), blanks_token, Option.bind_some, tokens]
  | m + 2 => by
    rw [blanks_round (by omega), blanks_token, Option.bind_some, blanks_round (by omega),
      blanks_tag hn fuel, Option.bind_none]

end

/-- A page of one byte more. The end tag is looked for behind the page, where the sum that ought to
stop the search has gone round. -/
theorem textarea_read_behind :
    (blanksAndTextarea (2 ^ 32 - 20)).length = maxLen + 1
    ∧ ¬ ∃ fuel d, parse fuel (fun _ => {}) (blanksAndTextarea (2 ^ 32 - 20)) = some d := by
  refine ⟨blanks_length, fun ⟨fuel, d, hd⟩ => ?_⟩
  have hnone : parse fuel (fun _ => {}) (blanksAndTextarea (2 ^ 32 - 21 + 1)) = none :=
    blanks_tokens (by decide) fuel fuel
  rw [show (2 ^ 32 - 21 + 1 : Nat) = 2 ^ 32 - 20 by decide, hd] at hnone
  exact nomatch hnone

end Dom
