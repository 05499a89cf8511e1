import MiniWin.Web.DomTree

/-!
# HTML: a page becomes a tree

Whatever the bytes are, what the tokenizer makes of them is a document as the tree builder keeps it,
after every token and in the end. A page of at most `maxLen` bytes is read to its end and not
further; a longer one can carry a position round.
-/

namespace Dom

open Function Links

variable {arena : Nat → Node} {d d' : Doc} {am pm n i j k fuel : Nat} {h l name : List UInt8}

/-! ## Text -/

/-- The text at hand ends where the pool does. -/
def TextOk (d : Doc) : Prop := d.txt_node ≠ 0 → d.txt_node < d.node_count
  ∧ (d.nodes d.txt_node).kind = .text
  ∧ (d.nodes d.txt_node).a + (d.nodes d.txt_node).b = d.pool.length

/-- **A document between two tokens.** -/
structure Valid (arena : Nat → Node) (d : Doc) : Prop where
  whole : Whole arena d
  text : TextOk d

theorem valid_of_whole (h : Whole arena d ∧ d.txt_node = 0) : Valid arena d :=
  ⟨h.1, fun hne => absurd h.2 hne⟩

/-- There is more in the pool. -/
theorem Ok.morePool (h : Ok arena am pm d) (l : List UInt8)
    (hle : d.pool.length + l.length ≤ poolSize) : Ok arena am pm { d with pool := d.pool ++ l } where
  count_le := h.count_le
  attrs_le := h.attrs_le
  pool_le := by rw [List.length_append]; exact hle
  frame := h.frame
  tree := h.tree
  roots := ⟨h.roots.count, h.roots.html, h.roots.head, h.roots.body⟩
  opened := ⟨h.opened.ground, h.opened.path, h.opened.elem, h.opened.le⟩
  attrs_mark := h.attrs_mark
  pool_mark := by rw [List.length_append]; exact Nat.le_add_right_of_le h.pool_mark
  elem := h.elem
  text := h.text
  apart := h.apart
  attr := h.attr
  value x hx := by rw [List.length_append]; exact Nat.le_add_right_of_le (h.value x hx)

theorem Valid.flags (h : Valid arena d) (truncated skip_lf : Bool) (foreign : Nat) :
    Valid arena { d with truncated := truncated, skip_lf := skip_lf, foreign := foreign } :=
  ⟨Ok.flags h.whole truncated skip_lf d.txt_node foreign, h.text⟩

/-- **The node that takes a byte** is a text that ends where the pool does. -/
theorem textNode_valid (h : Valid arena d) : Valid arena (textNode d).2
    ∧ (textNode d).2.pool = d.pool ∧ ((textNode d).1 ≠ 0 → (textNode d).2.txt_node = (textNode d).1) := by
  unfold textNode
  by_cases h₀ : d.txt_node ≠ 0
  · rw [if_pos h₀]
    exact ⟨h, rfl, fun _ => rfl⟩
  rw [if_neg h₀]
  dsimp only
  split
  · next hlast =>
    obtain ⟨-, hk, hend⟩ := hlast
    exact ⟨⟨Ok.flags h.whole d.truncated d.skip_lf _ d.foreign,
      fun _ => ⟨h.whole.tree.last_lt (Ok.cur_lt h.whole), hk, hend⟩⟩, rfl, fun _ => rfl⟩
  · by_cases hroom : d.node_count < nodeMax
    · have hcount := h.whole.roots.count
      have hcur := Ok.cur_lt h.whole
      obtain ⟨x, hx⟩ : ∃ x : Node, { kind := .text, a := d.pool.length } = x := ⟨_, rfl⟩
      have hok : Whole arena (addNode d.cur x d) :=
        (Ok.addNode h.whole hroom hcur (by rw [← hx]) (by rw [← hx])
          (fun hk => by rw [← hx] at hk; exact nomatch hk)
          (fun hk => by rw [← hx] at hk; exact nomatch hk)
          fun _ => by rw [← hx]; exact Nat.le_refl _).whole
      have hnew := addNode_new (x := x) h.whole hroom hcur
      have hrest := addNode_rest (p := d.cur) (x := x) hroom
      have hn : (newNode x d).1 = d.node_count := by rw [newNode_room hroom]
      rw [hx, hn, if_neg (show ¬ d.node_count = 0 by omega)]
      show Valid arena { addNode d.cur x d with txt_node := d.node_count } ∧ _
      obtain ⟨d₁, hd₁⟩ : ∃ d₁, addNode d.cur x d = d₁ := ⟨_, rfl⟩
      rw [hd₁] at hok hnew hrest ⊢
      have hpool : d₁.pool = d.pool := by rw [hrest]
      refine ⟨⟨Ok.flags hok d₁.truncated d₁.skip_lf _ d₁.foreign, fun _ => ⟨?_, ?_, ?_⟩⟩, ?_,
        fun _ => rfl⟩
      · show d.node_count < d₁.node_count
        rw [hrest]
        exact Nat.lt_succ_self _
      · show (d₁.nodes d.node_count).kind = .text
        rw [hnew.2.2.1, ← hx]
      · show (d₁.nodes d.node_count).a + (d₁.nodes d.node_count).b = d₁.pool.length
        rw [hnew.1, hnew.2.1, ← hx, hpool]
        rfl
      · show (append d.cur d.node_count (newNode x d).2).pool = d.pool
        exact (congrArg Doc.pool hd₁).trans hpool
    · rw [newNode_full (Nat.le_of_not_lt hroom), if_pos rfl]
      exact ⟨h.flags true d.skip_lf d.foreign, rfl, fun hne => absurd rfl hne⟩

theorem textByte_valid (h : Valid arena d) (c : UInt8) : Valid arena (textByte c d) := by
  unfold textByte
  split
  · exact h.flags true d.skip_lf d.foreign
  next hfull =>
  obtain ⟨hv, hpool, htxt⟩ := textNode_valid h
  obtain ⟨n, hn⟩ : ∃ n, (textNode d).1 = n := ⟨_, rfl⟩
  obtain ⟨d₁, hd₁⟩ : ∃ d₁, (textNode d).2 = d₁ := ⟨_, rfl⟩
  rw [hn, hd₁] at htxt
  rw [hd₁] at hv hpool
  dsimp only
  rw [hn, hd₁]
  split
  · exact hv
  next hne =>
  obtain ⟨hlt, hk, hend⟩ := hv.text (by rw [htxt hne]; exact hne)
  rw [htxt hne] at hlt hk hend
  rw [ge_iff_le, Nat.not_le] at hfull
  have hmore := Ok.morePool hv.whole [c] (by rw [hpool, List.length_singleton]; omega)
  have hset := Ok.setRange (a := (d₁.nodes n).a) (b := (d₁.nodes n).b + 1) hmore.whole hlt
    (fun he => by rw [show (d₁.nodes n).kind = .elem from he] at hk; exact nomatch hk)
    (fun he => by rw [show (d₁.nodes n).kind = .elem from he] at hk; exact nomatch hk)
    fun _ => by
      show _ ≤ (d₁.pool ++ [c]).length
      rw [List.length_append, List.length_singleton]
      omega
  refine ⟨hset, fun _ => ?_⟩
  obtain ⟨N, hN⟩ : ∃ N, update d₁.nodes n { d₁.nodes n with b := (d₁.nodes n).b + 1 } = N :=
    ⟨_, rfl⟩
  have hself : N n = { d₁.nodes n with b := (d₁.nodes n).b + 1 } := by rw [← hN, update_self]
  show d₁.txt_node < d₁.node_count
    ∧ (update d₁.nodes n { d₁.nodes n with b := (d₁.nodes n).b + 1 } d₁.txt_node).kind = .text
    ∧ (update d₁.nodes n { d₁.nodes n with b := (d₁.nodes n).b + 1 } d₁.txt_node).a
      + (update d₁.nodes n { d₁.nodes n with b := (d₁.nodes n).b + 1 } d₁.txt_node).b
      = (d₁.pool ++ [c]).length
  rw [hN, htxt hne, hself, List.length_append, List.length_singleton]
  exact ⟨hlt, hk, by show (d₁.nodes n).a + ((d₁.nodes n).b + 1) = _; omega⟩

theorem textBytes_valid (l : List UInt8) (h : Valid arena d) :
    Valid arena (l.foldl (fun d c => textByte c d) d) := by
  induction l generalizing d with
  | nil => exact h
  | cons c l ih => exact ih (textByte_valid h c)

theorem emit_valid (h : Valid arena d) (pre : Bool) (cp : Nat) : Valid arena (emit pre cp d) := by
  unfold emit
  split
  · exact textBytes_valid _ h
  split
  · exact textByte_valid h _
  split
  · exact h
  · exact textBytes_valid _ h

theorem addChars_valid (decode pre : Bool) : ∀ (used : Nat) (text : List UInt8) {d : Doc},
    Valid arena d → Valid arena (addChars decode pre used text d)
  | _, [], _, h => by unfold addChars; exact h
  | used + 1, _ :: rest, _, h => by
    unfold addChars
    exact addChars_valid decode pre used rest h
  | 0, c :: rest, d, h => by
    unfold addChars
    split
    · exact h
    · exact addChars_valid decode pre _ rest (emit_valid h pre _)

theorem Valid.enterBody (h : Valid arena d) : Valid arena (enterBody d) := by
  obtain ⟨hok, hattrs, hpool, -⟩ := keeps_enterBody d h.whole
  refine ⟨hok.whole, ?_⟩
  unfold Dom.enterBody
  split
  · exact h.text
  · exact h.text

theorem addText_valid (h : Valid arena d) (decode : Bool) (text : List UInt8) :
    Valid arena (addText decode text d) := by
  unfold addText
  split
  · exact h
  dsimp only
  have h₁ : Valid arena (if d.in_head = true ∧ d.curTag = .head then enterBody d else d) := by
    split
    · exact h.enterBody
    · exact h
  obtain ⟨d₁, hd₁⟩ : ∃ d₁, (if d.in_head = true ∧ d.curTag = .head then enterBody d else d) = d₁ :=
    ⟨_, rfl⟩
  rw [hd₁] at h₁ ⊢
  split
  · exact addChars_valid decode _ 0 _ (h₁.flags d₁.truncated false d₁.foreign)
  · exact addChars_valid decode _ 0 _ h₁

theorem rawText_valid : ∀ (text : List UInt8) {d : Doc}, Valid arena d → Valid arena (rawText text d)
  | [], _, h => h
  | c :: text, d, h => by
    unfold rawText
    split
    · exact h
    split
    · exact rawText_valid text h
    · exact rawText_valid text (textByte_valid h _)

/-! ## Attributes -/

/-- The pool has grown, or was full. -/
structure Filled (d d' : Doc) : Prop where
  eq : ∃ l, d' = { d with pool := d.pool ++ l, truncated := d'.truncated }
  le : d.pool.length ≤ poolSize → d'.pool.length ≤ poolSize

theorem Filled.refl (d : Doc) : Filled d d := ⟨⟨[], by rw [List.append_nil]⟩, id⟩

theorem Filled.trans {d₁ d₂ : Doc} (h : Filled d d₁) (h' : Filled d₁ d₂) : Filled d d₂ := by
  obtain ⟨l, hl⟩ := h.eq
  obtain ⟨l', hl'⟩ := h'.eq
  refine ⟨⟨l ++ l', ?_⟩, fun hle => h'.le (h.le hle)⟩
  rw [hl', hl]
  simp only [List.append_assoc]

theorem putc_filled (c : UInt8) (d : Doc) : Filled d (putc c d) := by
  unfold putc
  split
  · refine ⟨⟨[c], rfl⟩, fun _ => ?_⟩
    show (d.pool ++ [c]).length ≤ _
    rw [List.length_append, List.length_singleton]
    omega
  · exact ⟨⟨[], by rw [List.append_nil]⟩, id⟩

theorem putValue_filled (cp : Nat) (d : Doc) : Filled d (putValue cp d) := by
  have hfold : ∀ (l : List UInt8) (d : Doc), Filled d (l.foldl (fun d c => putc c d) d) := by
    intro l
    induction l with
    | nil => exact Filled.refl
    | cons c l ih => exact fun d => (putc_filled c d).trans (ih _)
  unfold putValue
  obtain ⟨cp', hcp⟩ : ∃ cp', (if cp = 0x0D ∨ cp = 0x0A ∨ cp = 0x09 ∨ cp = 0x0C then 0x20 else cp)
      = cp' := ⟨_, rfl⟩
  rw [hcp]
  dsimp only
  split
  · split
    · exact putc_filled _ d
    · exact .refl d
  · exact hfold _ d

theorem putValues_filled : ∀ (used : Nat) (value : List UInt8) (d : Doc),
    Filled d (putValues used value d)
  | _, [], d => by unfold putValues; exact .refl d
  | used + 1, _ :: rest, d => by
    unfold putValues
    exact putValues_filled used rest d
  | 0, c :: rest, d => by
    unfold putValues
    split
    · exact .refl d
    · exact (putValue_filled _ d).trans (putValues_filled _ rest _)

theorem Ok.filled (h : Ok arena am pm d) (hf : Filled d d') : Ok arena am pm d' := by
  obtain ⟨l, hl⟩ := hf.eq
  have hle := hf.le h.pool_le
  have hpool : d'.pool = d.pool ++ l := by rw [hl]
  rw [hl]
  rw [hpool, List.length_append] at hle
  exact (h.morePool l hle).flags d'.truncated d.skip_lf d.txt_node d.foreign

/-- **An attribute is kept** behind the others, with its value at the end of the pool. -/
theorem Ok.keepAttr (h : Ok arena am pm d) (name value : List UInt8) :
    Ok arena am pm (keepAttr name value d) := by
  unfold Dom.keepAttr
  dsimp only
  split
  · next hroom =>
    have hf := putValues_filled 0 value d
    have hok := h.filled hf
    obtain ⟨d₁, hd₁⟩ : ∃ d₁, putValues 0 value d = d₁ := ⟨_, rfl⟩
    rw [hd₁] at hf hok ⊢
    obtain ⟨l, hl⟩ := hf.eq
    have hattrs : d₁.attrs = d.attrs := by rw [hl]
    have hpool : d₁.pool = d.pool ++ l := by rw [hl]
    have hlen : d₁.pool.length = d.pool.length + l.length := by rw [hpool, List.length_append]
    exact {
      count_le := hok.count_le
      attrs_le := by
        show (d₁.attrs ++ [_]).length ≤ _
        rw [List.length_append, List.length_singleton, hattrs]
        exact hroom.2
      pool_le := hok.pool_le
      frame := hok.frame
      tree := hok.tree
      roots := ⟨hok.roots.count, hok.roots.html, hok.roots.head, hok.roots.body⟩
      opened := ⟨hok.opened.ground, hok.opened.path, hok.opened.elem, hok.opened.le⟩
      attrs_mark := by
        show am ≤ (d₁.attrs ++ [_]).length
        rw [List.length_append]
        exact Nat.le_add_right_of_le hok.attrs_mark
      pool_mark := hok.pool_mark
      elem := hok.elem
      text := hok.text
      apart := hok.apart
      attr := fun x hx => by
        have hx' : x ∈ (d₁.attrs ++ [_]).take am := hx
        rw [List.take_append_of_le_length hok.attrs_mark] at hx'
        exact hok.attr x hx'
      value := fun x hx => by
        obtain hx | hx := List.mem_append.mp hx
        · exact hok.value x hx
        · rw [List.mem_singleton.mp hx]
          show d.pool.length + min (d₁.pool.length - d.pool.length) 65535 ≤ d₁.pool.length
          omega }
  · exact h

theorem Ok.parseAttrs : ∀ {fuel : Nat} {l : List UInt8} {selfclose : Bool} {d : Doc},
    Ok arena am pm d → ∀ {r : List UInt8 × Bool × Doc}, parseAttrs fuel l selfclose d = some r →
      Ok arena am pm r.2.2
  | 0, _, _, _, _, _, hr => nomatch hr
  | fuel + 1, l, selfclose, d, h, r, hr => by
    unfold Dom.parseAttrs at hr
    split at hr
    · obtain rfl := Option.some.inj hr
      exact h
    · split at hr
      · obtain rfl := Option.some.inj hr
        exact h
      · exact Ok.parseAttrs (h.keepAttr _ _) hr

/-! ## Tokens -/

theorem endTag_valid (h : Valid arena d) (page : List UInt8) (i : Nat) :
    Valid arena (endTag page i d).2 :=
  valid_of_whole (Ok.end_ h.whole _)

theorem rawElement_valid (h : Valid arena d) {page : List UInt8} {tag : Tag} {r : Nat × Doc}
    (hr : rawElement fuel page tag i d = some r) : Valid arena r.2 := by
  obtain ⟨k, -, rfl⟩ := Option.map_eq_some_iff.mp hr
  dsimp only
  have h₁ : Valid arena (if tag = .textarea then { d with skip_lf := true } else d) := by
    split
    · exact h.flags d.truncated true d.foreign
    · exact h
  obtain ⟨d₁, hd₁⟩ : ∃ d₁, (if tag = .textarea then { d with skip_lf := true } else d) = d₁ :=
    ⟨_, rfl⟩
  rw [hd₁] at h₁ ⊢
  obtain ⟨d₂, hd₂⟩ : ∃ d₂, (if k > i then if tag.rawness = .rcdata then
      addText true (slice page i k) { d₁ with skip_lf := decide (tag = .textarea) }
      else rawText (slice page i k) { d₁ with skip_lf := decide (tag = .textarea) } else d₁) = d₂ :=
    ⟨_, rfl⟩
  have h₂ : Valid arena d₂ := by
    have h₁' := h₁.flags d₁.truncated (decide (tag = .textarea)) d₁.foreign
    rw [← hd₂]
    split
    · split
      · exact addText_valid h₁' _ _
      · exact rawText_valid _ h₁'
    · exact h₁
  rw [hd₂]
  exact valid_of_whole (Ok.end_ (Ok.flags h₂.whole d₂.truncated false 0 d₂.foreign).whole tag)

theorem openTag_valid (h : Ok arena am pm d) (tag : Tag) (selfclose : Bool) :
    Valid arena (openTag tag am pm selfclose d).2 := by
  unfold openTag
  dsimp only
  obtain ⟨d₁, hd₁⟩ : ∃ d₁, (if tag = .pre ∨ tag = .listing ∨ tag = .textarea then
      { d with skip_lf := false } else d) = d₁ := ⟨_, rfl⟩
  have h₁ : Ok arena am pm d₁ := by
    rw [← hd₁]
    split
    · exact h.flags d.truncated false d.txt_node d.foreign
    · exact h
  rw [hd₁]
  have h₂ := valid_of_whole (h₁.start tag selfclose)
  split
  · exact h₂.flags _ true _
  · exact h₂

theorem content_valid (h : Valid arena d) {page : List UInt8} {tag : Tag} {el : Nat}
    {selfclose : Bool} {r : Nat × Doc} (hr : content fuel page tag el i selfclose d = some r) :
    Valid arena r.2 := by
  unfold content at hr
  split at hr
  · obtain rfl := Option.some.inj hr
    exact addText_valid h _ _
  split at hr
  · exact rawElement_valid h hr
  · obtain rfl := Option.some.inj hr
    exact h

theorem startTag_valid (h : Valid arena d) {page : List UInt8} {r : Nat × Doc}
    (hr : startTag fuel page i d = some r) : Valid arena r.2 := by
  obtain ⟨⟨rest, selfclose, d₁⟩, hattrs, hr⟩ := Option.bind_eq_some_iff.mp hr
  have h₁ : Ok arena d.attrs.length d.pool.length d₁ := Ok.parseAttrs h.whole hattrs
  exact content_valid (openTag_valid h₁ _ selfclose) hr

/-- **A token keeps the document.** -/
theorem token_valid (h : Valid arena d) {page : List UInt8} {r : Nat × Doc}
    (hr : token fuel page i d = some r) : Valid arena r.2 := by
  unfold token at hr
  split at hr
  · cases hr
  split at hr
  · obtain rfl := Option.some.inj hr
    exact addText_valid h _ _
  split at hr
  · obtain rfl := Option.some.inj hr
    exact addText_valid h _ _
  split at hr
  · obtain ⟨j, -, rfl⟩ := Option.map_eq_some_iff.mp hr
    exact h
  split at hr
  · obtain rfl := Option.some.inj hr
    exact h
  split at hr
  · split at hr
    · obtain rfl := Option.some.inj hr
      exact h
    split at hr
    · obtain rfl := Option.some.inj hr
      exact endTag_valid h page _
    split at hr
    · obtain rfl := Option.some.inj hr
      exact h
    · obtain rfl := Option.some.inj hr
      exact h
  split at hr
  · obtain rfl := Option.some.inj hr
    exact addText_valid h _ _
  · exact startTag_valid h hr

end Dom
