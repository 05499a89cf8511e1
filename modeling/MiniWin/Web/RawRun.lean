import MiniWin.Web.RawText

/-!
# HTML: the raw text of a page

A page is read token by token, with the raw elements on the way written down. A token is fair if a
raw element, an `<svg>` or a `<math>` finds room where it is opened, if none of the latter two is
written `<svg/>` outside of foreign content, and if no tag closes one of them but its own end tag,
which closes one. In a run of fair tokens raw text stays in its element, and the counter tells
whether foreign content is open.
-/

namespace Dom

open Function Links

variable {arena : Nat → Node} {d d' : Doc} {am pm n i j k el s t fuel : Nat}
  {L l h page : List UInt8} {c : UInt8} {tag : Tag} {below : List Nat} {selfclose : Bool}

/-! ## A raw element -/

theorem Tag.raw_mem (hraw : tag.rawness ≠ .normal) :
    tag ∈ ([.script, .style, .xmp, .iframe, .noembed, .noframes, .title, .textarea] :
      List Tag) := by
  unfold Tag.rawness at hraw
  split_ifs at hraw with h₁ h₂
  · exact List.mem_append_left [.title, .textarea] h₁
  · exact List.mem_append_right [.script, .style, .xmp, .iframe, .noembed, .noframes] h₂
  · exact absurd rfl hraw

/-- **The end tag of a raw element closes this element**, if it is the current one. -/
theorem end_raw (hraw : tag.rawness ≠ .normal) (hstk : d.stk = el :: below)
    (htag : d.tagOf el = tag) : end_ tag d = { d with txt_node := 0, stk := below } := by
  have hfind : find tag .generic { d with txt_node := 0 } = some below := by
    unfold find
    show search _ _ _ d.stk = _
    rw [hstk]
    unfold search
    exact if_pos (decide_eq_true htag)
  have hmem := Tag.raw_mem hraw
  unfold end_ endAt
  simp only [List.mem_cons, List.not_mem_nil, or_false] at hmem
  obtain rfl | rfl | rfl | rfl | rfl | rfl | rfl | rfl := hmem <;>
  · simp only [reduceCtorEq, or_self, if_false, Tag.isHeading, isTablePart, List.mem_cons,
      List.not_mem_nil, decide_false, Bool.false_eq_true]
    rw [hfind]
    rfl

/-- The text that a raw element should have. -/
def expectedText (tag : Tag) (pre : Bool) (text : List UInt8) : List UInt8 :=
  if tag.rawness = .rcdata then
    charBytes true pre 0 (if tag = .textarea then skipNewline text else text)
  else rawBytes text

theorem expectedText_nil (tag : Tag) (pre : Bool) : expectedText tag pre [] = [] := by
  unfold expectedText
  split
  · split <;> rfl
  · rfl

/-- A new element is the current one, and has no children. -/
theorem filling_new (hv : Valid arena d) (hstk : d.stk = el :: below) (hel : el + 1 = d.node_count)
    (hroot : 3 < el) (htxt : d.txt_node = 0) :
    Filling el d.pool.length d.node_count [] below d where
  holds := {
    el_lt := by omega
    root := hroot
    pool := rfl
    child := fun c hc hlt => by
      have hp : (d.nodes c).parent < c := hv.whole.tree.parent_lt c hc hlt
      exact iff_of_false (by omega) fun hL => hL.1 rfl
    text := absurd rfl
    apart := fun _ _ _ _ i hi hi' => absurd hi' (Nat.not_lt.mpr hi) }
  stk := hstk
  fin := rfl
  next _ := ⟨htxt, rfl⟩
  hand := absurd rfl

/-- The current element is finished and closed. -/
theorem Filling.shut (h : Filling el s t L below d) (hel : el ∉ below) :
    Full (Shut el s t L) { d with txt_node := 0, skip_lf := false, stk := below } where
  holds := h.holds.of_eq rfl rfl h.holds.pool
  closed := hel
  hand := absurd rfl
  mark := h.fin.le

theorem Filling.skip (h : Filling el s t L below d) (skip_lf : Bool) :
    Filling el s t L below { d with skip_lf := skip_lf } :=
  ⟨h.holds.of_eq rfl rfl h.holds.pool, h.stk, h.fin, h.next, h.hand⟩

/-- A text is put below the current element, unless there has been no room before. -/
theorem Filling.content (h : Filling el s t [] below d) (hv : Valid arena d) (l : List UInt8) :
    ∃ T, T <+: l ∧ (T = l ∨ (if d.truncated then d else putText l d).truncated = true) ∧
      Filling el s t T below (if d.truncated then d else putText l d) ∧
      Quiet d (if d.truncated then d else putText l d) := by
  split
  · next ht => exact ⟨[], List.nil_prefix, .inr ht, h, .refl d⟩
  · obtain ⟨m, -, hfill, hend⟩ := h.put hv l
    refine ⟨l.take m, List.take_prefix m l, hend.imp_left fun hm => ?_, hfill, putText_quiet hv l⟩
    rw [hm, List.take_length]

/-- What `dom_add_text` puts, if it is not below `<head>`. -/
theorem addText_eq (hv : Valid arena d) (hcur : d.curTag ≠ .head) (decode : Bool)
    (text : List UInt8) : addText decode text d =
      let l := charBytes decode (inPre d) 0 (if d.skip_lf then skipNewline text else text)
      if d.truncated then { d with skip_lf := false } else putText l { d with skip_lf := false } := by
  have hhead : ∀ p : Prop, ¬ (p ∧ d.curTag = .head) := fun _ hc => hcur hc.2
  have hvalid := hv.flags d.truncated false d.foreign
  unfold addText
  rw [if_neg fun hc => hcur hc.2.1, if_neg (hhead _)]
  dsimp only
  cases hs : d.skip_lf with
  | true => exact addChars_eq decode _ 0 _ hvalid
  | false =>
    have heq : ({ d with skip_lf := false } : Doc) = d := by rw [← hs]
    have hrest := addChars_eq decode (inPre d) 0 text hv
    rw [heq]
    exact hrest

/-- **The text of a raw element goes into the element**, as far as there is room. -/
theorem rawElement_shut (hv : Valid arena d) (hstk : d.stk = el :: below)
    (hel : el + 1 = d.node_count) (hroot : 3 < el) (hbelow : el ∉ below) (htag : d.tagOf el = tag)
    (hraw : tag.rawness ≠ .normal) (htxt : d.txt_node = 0) {r : Nat × Doc}
    (hr : rawElement fuel page tag i d = some r) :
    ∃ k, findClose page tag.name fuel i = some k ∧
      (∃ T, T <+: expectedText tag (inPre d) (slice page i k) ∧
        (T = expectedText tag (inPre d) (slice page i k) ∨ r.2.truncated = true) ∧
        Full (Shut el d.pool.length d.node_count T) r.2) ∧
      SameNodes d r.2 ∧ r.2.stk = below ∧ r.2.foreign = d.foreign ∧ r.2.in_head = d.in_head := by
  obtain ⟨k, hk, rfl⟩ := Option.map_eq_some_iff.mp hr
  refine ⟨k, hk, ?_⟩
  have hfill := filling_new hv hstk hel hroot htxt
  have hcur : d.curTag = tag := by
    unfold Doc.curTag Doc.cur
    rw [hstk, if_neg (List.cons_ne_nil _ _)]
    exact htag
  obtain ⟨d₁, hd₁⟩ : ∃ d₁, (if tag = .textarea then { d with skip_lf := true } else d) = d₁ :=
    ⟨_, rfl⟩
  have heq₁ : ∀ b, ({ d₁ with skip_lf := b } : Doc) = { d with skip_lf := b } := by
    intro b
    rw [← hd₁]
    split <;> rfl
  obtain ⟨d₂, hd₂⟩ : ∃ d₂, (if k > i then if tag.rawness = .rcdata then
      addText true (slice page i k) { d₁ with skip_lf := decide (tag = .textarea) }
      else rawText (slice page i k) { d₁ with skip_lf := decide (tag = .textarea) } else d₁) = d₂ :=
    ⟨_, rfl⟩
  have hput : ∃ T, T <+: expectedText tag (inPre d) (slice page i k) ∧
      (T = expectedText tag (inPre d) (slice page i k) ∨ d₂.truncated = true) ∧
      Filling el d.pool.length d.node_count T below d₂ ∧ Quiet d d₂ := by
    rw [← hd₂]
    split
    · have hv' := hv.flags d.truncated (decide (tag = .textarea)) d.foreign
      rw [heq₁]
      split
      · next hrc =>
        have hne : ({ d with skip_lf := decide (tag = .textarea) } : Doc).curTag ≠ .head := by
          show d.curTag ≠ .head
          rw [hcur]
          rintro rfl
          exact hraw rfl
        have hexp : expectedText tag (inPre d) (slice page i k) = charBytes true (inPre d) 0
            (if decide (tag = .textarea) = true then skipNewline (slice page i k)
              else slice page i k) := by
          unfold expectedText
          rw [if_pos hrc]
          simp only [decide_eq_true_eq]
        rw [addText_eq hv' hne, hexp]
        obtain ⟨T, hT, hend, hfill', hquiet⟩ :=
          (hfill.skip false).content (hv.flags d.truncated false d.foreign) (charBytes true
            (inPre d) 0 (if decide (tag = .textarea) = true then skipNewline (slice page i k)
              else slice page i k))
        exact ⟨T, hT, hend, hfill', hquiet.same, hquiet.stk, hquiet.foreign, hquiet.in_head⟩
      · next hrc =>
        have hexp : expectedText tag (inPre d) (slice page i k) = rawBytes (slice page i k) :=
          if_neg hrc
        rw [rawText_eq _ hv', hexp]
        obtain ⟨T, hT, hend, hfill', hquiet⟩ :=
          (hfill.skip (decide (tag = .textarea))).content hv' (rawBytes (slice page i k))
        exact ⟨T, hT, hend, hfill', hquiet.same, hquiet.stk, hquiet.foreign, hquiet.in_head⟩
    · next hki =>
      have hnil : slice page i k = [] := by
        unfold slice
        rw [Nat.sub_eq_zero_of_le (Nat.not_lt.mp hki), List.take_zero]
      rw [hnil, expectedText_nil, ← hd₁]
      refine ⟨[], List.nil_prefix, .inl rfl, ?_⟩
      split
      · exact ⟨hfill.skip true, (Quiet.refl d).same, rfl, rfl, rfl⟩
      · exact ⟨hfill, .refl d⟩
  obtain ⟨T, hT, hend, hfill₂, hquiet⟩ := hput
  have htag₂ : d₂.tagOf el = tag :=
    ((hquiet.same.2 el (by omega)).2.1).trans htag
  have hclose : end_ tag { d₂ with skip_lf := false, txt_node := 0 }
      = { d₂ with txt_node := 0, skip_lf := false, stk := below } :=
    end_raw (d := { d₂ with skip_lf := false, txt_node := 0 }) hraw hfill₂.stk htag₂
  dsimp only
  rw [hd₁, hd₂, hclose]
  exact ⟨⟨T, hT, hend, hfill₂.shut hbelow⟩, hquiet.same, rfl, hquiet.foreign, hquiet.in_head⟩

/-! ## Foreign content -/

def isForeignRoot (t : Tag) : Bool := t = .svg ∨ t = .math

/-- How many `<svg>` and `<math>` elements are open. -/
def foreignOpen (d : Doc) : Nat := d.stk.countP fun n => isForeignRoot (d.tagOf n)

/-- The counter is right, and there is no foreign content in the head. -/
structure Counted (d : Doc) : Prop where
  count : d.foreign = foreignOpen d
  head : d.in_head = true → foreignOpen d = 0

theorem foreignOpen_congr (hsame : SameNodes d d') (hopen : ∀ n ∈ d.stk, n < d.node_count)
    (hstk : d'.stk = d.stk) : foreignOpen d' = foreignOpen d := by
  unfold foreignOpen
  rw [hstk]
  refine List.countP_congr fun n hn => ?_
  rw [show d'.tagOf n = d.tagOf n from (hsame.2 n (hopen n hn)).2.1]

theorem Open.lt (h : Open d) : ∀ n ∈ d.stk, n < d.node_count := fun n hn => (h.elem n hn).1

theorem Counted.quiet (hc : Counted d) (hv : Valid arena d) (hq : Quiet d d') : Counted d' := by
  have hopen := foreignOpen_congr hq.same hv.whole.opened.lt hq.stk
  exact ⟨by rw [hq.foreign, hc.count, hopen], fun hh => hopen.trans (hc.head (hq.in_head ▸ hh))⟩

theorem Counted.enterBody (hc : Counted d) (h : Ok arena am pm d) : Counted (enterBody d) := by
  unfold Dom.enterBody
  split
  · exact hc
  next hh =>
  have hzero := hc.head (not_not.mp hh)
  have hbody : foreignOpen { d with in_head := false, stk := [d.body, d.html] } = 0 := by
    unfold foreignOpen Doc.tagOf
    dsimp only
    rw [h.roots.body.1, h.roots.html.1, List.countP_cons, List.countP_cons, List.countP_nil,
      h.roots.body.2.2.1, h.roots.html.2.2]
    rfl
  exact ⟨hc.count.trans (hzero.trans hbody.symm), fun _ => hbody⟩

theorem Counted.addText (hc : Counted d) (hv : Valid arena d) (decode : Bool) (text : List UInt8) :
    Counted (addText decode text d) := by
  unfold Dom.addText
  split
  · exact hc
  dsimp only
  obtain ⟨d₁, hd₁⟩ : ∃ d₁,
      (if d.in_head = true ∧ d.curTag = .head then Dom.enterBody d else d) = d₁ := ⟨_, rfl⟩
  have h₁ : Valid arena d₁ ∧ Counted d₁ := by
    rw [← hd₁]
    split
    · exact ⟨hv.enterBody, hc.enterBody hv.whole⟩
    · exact ⟨hv, hc⟩
  have hput : ∀ (d : Doc) (l : List UInt8), Valid arena d → Counted d →
      Counted (addChars decode (inPre d) 0 l d) := fun d l hv hc => by
    rw [addChars_eq decode _ 0 l hv]
    split
    · exact hc
    · exact hc.quiet hv (putText_quiet hv _)
  rw [hd₁]
  split
  · exact hput _ _ (h₁.1.flags d₁.truncated false d₁.foreign) ⟨h₁.2.count, h₁.2.head⟩
  · exact hput _ _ h₁.1 h₁.2

/-! ### Start tags -/

/-- The document that `dom_start` gets. -/
def handed (tag : Tag) (d : Doc) : Doc :=
  { (if tag = .pre ∨ tag = .listing ∨ tag = .textarea then { d with skip_lf := false } else d) with
    txt_node := 0 }

/-- The document that the element of a start tag goes into, with what the tag closes closed. -/
def site (tag : Tag) (d : Doc) : Doc := ready tag (handed tag d)

theorem handed_ok (h : Ok arena am pm d) (tag : Tag) : Ok arena am pm (handed tag d) := by
  unfold handed
  split
  · exact h.flags _ _ _ _
  · exact h.flags _ _ _ _

theorem handed_rest (tag : Tag) (d : Doc) :
    handed tag d = { d with skip_lf := (handed tag d).skip_lf, txt_node := 0 } := by
  unfold handed
  split <;> rfl

theorem openTag_eq (tag : Tag) (am pm : Nat) (selfclose : Bool) (d : Doc) :
    openTag tag am pm selfclose d =
      let r := startAt tag am (d.attrs.length - am) pm selfclose (handed tag d)
      (r.1, if tag = .pre ∨ tag = .listing then { r.2 with skip_lf := true } else r.2) := by
  unfold openTag handed start
  by_cases hp : tag = .pre ∨ tag = .listing ∨ tag = .textarea
  · simp only [if_pos hp]
  · simp only [if_neg hp]

/-- **A start tag that has an element.** -/
theorem openTag_inserted (h : Ok arena am pm d) (ht : tag.inserts) (selfclose : Bool) :
    ∃ r, Inserted tag (opens tag selfclose (handed tag d)) (site tag d) r ∧
      (openTag tag am pm selfclose d).1 = r.1 ∧
      (openTag tag am pm selfclose d).2 = { r.2 with
        foreign := if isForeignRoot tag ∧ ¬ selfclose then r.2.foreign + 1 else r.2.foreign
        skip_lf := (openTag tag am pm selfclose d).2.skip_lf } := by
  have hr := (keeps_ready tag (handed tag d) (handed_ok h tag)).1.whole
  refine ⟨insertElem tag am (d.attrs.length - am) (opens tag selfclose (handed tag d)) (site tag d),
    insertElem_inserted hr .., ?_⟩
  have hroot : (tag = .svg ∨ tag = .math) ↔ isForeignRoot tag = true :=
    decide_eq_true_iff.symm
  rw [openTag_eq, startAt_eq ht]
  simp only [hroot]
  refine ⟨rfl, ?_⟩
  show (if _ then _ else _ : Doc) = _
  split <;> split <;> rfl

theorem ready_foreign (tag : Tag) (d : Doc) : (ready tag d).foreign = d.foreign := by
  have hbody : ∀ d : Doc, (enterBody d).foreign = d.foreign := fun d => by
    unfold enterBody
    split <;> rfl
  have hins : ∀ d : Doc, (insertElem .tr 0 0 true d).2.foreign = d.foreign := fun d => by
    have hnew : ∀ x : Node, (newNode x d).2.foreign = d.foreign := fun x => by
      unfold newNode
      split <;> rfl
    have happ : ∀ (p c : Nat) (d : Doc), (append p c d).foreign = d.foreign := fun p c d => by
      rw [append_rest]
    unfold insertElem
    dsimp only
    split
    · exact hnew _
    · dsimp only
      split
      · exact (happ ..).trans (hnew _)
      · exact (happ ..).trans (hnew _)
  have hif : ∀ (q : Tag → Bool) (d : Doc), (popIf q d).foreign = d.foreign := fun q d => by
    unfold popIf
    split <;> rfl
  have hroom : ∀ d : Doc, (makeRoom tag d).foreign = d.foreign := fun d => by
    unfold makeRoom
    dsimp only
    obtain ⟨d₁, hd₁⟩ : ∃ d₁, (if tag.isHeading then popIf Tag.isHeading
      (if tag.closesP then closeP d else d) else if tag.closesP then closeP d else d) = d₁ :=
        ⟨_, rfl⟩
    have h₁ : d₁.foreign = d.foreign := by
      rw [← hd₁]
      split <;> split <;> first | rfl | exact hif _ _
    rw [hd₁, ← h₁]
    split
    · rfl
    · rfl
    · rfl
    · exact hif _ _
    · exact (hif _ _).trans (hif _ _)
    · rfl
    · rfl
    · rfl
    · rfl
    · rfl
    · rfl
    · rfl
    · rfl
    · split
      · exact hins _
      · rfl
    · split
      · exact hins _
      · rfl
    · rfl
  unfold ready
  dsimp only
  split <;> split
  · exact (hroom _).trans (hbody _)
  · exact hbody _
  · exact hroom _
  · rfl

/-- Nothing leads back into the head. -/
theorem head_law (b : Bool) : Law arena (fun _ => True) (fun _ _ => True)
    fun _ _ d => d.in_head = true → b = true where
  whole _ hp := hp
  flags _ _ _ hp := hp
  unhand hp := hp
  close _ hp _ := hp
  body _ _ := nofun
  insert a b h hp _ := by
    rw [(insertElem_inserted h _ a b _).rest]
    exact hp
  root _ hp _ := hp
  drop _ hp := hp
  attr {am pm d name value} _ hp _ := by
    unfold keepAttr
    dsimp only
    split
    · obtain ⟨l, hl⟩ := (putValues_filled 0 value d).eq
      rw [hl]
      exact hp
    · exact hp
  text hv hp _ := by
    rw [(putText_quiet hv _).in_head]
    exact hp
  chars _ _ _ _ := trivial

/-- **A fair start tag**: it closes no `<svg>` and no `<math>`, there is room for a raw element or
one of these two, and these are not written as closed outside of foreign content. -/
structure FairStart (tag : Tag) (selfclose : Bool) (d : Doc) : Prop where
  closes : foreignOpen (site tag d) = foreignOpen d
  room : opens tag selfclose (handed tag d) = true → tag.rawness ≠ .normal ∨ isForeignRoot tag →
    (site tag d).stk.length < stackMax
  node : isForeignRoot tag → (site tag d).node_count < nodeMax
  self : isForeignRoot tag → selfclose → d.foreign ≠ 0

theorem site_head (h : Ok arena am pm d) (hh : (site tag d).in_head = true) :
    d.in_head = true ∧ tag.isHeadish = true := by
  have hlaw : (handed tag d).in_head = true :=
    ((head_law (handed tag d).in_head).ready tag).obeys (handed tag d) (handed_ok h tag) id hh
  have hin : d.in_head = true := by
    rw [handed_rest] at hlaw
    exact hlaw
  refine ⟨hin, ?_⟩
  by_contra hne
  have hnot : ¬ (enterBody (handed tag d)).in_head = true := by
    unfold enterBody
    rw [if_neg (not_not_intro hlaw)]
    exact Bool.false_ne_true
  have hbody : ready tag (handed tag d) = makeRoom tag (enterBody (handed tag d)) := by
    have hcond : (handed tag d).in_head = true ∧ ¬ tag.isHeadish = true := ⟨hlaw, hne⟩
    unfold ready
    dsimp only
    simp only [if_pos hcond]
    exact if_pos hnot
  have hb := keeps_enterBody (handed tag d) (handed_ok h tag)
  unfold site at hh
  rw [hbody] at hh
  exact hnot (((head_law (enterBody (handed tag d)).in_head).makeRoom tag).obeys _ hb.1 id hh)

theorem Counted.rootAttrs (hc : Counted d) (h : Ok arena am pm d) (n a b p : Nat) :
    Counted (rootAttrs n a b p d) := by
  unfold Dom.rootAttrs
  split
  · have hopen : foreignOpen (d.setNode n { d.nodes n with a := a, b := b }) = foreignOpen d :=
      foreignOpen_congr (setNode_same n a b) h.opened.lt rfl
    exact ⟨hc.count.trans hopen.symm, fun hh => hopen.trans (hc.head hh)⟩
  · exact ⟨hc.count, hc.head⟩

theorem handed_counted (hc : Counted d) (tag : Tag) : Counted (handed tag d) := by
  unfold handed
  split
  · exact ⟨hc.count, hc.head⟩
  · exact ⟨hc.count, hc.head⟩

/-- **A fair start tag keeps the count.** -/
theorem openTag_counted (h : Ok arena am pm d) (hc : Counted d)
    (hf : tag.inserts → FairStart tag selfclose d) :
    Counted (openTag tag am pm selfclose d).2 := by
  by_cases ht : tag.inserts
  · obtain ⟨hcloses, hroom, hnode, hself⟩ := hf ht
    obtain ⟨r, hins, -, heq⟩ := openTag_inserted h ht selfclose
    have hr := (keeps_ready tag (handed tag d) (handed_ok h tag)).1
    have hforeign : (site tag d).foreign = d.foreign := by
      unfold site
      rw [ready_foreign, handed_rest]
    have hrf : r.2.foreign = d.foreign := by
      rw [hins.rest]
      exact hforeign
    have hrh : r.2.in_head = (site tag d).in_head := by rw [hins.rest]
    have hold : ∀ n ∈ (site tag d).stk, isForeignRoot (r.2.tagOf n) =
        isForeignRoot ((site tag d).tagOf n) := fun n hn => by
      rw [show r.2.tagOf n = _ from (hins.same.2 n (hr.opened.lt n hn)).2.1]
      rfl
    have hbelow :
        (site tag d).stk.countP (fun n => isForeignRoot (r.2.tagOf n)) = foreignOpen d := by
      rw [← hcloses]
      exact List.countP_congr fun n hn => by rw [hold n hn]
    have hopen : foreignOpen r.2 =
        foreignOpen d + if isForeignRoot tag ∧ ¬ selfclose then 1 else 0 := by
      unfold foreignOpen at hbelow ⊢
      rw [hins.stk]
      by_cases hft : isForeignRoot tag = true
      · have hvoid : tag.isVoid = false := by
          obtain rfl | rfl := of_decide_eq_true hft <;> rfl
        have hopens : opens tag selfclose (handed tag d) = !selfclose := by
          have hf' : (ready tag (handed tag d)).foreign = d.foreign := hforeign
          unfold opens
          rw [hf', hvoid]
          cases hsc : selfclose with
          | false => simp
          | true => simp [hself hft hsc]
        rw [hopens]
        cases hsc : selfclose with
        | true => simpa using hbelow
        | false =>
          rw [hsc] at hopens
          have hnew := hins.new (site tag d).node_count (Nat.le_refl _) (by
            obtain ⟨hfull, -⟩ | ⟨-, -, hcnt⟩ := hins.id
            · exact absurd (hnode hft) (Nat.not_lt.mpr hfull)
            · omega)
          rw [if_pos ⟨rfl, hroom (hsc ▸ hopens) (.inr hft), hnode hft⟩, List.countP_cons, hbelow,
            hnew.2.2.2.1, if_pos hft, if_pos ⟨hft, Bool.false_ne_true⟩]
      · have hz : (if isForeignRoot tag = true ∧ ¬ selfclose = true then 1 else 0) = 0 :=
          if_neg fun hc => hft hc.1
        rw [hz]
        split
        · next hp =>
          obtain ⟨hfull, -⟩ | ⟨-, -, hcnt⟩ := hins.id
          · exact absurd hp.2.2 (Nat.not_lt.mpr hfull)
          have hnew := hins.new (site tag d).node_count (Nat.le_refl _) (by omega)
          rw [List.countP_cons, hbelow, hnew.2.2.2.1, if_neg hft]
        · exact hbelow
    have hfin : foreignOpen (openTag tag am pm selfclose d).2 = foreignOpen r.2 := by
      rw [heq]
      rfl
    refine ⟨?_, fun hh => ?_⟩
    · rw [hfin, hopen, ← hc.count, heq, ← hrf]
      show (if _ then _ else _ : Nat) = _
      split <;> rfl
    · rw [heq] at hh
      obtain ⟨hin, hheadish⟩ := site_head h (hrh ▸ hh)
      rw [hfin, hopen, hc.head hin, if_neg]
      rintro ⟨hft, -⟩
      obtain rfl | rfl := of_decide_eq_true hft <;> exact nomatch hheadish
  · have h₁ := handed_ok h tag
    have hc₁ := handed_counted hc tag
    have hstart : Counted (startAt tag am (d.attrs.length - am) pm selfclose (handed tag d)).2 := by
      unfold startAt
      split
      · exact hc₁.rootAttrs h₁ ..
      split
      · exact ⟨hc₁.count, hc₁.head⟩
      split
      · exact (hc₁.enterBody h₁).rootAttrs (keeps_enterBody _ h₁).1 ..
      split
      · exact ⟨hc₁.count, hc₁.head⟩
      · next h₁ h₂ h₃ h₄ => exact absurd ⟨h₁, h₂, h₃, h₄⟩ ht
    rw [openTag_eq]
    dsimp only
    split
    · exact ⟨hstart.count, hstart.head⟩
    · exact hstart

/-! ### End tags -/

/-- What is below the element that an end tag closes, if it finds one. -/
def endSearch (tag : Tag) (d : Doc) : Option (List Nat) :=
  if tag = .html ∨ tag = .body ∨ tag = .head ∨ tag = .br then none
  else if tag = .p then find .p .button d
  else if tag = .li then find .li .li d
  else if tag = .dd ∨ tag = .dt then find tag .generic d
  else if tag.isHeading then search d Tag.isHeading (scopeStop · .generic) d.stk
  else if isTablePart tag
      ∨ tag ∈ ([.td, .th, .tr, .caption, .colgroup] : List Tag) then find tag .table d
  else
    match find tag .generic d with
    | some below => some below
    | none => if isFormatting tag then none else search d (· = tag) Tag.isSpecial d.stk

/-- **A fair end tag** closes no `<svg>` and no `<math>`, but one if it is an end tag of these. -/
def FairEnd (tag : Tag) (d : Doc) : Prop :=
  ((endSearch tag d).getD d.stk).countP (fun n => isForeignRoot (d.tagOf n)) =
    foreignOpen d - if isForeignRoot tag then 1 else 0

theorem start_foreign (tag : Tag) (a b p : Nat) (hft : isForeignRoot tag = false)
    (ht : tag.inserts) (h : Ok arena am pm d) :
    (start tag a b p false d).2.foreign = d.foreign := by
  have h₁ := h.flags d.truncated d.skip_lf 0 d.foreign
  have hr := (keeps_ready tag _ h₁).1
  have hnot : ¬ ((tag = .svg ∨ tag = .math) ∧ ¬ false = true) := fun hc => by
    rw [isForeignRoot, decide_eq_false_iff_not] at hft
    exact hft hc.1
  unfold start
  rw [startAt_eq ht]
  dsimp only
  rw [if_neg hnot, (insertElem_inserted hr tag a b _).rest]
  exact ready_foreign tag _

theorem end_foreign (h : Whole arena d) (tag : Tag) :
    (end_ tag d).foreign = d.foreign - if isForeignRoot tag then 1 else 0 := by
  have hno : ∀ {t : Tag}, tag = t → isForeignRoot t = false →
      d.foreign = d.foreign - if isForeignRoot tag then 1 else 0 := fun ht hf => by
    rw [ht, hf]
    rfl
  have hbody : ∀ d : Doc, (enterBody d).foreign = d.foreign := fun d => by
    unfold enterBody
    split <;> rfl
  unfold end_ endAt
  split
  · next ht => exact ht.elim (fun ht => hno ht rfl) fun ht => hno ht rfl
  split
  · next ht => exact (hbody _).trans (hno ht rfl)
  split
  · next ht =>
    have h₁ := Ok.flags h d.truncated d.skip_lf 0 d.foreign
    have hbr : Tag.inserts .br := ⟨by decide, by decide, by decide, by decide⟩
    exact (start_foreign .br _ _ _ rfl hbr h₁).trans (hno ht rfl)
  split
  · next ht =>
    split
    · exact hno ht rfl
    · split
      · have h₁ := Ok.flags h d.truncated d.skip_lf 0 d.foreign
        rw [(insertElem_inserted h₁ .p 0 0 false).rest]
        exact hno ht rfl
      · exact hno ht rfl
  split
  · next ht => exact hno ht rfl
  split
  · next ht => exact ht.elim (fun ht => hno ht rfl) fun ht => hno ht rfl
  split
  · next ht =>
    have hf : isForeignRoot tag = false := by
      have hall : ∀ t ∈ ([.h1, .h2, .h3, .h4, .h5, .h6] : List Tag), isForeignRoot t = false := by
        decide
      exact hall tag (of_decide_eq_true ht)
    rw [hf]
    rfl
  split
  · next ht =>
    have hf : isForeignRoot tag = false := by
      have hall : ∀ t ∈ ([.table, .tbody, .thead, .tfoot] ++ [.td, .th, .tr, .caption, .colgroup] :
          List Tag), isForeignRoot t = false := by decide
      exact hall tag (List.mem_append.mpr (ht.imp_left of_decide_eq_true))
    rw [hf]
    rfl
  · have hroot : (tag = .svg ∨ tag = .math) ↔ isForeignRoot tag = true :=
      decide_eq_true_iff.symm
    simp only [hroot]
    split <;> split <;> first | rfl | (split <;> rfl)

theorem enterBody_open (h : Ok arena am pm d) (hc : Counted d) :
    foreignOpen (enterBody d) = foreignOpen d := by
  have hbody := hc.enterBody h
  unfold enterBody at hbody ⊢
  split
  · rfl
  · next hh =>
    rw [if_neg hh] at hbody
    rw [← hbody.count, ← hc.count]

/-- An element that is not left open changes nothing on the stack. -/
theorem insertElem_open (h : Whole arena d) (tag : Tag) (a b : Nat) :
    foreignOpen (insertElem tag a b false d).2 = foreignOpen d := by
  have hins := insertElem_inserted h tag a b false
  have hstk := hins.stk
  rw [if_neg fun hc => nomatch hc.1] at hstk
  exact foreignOpen_congr hins.same h.opened.lt hstk

theorem search_congr (hn : d'.nodes = d.nodes) (wanted stop : Tag → Bool) :
    ∀ stk, search d' wanted stop stk = search d wanted stop stk
  | [] => rfl
  | n :: below => by
    unfold search Doc.tagOf
    rw [hn, search_congr hn wanted stop below]

theorem find_congr (hn : d'.nodes = d.nodes) (hs : d'.stk = d.stk) (tag : Tag) (kind : Scope) :
    find tag kind d' = find tag kind d := by
  unfold find
  rw [hs]
  exact search_congr hn _ _ _

/-- An end tag closes what it finds. -/
theorem end_open (h : Whole arena d) (hc : Counted d) (tag : Tag) : foreignOpen (end_ tag d) =
    ((endSearch tag d).getD d.stk).countP fun n => isForeignRoot (d.tagOf n) := by
  have h₁ : Ok arena d.attrs.length d.pool.length { d with txt_node := 0 } :=
    Ok.flags h d.truncated d.skip_lf 0 d.foreign
  have hc₁ : Counted { d with txt_node := 0 } := ⟨hc.count, hc.head⟩
  unfold end_ endAt endSearch
  by_cases hroot : tag = .html ∨ tag = .body
  · rw [if_pos hroot, if_pos (hroot.imp_right .inl)]
    rfl
  rw [if_neg hroot]
  by_cases hhead : tag = .head
  · rw [if_pos hhead, if_pos (.inr (.inr (.inl hhead)))]
    exact enterBody_open h₁ hc₁
  rw [if_neg hhead]
  by_cases hbr : tag = .br
  · rw [if_pos hbr, if_pos (.inr (.inr (.inr hbr)))]
    -- `<br>` is put where the text is, and not left open
    have hr := (keeps_ready .br { d with txt_node := 0 } h₁).1
    have hready : foreignOpen (ready .br { d with txt_node := 0 }) = foreignOpen d := by
      have hbody := enterBody_open h₁ hc₁
      unfold ready
      dsimp only
      split <;> split
      · exact hbody
      · exact hbody
      · rfl
      · rfl
    unfold start
    rw [startAt_eq ⟨by decide, by decide, by decide, by decide⟩]
    exact (insertElem_open hr.whole .br _ _).trans hready
  have hnone : ¬ (tag = .html ∨ tag = .body ∨ tag = .head ∨ tag = .br) := by tauto
  rw [if_neg hbr, if_neg hnone]
  have hfind : ∀ foreign tag kind,
      find tag kind { d with txt_node := 0, foreign := foreign } = find tag kind d :=
    fun foreign tag kind =>
      find_congr (show ({ d with txt_node := 0, foreign := foreign } : Doc).nodes = d.nodes from rfl)
        rfl tag kind
  have hsearch : ∀ foreign wanted stop,
      search { d with txt_node := 0, foreign := foreign } wanted stop d.stk =
        search d wanted stop d.stk :=
    fun foreign wanted stop =>
      search_congr
        (show ({ d with txt_node := 0, foreign := foreign } : Doc).nodes = d.nodes from rfl)
        wanted stop d.stk
  by_cases hp : tag = .p
  · rw [if_pos hp, if_pos hp, hfind]
    cases find .p .button d with
    | some below => rfl
    | none =>
      dsimp only
      split
      · exact insertElem_open h₁.whole .p 0 0
      · rfl
  rw [if_neg hp, if_neg hp]
  by_cases hli : tag = .li
  · rw [if_pos hli, if_pos hli, hfind]
    rfl
  rw [if_neg hli, if_neg hli]
  by_cases hdd : tag = .dd ∨ tag = .dt
  · rw [if_pos hdd, if_pos hdd, hfind]
    rfl
  rw [if_neg hdd, if_neg hdd]
  by_cases hh : tag.isHeading = true
  · rw [if_pos hh, if_pos hh, hsearch]
    rfl
  rw [if_neg hh, if_neg hh]
  by_cases ht : isTablePart tag = true ∨ tag ∈ ([.td, .th, .tr, .caption, .colgroup] : List Tag)
  · rw [if_pos ht, if_pos ht, hfind]
    rfl
  rw [if_neg ht, if_neg ht]
  obtain ⟨foreign, hd₁⟩ : ∃ foreign, (if tag = .svg ∨ tag = .math then
      ({ d with txt_node := 0, foreign := d.foreign - 1 } : Doc) else { d with txt_node := 0 }) =
      { d with txt_node := 0, foreign := foreign } := by
    split
    · exact ⟨_, rfl⟩
    · exact ⟨d.foreign, rfl⟩
  dsimp only
  rw [hd₁, hfind, hsearch]
  cases find tag .generic d with
  | some below => rfl
  | none =>
    dsimp only
    split <;> rfl

theorem end_counted (h : Whole arena d) (hc : Counted d) (hf : FairEnd tag d) :
    Counted (end_ tag d) := by
  have hopen : foreignOpen (end_ tag d) = foreignOpen d - if isForeignRoot tag then 1 else 0 :=
    (end_open h hc tag).trans hf
  refine ⟨by rw [end_foreign h, hopen, hc.count], fun hh => ?_⟩
  have hin : d.in_head = true := ((head_law d.in_head).end_ h (id : d.in_head = true → _) tag) hh
  rw [hopen, hc.head hin, Nat.zero_sub]

/-! ## A page -/

/-- The raw element that a start tag at `i` opens, with the text it should have. -/
def rawStart (fuel : Nat) (h : List UInt8) (i : Nat) (d : Doc) : List (Nat × List UInt8) :=
  match parseAttrs fuel (h.drop (nameEnd h i)) false d with
  | none => []
  | some (rest, selfclose, d₁) =>
    let tag := startTagId h i
    let r := openTag tag d.attrs.length d.pool.length selfclose d₁
    if tag.rawness ≠ .normal ∧ r.1 ≠ 0 ∧ ¬ (selfclose ∧ r.2.foreign ≠ 0) then
      match findClose h tag.name fuel (h.length - rest.length) with
      | none => []
      | some k => [(r.1, expectedText tag (inPre r.2) (slice h (h.length - rest.length) k))]
    else []

/-- The raw element that the token at `i` opens, if it is a start tag. -/
def rawOf (fuel : Nat) (h : List UInt8) (i : Nat) (d : Doc) : List (Nat × List UInt8) :=
  match h.drop i with
  | 0x3C :: c :: _ => if isAlpha c then rawStart fuel h (i + 1) d else []
  | _ => []

/-- **A fair token.** -/
structure Fair (fuel : Nat) (h : List UInt8) (i : Nat) (d : Doc) : Prop where
  start : StartsAt h i → ∀ r, parseAttrs fuel (h.drop (nameEnd h (i + 1))) false d = some r →
    (startTagId h (i + 1)).inserts → FairStart (startTagId h (i + 1)) r.2.1 r.2.2
  end_ : EndsAt h i → FairEnd (tagId (nameOf h (i + 2))) d

/-- **The documents of a page whose tokens are all as `Q` says**, with the raw elements so far. -/
inductive Reads (Q : Nat → List UInt8 → Nat → Doc → Prop) (arena : Nat → Node) (h : List UInt8) :
    Nat → Doc → List (Nat × List UInt8) → Prop
  | start : Reads Q arena h 0 (reset arena) []
  | token {fuel i j : Nat} {d d' : Doc} {raws : List (Nat × List UInt8)}
      (hr : Reads Q arena h i d raws) (hi : i < h.length) (ht : d.truncated = false)
      (hq : Q fuel h i d) (hstep : token fuel h i d = some (j, d')) :
      Reads Q arena h j d' (rawOf fuel h i d ++ raws)

/-- The text of an element is `T`, or the front of it there has been room for. -/
def TextIs (d : Doc) (el : Nat) (T : List UInt8) : Prop :=
  ∃ s t L, L <+: T ∧ (L = T ∨ d.truncated = true) ∧ Holds el s t L d

/-- **What should hold of a document**: the raw texts are in their elements and nowhere else, an
element without content has no children, and the counter tells whether foreign content is open. -/
structure Kept (d : Doc) (raws : List (Nat × List UInt8)) : Prop where
  raw : ∀ r ∈ raws, TextIs d r.1 r.2
  void : ∀ v < d.node_count, (d.tagOf v).isVoid = true → (d.nodes v).first = 0
  foreign : 0 < d.foreign ↔ ∃ n ∈ d.stk, isForeignRoot (d.tagOf n) = true

theorem Counted.iff (hc : Counted d) :
    0 < d.foreign ↔ ∃ n ∈ d.stk, isForeignRoot (d.tagOf n) = true := by
  rw [hc.count]
  exact List.countP_pos_iff

/-- **Elements without content have no children.** -/
theorem first_eq_zero (hp : Full NoVoid d) (h : Whole arena d) {v : Nat} (hv : v < d.node_count)
    (hvoid : (d.tagOf v).isVoid = true) : (d.nodes v).first = 0 := by
  obtain ⟨l, hchain, -, -, hmem⟩ := h.tree.kids v hv
  cases l with
  | nil => exact hchain.eq_zero
  | cons c l =>
    obtain ⟨hc, hlt, hpar⟩ := (hmem c).mp List.mem_cons_self
    have hno := hp.2 c hc hlt
    rw [show (d.nodes c).parent = v from hpar, hvoid] at hno
    exact nomatch hno

/-- What is carried through a run. -/
structure Sealed (arena : Nat → Node) (d : Doc) (raws : List (Nat × List UInt8)) : Prop where
  valid : Valid arena d
  void : Full NoVoid d
  counted : Counted d
  raw : ∀ r ∈ raws, ∃ s t L, L <+: r.2 ∧ (L = r.2 ∨ d.truncated = true) ∧ Full (Shut r.1 s t L) d

theorem Sealed.kept {raws : List (Nat × List UInt8)} (h : Sealed arena d raws) : Kept d raws where
  raw r hr := by
    obtain ⟨s, t, L, hL, hend, hshut⟩ := h.raw r hr
    exact ⟨s, t, L, hL, hend, hshut.holds⟩
  void _ hv hvoid := first_eq_zero h.void h.valid.whole hv hvoid
  foreign := h.counted.iff

theorem reset_sealed (arena : Nat → Node) : Sealed arena (reset arena) [] where
  valid := valid_of_whole ⟨reset_whole arena, by rw [reset_eq]⟩
  void := by
    rw [reset_eq]
    refine ⟨fun n hn => ?_, fun c hc hlt => ?_⟩
    · have hn' : n ∈ [2, 1] := hn
      simp only [List.mem_cons, List.not_mem_nil, or_false] at hn'
      obtain rfl | rfl := hn' <;> rfl
    · have hlt' : c < 4 := hlt
      interval_cases c <;> rfl
  counted := by
    rw [reset_eq]
    exact ⟨rfl, fun _ => rfl⟩
  raw _ hr := nomatch hr

/-! ### One token -/

/-- Reading the attributes of a tag changes nothing else. -/
theorem parseAttrs_rest : ∀ {fuel : Nat} {l : List UInt8} {selfclose : Bool} {d : Doc}
    {r : List UInt8 × Bool × Doc}, parseAttrs fuel l selfclose d = some r →
      ∃ attrs pool truncated,
        r.2.2 = { d with attrs := attrs, pool := pool, truncated := truncated }
  | 0, _, _, _, _, hr => nomatch hr
  | fuel + 1, l, selfclose, d, r, hr => by
    unfold parseAttrs at hr
    split at hr
    · obtain rfl := Option.some.inj hr
      exact ⟨_, _, _, rfl⟩
    · split at hr
      · obtain rfl := Option.some.inj hr
        exact ⟨_, _, _, rfl⟩
      · obtain ⟨attrs, pool, truncated, heq⟩ := parseAttrs_rest hr
        rw [heq]
        unfold keepAttr
        dsimp only
        split
        · obtain ⟨l, hl⟩ := (putValues_filled 0 _ d).eq
          rw [hl]
          exact ⟨_, _, _, rfl⟩
        · exact ⟨_, _, _, rfl⟩

theorem raw_inserts (hraw : tag.rawness ≠ .normal) : tag.inserts := by
  have hmem := Tag.raw_mem hraw
  simp only [List.mem_cons, List.not_mem_nil, or_false] at hmem
  obtain rfl | rfl | rfl | rfl | rfl | rfl | rfl | rfl := hmem <;>
    exact ⟨by decide, by decide, by decide, by decide⟩

theorem raw_not_root (hraw : tag.rawness ≠ .normal) :
    tag.isVoid = false ∧ isForeignRoot tag = false := by
  have hmem := Tag.raw_mem hraw
  simp only [List.mem_cons, List.not_mem_nil, or_false] at hmem
  obtain rfl | rfl | rfl | rfl | rfl | rfl | rfl | rfl := hmem <;> exact ⟨rfl, rfl⟩

/-- **A raw element is the current one behind its start tag**, if the tag is fair. -/
theorem openTag_raw (h : Ok arena am pm d) (hf : FairStart tag selfclose d)
    (hraw : tag.rawness ≠ .normal) (hel : (openTag tag am pm selfclose d).1 ≠ 0)
    (hsc : ¬ (selfclose = true ∧ (openTag tag am pm selfclose d).2.foreign ≠ 0)) :
    ∃ el below, (openTag tag am pm selfclose d).1 = el ∧
      (openTag tag am pm selfclose d).2.stk = el :: below ∧
      el + 1 = (openTag tag am pm selfclose d).2.node_count ∧ 3 < el ∧ el ∉ below ∧
      (openTag tag am pm selfclose d).2.tagOf el = tag ∧
      (openTag tag am pm selfclose d).2.txt_node = 0 := by
  obtain ⟨hvoid, hroot⟩ := raw_not_root hraw
  obtain ⟨r, hins, hid, heq⟩ := openTag_inserted h (raw_inserts hraw) selfclose
  have hr := keeps_ready tag (handed tag d) (handed_ok h tag)
  have hcount := hr.1.roots.count
  have hnroot : ¬ (isForeignRoot tag = true ∧ ¬ selfclose = true) := fun hc => by
    rw [hroot] at hc
    exact nomatch hc.1
  rw [heq] at hsc
  rw [hid] at hel
  have hforeign : r.2.foreign = (site tag d).foreign := by rw [hins.rest]
  have hopens : opens tag selfclose (handed tag d) = true := by
    have hsc' : ¬ (selfclose = true ∧ (ready tag (handed tag d)).foreign ≠ 0) := by
      intro hc
      refine hsc ⟨hc.1, ?_⟩
      show (if _ then _ else _ : Nat) ≠ 0
      rw [if_neg hnroot, hforeign]
      exact hc.2
    exact decide_eq_true fun hc => hc.elim (fun hv => by rw [hvoid] at hv; exact nomatch hv) hsc'
  have hroom := hf.room hopens (.inl hraw)
  obtain ⟨-, hid', -⟩ | ⟨hnode, hid', hcnt⟩ := hins.id
  · exact absurd hid' hel
  have hnew := hins.new (site tag d).node_count (Nat.le_refl _) (by omega)
  have hstk := hins.stk
  rw [if_pos ⟨hopens, hroom, hnode⟩] at hstk
  refine ⟨(site tag d).node_count, (site tag d).stk, hid.trans hid', ?_, ?_, hcount, fun hin => ?_,
    ?_, ?_⟩
  · rw [heq]
    exact hstk
  · rw [heq]
    exact hcnt.symm
  · exact absurd (hr.1.opened.lt _ hin) (Nat.lt_irrefl _)
  · rw [heq]
    exact hnew.2.2.2.1
  · rw [heq]
    show r.2.txt_node = 0
    rw [hins.rest]
    show (ready tag (handed tag d)).txt_node = 0
    rw [hr.2.2.2, handed_rest]

/-- The counter, and the raw element that a start tag brings. -/
theorem startTag_sealed (hv : Valid arena d) (hc : Counted d) {r : Nat × Doc}
    (hf : ∀ r, parseAttrs fuel (h.drop (nameEnd h i)) false d = some r →
      (startTagId h i).inserts → FairStart (startTagId h i) r.2.1 r.2.2)
    (hr : startTag fuel h i d = some r) :
    Counted r.2 ∧ ∀ x ∈ rawStart fuel h i d, ∃ s t L, L <+: x.2 ∧
      (L = x.2 ∨ r.2.truncated = true) ∧ Full (Shut x.1 s t L) r.2 := by
  obtain ⟨⟨rest, selfclose, d₁⟩, hattrs, hr⟩ := Option.bind_eq_some_iff.mp hr
  have hok : Ok arena d.attrs.length d.pool.length d₁ := Ok.parseAttrs hv.whole hattrs
  have hfair := hf _ hattrs
  have hc₁ : Counted d₁ := by
    obtain ⟨attrs, pool, truncated, heq⟩ := parseAttrs_rest hattrs
    dsimp only at heq
    rw [heq]
    exact ⟨hc.count, hc.head⟩
  have hv₂ := openTag_valid hok (startTagId h i) selfclose
  have hc₂ : Counted (openTag (startTagId h i) d.attrs.length d.pool.length selfclose d₁).2 :=
    openTag_counted hok hc₁ hfair
  unfold rawStart
  rw [hattrs]
  dsimp only at hr hfair ⊢
  unfold content at hr
  split at hr
  · next hplain =>
    obtain rfl := Option.some.inj hr
    refine ⟨hc₂.addText hv₂ _ _, fun x hx => ?_⟩
    rw [if_neg fun hraw => hraw.1 (by rw [hplain.1]; rfl)] at hx
    exact nomatch hx
  split at hr
  · next hraw =>
    obtain ⟨el, below, hel, hstk, hcnt, hroot, hbelow, htag, htxt⟩ :=
      openTag_raw hok (hfair (raw_inserts hraw.1)) hraw.1 hraw.2.1 hraw.2.2
    obtain ⟨k, hk, ⟨T, hT, hend, hshut⟩, hsame, hstk', hforeign, hhead⟩ :=
      rawElement_shut hv₂ hstk hcnt hroot hbelow htag hraw.1 htxt hr
    have hopen : foreignOpen r.2
        = foreignOpen (openTag (startTagId h i) d.attrs.length d.pool.length selfclose d₁).2 := by
      have hlt := hv₂.whole.opened.lt
      unfold foreignOpen
      rw [hstk] at hlt ⊢
      rw [hstk', List.countP_cons, htag, (raw_not_root hraw.1).2]
      refine List.countP_congr fun n hn => ?_
      rw [show r.2.tagOf n = _ from (hsame.2 n (hlt n (List.mem_cons_of_mem el hn))).2.1]
      rfl
    refine ⟨⟨by rw [hforeign, hopen, hc₂.count], fun hh => ?_⟩, fun x hx => ?_⟩
    · rw [hopen]
      exact hc₂.head (hhead ▸ hh)
    · rw [if_pos hraw, hk] at hx
      obtain rfl := List.mem_singleton.mp hx
      exact ⟨_, _, T, hT, hend, hel ▸ hshut⟩
  · next hraw =>
    obtain rfl := Option.some.inj hr
    refine ⟨hc₂, fun x hx => ?_⟩
    rw [if_neg hraw] at hx
    exact nomatch hx

theorem rawOf_of_not_starts (hs : ¬ StartsAt h i) : rawOf fuel h i d = [] := by
  unfold rawOf
  split
  · next c rest hdrop =>
    split
    · next halpha => exact absurd ⟨c, rest, hdrop, halpha⟩ hs
    · rfl
  · rfl

theorem rawOf_of_starts (hs : StartsAt h i) : rawOf fuel h i d = rawStart fuel h (i + 1) d := by
  obtain ⟨c, rest, hdrop, halpha⟩ := hs
  unfold rawOf
  rw [hdrop]
  exact if_pos halpha

/-- **One fair token.** -/
theorem Sealed.token {raws : List (Nat × List UInt8)} (hp : Sealed arena d raws)
    (ht : d.truncated = false) (hf : Fair fuel h i d) {r : Nat × Doc}
    (hr : token fuel h i d = some r) : Sealed arena r.2 (rawOf fuel h i d ++ raws) := by
  have hnew : Counted r.2 ∧ ∀ x ∈ rawOf fuel h i d, ∃ s t L, L <+: x.2 ∧
      (L = x.2 ∨ r.2.truncated = true) ∧ Full (Shut x.1 s t L) r.2 := by
    obtain ⟨hs, decode, text, heq⟩ | ⟨hs, heq⟩ | ⟨hs, he, heq⟩ | ⟨hs, hr⟩ := token_forms hr
    · rw [rawOf_of_not_starts hs, heq]
      exact ⟨hp.counted.addText hp.valid _ _, nofun⟩
    · rw [rawOf_of_not_starts hs, heq]
      exact ⟨hp.counted, nofun⟩
    · rw [rawOf_of_not_starts hs, heq]
      exact ⟨end_counted hp.valid.whole hp.counted (hf.end_ he), nofun⟩
    · rw [rawOf_of_starts hs]
      exact startTag_sealed hp.valid hp.counted (hf.start hs) hr
  refine ⟨token_valid hp.valid hr, ?_, hnew.1, fun x hx => ?_⟩
  · exact noVoid_law.token hp.valid hp.void
      (fun _ => ⟨fun _ _ => trivial, fun _ _ _ _ _ _ _ => trivial⟩) hr
  obtain hx | hx := List.mem_append.mp hx
  · exact hnew.2 x hx
  · obtain ⟨s, t, L, hL, hend, hshut⟩ := hp.raw x hx
    refine ⟨s, t, L, hL, .inl (hend.resolve_right (by rw [ht]; exact Bool.false_ne_true)), ?_⟩
    exact shut_law.token hp.valid hshut (fun _ => ⟨fun _ _ => trivial, fun _ _ _ _ _ _ _ => trivial⟩) hr

/-! ### All tokens -/

theorem Reads.sealed {raws : List (Nat × List UInt8)} (hr : Reads Fair arena h i d raws) :
    Sealed arena d raws := by
  induction hr with
  | start => exact reset_sealed arena
  | token _ _ ht hq hstep ih => exact ih.token ht hq hstep

/-- The loop of `dom_parse` goes through these documents. -/
theorem Reads.tokens {Q : Nat → List UInt8 → Nat → Doc → Prop} {raws : List (Nat × List UInt8)}
    (hr : Reads Q arena h i d raws) {n : Nat} {D : Doc}
    (hD : tokens fuel h n 0 (reset arena) = some D) : ∃ m, Dom.tokens fuel h m i d = some D := by
  induction hr with
  | start => exact ⟨n, hD⟩
  | @token fuel' i j d d' raws _ hi ht _ hstep ih =>
    obtain ⟨m, hm⟩ := ih
    cases m with
    | zero => exact nomatch hm
    | succ m =>
      rw [Dom.tokens, if_pos ⟨hi, by rw [ht]; exact Bool.false_ne_true⟩] at hm
      obtain ⟨r, hr, hm⟩ := Option.bind_eq_some_iff.mp hm
      obtain rfl := Fuel.Mono.agree (token_mono h i d) hr hstep
      exact ⟨m, hm⟩

/-- **The last of them is what `dom_parse` gives.** -/
theorem Reads.parse {Q : Nat → List UInt8 → Nat → Doc → Prop} {raws : List (Nat × List UInt8)}
    (hr : Reads Q arena h i d raws) (hend : h.length ≤ i ∨ d.truncated = true) {D : Doc}
    (hD : parse fuel arena h = some D) : D = { d with txt_node := 0 } := by
  obtain ⟨m, hm⟩ := hr.tokens hD
  cases m with
  | zero => exact nomatch hm
  | succ m =>
    have hstop : ¬ (i < h.length ∧ ¬ d.truncated = true) := fun hc =>
      hend.elim (Nat.not_le.mpr hc.1) hc.2
    rw [Dom.tokens, if_neg hstop] at hm
    exact (Option.some.inj hm).symm

/-- A start tag is closed by its `/>`. -/
def SelfCloses (tag : Tag) (selfclose : Bool) (d : Doc) : Prop :=
  selfclose = true ∧ ∃ n ∈ (site tag d).stk, isForeignRoot ((site tag d).tagOf n) = true

/-- **`/>` closes an element in foreign content only.** -/
theorem FairStart.opens_iff (hf : FairStart tag selfclose d) (hc : Counted d)
    (hvoid : tag.isVoid = false) :
    opens tag selfclose (handed tag d) = false ↔ SelfCloses tag selfclose d := by
  have hforeign : (ready tag (handed tag d)).foreign = foreignOpen (site tag d) := by
    rw [ready_foreign, handed_rest, hf.closes, ← hc.count]
  unfold opens SelfCloses
  rw [hforeign, hvoid, decide_eq_false_iff_not, not_not]
  refine (or_iff_right Bool.false_ne_true).trans (and_congr_right fun _ => ?_)
  exact Nat.pos_iff_ne_zero.symm.trans List.countP_pos_iff

/-- **Raw text stays in its element.** While all tokens are fair, the text between a raw start tag
and its end tag is text of this element and of nothing else, an element without content has no
children, and the counter is positive while an `<svg>` or a `<math>` is open, so that a fair start
tag with `/>` closes its element in there only. The tree that `dom_parse` gives is the last one. -/
theorem raw_text_stays {raws : List (Nat × List UInt8)} (hr : Reads Fair arena h i d raws)
    (fuel : Nat) :
    Kept d raws
    ∧ (StartsAt h i → ∀ r, parseAttrs fuel (h.drop (nameEnd h (i + 1))) false d = some r →
      (startTagId h (i + 1)).inserts → (startTagId h (i + 1)).isVoid = false →
      FairStart (startTagId h (i + 1)) r.2.1 r.2.2 →
      (opens (startTagId h (i + 1)) r.2.1 (handed (startTagId h (i + 1)) r.2.2) = false ↔
        SelfCloses (startTagId h (i + 1)) r.2.1 r.2.2))
    ∧ (h.length ≤ i ∨ d.truncated = true → ∀ D, parse fuel arena h = some D →
      D = { d with txt_node := 0 } ∧ Kept D raws) := by
  have hs := hr.sealed
  refine ⟨hs.kept, fun _ r hattrs _ hvoid hf => ?_, fun hend D hD => ?_⟩
  · have hc : Counted r.2.2 := by
      obtain ⟨attrs, pool, truncated, heq⟩ := parseAttrs_rest hattrs
      rw [heq]
      exact ⟨hs.counted.count, hs.counted.head⟩
    exact hf.opens_iff hc hvoid
  · obtain rfl := hr.parse hend hD
    have hk := hs.kept
    refine ⟨rfl, ⟨fun r hr => ?_, hk.void, hk.foreign⟩⟩
    obtain ⟨s, t, L, hL, hend, hholds⟩ := hk.raw r hr
    exact ⟨s, t, L, hL, hend, hholds.of_eq rfl rfl hholds.pool⟩

/-- One style sheet, of one letter. -/
theorem raw_text_stays_style : ∃ d raws, (token 30 (Net.bytes "<style>a</style>") 0
      (reset fun _ => {})).map Prod.snd = some d ∧ raws = [(4, [0x61])] ∧ Kept d raws
    ∧ ∀ D, parse 30 (fun _ => {}) (Net.bytes "<style>a</style>") = some D →
      D = { d with txt_node := 0 } ∧ Kept D raws := by
  obtain ⟨⟨j, d⟩, hd⟩ : ∃ r,
      token 30 (Net.bytes "<style>a</style>") 0 (reset fun _ => {}) = some r :=
    Option.isSome_iff_exists.mp (by decide +kernel)
  have hj : (token 30 (Net.bytes "<style>a</style>") 0 (reset fun _ => {})).map Prod.fst =
      some 16 := by
    decide +kernel
  have hraw : rawOf 30 (Net.bytes "<style>a</style>") 0 (reset fun _ => {}) ++ [] =
      [(4, [0x61])] := by
    decide +kernel
  rw [hd] at hj
  obtain rfl : j = 16 := Option.some.inj hj
  have hfair : Fair 30 (Net.bytes "<style>a</style>") 0 (reset fun _ => {}) := by
    have hattrs : parseAttrs 30 ((Net.bytes "<style>a</style>").drop
        (nameEnd (Net.bytes "<style>a</style>") 1)) false (reset fun _ => {}) =
          some (Net.bytes "a</style>", false, reset fun _ => {}) := rfl
    have htag : startTagId (Net.bytes "<style>a</style>") 1 = .style := by decide
    refine ⟨fun _ r hr _ => ?_, fun ⟨c, rest, hdrop, _⟩ => ?_⟩
    · obtain rfl := Option.some.inj (hattrs.symm.trans hr)
      rw [htag]
      exact ⟨by decide, fun _ _ => by decide, nofun, nofun⟩
    · exact absurd (congrArg (fun l => l[1]?) hdrop : some 0x73 = some (0x2F : UInt8)) (by decide)
  have hr := Reads.token .start (by decide) (by decide) hfair hd
  have hstays := raw_text_stays hr 30
  rw [hraw] at hstays
  exact ⟨d, _, by rw [hd]; rfl, rfl, hstays.1, hstays.2.2 (.inl (by decide))⟩

/-- `<svg/>` is left open, and not counted. -/
theorem foreign_not_counted : ¬ ∀ arena h i d raws, Reads (fun _ _ _ _ => True) arena h i d raws →
    Kept d raws := by
  intro hall
  obtain ⟨⟨j, d⟩, hd⟩ : ∃ r, token 20 (Net.bytes "<svg/>") 0 (reset fun _ => {}) = some r :=
    Option.isSome_iff_exists.mp (by decide +kernel)
  have hopen : (token 20 (Net.bytes "<svg/>") 0 (reset fun _ => {})).map
      (fun r => (r.2.foreign, r.2.stk.any fun n => isForeignRoot (r.2.tagOf n))) =
        some (0, true) := by
    decide +kernel
  rw [hd] at hopen
  have hkept := hall (fun _ => {}) _ _ _ _ (.token .start (by decide) (by decide) trivial hd)
  have hzero : d.foreign = 0 := congrArg Prod.fst (Option.some.inj hopen)
  have hsvg := congrArg Prod.snd (Option.some.inj hopen)
  exact absurd (hkept.foreign.mpr (List.any_eq_true.mp hsvg)) (by rw [hzero]; exact Nat.lt_irrefl 0)

end Dom
