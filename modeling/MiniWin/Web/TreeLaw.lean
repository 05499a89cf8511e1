import MiniWin.Web.HtmlPage
import MiniWin.Web.TreeText

/-!
# HTML: laws of the tree

The parser changes a document in a few ways only: elements are closed, one is added below the
current one, text is put, the attributes of a tag are kept or given back. What each of these keeps,
a token keeps, and with it a whole page.
-/

namespace Dom

variable {arena : Nat → Node} {d d' : Doc} {am pm n i j k fuel : Nat} {l h : List UInt8} {tag : Tag}
  {Good : List UInt8 → Prop} {Value : List UInt8 → List UInt8 → Prop} {P : Nat → Nat → Doc → Prop}

/-- **What a document may be subject to**, with the two marks of `Ok`. `Good` says which texts the
law is about, and `Value` which attributes. -/
structure Law (arena : Nat → Node) (Good : List UInt8 → Prop)
    (Value : List UInt8 → List UInt8 → Prop) (P : Nat → Nat → Doc → Prop) : Prop where
  whole {am pm : Nat} {d : Doc} : Ok arena am pm d → P am pm d → P d.attrs.length d.pool.length d
  flags {am pm : Nat} {d : Doc} (truncated skip_lf : Bool) (foreign : Nat) : P am pm d →
    P am pm { d with truncated := truncated, skip_lf := skip_lf, foreign := foreign }
  unhand {am pm : Nat} {d : Doc} : P am pm d → P am pm { d with txt_node := 0 }
  close {am pm : Nat} {d : Doc} {stk : List Nat} : Ok arena am pm d → P am pm d → stk <:+ d.stk →
    P am pm { d with stk := stk }
  body {am pm : Nat} {d : Doc} : Ok arena am pm d → P am pm d →
    P am pm { d with stk := [d.body, d.html], in_head := false }
  insert {am pm : Nat} {d : Doc} {tag : Tag} {push : Bool} (afirst acount : Nat) :
    Ok arena am pm d → P am pm d → (push = true → tag.isVoid = false) →
      P am pm (insertElem tag afirst acount push d).2
  root {am pm root : Nat} {d : Doc} : Ok arena am pm d → P am pm d → root = 1 ∨ root = 3 →
    P d.attrs.length d.pool.length
      (d.setNode root { d.nodes root with a := am, b := d.attrs.length - am })
  drop {am pm : Nat} {d : Doc} : Ok arena am pm d → P am pm d →
    P (drop am pm d).attrs.length (drop am pm d).pool.length (drop am pm d)
  attr {am pm : Nat} {d : Doc} {name value : List UInt8} : Ok arena am pm d → P am pm d →
    Value name value → P am pm (keepAttr name value d)
  text {d : Doc} {l : List UInt8} : Valid arena d → P d.attrs.length d.pool.length d → Good l →
    P (putText l d).attrs.length (putText l d).pool.length (putText l d)
  chars (decode pre : Bool) (used : Nat) (text : List UInt8) :
    Good (charBytes decode pre used text)

/-- The law holds of a document between two tokens. -/
def Full (P : Nat → Nat → Doc → Prop) (d : Doc) : Prop := P d.attrs.length d.pool.length d

/-- An operation that keeps the document and the law. -/
structure Lawful (P : Nat → Nat → Doc → Prop) (arena : Nat → Node) (am pm : Nat)
    (f : Doc → Doc) : Prop where
  keeps : Keeps arena am pm f
  obeys : ∀ d, Ok arena am pm d → P am pm d → P am pm (f d)

theorem lawful_id : Lawful P arena am pm fun d => d := ⟨keeps_id, fun _ _ hp => hp⟩

theorem Lawful.comp {f g : Doc → Doc} (hf : Lawful P arena am pm f) (hg : Lawful P arena am pm g) :
    Lawful P arena am pm fun d => f (g d) where
  keeps := hf.keeps.comp hg.keeps
  obeys d h hp := hf.obeys _ (hg.keeps d h).1 (hg.obeys d h hp)

theorem Lawful.ite {f g : Doc → Doc} {Q : Doc → Prop} [∀ d, Decidable (Q d)]
    (hf : Lawful P arena am pm f) (hg : Lawful P arena am pm g) :
    Lawful P arena am pm fun d => if Q d then f d else g d where
  keeps := hf.keeps.ite hg.keeps
  obeys d h hp := by
    show P am pm (if Q d then f d else g d)
    split
    · exact hf.obeys d h hp
    · exact hg.obeys d h hp

theorem search_suffix {wanted stop : Tag → Bool} {stk below : List Nat}
    (hs : search d wanted stop stk = some below) : below <:+ stk := by
  obtain ⟨above, n, rfl, -⟩ := search_some hs
  exact (List.suffix_cons n below).trans (List.suffix_append ..)

namespace Law

variable (L : Law arena Good Value P)
include L

/-! ## Elements are closed -/

theorem search {wanted : Tag → Bool} (stop : Tag → Bool) (hw : Sparing wanted) :
    Lawful P arena am pm fun d => popTo (search d wanted stop d.stk) d where
  keeps := keeps_search stop hw
  obeys d h hp := by
    unfold popTo
    cases hs : Dom.search d wanted stop d.stk with
    | none => exact L.close h hp (List.suffix_refl _)
    | some below => exact L.close h hp (search_suffix hs)

theorem find (tag : Tag) (kind : Scope) (ht : isRoot tag = false) :
    Lawful P arena am pm fun d => popTo (find tag kind d) d :=
  L.search _ (sparing_eq ht)

theorem popIf {q : Tag → Bool} (hq : Sparing q) : Lawful P arena am pm (popIf q) where
  keeps := keeps_popIf hq
  obeys d h hp := by
    unfold Dom.popIf
    split
    · exact L.close h hp (List.drop_suffix 1 d.stk)
    · exact hp

theorem popUntil (stop : Tag → Bool) : Lawful P arena am pm (popUntil stop) where
  keeps := keeps_popUntil stop
  obeys d h hp := L.close h hp (popUntil_go d stop d.stk h.opened.two_le).1

theorem enterBody : Lawful P arena am pm enterBody where
  keeps := keeps_enterBody
  obeys d h hp := by
    unfold Dom.enterBody
    split
    · exact hp
    · exact L.body h hp

theorem row : Lawful P arena am pm fun d => (insertElem .tr 0 0 true d).2 where
  keeps := keeps_insert .tr true
  obeys _ h hp := L.insert 0 0 h hp fun _ => rfl

theorem makeRoom (tag : Tag) : Lawful P arena am pm (makeRoom tag) := by
  have hclose : Lawful P arena am pm fun d => if tag.closesP then closeP d else d :=
    (L.find .p .button rfl).ite lawful_id
  have hheading : Lawful P arena am pm fun d =>
      if tag.isHeading then Dom.popIf Tag.isHeading d else d :=
    (L.popIf sparing_heading).ite lawful_id
  have hfirst := hheading.comp hclose
  have hitem : Sparing fun t => t = .dd ∨ t = .dt := fun t hw => by
    obtain rfl | rfl := of_decide_eq_true hw <;> rfl
  have hcell : Lawful P arena am pm fun d =>
      if isTablePart d.curTag then (insertElem .tr 0 0 true d).2 else d := L.row.ite lawful_id
  refine ⟨keeps_makeRoom tag, fun d h hp => ?_⟩
  have h₁ := (hfirst.keeps d h).1
  have hp₁ := hfirst.obeys d h hp
  unfold Dom.makeRoom
  dsimp only at h₁ hp₁ ⊢
  obtain ⟨d₁, hd⟩ : ∃ d₁, (if tag.isHeading then Dom.popIf Tag.isHeading
    (if tag.closesP then closeP d else d) else if tag.closesP then closeP d else d) = d₁ := ⟨_, rfl⟩
  rw [hd] at h₁ hp₁ ⊢
  have then_ : ∀ {f : Doc → Doc}, Lawful P arena am pm f → P am pm (f d₁) :=
    fun hf => hf.obeys d₁ h₁ hp₁
  split
  · exact (then_ (L.search listStop (sparing_eq (show isRoot .li = false from rfl))) :)
  · exact (then_ (L.search listStop hitem) :)
  · exact (then_ (L.search listStop hitem) :)
  · exact then_ (L.popIf (sparing_eq rfl))
  · exact then_ ((L.popIf (sparing_eq rfl)).comp (L.popIf (sparing_eq rfl)))
  · exact (then_ (L.find .a .generic rfl) :)
  · exact (then_ (L.find .button .generic rfl) :)
  · exact then_ (L.popUntil _)
  · exact then_ (L.popUntil _)
  · exact then_ (L.popUntil _)
  · exact then_ (L.popUntil _)
  · exact then_ (L.popUntil _)
  · exact then_ (L.popUntil _)
  · exact then_ (hcell.comp (L.popUntil _))
  · exact then_ (hcell.comp (L.popUntil _))
  · exact hp₁

/-! ## Tags -/

theorem rootAttrs (h : Ok arena am pm d) (hp : P am pm d) (hr : n = 1 ∨ n = 3) :
    Full P (rootAttrs n am (d.attrs.length - am) pm d) := by
  unfold Dom.rootAttrs
  split
  · exact L.root h hp hr
  · exact L.drop h hp

end Law

/-- The document in which `dom_start` inserts its element. -/
def ready (tag : Tag) (d : Doc) : Doc :=
  let d := if d.in_head ∧ ¬ tag.isHeadish then enterBody d else d
  if ¬ d.in_head then makeRoom tag d else d

/-- Whether `dom_start` opens its element. -/
def opens (tag : Tag) (selfclose : Bool) (d : Doc) : Bool :=
  ¬ (tag.isVoid ∨ (selfclose ∧ (ready tag d).foreign ≠ 0))

/-- The tags that `dom_start` has an element for. -/
def Tag.inserts (t : Tag) : Prop :=
  t ≠ .html ∧ t ≠ .head ∧ t ≠ .body ∧ ¬ (t = .frame ∨ t = .frameset)

theorem startAt_eq (ht : tag.inserts) (afirst acount pool_mark : Nat) (selfclose : Bool) (d : Doc) :
    startAt tag afirst acount pool_mark selfclose d =
      let r := insertElem tag afirst acount (opens tag selfclose d) (ready tag d)
      (r.1, if (tag = .svg ∨ tag = .math) ∧ ¬ selfclose then { r.2 with foreign := r.2.foreign + 1 }
        else r.2) := by
  unfold startAt
  rw [if_neg ht.1, if_neg ht.2.1, if_neg ht.2.2.1, if_neg ht.2.2.2]
  rfl

theorem keeps_ready (tag : Tag) : Keeps arena am pm (ready tag) :=
  (Keeps.ite (P := fun d => ¬ d.in_head) (keeps_makeRoom tag) keeps_id).comp
    (Keeps.ite (P := fun d => d.in_head ∧ ¬ tag.isHeadish) keeps_enterBody keeps_id)

namespace Law

variable (L : Law arena Good Value P)
include L

theorem ready (tag : Tag) : Lawful P arena am pm (ready tag) :=
  (Lawful.ite (Q := fun d => ¬ d.in_head) (L.makeRoom tag) lawful_id).comp
    (Lawful.ite (Q := fun d => d.in_head ∧ ¬ tag.isHeadish) L.enterBody lawful_id)

theorem startAt (h : Ok arena am pm d) (hp : P am pm d) (tag : Tag) (selfclose : Bool) :
    Full P (startAt tag am (d.attrs.length - am) pm selfclose d).2 := by
  by_cases ht : tag.inserts
  · rw [startAt_eq ht]
    have hr := keeps_ready tag d h
    have hp₁ := L.whole hr.1 ((L.ready tag).obeys d h hp)
    have hvoid : opens tag selfclose d = true → tag.isVoid = false := fun ho => by
      unfold opens at ho
      cases hv : tag.isVoid with
      | false => rfl
      | true => simp [hv] at ho
    have hins := L.insert am (d.attrs.length - am) hr.1.whole hp₁ hvoid
    have hattrs : (insertElem tag am (d.attrs.length - am) (opens tag selfclose d)
      (Dom.ready tag d)).2.attrs = (Dom.ready tag d).attrs := (insertElem_data ..).1
    have hpool : (insertElem tag am (d.attrs.length - am) (opens tag selfclose d)
      (Dom.ready tag d)).2.pool = (Dom.ready tag d).pool := (insertElem_data ..).2.1
    rw [← hattrs, ← hpool] at hins
    dsimp only
    split
    · exact L.flags _ _ _ hins
    · exact hins
  · unfold Dom.startAt
    split
    · rw [h.roots.html.1]
      exact L.rootAttrs h hp (.inl rfl)
    split
    · exact L.drop h hp
    split
    · have hb := keeps_enterBody d h
      have hp₁ := L.enterBody.obeys d h hp
      dsimp only
      rw [hb.1.roots.body.1, ← hb.2.1]
      exact L.rootAttrs hb.1 hp₁ (.inr rfl)
    split
    · exact L.drop h hp
    · next h₁ h₂ h₃ h₄ => exact absurd ⟨h₁, h₂, h₃, h₄⟩ ht

theorem start (h : Ok arena am pm d) (hp : P am pm d) (tag : Tag) (selfclose : Bool) :
    Full P (start tag am (d.attrs.length - am) pm selfclose d).2 :=
  L.startAt (h.flags d.truncated d.skip_lf 0 d.foreign) (L.unhand hp) tag selfclose

theorem endAt (h : Whole arena d) (hp : Full P d) (tag : Tag) :
    Full P (endAt tag d) := by
  have hkeep : ∀ {f : Doc → Doc}, Lawful P arena d.attrs.length d.pool.length f → Full P (f d) :=
    fun hf => L.whole (hf.keeps d h).1 (hf.obeys d h hp)
  unfold Dom.endAt
  split
  · exact hp
  next hroot =>
  split
  · exact hkeep L.enterBody
  next hhead =>
  have ht : isRoot tag = false := by
    unfold isRoot
    rw [decide_eq_false_iff_not, List.mem_cons, List.mem_cons, List.mem_singleton]
    rintro (rfl | rfl | rfl)
    · exact hroot (.inl rfl)
    · exact hhead rfl
    · exact hroot (.inr rfl)
  split
  · have hstart := L.start h hp .br false
    rwa [Nat.sub_self] at hstart
  split
  · split
    · next below hf =>
      have hc := hkeep (L.find .p .button rfl)
      rwa [hf] at hc
    · split
      · exact hkeep ⟨keeps_insert .p false, fun _ h hp => L.insert 0 0 h hp nofun⟩
      · exact hp
  split
  · exact (hkeep (L.find .li .li rfl) :)
  split
  · exact (hkeep (L.find tag .generic ht) :)
  split
  · exact (hkeep (L.search (scopeStop · .generic) sparing_heading) :)
  split
  · exact (hkeep (L.find tag .table ht) :)
  · have hforeign : Lawful P arena d.attrs.length d.pool.length fun d =>
        if tag = .svg ∨ tag = .math then { d with foreign := d.foreign - 1 } else d :=
      ⟨keeps_foreign tag, fun d _ hp => by
        show P _ _ (if tag = .svg ∨ tag = .math then { d with foreign := d.foreign - 1 } else d)
        split
        · exact L.flags _ _ _ hp
        · exact hp⟩
    have hw := (hforeign.keeps d h).1.whole
    have hp₁ := hkeep hforeign
    dsimp only at hw hp₁ ⊢
    obtain ⟨d₁, hd₁⟩ : ∃ d₁, (if tag = .svg ∨ tag = .math then { d with foreign := d.foreign - 1 }
      else d) = d₁ := ⟨_, rfl⟩
    rw [hd₁] at hw hp₁ ⊢
    split
    · next below hf =>
      have hc := (L.find tag .generic ht).obeys d₁ hw hp₁
      rwa [hf] at hc
    · split
      · exact hp₁
      · exact (L.search Tag.isSpecial (sparing_eq ht)).obeys d₁ hw hp₁

theorem end_ (h : Whole arena d) (hp : Full P d) (tag : Tag) : Full P (end_ tag d) :=
  L.endAt (Ok.flags h d.truncated d.skip_lf 0 d.foreign).whole (L.unhand hp) tag

/-! ## Text -/

theorem addText (h : Valid arena d) (hp : Full P d) (decode : Bool) (text : List UInt8) :
    Full P (addText decode text d) := by
  unfold Dom.addText
  split
  · exact hp
  dsimp only
  obtain ⟨d₁, hd₁⟩ : ∃ d₁,
      (if d.in_head = true ∧ d.curTag = .head then Dom.enterBody d else d) = d₁ := ⟨_, rfl⟩
  have h₁ : Valid arena d₁ := by
    rw [← hd₁]
    split
    · exact h.enterBody
    · exact h
  have hp₁ : Full P d₁ := by
    rw [← hd₁]
    split
    · exact L.whole (keeps_enterBody d h.whole).1 (L.enterBody.obeys d h.whole hp)
    · exact hp
  have hput : ∀ (d : Doc) (l : List UInt8), Valid arena d → Full P d →
      Full P (addChars decode (inPre d) 0 l d) := fun d l h hp => by
    rw [addChars_eq decode _ 0 l h]
    split
    · exact hp
    · exact L.text h hp (L.chars ..)
  rw [hd₁]
  split
  · exact hput _ _ (h₁.flags d₁.truncated false d₁.foreign) (L.flags _ _ _ hp₁)
  · exact hput _ _ h₁ hp₁

theorem rawText (h : Valid arena d) (hp : Full P d) {text : List UInt8}
    (hgood : Good (rawBytes text)) : Full P (rawText text d) := by
  rw [rawText_eq text h]
  split
  · exact hp
  · exact L.text h hp hgood

end Law

/-! ## Tokens -/

/-- The attributes in front, with their values. -/
def attrsIn : Nat → List UInt8 → List (List UInt8 × List UInt8)
  | 0, _ => []
  | fuel + 1, l =>
    match (skipBlanks l false).1 with
    | [] => []
    | c :: l =>
      if c = 0x3E then []
      else
        ((attrName (c :: l)).1, (attrValue (attrName (c :: l)).2).1)
          :: attrsIn fuel (attrValue (attrName (c :: l)).2).2

theorem skipBlanks_fst (l : List UInt8) (s s' : Bool) :
    (skipBlanks l s).1 = (skipBlanks l s').1 := by
  induction l generalizing s s' with
  | nil => rfl
  | cons c l ih =>
    unfold skipBlanks
    split
    · exact ih _ _
    · rfl

/-- A start tag begins at `i`. -/
def StartsAt (h : List UInt8) (i : Nat) : Prop :=
  ∃ c rest, h.drop i = 0x3C :: c :: rest ∧ isAlpha c = true

/-- An end tag begins at `i`. -/
def EndsAt (h : List UInt8) (i : Nat) : Prop :=
  ∃ c rest, h.drop i = 0x3C :: 0x2F :: c :: rest ∧ isAlpha c = true

/-- **What a token can be**: text, something that is left out, an end tag or a start tag. -/
theorem token_forms {page : List UInt8} {r : Nat × Doc} (hr : token fuel page i d = some r) :
    (¬ StartsAt page i ∧ ∃ decode text, r.2 = addText decode text d) ∨
    (¬ StartsAt page i ∧ r.2 = d) ∨
    (¬ StartsAt page i ∧ EndsAt page i ∧ r.2 = end_ (tagId (nameOf page (i + 2))) d) ∨
    (StartsAt page i ∧ startTag fuel page (i + 1) d = some r) := by
  have hno : ∀ {c rest}, page.drop i = c :: rest → c ≠ 0x3C → ¬ StartsAt page i := by
    rintro c rest hdrop hc ⟨c', rest', hdrop', -⟩
    rw [hdrop] at hdrop'
    exact hc (List.cons.inj hdrop').1
  have hno' : ∀ {c₁ rest}, page.drop i = 0x3C :: c₁ :: rest → isAlpha c₁ = false →
      ¬ StartsAt page i := by
    rintro c₁ rest hdrop hc ⟨c', rest', hdrop', halpha⟩
    rw [hdrop] at hdrop'
    rw [← (List.cons.inj (List.cons.inj hdrop').2).1, hc] at halpha
    cases halpha
  unfold token at hr
  split at hr
  · cases hr
  next c rest hdrop =>
  split at hr
  · next hc =>
    obtain rfl := Option.some.inj hr
    exact .inl ⟨hno hdrop hc, true, _, rfl⟩
  next hc =>
  obtain rfl := not_not.mp hc
  split at hr
  · obtain rfl := Option.some.inj hr
    refine .inl ⟨?_, false, _, rfl⟩
    rintro ⟨c', rest', hdrop', -⟩
    rw [hdrop] at hdrop'
    cases (List.cons.inj hdrop').2
  split at hr
  · next hc₁ =>
    obtain ⟨j, -, rfl⟩ := Option.map_eq_some_iff.mp hr
    exact .inr (.inl ⟨hno' hdrop (by rw [hc₁]; decide), rfl⟩)
  split at hr
  · next hc₁ =>
    obtain rfl := Option.some.inj hr
    exact .inr (.inl ⟨hno' hdrop (by rw [hc₁]; decide), rfl⟩)
  split at hr
  · next hc₁ =>
    have hnot := hno' hdrop (by rw [hc₁]; decide)
    split at hr
    · obtain rfl := Option.some.inj hr
      exact .inr (.inl ⟨hnot, rfl⟩)
    split at hr
    · next halpha =>
      obtain rfl := Option.some.inj hr
      exact .inr (.inr (.inl ⟨hnot, ⟨_, _, hc₁ ▸ hdrop, halpha⟩, rfl⟩))
    split at hr
    · obtain rfl := Option.some.inj hr
      exact .inr (.inl ⟨hnot, rfl⟩)
    · obtain rfl := Option.some.inj hr
      exact .inr (.inl ⟨hnot, rfl⟩)
  split at hr
  · next halpha =>
    obtain rfl := Option.some.inj hr
    exact .inl ⟨hno' hdrop (Bool.not_eq_true _ ▸ halpha), false, _, rfl⟩
  · next halpha => exact .inr (.inr (.inr ⟨⟨_, _, hdrop, not_not.mp halpha⟩, hr⟩))

/-- What a token has to do with the law: the attributes of a start tag, and the text of the raw
element that it opens, if the end tag is at `k`. -/
structure Fit (Good : List UInt8 → Prop) (Value : List UInt8 → List UInt8 → Prop) (fuel : Nat)
    (h : List UInt8) (i : Nat) (d : Doc) : Prop where
  value : ∀ x ∈ attrsIn fuel (h.drop (nameEnd h (i + 1))), Value x.1 x.2
  raw : ∀ r k, parseAttrs fuel (h.drop (nameEnd h (i + 1))) false d = some r →
    let tag := startTagId h (i + 1)
    let o := openTag tag d.attrs.length d.pool.length r.2.1 r.2.2
    tag.rawness = .rawtext → o.1 ≠ 0 → ¬ (r.2.1 = true ∧ o.2.foreign ≠ 0) →
      findClose h tag.name fuel (h.length - r.1.length) = some k →
        Good (rawBytes (slice h (h.length - r.1.length) k))

namespace Law

variable (L : Law arena Good Value P)
include L

theorem parseAttrs : ∀ {fuel : Nat} {l : List UInt8} {selfclose : Bool} {d : Doc},
    Ok arena am pm d → P am pm d → (∀ x ∈ attrsIn fuel l, Value x.1 x.2) →
      ∀ {r : List UInt8 × Bool × Doc}, parseAttrs fuel l selfclose d = some r → P am pm r.2.2
  | 0, _, _, _, _, _, _, _, hr => nomatch hr
  | fuel + 1, l, selfclose, d, h, hp, hv, r, hr => by
    unfold Dom.parseAttrs at hr
    unfold attrsIn at hv
    rw [skipBlanks_fst l false selfclose] at hv
    split at hr
    · obtain rfl := Option.some.inj hr
      exact hp
    · next c l' selfclose' heq =>
      rw [heq] at hv
      dsimp only at hv
      split at hr
      · obtain rfl := Option.some.inj hr
        exact hp
      · next hc =>
        rw [if_neg hc] at hv
        exact parseAttrs (h.keepAttr _ _) (L.attr h hp (hv _ List.mem_cons_self))
          (fun x hx => hv x (List.mem_cons_of_mem _ hx)) hr

theorem openTag (h : Ok arena am pm d) (hp : P am pm d) (tag : Tag) (selfclose : Bool) :
    Full P (openTag tag am pm selfclose d).2 := by
  unfold Dom.openTag
  dsimp only
  obtain ⟨d₁, hd₁⟩ : ∃ d₁, (if tag = .pre ∨ tag = .listing ∨ tag = .textarea then
      { d with skip_lf := false } else d) = d₁ := ⟨_, rfl⟩
  have h₁ : Ok arena am pm d₁ ∧ P am pm d₁ := by
    rw [← hd₁]
    split
    · exact ⟨h.flags d.truncated false d.txt_node d.foreign, L.flags _ _ _ hp⟩
    · exact ⟨h, hp⟩
  rw [hd₁]
  have hs := L.start h₁.1 h₁.2 tag selfclose
  split
  · exact L.flags _ _ _ hs
  · exact hs

theorem rawElement (h : Valid arena d) (hp : Full P d) {page : List UInt8} {r : Nat × Doc}
    (hgood : ∀ k, findClose page tag.name fuel i = some k → tag.rawness = .rawtext →
      Good (rawBytes (slice page i k)))
    (hraw : tag.rawness ≠ .normal)
    (hr : rawElement fuel page tag i d = some r) : Full P r.2 := by
  obtain ⟨k, hk, rfl⟩ := Option.map_eq_some_iff.mp hr
  dsimp only
  obtain ⟨d₁, hd₁⟩ : ∃ d₁, (if tag = .textarea then { d with skip_lf := true } else d) = d₁ :=
    ⟨_, rfl⟩
  have h₁ : Valid arena d₁ ∧ Full P d₁ := by
    rw [← hd₁]
    split
    · exact ⟨h.flags d.truncated true d.foreign, L.flags _ _ _ hp⟩
    · exact ⟨h, hp⟩
  rw [hd₁]
  obtain ⟨d₂, hd₂⟩ : ∃ d₂, (if k > i then if tag.rawness = .rcdata then
      Dom.addText true (slice page i k) { d₁ with skip_lf := decide (tag = .textarea) }
      else Dom.rawText (slice page i k) { d₁ with skip_lf := decide (tag = .textarea) } else d₁) = d₂ :=
    ⟨_, rfl⟩
  have h₂ : Valid arena d₂ ∧ Full P d₂ := by
    have hv := h₁.1.flags d₁.truncated (decide (tag = .textarea)) d₁.foreign
    have hp' : Full P { d₁ with skip_lf := decide (tag = .textarea) } := L.flags _ _ _ h₁.2
    rw [← hd₂]
    split
    · split
      · exact ⟨addText_valid hv _ _, L.addText hv hp' _ _⟩
      · next hrc =>
        refine ⟨rawText_valid _ hv, L.rawText hv hp' (hgood k hk ?_)⟩
        cases hrw : tag.rawness with
        | normal => exact absurd hrw hraw
        | rawtext => rfl
        | rcdata => exact absurd hrw hrc
    · exact h₁
  rw [hd₂]
  exact L.end_ (Ok.flags h₂.1.whole d₂.truncated false 0 d₂.foreign).whole
    (L.unhand (L.flags d₂.truncated false d₂.foreign h₂.2)) tag

theorem startTag (h : Valid arena d) (hp : Full P d) {page : List UInt8} {r : Nat × Doc}
    (hfit : Fit Good Value fuel page i d)
    (hr : startTag fuel page (i + 1) d = some r) : Full P r.2 := by
  obtain ⟨⟨rest, selfclose, d₁⟩, hattrs, hr⟩ := Option.bind_eq_some_iff.mp hr
  have h₁ : Ok arena d.attrs.length d.pool.length d₁ := Ok.parseAttrs h.whole hattrs
  have hp₁ : P d.attrs.length d.pool.length d₁ := L.parseAttrs h.whole hp hfit.value hattrs
  have h₂ := openTag_valid h₁ (startTagId page (i + 1)) selfclose
  have hp₂ := L.openTag h₁ hp₁ (startTagId page (i + 1)) selfclose
  dsimp only at hr
  unfold content at hr
  split at hr
  · obtain rfl := Option.some.inj hr
    exact L.addText h₂ hp₂ _ _
  split at hr
  · next hraw =>
    have hgood := fun k => hfit.raw (rest, selfclose, d₁) k hattrs
    dsimp only at hgood
    refine L.rawElement h₂ hp₂ (fun k hk hrt => ?_) hraw.1 hr
    have hk' := hgood k hrt hraw.2.1 hraw.2.2
    exact hk' hk
  · obtain rfl := Option.some.inj hr
    exact hp₂

/-- **A token keeps the law.** -/
theorem token (h : Valid arena d) (hp : Full P d) {page : List UInt8} {r : Nat × Doc}
    (hfit : StartsAt page i → Fit Good Value fuel page i d)
    (hr : token fuel page i d = some r) : Full P r.2 := by
  obtain ⟨-, decode, text, heq⟩ | ⟨-, heq⟩ | ⟨-, -, heq⟩ | ⟨hs, hr⟩ := token_forms hr
  · rw [heq]
    exact L.addText h hp _ _
  · rw [heq]
    exact hp
  · rw [heq]
    exact L.end_ h.whole hp _
  · exact L.startTag h hp (hfit hs) hr

end Law

end Dom
