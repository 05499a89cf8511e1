import MiniWin.Lib.ChildList
import MiniWin.Web.Html
import Mathlib.Data.List.Chain
import Mathlib.Tactic.IntervalCases

/-!
# HTML: what the tree builder keeps

The nodes make a tree, the open elements a path in it, and whatever an element or a text refers to
lies below the ends of the attributes and of the pool. While a tag is being read its own attributes
lie behind these: `Ok` has two marks, and what the nodes refer to lies below them.
-/

namespace Dom

open Function Links

/-- The links of the nodes. -/
def Doc.links (d : Doc) : Links where
  parent n := (d.nodes n).parent
  first n := (d.nodes n).first
  last n := (d.nodes n).last
  next n := (d.nodes n).next

/-- A node with other links. -/
def Node.relink (x : Node) (L : Links) (i : Nat) : Node :=
  { x with parent := L.parent i, first := L.first i, last := L.last i, next := L.next i }

variable {arena : Nat → Node} {d d' : Doc} {x : Node} {am am' pm pm' p c n i : Nat}

/-! ## A new node -/

/-- **`dom_append` changes the links, and nothing else.** -/
theorem append_nodes (hpc : p ≠ c) (hlc : (d.nodes p).last ≠ c) (i : Nat) :
    (append p c d).nodes i = (d.nodes i).relink (d.links.append p c) i := by
  have hp : (d.setNode c { d.nodes c with parent := p, next := 0 }).nodes p = d.nodes p :=
    update_of_ne hpc ..
  unfold append Links.append Node.relink Doc.links
  dsimp only
  rw [hp]
  by_cases hl : (d.nodes p).last = 0
  · rw [if_neg (not_not_intro hl), if_neg (not_not_intro hl), if_neg (not_not_intro hl)]
    unfold Doc.setNode
    dsimp only
    by_cases hip : i = p
    · subst hip
      simp only [update_self, update_of_ne hpc]
    · by_cases hic : i = c
      · subst hic
        simp only [update_self, update_of_ne hip]
      · simp only [update_of_ne hip, update_of_ne hic]
  · rw [if_pos hl, if_pos hl, if_pos hl]
    unfold Doc.setNode
    dsimp only
    by_cases hip : i = p
    · subst hip
      by_cases hil : i = (d.nodes i).last
      · rw [← hil]
        simp only [update_self, update_of_ne hpc]
      · simp only [update_self, update_of_ne hil, update_of_ne hpc]
    · by_cases hil : i = (d.nodes p).last
      · rw [← hil] at hlc ⊢
        simp only [update_self, update_of_ne hip, update_of_ne hlc]
      · by_cases hic : i = c
        · subst hic
          simp only [update_self, update_of_ne hip, update_of_ne hil]
        · simp only [update_of_ne hip, update_of_ne hil, update_of_ne hic]

theorem append_rest : append p c d = { d with nodes := (append p c d).nodes } := by
  unfold append
  dsimp only
  split <;> rfl

/-! ## What holds of a document -/

/-- The two open elements that are never closed. -/
def Doc.ground (d : Doc) : List Nat := [if d.in_head then 2 else 3, 1]

/-- **The open elements are a path in the tree**, from the current one up to `<html>`. -/
structure Open (d : Doc) : Prop where
  ground : d.ground <:+ d.stk
  path : d.stk.IsChain fun n up => (d.nodes n).parent = up
  elem : ∀ n ∈ d.stk, n < d.node_count ∧ (d.nodes n).kind = .elem
  le : d.stk.length ≤ stackMax

/-- The elements that `dom_reset` makes. -/
structure Roots (d : Doc) : Prop where
  count : 4 ≤ d.node_count
  html : d.html = 1 ∧ (d.nodes 1).kind = .elem ∧ (d.nodes 1).tag = .html
  head : d.head = 2 ∧ (d.nodes 2).kind = .elem ∧ (d.nodes 2).tag = .head ∧ (d.nodes 2).parent = 1
  body : d.body = 3 ∧ (d.nodes 3).kind = .elem ∧ (d.nodes 3).tag = .body ∧ (d.nodes 3).parent = 1

/-- An element has the attribute at `i`. -/
def Node.Owns (x : Node) (i : Nat) : Prop := x.kind = .elem ∧ x.a ≤ i ∧ i < x.a + x.b

/-- **A document as the parser keeps it**, in an arena with this behind the nodes. What the nodes
refer to lies below the marks `am` and `pm`; behind them are the attributes of a tag that is being
read. -/
structure Ok (arena : Nat → Node) (am pm : Nat) (d : Doc) : Prop where
  count_le : d.node_count ≤ nodeMax
  attrs_le : d.attrs.length ≤ attrMax
  pool_le : d.pool.length ≤ poolSize
  frame : ∀ i, d.node_count ≤ i → d.nodes i = arena i
  tree : d.links.Tree d.node_count
  roots : Roots d
  opened : Open d
  attrs_mark : am ≤ d.attrs.length
  pool_mark : pm ≤ d.pool.length
  elem : ∀ n < d.node_count, (d.nodes n).kind = .elem → (d.nodes n).a + (d.nodes n).b ≤ am
  text : ∀ n < d.node_count, (d.nodes n).kind = .text → (d.nodes n).a + (d.nodes n).b ≤ pm
  apart : ∀ n m, n < d.node_count → m < d.node_count → ∀ i, (d.nodes n).Owns i →
    (d.nodes m).Owns i → n = m
  attr : ∀ x ∈ d.attrs.take am, x.voff + x.vlen ≤ pm
  value : ∀ x ∈ d.attrs, x.voff + x.vlen ≤ d.pool.length

/-- No tag is being read. -/
def Whole (arena : Nat → Node) (d : Doc) : Prop := Ok arena d.attrs.length d.pool.length d

/-- What a tag has read counts. -/
theorem Ok.whole (h : Ok arena am pm d) : Whole arena d where
  count_le := h.count_le
  attrs_le := h.attrs_le
  pool_le := h.pool_le
  frame := h.frame
  tree := h.tree
  roots := h.roots
  opened := h.opened
  attrs_mark := Nat.le_refl _
  pool_mark := Nat.le_refl _
  elem n hn hk := Nat.le_trans (h.elem n hn hk) h.attrs_mark
  text n hn hk := Nat.le_trans (h.text n hn hk) h.pool_mark
  apart := h.apart
  attr x hx := h.value x (List.mem_of_mem_take hx)
  value := h.value

/-- The flags do not matter. -/
theorem Ok.flags (h : Ok arena am pm d) (truncated skip_lf : Bool) (txt_node foreign : Nat) :
    Ok arena am pm { d with
      truncated := truncated, skip_lf := skip_lf, txt_node := txt_node, foreign := foreign } where
  count_le := h.count_le
  attrs_le := h.attrs_le
  pool_le := h.pool_le
  frame := h.frame
  tree := h.tree
  roots := ⟨h.roots.count, h.roots.html, h.roots.head, h.roots.body⟩
  opened := ⟨h.opened.ground, h.opened.path, h.opened.elem, h.opened.le⟩
  attrs_mark := h.attrs_mark
  pool_mark := h.pool_mark
  elem := h.elem
  text := h.text
  apart := h.apart
  attr := h.attr
  value := h.value

/-- Other open elements. -/
theorem Ok.reopen (h : Ok arena am pm d) {stk : List Nat} {in_head : Bool}
    (ho : Open { d with stk := stk, in_head := in_head }) :
    Ok arena am pm { d with stk := stk, in_head := in_head } where
  count_le := h.count_le
  attrs_le := h.attrs_le
  pool_le := h.pool_le
  frame := h.frame
  tree := h.tree
  roots := ⟨h.roots.count, h.roots.html, h.roots.head, h.roots.body⟩
  opened := ho
  attrs_mark := h.attrs_mark
  pool_mark := h.pool_mark
  elem := h.elem
  text := h.text
  apart := h.apart
  attr := h.attr
  value := h.value

/-- **A tag is dropped with what it has read.** -/
theorem Ok.drop (h : Ok arena am pm d) : Whole arena (drop am pm d) := by
  have hattrs : (d.attrs.take am).length = am := by rw [List.length_take, Nat.min_eq_left h.attrs_mark]
  have hpool : (d.pool.take pm).length = pm := by rw [List.length_take, Nat.min_eq_left h.pool_mark]
  unfold Whole Dom.drop
  dsimp only
  rw [hattrs, hpool]
  exact {
    count_le := h.count_le
    attrs_le := by show (d.attrs.take am).length ≤ _; have := h.attrs_le; have := h.attrs_mark; omega
    pool_le := by show (d.pool.take pm).length ≤ _; have := h.pool_le; have := h.pool_mark; omega
    frame := h.frame
    tree := h.tree
    roots := ⟨h.roots.count, h.roots.html, h.roots.head, h.roots.body⟩
    opened := ⟨h.opened.ground, h.opened.path, h.opened.elem, h.opened.le⟩
    attrs_mark := Nat.le_of_eq hattrs.symm
    pool_mark := Nat.le_of_eq hpool.symm
    elem := h.elem
    text := h.text
    apart := h.apart
    attr := fun x hx => h.attr x (List.mem_of_mem_take hx)
    value := fun x hx => by rw [hpool]; exact h.attr x hx }

/-! ## Open elements -/

theorem Open.two_le (h : Open d) : 2 ≤ d.stk.length := h.ground.length_le

theorem Open.cur_mem (h : Open d) : d.cur ∈ d.stk := by
  have := h.two_le
  unfold Doc.cur
  cases hs : d.stk with
  | nil => rw [hs] at this; simp at this
  | cons n below => exact List.mem_cons_self

/-- Elements are closed from the top, but the last two. -/
theorem Open.shrink (h : Open d) {stk : List Nat} (hs : stk <:+ d.stk) (hlen : 2 ≤ stk.length) :
    Open { d with stk := stk } where
  ground := List.suffix_of_suffix_length_le h.ground hs hlen
  path := h.path.suffix hs
  elem n hn := h.elem n (hs.subset hn)
  le := Nat.le_trans hs.length_le h.le

/-- `<html>`, `<head>` and `<body>`. -/
def isRoot (t : Tag) : Bool := t ∈ ([.html, .head, .body] : List Tag)

theorem Roots.ground (h : Roots d) (hn : n ∈ d.ground) : isRoot (d.tagOf n) = true := by
  unfold Doc.ground at hn
  unfold Doc.tagOf
  rw [List.mem_cons, List.mem_singleton] at hn
  obtain hn | hn := hn
  · split at hn
    · rw [hn, h.head.2.2.1]
      rfl
    · rw [hn, h.body.2.2.1]
      rfl
  · rw [hn, h.html.2.2]
    rfl

/-- **Below an element that is not one of the first there are always two.** -/
theorem Ok.below (h : Ok arena am pm d) {above below : List Nat} (hs : d.stk = above ++ n :: below)
    (hn : isRoot (d.tagOf n) = false) : below <:+ d.stk ∧ 2 ≤ below.length := by
  have hsuf : n :: below <:+ d.stk := ⟨above, hs.symm⟩
  refine ⟨(List.suffix_cons n below).trans hsuf, ?_⟩
  by_contra hlt
  have hin : n :: below <:+ d.ground :=
    List.suffix_of_suffix_length_le hsuf h.opened.ground (by
      show (n :: below).length ≤ 2
      rw [List.length_cons]
      omega)
  have := h.roots.ground (hin.subset List.mem_cons_self)
  rw [hn] at this
  exact nomatch this

theorem search_some {wanted stop : Tag → Bool} : ∀ {stk below : List Nat},
    search d wanted stop stk = some below →
      ∃ above n, stk = above ++ n :: below ∧ wanted (d.tagOf n) = true
  | n :: stk, below, h => by
    unfold search at h
    split at h
    · next hw =>
      obtain rfl := Option.some.inj h
      exact ⟨[], n, rfl, hw⟩
    split at h
    · exact nomatch h
    · obtain ⟨above, m, rfl, hm⟩ := search_some h
      exact ⟨n :: above, m, rfl, hm⟩

/-- What is never wanted when elements are closed. -/
def Sparing (wanted : Tag → Bool) : Prop := ∀ t, wanted t = true → isRoot t = false

theorem Ok.popTo (h : Ok arena am pm d) {wanted stop : Tag → Bool} (hw : Sparing wanted) :
    Ok arena am pm (popTo (search d wanted stop d.stk) d) := by
  unfold Dom.popTo
  cases hf : search d wanted stop d.stk with
  | none => exact h.reopen h.opened
  | some below =>
    obtain ⟨above, n, hs, hn⟩ := search_some hf
    obtain ⟨hsuf, hlen⟩ := h.below hs (hw _ hn)
    exact h.reopen (h.opened.shrink hsuf hlen)

theorem Ok.find (h : Ok arena am pm d) {tag : Tag} (kind : Scope) (ht : isRoot tag = false) :
    Ok arena am pm (Dom.popTo (find tag kind d) d) :=
  h.popTo fun t hw => by rw [of_decide_eq_true hw]; exact ht

theorem Ok.popIf (h : Ok arena am pm d) {p : Tag → Bool} (hp : Sparing p) :
    Ok arena am pm (popIf p d) := by
  unfold Dom.popIf
  split
  · next hcur =>
    have htwo := h.opened.two_le
    cases hs : d.stk with
    | nil => rw [hs] at htwo; simp at htwo
    | cons n below =>
      unfold Doc.curTag Doc.cur at hcur
      rw [hs, if_neg (List.cons_ne_nil _ _), List.headD_cons] at hcur
      obtain ⟨hsuf, hlen⟩ := h.below (show d.stk = [] ++ n :: below from hs) (hp _ hcur)
      exact h.reopen (h.opened.shrink hsuf hlen)
  · exact h

theorem popUntil_go (d : Doc) (stop : Tag → Bool) : ∀ stk : List Nat, 2 ≤ stk.length →
    popUntil.go stop d stk <:+ stk ∧ 2 ≤ (popUntil.go stop d stk).length
  | n :: m :: l :: below, _ => by
    unfold popUntil.go
    split
    · exact ⟨List.suffix_refl _, by simp⟩
    · obtain ⟨hsuf, hlen⟩ := popUntil_go d stop (m :: l :: below) (by simp)
      exact ⟨hsuf.trans (List.suffix_cons ..), hlen⟩
  | [n, m], h => ⟨List.suffix_refl _, h⟩
  | [n], h => by simp at h
  | [], h => by simp at h

theorem Ok.popUntil (h : Ok arena am pm d) (stop : Tag → Bool) : Ok arena am pm (popUntil stop d) := by
  obtain ⟨hsuf, hlen⟩ := popUntil_go d stop d.stk h.opened.two_le
  exact h.reopen (h.opened.shrink hsuf hlen)

theorem Ok.enterBody (h : Ok arena am pm d) : Ok arena am pm (enterBody d) := by
  unfold Dom.enterBody
  split
  · exact h
  · rw [show [d.body, d.html] = [3, 1] by rw [h.roots.body.1, h.roots.html.1]]
    have hcount := h.roots.count
    have ho : Open { d with stk := [3, 1], in_head := false } := {
      ground := List.suffix_refl _
      path := List.isChain_pair.mpr h.roots.body.2.2.2
      elem := fun n hn => by
        rw [List.mem_cons, List.mem_singleton] at hn
        obtain rfl | rfl := hn
        · exact ⟨by show 3 < d.node_count; omega, h.roots.body.2.1⟩
        · exact ⟨by show 1 < d.node_count; omega, h.roots.html.2.1⟩
      le := by show 2 ≤ stackMax; decide }
    exact h.reopen ho

/-! ## More nodes -/

/-- A new node in the tree. -/
def addNode (p : Nat) (x : Node) (d : Doc) : Doc := append p d.node_count (newNode x d).2

theorem newNode_full (h : nodeMax ≤ d.node_count) :
    newNode x d = (0, { d with truncated := true }) := by
  unfold newNode
  exact if_pos h

theorem newNode_room (h : d.node_count < nodeMax) : newNode x d
    = (d.node_count, { d.setNode d.node_count x with node_count := d.node_count + 1 }) := by
  unfold newNode
  exact if_neg (Nat.not_le.mpr h)

theorem addNode_rest (h : d.node_count < nodeMax) : addNode p x d
    = { d with nodes := (addNode p x d).nodes, node_count := d.node_count + 1 } := by
  unfold addNode
  rw [append_rest, newNode_room h]
  rfl

/-- The arena with the new node, before it is linked. -/
def Doc.links₁ (d : Doc) (x : Node) : Links := (d.setNode d.node_count x).links

section
variable (h : Ok arena am pm d) (hroom : d.node_count < nodeMax) (hp : p < d.node_count)
include h hroom hp

theorem addNode_nodes (i : Nat) : (addNode p x d).nodes i
    = (update d.nodes d.node_count x i).relink ((d.links₁ x).append p d.node_count) i := by
  have hne : p ≠ d.node_count := by omega
  unfold addNode
  rw [newNode_room hroom]
  dsimp only
  rw [append_nodes hne]
  · rfl
  · show (update d.nodes d.node_count x p).last ≠ _
    rw [update_of_ne hne]
    have := h.tree.last_lt hp
    exact Nat.ne_of_lt this

/-- What an old node says, but for its links to others below it. -/
theorem addNode_old (hi : i < d.node_count) : ((addNode p x d).nodes i).a = (d.nodes i).a
    ∧ ((addNode p x d).nodes i).b = (d.nodes i).b
    ∧ ((addNode p x d).nodes i).kind = (d.nodes i).kind
    ∧ ((addNode p x d).nodes i).tag = (d.nodes i).tag
    ∧ ((addNode p x d).nodes i).parent = (d.nodes i).parent := by
  have hne : i ≠ d.node_count := by omega
  rw [addNode_nodes h hroom hp, update_of_ne hne]
  refine ⟨rfl, rfl, rfl, rfl, ?_⟩
  show update (d.links₁ x).parent d.node_count p i = _
  rw [update_of_ne hne]
  show (update d.nodes d.node_count x i).parent = _
  rw [update_of_ne hne]

theorem addNode_new : ((addNode p x d).nodes d.node_count).a = x.a
    ∧ ((addNode p x d).nodes d.node_count).b = x.b
    ∧ ((addNode p x d).nodes d.node_count).kind = x.kind
    ∧ ((addNode p x d).nodes d.node_count).tag = x.tag
    ∧ ((addNode p x d).nodes d.node_count).parent = p := by
  rw [addNode_nodes h hroom hp, update_self]
  exact ⟨rfl, rfl, rfl, rfl, update_self ..⟩

theorem addNode_outside (hi : d.node_count < i) : (addNode p x d).nodes i = d.nodes i := by
  have hne : i ≠ d.node_count := by omega
  have hip : i ≠ p := by omega
  have hil : i ≠ (d.nodes p).last := by
    have : (d.nodes p).last < d.node_count := h.tree.last_lt hp
    omega
  have hlast : (d.links₁ x).last p = (d.nodes p).last := by
    show (update d.nodes d.node_count x p).last = _
    rw [update_of_ne (by omega)]
  obtain ⟨hpar, hfirst, hend, hnext⟩ :=
    append_other (L := d.links₁ x) hne hip (by rw [hlast]; exact hil)
  have hsame : ((d.setNode d.node_count x).nodes i) = d.nodes i := update_of_ne hne ..
  rw [addNode_nodes h hroom hp, update_of_ne hne]
  unfold Node.relink
  rw [hpar, hfirst, hend, hnext]
  unfold Doc.links₁ Doc.links
  dsimp only
  rw [hsame]

/-- **A new node keeps the document.** An element has no attributes, or ones behind those of the
others. -/
theorem Ok.addNode (hfirst : x.first = 0) (hlast : x.last = 0)
    (helem : x.kind = .elem → x.a + x.b ≤ am)
    (hfree : x.kind = .elem → x.b ≠ 0 → ∀ n < d.node_count, (d.nodes n).kind = .elem →
      (d.nodes n).a + (d.nodes n).b ≤ x.a)
    (htext : x.kind = .text → x.a + x.b ≤ pm) : Ok arena am pm (addNode p x d) := by
  have hold := fun i (hi : i < d.node_count) => addNode_old (x := x) h hroom hp hi
  have hnew := addNode_new (x := x) h hroom hp
  have hnodes := addNode_nodes (x := x) h hroom hp
  have hout := fun i (hi : d.node_count < i) => addNode_outside (x := x) h hroom hp hi
  have hrest := addNode_rest (p := p) (x := x) hroom
  obtain ⟨N, hN⟩ : ∃ N, (Dom.addNode p x d).nodes = N := ⟨_, rfl⟩
  rw [hN] at hold hnew hnodes hout hrest
  rw [hrest]
  have hcases : ∀ n < d.node_count + 1, n < d.node_count ∨ n = d.node_count := fun n hn => by omega
  exact {
    count_le := hroom
    attrs_le := h.attrs_le
    pool_le := h.pool_le
    frame := fun i hi => by
      have hi' : d.node_count + 1 ≤ i := hi
      exact (hout i hi').trans (h.frame i (by omega))
    tree := by
      have htree : (d.links₁ x).Tree d.node_count := by
        have hsame : ∀ i < d.node_count, (d.setNode d.node_count x).nodes i = d.nodes i :=
          fun i hi => update_of_ne (by omega) ..
        refine h.tree.congr ?_ ?_ ?_ ?_ <;> intro i hi
        · exact congrArg Node.parent (hsame i hi)
        · exact congrArg Node.first (hsame i hi)
        · exact congrArg Node.last (hsame i hi)
        · exact congrArg Node.next (hsame i hi)
      have hself : (d.setNode d.node_count x).nodes d.node_count = x := update_self ..
      have hgrown := htree.append hp ((congrArg Node.first hself).trans hfirst)
        ((congrArg Node.last hself).trans hlast)
      refine hgrown.congr ?_ ?_ ?_ ?_ <;> intro i _
      · exact congrArg Node.parent (hnodes i)
      · exact congrArg Node.first (hnodes i)
      · exact congrArg Node.last (hnodes i)
      · exact congrArg Node.next (hnodes i)
    roots := by
      have hcount := h.roots.count
      obtain ⟨-, -, hk₁, ht₁, -⟩ := hold 1 (by omega)
      obtain ⟨-, -, hk₂, ht₂, hp₂⟩ := hold 2 (by omega)
      obtain ⟨-, -, hk₃, ht₃, hp₃⟩ := hold 3 (by omega)
      obtain ⟨hh, hhk, hht⟩ := h.roots.html
      obtain ⟨he, hek, het, hep⟩ := h.roots.head
      obtain ⟨hb, hbk, hbt, hbp⟩ := h.roots.body
      exact ⟨by show 4 ≤ d.node_count + 1; omega, ⟨hh, hk₁.trans hhk, ht₁.trans hht⟩,
        ⟨he, hk₂.trans hek, ht₂.trans het, hp₂.trans hep⟩,
        ⟨hb, hk₃.trans hbk, ht₃.trans hbt, hp₃.trans hbp⟩⟩
    opened := by
      refine ⟨h.opened.ground, ?_, fun n hn => ?_, h.opened.le⟩
      · refine List.IsChain.imp_of_mem_imp (fun n up hn _ hup => ?_) h.opened.path
        exact (hold n (h.opened.elem n hn).1).2.2.2.2.trans hup
      · obtain ⟨hlt, hk⟩ := h.opened.elem n hn
        exact ⟨by show n < d.node_count + 1; omega, (hold n hlt).2.2.1.trans hk⟩
    attrs_mark := h.attrs_mark
    pool_mark := h.pool_mark
    elem := fun n hn hk => by
      obtain hn | rfl := hcases n hn
      · obtain ⟨ha, hb, hk', -⟩ := hold n hn
        show (N n).a + (N n).b ≤ am
        rw [ha, hb]
        exact h.elem n hn (hk'.symm.trans hk)
      · show (N d.node_count).a + (N d.node_count).b ≤ am
        rw [hnew.1, hnew.2.1]
        exact helem (hnew.2.2.1.symm.trans hk)
    text := fun n hn hk => by
      obtain hn | rfl := hcases n hn
      · obtain ⟨ha, hb, hk', -⟩ := hold n hn
        show (N n).a + (N n).b ≤ pm
        rw [ha, hb]
        exact h.text n hn (hk'.symm.trans hk)
      · show (N d.node_count).a + (N d.node_count).b ≤ pm
        rw [hnew.1, hnew.2.1]
        exact htext (hnew.2.2.1.symm.trans hk)
    apart := fun n m hn hm i hni hmi => by
      have howns : ∀ k < d.node_count, (N k).Owns i → (d.nodes k).Owns i := fun k hk ho => by
        obtain ⟨ha, hb, hk', -⟩ := hold k hk
        obtain ⟨h₀, h₁, h₂⟩ := ho
        rw [ha] at h₁ h₂
        rw [hb] at h₂
        exact ⟨hk'.symm.trans h₀, h₁, h₂⟩
      have hlast : ∀ k < d.node_count, (N k).Owns i → (N d.node_count).Owns i → False :=
        fun k hk ho hc => by
          obtain ⟨h₀, -, h₂⟩ := howns k hk ho
          obtain ⟨g₀, g₁, g₂⟩ := hc
          rw [hnew.1] at g₁ g₂
          rw [hnew.2.1] at g₂
          have := hfree (hnew.2.2.1.symm.trans g₀) (by omega) k hk h₀
          omega
      obtain hn | rfl := hcases n hn
      · obtain hm | rfl := hcases m hm
        · exact h.apart n m hn hm i (howns n hn hni) (howns m hm hmi)
        · exact (hlast n hn hni hmi).elim
      · obtain hm | rfl := hcases m hm
        · exact (hlast m hm hmi hni).elim
        · rfl
    attr := h.attr
    value := h.value }

end

/-- **What a node refers to changes.** -/
theorem Ok.setRange (h : Ok arena am pm d) (hn : n < d.node_count) {a b : Nat}
    (helem : (d.nodes n).kind = .elem → a + b ≤ am)
    (hfree : (d.nodes n).kind = .elem → b ≠ 0 → ∀ m < d.node_count, (d.nodes m).kind = .elem →
      (d.nodes m).a + (d.nodes m).b ≤ a)
    (htext : (d.nodes n).kind = .text → a + b ≤ pm) :
    Ok arena am pm (d.setNode n { d.nodes n with a := a, b := b }) := by
  unfold Doc.setNode
  obtain ⟨N, hN⟩ : ∃ N, update d.nodes n { d.nodes n with a := a, b := b } = N := ⟨_, rfl⟩
  have hself : N n = { d.nodes n with a := a, b := b } := by rw [← hN, update_self]
  have hother : ∀ i, i ≠ n → N i = d.nodes i := fun i hi => by rw [← hN, update_of_ne hi]
  have hrest : ∀ i, (N i).parent = (d.nodes i).parent ∧ (N i).first = (d.nodes i).first
      ∧ (N i).last = (d.nodes i).last ∧ (N i).next = (d.nodes i).next
      ∧ (N i).kind = (d.nodes i).kind ∧ (N i).tag = (d.nodes i).tag := fun i => by
    by_cases hi : i = n
    · rw [hi, hself]
      exact ⟨rfl, rfl, rfl, rfl, rfl, rfl⟩
    · rw [hother i hi]
      exact ⟨rfl, rfl, rfl, rfl, rfl, rfl⟩
  rw [hN]
  exact {
    count_le := h.count_le
    attrs_le := h.attrs_le
    pool_le := h.pool_le
    frame := fun i hi => by
      have hi' : d.node_count ≤ i := hi
      exact (hother i (by omega)).trans (h.frame i hi)
    tree := h.tree.congr (fun i _ => (hrest i).1) (fun i _ => (hrest i).2.1)
      (fun i _ => (hrest i).2.2.1) fun i _ => (hrest i).2.2.2.1
    roots := by
      obtain ⟨hcount, ⟨hh, hhk, hht⟩, ⟨he, hek, het, hep⟩, hb, hbk, hbt, hbp⟩ := h.roots
      obtain ⟨-, -, -, -, hk₁, ht₁⟩ := hrest 1
      obtain ⟨hp₂, -, -, -, hk₂, ht₂⟩ := hrest 2
      obtain ⟨hp₃, -, -, -, hk₃, ht₃⟩ := hrest 3
      exact ⟨hcount, ⟨hh, hk₁.trans hhk, ht₁.trans hht⟩,
        ⟨he, hk₂.trans hek, ht₂.trans het, hp₂.trans hep⟩,
        ⟨hb, hk₃.trans hbk, ht₃.trans hbt, hp₃.trans hbp⟩⟩
    opened := by
      refine ⟨h.opened.ground, ?_, fun m hm => ?_, h.opened.le⟩
      · exact List.IsChain.imp (fun m up hup => (hrest m).1.trans hup) h.opened.path
      · obtain ⟨hlt, hk⟩ := h.opened.elem m hm
        exact ⟨hlt, (hrest m).2.2.2.2.1.trans hk⟩
    attrs_mark := h.attrs_mark
    pool_mark := h.pool_mark
    elem := fun m hm hk => by
      show (N m).a + (N m).b ≤ am
      have hk' := (hrest m).2.2.2.2.1.symm.trans hk
      by_cases hmn : m = n
      · rw [hmn, hself]
        exact helem (hmn ▸ hk')
      · rw [hother m hmn]
        exact h.elem m hm hk'
    text := fun m hm hk => by
      show (N m).a + (N m).b ≤ pm
      have hk' := (hrest m).2.2.2.2.1.symm.trans hk
      by_cases hmn : m = n
      · rw [hmn, hself]
        exact htext (hmn ▸ hk')
      · rw [hother m hmn]
        exact h.text m hm hk'
    apart := fun m k hm hk i hmi hki => by
      have hmi' : (N m).Owns i := hmi
      have hki' : (N k).Owns i := hki
      have hclash : ∀ j < d.node_count, j ≠ n → (N j).Owns i → (N n).Owns i → False :=
        fun j hj hjn ho hc => by
          rw [hother j hjn] at ho
          rw [hself] at hc
          obtain ⟨g₀, g₁, g₂⟩ := hc
          have := hfree g₀ (by dsimp only at g₁ g₂; omega) j hj ho.1
          have := ho.2.2
          dsimp only at g₁
          omega
      by_cases hmn : m = n
      · by_cases hkn : k = n
        · rw [hmn, hkn]
        · exact (hclash k hk hkn hki' (hmn ▸ hmi')).elim
      · by_cases hkn : k = n
        · exact (hclash m hm hmn hmi' (hkn ▸ hki')).elim
        · rw [hother m hmn] at hmi'
          rw [hother k hkn] at hki'
          exact h.apart m k hm hk i hmi' hki'
    attr := h.attr
    value := h.value }

/-! ## Elements -/

theorem Ok.cur_lt (h : Ok arena am pm d) : d.cur < d.node_count :=
  (h.opened.elem d.cur h.opened.cur_mem).1

theorem Ok.insertElem (h : Ok arena am pm d) {afirst acount : Nat} (tag : Tag) (push : Bool)
    (ha : afirst + acount ≤ am)
    (hfree : acount ≠ 0 → ∀ n < d.node_count, (d.nodes n).kind = .elem →
      (d.nodes n).a + (d.nodes n).b ≤ afirst) :
    Ok arena am pm (insertElem tag afirst acount push d).2 := by
  have hcount := h.roots.count
  unfold Dom.insertElem
  by_cases hroom : d.node_count < nodeMax
  · obtain ⟨x, hx⟩ : ∃ x : Node, { kind := .elem, tag := tag, a := afirst, b := acount } = x :=
      ⟨_, rfl⟩
    have hok : Ok arena am pm (Dom.addNode d.cur x d) :=
      h.addNode hroom h.cur_lt (by rw [← hx]) (by rw [← hx]) (fun _ => by rw [← hx]; exact ha)
        (fun _ => by rw [← hx]; exact hfree) fun hk => by rw [← hx] at hk; exact nomatch hk
    have hnew := addNode_new (x := x) h hroom h.cur_lt
    have hrest := addNode_rest (p := d.cur) (x := x) hroom
    have hn : (newNode x d).1 = d.node_count := by rw [newNode_room hroom]
    have hadd : append d.cur d.node_count (newNode x d).2 = Dom.addNode d.cur x d := rfl
    rw [hx]
    dsimp only
    rw [hn, if_neg (by omega), hadd]
    obtain ⟨d₁, hd₁⟩ : ∃ d₁, Dom.addNode d.cur x d = d₁ := ⟨_, rfl⟩
    rw [hd₁] at hok hnew hrest ⊢
    dsimp only
    split
    · next hpush =>
      have hstk : d₁.stk = d.stk := by rw [hrest]
      have hc₁ : d₁.node_count = d.node_count + 1 := by rw [hrest]
      refine hok.reopen ⟨hok.opened.ground.trans (List.suffix_cons ..), ?_, fun m hm => ?_, ?_⟩
      · have hcur := h.opened.two_le
        show (d.node_count :: d₁.stk).IsChain fun n up => (d₁.nodes n).parent = up
        have hpath := hok.opened.path
        have hpar : (d₁.nodes d.node_count).parent = d.cur := hnew.2.2.2.2
        unfold Doc.cur at hpar
        rw [← hstk] at hpar hcur
        cases hs : d₁.stk with
        | nil => exact List.isChain_singleton _
        | cons m below =>
          rw [hs] at hpath hpar
          exact List.isChain_cons_cons.mpr ⟨hpar, hpath⟩
      · obtain rfl | hm := List.mem_cons.mp hm
        · exact ⟨by show d.node_count < d₁.node_count; omega, by
            show (d₁.nodes d.node_count).kind = .elem
            rw [hnew.2.2.1, ← hx]⟩
        · exact hok.opened.elem m hm
      · exact hpush.2
    · exact hok
  · rw [newNode_full (Nat.le_of_not_lt hroom)]
    exact h.flags true d.skip_lf d.txt_node d.foreign

/-! ## Start tags -/

/-- The attributes, the pool and the text node at hand stay. -/
def SameData (d d' : Doc) : Prop :=
  d'.attrs = d.attrs ∧ d'.pool = d.pool ∧ d'.txt_node = d.txt_node

theorem SameData.trans {d₁ d₂ : Doc} (h : SameData d d₁) (h' : SameData d₁ d₂) : SameData d d₂ :=
  ⟨h'.1.trans h.1, h'.2.1.trans h.2.1, h'.2.2.trans h.2.2⟩

/-- **An operation that keeps the document**, and adds no attributes and no text. -/
def Keeps (arena : Nat → Node) (am pm : Nat) (f : Doc → Doc) : Prop :=
  ∀ d, Ok arena am pm d → Ok arena am pm (f d) ∧ SameData d (f d)

theorem Keeps.comp {f g : Doc → Doc} (hf : Keeps arena am pm f) (hg : Keeps arena am pm g) :
    Keeps arena am pm fun d => f (g d) := fun d h => by
  obtain ⟨h₁, hd₁⟩ := hg d h
  obtain ⟨h₂, hd₂⟩ := hf _ h₁
  exact ⟨h₂, hd₁.trans hd₂⟩

theorem keeps_id : Keeps arena am pm fun d => d := fun _ h => ⟨h, rfl, rfl, rfl⟩

theorem Keeps.ite {f g : Doc → Doc} {P : Doc → Prop} [∀ d, Decidable (P d)]
    (hf : Keeps arena am pm f) (hg : Keeps arena am pm g) :
    Keeps arena am pm fun d => if P d then f d else g d := fun d h => by
  dsimp only
  split
  · exact hf d h
  · exact hg d h

theorem keeps_enterBody : Keeps arena am pm enterBody := fun d h => by
  refine ⟨h.enterBody, ?_⟩
  unfold enterBody
  split <;> exact ⟨rfl, rfl, rfl⟩

theorem keeps_search {wanted : Tag → Bool} (stop : Tag → Bool) (hw : Sparing wanted) :
    Keeps arena am pm fun d => popTo (search d wanted stop d.stk) d :=
  fun _ h => ⟨h.popTo hw, rfl, rfl, rfl⟩

theorem keeps_find (tag : Tag) (kind : Scope) (ht : isRoot tag = false) :
    Keeps arena am pm fun d => popTo (find tag kind d) d :=
  fun _ h => ⟨h.find kind ht, rfl, rfl, rfl⟩

theorem keeps_popIf {q : Tag → Bool} (hq : Sparing q) : Keeps arena am pm (popIf q) := fun d h => by
  refine ⟨h.popIf hq, ?_⟩
  unfold popIf
  split <;> exact ⟨rfl, rfl, rfl⟩

theorem keeps_popUntil (stop : Tag → Bool) : Keeps arena am pm (popUntil stop) :=
  fun _ h => ⟨h.popUntil stop, rfl, rfl, rfl⟩

theorem newNode_data (x : Node) (d : Doc) : SameData d (newNode x d).2 := by
  unfold newNode
  split <;> exact ⟨rfl, rfl, rfl⟩

theorem append_data (p c : Nat) (d : Doc) : SameData d (append p c d) := by
  rw [append_rest]
  exact ⟨rfl, rfl, rfl⟩

theorem insertElem_data (tag : Tag) (afirst acount : Nat) (push : Bool) (d : Doc) :
    SameData d (insertElem tag afirst acount push d).2 := by
  have hnew := newNode_data { kind := .elem, tag := tag, a := afirst, b := acount } d
  unfold insertElem
  dsimp only
  split
  · exact hnew
  · dsimp only
    split
    · exact hnew.trans (append_data _ _ _)
    · exact hnew.trans (append_data _ _ _)

/-- An element that has no attributes. -/
theorem keeps_insert (tag : Tag) (push : Bool) :
    Keeps arena am pm fun d => (insertElem tag 0 0 push d).2 :=
  fun d h => ⟨h.insertElem tag push (Nat.zero_le _) (absurd rfl), insertElem_data _ _ _ _ d⟩

theorem sparing_eq {tag : Tag} (ht : isRoot tag = false) : Sparing (· = tag) :=
  fun t hw => by rw [of_decide_eq_true hw]; exact ht

theorem sparing_heading : Sparing Tag.isHeading := by
  intro t ht
  have hall : ∀ t ∈ ([.h1, .h2, .h3, .h4, .h5, .h6] : List Tag), isRoot t = false := by decide
  exact hall t (of_decide_eq_true ht)

theorem keeps_makeRoom (tag : Tag) : Keeps arena am pm (makeRoom tag) := by
  have hp : Keeps arena am pm fun d => if tag.closesP then closeP d else d :=
    Keeps.ite (keeps_find .p .button rfl) keeps_id
  have hheading : Keeps arena am pm fun d =>
      if tag.isHeading then popIf Tag.isHeading d else d :=
    Keeps.ite (keeps_popIf sparing_heading) keeps_id
  have hfirst := hheading.comp hp
  have hitem : Sparing fun t => t = .dd ∨ t = .dt := fun t hw => by
    obtain rfl | rfl := of_decide_eq_true hw <;> rfl
  have hcell : Keeps arena am pm fun d => if isTablePart d.curTag then (insertElem .tr 0 0 true d).2
      else d := Keeps.ite (keeps_insert .tr true) keeps_id
  intro d h
  obtain ⟨h₁, hd₁⟩ := hfirst d h
  unfold makeRoom
  dsimp only at h₁ hd₁ ⊢
  obtain ⟨d₁, hd⟩ : ∃ d₁, (if tag.isHeading then popIf Tag.isHeading
    (if tag.closesP then closeP d else d) else if tag.closesP then closeP d else d) = d₁ := ⟨_, rfl⟩
  rw [hd] at h₁ hd₁ ⊢
  have then_ : ∀ {f : Doc → Doc}, Keeps arena am pm f → Ok arena am pm (f d₁) ∧ SameData d (f d₁) :=
    fun hf => ⟨(hf d₁ h₁).1, hd₁.trans (hf d₁ h₁).2⟩
  split
  · exact (then_ (keeps_search listStop (sparing_eq (show isRoot .li = false from rfl))) :)
  · exact (then_ (keeps_search listStop hitem) :)
  · exact (then_ (keeps_search listStop hitem) :)
  · exact then_ (keeps_popIf (sparing_eq rfl))
  · exact then_ ((keeps_popIf (sparing_eq rfl)).comp (keeps_popIf (sparing_eq rfl)))
  · exact (then_ (keeps_find .a .generic rfl) :)
  · exact (then_ (keeps_find .button .generic rfl) :)
  · exact then_ (keeps_popUntil _)
  · exact then_ (keeps_popUntil _)
  · exact then_ (keeps_popUntil _)
  · exact then_ (keeps_popUntil _)
  · exact then_ (keeps_popUntil _)
  · exact then_ (keeps_popUntil _)
  · exact then_ (hcell.comp (keeps_popUntil _))
  · exact then_ (hcell.comp (keeps_popUntil _))
  · exact ⟨h₁, hd₁⟩

/-- **The attributes of a second `<html>` or `<body>`.** -/
theorem Ok.rootAttrs (h : Ok arena am pm d) {root : Nat} (hr : root < d.node_count)
    (hk : (d.nodes root).kind = .elem) :
    Whole arena (rootAttrs root am (d.attrs.length - am) pm d) := by
  unfold Dom.rootAttrs
  split
  · have hmark := h.attrs_mark
    exact h.whole.setRange hr (fun _ => by omega) (fun _ _ => h.elem)
      fun ht => by rw [hk] at ht; exact nomatch ht
  · exact h.drop

theorem rootAttrs_txt (root afirst acount pool_mark : Nat) (d : Doc) :
    (rootAttrs root afirst acount pool_mark d).txt_node = d.txt_node := by
  unfold rootAttrs
  split <;> rfl

/-- **A start tag** whose attributes lie behind the marks. -/
theorem Ok.startAt (h₀ : Ok arena am pm d) (tag : Tag) (selfclose : Bool) :
    Whole arena (startAt tag am (d.attrs.length - am) pm selfclose d).2
      ∧ (startAt tag am (d.attrs.length - am) pm selfclose d).2.txt_node = d.txt_node := by
  unfold Dom.startAt
  have hcount := h₀.roots.count
  split
  · rw [h₀.roots.html.1]
    exact ⟨h₀.rootAttrs (by omega) h₀.roots.html.2.1, rootAttrs_txt ..⟩
  split
  · exact ⟨h₀.drop, rfl⟩
  split
  · have hb := keeps_enterBody d h₀
    obtain ⟨d₁, hd₁⟩ : ∃ d₁, Dom.enterBody d = d₁ := ⟨_, rfl⟩
    rw [hd₁] at hb ⊢
    dsimp only
    have hcount₁ := hb.1.roots.count
    rw [hb.1.roots.body.1, ← hb.2.1]
    exact ⟨hb.1.rootAttrs (by omega) hb.1.roots.body.2.1, (rootAttrs_txt ..).trans hb.2.2.2⟩
  split
  · exact ⟨h₀.drop, rfl⟩
  · have hroom := ((Keeps.ite (P := fun d => ¬ d.in_head) (keeps_makeRoom tag) keeps_id).comp
      (Keeps.ite (P := fun d => d.in_head ∧ ¬ tag.isHeadish) keeps_enterBody keeps_id)) d h₀
    dsimp only at hroom
    obtain ⟨d₁, hd₁⟩ : ∃ d₁, (if ¬ (if d.in_head ∧ ¬ tag.isHeadish then Dom.enterBody d
        else d).in_head then makeRoom tag (if d.in_head ∧ ¬ tag.isHeadish then Dom.enterBody d
        else d) else if d.in_head ∧ ¬ tag.isHeadish then Dom.enterBody d else d) = d₁ := ⟨_, rfl⟩
    dsimp only
    rw [hd₁] at hroom ⊢
    obtain ⟨h₁, hdata, -, htxt⟩ := hroom
    have hmark := h₀.attrs_mark
    have hins : Ok arena d₁.attrs.length d₁.pool.length (Dom.insertElem tag am
        (d.attrs.length - am) (decide ¬ (tag.isVoid = true ∨ (selfclose = true ∧ d₁.foreign ≠ 0))) d₁).2 :=
      h₁.whole.insertElem tag _ (by rw [hdata]; omega) fun _ => h₁.elem
    have hdata₁ := (insertElem_data tag am (d.attrs.length - am)
      (decide ¬ (tag.isVoid = true ∨ (selfclose = true ∧ d₁.foreign ≠ 0))) d₁).2.2.trans htxt
    split
    · exact ⟨(hins.flags _ _ _ _).whole, hdata₁⟩
    · exact ⟨hins.whole, hdata₁⟩

theorem Ok.start (h : Ok arena am pm d) (tag : Tag) (selfclose : Bool) :
    Whole arena (start tag am (d.attrs.length - am) pm selfclose d).2
      ∧ (start tag am (d.attrs.length - am) pm selfclose d).2.txt_node = 0 :=
  (h.flags d.truncated d.skip_lf 0 d.foreign).startAt tag selfclose

/-! ## End tags -/

theorem keeps_foreign (tag : Tag) : Keeps arena am pm fun d =>
    if tag = .svg ∨ tag = .math then { d with foreign := d.foreign - 1 } else d := by
  intro d h
  dsimp only
  split
  · exact ⟨h.flags _ _ _ _, rfl, rfl, rfl⟩
  · exact ⟨h, rfl, rfl, rfl⟩

theorem Ok.endAt (h : Whole arena d) (h₀ : d.txt_node = 0) (tag : Tag) :
    Whole arena (endAt tag d) ∧ (endAt tag d).txt_node = d.txt_node := by
  have hkeep : ∀ {f : Doc → Doc}, Keeps arena d.attrs.length d.pool.length f →
      Whole arena (f d) ∧ (f d).txt_node = d.txt_node :=
    fun hf => ⟨(hf d h).1.whole, (hf d h).2.2.2⟩
  unfold Dom.endAt
  split
  · exact ⟨h, rfl⟩
  next hroot =>
  split
  · exact hkeep keeps_enterBody
  next hhead =>
  have ht : isRoot tag = false := by
    unfold isRoot
    rw [decide_eq_false_iff_not, List.mem_cons, List.mem_cons, List.mem_singleton]
    rintro (rfl | rfl | rfl)
    · exact hroot (.inl rfl)
    · exact hhead rfl
    · exact hroot (.inr rfl)
  split
  · have hstart := Ok.start h .br false
    rw [Nat.sub_self] at hstart
    rw [h₀]
    exact hstart
  split
  · split
    · next below hf =>
      have hp := Ok.find h .button (show isRoot .p = false from rfl)
      rw [hf] at hp
      exact ⟨hp.whole, rfl⟩
    · split
      · exact hkeep (keeps_insert .p false)
      · exact ⟨h, rfl⟩
  split
  · exact ⟨(Ok.find h .li rfl).whole, rfl⟩
  split
  · exact ⟨(Ok.find h .generic ht).whole, rfl⟩
  split
  · exact ⟨(Ok.popTo h sparing_heading).whole, rfl⟩
  split
  · exact ⟨(Ok.find h .table ht).whole, rfl⟩
  · have hforeign := hkeep (keeps_foreign tag)
    dsimp only at hforeign ⊢
    obtain ⟨d₁, hd₁⟩ : ∃ d₁, (if tag = .svg ∨ tag = .math then { d with foreign := d.foreign - 1 }
      else d) = d₁ := ⟨_, rfl⟩
    rw [hd₁] at hforeign ⊢
    obtain ⟨hw, htxt⟩ := hforeign
    split
    · next below hf =>
      have hp := Ok.find hw .generic ht
      rw [hf] at hp
      exact ⟨hp.whole, htxt⟩
    · split
      · exact ⟨hw, htxt⟩
      · exact ⟨(Ok.popTo hw (sparing_eq ht)).whole, htxt⟩

/-- **An end tag.** -/
theorem Ok.end_ (h : Whole arena d) (tag : Tag) :
    Whole arena (end_ tag d) ∧ (end_ tag d).txt_node = 0 :=
  Ok.endAt (Ok.flags h d.truncated d.skip_lf 0 d.foreign).whole rfl tag

/-! ## The beginning -/

/-- The tree of the document with `<html>`, and `<head>` and `<body>` in it. -/
theorem reset_tree {L : Links} (hpar : L.parent 1 = 0 ∧ L.parent 2 = 1 ∧ L.parent 3 = 1)
    (hfirst : L.first 0 = 1 ∧ L.first 1 = 2 ∧ L.first 2 = 0 ∧ L.first 3 = 0)
    (hlast : L.last 0 = 1 ∧ L.last 1 = 3 ∧ L.last 2 = 0 ∧ L.last 3 = 0)
    (hnext : L.next 1 = 0 ∧ L.next 2 = 3 ∧ L.next 3 = 0) : L.Tree 4 := by
  obtain ⟨hp₁, hp₂, hp₃⟩ := hpar
  obtain ⟨hf₀, hf₁, hf₂, hf₃⟩ := hfirst
  obtain ⟨hl₀, hl₁, hl₂, hl₃⟩ := hlast
  obtain ⟨hn₁, hn₂, hn₃⟩ := hnext
  have hnone : ∀ p, 2 ≤ p → ∀ c, c ∈ ([] : List Nat) ↔ 0 < c ∧ c < 4 ∧ L.parent c = p := by
    refine fun p hp c => ⟨fun hc => (nomatch hc), fun ⟨h0, h4, hc⟩ => ?_⟩
    interval_cases c <;> omega
  refine ⟨fun c h0 h4 => by interval_cases c <;> omega, fun p hp => ?_⟩
  interval_cases p
  · refine ⟨[1], ?_, List.nodup_singleton 1, hl₀, fun c => ?_⟩
    · rw [hf₀]
      exact .cons (by decide) (by rw [hn₁]; exact .nil)
    · rw [List.mem_singleton]
      refine ⟨fun hc => by rw [hc]; exact ⟨by decide, by decide, hp₁⟩, fun ⟨h0, h4, hc⟩ => ?_⟩
      interval_cases c <;> omega
  · refine ⟨[2, 3], ?_, by decide, hl₁, fun c => ?_⟩
    · rw [hf₁]
      exact .cons (by decide) (by rw [hn₂]; exact .cons (by decide) (by rw [hn₃]; exact .nil))
    · rw [List.mem_cons, List.mem_singleton]
      refine ⟨fun hc => by obtain rfl | rfl := hc <;> omega, fun ⟨h0, h4, hc⟩ => ?_⟩
      interval_cases c <;> omega
  · exact ⟨[], by rw [hf₂]; exact .nil, List.nodup_nil, hl₂, hnone 2 (by decide)⟩
  · exact ⟨[], by rw [hf₃]; exact .nil, List.nodup_nil, hl₃, hnone 3 (by decide)⟩

/-- The nodes that `dom_reset` makes. -/
def firstNodes (arena : Nat → Node) : Nat → Node
  | 0 => { kind := .doc, first := 1, last := 1 }
  | 1 => { kind := .elem, tag := .html, first := 2, last := 3 }
  | 2 => { kind := .elem, tag := .head, parent := 1, next := 3 }
  | 3 => { kind := .elem, tag := .body, parent := 1 }
  | n => arena n

theorem reset_eq (arena : Nat → Node) : reset arena =
    { nodes := firstNodes arena, node_count := 4, html := 1, head := 2, body := 3,
      stk := [2, 1] } := by
  unfold reset newNode Dom.append Doc.setNode nodeMax
  simp
  funext i
  match i with
  | 0 => simp [firstNodes, update]
  | 1 => simp [firstNodes, update]
  | 2 => simp [firstNodes, update]
  | 3 => simp [firstNodes, update]
  | k + 4 => simp [firstNodes, update]

/-- **What `dom_reset` leaves.** -/
theorem reset_whole (arena : Nat → Node) : Whole arena (reset arena) := by
  rw [reset_eq]
  exact {
    count_le := by show 4 ≤ nodeMax; decide
    attrs_le := Nat.zero_le _
    pool_le := Nat.zero_le _
    frame := fun i hi => by
      obtain ⟨k, rfl⟩ : ∃ k, i = k + 4 := ⟨i - 4, by have : 4 ≤ i := hi; omega⟩
      rfl
    tree := reset_tree ⟨rfl, rfl, rfl⟩ ⟨rfl, rfl, rfl, rfl⟩ ⟨rfl, rfl, rfl, rfl⟩ ⟨rfl, rfl, rfl⟩
    roots := ⟨Nat.le_refl 4, ⟨rfl, rfl, rfl⟩, ⟨rfl, rfl, rfl, rfl⟩, ⟨rfl, rfl, rfl, rfl⟩⟩
    opened := by
      refine ⟨List.suffix_refl [2, 1], List.isChain_pair.mpr rfl, fun n hn => ?_, ?_⟩
      · have hn' : n ∈ [2, 1] := hn
        rw [List.mem_cons, List.mem_singleton] at hn'
        obtain rfl | rfl := hn'
        · exact ⟨by show 2 < 4; decide, rfl⟩
        · exact ⟨by show 1 < 4; decide, rfl⟩
      · show 2 ≤ stackMax
        decide
    attrs_mark := Nat.le_refl _
    pool_mark := Nat.le_refl _
    elem := fun n hn _ => by
      have hn' : n < 4 := hn
      interval_cases n <;> exact Nat.le_refl 0
    text := fun n hn hk => by
      have hn' : n < 4 := hn
      interval_cases n <;> exact nomatch hk
    apart := fun n m hn _ i hi _ => by
      obtain ⟨-, h₁, h₂⟩ := hi
      have hn' : n < 4 := hn
      have hz : (firstNodes arena n).b = 0 := by interval_cases n <;> rfl
      have h₂' : i < (firstNodes arena n).a + (firstNodes arena n).b := h₂
      have h₁' : (firstNodes arena n).a ≤ i := h₁
      omega
    attr := fun x hx => nomatch hx
    value := fun x hx => nomatch hx }

end Dom
