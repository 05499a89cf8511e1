import MiniWin.Web.TreeLaw

/-!
# HTML: raw text stays in its element

The text of a raw element is put below whatever is the current element. That is the element itself
if the stack of open elements has had room for it, and the counter of foreign elements is right as
long as each tag takes with it what the counter says. In a run of such tokens the text of each raw
element is in the tree as the only child of the element and in no other text, an element that has no
content has no children, and the counter tells whether an `<svg>` or `<math>` is open.
-/

namespace Dom

open Function Links

variable {arena : Nat → Node} {d d' : Doc} {am pm n i j k el s t fuel : Nat} {L l h : List UInt8}
  {c : UInt8} {tag : Tag} {below : List Nat}

/-! ## What the operations leave of the nodes -/

/-- The nodes there were say the same of themselves. -/
def SameNodes (d d' : Doc) : Prop :=
  d.node_count ≤ d'.node_count ∧ ∀ n < d.node_count, (d'.nodes n).kind = (d.nodes n).kind ∧
    (d'.nodes n).tag = (d.nodes n).tag ∧ (d'.nodes n).parent = (d.nodes n).parent

theorem SameNodes.trans {d₁ d₂ : Doc} (h : SameNodes d d₁) (h' : SameNodes d₁ d₂) :
    SameNodes d d₂ := by
  refine ⟨h.1.trans h'.1, fun n hn => ?_⟩
  obtain ⟨hk, ht, hp⟩ := h.2 n hn
  obtain ⟨hk', ht', hp'⟩ := h'.2 n (hn.trans_le h.1)
  exact ⟨hk'.trans hk, ht'.trans ht, hp'.trans hp⟩

theorem addNode_same (h : Ok arena am pm d) (hroom : d.node_count < nodeMax) (x : Node) :
    SameNodes d (addNode d.cur x d) := by
  have hrest := addNode_rest (p := d.cur) (x := x) hroom
  refine ⟨?_, fun n hn => ?_⟩
  · rw [hrest]
    exact Nat.le_succ _
  · obtain ⟨-, -, hk, ht, hp⟩ := addNode_old (x := x) h hroom h.cur_lt hn
    exact ⟨hk, ht, hp⟩

theorem setNode_same (n : Nat) (a b : Nat) :
    SameNodes d (d.setNode n { d.nodes n with a := a, b := b }) := by
  refine ⟨Nat.le_refl _, fun m _ => ?_⟩
  show (update d.nodes n { d.nodes n with a := a, b := b } m).kind = _ ∧
    (update d.nodes n { d.nodes n with a := a, b := b } m).tag = _ ∧
    (update d.nodes n { d.nodes n with a := a, b := b } m).parent = _
  by_cases hm : m = n
  · rw [hm, update_self]
    exact ⟨rfl, rfl, rfl⟩
  · rw [update_of_ne hm]
    exact ⟨rfl, rfl, rfl⟩

theorem putAt_same (t : Nat) (c : UInt8) (d : Doc) : SameNodes d (d.putAt t c) :=
  setNode_same t (d.nodes t).a ((d.nodes t).b + 1)

/-- **What inserting an element does.** -/
structure Inserted (tag : Tag) (push : Bool) (d : Doc) (r : Nat × Doc) : Prop where
  same : SameNodes d r.2
  range : ∀ n < d.node_count, (r.2.nodes n).a = (d.nodes n).a ∧ (r.2.nodes n).b = (d.nodes n).b
  new : ∀ n, d.node_count ≤ n → n < r.2.node_count →
    n = d.node_count ∧ (r.2.nodes n).parent = d.cur ∧ (r.2.nodes n).kind = .elem ∧ r.2.tagOf n = tag
      ∧ (r.2.nodes n).last = 0
  id : (nodeMax ≤ d.node_count ∧ r.1 = 0 ∧ r.2.node_count = d.node_count ∧ r.2.truncated = true) ∨
    (d.node_count < nodeMax ∧ r.1 = d.node_count ∧ r.2.node_count = d.node_count + 1)
  stk : r.2.stk = if push ∧ d.stk.length < stackMax ∧ d.node_count < nodeMax then
    d.node_count :: d.stk else d.stk
  rest : r.2 = { d with
    nodes := r.2.nodes, node_count := r.2.node_count, stk := r.2.stk, truncated := r.2.truncated }

theorem insertElem_inserted (h : Ok arena am pm d) (tag : Tag) (a b : Nat) (push : Bool) :
    Inserted tag push d (insertElem tag a b push d) := by
  have hcount := h.roots.count
  unfold insertElem
  obtain hfull | hroom := Nat.lt_or_ge d.node_count nodeMax |>.symm
  · rw [newNode_full hfull]
    exact {
      same := ⟨Nat.le_refl _, fun _ _ => ⟨rfl, rfl, rfl⟩⟩
      range := fun _ _ => ⟨rfl, rfl⟩
      new := fun n hn hlt => absurd hlt (Nat.not_lt.mpr hn)
      id := .inl ⟨hfull, rfl, rfl, rfl⟩
      stk := by
        rw [if_neg fun hc => absurd hc.2.2 (Nat.not_lt.mpr hfull)]
        rfl
      rest := rfl }
  · obtain ⟨x, hx⟩ : ∃ x : Node, { kind := .elem, tag := tag, a := a, b := b } = x := ⟨_, rfl⟩
    have hn : (newNode x d).1 = d.node_count := by rw [newNode_room hroom]
    have hadd : append d.cur d.node_count (newNode x d).2 = addNode d.cur x d := rfl
    have hrest := addNode_rest (p := d.cur) (x := x) hroom
    have hnew := addNode_new (x := x) h hroom h.cur_lt
    have hlast : ((addNode d.cur x d).nodes d.node_count).last = 0 := by
      have hne : d.node_count ≠ d.cur := Nat.ne_of_gt h.cur_lt
      rw [addNode_nodes h hroom h.cur_lt]
      show update (d.links₁ x).last d.cur d.node_count d.node_count = 0
      rw [update_of_ne hne]
      show (update d.nodes d.node_count x d.node_count).last = 0
      rw [update_self, ← hx]
    have hsame := addNode_same h hroom x
    have hold := fun n (hn : n < d.node_count) => addNode_old (x := x) h hroom h.cur_lt hn
    rw [hx]
    dsimp only
    rw [hn, if_neg (by omega), hadd]
    obtain ⟨e, he⟩ : ∃ e, addNode d.cur x d = e := ⟨_, rfl⟩
    rw [he] at hrest hnew hlast hsame hold ⊢
    have hstk : e.stk = d.stk := by rw [hrest]
    have hcnt : e.node_count = d.node_count + 1 := by rw [hrest]
    have hnodes : ∀ n, d.node_count ≤ n → n < e.node_count →
        n = d.node_count ∧ (e.nodes n).parent = d.cur ∧ (e.nodes n).kind = .elem ∧ e.tagOf n = tag
          ∧ (e.nodes n).last = 0 := fun n hn hlt => by
      obtain rfl : n = d.node_count := by omega
      exact ⟨rfl, hnew.2.2.2.2, by rw [hnew.2.2.1, ← hx], hnew.2.2.2.1.trans (by rw [← hx]), hlast⟩
    rw [hstk]
    split
    · next hpu => exact {
        same := hsame
        range := fun n hn => ⟨(hold n hn).1, (hold n hn).2.1⟩
        new := hnodes
        id := .inr ⟨hroom, rfl, hcnt⟩
        stk := by
          rw [if_pos ⟨hpu.1, hpu.2, hroom⟩]
        rest := by rw [hrest] }
    · next hpu => exact {
        same := hsame
        range := fun n hn => ⟨(hold n hn).1, (hold n hn).2.1⟩
        new := hnodes
        id := .inr ⟨hroom, rfl, hcnt⟩
        stk := by
          rw [if_neg fun hc => hpu ⟨hc.1, hc.2.1⟩]
          exact hstk
        rest := by rw [hrest] }

/-- A law of single bytes is one of texts. -/
theorem full_putText {P : Nat → Nat → Doc → Prop}
    (hbyte : ∀ (d : Doc) (c : UInt8), Valid arena d → Full P d → Full P (textByte c d))
    (hv : Valid arena d) (hp : Full P d) (l : List UInt8) : Full P (putText l d) := by
  induction l generalizing d with
  | nil => exact hp
  | cons c l ih => exact ih (textByte_valid hv c) (hbyte d c hv hp)

/-! ## Elements without content -/

/-- No element without content is open or has a child. -/
def NoVoid (_ _ : Nat) (d : Doc) : Prop :=
  (∀ n ∈ d.stk, (d.tagOf n).isVoid = false) ∧
    ∀ c, 0 < c → c < d.node_count → (d.tagOf (d.nodes c).parent).isVoid = false

/-- Old nodes, and new ones below an open element. -/
theorem NoVoid.grow (h : NoVoid am pm d) (htree : d.links.Tree d.node_count)
    (hopen : ∀ n ∈ d.stk, n < d.node_count) (hsame : SameNodes d d')
    (hnew : ∀ c, d.node_count ≤ c → c < d'.node_count → (d'.nodes c).parent ∈ d.stk)
    (hstk : ∀ n ∈ d'.stk, n ∈ d.stk ∨ (d'.tagOf n).isVoid = false) {am' pm' : Nat} :
    NoVoid am' pm' d' := by
  have hold : ∀ n < d.node_count, d'.tagOf n = d.tagOf n := fun n hn => (hsame.2 n hn).2.1
  have hmem : ∀ n ∈ d.stk, (d'.tagOf n).isVoid = false := fun n hn => by
    rw [hold n (hopen n hn)]
    exact h.1 n hn
  refine ⟨fun n hn => (hstk n hn).elim (hmem n) id, fun c hc hlt => ?_⟩
  by_cases hcount : c < d.node_count
  · have hp := htree.parent_lt c hc hcount
    rw [(hsame.2 c hcount).2.2, hold _ (show (d.nodes c).parent < _ from hp.trans hcount)]
    exact h.2 c hc hcount
  · exact hmem _ (hnew c (Nat.le_of_not_lt hcount) hlt)

theorem noVoid_byte (d : Doc) (c : UInt8) (hv : Valid arena d) (hp : Full NoVoid d) :
    Full NoVoid (textByte c d) := by
  have hopen : ∀ n ∈ d.stk, n < d.node_count := fun n hn => (hv.whole.opened.elem n hn).1
  by_cases hroom : NoRoom d
  · rw [textByte_full hroom]
    exact hp
  obtain ⟨t, -, -, -, -, -, heq⟩ | ⟨-, hcount, heq⟩ := textByte_cases hv hroom c
  · rw [heq]
    exact hp.grow hv.whole.tree hopen (putAt_same t c d)
      (fun c hc hlt => absurd hlt (Nat.not_lt.mpr hc)) fun n hn => .inl hn
  · have hrest := addNode_rest (p := d.cur) (x := d.newText) hcount
    have hnew := addNode_new (x := d.newText) hv.whole hcount (Ok.cur_lt hv.whole)
    have hput := putAt_same d.node_count c (addNode d.cur d.newText d)
    have hc : (addNode d.cur d.newText d).node_count = d.node_count + 1 := by rw [hrest]
    rw [heq]
    refine hp.grow hv.whole.tree hopen ((addNode_same hv.whole hcount _).trans hput)
      (fun m hm hlt => ?_) fun n hn => .inl ?_
    · have hlt' : m < (addNode d.cur d.newText d).node_count := hlt
      obtain rfl : m = d.node_count := by omega
      rw [(hput.2 _ hlt').2.2, hnew.2.2.2.2]
      exact hv.whole.opened.cur_mem
    · have hn' : n ∈ (addNode d.cur d.newText d).stk := hn
      rwa [hrest] at hn'

/-- **Elements without content stay empty.** -/
theorem noVoid_law : Law arena (fun _ => True) (fun _ _ => True) NoVoid where
  whole _ hp := hp
  flags _ _ _ hp := hp
  unhand hp := hp
  close _ hp hs := ⟨fun n hn => hp.1 n (hs.subset hn), hp.2⟩
  body h hp := by
    refine ⟨fun n hn => ?_, hp.2⟩
    have hn' : n ∈ [_, _] := hn
    rw [h.roots.body.1, h.roots.html.1, List.mem_cons, List.mem_singleton] at hn'
    obtain rfl | rfl := hn'
    · show ((_ : Node).tag).isVoid = false
      rw [h.roots.body.2.2.1]
      rfl
    · show ((_ : Node).tag).isVoid = false
      rw [h.roots.html.2.2]
      rfl
  insert {am pm d tag push} a b h hp hpush := by
    have hins := insertElem_inserted h tag a b push
    refine hp.grow h.tree (fun n hn => (h.opened.elem n hn).1) hins.same (fun n hn hlt => ?_)
      fun n hn => ?_
    · rw [(hins.new n hn hlt).2.1]
      exact h.opened.cur_mem
    · rw [hins.stk] at hn
      split at hn
      · next hpu =>
        obtain rfl | hn := List.mem_cons.mp hn
        · obtain ⟨hfull, -⟩ | ⟨-, -, hc⟩ := hins.id
          · exact absurd hpu.2.2 (Nat.not_lt.mpr hfull)
          · refine .inr ?_
            rw [(hins.new d.node_count (Nat.le_refl _) (by omega)).2.2.2.1]
            exact hpush hpu.1
        · exact .inl hn
      · exact .inl hn
  root {am pm root d} h hp _ :=
    hp.grow h.tree (fun n hn => (h.opened.elem n hn).1) (setNode_same root _ _)
      (fun c hc hlt => absurd hlt (Nat.not_lt.mpr hc)) fun n hn => .inl hn
  drop _ hp := hp
  attr {am pm d name value} _ hp _ := by
    unfold keepAttr
    dsimp only
    split
    · obtain ⟨l, hl⟩ := (putValues_filled 0 value d).eq
      rw [hl]
      exact hp
    · exact hp
  text hv hp _ := full_putText noVoid_byte hv hp _
  chars _ _ _ _ := trivial

/-! ## A text in its element -/

/-- **The text `L` at `s` of the pool is the one of `el`**: it is what the element has as its only
child, in the node `t`, unless it is empty, and no other text has a part in it. -/
structure Holds (el s t : Nat) (L : List UInt8) (d : Doc) : Prop where
  el_lt : el < d.node_count
  root : 3 < el
  pool : (d.pool.drop s).take L.length = L
  child : ∀ c, 0 < c → c < d.node_count → ((d.nodes c).parent = el ↔ L ≠ [] ∧ c = t)
  text : L ≠ [] → 0 < t ∧ t < d.node_count ∧ (d.nodes t).kind = .text ∧ (d.nodes t).a = s ∧
    (d.nodes t).b = L.length
  apart : ∀ c < d.node_count, (d.nodes c).kind = .text → c ≠ t → ∀ i, s ≤ i → i < s + L.length →
    ¬ ((d.nodes c).a ≤ i ∧ i < (d.nodes c).a + (d.nodes c).b)

/-- The nodes grow beside it. -/
theorem Holds.grow (h : Holds el s t L d) (hsame : SameNodes d d')
    (hpool : (d'.pool.drop s).take L.length = L)
    (hkeep : L ≠ [] → (d'.nodes t).a = (d.nodes t).a ∧ (d'.nodes t).b = (d.nodes t).b)
    (hnew : ∀ c, d.node_count ≤ c → c < d'.node_count → (d'.nodes c).parent ≠ el)
    (htext : ∀ c < d'.node_count, (d'.nodes c).kind = .text → c ≠ t → ∀ i, s ≤ i →
      i < s + L.length → (d'.nodes c).a ≤ i ∧ i < (d'.nodes c).a + (d'.nodes c).b →
        c < d.node_count ∧ (d.nodes c).a ≤ i ∧ i < (d.nodes c).a + (d.nodes c).b) :
    Holds el s t L d' where
  el_lt := h.el_lt.trans_le hsame.1
  root := h.root
  pool := hpool
  child c hc hlt := by
    by_cases hcount : c < d.node_count
    · rw [(hsame.2 c hcount).2.2]
      exact h.child c hc hcount
    · refine iff_of_false (hnew c (Nat.le_of_not_lt hcount) hlt) fun ⟨hL, hct⟩ => hcount ?_
      rw [hct]
      exact (h.text hL).2.1
  text hL := by
    obtain ⟨ht₀, ht, hk, ha, hb⟩ := h.text hL
    obtain ⟨ha', hb'⟩ := hkeep hL
    exact ⟨ht₀, ht.trans_le hsame.1, ((hsame.2 t ht).1).trans hk, ha'.trans ha, hb'.trans hb⟩
  apart c hc hk hct i hi hi' hin := by
    obtain ⟨hlt, hin'⟩ := htext c hc hk hct i hi hi' hin
    exact h.apart c hlt ((hsame.2 c hlt).1.symm.trans hk) hct i hi hi' hin'

/-- The element is closed, and the text is finished. -/
structure Shut (el s t : Nat) (L : List UInt8) (am pm : Nat) (d : Doc) : Prop where
  holds : Holds el s t L d
  closed : el ∉ d.stk
  hand : d.txt_node ≠ 0 → d.txt_node < d.node_count ∧ (d.nodes d.txt_node).parent ≠ el
  mark : s + L.length ≤ pm

theorem Holds.of_eq (h : Holds el s t L d) (hn : d'.nodes = d.nodes)
    (hc : d'.node_count = d.node_count) (hp : (d'.pool.drop s).take L.length = L) :
    Holds el s t L d' where
  el_lt := by rw [hc]; exact h.el_lt
  root := h.root
  pool := hp
  child := by rw [hn, hc]; exact h.child
  text := by rw [hn, hc]; exact h.text
  apart := by rw [hn, hc]; exact h.apart

/-- A part of the pool in front of its end stays when more is put. -/
theorem drop_take_append {p : List UInt8} (l : List UInt8) {s m : Nat} (h : s + m ≤ p.length) :
    ((p ++ l).drop s).take m = (p.drop s).take m := by
  rw [List.drop_append_of_le_length (by omega), List.take_append_of_le_length (by
    rw [List.length_drop]
    omega)]

theorem shut_byte (d : Doc) (c : UInt8) (hv : Valid arena d) (hp : Full (Shut el s t L) d) :
    Full (Shut el s t L) (textByte c d) := by
  have hmark : s + L.length ≤ d.pool.length := hp.mark
  have hmore := drop_take_append [c] hmark
  have hcur : d.cur ≠ el := fun heq => hp.closed (heq ▸ hv.whole.opened.cur_mem)
  by_cases hroom : NoRoom d
  · rw [textByte_full hroom]
    exact ⟨hp.holds.of_eq rfl rfl hp.holds.pool, hp.closed, hp.hand, hp.mark⟩
  obtain ⟨u, hu₀, hu, huk, hend, hat, heq⟩ | ⟨-, hcount, heq⟩ := textByte_cases hv hroom c
  · have hpar : (d.nodes u).parent ≠ el := by
      obtain rfl | ⟨-, hpar⟩ := hat
      · exact (hp.hand hu₀).2
      · rw [hpar]
        exact hcur
    have hut : L ≠ [] → u ≠ t := fun hL hut =>
      hpar ((hp.holds.child u (Nat.pos_of_ne_zero hu₀) hu).mpr ⟨hL, hut⟩)
    have hself : (d.putAt u c).nodes u = { d.nodes u with b := (d.nodes u).b + 1 } := update_self ..
    have hother : ∀ n, n ≠ u → (d.putAt u c).nodes n = d.nodes n := fun n hn => update_of_ne hn ..
    rw [heq]
    refine ⟨hp.holds.grow (putAt_same u c d) (hmore.trans hp.holds.pool) (fun hL => ?_)
      (fun n hn hlt => absurd hlt (Nat.not_lt.mpr hn)) (fun n hn _ _ i _ hi' hin => ⟨hn, ?_⟩),
      hp.closed, fun _ => ?_, ?_⟩
    · rw [hother t (hut hL).symm]
      exact ⟨rfl, rfl⟩
    · by_cases hnu : n = u
      · rw [hnu, hself] at hin
        rw [hnu]
        exact ⟨hin.1, by omega⟩
      · rwa [hother n hnu] at hin
    · refine ⟨hu, ?_⟩
      show ((d.putAt u c).nodes u).parent ≠ el
      rw [hself]
      exact hpar
    · show s + L.length ≤ (d.pool ++ [c]).length
      rw [List.length_append]
      omega
  · have hrest := addNode_rest (p := d.cur) (x := d.newText) hcount
    have hnew := addNode_new (x := d.newText) hv.whole hcount (Ok.cur_lt hv.whole)
    have hold := fun n (hn : n < d.node_count) =>
      addNode_old (x := d.newText) hv.whole hcount (Ok.cur_lt hv.whole) hn
    have hadd := addNode_same hv.whole hcount d.newText
    obtain ⟨e, he⟩ : ∃ e, addNode d.cur d.newText d = e := ⟨_, rfl⟩
    rw [he] at heq hrest hnew hold hadd
    have hcnt : e.node_count = d.node_count + 1 := by rw [hrest]
    have hpool : e.pool = d.pool := by rw [hrest]
    have hput := putAt_same d.node_count c e
    have hself : (e.putAt d.node_count c).nodes d.node_count
      = { e.nodes d.node_count with b := (e.nodes d.node_count).b + 1 } := update_self ..
    have hother : ∀ n, n ≠ d.node_count → (e.putAt d.node_count c).nodes n = e.nodes n :=
      fun n hn => update_of_ne hn ..
    have hstk : (e.putAt d.node_count c).stk = d.stk := by
      show e.stk = d.stk
      rw [hrest]
    have hlater : (e.putAt d.node_count c).pool = d.pool ++ [c] := by
      show e.pool ++ [c] = _
      rw [hpool]
    have hparent : ((e.putAt d.node_count c).nodes d.node_count).parent = d.cur := by
      rw [hself]
      exact hnew.2.2.2.2
    rw [heq]
    refine ⟨hp.holds.grow (hadd.trans hput) (hlater ▸ hmore.trans hp.holds.pool) (fun hL => ?_)
      (fun n hn hlt => ?_) (fun n hn _ _ i _ hi' hin => ?_), hstk ▸ hp.closed, fun _ => ?_, ?_⟩
    · have ht := (hp.holds.text hL).2.1
      rw [hother t (by omega)]
      exact ⟨(hold t ht).1, (hold t ht).2.1⟩
    · have hlt' : n < e.node_count := hlt
      obtain rfl : n = d.node_count := by omega
      rw [hparent]
      exact hcur
    · have hn' : n < e.node_count := hn
      by_cases hlt : n < d.node_count
      · rw [hother n (by omega), (hold n hlt).1, (hold n hlt).2.1] at hin
        exact ⟨hlt, hin⟩
      · obtain rfl : n = d.node_count := by omega
        rw [hself] at hin
        have ha : (e.nodes d.node_count).a = d.pool.length := hnew.1
        have hle : (e.nodes d.node_count).a ≤ i := hin.1
        omega
    · refine ⟨show d.node_count < e.node_count by omega, ?_⟩
      show ((e.putAt d.node_count c).nodes d.node_count).parent ≠ el
      rw [hparent]
      exact hcur
    · show s + L.length ≤ (e.putAt d.node_count c).pool.length
      rw [hlater, List.length_append]
      omega

/-- **A finished text stays as it is.** -/
theorem shut_law : Law arena (fun _ => True) (fun _ _ => True) (Shut el s t L) where
  whole h hp := ⟨hp.holds, hp.closed, hp.hand, hp.mark.trans h.pool_mark⟩
  flags _ _ _ hp := ⟨hp.holds.of_eq rfl rfl hp.holds.pool, hp.closed, hp.hand, hp.mark⟩
  unhand hp := ⟨hp.holds.of_eq rfl rfl hp.holds.pool, hp.closed, absurd rfl, hp.mark⟩
  close _ hp hs :=
    ⟨hp.holds.of_eq rfl rfl hp.holds.pool, fun hin => hp.closed (hs.subset hin), hp.hand, hp.mark⟩
  body h hp := by
    refine ⟨hp.holds.of_eq rfl rfl hp.holds.pool, fun hin => ?_, hp.hand, hp.mark⟩
    have hin' : el ∈ [_, _] := hin
    have hroot := hp.holds.root
    rw [h.roots.body.1, h.roots.html.1, List.mem_cons, List.mem_singleton] at hin'
    omega
  insert {am pm d tag push} a b h hp _ := by
    have hins := insertElem_inserted h tag a b push
    have hrest := hins.rest
    obtain ⟨r, hr⟩ : ∃ r, insertElem tag a b push d = r := ⟨_, rfl⟩
    rw [hr] at hins hrest ⊢
    have hpool : r.2.pool = d.pool := by rw [hrest]
    have htxt : r.2.txt_node = d.txt_node := by rw [hrest]
    have hcur : d.cur ≠ el := fun heq => hp.closed (heq ▸ h.opened.cur_mem)
    refine ⟨hp.holds.grow hins.same (hpool ▸ hp.holds.pool) (fun hL => ?_) (fun n hn hlt => ?_)
      (fun n hn hk _ i _ _ hin => ?_), fun hin => ?_, fun hne => ?_, hp.mark⟩
    · exact hins.range t (hp.holds.text hL).2.1
    · rw [(hins.new n hn hlt).2.1]
      exact hcur
    · by_cases hlt : n < d.node_count
      · rw [(hins.range n hlt).1, (hins.range n hlt).2] at hin
        exact ⟨hlt, hin⟩
      · rw [(hins.new n (Nat.le_of_not_lt hlt) hn).2.2.1] at hk
        exact nomatch hk
    · rw [hins.stk] at hin
      split at hin
      · obtain heq | hin := List.mem_cons.mp hin
        · exact absurd hp.holds.el_lt (Nat.not_lt.mpr heq.ge)
        · exact hp.closed hin
      · exact hp.closed hin
    · rw [htxt] at hne ⊢
      obtain ⟨hlt, hpar⟩ := hp.hand hne
      refine ⟨hlt.trans_le hins.same.1, ?_⟩
      rw [(hins.same.2 _ hlt).2.2]
      exact hpar
  root {am pm root d} h hp hr := by
    have hkind : (d.nodes root).kind = .elem := by
      obtain rfl | rfl := hr
      · exact h.roots.html.2.1
      · exact h.roots.body.2.1
    have hsame := setNode_same (d := d) root am (d.attrs.length - am)
    obtain ⟨e, he⟩ : ∃ e, d.setNode root { d.nodes root with a := am, b := d.attrs.length - am } = e :=
      ⟨_, rfl⟩
    have hother : ∀ n, n ≠ root → e.nodes n = d.nodes n := fun n hn => by
      rw [← he]
      exact update_of_ne hn ..
    have hpool : e.pool = d.pool := by rw [← he]; rfl
    have hstk : e.stk = d.stk := by rw [← he]; rfl
    have htxt : e.txt_node = d.txt_node := by rw [← he]; rfl
    have hcnt : e.node_count = d.node_count := by rw [← he]; rfl
    rw [he] at hsame ⊢
    have htext : ∀ n, n < d.node_count → (e.nodes n).kind = .text → n ≠ root := fun n hn hk hnr => by
      rw [(hsame.2 n hn).1, hnr, hkind] at hk
      exact nomatch hk
    refine ⟨hp.holds.grow hsame (hpool ▸ hp.holds.pool) (fun hL => ?_)
      (fun n hn hlt => absurd (hcnt ▸ hlt) (Nat.not_lt.mpr hn)) (fun n hn hk _ i _ _ hin => ?_),
      hstk ▸ hp.closed, fun hne => ?_, hp.mark.trans h.pool_mark⟩
    · obtain ⟨-, ht, hk, -⟩ := hp.holds.text hL
      rw [hother t (htext t ht ((hsame.2 t ht).1.trans hk))]
      exact ⟨rfl, rfl⟩
    · rw [hcnt] at hn
      rw [hother n (htext n hn hk)] at hin
      exact ⟨hn, hin⟩
    · rw [htxt] at hne ⊢
      obtain ⟨hlt, hpar⟩ := hp.hand hne
      refine ⟨hcnt ▸ hlt, ?_⟩
      rw [(hsame.2 _ hlt).2.2]
      exact hpar
  drop {am pm d} h hp := by
    have hmark := hp.mark
    have hpool := h.pool_mark
    refine ⟨hp.holds.of_eq rfl rfl ?_, hp.closed, hp.hand, ?_⟩
    · show ((d.pool.take pm).drop s).take L.length = L
      rw [List.drop_take, List.take_take, Nat.min_eq_left (by omega)]
      exact hp.holds.pool
    · show s + L.length ≤ (d.pool.take pm).length
      rw [List.length_take]
      omega
  attr {am pm d name value} h hp _ := by
    unfold keepAttr
    dsimp only
    split
    · obtain ⟨l, hl⟩ := (putValues_filled 0 value d).eq
      rw [hl]
      refine ⟨hp.holds.of_eq rfl rfl ?_, hp.closed, hp.hand, hp.mark⟩
      exact (drop_take_append l (hp.mark.trans h.pool_mark)).trans hp.holds.pool
    · exact hp
  text hv hp _ := full_putText shut_byte hv hp _
  chars _ _ _ _ := trivial

/-! ## A text is put -/

/-- What text leaves as it is. -/
structure Quiet (d d' : Doc) : Prop where
  same : SameNodes d d'
  stk : d'.stk = d.stk
  foreign : d'.foreign = d.foreign
  in_head : d'.in_head = d.in_head

theorem Quiet.refl (d : Doc) : Quiet d d :=
  ⟨⟨Nat.le_refl _, fun _ _ => ⟨rfl, rfl, rfl⟩⟩, rfl, rfl, rfl⟩

theorem Quiet.trans {d₁ d₂ : Doc} (h : Quiet d d₁) (h' : Quiet d₁ d₂) : Quiet d d₂ :=
  ⟨h.same.trans h'.same, h'.stk.trans h.stk, h'.foreign.trans h.foreign,
    h'.in_head.trans h.in_head⟩

theorem textByte_quiet (hv : Valid arena d) (c : UInt8) : Quiet d (textByte c d) := by
  by_cases hroom : NoRoom d
  · rw [textByte_full hroom]
    exact ⟨(Quiet.refl d).same, rfl, rfl, rfl⟩
  obtain ⟨u, -, -, -, -, -, heq⟩ | ⟨-, hcount, heq⟩ := textByte_cases hv hroom c
  · rw [heq]
    exact ⟨putAt_same u c d, rfl, rfl, rfl⟩
  · have hrest := addNode_rest (p := d.cur) (x := d.newText) hcount
    have hadd := addNode_same hv.whole hcount d.newText
    rw [heq]
    refine ⟨hadd.trans (putAt_same _ c _), ?_, ?_, ?_⟩
    · show (addNode d.cur d.newText d).stk = d.stk
      rw [hrest]
    · show (addNode d.cur d.newText d).foreign = d.foreign
      rw [hrest]
    · show (addNode d.cur d.newText d).in_head = d.in_head
      rw [hrest]

theorem putText_quiet (hv : Valid arena d) (l : List UInt8) : Quiet d (putText l d) := by
  induction l generalizing d with
  | nil => exact .refl d
  | cons c l ih => exact (textByte_quiet hv c).trans (ih (textByte_valid hv c))

/-- **The text of the current element is being put**: so far it is `L`, at the end of the pool. -/
structure Filling (el s t : Nat) (L : List UInt8) (below : List Nat) (d : Doc) : Prop where
  holds : Holds el s t L d
  stk : d.stk = el :: below
  fin : s + L.length = d.pool.length
  next : L = [] → d.txt_node = 0 ∧ t = d.node_count
  hand : L ≠ [] → d.txt_node = t

theorem Filling.cur (h : Filling el s t L below d) : d.cur = el := by
  unfold Doc.cur
  rw [h.stk]
  rfl

/-- The pool with the next byte. -/
theorem Filling.pool (h : Filling el s t L below d) (c : UInt8) :
    ((d.pool ++ [c]).drop s).take (L ++ [c]).length = L ++ [c] := by
  have hfin := h.fin
  have hL : d.pool.drop s = L := by
    have hlen : (d.pool.drop s).length = L.length := by
      rw [List.length_drop]
      omega
    rw [← h.holds.pool, List.take_of_length_le hlen.le]
  rw [List.drop_append_of_le_length (by omega), hL, List.take_length]

/-- **One byte more**, if there is room. -/
theorem Filling.byte (h : Filling el s t L below d) (hv : Valid arena d) (c : UInt8) :
    NoRoom d ∨ Filling el s t (L ++ [c]) below (textByte c d) := by
  by_cases hroom : NoRoom d
  · exact .inl hroom
  have hfin := h.fin
  have hcur := h.cur
  have hlen : (L ++ [c]).length = L.length + 1 := by rw [List.length_append, List.length_singleton]
  have hne : L ++ [c] ≠ [] := List.append_ne_nil_of_right_ne_nil L (List.cons_ne_nil c [])
  have hlater : ∀ p : List UInt8, p = d.pool ++ [c] → s + (L ++ [c]).length = p.length :=
    fun p hp => by
      rw [hp, hlen, List.length_append, List.length_singleton]
      omega
  refine .inr ?_
  obtain ⟨u, hu₀, hu, huk, hend, hat, heq⟩ | ⟨htxt, hcount, heq⟩ := textByte_cases hv hroom c
  · -- the text has begun, since the element has no other child
    have hL : L ≠ [] := fun hL => by
      obtain ⟨htxt, -⟩ := h.next hL
      obtain hut | ⟨-, hpar⟩ := hat
      · exact hu₀ (hut.trans htxt)
      · exact ((h.holds.child u (Nat.pos_of_ne_zero hu₀) hu).mp (hpar.trans hcur)).1 hL
    have htxt := h.hand hL
    obtain ⟨ht₀, ht, htk, hta, htb⟩ := h.holds.text hL
    obtain rfl : u = t := by
      obtain hut | ⟨hz, -⟩ := hat
      · exact hut.trans htxt
      · omega
    have hself : (d.putAt u c).nodes u = { d.nodes u with b := (d.nodes u).b + 1 } := update_self ..
    have hother : ∀ n, n ≠ u → (d.putAt u c).nodes n = d.nodes n := fun n hn => update_of_ne hn ..
    have hsame := putAt_same u c d
    rw [heq]
    refine ⟨⟨h.holds.el_lt, h.holds.root, h.pool c, fun n hn hlt => ?_, fun _ => ?_,
      fun n hlt hk hnu i hi hi' hin => ?_⟩, h.stk, hlater _ rfl, fun hc => absurd hc hne,
      fun _ => rfl⟩
    · rw [(hsame.2 n hlt).2.2, h.holds.child n hn hlt]
      exact and_congr_left fun _ => iff_of_true hL hne
    · rw [hself]
      exact ⟨ht₀, ht, htk, hta, by rw [hlen, ← htb]⟩
    · rw [hother n hnu] at hk hin
      rw [hlen] at hi'
      have hle := hv.whole.text n hlt hk
      exact h.holds.apart n hlt hk hnu i hi (by omega) hin
  · have hL : L = [] := by
      by_contra hL
      have := (h.holds.text hL).1
      rw [← h.hand hL] at this
      omega
    obtain ⟨-, rfl⟩ := h.next hL
    have hrest := addNode_rest (p := d.cur) (x := d.newText) hcount
    have hnew := addNode_new (x := d.newText) hv.whole hcount (Ok.cur_lt hv.whole)
    have hold := fun n (hn : n < d.node_count) =>
      addNode_old (x := d.newText) hv.whole hcount (Ok.cur_lt hv.whole) hn
    obtain ⟨e, he⟩ : ∃ e, addNode d.cur d.newText d = e := ⟨_, rfl⟩
    rw [he] at heq hrest hnew hold
    have hcnt : e.node_count = d.node_count + 1 := by rw [hrest]
    have hpool : e.pool = d.pool := by rw [hrest]
    have hstk : e.stk = d.stk := by rw [hrest]
    have hself : (e.putAt d.node_count c).nodes d.node_count
      = { e.nodes d.node_count with b := (e.nodes d.node_count).b + 1 } := update_self ..
    have hother : ∀ n, n ≠ d.node_count → (e.putAt d.node_count c).nodes n = e.nodes n :=
      fun n hn => update_of_ne hn ..
    have hlt' : ∀ n, n < (e.putAt d.node_count c).node_count → n ≠ d.node_count → n < d.node_count :=
      fun n hn hne => by
        have hn' : n < e.node_count := hn
        omega
    have hpos : 0 < d.node_count := Nat.zero_lt_of_lt h.holds.el_lt
    have hlater' : (e.putAt d.node_count c).pool = d.pool ++ [c] := by
      show e.pool ++ [c] = _
      rw [hpool]
    rw [heq]
    refine ⟨⟨show el < e.node_count from hcnt ▸ Nat.lt_succ_of_lt h.holds.el_lt, h.holds.root,
      hlater' ▸ h.pool c, fun n hn hlt => ?_, fun _ => ?_, fun n hlt hk hnu i hi hi' hin => ?_⟩,
      hstk.trans h.stk, hlater _ hlater', fun hc => absurd hc hne, fun _ => rfl⟩
    · by_cases hnc : n = d.node_count
      · rw [hnc, hself]
        exact iff_of_true (hnew.2.2.2.2.trans hcur) ⟨hne, rfl⟩
      · rw [hother n hnc, (hold n (hlt' n hlt hnc)).2.2.2.2, h.holds.child n hn (hlt' n hlt hnc)]
        exact iff_of_false (fun hc => hc.1 hL) fun hc => hnc hc.2
    · rw [hself]
      refine ⟨hpos, show d.node_count < e.node_count by omega, hnew.2.2.1, ?_, ?_⟩
      · show (e.nodes d.node_count).a = s
        rw [hnew.1]
        show d.pool.length = s
        rw [← hfin, hL]
        rfl
      · show (e.nodes d.node_count).b + 1 = _
        rw [hnew.2.1, hL]
        rfl
    · rw [hother n hnu, (hold n (hlt' n hlt hnu)).2.2.1] at hk
      rw [hother n hnu, (hold n (hlt' n hlt hnu)).1, (hold n (hlt' n hlt hnu)).2.1] at hin
      have hle := hv.whole.text n (hlt' n hlt hnu) hk
      rw [hL] at hfin
      have hs : s = d.pool.length := hfin
      omega

/-- **All bytes there is room for.** -/
theorem Filling.put (h : Filling el s t L below d) (hv : Valid arena d) (l : List UInt8) :
    ∃ m ≤ l.length, Filling el s t (L ++ l.take m) below (putText l d) ∧
      (m = l.length ∨ (putText l d).truncated = true) := by
  induction l generalizing L d with
  | nil => exact ⟨0, Nat.le_refl 0, by rw [List.take_nil, List.append_nil]; exact h, .inl rfl⟩
  | cons c l ih =>
    rw [putText_cons]
    obtain hfull | hbyte := h.byte hv c
    · refine ⟨0, Nat.zero_le _, ?_, ?_⟩
      · rw [textByte_full hfull, putText_full (show NoRoom { d with truncated := true } from hfull) rfl,
          List.take_zero, List.append_nil]
        exact ⟨h.holds.of_eq rfl rfl h.holds.pool, h.stk, h.fin, h.next, h.hand⟩
      · rw [textByte_full hfull, putText_full (show NoRoom { d with truncated := true } from hfull) rfl]
        exact .inr rfl
    · obtain ⟨m, hm, hfill, hend⟩ := ih hbyte (textByte_valid hv c)
      refine ⟨m + 1, Nat.succ_le_succ hm, ?_, ?_⟩
      · rw [List.take_succ_cons, List.append_cons]
        exact hfill
      · rw [List.length_cons]
        exact hend.imp_left (congrArg (· + 1))

end Dom
