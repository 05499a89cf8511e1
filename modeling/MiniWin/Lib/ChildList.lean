import Mathlib.Data.List.Nodup
import Mathlib.Logic.Function.Basic

/-!
# Trees of first-child and next-sibling links

Nodes are numbers, and the node `0` is the root. A node has links to its parent, its first and its
last child and its next sibling; the link `0` leads nowhere. A tree grows by a new node, which
becomes the last child of a node that is there (`Links.append`), so that a parent always has a
smaller number than its children.
-/

/-- The links of all nodes. -/
structure Links where
  parent : Nat → Nat
  first : Nat → Nat
  last : Nat → Nat
  next : Nat → Nat

namespace Links

open Function

/-- **The nodes from `i` on**, along the links `next`. -/
inductive Chain (next : Nat → Nat) : Nat → List Nat → Prop where
  | nil : Chain next 0 []
  | cons {i : Nat} {l : List Nat} (hi : i ≠ 0) (h : Chain next (next i) l) : Chain next i (i :: l)

variable {next next' : Nat → Nat} {i j n p : Nat} {l l' : List Nat} {L : Links}

theorem Chain.eq_zero (h : Chain next i []) : i = 0 := by
  cases h
  rfl

theorem Chain.congr (h : Chain next i l) (hnext : ∀ k ∈ l, next' k = next k) : Chain next' i l := by
  induction h with
  | nil => exact .nil
  | @cons i l hi _ ih =>
    refine .cons hi ?_
    rw [hnext i List.mem_cons_self]
    exact ih fun k hk => hnext k (List.mem_cons_of_mem _ hk)

theorem getLastD_mem (h : l ≠ []) : l.getLastD 0 ∈ l := by
  cases l with
  | nil => exact absurd rfl h
  | cons k l =>
    rw [List.getLastD_cons]
    exact List.getLastD_mem_cons ..

/-- A new node behind the last one. -/
theorem Chain.snoc (h : Chain next i l) (hn : n ≠ 0) (hend : next' n = 0)
    (hlast : ∀ k ∈ l, next' k = if k = l.getLastD 0 then n else next k) (hnodup : l.Nodup) :
    Chain next' (if l = [] then n else i) (l ++ [n]) := by
  induction h with
  | nil =>
    rw [if_pos rfl]
    exact .cons hn (by rw [hend]; exact .nil)
  | @cons i l hi h ih =>
    rw [if_neg (List.cons_ne_nil i l)]
    obtain ⟨hil, hl⟩ := List.nodup_cons.mp hnodup
    refine .cons hi ?_
    have hhere := hlast i List.mem_cons_self
    cases l with
    | nil =>
      rw [List.getLastD_cons, List.getLastD_nil, if_pos rfl] at hhere
      rw [hhere]
      exact .cons hn (by rw [hend]; exact .nil)
    | cons k l =>
      have hne : i ≠ (i :: k :: l).getLastD 0 := by
        rw [List.getLastD_cons, List.getLastD_cons]
        exact fun he => hil (he ▸ List.getLastD_mem_cons ..)
      rw [if_neg hne] at hhere
      rw [hhere]
      have hrest := ih (fun m hm => by
        rw [hlast m (List.mem_cons_of_mem _ hm)]
        congr 1) hl
      rw [if_neg (List.cons_ne_nil k l)] at hrest
      exact hrest

/-- **The links of the nodes below `n` make a tree**: along `first` and `next` lie exactly the nodes
that have the node as their parent, each once, and `last` is the last of them. -/
structure Tree (L : Links) (n : Nat) : Prop where
  parent_lt : ∀ c, 0 < c → c < n → L.parent c < c
  kids : ∀ p < n, ∃ l, Chain L.next (L.first p) l ∧ l.Nodup ∧ L.last p = l.getLastD 0
    ∧ ∀ c, c ∈ l ↔ 0 < c ∧ c < n ∧ L.parent c = p

/-- A node becomes the last child of another. -/
def append (L : Links) (p c : Nat) : Links where
  parent := update L.parent c p
  next := if L.last p ≠ 0 then update (update L.next c 0) (L.last p) c else update L.next c 0
  first := if L.last p ≠ 0 then L.first else update L.first p c
  last := update L.last p c

/-- The links of a node that has nothing to do with it stay. -/
theorem append_other {c : Nat} (hc : i ≠ c) (hp : i ≠ p) (hl : i ≠ L.last p) :
    (L.append p c).parent i = L.parent i ∧ (L.append p c).first i = L.first i
      ∧ (L.append p c).last i = L.last i ∧ (L.append p c).next i = L.next i := by
  refine ⟨update_of_ne hc .., ?_, update_of_ne hp .., ?_⟩
  · show (if _ then _ else _ : Nat → Nat) i = _
    split
    · rfl
    · exact update_of_ne hp ..
  · show (if _ then _ else _ : Nat → Nat) i = _
    split
    · rw [update_of_ne hl, update_of_ne hc]
    · exact update_of_ne hc ..

theorem Tree.last_lt (h : Tree L n) (hp : p < n) : L.last p < n := by
  obtain ⟨l, -, -, hlast, hmem⟩ := h.kids p hp
  by_cases hl : l = []
  · rw [hlast, hl, List.getLastD_nil]
    omega
  · rw [hlast]
    exact ((hmem _).mp (getLastD_mem hl)).2.1

theorem Tree.last_parent (h : Tree L n) (hp : p < n) (hne : L.last p ≠ 0) :
    L.parent (L.last p) = p := by
  obtain ⟨l, -, -, hlast, hmem⟩ := h.kids p hp
  rw [hlast] at hne ⊢
  have hl : l ≠ [] := fun hl => hne (by rw [hl, List.getLastD_nil])
  exact ((hmem _).mp (getLastD_mem hl)).2.2

/-- Only the links of the nodes below `n` matter. -/
theorem Tree.congr {L' : Links} (h : Tree L n) (hpar : ∀ i < n, L'.parent i = L.parent i)
    (hfirst : ∀ i < n, L'.first i = L.first i) (hlast : ∀ i < n, L'.last i = L.last i)
    (hnext : ∀ i < n, L'.next i = L.next i) : Tree L' n where
  parent_lt c hc hcn := by
    rw [hpar c hcn]
    exact h.parent_lt c hc hcn
  kids p hp := by
    obtain ⟨l, hchain, hnodup, hend, hmem⟩ := h.kids p hp
    refine ⟨l, ?_, hnodup, by rw [hlast p hp, hend], fun c => ?_⟩
    · rw [hfirst p hp]
      exact hchain.congr fun k hk => hnext k ((hmem k).mp hk).2.1
    · rw [hmem]
      exact ⟨fun ⟨h0, hcn, hcp⟩ => ⟨h0, hcn, by rw [hpar c hcn, hcp]⟩,
        fun ⟨h0, hcn, hcp⟩ => ⟨h0, hcn, by rw [← hpar c hcn, hcp]⟩⟩

/-- **A new node keeps the tree.** -/
theorem Tree.append (h : Tree L n) (hp : p < n) (hfirst : L.first n = 0) (hlast : L.last n = 0) :
    Tree (L.append p n) (n + 1) where
  parent_lt c hc hcn := by
    show update L.parent n p c < c
    by_cases hc' : c = n
    · rw [hc', update_self]
      exact hp
    · rw [update_of_ne hc']
      exact h.parent_lt c hc (by omega)
  kids q hq := by
    have hn : n ≠ 0 := by omega
    by_cases hqn : q = n
    · -- the new node has no children
      subst hqn
      refine ⟨[], ?_, List.nodup_nil, ?_, fun c => ⟨fun hc => (nomatch hc), fun ⟨hc, hcn, hpar⟩ => ?_⟩⟩
      · have hsame : (L.append p q).first q = 0 := by
          unfold Links.append
          dsimp only
          split
          · exact hfirst
          · rw [update_of_ne (by omega)]
            exact hfirst
        rw [hsame]
        exact .nil
      · show update L.last p q q = _
        rw [update_of_ne (by omega)]
        exact hlast
      · have hpar' : update L.parent q p c = q := hpar
        by_cases hcq : c = q
        · rw [hcq, update_self] at hpar'
          omega
        · rw [update_of_ne hcq] at hpar'
          have := h.parent_lt c hc (by omega)
          omega
    obtain ⟨l, hchain, hnodup, hlastl, hmem⟩ := h.kids q (by omega)
    have hlt : ∀ k ∈ l, k ≠ 0 ∧ k < n ∧ L.parent k = q := fun k hk => by
      obtain ⟨hk0, hkn, hkq⟩ := (hmem k).mp hk
      exact ⟨by omega, hkn, hkq⟩
    by_cases hqp : q = p
    · -- the list of the parent has the new node at its end
      subst hqp
      refine ⟨l ++ [n], ?_, ?_, ?_, fun c => ?_⟩
      · have hempty : l = [] ↔ L.last q = 0 := by
          rw [hlastl]
          constructor
          · intro hl
            rw [hl]
            rfl
          · intro hl
            by_contra hne
            exact (hlt _ (getLastD_mem hne)).1 hl
        have hsnoc : Chain (L.append q n).next (if l = [] then n else L.first q) (l ++ [n]) :=
          hchain.snoc hn ?_ ?_ hnodup
        · have hf : (L.append q n).first q = if l = [] then n else L.first q := by
            unfold Links.append
            dsimp only
            by_cases hl : l = []
            · rw [if_neg (by rw [not_not]; exact hempty.mp hl), if_pos hl, update_self]
            · rw [if_pos fun h0 => hl (hempty.mpr h0), if_neg hl]
          rw [hf]
          exact hsnoc
        · unfold Links.append
          dsimp only
          split
          · next hne =>
            have hmem' : L.last q ∈ l := by
              rw [hlastl]
              exact getLastD_mem fun hl => hne (hempty.mp hl)
            rw [update_of_ne (by have := (hlt _ hmem').2.1; omega), update_self]
          · exact update_self ..
        · intro k hk
          have hkn : k ≠ n := by have := (hlt k hk).2.1; omega
          have hne : L.last q ≠ 0 := fun h0 => by
            rw [hempty.mpr h0] at hk
            exact nomatch hk
          unfold Links.append
          dsimp only
          rw [if_pos hne, hlastl]
          by_cases hkl : k = l.getLastD 0
          · rw [if_pos hkl, hkl, update_self]
          · rw [if_neg hkl, update_of_ne hkl, update_of_ne hkn]
      · refine List.nodup_append.mpr ⟨hnodup, List.nodup_singleton n, ?_⟩
        intro a ha b hb hab
        rw [List.mem_singleton] at hb
        have := (hlt a ha).2.1
        omega
      · show update L.last q n q = _
        rw [update_self, List.getLastD_concat]
      · rw [List.mem_append, List.mem_singleton, hmem]
        show _ ↔ _ ∧ _ ∧ update L.parent n q c = q
        by_cases hcn : c = n
        · subst hcn
          rw [update_self]
          exact iff_of_true (.inr rfl) ⟨by omega, by omega, rfl⟩
        · rw [update_of_ne hcn]
          constructor
          · rintro (⟨h0, h1, h2⟩ | h0)
            · exact ⟨h0, by omega, h2⟩
            · exact absurd h0 hcn
          · rintro ⟨h0, h1, h2⟩
            exact .inl ⟨h0, by omega, h2⟩
    · -- the lists of the others stay
      refine ⟨l, ?_, hnodup, ?_, fun c => ?_⟩
      · have hf : (L.append p n).first q = L.first q := by
          unfold Links.append
          split
          · rfl
          · exact update_of_ne hqp ..
        rw [hf]
        refine hchain.congr fun k hk => ?_
        obtain ⟨hk0, hkn, hkq⟩ := hlt k hk
        unfold Links.append
        dsimp only
        split
        · next hne =>
          obtain ⟨lp, -, -, hlastp, hmemp⟩ := h.kids p hp
          have hlp : lp ≠ [] := fun hl => hne (by rw [hlastp, hl]; rfl)
          have hpar := ((hmemp _).mp (getLastD_mem hlp)).2.2
          rw [← hlastp] at hpar
          rw [update_of_ne (fun he => hqp (by rw [← hkq, he, hpar])),
            update_of_ne (by omega)]
        · exact update_of_ne (by omega) ..
      · show update L.last p n q = _
        rw [update_of_ne hqp]
        exact hlastl
      · rw [hmem]
        show _ ↔ _ ∧ _ ∧ update L.parent n p c = q
        by_cases hcn : c = n
        · subst hcn
          rw [update_self]
          exact iff_of_false (fun h => by omega) (fun h => hqp h.2.2.symm)
        · rw [update_of_ne hcn]
          exact ⟨fun ⟨h0, h1, h2⟩ => ⟨h0, by omega, h2⟩, fun ⟨h0, h1, h2⟩ => ⟨h0, by omega, h2⟩⟩

end Links
