import Mathlib.Data.List.Induction

/-!
# Paths in a labelled graph

The edges of a graph are labelled, and a path is the list of its labels: `Leads E
x p y` says that from `x` the path `p` leads to `y`. A file system is such a graph
of directories, and what an operation does to it is to take edges away and to add
edges.

The two splitting lemmas say what becomes of a path when edges are taken away: it
avoids them, or it runs through one of them for a first time (`Leads.split_first`)
and for a last time (`Leads.split_last`). Where no node has two edges into it and
the root has none, a node is reached by one path only (`Leads.unique`).
-/

variable {V L : Type}

/-- From `x`, the path `p` leads to `y`. -/
inductive Leads (E : V → L → V → Prop) : V → List L → V → Prop
  | nil (x : V) : Leads E x [] x
  | cons {x y z : V} {l : L} {p : List L} (he : E x l y) (hp : Leads E y p z) : Leads E x (l :: p) z

/-- The edges of `E` that are not among `X`. -/
def Without (E X : V → L → V → Prop) (x : V) (l : L) (y : V) : Prop := E x l y ∧ ¬ X x l y

/-- The edge from `x₀` labelled `l₀`. -/
def Named (x₀ : V) (l₀ : L) (x : V) (l : L) (_ : V) : Prop := x = x₀ ∧ l = l₀

/-- The edges of `E`, but from `x₀` the label `l₀` leads to `i`, or nowhere. -/
def Repoint (E : V → L → V → Prop) (x₀ : V) (l₀ : L) (i : Option V) (x : V) (l : L) (y : V) : Prop :=
  Without E (Named x₀ l₀) x l y ∨ (x = x₀ ∧ l = l₀ ∧ i = some y)

/-- No node has two edges into it. -/
def Single (E : V → L → V → Prop) : Prop :=
  ∀ x l y x' l', E x l y → E x' l' y → x = x' ∧ l = l'

/-- Something leads from `x` to `y`. -/
def Below (E : V → L → V → Prop) (x y : V) : Prop := ∃ p, Leads E x p y

namespace Leads

variable {E E' X : V → L → V → Prop} {x y z : V} {p q : List L} {l : L}

@[simp] theorem nil_iff : Leads E x [] y ↔ y = x := by
  constructor
  · rintro ⟨⟩
    rfl
  · rintro rfl
    exact .nil y

@[simp] theorem cons_iff : Leads E x (l :: p) z ↔ ∃ y, E x l y ∧ Leads E y p z := by
  constructor
  · rintro ⟨⟩
    exact ⟨_, ‹_›, ‹_›⟩
  · rintro ⟨y, he, hp⟩
    exact .cons he hp

theorem mono (h : ∀ x l y, E x l y → E' x l y) (hp : Leads E x p y) : Leads E' x p y := by
  induction hp with
  | nil x => exact .nil x
  | cons he _ ih => exact .cons (h _ _ _ he) ih

theorem of_without (hp : Leads (Without E X) x p y) : Leads E x p y := hp.mono fun _ _ _ h => h.1

@[simp] theorem append_iff : Leads E x (p ++ q) z ↔ ∃ y, Leads E x p y ∧ Leads E y q z := by
  induction p generalizing x with
  | nil => simp
  | cons l p ih =>
    simp only [List.cons_append, cons_iff, ih]
    constructor
    · rintro ⟨w, he, y, hp, hq⟩
      exact ⟨y, ⟨w, he, hp⟩, hq⟩
    · rintro ⟨y, ⟨w, he, hp⟩, hq⟩
      exact ⟨w, he, y, hp, hq⟩

theorem append (hp : Leads E x p y) (hq : Leads E y q z) : Leads E x (p ++ q) z :=
  append_iff.mpr ⟨y, hp, hq⟩

/-- A path and one more edge. -/
theorem snoc (hp : Leads E x p y) (he : E y l z) : Leads E x (p ++ [l]) z :=
  hp.append (.cons he (.nil z))

theorem snoc_iff : Leads E x (p ++ [l]) z ↔ ∃ y, Leads E x p y ∧ E y l z := by simp

/-- Where a label picks out one edge, a path leads to one place. -/
theorem det (hE : ∀ x l y z, E x l y → E x l z → y = z) (hp : Leads E x p y)
    (hq : Leads E x p z) : y = z := by
  induction hp with
  | nil x => exact (nil_iff.mp hq).symm
  | cons he _ ih =>
    obtain ⟨w, he', hp'⟩ := cons_iff.mp hq
    obtain rfl := hE _ _ _ _ he he'
    exact ih hp'

/-- **A path avoids the edges `X`, or runs through one for a first time.** -/
theorem split_first (hp : Leads E x p z) :
    Leads (Without E X) x p z ∨ ∃ q l r v w, p = q ++ l :: r ∧ Leads (Without E X) x q v ∧
      E v l w ∧ X v l w ∧ Leads E w r z := by
  induction hp with
  | nil x => exact Or.inl (.nil x)
  | cons he hp ih =>
    rename_i x y z l p
    by_cases hX : X x l y
    · exact Or.inr ⟨[], l, p, x, y, rfl, .nil x, he, hX, hp⟩
    · rcases ih with h | ⟨q, l', r, v, w, rfl, hq, he', hX', hr⟩
      · exact Or.inl (.cons ⟨he, hX⟩ h)
      · exact Or.inr ⟨l :: q, l', r, v, w, rfl, .cons ⟨he, hX⟩ hq, he', hX', hr⟩

/-- **A path avoids the edges `X`, or runs through one for a last time.** -/
theorem split_last (hp : Leads E x p z) :
    Leads (Without E X) x p z ∨ ∃ q l r v w, p = q ++ l :: r ∧ Leads E x q v ∧
      E v l w ∧ X v l w ∧ Leads (Without E X) w r z := by
  induction hp with
  | nil x => exact Or.inl (.nil x)
  | cons he hp ih =>
    rename_i x y z l p
    rcases ih with h | ⟨q, l', r, v, w, rfl, hq, he', hX', hr⟩
    · by_cases hX : X x l y
      · exact Or.inr ⟨[], l, p, x, y, rfl, .nil x, he, hX, h⟩
      · exact Or.inl (.cons ⟨he, hX⟩ h)
    · exact Or.inr ⟨l :: q, l', r, v, w, rfl, .cons he hq, he', hX', hr⟩

/-- A path to a node Without edges stops there. -/
theorem stop (hy : ∀ l z, ¬ E y l z) (hp : Leads E y p z) : p = [] ∧ z = y := by
  cases hp with
  | nil => exact ⟨rfl, rfl⟩
  | cons he _ => exact absurd he (hy _ _)

/-- **One path.** No node has two edges into it, and the root has none. -/
theorem unique (hE : Single E)
    (hroot : ∀ v l, ¬ E v l x) (hp : Leads E x p z) (hq : Leads E x q z) : p = q := by
  induction p using List.reverseRecOn generalizing q z with
  | nil =>
    obtain rfl := nil_iff.mp hp
    rcases List.eq_nil_or_concat q with rfl | ⟨q, l, rfl⟩
    · rfl
    · obtain ⟨v, -, he⟩ := snoc_iff.mp (List.concat_eq_append ▸ hq)
      exact absurd he (hroot v l)
  | append_singleton p l ih =>
    obtain ⟨v, hp', he⟩ := snoc_iff.mp hp
    rcases List.eq_nil_or_concat q with rfl | ⟨q, l', rfl⟩
    · obtain rfl := nil_iff.mp hq
      exact absurd he (hroot v l)
    · rw [List.concat_eq_append] at hq ⊢
      obtain ⟨v', hq', he'⟩ := snoc_iff.mp hq
      obtain ⟨rfl, rfl⟩ := hE _ _ _ _ _ he he'
      rw [ih hp' hq']

/-- A path that avoids an edge is there wherever that edge leads. -/
theorem repoint {x₀ : V} {l₀ : L} {i : Option V} (hp : Leads (Without E (Named x₀ l₀)) x p y) :
    Leads (Repoint E x₀ l₀ i) x p y :=
  hp.mono fun _ _ _ h => Or.inl h

theorem without_repoint {x₀ : V} {l₀ : L} {i : Option V}
    (hp : Leads (Without (Repoint E x₀ l₀ i) (Named x₀ l₀)) x p y) :
    Leads (Without E (Named x₀ l₀)) x p y :=
  hp.mono fun _ _ _ h => h.1.resolve_right fun hc => h.2 ⟨hc.1, hc.2.1⟩

end Leads

theorem Single.without {E X : V → L → V → Prop} (hE : Single E) : Single (Without E X) :=
  fun x l y x' l' h h' => hE x l y x' l' h.1 h'.1

/-- **A second way in may go.** Where an edge leads to a node that has another path from
the root, without it, the root leads to all it led to. -/
theorem Below.without {E : V → L → V → Prop} {root x₀ i j : V} {l₀ : L}
    (hdet : ∀ y, E x₀ l₀ y → y = i) (hi : Below (Without E (Named x₀ l₀)) root i)
    (h : Below E root j) : Below (Without E (Named x₀ l₀)) root j := by
  obtain ⟨p, hp⟩ := h
  rcases hp.split_last (X := Named x₀ l₀) with hp | ⟨q, l, r, v, w, rfl, -, he, ⟨rfl, rfl⟩, hr⟩
  · exact ⟨p, hp⟩
  · obtain rfl := hdet w he
    obtain ⟨q', hq'⟩ := hi
    exact ⟨q' ++ r, hq'.append hr⟩

/-- A node no edge leads to may be given one. -/
theorem Single.repoint {E : V → L → V → Prop} {x₀ : V} {l₀ : L} {i : Option V} (hE : Single E)
    (hi : ∀ w, i = some w → ∀ x l, Without E (Named x₀ l₀) x l w → False) :
    Single (Repoint E x₀ l₀ i) := by
  rintro x l y x' l' (h | ⟨rfl, rfl, h⟩) (h' | ⟨rfl, rfl, h'⟩)
  · exact hE.without _ _ _ _ _ h h'
  · exact (hi _ h' _ _ h).elim
  · exact (hi _ h _ _ h').elim
  · exact ⟨rfl, rfl⟩

theorem repoint_none (E : V → L → V → Prop) (x₀ : V) (l₀ : L) :
    Repoint E x₀ l₀ none = Without E (Named x₀ l₀) := by
  funext x l y
  simp [Repoint]

/-- A tree has no cycles. -/
theorem Leads.no_cycle {E : V → L → V → Prop} {root i : V} (hE : Single E)
    (hroot : ∀ v k, ¬ E v k root) (hx : Below E root i) {p : List L} (hp : Leads E i p i) :
    p = [] := by
  obtain ⟨q, hq⟩ := hx
  have := (hq.append hp).unique hE hroot hq
  simpa using this

/-! ## Leaves

The label `l` of `a` leads to a leaf, or nowhere, and now to another leaf, or
nowhere. -/

/-- What makes such a change keep the tree. -/
structure Placeable (E : V → L → V → Prop) (root a : V) (l : L) (i : Option V) : Prop where
  single : Single E
  det : ∀ x k y z, E x k y → E x k z → y = z
  free : ∀ v k, ¬ E v k root
  leaf : ∀ w, E a l w → ∀ k z, ¬ E w k z
  fresh : ∀ w, i = some w → w ≠ a ∧ ∀ k z, ¬ E w k z

namespace Placeable

variable {E : V → L → V → Prop} {root a : V} {l : L} {i : Option V}
  (h : Placeable E root a l i) {x y : V} {p p₀ : List L}

include h

/-- A path to `a` does not use the edge. -/
theorem to_source (hp : Leads E x p a) : Leads (Without E (Named a l)) x p a := by
  rcases hp.split_first (X := Named a l) with hp | ⟨q, k, r, v, w, rfl, -, he, ⟨rfl, rfl⟩, hr⟩
  · exact hp
  · obtain ⟨-, rfl⟩ := hr.stop (h.leaf w he)
    exact absurd he (h.leaf _ he _ _)

theorem leads_of_ne (hp₀ : Leads E root p₀ a) (hne : p ≠ p₀ ++ [l]) :
    Leads (Repoint E a l i) root p y ↔ Leads E root p y := by
  constructor
  · intro hp
    rcases hp.split_first (X := Named a l) with hp | ⟨q, k, r, v, w, rfl, hq, he, ⟨hva, hkl⟩, hr⟩
    · exact hp.without_repoint.of_without
    · have hw : i = some w := he.elim (fun hc => absurd ⟨hva, hkl⟩ hc.2) fun hc => hc.2.2
      obtain ⟨hwa, hstop⟩ := h.fresh w hw
      obtain ⟨rfl, rfl⟩ := hr.stop fun k z hc => hc.elim (fun hc => hstop k z hc.1)
        fun hc => hwa hc.1
      rw [hva] at hq
      exact absurd (by rw [hq.without_repoint.of_without.unique h.single h.free hp₀, hkl]) hne
  · intro hp
    rcases hp.split_first (X := Named a l) with hp | ⟨q, k, r, v, w, rfl, hq, he, ⟨rfl, rfl⟩, hr⟩
    · exact hp.repoint
    · obtain ⟨rfl, rfl⟩ := hr.stop (h.leaf w he)
      exact absurd (by rw [hq.of_without.unique h.single h.free hp₀]) hne

/-- **The paths after the change**: one of them ends elsewhere. -/
theorem leads_iff (hp₀ : Leads E root p₀ a) :
    Leads (Repoint E a l i) root p y
      ↔ (p = p₀ ++ [l] ∧ i = some y) ∨ (p ≠ p₀ ++ [l] ∧ Leads E root p y) := by
  by_cases hp : p = p₀ ++ [l]
  · subst hp
    rw [Leads.snoc_iff]
    constructor
    · rintro ⟨v, hv, he⟩
      rw [h.leads_of_ne hp₀ (by simp)] at hv
      obtain rfl := hv.det h.det hp₀
      exact Or.inl ⟨rfl, he.elim (fun hc => absurd ⟨rfl, rfl⟩ hc.2) fun hc => hc.2.2⟩
    · rintro (⟨-, hi⟩ | ⟨hne, -⟩)
      · exact ⟨a, (h.to_source hp₀).repoint, Or.inr ⟨rfl, rfl, hi⟩⟩
      · exact absurd rfl hne
  · rw [h.leads_of_ne hp₀ hp]
    simp [hp]

end Placeable

/-! ## Moving an edge

The edge `l` of `a` to `i` is moved: `i` becomes what the label `m` of `b` leads to.
What it led to before, if anything, has no edges, and `b` is not below `i`. -/

section Move

variable {E : V → L → V → Prop} {root a b i : V} {l m : L}

/-- The edges after the move. -/
def Move (E : V → L → V → Prop) (a : V) (l : L) (b : V) (m : L) (i : V) : V → L → V → Prop :=
  Repoint (Repoint E b m (some i)) a l none

/-- The two edges a move touches. -/
def Ends (a : V) (l : L) (b : V) (m : L) (x : V) (k : L) (y : V) : Prop :=
  Named a l x k y ∨ Named b m x k y

theorem move_iff (hne : ¬(b = a ∧ m = l)) {x y : V} {k : L} :
    Move E a l b m i x k y ↔ Without E (Ends a l b m) x k y ∨ (x = b ∧ k = m ∧ y = i) := by
  unfold Move
  rw [repoint_none]
  constructor
  · rintro ⟨⟨h, hn⟩ | ⟨rfl, rfl, h⟩, ha⟩
    · exact Or.inl ⟨h, not_or.mpr ⟨ha, hn⟩⟩
    · exact Or.inr ⟨rfl, rfl, (Option.some.inj h).symm⟩
  · rintro (⟨h, hn⟩ | ⟨rfl, rfl, rfl⟩)
    · exact ⟨Or.inl ⟨h, (not_or.mp hn).2⟩, (not_or.mp hn).1⟩
    · exact ⟨Or.inr ⟨rfl, rfl, rfl⟩, hne⟩

theorem Single.move (hE : Single E) (hne : ¬(b = a ∧ m = l)) (hi : E a l i) :
    Single (Move E a l b m i) := by
  have hmine : ∀ x k, ¬ Without E (Ends a l b m) x k i := fun x k h => by
    obtain ⟨rfl, rfl⟩ := hE _ _ _ _ _ h.1 hi
    exact h.2 (Or.inl ⟨rfl, rfl⟩)
  intro x k y x' k' h h'
  rcases (move_iff hne).mp h with ho | ⟨rfl, rfl, rfl⟩
  · rcases (move_iff hne).mp h' with ho' | ⟨rfl, rfl, rfl⟩
    · exact hE.without _ _ _ _ _ ho ho'
    · exact absurd ho (hmine _ _)
  · rcases (move_iff hne).mp h' with ho' | ⟨rfl, rfl, -⟩
    · exact absurd ho' (hmine _ _)
    · exact ⟨rfl, rfl⟩

/-- What makes a move keep the tree. -/
structure Movable (E : V → L → V → Prop) (root a : V) (l : L) (b : V) (m : L) (i : V) : Prop where
  single : Single E
  det : ∀ x k y z, E x k y → E x k z → y = z
  free : ∀ v k, ¬ E v k root
  edge : E a l i
  reach : Below E root i
  ne : ¬(b = a ∧ m = l)
  leaf : ∀ w, E b m w → ∀ k z, ¬ E w k z
  self : ¬ Below E i b

namespace Movable

variable (h : Movable E root a l b m i) {x y : V} {p q₀ p₀ : List L}

include h

/-- A path to `b` uses neither edge. -/
theorem to_target (hp : Leads E x p b) : Leads (Without E (Ends a l b m)) x p b := by
  rcases hp.split_first (X := Ends a l b m) with hp | ⟨q, k, r, v, w, rfl, -, he, hX, hr⟩
  · exact hp
  · rcases hX with ⟨rfl, rfl⟩ | ⟨rfl, rfl⟩
    · obtain rfl := h.det _ _ _ _ he h.edge
      exact absurd ⟨r, hr⟩ h.self
    · obtain ⟨-, rfl⟩ := hr.stop (h.leaf w he)
      exact absurd he (h.leaf _ he _ _)

/-- A path from `i` uses neither edge. -/
theorem from_moved (hp : Leads E i p y) : Leads (Without E (Ends a l b m)) i p y := by
  rcases hp.split_first (X := Ends a l b m) with hp | ⟨q, k, r, v, w, rfl, hq, he, hX, -⟩
  · exact hp
  · rcases hX with ⟨rfl, rfl⟩ | ⟨rfl, rfl⟩
    · obtain rfl := h.det _ _ _ _ he h.edge
      have := (hq.of_without.snoc he).no_cycle h.single h.free h.reach
      exact absurd this (by simp)
    · exact absurd ⟨q, hq.of_without⟩ h.self

theorem of_avoids (hp : Leads (Without E (Ends a l b m)) x p y) : Leads (Move E a l b m i) x p y :=
  hp.mono fun _ _ _ he => (move_iff h.ne).mpr (Or.inl he)

/-- **The moved node under its new name.** -/
theorem leads_new (hq : Leads E root q₀ b) (hp : Leads E i p y) :
    Leads (Move E a l b m i) root (q₀ ++ m :: p) y :=
  (h.of_avoids (h.to_target hq)).append
    (.cons ((move_iff h.ne).mpr (Or.inr ⟨rfl, rfl, rfl⟩)) (h.of_avoids (h.from_moved hp)))

/-- A path that avoids both edges has neither name in it. -/
theorem avoids_iff (hq : Leads E root q₀ b) (hp₀ : Leads E root p₀ a) :
    Leads (Without E (Ends a l b m)) root p y
      ↔ Leads E root p y ∧ ¬ q₀ ++ [m] <+: p ∧ ¬ p₀ ++ [l] <+: p := by
  constructor
  · intro hp
    have hname : ∀ {q v k}, Leads E root q v → q ++ [k] <+: p → ∃ w, ¬ Ends a l b m v k w := by
      rintro q v k hv ⟨r, rfl⟩
      rw [List.append_assoc, Leads.append_iff] at hp
      obtain ⟨v', hv', hr⟩ := hp
      obtain rfl := hv.det h.det hv'.of_without
      obtain ⟨w, he, -⟩ := Leads.cons_iff.mp hr
      exact ⟨w, he.2⟩
    refine ⟨hp.of_without, fun hc => ?_, fun hc => ?_⟩
    · obtain ⟨w, hw⟩ := hname hq hc
      exact hw (Or.inr ⟨rfl, rfl⟩)
    · obtain ⟨w, hw⟩ := hname hp₀ hc
      exact hw (Or.inl ⟨rfl, rfl⟩)
  · rintro ⟨hp, hnb, hna⟩
    rcases hp.split_first (X := Ends a l b m) with hp | ⟨q, k, r, v, w, rfl, hv, -, hX, -⟩
    · exact hp
    · rcases hX with ⟨rfl, rfl⟩ | ⟨rfl, rfl⟩
      · obtain rfl := hv.of_without.unique h.single h.free hp₀
        exact absurd ⟨r, by simp⟩ hna
      · obtain rfl := hv.of_without.unique h.single h.free hq
        exact absurd ⟨r, by simp⟩ hnb

/-- **The paths after a move**: those of the moved node are below its new name, and
the others are as they were. -/
theorem leads_iff (hq : Leads E root q₀ b) (hp₀ : Leads E root p₀ a) :
    Leads (Move E a l b m i) root p y ↔ (∃ r, p = q₀ ++ m :: r ∧ Leads E i r y) ∨
      (Leads E root p y ∧ ¬ q₀ ++ [m] <+: p ∧ ¬ p₀ ++ [l] <+: p) := by
  have hkeep : ∀ {x p y}, Leads (Without (Move E a l b m i) (Named b m)) x p y →
      Leads (Without E (Ends a l b m)) x p y := fun hp => hp.mono fun _ _ _ he =>
    ((move_iff h.ne).mp he.1).resolve_right fun hc => he.2 ⟨hc.1, hc.2.1⟩
  rw [← h.avoids_iff hq hp₀]
  constructor
  · intro hp
    rcases hp.split_last (X := Named b m) with hp | ⟨q, k, r, v, w, rfl, hv, he, ⟨hvb, hkm⟩, hr⟩
    · exact Or.inr (hkeep hp)
    · obtain rfl : v = b := hvb
      obtain rfl : k = m := hkm
      have hfree : ∀ x n, ¬ Move E a l v k i x n root := fun x n hc => by
        rcases (move_iff h.ne).mp hc with hc | ⟨-, -, rfl⟩
        · exact h.free _ _ hc.1
        · exact h.free _ _ h.edge
      obtain rfl : w = i := by
        rcases (move_iff h.ne).mp he with hc | ⟨-, -, rfl⟩
        · exact absurd (Or.inr ⟨rfl, rfl⟩) hc.2
        · rfl
      obtain rfl : q = q₀ := hv.unique (h.single.move h.ne h.edge) hfree (h.of_avoids (h.to_target hq))
      exact Or.inl ⟨r, rfl, (hkeep hr).of_without⟩
  · rintro (⟨r, rfl, hr⟩ | hp)
    · exact h.leads_new hq hr
    · exact h.of_avoids hp

/-- A path through the new name ends there, as long as it is the old target's. -/
theorem eq_of_prefix (hq : Leads E root q₀ b) (hp : Leads E root p y) (hpre : q₀ ++ [m] <+: p) :
    p = q₀ ++ [m] := by
  obtain ⟨r, rfl⟩ := hpre
  obtain ⟨w, hw, hr⟩ := Leads.append_iff.mp hp
  obtain ⟨v, hv, he⟩ := Leads.snoc_iff.mp hw
  obtain rfl := hv.det h.det hq
  obtain ⟨rfl, -⟩ := hr.stop (h.leaf w he)
  exact List.append_nil _

/-- Nothing below the moved node is the old target. -/
theorem not_target (hp : Leads E i p y) : ¬ E b m y := by
  intro hy
  rcases List.eq_nil_or_concat p with rfl | ⟨r, k, rfl⟩
  · obtain rfl := Leads.nil_iff.mp hp
    exact h.ne (h.single _ _ _ _ _ hy h.edge)
  · obtain ⟨v, hv, he⟩ := Leads.snoc_iff.mp (List.concat_eq_append ▸ hp)
    obtain ⟨rfl, -⟩ := h.single _ _ _ _ _ he hy
    exact h.self ⟨r, hv⟩

/-! In between, the moved node has both names. -/

theorem mid_other (hq : Leads E root q₀ b) (hp : Leads E root p y) (hne : p ≠ q₀ ++ [m]) :
    Leads (Repoint E b m (some i)) root p y := by
  rcases hp.split_first (X := Named b m) with hp | ⟨q, k, r, v, w, rfl, hv, he, ⟨rfl, rfl⟩, hr⟩
  · exact hp.repoint
  · obtain ⟨rfl, rfl⟩ := hr.stop (h.leaf w he)
    exact absurd (by rw [hv.of_without.unique h.single h.free hq]) hne

theorem mid_new (hq : Leads E root q₀ b) :
    Leads (Repoint E b m (some i)) root (q₀ ++ [m]) i :=
  ((h.to_target hq).mono fun _ _ _ he =>
    Or.inl ⟨he.1, fun hc => he.2 (Or.inr hc)⟩).snoc (Or.inr ⟨rfl, rfl, rfl⟩)

theorem mid_old (hq : Leads E root q₀ b) (hp₀ : Leads E root p₀ a) (hp : Leads E i p y) :
    Leads (Repoint E b m (some i)) root (p₀ ++ l :: p) y := by
  have hall := hp₀.append (.cons h.edge hp)
  refine h.mid_other hq hall fun hc => ?_
  rw [hc] at hall
  obtain ⟨v, hv, he⟩ := Leads.snoc_iff.mp hall
  obtain rfl := hv.det h.det hq
  exact h.not_target hp he

end Movable

end Move
