import Mathlib.Algebra.GroupWithZero.Nat
import Mathlib.Algebra.BigOperators.Group.List.Basic
import Mathlib.Data.List.Induction
import Mathlib.Data.List.TakeWhile

/-!
# Paths as text

A path is a text with separators in it, and means the list of its components: what is between the
separators and not empty. Two components have a meaning of their own, `here` for no step and `up`
for a step back. The normal form of a list of components has neither, and is written back with one
separator in front of each.
-/

namespace LexPath

variable {α : Type} [DecidableEq α]

/-- The parts of a text between its separators. -/
def split (sep : α) : List α → List (List α)
  | [] => [[]]
  | c :: t =>
    if c = sep then [] :: split sep t
    else match split sep t with
      | [] => [[c]]
      | p :: ps => (c :: p) :: ps

/-- The components of a text. -/
def comps (sep : α) (t : List α) : List (List α) := (split sep t).filter (· ≠ [])

/-- What a component does to the ones in front of it. -/
def step (here up : List α) (cs : List (List α)) (c : List α) : List (List α) :=
  if c = here then cs else if c = up then cs.dropLast else cs ++ [c]

/-- The normal form of a list of components. -/
def normal (here up : List α) (cs : List (List α)) : List (List α) := cs.foldl (step here up) []

/-- A list of components as a text. -/
def text (sep : α) (cs : List (List α)) : List α :=
  if cs = [] then [sep] else cs.flatMap (sep :: ·)

variable {sep : α} {here up a b c t : List α} {cs ds : List (List α)}

/-! ## Components -/

theorem split_ne_nil (sep : α) (t : List α) : split sep t ≠ [] := by
  cases t with
  | nil => exact List.cons_ne_nil _ _
  | cons c t =>
    unfold split
    split
    · exact List.cons_ne_nil _ _
    · split <;> exact List.cons_ne_nil _ _

omit [DecidableEq α] in
/-- A text with a component in it is longer than the root. -/
theorem one_lt_length_text (hne : cs ≠ []) (h : ∀ c ∈ cs, c ≠ []) : 1 < (text sep cs).length := by
  obtain ⟨c, cs, rfl⟩ := List.exists_cons_of_ne_nil hne
  have hpos := List.length_pos_of_ne_nil (h c List.mem_cons_self)
  unfold text
  rw [if_neg (List.cons_ne_nil _ _), List.flatMap_cons, List.length_append, List.length_cons]
  omega

theorem split_append (sep : α) (a b : List α) :
    split sep (a ++ sep :: b) = split sep a ++ split sep b := by
  induction a with
  | nil =>
    show split sep (sep :: b) = [] :: split sep b
    rw [split, if_pos rfl]
  | cons c a ih =>
    rw [List.cons_append, split, split, ih]
    split
    · rfl
    · obtain ⟨p, ps, hp⟩ := List.exists_cons_of_ne_nil (split_ne_nil sep a)
      rw [hp]
      rfl

/-- **A separator cuts the components.** -/
theorem comps_append (sep : α) (a b : List α) :
    comps sep (a ++ sep :: b) = comps sep a ++ comps sep b := by
  unfold comps
  rw [split_append, List.filter_append]

theorem comps_cons_sep (sep : α) (t : List α) : comps sep (sep :: t) = comps sep t :=
  comps_append sep [] t

theorem split_of_not_mem (h : sep ∉ t) : split sep t = [t] := by
  induction t with
  | nil => rfl
  | cons c t ih =>
    rw [List.mem_cons, not_or] at h
    rw [split, if_neg (Ne.symm h.1), ih h.2]

theorem comps_of_not_mem (hne : t ≠ []) (h : sep ∉ t) : comps sep t = [t] := by
  unfold comps
  rw [split_of_not_mem h]
  exact List.filter_cons_of_pos (by simpa using hne)

theorem not_mem_of_mem_split (h : c ∈ split sep t) : sep ∉ c := by
  induction t generalizing c with
  | nil =>
    rw [List.mem_singleton.mp h]
    exact List.not_mem_nil
  | cons d t ih =>
    unfold split at h
    split at h
    · rcases List.mem_cons.mp h with rfl | h
      · exact List.not_mem_nil
      · exact ih h
    · next hd =>
      obtain ⟨p, ps, hp⟩ := List.exists_cons_of_ne_nil (split_ne_nil sep t)
      rw [hp] at h ih
      rcases List.mem_cons.mp h with rfl | h
      · rw [List.mem_cons, not_or]
        exact ⟨Ne.symm hd, ih List.mem_cons_self⟩
      · exact ih (List.mem_cons_of_mem _ h)

/-- **A component is not empty and has no separator.** -/
theorem mem_comps (h : c ∈ comps sep t) : c ≠ [] ∧ sep ∉ c := by
  obtain ⟨hmem, hne⟩ := List.mem_filter.mp h
  exact ⟨by simpa using hne, not_mem_of_mem_split hmem⟩

/-- **What is written back has these components.** -/
theorem comps_text (h : ∀ c ∈ cs, c ≠ [] ∧ sep ∉ c) : comps sep (text sep cs) = cs := by
  have hflat : ∀ {cs : List (List α)}, (∀ c ∈ cs, c ≠ [] ∧ sep ∉ c) →
      comps sep (cs.flatMap (sep :: ·)) = cs := by
    intro cs
    induction cs using List.reverseRecOn with
    | nil => exact fun _ => rfl
    | append_singleton cs c ih =>
      intro h
      obtain ⟨hne, hsep⟩ := h c (by simp)
      rw [List.flatMap_append, List.flatMap_singleton, comps_append,
        ih fun d hd => h d (by simp [hd]), comps_of_not_mem hne hsep]
  unfold text
  split
  · next hnil =>
    rw [hnil, comps_cons_sep]
    rfl
  · exact hflat h

omit [DecidableEq α] in
theorem text_concat (sep : α) (cs : List (List α)) (c : List α) :
    text sep (cs ++ [c]) = (if cs = [] then [sep] else text sep cs ++ [sep]) ++ c := by
  unfold text
  rw [if_neg (by simp), List.flatMap_append, List.flatMap_singleton]
  split
  · next hnil => rw [hnil]; rfl
  · rw [List.append_assoc]
    rfl

omit [DecidableEq α] in
/-- Only the root ends with a separator. -/
theorem text_getLast (h : ∀ c ∈ cs, c ≠ [] ∧ sep ∉ c) (hlast : (text sep cs).getLast? = some sep) :
    cs = [] := by
  rcases List.eq_nil_or_concat' cs with rfl | ⟨cs, c, rfl⟩
  · rfl
  · obtain ⟨hne, hsep⟩ := h c (List.mem_append_right _ List.mem_cons_self)
    rw [text_concat, List.getLast?_append_of_ne_nil _ hne] at hlast
    exact absurd (List.mem_of_getLast? hlast) hsep

/-- A text with these components is written back by nothing else. -/
theorem text_inj (hc : ∀ c ∈ cs, c ≠ [] ∧ sep ∉ c) (hd : ∀ c ∈ ds, c ≠ [] ∧ sep ∉ c)
    (h : text sep cs = text sep ds) : cs = ds := by
  rw [← comps_text hc, h, comps_text hd]

/-- Separators in front do not count. -/
theorem comps_dropWhile (sep : α) (t : List α) :
    comps sep (t.dropWhile (· = sep)) = comps sep t := by
  induction t with
  | nil => rfl
  | cons c t ih =>
    by_cases hc : c = sep
    · rw [List.dropWhile_cons_of_pos (by simpa using hc), ih, hc, comps_cons_sep]
    · rw [List.dropWhile_cons_of_neg (by simpa using hc)]

/-- **The first component is what is in front of the next separator.** -/
theorem comps_takeWhile {x : α} (hx : x ≠ sep) (t : List α) : comps sep (x :: t)
    = (x :: t).takeWhile (· ≠ sep) :: comps sep ((x :: t).dropWhile (· ≠ sep)) := by
  have hfirst : (x :: t).takeWhile (· ≠ sep) ≠ [] := by
    rw [List.takeWhile_cons_of_pos (by simpa using hx)]
    exact List.cons_ne_nil _ _
  have hmem : sep ∉ (x :: t).takeWhile (· ≠ sep) := fun h => by
    simpa using List.mem_takeWhile_imp h
  have hsplit := List.takeWhile_append_dropWhile (p := (· ≠ sep)) (l := x :: t)
  generalize (x :: t).takeWhile (· ≠ sep) = a at hfirst hmem hsplit ⊢
  cases hd : (x :: t).dropWhile (· ≠ sep) with
  | nil =>
    rw [hd, List.append_nil] at hsplit
    rw [← hsplit, comps_of_not_mem hfirst hmem]
    rfl
  | cons y d =>
    obtain rfl : y = sep := by
      have hhead := List.head?_dropWhile_not (· ≠ sep) (x :: t)
      rw [hd] at hhead
      simpa using hhead
    rw [hd] at hsplit
    rw [← hsplit, comps_append, comps_of_not_mem hfirst hmem, comps_cons_sep]
    rfl

/-! ## Normal forms -/

theorem normal_append (cs ds : List (List α)) :
    normal here up (cs ++ ds) = ds.foldl (step here up) (normal here up cs) :=
  List.foldl_append

theorem normal_concat (cs : List (List α)) (c : List α) :
    normal here up (cs ++ [c]) = step here up (normal here up cs) c := by
  rw [normal_append]
  rfl

/-- **A normal form has only components that were there**, and none with a meaning of its own. -/
theorem mem_normal : ∀ {cs : List (List α)}, c ∈ normal here up cs → c ∈ cs ∧ c ≠ here ∧ c ≠ up := by
  intro cs
  induction cs using List.reverseRecOn with
  | nil => exact fun h => nomatch h
  | append_singleton cs d ih =>
    intro h
    rw [normal_concat] at h
    unfold step at h
    split at h
    · exact ⟨List.mem_append_left _ (ih h).1, (ih h).2⟩
    split at h
    · have h := (List.dropLast_sublist _).subset h
      exact ⟨List.mem_append_left _ (ih h).1, (ih h).2⟩
    · next hhere hup =>
      rcases List.mem_append.mp h with h | h
      · exact ⟨List.mem_append_left _ (ih h).1, (ih h).2⟩
      · obtain rfl := List.mem_singleton.mp h
        exact ⟨List.mem_append_right _ h, hhere, hup⟩

/-- A list without such components is a normal form. -/
theorem normal_of_plain (h : ∀ c ∈ cs, c ≠ here ∧ c ≠ up) : normal here up cs = cs := by
  induction cs using List.reverseRecOn with
  | nil => rfl
  | append_singleton cs c ih =>
    obtain ⟨hhere, hup⟩ := h c (by simp)
    rw [normal_concat, ih fun d hd => h d (by simp [hd]), step, if_neg hhere, if_neg hup]

/-! ## Lengths -/

/-- The characters of a list of components, with a separator for each. -/
def width (cs : List (List α)) : Nat := (cs.map fun c => c.length + 1).sum

omit [DecidableEq α] in
@[simp] theorem width_append (cs ds : List (List α)) : width (cs ++ ds) = width cs + width ds := by
  unfold width
  rw [List.map_append, List.sum_append]

omit [DecidableEq α] in
@[simp] theorem width_singleton (c : List α) : width [c] = c.length + 1 := by
  simp [width]

omit [DecidableEq α] in
theorem length_text (sep : α) (cs : List (List α)) : (text sep cs).length = max 1 (width cs) := by
  unfold text
  split
  · next hnil => rw [hnil]; rfl
  · next hne =>
    have hpos : 1 ≤ width cs := by
      obtain ⟨c, cs, rfl⟩ := List.exists_cons_of_ne_nil hne
      show 1 ≤ width ([c] ++ cs)
      rw [width_append, width_singleton]
      omega
    rw [Nat.max_eq_right hpos]
    simp [width, List.length_flatMap]

omit [DecidableEq α] in
theorem width_le_of_sublist (h : cs.Sublist ds) : width cs ≤ width ds := by
  induction h with
  | slnil => exact Nat.le_refl _
  | @cons cs ds d _ ih =>
    show width cs ≤ width ([d] ++ ds)
    rw [width_append]
    omega
  | @cons_cons cs ds d _ ih =>
    show width ([d] ++ cs) ≤ width ([d] ++ ds)
    rw [width_append, width_append]
    omega

theorem width_split (sep : α) : ∀ t : List α, width (split sep t) = t.length + 1
  | [] => rfl
  | c :: t => by
    have ih := width_split sep t
    unfold split
    split
    · show width ([[]] ++ split sep t) = _
      rw [width_append, ih, width_singleton]
      simp only [List.length_nil, List.length_cons]
      omega
    · obtain ⟨p, ps, hp⟩ := List.exists_cons_of_ne_nil (split_ne_nil sep t)
      rw [hp] at ih ⊢
      change width ([p] ++ ps) = _ at ih
      show width ([c :: p] ++ ps) = _
      rw [width_append, width_singleton] at ih ⊢
      simp only [List.length_cons]
      omega

theorem width_normal_le (cs : List (List α)) : width (normal here up cs) ≤ width cs := by
  induction cs using List.reverseRecOn with
  | nil => exact Nat.le_refl _
  | append_singleton cs c ih =>
    rw [normal_concat, width_append, width_singleton]
    unfold step
    split
    · omega
    split
    · have hdrop := width_le_of_sublist (List.dropLast_sublist (normal here up cs))
      omega
    · rw [width_append, width_singleton]
      omega

/-- **The normal form of a text that begins with a separator is not longer.** -/
theorem length_text_normal_le (t : List α) :
    (text sep (normal here up (comps sep (sep :: t)))).length ≤ (sep :: t).length := by
  rw [length_text, comps_cons_sep, List.length_cons]
  have hnormal : width (normal here up (comps sep t)) ≤ width (comps sep t) := width_normal_le _
  have hfilter : width (comps sep t) ≤ width (split sep t) :=
    width_le_of_sublist List.filter_sublist
  rw [width_split] at hfilter
  omega

end LexPath
