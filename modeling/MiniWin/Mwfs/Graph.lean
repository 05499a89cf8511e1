import Mathlib.Data.List.Nodup
import MiniWin.Lib.Paths
import MiniWin.Mwfs.DirWrite

/-!
# The graph of a volume

What keeps a graph in order (`GraphOk`), and that the four changes operations make
to it do: an object appears that nothing names yet, an entry is changed, an object
disappears that nothing names any more.
-/

namespace Mwfs

/-- The directory `d` has the entry `e`. -/
def Entry (G : Graph) (d : Nat) (e : Dent) : Prop :=
  ∃ slots, G d = some (.dir slots) ∧ e ∈ ents slots

/-- There is a directory `d`. -/
def IsDir (G : Graph) (d : Nat) : Prop := ∃ slots, G d = some (.dir slots)

/-- The names of a directory, as they are compared. -/
def foldedNames (slots : List (Option Dent)) : List Name := (ents slots).map fun e => fold e.name

/-- **A graph in order.** There is a root, every object has an inode of the table,
every entry names an object of its type other than the root, under a name that
`mwfs_name_ok` allows and that no other entry of its directory has. -/
structure GraphOk (g : Geo) (G : Graph) : Prop where
  root : IsDir G rootIno
  bound : ∀ j o, G j = some o → j ≠ 0 ∧ j < g.inode_count
  entry : ∀ d e, Entry G d e → e.ino ≠ rootIno ∧ ∃ o, G e.ino = some o ∧ o.type = e.type
  name : ∀ d e, Entry G d e → nameOk e.name = true
  names : ∀ d slots, G d = some (.dir slots) → (foldedNames slots).Nodup

/-- The entry of `d` with the folded name `n` names `j`. -/
def Edge (G : Graph) (d : Nat) (n : Name) (j : Nat) : Prop :=
  ∃ e, Entry G d e ∧ fold e.name = n ∧ e.ino = j

/-- What an object is, but for the entries of a directory. -/
inductive Kind where
  | file (bytes : List UInt8) (aux : UInt32)
  | dir

def Obj.kind : Obj → Kind
  | .file bytes aux => .file bytes aux
  | .dir _ => .dir

/-- The objects of a graph without its edges. -/
def Graph.kind (G : Graph) (j : Nat) : Option Kind := (G j).map Obj.kind

section Graph

variable {g : Geo} {G G' : Graph} {d i : Nat}

theorem Entry.isDir {e : Dent} (h : Entry G d e) : IsDir G d := by
  obtain ⟨slots, hd, -⟩ := h
  exact ⟨slots, hd⟩

theorem GraphOk.inj (h : GraphOk g G) {e e' : Dent} (he : Entry G d e) (he' : Entry G d e')
    (hn : fold e.name = fold e'.name) : e = e' := by
  obtain ⟨slots, hd, hm⟩ := he
  obtain ⟨slots', hd', hm'⟩ := he'
  obtain rfl : slots = slots' := by
    rw [hd] at hd'
    injection hd' with hd'
    injection hd'
  exact List.inj_on_of_nodup_map (h.names d slots hd) hm hm' hn

/-! ## An object nothing names yet -/

/-- The graph with one more object. -/
def Graph.add (G : Graph) (i : Nat) (o : Obj) : Graph := Function.update G i (some o)

/-- The objects an operation makes: they have no entries. -/
def Obj.Bare : Obj → Prop
  | .file _ _ => True
  | .dir slots => ents slots = []

theorem Graph.sub_add (hi : G i = none) (o : Obj) : G.Sub (G.add i o) := by
  intro j o' hj
  have hne : j ≠ i := fun hji => by rw [hji, hi] at hj; exact absurd hj (by simp)
  exact (Function.update_of_ne hne _ _).trans hj

theorem Graph.add_self (G : Graph) (i : Nat) (o : Obj) : G.add i o i = some o :=
  Function.update_self ..

theorem entry_add (hi : G i = none) {o : Obj} (ho : o.Bare) {d : Nat} {e : Dent} :
    Entry (G.add i o) d e ↔ Entry G d e := by
  unfold Graph.add
  constructor
  · rintro ⟨slots, hd, hm⟩
    by_cases hdi : d = i
    · subst hdi
      rw [Function.update_self, Option.some.injEq] at hd
      subst hd
      have hnil : ents slots = [] := ho
      rw [hnil] at hm
      exact absurd hm (by simp)
    · rw [Function.update_of_ne hdi] at hd
      exact ⟨slots, hd, hm⟩
  · rintro ⟨slots, hd, hm⟩
    have hne : d ≠ i := fun hdi => by rw [hdi, hi] at hd; exact absurd hd (by simp)
    exact ⟨slots, (Function.update_of_ne hne _ _).trans hd, hm⟩

theorem isDir_add (hi : G i = none) {o : Obj} {d : Nat} (hd : IsDir G d) : IsDir (G.add i o) d := by
  obtain ⟨slots, hd⟩ := hd
  exact ⟨slots, G.sub_add hi o d _ hd⟩

theorem GraphOk.add (h : GraphOk g G) (hi : G i = none) {o : Obj} (ho : o.Bare) (hi0 : i ≠ 0)
    (hlt : i < g.inode_count) : GraphOk g (G.add i o) where
  root := isDir_add hi h.root
  bound j o' hj := by
    by_cases hji : j = i
    · exact hji ▸ ⟨hi0, hlt⟩
    · exact h.bound j o' ((Function.update_of_ne hji _ _).symm.trans hj)
  entry d e he := by
    obtain ⟨hr, o', ho', hty⟩ := h.entry d e ((entry_add hi ho).mp he)
    exact ⟨hr, o', G.sub_add hi o _ _ ho', hty⟩
  name d e he := h.name d e ((entry_add hi ho).mp he)
  names d slots hd := by
    by_cases hdi : d = i
    · subst hdi
      rw [Graph.add_self, Option.some.injEq] at hd
      subst hd
      have hnil : ents slots = [] := ho
      unfold foldedNames
      rw [hnil]
      exact List.nodup_nil
    · exact h.names d slots ((Function.update_of_ne hdi _ _).symm.trans hd)

/-! ## An entry changed -/

section Swap

variable {old new : Option Dent}

theorem Swap.of_ne (h : Swap G G' d old new) {j : Nat} (hj : j ≠ d) : G' j = G j := by
  obtain ⟨slots, slots', rest, -, rfl, -⟩ := h
  exact Function.update_of_ne hj _ _

theorem Swap.isDir (h : Swap G G' d old new) : IsDir G d ∧ IsDir G' d := by
  obtain ⟨slots, slots', rest, hd, rfl, -⟩ := h
  exact ⟨⟨slots, hd⟩, ⟨slots', Function.update_self ..⟩⟩

theorem Swap.isDir_iff (h : Swap G G' d old new) {j : Nat} : IsDir G' j ↔ IsDir G j := by
  by_cases hj : j = d
  · subst hj
    exact ⟨fun _ => h.isDir.1, fun _ => h.isDir.2⟩
  · unfold IsDir
    rw [h.of_ne hj]

theorem Swap.dom (h : Swap G G' d old new) (j : Nat) : G j = none ↔ G' j = none := by
  obtain ⟨slots, slots', rest, hd, rfl, -⟩ := h
  exact update_dom hd j

/-- Objects keep their type. -/
theorem Swap.type (h : Swap G G' d old new) {j : Nat} {o : Obj} (hj : G j = some o) :
    ∃ o', G' j = some o' ∧ o'.type = o.type := by
  by_cases hjd : j = d
  · subst hjd
    obtain ⟨slots, hd⟩ := h.isDir.1
    obtain ⟨slots', hd'⟩ := h.isDir.2
    obtain rfl := Option.some.inj (hd.symm.trans hj)
    exact ⟨_, hd', rfl⟩
  · exact ⟨o, by rw [h.of_ne hjd, hj], rfl⟩

/-- The new entry is there. -/
theorem Swap.entry_new {e : Dent} (h : Swap G G' d old (some e)) : Entry G' d e := by
  obtain ⟨slots, slots', rest, -, rfl, -, hp'⟩ := h
  exact ⟨slots', Function.update_self .., hp'.mem_iff.mpr (List.mem_append_left _ (by simp))⟩

/-- **The entries after a change.** -/
theorem Swap.entry_iff (h : Swap G G' d old new) (hok : GraphOk g G) {j : Nat} {e : Dent} :
    Entry G' j e ↔ (j = d ∧ new = some e) ∨ (Entry G j e ∧ ¬(j = d ∧ old = some e)) := by
  by_cases hj : j = d
  · subst hj
    obtain ⟨slots, slots', rest, hd, rfl, hp, hp'⟩ := h
    have hnd : (ents slots).Nodup := List.Nodup.of_map _ (hok.names j slots hd)
    have hnd' := hp.nodup_iff.mp hnd
    have h1 : Entry (Function.update G j (some (.dir slots'))) j e ↔ e ∈ ents slots' := by
      constructor
      · rintro ⟨sl, hsl, hm⟩
        rw [Function.update_self] at hsl
        injection hsl with hsl
        injection hsl with hsl
        rwa [hsl]
      · exact fun hm => ⟨slots', Function.update_self .., hm⟩
    have h2 : Entry G j e ↔ e ∈ ents slots := by
      constructor
      · rintro ⟨sl, hsl, hm⟩
        rw [hd] at hsl
        injection hsl with hsl
        injection hsl with hsl
        rwa [hsl]
      · exact fun hm => ⟨slots, hd, hm⟩
    rw [h1, h2, hp'.mem_iff, hp.mem_iff, List.mem_append, List.mem_append, Option.mem_toList,
      Option.mem_toList]
    constructor
    · rintro (hn | hr)
      · exact Or.inl ⟨rfl, hn⟩
      · refine Or.inr ⟨Or.inr hr, fun hc => ?_⟩
        exact (List.nodup_append.mp hnd').2.2 e (Option.mem_toList.mpr hc.2) e hr rfl
    · rintro (⟨-, hn⟩ | ⟨ho | hr, hc⟩)
      · exact Or.inl hn
      · exact absurd ⟨rfl, ho⟩ hc
      · exact Or.inr hr
  · unfold Entry
    rw [h.of_ne hj]
    simp [hj]

/-- **Changing an entry keeps the graph in order**, if the new one names an object
of its type under a name that is free. -/
theorem Swap.ok (h : Swap G G' d old new) (hok : GraphOk g G)
    (hnew : ∀ e, new = some e → (e.ino ≠ rootIno ∧ ∃ o, G e.ino = some o ∧ o.type = e.type) ∧
      nameOk e.name = true ∧ ∀ e', Entry G d e' → old ≠ some e' → fold e'.name ≠ fold e.name) :
    GraphOk g G' where
  root := h.isDir_iff.mpr hok.root
  bound j o hj := by
    cases hj' : G j with
    | none =>
      rw [(h.dom j).mp hj'] at hj
      exact absurd hj (by simp)
    | some o' => exact hok.bound j o' hj'
  entry j e he := by
    have hold : e.ino ≠ rootIno ∧ ∃ o, G e.ino = some o ∧ o.type = e.type := by
      rcases (h.entry_iff hok).mp he with ⟨-, hn⟩ | ⟨he', -⟩
      · exact (hnew e hn).1
      · exact hok.entry j e he'
    obtain ⟨hr, o, ho, hty⟩ := hold
    obtain ⟨o', ho', hty'⟩ := h.type ho
    exact ⟨hr, o', ho', hty'.trans hty⟩
  name j e he := by
    rcases (h.entry_iff hok).mp he with ⟨-, hn⟩ | ⟨he', -⟩
    · exact (hnew e hn).2.1
    · exact hok.name j e he'
  names j slots hj := by
    by_cases hjd : j = d
    · subst hjd
      obtain ⟨slots₀, slots', rest, hd, rfl, hp, hp'⟩ := h
      rw [Function.update_self] at hj
      injection hj with hj
      injection hj with hj
      subst hj
      have hnd := hok.names j slots₀ hd
      unfold foldedNames at hnd ⊢
      rw [(hp.map _).nodup_iff, List.map_append, List.nodup_append] at hnd
      rw [(hp'.map _).nodup_iff, List.map_append, List.nodup_append]
      have hndall : (old.toList ++ rest).Nodup := by
        have := List.Nodup.of_map _ (hok.names j slots₀ hd)
        exact hp.nodup_iff.mp this
      refine ⟨?_, hnd.2.1, ?_⟩
      · cases new <;> simp
      · intro a ha b hb
        obtain ⟨e, he, rfl⟩ := List.mem_map.mp ha
        obtain ⟨e', he', rfl⟩ := List.mem_map.mp hb
        have hmem : Entry G j e' := ⟨slots₀, hd, hp.mem_iff.mpr (List.mem_append_right _ he')⟩
        refine ((hnew e (Option.mem_toList.mp he)).2.2 e' hmem fun hc => ?_).symm
        exact (List.nodup_append.mp hndall).2.2 e' (Option.mem_toList.mpr hc) e' he' rfl
    · rw [h.of_ne hjd] at hj
      exact hok.names j slots hj

end Swap

/-! ## An object nothing names any more -/

theorem drop_of_ne {j : Nat} (hj : j ≠ i) : G.drop i j = G j := Function.update_of_ne hj _ _

theorem entry_drop {e : Dent} : Entry (G.drop i) d e ↔ d ≠ i ∧ Entry G d e := by
  by_cases hd : d = i
  · subst hd
    unfold Entry Graph.drop
    simp
  · unfold Entry
    rw [drop_of_ne hd]
    simp [hd]

theorem GraphOk.drop (h : GraphOk g G) (hi : i ≠ rootIno) (hno : ∀ d e, Entry G d e → d ≠ i → e.ino ≠ i) :
    GraphOk g (G.drop i) where
  root := by
    obtain ⟨slots, hr⟩ := h.root
    exact ⟨slots, (drop_of_ne hi.symm).trans hr⟩
  bound j o hj := h.bound j o (G.drop_sub i j o hj)
  entry d e he := by
    obtain ⟨hd, he⟩ := entry_drop.mp he
    obtain ⟨hr, o, ho, hty⟩ := h.entry d e he
    exact ⟨hr, o, (drop_of_ne (hno d e he hd)).trans ho, hty⟩
  name d e he := h.name d e (entry_drop.mp he).2
  names d slots hd := h.names d slots (G.drop_sub i d _ hd)

end Graph

end Mwfs
