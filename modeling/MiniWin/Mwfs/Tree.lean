import MiniWin.Mwfs.OpsSpec

/-!
# The tree of a volume

A graph in order need not be a tree: after a power cut an object may have two
names, and a directory moved into itself hangs from nowhere. `Tree` says that
neither is the case. Each operation is described by what it does to the edges of the
graph and to its objects, and everything about paths follows from that.
-/

namespace Mwfs

/-- **A graph that is a tree**: no object has two names, and every object has a path
from the root. -/
structure Tree (g : Geo) (G : Graph) : Prop where
  ok : GraphOk g G
  single : Single (Edge G)
  reach : ∀ j o, G j = some o → Below (Edge G) rootIno j

section Edges

variable {g : Geo} {G G' : Graph} {d i j : Nat} {n : Name}

theorem Entry.edge {e : Dent} (h : Entry G d e) : Edge G d (fold e.name) e.ino := ⟨e, h, rfl, rfl⟩

theorem Edge.isDir (h : Edge G d n j) : IsDir G d := by
  obtain ⟨e, he, -⟩ := h
  exact he.isDir

/-- A name picks out one object. -/
theorem GraphOk.edge_det (hok : GraphOk g G) (h : Edge G d n i) (h' : Edge G d n j) : i = j := by
  obtain ⟨e, he, hn, rfl⟩ := h
  obtain ⟨e', he', hn', rfl⟩ := h'
  rw [hok.inj he he' (hn.trans hn'.symm)]

theorem GraphOk.edge_obj (hok : GraphOk g G) (h : Edge G d n j) :
    j ≠ rootIno ∧ ∃ o, G j = some o := by
  obtain ⟨e, he, -, rfl⟩ := h
  obtain ⟨hr, o, ho, -⟩ := hok.entry d e he
  exact ⟨hr, o, ho⟩

/-- Nothing leads to the root. -/
theorem GraphOk.root_free (hok : GraphOk g G) : ∀ d n, ¬ Edge G d n rootIno := fun _ _ h =>
  (hok.edge_obj h).1 rfl

theorem kind_dir_iff : G.kind j = some .dir ↔ IsDir G j := by
  unfold Graph.kind IsDir
  cases hG : G j with
  | none => simp
  | some o => cases o <;> simp [Obj.kind]

theorem kind_file_iff {bytes : List UInt8} {aux : UInt32} :
    G.kind j = some (.file bytes aux) ↔ G j = some (.file bytes aux) := by
  unfold Graph.kind
  cases hG : G j with
  | none => simp
  | some o => cases o <;> simp [Obj.kind]

theorem kind_none_iff : G.kind j = none ↔ G j = none := by
  unfold Graph.kind
  simp

/-- Only directories have edges. -/
theorem edge_stop (h : ¬ IsDir G j) : ∀ n k, ¬ Edge G j n k := fun _ _ he => h he.isDir

/-- What a path from an object leads to is an object. -/
theorem GraphOk.leads_obj (hok : GraphOk g G) {p : List Name} (h : Leads (Edge G) i p j) {o : Obj}
    (hi : G i = some o) : ∃ o', G j = some o' := by
  induction h generalizing o with
  | nil => exact ⟨o, hi⟩
  | cons he _ ih =>
    obtain ⟨-, o', ho'⟩ := hok.edge_obj he
    exact ih ho'

/-! ## What the three changes of a graph do to its edges -/

theorem Swap.kind {old new : Option Dent} (h : Swap G G' d old new) : G'.kind = G.kind := by
  obtain ⟨slots, slots', rest, hd, rfl, -⟩ := h
  funext j
  unfold Graph.kind
  by_cases hj : j = d
  · subst hj
    rw [Function.update_self, hd]
    rfl
  · rw [Function.update_of_ne hj]

/-- **An entry changed is an edge changed.** -/
theorem Swap.edge {old new : Option Dent} (h : Swap G G' d old new) (hok : GraphOk g G) (nm : Name)
    (hold : ∀ e, old = some e → fold e.name = nm) (hnew : ∀ e, new = some e → fold e.name = nm)
    (hno : old = none → ∀ e, Entry G d e → fold e.name ≠ nm) :
    Edge G' = Repoint (Edge G) d nm (new.map Dent.ino) := by
  have hheld : ∀ e, old = some e → Entry G d e := by
    rintro e rfl
    obtain ⟨slots, slots', rest, hd, -, hp, -⟩ := h
    exact ⟨slots, hd, hp.mem_iff.mpr (by simp)⟩
  have hthe : ∀ e, Entry G d e → fold e.name = nm → old = some e := by
    intro e he hn
    cases ho : old with
    | none => exact absurd hn (hno ho e he)
    | some e' => rw [hok.inj (hheld e' ho) he ((hold e' ho).trans hn.symm)]
  funext x n j
  refine propext ⟨?_, ?_⟩
  · rintro ⟨e, he, rfl, rfl⟩
    rcases (h.entry_iff hok).mp he with ⟨rfl, hn⟩ | ⟨he', hne⟩
    · exact Or.inr ⟨rfl, hnew e hn, by rw [hn]; rfl⟩
    · exact Or.inl ⟨he'.edge, fun hc => hne ⟨hc.1, hthe e (hc.1 ▸ he') hc.2⟩⟩
  · rintro (⟨⟨e, he, rfl, rfl⟩, hne⟩ | ⟨rfl, rfl, hn⟩)
    · exact ⟨e, (h.entry_iff hok).mpr (Or.inr ⟨he, fun hc => hne ⟨hc.1, hold e hc.2⟩⟩), rfl, rfl⟩
    · obtain ⟨e, he, rfl⟩ := Option.map_eq_some_iff.mp hn
      exact ⟨e, (h.entry_iff hok).mpr (Or.inl ⟨rfl, he⟩), hnew e he, rfl⟩

theorem edge_add (hi : G i = none) {o : Obj} (ho : o.Bare) : Edge (G.add i o) = Edge G := by
  funext d n j
  unfold Edge
  simp only [entry_add hi ho]

theorem kind_add (G : Graph) (i : Nat) (o : Obj) :
    (G.add i o).kind = Function.update G.kind i (some o.kind) := by
  funext j
  unfold Graph.kind Graph.add
  by_cases hj : j = i
  · subst hj
    simp
  · rw [Function.update_of_ne hj, Function.update_of_ne hj]

theorem edge_drop (h : ∀ n k, ¬ Edge G i n k) : Edge (G.drop i) = Edge G := by
  funext d n j
  unfold Edge
  simp only [entry_drop]
  refine propext ⟨fun ⟨e, he, hn⟩ => ⟨e, he.2, hn⟩, fun ⟨e, he, hn⟩ => ⟨e, ⟨?_, he⟩, hn⟩⟩
  rintro rfl
  exact h _ _ he.edge

theorem kind_drop (G : Graph) (i : Nat) : (G.drop i).kind = Function.update G.kind i none := by
  funext j
  unfold Graph.kind Graph.drop
  by_cases hj : j = i
  · subst hj
    simp
  · rw [Function.update_of_ne hj, Function.update_of_ne hj]

end Edges

/-! ## What the operations do to the edges -/

/-- In `G'` the name `nm` of `d` leads to `i`, or nowhere, and the object it led to
before is gone. -/
structure Placed (G G' : Graph) (d : Nat) (nm : Name) (i : Option Nat) : Prop where
  edge : Edge G' = Repoint (Edge G) d nm i
  gone : ∀ j, Edge G d nm j → G'.kind j = none
  kept : ∀ j, i ≠ some j → ¬ Edge G d nm j → G'.kind j = G.kind j

/-- The object the name `nm` of `d` leads to has no other name. -/
def Sole (G : Graph) (d : Nat) (nm : Name) : Prop :=
  ∀ j, Edge G d nm j → ∀ x n, ¬ Without (Edge G) (Named d nm) x n j

section Outcomes

variable {g : Geo} {G G' Gm : Graph} {d : Nat} {name : Name}

/-- **A new object given a new name.** -/
theorem placed_fresh {i : Nat} {o : Obj} {e : Dent} (hok : GraphOk g G)
    (hi : G i = none) (ho : o.Bare) (hi0 : i ≠ 0) (hlt : i < g.inode_count) (he : e.ino = i)
    (hno : ∀ e', Entry G d e' → fold e'.name ≠ fold e.name)
    (hswap : Swap (G.add i o) G' d none (some e)) :
    Placed G G' d (fold e.name) (some i) ∧ G'.kind i = some o.kind ∧
      ∀ j, ¬ Edge G d (fold e.name) j := by
  have hok' := hok.add hi ho hi0 hlt
  have hedge := hswap.edge hok' (fold e.name) (by simp) (by simp) fun _ e' he' =>
    hno e' ((entry_add hi ho).mp he')
  have hno' : ∀ j, ¬ Edge G d (fold e.name) j := fun j ⟨e', he', hn, _⟩ => hno e' he' hn
  rw [edge_add hi ho, Option.map_some, he] at hedge
  refine ⟨⟨hedge, fun j hj => absurd hj (hno' j), fun j hj _ => ?_⟩, ?_, hno'⟩
  · rw [hswap.kind, kind_add, Function.update_of_ne fun hc => hj (by rw [hc])]
  · rw [hswap.kind, kind_add, Function.update_self]

/-- The one object a name leads to. -/
theorem GraphOk.edge_iff (hok : GraphOk g G) {e : Dent} (he : Entry G d e) {j : Nat} :
    Edge G d (fold e.name) j ↔ j = e.ino :=
  ⟨fun h => hok.edge_det h he.edge, fun h => h ▸ he.edge⟩

theorem GraphOk.not_dir (hok : GraphOk g G) {e : Dent} (he : Entry G d e) (hty : e.type = tFile) :
    ¬ IsDir G e.ino := fun h => by
  rw [← hok.dir_of_entry he, hty] at h
  exact absurd h (by decide)

/-- **A file made**: the name leads to a fresh inode now. -/
theorem MadeFile.placed {bytes : List UInt8} {aux : UInt32} (hok : GraphOk g G)
    (h : MadeFile g G d name bytes aux G') :
    ∃ i, G i = none ∧ 2 ≤ i ∧ i < g.inode_count ∧ Placed G G' d (fold name) (some i) ∧
      G'.kind i = some (.file bytes aux) ∧ ∀ j, Edge G d (fold name) j → ¬ IsDir G j := by
  have hbare : (Obj.file bytes aux).Bare := trivial
  cases h with
  | fresh hi hi2 hlt hno hswap =>
    rename_i i
    obtain ⟨hplaced, hkind, hno'⟩ :=
      placed_fresh hok hi hbare (by omega) hlt rfl hno hswap
    exact ⟨i, hi, hi2, hlt, hplaced, hkind, fun j hj => absurd hj (hno' j)⟩
  | «over» hi hi2 hlt he hn hty hswap =>
    rename_i i G₁ e
    have hedge := hswap.edge (hok.add hi hbare (by omega) hlt) (fold name) (by simp [hn])
      (by simp [hn]) (by simp)
    rw [edge_add hi hbare] at hedge
    have hthe : ∀ {j}, Edge G d (fold name) j ↔ j = e.ino := by
      rw [← hn]
      exact hok.edge_iff he
    have hei : e.ino ≠ i := fun hc => by
      obtain ⟨-, o, ho, -⟩ := hok.entry d e he
      rw [hc, hi] at ho
      exact absurd ho (by simp)
    have hstop : ∀ n k, ¬ Edge G₁ e.ino n k := by
      refine edge_stop fun hc => ?_
      rw [← kind_dir_iff, hswap.kind, kind_add, Function.update_of_ne hei, kind_dir_iff] at hc
      exact hok.not_dir he hty hc
    refine ⟨i, hi, hi2, hlt, ⟨(edge_drop hstop).trans hedge, fun j hj => ?_, fun j hj hne => ?_⟩, ?_,
      fun j hj => hthe.mp hj ▸ hok.not_dir he hty⟩
    · rw [hthe.mp hj, kind_drop, Function.update_self]
    · rw [kind_drop, Function.update_of_ne fun hc => hne (hthe.mpr hc), hswap.kind, kind_add,
        Function.update_of_ne fun hc => hj (by rw [hc])]
    · rw [kind_drop, Function.update_of_ne hei.symm, hswap.kind, kind_add, Function.update_self]
      rfl

/-- **A directory made.** -/
theorem MadeDir.placed (hok : GraphOk g G) (h : MadeDir g G d name G') :
    ∃ i, G i = none ∧ 2 ≤ i ∧ i < g.inode_count ∧ Placed G G' d (fold name) (some i) ∧
      G'.kind i = some .dir ∧ ∀ j, ¬ Edge G d (fold name) j := by
  have hbare : (Obj.dir []).Bare := rfl
  obtain ⟨i, hi, hi2, hlt, hno, hswap⟩ := h
  obtain ⟨hplaced, hkind, hno'⟩ := placed_fresh hok hi hbare (by omega) hlt rfl hno hswap
  exact ⟨i, hi, hi2, hlt, hplaced, hkind, hno'⟩

/-- **An object unlinked**: it has no edges, and its name leads nowhere now. -/
theorem Unlinked.placed {e : Dent} (hok : GraphOk g G) (hn : fold e.name = fold name)
    (h : Unlinked G d e G') :
    Placed G G' d (fold name) none ∧ Edge G d (fold name) e.ino ∧ ∀ n k, ¬ Edge G e.ino n k := by
  obtain ⟨he, hempty, G₁, hswap, rfl⟩ := h
  have hedge := hswap.edge hok (fold name) (by simp [hn]) (by simp) (by simp)
  have hthe : ∀ {j}, Edge G d (fold name) j ↔ j = e.ino := by
    rw [← hn]
    exact hok.edge_iff he
  have hstop : ∀ n k, ¬ Edge G e.ino n k := by
    rintro n k hk
    obtain ⟨e', he', -⟩ := hk
    exact hempty ((hok.dir_of_entry he).mpr he'.isDir) e' he'
  have hstop' : ∀ n k, ¬ Edge G₁ e.ino n k := by
    intro n k hk
    rw [hedge] at hk
    exact hk.elim (fun hc => hstop n k hc.1) fun hc => by simpa using hc.2.2
  refine ⟨⟨(edge_drop hstop').trans hedge, fun j hj => ?_, fun j _ hne => ?_⟩, hthe.mpr rfl, hstop⟩
  · rw [hthe.mp hj, kind_drop, Function.update_self]
  · rw [kind_drop, Function.update_of_ne fun hc => hne (hthe.mpr hc), hswap.kind]

/-- What a rename has done to the edges. The object `i` gets the new name first, in
place of a file perhaps, and loses the old one second. -/
structure Moved (G Gm G' : Graph) (fd : Nat) (fnm : Name) (td : Nat) (tnm : Name) (i : Nat) :
    Prop where
  mid : Edge Gm = Repoint (Edge G) td tnm (some i)
  midKind : Gm.kind = G.kind
  edge : Edge G' = Repoint (Edge Gm) fd fnm none
  ne : ¬ Edge G td tnm i
  files : ∀ j, Edge G td tnm j → ¬ IsDir G j ∧ ¬ IsDir G i
  gone : ∀ j, Edge G td tnm j → G'.kind j = none
  kept : ∀ j, ¬ Edge G td tnm j → G'.kind j = G.kind j

/-- **An object renamed**: both names are its own already, or it has moved. -/
theorem Renamed.moved {fd td : Nat} {fn tn : Name} (hok : GraphOk g G) (hname : nameOk tn = true)
    (h : Renamed G fd fn td tn Gm G') :
    GraphOk g Gm ∧ ∃ i, Edge G fd (fold fn) i ∧
      ((Gm = G ∧ G' = G ∧ Edge G td (fold tn) i) ∨ Moved G Gm G' fd (fold fn) td (fold tn) i) := by
  cases h with
  | same he hn he' hn' hino =>
    exact ⟨hok, _, ⟨_, he, hn, rfl⟩, Or.inl ⟨rfl, rfl, _, he', hn', hino⟩⟩
  | move he hn hno hadd hrem =>
    rename_i e
    have hokm := hadd.ok_link hok he hname hno
    have hedge := hadd.edge hok (fold tn) (by simp) (by simp) fun _ => hno
    have hedge' := hrem.edge hokm (fold fn) (by simp [hn]) (by simp) (by simp)
    have hno' : ∀ j, ¬ Edge G td (fold tn) j := fun j ⟨e', he', hn', _⟩ => hno e' he' hn'
    refine ⟨hokm, e.ino, ⟨e, he, hn, rfl⟩, Or.inr ⟨hedge, hadd.kind, hedge', hno' _, fun j hj =>
      absurd hj (hno' j), fun j hj => absurd hj (hno' j), fun j _ => ?_⟩⟩
    rw [hrem.kind, hadd.kind]
  | «over» he hn he' hn' hino hty hty' hset hrem =>
    rename_i e e' G₂
    have hokm := hset.ok_over hok he he' (hty.trans hty'.symm)
    have hedge := hset.edge hok (fold tn) (by simp [hn']) (by simp [hn']) (by simp)
    have hedge' := hrem.edge hokm (fold fn) (by simp [hn]) (by simp) (by simp)
    have hthe : ∀ {j}, Edge G td (fold tn) j ↔ j = e'.ino := by
      rw [← hn']
      exact hok.edge_iff he'
    have hstop : ∀ n k, ¬ Edge G₂ e'.ino n k := by
      refine edge_stop fun hc => ?_
      rw [← kind_dir_iff, hrem.kind, hset.kind, kind_dir_iff] at hc
      exact hok.not_dir he' hty' hc
    refine ⟨hokm, e.ino, ⟨e, he, hn, rfl⟩, Or.inr ⟨hedge, hset.kind, (edge_drop hstop).trans hedge',
      fun hc => hino (hthe.mp hc).symm, fun j hj => ?_, fun j hj => ?_, fun j hj => ?_⟩⟩
    · exact ⟨hthe.mp hj ▸ hok.not_dir he' hty', hok.not_dir he hty⟩
    · rw [hthe.mp hj, kind_drop, Function.update_self]
    · rw [kind_drop, Function.update_of_ne fun hc => hj (hthe.mpr hc), hrem.kind, hset.kind]

/-! ## The graph stays in order -/

theorem MadeFile.ok {bytes : List UInt8} {aux : UInt32} (hok : GraphOk g G)
    (hname : nameOk name = true) (hsole : Sole G d (fold name))
    (h : MadeFile g G d name bytes aux G') : GraphOk g G' := by
  have hbare : (Obj.file bytes aux).Bare := trivial
  cases h with
  | fresh hi hi2 hlt hno hswap =>
    rename_i i
    refine hswap.ok (hok.add hi hbare (by omega) hlt) fun e he => ?_
    obtain rfl := Option.some.inj he
    refine ⟨⟨by show i ≠ rootIno; unfold rootIno; omega, _, Graph.add_self .., rfl⟩, hname, fun e' he' _ => ?_⟩
    exact hno e' ((entry_add hi hbare).mp he')
  | «over» hi hi2 hlt he hn hty hswap =>
    rename_i i G₁ e
    have hok' := hok.add hi hbare (by omega) hlt
    have hedge := hswap.edge hok' (fold name) (by simp [hn]) (by simp [hn]) (by simp)
    rw [edge_add hi hbare] at hedge
    have hok₁ : GraphOk g G₁ := hswap.ok hok' fun e₁ he₁ => by
      obtain rfl := Option.some.inj he₁
      refine ⟨⟨by show i ≠ rootIno; unfold rootIno; omega, _, Graph.add_self .., hty.symm⟩,
        hok.name d e he, fun e₂ he₂ hne hf => ?_⟩
      exact hne (by rw [hok.inj ((entry_add hi hbare).mp he₂) he hf])
    obtain ⟨hroot, o, ho, -⟩ := hok.entry d e he
    refine hok₁.drop hroot fun x e₂ he₂ _ hc => ?_
    have hx := he₂.edge
    rw [hedge, hc] at hx
    rcases hx with hx | ⟨-, -, hx⟩
    · exact hsole _ ⟨e, he, hn, rfl⟩ _ _ hx
    · rw [← Option.some.inj hx] at ho
      exact absurd (hi.symm.trans ho) (by simp)

theorem MadeDir.ok (hok : GraphOk g G) (hname : nameOk name = true) (h : MadeDir g G d name G') :
    GraphOk g G' := by
  have hbare : (Obj.dir []).Bare := rfl
  obtain ⟨i, hi, hi2, hlt, hno, hswap⟩ := h
  refine hswap.ok (hok.add hi hbare (by omega) hlt) fun e he => ?_
  obtain rfl := Option.some.inj he
  refine ⟨⟨by show i ≠ rootIno; unfold rootIno; omega, _, Graph.add_self .., rfl⟩, hname,
    fun e' he' _ => ?_⟩
  exact hno e' ((entry_add hi hbare).mp he')

theorem Unlinked.ok {e : Dent} (hok : GraphOk g G) (hn : fold e.name = fold name)
    (hsole : Sole G d (fold name)) (h : Unlinked G d e G') : GraphOk g G' := by
  obtain ⟨he, -, G₁, hswap, rfl⟩ := h
  have hedge := hswap.edge hok (fold name) (by simp [hn]) (by simp) (by simp)
  refine (hswap.ok hok (by simp)).drop (hok.entry d e he).1 fun x e₂ he₂ _ hc => ?_
  have hx := he₂.edge
  rw [hedge, hc] at hx
  rcases hx with hx | ⟨-, -, hx⟩
  · exact hsole _ ⟨e, he, hn, rfl⟩ _ _ hx
  · exact absurd hx (by simp)

theorem Renamed.ok {fd td : Nat} {fn tn : Name} (hok : GraphOk g G) (hname : nameOk tn = true)
    (hsole : (∀ j, Edge G fd (fold fn) j → ¬ Edge G td (fold tn) j) → Sole G td (fold tn))
    (h : Renamed G fd fn td tn Gm G') : GraphOk g G' := by
  cases h with
  | same => exact hok
  | move he hn hno hadd hrem => exact hrem.ok (hadd.ok_link hok he hname hno) (by simp)
  | «over» he hn he' hn' hino hty hty' hset hrem =>
    rename_i e e' G₂
    have hokm := hset.ok_over hok he he' (hty.trans hty'.symm)
    have hedge := hset.edge hok (fold tn) (by simp [hn']) (by simp [hn']) (by simp)
    have hedge' := hrem.edge hokm (fold fn) (by simp [hn]) (by simp) (by simp)
    refine (hrem.ok hokm (by simp)).drop (hok.entry td e' he').1 fun x e₂ he₂ _ hc => ?_
    have hx := he₂.edge
    rw [hedge', hc, Option.map_none, repoint_none, hedge] at hx
    rcases hx.1 with hx | ⟨-, -, hx⟩
    · refine hsole (fun j hj hj' => ?_) _ ⟨e', he', hn', rfl⟩ _ _ hx
      obtain rfl := hok.edge_det hj ⟨e, he, hn, rfl⟩
      exact hino (hok.edge_det ⟨e', he', hn', rfl⟩ hj')
    · exact hino (Option.some.inj hx).symm

/-! ## The tree stays a tree -/

/-- Where no object has two names, every name is an object's only one. -/
theorem sole_of_single (h : Single (Edge G)) (d : Nat) (nm : Name) : Sole G d nm :=
  fun _ hj _ _ hx => by
    obtain ⟨rfl, rfl⟩ := h _ _ _ _ _ hx.1 hj
    exact hx.2 ⟨rfl, rfl⟩

theorem Tree.sole (ht : Tree g G) (d : Nat) (nm : Name) : Sole G d nm := sole_of_single ht.single d nm

theorem Tree.reach_kind (ht : Tree g G) {j : Nat} (hj : G.kind j ≠ none) :
    Below (Edge G) rootIno j := by
  rw [ne_eq, kind_none_iff] at hj
  obtain ⟨o, ho⟩ := Option.ne_none_iff_exists'.mp hj
  exact ht.reach j o ho

/-- A change between leaves of a tree. -/
theorem Tree.placeable {i : Option Nat} (ht : Tree g G) (hd : IsDir G d) {nm : Name}
    (hleaf : ∀ j, Edge G d nm j → ∀ n k, ¬ Edge G j n k) (hi : ∀ w, i = some w → G w = none) :
    Placeable (Edge G) rootIno d nm i where
  single := ht.single
  det _ _ _ _ h h' := ht.ok.edge_det h h'
  free := ht.ok.root_free
  leaf := hleaf
  fresh w hw := by
    obtain ⟨slots, hsl⟩ := hd
    refine ⟨fun hc => ?_, edge_stop fun ⟨sl, hc⟩ => ?_⟩
    · rw [← hc, hi w hw] at hsl
      exact absurd hsl (by simp)
    · rw [hi w hw] at hc
      exact absurd hc (by simp)

theorem Tree.of_placed {i : Option Nat} (ht : Tree g G) (hok' : GraphOk g G') (hd : IsDir G d)
    {nm : Name} (hleaf : ∀ j, Edge G d nm j → ∀ n k, ¬ Edge G j n k)
    (hi : ∀ w, i = some w → G w = none) (h : Placed G G' d nm i) : Tree g G' := by
  have hpl := ht.placeable hd hleaf hi
  refine ⟨hok', ?_, fun j o hj => ?_⟩
  · rw [h.edge]
    refine ht.single.repoint fun w hw x l hx => ?_
    obtain ⟨-, o, ho⟩ := ht.ok.edge_obj hx.1
    rw [hi w hw] at ho
    exact absurd ho (by simp)
  · obtain ⟨q, hq⟩ := ht.reach_kind (kind_dir_iff.mpr hd ▸ by simp : G.kind d ≠ none)
    rw [h.edge]
    by_cases hij : i = some j
    · exact ⟨q ++ [nm], (hpl.leads_iff hq).mpr (Or.inl ⟨rfl, hij⟩)⟩
    · have hnot : ¬ Edge G d nm j := fun hc => by
        have := h.gone j hc
        rw [kind_none_iff, hj] at this
        exact absurd this (by simp)
      obtain ⟨p, hp⟩ := ht.reach_kind (j := j) (by
        rw [← h.kept j hij hnot, ne_eq, kind_none_iff, hj]
        simp)
      refine ⟨p, (hpl.leads_iff hq).mpr (Or.inr ⟨?_, hp⟩)⟩
      rintro rfl
      obtain ⟨v, hv, he⟩ := Leads.snoc_iff.mp hp
      obtain rfl := hv.det hpl.det hq
      exact hnot he

/-- A move in a tree, of an object that is not above the place it moves to. -/
theorem Tree.movable {fd td i : Nat} {fnm tnm : Name} (ht : Tree g G) (he : Edge G fd fnm i)
    (hself : ¬ Below (Edge G) i td) (h : Moved G Gm G' fd fnm td tnm i) :
    Movable (Edge G) rootIno fd fnm td tnm i where
  single := ht.single
  det _ _ _ _ h h' := ht.ok.edge_det h h'
  free := ht.ok.root_free
  edge := he
  reach := by
    obtain ⟨-, o, ho⟩ := ht.ok.edge_obj he
    exact ht.reach i o ho
  ne hc := h.ne (by rw [hc.1, hc.2]; exact he)
  leaf w hw := edge_stop (h.files w hw).1
  self := hself

theorem Moved.edge_eq {fd td i : Nat} {fnm tnm : Name} (h : Moved G Gm G' fd fnm td tnm i) :
    Edge G' = Move (Edge G) fd fnm td tnm i := by
  rw [h.edge, h.mid]
  rfl

theorem Tree.of_moved {fd td i : Nat} {fnm tnm : Name} (ht : Tree g G) (hok' : GraphOk g G')
    (he : Edge G fd fnm i) (htd : IsDir G td) (hself : ¬ Below (Edge G) i td)
    (h : Moved G Gm G' fd fnm td tnm i) : Tree g G' := by
  have hmv := ht.movable he hself h
  have hobj : ∀ {d}, IsDir G d → Below (Edge G) rootIno d := fun {d} ⟨sl, hsl⟩ => ht.reach d _ hsl
  obtain ⟨q₀, hq₀⟩ := hobj htd
  obtain ⟨p₀, hp₀⟩ := hobj he.isDir
  refine ⟨hok', ?_, fun j o hj => ?_⟩
  · rw [h.edge_eq]
    exact ht.single.move hmv.ne he
  · have hnot : ¬ Edge G td tnm j := fun hc => by
      have := h.gone j hc
      rw [kind_none_iff, hj] at this
      exact absurd this (by simp)
    obtain ⟨p, hp⟩ := ht.reach_kind (j := j) (by
      rw [← h.kept j hnot, ne_eq, kind_none_iff, hj]
      simp)
    rw [h.edge_eq]
    rcases hp.split_last (X := Ends fd fnm td tnm) with hav | ⟨q, k, r, v, w, rfl, -, hvw, hX, hr⟩
    · exact ⟨p, hmv.of_avoids hav⟩
    · rcases hX with ⟨rfl, rfl⟩ | ⟨rfl, rfl⟩
      · obtain rfl := ht.ok.edge_det hvw he
        exact ⟨_, hmv.leads_new hq₀ hr.of_without⟩
      · obtain ⟨-, rfl⟩ := hr.of_without.stop (hmv.leaf w hvw)
        exact absurd hvw hnot

end Outcomes

end Mwfs
