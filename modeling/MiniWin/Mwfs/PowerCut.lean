import MiniWin.Mwfs.Reach

/-!
# What a power cut leaves

`Intact s op s'` says what of the volume `s` is still to be found in `s'`, when the
operation `op` on `s` has been cut short and `s'` is the volume opened again. The one
operation that breaks it is a rename of a directory into itself, which takes the
directory and everything below it out of the tree.
-/

namespace Mwfs

/-- The bytes an operation gives to the file it makes, read from the volume. -/
def Op.Writes (s : St) : Op Nat → List UInt8 → Prop
  | .put _ _ data _ _, b => b = data
  | .copy src _ _ _, b => ∀ max, b.length ≤ max → fileGet s src max = .ok b
  | _, _ => False

/-- The operation names what is at this path: it is about the path's last name, or it
renames something the path runs through. -/
def Op.Names (s : St) (op : Op Nat) (p : List Name) : Prop :=
  match op with
  | .put d name _ _ _ | .copy _ d name _ | .mkdir d name _ | .unlink d name => Through s d name p []
  | .rename fd fn td tn => (∃ r, Through s fd fn p r) ∨ Through s td tn p []

/-- **What a power cut leaves intact.** -/
structure Intact (s : St) (op : Op Nat) (s' : St) : Prop where
  /-- A file that is not named is found under its path, with its bytes. -/
  others : ∀ p b, Shows s p b → ¬ op.Names s p → Shows s' p b
  /-- The name put or copied to has the old bytes or the new ones, or is absent if it
  was absent. -/
  target : ∀ d name p new, op.place = some (d, name) → Through s d name p [] → op.Writes s new →
    (∀ old, Shows s p old → Shows s' p old ∨ Shows s' p new) ∧
      (Absent s p → Absent s' p ∨ Shows s' p new)
  /-- What is renamed is under its old name or under its new one, with all below it. -/
  moved : ∀ fd fn td tn p r, op = .rename fd fn td tn → Through s fd fn p r →
    (∀ j, walk s rootIno p = .ok j → walk s' rootIno p = .ok j ∨
        ∃ q, walk s rootIno q = .ok td ∧ walk s' rootIno (q ++ tn :: r) = .ok j) ∧
      ∀ b, Shows s p b → Shows s' p b ∨
        ∃ q, walk s rootIno q = .ok td ∧ Shows s' (q ++ tn :: r) b
  /-- A file a rename replaces has its old bytes or those of the renamed file. -/
  replaced : ∀ fd fn td tn p old, op = .rename fd fn td tn → Through s td tn p [] → Shows s p old →
    Shows s' p old ∨ ∃ p' new, Through s fd fn p' [] ∧ Shows s p' new ∧ Shows s' p new
  /-- Every directory entry points at a live inode of its type. -/
  entries : ∀ p d idx e, walk s' rootIno p = .ok d → dirNth s' d idx = some (some e) →
    ∃ t, inoGet s' e.ino = some t ∧ t.type ≠ tFree ∧ t.type = e.type
  /-- Every sector of an inode the root leads to is marked. -/
  marked : ∀ p j t l, walk s' rootIno p = .ok j → inoGet s' j = some t →
    (view s'.vol.toGeo s'.disk).Has t l → bitGet s' l = some true

theorem Op.names_iff {s : St} {op : Op Nat} {d : Nat} {name : Name} {p : List Name}
    (h : op.place = some (d, name)) : op.Names s p ↔ Through s d name p [] := by
  cases op with
  | rename => exact absurd h (by simp [place])
  | put | copy | mkdir | unlink =>
    obtain ⟨rfl, rfl⟩ := Prod.ext_iff.mp (Option.some.inj h)
    exact Iff.rfl

section Holds

variable {g : Geo} {G Gm Gc : Graph} {s s' : St} {op : Op Nat}

/-- The entries of a volume that holds a graph in order. -/
theorem Holds.entries (h : Holds g G s) {p : List Name} {d idx : Nat} {e : Dent}
    (hw : walk s rootIno p = .ok d) (he : dirNth s d idx = some (some e)) :
    ∃ t, inoGet s e.ino = some t ∧ t.type ≠ tFree ∧ t.type = e.type := by
  obtain ⟨o, ho⟩ := h.obj_of_leads ((h.walk_root p).mp hw)
  obtain ⟨hd0, hdlt⟩ := h.ok.bound d _ ho
  cases o with
  | file bytes aux =>
    unfold dirNth at he
    rw [inoGet_eq h.sane hd0 hdlt] at he
    dsimp only at he
    rw [if_pos (by rw [(h.rep.fileRep ho).type]; decide)] at he
    exact absurd he (by simp)
  | dir slots =>
    rw [dirNth_spec h.sane h.rep ho hd0 hdlt, Option.some.injEq] at he
    obtain ⟨-, o', ho', hty⟩ := h.ok.entry d e (entry_of_mem ho (List.mem_of_getElem? he))
    obtain ⟨he0, helt⟩ := h.ok.bound _ _ ho'
    exact ⟨_, inoGet_eq h.sane he0 helt, h.rep.not_free ho', (h.rep.objRep ho').type_eq.trans hty⟩

/-- The sectors in use of a volume that holds a graph in order. -/
theorem Holds.marked (h : Holds g G s) {p : List Name} {j l : Nat} {t : Ino}
    (hw : walk s rootIno p = .ok j) (ht : inoGet s j = some t)
    (hl : (view s.vol.toGeo s.disk).Has t l) : bitGet s l = some true := by
  obtain ⟨o, ho⟩ := h.obj_of_leads ((h.walk_root p).mp hw)
  obtain ⟨hj0, hjlt⟩ := h.ok.bound j _ ho
  rw [inoGet_eq h.sane hj0 hjlt] at ht
  obtain rfl := Option.some.inj ht
  rw [h.sane.geo] at hl
  obtain ⟨hl0, q, rfl⟩ := hl
  have hown := Inv.owns_ino h.rep ho hl0
  rw [bitGet_eq h.sane (Inv.data h.rep _ hown).bit, Inv.used h.rep _ hown]

end Holds

section Intact

variable {g : Geo} {G Gm G' Gc : Graph} {s s' : St} {op : Op Nat}

/-- Two volumes with one graph show the same. -/
theorem Intact.same (h : Holds g G s) (h' : Holds g G s') : Intact s op s' := by
  have hshows : ∀ {p b}, Shows s p b → Shows s' p b := fun hp => h'.shows_iff.mpr (h.shows_iff.mp hp)
  refine ⟨fun p b hp _ => hshows hp, fun d name p new _ _ _ => ⟨fun old hp => Or.inl (hshows hp),
    fun hp => Or.inl (h'.absent_iff.mpr (h.absent_iff.mp hp))⟩, fun fd fn td tn p r _ _ =>
    ⟨fun j hj => Or.inl ((h'.walk_root p).mpr ((h.walk_root p).mp hj)), fun b hp =>
    Or.inl (hshows hp)⟩, fun fd fn td tn p old _ _ hp => Or.inl (hshows hp),
    fun _ _ _ _ hw he => h'.entries hw he, fun _ _ _ _ hw ht hl => h'.marked hw ht hl⟩

/-- An object of the tree under a path other than the one that changes stays what it is. -/
theorem Placed.kind_of_leads {d j : Nat} {nm : Name} {i : Option Nat} {p p₀ : List Name}
    (h : Placed G G' d nm i) (hh : Holds g G s) (ht : Tree g G) (hi : ∀ w, i = some w → G w = none)
    (hp₀ : Leads (Edge G) rootIno p₀ d) (hp : Leads (Edge G) rootIno p j) (hne : p ≠ p₀ ++ [nm]) :
    G'.kind j = G.kind j := by
  obtain ⟨o, ho⟩ := hh.obj_of_leads hp
  refine h.kept j (fun hc => ?_) fun hc => hne (hp.unique ht.single hh.ok.root_free (hp₀.snoc hc))
  rw [hi j hc] at ho
  exact absurd ho (by simp)

/-- **A leaf changed.** -/
theorem Intact.leaf (h : Holds g G s) (ht : Tree g G) (h' : Holds g G' s') {d : Nat} {name : Name}
    {i : Option Nat} (hop : op.place = some (d, name)) (hd : IsDir G d)
    (hi : ∀ w, i = some w → G w = none)
    (hleaf : ∀ j, Edge G d (fold name) j → ∀ n k, ¬ Edge G j n k)
    (hnew : ∀ b, op.Writes s b → ∃ w aux, i = some w ∧ G'.kind w = some (.file b aux))
    (hpl : Placed G G' d (fold name) i) : Intact s op s' := by
  obtain ⟨p₀, hp₀⟩ := ht.reach_kind (j := d) (by rw [kind_dir_iff.mpr hd]; simp)
  have hplace := ht.placeable hd hleaf hi
  have hthe : ∀ {p}, Through s d name p [] ↔ p.map fold = p₀ ++ [fold name] := by
    intro p
    constructor
    · intro hp
      obtain ⟨p₁, hp₁, heq⟩ := h.through_fold hp
      rw [heq, hp₁.unique ht.single h.ok.root_free hp₀]
      rfl
    · intro hp
      obtain ⟨r', hr', hthr⟩ := h.through_of_fold hp₀ hp
      rwa [List.map_eq_nil_iff.mp hr'] at hthr
  have hleads : ∀ {p j}, Leads (Edge G') rootIno p j ↔ (p = p₀ ++ [fold name] ∧ i = some j) ∨
      (p ≠ p₀ ++ [fold name] ∧ Leads (Edge G) rootIno p j) := by
    intro p j
    rw [hpl.edge]
    exact hplace.leads_iff hp₀
  have hnot : ∀ fd fn td tn, op ≠ .rename fd fn td tn := by
    rintro fd fn td tn rfl
    exact absurd hop (by simp [Op.place])
  refine ⟨fun p b hp hno => ?_, fun d' name' p new hop' hthr hw => ?_, fun fd fn td tn p r hr =>
    absurd hr (hnot _ _ _ _), fun fd fn td tn p old hr => absurd hr (hnot _ _ _ _),
    fun _ _ _ _ hw he => h'.entries hw he, fun _ _ _ _ hw ht hl => h'.marked hw ht hl⟩
  · obtain ⟨j, aux, hp, hk⟩ := h.shows_iff.mp hp
    have hne : p.map fold ≠ p₀ ++ [fold name] := fun hc =>
      hno ((Op.names_iff hop).mpr (hthe.mpr hc))
    refine h'.shows_iff.mpr ⟨j, aux, hleads.mpr (Or.inr ⟨hne, hp⟩), ?_⟩
    rw [hpl.kind_of_leads h ht hi hp₀ hp hne, hk]
  · obtain ⟨rfl, rfl⟩ := Prod.ext_iff.mp (Option.some.inj (hop.symm.trans hop'))
    obtain ⟨w, aux, hiw, hk⟩ := hnew new hw
    have hshows : Shows s' p new :=
      h'.shows_iff.mpr ⟨w, aux, hleads.mpr (Or.inl ⟨hthe.mp hthr, hiw⟩), hk⟩
    exact ⟨fun _ _ => Or.inr hshows, fun _ => Or.inr hshows⟩

/-- The tree `G`, in which the object `i` at `p₀` with the name `fnm` is renamed to
`tnm` at `q₀`, as a power cut may find it: `i` has one of its names, or both. -/
structure Renaming (G Gc : Graph) (p₀ q₀ : List Name) (fnm tnm : Name) (i : Nat) : Prop where
  other : ∀ p j, Leads (Edge G) rootIno p j → p ≠ q₀ ++ [tnm] → ¬ p₀ ++ [fnm] <+: p →
    Leads (Edge Gc) rootIno p j ∧ Gc.kind j = G.kind j
  below : ∀ r j, Leads (Edge G) i r j → (Leads (Edge Gc) rootIno (p₀ ++ fnm :: r) j ∨
    Leads (Edge Gc) rootIno (q₀ ++ tnm :: r) j) ∧ Gc.kind j = G.kind j
  new : Leads (Edge Gc) rootIno (q₀ ++ [tnm]) i

/-- Both names. -/
theorem Moved.renaming_mid {fd td i : Nat} {fnm tnm : Name} {p₀ q₀ : List Name}
    (hmv : Moved G Gm G' fd fnm td tnm i) (h : Movable (Edge G) rootIno fd fnm td tnm i)
    (hp₀ : Leads (Edge G) rootIno p₀ fd) (hq₀ : Leads (Edge G) rootIno q₀ td) :
    Renaming G Gm p₀ q₀ fnm tnm i where
  other p j hp hne _ := by
    rw [hmv.mid, hmv.midKind]
    exact ⟨h.mid_other hq₀ hp hne, rfl⟩
  below r j hr := by
    rw [hmv.mid, hmv.midKind]
    exact ⟨Or.inl (h.mid_old hq₀ hp₀ hr), rfl⟩
  new := by
    rw [hmv.mid]
    exact h.mid_new hq₀

/-- The new name only. -/
theorem Moved.renaming {fd td i : Nat} {fnm tnm : Name} {p₀ q₀ : List Name}
    (hmv : Moved G Gm G' fd fnm td tnm i) (h : Movable (Edge G) rootIno fd fnm td tnm i)
    (hp₀ : Leads (Edge G) rootIno p₀ fd) (hq₀ : Leads (Edge G) rootIno q₀ td) :
    Renaming G G' p₀ q₀ fnm tnm i where
  other p j hp hne hpre := by
    rw [hmv.edge_eq, h.leads_iff hq₀ hp₀]
    refine ⟨Or.inr ⟨hp, fun hc => hne (h.eq_of_prefix hq₀ hp hc), hpre⟩, hmv.kept j fun hc => ?_⟩
    exact hne (hp.unique h.single h.free (hq₀.snoc hc))
  below r j hr := by
    rw [hmv.edge_eq]
    exact ⟨Or.inr (h.leads_new hq₀ hr), hmv.kept j (h.not_target hr)⟩
  new := by
    rw [hmv.edge_eq]
    exact h.leads_new hq₀ (.nil i)

/-- **An object renamed**, wherever it is now. -/
theorem Intact.renaming {fd td i : Nat} {fn tn : Name} {p₀ q₀ : List Name} (h : Holds g G s)
    (h' : Holds g Gc s') (hmv : Moved G Gm G' fd (fold fn) td (fold tn) i)
    (hM : Movable (Edge G) rootIno fd (fold fn) td (fold tn) i)
    (hp₀ : Leads (Edge G) rootIno p₀ fd) (hq₀ : Leads (Edge G) rootIno q₀ td)
    (hren : Renaming G Gc p₀ q₀ (fold fn) (fold tn) i) : Intact s (.rename fd fn td tn) s' := by
  have hwp₀ : walk s rootIno p₀ = .ok fd := by
    rw [h.walk_root, leads_fold hp₀]
    exact hp₀
  have hwq₀ : walk s rootIno q₀ = .ok td := by
    rw [h.walk_root, leads_fold hq₀]
    exact hq₀
  have hfrom : ∀ {p r}, Through s fd fn p r → p.map fold = p₀ ++ fold fn :: r.map fold := by
    intro p r hp
    obtain ⟨p₁, hp₁, heq⟩ := h.through_fold hp
    rw [heq, hp₁.unique hM.single hM.free hp₀]
  have hto : ∀ {p}, Through s td tn p [] → p.map fold = q₀ ++ [fold tn] := by
    intro p hp
    obtain ⟨q₁, hq₁, heq⟩ := h.through_fold hp
    rw [heq, hq₁.unique hM.single hM.free hq₀]
    rfl
  -- what the old name runs through is below the renamed object
  have hbelow : ∀ {p r j}, Through s fd fn p r → Leads (Edge G) rootIno (p.map fold) j →
      Leads (Edge G) i (r.map fold) j := by
    intro p r j hthr hp
    rw [hfrom hthr, Leads.append_iff] at hp
    obtain ⟨v, hv, hr⟩ := hp
    obtain rfl := hv.det hM.det hp₀
    obtain ⟨w, he, hr⟩ := Leads.cons_iff.mp hr
    obtain rfl := hM.det _ _ _ _ he hM.edge
    exact hr
  have hnew : ∀ {r : List Name}, (q₀ ++ tn :: r).map fold = q₀ ++ fold tn :: r.map fold := by
    intro r
    rw [List.map_append, leads_fold hq₀, List.map_cons]
  refine ⟨fun p b hp hno => ?_, fun d name p new hop => absurd hop (by simp [Op.place]),
    fun fd' fn' td' tn' p r hop hthr => ?_, fun fd' fn' td' tn' p old hop hthr hp => ?_,
    fun _ _ _ _ hw he => h'.entries hw he, fun _ _ _ _ hw ht hl => h'.marked hw ht hl⟩
  · obtain ⟨j, aux, hp, hk⟩ := h.shows_iff.mp hp
    have hne : p.map fold ≠ q₀ ++ [fold tn] := fun hc => by
      obtain ⟨r', hr', hthr⟩ := h.through_of_fold hq₀ hc
      rw [List.map_eq_nil_iff.mp hr'] at hthr
      exact hno (Or.inr hthr)
    have hpre : ¬ p₀ ++ [fold fn] <+: p.map fold := fun ⟨r, hr⟩ => by
      obtain ⟨r', -, hthr⟩ := h.through_of_fold hp₀
        (show p.map fold = p₀ ++ fold fn :: r by rw [← hr]; simp)
      exact hno (Or.inl ⟨r', hthr⟩)
    obtain ⟨hp', hk'⟩ := hren.other _ j hp hne hpre
    exact h'.shows_iff.mpr ⟨j, aux, hp', hk'.trans hk⟩
  · obtain ⟨rfl, rfl, rfl, rfl⟩ := Op.rename.inj hop
    constructor
    · intro j hj
      have hp := (h.walk_root p).mp hj
      refine (hren.below _ j (hbelow hthr hp)).1.imp (fun hl => ?_) fun hl => ⟨q₀, hwq₀, ?_⟩
      · rw [h'.walk_root, hfrom hthr]
        exact hl
      · rw [h'.walk_root, hnew]
        exact hl
    · intro b hb
      obtain ⟨j, aux, hp, hk⟩ := h.shows_iff.mp hb
      obtain ⟨hl, hk'⟩ := hren.below _ j (hbelow hthr hp)
      refine hl.imp (fun hl => ?_) fun hl => ⟨q₀, hwq₀, ?_⟩
      · refine h'.shows_iff.mpr ⟨j, aux, ?_, hk'.trans hk⟩
        rw [hfrom hthr]
        exact hl
      · refine h'.shows_iff.mpr ⟨j, aux, ?_, hk'.trans hk⟩
        rw [hnew]
        exact hl
  · obtain ⟨rfl, rfl, rfl, rfl⟩ := Op.rename.inj hop
    obtain ⟨j, aux, hp, -⟩ := h.shows_iff.mp hp
    rw [hto hthr] at hp
    obtain ⟨v, hv, he⟩ := Leads.snoc_iff.mp hp
    obtain rfl := hv.det hM.det hq₀
    -- there is a file in the way, so what is renamed is a file
    obtain ⟨new, aux', hk⟩ : ∃ new aux', G.kind i = some (.file new aux') := by
      obtain ⟨-, o, ho⟩ := h.ok.edge_obj hM.edge
      cases o with
      | file b a => exact ⟨b, a, kind_file_iff.mpr ho⟩
      | dir slots => exact absurd ⟨slots, ho⟩ (hmv.files j he).2
    refine Or.inr ⟨p₀ ++ [fn], new, ⟨p₀, fn, rfl, hwp₀, rfl⟩, h.shows_iff.mpr ⟨i, aux', ?_, hk⟩,
      h'.shows_iff.mpr ⟨i, aux', ?_, (hren.below [] i (.nil i)).2.trans hk⟩⟩
    · rw [List.map_append, leads_fold hp₀]
      exact hp₀.snoc hM.edge
    · rw [hto hthr]
      exact hren.new

end Intact

/-! ## The theorem -/

section Cut

variable {g : Geo} {G Gm G' Gc : Graph} {s s' : St} {op : Op Nat}

/-- What an operation writes, as the tree has it. -/
theorem Settled.content (h : Settled g G s) {b : List UInt8} (hw : op.Writes s b) :
    op.Content G b := by
  cases op with
  | put => exact hw
  | copy src d name now =>
    cases hG : G src with
    | none =>
      have hfree : ((view g s.disk).ino src).type = tFree := by
        by_contra hc
        exact h.exact.full src hc hG
      have hget := hw _ (Nat.le_refl _)
      unfold fileGet at hget
      by_cases hj : src = 0 ∨ g.inode_count ≤ src
      · rw [inoGet_none h.sane hj] at hget
        exact absurd hget (by simp)
      · rw [not_or, not_le] at hj
        rw [inoGet_eq h.sane hj.1 hj.2] at hget
        dsimp only at hget
        rw [if_pos (by rw [hfree]; decide)] at hget
        exact absurd hget (by simp)
    | some o =>
      obtain ⟨aux, hk⟩ := (h.fileGet_iff hG).mp hw
      exact ⟨aux, kind_file_iff.mp hk⟩
  | mkdir | unlink | rename => exact hw.elim

/-- **A change of a tree leaves intact what it should**, wherever a power cut finds it. -/
theorem Change.intact (h : Settled g G s) (hch : Change G op Gm G')
    (hGc : Gc = G ∨ Gc = Gm ∨ Gc = G') (h' : Holds g Gc s') : Intact s op s' := by
  have hh := h.toHolds
  cases hch with
  | none =>
    obtain rfl : Gc = G := by tauto
    exact .same hh h'
  | leaf hop hd hi hleaf hnew hpl =>
    rcases hGc with rfl | rfl | rfl
    · exact .same hh h'
    · exact .same hh h'
    · exact .leaf hh h.tree h' hop hd hi hleaf (fun b hb => hnew b (h.content hb)) hpl
  | move hi htd hself hmv =>
    have hM := h.tree.movable hi hself hmv
    obtain ⟨p₀, hp₀⟩ := h.tree.reach_kind (by rw [kind_dir_iff.mpr hi.isDir]; simp)
    obtain ⟨q₀, hq₀⟩ := h.tree.reach_kind (by rw [kind_dir_iff.mpr htd]; simp)
    rcases hGc with rfl | rfl | rfl
    · exact .same hh h'
    · exact .renaming hh h' hmv hM hp₀ hq₀ (hmv.renaming_mid hM hp₀ hq₀)
    · exact .renaming hh h' hmv hM hp₀ hq₀ (hmv.renaming hM hp₀ hq₀)

end Cut

/-! ## A directory moved into itself -/

theorem dirFindIn_of_empty {b : Block} {es : List Nat} {n : Nat} (h : dirNthIn b es 0 = .inl n)
    (name : Name) : n = 0 ∧ dirFindIn b name es = none := by
  induction es with
  | nil => exact ⟨(Sum.inl.inj h).symm, rfl⟩
  | cons e es ih =>
    unfold dirNthIn at h
    unfold dirFindIn
    by_cases h0 : dentIno b e = 0
    · rw [if_pos h0] at h
      rw [if_neg fun hc => hc.1 h0]
      exact ih h
    · rw [if_neg h0, if_pos rfl] at h
      exact absurd h (by simp)

/-- A directory without entries has no names. -/
theorem dirFindFrom_of_empty {s : St} {t : Ino} {ks : List Nat} (h : dirNthFrom s t ks 0 = some none)
    (name : Name) : dirFindFrom s t name ks = .error .noent := by
  induction ks with
  | nil => rfl
  | cons k ks ih =>
    unfold dirNthFrom at h
    unfold dirFindFrom
    cases hl : dirLoad s t k with
    | error e =>
      rw [hl] at h
      exact absurd h (by simp)
    | ok p =>
      rw [hl] at h
      dsimp only at h ⊢
      cases hn : dirNthIn p.2 (List.range 8) 0 with
      | inr e =>
        rw [hn] at h
        exact absurd h (by simp)
      | inl n =>
        obtain ⟨rfl, hfind⟩ := dirFindIn_of_empty hn name
        rw [hn] at h
        rw [hfind]
        exact ih h

theorem dirLookup_of_empty {s : St} {d : Nat} (h : dirIsEmpty s d = true) (name : Name) :
    ∃ e, dirLookup s d name = .error e := by
  unfold dirIsEmpty at h
  rw [beq_iff_eq] at h
  unfold dirNth at h
  unfold dirLookup dirFind
  cases hg : inoGet s d with
  | none => exact ⟨_, rfl⟩
  | some t =>
    rw [hg] at h
    dsimp only at h ⊢
    by_cases hty : t.type ≠ tDir
    · rw [if_pos hty]
      exact ⟨_, rfl⟩
    · rw [if_neg hty] at h ⊢
      rw [dirFindFrom_of_empty h]
      exact ⟨_, rfl⟩

/-- The volume with one directory `A`, and with `A` moved into itself. -/
def withA : St := ((Op.mkdir 1 [65] 0).run (mkfs (device 64) []).2).2
def withoutA : St := (reopen withA (cut (.rename 1 [65] 3 [65]) withA 4)).2

end Mwfs
