import MiniWin.Mwfs.Run

/-!
# Runs of a volume

A run starts with `mwfs_mkfs` on a device that works and goes on with operations.
`Settled` is the invariant of the runs without power cuts: the volume holds a tree
and nothing besides it. What the tree shows under a path is then what the volume
shows under it (`shows_iff`), and that is how the theorems about runs read.
-/

namespace Mwfs

/-- Every access to the device succeeds. -/
structure Works (s : St) : Prop where
  rd : ∀ l, s.rdOk l = true
  wr : ∀ l, s.wrOk l = true

/-- The volume holds the graph, with a geometry `mwfs_open` accepts. -/
structure Holds (g : Geo) (G : Graph) (s : St) : Prop where
  sane : Sane g s
  geo : geometry g.sectors = some g
  ok : GraphOk g G
  rep : Rep g G (view g s.disk)

/-- The volume holds the tree, and nothing else. -/
structure Settled (g : Geo) (G : Graph) (s : St) : Prop extends Holds g G s where
  tree : Tree g G
  exact : Exact g G (view g s.disk)

/-- The path shows these bytes: it leads to a file, and `mwfs_file_get` gives them. -/
def Shows (s : St) (p : List Name) (bytes : List UInt8) : Prop :=
  ∃ j, walk s rootIno p = .ok j ∧ ∀ max, bytes.length ≤ max → fileGet s j max = .ok bytes

/-- The path leads nowhere. -/
def Absent (s : St) (p : List Name) : Prop := ∀ j, walk s rootIno p ≠ .ok j

/-- The path runs through the name `name` of the directory `d`, and on along `r`. -/
def Through (s : St) (d : Nat) (name : Name) (p r : List Name) : Prop :=
  ∃ q n, p = q ++ n :: r ∧ walk s rootIno q = .ok d ∧ fold n = fold name

/-- A directory is renamed to a name inside itself: the name it is to get is a free
one, and the directory that is to have it is the renamed one or lies below it. -/
def Op.IntoItself (s : St) : Op Nat → Prop
  | .rename fd fn td tn => ∃ i, walk s fd [fn] = .ok i ∧ (∃ p, walk s i p = .ok td) ∧
      nameOk tn = true ∧ dirLookup s td tn = .error .noent
  | _ => False

/-- The volumes that `mwfs_mkfs` and completed operations lead to, where each
operation meets `C`. -/
inductive Reached (C : Op Nat → St → Prop) : St → Prop
  | mkfs {s s' : St} {label : Name} (hw : Works s) (hn : s.vol.sectors < 4294967296)
    (h : mkfs s label = (.ok, s')) : Reached C s'
  | run {s : St} {op : Op Nat} (h : Reached C s) (hC : C op s) : Reached C (op.run s).2

/-- A volume of `n` sectors before it is formatted. -/
def unformatted (n : Nat) : Vol where
  toGeo := ⟨n, 0, 0, 0, 0, 0, 0⟩
  used := true
  dev := 0
  base := 0
  cur_blk := 0
  cur_ino := 0
  id := []
  label := []

/-- A device of `n` zeroed sectors. -/
def device (n : Nat) : St where
  vol := unformatted n
  tape := ⟨fun _ => Block.zero, []⟩
  rdOk _ := true
  wrOk _ := true

theorem Reached.device {C : Op Nat → St → Prop} {n : Nat} (hn : n < 4294967296)
    (h : (Mwfs.mkfs (device n) []).1 = .ok) : Reached C (Mwfs.mkfs (device n) []).2 :=
  have hmk : Mwfs.mkfs (Mwfs.device n) [] = (.ok, (Mwfs.mkfs (Mwfs.device n) []).2) := Prod.ext h rfl
  .mkfs ⟨fun _ => rfl, fun _ => rfl⟩ hn hmk

/-! ## Paths of a tree -/

theorem fold_fold (n : Name) : fold (fold n) = fold n := by
  unfold fold
  rw [List.map_map]
  exact List.map_congr_left fun c _ => up_up c

section Paths

variable {g : Geo} {G G' : Graph} {s : St} {i j : Nat}

/-- The labels of a path are folded already. -/
theorem leads_fold {p : List Name} (h : Leads (Edge G) i p j) : p.map fold = p := by
  induction h with
  | nil => rfl
  | cons he _ ih =>
    obtain ⟨e, -, hn, -⟩ := he
    rw [List.map_cons, ih, ← hn, fold_fold]

namespace Holds

variable (h : Holds g G s)

include h

theorem walk_root (p : List Name) :
    walk s rootIno p = .ok j ↔ Leads (Edge G) rootIno (p.map fold) j := by
  obtain ⟨slots, hsl⟩ := h.ok.root
  exact walk_iff h.sane h.ok h.rep hsl p

/-- What a path from the root leads to is an object. -/
theorem obj_of_leads {p : List Name} (hp : Leads (Edge G) rootIno p j) : ∃ o, G j = some o := by
  obtain ⟨slots, hsl⟩ := h.ok.root
  exact h.ok.leads_obj hp hsl

theorem fileGet_iff {bytes : List UInt8} {o : Obj} (hj : G j = some o) :
    (∀ max, bytes.length ≤ max → fileGet s j max = .ok bytes)
      ↔ ∃ aux, G.kind j = some (.file bytes aux) := by
  cases o with
  | file b aux =>
    have hget := fileGet_spec h.sane h.ok h.rep hj
    constructor
    · intro hall
      have hb := hall (max bytes.length b.length) (Nat.le_max_left _ _)
      rw [hget, if_neg (by omega)] at hb
      obtain rfl := Except.ok.inj hb
      exact ⟨aux, kind_file_iff.mpr hj⟩
    · rintro ⟨aux', hk⟩ max hmax
      rw [kind_file_iff, hj] at hk
      obtain ⟨rfl, rfl⟩ := Obj.file.inj (Option.some.inj hk)
      rw [hget, if_neg (by omega)]
  | dir slots =>
    constructor
    · intro hall
      have hb := hall _ (Nat.le_refl _)
      rw [fileGet_dir h.sane h.ok h.rep hj] at hb
      exact absurd hb (by simp)
    · rintro ⟨aux, hk⟩
      rw [kind_file_iff, hj] at hk
      exact absurd hk (by simp)

/-- **What a path shows** is the file the tree has there. -/
theorem shows_iff {p : List Name} {bytes : List UInt8} :
    Shows s p bytes ↔ ∃ j aux, Leads (Edge G) rootIno (p.map fold) j ∧
      G.kind j = some (.file bytes aux) := by
  constructor
  · rintro ⟨j, hw, hget⟩
    have hp := (h.walk_root p).mp hw
    obtain ⟨o, ho⟩ := h.obj_of_leads hp
    obtain ⟨aux, hk⟩ := (h.fileGet_iff ho).mp hget
    exact ⟨j, aux, hp, hk⟩
  · rintro ⟨j, aux, hp, hk⟩
    obtain ⟨o, ho⟩ := h.obj_of_leads hp
    exact ⟨j, (h.walk_root p).mpr hp, (h.fileGet_iff ho).mpr ⟨aux, hk⟩⟩

theorem absent_iff {p : List Name} :
    Absent s p ↔ ∀ j, ¬ Leads (Edge G) rootIno (p.map fold) j := by
  unfold Absent
  simp only [ne_eq, h.walk_root]

/-- A path that runs through a name, as the tree has it. -/
theorem through_fold {d : Nat} {name : Name} {p r : List Name} (hp : Through s d name p r) :
    ∃ p₀, Leads (Edge G) rootIno p₀ d ∧ p.map fold = p₀ ++ fold name :: r.map fold := by
  obtain ⟨q, n, rfl, hq, hn⟩ := hp
  exact ⟨_, (h.walk_root q).mp hq, by rw [List.map_append, List.map_cons, hn]⟩

theorem through_of_fold {d : Nat} {name : Name} {p p₀ r : List Name}
    (hp₀ : Leads (Edge G) rootIno p₀ d) (hp : p.map fold = p₀ ++ fold name :: r) :
    ∃ r', r'.map fold = r ∧ Through s d name p r' := by
  obtain ⟨q, r', rfl, hq, hr⟩ := List.map_eq_append_iff.mp hp
  obtain ⟨n, r'', rfl, hn, hr''⟩ := List.map_eq_cons_iff.mp hr
  exact ⟨r'', hr'', q, n, rfl, (h.walk_root q).mpr (by rw [hq]; exact hp₀), hn⟩

/-- A directory that is below what is moved to it would be inside itself. -/
theorem not_below {Gm : Graph} {fd td : Nat} {fn tn : Name}
    (hi : Edge G fd (fold fn) i) (hname : nameOk tn = true) (htd : IsDir G td)
    (hmv : Moved G Gm G' fd (fold fn) td (fold tn) i)
    (hC : ¬ (Op.rename fd fn td tn).IntoItself s) : ¬ Below (Edge G) i td := by
  rintro ⟨p, hp⟩
  obtain ⟨slots, hsl⟩ := htd
  obtain ⟨fsl, hfsl⟩ := hi.isDir
  obtain ⟨-, o, ho⟩ := h.ok.edge_obj hi
  obtain ⟨ht0, htlt⟩ := h.ok.bound td _ hsl
  -- what is moved is a directory, and so nothing has the new name
  have hdir : IsDir G i := by
    cases hp with
    | nil => exact ⟨slots, hsl⟩
    | cons he _ => exact he.isDir
  have hno : ∀ j, ¬ Edge G td (fold tn) j := fun j hj => (hmv.files j hj).2 hdir
  refine hC ⟨i, ?_, ⟨p, ?_⟩, hname, ?_⟩
  · rw [walk_iff h.sane h.ok h.rep hfsl]
    exact .cons hi (.nil i)
  · rw [walk_iff h.sane h.ok h.rep ho, leads_fold hp]
    exact hp
  · rcases dirLookup_spec h.sane h.rep hsl ht0 htlt tn with ⟨hr, -⟩ | ⟨e, hm, hn, -⟩
    · exact hr
    · exact absurd ⟨e, entry_of_mem hsl hm, hn, rfl⟩ (hno e.ino)

end Holds

end Paths

/-! ## What an operation does to the paths of a tree -/

/-- The name an operation is about, renames apart. -/
def Op.place : Op Nat → Option (Nat × Name)
  | .put dir name _ _ _ | .copy _ dir name _ | .mkdir dir name _ | .unlink dir name =>
    some (dir, name)
  | .rename _ _ _ _ => none

/-- The bytes an operation gives to the file it makes. -/
def Op.Content (G : Graph) : Op Nat → List UInt8 → Prop
  | .put _ _ data _ _, b => b = data
  | .copy src _ _ _, b => ∃ aux, G src = some (.file b aux)
  | _, _ => False

/-- The change of a tree: none; one name that leads to something else; or an object
moved, by way of `Gm`. -/
inductive Change (G : Graph) : Op Nat → Graph → Graph → Prop
  | none {op} : Change G op G G
  | leaf {op d name i G'} (hop : op.place = some (d, name)) (hd : IsDir G d)
    (hi : ∀ w, i = some w → G w = Option.none)
    (hleaf : ∀ j, Edge G d (fold name) j → ∀ n k, ¬ Edge G j n k)
    (hnew : ∀ b, op.Content G b → ∃ w aux, i = some w ∧ G'.kind w = some (.file b aux))
    (h : Placed G G' d (fold name) i) : Change G op G G'
  | move {fd fn td tn i Gm G'} (hi : Edge G fd (fold fn) i) (htd : IsDir G td)
    (hself : ¬ Below (Edge G) i td) (h : Moved G Gm G' fd (fold fn) td (fold tn) i) :
    Change G (.rename fd fn td tn) Gm G'

section Settled

variable {g : Geo} {G Gm G' : Graph} {s : St} {op : Op Nat}

/-- **What is done to a tree is a change of it**, and leaves a tree. -/
theorem Did.change (h : Holds g G s) (ht : Tree g G) (hC : ¬ op.IntoItself s)
    (hdid : Did g G op Gm G') : Change G op Gm G' ∧ GraphOk g Gm ∧ Tree g G' := by
  cases hdid with
  | put hd hname hmade =>
    obtain ⟨i, hi, -, -, hplaced, hkind, hfile⟩ := hmade.placed h.ok
    have hnone : ∀ w, some i = some w → G w = none := fun w hw => Option.some.inj hw ▸ hi
    have hleaf := fun j hj => edge_stop (hfile j hj)
    refine ⟨.leaf rfl hd hnone hleaf ?_ hplaced, h.ok, ht.of_placed (hmade.ok h.ok hname
      (ht.sole _ _)) hd hleaf hnone hplaced⟩
    rintro b rfl
    exact ⟨i, _, rfl, hkind⟩
  | copy hsrc hd hname hmade =>
    obtain ⟨i, hi, -, -, hplaced, hkind, hfile⟩ := hmade.placed h.ok
    have hnone : ∀ w, some i = some w → G w = none := fun w hw => Option.some.inj hw ▸ hi
    have hleaf := fun j hj => edge_stop (hfile j hj)
    refine ⟨.leaf rfl hd hnone hleaf ?_ hplaced, h.ok, ht.of_placed (hmade.ok h.ok hname
      (ht.sole _ _)) hd hleaf hnone hplaced⟩
    rintro b ⟨aux, hb⟩
    obtain ⟨rfl, rfl⟩ := Obj.file.inj (Option.some.inj (hb.symm.trans hsrc))
    exact ⟨i, _, rfl, hkind⟩
  | mkdir hd hname hmade =>
    obtain ⟨i, hi, -, -, hplaced, hkind, hno⟩ := hmade.placed h.ok
    have hnone : ∀ w, some i = some w → G w = none := fun w hw => Option.some.inj hw ▸ hi
    have hleaf : ∀ j, Edge G _ (fold _) j → ∀ n k, ¬ Edge G j n k := fun j hj => absurd hj (hno j)
    exact ⟨.leaf rfl hd hnone hleaf (fun b hb => hb.elim) hplaced, h.ok, ht.of_placed (hmade.ok h.ok
      hname) hd hleaf hnone hplaced⟩
  | unlink hn hun =>
    obtain ⟨hplaced, hedge, hstop⟩ := hun.placed h.ok hn
    have hnone : ∀ w, none = some w → G w = none := fun w hw => absurd hw (by simp)
    have hleaf : ∀ j, Edge G _ (fold _) j → ∀ n k, ¬ Edge G j n k := fun j hj =>
      h.ok.edge_det hj hedge ▸ hstop
    exact ⟨.leaf rfl hedge.isDir hnone hleaf (fun b hb => hb.elim) hplaced, h.ok, ht.of_placed
      (hun.ok h.ok hn (ht.sole _ _)) hedge.isDir hleaf hnone hplaced⟩
  | rename hfd htd hname hren =>
    obtain ⟨hokm, i, hi, ⟨rfl, rfl, -⟩ | hmv⟩ := hren.moved h.ok hname
    · exact ⟨.none, h.ok, ht⟩
    · have hself := h.not_below hi hname htd hmv hC
      exact ⟨.move hi htd hself hmv, hokm, ht.of_moved (hren.ok h.ok hname fun _ => ht.sole _ _)
        hi htd hself hmv⟩

/-- **One operation of a run**, and what a power cut finds on the way. -/
theorem Settled.step (h : Settled g G s) (hC : ¬ op.IntoItself s) :
    ∃ Gm G', Ran g G op s (op.run s).1 (op.run s).2 Gm G' ∧ Change G op Gm G' ∧ GraphOk g Gm ∧
      Settled g G' (op.run s).2 := by
  have harg : ∀ d ∈ op.args, G d ≠ none ∨ ((view g s.disk).ino d).type = tFree := by
    intro d _
    by_cases hfree : ((view g s.disk).ino d).type = tFree
    · exact Or.inr hfree
    · exact Or.inl (h.exact.full d hfree)
  obtain ⟨Gm, G', hran⟩ := op.run_spec h.sane h.ok h.rep harg
  refine ⟨Gm, G', hran, ?_⟩
  rcases hran.result with ⟨-, hdid⟩ | ⟨rfl, rfl, -⟩
  · obtain ⟨hch, hokm, ht'⟩ := hdid.change h.toHolds h.tree hC
    exact ⟨hch, hokm, ⟨hran.sane, h.geo, ht'.ok, hran.rep⟩, ht', hran.exact h.exact⟩
  · exact ⟨.none, h.ok, ⟨hran.sane, h.geo, h.ok, hran.rep⟩, h.tree, hran.exact h.exact⟩

/-! ## Runs -/

theorem emptyGraph_tree (hg : g.Ok) : Tree g emptyGraph := by
  have hok := emptyGraph_ok hg
  have hno : ∀ d n k, ¬ Edge emptyGraph d n k := by
    rintro d n k ⟨e, ⟨slots, hd, hm⟩, -⟩
    unfold emptyGraph at hd
    split at hd
    · obtain rfl := Obj.dir.inj (Option.some.inj hd)
      exact absurd hm (by simp [ents])
    · exact absurd hd (by simp)
  refine ⟨hok, fun x l y x' l' h => absurd h (hno _ _ _), fun j o hj => ?_⟩
  unfold emptyGraph at hj
  split at hj
  · next hroot => exact hroot ▸ ⟨[], .nil _⟩
  · exact absurd hj (by simp)

/-- A formatted volume. -/
theorem settled_mkfs {s s' : St} {label : Name} (hw : Works s) (hn : s.vol.sectors < 4294967296)
    (hmk : mkfs s label = (.ok, s')) :
    ∃ g, g.sectors = s.vol.sectors ∧ Settled g emptyGraph s' := by
  cases hgeo : geometry s.vol.sectors with
  | none =>
    unfold mkfs at hmk
    rw [hgeo] at hmk
    exact absurd (congrArg Prod.fst hmk) (by simp)
  | some g =>
    obtain ⟨hg, hsec⟩ := geometry_ok hn hgeo
    obtain ⟨s'', hmk', hsane, hrep, hex⟩ := mkfs_spec hw.rd hw.wr hn hgeo label
    obtain rfl := (Prod.ext_iff.mp (hmk.symm.trans hmk')).2
    exact ⟨g, hsec, ⟨hsane, by rw [hsec]; exact hgeo, emptyGraph_ok hg, hrep⟩, emptyGraph_tree hg,
      hex⟩

/-- **Every run without a directory moved into itself leads to a tree.** -/
theorem Reached.settled (h : Reached (fun op s => ¬ op.IntoItself s) s) :
    ∃ g G, Settled g G s := by
  induction h with
  | mkfs hw hn hmk =>
    obtain ⟨g, -, hset⟩ := settled_mkfs hw hn hmk
    exact ⟨g, _, hset⟩
  | run _ hC ih =>
    obtain ⟨g, G, hset⟩ := ih
    obtain ⟨Gm, G', -, -, -, hset'⟩ := hset.step hC
    exact ⟨g, G', hset'⟩

end Settled

/-! ## Power cuts -/

/-- What the disk holds when the power goes after the first `k` sector writes of an
operation. -/
def cut (op : Op Nat) (s : St) (k : Nat) : Nat → Block :=
  playWrites s.disk (((op.run s).2.tape.log.drop s.tape.log.length).take k)

/-- The volume opened again, from what the disk holds. -/
def reopen (s : St) (d : Nat → Block) : Err × St := openVol { s with tape := ⟨d, []⟩ }

/-- A disk that holds a graph in order is opened. -/
theorem Holds.reopen {g : Geo} {G Gc : Graph} {s : St} (h : Holds g G s) (hok : GraphOk g Gc)
    {d : Nat → Block} (hrep : Rep g Gc (view g d)) :
    ∃ s', Mwfs.reopen s d = (.ok, s') ∧ Holds g Gc s' := by
  have hs := h.sane
  obtain ⟨s', hs', hsane, htape, -⟩ := openVol_spec (s := { s with tape := ⟨d, []⟩ }) hs.ok h.geo
    (le_of_eq (congrArg Geo.sectors hs.geo).symm) hs.rd hs.wr hrep hok.root
  refine ⟨s', hs', hsane, h.geo, hok, ?_⟩
  rw [show s'.disk = d from congrArg Tape.store htape]
  exact hrep

/-- **What is found after a power cut** is one of the graphs of the operation. -/
theorem Ran.reopen {g : Geo} {G Gm G' : Graph} {op : Op Nat} {s : St} {r : Err} (h : Holds g G s)
    (hran : Ran g G op s r (op.run s).2 Gm G') (hokm : GraphOk g Gm) (hok' : GraphOk g G') (k : Nat) :
    ∃ s' Gc, Mwfs.reopen s (cut op s k) = (.ok, s') ∧ (Gc = G ∨ Gc = Gm ∨ Gc = G') ∧
      Holds g Gc s' := by
  rcases hran.via.cut k with hrep | hrep | hrep
  · obtain ⟨s', hs', hh⟩ := h.reopen h.ok hrep
    exact ⟨s', G, hs', Or.inl rfl, hh⟩
  · obtain ⟨s', hs', hh⟩ := h.reopen hokm hrep
    exact ⟨s', Gm, hs', Or.inr (Or.inl rfl), hh⟩
  · obtain ⟨s', hs', hh⟩ := h.reopen hok' hrep
    exact ⟨s', G', hs', Or.inr (Or.inr rfl), hh⟩

end Mwfs
