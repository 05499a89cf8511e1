import MiniWin.Mwfs.PowerCut

/-!
# Histories with power cuts

A history interleaves operations with power cuts, and nothing is checked or repaired
in between. An interrupted rename leaves an object with two names, and an interrupted
release an inode that nothing leads to. The former is what does harm: when one of two
names is taken away, the object is released under the other. Where no operation does
that (`Op.Shared`), the files of a history stay apart.

A call finds its directories by their paths, one `mwfs_dir_lookup` after the other
from the root: no inode number outlives a power cut.
-/

namespace Mwfs

/-! ## Calls -/

/-- The operation with its directories, and the source of a copy, looked up by `f`. -/
def Op.mapM {D E : Type} (f : D → Except Err E) : Op D → Except Err (Op E)
  | .put p name data aux now => (f p).map fun d => .put d name data aux now
  | .copy src p name now => (f src).bind fun i => (f p).map fun d => .copy i d name now
  | .mkdir p name now => (f p).map fun d => .mkdir d name now
  | .unlink p name => (f p).map fun d => .unlink d name
  | .rename fp fn tp tn => (f fp).bind fun fd => (f tp).map fun td => .rename fd fn td tn

/-- The inode numbers behind the paths of an operation. -/
def Op.resolve (s : St) (op : Op (List Name)) : Except Err (Op Nat) := op.mapM (walk s rootIno)

/-- A call: its paths are resolved, and the operation runs. -/
def Op.call (op : Op (List Name)) (s : St) : Err × St :=
  match op.resolve s with
  | .error e => (e, s)
  | .ok op => op.run s

/-- The operation takes the name `name` of `d` away from the inode `i` and releases it. -/
def Op.Releases (s : St) (op : Op Nat) (d : Nat) (name : Name) (i : Nat) : Prop :=
  match op with
  | .put d' name' _ _ _ | .copy _ d' name' _ =>
    d = d' ∧ name = name' ∧ nameOk name = true ∧ dirLookup s d name = .ok (i, tFile)
  | .mkdir _ _ _ => False
  | .unlink d' name' => d = d' ∧ name = name' ∧
    ∃ t, dirLookup s d name = .ok (i, t) ∧ (t = tDir → dirIsEmpty s i = true)
  | .rename fd fn td tn => d = td ∧ name = tn ∧ nameOk name = true ∧
    dirLookup s d name = .ok (i, tFile) ∧ ∃ j, dirLookup s fd fn = .ok (j, tFile) ∧ j ≠ i

/-- An inode that the operation releases has a second name, which the root leads to. -/
def Op.Shared (s : St) (op : Op Nat) : Prop :=
  ∃ d name i, op.Releases s d name i ∧ ∃ q x n t, walk s rootIno q = .ok x ∧
    dirLookup s x n = .ok (i, t) ∧ ¬(x = d ∧ fold n = fold name)

/-- The operation is about this name. -/
def Op.On (op : Op Nat) (x : Nat) (n : Name) : Prop :=
  match op with
  | .put d name _ _ _ | .copy _ d name _ | .mkdir d name _ | .unlink d name =>
    x = d ∧ fold n = fold name
  | .rename fd fn td tn => (x = fd ∧ fold n = fold fn) ∨ (x = td ∧ fold n = fold tn)

/-- The name `n` of the directory `x` shows these bytes. -/
def ShowsAt (s : St) (x : Nat) (n : Name) (bytes : List UInt8) : Prop :=
  ∃ j t, dirLookup s x n = .ok (j, t) ∧ ∀ max, bytes.length ≤ max → fileGet s j max = .ok bytes

/-- What the root leads to and the operation is not about shows in `s'` what it shows
in `s`. -/
def Apart (s : St) (op : Op Nat) (s' : St) : Prop :=
  ∀ q x n bytes, walk s rootIno q = .ok x → ShowsAt s x n bytes → ¬ op.On x n →
    ShowsAt s' x n bytes

/-- The volumes that `mwfs_mkfs`, calls and power cuts lead to, where each operation,
cut short or not, meets `C`. -/
inductive History (C : Op Nat → St → Prop) : St → Prop
  | mkfs {s s' : St} {label : Name} (hw : Works s) (hn : s.vol.sectors < 4294967296)
    (h : mkfs s label = (.ok, s')) : History C s'
  | call {s : St} {op : Op (List Name)} (h : History C s)
    (hC : ∀ op', op.resolve s = .ok op' → C op' s) : History C (op.call s).2
  | cut {s s' : St} {op : Op (List Name)} {op' : Op Nat} {k : Nat} (h : History C s)
    (hop : op.resolve s = .ok op') (hC : C op' s) (hs' : reopen s (cut op' s k) = (.ok, s')) :
    History C s'

/-! ## What is reachable -/

/-- The volume holds the graph, and all of it hangs from the root. -/
structure Rooted (g : Geo) (G : Graph) (s : St) : Prop extends Holds g G s where
  reach : ∀ j o, G j = some o → Below (Edge G) rootIno j

section Live

variable {g : Geo} {G : Graph} {s : St}

open Classical in
/-- The part of a graph that the root leads to. -/
noncomputable def Graph.live (G : Graph) : Graph := fun j =>
  if Below (Edge G) rootIno j then G j else none

theorem Graph.live_sub (G : Graph) : G.live.Sub G := by
  intro j o hj
  unfold live at hj
  split at hj
  · exact hj
  · exact absurd hj (by simp)

theorem Graph.live_eq {j : Nat} (h : Below (Edge G) rootIno j) : G.live j = G j := if_pos h

theorem Graph.below_of_live {j : Nat} {o : Obj} (h : G.live j = some o) :
    Below (Edge G) rootIno j := by
  by_contra hc
  unfold live at h
  rw [if_neg hc] at h
  exact absurd h (by simp)

theorem entry_live {d : Nat} {e : Dent} :
    Entry G.live d e ↔ Below (Edge G) rootIno d ∧ Entry G d e := by
  constructor
  · rintro ⟨slots, hd, hm⟩
    exact ⟨Graph.below_of_live hd, slots, G.live_sub d _ hd, hm⟩
  · rintro ⟨hb, slots, hd, hm⟩
    exact ⟨slots, (Graph.live_eq hb).trans hd, hm⟩

/-- What is below the root stays below it. -/
theorem below_live {j : Nat} (h : Below (Edge G) rootIno j) : Below (Edge G.live) rootIno j := by
  obtain ⟨p, hp⟩ := h
  induction p using List.reverseRecOn generalizing j with
  | nil => exact ⟨[], Leads.nil_iff.mpr (Leads.nil_iff.mp hp)⟩
  | append_singleton p n ih =>
    obtain ⟨x, hx, e, he, hn, hj⟩ := Leads.snoc_iff.mp hp
    obtain ⟨q, hq⟩ := ih hx
    exact ⟨q ++ [n], hq.snoc ⟨e, entry_live.mpr ⟨⟨p, hx⟩, he⟩, hn, hj⟩⟩

/-- **The reachable part of what a volume holds.** -/
theorem Holds.live (h : Holds g G s) : Rooted g G.live s where
  sane := h.sane
  geo := h.geo
  rep := h.rep.mono G.live_sub
  ok := by
    have hroot : Below (Edge G) rootIno rootIno := ⟨[], .nil _⟩
    refine ⟨?_, fun j o hj => h.ok.bound j o (G.live_sub j o hj), fun d e he => ?_,
      fun d e he => h.ok.name d e (entry_live.mp he).2, fun d slots hd =>
      h.ok.names d slots (G.live_sub d _ hd)⟩
    · obtain ⟨slots, hsl⟩ := h.ok.root
      exact ⟨slots, (Graph.live_eq hroot).trans hsl⟩
    · obtain ⟨⟨p, hp⟩, he'⟩ := entry_live.mp he
      obtain ⟨hr, o, ho, hty⟩ := h.ok.entry d e he'
      exact ⟨hr, o, (Graph.live_eq ⟨_, hp.snoc he'.edge⟩).trans ho, hty⟩
  reach j o hj := below_live (Graph.below_of_live hj)

theorem Settled.rooted (h : Settled g G s) : Rooted g G s := ⟨h.toHolds, h.tree.reach⟩

end Live

/-! ## One step of a history -/

section Step

variable {g : Geo} {G Gm G' : Graph} {s : St} {op : Op Nat}

theorem map_eq_ok {α β : Type} {x : Except Err α} {f : α → β} {b : β} (h : x.map f = .ok b) :
    ∃ a, x = .ok a ∧ f a = b := by
  cases x with
  | error e => exact absurd h (by simp [Except.map])
  | ok a => exact ⟨a, rfl, Except.ok.inj h⟩

theorem bind_eq_ok {α β : Type} {x : Except Err α} {f : α → Except Err β} {b : β}
    (h : x.bind f = .ok b) : ∃ a, x = .ok a ∧ f a = .ok b := by
  cases x with
  | error e => exact absurd h (by simp [Except.bind])
  | ok a => exact ⟨a, rfl, h⟩

/-- The arguments of an operation have been looked up. -/
theorem Op.mapM_args {D : Type} {f : D → Except Err Nat} {op : Op D} {op' : Op Nat}
    (h : op.mapM f = .ok op') : ∀ d ∈ op'.args, ∃ p, f p = .ok d := by
  cases op with
  | put p =>
    obtain ⟨d, hd, rfl⟩ := map_eq_ok h
    simpa [args, dirs] using ⟨p, hd⟩
  | copy src p =>
    obtain ⟨i, hi, h⟩ := bind_eq_ok h
    obtain ⟨d, hd, rfl⟩ := map_eq_ok h
    simpa [args] using ⟨⟨src, hi⟩, p, hd⟩
  | mkdir p =>
    obtain ⟨d, hd, rfl⟩ := map_eq_ok h
    simpa [args, dirs] using ⟨p, hd⟩
  | unlink p =>
    obtain ⟨d, hd, rfl⟩ := map_eq_ok h
    simpa [args, dirs] using ⟨p, hd⟩
  | rename fp fn tp =>
    obtain ⟨fd, hfd, h⟩ := bind_eq_ok h
    obtain ⟨td, htd, rfl⟩ := map_eq_ok h
    simpa [args, dirs] using ⟨⟨fp, hfd⟩, tp, htd⟩

/-- The arguments of a call are objects. -/
theorem Holds.resolve_args (h : Holds g G s) {call : Op (List Name)} (hop : call.resolve s = .ok op) :
    ∀ d ∈ op.args, G d ≠ none := by
  intro d hd
  obtain ⟨p, hp⟩ := Op.mapM_args hop d hd
  obtain ⟨o, ho⟩ := h.obj_of_leads ((h.walk_root p).mp hp)
  rw [ho]
  simp

/-- The edge behind a name that is looked up. -/
theorem Holds.lookup_iff (h : Holds g G s) {d i t : Nat} {name : Name} (hd : IsDir G d) :
    dirLookup s d name = .ok (i, t) ↔ ∃ e, Entry G d e ∧ fold e.name = fold name ∧ e.ino = i ∧
      e.type = t := by
  obtain ⟨slots, hsl⟩ := hd
  obtain ⟨hd0, hdlt⟩ := h.ok.bound d _ hsl
  rcases dirLookup_spec h.sane h.rep hsl hd0 hdlt name with ⟨hr, hno⟩ | ⟨e, hm, hn, hr⟩
  · rw [hr]
    refine ⟨fun hc => absurd hc (by simp), ?_⟩
    rintro ⟨e, he, hn, -⟩
    exact absurd hn (hno e (mem_of_entry hsl he))
  · rw [hr, Except.ok.injEq, Prod.mk.injEq]
    constructor
    · exact fun hc => ⟨e, entry_of_mem hsl hm, hn, hc⟩
    · rintro ⟨e', he', hn', hc⟩
      rwa [h.ok.inj he' (entry_of_mem hsl hm) (hn'.trans hn.symm)] at hc

/-- A name shows a file that the graph has there. -/
theorem Holds.showsAt_iff (h : Holds g G s) {x : Nat} (hx : IsDir G x) {n : Name}
    {bytes : List UInt8} :
    ShowsAt s x n bytes ↔ ∃ j aux, Edge G x (fold n) j ∧ G.kind j = some (.file bytes aux) := by
  constructor
  · rintro ⟨j, t, hl, hget⟩
    obtain ⟨e, he, hn, rfl, -⟩ := (h.lookup_iff hx).mp hl
    obtain ⟨-, o, ho, -⟩ := h.ok.entry x e he
    obtain ⟨aux, hk⟩ := (h.fileGet_iff ho).mp hget
    exact ⟨_, aux, ⟨e, he, hn, rfl⟩, hk⟩
  · rintro ⟨j, aux, ⟨e, he, hn, rfl⟩, hk⟩
    obtain ⟨-, o, ho, -⟩ := h.ok.entry x e he
    exact ⟨_, _, (h.lookup_iff hx).mpr ⟨e, he, hn, rfl, rfl⟩, (h.fileGet_iff ho).mpr ⟨aux, hk⟩⟩

/-- **Nothing shared.** Where an operation releases no inode with a second name, a
name it takes away is the object's only one. -/
theorem Rooted.sole (h : Rooted g G s) (hC : ¬ op.Shared s) {d : Nat} {name : Name}
    (hrel : ∀ i, Edge G d (fold name) i → op.Releases s d name i) : Sole G d (fold name) := by
  intro j hj x n hx
  obtain ⟨slots, hsl⟩ := hx.1.isDir
  obtain ⟨q, hq⟩ := h.reach x _ hsl
  obtain ⟨e, he, rfl, hei⟩ := hx.1
  refine hC ⟨d, name, j, hrel j hj, q, x, e.name, e.type, ?_, ?_, fun hc => hx.2 hc⟩
  · rw [h.walk_root, leads_fold hq]
    exact hq
  · exact (h.lookup_iff ⟨slots, hsl⟩).mpr ⟨e, he, rfl, hei, rfl⟩

/-- What a name of a file is looked up as. -/
theorem Holds.lookup_file (h : Holds g G s) {d j : Nat} {name : Name} (hj : Edge G d (fold name) j)
    (hfile : ¬ IsDir G j) : dirLookup s d name = .ok (j, tFile) := by
  obtain ⟨e, he, hn, rfl⟩ := hj
  refine (h.lookup_iff he.isDir).mpr ⟨e, he, hn, rfl, ?_⟩
  obtain ⟨-, o, ho, hty⟩ := h.ok.entry d e he
  cases o with
  | file b a => exact hty.symm
  | dir slots => exact absurd ⟨slots, ho⟩ hfile

/-- The edge and the file behind a name are as they were. -/
def SameName (G Gc : Graph) (x : Nat) (n : Name) : Prop :=
  ∀ j, Edge G x n j → Edge Gc x n j ∧ Gc.kind j = G.kind j

theorem Placed.sameName {d x : Nat} {nm n : Name} {i : Option Nat} (h : Placed G G' d nm i)
    (hok : GraphOk g G) (hi : ∀ w, i = some w → G w = none) (hsole : Sole G d nm)
    (hne : ¬(x = d ∧ n = nm)) : SameName G G' x n := by
  intro j hj
  rw [h.edge]
  refine ⟨Or.inl ⟨hj, hne⟩, h.kept j (fun hc => ?_) fun hc => hsole j hc x n ⟨hj, hne⟩⟩
  obtain ⟨-, o, ho⟩ := hok.edge_obj hj
  rw [hi j hc] at ho
  exact absurd ho (by simp)

theorem Moved.sameName {fd td i x : Nat} {fnm tnm n : Name} (h : Moved G Gm G' fd fnm td tnm i)
    (hsole : Sole G td tnm) (hne : ¬(x = td ∧ n = tnm)) (hne' : ¬(x = fd ∧ n = fnm)) :
    SameName G Gm x n ∧ SameName G G' x n := by
  have hmid : ∀ j, Edge G x n j → Edge Gm x n j := fun j hj => by
    rw [h.mid]
    exact Or.inl ⟨hj, hne⟩
  refine ⟨fun j hj => ⟨hmid j hj, by rw [h.midKind]⟩, fun j hj => ⟨?_, ?_⟩⟩
  · rw [h.edge]
    exact Or.inl ⟨hmid j hj, hne'⟩
  · exact h.kept j fun hc => hsole j hc x n ⟨hj, hne⟩

/-- **What an operation does to the names it is not about**: nothing. -/
theorem Did.sameName (h : Rooted g G s) (hC : ¬ op.Shared s) (hdid : Did g G op Gm G') :
    GraphOk g Gm ∧ GraphOk g G' ∧
      ∀ x n, ¬ op.On x n → SameName G Gm x (fold n) ∧ SameName G G' x (fold n) := by
  have hok := h.ok
  have hrefl : ∀ x n, SameName G G x n := fun x n j hj => ⟨hj, rfl⟩
  cases hdid with
  | put hd hname hmade =>
    obtain ⟨i, hi, -, -, hpl, -, hfile⟩ := hmade.placed hok
    have hsole := h.sole hC fun j hj => ⟨rfl, rfl, hname, h.lookup_file hj (hfile j hj)⟩
    exact ⟨hok, hmade.ok hok hname hsole, fun x n hno => ⟨hrefl _ _, hpl.sameName hok
      (fun w hw => Option.some.inj hw ▸ hi) hsole hno⟩⟩
  | copy hsrc hd hname hmade =>
    obtain ⟨i, hi, -, -, hpl, -, hfile⟩ := hmade.placed hok
    have hsole := h.sole hC fun j hj => ⟨rfl, rfl, hname, h.lookup_file hj (hfile j hj)⟩
    exact ⟨hok, hmade.ok hok hname hsole, fun x n hno => ⟨hrefl _ _, hpl.sameName hok
      (fun w hw => Option.some.inj hw ▸ hi) hsole hno⟩⟩
  | mkdir hd hname hmade =>
    obtain ⟨i, hi, -, -, hpl, -, hno'⟩ := hmade.placed hok
    exact ⟨hok, hmade.ok hok hname, fun x n hno => ⟨hrefl _ _, hpl.sameName hok
      (fun w hw => Option.some.inj hw ▸ hi) (fun j hj => absurd hj (hno' j)) hno⟩⟩
  | unlink hn hun =>
    rename_i d name e
    obtain ⟨hpl, hedge, hstop⟩ := hun.placed hok hn
    have hsole : Sole G d (fold name) := h.sole hC fun j hj => by
      obtain rfl := hok.edge_det hj hedge
      refine ⟨rfl, rfl, e.type, (h.lookup_iff hedge.isDir).mpr ⟨e, hun.1, hn, rfl, rfl⟩, fun hty => ?_⟩
      obtain ⟨sl, hsl⟩ := (hok.dir_of_entry hun.1).mp hty
      obtain ⟨hi0, hilt⟩ := hok.bound _ _ hsl
      refine (dirIsEmpty_spec h.sane h.rep hsl hi0 hilt).mpr ?_
      refine List.eq_nil_iff_forall_not_mem.mpr fun e' he' => ?_
      exact hun.2.1 hty e' (entry_of_mem hsl he')
    exact ⟨hok, hun.ok hok hn hsole, fun x n hno => ⟨hrefl _ _, hpl.sameName hok (by simp) hsole hno⟩⟩
  | rename hfd htd hname hren =>
    obtain ⟨hokm, i, hi, ⟨rfl, rfl, -⟩ | hmv⟩ := hren.moved hok hname
    · exact ⟨hok, hok, fun x n _ => ⟨hrefl _ _, hrefl _ _⟩⟩
    · have hsole := h.sole hC fun j hj => by
        refine ⟨rfl, rfl, hname, h.lookup_file hj (hmv.files j hj).1, i,
          h.lookup_file hi (hmv.files j hj).2, ?_⟩
        rintro rfl
        exact hmv.ne hj
      exact ⟨hokm, hren.ok hok hname fun _ => hsole, fun x n hno =>
        hmv.sameName hsole (fun hc => hno (Or.inr hc)) fun hc => hno (Or.inl hc)⟩

/-- The volume after a step, or a part of it, shows the other names as before. -/
theorem Holds.apart {Gc : Graph} {s' : St} (h : Holds g G s) (h' : Holds g Gc s')
    (hsame : ∀ x n, ¬ op.On x n → SameName G Gc x (fold n)) : Apart s op s' := by
  intro q x n bytes hq hshow hno
  have hx : IsDir G x := by
    obtain ⟨j, t, hl, -⟩ := hshow
    by_contra hc
    obtain ⟨o, ho⟩ := h.obj_of_leads ((h.walk_root q).mp hq)
    obtain ⟨e, he, -⟩ := dirLookup_not_dir h.sane (h.rep.not_dir (Or.inl (by simp [ho])) hc) n
    rw [he] at hl
    exact absurd hl (by simp)
  obtain ⟨j, aux, hj, hk⟩ := (h.showsAt_iff hx).mp hshow
  obtain ⟨hj', hk'⟩ := hsame x n hno j hj
  exact (h'.showsAt_iff hj'.isDir).mpr ⟨j, aux, hj', hk'.trans hk⟩

/-- **One step of a history**, complete or cut short. -/
theorem Rooted.step (h : Rooted g G s) {call : Op (List Name)} (hop : call.resolve s = .ok op)
    (hC : ¬ op.Shared s) :
    ((∃ G', Holds g G' (op.run s).2) ∧ Apart s op (op.run s).2) ∧
      ∀ k, ∃ s', reopen s (cut op s k) = (.ok, s') ∧ (∃ Gc, Holds g Gc s') ∧ Apart s op s' := by
  obtain ⟨Gm, G', hran⟩ := op.run_spec h.sane h.ok h.rep fun d hd =>
    Or.inl (h.resolve_args hop d hd)
  have hsame : GraphOk g Gm ∧ GraphOk g G' ∧
      ∀ x n, ¬ op.On x n → SameName G Gm x (fold n) ∧ SameName G G' x (fold n) := by
    rcases hran.result with ⟨-, hdid⟩ | ⟨rfl, rfl, -⟩
    · exact hdid.sameName h hC
    · exact ⟨h.ok, h.ok, fun x n _ => ⟨fun j hj => ⟨hj, rfl⟩, fun j hj => ⟨hj, rfl⟩⟩⟩
  obtain ⟨hokm, hok', hname⟩ := hsame
  have hafter : Holds g G' (op.run s).2 := ⟨hran.sane, h.geo, hok', hran.rep⟩
  refine ⟨⟨⟨G', hafter⟩, h.apart hafter fun x n hno => (hname x n hno).2⟩, fun k => ?_⟩
  obtain ⟨s', Gc, hs', hGc, hh'⟩ := hran.reopen h.toHolds hokm hok' k
  refine ⟨s', hs', ⟨Gc, hh'⟩, h.apart hh' fun x n hno => ?_⟩
  rcases hGc with rfl | rfl | rfl
  · exact fun j hj => ⟨hj, rfl⟩
  · exact (hname x n hno).1
  · exact (hname x n hno).2

end Step

/-! ## The theorem -/

/-- The volumes of a history hold a graph in order, all of it reachable. -/
theorem History.rooted {s : St} (h : History (fun op s => ¬ op.Shared s) s) :
    ∃ g G, Rooted g G s := by
  induction h with
  | mkfs hw hn hmk =>
    obtain ⟨g, -, hset⟩ := settled_mkfs hw hn hmk
    exact ⟨g, _, hset.rooted⟩
  | @call s call _ hC ih =>
    obtain ⟨g, G, hr⟩ := ih
    unfold Op.call
    cases hop : call.resolve s with
    | error e => exact ⟨g, G, hr⟩
    | ok op =>
      obtain ⟨⟨⟨G', hh⟩, -⟩, -⟩ := hr.step hop (hC op hop)
      exact ⟨g, _, hh.live⟩
  | cut _ hop hC hs' ih =>
    obtain ⟨g, G, hr⟩ := ih
    obtain ⟨s₁, hs₁, ⟨Gc, hh⟩, -⟩ := (hr.step hop hC).2 _
    obtain rfl := (Prod.ext_iff.mp (hs₁.symm.trans hs')).2
    exact ⟨g, _, hh.live⟩

/-- A volume with a file `A`; the same when the power goes half-way through renaming
it to `B`, and it has both names; and after `A` is deleted. -/
def oneName : St := ((Op.put [] [65] [1] 0 0).call (mkfs (device 64) []).2).2
def twoNames : St := (reopen oneName (cut (.rename 1 [65] 1 [66]) oneName 1)).2
def dangling : St := ((Op.unlink [] [65]).call twoNames).2

end Mwfs
