import Mathlib.Data.Finset.Card
import Mathlib.Order.Interval.Finset.Nat
import MiniWin.Mwfs.CheckSpec
import MiniWin.Mwfs.History

/-!
# The walk of a check

`mwfs_chk_walk` goes through the directories the root leads to. On a volume that
holds a graph it removes second names and nothing else: each inode it comes to keeps
the name it was first found under, so that the root still leads to all it led to.
-/

namespace Mwfs

open Place

section Walk

variable {g : Geo} {G G₀ G' : Graph} {V₀ : View} {fix : Bool} {c : Chk}

/-! ## One object -/

/-- The sectors of an object are in order. -/
theorem Holds.chkBlock (h : Holds g G c.s) {j : Nat} {o : Obj} (hj : G j = some o) {l : Nat}
    (hl : (view g c.s.disk).Has ((view g c.s.disk).ino j) l) : chkBlock fix l c = (true, c) := by
  obtain ⟨hl0, p, rfl⟩ := hl
  have hown := Inv.owns_ino h.rep hj hl0
  have hdata := Inv.data h.rep _ hown
  have hle := hdata.le
  have hlt := hdata.lt
  unfold Mwfs.chkBlock
  rw [h.sane.geo, if_neg (by omega), bitGet_eq h.sane hdata.bit, Inv.used h.rep _ hown]

theorem Holds.eachBlock (fix : Bool) (h : Holds g G c.s) {j : Nat} {o : Obj} (hj : G j = some o) :
    eachBlock Chk.s (Mwfs.chkBlock fix) ((view g c.s.disk).ino j) c = (true, c) := by
  have hgoes : Goes Chk.s (Mwfs.chkBlock fix) (view g c.s.disk) (· = c)
      ((view g c.s.disk).Has ((view g c.s.disk).ino j)) := by
    refine ⟨?_, ?_, ?_⟩
    · rintro l _ hl rfl
      rw [h.chkBlock hj hl]
    · rintro l _ hl rfl
      rw [h.chkBlock hj hl]
    · rintro l _ ⟨hl0, p, rfl⟩ rfl
      have hdata := h.rep.data hj p hl0
      exact rd_data h.sane hdata.le hdata.lt
  rw [eachBlock_eq hgoes rfl]
  exact Prod.ext rfl (hgoes.visit (fun l hl => View.mem_sectors.mp hl) rfl)

/-- What the first visit to an object does. -/
structure Visited (G : Graph) (ino : Nat) (c c' : Chk) : Prop where
  s : c'.s = c.s
  reach : c'.reach = Function.update c.reach ino true
  dir : IsDir G ino → (c'.stack = ino :: c.stack ∧ c'.r = c.r) ∨
    (c'.stack = c.stack ∧ c'.r = { c.r with incomplete := true })
  file : ¬ IsDir G ino → c'.stack = c.stack ∧ c'.r = { c.r with files := c.r.files + 1 }

theorem Holds.chkVisit (h : Holds g G c.s) {j : Nat} {o : Obj} (hj : G j = some o) :
    Visited G j c (chkVisit fix j ((view g c.s.disk).ino j) c) := by
  unfold Mwfs.chkVisit
  cases o with
  | dir slots =>
    have hdir : IsDir G j := ⟨slots, hj⟩
    rw [if_pos (h.rep.dirRep hj).type]
    split
    · exact ⟨rfl, rfl, fun _ => Or.inl ⟨rfl, rfl⟩, fun hc => absurd hdir hc⟩
    · exact ⟨rfl, rfl, fun _ => Or.inr ⟨rfl, rfl⟩, fun hc => absurd hdir hc⟩
  | file bytes aux =>
    have hdir : ¬ IsDir G j := by
      rintro ⟨slots, hsl⟩
      rw [hj] at hsl
      exact absurd hsl (by simp)
    dsimp only
    rw [if_neg (by rw [(h.rep.fileRep hj).type]; decide)]
    have hblock := Holds.eachBlock (c := { c with
      reach := Function.update c.reach j true, r := { c.r with files := c.r.files + 1 } }) fix h hj
    dsimp only at hblock
    rw [hblock]
    rw [fileVerify_spec h.sane h.ok h.rep hj, if_pos rfl]
    exact ⟨rfl, rfl, fun hc => absurd hc hdir, fun _ => ⟨rfl, rfl⟩⟩

/-- **One entry of a directory**: a second name is removed, if it is to be; what the
walk comes to for the first time is visited. -/
theorem Holds.chkEntry (fix : Bool) (h : Holds g G c.s) {d : Nat} {e : Dent} (he : Entry G d e) :
    (c.reach e.ino = true ∧ chkEntry fix d e c
        = chkRemove fix d e.name { c with r := { c.r with dup_links := c.r.dup_links + 1 } }) ∨
      (c.reach e.ino = false ∧ ∃ c', chkEntry fix d e c = (false, c') ∧ Visited G e.ino c c') := by
  obtain ⟨-, o, ho, hty⟩ := h.ok.entry d e he
  obtain ⟨he0, helt⟩ := h.ok.bound _ _ ho
  have htype : ((view g c.s.disk).ino e.ino).type = e.type := (h.rep.objRep ho).type_eq.trans hty
  have hlive : ((view g c.s.disk).ino e.ino).type ≠ tFree := h.rep.not_free ho
  unfold Mwfs.chkEntry
  rw [h.sane.geo, if_neg (by omega), inoGet_eq h.sane he0 helt]
  dsimp only
  rw [if_neg (not_or.mpr ⟨hlive, not_not.mpr htype⟩)]
  cases hr : c.reach e.ino with
  | true => exact Or.inl ⟨rfl, rfl⟩
  | false => exact Or.inr ⟨rfl, _, rfl, h.chkVisit ho⟩

/-! ## The invariant of the walk -/

/-- Nothing has been found so far that is not in order. -/
structure Report.Clean (r : Report) : Prop where
  orphans : r.orphans = 0
  bad_entries : r.bad_entries = 0
  bad_blocks : r.bad_blocks = 0
  unmarked : r.unmarked = 0
  leaked : r.leaked = 0
  damaged_files : r.damaged_files = 0

/-- **The walk under way**, from a volume `V₀` that holds `G₀` and while the entries of
`cur` are gone through. `T` is the tree of the names under which inodes were first
found. -/
structure Walking (G₀ : Graph) (V₀ : View) (g : Geo) (cur : Option Nat) (G : Graph)
    (T : Nat → Name → Nat → Prop) (c : Chk) : Prop where
  rooted : Rooted g G c.s
  kind : G.kind = G₀.kind
  kept : Kept (diskForest G₀ V₀) V₀ (view g c.s.disk)
  tree : ∀ d n j, T d n j → Edge G d n j
  out : ∀ d n j, T d n j → c.reach d = true ∧ d ∉ c.stack
  root : c.reach rootIno = true
  came : ∀ j, c.reach j = true → Below T rootIno j
  stack : ∀ d ∈ c.stack, c.reach d = true ∧ IsDir G d
  nodup : c.stack.Nodup
  closed : c.r.incomplete = false → ∀ d, c.reach d = true → d ∉ c.stack → cur ≠ some d →
    ∀ n j, Edge G d n j → c.reach j = true
  clean : c.r.Clean

/-- The walk has gone through the first `idx` entries of the directory `d`. -/
structure InDir (G : Graph) (T : Nat → Name → Nat → Prop) (c : Chk) (d : Nat)
    (slots : List (Option Dent)) (idx : Nat) : Prop where
  dir : G d = some (.dir slots)
  reached : c.reach d = true
  popped : d ∉ c.stack
  seen : ∀ e ∈ (ents slots).take idx, c.reach e.ino = true
  out : ∀ n j, T d n j → ∃ e ∈ (ents slots).take idx, fold e.name = n ∧ e.ino = j

/-- What is left to do: the inodes not reached yet, and the directories to go through. -/
def Chk.left (g : Geo) (c : Chk) : Nat :=
  ((Finset.range g.inode_count).filter fun i => c.reach i = false).card + c.stack.length

/-- An inode reached for the first time makes up for what it puts on the stack. -/
theorem Chk.left_le {c' : Chk} {j : Nat} (hreach : c'.reach = Function.update c.reach j true)
    (hr : c.reach j = false) (hlt : j < g.inode_count)
    (hstack : c'.stack.length ≤ c.stack.length + 1) : c'.left g ≤ c.left g := by
  have hset : ((Finset.range g.inode_count).filter fun i => c'.reach i = false)
      = ((Finset.range g.inode_count).filter fun i => c.reach i = false).erase j := by
    ext i
    simp only [Finset.mem_filter, Finset.mem_erase, hreach]
    by_cases hi : i = j
    · subst hi
      simp
    · rw [Function.update_of_ne hi]
      simp [hi]
  have hmem : j ∈ (Finset.range g.inode_count).filter fun i => c.reach i = false :=
    Finset.mem_filter.mpr ⟨Finset.mem_range.mpr hlt, hr⟩
  have hpos := Finset.card_pos.mpr ⟨j, hmem⟩
  unfold Chk.left
  rw [hset, Finset.card_erase_of_mem hmem]
  omega

theorem Visited.left {o : Obj} {j : Nat} {c' : Chk} (h : Visited G j c c') (hok : GraphOk g G)
    (hj : G j = some o) (hr : c.reach j = false) : c'.left g ≤ c.left g := by
  obtain ⟨-, hlt⟩ := hok.bound j o hj
  refine Chk.left_le h.reach hr hlt ?_
  by_cases hd : IsDir G j
  · rcases h.dir hd with ⟨hs, -⟩ | ⟨hs, -⟩
    · rw [hs, List.length_cons]
    · rw [hs]
      exact Nat.le_succ _
  · rw [(h.file hd).1]
    exact Nat.le_succ _

theorem reach_update {reach : Nat → Bool} {i j : Nat} :
    Function.update reach j true i = true ↔ i = j ∨ reach i = true := by
  by_cases hi : i = j
  · subst hi
    simp
  · rw [Function.update_of_ne hi]
    simp [hi]

section Entry

variable {T : Nat → Name → Nat → Prop} {d idx : Nat} {slots : List (Option Dent)} {e : Dent}

/-- An entry that is next has not been gone through. -/
theorem InDir.fresh (h : InDir G T c d slots idx) (hok : GraphOk g G)
    (he : (ents slots)[idx]? = some e) : e ∉ (ents slots).take idx := by
  have hnd : (ents slots).Nodup := List.Nodup.of_map _ (hok.names d slots h.dir)
  obtain ⟨hlt, rfl⟩ := List.getElem?_eq_some_iff.mp he
  rw [← List.take_append_drop idx (ents slots), List.drop_eq_getElem_cons hlt] at hnd
  intro hmem
  exact (List.nodup_append.mp hnd).2.2 _ hmem _ List.mem_cons_self rfl

/-- The next entry leads to an inode the walk comes to for the first time. -/
theorem Walking.visit {c' : Chk} (h : Walking G₀ V₀ g (some d) G T c) (hin : InDir G T c d slots idx)
    (he : (ents slots)[idx]? = some e) (hr : c.reach e.ino = false) (hv : Visited G e.ino c c') :
    ∃ T', Walking G₀ V₀ g (some d) G T' c' ∧ InDir G T' c' d slots (idx + 1) := by
  have hent : Entry G d e := entry_of_mem hin.dir (List.mem_of_getElem? he)
  have hreach : ∀ i, c'.reach i = true ↔ i = e.ino ∨ c.reach i = true := fun i => by
    rw [hv.reach]
    exact reach_update
  have hfresh : e.ino ∉ c.stack := fun hm => by
    rw [(h.stack _ hm).1] at hr
    exact absurd hr (by simp)
  have hstack : c'.stack = c.stack ∨ (IsDir G e.ino ∧ c'.stack = e.ino :: c.stack) := by
    by_cases hd : IsDir G e.ino
    · exact (hv.dir hd).symm.imp (fun hs => hs.1) fun hs => ⟨hd, hs.1⟩
    · exact Or.inl (hv.file hd).1
  have hout : ∀ x, c.reach x = true → x ∉ c.stack → c'.reach x = true ∧ x ∉ c'.stack := by
    intro x hx hxs
    refine ⟨(hreach x).mpr (Or.inr hx), fun hm => ?_⟩
    rcases hstack with hs | ⟨-, hs⟩
    · exact hxs (hs ▸ hm)
    · rw [hs, List.mem_cons] at hm
      rcases hm with rfl | hm
      · rw [hr] at hx
        exact absurd hx (by simp)
      · exact hxs hm
  have hsub : ∀ x n j, T x n j → T x n j ∨ (x = d ∧ n = fold e.name ∧ j = e.ino) := fun _ _ _ =>
    Or.inl
  refine ⟨fun x n j => T x n j ∨ (x = d ∧ n = fold e.name ∧ j = e.ino), ⟨by rw [hv.s]; exact h.rooted,
    h.kind, by rw [hv.s]; exact h.kept, ?_, ?_, (hreach _).mpr (Or.inr h.root), ?_, ?_, ?_, ?_, ?_⟩,
    ⟨hin.dir, ?_, ?_, ?_, ?_⟩⟩
  · rintro x n j (hT | ⟨rfl, rfl, rfl⟩)
    · exact h.tree x n j hT
    · exact hent.edge
  · rintro x n j (hT | ⟨rfl, -, -⟩)
    · obtain ⟨hx, hxs⟩ := h.out x n j hT
      exact hout x hx hxs
    · exact hout x hin.reached hin.popped
  · intro j hj
    rcases (hreach j).mp hj with rfl | hj
    · obtain ⟨p, hp⟩ := h.came d hin.reached
      exact ⟨p ++ [fold e.name], (hp.mono hsub).snoc (Or.inr ⟨rfl, rfl, rfl⟩)⟩
    · obtain ⟨p, hp⟩ := h.came j hj
      exact ⟨p, hp.mono hsub⟩
  · intro x hx
    rcases hstack with hs | ⟨hd, hs⟩
    · obtain ⟨hxr, hxd⟩ := h.stack x (hs ▸ hx)
      exact ⟨(hreach x).mpr (Or.inr hxr), hxd⟩
    · rw [hs, List.mem_cons] at hx
      rcases hx with rfl | hx
      · exact ⟨(hreach _).mpr (Or.inl rfl), hd⟩
      · obtain ⟨hxr, hxd⟩ := h.stack x hx
        exact ⟨(hreach x).mpr (Or.inr hxr), hxd⟩
  · rcases hstack with hs | ⟨-, hs⟩
    · rw [hs]
      exact h.nodup
    · rw [hs]
      exact List.nodup_cons.mpr ⟨hfresh, h.nodup⟩
  · intro hinc x hx hxs hcur n j hj
    have hinc₀ : c.r.incomplete = false ∧ (IsDir G e.ino → e.ino ∈ c'.stack) := by
      by_cases hd : IsDir G e.ino
      · rcases hv.dir hd with ⟨hs, hrep⟩ | ⟨-, hrep⟩
        · exact ⟨by rw [← hrep]; exact hinc, fun _ => by rw [hs]; exact List.mem_cons_self⟩
        · rw [hrep] at hinc
          exact absurd hinc (by simp)
      · have hrep := (hv.file hd).2
        rw [hrep] at hinc
        exact ⟨hinc, fun hc => absurd hc hd⟩
    rcases (hreach x).mp hx with rfl | hx
    · exact absurd (hinc₀.2 hj.isDir) hxs
    · refine (hreach j).mpr (Or.inr (h.closed hinc₀.1 x hx (fun hm => hxs ?_) hcur n j hj))
      rcases hstack with hs | ⟨-, hs⟩
      · rw [hs]
        exact hm
      · rw [hs]
        exact List.mem_cons_of_mem _ hm
  · have hc := h.clean
    by_cases hd : IsDir G e.ino
    · rcases hv.dir hd with ⟨-, hrep⟩ | ⟨-, hrep⟩
      · rw [hrep]
        exact hc
      · rw [hrep]
        exact ⟨hc.1, hc.2, hc.3, hc.4, hc.5, hc.6⟩
    · rw [(hv.file hd).2]
      exact ⟨hc.1, hc.2, hc.3, hc.4, hc.5, hc.6⟩
  · exact (hout d hin.reached hin.popped).1
  · exact (hout d hin.reached hin.popped).2
  · intro e' he'
    rw [List.take_add_one, he, List.mem_append] at he'
    rcases he' with he' | he'
    · exact (hreach _).mpr (Or.inr (hin.seen e' he'))
    · obtain rfl : e' = e := by simpa using he'
      exact (hreach _).mpr (Or.inl rfl)
  · rintro n j (hT | ⟨-, rfl, rfl⟩)
    · obtain ⟨e', he', hn, hj⟩ := hin.out n j hT
      exact ⟨e', by rw [List.take_add_one]; exact List.mem_append_left _ he', hn, hj⟩
    · exact ⟨e, by rw [List.take_add_one, he]; simp, rfl, rfl⟩

/-- A second name that stays. -/
theorem Walking.pass {r : Report} (h : Walking G₀ V₀ g (some d) G T c)
    (hin : InDir G T c d slots idx) (he : (ents slots)[idx]? = some e) (hr : c.reach e.ino = true)
    (hinc : r.incomplete = c.r.incomplete) (hclean : r.Clean) :
    Walking G₀ V₀ g (some d) G T { c with r := r } ∧ InDir G T { c with r := r } d slots (idx + 1) := by
  refine ⟨⟨h.rooted, h.kind, h.kept, h.tree, h.out, h.root, h.came, h.stack, h.nodup, fun hi =>
    h.closed (hinc ▸ hi), hclean⟩, hin.dir, hin.reached, hin.popped, ?_, ?_⟩
  · intro e' he'
    rw [List.take_add_one, he, List.mem_append] at he'
    rcases he' with he' | he'
    · exact hin.seen e' he'
    · obtain rfl : e' = e := by simpa using he'
      exact hr
  · intro n j hT
    obtain ⟨e', he', hn, hj⟩ := hin.out n j hT
    exact ⟨e', by rw [List.take_add_one]; exact List.mem_append_left _ he', hn, hj⟩

/-- **A second name that goes.** The object keeps the name it was found under. -/
theorem Walking.remove {r : Report} (h : Walking G₀ V₀ g (some d) G T c)
    (hin : InDir G T c d slots idx) (he : (ents slots)[idx]? = some e) (hr : c.reach e.ino = true)
    (hinc : r.incomplete = c.r.incomplete) (hclean : r.Clean) :
    ∃ s' G' slots', dirRemove c.s d e.name = (.ok, s') ∧
      Walking G₀ V₀ g (some d) G' T { c with s := s', r := r } ∧
      InDir G' T { c with s := s', r := r } d slots' idx ∧
      (ents slots').length + 1 = (ents slots).length := by
  have hR := h.rooted
  have hok := hR.ok
  have hent : Entry G d e := entry_of_mem hin.dir (List.mem_of_getElem? he)
  obtain ⟨hd0, hdlt⟩ := hok.bound d _ hin.dir
  rcases dirRemove_at hR.sane hR.rep hin.dir hd0 hdlt e.name with
    ⟨-, hno⟩ | ⟨e', x, s', hx, hn, hs', hswap, hstep, hkept⟩
  · exact absurd rfl (hno e (List.mem_of_getElem? he))
  obtain rfl : e' = e :=
    hok.inj (entry_of_mem hin.dir (mem_ents.mpr (List.mem_of_getElem? hx))) hent hn
  set G' := Function.update G d (some (.dir (slots.set x none))) with hG'
  -- the names under which inodes were found stay
  have hedge : Edge G' = Without (Edge G) (Named d (fold e'.name)) := by
    rw [hswap.edge hok (fold e'.name) (by simp) (by simp) (by simp), Option.map_none,
      repoint_none]
  have hT : ∀ x n j, T x n j → Without (Edge G) (Named d (fold e'.name)) x n j := by
    intro y n j hy
    refine ⟨h.tree y n j hy, ?_⟩
    rintro ⟨rfl, rfl⟩
    obtain ⟨e'', he'', hn'', -⟩ := hin.out _ _ hy
    obtain rfl := hok.inj (entry_of_mem hin.dir (List.mem_of_mem_take he'')) hent hn''
    exact hin.fresh hok he he''
  have hbelow : ∀ j, Below (Edge G) rootIno j → Below (Edge G') rootIno j := by
    intro j hj
    rw [hedge]
    obtain ⟨p, hp⟩ := h.came _ hr
    exact Below.without (fun y hy => hok.edge_det hy hent.edge) ⟨p, hp.mono hT⟩ hj
  have hsub : ∀ x n j, Edge G' x n j → Edge G x n j := fun x n j hj => by
    rw [hedge] at hj
    exact hj.1
  -- the entries that were gone through are the ones that come first
  obtain ⟨a, b, hab, hab'⟩ := ents_set_none hx
  have hnd : (ents slots).Nodup := List.Nodup.of_map _ (hok.names d slots hin.dir)
  have hidx : idx = a.length := by
    obtain ⟨hlt, hget⟩ := List.getElem?_eq_some_iff.mp he
    have hlt' : a.length < (ents slots).length := by rw [hab]; simp
    have hget' : (ents slots)[a.length] = e' := by simp [hab]
    exact hnd.getElem_inj_iff.mp (hget.trans hget'.symm)
  have htake : (ents (slots.set x none)).take idx = (ents slots).take idx := by
    rw [hab, hab', hidx, List.take_left, List.take_left]
  have hforest : diskForest G₀ V₀ = diskForest G (view g c.s.disk) := by
    refine diskForest_eq (fun j => ?_) fun j o _ => h.kept.ino ▸ rfl
    rw [← kind_none_iff, ← kind_none_iff, h.kind]
  refine ⟨s', G', slots.set x none, hs', ⟨⟨⟨hstep.sane, hR.geo, ?_, hstep.rep⟩, ?_⟩, ?_, ?_, ?_, h.out,
    h.root, h.came, ?_, h.nodup, ?_, hclean⟩, ⟨Function.update_self .., hin.reached, hin.popped, ?_, ?_⟩, ?_⟩
  · exact hswap.ok hok (by simp)
  · intro j o hj
    cases hj' : G j with
    | none =>
      rw [(hswap.dom j).mp hj'] at hj
      exact absurd hj (by simp)
    | some o' => exact hbelow j (hR.reach j o' hj')
  · rw [hswap.kind, h.kind]
  · exact h.kept.trans (hforest ▸ hkept)
  · intro y n j hy
    rw [hedge]
    exact hT y n j hy
  · intro y hy
    exact ⟨(h.stack y hy).1, hswap.isDir_iff.mpr (h.stack y hy).2⟩
  · exact fun hi y hy hys hcur n j hj => h.closed (hinc ▸ hi) y hy hys hcur n j (hsub y n j hj)
  · rw [htake]
    exact hin.seen
  · rw [htake]
    exact hin.out
  · rw [hab, hab', List.length_append, List.length_append, List.length_cons, Nat.add_assoc]

/-- **One entry.** It is gone through, or it is gone. -/
theorem Walking.entry (fix : Bool) (h : Walking G₀ V₀ g (some d) G T c) (hin : InDir G T c d slots idx)
    (he : (ents slots)[idx]? = some e) :
    ∃ gone c' G' T' slots', chkEntry fix d e c = (gone, c') ∧ Walking G₀ V₀ g (some d) G' T' c' ∧
      InDir G' T' c' d slots' (if gone then idx else idx + 1) ∧ c'.left g ≤ c.left g ∧
      (ents slots').length + (if gone then 1 else 0) = (ents slots).length := by
  have hent : Entry G d e := entry_of_mem hin.dir (List.mem_of_getElem? he)
  have hc := h.clean
  rcases h.rooted.toHolds.chkEntry fix hent with ⟨hr, heq⟩ | ⟨hr, c', heq, hv⟩
  · rw [heq]
    unfold chkRemove
    cases fix with
    | false =>
      obtain ⟨hw, hin'⟩ := h.pass hin he hr (r := { c.r with dup_links := c.r.dup_links + 1 }) rfl
        ⟨hc.1, hc.2, hc.3, hc.4, hc.5, hc.6⟩
      exact ⟨false, _, G, T, slots, rfl, hw, hin', Nat.le_refl _, rfl⟩
    | true =>
      obtain ⟨s', G', slots', hs', hw, hin', hlen⟩ := h.remove hin he hr
        (r := { c.r with dup_links := c.r.dup_links + 1, fixed := c.r.fixed + 1 }) rfl
        ⟨hc.1, hc.2, hc.3, hc.4, hc.5, hc.6⟩
      rw [if_neg (by simp), hs']
      exact ⟨true, _, G', T, slots', rfl, hw, hin', Nat.le_refl _, hlen⟩
  · obtain ⟨T', hw, hin'⟩ := h.visit hin he hr hv
    obtain ⟨-, o, ho, -⟩ := h.rooted.ok.entry d e hent
    exact ⟨false, c', G, T', slots, heq, hw, hin', hv.left h.rooted.ok ho hr, rfl⟩

/-- **The entries of a directory**, from any of them on. -/
theorem Walking.entries {n : Nat} (fix : Bool) (h : Walking G₀ V₀ g (some d) G T c)
    (hin : InDir G T c d slots idx) (hidx : idx ≤ (ents slots).length)
    (hn : (ents slots).length < idx + n) :
    ∃ c' G' T', chkEntries fix d n idx c = some c' ∧ Walking G₀ V₀ g none G' T' c' ∧
      c'.left g ≤ c.left g := by
  induction n generalizing c G T slots idx with
  | zero => omega
  | succ n ih =>
    have hR := h.rooted
    obtain ⟨hd0, hdlt⟩ := hR.ok.bound d _ hin.dir
    unfold chkEntries
    rw [dirNth_spec hR.sane hR.rep hin.dir hd0 hdlt]
    cases he : (ents slots)[idx]? with
    | some e =>
      obtain ⟨hlt, -⟩ := List.getElem?_eq_some_iff.mp he
      obtain ⟨gone, c', G', T', slots', heq, hw, hin', hleft, hlen⟩ := h.entry fix hin he
      dsimp only
      rw [heq]
      cases gone with
      | true =>
        rw [if_pos rfl] at hin' hlen
        obtain ⟨c'', G'', T'', hc'', hw'', hl''⟩ := ih hw hin' (by omega) (by omega)
        exact ⟨c'', G'', T'', hc'', hw'', hl''.trans hleft⟩
      | false =>
        rw [if_neg (by simp)] at hin' hlen
        obtain ⟨c'', G'', T'', hc'', hw'', hl''⟩ := ih hw hin' (by omega) (by omega)
        exact ⟨c'', G'', T'', hc'', hw'', hl''.trans hleft⟩
    | none =>
      refine ⟨c, G, T, rfl, ⟨hR, h.kind, h.kept, h.tree, h.out, h.root, h.came, h.stack, h.nodup, ?_,
        h.clean⟩, Nat.le_refl _⟩
      intro hi x hx hxs _ m j hj
      by_cases hxd : x = d
      · subst hxd
        obtain ⟨e, hent, -, rfl⟩ := hj
        refine hin.seen e ?_
        rw [List.take_of_length_le (List.getElem?_eq_none_iff.mp he)]
        exact mem_of_entry hin.dir hent
      · exact h.closed hi x hx hxs (fun hc => hxd (Option.some.inj hc).symm) m j hj

end Entry

/-! ## The whole walk -/

/-- The rounds that `entriesFuel` grants are enough. -/
theorem DirRep.entriesFuel {V : View} {t : Ino} {slots : List (Option Dent)} (h : DirRep V t slots) :
    (ents slots).length < entriesFuel t := by
  have hle : (ents slots).length ≤ slots.length := List.length_filterMap_le _ _
  obtain ⟨m, hm⟩ := h.dvd
  have hsize := h.size
  unfold Mwfs.entriesFuel
  omega

theorem Walking.run {n : Nat} (fix : Bool) {T : Nat → Name → Nat → Prop} (h : Walking G₀ V₀ g none G T c)
    (hn : c.left g ≤ n) :
    ∃ c' G' T', chkWalk fix n c = some c' ∧ Walking G₀ V₀ g none G' T' c' ∧ c'.stack = [] := by
  induction n generalizing c G T with
  | zero =>
    have hnil : c.stack = [] := List.eq_nil_iff_length_eq_zero.mpr (by unfold Chk.left at hn; omega)
    refine ⟨c, G, T, ?_, h, hnil⟩
    unfold chkWalk
    rw [hnil]
  | succ n ih =>
    unfold chkWalk
    cases hstack : c.stack with
    | nil => exact ⟨c, G, T, rfl, h, hstack⟩
    | cons d stack =>
      have hR := h.rooted
      have hnd : (d :: stack).Nodup := hstack ▸ h.nodup
      have hsub : ∀ x, x ∉ c.stack → x ∉ stack := fun x hx hm =>
        hx (by rw [hstack]; exact List.mem_cons_of_mem d hm)
      obtain ⟨hdr, slots, hsl⟩ := h.stack d (by rw [hstack]; exact List.mem_cons_self)
      obtain ⟨hd0, hdlt⟩ := hR.ok.bound d _ hsl
      have hw : Walking G₀ V₀ g (some d) G T
          { c with stack := stack, r := { c.r with dirs := c.r.dirs + 1 } } := by
        have hc := h.clean
        refine ⟨hR, h.kind, h.kept, h.tree, fun x m j hT => ⟨(h.out x m j hT).1,
          hsub x (h.out x m j hT).2⟩, h.root, h.came, fun x hx => h.stack x ?_, hnd.of_cons, ?_,
          ⟨hc.1, hc.2, hc.3, hc.4, hc.5, hc.6⟩⟩
        · rw [hstack]
          exact List.mem_cons_of_mem d hx
        · intro hi x hx hxs hcur m j hj
          refine h.closed hi x hx (fun hm => ?_) (by simp) m j hj
          rw [hstack, List.mem_cons] at hm
          rcases hm with rfl | hm
          · exact hcur rfl
          · exact hxs hm
      have hin : InDir G T { c with stack := stack, r := { c.r with dirs := c.r.dirs + 1 } } d slots
          0 := by
        refine ⟨hsl, hdr, (List.nodup_cons.mp hnd).1, by simp, fun m j hT => ?_⟩
        exact absurd (by rw [hstack]; exact List.mem_cons_self) (h.out d m j hT).2
      have hleft : Chk.left g { c with stack := stack, r := { c.r with dirs := c.r.dirs + 1 } } ≤ n := by
        unfold Chk.left at hn ⊢
        rw [hstack, List.length_cons] at hn
        dsimp only
        omega
      obtain ⟨c', G', T', hc', hw', hl'⟩ := hw.entries fix hin (Nat.zero_le _)
        (n := entriesFuel ((view g c.s.disk).ino d)) (by rw [Nat.zero_add]; exact (hR.rep.dirRep hsl).entriesFuel)
      obtain ⟨c'', G'', T'', hc'', hw'', hnil⟩ := ih hw' (hl'.trans hleft)
      have hblock := Holds.eachBlock (c := { c with
        stack := stack, r := { c.r with dirs := c.r.dirs + 1 } }) fix hR.toHolds hsl
      refine ⟨c'', G'', T'', ?_, hw'', hnil⟩
      dsimp only at hblock ⊢
      rw [inoGet_eq hR.sane hd0 hdlt]
      dsimp only
      rw [hblock]
      rw [hc']
      exact hc''

/-- **What a walk leaves**: the graph, less some second names, all of it still hanging
from the root; and, where it came to the end, the inodes of the graph found. -/
structure Walked (G₀ : Graph) (V₀ : View) (g : Geo) (G : Graph) (c : Chk) : Prop where
  rooted : Rooted g G c.s
  kind : G.kind = G₀.kind
  kept : Kept (diskForest G₀ V₀) V₀ (view g c.s.disk)
  reach : c.r.incomplete = false → ∀ j, c.reach j = true ↔ G j ≠ none
  clean : c.r.Clean

/-- There are enough rounds for a walk. -/
theorem Chk.start_left (h : GraphOk g G) (s : St) : (Chk.start s).left g ≤ g.inode_count := by
  obtain ⟨slots, hsl⟩ := h.root
  obtain ⟨-, hlt⟩ := h.bound _ _ hsl
  have hset : ((Finset.range g.inode_count).filter fun i => (Chk.start s).reach i = false)
      = (Finset.range g.inode_count).erase rootIno := by
    ext i
    simp [Chk.start, and_comm]
  unfold Chk.left
  rw [hset, Finset.card_erase_of_mem (Finset.mem_range.mpr hlt), Finset.card_range]
  show g.inode_count - 1 + 1 ≤ g.inode_count
  omega

theorem chkWalk_spec {s : St} (fix : Bool) (h : Rooted g G s) :
    ∃ c G', chkWalk fix s.vol.inode_count (Chk.start s) = some c ∧
      Walked G (view g s.disk) g G' c := by
  have hstart : Walking G (view g s.disk) g none G (fun _ _ _ => False) (Chk.start s) := by
    have hroot : ∀ j, (Chk.start s).reach j = true ↔ j = rootIno := fun j => beq_iff_eq
    refine ⟨h, rfl, .refl _ _, fun _ _ _ hc => hc.elim, fun _ _ _ hc => hc.elim, (hroot _).mpr rfl,
      fun j hj => ?_, fun d hd => ?_, List.nodup_singleton _, fun _ d hd hds => ?_,
      ⟨rfl, rfl, rfl, rfl, rfl, rfl⟩⟩
    · obtain rfl := (hroot j).mp hj
      exact ⟨[], .nil _⟩
    · obtain rfl := List.mem_singleton.mp hd
      exact ⟨(hroot _).mpr rfl, h.ok.root⟩
    · exact absurd (List.mem_singleton.mpr ((hroot d).mp hd)) hds
  have hleft : (Chk.start s).left g ≤ s.vol.inode_count := by
    rw [h.sane.geo]
    exact Chk.start_left h.ok s
  obtain ⟨c, G', T, hc, hw, hnil⟩ := hstart.run fix hleft
  refine ⟨c, G', hc, hw.rooted, hw.kind, hw.kept, fun hinc j => ⟨fun hj => ?_, fun hj => ?_⟩, hw.clean⟩
  · obtain ⟨p, hp⟩ := hw.came j hj
    obtain ⟨o, ho⟩ := hw.rooted.obj_of_leads (hp.mono hw.tree)
    rw [ho]
    simp
  · obtain ⟨o, ho⟩ := Option.ne_none_iff_exists'.mp hj
    obtain ⟨p, hp⟩ := hw.rooted.reach j o ho
    have hclosed := hw.closed hinc
    rw [hnil] at hclosed
    clear hj ho
    induction p using List.reverseRecOn generalizing j with
    | nil =>
      obtain rfl := Leads.nil_iff.mp hp
      exact hw.root
    | append_singleton p l ih =>
      obtain ⟨x, hx, he⟩ := Leads.snoc_iff.mp hp
      exact hclosed x (ih x hx) (by simp) (by simp) l j he

end Walk

end Mwfs
