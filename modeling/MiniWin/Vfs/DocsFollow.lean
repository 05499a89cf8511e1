import MiniWin.Vfs.Rescan

/-!
# Rescanning `/docs`

`fs_rescan_docs` on a volume in order: it scans the files that the directory `docs` of the volume
holds, and makes the directory if there is none. With what a scan does to the index this says when
the index follows the directory (`followsDocs_iff`).

The index is in order before: so is every index the functions of fs.h make (`index_in_order`).
-/

namespace Fs

open Mwfs Vfs SlotTable

attribute [local instance] neZero_maxVols

/-! ## What `/docs` holds -/

/-- The file that an entry names, with the length of what it holds. -/
def fileOf (G : Graph) (e : Dent) : File where
  ino := e.ino
  len := match G e.ino with
    | some (.file bytes _) => bytes.length
    | _ => 0
  name := e.name

/-- The files of a directory, in its order. -/
def filesOf (G : Graph) (slots : List (Option Dent)) : List File :=
  ((ents slots).filter fun e => e.type = tFile).map (fileOf G)

/-- The files of `docs` in the root of the graph: none if that is not a directory. -/
inductive DocsOf (G : Graph) : List File → Prop
  | dir {d : Nat} {slots : List (Option Dent)} (he : Edge G rootIno (fold docs) d)
    (hd : G d = some (.dir slots)) : DocsOf G (filesOf G slots)
  | none (h : ∀ d, Edge G rootIno (fold docs) d → ¬ IsDir G d) : DocsOf G []

/-- These are the files of `/docs`: none without a root volume. -/
inductive HoldsDocs (W : World) : List File → Prop
  | root {g : Geo} {G : Graph} {fs : List File} (hr : W.root_err = .ok) (h : Holds g G (W.vols 0))
    (hd : DocsOf G fs) : HoldsDocs W fs
  | noRoot (hr : W.root_err ≠ .ok) : HoldsDocs W []

/-- `fs_rescan_docs` ends, with this index and this table. -/
def Rescans (now : UInt32) (W : World) (x y : Index) (W' : World) : Prop :=
  ∃ n, ∀ rounds, n ≤ rounds → rescanDocs rounds now W x = some (y, W')

/-- **The document index follows the directory**: `fs_rescan_docs` makes of `x` an index that
follows the files, and running it a second time changes nothing. -/
def FollowsDocs (now now' : UInt32) (W : World) (x : Index) (fs : List File) : Prop :=
  ∃ y W', Rescans now W x y W' ∧ Follows x y fs ∧ ∃ y' W'', Rescans now' W' y y' W'' ∧ y' = y

theorem Rescans.unique {now : UInt32} {W W' W'' : World} {x y y' : Index}
    (h : Rescans now W x y W') (h' : Rescans now W x y' W'') : y = y' ∧ W' = W'' := by
  obtain ⟨n, hn⟩ := h
  obtain ⟨m, hm⟩ := h'
  have heq := (hn _ (Nat.le_max_left n m)).symm.trans (hm _ (Nat.le_max_right n m))
  exact Prod.ext_iff.mp (Option.some.inj heq)

/-! ## The scan of a directory -/

section Scan

variable {g : Geo} {G : Graph} {v : St} {d : Nat} {slots : List (Option Dent)}

/-- The names of a directory fit, and differ. -/
theorem distinct_filesOf (hok : GraphOk g G) (hd : G d = some (.dir slots)) :
    Distinct (filesOf G slots) := by
  refine ⟨fun f hf => ?_, ?_⟩
  · obtain ⟨e, he, rfl⟩ := List.mem_map.mp hf
    have hname := hok.name d e (entry_of_mem hd (List.mem_filter.mp he).1)
    refine ⟨fun hc => ?_, (nameOk_bounds hname).1⟩
    rw [show e.name = [] from hc] at hname
    exact nomatch hname
  · unfold filesOf
    rw [List.map_map]
    have hnd := hok.names d slots hd
    unfold foldedNames at hnd
    exact hnd.sublist (List.filter_sublist.map _)

/-- An entry of the loop is a file entered, or nothing. -/
theorem scanEntry_eq (h : Holds g G v) (hd : G d = some (.dir slots)) (c : Scan) {e : Dent}
    (he : e ∈ ents slots) :
    scanEntry v c e = if e.type = tFile then scanFile c (fileOf G e) else c := by
  unfold scanEntry
  by_cases hty : e.type = tFile
  · rw [if_neg (not_not.mpr hty), if_pos hty]
    have hent := entry_of_mem hd he
    obtain ⟨-, o, ho, hto⟩ := h.ok.entry d e hent
    have hlen : e.name.take nameMax = e.name :=
      List.take_of_length_le (nameOk_bounds (h.ok.name d e hent)).1
    cases o with
    | dir sl =>
      rw [hty] at hto
      exact nomatch hto
    | file bytes aux =>
      obtain ⟨h0, hlt⟩ := h.ok.bound _ _ ho
      have hfile : fileOf G e = ⟨e.ino, bytes.length, e.name⟩ := by
        unfold fileOf
        rw [ho]
      unfold scanFile
      rw [hfile]
      dsimp only
      cases c.index.slotFor e.name with
      | none => rfl
      | some i =>
        dsimp only
        rw [inoGet_eq h.sane h0 hlt]
        dsimp only
        rw [(h.rep.fileRep ho).size]
        unfold strcpyFixed
        rw [hlen]
        rfl
  · rw [if_pos hty, if_neg hty]

theorem foldl_scanEntry (h : Holds g G v) (hd : G d = some (.dir slots)) {es : List Dent}
    (hes : ∀ e ∈ es, e ∈ ents slots) (c : Scan) :
    es.foldl (scanEntry v) c
      = ((es.filter fun e => e.type = tFile).map (fileOf G)).foldl scanFile c := by
  induction es generalizing c with
  | nil => rfl
  | cons e es ih =>
    rw [List.foldl_cons, scanEntry_eq h hd c (hes e List.mem_cons_self),
      ih fun e' he' => hes e' (List.mem_cons_of_mem e he')]
    by_cases hty : e.type = tFile
    · rw [if_pos hty, List.filter_cons_of_pos (by simpa using hty), List.map_cons, List.foldl_cons]
    · rw [if_neg hty, List.filter_cons_of_neg (by simpa using hty)]

/-- **The loop goes through the entries** from `idx` on. -/
theorem scanFrom_spec {es : List Dent} (hnth : ∀ idx, dirNth v d idx = some es[idx]?) :
    ∀ (rounds idx : Nat) (c : Scan), es.length - idx < rounds →
      scanFrom v d rounds idx c = some ((es.drop idx).foldl (scanEntry v) c)
  | 0, _, _, h => absurd h (Nat.not_lt_zero _)
  | rounds + 1, idx, c, h => by
    unfold scanFrom
    rw [hnth]
    by_cases hidx : idx < es.length
    · rw [List.getElem?_eq_getElem hidx]
      dsimp only
      rw [scanFrom_spec hnth rounds (idx + 1) _ (by omega), List.drop_eq_getElem_cons hidx]
      rfl
    · rw [List.getElem?_eq_none (by omega), List.drop_eq_nil_of_le (by omega)]
      rfl

end Scan

/-! ## The directory -/

section Dir

variable {W : World} {fs : List File}

/-- What `fs_dir_ino` gives for `docs`: nothing, and then there are no files; or the directory. -/
inductive DocsDir (W' : World) (fs : List File) : Option Nat → Prop
  | none (h : fs = []) : DocsDir W' fs none
  | some {g : Geo} {G : Graph} {d : Nat} {slots : List (Option Dent)} (h : Holds g G (W'.vols 0))
    (hd : G d = some (.dir slots)) (hfs : fs = filesOf G slots) : DocsDir W' fs (some d)

/-- A directory that was made has no files. -/
theorem madeDir_bare {g : Geo} {G G' : Graph} {i : Nat} {name : Name} (hok : GraphOk g G)
    (hok' : GraphOk g G') (h : MadeDir g G rootIno name G')
    (he : Entry G' rootIno ⟨i, tDir, name⟩) : G' i = some (.dir []) := by
  obtain ⟨slots, hr⟩ := hok.root
  obtain ⟨j, hj, -, -, -, hswap⟩ := h
  have hne : j ≠ rootIno := by
    rintro rfl
    rw [hr] at hj
    exact nomatch hj
  have hij : i = j := hok'.edge_det he.edge hswap.entry_new.edge
  subst hij
  exact (hswap.of_ne hne).trans (G.add_self i _)

/-- **`fs_dir_ino`** finds the directory, or makes an empty one. -/
theorem dirIno_spec (h : HoldsDocs W fs) (now : UInt32) :
    ∃ o W', dirIno now W docs = (o, W') ∧ HoldsDocs W' fs ∧ DocsDir W' fs o := by
  cases h with
  | noRoot hr =>
    refine ⟨none, W, ?_, .noRoot hr, .none rfl⟩
    unfold dirIno root
    rw [if_neg hr]
  | @root g G fs hr h hdocs =>
    obtain ⟨slots, hsl⟩ := h.ok.root
    obtain ⟨h0, hlt⟩ := h.ok.bound _ _ hsl
    have hroot : root W = some (W.vols 0) := if_pos hr
    unfold dirIno
    rw [hroot]
    dsimp only
    rcases dirLookup_spec h.sane h.rep hsl h0 hlt docs with ⟨hlook, hno⟩ | ⟨e, hm, hn, hlook⟩
    · -- nothing of that name: the directory is made, if there is room for it
      have hnone : ∀ j, ¬ Edge G rootIno (fold docs) j := by
        rintro j ⟨e, he, hn, -⟩
        exact hno e (mem_of_entry hsl he) hn
      have hfs : fs = [] := by
        cases hdocs with
        | dir he _ => exact absurd he (hnone _)
        | none _ => rfl
      subst hfs
      rw [hlook]
      dsimp only
      obtain ⟨r, i, v', G', hmk, hdone, -, hres⟩ := mkdir_spec h.sane h.ok h.rep hsl docs now
      rw [hmk]
      have hput : (W.put 0 v').vols 0 = v' := by
        show Function.update W.vols 0 v' 0 = v'
        rw [Function.update_self]
      rcases hres with ⟨rfl, hname, hmade, hent⟩ | ⟨rfl, hwhy⟩
      · have hok' : GraphOk g G' := MadeDir.ok h.ok hname hmade
        have hh : Holds g G' ((W.put 0 v').vols 0) := by
          rw [hput]
          exact ⟨hdone.sane, h.geo, hok', hdone.rep⟩
        have hi := madeDir_bare h.ok hok' hmade hent
        exact ⟨some i, W.put 0 v', rfl, .root hr hh (DocsOf.dir hent.edge hi), .some hh hi rfl⟩
      · have hh : Holds g G' ((W.put 0 v').vols 0) := by
          rw [hput]
          exact ⟨hdone.sane, h.geo, h.ok, hdone.rep⟩
        refine ⟨none, W.put 0 v', ?_, .root hr hh hdocs, .none rfl⟩
        cases r with
        | ok => rcases hwhy with ⟨hc, -⟩ | ⟨hc, -⟩ | hc | hc <;> exact nomatch hc
        | _ => rfl
    · rw [hlook]
      dsimp only
      have hent := entry_of_mem hsl hm
      have hedge : Edge G rootIno (fold docs) e.ino := ⟨e, hent, hn, rfl⟩
      obtain ⟨-, o, ho, hto⟩ := h.ok.entry rootIno e hent
      cases o with
      | file bytes aux =>
        rw [if_neg (by rw [← hto]; exact (by decide : tFile ≠ tDir))]
        refine ⟨none, W, rfl, .root hr h hdocs, .none ?_⟩
        cases hdocs with
        | none _ => rfl
        | dir he hd =>
          obtain rfl := h.ok.edge_det he hedge
          rw [ho] at hd
          exact nomatch hd
      | dir sl =>
        rw [if_pos (by rw [← hto]; rfl)]
        refine ⟨some e.ino, W, rfl, .root hr h hdocs, .some h ho ?_⟩
        cases hdocs with
        | none hno => exact absurd ⟨sl, ho⟩ (hno _ hedge)
        | dir he hd =>
          obtain rfl := h.ok.edge_det he hedge
          obtain rfl := Obj.dir.inj (Option.some.inj (ho.symm.trans hd))
          rfl

/-- **`fs_rescan_docs`** ends with the index that a scan of the files makes. -/
theorem rescans (h : HoldsDocs W fs) (now : UInt32) (x : Index) :
    ∃ W', Rescans now W x (x.rescanned fs) W' ∧ HoldsDocs W' fs := by
  obtain ⟨o, W', hino, hdocs, hdir⟩ := dirIno_spec h now
  refine ⟨W', ?_, hdocs⟩
  cases hdir with
  | none hfs =>
    subst hfs
    refine ⟨0, fun rounds _ => ?_⟩
    unfold rescanDocs
    rw [hino]
    rfl
  | @some g G d slots hh hd hfs =>
    subst hfs
    obtain ⟨h0, hlt⟩ := hh.ok.bound _ _ hd
    refine ⟨(ents slots).length + 1, fun rounds hrounds => ?_⟩
    unfold rescanDocs
    rw [hino]
    dsimp only
    rw [scanFrom_spec (dirNth_spec hh.sane hh.rep hd h0 hlt) rounds 0 _ (by omega), List.drop_zero,
      foldl_scanEntry hh hd fun e he => he]
    rfl

/-- The names of the files of `/docs` fit, and differ. -/
theorem HoldsDocs.distinct (h : HoldsDocs W fs) : Distinct fs := by
  have hnil : Distinct [] := ⟨fun f hf => absurd hf List.not_mem_nil, List.nodup_nil⟩
  cases h with
  | noRoot _ => exact hnil
  | root _ hh hd =>
    cases hd with
    | dir _ hd => exact distinct_filesOf hh.ok hd
    | none _ => exact hnil

/-- What both runs make of the index. -/
theorem followsDocs_rescanned (h : HoldsDocs W fs) (now now' : UInt32) (x : Index) :
    FollowsDocs now now' W x fs ↔
      Follows x (x.rescanned fs) fs ∧ (x.rescanned fs).rescanned fs = x.rescanned fs := by
  obtain ⟨W', hrun, h'⟩ := rescans h now x
  obtain ⟨W'', hrun', -⟩ := rescans h' now' (x.rescanned fs)
  constructor
  · rintro ⟨y, V', hy, hf, y', V'', hy', rfl⟩
    obtain ⟨rfl, rfl⟩ := hrun.unique hy
    obtain ⟨heq, -⟩ := hrun'.unique hy'
    exact ⟨hf, heq⟩
  · rintro ⟨hf, heq⟩
    exact ⟨_, W', hrun, hf, _, W'', hrun', heq⟩

end Dir

/-! ## Every index is in order -/

section Kept

variable {x : Index} {W : World} {i : Fin maxFiles}

/-- The indexes that the functions of fs.h make, each on any volume in order. -/
inductive Kept : Index → Prop
  | start : Kept Index.empty
  | rescan {x y : Index} {W W' : World} {fs : List File} {now : UInt32} (h : Kept x)
    (hW : HoldsDocs W fs) (hy : Rescans now W x y W') : Kept y
  | findEmpty {x : Index} (h : Kept x) (now : UInt32) (W : World) : Kept (findEmptySlot now W x).2.1
  | save {x : Index} (h : Kept x) (now : UInt32) (W : World) (slot : Fin maxFiles)
    (data : List UInt8) : Kept (saveSlot now W x slot data).2.1
  | saveAs {x : Index} (h : Kept x) (now : UInt32) (W : World) (slot : Fin maxFiles) (name : Name)
    (data : List UInt8) : Kept (saveSlotAs now W x slot name data).2.1
  | delete {x : Index} (h : Kept x) (now : UInt32) (W : World) (slot : Fin maxFiles) :
    Kept (deleteSlot now W x slot).2.1

/-- **A slot rewritten** leaves the index in order, if its name is not that of another slot. -/
theorem Index.Ok.update (h : x.Ok) {y : Slot} (hu : y.used = true → y.named = true)
    (hk : ∀ k, y.key = some k → ∀ j, j ≠ i → x.keys j ≠ some k) :
    Index.Ok (Function.update x i y) where
  named j := by
    by_cases hj : j = i
    · subst hj
      rw [Function.update_self]
      exact hu
    · rw [Function.update_of_ne hj]
      exact h.named j
  single := by
    rw [keys_update]
    intro j l k hj hl
    by_cases hji : j = i <;> by_cases hli : l = i
    · rw [hji, hli]
    · rw [hji, Function.update_self] at hj
      rw [Function.update_of_ne hli] at hl
      exact absurd hl (hk k hj l hli)
    · rw [hli, Function.update_self] at hl
      rw [Function.update_of_ne hji] at hj
      exact absurd hj (hk k hl j hji)
    · rw [Function.update_of_ne hji] at hj
      rw [Function.update_of_ne hli] at hl
      exact h.single hj hl

/-- Slots given up leave the index in order. -/
theorem Index.Ok.clear (h : x.Ok) (p : Fin maxFiles → Prop) [DecidablePred p] :
    Index.Ok fun i => if p i then (x i).clear else x i where
  named i hu := by
    have hu : (if p i then (x i).clear else x i).used = true := hu
    show (if p i then (x i).clear else x i).named = true
    split at hu
    · exact nomatch hu
    · next hp =>
      rw [if_neg hp]
      exact h.named i hu
  single i j k hi hj := by
    have hkey : ∀ l, Index.keys (fun i => if p i then (x i).clear else x i) l = some k →
        x.keys l = some k := by
      intro l hl
      have hl : (if p l then (x l).clear else x l).key = some k := hl
      split at hl
      · exact nomatch hl
      · exact hl
    exact h.single (hkey i hi) (hkey j hj)

theorem ok_empty : Index.empty.Ok := ⟨fun _ hu => (nomatch hu), fun _ _ _ hi => (nomatch hi)⟩

theorem key_of_name {y : Slot} {name : Name} (hn : name ≠ []) (hy : y.name = name) :
    y.named = true ∧ y.key = some (fold name) := by
  subst hy
  have hnamed : y.named = true := by simpa [Slot.named] using hn
  exact ⟨hnamed, if_pos hnamed⟩

/-- The names `fs_find_empty_slot` makes up fit. -/
theorem strcpyFixed_defaultName {n : Nat} (hn : n < 1000) :
    strcpyFixed (defaultName n) = defaultName n := by
  refine List.take_of_length_le ?_
  have hdig : (decimal (n - 1)).length ≤ 3 := by
    unfold decimal
    rw [List.length_map, List.length_reverse]
    exact (Nat.digits_length_le_iff (by omega) _).mpr (by omega)
  unfold defaultName
  split
  · simp only [List.length_append, List.length_cons, List.length_nil, nameMax]
    omega
  · exact (by decide : 7 ≤ nameMax)

theorem Index.Ok.findEmptySlot (h : x.Ok) (now : UInt32) (W : World) :
    (findEmptySlot now W x).2.1.Ok := by
  unfold Fs.findEmptySlot
  split
  · exact h
  · dsimp only
    split
    · exact h
    · split
      · exact h
      · next n hfind =>
        have hn := List.find?_some hfind
        have hlt : n < 1000 := by
          have := List.mem_range'_1.mp (List.mem_of_find?_eq_some hfind)
          omega
        rw [Bool.and_eq_true, Option.isNone_iff_eq_none] at hn
        have hne : defaultName n ≠ [] := by simp [defaultName]
        rw [strcpyFixed_defaultName hlt]
        obtain ⟨hnamed, hkey⟩ := key_of_name (y := { x _ with used := false, name := defaultName n })
          hne rfl
        refine h.update (fun _ => hnamed) fun k hk j _ hj => ?_
        obtain rfl := Option.some.inj (hkey.symm.trans hk)
        have hno := find_none hn.1 j
        rw [Slot.hasName_iff.mpr hj] at hno
        exact nomatch hno

theorem Index.Ok.store (h : x.Ok) {name : Name} (hname : nameOk name = true) (ino len : Nat) :
    (x.store i name ino len).Ok := by
  have hne : name ≠ [] := by
    rintro rfl
    exact nomatch hname
  have htake : strcpyFixed name = name := List.take_of_length_le (nameOk_bounds hname).1
  unfold Index.store
  rw [htake]
  obtain ⟨hnamed, hkey⟩ := key_of_name (y := ⟨true, ino, len, name⟩) hne rfl
  refine (h.clear fun j => (x j).hasName name = true).update (fun _ => hnamed) fun k hk j _ hj => ?_
  obtain rfl := Option.some.inj (hkey.symm.trans hk)
  -- whatever had the name has been given up
  have hj : (if (x j).hasName name = true then (x j).clear else x j).key = some (fold name) := hj
  split at hj
  · exact nomatch hj
  · next hc => exact hc (Slot.hasName_iff.mpr hj)

/-- Only good names are written. -/
theorem nameOk_of_filePut {s s' : St} {d : Nat} {name : Name} {data : List UInt8} {aux now : UInt32}
    (h : filePut s d name data aux now = (.ok, s')) : nameOk name = true := by
  by_contra hc
  unfold filePut at h
  rw [if_pos (by simpa using hc)] at h
  exact nomatch h

theorem Index.Ok.storeNamed (h : x.Ok) (now : UInt32) (W : World) (slot : Fin maxFiles) (name : Name)
    (data : List UInt8) : (storeNamed now W x slot name data).2.1.Ok := by
  unfold Fs.storeNamed
  split
  · exact h
  · split
    · exact h
    · split
      · next v hput => exact h.store (nameOk_of_filePut hput) _ _
      · exact h

/-- **Every index is in order.** -/
theorem index_in_order (h : Kept x) : x.Ok := by
  induction h with
  | start => exact ok_empty
  | rescan _ hW hy ih =>
    rename_i x y W W' fs now _
    obtain ⟨V', hrun, -⟩ := rescans hW now x
    obtain ⟨rfl, -⟩ := hrun.unique hy
    exact ih.rescanned hW.distinct
  | findEmpty _ now W ih => exact ih.findEmptySlot now W
  | save _ now W slot data ih =>
    rename_i x _
    have hs := ih.storeNamed now W slot (x slot).name data
    unfold saveSlot
    split
    · exact ih
    · split
      · next heq =>
        rw [heq] at hs
        exact hs
      · next x' W' heq =>
        rw [heq] at hs
        dsimp only at hs ⊢
        split
        · exact hs
        · next hu =>
          refine hs.update (fun hc => absurd hc hu) fun k hk => ?_
          exact nomatch hk
  | saveAs _ now W slot name data ih =>
    unfold saveSlotAs
    split
    · exact ih
    · exact ih.storeNamed now W slot name data
  | delete _ now W slot ih =>
    unfold deleteSlot
    split
    · exact ih
    · split
      · exact ih
      · split
        · exact ih
        · split
          · exact ih.update (fun hc => (nomatch hc)) fun k hk => (nomatch hk)
          · exact ih

end Kept

/-! ## The index follows the directory -/

/-- **When the document index follows the directory**: exactly if no slot in use is of a file that
is gone, or the files without a slot are no more than the slots without a name. -/
theorem followsDocs_iff {x : Index} {W : World} {fs : List File} (hx : x.Ok) (hW : HoldsDocs W fs)
    (now now' : UInt32) :
    FollowsDocs now now' W x fs ↔ ¬ x.Gone fs ∨ (x.newFiles fs).length ≤ x.unnamed := by
  rw [followsDocs_rescanned hW, rescanned_again_iff hx hW.distinct]
  exact and_iff_right_of_imp (follows_rescanned hx hW.distinct)

/-- A volume whose `/docs` holds the file `A`. -/
def oneDoc : St :=
  ((Op.put 3 [65] [1] 0 0).run ((Op.mkdir rootIno docs 0).run (mkfs (device 64) []).2).2).2

/-- The root volume is that one. -/
def oneDocWorld : World where
  vols _ := oneDoc
  used i := i == 0
  id _ := []
  root_err := .ok
  cwd := [slash]
  mnt_ino := 0

theorem index_in_order_saved : (saveSlotAs 0 oneDocWorld Index.empty 0 [65] [1]).2.1.Ok :=
  index_in_order (.saveAs .start 0 oneDocWorld 0 [65] [1])

/-- `/docs` holds the file `A` there, and no other one. -/
theorem oneDoc_holds : ∃ ino len, HoldsDocs oneDocWorld [⟨ino, len, [65]⟩] := by
  have hmk : Reached (fun op s => ¬ op.IntoItself s) (mkfs (device 64) []).2 :=
    .device (by decide) (by decide +kernel)
  have hdir : Reached (fun op s => ¬ op.IntoItself s)
      ((Op.mkdir rootIno docs 0).run (mkfs (device 64) []).2).2 := hmk.run fun hc => hc
  have hone : Reached (fun op s => ¬ op.IntoItself s) oneDoc := hdir.run fun hc => hc
  obtain ⟨g, G, hset⟩ := hone.settled
  have hh : Holds g G (oneDocWorld.vols 0) := hset.toHolds
  obtain ⟨slots, hsl⟩ := hh.ok.root
  obtain ⟨h0, hlt⟩ := hh.ok.bound _ _ hsl
  have hlook : dirLookup oneDoc rootIno docs = .ok (3, tDir) := by decide +kernel
  rcases dirLookup_spec hh.sane hh.rep hsl h0 hlt docs with ⟨hc, -⟩ | ⟨e, hm, hn, he⟩
  · exact absurd (hc.symm.trans hlook) nofun
  · obtain ⟨hino, hty⟩ := Prod.ext_iff.mp (Except.ok.inj (he.symm.trans hlook))
    have hent := entry_of_mem hsl hm
    obtain ⟨-, o, ho, hto⟩ := hh.ok.entry rootIno e hent
    rw [show e.ino = 3 from hino] at ho
    cases o with
    | file bytes aux => exact absurd (hto.trans hty) (by decide : tFile ≠ tDir)
    | dir sl =>
      obtain ⟨h30, h3lt⟩ := hh.ok.bound _ _ ho
      have hnth := dirNth_spec hh.sane hh.rep ho h30 h3lt
      have hfirst : (ents sl)[0]? = some ⟨5, tFile, [65]⟩ := by
        refine Option.some.inj ((hnth 0).symm.trans ?_)
        exact (by decide +kernel : dirNth oneDoc 3 0 = some (some ⟨5, tFile, [65]⟩))
      have hsecond : (ents sl)[1]? = none := by
        refine Option.some.inj ((hnth 1).symm.trans ?_)
        exact (by decide +kernel : dirNth oneDoc 3 1 = some none)
      have hents : ents sl = [⟨5, tFile, [65]⟩] := by
        match hes : ents sl, hfirst, hsecond with
        | [d], h1, _ => exact congrArg (· :: []) (Option.some.inj h1)
        | _ :: _ :: _, _, h2 => exact nomatch h2
      have hfs : filesOf G sl = [fileOf G ⟨5, tFile, [65]⟩] := by
        unfold filesOf
        rw [hents]
        rfl
      refine ⟨5, (fileOf G ⟨5, tFile, [65]⟩).len, .root rfl hh ?_⟩
      have hdocs := DocsOf.dir (⟨e, hent, hn, hino⟩ : Edge G rootIno (fold docs) 3) ho
      rw [hfs] at hdocs
      exact hdocs

/-- `A` is a new file: it gets the first slot. -/
theorem followsDocs_iff_oneDoc :
    ∃ ino len, FollowsDocs 0 0 oneDocWorld Index.empty [⟨ino, len, [65]⟩] := by
  obtain ⟨ino, len, hW⟩ := oneDoc_holds
  refine ⟨ino, len, (followsDocs_iff ok_empty hW 0 0).mpr (Or.inl ?_)⟩
  rintro ⟨i, hu, -⟩
  exact nomatch hu

/-- An index of 64 documents, `BB` to `II`. -/
def fullIndex : Index := fun i =>
  ⟨true, 0, 0, [UInt8.ofNat (66 + i.val / 8), UInt8.ofNat (66 + i.val % 8)]⟩

theorem fullIndex_ok : fullIndex.Ok := by
  refine ⟨fun _ _ => rfl, fun i j k hi hj => ?_⟩
  have hinj : ∀ i j : Fin maxFiles, fullIndex.keys i = fullIndex.keys j → i = j := by
    decide +kernel
  exact hinj i j (hi.trans hj.symm)

/-- **The index can miss a file**: when its 64 files are gone, and there is a new one. -/
theorem not_followsDocs :
    ¬ ∀ (x : Index) (W : World) (fs : List File), x.Ok → HoldsDocs W fs →
      FollowsDocs 0 0 W x fs := by
  intro h
  obtain ⟨ino, len, hW⟩ := oneDoc_holds
  have hf := (followsDocs_rescanned hW 0 0 _).mp (h fullIndex oneDocWorld _ fullIndex_ok hW)
  have hleft : (fullIndex.find (Slot.hasName [65])).isNone = true := by decide +kernel
  have hnew : fullIndex.newFiles [⟨ino, len, [65]⟩] = [⟨ino, len, [65]⟩] :=
    List.filter_cons_of_pos hleft
  have hfull : fullIndex.unnamed = 0 := by decide +kernel
  rcases (rescanned_again_iff fullIndex_ok hW.distinct).mp hf.2 with hc | hc
  · refine hc ⟨0, rfl, fun f hf => ?_⟩
    rw [List.mem_singleton.mp hf]
    exact (by decide : (fullIndex 0).hasName [65] = false)
  · rw [hnew, hfull] at hc
    exact nomatch hc

end Fs
