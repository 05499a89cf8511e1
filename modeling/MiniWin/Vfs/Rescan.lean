import MiniWin.Lib.SlotTable
import MiniWin.Vfs.Docs
import MiniWin.Mwfs.Reach

/-!
# The index follows the directory

What `fs_rescan_docs` makes of an index, in terms of the files that `/docs` holds. Read by its
names the index is a table of slots that bear keys, and a scan enters the names of the files in it.

A slot whose file is gone is given up after the scan, too late for a new file that found no slot.
So the index has what it should have if no file is gone, or if the new files find room beside the
slots of those that are; and otherwise it has not (`follows_iff`).
-/

namespace Fs

open Mwfs Vfs SlotTable

/-! ## The index as a table of names -/

/-- The name of a slot, as it is compared. -/
def Slot.key (x : Slot) : Option Name := if x.named then some (fold x.name) else none

def Index.keys (x : Index) : Fin maxFiles → Option Name := fun i => (x i).key

/-- **An index in order**: a slot in use has a name, and no two slots have the same one. -/
structure Index.Ok (x : Index) : Prop where
  named : ∀ i, (x i).used = true → (x i).named = true
  single : Single x.keys

section Slots

variable {x : Index} {y : Slot} {name : Name} {i : Fin maxFiles} {p : Slot → Bool}

theorem Slot.key_eq_none : y.key = none ↔ y.named = false := by
  unfold Slot.key
  cases y.named <;> simp

theorem Slot.hasName_iff : y.hasName name = true ↔ y.key = some (fold name) := by
  unfold Slot.hasName Slot.key
  rw [Bool.and_eq_true, nameEq_iff]
  cases hc : y.named <;> simp

theorem Slot.key_clear (y : Slot) : y.clear.key = none := rfl

theorem find_some (h : x.find p = some i) : p (x i) = true := by
  have := List.find?_some h
  exact this

theorem find_none (h : x.find p = none) (i : Fin maxFiles) : p (x i) = false := by
  have := List.find?_eq_none.mp h i (List.mem_finRange i)
  simpa using this

/-- **The slot of a name**: where the name is, or free. -/
theorem slotFor_cases (x : Index) (name : Name) :
    (∃ i, x.slotFor name = some i ∧ x.keys i = some (fold name)) ∨
      (¬ Bears x.keys (fold name) ∧ ∃ i, x.slotFor name = some i ∧ x.keys i = none) ∨
      (¬ Bears x.keys (fold name) ∧ x.slotFor name = none ∧ ∀ i, x.keys i ≠ none) := by
  unfold Index.slotFor
  cases hf : x.find (Slot.hasName name) with
  | some i => exact Or.inl ⟨i, rfl, Slot.hasName_iff.mp (find_some hf)⟩
  | none =>
    have hno : ¬ Bears x.keys (fold name) := by
      rintro ⟨i, hi⟩
      have h1 := find_none hf i
      rw [Slot.hasName_iff.mpr hi] at h1
      exact nomatch h1
    refine Or.inr ?_
    dsimp only
    cases hu : x.find fun y => !y.named with
    | some i =>
      have h1 := find_some hu
      exact Or.inl ⟨hno, i, rfl, Slot.key_eq_none.mpr (by simpa using h1)⟩
    | none =>
      refine Or.inr ⟨hno, rfl, fun i hi => ?_⟩
      have h1 := find_none hu i
      rw [Slot.key_eq_none.mp hi] at h1
      exact nomatch h1

theorem keys_update (x : Index) (i : Fin maxFiles) (y : Slot) :
    Index.keys (Function.update x i y) = Function.update x.keys i y.key := by
  funext j
  by_cases hj : j = i
  · subst hj
    simp [Index.keys]
  · simp [Index.keys, hj]

end Slots

/-! ## Files -/

/-- A file of a directory. -/
structure File where
  ino : Nat
  len : Nat
  name : Name
  deriving DecidableEq

/-- The slot of a file. -/
def File.slot (f : File) : Slot := ⟨true, f.ino, f.len, f.name⟩

/-- The name of a file, as it is compared. -/
def File.key (f : File) : Name := fold f.name

/-- The files of one directory: their names fit, and differ. -/
structure Distinct (fs : List File) : Prop where
  name : ∀ f ∈ fs, f.name ≠ [] ∧ f.name.length ≤ nameMax
  nodup : (fs.map File.key).Nodup

/-- A file entered. -/
def scanFile (c : Scan) (f : File) : Scan :=
  match c.index.slotFor f.name with
  | none => c
  | some i => ⟨Function.update c.index i f.slot, Function.update c.seen i true⟩

section Scan

variable {c : Scan} {f f' : File} {fs : List File} {i : Fin maxFiles}

theorem Distinct.tail (h : Distinct (f :: fs)) : Distinct fs :=
  ⟨fun f' hf => h.name f' (List.mem_cons_of_mem f hf),
    (List.nodup_cons.mp (by simpa using h.nodup)).2⟩

theorem Distinct.head_ne (h : Distinct (f :: fs)) (hf : f' ∈ fs) : f'.key ≠ f.key := by
  have hnd := h.nodup
  rw [List.map_cons, List.nodup_cons] at hnd
  exact fun hc => hnd.1 (hc ▸ List.mem_map_of_mem hf)

theorem File.key_slot (hn : f.name ≠ []) : f.slot.key = some f.key := by
  unfold File.slot Slot.key Slot.named
  rw [if_pos (by simpa using hn)]
  rfl

/-- What a file entered does to the index. -/
theorem scanFile_cases (c : Scan) (hn : f.name ≠ []) :
    (∃ i, (c.index.keys i = some f.key ∨ ¬ Bears c.index.keys f.key ∧ c.index.keys i = none) ∧
        scanFile c f = ⟨Function.update c.index i f.slot, Function.update c.seen i true⟩ ∧
        Enter c.index.keys f.key (some i) (scanFile c f).index.keys) ∨
      (¬ Bears c.index.keys f.key ∧ (∀ i, c.index.keys i ≠ none) ∧ scanFile c f = c ∧
        Enter c.index.keys f.key none (scanFile c f).index.keys) := by
  unfold scanFile
  rcases slotFor_cases c.index f.name with ⟨i, hi, hk⟩ | ⟨hno, i, hi, hk⟩ | ⟨hno, hi, hk⟩
  · rw [hi]
    refine Or.inl ⟨i, Or.inl hk, rfl, ?_⟩
    have hsame : Index.keys (Function.update c.index i f.slot) = c.index.keys := by
      rw [keys_update, File.key_slot hn, ← show c.index.keys i = some f.key from hk,
        Function.update_eq_self]
    show Enter c.index.keys f.key (some i) (Index.keys (Function.update c.index i f.slot))
    rw [hsame]
    exact .held hk
  · rw [hi]
    refine Or.inl ⟨i, Or.inr ⟨hno, hk⟩, rfl, ?_⟩
    show Enter c.index.keys f.key (some i) (Index.keys (Function.update c.index i f.slot))
    rw [keys_update, File.key_slot hn]
    exact .took hno hk
  · rw [hi]
    exact Or.inr ⟨hno, hk, rfl, .full hno hk⟩

/-- What a scan of files leaves: the names are entered, a slot is as it was or has a file of the
scan, and a file whose name has a slot is in it. -/
structure Scanned (c : Scan) (fs : List File) (c' : Scan) : Prop where
  entered : Entered c.index.keys (fs.map File.key) c'.index.keys
  slot : ∀ i, c'.index i = c.index i ∧ c'.seen i = c.seen i ∨
    ∃ f ∈ fs, c'.seen i = true ∧ c'.index i = f.slot
  file : ∀ f ∈ fs, Bears c'.index.keys f.key → ∃ i, c'.seen i = true ∧ c'.index i = f.slot

/-- **The loop of `fs_rescan_docs`**, over the files of the directory. -/
theorem scanned (h : Distinct fs) (c : Scan) : Scanned c fs (fs.foldl scanFile c) := by
  induction fs generalizing c with
  | nil => exact ⟨.nil _, fun i => Or.inl ⟨rfl, rfl⟩, fun f hf => absurd hf List.not_mem_nil⟩
  | cons f fs ih =>
    have hn := (h.name f List.mem_cons_self).1
    have hs := ih h.tail (scanFile c f)
    rw [List.foldl_cons]
    rcases scanFile_cases c hn with ⟨i, -, he, hent⟩ | ⟨hno, hfull, he, hent⟩
    · have hi : (scanFile c f).index i = f.slot ∧ (scanFile c f).seen i = true := by
        rw [he]
        exact ⟨Function.update_self .., Function.update_self ..⟩
      -- the slot of `f` is left alone by the files behind it
      have hlast : (fs.foldl scanFile (scanFile c f)).index i = f.slot ∧
          (fs.foldl scanFile (scanFile c f)).seen i = true := by
        rcases hs.slot i with ⟨h1, h2⟩ | ⟨f', hf', -, h2⟩
        · exact ⟨h1.trans hi.1, h2.trans hi.2⟩
        · have hk : (fs.foldl scanFile (scanFile c f)).index.keys i = some f.key :=
            hs.entered.keeps hent.bears
          unfold Index.keys at hk
          rw [h2, File.key_slot (h.tail.name f' hf').1] at hk
          exact absurd (Option.some.inj hk) (h.head_ne hf')
      refine ⟨.cons hent hs.entered, fun j => ?_, fun f' hf' hb => ?_⟩
      · by_cases hj : j = i
        · subst hj
          exact Or.inr ⟨f, List.mem_cons_self, hlast.2, hlast.1⟩
        · refine (hs.slot j).imp (fun h1 => ?_) fun ⟨f', hf', h1⟩ =>
            ⟨f', List.mem_cons_of_mem f hf', h1⟩
          rw [h1.1, h1.2, he]
          exact ⟨Function.update_of_ne hj _ _, Function.update_of_ne hj _ _⟩
      · rcases List.mem_cons.mp hf' with rfl | hf'
        · exact ⟨i, hlast.2, hlast.1⟩
        · exact hs.file f' hf' hb
    · refine ⟨.cons hent hs.entered, fun j => ?_, fun f' hf' hb => ?_⟩
      · refine (hs.slot j).imp (fun h1 => ?_) fun ⟨f', hf', h1⟩ =>
          ⟨f', List.mem_cons_of_mem f hf', h1⟩
        rw [h1.1, h1.2, he]
        exact ⟨rfl, rfl⟩
      · rcases List.mem_cons.mp hf' with rfl | hf'
        · -- every slot has a name already, and keeps it
          obtain ⟨j, hj⟩ := hb
          cases hk : c.index.keys j with
          | none => exact absurd hk (hfull j)
          | some l =>
            have hkeep := (Entered.cons hent hs.entered).keeps hk
            obtain rfl := Option.some.inj (hj.symm.trans hkeep)
            exact absurd ⟨j, hk⟩ hno
        · exact hs.file f' hf' hb

end Scan

/-! ## The index after a scan -/

/-- The index `fs_rescan_docs` makes when these are the files of the directory. -/
def Index.rescanned (x : Index) (fs : List File) : Index :=
  (fs.foldl scanFile ⟨x, fun _ => false⟩).sweep

/-- Files without a slot of their name. -/
def Index.newFiles (x : Index) (fs : List File) : List File :=
  fs.filter fun f => (x.find (Slot.hasName f.name)).isNone

/-- How many slots have no name. -/
def Index.unnamed (x : Index) : Nat := (Finset.univ.filter fun i => (x i).named = false).card

/-- How many names are reserved that no file has. -/
def Index.reserved (x : Index) (fs : List File) : Nat :=
  (Finset.univ.filter fun i => (x i).named = true ∧ (x i).used = false ∧
    ∀ f ∈ fs, (x i).hasName f.name = false).card

/-- Some slot in use is of a file that is gone. -/
def Index.Gone (x : Index) (fs : List File) : Prop :=
  ∃ i, (x i).used = true ∧ ∀ f ∈ fs, (x i).hasName f.name = false

/-- **The index `y` follows the files**, and has the slots of `x` where it can: a slot in use is
that of a file, and each file has one slot at most; no two slots have the same name; a file whose
name had a slot has that slot; and every file has one if there are slots for the files and the
reserved names. -/
structure Follows (x y : Index) (fs : List File) : Prop where
  slot : ∀ i, (y i).used = true → ∃ f ∈ fs, y i = f.slot
  once : ∀ f ∈ fs, ∀ i j, y i = f.slot → y j = f.slot → i = j
  single : ∀ i j, (y i).named = true → nameEq (y i).name (y j).name = true → i = j
  kept : ∀ f ∈ fs, ∀ i, (x i).hasName f.name = true → y i = f.slot
  all : fs.length + x.reserved fs ≤ maxFiles → ∀ f ∈ fs, ∃ i, y i = f.slot

section Rescanned

variable {x : Index} {f : File} {fs : List File} {i j : Fin maxFiles}

theorem bears_keys : Bears x.keys f.key ↔ ∃ i, (x i).hasName f.name = true :=
  exists_congr fun _ => Slot.hasName_iff.symm

theorem fresh_eq (x : Index) (fs : List File) :
    fresh x.keys (fs.map File.key) = (x.newFiles fs).length := by
  classical
  unfold fresh Index.newFiles
  rw [List.filter_map, List.length_map]
  congr 1
  refine List.filter_congr fun f _ => ?_
  show decide (¬ Bears x.keys f.key) = (x.find (Slot.hasName f.name)).isNone
  rw [bears_keys]
  cases hf : x.find (Slot.hasName f.name) with
  | some i => simpa using ⟨i, find_some hf⟩
  | none => simpa using find_none hf

theorem free_eq (x : Index) : free x.keys = x.unnamed := by
  classical
  unfold free Index.unnamed
  congr 1
  exact Finset.filter_congr fun i _ => Slot.key_eq_none

/-- With no file gone, a name that is not a file's is a reserved one. -/
theorem others_le (h : ¬ x.Gone fs) : others x.keys (fs.map File.key) ≤ x.reserved fs := by
  classical
  unfold others Index.reserved
  refine Finset.card_le_card fun i hi => ?_
  simp only [Finset.mem_filter, Finset.mem_univ, true_and] at hi ⊢
  obtain ⟨k, hi, hk⟩ := hi
  have hnamed : (x i).named = true := by
    cases hc : (x i).named with
    | true => rfl
    | false =>
      have hnone : x.keys i = none := Slot.key_eq_none.mpr hc
      rw [hnone] at hi
      exact nomatch hi
  have hnone : ∀ f ∈ fs, (x i).hasName f.name = false := by
    intro f hf
    by_contra hc
    have hkey : x.keys i = some f.key := Slot.hasName_iff.mp (by simpa using hc)
    obtain rfl := Option.some.inj (hi.symm.trans hkey)
    exact hk (List.mem_map_of_mem hf)
  refine ⟨hnamed, ?_, hnone⟩
  by_contra hc
  exact h ⟨i, by simpa using hc, hnone⟩

/-- A slot of the index after a scan: that of a file, or given up, or as it was. -/
theorem Scanned.sweep_cases {c : Scan} (hs : Scanned ⟨x, fun _ => false⟩ fs c) (i : Fin maxFiles) :
    (c.seen i = true ∧ ∃ f ∈ fs, c.index i = f.slot ∧ c.sweep i = f.slot) ∨
      (c.seen i = false ∧ c.index i = x i ∧ (x i).used = true ∧ c.sweep i = (x i).clear) ∨
      (c.seen i = false ∧ c.index i = x i ∧ (x i).used = false ∧ c.sweep i = x i) := by
  unfold Scan.sweep
  rcases hs.slot i with ⟨hi, hseen⟩ | ⟨f, hf, hseen, hi⟩
  · have hseen : c.seen i = false := hseen
    have hi : c.index i = x i := hi
    refine Or.inr ?_
    rw [hseen, hi]
    cases hu : (x i).used with
    | true => exact Or.inl ⟨rfl, rfl, rfl, by simp⟩
    | false => exact Or.inr ⟨rfl, rfl, rfl, by simp⟩
  · refine Or.inl ⟨hseen, f, hf, hi, ?_⟩
    rw [hseen, hi]
    simp

/-- What a slot is called after a scan it was called during the scan. -/
theorem Scanned.key_sweep {c : Scan} (hs : Scanned ⟨x, fun _ => false⟩ fs c) {k : Name}
    (h : c.sweep.keys i = some k) : c.index.keys i = some k := by
  unfold Index.keys at h ⊢
  rcases hs.sweep_cases i with ⟨-, f, -, hi, he⟩ | ⟨-, -, -, he⟩ | ⟨-, hi, -, he⟩
  · rwa [hi, ← he]
  · rw [he, Slot.key_clear] at h
    exact nomatch h
  · rwa [hi, ← he]

/-- A file whose name was entered has its slot. -/
theorem Scanned.indexed {c : Scan} (hs : Scanned ⟨x, fun _ => false⟩ fs c) (hf : f ∈ fs)
    (hb : Bears c.index.keys f.key) : ∃ i, c.seen i = true ∧ c.sweep i = f.slot := by
  obtain ⟨i, hseen, hi⟩ := hs.file f hf hb
  refine ⟨i, hseen, ?_⟩
  unfold Scan.sweep
  rw [hseen, hi]
  simp

/-- **A scan keeps the index in order.** -/
theorem Index.Ok.rescanned (h : x.Ok) (hd : Distinct fs) : (x.rescanned fs).Ok := by
  have hs := scanned hd ⟨x, fun _ => false⟩
  refine ⟨fun i hu => ?_, fun i j k hi hj => ?_⟩
  · unfold Index.rescanned at hu ⊢
    rcases hs.sweep_cases i with ⟨-, f, hf, -, he⟩ | ⟨-, -, -, he⟩ | ⟨-, -, hu', he⟩
    · rw [he]
      simpa [Slot.named, File.slot] using (hd.name f hf).1
    · rw [he] at hu
      exact nomatch hu
    · rw [he, hu'] at hu
      exact nomatch hu
  · exact hs.entered.single h.single (hs.key_sweep hi) (hs.key_sweep hj)

theorem Index.Ok.single_name {y : Index} (h : y.Ok) (hi : (y i).named = true)
    (he : nameEq (y i).name (y j).name = true) : i = j := by
  have hne : (y j).named = true := by
    have hf := (nameEq_iff _ _).mp he
    unfold Slot.named at hi ⊢
    cases hn : (y j).name with
    | cons _ _ => rfl
    | nil =>
      rw [hn] at hf
      have : (y i).name = [] := List.map_eq_nil_iff.mp hf
      rw [this] at hi
      exact nomatch hi
  refine h.single (k := fold (y j).name) ?_ ?_
  · exact Slot.hasName_iff.mp (by unfold Slot.hasName; rw [hi, he]; rfl)
  · unfold Index.keys Slot.key
    rw [if_pos hne]

/-- No file is left out if there is room for the new ones. -/
theorem rescanned_all (hd : Distinct fs) (hroom : (x.newFiles fs).length ≤ x.unnamed) (hf : f ∈ fs) :
    ∃ i, x.rescanned fs i = f.slot := by
  have hs := scanned hd ⟨x, fun _ => false⟩
  have hall := (hs.entered.all_iff hd.nodup).mpr (by
    show fresh x.keys (fs.map File.key) ≤ free x.keys
    rw [fresh_eq, free_eq]
    exact hroom)
  obtain ⟨i, -, hi⟩ := hs.indexed hf (hall _ (List.mem_map_of_mem hf))
  exact ⟨i, hi⟩

/-- **What a scan makes of the index**, but for files that should have a slot and have none. -/
theorem follows_rescanned (h : x.Ok) (hd : Distinct fs)
    (hroom : ¬ x.Gone fs ∨ (x.newFiles fs).length ≤ x.unnamed) :
    Follows x (x.rescanned fs) fs := by
  have hs := scanned hd ⟨x, fun _ => false⟩
  have hok := h.rescanned hd
  refine ⟨fun i hu => ?_, fun f hf i j hi hj => ?_, fun i j => hok.single_name,
    fun f hf i hi => ?_, fun hfit f hf => ?_⟩
  · unfold Index.rescanned at hu ⊢
    rcases hs.sweep_cases i with ⟨-, f, hf, -, he⟩ | ⟨-, -, -, he⟩ | ⟨-, -, hu', he⟩
    · exact ⟨f, hf, he⟩
    · rw [he] at hu
      exact nomatch hu
    · rw [he, hu'] at hu
      exact nomatch hu
  · have hkey := File.key_slot (hd.name f hf).1
    exact hok.single (k := f.key) (by unfold Index.keys; rw [hi, hkey])
      (by unfold Index.keys; rw [hj, hkey])
  · -- the slot of a name is found again
    have hkey : x.keys i = some f.key := Slot.hasName_iff.mp hi
    have hkey' := hs.entered.keeps hkey
    obtain ⟨j, -, hj⟩ := hs.indexed hf ⟨i, hkey'⟩
    have hkj : (x.rescanned fs).keys j = some f.key := by
      unfold Index.keys Index.rescanned
      rw [hj, File.key_slot (hd.name f hf).1]
    obtain rfl := hs.entered.single h.single hkey' (hs.key_sweep hkj)
    exact hj
  · refine rescanned_all hd ?_ hf
    rcases hroom with hgone | hroom
    · rw [← fresh_eq, ← free_eq]
      refine fresh_le_free h.single hd.nodup ?_
      have hle := others_le hgone
      rw [List.length_map, Fintype.card_fin]
      omega
    · exact hroom

/-- The slot of a file that is gone is given up. -/
theorem Scanned.gone {c : Scan} (hs : Scanned ⟨x, fun _ => false⟩ fs c) (h : x.Ok) (hd : Distinct fs)
    (hu : (x i).used = true) (hno : ∀ f ∈ fs, (x i).hasName f.name = false) :
    c.sweep i = (x i).clear := by
  rcases hs.sweep_cases i with ⟨-, f, hf, hi, -⟩ | ⟨-, -, -, he⟩ | ⟨-, -, hu', -⟩
  · -- the slot has kept its name, which is not that of `f`
    have hkey : x.keys i = some (fold (x i).name) := by
      unfold Index.keys Slot.key
      rw [if_pos (h.named i hu)]
    have hkeep := hs.entered.keeps hkey
    unfold Index.keys at hkeep
    rw [hi, File.key_slot (hd.name f hf).1, ← hkey] at hkeep
    have := hno f hf
    rw [Slot.hasName_iff.mpr hkeep.symm] at this
    exact nomatch this
  · exact he
  · rw [hu] at hu'
    exact nomatch hu'

/-- With no file gone nothing is given up. -/
theorem Scanned.sweep_eq {c : Scan} (hs : Scanned ⟨x, fun _ => false⟩ fs c) (h : x.Ok)
    (hd : Distinct fs) (hgone : ¬ x.Gone fs) : c.sweep = c.index := by
  funext i
  rcases hs.sweep_cases i with ⟨-, f, -, hi, he⟩ | ⟨hseen, hi, hu, -⟩ | ⟨-, hi, -, he⟩
  · exact he.trans hi.symm
  · -- the file of the slot is there, and the scan has found the slot
    obtain ⟨f, hf, hname⟩ : ∃ f ∈ fs, (x i).hasName f.name = true := by
      by_contra hc
      refine hgone ⟨i, hu, fun f hf => ?_⟩
      by_contra hn
      exact hc ⟨f, hf, by simpa using hn⟩
    have hkeep : c.index.keys i = some f.key := hs.entered.keeps (Slot.hasName_iff.mp hname)
    obtain ⟨j, hj, hjf⟩ := hs.file f hf ⟨i, hkeep⟩
    have hkj : c.index.keys j = some f.key := by
      unfold Index.keys
      rw [hjf, File.key_slot (hd.name f hf).1]
    obtain rfl := hs.entered.single h.single hkeep hkj
    rw [hseen] at hj
    exact nomatch hj
  · exact he.trans hi.symm

/-- **A second scan changes nothing** if it gives no file a slot that had none. -/
theorem rescanned_again (h : x.Ok) (hd : Distinct fs)
    (hsame : ∀ f ∈ fs, Bears (fs.foldl scanFile ⟨x.rescanned fs, fun _ => false⟩).index.keys f.key →
      ∃ j, x.rescanned fs j = f.slot) :
    (x.rescanned fs).rescanned fs = x.rescanned fs := by
  have hs := scanned hd ⟨x, fun _ => false⟩
  have hs2 := scanned hd ⟨x.rescanned fs, fun _ => false⟩
  have hok := h.rescanned hd
  show Scan.sweep (fs.foldl scanFile ⟨x.rescanned fs, fun _ => false⟩) = x.rescanned fs
  generalize fs.foldl scanFile ⟨x.rescanned fs, fun _ => false⟩ = c2 at hs2 hsame ⊢
  have hone : ∀ {f : File}, f ∈ fs → ∀ {i j}, c2.index.keys i = some f.key →
      c2.index j = f.slot → i = j := by
    intro f hf i j hi hj
    refine hs2.entered.single hok.single hi (?_ : c2.index.keys j = some f.key)
    unfold Index.keys
    rw [hj, File.key_slot (hd.name f hf).1]
  have hkey : ∀ {f : File}, f ∈ fs → ∀ {i}, x.rescanned fs i = f.slot →
      c2.index.keys i = some f.key := by
    intro f hf i hi
    refine hs2.entered.keeps (?_ : (x.rescanned fs).keys i = some f.key)
    unfold Index.keys
    rw [hi, File.key_slot (hd.name f hf).1]
  funext i
  rcases hs2.sweep_cases i with ⟨-, f, hf, hi, he⟩ | ⟨hseen, -, hu, -⟩ | ⟨-, -, -, he⟩
  · have hki : c2.index.keys i = some f.key := by
      unfold Index.keys
      rw [hi, File.key_slot (hd.name f hf).1]
    obtain ⟨j, hj⟩ := hsame f hf ⟨i, hki⟩
    obtain rfl := hone hf (hkey hf hj) hi
    rw [he, hj]
  · -- a slot in use is that of a file, and has been seen
    rcases hs.sweep_cases i with ⟨-, f, hf, -, hi⟩ | ⟨-, -, -, hi⟩ | ⟨-, -, hu', hi⟩
    · obtain ⟨j, hj, hjf⟩ := hs2.file f hf ⟨i, hkey hf hi⟩
      obtain rfl := hone hf (hkey hf hi) hjf
      rw [hseen] at hj
      exact nomatch hj
    · unfold Index.rescanned at hu
      rw [hi] at hu
      exact nomatch hu
    · unfold Index.rescanned at hu
      rw [hi, hu'] at hu
      exact nomatch hu
  · exact he

/-- **When a second scan changes nothing**: exactly if no file is gone, or there was room for the
new ones. -/
theorem rescanned_again_iff (h : x.Ok) (hd : Distinct fs) :
    (x.rescanned fs).rescanned fs = x.rescanned fs ↔
      ¬ x.Gone fs ∨ (x.newFiles fs).length ≤ x.unnamed := by
  have hs := scanned hd ⟨x, fun _ => false⟩
  have hs2 := scanned hd ⟨x.rescanned fs, fun _ => false⟩
  constructor
  · intro heq
    by_contra hc
    rw [not_or, not_not, ← fresh_eq, ← free_eq] at hc
    obtain ⟨⟨i, hu, hno⟩, hroom⟩ := hc
    have hi : x.rescanned fs i = (x i).clear := hs.gone h hd hu hno
    -- some file has found no slot, and slot `i` is free for it now
    obtain ⟨f, hf, hleft⟩ : ∃ f ∈ fs, ¬ Bears (fs.foldl scanFile ⟨x, fun _ => false⟩).index.keys
        f.key := by
      by_contra hc
      push Not at hc
      refine hroom ((hs.entered.all_iff hd.nodup).mp fun k hk => ?_)
      obtain ⟨f, hf, rfl⟩ := List.mem_map.mp hk
      exact hc f hf
    by_cases hb : Bears (fs.foldl scanFile ⟨x.rescanned fs, fun _ => false⟩).index.keys f.key
    · obtain ⟨j, -, hj⟩ := hs2.indexed hf hb
      refine hleft ⟨j, hs.key_sweep ?_⟩
      have hj' : x.rescanned fs j = f.slot := (congrFun heq j).symm.trans hj
      show (x.rescanned fs j).key = some f.key
      rw [hj', File.key_slot (hd.name f hf).1]
    · have hfull := hs2.entered.full (List.mem_map_of_mem hf) hb i
      have hi' := congrFun heq i
      rcases hs2.sweep_cases i with ⟨-, f', hf', -, he⟩ | ⟨-, -, hu', -⟩ | ⟨-, he, -, -⟩
      · have hkey := File.key_slot (hd.name f' hf').1
        rw [← he, show Scan.sweep _ i = (x i).clear from hi'.trans hi] at hkey
        exact nomatch hkey
      · have hu' : (x.rescanned fs i).used = true := hu'
        rw [hi] at hu'
        exact nomatch hu'
      · unfold Index.keys at hfull
        rw [he] at hfull
        exact hfull (by rw [hi]; rfl)
  · intro hroom
    refine rescanned_again h hd fun f hf hb => ?_
    by_cases hgot : Bears (fs.foldl scanFile ⟨x, fun _ => false⟩).index.keys f.key
    · obtain ⟨j, -, hj⟩ := hs.indexed hf hgot
      exact ⟨j, hj⟩
    · rcases hroom with hgone | hroom
      · -- every slot has a name, and none of them is that of `f`
        exfalso
        obtain ⟨i, hi⟩ := hb
        have hfull := hs.entered.full (List.mem_map_of_mem hf) hgot i
        have hsame : x.rescanned fs = (fs.foldl scanFile ⟨x, fun _ => false⟩).index :=
          hs.sweep_eq h hd hgone
        cases hk : (x.rescanned fs).keys i with
        | none => exact hfull (by rw [← hsame]; exact hk)
        | some l =>
          obtain rfl := Option.some.inj (hi.symm.trans (hs2.entered.keeps hk))
          exact hgot ⟨i, by rw [← hsame]; exact hk⟩
      · exact rescanned_all hd hroom hf

end Rescanned

end Fs
