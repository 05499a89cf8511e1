import MiniWin.Lib.PointerForest
import MiniWin.Mwfs.View

/-!
# What the volume holds, and who owns which sector

The files and directories of a volume form a *graph*: an object for each inode
number, where a directory is its sequence of slots and a file its bytes. `Rep g
G V` says that the volume `V` holds the graph `G`: the inode of each object and
the sectors it leads to spell the object out, no sector is used for two
purposes, and each one in use is marked in the bitmap.

Half-way through an operation more is owned than the graph shows: the new file
has sectors before it has a name, and a directory has a sector in memory before
its inode is written back. `Inv g G F V` is the invariant of those states. Its
forest `F` gives the pointers of every owner *as the code has them in memory*;
on the disk an inode may still lack some of them. Every lemma of this file
takes one small step of an operation from `Inv` to `Inv`, and `Inv.rep` forgets
the forest again.

`Inv` says nothing about sectors that are marked and not owned, nor about inodes
outside the graph: a power cut leaves such orphans, and they do no harm.
-/

namespace Mwfs

open Place

/-! ## Pointers -/

/-- The pointers an inode holds: the direct ones, the indirect table and the
double-indirect one. -/
def Ino.top (t : Ino) (r : Nat) : Nat :=
  if r < ndirect then t.direct r
  else if r = ndirect then t.ind
  else if r = ndirect + 1 then t.dind
  else 0

/-- Which places lead to a table: the two indirect pointers, and the entries of
the double-indirect table. -/
def isTab : Place Nat → Bool
  | .root r => r == 8 || r == 9
  | .entry (.root r) _ => r == 9
  | .entry (.entry _ _) _ => false

/-- The sectors of a file that its pointers can reach. -/
def maxSectors : Nat := 16520

/-- Where the pointer to sector `idx` of a file is. -/
def datPos (idx : Nat) : Place Nat :=
  if idx < 8 then .root idx
  else if idx < 136 then .entry (.root 8) (idx - 8)
  else .entry (.entry (.root 9) ((idx - 136) / 128)) ((idx - 136) % 128)

theorem isTab_datPos (idx : Nat) : isTab (datPos idx) = false := by
  unfold datPos
  split
  · simp only [isTab, Bool.or_eq_false_iff, beq_eq_false_iff_ne]
    omega
  · split <;> rfl

theorem datPos_inj {a b : Nat} (h : datPos a = datPos b) : a = b := by
  unfold datPos at h
  by_cases ha : a < 8
  · by_cases hb : b < 8
    · rw [if_pos ha, if_pos hb] at h
      injection h
    · rw [if_pos ha, if_neg hb] at h
      split at h <;> injection h
  · by_cases hb : b < 8
    · rw [if_neg ha, if_pos hb] at h
      split at h <;> injection h
    · rw [if_neg ha, if_neg hb] at h
      by_cases ha' : a < 136 <;> by_cases hb' : b < 136
      · rw [if_pos ha', if_pos hb', Place.entry.injEq] at h
        omega
      · rw [if_pos ha', if_neg hb', Place.entry.injEq] at h
        injection h.1
      · rw [if_neg ha', if_pos hb', Place.entry.injEq] at h
        injection h.1
      · rw [if_neg ha', if_neg hb', Place.entry.injEq, Place.entry.injEq] at h
        omega

/-- The pointers of the table in a sector. -/
def View.tbl (V : View) (l k : Nat) : Nat := if k < ptrs then (V.sec l).le32 (4 * k) else 0

/-- The sector a place of an inode leads to. -/
def View.ref (V : View) (u : Nat → Nat) (p : Place Nat) : Nat := Place.ref isTab V.tbl u p

/-- The sector holding the `idx`-th sector of a file, `0` for a hole. -/
def View.cell (V : View) (t : Ino) (idx : Nat) : Nat := V.ref t.top (datPos idx)

/-- The contents of the `idx`-th sector of a file: a hole reads as zeros. -/
def View.block (V : View) (t : Ino) (idx : Nat) : Block :=
  if V.cell t idx = 0 then Block.zero else V.sec (V.cell t idx)

/-- Byte `x` of a file. -/
def View.byteAt (V : View) (t : Ino) (x : Nat) : UInt8 := V.block t (x / 512) (x % 512)

theorem View.tbl_zero {V : View} {l : Nat} (h : V.sec l = Block.zero) (k : Nat) :
    V.tbl l k = 0 := by
  unfold View.tbl
  rw [h]
  split <;> rfl

theorem View.cell_direct (V : View) (t : Ino) {k : Nat} (h : k < 8) :
    V.cell t k = t.direct k := by
  rw [View.cell, datPos, if_pos h]
  show t.top k = t.direct k
  rw [Ino.top, if_pos (by simpa [ndirect] using h)]

theorem View.ref_ind (V : View) (t : Ino) : V.ref t.top (.root 8) = t.ind := rfl

theorem View.ref_dind (V : View) (t : Ino) : V.ref t.top (.root 9) = t.dind := rfl

theorem View.cell_ind (V : View) (t : Ino) {k : Nat} (h : k < 128) :
    V.cell t (8 + k) = if t.ind = 0 then 0 else V.tbl t.ind k := by
  have hpos : datPos (8 + k) = .entry (.root 8) k := by
    rw [datPos, if_neg (by omega), if_pos (by omega)]
    congr 1
    omega
  rw [View.cell, hpos, View.ref, Place.ref]
  simp [isTab, Ino.top, ndirect]

/-- The table of the double-indirect one that leads to sector `136 + j`. -/
def View.mid (V : View) (t : Ino) (j : Nat) : Nat := V.ref t.top (.entry (.root 9) j)

theorem View.mid_eq (V : View) (t : Ino) (j : Nat) :
    V.mid t j = if t.dind = 0 then 0 else V.tbl t.dind j := by
  rw [View.mid, View.ref, Place.ref]
  simp [isTab, Ino.top, ndirect]

theorem datPos_dind (j : Nat) :
    datPos (136 + j) = .entry (.entry (.root 9) (j / ptrs)) (j % ptrs) := by
  rw [datPos, if_neg (by omega), if_neg (by omega), Nat.add_sub_cancel_left]
  rfl

theorem View.cell_dind (V : View) (t : Ino) (j : Nat) :
    V.cell t (136 + j)
      = if V.mid t (j / ptrs) = 0 then 0 else V.tbl (V.mid t (j / ptrs)) (j % ptrs) := by
  rw [View.cell, datPos_dind, View.ref, Place.ref]
  simp only [isTab, beq_self_eq_true, Bool.true_eq_false, false_or]
  rfl

/-- Past the last sector its pointers reach, a file has nothing but a hole. -/
theorem View.cell_eq_zero (V : View) (t : Ino) {k : Nat} (h : maxSectors ≤ k) :
    V.cell t k = 0 := by
  simp only [maxSectors] at h
  obtain ⟨j, rfl⟩ : ∃ j, k = 136 + j := ⟨k - 136, by omega⟩
  have hmid : V.mid t (j / ptrs) = 0 := by
    have hj : ¬ j / ptrs < ptrs := by
      simp only [ptrs]
      omega
    rw [View.mid_eq, View.tbl, if_neg hj, ite_self]
  rw [View.cell_dind, if_pos hmid]

/-- **The tables of an owner decide its places.** -/
theorem View.ref_congr_tbl {V V' : View} {u : Nat → Nat}
    (h : ∀ q, isTab q = true → V.ref u q ≠ 0 →
      ∀ k, V'.tbl (V.ref u q) k = V.tbl (V.ref u q) k) (p : Place Nat) :
    V'.ref u p = V.ref u p :=
  ref_congr (fun q ht h0 => funext (h q ht h0)) p

theorem View.ref_congr_sec {V V' : View} {u : Nat → Nat}
    (h : ∀ q, isTab q = true → V.ref u q ≠ 0 → V'.sec (V.ref u q) = V.sec (V.ref u q))
    (p : Place Nat) : V'.ref u p = V.ref u p :=
  View.ref_congr_tbl (fun q ht h0 k => by rw [View.tbl, View.tbl, h q ht h0]) p

/-! ## The graph -/

/-- What an inode stands for. -/
inductive Obj where
  | file (bytes : List UInt8) (aux : UInt32)
  | dir (slots : List (Option Dent))

/-- The `MWFS_T_*` of an object. -/
def Obj.type : Obj → Nat
  | .file _ _ => tFile
  | .dir _ => tDir

/-- The objects of a volume, by inode number. -/
abbrev Graph := Nat → Option Obj

/-- Every object of `G` is an object of `G'`. -/
def Graph.Sub (G G' : Graph) : Prop := ∀ j o, G j = some o → G' j = some o

/-- Entry `e` of a directory sector: `none` when it is free. -/
def dentSlot (b : Block) (e : Nat) : Option Dent :=
  if dentIno b e = 0 then none else some (dentAt b e)

/-- The inode and its sectors hold this file. -/
structure FileRep (V : View) (t : Ino) (bytes : List UInt8) (aux : UInt32) : Prop where
  type : t.type = tFile
  size : t.size = bytes.length
  room : bytes.length ≤ 512 * maxSectors
  crc : t.crc = crc32 bytes
  aux : t.aux = aux
  byte : ∀ x (h : x < bytes.length), V.byteAt t x = bytes[x]

/-- The inode and its sectors hold this directory. -/
structure DirRep (V : View) (t : Ino) (slots : List (Option Dent)) : Prop where
  type : t.type = tDir
  size : t.size = 64 * slots.length
  dvd : 8 ∣ slots.length
  cell : ∀ k, 8 * k < slots.length → V.cell t k ≠ 0
  slot : ∀ x (h : x < slots.length), slots[x] = dentSlot (V.block t (x / 8)) (x % 8)

/-- The inode and its sectors hold this object. -/
def ObjRep (V : View) (t : Ino) : Obj → Prop
  | .file bytes aux => FileRep V t bytes aux
  | .dir slots => DirRep V t slots

theorem ObjRep.type_eq {V : View} {t : Ino} {o : Obj} (h : ObjRep V t o) : t.type = o.type := by
  cases o with
  | file bytes aux => exact FileRep.type h
  | dir slots => exact DirRep.type h

/-- **What decides an object**: the sectors below its size. -/
theorem ObjRep.congr {V V' : View} {t : Ino} {o : Obj} (ho : ObjRep V t o)
    (h : ∀ k, 512 * k < t.size → V'.cell t k = V.cell t k
      ∧ (V.cell t k ≠ 0 → V'.sec (V.cell t k) = V.sec (V.cell t k))) :
    ObjRep V' t o := by
  have hblock : ∀ k, 512 * k < t.size → V'.block t k = V.block t k := by
    intro k hk
    obtain ⟨hc, hsec⟩ := h k hk
    unfold View.block
    rw [hc]
    split
    · rfl
    · next h0 => exact hsec h0
  cases o with
  | file bytes aux =>
    refine { ho with byte := fun x hx => ?_ }
    have hsz := FileRep.size ho
    rw [← FileRep.byte ho x hx, View.byteAt, View.byteAt, hblock _ (by omega)]
  | dir slots =>
    have hsz := DirRep.size ho
    obtain ⟨m, hm⟩ := DirRep.dvd ho
    refine { ho with cell := fun k hk => ?_, slot := fun x hx => ?_ }
    · rw [(h k (by omega)).1]
      exact DirRep.cell ho k hk
    · rw [DirRep.slot ho x hx, hblock _ (by omega)]

/-! ## The invariant -/

/-- The pointers of the owners of a volume, by inode number. -/
abbrev Forest := Nat → Option (Nat → Nat)

/-- The sector belongs to some owner. -/
def Owns (V : View) (F : Forest) (l : Nat) : Prop := Owned isTab V.tbl F l

/-- The volume holds the graph, and `F` are the pointers of all owners. -/
structure Inv (g : Geo) (G : Graph) (F : Forest) (V : View) : Prop where
  sb : ∃ label : Name, label.length = 16 ∧ V.sb = sbBlock g label
  pad : ∀ l, ¬(g.data_lba ≤ l ∧ l < g.sectors) → V.bit l = true
  sep : Sep isTab V.tbl F
  data : ∀ l, Owns V F l → g.Data l
  used : ∀ l, Owns V F l → V.bit l = true
  obj : ∀ j o, G j = some o → ∃ u, F j = some u ∧
    (∀ r, (V.ino j).top r = 0 ∨ (V.ino j).top r = u r) ∧ ObjRep V (V.ino j) o

/-- The pointers the inodes of a graph hold on the disk. -/
def diskForest (G : Graph) (V : View) : Forest := fun j => (G j).map fun _ => (V.ino j).top

/-- **The volume holds the graph.** -/
def Rep (g : Geo) (G : Graph) (V : View) : Prop := Inv g G (diskForest G V) V

/-- Nothing is marked in the bitmap that is not owned. -/
def Tight (g : Geo) (F : Forest) (V : View) : Prop :=
  ∀ l, g.Data l → V.bit l = true → Owns V F l

theorem diskForest_some {G : Graph} {V : View} {j : Nat} {u : Nat → Nat} :
    diskForest G V j = some u ↔ (∃ o, G j = some o) ∧ u = (V.ino j).top := by
  unfold diskForest
  cases G j with
  | none => simp
  | some o => simp [eq_comm]

section Inv

variable {g : Geo} {G G' : Graph} {F F' : Forest} {V V' : View}

/-- A sector some place of an owner leads to is owned. -/
theorem owns_ref {j : Nat} {u : Nat → Nat} (hj : F j = some u) {p : Place Nat}
    (h0 : V.ref u p ≠ 0) : Owns V F (V.ref u p) :=
  ⟨h0, j, u, p, hj, rfl⟩

/-- On the disk an object's places are empty or as in memory. -/
theorem Inv.ref_ino (h : Inv g G F V) {j : Nat} {o : Obj} (hj : G j = some o) :
    ∃ u, F j = some u ∧ ∀ p, V.ref (V.ino j).top p = 0
      ∨ V.ref (V.ino j).top p = V.ref u p := by
  obtain ⟨u, hu, hsub, -⟩ := h.obj j o hj
  exact ⟨u, hu, fun p => ref_of_sub hsub p⟩

/-- What an object of the graph leads to is owned. -/
theorem Inv.owns_ino (h : Inv g G F V) {j : Nat} {o : Obj} (hj : G j = some o) {p : Place Nat}
    (h0 : V.ref (V.ino j).top p ≠ 0) : Owns V F (V.ref (V.ino j).top p) := by
  obtain ⟨u, hu, href⟩ := h.ref_ino hj
  have heq := (href p).resolve_left h0
  rw [heq] at h0 ⊢
  exact owns_ref hu h0

/-- Where owned sectors are as before, every pointer leads where it did. -/
theorem ref_eq_of_sec (hsec : ∀ l, Owns V F l → V'.sec l = V.sec l) {j : Nat} {u : Nat → Nat}
    (hj : F j = some u) (p : Place Nat) : V'.ref u p = V.ref u p :=
  View.ref_congr_sec (fun _ _ hq => hsec _ (owns_ref hj hq)) p

/-- Where no pointer moves, no sector changes hands. -/
theorem owns_iff_of_ref (href : ∀ j u, F j = some u → ∀ p, V'.ref u p = V.ref u p) (l : Nat) :
    Owns V' F l ↔ Owns V F l := by
  constructor
  · rintro ⟨hl, j, u, p, hj, hp⟩
    exact ⟨hl, j, u, p, hj, (href j u hj p).symm.trans hp⟩
  · rintro ⟨hl, j, u, p, hj, hp⟩
    exact ⟨hl, j, u, p, hj, (href j u hj p).trans hp⟩

theorem owns_iff_of_sec (hsec : ∀ l, Owns V F l → V'.sec l = V.sec l) (l : Nat) :
    Owns V' F l ↔ Owns V F l :=
  owns_iff_of_ref (fun _ _ hj p => ref_eq_of_sec hsec hj p) l

/-- Where no pointer moves, places stay apart. -/
theorem Inv.sep_of_ref (h : Inv g G F V)
    (href : ∀ j u, F j = some u → ∀ p, V'.ref u p = V.ref u p) : Sep isTab V'.tbl F := by
  intro i j t u p q hi hj hpq h0
  have hp : Place.ref isTab V'.tbl t p = Place.ref isTab V.tbl t p := href i t hi p
  have hq : Place.ref isTab V'.tbl u q = Place.ref isTab V.tbl u q := href j u hj q
  rw [hp] at hpq h0
  rw [hq] at hpq
  exact h.sep i j t u p q hi hj hpq h0

/-- **The frame rule.** Changes to unowned sectors, to inodes outside the graph
and to bits of unowned sectors leave everything as it was. -/
theorem Inv.congr (h : Inv g G F V) (hsb : V'.sb = V.sb)
    (hpad : ∀ l, ¬(g.data_lba ≤ l ∧ l < g.sectors) → V'.bit l = V.bit l)
    (hino : ∀ j o, G j = some o → V'.ino j = V.ino j)
    (hsec : ∀ l, Owns V F l → V'.sec l = V.sec l)
    (hbit : ∀ l, Owns V F l → V'.bit l = V.bit l) : Inv g G F V' := by
  have hown : ∀ l, Owns V' F l → Owns V F l := fun l => (owns_iff_of_sec hsec l).mp
  refine ⟨?_, ?_, h.sep_of_ref (fun _ _ hj p => ref_eq_of_sec hsec hj p), ?_, ?_, ?_⟩
  · obtain ⟨label, hlen, hl⟩ := h.sb
    exact ⟨label, hlen, hsb.trans hl⟩
  · intro l hl
    rw [hpad l hl]
    exact h.pad l hl
  · exact fun l hl => h.data l (hown l hl)
  · intro l hl
    rw [hbit l (hown l hl)]
    exact h.used l (hown l hl)
  · intro j o hj
    obtain ⟨u, hu, hsub, ho⟩ := h.obj j o hj
    rw [hino j o hj]
    have hcell : ∀ k, V'.cell (V.ino j) k = V.cell (V.ino j) k := fun k =>
      View.ref_congr_sec (fun _ _ hq => hsec _ (h.owns_ino hj hq)) _
    exact ⟨u, hu, hsub, ho.congr fun k _ => ⟨hcell k, fun h0 => hsec _ (h.owns_ino hj h0)⟩⟩

/-- A smaller graph, or fewer owners. -/
theorem Inv.mono (h : Inv g G F V) (hG : G'.Sub G)
    (hF : ∀ i t', F' i = some t' → ∃ t, F i = some t ∧ ∀ r, t' r = 0 ∨ t' r = t r)
    (hobj : ∀ j o, G' j = some o → ∃ u, F' j = some u ∧
      ∀ r, (V.ino j).top r = 0 ∨ (V.ino j).top r = u r) : Inv g G' F' V where
  sb := h.sb
  pad := h.pad
  sep := h.sep.of_sub hF
  data l hl := h.data l (Owned.of_sub hF hl)
  used l hl := h.used l (Owned.of_sub hF hl)
  obj j o hj := by
    obtain ⟨u, hu, hsub⟩ := hobj j o hj
    obtain ⟨-, -, -, ho⟩ := h.obj j o (hG j o hj)
    exact ⟨u, hu, hsub, ho⟩

/-- The invariant forgets what is only in memory. -/
theorem Inv.rep (h : Inv g G F V) : Rep g G V := by
  refine h.mono (fun _ _ hj => hj) ?_ ?_
  · intro i t' hi
    obtain ⟨⟨o, ho⟩, rfl⟩ := diskForest_some.mp hi
    obtain ⟨u, hu, hsub, -⟩ := h.obj i o ho
    exact ⟨u, hu, hsub⟩
  · intro j o hj
    exact ⟨_, diskForest_some.mpr ⟨⟨o, hj⟩, rfl⟩, fun r => Or.inr rfl⟩

/-- A graph held is held in part. -/
theorem Rep.mono (h : Rep g G V) (hG : G'.Sub G) : Rep g G' V := by
  refine (Inv.mono h hG ?_ ?_ : Inv g G' (diskForest G' V) V)
  · intro i t' hi
    obtain ⟨⟨o, ho⟩, rfl⟩ := diskForest_some.mp hi
    exact ⟨_, diskForest_some.mpr ⟨⟨o, hG i o ho⟩, rfl⟩, fun r => Or.inr rfl⟩
  · intro j o hj
    exact ⟨_, diskForest_some.mpr ⟨⟨o, hj⟩, rfl⟩, fun r => Or.inr rfl⟩

end Inv

end Mwfs
