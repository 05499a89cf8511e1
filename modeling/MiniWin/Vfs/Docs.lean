import Mathlib.Data.Nat.Digits.Lemmas
import MiniWin.Vfs.World

/-!
# The document index

`kernel/fs.h`: what the desktop, Notepad and MiniFiles call document `n` is slot `n` of an index of
`/docs`, and the bytes are in an ordinary file there. A slot with a name but not in use holds a name
reserved for a document that was not saved yet. `fs_rescan_docs` brings the index up to date with
the directory.
-/

namespace Fs

open Mwfs Vfs

attribute [local instance] neZero_maxVols

/-- `FS_MAX_FILES`. -/
abbrev maxFiles : Nat := 64

/-- `FS_MAX_FILE_BYTES`. -/
def maxFileBytes : Nat := 4096

/-- An entry of `fs_doc_tab` with the one of `fs_doc_names`. -/
structure Slot where
  used : Bool
  ino : Nat
  len : Nat
  /-- Empty when the first byte is zero. -/
  name : Name
  deriving DecidableEq

/-- `fs_doc_tab` and `fs_doc_names`. -/
abbrev Index := Fin maxFiles → Slot

/-- The index when the kernel starts. -/
def Index.empty : Index := fun _ => ⟨false, 0, 0, []⟩

/-- The directory `docs`. -/
def docs : Name := [0x64, 0x6F, 0x63, 0x73]

/-- `fs_doc_names[i][0]`. -/
def Slot.named (x : Slot) : Bool := !x.name.isEmpty

/-- `fs_doc_names[i][0] && mwfs_name_eq(fs_doc_names[i], name)`. -/
def Slot.hasName (name : Name) (x : Slot) : Bool := x.named && nameEq x.name name

/-- The first slot of this kind. -/
def Index.find (x : Index) (p : Slot → Bool) : Option (Fin maxFiles) :=
  (List.finRange maxFiles).find? fun i => p (x i)

/-- `fs_strcpy_fixed` into a name. -/
def strcpyFixed (name : Name) : Name := name.take nameMax

/-- A slot that is given up. -/
def Slot.clear (x : Slot) : Slot := { x with used := false, name := [] }

/-- `fs_root`. -/
def root (W : World) : Option St := if W.root_err = .ok then some (W.vols 0) else none

/-- `fs_dir_ino`: the directory of the root volume, which is made if there is nothing of that
name. -/
def dirIno (now : UInt32) (W : World) (name : Name) : Option Nat × World :=
  match root W with
  | none => (none, W)
  | some v =>
    match dirLookup v rootIno name with
    | .ok (ino, t) => (if t = tDir then some ino else none, W)
    | .error .noent =>
      match Mwfs.mkdir v rootIno name now with
      | (.ok, n, v) => (some n, W.put 0 v)
      | (_, _, v) => (none, W.put 0 v)
    | .error _ => (none, W)

/-! ## Rescanning -/

/-- The variables of the loop of `fs_rescan_docs`. -/
structure Scan where
  index : Index
  seen : Fin maxFiles → Bool

/-- The slot of a name: the one that has it, or else the first one without a name. -/
def Index.slotFor (x : Index) (name : Name) : Option (Fin maxFiles) :=
  match x.find (Slot.hasName name) with
  | some i => some i
  | none => x.find fun y => !y.named

/-- One round of the loop: an entry of the directory. -/
def scanEntry (v : St) (c : Scan) (e : Dent) : Scan :=
  if e.type ≠ tFile then c
  else
    match c.index.slotFor e.name with
    | none => c  -- more documents than the index holds
    | some i =>
      let len := match inoGet v e.ino with
        | some t => t.size
        | none => 0
      { index := Function.update c.index i ⟨true, e.ino, len, strcpyFixed e.name⟩
        seen := Function.update c.seen i true }

/-- The loop of `fs_rescan_docs` from entry `idx` on: `none` if `rounds` were not enough. -/
def scanFrom (v : St) (dino : Nat) : Nat → Nat → Scan → Option Scan
  | 0, _, _ => none
  | rounds + 1, idx, c =>
    match dirNth v dino idx with
    | some (some e) => scanFrom v dino rounds (idx + 1) (scanEntry v c e)
    | _ => some c

/-- The end of `fs_rescan_docs`: slots in use whose file was not seen are given up. -/
def Scan.sweep (c : Scan) : Index := fun i =>
  if (c.index i).used = true ∧ c.seen i = false then (c.index i).clear else c.index i

/-- `fs_rescan_docs`. -/
def rescanDocs (rounds : Nat) (now : UInt32) (W : World) (x : Index) : Option (Index × World) :=
  let c : Scan := ⟨x, fun _ => false⟩
  match dirIno now W docs with
  | (none, W) => some (c.sweep, W)
  | (some dino, W) => (scanFrom (W.vols 0) dino rounds 0 c).map fun c => (c.sweep, W)

/-! ## What else changes the index -/

/-- The decimal digits that `fs_find_empty_slot` writes, none for zero. -/
def decimal (n : Nat) : List UInt8 := (Nat.digits 10 n).reverse.map fun d => UInt8.ofNat (48 + d)

/-- `DOC.TXT`, `DOC (1).TXT`, `DOC (2).TXT`. -/
def defaultName (n : Nat) : Name :=
  [0x44, 0x4F, 0x43] ++ (if 1 < n then [0x20, 0x28] ++ decimal (n - 1) ++ [0x29] else [])
    ++ [0x2E, 0x54, 0x58, 0x54]

/-- `fs_find_empty_slot`: a free slot, with a name reserved in it. -/
def findEmptySlot (now : UInt32) (W : World) (x : Index) : Option (Fin maxFiles) × Index × World :=
  match dirIno now W docs with
  | (none, W) => (none, x, W)
  | (some dino, W) =>
    match x.find fun y => !y.named with
    | none => (none, x, W)
    | some i =>
      let ok (n : Nat) : Bool :=
        (x.find (Slot.hasName (defaultName n))).isNone
          && decide (dirLookup (W.vols 0) dino (defaultName n) = .error .noent)
      match (List.range' 1 999).find? ok with
      | none => (none, x, W)
      | some n =>
        (some i, Function.update x i { x i with used := false, name := strcpyFixed (defaultName n) },
          W)

/-- The index after `fs_store_named` has written the file: no other slot keeps its name. -/
def Index.store (x : Index) (slot : Fin maxFiles) (name : Name) (ino len : Nat) : Index :=
  Function.update (fun i => if (x i).hasName name then (x i).clear else x i) slot
    ⟨true, ino, len, strcpyFixed name⟩

/-- `fs_store_named`. -/
def storeNamed (now : UInt32) (W : World) (x : Index) (slot : Fin maxFiles) (name : Name)
    (data : List UInt8) : Bool × Index × World :=
  if maxFileBytes < data.length then (false, x, W)
  else
    match dirIno now W docs with
    | (none, W) => (false, x, W)
    | (some dino, W) =>
      match filePut (W.vols 0) dino name data 0 now with
      | (.ok, v) =>
        let ino := match dirLookup v dino name with
          | .ok (ino, _) => ino
          | .error _ => 0
        -- Save As: the old name goes
        let v :=
          if (x slot).used = true ∧ nameEq (x slot).name name = false then
            (Mwfs.unlink v dino (x slot).name).2
          else v
        (true, x.store slot name ino data.length, W.put 0 v)
      | (_, v) => (false, x, W.put 0 v)

/-- `fs_save_slot`. -/
def saveSlot (now : UInt32) (W : World) (x : Index) (slot : Fin maxFiles) (data : List UInt8) :
    Bool × Index × World :=
  if (x slot).named = false then (false, x, W)
  else
    match storeNamed now W x slot (x slot).name data with
    | (true, x, W) => (true, x, W)
    | (false, x, W) =>
      (false, if (x slot).used then x else Function.update x slot { x slot with name := [] }, W)

/-- `fs_save_slot_as`. -/
def saveSlotAs (now : UInt32) (W : World) (x : Index) (slot : Fin maxFiles) (name : Name)
    (data : List UInt8) : Bool × Index × World :=
  if nameOk name = false then (false, x, W) else storeNamed now W x slot name data

/-- `fs_delete_slot`. -/
def deleteSlot (now : UInt32) (W : World) (x : Index) (slot : Fin maxFiles) :
    Bool × Index × World :=
  match root W with
  | none => (false, x, W)
  | some _ =>
    if (x slot).used = false then (false, x, W)
    else
      match dirIno now W docs with
      | (none, W) => (false, x, W)
      | (some dino, W) =>
        match Mwfs.unlink (W.vols 0) dino (x slot).name with
        | (.ok, v) => (true, Function.update x slot (x slot).clear, W.put 0 v)
        | (_, v) => (false, x, W.put 0 v)

end Fs
