import MiniWin.Mwfs.Ops

/-!
# Checking and repairing a volume

`mwfs_check` walks the directories from the root, then gives back the inodes the
walk did not come to, and last the sectors that are marked and that no inode it
came to leads to. With `fix` it also repairs what it finds.
-/

namespace Mwfs

/-- `mwfs_report_t`. -/
structure Report where
  files : Nat
  dirs : Nat
  orphans : Nat
  bad_entries : Nat
  bad_blocks : Nat
  unmarked : Nat
  leaked : Nat
  damaged_files : Nat
  dup_links : Nat
  fixed : Nat
  skipped_leak_scan : Bool
  incomplete : Bool
  deriving DecidableEq

/-- The report a check starts with. -/
def Report.zero : Report := ⟨0, 0, 0, 0, 0, 0, 0, 0, 0, 0, false, false⟩

/-- A check under way: the report, `mwfs_chk_reach`, `mwfs_chk_stack` with its top
first, and the volume. -/
structure Chk where
  r : Report
  reach : Nat → Bool
  stack : List Nat
  s : St

/-- `MWFS_CHK_STACK`. -/
def chkStack : Nat := 256

/-! ## The sectors of an inode -/

section EachBlock

variable {σ : Type} (vol : σ → St) (fn : Nat → σ → Bool × σ)

/-- `fn` for the sectors a list of pointers names; `false` when it stopped. -/
def eachIn : List Nat → σ → Bool × σ
  | [], x => (true, x)
  | l :: ls, x =>
    if l = 0 then eachIn ls x
    else
      match fn l x with
      | (false, x) => (false, x)
      | (true, x) => eachIn ls x

/-- `fn` for the tables a list of pointers names and for what they point at. A table
that cannot be read is passed over. -/
def eachTables : List Nat → σ → Bool × σ
  | [], x => (true, x)
  | l :: ls, x =>
    if l = 0 then eachTables ls x
    else
      match fn l x with
      | (false, x) => (false, x)
      | (true, x) =>
        match rd (vol x) l with
        | none => eachTables ls x
        | some b =>
          match eachIn fn (tableEntries b) x with
          | (false, x) => (false, x)
          | (true, x) => eachTables ls x

/-- The last part of `mwfs_each_block`: the double-indirect table. -/
def eachDind (t : Ino) (x : σ) : Bool × σ :=
  if t.dind = 0 then (true, x)
  else
    match fn t.dind x with
    | (false, x) => (false, x)
    | (true, x) =>
      match rd (vol x) t.dind with
      | none => (true, x)
      | some top => eachTables vol fn (tableEntries top) x

/-- `mwfs_each_block`: `fn` for every sector an inode owns. When the indirect table
cannot be read, what comes after it is left out. -/
def eachBlock (t : Ino) (x : σ) : Bool × σ :=
  match eachIn fn ((List.range ndirect).map t.direct) x with
  | (false, x) => (false, x)
  | (true, x) =>
    if t.ind = 0 then eachDind vol fn t x
    else
      match fn t.ind x with
      | (false, x) => (false, x)
      | (true, x) =>
        match rd (vol x) t.ind with
        | none => (true, x)
        | some b =>
          match eachIn fn (tableEntries b) x with
          | (false, x) => (false, x)
          | (true, x) => eachDind vol fn t x

end EachBlock

/-! ## The walk -/

/-- `mwfs_chk_block`: the sector lies in the data area and is marked. -/
def chkBlock (fix : Bool) (lba : Nat) (c : Chk) : Bool × Chk :=
  if lba < c.s.vol.data_lba ∨ c.s.vol.sectors ≤ lba then
    (true, { c with r := { c.r with bad_blocks := c.r.bad_blocks + 1 } })
  else
    match bitGet c.s lba with
    | some false =>
      let c := { c with r := { c.r with unmarked := c.r.unmarked + 1 } }
      if fix = false then (true, c)
      else
        match bitSet c.s lba true with
        | (true, s) => (true, { c with s := s, r := { c.r with fixed := c.r.fixed + 1 } })
        | (false, s) => (true, { c with s := s })
    | _ => (true, c)

/-- Removes an entry the walk objects to; whether it is gone. -/
def chkRemove (fix : Bool) (dino : Nat) (name : Name) (c : Chk) : Bool × Chk :=
  if fix = false then (false, c)
  else
    match dirRemove c.s dino name with
    | (.ok, s) => (true, { c with s := s, r := { c.r with fixed := c.r.fixed + 1 } })
    | (_, s) => (false, { c with s := s })

/-- The walk comes to the object behind an entry for the first time. -/
def chkVisit (fix : Bool) (ino : Nat) (t : Ino) (c : Chk) : Chk :=
  let c := { c with reach := Function.update c.reach ino true }
  if t.type = tDir then
    if c.stack.length < chkStack then { c with stack := ino :: c.stack }
    else { c with r := { c.r with incomplete := true } }
  else
    let c := { c with r := { c.r with files := c.r.files + 1 } }
    let c := (eachBlock Chk.s (chkBlock fix) t c).2
    if fileVerify c.s ino then c
    else { c with r := { c.r with damaged_files := c.r.damaged_files + 1 } }

/-- One entry of a directory; whether it has been removed. -/
def chkEntry (fix : Bool) (dino : Nat) (e : Dent) (c : Chk) : Bool × Chk :=
  match (if c.s.vol.inode_count ≤ e.ino then none else inoGet c.s e.ino) with
  | none => chkRemove fix dino e.name { c with r := { c.r with bad_entries := c.r.bad_entries + 1 } }
  | some t =>
    if t.type = tFree ∨ t.type ≠ e.type then
      chkRemove fix dino e.name { c with r := { c.r with bad_entries := c.r.bad_entries + 1 } }
    else if c.reach e.ino then
      chkRemove fix dino e.name { c with r := { c.r with dup_links := c.r.dup_links + 1 } }
    else (false, chkVisit fix e.ino t c)

/-- The entries of a directory from `idx` on. The first number is fuel: `none` when
there is none left. -/
def chkEntries (fix : Bool) (dino : Nat) : Nat → Nat → Chk → Option Chk
  | 0, _, _ => none
  | n + 1, idx, c =>
    match dirNth c.s dino idx with
    | some (some e) =>
      match chkEntry fix dino e c with
      | (true, c) => chkEntries fix dino n idx c
      | (false, c) => chkEntries fix dino n (idx + 1) c
    | _ => some c

/-- One round for every slot of the directory, and one more to see its end. -/
def entriesFuel (d : Ino) : Nat := 8 * ((d.size + 511) / 512) + 1

/-- `mwfs_chk_walk`, with fuel as above: one round for every directory. -/
def chkWalk (fix : Bool) : Nat → Chk → Option Chk
  | n, c =>
    match n, c.stack with
    | _, [] => some c
    | 0, _ :: _ => none
    | n + 1, dino :: stack =>
      match inoGet c.s dino with
      | none => chkWalk fix n { c with stack := stack }
      | some d =>
        let c := { c with stack := stack, r := { c.r with dirs := c.r.dirs + 1 } }
        let c := (eachBlock Chk.s (chkBlock fix) d c).2
        match chkEntries fix dino (entriesFuel d) 0 c with
        | none => none
        | some c => chkWalk fix n c

/-! ## Orphans and leaks -/

/-- The inodes nobody points at. -/
def chkOrphans (fix : Bool) : List Nat → Chk → Err × Chk
  | [], c => (.ok, c)
  | ino :: inos, c =>
    match inoGet c.s ino with
    | none => (.io, c)
    | some t =>
      if t.type = tFree ∨ c.reach ino = true then chkOrphans fix inos c
      else
        let c := { c with r := { c.r with orphans := c.r.orphans + 1 } }
        if fix = false then chkOrphans fix inos c
        else chkOrphans fix inos
          { c with s := inoRelease c.s ino, r := { c.r with fixed := c.r.fixed + 1 } }

/-- `mwfs_leak_mark`: the shadow of the bitmap between `lo` and `hi`. -/
def leakMark (lo hi lba : Nat) (shadow : Nat → Bool) : Bool × (Nat → Bool) :=
  (true, if lo ≤ lba ∧ lba < hi then Function.update shadow (lba - lo) true else shadow)

/-- What these inodes lead to, as far as the walk came to them. -/
def leakShadow (c : Chk) (lo hi : Nat) : List Nat → (Nat → Bool) → Option (Nat → Bool)
  | [], shadow => some shadow
  | ino :: inos, shadow =>
    if c.reach ino = false then leakShadow c lo hi inos shadow
    else
      match inoGet c.s ino with
      | none => none
      | some t =>
        leakShadow c lo hi inos (eachBlock (fun _ => c.s) (leakMark lo hi) t shadow).2

/-- The sectors of a window that are marked and have no shadow. -/
def leakBits (fix : Bool) (lo : Nat) (shadow : Nat → Bool) : List Nat → Chk → Chk
  | [], c => c
  | lba :: lbas, c =>
    if bitGet c.s lba = some true ∧ shadow (lba - lo) = false then
      let c := { c with r := { c.r with leaked := c.r.leaked + 1 } }
      if fix = false then leakBits fix lo shadow lbas c
      else
        match bitSet c.s lba false with
        | (true, s) =>
          leakBits fix lo shadow lbas { c with s := s, r := { c.r with fixed := c.r.fixed + 1 } }
        | (false, s) => leakBits fix lo shadow lbas { c with s := s }
    else leakBits fix lo shadow lbas c

/-- The inodes `1 … inode_count - 1` and `2 … inode_count - 1`. -/
def inosFrom (s : St) (i : Nat) : List Nat := List.range' i (s.vol.inode_count - i)

/-- The leaks, window by window. -/
def chkLeaks (fix : Bool) : List Nat → Chk → Err × Chk
  | [], c => (.ok, c)
  | lo :: los, c =>
    let hi := min (lo + 32768) c.s.vol.sectors
    match leakShadow c lo hi (inosFrom c.s 1) fun _ => false with
    | none => (.io, c)
    | some shadow => chkLeaks fix los (leakBits fix lo shadow (List.range' lo (hi - lo)) c)

/-- Where the windows begin. -/
def leakWindows (s : St) : List Nat :=
  (List.range ((s.vol.sectors - s.vol.data_lba + 32767) / 32768)).map fun k =>
    s.vol.data_lba + 32768 * k

/-- The check after the walk. -/
def chkRest (fix : Bool) (c : Chk) : Err × Chk :=
  if c.r.incomplete then (.ok, c)
  else
    match chkOrphans fix (inosFrom c.s 2) c with
    | (.ok, c) =>
      if 16 * 1024 * 1024 < c.s.vol.sectors then
        (.ok, { c with r := { c.r with skipped_leak_scan := true } })
      else chkLeaks fix (leakWindows c.s) c
    | (e, c) => (e, c)

/-- The check before its first step. -/
def Chk.start (s : St) : Chk where
  r := Report.zero
  reach ino := ino == rootIno
  stack := [rootIno]
  s := s

/-- `mwfs_check`. -/
def check (fix : Bool) (s : St) : Option (Err × Report × St) :=
  match chkWalk fix s.vol.inode_count (Chk.start s) with
  | none => none
  | some c =>
    let (e, c) := chkRest fix c
    some (e, c.r, c.s)

end Mwfs
