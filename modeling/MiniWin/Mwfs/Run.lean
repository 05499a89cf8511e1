import MiniWin.Mwfs.Tree
import MiniWin.Mwfs.Volume

/-!
# The operations as one

Every operation of `kernel/mwfs.h` on a volume that holds a graph in order either
changes the graph in its own way (`Did`) or reports why not and leaves it as it was
(`Refused`); and whatever a power cut finds in between is the graph before, the graph
after or, for a rename, the one graph in the middle.
-/

namespace Mwfs

/-- An operation. `D` is how a directory is named: by its inode number, as the
functions of `mwfs.h` are called, or by its path. -/
inductive Op (D : Type) where
  | put (dir : D) (name : Name) (data : List UInt8) (aux now : UInt32)
  | copy (src dir : D) (name : Name) (now : UInt32)
  | mkdir (dir : D) (name : Name) (now : UInt32)
  | unlink (dir : D) (name : Name)
  | rename (fromDir : D) (fromName : Name) (toDir : D) (toName : Name)

namespace Op

/-- The call of `mwfs.h`. -/
def run : Op Nat → St → Err × St
  | put dir name data aux now, s => filePut s dir name data aux now
  | copy src dir name now, s => fileCopy s src dir name now
  | mkdir dir name now, s => ((Mwfs.mkdir s dir name now).1, (Mwfs.mkdir s dir name now).2.2)
  | unlink dir name, s => Mwfs.unlink s dir name
  | rename fromDir fromName toDir toName, s => Mwfs.rename s fromDir fromName toDir toName

/-- The directories an operation is about. -/
def dirs : Op Nat → List Nat
  | put dir _ _ _ _ | copy _ dir _ _ | mkdir dir _ _ | unlink dir _ => [dir]
  | rename fromDir _ toDir _ => [fromDir, toDir]

/-- The inodes an operation is given. -/
def args : Op Nat → List Nat
  | copy src dir _ _ => [src, dir]
  | op => op.dirs

end Op

/-- What an operation that succeeded has done. `Gm` is the graph a power cut can
find besides the one before and the one after. -/
inductive Did (g : Geo) (G : Graph) : Op Nat → Graph → Graph → Prop
  | put {d name data aux now G'} (hd : IsDir G d) (hname : nameOk name = true)
    (h : MadeFile g G d name data aux G') : Did g G (.put d name data aux now) G G'
  | copy {src d name now bytes aux G'} (hsrc : G src = some (.file bytes aux)) (hd : IsDir G d)
    (hname : nameOk name = true) (h : MadeFile g G d name bytes aux G') :
    Did g G (.copy src d name now) G G'
  | mkdir {d name now G'} (hd : IsDir G d) (hname : nameOk name = true) (h : MadeDir g G d name G') :
    Did g G (.mkdir d name now) G G'
  | unlink {d name e G'} (hn : fold e.name = fold name) (h : Unlinked G d e G') :
    Did g G (.unlink d name) G G'
  | rename {fd fn td tn Gm G'} (hfd : IsDir G fd) (htd : IsDir G td) (hname : nameOk tn = true)
    (h : Renamed G fd fn td tn Gm G') : Did g G (.rename fd fn td tn) Gm G'

/-- Why no directory was made. -/
def MkdirRefused (G : Graph) (d : Nat) (name : Name) (r : Err) : Prop :=
  (r = .name ∧ nameOk name = false) ∨
    (r = .exist ∧ nameOk name = true ∧ ∃ e, Entry G d e ∧ fold e.name = fold name) ∨
    r = .full ∨ r = .toobig

/-- Why nothing was unlinked. -/
def UnlinkRefused (G : Graph) (d : Nat) (name : Name) (r : Err) : Prop :=
  (r = .noent ∧ ∀ e, Entry G d e → fold e.name ≠ fold name) ∨
    (r = .notempty ∧ ∃ e, Entry G d e ∧ fold e.name = fold name ∧ e.type = tDir ∧
      ∃ e', Entry G e.ino e')

/-- Why an operation has done nothing. -/
inductive Refused (G : Graph) : Op Nat → Err → Prop
  | noDir {op r d} (hr : r ≠ .ok) (hd : d ∈ op.dirs) (h : ¬ IsDir G d) : Refused G op r
  | noSource {src d name now r} (hr : r ≠ .ok) (h : G src = none) : Refused G (.copy src d name now) r
  | put {d name data aux now r} (h : MakeRefused G d name r) : Refused G (.put d name data aux now) r
  | copyDir {src d name now r} (hsrc : IsDir G src)
    (h : (r = .name ∧ nameOk name = false) ∨ (r = .isdir ∧ nameOk name = true)) :
    Refused G (.copy src d name now) r
  | copy {src d name now bytes aux r} (hsrc : G src = some (.file bytes aux))
    (h : MakeRefused G d name r) : Refused G (.copy src d name now) r
  | mkdir {d name now r} (h : MkdirRefused G d name r) : Refused G (.mkdir d name now) r
  | unlink {d name r} (h : UnlinkRefused G d name r) : Refused G (.unlink d name) r
  | rename {fd fn td tn r} (h : RenameRefused G fd fn td tn r) : Refused G (.rename fd fn td tn) r

/-- What an operation leaves, done or not. -/
structure Ran (g : Geo) (G : Graph) (op : Op Nat) (s : St) (r : Err) (s' : St) (Gm G' : Graph) :
    Prop where
  sane : Sane g s'
  rep : Rep g G' (view g s'.disk)
  via : Via g (fun V => Rep g G V ∨ Rep g Gm V ∨ Rep g G' V) s s'
  exact : Exact g G (view g s.disk) → Exact g G' (view g s'.disk)
  result : (r = .ok ∧ Did g G op Gm G') ∨ (Gm = G ∧ G' = G ∧ Refused G op r)

section Run

variable {g : Geo} {G : Graph} {s : St} {d : Nat}

theorem Ran.stay {op : Op Nat} (hs : Sane g s) (h : Rep g G (view g s.disk)) {r : Err}
    (hr : Refused G op r) : Ran g G op s r s G G :=
  ⟨hs, h, .refl (Or.inl h), id, Or.inr ⟨rfl, rfl, hr⟩⟩

theorem Ran.of_done {op : Op Nat} {r : Err} {s' : St} {G' : Graph} (h : Done g G G' s s')
    (hex : Exact g G (view g s.disk) → Exact g G' (view g s'.disk))
    (hres : (r = .ok ∧ Did g G op G G') ∨ (G' = G ∧ Refused G op r)) :
    Ran g G op s r s' G G' :=
  ⟨h.sane, h.rep, h.via.mono fun _ hV => hV.imp id Or.inr, hex,
    hres.imp id fun hc => ⟨rfl, hc.1, hc.2⟩⟩

/-- What an inode number that is not a directory's can be. -/
theorem Rep.not_dir {V : View} (h : Rep g G V) (hd : G d ≠ none ∨ (V.ino d).type = tFree)
    (hno : ¬ IsDir G d) : (V.ino d).type ≠ tDir := by
  cases hG : G d with
  | none =>
    rcases hd with hd | hd
    · exact absurd hG hd
    · rw [hd]
      decide
  | some o =>
    cases o with
    | file bytes aux =>
      rw [(h.fileRep hG).type]
      decide
    | dir slots => exact absurd ⟨slots, hG⟩ hno

theorem fileMayMake_not_dir (hs : Sane g s) (hno : ((view g s.disk).ino d).type ≠ tDir)
    (name : Name) : fileMayMake s d name ≠ .ok := by
  obtain ⟨e, he, hwhy⟩ := dirLookup_not_dir hs hno name
  unfold fileMayMake
  rw [he]
  rcases hwhy with rfl | rfl <;> simp

variable (hs : Sane g s) (hok : GraphOk g G) (h : Rep g G (view g s.disk))

include hs hok h

/-- **`mwfs_file_put`**, whatever it is given. -/
theorem put_ran (name : Name) (data : List UInt8) (aux now : UInt32)
    (harg : G d ≠ none ∨ ((view g s.disk).ino d).type = tFree) :
    ∃ r s' Gm G', filePut s d name data aux now = (r, s') ∧
      Ran g G (.put d name data aux now) s r s' Gm G' := by
  by_cases hd : IsDir G d
  · obtain ⟨slots, hsl⟩ := hd
    obtain ⟨r, s', G', hrun, hdone, hex, hres⟩ := filePut_spec hs hok h hsl name data aux now
    refine ⟨r, s', G, G', hrun, .of_done hdone hex (hres.imp ?_ ?_)⟩
    · exact fun ⟨hr, hname, hmade⟩ => ⟨hr, .put ⟨slots, hsl⟩ hname hmade⟩
    · exact fun ⟨hG, hr⟩ => ⟨hG, .put hr⟩
  · have hmay := fileMayMake_not_dir hs (h.not_dir harg hd) name
    refine ⟨if nameOk name = false then .name else fileMayMake s d name, s, G, G, ?_,
      .stay hs h (.noDir ?_ List.mem_cons_self hd)⟩
    · unfold filePut
      rw [if_pos hmay]
      split <;> rfl
    · split
      · simp
      · exact hmay

/-- **`mwfs_file_copy`**, whatever it is given. -/
theorem copy_ran {src : Nat} (name : Name) (now : UInt32)
    (hsrc : G src ≠ none ∨ ((view g s.disk).ino src).type = tFree)
    (harg : G d ≠ none ∨ ((view g s.disk).ino d).type = tFree) :
    ∃ r s' Gm G', fileCopy s src d name now = (r, s') ∧
      Ran g G (.copy src d name now) s r s' Gm G' := by
  have hget : ∀ {o}, G src = some o → inoGet s src = some ((view g s.disk).ino src) := fun hj =>
    inoGet_eq hs (hok.bound src _ hj).1 (hok.bound src _ hj).2
  unfold fileCopy
  cases hG : G src with
  | none =>
    -- no such source: nothing is read and nothing is made
    have hno : ∀ t, inoGet s src = some t → t.type ≠ tFile := by
      intro t ht
      have hfree := hsrc.resolve_left (not_not.mpr hG)
      by_cases hj : src = 0 ∨ g.inode_count ≤ src
      · rw [inoGet_none hs hj] at ht
        exact absurd ht (by simp)
      · rw [not_or, not_le] at hj
        rw [inoGet_eq hs hj.1 hj.2] at ht
        obtain rfl := Option.some.inj ht
        rw [hfree]
        decide
    have hrun : ∃ r, fileCopyWith (inoGet s src) (fun si s off n => pread s si off n) s d name now
        = (r, s) ∧ r ≠ .ok := by
      unfold fileCopyWith
      by_cases hname : nameOk name = false
      · exact ⟨.name, by rw [if_pos hname], by simp⟩
      · rw [if_neg hname]
        cases hg : inoGet s src with
        | none => exact ⟨.io, rfl, by simp⟩
        | some t => exact ⟨.isdir, by dsimp only; rw [if_pos (hno t hg)], by simp⟩
    obtain ⟨r, hr, hne⟩ := hrun
    exact ⟨r, s, G, G, hr, .stay hs h (.noSource hne hG)⟩
  | some o =>
    rw [hget hG]
    cases o with
    | dir slots =>
      refine ⟨if nameOk name = false then .name else .isdir, s, G, G, ?_,
        .stay hs h (.copyDir ⟨slots, hG⟩ ?_)⟩
      · have hty : ((view g s.disk).ino src).type ≠ tFile := by
          rw [(h.dirRep hG).type]
          decide
        unfold fileCopyWith
        dsimp only
        rw [if_pos hty]
        split <;> rfl
      · split
        · next hname => exact Or.inl ⟨rfl, hname⟩
        · next hname => exact Or.inr ⟨rfl, by rwa [Bool.not_eq_false] at hname⟩
    | file bytes aux =>
      have hf := h.fileRep hG
      by_cases hd : IsDir G d
      · obtain ⟨slots, hsl⟩ := hd
        obtain ⟨r, s', G', hrun, hdone, hex, hres⟩ := fileCopyWith_spec hs hok h hsl name now
          (fun si s off n => pread s si off n) hf.type hf.size hf.room (reads_self hG)
        refine ⟨r, s', G, G', hrun, .of_done hdone hex (hres.imp ?_ ?_)⟩
        · exact fun ⟨hr, hname, hmade⟩ => ⟨hr, .copy hG ⟨slots, hsl⟩ hname (hf.aux ▸ hmade)⟩
        · exact fun ⟨hG', hr⟩ => ⟨hG', .copy hG hr⟩
      · have hmay := fileMayMake_not_dir hs (h.not_dir harg hd) name
        refine ⟨if nameOk name = false then .name else fileMayMake s d name, s, G, G, ?_,
          .stay hs h (.noDir ?_ List.mem_cons_self hd)⟩
        · unfold fileCopyWith
          dsimp only
          rw [if_neg (not_not.mpr hf.type), if_pos hmay]
          split <;> rfl
        · split
          · simp
          · exact hmay

/-- **`mwfs_mkdir`**, whatever it is given. -/
theorem mkdir_ran (name : Name) (now : UInt32)
    (harg : G d ≠ none ∨ ((view g s.disk).ino d).type = tFree) :
    ∃ r i s' Gm G', mkdir s d name now = (r, i, s') ∧
      Ran g G (.mkdir d name now) s r s' Gm G' := by
  by_cases hd : IsDir G d
  · obtain ⟨slots, hsl⟩ := hd
    obtain ⟨r, i, s', G', hrun, hdone, hex, hres⟩ := mkdir_spec hs hok h hsl name now
    refine ⟨r, i, s', G, G', hrun, .of_done hdone hex (hres.imp ?_ ?_)⟩
    · exact fun ⟨hr, hname, hmade, _⟩ => ⟨hr, .mkdir ⟨slots, hsl⟩ hname hmade⟩
    · exact fun ⟨hG, hr⟩ => ⟨hG, .mkdir hr⟩
  · obtain ⟨e, he, hwhy⟩ := dirLookup_not_dir hs (h.not_dir harg hd) name
    refine ⟨if nameOk name = false then .name else e, 0, s, G, G, ?_,
      .stay hs h (.noDir ?_ List.mem_cons_self hd)⟩
    · unfold mkdir
      rw [he]
      rcases hwhy with rfl | rfl <;> split <;> rfl
    · rcases hwhy with rfl | rfl <;> split <;> simp

/-- **`mwfs_unlink`**, whatever it is given. -/
theorem unlink_ran (name : Name) (harg : G d ≠ none ∨ ((view g s.disk).ino d).type = tFree) :
    ∃ r s' Gm G', unlink s d name = (r, s') ∧ Ran g G (.unlink d name) s r s' Gm G' := by
  by_cases hd : IsDir G d
  · obtain ⟨slots, hsl⟩ := hd
    obtain ⟨r, s', G', hrun, hdone, hex, hres⟩ := unlink_spec hs hok h hsl name
    refine ⟨r, s', G, G', hrun, .of_done hdone hex (hres.imp ?_ ?_)⟩
    · exact fun ⟨hr, e, hn, hun⟩ => ⟨hr, .unlink hn hun⟩
    · exact fun ⟨hG, hr⟩ => ⟨hG, .unlink hr⟩
  · obtain ⟨e, he, hwhy⟩ := dirLookup_not_dir hs (h.not_dir harg hd) name
    refine ⟨e, s, G, G, ?_, .stay hs h (.noDir ?_ List.mem_cons_self hd)⟩
    · unfold unlink
      rw [he]
    · rcases hwhy with rfl | rfl <;> simp

/-- **`mwfs_rename`**, whatever it is given. -/
theorem rename_ran {fd td : Nat} (fn tn : Name)
    (hfarg : G fd ≠ none ∨ ((view g s.disk).ino fd).type = tFree)
    (htarg : G td ≠ none ∨ ((view g s.disk).ino td).type = tFree) :
    ∃ r s' Gm G', rename s fd fn td tn = (r, s') ∧ Ran g G (.rename fd fn td tn) s r s' Gm G' := by
  by_cases hfd : IsDir G fd
  · obtain ⟨fsl, hfsl⟩ := hfd
    by_cases htd : IsDir G td
    · obtain ⟨tsl, htsl⟩ := htd
      obtain ⟨r, s', Gm, G', hrun, hsane, hrep, hvia, hex, hres⟩ :=
        rename_spec hs hok h hfsl fn htsl tn
      refine ⟨r, s', Gm, G', hrun, hsane, hrep, hvia, hex, hres.imp ?_ ?_⟩
      · exact fun ⟨hr, hname, hren⟩ => ⟨hr, .rename ⟨fsl, hfsl⟩ ⟨tsl, htsl⟩ hname hren⟩
      · exact fun ⟨hGm, hG, hr⟩ => ⟨hGm, hG, .rename hr⟩
    · obtain ⟨e, he, hwhy⟩ := dirLookup_not_dir hs (h.not_dir htarg htd) tn
      have hmem : td ∈ (Op.rename fd fn td tn).dirs := by simp [Op.dirs]
      obtain ⟨hf0, hflt⟩ := hok.bound fd _ hfsl
      have hrun : ∃ r, rename s fd fn td tn = (r, s) ∧ r ≠ .ok := by
        unfold rename
        rcases dirLookup_spec hs h hfsl hf0 hflt fn with ⟨hr, -⟩ | ⟨e', -, -, hr⟩
        · rw [hr]
          exact ⟨_, rfl, by simp⟩
        · rw [hr]
          dsimp only
          split
          · exact ⟨_, rfl, by simp⟩
          · rw [he]
            rcases hwhy with rfl | rfl <;> exact ⟨_, rfl, by simp⟩
      obtain ⟨r, hr, hne⟩ := hrun
      exact ⟨r, s, G, G, hr, .stay hs h (.noDir hne hmem htd)⟩
  · obtain ⟨e, he, hwhy⟩ := dirLookup_not_dir hs (h.not_dir hfarg hfd) fn
    refine ⟨e, s, G, G, ?_, .stay hs h (.noDir ?_ List.mem_cons_self hfd)⟩
    · unfold rename
      rw [he]
    · rcases hwhy with rfl | rfl <;> simp

/-- **One operation**: what it does, and what a power cut finds on the way. -/
theorem Op.run_spec (op : Op Nat)
    (harg : ∀ d ∈ op.args, G d ≠ none ∨ ((view g s.disk).ino d).type = tFree) :
    ∃ Gm G', Ran g G op s (op.run s).1 (op.run s).2 Gm G' := by
  cases op with
  | put d name data aux now =>
    obtain ⟨r, s', Gm, G', hrun, hran⟩ := put_ran hs hok h name data aux now
      (harg d (by simp [args, dirs]))
    refine ⟨Gm, G', ?_⟩
    rw [show (put d name data aux now).run s = (r, s') from hrun]
    exact hran
  | copy src d name now =>
    obtain ⟨r, s', Gm, G', hrun, hran⟩ := copy_ran hs hok h name now
      (harg src (by simp [args])) (harg d (by simp [args]))
    refine ⟨Gm, G', ?_⟩
    rw [show (copy src d name now).run s = (r, s') from hrun]
    exact hran
  | mkdir d name now =>
    obtain ⟨r, i, s', Gm, G', hrun, hran⟩ := mkdir_ran hs hok h name now
      (harg d (by simp [args, dirs]))
    refine ⟨Gm, G', ?_⟩
    have hrun' : (mkdir d name now).run s = (r, s') := by
      show ((Mwfs.mkdir s d name now).1, (Mwfs.mkdir s d name now).2.2) = (r, s')
      rw [hrun]
    rw [hrun']
    exact hran
  | unlink d name =>
    obtain ⟨r, s', Gm, G', hrun, hran⟩ := unlink_ran hs hok h name (harg d (by simp [args, dirs]))
    refine ⟨Gm, G', ?_⟩
    rw [show (unlink d name).run s = (r, s') from hrun]
    exact hran
  | rename fd fn td tn =>
    obtain ⟨r, s', Gm, G', hrun, hran⟩ := rename_ran hs hok h fn tn
      (harg fd (by simp [args, dirs])) (harg td (by simp [args, dirs]))
    refine ⟨Gm, G', ?_⟩
    rw [show (rename fd fn td tn).run s = (r, s') from hrun]
    exact hran

end Run

/-! ## Paths on the volume -/

/-- The inode a path leads to from `i`, by looking up one name after the other, as
`vfs_resolve` does. -/
def walk (s : St) (i : Nat) : List Name → Except Err Nat
  | [] => .ok i
  | n :: p =>
    match dirLookup s i n with
    | .error e => .error e
    | .ok (j, _) => walk s j p

section Walk

variable {g : Geo} {G : Graph} {s : St} {i j : Nat}

theorem up_up (c : UInt8) : up (up c) = up c := by
  by_cases h : 97 ≤ c ∧ c ≤ 122
  · have hsub : (c - 32).toNat = c.toNat - 32 := by
      refine UInt8.toNat_sub_of_le c 32 ?_
      rw [UInt8.le_iff_toNat_le] at h ⊢
      exact le_trans (by decide) h.1
    have hnot : ¬(97 ≤ c - 32 ∧ c - 32 ≤ 122) := by
      rw [UInt8.le_iff_toNat_le, UInt8.le_iff_toNat_le] at h ⊢
      rw [hsub]
      have h97 : (97 : UInt8).toNat = 97 := rfl
      have h122 : (122 : UInt8).toNat = 122 := rfl
      omega
    unfold up
    rw [if_pos h, if_neg hnot]
  · unfold up
    rw [if_neg h, if_neg h]

/-- **A walk follows the edges.** -/
theorem walk_iff (hs : Sane g s) (hok : GraphOk g G) (h : Rep g G (view g s.disk)) {o : Obj}
    (hi : G i = some o) (p : List Name) :
    walk s i p = .ok j ↔ Leads (Edge G) i (p.map fold) j := by
  induction p generalizing i o with
  | nil => simp [walk, eq_comm]
  | cons n p ih =>
    unfold walk
    rw [List.map_cons, Leads.cons_iff]
    by_cases hd : IsDir G i
    · obtain ⟨slots, hsl⟩ := hd
      obtain ⟨hi0, hilt⟩ := hok.bound i _ hsl
      rcases dirLookup_spec hs h hsl hi0 hilt n with ⟨hr, hno⟩ | ⟨e, hm, hn, hr⟩
      · rw [hr]
        refine ⟨fun hc => absurd hc (by simp), ?_⟩
        rintro ⟨k, ⟨e, he, hn, -⟩, -⟩
        exact absurd hn (hno e (mem_of_entry hsl he))
      · have he : Edge G i (fold n) e.ino := ⟨e, entry_of_mem hsl hm, hn, rfl⟩
        obtain ⟨-, o', ho'⟩ := hok.edge_obj he
        rw [hr]
        rw [ih ho']
        constructor
        · exact fun hp => ⟨_, he, hp⟩
        · rintro ⟨k, hk, hp⟩
          rwa [hok.edge_det he hk]
    · obtain ⟨e, he, -⟩ := dirLookup_not_dir hs (h.not_dir (Or.inl (by simp [hi])) hd) n
      rw [he]
      refine ⟨fun hc => absurd hc (by simp), ?_⟩
      rintro ⟨k, hk, -⟩
      exact absurd hk.isDir hd

end Walk

end Mwfs
