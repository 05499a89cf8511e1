import MiniWin.Mwfs.MakeSpec

/-!
# Directories, unlinking and renaming

The remaining operations. `mwfs_mkdir` is a file that is a directory; an unlink
takes the entry away first and gives the object back second; a rename writes the
new entry first and takes the old one away second, and in between the object has
two names.
-/

namespace Mwfs

open Place

section Ops

variable {g : Geo} {G : Graph} {s : St} {d : Nat} {slots : List (Option Dent)}

/-- An entry of a directory whose slots are known. -/
theorem entry_of_mem {e : Dent} (hd : G d = some (.dir slots)) (hm : e ∈ ents slots) :
    Entry G d e :=
  ⟨slots, hd, hm⟩

theorem mem_of_entry {e : Dent} (hd : G d = some (.dir slots)) (he : Entry G d e) :
    e ∈ ents slots := by
  obtain ⟨sl, hsl, hm⟩ := he
  obtain rfl := Obj.dir.inj (Option.some.inj (hd.symm.trans hsl))
  exact hm

/-! ## Making a directory -/

/-- An empty directory now has the name. -/
def MadeDir (g : Geo) (G : Graph) (d : Nat) (name : Name) (G' : Graph) : Prop :=
  ∃ i, G i = none ∧ 2 ≤ i ∧ i < g.inode_count ∧ (∀ e, Entry G d e → fold e.name ≠ fold name) ∧
    Swap (G.add i (.dir [])) G' d none (some ⟨i, tDir, name⟩)

/-- **`mwfs_mkdir`.** -/
theorem mkdir_spec (hs : Sane g s) (hok : GraphOk g G) (h : Rep g G (view g s.disk))
    (hd : G d = some (.dir slots)) (name : Name) (now : UInt32) :
    ∃ r i s' G', mkdir s d name now = (r, i, s') ∧ Done g G G' s s' ∧
      (Exact g G (view g s.disk) → Exact g G' (view g s'.disk)) ∧
      ((r = .ok ∧ nameOk name = true ∧ MadeDir g G d name G' ∧ Entry G' d ⟨i, tDir, name⟩) ∨
        (G' = G ∧ ((r = .name ∧ nameOk name = false) ∨
          (r = .exist ∧ nameOk name = true ∧ ∃ e, Entry G d e ∧ fold e.name = fold name) ∨
          r = .full ∨ r = .toobig))) := by
  have hrefl : Done g G G s s := ⟨hs, h, .refl (Or.inl h)⟩
  obtain ⟨hd0, hdlt⟩ := hok.bound d _ hd
  unfold mkdir
  by_cases hname : nameOk name = false
  · rw [if_pos hname]
    exact ⟨_, _, _, G, rfl, hrefl, id, Or.inr ⟨rfl, Or.inl ⟨rfl, hname⟩⟩⟩
  · rw [if_neg hname]
    rw [Bool.not_eq_false] at hname
    rcases dirLookup_spec hs h hd hd0 hdlt name with ⟨hr, hno⟩ | ⟨e, hm, hn, hr⟩
    · rw [hr]
      rcases inoAlloc_fresh hs h tDir (by decide) (fun t => { t with gen := now })
          (fun r => by unfold Ino.top; simp [Ino.zero]) { Ino.fits_empty (by decide) with }
        with hr | ⟨i, s₁, hr, hi2, hlt, hG, hino, hvia₁, hrep₁, -, hgrow, hexb⟩
      · rw [hr]
        exact ⟨_, _, _, G, rfl, hrefl, id, Or.inr ⟨rfl, Or.inr (Or.inr (Or.inl rfl))⟩⟩
      · obtain ⟨n, rfl⟩ : ∃ n, i = n + 1 := ⟨i - 1, by omega⟩
        obtain ⟨s₂, hs₂, hsane₂, hvia₂, -, -, -, hstored⟩ :=
          store_fresh hgrow.sane hG hgrow.inv hgrow.fits (by omega) hlt
        have hempty : ObjRep (view g s₁.disk) { Ino.zero with type := tDir, gen := now } (.dir []) :=
          ⟨rfl, rfl, ⟨0, rfl⟩, fun k hk => absurd hk (by simp), fun x hx => absurd hx (by simp)⟩
        obtain ⟨hrep₂, hex₂⟩ := hstored (.dir []) hempty
        obtain ⟨r, s₃, hs₃, hres⟩ := enter_fresh hsane₂ hok hG hi2 hlt hrep₂ hd hname hno
        have hs₃' : dirAdd s₂ d name (n + 1) tDir = (r, s₃) := hs₃
        have hvia : Via g (Rep g G) s s₂ := hvia₁.trans hvia₂
        rw [hr]
        dsimp only
        rw [inoGet_eq hgrow.sane (by omega) hlt, hino]
        dsimp only
        rw [hs₂]
        rw [hs₃']
        rcases hres with ⟨rfl, G', hswap, hdone, hex⟩ | ⟨hwhy, hdone, hex⟩
        · refine ⟨_, _, s₃, G', rfl, ⟨hdone.sane, hdone.rep, ?_⟩, fun h => hex (hex₂ (hexb h)),
            Or.inl ⟨rfl, hname, ⟨n + 1, hG, hi2, hlt, fun e he => hno e (mem_of_entry hd he), hswap⟩,
              hswap.entry_new⟩⟩
          exact (hvia.mono fun V hV => Or.inl hV).trans hdone.via
        · refine ⟨r, 0, _, G, ?_, ⟨hdone.sane, hdone.rep, ?_⟩, fun h => hex (hex₂ (hexb h)),
            Or.inr ⟨rfl, Or.inr (Or.inr hwhy)⟩⟩
          · rcases hwhy with rfl | rfl <;> rfl
          · exact (hvia.mono fun V hV => Or.inl hV).trans hdone.via
    · rw [hr]
      exact ⟨_, _, _, G, rfl, hrefl, id, Or.inr ⟨rfl, Or.inr (Or.inl ⟨rfl, hname, e,
        entry_of_mem hd hm, hn⟩)⟩⟩

/-! ## Unlinking -/

/-- The entry of a file or of an empty directory is gone, and so is what it named. -/
def Unlinked (G : Graph) (d : Nat) (e : Dent) (G' : Graph) : Prop :=
  Entry G d e ∧ (e.type = tDir → ∀ e', ¬ Entry G e.ino e') ∧
    ∃ G₁, Swap G G₁ d (some e) none ∧ G' = G₁.drop e.ino

/-- The object behind an entry that says it is a directory. -/
theorem GraphOk.dir_of_entry (hok : GraphOk g G) {e : Dent} (he : Entry G d e) :
    e.type = tDir ↔ IsDir G e.ino := by
  obtain ⟨-, o, ho, hty⟩ := hok.entry d e he
  cases o with
  | file bytes aux =>
    constructor
    · intro hc
      rw [hc] at hty
      exact absurd hty (by simp [Obj.type, tFile, tDir])
    · rintro ⟨sl, hsl⟩
      rw [ho] at hsl
      exact absurd hsl (by simp)
  | dir sl => exact ⟨fun _ => ⟨sl, ho⟩, fun _ => hty.symm⟩

/-- **`mwfs_unlink`.** -/
theorem unlink_spec (hs : Sane g s) (hok : GraphOk g G) (h : Rep g G (view g s.disk))
    (hd : G d = some (.dir slots)) (name : Name) :
    ∃ r s' G', unlink s d name = (r, s') ∧ Done g G G' s s' ∧
      (Exact g G (view g s.disk) → Exact g G' (view g s'.disk)) ∧
      ((r = .ok ∧ ∃ e, fold e.name = fold name ∧ Unlinked G d e G') ∨
        (G' = G ∧ ((r = .noent ∧ ∀ e, Entry G d e → fold e.name ≠ fold name) ∨
          (r = .notempty ∧ ∃ e, Entry G d e ∧ fold e.name = fold name ∧ e.type = tDir ∧
            ∃ e', Entry G e.ino e')))) := by
  have hrefl : Done g G G s s := ⟨hs, h, .refl (Or.inl h)⟩
  obtain ⟨hd0, hdlt⟩ := hok.bound d _ hd
  unfold unlink
  rcases dirLookup_spec hs h hd hd0 hdlt name with ⟨hr, hno⟩ | ⟨e, hm, hn, hr⟩
  · rw [hr]
    exact ⟨_, _, G, rfl, hrefl, id, Or.inr ⟨rfl, Or.inl ⟨rfl, fun e he => hno e (mem_of_entry hd he)⟩⟩⟩
  · have he := entry_of_mem hd hm
    rw [hr]
    dsimp only
    by_cases hc : e.type = tDir ∧ dirIsEmpty s e.ino = false
    · rw [if_pos hc]
      obtain ⟨sl, hsl⟩ := (hok.dir_of_entry he).mp hc.1
      obtain ⟨hi0, hilt⟩ := hok.bound _ _ hsl
      have hne : ents sl ≠ [] := fun hnil => by
        rw [(dirIsEmpty_spec hs h hsl hi0 hilt).mpr hnil] at hc
        exact absurd hc.2 (by simp)
      obtain ⟨e', he'⟩ := List.exists_mem_of_ne_nil _ hne
      exact ⟨_, _, G, rfl, hrefl, id, Or.inr ⟨rfl, Or.inr ⟨rfl, e, he, hn, hc.1, e',
        entry_of_mem hsl he'⟩⟩⟩
    · rw [if_neg hc]
      have hempty : e.type = tDir → ∀ e', ¬ Entry G e.ino e' := by
        intro hty e' he'
        obtain ⟨sl, hsl⟩ := (hok.dir_of_entry he).mp hty
        obtain ⟨hi0, hilt⟩ := hok.bound _ _ hsl
        have htrue : dirIsEmpty s e.ino = true := by
          rw [not_and, Bool.not_eq_false] at hc
          exact hc hty
        have hnil := (dirIsEmpty_spec hs h hsl hi0 hilt).mp htrue
        have := mem_of_entry hsl he'
        rw [hnil] at this
        exact absurd this (by simp)
      rcases dirRemove_spec hs h hd hd0 hdlt name with ⟨-, hno⟩ | ⟨e', hm', hn', s₁, G₁, hs₁, hswap,
          hstep, hino⟩
      · exact absurd hn (hno e hm)
      · obtain rfl : e' = e := hok.inj (entry_of_mem hd hm') he (hn'.trans hn.symm)
        obtain ⟨-, o, ho, -⟩ := hok.entry d e' he
        obtain ⟨hi0, hilt⟩ := hok.bound _ _ ho
        obtain ⟨o', ho', -⟩ := hswap.type ho
        obtain ⟨hsane₂, hrep₂, hvia₂, hino₂, hlean₂⟩ := hstep.rep.release hstep.sane ho' hi0 hilt
        rw [hs₁]
        refine ⟨_, _, G₁.drop e'.ino, rfl, ⟨hsane₂, hrep₂, ?_⟩, fun hex => ?_,
          Or.inl ⟨rfl, e', hn, he, hempty, G₁, hswap, rfl⟩⟩
        · exact (hstep.via.mono fun V hV => hV.imp id fun hV => hV.mono (G₁.drop_sub _)).trans
            (hvia₂.mono fun V hV => Or.inr hV)
        · exact (hstep.exact hswap (fun j _ => by rw [hino]) hex).release hino₂ hlean₂

/-! ## Renaming -/

/-- What a rename has done: nothing, when both names are the object's; moved the
entry; or moved it onto a file. `Gm` is the graph in between, in which the object
has both names. -/
inductive Renamed (G : Graph) (fd : Nat) (fn : Name) (td : Nat) (tn : Name) :
    Graph → Graph → Prop
  | same {e e' : Dent} (he : Entry G fd e) (hn : fold e.name = fold fn) (he' : Entry G td e')
    (hn' : fold e'.name = fold tn) (hino : e'.ino = e.ino) : Renamed G fd fn td tn G G
  | move {e : Dent} {Gm G' : Graph} (he : Entry G fd e) (hn : fold e.name = fold fn)
    (hno : ∀ e', Entry G td e' → fold e'.name ≠ fold tn)
    (hadd : Swap G Gm td none (some ⟨e.ino, e.type, tn⟩)) (hrem : Swap Gm G' fd (some e) none) :
    Renamed G fd fn td tn Gm G'
  | «over» {e e' : Dent} {Gm G' : Graph} (he : Entry G fd e) (hn : fold e.name = fold fn)
    (he' : Entry G td e') (hn' : fold e'.name = fold tn) (hino : e'.ino ≠ e.ino)
    (hty : e.type = tFile) (hty' : e'.type = tFile)
    (hset : Swap G Gm td (some e') (some { e' with ino := e.ino }))
    (hrem : Swap Gm G' fd (some e) none) : Renamed G fd fn td tn Gm (G'.drop e'.ino)

/-- A second name for an object keeps the graph in order. -/
theorem Swap.ok_link {fd td : Nat} {Gm : Graph} {e : Dent} {tn : Name}
    (hswap : Swap G Gm td none (some ⟨e.ino, e.type, tn⟩)) (hok : GraphOk g G) (he : Entry G fd e)
    (hname : nameOk tn = true) (hno : ∀ e', Entry G td e' → fold e'.name ≠ fold tn) :
    GraphOk g Gm := by
  refine hswap.ok hok fun e'' he'' => ?_
  obtain rfl := Option.some.inj he''
  exact ⟨hok.entry fd e he, hname, fun e' he' _ => hno e' he'⟩

/-- So does a name that moves from one object to another of its type. -/
theorem Swap.ok_over {fd td : Nat} {Gm : Graph} {e e' : Dent}
    (hswap : Swap G Gm td (some e') (some { e' with ino := e.ino })) (hok : GraphOk g G)
    (he : Entry G fd e) (he' : Entry G td e') (hty : e.type = e'.type) : GraphOk g Gm := by
  refine hswap.ok hok fun e₁ he₁ => ?_
  obtain rfl := Option.some.inj he₁
  obtain ⟨hroot, o, ho, hoty⟩ := hok.entry fd e he
  refine ⟨⟨hroot, o, ho, hoty.trans hty⟩, hok.name td e' he', fun e₂ he₂ hne hf => ?_⟩
  exact hne (by rw [hok.inj he₂ he' hf])

/-- Why nothing was renamed. -/
def RenameRefused (G : Graph) (fd : Nat) (fn : Name) (td : Nat) (tn : Name) (r : Err) : Prop :=
  (r = .noent ∧ ∀ e, Entry G fd e → fold e.name ≠ fold fn) ∨
    (r = .name ∧ nameOk tn = false ∧ ∃ e, Entry G fd e ∧ fold e.name = fold fn) ∨
    (r = .exist ∧ nameOk tn = true ∧ ∃ e e', Entry G fd e ∧ fold e.name = fold fn ∧ Entry G td e' ∧
      fold e'.name = fold tn ∧ e'.ino ≠ e.ino ∧ (e'.type = tDir ∨ e.type = tDir)) ∨
    ((r = .full ∨ r = .toobig) ∧ nameOk tn = true ∧
      (∀ e', Entry G td e' → fold e'.name ≠ fold tn) ∧ ∃ e, Entry G fd e ∧ fold e.name = fold fn)

/-- The second half of a rename: the old entry is taken away. -/
theorem rename_remove {Gm : Graph} {fd : Nat} {fslots : List (Option Dent)} (hs : Sane g s)
    (hok : GraphOk g Gm) (h : Rep g Gm (view g s.disk)) (hfd : Gm fd = some (.dir fslots))
    {e : Dent} (he : Entry Gm fd e) {fn : Name} (hn : fold e.name = fold fn) :
    ∃ s' G', dirRemove s fd fn = (.ok, s') ∧ Swap Gm G' fd (some e) none ∧ Stepped g Gm G' s s' ∧
      (view g s'.disk).ino = (view g s.disk).ino := by
  obtain ⟨hf0, hflt⟩ := hok.bound fd _ hfd
  rcases dirRemove_spec hs h hfd hf0 hflt fn with ⟨-, hno⟩ | ⟨e', hm', hn', s', G', hr⟩
  · exact absurd hn (hno e (mem_of_entry hfd he))
  · obtain rfl : e' = e := hok.inj (entry_of_mem hfd hm') he (hn'.trans hn.symm)
    exact ⟨s', G', hr⟩

/-- **`mwfs_rename`.** -/
theorem rename_spec {fd td : Nat} {fslots tslots : List (Option Dent)} (hs : Sane g s)
    (hok : GraphOk g G) (h : Rep g G (view g s.disk)) (hfd : G fd = some (.dir fslots)) (fn : Name)
    (htd : G td = some (.dir tslots)) (tn : Name) :
    ∃ r s' Gm G', rename s fd fn td tn = (r, s') ∧ Sane g s' ∧ Rep g G' (view g s'.disk) ∧
      Via g (fun V => Rep g G V ∨ Rep g Gm V ∨ Rep g G' V) s s' ∧
      (Exact g G (view g s.disk) → Exact g G' (view g s'.disk)) ∧
      ((r = .ok ∧ nameOk tn = true ∧ Renamed G fd fn td tn Gm G') ∨
        (Gm = G ∧ G' = G ∧ RenameRefused G fd fn td tn r)) := by
  obtain ⟨hf0, hflt⟩ := hok.bound fd _ hfd
  obtain ⟨ht0, htlt⟩ := hok.bound td _ htd
  have hstay : Via g (fun V => Rep g G V ∨ Rep g G V ∨ Rep g G V) s s := .refl (Or.inl h)
  unfold rename
  rcases dirLookup_spec hs h hfd hf0 hflt fn with ⟨hr, hno⟩ | ⟨e, hm, hn, hr⟩
  · rw [hr]
    exact ⟨_, _, G, G, rfl, hs, h, hstay, id, Or.inr ⟨rfl, rfl, Or.inl ⟨rfl, fun e he =>
      hno e (mem_of_entry hfd he)⟩⟩⟩
  have he := entry_of_mem hfd hm
  obtain ⟨hroot, o, ho, hoty⟩ := hok.entry fd e he
  obtain ⟨hi0, hilt⟩ := hok.bound _ _ ho
  rw [hr]
  dsimp only
  by_cases hname : nameOk tn = false
  · rw [if_pos hname]
    exact ⟨_, _, G, G, rfl, hs, h, hstay, id, Or.inr ⟨rfl, rfl, Or.inr (Or.inl ⟨rfl, hname, e, he,
      hn⟩)⟩⟩
  rw [if_neg hname]
  rw [Bool.not_eq_false] at hname
  rcases dirLookup_spec hs h htd ht0 htlt tn with ⟨hr', hno'⟩ | ⟨e', hm', hn', hr'⟩
  · -- a free name: the new entry, then the old one
    have hno'' : ∀ e', Entry G td e' → fold e'.name ≠ fold tn := fun e' he' =>
      hno' e' (mem_of_entry htd he')
    have hty : e.type < 256 := by
      rw [← hoty]
      cases o <;> simp [Obj.type, tFile, tDir]
    rw [hr']
    obtain ⟨r, s₁, Gm, hs₁, hstep, hino₁, hres⟩ :=
      dirAdd_spec hs h htd ht0 htlt hi0 (ino_lt_u32 hs hilt) hty tn
    rw [hs₁]
    rcases hres with ⟨rfl, -, -, hswap⟩ | ⟨rfl, hwhy⟩
    · have hokm : GraphOk g Gm := hswap.ok_link hok he hname hno''
      have hem : Entry Gm fd e := (hswap.entry_iff hok).mpr (Or.inr ⟨he, by simp⟩)
      obtain ⟨fsl, hfsl⟩ := hem.isDir
      obtain ⟨s₂, G', hs₂, hswap₂, hstep₂, hino₂⟩ :=
        rename_remove hstep.sane hokm hstep.rep hfsl hem hn
      dsimp only
      rw [hs₂]
      refine ⟨_, s₂, Gm, G', rfl, hstep₂.sane, hstep₂.rep, ?_, fun hex => ?_,
        Or.inl ⟨rfl, hname, .move he hn hno'' hswap hswap₂⟩⟩
      · exact (hstep.via.mono fun V hV => hV.imp id Or.inl).trans
          (hstep₂.via.mono fun V hV => Or.inr hV)
      · exact hstep₂.exact hswap₂ (fun j _ => by rw [hino₂]) (hstep.exact hswap hino₁ hex)
    · have hne : r ≠ .ok ∧ (r = .full ∨ r = .toobig) := by
        rcases hwhy with ⟨-, hbad⟩ | ⟨-, e', hm', hn'⟩ | rfl | rfl
        · rw [hname] at hbad
          exact absurd hbad (by simp)
        · exact absurd hn' (hno' e' hm')
        · simp
        · simp
      refine ⟨r, s₁, Gm, Gm, ?_, hstep.sane, hstep.rep, ?_, fun hex => ?_,
        Or.inr ⟨rfl, rfl, Or.inr (Or.inr (Or.inr ⟨hne.2, hname, hno'', e, he, hn⟩))⟩⟩
      · rcases hne.2 with rfl | rfl <;> rfl
      · exact hstep.via.mono fun V hV => hV.imp id Or.inl
      · refine ⟨hstep.lean hex.lean, fun j hj hc => ?_⟩
        by_cases hjd : j = td
        · rw [hjd, htd] at hc
          exact absurd hc (by simp)
        · rw [hino₁ j hjd] at hj
          exact hex.full j hj hc
  · have he' := entry_of_mem htd hm'
    rw [hr']
    dsimp only
    by_cases hsame : e'.ino = e.ino
    · rw [if_pos hsame]
      exact ⟨_, _, G, G, rfl, hs, h, hstay, id, Or.inl ⟨rfl, hname, .same he hn he' hn' hsame⟩⟩
    rw [if_neg hsame]
    by_cases hdir : e'.type = tDir ∨ e.type = tDir
    · rw [if_pos hdir]
      exact ⟨_, _, G, G, rfl, hs, h, hstay, id, Or.inr ⟨rfl, rfl, Or.inr (Or.inr (Or.inl ⟨rfl, hname,
        e, e', he, hn, he', hn', hsame, hdir⟩))⟩⟩
    rw [if_neg hdir]
    -- a file in the way: its entry is turned over, then the old one goes, then the file
    have hfile : ∀ {d : Nat} {e : Dent}, Entry G d e → e.type ≠ tDir → e.type = tFile := by
      intro d e he hty
      obtain ⟨-, o, -, hoty⟩ := hok.entry d e he
      cases o with
      | file _ _ => exact hoty.symm
      | dir _ => exact absurd hoty.symm hty
    rw [not_or] at hdir
    have hty' := hfile he' hdir.1
    have hty := hfile he hdir.2
    rcases dirRetarget_spec hs h htd ht0 htlt hi0 (ino_lt_u32 hs hilt) tn with
      ⟨-, hno⟩ | ⟨e'', hm'', hn'', s₁, Gm, hs₁, hswap, hstep, hino₁⟩
    · exact absurd hn' (hno e' hm')
    obtain rfl : e'' = e' := hok.inj (entry_of_mem htd hm'') he' (hn''.trans hn'.symm)
    have hokm : GraphOk g Gm := hswap.ok_over hok he he' (hty.trans hty'.symm)
    have hem : Entry Gm fd e := (hswap.entry_iff hok).mpr (Or.inr ⟨he, fun hc => by
      have := Option.some.inj hc.2
      exact hsame (by rw [this])⟩)
    obtain ⟨fsl, hfsl⟩ := hem.isDir
    obtain ⟨s₂, G', hs₂, hswap₂, hstep₂, hino₂⟩ :=
      rename_remove hstep.sane hokm hstep.rep hfsl hem hn
    obtain ⟨-, o', ho', -⟩ := hok.entry td e'' he'
    obtain ⟨hi0', hilt'⟩ := hok.bound _ _ ho'
    obtain ⟨o₁, ho₁, -⟩ := hswap.type ho'
    obtain ⟨o₂, ho₂, -⟩ := hswap₂.type ho₁
    obtain ⟨hsane₃, hrep₃, hvia₃, hino₃, hlean₃⟩ := hstep₂.rep.release hstep₂.sane ho₂ hi0' hilt'
    rw [hs₁]
    dsimp only
    rw [hs₂]
    refine ⟨_, _, Gm, G'.drop e''.ino, rfl, hsane₃, hrep₃, ?_, fun hex => ?_,
      Or.inl ⟨rfl, hname, .«over» he hn he' hn' hsame hty hty' hswap hswap₂⟩⟩
    · exact ((hstep.via.mono fun V hV => hV.imp id Or.inl).trans
        (hstep₂.via.mono fun V hV => Or.inr (hV.imp id fun hV => hV.mono (G'.drop_sub _)))).trans
        (hvia₃.mono fun V hV => Or.inr (Or.inr hV))
    · exact (hstep₂.exact hswap₂ (fun j _ => by rw [hino₂])
        (hstep.exact hswap (fun j _ => by rw [hino₁]) hex)).release hino₃ hlean₃

end Ops

end Mwfs
