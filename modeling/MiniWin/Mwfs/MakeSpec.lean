import MiniWin.Mwfs.Graph

/-!
# Making files

`mwfs_file_put` and `mwfs_file_copy` fill a fresh inode, which the graph does not
have, and then let `mwfs_file_install` switch the name over to it in one write. On
the way to that write the volume holds the graph it held before, and from it on
the graph with the new file.
-/

namespace Mwfs

open Place

/-- Every inode in use stands for an object of the graph, and every sector in use
is owned by one: nothing has leaked. -/
structure Exact (g : Geo) (G : Graph) (V : View) : Prop where
  lean : Trim g G V
  full : ∀ j, (V.ino j).type ≠ tFree → G j ≠ none

/-- The same, inode `i` apart, whose pointers are `t`'s. -/
structure ExactBut (g : Geo) (G : Graph) (i : Nat) (t : Ino) (V : View) : Prop where
  lean : Tight g ((diskForest G V).put i t) V
  full : ∀ j, j ≠ i → (V.ino j).type ≠ tFree → G j ≠ none

/-- What a completed operation has done: from a volume that holds `G` to one that
holds `G'`, by way of volumes that hold the one or the other. -/
structure Done (g : Geo) (G G' : Graph) (s s' : St) : Prop where
  sane : Sane g s'
  rep : Rep g G' (view g s'.disk)
  via : Via g (fun V => Rep g G V ∨ Rep g G' V) s s'

/-- A file with these contents now has the name: a new one, or one that has taken
the place of a file. -/
inductive MadeFile (g : Geo) (G : Graph) (d : Nat) (name : Name) (bytes : List UInt8)
    (aux : UInt32) : Graph → Prop
  | fresh {i : Nat} {G' : Graph} (hi : G i = none) (hi2 : 2 ≤ i) (hlt : i < g.inode_count)
    (hno : ∀ e, Entry G d e → fold e.name ≠ fold name)
    (hswap : Swap (G.add i (.file bytes aux)) G' d none (some ⟨i, tFile, name⟩)) :
    MadeFile g G d name bytes aux G'
  | «over» {i : Nat} {G' : Graph} {e : Dent} (hi : G i = none) (hi2 : 2 ≤ i) (hlt : i < g.inode_count)
    (he : Entry G d e) (hn : fold e.name = fold name) (hty : e.type = tFile)
    (hswap : Swap (G.add i (.file bytes aux)) G' d (some e) (some { e with ino := i })) :
    MadeFile g G d name bytes aux (G'.drop e.ino)

section Make

variable {g : Geo} {G : Graph} {s : St} {d i : Nat} {slots : List (Option Dent)} {t : Ino}

/-! ## A fresh inode -/

/-- An object of the graph has an inode that is not free. -/
theorem Rep.not_free {V : View} (h : Rep g G V) {j : Nat} {o : Obj} (hj : G j = some o) :
    (V.ino j).type ≠ tFree := by
  rw [(h.objRep hj).type_eq]
  cases o <;> simp [Obj.type, tFile, tDir, tFree]

theorem Rep.none_of_free {V : View} (h : Rep g G V) {j : Nat} (hj : (V.ino j).type = tFree) :
    G j = none := by
  cases hG : G j with
  | none => rfl
  | some o => exact absurd hj (h.not_free hG)

/-- An inode without pointers has no places. -/
theorem ref_zero (V : View) {u : Nat → Nat} (hu : ∀ r, u r = 0) (p : Place Nat) : V.ref u p = 0 := by
  unfold View.ref
  induction p with
  | root r => exact hu r
  | entry p k ih => exact ref_entry_eq_zero isTab V.tbl u k (Or.inr ih)

theorem owns_put_empty {F : Forest} {V : View} (hi : F i = none) (ht : ∀ r, t.top r = 0) (l : Nat) :
    Owns V (F.put i t) l ↔ Owns V F l := by
  constructor
  · rintro ⟨hl, j, u, p, hj, hp⟩
    by_cases hji : j = i
    · subst hji
      rw [Forest.put_self, Option.some.injEq] at hj
      subst hj
      exact absurd (hp.symm.trans (ref_zero V ht p)) hl
    · exact ⟨hl, j, u, p, (Function.update_of_ne hji _ _).symm.trans hj, hp⟩
  · rintro ⟨hl, j, u, p, hj, hp⟩
    have hji : j ≠ i := fun hc => by rw [hc, hi] at hj; exact absurd hj (by simp)
    exact ⟨hl, j, u, p, (Function.update_of_ne hji _ _).trans hj, hp⟩

/-- An inode in memory that owns nothing yet. -/
theorem Inv.put_empty {F : Forest} {V : View} (h : Inv g G F V) (hi : F i = none)
    (ht : ∀ r, t.top r = 0) : Inv g G (F.put i t) V where
  sb := h.sb
  pad := h.pad
  sep := by
    have hkey : ∀ j u p, F.put i t j = some u → V.ref u p ≠ 0 → F j = some u := by
      intro j u p hj h0
      by_cases hji : j = i
      · subst hji
        rw [Forest.put_self, Option.some.injEq] at hj
        subst hj
        exact absurd (ref_zero V ht p) h0
      · exact (Function.update_of_ne hji _ _).symm.trans hj
    intro j k u w p q hj hk hpq h0
    have hq0 : V.ref w q ≠ 0 := fun hc => h0 (hpq.trans hc)
    exact h.sep j k u w p q (hkey j u p hj h0) (hkey k w q hk hq0) hpq h0
  data l hl := h.data l ((owns_put_empty hi ht l).mp hl)
  used l hl := h.used l ((owns_put_empty hi ht l).mp hl)
  obj j o hj := by
    obtain ⟨u, hu, hrest⟩ := h.obj j o hj
    have hji : j ≠ i := fun hc => by rw [hc, hi] at hu; exact absurd hu (by simp)
    exact ⟨u, (Function.update_of_ne hji _ _).trans hu, hrest⟩

/-- **A fresh inode**, empty but for what does not own anything. -/
theorem inoAlloc_fresh (hs : Sane g s) (h : Rep g G (view g s.disk)) (type : Nat)
    (hty : type < 65536) (upd : Ino → Ino)
    (hupd : ∀ r, (upd { Ino.zero with type := type }).top r = 0)
    (hfits : (upd { Ino.zero with type := type }).Fits) :
    inoAlloc s type = (0, s) ∨ ∃ i s', inoAlloc s type = (i, s') ∧ 2 ≤ i ∧ i < g.inode_count ∧
      G i = none ∧ (view g s'.disk).ino i = { Ino.zero with type := type } ∧
      Via g (Rep g G) s s' ∧ Rep g G (view g s'.disk) ∧
      (∀ j, j ≠ i → (view g s'.disk).ino j = (view g s.disk).ino j) ∧
      Growing g G (diskForest G (view g s'.disk)) i s' (upd { Ino.zero with type := type }) 0 ∧
      (Exact g G (view g s.disk) →
        ExactBut g G i (upd { Ino.zero with type := type }) (view g s'.disk)) := by
  rcases inoAlloc_spec hs hty with hr | ⟨i, s', hr, hi2, hlt, hfree, hw⟩
  · exact Or.inl hr
  · have hG := h.none_of_free hfree
    have hino : ∀ j, j ≠ i → (view g s'.disk).ino j = (view g s.disk).ino j := fun j hj => by
      rw [hw.eq]
      exact Function.update_of_ne hj _ _
    have hobj : ∀ j o, G j = some o → (view g s'.disk).ino j = (view g s.disk).ino j :=
      fun j o hj => hino j fun hc => by rw [hc, hG] at hj; exact absurd hj (by simp)
    have hforest : diskForest G (view g s'.disk) = diskForest G (view g s.disk) :=
      diskForest_eq (fun _ => Iff.rfl) hobj
    have hinv : Inv g G (diskForest G (view g s'.disk)) (view g s'.disk) := by
      rw [hforest, hw.eq]
      exact Inv.setIno h hG _
    have hFi : diskForest G (view g s'.disk) i = none := by
      unfold diskForest
      rw [hG]
      rfl
    refine Or.inr ⟨i, s', hr, hi2, hlt, hG, ?_, hw.via h ?_, hinv, hino, ?_, fun hex => ?_⟩
    · rw [hw.eq]
      exact Function.update_self ..
    · rw [← hw.eq]
      exact hinv
    · exact ⟨hw.sane, hinv.put_empty hFi hupd, hfits, fun o n ho => by
        rw [hG] at ho; exact absurd ho (by simp)⟩
    · refine ⟨fun m hm hbit => (owns_put_empty hFi hupd m).mpr ?_, fun j hj hjt => ?_⟩
      · rw [hforest]
        rw [hw.eq] at hbit ⊢
        exact hex.lean m hm hbit
      · exact hex.full j (by rwa [← hino j hj])

/-! ## Giving an unnamed inode back -/

/-- **The failure path**: what the fresh inode took is given back, and the volume
is as exact as it was. -/
theorem release_fresh (hs : Sane g s) (hG : G i = none)
    (h : Inv g G ((diskForest G (view g s.disk)).put i t) (view g s.disk))
    (ht : (view g s.disk).ino i = t) (hi0 : i ≠ 0) (hlt : i < g.inode_count) :
    Sane g (inoRelease s i) ∧ Rep g G (view g (inoRelease s i).disk) ∧
      Via g (Rep g G) s (inoRelease s i) ∧
      (ExactBut g G i t (view g s.disk) → Exact g G (view g (inoRelease s i).disk)) := by
  obtain ⟨hsane, hinv, hvia, hino, htight⟩ := inoRelease_spec hs h hG
    (by rw [Forest.put_self, ht]) hi0 hlt
  refine ⟨hsane, hinv.rep, hvia, fun hex => ⟨?_, fun j hj => ?_⟩⟩
  · have hforest : ((diskForest G (view g s.disk)).put i t).drop i
        = diskForest G (view g (inoRelease s i).disk) := by
      funext j
      unfold Forest.drop Forest.put diskForest
      by_cases hji : j = i
      · subst hji
        rw [Function.update_self, hG]
        rfl
      · rw [Function.update_of_ne hji, Function.update_of_ne hji, hino, Function.update_of_ne hji]
    unfold Trim
    rw [← hforest]
    exact htight hex.lean
  · rw [hino] at hj
    by_cases hji : j = i
    · subst hji
      rw [Function.update_self] at hj
      exact absurd rfl hj
    · rw [Function.update_of_ne hji] at hj
      exact hex.full j hji hj

/-! ## The switch-over -/

theorem graph_add_drop (hG : G i = none) (o : Obj) : (G.add i o).drop i = G := by
  unfold Graph.add Graph.drop
  rw [Function.update_idem, ← hG]
  exact Function.update_eq_self i G

/-- An inode of the table is a 32-bit number. -/
theorem ino_lt_u32 (hs : Sane g s) (hlt : i < g.inode_count) : i < 4294967296 := by
  have := hs.ok.maxInodes
  omega

/-- The new object stored: the graph may have it now. -/
theorem store_fresh (hs : Sane g s) (hG : G i = none)
    (h : Inv g G ((diskForest G (view g s.disk)).put i t) (view g s.disk)) (ht : t.Fits)
    (hi0 : i ≠ 0) (hlt : i < g.inode_count) :
    ∃ s', inoPut s i t = (true, s') ∧ Sane g s' ∧ Via g (Rep g G) s s' ∧
      (view g s'.disk).ino = Function.update (view g s.disk).ino i t ∧
      Inv g G ((diskForest G (view g s'.disk)).put i t) (view g s'.disk) ∧
      (ExactBut g G i t (view g s.disk) → ExactBut g G i t (view g s'.disk)) ∧
      ∀ o, ObjRep (view g s.disk) t o → Rep g (G.add i o) (view g s'.disk) ∧
        (ExactBut g G i t (view g s.disk) → Exact g (G.add i o) (view g s'.disk)) := by
  obtain ⟨s', hs', hw⟩ := inoPut_eq hs hi0 hlt ht
  have hinv := h.setIno hG t
  have hforest : diskForest G (view g s'.disk) = diskForest G (view g s.disk) := by
    refine diskForest_eq (fun _ => Iff.rfl) fun j o hj => ?_
    have hji : j ≠ i := fun hc => by rw [hc, hG] at hj; exact absurd hj (by simp)
    rw [hw.eq, View.setIno_ino, Function.update_of_ne hji]
  have hino : (view g s'.disk).ino = Function.update (view g s.disk).ino i t := by
    rw [hw.eq]
    rfl
  have hlean : Tight g ((diskForest G (view g s.disk)).put i t) (view g s.disk) →
      Tight g ((diskForest G (view g s.disk)).put i t) (view g s'.disk) := by
    rw [hw.eq]
    exact id
  refine ⟨s', hs', hw.sane, hw.via h.rep hinv.rep, hino, ?_, fun hex => ⟨?_, fun j hj hjt => ?_⟩,
    fun o ho => ⟨?_, fun hex => ⟨?_, fun j hj => ?_⟩⟩⟩
  · rw [hforest, hw.eq]
    exact hinv
  · rw [hforest]
    exact hlean hex.lean
  · rw [hino, Function.update_of_ne hj] at hjt
    exact hex.full j hj hjt
  · rw [hw.eq]
    exact (h.commit (Forest.put_self ..) ho).rep
  · have hforest' : diskForest (G.add i o) (view g s'.disk)
        = (diskForest G (view g s.disk)).put i t := by
      funext j
      unfold Forest.put Graph.add diskForest
      by_cases hji : j = i
      · subst hji
        rw [Function.update_self, Function.update_self, hino, Function.update_self]
        rfl
      · rw [Function.update_of_ne hji, Function.update_of_ne hji, hino, Function.update_of_ne hji]
    unfold Trim
    rw [hforest']
    exact hlean hex.lean
  · unfold Graph.add
    by_cases hji : j = i
    · subst hji
      simp
    · rw [Function.update_of_ne hji]
      rw [hino, Function.update_of_ne hji] at hj
      exact hex.full j hji hj

/-- Making a directory entry changes no inode but the directory's, which stays a
directory: what was exact still is. -/
theorem Stepped.exact {G' : Graph} {s' : St} {old new : Option Dent} (h : Stepped g G G' s s')
    (hswap : Swap G G' d old new)
    (hino : ∀ j, j ≠ d → (view g s'.disk).ino j = (view g s.disk).ino j)
    (hex : Exact g G (view g s.disk)) : Exact g G' (view g s'.disk) := by
  refine ⟨h.lean hex.lean, fun j hj hc => ?_⟩
  have hGj := (hswap.dom j).mpr hc
  by_cases hjd : j = d
  · subst hjd
    obtain ⟨sl, hsl⟩ := hswap.isDir.1
    rw [hGj] at hsl
    exact absurd hsl (by simp)
  · rw [hino j hjd] at hj
    exact hex.full j hj hGj

/-- Releasing an object of the graph keeps it exact. -/
theorem Exact.release {s' : St} (hex : Exact g G (view g s.disk))
    (hino : (view g s'.disk).ino = Function.update (view g s.disk).ino i Ino.zero)
    (hlean : Trim g G (view g s.disk) → Trim g (G.drop i) (view g s'.disk)) :
    Exact g (G.drop i) (view g s'.disk) := by
  refine ⟨hlean hex.lean, fun j hj => ?_⟩
  by_cases hji : j = i
  · subst hji
    rw [hino, Function.update_self] at hj
    exact absurd rfl hj
  · rw [hino, Function.update_of_ne hji] at hj
    rw [drop_of_ne hji]
    exact hex.full j hj

/-- **A fresh object entered** under a new name. Where there is no room for the
entry, the object is given back and the graph is as it was. -/
theorem enter_fresh (hs : Sane g s) (hok : GraphOk g G) (hG : G i = none) (hi2 : 2 ≤ i)
    (hlt : i < g.inode_count) {o : Obj} (h : Rep g (G.add i o) (view g s.disk))
    (hd : G d = some (.dir slots)) {name : Name} (hname : nameOk name = true)
    (hno : ∀ e ∈ ents slots, fold e.name ≠ fold name) :
    ∃ r s', dirAdd s d name i o.type = (r, s') ∧
      ((r = .ok ∧ ∃ G', Swap (G.add i o) G' d none (some ⟨i, o.type, name⟩) ∧ Done g G G' s s' ∧
          (Exact g (G.add i o) (view g s.disk) → Exact g G' (view g s'.disk))) ∨
        ((r = .full ∨ r = .toobig) ∧ Done g G G s (inoRelease s' i) ∧
          (Exact g (G.add i o) (view g s.disk) →
            Exact g G (view g (inoRelease s' i).disk)))) := by
  have hi0 : i ≠ 0 := by omega
  obtain ⟨hd0, hdlt⟩ := hok.bound d _ hd
  have hd' : (G.add i o) d = some (.dir slots) := G.sub_add hG _ d _ hd
  have hback : ∀ V, Rep g (G.add i o) V → Rep g G V := fun V hV => hV.mono (G.sub_add hG _)
  have hty : o.type < 256 := by
    cases o <;> simp [Obj.type, tFile, tDir]
  obtain ⟨r, s', G', hs', hstep, hino, hres⟩ :=
    dirAdd_spec hs h hd' hd0 hdlt hi0 (ino_lt_u32 hs hlt) hty name
  refine ⟨r, s', hs', ?_⟩
  rcases hres with ⟨rfl, -, -, hswap⟩ | ⟨rfl, hwhy⟩
  · refine Or.inl ⟨rfl, G', hswap, ⟨hstep.sane, hstep.rep, ?_⟩, hstep.exact hswap hino⟩
    exact hstep.via.mono fun V hV => hV.imp (hback V) id
  · obtain ⟨hsane₂, hrep₂, hvia₂, hino₂, hlean₂⟩ :=
      hstep.rep.release hstep.sane (G.add_self i o) hi0 hlt
    rw [graph_add_drop hG] at hrep₂ hvia₂
    refine Or.inr ⟨?_, ⟨hsane₂, hrep₂, ?_⟩, fun hex => ?_⟩
    · rcases hwhy with ⟨-, hbad⟩ | ⟨-, e, hm, hn⟩ | hwhy
      · rw [hname] at hbad
        exact absurd hbad (by simp)
      · exact absurd hn (hno e hm)
      · exact hwhy
    · exact (hstep.via.mono fun V hV => Or.inl (hV.elim (hback V) (hback V))).trans
        (hvia₂.mono fun V hV => Or.inl hV)
    · have hex' : Exact g (G.add i o) (view g s'.disk) := by
        refine ⟨hstep.lean hex.lean, fun j hj hc => ?_⟩
        by_cases hjd : j = d
        · rw [hjd, hd'] at hc
          exact absurd hc (by simp)
        · rw [hino j hjd] at hj
          exact hex.full j hj hc
      have := hex'.release hino₂ hlean₂
      rwa [graph_add_drop hG] at this

/-- **The switch-over.** A file that has been written out whole gets the name, in
one write; anything else is given back, and the graph is as it was. -/
theorem fileInstall_spec (hs : Sane g s) (hok : GraphOk g G) (hG : G i = none) (hi2 : 2 ≤ i)
    (hlt : i < g.inode_count) (h : Inv g G ((diskForest G (view g s.disk)).put i t) (view g s.disk))
    (ht : t.Fits) (hd : G d = some (.dir slots)) {name : Name} (hname : nameOk name = true)
    (hmay : ∀ e, Entry G d e → fold e.name = fold name → e.type ≠ tDir)
    {bytes : List UInt8} {aux : UInt32} (err : Err)
    (hfile : err = .ok → FileRep (view g s.disk) t bytes aux) :
    ∃ r s' G', fileInstall s d name i t err = (r, s') ∧ Done g G G' s s' ∧
      (ExactBut g G i t (view g s.disk) → Exact g G' (view g s'.disk)) ∧
      ((r = .ok ∧ err = .ok ∧ MadeFile g G d name bytes aux G') ∨
        (G' = G ∧ r ≠ .ok ∧ (r = err ∨ r = .full ∨ r = .toobig))) := by
  have hi0 : i ≠ 0 := by omega
  obtain ⟨hd0, hdlt⟩ := hok.bound d _ hd
  obtain ⟨s₁, hs₁, hsane₁, hvia₁, hino₁, hinv₁, hexb₁, hstored⟩ := store_fresh hs hG h ht hi0 hlt
  have hlook := dirLookup_spec hs h.rep hd hd0 hdlt name
  have hrel := release_fresh hsane₁ hG hinv₁ (by rw [hino₁, Function.update_self]) hi0 hlt
  unfold fileInstall
  rw [hs₁]
  by_cases herr : err = .ok
  · subst herr
    -- the file is whole: from here on the graph may have it
    obtain ⟨hrep, hexact⟩ := hstored (.file bytes aux) (hfile rfl)
    have hd' : (G.add i (.file bytes aux)) d = some (.dir slots) := G.sub_add hG _ d _ hd
    have hback : ∀ V, Rep g (G.add i (.file bytes aux)) V → Rep g G V := fun V hV =>
      hV.mono (G.sub_add hG _)
    rcases hlook with ⟨hr, hno⟩ | ⟨e, hm, hn, hr⟩
    · rw [hr]
      obtain ⟨r, s₂, hs₂, hres⟩ := enter_fresh hsane₁ hok hG hi2 hlt hrep hd hname hno
      have hs₂' : dirAdd s₁ d name i tFile = (r, s₂) := hs₂
      simp only [Bool.true_eq_false, false_and, if_false, if_true, hs₂']
      rcases hres with ⟨rfl, G₂, hswap, hdone, hex⟩ | ⟨hwhy, hdone, hex⟩
      · rw [if_neg (by simp)]
        refine ⟨_, s₂, G₂, rfl, ⟨hdone.sane, hdone.rep, ?_⟩, fun h => hex (hexact h),
          Or.inl ⟨rfl, trivial, ?_⟩⟩
        · exact (hvia₁.mono fun V hV => Or.inl hV).trans hdone.via
        · exact .fresh hG hi2 hlt (fun e ⟨sl, hsl, hm⟩ => by
            obtain rfl := Obj.dir.inj (Option.some.inj (hd.symm.trans hsl))
            exact hno e hm) hswap
      · have hne : r ≠ .ok := by
          rcases hwhy with rfl | rfl <;> simp
        rw [if_pos hne]
        refine ⟨r, _, G, rfl, ⟨hdone.sane, hdone.rep, ?_⟩, fun h => hex (hexact h),
          Or.inr ⟨rfl, hne, Or.inr hwhy⟩⟩
        exact (hvia₁.mono fun V hV => Or.inl hV).trans hdone.via
    · have he : Entry G d e := ⟨slots, hd, hm⟩
      have hty : e.type ≠ tDir := hmay e he hn
      rw [hr]
      simp only [Bool.true_eq_false, false_and, if_false, if_true, hty]
      rcases dirRetarget_spec hsane₁ hrep hd' hd0 hdlt hi0 (ino_lt_u32 hs hlt) name with
        ⟨-, hno⟩ | ⟨e', hm', hn', s₂, G₂, hs₂, hswap, hstep, hino₂⟩
      · exact absurd hn (hno e hm)
      · obtain rfl : e' = e := hok.inj ⟨slots, hd, hm'⟩ he (hn'.trans hn.symm)
        obtain ⟨hroot, o, ho, hoty⟩ := hok.entry d e' he
        obtain ⟨he0, helt⟩ := hok.bound _ _ ho
        obtain ⟨o', ho', -⟩ := hswap.type (G.sub_add hG (.file bytes aux) _ _ ho)
        obtain ⟨hsane₃, hrep₃, hvia₃, hino₃, hlean₃⟩ :=
          hstep.rep.release hstep.sane ho' he0 helt
        rw [hs₂]
        rw [if_neg (by simp)]
        refine ⟨_, _, G₂.drop e'.ino, rfl, ⟨hsane₃, hrep₃, ?_⟩, fun hex => ?_,
          Or.inl ⟨rfl, trivial, ?_⟩⟩
        · exact (hvia₁.mono fun V hV => Or.inl hV).trans
            ((hstep.via.mono fun V hV => hV.imp (hback V) fun hV => hV.mono (G₂.drop_sub _)).trans
              (hvia₃.mono fun V hV => Or.inr hV))
        · exact (hstep.exact hswap (fun j _ => by rw [hino₂]) (hexact hex)).release hino₃ hlean₃
        · refine .«over» hG hi2 hlt he hn ?_ hswap
          cases o with
          | file _ _ => exact hoty.symm
          | dir _ => exact absurd hoty.symm hty
  · obtain ⟨hsane₂, hrep₂, hvia₂, hex₂⟩ := hrel
    simp only [Bool.true_eq_false, false_and, if_false, herr, ne_eq, not_false_eq_true, if_true]
    refine ⟨_, _, G, rfl, ⟨hsane₂, hrep₂, ?_⟩, fun hex => hex₂ (hexb₁ hex),
      Or.inr ⟨rfl, herr, Or.inl rfl⟩⟩
    exact (hvia₁.trans hvia₂).mono fun V hV => Or.inl hV

/-! ## Putting a file -/

/-- What `fileMayMake` finds out. -/
theorem fileMayMake_spec (hs : Sane g s) (hok : GraphOk g G) (h : Rep g G (view g s.disk))
    (hd : G d = some (.dir slots)) (name : Name) :
    (fileMayMake s d name = .ok ∧ ∀ e, Entry G d e → fold e.name = fold name → e.type ≠ tDir) ∨
      (fileMayMake s d name = .isdir ∧ ∃ e, Entry G d e ∧ fold e.name = fold name ∧ e.type = tDir) := by
  obtain ⟨hd0, hdlt⟩ := hok.bound d _ hd
  unfold fileMayMake
  rcases dirLookup_spec hs h hd hd0 hdlt name with ⟨hr, hno⟩ | ⟨e, hm, hn, hr⟩
  · rw [hr]
    refine Or.inl ⟨rfl, fun e ⟨sl, hsl, hm⟩ hn => ?_⟩
    obtain rfl := Obj.dir.inj (Option.some.inj (hd.symm.trans hsl))
    exact absurd hn (hno e hm)
  · have he : Entry G d e := ⟨slots, hd, hm⟩
    rw [hr]
    dsimp only
    by_cases hty : e.type = tDir
    · rw [if_pos hty]
      exact Or.inr ⟨rfl, e, he, hn, hty⟩
    · rw [if_neg hty]
      refine Or.inl ⟨rfl, fun e' he' hn' => ?_⟩
      rw [hok.inj he' he (hn'.trans hn.symm)]
      exact hty

/-- Why no file was made. -/
def MakeRefused (G : Graph) (d : Nat) (name : Name) (r : Err) : Prop :=
  (r = .name ∧ nameOk name = false) ∨
    (r = .isdir ∧ nameOk name = true ∧ ∃ e, Entry G d e ∧ fold e.name = fold name ∧ e.type = tDir) ∨
    r = .full ∨ r = .toobig

/-- The steps from the fresh inode to the switch-over, put together. -/
theorem install_fresh {s₀ s₁ s₂ : St} {t₁ t₂ : Ino} {K : Nat → Prop} (hok : GraphOk g G)
    (hG : G i = none) (hi2 : 2 ≤ i) (hlt : i < g.inode_count) (hvia₁ : Via g (Rep g G) s₀ s₁)
    (hexb : Exact g G (view g s₀.disk) → ExactBut g G i t₁ (view g s₁.disk))
    (hedit : Edit g G (diskForest G (view g s₁.disk)) i K s₁ t₁ s₂ t₂)
    (hd : G d = some (.dir slots)) {name : Name} (hname : nameOk name = true)
    (hmay : ∀ e, Entry G d e → fold e.name = fold name → e.type ≠ tDir)
    {bytes : List UInt8} {aux crc : UInt32} (err : Err)
    (hfile : err = .ok → FileRep (view g s₂.disk) { t₂ with crc := crc } bytes aux) :
    ∃ r s' G', fileInstall s₂ d name i { t₂ with crc := crc } err = (r, s') ∧ Done g G G' s₀ s' ∧
      (Exact g G (view g s₀.disk) → Exact g G' (view g s'.disk)) ∧
      ((r = .ok ∧ err = .ok ∧ MadeFile g G d name bytes aux G') ∨
        (G' = G ∧ r ≠ .ok ∧ (r = err ∨ r = .full ∨ r = .toobig))) := by
  have hforest : diskForest G (view g s₂.disk) = diskForest G (view g s₁.disk) :=
    diskForest_eq (fun _ => Iff.rfl) fun _ _ _ => by rw [hedit.ino]
  have hexb₂ : ExactBut g G i t₁ (view g s₁.disk) →
      ExactBut g G i { t₂ with crc := crc } (view g s₂.disk) := by
    refine fun hex => ⟨?_, fun j hj hjt => hex.full j hj (by rwa [hedit.ino] at hjt)⟩
    rw [hforest]
    exact hedit.tight hex.lean
  obtain ⟨r, s', G', hs', hdone, hex, hres⟩ := fileInstall_spec (t := { t₂ with crc := crc })
    hedit.sane hok hG hi2 hlt (by rw [hforest]; exact hedit.inv) { hedit.fits with } hd hname hmay
    err hfile
  refine ⟨r, s', G', hs', ⟨hdone.sane, hdone.rep, ?_⟩, fun h => hex (hexb₂ (hexb h)), hres⟩
  exact ((hvia₁.trans hedit.via).mono fun V hV => Or.inl hV).trans hdone.via

/-- **`mwfs_file_put`.** -/
theorem filePut_spec (hs : Sane g s) (hok : GraphOk g G) (h : Rep g G (view g s.disk))
    (hd : G d = some (.dir slots)) (name : Name) (data : List UInt8) (aux now : UInt32) :
    ∃ r s' G', filePut s d name data aux now = (r, s') ∧ Done g G G' s s' ∧
      (Exact g G (view g s.disk) → Exact g G' (view g s'.disk)) ∧
      ((r = .ok ∧ nameOk name = true ∧ MadeFile g G d name data aux G') ∨
        (G' = G ∧ MakeRefused G d name r)) := by
  have hrefl : Done g G G s s := ⟨hs, h, .refl (Or.inl h)⟩
  unfold filePut
  by_cases hname : nameOk name = false
  · rw [if_pos hname]
    exact ⟨_, _, G, rfl, hrefl, id, Or.inr ⟨rfl, Or.inl ⟨rfl, hname⟩⟩⟩
  · rw [if_neg hname]
    rw [Bool.not_eq_false] at hname
    rcases fileMayMake_spec hs hok h hd name with ⟨hmm, hmay⟩ | ⟨hmm, hisdir⟩
    · rw [hmm, if_neg (by simp)]
      rcases inoAlloc_fresh hs h tFile (by decide) (fun t => { t with aux := aux, gen := now })
          (fun r => by unfold Ino.top; simp [Ino.zero]) { Ino.fits_empty (by decide) with }
        with hr | ⟨i, s₁, hr, hi2, hlt, hG, hino, hvia₁, hrep₁, -, hgrow, hexb⟩
      · rw [hr]
        exact ⟨_, _, G, rfl, hrefl, id, Or.inr ⟨rfl, Or.inr (Or.inr (Or.inl rfl))⟩⟩
      · obtain ⟨n, rfl⟩ : ∃ n, i = n + 1 := ⟨i - 1, by omega⟩
        rw [hr]
        dsimp only
        rw [inoGet_eq hgrow.sane (by omega) hlt, hino]
        dsimp only
        obtain ⟨e, t₂, s₂, hs₂, hedit, hres⟩ := pwrite_spec (o := 0) hgrow data (Or.inl rfl)
          (Or.inl (Nat.le_refl 0))
        rw [hs₂]
        have ht₂ : (if e = .ok then { t₂ with crc := crc32 data } else t₂)
            = { t₂ with crc := if e = .ok then crc32 data else t₂.crc } := by
          split <;> rfl
        rw [ht₂]
        have hfile : e = .ok → FileRep (view g s₂.disk)
            { t₂ with crc := if e = .ok then crc32 data else t₂.crc } data aux := by
          rintro rfl
          rcases hres with ⟨-, hw, hsize⟩ | ⟨he, -⟩
          · have hcrc : (if Err.ok = .ok then crc32 data else t₂.crc) = crc32 data := if_pos rfl
            refine ⟨hedit.type, ?_, ?_, hcrc, hedit.aux, fun x hx => ?_⟩
            · show t₂.size = data.length
              rw [hsize]
              split
              · next hnil =>
                rw [hnil]
                rfl
              · exact Nat.zero_add _
            · by_cases hnil : data = []
              · rw [hnil]
                exact Nat.zero_le _
              · have := hw.room hnil
                omega
            · have := hw.byte x hx
              rwa [Nat.zero_add] at this
          · rcases he with he | he <;> exact absurd he (by simp)
        obtain ⟨r, s', G', hs', hdone, hex, hres'⟩ :=
          install_fresh hok hG hi2 hlt hvia₁ hexb hedit hd hname hmay e hfile
        refine ⟨r, s', G', hs', hdone, hex, ?_⟩
        rcases hres' with ⟨rfl, -, hmade⟩ | ⟨rfl, hne, hwhy⟩
        · exact Or.inl ⟨rfl, hname, hmade⟩
        · refine Or.inr ⟨rfl, Or.inr (Or.inr ?_)⟩
          rcases hwhy with rfl | hwhy
          · rcases hres with ⟨rfl, -⟩ | ⟨he, -⟩
            · exact absurd rfl hne
            · exact he
          · exact hwhy
    · rw [hmm, if_pos (by simp)]
      exact ⟨_, _, G, rfl, hrefl, id, Or.inr ⟨rfl, Or.inr (Or.inl ⟨rfl, hname, hisdir⟩)⟩⟩

/-! ## Copying a file -/

/-- What a copy needs to know of its source: it reads the bytes of a file, whatever
the copy has written so far. -/
def Reads (g : Geo) (G : Graph) (V : View) (bytes : List UInt8)
    (src : St → Nat → Nat → Option (List UInt8)) : Prop :=
  ∀ s', Sane g s' → Rep g G (view g s'.disk) →
    (∀ j o, G j = some o → (view g s'.disk).ino j = V.ino j) → ∀ off n, off + n ≤ bytes.length →
    src s' off n = some ((bytes.drop off).take n)

/-- **The loop of a copy.** After `k` sectors the inode in memory has the first `k`
sectors of the source, and the checksum so far is theirs. -/
theorem copyFrom_spec {bytes : List UInt8} {src : St → Nat → Nat → Option (List UInt8)}
    (hG : G i = none) {V : View}
    (hsrc : Reads g G V bytes src) (hV : ∀ j o, G j = some o → (view g s.disk).ino j = V.ino j)
    {m k : Nat} (hk : k + m = (bytes.length + 511) / 512) (h : Growing g G F i s t k)
    (hsize : t.size = min (512 * k) bytes.length)
    (hbyte : ∀ x (hx : x < bytes.length), x < 512 * k → (view g s.disk).byteAt t x = bytes[x])
    {c : UInt32} (hcrc : c = crc32Update 0xFFFFFFFF (bytes.take (512 * k))) :
    ∃ e crc' t' s', copyFrom src bytes.length s t c (List.range' k m) = (e, crc', t', s') ∧
      Edit g G F i (fun x => k ≤ x) s t s' t' ∧
      ((e = .ok ∧ t'.size = bytes.length ∧ crc' = crc32Update 0xFFFFFFFF bytes ∧
          ∀ x (hx : x < bytes.length), (view g s'.disk).byteAt t' x = bytes[x]) ∨
        e = .full ∨ e = .toobig) := by
  induction m generalizing k s t c with
  | zero =>
    have hall : bytes.length ≤ 512 * k := by omega
    refine ⟨_, _, _, _, rfl, Edit.refl h.sane h.inv h.fits, Or.inl ⟨rfl, ?_, ?_, fun x hx => ?_⟩⟩
    · rw [hsize, Nat.min_eq_right hall]
    · rw [hcrc, List.take_of_length_le hall]
    · exact hbyte x hx (by omega)
  | succ m ih =>
    have hlt : 512 * k < bytes.length := by omega
    obtain ⟨n, hn, hn0, hn512⟩ : ∃ n, n = min (bytes.length - 512 * k) 512 ∧ 0 < n ∧ n ≤ 512 :=
      ⟨_, rfl, by omega, by omega⟩
    have hchunk : ((bytes.drop (512 * k)).take n).length = n := by
      rw [List.length_take, List.length_drop]
      omega
    rw [List.range'_succ]
    unfold copyFrom
    dsimp only
    rw [Nat.mul_comm k 512, ← hn, hsrc s h.sane h.inv.rep hV (512 * k) n (by omega)]
    dsimp only
    rw [if_neg (not_not.mpr hchunk)]
    have hdiv : 512 * k / 512 = k := Nat.mul_div_cancel_left k (by omega)
    obtain ⟨e, t₁, s₁, hs₁, hedit, hres⟩ := pwrite_spec (o := 512 * k) (by rw [hdiv]; exact h)
      ((bytes.drop (512 * k)).take n) (Or.inl (Nat.mul_mod_right 512 k))
      (Or.inl (by rw [hsize]; exact Nat.min_le_left _ _))
    rw [hs₁]
    rw [hchunk] at hedit hres
    have hedit' := hedit.mono (L := fun x => k ≤ x) fun x hx => by omega
    rcases hres with ⟨rfl, hw, hsize₁⟩ | ⟨he, -⟩
    · have hne : (bytes.drop (512 * k)).take n ≠ [] := fun hc => by
        rw [hc] at hchunk
        simp only [List.length_nil] at hchunk
        omega
      rw [if_neg hne] at hsize₁
      have hV₁ : ∀ j o, G j = some o → (view g s₁.disk).ino j = V.ino j := fun j o hj => by
        rw [hedit.ino]
        exact hV j o hj
      have h₁ : Growing g G F i s₁ t₁ (k + 1) := by
        have := h.step hedit
        exact ⟨this.sane, this.inv, this.fits, fun o _ ho => by rw [hG] at ho; exact absurd ho (by simp)⟩
      have hsz : t₁.size = min (512 * (k + 1)) bytes.length := by omega
      have hb₁ : ∀ x (hx : x < bytes.length), x < 512 * (k + 1) →
          (view g s₁.disk).byteAt t₁ x = bytes[x] := by
        intro x hx hxk
        by_cases hxold : x < 512 * k
        · rw [View.byteAt, hedit.block (x / 512) (by omega)]
          exact hbyte x hx hxold
        · obtain ⟨y, rfl⟩ : ∃ y, x = 512 * k + y := ⟨x - 512 * k, by omega⟩
          have hy : y < ((bytes.drop (512 * k)).take n).length := by
            rw [hchunk]
            omega
          have := hw.byte y hy
          rwa [List.getElem_take, List.getElem_drop] at this
      have hc₁ : crc32Update c ((bytes.drop (512 * k)).take n)
          = crc32Update 0xFFFFFFFF (bytes.take (512 * (k + 1))) := by
        have htake : bytes.take (512 * (k + 1))
            = bytes.take (512 * k) ++ (bytes.drop (512 * k)).take n := by
          rw [← List.take_add]
          by_cases hle : 512 * (k + 1) ≤ bytes.length
          · rw [show 512 * k + n = 512 * (k + 1) by omega]
          · rw [List.take_of_length_le (by omega), List.take_of_length_le (by omega)]
        rw [hcrc, htake, crc32Update_append]
      obtain ⟨e, c', t', s', hs', hedit₂, hres₂⟩ := ih hV₁ (by omega) h₁ hsz hb₁ hc₁
      exact ⟨e, c', t', s', hs', hedit'.trans (hedit₂.mono fun x hx => by omega), hres₂⟩
    · rcases he with rfl | rfl
      · exact ⟨_, _, _, _, rfl, hedit', Or.inr (Or.inl rfl)⟩
      · exact ⟨_, _, _, _, rfl, hedit', Or.inr (Or.inr rfl)⟩

/-- **`mwfs_file_copy`**, from a source that reads the bytes of a file. -/
theorem fileCopyWith_spec (hs : Sane g s) (hok : GraphOk g G) (h : Rep g G (view g s.disk))
    (hd : G d = some (.dir slots)) (name : Name) (now : UInt32) {bytes : List UInt8} {si : Ino}
    (src : Ino → St → Nat → Nat → Option (List UInt8)) (hty : si.type = tFile)
    (hsize : si.size = bytes.length) (hroom : bytes.length ≤ 512 * maxSectors)
    (hsrc : Reads g G (view g s.disk) bytes (src si)) :
    ∃ r s' G', fileCopyWith (some si) src s d name now = (r, s') ∧ Done g G G' s s' ∧
      (Exact g G (view g s.disk) → Exact g G' (view g s'.disk)) ∧
      ((r = .ok ∧ nameOk name = true ∧ MadeFile g G d name bytes si.aux G') ∨
        (G' = G ∧ MakeRefused G d name r)) := by
  have hrefl : Done g G G s s := ⟨hs, h, .refl (Or.inl h)⟩
  unfold fileCopyWith
  by_cases hname : nameOk name = false
  · rw [if_pos hname]
    exact ⟨_, _, G, rfl, hrefl, id, Or.inr ⟨rfl, Or.inl ⟨rfl, hname⟩⟩⟩
  · rw [if_neg hname]
    rw [Bool.not_eq_false] at hname
    dsimp only
    rw [if_neg (not_not.mpr hty)]
    rcases fileMayMake_spec hs hok h hd name with ⟨hmm, hmay⟩ | ⟨hmm, hisdir⟩
    · rw [hmm, if_neg (by simp)]
      rcases inoAlloc_fresh hs h tFile (by decide)
          (fun t => { t with aux := si.aux, gen := now })
          (fun r => by unfold Ino.top; simp [Ino.zero]) { Ino.fits_empty (by decide) with }
        with hr | ⟨i, s₁, hr, hi2, hlt, hG, hino, hvia₁, hrep₁, hother, hgrow, hexb⟩
      · rw [hr]
        exact ⟨_, _, G, rfl, hrefl, id, Or.inr ⟨rfl, Or.inr (Or.inr (Or.inl rfl))⟩⟩
      · obtain ⟨n, rfl⟩ : ∃ n, i = n + 1 := ⟨i - 1, by omega⟩
        rw [hr]
        dsimp only
        rw [inoGet_eq hgrow.sane (by omega) hlt, hino]
        dsimp only
        have hV : ∀ j o, G j = some o → (view g s₁.disk).ino j = (view g s.disk).ino j :=
          fun j o hj => hother j fun hc => by rw [hc, hG] at hj; exact absurd hj (by simp)
        obtain ⟨e, crc, t₂, s₂, hs₂, hedit, hres⟩ := copyFrom_spec (m := (bytes.length + 511) / 512)
          (k := 0) (c := 0xFFFFFFFF) hG hsrc hV (Nat.zero_add _) hgrow
          (by rw [Nat.mul_zero, Nat.zero_min]; rfl) (fun x _ hx => absurd hx (by omega)) rfl
        rw [hsize, List.range_eq_range', hs₂]
        have hfile : e = .ok → FileRep (view g s₂.disk) { t₂ with crc := ~~~ crc } bytes si.aux := by
          rintro rfl
          rcases hres with ⟨-, hsz, hcrc, hbyte⟩ | he | he
          · refine ⟨hedit.type, hsz, hroom, ?_, hedit.aux, hbyte⟩
            show ~~~ crc = crc32 bytes
            rw [hcrc]
            rfl
          · exact absurd he (by simp)
          · exact absurd he (by simp)
        obtain ⟨r, s', G', hs', hdone, hex, hres'⟩ :=
          install_fresh hok hG hi2 hlt hvia₁ hexb hedit hd hname hmay e hfile
        refine ⟨r, s', G', hs', hdone, hex, ?_⟩
        rcases hres' with ⟨rfl, -, hmade⟩ | ⟨rfl, hne, hwhy⟩
        · exact Or.inl ⟨rfl, hname, hmade⟩
        · refine Or.inr ⟨rfl, Or.inr (Or.inr ?_)⟩
          rcases hwhy with rfl | hwhy
          · rcases hres with ⟨rfl, -⟩ | he
            · exact absurd rfl hne
            · exact he
          · exact hwhy
    · rw [hmm, if_pos (by simp)]
      exact ⟨_, _, G, rfl, hrefl, id, Or.inr ⟨rfl, Or.inr (Or.inl ⟨rfl, hname, hisdir⟩)⟩⟩

/-- A file of the graph reads as its bytes. -/
theorem fileRep_pread {V : View} {si : Ino} {bytes : List UInt8} {aux : UInt32} (hs : Sane g s)
    (hV : view g s.disk = V) (hf : FileRep V si bytes aux)
    (hd : ∀ p, V.ref si.top p ≠ 0 → g.Data (V.ref si.top p)) {off n : Nat}
    (hn : off + n ≤ bytes.length) : pread s si off n = some ((bytes.drop off).take n) := by
  subst hV
  rw [pread_spec hs hd (by rw [hf.size]; exact hf.room), hf.size,
    Nat.min_eq_left (by omega), hf.bytes_eq hn]

/-- The source of a copy inside the volume. -/
theorem reads_self {j : Nat} {bytes : List UInt8} {aux : UInt32}
    (hj : G j = some (.file bytes aux)) :
    Reads g G (view g s.disk) bytes fun s' off n => pread s' ((view g s.disk).ino j) off n := by
  intro s' hs' hrep' hino off n hn
  have hsame := hino j _ hj
  have hf := hrep'.fileRep hj
  rw [hsame] at hf
  refine fileRep_pread hs' rfl hf (fun p hp => ?_) hn
  have := hrep'.data hj p
  rw [hsame] at this
  exact this hp

end Make

end Mwfs
