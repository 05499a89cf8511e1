import MiniWin.Mwfs.DirSpec

/-!
# Changing a directory, and releasing an inode

The writers of a directory take the graph `G` a volume holds to a graph in which
one directory has lost an entry, gained one, or both (`Swap`). Each does so in one
write, so a power cut finds the one graph or the other.
-/

namespace Mwfs

open Place

/-- The directory `d` loses the entry `old` and gains the entry `new`; nothing
else in the graph changes. -/
def Swap (G G' : Graph) (d : Nat) (old new : Option Dent) : Prop :=
  ∃ slots slots' rest, G d = some (.dir slots) ∧ G' = Function.update G d (some (.dir slots')) ∧
    (ents slots).Perm (old.toList ++ rest) ∧ (ents slots').Perm (new.toList ++ rest)

/-- Nothing is marked that the graph does not own. -/
def Trim (g : Geo) (G : Graph) (V : View) : Prop := Tight g (diskForest G V) V

section Reading

variable {g : Geo} {G : Graph} {s : St}

/-- The pointers of an object of the graph lead to the data area. -/
theorem Rep.data (h : Rep g G (view g s.disk)) {j : Nat} {o : Obj} (hj : G j = some o)
    (p : Place Nat) (h0 : (view g s.disk).ref ((view g s.disk).ino j).top p ≠ 0) :
    g.Data ((view g s.disk).ref ((view g s.disk).ino j).top p) :=
  Inv.data h _ (Inv.owns_ino h hj h0)

theorem Rep.objRep {V : View} (h : Rep g G V) {j : Nat} {o : Obj} (hj : G j = some o) :
    ObjRep V (V.ino j) o := by
  obtain ⟨-, -, -, ho⟩ := Inv.obj h j o hj
  exact ho

theorem Rep.dirRep {V : View} (h : Rep g G V) {d : Nat} {slots : List (Option Dent)}
    (hd : G d = some (.dir slots)) : DirRep V (V.ino d) slots :=
  h.objRep hd

theorem Rep.fileRep {V : View} (h : Rep g G V) {j : Nat} {bytes : List UInt8} {aux : UInt32}
    (hj : G j = some (.file bytes aux)) : FileRep V (V.ino j) bytes aux :=
  h.objRep hj

variable (hs : Sane g s) (h : Rep g G (view g s.disk)) {d : Nat} {slots : List (Option Dent)}
  (hd : G d = some (.dir slots)) (hd0 : d ≠ 0) (hdlt : d < g.inode_count)

include hs h hd

theorem Rep.loads : Loads s (view g s.disk) ((view g s.disk).ino d)
    (dirSectors ((view g s.disk).ino d)) :=
  (h.dirRep hd).loads hs (h.data hd)

include hd0 hdlt

theorem dirNth_spec (idx : Nat) : dirNth s d idx = some ((ents slots)[idx]?) := by
  unfold dirNth
  rw [inoGet_eq hs hd0 hdlt]
  dsimp only
  rw [if_neg (not_not.mpr (h.dirRep hd).type), dirNthFrom_spec (h.loads hs hd),
    ← (h.dirRep hd).slots_eq]

theorem dirIsEmpty_spec : dirIsEmpty s d = true ↔ ents slots = [] := by
  unfold dirIsEmpty
  rw [dirNth_spec hs h hd hd0 hdlt]
  cases ents slots <;> simp

theorem dirFind_spec (name : Name) :
    (dirFind s d name = .error .noent ∧ ∀ e ∈ ents slots, fold e.name ≠ fold name) ∨
      ∃ k e dent, EntryAt (view g s.disk) ((view g s.disk).ino d)
          (dirSectors ((view g s.disk).ino d)) k e dent ∧ fold dent.name = fold name ∧
        dirFind s d name
          = .ok ⟨dent.ino, dent.type, (view g s.disk).cell ((view g s.disk).ino d) k, e⟩ := by
  unfold dirFind
  rw [inoGet_eq hs hd0 hdlt]
  dsimp only
  rw [if_neg (not_not.mpr (h.dirRep hd).type)]
  have hfind := dirFindFrom_spec (h.loads hs hd) name
  rwa [← (h.dirRep hd).slots_eq] at hfind

omit hs h hd hd0 hdlt in
/-- An entry at a place of the directory is one of its entries. -/
theorem EntryAt.getElem {V : View} {t : Ino} {slots : List (Option Dent)} (hr : DirRep V t slots)
    {k e : Nat} {o : Option Dent} (hk : k ∈ dirSectors t) (he : e < 8)
    (hslot : dentSlot (V.block t k) e = o) : slots[8 * k + e]? = some o := by
  have hlt : 8 * k + e < slots.length := by
    obtain ⟨m, hm⟩ := hr.dvd
    have := hr.mem_sectors hk
    omega
  have h1 : (8 * k + e) / 8 = k := by omega
  have h2 : (8 * k + e) % 8 = e := by omega
  rw [List.getElem?_eq_getElem hlt, hr.slot _ hlt, h1, h2, hslot]

theorem dirLookup_spec (name : Name) :
    (dirLookup s d name = .error .noent ∧ ∀ e ∈ ents slots, fold e.name ≠ fold name) ∨
      ∃ dent ∈ ents slots, fold dent.name = fold name ∧
        dirLookup s d name = .ok (dent.ino, dent.type) := by
  unfold dirLookup
  rcases dirFind_spec hs h hd hd0 hdlt name with ⟨hr, hno⟩ | ⟨k, e, dent, hat, hname, hr⟩
  · rw [hr]
    exact Or.inl ⟨rfl, hno⟩
  · rw [hr]
    have hget := EntryAt.getElem (h.dirRep hd) hat.mem hat.lt hat.slot
    exact Or.inr ⟨dent, mem_ents.mpr (List.mem_of_getElem? hget), hname, rfl⟩

end Reading

/-! ## One slot rewritten -/

section Writing

variable {g : Geo} {G : Graph} {s : St} {d : Nat} {slots : List (Option Dent)}

theorem diskForest_eq {G G' : Graph} {V V' : View} (hdom : ∀ j, G j = none ↔ G' j = none)
    (hino : ∀ j o, G j = some o → V'.ino j = V.ino j) : diskForest G' V' = diskForest G V := by
  funext j
  unfold diskForest
  cases hj : G j with
  | none =>
    rw [(hdom j).mp hj]
    rfl
  | some o =>
    cases hj' : G' j with
    | none => rw [(hdom j).mpr hj'] at hj; exact absurd hj (by simp)
    | some o' =>
      rw [hino j o hj]
      rfl

theorem update_dom {G : Graph} {d : Nat} {o p : Obj} (hd : G d = some o) (j : Nat) :
    G j = none ↔ Function.update G d (some p) j = none := by
  by_cases hj : j = d
  · subst hj
    simp [hd]
  · rw [Function.update_of_ne hj]

/-- What a step that may change the graph leaves. -/
structure Stepped (g : Geo) (G G' : Graph) (s s' : St) : Prop where
  sane : Sane g s'
  rep : Rep g G' (view g s'.disk)
  via : Via g (fun V => Rep g G V ∨ Rep g G' V) s s'
  lean : Trim g G (view g s.disk) → Trim g G' (view g s'.disk)

/-- The inodes and the bits are as they were, every owner leads to the sectors it led
to, and a sector nobody owns holds what it held. -/
structure Kept (F : Forest) (V V' : View) : Prop where
  ino : V'.ino = V.ino
  bit : V'.bit = V.bit
  sec : ∀ l, ¬ Owns V F l → V'.sec l = V.sec l
  owns : ∀ l, Owns V' F l ↔ Owns V F l

theorem Kept.refl (F : Forest) (V : View) : Kept F V V :=
  ⟨rfl, rfl, fun _ _ => rfl, fun _ => Iff.rfl⟩

theorem Kept.trans {F : Forest} {V V' V'' : View} (h : Kept F V V') (h' : Kept F V' V'') :
    Kept F V V'' where
  ino := h'.ino.trans h.ino
  bit := h'.bit.trans h.bit
  sec l hl := (h'.sec l fun hc => hl ((h.owns l).mp hc)).trans (h.sec l hl)
  owns l := (h'.owns l).trans (h.owns l)

theorem Stepped.refl (hs : Sane g s) (h : Rep g G (view g s.disk)) : Stepped g G G s s :=
  ⟨hs, h, .refl (Or.inl h), id⟩

/-- **One slot of a directory rewritten**, in place. -/
theorem dirEdit_spec (hs : Sane g s) (h : Rep g G (view g s.disk)) (hd : G d = some (.dir slots))
    {k e : Nat} {old new : Option Dent} (hk : k ∈ dirSectors ((view g s.disk).ino d)) (he : e < 8)
    (hold : dentSlot ((view g s.disk).block ((view g s.disk).ino d) k) e = old) (f : Block → Block)
    (hf : ∀ e', dentSlot (f ((view g s.disk).block ((view g s.disk).ino d) k)) e'
      = if e' = e then new else dentSlot ((view g s.disk).block ((view g s.disk).ino d) k) e') :
    ∃ s' G', dirEdit s ((view g s.disk).cell ((view g s.disk).ino d) k) f = (.ok, s') ∧
      wr s ((view g s.disk).cell ((view g s.disk).ino d) k)
        (f ((view g s.disk).block ((view g s.disk).ino d) k)) = (true, s') ∧
      Swap G G' d old new ∧ Stepped g G G' s s' ∧
      Kept (diskForest G (view g s.disk)) (view g s.disk) (view g s'.disk) ∧
      slots[8 * k + e]? = some old ∧
      G' = Function.update G d (some (.dir (slots.set (8 * k + e) new))) := by
  set V := view g s.disk with hV
  set t := V.ino d with ht
  have hr : DirRep V t slots := h.dirRep hd
  have hk0 := hr.cell k (hr.mem_sectors hk)
  have hdata : g.Data (V.cell t k) := h.data hd (datPos k) hk0
  have hblock : V.block t k = V.sec (V.cell t k) := if_neg hk0
  have hF : diskForest G V d = some t.top := diskForest_some.mpr ⟨⟨_, hd⟩, rfl⟩
  obtain ⟨s', hs', hw⟩ := wr_data hs hdata.le hdata.lt (f (V.block t k))
  have hget : slots[8 * k + e]? = some old := EntryAt.getElem hr hk he hold
  obtain ⟨rest, hperm, hperm'⟩ := ents_set hget
  refine ⟨s', Function.update G d (some (.dir (slots.set (8 * k + e) new))), ?_, hs',
    ⟨_, _, rest, hd, rfl, hperm, hperm' new⟩, ?_, ?_, hget, rfl⟩
  · unfold dirEdit
    rw [rd_data hs hdata.le hdata.lt]
    dsimp only
    rw [← hV, ← hblock, hs']
  · have hcell : ∀ n, (V.setSec (V.cell t k) (f (V.block t k))).cell t n = V.cell t n := fun n =>
      Inv.ref_write_leaf h hF (isTab_datPos k) _ hF (fun r => Or.inr rfl) _
    have hblk := fun n => Inv.block_write_leaf h hF hk0 (f (V.block t k)) n
    have hrep' : DirRep (V.setSec (V.cell t k) (f (V.block t k))) t
        (slots.set (8 * k + e) new) := by
      refine ⟨hr.type, by rw [List.length_set]; exact hr.size, by rw [List.length_set]; exact hr.dvd,
        ?_, ?_⟩
      · intro n hn
        rw [List.length_set] at hn
        rw [hcell n]
        exact hr.cell n hn
      · intro x hx
        have hx' : x < slots.length := by rwa [List.length_set] at hx
        rw [List.getElem_set, hblk]
        by_cases hxk : x / 8 = k
        · subst hxk
          rw [if_pos rfl, hf]
          by_cases hxe : x % 8 = e
          · rw [if_pos hxe, if_pos (by omega)]
          · rw [if_neg hxe, if_neg (by omega)]
            exact hr.slot x hx'
        · rw [if_neg hxk, if_neg (by omega)]
          exact hr.slot x hx'
    have hdom := update_dom (p := .dir (slots.set (8 * k + e) new)) hd
    have hforest : diskForest (Function.update G d (some (.dir (slots.set (8 * k + e) new))))
        (V.setSec (V.cell t k) (f (V.block t k))) = diskForest G V :=
      diskForest_eq hdom fun _ _ _ => rfl
    have hinv : Rep g (Function.update G d (some (.dir (slots.set (8 * k + e) new))))
        (V.setSec (V.cell t k) (f (V.block t k))) := by
      unfold Rep
      rw [hforest]
      refine Inv.write_leaf h hF (isTab_datPos k) _ (fun j hj => Function.update_of_ne hj _ _) ?_
      intro o ho
      rw [Function.update_self, Option.some.injEq] at ho
      subst ho
      exact ⟨fun r => Or.inr rfl, hrep'⟩
    refine ⟨hw.sane, by rw [hw.eq]; exact hinv, hw.via (Or.inl h) (Or.inr hinv), fun hl => ?_⟩
    intro m hm hbit
    rw [hw.eq] at hbit ⊢
    rw [hforest]
    exact (Inv.owns_write_leaf h hF (isTab_datPos k) _ m).mpr (hl m hm hbit)
  · rw [hw.eq]
    refine ⟨rfl, rfl, fun l hl => ?_, Inv.owns_write_leaf h hF (isTab_datPos k) _⟩
    exact Function.update_of_ne (fun hc => hl (by rw [hc]; exact owns_ref hF hk0)) _ _

variable (hs : Sane g s) (h : Rep g G (view g s.disk)) (hd : G d = some (.dir slots)) (hd0 : d ≠ 0)
  (hdlt : d < g.inode_count)

include hs h hd hd0 hdlt

/-- **Removing a name**: its slot is free afterwards, and every other slot is as it
was. -/
theorem dirRemove_at (name : Name) :
    (dirRemove s d name = (.noent, s) ∧ ∀ e ∈ ents slots, fold e.name ≠ fold name) ∨
      ∃ dent x s', slots[x]? = some (some dent) ∧ fold dent.name = fold name ∧
        dirRemove s d name = (.ok, s') ∧
        Swap G (Function.update G d (some (.dir (slots.set x none)))) d (some dent) none ∧
        Stepped g G (Function.update G d (some (.dir (slots.set x none)))) s s' ∧
        Kept (diskForest G (view g s.disk)) (view g s.disk) (view g s'.disk) := by
  unfold dirRemove
  rcases dirFind_spec hs h hd hd0 hdlt name with ⟨hr, hno⟩ | ⟨k, e, dent, hat, hname, hr⟩
  · rw [hr]
    exact Or.inl ⟨rfl, hno⟩
  · rw [hr]
    obtain ⟨s', G', hs', -, hswap, hstep, hkept, hget, rfl⟩ := dirEdit_spec hs h hd hat.mem hat.lt
      hat.slot (fun b => dentClear b e) fun e' => dentSlot_clear _ e e'
    exact Or.inr ⟨dent, 8 * k + e, s', hget, hname, hs', hswap, hstep, hkept⟩

theorem dirRemove_spec (name : Name) :
    (dirRemove s d name = (.noent, s) ∧ ∀ e ∈ ents slots, fold e.name ≠ fold name) ∨
      ∃ dent ∈ ents slots, fold dent.name = fold name ∧ ∃ s' G', dirRemove s d name = (.ok, s') ∧
        Swap G G' d (some dent) none ∧ Stepped g G G' s s' ∧
        (view g s'.disk).ino = (view g s.disk).ino := by
  rcases dirRemove_at hs h hd hd0 hdlt name with hr | ⟨dent, x, s', hget, hname, hs', hswap, hstep,
    hkept⟩
  · exact Or.inl hr
  · exact Or.inr ⟨dent, mem_ents.mpr (List.mem_of_getElem? hget), hname, s', _, hs', hswap, hstep,
      hkept.ino⟩

/-- **Retargeting a name.** -/
theorem dirRetarget_spec {ino : Nat} (hi0 : ino ≠ 0) (hi : ino < 4294967296) (name : Name) :
    (dirRetarget s d name ino = (.noent, s) ∧ ∀ e ∈ ents slots, fold e.name ≠ fold name) ∨
      ∃ dent ∈ ents slots, fold dent.name = fold name ∧ ∃ s' G',
        dirRetarget s d name ino = (.ok, s') ∧
        Swap G G' d (some dent) (some { dent with ino := ino }) ∧ Stepped g G G' s s' ∧
        (view g s'.disk).ino = (view g s.disk).ino := by
  unfold dirRetarget
  rcases dirFind_spec hs h hd hd0 hdlt name with ⟨hr, hno⟩ | ⟨k, e, dent, hat, hname, hr⟩
  · rw [hr]
    exact Or.inl ⟨rfl, hno⟩
  · rw [hr]
    obtain ⟨s', G', hs', -, hswap, hstep, hkept, hget, -⟩ := dirEdit_spec hs h hd hat.mem hat.lt
      hat.slot (fun b => b.put32 (e * dentSize) ino) fun e' =>
        dentSlot_retarget hi0 hi _ e e' hat.slot
    exact Or.inr ⟨dent, mem_ents.mpr (List.mem_of_getElem? hget), hname, s', G', hs', hswap, hstep,
      hkept.ino⟩

/-- The directory grown by one sector, in memory, is one once it is stored. -/
theorem dirGrow_spec {i type : Nat} {name : Name} (hi0 : i ≠ 0) (hi : i < 4294967296)
    (hty : type < 256) (hname : nameOk name = true) :
    ∃ e d' s₁ s' G', pwrite s ((view g s.disk).ino d) ((view g s.disk).ino d).size
        ((dentFill Block.zero 0 i type name).slice 0 512) = (e, d', s₁) ∧
      inoPut s₁ d d' = (true, s') ∧ Stepped g G G' s s' ∧
      (∀ j, j ≠ d → (view g s'.disk).ino j = (view g s.disk).ino j) ∧
      ((e = .ok ∧ Swap G G' d none (some ⟨i, type, name⟩)) ∨
        ((e = .full ∨ e = .toobig) ∧ G' = G)) := by
  set V := view g s.disk with hV
  set t := V.ino d with ht
  obtain ⟨data, hdata, hlen, hbyte⟩ : ∃ data, (dentFill Block.zero 0 i type name).slice 0 512 = data
      ∧ data.length = 512 ∧ ∀ x (hx : x < data.length), data[x] = dentFill Block.zero 0 i type name x :=
    ⟨_, rfl, Block.length_slice _ _ _, fun x hx => by rw [Block.getElem_slice, Nat.zero_add]⟩
  have hr : DirRep V t slots := h.dirRep hd
  obtain ⟨m, hm⟩ := hr.dvd
  have hsz := hr.size
  have hF : diskForest G V d = some t.top := diskForest_some.mpr ⟨⟨_, hd⟩, rfl⟩
  have hput : (diskForest G V).put d t = diskForest G V := by
    unfold Forest.put
    rw [← hF]
    exact Function.update_eq_self d _
  have hne : data ≠ [] := fun hc => by rw [hc] at hlen; exact absurd hlen (by simp)
  have hgrow : Growing g G (diskForest G V) d s t (t.size / 512) := by
    refine ⟨hs, by rw [hput]; exact h, fits_view g _ d, fun o n _ hn => ?_⟩
    have hn' : 512 * n < t.size := hn
    omega
  rw [hdata]
  obtain ⟨e, d', s₁, hs₁, hedit, hres⟩ :=
    pwrite_spec hgrow data (Or.inl (by omega)) (Or.inl (Nat.le_refl _))
  obtain ⟨s', hs', hw⟩ := inoPut_eq hedit.sane hd0 hdlt hedit.fits
  -- the old slots are where they were
  have hcell : ∀ k, 8 * k < slots.length → (view g s₁.disk).cell d' k ≠ 0 := by
    intro k hk
    have h0 := hr.cell k hk
    rw [hedit.cell k h0]
    exact h0
  have hslot : ∀ x (hx : x < slots.length),
      slots[x] = dentSlot ((view g s₁.disk).block d' (x / 8)) (x % 8) := by
    intro x hx
    rw [hedit.block (x / 8) (by omega)]
    exact hr.slot x hx
  have hino : (view g s₁.disk).ino = V.ino := hedit.ino
  -- whatever the directory has become, it is one once its inode is stored
  have hstore : ∀ slots', DirRep (view g s₁.disk) d' slots' →
      Stepped g G (Function.update G d (some (.dir slots'))) s s' := by
    intro slots' hr'
    have hcommit := hedit.inv.commit (o := .dir slots') (Forest.put_self _ d d') hr'
    have hrep := hcommit.rep
    have hforest : diskForest (Function.update G d (some (.dir slots')))
        ((view g s₁.disk).setIno d d') = (diskForest G V).put d d' := by
      funext j
      by_cases hj : j = d
      · subst hj
        rw [Forest.put_self]
        refine diskForest_some.mpr ⟨⟨_, Function.update_self ..⟩, ?_⟩
        rw [View.setIno_ino, Function.update_self]
      · unfold Forest.put
        rw [Function.update_of_ne hj]
        unfold diskForest
        rw [Function.update_of_ne hj, View.setIno_ino, Function.update_of_ne hj, hino]
    refine ⟨hw.sane, by rw [hw.eq]; exact hrep, ?_, fun hl => ?_⟩
    · refine (hedit.via.mono fun V hV => Or.inl hV).trans (hw.via (Or.inl hedit.inv.rep) ?_)
      exact Or.inr hrep
    · unfold Trim
      rw [hw.eq, hforest]
      exact hedit.tight (by rw [hput]; exact hl)
  refine ⟨e, d', s₁, s', ?_⟩
  rcases hres with ⟨rfl, hwr, hsize⟩ | ⟨he, hsize⟩
  · -- the new sector holds the new entry and seven free ones
    rw [if_neg hne, hlen] at hsize
    have hnew : ∀ e', e' < 8 → dentSlot ((view g s₁.disk).block d' m) e'
        = if e' = 0 then some ⟨i, type, name⟩ else none := by
      intro e' he'
      rw [← dentSlot_zero e', ← dentSlot_fill hi0 hi hty hname Block.zero 0 e']
      refine dentSlot_congr fun x hx => ?_
      have hx512 : x < data.length := by
        simp only [dentSize] at hx
        rw [hlen]
        omega
      have hb := hwr.byte x hx512
      have h1 : (t.size + x) / 512 = m := by omega
      have h2 : (t.size + x) % 512 = x := by omega
      rw [View.byteAt, h1, h2] at hb
      exact hb.trans (hbyte x hx512)
    have hr' : DirRep (view g s₁.disk) d'
        (slots ++ (some ⟨i, type, name⟩ :: List.replicate 7 none)) := by
      refine ⟨hedit.type.trans hr.type, ?_, ?_, fun k hk => ?_, fun x hx => ?_⟩
      · rw [hsize, List.length_append, List.length_cons, List.length_replicate, hsz]
        omega
      · rw [List.length_append, List.length_cons, List.length_replicate, hm]
        exact ⟨m + 1, by omega⟩
      · rw [List.length_append, List.length_cons, List.length_replicate] at hk
        by_cases hkm : 8 * k < slots.length
        · exact hcell k hkm
        · exact hwr.cell k (by omega) (by omega)
      · rw [List.length_append, List.length_cons, List.length_replicate] at hx
        by_cases hxm : x < slots.length
        · rw [List.getElem_append_left hxm]
          exact hslot x hxm
        · have h1 : x / 8 = m := by omega
          rw [List.getElem_append_right (by omega), h1, hnew (x % 8) (by omega)]
          by_cases hx0 : x = slots.length
          · subst hx0
            simp only [Nat.sub_self, List.getElem_cons_zero]
            rw [if_pos (by omega)]
          · rw [if_neg (by omega), List.getElem_cons, dif_neg (by omega), List.getElem_replicate]
    refine ⟨_, hs₁, hs', hstore _ hr', fun j hj => ?_, Or.inl ⟨rfl, slots, _, ents slots, hd, rfl,
      .refl _, ?_⟩⟩
    · rw [hw.eq, View.setIno_ino, Function.update_of_ne hj, hino]
    · rw [ents_append]
      exact List.perm_append_comm
  · -- nothing was written that the directory shows
    have hr' : DirRep (view g s₁.disk) d' slots :=
      ⟨hedit.type.trans hr.type, by rw [hsize (by rw [hlen])]; exact hsz, hr.dvd, hcell, hslot⟩
    have hstep := hstore slots hr'
    rw [← hd, Function.update_eq_self] at hstep
    refine ⟨G, hs₁, hs', hstep, fun j hj => ?_, Or.inr ⟨he, rfl⟩⟩
    rw [hw.eq, View.setIno_ino, Function.update_of_ne hj, hino]

/-- **Entering a new name.** It is in the directory afterwards, or there was a
reason and the graph is as it was. -/
theorem dirAdd_spec {i type : Nat} (hi0 : i ≠ 0) (hi : i < 4294967296) (hty : type < 256)
    (name : Name) :
    ∃ r s' G', dirAdd s d name i type = (r, s') ∧ Stepped g G G' s s' ∧
      (∀ j, j ≠ d → (view g s'.disk).ino j = (view g s.disk).ino j) ∧
      ((r = .ok ∧ nameOk name = true ∧ (∀ e ∈ ents slots, fold e.name ≠ fold name) ∧
          Swap G G' d none (some ⟨i, type, name⟩)) ∨
        (G' = G ∧ ((r = .name ∧ nameOk name = false) ∨
          (r = .exist ∧ ∃ e ∈ ents slots, fold e.name = fold name) ∨ r = .full ∨ r = .toobig))) := by
  have hrefl := Stepped.refl hs h
  unfold dirAdd
  by_cases hname : nameOk name = false
  · rw [if_pos hname]
    exact ⟨_, _, G, rfl, hrefl, fun _ _ => rfl, Or.inr ⟨rfl, Or.inl ⟨rfl, hname⟩⟩⟩
  · rw [if_neg hname, inoGet_eq hs hd0 hdlt]
    rw [Bool.not_eq_false] at hname
    dsimp only
    rw [if_neg (not_not.mpr (h.dirRep hd).type)]
    rcases dirFind_spec hs h hd hd0 hdlt name with ⟨hr, hno⟩ | ⟨k, e, dent, hat, hn, hr⟩
    · rw [hr]
      rcases dirFreeFrom_spec (h.loads hs hd) with hfree | ⟨k, e, hk, he, hslot, hfree⟩
      · rw [hfree]
        obtain ⟨e, d', s₁, s', G', hs₁, hs', hstep, hino, hres⟩ :=
          dirGrow_spec hs h hd hd0 hdlt hi0 hi hty hname
        rw [hs₁]
        rw [hs']
        refine ⟨e, s', G', rfl, hstep, hino, hres.imp ?_ ?_⟩
        · exact fun hr => ⟨hr.1, hname, hno, hr.2⟩
        · exact fun hr => ⟨hr.2, Or.inr (Or.inr hr.1)⟩
      · obtain ⟨s', G', -, hwr, hswap, hstep, hkept, -⟩ := dirEdit_spec hs h hd hk he hslot
          (fun b => dentFill b e i type name) fun e' => dentSlot_fill hi0 hi hty hname _ e e'
        rw [hfree]
        dsimp only
        rw [hwr]
        exact ⟨_, s', G', rfl, hstep, fun j _ => by rw [hkept.ino],
          Or.inl ⟨rfl, hname, hno, hswap⟩⟩
    · rw [hr]
      have hget := EntryAt.getElem (h.dirRep hd) hat.mem hat.lt hat.slot
      exact ⟨_, _, G, rfl, hrefl, fun _ _ => rfl, Or.inr ⟨rfl, Or.inr (Or.inl ⟨rfl, dent,
        mem_ents.mpr (List.mem_of_getElem? hget), hn⟩)⟩⟩

end Writing

/-! ## Releasing an inode -/

section Release

variable {g : Geo} {G : Graph} {F : Forest} {s : St} {i : Nat}

/-- The forest without inode `i`. -/
def Forest.drop (F : Forest) (i : Nat) : Forest := Function.update F i none

theorem Forest.drop_eq_some {u : Nat → Nat} {j : Nat} :
    F.drop i j = some u ↔ j ≠ i ∧ F j = some u := by
  unfold Forest.drop
  by_cases hj : j = i
  · subst hj
    simp
  · rw [Function.update_of_ne hj]
    simp [hj]

theorem Inv.drop {V : View} (h : Inv g G F V) (hG : G i = none) : Inv g G (F.drop i) V := by
  refine h.mono (fun _ _ hj => hj) (fun j u hj => ?_) fun j o hj => ?_
  · exact ⟨u, (Forest.drop_eq_some.mp hj).2, fun r => Or.inr rfl⟩
  · obtain ⟨u, hu, hsub, -⟩ := h.obj j o hj
    refine ⟨u, Forest.drop_eq_some.mpr ⟨fun hji => ?_, hu⟩, hsub⟩
    rw [hji, hG] at hj
    exact absurd hj (by simp)

/-- **Releasing an inode** the graph does not have: its sectors are given back,
and it is free. -/
theorem inoRelease_spec (hs : Sane g s) (h : Inv g G F (view g s.disk)) (hG : G i = none)
    (hi : F i = some ((view g s.disk).ino i).top) (hi0 : i ≠ 0) (hlt : i < g.inode_count) :
    Sane g (inoRelease s i) ∧ Inv g G (F.drop i) (view g (inoRelease s i).disk) ∧
      Via g (Rep g G) s (inoRelease s i) ∧
      (view g (inoRelease s i).disk).ino = Function.update (view g s.disk).ino i Ino.zero ∧
      (Tight g F (view g s.disk) → Tight g (F.drop i) (view g (inoRelease s i).disk)) := by
  set V := view g s.disk with hV
  have hdrop := h.drop hG
  have hhas : ∀ l, V.Has (V.ino i) l → Owns V F l := fun l hl =>
    ⟨hl.1, i, _, hl.2.choose, hi, hl.2.choose_spec⟩
  have hfree : ∀ l, V.Has (V.ino i) l → ¬ Owns V (F.drop i) l := by
    rintro l ⟨hl0, p, hp⟩ ⟨-, j, u, q, hj, hq⟩
    obtain ⟨hji, hj'⟩ := Forest.drop_eq_some.mp hj
    exact hji (h.ref_inj hj' hi (hq.trans hp.symm) (by rw [View.ref, hq]; exact hl0)).1
  have hc := freeBlocks_spec hs (t := V.ino i) fun l hl => h.data l (hhas l hl)
  have hvia := hc.via (fun W => Inv g G (F.drop i) W ∧ W.sec = V.sec) ⟨hdrop, rfl⟩ fun W l hW hl => by
    refine ⟨hW.1.setBit_off ⟨(h.data l (hhas l hl)).le, (h.data l (hhas l hl)).lt⟩ fun hown => ?_,
      hW.2⟩
    exact hfree l hl ((owns_iff_of_sec (fun m _ => by rw [hW.2]) l).mp hown)
  obtain ⟨s', hs', hw⟩ := inoPut_eq hc.sane hi0 hlt Ino.fits_zero
  have heq : inoRelease s i = s' := by
    unfold inoRelease
    rw [inoGet_eq hs hi0 hlt]
    dsimp only
    rw [← hV, hs']
  have hinv := hvia.last.1.setIno hG Ino.zero
  rw [heq]
  refine ⟨hw.sane, by rw [hw.eq]; exact hinv, ?_, ?_, fun ht m hm hbit => ?_⟩
  · exact (hvia.mono fun W hW => hW.1.rep).trans (hw.via hvia.last.1.rep hinv.rep)
  · rw [hw.eq, View.setIno_ino, hc.ino]
  · rw [hw.eq] at hbit ⊢
    have hnot : ¬ V.Has (V.ino i) m := fun hc' => by
      have hgone := hc.gone m hc'
      rw [View.setIno_bit, hgone] at hbit
      exact absurd hbit (by simp)
    have hbit' : V.bit m = true := (hc.kept m hnot).symm.trans hbit
    obtain ⟨hm0, j, u, p, hj, hp⟩ := ht m hm hbit'
    refine (owns_iff_of_sec (fun l _ => ?_) m).mpr ⟨hm0, j, u, p, Forest.drop_eq_some.mpr ⟨?_, hj⟩, hp⟩
    · rw [View.setIno_sec, hc.sec]
    · rintro rfl
      obtain rfl := Option.some.inj (hi.symm.trans hj)
      exact hnot ⟨hm0, p, hp⟩

/-- The graph without object `i`. -/
def Graph.drop (G : Graph) (i : Nat) : Graph := Function.update G i none

theorem Graph.drop_sub (G : Graph) (i : Nat) : (G.drop i).Sub G := by
  intro j o hj
  unfold Graph.drop at hj
  by_cases hji : j = i
  · subst hji
    rw [Function.update_self] at hj
    exact absurd hj (by simp)
  · rwa [Function.update_of_ne hji] at hj

/-- **Releasing an object of the graph.** -/
theorem Rep.release (hs : Sane g s) (h : Rep g G (view g s.disk)) {o : Obj} (hi : G i = some o)
    (hi0 : i ≠ 0) (hlt : i < g.inode_count) :
    Sane g (inoRelease s i) ∧ Rep g (G.drop i) (view g (inoRelease s i).disk) ∧
      Via g (Rep g (G.drop i)) s (inoRelease s i) ∧
      (view g (inoRelease s i).disk).ino = Function.update (view g s.disk).ino i Ino.zero ∧
      (Trim g G (view g s.disk) → Trim g (G.drop i) (view g (inoRelease s i).disk)) := by
  have hF : diskForest G (view g s.disk) i = some ((view g s.disk).ino i).top :=
    diskForest_some.mpr ⟨⟨o, hi⟩, rfl⟩
  have hinv : Inv g (G.drop i) (diskForest G (view g s.disk)) (view g s.disk) := by
    refine Inv.mono h (G.drop_sub i) (fun j u hj => ⟨u, hj, fun r => Or.inr rfl⟩) fun j o hj => ?_
    exact ⟨_, diskForest_some.mpr ⟨⟨o, G.drop_sub i j o hj⟩, rfl⟩, fun r => Or.inr rfl⟩
  obtain ⟨hsane, hinv', hvia, hino, htight⟩ :=
    inoRelease_spec hs hinv (Function.update_self ..) hF hi0 hlt
  have hforest : (diskForest G (view g s.disk)).drop i
      = diskForest (G.drop i) (view g (inoRelease s i).disk) := by
    funext j
    unfold Forest.drop Graph.drop diskForest
    by_cases hj : j = i
    · subst hj
      rw [Function.update_self, Function.update_self]
      rfl
    · rw [Function.update_of_ne hj, Function.update_of_ne hj, hino, Function.update_of_ne hj]
  rw [hforest] at htight
  exact ⟨hsane, hinv'.rep, hvia, hino, htight⟩

end Release

end Mwfs
