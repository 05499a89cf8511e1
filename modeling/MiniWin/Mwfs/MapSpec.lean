import MiniWin.Mwfs.AllocSpec

/-!
# The block map

`bmap` reads the pointer to a sector of a file, or makes one. What it makes it
makes bottom up: a sector is taken, cleared if it is to be a table, and only then
linked. `Fresh` is the state between the two, and `Edit` what a run of such steps
amounts to for the inode `i` in memory: the invariant is kept, every volume on
the way holds the graph, and only the sectors of the file named by `K` change.
-/

namespace Mwfs

open Place

/-- The forest with the pointers of inode `i` as `t` has them. -/
def Forest.put (F : Forest) (i : Nat) (t : Ino) : Forest := Function.update F i (some t.top)

theorem Forest.put_self (F : Forest) (i : Nat) (t : Ino) : F.put i t i = some t.top :=
  Function.update_self ..

theorem Forest.put_put (F : Forest) (i : Nat) (t t' : Ino) : (F.put i t).put i t' = F.put i t' :=
  Function.update_idem ..

/-! ## Reading -/

section Read

variable {g : Geo} {s : St} {t : Ino}

theorem bmapFill_read (s : St) (t : Ino) (slot : Slot) (z : Bool) :
    bmapFill s t slot false z = (.ok, slot.get t, t, s) := by
  unfold bmapFill
  split
  · rfl
  · next h =>
    rw [if_pos rfl]
    rw [ne_eq, not_not] at h
    rw [h]

/-- The tables that lead to sector `idx` of a file can be read, where these are the sectors that
can. -/
structure View.Leads (V : View) (f : Nat → Bool) (t : Ino) (idx : Nat) : Prop where
  ind : 8 ≤ idx → idx < 136 → t.ind ≠ 0 → f t.ind = true
  dind : 136 ≤ idx → t.dind ≠ 0 → f t.dind = true
  mid : 136 ≤ idx → V.mid t ((idx - 136) / ptrs) ≠ 0 → f (V.mid t ((idx - 136) / ptrs)) = true

/-- **Reading the map**, past the tables that can be read. -/
theorem bmap_reading {f : Nat → Bool} {V : View}
    (hread : ∀ p, V.ref t.top p ≠ 0 →
      rd s (V.ref t.top p) = if f (V.ref t.top p) then some (V.sec (V.ref t.top p)) else none)
    {idx : Nat} (hidx : idx < maxSectors) (z : Bool) :
    (V.Leads f t idx ∧ bmap s t idx false z = (.ok, V.cell t idx, t, s)) ∨
      (¬ V.Leads f t idx ∧ bmap s t idx false z = (.io, 0, t, s)) := by
  simp only [maxSectors] at hidx
  unfold bmap bmapSlot
  by_cases h8 : idx < ndirect
  · simp only [ndirect] at h8
    refine Or.inl ⟨⟨fun _ => by omega, fun _ => by omega, fun _ => by omega⟩, ?_⟩
    rw [if_pos (by exact h8)]
    dsimp only
    rw [bmapFill_read, V.cell_direct t h8]
    rfl
  rw [if_neg h8]
  simp only [ndirect] at h8
  by_cases h136 : idx - ndirect < ptrs
  · rw [if_pos h136]
    obtain ⟨k, rfl⟩ : ∃ k, idx = 8 + k := ⟨idx - 8, by omega⟩
    have hsub : 8 + k - ndirect = k := Nat.add_sub_cancel_left 8 k
    rw [hsub] at h136 ⊢
    have hk : k < 128 := h136
    rw [V.cell_ind t h136]
    by_cases hi : t.ind = 0
    · rw [if_pos ⟨hi, rfl⟩, if_pos hi]
      exact Or.inl ⟨⟨fun _ _ hc => absurd hi hc, fun _ => by omega, fun _ => by omega⟩, rfl⟩
    · rw [if_neg (fun hc => hi hc.1), if_neg hi, if_neg hi]
      dsimp only
      have hrd := hread (.root 8) hi
      rw [V.ref_ind] at hrd
      rw [hrd]
      cases hf : f t.ind with
      | false => exact Or.inr ⟨fun hc => by simp [hc.ind (by omega) (by omega) hi] at hf, rfl⟩
      | true =>
        refine Or.inl ⟨⟨fun _ _ _ => hf, fun _ => by omega, fun _ => by omega⟩, ?_⟩
        rw [if_pos rfl]
        dsimp only
        rw [bmapFill_read, View.tbl, if_pos h136]
        rfl
  rw [if_neg h136]
  obtain ⟨j, rfl⟩ : ∃ j, idx = 136 + j := ⟨idx - 136, by simp only [ndirect, ptrs] at h136; omega⟩
  have hsub : 136 + j - ndirect - ptrs = j := Nat.add_sub_cancel_left 136 j
  have hj : j / ptrs < ptrs := by simp only [ptrs]; omega
  have hj' : j % ptrs < ptrs := Nat.mod_lt _ (by decide)
  have hfits : ¬ ptrs * ptrs ≤ j := by
    have : ptrs * ptrs = 16384 := rfl
    omega
  have hleads : (t.dind ≠ 0 → f t.dind = true) →
      (V.mid t (j / ptrs) ≠ 0 → f (V.mid t (j / ptrs)) = true) → V.Leads f t (136 + j) :=
    fun hd hm => ⟨fun _ => by omega, fun _ => hd, fun _ => by rwa [Nat.add_sub_cancel_left]⟩
  rw [hsub]
  rw [if_neg hfits, V.cell_dind]
  have hmid := V.mid_eq t (j / ptrs)
  by_cases hi : t.dind = 0
  · rw [if_pos hi] at hmid
    rw [if_pos ⟨hi, rfl⟩, if_pos hmid]
    exact Or.inl ⟨hleads (fun hc => absurd hi hc) fun hc => absurd hmid hc, rfl⟩
  rw [if_neg hi] at hmid
  rw [if_neg (fun hc => hi hc.1), if_neg hi]
  dsimp only
  have hrd := hread (.root 9) hi
  rw [V.ref_dind] at hrd
  rw [hrd]
  cases hf : f t.dind with
  | false => exact Or.inr ⟨fun hc => by simp [hc.dind (by omega) hi] at hf, rfl⟩
  | true =>
    rw [if_pos rfl]
    dsimp only
    have hm : (V.sec t.dind).le32 (4 * (j / ptrs)) = V.mid t (j / ptrs) := by
      rw [hmid, View.tbl, if_pos hj]
    rw [hm]
    by_cases h0 : V.mid t (j / ptrs) = 0
    · rw [if_pos ⟨h0, rfl⟩, if_pos h0]
      exact Or.inl ⟨hleads (fun _ => hf) fun hc => absurd h0 hc, rfl⟩
    rw [if_neg (fun hc => h0 hc.1), if_neg h0, if_neg h0]
    dsimp only
    rw [if_neg h0]
    dsimp only
    have hrd' : rd s (V.mid t (j / ptrs)) = if f (V.mid t (j / ptrs))
        then some (V.sec (V.mid t (j / ptrs))) else none := hread _ h0
    rw [hrd']
    cases hf' : f (V.mid t (j / ptrs)) with
    | false =>
      refine Or.inr ⟨fun hc => ?_, rfl⟩
      have := hc.mid (by omega)
      rw [Nat.add_sub_cancel_left] at this
      exact absurd (hf'.symm.trans (this h0)) Bool.false_ne_true
    | true =>
      refine Or.inl ⟨hleads (fun _ => hf) fun _ => hf', ?_⟩
      rw [if_pos rfl]
      dsimp only
      rw [bmapFill_read]
      show _ = (_, V.tbl (V.mid t (j / ptrs)) (j % ptrs), _)
      rw [View.tbl, if_pos hj']
      rfl

/-- Where every pointer leads to the data area, the map gives the sector of the file, or `0` for a
hole. -/
theorem bmap_read (hs : Sane g s)
    (hd : ∀ p, (view g s.disk).ref t.top p ≠ 0 → g.Data ((view g s.disk).ref t.top p))
    {idx : Nat} (hidx : idx < maxSectors) (z : Bool) :
    bmap s t idx false z = (.ok, (view g s.disk).cell t idx, t, s) := by
  rcases bmap_reading (f := fun _ => true)
    (fun p hp => rd_data hs (hd p hp).le (hd p hp).lt) hidx z with ⟨-, h⟩ | ⟨hno, -⟩
  · exact h
  · exact absurd ⟨fun _ _ _ => rfl, fun _ _ => rfl, fun _ _ => rfl⟩ hno

end Read

/-! ## A sector taken but not linked -/

section Fresh

variable {g : Geo} {G : Graph} {F : Forest} {V V₁ : View} {l : Nat}

/-- `V₁` is `V` with sector `l` taken: marked, and nobody's yet. -/
structure Fresh (g : Geo) (G : Graph) (F : Forest) (V : View) (l : Nat) (V₁ : View) : Prop where
  inv : Inv g G F V₁
  data : g.Data l
  ne_zero : l ≠ 0
  lt : l < 4294967296
  bit : V₁.bit l = true
  own : ¬ Owns V₁ F l
  ino : V₁.ino = V.ino
  sec : ∀ m, Owns V F m → V₁.sec m = V.sec m
  tight : Tight g F V → ∀ m, g.Data m → V₁.bit m = true → Owns V₁ F m ∨ m = l

theorem Fresh.mark (hg : g.Ok) (h : Inv g G F V) (hl : g.Data l) (hclear : V.bit l = false) :
    Fresh g G F V l (V.setBit l true) where
  inv := h.setBit_on hl
  data := hl
  ne_zero := hl.ne_zero hg
  lt := Nat.lt_trans hl.lt hg.lt
  bit := Function.update_self ..
  own := h.not_owns hclear
  ino := rfl
  sec _ _ := rfl
  tight ht m hm hbit := by
    by_cases hml : m = l
    · exact Or.inr hml
    · rw [View.setBit_bit, Function.update_of_ne hml] at hbit
      exact Or.inl (ht m hm hbit)

theorem Fresh.clear (h : Fresh g G F V l V₁) : Fresh g G F V l (V₁.setSec l Block.zero) where
  inv := h.inv.setSec h.own _
  data := h.data
  ne_zero := h.ne_zero
  lt := h.lt
  bit := h.bit
  own hc := h.own ((owns_setSec h.own).mp hc)
  ino := h.ino
  sec m hm := by
    have hne : m ≠ l := by
      rintro rfl
      exact h.own ((owns_iff_of_sec h.sec m).mpr hm)
    rw [View.setSec_sec, Function.update_of_ne hne]
    exact h.sec m hm
  tight ht m hm hbit := (h.tight ht m hm hbit).imp (owns_setSec h.own).mpr id

theorem Fresh.ref (h : Fresh g G F V l V₁) {j : Nat} {u : Nat → Nat} (hj : F j = some u)
    (p : Place Nat) : V₁.ref u p = V.ref u p :=
  ref_eq_of_sec h.sec hj p

end Fresh

theorem takeFresh_spec {g : Geo} {G : Graph} {F : Forest} {s : St} (hs : Sane g s)
    (hI : Inv g G F (view g s.disk)) (z : Bool) :
    takeFresh s z = (.full, 0, s) ∨
      ∃ l s', takeFresh s z = (.ok, l, s') ∧ Sane g s' ∧ Via g (Rep g G) s s' ∧
        Fresh g G F (view g s.disk) l (view g s'.disk) ∧
        (z = true → (view g s'.disk).sec l = Block.zero) := by
  unfold takeFresh
  cases z with
  | false =>
    rw [if_neg (by simp)]
    rcases alloc_spec hs hI.padded with ⟨hr, -⟩ | ⟨l, s₁, hr, hl, hclear, hw⟩
    · rw [hr]
      exact Or.inl rfl
    · have hf := Fresh.mark hs.ok hI hl hclear
      obtain ⟨n, rfl⟩ : ∃ n, l = n + 1 := ⟨l - 1, by have := hl.ne_zero hs.ok; omega⟩
      rw [hr]
      refine Or.inr ⟨n + 1, s₁, rfl, hw.sane, hw.via hI.rep hf.inv.rep, ?_, by simp⟩
      rw [hw.eq]
      exact hf
  | true =>
    rw [if_pos rfl]
    rcases newZeroed_spec hs hI.padded with hr | ⟨l, s₁, hr, hl, hclear, hs₁, hV, hvia⟩
    · exact Or.inl hr
    · have hf := Fresh.mark hs.ok hI hl hclear
      refine Or.inr ⟨l, s₁, hr, hs₁, hvia _ hI.rep hf.inv.rep ?_, ?_, fun _ => ?_⟩
      · rw [hV]
        exact hf.clear.inv.rep
      · rw [hV]
        exact hf.clear
      · rw [hV]
        exact Function.update_self ..

/-! ## Changing the map of one inode -/

/-- **An edit of inode `i` in memory**, from `t` in state `s` to `t'` in state
`s'`. It keeps the invariant with the graph as it is, and leaves every sector of
the file outside `K` as it was. -/
structure Edit (g : Geo) (G : Graph) (F : Forest) (i : Nat) (K : Nat → Prop) (s : St) (t : Ino)
    (s' : St) (t' : Ino) : Prop where
  sane : Sane g s'
  inv : Inv g G (F.put i t') (view g s'.disk)
  via : Via g (Rep g G) s s'
  fits : t'.Fits
  type : t'.type = t.type
  aux : t'.aux = t.aux
  ino : (view g s'.disk).ino = (view g s.disk).ino
  cell : ∀ k, (view g s.disk).cell t k ≠ 0 →
    (view g s'.disk).cell t' k = (view g s.disk).cell t k
  block : ∀ k, ¬ K k → (view g s'.disk).block t' k = (view g s.disk).block t k
  tight : Tight g (F.put i t) (view g s.disk) → Tight g (F.put i t') (view g s'.disk)

section Edit

variable {g : Geo} {G : Graph} {F : Forest} {i : Nat} {K K' : Nat → Prop} {s s' s'' : St}
  {t t' t'' : Ino}

theorem Edit.refl (hs : Sane g s) (hI : Inv g G (F.put i t) (view g s.disk)) (ht : t.Fits) :
    Edit g G F i K s t s t :=
  ⟨hs, hI, .refl hI.rep, ht, rfl, rfl, rfl, fun _ _ => rfl, fun _ _ => rfl, id⟩

theorem Edit.mono {L : Nat → Prop} (h : Edit g G F i K s t s' t') (hK : ∀ k, K k → L k) :
    Edit g G F i L s t s' t' :=
  { h with block := fun k hk => h.block k fun hc => hk (hK k hc) }

theorem Edit.trans (h : Edit g G F i K s t s' t') (h' : Edit g G F i K s' t' s'' t'') :
    Edit g G F i K s t s'' t'' where
  sane := h'.sane
  inv := h'.inv
  via := h.via.trans h'.via
  fits := h'.fits
  type := h'.type.trans h.type
  aux := h'.aux.trans h.aux
  ino := h'.ino.trans h.ino
  cell k hk := by
    have hc := h.cell k hk
    rw [h'.cell k (by rw [hc]; exact hk), hc]
  block k hk := (h'.block k hk).trans (h.block k hk)
  tight ht := h'.tight (h.tight ht)

/-- **A taken sector linked at a root.** -/
theorem Fresh.edit_root {l r : Nat} (hs : Sane g s') (hvia : Via g (Rep g G) s s')
    (h : Fresh g G (F.put i t) (view g s.disk) l (view g s'.disk)) (hr : t.top r = 0)
    (ht' : t'.top = Function.update t.top r l) (hfits : t'.Fits) (htype : t'.type = t.type)
    (haux : t'.aux = t.aux)
    (htab : isTab (.root r) = true → (view g s'.disk).sec l = Block.zero) :
    Edit g G F i (fun k => datPos k = .root r) s t s' t'
      ∧ ∀ p, (view g s'.disk).ref t'.top p
          = if p = .root r then l else (view g s.disk).ref t.top p := by
  have hi := F.put_self i t
  have hput : Function.update (F.put i t) i (some (Function.update t.top r l)) = F.put i t' := by
    rw [← ht']
    exact F.put_put i t t'
  have hinv := h.inv.link_root hi hr h.data h.ne_zero h.bit h.own htab
  have href : ∀ p, (view g s'.disk).ref t'.top p
      = if p = .root r then l else (view g s.disk).ref t.top p := by
    intro p
    rw [ht', View.ref, ref_link_root hr fun hc => View.tbl_zero (htab hc)]
    split
    · rfl
    · exact h.ref hi p
  have hcell : ∀ k, datPos k ≠ .root r →
      (view g s'.disk).cell t' k = (view g s.disk).cell t k := by
    intro k hk
    rw [View.cell, href, if_neg hk]
    rfl
  have howned : ∀ m, Owns (view g s'.disk) (F.put i t') m
      ↔ m = l ∨ Owns (view g s'.disk) (F.put i t) m := by
    intro m
    rw [← hput]
    have hr' : Place.ref isTab (view g s'.disk).tbl t.top (.root r) = 0 := hr
    exact owned_link hi hr' h.ne_zero (ref_link_root hr fun hc => View.tbl_zero (htab hc))
      (fun _ _ _ _ _ => rfl) m
  rw [hput] at hinv
  refine ⟨⟨hs, hinv, hvia, hfits, htype, haux, h.ino, ?_, ?_, ?_⟩, href⟩
  · intro k hk
    refine hcell k fun hc => hk ?_
    rw [View.cell, hc]
    exact hr
  · intro k hk
    unfold View.block
    rw [hcell k hk]
    split
    · rfl
    · next h0 => exact h.sec _ (owns_ref hi h0)
  · intro htight m hm hbit
    exact (howned m).mpr ((h.tight htight m hm hbit).symm)

/-- **A taken sector linked in a table**, with one write of the table. -/
theorem Fresh.edit_entry {l k : Nat} {q : Place Nat} {s₁ : St} (hs : Sane g s₁)
    (hvia : Via g (Rep g G) s s₁)
    (h : Fresh g G (F.put i t) (view g s.disk) l (view g s₁.disk)) (hq : isTab q = true)
    (hq0 : (view g s.disk).ref t.top q ≠ 0) (hk : k < ptrs)
    (h0 : (view g s.disk).ref t.top (.entry q k) = 0)
    (ht' : t'.top = t.top) (hfits : t'.Fits) (htype : t'.type = t.type) (haux : t'.aux = t.aux)
    (htab : isTab (.entry q k) = true → (view g s₁.disk).sec l = Block.zero)
    (hfile : ∀ o n, G i = some o → 512 * n < ((view g s.disk).ino i).size → datPos n ≠ .entry q k) :
    ∃ s', wr s₁ ((view g s.disk).ref t.top q)
          (((view g s.disk).sec ((view g s.disk).ref t.top q)).put32 (4 * k) l) = (true, s') ∧
      Edit g G F i (fun n => datPos n = .entry q k) s t s' t' ∧
      (∀ p, (view g s'.disk).ref t'.top p
          = if p = .entry q k then l else (view g s.disk).ref t.top p) := by
  have hi := F.put_self i t
  have hput : F.put i t' = F.put i t := by
    unfold Forest.put
    rw [ht']
  have href := fun p => h.ref hi p
  have hqs : (view g s₁.disk).sec ((view g s.disk).ref t.top q)
      = (view g s.disk).sec ((view g s.disk).ref t.top q) := h.sec _ (owns_ref hi hq0)
  have hq0' : (view g s₁.disk).ref t.top q ≠ 0 := by rw [href q]; exact hq0
  have hdata := h.inv.data _ (owns_ref hi hq0')
  have h0' : (view g s₁.disk).tbl ((view g s₁.disk).ref t.top q) k = 0 := by
    have := href (.entry q k)
    rw [h0, View.ref, Place.ref_entry isTab _ _ k hq hq0'] at this
    exact this
  have hinv := h.inv.link_entry hi hq hq0' hk h0' h.data h.ne_zero h.lt h.bit h.own htab
    (by rw [h.ino]; exact hfile)
  have hlink := h.inv.ref_link_entry hi hq hq0' hk h0' h.lt h.own htab
  have howned := h.inv.owns_link_entry hi hq hq0' hk h0' h.ne_zero h.lt h.own htab
  rw [href q] at hdata hinv hlink howned
  rw [hqs] at hinv hlink howned
  obtain ⟨s', hs', hw⟩ := wr_data hs hdata.le hdata.lt
    (((view g s.disk).sec ((view g s.disk).ref t.top q)).put32 (4 * k) l)
  refine ⟨s', hs', ?_⟩
  have href' : ∀ p, (view g s'.disk).ref t'.top p
      = if p = .entry q k then l else (view g s.disk).ref t.top p := by
    intro p
    rw [hw.eq, ht', hlink p, href]
  have hcell : ∀ n, datPos n ≠ .entry q k →
      (view g s'.disk).cell t' n = (view g s.disk).cell t n := by
    intro n hn
    rw [View.cell, href', if_neg hn]
    rfl
  refine ⟨⟨hw.sane, ?_, hvia.trans (hw.via h.inv.rep hinv.rep), hfits, htype, haux, ?_, ?_, ?_, ?_⟩,
    href'⟩
  · rw [hw.eq, hput]
    exact hinv
  · rw [hw.eq]
    exact h.ino
  · intro n hn
    refine hcell n fun hc => hn ?_
    rw [View.cell, hc]
    exact h0
  · intro n hn
    unfold View.block
    rw [hcell n hn]
    split
    · rfl
    · next hc0 =>
      -- a data sector is not the table written
      have hne : (view g s.disk).cell t n ≠ (view g s.disk).ref t.top q := by
        intro hc
        have hcr : (view g s₁.disk).ref t.top (datPos n) = (view g s₁.disk).ref t.top q := by
          rw [href, href]
          exact hc
        have hpos := (h.inv.ref_inj hi hi hcr (by rw [href]; exact hc0)).2
        rw [← hpos, isTab_datPos] at hq
        exact absurd hq (by simp)
      rw [hw.eq, View.setSec_sec, Function.update_of_ne hne]
      exact h.sec _ (owns_ref hi hc0)
  · intro htight m hm hbit
    rw [hw.eq] at hbit ⊢
    rw [hput]
    exact (howned m).mpr ((h.tight htight m hm hbit).symm)

/-! ## Making the tables -/

theorem top_ind (t : Ino) (l : Nat) : ({ t with ind := l } : Ino).top = Function.update t.top 8 l := by
  funext r
  by_cases hr : r = 8
  · subst hr
    rw [Function.update_self]
    rfl
  · rw [Function.update_of_ne hr]
    unfold Ino.top
    simp only [ndirect, hr, if_false]

theorem top_dind (t : Ino) (l : Nat) :
    ({ t with dind := l } : Ino).top = Function.update t.top 9 l := by
  funext r
  by_cases hr : r = 9
  · subst hr
    rw [Function.update_self]
    rfl
  · have hr' : r ≠ ndirect + 1 := hr
    rw [Function.update_of_ne hr]
    unfold Ino.top
    simp only [hr', if_false]

theorem top_direct (t : Ino) {idx : Nat} (h : idx < ndirect) (l n : Nat) :
    ({ t with direct := Function.update t.direct idx l, nblocks := n } : Ino).top
      = Function.update t.top idx l := by
  funext r
  by_cases hr : r = idx
  · subst hr
    rw [Function.update_self]
    unfold Ino.top
    rw [if_pos h]
    exact Function.update_self ..
  · rw [Function.update_of_ne hr]
    unfold Ino.top
    simp only [Function.update_of_ne hr]

/-- What an operation that makes pointers needs to know: the invariant, and that
the data of inode `i`, if the graph has it, ends before sector `idx`. -/
structure Growing (g : Geo) (G : Graph) (F : Forest) (i : Nat) (s : St) (t : Ino) (idx : Nat) :
    Prop where
  sane : Sane g s
  inv : Inv g G (F.put i t) (view g s.disk)
  fits : t.Fits
  file : ∀ o n, G i = some o → 512 * n < ((view g s.disk).ino i).size → n < idx

theorem Growing.step {idx : Nat} (h : Growing g G F i s t idx) (he : Edit g G F i K s t s' t') :
    Growing g G F i s' t' idx where
  sane := he.sane
  inv := he.inv
  fits := he.fits
  file o n hi hn := h.file o n hi (by rw [← he.ino]; exact hn)

/-- A table at a root of the inode, made if it was missing. `upd` is the inode
with that pointer set. -/
theorem root_table {idx r : Nat} (h : Growing g G F i s t idx) (hr : isTab (.root r) = true)
    (upd : Nat → Ino) (hself : upd (t.top r) = t)
    (htop : ∀ l, (upd l).top = Function.update t.top r l)
    (hfits : ∀ l, l < 4294967296 → (upd l).Fits) (htype : ∀ l, (upd l).type = t.type)
    (haux : ∀ l, (upd l).aux = t.aux) :
    (if t.top r = 0 then newZeroed s else (.ok, t.top r, s)) = (.full, 0, s) ∨
      ∃ l s', (if t.top r = 0 then newZeroed s else (.ok, t.top r, s)) = (.ok, l, s') ∧ l ≠ 0 ∧
        Edit g G F i (fun _ => False) s t s' (upd l) ∧
        (view g s'.disk).ref (upd l).top (.root r) = l := by
  by_cases h0 : t.top r = 0
  · rw [if_pos h0]
    have hnz : newZeroed s = takeFresh s true := rfl
    rw [hnz]
    rcases takeFresh_spec h.sane h.inv true with hf | ⟨l, s', hs', hsane, hvia, hfresh, hz⟩
    · exact Or.inl hf
    · obtain ⟨hedit, href⟩ := hfresh.edit_root hsane hvia h0 (htop l) (hfits l hfresh.lt) (htype l)
        (haux l) fun _ => hz rfl
      refine Or.inr ⟨l, s', hs', hfresh.ne_zero, hedit.mono fun k hk => ?_, ?_⟩
      · have := isTab_datPos k
        rw [hk, hr] at this
        exact absurd this (by simp)
      · rw [href, if_pos rfl]
  · rw [if_neg h0]
    refine Or.inr ⟨_, s, rfl, h0, ?_, ?_⟩
    · rw [hself]
      exact Edit.refl h.sane h.inv h.fits
    · rw [hself]
      rfl

/-- What a slot found by `bmapSlot` is. -/
inductive SlotAt (V : View) (t : Ino) (idx : Nat) : Slot → Prop
  | direct (h : idx < ndirect) : SlotAt V t idx (.direct idx)
  | entry (q : Place Nat) (k : Nat) (hq : isTab q = true) (h0 : V.ref t.top q ≠ 0) (hk : k < ptrs)
    (hpos : datPos idx = .entry q k) :
    SlotAt V t idx (.entry (V.ref t.top q) (V.sec (V.ref t.top q)) k)

theorem SlotAt.get_eq {V : View} {idx : Nat} {sl : Slot} (h : SlotAt V t idx sl) :
    sl.get t = V.cell t idx := by
  cases h with
  | direct h => exact (V.cell_direct t h).symm
  | entry q k hq h0 hk hpos =>
    have href : V.ref t.top (.entry q k) = V.tbl (V.ref t.top q) k :=
      Place.ref_entry isTab V.tbl t.top k hq h0
    rw [View.cell, hpos, href, View.tbl, if_pos hk]
    rfl

/-- **The tables on the way to a sector.** -/
theorem bmapSlot_create {idx : Nat} (h : Growing g G F i s t idx) :
    ∃ e o t' s', bmapSlot s t idx true = (e, o, t', s') ∧
      Edit g G F i (fun _ => False) s t s' t' ∧ t'.size = t.size ∧
      ((e = .ok ∧ ∃ sl, o = some sl ∧ SlotAt (view g s'.disk) t' idx sl) ∨ e = .full ∨
        (e = .toobig ∧ maxSectors ≤ idx)) := by
  have hrefl := Edit.refl (K := fun _ => False) h.sane h.inv h.fits
  unfold bmapSlot
  by_cases h8 : idx < ndirect
  · rw [if_pos h8]
    exact ⟨_, _, _, _, rfl, hrefl, rfl, Or.inl ⟨rfl, _, rfl, .direct h8⟩⟩
  · rw [if_neg h8]
    simp only [ndirect] at h8
    by_cases h136 : idx - ndirect < ptrs
    · rw [if_pos h136, if_neg (by simp)]
      have hpos : datPos idx = .entry (.root 8) (idx - ndirect) := by
        simp only [ptrs, ndirect] at h136
        rw [datPos, if_neg h8, if_pos (by omega)]
        rfl
      rcases root_table (r := 8) h rfl (fun l => { t with ind := l }) rfl (top_ind t)
          (fun l hl => { h.fits with ind := hl }) (fun _ => rfl) (fun _ => rfl)
        with hf | ⟨l, s', hs', hl0, hedit, href⟩
      · have hf' : (if t.ind = 0 then newZeroed s else (.ok, t.ind, s)) = (.full, 0, s) := hf
        rw [hf']
        exact ⟨_, _, _, _, rfl, hrefl, rfl, Or.inr (Or.inl rfl)⟩
      · have hs'' : (if t.ind = 0 then newZeroed s else (.ok, t.ind, s)) = (.ok, l, s') := hs'
        have hdata := hedit.inv.data _ (owns_ref (Forest.put_self ..) (by rw [href]; exact hl0))
        rw [href] at hdata
        rw [hs'']
        dsimp only
        rw [rd_data hedit.sane hdata.le hdata.lt]
        refine ⟨_, _, _, _, rfl, hedit, rfl, Or.inl ⟨rfl, _, rfl, ?_⟩⟩
        have hslot : SlotAt (view g s'.disk) { t with ind := l } idx _ := .entry
          (.root 8) (idx - ndirect) rfl (by rw [href]; exact hl0) h136 hpos
        rwa [href] at hslot
    · rw [if_neg h136]
      by_cases hbig : ptrs * ptrs ≤ idx - ndirect - ptrs
      · rw [if_pos hbig]
        refine ⟨_, _, _, _, rfl, hrefl, rfl, Or.inr (Or.inr ⟨rfl, ?_⟩)⟩
        have : ptrs * ptrs = 16384 := rfl
        simp only [maxSectors]
        simp only [ndirect, ptrs] at h136 hbig
        omega
      · rw [if_neg hbig, if_neg (by simp)]
        obtain ⟨j, rfl⟩ : ∃ j, idx = 136 + j :=
          ⟨idx - 136, by simp only [ndirect, ptrs] at h136; omega⟩
        have hsub : 136 + j - ndirect - ptrs = j := Nat.add_sub_cancel_left 136 j
        rw [hsub] at hbig ⊢
        have hj : j / ptrs < ptrs := Nat.div_lt_of_lt_mul (by omega)
        have hj' : j % ptrs < ptrs := Nat.mod_lt _ (by decide)
        have hpos := datPos_dind j
        rcases root_table (r := 9) h rfl (fun l => { t with dind := l }) rfl (top_dind t)
            (fun l hl => { h.fits with dind := hl }) (fun _ => rfl) (fun _ => rfl)
          with hf | ⟨l, s₁, hs₁, hl0, hedit, href⟩
        · have hf' : (if t.dind = 0 then newZeroed s else (.ok, t.dind, s)) = (.full, 0, s) := hf
          rw [hf']
          exact ⟨_, _, _, _, rfl, hrefl, rfl, Or.inr (Or.inl rfl)⟩
        · have hs₁' : (if t.dind = 0 then newZeroed s else (.ok, t.dind, s)) = (.ok, l, s₁) := hs₁
          rw [hs₁']
          dsimp only
          have h₁ := h.step hedit
          generalize ht₁ : ({ t with dind := l } : Ino) = t₁ at hedit href h₁ ⊢
          have htop : t₁.dind = l := by rw [← ht₁]
          have hsize : t₁.size = t.size := by rw [← ht₁]
          have hdata := h₁.inv.data _ (owns_ref (Forest.put_self ..) (by rw [href]; exact hl0))
          rw [href] at hdata
          rw [rd_data h₁.sane hdata.le hdata.lt]
          dsimp only
          have hmid : ((view g s₁.disk).sec l).le32 (4 * (j / ptrs))
              = (view g s₁.disk).ref t₁.top (.entry (.root 9) (j / ptrs)) := by
            have := (view g s₁.disk).mid_eq t₁ (j / ptrs)
            rw [htop, if_neg hl0, View.tbl, if_pos hj] at this
            exact this.symm
          rw [hmid, if_neg (by simp)]
          by_cases h0 : (view g s₁.disk).ref t₁.top (.entry (.root 9) (j / ptrs)) = 0
          · rw [if_pos h0]
            have hnz : newZeroed s₁ = takeFresh s₁ true := rfl
            rw [hnz]
            rcases takeFresh_spec h₁.sane h₁.inv true with hf | ⟨m, s₂, hs₂, hsane, hvia, hfresh, hz⟩
            · rw [hf]
              exact ⟨_, _, _, _, rfl, hedit, hsize, Or.inr (Or.inl rfl)⟩
            · obtain ⟨s₃, hs₃, hedit₂, href₂⟩ := hfresh.edit_entry hsane hvia
                (show isTab (.root 9) = true from rfl) (by rw [href]; exact hl0) hj h0 rfl h₁.fits rfl
                rfl (fun _ => hz rfl) (fun o n _ _ hc => by
                  have := isTab_datPos n
                  rw [hc] at this
                  exact absurd this (by simp [isTab]))
              rw [href] at hs₃
              have hedit₃ := hedit.trans (hedit₂.mono (L := fun _ => False) fun n hn => by
                have := isTab_datPos n
                rw [hn] at this
                exact absurd this (by simp [isTab]))
              have hm : (view g s₃.disk).ref t₁.top (.entry (.root 9) (j / ptrs)) = m := by
                rw [href₂, if_pos rfl]
              have hdata₃ := hedit₃.inv.data _ (owns_ref (Forest.put_self ..)
                (by rw [hm]; exact hfresh.ne_zero))
              rw [hm] at hdata₃
              rw [hs₂]
              dsimp only
              rw [if_pos h0, hs₃]
              dsimp only
              rw [rd_data hedit₃.sane hdata₃.le hdata₃.lt]
              refine ⟨_, _, _, _, rfl, hedit₃, hsize, Or.inl ⟨rfl, _, rfl, ?_⟩⟩
              have hslot : SlotAt (view g s₃.disk) t₁ (136 + j) _ := .entry
                (.entry (.root 9) (j / ptrs)) (j % ptrs) rfl (by rw [hm]; exact hfresh.ne_zero) hj' hpos
              rwa [hm] at hslot
          · rw [if_neg h0]
            dsimp only
            rw [if_neg h0]
            dsimp only
            have hdata₃ := hedit.inv.data _ (owns_ref (Forest.put_self ..) h0)
            rw [rd_data hedit.sane hdata₃.le hdata₃.lt]
            exact ⟨_, _, _, _, rfl, hedit, hsize, Or.inl ⟨rfl, _, rfl,
              .entry (.entry (.root 9) (j / ptrs)) (j % ptrs) rfl h0 hj' hpos⟩⟩

/-- **Filling a hole.** -/
theorem bmapFill_create {idx : Nat} (h : Growing g G F i s t idx) {sl : Slot}
    (hsl : SlotAt (view g s.disk) t idx sl) (z : Bool) :
    ∃ e l t' s', bmapFill s t sl true z = (e, l, t', s') ∧
      Edit g G F i (fun k => k = idx) s t s' t' ∧ t'.size = t.size ∧
      ((e = .ok ∧ l ≠ 0 ∧ (view g s'.disk).cell t' idx = l) ∨ e = .full) := by
  have hrefl := Edit.refl (K := fun k => k = idx) h.sane h.inv h.fits
  unfold bmapFill
  by_cases h0 : sl.get t = 0
  · rw [if_neg (by simpa using h0), if_neg (by simp)]
    rcases takeFresh_spec h.sane h.inv z with hf | ⟨l, s₁, hs₁, hsane, hvia, hfresh, -⟩
    · rw [hf]
      exact ⟨_, _, _, _, rfl, hrefl, rfl, Or.inr rfl⟩
    · rw [hs₁]
      have hnb : (t.nblocks + 1) % 4294967296 < 4294967296 := Nat.mod_lt _ (by decide)
      rw [hsl.get_eq] at h0
      cases hsl with
      | direct hidx =>
        dsimp only [Slot.setIno]
        have hroot : datPos idx = .root idx := by
          rw [datPos, if_pos (show idx < 8 from hidx)]
        have hfits : ({ t with
            direct := Function.update t.direct idx l
            nblocks := (t.nblocks + 1) % 4294967296 } : Ino).Fits := by
          refine { h.fits with nblocks := hnb, direct := fun k => ?_, past := fun k hk => ?_ }
          · by_cases hki : k = idx
            · subst hki
              show Function.update t.direct k l k < _
              rw [Function.update_self]
              exact hfresh.lt
            · show Function.update t.direct idx l k < _
              rw [Function.update_of_ne hki]
              exact h.fits.direct k
          · show Function.update t.direct idx l k = 0
            rw [Function.update_of_ne (by omega)]
            exact h.fits.past k hk
        obtain ⟨hedit, href⟩ := hfresh.edit_root hsane hvia
          (by rw [View.cell, hroot] at h0; exact h0) (top_direct t hidx l _) hfits rfl rfl
          (fun ht => by rw [← hroot, isTab_datPos] at ht; exact absurd ht (by simp))
        refine ⟨_, _, _, _, rfl, hedit.mono fun k hk => datPos_inj (by rw [hk, hroot]), rfl,
          Or.inl ⟨rfl, hfresh.ne_zero, ?_⟩⟩
        rw [View.cell, href, hroot, if_pos rfl]
      | entry q k hq hq0 hk hpos =>
        dsimp only [Slot.setIno]
        rw [View.cell, hpos] at h0
        obtain ⟨s₂, hs₂, hedit, href⟩ := hfresh.edit_entry hsane hvia hq hq0 hk h0
          (show ({ t with nblocks := (t.nblocks + 1) % 4294967296 } : Ino).top = t.top from rfl)
          { h.fits with nblocks := hnb } rfl rfl
          (fun ht => by rw [← hpos, isTab_datPos] at ht; exact absurd ht (by simp))
          (fun o n hi hn hc => by
            have := datPos_inj (hc.trans hpos.symm)
            have := h.file o n hi hn
            omega)
        rw [hs₂]
        refine ⟨_, _, _, _, rfl, hedit.mono fun n hn => datPos_inj (by rw [hn, hpos]), rfl,
          Or.inl ⟨rfl, hfresh.ne_zero, ?_⟩⟩
        rw [View.cell, href, hpos, if_pos rfl]
  · rw [if_pos (by simpa using h0)]
    refine ⟨_, _, _, _, rfl, hrefl, rfl, Or.inl ⟨rfl, h0, hsl.get_eq.symm⟩⟩

/-- **Making the sector of a file.** It is there afterwards, or the volume is full
or the file too big; and nothing else changed. -/
theorem bmap_create {idx : Nat} (h : Growing g G F i s t idx) (z : Bool) :
    ∃ e l t' s', bmap s t idx true z = (e, l, t', s') ∧
      Edit g G F i (fun k => k = idx) s t s' t' ∧ t'.size = t.size ∧
      ((e = .ok ∧ l ≠ 0 ∧ (view g s'.disk).cell t' idx = l) ∨ e = .full ∨
        (e = .toobig ∧ maxSectors ≤ idx)) := by
  unfold bmap
  obtain ⟨e, o, t₁, s₁, hs₁, hedit, hsize, hres⟩ := bmapSlot_create h
  have hedit' := hedit.mono (L := fun k => k = idx) fun _ hk => hk.elim
  rw [hs₁]
  rcases hres with ⟨rfl, sl, rfl, hsl⟩ | rfl | ⟨rfl, hbig⟩
  · obtain ⟨e, l, t₂, s₂, hs₂, hedit₂, hsize₂, hres₂⟩ := bmapFill_create (h.step hedit) hsl z
    refine ⟨e, l, t₂, s₂, hs₂, hedit'.trans hedit₂, hsize₂.trans hsize, ?_⟩
    exact hres₂.imp id Or.inl
  · exact ⟨_, _, _, _, rfl, hedit', hsize, Or.inr (Or.inl rfl)⟩
  · exact ⟨_, _, _, _, rfl, hedit', hsize, Or.inr (Or.inr ⟨rfl, hbig⟩)⟩

end Edit

end Mwfs
