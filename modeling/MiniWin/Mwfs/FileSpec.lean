import MiniWin.Mwfs.MapSpec

/-!
# Reading and writing a file

`pwrite` fills the sectors of an inode in memory one after the other, and `pread`
gives the bytes back.
-/

namespace Mwfs

open Place

/-! ## The bytes of a file -/

/-- The `n` bytes of a file from `pos` on. -/
def View.bytes (V : View) (t : Ino) (pos n : Nat) : List UInt8 :=
  (List.range n).map fun x => V.byteAt t (pos + x)

@[simp] theorem View.length_bytes (V : View) (t : Ino) (pos n : Nat) :
    (V.bytes t pos n).length = n := by
  simp [View.bytes]

theorem View.bytes_add (V : View) (t : Ino) (pos m n : Nat) :
    V.bytes t pos (m + n) = V.bytes t pos m ++ V.bytes t (pos + m) n := by
  simp only [View.bytes, List.range_add, List.map_append, List.map_map]
  congr 1
  refine List.map_congr_left fun x _ => ?_
  simp only [Function.comp_apply, Nat.add_assoc]

/-- Bytes that lie in one sector are a run of that sector. -/
theorem View.bytes_eq_slice (V : View) (t : Ino) {pos n : Nat} (h : pos % 512 + n ≤ 512) :
    V.bytes t pos n = (V.block t (pos / 512)).slice (pos % 512) n := by
  refine List.map_congr_left fun x hx => ?_
  have hx' := List.mem_range.mp hx
  have hdiv : (pos + x) / 512 = pos / 512 := by omega
  have hmod : (pos + x) % 512 = pos % 512 + x := by omega
  rw [View.byteAt, hdiv, hmod]

/-- **The bytes of a file, from its sectors.** -/
theorem FileRep.bytes_eq {V : View} {t : Ino} {bytes : List UInt8} {aux : UInt32}
    (h : FileRep V t bytes aux) {pos n : Nat} (hn : pos + n ≤ bytes.length) :
    V.bytes t pos n = (bytes.drop pos).take n := by
  refine List.ext_getElem ?_ ?_
  · rw [View.length_bytes, List.length_take, List.length_drop]
    omega
  · intro x hx _
    rw [View.length_bytes] at hx
    simp only [View.bytes, List.getElem_map, List.getElem_range, List.getElem_take,
      List.getElem_drop]
    exact h.byte (pos + x) (by omega)

/-! ## Reading -/

section Read

variable {g : Geo} {s : St} {t : Ino}

theorem preadFrom_spec (hs : Sane g s)
    (hd : ∀ p, (view g s.disk).ref t.top p ≠ 0 → g.Data ((view g s.disk).ref t.top p))
    (pos len : Nat) (hlen : pos + len ≤ 512 * maxSectors) :
    preadFrom s t pos len = some ((view g s.disk).bytes t pos len) := by
  induction len using Nat.strong_induction_on generalizing pos with
  | _ len ih =>
    rw [preadFrom]
    by_cases h0 : len = 0
    · rw [dif_pos h0, h0]
      rfl
    · rw [dif_neg h0]
      dsimp only
      rw [bmap_read hs hd (by omega)]
      dsimp only
      -- the sector read is the block of the file, a hole being zeros
      have hblock : (if (view g s.disk).cell t (pos / 512) = 0 then some Block.zero
            else rd s ((view g s.disk).cell t (pos / 512)))
          = some ((view g s.disk).block t (pos / 512)) := by
        unfold View.block
        split
        · rfl
        · next hc =>
          have hdata := hd (datPos (pos / 512)) hc
          exact rd_data hs hdata.le hdata.lt
      rw [hblock]
      obtain ⟨n, hn, hn0, hle, hin⟩ : ∃ n, n = min (512 - pos % 512) len ∧ n ≠ 0 ∧ n ≤ len ∧
          pos % 512 + n ≤ 512 := ⟨_, rfl, by omega, by omega, by omega⟩
      rw [← hn, ih (len - n) (by omega) _ (by omega)]
      dsimp only
      rw [← View.bytes_eq_slice _ _ hin, ← View.bytes_add, Nat.add_sub_of_le hle]

/-- **Reading a file.** -/
theorem pread_spec (hs : Sane g s)
    (hd : ∀ p, (view g s.disk).ref t.top p ≠ 0 → g.Data ((view g s.disk).ref t.top p))
    (hsize : t.size ≤ 512 * maxSectors) (off len : Nat) :
    pread s t off len = some ((view g s.disk).bytes t off (min len (t.size - off))) := by
  unfold pread
  split
  · next h =>
    rw [show min len (t.size - off) = 0 by omega]
    rfl
  · exact preadFrom_spec hs hd off _ (by omega)

end Read

/-! ## Writing -/

section Write

variable {g : Geo} {G : Graph} {F : Forest} {i : Nat} {s : St} {t : Ino}

/-- The inode with its size grown. -/
theorem Edit.setSize {K : Nat → Prop} {s' : St} {t' : Ino} (h : Edit g G F i K s t s' t') {n : Nat}
    (hn : n < 4294967296) : Edit g G F i K s t s' { t' with size := n } :=
  { sane := h.sane, inv := h.inv, via := h.via, fits := { h.fits with size := hn }, type := h.type,
    aux := h.aux, ino := h.ino, cell := h.cell, block := h.block, tight := h.tight }

/-- **A data sector written.** -/
theorem Growing.write {idx : Nat} (h : Growing g G F i s t idx)
    (h0 : (view g s.disk).cell t idx ≠ 0) (b : Block) :
    ∃ s', wr s ((view g s.disk).cell t idx) b = (true, s') ∧
      Edit g G F i (fun k => k = idx) s t s' t ∧
      (view g s'.disk).cell t idx = (view g s.disk).cell t idx ∧
      (view g s'.disk).block t idx = b := by
  have hi := F.put_self i t
  have hdata := h.inv.data _ (owns_ref hi h0)
  obtain ⟨s', hs', hw⟩ := wr_data h.sane hdata.le hdata.lt b
  have href : ∀ p, (view g s'.disk).ref t.top p = (view g s.disk).ref t.top p := by
    intro p
    rw [hw.eq]
    exact h.inv.ref_write_leaf hi (isTab_datPos idx) b hi (fun r => Or.inr rfl) p
  have hcell : ∀ k, (view g s'.disk).cell t k = (view g s.disk).cell t k := fun k => href _
  have hinv : Inv g G (F.put i t) (view g s'.disk) := by
    rw [hw.eq]
    refine h.inv.write_leaf hi (isTab_datPos idx) b (fun _ _ => rfl) fun o ho => ?_
    obtain ⟨u, hu, hsub, hobj⟩ := h.inv.obj i o ho
    obtain rfl := Option.some.inj (hi.symm.trans hu)
    refine ⟨hsub, hobj.congr fun n hn => ⟨?_, fun hn0 => ?_⟩⟩
    · exact h.inv.ref_write_leaf hi (isTab_datPos idx) b hi hsub _
    · -- the data the disk has ends before the sector written
      refine Function.update_of_ne (fun hc => ?_) _ _
      have heq : (view g s.disk).cell ((view g s.disk).ino i) n = (view g s.disk).ref t.top (datPos n) :=
        (ref_of_sub hsub (datPos n)).resolve_left hn0
      have hpos := (h.inv.ref_inj hi hi (heq.symm.trans hc) (by rw [← heq]; exact hn0)).2
      have := datPos_inj hpos
      have := h.file o n ho hn
      omega
  refine ⟨s', hs', ⟨hw.sane, hinv, hw.via h.inv.rep ?_, h.fits, rfl, rfl, ?_, ?_, ?_, ?_⟩,
    hcell idx, ?_⟩
  · rw [← hw.eq]
    exact hinv.rep
  · rw [hw.eq]
    rfl
  · exact fun k _ => hcell k
  · intro k hk
    unfold View.block
    rw [hcell k]
    split
    · rfl
    · next hk0 =>
      rw [hw.eq, View.setSec_sec]
      refine Function.update_of_ne (fun hc => hk ?_) _ _
      exact datPos_inj (h.inv.ref_inj hi hi hc hk0).2
  · intro htight m hm hbit
    rw [hw.eq] at hbit ⊢
    exact (h.inv.owns_write_leaf hi (isTab_datPos idx) b m).mpr (htight m hm hbit)
  · unfold View.block
    rw [hcell idx, if_neg h0, hw.eq, View.setSec_sec]
    exact Function.update_self ..

/-- What a successful write leaves: the bytes, in sectors that are all there. -/
structure Written (V : View) (t : Ino) (off : Nat) (data : List UInt8) : Prop where
  byte : ∀ x (h : x < data.length), V.byteAt t (off + x) = data[x]
  cell : ∀ k, off ≤ 512 * k → 512 * k < off + data.length → V.cell t k ≠ 0
  room : data ≠ [] → off + data.length ≤ 512 * maxSectors

/-- **Writing a file** from a sector boundary on, at its end. All of the data is
written, or the volume is full or the file too big; and the sectors before `off`
keep what they hold. -/
theorem pwrite_spec {o : Nat} (h : Growing g G F i s t (o / 512)) (data : List UInt8)
    (hoff : o % 512 = 0 ∨ data = []) (hsize : t.size ≤ o ∨ data = []) :
    ∃ e t' s', pwrite s t o data = (e, t', s') ∧
      Edit g G F i (fun k => o ≤ 512 * k ∧ 512 * k < o + data.length) s t s' t' ∧
      ((e = .ok ∧ Written (view g s'.disk) t' o data ∧
          t'.size = if data = [] then t.size else o + data.length) ∨
        ((e = .full ∨ e = .toobig) ∧ (data.length ≤ 512 → t'.size = t.size))) := by
  induction hn : data.length using Nat.strong_induction_on generalizing o data s t with
  | _ len ih =>
    subst hn
    rw [pwrite]
    by_cases h0 : data = []
    · rw [dif_pos h0]
      refine ⟨_, _, _, rfl, Edit.refl h.sane h.inv h.fits, Or.inl ⟨rfl, ?_, by rw [if_pos h0]⟩⟩
      subst h0
      refine ⟨fun x hx => absurd hx (by simp), fun k h1 h2 => ?_, fun hc => absurd rfl hc⟩
      simp only [List.length_nil, Nat.add_zero] at h2
      omega
    · rw [dif_neg h0]
      have hoff := hoff.resolve_right h0
      have hsize := hsize.resolve_right h0
      have hpos : 0 < data.length := List.length_pos_iff.mpr h0
      obtain ⟨n, hn', hn0, hnle, hn512⟩ : ∃ n, n = min 512 data.length ∧ 0 < n ∧
          n ≤ data.length ∧ (n = 512 ∨ n = data.length) :=
        ⟨_, rfl, by omega, by omega, by omega⟩
      dsimp only
      rw [hoff, Nat.sub_zero, ← hn']
      obtain ⟨e, l, t₁, s₁, hs₁, hedit, hsz, hres⟩ := bmap_create h (n ≠ 512)
      have hK : ∀ k, k = o / 512 → o ≤ 512 * k ∧ 512 * k < o + data.length := by
        rintro k rfl
        omega
      have hedit' := hedit.mono hK
      rw [hs₁]
      rcases hres with ⟨rfl, hl0, hcell⟩ | rfl | ⟨rfl, -⟩
      · have h₁ := h.step hedit
        subst hcell
        have hdata := h₁.inv.data _ (owns_ref (Forest.put_self ..) hl0)
        dsimp only
        -- a sector not written whole is read back first
        obtain ⟨b, hb⟩ : ∃ b, (if n ≠ 512 then
            rd s₁ ((view g s₁.disk).cell t₁ (o / 512)) else some Block.zero) = some b := by
          split
          · exact ⟨_, rd_data h₁.sane hdata.le hdata.lt⟩
          · exact ⟨_, rfl⟩
        rw [hb]
        dsimp only
        obtain ⟨s₂, hs₂, hedit₂, hcell₂, hblock₂⟩ := h₁.write hl0 (b.put 0 (data.take n))
        rw [hs₂]
        have hidx : o / 512 < maxSectors := by
          by_contra hc
          exact hl0 ((view g s₁.disk).cell_eq_zero t₁ (by omega))
        have hmax : maxSectors = 16520 := rfl
        have hszeq : (if t₁.size < o + n then o + n else t₁.size) = o + n := by
          rw [if_pos (by rw [hsz]; omega)]
        rw [hszeq]
        have hedit₃ := (hedit'.trans (hedit₂.mono hK)).setSize (n := o + n) (by omega)
        have hgrow : Growing g G F i s₂ { t₁ with size := o + n } ((o + n) / 512) := by
          have := h.step hedit₃
          refine ⟨this.sane, this.inv, this.fits, fun o m ho hm => ?_⟩
          have := this.file o m ho hm
          omega
        have hnext : (o + n) % 512 = 0 ∨ data.drop n = [] := by
          rw [List.drop_eq_nil_iff]
          omega
        obtain ⟨e, t', s', hs', hedit₄, hres₄⟩ := ih (data.drop n).length
          (by rw [List.length_drop]; omega) hgrow (data.drop n) hnext (Or.inl (Nat.le_refl _)) rfl
        have hdrop : (data.drop n).length = data.length - n := List.length_drop
        have hlen : o + n + (data.drop n).length = o + data.length := by omega
        rw [hlen] at hedit₄
        refine ⟨e, t', s', hs', hedit₃.trans (hedit₄.mono fun k hk => ⟨by omega, hk.2⟩), ?_⟩
        rcases hres₄ with ⟨rfl, hw, hsize'⟩ | ⟨he, hsize'⟩
        · refine Or.inl ⟨rfl, ⟨fun x hx => ?_, fun k hk hk' => ?_, fun _ => ?_⟩, ?_⟩
          · by_cases hxn : x < n
            · -- written in this pass, and kept by the later ones
              have hdiv : (o + x) / 512 = o / 512 := by omega
              have hmod : (o + x) % 512 = 0 + x := by omega
              rw [View.byteAt, hdiv, hmod, hedit₄.block (o / 512) (by omega)]
              have hx' : x < (data.take n).length := by rw [List.length_take]; omega
              show (view g s₂.disk).block t₁ (o / 512) (0 + x) = _
              rw [hblock₂, Block.put_apply_of_mem b hx', List.getElem_take]
            · have := hw.byte (x - n) (by omega)
              rw [List.getElem_drop] at this
              rw [show o + x = o + n + (x - n) by omega, this]
              congr 1
              omega
          · by_cases hkn : o + n ≤ 512 * k
            · exact hw.cell k hkn (by rw [hlen]; exact hk')
            · have hk0 : k = o / 512 := by omega
              subst hk0
              have hne : (view g s₂.disk).cell t₁ (o / 512) ≠ 0 := by rw [hcell₂]; exact hl0
              rw [hedit₄.cell _ hne]
              exact hne
          · by_cases hd : data.drop n = []
            · rw [hd] at hlen
              simp only [List.length_nil, Nat.add_zero] at hlen
              omega
            · have := hw.room hd
              omega
          · rw [hsize', if_neg h0]
            split
            · next hd =>
              rw [hd, List.length_nil, Nat.add_zero] at hlen
              exact hlen
            · exact hlen
        · refine Or.inr ⟨he, fun hle => ?_⟩
          -- a failure comes in the first pass, or there was more than one sector to write
          have hd : data.drop n = [] := by
            rw [List.drop_eq_nil_iff]
            omega
          rw [hd, pwrite, dif_pos rfl] at hs'
          obtain ⟨rfl, -, -⟩ := Prod.mk.injEq .. ▸ hs'
          simp at he
      · exact ⟨_, _, _, rfl, hedit', Or.inr ⟨Or.inl rfl, fun _ => hsz⟩⟩
      · exact ⟨_, _, _, rfl, hedit', Or.inr ⟨Or.inr rfl, fun _ => hsz⟩⟩

end Write

end Mwfs
