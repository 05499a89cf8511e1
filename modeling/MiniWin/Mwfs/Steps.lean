import MiniWin.Mwfs.Owner

/-!
# One write at a time

The steps an operation is made of, each keeping `Inv`: a bit of the bitmap, a
sector nobody owns, an inode outside the graph; a sector linked into an empty
pointer, in an inode in memory or in a table on the disk; a data sector
rewritten; an inode stored.
-/

namespace Mwfs

open Place

variable {g : Geo} {G : Graph} {F : Forest} {V : View}

/-! ## What nobody owns -/

/-- Marking a sector. -/
theorem Inv.setBit_on (h : Inv g G F V) {l : Nat} (hl : g.Data l) :
    Inv g G F (V.setBit l true) := by
  refine h.congr rfl ?_ (fun _ _ _ => rfl) (fun _ _ => rfl) ?_
  · intro m hm
    have hne : m ≠ l := fun hml => hm (by rw [hml]; exact ⟨hl.le, hl.lt⟩)
    exact Function.update_of_ne hne _ _
  · intro m hm
    by_cases hml : m = l
    · subst hml
      rw [h.used m hm]
      exact Function.update_self ..
    · exact Function.update_of_ne hml _ _

/-- Giving back a sector nobody owns. -/
theorem Inv.setBit_off (h : Inv g G F V) {l : Nat} (hl : g.data_lba ≤ l ∧ l < g.sectors)
    (hown : ¬ Owns V F l) : Inv g G F (V.setBit l false) := by
  refine h.congr rfl ?_ (fun _ _ _ => rfl) (fun _ _ => rfl) ?_
  · intro m hm
    have hne : m ≠ l := fun hml => hm (by rw [hml]; exact hl)
    exact Function.update_of_ne hne _ _
  · intro m hm
    have hne : m ≠ l := fun hml => hown (by rw [← hml]; exact hm)
    exact Function.update_of_ne hne _ _

/-- Writing a sector nobody owns. -/
theorem Inv.setSec (h : Inv g G F V) {l : Nat} (hown : ¬ Owns V F l) (b : Block) :
    Inv g G F (V.setSec l b) := by
  refine h.congr rfl (fun _ _ => rfl) (fun _ _ _ => rfl) ?_ (fun _ _ => rfl)
  intro m hm
  have hne : m ≠ l := fun hml => hown (by rw [← hml]; exact hm)
  exact Function.update_of_ne hne _ _

/-- Writing an inode that stands for nothing. -/
theorem Inv.setIno (h : Inv g G F V) {i : Nat} (hi : G i = none) (t : Ino) :
    Inv g G F (V.setIno i t) := by
  refine h.congr rfl (fun _ _ => rfl) ?_ (fun _ _ => rfl) (fun _ _ => rfl)
  intro j o hj
  have hne : j ≠ i := fun hji => by rw [hji, hi] at hj; exact absurd hj (by simp)
  exact Function.update_of_ne hne _ _

theorem owns_setBit {l m : Nat} {on : Bool} : Owns (V.setBit l on) F m ↔ Owns V F m := Iff.rfl

theorem owns_setSec {l m : Nat} {b : Block} (hown : ¬ Owns V F l) :
    Owns (V.setSec l b) F m ↔ Owns V F m := by
  refine owns_iff_of_sec (fun n hn => ?_) m
  have hne : n ≠ l := fun hnl => hown (by rw [← hnl]; exact hn)
  exact Function.update_of_ne hne _ _

/-- A sector whose bit is clear is nobody's. -/
theorem Inv.not_owns (h : Inv g G F V) {l : Nat} (hbit : V.bit l = false) : ¬ Owns V F l :=
  fun hl => by rw [h.used l hl] at hbit; exact absurd hbit (by simp)

/-- Two owned places with the same sector are the same place of the same owner. -/
theorem Inv.ref_inj (h : Inv g G F V) {i j : Nat} {u w : Nat → Nat} (hi : F i = some u)
    (hj : F j = some w) {p q : Place Nat} (hpq : V.ref u p = V.ref w q) (h0 : V.ref u p ≠ 0) :
    i = j ∧ p = q :=
  h.sep i j u w p q hi hj hpq h0

/-! ## Linking a sector -/

/-- **A sector linked at a root**, in an inode in memory. -/
theorem Inv.link_root (h : Inv g G F V) {i r l : Nat} {u : Nat → Nat} (hi : F i = some u)
    (hr : u r = 0) (hl : g.Data l) (hl0 : l ≠ 0) (hbit : V.bit l = true) (hown : ¬ Owns V F l)
    (htab : isTab (.root r) = true → V.sec l = Block.zero) :
    Inv g G (Function.update F i (some (Function.update u r l))) V := by
  have href : ∀ p, Place.ref isTab V.tbl (Function.update u r l) p
      = if p = .root r then l else Place.ref isTab V.tbl u p :=
    ref_link_root hr fun ht => View.tbl_zero (htab ht)
  have hlink := owned_link (F := F) hi (show Place.ref isTab V.tbl u (.root r) = 0 from hr) hl0
    href (fun _ _ _ _ _ => rfl)
  refine ⟨h.sb, h.pad, h.sep.link hi hown href (fun _ _ _ _ _ => rfl), ?_, ?_, ?_⟩
  · intro m hm
    rcases (hlink m).mp hm with rfl | hm'
    · exact hl
    · exact h.data m hm'
  · intro m hm
    rcases (hlink m).mp hm with rfl | hm'
    · exact hbit
    · exact h.used m hm'
  · intro j o hj
    obtain ⟨w, hw, hsub, ho⟩ := h.obj j o hj
    by_cases hji : j = i
    · subst hji
      obtain rfl := Option.some.inj (hi.symm.trans hw)
      refine ⟨_, Function.update_self .., fun r' => ?_, ho⟩
      by_cases hr' : r' = r
      · subst hr'
        exact Or.inl ((hsub r').elim id fun he => he.trans hr)
      · rw [Function.update_of_ne hr']
        exact hsub r'
    · exact ⟨w, by rw [Function.update_of_ne hji]; exact hw, hsub, ho⟩

/-- The pointers of a table with one of them rewritten. -/
theorem View.tbl_put32 (V : View) {q l k : Nat} (hk : k < ptrs) (hl : l < 4294967296)
    (m k' : Nat) :
    (V.setSec q ((V.sec q).put32 (4 * k) l)).tbl m k'
      = if m = q ∧ k' = k then l else V.tbl m k' := by
  unfold View.tbl
  by_cases hm : m = q
  · subst hm
    rw [View.setSec_sec, Function.update_self, Block.le32_put32_index, Nat.mod_eq_of_lt hl]
    by_cases hk' : k' = k
    · subst hk'
      rw [if_pos hk, if_pos rfl, if_pos ⟨rfl, rfl⟩]
    · rw [if_neg hk', if_neg (show ¬(m = m ∧ k' = k) from fun hc => hk' hc.2)]
  · rw [View.setSec_sec, Function.update_of_ne hm,
      if_neg (show ¬(m = q ∧ k' = k) from fun hc => hm hc.1)]

section LinkEntry

variable {i l k : Nat} {u : Nat → Nat} {q : Place Nat}

/-- What the write of a table entry does to the places of its owner, and to
those of the owner's inode on the disk, which may not have the table yet. -/
theorem Inv.ref_link_entry_sub (h : Inv g G F V) (hi : F i = some u) (hq : isTab q = true)
    (hq0 : V.ref u q ≠ 0) (hk : k < ptrs) (h0 : V.tbl (V.ref u q) k = 0) (hl : l < 4294967296)
    (hown : ¬ Owns V F l) (htab : isTab (.entry q k) = true → V.sec l = Block.zero)
    {w : Nat → Nat} (hw : ∀ r, w r = 0 ∨ w r = u r) (p : Place Nat) :
    (V.setSec (V.ref u q) ((V.sec (V.ref u q)).put32 (4 * k) l)).ref w p
      = if p = .entry q k ∧ V.ref w q ≠ 0 then l else V.ref w p := by
  have htbl := V.tbl_put32 (q := V.ref u q) hk hl
  have hsub : ∀ p', V.ref w p' = 0 ∨ V.ref w p' = V.ref u p' := ref_of_sub hw
  have hinj : ∀ p', V.ref w p' = V.ref u q → p' = q := by
    intro p' hp'
    have hne : V.ref w p' ≠ 0 := by rw [hp']; exact hq0
    have heq := (hsub p').resolve_left hne
    exact (h.ref_inj hi hi (by rw [← heq, hp']) (by rw [← heq]; exact hne)).2
  by_cases hwq : V.ref w q = 0
  · rw [if_neg (fun hc => hc.2 hwq)]
    refine View.ref_congr_tbl (fun p' _ _ k' => ?_) p
    rw [htbl, if_neg]
    rintro ⟨hp', -⟩
    have := hinj p' hp'
    subst this
    exact hq0 (hp'.symm.trans hwq)
  · have heq : V.ref w q = V.ref u q := (hsub q).resolve_left hwq
    simp only [ne_eq, hwq, not_false_eq_true, and_true]
    refine ref_link_entry hq hwq (fun p' hp' => hinj p' (hp'.trans heq)) ?_ ?_ ?_ ?_ p
    · show V.tbl (V.ref w q) k = 0
      rw [heq, h0]
    · intro m k'
      show View.tbl _ m k' = if m = V.ref w q ∧ k' = k then l else V.tbl m k'
      rw [heq]
      exact htbl m k'
    · intro hc
      exact hown (by rw [hc.trans heq]; exact owns_ref hi hq0)
    · intro ht
      exact View.tbl_zero (htab ht)

/-- The table is nobody else's, so the other owners keep their places. -/
theorem Inv.ref_link_entry_other (h : Inv g G F V) (hi : F i = some u) (hk : k < ptrs)
    (hlt : l < 4294967296) {j : Nat} {w w' : Nat → Nat} (hji : j ≠ i) (hj : F j = some w)
    (hw : ∀ r, w' r = 0 ∨ w' r = w r) (p : Place Nat) :
    (V.setSec (V.ref u q) ((V.sec (V.ref u q)).put32 (4 * k) l)).ref w' p = V.ref w' p := by
  refine View.ref_congr_tbl (fun p' _ hp' k' => ?_) p
  rw [V.tbl_put32 hk hlt, if_neg]
  rintro ⟨hc, -⟩
  have heq : V.ref w' p' = V.ref w p' := (ref_of_sub hw p').resolve_left hp'
  exact hji (h.ref_inj hj hi (heq.symm.trans hc) (by rw [← heq]; exact hp')).1

section

variable (h : Inv g G F V) (hi : F i = some u) (hq : isTab q = true) (hq0 : V.ref u q ≠ 0)
  (hk : k < ptrs) (h0 : V.tbl (V.ref u q) k = 0) (hl0 : l ≠ 0) (hlt : l < 4294967296)
  (hown : ¬ Owns V F l) (htab : isTab (.entry q k) = true → V.sec l = Block.zero)

include h hi hq hq0 hk h0 hlt hown htab

theorem Inv.ref_link_entry (p : Place Nat) :
    (V.setSec (V.ref u q) ((V.sec (V.ref u q)).put32 (4 * k) l)).ref u p
      = if p = .entry q k then l else V.ref u p := by
  rw [h.ref_link_entry_sub hi hq hq0 hk h0 hlt hown htab (fun r => Or.inr rfl) p]
  simp only [hq0, ne_eq, not_false_eq_true, and_true]

include hl0

theorem Inv.owns_link_entry (m : Nat) :
    Owns (V.setSec (V.ref u q) ((V.sec (V.ref u q)).put32 (4 * k) l)) F m
      ↔ m = l ∨ Owns V F m := by
  have hz : V.ref u (.entry q k) = 0 := by
    rw [View.ref, Place.ref_entry isTab V.tbl u k hq hq0]
    exact h0
  have hlink := owned_link (F := F) hi hz hl0
    (h.ref_link_entry hi hq hq0 hk h0 hlt hown htab)
    (fun j w hji hj p => h.ref_link_entry_other hi hk hlt hji hj (fun r => Or.inr rfl) p) m
  rwa [← hi, Function.update_eq_self i F] at hlink

end

/-- **A sector linked in a table**, in one write of the table. The data of the
owner, if it is part of the graph, does not reach that far yet. -/
theorem Inv.link_entry (h : Inv g G F V) (hi : F i = some u) (hq : isTab q = true)
    (hq0 : V.ref u q ≠ 0) (hk : k < ptrs) (h0 : V.tbl (V.ref u q) k = 0) (hl : g.Data l)
    (hl0 : l ≠ 0) (hlt : l < 4294967296) (hbit : V.bit l = true) (hown : ¬ Owns V F l)
    (htab : isTab (.entry q k) = true → V.sec l = Block.zero)
    (hfile : ∀ o n, G i = some o → 512 * n < (V.ino i).size → datPos n ≠ .entry q k) :
    Inv g G F (V.setSec (V.ref u q) ((V.sec (V.ref u q)).put32 (4 * k) l)) := by
  set V' := V.setSec (V.ref u q) ((V.sec (V.ref u q)).put32 (4 * k) l) with hV'
  have hlink : ∀ m, Owns V' F m ↔ m = l ∨ Owns V F m :=
    h.owns_link_entry hi hq hq0 hk h0 hl0 hlt hown htab
  have hsep : Sep isTab V'.tbl F := by
    have := Sep.link (F := F) h.sep hi hown (h.ref_link_entry hi hq hq0 hk h0 hlt hown htab)
      (fun j w hji hj p => h.ref_link_entry_other hi hk hlt hji hj (fun r => Or.inr rfl) p)
    rwa [← hi, Function.update_eq_self i F] at this
  -- a data sector is not the table written
  have hleaf : ∀ j o n, G j = some o → V.cell (V.ino j) n ≠ 0 →
      V'.sec (V.cell (V.ino j) n) = V.sec (V.cell (V.ino j) n) := by
    intro j o n hj hn
    obtain ⟨w, hw, href⟩ := h.ref_ino hj
    have heq := (href (datPos n)).resolve_left hn
    refine Function.update_of_ne (fun hc => ?_) _ _
    have hpos := (h.ref_inj hw hi (heq.symm.trans hc) (by rw [← heq]; exact hn)).2
    rw [← hpos, isTab_datPos] at hq
    exact absurd hq (by simp)
  refine ⟨h.sb, h.pad, hsep, ?_, ?_, ?_⟩
  · intro m hm
    rcases (hlink m).mp hm with rfl | hm'
    · exact hl
    · exact h.data m hm'
  · intro m hm
    rcases (hlink m).mp hm with rfl | hm'
    · exact hbit
    · exact h.used m hm'
  · intro j o hj
    obtain ⟨w, hw, hwsub, ho⟩ := h.obj j o hj
    refine ⟨w, hw, hwsub, ho.congr fun n hn => ⟨?_, hleaf j o n hj⟩⟩
    by_cases hji : j = i
    · subst hji
      obtain rfl := Option.some.inj (hi.symm.trans hw)
      show V'.ref _ _ = _
      rw [h.ref_link_entry_sub hi hq hq0 hk h0 hlt hown htab hwsub,
        if_neg (fun hc => hfile o n hj hn hc.1)]
      rfl
    · exact h.ref_link_entry_other hi hk hlt hji hw hwsub _

end LinkEntry

/-! ## Rewriting a data sector -/

/-- A data sector is nobody's table, so rewriting it moves no pointer. -/
theorem Inv.ref_write_leaf (h : Inv g G F V) {i : Nat} {u : Nat → Nat} (hi : F i = some u)
    {p : Place Nat} (hp : isTab p = false) (b : Block) {j : Nat}
    {w w' : Nat → Nat} (hj : F j = some w) (hw : ∀ r, w' r = 0 ∨ w' r = w r) (q : Place Nat) :
    (V.setSec (V.ref u p) b).ref w' q = V.ref w' q := by
  refine View.ref_congr_sec (fun q' ht hq' => ?_) q
  have hne : V.ref w' q' ≠ V.ref u p := by
    intro hc
    have heq : V.ref w' q' = V.ref w q' := (ref_of_sub hw q').resolve_left hq'
    have hpos := (h.ref_inj hj hi (heq.symm.trans hc) (by rw [← heq]; exact hq')).2
    rw [← hpos, ht] at hp
    exact absurd hp (by simp)
  exact Function.update_of_ne hne _ _

/-- **A data sector rewritten.** The object of its owner is checked anew; the
others are as they were. -/
theorem Inv.write_leaf (h : Inv g G F V) {i : Nat} {u : Nat → Nat} (hi : F i = some u)
    {p : Place Nat} (hp : isTab p = false) (b : Block) {G' : Graph}
    (hG : ∀ j, j ≠ i → G' j = G j)
    (ho : ∀ o, G' i = some o → (∀ r, (V.ino i).top r = 0 ∨ (V.ino i).top r = u r) ∧
      ObjRep (V.setSec (V.ref u p) b) (V.ino i) o) :
    Inv g G' F (V.setSec (V.ref u p) b) := by
  have href : ∀ j w, F j = some w → ∀ q, (V.setSec (V.ref u p) b).ref w q = V.ref w q :=
    fun j w hj q => h.ref_write_leaf hi hp b hj (fun r => Or.inr rfl) q
  have hown : ∀ l, Owns (V.setSec (V.ref u p) b) F l → Owns V F l := fun l =>
    (owns_iff_of_ref href l).mp
  refine ⟨h.sb, h.pad, h.sep_of_ref href, fun l hl => h.data l (hown l hl),
    fun l hl => h.used l (hown l hl), fun j o hj => ?_⟩
  by_cases hji : j = i
  · subst hji
    exact ⟨u, hi, ho o hj⟩
  · rw [hG j hji] at hj
    obtain ⟨w, hw, hsub, hoj⟩ := h.obj j o hj
    refine ⟨w, hw, hsub, hoj.congr fun n _ => ⟨h.ref_write_leaf hi hp b hw hsub _, fun hn => ?_⟩⟩
    refine Function.update_of_ne (fun hc => ?_) _ _
    have heq : V.cell (V.ino j) n = V.ref w (datPos n) := (ref_of_sub hsub _).resolve_left hn
    exact hji (h.ref_inj hw hi (heq.symm.trans hc) (by rw [← heq]; exact hn)).1

theorem Inv.owns_write_leaf (h : Inv g G F V) {i : Nat} {u : Nat → Nat} (hi : F i = some u)
    {p : Place Nat} (hp : isTab p = false) (b : Block) (l : Nat) :
    Owns (V.setSec (V.ref u p) b) F l ↔ Owns V F l := by
  refine owns_iff_of_ref (fun j w hj q => ?_) l
  exact h.ref_write_leaf hi hp b hj (fun r => Or.inr rfl) q

/-- The sectors of a file with one of them rewritten. -/
theorem Inv.block_write_leaf (h : Inv g G F V) {i : Nat} {t : Ino} (hi : F i = some t.top) {k : Nat}
    (hk : V.cell t k ≠ 0) (b : Block) (n : Nat) :
    (V.setSec (V.cell t k) b).block t n = if n = k then b else V.block t n := by
  have hcell : (V.setSec (V.cell t k) b).cell t n = V.cell t n :=
    h.ref_write_leaf hi (isTab_datPos k) b hi (fun r => Or.inr rfl) _
  unfold View.block
  rw [hcell]
  by_cases hn : n = k
  · subst hn
    rw [if_neg hk, if_pos rfl, View.setSec_sec, Function.update_self]
  · rw [if_neg hn]
    split
    · rfl
    · next hn0 =>
      rw [View.setSec_sec]
      refine Function.update_of_ne (fun hc => hn ?_) _ _
      exact datPos_inj (h.ref_inj hi hi hc hn0).2

/-! ## Storing an inode -/

/-- **An inode stored.** From here on it stands for what its sectors spell. -/
theorem Inv.commit (h : Inv g G F V) {i : Nat} {t : Ino} (hi : F i = some t.top) {o : Obj}
    (ho : ObjRep V t o) : Inv g (Function.update G i (some o)) F (V.setIno i t) := by
  refine ⟨h.sb, h.pad, h.sep, h.data, h.used, ?_⟩
  intro j o' hj
  by_cases hji : j = i
  · subst hji
    rw [Function.update_self, Option.some.injEq] at hj
    subst hj
    refine ⟨_, hi, ?_, ?_⟩
    · intro r
      rw [View.setIno_ino, Function.update_self]
      exact Or.inr rfl
    · rw [View.setIno_ino, Function.update_self]
      exact ho.congr fun _ _ => ⟨rfl, fun _ => rfl⟩
  · rw [Function.update_of_ne hji] at hj
    obtain ⟨w, hw, hsub, hoj⟩ := h.obj j o' hj
    rw [View.setIno_ino, Function.update_of_ne hji]
    exact ⟨w, hw, hsub, hoj.congr fun _ _ => ⟨rfl, fun _ => rfl⟩⟩

end Mwfs
