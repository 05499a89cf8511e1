import Mathlib.Data.List.Perm.Basic
import Mathlib.Data.List.TakeWhile
import MiniWin.Mwfs.FreeSpec

/-!
# Directories

A directory is a sequence of slots. Here each reader of `Mwfs.Dir` is shown to
compute what it should from the slots, and each writer to change one of them.
-/

namespace Mwfs

open Place

/-! ## Entries -/

/-- Only the 64 bytes of an entry decide it. -/
theorem dentSlot_congr {b c : Block} {e : Nat}
    (h : ∀ i, e * dentSize ≤ i ∧ i < e * dentSize + dentSize → b i = c i) :
    dentSlot b e = dentSlot c e := by
  have hsz : dentSize = 64 := rfl
  have hino : dentIno b e = dentIno c e := Block.le32_congr fun i hi => h _ (by omega)
  have hty : b (e * dentSize + 4) = c (e * dentSize + 4) := h _ (by omega)
  have hlen : b (e * dentSize + 5) = c (e * dentSize + 5) := h _ (by omega)
  have hname : b.slice (e * dentSize + 6) (min (b (e * dentSize + 5)).toNat nameMax)
      = c.slice (e * dentSize + 6) (min (c (e * dentSize + 5)).toNat nameMax) := by
    rw [hlen]
    refine Block.slice_congr fun i hi => h _ ?_
    have : nameMax = 31 := rfl
    omega
  unfold dentSlot dentAt
  rw [hino, hty, hname]

theorem dentSlot_ino_ne_zero {b : Block} {e : Nat} {d : Dent} (h : dentSlot b e = some d) :
    d.ino ≠ 0 ∧ dentIno b e = d.ino ∧ dentAt b e = d := by
  unfold dentSlot at h
  split at h
  · exact absurd h (by simp)
  · next h0 =>
    obtain rfl := Option.some.inj h
    exact ⟨h0, rfl, rfl⟩

/-- An entry other than the one written. -/
theorem dentSlot_put_ne {b : Block} {e e' : Nat} {src : List UInt8} (hne : e' ≠ e)
    (hlen : src.length ≤ dentSize) :
    dentSlot (b.put (e * dentSize) src) e' = dentSlot b e' := by
  refine dentSlot_congr fun i hi => Block.put_apply_of_not_mem b ?_
  simp only [dentSize] at hi hlen ⊢
  omega

theorem length_dentBytes (ino type : Nat) (name : Name) :
    (dentBytes ino type name).length = dentSize := by
  have hlen : (name.take nameMax).length ≤ 31 := by
    rw [List.length_take]
    exact Nat.min_le_left _ _
  have hsz : dentSize = 64 := rfl
  simp only [dentBytes, List.length_append, List.length_cons, List.length_nil,
    List.length_replicate, hsz]
  omega

theorem nameChar_zero : nameChar 0 = false := by decide

/-- What `mwfs_name_ok` allows can be stored and read back. -/
theorem nameOk_bounds {name : Name} (h : nameOk name = true) :
    name.length ≤ nameMax ∧ cstr name = name := by
  simp only [nameOk, Bool.and_eq_true, decide_eq_true_eq] at h
  refine ⟨h.1.1.1.1.2, List.takeWhile_eq_self_iff.mpr fun c hc => ?_⟩
  have hall := List.all_eq_true.mp h.1.1.1.1.1 c hc
  rw [bne_iff_ne]
  rintro rfl
  rw [nameChar_zero] at hall
  exact absurd hall (by simp)

/-- **The entry written is the entry read.** -/
theorem dentSlot_fill {ino type : Nat} {name : Name} (h0 : ino ≠ 0) (hlt : ino < 4294967296)
    (hty : type < 256) (hname : nameOk name = true) (b : Block) (e e' : Nat) :
    dentSlot (dentFill b e ino type name) e'
      = if e' = e then some ⟨ino, type, name⟩ else dentSlot b e' := by
  split
  · next he =>
    subst he
    obtain ⟨hlen, hcstr⟩ := nameOk_bounds hname
    have htake : name.take nameMax = name := List.take_of_length_le hlen
    have hsz : dentSize = 64 := rfl
    have hmax : nameMax = 31 := rfl
    have hlenB := length_dentBytes ino type name
    -- the bytes of the entry, one after the other
    have hbyte : ∀ i (hi : i < (dentBytes ino type name).length),
        dentFill b e' ino type name (e' * dentSize + i) = (dentBytes ino type name)[i] :=
      fun i hi => Block.put_apply_of_mem b hi
    have hino : dentIno (dentFill b e' ino type name) e' = ino := by
      have h := hbyte 0 (by omega)
      rw [Nat.add_zero] at h
      rw [dentIno, Block.le32, h, hbyte 1 (by omega), hbyte 2 (by omega), hbyte 3 (by omega)]
      exact (Block.byteOf_sum ino).trans (Nat.mod_eq_of_lt hlt)
    have htype : (dentFill b e' ino type name (e' * dentSize + 4)).toNat = type := by
      rw [hbyte 4 (by omega)]
      show (UInt8.ofNat type).toNat = type
      rw [UInt8.toNat_ofNat']
      exact Nat.mod_eq_of_lt hty
    have hnlen : (dentFill b e' ino type name (e' * dentSize + 5)).toNat = name.length := by
      rw [hbyte 5 (by omega)]
      show (UInt8.ofNat (name.take nameMax).length).toNat = name.length
      rw [htake, UInt8.toNat_ofNat']
      exact Nat.mod_eq_of_lt (by omega)
    have hslice : (dentFill b e' ino type name).slice (e' * dentSize + 6) name.length = name := by
      refine List.ext_getElem (by simp) fun i hi hi' => ?_
      rw [Block.getElem_slice, Nat.add_assoc, hbyte (6 + i) (by omega)]
      unfold dentBytes
      rw [List.getElem_append_left (by
          simp only [List.length_append, List.length_cons, List.length_nil, htake]
          omega),
        List.getElem_append_right (by simp)]
      simp [htake]
    unfold dentSlot dentAt
    rw [hino, if_neg h0, htype, hnlen, Nat.min_eq_left hlen, hslice, hcstr]
  · next he => exact dentSlot_put_ne he (Nat.le_of_eq (length_dentBytes ino type name))

theorem dentSlot_zero (e : Nat) : dentSlot Block.zero e = none := rfl

theorem dentSlot_clear (b : Block) (e e' : Nat) :
    dentSlot (dentClear b e) e' = if e' = e then none else dentSlot b e' := by
  split
  · next he =>
    subst he
    rw [← dentSlot_zero e']
    refine dentSlot_congr fun i hi => ?_
    obtain ⟨j, rfl⟩ : ∃ j, i = e' * dentSize + j := ⟨i - e' * dentSize, by omega⟩
    rw [dentClear, Block.put_apply_of_mem b (by rw [List.length_replicate]; omega)]
    simp
  · next he => exact dentSlot_put_ne he (by simp)

/-- **Retargeting changes the inode number of one entry.** -/
theorem dentSlot_retarget {ino : Nat} (h0 : ino ≠ 0) (hlt : ino < 4294967296) (b : Block)
    (e e' : Nat) {d : Dent} (hd : dentSlot b e = some d) :
    dentSlot (b.put32 (e * dentSize) ino) e'
      = if e' = e then some { d with ino := ino } else dentSlot b e' := by
  have hsz : dentSize = 64 := rfl
  split
  · next he =>
    subst he
    obtain ⟨-, -, rfl⟩ := dentSlot_ino_ne_zero hd
    have hino : dentIno (b.put32 (e' * dentSize) ino) e' = ino := by
      rw [dentIno, Block.le32_put32]
      exact Nat.mod_eq_of_lt hlt
    have hrest : ∀ i, 4 ≤ i → b.put32 (e' * dentSize) ino (e' * dentSize + i)
        = b (e' * dentSize + i) :=
      fun i hi => Block.putWords_apply_of_not_mem b _ (by omega)
    unfold dentSlot dentAt
    rw [hino, if_neg h0, hrest 4 (by omega), hrest 5 (by omega)]
    congr 3
    refine Block.slice_congr fun i _ => ?_
    rw [Nat.add_assoc]
    exact hrest (6 + i) (by omega)
  · next he =>
    refine dentSlot_congr fun i hi => Block.putWords_apply_of_not_mem b _ ?_
    simp only [dentSize] at hi ⊢
    omega

/-! ## Slots -/

/-- The used entries of a directory, in order. -/
def ents (slots : List (Option Dent)) : List Dent := slots.filterMap id

theorem mem_ents {slots : List (Option Dent)} {e : Dent} : e ∈ ents slots ↔ some e ∈ slots := by
  simp [ents]

theorem ents_append (a b : List (Option Dent)) : ents (a ++ b) = ents a ++ ents b :=
  List.filterMap_append

/-- **One slot changed.** Up to their order, the entries lose the one that was
there and gain the new one. -/
theorem ents_set {slots : List (Option Dent)} {x : Nat} {old : Option Dent}
    (h : slots[x]? = some old) : ∃ rest, (ents slots).Perm (old.toList ++ rest) ∧
      ∀ new : Option Dent, (ents (slots.set x new)).Perm (new.toList ++ rest) := by
  obtain ⟨hx, hold⟩ := List.getElem?_eq_some_iff.mp h
  have hone : ∀ o : Option Dent, ents [o] = o.toList := by
    intro o
    cases o <;> rfl
  have hmid : ∀ (a : List Dent) (o : Option Dent) (b : List Dent),
      (a ++ (o.toList ++ b)).Perm (o.toList ++ (a ++ b)) := fun a o b => by
    rw [← List.append_assoc, ← List.append_assoc]
    exact List.perm_append_comm.append_right b
  have hset : ∀ new, slots.set x new = slots.take x ++ ([new] ++ slots.drop (x + 1)) :=
    fun new => List.set_eq_take_append_cons_drop.trans (if_pos hx)
  refine ⟨ents (slots.take x) ++ ents (slots.drop (x + 1)), ?_, fun new => ?_⟩
  · have hself : slots = slots.take x ++ ([old] ++ slots.drop (x + 1)) := by
      rw [← hset old, ← hold, List.set_getElem_self]
    conv_lhs => rw [hself]
    rw [ents_append, ents_append, hone]
    exact hmid _ _ _
  · rw [hset, ents_append, ents_append, hone]
    exact hmid _ _ _

/-- One slot freed: the other entries stay in their order. -/
theorem ents_set_none {slots : List (Option Dent)} {x : Nat} {e : Dent}
    (h : slots[x]? = some (some e)) :
    ∃ a b, ents slots = a ++ e :: b ∧ ents (slots.set x none) = a ++ b := by
  obtain ⟨hx, hold⟩ := List.getElem?_eq_some_iff.mp h
  refine ⟨ents (slots.take x), ents (slots.drop (x + 1)), ?_, ?_⟩
  · conv_lhs => rw [← List.take_append_drop x slots, List.drop_eq_getElem_cons hx, hold]
    exact ents_append _ _
  · rw [List.set_eq_take_append_cons_drop, if_pos hx]
    exact ents_append _ _

/-- The slots of sectors `ks` of a directory. -/
def View.slotsOf (V : View) (t : Ino) (ks : List Nat) : List (Option Dent) :=
  ks.flatMap fun k => (List.range 8).map (dentSlot (V.block t k))

theorem View.slotsOf_cons (V : View) (t : Ino) (k : Nat) (ks : List Nat) :
    V.slotsOf t (k :: ks) = (List.range 8).map (dentSlot (V.block t k)) ++ V.slotsOf t ks :=
  List.flatMap_cons

theorem View.slotsOf_range (V : View) (t : Ino) (m : Nat) :
    V.slotsOf t (List.range m)
      = (List.range (8 * m)).map fun x => dentSlot (V.block t (x / 8)) (x % 8) := by
  induction m with
  | zero => rfl
  | succ m ih =>
    unfold View.slotsOf at ih ⊢
    rw [List.range_succ (n := m), List.flatMap_append, ih, Nat.mul_succ, List.range_add, List.map_append]
    congr 1
    rw [List.flatMap_singleton, List.map_map]
    refine List.map_congr_left fun e he => ?_
    have he' := List.mem_range.mp he
    show dentSlot (V.block t m) e = dentSlot (V.block t ((8 * m + e) / 8)) ((8 * m + e) % 8)
    have h1 : (8 * m + e) / 8 = m := by omega
    have h2 : (8 * m + e) % 8 = e := by omega
    rw [h1, h2]

/-- The sectors of a directory hold its slots, one after the other. -/
theorem DirRep.slots_eq {V : View} {t : Ino} {slots : List (Option Dent)} (h : DirRep V t slots) :
    slots = V.slotsOf t (dirSectors t) := by
  obtain ⟨m, hm⟩ := h.dvd
  have hsz := h.size
  have hsec : (t.size + 511) / 512 = m := by omega
  rw [dirSectors, hsec, View.slotsOf_range]
  refine List.ext_getElem (by simp [hm]) fun x hx _ => ?_
  rw [List.getElem_map, List.getElem_range]
  exact h.slot x hx

theorem DirRep.mem_sectors {V : View} {t : Ino} {slots : List (Option Dent)} (h : DirRep V t slots)
    {k : Nat} (hk : k ∈ dirSectors t) : 8 * k < slots.length := by
  have hsz := h.size
  have := List.mem_range.mp hk
  omega

/-! ## Reading a directory -/

section Read

variable {g : Geo} {s : St} {t : Ino} {ks : List Nat}

/-- What the readers need of the sectors they go through. -/
structure Loads (s : St) (V : View) (t : Ino) (ks : List Nat) : Prop where
  load : ∀ k ∈ ks, dirLoad s t k = .ok (V.cell t k, V.block t k)

theorem Loads.tail {V : View} {k : Nat} (h : Loads s V t (k :: ks)) : Loads s V t ks :=
  ⟨fun k' hk' => h.load k' (List.mem_cons_of_mem k hk')⟩

/-- A directory of the graph can be gone through. -/
theorem DirRep.loads (hs : Sane g s)
    (hd : ∀ p, (view g s.disk).ref t.top p ≠ 0 → g.Data ((view g s.disk).ref t.top p))
    {slots : List (Option Dent)} (h : DirRep (view g s.disk) t slots) :
    Loads s (view g s.disk) t (dirSectors t) := by
  refine ⟨fun k hk => ?_⟩
  have h0 := h.cell k (h.mem_sectors hk)
  have hk' : k < maxSectors := by
    by_contra hc
    exact h0 (View.cell_eq_zero _ t (by omega))
  have hdata := hd (datPos k) h0
  unfold dirLoad
  rw [bmap_read hs hd hk']
  dsimp only
  have hrd : rd s ((view g s.disk).cell t k) = some ((view g s.disk).sec ((view g s.disk).cell t k)) :=
    rd_data hs hdata.le hdata.lt
  rw [if_neg h0, hrd]
  unfold View.block
  rw [if_neg h0]

theorem dirNthIn_spec (b : Block) (es : List Nat) (idx : Nat) :
    dirNthIn b es idx
      = if h : idx < (ents (es.map (dentSlot b))).length then .inr (ents (es.map (dentSlot b)))[idx]
        else .inl (idx - (ents (es.map (dentSlot b))).length) := by
  induction es generalizing idx with
  | nil => rfl
  | cons e es ih =>
    unfold dirNthIn
    have hcons : ents ((e :: es).map (dentSlot b))
        = (dentSlot b e).toList ++ ents (es.map (dentSlot b)) := by
      rw [List.map_cons]
      cases dentSlot b e <;> rfl
    by_cases h0 : dentIno b e = 0
    · have hslot : dentSlot b e = none := if_pos h0
      rw [hslot] at hcons
      rw [if_pos h0, ih]
      simp only [hcons, Option.toList_none, List.nil_append]
    · have hslot : dentSlot b e = some (dentAt b e) := if_neg h0
      rw [hslot] at hcons
      rw [if_neg h0]
      simp only [hcons, Option.toList_some, List.cons_append, List.nil_append, List.length_cons]
      cases idx with
      | zero => simp
      | succ idx =>
        rw [if_neg (by omega), Nat.add_sub_cancel, ih]
        simp only [Nat.add_lt_add_iff_right, List.getElem_cons_succ]
        split
        · rfl
        · congr 1
          omega

theorem dirNthFrom_append {V : View} (h : Loads s V t ks) (ks' : List Nat) (idx : Nat) :
    dirNthFrom s t (ks ++ ks') idx
      = match (ents (V.slotsOf t ks))[idx]? with
        | some e => some (some e)
        | none => dirNthFrom s t ks' (idx - (ents (V.slotsOf t ks)).length) := by
  induction ks generalizing idx with
  | nil => rfl
  | cons k ks ih =>
    rw [List.cons_append]
    conv_lhs => unfold dirNthFrom
    rw [h.load k List.mem_cons_self, V.slotsOf_cons, ents_append]
    dsimp only
    rw [dirNthIn_spec]
    split
    · next d hres =>
      split at hres
      · next hlt =>
        obtain rfl := Sum.inr.inj hres
        rw [List.getElem?_append_left hlt, List.getElem?_eq_getElem hlt]
      · exact absurd hres (by simp)
    · next idx' hres =>
      split at hres
      · exact absurd hres (by simp)
      · next hge =>
        obtain rfl := Sum.inl.inj hres
        rw [ih h.tail, List.getElem?_append_right (by omega), List.length_append, Nat.sub_sub]

theorem dirNthFrom_spec {V : View} (h : Loads s V t ks) (idx : Nat) :
    dirNthFrom s t ks idx = some ((ents (V.slotsOf t ks))[idx]?) := by
  have happend := dirNthFrom_append h [] idx
  rw [List.append_nil] at happend
  rw [happend]
  cases (ents (V.slotsOf t ks))[idx]? <;> rfl

/-- Where a used entry is: in sector `k` of the directory, at place `e`. -/
structure EntryAt (V : View) (t : Ino) (ks : List Nat) (k e : Nat) (d : Dent) : Prop where
  mem : k ∈ ks
  lt : e < 8
  slot : dentSlot (V.block t k) e = some d

theorem dirFindIn_some {b : Block} {name : Name} {es : List Nat} {e : Nat}
    (h : dirFindIn b name es = some e) :
    e ∈ es ∧ ∃ d, dentSlot b e = some d ∧ fold d.name = fold name := by
  induction es with
  | nil => exact absurd h (by simp [dirFindIn])
  | cons e' es ih =>
    unfold dirFindIn at h
    split at h
    · next hc =>
      obtain rfl := Option.some.inj h
      exact ⟨List.mem_cons_self, _, if_neg hc.1, (nameEq_iff _ _).mp hc.2⟩
    · obtain ⟨hm, hd⟩ := ih h
      exact ⟨List.mem_cons_of_mem e' hm, hd⟩

theorem dirFindIn_none {b : Block} {name : Name} {es : List Nat} (h : dirFindIn b name es = none)
    {e : Nat} (he : e ∈ es) {d : Dent} (hd : dentSlot b e = some d) : fold d.name ≠ fold name := by
  induction es with
  | nil => exact absurd he (by simp)
  | cons e' es ih =>
    unfold dirFindIn at h
    split at h
    · exact absurd h (by simp)
    · next hc =>
      rcases List.mem_cons.mp he with rfl | hm
      · obtain ⟨h0, hino, rfl⟩ := dentSlot_ino_ne_zero hd
        exact fun hf => hc ⟨by rw [hino]; exact h0, (nameEq_iff _ _).mpr hf⟩
      · exact ih h hm

theorem dirFindFrom_spec {V : View} (h : Loads s V t ks) (name : Name) :
    (dirFindFrom s t name ks = .error .noent ∧
        ∀ d ∈ ents (V.slotsOf t ks), fold d.name ≠ fold name) ∨
      ∃ k e d, EntryAt V t ks k e d ∧ fold d.name = fold name ∧
        dirFindFrom s t name ks = .ok ⟨d.ino, d.type, V.cell t k, e⟩ := by
  induction ks with
  | nil => exact Or.inl ⟨rfl, fun d hd => absurd hd (by simp [View.slotsOf, ents])⟩
  | cons k ks ih =>
    unfold dirFindFrom
    rw [h.load k List.mem_cons_self]
    dsimp only
    cases hf : dirFindIn (V.block t k) name (List.range 8) with
    | some e =>
      obtain ⟨hm, d, hd, hname⟩ := dirFindIn_some hf
      obtain ⟨-, hino, hat⟩ := dentSlot_ino_ne_zero hd
      refine Or.inr ⟨k, e, d, ⟨List.mem_cons_self, List.mem_range.mp hm, hd⟩, hname, ?_⟩
      dsimp only
      rw [hino, hat]
    | none =>
      refine (ih h.tail).imp (fun hr => ⟨hr.1, fun d hd => ?_⟩) ?_
      · rw [V.slotsOf_cons, ents_append, List.mem_append] at hd
        rcases hd with hd | hd
        · obtain ⟨e, he, hslot⟩ := List.mem_map.mp (mem_ents.mp hd)
          exact dirFindIn_none hf he hslot
        · exact hr.2 d hd
      · rintro ⟨k', e, d, hat, hr⟩
        exact ⟨k', e, d, ⟨List.mem_cons_of_mem k hat.mem, hat.lt, hat.slot⟩, hr⟩

theorem dirFreeIn_some {b : Block} {es : List Nat} {e : Nat} (h : dirFreeIn b es = some e) :
    e ∈ es ∧ dentSlot b e = none := by
  induction es with
  | nil => exact absurd h (by simp [dirFreeIn])
  | cons e' es ih =>
    unfold dirFreeIn at h
    split at h
    · obtain ⟨hm, hd⟩ := ih h
      exact ⟨List.mem_cons_of_mem e' hm, hd⟩
    · next hc =>
      obtain rfl := Option.some.inj h
      exact ⟨List.mem_cons_self, if_pos (not_not.mp hc)⟩

theorem dirFreeFrom_spec {V : View} (h : Loads s V t ks) :
    dirFreeFrom s t ks = .ok none ∨
      ∃ k e, k ∈ ks ∧ e < 8 ∧ dentSlot (V.block t k) e = none ∧
        dirFreeFrom s t ks = .ok (some (V.cell t k, V.block t k, e)) := by
  induction ks with
  | nil => exact Or.inl rfl
  | cons k ks ih =>
    unfold dirFreeFrom
    rw [h.load k List.mem_cons_self]
    dsimp only
    cases hf : dirFreeIn (V.block t k) (List.range 8) with
    | some e =>
      obtain ⟨hm, hd⟩ := dirFreeIn_some hf
      exact Or.inr ⟨k, e, List.mem_cons_self, List.mem_range.mp hm, hd, rfl⟩
    | none =>
      refine (ih h.tail).imp id ?_
      rintro ⟨k', e, hm, hr⟩
      exact ⟨k', e, List.mem_cons_of_mem k hm, hr⟩

end Read

end Mwfs
