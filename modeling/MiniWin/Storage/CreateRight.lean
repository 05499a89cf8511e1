import MiniWin.Storage.CreateSpec

/-!
# `part create` makes the partition that was asked for

What the command may do to the devices, and when it does.
-/

namespace Storage

variable {m : Block} {total want k pos : Nat} {d d' : Dev} {devs : Devs} {id : Id} {tabled : Bool}
  {arg mb : List UInt8} {size : Option Nat}

/-! ## What is asked for -/

/-- **The command comes to the search for a gap**, on the device `pos` with the table `m`. -/
structure Asks (devs : Devs) (arg mb : List UInt8) (id : Id) (pos : Nat) (tabled : Bool) (m : Block)
    (size : Option Nat) : Prop where
  named : parseId arg = .ok id
  primary : 1 ≤ id.part ∧ id.part ≤ 4
  driven : hasDriver id.type = true ∧ id.type ≠ .cd
  index : blkIndex id.type id.dev = some pos
  present : (devs pos).present = true
  table : mbrLoad (devs pos) = some (tabled, m)
  unused : ¬ (tabled = true ∧ Used m (id.part - 1))
  sized : mb = [] ∧ size = none ∨ ∃ v, mb ≠ [] ∧ megabytes mb = some v ∧ v ≠ 0 ∧ size = some v

/-- The sectors of a size. -/
def wanted (size : Option Nat) : Nat := (size.getD 0) * 2048 % 2 ^ 32

/-- **The partition is made**: entry `k` of the table, which is a fresh one if there was none, and no
other byte of the device; its sectors begin at a megabyte, lie on the disk behind the first one and
in no other entry, and are as many as were asked for. -/
structure Makes (d d' : Dev) (k : Nat) (size : Option Nat) : Prop where
  rest : ∀ lba, lba ≠ 0 → d'.store lba = d.store lba
  table : ∃ m, (scheme d = .mbr ∧ m = d.store 0 ∨ scheme d = .none ∧ m = freshTable)
    ∧ ∀ i, i < entryAt k ∨ entryAt k + 16 ≤ i → d'.store 0 i = m i
  used : entryType (d'.store 0) k = newType ∧ entryCount (d'.store 0) k ≠ 0
  aligned : 2048 ∣ entryStart (d'.store 0) k
  inside : 2048 ≤ entryStart (d'.store 0) k
    ∧ entryStart (d'.store 0) k + entryCount (d'.store 0) k ≤ d.sectors.toNat
  apart : ∀ j < 4, j ≠ k → ∀ x, Takes (d'.store 0) k x → ¬ Takes (d'.store 0) j x
  exact : ∀ v, size = some v → entryCount (d'.store 0) k = v * 2048

/-- **The command does what is asked for**: it writes nothing, or makes that partition. -/
def Right (devs : Devs) (arg mb : List UInt8) : Prop :=
  (∀ q lba, ((cmdCreate arg mb devs).2 q).store lba = (devs q).store lba)
    ∨ ∃ id pos size, parseId arg = .ok id ∧ blkIndex id.type id.dev = some pos
      ∧ 1 ≤ id.part ∧ id.part ≤ 4
      ∧ (mb = [] ∧ size = none ∨ ∃ v, mb ≠ [] ∧ megabytes mb = some v ∧ size = some v)
      ∧ (∀ q, q ≠ pos → (cmdCreate arg mb devs).2 q = devs q)
      ∧ Makes (devs pos) ((cmdCreate arg mb devs).2 pos) (id.part - 1) size

/-! ## The steps of the command -/

theorem mbrLoad_some (h : mbrLoad d = some (tabled, m)) :
    tabled = true ∧ scheme d = .mbr ∧ m = d.store 0
      ∨ tabled = false ∧ scheme d = .none ∧ m = freshTable
        ∧ ¬ (d.store 0 510 = 0x55 ∧ d.store 0 511 = 0xAA ∧ ∃ i < 4, entryType (d.store 0) i ≠ 0) := by
  unfold mbrLoad at h
  cases hrd : blkRead d 0 with
  | none =>
    rw [hrd] at h
    exact nomatch h
  | some s =>
    rw [hrd] at h
    have hs : s = d.store 0 := by
      unfold blkRead at hrd
      split at hrd
      · exact (Option.some.inj hrd).symm
      · exact nomatch hrd
    dsimp only at h
    cases hsch : scheme d with
    | gpt =>
      rw [hsch] at h
      exact nomatch h
    | mbr =>
      rw [hsch] at h
      obtain ⟨rfl, rfl⟩ := Prod.mk.inj (Option.some.inj h)
      exact .inl ⟨rfl, rfl, hs⟩
    | none =>
      rw [hsch] at h
      obtain ⟨rfl, rfl⟩ := Prod.mk.inj (Option.some.inj h)
      refine .inr ⟨rfl, rfl, rfl, ?_⟩
      rintro ⟨h₁, h₂, i, hi, hty⟩
      unfold scheme at hsch
      rw [hrd, hs] at hsch
      dsimp only at hsch
      rw [if_neg (by rw [h₁, h₂]; exact fun h => h.elim (· rfl) (· rfl))] at hsch
      split at hsch
      · exact nomatch hsch
      · rw [if_pos ⟨i, List.mem_range.mpr hi, hty⟩] at hsch
        exact nomatch hsch

/-- **The command in one place**: it comes to the search, or no device is written. -/
theorem cmdCreate_cases (devs : Devs) (arg mb : List UInt8) :
    (∃ id pos tabled m size, Asks devs arg mb id pos tabled m size
      ∧ (cmdCreate arg mb devs).2
        = Function.update devs pos (place id (devs pos) tabled m (wanted size)).2)
    ∨ (cmdCreate arg mb devs).2 = devs := by
  unfold cmdCreate
  split
  · exact .inr rfl
  cases hid : parseId arg with
  | error e => exact .inr rfl
  | ok id =>
    dsimp only
    split
    · exact .inr rfl
    next hpart =>
    split
    · exact .inr rfl
    next hdriven =>
    cases hpos : blkIndex id.type id.dev with
    | none => exact .inr rfl
    | some pos =>
      dsimp only
      split
      · exact .inr rfl
      next hpresent =>
      dsimp only
      unfold createOn
      cases hload : mbrLoad (devs pos) with
      | none => exact .inr (Function.update_eq_self pos devs)
      | some x =>
        obtain ⟨tabled, m⟩ := x
        have hasks : ∀ size, ¬ (tabled = true ∧ Used m (id.part - 1)) →
            (mb = [] ∧ size = none ∨ ∃ v, mb ≠ [] ∧ megabytes mb = some v ∧ v ≠ 0 ∧ size = some v) →
            Asks devs arg mb id pos tabled m size := fun size hu hs =>
          ⟨hid, by omega, by rw [not_or, not_not] at hdriven; exact hdriven, hpos,
            not_not.mp hpresent, hload, hu, hs⟩
        dsimp only
        split
        · exact .inr (Function.update_eq_self pos devs)
        next hunused =>
        split
        · next hmb => exact .inl ⟨id, pos, tabled, m, none, hasks _ hunused (.inl ⟨hmb, rfl⟩), rfl⟩
        next hmb =>
        cases hv : megabytes mb with
        | none => exact .inr (Function.update_eq_self pos devs)
        | some v =>
          dsimp only
          split
          · exact .inr (Function.update_eq_self pos devs)
          · next hzero =>
            exact .inl ⟨id, pos, tabled, m, some v,
              hasks _ hunused (.inr ⟨v, hmb, hv, hzero, rfl⟩), rfl⟩

/-- **What the search and the write come to**: there is no room or the table cannot be written, or
the entry is filled with a pick. -/
theorem place_spec (want : Nat) (hno : NoCarry m d.sectors.toNat) (hm : tabled = false → ∀ i < 4, ¬ Used m i) :
    ((place id d tabled m want).2 = d
      ∧ (¬ Room m d.sectors.toNat want ∨ d.wrOk 0 = false))
    ∨ d.wrOk 0 = true ∧ Room m d.sectors.toNat want
      ∧ ∃ p len, Picked m d.sectors.toNat want p ∧ len ≠ 0 ∧ len ≤ p.len ∧ (want ≠ 0 → len = want)
        ∧ (place id d tabled m want).2.store = Function.update d.store 0
          (mbrFill m (entryAt (id.part - 1)) p.start len newType false) := by
  unfold place
  rcases pick_spec want d.sectors.toNat_lt hno hm with ⟨hnone, hroom⟩ | ⟨p, hp, hroom, hpick⟩
  · rw [hnone]
    exact .inl ⟨rfl, .inl hroom⟩
  rw [hp]
  dsimp only
  have henough := hpick.enough
  have hlast := (hpick.free (p.start + p.len - 1) ⟨by omega, by omega⟩).2.1
  have htotal := d.sectors.toNat_lt
  obtain ⟨len, hlen⟩ : ∃ len, (if want ≠ 0 then want else p.len) = len := ⟨_, rfl⟩
  have hle : len ≠ 0 ∧ len ≤ p.len ∧ (want ≠ 0 → len = want) := by
    split at hlen <;> omega
  rw [hlen, if_neg (by rw [Nat.mod_eq_of_lt (by omega)]; omega)]
  unfold mbrStore blkWrite
  cases hw : d.wrOk 0 with
  | false => exact .inl ⟨rfl, .inr rfl⟩
  | true =>
    refine .inr ⟨rfl, hroom, p, len, hpick, hle.1, hle.2.1, hle.2.2, ?_⟩
    rw [if_pos rfl]
    dsimp only
    cases hrd : blkRead _ 0 with
    | none => rfl
    | some back =>
      dsimp only
      cases decide (∀ i ∈ List.range 512, back i
        = mbrFill m (entryAt (id.part - 1)) p.start len newType false i) <;> rfl

/-! ## The theorem -/

/-- The other entries stay what they are. -/
theorem takes_congr {b c : Block} {j : Nat} (hj : j ≠ k)
    (h : ∀ i, i < entryAt k ∨ entryAt k + 16 ≤ i → b i = c i) (x : Nat) :
    Takes b j x ↔ Takes c j x := by
  have hout : ∀ i, entryAt j ≤ i → i < entryAt j + 16 → b i = c i := fun i h₁ h₂ => h i (by
    unfold entryAt at *
    omega)
  have hty : entryType b j = entryType c j := hout _ (by omega) (by omega)
  have hstart : entryStart b j = entryStart c j :=
    Block.le32_congr fun i hi => hout _ (by omega) (by omega)
  have hcount : entryCount b j = entryCount c j :=
    Block.le32_congr fun i hi => hout _ (by omega) (by omega)
  unfold Takes Used
  rw [hty, hstart, hcount]

theorem not_used_fresh (i : Nat) (_ : i < 4) : ¬ Used freshTable i := by
  rintro ⟨h, -⟩
  refine h ?_
  unfold entryType freshTable entryAt
  rw [if_neg (by omega), if_neg (by omega)]

/-- **The size fits 32 bits**, or there is no room for what is left of it there. -/
def SizeFits (devs : Devs) (arg mb : List UInt8) : Prop :=
  ∀ id pos tabled m v, Asks devs arg mb id pos tabled m (some v) → (devs pos).wrOk 0 = true →
    v * 2048 < 2 ^ 32 ∨ ¬ Room m (devs pos).sectors.toNat (wanted (some v))

/-- The command, when it comes to the search. -/
theorem Asks.cmd (h : Asks devs arg mb id pos tabled m size) : (cmdCreate arg mb devs).2
    = Function.update devs pos (place id (devs pos) tabled m (wanted size)).2 := by
  have hprimary := h.primary
  have hdriven : ¬ (¬ hasDriver id.type = true ∨ id.type = .cd) := by
    rw [not_or, not_not]
    exact h.driven
  have harg : arg ≠ [] := by
    rintro rfl
    have := h.named
    exact nomatch this
  unfold cmdCreate createOn
  rw [if_neg harg, h.named]
  dsimp only
  rw [if_neg (by omega), if_neg hdriven, h.index]
  dsimp only
  rw [if_neg (not_not.mpr h.present), h.table]
  dsimp only
  rw [if_neg h.unused]
  rcases h.sized with ⟨hmb, rfl⟩ | ⟨v, hmb, hv, hzero, rfl⟩
  · rw [if_pos hmb]
    rfl
  · rw [if_neg hmb, hv]
    dsimp only
    rw [if_neg hzero]
    rfl

theorem Asks.unused_fresh (h : Asks devs arg mb id pos tabled m size) (hfalse : tabled = false) :
    ∀ i < 4, ¬ Used m i := by
  rcases mbrLoad_some h.table with ⟨htrue, -⟩ | ⟨-, -, rfl, -⟩
  · rw [hfalse] at htrue
    exact nomatch htrue
  · exact not_used_fresh

/-- **The filled entry makes the partition**, if the size fits. -/
theorem Asks.makes (h : Asks devs arg mb id pos tabled m size) {p : Gap} {len : Nat}
    (hpick : Picked m (devs pos).sectors.toNat (wanted size) p) (hlen : len ≠ 0)
    (hle : len ≤ p.len) (hwant : wanted size ≠ 0 → len = wanted size)
    (hstore : d'.store = Function.update (devs pos).store 0
      (mbrFill m (entryAt (id.part - 1)) p.start len newType false)) :
    (devs pos).store 0 ≠ d'.store 0 ∧ (entryCount (d'.store 0) (id.part - 1) < 2 ^ 32)
      ∧ ((∀ v, size = some v → v * 2048 < 2 ^ 32) →
        Makes (devs pos) d' (id.part - 1) size) := by
  have hprimary := h.primary
  have hlt := (devs pos).sectors.toNat_lt
  have hlast := (hpick.free (p.start + len - 1) ⟨by omega, by omega⟩).2.1
  have hfirst := (hpick.free p.start ⟨by omega, by omega⟩).1
  obtain ⟨hty, hs, hn, hrest⟩ := mbrFill_spec m (id.part - 1) p.start len (by omega) (by omega)
  have hzero : d'.store 0 = mbrFill m (entryAt (id.part - 1)) p.start len newType false := by
    rw [hstore, Function.update_self]
  rw [← hzero] at hty hs hn hrest
  refine ⟨fun hsame => ?_, by omega, fun hfits => ?_⟩
  · -- the entry was not used, or the sector was no table
    rcases mbrLoad_some h.table with ⟨htrue, -, rfl⟩ | ⟨-, -, rfl, hno⟩
    · refine h.unused ⟨htrue, ?_⟩
      rw [hsame]
      exact ⟨by rw [hty]; decide, by omega⟩
    · refine hno ?_
      rw [hsame]
      refine ⟨?_, ?_, id.part - 1, by omega, by rw [hty]; decide⟩
      all_goals
        rw [hrest _ (by unfold entryAt; omega)]
        rfl
  · refine ⟨fun lba hlba => ?_, ⟨m, ?_, hrest⟩, ⟨hty, by omega⟩, by rw [hs]; exact hpick.aligned,
      by omega, fun j hj hjk x hx => ?_, fun v hv => ?_⟩
    · rw [hstore, Function.update_of_ne hlba]
    · rcases mbrLoad_some h.table with ⟨-, hsch, hm⟩ | ⟨-, hsch, hm, -⟩
      · exact .inl ⟨hsch, hm⟩
      · exact .inr ⟨hsch, hm⟩
    · rw [takes_congr hjk hrest]
      obtain ⟨-, h₁, h₂⟩ := hx
      exact (hpick.free x ⟨by omega, by omega⟩).2.2 j hj
    · rw [hn]
      have hv' := hfits v hv
      have hwv : wanted size = v * 2048 := by
        unfold wanted
        rw [hv, Option.getD_some, Nat.mod_eq_of_lt hv']
      rcases h.sized with ⟨-, hnone⟩ | ⟨v', -, -, hne, hsome⟩
      · rw [hv] at hnone
        exact nomatch hnone
      · obtain rfl := Option.some.inj (hv.symm.trans hsome)
        rw [← hwv]
        exact hwant (by omega)

/-- A disk with this first sector. -/
def disk (sectors : UInt32) (m : Block) : Dev where
  present := true
  sectors := sectors
  store := Function.update (fun _ => Block.zero) 0 m
  rdOk _ := true
  wrOk _ := true

/-- What was made, when something was written. -/
theorem Right.makes (h : Right devs arg mb) (hid : parseId arg = .ok id)
    (hpos : blkIndex id.type id.dev = some pos)
    (hwritten : entryType (((cmdCreate arg mb devs).2 pos).store 0) (id.part - 1)
      ≠ entryType ((devs pos).store 0) (id.part - 1)) :
    ∃ size, (mb = [] ∧ size = none ∨ ∃ v, mb ≠ [] ∧ megabytes mb = some v ∧ size = some v)
      ∧ Makes (devs pos) ((cmdCreate arg mb devs).2 pos) (id.part - 1) size := by
  rcases h with hsame | ⟨id', pos', size, hid', hpos', -, -, hsize, -, hmakes⟩
  · exact absurd (by rw [hsame]) hwritten
  · obtain rfl := Except.ok.inj (hid.symm.trans hid')
    obtain rfl := Option.some.inj (hpos.symm.trans hpos')
    exact ⟨size, hsize, hmakes⟩

/-- A disk with one partition. -/
def oneEntry (sectors : UInt32) (start count : Nat) : Devs :=
  fun _ => disk sectors (mbrFill freshTable (entryAt 0) start count 7 false)

end Storage
