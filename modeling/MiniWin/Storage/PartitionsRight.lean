import MiniWin.Storage.Partitions
import Mathlib.Data.List.Range
import Mathlib.Data.List.TakeWhile
import Mathlib.Order.Interval.Finset.Nat

/-!
# Listing and lookup

What is found is as the formats say unless a number is cut to 32 bits, and the list is what is found
unless the chain of boot records has a record without a partition in the middle (`agrees_iff`). The
chain of the code is the chain of the format as long as its links go forward (`record`).
-/

namespace Storage

variable {d : Dev} {m e : Block} {ext cur c n k : Nat} {p : Part}

/-! ## The chain -/

/-- A record that has its signature. -/
def signedAt (d : Dev) (cur : Nat) : Option Block := (blkRead d cur).filter fun e => Signed e

/-- The record that the walk comes to in so many steps, and its sector. -/
def record (d : Dev) (ext : Nat) : Nat → Nat → Option (Nat × Block)
  | 0, cur => (signedAt d cur).map fun e => (cur, e)
  | k + 1, cur =>
    (signedAt d cur).bind fun e =>
      if Linked e ∧ cur < ext + entryStart e 1 ∧ ext + entryStart e 1 < 2 ^ 32 then
        record d ext k (ext + entryStart e 1)
      else none

/-- The partition of a record. -/
def logical (n : Nat) (r : Nat × Block) : Option Part :=
  (mbrEntry r.2 0 n).map fun p =>
    { p with start := (r.1 + p.start) % 2 ^ 32, extended_container := false }

theorem entryStart_lt (m : Block) (i : Nat) : entryStart m i < 2 ^ 32 := m.le32_lt _
theorem signedAt_eq_some : signedAt d cur = some e ↔ blkRead d cur = some e ∧ Signed e := by
  unfold signedAt
  rw [Option.filter_eq_some_iff, decide_eq_true_eq]

/-- A link that wraps around leads back, so that the walk ends there. -/
theorem next_le_iff {off : Nat} (hext : ext ≤ cur) (hcur : cur < 2 ^ 32) (hoff : off < 2 ^ 32) :
    (ext + off) % 2 ^ 32 ≤ cur ↔ ¬ (cur < ext + off ∧ ext + off < 2 ^ 32) := by
  by_cases hfit : ext + off < 2 ^ 32
  · rw [Nat.mod_eq_of_lt hfit]
    omega
  · rw [Nat.mod_eq_sub_mod (by omega), Nat.mod_eq_of_lt (by omega)]
    omega

/-- **The walk** takes the record with the number, if it comes so far. -/
theorem walkChain_eq {rounds : Nat} (hext : ext ≤ cur) (hcur : cur < 2 ^ 32) (hk : k < rounds) :
    walkChain d ext (n + k) rounds n cur = (record d ext k cur).bind (logical (n + k)) := by
  induction rounds generalizing n cur k with
  | zero => exact absurd hk (Nat.not_lt_zero k)
  | succ rounds ih =>
    have hwalk : walkChain d ext (n + k) (rounds + 1) n cur = (signedAt d cur).bind fun e =>
        if n = n + k then logical n (cur, e)
        else if ¬ Linked e then none
        else if (ext + entryStart e 1) % 2 ^ 32 ≤ cur then none
        else walkChain d ext (n + k) rounds (n + 1) ((ext + entryStart e 1) % 2 ^ 32) := by
      rw [walkChain]
      cases hread : blkRead d cur with
      | none =>
        rw [signedAt, hread]
        rfl
      | some e =>
        by_cases hsigned : Signed e
        · rw [signedAt_eq_some.mpr ⟨hread, hsigned⟩]
          exact if_neg (not_not.mpr hsigned)
        · rw [signedAt, hread, Option.filter_some, if_neg (by simpa using hsigned)]
          exact if_pos hsigned
    rw [hwalk]
    cases k with
    | zero =>
      rw [record, Option.bind_map]
      congr 1
      funext e
      exact if_pos rfl
    | succ k =>
      rw [record, Option.bind_assoc]
      congr 1
      funext e
      rw [if_neg (by omega)]
      have hnext := next_le_iff hext hcur (entryStart_lt e 1)
      by_cases hlinked : Linked e
      swap
      · rw [if_pos hlinked, if_neg fun h => hlinked h.1]
        rfl
      rw [if_neg (not_not.mpr hlinked)]
      by_cases hgo : cur < ext + entryStart e 1 ∧ ext + entryStart e 1 < 2 ^ 32
      · rw [if_neg fun h => hnext.mp h hgo, if_pos ⟨hlinked, hgo⟩, Nat.mod_eq_of_lt hgo.2,
          show n + (k + 1) = n + 1 + k by omega]
        exact ih (by omega) hgo.2 (by omega)
      · rw [if_pos (hnext.mpr hgo), if_neg fun h => hgo h.2]
        rfl

theorem record_succ_eq_some {r : Nat × Block} : record d ext (k + 1) cur = some r ↔
    ∃ e, (blkRead d cur = some e ∧ Signed e)
      ∧ (Linked e ∧ cur < ext + entryStart e 1 ∧ ext + entryStart e 1 < 2 ^ 32)
      ∧ record d ext k (ext + entryStart e 1) = some r := by
  simp only [record, Option.bind_eq_some_iff, signedAt_eq_some, Option.ite_none_right_eq_some]

/-- A record of the walk is one of the format's chain. -/
theorem chain_of_record {r : Nat × Block} (h : record d ext k cur = some r) :
    Chain d ext cur k r.1 ∧ blkRead d r.1 = some r.2 ∧ Signed r.2 := by
  induction k generalizing cur with
  | zero =>
    obtain ⟨e, he, rfl⟩ := Option.map_eq_some_iff.mp h
    exact ⟨.here, signedAt_eq_some.mp he⟩
  | succ k ih =>
    obtain ⟨e, ⟨hread, hsigned⟩, hgo, h⟩ := record_succ_eq_some.mp h
    exact ⟨.next hread hsigned hgo.1 (ih h).1, (ih h).2⟩

/-- The chain of the format gets to one sector only. -/
theorem Chain.unique {c c' : Nat} (h : Chain d ext cur k c) (h' : Chain d ext cur k c') :
    c = c' := by
  induction h with
  | here =>
    cases h'
    rfl
  | next hread _ _ _ ih =>
    cases h' with
    | next hread' _ _ h' =>
      obtain rfl := Option.some.inj (hread.symm.trans hread')
      exact ih h'

/-- A record has all the records in front of it. -/
theorem record_of_le {r : Nat × Block} {j : Nat} (h : record d ext k cur = some r) (hj : j ≤ k) :
    ∃ r', record d ext j cur = some r' := by
  induction k generalizing cur j with
  | zero =>
    obtain rfl := Nat.le_zero.mp hj
    exact ⟨r, h⟩
  | succ k ih =>
    obtain ⟨e, hsigned, hgo, h⟩ := record_succ_eq_some.mp h
    cases j with
    | zero => exact ⟨_, Option.map_eq_some_iff.mpr ⟨e, signedAt_eq_some.mpr hsigned, rfl⟩⟩
    | succ j =>
      obtain ⟨r', hr'⟩ := ih h (Nat.le_of_succ_le_succ hj)
      exact ⟨r', record_succ_eq_some.mpr ⟨e, hsigned, hgo, hr'⟩⟩

/-- The walk does not get to a number that is too far. -/
theorem walkChain_far {rounds number : Nat} (h : n + rounds ≤ number) :
    walkChain d ext number rounds n cur = none := by
  induction rounds generalizing n cur with
  | zero => rfl
  | succ rounds ih =>
    rw [walkChain]
    split
    · rfl
    split
    · rfl
    rw [if_neg (by omega)]
    split
    · rfl
    dsimp only
    split
    · rfl
    · exact ih (by omega)

/-! ## What is found -/

theorem mbrEntry_eq_some {i : Nat} :
    mbrEntry m i n = some p ↔ Used m i ∧ p = ⟨n, entryStart m i, entryCount m i, entryType m i,
      false, m (entryAt i) = 0x80, isExtendedType (entryType m i)⟩ := by
  unfold mbrEntry Used
  by_cases h : entryType m i = 0 ∨ entryCount m i = 0
  · rw [if_pos h]
    simp only [reduceCtorEq, false_iff, not_and]
    exact fun hused => (h.elim hused.1 hused.2).elim
  · rw [if_neg h, Option.some.injEq, and_iff_right (not_or.mp h)]
    exact eq_comm

theorem logical_eq_some {r : Nat × Block} :
    logical n r = some p ↔ Used r.2 0 ∧ p = ⟨n, (r.1 + entryStart r.2 0) % 2 ^ 32, entryCount r.2 0,
      entryType r.2 0, false, r.2 (entryAt 0) = 0x80, false⟩ := by
  unfold logical
  rw [Option.map_eq_some_iff]
  constructor
  · rintro ⟨q, hq, rfl⟩
    obtain ⟨hused, rfl⟩ := mbrEntry_eq_some.mp hq
    exact ⟨hused, rfl⟩
  · rintro ⟨hused, rfl⟩
    exact ⟨_, mbrEntry_eq_some.mpr ⟨hused, rfl⟩, rfl⟩

theorem extStart_lt (h : extStart m = some ext) : ext < 2 ^ 32 := by
  obtain ⟨i, -, rfl⟩ := Option.map_eq_some_iff.mp h
  exact entryStart_lt m i

/-- A disk with a table in its first sector, and its first extended partition. -/
structure Chained (d : Dev) (m : Block) (ext : Nat) : Prop where
  scheme : scheme d = .mbr
  read : blkRead d 0 = some m
  ext : extStart m = some ext

/-- The partition of a record that is in use. -/
def recordPart (n : Nat) (r : Nat × Block) : Part :=
  ⟨n, (r.1 + entryStart r.2 0) % 2 ^ 32, entryCount r.2 0, entryType r.2 0, false,
    r.2 (entryAt 0) = 0x80, false⟩

theorem Chained.get (h : Chained d m ext) (hk : k < ST_MAX_LOGICAL) :
    getPartition d (k + 5) = (record d ext k ext).bind (logical (k + 5)) := by
  have hlt : k < 32 := hk
  unfold getPartition
  rw [if_neg (by unfold ST_MAX_PART_NUMBER; omega), h.scheme]
  dsimp only
  rw [h.read]
  dsimp only
  rw [if_neg (by omega), h.ext, Nat.add_comm k 5]
  exact walkChain_eq (Nat.le_refl ext) (extStart_lt h.ext) hk

theorem Chained.get_used (h : Chained d m ext) (hk : k < ST_MAX_LOGICAL) {r : Nat × Block}
    (hr : record d ext k ext = some r) (hused : Used r.2 0) :
    getPartition d (k + 5) = some (recordPart (k + 5) r) := by
  rw [h.get hk, hr, Option.bind_some]
  exact logical_eq_some.mpr ⟨hused, rfl⟩

theorem get_primary (hscheme : scheme d = .mbr) (hread : blkRead d 0 = some m) {i : Nat}
    (hi : i < 4) : getPartition d (i + 1) = mbrEntry m i (i + 1) := by
  unfold getPartition
  rw [if_neg (by unfold ST_MAX_PART_NUMBER; omega), hscheme]
  dsimp only
  rw [hread]
  dsimp only
  rw [if_pos (by omega), Nat.add_sub_cancel]

theorem get_gpt (hscheme : scheme d = .gpt) (h0 : 0 < n) (hn : n ≤ ST_MAX_PART_NUMBER) :
    getPartition d n = gptPartition d n := by
  unfold getPartition
  rw [if_neg (by omega), hscheme]

/-- What is found on a disk without a GPT: a primary entry, or a record of the chain. -/
theorem get_mbr_cases (hscheme : scheme d = .mbr) (h : getPartition d n = some p) :
    ∃ m, blkRead d 0 = some m
      ∧ ((∃ i < 4, n = i + 1 ∧ mbrEntry m i n = some p)
        ∨ ∃ ext k r, Chained d m ext ∧ k < ST_MAX_LOGICAL ∧ n = k + 5 ∧ record d ext k ext = some r
          ∧ logical n r = some p) := by
  have horig := h
  unfold getPartition at h
  obtain ⟨hrange, h⟩ := Option.ite_none_left_eq_some.mp h
  rw [hscheme] at h
  dsimp only at h
  cases hread : blkRead d 0 with
  | none =>
    rw [hread] at h
    exact nomatch h
  | some m =>
    rw [hread] at h
    dsimp only at h
    refine ⟨m, rfl, ?_⟩
    split at h
    · next hfour =>
      refine .inl ⟨n - 1, by omega, by omega, h⟩
    · next hfour =>
      cases hext : extStart m with
      | none =>
        rw [hext] at h
        exact nomatch h
      | some ext =>
        rw [hext] at h
        have hchained : Chained d m ext := ⟨hscheme, hread, hext⟩
        obtain ⟨k, rfl⟩ := Nat.exists_eq_add_of_le' (show 5 ≤ n by omega)
        have hk : k < ST_MAX_LOGICAL := by
          by_contra hfar
          exact nomatch (walkChain_far (by omega)).symm.trans h
        obtain ⟨r, hr, hp⟩ := Option.bind_eq_some_iff.mp ((hchained.get hk).symm.trans horig)
        exact .inr ⟨ext, k, r, hchained, hk, rfl, hr, hp⟩

/-- An entry of a GPT that is in use and has numbers of 32 bits. -/
structure InUse (s : Block) (o : Nat) : Prop where
  used : ∃ i < 16, s (o + i) ≠ 0
  low : s.le32 (o + 36) = 0 ∧ s.le32 (o + 44) = 0
  le : s.le32 (o + 32) ≤ s.le32 (o + 40)

/-- The sector of an entry of a GPT, before it is cut to 32 bits, and the place in it. -/
def GptGeometry.sector (g : GptGeometry) (n : Nat) : Nat :=
  g.entries_lba + (n - 1) * g.esize / 512
def GptGeometry.place (g : GptGeometry) (n : Nat) : Nat := (n - 1) * g.esize % 512

theorem gptPartition_eq_some : gptPartition d n = some p ↔
    ∃ g s, gptGeometry d = some g ∧ n ≤ g.count ∧ blkRead d (g.sector n % 2 ^ 32) = some s
      ∧ InUse s (g.place n)
      ∧ p = ⟨n, s.le32 (g.place n + 32),
          (s.le32 (g.place n + 40) - s.le32 (g.place n + 32) + 1) % 2 ^ 32, 0, true, false,
          false⟩ := by
  unfold gptPartition
  constructor
  · intro h
    split at h
    · exact nomatch h
    next g hg =>
    obtain ⟨hcount, h⟩ := Option.ite_none_left_eq_some.mp h
    dsimp only at h
    split at h
    · exact nomatch h
    next s hs =>
    obtain ⟨hused, h⟩ := Option.ite_none_left_eq_some.mp h
    obtain ⟨hlow, h⟩ := Option.ite_none_left_eq_some.mp h
    obtain ⟨hle, h⟩ := Option.ite_none_left_eq_some.mp h
    refine ⟨g, s, hg, Nat.le_of_not_lt hcount, hs, ⟨?_, ?_, Nat.le_of_not_lt hle⟩,
      (Option.some.inj h).symm⟩
    · by_contra hnone
      exact hused fun i hi => by_contra fun hne => hnone ⟨i, List.mem_range.mp hi, hne⟩
    · rw [not_or, not_not, not_not] at hlow
      exact hlow
  · rintro ⟨g, s, hg, hcount, hs, hin, rfl⟩
    obtain ⟨i, hi, hne⟩ := hin.used
    rw [hg]
    dsimp only
    rw [if_neg (Nat.not_lt_of_le hcount)]
    unfold GptGeometry.sector at hs
    rw [hs]
    dsimp only
    have hwide : ¬ (s.le32 (g.place n + 36) ≠ 0 ∨ s.le32 (g.place n + 44) ≠ 0) := by
      rw [hin.low.1, hin.low.2]
      simp
    rw [if_neg fun hall => hne (hall i (List.mem_range.mpr hi))]
    exact (if_neg hwide).trans (if_neg (Nat.not_lt_of_le hin.le))

theorem number_of_get (h : getPartition d n = some p) : p.number = n := by
  unfold getPartition at h
  obtain ⟨hrange, hcases⟩ := Option.ite_none_left_eq_some.mp h
  cases hscheme : scheme d with
  | none =>
    rw [hscheme] at hcases
    exact nomatch hcases
  | mbr =>
    obtain ⟨m, -, ⟨i, -, -, hp⟩ | ⟨ext, k, r, -, -, -, -, hp⟩⟩ := get_mbr_cases hscheme h
    · rw [(mbrEntry_eq_some.mp hp).2]
    · rw [(logical_eq_some.mp hp).2]
  | gpt =>
    rw [hscheme] at hcases
    obtain ⟨g, s, -, -, -, -, rfl⟩ := gptPartition_eq_some.mp hcases
    rfl

/-! ## The list -/

/-- All that is found. -/
def numbered (d : Dev) : List Part :=
  (List.range' 1 ST_MAX_PART_NUMBER).filterMap (getPartition d)

/-- The list goes on behind a number. -/
def goesOn (d : Dev) (mbr : Bool) (n : Nat) : Bool :=
  !(mbr && decide (4 < n) && (getPartition d n).isNone)

/-- **The loop** lists what is found up to where it stops, as far as there is room. -/
theorem listFrom_eq (mbr : Bool) (rounds num room : Nat) : listFrom d mbr rounds num room
    = (((List.range' num rounds).takeWhile (goesOn d mbr)).filterMap (getPartition d)).take
      room := by
  induction rounds generalizing num room with
  | zero => exact List.take_nil.symm
  | succ rounds ih =>
    rw [listFrom, List.range'_succ]
    cases room with
    | zero => rfl
    | succ room =>
      rw [if_neg (Nat.succ_ne_zero room)]
      cases hget : getPartition d num with
      | some p =>
        have hgo : goesOn d mbr num = true := by simp [goesOn, hget]
        rw [List.takeWhile_cons_of_pos hgo, List.filterMap_cons_some hget, List.take_succ_cons]
        exact congrArg (p :: ·) (ih _ _)
      | none =>
        dsimp only
        split
        · next hstop =>
          have hgo : goesOn d mbr num = false := by simp [goesOn, hget, hstop.1, hstop.2]
          rw [List.takeWhile_cons_of_neg (by simp [hgo])]
          rfl
        · next hstop =>
          have hgo : goesOn d mbr num = true := by
            simp only [goesOn, hget, Option.isNone_none, Bool.and_true, Bool.not_eq_true',
              Bool.and_eq_false_imp, decide_eq_false_iff_not]
            exact fun hmbr hnum => hstop ⟨hmbr, hnum⟩
          rw [List.takeWhile_cons_of_pos hgo, List.filterMap_cons_none hget]
          exact ih _ _

/-- What a loop over numbers does up to where it stops. -/
theorem takeWhile_range' (q : Nat → Bool) (a rounds : Nat) : ∃ t ≤ rounds,
    (List.range' a rounds).takeWhile q = List.range' a t ∧ (∀ i < t, q (a + i) = true)
      ∧ (t < rounds → q (a + t) = false) := by
  induction rounds generalizing a with
  | zero => exact ⟨0, Nat.le_refl 0, rfl, fun i hi => absurd hi (Nat.not_lt_zero i),
      fun h => absurd h (Nat.not_lt_zero 0)⟩
  | succ rounds ih =>
    rw [List.range'_succ]
    cases hq : q a with
    | false =>
      refine ⟨0, Nat.zero_le _, ?_, fun i hi => absurd hi (Nat.not_lt_zero i), fun _ => hq⟩
      rw [List.takeWhile_cons_of_neg (by simp [hq])]
      rfl
    | true =>
      obtain ⟨t, ht, htake, hall, hstop⟩ := ih (a + 1)
      refine ⟨t + 1, Nat.succ_le_succ ht, ?_, fun i hi => ?_, fun hlt => ?_⟩
      · rw [List.takeWhile_cons_of_pos hq, htake, List.range'_succ]
      · cases i with
        | zero => exact hq
        | succ i =>
          rw [show a + (i + 1) = a + 1 + i by omega]
          exact hall i (Nat.lt_of_succ_lt_succ hi)
      · rw [show a + (t + 1) = a + 1 + t by omega]
        exact hstop (Nat.lt_of_succ_lt_succ hlt)

theorem mem_numbered : p ∈ numbered d ↔ getPartition d p.number = some p := by
  unfold numbered
  rw [List.mem_filterMap]
  constructor
  · rintro ⟨n, -, hn⟩
    exact (number_of_get hn).symm ▸ hn
  · intro h
    refine ⟨p.number, ?_, h⟩
    unfold getPartition at h
    have hrange := (Option.ite_none_left_eq_some.mp h).1
    rw [List.mem_range'_1]
    omega

/-- In increasing order, and once each. -/
theorem sorted_numbered (d : Dev) : ((numbered d).map Part.number).Pairwise (· < ·) := by
  have hnumbers : (numbered d).map Part.number
      = (List.range' 1 ST_MAX_PART_NUMBER).filter fun n => (getPartition d n).isSome := by
    unfold numbered
    induction List.range' 1 ST_MAX_PART_NUMBER with
    | nil => rfl
    | cons n ns ih =>
      cases hget : getPartition d n with
      | none => rw [List.filterMap_cons_none hget, ih, List.filter_cons_of_neg (by simp [hget])]
      | some p =>
        rw [List.filterMap_cons_some hget, List.map_cons, ih, number_of_get hget,
          List.filter_cons_of_pos (by simp [hget])]
  rw [hnumbers]
  exact (List.pairwise_lt_range' 1 (Nat.zero_lt_one)).filter _

/-! ## The theorem -/

/-- **Listing, lookup and targets agree** with each other and with the formats, on the device at a
position. -/
structure Agrees (devs : Devs) (pos boot_dev boot_base : Nat) : Prop where
  listed : ∀ max, (numbered (devs pos)).length ≤ max →
    ((listPartitions (devs pos) max).map Part.number).Pairwise (· < ·)
      ∧ ∀ p, p ∈ listPartitions (devs pos) max ↔ getPartition (devs pos) p.number = some p
  assigned : ∀ n p, getPartition (devs pos) n = some p →
    Assigns (devs pos) n p.start p.sectors ∧ p.start + p.sectors ≤ 2 ^ 32
  safe : ∀ s t, resolve devs boot_dev boot_base s = .ok t → t.pos = pos →
    t.base + t.sectors ≤ (devs pos).sectors.toNat
      ∧ (pos = boot_dev → boot_base + installSectors ≤ (devs pos).sectors.toNat →
        Disjoint (Finset.Ico t.base (t.base + t.sectors))
          (Finset.Ico boot_base (boot_base + installSectors)))

/-- No number of the table is cut to 32 bits, and no record of the chain that has no partition is in
front of one that has. -/
structure Fits (d : Dev) : Prop where
  primary : ∀ m, scheme d = .mbr → blkRead d 0 = some m → ∀ i < 4, Used m i →
    entryStart m i + entryCount m i ≤ 2 ^ 32
  logical : ∀ m ext, Chained d m ext → ∀ k < ST_MAX_LOGICAL, ∀ r, record d ext k ext = some r →
    Used r.2 0 → r.1 + entryStart r.2 0 + entryCount r.2 0 ≤ 2 ^ 32
  noGap : ∀ m ext, Chained d m ext → ∀ k < ST_MAX_LOGICAL, ∀ j < k, ∀ r r',
    record d ext j ext = some r → record d ext k ext = some r' → Used r'.2 0 → Used r.2 0
  gpt : scheme d = .gpt → ∀ g s n, gptGeometry d = some g → 0 < n → n ≤ g.count →
    n ≤ ST_MAX_PART_NUMBER → blkRead d (g.sector n % 2 ^ 32) = some s → InUse s (g.place n) →
      g.sector n < 2 ^ 32 ∧ s.le32 (g.place n + 40) - s.le32 (g.place n + 32) + 1 < 2 ^ 32

/-- Behind a number that is not found, nothing is found in the chain. -/
theorem Fits.get_none (h : Fits d) (hscheme : scheme d = .mbr) {a b : Nat} (ha : 4 < a)
    (hab : a ≤ b) (hnone : getPartition d a = none) : getPartition d b = none := by
  by_contra hne
  obtain ⟨p, hp⟩ := Option.ne_none_iff_exists'.mp hne
  obtain ⟨m, -, ⟨i, hi, rfl, -⟩ | ⟨ext, k, r', hchained, hk, rfl, hr', hlog⟩⟩ :=
    get_mbr_cases hscheme hp
  · omega
  obtain ⟨j, rfl⟩ := Nat.exists_eq_add_of_le' (show 5 ≤ a by omega)
  have hj : j ≤ k := by omega
  obtain ⟨r, hr⟩ := record_of_le hr' hj
  have hused : Used r.2 0 := by
    rcases Nat.lt_or_eq_of_le hj with hlt | rfl
    · exact h.noGap m ext hchained k hk j hlt r r' hr hr' (logical_eq_some.mp hlog).1
    · obtain rfl := Option.some.inj (hr.symm.trans hr')
      exact (logical_eq_some.mp hlog).1
  have hget := hchained.get (Nat.lt_of_le_of_lt hj hk)
  rw [hr, Option.bind_some, logical_eq_some.mpr ⟨hused, rfl⟩, hnone] at hget
  exact nomatch hget

/-- **The list** is all that is found. -/
theorem Fits.list_eq (h : Fits d) {max : Nat} (hmax : (numbered d).length ≤ max) :
    listPartitions d max = numbered d := by
  unfold listPartitions
  cases hscheme : scheme d with
  | none =>
    have hnone : numbered d = [] := by
      refine List.filterMap_eq_nil_iff.mpr fun n _ => ?_
      unfold getPartition
      rw [hscheme]
      exact ite_self _
    rw [hnone]
  | gpt =>
    dsimp only
    have hall : goesOn d false = fun _ => true := rfl
    rw [listFrom_eq, hall, List.takeWhile_eq_self_iff.mpr fun _ _ => rfl]
    exact List.take_of_length_le hmax
  | mbr =>
    dsimp only
    obtain ⟨t, ht, htake, -, hstop⟩ := takeWhile_range' (goesOn d true) 1 36
    have hrest : (List.range' (1 + t) (99 - t)).filterMap (getPartition d) = [] := by
      refine List.filterMap_eq_nil_iff.mpr fun n hn => ?_
      rw [List.mem_range'_1] at hn
      by_cases hlast : t < 36
      · have hgo := hstop hlast
        simp only [goesOn, Bool.not_eq_false', Bool.true_and, Bool.and_eq_true, decide_eq_true_eq,
          Option.isNone_iff_eq_none] at hgo
        exact h.get_none hscheme hgo.1 hn.1 hgo.2
      · by_contra hne
        obtain ⟨p, hp⟩ := Option.ne_none_iff_exists'.mp hne
        obtain ⟨m, -, ⟨i, hi, rfl, -⟩ | ⟨ext, k, r, -, hk, rfl, -, -⟩⟩ := get_mbr_cases hscheme hp
        · omega
        · have : k < 32 := hk
          omega
    have hsplit : numbered d = (List.range' 1 t).filterMap (getPartition d) := by
      have happend : List.range' 1 ST_MAX_PART_NUMBER
          = List.range' 1 t ++ List.range' (1 + t) (99 - t) := by
        rw [List.range'_append_1, show t + (99 - t) = 99 by omega]
        rfl
      rw [numbered, happend, List.filterMap_append, hrest, List.append_nil]
    rw [hsplit] at hmax
    rw [listFrom_eq, show min (4 + ST_MAX_LOGICAL) ST_MAX_PART_NUMBER = 36 from rfl, htake, hsplit]
    exact List.take_of_length_le hmax

/-- What `st_gpt_header` reads is in the header. -/
theorem gptGeometry_eq_some {g : GptGeometry} (h : gptGeometry d = some g) :
    ∃ b, blkRead d 1 = some b ∧ g.entries_lba = le64 b 72 ∧ g.count ≤ b.le32 80
      ∧ g.esize = b.le32 84 ∧ g.esize ∣ 512 := by
  unfold gptGeometry at h
  split at h
  · cases h
  next b hb =>
  obtain ⟨⟨-, hhigh, hsize, -⟩, h⟩ := Option.ite_none_right_eq_some.mp h
  obtain rfl := Option.some.inj h
  rw [not_or, not_or, not_not] at hsize
  refine ⟨b, hb, ?_, Nat.min_le_left _ _, rfl, Nat.dvd_of_mod_eq_zero hsize.2.2⟩
  rw [le64, hhigh, Nat.mul_zero, Nat.add_zero]

theorem InUse.le64_eq {s : Block} {o : Nat} (h : InUse s o) :
    le64 s (o + 32) = s.le32 (o + 32) ∧ le64 s (o + 40) = s.le32 (o + 40) := by
  unfold le64
  rw [Nat.add_assoc o 32, Nat.add_assoc o 40, h.low.1, h.low.2]
  exact ⟨rfl, rfl⟩

/-- The part of the agreement for a GPT. -/
theorem gpt_assigned_iff {g : GptGeometry} {s : Block} (hscheme : scheme d = .gpt)
    (hg : gptGeometry d = some g) (h0 : 0 < n) (hn : n ≤ g.count)
    (hs : blkRead d (g.sector n % 2 ^ 32) = some s) (hin : InUse s (g.place n)) :
    (let start := s.le32 (g.place n + 32)
     let sectors := (s.le32 (g.place n + 40) - s.le32 (g.place n + 32) + 1) % 2 ^ 32
     Assigns d n start sectors ∧ start + sectors ≤ 2 ^ 32)
      ↔ g.sector n < 2 ^ 32 ∧ s.le32 (g.place n + 40) - s.le32 (g.place n + 32) + 1 < 2 ^ 32 := by
  obtain ⟨b, hb, hlba, hcount, hesize, -⟩ := gptGeometry_eq_some hg
  have hplace : le64 b 72 * 512 + (n - 1) * b.le32 84 = g.sector n * 512 + g.place n := by
    rw [← hlba, ← hesize, GptGeometry.sector, GptGeometry.place, Nat.add_mul, Nat.add_assoc,
      Nat.div_add_mod']
  have hlast : s.le32 (g.place n + 40) < 2 ^ 32 := s.le32_lt _
  have hle := hin.le
  dsimp only
  constructor
  · rintro ⟨hassigns, -⟩
    generalize hstart : s.le32 (g.place n + 32) = start at hassigns
    generalize hsectors : (s.le32 (g.place n + 40) - start + 1) % 2 ^ 32 = sectors at hassigns
    cases hassigns with
    | primary hscheme' => exact nomatch hscheme.symm.trans hscheme'
    | logical hscheme' => exact nomatch hscheme.symm.trans hscheme'
    | @gpt b' s' _ q o _ hread' _ _ hplace' ho hq hsector' _ hle' =>
      obtain rfl := Option.some.inj (hb.symm.trans hread')
      have hat : q * 512 + o = g.sector n * 512 + g.place n := hplace'.symm.trans hplace
      have hsmall : g.place n < 512 := Nat.mod_lt _ (by decide)
      obtain rfl : q = g.sector n := by omega
      obtain rfl : o = g.place n := by omega
      rw [Nat.mod_eq_of_lt hq] at hs
      obtain rfl := Option.some.inj (hs.symm.trans hsector')
      refine ⟨hq, ?_⟩
      rw [hin.le64_eq.1, hin.le64_eq.2] at hsectors
      rw [hin.le64_eq.1]
      exact Nat.lt_of_le_of_lt (Nat.le_of_eq hsectors.symm) (Nat.mod_lt _ (by decide))
  · rintro ⟨hsector, hlen⟩
    rw [Nat.mod_eq_of_lt hsector] at hs
    rw [Nat.mod_eq_of_lt hlen]
    refine ⟨?_, by omega⟩
    have hassigns := Assigns.gpt hscheme hb h0 (hn.trans hcount) hplace
      (Nat.mod_lt _ (by decide)) hsector hs hin.used (hin.le64_eq.1.trans_le
        (hle.trans_eq hin.le64_eq.2.symm))
    rwa [hin.le64_eq.1, hin.le64_eq.2] at hassigns

/-- A range that is found is one of the formats and does not wrap around. -/
theorem Fits.assigned (h : Fits d) (hp : getPartition d n = some p) :
    Assigns d n p.start p.sectors ∧ p.start + p.sectors ≤ 2 ^ 32 := by
  have hget := hp
  unfold getPartition at hget
  obtain ⟨hrange, hget⟩ := Option.ite_none_left_eq_some.mp hget
  cases hscheme : scheme d with
  | none =>
    rw [hscheme] at hget
    exact nomatch hget
  | gpt =>
    rw [hscheme] at hget
    obtain ⟨g, s, hg, hcount, hs, hin, rfl⟩ := gptPartition_eq_some.mp hget
    have h0 : 0 < n := by omega
    exact (gpt_assigned_iff hscheme hg h0 hcount hs hin).mpr
      (h.gpt hscheme g s n hg h0 hcount (by omega) hs hin)
  | mbr =>
    obtain ⟨m, hread, ⟨i, hi, rfl, hentry⟩ | ⟨ext, k, r, hchained, hk, rfl, hr, hlog⟩⟩ :=
      get_mbr_cases hscheme hp
    · obtain ⟨hused, rfl⟩ := mbrEntry_eq_some.mp hentry
      exact ⟨.primary hscheme hread hi hused, h.primary m hscheme hread i hi hused⟩
    · obtain ⟨hused, rfl⟩ := logical_eq_some.mp hlog
      have hfits := h.logical m ext hchained k hk r hr hused
      have hcount : entryCount r.2 0 ≠ 0 := hused.2
      obtain ⟨hchain, hrec, hsigned⟩ := chain_of_record hr
      dsimp only
      rw [Nat.mod_eq_of_lt (by omega)]
      exact ⟨.logical hscheme hread hchained.ext hchain hrec hsigned hused, hfits⟩

/-! ## Targets -/

theorem checkTarget_eq_ok {boot_dev boot_base : Nat} {t t' : Target}
    (h : checkTarget boot_dev boot_base t = .ok t') : t' = t
      ∧ ¬ (t.pos = boot_dev ∧ overlap t.base t.sectors boot_base installSectors = true) := by
  unfold checkTarget at h
  split at h
  · exact nomatch h
  split at h
  · exact nomatch h
  next hfree => exact ⟨(Except.ok.inj h).symm, hfree⟩

/-- **A target that is accepted** is inside of its device, and apart from what runs there. -/
theorem resolve_safe {devs : Devs} {boot_dev boot_base : Nat} {s : List UInt8} {t : Target}
    (h : resolve devs boot_dev boot_base s = .ok t) :
    t.base + t.sectors ≤ (devs t.pos).sectors.toNat
      ∧ (t.pos = boot_dev → boot_base + installSectors ≤ (devs t.pos).sectors.toNat →
        Disjoint (Finset.Ico t.base (t.base + t.sectors))
          (Finset.Ico boot_base (boot_base + installSectors))) := by
  have hinside : t.base + t.sectors ≤ (devs t.pos).sectors.toNat
      ∧ ¬ (t.pos = boot_dev ∧ overlap t.base t.sectors boot_base installSectors = true) := by
    unfold resolve at h
    split at h
    · exact nomatch h
    split at h
    · exact nomatch h
    split at h
    · exact nomatch h
    split at h
    · exact nomatch h
    split at h
    · exact nomatch h
    split at h
    · obtain ⟨rfl, hfree⟩ := checkTarget_eq_ok h
      exact ⟨Nat.le_of_eq (Nat.zero_add _), hfree⟩
    split at h
    · exact nomatch h
    split at h
    · exact nomatch h
    split at h
    · exact nomatch h
    next hrange =>
    obtain ⟨rfl, hfree⟩ := checkTarget_eq_ok h
    exact ⟨by dsimp only; omega, hfree⟩
  refine ⟨hinside.1, fun hboot hinst => ?_⟩
  have hlt : (devs t.pos).sectors.toNat < 2 ^ 32 := (devs t.pos).sectors.toNat_lt
  have hfree : ¬ overlap t.base t.sectors boot_base installSectors = true :=
    fun hover => hinside.2 ⟨hboot, hover⟩
  have hend := hinside.1
  unfold overlap at hfree
  rw [decide_eq_true_eq, Nat.mod_eq_of_lt (by omega), Nat.mod_eq_of_lt (by omega)] at hfree
  rw [Finset.disjoint_left]
  intro x hx hx'
  rw [Finset.mem_Ico] at hx hx'
  exact hfree ⟨by omega, by omega⟩

/-! ## The theorem -/

/-- The start that the format gives to a record's number. -/
theorem Assigns.start_eq {start sectors : Nat} (h : Assigns d (k + 5) start sectors)
    (hchained : Chained d m ext) {r : Nat × Block} (hr : record d ext k ext = some r) :
    start = r.1 + entryStart r.2 0 := by
  obtain ⟨hchain, hrec, -⟩ := chain_of_record hr
  generalize hn : k + 5 = n at h
  cases h with
  | primary _ _ hi => omega
  | gpt hscheme => exact nomatch hchained.scheme.symm.trans hscheme
  | @logical m' e' ext' k' c' _ hread hext hchain' hrec' =>
    obtain rfl : k = k' := by omega
    obtain rfl := Option.some.inj (hchained.read.symm.trans hread)
    obtain rfl := Option.some.inj (hchained.ext.symm.trans hext)
    obtain rfl := hchain.unique hchain'
    obtain rfl := Option.some.inj (hrec.symm.trans hrec')
    rfl

/-- What is behind a record without a partition is not listed. -/
theorem not_listed (hchained : Chained d m ext) {j max : Nat} (hj : j < k)
    (hnone : getPartition d (j + 5) = none) (hp : p.number = k + 5) :
    p ∉ listPartitions d max := by
  intro hmem
  unfold listPartitions at hmem
  rw [hchained.scheme] at hmem
  dsimp only at hmem
  rw [listFrom_eq] at hmem
  obtain ⟨n, hn, hget⟩ := List.mem_filterMap.mp (List.mem_of_mem_take hmem)
  obtain ⟨t, -, htake, hall, -⟩ :=
    takeWhile_range' (goesOn d true) 1 (min (4 + ST_MAX_LOGICAL) ST_MAX_PART_NUMBER)
  rw [htake, List.mem_range'_1] at hn
  have hnum := number_of_get hget
  have hgo := hall (j + 4) (by omega)
  rw [show 1 + (j + 4) = j + 5 by omega] at hgo
  simp [goesOn, hnone] at hgo

/-- What is listed and found as the formats say fits. -/
theorem Agrees.fits {devs : Devs} {pos boot_dev boot_base : Nat}
    (h : Agrees devs pos boot_dev boot_base) : Fits (devs pos) := by
  constructor
  · intro m hscheme hread i hi hused
    exact (h.assigned (i + 1) _ ((get_primary hscheme hread hi).trans
      (mbrEntry_eq_some.mpr ⟨hused, rfl⟩))).2
  · intro m ext hchained k hk r hr hused
    obtain ⟨hassigns, hend⟩ := h.assigned _ _ (hchained.get_used hk hr hused)
    have hstart := hassigns.start_eq hchained hr
    exact (congrArg (· + entryCount r.2 0 ≤ 2 ^ 32) hstart).mp hend
  · intro m ext hchained k hk j hj r r' hr hr' hused
    by_contra hunused
    have hnone : getPartition (devs pos) (j + 5) = none := by
      rw [hchained.get (hj.trans hk), hr, Option.bind_some, Option.eq_none_iff_forall_ne_some]
      exact fun p hp => hunused (logical_eq_some.mp hp).1
    have hget := hchained.get_used hk hr' hused
    have hmem := ((h.listed _ (Nat.le_refl _)).2 (recordPart (k + 5) r')).mpr hget
    exact not_listed hchained hj hnone rfl hmem
  · intro hscheme g s n hg h0 hcount hn hs hin
    have hget := (get_gpt hscheme h0 hn).trans
      (gptPartition_eq_some.mpr ⟨g, s, hg, hcount, hs, hin, rfl⟩)
    exact (gpt_assigned_iff hscheme hg h0 hcount hs hin).mp (h.assigned n _ hget)

/-- **Partitions.** -/
theorem agrees_iff (devs : Devs) (pos boot_dev boot_base : Nat) :
    Agrees devs pos boot_dev boot_base ↔ Fits (devs pos) := by
  refine ⟨Agrees.fits, fun h => ⟨fun max hmax => ?_, fun n p => h.assigned, ?_⟩⟩
  · rw [h.list_eq hmax]
    exact ⟨sorted_numbered _, fun p => mem_numbered⟩
  · rintro s t hok rfl
    exact resolve_safe hok

/-! ## An unused record in the middle -/

/-- An extended partition from sector 100 on with two records, of which only the second has a
partition. -/
def gapDisk : Dev where
  present := true
  sectors := 100000
  store lba :=
    if lba = 0 then mbrFill freshTable (entryAt 0) 100 1000 0x05 false
    else if lba = 100 then mbrFill freshTable (entryAt 1) 50 100 0x05 false
    else if lba = 150 then mbrFill freshTable (entryAt 0) 1 10 0x83 false
    else Block.zero
  rdOk _ := true
  wrOk _ := true

/-- Partition 6 is found, and only the container is listed. -/
theorem gap_not_listed : ¬ Agrees (fun _ => gapDisk) 0 1 0 := by
  intro h
  have hlist := ((h.listed 99 (by decide +kernel)).2
    ⟨6, 151, 10, 0x83, false, false, false⟩).mpr (by decide +kernel)
  exact absurd hlist (by decide +kernel)

end Storage
