import MiniWin.Usb.DescriptorNotes
import Mathlib.Data.List.Induction

/-!
# The walk and the meaning of a descriptor

`Sim` ties the variables of `hid_parse_report_desc` to what the items in front of it say. It holds
along a descriptor whose items the walk reads as they are meant: `Plain`. `walk_controls` is what
follows for a whole descriptor: the walk has seen the controls of the descriptor, one note each.
-/

namespace Usb

open Narrow Descriptor

/-! ## The bytes of an item -/

variable {data : List UInt8} {p : List UInt8} {s : Walk} {t : State}

/-- A byte above a number of so many bits. -/
theorem or_shift {v k : ℕ} (hv : v < 2 ^ k) (b : ℕ) : v ||| b <<< k = v + b * 2 ^ k := by
  rw [Nat.or_comm, ← Nat.shiftLeft_add_eq_or_of_lt hv, Nat.shiftLeft_eq, Nat.add_comm]

theorem number_lt (data : List UInt8) : number data < 256 ^ data.length := by
  induction data with
  | nil => exact Nat.one_pos
  | cons b data ih =>
    have hb := b.toNat_lt
    show b.toNat + 256 * number data < 256 ^ (data.length + 1)
    rw [Nat.pow_succ]
    omega

/-- The sizes of an item. -/
theorem data_cases (h : data.length ∈ [0, 1, 2, 4]) :
    data = [] ∨ (∃ a, data = [a]) ∨ (∃ a b, data = [a, b]) ∨ ∃ a b c d, data = [a, b, c, d] := by
  rcases data with _ | ⟨a, _ | ⟨b, _ | ⟨c, _ | ⟨d, _ | ⟨e, data⟩⟩⟩⟩⟩
  · exact Or.inl rfl
  · exact Or.inr (Or.inl ⟨a, rfl⟩)
  · exact Or.inr (Or.inr (Or.inl ⟨a, b, rfl⟩))
  · simp at h
  · exact Or.inr (Or.inr (Or.inr ⟨a, b, c, d, rfl⟩))
  · simp at h

/-- **The value of an item** is its number. -/
theorem valOf_eq (h : data.length ∈ [0, 1, 2, 4]) : valOf data = number data := by
  rcases data_cases h with rfl | ⟨a, rfl⟩ | ⟨a, b, rfl⟩ | ⟨a, b, c, d, rfl⟩
  · rfl
  · have ha := a.toNat_lt
    show (0 ||| a.toNat <<< 0) % 2 ^ 32 = a.toNat + 256 * 0
    rw [or_shift (by decide)]
    omega
  · have ha := a.toNat_lt
    have hb := b.toNat_lt
    show (0 ||| a.toNat <<< 0 ||| b.toNat <<< 8) % 2 ^ 32 = a.toNat + 256 * (b.toNat + 256 * 0)
    rw [or_shift (v := 0) (by decide), or_shift (by omega)]
    omega
  · have ha := a.toNat_lt
    have hb := b.toNat_lt
    have hc := c.toNat_lt
    have hd := d.toNat_lt
    show (0 ||| a.toNat <<< 0 ||| b.toNat <<< 8 ||| c.toNat <<< 16 ||| d.toNat <<< 24) % 2 ^ 32
      = a.toNat + 256 * (b.toNat + 256 * (c.toNat + 256 * (d.toNat + 256 * 0)))
    rw [or_shift (v := 0) (by decide), or_shift (k := 8) (by omega),
      or_shift (k := 16) (by omega), or_shift (k := 24) (by omega)]
    omega

/-- The cast of what has no more bits than the type. -/
theorem wrap_natCast {m v : ℕ} (h : v < 2 * m) :
    wrap m (v : ℤ) = if 2 * v < 2 * m then (v : ℤ) else v - (2 * m : ℕ) := by
  have hmod : (v : ℤ) % (2 * m : ℕ) = v := Int.emod_eq_of_lt (by omega) (by omega)
  unfold wrap Int.bmod
  dsimp only
  rw [hmod]
  by_cases hv : 2 * v < 2 * m
  · rw [if_pos hv, if_pos (by omega)]
  · rw [if_neg hv, if_neg (by omega)]

/-- A number in two's complement is cut to its size. -/
theorem signed_eq_wrap {m : ℕ} (h : 256 ^ data.length = 2 * m) :
    signed data = wrap m (number data) := by
  have hlt : number data < 2 * m := h ▸ number_lt data
  have hcast : (256 : ℤ) ^ data.length = (2 * m : ℕ) := by exact_mod_cast h
  rw [wrap_natCast hlt, signed, h, hcast]

@[simp] theorem cast_val (x : ℤ) : (I32.cast x).1 = wrap 0x80000000 x := rfl

/-- A cast to less is not changed by the cast to `i32`. -/
theorem wrap_wrap {m : ℕ} (hpos : 0 < m) (hm : m ≤ 0x80000000) (x : ℤ) :
    wrap 0x80000000 (wrap m x) = wrap m x := by
  obtain ⟨hlo, hhi⟩ := wrap_fits hpos x
  refine wrap_eq_self ⟨?_, ?_⟩ <;> omega

/-- **The signed value of an item.** -/
theorem svalOf_eq (h : data.length ∈ [0, 1, 2, 4]) :
    (svalOf data.length (number data)).1 = signed data := by
  rcases data_cases h with rfl | ⟨a, rfl⟩ | ⟨a, b, rfl⟩ | ⟨a, b, c, d, rfl⟩
  · rfl
  · rw [signed_eq_wrap (m := 0x80) (by simp), svalOf, if_pos (by simp), cast_val,
      wrap_wrap (by simp) (by simp)]
  · rw [signed_eq_wrap (m := 0x8000) (by simp), svalOf, if_neg (by simp), if_pos (by simp),
      cast_val, wrap_wrap (by simp) (by simp)]
  · rw [signed_eq_wrap (m := 0x80000000) (by simp), svalOf, if_neg (by simp), if_neg (by simp),
      cast_val]

/-- A maximum that is not negative, or has four bytes, needs no sign. -/
theorem cast_eq (h : data.length ∈ [0, 1, 2, 4]) (hmax : 0 ≤ signed data ∨ data.length = 4) :
    (I32.cast (number data)).1 = signed data := by
  by_cases h4 : data.length = 4
  · rw [signed_eq_wrap (m := 0x80000000) (by rw [h4]; simp), cast_val]
  · have hpos := hmax.resolve_right h4
    have hsmall : number data < 65536 := by
      refine (number_lt data).trans_le ?_
      rcases data_cases h with rfl | ⟨a, rfl⟩ | ⟨a, b, rfl⟩ | ⟨a, b, c, d, rfl⟩
      · simp
      · simp
      · simp
      · exact absurd rfl h4
    have hself : wrap 0x80000000 (number data : ℤ) = number data := by
      refine wrap_eq_self ⟨?_, ?_⟩ <;> omega
    rw [cast_val, hself]
    unfold signed at hpos ⊢
    split at hpos
    · next hhalf => exact (if_pos hhalf).symm
    · have : (number data : ℤ) < (256 ^ data.length : ℕ) := Int.ofNat_lt.mpr (number_lt data)
      push_cast at this
      omega

/-! ## Descriptors that are read as they are meant -/

/-- What is asked of a descriptor: an id of a report is a byte that is not zero, and no main item
comes between the two ends of a range of usages. -/
def Sound (t : State) : Item → Prop
  | .long _ _ _ => True
  | .short s =>
    match s.type, s.tag with
    | .main, _ => t.names.lo = none ∧ t.names.hi = none
    | .global, 8 => 0 < number s.data ∧ number s.data < 256
    | _, _ => True

/-- **A descriptor is well formed.** -/
def WellFormed (items : List Item) : Prop := Along Sound {} items

/-- The usages of the page of desktops that a pointer has. -/
def axes : List ℕ := [0x30, 0x31, 0x38]

/-- An `Input` with values for buttons, which have usages and all of them on their page. -/
structure ForButtons (t : State) (data : List UInt8) : Prop where
  page : t.table.page = 9
  valued : isVariable data = true
  named : t.names.entries ≠ []
  own : ∀ e ∈ t.names.entries, e.page = none ∨ e.page = some 9

/-- The usages are single ones, of which sixteen are enough, or one range that is long enough. -/
def Enough (entries : List Entry) (rcount : ℕ) : Prop :=
  (∃ ids : List (Option ℕ × ℕ), entries = ids.map (fun u => .one u.1 u.2)
      ∧ (ids.length ≤ 16 ∨ rcount ≤ 16))
    ∨ ∃ page lo hi, entries = [.range page lo hi] ∧ rcount ≤ hi - lo + 1

/-- An `Input` with values on the page of desktops. -/
structure ForAxes (t : State) (data : List UInt8) : Prop where
  page : t.table.page = 1
  valued : isVariable data = true
  own : ∀ e ∈ t.names.entries, e.page = none ∨ e.page = some 1
  enough : Enough t.names.entries t.table.rcount

/-- An `Input` that has nothing of a pointer, however far its ranges are counted. -/
structure ForOthers (t : State) : Prop where
  page : t.table.page ≠ 9
  apart : ∀ e ∈ t.names.entries, e.page ≠ some 9
    ∧ (t.table.page = 1 ∨ e.page = some 1 →
      ∀ k < max t.table.rcount e.size, (e.first + k) % 2 ^ 32 ∉ axes)

/-- **An item that the walk reads as it is meant.** It has no long items and no `Pop`, it starts a
report again that goes on, it does not know of sets of usages, and it takes a maximum for positive
while the minimum is. -/
def Follow (t : State) : Item → Prop
  | .long _ _ _ => False
  | .short s =>
    match s.type, s.tag with
    | .main, 8 =>
      isConstant s.data = true ∨ ForButtons t s.data ∨ ForAxes t s.data ∨ ForOthers t
    | .global, 2 => t.table.lmin < 0 ∨ 0 ≤ signed s.data ∨ s.data.length = 4
    | .global, 8 => t.used (number s.data) = 0
    | .global, 11 => False
    | .local, 10 => False
    | _, _ => True

/-! ## The bytes of items -/

/-- The first byte of a short item, read back. -/
theorem shortPrefix_parts (type size : Fin 4) (tag : Fin 16) :
    (shortPrefix type size tag).toNat % 4 = size
      ∧ (shortPrefix type size tag).toNat / 4 % 4 = type
      ∧ (shortPrefix type size tag).toNat / 16 = tag := by
  have hsize := size.2
  have htype := type.2
  have htag := tag.2
  unfold shortPrefix
  rw [UInt8.toNat_ofNat']
  omega

/-- **The walk goes over a short item.** -/
theorem walk_short (i : Short) (rest : List UInt8) (s : Walk) :
    walk ((Item.short i).bytes ++ rest) s
      = walk rest (s.item i.type.code i.tag i.data.length (number i.data)) := by
  obtain ⟨hsize, htype, htag⟩ := shortPrefix_parts i.type.code (sizeCode i.data.length) i.tag
  have hsz : (if (sizeCode i.data.length : ℕ) = 3 then 4 else (sizeCode i.data.length : ℕ))
      = i.data.length := by
    have hcases := i.sized
    simp only [List.mem_cons, List.not_mem_nil, or_false] at hcases
    rcases hcases with h | h | h | h <;> rw [h] <;> rfl
  have hlong : shortPrefix i.type.code (sizeCode i.data.length) i.tag ≠ 0xFE := i.not_long
  show walk (shortPrefix i.type.code (sizeCode i.data.length) i.tag :: (i.data ++ rest)) s = _
  rw [walk.eq_def]
  dsimp only
  rw [if_neg hlong, hsize, htype, htag, hsz, List.take_left, List.drop_left,
    valOf_eq i.sized, if_neg (by simp)]

/-! ## The usages of an `Input` -/

/-- The single usages of entries. -/
def ones (entries : List Entry) : List ℕ :=
  entries.filterMap fun e => match e with
    | .one _ id => some id
    | .range _ _ _ => none

/-- The minimum that came last among entries. -/
def lastLo (entries : List Entry) : Option ℕ :=
  entries.foldl (fun lo e => match e with
    | .one _ _ => lo
    | .range _ first _ => some first) none

/-- The minimum that came last. -/
def lastMin (l : Local) : Option ℕ :=
  match l.lo with
  | some lo => some lo.2
  | none => lastLo l.entries

theorem ones_append (entries : List Entry) (e : Entry) :
    ones (entries ++ [e]) = ones entries ++ ones [e] := List.filterMap_append

theorem lastLo_append_one (entries : List Entry) (page : Option ℕ) (id : ℕ) :
    lastLo (entries ++ [.one page id]) = lastLo entries := by
  unfold lastLo
  rw [List.foldl_append]
  rfl

theorem lastLo_append_range (entries : List Entry) (page : Option ℕ) (lo hi : ℕ) :
    lastLo (entries ++ [.range page lo hi]) = some lo := by
  unfold lastLo
  rw [List.foldl_append]
  rfl

/-- **What the walk keeps of local items**: the first sixteen single usages and the last
minimum. -/
structure SimNames (s : Walk) (l : Local) : Prop where
  usages : s.usages = (ones l.entries).take 16
  have_range : s.have_range = (lastMin l).isSome
  umin : s.umin = (lastMin l).getD 0
  alone : l.lo = none ∨ l.hi = none
  set : l.set = none
  small : ∀ e ∈ l.entries, e.first < 65536 ∧ e.first + e.size ≤ 65536
  small_lo : ∀ lo ∈ l.lo, lo.2 < 65536
  small_hi : ∀ hi ∈ l.hi, hi.2 < 65536

/-- The id of a usage is a word. -/
theorem usageOf_snd (h : data.length ∈ [0, 1, 2, 4]) :
    number data % 0x10000 = (usageOf data).2 ∧ (usageOf data).2 < 65536 := by
  unfold usageOf
  split
  · exact ⟨rfl, Nat.mod_lt _ (by decide)⟩
  · next h4 =>
    have hlt : number data < 65536 := by
      refine (number_lt data).trans_le ?_
      rcases data_cases h with rfl | ⟨a, rfl⟩ | ⟨a, b, rfl⟩ | ⟨a, b, c, d, rfl⟩
      · simp
      · simp
      · simp
      · exact absurd rfl h4
    exact ⟨Nat.mod_eq_of_lt hlt, hlt⟩

/-- Without a set an entry is put behind the others. -/
theorem push_eq {l : Local} (h : l.set = none) (e : Entry) :
    l.push e = { l with entries := l.entries ++ [e] } := by
  unfold Local.push
  rw [h]

theorem simNames_nil (s : Walk) (hu : s.usages = []) (hr : s.have_range = false)
    (hm : s.umin = 0) : SimNames s {} :=
  ⟨hu, hr, hm, Or.inl rfl, rfl, fun _ h => (List.not_mem_nil h).elim, fun _ h => (nomatch h),
    fun _ h => (nomatch h)⟩

/-- The local items of the walk. -/
theorem item_local (s : Walk) (tag sz val : ℕ) : s.item 2 tag sz val =
    if tag = 0 ∧ s.usages.length < 16 then { s with usages := s.usages ++ [val % 0x10000] }
    else if tag = 1 then { s with umin := val % 0x10000, have_range := true }
    else s := rfl

/-- A single usage more. -/
theorem SimNames.one {l : Local} (h : SimNames s l) {u : Option ℕ × ℕ} (hu : u.2 < 65536) :
    SimNames (if s.usages.length < 16 then { s with usages := s.usages ++ [u.2] } else s)
      (l.push (.one u.1 u.2)) := by
  rw [push_eq h.set]
  have hmin : lastMin { l with entries := l.entries ++ [.one u.1 u.2] } = lastMin l := by
    unfold lastMin
    rw [lastLo_append_one]
  have hones : (ones (l.entries ++ [.one u.1 u.2])).take 16
      = if s.usages.length < 16 then s.usages ++ [u.2] else s.usages := by
    rw [ones_append, h.usages, List.length_take]
    show (ones l.entries ++ [u.2]).take 16 = _
    by_cases hlen : (ones l.entries).length < 16
    · rw [if_pos (by omega), List.take_of_length_le (by simp; omega),
        List.take_of_length_le hlen.le]
    · rw [if_neg (by omega), List.take_append_of_le_length (by omega)]
  have hsmall : ∀ e ∈ l.entries ++ [Entry.one u.1 u.2], e.first < 65536
      ∧ e.first + e.size ≤ 65536 := by
    intro e he
    rcases List.mem_append.mp he with he | he
    · exact h.small e he
    · obtain rfl := List.mem_singleton.mp he
      exact ⟨hu, hu⟩
  split
  · next hlt =>
    exact ⟨by rw [hones, if_pos hlt], by rw [hmin]; exact h.have_range, by rw [hmin]; exact h.umin,
      h.alone, h.set, hsmall, h.small_lo, h.small_hi⟩
  · next hlt =>
    exact ⟨by rw [hones, if_neg hlt], by rw [hmin]; exact h.have_range, by rw [hmin]; exact h.umin,
      h.alone, h.set, hsmall, h.small_lo, h.small_hi⟩

/-- A range more does not add a single usage. -/
theorem take_ones_range (entries : List Entry) (page : Option ℕ) (lo hi : ℕ) :
    ones (entries ++ [.range page lo hi]) = ones entries := by
  rw [ones_append]
  exact List.append_nil _

/-- The usages of a range are words. -/
theorem small_range {entries : List Entry} {page : Option ℕ} {lo hi : ℕ} (hlo : lo < 65536)
    (hhi : hi < 65536) (h : ∀ e ∈ entries, e.first < 65536 ∧ e.first + e.size ≤ 65536) :
    ∀ e ∈ entries ++ [Entry.range page lo hi], e.first < 65536 ∧ e.first + e.size ≤ 65536 := by
  intro e he
  rcases List.mem_append.mp he with he | he
  · exact h e he
  · obtain rfl := List.mem_singleton.mp he
    show lo < 65536 ∧ lo + (hi - lo + 1) ≤ 65536
    omega

/-- A minimum more. -/
theorem SimNames.min {l : Local} (h : SimNames s l) (hdata : data.length ∈ [0, 1, 2, 4]) :
    SimNames { s with umin := number data % 0x10000, have_range := true } (l.item 1 data) := by
  obtain ⟨hmod, hsmall⟩ := usageOf_snd hdata
  rw [hmod]
  rw [Local.item_one]
  cases hhi : l.hi with
  | none =>
    refine ⟨h.usages, rfl, rfl, Or.inr rfl, h.set, h.small, fun lo hlo => ?_,
      fun _ h => (by cases h)⟩
    obtain rfl := Option.some.inj hlo
    exact hsmall
  | some hi =>
    have hlo : l.lo = none := h.alone.resolve_right (by rw [hhi]; exact Option.some_ne_none _)
    dsimp only
    rw [push_eq (show ({ l with hi := none } : Local).set = none from h.set)]
    have hmin : lastMin { l with
        hi := none
        entries := l.entries ++ [.range (usageOf data).1 (usageOf data).2 hi.2] }
        = some (usageOf data).2 := by
      unfold lastMin
      rw [hlo]
      exact lastLo_append_range _ _ _ _
    refine ⟨?_, by rw [hmin]; rfl, by rw [hmin]; rfl, Or.inl hlo, h.set,
      small_range hsmall (h.small_hi hi hhi) h.small, h.small_lo, fun _ h => (by cases h)⟩
    rw [take_ones_range]
    exact h.usages

/-- A maximum more, which the walk does not look at. -/
theorem SimNames.max {l : Local} (h : SimNames s l) (hdata : data.length ∈ [0, 1, 2, 4]) :
    SimNames s (l.item 2 data) := by
  obtain ⟨-, hsmall⟩ := usageOf_snd hdata
  rw [Local.item_two]
  cases hlo : l.lo with
  | none =>
    have hmin : lastMin { l with lo := none, hi := some (usageOf data) } = lastMin l := by
      unfold lastMin
      rw [hlo]
    refine ⟨h.usages, hmin ▸ h.have_range, hmin ▸ h.umin, Or.inl rfl, h.set, h.small,
      fun _ h => (by cases h), fun hi hhi => ?_⟩
    obtain rfl := Option.some.inj hhi
    exact hsmall
  | some lo =>
    dsimp only
    rw [push_eq (show ({ l with lo := none } : Local).set = none from h.set)]
    have hmin : lastMin { l with
        lo := none, entries := l.entries ++ [.range lo.1 lo.2 (usageOf data).2] } = lastMin l := by
      unfold lastMin
      rw [hlo]
      exact lastLo_append_range _ _ _ _
    refine ⟨?_, by rw [hmin]; exact h.have_range, by rw [hmin]; exact h.umin, Or.inl rfl, h.set,
      small_range (h.small_lo lo hlo) hsmall h.small, fun _ h => (by cases h), h.small_hi⟩
    rw [take_ones_range]
    exact h.usages

/-- **A step of the local items.** -/
theorem SimNames.step {l : Local} (h : SimNames s l) (hdata : data.length ∈ [0, 1, 2, 4])
    {tag : ℕ} (hset : tag ≠ 10) :
    SimNames (s.item 2 tag data.length (number data)) (l.item tag data) := by
  rw [item_local]
  by_cases h0 : tag = 0
  · obtain ⟨hmod, hsmall⟩ := usageOf_snd hdata
    have hone := h.one hsmall
    rw [h0, hmod]
    by_cases hlen : s.usages.length < 16
    · rw [if_pos hlen] at hone
      rw [if_pos ⟨rfl, hlen⟩]
      exact hone
    · rw [if_neg hlen] at hone
      rw [if_neg fun h => hlen h.2, if_neg (by decide)]
      exact hone
  · rw [if_neg fun h => h0 h.1]
    by_cases h1 : tag = 1
    · rw [if_pos h1, h1]
      exact h.min hdata
    · rw [if_neg h1]
      by_cases h2 : tag = 2
      · rw [h2]
        exact h.max hdata
      · have hsame : l.item tag data = l := by
          unfold Local.item
          split <;> first | contradiction | rfl
        rw [hsame]
        exact h

/-! ## The usage of a control -/

theorem size_pos (e : Entry) : 0 < e.size := by
  cases e with
  | one _ _ => exact Nat.one_pos
  | range _ _ _ => exact Nat.succ_pos _

/-- A usage that is found is one of an entry. -/
theorem nth_mem {entries : List Entry} {k : ℕ} {u : Option ℕ × ℕ} (h : nth entries k = some u) :
    ∃ e ∈ entries, e.page = u.1 ∧ ∃ j < e.size, u.2 = e.first + j := by
  induction entries generalizing k with
  | nil => cases h
  | cons e es ih =>
    cases es with
    | nil =>
      obtain rfl := Option.some.inj h
      have hpos := size_pos e
      exact ⟨e, List.mem_singleton_self e, rfl, Min.min k (e.size - 1), by omega, rfl⟩
    | cons e' es =>
      unfold nth at h
      split at h
      · next hk =>
        obtain rfl := Option.some.inj h
        exact ⟨e, List.mem_cons_self, rfl, k, hk, rfl⟩
      · obtain ⟨f, hf, hrest⟩ := ih h
        exact ⟨f, List.mem_cons_of_mem _ hf, hrest⟩

/-- Where something is named each control has a usage. -/
theorem nth_ne_none {entries : List Entry} (h : entries ≠ []) (k : ℕ) : nth entries k ≠ none := by
  induction entries generalizing k with
  | nil => exact absurd rfl h
  | cons e es ih =>
    cases es with
    | nil => exact Option.some_ne_none _
    | cons e' es =>
      unfold nth
      split
      · exact Option.some_ne_none _
      · exact ih (List.cons_ne_nil _ _) _

/-- Single usages are given out one by one. -/
theorem nth_ones (ids : List (Option ℕ × ℕ)) (k : ℕ) :
    nth (ids.map fun u => .one u.1 u.2) k = ids[Min.min k (ids.length - 1)]? := by
  induction ids generalizing k with
  | nil => rfl
  | cons u ids ih =>
    cases ids with
    | nil =>
      rw [show Min.min k ([u].length - 1) = 0 from Nat.min_eq_zero_iff.mpr (Or.inr rfl)]
      show some (u.1, u.2 + Min.min k (1 - 1)) = some u
      rw [Nat.min_eq_zero_iff.mpr (Or.inr rfl)]
      rfl
    | cons v ids =>
      show (if k < 1 then some (u.1, u.2 + k) else
        nth ((v :: ids).map fun u => .one u.1 u.2) (k - 1)) = _
      split
      · next hk =>
        obtain rfl := Nat.lt_one_iff.mp hk
        rfl
      · next hk =>
        rw [ih]
        obtain ⟨k, rfl⟩ : ∃ j, k = j + 1 := ⟨k - 1, by omega⟩
        have hmin : Min.min (k + 1) ((u :: v :: ids).length - 1)
            = Min.min k ((v :: ids).length - 1) + 1 := by
          simp only [List.length_cons]
          omega
        rw [hmin, Nat.add_sub_cancel, List.getElem?_cons_succ]

/-- The single usages of single usages. -/
theorem ones_map (ids : List (Option ℕ × ℕ)) :
    ones (ids.map fun u => .one u.1 u.2) = ids.map (·.2) := by
  induction ids with
  | nil => rfl
  | cons u ids ih => exact congrArg (u.2 :: ·) ih

theorem lastLo_map (ids : List (Option ℕ × ℕ)) :
    lastLo (ids.map fun u => .one u.1 u.2) = none := by
  unfold lastLo
  rw [List.foldl_map]
  induction ids with
  | nil => rfl
  | cons u ids ih => exact ih

/-- The last minimum begins a range. -/
theorem lastLo_mem {entries : List Entry} {lo : ℕ} (h : lastLo entries = some lo) :
    ∃ e ∈ entries, e.first = lo := by
  induction entries using List.reverseRecOn with
  | nil => cases h
  | append_singleton entries e ih =>
    cases e with
    | one page id =>
      rw [lastLo_append_one] at h
      obtain ⟨e, he, hfirst⟩ := ih h
      exact ⟨e, List.mem_append_left _ he, hfirst⟩
    | range page first hi =>
      rw [lastLo_append_range] at h
      exact ⟨_, List.mem_append_right _ (List.mem_singleton_self _), Option.some.inj h⟩

/-- A single usage is that of an entry. -/
theorem ones_mem {entries : List Entry} {id : ℕ} (h : id ∈ ones entries) :
    ∃ e ∈ entries, e.first = id := by
  obtain ⟨e, he, hid⟩ := List.mem_filterMap.mp h
  cases e with
  | one page id' => exact ⟨_, he, Option.some.inj hid⟩
  | range page lo hi => cases hid

/-- Not one of the axes. -/
theorem roleOf_eq_none {id : ℕ} (h : id ∉ axes) : roleOf ⟨1, id⟩ = none := by
  simp only [axes, List.mem_cons, List.not_mem_nil, or_false, not_or] at h
  unfold roleOf
  simp [h.1, h.2.1, h.2.2]

theorem roleOf_nine (id : ℕ) : roleOf ⟨9, id⟩ = some .button := rfl

theorem roleOf_other {page : ℕ} (h9 : page ≠ 9) (h1 : page ≠ 1) (id : ℕ) :
    roleOf ⟨page, id⟩ = none := by
  unfold roleOf
  simp [h9, h1]

/-- What the walk takes a control for. -/
def Walk.role (s : Walk) (val k : ℕ) : Option Role :=
  if val.testBit 0 then none else roleOf ⟨s.page, s.usage k⟩

variable {k : ℕ}

/-- The usages of an `Input` with values. -/
theorem usage_eq (hconst : isConstant data = false) (hvalued : isVariable data = true) :
    t.usage data k
      = (nth t.names.entries k).map fun u => ⟨u.1.getD t.table.page, u.2⟩ := by
  unfold State.usage
  rw [if_neg (by rw [hconst, hvalued]; decide)]

/-- **Buttons** are taken for buttons. -/
theorem ForButtons.role_eq (h : ForButtons t data) (hconst : isConstant data = false)
    (hpage : s.page = t.table.page) :
    s.role (number data) k = (t.usage data k).bind roleOf := by
  rw [usage_eq hconst h.valued]
  cases hnth : nth t.names.entries k with
  | none => exact absurd hnth (nth_ne_none h.named k)
  | some u =>
    obtain ⟨e, he, hpg, -⟩ := nth_mem hnth
    have hnine : u.1.getD 9 = 9 := by
      rcases h.own e he with hown | hown
      · rw [← hpg, hown]
        rfl
      · rw [← hpg, hown]
        rfl
    unfold Walk.role
    rw [if_neg (by simpa [isConstant] using hconst), hpage, h.page]
    show roleOf ⟨9, s.usage k⟩ = roleOf ⟨u.1.getD 9, u.2⟩
    rw [hnine, roleOf_nine, roleOf_nine]

/-- The usage that the walk works out where there are enough of them. -/
theorem Enough.usage_eq (h : Enough t.names.entries t.table.rcount) (hsim : SimNames s t.names)
    (hlo : t.names.lo = none) (hk : k < t.table.rcount) :
    s.usage k = ((nth t.names.entries k).map (·.2)).getD 0 := by
  rcases h with ⟨ids, hids, hlen⟩ | ⟨page, lo, hi, hrange, hlen⟩
  · have husages : s.usages = (ids.map (·.2)).take 16 := by
      rw [hsim.usages, hids, ones_map]
    rw [hids, nth_ones]
    unfold Walk.usage
    cases hids' : ids with
    | nil =>
      have hmin : lastMin t.names = none := by
        unfold lastMin
        rw [hlo, hids]
        exact lastLo_map ids
      rw [husages, hids', if_neg (by simp), hsim.have_range, hmin, if_neg (by simp)]
      rfl
    | cons u us =>
      rw [← hids']
      have hpos : 0 < ids.length := by rw [hids']; exact Nat.succ_pos _
      have hlen' : s.usages.length = Min.min 16 ids.length := by
        rw [husages, List.length_take, List.length_map]
      have hne : s.usages ≠ [] := List.ne_nil_of_length_pos (by omega)
      have hindex : (if k < s.usages.length then k else s.usages.length - 1)
          = Min.min k (ids.length - 1) := by
        split <;> omega
      have hlt : Min.min k (ids.length - 1) < 16 := by omega
      rw [if_pos hne, hindex, husages, List.getD_eq_getElem?_getD, List.getElem?_take_of_lt hlt,
        List.getElem?_map]
  · have hmin : lastMin t.names = some lo := by
      unfold lastMin
      rw [hlo, hrange]
      rfl
    have hsmall := hsim.small _ (hrange ▸ List.mem_singleton_self _)
    have husages : s.usages = [] := by
      rw [hsim.usages, hrange]
      rfl
    unfold Walk.usage
    rw [husages, if_neg (by simp), hsim.have_range, hmin, hsim.umin, hmin, hrange]
    show (lo + k) % 2 ^ 32 = lo + Min.min k (hi - lo + 1 - 1)
    have : lo + (hi - lo + 1) ≤ 65536 := hsmall.2
    omega

/-- **Axes** are taken for what they are. -/
theorem ForAxes.role_eq (h : ForAxes t data) (hconst : isConstant data = false)
    (hpage : s.page = t.table.page) (hsim : SimNames s t.names) (hlo : t.names.lo = none)
    (hk : k < t.table.rcount) :
    s.role (number data) k = (t.usage data k).bind roleOf := by
  rw [Usb.usage_eq hconst h.valued]
  unfold Walk.role
  rw [if_neg (by simpa [isConstant] using hconst), hpage, h.page,
    h.enough.usage_eq hsim hlo hk]
  cases hnth : nth t.names.entries k with
  | none => rfl
  | some u =>
    obtain ⟨e, he, hpg, -⟩ := nth_mem hnth
    have hone : u.1.getD 1 = 1 := by
      rcases h.own e he with hown | hown
      · rw [← hpg, hown]
        rfl
      · rw [← hpg, hown]
        rfl
    show roleOf ⟨1, u.2⟩ = roleOf ⟨u.1.getD 1, u.2⟩
    rw [hone]

/-- What is for others the walk takes for nothing. -/
theorem ForOthers.walk_role (h : ForOthers t) (hpage : s.page = t.table.page)
    (hsim : SimNames s t.names) (hlo : t.names.lo = none) (hk : k < t.table.rcount) (val : ℕ) :
    s.role val k = none := by
  unfold Walk.role
  split
  · rfl
  · by_cases h1 : t.table.page = 1
    · -- whatever the walk works out is in reach of an entry
      have hreach : ∀ e ∈ t.names.entries, ∀ j < Max.max t.table.rcount e.size,
          (e.first + j) % 2 ^ 32 ∉ axes := fun e he => (h.apart e he).2 (Or.inl h1)
      rw [hpage, h1]
      refine roleOf_eq_none ?_
      unfold Walk.usage
      by_cases hne : s.usages ≠ []
      · rw [if_pos hne]
        have hpos := List.length_pos_iff.mpr hne
        have hindex : (if k < s.usages.length then k else s.usages.length - 1)
            < s.usages.length := by split <;> omega
        rw [List.getD_eq_getElem _ _ hindex]
        have hones : ∀ id ∈ s.usages, id ∈ ones t.names.entries := by
          intro id hid
          rw [hsim.usages] at hid
          exact List.mem_of_mem_take hid
        obtain ⟨e, he, hfirst⟩ := ones_mem (hones _ (List.getElem_mem hindex))
        have hnot := hreach e he 0 (by have := size_pos e; omega)
        have hsmall := (hsim.small e he).1
        rw [Nat.add_zero, Nat.mod_eq_of_lt (by omega), hfirst] at hnot
        exact hnot
      · rw [if_neg hne]
        split
        · next hrange =>
          have hsome : (lastMin t.names).isSome = true := hsim.have_range ▸ hrange
          obtain ⟨lo, hmin⟩ := Option.isSome_iff_exists.mp hsome
          rw [hsim.umin, hmin]
          unfold lastMin at hmin
          rw [hlo] at hmin
          obtain ⟨e, he, hfirst⟩ := lastLo_mem hmin
          rw [← hfirst]
          exact hreach e he k (by omega)
        · decide
    · exact hpage ▸ roleOf_other h.page h1 _

/-- What is for others is not meant for a pointer. -/
theorem ForOthers.role (h : ForOthers t) (hsim : SimNames s t.names) :
    (t.usage data k).bind roleOf = none := by
  unfold State.usage
  split
  · rfl
  · cases hnth : nth t.names.entries k with
    | none => rfl
    | some u =>
      obtain ⟨e, he, hpg, j, hj, hid⟩ := nth_mem hnth
      obtain ⟨hnine, hreach⟩ := h.apart e he
      show roleOf ⟨u.1.getD t.table.page, u.2⟩ = none
      have h9 : u.1.getD t.table.page ≠ 9 := by
        cases hu : u.1 with
        | none => exact h.page
        | some page => exact fun heq => hnine (by rw [hpg, hu]; exact congrArg some heq)
      by_cases h1 : u.1.getD t.table.page = 1
      · have hpage : t.table.page = 1 ∨ e.page = some 1 := by
          cases hu : u.1 with
          | none => exact Or.inl (by rw [hu] at h1; exact h1)
          | some page =>
            rw [hu] at h1
            exact Or.inr (by rw [hpg, hu]; exact congrArg some h1)
        have hnot := hreach hpage j (lt_max_of_lt_right hj)
        have hsmall := (hsim.small e he).2
        rw [Nat.mod_eq_of_lt (by omega), ← hid] at hnot
        rw [h1]
        exact roleOf_eq_none hnot
      · exact roleOf_other h9 h1 _

/-! ## The simulation -/

/-- The note of a control, with the casts of its fields. -/
def noteOf (c : Control) : Note where
  role := c.usage.bind roleOf
  rid := c.rid
  field :=
    { off := c.off % 0x10000, size := c.size % 0x100, rel := c.rel
      lmin := (I32.cast c.lmin).1, lmax := (I32.cast c.lmax).1
      off_u16 := Nat.mod_lt _ (by decide), size_u8 := Nat.mod_lt _ (by decide)
      lmin_i32 := (I32.cast c.lmin).2, lmax_i32 := (I32.cast c.lmax).2 }

/-- The table of the global items, as the walk has it. -/
structure SimTable (s : Walk) (g : Global) : Prop where
  page : s.page = g.page
  rsize : s.rsize = g.rsize
  rcount : s.rcount = g.rcount
  rid : s.rid = g.rid
  lmin : s.lmin.1 = g.lmin
  lmax : s.lmax.1 = g.lmax
  byte : g.rid < 256

/-- **The walk knows what the items say.** -/
structure Sim (d : Dev) (s : Walk) (t : State) : Prop where
  table : SimTable s t.table
  names : SimNames s t.names
  bitpos : s.bitpos = t.used t.table.rid % 2 ^ 32
  found : s.found = (t.controls.map noteOf).foldl Found.take { dev := d }
  fits : ∀ c ∈ t.controls, c.rid < 256 ∧ Fits 0x80000000 c.lmin ∧ Fits 0x80000000 c.lmax

/-- A walk at its place in the loop of an `Input`. -/
def Walk.at (s : Walk) (found : Found) (bitpos : ℕ) : Walk :=
  { s with found := found, bitpos := bitpos }

/-- The controls of an `Input` whose report has so many bits. -/
def controlAt (t : State) (data : List UInt8) (base k : ℕ) : Control where
  rid := t.table.rid
  off := base + k * t.table.rsize
  size := t.table.rsize
  usage := t.usage data k
  rel := isRelative data
  lmin := t.table.lmin
  lmax := t.table.lmax

/-- **A round of the loop sees its control.** -/
theorem note_eq (h : SimTable s t.table) (base : ℕ) (found : Found)
    (hrole : s.role (number data) k = (t.usage data k).bind roleOf) :
    (s.at found ((base + k * s.rsize) % 2 ^ 32)).note (number data) (s.usage k)
      = noteOf (controlAt t data base k) := by
  have hoff : (base + k * s.rsize) % 2 ^ 32 % 0x10000
      = (base + k * t.table.rsize) % 0x10000 := by
    rw [Nat.mod_mod_of_dvd _ (by decide), h.rsize]
  have hlmin : s.lmin.1 = (I32.cast t.table.lmin).1 := by
    rw [cast_val, ← h.lmin, wrap_eq_self s.lmin.2]
  have hlmax : s.lmax.1 = (I32.cast t.table.lmax).1 := by
    rw [cast_val, ← h.lmax, wrap_eq_self s.lmax.2]
  simp only [Walk.note, noteOf, Walk.field, Note.mk.injEq, Field.mk.injEq]
  exact ⟨hrole, h.rid, hoff, congrArg (· % 0x100) h.rsize, rfl, hlmin, hlmax⟩

/-- **The loop of an `Input`** takes the notes of its controls. -/
theorem input_eq (h : SimTable s t.table) (hrole : ∀ k < t.table.rcount,
      s.role (number data) k = (t.usage data k).bind roleOf)
    (base n k : ℕ) (hk : k + n ≤ t.table.rcount) (found : Found) :
    (s.at found ((base + k * s.rsize) % 2 ^ 32)).input (number data) n k
      = s.at (((List.range' k n).map fun j => noteOf (controlAt t data base j)).foldl Found.take
          found) ((base + (k + n) * s.rsize) % 2 ^ 32) := by
  induction n generalizing k found with
  | zero => rfl
  | succ n ih =>
    have hnext : ((base + k * s.rsize) % 2 ^ 32 + s.rsize) % 2 ^ 32
        = (base + (k + 1) * s.rsize) % 2 ^ 32 := by
      rw [Nat.mod_add_mod, Nat.add_mul, Nat.one_mul, Nat.add_assoc]
    have hround := ih (k + 1) (by omega) (found.take (noteOf (controlAt t data base k)))
    unfold Walk.input
    rw [look_eq]
    show Walk.input (number data) n (k + 1) (s.at (found.take ((s.at found _).note (number data)
      (s.usage k))) (((base + k * s.rsize) % 2 ^ 32 + s.rsize) % 2 ^ 32)) = _
    rw [note_eq h base found (hrole k (by omega)), hnext, hround, List.range'_succ,
      List.map_cons, List.foldl_cons, Nat.add_assoc k 1 n, Nat.add_comm 1 n]

/-- **An `Input`** is seen as it is meant. -/
theorem Sim.role_eq {d : Dev} (h : Sim d s t) (hlo : t.names.lo = none)
    (hfollow : isConstant data = true ∨ ForButtons t data ∨ ForAxes t data ∨ ForOthers t)
    (hk : k < t.table.rcount) : s.role (number data) k = (t.usage data k).bind roleOf := by
  cases hconst : isConstant data with
  | true =>
    unfold Walk.role State.usage
    rw [if_pos (by simpa [isConstant] using hconst), if_pos (Or.inl hconst)]
    rfl
  | false =>
    rcases hfollow with hc | hb | ha | ho
    · rw [hconst] at hc
      cases hc
    · exact hb.role_eq hconst h.table.page
    · exact ha.role_eq hconst h.table.page h.names hlo hk
    · rw [ho.walk_role h.table.page h.names hlo hk, ho.role h.names]

/-- The end of a main item. -/
def Walk.forget (s : Walk) : Walk := { s with usages := [], have_range := false, umin := 0 }

theorem item_main (s : Walk) (tag sz val : ℕ) : s.item 0 tag sz val =
    (if tag = 8 then
      if (s.input val s.rcount 0).found.trid = (s.input val s.rcount 0).rid
          ∧ (s.input val s.rcount 0).bitpos > (s.input val s.rcount 0).rid_bits then
        { s.input val s.rcount 0 with rid_bits := (s.input val s.rcount 0).bitpos }
      else s.input val s.rcount 0
    else s).forget := rfl

/-- A main item that is no `Input` only ends what local items have named. -/
theorem main_of_ne (t : State) {tag : ℕ} (h : tag ≠ 8) (data : List UInt8) :
    t.main tag data = { t with names := {} } := by
  unfold State.main
  split
  · exact absurd rfl h
  · rfl

/-- The controls of an `Input`. -/
theorem inputs_eq (t : State) (data : List UInt8) : t.inputs data
    = (List.range' 0 t.table.rcount).map (controlAt t data (t.used t.table.rid)) := by
  rw [← List.range_eq_range']
  rfl

/-- **A main item** keeps the simulation. -/
theorem Sim.main {d : Dev} (h : Sim d s t) (hlo : t.names.lo = none) (tag sz : ℕ)
    (hfollow : tag = 8 →
      isConstant data = true ∨ ForButtons t data ∨ ForAxes t data ∨ ForOthers t) :
    Sim d (s.item 0 tag sz (number data)) (t.main tag data) := by
  rw [item_main]
  by_cases h8 : tag = 8
  · have hinput := input_eq h.table (fun k hk => h.role_eq hlo (hfollow h8) hk)
      (t.used t.table.rid) t.table.rcount 0 (by omega) s.found
    rw [Nat.zero_mul, Nat.add_zero, ← h.bitpos, Nat.zero_add] at hinput
    rw [if_pos h8, h.table.rcount, h8]
    change s.input (number data) t.table.rcount 0 = _ at hinput
    rw [hinput]
    have hnames : ∀ s' : Walk, SimNames s'.forget {} := fun s' => simNames_nil _ rfl rfl rfl
    have hbits : (t.used t.table.rid + t.table.rcount * s.rsize) % 2 ^ 32
        = Function.update t.used t.table.rid (t.used t.table.rid
          + t.table.rcount * t.table.rsize) t.table.rid % 2 ^ 32 := by
      rw [Function.update_self, h.table.rsize]
    have hfound : ((List.range' 0 t.table.rcount).map fun j => noteOf
          (controlAt t data (t.used t.table.rid) j)).foldl Found.take s.found
        = ((t.controls ++ t.inputs data).map noteOf).foldl Found.take { dev := d } := by
      rw [List.map_append, List.foldl_append, ← h.found, inputs_eq, List.map_map]
      rfl
    have hfits : ∀ c ∈ t.controls ++ t.inputs data,
        c.rid < 256 ∧ Fits 0x80000000 c.lmin ∧ Fits 0x80000000 c.lmax := by
      intro c hc
      rcases List.mem_append.mp hc with hc | hc
      · exact h.fits c hc
      · obtain ⟨k, -, rfl⟩ := List.mem_map.mp hc
        exact ⟨h.table.byte, h.table.lmin ▸ s.lmin.2, h.table.lmax ▸ s.lmax.2⟩
    split
    · exact ⟨⟨h.table.page, h.table.rsize, h.table.rcount, h.table.rid, h.table.lmin,
        h.table.lmax, h.table.byte⟩, hnames _, hbits, hfound, hfits⟩
    · exact ⟨⟨h.table.page, h.table.rsize, h.table.rcount, h.table.rid, h.table.lmin,
        h.table.lmax, h.table.byte⟩, hnames _, hbits, hfound, hfits⟩
  · rw [if_neg h8, main_of_ne t h8]
    exact ⟨⟨h.table.page, h.table.rsize, h.table.rcount, h.table.rid, h.table.lmin,
      h.table.lmax, h.table.byte⟩, simNames_nil _ rfl rfl rfl, h.bitpos, h.found, h.fits⟩

/-- The global items of the walk. -/
theorem item_global (s : Walk) (tag sz val : ℕ) : s.item 1 tag sz val =
    if tag = 0 then { s with page := val }
    else if tag = 1 then { s with lmin := svalOf sz val }
    else if tag = 2 then { s with lmax := if 0 ≤ s.lmin.1 then I32.cast val else svalOf sz val }
    else if tag = 7 then { s with rsize := val }
    else if tag = 8 then { s with rid := val, bitpos := 0 }
    else if tag = 9 then { s with rcount := val }
    else s := rfl

/-- The local items are not touched by the others. -/
theorem SimNames.congr {s' : Walk} {l : Local} (h : SimNames s l) (hu : s'.usages = s.usages)
    (hr : s'.have_range = s.have_range) (hm : s'.umin = s.umin) : SimNames s' l :=
  ⟨hu.trans h.usages, hr.trans h.have_range, hm.trans h.umin, h.alone, h.set, h.small, h.small_lo,
    h.small_hi⟩

/-- **A global item** keeps the simulation. -/
theorem Sim.global {d : Dev} (h : Sim d s t) (hdata : data.length ∈ [0, 1, 2, 4]) (tag : ℕ)
    (hmax : tag = 2 → t.table.lmin < 0 ∨ 0 ≤ signed data ∨ data.length = 4)
    (hrid : tag = 8 → t.used (number data) = 0 ∧ number data < 256) (hpop : tag ≠ 11) :
    Sim d (s.item 1 tag data.length (number data)) (t.global tag data) := by
  obtain ⟨hpage, hrsize, hrcount, hid, hlmin, hlmax, hbyte⟩ := h.table
  have hnames {s' : Walk} (hu : s'.usages = s.usages) (hr : s'.have_range = s.have_range)
      (hm : s'.umin = s.umin) : SimNames s' t.names := h.names.congr hu hr hm
  by_cases h0 : tag = 0
  · subst h0
    exact ⟨⟨rfl, hrsize, hrcount, hid, hlmin, hlmax, hbyte⟩, hnames rfl rfl rfl, h.bitpos,
      h.found, h.fits⟩
  by_cases h1 : tag = 1
  · subst h1
    exact ⟨⟨hpage, hrsize, hrcount, hid, svalOf_eq hdata, hlmax, hbyte⟩, hnames rfl rfl rfl,
      h.bitpos, h.found, h.fits⟩
  by_cases h2 : tag = 2
  · subst h2
    have hval : (if 0 ≤ s.lmin.1 then I32.cast (number data)
        else svalOf data.length (number data)).1 = signed data := by
      by_cases hpos : 0 ≤ s.lmin.1
      · rw [if_pos hpos]
        exact cast_eq hdata ((hmax rfl).resolve_left (by omega))
      · rw [if_neg hpos]
        exact svalOf_eq hdata
    exact ⟨⟨hpage, hrsize, hrcount, hid, hlmin, hval, hbyte⟩, hnames rfl rfl rfl, h.bitpos,
      h.found, h.fits⟩
  by_cases h7 : tag = 7
  · subst h7
    exact ⟨⟨hpage, rfl, hrcount, hid, hlmin, hlmax, hbyte⟩, hnames rfl rfl rfl, h.bitpos,
      h.found, h.fits⟩
  by_cases h8 : tag = 8
  · subst h8
    obtain ⟨hused, hlt⟩ := hrid rfl
    refine ⟨⟨hpage, hrsize, hrcount, rfl, hlmin, hlmax, hlt⟩, hnames rfl rfl rfl, ?_, h.found,
      h.fits⟩
    show 0 = t.used (number data) % 2 ^ 32
    rw [hused, Nat.zero_mod]
  by_cases h9 : tag = 9
  · subst h9
    exact ⟨⟨hpage, hrsize, rfl, hid, hlmin, hlmax, hbyte⟩, hnames rfl rfl rfl, h.bitpos,
      h.found, h.fits⟩
  rw [item_global, if_neg h0, if_neg h1, if_neg h2, if_neg h7, if_neg h8, if_neg h9]
  by_cases h10 : tag = 10
  · subst h10
    exact ⟨h.table, h.names, h.bitpos, h.found, h.fits⟩
  · have hsame : t.global tag data = t := by
      unfold State.global
      split <;> first | contradiction | rfl
    rw [hsame]
    exact h

/-- **A local item** keeps the simulation. -/
theorem Sim.local {d : Dev} (h : Sim d s t) (hdata : data.length ∈ [0, 1, 2, 4]) {tag : ℕ}
    (hset : tag ≠ 10) :
    Sim d (s.item 2 tag data.length (number data)) { t with names := t.names.item tag data } := by
  obtain ⟨hpage, hrsize, hrcount, hid, hlmin, hlmax, hbyte⟩ := h.table
  have hnames := h.names.step hdata hset
  rw [item_local] at hnames ⊢
  split
  · next h0 =>
    rw [if_pos h0] at hnames
    exact ⟨⟨hpage, hrsize, hrcount, hid, hlmin, hlmax, hbyte⟩, hnames, h.bitpos, h.found, h.fits⟩
  · next h0 =>
    rw [if_neg h0] at hnames
    split
    · next h1 =>
      rw [if_pos h1] at hnames
      exact ⟨⟨hpage, hrsize, hrcount, hid, hlmin, hlmax, hbyte⟩, hnames, h.bitpos, h.found,
        h.fits⟩
    · next h1 =>
      rw [if_neg h1] at hnames
      exact ⟨h.table, hnames, h.bitpos, h.found, h.fits⟩

/-- **An item** keeps the simulation. -/
theorem Sim.step {d : Dev} (h : Sim d s t) (i : Short) (hsound : Sound t (.short i))
    (hfollow : Follow t (.short i)) :
    Sim d (s.item i.type.code i.tag i.data.length (number i.data)) (t.step (.short i)) := by
  obtain ⟨type, tag, data, hdata, hlong⟩ := i
  cases type with
  | main =>
    refine h.main (by simpa [Sound] using hsound.1) tag data.length fun h8 => ?_
    obtain rfl : tag = 8 := Fin.ext h8
    exact hfollow
  | global =>
    refine h.global hdata tag (fun h2 => ?_) (fun h8 => ?_) fun h11 => ?_
    · obtain rfl : tag = 2 := Fin.ext h2
      exact hfollow
    · obtain rfl : tag = 8 := Fin.ext h8
      exact ⟨hfollow, hsound.2⟩
    · obtain rfl : tag = 11 := Fin.ext h11
      exact hfollow
  | «local» =>
    have hset : (tag : ℕ) ≠ 10 := by
      intro h10
      obtain rfl : tag = 10 := Fin.ext h10
      exact hfollow
    exact h.local hdata hset
  | reserved => exact h

/-- The walk at its beginning. -/
theorem sim_start (d : Dev) : Sim d { found := { dev := d } } {} :=
  ⟨⟨rfl, rfl, rfl, rfl, rfl, rfl, by decide⟩, simNames_nil _ rfl rfl rfl, rfl, rfl,
    fun _ h => (List.not_mem_nil h).elim⟩

/-- **A descriptor** keeps the simulation. -/
theorem Sim.run {d : Dev} (h : Sim d s t) {items : List Item} (hsound : Along Sound t items)
    (hfollow : Along Follow t items) :
    Sim d (walk (encode items) s) (items.foldl State.step t) := by
  induction items generalizing s t with
  | nil =>
    show Sim d (walk [] s) t
    rw [walk.eq_def]
    exact h
  | cons i items ih =>
    obtain ⟨hi, hsound⟩ := hsound
    obtain ⟨hf, hfollow⟩ := hfollow
    cases i with
    | long _ _ _ => exact hf.elim
    | short i =>
      show Sim d (walk ((Item.short i).bytes ++ encode items) s) _
      rw [walk_short]
      exact ih (h.step i hi hf) hsound hfollow

end Usb
