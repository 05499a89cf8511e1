import MiniWin.Lib.Scaling
import MiniWin.Usb.Hid

/-!
# Absolute pointers

The range of a field is halved together with a value of it, until both have 16 bits. How often does
not depend on a value in the range, and a value above the range stays above it. So the position
follows the field, as long as its differences are `i32`s; and they are, exactly for fields of less
than 32 bits whose range and largest value are less than `2 ^ 31` above the logical minimum.
-/

namespace Usb

open BitFields Narrow Scaling

/-! ## Halving -/

/-- How often a range is halved. -/
def halvings (r : ℤ) : ℕ := if r > 0xFFFF then halvings (r / 2) + 1 else 0
termination_by r.toNat
decreasing_by omega

theorem ediv_two_pow_succ (r : ℤ) (k : ℕ) : r / 2 / 2 ^ k = r / 2 ^ (k + 1) := by
  rw [Int.ediv_ediv_of_nonneg (by decide), Int.pow_succ, Int.mul_comm]

/-- A range that is halved is still one, of 16 bits. -/
theorem halved_range {r : ℤ} (hr : 0 < r) :
    0 < r / 2 ^ halvings r ∧ r / 2 ^ halvings r ≤ 0xFFFF := by
  fun_induction halvings r with
  | case1 r hbig ih =>
    rw [← ediv_two_pow_succ]
    exact ih (by omega)
  | case2 r hsmall =>
    rw [Int.pow_zero, Int.ediv_one]
    exact ⟨hr, not_lt.mp hsmall⟩

/-- **A value up to the range** is halved as often as the range. -/
theorem shrink_of_le {r x : ℤ} (hx : x ≤ r) :
    shrink r x = (r / 2 ^ halvings r, x / 2 ^ halvings r) := by
  fun_induction halvings r generalizing x with
  | case1 r hbig ih =>
    unfold shrink
    rw [if_pos (.inl hbig), ih (Int.ediv_le_ediv (by decide) hx), ediv_two_pow_succ,
      ediv_two_pow_succ]
  | case2 r hsmall =>
    unfold shrink
    rw [if_neg (by omega), Int.pow_zero, Int.ediv_one, Int.ediv_one]

/-- **A value above the range** stays there, and gets 16 bits. -/
theorem shrink_of_ge {r x : ℤ} (hx : r ≤ x) (hpos : 0 < x) :
    (shrink r x).1 ≤ (shrink r x).2 ∧ 0 < (shrink r x).2 ∧ (shrink r x).2 ≤ 0xFFFF := by
  fun_induction shrink r x with
  | case1 r x hbig ih => exact ih (Int.ediv_le_ediv (by decide) hx) (by omega)
  | case2 r x hsmall => exact ⟨hx, hpos, by omega⟩

/-! ## Where a value is -/

/-- The place of a value among `0 … last`. -/
def Field.place (f : Field) (last x : ℤ) : ℤ :=
  if x ≤ f.lmin then 0
  else if f.lmax ≤ x then last
  else
    let k := halvings (f.lmax - f.lmin)
    scale last ((f.lmax - f.lmin) / 2 ^ k) ((x - f.lmin) / 2 ^ k)

variable {f : Field} {last x y : ℤ}

theorem place_mem (h : f.lmin < f.lmax) (hlast : 0 ≤ last) (x : ℤ) :
    0 ≤ f.place last x ∧ f.place last x ≤ last := by
  have hrange := (halved_range (Int.sub_pos.mpr h)).1
  have hpow : (0 : ℤ) < 2 ^ halvings (f.lmax - f.lmin) := Int.pow_pos (by decide)
  unfold Field.place
  split
  · exact ⟨le_rfl, hlast⟩
  · split
    · exact ⟨hlast, le_rfl⟩
    · exact ⟨scale_nonneg hlast hrange (Int.ediv_nonneg (by omega) hpow.le),
        scale_le hlast hrange (Int.ediv_le_ediv hpow (by omega))⟩

/-- **The place follows the value.** -/
theorem place_mono (h : f.lmin < f.lmax) (hlast : 0 ≤ last) (hxy : x ≤ y) :
    f.place last x ≤ f.place last y := by
  have hrange := (halved_range (Int.sub_pos.mpr h)).1
  have hpow : (0 : ℤ) < 2 ^ halvings (f.lmax - f.lmin) := Int.pow_pos (by decide)
  by_cases hlo : x ≤ f.lmin
  · have hx : f.place last x = 0 := if_pos hlo
    rw [hx]
    exact (place_mem h hlast y).1
  · by_cases hhi : f.lmax ≤ y
    · have hy : f.place last y = last := by
        unfold Field.place
        rw [if_neg (by omega), if_pos hhi]
      rw [hy]
      exact (place_mem h hlast x).2
    · unfold Field.place
      rw [if_neg hlo, if_neg (by omega), if_neg (by omega), if_neg hhi]
      exact scale_mono hlast hrange (Int.ediv_le_ediv hpow (by omega))

theorem i32_eq (h : Fits 0x80000000 x) : i32 x = some x := if_pos h

theorem u32_eq (hlo : 0 ≤ x) (hhi : x < 2 ^ 32) : u32 x = some x := if_pos ⟨hlo, hhi⟩

/-- What is made of a halved range and value. -/
theorem scaled_of_shrink (hrange : f.lmax - f.lmin < 0x80000000) (h : f.lmin < f.lmax)
    (hx : Fits 0x80000000 (x - f.lmin)) :
    scaled f last x =
      let r := if (shrink (f.lmax - f.lmin) (x - f.lmin)).1 ≤ 0 then 1
        else (shrink (f.lmax - f.lmin) (x - f.lmin)).1
      let v := if (shrink (f.lmax - f.lmin) (x - f.lmin)).2 < 0 then 0
        else (shrink (f.lmax - f.lmin) (x - f.lmin)).2
      (u32 (v * last)).map fun p => min (p / r) last := by
  unfold scaled
  rw [i32_eq ⟨by omega, hrange⟩, i32_eq hx, Option.bind_eq_bind, Option.bind_some, Option.bind_some]
  exact Option.map_eq_bind.symm

/-- **The position** of a value whose differences are `i32`s. -/
theorem scaled_eq (hrange : f.lmax - f.lmin < 0x80000000) (h : f.lmin < f.lmax)
    (hlo : 0 ≤ last) (hhi : last ≤ 0xFFFF) (hx : Fits 0x80000000 (x - f.lmin)) :
    scaled f last x = some (f.place last x) := by
  have hr : 0 < f.lmax - f.lmin := Int.sub_pos.mpr h
  obtain ⟨hpos, hsmall⟩ := halved_range hr
  rw [scaled_of_shrink hrange h hx]
  unfold Field.place
  by_cases htop : f.lmax ≤ x
  · -- at the range or above it
    have hge := @shrink_of_ge (f.lmax - f.lmin) (x - f.lmin) (by omega) (by omega)
    generalize shrink (f.lmax - f.lmin) (x - f.lmin) = s at hge ⊢
    obtain ⟨r, v⟩ := s
    obtain ⟨hle, hv, hv16⟩ := hge
    dsimp only at hle hv hv16 ⊢
    have hprod : v * last ≤ 0xFFFF * 0xFFFF := Int.mul_le_mul hv16 hhi hlo (by decide)
    have habove : ¬ x ≤ f.lmin := by omega
    rw [if_neg hv.not_gt, u32_eq (Int.mul_nonneg hv.le hlo) (by omega), Option.map_some,
      if_neg habove, if_pos htop]
    congr 1
    refine min_eq_right ((Int.le_ediv_iff_mul_le ?_).mpr ?_)
    · split <;> omega
    · rw [Int.mul_comm]
      refine Int.mul_le_mul_of_nonneg_right ?_ hlo
      split <;> omega
  · rw [shrink_of_le (by omega)]
    dsimp only
    rw [if_neg hpos.not_ge]
    have hpow : (0 : ℤ) < 2 ^ halvings (f.lmax - f.lmin) := Int.pow_pos (by decide)
    have hle := Int.ediv_le_ediv hpow (by omega : x - f.lmin ≤ f.lmax - f.lmin)
    by_cases hbot : x ≤ f.lmin
    · -- at the minimum or below it
      have hv : (if (x - f.lmin) / 2 ^ halvings (f.lmax - f.lmin) < 0 then 0
          else (x - f.lmin) / 2 ^ halvings (f.lmax - f.lmin)) = 0 := by
        have hneg : (x - f.lmin) / 2 ^ halvings (f.lmax - f.lmin) ≤ 0 :=
          (Int.ediv_le_ediv hpow (by omega : x - f.lmin ≤ 0)).trans_eq (Int.zero_ediv _)
        split <;> omega
      rw [hv, if_pos hbot, Int.zero_mul, u32_eq le_rfl (by decide), Option.map_some, Int.zero_ediv,
        min_eq_left hlo]
    · have hv : 0 ≤ (x - f.lmin) / 2 ^ halvings (f.lmax - f.lmin) :=
        Int.ediv_nonneg (by omega) hpow.le
      have hprod := Int.mul_le_mul (hle.trans hsmall) hhi hlo (by decide)
      rw [if_neg hv.not_gt, u32_eq (Int.mul_nonneg hv hlo) (by omega), Option.map_some,
        if_neg hbot, if_neg htop, Int.mul_comm]
      exact congrArg some (min_eq_left (scale_le hlo hpos hle))

/-- Where there is a position, the differences are `i32`s. -/
theorem fits_of_scaled {p : ℤ} (h : scaled f last x = some p) :
    Fits 0x80000000 (f.lmax - f.lmin) ∧ Fits 0x80000000 (x - f.lmin) := by
  unfold scaled at h
  by_cases hr : Fits 0x80000000 (f.lmax - f.lmin)
  · by_cases hx : Fits 0x80000000 (x - f.lmin)
    · exact ⟨hr, hx⟩
    · rw [i32_eq hr, show i32 (x - f.lmin) = none from if_neg hx] at h
      exact nomatch h
  · rw [show i32 (f.lmax - f.lmin) = none from if_neg hr] at h
    exact nomatch h

/-! ## One axis -/

/-- The value of a field in a report. -/
def Field.value (f : Field) (r : List UInt8) : ℤ := BitFields.value r f.off f.size (f.lmin < 0)

/-- The position that a field gives. -/
def Field.read (f : Field) (last : ℤ) (r : List UInt8) : Option ℤ :=
  scaled f last (hidBits r f.off f.size (f.lmin < 0))

/-- **The condition**: less than 32 bits, and the range and the largest value less than `2 ^ 31`
above the logical minimum. -/
structure Field.Narrow (f : Field) : Prop where
  size : f.size < 32
  range : f.lmax - f.lmin < 0x80000000
  top : f.lmin < 0 → 2 ^ (f.size - 1) - 1 - f.lmin < 0x80000000

/-- A field is scaled as it is meant to be. -/
structure Field.Works (f : Field) (last : ℤ) : Prop where
  total : ∀ r, ∃ x, f.read last r = some x ∧ 0 ≤ x ∧ x ≤ last
  mono : ∀ r r' x x', f.read last r = some x → f.read last r' = some x' →
    f.value r ≤ f.value r' → x ≤ x'
  first : ∀ r x, f.read last r = some x → f.value r = f.lmin → x = 0
  last : ∀ r x, f.read last r = some x → f.value r = f.lmax → x = last

theorem Field.Narrow.fits (h : f.Narrow) (r : List UInt8) :
    Fits 0x80000000 (f.value r - f.lmin) := by
  have hmin := f.lmin_i32
  have hsize := two_pow_le_half h.size
  unfold Field.value
  by_cases hneg : f.lmin < 0
  · have hlt := value_signed_lt r f.off f.size
    have hge := neg_le_value_signed r f.off f.size
    have htop := h.top hneg
    have hhalf : (2 : ℤ) ^ (f.size - 1) ≤ (2 ^ 31 : ℕ) := by
      exact_mod_cast two_pow_le_half (Nat.lt_of_le_of_lt (Nat.sub_le ..) h.size)
    rw [decide_eq_true hneg]
    exact ⟨by omega, by omega⟩
  · have hlt := raw_lt r f.off f.size
    have := hmin.2
    rw [decide_eq_false hneg, value_unsigned]
    exact ⟨by omega, by omega⟩

/-- **A narrow field** is at the place of its value. -/
theorem Field.Narrow.read_eq (h : f.Narrow) (hlt : f.lmin < f.lmax) (hlo : 0 ≤ last)
    (hhi : last ≤ 0xFFFF) (r : List UInt8) : f.read last r = some (f.place last (f.value r)) := by
  unfold Field.read
  rw [hidBits_eq _ _ _ h.size]
  exact scaled_eq h.range hlt hlo hhi (h.fits r)

theorem Field.Narrow.works (h : f.Narrow) (hlt : f.lmin < f.lmax) (hlo : 0 ≤ last)
    (hhi : last ≤ 0xFFFF) : f.Works last := by
  have hread := h.read_eq hlt hlo hhi
  refine ⟨fun r => ⟨_, hread r, place_mem hlt hlo _⟩, ?_, ?_, ?_⟩
  · rintro r r' x x' hx hx' hle
    obtain rfl := Option.some.inj ((hread r).symm.trans hx)
    obtain rfl := Option.some.inj ((hread r').symm.trans hx')
    exact place_mono hlt hlo hle
  · rintro r x hx hval
    obtain rfl := Option.some.inj ((hread r).symm.trans hx)
    exact if_pos hval.le
  · rintro r x hx hval
    obtain rfl := Option.some.inj ((hread r).symm.trans hx)
    rw [hval]
    unfold Field.place
    rw [if_neg hlt.not_ge, if_pos le_rfl]

/-- A longer field is read as an `i32`. -/
theorem hidBits_withField (hs : 32 ≤ f.size) {v : ℕ} (hv : v < 2 ^ 32) (sign : Bool) :
    hidBits (withField f.off f.size v) f.off f.size sign = wrap 0x80000000 v := by
  rw [hidBits_long _ _ _ hs, raw_withField (hv.trans_le (Nat.pow_le_pow_right (by decide) hs))]

/-- A value of 32 bits is one of a longer field. -/
theorem value_long (hs : 32 ≤ f.size) (hneg : ¬ f.lmin < 0) {v : ℕ} (hv : v < 2 ^ 32) :
    f.value (withField f.off f.size v) = v :=
  value_withField (hv.trans_le (Nat.pow_le_pow_right (by decide) hs))
    fun h => absurd (of_decide_eq_true h) hneg

/-- **A field of 32 bits or more** does not work: its largest value or one above is too far from the
minimum, or is read as a negative one. -/
theorem Field.Works.size (h : f.Works last) (hlt : f.lmin < f.lmax) (hlo : 0 < last)
    (hhi : last ≤ 0xFFFF) : f.size < 32 := by
  by_contra hs
  rw [not_lt] at hs
  have hmax := f.lmax_i32.2
  by_cases hneg : f.lmin < 0
  · obtain ⟨x, hx, -⟩ := h.total (withField f.off f.size 0x7FFFFFFF)
    unfold Field.read at hx
    have hself : wrap 0x80000000 (0x7FFFFFFF : ℕ) = 0x7FFFFFFF :=
      wrap_eq_self ⟨by decide, by decide⟩
    rw [hidBits_withField hs (by decide), hself] at hx
    have := (fits_of_scaled hx).2.2
    omega
  · obtain ⟨v, hv⟩ : ∃ v : ℕ, (v : ℤ) = f.lmax := ⟨f.lmax.toNat, Int.toNat_of_nonneg (by omega)⟩
    obtain ⟨x, hx, -⟩ := h.total (withField f.off f.size v)
    obtain ⟨y, hy, -⟩ := h.total (withField f.off f.size 0x80000000)
    have hend := h.last _ _ hx ((value_long hs hneg (by omega)).trans hv)
    have hle := h.mono _ _ _ _ hx hy (by
      rw [value_long hs hneg (by omega), value_long hs hneg (by decide)]
      omega)
    unfold Field.read at hy
    have hwrap : wrap 0x80000000 (0x80000000 : ℕ) = -0x80000000 := by decide
    rw [hidBits_withField hs (by decide), hwrap] at hy
    obtain ⟨hrange, hfits⟩ := fits_of_scaled hy
    rw [scaled_eq hrange.2 hlt hlo.le hhi hfits] at hy
    have hzero : f.place last (-0x80000000) = 0 := if_pos f.lmin_i32.1
    have := Option.some.inj hy
    omega

/-- **A field works** exactly when it is narrow. -/
theorem Field.works_iff (hlt : f.lmin < f.lmax) (hlo : 0 < last) (hhi : last ≤ 0xFFFF) :
    f.Works last ↔ f.Narrow := by
  refine ⟨fun h => ?_, fun h => h.works hlt hlo.le hhi⟩
  have hs := h.size hlt hlo hhi
  refine ⟨hs, ?_, fun hneg => ?_⟩
  · obtain ⟨x, hx, -⟩ := h.total []
    exact (fits_of_scaled hx).1.2
  · -- the largest value of the field
    have hpos : 0 < 2 ^ (f.size - 1) := Nat.pow_pos (by decide)
    have hle : 2 ^ (f.size - 1) ≤ 2 ^ f.size := Nat.pow_le_pow_right (by decide) (Nat.sub_le ..)
    obtain ⟨x, hx, -⟩ := h.total (withField f.off f.size (2 ^ (f.size - 1) - 1))
    unfold Field.read at hx
    rw [hidBits_eq _ _ _ hs, value_withField (by omega) fun _ => by omega] at hx
    have := (fits_of_scaled hx).2.2
    push_cast [Nat.cast_sub hpos] at this
    exact this

/-! ## Reports -/

/-- What `mouse_usb_abs` is called with. -/
def Dev.At (d : Dev) (r : List UInt8) (x y : ℤ) : Prop :=
  ∃ left right ws, hidMouseReport d r = some (.abs x y left right :: ws)

/-- **A pointer works**: each of its reports gives a position on the screen, which follows the
fields from end to end. -/
structure Dev.Works (d : Dev) : Prop where
  total : ∀ r body, d.body r = some body →
    ∃ x y, d.At r x y ∧ 0 ≤ x ∧ x ≤ 640 - 1 ∧ 0 ≤ y ∧ y ≤ 480 - 1
  mono : ∀ r r' body body' x x' y y', d.body r = some body → d.body r' = some body' →
    d.At r x y → d.At r' x' y' →
    (d.fx.value body ≤ d.fx.value body' → x ≤ x') ∧
      (d.fy.value body ≤ d.fy.value body' → y ≤ y')
  first : ∀ r body x y, d.body r = some body → d.At r x y →
    (d.fx.value body = d.fx.lmin → x = 0) ∧ (d.fy.value body = d.fy.lmin → y = 0)
  last : ∀ r body x y, d.body r = some body → d.At r x y →
    (d.fx.value body = d.fx.lmax → x = 640 - 1) ∧ (d.fy.value body = d.fy.lmax → y = 480 - 1)

variable {d : Dev} {r body : List UInt8}

theorem at_iff (hid : d.hid = .tablet) (hbody : d.body r = some body) :
    d.At r x y ↔ d.fx.read (640 - 1) body = some x ∧ d.fy.read (480 - 1) body = some y := by
  unfold Dev.At hidMouseReport
  rw [hbody, hid]
  dsimp only
  show (∃ left right ws, (d.fx.read (640 - 1) body >>= fun x =>
    d.fy.read (480 - 1) body >>= fun y => pure _) = _) ↔ _
  cases d.fx.read (640 - 1) body with
  | none => exact ⟨fun ⟨_, _, _, h⟩ => (nomatch h), fun h => (nomatch h.1)⟩
  | some x' =>
    cases d.fy.read (480 - 1) body with
    | none => exact ⟨fun ⟨_, _, _, h⟩ => (nomatch h), fun h => (nomatch h.2)⟩
    | some y' =>
      refine ⟨fun ⟨_, _, _, h⟩ => ?_, fun h => ?_⟩
      · injection h with h
        injection h with h
        injection h with hx hy
        exact ⟨congrArg some hx, congrArg some hy⟩
      · obtain ⟨rfl, rfl⟩ : x' = x ∧ y' = y := ⟨Option.some.inj h.1, Option.some.inj h.2⟩
        exact ⟨_, _, _, rfl⟩

/-- Each body has a report. -/
theorem exists_body (d : Dev) (body : List UInt8) : ∃ r, d.body r = some body := by
  unfold Dev.body
  by_cases hid : d.rid ≠ 0
  · refine ⟨d.rid :: body, ?_⟩
    rw [if_pos hid]
    exact if_neg fun h => h rfl
  · exact ⟨body, if_neg hid⟩

/-- **A pointer works** exactly when both of its fields do. -/
theorem Dev.works_iff_fields (hid : d.hid = .tablet) :
    d.Works ↔ d.fx.Works (640 - 1) ∧ d.fy.Works (480 - 1) := by
  constructor
  · intro h
    have hat : ∀ body, ∃ r x y, d.body r = some body ∧ d.At r x y := fun body => by
      obtain ⟨r, hr⟩ := exists_body d body
      obtain ⟨x, y, hxy, -⟩ := h.total r body hr
      exact ⟨r, x, y, hr, hxy⟩
    have hx : ∀ body x, d.fx.read (640 - 1) body = some x →
        ∃ r y, d.body r = some body ∧ d.At r x y := fun body x hread => by
      obtain ⟨r, x', y, hr, hxy⟩ := hat body
      obtain rfl := Option.some.inj (((at_iff hid hr).mp hxy).1.symm.trans hread)
      exact ⟨r, y, hr, hxy⟩
    have hy : ∀ body y, d.fy.read (480 - 1) body = some y →
        ∃ r x, d.body r = some body ∧ d.At r x y := fun body y hread => by
      obtain ⟨r, x, y', hr, hxy⟩ := hat body
      obtain rfl := Option.some.inj (((at_iff hid hr).mp hxy).2.symm.trans hread)
      exact ⟨r, x, hr, hxy⟩
    refine ⟨⟨fun body => ?_, ?_, ?_, ?_⟩, ⟨fun body => ?_, ?_, ?_, ?_⟩⟩
    · obtain ⟨r, hr⟩ := exists_body d body
      obtain ⟨x, y, hxy, hx0, hx1, -⟩ := h.total r body hr
      exact ⟨x, ((at_iff hid hr).mp hxy).1, hx0, hx1⟩
    · rintro b b' x x' hread hread'
      obtain ⟨r, y, hr, hxy⟩ := hx b x hread
      obtain ⟨r', y', hr', hxy'⟩ := hx b' x' hread'
      exact (h.mono _ _ _ _ _ _ _ _ hr hr' hxy hxy').1
    · rintro b x hread
      obtain ⟨r, y, hr, hxy⟩ := hx b x hread
      exact (h.first _ _ _ _ hr hxy).1
    · rintro b x hread
      obtain ⟨r, y, hr, hxy⟩ := hx b x hread
      exact (h.last _ _ _ _ hr hxy).1
    · obtain ⟨r, hr⟩ := exists_body d body
      obtain ⟨x, y, hxy, -, -, hy0, hy1⟩ := h.total r body hr
      exact ⟨y, ((at_iff hid hr).mp hxy).2, hy0, hy1⟩
    · rintro b b' y y' hread hread'
      obtain ⟨r, x, hr, hxy⟩ := hy b y hread
      obtain ⟨r', x', hr', hxy'⟩ := hy b' y' hread'
      exact (h.mono _ _ _ _ _ _ _ _ hr hr' hxy hxy').2
    · rintro b y hread
      obtain ⟨r, x, hr, hxy⟩ := hy b y hread
      exact (h.first _ _ _ _ hr hxy).2
    · rintro b y hread
      obtain ⟨r, x, hr, hxy⟩ := hy b y hread
      exact (h.last _ _ _ _ hr hxy).2
  · rintro ⟨hx, hy⟩
    refine ⟨fun r body hr => ?_, ?_, ?_, ?_⟩
    · obtain ⟨x, hxr, hx0, hx1⟩ := hx.total body
      obtain ⟨y, hyr, hy0, hy1⟩ := hy.total body
      exact ⟨x, y, (at_iff hid hr).mpr ⟨hxr, hyr⟩, hx0, hx1, hy0, hy1⟩
    · rintro r r' body body' x x' y y' hr hr' hat hat'
      obtain ⟨hxr, hyr⟩ := (at_iff hid hr).mp hat
      obtain ⟨hxr', hyr'⟩ := (at_iff hid hr').mp hat'
      exact ⟨hx.mono _ _ _ _ hxr hxr', hy.mono _ _ _ _ hyr hyr'⟩
    · rintro r body x y hr hat
      obtain ⟨hxr, hyr⟩ := (at_iff hid hr).mp hat
      exact ⟨hx.first _ _ hxr, hy.first _ _ hyr⟩
    · rintro r body x y hr hat
      obtain ⟨hxr, hyr⟩ := (at_iff hid hr).mp hat
      exact ⟨hx.last _ _ hxr, hy.last _ _ hyr⟩

/-- **Absolute pointers**: with each minimum below its maximum, the pointer works exactly when both
fields are narrow. -/
theorem Dev.works_iff_narrow (hid : d.hid = .tablet) (hx : d.fx.lmin < d.fx.lmax)
    (hy : d.fy.lmin < d.fy.lmax) : d.Works ↔ d.fx.Narrow ∧ d.fy.Narrow := by
  rw [Dev.works_iff_fields hid, Field.works_iff hx (by decide) (by decide),
    Field.works_iff hy (by decide) (by decide)]

/-- Two fields of a tablet of 32 bits, with the range of all of them. -/
def wide : Dev where
  hid := .tablet
  rid := 0
  fx := ⟨0, 32, false, -0x80000000, 0x7FFFFFFF, off_zero, by decide, by decide, by decide⟩
  fy := ⟨32, 32, false, -0x80000000, 0x7FFFFFFF, by decide, by decide, by decide, by decide⟩
  fwheel := ⟨0, 0, false, 0, 0, off_zero, size_zero, fits_zero, fits_zero⟩
  btn_off := 64
  btn_cnt := 0

/-- Nothing of the range of all `i32`s is scaled: it is no `i32` itself. -/
theorem wide_fails : ¬ wide.Works := fun h => by
  obtain ⟨x, y, ⟨left, right, ws, hcall⟩, -⟩ := h.total [] [] rfl
  exact nomatch hcall

/-- Two fields of a tablet of 16 bits. -/
def tablet16 : Dev where
  hid := .tablet
  rid := 0
  fx := ⟨8, 16, false, 0, 0x7FFF, by decide, by decide, fits_zero, by decide⟩
  fy := ⟨24, 16, false, 0, 0x7FFF, by decide, by decide, fits_zero, by decide⟩
  fwheel := ⟨40, 8, false, -127, 127, by decide, by decide, by decide, by decide⟩
  btn_off := 0
  btn_cnt := 3

theorem tablet16_works : tablet16.Works :=
  (Dev.works_iff_narrow rfl (by decide) (by decide)).mpr
    ⟨⟨by decide, by decide, by decide⟩, ⟨by decide, by decide, by decide⟩⟩

end Usb
