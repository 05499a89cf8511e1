import MiniWin.Lib.BitFields
import MiniWin.Lib.Casts
import MiniWin.Lib.Descriptor

/-!
# Reports of pointers

`hid_bits` and `hid_mouse_report` of `kernel/usb/hid.h`. What a report field holds is read bit by
bit. A difference or a product that its type does not hold has no result.
-/

namespace Usb

open BitFields Narrow

/-- `hid_field_t`. -/
structure Field where
  off : ℕ
  size : ℕ
  rel : Bool
  lmin : ℤ
  lmax : ℤ
  off_u16 : off < 0x10000
  size_u8 : size < 0x100
  lmin_i32 : Fits 0x80000000 lmin
  lmax_i32 : Fits 0x80000000 lmax

theorem off_zero : 0 < 0x10000 := by decide

theorem size_zero : 0 < 0x100 := by decide

theorem fits_zero : Fits 0x80000000 0 := by decide

/-- What a device is, as far as it is used. -/
inductive Kind
  | mouse
  | tablet
deriving DecidableEq

/-- The part of `usb_dev_t` that the reports of a pointer are read by. -/
structure Dev where
  hid : Kind
  rid : UInt8
  fx : Field
  fy : Field
  fwheel : Field
  btn_off : ℕ
  btn_cnt : ℕ

/-- The calls of the mouse driver. -/
inductive Event
  | report (dx dy left right : ℤ)
  | abs (x y left right : ℤ)
  | wheel (n : ℤ)
deriving DecidableEq

/-! ## The source -/

/-- The loop of `hid_bits`, with the rounds that are left. -/
def hidBitsFrom (r : List UInt8) (off : ℕ) : ℕ → ℕ → ℕ → ℕ
  | 0, _, v => v
  | n + 1, i, v =>
    match r[(off + i) / 8]? with
    | none => v
    | some b =>
      if b.toNat.testBit ((off + i) % 8) then hidBitsFrom r off n (i + 1) (v ||| 1 <<< i)
      else hidBitsFrom r off n (i + 1) v

/-- **`hid_bits`.** -/
def hidBits (r : List UInt8) (off size : ℕ) (sign : Bool) : ℤ :=
  let v := hidBitsFrom r off (min size 32) 0 0
  if sign ∧ size < 32 ∧ v.testBit (size - 1) then
    wrap 0x80000000 ((v ||| (0xFFFFFFFF <<< size) % 2 ^ 32 : ℕ))
  else wrap 0x80000000 v

/-- `while (r > 0xFFFF || x > 0xFFFF) { r >>= 1; x >>= 1; }`. -/
def shrink (r x : ℤ) : ℤ × ℤ :=
  if r > 0xFFFF ∨ x > 0xFFFF then shrink (r / 2) (x / 2) else (r, x)
termination_by r.toNat + x.toNat
decreasing_by omega

/-- A difference of `i32`s, if it is one. -/
def i32 (x : ℤ) : Option ℤ := if Fits 0x80000000 x then some x else none

/-- A product of `u32`s, if it is one. -/
def u32 (x : ℤ) : Option ℤ := if 0 ≤ x ∧ x < 2 ^ 32 then some x else none

/-- The value `x` of a field, scaled to the places `0 … last`. -/
def scaled (f : Field) (last x : ℤ) : Option ℤ := do
  let r ← i32 (f.lmax - f.lmin)
  let x ← i32 (x - f.lmin)
  let (r, x) := shrink r x
  let r := if r ≤ 0 then 1 else r
  let x := if x < 0 then 0 else x
  let p ← u32 (x * last)
  pure (min (p / r) last)

/-- The report behind its id, where it is one of ours. -/
def Dev.body (d : Dev) (r : List UInt8) : Option (List UInt8) :=
  if d.rid ≠ 0 then
    match r with
    | [] => none
    | id :: r => if id ≠ d.rid then none else some r
  else some r

/-- The notches of the wheel. -/
def Dev.wheel (d : Dev) (r : List UInt8) : List Event :=
  if d.fwheel.size ≠ 0 then
    let wz := hidBits r d.fwheel.off d.fwheel.size true
    if wz ≠ 0 then [.wheel (if wz > 0 then -1 else 1)] else []
  else []

/-- **`hid_mouse_report`**, with the calls that it makes. -/
def hidMouseReport (d : Dev) (r : List UInt8) : Option (List Event) :=
  match d.body r with
  | none => some []
  | some r =>
    let btn := hidBits r d.btn_off (if d.btn_cnt > 8 then 8 else d.btn_cnt) false
    let left := btn % 2
    let right := btn / 2 % 2
    match d.hid with
    | .mouse =>
      let dx := hidBits r d.fx.off d.fx.size true
      let dy := hidBits r d.fy.off d.fy.size true
      some (.report dx dy left right :: d.wheel r)
    | .tablet => do
      let x ← scaled d.fx (640 - 1) (hidBits r d.fx.off d.fx.size (d.fx.lmin < 0))
      let y ← scaled d.fy (480 - 1) (hidBits r d.fy.off d.fy.size (d.fy.lmin < 0))
      pure (.abs x y left right :: d.wheel r)

/-! ## What `hid_bits` reads -/

variable {r : List UInt8} {off size : ℕ}

/-- **The loop** puts the bits of the field into its number. -/
theorem testBit_hidBitsFrom (r : List UInt8) (off n i v j : ℕ) :
    (hidBitsFrom r off n i v).testBit j =
      (v.testBit j || decide (i ≤ j ∧ j < i + n) && bitAt r (off + j)) := by
  induction n generalizing i v with
  | zero =>
    have hno : decide (i ≤ j ∧ j < i + 0) = false := decide_eq_false (by omega)
    rw [hno, Bool.false_and, Bool.or_false]
    rfl
  | succ n ih =>
    have hstep (hne : j ≠ i) : decide (i + 1 ≤ j ∧ j < i + 1 + n) =
        decide (i ≤ j ∧ j < i + (n + 1)) := decide_eq_decide.mpr (by omega)
    have hfirst : decide (i ≤ i ∧ i < i + (n + 1)) = true := decide_eq_true (by omega)
    have hgone : decide (i + 1 ≤ i ∧ i < i + 1 + n) = false := decide_eq_false (by omega)
    unfold hidBitsFrom
    cases hb : r[(off + i) / 8]? with
    | none =>
      -- no later bit is in the report either
      have hend : r.length ≤ (off + i) / 8 := List.getElem?_eq_none_iff.mp hb
      have hall : (decide (i ≤ j ∧ j < i + (n + 1)) && bitAt r (off + j)) = false := by
        by_cases hj : i ≤ j
        · rw [bitAt_eq_false (by omega), Bool.and_false]
        · rw [decide_eq_false (by omega), Bool.false_and]
      rw [hall, Bool.or_false]
    | some b =>
      have hbit : bitAt r (off + i) = b.toNat.testBit ((off + i) % 8) := by
        unfold bitAt
        rw [hb]
      show (if b.toNat.testBit ((off + i) % 8) then _ else _ : ℕ).testBit j = _
      rw [← hbit]
      by_cases hj : j = i
      · subst hj
        split
        · next hset =>
          rw [ih, Nat.testBit_or, Nat.one_shiftLeft, Nat.testBit_two_pow_self, hfirst, hset,
            Bool.or_true, Bool.true_or, Bool.and_true, Bool.or_true]
        · next hset =>
          rw [ih, hgone, Bool.eq_false_iff.mpr hset, Bool.false_and, Bool.and_false]
      · have hone : (1 <<< i).testBit j = false := by
          rw [Nat.one_shiftLeft, Nat.testBit_two_pow_of_ne (Ne.symm hj)]
        split
        · rw [ih, hstep hj, Nat.testBit_or, hone, Bool.or_false]
        · rw [ih, hstep hj]

theorem hidBitsFrom_eq (r : List UInt8) (off n : ℕ) : hidBitsFrom r off n 0 0 = raw r off n := by
  refine Nat.eq_of_testBit_eq fun j => ?_
  rw [testBit_hidBitsFrom, testBit_raw, Nat.zero_testBit, Bool.false_or]
  congr 1
  exact decide_eq_decide.mpr (by omega)

/-- Ones above a number of so many bits. -/
theorem or_ones {v : ℕ} (hs : size < 32) (hv : v < 2 ^ size) :
    v ||| (0xFFFFFFFF <<< size) % 2 ^ 32 = v + (2 ^ 32 - 2 ^ size) := by
  have hones : ∀ s < 32, (0xFFFFFFFF <<< s) % 2 ^ 32 = (2 ^ (32 - s) - 1) <<< s := by decide
  rw [hones size hs, Nat.lor_comm, ← Nat.shiftLeft_add_eq_or_of_lt hv, Nat.shiftLeft_eq,
    Nat.sub_mul, ← Nat.pow_add, Nat.sub_add_cancel hs.le, Nat.one_mul, Nat.add_comm]

theorem two_pow_le_half (hs : size < 32) : 2 ^ size ≤ 2 ^ 31 :=
  Nat.pow_le_pow_right (by decide) (by omega)

/-- **A field of less than 32 bits** is read as it is. -/
theorem hidBits_eq (r : List UInt8) (off : ℕ) (sign : Bool) (hs : size < 32) :
    hidBits r off size sign = value r off size sign := by
  have hlt := raw_lt r off size
  have hhalf := two_pow_le_half hs
  unfold hidBits value
  dsimp only
  rw [min_eq_left hs.le, hidBitsFrom_eq]
  by_cases hneg : sign ∧ (raw r off size).testBit (size - 1)
  · have hfits : Fits 0x80000000 ((raw r off size : ℤ) - (2 ^ size : ℕ)) := ⟨by omega, by omega⟩
    have hturn : ((raw r off size + (2 ^ 32 - 2 ^ size) : ℕ) : ℤ) -
        (raw r off size - (2 ^ size : ℕ)) = (2 * 0x80000000 : ℕ) := by omega
    rw [if_pos ⟨hneg.1, hs, hneg.2⟩, if_pos hneg, or_ones hs hlt]
    refine ((wrap_eq_iff hfits).mpr ?_).trans (by push_cast; rfl)
    rw [hturn]
    exact dvd_rfl
  · rw [if_neg fun h => hneg ⟨h.1, h.2.2⟩, if_neg hneg]
    exact wrap_eq_self ⟨by omega, by omega⟩

/-- Of a longer field, the low 32 bits are read, as an `i32`. -/
theorem hidBits_long (r : List UInt8) (off : ℕ) (sign : Bool) (hs : 32 ≤ size) :
    hidBits r off size sign = wrap 0x80000000 (raw r off size) := by
  have hlow : raw r off 32 = raw r off size % 2 ^ 32 := by rw [raw_mod, min_eq_right hs]
  unfold hidBits
  dsimp only
  rw [min_eq_right hs, hidBitsFrom_eq, if_neg fun h => hs.not_gt h.2.1, hlow]
  exact Int.emod_bmod (raw r off size : ℤ) (2 ^ 32)

end Usb

/-!
## The walk over a report descriptor

`hid_parse_report_desc` of `kernel/usb/hid.h`. A `u32` is a number with its casts written out. The
report that a device is read by is the one of the first button, `X` or `Y` that is found.
-/

namespace Usb

open Narrow

/-- An `i32`. -/
abbrev I32 := { x : ℤ // Fits 0x80000000 x }

/-- `(i32)x`. -/
def I32.cast (x : ℤ) : I32 := ⟨wrap 0x80000000 x, wrap_fits (by decide) x⟩

/-- `0xFFFFFFFFu`: no report is chosen yet. -/
def noReport : ℕ := 0xFFFFFFFF

/-- What has been found: `trid`, `fx`, `fy`, `fb`, `rel` and the device. -/
structure Found where
  trid : ℕ := noReport
  fx : Bool := false
  fy : Bool := false
  fb : Bool := false
  rel : Bool := false
  dev : Dev

/-- The other variables. -/
structure Walk where
  page : ℕ := 0
  rsize : ℕ := 0
  rcount : ℕ := 0
  rid : ℕ := 0
  bitpos : ℕ := 0
  /-- `usages`, the first `nus` of them. -/
  usages : List ℕ := []
  umin : ℕ := 0
  have_range : Bool := false
  lmin : I32 := I32.cast 0
  lmax : I32 := I32.cast 0
  rid_bits : ℕ := 0
  found : Found

/-- What is written of a field, but for `rel`. -/
def Walk.field (s : Walk) (rel : Bool) : Field where
  off := s.bitpos % 0x10000
  size := s.rsize % 0x100
  rel := rel
  lmin := s.lmin
  lmax := s.lmax
  off_u16 := Nat.mod_lt _ (by decide)
  size_u8 := Nat.mod_lt _ (by decide)
  lmin_i32 := s.lmin.2
  lmax_i32 := s.lmax.2

/-- `if (trid == 0xFFFFFFFFu) trid = rid;`. -/
def Found.choose (f : Found) (rid : ℕ) : Found :=
  { f with trid := if f.trid = noReport then rid else f.trid }

/-- What an `Input` does with one of its usages. -/
def Walk.look (s : Walk) (val usage : ℕ) : Found :=
  let f := s.found
  if ¬ val.testBit 0 ∧ (f.trid = noReport ∨ f.trid = s.rid) then
    if s.page = 9 then
      let f := if f.fb then f else
        { f with fb := true
                 dev := { f.dev with btn_off := s.bitpos % 0x10000, btn_cnt := 0 } }.choose s.rid
      if f.dev.btn_cnt < 8 then { f with dev := { f.dev with btn_cnt := f.dev.btn_cnt + 1 } } else f
    else if s.page = 1 ∧ usage = 0x38 ∧ f.dev.fwheel.size = 0 then
      { f with dev := { f.dev with fwheel := s.field true } }
    else if s.page = 1 ∧ usage = 0x30 then
      if f.fx then f else
        { f with fx := true, rel := val.testBit 2
                 dev := { f.dev with fx := s.field (val.testBit 2) } }.choose s.rid
    else if s.page = 1 ∧ usage = 0x31 then
      if f.fy then f else
        { f with fy := true, dev := { f.dev with fy := s.field (val.testBit 2) } }.choose s.rid
    else f
  else f

/-- The usage of the control `k`. -/
def Walk.usage (s : Walk) (k : ℕ) : ℕ :=
  if s.usages ≠ [] then s.usages.getD (if k < s.usages.length then k else s.usages.length - 1) 0
  else if s.have_range then (s.umin + k) % 2 ^ 32
  else 0

/-- The loop of an `Input`, with the rounds that are left. -/
def Walk.input (val : ℕ) : ℕ → ℕ → Walk → Walk
  | 0, _, s => s
  | n + 1, k, s =>
    input val n (k + 1)
      { s with found := s.look val (s.usage k), bitpos := (s.bitpos + s.rsize) % 2 ^ 32 }

/-- `val |= (u32)p[i + k] << (8 * k)`. -/
def valOf (data : List UInt8) : ℕ :=
  (data.zipIdx.foldl (fun v x => v ||| x.1.toNat <<< (8 * x.2)) 0) % 2 ^ 32

/-- `sval`. -/
def svalOf (sz val : ℕ) : I32 :=
  if sz = 1 then I32.cast (wrap 0x80 val)
  else if sz = 2 then I32.cast (wrap 0x8000 val)
  else I32.cast val

/-- The branches of an item. -/
def Walk.item (s : Walk) (type tag sz val : ℕ) : Walk :=
  if type = 1 then
    if tag = 0 then { s with page := val }
    else if tag = 1 then { s with lmin := svalOf sz val }
    else if tag = 2 then
      { s with lmax := if 0 ≤ s.lmin.1 then I32.cast val else svalOf sz val }
    else if tag = 7 then { s with rsize := val }
    else if tag = 8 then { s with rid := val, bitpos := 0 }
    else if tag = 9 then { s with rcount := val }
    else s
  else if type = 2 then
    if tag = 0 ∧ s.usages.length < 16 then { s with usages := s.usages ++ [val % 0x10000] }
    else if tag = 1 then { s with umin := val % 0x10000, have_range := true }
    else s
  else if type = 0 then
    let s :=
      if tag = 8 then
        let s := s.input val s.rcount 0
        if s.found.trid = s.rid ∧ s.bitpos > s.rid_bits then { s with rid_bits := s.bitpos } else s
      else s
    { s with usages := [], have_range := false, umin := 0 }
  else s

/-- The loop of `hid_parse_report_desc`. -/
def walk (p : List UInt8) (s : Walk) : Walk :=
  match p with
  | [] => s
  | b :: p =>
    if b = 0xFE then
      match p with
      | [] => s
      | n :: p => walk (p.drop n.toNat) s
    else
      let sz := b.toNat % 4
      let sz := if sz = 3 then 4 else sz
      if p.length < sz then s
      else walk (p.drop sz) (s.item (b.toNat / 4 % 4) (b.toNat / 16) sz (valOf (p.take sz)))
termination_by p.length
decreasing_by all_goals (rw [List.length_drop]; simp only [List.length_cons]; omega)

/-- **`hid_parse_report_desc`**: the device, and what it is, with `rlen`. -/
def hidParseReportDesc (d : Dev) (p : List UInt8) : Dev × Option (Kind × ℕ) :=
  let d := { d with btn_cnt := 0, fwheel := { d.fwheel with size := 0, size_u8 := by decide } }
  let s := walk p { found := { dev := d } }
  let f := s.found
  if ¬ f.fx ∨ ¬ f.fy ∨ f.trid = noReport then (f.dev, none)
  else
    ({ f.dev with rid := UInt8.ofNat f.trid },
      some (if f.rel then .mouse else .tablet,
        ((s.rid_bits + 7) % 2 ^ 32 / 8 + if f.trid ≠ 0 then 1 else 0) % 0x10000))

end Usb
