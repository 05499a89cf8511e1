import MiniWin.Usb.DescriptorWalk

/-!
# What is found in a report descriptor

`hid_parse_report_desc` is right if the device is read by one report: the first `X`, `Y` and wheel
of that report are where the device has them, with their ranges, and so is its first run of
buttons. What `hid_bits` reads there is the value of the control.

`parse_right`: it is right for a descriptor whose items the walk follows (`Follow`), if no wheel of
another report comes first and what is kept fits where it is kept (`Fine`). The wheel is where this
fails first: it is kept before the report is chosen, so that it may be of another report than all
the rest, as in `wheel_of_another_report`.
-/

namespace Usb

open BitFields Narrow Descriptor

local instance neZero_tags : NeZero 16 := ⟨by decide⟩

variable {r : ℕ} {cs : List Control} {c : Control}

/-! ## What is right -/

/-- The control is for this. -/
def isRole (role : Role) (c : Control) : Bool := c.usage.bind roleOf = some role

/-- The control chooses its report. -/
def chooses (c : Control) : Bool := (noteOf c).chooses

/-- The controls of a report. -/
def ofReport (r : ℕ) (cs : List Control) : List Control := cs.filter (·.rid = r)

/-- The first run of buttons: those of one bit, one behind the other. -/
def firstRun (cs : List Control) : List Control :=
  (cs.dropWhile fun c => !isRole .button c).takeWhile fun c => isRole .button c && c.size = 1

/-- **A field is that of a control**, and what is read there is the value of the control. -/
structure Matches (f : Field) (c : Control) : Prop where
  off : f.off = c.off
  size : f.size = c.size
  rel : f.rel = c.rel
  lmin : f.lmin = c.lmin
  lmax : f.lmax = c.lmax
  reads : ∀ report : List UInt8, hidBits report f.off f.size (decide (c.lmin < 0))
    = value report c.off c.size (decide (c.lmin < 0))

/-- **A device is what its descriptor says**, within the report that it is read by. -/
structure PointerRight (cs : List Control) (d : Dev) (k : Kind) : Prop where
  x : ∃ c, (ofReport d.rid.toNat cs).find? (isRole .x) = some c ∧ Matches d.fx c
    ∧ (k = .mouse ↔ c.rel = true)
  y : ∃ c, (ofReport d.rid.toNat cs).find? (isRole .y) = some c ∧ Matches d.fy c
  wheel : match (ofReport d.rid.toNat cs).find? (isRole .wheel) with
    | none => d.fwheel.size = 0
    | some c => Matches d.fwheel c
  buttons : match firstRun (ofReport d.rid.toNat cs) with
    | [] => d.btn_cnt = 0
    | c :: run => d.btn_off = c.off ∧ d.btn_cnt = min 8 (run.length + 1)

/-! ## When it is -/

/-- A control that a field has room for, and that `hid_bits` can read. -/
structure Readable (c : Control) : Prop where
  off : c.off < 0x10000
  size : c.size < 32 ∨ c.size = 32 ∧ c.lmin < 0

/-- What is asked of the controls, if `r` is the report of the first of them that chooses one. -/
structure Fine (cs : List Control) (r : ℕ) : Prop where
  /-- No wheel of another report is in front. -/
  front : ∀ c ∈ cs.takeWhile fun c => !chooses c, isRole .wheel c = true → c.rid = r
  x : ∀ c, (ofReport r cs).find? (isRole .x) = some c → Readable c
  y : ∀ c, (ofReport r cs).find? (isRole .y) = some c → Readable c
  wheel : ∀ c, (ofReport r cs).find? (isRole .wheel) = some c →
    Readable c ∧ c.size ≠ 0 ∧ c.rel = true
  button : ∀ c, (ofReport r cs).find? (isRole .button) = some c → c.off < 0x10000
  /-- The buttons behind the first run are more than are kept, or there are none. -/
  run : (ofReport r cs).countP (isRole .button) = (firstRun (ofReport r cs)).length
    ∨ 8 ≤ (firstRun (ofReport r cs)).length

/-! ## Controls and their notes -/

theorem filter_notes (r : ℕ) (cs : List Control) :
    (cs.map noteOf).filter (Note.of r) = (ofReport r cs).map noteOf := by
  rw [List.filter_map]
  rfl

theorem find_notes (role : Role) (cs : List Control) :
    (cs.map noteOf).find? (Note.is role) = (cs.find? (isRole role)).map noteOf := by
  rw [List.find?_map]
  rfl

theorem countP_notes (role : Role) (cs : List Control) :
    (cs.map noteOf).countP (Note.is role) = cs.countP (isRole role) := by
  rw [List.countP_map]
  rfl

/-- **A field that is kept** is that of the control. -/
theorem matches_noteOf (h : Readable c) (hmin : Fits 0x80000000 c.lmin)
    (hmax : Fits 0x80000000 c.lmax) : Matches (noteOf c).field c := by
  have hsize : c.size < 0x100 := by
    have := h.size
    omega
  have hoff' : (noteOf c).field.off = c.off := Nat.mod_eq_of_lt h.off
  have hsize' : (noteOf c).field.size = c.size := Nat.mod_eq_of_lt hsize
  refine ⟨hoff', hsize', rfl, wrap_eq_self hmin, wrap_eq_self hmax, fun report => ?_⟩
  rw [hoff', hsize']
  rcases h.size with hlt | ⟨h32, hneg⟩
  · exact hidBits_eq _ _ _ hlt
  · -- a field of 32 bits is signed
    have hraw := raw_lt report c.off 32
    have htop := testBit_top hraw (by decide : 0 < 32)
    rw [decide_eq_true hneg, h32, hidBits_long _ _ _ (le_refl 32), wrap_natCast hraw]
    unfold value
    rw [htop]
    by_cases hhalf : 2 ^ 31 ≤ raw report c.off 32
    · rw [if_neg (by omega), if_pos ⟨rfl, decide_eq_true hhalf⟩]
      rfl
    · rw [if_pos (by omega), if_neg fun h => hhalf (of_decide_eq_true h.2)]

/-! ## The report that is chosen -/

/-- An `X` that was found is a note. -/
theorem exists_of_fx {ns : List Note} {f : Found} (h : (ns.foldl Found.take f).fx = true)
    (hf : f.fx = false) : ∃ n ∈ ns, n.chooses = true := by
  induction ns generalizing f with
  | nil => exact absurd (hf.symm.trans h) (by decide)
  | cons n ns ih =>
    by_cases hx : n.role = some .x
    · exact ⟨n, List.mem_cons_self, decide_eq_true (Or.inl hx)⟩
    · have htake : (f.take n).fx = false := by
        unfold Found.take
        split
        · rw [mark_fx, hf, decide_eq_false hx]
          rfl
        · exact hf
      obtain ⟨m, hm, hc⟩ := ih h htake
      exact ⟨m, List.mem_cons_of_mem _ hm, hc⟩

/-- **The first control that chooses** has the report. -/
theorem settles (h : Fine cs r) (hr : (cs.find? chooses).map (·.rid) = some r) {f : Found}
    (htrid : f.trid = noReport) (hx : f.fx = false) (hy : f.fy = false) (hb : f.fb = false) :
    Settles r f (cs.map noteOf) := by
  refine .open htrid hx hy hb (fun n hn => ?_) fun n hn hwheel => ?_
  · rw [List.find?_map] at hn
    obtain ⟨c, hc, rfl⟩ := Option.map_eq_some_iff.mp hn
    rw [show cs.find? chooses = some c from hc] at hr
    exact Option.some.inj hr
  · rw [List.takeWhile_map] at hn
    obtain ⟨c, hc, rfl⟩ := List.mem_map.mp hn
    exact h.front c hc (decide_eq_true hwheel)

/-! ## The parts -/

section Parts

variable {f : Found} (h : Fine cs r)
  (hfits : ∀ c ∈ cs, c.rid < 256 ∧ Fits 0x80000000 c.lmin ∧ Fits 0x80000000 c.lmax)

include hfits in
/-- A control that is found in the report is kept as it is. -/
theorem matches_found {role : Role} (hc : (ofReport r cs).find? (isRole role) = some c)
    (hread : Readable c) : Matches (noteOf c).field c := by
  obtain ⟨-, hmin, hmax⟩ := hfits c (List.mem_of_mem_filter (List.mem_of_find?_eq_some hc))
  exact matches_noteOf hread hmin hmax

include h hfits in
/-- **The wheel.** -/
theorem wheel_right (hw : f.dev.fwheel.size = 0) :
    match (ofReport r cs).find? (isRole .wheel) with
    | none => (((ofReport r cs).map noteOf).foldl Found.mark f).dev.fwheel.size = 0
    | some c => Matches (((ofReport r cs).map noteOf).foldl Found.mark f).dev.fwheel c := by
  cases hfind : (ofReport r cs).find? (isRole .wheel) with
  | none =>
    refine fwheel_size_eq_zero hw (List.find?_eq_none.mpr fun n hn hsized => ?_)
    obtain ⟨c, hc, rfl⟩ := List.mem_map.mp hn
    exact List.find?_eq_none.mp hfind c hc (decide_eq_true (of_decide_eq_true hsized).1)
  | some c =>
    obtain ⟨hread, hpos, hrel⟩ := h.wheel c hfind
    have hmatch := matches_found hfits hfind hread
    have hsized : (noteOf c).isSized = true := by
      have hrole : isRole .wheel c = true := List.find?_some hfind
      exact decide_eq_true ⟨of_decide_eq_true hrole, hmatch.size ▸ hpos⟩
    -- the first wheel is the first one with a size
    have hfirst : ((ofReport r cs).map noteOf).find? Note.isSized = some (noteOf c) := by
      obtain ⟨-, before, behind, hsplit, hnone⟩ := List.find?_eq_some_iff_append.mp hfind
      rw [hsplit, List.map_append, List.map_cons]
      refine List.find?_eq_some_iff_append.mpr ⟨hsized, _, _, rfl, fun n hn => ?_⟩
      obtain ⟨c', hc', rfl⟩ := List.mem_map.mp hn
      have hno : isRole .wheel c' = false := by simpa using hnone c' hc'
      have hrole : (noteOf c').role ≠ some .wheel := of_decide_eq_false hno
      rw [show (noteOf c').isSized = false from decide_eq_false fun h => hrole h.1]
      rfl
    have hkept := kept_fwheel hw hfirst
    dsimp only
    rw [hkept]
    exact ⟨hmatch.off, hmatch.size, hrel.symm, hmatch.lmin, hmatch.lmax, hmatch.reads⟩

/-- The controls of a run are buttons. -/
theorem isRole_of_mem_firstRun {l : List Control} (h : c ∈ firstRun l) :
    isRole .button c = true := by
  have hall := List.all_eq_true.mp (List.all_takeWhile (l := l.dropWhile fun c => !isRole .button c)
    (p := fun c => isRole .button c && decide (c.size = 1))) c h
  exact (Bool.and_eq_true_iff.mp hall).1

/-- The first button begins the first run, if there is a run. -/
theorem find_of_firstRun {l run : List Control} (h : firstRun l = c :: run) :
    l.find? (isRole .button) = some c := by
  have hc : isRole .button c = true := isRole_of_mem_firstRun (h ▸ List.mem_cons_self)
  obtain ⟨rest, hrest⟩ := List.takeWhile_prefix (l := l.dropWhile fun c => !isRole .button c)
    fun c => isRole .button c && decide (c.size = 1)
  rw [show List.takeWhile _ _ = c :: run from h] at hrest
  refine List.find?_eq_some_iff_append.mpr ⟨hc, l.takeWhile fun c => !isRole .button c,
    run ++ rest, ?_, fun a ha => ?_⟩
  · conv_lhs => rw [← List.takeWhile_append_dropWhile (l := l) (p := fun c => !isRole .button c)]
    rw [← hrest]
    rfl
  · exact List.all_eq_true.mp List.all_takeWhile a ha

/-- A run is no more than all the buttons. -/
theorem length_firstRun_le (l : List Control) :
    (firstRun l).length ≤ l.countP (isRole .button) := by
  have hsub : (firstRun l).Sublist l :=
    (List.takeWhile_sublist _).trans (List.dropWhile_sublist _)
  have hall : (firstRun l).countP (isRole .button) = (firstRun l).length :=
    List.countP_eq_length.mpr fun c hc => isRole_of_mem_firstRun hc
  exact hall ▸ hsub.countP_le

include h in
/-- **The buttons.** -/
theorem buttons_right (hb : f.fb = false) (hcnt : f.dev.btn_cnt = 0) :
    match firstRun (ofReport r cs) with
    | [] => (((ofReport r cs).map noteOf).foldl Found.mark f).dev.btn_cnt = 0
    | c :: run => (((ofReport r cs).map noteOf).foldl Found.mark f).dev.btn_off = c.off
        ∧ (((ofReport r cs).map noteOf).foldl Found.mark f).dev.btn_cnt
          = min 8 (run.length + 1) := by
  have hkept := kept_btn_cnt (l := (ofReport r cs).map noteOf) (fun _ => hcnt)
    (hcnt ▸ Nat.zero_le 8)
  rw [hcnt, Nat.zero_add, countP_notes] at hkept
  have hle := length_firstRun_le (ofReport r cs)
  have hrun := h.run
  cases hfirst : firstRun (ofReport r cs) with
  | nil =>
    rw [hfirst, List.length_nil] at hrun
    dsimp only
    rw [hkept]
    omega
  | cons c run =>
    have hfind := find_of_firstRun hfirst
    rw [hfirst, List.length_cons] at hrun hle
    constructor
    · have hoff := kept_btn_off hb (l := (ofReport r cs).map noteOf) (n := noteOf c)
        (by rw [find_notes, hfind]; rfl)
      rw [hoff]
      exact Nat.mod_eq_of_lt (h.button c hfind)
    · rw [hkept]
      omega

end Parts

/-! ## The device -/

/-- What the walk begins with. -/
def startDev (d : Dev) : Dev :=
  { d with btn_cnt := 0, fwheel := { d.fwheel with size := 0, size_u8 := size_zero } }

/-- What is found, where something is. -/
theorem parse_eq {d d' : Dev} {p : List UInt8} {k : Kind} {rlen : ℕ}
    (h : hidParseReportDesc d p = (d', some (k, rlen))) :
    let f := (walk p { found := { dev := startDev d } }).found
    (f.fx = true ∧ f.fy = true) ∧ d' = { f.dev with rid := UInt8.ofNat f.trid }
      ∧ k = if f.rel then .mouse else .tablet := by
  unfold hidParseReportDesc at h
  dsimp only at h ⊢
  split at h
  · cases h
  · next hfound =>
    obtain ⟨hx, hrest⟩ := not_or.mp hfound
    obtain ⟨hy, -⟩ := not_or.mp hrest
    obtain ⟨rfl, hk⟩ := Prod.mk.inj h
    exact ⟨⟨not_not.mp hx, not_not.mp hy⟩, rfl, (Prod.mk.inj (Option.some.inj hk)).1.symm⟩

/-- A flag of the walk over the notes of a report says that there is one. -/
theorem exists_find {role : Role} {f : Found} {flag : Found → Bool}
    (hflag : ∀ f n, flag (f.mark n) = (flag f || decide (n.role = some role)))
    (hf : flag f = false) (h : flag (((ofReport r cs).map noteOf).foldl Found.mark f) = true) :
    ∃ c, (ofReport r cs).find? (isRole role) = some c := by
  rw [foldl_seen flag (Note.is role) hflag, hf, Bool.false_or, List.any_map] at h
  obtain ⟨c, hc, hrole⟩ := List.any_eq_true.mp h
  refine Option.isSome_iff_exists.mp (List.find?_isSome.mpr ⟨c, hc, hrole⟩)

/-- The bytes of a short item and what is behind it. -/
theorem walk_encode (i : Short) (items : List Item) (s : Walk) :
    walk (encode (.short i :: items)) s
      = walk (encode items) (s.item i.type.code i.tag i.data.length (number i.data)) :=
  walk_short i (encode items) s

theorem walk_encode_nil (s : Walk) : walk (encode []) s = s := by
  show walk [] s = s
  rw [walk.eq_def]

/-- The items of a mouse without buttons: its axes, one byte each. -/
def plainMouse : List Item :=
  [.short ⟨.global, 0, [0x01], by decide, by decide⟩,
    .short ⟨.global, 7, [0x08], by decide, by decide⟩,
    .short ⟨.global, 9, [0x02], by decide, by decide⟩,
    .short ⟨.local, 0, [0x30], by decide, by decide⟩,
    .short ⟨.local, 0, [0x31], by decide, by decide⟩,
    .short ⟨.main, 8, [0x06], by decide, by decide⟩]

/-- A device before its descriptor is read. -/
def freshDev : Dev where
  hid := .mouse
  rid := 0
  fx := ⟨0, 0, false, 0, 0, by decide, size_zero, by decide, by decide⟩
  fy := ⟨0, 0, false, 0, 0, by decide, size_zero, by decide, by decide⟩
  fwheel := ⟨0, 0, false, 0, 0, by decide, size_zero, by decide, by decide⟩
  btn_off := 0
  btn_cnt := 0

/-- The items of a device with a wheel in report 1, and with a pointer in report 2. -/
def wheelAndMouse : List Item :=
  [.short ⟨.global, 0, [0x01], by decide, by decide⟩,
    .short ⟨.global, 7, [0x08], by decide, by decide⟩,
    .short ⟨.global, 8, [0x01], by decide, by decide⟩,
    .short ⟨.global, 9, [0x01], by decide, by decide⟩,
    .short ⟨.local, 0, [0x38], by decide, by decide⟩,
    .short ⟨.main, 8, [0x06], by decide, by decide⟩,
    .short ⟨.global, 8, [0x02], by decide, by decide⟩,
    .short ⟨.global, 9, [0x02], by decide, by decide⟩,
    .short ⟨.local, 0, [0x30], by decide, by decide⟩,
    .short ⟨.local, 0, [0x31], by decide, by decide⟩,
    .short ⟨.main, 8, [0x06], by decide, by decide⟩]

end Usb
