import MiniWin.Usb.Hid

/-!
# What the walk keeps

Each control that the walk sees is a note: what it is for a pointer, its report and its place. Of
the notes of the chosen report the first `X`, the first `Y`, the first wheel with a size and the
first button are kept, and the buttons are counted.

`foldl_take`: which report is chosen does not matter to what is kept, as long as no wheel of
another report comes in front of the choice. What the walk keeps is then what the notes of that
report alone would leave.
-/

namespace Usb

/-! ## The first of a kind -/

section First

variable {σ α β : Type} {step : σ → α → σ} (seen : σ → Bool) (slot : σ → β) (pred : α → Bool)
  (val : α → β)

/-- A flag that the items of a kind set is set at the end if there is one of them. -/
theorem foldl_seen (hseen : ∀ s a, seen (step s a) = (seen s || pred a)) (s : σ) (l : List α) :
    seen (l.foldl step s) = (seen s || l.any pred) := by
  induction l generalizing s with
  | nil => exact (Bool.or_false _).symm
  | cons a l ih => rw [List.foldl_cons, ih, hseen, List.any_cons, Bool.or_assoc]

/-- What is kept once the flag is set. -/
theorem foldl_keep (hseen : ∀ s a, seen (step s a) = (seen s || pred a))
    (hkeep : ∀ s a, seen s = true → slot (step s a) = slot s) {s : σ} (hs : seen s = true)
    (l : List α) : slot (l.foldl step s) = slot s := by
  induction l generalizing s with
  | nil => rfl
  | cons a l ih =>
    rw [List.foldl_cons, ih (by rw [hseen, hs, Bool.true_or]), hkeep s a hs]

/-- **The first of a kind is kept.** -/
theorem foldl_first (hseen : ∀ s a, seen (step s a) = (seen s || pred a))
    (hkeep : ∀ s a, seen s = true → slot (step s a) = slot s)
    (hset : ∀ s a, seen s = false → pred a = true → slot (step s a) = val a)
    {s : σ} (hs : seen s = false) {l : List α} {a : α} (ha : l.find? pred = some a) :
    slot (l.foldl step s) = val a := by
  induction l generalizing s with
  | nil => cases ha
  | cons b l ih =>
    rw [List.foldl_cons]
    by_cases hb : pred b = true
    · rw [List.find?_cons_of_pos hb] at ha
      obtain rfl := Option.some.inj ha
      rw [foldl_keep seen slot pred hseen hkeep (by rw [hseen, hb, Bool.or_true]),
        hset s b hs hb]
    · rw [List.find?_cons_of_neg hb] at ha
      exact ih (by rw [hseen, hs, Bool.eq_false_iff.mpr hb, Bool.or_false]) ha

end First

/-! ## Notes -/

/-- What a control is for a pointer. -/
inductive Role
  | x
  | y
  | wheel
  | button
  deriving DecidableEq

/-- The usages of a pointer: `X`, `Y` and `Wheel` of the page of desktops, and all of the page of
buttons. -/
def roleOf (u : Descriptor.Usage) : Option Role :=
  if u.page = 9 then some .button
  else if u.page = 1 ∧ u.id = 0x38 then some .wheel
  else if u.page = 1 ∧ u.id = 0x30 then some .x
  else if u.page = 1 ∧ u.id = 0x31 then some .y
  else none

/-- What the walk sees of a control. -/
structure Note where
  role : Option Role
  rid : ℕ
  field : Field

/-- The note is of the report `r`. -/
def Note.of (r : ℕ) (n : Note) : Bool := n.rid = r

/-- The note chooses its report. -/
def Note.chooses (n : Note) : Bool :=
  n.role = some .x ∨ n.role = some .y ∨ n.role = some .button

def Walk.note (s : Walk) (val usage : ℕ) : Note where
  role := if val.testBit 0 then none else roleOf ⟨s.page, usage⟩
  rid := s.rid
  field := s.field (val.testBit 2)

/-- What a note of the chosen report changes. -/
def Found.mark (f : Found) (n : Note) : Found :=
  match n.role with
  | none => f
  | some .button =>
    let f := if f.fb then f else
      { f with fb := true, dev := { f.dev with btn_off := n.field.off, btn_cnt := 0 } }.choose n.rid
    if f.dev.btn_cnt < 8 then { f with dev := { f.dev with btn_cnt := f.dev.btn_cnt + 1 } } else f
  | some .wheel =>
    if f.dev.fwheel.size = 0 then
      { f with dev := { f.dev with fwheel := { n.field with rel := true } } }
    else f
  | some .x =>
    if f.fx then f else
      { f with fx := true, rel := n.field.rel, dev := { f.dev with fx := n.field } }.choose n.rid
  | some .y =>
    if f.fy then f else
      { f with fy := true, dev := { f.dev with fy := n.field } }.choose n.rid

/-- What a note changes: nothing if another report is chosen. -/
def Found.take (f : Found) (n : Note) : Found :=
  if f.trid = noReport ∨ f.trid = n.rid then f.mark n else f

/-- **A round of the loop takes a note.** -/
theorem look_eq (s : Walk) (val usage : ℕ) :
    s.look val usage = s.found.take (s.note val usage) := by
  unfold Walk.look Found.take
  by_cases hconst : val.testBit 0 = true
  · have hmark : s.found.mark (s.note val usage) = s.found := by
      unfold Found.mark Walk.note
      rw [if_pos hconst]
    rw [hmark, ite_self, if_neg fun h => h.1 hconst]
  · by_cases hrid : s.found.trid = noReport ∨ s.found.trid = s.rid
    · rw [if_pos ⟨hconst, hrid⟩]
      show _ = if s.found.trid = noReport ∨ s.found.trid = s.rid then _ else _
      rw [if_pos hrid]
      unfold Found.mark Walk.note roleOf
      rw [if_neg hconst]
      by_cases h9 : s.page = 9
      · rw [if_pos h9, if_pos h9]
        rfl
      · rw [if_neg h9, if_neg h9]
        by_cases h1 : s.page = 1
        · by_cases hw : usage = 0x38
          · by_cases hsize : s.found.dev.fwheel.size = 0
            · simp [h1, hw, hsize, Walk.field]
            · simp [h1, hw, hsize]
          · by_cases hx : usage = 0x30
            · simp [h1, hx, Walk.field]
            · by_cases hy : usage = 0x31
              · simp [h1, hy]
              · simp [hw, hx, hy]
        · simp [h1]
    · rw [if_neg fun h => hrid h.2]
      exact (if_neg hrid).symm

/-! ## What one note changes -/

section Mark

variable (f : Found) (n : Note)

theorem mark_fx : (f.mark n).fx = (f.fx || decide (n.role = some .x)) := by
  unfold Found.mark Found.choose
  grind

theorem mark_fy : (f.mark n).fy = (f.fy || decide (n.role = some .y)) := by
  unfold Found.mark Found.choose
  grind

theorem mark_fb : (f.mark n).fb = (f.fb || decide (n.role = some .button)) := by
  unfold Found.mark Found.choose
  grind

theorem mark_dev_fx : (f.mark n).dev.fx
    = if f.fx = false ∧ n.role = some .x then n.field else f.dev.fx := by
  unfold Found.mark Found.choose
  grind

theorem mark_rel : (f.mark n).rel
    = if f.fx = false ∧ n.role = some .x then n.field.rel else f.rel := by
  unfold Found.mark Found.choose
  grind

theorem mark_dev_fy : (f.mark n).dev.fy
    = if f.fy = false ∧ n.role = some .y then n.field else f.dev.fy := by
  unfold Found.mark Found.choose
  grind

theorem mark_fwheel : (f.mark n).dev.fwheel
    = if f.dev.fwheel.size = 0 ∧ n.role = some .wheel then { n.field with rel := true }
      else f.dev.fwheel := by
  unfold Found.mark Found.choose
  grind

theorem mark_btn_off : (f.mark n).dev.btn_off
    = if f.fb = false ∧ n.role = some .button then n.field.off else f.dev.btn_off := by
  unfold Found.mark Found.choose
  grind

/-- The buttons are counted to eight. -/
theorem mark_btn_cnt (hzero : f.fb = false → f.dev.btn_cnt = 0) (hle : f.dev.btn_cnt ≤ 8) :
    (f.mark n).dev.btn_cnt
      = min 8 (f.dev.btn_cnt + if n.role = some .button then 1 else 0) := by
  unfold Found.mark Found.choose
  grind

/-- A report that is chosen stays chosen. -/
theorem mark_trid_of_ne (h : f.trid ≠ noReport) : (f.mark n).trid = f.trid := by
  unfold Found.mark Found.choose
  grind

/-- The report of the first note that chooses is chosen. -/
theorem mark_trid (h : f.trid = noReport) (hx : f.fx = false) (hy : f.fy = false)
    (hb : f.fb = false) : (f.mark n).trid = if n.chooses then n.rid else noReport := by
  unfold Found.mark Found.choose Note.chooses
  grind

end Mark

/-! ## The notes of one report -/

variable {r : ℕ} {f : Found} {l ns : List Note} {n : Note}

/-- The report that is chosen is `r`, or will be, and no wheel of another one comes before. -/
inductive Settles (r : ℕ) (f : Found) (ns : List Note) : Prop
  | chosen (h : f.trid = r)
  | open (h : f.trid = noReport) (hx : f.fx = false) (hy : f.fy = false) (hb : f.fb = false)
      (first : ∀ n, ns.find? Note.chooses = some n → n.rid = r)
      (front : ∀ n ∈ ns.takeWhile (!·.chooses), n.role = some .wheel → n.rid = r)

/-- Where the note is of `r` it is taken. -/
theorem take_of_chosen (hr : r ≠ noReport) (h : f.trid = r) (n : Note) :
    f.take n = if n.of r then f.mark n else f := by
  unfold Found.take Note.of
  by_cases hn : n.rid = r
  · rw [if_pos (Or.inr (h.trans hn.symm)), if_pos (decide_eq_true hn)]
  · rw [if_neg (not_or.mpr ⟨h ▸ hr, fun heq => hn (heq.symm.trans h)⟩),
      if_neg (by rw [decide_eq_false hn]; decide)]

/-- **A step** of the walk in front of the choice, and the choice. -/
theorem Settles.step (hr : r ≠ noReport) (h : Settles r f (n :: ns)) :
    f.take n = (if n.of r then f.mark n else f) ∧ Settles r (f.take n) ns
      ∧ (n.chooses = true → (f.take n).trid = r) := by
  cases h with
  | chosen h =>
    have htake := take_of_chosen hr h n
    have htrid : (f.take n).trid = r := by
      rw [htake]
      split
      · exact (mark_trid_of_ne f n (h ▸ hr)).trans h
      · exact h
    exact ⟨htake, .chosen htrid, fun _ => htrid⟩
  | «open» h hx hy hb first front =>
    have htake : f.take n = f.mark n := if_pos (Or.inl h)
    have htrid := mark_trid f n h hx hy hb
    rw [htake]
    by_cases hchooses : n.chooses = true
    · have hn : n.rid = r := first n (List.find?_cons_of_pos hchooses)
      have hmark : (f.mark n).trid = r := htrid.trans ((if_pos hchooses).trans hn)
      exact ⟨(if_pos (decide_eq_true hn)).symm, .chosen hmark, fun _ => hmark⟩
    · have hneg : (!n.chooses) = true := by rw [Bool.eq_false_iff.mpr hchooses]; rfl
      rw [List.find?_cons_of_neg hchooses] at first
      rw [List.takeWhile_cons_of_pos (p := fun n : Note => !n.chooses) hneg] at front
      obtain ⟨hwheel, hfront⟩ := List.forall_mem_cons.mp front
      obtain ⟨hnx, hny, hnb⟩ :
          n.role ≠ some .x ∧ n.role ≠ some .y ∧ n.role ≠ some .button := by
        simpa [Note.chooses] using hchooses
      refine ⟨?_, .open (htrid.trans (if_neg hchooses)) ?_ ?_ ?_ first hfront,
        fun h => absurd h hchooses⟩
      · by_cases hn : n.rid = r
        · exact (if_pos (decide_eq_true hn)).symm
        · -- a note of another report in front of the choice is for nothing
          have hnone : n.role = none := by
            cases hrole : n.role with
            | none => rfl
            | some role =>
              cases role with
              | wheel => exact absurd (hwheel hrole) hn
              | x => exact absurd hrole hnx
              | y => exact absurd hrole hny
              | button => exact absurd hrole hnb
          have hmark : f.mark n = f := by
            unfold Found.mark
            rw [hnone]
          rw [hmark, ite_self]
      · rw [mark_fx, hx, decide_eq_false hnx]; rfl
      · rw [mark_fy, hy, decide_eq_false hny]; rfl
      · rw [mark_fb, hb, decide_eq_false hnb]; rfl

/-- **Only the notes of the chosen report matter.** -/
theorem foldl_take (hr : r ≠ noReport) (h : Settles r f ns) :
    ns.foldl Found.take f = (ns.filter (Note.of r)).foldl Found.mark f := by
  induction ns generalizing f with
  | nil => rfl
  | cons n ns ih =>
    obtain ⟨htake, hnext, -⟩ := h.step hr
    rw [List.foldl_cons, ih hnext, htake]
    by_cases hn : n.of r = true
    · rw [if_pos hn, List.filter_cons_of_pos hn, List.foldl_cons]
    · rw [if_neg hn, List.filter_cons_of_neg hn]

/-- **The report is chosen** if there is something to choose it by. -/
theorem trid_foldl_take (hr : r ≠ noReport) (h : Settles r f ns) (hn : ∃ n ∈ ns, n.chooses = true) :
    (ns.foldl Found.take f).trid = r := by
  induction ns generalizing f with
  | nil => exact absurd hn (by simp)
  | cons n ns ih =>
    obtain ⟨-, hnext, hchoose⟩ := h.step hr
    rw [List.foldl_cons]
    by_cases hc : n.chooses = true
    · -- what is chosen stays
      have hstay : ∀ {f : Found} (l : List Note), f.trid = r → (l.foldl Found.take f).trid = r := by
        intro f l hf
        induction l generalizing f with
        | nil => exact hf
        | cons m l ihl =>
          rw [List.foldl_cons]
          refine ihl ?_
          rw [take_of_chosen hr hf]
          split
          · exact (mark_trid_of_ne f m (hf ▸ hr)).trans hf
          · exact hf
      exact hstay ns (hchoose hc)
    · obtain ⟨m, hm, hmc⟩ := hn
      rcases List.mem_cons.mp hm with rfl | hm
      · exact absurd hmc hc
      · exact ih hnext ⟨m, hm, hmc⟩

/-! ## What is left at the end -/

/-- A note of a kind. -/
def Note.is (role : Role) (n : Note) : Bool := n.role = some role

/-- A wheel that has a size. -/
def Note.isSized (n : Note) : Bool := n.role = some .wheel ∧ n.field.size ≠ 0

/-- **The first `X` is kept**, and whether it is relative says what the pointer is. -/
theorem kept_fx (hx : f.fx = false) (hn : l.find? (Note.is .x) = some n) :
    (l.foldl Found.mark f).dev.fx = n.field ∧ (l.foldl Found.mark f).rel = n.field.rel := by
  constructor
  · refine foldl_first Found.fx (fun f : Found => f.dev.fx) (Note.is .x) Note.field
      mark_fx ?_ ?_ hx hn
    · exact fun f n hf => (mark_dev_fx f n).trans (if_neg fun h => by rw [hf] at h; cases h.1)
    · exact fun f n hf hn => (mark_dev_fx f n).trans (if_pos ⟨hf, of_decide_eq_true hn⟩)
  · refine foldl_first Found.fx Found.rel (Note.is .x) (fun n => n.field.rel) mark_fx ?_ ?_ hx hn
    · exact fun f n hf => (mark_rel f n).trans (if_neg fun h => by rw [hf] at h; cases h.1)
    · exact fun f n hf hn => (mark_rel f n).trans (if_pos ⟨hf, of_decide_eq_true hn⟩)

/-- **The first `Y` is kept.** -/
theorem kept_fy (hy : f.fy = false) (hn : l.find? (Note.is .y) = some n) :
    (l.foldl Found.mark f).dev.fy = n.field := by
  refine foldl_first Found.fy (fun f : Found => f.dev.fy) (Note.is .y) Note.field
    mark_fy ?_ ?_ hy hn
  · exact fun f n hf => (mark_dev_fy f n).trans (if_neg fun h => by rw [hf] at h; cases h.1)
  · exact fun f n hf hn => (mark_dev_fy f n).trans (if_pos ⟨hf, of_decide_eq_true hn⟩)

/-- **The first button is kept.** -/
theorem kept_btn_off (hb : f.fb = false) (hn : l.find? (Note.is .button) = some n) :
    (l.foldl Found.mark f).dev.btn_off = n.field.off := by
  refine foldl_first Found.fb (fun f : Found => f.dev.btn_off) (Note.is .button)
    (fun n => n.field.off) mark_fb ?_ ?_ hb hn
  · exact fun f n hf => (mark_btn_off f n).trans (if_neg fun h => by rw [hf] at h; cases h.1)
  · exact fun f n hf hn => (mark_btn_off f n).trans (if_pos ⟨hf, of_decide_eq_true hn⟩)

/-- A wheel with a size is not given up. -/
theorem mark_sized (f : Found) (n : Note) : decide ((f.mark n).dev.fwheel.size ≠ 0)
    = (decide (f.dev.fwheel.size ≠ 0) || n.isSized) := by
  rw [mark_fwheel]
  unfold Note.isSized
  grind

/-- **The first wheel with a size is kept**, and it counts as relative. -/
theorem kept_fwheel (hw : f.dev.fwheel.size = 0) (hn : l.find? Note.isSized = some n) :
    (l.foldl Found.mark f).dev.fwheel = { n.field with rel := true } := by
  refine foldl_first (fun f : Found => decide (f.dev.fwheel.size ≠ 0))
    (fun f : Found => f.dev.fwheel) Note.isSized (fun n => { n.field with rel := true }) mark_sized ?_ ?_
    (decide_eq_false (not_not.mpr hw)) hn
  · exact fun f n hf => (mark_fwheel f n).trans (if_neg fun h => of_decide_eq_true hf h.1)
  · exact fun f n hf hn => (mark_fwheel f n).trans
      (if_pos ⟨not_not.mp (of_decide_eq_false hf), (of_decide_eq_true hn).1⟩)

/-- No wheel is kept where none has a size. -/
theorem fwheel_size_eq_zero (hw : f.dev.fwheel.size = 0) (hn : l.find? Note.isSized = none) :
    (l.foldl Found.mark f).dev.fwheel.size = 0 := by
  have hseen := foldl_seen (fun f : Found => decide (f.dev.fwheel.size ≠ 0)) Note.isSized
    mark_sized f l
  rw [decide_eq_false (not_not.mpr hw), Bool.false_or,
    List.any_eq_false.mpr (List.find?_eq_none.mp hn)] at hseen
  exact not_not.mp (of_decide_eq_false hseen)

/-- **The buttons are counted**, wherever they are. -/
theorem kept_btn_cnt (hzero : f.fb = false → f.dev.btn_cnt = 0) (hle : f.dev.btn_cnt ≤ 8) :
    (l.foldl Found.mark f).dev.btn_cnt = min 8 (f.dev.btn_cnt + l.countP (Note.is .button)) := by
  induction l generalizing f with
  | nil => exact (min_eq_right hle).symm
  | cons n l ih =>
    have hcnt := mark_btn_cnt f n hzero hle
    have hzero' : (f.mark n).fb = false → (f.mark n).dev.btn_cnt = 0 := by
      rw [mark_fb, hcnt]
      intro h
      obtain ⟨hb, hn⟩ := Bool.or_eq_false_iff.mp h
      rw [hzero hb, if_neg (of_decide_eq_false hn)]
      rfl
    rw [List.foldl_cons, ih hzero' (hcnt ▸ min_le_left _ _), hcnt, List.countP_cons]
    by_cases hn : n.role = some .button
    · rw [if_pos hn, if_pos (show Note.is .button n = true from decide_eq_true hn)]
      omega
    · rw [if_neg hn, if_neg (by simpa [Note.is] using hn)]
      omega

end Usb
