import Mathlib.Algebra.Group.Nat.Defs
import Mathlib.Data.Finset.Card
import Mathlib.Tactic.Common

/-!
# The keyboard in boot protocol

`hid_kbd_report` and `hid_kbd_tick` of `kernel/usb/hid.h`. What the driver injects is set against
what a keyboard does, report by report: the keys that are down, and those of them whose press it has
listed. The two part where a rollover report comes between.
-/

namespace Usb

/-! ## The source -/

/-- `hid_to_sc`. -/
def hidToSc : List ℕ :=
  [0x1E, 0x30, 0x2E, 0x20, 0x12, 0x21, 0x22, 0x23, 0x17, 0x24, 0x25, 0x26, 0x32,
   0x31, 0x18, 0x19, 0x10, 0x13, 0x1F, 0x14, 0x16, 0x2F, 0x11, 0x2D, 0x15, 0x2C,
   0x02, 0x03, 0x04, 0x05, 0x06, 0x07, 0x08, 0x09, 0x0A, 0x0B,
   0x1C, 0x01, 0x0E, 0x0F, 0x39, 0x0C, 0x0D, 0x1A, 0x1B, 0x2B, 0x2B,
   0x27, 0x28, 0x29, 0x33, 0x34, 0x35]

/-- `scancode_ascii`, up to where it is 0. -/
def scancodeAscii : List Char :=
  ['\x00', '\x1b', '1', '2', '3', '4', '5', '6', '7', '8', '9', '0', '-', '=', '\x08',
   '\t', 'q', 'w', 'e', 'r', 't', 'y', 'u', 'i', 'o', 'p', '[', ']', '\n', '\x00',
   'a', 's', 'd', 'f', 'g', 'h', 'j', 'k', 'l', ';', '\'', '\x60', '\x00',
   '\\', 'z', 'x', 'c', 'v', 'b', 'n', 'm', ',', '.', '/', '\x00', '*', '\x00', ' ']

/-- `scancode_ascii_shift`. -/
def scancodeAsciiShift : List Char :=
  ['\x00', '\x1b', '!', '@', '#', '$', '%', '^', '&', '*', '(', ')', '_', '+', '\x08',
   '\t', 'Q', 'W', 'E', 'R', 'T', 'Y', 'U', 'I', 'O', 'P', '\x7b', '\x7d', '\n', '\x00',
   'A', 'S', 'D', 'F', 'G', 'H', 'J', 'K', 'L', ':', '"', '~', '\x00',
   '|', 'Z', 'X', 'C', 'V', 'B', 'N', 'M', '<', '>', '?', '\x00', '*', '\x00', ' ']

/-- **`hid_key_code`.** -/
def hidKeyCode (shift : Bool) (usage : UInt8) : ℤ :=
  if 0x04 ≤ usage ∧ usage ≤ 0x38 then
    let sc := hidToSc.getD (usage.toNat - 4) 0
    if sc ≠ 0 then ((if shift then scancodeAsciiShift else scancodeAscii).getD sc '\x00').toNat
    else 0
  else if usage = 0x4F then -4
  else if usage = 0x50 then -3
  else if usage = 0x51 then -2
  else if usage = 0x52 then -1
  else 0

/-- The part of `usb_dev_t` that is a keyboard's, with the modifiers that it sets. -/
structure Kbd where
  last : List UInt8
  rep_key : UInt8
  rep_next : UInt32
  shift_held : Bool
  ctrl_held : Bool

/-- `hid_in_report`. -/
def hidInReport (r : List UInt8) (usage : UInt8) : Bool := (r.drop 2).contains usage

/-- The loop over the slots, with what it injects. -/
def presses (d : Kbd) (now : UInt32) : List UInt8 → Kbd × List ℤ
  | [] => (d, [])
  | k :: ks =>
    if k < 4 then presses d now ks
    else if hidInReport d.last k then presses d now ks
    else
      let code := hidKeyCode d.shift_held k
      if code ≠ 0 then
        let (d, out) := presses { d with rep_key := k, rep_next := now + 500 } now ks
        (d, code :: out)
      else presses d now ks

/-- `cur`: a report of 8 bytes. -/
def padded (r : List UInt8) : List UInt8 := r.take 8 ++ List.replicate (8 - (r.take 8).length) 0

/-- `KEY_RALT`, when the bit is set and was not. -/
def ralt (mods last : UInt8) : List ℤ :=
  if mods &&& 0x40 ≠ 0 ∧ ¬ last &&& 0x40 ≠ 0 then [-6] else []

/-- `if (d->rep_key && !hid_in_report(cur, d->rep_key)) d->rep_key = 0`. -/
def dropRep (d : Kbd) (cur : List UInt8) : Kbd :=
  if d.rep_key ≠ 0 ∧ ¬ hidInReport cur d.rep_key then { d with rep_key := 0 } else d

/-- **`hid_kbd_report`**, with what it injects. -/
def hidKbdReport (d : Kbd) (r : List UInt8) (now : UInt32) : Kbd × List ℤ :=
  if r.length < 3 then (d, [])
  else
    let cur := padded r
    let mods := cur.getD 0 0
    let before := d.last.getD 0 0
    let d := { d with shift_held := mods &&& 0x22 ≠ 0, ctrl_held := mods &&& 0x11 ≠ 0 }
    let (d, out) := presses d now (cur.drop 2)
    ({ dropRep d cur with last := cur }, ralt mods before ++ out)

/-- **`hid_kbd_tick`**, with what it injects. -/
def hidKbdTick (d : Kbd) (now : UInt32) : Kbd × List ℤ :=
  if d.rep_key = 0 ∨ (now - d.rep_next).toNat ≥ 2 ^ 31 then (d, [])
  else
    let code := hidKeyCode d.shift_held d.rep_key
    ({ d with rep_next := now + 40 }, if code ≠ 0 then [code] else [])

/-! ## What a keyboard does -/

/-- The keys that are down at a report. -/
structure Moment where
  mods : UInt8
  down : Finset UInt8
  usages : ∀ k ∈ down, 4 ≤ k

/-- A rollover report. -/
def Rolls (r : List UInt8) : Prop := 1 ∈ r.drop 2

instance (r : List UInt8) : Decidable (Rolls r) := inferInstanceAs (Decidable (_ ∈ _))

/-- A report of a moment: each key that is down has a slot, or there are more than there are slots
and all of these are 1. -/
structure Shows (m : Moment) (r : List UInt8) : Prop where
  len : 3 ≤ r.length ∧ r.length ≤ 8
  mods : r[0]? = some m.mods
  slots : (((r.drop 2).filter (· ≠ 0)).Nodup ∧ ∀ k, k ≠ 0 → (k ∈ r.drop 2 ↔ k ∈ m.down)) ∨
    (r.length - 2 < m.down.card ∧ ∀ k ∈ r.drop 2, k = 1)

/-- A report of a moment or a tick, at some time in milliseconds. -/
inductive KeyEvent
  | report (m : Moment) (r : List UInt8) (h : Shows m r) (t : ℕ)
  | tick (t : ℕ)

def KeyEvent.time : KeyEvent → ℕ
  | report _ _ _ t => t
  | tick t => t

/-- What the driver does at an event, with the clock of 32 bits. -/
def Kbd.step (d : Kbd) : KeyEvent → Kbd × List ℤ
  | .report _ r _ t => hidKbdReport d r (UInt32.ofNat t)
  | .tick t => hidKbdTick d (UInt32.ofNat t)

/-- What has been seen of a keyboard. -/
structure Watch where
  mods : UInt8
  /-- The keys that have been down since a report listed them. -/
  held : Finset UInt8
  /-- The last report was a rollover report. -/
  rolled : Bool
  /-- The keys that were pressed last, -/
  newest : Finset UInt8
  /-- and when they were listed. -/
  since : ℕ

/-- A key that has a code. -/
def Mapped (k : UInt8) : Prop := (0x04 ≤ k ∧ k ≤ 0x38) ∨ (0x4F ≤ k ∧ k ≤ 0x52)

instance (k : UInt8) : Decidable (Mapped k) := inferInstanceAs (Decidable (_ ∨ _))

/-- The keys whose press a report is the first to list. -/
def Watch.pressed (w : Watch) (m : Moment) (r : List UInt8) : Finset UInt8 :=
  if Rolls r then ∅ else m.down.filter fun k => Mapped k ∧ k ∉ w.held

def Watch.next (w : Watch) : KeyEvent → Watch
  | .report m r _ t =>
    { mods := m.mods
      held := if Rolls r then w.held ∩ m.down else m.down
      rolled := Rolls r
      newest := if w.pressed m r = ∅ then w.newest else w.pressed m r
      since := if w.pressed m r = ∅ then w.since else t }
  | .tick _ => w

/-- **What is to be injected**: each press once, by the report that lists it; and at a tick nothing,
or a key that was pressed last, is held, and was listed 500 ms ago or more. -/
def Watch.Right (w : Watch) : KeyEvent → List ℤ → Prop
  | .report m r _ _, out => ∃ ks : List UInt8, ks.Nodup ∧ ks.toFinset = w.pressed m r ∧
      out = ralt m.mods w.mods ++ ks.map (hidKeyCode (m.mods &&& 0x22 ≠ 0))
  | .tick t, out => out = [] ∨ ∃ k ∈ w.newest, k ∈ w.held ∧ w.since + 500 ≤ t ∧
      out = [hidKeyCode (w.mods &&& 0x22 ≠ 0) k]

/-- No key with a code has stayed down from before a rollover report to the list behind it. -/
def Watch.Calm (w : Watch) : KeyEvent → Prop
  | .report m r _ _ => w.rolled → ¬ Rolls r → ∀ k ∈ m.down, Mapped k → k ∉ w.held
  | .tick _ => True

/-- What is injected in a run is what is to be injected. -/
def RunRight (d : Kbd) (w : Watch) : List KeyEvent → Prop
  | [] => True
  | e :: es => w.Right e (d.step e).2 ∧ RunRight (d.step e).1 (w.next e) es

def RunCalm (w : Watch) : List KeyEvent → Prop
  | [] => True
  | e :: es => w.Calm e ∧ RunCalm (w.next e) es

/-- The events of a run are in the order of their times. -/
def Timed (now : ℕ) : List KeyEvent → Prop
  | [] => True
  | e :: es => now ≤ e.time ∧ Timed e.time es

/-- A keyboard that was just found. -/
def Kbd.new : Kbd := ⟨List.replicate 8 0, 0, 0, false, false⟩

def Watch.new : Watch := ⟨0, ∅, false, ∅, 0⟩

/-! ## One report -/

variable {d : Kbd} {w : Watch} {m : Moment} {r : List UInt8} {now : UInt32} {k : UInt8}

theorem hidKeyCode_ne_zero {shift : Bool} : hidKeyCode shift k ≠ 0 ↔ Mapped k := by
  have hall : ∀ (s : Bool) (n : Fin 256),
      hidKeyCode s (UInt8.ofNat n) ≠ 0 ↔ Mapped (UInt8.ofNat n) := by decide +kernel
  have h := hall shift ⟨k.toNat, k.toNat_lt⟩
  rwa [UInt8.ofNat_toNat] at h

/-- The slots that the loop takes for presses. -/
def Kbd.fresh (d : Kbd) (ks : List UInt8) : List UInt8 :=
  ks.filter fun k => 4 ≤ k ∧ k ∉ d.last.drop 2 ∧ Mapped k

theorem hidInReport_eq : hidInReport r k = true ↔ k ∈ r.drop 2 := List.contains_iff_mem

theorem presses_skip {ks : List UInt8} (h : ¬ (4 ≤ k ∧ k ∉ d.last.drop 2 ∧ Mapped k)) :
    presses d now (k :: ks) = presses d now ks := by
  rw [presses]
  by_cases hk : k < 4
  · exact if_pos hk
  · rw [if_neg hk]
    by_cases hin : hidInReport d.last k
    · exact if_pos hin
    · rw [if_neg hin]
      refine if_neg fun hcode => h ⟨UInt8.not_lt.mp hk, fun hmem => hin ?_, ?_⟩
      · exact hidInReport_eq.mpr hmem
      · exact hidKeyCode_ne_zero.mp hcode

theorem presses_take {ks : List UInt8} (h : 4 ≤ k ∧ k ∉ d.last.drop 2 ∧ Mapped k) :
    presses d now (k :: ks) =
      ((presses { d with rep_key := k, rep_next := now + 500 } now ks).1,
        hidKeyCode d.shift_held k ::
          (presses { d with rep_key := k, rep_next := now + 500 } now ks).2) := by
  rw [presses, if_neg (UInt8.not_lt.mpr h.1), if_neg fun hin => h.2.1 (hidInReport_eq.mp hin)]
  exact if_pos (hidKeyCode_ne_zero.mpr h.2.2)

/-- **The loop over the slots.** -/
theorem presses_eq (d : Kbd) (now : UInt32) (ks : List UInt8) :
    presses d now ks =
      (match (d.fresh ks).getLast? with
        | none => d
        | some k => { d with rep_key := k, rep_next := now + 500 },
      (d.fresh ks).map (hidKeyCode d.shift_held)) := by
  induction ks generalizing d with
  | nil => rfl
  | cons k ks ih =>
    by_cases hk : 4 ≤ k ∧ k ∉ d.last.drop 2 ∧ Mapped k
    · have hfresh : d.fresh (k :: ks) = k :: d.fresh ks :=
        List.filter_cons_of_pos (decide_eq_true hk)
      rw [presses_take hk, hfresh, ih, List.getLast?_cons]
      show (match (d.fresh ks).getLast? with | none => _ | some _ => _, _) = _
      cases (d.fresh ks).getLast? with
      | none => rfl
      | some l => rfl
    · have hfresh : d.fresh (k :: ks) = d.fresh ks :=
        List.filter_cons_of_neg fun h => hk (of_decide_eq_true h)
      rw [presses_skip hk, hfresh, ih]

/-! ## Reports of a moment -/

theorem padded_drop (h : 3 ≤ r.length ∧ r.length ≤ 8) :
    (padded r).drop 2 = r.drop 2 ++ List.replicate (8 - r.length) 0 := by
  unfold padded
  rw [List.take_of_length_le h.2, List.drop_append_of_le_length (by omega)]

theorem padded_head (h : 3 ≤ r.length) : (padded r).getD 0 0 = r.getD 0 0 := by
  unfold padded
  cases r with
  | nil => exact absurd h (by decide)
  | cons a r => rfl

theorem mem_padded (h : 3 ≤ r.length ∧ r.length ≤ 8) (hk : k ≠ 0) :
    k ∈ (padded r).drop 2 ↔ k ∈ r.drop 2 := by
  rw [padded_drop h, List.mem_append]
  exact or_iff_left fun hmem => hk (List.eq_of_mem_replicate hmem)

theorem ne_zero_of_le (h : 4 ≤ k) : k ≠ 0 := fun h0 => absurd (h0 ▸ h) (by decide)

theorem ne_one_of_le (h : 4 ≤ k) : k ≠ 1 := fun h1 => absurd (h1 ▸ h) (by decide)

/-- **A list** is not a rollover report, and has the keys that are down. -/
theorem Shows.listed (h : Shows m r) (hr : ¬ Rolls r) :
    ((r.drop 2).filter (· ≠ 0)).Nodup ∧ ∀ k, k ≠ 0 → (k ∈ r.drop 2 ↔ k ∈ m.down) := by
  refine h.slots.resolve_right fun hroll => hr ?_
  have hlen := h.len.1
  have hne : r.drop 2 ≠ [] := fun hnil => by
    have := congrArg List.length hnil
    rw [List.length_drop] at this
    exact absurd this (by simp only [List.length_nil]; omega)
  obtain ⟨a, ha⟩ := List.exists_mem_of_ne_nil _ hne
  have hone : 1 ∈ r.drop 2 := hroll.2 a ha ▸ ha
  exact hone

/-- **A rollover report** has no key. -/
theorem Shows.rolled (h : Shows m r) (hr : Rolls r) (hk : 4 ≤ k) : k ∉ r.drop 2 := by
  intro hmem
  rcases h.slots with hlist | hroll
  · have hdown := (hlist.2 1 (by decide)).mp hr
    exact absurd (m.usages 1 hdown) (by decide)
  · exact ne_one_of_le hk (hroll.2 k hmem)

theorem Mapped.le (h : Mapped k) : 4 ≤ k := by
  rcases h with h | h
  · exact h.1
  · exact UInt8.le_trans (by decide) h.1

/-! ## The invariant -/

/-- What the driver has, of what has been seen up to `now`. -/
structure Follows (d : Kbd) (w : Watch) (now : ℕ) : Prop where
  last : ∀ k, 4 ≤ k → (k ∈ d.last.drop 2 ↔ w.rolled = false ∧ k ∈ w.held)
  mods : d.last.getD 0 0 = w.mods
  shift : d.shift_held = decide (w.mods &&& 0x22 ≠ 0)
  rep : d.rep_key = 0 ∨ (d.rep_key ∈ w.newest ∧ d.rep_key ∈ w.held ∧ Mapped d.rep_key ∧
    ∃ t, d.rep_next = UInt32.ofNat t ∧ w.since + 500 ≤ t ∧ t ≤ now + 500)

theorem Follows.new : Follows Kbd.new Watch.new 0 :=
  ⟨fun k hk => by
    refine ⟨fun hmem => absurd (List.eq_of_mem_replicate (List.mem_of_mem_drop hmem))
      (ne_zero_of_le hk), fun h => absurd h.2 (Finset.notMem_empty k)⟩, rfl, rfl, .inl rfl⟩

/-- **A deadline** less than half a turn of the clock ahead is not reached before its time. -/
theorem deadline {t now : ℕ} (hle : t ≤ now + 500)
    (h : ¬ (UInt32.ofNat now - UInt32.ofNat t).toNat ≥ 2 ^ 31) : t ≤ now := by
  rw [UInt32.toNat_sub, UInt32.toNat_ofNat', UInt32.toNat_ofNat'] at h
  omega

/-- **A tick** injects what is to be injected, -/
theorem Follows.tick_right {t now : ℕ} (h : Follows d w now) (ht : now ≤ t) :
    w.Right (.tick t) (d.step (.tick t)).2 := by
  show w.Right _ (hidKbdTick d (UInt32.ofNat t)).2
  unfold hidKbdTick
  split
  · exact .inl rfl
  · next hfire =>
    rw [not_or] at hfire
    obtain ⟨hnew, hheld, hmap, due, hdue, hsince, hnow⟩ := h.rep.resolve_left hfire.1
    have hcode : hidKeyCode d.shift_held d.rep_key ≠ 0 := hidKeyCode_ne_zero.mpr hmap
    have hreached := deadline (by omega : due ≤ t + 500) (hdue ▸ hfire.2)
    refine .inr ⟨d.rep_key, hnew, hheld, hsince.trans hreached, ?_⟩
    show (if hidKeyCode d.shift_held d.rep_key ≠ 0 then _ else _) = _
    rw [if_pos hcode, h.shift]

/-- and keeps the invariant. -/
theorem Follows.tick {t now : ℕ} (h : Follows d w now) (ht : now ≤ t) :
    Follows (d.step (.tick t)).1 (w.next (.tick t)) t := by
  show Follows (hidKbdTick d (UInt32.ofNat t)).1 w t
  unfold hidKbdTick
  split
  · exact ⟨h.last, h.mods, h.shift, h.rep.imp id fun ⟨hnew, hheld, hmap, due, hdue, hsince, hnow⟩ =>
      ⟨hnew, hheld, hmap, due, hdue, hsince, by omega⟩⟩
  · next hfire =>
    rw [not_or] at hfire
    obtain ⟨hnew, hheld, hmap, due, hdue, hsince, hnow⟩ := h.rep.resolve_left hfire.1
    have hreached := deadline (by omega : due ≤ t + 500) (hdue ▸ hfire.2)
    refine ⟨h.last, h.mods, h.shift, .inr ⟨hnew, hheld, hmap, t + 40, ?_, by omega, by omega⟩⟩
    exact (UInt32.ofNat_add t 40).symm

/-! ## The reports -/

theorem Shows.head (h : Shows m r) : (padded r).getD 0 0 = m.mods := by
  rw [padded_head h.len.1, List.getD_eq_getElem?_getD, h.mods]
  rfl

/-- The slots of a report that are taken for presses. -/
def Kbd.taken (d : Kbd) (r : List UInt8) : List UInt8 := d.fresh ((padded r).drop 2)

theorem mem_taken (h : Shows m r) :
    k ∈ d.taken r ↔ k ∈ r.drop 2 ∧ 4 ≤ k ∧ k ∉ d.last.drop 2 ∧ Mapped k := by
  unfold Kbd.taken Kbd.fresh
  rw [List.mem_filter, decide_eq_true_iff]
  exact and_congr_left fun hk => mem_padded h.len (ne_zero_of_le hk.1)

theorem taken_nodup (h : Shows m r) (hr : ¬ Rolls r) : (d.taken r).Nodup := by
  have hzeros : d.fresh (List.replicate (8 - r.length) 0) = [] :=
    List.filter_eq_nil_iff.mpr fun a ha hp =>
      ne_zero_of_le (of_decide_eq_true hp).1 (List.eq_of_mem_replicate ha)
  unfold Kbd.taken
  rw [padded_drop h.len]
  unfold Kbd.fresh at hzeros ⊢
  rw [List.filter_append, hzeros, List.append_nil]
  refine (h.listed hr).1.sublist (List.monotone_filter_right _ fun a ha => ?_)
  exact decide_eq_true (ne_zero_of_le (of_decide_eq_true ha).1)

theorem taken_rolled (h : Shows m r) (hr : Rolls r) : d.taken r = [] :=
  List.eq_nil_iff_forall_not_mem.mpr fun _ hk =>
    h.rolled hr ((mem_taken h).mp hk).2.1 ((mem_taken h).mp hk).1

theorem step_report (h : Shows m r) (t : ℕ) : (d.step (.report m r h t)).2 =
    ralt m.mods (d.last.getD 0 0) ++ (d.taken r).map (hidKeyCode (m.mods &&& 0x22 ≠ 0)) := by
  show (hidKbdReport d r _).2 = _
  unfold hidKbdReport
  rw [if_neg h.len.1.not_gt]
  dsimp only
  rw [presses_eq, h.head]
  rfl

/-- Of a list, the keys are taken that have a code and were not in the report before. -/
theorem mem_taken_listed {now : ℕ} (hf : Follows d w now) (h : Shows m r) (hr : ¬ Rolls r) :
    k ∈ d.taken r ↔ k ∈ m.down ∧ Mapped k ∧ (w.rolled = false → k ∉ w.held) := by
  rw [mem_taken h]
  constructor
  · rintro ⟨hin, hle, hlast, hmap⟩
    exact ⟨((h.listed hr).2 k (ne_zero_of_le hle)).mp hin, hmap,
      fun hroll hheld => hlast ((hf.last k hle).mpr ⟨hroll, hheld⟩)⟩
  · rintro ⟨hdown, hmap, hheld⟩
    have hle := hmap.le
    exact ⟨((h.listed hr).2 k (ne_zero_of_le hle)).mpr hdown, hle,
      fun hlast => hheld ((hf.last k hle).mp hlast).1 ((hf.last k hle).mp hlast).2, hmap⟩

theorem mem_pressed (hr : ¬ Rolls r) :
    k ∈ w.pressed m r ↔ k ∈ m.down ∧ Mapped k ∧ k ∉ w.held := by
  unfold Watch.pressed
  rw [if_neg hr, Finset.mem_filter]

theorem pressed_subset {now : ℕ} (hf : Follows d w now) (h : Shows m r) (hr : ¬ Rolls r) :
    w.pressed m r ⊆ (d.taken r).toFinset := fun k hk => by
  have hmem := (mem_pressed hr).mp hk
  exact List.mem_toFinset.mpr
    ((mem_taken_listed hf h hr).mpr ⟨hmem.1, hmem.2.1, fun _ => hmem.2.2⟩)

/-- **What is taken** is what was pressed, exactly when no key has stayed down through a
rollover. -/
theorem taken_eq_pressed {now t : ℕ} (hf : Follows d w now) (h : Shows m r) (hr : ¬ Rolls r) :
    (d.taken r).toFinset = w.pressed m r ↔ w.Calm (.report m r h t) := by
  constructor
  · intro heq hroll _ k hdown hmap
    have hmem : k ∈ (d.taken r).toFinset := List.mem_toFinset.mpr
      ((mem_taken_listed hf h hr).mpr ⟨hdown, hmap, fun h0 => absurd (h0 ▸ hroll) (by decide)⟩)
    exact ((mem_pressed hr).mp (heq ▸ hmem)).2.2
  · intro hcalm
    refine Finset.Subset.antisymm (fun k hk => ?_) (pressed_subset hf h hr)
    obtain ⟨hdown, hmap, hheld⟩ := (mem_taken_listed hf h hr).mp (List.mem_toFinset.mp hk)
    refine (mem_pressed hr).mpr ⟨hdown, hmap, ?_⟩
    cases hroll : w.rolled with
    | false => exact hheld hroll
    | true => exact hcalm hroll hr k hdown hmap

/-- **A report** injects what is to be injected exactly when no key has stayed down through a
rollover. -/
theorem Follows.report_right_iff {now t : ℕ} (hf : Follows d w now) (h : Shows m r) :
    w.Right (.report m r h t) (d.step (.report m r h t)).2 ↔ w.Calm (.report m r h t) := by
  rw [step_report, hf.mods]
  by_cases hr : Rolls r
  · rw [taken_rolled h hr]
    refine ⟨fun _ _ hnot => absurd hr hnot, fun _ => ⟨[], List.nodup_nil, ?_, rfl⟩⟩
    exact (if_pos hr : w.pressed m r = ∅).symm
  · rw [← taken_eq_pressed hf h hr]
    refine ⟨fun ⟨ks, hnodup, hks, hout⟩ => ?_, fun heq => ⟨_, taken_nodup h hr, heq, rfl⟩⟩
    have hlen := congrArg List.length (List.append_cancel_left hout)
    rw [List.length_map, List.length_map] at hlen
    refine (Finset.eq_of_subset_of_card_le (pressed_subset hf h hr) ?_).symm
    rw [← hks, List.toFinset_card_of_nodup hnodup, List.toFinset_card_of_nodup (taken_nodup h hr),
      hlen]

theorem dropRep_eq (d : Kbd) (cur : List UInt8) : dropRep d cur = { d with rep_key := 0 } ∨
    (dropRep d cur = d ∧ (d.rep_key = 0 ∨ d.rep_key ∈ cur.drop 2)) := by
  unfold dropRep
  split
  · exact .inl rfl
  · next hkeep =>
    refine .inr ⟨rfl, or_iff_not_imp_left.mpr fun h0 => ?_⟩
    by_contra hout
    exact hkeep ⟨h0, fun hin => hout (hidInReport_eq.mp hin)⟩

/-- What the loop makes of the repeat. -/
theorem presses_rep (d : Kbd) (now : UInt32) (ks : List UInt8) :
    (d.fresh ks = [] ∧ (presses d now ks).1 = d) ∨
      ∃ k ∈ d.fresh ks, (presses d now ks).1 = { d with rep_key := k, rep_next := now + 500 } := by
  rw [presses_eq]
  cases hlast : (d.fresh ks).getLast? with
  | none => exact .inl ⟨List.getLast?_eq_none_iff.mp hlast, rfl⟩
  | some k => exact .inr ⟨k, List.mem_of_getLast? hlast, rfl⟩

/-- The modifiers of a report. -/
def Kbd.withMods (d : Kbd) (mods : UInt8) : Kbd :=
  { d with shift_held := mods &&& 0x22 ≠ 0, ctrl_held := mods &&& 0x11 ≠ 0 }

theorem step_report_state (h : Shows m r) (t : ℕ) : (d.step (.report m r h t)).1 =
    { dropRep (presses (d.withMods m.mods) (UInt32.ofNat t) ((padded r).drop 2)).1 (padded r) with
      last := padded r } := by
  show (hidKbdReport d r _).1 = _
  unfold hidKbdReport
  rw [if_neg h.len.1.not_gt]
  dsimp only
  rw [h.head]
  rfl

/-- The slots of a report are the keys of the next watch. -/
theorem mem_last (h : Shows m r) (t : ℕ) (hk : 4 ≤ k) : k ∈ (padded r).drop 2 ↔
    (w.next (.report m r h t)).rolled = false ∧ k ∈ (w.next (.report m r h t)).held := by
  rw [mem_padded h.len (ne_zero_of_le hk)]
  show _ ↔ decide (Rolls r) = false ∧ k ∈ (if Rolls r then w.held ∩ m.down else m.down)
  by_cases hr : Rolls r
  · rw [decide_eq_true hr]
    exact ⟨fun hmem => absurd hmem (h.rolled hr hk), fun hno => (nomatch hno.1)⟩
  · rw [decide_eq_false hr, if_neg hr]
    exact ((h.listed hr).2 k (ne_zero_of_le hk)).trans (and_iff_right rfl).symm

/-- **The repeat** behind the loop is one of the next watch, if its key is still down. -/
theorem Follows.rep_next {now t : ℕ} (hf : Follows d w now) (h : Shows m r) (ht : now ≤ t)
    (hcalm : w.Calm (.report m r h t)) {d' : Kbd}
    (hd : d' = (presses (d.withMods m.mods) (UInt32.ofNat t) ((padded r).drop 2)).1)
    (hdown : d'.rep_key ∈ (padded r).drop 2) (h0 : d'.rep_key ≠ 0) :
    d'.rep_key ∈ (w.next (.report m r h t)).newest ∧
      d'.rep_key ∈ (w.next (.report m r h t)).held ∧ Mapped d'.rep_key ∧
      ∃ due, d'.rep_next = UInt32.ofNat due ∧
        (w.next (.report m r h t)).since + 500 ≤ due ∧ due ≤ t + 500 := by
  have hheld (hle : 4 ≤ d'.rep_key) : d'.rep_key ∈ (w.next (.report m r h t)).held :=
    ((mem_last h t hle).mp hdown).2
  have hlist : 4 ≤ d'.rep_key → ¬ Rolls r := fun hle hr =>
    h.rolled hr hle ((mem_padded h.len h0).mp hdown)
  rcases presses_rep (d.withMods m.mods) (UInt32.ofNat t) ((padded r).drop 2) with
    ⟨hnone, hsame⟩ | ⟨k, hk, hnew⟩
  · -- no press: the repeat of before
    rw [hsame] at hd
    subst hd
    obtain ⟨hnewest, -, hmap, due, hdue, hsince, hnow⟩ := hf.rep.resolve_left h0
    have hr := hlist hmap.le
    have hnil : d.taken r = [] := hnone
    have hpressed : w.pressed m r = ∅ := by
      rw [← (taken_eq_pressed hf h hr).mpr hcalm, hnil]
      rfl
    refine ⟨?_, hheld hmap.le, hmap, due, hdue, ?_, by omega⟩
    · show _ ∈ if w.pressed m r = ∅ then w.newest else w.pressed m r
      rw [if_pos hpressed]
      exact hnewest
    · show (if w.pressed m r = ∅ then w.since else t) + 500 ≤ due
      rw [if_pos hpressed]
      exact hsince
  · -- the key of the last press
    rw [hnew] at hd
    subst hd
    have hmem : k ∈ d.taken r := hk
    have hle := ((mem_taken h).mp hmem).2.1
    have hr := hlist hle
    have hin : k ∈ w.pressed m r := by
      rw [← (taken_eq_pressed hf h hr).mpr hcalm]
      exact List.mem_toFinset.mpr hmem
    have hpressed : w.pressed m r ≠ ∅ := Finset.ne_empty_of_mem hin
    refine ⟨?_, hheld hle, ((mem_pressed hr).mp hin).2.1, t + 500, (UInt32.ofNat_add t 500).symm,
      ?_, le_rfl⟩
    · show k ∈ if w.pressed m r = ∅ then w.newest else w.pressed m r
      rw [if_neg hpressed]
      exact hin
    · show (if w.pressed m r = ∅ then w.since else t) + 500 ≤ t + 500
      rw [if_neg hpressed]

/-- **A report** through which no key has stayed keeps the invariant. -/
theorem Follows.report {now t : ℕ} (hf : Follows d w now) (h : Shows m r) (ht : now ≤ t)
    (hcalm : w.Calm (.report m r h t)) :
    Follows (d.step (.report m r h t)).1 (w.next (.report m r h t)) t := by
  rw [step_report_state h]
  obtain ⟨d', hd⟩ : ∃ d', d' = (presses (d.withMods m.mods) (UInt32.ofNat t)
    ((padded r).drop 2)).1 := ⟨_, rfl⟩
  have hshift : d'.shift_held = decide (m.mods &&& 0x22 ≠ 0) := by
    rcases presses_rep (d.withMods m.mods) (UInt32.ofNat t) ((padded r).drop 2) with
      ⟨-, hsame⟩ | ⟨k, -, hnew⟩
    · rw [hd, hsame]
      rfl
    · rw [hd, hnew]
      rfl
  rw [← hd]
  rcases dropRep_eq d' (padded r) with hdrop | ⟨hkeep, hin⟩
  · rw [hdrop]
    exact ⟨fun k hk => mem_last h t hk, h.head, hshift, .inl rfl⟩
  · rw [hkeep]
    refine ⟨fun k hk => mem_last h t hk, h.head, hshift, or_iff_not_imp_left.mpr fun h0 => ?_⟩
    have hnext := hf.rep_next h ht hcalm hd (hin.resolve_left h0) h0
    exact hnext

/-! ## Runs -/

theorem Follows.step_right_iff {now : ℕ} (hf : Follows d w now) {e : KeyEvent} (he : now ≤ e.time) :
    w.Right e (d.step e).2 ↔ w.Calm e := by
  cases e with
  | report m r h t => exact hf.report_right_iff h
  | tick t => exact iff_of_true (hf.tick_right he) trivial

theorem Follows.step {now : ℕ} (hf : Follows d w now) {e : KeyEvent} (he : now ≤ e.time)
    (hcalm : w.Calm e) : Follows (d.step e).1 (w.next e) e.time := by
  cases e with
  | report m r h t => exact hf.report h he hcalm
  | tick t => exact hf.tick he

theorem Follows.run_right_iff {now : ℕ} (hf : Follows d w now) {es : List KeyEvent}
    (ht : Timed now es) : RunRight d w es ↔ RunCalm w es := by
  induction es generalizing d w now with
  | nil => exact Iff.rfl
  | cons e es ih =>
    refine (and_congr (hf.step_right_iff ht.1) Iff.rfl).trans (and_congr_right fun hcalm => ?_)
    exact ih (hf.step ht.1 hcalm) ht.2

/-- **Key presses**: in a run, what is injected is what is to be injected exactly when no key with a
code ever stays down from before a rollover report to the list behind it. -/
theorem keyboard_right_iff {es : List KeyEvent} (ht : Timed 0 es) :
    RunRight Kbd.new Watch.new es ↔ RunCalm Watch.new es :=
  Follows.new.run_right_iff ht

/-- One key is down, -/
def one : Moment := ⟨0, {4}, by decide +kernel⟩

/-- and six more. -/
def seven : Moment := ⟨0, {4, 5, 6, 7, 8, 9, 10}, by decide +kernel⟩

theorem one_shows : Shows one [0, 0, 4, 0, 0, 0, 0, 0] := by
  refine ⟨by decide, rfl, .inl ⟨by decide, fun k hk => ?_⟩⟩
  show k ∈ [4, 0, 0, 0, 0, 0] ↔ k ∈ ({4} : Finset UInt8)
  rw [Finset.mem_singleton, List.mem_cons, or_iff_left fun hmem => hk ?_]
  exact List.eq_of_mem_replicate (n := 5) hmem

theorem seven_shows : Shows seven [0, 0, 1, 1, 1, 1, 1, 1] :=
  ⟨by decide +kernel, rfl, .inr ⟨by decide +kernel, by decide +kernel⟩⟩

theorem keyboard_right_held : RunRight Kbd.new Watch.new
    [.report one _ one_shows 0, .report one _ one_shows 8, .tick 500] := by
  refine (keyboard_right_iff ?_).mpr
    ⟨fun h => (nomatch h), fun h => (nomatch h), trivial, trivial⟩
  show 0 ≤ 0 ∧ 0 ≤ 8 ∧ 8 ≤ 500 ∧ True
  decide

/-- A key that stays down through a rollover report is injected again behind it. -/
theorem rollover_injects_again : ¬ RunRight Kbd.new Watch.new
    [.report one _ one_shows 0, .report seven _ seven_shows 8, .report one _ one_shows 16] := by
  rintro ⟨-, -, ⟨ks, -, hks, hout⟩, -⟩
  have hnone : ks.toFinset = ∅ := hks.trans (by decide +kernel)
  rw [(List.toFinset_eq_empty_iff ks).mp hnone] at hout
  revert hout
  decide +kernel

end Usb
