import MiniWin.Lib.RingBuffer
import Mathlib.Data.List.Basic

/-!
# Keys for the program in the window

`kernel/keyboard.h`, `handle_keyboard` of `kernel/ui/input.h` as far as the program's window goes,
and the program's side of it in `kernel/apps/progwin.h` and `kernel/mwp_api2.h`. The desktop polls
the keyboard and the program polls its window; the program runs until it yields, which it also does
in the middle of a poll. Whichever comes next, what the program has got and what waits for it are
the bytes that were polled while its window was in front (`keys_delivered`).
-/

namespace ProgWin

local instance neZero_cells : NeZero 32 := ⟨by decide⟩

/-! ## The keyboard -/

def KEY_NONE : ℤ := 0
def KEY_UP : ℤ := -1
def KEY_DOWN : ℤ := -2
def KEY_LEFT : ℤ := -3
def KEY_RIGHT : ℤ := -4
def KEY_RALT : ℤ := -6

def SC_EXT_PREFIX : UInt8 := 0xE0
def SC_UP : UInt8 := 0x48
def SC_DOWN : UInt8 := 0x50
def SC_LEFT : UInt8 := 0x4B
def SC_RIGHT : UInt8 := 0x4D
def SC_RALT : UInt8 := 0x38

/-- The keys without Shift. What is behind the table's end is zero. -/
def scancode_ascii : List UInt8 := [
  0, 27, 49, 50, 51, 52, 53, 54, 55, 56, 57, 48, 45, 61, 8,
  9, 113, 119, 101, 114, 116, 121, 117, 105, 111, 112, 91, 93, 10,
  0, 97, 115, 100, 102, 103, 104, 106, 107, 108, 59, 39, 96,
  0, 92, 122, 120, 99, 118, 98, 110, 109, 44, 46, 47,
  0, 42, 0, 32]

def scancode_ascii_shift : List UInt8 := [
  0, 27, 33, 64, 35, 36, 37, 94, 38, 42, 40, 41, 95, 43, 8,
  9, 81, 87, 69, 82, 84, 89, 85, 73, 79, 80, 123, 125, 10,
  0, 65, 83, 68, 70, 71, 72, 74, 75, 76, 58, 34, 126,
  0, 124, 90, 88, 67, 86, 66, 78, 77, 60, 62, 63,
  0, 42, 0, 32]

/-- The driver's state. The queue has the keys of a USB keyboard. -/
structure Keyboard where
  kbd_q : RingBuffer ℤ 32
  shift_held : Bool
  ctrl_held : Bool
  ext_prefix_pending : Bool

/-- A key that did not come from the controller. -/
def keyboard_inject (key : ℤ) (kb : Keyboard) : Keyboard :=
  { kb with kbd_q := kb.kbd_q.push key }

/-- What the two ports of the controller read. -/
structure Port where
  status : UInt8
  data : UInt8

/-- The key of an extended code. -/
def extendedKey (sc : UInt8) : ℤ :=
  if sc = SC_UP then KEY_UP
  else if sc = SC_DOWN then KEY_DOWN
  else if sc = SC_LEFT then KEY_LEFT
  else if sc = SC_RIGHT then KEY_RIGHT
  else if sc = SC_RALT then KEY_RALT
  else KEY_NONE

/-- A scancode of the controller. -/
def scancode (sc : UInt8) (kb : Keyboard) : ℤ × Keyboard :=
  if sc = SC_EXT_PREFIX then (KEY_NONE, { kb with ext_prefix_pending := true })
  else if kb.ext_prefix_pending then
    (if sc &&& 0x80 ≠ 0 then KEY_NONE else extendedKey sc,
      { kb with ext_prefix_pending := false })
  else if sc = 0x2A ∨ sc = 0x36 then (KEY_NONE, { kb with shift_held := true })
  else if sc = 0xAA ∨ sc = 0xB6 then (KEY_NONE, { kb with shift_held := false })
  else if sc = 0x1D then (KEY_NONE, { kb with ctrl_held := true })
  else if sc = 0x9D then (KEY_NONE, { kb with ctrl_held := false })
  else if sc &&& 0x80 ≠ 0 then (KEY_NONE, kb)
  else if sc ≥ 128 then (KEY_NONE, kb)
  else
    ((if kb.shift_held then scancode_ascii_shift else scancode_ascii).getD sc.toNat 0 |>.toNat, kb)

/-- A key of a USB keyboard goes first. A byte of the mouse is left where it is. -/
def keyboard_poll_key (port : Port) (kb : Keyboard) : ℤ × Keyboard :=
  match kb.kbd_q.pop with
  | some (k, q) => (k, { kb with kbd_q := q })
  | none =>
    if port.status = 0xFF then (KEY_NONE, kb)
    else if port.status &&& 0x01 = 0 then (KEY_NONE, kb)
    else if port.status &&& 0x20 ≠ 0 then (KEY_NONE, kb)
    else scancode port.data kb

/-! ## The windows -/

def NOTEPAD_MAX : ℕ := 4
def WIN_ID_PROG : ℕ := NOTEPAD_MAX + 4

/-- The windows from back to front, and what `win_is_open` and `win_is_minimized` say of them. -/
structure Desk where
  z_order : List ℕ
  isOpen : ℕ → Bool
  isMinimized : ℕ → Bool

/-- The window in front. -/
def Desk.focused (d : Desk) : Option ℕ :=
  d.z_order.reverse.find? fun id => d.isOpen id && !d.isMinimized id

def win_z_remove (id : ℕ) (d : Desk) : Desk := { d with z_order := d.z_order.erase id }

def win_z_raise (id : ℕ) (d : Desk) : Desk :=
  { d with z_order := (win_z_remove id d).z_order ++ [id] }

/-! ## The program window -/

def PW_KEYQ : ℕ := 32

/-- The program in the window. `cur` says that its code runs (`pw_cur`), and `polling` that it has
yielded in the middle of a poll. -/
structure Pw where
  used : Bool
  finished : Bool
  keyq : RingBuffer UInt8 32
  spin : ℕ
  cur : Bool
  polling : Bool

def pw_push_key (k : ℤ) (pw : Pw) : Pw :=
  if pw.used = false ∨ k ≤ 0 ∨ k > 255 then pw
  else { pw with keyq := pw.keyq.push (UInt8.ofNat k.toNat) }

def pw_pop_key (pw : Pw) : ℤ × Pw :=
  match pw.keyq.pop with
  | none => (0, pw)
  | some (k, q) => (k.toNat, { pw with keyq := q })

def pw_yield (pw : Pw) : Pw := { pw with spin := 0, cur := false }

/-- The keys in the queue. -/
def Pw.waiting (pw : Pw) : List ℤ := pw.keyq.contents.map fun b => (b.toNat : ℤ)

/-- The machine: its keyboard, its windows and its program. -/
structure Sys where
  kb : Keyboard
  desk : Desk
  pw : Pw

/-- What the program gets, if the poll returns before it yields. A program that has the whole screen
reads the keyboard. -/
def mwp_sys_key_poll (port : Port) (s : Sys) : Option ℤ × Sys :=
  if s.pw.cur then
    let (k, pw) := pw_pop_key s.pw
    if k ≠ 0 then (some k, { s with pw := { pw with spin := 0 } })
    else if pw.spin + 1 ≥ 4 then (none, { s with pw := { pw_yield pw with polling := true } })
    else (some k, { s with pw := { pw with spin := pw.spin + 1 } })
  else
    let (k, kb) := keyboard_poll_key port s.kb
    (some k, { s with kb := kb })

/-- A program is started, unless there is one. -/
def pw_launch (s : Sys) : Sys :=
  if s.pw.used then s
  else
    { s with
      desk := win_z_raise WIN_ID_PROG
        { s.desk with
          isOpen := Function.update s.desk.isOpen WIN_ID_PROG true
          isMinimized := Function.update s.desk.isMinimized WIN_ID_PROG false }
      pw := ⟨true, false, s.pw.keyq.clear, 0, false, false⟩ }

def pw_close (s : Sys) : Sys :=
  if s.pw.used = false then s
  else if s.pw.cur then s
  else
    { s with
      desk := win_z_remove WIN_ID_PROG
        { s.desk with
          isOpen := Function.update s.desk.isOpen WIN_ID_PROG false
          isMinimized := Function.update s.desk.isMinimized WIN_ID_PROG false }
      pw := { s.pw with used := false, finished := false } }

/-- The program goes on. In the middle of a poll it takes a key and the poll returns. -/
def pw_step (s : Sys) : Option ℤ × Sys :=
  if s.pw.used = false ∨ s.pw.finished then
    (none, if s.pw.used ∧ s.pw.finished then pw_close s else s)
  else if s.pw.polling then
    let (k, pw) := pw_pop_key { s.pw with cur := true, polling := false }
    (some k, { s with pw := pw })
  else (none, { s with pw := { s.pw with cur := true } })

/-- The program returns, and its window is closed. -/
def programEnds (s : Sys) : Sys :=
  pw_close { s with pw := { s.pw with finished := true, cur := false } }

/-- A poll of the desktop. What it does with a key for another window is left out. -/
def handle_keyboard (port : Port) (s : Sys) : Sys :=
  let (k, kb) := keyboard_poll_key port s.kb
  if s.desk.focused = some WIN_ID_PROG then { s with kb := kb, pw := pw_push_key k s.pw }
  else { s with kb := kb }

/-! ## Runs -/

/-- What can come next. The first ones are the desktop's, and the last ones the program's: the
installer pops keys itself, and to present a frame or to sleep is to yield. -/
inductive Event
  | inject (key : ℤ)
  | keyboard (port : Port)
  | windows (d : Desk)
  | launch
  | close
  | step
  | keyPoll (port : Port)
  | popKey
  | yield
  | ends

/-- What comes of an event, if it is the turn of whoever does it: what the program gets, and the
machine after it. -/
def Event.next (s : Sys) : Event → Option (Option ℤ × Sys)
  | inject key => some (none, { s with kb := keyboard_inject key s.kb })
  | keyboard port => if s.pw.cur then none else some (none, handle_keyboard port s)
  | windows d => if s.pw.cur then none else some (none, { s with desk := d })
  | launch => if s.pw.cur then none else some (none, pw_launch s)
  | close => if s.pw.cur then none else some (none, pw_close s)
  | step => if s.pw.cur then none else some (pw_step s)
  | keyPoll port => if s.pw.cur then some (mwp_sys_key_poll port s) else none
  | popKey =>
    if s.pw.cur then some ((pw_pop_key s.pw).map some fun pw => { s with pw := pw }) else none
  | yield => if s.pw.cur then some (none, { s with pw := pw_yield s.pw }) else none
  | ends => if s.pw.cur then some (none, programEnds s) else none

/-- The keys that are to be delivered since the program was started, and those that it got. -/
structure Log where
  kept : List ℤ
  got : List ℤ

/-- What a program that has the whole screen would get. -/
def fullScreenKey (port : Port) (s : Sys) : Option ℤ :=
  (mwp_sys_key_poll port { s with pw := { s.pw with cur := false } }).1

theorem fullScreenKey_eq (port : Port) (s : Sys) :
    fullScreenKey port s = some (keyboard_poll_key port s.kb).1 := rfl

/-- The keys of a kind are kept if they are polled while the window is in front, but not while as
many wait as the queue has room for. -/
def Log.note (kind : ℤ → Bool) (s : Sys) (out : Option ℤ) (l : Log) : Event → Log
  | .launch => if s.pw.used then l else ⟨[], []⟩
  | .keyboard port =>
    if s.pw.used ∧ s.desk.focused = some WIN_ID_PROG
        ∧ l.kept.length - l.got.length < PW_KEYQ - 1 then
      { l with kept := l.kept ++ (fullScreenKey port s).toList.filter kind }
    else l
  | _ => { l with got := l.got ++ out.toList.filter (· ≠ 0) }

/-- A machine that a run gets to. It starts without a program, whatever else there is. -/
inductive Run (kind : ℤ → Bool) : Sys → Log → Prop
  | start {s : Sys} (hused : s.pw.used = false) (hcur : s.pw.cur = false) : Run kind s ⟨[], []⟩
  | next {s s' : Sys} {l : Log} {out : Option ℤ} (h : Run kind s l) (e : Event)
    (he : e.next s = some (out, s')) : Run kind s' (l.note kind s out e)

/-- **The window delivers the keys of a kind**: what the program got, and what waits for it, are the
keys that were kept, in their order, and it is told that there is none only if none waits. -/
def Delivers (kind : ℤ → Bool) : Prop :=
  ∀ s l, Run kind s l →
    (s.pw.used → l.kept = l.got ++ s.pw.waiting)
    ∧ ∀ (e : Event) (s' : Sys), e.next s = some (some 0, s') → l.got = l.kept

/-! ## The queue -/

/-- A key that fits a cell and is not the one that says that there is none. -/
def isByte (k : ℤ) : Bool := 0 < k ∧ k ≤ 255

theorem waiting_push {k : ℤ} {pw : Pw} (hused : pw.used = true) :
    (pw_push_key k pw).waiting
      = if pw.waiting.length < PW_KEYQ - 1 then pw.waiting ++ [k].filter isByte
        else pw.waiting := by
  unfold pw_push_key
  by_cases hk : isByte k = true
  · have hbounds : 0 < k ∧ k ≤ 255 := of_decide_eq_true hk
    have hcell : ((UInt8.ofNat k.toNat).toNat : ℤ) = k := by
      rw [UInt8.toNat_ofNat']
      omega
    rw [if_neg (by simp [hused]; omega), List.filter_cons_of_pos hk]
    simp only [Pw.waiting, RingBuffer.contents_push, List.length_map]
    by_cases hroom : pw.keyq.contents.length + 1 < 32
    · rw [if_pos hroom, if_pos (show _ < PW_KEYQ - 1 from Nat.lt_sub_of_add_lt hroom),
        List.map_append, List.map_singleton, hcell]
      rfl
    · rw [if_neg hroom, if_neg fun h : _ < PW_KEYQ - 1 => hroom (Nat.add_lt_of_lt_sub h)]
  · have hout : pw.used = false ∨ k ≤ 0 ∨ k > 255 := by
      by_contra h
      exact hk (decide_eq_true (by omega))
    rw [if_pos hout, List.filter_cons_of_neg hk, List.filter_nil, List.append_nil, ite_self]

theorem zero_not_mem_push {k : ℤ} {pw : Pw} (h : (0 : ℤ) ∉ pw.waiting) :
    (0 : ℤ) ∉ (pw_push_key k pw).waiting := by
  by_cases hused : pw.used = true
  · rw [waiting_push hused]
    split
    · rw [List.mem_append, not_or]
      exact ⟨h, fun hmem => by simp [isByte] at hmem⟩
    · exact h
  · rw [pw_push_key, if_pos (.inl (by simpa using hused))]
    exact h

@[simp] theorem push_used (k : ℤ) (pw : Pw) : (pw_push_key k pw).used = pw.used := by
  unfold pw_push_key
  split <;> rfl

@[simp] theorem push_cur (k : ℤ) (pw : Pw) : (pw_push_key k pw).cur = pw.cur := by
  unfold pw_push_key
  split <;> rfl

/-- A pop gives the first key that waits, and 0 if there is none. -/
theorem pop_cases (pw : Pw) :
    (pw_pop_key pw = (0, pw) ∧ pw.waiting = [])
      ∨ ∃ (k : ℤ) (q : RingBuffer UInt8 32), pw_pop_key pw = (k, { pw with keyq := q })
        ∧ pw.waiting = k :: Pw.waiting { pw with keyq := q } := by
  unfold pw_pop_key
  cases hpop : pw.keyq.pop with
  | none =>
    refine .inl ⟨rfl, ?_⟩
    rw [Pw.waiting, (RingBuffer.pop_eq_none_iff _).mp hpop, List.map_nil]
  | some kq =>
    refine .inr ⟨kq.1.toNat, kq.2, rfl, ?_⟩
    rw [Pw.waiting, RingBuffer.contents_pop _ hpop]
    rfl

/-! ## What an event does -/

variable {s s' : Sys} {out : Option ℤ}

/-- Between two machines the program gets the first of its keys, if anything. -/
structure Takes (pw pw' : Pw) (out : Option ℤ) : Prop where
  used : pw.used = true
  waiting : pw.waiting = out.toList.filter (· ≠ 0) ++ pw'.waiting
  empty : out = some 0 → pw.waiting = []

theorem Takes.of_pop {pw pw' : Pw} {k : ℤ} (hzero : (0 : ℤ) ∉ pw.waiting) (hused : pw.used = true)
    (hpop : pw_pop_key pw = (k, pw')) : Takes pw pw' (some k) := by
  rcases pop_cases pw with ⟨heq, hnone⟩ | ⟨j, q, heq, hsome⟩
  · obtain ⟨rfl, rfl⟩ := Prod.mk.inj (heq.symm.trans hpop)
    exact ⟨hused, by simp, fun _ => hnone⟩
  · obtain ⟨rfl, rfl⟩ := Prod.mk.inj (heq.symm.trans hpop)
    have hne : j ≠ 0 := fun h0 => hzero (hsome ▸ h0 ▸ List.mem_cons_self)
    exact ⟨hused, by simp [hne, hsome], fun h => absurd (Option.some.inj h) hne⟩

theorem Takes.keep {pw pw' : Pw} (hused : pw.used = true) (hq : pw'.keyq = pw.keyq) :
    Takes pw pw' none :=
  ⟨hused, by rw [Pw.waiting, Pw.waiting, hq]; rfl, fun h => nomatch h⟩

/-- The code of the program runs only if there is one, and no zero is in its queue. -/
structure Sys.Ok (s : Sys) : Prop where
  cur : s.pw.cur = true → s.pw.used = true
  nonzero : s.pw.used = true → (0 : ℤ) ∉ s.pw.waiting

/-- What becomes of the program: it is there and gets what waits, or it is not. -/
def Goes (pw pw' : Pw) (out : Option ℤ) : Prop :=
  pw'.used = true ∧ Takes pw pw' out ∨ pw'.used = false ∧ pw'.cur = false ∧ out = none

theorem Goes.keep {pw pw' : Pw} (hcur : pw'.cur = true → pw'.used = true)
    (hused : pw'.used = pw.used) (hq : pw'.keyq = pw.keyq) : Goes pw pw' none := by
  by_cases h : pw'.used = true
  · exact .inl ⟨h, .keep (hused ▸ h) hq⟩
  · exact .inr ⟨by simpa using h, by simpa using mt hcur h, rfl⟩

theorem pop_used (pw : Pw) : (pw_pop_key pw).2.used = pw.used := by
  unfold pw_pop_key
  split <;> rfl

theorem Goes.of_pop {pw pw' : Pw} {k : ℤ} (hzero : (0 : ℤ) ∉ pw.waiting) (hused : pw.used = true)
    (hpop : pw_pop_key pw = (k, pw')) : Goes pw pw' (some k) := by
  refine .inl ⟨?_, .of_pop hzero hused hpop⟩
  rw [← hused, ← pop_used pw, hpop]

/-- Only the queue counts, and whether there is a program. -/
theorem Goes.congr {p q p' q' : Pw} {k : ℤ} (h : Goes p q (some k)) (hp : p'.used = p.used)
    (hpq : p'.keyq = p.keyq) (hq : q'.used = q.used) (hqq : q'.keyq = q.keyq) :
    Goes p' q' (some k) := by
  rcases h with ⟨hused, htakes⟩ | ⟨-, -, hnone⟩
  · refine .inl ⟨hq ▸ hused, hp ▸ htakes.used, ?_, ?_⟩
    · rw [Pw.waiting, Pw.waiting, hpq, hqq]
      exact htakes.waiting
    · rw [Pw.waiting, hpq]
      exact htakes.empty
  · exact nomatch hnone

theorem goes_close (hok : s.Ok) (hcur : s.pw.cur = false) : Goes s.pw (pw_close s).pw none := by
  unfold pw_close
  split
  · exact .keep hok.cur rfl rfl
  rw [if_neg (by simp [hcur])]
  exact .inr ⟨rfl, hcur, rfl⟩

theorem goes_keyPoll (hok : s.Ok) (hcur : s.pw.cur = true) {port : Port}
    (he : mwp_sys_key_poll port s = (out, s')) : Goes s.pw s'.pw out := by
  have hused := hok.cur hcur
  have hzero := hok.nonzero hused
  cases hpop : pw_pop_key s.pw with
  | mk k pw =>
    have hgoes := Goes.of_pop hzero hused hpop
    simp only [mwp_sys_key_poll, hcur, if_true, hpop] at he
    split at he
    · obtain ⟨rfl, rfl⟩ := Prod.mk.inj he
      exact hgoes.congr rfl rfl rfl rfl
    · next hk =>
      obtain rfl := not_not.mp hk
      split at he
      · obtain ⟨rfl, rfl⟩ := Prod.mk.inj he
        rcases hgoes with ⟨hused', htakes⟩ | ⟨-, -, h⟩
        · exact .inl ⟨hused', hused, htakes.waiting, fun h => nomatch h⟩
        · exact nomatch h
      · obtain ⟨rfl, rfl⟩ := Prod.mk.inj he
        exact hgoes.congr rfl rfl rfl rfl

theorem goes_step (hok : s.Ok) (hcur : s.pw.cur = false) (he : pw_step s = (out, s')) :
    Goes s.pw s'.pw out := by
  unfold pw_step at he
  split at he
  · obtain ⟨rfl, rfl⟩ := Prod.mk.inj he
    split
    · exact goes_close hok hcur
    · exact .keep hok.cur rfl rfl
  · next hon =>
    have hused : s.pw.used = true := by
      simp only [not_or, Bool.not_eq_false] at hon
      exact hon.1
    split at he
    · obtain ⟨rfl, rfl⟩ := Prod.mk.inj he
      have hgoes : Goes { s.pw with cur := true, polling := false } _ _ :=
        .of_pop (hok.nonzero hused) hused rfl
      exact hgoes.congr rfl rfl rfl rfl
    · obtain ⟨rfl, rfl⟩ := Prod.mk.inj he
      exact .keep (fun _ => hused) rfl rfl

/-- **Other events** only take keys of the program. -/
theorem goes_next (hok : s.Ok) {e : Event} (he : e.next s = some (out, s')) (hl : e ≠ .launch)
    (hk : ∀ port, e ≠ .keyboard port) : Goes s.pw s'.pw out := by
  cases e with
  | inject key =>
    obtain ⟨rfl, rfl⟩ := Prod.mk.inj (Option.some.inj he)
    exact .keep hok.cur rfl rfl
  | keyboard port => exact absurd rfl (hk port)
  | windows d =>
    obtain ⟨-, he⟩ := Option.ite_none_left_eq_some.mp he
    obtain ⟨rfl, rfl⟩ := Prod.mk.inj (Option.some.inj he)
    exact .keep hok.cur rfl rfl
  | launch => exact absurd rfl hl
  | close =>
    obtain ⟨hcur, he⟩ := Option.ite_none_left_eq_some.mp he
    obtain ⟨rfl, rfl⟩ := Prod.mk.inj (Option.some.inj he)
    exact goes_close hok (by simpa using hcur)
  | step =>
    obtain ⟨hcur, he⟩ := Option.ite_none_left_eq_some.mp he
    exact goes_step hok (by simpa using hcur) (Option.some.inj he)
  | keyPoll port =>
    obtain ⟨hcur, he⟩ := Option.ite_none_right_eq_some.mp he
    exact goes_keyPoll hok hcur (Option.some.inj he)
  | popKey =>
    obtain ⟨hcur, he⟩ := Option.ite_none_right_eq_some.mp he
    obtain ⟨rfl, rfl⟩ := Prod.mk.inj (Option.some.inj he)
    exact .of_pop (hok.nonzero (hok.cur hcur)) (hok.cur hcur) rfl
  | yield =>
    obtain ⟨hcur, he⟩ := Option.ite_none_right_eq_some.mp he
    obtain ⟨rfl, rfl⟩ := Prod.mk.inj (Option.some.inj he)
    exact .keep (fun h => nomatch h) rfl rfl
  | ends =>
    obtain ⟨hcur, he⟩ := Option.ite_none_right_eq_some.mp he
    obtain ⟨rfl, rfl⟩ := Prod.mk.inj (Option.some.inj he)
    have hused := hok.cur hcur
    refine .inr ⟨?_, ?_, rfl⟩ <;> simp [programEnds, pw_close, hused]

/-! ## Runs -/

theorem Goes.ok (hok : s.Ok) (h : Goes s.pw s'.pw out) : s'.Ok := by
  rcases h with ⟨hused, htakes⟩ | ⟨hnot, hcur, -⟩
  · refine ⟨fun _ => hused, fun _ hmem => hok.nonzero htakes.used ?_⟩
    rw [htakes.waiting]
    exact List.mem_append_right _ hmem
  · exact ⟨fun h => Bool.noConfusion (hcur.symm.trans h),
      fun h => Bool.noConfusion (hnot.symm.trans h)⟩

/-- What a run keeps: the machine is sound, and the keys that were kept are those that the program
got and those that wait. -/
structure Sound (s : Sys) (l : Log) : Prop extends s.Ok where
  kept : s.pw.used = true → l.kept = l.got ++ s.pw.waiting

theorem Sound.launch {l : Log} (h : Sound s l) :
    Sound (pw_launch s) (l.note isByte s none .launch) := by
  unfold pw_launch Log.note
  by_cases hused : s.pw.used = true
  · rw [if_pos hused, if_pos hused]
    exact h
  · rw [if_neg hused, if_neg hused]
    have hnone : Pw.waiting ⟨true, false, s.pw.keyq.clear, 0, false, false⟩ = [] := by
      rw [Pw.waiting, RingBuffer.contents_clear, List.map_nil]
    constructor
    · exact ⟨fun h => Bool.noConfusion h, fun _ => hnone ▸ List.not_mem_nil⟩
    · exact fun _ => hnone.symm

theorem Sound.keyboard {l : Log} (h : Sound s l) (port : Port) :
    Sound (handle_keyboard port s) (l.note isByte s none (.keyboard port)) := by
  unfold handle_keyboard
  simp only [Log.note, fullScreenKey_eq]
  cases hpoll : keyboard_poll_key port s.kb with
  | mk k kb =>
    dsimp only
    by_cases hfront : s.desk.focused = some WIN_ID_PROG
    · rw [if_pos hfront]
      constructor
      · refine ⟨fun hcur => ?_, fun hused => zero_not_mem_push (h.nonzero ?_)⟩
        · exact (push_used k s.pw).trans (h.cur ((push_cur k s.pw).symm.trans hcur))
        · exact (push_used k s.pw).symm.trans hused
      · intro hused
        have hused : s.pw.used = true := (push_used k s.pw).symm.trans hused
        have hkept := h.kept hused
        have hcount : l.kept.length - l.got.length = s.pw.waiting.length := by
          rw [hkept, List.length_append, Nat.add_sub_cancel_left]
        simp only [hused, hfront, true_and, hcount, waiting_push hused]
        split
        · rw [hkept, List.append_assoc]
          rfl
        · exact hkept
    · rw [if_neg hfront, if_neg fun hall => hfront hall.2.1]
      exact ⟨⟨h.cur, h.nonzero⟩, h.kept⟩

/-- **An event keeps what a run keeps.** -/
theorem Sound.next {l : Log} (h : Sound s l) {e : Event} (he : e.next s = some (out, s')) :
    Sound s' (l.note isByte s out e) := by
  by_cases hl : e = .launch
  · obtain rfl := hl
    obtain ⟨-, he⟩ := Option.ite_none_left_eq_some.mp he
    obtain ⟨rfl, rfl⟩ := Prod.mk.inj (Option.some.inj he)
    exact h.launch
  by_cases hk : ∃ port, e = .keyboard port
  · obtain ⟨port, rfl⟩ := hk
    obtain ⟨-, he⟩ := Option.ite_none_left_eq_some.mp he
    obtain ⟨rfl, rfl⟩ := Prod.mk.inj (Option.some.inj he)
    exact h.keyboard port
  have hgoes := goes_next h.toOk he hl fun port hp => hk ⟨port, hp⟩
  have hnote : l.note isByte s out e = ⟨l.kept, l.got ++ out.toList.filter (· ≠ 0)⟩ := by
    cases e with
    | launch => exact absurd rfl hl
    | keyboard port => exact absurd ⟨port, rfl⟩ hk
    | _ => rfl
  rw [hnote]
  constructor
  · exact hgoes.ok h.toOk
  · intro hused
    rcases hgoes with ⟨-, htakes⟩ | ⟨hnot, -, -⟩
    · rw [h.kept htakes.used, htakes.waiting, List.append_assoc]
    · exact nomatch hnot.symm.trans hused

theorem sound_run {l : Log} (h : Run isByte s l) : Sound s l := by
  induction h with
  | start hused hcur =>
    constructor
    · exact ⟨fun h => Bool.noConfusion (hcur.symm.trans h),
        fun h => Bool.noConfusion (hused.symm.trans h)⟩
    · exact fun h => Bool.noConfusion (hused.symm.trans h)
  | next _ e he ih => exact ih.next he

/-- **The keys of the window are the bytes that are polled while it is in front.** -/
theorem keys_delivered : Delivers isByte := by
  intro s l hrun
  have hsound := sound_run hrun
  refine ⟨hsound.kept, fun e s' he => ?_⟩
  have hgoes : Goes s.pw s'.pw (some 0) := by
    refine goes_next hsound.toOk he ?_ ?_
    · rintro rfl
      obtain ⟨-, he⟩ := Option.ite_none_left_eq_some.mp he
      exact nomatch (Prod.mk.inj (Option.some.inj he)).1
    · rintro port rfl
      obtain ⟨-, he⟩ := Option.ite_none_left_eq_some.mp he
      exact nomatch (Prod.mk.inj (Option.some.inj he)).1
  rcases hgoes with ⟨-, htakes⟩ | ⟨-, -, hnone⟩
  · rw [hsound.kept htakes.used, htakes.empty rfl, List.append_nil]
  · exact nomatch hnone

/-- A machine that has just been switched on. -/
def fresh : Sys :=
  ⟨⟨⟨fun _ => 0, 0, 0⟩, false, false, false⟩, ⟨[], fun _ => false, fun _ => false⟩,
    ⟨false, false, ⟨fun _ => 0, 0, 0⟩, 0, false, false⟩⟩

/-- A program is started, and the upper arrow is pressed, which is two codes. The key is -1 on the
whole screen, and nothing waits in the window. -/
theorem arrow_lost : ¬ Delivers fun k => k ≠ 0 := by
  intro h
  have hrun : Run (fun k => k ≠ 0) fresh ⟨[], []⟩ := .start rfl rfl
  have hrun := hrun.next .launch rfl
  have hrun := hrun.next (.keyboard ⟨1, SC_EXT_PREFIX⟩) rfl
  have hrun := hrun.next (.keyboard ⟨1, SC_UP⟩) rfl
  exact absurd ((h _ _ hrun).1 rfl) (by decide)

end ProgWin
