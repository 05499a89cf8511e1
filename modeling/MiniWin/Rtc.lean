import MiniWin.Lib.Calendar
import MiniWin.Lib.Casts

/-!
# The clock's time zone

`rtc_apply_offset` of `kernel/rtc.h`, and what it goes by. An `int` is an integer here; what is
cut to one is the year, and the sum for the day of the week.
-/

namespace Rtc

open Calendar Narrow

/-- The cast to an `int`. -/
def toInt (x : ℤ) : ℤ := wrap 0x80000000 x

/-- `compute_weekday`. -/
def computeWeekday (y m d : ℤ) : ℤ :=
  let y := if m < 3 then toInt (y - 1) else y
  let t := [0, 3, 2, 5, 0, 3, 5, 1, 4, 6, 2, 4].getD (m - 1).toNat 0
  (toInt (y + y.tdiv 4 - y.tdiv 100 + y.tdiv 400 + t + d)).tmod 7

@[ext] structure RtcTime where
  second : ℤ
  minute : ℤ
  hour : ℤ
  day : ℤ
  month : ℤ
  year : ℤ
  weekday : ℤ
deriving DecidableEq

/-- `rtc_is_leap_year`. -/
def rtcIsLeapYear (y : ℤ) : Prop := y.tmod 4 = 0 ∧ y.tmod 100 ≠ 0 ∨ y.tmod 400 = 0

instance : DecidablePred rtcIsLeapYear := fun _ => inferInstanceAs (Decidable (_ ∨ _))

/-- `rtc_days_in_month`. -/
def rtcDaysInMonth (y m : ℤ) : ℤ :=
  if m = 2 ∧ rtcIsLeapYear y then 29
  else [31, 28, 31, 30, 31, 30, 31, 31, 30, 31, 30, 31].getD (m - 1).toNat 0

/-- The first branch: the day after. -/
def RtcTime.after (t : RtcTime) : RtcTime :=
  let t := { t with day := t.day + 1 }
  if t.day > rtcDaysInMonth t.year t.month then
    let t := { t with day := 1, month := t.month + 1 }
    if t.month > 12 then { t with month := 1, year := toInt (t.year + 1) } else t
  else t

/-- The second branch: the day before. -/
def RtcTime.before (t : RtcTime) : RtcTime :=
  let t := { t with day := t.day - 1 }
  if t.day < 1 then
    let t := { t with month := t.month - 1 }
    let t := if t.month < 1 then { t with month := 12, year := toInt (t.year - 1) } else t
    { t with day := rtcDaysInMonth t.year t.month }
  else t

/-- `rtc_apply_offset`. -/
def rtcApplyOffset (t : RtcTime) (offset_hours : ℤ) : RtcTime :=
  let h := t.hour + offset_hours
  let (t, h) := if h ≥ 24 then (t.after, h - 24) else if h < 0 then (t.before, h + 24) else (t, h)
  { t with hour := h, weekday := computeWeekday t.year t.month t.day }

/-! ## Dates -/

/-- A reading shows a date. -/
structure RtcTime.ShowsDate (t : RtcTime) (d : Date) : Prop where
  day : t.day = d.day
  month : t.month = d.month
  year : t.year = d.year

theorem isLeapYear_iff (y : ℕ) : rtcIsLeapYear y ↔ Leap y := by
  have hmod : ∀ n : ℕ, (y : ℤ).tmod n = 0 ↔ n ∣ y := fun n => by
    rw [Int.tmod_eq_emod_of_nonneg (Int.natCast_nonneg y), ← Int.dvd_iff_emod_eq_zero,
      Int.natCast_dvd_natCast]
  unfold rtcIsLeapYear Leap
  exact or_congr (and_congr (hmod 4) (not_congr (hmod 100))) (hmod 400)

theorem daysInMonth_eq (y : ℕ) {m : ℕ} (hpos : 1 ≤ m) (hle : m ≤ 12) :
    rtcDaysInMonth y m = monthLength y m := by
  have hleap := isLeapYear_iff y
  unfold rtcDaysInMonth monthLength
  by_cases hy : Leap y <;> interval_cases m <;> simp [hleap, hy]

/-- The greatest year whose days all have a day of the week. -/
def lastYear : ℕ := 1728357031

/-- The months' part of the sum. -/
def weekdayShift (m : ℕ) : ℕ := [0, 3, 2, 5, 0, 3, 5, 1, 4, 6, 2, 4].getD (m - 1) 0

theorem weekdayShift_le {m : ℕ} (hpos : 1 ≤ m) (hle : m ≤ 12) : weekdayShift m ≤ 6 := by
  interval_cases m <;> decide

/-- The months' part of the sum goes with the days in front of the month. -/
theorem weekdayShift_eq {m : ℕ} (hpos : 1 ≤ m) (hle : m ≤ 12) :
    (monthStart m + if m < 3 then 7 else 6) % 7 = weekdayShift m % 7 := by
  interval_cases m <;> decide

/-- The sum for the day of the week, without bounds. -/
theorem computeWeekday_of_fits {y z : ℤ} {m d : ℕ} (hpos : 1 ≤ m) (hle : m ≤ 12)
    (hz : z = y - if m < 3 then 1 else 0) (hnonneg : 0 ≤ z) (hlast : z ≤ lastYear) (hd : d ≤ 31) :
    computeWeekday y m d = (z + leapDays z + weekdayShift m + d) % 7 := by
  have hy : (if (m : ℤ) < 3 then toInt (y - 1) else y) = z := by
    unfold lastYear at hlast
    split
    · next hm =>
      rw [if_pos (by omega)] at hz
      rw [← hz]
      exact wrap_eq_self ⟨by omega, by omega⟩
    · next hm =>
      rw [if_neg (by omega), Int.sub_zero] at hz
      exact hz.symm
  have ht : ([0, 3, 2, 5, 0, 3, 5, 1, 4, 6, 2, 4] : List ℤ).getD ((m : ℤ) - 1).toNat 0 =
      weekdayShift m := by
    interval_cases m <;> rfl
  have hshift := weekdayShift_le hpos hle
  unfold computeWeekday leapDays
  dsimp only
  rw [hy, ht]
  simp only [Int.tdiv_eq_ediv_of_nonneg hnonneg]
  unfold lastYear at hlast
  rw [show toInt (z + z / 4 - z / 100 + z / 400 + weekdayShift m + d) =
      z + (z / 4 - z / 100 + z / 400) + weekdayShift m + d by
    rw [show z + (z / 4 - z / 100 + z / 400) = z + z / 4 - z / 100 + z / 400 by omega]
    exact wrap_eq_self ⟨by omega, by omega⟩]
  exact Int.tmod_eq_emod_of_nonneg (by omega)

/-- **The day of the week.** -/
theorem computeWeekday_eq (d : Date) (hfirst : 1 ≤ d.year ∨ 3 ≤ d.month)
    (hlast : d.year ≤ lastYear ∨ d.year ≤ lastYear + 1 ∧ d.month < 3) :
    computeWeekday d.year d.month d.day = d.weekday := by
  have hmonth := beforeMonth_eq d.year d.month_pos (Nat.le_succ_of_le d.month_le)
  have hshift := weekdayShift_eq d.month_pos d.month_le
  have hday : d.day ≤ 31 := d.day_le.trans (by unfold monthLength; split_ifs <;> decide)
  have hsum := fun z => computeWeekday_of_fits (z := z) d.month_pos d.month_le (y := d.year)
    (d := d.day)
  unfold Date.weekday Date.number
  rw [hmonth]
  by_cases hm : d.month < 3
  · have hyear := beforeYear_cast d.year
    rw [if_pos hm] at hshift
    rw [hsum (d.year - 1) (by rw [if_pos hm]) (by omega) (by omega) hday,
      if_neg fun h => absurd h.1 (by omega)]
    omega
  · have hyear := beforeYear_add_leap d.year
    rw [if_neg hm] at hshift
    rw [hsum d.year (by rw [if_neg hm, Int.sub_zero]) (by omega) (by omega) hday,
      if_congr (and_iff_right (by omega)) rfl rfl]
    omega

/-! ## Shifting -/

/-- A reading shows a moment. -/
structure RtcTime.Shows (t : RtcTime) (m : Moment) : Prop extends t.ShowsDate m.date where
  hour : t.hour = m.hour
  minute : t.minute = m.minute
  second : t.second = m.second

/-- **The day after.** -/
theorem after_shows {t : RtcTime} {d : Date} (h : t.ShowsDate d) (hy : d.year ≤ lastYear + 1) :
    t.after.ShowsDate d.next := by
  have hyear : toInt (d.year + 1) = (d.year + 1 : ℕ) := by
    unfold lastYear at hy
    exact wrap_eq_self ⟨by omega, by omega⟩
  have hlen := daysInMonth_eq d.year d.month_pos d.month_le
  have hle := d.day_le
  have hmonth := d.month_le
  unfold RtcTime.after Date.next
  dsimp only
  rw [h.day, h.month, h.year, hlen]
  by_cases hlast : d.day < monthLength d.year d.month
  · rw [dif_pos hlast, if_neg (by omega)]
    exact ⟨rfl, rfl, rfl⟩
  rw [dif_neg hlast, if_pos (by omega)]
  by_cases hdec : d.month < 12
  · rw [dif_pos hdec, if_neg (by omega)]
    exact ⟨rfl, rfl, rfl⟩
  · rw [dif_neg hdec, if_pos (by omega), hyear]
    exact ⟨rfl, rfl, rfl⟩

/-- **The day before.** -/
theorem before_shows {t : RtcTime} {d : Date} (h : t.ShowsDate d) (hpos : 1 ≤ d.year)
    (hy : d.year ≤ lastYear + 1) : t.before.ShowsDate (d.prev hpos) := by
  have hday := d.day_pos
  have hle := d.month_le
  have hyear : toInt (d.year - 1) = (d.year - 1 : ℕ) := by
    unfold lastYear at hy
    rw [Int.natCast_sub hpos]
    exact wrap_eq_self ⟨by omega, by omega⟩
  have hmonth : 1 < d.month → ((d.month : ℤ) - 1) = (d.month - 1 : ℕ) := fun h => by omega
  unfold RtcTime.before Date.prev
  dsimp only
  rw [h.day, h.month, h.year]
  by_cases hfirst : 1 < d.day
  · rw [dif_pos hfirst, if_neg (by omega)]
    refine ⟨?_, rfl, rfl⟩
    show (d.day : ℤ) - 1 = (d.day - 1 : ℕ)
    omega
  rw [dif_neg hfirst, if_pos (by omega)]
  by_cases hone : 1 < d.month
  · have hlen := daysInMonth_eq d.year (Nat.le_sub_one_of_lt hone) ((Nat.sub_le ..).trans hle)
    rw [dif_pos hone, if_neg (by omega), hmonth hone]
    exact ⟨hlen, rfl, rfl⟩
  · have hlen := daysInMonth_eq (d.year - 1) (m := 12) (by decide) le_rfl
    rw [dif_neg hone, if_pos (by omega), hyear]
    exact ⟨hlen, rfl, rfl⟩

theorem after_time (t : RtcTime) : t.after.minute = t.minute ∧ t.after.second = t.second := by
  unfold RtcTime.after
  dsimp only
  split_ifs <;> exact ⟨rfl, rfl⟩

theorem before_time (t : RtcTime) : t.before.minute = t.minute ∧ t.before.second = t.second := by
  unfold RtcTime.before
  dsimp only
  split_ifs <;> exact ⟨rfl, rfl⟩

/-- A date whose day of the week is calculated without leaving an `int`, or going below zero. -/
def Within (d : Date) : Prop :=
  (1 ≤ d.year ∨ 3 ≤ d.month) ∧ (d.year ≤ lastYear ∨ d.year ≤ lastYear + 1 ∧ d.month < 3)

/-- **A shift** shows the moment that is so far away, if it does not go below the year zero. -/
theorem shift_shows {t : RtcTime} {m : Moment} (h : t.Shows m) {k : ℤ} (hlo : -24 ≤ k)
    (hhi : k ≤ 24) (hy : m.date.year ≤ lastYear + 1) (hzero : m.date.year = 0 → 0 ≤ m.hour + k) :
    ∃ n : Moment, (rtcApplyOffset t k).Shows n ∧ (n.seconds : ℤ) = m.seconds + 3600 * k ∧
      (rtcApplyOffset t k).weekday = computeWeekday n.date.year n.date.month n.date.day := by
  have hhour := m.hour_lt
  have hmoment : ∀ (d : Date) (x : ℤ) (hx : 0 ≤ x) (hx' : x < 24) (u : RtcTime), u.ShowsDate d →
      u.minute = t.minute → u.second = t.second →
      (rtcApplyOffset t k) =
        { u with hour := x, weekday := computeWeekday u.year u.month u.day } →
      (d.number * 24 + x : ℤ) = m.date.number * 24 + m.hour + k →
      ∃ n : Moment, (rtcApplyOffset t k).Shows n ∧ (n.seconds : ℤ) = m.seconds + 3600 * k ∧
        (rtcApplyOffset t k).weekday =
          computeWeekday n.date.year n.date.month n.date.day := by
    intro d x hx hx' u hu hmin hsec heq hsum
    refine ⟨⟨d, x.toNat, m.minute, m.second, by omega, m.minute_lt, m.second_lt⟩, ?_, ?_, ?_⟩
    · rw [heq]
      exact ⟨⟨hu.day, hu.month, hu.year⟩, (Int.toNat_of_nonneg hx).symm, hmin.trans h.minute,
        hsec.trans h.second⟩
    · unfold Moment.seconds
      push_cast
      rw [Int.toNat_of_nonneg hx]
      omega
    · rw [heq]
      show computeWeekday u.year u.month u.day = _
      rw [hu.year, hu.month, hu.day]
  have hour_eq := h.hour
  by_cases hafter : t.hour + k ≥ 24
  · refine hmoment m.date.next (t.hour + k - 24) (by omega) (by omega) t.after
      (after_shows h.toShowsDate hy) (after_time t).1 (after_time t).2 ?_ ?_
    · unfold rtcApplyOffset
      dsimp only
      rw [if_pos hafter]
    · rw [number_next]
      omega
  by_cases hbefore : t.hour + k < 0
  · have hpos : 1 ≤ m.date.year := Nat.one_le_iff_ne_zero.mpr fun h0 => by
      have := hzero h0
      omega
    refine hmoment (m.date.prev hpos) (t.hour + k + 24) (by omega) (by omega) t.before
      (before_shows h.toShowsDate hpos hy) (before_time t).1 (before_time t).2 ?_ ?_
    · unfold rtcApplyOffset
      dsimp only
      rw [if_neg hafter, if_pos hbefore]
    · have := number_prev m.date hpos
      omega
  · refine hmoment m.date (t.hour + k) (by omega) (by omega) t h.toShowsDate rfl rfl ?_ ?_
    · unfold rtcApplyOffset
      dsimp only
      rw [if_neg hafter, if_neg hbefore]
    · omega

/-- The days in front of the year one. -/
theorem beforeYear_one : beforeYear 1 = 366 := rfl

/-- **A day around the years from one on** has a day of the week. -/
theorem within_of_number {d e : Date} (hpos : 1 ≤ d.year) (hlast : d.year ≤ lastYear)
    (hlo : d.number ≤ e.number + 1) (hhi : e.number ≤ d.number + 1) : Within e := by
  have hfirst : beforeYear 1 ≤ beforeYear d.year := beforeYear_mono hpos
  have hd := d.lt_number
  have hd' : d.number ≤ beforeYear (lastYear + 1) :=
    d.number_le.trans (beforeYear_mono (Nat.succ_le_succ hlast))
  have he := e.lt_number
  refine ⟨?_, ?_⟩
  · by_contra hnot
    rw [not_or, not_le, not_le] at hnot
    have hyear : e.year = 0 := by omega
    have hmonth : beforeMonth e.year (e.month + 1) ≤ beforeMonth e.year 3 :=
      beforeMonth_mono e.year hnot.2
    have hsucc := beforeMonth_succ e.year e.month_pos
    have hday := e.day_le
    rw [beforeYear_one] at hfirst
    rw [show e.number = beforeYear e.year + beforeMonth e.year e.month + e.day from rfl] at hlo
    rw [hyear] at hlo hmonth hsucc hday
    rw [show beforeYear 0 = 0 from rfl] at hlo
    rw [show beforeMonth 0 3 = 60 from rfl] at hmonth
    omega
  · generalize lastYear = last at *
    rcases lt_trichotomy e.year (last + 1) with hlt | heq | hgt
    · exact .inl (Nat.lt_succ_iff.mp hlt)
    · refine .inr ⟨heq.le, lt_of_not_ge fun hmonth => ?_⟩
      have hstart : beforeMonth e.year 3 ≤ beforeMonth e.year e.month := beforeMonth_mono _ hmonth
      rw [beforeMonth_eq e.year (by decide) (by decide), show monthStart 3 = 59 from rfl] at hstart
      rw [show e.number = beforeYear e.year + beforeMonth e.year e.month + e.day from rfl, heq]
        at hhi
      rw [heq] at hstart
      omega
    · have hmono : beforeYear (last + 1 + 1) ≤ beforeYear e.year := beforeYear_mono hgt
      have hlen := yearLength_eq (last + 1)
      rw [beforeYear_succ] at hmono
      omega

/-- A moment that is no further away than a day is on this day or on one next to it. -/
theorem number_near {m n : Moment} {k : ℤ} (hlo : -24 ≤ k) (hhi : k ≤ 24)
    (h : (n.seconds : ℤ) = m.seconds + 3600 * k) :
    m.date.number ≤ n.date.number + 1 ∧ n.date.number ≤ m.date.number + 1 := by
  have := m.hour_lt
  have := m.minute_lt
  have := m.second_lt
  have := n.hour_lt
  have := n.minute_lt
  have := n.second_lt
  unfold Moment.seconds at h
  omega

/-- What a reading is to be: it shows a moment, with its day of the week. -/
structure RtcTime.Right (t : RtcTime) (m : Moment) : Prop extends t.Shows m where
  weekday : t.weekday = m.date.weekday

/-- **Shifting a reading** shows the moment that is so far away. -/
theorem shift_right {t : RtcTime} {m : Moment} (h : t.Shows m) {k : ℤ} (hlo : -24 ≤ k)
    (hhi : k ≤ 24) (hpos : 1 ≤ m.date.year) (hlast : m.date.year ≤ lastYear) :
    ∃ n : Moment, (rtcApplyOffset t k).Right n ∧ (n.seconds : ℤ) = m.seconds + 3600 * k := by
  obtain ⟨n, hshows, hseconds, hweekday⟩ := shift_shows h hlo hhi (Nat.le_succ_of_le hlast)
    fun h0 => absurd h0 (Nat.one_le_iff_ne_zero.mp hpos)
  obtain ⟨hnear, hnear'⟩ := number_near hlo hhi hseconds
  obtain ⟨hfirst, hwithin⟩ := within_of_number hpos hlast hnear hnear'
  exact ⟨n, ⟨hshows, hweekday.trans (computeWeekday_eq _ hfirst hwithin)⟩, hseconds⟩

/-- **Two shifts** are one, where none of them is more than a day. -/
theorem shift_shift {t : RtcTime} {m : Moment} (h : t.Shows m) {a b : ℤ} (ha : -24 ≤ a)
    (ha' : a ≤ 24) (hb : -24 ≤ b) (hb' : b ≤ 24) (hab : -24 ≤ a + b) (hab' : a + b ≤ 24)
    (hpos : 1 ≤ m.date.year) (hlast : m.date.year ≤ lastYear) :
    rtcApplyOffset (rtcApplyOffset t a) b = rtcApplyOffset t (a + b) := by
  obtain ⟨n, hn, hnsec⟩ := shift_right h ha ha' hpos hlast
  obtain ⟨p, hp, hpsec⟩ := shift_right h hab hab' hpos hlast
  obtain ⟨hnear, hnear'⟩ := number_near ha ha' hnsec
  have hwithin := within_of_number hpos hlast hnear hnear'
  have hyear : n.date.year ≤ lastYear + 1 :=
    hwithin.2.elim Nat.le_succ_of_le And.left
  have hzero : n.date.year = 0 → 0 ≤ n.hour + b := fun h0 => by
    have hfirst : beforeYear 1 ≤ beforeYear m.date.year := beforeYear_mono hpos
    have hm := m.date.lt_number
    have hle := n.date.number_le
    rw [h0, Nat.zero_add] at hle
    have := m.hour_lt
    have := n.minute_lt
    have := n.second_lt
    unfold Moment.seconds at hnsec
    omega
  obtain ⟨q, hq, hqsec, hweekday⟩ := shift_shows hn.toShows hb hb' hyear hzero
  obtain rfl : q = p := seconds_injective (by omega)
  obtain ⟨hnear, hnear'⟩ := number_near hab hab' hpsec
  obtain ⟨hfirst, hlast'⟩ := within_of_number hpos hlast hnear hnear'
  refine RtcTime.ext ?_ ?_ ?_ ?_ ?_ ?_ ?_
  · exact hq.second.trans hp.second.symm
  · exact hq.minute.trans hp.minute.symm
  · exact hq.hour.trans hp.hour.symm
  · exact hq.day.trans hp.day.symm
  · exact hq.month.trans hp.month.symm
  · exact hq.year.trans hp.year.symm
  · exact (hweekday.trans (computeWeekday_eq _ hfirst hlast')).trans hp.weekday.symm

/-- **The time zone is calendar arithmetic**: a shift shows the moment that is so far away, two
shifts are one, and the days of the week go on from day to day. -/
theorem time_zone_calendar {t : RtcTime} {m : Moment} (h : t.Shows m) (hpos : 1 ≤ m.date.year)
    (hlast : m.date.year ≤ lastYear) :
    (∀ k : ℤ, -24 ≤ k → k ≤ 24 →
      ∃ n : Moment, (rtcApplyOffset t k).Right n ∧ (n.seconds : ℤ) = m.seconds + 3600 * k) ∧
    (∀ a b : ℤ, -24 ≤ a → a ≤ 24 → -24 ≤ b → b ≤ 24 → -24 ≤ a + b → a + b ≤ 24 →
      rtcApplyOffset (rtcApplyOffset t a) b = rtcApplyOffset t (a + b)) ∧
    computeWeekday m.date.next.year m.date.next.month m.date.next.day =
      (computeWeekday m.date.year m.date.month m.date.day + 1) % 7 := by
  refine ⟨fun k hlo hhi => shift_right h hlo hhi hpos hlast,
    fun a b ha ha' hb hb' hab hab' => shift_shift h ha ha' hb hb' hab hab' hpos hlast, ?_⟩
  obtain ⟨hfirst, hnext⟩ := within_of_number (e := m.date.next) hpos hlast
    (by rw [number_next]; omega) (number_next _).le
  rw [computeWeekday_eq _ hfirst hnext, computeWeekday_eq _ (.inl hpos) (.inl hlast), weekday_next]
  rfl

/-- Half past eleven in the evening of a leap day. -/
def leapEvening : Moment where
  date := { year := 2024, month := 2, day := 29, month_pos := by decide, month_le := by decide,
            day_pos := by decide, day_le := by decide }
  hour := 23
  minute := 30
  second := 0
  hour_lt := by decide
  minute_lt := by decide
  second_lt := by decide

theorem time_zone_calendar_leap :
    computeWeekday 2024 3 1 = (computeWeekday 2024 2 29 + 1) % 7 :=
  (time_zone_calendar (t := ⟨0, 30, 23, 29, 2, 2024, 0⟩) (m := leapEvening)
    ⟨⟨rfl, rfl, rfl⟩, rfl, rfl, rfl⟩ (by decide) (by decide)).2.2

/-- **Two thousand million years on** the sum for the day of the week leaves an `int`. -/
theorem weekday_overflows : ¬ ∀ (t : RtcTime) (m : Moment), t.Shows m → 1 ≤ m.date.year →
    ∀ k : ℤ, -24 ≤ k → k ≤ 24 →
      ∃ n : Moment, (rtcApplyOffset t k).Right n ∧ (n.seconds : ℤ) = m.seconds + 3600 * k := by
  intro h
  obtain ⟨n, hn, -⟩ := h ⟨0, 30, 23, 29, 2, 2000000000, 0⟩
    { leapEvening with date := { year := 2000000000, month := 2, day := 29, month_pos := by decide,
                                 month_le := by decide, day_pos := by decide,
                                 day_le := by decide } }
    ⟨⟨rfl, rfl, rfl⟩, rfl, rfl, rfl⟩ (by decide) 0 (by decide) (by decide)
  have hweekday := hn.weekday
  rw [show (rtcApplyOffset ⟨0, 30, 23, 29, 2, 2000000000, 0⟩ 0).weekday = -2 by decide] at hweekday
  omega

end Rtc
