import Mathlib.Algebra.BigOperators.Intervals
import Mathlib.Algebra.Order.BigOperators.Group.Finset
import Mathlib.Tactic.IntervalCases

/-!
# The proleptic Gregorian calendar

Dates with the fact that they are dates, and their numbers: a day follows another exactly if its
number does, and no two days have the same. Everything else that is said of dates goes by that.
-/

open Finset

namespace Calendar

def Leap (y : ℕ) : Prop := 4 ∣ y ∧ ¬ 100 ∣ y ∨ 400 ∣ y

instance : DecidablePred Leap := fun _ => inferInstanceAs (Decidable (_ ∨ _))

/-- How many days the month `m` of the year `y` has. -/
def monthLength (y m : ℕ) : ℕ :=
  if m = 2 then if Leap y then 29 else 28
  else if m = 4 ∨ m = 6 ∨ m = 9 ∨ m = 11 then 30
  else 31

/-- A day of the calendar. -/
@[ext] structure Date where
  year : ℕ
  month : ℕ
  day : ℕ
  month_pos : 1 ≤ month
  month_le : month ≤ 12
  day_pos : 1 ≤ day
  day_le : day ≤ monthLength year month

/-- The days in front of a month of its year. -/
def beforeMonth (y m : ℕ) : ℕ := ∑ k ∈ Ico 1 m, monthLength y k

def yearLength (y : ℕ) : ℕ := beforeMonth y 13

/-- The days in front of a year, from the year zero on. -/
def beforeYear (y : ℕ) : ℕ := ∑ k ∈ range y, yearLength k

/-- The number of a day. The first of January of the year zero has the number one. -/
def Date.number (d : Date) : ℕ := beforeYear d.year + beforeMonth d.year d.month + d.day

/-- The day of the week, from Sunday on. The day with the number one was a Saturday. -/
def Date.weekday (d : Date) : ℕ := (d.number + 5) % 7

theorem monthLength_pos (y m : ℕ) : 1 ≤ monthLength y m := by
  unfold monthLength
  split_ifs <;> decide

/-! ## Days in front -/

theorem beforeMonth_succ (y : ℕ) {m : ℕ} (hm : 1 ≤ m) :
    beforeMonth y (m + 1) = beforeMonth y m + monthLength y m := sum_Ico_succ_top hm _

theorem beforeMonth_mono (y : ℕ) {m n : ℕ} (h : m ≤ n) : beforeMonth y m ≤ beforeMonth y n :=
  sum_le_sum_of_subset (Ico_subset_Ico_right h)

theorem beforeYear_succ (y : ℕ) : beforeYear (y + 1) = beforeYear y + yearLength y :=
  sum_range_succ ..

theorem beforeYear_mono {y z : ℕ} (h : y ≤ z) : beforeYear y ≤ beforeYear z :=
  sum_le_sum_of_subset (range_mono h)

/-- The days in front of a month, if there is no leap day. -/
def monthStart (m : ℕ) : ℕ :=
  [0, 31, 59, 90, 120, 151, 181, 212, 243, 273, 304, 334, 365].getD (m - 1) 0

/-- What the months in front of one come to. -/
theorem beforeMonth_eq (y : ℕ) {m : ℕ} (hpos : 1 ≤ m) (hle : m ≤ 13) :
    beforeMonth y m = monthStart m + if 2 < m ∧ Leap y then 1 else 0 := by
  unfold beforeMonth monthLength monthStart
  by_cases hy : Leap y <;> interval_cases m <;> simp [sum_Ico_succ_top, hy]

theorem yearLength_eq (y : ℕ) : yearLength y = 365 + if Leap y then 1 else 0 := by
  unfold yearLength
  rw [beforeMonth_eq y (by decide) le_rfl]
  exact congrArg _ (if_congr (and_iff_right (by decide)) rfl rfl)

/-- What the years in front of one come to. -/
theorem beforeYear_eq (y : ℕ) :
    beforeYear y + (y + 99) / 100 = 365 * y + (y + 3) / 4 + (y + 399) / 400 := by
  induction y with
  | zero => rfl
  | succ y ih =>
    rw [beforeYear_succ, yearLength_eq]
    by_cases hy : Leap y
    · rw [if_pos hy]
      unfold Leap at hy
      omega
    · rw [if_neg hy]
      unfold Leap at hy
      omega

/-- The leap days up to a year. -/
def leapDays (y : ℤ) : ℤ := y / 4 - y / 100 + y / 400

theorem beforeYear_cast (y : ℕ) : (beforeYear y : ℤ) = 365 * y + leapDays (y - 1) + 1 := by
  have h := beforeYear_eq y
  unfold leapDays
  omega

/-- What is in front of a year, with its own leap day. -/
theorem beforeYear_add_leap (y : ℕ) :
    (beforeYear y : ℤ) + (if Leap y then 1 else 0 : ℕ) = 365 * y + leapDays y + 1 := by
  have hnext := beforeYear_cast (y + 1)
  rw [beforeYear_succ, yearLength_eq] at hnext
  push_cast at hnext ⊢
  rw [Int.add_sub_cancel] at hnext
  omega

/-! ## The order of the days -/

theorem Date.number_le (d : Date) : d.number ≤ beforeYear (d.year + 1) := by
  have hmonth := beforeMonth_succ d.year d.month_pos
  have hyear : beforeMonth d.year (d.month + 1) ≤ beforeMonth d.year 13 :=
    beforeMonth_mono d.year (Nat.succ_le_succ d.month_le)
  have hday := d.day_le
  rw [beforeYear_succ]
  unfold Date.number yearLength
  omega

theorem Date.lt_number (d : Date) : beforeYear d.year < d.number := by
  have hday := d.day_pos
  unfold Date.number
  omega

/-- A day of an earlier month has a lower number. -/
theorem number_lt_of_month {d e : Date} (hy : d.year = e.year) (hm : d.month < e.month) :
    d.number < e.number := by
  have hmonth := beforeMonth_succ d.year d.month_pos
  have hmono : beforeMonth d.year (d.month + 1) ≤ beforeMonth d.year e.month :=
    beforeMonth_mono d.year hm
  have hday := d.day_le
  have hday' := e.day_pos
  unfold Date.number
  rw [← hy]
  omega

/-- A day of an earlier year has a lower number. -/
theorem number_lt_of_year {d e : Date} (hy : d.year < e.year) : d.number < e.number :=
  (d.number_le.trans (beforeYear_mono (Nat.succ_le_of_lt hy))).trans_lt e.lt_number

/-- **No two days have the same number.** -/
theorem number_injective : Function.Injective Date.number := by
  intro d e h
  have hyear : d.year = e.year := by
    rcases lt_trichotomy d.year e.year with hlt | heq | hgt
    · exact absurd h (number_lt_of_year hlt).ne
    · exact heq
    · exact absurd h (number_lt_of_year hgt).ne'
  have hmonth : d.month = e.month := by
    rcases lt_trichotomy d.month e.month with hlt | heq | hgt
    · exact absurd h (number_lt_of_month hyear hlt).ne
    · exact heq
    · exact absurd h (number_lt_of_month hyear.symm hgt).ne'
  have hday : d.day = e.day := by
    unfold Date.number at h
    rw [hyear, hmonth] at h
    omega
  exact Date.ext hyear hmonth hday

/-- The day after. -/
def Date.next (d : Date) : Date :=
  if h : d.day < monthLength d.year d.month then
    { d with day := d.day + 1, day_pos := Nat.le_add_left .., day_le := h }
  else if h : d.month < 12 then
    { year := d.year, month := d.month + 1, day := 1, month_pos := Nat.le_add_left ..,
      month_le := h, day_pos := le_rfl, day_le := monthLength_pos .. }
  else
    { year := d.year + 1, month := 1, day := 1, month_pos := le_rfl, month_le := by decide,
      day_pos := le_rfl, day_le := monthLength_pos .. }

/-- **The day after** has the next number. -/
theorem number_next (d : Date) : d.next.number = d.number + 1 := by
  have hle := d.day_le
  have hmonth := beforeMonth_succ d.year d.month_pos
  unfold Date.next
  split
  · exact (Nat.add_assoc ..).symm
  next hlast =>
  split
  · show beforeYear d.year + beforeMonth d.year (d.month + 1) + 1 = d.number + 1
    unfold Date.number
    omega
  · next hdec =>
    have hyear : beforeMonth d.year (d.month + 1) = yearLength d.year := by
      rw [show d.month + 1 = 13 by have := d.month_le; omega]
      rfl
    show beforeYear (d.year + 1) + beforeMonth (d.year + 1) 1 + 1 = d.number + 1
    rw [beforeYear_succ, show beforeMonth (d.year + 1) 1 = 0 from rfl]
    unfold Date.number
    omega

/-- The day before, from the year one on. -/
def Date.prev (d : Date) (_ : 1 ≤ d.year) : Date :=
  if h : 1 < d.day then
    { d with day := d.day - 1, day_pos := Nat.le_sub_one_of_lt h,
             day_le := (Nat.sub_le ..).trans d.day_le }
  else if h : 1 < d.month then
    { year := d.year, month := d.month - 1, day := monthLength d.year (d.month - 1),
      month_pos := Nat.le_sub_one_of_lt h, month_le := (Nat.sub_le ..).trans d.month_le,
      day_pos := monthLength_pos .., day_le := le_rfl }
  else
    { year := d.year - 1, month := 12, day := monthLength (d.year - 1) 12, month_pos := by decide,
      month_le := le_rfl, day_pos := monthLength_pos .., day_le := le_rfl }

/-- **The day before** has the number before. -/
theorem number_prev (d : Date) (hy : 1 ≤ d.year) : (d.prev hy).number + 1 = d.number := by
  have hday := d.day_pos
  unfold Date.prev
  split
  · show beforeYear d.year + beforeMonth d.year d.month + (d.day - 1) + 1 = d.number
    unfold Date.number
    omega
  split
  · next hone hmonth =>
    have hsucc := beforeMonth_succ d.year (Nat.le_sub_one_of_lt hmonth)
    rw [Nat.sub_add_cancel d.month_pos] at hsucc
    show beforeYear d.year + beforeMonth d.year (d.month - 1) + monthLength d.year (d.month - 1) + 1
      = d.number
    unfold Date.number
    omega
  · next hone hmonth =>
    have hyear := beforeYear_succ (d.year - 1)
    have hdec : yearLength (d.year - 1) =
        beforeMonth (d.year - 1) 12 + monthLength (d.year - 1) 12 := beforeMonth_succ _ (by decide)
    have hfirst : beforeMonth d.year d.month = 0 := by
      rw [show d.month = 1 by have := d.month_pos; omega]
      rfl
    rw [Nat.sub_add_cancel hy] at hyear
    show beforeYear (d.year - 1) + beforeMonth (d.year - 1) 12 + monthLength (d.year - 1) 12 + 1
      = d.number
    unfold Date.number
    omega

/-- **The day after** is the next day of the week. -/
theorem weekday_next (d : Date) : d.next.weekday = (d.weekday + 1) % 7 := by
  unfold Date.weekday
  rw [number_next]
  omega

/-! ## Moments -/

/-- A day and a time. -/
@[ext] structure Moment where
  date : Date
  hour : ℕ
  minute : ℕ
  second : ℕ
  hour_lt : hour < 24
  minute_lt : minute < 60
  second_lt : second < 60

/-- The seconds that it is away from the beginning of the days. -/
def Moment.seconds (m : Moment) : ℕ :=
  ((m.date.number * 24 + m.hour) * 60 + m.minute) * 60 + m.second

/-- **No two moments are the same time.** -/
theorem seconds_injective : Function.Injective Moment.seconds := by
  intro m n h
  have := m.hour_lt
  have := m.minute_lt
  have := m.second_lt
  have := n.hour_lt
  have := n.minute_lt
  have := n.second_lt
  unfold Moment.seconds at h
  exact Moment.ext (number_injective (by omega)) (by omega) (by omega) (by omega)

end Calendar
