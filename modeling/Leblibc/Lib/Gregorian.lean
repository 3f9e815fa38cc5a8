import Mathlib.Algebra.Order.Ring.Int
import Mathlib.Data.Int.Init
import Mathlib.Tactic.Common
import Mathlib.Tactic.IntervalCases
import Mathlib.Tactic.Ring

/-!
# The proleptic Gregorian calendar

Dates by year, month and day, without end in either direction. The months are counted from 0 and the days
of a month from 1. Days are numbered from 1 January 1970; `dayNumber` takes one date to the next one as the
calendar does, so that it numbers the dates without gaps, and different dates differently.

## Main definitions

* `IsLeap`, `monthDays`, `yearDays`: the lengths of months and years
* `Date`, `Date.next`, `Date.prev`: the dates and their order
* `Date.dayNumber`, `Date.yearDay`, `Date.weekday`: the number of a date, and its place in the year and in
  the week
* `Date.IsoWeek`: the weeks of ISO 8601
* `Instant`, `Instant.seconds`: the seconds of the days

## Main results

* `Date.dayNumber_next`, `Date.dayNumber_prev`: the dates are numbered one after another
* `Date.exists_dayNumber`, `Date.dayNumber_injective`: every day has exactly one date
* `Date.existsUnique_isoWeek`, `Date.IsoWeek.cases`: the week of a date
* `Instant.exists_seconds`, `Instant.seconds_injective`: and every second
-/

namespace Leblibc.Lib

/-! ## Months and years -/

/-- A year of 366 days. -/
def IsLeap (y : ℤ) : Prop := y % 4 = 0 ∧ (y % 100 ≠ 0 ∨ y % 400 = 0)

instance (y : ℤ) : Decidable (IsLeap y) := inferInstanceAs (Decidable (_ ∧ _))

/-- The days of a year. -/
def yearDays (y : ℤ) : ℤ := if IsLeap y then 366 else 365

/-- The days of a month. -/
def monthDays (y : ℤ) : ℕ → ℤ
  | 1 => if IsLeap y then 29 else 28
  | 3 | 5 | 8 | 10 => 30
  | _ => 31

variable (y : ℤ)

theorem monthDays_pos (m : ℕ) : 28 ≤ monthDays y m := by
  unfold monthDays
  split <;> (try split) <;> decide

theorem monthDays_le (m : ℕ) : monthDays y m ≤ 31 := by
  unfold monthDays
  split <;> (try split) <;> decide

/-- The days of the year before a month. -/
def daysBeforeMonth (y : ℤ) : ℕ → ℤ
  | 0 => 0
  | m + 1 => daysBeforeMonth y m + monthDays y m

/-- The days from 1 January 1970 to the first day of a year. -/
def daysBeforeYear (y : ℤ) : ℤ :=
  365 * (y - 1970) + ((y - 1) / 4 - (y - 1) / 100 + (y - 1) / 400) - 477

@[simp]
theorem daysBeforeYear_epoch : daysBeforeYear 1970 = 0 := rfl

theorem daysBeforeYear_succ : daysBeforeYear (y + 1) = daysBeforeYear y + yearDays y := by
  unfold daysBeforeYear yearDays
  by_cases hleap : IsLeap y
  · rw [if_pos hleap]
    unfold IsLeap at hleap
    omega
  · rw [if_neg hleap]
    unfold IsLeap at hleap
    omega

theorem daysBeforeMonth_twelve : daysBeforeMonth y 12 = yearDays y := by
  simp only [daysBeforeMonth, monthDays, yearDays]
  split <;> rfl

theorem daysBeforeMonth_mono {m n : ℕ} (h : m ≤ n) :
    daysBeforeMonth y m ≤ daysBeforeMonth y n := by
  induction n, h using Nat.le_induction with
  | base => exact le_refl _
  | succ n _ ih =>
    have := monthDays_pos y n
    rw [daysBeforeMonth]
    omega

theorem daysBeforeYear_mono {y z : ℤ} (h : y ≤ z) : daysBeforeYear y ≤ daysBeforeYear z := by
  unfold daysBeforeYear
  omega

/-- The months of a year are those of a common year, but for the leap day. -/
theorem daysBeforeMonth_of_common {y : ℤ} (hy : ¬ IsLeap y) (z : ℤ) {m : ℕ} (hm : m < 12) :
    daysBeforeMonth z m = daysBeforeMonth y m + if IsLeap z ∧ 2 ≤ m then 1 else 0 := by
  by_cases hz : IsLeap z
  · interval_cases m <;> simp [daysBeforeMonth, monthDays, hy, hz]
  · interval_cases m <;> simp [daysBeforeMonth, monthDays, hy, hz]

theorem monthDays_common_le {y : ℤ} (hy : ¬ IsLeap y) (z : ℤ) (m : ℕ) : monthDays y m ≤ monthDays z m := by
  by_cases hm : m = 1
  · subst hm
    simp only [monthDays, if_neg hy]
    split <;> decide
  · unfold monthDays
    split <;> first | contradiction | exact le_refl _

/-! ## Dates -/

/-- A date. -/
@[ext]
structure Date where
  year : ℤ
  month : ℕ
  day : ℤ
  month_lt : month < 12
  day_pos : 1 ≤ day
  day_le : day ≤ monthDays year month

namespace Date

/-- The first day of a month. -/
def first (y : ℤ) (m : ℕ) (hm : m < 12) : Date where
  year := y
  month := m
  day := 1
  month_lt := hm
  day_pos := le_refl 1
  day_le := by have := monthDays_pos y m; omega

/-- The last day of a month. -/
def last (y : ℤ) (m : ℕ) (hm : m < 12) : Date where
  year := y
  month := m
  day := monthDays y m
  month_lt := hm
  day_pos := by have := monthDays_pos y m; omega
  day_le := le_refl _

/-- The day after. -/
def next (d : Date) : Date :=
  if hd : d.day + 1 ≤ monthDays d.year d.month then
    { d with day := d.day + 1, day_pos := by have := d.day_pos; omega, day_le := hd }
  else if hm : d.month + 1 < 12 then first d.year (d.month + 1) hm
  else first (d.year + 1) 0 (by decide)

/-- The day before. -/
def prev (d : Date) : Date :=
  if hd : 2 ≤ d.day then
    { d with day := d.day - 1, day_pos := by omega, day_le := by have := d.day_le; omega }
  else if 0 < d.month then last d.year (d.month - 1) (by have := d.month_lt; omega)
  else last (d.year - 1) 11 (by decide)

/-- The days since the first day of the year. -/
def yearDay (d : Date) : ℤ := daysBeforeMonth d.year d.month + (d.day - 1)

/-- The days since 1 January 1970. -/
def dayNumber (d : Date) : ℤ := daysBeforeYear d.year + d.yearDay

/-- The day of the week, from Sunday; 1 January 1970 was a Thursday. -/
def weekday (d : Date) : ℤ := (d.dayNumber + 4) % 7

theorem yearDay_nonneg (d : Date) : 0 ≤ d.yearDay := by
  have hmono := daysBeforeMonth_mono d.year (Nat.zero_le d.month)
  have hpos := d.day_pos
  rw [daysBeforeMonth] at hmono
  unfold yearDay
  omega

theorem yearDay_lt_of_lt (d : Date) {m : ℕ} (hm : d.month < m) : d.yearDay < daysBeforeMonth d.year m := by
  have hmono := daysBeforeMonth_mono d.year hm
  have hle := d.day_le
  rw [daysBeforeMonth] at hmono
  unfold yearDay
  omega

theorem yearDay_lt (d : Date) : d.yearDay < yearDays d.year := by
  rw [← daysBeforeMonth_twelve]
  exact d.yearDay_lt_of_lt d.month_lt

/-- **The dates are numbered one after another.** -/
theorem dayNumber_next (d : Date) : d.next.dayNumber = d.dayNumber + 1 := by
  have hle := d.day_le
  have hlt := d.month_lt
  unfold next
  split
  · -- in the same month
    simp only [dayNumber, yearDay]
    omega
  · split
    · -- in the next month
      simp only [first, dayNumber, yearDay, daysBeforeMonth]
      omega
    · -- in the next year
      rename_i hday _
      have hdec : d.month = 11 := by omega
      have hyear := daysBeforeMonth_twelve d.year
      rw [daysBeforeMonth] at hyear
      rw [hdec] at hle hday
      simp only [first, dayNumber, yearDay, daysBeforeYear_succ]
      rw [hdec, daysBeforeMonth]
      omega

theorem dayNumber_prev (d : Date) : d.prev.dayNumber = d.dayNumber - 1 := by
  have hpos := d.day_pos
  unfold prev
  split
  · simp only [dayNumber, yearDay]
    omega
  · have hday : d.day = 1 := by omega
    split
    · obtain ⟨m, hm⟩ := Nat.exists_eq_succ_of_ne_zero (n := d.month) (by omega)
      simp only [last, dayNumber, yearDay, hm, Nat.succ_eq_add_one, Nat.add_sub_cancel,
        daysBeforeMonth]
      omega
    · have hjan : d.month = 0 := by omega
      have hyear := daysBeforeMonth_twelve (d.year - 1)
      have hsucc := daysBeforeYear_succ (d.year - 1)
      rw [daysBeforeMonth] at hyear
      rw [sub_add_cancel] at hsucc
      simp only [last, dayNumber, yearDay]
      rw [hjan, daysBeforeMonth]
      omega

theorem exists_dayNumber (n : ℤ) : ∃ d : Date, d.dayNumber = n := by
  induction n using Int.induction_on with
  | zero => exact ⟨first 1970 0 (by decide), rfl⟩
  | succ n ih =>
    obtain ⟨d, hd⟩ := ih
    exact ⟨d.next, by rw [dayNumber_next, hd]⟩
  | pred n ih =>
    obtain ⟨d, hd⟩ := ih
    exact ⟨d.prev, by rw [dayNumber_prev, hd]⟩

theorem dayNumber_lt_of_year_lt {d : Date} {y : ℤ} (h : d.year < y) : d.dayNumber < daysBeforeYear y := by
  have hmono := daysBeforeYear_mono (show d.year + 1 ≤ y from h)
  have hd := d.yearDay_lt
  rw [daysBeforeYear_succ] at hmono
  unfold dayNumber
  omega

theorem exists_yearDay {n : ℤ} (hn : 0 ≤ n) (hlt : n < yearDays y) :
    ∃ d : Date, d.year = y ∧ d.yearDay = n := by
  obtain ⟨d, hd⟩ := exists_dayNumber (daysBeforeYear y + n)
  have hyear : d.year = y := by
    rcases lt_trichotomy d.year y with h | h | h
    · have := dayNumber_lt_of_year_lt h
      omega
    · exact h
    · have hmono := daysBeforeYear_mono (show y + 1 ≤ d.year from h)
      have hpos := d.yearDay_nonneg
      rw [daysBeforeYear_succ] at hmono
      unfold dayNumber at hd
      omega
  refine ⟨d, hyear, ?_⟩
  rw [dayNumber, hyear] at hd
  omega

/-- Dates of different years, or of different months of a year, are different days. -/
theorem dayNumber_injective : Function.Injective dayNumber := by
  have hyear : ∀ d e : Date, d.year < e.year → d.dayNumber < e.dayNumber := by
    intro d e hlt
    have hd := dayNumber_lt_of_year_lt hlt
    have he := e.yearDay_nonneg
    rw [dayNumber.eq_1 e]
    omega
  have hmonth : ∀ d e : Date, d.year = e.year → d.month < e.month → d.dayNumber < e.dayNumber := by
    intro d e heq hlt
    have hd := d.yearDay_lt_of_lt hlt
    have he := e.day_pos
    unfold dayNumber
    rw [heq] at hd ⊢
    rw [yearDay.eq_1 e]
    omega
  intro d e heq
  have hy : d.year = e.year := by
    rcases lt_trichotomy d.year e.year with h | h | h
    · exact absurd heq (hyear d e h).ne
    · exact h
    · exact absurd heq (hyear e d h).ne'
  have hm : d.month = e.month := by
    rcases lt_trichotomy d.month e.month with h | h | h
    · exact absurd heq (hmonth d e hy h).ne
    · exact h
    · exact absurd heq (hmonth e d hy.symm h).ne'
  refine Date.ext hy hm ?_
  simp only [dayNumber, yearDay, hy, hm] at heq
  omega

/-! ## Weeks -/

/-- The date is in the week `w` of the year `y` of ISO 8601: a week is from Monday to Sunday, it belongs to the year of its
Thursday, and the weeks of a year are numbered from 1 in the order of their Thursdays. -/
def IsoWeek (d : Date) (y w : ℤ) : Prop :=
  ∃ thursday : Date, thursday.weekday = 4 ∧ (thursday.dayNumber + 3) / 7 = (d.dayNumber + 3) / 7 ∧
    y = thursday.year ∧ w = thursday.yearDay / 7 + 1

/-- The days from the first day of the year to the Thursday of the week. -/
def thursdayDay (d : Date) : ℤ := d.yearDay - (d.weekday + 6) % 7 + 3

theorem dayNumber_thursday {d th : Date} (h : th.weekday = 4) (hweek : (th.dayNumber + 3) / 7 = (d.dayNumber + 3) / 7) :
    th.dayNumber = daysBeforeYear d.year + d.thursdayDay := by
  unfold weekday at h
  unfold thursdayDay weekday
  have hd : d.dayNumber = daysBeforeYear d.year + d.yearDay := rfl
  omega

theorem existsUnique_isoWeek (d : Date) : ∃ y w, d.IsoWeek y w ∧ ∀ y' w', d.IsoWeek y' w' → y' = y ∧ w' = w := by
  obtain ⟨th, hth⟩ := exists_dayNumber (daysBeforeYear d.year + d.thursdayDay)
  have hd : d.dayNumber = daysBeforeYear d.year + d.yearDay := rfl
  have hwd : d.weekday = (d.dayNumber + 4) % 7 := rfl
  refine ⟨th.year, th.yearDay / 7 + 1, ⟨th, ?_, ?_, rfl, rfl⟩, ?_⟩
  · unfold weekday
    rw [hth, thursdayDay]
    omega
  · rw [hth, thursdayDay]
    omega
  · rintro y' w' ⟨th', h, hweek, rfl, rfl⟩
    have heq : th' = th := dayNumber_injective (by rw [hth, dayNumber_thursday h hweek])
    rw [heq]
    exact ⟨rfl, rfl⟩

/-- The week of a date is one of its year, the last one of the year before, or the first one of the next year. -/
theorem IsoWeek.cases {d : Date} {y w : ℤ} (h : d.IsoWeek y w) :
    (y = d.year ∧ 0 ≤ d.thursdayDay ∧ d.thursdayDay < yearDays d.year ∧ w = d.thursdayDay / 7 + 1) ∨
      (y = d.year - 1 ∧ d.thursdayDay < 0 ∧ w = (d.thursdayDay + yearDays (d.year - 1)) / 7 + 1) ∨
      (y = d.year + 1 ∧ yearDays d.year ≤ d.thursdayDay ∧ w = (d.thursdayDay - yearDays d.year) / 7 + 1) := by
  obtain ⟨th, hth, hweek, rfl, rfl⟩ := h
  have hnum := dayNumber_thursday hth hweek
  have hnear : d.yearDay - 3 ≤ d.thursdayDay ∧ d.thursdayDay ≤ d.yearDay + 3 := by
    unfold thursdayDay
    omega
  have hpos := d.yearDay_nonneg
  have hlt := d.yearDay_lt
  have hpos' := th.yearDay_nonneg
  have hlt' := th.yearDay_lt
  have hprev : daysBeforeYear d.year = daysBeforeYear (d.year - 1) + yearDays (d.year - 1) := by
    rw [← daysBeforeYear_succ, sub_add_cancel]
  have hnext := daysBeforeYear_succ d.year
  have hlong : ∀ y, 365 ≤ yearDays y := fun y => by
    unfold yearDays
    split <;> decide
  have hlong0 := hlong (d.year - 1)
  have hlong1 := hlong (d.year + 1)
  have hth' : th.dayNumber = daysBeforeYear th.year + th.yearDay := rfl
  -- the Thursday is at most three days away
  have hyear : th.year = d.year - 1 ∨ th.year = d.year ∨ th.year = d.year + 1 := by
    by_contra hfar
    have hside : th.year < d.year - 1 ∨ d.year + 2 ≤ th.year := by omega
    rcases hside with h | h
    · have := dayNumber_lt_of_year_lt h
      omega
    · have hmono := daysBeforeYear_mono h
      have hnext' := daysBeforeYear_succ (d.year + 1)
      rw [add_assoc, one_add_one_eq_two] at hnext'
      omega
  rcases hyear with h | h | h
  · rw [h] at hth' hlt'
    exact Or.inr (Or.inl ⟨h, by omega, by rw [show th.yearDay = d.thursdayDay + yearDays (d.year - 1) by omega]⟩)
  · rw [h] at hth' hlt'
    exact Or.inl ⟨h, by omega, by omega, by rw [show th.yearDay = d.thursdayDay by omega]⟩
  · rw [h] at hth' hlt'
    exact Or.inr (Or.inr ⟨h, by omega, by rw [show th.yearDay = d.thursdayDay - yearDays d.year by omega]⟩)

end Date

/-! ## Seconds -/

/-- A second of a date. -/
@[ext]
structure Instant extends Date where
  hour : ℤ
  minute : ℤ
  second : ℤ
  hour_bounds : 0 ≤ hour ∧ hour < 24
  minute_bounds : 0 ≤ minute ∧ minute < 60
  second_bounds : 0 ≤ second ∧ second < 60

namespace Instant

/-- The seconds since the beginning of 1 January 1970. -/
def seconds (i : Instant) : ℤ := 86400 * i.dayNumber + 3600 * i.hour + 60 * i.minute + i.second

/-- The second of the day with the given number. -/
def ofDay (d : Date) (s : ℤ) (hs : 0 ≤ s ∧ s < 86400) : Instant where
  toDate := d
  hour := s / 3600
  minute := s / 60 % 60
  second := s % 60
  hour_bounds := by omega
  minute_bounds := by omega
  second_bounds := by omega

theorem seconds_ofDay (d : Date) (s : ℤ) (hs : 0 ≤ s ∧ s < 86400) :
    (ofDay d s hs).seconds = 86400 * d.dayNumber + s := by
  simp only [seconds, ofDay]
  omega

theorem exists_seconds (t : ℤ) : ∃ i : Instant, i.seconds = t := by
  obtain ⟨d, hd⟩ := Date.exists_dayNumber (t / 86400)
  refine ⟨ofDay d (t % 86400) (by omega), ?_⟩
  rw [seconds_ofDay]
  omega

theorem seconds_injective : Function.Injective seconds := by
  intro i j heq
  unfold seconds at heq
  have hi := i.hour_bounds
  have hj := j.hour_bounds
  have hi' := i.minute_bounds
  have hj' := j.minute_bounds
  have hi'' := i.second_bounds
  have hj'' := j.second_bounds
  have hdate : i.toDate = j.toDate := Date.dayNumber_injective (by omega)
  exact Instant.ext (congrArg Date.year hdate) (congrArg Date.month hdate) (congrArg Date.day hdate)
    (by omega) (by omega) (by omega)

end Instant

end Leblibc.Lib
