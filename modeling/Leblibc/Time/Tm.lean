import Leblibc.Base.Ints
import Mathlib.Algebra.Order.Ring.Int

/-!
# Times and their fields

A model of the conversions between seconds and the fields of a `struct tm`: `__secs_to_tm.c`,
`__tm_to_secs.c`, `__year_to_secs.c`, `__month_to_secs.c` and `timegm.c` of `src/time`. The arithmetic is
that of `int` and `long long`, with the division of C that rounds to zero; where it could overflow, the
result is `none`.

## Main definitions

* `Tm`: `struct tm`
* `secsToTm`: `__secs_to_tm`, which can fail
* `yearToSecs`, `monthToSecs`, `tmToSecs`: the other direction
* `timegm`
-/

namespace Leblibc.Time

/-- `struct tm`. -/
structure Tm where
  sec : ℤ
  min : ℤ
  hour : ℤ
  mday : ℤ
  mon : ℤ
  year : ℤ
  wday : ℤ
  yday : ℤ
  isdst : ℤ
  gmtoff : ℤ
  zone : String
  deriving DecidableEq, Repr

/-! ## From seconds -/

/-- `LEAPOCH`: 1 March 2000, the day after a leap day of a year that is a multiple of 400. -/
def leapoch : ℤ := 946684800 + 86400 * (31 + 29)

/-- `DAYS_PER_400Y`. -/
def daysPer400Y : ℤ := 365 * 400 + 97

/-- `DAYS_PER_100Y`. -/
def daysPer100Y : ℤ := 365 * 100 + 24

/-- `DAYS_PER_4Y`. -/
def daysPer4Y : ℤ := 365 * 4 + 1

/-- `days_in_month`, from March on. -/
def daysInMonth : List ℤ := [31, 30, 31, 30, 31, 31, 30, 31, 30, 31, 31, 29]

/-- The loop over `days_in_month`, from the month `months` on; past the end of the table it is
undefined. -/
def monthLoop : List ℤ → ℤ → ℤ → Option (ℤ × ℤ)
  | [], _, _ => none
  | d :: ds, months, remdays =>
    if d ≤ remdays then monthLoop ds (months + 1) (remdays - d) else some (months, remdays)

/-- The cycles that make up a number of days, and the days that are left. -/
structure Cycles where
  qc : ℤ
  c : ℤ
  q : ℤ
  years : ℤ
  days : ℤ

/-- The lines of `__secs_to_tm` from `qc_cycles` to `remyears`. -/
def splitDays (days : ℤ) : Cycles :=
  let qc := toInt (days.tdiv daysPer400Y)
  let remdays := toInt (days.tmod daysPer400Y)
  let qc := if remdays < 0 then qc - 1 else qc
  let remdays := if remdays < 0 then remdays + daysPer400Y else remdays
  let c := remdays.tdiv daysPer100Y
  let c := if c = 4 then c - 1 else c
  let remdays := remdays - c * daysPer100Y
  let q := remdays.tdiv daysPer4Y
  let q := if q = 25 then q - 1 else q
  let remdays := remdays - q * daysPer4Y
  let years := remdays.tdiv 365
  let years := if years = 4 then years - 1 else years
  ⟨qc, c, q, years, remdays - years * 365⟩

/-- `__secs_to_tm`, where `some none` is the result `-1`. After the first test no arithmetic can
overflow. -/
def secsToTm (t : ℤ) (tm : Tm) : Option (Option Tm) :=
  if t < -2147483648 * 31622400 ∨ t > 2147483647 * 31622400 then some none
  else
    let secs := t - leapoch
    let days := secs.tdiv 86400
    let remsecs := toInt (secs.tmod 86400)
    let days := if remsecs < 0 then days - 1 else days
    let remsecs := if remsecs < 0 then remsecs + 86400 else remsecs
    let wday := toInt ((3 + days).tmod 7)
    let wday := if wday < 0 then wday + 7 else wday
    let z := splitDays days
    let leap : ℤ := if z.years = 0 ∧ (z.q ≠ 0 ∨ z.c = 0) then 1 else 0
    let yday := z.days + 31 + 28 + leap
    let yday := if yday ≥ 365 + leap then yday - (365 + leap) else yday
    let years := z.years + 4 * z.q + 100 * z.c + 400 * z.qc
    match monthLoop daysInMonth 0 z.days with
    | none => none
    | some (months, remdays) =>
      let years := if months ≥ 10 then years + 1 else years
      let months := if months ≥ 10 then months - 12 else months
      if years + 100 > 2147483647 ∨ years + 100 < -2147483648 then some none
      else
        some (some { tm with
          year := toInt (years + 100)
          mon := months + 2
          mday := remdays + 1
          wday := wday
          yday := yday
          hour := remsecs.tdiv 3600
          min := (remsecs.tdiv 60).tmod 60
          sec := remsecs.tmod 60 })

/-! ## To seconds -/

/-- The first part of `__year_to_secs`, in `int`; with the seconds it gives `*is_leap`. -/
def yearToSecsInt (year : ℤ) : Option (ℤ × Bool) := do
  let y := toInt year
  let leaps := (y - 68) >>> (2 : ℕ)
  let isLeap : Bool := (y - 68) % 4 = 0
  let leaps := if isLeap then leaps - 1 else leaps
  let a ← int (31536000 * (y - 70))
  let b ← int (86400 * leaps)
  let t ← int (a + b)
  some (t, isLeap)

/-- The centuries, the leap days in the last of them and `*is_leap` of a year of a cycle of 400 years. -/
def yearOfCycle (rem : ℤ) : ℤ × ℤ × Bool :=
  if rem = 0 then (0, 0, true)
  else
    let centuries : ℤ := if rem ≥ 200 then if rem ≥ 300 then 3 else 2 else if rem ≥ 100 then 1 else 0
    let rem := rem - 100 * centuries
    if rem = 0 then (centuries, 0, false) else (centuries, rem / 4, rem % 4 = 0)

/-- The second part of `__year_to_secs`. -/
def yearToSecsGeneral (year : ℤ) : Option (ℤ × Bool) := do
  let y ← llong (year - 100)
  let cycles := toInt (y.tdiv 400)
  let rem := toInt (y.tmod 400)
  let cycles ← (if rem < 0 then int (cycles - 1) else some cycles)
  let rem := if rem < 0 then rem + 400 else rem
  let (centuries, leaps, isLeap) := yearOfCycle rem
  let n ← int (97 * cycles)
  let n ← int (n + 24 * centuries)
  let n ← int (n - if isLeap then 1 else 0)
  let leaps ← int (leaps + n)
  let t ← llong (y * 31536000)
  let t ← llong (t + leaps * 86400)
  let t ← llong (t + 946684800)
  let t ← llong (t + 86400)
  some (t, isLeap)

/-- `__year_to_secs`. -/
def yearToSecs (year : ℤ) : Option (ℤ × Bool) :=
  if (year - 2) % 2 ^ 64 ≤ 136 then yearToSecsInt year else yearToSecsGeneral year

/-- `secs_through_month`. -/
def secsThroughMonth : List ℤ :=
  [0, 31 * 86400, 59 * 86400, 90 * 86400, 120 * 86400, 151 * 86400, 181 * 86400, 212 * 86400,
    243 * 86400, 273 * 86400, 304 * 86400, 334 * 86400]

/-- `__month_to_secs`; outside the table it is undefined. -/
def monthToSecs (month : ℕ) (isLeap : Bool) : Option ℤ := do
  let t ← secsThroughMonth[month]?
  some (if isLeap ∧ month ≥ 2 then t + 86400 else t)

/-- The year and the month of `__tm_to_secs`. -/
def yearMonth (tm : Tm) : ℤ × ℤ :=
  if tm.mon ≥ 12 ∨ tm.mon < 0 then
    let adj := tm.mon.tdiv 12
    let month := tm.mon.tmod 12
    if month < 0 then (tm.year + (adj - 1), month + 12) else (tm.year + adj, month)
  else (tm.year, tm.mon)

/-- `__tm_to_secs`. -/
def tmToSecs (tm : Tm) : Option ℤ := do
  let (year, month) := yearMonth tm
  let (t, isLeap) ← yearToSecs year
  let m ← monthToSecs month.toNat isLeap
  let t ← llong (t + m)
  let d ← int (tm.mday - 1)
  let t ← llong (t + 86400 * d)
  let t ← llong (t + 3600 * tm.hour)
  let t ← llong (t + 60 * tm.min)
  llong (t + tm.sec)

/-- `timegm`: the result and the new fields, where `some none` is the failure with `EOVERFLOW`; `junk` is
what is in `new` before. -/
def timegm (junk tm : Tm) : Option (Option (ℤ × Tm)) := do
  let t ← tmToSecs tm
  match ← secsToTm t junk with
  | none => some none
  | some new => some (some (t, { new with isdst := 0, gmtoff := 0, zone := "UTC" }))

end Leblibc.Time
