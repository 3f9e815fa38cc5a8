import Leblibc.Lib.Gregorian
import Leblibc.Time.Tm

/-!
# The calendar of `struct tm`

Seconds are converted to the fields of the instant of the proleptic Gregorian calendar that they number,
and the fields back to the seconds, although the two directions count differently: one from the leap day of
2000 by cycles of 400, 100, 4 and 1 years, the other by the leap days between the year and 2000.

## Main results

* `splitDays_spec`, `secsToTm_spec`: the fields that seconds are converted to
* `yearToSecs_spec`, `tmToSecs_show`: the seconds that fields are converted to
* `calendar_correct`: both together, and `timegm`
-/

namespace Leblibc.Time

open Option

open Leblibc.Lib

/-! ## Cycles -/

/-- The days of the year that begins in March of the year `y`. -/
def marchYearDays (y : ℤ) : ℤ := if IsLeap (y + 1) then 366 else 365

theorem lt_marchYearDays {y d : ℤ} : d < marchYearDays y ↔ d < 365 ∨ d = 365 ∧ IsLeap (y + 1) := by
  unfold marchYearDays
  split
  · rename_i hleap
    simp only [hleap, and_true]
    omega
  · rename_i hleap
    simp only [hleap, and_false, or_false]

/-- The year in which the last cycle begins. -/
def Cycles.year (z : Cycles) : ℤ := 2000 + (z.years + 4 * z.q + 100 * z.c + 400 * z.qc)

/-- The number of 1 March of a year. -/
def marchDay (y : ℤ) : ℤ := daysBeforeYear y + daysBeforeMonth y 2

/-- The cycles are those of the calendar. -/
structure Cycles.Valid (z : Cycles) : Prop where
  c_bounds : 0 ≤ z.c ∧ z.c < 4
  q_bounds : 0 ≤ z.q ∧ z.q < 25
  years_bounds : 0 ≤ z.years ∧ z.years < 4
  days_nonneg : 0 ≤ z.days
  days_lt : z.days < marchYearDays z.year

/-- The number of a day, counted from 1 March 2000. -/
def Cycles.total (z : Cycles) : ℤ :=
  z.qc * daysPer400Y + z.c * daysPer100Y + z.q * daysPer4Y + z.years * 365 + z.days

/-- One cycle of `k` parts of `n` days, the last of which may be one day longer. -/
theorem cycle_spec {r n k c : ℤ} (hn : 0 < n) (hr : 0 ≤ r) (hle : r ≤ k * n)
    (hc : c = if r.tdiv n = k then r.tdiv n - 1 else r.tdiv n) (hk : 0 < k) :
    0 ≤ c ∧ c < k ∧ 0 ≤ r - c * n ∧ (r - c * n < n ∨ r - c * n = n ∧ c = k - 1) := by
  rw [Int.tdiv_eq_ediv_of_nonneg hr] at hc
  have hsum := Int.mul_ediv_add_emod r n
  have hmod := Int.emod_nonneg r hn.ne'
  have hmod' := Int.emod_lt_of_pos r hn
  have hpos : 0 ≤ r / n := Int.ediv_nonneg hr hn.le
  have hmax : r / n ≤ k := Int.ediv_le_of_le_mul hn hle
  rw [mul_comm n] at hsum
  split at hc
  · rename_i heq
    rw [heq] at hc hsum
    subst hc
    rw [sub_mul]
    refine ⟨by omega, by omega, by omega, ?_⟩
    rcases eq_or_ne r (k * n) with h | h
    · exact Or.inr ⟨by omega, rfl⟩
    · exact absurd (le_antisymm hle (by omega)) h
  · subst hc
    exact ⟨hpos, by omega, by omega, Or.inl (by omega)⟩

theorem splitDays_spec {days : ℤ} (h : IsInt (days.tdiv daysPer400Y)) :
    (splitDays days).Valid ∧ (splitDays days).total = days := by
  have hpos : 0 < daysPer400Y := by decide
  have hlt := Int.tmod_lt_of_pos days hpos
  have hgt := Int.lt_tmod_of_pos days hpos
  have hrem : IsInt (days.tmod daysPer400Y) := by
    unfold daysPer400Y at hlt hgt
    unfold daysPer400Y IsInt
    omega
  have hr := Int.emod_nonneg days hpos.ne'
  have hr' := Int.emod_lt_of_pos days hpos
  have hdiv := Int.mul_ediv_add_emod days daysPer400Y
  unfold splitDays
  simp only [toInt_of_isInt h, toInt_of_isInt hrem, floor_tdiv hpos, floor_tmod hpos]
  generalize days % daysPer400Y = r at hr hr' hdiv ⊢
  -- one cycle after the other
  generalize hc : (if r.tdiv daysPer100Y = 4 then r.tdiv daysPer100Y - 1 else r.tdiv daysPer100Y) = c
  obtain ⟨hc0, hc1, hr1, hc2⟩ := cycle_spec (by decide) hr
    (by unfold daysPer400Y at hr'; unfold daysPer100Y; omega) hc.symm (by decide)
  generalize hr1' : r - c * daysPer100Y = r1 at hr1 hc2 ⊢
  generalize hq : (if r1.tdiv daysPer4Y = 25 then r1.tdiv daysPer4Y - 1 else r1.tdiv daysPer4Y) = q
  obtain ⟨hq0, hq1, hr2, hq2⟩ := cycle_spec (by decide) hr1
    (by unfold daysPer100Y at hc2; unfold daysPer4Y; omega) hq.symm (by decide)
  generalize hr2' : r1 - q * daysPer4Y = r2 at hr2 hq2 ⊢
  generalize hy : (if r2.tdiv 365 = 4 then r2.tdiv 365 - 1 else r2.tdiv 365) = y
  obtain ⟨hy0, hy1, hr3, hy2⟩ := cycle_spec (by decide) hr2
    (by unfold daysPer4Y at *; unfold daysPer100Y at *; omega) hy.symm (by decide)
  refine ⟨⟨⟨hc0, hc1⟩, ⟨hq0, hq1⟩, ⟨hy0, hy1⟩, hr3, ?_⟩, ?_⟩
  · -- the day that is left over is the leap day at the end of the year
    rw [lt_marchYearDays]
    simp only [Cycles.year, IsLeap]
    unfold daysPer4Y daysPer100Y at *
    omega
  · simp only [Cycles.total]
    rw [mul_comm]
    omega

theorem Cycles.Valid.isLeap_year {z : Cycles} (hz : z.Valid) :
    IsLeap z.year ↔ z.years = 0 ∧ (z.q ≠ 0 ∨ z.c = 0) := by
  have hc := hz.c_bounds
  have hq := hz.q_bounds
  have hy := hz.years_bounds
  unfold IsLeap Cycles.year
  omega

/-- The first day of the year that begins in March, by the cycles. -/
theorem marchDay_year {z : Cycles} (hz : z.Valid) :
    marchDay z.year + z.days = 11017 + z.total := by
  have hc := hz.c_bounds
  have hq := hz.q_bounds
  have hy := hz.years_bounds
  have hfeb : daysBeforeMonth z.year 2 = if IsLeap z.year then 60 else 59 := by
    simp only [daysBeforeMonth, monthDays]
    split <;> rfl
  simp only [hz.isLeap_year] at hfeb
  unfold marchDay daysBeforeYear
  rw [hfeb]
  unfold Cycles.year Cycles.total daysPer400Y daysPer100Y daysPer4Y
  split <;> omega

/-! ## Months -/

theorem monthLoop_spec (ds : List ℤ) (months : ℤ) {d : ℤ} (hd : 0 ≤ d) (hlt : d < ds.sum) :
    ∃ k r x, monthLoop ds months d = some (months + (k : ℕ), r) ∧ ds[k]? = some x ∧ 0 ≤ r ∧ r < x ∧
      d = (ds.take k).sum + r := by
  induction ds generalizing months d with
  | nil =>
    rw [List.sum_nil] at hlt
    omega
  | cons x ds ih =>
    rw [monthLoop]
    rw [List.sum_cons] at hlt
    split
    · obtain ⟨k, r, y, hrun, hk, hr, hry, heq⟩ := ih (months + 1) (d := d - x) (by omega) (by omega)
      refine ⟨k + 1, r, y, ?_, hk, hr, hry, ?_⟩
      · rw [hrun]
        push_cast
        ring_nf
      · rw [List.take_succ_cons, List.sum_cons]
        omega
    · refine ⟨0, d, x, ?_, rfl, hd, by omega, ?_⟩
      · rw [Nat.cast_zero, add_zero]
      · rw [List.take_zero, List.sum_nil, zero_add]

theorem march_months (y : ℤ) {k : ℕ} {x : ℤ} (hk : k < 10) (hx : daysInMonth[k]? = some x) :
    daysBeforeMonth y (k + 2) = daysBeforeMonth y 2 + (daysInMonth.take k).sum ∧
      monthDays y (k + 2) = x ∧ (daysInMonth.take k).sum + x ≤ 306 := by
  unfold daysInMonth at hx ⊢
  interval_cases k <;> (cases hx; simp [daysBeforeMonth, monthDays]; try omega)

theorem daysBeforeMonth_two_add (y : ℤ) : daysBeforeMonth y 2 + 306 = yearDays y := by
  simp only [daysBeforeMonth, monthDays, yearDays]
  split <;> rfl

/-- The fields of a day of the year that begins in March. -/
structure MarchDate (y d : ℤ) (k : ℕ) (r : ℤ) (date : Date) : Prop where
  dayNumber : date.dayNumber = marchDay y + d
  year : date.year = if 10 ≤ k then y + 1 else y
  month : date.month = if 10 ≤ k then k - 10 else k + 2
  day : date.day = r + 1
  late : 10 ≤ k ↔ 306 ≤ d

theorem exists_marchDate {y d : ℤ} (hd : 0 ≤ d) (hlt : d < marchYearDays y) :
    ∃ k r date, monthLoop daysInMonth 0 d = some (((k : ℕ) : ℤ), r) ∧ k < 12 ∧ MarchDate y d k r date := by
  have hdays := lt_marchYearDays.mp hlt
  obtain ⟨k, r, x, hrun, hx, hr, hrx, heq⟩ := monthLoop_spec daysInMonth 0 hd
    (show d < 366 by omega)
  have hk : k < 12 := (List.getElem?_eq_some_iff.mp hx).1
  rw [zero_add] at hrun
  have hnext := daysBeforeYear_succ y
  have hrest := daysBeforeMonth_two_add y
  rcases Nat.lt_or_ge k 10 with hlow | hhigh
  · obtain ⟨hbefore, hmonth, hend⟩ := march_months y hlow hx
    refine ⟨k, r, ⟨y, k + 2, r + 1, by omega, by omega, by omega⟩, hrun, hk, ?_, ?_, ?_, rfl, ?_⟩
    · simp only [Date.dayNumber, Date.yearDay, marchDay]
      omega
    · rw [if_neg (by omega)]
    · rw [if_neg (by omega)]
    · omega
  · obtain rfl | rfl : k = 10 ∨ k = 11 := by omega
    · cases hx
      have hsum : (daysInMonth.take 10).sum = 306 := rfl
      refine ⟨10, r, ⟨y + 1, 0, r + 1, by omega, by omega, ?_⟩, hrun, hk, ?_, rfl, rfl, rfl, ?_⟩
      · simp only [monthDays]
        omega
      · simp only [Date.dayNumber, Date.yearDay, marchDay, daysBeforeMonth] at hrest ⊢
        omega
      · omega
    · cases hx
      have hsum : (daysInMonth.take 11).sum = 337 := rfl
      refine ⟨11, r, ⟨y + 1, 1, r + 1, by omega, by omega, ?_⟩, hrun, hk, ?_, rfl, rfl, rfl, ?_⟩
      · -- the 29th of February is there in a leap year only
        rw [monthDays]
        rcases hdays with hshort | ⟨-, hleap⟩
        · split <;> omega
        · rw [if_pos hleap]
          omega
      · simp only [Date.dayNumber, Date.yearDay, marchDay, daysBeforeMonth, monthDays] at hrest ⊢
        omega
      · omega

/-! ## From seconds -/

/-- The fields of an instant. -/
def Tm.show (tm : Tm) (i : Instant) : Tm :=
  { tm with
    sec := i.second
    min := i.minute
    hour := i.hour
    mday := i.day
    mon := i.month
    year := i.year - 1900
    wday := i.weekday
    yday := i.yearDay }

/-- The years of the first test of `__secs_to_tm`: it does not reject a time whose year fits an `int`. -/
theorem not_isInt_of_range {i : Instant} (h : i.seconds < -2147483648 * 31622400 ∨ i.seconds > 2147483647 * 31622400) :
    ¬ IsInt (i.year - 1900) := by
  have hlo := i.yearDay_nonneg
  have hhi := i.yearDay_lt
  have hmax : yearDays i.year ≤ 366 := by
    unfold yearDays
    split <;> decide
  have hh := i.hour_bounds
  have hm := i.minute_bounds
  have hs := i.second_bounds
  unfold IsInt
  unfold Instant.seconds Date.dayNumber daysBeforeYear at h
  omega

theorem MarchDate.yearDay_eq {y d r : ℤ} {k : ℕ} {date : Date} (h : MarchDate y d k r date) :
    (if d + 31 + 28 + (if IsLeap y then 1 else 0) ≥ 365 + (if IsLeap y then 1 else 0) then
        d + 31 + 28 + (if IsLeap y then 1 else 0) - (365 + (if IsLeap y then 1 else 0))
      else d + 31 + 28 + if IsLeap y then 1 else 0) = date.yearDay := by
  have hnum := h.dayNumber
  have hyear := h.year
  have hlate := h.late
  have hrest := daysBeforeMonth_two_add y
  have hsucc := daysBeforeYear_succ y
  unfold Date.dayNumber marchDay at hnum
  have hdays : yearDays y = 365 + if IsLeap y then 1 else 0 := by
    unfold yearDays
    split <;> rfl
  split_ifs at hyear with hk
  · rw [hyear] at hnum
    omega
  · rw [hyear] at hnum
    omega

/-- **The fields of a time** are those of its instant, if its year fits an `int`. -/
theorem secsToTm_spec (t : ℤ) (tm : Tm) : ∃ i : Instant, i.seconds = t ∧
    secsToTm t tm = some (if IsInt (i.year - 1900) then some (tm.show i) else none) := by
  by_cases hrange : t < -2147483648 * 31622400 ∨ t > 2147483647 * 31622400
  · obtain ⟨i, hi⟩ := Instant.exists_seconds t
    refine ⟨i, hi, ?_⟩
    unfold secsToTm
    rw [if_pos hrange, if_neg (not_isInt_of_range (by rw [hi]; exact hrange))]
  unfold secsToTm
  rw [if_neg hrange]
  simp only []
  -- the day and the second of it
  have hlt := Int.tmod_lt_of_pos (t - leapoch) (show 0 < 86400 by decide)
  have hgt := Int.lt_tmod_of_pos (t - leapoch) (show 0 < 86400 by decide)
  rw [toInt_of_isInt ⟨by omega, by omega⟩, floor_tdiv (by decide),
    floor_tmod (by decide)]
  have hsum := Int.mul_ediv_add_emod (t - leapoch) 86400
  have hs0 := Int.emod_nonneg (t - leapoch) (show (86400 : ℤ) ≠ 0 by decide)
  have hs1 := Int.emod_lt_of_pos (t - leapoch) (show 0 < 86400 by decide)
  generalize (t - leapoch) / 86400 = days at hsum ⊢
  generalize (t - leapoch) % 86400 = secs at hsum hs0 hs1 ⊢
  have hw := Int.tmod_lt_of_pos (3 + days) (show 0 < 7 by decide)
  have hw' := Int.lt_tmod_of_pos (3 + days) (show 0 < 7 by decide)
  rw [toInt_of_isInt ⟨by omega, by omega⟩, floor_tmod (by decide)]
  -- its year and its month
  have hqc : IsInt (days.tdiv daysPer400Y) := by
    have hq := Int.tmod_add_mul_tdiv days daysPer400Y
    have hr := Int.tmod_lt_of_pos days (show 0 < daysPer400Y by decide)
    have hr' := Int.lt_tmod_of_pos days (show 0 < daysPer400Y by decide)
    unfold IsInt
    unfold leapoch at hsum
    unfold daysPer400Y at *
    omega
  obtain ⟨hz, htotal⟩ := splitDays_spec hqc
  generalize splitDays days = z at hz htotal ⊢
  have hnum := marchDay_year hz
  obtain ⟨k, r, date, hrun, hk, hdate⟩ := exists_marchDate hz.days_nonneg hz.days_lt
  refine ⟨Instant.ofDay date secs ⟨hs0, hs1⟩, ?_, ?_⟩
  · rw [Instant.seconds_ofDay, hdate.dayNumber]
    unfold leapoch at hsum
    omega
  have hyear : (if (k : ℤ) ≥ 10 then z.years + 4 * z.q + 100 * z.c + 400 * z.qc + 1
      else z.years + 4 * z.q + 100 * z.c + 400 * z.qc) + 100 = date.year - 1900 := by
    rw [hdate.year]
    unfold Cycles.year
    split <;> split <;> omega
  have hmonth : (if (k : ℤ) ≥ 10 then (k : ℤ) - 12 else k) + 2 = date.month := by
    rw [hdate.month]
    split <;> split <;> omega
  have hwday : (3 + days) % 7 = date.weekday := by
    unfold Date.weekday
    rw [hdate.dayNumber]
    omega
  have hyday := hdate.yearDay_eq
  simp only [hz.isLeap_year] at hyday
  rw [hrun]
  simp only [hyear, hmonth, hwday, hyday]
  by_cases hint : IsInt (date.year - 1900)
  · have hmon : (Instant.ofDay date secs ⟨hs0, hs1⟩).year - 1900 = date.year - 1900 := rfl
    rw [if_neg (by unfold IsInt at hint; omega), hmon, if_pos hint, toInt_of_isInt hint, ← hdate.day,
      Int.tdiv_eq_ediv_of_nonneg hs0, Int.tdiv_eq_ediv_of_nonneg hs0,
      Int.tmod_eq_emod_of_nonneg hs0, Int.tmod_eq_emod_of_nonneg (Int.ediv_nonneg hs0 (by decide))]
    rfl
  · rw [if_pos (by unfold IsInt at hint; omega)]
    exact congrArg some (if_neg hint).symm

/-! ## To seconds -/

/-- The beginning of a year, and whether it is a leap year. -/
def yearStart (year : ℤ) : ℤ × Bool :=
  (86400 * daysBeforeYear (year + 1900), decide (IsLeap (year + 1900)))

theorem yearToSecsInt_spec {year : ℤ} (h2 : 2 ≤ year) (h138 : year ≤ 138) :
    yearToSecsInt year = some (yearStart year) := by
  have hleap : decide ((year - 68) % 4 = 0) = decide (IsLeap (year + 1900)) := by
    -- no other multiple of 100 than 2000 is among these years
    rw [decide_eq_decide]
    unfold IsLeap
    omega
  unfold yearToSecsInt yearStart
  simp only [toInt_of_isInt (show IsInt year from ⟨by omega, by omega⟩), Int.shiftRight_eq_div_pow,
    hleap, decide_eq_true_eq]
  have hdays : 365 * (year - 70) + (if IsLeap (year + 1900) then (year - 68) / 4 - 1
      else (year - 68) / 4) = daysBeforeYear (year + 1900) := by
    unfold daysBeforeYear
    split <;> rename_i h <;> unfold IsLeap at h <;> omega
  have hbounds : -18 ≤ (if IsLeap (year + 1900) then (year - 68) / 4 - 1 else (year - 68) / 4) ∧
      (if IsLeap (year + 1900) then (year - 68) / 4 - 1 else (year - 68) / 4) ≤ 17 := by
    split <;> omega
  generalize (if IsLeap (year + 1900) then (year - 68) / 4 - 1 else (year - 68) / 4) = leaps
    at hdays hbounds ⊢
  rw [int_of_isInt ⟨by omega, by omega⟩,
    int_of_isInt ⟨by omega, by omega⟩]
  simp only [some_bind]
  rw [int_of_isInt ⟨by omega, by omega⟩]
  simp only [some_bind, some.injEq, Prod.mk.injEq, and_true]
  omega

/-- The leap days between the beginning of a cycle of 400 years and a year of it. -/
theorem yearOfCycle_spec {rem : ℤ} (h0 : 0 ≤ rem) (h1 : rem < 400) :
    ∃ centuries leaps isLeap, yearOfCycle rem = (centuries, leaps, isLeap) ∧
      0 ≤ centuries ∧ centuries ≤ 3 ∧ 0 ≤ leaps ∧ leaps ≤ 24 ∧ isLeap = decide (IsLeap rem) ∧
      leaps + 24 * centuries - (if isLeap then 1 else 0) =
        (rem - 1) / 4 - (rem - 1) / 100 + (rem - 1) / 400 := by
  unfold yearOfCycle
  by_cases hzero : rem = 0
  · subst hzero
    exact ⟨0, 0, true, rfl, by decide, by decide, by decide, by decide, rfl, rfl⟩
  rw [if_neg hzero]
  -- the century
  have hcent : ∃ c, (if rem ≥ 200 then if rem ≥ 300 then 3 else 2 else if rem ≥ 100 then 1 else 0) = c ∧
      0 ≤ c ∧ c ≤ 3 ∧ 0 ≤ rem - 100 * c ∧ rem - 100 * c < 100 := by
    refine ⟨_, rfl, ?_⟩
    split <;> split <;> omega
  obtain ⟨c, hc, hc0, hc3, hr0, hr1⟩ := hcent
  rw [hc]
  by_cases hfirst : rem - 100 * c = 0
  · rw [if_pos hfirst]
    refine ⟨c, 0, false, rfl, hc0, hc3, by decide, by decide, ?_, ?_⟩
    · rw [eq_comm, decide_eq_false_iff_not]
      unfold IsLeap
      omega
    · simp only [Bool.false_eq_true, if_false]
      omega
  · rw [if_neg hfirst]
    refine ⟨c, _, _, rfl, hc0, hc3, by omega, by omega, ?_, ?_⟩
    · rw [decide_eq_decide]
      unfold IsLeap
      omega
    · simp only [decide_eq_true_eq]
      split <;> omega

/-- The general part agrees with the calendar on every year that fields of type `int` can name. -/
theorem yearToSecsGeneral_spec {year : ℤ} (hlo : -3000000000 ≤ year) (hhi : year ≤ 3000000000) :
    yearToSecsGeneral year = some (yearStart year) := by
  have hdiv := floor_tdiv (x := year - 100) (show 0 < 400 by decide)
  have hmod := floor_tmod (x := year - 100) (show 0 < 400 by decide)
  have hcycles : (if (year - 100).tmod 400 < 0 then int ((year - 100).tdiv 400 - 1)
      else some ((year - 100).tdiv 400)) = some ((year - 100) / 400) := by
    rw [← hdiv]
    split
    · exact int_of_isInt ⟨by omega, by omega⟩
    · rfl
  obtain ⟨c, l, isLeap, heq, hc0, hc3, hl0, hl24, hleap, hleaps⟩ :=
    yearOfCycle_spec (show 0 ≤ (year - 100) % 400 by omega) (by omega)
  have hyear : IsLeap ((year - 100) % 400) ↔ IsLeap (year + 1900) := by
    unfold IsLeap
    omega
  unfold yearToSecsGeneral yearStart
  rw [llong_of_isLlong ⟨by omega, by omega⟩]
  simp only [some_bind]
  rw [toInt_of_isInt ⟨by omega, by omega⟩,
    toInt_of_isInt ⟨by omega, by omega⟩, hcycles, hmod, heq]
  simp only [some_bind]
  rw [int_of_isInt ⟨by omega, by omega⟩, some_bind]
  rw [int_of_isInt ⟨by omega, by omega⟩, some_bind]
  rw [int_of_isInt ⟨by omega, by omega⟩, some_bind]
  rw [int_of_isInt ⟨by omega, by omega⟩, some_bind]
  rw [llong_of_isLlong ⟨by omega, by omega⟩, some_bind]
  rw [llong_of_isLlong ⟨by omega, by omega⟩, some_bind]
  rw [llong_of_isLlong ⟨by omega, by omega⟩, some_bind]
  rw [llong_of_isLlong ⟨by omega, by omega⟩]
  refine congrArg some (Prod.ext ?_ ?_)
  · unfold daysBeforeYear
    omega
  · rw [hleap, decide_eq_decide]
    exact hyear

theorem yearToSecs_spec {year : ℤ} (hlo : -3000000000 ≤ year) (hhi : year ≤ 3000000000) :
    yearToSecs year = some (yearStart year) := by
  unfold yearToSecs
  split
  · exact yearToSecsInt_spec (by omega) (by omega)
  · exact yearToSecsGeneral_spec hlo hhi

theorem monthToSecs_spec (y : ℤ) {m : ℕ} (hm : m < 12) :
    monthToSecs m (decide (IsLeap y)) = some (86400 * daysBeforeMonth y m) := by
  by_cases hleap : IsLeap y
  · interval_cases m <;> simp [monthToSecs, secsThroughMonth, daysBeforeMonth, monthDays, hleap]
  · interval_cases m <;> simp [monthToSecs, secsThroughMonth, daysBeforeMonth, monthDays, hleap]

/-- **The seconds of the fields of an instant.** -/
theorem tmToSecs_show (tm : Tm) {i : Instant} (hi : IsInt (i.year - 1900)) :
    tmToSecs (tm.show i) = some i.seconds := by
  obtain ⟨hlo, hhi⟩ := hi
  have hm := i.month_lt
  have hd := i.day_pos
  have hd' := i.day_le
  have hmax := monthDays_le i.year i.month
  have hfirst := daysBeforeMonth_mono i.year (Nat.zero_le i.month)
  have hlast := daysBeforeMonth_mono i.year hm.le
  have hyear : yearDays i.year ≤ 366 := by
    unfold yearDays
    split <;> decide
  rw [daysBeforeMonth_twelve] at hlast
  rw [daysBeforeMonth] at hfirst
  have hh := i.hour_bounds
  have hmin := i.minute_bounds
  have hs := i.second_bounds
  have hstart : yearStart (i.year - 1900) = (86400 * daysBeforeYear i.year, decide (IsLeap i.year)) := by
    unfold yearStart
    rw [sub_add_cancel]
  have hbefore : -10000000000000 ≤ daysBeforeYear i.year ∧ daysBeforeYear i.year ≤ 10000000000000 := by
    unfold daysBeforeYear
    omega
  have hmonth : yearMonth (tm.show i) = (i.year - 1900, (i.month : ℤ)) := by
    exact if_neg (by simp only [Tm.show]; omega)
  unfold tmToSecs
  rw [hmonth]
  simp only [bind_eq_bind, Int.toNat_natCast]
  rw [yearToSecs_spec (by omega) (by omega), hstart, bind_some]
  rw [monthToSecs_spec i.year hm]
  simp only [bind_some, Tm.show]
  rw [llong_of_isLlong ⟨by omega, by omega⟩, bind_some]
  rw [int_of_isInt ⟨by omega, by omega⟩, bind_some]
  rw [llong_of_isLlong ⟨by omega, by omega⟩, bind_some]
  rw [llong_of_isLlong ⟨by omega, by omega⟩, bind_some]
  rw [llong_of_isLlong ⟨by omega, by omega⟩, bind_some]
  rw [llong_of_isLlong ⟨by omega, by omega⟩]
  unfold Instant.seconds Date.dayNumber Date.yearDay
  refine congrArg some ?_
  omega

/-- The fields that `timegm` leaves are those of the instant it returns. -/
theorem timegm_spec {junk tm tm' : Tm} {t : ℤ} (h : timegm junk tm = some (some (t, tm'))) :
    ∃ i : Instant, i.seconds = t ∧ IsInt (i.year - 1900) ∧
      tm' = ({ junk with isdst := 0, gmtoff := 0, zone := "UTC" } : Tm).show i := by
  obtain ⟨s, -, h⟩ := Option.bind_eq_some_iff.mp h
  obtain ⟨i, hi, hrun⟩ := secsToTm_spec s junk
  rw [hrun] at h
  split_ifs at h with hint
  · obtain ⟨rfl, rfl⟩ := h
    exact ⟨i, hi, hint, rfl⟩
  · cases h

/-- **The calendar.** The fields that `__secs_to_tm` gives for a time are those of its instant in the
proleptic Gregorian calendar, and `__tm_to_secs` takes them back to the time; a time is rejected only if
its year does not fit an `int`; the two parts of `__year_to_secs` agree where both can be taken; and
`timegm` on fields that it has normalised changes nothing. -/
theorem calendar_correct :
    (∀ t tm tm', secsToTm t tm = some (some tm') →
      ∃ i : Instant, i.seconds = t ∧ tm' = tm.show i ∧ tmToSecs tm' = some t) ∧
    (∀ t tm, secsToTm t tm ≠ none) ∧
    (∀ t tm, secsToTm t tm = some none → ∀ i : Instant, i.seconds = t → ¬ IsInt (i.year - 1900)) ∧
    (∀ year, IsLlong year → (year - 2) % 2 ^ 64 ≤ 136 →
      ∃ r, yearToSecsInt year = some r ∧ yearToSecsGeneral year = some r) ∧
    ∀ junk tm t tm', timegm junk tm = some (some (t, tm')) →
      ∀ junk', timegm junk' tm' = some (some (t, tm')) := by
  refine ⟨?_, ?_, ?_, ?_, ?_⟩
  · intro t tm tm' h
    obtain ⟨i, rfl, hrun⟩ := secsToTm_spec t tm
    rw [h, some.injEq] at hrun
    by_cases hint : IsInt (i.year - 1900)
    · rw [if_pos hint, some.injEq] at hrun
      rw [hrun]
      exact ⟨i, rfl, rfl, tmToSecs_show tm hint⟩
    · rw [if_neg hint] at hrun
      cases hrun
  · intro t tm h
    obtain ⟨i, -, hrun⟩ := secsToTm_spec t tm
    rw [h] at hrun
    cases hrun
  · intro t tm h j hj hint
    obtain ⟨i, hi, hrun⟩ := secsToTm_spec t tm
    obtain rfl : i = j := Instant.seconds_injective (hi.trans hj.symm)
    rw [h, if_pos hint] at hrun
    cases hrun
  · intro year hyear hfast
    obtain ⟨hlo, hhi⟩ := hyear
    exact ⟨_, yearToSecsInt_spec (by omega) (by omega), yearToSecsGeneral_spec (by omega) (by omega)⟩
  · intro junk tm t tm' h junk'
    obtain ⟨i, hi, hint, rfl⟩ := timegm_spec h
    obtain ⟨j, hj, hrun⟩ := secsToTm_spec t junk'
    obtain rfl : j = i := Instant.seconds_injective (hj.trans hi.symm)
    unfold timegm
    rw [tmToSecs_show _ hint, hi, some_bind]
    rw [hrun, if_pos hint]
    rfl

/-- The sixtieth day of 2000 is its leap day, a Tuesday. -/
theorem calendar_correct_leap_day :
    timegm ⟨0, 0, 0, 0, 0, 0, 0, 0, 0, 0, ""⟩ ⟨0, 0, 0, 60, 0, 100, 0, 0, -1, 0, ""⟩ =
        some (some (951782400, ⟨0, 0, 0, 29, 1, 100, 2, 59, 0, 0, "UTC"⟩)) ∧
      timegm ⟨0, 0, 0, 0, 0, 0, 0, 0, 0, 0, ""⟩ ⟨0, 0, 0, 29, 1, 100, 2, 59, 0, 0, "UTC"⟩ =
        some (some (951782400, ⟨0, 0, 0, 29, 1, 100, 2, 59, 0, 0, "UTC"⟩)) := by
  have hfirst : timegm ⟨0, 0, 0, 0, 0, 0, 0, 0, 0, 0, ""⟩ ⟨0, 0, 0, 60, 0, 100, 0, 0, -1, 0, ""⟩ =
      some (some (951782400, ⟨0, 0, 0, 29, 1, 100, 2, 59, 0, 0, "UTC"⟩)) := by decide
  exact ⟨hfirst, calendar_correct.2.2.2.2 _ _ _ _ hfirst _⟩

end Leblibc.Time
