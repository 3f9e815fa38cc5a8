import Leblibc.Time.Tz
import Leblibc.Time.TmCorrect

/-!
# The day of a rule

Which day of a year a rule denotes, and when `rule_to_secs` finds it. The rules without a month are right for every
year. For a rule with a month the code finds the weekday of the month's first day by a remainder of C, which is
negative before 1970; it makes the distance to the weekday of the rule nonnegative, but not less than a week.

## Main results

* `Rule.denotes_iff`: the one day of each year that a rule denotes
* `ruleToSecs_iff`: `rule_to_secs` returns the time of the rule on this day exactly when `WeekdayFound`
-/

namespace Leblibc.Time.Tz

open Leblibc.Lib

/-! ## Rules -/

/-- The values that a rule `Mm.n.d`, `Jn` or `n` can have. -/
structure Rule.Valid (rule : Rule) : Prop where
  month : rule.kind = .M →
    (1 ≤ rule.r1 ∧ rule.r1 ≤ 12) ∧ (1 ≤ rule.r2 ∧ rule.r2 ≤ 5) ∧ 0 ≤ rule.r3 ∧ rule.r3 ≤ 6
  julian : rule.kind = .J → 1 ≤ rule.r1 ∧ rule.r1 ≤ 365
  day : rule.kind = .zero → 0 ≤ rule.r1 ∧ rule.r1 ≤ 365
  time : IsInt rule.time

/-- The date is the `n`-th of its weekday in its month: the first ones are on the days 1 to 7. The fifth one is the
last one, so that the day a week later is in another month. -/
def IsNth (d : Date) (n : ℤ) : Prop :=
  if n = 5 then monthDays d.year d.month < d.day + 7 else 7 * (n - 1) < d.day ∧ d.day ≤ 7 * n

/-- The day with number `n` is the one that a rule denotes in a year. A rule `J` gives a day by its place in a common
year, so that 29 February is never counted. -/
def Rule.Denotes (rule : Rule) (year n : ℤ) : Prop :=
  match rule.kind with
  | .M => ∃ d : Date, d.dayNumber = n ∧ d.year = year ∧ (d.month : ℤ) + 1 = rule.r1 ∧ d.weekday = rule.r3 ∧
      IsNth d rule.r2
  | .J => ∃ d e : Date, d.dayNumber = n ∧ d.year = year ∧ ¬ IsLeap e.year ∧ e.month = d.month ∧ e.day = d.day ∧
      e.yearDay + 1 = rule.r1
  | .zero => n = daysBeforeYear year + rule.r1

/-- The number of the first day of a month. -/
def firstDay (y : ℤ) (m : ℕ) : ℤ := daysBeforeYear y + daysBeforeMonth y m

/-- The weekday of the first day of a month. -/
def firstWeekday (y : ℤ) (m : ℕ) : ℤ := (firstDay y m + 4) % 7

/-- The condition under which `rule_to_secs` finds the weekday, for a year counted from 1900: the rule has no month, or
the year is not before 1970, or the month begins on a Sunday, or the weekday of the rule comes before that of the
month's first day, or the rule is for the last such day and the month has five of them. -/
def Rule.WeekdayFound (rule : Rule) (year : ℤ) : Prop :=
  rule.kind = .M →
    let w := firstWeekday (year + 1900) (rule.r1 - 1).toNat
    70 ≤ year ∨ w = 0 ∨ rule.r3 < w ∨
      rule.r2 = 5 ∧ rule.r3 - w + 28 < monthDays (year + 1900) (rule.r1 - 1).toNat

/-! ## Rules with a month -/

/-- The days from the first day of the month to the first day with the weekday of the rule, `days` being what was found
for them; then the weeks are added. -/
def weeksLater (days n : ℤ) (length : ℤ) : ℤ := days + 7 * ((if n = 5 ∧ days + 28 ≥ length then 4 else n) - 1)

theorem exists_nth_iff {y : ℤ} {m : ℕ} (hm : m < 12) {n d : ℤ} (hn : 1 ≤ n ∧ n ≤ 5) (hd : 0 ≤ d ∧ d ≤ 6) (k : ℤ) :
    (∃ e : Date, e.dayNumber = k ∧ e.year = y ∧ e.month = m ∧ e.weekday = d ∧ IsNth e n) ↔
      k = firstDay y m + weeksLater ((d - firstWeekday y m) % 7) n (monthDays y m) := by
  have hlen := monthDays_pos y m
  have hlen' := monthDays_le y m
  unfold weeksLater firstWeekday
  constructor
  · rintro ⟨e, rfl, rfl, rfl, hw, hnth⟩
    have hle := e.day_le
    have hnum : e.dayNumber = firstDay e.year e.month + (e.day - 1) := by
      unfold Date.dayNumber Date.yearDay firstDay
      omega
    unfold Date.weekday at hw
    unfold IsNth at hnth
    split at hnth <;> split <;> omega
  · intro hk
    -- the day of the month
    have hday : ∃ day, k = firstDay y m + (day - 1) ∧ 1 ≤ day ∧ day ≤ monthDays y m :=
      ⟨k - firstDay y m + 1, by omega, by split at hk <;> omega, by split at hk <;> omega⟩
    obtain ⟨day, hkd, hpos, hle⟩ := hday
    have hnum : (⟨y, m, day, hm, hpos, hle⟩ : Date).dayNumber = k := by
      simp only [Date.dayNumber, Date.yearDay, hkd, firstDay]
      omega
    refine ⟨⟨y, m, day, hm, hpos, hle⟩, hnum, rfl, rfl, ?_, ?_⟩
    · rw [Date.weekday]
      split at hk <;> omega
    · unfold IsNth
      dsimp only
      split at hk <;> split <;> omega

theorem daysInMonth_eq (y : ℤ) {m : ℤ} (h1 : 1 ≤ m) (h2 : m ≤ 12) :
    daysInMonth m (decide (IsLeap y)) = monthDays y (m - 1).toNat := by
  by_cases hleap : IsLeap y
  · interval_cases m <;> simp [daysInMonth, monthDays, hleap]
  · interval_cases m <;> simp [daysInMonth, monthDays, hleap]

/-- The distance to the weekday that the code finds. -/
def codeDays (first d : ℤ) : ℤ :=
  if d - (first + 4).tmod 7 < 0 then d - (first + 4).tmod 7 + 7 else d - (first + 4).tmod 7

theorem codeDays_bounds (first : ℤ) {d : ℤ} (hd : 0 ≤ d ∧ d ≤ 6) : 0 ≤ codeDays first d ∧ codeDays first d ≤ 12 := by
  have hlt := Int.tmod_lt_of_pos (first + 4) (show (0 : ℤ) < 7 by decide)
  have hgt := Int.lt_tmod_of_pos (first + 4) (show (0 : ℤ) < 7 by decide)
  unfold codeDays
  split <;> omega

theorem weeksLater_bounds {days n : ℤ} (hdays : 0 ≤ days ∧ days ≤ 12) (hn : 1 ≤ n ∧ n ≤ 5) (length : ℤ) :
    0 ≤ weeksLater days n length ∧ weeksLater days n length ≤ 40 := by
  unfold weeksLater
  split <;> omega

theorem monthRule_eq {rule : Rule} (hv : rule.Valid) (hkind : rule.kind = .M) {y : ℤ}
    (hy : -3000000000 ≤ y ∧ y ≤ 3000000000) :
    monthRule rule (86400 * daysBeforeYear y) (decide (IsLeap y)) =
      some (86400 * (firstDay y (rule.r1 - 1).toNat +
        weeksLater (codeDays (firstDay y (rule.r1 - 1).toNat) rule.r3) rule.r2
          (monthDays y (rule.r1 - 1).toNat))) := by
  obtain ⟨⟨hm1, hm2⟩, ⟨hn1, hn2⟩, hd1, hd2⟩ := hv.month hkind
  have hm : (rule.r1 - 1).toNat < 12 := by omega
  have hbefore := daysBeforeMonth_mono y (Nat.zero_le (rule.r1 - 1).toNat)
  have hafter := daysBeforeMonth_mono y hm.le
  have hyear : yearDays y ≤ 366 := by
    unfold yearDays
    split <;> decide
  rw [daysBeforeMonth_twelve] at hafter
  rw [daysBeforeMonth] at hbefore
  -- the first day of the month
  have hfirst : firstDay y (rule.r1 - 1).toNat = daysBeforeYear y + daysBeforeMonth y (rule.r1 - 1).toNat := rfl
  have hrange : -2000000000000 ≤ daysBeforeYear y ∧ daysBeforeYear y ≤ 2000000000000 := by
    unfold daysBeforeYear
    omega
  generalize hD : firstDay y (rule.r1 - 1).toNat = D at hfirst ⊢
  -- its weekday
  have hmod : (86400 * (D + 4)).tmod (7 * 86400) = 86400 * (D + 4).tmod 7 := by
    rw [show (7 : ℤ) * 86400 = 86400 * 7 from rfl, Int.mul_tmod_mul_of_pos _ _ (by decide)]
  have hlt := Int.tmod_lt_of_pos (D + 4) (show (0 : ℤ) < 7 by decide)
  have hgt := Int.lt_tmod_of_pos (D + 4) (show (0 : ℤ) < 7 by decide)
  have hwday : (toInt ((86400 * (D + 4)).tmod (7 * 86400))).tdiv 86400 = (D + 4).tmod 7 := by
    rw [hmod, toInt_of_isInt ⟨by omega, by omega⟩, Int.mul_tdiv_cancel_left _ (by decide)]
  have hweeks := weeksLater_bounds (codeDays_bounds D ⟨hd1, hd2⟩) ⟨hn1, hn2⟩ (monthDays y (rule.r1 - 1).toNat)
  unfold monthRule
  rw [if_neg (by omega), monthToSecs_spec y hm]
  simp only [Option.bind_eq_bind, Option.bind_some]
  rw [← Int.mul_add, ← hfirst, llong_of_isLlong ⟨by omega, by omega⟩, Option.bind_some,
    show 86400 * D + 4 * 86400 = 86400 * (D + 4) by omega, llong_of_isLlong ⟨by omega, by omega⟩, Option.bind_some,
    hwday, int_of_isInt ⟨by omega, by omega⟩, Option.bind_some, daysInMonth_eq y hm1 hm2]
  rw [show (if rule.r3 - (D + 4).tmod 7 < 0 then rule.r3 - (D + 4).tmod 7 + 7 else rule.r3 - (D + 4).tmod 7) =
    codeDays D rule.r3 from rfl]
  rw [← weeksLater, int_of_isInt ⟨by omega, by omega⟩, Option.bind_some, ← Int.mul_add,
    llong_of_isLlong ⟨by omega, by omega⟩]

/-- Where the remainder is negative, the distance is too large by a week, unless the weekday comes before that of the
first day. Then the last day of the month is found if it is in the fifth week, since the code takes back one. -/
theorem weeksLater_codeDays_iff {D d n len : ℤ} (hd : 0 ≤ d ∧ d ≤ 6) (hlen : 28 ≤ len ∧ len ≤ 31) :
    weeksLater (codeDays D d) n len = weeksLater ((d - (D + 4) % 7) % 7) n len ↔
      0 ≤ D + 4 ∨ (D + 4) % 7 = 0 ∨ d < (D + 4) % 7 ∨ n = 5 ∧ d - (D + 4) % 7 + 28 < len := by
  have hfloor := floor_tmod (x := D + 4) (show (0 : ℤ) < 7 by decide)
  have hgt := Int.lt_tmod_of_pos (D + 4) (show (0 : ℤ) < 7 by decide)
  by_cases hneg : 0 ≤ D + 4
  · -- the remainder is the weekday
    have hsame : codeDays D d = (d - (D + 4) % 7) % 7 := by
      unfold codeDays
      rw [Int.tmod_eq_emod_of_nonneg hneg]
      split <;> omega
    rw [hsame]
    simp only [hneg, true_or]
  · have hnonpos : (D + 4).tmod 7 ≤ 0 := by
      rw [← Int.neg_neg (D + 4), Int.neg_tmod]
      have := Int.tmod_nonneg 7 (show 0 ≤ -(D + 4) by omega)
      omega
    have hcode : codeDays D d = d - (D + 4).tmod 7 := if_neg (by omega)
    rw [hcode]
    unfold weeksLater
    generalize (D + 4).tmod 7 = r at *
    generalize (D + 4) % 7 = w at *
    split_ifs at hfloor with hr
    · by_cases hdw : d < w
      · have hcongr : (d - w) % 7 = d - r := by omega
        rw [hcongr]
        simp only [hdw, true_or, or_true]
      · have hcongr : (d - w) % 7 = d - w := by omega
        split <;> split <;> omega
    · have hcongr : (d - w) % 7 = d - r := by omega
      omega

/-- The months that begin before 28 December 1969 are those of the years before 1970. -/
theorem firstDay_nonneg_iff (y : ℤ) {m : ℕ} (hm : m < 12) : 0 ≤ firstDay y m + 4 ↔ 1970 ≤ y := by
  have hbefore := daysBeforeMonth_mono y (Nat.zero_le m)
  have hafter := daysBeforeMonth_mono y (show m + 1 ≤ 12 from hm)
  have hlen := monthDays_pos y m
  rw [daysBeforeMonth_twelve, daysBeforeMonth] at hafter
  rw [daysBeforeMonth] at hbefore
  unfold firstDay
  constructor
  · intro h
    by_contra hlt
    have hmono := daysBeforeYear_mono (show y + 1 ≤ 1970 by omega)
    rw [daysBeforeYear_succ, daysBeforeYear_epoch] at hmono
    omega
  · intro h
    have hmono := daysBeforeYear_mono h
    rw [daysBeforeYear_epoch] at hmono
    omega

/-! ## Rules without a month -/

theorem exists_common_iff (y : ℤ) {n : ℤ} (hn : 1 ≤ n ∧ n ≤ 365) (k : ℤ) :
    (∃ d e : Date, d.dayNumber = k ∧ d.year = y ∧ ¬ IsLeap e.year ∧ e.month = d.month ∧ e.day = d.day ∧
        e.yearDay + 1 = n) ↔
      k = daysBeforeYear y + if n < 60 ∨ ¬ IsLeap y then n - 1 else n := by
  -- from the first of March on, a day is one later in a leap year
  have hplace : ∀ d e : Date, d.year = y → ¬ IsLeap e.year → e.month = d.month → e.day = d.day → e.yearDay + 1 = n →
      d.dayNumber = daysBeforeYear y + if n < 60 ∨ ¬ IsLeap y then n - 1 else n := by
    rintro d e rfl hcommon hmonth hday hplace
    have hshift := daysBeforeMonth_of_common hcommon d.year d.month_lt
    have hpos := e.day_pos
    have hmar : n < 60 ↔ e.month < 2 := by
      have hfeb : daysBeforeMonth e.year 2 = 59 := by
        simp only [daysBeforeMonth, monthDays, if_neg hcommon]
        rfl
      constructor
      · intro hlt
        by_contra hge
        have hmono := daysBeforeMonth_mono e.year (show 2 ≤ e.month by omega)
        unfold Date.yearDay at hplace
        omega
      · intro hlt
        have := e.yearDay_lt_of_lt hlt
        omega
    unfold Date.dayNumber
    unfold Date.yearDay at hplace ⊢
    rw [hmonth] at hplace hmar
    rw [hshift]
    by_cases hleap : IsLeap d.year
    · simp only [hleap, true_and, not_true_eq_false, or_false]
      split <;> split <;> omega
    · simp only [hleap, false_and, not_false_eq_true, or_true, if_true, if_false]
      omega
  constructor
  · rintro ⟨d, e, rfl, hyear, hcommon, hmonth, hday, hn'⟩
    exact hplace d e hyear hcommon hmonth hday hn'
  · rintro rfl
    have hcommon : ¬ IsLeap 2001 := by decide
    obtain ⟨e, heyear, heday⟩ := Date.exists_yearDay 2001 (show 0 ≤ n - 1 by omega)
      (show n - 1 < 365 by omega)
    rw [← heyear] at hcommon
    have hle : e.day ≤ monthDays y e.month := e.day_le.trans (monthDays_common_le hcommon y e.month)
    refine ⟨⟨y, e.month, e.day, e.month_lt, e.day_pos, hle⟩, e, ?_, rfl, hcommon, rfl, rfl, by omega⟩
    exact hplace _ e rfl hcommon rfl rfl (by omega)

theorem dayRule_eq {rule : Rule} (hr : 0 ≤ rule.r1 ∧ rule.r1 ≤ 365) {y : ℤ} (hy : -3000000000 ≤ y ∧ y ≤ 3000000000) :
    dayRule rule (86400 * daysBeforeYear y) (decide (IsLeap y)) =
      some (86400 * (daysBeforeYear y +
        if rule.kind = .J ∧ (rule.r1 < 60 ∨ ¬ IsLeap y) then rule.r1 - 1 else rule.r1)) := by
  have hrange : -2000000000000 ≤ daysBeforeYear y ∧ daysBeforeYear y ≤ 2000000000000 := by
    unfold daysBeforeYear
    omega
  unfold dayRule
  simp only [decide_eq_false_iff_not]
  generalize hx : (if rule.kind = .J ∧ (rule.r1 < 60 ∨ ¬ IsLeap y) then rule.r1 - 1 else rule.r1) = x
  have hbound : -1 ≤ x ∧ x ≤ 365 := by
    rw [← hx]
    split <;> omega
  rw [int_of_isInt ⟨by omega, by omega⟩, some_bind, int_of_isInt ⟨by omega, by omega⟩,
    some_bind, ← Int.mul_add, llong_of_isLlong ⟨by omega, by omega⟩]

/-! ## All rules -/

/-- The day that a rule denotes. -/
def Rule.theDay (rule : Rule) (y : ℤ) : ℤ :=
  match rule.kind with
  | .M => firstDay y (rule.r1 - 1).toNat +
      weeksLater ((rule.r3 - firstWeekday y (rule.r1 - 1).toNat) % 7) rule.r2 (monthDays y (rule.r1 - 1).toNat)
  | .J => daysBeforeYear y + if rule.r1 < 60 ∨ ¬ IsLeap y then rule.r1 - 1 else rule.r1
  | .zero => daysBeforeYear y + rule.r1

theorem Rule.denotes_iff {rule : Rule} (hv : rule.Valid) (y n : ℤ) : rule.Denotes y n ↔ n = rule.theDay y := by
  unfold Rule.Denotes Rule.theDay
  cases hkind : rule.kind with
  | M =>
    obtain ⟨hm, hn, hd⟩ := hv.month hkind
    rw [← exists_nth_iff (by omega) hn hd]
    refine exists_congr fun d => ?_
    have hmonth : (d.month : ℤ) + 1 = rule.r1 ↔ d.month = (rule.r1 - 1).toNat := by omega
    rw [hmonth]
  | J => exact exists_common_iff y (hv.julian hkind) n
  | zero => exact Iff.rfl

/-- **The day that `rule_to_secs` finds.** It is that of the rule, if the weekday is found. -/
theorem ruleToSecs_spec {rule : Rule} (hv : rule.Valid) {year : ℤ} (hyear : IsInt year) :
    ∃ k, ruleToSecs rule year = some (86400 * k + rule.time) ∧ -2000000000000 ≤ k ∧ k ≤ 2000000000000 ∧
      (k = rule.theDay (year + 1900) ↔ rule.WeekdayFound year) := by
  obtain ⟨hlo, hhi⟩ := hyear
  obtain ⟨htlo, hthi⟩ := hv.time
  have hstart := yearToSecs_spec (show -3000000000 ≤ year by omega) (show year ≤ 3000000000 by omega)
  have hy : -3000000000 ≤ year + 1900 ∧ year + 1900 ≤ 3000000000 := by omega
  have hrange : -1000000000000 ≤ daysBeforeYear (year + 1900) ∧
      daysBeforeYear (year + 1900) ≤ 1000000000000 := by
    unfold daysBeforeYear
    omega
  -- the time of the rule is added to the day
  have hadd : ∀ k, ruleDay rule (86400 * daysBeforeYear (year + 1900)) (decide (IsLeap (year + 1900))) =
      some (86400 * k) → -2000000000000 ≤ k → k ≤ 2000000000000 →
      ruleToSecs rule year = some (86400 * k + rule.time) := by
    intro k hk hlo hhi
    unfold ruleToSecs
    rw [hstart, some_bind, yearStart, hk, some_bind,
      llong_of_isLlong ⟨by omega, by omega⟩]
  by_cases hkind : rule.kind = .M
  · obtain ⟨hm, hn, hd⟩ := hv.month hkind
    have hm12 : (rule.r1 - 1).toNat < 12 := by omega
    have hlen := monthDays_pos (year + 1900) (rule.r1 - 1).toNat
    have hlen' := monthDays_le (year + 1900) (rule.r1 - 1).toNat
    have hiff := weeksLater_codeDays_iff (D := firstDay (year + 1900) (rule.r1 - 1).toNat) (n := rule.r2) hd
      ⟨hlen, hlen'⟩
    have hbefore := daysBeforeMonth_mono (year + 1900) (Nat.zero_le (rule.r1 - 1).toNat)
    have hafter := daysBeforeMonth_mono (year + 1900) hm12.le
    have hlength : yearDays (year + 1900) ≤ 366 := by
      unfold yearDays
      split <;> decide
    have hdays := codeDays_bounds (firstDay (year + 1900) (rule.r1 - 1).toNat) hd
    rw [daysBeforeMonth_twelve] at hafter
    rw [daysBeforeMonth] at hbefore
    have hcode := monthRule_eq hv hkind hy
    have hweeks := weeksLater_bounds hdays hn (monthDays (year + 1900) (rule.r1 - 1).toNat)
    have hfirst : firstDay (year + 1900) (rule.r1 - 1).toNat =
      daysBeforeYear (year + 1900) + daysBeforeMonth (year + 1900) (rule.r1 - 1).toNat := rfl
    refine ⟨_, hadd _ ((if_pos hkind).trans hcode) (by omega) (by omega), by omega, by omega, ?_⟩
    rw [Rule.theDay, hkind]
    rw [add_right_inj, firstWeekday, hiff, firstDay_nonneg_iff _ hm12, Rule.WeekdayFound]
    simp only [hkind, forall_const, firstWeekday]
    have hepoch : 1970 ≤ year + 1900 ↔ 70 ≤ year := by omega
    rw [hepoch]
  · have hr : 0 ≤ rule.r1 ∧ rule.r1 ≤ 365 := by
      cases hk : rule.kind with
      | M => exact absurd hk hkind
      | J =>
        have := hv.julian hk
        omega
      | zero => exact hv.day hk
    have hfound : rule.WeekdayFound year := fun h => absurd h hkind
    refine ⟨_, hadd _ ((if_neg hkind).trans (dayRule_eq hr hy)) (by split <;> omega) (by split <;> omega),
      by split <;> omega, by split <;> omega, iff_of_true ?_ hfound⟩
    unfold Rule.theDay
    cases hk : rule.kind with
    | M => exact absurd hk hkind
    | J => simp only [true_and]
    | zero => simp only [reduceCtorEq, false_and, if_false]

/-- **A rule denotes one day of each year, and `rule_to_secs` returns the time of the rule on this day exactly when the
weekday is found.** -/
theorem ruleToSecs_iff {rule : Rule} (hv : rule.Valid) {year : ℤ} (hyear : IsInt year) :
    ∃ t day, ruleToSecs rule year = some t ∧ rule.Denotes (year + 1900) day ∧
      (∀ other, rule.Denotes (year + 1900) other → other = day) ∧
      (t = 86400 * day + rule.time ↔ rule.WeekdayFound year) := by
  obtain ⟨k, hrun, -, -, hiff⟩ := ruleToSecs_spec hv hyear
  refine ⟨_, rule.theDay (year + 1900), hrun, (Rule.denotes_iff hv _ _).mpr rfl, ?_, ?_⟩
  · exact fun other h => (Rule.denotes_iff hv _ _).mp h
  · rw [← hiff]
    omega

/-- The last Sunday in March of 2024. -/
theorem ruleToSecs_iff_last_sunday :
    ∃ t day, ruleToSecs ⟨.M, 3, 5, 0, 7200⟩ 124 = some t ∧ Rule.Denotes ⟨.M, 3, 5, 0, 7200⟩ 2024 day ∧
      (∀ other, Rule.Denotes ⟨.M, 3, 5, 0, 7200⟩ 2024 other → other = day) ∧
      (t = 86400 * day + 7200 ↔ Rule.WeekdayFound ⟨.M, 3, 5, 0, 7200⟩ 124) :=
  @ruleToSecs_iff ⟨.M, 3, 5, 0, 7200⟩ ⟨by decide, by decide, by decide, by decide⟩ 124 (by decide)

/-- The first Wednesday in March of 1960 was the second day of the month, and `rule_to_secs` returns the time of the
rule on the ninth. -/
theorem ruleToSecs_week_late :
    Rule.Valid ⟨.M, 3, 1, 3, 7200⟩ ∧ IsInt 60 ∧ Rule.Denotes ⟨.M, 3, 1, 3, 7200⟩ 1960 (-3592) ∧
      ruleToSecs ⟨.M, 3, 1, 3, 7200⟩ 60 = some (86400 * (-3592 + 7) + 7200) := by
  refine ⟨⟨by decide, by decide, by decide, by decide⟩, by decide, ?_, by decide⟩
  exact ⟨⟨1960, 2, 2, by decide, by decide, by decide⟩, by decide, rfl, rfl, by decide, by decide, by decide⟩

end Leblibc.Time.Tz
