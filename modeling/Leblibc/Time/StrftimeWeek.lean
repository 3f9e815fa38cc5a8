import Leblibc.Lib.Gregorian
import Leblibc.Time.StrftimeText

/-!
# The weeks of `strftime`

The conversions `V` and `G` give the number of the week and its year in ISO 8601. The code never looks at the Thursday of
the week: it counts the Mondays up to the day, adds one if the year begins on a Tuesday, Wednesday or Thursday, and corrects
the weeks at the ends of the year by the days of the week that the year before ends on and the year begins on.

## Main results

* `weekNum_eq`, `weekYear_eq`: the numbers
* `strftime_week`: the texts
-/

namespace Leblibc.Time

open Lib

/-- The fields for the year, the day of the year and the day of the week are those of a date. -/
structure Tm.Shows (tm : Tm) (d : Date) : Prop where
  year : tm.year = d.year - 1900
  yday : tm.yday = d.yearDay
  wday : tm.wday = d.weekday

theorem tmod_eq_zero_iff (y n : ℤ) : y.tmod n = 0 ↔ y % n = 0 := by
  rw [← Int.dvd_iff_tmod_eq_zero, Int.dvd_iff_emod_eq_zero]

/-- **`is_leap`**, also where the year itself would overflow. -/
theorem isLeap_eq {y : ℤ} (hy : IsInt y) : isLeap y = some (decide (IsLeap (y + 1900))) := by
  obtain ⟨hlo, hhi⟩ := hy
  have htest (z : ℤ) (hz : IsLeap z ↔ IsLeap (y + 1900)) :
      decide (z.tmod 4 = 0 ∧ (z.tmod 100 ≠ 0 ∨ z.tmod 400 = 0)) = decide (IsLeap (y + 1900)) := by
    rw [decide_eq_decide, ← hz, ne_eq, tmod_eq_zero_iff, tmod_eq_zero_iff, tmod_eq_zero_iff]
    rfl
  unfold isLeap
  split_ifs with hbig
  · rw [int_of_isInt ⟨by omega, by omega⟩]
    show (int (y - 2000 + 1900)).bind _ = _
    rw [int_of_isInt ⟨by omega, by omega⟩]
    exact congrArg some (htest _ (by unfold IsLeap; omega))
  · show (int (y + 1900)).bind _ = _
    rw [int_of_isInt ⟨by omega, by omega⟩]
    exact congrArg some (htest _ Iff.rfl)

theorem isLeap_tmod (y : ℤ) : IsLeap (y.tmod 400 - 1 + 1900) ↔ IsLeap (y + 1900 - 1) := by
  have h := Int.tmod_add_mul_tdiv y 400
  unfold IsLeap
  omega

theorem unsigned_of_nonneg {x : ℤ} (h0 : 0 ≤ x) (h1 : x < 4294967296) : unsigned x = x := Int.emod_eq_of_lt h0 h1

/-- The week by the rule of the code, for the day of the year, the day of the week, and whether the year and the one before
are leap years. -/
def weekOf (yday wday : ℤ) (leap leapBefore : Prop) [Decidable leap] [Decidable leapBefore] : ℤ :=
  let val := (yday + 7 - (wday + 6) % 7) / 7 + if (wday + 369 - yday) % 7 ≤ 2 then 1 else 0
  if val = 0 then
    if (wday + 6 - yday) % 7 = 4 ∨ ((wday + 6 - yday) % 7 = 5 ∧ leapBefore) then 53 else 52
  else if val = 53 then
    if (wday + 371 - yday) % 7 ≠ 4 ∧ ((wday + 371 - yday) % 7 ≠ 3 ∨ ¬leap) then 1 else 53
  else val

theorem weekNum_of {tm : Tm} (hyear : IsInt tm.year) (hyday : 0 ≤ tm.yday ∧ tm.yday < 366)
    (hwday : 0 ≤ tm.wday ∧ tm.wday < 7) :
    weekNum tm = some (weekOf tm.yday tm.wday (IsLeap (tm.year + 1900)) (IsLeap (tm.year + 1900 - 1))) := by
  have htmod := Int.tmod_lt_of_pos tm.year (show (0 : ℤ) < 400 by decide)
  have htmod' := Int.lt_tmod_of_pos tm.year (show (0 : ℤ) < 400 by decide)
  have hval : toInt (unsigned (tm.yday + 7 - unsigned (tm.wday + 6) % 7) / 7) =
      (tm.yday + 7 - (tm.wday + 6) % 7) / 7 := by
    rw [unsigned_of_nonneg (by omega) (by omega), unsigned_of_nonneg (by omega) (by omega)]
    exact toInt_of_isInt ⟨by omega, by omega⟩
  have hadd : unsigned (tm.wday + 371 - tm.yday - 2) = tm.wday + 369 - tm.yday := by
    rw [unsigned_of_nonneg (by omega) (by omega)]
    omega
  have hjan : unsigned (tm.wday + 371 - tm.yday) = tm.wday + 371 - tm.yday := unsigned_of_nonneg (by omega) (by omega)
  unfold weekNum weekOf
  dsimp only
  rw [hval, hadd, hjan]
  have hcases : (if (tm.wday + 369 - tm.yday) % 7 ≤ 2 then (tm.yday + 7 - (tm.wday + 6) % 7) / 7 + 1
      else (tm.yday + 7 - (tm.wday + 6) % 7) / 7) = (tm.yday + 7 - (tm.wday + 6) % 7) / 7 +
        if (tm.wday + 369 - tm.yday) % 7 ≤ 2 then 1 else 0 := by
    split <;> simp
  rw [hcases]
  generalize hv : (tm.yday + 7 - (tm.wday + 6) % 7) / 7 + (if (tm.wday + 369 - tm.yday) % 7 ≤ 2 then (1 : ℤ) else 0) = val
  by_cases h0 : val = 0
  · -- then the day is one of the first six
    have hdec : unsigned (tm.wday + 7 - tm.yday - 1) = tm.wday + 6 - tm.yday := by
      rw [unsigned_of_nonneg (by omega) (by omega)]
      omega
    rw [if_pos h0, if_pos h0, hdec, isLeap_eq ⟨by omega, by omega⟩]
    by_cases h5 : (tm.wday + 6 - tm.yday) % 7 = 5
    · rw [if_pos h5]
      show some _ = some _
      simp only [decide_eq_true_eq, isLeap_tmod]
    · rw [if_neg h5]
      show some _ = some _
      simp only [h5, false_and]
  · rw [if_neg h0, if_neg h0]
    by_cases h53 : val = 53
    · rw [if_pos h53, if_pos h53, isLeap_eq hyear]
      by_cases h3 : (tm.wday + 371 - tm.yday) % 7 = 3
      · rw [if_pos h3]
        show some _ = some _
        simp only [decide_eq_false_iff_not]
      · rw [if_neg h3]
        show some _ = some _
        simp only [h3, ne_eq, not_false_eq_true, true_or]
    · rw [if_neg h53, if_neg h53]

theorem weekday_bounds (d : Date) : 0 ≤ d.weekday ∧ d.weekday < 7 := by
  unfold Date.weekday
  omega

theorem yearDay_bounds (d : Date) : 0 ≤ d.yearDay ∧ d.yearDay < 366 := by
  refine ⟨d.yearDay_nonneg, d.yearDay_lt.trans_le ?_⟩
  unfold yearDays
  split <;> decide

/-- **The rule of the code** is that of the Thursday. -/
theorem weekOf_eq {d : Date} {y w : ℤ} (h : d.IsoWeek y w) :
    weekOf d.yearDay d.weekday (IsLeap d.year) (IsLeap (d.year - 1)) = w := by
  have hcases := h.cases
  have hyday := d.yearDay_nonneg
  have hlt := d.yearDay_lt
  unfold Date.thursdayDay yearDays at hcases
  unfold yearDays at hlt
  unfold weekOf
  by_cases hleap : IsLeap d.year
  · simp only [if_pos hleap] at hcases hlt
    by_cases hbefore : IsLeap (d.year - 1)
    · simp only [if_pos hbefore] at hcases
      simp only [hleap, hbefore, not_true_eq_false, and_true, or_false]
      split_ifs <;> omega
    · simp only [if_neg hbefore] at hcases
      simp only [hleap, hbefore, not_true_eq_false, and_false, or_false]
      split_ifs <;> omega
  · simp only [if_neg hleap] at hcases hlt
    by_cases hbefore : IsLeap (d.year - 1)
    · simp only [if_pos hbefore] at hcases
      simp only [hleap, hbefore, not_false_eq_true, and_true, or_true]
      split_ifs <;> omega
    · simp only [if_neg hbefore] at hcases
      simp only [hleap, hbefore, not_false_eq_true, and_false, or_false, or_true, and_true]
      split_ifs <;> omega

/-- **`week_num`** is the number of the week. -/
theorem weekNum_eq {tm : Tm} {d : Date} (hyear : IsInt tm.year) (h : tm.Shows d) {y w : ℤ} (hweek : d.IsoWeek y w) :
    weekNum tm = some w := by
  have hyday := yearDay_bounds d
  have hwday := weekday_bounds d
  rw [← h.yday] at hyday
  rw [← h.wday] at hwday
  rw [weekNum_of hyear hyday hwday, h.year, h.yday, h.wday, sub_add_cancel, weekOf_eq hweek]

/-- **The number for `G`** is the year of the week. -/
theorem weekYear_eq {tm : Tm} {d : Date} (hyear : IsInt tm.year) (h : tm.Shows d) {y w : ℤ} (hweek : d.IsoWeek y w) :
    weekYear tm = some y := by
  have hcases := hweek.cases
  have hyday := yearDay_bounds d
  have hyearDays : ∀ y, yearDays y = 365 ∨ yearDays y = 366 := fun y => by
    unfold yearDays
    split
    · exact Or.inr rfl
    · exact Or.inl rfl
  have h0 := hyearDays (d.year - 1)
  have h1 := hyearDays d.year
  unfold Date.thursdayDay at hcases
  unfold weekYear
  rw [weekNum_eq hyear h hweek, h.yday, h.year]
  split_ifs with hend
  · refine congrArg some ?_
    split_ifs <;> omega
  · refine congrArg some ?_
    split_ifs <;> omega

theorem isoWeek_bounds {d : Date} {y w : ℤ} (h : d.IsoWeek y w) : 1 ≤ w ∧ w ≤ 53 := by
  obtain ⟨th, -, -, -, rfl⟩ := h
  have := yearDay_bounds th
  omega

/-- **The texts for `%V` and `%G`** are the number of the ISO week, with two digits, and its year, with at least four, for
every date whose year is in the range of `tm_year`, in every locale. -/
theorem strftime_week (loc : Locale) (depth : ℕ) (tm : Tm) (d : Date) (hyear : IsInt tm.year) (h : tm.Shows d) :
    ∃ y w, d.IsoWeek y w ∧ (∀ y' w', d.IsoWeek y' w' → y' = y ∧ w' = w) ∧ 1 ≤ w ∧ w ≤ 53 ∧
      (∀ n, (padded 2 w).length < n →
        strftime loc (depth + 1) n "%V" tm = some ⟨(padded 2 w).length, some (padded 2 w)⟩) ∧
      ∀ n, (padded 4 y).length < n →
        strftime loc (depth + 1) n "%G" tm = some ⟨(padded 4 y).length, some (padded 4 y)⟩ := by
  obtain ⟨y, w, hweek, hunique⟩ := d.existsUnique_isoWeek
  have hbounds := isoWeek_bounds hweek
  have hw : IsLlong w := ⟨by omega, by omega⟩
  have hy : IsLlong y := by
    have hcases := hweek.cases
    have hdate := h.year
    unfold IsInt at hyear
    exact ⟨by omega, by omega⟩
  have hV : fmtSwitch loc tm 'V' = some (.number w (2 : ℕ) '0') := by
    show (weekNum tm).bind two = _
    rw [weekNum_eq hyear h hweek]
    rfl
  have hG : fmtSwitch loc tm 'G' = some (.number y (4 : ℕ) '0') := by
    show (weekYear tm).bind (fun val => some (Goto.number val 4 '0')) = _
    rw [weekYear_eq hyear h hweek]
    rfl
  have hrun {x : UInt8} (hx : Plain x) {val : ℤ} {width : ℕ} (hwidth : width ≤ 4) (hval : IsLlong val)
      (hswitch : fmtSwitch loc tm (letter x) = some (.number val width '0')) {n : ℕ} (hn : (padded width val).length < n) :
      strftimeL loc tm (depth + 1) n [37, x] = some ⟨(padded width val).length, some (padded width val)⟩ := by
    rw [strftimeL, strftimeLoop_conv hx (strftimeFmt1_number hswitch hwidth hval) (by rwa [List.nil_append])]
    exact strftimeLoop_nil hn
  exact ⟨y, w, hweek, hunique, hbounds.1, hbounds.2, fun n => hrun (by decide : Plain 86) (by decide) hw hV,
    fun n => hrun (by decide : Plain 71) (by decide) hy hG⟩

/-- The third of January 2021 is a Sunday, and the last day of the 53rd week of 2020. -/
theorem strftime_week_53 :
    strftime Locale.c 1 3 "%V" ⟨0, 0, 0, 3, 0, 121, 0, 2, 0, 0, ""⟩ = some ⟨2, some (ascii "53")⟩ ∧
      strftime Locale.c 1 5 "%G" ⟨0, 0, 0, 3, 0, 121, 0, 2, 0, 0, ""⟩ = some ⟨4, some (ascii "2020")⟩ := by
  obtain ⟨y, w, -, hunique, -, -, hV, hG⟩ := strftime_week Locale.c 0 ⟨0, 0, 0, 3, 0, 121, 0, 2, 0, 0, ""⟩
    ⟨2021, 0, 3, by decide, by decide, by decide⟩ (by decide) ⟨rfl, rfl, rfl⟩
  have hweek : Date.IsoWeek ⟨2021, 0, 3, by decide, by decide, by decide⟩ 2020 53 :=
    ⟨⟨2020, 11, 31, by decide, by decide, by decide⟩, rfl, rfl, rfl, rfl⟩
  obtain ⟨rfl, rfl⟩ := hunique _ _ hweek
  have hw : padded 2 53 = ascii "53" := by simp [padded_eq, minus, decimal, Printf.digitsOf, Printf.digitChar, ascii]
  have hy : padded 4 2020 = ascii "2020" := by
    simp [padded_eq, minus, decimal, Printf.digitsOf, Printf.digitChar, ascii]
  rw [hw] at hV
  rw [hy] at hG
  exact ⟨hV 3 (by decide), hG 5 (by decide)⟩

end Leblibc.Time
