import Leblibc.Time.TzRules

/-!
# Local times and back

`mktime` inverts `localtime_r` for a zone that is given by rules. The code's argument does not depend on where the
transitions are: `__secs_to_zone` answers with one of two offsets and says which the other one is, so that `mktime` can
take the offset that `tm_isdst` names, whatever the local evaluation of the rules has found. The time is then that of
`localtime_r`, and the rest is the same computation.

## Main results

* `secsToZone_spec`: the search for the year ends, and the answer is one of two
* `mktime_localtimeR`: `mktime` inverts `localtime_r`, and leaves the fields as they are if it fails
-/

namespace Leblibc.Time.Tz

open Leblibc.Lib

/-- The values that a zone can have. An offset in a string is at most 24:59:59, and the default one for daylight saving
time is an hour ahead. -/
structure Zone.Valid (z : Zone) : Prop where
  r0 : z.r0.Valid
  r1 : z.r1.Valid
  timezone : -93599 ≤ z.timezone ∧ z.timezone ≤ 93599
  dstOff : -93599 ≤ z.dstOff ∧ z.dstOff ≤ 93599

/-! ## The year of a time -/

variable {y t : ℤ} {fuel : ℕ} {z : Zone} {tm : Tm} {i : Info}

theorem yearToSecs_fst (hlo : -3000000000 ≤ y) (hhi : y ≤ 3000000000) :
    yearToSecs y = some (86400 * daysBeforeYear (y + 1900), decide (IsLeap (y + 1900))) :=
  yearToSecs_spec hlo hhi

/-- A year has about 31556952 seconds, as the code says. -/
theorem daysBeforeYear_bounds (y : ℤ) :
    31556952 * (y - 70) - 31556952 ≤ 86400 * daysBeforeYear (y + 1900) ∧
      86400 * daysBeforeYear (y + 1900) ≤ 31556952 * (y - 70) + 31556952 := by
  unfold daysBeforeYear
  omega

/-- The first loop ends after `k` turns if the year is not before `y - k`. -/
theorem yearDown_spec (k : ℕ) (hfuel : k < fuel) (hlo : -2900000000 ≤ y - k)
    (hhi : y ≤ 2900000000) (hk : 86400 * daysBeforeYear (y - k + 1900) ≤ t) :
    ∃ y', yearDown t fuel y = some y' ∧ y - k ≤ y' ∧ y' ≤ y := by
  induction k generalizing fuel y with
  | zero =>
    rcases fuel with _ | fuel
    · omega
    rw [Nat.cast_zero, sub_zero] at hk
    refine ⟨y, ?_, by omega, le_refl _⟩
    rw [yearDown, yearToSecs_fst (by omega) (by omega), some_bind, if_neg (by omega)]
  | succ k ih =>
    rcases fuel with _ | fuel
    · omega
    rw [yearDown, yearToSecs_fst (by omega) (by omega), some_bind]
    split
    · have hshift : y - 1 - k = y - (k + 1 : ℕ) := by omega
      obtain ⟨y', hrun, hle, hge⟩ := ih (y := y - 1) (show k < fuel by omega) (by omega) (by omega)
        (by rw [hshift]; exact hk)
      exact ⟨y', hrun, by omega, by omega⟩
    · exact ⟨y, rfl, by omega, le_refl _⟩

/-- The second loop ends after `k` turns if the year is not after `y + k`. -/
theorem yearUp_spec (k : ℕ) (hfuel : k < fuel) (hlo : -2900000000 ≤ y)
    (hhi : y + k ≤ 2900000000) (hk : t ≤ 86400 * daysBeforeYear (y + k + 1 + 1900)) :
    ∃ y', yearUp t fuel y = some y' ∧ y ≤ y' ∧ y' ≤ y + k := by
  induction k generalizing fuel y with
  | zero =>
    rcases fuel with _ | fuel
    · omega
    rw [Nat.cast_zero, add_zero] at hk
    refine ⟨y, ?_, le_refl _, by omega⟩
    rw [yearUp, yearToSecs_fst (by omega) (by omega), some_bind, if_neg (by omega)]
  | succ k ih =>
    rcases fuel with _ | fuel
    · omega
    rw [yearUp, yearToSecs_fst (by omega) (by omega), some_bind]
    split
    · have hshift : y + 1 + k = y + (k + 1 : ℕ) := by omega
      obtain ⟨y', hrun, hle, hge⟩ := ih (y := y + 1) (show k < fuel by omega) (by omega) (by omega)
        (by rw [hshift]; exact hk)
      exact ⟨y', hrun, by omega, by omega⟩
    · exact ⟨y, rfl, le_refl _, by omega⟩

/-- **`__secs_to_zone` answers with one of two offsets.** -/
theorem secsToZone_spec (hz : z.Valid) (hfuel : 8 ≤ fuel)
    (ht : -80000000000000000 ≤ t ∧ t ≤ 80000000000000000) (loc : Bool) :
    ∃ i, secsToZone fuel z t loc = some i ∧ (i = z.std ∨ i = z.dst) := by
  unfold secsToZone
  split
  · exact ⟨_, rfl, Or.inl rfl⟩
  · -- the first guess is off by three years at most
    have hsum := Int.tmod_add_mul_tdiv t 31556952
    have hlt := Int.tmod_lt_of_pos t (show (0 : ℤ) < 31556952 by decide)
    have hgt := Int.lt_tmod_of_pos t (show (0 : ℤ) < 31556952 by decide)
    generalize t.tdiv 31556952 = q at *
    have hbefore := (daysBeforeYear_bounds (q + 70 - (3 : ℕ))).2
    have hafter := (daysBeforeYear_bounds (q + 70 + 3)).1
    obtain ⟨y, hdown, hlo, hhi⟩ := yearDown_spec (t := t) 3 (show 3 < fuel by omega) (y := q + 70) (by omega)
      (by omega) (by omega)
    have hmono := daysBeforeYear_mono (show q + 70 + 3 + 1900 ≤ y + (5 : ℕ) + 1 + 1900 by omega)
    obtain ⟨y', hup, -, -⟩ := yearUp_spec (t := t) 5 (show 5 < fuel by omega) (y := y) (by omega) (by omega)
      (by omega)
    -- then no arithmetic overflows
    obtain ⟨k0, hrule0, hlo0, hhi0, -⟩ := ruleToSecs_spec hz.r0 (isInt_toInt y')
    obtain ⟨k1, hrule1, hlo1, hhi1, -⟩ := ruleToSecs_spec hz.r1 (isInt_toInt y')
    obtain ⟨htime0, htime0'⟩ := hz.r0.time
    obtain ⟨htime1, htime1'⟩ := hz.r1.time
    obtain ⟨hstd, hstd'⟩ := hz.timezone
    obtain ⟨hdst, hdst'⟩ := hz.dstOff
    rw [hdown, some_bind, hup, some_bind, hrule0, some_bind, hrule1,
      some_bind, llong_of_isLlong (by split <;> exact ⟨by omega, by omega⟩), llong_of_isLlong (by split <;> exact ⟨by omega, by omega⟩)]
    exact ⟨_, rfl, (ite_eq_or_eq _ _ _).symm⟩

/-! ## Fields that can be given -/

/-- The fields are of type `int`, and the day before `tm_mday` is, too. -/
structure Tm.Ints (tm : Tm) : Prop where
  sec : IsInt tm.sec
  min : IsInt tm.min
  hour : IsInt tm.hour
  mday : IsInt (tm.mday - 1)
  mon : IsInt tm.mon
  year : IsInt tm.year

theorem yearMonth_spec (h : Tm.Ints tm) :
    (-2400000000 ≤ (yearMonth tm).1 ∧ (yearMonth tm).1 ≤ 2400000000) ∧
      0 ≤ (yearMonth tm).2 ∧ (yearMonth tm).2 < 12 := by
  obtain ⟨hylo, hyhi⟩ := h.year
  obtain ⟨hmlo, hmhi⟩ := h.mon
  have hsum := Int.tmod_add_mul_tdiv tm.mon 12
  have hlt := Int.tmod_lt_of_pos tm.mon (show (0 : ℤ) < 12 by decide)
  have hgt := Int.lt_tmod_of_pos tm.mon (show (0 : ℤ) < 12 by decide)
  unfold yearMonth
  split
  · dsimp only
    split
    · omega
    · omega
  · omega

theorem tmToSecs_total (h : Tm.Ints tm) :
    ∃ t, tmToSecs tm = some t ∧ -79000000000000000 ≤ t ∧ t ≤ 79000000000000000 := by
  obtain ⟨⟨hylo, hyhi⟩, hmlo, hmhi⟩ := yearMonth_spec h
  obtain ⟨hslo, hshi⟩ := h.sec
  obtain ⟨hminlo, hminhi⟩ := h.min
  obtain ⟨hhlo, hhhi⟩ := h.hour
  obtain ⟨hdlo, hdhi⟩ := h.mday
  unfold tmToSecs
  generalize hym : yearMonth tm = ym at *
  obtain ⟨year, month⟩ := ym
  dsimp only at *
  have hm : month.toNat < 12 := by omega
  have hfirst := daysBeforeMonth_mono (year + 1900) (Nat.zero_le month.toNat)
  have hlast := daysBeforeMonth_mono (year + 1900) hm.le
  have hyear : yearDays (year + 1900) ≤ 366 := by
    unfold yearDays
    split <;> decide
  have hstart := daysBeforeYear_bounds year
  rw [daysBeforeMonth_twelve] at hlast
  rw [daysBeforeMonth] at hfirst
  rw [yearToSecs_fst (by omega) (by omega), some_bind]
  rw [monthToSecs_spec (year + 1900) hm, some_bind,
    llong_of_isLlong ⟨by omega, by omega⟩, some_bind, int_of_isInt ⟨by omega, by omega⟩, some_bind,
    llong_of_isLlong ⟨by omega, by omega⟩, some_bind, llong_of_isLlong ⟨by omega, by omega⟩, some_bind,
    llong_of_isLlong ⟨by omega, by omega⟩, some_bind, llong_of_isLlong ⟨by omega, by omega⟩]
  exact ⟨_, rfl, by omega, by omega⟩

/-! ## The functions

Both functions depend on the answer of `__secs_to_zone`, which `secsToZone_spec` limits to two. -/

theorem Zone.Valid.offset_bounds (hz : z.Valid) (hi : i = z.std ∨ i = z.dst) :
    (-93599 ≤ i.offset ∧ i.offset ≤ 93599) ∧ -93599 ≤ i.oppoff ∧ i.oppoff ≤ 93599 := by
  obtain ⟨hstd, hstd'⟩ := hz.timezone
  obtain ⟨hdst, hdst'⟩ := hz.dstOff
  rcases hi with rfl | rfl <;> (simp only [Zone.std, Zone.dst]; omega)

/-- The time that `mktime` computes from the answer `i` to the local time is the one with the offset of `j`, if
`tm_isdst` is that of `j`. -/
theorem offset_of_isdst {j : Info} (hi : i = z.std ∨ i = z.dst) (hj : j = z.std ∨ j = z.dst) (t : ℤ) :
    (if j.isdst ≥ 0 ∧ i.isdst ≠ j.isdst then t - (i.oppoff - i.offset) else t) - i.offset = t - j.offset := by
  -- if the answers differ, the opposite offset of one is the offset of the other
  have hopp : z.std.oppoff = z.dst.offset ∧ z.dst.oppoff = z.std.offset := ⟨rfl, rfl⟩
  rcases hi with rfl | rfl <;> rcases hj with rfl | rfl
  · rw [if_neg fun h => h.2 rfl]
  · rw [if_pos ⟨show (0 : ℤ) ≤ 1 by decide, show (0 : ℤ) ≠ 1 by decide⟩]
    omega
  · rw [if_pos ⟨show (0 : ℤ) ≤ 0 by decide, show (1 : ℤ) ≠ 0 by decide⟩]
    omega
  · rw [if_neg fun h => h.2 rfl]

theorem localtimeR_spec (hz : z.Valid) (hfuel : 8 ≤ fuel) (t : ℤ) (before : Tm) :
    localtimeR fuel z t before = some none ∨
      (-80000000000000000 ≤ t ∧ t ≤ 80000000000000000) ∧ ∃ i, secsToZone fuel z t false = some i ∧
        (i = z.std ∨ i = z.dst) ∧ ∃ j : Instant, j.seconds = t + i.offset ∧
          localtimeR fuel z t before =
            some (if IsInt (j.year - 1900) then some ((setZone i before).show j) else none) := by
  by_cases hrange : t < -2147483648 * 31622400 ∨ t > 2147483647 * 31622400
  · exact Or.inl (if_pos hrange)
  · have ht : -80000000000000000 ≤ t ∧ t ≤ 80000000000000000 := by omega
    obtain ⟨i, hzone, hi⟩ := secsToZone_spec hz hfuel ht false
    obtain ⟨⟨hlo, hhi⟩, -⟩ := hz.offset_bounds hi
    obtain ⟨j, hj, hrun⟩ := secsToTm_spec (t + i.offset) (setZone i before)
    refine Or.inr ⟨ht, i, hzone, hi, j, hj, ?_⟩
    unfold localtimeR
    rw [if_neg hrange, hzone, some_bind, llong_of_isLlong ⟨by omega, by omega⟩,
      some_bind, hrun]

/-- The end of `mktime` makes the fields of the time as `localtime_r` does. -/
theorem mktimeEnd_spec (hz : z.Valid) (junk tm : Tm)
    (ht : -80000000000000000 ≤ t ∧ t ≤ 80000000000000000) (hzone : secsToZone fuel z t false = some i)
    (hi : i = z.std ∨ i = z.dst) {j : Instant} (hj : j.seconds = t + i.offset) :
    mktimeEnd fuel z junk tm t =
      some (if IsInt (j.year - 1900) then (some t, (setZone i junk).show j) else (none, tm)) := by
  obtain ⟨⟨hlo, hhi⟩, -⟩ := hz.offset_bounds hi
  obtain ⟨j', hj', hrun⟩ := secsToTm_spec (t + i.offset) (setZone i junk)
  obtain rfl : j' = j := Instant.seconds_injective (hj'.trans hj.symm)
  unfold mktimeEnd
  rw [hzone, some_bind, llong_of_isLlong ⟨by omega, by omega⟩, Option.bind_eq_bind,
    Option.bind_some, hrun, some_bind]
  by_cases hyear : IsInt (j'.year - 1900)
  · rw [if_pos hyear, if_pos hyear]
  · rw [if_neg hyear, if_neg hyear]

theorem mktimeEnd_fails {junk tm' : Tm} (h : mktimeEnd fuel z junk tm t = some (none, tm')) : tm' = tm := by
  obtain ⟨i, -, h⟩ := Option.bind_eq_some_iff.mp h
  obtain ⟨s, -, h⟩ := Option.bind_eq_some_iff.mp h
  obtain ⟨r, -, h⟩ := Option.bind_eq_some_iff.mp h
  cases r with
  | none =>
    cases h
    rfl
  | some new => cases h

theorem seconds_bounds {j : Instant} (h : IsInt (j.year - 1900)) :
    -79000000000000000 ≤ j.seconds ∧ j.seconds ≤ 79000000000000000 := by
  by_contra hout
  exact not_isInt_of_range (by omega) h

theorem mktime_eq (hz : z.Valid) (hfuel : 8 ≤ fuel) (junk : Tm) {s : ℤ}
    (hs : tmToSecs tm = some s) (hrange : -79900000000000000 ≤ s ∧ s ≤ 79900000000000000) :
    ∃ i, (i = z.std ∨ i = z.dst) ∧ mktime fuel z junk tm = mktimeEnd fuel z junk tm
      ((if tm.isdst ≥ 0 ∧ i.isdst ≠ tm.isdst then s - (i.oppoff - i.offset) else s) - i.offset) := by
  obtain ⟨i, hzone, hi⟩ := secsToZone_spec hz hfuel (show -80000000000000000 ≤ s ∧ s ≤ 80000000000000000 by omega) true
  obtain ⟨⟨hlo, hhi⟩, hlo', hhi'⟩ := hz.offset_bounds hi
  refine ⟨i, hi, ?_⟩
  unfold mktime
  rw [hs, some_bind, hzone, some_bind,
    llong_of_isLlong (by split <;> exact ⟨by omega, by omega⟩), some_bind,
    llong_of_isLlong (by split <;> exact ⟨by omega, by omega⟩), some_bind]

/-- **`mktime` inverts `localtime_r`.** For every zone given by rules and every time for which `localtime_r` succeeds,
`mktime` returns the time and leaves all fields as they were. Both functions return; and if `mktime` fails, the fields
are unchanged. -/
theorem mktime_localtimeR {z : Zone} (hz : z.Valid) {fuel : ℕ} (hfuel : 8 ≤ fuel) :
    (∀ t before tm, localtimeR fuel z t before = some (some tm) →
      ∀ junk, mktime fuel z junk tm = some (some t, tm)) ∧
    (∀ t before, localtimeR fuel z t before ≠ none) ∧
    (∀ junk tm, Tm.Ints tm → mktime fuel z junk tm ≠ none) ∧
    (∀ junk tm tm', mktime fuel z junk tm = some (none, tm') → tm' = tm) := by
  refine ⟨?_, ?_, ?_, ?_⟩
  · intro t before tm hlocal junk
    rcases localtimeR_spec hz hfuel t before with hfail | ⟨ht, i, hzone, hi, j, hj, hrun⟩
    · rw [hfail] at hlocal
      cases hlocal
    · rw [hrun] at hlocal
      split_ifs at hlocal with hyear
      · rw [Option.some_inj, Option.some_inj] at hlocal
        subst hlocal
        -- the seconds of the fields are the local time
        have hsecs := tmToSecs_show (setZone i before) hyear
        rw [hj] at hsecs
        have hbounds := seconds_bounds hyear
        obtain ⟨i', hi', hmk⟩ := mktime_eq hz hfuel junk hsecs (by omega)
        -- the offset of `tm_isdst` is taken from them
        have hback := offset_of_isdst hi' hi (t + i.offset)
        rw [add_sub_cancel_right] at hback
        rw [hmk, show ((setZone i before).show j).isdst = i.isdst from rfl, hback,
          mktimeEnd_spec hz junk _ ht hzone hi hj, if_pos hyear]
        rfl
      · cases hlocal
  · intro t before hnone
    rcases localtimeR_spec hz hfuel t before with hfail | ⟨-, i, -, -, j, -, hrun⟩
    · rw [hfail] at hnone
      cases hnone
    · rw [hrun] at hnone
      cases hnone
  · intro junk tm hints hnone
    obtain ⟨s, hs, hlo, hhi⟩ := tmToSecs_total hints
    obtain ⟨i, hi, hmk⟩ := mktime_eq hz hfuel junk hs (by omega)
    obtain ⟨⟨holo, hohi⟩, holo', hohi'⟩ := hz.offset_bounds hi
    rw [hmk] at hnone
    generalize hu : (if tm.isdst ≥ 0 ∧ i.isdst ≠ tm.isdst then s - (i.oppoff - i.offset) else s) - i.offset = u at hnone
    have hrange : -80000000000000000 ≤ u ∧ u ≤ 80000000000000000 := by
      rw [← hu]
      split <;> omega
    obtain ⟨i', hzone, hi'⟩ := secsToZone_spec hz hfuel hrange false
    obtain ⟨j, hj⟩ := Instant.exists_seconds (u + i'.offset)
    rw [mktimeEnd_spec hz junk tm hrange hzone hi' hj] at hnone
    cases hnone
  · intro junk tm tm' hfail
    obtain ⟨s, -, hfail⟩ := Option.bind_eq_some_iff.mp hfail
    obtain ⟨i, -, hfail⟩ := Option.bind_eq_some_iff.mp hfail
    obtain ⟨s', -, hfail⟩ := Option.bind_eq_some_iff.mp hfail
    obtain ⟨u, -, hfail⟩ := Option.bind_eq_some_iff.mp hfail
    exact mktimeEnd_fails hfail

/-- Central Europe, in the hour that is repeated in October of 2024. -/
theorem mktime_localtimeR_repeated_hour :
    mktime 8 ⟨true, -3600, -7200, ⟨.M, 3, 5, 0, 7200⟩, ⟨.M, 10, 5, 0, 10800⟩, "CET", "CEST"⟩
        ⟨0, 0, 0, 0, 0, 0, 0, 0, 0, 0, ""⟩ ⟨0, 30, 2, 27, 9, 124, 0, 300, 0, 3600, "CET"⟩ =
      some (some 1729992600, ⟨0, 30, 2, 27, 9, 124, 0, 300, 0, 3600, "CET"⟩) := by
  refine (mktime_localtimeR
    ⟨⟨by decide, by decide, by decide, by decide⟩, ⟨by decide, by decide, by decide, by decide⟩, by decide, by decide⟩
    (le_refl 8)).1 1729992600 ⟨0, 0, 0, 0, 0, 0, 0, 0, 0, 0, ""⟩ _ ?_ _
  decide

end Leblibc.Time.Tz
