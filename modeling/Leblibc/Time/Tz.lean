import Leblibc.Time.Tm

/-!
# Time zones by rules

A model of `rule_to_secs` and `__secs_to_zone` of `src/time/__tz.c`, for a zone that is given by rules and not by a
file, and of `localtime_r.c` and `mktime.c`. What `do_tzset` reads from the string `TZ` is the `Zone`.

As in `Tm`, arithmetic that overflows is `none`, and so is a month outside of the table. The two loops that look for the
year have a bound on their turns.

## Main definitions

* `Rule`, `Zone`: the variables that `do_tzset` sets
* `ruleToSecs`: `rule_to_secs`
* `secsToZone`: `__secs_to_zone`
* `localtimeR`, `mktime`: the functions
-/

namespace Leblibc.Time.Tz

/-- The letter of a rule, `rule[0]`: `M`, `J`, or 0. -/
inductive RuleKind where
  | M
  | J
  | zero
  deriving DecidableEq, Repr

/-- `int rule[5]`. -/
structure Rule where
  kind : RuleKind
  r1 : ℤ
  r2 : ℤ
  r3 : ℤ
  time : ℤ
  deriving DecidableEq, Repr

/-- What `do_tzset` has read: `__daylight`, `__timezone`, `dst_off`, `r0`, `r1` and `__tzname`. -/
structure Zone where
  daylight : Bool
  timezone : ℤ
  dstOff : ℤ
  r0 : Rule
  r1 : Rule
  stdName : String
  dstName : String

/-! ## Rules -/

/-- `days_in_month`. -/
def daysInMonth (m : ℤ) (isLeap : Bool) : ℤ :=
  if m = 2 then 28 + (if isLeap then 1 else 0) else 30 + (0xad5 >>> (m - 1).toNat &&& 1 : ℕ)

/-- `rule_to_secs` for a rule with a month, where `t` is the start of the year. -/
def monthRule (rule : Rule) (t : ℤ) (isLeap : Bool) : Option ℤ :=
  let m := rule.r1
  let n := rule.r2
  let d := rule.r3
  if m < 1 then none
  else do
    let s ← monthToSecs (m - 1).toNat isLeap
    let t ← llong (t + s)
    let u ← llong (t + 4 * 86400)
    let wday := (toInt (u.tmod (7 * 86400))).tdiv 86400
    let days ← int (d - wday)
    let days := if days < 0 then days + 7 else days
    let n := if n = 5 ∧ days + 28 ≥ daysInMonth m isLeap then 4 else n
    let x ← int (86400 * (days + 7 * (n - 1)))
    llong (t + x)

/-- `rule_to_secs` for a rule without a month, where `t` is the start of the year. -/
def dayRule (rule : Rule) (t : ℤ) (isLeap : Bool) : Option ℤ := do
  let x := rule.r1
  let x ← int (if rule.kind = .J ∧ (x < 60 ∨ isLeap = false) then x - 1 else x)
  let x ← int (86400 * x)
  llong (t + x)

/-- The two branches of `rule_to_secs`. -/
def ruleDay (rule : Rule) (t : ℤ) (isLeap : Bool) : Option ℤ :=
  if rule.kind = .M then monthRule rule t isLeap else dayRule rule t isLeap

/-- `rule_to_secs`. -/
def ruleToSecs (rule : Rule) (year : ℤ) : Option ℤ := do
  let y ← yearToSecs year
  let t ← ruleDay rule y.1 y.2
  llong (t + rule.time)

/-! ## Zones -/

/-- What `__secs_to_zone` stores: `*isdst`, `*offset`, `*oppoff` and `*zonename`. -/
structure Info where
  isdst : ℤ
  offset : ℤ
  oppoff : ℤ
  zonename : String

/-- The label `std`. -/
def Zone.std (z : Zone) : Info := ⟨0, -z.timezone, -z.dstOff, z.stdName⟩

/-- The label `dst`. -/
def Zone.dst (z : Zone) : Info := ⟨1, -z.dstOff, -z.timezone, z.dstName⟩

/-- `while (__year_to_secs(y, 0) > t) y--;` -/
def yearDown (t : ℤ) : ℕ → ℤ → Option ℤ
  | 0, _ => none
  | fuel + 1, y => do
    let r ← yearToSecs y
    if r.1 > t then yearDown t fuel (y - 1) else some y

/-- `while (__year_to_secs(y+1, 0) < t) y++;` -/
def yearUp (t : ℤ) : ℕ → ℤ → Option ℤ
  | 0, _ => none
  | fuel + 1, y => do
    let r ← yearToSecs (y + 1)
    if r.1 < t then yearUp t fuel (y + 1) else some y

/-- The comparisons at the end of `__secs_to_zone`: whether daylight saving time is in force. -/
def isDst (t t0 t1 : ℤ) : Bool := if t0 < t1 then t ≥ t0 ∧ t < t1 else ¬(t ≥ t1 ∧ t < t0)

/-- `__secs_to_zone`; `loc` is `local`. -/
def secsToZone (fuel : ℕ) (z : Zone) (t : ℤ) (loc : Bool) : Option Info :=
  if z.daylight = false then some z.std
  else do
    let y ← yearDown t fuel (t.tdiv 31556952 + 70)
    let y ← yearUp t fuel y
    let t0 ← ruleToSecs z.r0 (toInt y)
    let t1 ← ruleToSecs z.r1 (toInt y)
    let t0 ← llong (t0 + if loc then 0 else z.timezone)
    let t1 ← llong (t1 + if loc then 0 else z.dstOff)
    some (if isDst t t0 t1 then z.dst else z.std)

/-! ## The functions -/

/-- The fields that are set from `__secs_to_zone`. -/
def setZone (i : Info) (tm : Tm) : Tm := { tm with isdst := i.isdst, gmtoff := i.offset, zone := i.zonename }

/-- `__localtime_r`: the fields, or `some none` for a failure; `tm` is what is in the struct before. -/
def localtimeR (fuel : ℕ) (z : Zone) (t : ℤ) (tm : Tm) : Option (Option Tm) :=
  if t < -2147483648 * 31622400 ∨ t > 2147483647 * 31622400 then some none
  else do
    let i ← secsToZone fuel z t false
    let s ← llong (t + i.offset)
    secsToTm s (setZone i tm)

/-- The end of `mktime`, for the time `t`: the result, `none` for `-1` with `EOVERFLOW`, and the fields left. `time_t`
is `long long`, so that `(time_t)t != t` is never true. -/
def mktimeEnd (fuel : ℕ) (z : Zone) (junk tm : Tm) (t : ℤ) : Option (Option ℤ × Tm) := do
  let i ← secsToZone fuel z t false
  let s ← llong (t + i.offset)
  let r ← secsToTm s (setZone i junk)
  match r with
  | none => some (none, tm)
  | some new => some (some t, new)

/-- `mktime`; `junk` is what is in `new` before. -/
def mktime (fuel : ℕ) (z : Zone) (junk tm : Tm) : Option (Option ℤ × Tm) := do
  let t ← tmToSecs tm
  let i ← secsToZone fuel z t true
  let t ← llong (if tm.isdst ≥ 0 ∧ i.isdst ≠ tm.isdst then t - (i.oppoff - i.offset) else t)
  let t ← llong (t - i.offset)
  mktimeEnd fuel z junk tm t

end Leblibc.Time.Tz
