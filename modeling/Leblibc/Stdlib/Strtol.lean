import Leblibc.Base.Machine

/-!
# Numbers from strings

A model of `strtol`, `strtoul`, `strtoll` and `strtoull` in `src/stdlib/strtol.c`, with `__intscan` in
`src/internal/intscan.c` and the macros of `src/internal/shgetc.h` that it reads a string with. The string is read
through the fields of a `FILE` that `sh_fromstring` sets: `buf` is the start of the string, and with `rend` behind
all memory no end is met but the NUL. A read behind the NUL is `none`, and so is a loop that does not end.

## Main definitions

* `Scan`: the fields of the `FILE`; `shgetc`, `shunget`, `shlim`, `Scan.count`: the macros
* `scanLoop`: the form of all loops of `__intscan`
* `sign`, `radix`, `accumulate`, `discard`, `finish`: the parts of `__intscan`
* `intscan`, `strtox`: `__intscan` and `strtox`
* `strtoull`, `strtoll`, `strtoul`, `strtol`: the functions
-/

namespace Leblibc.Strtol

/-! ## Reading a string -/

/-- The fields of a `FILE` that reads a string, with `rpos` as offset from `buf`. -/
structure Scan where
  rpos : ℕ
  shcnt : ℤ
  shlim : ℤ

/-- The byte of a string at an offset, where the NUL counts. -/
def byte (s : List UInt8) (i : ℕ) : UInt8 := (s ++ [0]).getD i 0

/-- `shgetc`. -/
def shgetc (s : List UInt8) (f : Scan) : Option (UInt8 × Scan) :=
  if f.rpos ≤ s.length then some (byte s f.rpos, ⟨f.rpos + 1, f.shcnt, f.shlim⟩) else none

/-- `shunget`. -/
def shunget (f : Scan) : Scan := if f.shlim ≥ 0 then ⟨f.rpos - 1, f.shcnt, f.shlim⟩ else f

/-- `shlim`. -/
def shlim (f : Scan) (lim : ℤ) : Scan := ⟨f.rpos, -f.rpos, lim⟩

/-- `shcnt`. -/
def Scan.count (f : Scan) : ℤ := f.shcnt + f.rpos

/-- A loop that takes the byte `c` into `y` as long as `step` says how, and reads the next one. -/
def scanLoop (s : List UInt8) (step : ℕ → UInt8 → Option ℕ) : ℕ → ℕ → UInt8 → Scan → Option (ℕ × UInt8 × Scan)
  | 0, _, _, _ => none
  | fuel + 1, y, c, f =>
    match step y c with
    | none => some (y, c, f)
    | some y' => (shgetc s f).bind fun r => scanLoop s step fuel y' r.1 r.2

/-! ## Bytes -/

/-- `isspace`. -/
def isspace (c : UInt8) : Bool := c = 32 ∨ (c.toNat + 2 ^ 32 - 9) % 2 ^ 32 < 5

/-- `val[c]`: the table has the digits, the letters of both cases, and `-1` for all other bytes. -/
def val (c : UInt8) : ℕ :=
  if 48 ≤ c.toNat ∧ c.toNat ≤ 57 then c.toNat - 48
  else if 65 ≤ c.toNat ∧ c.toNat ≤ 90 then c.toNat - 55
  else if 97 ≤ c.toNat ∧ c.toNat ≤ 122 then c.toNat - 87
  else 255

/-- `c-'0'` where it is compared with an `unsigned`. -/
def dec (c : UInt8) : ℕ := (c.toNat + 2 ^ 32 - 48) % 2 ^ 32

/-! ## `__intscan` -/

/-- `UINT_MAX`. -/
def UINT_MAX : ℕ := 2 ^ 32 - 1

/-- `ULLONG_MAX`. -/
def ULLONG_MAX : ℕ := 2 ^ 64 - 1

/-- The values of `errno` that a call may set. -/
inductive Errno where
  | EINVAL
  | ERANGE
  deriving DecidableEq

/-- What `__intscan` leaves: its result, what it set `errno` to, and the `FILE`. -/
structure Scanned where
  value : ℕ
  errno : Option Errno
  f : Scan

/-- The loop over spaces. -/
def skipSpace (s : List UInt8) (f : Scan) : Option (UInt8 × Scan) :=
  (shgetc s f).bind fun r =>
    (scanLoop s (fun y c => if isspace c then some y else none) (s.length + 1) 0 r.1 r.2).map Prod.snd

/-- The sign: `neg`, and what has been read behind it. -/
def sign (s : List UInt8) (c : UInt8) (f : Scan) : Option (Bool × UInt8 × Scan) :=
  if c = 43 ∨ c = 45 then (shgetc s f).map fun r => (decide (c = 45), r) else some (false, c, f)

/-- The choice of the base, and a prefix of the number that tells it. The error is a return. -/
def radix (s : List UInt8) (base : ℕ) (pok : Bool) (c : UInt8) (f : Scan) :
    Option (Except Scanned (ℕ × UInt8 × Scan)) :=
  if (base = 0 ∨ base = 16) ∧ c = 48 then
    (shgetc s f).bind fun r =>
      if r.1 ||| 32 = 120 then
        (shgetc s r.2).map fun r =>
          if val r.1 ≥ 16 then
            .error ⟨0, none, if pok then shunget (shunget r.2) else shlim (shunget r.2) 0⟩
          else .ok (16, r)
      else if base = 0 then some (.ok (8, r))
      else some (.ok (base, r))
  else
    let base := if base = 0 then 10 else base
    if val c ≥ base then some (.error ⟨0, some .EINVAL, shlim (shunget f) 0⟩) else some (.ok (base, c, f))

/-- `bs`. -/
def bs (base : ℕ) : ℕ := [0, 1, 2, 4, 7, 3, 6, 5].getD ((23 * base) >>> 5 &&& 7) 0

/-- The step of a loop in the first of its branches that applies: for the base 10, for a power of two, and for any
other base, in `unsigned`. -/
def stepX (base : ℕ) (x : ℕ) (c : UInt8) : Option ℕ :=
  if base = 10 then
    if dec c < 10 ∧ x ≤ UINT_MAX / 10 - 1 then some ((x * 10 + dec c) % 2 ^ 32) else none
  else if base &&& (base - 1) = 0 then
    if val c < base ∧ x ≤ UINT_MAX / 32 then some ((x <<< bs base ||| val c) % 2 ^ 32) else none
  else
    if val c < base ∧ x ≤ UINT_MAX / 36 - 1 then some ((x * base + val c) % 2 ^ 32) else none

/-- The same in `unsigned long long`. -/
def stepY (base : ℕ) (y : ℕ) (c : UInt8) : Option ℕ :=
  if base = 10 then
    if dec c < 10 ∧ y ≤ ULLONG_MAX / 10 ∧ 10 * y % 2 ^ 64 ≤ ULLONG_MAX - dec c then
      some ((y * 10 + dec c) % 2 ^ 64)
    else none
  else if base &&& (base - 1) = 0 then
    if val c < base ∧ y ≤ ULLONG_MAX >>> bs base then some ((y <<< bs base ||| val c) % 2 ^ 64) else none
  else
    if val c < base ∧ y ≤ ULLONG_MAX / base ∧ base * y % 2 ^ 64 ≤ ULLONG_MAX - val c then
      some ((y * base + val c) % 2 ^ 64)
    else none

/-- The two loops over digits. -/
def accumulate (s : List UInt8) (base : ℕ) (c : UInt8) (f : Scan) : Option (ℕ × UInt8 × Scan) :=
  (scanLoop s (stepX base) (s.length + 1) 0 c f).bind fun r =>
    scanLoop s (stepY base) (s.length + 1) r.1 r.2.1 r.2.2

/-- What has been found before `done`: `y`, `neg`, `errno` and the `FILE`. -/
structure Found where
  y : ℕ
  neg : Bool
  errno : Option Errno
  f : Scan

/-- The digits that do not fit. -/
def discard (s : List UInt8) (base : ℕ) (neg : Bool) (lim y : ℕ) (c : UInt8) (f : Scan) : Option Found :=
  if base = 10 ∧ dec c ≥ 10 then some ⟨y, neg, none, f⟩
  else if val c < base then
    (scanLoop s (fun y c => if val c < base then some y else none) (s.length + 1) 0 c f).map fun r =>
      ⟨lim, if lim % 2 = 1 then false else neg, some .ERANGE, r.2.2⟩
  else some ⟨y, neg, none, f⟩

/-- `(y^neg)-neg`, where `neg` is 0 or -1. -/
def negate (y : ℕ) (neg : Bool) : ℕ :=
  let m := if neg then 2 ^ 64 - 1 else 0
  ((y ^^^ m) + 2 ^ 64 - m) % 2 ^ 64

/-- What follows `done`. -/
def finish (lim : ℕ) (q : Found) : Scanned :=
  if q.y ≥ lim then
    if lim % 2 = 0 ∧ q.neg = false then ⟨(lim + 2 ^ 64 - 1) % 2 ^ 64, some .ERANGE, shunget q.f⟩
    else if q.y > lim then ⟨lim, some .ERANGE, shunget q.f⟩
    else ⟨negate q.y q.neg, q.errno, shunget q.f⟩
  else ⟨negate q.y q.neg, q.errno, shunget q.f⟩

/-- `__intscan`. -/
def intscan (s : List UInt8) (f : Scan) (base : ℕ) (pok : Bool) (lim : ℕ) : Option Scanned :=
  if base > 36 ∨ base = 1 then some ⟨0, some .EINVAL, f⟩
  else
    (skipSpace s f).bind fun r =>
      (sign s r.1 r.2).bind fun n =>
        (radix s base pok n.2.1 n.2.2).bind fun
          | .error q => some q
          | .ok b =>
            (accumulate s b.1 b.2.1 b.2.2).bind fun a =>
              (discard s b.1 n.1 lim a.1 a.2.1 a.2.2).map (finish lim)

/-! ## The functions -/

/-- The result of a call: the number, where `*endptr` points to, and what `errno` was set to. -/
structure Ret where
  value : ℤ
  endptr : ℤ
  errno : Option Errno
  deriving DecidableEq

/-- `strtox`, with the result converted to the type of the function. -/
def strtox (s : List UInt8) (base : ℤ) (lim : ℕ) (conv : ℕ → ℤ) : Option Ret :=
  (intscan s (shlim ⟨0, 0, 0⟩ 0) (base % 2 ^ 32).toNat true lim).map fun q => ⟨conv q.value, q.f.count, q.errno⟩

/-- `strtoull`. -/
def strtoull (s : List UInt8) (base : ℤ) : Option Ret := strtox s base ULLONG_MAX (fun y => (y % 2 ^ 64 : ℕ))

/-- `strtoll`, where `LLONG_MIN` is converted to `unsigned long long`. -/
def strtoll (s : List UInt8) (base : ℤ) : Option Ret := strtox s base (2 ^ 63) (fun y => (y : ℤ).bmod (2 ^ 64))

/-- `strtoul`. -/
def strtoul (arch : Arch) (s : List UInt8) (base : ℤ) : Option Ret :=
  strtox s base (2 ^ arch.bits - 1) (fun y => (y % 2 ^ arch.bits : ℕ))

/-- `strtol`. -/
def strtol (arch : Arch) (s : List UInt8) (base : ℤ) : Option Ret :=
  strtox s base (2 ^ (arch.bits - 1)) (fun y => (y : ℤ).bmod (2 ^ arch.bits))

end Leblibc.Strtol
