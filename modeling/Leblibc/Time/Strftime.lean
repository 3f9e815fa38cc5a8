import Leblibc.Stdio.Printf
import Leblibc.Time.Tm

/-!
# `strftime`

A model of `src/time/strftime.c`, and of the part of `src/locale/langinfo.c` that it uses. Strings are lists of bytes
without the final NUL. Numbers are written by `snprintf`, which is the model of `printf_core`; the texts are much
shorter than the buffer of 100 bytes.

`__strftime_l` and `__strftime_fmt_1` call each other. The depth of these calls is an argument here, and `none` stands
for a stack that is too small for them, as for other undefined behaviour.

## Main definitions

* `Locale`, `nlLanginfo`: the texts of the locale
* `weekNum`: the number of the week
* `fmtSwitch`, `strftimeFmt1`: one conversion
* `parseField`, `store`: the flags and the width of a field
* `strftimeL`, `strftime`
-/

namespace Leblibc.Time

/-- The bytes of a string literal. -/
def ascii (s : String) : List UInt8 := s.toList.map fun c => UInt8.ofNat c.toNat

/-- A byte as it stands in a character constant. -/
def letter (c : UInt8) : Char := Char.ofNat c.toNat

/-! ## The locale -/

/-- What the functions depend on besides their arguments: the machine, the translation `LCTRANS` of the texts of the C
locale, the result of `__tm_to_tzname`, and `tzname`. -/
structure Locale where
  arch : Arch
  lctrans : List UInt8 → List UInt8
  tmToTzname : Tm → List UInt8
  tzname : List UInt8 × List UInt8

/-- The C locale, on a machine of 64 bits. -/
def Locale.c : Locale := ⟨.x86_64, id, fun _ => [], (ascii "UTC", ascii "UTC")⟩

/-- `c_time`. -/
def cTime : List (List UInt8) :=
  ["Sun", "Mon", "Tue", "Wed", "Thu", "Fri", "Sat",
    "Sunday", "Monday", "Tuesday", "Wednesday", "Thursday", "Friday", "Saturday",
    "Jan", "Feb", "Mar", "Apr", "May", "Jun", "Jul", "Aug", "Sep", "Oct", "Nov", "Dec",
    "January", "February", "March", "April", "May", "June", "July", "August", "September", "October", "November",
    "December",
    "AM", "PM", "%a %b %e %T %Y", "%m/%d/%y", "%H:%M:%S", "%I:%M:%S %p", "", "", "%m/%d/%y", "0123456789",
    "%a %b %e %T %Y", "%H:%M:%S"].map ascii

/-- The indices of items of the category `LC_TIME`. -/
def ABDAY_1 : ℕ := 0x0

def DAY_1 : ℕ := 0x7

def ABMON_1 : ℕ := 0xE

def MON_1 : ℕ := 0x1A

def AM_STR : ℕ := 0x26

def PM_STR : ℕ := 0x27

def D_T_FMT : ℕ := 0x28

def D_FMT : ℕ := 0x29

def T_FMT : ℕ := 0x2A

def T_FMT_AMPM : ℕ := 0x2B

/-- `__nl_langinfo_l` for items of the category `LC_TIME`. -/
def nlLanginfo (loc : Locale) (idx : ℕ) : List UInt8 :=
  if idx > 0x31 then []
  else
    let str := cTime.getD idx []
    if str = [] then [] else loc.lctrans str

/-! ## Weeks -/

/-- `is_leap`. -/
def isLeap (y : ℤ) : Option Bool := do
  let y ← if y > 2147483647 - 1900 then int (y - 2000) else some y
  let y ← int (y + 1900)
  some (y.tmod 4 = 0 ∧ (y.tmod 100 ≠ 0 ∨ y.tmod 400 = 0))

/-- The result of arithmetic in `unsigned`. -/
def unsigned (x : ℤ) : ℤ := x % 4294967296

/-- `week_num`. -/
def weekNum (tm : Tm) : Option ℤ := do
  let val := toInt (unsigned (tm.yday + 7 - unsigned (tm.wday + 6) % 7) / 7)
  let val := if unsigned (tm.wday + 371 - tm.yday - 2) % 7 ≤ 2 then val + 1 else val
  if val = 0 then
    -- the last week of the year before, which has 53 if it ends on a Thursday, or on a Friday in a leap year
    let dec31 := unsigned (tm.wday + 7 - tm.yday - 1) % 7
    let leap ← if dec31 = 5 then isLeap (tm.year.tmod 400 - 1) else some false
    some (if dec31 = 4 ∨ (dec31 = 5 ∧ leap) then 53 else 52)
  else if val = 53 then
    let jan1 := unsigned (tm.wday + 371 - tm.yday) % 7
    let leap ← if jan1 = 3 then isLeap tm.year else some false
    some (if jan1 ≠ 4 ∧ (jan1 ≠ 3 ∨ leap = false) then 1 else 53)
  else some val

/-- The number for `g` and `G`, before `g` takes its last two digits. -/
def weekYear (tm : Tm) : Option ℤ := do
  let val := tm.year + 1900
  let n ← if tm.yday < 3 ∨ tm.yday > 360 then weekNum tm else some 0
  some (if tm.yday < 3 ∧ n ≠ 1 then val - 1 else if tm.yday > 360 ∧ n = 1 then val + 1 else val)

/-! ## Conversions -/

/-- `snprintf` into the buffer of 100 bytes. -/
def snprintf (arch : Arch) (fmt : String) (args : List ℤ) : Option (List UInt8) :=
  match Printf.printfCore arch (ascii fmt) args with
  | some (.count _, out) => some out
  | _ => none

/-- Where `__strftime_fmt_1` goes on after its `switch`: at `number`, with `val`, `width` and `def_pad`; at `string`, also
with what is returned directly; at `recu_strftime`; or it returns 0. -/
inductive Goto where
  | number (val : ℤ) (width : ℤ) (defPad : Char)
  | string (s : List UInt8)
  | recu (fmt : List UInt8)
  | null

/-- A number in two digits. -/
def two (val : ℤ) : Option Goto := some (.number val 2 '0')

/-- A name from the locale, or `"-"` if the field is not in its range. -/
def name (loc : Locale) (item : ℕ) (field range : ℤ) : Option Goto :=
  if 0 ≤ field ∧ field < range then some (.string (nlLanginfo loc (item + field.toNat))) else some (.string (ascii "-"))

/-- The `switch` of `__strftime_fmt_1`. -/
def fmtSwitch (loc : Locale) (tm : Tm) (f : Char) : Option Goto :=
  match f with
  | 'a' => name loc ABDAY_1 tm.wday 7
  | 'A' => name loc DAY_1 tm.wday 7
  | 'h' | 'b' => name loc ABMON_1 tm.mon 12
  | 'B' => name loc MON_1 tm.mon 12
  | 'c' => some (.recu (nlLanginfo loc D_T_FMT))
  | 'C' => two ((1900 + tm.year).tdiv 100)
  | 'e' => some (.number tm.mday 2 '_')
  | 'd' => two tm.mday
  | 'D' => some (.recu (ascii "%m/%d/%y"))
  | 'F' => some (.recu (ascii "%Y-%m-%d"))
  | 'g' => do
    let val ← weekYear tm
    two (val.tmod 100)
  | 'G' => do
    let val ← weekYear tm
    some (.number val 4 '0')
  | 'H' => two tm.hour
  | 'I' => two (if tm.hour = 0 then 12 else if tm.hour > 12 then tm.hour - 12 else tm.hour)
  | 'j' => do
    let val ← int (tm.yday + 1)
    some (.number val 3 '0')
  | 'm' => do
    let val ← int (tm.mon + 1)
    two val
  | 'M' => two tm.min
  | 'n' => some (.string (ascii "\n"))
  | 'p' => some (.string (nlLanginfo loc (if tm.hour ≥ 12 then PM_STR else AM_STR)))
  | 'r' => some (.recu (nlLanginfo loc T_FMT_AMPM))
  | 'R' => some (.recu (ascii "%H:%M"))
  | 's' => do
    let t ← tmToSecs tm
    let val ← llong (t - tm.gmtoff)
    some (.number val 1 '0')
  | 'S' => two tm.sec
  | 't' => some (.string (ascii "\t"))
  | 'T' => some (.recu (ascii "%H:%M:%S"))
  | 'u' => some (.number (if tm.wday ≠ 0 then tm.wday else 7) 1 '0')
  | 'U' => two (unsigned (tm.yday + 7 - tm.wday) / 7)
  | 'W' => two (unsigned (tm.yday + 7 - unsigned (tm.wday + 6) % 7) / 7)
  | 'V' => do
    let val ← weekNum tm
    two val
  | 'w' => some (.number tm.wday 1 '0')
  | 'x' => some (.recu (nlLanginfo loc D_FMT))
  | 'X' => some (.recu (nlLanginfo loc T_FMT))
  | 'y' => two (if (tm.year + 1900).tmod 100 < 0 then -(tm.year + 1900).tmod 100 else (tm.year + 1900).tmod 100)
  | 'Y' => do
    let val := tm.year + 1900
    if val ≥ 10000 then
      let s ← snprintf loc.arch "+%lld" [val]
      some (.string s)
    else some (.number val 4 '0')
  | 'z' => do
    if tm.isdst < 0 then some (.string [])
    else
      let s ← snprintf loc.arch "%+.4ld" [tm.gmtoff.tdiv 3600 * 100 + (tm.gmtoff.tmod 3600).tdiv 60]
      some (.string s)
  | 'Z' => some (.string (if tm.isdst < 0 then [] else loc.tmToTzname tm))
  | '%' => some (.string (ascii "%"))
  | _ => some .null

/-- The label `number`. -/
def number (arch : Arch) (val width : ℤ) (pad : Char) : Option (List UInt8) :=
  match pad with
  | '-' => snprintf arch "%lld" [val]
  | '_' => snprintf arch "%*lld" [width, val]
  | _ => snprintf arch "%0*lld" [width, val]

/-- What `__strftime_l` returns, and the string in the buffer, if anything has been stored in it. -/
structure Result where
  ret : ℕ
  s : Option (List UInt8)
  deriving DecidableEq

/-- `__strftime_fmt_1`: the text, or `some none` for a null pointer; `pad` is `none` for 0. `recu` is `__strftime_l` with the
buffer `*s`. -/
def strftimeFmt1 (loc : Locale) (tm : Tm) (recu : List UInt8 → Option Result) (f : Char) (pad : Option Char) :
    Option (Option (List UInt8)) := do
  let g ← fmtSwitch loc tm f
  match g with
  | .number val width defPad => do
    let s ← number loc.arch val width (pad.getD defPad)
    some (some s)
  | .string s => some (some s)
  | .recu fmt => do
    let r ← recu fmt
    if r.ret = 0 then some none else some r.s
  | .null => some none

/-! ## Fields -/

/-- What stands between the `%` and the letter of the conversion, and what follows it. -/
structure Field where
  pad : Option Char
  plus : Bool
  width : ℕ
  letter : Char
  rest : List UInt8

/-- The byte at the front, which may be the NUL. -/
def peek (f : List UInt8) : Char := letter (f.headD 0)

/-- `isdigit`. -/
def isdigit (c : UInt8) : Bool := 48 ≤ c ∧ c ≤ 57

/-- `strtoul(f, &p, 10)` at a digit: the number, and what is at `p`. -/
def strtoul (arch : Arch) (f : List UInt8) : ℕ × List UInt8 :=
  (min ((f.takeWhile isdigit).foldl (fun n c => 10 * n + (c.toNat - 48)) 0) (2 ^ arch.bits - 1), f.dropWhile isdigit)

/-- The flags, the width and the modifier behind a `%`. -/
def parseField (arch : Arch) (f : List UInt8) : Field :=
  let (pad, f) := if peek f = '-' ∨ peek f = '_' ∨ peek f = '0' then (some (peek f), f.tail) else (none, f)
  let (plus, f) := if peek f = '+' then (true, f.tail) else (false, f)
  let (width, p) := if isdigit (f.headD 0) then strtoul arch f else (0, f)
  let width :=
    if peek p = 'C' ∨ peek p = 'F' ∨ peek p = 'G' ∨ peek p = 'Y' then
      if width = 0 ∧ isdigit (f.headD 0) then 1 else width
    else 0
  let f := if peek p = 'E' ∨ peek p = 'O' then p.tail else p
  ⟨pad, plus, width, peek f, f.tail⟩

/-- `for (; *t=='0' && t[1]-'0'<10U; t++, k--);` -/
def dropZeros : List UInt8 → List UInt8
  | c :: d :: t => if letter c = '0' ∧ isdigit d then dropZeros (d :: t) else c :: d :: t
  | t => t

/-- The text without its sign and its leading zeros. -/
def bare (t : List UInt8) : List UInt8 := dropZeros (if peek t = '+' ∨ peek t = '-' then t.tail else t)

/-- The sign for a field with a width: `width` is at least the length of `t`. -/
def fieldSign (tm : Tm) (q : Field) (width : ℕ) (t : List UInt8) : List UInt8 :=
  if tm.year < -1900 then ascii "-"
  else if q.plus ∧ (t.takeWhile isdigit).length + (width - t.length) ≥ (if q.letter = 'C' then 3 else 5) then ascii "+"
  else []

/-- What a conversion stores behind `out`, where the buffer has `n` bytes. -/
def store (tm : Tm) (n : ℕ) (q : Field) (out t : List UInt8) : List UInt8 :=
  if q.width = 0 then (out ++ t).take n
  else
    let t := bare t
    let width := max q.width t.length
    let sign := fieldSign tm q width t
    (out ++ sign ++ List.replicate (width - sign.length - t.length) 48 ++ t).take n

/-! ## The loop -/

/-- What follows the loop: the string is cut, and the result is 0. -/
def noRoom (n : ℕ) (out : List UInt8) : Result := ⟨0, if n = 0 then none else some (out.take (n - 1))⟩

/-- The loop of `__strftime_l`. `out` is what has been stored, and `l` its length. -/
def strftimeLoop (loc : Locale) (tm : Tm) (recu : List UInt8 → Option Result) (n : ℕ) :
    ℕ → List UInt8 → List UInt8 → Option Result
  | 0, _, _ => none
  | fuel + 1, f, out =>
    if out.length < n then
      match f with
      | [] => some ⟨out.length, some out⟩
      | c :: f =>
        if letter c ≠ '%' then strftimeLoop loc tm recu n fuel f (out ++ [c])
        else do
          let q := parseField loc.arch f
          let t ← strftimeFmt1 loc tm recu q.letter q.pad
          match t with
          | none => some (noRoom n out)
          | some t => strftimeLoop loc tm recu n fuel q.rest (store tm n q out t)
    else some (noRoom n out)

/-- `__strftime_l`, where calls may be nested to the given depth. -/
def strftimeL (loc : Locale) (tm : Tm) : ℕ → ℕ → List UInt8 → Option Result
  | 0, _, _ => none
  | depth + 1, n, f => strftimeLoop loc tm (strftimeL loc tm depth 100) n (f.length + 1) f []

/-- `strftime`. -/
def strftime (loc : Locale) (depth n : ℕ) (f : String) (tm : Tm) : Option Result := strftimeL loc tm depth n (ascii f)

end Leblibc.Time
