import Leblibc.Base.Machine

/-!
# Formatted output of integers

A model of `printf_core` in `src/stdio/vfprintf.c`, with `pad`, `fmt_x`, `fmt_o`, `fmt_u` and `getint`, for
formats whose conversions are `d`, `i`, `u`, `o`, `x` and `X`. The arguments stand in the order in which
they are passed, without positions (`%1$d`). What the model gives is what is handed to `out`, with the result:
a count, or an error; the stream takes every byte, so that `ferror` stays clear. Undefined behaviour is `none`,
and so is a write below the start of `buf`.

`fl` is the flag word of the source, and the tests on it are those of the source.

## Main definitions

* `pad`: `pad`, as the bytes that it writes
* `fmtX`, `fmtO`, `fmtU`: the digits of a number, written downwards from the end of `buf`
* `getint`, `flagLoop`, `parseWidth`, `parsePrec`, `lengthLoop`: the parts of a conversion specification
* `ifmt`, `emit`: the cases of the integer conversions, and the output after the `switch`
* `printfLoop`, `printfCore`: the loop of `printf_core`, and the function
-/

namespace Leblibc.Printf

/-- `INT_MAX`. -/
def INT_MAX : ℤ := 2147483647

/-- `UINTMAX_MAX + 1`. -/
def uintmaxSize : ℕ := 18446744073709551616

/-- `sizeof buf`. -/
def bufSize : ℕ := 24

/-! ## Flags -/

/-- `ALT_FORM`. -/
def ALT_FORM : BitVec 32 := BitVec.twoPow 32 3

/-- `ZERO_PAD`. -/
def ZERO_PAD : BitVec 32 := BitVec.twoPow 32 16

/-- `LEFT_ADJ`. -/
def LEFT_ADJ : BitVec 32 := BitVec.twoPow 32 13

/-- `PAD_POS`. -/
def PAD_POS : BitVec 32 := BitVec.twoPow 32 0

/-- `MARK_POS`. -/
def MARK_POS : BitVec 32 := BitVec.twoPow 32 11

/-- `GROUPED`. -/
def GROUPED : BitVec 32 := BitVec.twoPow 32 7

/-- `FLAGMASK`. -/
def FLAGMASK : BitVec 32 := ALT_FORM ||| ZERO_PAD ||| LEFT_ADJ ||| PAD_POS ||| MARK_POS ||| GROUPED

/-- A test of the flag word. -/
def has (fl m : BitVec 32) : Bool := fl &&& m ≠ 0#32

/-! ## Output -/

/-- The loop of `pad` and the call of `out` after it. -/
def padLoop (c : UInt8) : ℕ → ℕ → List UInt8
  | 0, l => List.replicate l c
  | fuel + 1, l =>
    if l ≥ 256 then List.replicate 256 c ++ padLoop c fuel (l - 256) else List.replicate l c

/-- `pad`. -/
def pad (c : UInt8) (w l : ℤ) (fl : BitVec 32) : List UInt8 :=
  if has fl (LEFT_ADJ ||| ZERO_PAD) ∨ l ≥ w then [] else padLoop c (w - l).toNat (w - l).toNat

/-- `xdigits`. -/
def xdigits : List UInt8 := [48, 49, 50, 51, 52, 53, 54, 55, 56, 57, 65, 66, 67, 68, 69, 70]

/-- `fmt_x`, where `room` bytes of the buffer are left before those in `s`. -/
def fmtX (lower : UInt8) : ℕ → ℕ → List UInt8 → Option (List UInt8)
  | room, x, s =>
    if x = 0 then some s
    else match room with
      | 0 => none
      | room + 1 => fmtX lower room (x / 16) ((xdigits.getD (x % 16) 0 ||| lower) :: s)

/-- `fmt_o`. -/
def fmtO : ℕ → ℕ → List UInt8 → Option (List UInt8)
  | room, x, s =>
    if x = 0 then some s
    else match room with
      | 0 => none
      | room + 1 => fmtO room (x / 8) ((48 + UInt8.ofNat (x % 8)) :: s)

/-- The second loop of `fmt_u`, and what follows it. -/
def fmtU₂ : ℕ → ℕ → List UInt8 → Option (List UInt8)
  | room, y, s =>
    if y ≥ 10 then match room with
      | 0 => none
      | room + 1 => fmtU₂ room (y / 10) ((48 + UInt8.ofNat (y % 10)) :: s)
    else if y = 0 then some s
    else if room = 0 then none
    else some ((48 + UInt8.ofNat y) :: s)

/-- The first loop of `fmt_u`, which goes on with the second. `ulongMax` is `ULONG_MAX`. -/
def fmtU (ulongMax : ℕ) : ℕ → ℕ → List UInt8 → Option (List UInt8)
  | room, x, s =>
    if x > ulongMax then match room with
      | 0 => none
      | room + 1 => fmtU ulongMax room (x / 10) ((48 + UInt8.ofNat (x % 10)) :: s)
    else fmtU₂ room x s

/-! ## The specification of a conversion -/

/-- The byte at the front of a string, which may be the NUL. -/
def byte (s : List UInt8) (i : ℕ) : UInt8 := (s ++ [0]).getD i 0

/-- `isdigit`. -/
def isdigit (c : UInt8) : Bool := 48 ≤ c ∧ c ≤ 57

/-- `getint`: the number, and what follows it. -/
def getint : ℤ → List UInt8 → ℤ × List UInt8
  | i, [] => (i, [])
  | i, c :: s =>
    if isdigit c then
      if i < 0 ∨ i > INT_MAX / 10 ∨ (c.toNat - 48 : ℤ) > INT_MAX - 10 * i then getint (-1) s
      else getint (10 * i + (c.toNat - 48)) s
    else (i, c :: s)

/-- The bit of the flag word for a byte, if it is a flag. -/
def flagBit (c : UInt8) : Option (BitVec 32) :=
  if 32 ≤ c ∧ c < 64 ∧ has FLAGMASK (BitVec.twoPow 32 (c.toNat - 32)) then
    some (BitVec.twoPow 32 (c.toNat - 32))
  else none

/-- The loop over the flags. -/
def flagLoop : BitVec 32 → List UInt8 → BitVec 32 × List UInt8
  | fl, [] => (fl, [])
  | fl, c :: s =>
    match flagBit c with
    | some b => flagLoop (fl ||| b) s
    | none => (fl, c :: s)

/-- How `printf_core` ends: with a count, with `EOVERFLOW` or `EINVAL`, or at something that the model does not
have. -/
inductive Result where
  | count (n : ℕ)
  | overflow
  | inval
  | other
  deriving DecidableEq

/-- What stands between the `%` and the length modifier, with the format and the arguments that follow. -/
structure Parsed where
  fl : BitVec 32
  w : ℤ
  p : ℤ
  xp : Bool
  s : List UInt8
  args : List ℤ

/-- The width. `none` is undefined behaviour; the error is `EOVERFLOW`. -/
def parseWidth (fl : BitVec 32) (s : List UInt8) (args : List ℤ) : Option (Except Result Parsed) :=
  if byte s 0 = 42 then
    if isdigit (byte s 1) ∧ byte s 2 = 36 then some (.error .other)
    else match args with
      | [] => none
      | w :: args =>
        if w < 0 then
          if -w > INT_MAX then none
          else some (.ok ⟨fl ||| LEFT_ADJ, -w, -1, false, s.drop 1, args⟩)
        else some (.ok ⟨fl, w, -1, false, s.drop 1, args⟩)
  else
    let r := getint 0 s
    if r.1 < 0 then some (.error .overflow) else some (.ok ⟨fl, r.1, -1, false, r.2, args⟩)

/-- The precision. -/
def parsePrec (q : Parsed) : Option (Except Result Parsed) :=
  if byte q.s 0 = 46 ∧ byte q.s 1 = 42 then
    if isdigit (byte q.s 2) ∧ byte q.s 3 = 36 then some (.error .other)
    else match q.args with
      | [] => none
      | p :: args => some (.ok { q with p := p, xp := p ≥ 0, s := q.s.drop 2, args := args })
  else if byte q.s 0 = 46 then
    let r := getint 0 (q.s.drop 1)
    some (.ok { q with p := r.1, xp := true, s := r.2 })
  else some (.ok { q with p := -1, xp := false })

/-! ## Length modifiers and arguments -/

/-- The states for length modifiers. -/
inductive Pre where
  | bare | lpre | llpre | hpre | hhpre | biglpre | ztpre | jpre
  deriving DecidableEq

/-- The types of integer arguments. -/
inductive Ty where
  | int | uint | long | ulong | short | ushort | char | uchar | llong | ullong | pdiff | sizet | imax | umax
  deriving DecidableEq

/-- An entry of the table `states`: another state, the type of an integer, a conversion that the model does not
have, or no entry. -/
inductive Next where
  | pre (p : Pre)
  | ty (t : Ty)
  | other
  | zero
  deriving DecidableEq

/-- The entries of a state for `d` and `i`, and for `o`, `u`, `x` and `X`. -/
def Pre.types : Pre → Option (Ty × Ty)
  | bare => some (.int, .uint)
  | lpre => some (.long, .ulong)
  | llpre => some (.llong, .ullong)
  | hpre => some (.short, .ushort)
  | hhpre => some (.char, .uchar)
  | biglpre => none
  | ztpre => some (.pdiff, .sizet)
  | jpre => some (.imax, .umax)

/-- The entries of a state for letters that are no integer conversions. -/
def Pre.letters : Pre → List UInt8 × List (UInt8 × Pre)
  | bare => ([101, 102, 103, 97, 69, 70, 71, 65, 99, 67, 115, 83, 112, 110, 109],
      [(108, lpre), (104, hpre), (76, biglpre), (122, ztpre), (106, jpre), (116, ztpre)])
  | lpre => ([101, 102, 103, 97, 69, 70, 71, 65, 99, 115, 110], [(108, llpre)])
  | llpre => ([110], [])
  | hpre => ([110], [(104, hhpre)])
  | hhpre => ([110], [])
  | biglpre => ([101, 102, 103, 97, 69, 70, 71, 65, 110], [])
  | ztpre => ([110], [])
  | jpre => ([110], [])

/-- `states[st]S(c)`. -/
def states (st : Pre) (c : UInt8) : Next :=
  match st.types, decide (c = 100 ∨ c = 105), decide (c = 111 ∨ c = 117 ∨ c = 120 ∨ c = 88) with
  | some (t, _), true, _ => .ty t
  | some (_, t), _, true => .ty t
  | _, _, _ =>
    if c ∈ st.letters.1 then .other
    else match st.letters.2.find? (·.1 = c) with
      | some (_, p) => .pre p
      | none => .zero

/-- The loop over the length modifiers: the type, the letter of the conversion, and what follows it. -/
def lengthLoop : Pre → List UInt8 → Except Result (Ty × UInt8 × List UInt8)
  | _, [] => .error .inval
  | st, c :: s =>
    if c < 65 ∨ c > 122 then .error .inval
    else match states st c with
      | .pre st => lengthLoop st s
      | .ty t => .ok (t, c, s)
      | .other => .error .other
      | .zero => .error .inval

/-- The number of bits of a type. -/
def Ty.bits (arch : Arch) : Ty → ℕ
  | int | uint => 32
  | short | ushort => 16
  | char | uchar => 8
  | long | ulong | pdiff | sizet => arch.bits
  | llong | ullong | imax | umax => 64

/-- Whether a type is signed. -/
def Ty.signed : Ty → Bool
  | int | long | short | char | llong | pdiff | imax => true
  | _ => false

/-- The conversion to a type. -/
def Ty.convert (arch : Arch) (t : Ty) (v : ℤ) : ℤ :=
  if t.signed then v.bmod (2 ^ t.bits arch) else v % 2 ^ t.bits arch

/-- `pop_arg`: the value as it is in `arg.i`, of type `uintmax_t`. -/
def popArg (arch : Arch) (t : Ty) (v : ℤ) : ℕ := (t.convert arch v % uintmaxSize).toNat

/-! ## Integer conversions -/

/-- What the `switch` leaves for the output: the digits between `a` and `z`, the bytes of `prefix`, and `p` and
`fl`. -/
structure Field where
  digits : List UInt8
  sign : List UInt8
  p : ℤ
  fl : BitVec 32

/-- The string `"-+   0X0x"`, from an offset on, `pl` bytes of it. -/
def prefixAt (off pl : ℕ) : List UInt8 := (([45, 43, 32, 32, 32, 48, 88, 48, 120] : List UInt8).drop off).take pl

/-- `ifmt_tail`. -/
def ifmtTail (arg : ℕ) (digits sign : List UInt8) (p : ℤ) (xp : Bool) (fl : BitVec 32) :
    Except Result Field :=
  if xp ∧ p < 0 then .error .overflow
  else
    let fl := if xp then fl &&& ~~~ZERO_PAD else fl
    if arg = 0 ∧ p = 0 then .ok ⟨[], sign, p, fl⟩
    else .ok ⟨digits, sign, max p (digits.length + if arg = 0 then 1 else 0), fl⟩

/-- `INTMAX_MAX`. -/
def INTMAX_MAX : ℕ := 9223372036854775807

/-- The magnitude of a signed value, the offset of its sign in `prefix`, and `pl`. -/
def signPart (arg : ℕ) (fl : BitVec 32) : ℕ × ℕ × ℕ :=
  if arg > INTMAX_MAX then ((uintmaxSize - arg) % uintmaxSize, 0, 1)
  else if has fl MARK_POS then (arg, 1, 1)
  else if has fl PAD_POS then (arg, 2, 1)
  else (arg, 0, 0)

/-- The cases of the `switch` for the letter `t`, with the value `arg`. -/
def ifmt (arch : Arch) (t : UInt8) (arg : ℕ) (p : ℤ) (xp : Bool) (fl : BitVec 32) :
    Option (Except Result Field) :=
  if t = 120 ∨ t = 88 then do
    let a ← fmtX (t &&& 32) bufSize arg []
    let pl := if arg ≠ 0 ∧ has fl ALT_FORM then 2 else 0
    some (ifmtTail arg a (prefixAt (t.toNat / 16) pl) p xp fl)
  else if t = 111 then do
    let a ← fmtO bufSize arg []
    let p := if has fl ALT_FORM ∧ p < a.length + 1 then (a.length + 1 : ℤ) else p
    some (ifmtTail arg a [] p xp fl)
  else if t = 117 then do
    let a ← fmtU (2 ^ arch.bits - 1) bufSize arg []
    some (ifmtTail arg a [] p xp fl)
  else do
    let r := signPart arg fl
    let a ← fmtU (2 ^ arch.bits - 1) bufSize r.1 []
    some (ifmtTail r.1 a (prefixAt r.2.1 r.2.2) p xp fl)

/-- The output after the `switch`: the bytes, if the length of all output stays an `int`. -/
def emit (cnt : ℕ) (w : ℤ) (q : Field) : Option (List UInt8) :=
  let p := if q.p < q.digits.length then (q.digits.length : ℤ) else q.p
  let pl : ℤ := q.sign.length
  if p > INT_MAX - pl then none
  else
    let w := if w < pl + p then pl + p else w
    if w > INT_MAX - cnt then none
    else some <|
      pad 32 w (pl + p) q.fl ++ q.sign ++ pad 48 w (pl + p) (q.fl ^^^ ZERO_PAD) ++
        pad 48 p q.digits.length 0#32 ++ q.digits ++ pad 32 w (pl + p) (q.fl ^^^ LEFT_ADJ)

/-- The flag `-` takes the flag `0` back. -/
def leftAdjust (fl : BitVec 32) : BitVec 32 := if has fl LEFT_ADJ then fl &&& ~~~ZERO_PAD else fl

/-- A conversion specification, from behind its `%` on: the bytes written, and the format and the arguments that
follow. -/
def convert (arch : Arch) (cnt : ℕ) (s : List UInt8) (args : List ℤ) :
    Option (Except Result (List UInt8 × List UInt8 × List ℤ)) := do
  let r := flagLoop 0#32 s
  match ← parseWidth r.1 r.2 args with
  | .error e => some (.error e)
  | .ok q =>
    match ← parsePrec q with
    | .error e => some (.error e)
    | .ok q =>
      match lengthLoop .bare q.s, q.args with
      | .error e, _ => some (.error e)
      | .ok _, [] => none
      | .ok (ty, t, s), v :: args =>
        match ← ifmt arch t (popArg arch ty v) q.p q.xp (leftAdjust q.fl) with
        | .error e => some (.error e)
        | .ok field =>
          match emit cnt q.w field with
          | none => some (.error .overflow)
          | some bytes => some (.ok (bytes, s, args))

/-! ## The loop -/

/-- The loop over literal bytes: those before the next `%`, and what follows. -/
def literal (s : List UInt8) : List UInt8 × List UInt8 := s.span (· ≠ 37)

/-- The loop over pairs of `%`: their number, and what follows. -/
def percents : List UInt8 → ℕ × List UInt8
  | 37 :: 37 :: s => ((percents s).1 + 1, (percents s).2)
  | s => (0, s)

/-- The loop of `printf_core`, with the output so far. -/
def printfLoop (arch : Arch) : ℕ → List UInt8 → ℕ → ℕ → List ℤ → List UInt8 →
    Option (Result × List UInt8)
  | 0, _, _, _, _, _ => none
  | fuel + 1, s, cnt, l, args, out =>
    if (l : ℤ) > INT_MAX - cnt then some (.overflow, out)
    else if s = [] then some (.count (cnt + l), out)
    else
      let a := literal s
      let z := percents a.2
      let l' := a.1.length + z.1
      if (l' : ℤ) > INT_MAX - (cnt + l) then some (.overflow, out)
      else
        let out := out ++ a.1 ++ List.replicate z.1 37
        if l' ≠ 0 then printfLoop arch fuel z.2 (cnt + l) l' args out
        else if isdigit (byte s 1) ∧ byte s 2 = 36 then some (.other, out)
        else
          match convert arch (cnt + l) (s.drop 1) args with
          | none => none
          | some (.error e) => some (e, out)
          | some (.ok (bytes, s, args)) => printfLoop arch fuel s (cnt + l) bytes.length args (out ++ bytes)

/-- `printf_core` for the stream that the bytes go to. -/
def printfCore (arch : Arch) (fmt : List UInt8) (args : List ℤ) : Option (Result × List UInt8) :=
  printfLoop arch (fmt.length + 1) fmt 0 0 args []

end Leblibc.Printf
