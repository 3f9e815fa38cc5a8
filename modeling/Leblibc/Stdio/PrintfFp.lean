import Leblibc.Base.Ints
import Leblibc.Stdio.Printf

/-!
# Formatted output of floating-point numbers

A model of `fmt_fp` in `src/stdio/vfprintf.c`, with `pad`, as the list of what is handed to `out`, piece by piece.

Arithmetic in `int` that overflows is a fault. A `long double` is a dyadic number; the multiplications of the source are
exact, so that `y` is a fraction `m / 2^k` here, and the additions that round depend on the rounding mode. The array
`big` has a cell for each integer, with `r` at 0: its bounds are left out. In the loops that print it, a number of more
than nine digits is a fault.

## Main definitions

* `Fault`: why the behaviour is undefined
* `LongDouble`: the values of `long double`, for a format of it
* `pad`: `pad`
* `splitLoop`, `mulLoop`, `divLoop`, `roundAt`: the digits of a number, in blocks of nine
* `fmtFp`: `fmt_fp`
-/

namespace Leblibc.Printf.Core

/-- Why the behaviour is undefined. -/
inductive Fault where
  /-- Arithmetic in `int` overflows. -/
  | overflow
  /-- The arguments are not what the format asks for. -/
  | caller
  /-- A local buffer is too short, or a loop exceeds its bound. -/
  | bounds
  deriving DecidableEq, Repr

/-- The result of arithmetic in `int`. -/
def ck (x : ℤ) : Except Fault ℤ := if IsInt x then .ok x else .error .overflow

/-- A function that writes to a local buffer. -/
def inBuffer {α : Type} (x : Option α) : Except Fault α :=
  match x with
  | none => .error .bounds
  | some a => .ok a

/-! ## Padding -/

/-- The loop of `pad` and the call of `out` after it. -/
def padPieces (c : UInt8) : ℕ → ℕ → List (List UInt8)
  | 0, l => [List.replicate l c]
  | fuel + 1, l =>
    if l ≥ 256 then List.replicate 256 c :: padPieces c fuel (l - 256) else [List.replicate l c]

/-- `pad`. -/
def pad (c : UInt8) (w l : ℤ) (fl : BitVec 32) : Except Fault (List (List UInt8)) :=
  if has fl (LEFT_ADJ ||| ZERO_PAD) ∨ l ≥ w then .ok []
  else do
    let n ← ck (w - l)
    .ok (padPieces c n.toNat n.toNat)

/-! ## Numbers -/

/-- A format of `long double`: `LDBL_MANT_DIG` and `LDBL_MAX_EXP`. -/
structure LdblFormat where
  mantDig : ℕ
  maxExp : ℕ
  mantDig_le : mantDig ≤ 113
  maxExp_pos : 0 < maxExp
  maxExp_le : maxExp ≤ 16384

/-- A finite number that is not negative, `mant * 2^exp`. -/
structure Finite (L : LdblFormat) where
  mant : ℕ
  exp : ℤ
  mant_lt : mant < 2 ^ L.mantDig
  exp_ge : -(L.maxExp + L.mantDig : ℤ) ≤ exp
  exp_le : exp ≤ (L.maxExp : ℤ) - L.mantDig

/-- The magnitude of a `long double`. -/
inductive Magnitude (L : LdblFormat) where
  | nan
  | inf
  | finite (x : Finite L)

/-- A `long double`. -/
structure LongDouble (L : LdblFormat) where
  neg : Bool
  magnitude : Magnitude L

/-- The rounding modes. -/
inductive Rounding where
  | nearest
  | upward
  | downward
  | towardZero
  deriving DecidableEq, Repr

/-- `y = frexpl(y, &e2) * 2; if (y) e2--;` gives `m / 2^k`, which is less than 2, and `e2`. -/
def Finite.split {L : LdblFormat} (x : Finite L) : ℕ × ℕ × ℤ :=
  if x.mant = 0 then (0, 0, 0) else (x.mant, x.mant.log2, x.exp + x.mant.log2)

/-- The string `"-0X+0X 0X-0x+0x 0x"`, from an offset on, `pl` bytes of it. -/
def fpPrefix (off pl : ℕ) : List UInt8 :=
  (([45, 48, 88, 43, 48, 88, 32, 48, 88, 45, 48, 120, 43, 48, 120, 32, 48, 120] : List UInt8).drop off).take pl

/-- The offset of the sign in `prefix`, and `pl`. -/
def fpSign (neg : Bool) (fl : BitVec 32) : ℕ × ℕ :=
  if neg then (0, 1) else if has fl MARK_POS then (3, 1) else if has fl PAD_POS then (6, 1) else (1, 0)

/-- Whether `(t|32)` is the given letter. -/
def isLetter (t c : UInt8) : Bool := t ||| 32 = c

/-- `estr`: the exponent with a letter and its sign, of `least` digits or more. -/
def expText (arch : Arch) (letter : UInt8) (least : ℕ) (e : ℤ) : Except Fault (List UInt8) := do
  let digits ← inBuffer (fmtU (2 ^ arch.bits - 1) 10 e.natAbs [])
  .ok (letter :: (if e < 0 then 45 else 43) :: (List.replicate (least - digits.length) 48 ++ digits))

/-! ## Hexadecimal output -/

/-- Rounding of `m / 2^k` to a multiple of `2^-q`, as `y += round; y -= round` does. -/
def roundBits (mode : Rounding) (neg : Bool) (q m k : ℕ) : ℕ × ℕ :=
  if k ≤ q then (m, k)
  else
    let n := m / 2 ^ (k - q)
    let rem := m % 2 ^ (k - q)
    let up : Bool := match mode with
      | .nearest => 2 * rem > 2 ^ (k - q) ∨ 2 * rem = 2 ^ (k - q) ∧ n % 2 = 1
      | .upward => neg = false ∧ rem ≠ 0
      | .downward => neg = true ∧ rem ≠ 0
      | .towardZero => false
    (if up then n + 1 else n, q)

/-- The digits of `m / 2^k`. -/
def hexDigits (lower : UInt8) (k : ℕ) : ℕ → ℕ → Except Fault (List UInt8)
  | 0, _ => .error .bounds
  | fuel + 1, m =>
    let c := xdigits.getD (m / 2 ^ k) 0 ||| lower
    let m := 16 * (m % 2 ^ k)
    if m = 0 then .ok [c]
    else do
      let s ← hexDigits lower k fuel m
      .ok (c :: s)

/-- The point behind the first digit, if more digits follow, or it is asked for. -/
def hexPoint (always : Bool) (s : List UInt8) : List UInt8 :=
  if s.tail ≠ [] ∨ always then s.take 1 ++ 46 :: s.tail else s

/-- The part of `fmt_fp` for `a`, where `sign` is the offset of the sign and `pl`. -/
def fmtHex (L : LdblFormat) (arch : Arch) (mode : Rounding) (neg : Bool) (y : ℕ × ℕ × ℤ) (sign : ℕ × ℕ) (w p : ℤ)
    (fl : BitVec 32) (t : UInt8) : Except Fault (Option (ℤ × List (List UInt8))) := do
  let off := if t &&& 32 ≠ 0 then sign.1 + 9 else sign.1
  let pl := sign.2 + 2
  let m := if 0 ≤ p ∧ p < (L.mantDig - 1 + 3 : ℤ) / 4 then roundBits mode neg (4 * p.toNat) y.1 y.2.1
    else (y.1, y.2.1)
  let estr ← expText arch (t + 15) 1 y.2.2
  let s ← hexDigits (t &&& 32) m.2 (m.2 + 1) m.1
  let s := hexPoint (p > 0 ∨ has fl ALT_FORM) s
  if p > INT_MAX - 2 - estr.length - pl then .ok none
  else
    let l ← ck (if p ≠ 0 ∧ (s.length : ℤ) - 2 < p then p + 2 + estr.length else (s.length + estr.length : ℤ))
    let total ← ck (pl + l)
    let before ← pad 32 w total fl
    let zeros ← pad 48 w total (fl ^^^ ZERO_PAD)
    let fill ← pad 48 (l - estr.length - s.length) 0 0#32
    let after ← pad 32 w total (fl ^^^ LEFT_ADJ)
    .ok (some (max w total,
      before ++ [fpPrefix off pl] ++ zeros ++ [s] ++ fill ++ [estr] ++ after))

/-! ## Decimal digits -/

/-- The digits of a number in blocks of nine, from `a` on and before `z`, with the units at 0. -/
structure Blocks where
  big : ℤ → ℕ
  a : ℤ
  z : ℤ

/-- The base of the blocks. -/
def base : ℕ := 1000000000

/-- `do { *z = y; y = 1000000000*(y-*z++); } while (y);` -/
def splitLoop (k : ℕ) : ℕ → ℕ → (ℤ → ℕ) → ℤ → Except Fault ((ℤ → ℕ) × ℤ)
  | 0, _, _, _ => .error .bounds
  | fuel + 1, m, big, z =>
    let big := Function.update big z (m / 2 ^ k)
    let m := base * (m % 2 ^ k)
    if m = 0 then .ok (big, z + 1) else splitLoop k fuel m big (z + 1)

/-- The loop over the blocks where `e2` is positive: `n` blocks from `d` downwards, with the carry. -/
def shlLoop (sh : ℕ) : ℕ → ℤ → (ℤ → ℕ) → ℕ → (ℤ → ℕ) × ℕ
  | 0, _, big, carry => (big, carry)
  | n + 1, d, big, carry =>
    let x := big d * 2 ^ sh + carry
    shlLoop sh n (d - 1) (Function.update big d (x % base)) (x / base)

/-- `while (z>a && !z[-1]) z--;`, for at most `n` turns. -/
def trimLoop (big : ℤ → ℕ) : ℕ → ℤ → ℤ
  | 0, z => z
  | n + 1, z => if big (z - 1) = 0 then trimLoop big n (z - 1) else z

/-- The blocks without those at the end that are 0. -/
def Blocks.trim (b : Blocks) : Blocks := { b with z := trimLoop b.big (b.z - b.a).toNat b.z }

/-- One turn of the loop where `e2` is positive. -/
def Blocks.shl (sh : ℕ) (b : Blocks) : Blocks :=
  let r := shlLoop sh (b.z - b.a).toNat (b.z - 1) b.big 0
  let b : Blocks := if r.2 ≠ 0 then ⟨Function.update r.1 (b.a - 1) r.2, b.a - 1, b.z⟩ else ⟨r.1, b.a, b.z⟩
  b.trim

/-- `while (e2>0)`. -/
def mulLoop : ℕ → ℕ → Blocks → Blocks
  | 0, _, b => b
  | fuel + 1, e2, b => if e2 = 0 then b else mulLoop fuel (e2 - min 29 e2) (b.shl (min 29 e2))

/-- The loop over the blocks where `e2` is negative: `n` blocks from `d` on, with the carry. -/
def shrLoop (sh : ℕ) : ℕ → ℤ → (ℤ → ℕ) → ℕ → (ℤ → ℕ) × ℕ
  | 0, _, big, carry => (big, carry)
  | n + 1, d, big, carry =>
    shrLoop sh n (d + 1) (Function.update big d (big d / 2 ^ sh + carry)) (base / 2 ^ sh * (big d % 2 ^ sh))

/-- One turn of the loop where `e2` is negative; `need` blocks are enough, from the units on for `f`. -/
def Blocks.shr (need : ℤ) (isF : Bool) (sh : ℕ) (b : Blocks) : Blocks :=
  let r := shrLoop sh (b.z - b.a).toNat b.a b.big 0
  let a := if r.1 b.a = 0 then b.a + 1 else b.a
  let big := if r.2 ≠ 0 then Function.update r.1 b.z r.2 else r.1
  let z := if r.2 ≠ 0 then b.z + 1 else b.z
  let start := if isF then 0 else a
  ⟨big, a, if z - start > need then start + need else z⟩

/-- `while (e2<0)`, for the magnitude of `e2`. -/
def divLoop (need : ℤ) (isF : Bool) : ℕ → ℕ → Blocks → Blocks
  | 0, _, b => b
  | fuel + 1, e2, b => if e2 = 0 then b else divLoop need isF fuel (e2 - min 9 e2) (b.shr need isF (min 9 e2))

/-- `for (i=10, e=9*(r-a); *a>=i; i*=10, e++);`, for at most `n` turns. -/
def expLoop (v : ℕ) : ℕ → ℕ → ℤ → ℤ
  | 0, _, e => e
  | n + 1, i, e => if v ≥ i then expLoop v n (i * 10) (e + 1) else e

/-- The exponent of the first digit. -/
def Blocks.exponent (b : Blocks) : ℤ := expLoop (b.big b.a) 10 10 (9 * (0 - b.a))

/-! ## Rounding -/

/-- How much is cut off: less than a half, a half, or more. -/
inductive Small where
  | less
  | half
  | more
  deriving DecidableEq

/-- `round+small != round`, where `odd` says whether `round` has been made odd. -/
def roundsUp (mode : Rounding) (neg odd : Bool) : Small → Bool
  | .less => match mode with
    | .nearest | .towardZero => false
    | .upward => !neg
    | .downward => neg
  | .half => match mode with
    | .nearest => odd
    | .towardZero => false
    | .upward => !neg
    | .downward => neg
  | .more => match mode with
    | .nearest => true
    | .towardZero => false
    | .upward => !neg
    | .downward => neg

/-- `while (*d > 999999999) { *d--=0; if (d<a) *--a=0; (*d)++; }`: the blocks, and `d`. -/
def carryLoop : ℕ → ℤ → (ℤ → ℕ) → ℤ → Except Fault ((ℤ → ℕ) × ℤ × ℤ)
  | 0, _, _, _ => .error .bounds
  | fuel + 1, d, big, a =>
    if big d > 999999999 then
      let big := Function.update big d 0
      let d := d - 1
      let big' := if d < a then Function.update big (a - 1) 0 else big
      let a := if d < a then a - 1 else a
      carryLoop fuel d (Function.update big' d (big' d + 1)) a
    else .ok (big, d, a)

/-- The lines from `*d -= x` to the new exponent: the blocks, `d` and `e`. -/
def roundBlock (mode : Rounding) (neg : Bool) (d : ℤ) (i : ℕ) (b : Blocks) (e : ℤ) :
    Except Fault (Blocks × ℤ × ℤ) :=
  let x := b.big d % i
  if x ≠ 0 ∨ d + 1 ≠ b.z then
    let odd : Bool := b.big d / i % 2 = 1 ∨ i = base ∧ d > b.a ∧ b.big (d - 1) % 2 = 1
    let small := if x < i / 2 then Small.less else if x = i / 2 ∧ d + 1 = b.z then .half else .more
    let big := Function.update b.big d (b.big d - x)
    if roundsUp mode neg odd small then do
      let r ← carryLoop ((d - b.a).toNat + 3) d (Function.update big d (big d + i)) b.a
      let b' : Blocks := ⟨r.1, r.2.2, b.z⟩
      .ok (b', r.2.1, b'.exponent)
    else .ok (⟨big, b.a, b.z⟩, d, e)
  else .ok (b, d, e)

/-- The rounding at the digit `j` behind the point, with `e`. -/
def roundAt (L : LdblFormat) (mode : Rounding) (neg : Bool) (j : ℤ) (b : Blocks) (e : ℤ) :
    Except Fault (Blocks × ℤ) :=
  if j < 9 * (b.z - 1) then do
    let d := 1 + ((j + 9 * L.maxExp).tdiv 9 - L.maxExp)
    let j := (j + 9 * L.maxExp).tmod 9
    -- the loop that multiplies `i` by 10
    let r ← roundBlock mode neg d (10 ^ (9 - j).toNat) b e
    .ok (⟨r.1.big, r.1.a, if r.1.z > r.2.1 + 1 then r.2.1 + 1 else r.1.z⟩, r.2.2)
  else .ok (b, e)

/-- `for (i=10, j=0; z[-1]%i==0; i*=10, j++);`, for at most `n` turns. -/
def zerosLoop (v : ℕ) : ℕ → ℕ → ℤ → ℤ
  | 0, _, j => j
  | n + 1, i, j => if v % i = 0 then zerosLoop v n (i * 10) (j + 1) else j

/-- The lines for `g`: the letter and the precision of the output as `e` or `f`. -/
def generalPart (t : UInt8) (p e : ℤ) (fl : BitVec 32) (b : Blocks) : Except Fault (UInt8 × ℤ) := do
  let p := if p = 0 then 1 else p
  let fixed := p > e ∧ e ≥ -4
  let t := if fixed then t - 1 else t - 2
  let p ← ck (if fixed then p - (e + 1) else p - 1)
  if has fl ALT_FORM then .ok (t, p)
  else
    let j := if b.z > b.a ∧ b.big (b.z - 1) ≠ 0 then zerosLoop (b.big (b.z - 1)) 9 10 0 else 9
    .ok (t, min p (max 0 (if isLetter t 102 then 9 * (b.z - 1) - j else 9 * (b.z - 1) + e - j)))

/-! ## Decimal output -/

/-- The digits of a block, as `fmt_u(*d, buf+9)` gives them. -/
def blockDigits (arch : Arch) (v : ℕ) : Except Fault (List UInt8) := inBuffer (fmtU (2 ^ arch.bits - 1) 9 v [])

/-- `while (s>buf) *--s='0';` -/
def nineDigits (s : List UInt8) : List UInt8 := List.replicate (9 - s.length) 48 ++ s

/-- The first block has a digit at least. -/
def oneDigit (s : List UInt8) : List UInt8 := if s = [] then [48] else s

/-- The loop for the blocks before the point, `n` of them from `d` on. -/
def wholeLoop (arch : Arch) (big : ℤ → ℕ) (a : ℤ) : ℕ → ℤ → Except Fault (List (List UInt8))
  | 0, _ => .ok []
  | n + 1, d => do
    let s ← blockDigits arch (big d)
    let rest ← wholeLoop arch big a n (d + 1)
    .ok ((if d ≠ a then nineDigits s else oneDigit s) :: rest)

/-- The loop for the blocks behind the point, `n` of them at most from `d` on, with what is left of the precision. -/
def fractionLoop (arch : Arch) (big : ℤ → ℕ) : ℕ → ℤ → ℤ → Except Fault (List (List UInt8) × ℤ)
  | 0, _, p => .ok ([], p)
  | n + 1, d, p =>
    if p > 0 then do
      let s ← blockDigits arch (big d)
      let rest ← fractionLoop arch big n (d + 1) (p - 9)
      .ok ((nineDigits s).take (min 9 p).toNat :: rest.1, rest.2)
    else .ok ([], p)

/-- The output for `f`. -/
def fixedBody (arch : Arch) (b : Blocks) (p : ℤ) (fl : BitVec 32) : Except Fault (List (List UInt8)) := do
  let a := if b.a > 0 then 0 else b.a
  let whole ← wholeLoop arch b.big a (1 - a).toNat a
  let point := if p ≠ 0 ∨ has fl ALT_FORM then [[46]] else []
  let r ← fractionLoop arch b.big (b.z - 1).toNat 1 p
  let last ← ck (r.2 + 9)
  let fill ← pad 48 last 9 0#32
  .ok (whole ++ point ++ r.1 ++ fill)

/-- The loop for `e`, `n` blocks at most from `d` on. -/
def scientificLoop (arch : Arch) (big : ℤ → ℕ) (a : ℤ) (fl : BitVec 32) :
    ℕ → ℤ → ℤ → Except Fault (List (List UInt8) × ℤ)
  | 0, _, p => .ok ([], p)
  | n + 1, d, p =>
    if p ≥ 0 then do
      let s ← blockDigits arch (big d)
      let s := if d ≠ a then nineDigits s else oneDigit s
      let first := if d ≠ a then [] else [s.take 1] ++ if p > 0 ∨ has fl ALT_FORM then [[46]] else []
      let s := if d ≠ a then s else s.drop 1
      let rest ← scientificLoop arch big a fl n (d + 1) (p - s.length)
      .ok (first ++ s.take (min (s.length : ℤ) p).toNat :: rest.1, rest.2)
    else .ok ([], p)

/-- The output for `e`. -/
def scientificBody (arch : Arch) (b : Blocks) (p : ℤ) (fl : BitVec 32) (estr : List UInt8) :
    Except Fault (List (List UInt8)) := do
  let z := if b.z ≤ b.a then b.a + 1 else b.z
  let r ← scientificLoop arch b.big b.a fl (z - b.a).toNat b.a p
  let last ← ck (r.2 + 18)
  let fill ← pad 48 last 18 0#32
  .ok (r.1 ++ fill ++ [estr])

/-- The digits that are printed: the blocks and the exponent, and the letter and the precision. -/
structure Decimal where
  blocks : Blocks
  e : ℤ
  t : UInt8
  p : ℤ

/-- The digits of a number, rounded, before the length is known. -/
def decimal (L : LdblFormat) (mode : Rounding) (neg : Bool) (y : ℕ × ℕ × ℤ) (p : ℤ) (fl : BitVec 32) (t : UInt8) :
    Except Fault Decimal := do
  let m := if y.1 ≠ 0 then y.1 * 2 ^ 28 else y.1
  let e2 := if y.1 ≠ 0 then y.2.2 - 28 else y.2.2
  let r ← splitLoop y.2.1 (y.2.1 + 1) m (fun _ => 0) 0
  let need : ℤ := 1 + (p + (L.mantDig / 3 : ℕ) + 8) / 9
  let b := mulLoop e2.toNat e2.toNat ⟨r.1, 0, r.2⟩
  let b := divLoop need (isLetter t 102) (-e2).toNat (-e2).toNat b
  let e := if b.a < b.z then b.exponent else 0
  let j ← ck (p - if isLetter t 102 then 0 else e)
  let j ← ck (j - if isLetter t 103 ∧ p ≠ 0 then 1 else 0)
  let q ← roundAt L mode neg j b e
  let b := q.1.trim
  if isLetter t 103 then do
    let g ← generalPart t p q.2 fl b
    .ok ⟨b, q.2, g.1, g.2⟩
  else .ok ⟨b, q.2, t, p⟩

/-- The length and the output of the digits: the lines from the first test with `INT_MAX` on. -/
def decimalOut (arch : Arch) (x : Decimal) (sign : ℕ × ℕ) (w : ℤ) (fl : BitVec 32) :
    Except Fault (Option (ℤ × List (List UInt8))) := do
  let point : ℤ := if x.p ≠ 0 ∨ has fl ALT_FORM then 1 else 0
  if x.p > INT_MAX - 1 - point then .ok none
  else
    let l ← ck (1 + x.p + point)
    let estr ← (if isLetter x.t 102 then .ok [] else expText arch x.t 2 x.e)
    let more : ℤ := if isLetter x.t 102 then x.e else estr.length
    if more > INT_MAX - l then .ok none
    else
      let l ← ck (if more > 0 then l + more else l)
      if l > INT_MAX - sign.2 then .ok none
      else
        let total ← ck (sign.2 + l)
        let before ← pad 32 w total fl
        let zeros ← pad 48 w total (fl ^^^ ZERO_PAD)
        let body ← (if isLetter x.t 102 then fixedBody arch x.blocks x.p fl
          else scientificBody arch x.blocks x.p fl estr)
        let after ← pad 32 w total (fl ^^^ LEFT_ADJ)
        .ok (some (max w total, before ++ [fpPrefix sign.1 sign.2] ++ zeros ++ body ++ after))

/-! ## The function -/

/-- The output for a number that is not finite. -/
def fmtSpecial (nan : Bool) (sign : ℕ × ℕ) (w : ℤ) (fl : BitVec 32) (t : UInt8) :
    Except Fault (Option (ℤ × List (List UInt8))) := do
  let upper : List UInt8 := if nan then [78, 65, 78] else [73, 78, 70]
  let s := if t &&& 32 ≠ 0 then upper.map (· ||| 32) else upper
  let before ← pad 32 w (3 + sign.2) (fl &&& ~~~ZERO_PAD)
  let after ← pad 32 w (3 + sign.2) (fl ^^^ LEFT_ADJ)
  .ok (some (max w (3 + sign.2), before ++ [fpPrefix sign.1 sign.2] ++ [s] ++ after))

/-- `fmt_fp`: the result and what is handed to `out`, or `none` for the result `-1`. -/
def fmtFp (L : LdblFormat) (arch : Arch) (mode : Rounding) (y : LongDouble L) (w p : ℤ) (fl : BitVec 32) (t : UInt8) :
    Except Fault (Option (ℤ × List (List UInt8))) :=
  let sign := fpSign y.neg fl
  match y.magnitude with
  | .nan => fmtSpecial true sign w fl t
  | .inf => fmtSpecial false sign w fl t
  | .finite x =>
    if isLetter t 97 then fmtHex L arch mode y.neg x.split sign w p fl t
    else do
      let d ← decimal L mode y.neg x.split (if p < 0 then 6 else p) fl t
      decimalOut arch d sign w fl

end Leblibc.Printf.Core
