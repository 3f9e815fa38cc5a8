import Leblibc.Stdio.PrintfFp

/-!
# `printf_core`

A model of `printf_core` in `src/stdio/vfprintf.c` with all its conversions, for both of its passes: the first one,
without a stream, finds the types of the arguments with positions, and the second one writes. What is written is the
list of what is handed to `out`. The stream takes it without an error, so that `ferror` stays clear; an error makes
`vfprintf` return `-1` whatever the result is here.

Arithmetic in `int` that overflows is a fault, and so is anything that the caller has to promise: that the arguments are
there and have the right type, and that strings end.

## Main definitions

* `Arg`: an argument
* `Env`: what the result depends on besides: the locale, the rounding mode, and `errno`
* `Spec`: a conversion specification with its argument
* `convert`: the `switch` and the output after it
* `State`, `step`: one turn of the loop of `printf_core`
* `printfRun`: both passes
-/

namespace Leblibc.Printf.Core

/-! ## Arguments -/

/-- The errors: the values of `errno` with which `-1` is returned. -/
inductive Err where
  | EOVERFLOW
  | EINVAL
  | EILSEQ
  deriving DecidableEq, Repr

/-- What ends a conversion early: undefined behaviour, or an error. -/
inductive Stop where
  | fault (f : Fault)
  | err (e : Err)
  deriving DecidableEq, Repr

/-- A computation that has no errors. -/
def lift {α : Type} : Except Fault α → Except Stop α
  | .error f => .error (.fault f)
  | .ok a => .ok a

/-- The types of arguments. -/
inductive ArgTy where
  | num (t : Ty)
  | ptr
  | uiptr
  | dbl
  | ldbl
  | noarg
  deriving DecidableEq

/-- An argument: a number, a pointer to bytes, which may be null, a pointer to wide characters, a pointer for `%n`, or
a floating-point number. The pointers are given by what they point to, up to the end of the object; a pointer for `%p`
is a number. -/
inductive Arg (L : LdblFormat) where
  | num (v : ℤ)
  | str (s : Option (List UInt8))
  | wstr (s : List ℕ)
  | cell
  | fp (x : LongDouble L)

/-- `wctomb`: a wide character that is not null has one to four bytes, or cannot be converted. -/
structure Locale where
  wctomb : ℕ → Option (List UInt8)
  length_pos : ∀ c s, wctomb c = some s → 0 < s.length
  length_le : ∀ c s, wctomb c = some s → s.length ≤ 4

/-- What the output depends on besides the format and the arguments; `errmsg` is `strerror(errno)`. -/
structure Env where
  L : LdblFormat
  arch : Arch
  mode : Rounding
  locale : Locale
  errmsg : List UInt8

/-- `pop_arg`. -/
def argAs {L : LdblFormat} (arch : Arch) : ArgTy → Arg L → Except Fault (Arg L)
  | .num t, .num v => .ok (.num (popArg arch t v))
  | .uiptr, .num v => .ok (.num (v % 2 ^ arch.bits))
  | .ptr, .str s => .ok (.str s)
  | .ptr, .wstr s => .ok (.wstr s)
  | .ptr, .cell => .ok .cell
  | .dbl, .fp x => .ok (.fp x)
  | .ldbl, .fp x => .ok (.fp x)
  | _, _ => .error .caller

/-! ## The state -/

/-- What is still to be read: the format, the arguments, and those with positions. -/
structure Input (L : LdblFormat) where
  s : List UInt8
  l10n : Bool
  ap : List (Arg L)
  nlType : ℕ → Option ArgTy
  nlArg : ℕ → Option (Arg L)

/-- The variables of `printf_core`, and what has been handed to `out`. -/
structure State (L : LdblFormat) where
  inp : Input L
  cnt : ℤ
  l : ℤ
  out : List (List UInt8)

/-! ## The specification of a conversion -/

/-- `getint`; the comparison with `INT_MAX/10U` is one of unsigned numbers. -/
def getint : ℤ → List UInt8 → Except Fault (ℤ × List UInt8)
  | i, [] => .ok (i, [])
  | i, c :: s =>
    if isdigit c then
      if i % 4294967296 > INT_MAX / 10 then getint (-1) s
      else do
        let m ← ck (10 * i)
        let room ← ck (INT_MAX - m)
        if (c.toNat - 48 : ℤ) > room then getint (-1) s
        else do
          let n ← ck (m + (c.toNat - 48))
          getint n s
    else .ok (i, c :: s)

/-- An argument of a `*`, whose position stands at the offset `off` of the format. In the width a position sets
`l10n`. -/
def starArg {L : LdblFormat} (f : Bool) (off : ℕ) (mark : Bool) (inp : Input L) : Except Stop (ℤ × Input L) :=
  if isdigit (byte inp.s off) ∧ byte inp.s (off + 1) = 36 then
    let i := (byte inp.s off).toNat - 48
    let inp := { inp with l10n := inp.l10n || mark, s := inp.s.drop (off + 2) }
    if f = false then .ok (0, { inp with nlType := Function.update inp.nlType i (some (.num .int)) })
    else match inp.nlArg i with
      | some (.num v) => .ok (toInt v, inp)
      | _ => .error (.fault .caller)
  else if inp.l10n = false then
    if f = false then .ok (0, { inp with s := inp.s.drop off })
    else match inp.ap with
      | .num v :: ap => if IsInt v then .ok (v, { inp with s := inp.s.drop off, ap := ap }) else .error (.fault .caller)
      | _ => .error (.fault .caller)
  else .error (.err .EINVAL)

/-- The width, and the flags with it. -/
def parseWidth {L : LdblFormat} (f : Bool) (fl : BitVec 32) (inp : Input L) : Except Stop (BitVec 32 × ℤ × Input L) :=
  if byte inp.s 0 = 42 then do
    let r ← starArg f 1 true inp
    if r.1 < 0 then do
      let w ← lift (ck (-r.1))
      .ok (fl ||| LEFT_ADJ, w, r.2)
    else .ok (fl, r.1, r.2)
  else do
    let r ← lift (getint 0 inp.s)
    if r.1 < 0 then .error (.err .EOVERFLOW) else .ok (fl, r.1, { inp with s := r.2 })

/-- The precision: `p` and `xp`. -/
def parsePrec {L : LdblFormat} (f : Bool) (inp : Input L) : Except Stop (ℤ × Bool × Input L) :=
  if byte inp.s 0 = 46 ∧ byte inp.s 1 = 42 then do
    let r ← starArg f 2 false inp
    .ok (r.1, r.1 ≥ 0, r.2)
  else if byte inp.s 0 = 46 then do
    let r ← lift (getint 0 (inp.s.drop 1))
    .ok (r.1, true, { inp with s := r.2 })
  else .ok (-1, false, inp)

/-- The letters of floating-point conversions. -/
def fpLetters : List UInt8 := [101, 102, 103, 97, 69, 70, 71, 65]

/-- The entries of the table `states` for letters that are no integer conversions. -/
def otherTy : Pre → UInt8 → ArgTy
  | .bare, c =>
    if c ∈ fpLetters then .dbl else if c = 99 then .num .int else if c = 67 then .num .uint
    else if c = 112 then .uiptr else if c = 109 then .noarg else .ptr
  | .lpre, c => if c ∈ fpLetters then .dbl else if c = 99 then .num .uint else .ptr
  | .biglpre, c => if c ∈ fpLetters then .ldbl else .ptr
  | _, _ => .ptr

/-- The loop over the length modifiers: the type, `ps`, the letter of the conversion, and what follows it. -/
def typeLoop : Pre → List UInt8 → Except Stop (ArgTy × Pre × UInt8 × List UInt8)
  | _, [] => .error (.err .EINVAL)
  | st, c :: s =>
    if c < 65 ∨ c > 122 then .error (.err .EINVAL)
    else match states st c with
      | .pre st => typeLoop st s
      | .ty t => .ok (.num t, st, c, s)
      | .other => .ok (otherTy st c, st, c, s)
      | .zero => .error (.err .EINVAL)

/-- A conversion specification with its argument; there is none for `%m`. -/
structure Spec (L : LdblFormat) where
  fl : BitVec 32
  w : ℤ
  p : ℤ
  xp : Bool
  ps : Pre
  t : UInt8
  arg : Option (Arg L)

/-- What is found behind a `%`: nothing to be done in the first pass, the end of this pass, or a conversion. -/
inductive Found (L : LdblFormat) where
  | skip (inp : Input L)
  | return0
  | spec (sp : Spec L) (inp : Input L)

/-- The argument for a type, with the position `argpos` if there is one. -/
def takeArg {L : LdblFormat} (arch : Arch) (f : Bool) (argpos : Option ℕ) (ty : ArgTy) (sp : Spec L) (inp : Input L) :
    Except Stop (Found L) :=
  if ty = .noarg then
    if argpos.isSome then .error (.err .EINVAL) else if f then .ok (.spec sp inp) else .ok (.skip inp)
  else match argpos with
    | some i =>
      if f = false then .ok (.skip { inp with nlType := Function.update inp.nlType i (some ty) })
      else match inp.nlArg i with
        | none => .error (.fault .caller)
        | some a => .ok (.spec { sp with arg := some a } inp)
    | none =>
      if f = false then .ok .return0
      else match inp.ap with
        | [] => .error (.fault .caller)
        | a :: ap => do
          let a ← lift (argAs arch ty a)
          .ok (.spec { sp with arg := some a } { inp with ap := ap })

/-- The lines from the `%` to the flags: the position if there is one, the flags, and the state behind them. -/
def specStart {L : LdblFormat} (inp : Input L) : Option ℕ × BitVec 32 × Input L :=
  let positional : Bool := isdigit (byte inp.s 1) ∧ byte inp.s 2 = 36
  let r := flagLoop 0#32 (inp.s.drop (if positional then 3 else 1))
  (if positional then some ((byte inp.s 1).toNat - 48) else none, r.1,
    { inp with s := r.2, l10n := inp.l10n || positional })

/-- The lines from the `%` to the `switch`; `adjust` is what becomes of the flags there. -/
def parseSpecBy {L : LdblFormat} (adjust : BitVec 32 → BitVec 32) (arch : Arch) (f : Bool) (inp : Input L) :
    Except Stop (Found L) := do
  let b := specStart inp
  let rw ← parseWidth f b.2.1 b.2.2
  let rp ← parsePrec f rw.2.2
  let rt ← typeLoop .bare rp.2.2.s
  -- the letters `c` and `s` with a length modifier stand for `C` and `S`
  let t := if rt.2.1 ≠ .bare ∧ rt.2.2.1 &&& 15 = 3 then rt.2.2.1 &&& ~~~32 else rt.2.2.1
  takeArg arch f b.1 rt.1 ⟨adjust rw.1, rw.2.1, rp.1, rp.2.1, rt.2.1, t, none⟩
    { rp.2.2 with s := rt.2.2.2 }

/-- The lines from the `%` to the `switch` in `printf_core`. -/
def parseSpec {L : LdblFormat} (arch : Arch) (f : Bool) (inp : Input L) : Except Stop (Found L) :=
  parseSpecBy leftAdjust arch f inp

/-! ## Conversions -/

/-- The output after the `switch`: the new `l`, and what is written. -/
def emitField (cnt w : ℤ) (q : Field) : Except Stop (ℤ × List (List UInt8)) := do
  let n : ℤ := q.digits.length
  let pl : ℤ := q.sign.length
  let p := if q.p < n then n else q.p
  let room ← lift (ck (INT_MAX - pl))
  if p > room then .error (.err .EOVERFLOW)
  else
    let total ← lift (ck (pl + p))
    let w := if w < total then total else w
    let room ← lift (ck (INT_MAX - cnt))
    if w > room then .error (.err .EOVERFLOW)
    else
      let before ← lift (pad 32 w total q.fl)
      let zeros ← lift (pad 48 w total (q.fl ^^^ ZERO_PAD))
      let digits ← lift (pad 48 p n 0#32)
      let after ← lift (pad 32 w total (q.fl ^^^ LEFT_ADJ))
      .ok (w, before ++ [q.sign] ++ zeros ++ digits ++ [q.digits] ++ after)

/-- `p = MAX(p, 2*sizeof(void*))`, a comparison of unsigned numbers. -/
def ptrPrec (arch : Arch) (p : ℤ) : ℤ := if p % 2 ^ arch.bits > 2 * arch.ptrSize then p else 2 * arch.ptrSize

/-- The integer conversions. -/
def convertInt (arch : Arch) (cnt : ℤ) (t : UInt8) (v : ℕ) (w p : ℤ) (xp : Bool) (fl : BitVec 32) :
    Except Stop (ℤ × List (List UInt8)) := do
  let r ← lift (inBuffer
    (if t = 112 then ifmt arch 120 v (ptrPrec arch p) xp (fl ||| ALT_FORM) else ifmt arch t v p xp fl))
  match r with
  | .error _ => .error (.err .EOVERFLOW)
  | .ok q => emitField cnt w q

/-- `narrow_c`. -/
def convertChar (cnt : ℤ) (v w : ℤ) (fl : BitVec 32) : Except Stop (ℤ × List (List UInt8)) :=
  emitField cnt w ⟨[UInt8.ofNat (v % 256).toNat], [], 1, fl &&& ~~~ZERO_PAD⟩

/-- The number of elements before the first one that is `z`, up to a limit. The object has to have the elements that
are read. -/
def lengthUpTo {α : Type} [DecidableEq α] (z : α) : List α → ℕ → Except Fault ℕ
  | _, 0 => .ok 0
  | [], _ + 1 => .error .caller
  | c :: s, n + 1 =>
    if c = z then .ok 0
    else do
      let k ← lengthUpTo z s n
      .ok (k + 1)

/-- `strnlen`. -/
def strnlen : List UInt8 → ℕ → Except Fault ℕ := lengthUpTo 0

/-- `"(null)"`. -/
def nullText : List UInt8 := [40, 110, 117, 108, 108, 41, 0]

/-- The conversion `s`. -/
def convertStr (cnt : ℤ) (a : List UInt8) (w p : ℤ) (fl : BitVec 32) : Except Stop (ℤ × List (List UInt8)) := do
  let n ← lift (strnlen a (if p < 0 then INT_MAX.toNat else p.toNat))
  let more ← lift (if p < 0 then (match a[n]? with | none => .error .caller | some c => .ok (decide (c ≠ 0)))
    else .ok false)
  if more then .error (.err .EOVERFLOW) else emitField cnt w ⟨a.take n, [], n, fl &&& ~~~ZERO_PAD⟩

/-- `for (i=l=0; i<p && *ws && (l=wctomb(mb, *ws++))>=0 && l<=p-i; i+=l);`, where `p` is of type `size_t`. -/
def wideLength (loc : Locale) (p : ℕ) : List ℕ → ℕ → Except Stop ℕ
  | [], i => if i < p then .error (.fault .caller) else .ok i
  | c :: ws, i =>
    if i < p then
      if c = 0 then .ok i
      else match loc.wctomb c with
        | none => .error (.err .EILSEQ)
        | some mb => if mb.length ≤ p - i then wideLength loc p ws (i + mb.length) else .ok i
    else .ok i

/-- `for (i=0; i<0U+p && *ws && i+(l=wctomb(mb, *ws++))<=p; i+=l) out(f, mb, l);` -/
def wideOut (loc : Locale) (p : ℕ) : List ℕ → ℕ → Except Stop (List (List UInt8))
  | [], i => if i < p then .error (.fault .caller) else .ok []
  | c :: ws, i =>
    if i < p then
      if c = 0 then .ok []
      else match loc.wctomb c with
        | none => .error (.fault .bounds)
        | some mb =>
          if i + mb.length ≤ p then do
            let rest ← wideOut loc p ws (i + mb.length)
            .ok (mb :: rest)
          else .ok []
    else .ok []

/-- The conversion `S`. -/
def convertWide (arch : Arch) (loc : Locale) (ws : List ℕ) (w p : ℤ) (fl : BitVec 32) :
    Except Stop (ℤ × List (List UInt8)) := do
  let i ← wideLength loc (p % 2 ^ arch.bits).toNat ws 0
  if (i : ℤ) > INT_MAX then .error (.err .EOVERFLOW)
  else
    let before ← lift (pad 32 w i fl)
    let chars ← wideOut loc i ws 0
    let after ← lift (pad 32 w i (fl ^^^ LEFT_ADJ))
    .ok (if w > i then w else i, before ++ chars ++ after)

/-- The floating-point conversions. -/
def convertFp (env : Env) (x : LongDouble env.L) (t : UInt8) (w p : ℤ) (xp : Bool) (fl : BitVec 32) :
    Except Stop (ℤ × List (List UInt8)) := do
  if xp ∧ p < 0 then .error (.err .EOVERFLOW)
  else
    let r ← lift (fmtFp env.L env.arch env.mode x w p fl t)
    match r with
    | none => .error (.err .EOVERFLOW)
    | some q => .ok q

/-- The `switch`, and the output after it: the new `l`, and what is written. -/
def convert (env : Env) (cnt : ℤ) (sp : Spec env.L) : Except Stop (ℤ × List (List UInt8)) :=
  if sp.t = 110 then .ok (0, [])
  else if sp.t = 109 then convertStr cnt env.errmsg sp.w sp.p sp.fl
  else if sp.t ∈ fpLetters then
    match sp.arg with
    | some (.fp x) => convertFp env x sp.t sp.w sp.p sp.xp sp.fl
    | _ => .error (.fault .caller)
  else if sp.t = 115 then
    match sp.arg with
    | some (.str a) => convertStr cnt (a.getD nullText) sp.w sp.p sp.fl
    | _ => .error (.fault .caller)
  else if sp.t = 83 then
    match sp.arg with
    | some (.wstr ws) => convertWide env.arch env.locale ws sp.w sp.p sp.fl
    | _ => .error (.fault .caller)
  else match sp.arg with
    | some (.num v) =>
      if sp.t = 99 ∨ sp.t = 67 ∧ v = 0 then convertChar cnt v sp.w sp.fl
      else if sp.t = 67 then convertWide env.arch env.locale [(v % 4294967296).toNat, 0] sp.w (-1) sp.fl
      else convertInt env.arch cnt sp.t v.toNat sp.w sp.p sp.xp sp.fl
    | _ => .error (.fault .caller)

/-! ## The loop -/

/-- The end of a pass: a value that is not negative, or `-1` with an error. -/
inductive Outcome where
  | ret (n : ℤ)
  | fail (e : Err)
  deriving DecidableEq

/-- How a turn of the loop ends. -/
inductive Turn (L : LdblFormat) where
  | next (st : State L)
  | stop (o : Outcome) (st : State L)

/-- A conversion, from its `%` on. -/
def stepSpec (env : Env) (f : Bool) (st : State env.L) : Except Stop (Turn env.L) := do
  let found ← parseSpec env.arch f st.inp
  match found with
  | .skip inp => .ok (.next { st with inp := inp })
  | .return0 => .ok (.stop (.ret 0) st)
  | .spec sp inp =>
    let r ← convert env st.cnt sp
    .ok (.next ⟨inp, st.cnt, r.1, st.out ++ r.2⟩)

/-- A turn of the loop of `printf_core`, in the pass `f`. -/
def step (env : Env) (f : Bool) (st : State env.L) : Except Stop (Turn env.L) := do
  let room ← lift (ck (INT_MAX - st.cnt))
  if st.l > room then .error (.err .EOVERFLOW)
  else
    let cnt ← lift (ck (st.cnt + st.l))
    let st := { st with cnt := cnt }
    if st.inp.s = [] then .ok (.stop (.ret cnt) st)
    else
      let a := literal st.inp.s
      let z := percents a.2
      let l : ℤ := a.1.length + z.1
      let room ← lift (ck (INT_MAX - cnt))
      if l > room then .error (.err .EOVERFLOW)
      else
        let text := a.1 ++ List.replicate z.1 37
        let st := { st with l := l, out := if f then st.out ++ [text] else st.out }
        if l ≠ 0 then .ok (.next { st with inp := { st.inp with s := z.2 } }) else stepSpec env f st

/-- The loop. An error is the result `-1`, with what has been written before. -/
def loop (env : Env) (f : Bool) : ℕ → State env.L → Except Fault (Outcome × State env.L)
  | 0, _ => .error .bounds
  | fuel + 1, st =>
    match step env f st with
    | .error (.fault e) => .error e
    | .error (.err e) => .ok (.fail e, st)
    | .ok (.stop o st) => .ok (o, st)
    | .ok (.next st) => loop env f fuel st

/-- The state at the beginning of a pass. -/
def State.start {L : LdblFormat} (inp : Input L) : State L := ⟨inp, 0, 0, []⟩

/-- `NL_ARGMAX`. -/
def NL_ARGMAX : ℕ := 9

/-- `for (i=1; i<=NL_ARGMAX && nl_type[i]; i++) pop_arg(nl_arg+i, nl_type[i], ap);`, for at most `n` turns from `i`
on. -/
def popLoop {L : LdblFormat} (arch : Arch) (ty : ℕ → Option ArgTy) :
    ℕ → ℕ → List (Arg L) → (ℕ → Option (Arg L)) → Except Fault (ℕ × List (Arg L) × (ℕ → Option (Arg L)))
  | 0, i, ap, args => .ok (i, ap, args)
  | n + 1, i, ap, args =>
    match ty i with
    | none => .ok (i, ap, args)
    | some t =>
      match ap with
      | [] => .error .caller
      | a :: ap => do
        let a ← argAs arch t a
        popLoop arch ty n (i + 1) ap (Function.update args i (some a))

/-- The lines behind the loop in the first pass: the arguments with positions, and those that are left. -/
def popArgs {L : LdblFormat} (arch : Arch) (inp : Input L) :
    Except Fault (Option (List (Arg L) × (ℕ → Option (Arg L)))) :=
  if inp.l10n = false then .ok (some (inp.ap, inp.nlArg))
  else do
    let r ← popLoop arch inp.nlType NL_ARGMAX 1 inp.ap inp.nlArg
    if (List.range (NL_ARGMAX + 1 - r.1)).any fun k => (inp.nlType (r.1 + k)).isSome then .ok none
    else .ok (some r.2)

/-- What is read at the beginning of a pass. -/
def Input.start {L : LdblFormat} (fmt : List UInt8) (ap : List (Arg L)) (nlArg : ℕ → Option (Arg L)) : Input L :=
  ⟨fmt, false, ap, fun _ => none, nlArg⟩

/-- The first call of `printf_core` in `vfprintf`: what the second one reads, or an error. -/
def firstPass (env : Env) (fmt : List UInt8) (args : List (Arg env.L)) :
    Except Fault (Except Err (Input env.L)) := do
  let first ← loop env false (fmt.length + 1) (State.start (Input.start fmt args fun _ => none))
  match first with
  | (.fail e, _) => .ok (.error e)
  | (.ret _, st) =>
    -- a pass that has returned early leaves the positions alone
    let popped ← (if st.inp.s = [] then popArgs env.arch st.inp else .ok (some (args, fun _ => none)))
    match popped with
    | none => .ok (.error .EINVAL)
    | some q => .ok (.ok (Input.start fmt q.1 q.2))

/-- The two calls of `printf_core` in `vfprintf`: the result of the second one, with what has been written, or of the
first one if that is an error. -/
def printfRun (env : Env) (fmt : List UInt8) (args : List (Arg env.L)) :
    Except Fault (Outcome × List (List UInt8)) := do
  let first ← firstPass env fmt args
  match first with
  | .error e => .ok (.fail e, [])
  | .ok inp => do
    let second ← loop env true (fmt.length + 1) (State.start inp)
    .ok (second.1, second.2.out)

/-- What `vfprintf` returns after the second call, when `ferror` says `err`. -/
def Outcome.value (err : Bool) : Outcome → ℤ
  | .ret n => if err then -1 else n
  | .fail _ => -1

end Leblibc.Printf.Core
