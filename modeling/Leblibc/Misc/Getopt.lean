import Mathlib.Data.List.Basic
import Mathlib.Data.Int.Notation
import Mathlib.Data.Nat.Notation

/-!
# Parsing arguments

A model of `src/misc/getopt.c` and `src/misc/getopt_long.c`. An argument is the address of a string with the
bytes of the string, and `argv` is the list of its entries with the null pointer at its end. What the functions
read of the locale is `mbtowc`; it is an argument of the model, with the one property that a character has at
least one byte and does not reach beyond the end of the string.

`__getopt_long` looks for the next argument that begins with `'-'`, lets `__getopt_long_core` handle it, and then
moves the arguments that this has used up before those it has passed over.

## Main definitions

* `Config`, `State`: what stays the same in all calls, and what a call changes
* `scanOptstring`: the loop of `getopt` over the characters of `optstring`
* `getopt`: the function of the source
* `longMatches`, `longCore`: `__getopt_long_core`
* `permute`, `getoptLong`: the functions of the source
-/

namespace Leblibc.Getopt

/-- `'-'`. -/
def dash : UInt8 := 45

/-- `'+'`. -/
def plus : UInt8 := 43

/-- `':'`. -/
def colon : UInt8 := 58

/-- `'='`. -/
def equals : UInt8 := 61

/-- The result `'?'`. -/
def question : ℤ := 63

/-- `mbtowc` in the current locale: how many bytes the first character of a string has and which one it is, or
nothing if there is no valid one. The end of the string is a character without bytes. -/
structure Locale where
  mbtowc : List UInt8 → Option (ℕ × ℕ)
  nil : mbtowc [] = some (0, 0)
  pos : ∀ s k c, s ≠ [] → mbtowc s = some (k, c) → 0 < k
  le : ∀ s k c, mbtowc s = some (k, c) → k ≤ s.length

/-- `struct option`. The address `flag` may be null. -/
structure LongOption where
  name : List UInt8
  hasArg : ℤ
  flag : Option ℕ
  val : ℤ
  deriving DecidableEq

/-- `required_argument`. -/
def requiredArgument : ℤ := 1

/-- An argument: its address, and its bytes before the NUL. -/
structure Arg where
  addr : ℕ
  bytes : List UInt8
  noNul : 0 ∉ bytes

instance : DecidableEq Arg := fun v w =>
  decidable_of_iff (v.addr = w.addr ∧ v.bytes = w.bytes)
    ⟨fun h => by cases v; cases w; cases h.1; cases h.2; rfl, fun h => h ▸ ⟨rfl, rfl⟩⟩

/-- A byte of a string, which may be the NUL. -/
def byte (s : List UInt8) (i : ℕ) : UInt8 := (s ++ [0]).getD i 0

/-- What is printed for an error. -/
inductive Message where
  | notTaken
  | required
  | ambiguous
  | unrecognized
  deriving DecidableEq

/-- The texts of the source. -/
def Message.text : Message → String
  | notTaken => ": option does not take an argument: "
  | required => ": option requires an argument: "
  | ambiguous => ": option is ambiguous: "
  | unrecognized => ": unrecognized option: "

/-- What all calls have in common. `longopts` may be null, and `idx` may be. -/
structure Config where
  locale : Locale
  argc : ℕ
  optstring : List UInt8
  longopts : Option (List LongOption)
  idx : Bool
  opterr : Bool

/-- The variables of the library, the array `argv`, what was stored at `idx` and through `flag`, and what was
printed. -/
structure State where
  argv : List (Option Arg)
  optind : ℕ
  optpos : ℕ
  optreset : Bool
  optarg : Option (List UInt8)
  optopt : ℤ
  index : Option ℕ
  stores : List (ℕ × ℤ)
  printed : List (Message × List UInt8)

namespace State

/-- `argv[i]`. -/
def arg (st : State) (i : ℕ) : Option Arg := (st.argv[i]?).join

/-- `__getopt_msg`. -/
def print (st : State) (m : Message) (s : List UInt8) : State :=
  { st with printed := st.printed ++ [(m, s)] }

/-- The start of both functions. -/
def reset (st : State) : State :=
  if st.optind = 0 ∨ st.optreset then { st with optreset := false, optpos := 0, optind := 1 } else st

end State

/-! ## `getopt` -/

/-- The loop of `getopt` over `optstring`: the last character seen, and what follows it. The characters are those
of `s`, and `d` is the value of the variable before. -/
def scanOptstring (loc : Locale) (c : ℕ) : ℕ → ℕ → List UInt8 → ℕ × List UInt8
  | 0, d, s => (d, s)
  | fuel + 1, d, s =>
    match loc.mbtowc s with
    | some (0, d) => (d, s.drop 1)
    | some (l, d) => if d ≠ c then scanOptstring loc c fuel d (s.drop l) else (d, s.drop l)
    | none => if d ≠ c then scanOptstring loc c fuel d (s.drop 1) else (d, s.drop 1)

/-- The characters of options: `optstring` after a `'-'` or `'+'`. -/
def Config.shortopts (cfg : Config) : List UInt8 :=
  if byte cfg.optstring 0 = dash ∨ byte cfg.optstring 0 = plus then cfg.optstring.drop 1 else cfg.optstring

/-- The character at a place of an argument, with the number of its bytes. -/
def charAt (loc : Locale) (s : List UInt8) (pos : ℕ) : ℕ × ℕ :=
  match loc.mbtowc (s.drop pos) with
  | some r => r
  | none => (1, 0xfffd)

/-- Whether an option takes an argument: what `optstring` says after its character, if it lists it. -/
inductive Takes where
  | unknown
  | nothing
  | required
  | optional
  deriving DecidableEq

/-- What `getopt` reads of `optstring` for a character. -/
def Config.takes (cfg : Config) (c : ℕ) : Takes :=
  let r := scanOptstring cfg.locale c (cfg.shortopts.length + 1) 0 cfg.shortopts
  if r.1 ≠ c ∨ c = colon.toNat then .unknown
  else if byte r.2 0 = colon then
    if byte r.2 1 = colon then .optional else .required
  else .nothing

/-- The place in the argument moves on to `next`, or to the next argument at the end of this one. -/
def State.advance (st : State) (w : Arg) (next : ℕ) : State :=
  if byte w.bytes next = 0 then { st with optind := st.optind + 1, optpos := 0 } else { st with optpos := next }

/-- An option takes its argument: the rest of this one, or the next one. -/
def State.takeArg (st : State) : State :=
  { st with
    optarg := (st.arg st.optind).map fun a => a.bytes.drop st.optpos
    optind := st.optind + 1
    optpos := 0 }

/-- The end of `getopt` for the option `c`, which takes an argument or may take one. -/
def getoptArg (cfg : Config) (c : ℕ) (t : Takes) (optchar : List UInt8) (st : State) : ℤ × State :=
  let st := if t = .required ∨ st.optpos ≠ 0 then st.takeArg else { st with optarg := none }
  if st.optind > cfg.argc then
    let st := { st with optopt := c }
    if byte cfg.shortopts 0 = colon then (colon.toNat, st)
    else (question, if cfg.opterr then st.print .required optchar else st)
  else (c, st)

/-- The place in an argument where `getopt` goes on. -/
def State.place (st : State) : ℕ := if st.optpos = 0 then 1 else st.optpos

/-- `getopt` from the place on where it looks at a character of the argument `w`. -/
def getoptChar (cfg : Config) (w : Arg) (st : State) : ℤ × State :=
  let pos := st.place
  let r := charAt cfg.locale w.bytes pos
  let optchar := (w.bytes.drop pos).take r.1
  let st := st.advance w (pos + r.1)
  match cfg.takes r.2 with
  | .unknown =>
    let st := { st with optopt := r.2 }
    (question, if byte cfg.shortopts 0 ≠ colon ∧ cfg.opterr then st.print .unrecognized optchar else st)
  | .nothing => (r.2, st)
  | t => getoptArg cfg r.2 t optchar st

/-- `getopt`. -/
def getopt (cfg : Config) (st : State) : ℤ × State :=
  let st := st.reset
  if st.optind ≥ cfg.argc then (-1, st)
  else
    match st.arg st.optind with
    | none => (-1, st)
    | some w =>
      if byte w.bytes 0 ≠ dash then
        if byte cfg.optstring 0 = dash then
          (1, { st with optarg := some w.bytes, optind := st.optind + 1 })
        else (-1, st)
      else if byte w.bytes 1 = 0 then (-1, st)
      else if byte w.bytes 1 = dash ∧ byte w.bytes 2 = 0 then (-1, { st with optind := st.optind + 1 })
      else getoptChar cfg w st

/-! ## Long options -/

/-- The loop over the bytes of one name: what is left of the argument and of the name. -/
def matchName : List UInt8 → List UInt8 → List UInt8 × List UInt8
  | o :: opt, n :: name => if o ≠ equals ∧ o = n then matchName opt name else (o :: opt, n :: name)
  | opt, name => (opt, name)

/-- The loop over the table, from the entry `i` on: `cnt`, with `match` and `arg` once they have been set. -/
def longMatches (opt : List UInt8) : ℕ → ℕ → Option (ℕ × List UInt8) → List LongOption →
    ℕ × Option (ℕ × List UInt8)
  | _, cnt, found, [] => (cnt, found)
  | i, cnt, found, o :: table =>
    let r := matchName opt o.name
    if byte r.1 0 ≠ 0 ∧ byte r.1 0 ≠ equals then longMatches opt (i + 1) cnt found table
    else if r.2 = [] then (1, some (i, r.1))
    else longMatches opt (i + 1) (cnt + 1) (some (i, r.1)) table

/-- The loop that looks for a character of `l` bytes in `optstring`. -/
def listsBytes (c : List UInt8) : List UInt8 → Bool
  | [] => false
  | b :: s => c.isPrefixOf (b :: s) || listsBytes c s

/-- `cnt`, `match` and `arg` for the argument `w`, after the loop over the table and, in `getopt_long_only`, the
comparison with the short options. -/
def longLookup (cfg : Config) (longonly : Bool) (table : List LongOption) (w : Arg) :
    ℕ × Option (ℕ × List UInt8) :=
  let start := w.bytes.drop 1
  let opt := if byte start 0 = dash then start.drop 1 else start
  let r := longMatches opt 0 0 none table
  let l := start.length - (r.2.map fun m => m.2.length).getD 0
  if r.1 = 1 ∧ longonly ∧ (cfg.locale.mbtowc start).map Prod.fst = some l then
    if listsBytes (start.take l) cfg.optstring then (2, r.2) else r
  else r

/-- The argument is looked up among the long options. -/
def isLong (longonly : Bool) (w : Arg) : Prop :=
  byte w.bytes 0 = dash ∧
    ((longonly ∧ byte w.bytes 1 ≠ 0 ∧ byte w.bytes 1 ≠ dash) ∨ (byte w.bytes 1 = dash ∧ byte w.bytes 2 ≠ 0))

instance (longonly : Bool) (w : Arg) : Decidable (isLong longonly w) :=
  inferInstanceAs (Decidable (_ ∧ (_ ∨ _)))

/-- The end of the part of `__getopt_long_core` for the entry `o` with the index `i`. -/
def longFound (cfg : Config) (i : ℕ) (o : LongOption) (st : State) : ℤ × State :=
  let st := if cfg.idx then { st with index := some i } else st
  match o.flag with
  | some p => (0, { st with stores := st.stores ++ [(p, o.val)] })
  | none => (o.val, st)

/-- `__getopt_long_core` when exactly one entry matches; `arg` is what follows the name in the argument. -/
def longOne (cfg : Config) (i : ℕ) (o : LongOption) (arg : List UInt8) (st : State) : ℤ × State :=
  let colons := byte cfg.shortopts 0 = colon
  let st := { st with optind := st.optind + 1 }
  if byte arg 0 = equals then
    if o.hasArg = 0 then
      let st := { st with optopt := o.val }
      if colons ∨ ¬cfg.opterr then (question, st) else (question, st.print .notTaken o.name)
    else longFound cfg i o { st with optarg := some (arg.drop 1) }
  else if o.hasArg = requiredArgument then
    match st.arg st.optind with
    | none =>
      let st := { st with optopt := o.val }
      if colons then (colon.toNat, st)
      else if ¬cfg.opterr then (question, st)
      else (question, st.print .required o.name)
    | some a => longFound cfg i o { st with optarg := some a.bytes, optind := st.optind + 1 }
  else longFound cfg i o st

/-- `__getopt_long_core`, for the argument `w` at `optind`. -/
def longCore (cfg : Config) (longonly : Bool) (w : Arg) (st : State) : ℤ × State :=
  let st := { st with optarg := none }
  match cfg.longopts with
  | none => getopt cfg st
  | some table =>
    if isLong longonly w then
      match longLookup cfg longonly table w with
      | (1, some (i, arg)) =>
        match table[i]? with
        | some o => longOne cfg i o arg st
        | none => getopt cfg st
      | (cnt, _) =>
        if byte w.bytes 1 = dash then
          let colons := byte cfg.shortopts 0 = colon
          let st := { st with optopt := 0 }
          let st := if ¬colons ∧ cfg.opterr then
              st.print (if cnt ≠ 0 then .ambiguous else .unrecognized) (w.bytes.drop 2)
            else st
          (question, { st with optind := st.optind + 1 })
        else getopt cfg st
    else getopt cfg st

/-! ## Moving the arguments -/

/-- The loop of `permute` that moves the entries from `dest` on up by one, with `n` of them still to move. -/
def shift (dest : ℕ) : ℕ → List (Option Arg) → List (Option Arg)
  | 0, av => av
  | n + 1, av => shift dest n (av.set (dest + n + 1) (av.getD (dest + n) none))

/-- `permute`. -/
def permute (dest src : ℕ) (av : List (Option Arg)) : List (Option Arg) :=
  (shift dest (src - dest) av).set dest (av.getD src none)

/-- `cnt` calls of `permute`. -/
def permutes (dest src : ℕ) : ℕ → List (Option Arg) → List (Option Arg)
  | 0, av => av
  | n + 1, av => permutes dest src n (permute dest src av)

/-- The loop that looks for an argument that begins with `'-'`, from the index `i` on; there is none if it gives
`none`. -/
def findOption (argc : ℕ) (st : State) : ℕ → ℕ → Option ℕ
  | 0, _ => none
  | fuel + 1, i =>
    if i ≥ argc then none
    else
      match st.arg i with
      | none => none
      | some w =>
        if byte w.bytes 0 = dash ∧ byte w.bytes 1 ≠ 0 then some i else findOption argc st fuel (i + 1)

/-- The last `cnt` arguments before `optind` are moved down to `skipped`. -/
def State.restore (st : State) (skipped cnt : ℕ) : State :=
  { st with argv := permutes skipped (st.optind - 1) cnt st.argv, optind := skipped + cnt }

/-- `__getopt_long` once it has found the argument at `optind` to go on with, where it began to look at `skipped`. -/
def getoptLongAt (cfg : Config) (longonly : Bool) (skipped : ℕ) (st : State) : ℤ × State :=
  match st.arg st.optind with
  | none => (-1, st)
  | some w =>
    let r := longCore cfg longonly w st
    if st.optind > skipped then (r.1, r.2.restore skipped (r.2.optind - st.optind)) else r

/-- `__getopt_long`. -/
def getoptLongWith (cfg : Config) (longonly : Bool) (st : State) : ℤ × State :=
  let st := st.reset
  if st.optind ≥ cfg.argc ∨ st.arg st.optind = none then (-1, st)
  else if byte cfg.optstring 0 ≠ plus ∧ byte cfg.optstring 0 ≠ dash then
    match findOption cfg.argc st (cfg.argc + 1 - st.optind) st.optind with
    | none => (-1, st)
    | some i => getoptLongAt cfg longonly st.optind { st with optind := i }
  else getoptLongAt cfg longonly st.optind st

/-- `getopt_long`. -/
def getoptLong (cfg : Config) (st : State) : ℤ × State := getoptLongWith cfg false st

/-- `getopt_long_only`. -/
def getoptLongOnly (cfg : Config) (st : State) : ℤ × State := getoptLongWith cfg true st

/-- The state when the program starts with the arguments `l`. -/
def State.init (l : List Arg) : State where
  argv := l.map some ++ [none]
  optind := 1
  optpos := 0
  optreset := false
  optarg := none
  optopt := 0
  index := none
  stores := []
  printed := []

/-- The state after `n` calls of `getopt_long`. -/
def after (cfg : Config) (st : State) : ℕ → State
  | 0 => st
  | n + 1 => (getoptLong cfg (after cfg st n)).2

end Leblibc.Getopt
