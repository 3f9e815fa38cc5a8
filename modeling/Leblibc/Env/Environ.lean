import Mathlib.Data.List.Basic
import Mathlib.Data.Nat.Notation
import Mathlib.Logic.Function.Basic

/-!
# The environment

A model of `src/env/setenv.c`, `putenv.c`, `unsetenv.c`, `clearenv.c` and `getenv.c`. A string is an address,
and the state says which bytes stand there before the NUL; the strings that a call receives as a name or as a
value are copied or compared by the call, and are passed as their bytes. `__environ` is null or an array,
which has an address and, up to its null pointer, the addresses of strings.

The state also keeps the blocks that the library has allocated and not freed, and the addresses that the
application has handed over: the initial array with its strings, and what went through `putenv`. Every call
of `free` is recorded with what the state was at that moment. What the allocator answers is an argument of a
call, and a null pointer is an answer too.

## Main definitions

* `State`, `Free`: the state, and a record of a call of `free`
* `envRmAdd`, `putenvAt`: `__env_rm_add` and `__putenv`
* `getenv`, `setenv`, `putenv`, `unsetenv`, `clearenv`: the functions of the source
* `Call`, `Answers`, `step`, `run`: calls, what the allocator answers in one, and sequences of calls
-/

namespace Leblibc.Env

/-- The byte `'='`. -/
def equals : UInt8 := 61

/-- An array of strings: where it stands, and its entries before the null pointer. -/
structure Vec where
  addr : ℕ
  strs : List ℕ
  deriving DecidableEq

/-- A call of `free`: the block, the strings `__environ` points to at that moment, the blocks the library
owns then, and the addresses that come from the application. -/
structure Free where
  ptr : ℕ
  environ : List ℕ
  owned : List ℕ
  foreign : List ℕ
  deriving DecidableEq

/-- The static variables of the functions, the strings in memory, and whose the blocks are. -/
structure State where
  content : ℕ → List UInt8
  environ : Option Vec
  oldenv : ℕ
  alloced : List ℕ
  owned : List ℕ
  foreign : List ℕ
  frees : List Free

namespace State

/-- The strings that `__environ` points to. -/
def strs (st : State) : List ℕ := (st.environ.map Vec.strs).getD []

/-- The pointer `__environ`. -/
def environAddr (st : State) : ℕ := (st.environ.map Vec.addr).getD 0

/-- The entries of the array at `__environ` are replaced. -/
def setStrs (st : State) (l : List ℕ) : State :=
  { st with environ := st.environ.map fun v => { v with strs := l } }

/-- The allocator hands out the block `p`. Memory of the application that is handed out again is no longer
what the application has passed. -/
def malloc (st : State) (p : ℕ) : State :=
  { st with owned := p :: st.owned, foreign := st.foreign.filter (· ≠ p) }

/-- The block `p` is handed out, and the string `str` is written there. -/
def mallocString (st : State) (p : ℕ) (str : List UInt8) : State :=
  { st.malloc p with content := Function.update st.content p str }

/-- `free`. -/
def free (st : State) (p : ℕ) : State :=
  if p = 0 then st
  else { st with
    owned := st.owned.filter (· ≠ p)
    frees := st.frees ++ [⟨p, st.strs, st.owned, st.foreign⟩] }

end State

/-- What the allocator answers in one call: the block for a string, the block for an array, and whether
the table of `__env_rm_add` can grow. -/
structure Answers where
  mem : ℕ
  room : ℕ
  grow : Bool

/-! ## The table of allocated strings -/

/-- The loop of `__env_rm_add`: the table it leaves, the value of `new`, and whether `old` was found. -/
def rmAddScan (old new : ℕ) : List ℕ → List ℕ × ℕ × Bool
  | [] => ([], new, false)
  | a :: t =>
    if a = old then (new :: t, new, true)
    else if a = 0 ∧ new ≠ 0 then
      let r := rmAddScan old 0 t
      (new :: r.1, r.2)
    else
      let r := rmAddScan old new t
      (a :: r.1, r.2)

/-- `__env_rm_add`, where `grow` says whether its `realloc` succeeds. -/
def envRmAdd (grow : Bool) (old new : ℕ) (st : State) : State :=
  match rmAddScan old new st.alloced with
  | (t, _, true) => { st with alloced := t }.free old
  | (t, n, false) =>
    if n = 0 then { st with alloced := t }
    else if grow then { st with alloced := t ++ [n] }
    else { st with alloced := t }

/-! ## Comparing names -/

/-- `__strchrnul(s, '=') - s`. -/
def nameLen (s : List UInt8) : ℕ := (s.takeWhile (· ≠ equals)).length

/-- The byte at an index of a string, which may be that of the NUL. -/
def byteAt (s : List UInt8) (l : ℕ) : UInt8 := (s ++ [0]).getD l 0

/-- `!strncmp(s, t, n)`. -/
def sameFor (n : ℕ) (s t : List UInt8) : Bool := (s ++ [0]).take n == (t ++ [0]).take n

/-- The test of `getenv` and `unsetenv` for a string of the environment. -/
def hits (name e : List UInt8) : Bool :=
  sameFor (nameLen name) name e && byteAt e (nameLen name) == equals

/-! ## The functions -/

/-- `getenv`: the string, and the offset in it that the result points to. -/
def getenv (name : List UInt8) (st : State) : Option (ℕ × ℕ) :=
  let l := nameLen name
  if l ≠ 0 ∧ byteAt name l = 0 then
    (st.strs.find? fun e => hits name (st.content e)).map fun e => (e, l + 1)
  else none

/-- The bytes that the result of `getenv` points to. -/
def value (st : State) (name : List UInt8) : Option (List UInt8) :=
  (getenv name st).map fun r => (st.content r.1).drop r.2

/-- The block for a larger array: `oldenv` is resized where `__environ` still points there, and freed for a new
array otherwise. -/
def State.resize (st : State) (room : ℕ) : State :=
  if st.environAddr = st.oldenv then (st.free st.oldenv).malloc room
  else (st.malloc room).free st.oldenv

/-- The part of `__putenv` after its loop: the entries are copied to a larger array. -/
def putenvGrow (ans : Answers) (s r : ℕ) (st : State) : Bool × State :=
  if ans.room = 0 then (false, st.free r)
  else
    let st := { st.resize ans.room with
      environ := some ⟨ans.room, st.strs ++ [s]⟩
      oldenv := ans.room }
    (true, if r ≠ 0 then envRmAdd ans.grow 0 r st else st)

/-- `__putenv`: whether it succeeds, and the state it leaves. -/
def putenvAt (ans : Answers) (s l r : ℕ) (st : State) : Bool × State :=
  match st.strs.findIdx? fun e => sameFor (l + 1) (st.content s) (st.content e) with
  | some i =>
    let tmp := st.strs.getD i 0
    (true, envRmAdd ans.grow tmp r (st.setStrs (st.strs.set i s)))
  | none => putenvGrow ans s r st

/-- `setenv`. A null pointer for `var` is `none`. -/
def setenv (ans : Answers) (var : Option (List UInt8)) (value : List UInt8) (overwrite : Bool)
    (st : State) : Bool × State :=
  match var with
  | none => (false, st)
  | some var =>
    let l := nameLen var
    if l = 0 ∨ byteAt var l ≠ 0 then (false, st)
    else if !overwrite && (getenv var st).isSome then (true, st)
    else if ans.mem = 0 then (false, st)
    else
      putenvAt ans ans.mem l ans.mem (st.mallocString ans.mem (var.take l ++ equals :: value))

/-- The loop of `unsetenv`, with the indices `e` and `eo` into the array. -/
def unsetLoop (name : List UInt8) : ℕ → ℕ → ℕ → State → State
  | 0, _, _, st => st
  | fuel + 1, e, eo, st =>
    match st.strs[e]? with
    | none => if eo ≠ e then st.setStrs (st.strs.take eo) else st
    | some p =>
      if hits name (st.content p) then unsetLoop name fuel (e + 1) eo (envRmAdd false p 0 st)
      else if eo ≠ e then unsetLoop name fuel (e + 1) (eo + 1) (st.setStrs (st.strs.set eo p))
      else unsetLoop name fuel (e + 1) (eo + 1) st

/-- `unsetenv`. -/
def unsetenv (name : List UInt8) (st : State) : Bool × State :=
  let l := nameLen name
  if l = 0 ∨ byteAt name l ≠ 0 then (false, st)
  else (true, unsetLoop name (st.strs.length + 1) 0 0 st)

/-- `putenv` of the string at `s`. -/
def putenv (ans : Answers) (s : ℕ) (st : State) : Bool × State :=
  let l := nameLen (st.content s)
  if l = 0 ∨ byteAt (st.content s) l = 0 then unsetenv (st.content s) st
  else putenvAt ans s l 0 st

/-- `clearenv`. -/
def clearenv (st : State) : Bool × State :=
  (true, st.strs.foldl (fun st p => envRmAdd false p 0 st) { st with environ := none })

/-! ## Sequences of calls -/

/-- A call. The string that `putenv` passes is one of the application: its address, and what it holds. -/
inductive Call where
  | setenv (var : Option (List UInt8)) (value : List UInt8) (overwrite : Bool)
  | putenv (s : ℕ) (str : List UInt8)
  | unsetenv (name : List UInt8)
  | clearenv
  | getenv (name : List UInt8)
  deriving DecidableEq

/-- The application hands over the string `str` at `s`. -/
def State.supply (st : State) (s : ℕ) (str : List UInt8) : State :=
  { st with content := Function.update st.content s str, foreign := s :: st.foreign }

/-- One call: whether it reports success, and the state after it. -/
def step (st : State) (c : Call) (ans : Answers) : Bool × State :=
  match c with
  | .setenv var value overwrite => setenv ans var value overwrite st
  | .putenv s str => putenv ans s (st.supply s str)
  | .unsetenv name => unsetenv name st
  | .clearenv => clearenv st
  | .getenv _ => (true, st)

/-- A sequence of calls: what each of them reports, and the state after the last one. -/
def run : State → List (Call × Answers) → List Bool × State
  | st, [] => ([], st)
  | st, (c, ans) :: cs =>
    let r := step st c ans
    let rest := run r.2 cs
    (r.1 :: rest.1, rest.2)

end Leblibc.Env
