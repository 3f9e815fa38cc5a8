import Leblibc.Base.Machine
import Mathlib.Logic.Function.Basic

/-!
# Thread-specific data

The values of the first `PTHREAD_TSD_INLINE_KEYS` keys stand in an array of each thread; all others
stand in one list, `extended_values`, whose entries name the thread by its `pthread_t`, that is by its
address. The table `keys` holds the destructor of every key in use; it grows by doubling and is freed
with the last key.

Every function runs under `key_lock`, except for the destructors that `__pthread_tsd_run_dtors` calls:
a destructor is code of the program, and may use the functions itself while other threads use them too.
The system is therefore a machine whose steps are calls and, for a thread that runs its destructors,
single turns of the loops of `__pthread_tsd_run_dtors`. A step that would follow a null pointer gives
`none`.

## Main definitions

* `Thread`, `State`: a thread, and the state of the process
* `keyCreate`, `keyDelete`, `tsdGet`, `tsdSet`: the functions of the source
* `Phase`, `runDtors`: how far a thread has come in `__pthread_tsd_run_dtors`, and one turn of it
* `Event`, `step`: the machine
-/

namespace Leblibc.Tsd

/-- `PTHREAD_TSD_INLINE_KEYS`. -/
def INLINE_KEYS : ℕ := 8

/-- `PTHREAD_DESTRUCTOR_ITERATIONS`. -/
def DESTRUCTOR_ITERATIONS : ℕ := 4

/-- `EAGAIN`. There is no `ENOMEM` here: allocations succeed. -/
def EAGAIN : ℕ := 11

/-- `EINVAL`. -/
def EINVAL : ℕ := 22

/-- A destructor: the function `nodtor` of the library, or one of the program. -/
inductive Dtor where
  | nodtor
  | fn (f : ℕ)
  deriving DecidableEq

/-- `struct extended_tsd`, less its `next`. -/
structure Entry where
  thread : ℕ
  key : ℕ
  value : ℕ
  deriving DecidableEq

/-- Where a thread is: in code of the program, in `__pthread_tsd_run_dtors` before the pass `j`, in the
pass `j` before the key `i`, or in the destructor of the key `i` in the pass `j`. -/
inductive Phase where
  | user
  | pass (j : ℕ)
  | key (j i : ℕ)
  | dtor (j i : ℕ)
  deriving DecidableEq

/-- What the library knows of a thread: the array of values, once there is one, the flag `tsd_used`,
where it is, and whether it exits after its destructors (a timer's thread goes on). -/
structure Thread where
  tsd : Option (ℕ → ℕ)
  tsdUsed : Bool
  phase : Phase
  exits : Bool

/-- The state of the process: the table of keys with `next_key`, the list `extended_values`, the threads
by address, the list of threads, and `libc.threaded`. -/
structure State where
  keys : List (Option Dtor)
  nextKey : ℕ
  extended : List Entry
  thread : ℕ → Option Thread
  list : List ℕ
  threaded : Bool

/-- The process when it starts, with one thread at the address `main`. -/
def State.init (main : ℕ) : State where
  keys := []
  nextKey := 0
  extended := []
  thread := Function.update (fun _ => none) main (some ⟨none, false, .user, false⟩)
  list := [main]
  threaded := false

/-- The thread at the address `t` is changed. -/
def State.modify (s : State) (t : ℕ) (f : Thread → Thread) : State :=
  { s with thread := Function.update s.thread t ((s.thread t).map f) }

/-- `self->tsd = __pthread_tsd_main`, for the one thread whose array this is: nothing has been stored in
it before. -/
def Thread.attach (th : Thread) : Thread :=
  { th with tsd := some (th.tsd.getD fun _ => 0) }

/-- `keys[k]` is not null. -/
def inUse (keys : List (Option Dtor)) (k : ℕ) : Bool := (keys[k]?.join).isSome

/-! ## Values -/

/-- The entry is the one for this thread and this key. -/
def Entry.isFor (t k : ℕ) (e : Entry) : Bool := e.thread = t ∧ e.key = k

/-- `find_extended`. -/
def findExtended (t k : ℕ) (l : List Entry) : Option Entry := l.find? (Entry.isFor t k)

/-- `tsd_get_locked`. -/
def tsdGetLocked (t k : ℕ) (s : State) : Option ℕ :=
  if k < INLINE_KEYS then do
    let th ← s.thread t
    let tsd ← th.tsd
    some (tsd k)
  else
    match findExtended t k s.extended with
    | some e => some e.value
    | none => some 0

/-- The list with the first entry for this thread and key changed. -/
def replaceExtended (t k v : ℕ) : List Entry → List Entry
  | [] => []
  | e :: l => if e.isFor t k then { e with value := v } :: l else e :: replaceExtended t k v l

/-- `tsd_set_locked`. -/
def tsdSetLocked (t k v : ℕ) (s : State) : Option State :=
  if k < INLINE_KEYS then do
    let th ← s.thread t
    let tsd ← th.tsd
    some (s.modify t fun th => { th with tsd := some (Function.update tsd k v) })
  else
    match findExtended t k s.extended with
    | some _ =>
      if v ≠ 0 then some { s with extended := replaceExtended t k v s.extended }
      else some { s with extended := s.extended.eraseP (Entry.isFor t k) }
    | none =>
      if v = 0 then some s else some { s with extended := ⟨t, k, v⟩ :: s.extended }

/-- `__pthread_tsd_get`. -/
def tsdGet (t k : ℕ) (s : State) : Option ℕ :=
  if inUse s.keys k then tsdGetLocked t k s else some 0

/-- `__pthread_tsd_set`: the result, and the state left. -/
def tsdSet (t k v : ℕ) (s : State) : Option (ℕ × State) :=
  if ¬inUse s.keys k then some (EINVAL, s)
  else do
    let s ← tsdSetLocked t k v s
    some (0, if v ≠ 0 then s.modify t fun th => { th with tsdUsed := true } else s)

/-! ## Keys -/

/-- `for (; n; index++, n--) if (!keys[index]) break;` -/
def scan (keys : List (Option Dtor)) : ℕ → ℕ → ℕ
  | 0, index => index
  | n + 1, index => if inUse keys index then scan keys n (index + 1) else index

/-- The search for a free key in the table: its index, or the capacity of the table if there is none. -/
def searchFree (keys : List (Option Dtor)) (nextKey : ℕ) : ℕ :=
  let start := if nextKey < keys.length then nextKey else 0
  let index := scan keys (keys.length - start) start
  let index := if index = keys.length then scan keys start 0 else index
  if index = start ∧ inUse keys index then keys.length else index

/-- The destructor that is stored for the argument `dtor`. -/
def Dtor.ofArg : Option ℕ → Dtor
  | none => .nodtor
  | some f => .fn f

/-- `__pthread_key_create`, called by the thread `self`: the key, or `none` for `EAGAIN`, and the state
left. -/
def keyCreate (arch : Arch) (self : ℕ) (dtor : Option ℕ) (s : State) : Option ℕ × State :=
  let s := s.modify self Thread.attach
  let d := Dtor.ofArg dtor
  let keys := if s.keys.length = 0 then [none] else s.keys
  let index := searchFree keys s.nextKey
  if index = keys.length then
    if keys.length > (2 ^ 32 - 1) / 2 ∨ keys.length * 2 > arch.sizeMax / arch.ptrSize then
      (none, { s with keys := keys })
    else
      let keys := keys ++ List.replicate keys.length none
      (some (index % 2 ^ 32),
        { s with
          keys := keys.set index (some d)
          nextKey := (if index + 1 < keys.length then index + 1 else 0) % 2 ^ 32 })
  else
    (some (index % 2 ^ 32),
      { s with
        keys := keys.set index (some d)
        nextKey := (if index + 1 < keys.length then index + 1 else 0) % 2 ^ 32 })

/-- `do td->tsd[k] = 0; while ((td=td->next)!=self)` -/
def clearInline (k : ℕ) : List ℕ → State → Option State
  | [], s => some s
  | t :: l, s => do
    let th ← s.thread t
    let tsd ← th.tsd
    clearInline k l (s.modify t fun th => { th with tsd := some (Function.update tsd k 0) })

/-- The part of `__pthread_key_delete` that removes the values of the key from every thread. -/
def clearValues (k : ℕ) (s : State) : Option State :=
  if k < INLINE_KEYS then clearInline k s.list s
  else some { s with extended := s.extended.filter fun e => e.key ≠ k }

/-- `__pthread_key_delete`: the result, and the state left. -/
def keyDelete (k : ℕ) (s : State) : Option (ℕ × State) :=
  if ¬inUse s.keys k then some (EINVAL, s)
  else do
    let s ← clearValues k s
    let keys := s.keys.set k none
    -- the table is freed with the last key
    if keys.any Option.isSome then some (0, { s with keys := keys })
    else some (0, { s with keys := [], nextKey := 0 })

/-! ## Destructors -/

/-- What the thread gets back: a key, an error number, a value, the key and the value that
`__pthread_tsd_run_dtors` takes from it, or nothing. -/
inductive Reply where
  | key (k : ℕ)
  | status (e : ℕ)
  | value (v : ℕ)
  | taken (k v : ℕ)
  | done
  deriving DecidableEq

/-- The next turn of `__pthread_tsd_run_dtors` in the thread `self`. A thread that exits is gone when its
passes are over. -/
def runDtors (self : ℕ) (th : Thread) (s : State) : Option (Reply × State) :=
  match th.phase with
  | .pass j =>
    if th.tsdUsed ∧ j < DESTRUCTOR_ITERATIONS then
      some (.done, s.modify self fun th => { th with tsdUsed := false, phase := .key j 0 })
    else if th.exits then
      some (.done,
        { s with thread := Function.update s.thread self none, list := s.list.erase self })
    else some (.done, s.modify self fun th => { th with phase := .user })
  | .key j i =>
    if s.keys.length ≤ i then
      some (.done, s.modify self fun th => { th with phase := .pass (j + 1) })
    else do
      let val ← tsdGet self i s
      let dtor := s.keys[i]?.join
      let s ← tsdSetLocked self i 0 s
      if val ≠ 0 ∧ dtor.isSome ∧ dtor ≠ some .nodtor then
        some (.taken i val, s.modify self fun th => { th with phase := .dtor j i })
      else some (.taken i val, s.modify self fun th => { th with phase := .key j (i + 1) })
  | _ => some (.done, s)

/-! ## The machine -/

/-- What a thread can do. -/
inductive Event where
  | keyCreate (self : ℕ) (dtor : Option ℕ)
  | keyDelete (self k : ℕ)
  | set (self k v : ℕ)
  | get (self k : ℕ)
  /-- `pthread_create`, with the new thread at the address `new` -/
  | create (self new : ℕ)
  /-- the thread exits, or a timer's thread has run its function -/
  | finish (self : ℕ) (exits : Bool)
  /-- a turn of `__pthread_tsd_run_dtors` -/
  | turn (self : ℕ)
  /-- the destructor returns -/
  | dtorReturn (self : ℕ)

/-- The thread runs code of the program. -/
def State.inProgram (s : State) (t : ℕ) : Bool :=
  match s.thread t with
  | some th =>
    match th.phase with
    | .user => true
    | .dtor _ _ => true
    | _ => false
  | none => false

/-- The event can happen in this state. -/
def State.enabled (s : State) : Event → Bool
  | .keyCreate self _ | .keyDelete self _ | .set self _ _ | .get self _ => s.inProgram self
  | .create self new => s.inProgram self ∧ new ≠ 0 ∧ s.thread new = none
  | .finish self _ => (s.thread self).map (·.phase) = some .user
  | .turn self => (s.thread self).isSome ∧ ¬s.inProgram self
  | .dtorReturn self => s.inProgram self ∧ (s.thread self).map (·.phase) ≠ some .user

/-- One event: the reply, and the state left. -/
def step (arch : Arch) (s : State) : Event → Option (Reply × State)
  | .keyCreate self dtor =>
    match keyCreate arch self dtor s with
    | (some k, s) => some (.key k, s)
    | (none, s) => some (.status EAGAIN, s)
  | .keyDelete _ k => do
    let (e, s) ← keyDelete k s
    some (.status e, s)
  | .set self k v => do
    let (e, s) ← tsdSet self k v s
    some (.status e, s)
  | .get self k => do
    let v ← tsdGet self k s
    some (.value v, s)
  | .create self new =>
    let s := if s.threaded then s else s.modify self Thread.attach
    some (.done,
      { s with
        thread := Function.update s.thread new (some ⟨some fun _ => 0, false, .user, false⟩)
        list := new :: s.list
        threaded := true })
  | .finish self exits =>
    some (.done, s.modify self fun th => { th with phase := .pass 0, exits := exits })
  | .turn self => do
    let th ← s.thread self
    runDtors self th s
  | .dtorReturn self =>
    some (.done, s.modify self fun th =>
      match th.phase with
      | .dtor j i => { th with phase := .key j (i + 1) }
      | _ => th)

end Leblibc.Tsd
