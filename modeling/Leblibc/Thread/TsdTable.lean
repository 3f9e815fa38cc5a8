import Leblibc.Thread.Tsd

/-!
# Thread-specific data when memory is short

The functions of `src/thread/pthread_key_create.c` again, now with the outcome of every allocation, and with the
pointer `keys` and the number `keys_capacity` as the two variables they are: they are not set at the same time. An
access through the null pointer or outside of the table gives `none`.

The values of the threads and the list `extended_values` are as before, and so are the functions that use only these.

## Main definitions

* `Outcomes`: the outcomes of the allocations in a call
* `Process`: the state of the process; `Process.state` is what the functions without the table see of it
* `Process.tsdGet`, `Process.tsdSet`, `Process.keyCreate`, `Process.keyDelete`, `Process.runDtors`: the functions
* `Process.step`: the machine
-/

namespace Leblibc.Tsd

/-- `ENOMEM`. -/
def ENOMEM : ℕ := 12

/-- The outcomes of the allocations in a call: `calloc` and `realloc` in `__pthread_key_create`, and `malloc` in
`tsd_set_locked`. -/
structure Outcomes where
  calloc : Bool
  realloc : Bool
  malloc : Bool

/-- The state of the process: the pointer `keys` with what it points to, `keys_capacity`, and the rest as before. -/
structure Process where
  keys : Option (List (Option Dtor))
  capacity : ℕ
  nextKey : ℕ
  extended : List Entry
  thread : ℕ → Option Thread
  list : List ℕ
  threaded : Bool

namespace Process

/-- The process when it starts, with one thread at the address `main`. -/
def init (main : ℕ) : Process where
  keys := none
  capacity := 0
  nextKey := 0
  extended := []
  thread := (State.init main).thread
  list := [main]
  threaded := false

/-- What the functions see that do not use the table. -/
def state (p : Process) : State := ⟨p.keys.getD [], p.nextKey, p.extended, p.thread, p.list, p.threaded⟩

/-- What these functions leave. -/
def withState (p : Process) (s : State) : Process :=
  { p with extended := s.extended, thread := s.thread, list := s.list, threaded := s.threaded }

/-- The thread at the address `t` is changed. -/
def modify (p : Process) (t : ℕ) (f : Thread → Thread) : Process := p.withState (p.state.modify t f)

/-- `keys[i]`. -/
def read (p : Process) (i : ℕ) : Option (Option Dtor) := p.keys.bind (·[i]?)

/-- `key < keys_capacity && keys[key]` -/
def live (p : Process) (k : ℕ) : Option Bool := if k < p.capacity then (p.read k).map Option.isSome else some false

/-! ## Values -/

/-- `tsd_set_locked`: the result, and the state left. -/
def tsdSetLocked (malloc : Bool) (t k v : ℕ) (p : Process) : Option (ℕ × Process) :=
  if k < INLINE_KEYS then do
    let th ← p.thread t
    let tsd ← th.tsd
    some (0, p.modify t fun th => { th with tsd := some (Function.update tsd k v) })
  else
    match findExtended t k p.extended with
    | some _ =>
      if v ≠ 0 then some (0, { p with extended := replaceExtended t k v p.extended })
      else some (0, { p with extended := p.extended.eraseP (Entry.isFor t k) })
    | none =>
      if v = 0 then some (0, p)
      else if malloc then some (0, { p with extended := ⟨t, k, v⟩ :: p.extended })
      else some (ENOMEM, p)

/-- `__pthread_tsd_get`. -/
def tsdGet (t k : ℕ) (p : Process) : Option ℕ := do
  let found ← p.live k
  if found then tsdGetLocked t k p.state else some 0

/-- `__pthread_tsd_set`: the result, and the state left. -/
def tsdSet (malloc : Bool) (t k v : ℕ) (p : Process) : Option (ℕ × Process) := do
  let found ← p.live k
  if found then
    let r ← p.tsdSetLocked malloc t k v
    some (r.1, if r.1 = 0 ∧ v ≠ 0 then r.2.modify t fun th => { th with tsdUsed := true } else r.2)
  else some (EINVAL, p)

/-! ## Keys -/

/-- `for (; n; index++, n--) if (!keys[index]) break;` -/
def scan (p : Process) : ℕ → ℕ → Option ℕ
  | 0, index => some index
  | n + 1, index => do
    let d ← p.read index
    if d.isSome then scan p n (index + 1) else some index

/-- `if (index == start && keys[index]) index = keys_capacity;` -/
def searchEnd (p : Process) (start index : ℕ) : Option ℕ :=
  if index = start then (p.read index).map fun d => if d.isSome then p.capacity else index else some index

/-- The search for a free key in the table: its index, or the capacity of the table if there is none. -/
def searchFree (p : Process) : Option ℕ := do
  let start := if p.nextKey < p.capacity then p.nextKey else 0
  let index ← p.scan (p.capacity - start) start
  if index = p.capacity then
    let index ← p.scan start 0
    p.searchEnd start index
  else p.searchEnd start index

/-- The end of `__pthread_key_create`: the key is stored in the table. -/
def assign (p : Process) (d : Dtor) (index : ℕ) : Option (Option ℕ × Process) := do
  let keys ← p.keys
  if index < keys.length then
    some (some (index % 2 ^ 32),
      { p with
        keys := some (keys.set index (some d))
        nextKey := (if index + 1 < p.capacity then index + 1 else 0) % 2 ^ 32 })
  else none

/-- The table after `realloc` and `memset`. -/
def resized (p : Process) : Process :=
  { p with
    keys := p.keys.map fun keys => keys ++ List.replicate (p.capacity * 2 - p.capacity) none
    capacity := p.capacity * 2 }

/-- `__pthread_key_create` from the search on. -/
def insert (arch : Arch) (d : Dtor) (realloc : Bool) (p : Process) : Option (Option ℕ × Process) := do
  let index ← p.searchFree
  if index = p.capacity then
    if p.capacity > (2 ^ 32 - 1) / 2 ∨ p.capacity * 2 > arch.sizeMax / arch.ptrSize then some (none, p)
    else if realloc then p.resized.assign d p.capacity
    else some (none, p)
  else p.assign d index

/-- `__pthread_key_create`, called by the thread `self`: the key, or `none` for `EAGAIN`, and the state left. The
capacity is set before the first table is allocated. -/
def keyCreate (arch : Arch) (self : ℕ) (dtor : Option ℕ) (o : Outcomes) (p : Process) : Option (Option ℕ × Process) :=
  let p := p.modify self Thread.attach
  let d := Dtor.ofArg dtor
  if p.capacity = 0 then
    if o.calloc then { p with capacity := 1, keys := some [none] }.insert arch d o.realloc
    else some (none, { p with capacity := 1, keys := none })
  else p.insert arch d o.realloc

/-- `for (; n; index++, n--) if (keys[index]) { active = 1; break; }` -/
def active (p : Process) : ℕ → ℕ → Option Bool
  | 0, _ => some false
  | n + 1, index => do
    let d ← p.read index
    if d.isSome then some true else active p n (index + 1)

/-- `keys[k] = 0;` -/
def removed (p : Process) (k : ℕ) : Process :=
  { p with keys := p.keys.map fun keys : List (Option Dtor) => keys.set k none }

/-- `__pthread_key_delete`: the result, and the state left. -/
def keyDelete (k : ℕ) (p : Process) : Option (ℕ × Process) := do
  let found ← p.live k
  if found then
    let s ← clearValues k p.state
    let p := (p.withState s).removed k
    let used ← p.active p.capacity 0
    some (0, if used then p else { p with keys := none, capacity := 0, nextKey := 0 })
  else some (EINVAL, p)

/-! ## Destructors, and the machine -/

/-- `keys[i] ? tsd_get_locked(self, (pthread_key_t)i) : 0` -/
def valueOf (self i : ℕ) (dtor : Option Dtor) (p : Process) : Option ℕ :=
  if dtor.isSome then tsdGetLocked self i p.state else some 0

/-- The next turn of `__pthread_tsd_run_dtors` in the thread `self`. Setting a value to null allocates nothing. -/
def runDtors (self : ℕ) (th : Thread) (p : Process) : Option (Reply × Process) :=
  match th.phase with
  | .key j i =>
    if p.capacity ≤ i then some (.done, p.modify self fun th => { th with phase := .pass (j + 1) })
    else do
      let dtor ← p.read i
      let val ← p.valueOf self i dtor
      let r ← p.tsdSetLocked false self i 0
      if val ≠ 0 ∧ dtor.isSome ∧ dtor ≠ some .nodtor then
        some (.taken i val, r.2.modify self fun th => { th with phase := .dtor j i })
      else some (.taken i val, r.2.modify self fun th => { th with phase := .key j (i + 1) })
  | _ => (Tsd.runDtors self th p.state).map fun r => (r.1, p.withState r.2)

/-- The reply of `__pthread_key_create`. -/
def keyReply : Option ℕ → Reply
  | some k => .key k
  | none => .status EAGAIN

/-- One event with the outcomes of its allocations: the reply, and the state left. -/
def step (arch : Arch) (o : Outcomes) (p : Process) : Event → Option (Reply × Process)
  | .keyCreate self dtor => (p.keyCreate arch self dtor o).map fun r => (keyReply r.1, r.2)
  | .keyDelete _ k => (p.keyDelete k).map fun r => (.status r.1, r.2)
  | .set self k v => (p.tsdSet o.malloc self k v).map fun r => (.status r.1, r.2)
  | .get self k => (p.tsdGet self k).map fun v => (.value v, p)
  | .turn self => (p.thread self).bind fun th => p.runDtors self th
  | e => (Tsd.step arch p.state e).map fun r => (r.1, p.withState r.2)

/-- The child after `fork` in the thread `self`: it has only this thread, and `__pthread_key_atfork` removes the values
of the others, which `fork` calls if there have been others (`locks`). -/
def fork (self : ℕ) (locks : Bool) (p : Process) : Process :=
  { p with
    extended := if locks then p.extended.filter fun e => e.thread = self else p.extended
    thread := fun t => if t = self then p.thread t else none
    list := [self] }

end Process

end Leblibc.Tsd
