import Leblibc.Base.Machine
import Leblibc.Lib.Search

/-!
# Named semaphores

A model of `sem_open` and `sem_close` in `src/thread/sem_open.c`. The table `semtab` has an entry for each inode that
is open. A call of `sem_open` reserves an entry, works on files without the lock, and then takes the entry, or that of
the same inode if there is one by then.

Any number of threads run. A thread stands between two of its steps: the sections under the lock are one step each, and
so is each operation on files. The results of these are any, but `mmap` maps at an address where nothing is mapped, and
no file has the inode number 0. `sem_close` is only called for a semaphore that is open. An event that is not possible
where the thread stands changes nothing; an access beyond the table is `none`.

The state has a log of the semaphores that are open, each with its inode and the pointer that was returned; it is no
variable of the program.

## Main definitions

* `Entry`, `World`: the table and the state
* `reserve`, `register`, `commit`, `release`, `closeEntry`: the sections under the lock
* `Pc`, `Event`, `step`, `run`: steps and runs
-/

namespace Leblibc.SemOpen

open Lib (skipTo)

/-! ## The table -/

/-- A value of the type `sem_t *`: null, `(sem_t *)-1`, or the address of a mapping. -/
inductive Sem
  | null
  | reserved
  | addr (p : ℕ)
  deriving DecidableEq

/-- An entry of the table. -/
structure Entry where
  ino : ℕ
  sem : Sem
  refcnt : ℕ
  deriving DecidableEq

/-- `semtab` and `semtab_cap`. -/
structure Table where
  entries : ℕ → Entry
  cap : ℕ

/-- `sizeof(*semtab)`. -/
def entrySize (a : Arch) : ℕ := 8 + 2 * a.ptrSize

/-- The table with an entry changed. -/
def Table.set (tab : Table) (i : ℕ) (e : Entry) : Table := { tab with entries := Function.update tab.entries i e }

/-- A write of the field `sem`. -/
def Table.setSem (tab : Table) (i : ℕ) (sem : Sem) : Option Table :=
  if i < tab.cap then some (tab.set i { tab.entries i with sem := sem }) else none

/-- The table after `realloc`, with zeros behind the entries. -/
def Table.grow (tab : Table) (newcap : ℕ) : Table :=
  ⟨fun i => if i < tab.cap then tab.entries i else ⟨0, .null, 0⟩, newcap⟩

/-- The first section of `sem_open`: the table and the slot. `none` is a failure, as when `realloc` fails. -/
def reserve (a : Arch) (tab : Table) (realloc : Bool) : Option (Table × ℕ) :=
  let slot := skipTo (fun i => (tab.entries i).sem ≠ .null) tab.cap 0
  if slot < tab.cap then some (tab.set slot { tab.entries slot with sem := .reserved }, slot)
  else
    let newcap := a.wrap (if tab.cap ≠ 0 then tab.cap * 2 else 1)
    if newcap ≤ tab.cap ∨ newcap > a.sizeMax / entrySize a then none
    else if realloc then
      let tab' := tab.grow newcap
      some (tab'.set tab.cap { tab'.entries tab.cap with sem := .reserved }, tab.cap)
    else none

/-- The end of the second section of `sem_open`: the table and the result, which is `none` for `SEM_FAILED`. -/
def register (a : Arch) (tab : Table) (slot ino : ℕ) (map : Sem) : Option (Table × Option Sem) :=
  if slot < tab.cap then
    if (tab.entries slot).refcnt = a.sizeMax then some (tab, none)
    else some (tab.set slot ⟨ino, map, (tab.entries slot).refcnt + 1⟩, some map)
  else none

/-- What the second section leaves: the table, whether the mapping of the call has been unmapped, and the result. -/
structure Committed where
  tab : Table
  unmapped : Bool
  result : Option Sem

/-- The second section of `sem_open`, for a mapping at `p` of the inode `ino`. -/
def commit (a : Arch) (tab : Table) (slot ino p : ℕ) : Option Committed :=
  let i := skipTo (fun i => (tab.entries i).ino ≠ ino) tab.cap 0
  if i < tab.cap then
    (tab.setSem slot .null).bind fun tab =>
      (register a tab i ino (tab.entries i).sem).map fun r => ⟨r.1, true, r.2⟩
  else (register a tab slot ino (.addr p)).map fun r => ⟨r.1, false, r.2⟩

/-- The section of `sem_open` after a failure. -/
def release (tab : Table) (slot : ℕ) : Option Table := tab.setSem slot .null

/-- What the section of `sem_close` leaves: the table, and whether the semaphore is to be unmapped. -/
structure Closed where
  tab : Table
  last : Bool

/-- The section of `sem_close`; `none` if the semaphore is not in the table. -/
def closeEntry (a : Arch) (tab : Table) (p : ℕ) : Option Closed :=
  let i := skipTo (fun i => (tab.entries i).sem ≠ .addr p) tab.cap 0
  if i = tab.cap then none
  else
    let refcnt := a.sub (tab.entries i).refcnt 1
    if refcnt ≠ 0 then some ⟨tab.set i { tab.entries i with refcnt := refcnt }, false⟩
    else
      let tab := tab.set i ⟨0, .null, refcnt⟩
      if skipTo (fun i => (tab.entries i).sem = .null) tab.cap 0 < tab.cap then some ⟨tab, true⟩
      else some ⟨⟨tab.entries, 0⟩, true⟩

/-! ## Threads -/

/-- The arguments of `sem_open`: the flags, and whether the value is at most `SEM_VALUE_MAX`. -/
structure Args where
  creat : Bool
  excl : Bool
  valueOk : Bool

/-- A mapping of a file. -/
structure Mapping where
  ino : ℕ
  addr : ℕ
  ino_pos : 0 < ino

/-- Where a thread stands. In `sem_open` it has the slot that it has reserved. -/
inductive Pc
  | idle
  /-- before `access` -/
  | access (args : Args) (slot : ℕ)
  /-- before `open` of the name -/
  | openName (args : Args) (slot : ℕ)
  /-- before `fstat` and `mmap` of the file with the name -/
  | mapName (slot : ℕ)
  /-- before `open` of a temporary file -/
  | openTmp (args : Args) (slot : ℕ)
  /-- before `write`, `fstat` and `mmap` of the temporary file -/
  | mapTmp (args : Args) (slot : ℕ)
  /-- before `link` -/
  | link (args : Args) (slot : ℕ) (m : Mapping)
  /-- before the second section -/
  | commit (slot : ℕ) (m : Mapping)
  /-- before the section after a failure -/
  | fail (slot : ℕ)
  /-- in `sem_close` before `munmap` -/
  | munmap (p : ℕ)

/-- The slot that a thread has reserved. -/
def Pc.slot : Pc → Option ℕ
  | .access _ s | .openName _ s | .mapName s | .openTmp _ s | .mapTmp _ s | .link _ s _ | .commit s _ | .fail s => some s
  | .idle | .munmap _ => none

/-- The address that a thread has mapped, or has to unmap. -/
def Pc.map : Pc → Option ℕ
  | .link _ _ m | .commit _ m => some m.addr
  | .munmap p => some p
  | _ => none

/-- On to the creation of a file. -/
def create (args : Args) (slot : ℕ) : Pc :=
  if args.creat && args.valueOk then .openTmp args slot else .fail slot

/-- On to the head of the loop. -/
def again (args : Args) (slot : ℕ) : Pc :=
  if args.creat && args.excl then create args slot else .openName args slot

/-- From the first section on. -/
def begin (args : Args) (slot : ℕ) : Pc :=
  if args.creat && args.excl then .access args slot else .openName args slot

/-- The result of an operation on files. -/
inductive Result
  | ok
  | enoent
  | eexist
  | error
  | mapped (m : Mapping)

/-- What happens to a thread: it calls a function, an operation returns, or it goes on with a section under the lock
or with `munmap`. -/
inductive Event
  | semOpen (args : Args) (realloc : Bool)
  | semClose (p : ℕ)
  | returns (r : Result)
  | goOn

/-- The state: the table, the addresses that are mapped by these functions, the threads, and the semaphores that are
open. -/
structure World where
  tab : Table
  mapped : Finset ℕ
  threads : ℕ → Pc
  handles : List (ℕ × Sem)

/-- A thread goes on. -/
def World.goto (w : World) (t : ℕ) (pc : Pc) : World := { w with threads := Function.update w.threads t pc }

/-- An address is mapped by a thread; the system takes none where something is mapped. -/
def World.mmap (w : World) (t : ℕ) (m : Mapping) (pc : Pc) : World :=
  if m.addr ∈ w.mapped then w else { w.goto t pc with mapped := insert m.addr w.mapped }

/-- An address is unmapped by a thread. -/
def World.munmap (w : World) (t p : ℕ) (pc : Pc) : World := { w.goto t pc with mapped := w.mapped.erase p }

/-- An operation on files returns. -/
def World.returns (w : World) (t : ℕ) (r : Result) : World :=
  match w.threads t, r with
  | .access _ slot, .ok => w.goto t (.fail slot)
  | .access args slot, _ => w.goto t (again args slot)
  | .openName _ slot, .ok => w.goto t (.mapName slot)
  | .openName args slot, .enoent => w.goto t (create args slot)
  | .openName _ slot, _ => w.goto t (.fail slot)
  | .mapName slot, .mapped m => w.mmap t m (.commit slot m)
  | .mapName slot, _ => w.goto t (.fail slot)
  | .openTmp args slot, .ok => w.goto t (.mapTmp args slot)
  | .openTmp args slot, .eexist => w.goto t (again args slot)
  | .openTmp _ slot, _ => w.goto t (.fail slot)
  | .mapTmp args slot, .mapped m => w.mmap t m (.link args slot m)
  | .mapTmp _ slot, _ => w.goto t (.fail slot)
  | .link _ slot m, .ok => w.goto t (.commit slot m)
  | .link args slot m, .eexist =>
    w.munmap t m.addr (if args.creat && args.excl then .fail slot else again args slot)
  | .link _ slot m, _ => w.munmap t m.addr (.fail slot)
  | _, _ => w

/-- `sem_open` is called: the first section. -/
def World.semOpen (a : Arch) (w : World) (t : ℕ) (args : Args) (realloc : Bool) : World :=
  match reserve a w.tab realloc with
  | none => w
  | some (tab, slot) => { w.goto t (begin args slot) with tab := tab }

/-- The second section of `sem_open`. -/
def World.commit (a : Arch) (w : World) (t slot : ℕ) (m : Mapping) : Option World :=
  (SemOpen.commit a w.tab slot m.ino m.addr).map fun r =>
    { w.goto t .idle with
      tab := r.tab
      mapped := if r.unmapped then w.mapped.erase m.addr else w.mapped
      handles := (r.result.map (m.ino, ·)).toList ++ w.handles }

/-- `sem_close` is called for a semaphore that is open: its section. -/
def World.semClose (a : Arch) (w : World) (t p : ℕ) : World :=
  if .addr p ∈ w.handles.map Prod.snd then
    match closeEntry a w.tab p with
    | none => w
    | some r =>
      { w.goto t (if r.last then .munmap p else .idle) with
        tab := r.tab
        handles := w.handles.eraseP fun h => h.2 = .addr p }
  else w

/-- A step of the thread `t`. -/
def step (a : Arch) (w : World) (t : ℕ) (e : Event) : Option World :=
  match w.threads t, e with
  | .idle, .semOpen args realloc => some (w.semOpen a t args realloc)
  | .idle, .semClose p => some (w.semClose a t p)
  | .commit slot m, .goOn => w.commit a t slot m
  | .fail slot, .goOn => (release w.tab slot).map fun tab => { w.goto t .idle with tab := tab }
  | .munmap p, .goOn => some (w.munmap t p .idle)
  | _, .returns r => some (w.returns t r)
  | _, _ => some w

/-- A run: each event is one of a thread. -/
def run (a : Arch) : World → List (ℕ × Event) → Option World
  | w, [] => some w
  | w, e :: es => (step a w e.1 e.2).bind fun w => run a w es

/-- The state before the first call. -/
def init : World := ⟨⟨fun _ => ⟨0, .null, 0⟩, 0⟩, ∅, fun _ => .idle, []⟩

end Leblibc.SemOpen
