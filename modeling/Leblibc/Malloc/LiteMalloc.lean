import Leblibc.Base.Align
import Leblibc.Lib.Span

/-!
# The bump allocator

A model of `__simple_malloc` of `src/malloc/lite_malloc.c`. The allocator has one area, the rest of which is from `cur`
to `end`; it asks the kernel for more by `brk`, or maps an area or a single block.

The function is written over the arithmetic of `size_t`. `Arithmetic.wrapping` is that of C, and `Arithmetic.exact` has
no result where a number would wrap around; in `Arithmetic.exactButSpare` only the difference `min-n` may. The masks
`-x & m-1` and `x & -m` are the same in all.

## Main definitions

* `Arithmetic`, `Arithmetic.wrapping`, `Arithmetic.exact`, `Arithmetic.exactButSpare`: the arithmetic
* `Kernel`: what the kernel does in a call, and what it promises
* `State`: the variables of the function
* `simpleMalloc`: the function
-/

namespace Leblibc.LiteMalloc

open Lib

/-- `PAGE_SIZE`. -/
def PAGE_SIZE : ℕ := 2 ^ 12

/-- `ALIGN`. -/
def ALIGN : ℕ := 16

/-- Addition and subtraction; `spare` is the subtraction in `min-n`. -/
structure Arithmetic where
  add : ℕ → ℕ → Option ℕ
  sub : ℕ → ℕ → Option ℕ
  spare : ℕ → ℕ → Option ℕ

/-- The arithmetic of C: numbers wrap around. -/
def Arithmetic.wrapping (a : Arch) : Arithmetic where
  add x y := some (a.wrap (x + y))
  sub x y := some (a.sub x y)
  spare x y := some (a.sub x y)

/-- The arithmetic in which no number wraps around. -/
def Arithmetic.exact (a : Arch) : Arithmetic where
  add x y := if x + y < 2 ^ a.bits then some (x + y) else none
  sub x y := if y ≤ x ∧ x < 2 ^ a.bits then some (x - y) else none
  spare x y := if y ≤ x ∧ x < 2 ^ a.bits then some (x - y) else none

/-- The arithmetic in which no number wraps around but `min-n`. -/
def Arithmetic.exactButSpare (a : Arch) : Arithmetic :=
  { Arithmetic.exact a with spare := fun x y => some (a.sub x y) }

/-! ## The kernel -/

/-- Memory that the kernel may give: it lies below `top`, not at the null pointer, and is not in use. -/
def Fresh (top : ℕ) (mapped : List Span) (s : Span) : Prop :=
  0 < s.start ∧ s.start + s.len ≤ top ∧ ∀ t ∈ mapped, s.Apart t

/-- What the kernel does in a call, where `mapped` is the memory that the allocator has from it: the break, whether it
can be moved up from an address by a length, and where a mapping of a length is placed, if there is one. What it gives
is not in use. `auxv` and `sp` are the addresses that mark the stack. -/
structure Kernel (top : ℕ) (mapped : List Span) where
  brk : ℕ
  brk_pos : 0 < brk
  brk_le : brk ≤ top
  moves : ℕ → ℕ → Bool
  moves_fresh : ∀ {start len}, moves start len = true → Fresh top mapped ⟨start, len⟩
  mmap : ℕ → Option ℕ
  mmap_page : ∀ {len p}, mmap len = some p → PAGE_SIZE ∣ p
  mmap_fresh : ∀ {len p}, mmap len = some p → Fresh top mapped ⟨p, len⟩
  auxv : ℕ
  sp : ℕ

/-- One of the two tests of `traverses_stack_p`, for the address `b`. -/
def nearStack (b old new : ℕ) : Bool :=
  let len := 8 <<< 20
  let a := if b > len then b - len else 0
  new > a ∧ old < b

/-- `traverses_stack_p`. -/
def traversesStack (auxv sp old new : ℕ) : Bool := nearStack auxv old new || nearStack sp old new

/-! ## The allocator -/

/-- The static variables of `__simple_malloc`; `stop` is `end`. -/
structure State where
  brk : ℕ
  cur : ℕ
  stop : ℕ
  mmapStep : ℕ
  deriving DecidableEq, Repr

/-- The variables when the program starts. -/
def State.init : State := ⟨0, 0, 0, 0⟩

/-- The end of a call: the pointer or `none` for null, the variables, and the memory that the kernel has given. -/
structure Reply where
  p : Option ℕ
  s : State
  given : Option Span
  deriving DecidableEq, Repr

/-- `while (align<n && align<ALIGN) align += align;` -/
def alignLoop (n : ℕ) : ℕ → ℕ → ℕ
  | 0, align => align
  | fuel + 1, align => if align < n ∧ align < ALIGN then alignLoop n fuel (align + align) else align

variable {top : ℕ} {mapped : List Span}

/-- The end of the function: `p = (void *)cur; cur += n;` -/
def bump (A : Arithmetic) (n : ℕ) (given : Option Span) (s : State) : Option Reply := do
  let cur ← A.add s.cur n
  some ⟨some s.cur, { s with cur := cur }, given⟩

/-- Whether the break is moved up by `req`. -/
def movesBreak (A : Arithmetic) (a : Arch) (K : Kernel top mapped) (req : ℕ) (s : State) : Option Bool :=
  if s.brk = s.stop then do
    let room ← A.sub a.sizeMax s.brk
    if req < room then do
      let new ← A.add s.brk req
      some (!traversesStack K.auxv K.sp s.brk new && K.moves s.brk req)
    else some false
  else some false

/-- How much to map for `n` bytes, whether this is a new area, and `mmap_step`. -/
def mapSize (A : Arithmetic) (a : Arch) (n : ℕ) (s : State) : Option (ℕ × Bool × ℕ) := do
  let t ← A.add n (PAGE_SIZE - 1)
  let req := a.roundDown t PAGE_SIZE
  let waste ← A.sub req n
  if waste > req / 8 then do
    let min := PAGE_SIZE <<< (s.mmapStep / 2)
    let rest ← A.spare min n
    let left ← A.sub s.stop s.cur
    if rest > left then
      if req < min then some (min, true, if s.mmapStep < 12 then s.mmapStep + 1 else s.mmapStep)
      else some (req, true, s.mmapStep)
    else some (req, false, s.mmapStep)
  else some (req, false, s.mmapStep)

/-- The branch in which memory is mapped. -/
def mapMore (A : Arithmetic) (a : Arch) (K : Kernel top mapped) (n : ℕ) (s : State) : Option Reply := do
  let size ← mapSize A a n s
  let s := { s with mmapStep := size.2.2 }
  match K.mmap size.1 with
  | none => some ⟨none, s, none⟩
  | some mem =>
    if size.2.1 then do
      let stop ← A.add mem size.1
      bump A n (some ⟨mem, size.1⟩) { s with cur := mem, stop := stop }
    else some ⟨some mem, s, some ⟨mem, size.1⟩⟩

/-- `if (!cur) { brk = __syscall(SYS_brk, 0); ... }` -/
def findBreak (A : Arithmetic) (a : Arch) (K : Kernel top mapped) (s : State) : Option State :=
  if s.cur = 0 then do
    let brk ← A.add K.brk (a.pad K.brk PAGE_SIZE)
    some { s with brk := brk, cur := brk, stop := brk }
  else some s

/-- The branch `n > end-cur`, where `left` is `end-cur`. -/
def more (A : Arithmetic) (a : Arch) (K : Kernel top mapped) (n left : ℕ) (s : State) : Option Reply := do
  let t ← A.sub n left
  let t ← A.add t (PAGE_SIZE - 1)
  let req := a.roundDown t PAGE_SIZE
  let s ← findBreak A a K s
  let moved ← movesBreak A a K req s
  if moved then do
    let stop ← A.add s.stop req
    bump A n (some ⟨s.brk, req⟩) { s with brk := stop, stop := stop }
  else mapMore A a K n s

/-- `__simple_malloc`. -/
def simpleMalloc (A : Arithmetic) (a : Arch) (K : Kernel top mapped) (n : ℕ) (s : State) : Option Reply :=
  if n > a.sizeMax / 2 then some ⟨none, s, none⟩
  else do
    let n := if n = 0 then 1 else n
    let align := alignLoop n 5 1
    let cur ← A.add s.cur (a.pad s.cur align)
    let s := { s with cur := cur }
    let left ← A.sub s.stop s.cur
    if n > left then more A a K n left s else bump A n none s

end Leblibc.LiteMalloc
