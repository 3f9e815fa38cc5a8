import Leblibc.Base.Machine

/-!
# Smoothsort

A model of `src/stdlib/qsort.c`. The array is a block of bytes, and a pointer into it is an offset. The
heap is a row of Leonardo trees whose orders are kept as a bit string of two words, `p`, and the order
`pshift` of the first tree; `lp` holds the sizes of the trees in bytes. An element that moves is not moved
at once: its way is collected in `ar`, and `cycle` then moves all the elements on it, by pieces of at
most 256 bytes.

The comparison function may remember anything from one call to the next, and need not be consistent. What
C leaves undefined is `none`: a pointer before the array, an element that is not in the array at a multiple
of the width, an index beyond `lp` or `ar`, a shift by the width of a word or more. The loops that are not
bounded by their own counters have a bound on their turns, and are `none` where they exceed it.

## Main definitions

* `Env`, `St`: what is sorted and how, and the state of the array and of the comparison function
* `Pair`, `pntz`, `shl`, `shr`: the bit string
* `cycle`, `sift`, `trinkle`: moving elements
* `qsortR`: the sort
-/

namespace Leblibc.Qsort

variable {σ : Type}

/-- What is sorted, and how. The comparison function sees the bytes of two elements, and what it
remembers. -/
structure Env (σ : Type) where
  arch : Arch
  nel : ℕ
  width : ℕ
  cmp : σ → List UInt8 → List UInt8 → ℤ × σ

/-- The bytes of the array, and what the comparison function remembers. -/
structure St (σ : Type) where
  mem : ℕ → UInt8
  s : σ

/-! ## The bit string -/

/-- `size_t p[2]`. -/
structure Pair where
  lo : ℕ
  hi : ℕ
  deriving DecidableEq, Repr

/-- The number of zero bits below the lowest one bit of a word of at most `bits` bits. -/
def ntz : ℕ → ℕ → ℕ
  | 0, _ => 0
  | bits + 1, x => if x % 2 = 1 then 0 else 1 + ntz bits (x / 2)

/-- `pntz`. -/
def pntz (a : Arch) (p : Pair) : ℕ :=
  if p.lo ≠ 1 then ntz a.bits (a.sub p.lo 1)
  else if p.hi ≠ 0 then a.bits + ntz a.bits p.hi
  else 0

/-- The second half of `shl`. -/
def shlBits (a : Arch) (p : Pair) (n : ℕ) : Option Pair :=
  if 0 < n ∧ n < a.bits then
    some { hi := a.wrap (p.hi <<< n) ||| p.lo >>> (a.bits - n), lo := a.wrap (p.lo <<< n) }
  else none

/-- `shl`. -/
def shl (a : Arch) (p : Pair) (n : ℕ) : Option Pair :=
  if a.bits ≤ n then
    if n - a.bits = 0 then some { hi := p.lo, lo := 0 }
    else shlBits a { hi := p.lo, lo := 0 } (n - a.bits)
  else shlBits a p n

/-- The second half of `shr`. -/
def shrBits (a : Arch) (p : Pair) (n : ℕ) : Option Pair :=
  if 0 < n ∧ n < a.bits then
    some { lo := p.lo >>> n ||| a.wrap (p.hi <<< (a.bits - n)), hi := p.hi >>> n }
  else none

/-- `shr`. -/
def shr (a : Arch) (p : Pair) (n : ℕ) : Option Pair :=
  if a.bits ≤ n then
    if n - a.bits = 0 then some { lo := p.hi, hi := 0 }
    else shrBits a { lo := p.hi, hi := 0 } (n - a.bits)
  else shrBits a p n

/-! ## Pointers and elements -/

/-- A pointer moved down; it may not leave the array. -/
def ptrSub (x d : ℕ) : Option ℕ := if d ≤ x then some (x - d) else none

/-- The pointer is to an element of the array. -/
def Env.IsElement (E : Env σ) (x : ℕ) : Prop := x % E.width = 0 ∧ x < E.nel * E.width

instance (E : Env σ) (x : ℕ) : Decidable (E.IsElement x) :=
  inferInstanceAs (Decidable (_ ∧ _))

/-- The bytes of the element at `x`. -/
def Env.element (E : Env σ) (mem : ℕ → UInt8) (x : ℕ) : List UInt8 :=
  (List.range E.width).map fun j => mem (x + j)

/-- `cmp(x, y, arg)`. -/
def Env.compare (E : Env σ) (st : St σ) (x y : ℕ) : Option (ℤ × St σ) :=
  if E.IsElement x ∧ E.IsElement y then
    let r := E.cmp st.s (E.element st.mem x) (E.element st.mem y)
    some (r.1, { st with s := r.2 })
  else none

/-- `lp[i]`. -/
def Env.lpAt (E : Env σ) (lp : ℕ → ℕ) (i : ℕ) : Option ℕ :=
  if i < 12 * E.arch.ptrSize then some (lp i) else none

/-- `ar[i++] = x`, where the entries before are `ar`. -/
def Env.push (E : Env σ) (ar : List ℕ) (x : ℕ) : Option (List ℕ) :=
  if ar.length < 14 * E.arch.ptrSize + 1 then some (ar ++ [x]) else none

/-! ## Moving elements -/

/-- `memcpy` of `l` bytes to `dst`. -/
def copyTo (mem : ℕ → UInt8) (dst : ℕ) (src : ℕ → UInt8) (l : ℕ) : ℕ → UInt8 :=
  fun x => if dst ≤ x ∧ x < dst + l then src (x - dst) else mem x

/-- The inner loop of `cycle`: each piece comes from the next place, and the last one from `tmp`. -/
def cycleRow (l : ℕ) (tmp : ℕ → UInt8) : List ℕ → (ℕ → UInt8) → (ℕ → UInt8)
  | [], mem => mem
  | [x], mem => copyTo mem x tmp l
  | x :: y :: ar, mem => cycleRow l tmp (y :: ar) (copyTo mem x (fun j => mem (y + j)) l)

/-- The outer loop of `cycle`; each turn takes some of the width, which bounds the turns. -/
def cycleLoop : ℕ → ℕ → List ℕ → (ℕ → UInt8) → (ℕ → UInt8)
  | 0, _, _, mem => mem
  | fuel + 1, width, ar, mem =>
    if width = 0 then mem
    else
      let l := if 256 < width then 256 else width
      let tmp := fun j => mem (ar.headD 0 + j)
      cycleLoop fuel (width - l) (ar.map (· + l)) (cycleRow l tmp ar mem)

/-- `cycle`. -/
def Env.cycle (E : Env σ) (ar : List ℕ) (st : St σ) : Option (St σ) :=
  if ar.length < 2 then some st
  else if ar.length < 14 * E.arch.ptrSize + 1 ∧ ∀ x ∈ ar, E.IsElement x then
    some { st with mem := cycleLoop E.width E.width ar st.mem }
  else none

/-- `cmp(x, y, arg) >= 0 && cmp(x, z, arg) >= 0`. -/
def Env.geBoth (E : Env σ) (st : St σ) (x y z : ℕ) : Option (Bool × St σ) := do
  let (c, st) ← E.compare st x y
  if c ≥ 0 then do
    let (c, st) ← E.compare st x z
    some (c ≥ 0, st)
  else some (false, st)

/-- `cmp(y, x, arg) >= 0 || cmp(z, x, arg) >= 0`. -/
def Env.geAny (E : Env σ) (st : St σ) (y z x : ℕ) : Option (Bool × St σ) := do
  let (c, st) ← E.compare st y x
  if c ≥ 0 then some (true, st)
  else do
    let (c, st) ← E.compare st z x
    some (c ≥ 0, st)

/-! ## `sift` -/

/-- The loop of `sift`; `ar0` is `ar[0]`. -/
def Env.siftLoop (E : Env σ) (lp : ℕ → ℕ) (ar0 : ℕ) :
    ℕ → ℕ → List ℕ → St σ → Option (List ℕ × St σ)
  | pshift + 2, head, ar, st => do
    let rt ← ptrSub head E.width
    let size ← E.lpAt lp pshift
    let lf ← ptrSub rt size
    let (stop, st) ← E.geBoth st ar0 lf rt
    if stop then some (ar, st)
    else do
      let (c, st) ← E.compare st lf rt
      if c ≥ 0 then do
        let ar ← E.push ar lf
        E.siftLoop lp ar0 (pshift + 1) lf ar st
      else do
        let ar ← E.push ar rt
        E.siftLoop lp ar0 pshift rt ar st
  | _, _, ar, st => some (ar, st)

/-- `sift`. -/
def Env.sift (E : Env σ) (lp : ℕ → ℕ) (head pshift : ℕ) (st : St σ) : Option (St σ) := do
  let (ar, st) ← E.siftLoop lp head pshift head [head] st
  E.cycle ar st

/-! ## `trinkle` -/

/-- The state in which the loop of `trinkle` ends. -/
structure Trinkled (σ : Type) where
  head : ℕ
  pshift : ℕ
  ar : List ℕ
  trusty : Bool
  st : St σ

/-- The second test of `trinkle`: a child of the tree at `head` is not smaller than the next root. -/
def Env.trinkleStop (E : Env σ) (lp : ℕ → ℕ) (head pshift : ℕ) (trusty : Bool) (stepson : ℕ)
    (st : St σ) : Option (Bool × St σ) :=
  if trusty = false ∧ pshift > 1 then do
    let rt ← ptrSub head E.width
    let size ← E.lpAt lp (pshift - 2)
    let lf ← ptrSub rt size
    E.geAny st rt lf stepson
  else some (false, st)

/-- The loop of `trinkle`; `ar0` is `ar[0]`. -/
def Env.trinkleLoop (E : Env σ) (lp : ℕ → ℕ) (ar0 : ℕ) :
    ℕ → Pair → ℕ → ℕ → List ℕ → Bool → St σ → Option (Trinkled σ)
  | 0, _, _, _, _, _, _ => none
  | fuel + 1, p, pshift, head, ar, trusty, st =>
    if p.lo ≠ 1 ∨ p.hi ≠ 0 then do
      let size ← E.lpAt lp pshift
      let stepson ← ptrSub head size
      let (c, st) ← E.compare st stepson ar0
      if c ≤ 0 then some ⟨head, pshift, ar, trusty, st⟩
      else do
        let (stop, st) ← E.trinkleStop lp head pshift trusty stepson st
        if stop then some ⟨head, pshift, ar, trusty, st⟩
        else do
          let ar ← E.push ar stepson
          let trail := pntz E.arch p
          let p ← shr E.arch p trail
          E.trinkleLoop lp ar0 fuel p (pshift + trail) stepson ar false st
    else some ⟨head, pshift, ar, trusty, st⟩

/-- `trinkle`. -/
def Env.trinkle (E : Env σ) (lp : ℕ → ℕ) (fuel head : ℕ) (p : Pair) (pshift : ℕ) (trusty : Bool)
    (st : St σ) : Option (St σ) := do
  let t ← E.trinkleLoop lp head fuel p pshift head [head] trusty st
  if t.trusty then some t.st
  else do
    let st ← E.cycle t.ar t.st
    E.sift lp t.head t.pshift st

/-! ## The sort -/

/-- The loop that computes the sizes of the trees; `lp` is what is on the stack before. -/
def Env.lpLoop (E : Env σ) (size : ℕ) : ℕ → ℕ → (ℕ → ℕ) → Option (ℕ → ℕ)
  | 0, _, _ => none
  | fuel + 1, i, lp =>
    if i < 12 * E.arch.ptrSize then
      let lp := Function.update lp i (E.arch.wrap (lp (i - 2) + lp (i - 1) + E.width))
      if lp i < size then E.lpLoop size fuel (i + 1) lp else some lp
    else none

/-- The tree at `head`, which the next element does not join with the one before, is put in order: among
the roots if it stays as it is, and by itself if it becomes a part of a larger tree. -/
def Env.settle (E : Env σ) (lp : ℕ → ℕ) (fuel high head : ℕ) (p : Pair) (pshift : ℕ) (st : St σ) :
    Option (St σ) :=
  if pshift = 0 then none
  else do
    let size ← E.lpAt lp (pshift - 1)
    if size ≥ high - head then E.trinkle lp fuel head p pshift false st
    else E.sift lp head pshift st

/-- The body of the first loop, up to the last two statements. -/
def Env.buildStep (E : Env σ) (lp : ℕ → ℕ) (fuel high head : ℕ) (p : Pair) (pshift : ℕ)
    (st : St σ) : Option (Pair × ℕ × St σ) :=
  if p.lo &&& 3 = 3 then do
    let st ← E.sift lp head pshift st
    let p ← shr E.arch p 2
    some (p, pshift + 2, st)
  else do
    let st ← E.settle lp fuel high head p pshift st
    if pshift = 1 then do
      let p ← shl E.arch p 1
      some (p, 0, st)
    else do
      let p ← shl E.arch p (pshift - 1)
      some (p, 1, st)

/-- The first loop. -/
def Env.buildLoop (E : Env σ) (lp : ℕ → ℕ) (bound high : ℕ) :
    ℕ → ℕ → Pair → ℕ → St σ → Option (ℕ × Pair × ℕ × St σ)
  | 0, _, _, _, _ => none
  | fuel + 1, head, p, pshift, st =>
    if head < high then do
      let (p, pshift, st) ← E.buildStep lp bound high head p pshift st
      E.buildLoop lp bound high fuel (head + E.width) { p with lo := p.lo ||| 1 } pshift st
    else some (head, p, pshift, st)

/-- The body of the last loop, up to its last statement. -/
def Env.drainStep (E : Env σ) (lp : ℕ → ℕ) (fuel head : ℕ) (p : Pair) (pshift : ℕ) (st : St σ) :
    Option (Pair × ℕ × St σ) :=
  if pshift ≤ 1 then do
    let trail := pntz E.arch p
    let p ← shr E.arch p trail
    some (p, pshift + trail, st)
  else do
    let p ← shl E.arch p 2
    let pshift := pshift - 2
    let p ← shr E.arch { p with lo := p.lo ^^^ 7 } 1
    let size ← E.lpAt lp pshift
    let left ← ptrSub head size
    let left ← ptrSub left E.width
    let st ← E.trinkle lp fuel left p (pshift + 1) true st
    let p ← shl E.arch p 1
    let p := { p with lo := p.lo ||| 1 }
    let right ← ptrSub head E.width
    let st ← E.trinkle lp fuel right p pshift true st
    some (p, pshift, st)

/-- The last loop. -/
def Env.drainLoop (E : Env σ) (lp : ℕ → ℕ) (bound : ℕ) :
    ℕ → ℕ → Pair → ℕ → St σ → Option (St σ)
  | 0, _, _, _, _ => none
  | fuel + 1, head, p, pshift, st =>
    if pshift ≠ 1 ∨ p.lo ≠ 1 ∨ p.hi ≠ 0 then do
      let (p, pshift, st) ← E.drainStep lp bound head p pshift st
      let head ← ptrSub head E.width
      E.drainLoop lp bound fuel head p pshift st
    else some st

/-- `__qsort_r`; `junk` is what is on the stack where `lp` is. -/
def Env.qsortR (E : Env σ) (junk : ℕ → ℕ) (fuel : ℕ) (st : St σ) : Option (St σ) :=
  let size := E.arch.wrap (E.width * E.nel)
  if size = 0 then some st
  else do
    let high := size - E.width
    let lp ← E.lpLoop size fuel 2 (Function.update (Function.update junk 0 E.width) 1 E.width)
    let (head, p, pshift, st) ← E.buildLoop lp fuel high fuel 0 ⟨1, 0⟩ 1 st
    let st ← E.trinkle lp fuel head p pshift false st
    E.drainLoop lp fuel fuel head p pshift st

end Leblibc.Qsort
