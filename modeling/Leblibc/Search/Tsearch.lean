import Leblibc.Base.Machine
import Mathlib.Logic.Function.Basic

/-!
# Search trees: `tsearch` and `tdelete`

The nodes of a tree live on the heap; a tree is known by the variable `*rootp` that holds its root. On
their way down both functions keep, in an array `a` on the stack, pointers to the variables that hold
the nodes they pass: `rootp` itself and then `&n->a[0]` or `&n->a[1]`. The tree is rebalanced through
these pointers, from the bottom up, until a height does not change.

A function that would follow a pointer to no node, or store beyond the end of the array, gives `none`
here.

## Main definitions

* `Node`, `Slot`, `Heap`: a node, a variable that holds a pointer to a node, and the store
* `rot`, `balance`: `rot` and `__tsearch_balance`
* `descend`, `balanceUp`, `tsearch`, `rightmost`, `deleteUp`, `tdelete`: the two functions and their loops
-/

namespace Leblibc.Tsearch

variable {κ : Type}

/-- `struct node`. -/
structure Node (κ : Type) where
  key : κ
  a : Bool → ℕ
  h : ℤ

/-- A variable that holds a pointer to a node: `*rootp`, or a child pointer of the node `n`. -/
inductive Slot where
  | root
  | child (n : ℕ) (dir : Bool)

/-- The variable `*rootp` and the nodes that are allocated, by address; 0 is the null pointer. -/
structure Heap (κ : Type) where
  root : ℕ
  node : ℕ → Option (Node κ)

/-- The store of an empty tree. -/
def Heap.empty : Heap κ := ⟨0, fun _ => none⟩

/-- `MAXH`. -/
def MAXH (a : Arch) : ℕ := a.ptrSize * 8 * 3 / 2

/-- `sizeof (struct node)`: three pointers and an `int`, padded to whole pointers. -/
def nodeSize (a : Arch) : ℕ := a.ptrSize * 4

namespace Heap

/-- The node at `n` becomes `x`. -/
def write (s : Heap κ) (n : ℕ) (x : Node κ) : Heap κ :=
  { s with node := Function.update s.node n (some x) }

/-- `free (n)`. -/
def free (s : Heap κ) (n : ℕ) : Heap κ := { s with node := Function.update s.node n none }

/-- `n->key`. -/
def key (s : Heap κ) (n : ℕ) : Option κ := (s.node n).map (·.key)

/-- `n->a[dir]`. -/
def a (s : Heap κ) (n : ℕ) (dir : Bool) : Option ℕ := (s.node n).map (·.a dir)

/-- `n->h`. -/
def h (s : Heap κ) (n : ℕ) : Option ℤ := (s.node n).map (·.h)

/-- `n->key = k`. -/
def setKey (s : Heap κ) (n : ℕ) (k : κ) : Option (Heap κ) :=
  (s.node n).map fun x => s.write n { x with key := k }

/-- `n->a[dir] = q`. -/
def setA (s : Heap κ) (n : ℕ) (dir : Bool) (q : ℕ) : Option (Heap κ) :=
  (s.node n).map fun x => s.write n { x with a := Function.update x.a dir q }

/-- `n->h = h`. -/
def setH (s : Heap κ) (n : ℕ) (h : ℤ) : Option (Heap κ) :=
  (s.node n).map fun x => s.write n { x with h := h }

/-- `*p`. -/
def get (s : Heap κ) : Slot → Option ℕ
  | .root => some s.root
  | .child n dir => s.a n dir

/-- `*p = q`. -/
def put (s : Heap κ) (p : Slot) (q : ℕ) : Option (Heap κ) :=
  match p with
  | .root => some { s with root := q }
  | .child n dir => s.setA n dir q

/-- `height`. -/
def height (s : Heap κ) (n : ℕ) : Option ℤ := if n ≠ 0 then s.h n else some 0

end Heap

/-! ## Rebalancing -/

/-- `rot`: the change of the height, and the store it leaves. -/
def rot (s : Heap κ) (p : Slot) (x : ℕ) (dir : Bool) : Option (ℤ × Heap κ) := do
  let y ← s.a x dir
  let z ← s.a y (!dir)
  let hx ← s.h x
  let hz ← s.height z
  if hz > (← s.height (← s.a y dir)) then
    let s ← s.setA x dir (← s.a z (!dir))
    let s ← s.setA y (!dir) (← s.a z dir)
    let s ← s.setA z (!dir) x
    let s ← s.setA z dir y
    let s ← s.setH x hz
    let s ← s.setH y hz
    let s ← s.setH z (hz + 1)
    let s ← s.put p z
    some ((← s.h z) - hx, s)
  else
    let s ← s.setA x dir z
    let s ← s.setA y (!dir) x
    let s ← s.setH x (hz + 1)
    let s ← s.setH y (hz + 2)
    let s ← s.put p y
    some ((← s.h y) - hx, s)

/-- `__tsearch_balance`: the change of the height, and the store it leaves. -/
def balance (s : Heap κ) (p : Slot) : Option (ℤ × Heap κ) := do
  let n ← s.get p
  let h0 ← s.height (← s.a n false)
  let h1 ← s.height (← s.a n true)
  -- the comparison is one of unsigned integers
  if (h0 - h1 + 1) % 2 ^ 32 < 3 then
    let old ← s.h n
    let s ← s.setH n (if h0 < h1 then h1 + 1 else h0 + 1)
    some ((← s.h n) - old, s)
  else rot s p n (h0 < h1)

/-! ## The path -/

/-- `a[i++] = p` on an array of `len` entries. The entries in use are listed from the last one
stored to the first. -/
def push (len : ℕ) (a : List Slot) (p : Slot) : Option (List Slot) :=
  if a.length < len then some (p :: a) else none

/-- The way down to the node that holds `key`, or to the null pointer where it is missing. Every turn
of the loop stores an entry, so `fuel` turns are enough for an array of `fuel` entries. -/
def descend (s : Heap κ) (cmp : κ → κ → ℤ) (key : κ) (len : ℕ) :
    ℕ → ℕ → List Slot → Option (ℕ × List Slot)
  | fuel, n, a =>
    if n = 0 then some (0, a)
    else do
      let c := cmp key (← s.key n)
      if c = 0 then some (n, a)
      else
        let a ← push len a (.child n (c > 0))
        match fuel with
        | 0 => none
        | fuel + 1 => descend s cmp key len fuel (← s.a n (c > 0)) a

/-- `while (n->a[1])` in `tdelete`. -/
def rightmost (s : Heap κ) (len : ℕ) : ℕ → ℕ → List Slot → Option (ℕ × List Slot)
  | fuel, n, a => do
    let next ← s.a n true
    if next = 0 then some (n, a)
    else
      let a ← push len a (.child n true)
      match fuel with
      | 0 => none
      | fuel + 1 => rightmost s len fuel next a

/-! ## Insertion -/

/-- `while (i && __tsearch_balance(a[--i]))`. -/
def balanceUp (s : Heap κ) : List Slot → Option (Heap κ)
  | [] => some s
  | p :: a => do
    let (change, s) ← balance s p
    if change = 0 then some s else balanceUp s a

/-- `tsearch`, where `r` is what `malloc` returns if it is called: the value returned, and the store
left. -/
def tsearch (arch : Arch) (cmp : κ → κ → ℤ) (key : κ) (rootp : Option Slot) (r : ℕ) (s : Heap κ) :
    Option (ℕ × Heap κ) :=
  match rootp with
  | none => some (0, s)
  | some rootp => do
    let n ← s.get rootp
    let a ← push (MAXH arch) [] rootp
    let (n, a) ← descend s cmp key (MAXH arch) (MAXH arch) n a
    if n ≠ 0 then some (n, s)
    else if r = 0 then some (0, s)
    else
      let s := s.write r ⟨key, fun _ => 0, 1⟩
      match a with
      | [] => none
      | p :: a => do
        let s ← s.put p r
        let s ← balanceUp s a
        some (r, s)

/-! ## Deletion -/

/-- `while (--i && __tsearch_balance(a[i]))`: the first entry of the array is left alone. -/
def deleteUp (s : Heap κ) : List Slot → Option (Heap κ)
  | [] => none
  | [_] => some s
  | p :: a => do
    let (change, s) ← balance s p
    if change = 0 then some s else deleteUp s a

/-- `tdelete`: the value returned, and the store left. -/
def tdelete (arch : Arch) (cmp : κ → κ → ℤ) (key : κ) (rootp : Option Slot) (s : Heap κ) :
    Option (ℕ × Heap κ) :=
  match rootp with
  | none => some (0, s)
  | some rootp => do
    let len := MAXH arch + 1
    let n ← s.get rootp
    let a ← push len [] rootp
    let a ← push len a rootp
    let (n, a) ← descend s cmp key len len n a
    if n = 0 then some (0, s)
    else
      let parent ← s.get (← a[1]?)
      let left ← s.a n false
      -- the node to be freed, the subtree it leaves behind, the path to it, and the store
      let (n, child, a, s) ←
        if left ≠ 0 then do
          let deleted := n
          let a ← push len a (.child n false)
          let (n, a) ← rightmost s len len left a
          let s ← s.setKey deleted (← s.key n)
          some (n, ← s.a n false, a, s)
        else some (n, ← s.a n true, a, s)
      let s := s.free n
      match a with
      | [] => none
      | p :: a => do
        let s ← s.put p child
        let s ← deleteUp s a
        some (parent, s)

end Leblibc.Tsearch
