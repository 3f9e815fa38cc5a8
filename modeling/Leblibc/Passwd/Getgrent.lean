import Leblibc.Base.Machine
import Leblibc.Lib.Buffer

/-!
# The group file

A model of `src/passwd/getgrent_a.c`. The line buffer is a function from offsets to bytes, and a pointer into
it is an offset. `getline` puts the line and a zero after it there, and leaves what earlier lines have left
behind them. The members are counted in one pass over their field, and separated in a second one, which
writes a zero over a comma and goes on after the byte that follows the comma.

Every byte that is read is checked against a limit, and every pointer that is stored against the size of the
array: what is beyond is `none`.

## Main definitions

* `strchr`, `atou`: looking for a byte, and reading a number
* `fields`: the part of a line before the members
* `countMembers`, `splitMembers`: the two passes over the members
* `getgrentA`: `__getgrent_a`
-/

namespace Leblibc.Passwd

/-- The byte `':'`. -/
def colon : UInt8 := 58

/-- The byte `','`. -/
def comma : UInt8 := 44

/-- A buffer of bytes. -/
abbrev Buf := ℕ → UInt8

/-- A byte of the buffer, if it may be read. -/
def read (lim : ℕ) (buf : Buf) (s : ℕ) : Option UInt8 := if s ≤ lim then some (buf s) else none

/-- `strchr`, for a byte that is not zero. -/
def strchr (lim : ℕ) (buf : Buf) (c : UInt8) : ℕ → ℕ → Option (Option ℕ)
  | 0, _ => none
  | fuel + 1, s => do
    let b ← read lim buf s
    if b = c then some (some s)
    else if b = 0 then some none
    else strchr lim buf c fuel (s + 1)

/-- `atou`: the number, of type `unsigned`, and the place after it. -/
def atou (lim : ℕ) (buf : Buf) : ℕ → ℕ → ℕ → Option (ℕ × ℕ)
  | 0, _, _ => none
  | fuel + 1, x, s => do
    let b ← read lim buf s
    if 48 ≤ b.toNat ∧ b.toNat < 58 then
      atou lim buf fuel ((10 * x + (b.toNat - 48)) % 2 ^ 32) (s + 1)
    else some (x, s)

/-- `gr_name`, `gr_passwd`, `gr_gid` and `mems`. -/
structure Fields where
  name : ℕ
  passwd : ℕ
  gid : ℕ
  mems : ℕ

/-- The body of the loop over the lines from the second `strchr` on; without fields the loop goes on. -/
def fieldsFrom (lim : ℕ) (buf : Buf) (passwd : ℕ) : Option (Option Fields × Buf) := do
  match ← strchr lim buf colon (lim + 2) passwd with
  | none => some (none, buf)
  | some s =>
    let buf := Function.update buf s 0
    let (gid, s) ← atou lim buf (lim + 2) 0 (s + 1)
    let b ← read lim buf s
    if b ≠ colon then some (none, buf)
    else some (some ⟨0, passwd, gid, s + 1⟩, Function.update buf s 0)

/-- The body of the loop over the lines. -/
def fields (lim : ℕ) (buf : Buf) : Option (Option Fields × Buf) := do
  match ← strchr lim buf colon (lim + 2) 1 with
  | none => some (none, buf)
  | some s => fieldsFrom lim (Function.update buf s 0) (s + 1)

/-- The loop that counts the members. -/
def countMembers (lim : ℕ) (buf : Buf) : ℕ → ℕ → ℕ → Option ℕ
  | 0, _, _ => none
  | fuel + 1, s, n => do
    let b ← read lim buf s
    if b = 0 then some n else countMembers lim buf fuel (s + 1) (if b = comma then n + 1 else n)

/-- An array of pointers, null or to a byte of the buffer. -/
abbrev Ptrs := List (Option ℕ)

/-- Storing a pointer in an array. -/
def store (mem : Ptrs) (i : ℕ) (p : Option ℕ) : Option Ptrs :=
  if i < mem.length then some (mem.set i p) else none

/-- The loop that separates the members. -/
def splitMembers (lim : ℕ) : ℕ → Buf → Ptrs → ℕ → ℕ → Option (Buf × Ptrs × ℕ)
  | 0, _, _, _, _ => none
  | fuel + 1, buf, mem, i, s => do
    let b ← read lim buf s
    if b = 0 then some (buf, mem, i)
    else if b = comma then
      let mem ← store mem (i + 1) (some (s + 1))
      splitMembers lim fuel (Function.update buf s 0) mem (i + 1) (s + 2)
    else splitMembers lim fuel buf mem i (s + 1)

/-- The array of the members. -/
def members (lim : ℕ) (buf : Buf) (mems nmem : ℕ) : Option (Buf × Ptrs) := do
  let mem := List.replicate (nmem + 1) none
  let b ← read lim buf mems
  if b ≠ 0 then
    let mem ← store mem 0 (some mems)
    let (buf, mem, i) ← splitMembers lim (lim + 2) buf mem 0 mems
    let mem ← store mem (i + 1) none
    some (buf, mem)
  else
    let mem ← store mem 0 none
    some (buf, mem)

/-- What a call leaves: the result, the buffer, `*mem`, `*nmem`, `*res` and the rest of the file. A null
pointer is `none`; `*res` points to the fields, with `gr_mem` in `*mem`. -/
structure Outcome where
  rv : ℕ
  line : Option Buf
  mem : Option Ptrs
  nmem : ℕ
  res : Option Fields
  rest : List (List UInt8)

/-- `ENOMEM`. -/
def enomem : ℕ := 12

/-- The buffer after `getline`. -/
def fill (buf : Buf) (line : List UInt8) : Buf :=
  fun i => (line ++ [0])[i]?.getD (buf i)

/-- The part of `__getgrent_a` after the loop over the lines. -/
def finish (a : Arch) (lim : ℕ) (ok : Bool) (f : Fields) (buf : Buf) (rest : List (List UInt8)) :
    Option Outcome := do
  let b ← read lim buf f.mems
  let nmem ← countMembers lim buf (lim + 2) f.mems (if b ≠ 0 then 1 else 0)
  if calloc a a.ptrSize (nmem + 1) ok then
    let (buf, mem) ← members lim buf f.mems nmem
    some ⟨0, some buf, some mem, nmem, some f, rest⟩
  else some ⟨enomem, none, none, nmem, none, rest⟩

/-- `__getgrent_a` on a file of which the given lines are left, with their newlines; `err` is the error at its
end, or 0. The buffer may be read up to `slack` bytes behind the zero that is written over the newline, and
`ok` is the outcome of the allocation. -/
def getgrentA (a : Arch) (slack : ℕ) (ok : Bool) (err : ℕ) (mem : Option Ptrs) (nmem : ℕ) :
    List (List UInt8) → Buf → Option Outcome
  | [], _ => some ⟨err, none, mem, nmem, none, []⟩
  | line :: rest, buf => do
    let lim := line.length - 1 + slack
    match ← fields lim (Function.update (fill buf line) (line.length - 1) 0) with
    | (none, buf) => getgrentA a slack ok err mem nmem rest buf
    | (some f, buf) => finish a lim ok f buf rest

end Leblibc.Passwd
