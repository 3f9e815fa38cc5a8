import Leblibc.Stdlib.Strtol

/-!
# Plural expressions

A model of `__pleval` in `src/locale/pleval.c`. The evaluator computes while it parses: `evalexpr`, `evalbinop` and
`evalprim` leave the value of what they have read in `st->r` and return a pointer to the next byte that is no space.
A failure is the return of a pointer to the empty string.

The fields `r` and `op` of `struct st` are state; the field `n` is only read and is a parameter. Neither `r` nor `op`
is initialised. The counter `d` of the source goes down to `-1`; here it stays at 0, where each of the functions does
what the source does with a counter that has run out. A loop that does not end is `none`.

## Main definitions

* `St`: the state
* `binop`, `parseop`: the operators
* `binLoop`: the loop of `evalbinop`
* `evalprim`, `evalbinop`, `evalexpr`, `pleval`: the functions
-/

namespace Leblibc.Pleval

open Strtol (byte isspace dec strtoul)

/-- The fields `r` and `op` of `struct st`. -/
structure St where
  r : ℕ
  op : ℕ
  deriving DecidableEq

/-- `ULONG_MAX`, which is `(unsigned long)-1`. -/
def ULONG_MAX (arch : Arch) : ℕ := 2 ^ arch.bits - 1

/-- `skipspace`. -/
def skipspace (s : List UInt8) : List UInt8 := s.dropWhile isspace

/-- A truth value as a number. -/
def truth (p : Prop) [Decidable p] : ℕ := if p then 1 else 0

/-- `binop`: the value of `st->r`; `none` is the return value 1. -/
def binop (arch : Arch) (op a b : ℕ) : Option ℕ :=
  match op with
  | 0 => some (truth (a ≠ 0 ∨ b ≠ 0))
  | 1 => some (truth (a ≠ 0 ∧ b ≠ 0))
  | 2 => some (truth (a = b))
  | 3 => some (truth (a ≠ b))
  | 4 => some (truth (a ≥ b))
  | 5 => some (truth (a ≤ b))
  | 6 => some (truth (a > b))
  | 7 => some (truth (a < b))
  | 8 => some (arch.wrap (a + b))
  | 9 => some (arch.sub a b)
  | 10 => some (arch.wrap (a * b))
  | 11 => if b ≠ 0 then some (a % b) else none
  | 12 => if b ≠ 0 then some (a / b) else none
  | _ => none

/-- The table `opch`. -/
def opch : List UInt8 := [124, 38, 61, 33, 62, 60, 43, 45, 42, 37, 47]

/-- The table `opch2`. -/
def opch2 : List UInt8 := [124, 38, 61, 61, 61, 61]

/-- `parseop`: the operator, and what follows it. -/
def parseop (s : List UInt8) : ℕ × List UInt8 :=
  match opch.findIdx? (· = byte s 0) with
  | some i =>
    if i < 6 ∧ byte s 1 = opch2.getD i 0 then (i, s.drop 2)
    else if i ≥ 4 then (i + 2, s.drop 1)
    else (13, s)
  | none => (13, s)

/-- The table `prec`. -/
def prec (op : ℕ) : ℕ := [1, 2, 3, 3, 4, 4, 4, 4, 5, 5, 6, 6, 6, 0].getD op 0

/-- The loop of `evalbinop`, with the recursive call as a parameter. -/
def binLoop (arch : Arch) (eval : ℕ → St → List UInt8 → Option (St × List UInt8)) (minprec : ℕ) :
    ℕ → St → List UInt8 → Option (St × List UInt8)
  | 0, _, _ => none
  | fuel + 1, st, s =>
    if prec st.op ≤ minprec then some (st, s)
    else
      (eval (prec st.op) st s).bind fun q =>
        match binop arch st.op st.r q.1.r with
        | none => some (q.1, [])
        | some r => binLoop arch eval minprec fuel ⟨r, q.1.op⟩ q.2

mutual

/-- `evalprim`. -/
def evalprim (arch : Arch) (n : ℕ) : ℕ → St → List UInt8 → Option (St × List UInt8)
  | 0, st, _ => some (st, [])
  | d + 1, st, s =>
    let s := skipspace s
    if dec (byte s 0) < 10 then
      (strtoul arch s 10).map fun q =>
        if q.endptr = 0 ∨ q.value.toNat = ULONG_MAX arch then (⟨q.value.toNat, st.op⟩, [])
        else (⟨q.value.toNat, st.op⟩, skipspace (s.drop q.endptr.toNat))
    else if byte s 0 = 110 then some (⟨n, st.op⟩, skipspace (s.drop 1))
    else if byte s 0 = 40 then
      (evalexpr arch n d st (s.drop 1)).map fun q =>
        if byte q.2 0 ≠ 41 then (q.1, []) else (q.1, skipspace (q.2.drop 1))
    else if byte s 0 = 33 then
      (evalprim arch n d st (s.drop 1)).map fun q => (⟨truth (q.1.r = 0), q.1.op⟩, q.2)
    else some (st, [])

/-- `evalbinop`. With the counter at 0, `evalprim` returns the empty string, where `parseop` finds no operator. -/
def evalbinop (arch : Arch) (n : ℕ) : ℕ → ℕ → St → List UInt8 → Option (St × List UInt8)
  | 0, _, st, _ => some (⟨st.r, 13⟩, [])
  | d + 1, minprec, st, s =>
    (evalprim arch n d st s).bind fun q =>
      binLoop arch (evalbinop arch n d) minprec (q.2.length + 2) ⟨q.1.r, (parseop q.2).1⟩ (parseop q.2).2

/-- `evalexpr`. -/
def evalexpr (arch : Arch) (n : ℕ) : ℕ → St → List UInt8 → Option (St × List UInt8)
  | 0, st, _ => some (st, [])
  | d + 1, st, s =>
    (evalbinop arch n d 0 st s).bind fun a =>
      if byte a.2 0 ≠ 63 then some a
      else
        (evalexpr arch n d a.1 (a.2.drop 1)).bind fun b =>
          if byte b.2 0 ≠ 58 then some (b.1, [])
          else
            (evalexpr arch n d b.1 (b.2.drop 1)).map fun c => (⟨if a.1.r ≠ 0 then b.1.r else c.1.r, c.1.op⟩, c.2)

end

/-- `__pleval`, with what is in `struct st` before. -/
def pleval (arch : Arch) (s : List UInt8) (n : ℕ) (st : St) : Option ℕ :=
  (evalexpr arch n 100 st s).map fun q => if byte q.2 0 = 59 then q.1.r else ULONG_MAX arch

end Leblibc.Pleval
