import Leblibc.Lib.Memory
import Leblibc.Network.DnName

/-!
# Compression of domain names

A model of `dn_comp` in `src/network/dn_comp.c`. The array `dnptrs` has the start of the message and then the names
that have been written there before; a name is compressed by a pointer to the longest end that it has in common with
one of them.

Pointers are offsets from the start of the message. The names of `dnptrs` are a list, and `last` is the number of
elements up to `lastdnptr`; both may be absent, for a null pointer. A write beyond the array `offs` and a loop that
does not end are `none`; the result of a call that returns `-1` has no length.

## Main definitions

* `getoffs`, `getlens`, `matchName`: the functions
* `bestMatch`: the loop over the names
* `storeLens`: the loop over the labels that are written
* `dnComp`: the function
-/

namespace Leblibc.Dns

open Lib (store)

/-- The loop of `getoffs`, with the offsets so far. A return of 0 is an empty list. -/
def getoffsLoop (msg : ℕ → UInt8) : ℕ → ℕ → List ℕ → Option (List ℕ)
  | 0, _, _ => none
  | fuel + 1, s, offs =>
    if msg s &&& 192 ≠ 0 then
      if msg s &&& 192 ≠ 192 then some []
      else getoffsLoop msg fuel (pointerAt msg s) offs
    else if msg s = 0 then some offs
    else if s ≥ 16384 then some []
    else if offs.length ≥ 128 then none
    else getoffsLoop msg fuel (s + ((msg s).toNat + 1)) (offs ++ [s])

/-- The loop of `getlens`: what is left of the name, the length of the label so far, and the lengths before. A return
of 0 is `none`. -/
def getlensLoop : List UInt8 → ℕ → List ℕ → Option (List ℕ)
  | [], k, lens => if 1 ≤ k ∧ k ≤ 63 then some (lens ++ [k]) else none
  | c :: s, k, lens =>
    if c ≠ 46 then getlensLoop s (k + 1) lens
    else if 1 ≤ k ∧ k ≤ 63 then getlensLoop s 0 (lens ++ [k])
    else none

/-- `getlens`. -/
def getlens (s : List UInt8) : Option (List ℕ) := getlensLoop s 0 []

/-- The loop of `match`, with `end` as offset in the name: the values of `m` and `*offset` when it returns. -/
def matchLoop (msg : ℕ → UInt8) (src : List UInt8) (lens offs : List ℕ) : ℕ → ℕ → ℕ → ℕ → ℕ → ℕ × ℕ
  | 0, _, _, m, offset => (m, offset)
  | nlen + 1, noff, e, m, offset =>
    let l := lens.getD nlen 0
    let o := offs.getD (noff - 1) 0
    if l ≠ (msg o).toNat ∨ bytesAt msg (o + 1) l ≠ (src.drop (e - l)).take l then (m, offset)
    else
      let m := m + l + (if nlen ≠ 0 then 1 else 0)
      if nlen = 0 ∨ noff - 1 = 0 then (m, o) else matchLoop msg src lens offs nlen (noff - 1) (e - l - 1) m o

/-- `match`, for the name `src` and the name at `dn`: the length of what they have in common at the end, and where
it begins. -/
def matchName (msg : ℕ → UInt8) (fuel : ℕ) (src : List UInt8) (lens : List ℕ) (dn : ℕ) : Option (ℕ × ℕ) :=
  (getoffsLoop msg fuel dn []).map fun offs =>
    if offs = [] then (0, 0) else matchLoop msg src lens offs lens.length offs.length src.length 0 0

/-- The loop over the names: the values of `bestlen` and `bestoff` at its end. -/
def bestMatch (msg : ℕ → UInt8) (fuel : ℕ) (src : List UInt8) (lens : List ℕ) : List ℕ → ℕ × ℕ → Option (ℕ × ℕ)
  | [], best => some best
  | dn :: dns, best =>
    (matchName msg fuel src lens dn).bind fun r =>
      if r.1 > best.1 then if r.1 = src.length then some r else bestMatch msg fuel src lens dns r
      else bestMatch msg fuel src lens dns best

/-- The loop that writes the lengths of labels before them, for the first `limit` bytes of the name: the message, and
the value of `i` at its end. -/
def storeLens (dst limit : ℕ) : List ℕ → ℕ → (ℕ → UInt8) → (ℕ → UInt8) × ℕ
  | [], i, msg => (msg, i)
  | l :: lens, i, msg =>
    if i < limit then storeLens dst limit lens (i + l + 1) (Function.update msg (dst + i) (UInt8.ofNat l)) else (msg, i)

/-- What a call leaves: its result, or none for `-1`, the message, and the names of `dnptrs`. -/
structure Packed where
  len : Option ℕ
  msg : ℕ → UInt8
  dnptrs : Option (List ℕ)

/-- The names of `dnptrs` after the name at `dst`, of `i` bytes, has been written. -/
def record (dnptrs : Option (List ℕ)) (last : Option ℕ) (dst i : ℕ) : Option (List ℕ) :=
  match dnptrs, last with
  | some dns, some n => some (if i > 2 ∧ 1 + dns.length + 1 < n then dns ++ [dst] else dns)
  | _, _ => dnptrs

/-- The bytes that the test for room counts. -/
def needed (l bestlen : ℕ) : ℕ := l - bestlen + 2 + if bestlen ≠ 0 ∧ bestlen - 1 < l - 1 then 1 else 0

/-- The writes of `dn_comp` behind the test for room. -/
def pack (msg : ℕ → UInt8) (src : List UInt8) (lens : List ℕ) (dst bestlen bestoff : ℕ) : (ℕ → UInt8) × ℕ :=
  let limit := src.length - bestlen
  let r := storeLens dst limit lens 0 (store msg (dst + 1) (src.take limit))
  if bestlen ≠ 0 then
    (store r.1 (dst + r.2) [192 ||| UInt8.ofNat (bestoff / 256), UInt8.ofNat bestoff], r.2 + 2)
  else (store r.1 (dst + r.2) [0], r.2 + 1)

/-- The name without the dot at its end. -/
def stripDot (src : List UInt8) : List UInt8 := if src.getLast? = some 46 then src.dropLast else src

/-- `dn_comp`. The rounds of `getoffs` are bounded by `fuel`. -/
def dnComp (fuel : ℕ) (msg : ℕ → UInt8) (src : List UInt8) (dst : ℕ) (space : ℤ) (dnptrs : Option (List ℕ))
    (last : Option ℕ) : Option Packed :=
  let src := stripDot (src.take 255)
  if src.length > 253 ∨ space ≤ 0 then some ⟨none, msg, dnptrs⟩
  else if src = [] then some ⟨some 1, store msg dst [0], dnptrs⟩
  else
    match getlens src with
    | none => some ⟨none, msg, dnptrs⟩
    | some lens =>
      (bestMatch msg fuel src lens (dnptrs.getD []) (0, 0)).map fun best =>
        if space < needed src.length best.1 then ⟨none, msg, dnptrs⟩
        else
          let r := pack msg src lens dst best.1 best.2
          ⟨some r.2, r.1, record dnptrs last dst r.2⟩

end Leblibc.Dns
