import Leblibc.Stdio.Printf

/-!
# Texts of network addresses

A model of `inet_ntop` in `src/network/inet_ntop.c` and of `inet_pton` in `src/network/inet_pton.c`.

`inet_ntop` prints an IPv6 address as eight groups, or as six and a dotted quad, scans the printed text for the
longest span of the bytes `:` and `0` that begins a group, and overwrites it in place. `inet_pton` reads groups into
an array of eight, remembers in `brk` where the two colons stood, and moves what follows them to the end.

An address is the memory from its first byte on, and a text is a list of bytes without the final zero. The array
`ip` is not initialised, so that its first values are arbitrary.

## Main definitions

* `inetNtop`: the function; `scan` is its loop over the printed text
* `inetPton`: the function; `pton4` and `pton6Loop` are its loops
-/

namespace Leblibc.Inet

open Printf

/-! ## From addresses to texts -/

def AF_INET : ℕ := 2

def AF_INET6 : ℕ := 10

/-- `INET6_ADDRSTRLEN`. -/
def INET6_ADDRSTRLEN : ℕ := 46

/-- The values of `errno` that `inet_ntop` sets. -/
inductive Errno where
  | EAFNOSUPPORT | ENOSPC
  deriving DecidableEq

/-- `snprintf` with a buffer of `size` bytes: the value that it returns, and the text in the buffer. -/
def snprintf (arch : Arch) (size : ℕ) (fmt : List UInt8) (args : List ℤ) : Option (ℕ × List UInt8) :=
  match printfCore arch fmt args with
  | some (.count n, out) => some (n, out.take (size - 1))
  | _ => none

/-- The format `"%d.%d.%d.%d"`. -/
def quadFormat : List UInt8 := [37, 100, 46, 37, 100, 46, 37, 100, 46, 37, 100]

/-- The format `"%x:%x:%x:%x:%x:%x:"`. -/
def sixFormat : List UInt8 :=
  [37, 120, 58, 37, 120, 58, 37, 120, 58, 37, 120, 58, 37, 120, 58, 37, 120, 58]

/-- The format `"%x:%x:%x:%x:%x:%x:%x:%x"`. -/
def groupsFormat : List UInt8 := sixFormat ++ [37, 120, 58, 37, 120]

/-- The format `"%x:%x:%x:%x:%x:%x:%d.%d.%d.%d"`. -/
def mixedFormat : List UInt8 := sixFormat ++ quadFormat

/-- The group `256*a[2*k]+a[2*k+1]`. -/
def group (a : ℕ → UInt8) (k : ℕ) : ℕ := 256 * (a (2 * k)).toNat + (a (2 * k + 1)).toNat

/-- The groups from 0 on, `n` of them, as arguments. -/
def groupArgs (a : ℕ → UInt8) (n : ℕ) : List ℤ := (List.range n).map fun k => (group a k : ℤ)

/-- Four bytes from `a[p]` on, as arguments. -/
def quadArgs (a : ℕ → UInt8) (p : ℕ) : List ℤ := (List.range 4).map fun k => ((a (p + k)).toNat : ℤ)

/-- The bytes that an address begins with if it stands for an IPv4 address. -/
def mappedHead : List UInt8 := [0, 0, 0, 0, 0, 0, 0, 0, 0, 0, 255, 255]

/-- The text that is printed into `buf`. -/
def printed (arch : Arch) (a : ℕ → UInt8) : Option (List UInt8) :=
  (if (List.range 12).map a ≠ mappedHead then snprintf arch 100 groupsFormat (groupArgs a 8)
    else snprintf arch 100 mixedFormat (groupArgs a 6 ++ quadArgs a 12)).map Prod.snd

/-- `strspn(s, ":0")`. -/
def spanZeros (s : List UInt8) : ℕ := (s.takeWhile fun c => c = 58 ∨ c = 48).length

/-- The loop over `buf`, from `buf + i` on: the values of `best` and `max` at its end. -/
def scan : List UInt8 → ℕ → ℕ → ℕ → ℕ × ℕ
  | [], _, best, max => (best, max)
  | c :: s, i, best, max =>
    if i ≠ 0 ∧ c ≠ 58 then scan s (i + 1) best max
    else if spanZeros (c :: s) > max + (if best = 0 then 1 else 0) then scan s (i + 1) i (spanZeros (c :: s))
    else scan s (i + 1) best max

/-- The text with the best span replaced: two colons are written over its first two bytes, and what follows the
span, the final zero included, is moved behind them. -/
def shorten (buf : List UInt8) : List UInt8 :=
  let r := scan buf 0 0 2
  if r.2 > 3 then buf.take r.1 ++ [58, 58] ++ buf.drop (r.1 + r.2) else buf

/-- `inet_ntop` with a buffer of `l` bytes. -/
def inetNtop (arch : Arch) (af : ℕ) (a : ℕ → UInt8) (l : ℕ) : Option (Except Errno (List UInt8)) :=
  if af = AF_INET then
    (snprintf arch l quadFormat (quadArgs a 0)).map fun r => if r.1 < l then .ok r.2 else .error .ENOSPC
  else if af = AF_INET6 then
    (printed arch a).map fun buf => if (shorten buf).length < l then .ok (shorten buf) else .error .ENOSPC
  else some (.error .EAFNOSUPPORT)

/-! ## From texts to addresses -/

/-- `hexval`; `none` is the value `-1`. -/
def hexval (c : UInt8) : Option ℕ :=
  if c - 48 < 10 then some (c - 48).toNat
  else if (c ||| 32) - 97 < 6 then some (((c ||| 32) - 97).toNat + 10)
  else none

/-- The value of a decimal digit. -/
def decval (c : UInt8) : Option ℕ := if isdigit c then some (c.toNat - 48) else none

/-- A loop that reads digits, at most `k` of them, after the number `v`: the values of `v` and `j` at its end. -/
def digitLoop (val : UInt8 → Option ℕ) (base : ℕ) : ℕ → ℕ → List UInt8 → ℕ × ℕ
  | 0, v, _ => (v, 0)
  | _ + 1, v, [] => (v, 0)
  | k + 1, v, c :: s =>
    match val c with
    | none => (v, 0)
    | some d => ((digitLoop val base k (base * v + d) s).1, (digitLoop val base k (base * v + d) s).2 + 1)

/-- The loop for `AF_INET`, before the last `k` of the four rounds: the bytes of the address if it is valid. -/
def pton4 : ℕ → List UInt8 → Option (List UInt8)
  | 0, _ => none
  | k + 1, s =>
    let r := digitLoop decval 10 3 0 s
    if r.2 = 0 ∨ (r.2 > 1 ∧ byte s 0 = 48) ∨ r.1 > 255 then none
    else if byte s r.2 = 0 ∧ k = 0 then some [UInt8.ofNat r.1]
    else if byte s r.2 ≠ 46 then none
    else (pton4 k (s.drop (r.2 + 1))).map (UInt8.ofNat r.1 :: ·)

/-- The variables behind the loop for `AF_INET6`. -/
structure Groups where
  i : ℕ
  brk : Option ℕ
  ip : ℕ → ℕ
  s : List UInt8
  needV4 : Bool

/-- The loop for `AF_INET6`. The round with `i = 7` is the last one, so that 8 rounds are enough. -/
def pton6Loop : ℕ → ℕ → List UInt8 → Option ℕ → (ℕ → ℕ) → Option Groups
  | 0, _, _, _, _ => none
  | fuel + 1, i, s, brk, ip =>
    if byte s 0 = 58 ∧ brk = none then
      if byte s 1 = 0 then some ⟨i, some i, Function.update ip (i % 8) 0, s.drop 1, false⟩
      else if i = 7 then none
      else pton6Loop fuel (i + 1) (s.drop 1) (some i) (Function.update ip (i % 8) 0)
    else
      let r := digitLoop hexval 16 4 0 s
      if r.2 = 0 then none
      else
        let ip := Function.update ip (i % 8) r.1
        if byte s r.2 = 0 ∧ (brk ≠ none ∨ i = 7) then some ⟨i, brk, ip, s, false⟩
        else if i = 7 then none
        else if byte s r.2 ≠ 58 then
          if byte s r.2 ≠ 46 ∨ (i < 6 ∧ brk = none) then none
          else some ⟨i + 1, brk, Function.update ip ((i + 1) % 8) 0, s, true⟩
        else pton6Loop fuel (i + 1) (s.drop (r.2 + 1)) brk ip

/-- The array after the groups from `brk` to `i` have been moved to its end and the gap has been cleared. -/
def spread (ip : ℕ → ℕ) (i brk : ℕ) : ℕ → ℕ := fun k =>
  if brk ≤ k ∧ k < brk + (7 - i) then 0
  else if brk + 7 - i ≤ k ∧ k < brk + 7 - i + (i + 1 - brk) then ip (brk + (k - (brk + 7 - i)))
  else ip k

/-- The bytes of the eight groups. -/
def groupBytes (ip : ℕ → ℕ) : List UInt8 :=
  (List.range 8).flatMap fun j => [UInt8.ofNat (ip j / 256), UInt8.ofNat (ip j)]

/-- The array before its groups are written. -/
def Groups.array (r : Groups) : ℕ → ℕ :=
  match r.brk with
  | none => r.ip
  | some brk => spread r.ip r.i brk

/-- What follows the loop for `AF_INET6`. -/
def Groups.finish (r : Groups) : Option (List UInt8) :=
  if r.needV4 then (pton4 4 r.s).map ((groupBytes r.array).take 12 ++ ·) else some (groupBytes r.array)

/-- `inet_pton`: the value that it returns, and the bytes of the address if that is 1. -/
def inetPton (af : ℕ) (s : List UInt8) (ip₀ : ℕ → ℕ) : ℤ × List UInt8 :=
  if af = AF_INET then ((pton4 4 s).map (1, ·)).getD (0, [])
  else if af ≠ AF_INET6 then (-1, [])
  else if byte s 0 = 58 ∧ byte s 1 ≠ 58 then (0, [])
  else
    let s := if byte s 0 = 58 then s.drop 1 else s
    (((pton6Loop 8 0 s none ip₀).bind Groups.finish).map (1, ·)).getD (0, [])

end Leblibc.Inet
