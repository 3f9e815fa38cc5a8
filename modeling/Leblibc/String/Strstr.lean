import Leblibc.String.Scan

/-!
# Substring search

A model of `src/string/strstr.c`, `src/string/memmem.c` and `src/string/wcsstr.c`. A needle of two,
three or four bytes is looked for with a word that slides over the haystack, a longer one with the
two-way algorithm: two searches for a maximal suffix of the needle give a critical position `ms + 1` and
a period, and the needle is compared first to the right and then to the left of that position. The
index `ms` may be `-1`, and all indices are computed in `size_t`.

The three files contain the same search but for the tests that end it, for the extension of the known
part of a haystack that is a string, and for the table of the bytes of the needle, which the wide version
lacks. The search is defined once, with these as parameters.

## Main definitions

* `maxSuffixLoop`, `factorize`: the searches for a maximal suffix, and what they are combined to
* `Table`, `Table.add`, `Table.has`: the byte set and the shifts of the last bytes
* `Search`, `Search.loop`: the main loop of the two-way search
* `strstr`, `memmem`, `wcsstr`
-/

namespace Leblibc.Str

/-! ## Comparing memory -/

section Compare

variable {β : Type} [DecidableEq β]

/-- The loop of `memcmp` and `wmemcmp`; `diff` is what they return at the first difference. -/
def memcmpLoop (diff : β → β → ℤ) (m : ℕ → β) : ℕ → ℕ → ℕ → ℤ
  | 0, _, _ => 0
  | n + 1, l, r => if m l = m r then memcmpLoop diff m n (l + 1) (r + 1) else diff (m l) (m r)

end Compare

/-- `memcmp`. -/
def memcmp (m : ℕ → UInt8) (l r n : ℕ) : ℤ :=
  memcmpLoop (fun x y => (x.toNat : ℤ) - y.toNat) m n l r

/-- `wmemcmp`. -/
def wmemcmp (m : ℕ → Int32) (l r n : ℕ) : ℤ :=
  memcmpLoop (fun x y => if x < y then -1 else if x > y then 1 else 0) m n l r

/-! ## Short needles -/

/-- The loop of the searches in a string for a needle that fits a word: `for (; *h && hw != nw; …)`. -/
def wordStrstr (m : ℕ → UInt8) (step : ℕ → UInt8 → ℕ) (nw : ℕ) : ℕ → ℕ → ℕ → Option ℕ
  | 0, _, _ => none
  | fuel + 1, h, hw =>
    if m h ≠ 0 ∧ hw ≠ nw then wordStrstr m step nw fuel (h + 1) (step hw (m (h + 1))) else some h

/-- The loop of the searches in an array for a needle of `w` bytes that fits a word. -/
def wordMemmem (m : ℕ → UInt8) (step : ℕ → UInt8 → ℕ) (nw w : ℕ) : ℕ → ℕ → ℕ → Option ℕ
  | 0, h, hw => if hw = nw then some (h - w) else none
  | k + 1, h, hw =>
    if hw = nw then some (h - w) else wordMemmem m step nw w k (h + 1) (step hw (m h))

/-- The two bytes at an address as a `uint16_t`. -/
def twobyteWord (m : ℕ → UInt8) (s : ℕ) : ℕ :=
  ((m s).toNat <<< 8 ||| (m (s + 1)).toNat) % 2 ^ 16

/-- `hw<<8 | b` in a `uint16_t`. -/
def twobyteStep (hw : ℕ) (b : UInt8) : ℕ := (hw <<< 8 ||| b.toNat) % 2 ^ 16

/-- The three bytes at an address as the upper ones of a `uint32_t`. -/
def threebyteWord (m : ℕ → UInt8) (s : ℕ) : ℕ :=
  ((m s).toNat <<< 24 ||| (m (s + 1)).toNat <<< 16 ||| (m (s + 2)).toNat <<< 8) % 2 ^ 32

/-- `(hw|b)<<8` in a `uint32_t`. -/
def threebyteStep (hw : ℕ) (b : UInt8) : ℕ := (hw ||| b.toNat) <<< 8 % 2 ^ 32

/-- The four bytes at an address as a `uint32_t`. -/
def fourbyteWord (m : ℕ → UInt8) (s : ℕ) : ℕ :=
  ((m s).toNat <<< 24 ||| (m (s + 1)).toNat <<< 16 ||| (m (s + 2)).toNat <<< 8 |||
    (m (s + 3)).toNat) % 2 ^ 32

/-- `hw<<8 | b` in a `uint32_t`. -/
def fourbyteStep (hw : ℕ) (b : UInt8) : ℕ := (hw <<< 8 % 2 ^ 32 ||| b.toNat) % 2 ^ 32

/-- `twobyte_strstr`. -/
def twobyteStrstr (m : ℕ → UInt8) (fuel h n : ℕ) : Option (Option ℕ) := do
  let h ← wordStrstr m twobyteStep (twobyteWord m n) fuel (h + 1) (twobyteWord m h)
  some (if m h ≠ 0 then some (h - 1) else none)

/-- `threebyte_strstr`. -/
def threebyteStrstr (m : ℕ → UInt8) (fuel h n : ℕ) : Option (Option ℕ) := do
  let h ← wordStrstr m threebyteStep (threebyteWord m n) fuel (h + 2) (threebyteWord m h)
  some (if m h ≠ 0 then some (h - 2) else none)

/-- `fourbyte_strstr`. -/
def fourbyteStrstr (m : ℕ → UInt8) (fuel h n : ℕ) : Option (Option ℕ) := do
  let h ← wordStrstr m fourbyteStep (fourbyteWord m n) fuel (h + 3) (fourbyteWord m h)
  some (if m h ≠ 0 then some (h - 3) else none)

/-- `twobyte_memmem`. -/
def twobyteMemmem (m : ℕ → UInt8) (h k n : ℕ) : Option ℕ :=
  wordMemmem m twobyteStep (twobyteWord m n) 2 (k - 2) (h + 2) (twobyteWord m h)

/-- `threebyte_memmem`. -/
def threebyteMemmem (m : ℕ → UInt8) (h k n : ℕ) : Option ℕ :=
  wordMemmem m threebyteStep (threebyteWord m n) 3 (k - 3) (h + 3) (threebyteWord m h)

/-- `fourbyte_memmem`. -/
def fourbyteMemmem (m : ℕ → UInt8) (h k n : ℕ) : Option ℕ :=
  wordMemmem m fourbyteStep (fourbyteWord m n) 4 (k - 4) (h + 4) (fourbyteWord m h)

/-! ## The critical factorization -/

/-- What the searches for a maximal suffix leave: the critical position less one, the distance to move
after a match to its right, and how much of the needle is then known to match. -/
structure Factor where
  ms : ℕ
  p : ℕ
  mem0 : ℕ
  deriving DecidableEq, Repr

section Factorization

variable {β : Type} [DecidableEq β]

/-- The search for a maximal suffix of the needle, with its final `ip` and `p`; `above` is the test of
the letter at `ip + k` against the one at `jp + k`. -/
def maxSuffixLoop (a : Arch) (above : β → β → Bool) (m : ℕ → β) (n l : ℕ) :
    ℕ → ℕ → ℕ → ℕ → ℕ → Option (ℕ × ℕ)
  | 0, _, _, _, _ => none
  | fuel + 1, ip, jp, k, p =>
    if a.wrap (jp + k) < l then
      if m (n + a.wrap (ip + k)) = m (n + a.wrap (jp + k)) then
        if k = p then maxSuffixLoop a above m n l fuel ip (a.wrap (jp + p)) 1 p
        else maxSuffixLoop a above m n l fuel ip jp (a.wrap (k + 1)) p
      else if above (m (n + a.wrap (ip + k))) (m (n + a.wrap (jp + k))) then
        maxSuffixLoop a above m n l fuel ip (a.wrap (jp + k)) 1 (a.sub (a.wrap (jp + k)) ip)
      else
        maxSuffixLoop a above m n l fuel jp (a.wrap (jp + 1)) 1 1
    else some (ip, p)

/-- The needle has the period of its critical suffix, or it does not and any shift up to the longer one of
its halves is safe. -/
def factorOf (a : Arch) (cmp : ℕ → ℕ → ℕ → ℤ) (n l ms p : ℕ) : Factor :=
  if cmp n (n + p) (a.wrap (ms + 1)) ≠ 0 then
    { ms := ms, p := a.wrap (max ms (a.sub (a.sub l ms) 1) + 1), mem0 := 0 }
  else { ms := ms, p := p, mem0 := a.sub l p }

/-- The computation of the critical factorization. -/
def factorize [LT β] [DecidableLT β] (a : Arch) (cmp : ℕ → ℕ → ℕ → ℤ) (m : ℕ → β) (fuel n l : ℕ) :
    Option Factor := do
  let (ms, p0) ← maxSuffixLoop a (fun x y => x > y) m n l fuel (a.sub 0 1) 0 1 1
  let (ip, p) ← maxSuffixLoop a (fun x y => x < y) m n l fuel (a.sub 0 1) 0 1 1
  some (if a.wrap (ip + 1) > a.wrap (ms + 1) then factorOf a cmp n l ip p
    else factorOf a cmp n l ms p0)

end Factorization

/-! ## The main loop -/

section Loop

variable {β : Type} [DecidableEq β]

/-- The two-way search for a needle, with what its versions differ in. -/
structure Search (β : Type) where
  arch : Arch
  /-- memory -/
  m : ℕ → β
  /-- the needle and its length -/
  n : ℕ
  l : ℕ
  f : Factor
  /-- what the end `z` of the known haystack becomes if the needle is to fit at `h`; `none` returns 0 -/
  room : ℕ → ℕ → Option ℕ
  /-- the shift at `h` for the last letter, with `mem` letters known to match; `none` goes on to compare -/
  skip : ℕ → ℕ → Option ℕ
  /-- whether there is a letter `k` of the needle left -/
  more : ℕ → Bool

/-- `for (; n[k] && n[k] == h[k]; k++)`. -/
def Search.matchRight (S : Search β) (h : ℕ) : ℕ → ℕ → Option ℕ
  | 0, _ => none
  | fuel + 1, k =>
    if S.more k ∧ S.m (S.n + k) = S.m (h + k) then S.matchRight h fuel (k + 1) else some k

/-- `for (; k>mem && n[k-1] == h[k-1]; k--)`. -/
def Search.matchLeft (S : Search β) (h mem : ℕ) : ℕ → ℕ
  | 0 => 0
  | k + 1 => if k + 1 > mem ∧ S.m (S.n + k) = S.m (h + k) then S.matchLeft h mem k else k + 1

/-- The main loop; `bound` is the bound on the turns of the comparison within it. -/
def Search.loop (S : Search β) (bound : ℕ) : ℕ → ℕ → ℕ → ℕ → Option (Option ℕ)
  | 0, _, _, _ => none
  | fuel + 1, z, h, mem =>
    match S.room z h with
    | none => some none
    | some z =>
      match S.skip h mem with
      | some k => S.loop bound fuel z (h + k) 0
      | none =>
        match S.matchRight h bound (max (S.arch.wrap (S.f.ms + 1)) mem) with
        | none => none
        | some k =>
          if S.more k then S.loop bound fuel z (h + S.arch.sub k S.f.ms) 0
          else if S.matchLeft h mem (S.arch.wrap (S.f.ms + 1)) ≤ mem then some (some h)
          else S.loop bound fuel z (h + S.f.p) S.f.mem0

/-- The test of a haystack of known length. -/
def endRoom (a : Arch) (l z h : ℕ) : Option ℕ := if a.sub z h < l then none else some z

/-- The test of a haystack that is a string: its known part is extended up to its end, which `chr0`
looks for. -/
def stringRoom (a : Arch) (chr0 : ℕ → ℕ → Option ℕ) (l z h : ℕ) : Option ℕ :=
  if a.sub z h < l then
    match chr0 z (l ||| 63) with
    | some z2 => if a.sub z2 h < l then none else some z2
    | none => some (z + (l ||| 63))
  else some z

end Loop

/-! ## The table of bytes -/

/-- The bytes of the needle, as a set of bits in words of `size_t`, and the position after the last
occurrence of each; the positions of bytes that do not occur are left as they were on the stack. -/
structure Table where
  byteset : ℕ → ℕ
  shift : ℕ → ℕ

/-- `BITOP(byteset, b, |=), shift[b] = i+1`. -/
def Table.add (a : Arch) (t : Table) (b : UInt8) (i : ℕ) : Table where
  byteset := Function.update t.byteset (b.toNat / a.bits)
    (t.byteset (b.toNat / a.bits) ||| 1 <<< (b.toNat % a.bits))
  shift := Function.update t.shift b.toNat (a.wrap (i + 1))

/-- `BITOP(byteset, b, &)`. -/
def Table.has (a : Arch) (t : Table) (b : UInt8) : Bool :=
  t.byteset (b.toNat / a.bits) &&& 1 <<< (b.toNat % a.bits) != 0

/-- The table with no byte in it, over what is on the stack. -/
def Table.empty (junk : ℕ → ℕ) : Table := { byteset := fun _ => 0, shift := junk }

/-- The shift for the last byte `b` of the window. -/
def Table.skip (a : Arch) (t : Table) (l : ℕ) (b : UInt8) (mem : ℕ) : Option ℕ :=
  if t.has a b then
    if a.sub l (t.shift b.toNat) ≠ 0 then
      some (if a.sub l (t.shift b.toNat) < mem then mem else a.sub l (t.shift b.toNat))
    else none
  else some l

/-- The table of a needle of known length. -/
def needleTable (a : Arch) (m : ℕ → UInt8) (n : ℕ) (t : Table) (l : ℕ) : Table :=
  (List.range l).foldl (fun t i => t.add a (m (n + i)) i) t

/-- `for (l=0; n[l] && h[l]; l++)`, with the length and the table it ends with. -/
def needleLoop (a : Arch) (m : ℕ → UInt8) (h n : ℕ) : ℕ → ℕ → Table → Option (ℕ × Table)
  | 0, _, _ => none
  | fuel + 1, l, t =>
    if m (n + l) ≠ 0 ∧ m (h + l) ≠ 0 then needleLoop a m h n fuel (l + 1) (t.add a (m (n + l)) l)
    else some (l, t)

/-! ## The functions -/

/-- `twoway_strstr`; `junk` is what is on the stack where its table of shifts is. -/
def twowayStrstr (a : Arch) (junk : ℕ → ℕ) (m : ℕ → UInt8) (fuel h n : ℕ) : Option (Option ℕ) := do
  let (l, t) ← needleLoop a m h n fuel 0 (Table.empty junk)
  if m (n + l) ≠ 0 then some none
  else
    let f ← factorize a (memcmp m) m fuel n l
    Search.loop
      { arch := a, m := m, n := n, l := l, f := f
        room := stringRoom a (fun z grow => memchr a m z 0 grow) l
        skip := fun h mem => t.skip a l (m (h + (l - 1))) mem
        more := fun k => m (n + k) ≠ 0 } fuel fuel h h 0

/-- `strstr`. -/
def strstr (a : Arch) (junk : ℕ → ℕ) (m : ℕ → UInt8) (fuel h n : ℕ) : Option (Option ℕ) :=
  if m n = 0 then some (some h)
  else
    match strchr a m fuel h (m n) with
    | none => none
    | some none => some none
    | some (some h) =>
      if m (n + 1) = 0 then some (some h)
      else if m (h + 1) = 0 then some none
      else if m (n + 2) = 0 then twobyteStrstr m fuel h n
      else if m (h + 2) = 0 then some none
      else if m (n + 3) = 0 then threebyteStrstr m fuel h n
      else if m (h + 3) = 0 then some none
      else if m (n + 4) = 0 then fourbyteStrstr m fuel h n
      else twowayStrstr a junk m fuel h n

/-- `twoway_memmem`. -/
def twowayMemmem (a : Arch) (junk : ℕ → ℕ) (m : ℕ → UInt8) (fuel h z n l : ℕ) :
    Option (Option ℕ) := do
  let t := needleTable a m n (Table.empty junk) l
  let f ← factorize a (memcmp m) m fuel n l
  Search.loop
    { arch := a, m := m, n := n, l := l, f := f
      room := endRoom a l
      skip := fun h mem => t.skip a l (m (h + (l - 1))) mem
      more := fun k => k < l } fuel fuel z h 0

/-- `memmem`. -/
def memmem (a : Arch) (junk : ℕ → ℕ) (m : ℕ → UInt8) (fuel h0 k n l : ℕ) : Option (Option ℕ) :=
  if l = 0 then some (some h0)
  else if k < l then some none
  else
    match memchr a m h0 (m n) k with
    | none => some none
    | some h =>
      if l = 1 then some (some h)
      else
        let k := k - (h - h0)
        if k < l then some none
        else if l = 2 then some (twobyteMemmem m h k n)
        else if l = 3 then some (threebyteMemmem m h k n)
        else if l = 4 then some (fourbyteMemmem m h k n)
        else twowayMemmem a junk m fuel h (h + k) n l

/-- `for (l=0; n[l] && h[l]; l++)`. -/
def wideNeedleLoop (m : ℕ → Int32) (h n : ℕ) : ℕ → ℕ → Option ℕ :=
  fun fuel l => scanTo (fun l => m (n + l) == 0 || m (h + l) == 0) 1 fuel l

/-- `twoway_wcsstr`. -/
def twowayWcsstr (a : Arch) (m : ℕ → Int32) (fuel h n : ℕ) : Option (Option ℕ) := do
  let l ← wideNeedleLoop m h n fuel 0
  if m (n + l) ≠ 0 then some none
  else
    let f ← factorize a (wmemcmp m) m fuel n l
    Search.loop
      { arch := a, m := m, n := n, l := l, f := f
        room := stringRoom a (fun z grow => wmemchr m z 0 grow) l
        skip := fun _ _ => none
        more := fun k => m (n + k) ≠ 0 } fuel fuel h h 0

/-- `wcsstr`. -/
def wcsstr (a : Arch) (m : ℕ → Int32) (fuel h n : ℕ) : Option (Option ℕ) :=
  if m n = 0 then some (some h)
  else if m h = 0 then some none
  else
    match wcschr m fuel h (m n) with
    | none => none
    | some none => some none
    | some (some h) =>
      if m (n + 1) = 0 then some (some h)
      else if m (h + 1) = 0 then some none
      else twowayWcsstr a m fuel h n

end Leblibc.Str
