import Mathlib.Data.List.Basic
import Mathlib.Data.UInt
import Mathlib.Tactic.Common

/-!
# The multibyte codec

A model of `mbrtowc.c`, `wcrtomb.c` and the table of `internal.c` in `src/multibyte`. A conversion that has not
reached the end of a character keeps it in one word: the bits that it has so far, a bit at the top that is
shifted out with the last byte, and in the bits below it the bounds of the next byte.

A call gets the bytes it may read as a list, so that `n` is its length, and a null pointer as `none`.

## Main definitions

* `oob`, `bittab`: the macro `OOB` and the table of first bytes
* `mbrtowc`, `wcrtomb`: the conversions
* `feed`: the calls by which a caller converts the bytes of a buffer one character after another
-/

namespace Leblibc.Multibyte

/-! ## The table -/

/-- `OOB`: the byte is not between the bounds that the word has for it. -/
def oob (c : BitVec 32) (b : UInt8) : Bool :=
  let x := (b.toBitVec.setWidth 32) >>> 3
  ((x - 0x10#32) ||| (x + c.sshiftRight 26)) &&& ~~~7#32 ≠ 0#32

/-- `R`. -/
def boundsBits (a b : BitVec 32) : BitVec 32 := (if a = 0x80#32 then 0x40#32 - b else 0#32 - a) <<< 23

/-- `C`: the first byte of two. -/
def leadC (x : BitVec 32) : BitVec 32 :=
  if x < 2#32 then -1#32 else boundsBits 0x80#32 0xc0#32 ||| x

/-- `D`: the first byte of two. -/
def leadD (x : BitVec 32) : BitVec 32 := leadC (x + 16#32)

/-- `E`: the first byte of three. -/
def leadE (x : BitVec 32) : BitVec 32 :=
  (if x = 0#32 then boundsBits 0xa0#32 0xc0#32
    else if x = 0xd#32 then boundsBits 0x80#32 0xa0#32
    else boundsBits 0x80#32 0xc0#32) |||
  boundsBits 0x80#32 0xc0#32 >>> 6 ||| x

/-- `F`: the first byte of four. -/
def leadF (x : BitVec 32) : BitVec 32 :=
  (if x ≥ 5#32 then 0#32
    else if x = 0#32 then boundsBits 0x90#32 0xc0#32
    else if x = 4#32 then boundsBits 0x80#32 0x90#32
    else boundsBits 0x80#32 0xc0#32) |||
  boundsBits 0x80#32 0xc0#32 >>> 6 ||| boundsBits 0x80#32 0xc0#32 >>> 12 ||| x

/-- `bittab`. -/
def bittab : List (BitVec 32) :=
  [leadC 0x2, leadC 0x3, leadC 0x4, leadC 0x5, leadC 0x6, leadC 0x7,
    leadC 0x8, leadC 0x9, leadC 0xa, leadC 0xb, leadC 0xc, leadC 0xd, leadC 0xe, leadC 0xf,
    leadD 0x0, leadD 0x1, leadD 0x2, leadD 0x3, leadD 0x4, leadD 0x5, leadD 0x6, leadD 0x7,
    leadD 0x8, leadD 0x9, leadD 0xa, leadD 0xb, leadD 0xc, leadD 0xd, leadD 0xe, leadD 0xf,
    leadE 0x0, leadE 0x1, leadE 0x2, leadE 0x3, leadE 0x4, leadE 0x5, leadE 0x6, leadE 0x7,
    leadE 0x8, leadE 0x9, leadE 0xa, leadE 0xb, leadE 0xc, leadE 0xd, leadE 0xe, leadE 0xf,
    leadF 0x0, leadF 0x1, leadF 0x2, leadF 0x3, leadF 0x4]

/-! ## Decoding -/

/-- The result of `mbrtowc`: a character and the number of bytes that is returned, or `-2`, or `-1`; with the
state that is left. -/
inductive Decoded where
  | char (ret : ℕ) (wc : ℕ) (st : BitVec 32)
  | incomplete (st : BitVec 32)
  | illegal (st : BitVec 32)
  deriving DecidableEq

/-- `c<<6 | *s++-0x80`. -/
def shiftIn (c : BitVec 32) (b : UInt8) : BitVec 32 :=
  c <<< 6 ||| (b.toBitVec.setWidth 32 - 0x80#32)

/-- The part of `mbrtowc` from the label `loop` on, where `k` bytes have been taken; the bytes are not
empty there. -/
def decodeLoop (c : BitVec 32) : List UInt8 → ℕ → Decoded
  | [], _ => .incomplete c
  | b :: s, k =>
    let c := shiftIn c b
    if c &&& 1#32 <<< 31 = 0#32 then .char (k + 1) c.toNat 0
    else
      match s with
      | [] => .incomplete c
      | b' :: _ => if b'.toBitVec.setWidth 32 - 0x80#32 ≥ 0x40#32 then .illegal 0 else decodeLoop c s (k + 1)

/-- The part of `mbrtowc` after the first byte of a character. -/
def resume (c : BitVec 32) (s : List UInt8) (k : ℕ) : Decoded :=
  match s with
  | [] => .incomplete c
  | b :: _ => if oob c b then .illegal 0 else decodeLoop c s k

/-- `CODEUNIT`. -/
def codeunit (b : UInt8) : ℕ := (0xdfff#32 &&& b.toBitVec.signExtend 32).toNat

/-- `mbrtowc` with the state `st`, in a UTF-8 locale or in one with `MB_CUR_MAX` 1. A null pointer asks for
the initial state. -/
def mbrtowc (utf8 : Bool) (st : BitVec 32) : Option (List UInt8) → Decoded
  | none => if st ≠ 0#32 then .illegal 0 else .char 0 0 st
  | some [] => .incomplete st
  | some (b :: s) =>
    if st = 0#32 then
      if b.toNat < 0x80 then .char (if b ≠ 0 then 1 else 0) b.toNat st
      else if !utf8 then .char 1 (codeunit b) st
      else if b.toBitVec.setWidth 32 - 0xc2#32 > 0xf4#32 - 0xc2#32 then .illegal 0
      else resume (bittab.getD (b.toNat - 0xc2) 0) s 1
    else resume st (b :: s) 0

/-! ## Encoding -/

/-- `IS_CODEUNIT`. -/
def isCodeunit (wc : BitVec 32) : Bool := wc - 0xdf80#32 < 0x80#32

/-- The lowest byte of a word. -/
def lowByte (x : BitVec 32) : UInt8 := UInt8.ofBitVec (x.setWidth 8)

/-- `wcrtomb`: the bytes that are stored, or `none` for `-1` with `EILSEQ`. The shifts are of values that are
not negative. -/
def wcrtomb (utf8 : Bool) (wc : BitVec 32) : Option (List UInt8) :=
  if wc < 0x80#32 then some [lowByte wc]
  else if !utf8 then if isCodeunit wc then some [lowByte wc] else none
  else if wc < 0x800#32 then some [lowByte (0xc0#32 ||| wc >>> 6), lowByte (0x80#32 ||| wc &&& 0x3f#32)]
  else if wc < 0xd800#32 ∨ wc - 0xe000#32 < 0x2000#32 then
    some [lowByte (0xe0#32 ||| wc >>> 12), lowByte (0x80#32 ||| (wc >>> 6 &&& 0x3f#32)),
      lowByte (0x80#32 ||| wc &&& 0x3f#32)]
  else if wc - 0x10000#32 < 0x100000#32 then
    some [lowByte (0xf0#32 ||| wc >>> 18), lowByte (0x80#32 ||| (wc >>> 12 &&& 0x3f#32)),
      lowByte (0x80#32 ||| (wc >>> 6 &&& 0x3f#32)), lowByte (0x80#32 ||| wc &&& 0x3f#32)]
  else none

/-! ## A sequence of calls -/

/-- What a caller knows: the characters, the place where the character that is being read begins, the place of
the next byte, the state, and whether a call has failed. -/
structure Reader where
  chars : List ℕ
  start : ℕ
  pos : ℕ
  st : BitVec 32
  bad : Bool
  deriving DecidableEq

/-- The reader before the first call. -/
def Reader.init : Reader := ⟨[], 0, 0, 0, false⟩

/-- The calls for the bytes of one buffer: after a character the rest of the buffer is converted, a null
character being one byte, and the buffer is at its end when a call returns `-2`. A failure is one of the
character that is being read, and is at its beginning. -/
def feedLoop : ℕ → Reader → List UInt8 → Option Reader
  | 0, _, _ => none
  | fuel + 1, r, s =>
    match mbrtowc true r.st (some s) with
    | .char ret wc st =>
      let n := max ret 1
      feedLoop fuel ⟨r.chars ++ [wc], r.pos + n, r.pos + n, st, false⟩ (s.drop n)
    | .incomplete st => some { r with pos := r.pos + s.length, st := st }
    | .illegal st => some { r with pos := r.start, st := st, bad := true }

/-- The calls for the bytes of one buffer, unless a call has failed before. -/
def feed (r : Reader) (s : List UInt8) : Option Reader :=
  if r.bad then some r else feedLoop (s.length + 1) r s

/-- The calls for the bytes of several buffers, one after another. -/
def feedAll (r : Reader) : List (List UInt8) → Option Reader
  | [] => some r
  | s :: ss => (feed r s).bind fun r => feedAll r ss

end Leblibc.Multibyte
