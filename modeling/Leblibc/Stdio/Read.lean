import Leblibc.Base.Machine
import Leblibc.Stdio.Write

/-!
# Reading through a stream buffer

`__stdio_read` asks the descriptor for all but the last byte of a request directly and lets the rest,
and as much more as comes, go to the stream buffer; the last byte is then handed out from there.
`fread` empties the buffer first and then loops over such reads; `ungetc` steps back in the buffer, up
to `UNGET` bytes before its beginning.

## Main definitions

* `Descriptor.read`: one `read` or `readv`
* `toread`, `stdioRead`, `uflow`, `getc`, `fread`, `ungetc`: the functions of the source
-/

namespace Leblibc.Stdio

open Lib

/-- The bytes at the front of what a descriptor will deliver. -/
def leading : List InItem → List UInt8
  | .byte b :: items => b :: leading items
  | _ => []

/-- How many of the `most` bytes it could deliver a read delivers. -/
def portion : List ℕ → ℕ → ℕ
  | [], most => most
  | s :: _, most => min most (max 1 s)

/-- One `read` or `readv` with room for `room` bytes: the bytes delivered, in order, and the result.
It delivers at least one byte if there is one, and no more than fit or than it is willing to. -/
def Descriptor.read (d : Descriptor) (room : ℕ) : List UInt8 × ℤ × Descriptor :=
  match d.input with
  | [] => ([], 0, { d with reads := d.reads ++ [0] })
  | .eof :: items => ([], 0, { d with input := items, reads := d.reads ++ [0] })
  | .fail :: items => ([], -1, { d with input := items, reads := d.reads ++ [-1] })
  | .byte b :: items =>
    let n := portion d.shorts (min room (leading (.byte b :: items)).length)
    ((leading (.byte b :: items)).take n, n,
      { d with
        input := (InItem.byte b :: items).drop n
        shorts := d.shorts.tail
        reads := d.reads ++ [(n : ℤ)] })

/-- `__toread`: whether it fails or the end of the file was seen, and the state it leaves. -/
def toread (f : FILE) (d : Descriptor) : Bool × FILE × Descriptor :=
  let r : FILE × Descriptor := if f.wpos ≠ f.wbase then (stdioWrite f [] d).2 else (f, d)
  let f : FILE := { r.1 with wpos := 0, wbase := 0, wend := 0 }
  if f.noRd then (true, { f with err := true }, r.2)
  else (f.eof, { f with rpos := f.buf + f.bufSize, rend := f.buf + f.bufSize }, r.2)

/-- `__stdio_read` of `len` bytes: its result, the bytes it stores for the caller, and the state it
leaves. -/
def stdioRead (f : FILE) (len : ℕ) (d : Descriptor) : ℕ × List UInt8 × FILE × Descriptor :=
  -- the vector for the caller is one byte short when there is a buffer
  let direct := len - (if f.bufSize ≠ 0 then 1 else 0)
  let (bytes, cnt, d) := d.read (if direct ≠ 0 then direct + f.bufSize else f.bufSize)
  if cnt ≤ 0 then
    (0, [], if cnt ≠ 0 then { f with err := true } else { f with eof := true }, d)
  else if cnt.toNat ≤ direct then (cnt.toNat, bytes, f, d)
  else
    let f : FILE :=
      { f with
        mem := store f.mem f.buf (bytes.drop direct)
        rpos := f.buf
        rend := f.buf + (cnt.toNat - direct) }
    if f.bufSize ≠ 0 then
      (len, bytes.take direct ++ [f.mem f.rpos], { f with rpos := f.rpos + 1 }, d)
    else (len, bytes.take direct, f, d)

/-- `__uflow`. -/
def uflow (f : FILE) (d : Descriptor) : ℤ × FILE × Descriptor :=
  let (failed, f, d) := toread f d
  if failed then (EOF, f, d)
  else
    let (n, bytes, f, d) := stdioRead f 1 d
    (if n = 1 then ((bytes.headD 0).toNat : ℤ) else EOF, f, d)

/-- `getc`, that is `getc_unlocked` under the stream's lock. -/
def getc (f : FILE) (d : Descriptor) : ℤ × FILE × Descriptor :=
  if f.rpos ≠ f.rend then ((f.mem f.rpos).toNat, { f with rpos := f.rpos + 1 }, d) else uflow f d

/-- The loop of `fread` that reads `l` more bytes: the number of bytes still missing when it ends, and
the bytes stored. -/
def freadLoop (f : FILE) (d : Descriptor) (l : ℕ) : ℕ × List UInt8 × FILE × Descriptor :=
  if _hl : l = 0 then (0, [], f, d)
  else
    let (failed, f, d) := toread f d
    if failed then (l, [], f, d)
    else
      let r := stdioRead f l d
      if _hr : r.1 = 0 then (l, [], r.2.2.1, r.2.2.2)
      else
        let s := freadLoop r.2.2.1 r.2.2.2 (l - r.1)
        (s.1, r.2.1 ++ s.2.1, s.2.2)
  termination_by l
  decreasing_by exact Nat.sub_lt (Nat.pos_of_ne_zero _hl) (Nat.pos_of_ne_zero _hr)

/-- `fread`: the number of members read, the bytes stored at `destv`, and the state left. -/
def fread (a : Arch) (size nmemb : ℕ) (f : FILE) (d : Descriptor) :
    ℕ × List UInt8 × FILE × Descriptor :=
  let len := a.wrap (size * nmemb)
  let nmemb := if size = 0 then 0 else nmemb
  let k := if f.rpos ≠ f.rend then min (f.rend - f.rpos) len else 0
  let first := load f.mem f.rpos k
  let (l, bytes, f, d) := freadLoop { f with rpos := f.rpos + k } d (len - k)
  (if l ≠ 0 then (len - l) / size else nmemb, first ++ bytes, f, d)

/-- `ungetc`. -/
def ungetc (c : ℤ) (f : FILE) (d : Descriptor) : ℤ × FILE × Descriptor :=
  if c = EOF then (c, f, d)
  else
    let (f, d) := if f.rpos = 0 then (toread f d).2 else (f, d)
    if f.rpos = 0 ∨ f.rpos ≤ f.buf - UNGET then (EOF, f, d)
    else
      ((uchar c).toNat,
        { f with mem := store f.mem (f.rpos - 1) [uchar c], rpos := f.rpos - 1, eof := false }, d)

end Leblibc.Stdio
