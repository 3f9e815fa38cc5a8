import Leblibc.Base.Machine
import Leblibc.Stdio.Stream

/-!
# Streams in memory

A model of `src/stdio/open_memstream.c`. Under the stream is a buffer that grows; `ms_write` writes the bytes in the
buffer of the stream and then those of the caller, and `ms_seek` sets the position.

`*c->bufp` and `c->buf` are always the same pointer, and `buf` is the contents of the memory there: `space` bytes, or
one byte before the first write. The outcomes of the calls of `realloc` are part of the state, so that a statement
about every state is one about every outcome; no allocation is larger than `SSIZE_MAX` bytes.

## Main definitions

* `Cookie`: `struct cookie` and what its pointers point to
* `msPut`, `msWrite`, `msSeek`: the functions
* `memOpen`: `open_memstream`
-/

namespace Leblibc.Stdio

open Lib

/-- `struct cookie`, with `size` for `*sizep` and `buf` for the contents of the buffer. -/
structure Cookie where
  pos : ℕ
  len : ℕ
  space : ℕ
  size : ℕ
  buf : ℕ → UInt8
  /-- The outcomes of the calls of `realloc` to come; after the last one every call fails. -/
  allocs : List Bool

/-- `SSIZE_MAX`. -/
def SSIZE_MAX (a : Arch) : ℕ := a.sizeMax / 2

/-- The size of the buffer in `ms_write` for `len` more bytes. -/
def newSpace (a : Arch) (c : Cookie) (len : ℕ) : ℕ := a.wrap (2 * c.space + 1) ||| a.wrap (c.pos + len + 1)

/-- Whether `realloc` succeeds for `len` more bytes. -/
def Cookie.allocates (c : Cookie) (a : Arch) (len : ℕ) : Bool :=
  c.allocs.headD false && decide (newSpace a c len ≤ SSIZE_MAX a)

/-- The buffer after `realloc`, with zeros behind the `space` bytes. -/
def Cookie.grow (c : Cookie) (a : Arch) (len : ℕ) : Cookie :=
  { c with buf := fun i => if c.space ≤ i ∧ i < newSpace a c len then 0 else c.buf i
           space := newSpace a c len
           allocs := c.allocs.tail }

/-- The end of `ms_write`: the bytes are copied, and the position is set. -/
def Cookie.copy (c : Cookie) (a : Arch) (s : List UInt8) : Cookie :=
  let pos := a.wrap (c.pos + s.length)
  { c with buf := store c.buf c.pos s
           pos := pos
           len := if pos ≥ c.len then pos else c.len
           size := pos }

/-- Whether `ms_write` has to allocate for `len` more bytes. -/
def Cookie.full (c : Cookie) (a : Arch) (len : ℕ) : Prop := a.wrap (len + c.pos) ≥ c.space

instance Cookie.decidableFull (c : Cookie) (a : Arch) (len : ℕ) : Decidable (c.full a len) :=
  inferInstanceAs (Decidable (_ ≥ _))

/-- `ms_write` when nothing is in the buffer of the stream. -/
def msPut (a : Arch) (s : List UInt8) (c : Cookie) : ℕ × Cookie :=
  if c.full a s.length then
    if c.allocates a s.length then (s.length, (c.grow a s.length).copy a s)
    else (0, { c with allocs := c.allocs.tail })
  else (s.length, c.copy a s)

/-- `ms_write`. In the call for the bytes in the buffer of the stream, that buffer is empty. -/
def msWrite (a : Arch) (f : FILE) (s : List UInt8) (c : Cookie) : ℕ × FILE × Cookie :=
  let w := load f.mem f.wbase (f.wpos - f.wbase)
  if w.length ≠ 0 then
    let f := { f with wpos := f.wbase }
    let r := msPut a w c
    if r.1 < w.length then (0, f, r.2)
    else
      let r := msPut a s r.2
      (r.1, f, r.2)
  else
    let r := msPut a s c
    (r.1, f, r.2)

/-- `ms_seek`. -/
def msSeek (a : Arch) (off : ℤ) (whence : ℕ) (c : Cookie) : ℤ × Cookie :=
  if whence > 2 then (-1, c)
  else
    let base : ℤ := [0, c.pos, c.len].getD whence 0
    if off < -base ∨ off > SSIZE_MAX a - base then (-1, c)
    else (base + off, { c with pos := (base + off).toNat })

/-- `BUFSIZ`. -/
def BUFSIZ : ℕ := 1024

/-- `open_memstream`, where the allocations have succeeded: the stream, with its own buffer at the address `buf`. -/
def memOpen (buf : ℕ) (mem : ℕ → UInt8) : FILE := FILE.opened true false buf BUFSIZ EOF mem

/-- The cookie of a new stream: the buffer is one byte, which is zero. -/
def Cookie.new (buf : ℕ → UInt8) : Cookie := ⟨0, 0, 0, 0, Function.update buf 0 0, []⟩

/-- `fwrite` of the bytes `s`, and the other functions below. -/
def memFwritex (a : Arch) : List UInt8 → FILE → Cookie → ℕ × FILE × Cookie := fwritexBy (msWrite a)

def memPutc (a : Arch) : ℤ → FILE → Cookie → ℤ × FILE × Cookie := putcBy (msWrite a)

def memFflush (a : Arch) : FILE → Cookie → ℤ × FILE × Cookie := fflushBy (msWrite a) (msSeek a)

def memFseeko (a : Arch) : ℤ → ℕ → FILE → Cookie → ℤ × FILE × Cookie := fseekoBy (msWrite a) (msSeek a)

/-- `fclose`; `ms_close` returns 0. -/
def memFclose (a : Arch) : FILE → Cookie → ℤ × FILE × Cookie := fcloseBy (msWrite a) (msSeek a) 0

end Leblibc.Stdio
