import Leblibc.Lib.Memory

/-!
# Streams and descriptors (`src/internal/stdio_impl.h`)

A stream is the part of `struct _IO_FILE` that reading and writing look at. Its pointers are
addresses in the memory of the stream buffer, with `0` for the null pointer; the `UNGET` bytes before
`buf` belong to the buffer too.

The descriptor under a stream is the environment: what its system calls will answer is part of its
state, so that a statement about every descriptor is a statement about every outcome of the calls.

## Main definitions

* `FILE`, `FILE.opened`: a stream, and a stream as `__fdopen` leaves it
* `Descriptor`: the bytes a descriptor has received, what it will deliver, and the outcomes of its
  system calls
-/

namespace Leblibc.Stdio

open Lib

/-- `UNGET`. -/
def UNGET : ℕ := 8

/-- The return value `EOF`. -/
def EOF : ℤ := -1

/-- `struct _IO_FILE`: the flags `F_NORD`, `F_NOWR`, `F_EOF` and `F_ERR`, the read and write pointers,
the buffer and its memory, and the line-buffering character. -/
structure FILE where
  noRd : Bool
  noWr : Bool
  eof : Bool
  err : Bool
  rpos : ℕ
  rend : ℕ
  wend : ℕ
  wpos : ℕ
  wbase : ℕ
  buf : ℕ
  bufSize : ℕ
  lbf : ℤ
  mem : ℕ → UInt8

/-- A stream that has just been opened, with all its pointers null. -/
def FILE.opened (noRd noWr : Bool) (buf bufSize : ℕ) (lbf : ℤ) (mem : ℕ → UInt8) : FILE :=
  { noRd, noWr, eof := false, err := false, rpos := 0, rend := 0, wend := 0, wpos := 0, wbase := 0,
    buf, bufSize, lbf, mem }

/-- The outcome of one `writev`: an error, or a count; the kernel never takes more than it is
offered. -/
inductive WriteOutcome where
  | fail
  | count (n : ℕ)
  deriving DecidableEq

/-- What a descriptor delivers to its reads, in order: a byte, or a read that returns 0, or a read
that fails. -/
inductive InItem where
  | byte (b : UInt8)
  | eof
  | fail
  deriving DecidableEq

/-- The descriptor under a stream. -/
structure Descriptor where
  /-- The bytes received from `writev`. -/
  received : List UInt8
  /-- The outcomes of the `writev` calls to come; after the last one every call fails. -/
  writes : List WriteOutcome
  /-- What the reads to come deliver; after the last item every read returns 0. -/
  input : List InItem
  /-- How many bytes the reads to come are willing to deliver; after the last entry, as many as they
  can. -/
  shorts : List ℕ
  /-- The results of the reads made so far. -/
  reads : List ℤ
  /-- The offsets of the `lseek` calls made so far. -/
  seeks : List ℤ

/-- `lseek` by an offset from the current position. -/
def Descriptor.seek (d : Descriptor) (off : ℤ) : Descriptor := { d with seeks := d.seeks ++ [off] }

@[simp] theorem Descriptor.seek_received (d : Descriptor) (off : ℤ) :
    (d.seek off).received = d.received := rfl

/-- The value of an `int` converted to `unsigned char`. -/
def uchar (c : ℤ) : UInt8 := UInt8.ofNat (c % 256).toNat

end Leblibc.Stdio
