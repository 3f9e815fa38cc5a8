import Leblibc.Stdio.PrintfOutput
import Leblibc.Stdio.Stream

/-!
# `vfprintf` and `vsnprintf`

A model of `vfprintf` in `src/stdio/vfprintf.c` on any stream, and of `src/stdio/vsnprintf.c`. `printf_core` hands
its output to the stream in pieces, and a stream without a buffer gets one for the time of the call.

The stream of `vsnprintf` writes into the memory of the caller. The three arrays on the stack (`internal_buf`, `buf` and
`dummy`) are somewhere else; their addresses are arbitrary, and so is the size of `internal_buf`.

## Main definitions

* `outs`: the pieces that `printf_core` hands to `out`, one after the other
* `vfprintfOn`: `vfprintf`, given what `printf_core` does
* `snWrite`, `vsnprintfOn`: `sn_write`, and `vsnprintf`, given what `printf_core` does
* `vsnprintf`: `vsnprintf`
-/

namespace Leblibc.Stdio

open Lib Printf.Core

variable {σ : Type}

/-- `out`. -/
def out (write : FILE → List UInt8 → σ → ℕ × FILE × σ) (s : List UInt8) (f : FILE) (d : σ) : FILE × σ :=
  if f.err then (f, d) else (fwritexBy write s f d).2

/-- What `printf_core` hands to `out`, one piece after the other. -/
def outs (write : FILE → List UInt8 → σ → ℕ × FILE × σ) : List (List UInt8) → FILE → σ → FILE × σ
  | [], f, d => (f, d)
  | s :: ps, f, d => outs write ps (out write s f d).1 (out write s f d).2

/-- The stream without its error, and with the buffer `internal_buf` of `size` bytes if it has none. -/
def FILE.lend (f : FILE) (internal size : ℕ) : FILE :=
  if f.bufSize = 0 then { f with err := false, buf := internal, bufSize := size, wpos := 0, wbase := 0, wend := 0 }
  else { f with err := false }

/-- The last lines of `vfprintf`: a buffer that was lent is flushed and taken away again. -/
def vfprintfEnd (write : FILE → List UInt8 → σ → ℕ × FILE × σ) (saved : ℕ) (olderr : Bool) (ret : ℤ) (f : FILE) (d : σ) :
    ℤ × FILE × σ :=
  if saved ≠ 0 then
    let r := (write f [] d).2
    let ret := if r.1.wpos = 0 then -1 else ret
    let f := { r.1 with buf := saved, bufSize := 0, wpos := 0, wbase := 0, wend := 0 }
    (if f.err then -1 else ret, { f with err := f.err || olderr }, r.2)
  else (if f.err then -1 else ret, { f with err := f.err || olderr }, d)

/-- The part of `vfprintf` behind the first call of `printf_core`, where the second call has the outcome `o` and hands
the pieces `ps` to `out`. The array `internal_buf` has `size` bytes and the address `internal`. -/
def vfprintfOn (write : FILE → List UInt8 → σ → ℕ × FILE × σ) (internal size : ℕ) (o : Outcome)
    (ps : List (List UInt8)) (f : FILE) (d : σ) : ℤ × FILE × σ :=
  let saved := if f.bufSize = 0 then f.buf else 0
  let r := ready (f.lend internal size)
  if r.1 then vfprintfEnd write saved f.err (-1) r.2 d
  else
    let q := outs write ps r.2 d
    vfprintfEnd write saved f.err (o.value false) q.1 q.2

/-- The `struct cookie` of `vsnprintf`, and the memory that its pointer points into. -/
structure SnCookie where
  s : ℕ
  n : ℕ
  mem : ℕ → UInt8

/-- `if (k) { memcpy(c->s, s, k); c->s += k; c->n -= k; }`. -/
def SnCookie.copy (c : SnCookie) (s : List UInt8) : SnCookie :=
  let k := min c.n s.length
  if k ≠ 0 then ⟨c.s + k, c.n - k, store c.mem c.s (s.take k)⟩ else c

/-- `sn_write`. -/
def snWrite (f : FILE) (s : List UInt8) (c : SnCookie) : ℕ × FILE × SnCookie :=
  let c := c.copy (load f.mem f.wbase (f.wpos - f.wbase))
  let c := c.copy s
  (s.length, { f with wpos := f.buf, wbase := f.buf }, { c with mem := store c.mem c.s [0] })

/-- The arrays `buf` and `dummy` of `vsnprintf` and `internal_buf` of `vfprintf`, with the size of the last one. -/
structure Locals where
  buf : ℕ
  dummy : ℕ
  internal : ℕ
  size : ℕ
  buf_pos : 0 < buf
  internal_pos : 0 < internal

/-- The stream of `vsnprintf`; `bytes` is what the arrays on the stack happen to hold. -/
def snFile (loc : Locals) (bytes : ℕ → UInt8) : FILE := FILE.opened false false loc.buf 0 EOF bytes

/-- The cookie of `vsnprintf`, after `*c.s = 0`. -/
def snCookie (loc : Locals) (s n : ℕ) (mem : ℕ → UInt8) : SnCookie :=
  let p := if n ≠ 0 then s else loc.dummy
  ⟨p, if n ≠ 0 then n - 1 else 0, store mem p [0]⟩

/-- `vsnprintf`, where the second call of `printf_core` has the outcome `o` and hands the pieces `ps` to `out`: the
value returned, and the memory of the caller. -/
def vsnprintfOn (loc : Locals) (bytes : ℕ → UInt8) (s n : ℕ) (mem : ℕ → UInt8) (o : Outcome) (ps : List (List UInt8)) :
    ℤ × (ℕ → UInt8) :=
  let r := vfprintfOn snWrite loc.internal loc.size o ps (snFile loc bytes) (snCookie loc s n mem)
  (r.1, r.2.2.mem)

/-- `vsnprintf`: the value returned, and the memory of the caller. -/
def vsnprintf (env : Env) (loc : Locals) (bytes : ℕ → UInt8) (s n : ℕ) (mem : ℕ → UInt8) (fmt : List UInt8)
    (args : List (Arg env.L)) : Except Fault (ℤ × (ℕ → UInt8)) := do
  let first ← firstPass env fmt args
  match first with
  | .error _ => .ok (-1, (snCookie loc s n mem).mem)
  | .ok inp => do
    let second ← loop env true (fmt.length + 1) (State.start inp)
    .ok (vsnprintfOn loc bytes s n mem second.1 second.2.out)

end Leblibc.Stdio
