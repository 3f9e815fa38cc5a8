import Leblibc.Stdio.Write

/-!
# Output with the operations of a stream

A stream has functions of its own for writing and seeking, and the output functions call these. Here they are
parameters: `write` is what `f->write` does, `seek` what `f->seek` does, on what lies under the stream. The functions
for a stream on a descriptor are instances.

## Main results

* `fwritex_eq`, `putc_eq`, `fflush_eq`: the functions for a stream on a descriptor are instances
-/

namespace Leblibc.Stdio

variable {σ : Type}

/-- `__fwritex`. -/
def fwritexBy (write : FILE → List UInt8 → σ → ℕ × FILE × σ) (s : List UInt8) (f : FILE) (d : σ) : ℕ × FILE × σ :=
  let (failed, f) := ready f
  if failed then (0, f, d)
  else if s.length > f.wend - f.wpos then write f s d
  else
    let i := if f.lbf ≥ 0 then scanNewline s s.length else 0
    if i ≠ 0 then
      let (n, f, d) := write f (s.take i) d
      if n < i then (n, f, d) else ((s.drop i).length + i, f.append (s.drop i), d)
    else (s.length + i, f.append s, d)

/-- `__overflow`. -/
def overflowBy (write : FILE → List UInt8 → σ → ℕ × FILE × σ) (f : FILE) (c : UInt8) (d : σ) : ℤ × FILE × σ :=
  let (failed, f) := ready f
  if failed then (EOF, f, d)
  else if f.wpos ≠ f.wend ∧ (c.toNat : ℤ) ≠ f.lbf then (c.toNat, f.append [c], d)
  else
    let (n, f, d) := write f [c] d
    (if n ≠ 1 then EOF else c.toNat, f, d)

/-- `putc`, that is `putc_unlocked` under the stream's lock. -/
def putcBy (write : FILE → List UInt8 → σ → ℕ × FILE × σ) (c : ℤ) (f : FILE) (d : σ) : ℤ × FILE × σ :=
  if ((uchar c).toNat : ℤ) ≠ f.lbf ∧ f.wpos ≠ f.wend then ((uchar c).toNat, f.append [uchar c], d)
  else overflowBy write f (uchar c) d

/-- `SEEK_CUR`. -/
def SEEK_CUR : ℕ := 1

/-- `fflush` of one stream. -/
def fflushBy (write : FILE → List UInt8 → σ → ℕ × FILE × σ) (seek : ℤ → ℕ → σ → ℤ × σ) (f : FILE) (d : σ) :
    ℤ × FILE × σ :=
  let r : FILE × σ := if f.wpos ≠ f.wbase then (write f [] d).2 else (f, d)
  if f.wpos ≠ f.wbase ∧ r.1.wpos = 0 then (EOF, r.1, r.2)
  else
    let d := if r.1.rpos ≠ r.1.rend then (seek ((r.1.rpos : ℤ) - r.1.rend) SEEK_CUR r.2).2 else r.2
    (0, { r.1 with wpos := 0, wbase := 0, wend := 0, rpos := 0, rend := 0 }, d)

/-- `__fseeko_unlocked`. -/
def fseekoBy (write : FILE → List UInt8 → σ → ℕ × FILE × σ) (seek : ℤ → ℕ → σ → ℤ × σ) (off : ℤ) (whence : ℕ)
    (f : FILE) (d : σ) : ℤ × FILE × σ :=
  if whence > 2 then (-1, f, d)
  else
    let off := if whence = SEEK_CUR ∧ f.rend ≠ 0 then off - ((f.rend : ℤ) - f.rpos) else off
    let r : FILE × σ := if f.wpos ≠ f.wbase then (write f [] d).2 else (f, d)
    if f.wpos ≠ f.wbase ∧ r.1.wpos = 0 then (-1, r.1, r.2)
    else
      let f := { r.1 with wpos := 0, wbase := 0, wend := 0 }
      let p := seek off whence r.2
      if p.1 < 0 then (-1, f, p.2) else (0, { f with rpos := 0, rend := 0, eof := false }, p.2)

/-- The result of `fclose`, with the result `r` of `f->close`: 0 if both that and `fflush` give 0. -/
def fcloseBy (write : FILE → List UInt8 → σ → ℕ × FILE × σ) (seek : ℤ → ℕ → σ → ℤ × σ) (r : ℤ) (f : FILE) (d : σ) :
    ℤ × FILE × σ :=
  let (n, f, d) := fflushBy write seek f d
  (if n = 0 ∧ r = 0 then 0 else EOF, f, d)

/-! ## Streams on descriptors -/

theorem fwritex_eq (s : List UInt8) (f : FILE) (d : Descriptor) : fwritex s f d = fwritexBy stdioWrite s f d := rfl

theorem putc_eq (c : ℤ) (f : FILE) (d : Descriptor) : putc c f d = putcBy stdioWrite c f d := rfl

theorem fflush_eq (f : FILE) (d : Descriptor) :
    fflush f d = fflushBy stdioWrite (fun off _ d => (0, d.seek off)) f d := rfl

end Leblibc.Stdio
