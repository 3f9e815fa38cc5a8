import Leblibc.Stdio.File

/-!
# Writing through a stream buffer

`__stdio_write` hands the buffered bytes and the caller's bytes to `writev` as two vectors and
follows partial counts through both; on an error it drops the buffer and reports how many of the
caller's bytes went out. `__fwritex`, `__overflow`, `putc` and `fflush` are built on it.

## Main results

* `writeLoop_single`, `writeLoop_double`: the loop, from one and from two vectors
* `stdioWrite_spec`: what a write of the buffer and more bytes does
-/

namespace Leblibc.Stdio

open Lib List

/-! ## The functions of the source -/

/-- The stream after a write that went through. -/
def FILE.drained (f : FILE) : FILE :=
  { f with wend := f.buf + f.bufSize, wpos := f.buf, wbase := f.buf }

/-- The stream after a write that failed: the buffer is dropped. -/
def FILE.dropped (f : FILE) : FILE := { f with wend := 0, wpos := 0, wbase := 0, err := true }

/-- The loop of `__stdio_write`. The vectors are given by their contents, `iovcnt` by their number. -/
def writeLoop (f : FILE) (len : ℕ) (d : Descriptor) :
    List WriteOutcome → List (List UInt8) → ℕ → List UInt8 → ℕ × FILE × Descriptor
  | [], iov, _, received =>
    (if iov.length = 2 then 0 else len - (iov.headD []).length, f.dropped,
      { d with received, writes := [] })
  | .fail :: ws, iov, _, received =>
    (if iov.length = 2 then 0 else len - (iov.headD []).length, f.dropped,
      { d with received, writes := ws })
  | .count n :: ws, iov, rem, received =>
    let cnt := min n iov.flatten.length
    let received := received ++ iov.flatten.take cnt
    if cnt = rem then (len, f.drained, { d with received, writes := ws })
    else
      let first := (iov.headD []).length
      -- a count that ends inside the second vector moves on to it
      let next := if cnt > first then (iov.tail, cnt - first) else (iov, cnt)
      writeLoop f len d ws ((next.1.headD []).drop next.2 :: next.1.tail) (rem - cnt) received

/-- `__stdio_write`. -/
def stdioWrite (f : FILE) (s : List UInt8) (d : Descriptor) : ℕ × FILE × Descriptor :=
  let first := load f.mem f.wbase (f.wpos - f.wbase)
  -- an empty first vector is left out
  let iov := if first.length = 0 then [s] else [first, s]
  writeLoop f s.length d d.writes iov (first.length + s.length) d.received

/-- `__towrite`: whether it fails, and the stream it leaves. -/
def towrite (f : FILE) : Bool × FILE :=
  if f.noWr then (true, { f with err := true })
  else
    (false, { f with rpos := 0, rend := 0, wpos := f.buf, wbase := f.buf, wend := f.buf + f.bufSize })

/-- The test `!f->wend && __towrite(f)` that begins every output function. -/
def ready (f : FILE) : Bool × FILE := if f.wend = 0 then towrite f else (false, f)

/-- The loop `for (i = l; i && s[i-1] != '\n'; i--)`. -/
def scanNewline (s : List UInt8) : ℕ → ℕ
  | 0 => 0
  | i + 1 => if s.getD i 0 ≠ 10 then scanNewline s i else i + 1

/-- `memcpy(f->wpos, s, l); f->wpos += l`. -/
def FILE.append (f : FILE) (s : List UInt8) : FILE :=
  { f with mem := store f.mem f.wpos s, wpos := f.wpos + s.length }

/-- `__fwritex`. -/
def fwritex (s : List UInt8) (f : FILE) (d : Descriptor) : ℕ × FILE × Descriptor :=
  let (failed, f) := ready f
  if failed then (0, f, d)
  else if s.length > f.wend - f.wpos then stdioWrite f s d
  else
    let i := if f.lbf ≥ 0 then scanNewline s s.length else 0
    if i ≠ 0 then
      let (n, f, d) := stdioWrite f (s.take i) d
      if n < i then (n, f, d) else ((s.drop i).length + i, f.append (s.drop i), d)
    else (s.length + i, f.append s, d)

/-- `fwrite` on the `size * nmemb` bytes of `src`: the number of members written, and what
`__fwritex` returned. -/
def fwrite (src : List UInt8) (size nmemb : ℕ) (f : FILE) (d : Descriptor) :
    ℕ × ℕ × FILE × Descriptor :=
  let nmemb := if size = 0 then 0 else nmemb
  let (k, f, d) := fwritex src f d
  (if k = src.length then nmemb else k / size, k, f, d)

/-- `__overflow`. -/
def overflow (f : FILE) (c : UInt8) (d : Descriptor) : ℤ × FILE × Descriptor :=
  let (failed, f) := ready f
  if failed then (EOF, f, d)
  else if f.wpos ≠ f.wend ∧ (c.toNat : ℤ) ≠ f.lbf then (c.toNat, f.append [c], d)
  else
    let (n, f, d) := stdioWrite f [c] d
    (if n ≠ 1 then EOF else c.toNat, f, d)

/-- `putc`, that is `putc_unlocked` under the stream's lock. -/
def putc (c : ℤ) (f : FILE) (d : Descriptor) : ℤ × FILE × Descriptor :=
  if ((uchar c).toNat : ℤ) ≠ f.lbf ∧ f.wpos ≠ f.wend then ((uchar c).toNat, f.append [uchar c], d)
  else overflow f (uchar c) d

/-- `fflush` of one stream. -/
def fflush (f : FILE) (d : Descriptor) : ℤ × FILE × Descriptor :=
  let r : FILE × Descriptor := if f.wpos ≠ f.wbase then (stdioWrite f [] d).2 else (f, d)
  if f.wpos ≠ f.wbase ∧ r.1.wpos = 0 then (EOF, r.1, r.2)
  else
    let d := if r.1.rpos ≠ r.1.rend then r.2.seek ((r.1.rpos : ℤ) - r.1.rend) else r.2
    (0, { r.1 with wpos := 0, wbase := 0, wend := 0, rpos := 0, rend := 0 }, d)

/-! ## The write loop -/

/-- The end of a write of `b` and then `s`, the last `s.length` of `len` bytes of the caller: all is
received, or the write failed after `j` bytes and reports how many of the caller's are among them. -/
inductive WriteEnd (f : FILE) (len : ℕ) (b s received : List UInt8) :
    ℕ × FILE × Descriptor → Prop where
  | done {d : Descriptor} (hd : d.received = received ++ b ++ s) :
      WriteEnd f len b s received (len, f.drained, d)
  | failed {d : Descriptor} {n : ℕ} (j : ℕ) (hj : j < b.length + s.length)
      (hd : d.received = received ++ (b ++ s).take j) (hn : n = (len - s.length) + (j - b.length)) :
      WriteEnd f len b s received (n, f.dropped, d)

theorem writeLoop_single (f : FILE) (len : ℕ) (d : Descriptor) (ws : List WriteOutcome) :
    ∀ s received : List UInt8, s.length ≤ len → 0 < s.length →
      WriteEnd f len [] s received (writeLoop f len d ws [s] s.length received) := by
  induction ws with
  | nil =>
    intro s received _ hpos
    exact .failed 0 (by simpa using hpos) (by simp) (by simp)
  | cons o ws ih =>
    intro s received hle hpos
    cases o with
    | fail => exact .failed 0 (by simpa using hpos) (by simp) (by simp)
    | count n =>
      simp only [writeLoop, flatten_singleton, headD_cons]
      by_cases hall : min n s.length = s.length
      · rw [if_pos hall, hall]
        exact .done (by simp)
      · -- the vector keeps what was not taken
        rw [if_neg hall, if_neg (by omega)]
        simp only [headD_cons, tail_cons]
        have hlen : (s.drop (min n s.length)).length = s.length - min n s.length := length_drop
        have hih := ih (s.drop (min n s.length)) (received ++ s.take (min n s.length)) (by omega) (by omega)
        rw [hlen] at hih
        generalize writeLoop f len d ws [s.drop (min n s.length)] (s.length - min n s.length)
          (received ++ s.take (min n s.length)) = r at hih ⊢
        cases hih with
        | done hd => exact .done (by simp [hd])
        | failed j hj hd hn =>
          refine .failed (min n s.length + j) (by simp at hj ⊢; omega) ?_ (by simp [hlen] at hn ⊢; omega)
          rw [hd, append_assoc, nil_append, nil_append, take_add]

/-- With a part of the buffer still to go out before the caller's vector. -/
theorem writeLoop_double (f : FILE) (s : List UInt8) (d : Descriptor) (ws : List WriteOutcome) :
    ∀ b received : List UInt8, 0 < b.length + s.length →
      WriteEnd f s.length b s received
        (writeLoop f s.length d ws [b, s] (b.length + s.length) received) := by
  induction ws with
  | nil =>
    intro b received hpos
    exact .failed 0 hpos (by simp) (by simp)
  | cons o ws ih =>
    intro b received hpos
    cases o with
    | fail => exact .failed 0 hpos (by simp) (by simp)
    | count n =>
      have hflat : [b, s].flatten = b ++ s := by simp
      have hlen : (b ++ s).length = b.length + s.length := length_append
      simp only [writeLoop, hflat, hlen, headD_cons]
      generalize hcnt : min n (b.length + s.length) = cnt
      by_cases hall : cnt = b.length + s.length
      · rw [if_pos hall, take_of_length_le (by omega)]
        exact .done (by simp)
      · rw [if_neg hall]
        split_ifs with hover
        · -- the count ends inside the caller's vector
          simp only [headD_cons, tail_cons]
          have hdrop : (s.drop (cnt - b.length)).length = b.length + s.length - cnt := by
            rw [length_drop]
            omega
          have hsingle := writeLoop_single f s.length d ws (s.drop (cnt - b.length))
            (received ++ (b ++ s).take cnt) (by omega) (by omega)
          rw [hdrop] at hsingle
          have htake : (b ++ s).take cnt = b ++ s.take (cnt - b.length) := by
            rw [take_append, take_of_length_le (by omega)]
          generalize writeLoop f s.length d ws [s.drop (cnt - b.length)] (b.length + s.length - cnt)
            (received ++ (b ++ s).take cnt) = r at hsingle ⊢
          cases hsingle with
          | done hd => exact .done (by simp [hd, htake])
          | failed j hj hd hn =>
            refine .failed (cnt + j) (by simp [hdrop] at hj; omega) ?_
              (by simp [hdrop] at hn; omega)
            have hsplit : (b ++ s).drop cnt = s.drop (cnt - b.length) := by
              rw [drop_append, drop_eq_nil_of_le (by omega), nil_append]
            rw [hd, append_assoc, take_add, hsplit]
            rfl
        · simp only [headD_cons, tail_cons]
          have hdrop : (b.drop cnt).length + s.length = b.length + s.length - cnt := by
            rw [length_drop]
            omega
          have hih := ih (b.drop cnt) (received ++ (b ++ s).take cnt) (by omega)
          rw [hdrop] at hih
          have htake : (b ++ s).take cnt = b.take cnt := take_append_of_le_length (by omega)
          generalize writeLoop f s.length d ws [b.drop cnt, s] (b.length + s.length - cnt)
            (received ++ (b ++ s).take cnt) = r at hih ⊢
          cases hih with
          | done hd => exact .done (by rw [hd, htake, append_assoc received, take_append_drop])
          | failed j hj hd hn =>
            refine .failed (cnt + j) (by omega) ?_ (by simp only [length_drop] at hn; omega)
            have hsplit : (b ++ s).drop cnt = b.drop cnt ++ s := drop_append_of_le_length (by omega)
            rw [hd, append_assoc, take_add, hsplit]

/-- **What a write does**: with `w` in the buffer, the descriptor receives `w` and `s`, or only the
first `j` bytes of them, and then the result is the number of bytes of `s` among these. -/
theorem stdioWrite_spec (f : FILE) (s : List UInt8) (d : Descriptor)
    (hpos : 0 < (load f.mem f.wbase (f.wpos - f.wbase)).length + s.length) :
    WriteEnd f s.length (load f.mem f.wbase (f.wpos - f.wbase)) s d.received (stdioWrite f s d) := by
  unfold stdioWrite
  generalize load f.mem f.wbase (f.wpos - f.wbase) = w at hpos ⊢
  simp only
  by_cases hw : w.length = 0
  · obtain rfl := List.length_eq_zero_iff.mp hw
    simpa using writeLoop_single f s.length d d.writes s d.received le_rfl (by simpa using hpos)
  · rw [if_neg hw]
    exact writeLoop_double f s d d.writes w d.received hpos

end Leblibc.Stdio
