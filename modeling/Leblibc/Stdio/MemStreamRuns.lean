import Leblibc.Stdio.MemStreamCorrect

/-!
# Streams in memory: runs

A run is a sequence of calls, each with the outcomes of its allocations. The world has the array that the calls have
made: a call that reports no error does to it what it should do, and after an error it is what the stream has. In
every run where the calls that flush have memory for the bytes in the buffer, the stream is this array, and what is
flushed is in memory; and a flush without memory loses bytes without an error.

## Main results

* `MemWorld.Is.step`: a call keeps the stream the array
* `MemWorld.flush_holds_iff`: when a flush is right
-/

namespace Leblibc.Stdio

open Lib

variable {a : Arch} {f : FILE} {b s : List UInt8} {c : Cookie} {B : Arr}

/-- A call on the stream: `fwrite`, `putc`, `fseek` or `fflush`. -/
inductive MemOp where
  | write (s : List UInt8)
  | putc (x : ℤ)
  | seek (off : ℤ) (whence : ℕ)
  | flush

/-- A call with the outcomes of the allocations in it. An object has at most `SSIZE_MAX` bytes. -/
structure MemCall (a : Arch) where
  op : MemOp
  allocs : List Bool
  fits : ∀ s, op = .write s → s.length ≤ SSIZE_MAX a

/-- The call, and whether it reports no error. -/
def MemOp.perform (a : Arch) (f : FILE) (c : Cookie) : MemOp → Bool × FILE × Cookie
  | .write s => ((memFwritex a s f c).1 == s.length, (memFwritex a s f c).2)
  | .putc x => ((memPutc a x f c).1 != EOF, (memPutc a x f c).2)
  | .seek off whence => ((memFseeko a off whence f c).1 == 0, (memFseeko a off whence f c).2)
  | .flush => ((memFflush a f c).1 == 0, (memFflush a f c).2)

/-- What a call that reports no error does to the array. -/
def MemOp.apply (a : Arch) (A : Arr) : MemOp → Arr
  | .write s => A.write s
  | .putc x => A.write [uchar x]
  | .seek off whence => (A.seek a off whence).getD A
  | .flush => A

/-- The arrays since the last flush, after a call without an error. -/
def MemOp.past (old : List Arr) : MemOp → List Arr
  | .flush => []
  | _ => old

/-- A stream in memory, with the array `cur` that its calls have made, and the arrays `past` that were before it since
the last flush. -/
structure MemWorld where
  f : FILE
  c : Cookie
  cur : Arr
  past : List Arr

namespace MemWorld

/-- `open_memstream`. -/
def opened (buf : ℕ) (mem space : ℕ → UInt8) : MemWorld := ⟨memOpen buf mem, .new space, .empty, []⟩

/-- The cookie in a call. -/
def cookie (w : MemWorld) (allocs : List Bool) : Cookie := { w.c with allocs := allocs }

/-- A call. After an error the array is what the stream has. -/
def step {a : Arch} (w : MemWorld) (call : MemCall a) : MemWorld :=
  let r := call.op.perform a w.f (w.cookie call.allocs)
  if r.1 then ⟨r.2.1, r.2.2, call.op.apply a w.cur, call.op.past (w.cur :: w.past)⟩
  else ⟨r.2.1, r.2.2, streamArray r.2.1 r.2.2, w.cur :: w.past⟩

/-- A run. -/
def run {a : Arch} (w : MemWorld) (calls : List (MemCall a)) : MemWorld := calls.foldl step w

/-- The number of bytes in the buffer. -/
def pending (w : MemWorld) : ℕ := w.f.wpos - w.f.wbase

/-- If bytes are in the buffer, then there is memory for them, or they can be allocated. -/
def Enough (a : Arch) (w : MemWorld) (allocs : List Bool) : Prop :=
  w.pending ≠ 0 → (w.cookie allocs).Fits a w.pending

/-- There is memory for the bytes in the buffer in a call that flushes them and does not find another error. -/
def Allocs {a : Arch} (w : MemWorld) (call : MemCall a) : Prop :=
  match call.op with
  | .write _ => True
  | .putc _ => True
  | .seek off whence => w.c.array.seek a off whence ≠ none → w.Enough a call.allocs
  | .flush => w.Enough a call.allocs

/-- Every call of a run has the memory. -/
def Good {a : Arch} : MemWorld → List (MemCall a) → Prop
  | _, [] => True
  | w, call :: calls => w.Allocs call ∧ (w.step call).Good calls

/-- The stream is the array: `b` is in the buffer, and `B`, which was the array at some time since the last flush, is
in memory. -/
structure Is (a : Arch) (w : MemWorld) (b : List UInt8) (B : Arr) : Prop where
  file : MemFile w.f b
  rep : w.c.Rep a B
  cur : w.cur = B.write b
  past : B ∈ w.cur :: w.past

variable {w : MemWorld}

theorem Is.pending (h : w.Is a b B) : w.pending = b.length := by
  rw [← h.file.load_eq, length_load]
  rfl

theorem Is.enough_iff (h : w.Is a b B) (allocs : List Bool) :
    w.Enough a allocs ↔ (b ≠ [] → (w.cookie allocs).Fits a b.length) := by
  rw [Enough, h.pending, Ne, List.length_eq_zero_iff]

theorem opened_is (a : Arch) {buf : ℕ} (hbuf : 0 < buf) (mem space : ℕ → UInt8) :
    (opened buf mem space).Is a [] Arr.empty := by
  refine ⟨.opened hbuf mem, ?_, rfl, List.mem_cons_self⟩
  refine ⟨rfl, rfl, rfl, fun i hi => ?_, fun _ _ => rfl, fun i _ hi => ?_, .inr ⟨rfl, rfl, ?_⟩, le_rfl, ?_, ?_⟩
  · exact absurd hi (Nat.not_lt_zero i)
  · exact absurd hi (Nat.not_lt_zero i)
  · exact Function.update_self 0 0 space
  · exact Nat.zero_le _
  · exact Nat.zero_le _

theorem Is.of_leaves {A : Arr} {past : List Arr} (h : Leaves a f c b B) (hcur : A = B.write b)
    (hpast : B ∈ A :: past) : Is a ⟨f, c, A, past⟩ b B := ⟨h.file, h.rep, hcur, hpast⟩

theorem Is.of_error {past : List Arr} (h : Leaves a f c b B) (hB : B.write b ∈ past) (hpast : B ∈ past) :
    Is a ⟨f, c, streamArray f c, past⟩ b B ∧ streamArray f c ∈ past := by
  rw [h.streamArray_eq]
  exact ⟨.of_leaves h rfl (List.mem_cons_of_mem _ hpast), hB⟩

theorem Is.write (h : w.Is a b B) {err : Prop} (hends : WriteEnds a B b s err f c) {ok : Bool}
    (hok : ok = true ↔ ¬err) :
    (ok = true → ∃ b' B', Is a ⟨f, c, w.cur.write s, w.cur :: w.past⟩ b' B') ∧
      (ok = false → ∃ b' B', Is a ⟨f, c, streamArray f c, w.cur :: w.past⟩ b' B' ∧
        streamArray f c ∈ w.cur :: w.past) := by
  have hcur : w.cur.write s = B.write (b ++ s) := by rw [h.cur, B.write_write]
  cases hends with
  | buffered hl hno =>
    refine ⟨fun _ => ⟨_, _, .of_leaves hl hcur (List.mem_cons_of_mem _ h.past)⟩, fun hf => ?_⟩
    exact absurd (hok.mpr hno) (by rw [hf]; exact Bool.false_ne_true)
  | written hl hno =>
    refine ⟨fun _ => ⟨_, _, .of_leaves hl hcur (hcur ▸ List.mem_cons_self)⟩, fun hf => ?_⟩
    exact absurd (hok.mpr hno) (by rw [hf]; exact Bool.false_ne_true)
  | failed hl hA herr =>
    refine ⟨fun ht => absurd herr (hok.mp ht), fun _ => ⟨[], _, Is.of_error hl ?_ ?_⟩⟩
    all_goals
      rcases hA with rfl | rfl
      · exact h.past
      · exact h.cur ▸ List.mem_cons_self

/-- The array in memory after the first part of `fflush` or `fseek`. -/
theorem Is.flushed (h : w.Is a b B) (allocs : List Bool) :
    (w.Enough a allocs → (written a w.f (w.cookie allocs)).2.Rep a w.cur) ∧
      (¬w.Enough a allocs → b ≠ [] ∧ (written a w.f (w.cookie allocs)).2.Rep a B) := by
  obtain ⟨-, -, hfit, hno⟩ := written_spec h.file (h.rep.allocs allocs)
  rw [h.enough_iff, h.cur]
  refine ⟨hfit, fun hlost => ?_⟩
  obtain ⟨hb, hlost⟩ := Classical.not_imp.mp hlost
  exact ⟨hb, hno hb hlost⟩

/-- What is lost shows in the size: the array in memory ends before the byte that was written last. -/
theorem Is.size_lt (h : w.Is a b B) {allocs : List Bool} (hlost : ¬w.Enough a allocs) : B.size < w.cur.size := by
  rw [h.enough_iff] at hlost
  obtain ⟨hb, hlost⟩ := Classical.not_imp.mp hlost
  obtain ⟨hfull, -⟩ := Classical.not_imp.mp hlost
  have hfull := ((h.rep.allocs allocs).full_iff (h.file.length_le a)).mp hfull
  have hlen := List.length_pos_iff.mpr hb
  have hroom := h.rep.room
  have hsize := h.rep.size_le
  have hpos := h.rep.pos
  change w.c.space ≤ b.length + w.c.pos at hfull
  rw [h.cur, B.write_of_ne hb, ← h.rep.size]
  show w.c.size < B.pos + b.length
  omega

/-- **A flush is right exactly if there is memory for the bytes in the buffer.** -/
theorem Is.holds_iff (h : w.Is a b B) (allocs : List Bool) :
    (written a w.f (w.cookie allocs)).2.Holds w.cur ↔ w.Enough a allocs := by
  refine ⟨fun hholds => ?_, fun henough => ((h.flushed allocs).1 henough).holds⟩
  by_contra hlost
  have hsize := hholds.size.symm.trans ((h.flushed allocs).2 hlost).2.size
  exact absurd hsize (h.size_lt hlost).ne'

/-- The array in memory after a seek that is given the array `A`. -/
theorem Is.seek_spec (h : w.Is a b B) (allocs : List Bool) {A : Arr}
    (hA : (written a w.f (w.cookie allocs)).2.Rep a A) (off : ℤ) (whence : ℕ) :
    ((memFseeko a off whence w.f (w.cookie allocs)).1 = 0 ↔ A.seek a off whence ≠ none) ∧
      (∀ A', A.seek a off whence = some A' → Leaves a (memFseeko a off whence w.f (w.cookie allocs)).2.1
        (memFseeko a off whence w.f (w.cookie allocs)).2.2 [] A') := by
  obtain ⟨A', hseek, hzero, hl⟩ | ⟨hseek, hfail, -⟩ := memFseeko_spec h.file (h.rep.allocs allocs) hA off whence
  · rw [hseek]
    refine ⟨iff_of_true hzero (Option.some_ne_none _), fun A'' heq => ?_⟩
    cases heq
    exact hl
  · rw [hseek]
    refine ⟨iff_of_false ?_ (not_not_intro rfl), fun A' heq => by cases heq⟩
    exact fun hzero => absurd (hfail.symm.trans hzero) (by decide)

/-- **A seek is right exactly if there is memory for the bytes in the buffer, or it finds another error.** -/
theorem Is.seek_holds_iff (h : w.Is a b B) (off : ℤ) (whence : ℕ) (allocs : List Bool) :
    ((memFseeko a off whence w.f (w.cookie allocs)).1 = 0 → (memFseeko a off whence w.f (w.cookie allocs)).2.2.Holds
        ((w.cur.seek a off whence).getD w.cur)) ↔
      (w.c.array.seek a off whence ≠ none → w.Enough a allocs) := by
  rw [h.rep.array_eq]
  by_cases henough : w.Enough a allocs
  · obtain ⟨hzero, hl⟩ := h.seek_spec allocs ((h.flushed allocs).1 henough) off whence
    refine iff_of_true (fun hz => ?_) fun _ => henough
    obtain ⟨A', hseek⟩ := Option.ne_none_iff_exists'.mp (hzero.mp hz)
    rw [hseek]
    exact (hl A' hseek).rep.holds
  · obtain ⟨hzero, hl⟩ := h.seek_spec allocs ((h.flushed allocs).2 henough).2 off whence
    rw [hzero]
    refine forall_congr' fun hsome => iff_of_false (fun hholds => ?_) henough
    obtain ⟨A', hseek⟩ := Option.ne_none_iff_exists'.mp hsome
    have hsize := hholds.size.symm.trans (hl A' hseek).rep.size
    have hcur : ((w.cur.seek a off whence).getD w.cur).size = w.cur.size := by
      rcases hc : w.cur.seek a off whence with _ | C
      · rfl
      · exact Arr.size_seek hc
    rw [hcur, Arr.size_seek hseek] at hsize
    exact absurd hsize (h.size_lt henough).ne'

theorem Is.seek_error (h : w.Is a b B) (allocs : List Bool) {off : ℤ} {whence : ℕ}
    (hfail : (memFseeko a off whence w.f (w.cookie allocs)).1 ≠ 0) :
    ∃ b' B', Leaves a (memFseeko a off whence w.f (w.cookie allocs)).2.1
      (memFseeko a off whence w.f (w.cookie allocs)).2.2 b' B' ∧
        B'.write b' ∈ w.cur :: w.past ∧ B' ∈ w.cur :: w.past := by
  have hrep : (w.cookie allocs).Rep a B := h.rep.allocs allocs
  have hcur : B.write b ∈ w.cur :: w.past := h.cur ▸ List.mem_cons_self
  -- what is in memory then is the array, or what was there before
  obtain ⟨A, hA, hmem⟩ : ∃ A, (written a w.f (w.cookie allocs)).2.Rep a A ∧ A ∈ w.cur :: w.past := by
    by_cases henough : w.Enough a allocs
    · exact ⟨w.cur, (h.flushed allocs).1 henough, List.mem_cons_self⟩
    · exact ⟨B, ((h.flushed allocs).2 henough).2, h.past⟩
  obtain ⟨-, -, hzero, -⟩ | ⟨-, -, heq | hl⟩ := memFseeko_spec h.file hrep hA off whence
  · exact absurd hzero hfail
  · rw [heq]
    exact ⟨b, B, ⟨h.file, hrep⟩, hcur, h.past⟩
  · exact ⟨[], A, hl, hmem, hmem⟩

variable {call : MemCall a}

/-- **A call that reports no error and has the memory it needs.** -/
theorem Is.step_ok (h : w.Is a b B) (hallocs : w.Allocs call)
    (hok : (call.op.perform a w.f (w.cookie call.allocs)).1 = true) : ∃ b' B', (w.step call).Is a b' B' := by
  obtain ⟨op, allocs, hfits⟩ := call
  have hrep := h.rep.allocs allocs
  rw [step, if_pos hok]
  cases op with
  | write s => exact (h.write (memFwritex_ends h.file (hfits s rfl) hrep) (beq_iff_eq.trans not_not.symm)).1 hok
  | putc x => exact (h.write (memPutc_ends h.file x hrep) bne_iff_ne).1 hok
  | seek off whence =>
    have henough : w.Enough a allocs := by
      by_contra hlost
      have hzero := (h.seek_spec allocs ((h.flushed allocs).2 hlost).2 off whence).1.mp (beq_iff_eq.mp hok)
      rw [← h.rep.array_eq] at hzero
      exact hlost (hallocs hzero)
    obtain ⟨hzero, hl⟩ := h.seek_spec allocs ((h.flushed allocs).1 henough) off whence
    obtain ⟨A', hseek⟩ := Option.ne_none_iff_exists'.mp (hzero.mp (beq_iff_eq.mp hok))
    have happly : (MemOp.seek off whence).apply a w.cur = A' := congrArg (Option.getD · w.cur) hseek
    exact ⟨[], A', .of_leaves (hl A' hseek) happly (happly ▸ List.mem_cons_self)⟩
  | flush =>
    obtain ⟨-, hfile, hc⟩ := memFflush_eq h.file hrep
    have hrep' := (h.flushed allocs).1 hallocs
    exact ⟨[], w.cur, .of_leaves ⟨hfile, hc ▸ hrep'⟩ rfl List.mem_cons_self⟩

/-- **A call that reports an error**: the stream has an array that it had since the last flush. -/
theorem Is.step_error (h : w.Is a b B) (hno : (call.op.perform a w.f (w.cookie call.allocs)).1 = false) :
    ∃ b' B', (w.step call).Is a b' B' ∧ (w.step call).cur ∈ w.cur :: w.past := by
  obtain ⟨op, allocs, hfits⟩ := call
  have hrep := h.rep.allocs allocs
  rw [step, if_neg (by rw [hno]; exact Bool.false_ne_true)]
  cases op with
  | write s => exact (h.write (memFwritex_ends h.file (hfits s rfl) hrep) (beq_iff_eq.trans not_not.symm)).2 hno
  | putc x => exact (h.write (memPutc_ends h.file x hrep) bne_iff_ne).2 hno
  | seek off whence =>
    obtain ⟨b', B', hl, hcur, hpast⟩ := h.seek_error allocs (beq_eq_false_iff_ne.mp hno)
    exact ⟨b', B', Is.of_error hl hcur hpast⟩
  | flush => exact absurd (memFflush_eq h.file hrep).1 (beq_eq_false_iff_ne.mp hno)

/-- **A step.** -/
theorem Is.step (h : w.Is a b B) (hallocs : w.Allocs call) : ∃ b' B', (w.step call).Is a b' B' := by
  rcases hok : (call.op.perform a w.f (w.cookie call.allocs)).1 with _ | _
  · obtain ⟨b', B', his, -⟩ := h.step_error hok
    exact ⟨b', B', his⟩
  · exact h.step_ok hallocs hok

/-- **A run.** -/
theorem Is.run (h : w.Is a b B) {calls : List (MemCall a)} (hgood : w.Good calls) :
    ∃ b' B', (w.run calls).Is a b' B' := by
  induction calls generalizing w b B with
  | nil => exact ⟨b, B, h⟩
  | cons call calls ih =>
    obtain ⟨b', B', hstep⟩ := h.step hgood.1
    exact ih hstep hgood.2

/-- **What a flush leaves**: after every run in which the calls that flush have memory for the bytes in the buffer, a
flush that returns 0 leaves all bytes in memory, with zeros in the holes and behind them, and the size, exactly if it
has memory for the bytes in the buffer. So does `fclose`, and so does a seek. After an error the stream has an array
that it had since the last flush. -/
theorem flush_holds_iff (a : Arch) {buf : ℕ} (hbuf : 0 < buf) (mem space : ℕ → UInt8) (calls : List (MemCall a))
    (hgood : (opened buf mem space).Good calls) (w : MemWorld) (hw : w = (opened buf mem space).run calls) :
    (∀ allocs, ((memFflush a w.f (w.cookie allocs)).1 = 0 → (memFflush a w.f (w.cookie allocs)).2.2.Holds w.cur) ↔
        w.Enough a allocs) ∧
      (∀ allocs, ((memFclose a w.f (w.cookie allocs)).1 = 0 → (memFclose a w.f (w.cookie allocs)).2.2.Holds w.cur) ↔
        w.Enough a allocs) ∧
      (∀ off whence allocs, ((memFseeko a off whence w.f (w.cookie allocs)).1 = 0 →
          (memFseeko a off whence w.f (w.cookie allocs)).2.2.Holds ((w.cur.seek a off whence).getD w.cur)) ↔
        (w.c.array.seek a off whence ≠ none → w.Enough a allocs)) ∧
      (∀ call : MemCall a, (call.op.perform a w.f (w.cookie call.allocs)).1 = false →
        (w.step call).cur ∈ w.cur :: w.past) := by
  obtain ⟨b, B, h⟩ := (opened_is a hbuf mem space).run hgood
  rw [← hw] at h
  refine ⟨fun allocs => ?_, fun allocs => ?_, h.seek_holds_iff, fun call hno => ?_⟩
  · obtain ⟨hzero, -, hc⟩ := memFflush_eq h.file (h.rep.allocs allocs)
    rw [← h.holds_iff allocs]
    refine ⟨fun hholds => ?_, fun hholds _ => ?_⟩
    · exact hc ▸ hholds hzero
    · exact hc ▸ hholds
  · obtain ⟨hzero, -, hc⟩ := memFflush_eq h.file (h.rep.allocs allocs)
    rw [← h.holds_iff allocs]
    refine ⟨fun hholds => ?_, fun hholds _ => ?_⟩
    · exact hc ▸ hholds (if_pos ⟨hzero, rfl⟩)
    · exact hc ▸ hholds
  · obtain ⟨b', B', -, hmem⟩ := h.step_error hno
    exact hmem

/-- `putc` without memory. -/
def putByte (a : Arch) (x : ℤ) : MemCall a := ⟨.putc x, [], fun _ h => by cases h⟩

/-- `fseek`, where an allocation succeeds. -/
def seekTo (a : Arch) (off : ℤ) : MemCall a := ⟨.seek off 0, [true], fun _ h => by cases h⟩

/-- A byte is lost: `putc` takes it, there is no memory in `fflush`, and it returns 0. -/
theorem fflush_loses_byte :
    let w₀ := opened 1 (fun _ => 0) fun _ => 0
    let w := w₀.step (putByte .x86_64 97)
    ((MemOp.putc 97).perform .x86_64 w₀.f (w₀.cookie [])).1 = true ∧
      (memFflush .x86_64 w.f (w.cookie [])).1 = 0 ∧ ¬(memFflush .x86_64 w.f (w.cookie [])).2.2.Holds w.cur := by
  refine ⟨by decide, by decide, fun h => ?_⟩
  exact absurd h.size (by decide)

/-- The bytes `a`, two zeros, and `b`, where the allocations succeed. -/
theorem flush_holds_hole :
    let w := (opened 1 (fun _ => 0) fun _ => 0).run [putByte .x86_64 97, seekTo .x86_64 3, putByte .x86_64 98]
    (memFflush .x86_64 w.f (w.cookie [true])).2.2.Holds w.cur ∧ w.cur.size = 4 := by
  have hgood : (opened 1 (fun _ => 0) fun _ => 0).Good
      [putByte .x86_64 97, seekTo .x86_64 3, putByte .x86_64 98] :=
    ⟨trivial, fun _ _ _ => by decide, trivial, trivial⟩
  obtain ⟨hflush, -⟩ := flush_holds_iff .x86_64 Nat.one_pos _ _ _ hgood _ rfl
  exact ⟨(hflush [true]).mpr (fun _ _ => by decide) (by decide), by decide⟩

end MemWorld

end Leblibc.Stdio
