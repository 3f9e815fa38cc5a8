import Leblibc.Stdio.MemStream
import Leblibc.Stdio.Output

/-!
# Streams in memory: a growable array

A stream in memory is an array of bytes that grows, with a position. The bytes in the buffer of the stream are written
there later; what is in the memory under the stream and these bytes together are the array.

`ms_write` does not set the pointers of the stream to null when an allocation fails, which is how `fflush` and `fseek`
recognise a failure. So they lose the bytes in the buffer without an error.

## Main results

* `msPut_rep`, `msWrite_flush`, `msWrite_more`: what `ms_write` writes
* `memFwritex_ends`, `memPutc_ends`, `memFflush_eq`, `memFseeko_spec`: the calls
-/

namespace Leblibc.Stdio

open Lib

/-! ## The array -/

/-- An array of bytes with a position. Bytes that have not been written are zero; `size` is the position behind the
byte that was written last, or 0. -/
structure Arr where
  bytes : ℕ → UInt8
  len : ℕ
  pos : ℕ
  size : ℕ

/-- The empty array. -/
def Arr.empty : Arr := ⟨fun _ => 0, 0, 0, 0⟩

/-- Bytes are written at the position. -/
def Arr.write (A : Arr) (s : List UInt8) : Arr :=
  if s = [] then A
  else ⟨store A.bytes A.pos s, max A.len (A.pos + s.length), A.pos + s.length, A.pos + s.length⟩

/-- The position is set, relative to the start, the position, or the end. -/
def Arr.seek (A : Arr) (a : Arch) (off : ℤ) (whence : ℕ) : Option Arr :=
  if whence > 2 then none
  else
    let p : ℤ := ([0, A.pos, A.len].getD whence 0 : ℕ) + off
    if p < 0 ∨ p > SSIZE_MAX a then none else some { A with pos := p.toNat }

theorem Arr.write_of_ne {s : List UInt8} (A : Arr) (h : s ≠ []) : A.write s =
    ⟨store A.bytes A.pos s, max A.len (A.pos + s.length), A.pos + s.length, A.pos + s.length⟩ := if_neg h

theorem Arr.write_write (A : Arr) (s t : List UInt8) : (A.write s).write t = A.write (s ++ t) := by
  rcases eq_or_ne s [] with rfl | hs
  · rfl
  rcases eq_or_ne t [] with rfl | ht
  · rw [List.append_nil]
    rfl
  rw [A.write_of_ne hs, Arr.write_of_ne _ ht, A.write_of_ne (by simp [hs]), store_store, List.length_append,
    ← Nat.add_assoc]
  congr 1
  exact (max_assoc _ _ _).trans (congrArg (max A.len) (max_eq_right (Nat.le_add_right _ _)))

theorem Arr.size_seek {a : Arch} {A A' : Arr} {off : ℤ} {whence : ℕ} (h : A.seek a off whence = some A') :
    A'.size = A.size := by
  unfold Arr.seek at h
  split at h
  · cases h
  · dsimp only at h
    split at h
    · cases h
    · cases h
      rfl

/-! ## The cookie -/

/-- The bytes that are allocated. -/
def Cookie.capacity (c : Cookie) : ℕ := if c.space = 0 then 1 else c.space

/-- **The memory holds an array**: its bytes and behind them a zero; and `*sizep` is as it should be. -/
structure Cookie.Holds (c : Cookie) (A : Arr) : Prop where
  inside : A.len < c.capacity
  bytes : ∀ i < A.len, c.buf i = A.bytes i
  after : c.buf A.len = 0
  size : c.size = A.size

/-- The cookie represents an array. -/
structure Cookie.Rep (c : Cookie) (a : Arch) (A : Arr) : Prop where
  len : c.len = A.len
  pos : c.pos = A.pos
  size : c.size = A.size
  bytes : ∀ i < c.len, c.buf i = A.bytes i
  zero : ∀ i, c.len ≤ i → A.bytes i = 0
  tail : ∀ i, c.len ≤ i → i < c.space → c.buf i = 0
  room : c.len < c.space ∨ c.space = 0 ∧ c.len = 0 ∧ c.buf 0 = 0
  size_le : c.size ≤ c.len
  space_le : c.space ≤ SSIZE_MAX a
  pos_le : c.pos ≤ SSIZE_MAX a

theorem two_mul_ssize_max (a : Arch) : 2 * SSIZE_MAX a + 1 < 2 ^ a.bits := by cases a <;> decide

namespace Cookie.Rep

variable {c : Cookie} {a : Arch} {A : Arr} {s : List UInt8}

theorem holds (h : c.Rep a A) : c.Holds A := by
  refine ⟨?_, fun i hi => h.bytes i (h.len ▸ hi), ?_, h.size⟩
  · unfold Cookie.capacity
    rw [← h.len]
    rcases h.room with hlt | ⟨h0, hlen, -⟩
    · rw [if_neg (by omega)]
      exact hlt
    · rw [if_pos h0, hlen]
      exact Nat.one_pos
  · rw [← h.len]
    rcases h.room with hlt | ⟨-, hlen, hzero⟩
    · exact h.tail _ le_rfl hlt
    · rw [hlen, hzero]

theorem allocs (h : c.Rep a A) (l : List Bool) : ({ c with allocs := l } : Cookie).Rep a A :=
  ⟨h.len, h.pos, h.size, h.bytes, h.zero, h.tail, h.room, h.size_le, h.space_le, h.pos_le⟩

theorem full_iff (h : c.Rep a A) {n : ℕ} (hn : n ≤ SSIZE_MAX a) : c.full a n ↔ c.space ≤ n + c.pos := by
  have hmax := two_mul_ssize_max a
  have hpos := h.pos_le
  rw [Cookie.full, Arch.wrap_of_lt (by omega)]

/-- The new size is more than twice the old one, and is enough. -/
theorem newSpace_ge (h : c.Rep a A) {n : ℕ} (hn : n ≤ SSIZE_MAX a) :
    2 * c.space + 1 ≤ newSpace a c n ∧ c.pos + n + 1 ≤ newSpace a c n := by
  have hmax := two_mul_ssize_max a
  have hpos := h.pos_le
  have hspace := h.space_le
  rw [newSpace, Arch.wrap_of_lt (by omega), Arch.wrap_of_lt (by omega)]
  exact ⟨Nat.left_le_or, Nat.right_le_or⟩

theorem grow (h : c.Rep a A) {n : ℕ} (hn : n ≤ SSIZE_MAX a) (halloc : c.allocates a n) :
    (c.grow a n).Rep a A ∧ c.pos + n < (c.grow a n).space := by
  obtain ⟨hdouble, henough⟩ := h.newSpace_ge hn
  have hle : newSpace a c n ≤ SSIZE_MAX a := of_decide_eq_true (Bool.and_elim_right halloc)
  have hkeep {i : ℕ} (hi : i < c.space) : (c.grow a n).buf i = c.buf i := if_neg (by omega)
  have hzero {i : ℕ} (hi : c.space ≤ i) (hi' : i < newSpace a c n) : (c.grow a n).buf i = 0 := if_pos ⟨hi, hi'⟩
  have hlen : c.len ≤ c.space := by
    have := h.room
    omega
  refine ⟨⟨h.len, h.pos, h.size, fun i hi => ?_, h.zero, fun i hi hi' => ?_, .inl ?_, h.size_le, hle, h.pos_le⟩,
    henough⟩
  · exact (hkeep (lt_of_lt_of_le hi hlen)).trans (h.bytes i hi)
  · rcases lt_or_ge i c.space with hlt | hge
    · rw [hkeep hlt]
      exact h.tail i hi hlt
    · exact hzero hge hi'
  · show c.len < newSpace a c n
    omega

/-- The bytes are copied, where there is room for them and one more. -/
theorem copy (h : c.Rep a A) (hs : s ≠ []) (hroom : c.pos + s.length < c.space) : (c.copy a s).Rep a (A.write s) := by
  have hmax := two_mul_ssize_max a
  have hspace := h.space_le
  have hwrap : a.wrap (c.pos + s.length) = c.pos + s.length := Arch.wrap_of_lt (by omega)
  have hlen : (c.copy a s).len = max c.len (c.pos + s.length) := by
    show (if a.wrap (c.pos + s.length) ≥ c.len then a.wrap (c.pos + s.length) else c.len) = _
    split <;> omega
  -- the bytes before the end of the memory are those of the array, before and after
  have hbytes {i : ℕ} (hi : i < c.space) : c.buf i = A.bytes i := by
    rcases lt_or_ge i c.len with hlt | hge
    · exact h.bytes i hlt
    · rw [h.tail i hge hi, h.zero i hge]
  have hbytes' {i : ℕ} (hi : i < c.space) : (c.copy a s).buf i = store A.bytes A.pos s i := by
    show store c.buf c.pos s i = _
    rw [h.pos, store, store, hbytes hi]
  have hzero {i : ℕ} (hi : (c.copy a s).len ≤ i) : store A.bytes A.pos s i = 0 := by
    rw [← h.pos, store_of_ge (by omega), h.zero i (by omega)]
  have hlt : (c.copy a s).len < c.space := by
    have := h.room
    omega
  rw [A.write_of_ne hs]
  refine ⟨?_, ?_, ?_, fun i hi => hbytes' (hi.trans hlt), fun i hi => hzero hi, fun i hi hi' => ?_, .inl hlt, ?_, hspace,
    ?_⟩
  · rw [hlen, h.len, h.pos]
  · exact hwrap.trans (by rw [h.pos])
  · exact hwrap.trans (by rw [h.pos])
  · rw [hbytes' hi', hzero hi]
  · rw [hlen]
    exact hwrap.le.trans (le_max_right _ _)
  · exact hwrap.le.trans (by omega)

theorem copy_nil (h : c.Rep a A) (hsize : c.size = c.pos) : (c.copy a []).Rep a A := by
  have hmax := two_mul_ssize_max a
  have hpos := h.pos_le
  have hwrap : a.wrap (c.pos + 0) = c.pos := Arch.wrap_of_lt (by omega)
  have hle := h.size_le
  have hbuf : (c.copy a []).buf = c.buf := by
    funext i
    show store c.buf c.pos [] i = c.buf i
    rw [store]
    split <;> rfl
  have hlen : (c.copy a []).len = c.len := by
    show (if a.wrap (c.pos + 0) ≥ c.len then a.wrap (c.pos + 0) else c.len) = c.len
    split <;> omega
  refine ⟨hlen.trans h.len, hwrap.trans h.pos, ?_, ?_, ?_, ?_, ?_, ?_, h.space_le, hwrap.le.trans hpos⟩
  · exact hwrap.trans (hsize.symm.trans h.size)
  · rw [hlen, hbuf]
    exact h.bytes
  · rw [hlen]
    exact h.zero
  · rw [hlen, hbuf]
    exact h.tail
  · rw [hlen, hbuf]
    exact h.room
  · rw [hlen]
    exact hwrap.le.trans (hsize ▸ hle)

end Cookie.Rep

/-- Whether `ms_write` has the memory for `n` more bytes. -/
def Cookie.Fits (c : Cookie) (a : Arch) (n : ℕ) : Prop := c.full a n → c.allocates a n = true

/-- **`ms_write` when the buffer of the stream is empty**: it writes the bytes, or fails without memory. -/
theorem msPut_rep {c : Cookie} {a : Arch} {A : Arr} (h : c.Rep a A) {s : List UInt8} (hs : s ≠ [])
    (hlen : s.length ≤ SSIZE_MAX a) :
    (c.Fits a s.length → (msPut a s c).1 = s.length ∧ (msPut a s c).2.Rep a (A.write s) ∧
      (msPut a s c).2.pos < (msPut a s c).2.space) ∧
    (¬c.Fits a s.length → (msPut a s c).1 = 0 ∧ (msPut a s c).2.Rep a A) := by
  have hdone {c' : Cookie} (h' : c'.Rep a A) (hroom : c'.pos + s.length < c'.space) :
      (c'.copy a s).Rep a (A.write s) ∧ (c'.copy a s).pos < (c'.copy a s).space := by
    have hrep := h'.copy hs hroom
    refine ⟨hrep, ?_⟩
    rw [hrep.pos, A.write_of_ne hs, ← h'.pos]
    exact hroom
  unfold msPut
  by_cases hfull : c.full a s.length
  · rw [if_pos hfull]
    split_ifs with halloc
    · obtain ⟨hgrow, hroom⟩ := h.grow hlen halloc
      exact ⟨fun _ => ⟨rfl, hdone hgrow hroom⟩, fun hno => absurd (fun _ => halloc) hno⟩
    · exact ⟨fun hfits => absurd (hfits hfull) halloc, fun _ => ⟨rfl, h.allocs _⟩⟩
  · rw [if_neg hfull]
    rw [h.full_iff hlen] at hfull
    refine ⟨fun _ => ⟨rfl, hdone h (by omega)⟩, fun hno => absurd (fun hf => ?_) hno⟩
    exact absurd ((h.full_iff hlen).mp hf) hfull

/-! ## The stream -/

/-- A stream in memory with the bytes `b` in its buffer. -/
structure MemFile (f : FILE) (b : List UInt8) : Prop where
  noWr : f.noWr = false
  lbf : f.lbf = -1
  bufSize : f.bufSize = BUFSIZ
  rpos : f.rpos = 0
  rend : f.rend = 0
  buffers : Buffers f b

theorem bufsiz_le (a : Arch) : BUFSIZ ≤ SSIZE_MAX a := by cases a <;> decide

theorem MemFile.opened {buf : ℕ} (hbuf : 0 < buf) (mem : ℕ → UInt8) : MemFile (memOpen buf mem) [] :=
  ⟨rfl, rfl, rfl, rfl, rfl, hbuf, .inl ⟨rfl, rfl, rfl, rfl⟩⟩

namespace MemFile

variable {f : FILE} {b : List UInt8}

theorem length_le (h : MemFile f b) (a : Arch) : b.length ≤ SSIZE_MAX a := by
  obtain ⟨-, ⟨-, -, -, rfl⟩ | hact⟩ := h.buffers
  · exact Nat.zero_le _
  · have hlen := hact.length_eq
    obtain ⟨-, hwend, -, hwpos, -⟩ := hact
    have hsize := h.bufSize
    have hle := bufsiz_le a
    omega

/-- The bytes in the buffer, as the functions take them. -/
theorem load_eq (h : MemFile f b) : load f.mem f.wbase (f.wpos - f.wbase) = b := by
  obtain ⟨-, ⟨-, hwpos, hwbase, rfl⟩ | hact⟩ := h.buffers
  · rw [hwpos, hwbase]
    rfl
  · exact hact.load_eq

theorem wpos_ne_iff (h : MemFile f b) : f.wpos ≠ f.wbase ↔ b ≠ [] := by
  obtain ⟨-, ⟨-, hwpos, hwbase, rfl⟩ | hact⟩ := h.buffers
  · rw [hwpos, hwbase]
    exact iff_of_false (not_not_intro rfl) (not_not_intro rfl)
  · have hlen := hact.length_eq
    obtain ⟨hwbase, -, hle, -⟩ := hact
    rw [← List.length_pos_iff]
    omega

theorem ready (h : MemFile f b) :
    (Stdio.ready f).1 = false ∧ MemFile (Stdio.ready f).2 b ∧ Active (Stdio.ready f).2 b := by
  obtain ⟨hbuf, ⟨hwend, -, -, rfl⟩ | hact⟩ := h.buffers
  · have heq : Stdio.ready f = (false, { f.drained with rpos := 0, rend := 0 }) :=
      (if_pos hwend).trans (if_neg (by rw [h.noWr]; exact Bool.false_ne_true))
    have hact : Active { f.drained with rpos := 0, rend := 0 } [] := active_drained f
    rw [heq]
    exact ⟨rfl, ⟨h.noWr, h.lbf, h.bufSize, rfl, rfl, hbuf, .inr hact⟩, hact⟩
  · have heq : Stdio.ready f = (false, f) := if_neg (by have := hact.2.1; omega)
    rw [heq]
    exact ⟨rfl, h, hact⟩

theorem emptied (h : MemFile f b) (hact : Active f b) : MemFile { f with wpos := f.wbase } [] := by
  refine ⟨h.noWr, h.lbf, h.bufSize, h.rpos, h.rend, h.buffers.1, .inr ?_⟩
  obtain ⟨hwbase, hwend, -⟩ := hact
  exact ⟨hwbase, hwend, hwbase.ge, by show f.wbase ≤ f.wend; omega, by simp [hwbase]⟩

end MemFile

variable {a : Arch} {f : FILE} {b s : List UInt8} {c : Cookie} {B : Arr}

/-- **`ms_write` from `fflush` and `fseek`**: the bytes in the buffer are written, or are lost without memory. The
buffer of the stream is empty in both cases, and its pointers are not null. -/
theorem msWrite_flush (h : MemFile f b) (hact : Active f b) (hb : b ≠ []) (hrep : c.Rep a B) :
    MemFile (msWrite a f [] c).2.1 [] ∧ (msWrite a f [] c).2.1.wpos ≠ 0 ∧
      (c.Fits a b.length → (msWrite a f [] c).2.2.Rep a (B.write b)) ∧
      (¬c.Fits a b.length → (msWrite a f [] c).2.2.Rep a B) := by
  have hlen : b.length ≠ 0 := by rwa [Ne, List.length_eq_zero_iff]
  obtain ⟨hfit, hno⟩ := msPut_rep hrep hb (h.length_le a)
  have hempty := h.emptied hact
  have hwpos : f.wbase ≠ 0 := by
    rw [hact.1]
    exact Nat.ne_of_gt h.buffers.1
  unfold msWrite
  simp only [h.load_eq, if_pos hlen]
  by_cases hfits : c.Fits a b.length
  · obtain ⟨hn, hrep', hroom⟩ := hfit hfits
    have hsize : (msPut a b c).2.size = (msPut a b c).2.pos := by
      rw [hrep'.size, hrep'.pos, B.write_of_ne hb]
    rw [if_neg (by omega)]
    refine ⟨hempty, hwpos, fun _ => ?_, fun h => absurd hfits h⟩
    -- nothing more is written
    have hput : msPut a [] (msPut a b c).2 = (0, (msPut a b c).2.copy a []) := by
      refine if_neg fun hfull => ?_
      have hge := (hrep'.full_iff (Nat.zero_le _)).mp hfull
      omega
    rw [hput]
    exact hrep'.copy_nil hsize
  · obtain ⟨hn, hrep'⟩ := hno hfits
    rw [if_pos (by omega)]
    exact ⟨hempty, hwpos, fun h => absurd h hfits, fun _ => hrep'⟩

/-- **`ms_write` with more bytes**: all of them are written after those in the buffer, or it reports that none was. -/
theorem msWrite_more (h : MemFile f b) (hact : Active f b) (hs : s ≠ []) (hlen : s.length ≤ SSIZE_MAX a)
    (hrep : c.Rep a B) :
    MemFile (msWrite a f s c).2.1 [] ∧
      (((msWrite a f s c).1 = s.length ∧ (msWrite a f s c).2.2.Rep a (B.write (b ++ s))) ∨
        ((msWrite a f s c).1 = 0 ∧ ∃ A, (A = B ∨ A = B.write b) ∧ (msWrite a f s c).2.2.Rep a A)) := by
  unfold msWrite
  rw [h.load_eq]
  rcases eq_or_ne b [] with rfl | hb
  · obtain ⟨hfit, hno⟩ := msPut_rep hrep hs hlen
    refine ⟨h, ?_⟩
    by_cases hfits : c.Fits a s.length
    · exact .inl ⟨(hfit hfits).1, (hfit hfits).2.1⟩
    · exact .inr ⟨(hno hfits).1, B, .inl rfl, (hno hfits).2⟩
  · have hlenb : b.length ≠ 0 := by rwa [Ne, List.length_eq_zero_iff]
    obtain ⟨hfit, hno⟩ := msPut_rep hrep hb (h.length_le a)
    simp only [if_pos hlenb]
    by_cases hfits : c.Fits a b.length
    · obtain ⟨hn, hrep', -⟩ := hfit hfits
      obtain ⟨hfit', hno'⟩ := msPut_rep hrep' hs hlen
      rw [if_neg (by omega)]
      refine ⟨h.emptied hact, ?_⟩
      by_cases hfits' : (msPut a b c).2.Fits a s.length
      · obtain ⟨hn', hrep'', -⟩ := hfit' hfits'
        rw [B.write_write] at hrep''
        exact .inl ⟨hn', hrep''⟩
      · exact .inr ⟨(hno' hfits').1, _, .inr rfl, (hno' hfits').2⟩
    · obtain ⟨hn, hrep'⟩ := hno hfits
      rw [if_pos (by omega)]
      exact ⟨h.emptied hact, .inr ⟨rfl, B, .inl rfl, hrep'⟩⟩

/-! ## The calls -/

/-- What a call leaves of the array: the bytes `b'` are in the buffer, and `B'` is in memory. -/
structure Leaves (a : Arch) (f : FILE) (c : Cookie) (b' : List UInt8) (B' : Arr) : Prop where
  file : MemFile f b'
  rep : c.Rep a B'

/-- How `fwrite` and `putc` end: with the bytes `s` in the buffer, with all bytes in memory, or with an error, and
then the bytes that were in the buffer are in memory or lost. -/
inductive WriteEnds (a : Arch) (B : Arr) (b s : List UInt8) (err : Prop) (f : FILE) (c : Cookie) : Prop
  | buffered (h : Leaves a f c (b ++ s) B) (hok : ¬err)
  | written (h : Leaves a f c [] (B.write (b ++ s))) (hok : ¬err)
  | failed {A : Arr} (h : Leaves a f c [] A) (hA : A = B ∨ A = B.write b) (herr : err)

theorem writeEnds_append (h : MemFile f b) (hact : Active f b) (hfit : s.length ≤ f.wend - f.wpos) (hrep : c.Rep a B)
    {err : Prop} (hok : ¬err) : WriteEnds a B b s err (f.append s) c :=
  .buffered ⟨⟨h.noWr, h.lbf, h.bufSize, h.rpos, h.rend, h.buffers.1, .inr (hact.append hfit)⟩, hrep⟩ hok

theorem writeEnds_msWrite (h : MemFile f b) (hact : Active f b) (hs : s ≠ []) (hlen : s.length ≤ SSIZE_MAX a)
    (hrep : c.Rep a B) {err : Prop} (herr : err ↔ (msWrite a f s c).1 ≠ s.length) :
    WriteEnds a B b s err (msWrite a f s c).2.1 (msWrite a f s c).2.2 := by
  have hpos := List.length_pos_iff.mpr hs
  obtain ⟨hfile, ⟨hn, hrep'⟩ | ⟨hn, A, hA, hrep'⟩⟩ := msWrite_more h hact hs hlen hrep
  · exact .written ⟨hfile, hrep'⟩ fun he => herr.mp he hn
  · exact .failed ⟨hfile, hrep'⟩ hA (herr.mpr (by omega))

/-- **`fwrite`.** -/
theorem memFwritex_ends (h : MemFile f b) (hlen : s.length ≤ SSIZE_MAX a) (hrep : c.Rep a B) :
    WriteEnds a B b s ((memFwritex a s f c).1 ≠ s.length) (memFwritex a s f c).2.1 (memFwritex a s f c).2.2 := by
  obtain ⟨hready, hfile, hact⟩ := h.ready
  unfold memFwritex fwritexBy
  generalize Stdio.ready f = r at hready hfile hact ⊢
  obtain ⟨failed, g⟩ := r
  dsimp only at hready hfile hact ⊢
  rw [hready]
  by_cases hroom : s.length > g.wend - g.wpos
  · rw [if_pos hroom]
    exact writeEnds_msWrite hfile hact (List.length_pos_iff.mp (by omega)) hlen hrep Iff.rfl
  · rw [if_neg hroom, if_neg (show ¬g.lbf ≥ 0 by rw [hfile.lbf]; decide)]
    exact writeEnds_append hfile hact (Nat.not_lt.mp hroom) hrep (not_not_intro rfl)

theorem toNat_ne_eof (x : UInt8) : (x.toNat : ℤ) ≠ EOF := by
  unfold EOF
  omega

theorem overflowBy_ends (h : MemFile f b) (x : UInt8) (hrep : c.Rep a B) :
    WriteEnds a B b [x] ((overflowBy (msWrite a) f x c).1 = EOF) (overflowBy (msWrite a) f x c).2.1
      (overflowBy (msWrite a) f x c).2.2 := by
  obtain ⟨hready, hfile, hact⟩ := h.ready
  unfold overflowBy
  generalize Stdio.ready f = r at hready hfile hact ⊢
  obtain ⟨failed, g⟩ := r
  dsimp only at hready hfile hact ⊢
  rw [hready]
  by_cases hroom : g.wpos ≠ g.wend ∧ (x.toNat : ℤ) ≠ g.lbf
  · rw [if_pos hroom]
    have hfit : [x].length ≤ g.wend - g.wpos := by
      have hle := hact.2.2.2.1
      rw [List.length_singleton]
      omega
    exact writeEnds_append hfile hact hfit hrep (toNat_ne_eof x)
  · rw [if_neg hroom]
    refine writeEnds_msWrite hfile hact (List.cons_ne_nil _ _) ?_ hrep ?_
    · exact le_trans (show 1 ≤ BUFSIZ by decide) (bufsiz_le a)
    · split <;> simp_all [toNat_ne_eof]

/-- **`putc`.** -/
theorem memPutc_ends (h : MemFile f b) (x : ℤ) (hrep : c.Rep a B) :
    WriteEnds a B b [uchar x] ((memPutc a x f c).1 = EOF) (memPutc a x f c).2.1 (memPutc a x f c).2.2 := by
  unfold memPutc putcBy
  split_ifs with hroom
  · obtain ⟨-, ⟨hwend, hwpos, -⟩ | hact⟩ := h.buffers
    · exact absurd (hwpos.trans hwend.symm) hroom.2
    · have hfit : [uchar x].length ≤ f.wend - f.wpos := by
        have hle := hact.2.2.2.1
        rw [List.length_singleton]
        omega
      exact writeEnds_append h hact hfit hrep (toNat_ne_eof _)
  · exact overflowBy_ends h _ hrep

/-! ### Flushing -/

/-- The first part of `fflush` and of `fseek`: the bytes in the buffer are given to `ms_write`. -/
def written (a : Arch) (f : FILE) (c : Cookie) : FILE × Cookie :=
  if f.wpos ≠ f.wbase then (msWrite a f [] c).2 else (f, c)

/-- The bytes in the buffer are in memory, or lost. The stream has no pointer that would show it. -/
theorem written_spec (h : MemFile f b) (hrep : c.Rep a B) :
    MemFile (written a f c).1 [] ∧ ¬(f.wpos ≠ f.wbase ∧ (written a f c).1.wpos = 0) ∧
      ((b ≠ [] → c.Fits a b.length) → (written a f c).2.Rep a (B.write b)) ∧
      (b ≠ [] → ¬c.Fits a b.length → (written a f c).2.Rep a B) := by
  rcases eq_or_ne b [] with rfl | hb
  · have hsame : ¬f.wpos ≠ f.wbase := mt h.wpos_ne_iff.mp (not_not_intro rfl)
    have heq : written a f c = (f, c) := if_neg hsame
    rw [heq]
    exact ⟨h, fun hp => hsame hp.1, fun _ => hrep, fun hb => absurd rfl hb⟩
  · have hne := h.wpos_ne_iff.mpr hb
    have heq : written a f c = (msWrite a f [] c).2 := if_pos hne
    have hact : Active f b := by
      obtain ⟨-, hidle | hact⟩ := h.buffers
      · exact absurd hidle.2.2.2 hb
      · exact hact
    obtain ⟨hfile, hwpos, hfit, hno⟩ := msWrite_flush h hact hb hrep
    rw [heq]
    exact ⟨hfile, fun hp => hwpos hp.2, fun hfits => hfit (hfits hb), fun _ => hno⟩

/-- **`fflush` never fails.** -/
theorem memFflush_eq (h : MemFile f b) (hrep : c.Rep a B) : (memFflush a f c).1 = 0 ∧
    MemFile (memFflush a f c).2.1 [] ∧ (memFflush a f c).2.2 = (written a f c).2 := by
  obtain ⟨hfile, hno, -⟩ := written_spec h hrep
  have hread : ¬(written a f c).1.rpos ≠ (written a f c).1.rend := by
    rw [hfile.rpos, hfile.rend]
    exact not_not_intro rfl
  have heq : memFflush a f c =
      (0, { (written a f c).1 with wpos := 0, wbase := 0, wend := 0, rpos := 0, rend := 0 }, (written a f c).2) :=
    (if_neg hno).trans (Prod.ext rfl (Prod.ext rfl (if_neg hread)))
  rw [heq]
  exact ⟨rfl, ⟨hfile.noWr, hfile.lbf, hfile.bufSize, rfl, rfl, hfile.buffers.1, .inl ⟨rfl, rfl, rfl, rfl⟩⟩, rfl⟩

/-- `ms_seek` sets the position as in the array, and otherwise does nothing. -/
theorem msSeek_spec (hrep : c.Rep a B) (off : ℤ) {whence : ℕ} (hwhence : ¬whence > 2) :
    (∃ B', B.seek a off whence = some B' ∧ 0 ≤ (msSeek a off whence c).1 ∧ (msSeek a off whence c).2.Rep a B') ∨
      (B.seek a off whence = none ∧ msSeek a off whence c = (-1, c)) := by
  unfold Arr.seek msSeek
  rw [if_neg hwhence, if_neg hwhence, ← hrep.pos, ← hrep.len]
  generalize [0, c.pos, c.len].getD whence 0 = base
  by_cases hbad : off < -(base : ℤ) ∨ off > SSIZE_MAX a - base
  · refine .inr ⟨if_pos ?_, if_pos hbad⟩
    omega
  · have hp : ¬((base : ℤ) + off < 0 ∨ base + off > SSIZE_MAX a) := by omega
    refine .inl ⟨_, if_neg hp, ?_⟩
    rw [if_neg hbad]
    refine ⟨by omega, rfl, rfl, hrep.size, hrep.bytes, hrep.zero, hrep.tail, hrep.room, hrep.size_le, hrep.space_le,
      ?_⟩
    show (base + off).toNat ≤ SSIZE_MAX a
    omega

/-- **`fseek`**: the bytes in the buffer go to memory or are lost, and the position is set. -/
theorem memFseeko_spec (h : MemFile f b) (hrep : c.Rep a B) {A : Arr} (hA : (written a f c).2.Rep a A) (off : ℤ)
    (whence : ℕ) :
    (∃ A', A.seek a off whence = some A' ∧ (memFseeko a off whence f c).1 = 0 ∧
        Leaves a (memFseeko a off whence f c).2.1 (memFseeko a off whence f c).2.2 [] A') ∨
      (A.seek a off whence = none ∧ (memFseeko a off whence f c).1 = -1 ∧
        (memFseeko a off whence f c = (-1, f, c) ∨
          Leaves a (memFseeko a off whence f c).2.1 (memFseeko a off whence f c).2.2 [] A)) := by
  obtain ⟨hfile, hno, -⟩ := written_spec h hrep
  by_cases hwhence : whence > 2
  · have heq : memFseeko a off whence f c = (-1, f, c) := if_pos hwhence
    rw [heq]
    exact .inr ⟨if_pos hwhence, rfl, .inl rfl⟩
  -- nothing has been read
  have hoff : (if whence = SEEK_CUR ∧ f.rend ≠ 0 then off - ((f.rend : ℤ) - f.rpos) else off) = off :=
    if_neg fun hr => hr.2 h.rend
  have heq : memFseeko a off whence f c =
      if (msSeek a off whence (written a f c).2).1 < 0 then
        (-1, { (written a f c).1 with wpos := 0, wbase := 0, wend := 0 }, (msSeek a off whence (written a f c).2).2)
      else (0, { (written a f c).1 with wpos := 0, wbase := 0, wend := 0, rpos := 0, rend := 0, eof := false },
        (msSeek a off whence (written a f c).2).2) := by
    refine (if_neg hwhence).trans ((if_neg hno).trans ?_)
    rw [hoff]
    rfl
  rw [heq]
  have hidle : Idle { (written a f c).1 with wpos := 0, wbase := 0, wend := 0 } [] := ⟨rfl, rfl, rfl, rfl⟩
  obtain ⟨A', hseek, hpos, hrep'⟩ | ⟨hseek, hfail⟩ := msSeek_spec hA off hwhence
  · rw [if_neg (not_lt.mpr hpos)]
    exact .inl ⟨A', hseek, rfl, ⟨hfile.noWr, hfile.lbf, hfile.bufSize, rfl, rfl, hfile.buffers.1, .inl hidle⟩, hrep'⟩
  · rw [hfail]
    exact .inr ⟨hseek, rfl, .inr ⟨⟨hfile.noWr, hfile.lbf, hfile.bufSize, hfile.rpos, hfile.rend, hfile.buffers.1,
      .inl hidle⟩, hA⟩⟩

/-! ## The array of a stream -/

/-- The array in the memory of the cookie. -/
def Cookie.array (c : Cookie) : Arr := ⟨fun i => if i < c.len then c.buf i else 0, c.len, c.pos, c.size⟩

/-- The array that a stream has: what is in memory, and the bytes in the buffer. -/
def streamArray (f : FILE) (c : Cookie) : Arr := c.array.write (load f.mem f.wbase (f.wpos - f.wbase))

/-- The array in memory is the one that the cookie represents. -/
theorem Cookie.Rep.array_eq (h : c.Rep a B) : c.array = B := by
  have hbytes : (fun i => if i < c.len then c.buf i else 0) = B.bytes := by
    funext i
    split
    · next hi => exact h.bytes i hi
    · next hi => exact (h.zero i (Nat.not_lt.mp hi)).symm
  rw [Cookie.array, hbytes, h.len, h.pos, h.size]

theorem Leaves.streamArray_eq (h : Leaves a f c b B) : streamArray f c = B.write b := by
  rw [streamArray, h.file.load_eq, h.rep.array_eq]

end Leblibc.Stdio
