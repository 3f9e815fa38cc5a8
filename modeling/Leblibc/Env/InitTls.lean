import Leblibc.Base.Align

/-!
# Static thread-local storage

`static_init_tls` and `__copy_tls` (`src/env/__init_tls.c`) for a program with a TLS segment. The first computes how
much memory a thread's storage takes, the second lays it out from any address on: the array `dtv` with its two entries,
the copy of the segment's image and the `struct pthread`, on either side of the thread pointer. The copy has to keep the
image's address modulo the segment's alignment.

## Main results

* `fits_copyTls`: the layout fits, unless the sum for the size overflows
* `not_fits_huge`: it does not for a segment of almost the whole address space
-/

namespace Leblibc.InitTls

/-- What the code is compiled for. `MIN_TLS_ALIGN` is the alignment of `struct pthread`. -/
structure Target where
  arch : Arch
  aboveTp : Bool
  sizeofPthread : ℕ
  minAlignLog : ℕ
  gapAboveTp : ℕ
  minAlignLog_lt : minAlignLog < arch.bits
  sizeofPthread_pos : 0 < sizeofPthread

/-- The TLS segment: where its image is and its program header, with `p_align = 2 ^ alignLog`. -/
structure Segment (t : Target) where
  image : ℕ
  filesz : ℕ
  memsz : ℕ
  alignLog : ℕ
  filesz_le : filesz ≤ memsz
  alignLog_lt : alignLog < t.arch.bits

/-- `main_tls` and the values for `libc`, as `static_init_tls` leaves them. -/
structure Tls where
  size : ℕ
  offset : ℕ
  align : ℕ
  tlsSize : ℕ

variable {t : Target}

/-- `MIN_TLS_ALIGN`. -/
def Target.minAlign (t : Target) : ℕ := 2 ^ t.minAlignLog

/-- `p_align`. -/
def Segment.align (s : Segment t) : ℕ := 2 ^ s.alignLog

/-- `static_init_tls`, as far as it computes the layout. -/
def staticInitTls (s : Segment t) : Tls :=
  let a := t.arch
  let size := a.wrap (s.memsz + a.pad (s.memsz + s.image) s.align)
  let offset :=
    if t.aboveTp then a.wrap (t.gapAboveTp + (a.sub s.image t.gapAboveTp &&& (s.align - 1))) else size
  let align := if s.align < t.minAlign then t.minAlign else s.align
  let sum := 2 * a.ptrSize + t.sizeofPthread + (if t.aboveTp then offset else 0) + size + align
  ⟨size, offset, align, a.roundDown (a.wrap (sum + (t.minAlign - 1))) t.minAlign⟩

/-- Where the parts of a thread's storage are: `dtv`, the `struct pthread`, the thread pointer and the image's copy. -/
structure Layout where
  dtv : ℕ
  td : ℕ
  tp : ℕ
  copy : ℕ

/-- `__copy_tls`, with one module. -/
def copyTls (t : Target) (l : Tls) (mem : ℕ) : Layout :=
  let a := t.arch
  if t.aboveTp then
    let td := a.wrap (mem + a.pad (mem + t.sizeofPthread) l.align)
    let tp := a.wrap (td + t.sizeofPthread)
    ⟨a.sub (a.wrap (mem + l.tlsSize)) (2 * a.ptrSize), td, tp, a.wrap (tp + l.offset)⟩
  else
    let end_ := a.wrap (mem + a.sub l.tlsSize t.sizeofPthread)
    let td := a.sub end_ (end_ &&& (l.align - 1))
    ⟨mem, td, td, a.sub td l.offset⟩

/-- `n` bytes from `p` on and `k` bytes from `q` on have none in common. -/
def Apart (p n q k : ℕ) : Prop := p + n ≤ q ∨ q + k ≤ p

/-- `n` bytes from `p` on are within `k` bytes from `mem` on. -/
def Inside (p n mem k : ℕ) : Prop := mem ≤ p ∧ p + n ≤ mem + k

/-- **A layout that fits**: its parts are inside the memory and apart, the thread pointer is aligned, and the copy is
where the image's address says. -/
structure Layout.Fits (s : Segment t) (l : Tls) (mem : ℕ) (p : Layout) : Prop where
  dtv_inside : Inside p.dtv (2 * t.arch.ptrSize) mem l.tlsSize
  td_inside : Inside p.td t.sizeofPthread mem l.tlsSize
  copy_inside : Inside p.copy s.filesz mem l.tlsSize
  dtv_td : Apart p.dtv (2 * t.arch.ptrSize) p.td t.sizeofPthread
  dtv_copy : Apart p.dtv (2 * t.arch.ptrSize) p.copy s.filesz
  td_copy : Apart p.td t.sizeofPthread p.copy s.filesz
  tp_aligned : l.align ∣ p.tp
  copy_congr : p.copy ≡ s.image [MOD s.align]

/-! ## The sizes without overflow -/

/-- The segment's size, rounded so that the image's end is aligned. -/
def Segment.fullSize (s : Segment t) : ℕ := s.memsz + t.arch.pad (s.memsz + s.image) s.align

/-- The distance of the copy from the thread pointer. -/
def Segment.offset (s : Segment t) : ℕ :=
  if t.aboveTp then t.gapAboveTp + (t.arch.sub s.image t.gapAboveTp &&& (s.align - 1)) else s.fullSize

/-- The larger of the two alignments. -/
def Segment.fullAlignLog (s : Segment t) : ℕ := max s.alignLog t.minAlignLog

/-- The sum that the size is rounded from. -/
def Segment.sum (s : Segment t) : ℕ :=
  2 * t.arch.ptrSize + t.sizeofPthread + (if t.aboveTp then s.offset else 0) + s.fullSize + 2 ^ s.fullAlignLog

theorem align_eq (s : Segment t) : (if s.align < t.minAlign then t.minAlign else s.align) = 2 ^ s.fullAlignLog := by
  unfold Segment.align Target.minAlign Segment.fullAlignLog
  by_cases h : s.alignLog < t.minAlignLog
  · rw [if_pos (Nat.pow_lt_pow_right (by decide) h), max_eq_right h.le]
  · rw [if_neg (Nat.not_lt.mpr (Nat.pow_le_pow_right (by decide) (Nat.not_lt.mp h))), max_eq_left (Nat.not_lt.mp h)]

theorem staticInitTls_eq (s : Segment t) (hsum : s.sum + (t.minAlign - 1) < 2 ^ t.arch.bits) :
    ∃ n, staticInitTls s = ⟨s.fullSize, s.offset, 2 ^ s.fullAlignLog, n⟩ ∧ s.sum ≤ n := by
  have hpos := Nat.two_pow_pos s.fullAlignLog
  have hlt : s.fullSize < 2 ^ t.arch.bits ∧ s.offset < 2 ^ t.arch.bits := by
    unfold Segment.sum at hsum
    cases habove : t.aboveTp with
    | true =>
      rw [habove, if_pos rfl] at hsum
      omega
    | false =>
      rw [Segment.offset, habove, if_neg Bool.false_ne_true]
      omega
  have hsize : t.arch.wrap (s.memsz + t.arch.pad (s.memsz + s.image) s.align) = s.fullSize := Arch.wrap_of_lt hlt.1
  have hoffset : (if t.aboveTp then t.arch.wrap (t.gapAboveTp + (t.arch.sub s.image t.gapAboveTp &&& (s.align - 1)))
      else s.fullSize) = s.offset := by
    rw [← Arch.wrap_of_lt hlt.2, Segment.offset]
    split
    · rfl
    · exact (Arch.wrap_of_lt hlt.1).symm
  refine ⟨t.arch.roundDown (s.sum + (t.minAlign - 1)) t.minAlign, ?_, (Arch.roundDown_add t.minAlignLog_lt hsum).1⟩
  simp only [staticInitTls, hsize, hoffset, align_eq]
  rw [← Arch.wrap_of_lt hsum]
  rfl

/-! ## The layout -/

theorem sub_wrap (a : Arch) (x y : ℕ) : a.sub (a.wrap x) y = a.sub x y := Nat.mod_add_mod ..

/-- **The layout fits** wherever there is room for it, as long as the sum for its size does not overflow. -/
theorem fits_copyTls (s : Segment t) (hsum : s.sum + (t.minAlign - 1) < 2 ^ t.arch.bits) (mem : ℕ)
    (hroom : mem + (staticInitTls s).tlsSize ≤ 2 ^ t.arch.bits) :
    (copyTls t (staticInitTls s) mem).Fits s (staticInitTls s) mem := by
  obtain ⟨n, hinit, hn⟩ := staticInitTls_eq s hsum
  have hlog : s.fullAlignLog ≤ t.arch.bits := max_le s.alignLog_lt.le t.minAlignLog_lt.le
  have hdvd : s.align ∣ 2 ^ s.fullAlignLog := Nat.pow_dvd_pow 2 (le_max_left _ _)
  have hfile : s.filesz ≤ s.fullSize := s.filesz_le.trans (Nat.le_add_right _ _)
  have hword : 0 < t.arch.ptrSize := by cases t.arch <;> decide
  have hpos := Nat.two_pow_pos s.fullAlignLog
  rw [hinit] at hroom ⊢
  dsimp only at hroom
  unfold Segment.sum at hn
  cases habove : t.aboveTp with
  | true =>
    rw [habove, if_pos rfl] at hn
    obtain ⟨hpad, haligned⟩ := t.arch.pad_spec hlog (mem + t.sizeofPthread)
    have hcongr : s.offset ≡ s.image [MOD s.align] := by
      rw [Segment.offset, habove, if_pos rfl]
      exact (t.arch.sub_and_spec s.alignLog_lt.le s.image t.gapAboveTp).2
    obtain ⟨d, hd⟩ : ∃ d, t.arch.pad (mem + t.sizeofPthread) (2 ^ s.fullAlignLog) = d := ⟨_, rfl⟩
    rw [hd, Nat.add_right_comm] at haligned
    rw [hd] at hpad
    have hlayout : copyTls t ⟨s.fullSize, s.offset, 2 ^ s.fullAlignLog, n⟩ mem =
        ⟨mem + n - 2 * t.arch.ptrSize, mem + d, mem + d + t.sizeofPthread, mem + d + t.sizeofPthread + s.offset⟩ := by
      simp only [copyTls, habove, if_true, hd]
      rw [sub_wrap, Arch.sub_of_le (by omega) (by omega), Arch.wrap_of_lt (n := mem + d) (by omega),
        Arch.wrap_of_lt (n := mem + d + t.sizeofPthread) (by omega), Arch.wrap_of_lt (by omega)]
    rw [hlayout]
    refine ⟨?_, ?_, ?_, ?_, ?_, ?_, haligned, ?_⟩
    case refine_7 =>
      have h0 := Nat.modEq_zero_iff_dvd.mpr (hdvd.trans haligned)
      simpa using h0.add hcongr
    all_goals
      simp only [Inside, Apart]
      omega
  | false =>
    rw [habove, if_neg Bool.false_ne_true] at hn
    have hoffset : s.offset = s.fullSize := by rw [Segment.offset, habove, if_neg Bool.false_ne_true]
    have hP := t.sizeofPthread_pos
    -- the last aligned address in front of which a `struct pthread` still fits
    have hmod := Nat.mod_lt (mem + (n - t.sizeofPthread)) hpos
    have haligned := Nat.dvd_sub_mod (n := 2 ^ s.fullAlignLog) (mem + (n - t.sizeofPthread))
    obtain ⟨td, htd⟩ : ∃ td, mem + (n - t.sizeofPthread) - (mem + (n - t.sizeofPthread)) % 2 ^ s.fullAlignLog = td :=
      ⟨_, rfl⟩
    rw [htd] at haligned
    have hlayout : copyTls t ⟨s.fullSize, s.offset, 2 ^ s.fullAlignLog, n⟩ mem = ⟨mem, td, td, td - s.fullSize⟩ := by
      simp only [copyTls, habove, if_false, hoffset, Bool.false_eq_true]
      rw [Arch.sub_of_le (x := n) (by omega) (by omega), Arch.wrap_of_lt (by omega), Nat.and_two_pow_sub_one_eq_mod,
        Arch.sub_of_le (Nat.mod_le _ _) (by omega), htd, Arch.sub_of_le (by omega) (by omega)]
    rw [hlayout]
    refine ⟨?_, ?_, ?_, ?_, ?_, ?_, haligned, ?_⟩
    case refine_7 =>
      have hend : s.align ∣ s.image + s.fullSize := by
        rw [Segment.fullSize, ← Nat.add_assoc, Nat.add_comm s.image]
        exact (t.arch.pad_spec s.alignLog_lt.le (s.memsz + s.image)).2
      have htop : td - s.fullSize + s.fullSize = td := by omega
      refine Nat.ModEq.add_right_cancel' s.fullSize ?_
      rw [htop]
      exact (Nat.modEq_zero_iff_dvd.mpr (hdvd.trans haligned)).trans (Nat.modEq_zero_iff_dvd.mpr hend).symm
    all_goals
      simp only [Inside, Apart]
      omega

/-- The only variant that is built: `struct pthread` has 200 bytes and the alignment of a pointer. -/
def x86 : Target := ⟨.x86_64, false, 200, 3, 0, by decide, by decide⟩

/-- A few thread-local variables. -/
def small : Segment x86 := ⟨0x4b2010, 20, 40, 4, by decide, by decide⟩

theorem fits_small : (copyTls x86 (staticInitTls small) 0x7f0000001008).Fits small (staticInitTls small) 0x7f0000001008 :=
  fits_copyTls small (by decide) _ (by decide)

/-- A segment of almost the whole address space. -/
def huge : Segment x86 := ⟨0x4b2010, 20, 2 ^ 64 - 100, 0, by decide, by decide⟩

/-- The size of `huge` overflows, and the `struct pthread` lies in front of the memory. -/
theorem not_fits_huge : 0x1000 + (staticInitTls huge).tlsSize ≤ 2 ^ x86.arch.bits ∧
    ¬(copyTls x86 (staticInitTls huge) 0x1000).Fits huge (staticInitTls huge) 0x1000 :=
  ⟨by decide, fun h => absurd h.td_inside.1 (by decide)⟩

end Leblibc.InitTls
