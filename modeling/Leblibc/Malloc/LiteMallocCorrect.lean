import Leblibc.Malloc.LiteMalloc

/-!
# The bump allocator gives disjoint blocks

Every run of `__simple_malloc`, whatever the kernel does, gives blocks that do not overlap, lie in memory from the
kernel and are aligned. No computation wraps around, except for `min-n`: this one does where the request is more than
`min`, and the result then only says that a new area is worth it.

The last page of the address space is not for programs: an address in it is an error number.

## Main results

* `simpleMalloc_spec`: a call
* `blocks_disjoint`: whole runs
-/

namespace Leblibc.LiteMalloc

open Lib

/-! ## Arithmetic -/

/-- The arithmetic agrees with that of numbers where these do not wrap around. -/
structure Arithmetic.Sound (A : Arithmetic) (a : Arch) : Prop where
  add : ∀ {x y}, x + y < 2 ^ a.bits → A.add x y = some (x + y)
  sub : ∀ {x y}, y ≤ x → x < 2 ^ a.bits → A.sub x y = some (x - y)

theorem sound_wrapping (a : Arch) : (Arithmetic.wrapping a).Sound a where
  add h := congrArg some (Arch.wrap_of_lt h)
  sub h hx := congrArg some (Arch.sub_of_le h (by omega))

theorem sound_exact (a : Arch) : (Arithmetic.exact a).Sound a where
  add h := if_pos h
  sub h hx := if_pos ⟨h, hx⟩

theorem sound_exactButSpare (a : Arch) : (Arithmetic.exactButSpare a).Sound a where
  add h := if_pos h
  sub h hx := if_pos ⟨h, hx⟩

/-! ## Alignment -/

/-- The smallest power of two that is not below `n`, but 16 at most. -/
def alignment (n : ℕ) : ℕ := min ALIGN (2 ^ Nat.clog 2 n)

/-- The power of two is found when it is reached, or 16 is. -/
theorem alignment_eq {n k : ℕ} (hbelow : k = 0 ∨ 2 ^ (k - 1) < n) (hk : k ≤ 4) (hend : n ≤ 2 ^ k ∨ k = 4) :
    alignment n = 2 ^ k := by
  have hpow : 2 ^ k ≤ ALIGN := Nat.pow_le_pow_right (by decide) hk
  have hge : k ≤ Nat.clog 2 n := by
    rcases hbelow with rfl | hlt
    · exact Nat.zero_le _
    · have := (Nat.lt_clog_iff_pow_lt (by decide)).mpr hlt
      omega
  rcases hend with hle | rfl
  · have hlog : Nat.clog 2 n = k := le_antisymm ((Nat.clog_le_iff_le_pow (by decide)).mpr hle) hge
    rw [alignment, hlog]
    exact min_eq_right hpow
  · have hbig : 2 ^ 4 ≤ 2 ^ Nat.clog 2 n := Nat.pow_le_pow_right (by decide) hge
    exact min_eq_left hbig

theorem alignLoop_eq (n j : ℕ) : ∀ k, k + j = 4 → (k = 0 ∨ 2 ^ (k - 1) < n) →
    alignLoop n (j + 1) (2 ^ k) = alignment n := by
  induction j with
  | zero =>
    intro k hk hbelow
    obtain rfl : k = 4 := hk
    rw [alignment_eq hbelow le_rfl (.inr rfl), alignLoop, if_neg fun hc => absurd hc.2 (by decide)]
  | succ j ih =>
    intro k hk hbelow
    have hpow : 2 ^ k < ALIGN := Nat.pow_lt_pow_right (by decide) (show k < 4 by omega)
    rw [alignLoop]
    by_cases hlt : 2 ^ k < n
    · rw [if_pos ⟨hlt, hpow⟩, ← Nat.mul_two]
      exact ih (k + 1) (by omega) (.inr hlt)
    · rw [if_neg fun hc => hlt hc.1]
      exact (alignment_eq hbelow (by omega) (.inl (Nat.not_lt.mp hlt))).symm

theorem alignment_pow (n : ℕ) : ∃ k ≤ 4, alignment n = 2 ^ k := by
  rcases le_total (Nat.clog 2 n) 4 with hle | hge
  · exact ⟨_, hle, min_eq_right (Nat.pow_le_pow_right (by decide) hle)⟩
  · have hbig : 2 ^ 4 ≤ 2 ^ Nat.clog 2 n := Nat.pow_le_pow_right (by decide) hge
    exact ⟨4, le_rfl, min_eq_left hbig⟩

theorem alignment_dvd_page (n : ℕ) : alignment n ∣ PAGE_SIZE := by
  obtain ⟨k, hk, heq⟩ := alignment_pow n
  rw [heq]
  exact Nat.pow_dvd_pow 2 (by omega)

theorem page_lt_bits (a : Arch) : 12 < a.bits := by cases a <;> decide

/-! ## The invariant -/

/-- The rest of the area. -/
def State.area (s : State) : Span := ⟨s.cur, s.stop - s.cur⟩

/-- **The invariant**: the rest of the area and the blocks are apart from each other, and in memory from the kernel. -/
structure Inv (a : Arch) (s : State) (mapped blocks : List Span) : Prop where
  cur_le : s.cur ≤ s.stop
  stop_lt : s.stop < 2 ^ a.bits
  stop_page : PAGE_SIZE ∣ s.stop
  unused : s.cur = 0 → s.stop = 0
  step_le : s.mmapStep ≤ 12
  area : s.area.Covered mapped
  area_apart : ∀ b ∈ blocks, s.area.Apart b
  covered : ∀ b ∈ blocks, b.Covered mapped
  apart : blocks.Pairwise Span.Apart
  aligned : ∀ b ∈ blocks, 0 < b.len ∧ alignment b.len ∣ b.start

/-- The block that the call gives, of `n` bytes. -/
def Reply.blocks (r : Reply) (n : ℕ) : List Span := r.p.toList.map fun p => ⟨p, n⟩

variable {a : Arch} {A : Arithmetic} {s : State} {mapped blocks : List Span} {n top : ℕ}

theorem Inv.init (a : Arch) : Inv a State.init [] [] where
  cur_le := le_rfl
  stop_lt := Nat.two_pow_pos _
  stop_page := Dvd.intro_left 0 rfl
  unused _ := rfl
  step_le := Nat.zero_le _
  area _ hx := absurd hx.2 (Nat.not_lt_zero _)
  area_apart _ hb := absurd hb List.not_mem_nil
  covered _ hb := absurd hb List.not_mem_nil
  apart := List.Pairwise.nil
  aligned _ hb := absurd hb List.not_mem_nil

/-- **The end of a call**: the block is taken from the area. -/
theorem Inv.bump (h : Inv a s mapped blocks) (hA : A.Sound a) (hn : 0 < n) (hroom : s.cur + n ≤ s.stop)
    (hcur : 0 < s.cur) (halign : alignment n ∣ s.cur) (given : Option Span) :
    ∃ r, bump A n given s = some r ∧ r.given = given ∧ Inv a r.s mapped (r.blocks n ++ blocks) := by
  have hlt := h.stop_lt
  have hblock : ∀ x ∈ (⟨s.cur, n⟩ : Span), x ∈ s.area := by
    intro x hx
    rw [Span.mem_iff] at hx ⊢
    unfold State.area
    dsimp only at hx ⊢
    omega
  have hrest : ∀ x ∈ ({ s with cur := s.cur + n } : State).area, x ∈ s.area := by
    intro x hx
    rw [Span.mem_iff] at hx ⊢
    unfold State.area at hx ⊢
    dsimp only at hx ⊢
    omega
  refine ⟨⟨some s.cur, { s with cur := s.cur + n }, given⟩, ?_, rfl, ?_⟩
  · unfold LiteMalloc.bump
    rw [hA.add (by omega)]
    rfl
  · refine ⟨hroom, hlt, h.stop_page, fun hzero => ?_, h.step_le, h.area.sub hrest, fun b hb => ?_, fun b hb => ?_, ?_,
      fun b hb => ?_⟩
    · change s.cur + n = 0 at hzero
      omega
    · rcases List.mem_cons.mp hb with rfl | hb
      · apply Span.Apart.symm
        apply Span.apart_of_le
        exact le_rfl
      · exact (h.area_apart b hb).mono hrest
    · rcases List.mem_cons.mp hb with rfl | hb
      · exact h.area.sub hblock
      · exact h.covered b hb
    · exact List.pairwise_cons.mpr ⟨fun b hb => (h.area_apart b hb).mono hblock, h.apart⟩
    · rcases List.mem_cons.mp hb with rfl | hb
      · exact ⟨hn, halign⟩
      · exact h.aligned b hb

/-- A request is at most half of the address space, which leaves room for rounding it up. -/
theorem roundUp_spec (hA : A.Sound a) (hn : n ≤ a.sizeMax / 2) :
    A.add n (PAGE_SIZE - 1) = some (n + (PAGE_SIZE - 1)) ∧ n ≤ a.roundDown (n + (PAGE_SIZE - 1)) PAGE_SIZE ∧
      a.roundDown (n + (PAGE_SIZE - 1)) PAGE_SIZE < n + PAGE_SIZE ∧ n + PAGE_SIZE < 2 ^ a.bits ∧
      PAGE_SIZE ∣ a.roundDown (n + (PAGE_SIZE - 1)) PAGE_SIZE := by
  have hmax : a.sizeMax / 2 + PAGE_SIZE < 2 ^ a.bits := by cases a <;> decide
  obtain ⟨hle, hlt, hdvd⟩ := Arch.roundDown_add (page_lt_bits a) (show n + (2 ^ 12 - 1) < 2 ^ a.bits by
    have : PAGE_SIZE = 2 ^ 12 := rfl
    omega)
  exact ⟨hA.add (by omega), hle, hlt, by omega, hdvd⟩

/-- **What is mapped** is enough, and pages. -/
theorem mapSize_spec (h : Inv a s mapped blocks) (hA : A.Sound a) (hn : n ≤ a.sizeMax / 2)
    (hspare : ∃ v, A.spare (PAGE_SIZE <<< (s.mmapStep / 2)) n = some v) :
    ∃ req new step, mapSize A a n s = some (req, new, step) ∧ n ≤ req ∧ PAGE_SIZE ∣ req ∧ step ≤ 12 := by
  obtain ⟨hadd, hle, hlt, hbits, hdvd⟩ := roundUp_spec hA hn
  obtain ⟨v, hv⟩ := hspare
  have hstep := h.step_le
  unfold mapSize
  rw [hadd, some_bind]
  generalize a.roundDown (n + (PAGE_SIZE - 1)) PAGE_SIZE = req at hle hlt hdvd ⊢
  dsimp only
  rw [hA.sub hle (by omega), some_bind]
  by_cases hwaste : req - n > req / 8
  · rw [if_pos hwaste, hv, some_bind, hA.sub h.cur_le h.stop_lt, some_bind]
    by_cases hrest : v > s.stop - s.cur
    · rw [if_pos hrest]
      by_cases hmin : req < PAGE_SIZE <<< (s.mmapStep / 2)
      · rw [if_pos hmin]
        refine ⟨_, _, _, rfl, by omega, ?_, ?_⟩
        · rw [Nat.shiftLeft_eq]
          exact Nat.dvd_mul_right _ _
        · split <;> omega
      · rw [if_neg hmin]
        exact ⟨_, _, _, rfl, hle, hdvd, hstep⟩
    · rw [if_neg hrest]
      exact ⟨_, _, _, rfl, hle, hdvd, hstep⟩
  · rw [if_neg hwaste]
    exact ⟨_, _, _, rfl, hle, hdvd, hstep⟩

/-- Memory from the kernel is apart from what there is. -/
theorem Inv.fresh (h : Inv a s mapped blocks) {g : Span} (hg : Fresh top mapped g) :
    g.Apart s.area ∧ ∀ b ∈ blocks, g.Apart b :=
  ⟨Span.apart_of_covered hg.2.2 h.area, fun b hb => Span.apart_of_covered hg.2.2 (h.covered b hb)⟩

/-- **The branch in which memory is mapped.** -/
theorem Inv.mapMore (h : Inv a s mapped blocks) (hA : A.Sound a) (htop : top < 2 ^ a.bits) (K : Kernel top mapped)
    (hpos : 0 < n) (hn : n ≤ a.sizeMax / 2) (hspare : ∃ v, A.spare (PAGE_SIZE <<< (s.mmapStep / 2)) n = some v) :
    ∃ r, mapMore A a K n s = some r ∧ Inv a r.s (r.given.toList ++ mapped) (r.blocks n ++ blocks) := by
  obtain ⟨req, new, step, hsize, hle, hdvd, hstep⟩ := mapSize_spec h hA hn hspare
  have hs : Inv a { s with mmapStep := step } mapped blocks :=
    ⟨h.cur_le, h.stop_lt, h.stop_page, h.unused, hstep, h.area, h.area_apart, h.covered, h.apart, h.aligned⟩
  unfold LiteMalloc.mapMore
  rw [hsize, some_bind]
  cases hmem : K.mmap req with
  | none => exact ⟨_, rfl, hs⟩
  | some mem =>
    have hfresh := K.mmap_fresh hmem
    have hpage := K.mmap_page hmem
    obtain ⟨harea, hblocks⟩ := h.fresh hfresh
    have halign : alignment n ∣ mem := (alignment_dvd_page n).trans hpage
    have hmapped : mapped ⊆ ⟨mem, req⟩ :: mapped := List.subset_cons_self _ _
    have hend : mem + req < 2 ^ a.bits := lt_of_le_of_lt hfresh.2.1 htop
    cases new with
    | true =>
      -- the area is new, and the rest of the old one is given up
      have hnew : Inv a { s with mmapStep := step, cur := mem, stop := mem + req } (⟨mem, req⟩ :: mapped) blocks := by
        have hspan : ({ s with mmapStep := step, cur := mem, stop := mem + req } : State).area = ⟨mem, req⟩ := by
          unfold State.area
          rw [Nat.add_sub_cancel_left]
        refine ⟨Nat.le_add_right _ _, hend, Nat.dvd_add hpage hdvd, fun hzero => ?_, hstep, ?_, fun b hb => ?_,
          fun b hb => (h.covered b hb).mono hmapped, h.apart, h.aligned⟩
        · exact absurd hzero hfresh.1.ne'
        · rw [hspan]
          exact Span.covered_of_mem List.mem_cons_self
        · rw [hspan]
          exact hblocks b hb
      obtain ⟨r, hr, hgiven, hinv⟩ := hnew.bump hA hpos (Nat.add_le_add_left hle mem) hfresh.1 halign (some ⟨mem, req⟩)
      refine ⟨r, ?_, ?_⟩
      · dsimp only
        rw [hA.add hend]
        exact hr
      · rw [hgiven]
        exact hinv
    | false =>
      -- the block has a mapping of its own
      have hblock : ∀ x ∈ (⟨mem, n⟩ : Span), x ∈ (⟨mem, req⟩ : Span) := by
        intro x hx
        rw [Span.mem_iff] at hx ⊢
        dsimp only at hx ⊢
        omega
      refine ⟨⟨some mem, { s with mmapStep := step }, some ⟨mem, req⟩⟩, rfl, h.cur_le, h.stop_lt, h.stop_page, h.unused,
        hstep, h.area.mono hmapped, fun b hb => ?_, fun b hb => ?_, ?_, fun b hb => ?_⟩
      · rcases List.mem_cons.mp hb with rfl | hb
        · exact (harea.mono hblock).symm
        · exact h.area_apart b hb
      · rcases List.mem_cons.mp hb with rfl | hb
        · exact (Span.covered_of_mem List.mem_cons_self).sub hblock
        · exact (h.covered b hb).mono hmapped
      · exact List.pairwise_cons.mpr ⟨fun b hb => (hblocks b hb).mono hblock, h.apart⟩
      · rcases List.mem_cons.mp hb with rfl | hb
        · exact ⟨hpos, halign⟩
        · exact h.aligned b hb

/-- **The break is found** before the first area: the area is empty and starts there. -/
theorem Inv.findBreak (h : Inv a s mapped blocks) (hA : A.Sound a) (htop : top + PAGE_SIZE ≤ 2 ^ a.bits)
    (K : Kernel top mapped) {m : ℕ} (hm : m ∣ PAGE_SIZE) (hcur : m ∣ s.cur) :
    ∃ s', findBreak A a K s = some s' ∧ Inv a s' mapped blocks ∧ s'.stop - s'.cur = s.stop - s.cur ∧ 0 < s'.cur ∧
      m ∣ s'.cur ∧ s'.mmapStep = s.mmapStep := by
  unfold LiteMalloc.findBreak
  by_cases hzero : s.cur = 0
  · obtain ⟨hlt, hdvd⟩ := a.pad_spec (page_lt_bits a).le K.brk
    have hpage : PAGE_SIZE = 2 ^ 12 := rfl
    have hle := K.brk_le
    have hpos := K.brk_pos
    have hsum : K.brk + a.pad K.brk PAGE_SIZE < 2 ^ a.bits := by
      rw [hpage] at htop ⊢
      omega
    rw [if_pos hzero, hA.add hsum]
    refine ⟨_, rfl, ⟨le_rfl, hsum, hdvd, fun h0 => ?_, h.step_le, fun x hx => ?_, fun b _ x hx => ?_, h.covered,
      h.apart, h.aligned⟩, ?_, Nat.add_pos_left hpos _, hm.trans hdvd, rfl⟩
    · omega
    · exact absurd (Span.mem_iff.mp hx) (by unfold State.area; dsimp only; omega)
    · exact absurd (Span.mem_iff.mp hx) (by unfold State.area; dsimp only; omega)
    · rw [h.unused hzero, hzero]
      exact Nat.sub_self _
  · rw [if_neg hzero]
    exact ⟨s, rfl, h, rfl, Nat.pos_of_ne_zero hzero, hcur, rfl⟩

/-- **Moving the break**: the kernel has been asked for memory where the area ends. -/
theorem Inv.movesBreak (h : Inv a s mapped blocks) (hA : A.Sound a) (K : Kernel top mapped) (req : ℕ) :
    ∃ moved, movesBreak A a K req s = some moved ∧
      (moved = true → s.brk = s.stop ∧ Fresh top mapped ⟨s.brk, req⟩) := by
  have hmax : a.sizeMax + 1 = 2 ^ a.bits := Nat.sub_add_cancel (Nat.two_pow_pos _)
  have hlt := h.stop_lt
  unfold LiteMalloc.movesBreak
  split_ifs with heq
  · rw [hA.sub (by omega) (by omega), some_bind]
    split_ifs with hroom
    · rw [hA.add (by omega)]
      refine ⟨_, rfl, fun hmoved => ⟨heq, K.moves_fresh ?_⟩⟩
      exact (Bool.and_eq_true_iff.mp hmoved).2
    · exact ⟨false, rfl, fun hmoved => by cases hmoved⟩
  · exact ⟨false, rfl, fun hmoved => by cases hmoved⟩

/-- **The area grows** where the break was. -/
theorem Inv.grow (h : Inv a s mapped blocks) (hcur : 0 < s.cur) (heq : s.brk = s.stop) {req : ℕ}
    (hfresh : Fresh top mapped ⟨s.brk, req⟩) (htop : top < 2 ^ a.bits) (hdvd : PAGE_SIZE ∣ req) :
    Inv a { s with brk := s.stop + req, stop := s.stop + req } (⟨s.brk, req⟩ :: mapped) blocks := by
  have hle := h.cur_le
  have hend : s.brk + req < 2 ^ a.bits := lt_of_le_of_lt hfresh.2.1 htop
  have hmapped : mapped ⊆ ⟨s.brk, req⟩ :: mapped := List.subset_cons_self _ _
  obtain ⟨-, hblocks⟩ := h.fresh hfresh
  -- an address of the area is in the old one or in the new memory
  have hsplit {x : ℕ} (hx : x ∈ ({ s with brk := s.stop + req, stop := s.stop + req } : State).area) :
      x ∈ s.area ∨ x ∈ (⟨s.brk, req⟩ : Span) := by
    rw [Span.mem_iff] at hx
    rw [Span.mem_iff, Span.mem_iff]
    unfold State.area at hx ⊢
    dsimp only at hx ⊢
    omega
  refine ⟨by show s.cur ≤ s.stop + req; omega, by show s.stop + req < _; omega, Nat.dvd_add h.stop_page hdvd,
    fun hzero => absurd hzero hcur.ne', h.step_le, fun x hx => ?_, fun b hb x hx => ?_,
    fun b hb => (h.covered b hb).mono hmapped, h.apart, h.aligned⟩
  · rcases hsplit hx with hold | hnew
    · exact h.area.mono hmapped x hold
    · exact ⟨_, List.mem_cons_self, hnew⟩
  · rcases hsplit hx with hold | hnew
    · exact h.area_apart b hb x hold
    · exact hblocks b hb x hnew

/-- **The branch in which more memory is needed.** -/
theorem Inv.more (h : Inv a s mapped blocks) (hA : A.Sound a) (htop : top + PAGE_SIZE ≤ 2 ^ a.bits)
    (K : Kernel top mapped) (hn : n ≤ a.sizeMax / 2) (hmore : n > s.stop - s.cur) (halign : alignment n ∣ s.cur)
    (hspare : ∃ v, A.spare (PAGE_SIZE <<< (s.mmapStep / 2)) n = some v) :
    ∃ r, more A a K n (s.stop - s.cur) s = some r ∧
      Inv a r.s (r.given.toList ++ mapped) (r.blocks n ++ blocks) := by
  have hpage : 0 < PAGE_SIZE := by decide
  have hmax : a.sizeMax / 2 < 2 ^ a.bits := by cases a <;> decide
  obtain ⟨hadd, hle, -, -, hdvd⟩ := roundUp_spec hA (show n - (s.stop - s.cur) ≤ a.sizeMax / 2 by omega)
  unfold LiteMalloc.more
  rw [hA.sub hmore.le (by omega), some_bind, hadd, some_bind]
  generalize a.roundDown (n - (s.stop - s.cur) + (PAGE_SIZE - 1)) PAGE_SIZE = req at hle hdvd ⊢
  obtain ⟨s', hfind, h', hleft, hcur, halign', hstep⟩ := h.findBreak hA htop K (alignment_dvd_page n) halign
  rw [hfind]
  obtain ⟨moved, hmoves, hfresh⟩ := h'.movesBreak hA K req
  rw [some_bind, hmoves]
  have hpos : 0 < n := by omega
  cases moved with
  | true =>
    obtain ⟨heq, hfresh⟩ := hfresh rfl
    have hgrow := h'.grow hcur heq hfresh (by omega) hdvd
    have hle' := h'.cur_le
    obtain ⟨r, hr, hgiven, hinv⟩ := hgrow.bump hA hpos (by show s'.cur + n ≤ s'.stop + req; omega) hcur halign'
      (some ⟨s'.brk, req⟩)
    refine ⟨r, ?_, ?_⟩
    · rw [hA.add hgrow.stop_lt]
      exact hr
    · rw [hgiven]
      exact hinv
  | false =>
    exact h'.mapMore hA (by omega) K hpos hn (hstep ▸ hspare)

/-- **A call.** Whatever the kernel does, it returns and keeps the invariant. -/
theorem simpleMalloc_spec (h : Inv a s mapped blocks) (hA : A.Sound a) (htop : top + PAGE_SIZE ≤ 2 ^ a.bits)
    (K : Kernel top mapped) (n : ℕ)
    (hspare : ∃ v, A.spare (PAGE_SIZE <<< (s.mmapStep / 2)) (if n = 0 then 1 else n) = some v) :
    ∃ r, simpleMalloc A a K n s = some r ∧
      Inv a r.s (r.given.toList ++ mapped) (r.blocks (if n = 0 then 1 else n) ++ blocks) := by
  unfold simpleMalloc
  by_cases hbig : n > a.sizeMax / 2
  · rw [if_pos hbig]
    exact ⟨_, rfl, h⟩
  rw [if_neg hbig]
  have hone : 1 ≤ a.sizeMax / 2 := by cases a <;> decide
  have hle : (if n = 0 then 1 else n) ≤ a.sizeMax / 2 := by
    split <;> omega
  have hpos : 0 < (if n = 0 then 1 else n) := by
    split <;> omega
  generalize (if n = 0 then 1 else n) = n at hspare hle hpos ⊢
  dsimp only
  rw [show (1 : ℕ) = 2 ^ 0 from rfl, alignLoop_eq n 4 0 rfl (.inl rfl)]
  obtain ⟨k, hk, hpow⟩ := alignment_pow n
  have hbits := page_lt_bits a
  obtain ⟨hlt, hdvd⟩ := a.pad_spec (show k ≤ a.bits by omega) s.cur
  rw [← hpow] at hlt hdvd
  -- the end of the area is aligned, so that there is room to align the pointer
  have hroom : s.cur + a.pad s.cur (alignment n) ≤ s.stop := by
    have hstop : alignment n ∣ s.stop := (alignment_dvd_page n).trans h.stop_page
    obtain ⟨i, hi⟩ := hdvd
    obtain ⟨j, hj⟩ := hstop
    have hcur := h.cur_le
    rw [hi, hj]
    refine Nat.mul_le_mul_left _ ?_
    by_contra hgt
    have hmul : alignment n * (j + 1) ≤ alignment n * i := Nat.mul_le_mul_left _ (by omega)
    rw [Nat.mul_add] at hmul
    omega
  have hsub : ∀ x ∈ ({ s with cur := s.cur + a.pad s.cur (alignment n) } : State).area, x ∈ s.area := by
    intro x hx
    rw [Span.mem_iff] at hx ⊢
    unfold State.area at hx ⊢
    dsimp only at hx ⊢
    omega
  have hzero : s.cur + a.pad s.cur (alignment n) = 0 → s.stop = 0 := fun h0 => h.unused (by omega)
  have h' : Inv a { s with cur := s.cur + a.pad s.cur (alignment n) } mapped blocks :=
    ⟨hroom, h.stop_lt, h.stop_page, hzero, h.step_le, h.area.sub hsub, fun b hb => (h.area_apart b hb).mono hsub,
      h.covered, h.apart, h.aligned⟩
  have hstop := h.stop_lt
  rw [hA.add (by omega), some_bind, hA.sub hroom hstop, some_bind]
  split_ifs with hmore
  · exact h'.more hA htop K hle hmore hdvd hspare
  · have hcur : 0 < s.cur + a.pad s.cur (alignment n) := by
      omega
    obtain ⟨r, hr, hgiven, hinv⟩ := h'.bump hA hpos (by show s.cur + a.pad s.cur (alignment n) + n ≤ s.stop; omega) hcur
      hdvd none
    refine ⟨r, hr, ?_⟩
    rw [hgiven]
    exact hinv

/-! ## Runs -/

/-- The variables of the allocator, the memory that it has from the kernel, and the blocks that it has given. -/
structure World where
  s : State
  mapped : List Span
  blocks : List Span

/-- After a call for `n` bytes; no byte counts as one. -/
def World.after (w : World) (n : ℕ) (r : Reply) : World :=
  ⟨r.s, r.given.toList ++ w.mapped, r.blocks (if n = 0 then 1 else n) ++ w.blocks⟩

/-- The states that runs of calls lead to, with a kernel that gives memory below `top`. -/
inductive Reachable (a : Arch) (top : ℕ) : World → Prop where
  | init : Reachable a top ⟨State.init, [], []⟩
  | call {w : World} (h : Reachable a top w) (K : Kernel top w.mapped) (n : ℕ) {r : Reply}
      (hr : simpleMalloc (.wrapping a) a K n w.s = some r) : Reachable a top (w.after n r)

theorem Reachable.inv (htop : top + PAGE_SIZE ≤ 2 ^ a.bits) {w : World} (h : Reachable a top w) :
    Inv a w.s w.mapped w.blocks := by
  induction h with
  | init => exact Inv.init a
  | call _ K n hr ih =>
    obtain ⟨r', hr', hinv⟩ := simpleMalloc_spec ih (sound_wrapping a) htop K n ⟨_, rfl⟩
    cases hr.symm.trans hr'
    exact hinv

/-! ## Numbers do not wrap around -/

/-- What the first arithmetic computes, the second one does too. -/
structure Arithmetic.Le (A B : Arithmetic) : Prop where
  add : ∀ {x y z}, A.add x y = some z → B.add x y = some z
  sub : ∀ {x y z}, A.sub x y = some z → B.sub x y = some z
  spare : ∀ {x y z}, A.spare x y = some z → B.spare x y = some z

theorem exact_le_wrapping (a : Arch) : (Arithmetic.exact a).Le (.wrapping a) where
  add h := by
    obtain ⟨hlt, h⟩ := Option.ite_none_right_eq_some.mp h
    exact (congrArg some (Arch.wrap_of_lt hlt)).trans h
  sub h := by
    obtain ⟨hle, h⟩ := Option.ite_none_right_eq_some.mp h
    exact (congrArg some (Arch.sub_of_le hle.1 (by omega))).trans h
  spare h := by
    obtain ⟨hle, h⟩ := Option.ite_none_right_eq_some.mp h
    exact (congrArg some (Arch.sub_of_le hle.1 (by omega))).trans h

theorem exactButSpare_le_wrapping (a : Arch) : (Arithmetic.exactButSpare a).Le (.wrapping a) :=
  ⟨(exact_le_wrapping a).add, (exact_le_wrapping a).sub, id⟩

theorem bind_mono {α β : Type} {x y : Option α} {f g : α → Option β} (hxy : ∀ {v}, x = some v → y = some v)
    (hfg : ∀ {v r}, f v = some r → g v = some r) {r : β} (h : x.bind f = some r) : y.bind g = some r := by
  obtain ⟨v, hv, h⟩ := Option.bind_eq_some_iff.mp h
  exact Option.bind_eq_some_iff.mpr ⟨v, hxy hv, hfg h⟩

theorem ite_mono {α : Type} {p : Prop} [Decidable p] {x x' y y' : Option α} (hx : ∀ {v}, x = some v → y = some v)
    (hx' : ∀ {v}, x' = some v → y' = some v) {v : α} (h : (if p then x else x') = some v) :
    (if p then y else y') = some v := by
  split
  · next hp => exact hx (by rwa [if_pos hp] at h)
  · next hp => exact hx' (by rwa [if_neg hp] at h)

section Mono

variable {B : Arithmetic} (hAB : A.Le B) (K : Kernel top mapped)

include hAB

theorem bump_mono {given : Option Span} {r : Reply} : bump A n given s = some r → bump B n given s = some r :=
  bind_mono hAB.add id

theorem movesBreak_mono {req : ℕ} {r : Bool} : movesBreak A a K req s = some r → movesBreak B a K req s = some r :=
  ite_mono (bind_mono hAB.sub (ite_mono (bind_mono hAB.add id) id)) id

theorem mapSize_mono {r : ℕ × Bool × ℕ} : mapSize A a n s = some r → mapSize B a n s = some r :=
  bind_mono hAB.add (bind_mono hAB.sub (ite_mono (bind_mono hAB.spare (bind_mono hAB.sub id)) id))

theorem mapMore_mono {r : Reply} : mapMore A a K n s = some r → mapMore B a K n s = some r := by
  refine bind_mono (mapSize_mono hAB) fun {size r} => ?_
  cases K.mmap size.1 with
  | none => exact id
  | some mem => exact ite_mono (bind_mono hAB.add (bump_mono hAB)) id

theorem findBreak_mono {s' : State} : findBreak A a K s = some s' → findBreak B a K s = some s' :=
  ite_mono (bind_mono hAB.add id) id

theorem more_mono {left : ℕ} {r : Reply} : more A a K n left s = some r → more B a K n left s = some r :=
  bind_mono hAB.sub (bind_mono hAB.add (bind_mono (findBreak_mono hAB K) (bind_mono (movesBreak_mono hAB K)
    (ite_mono (bind_mono hAB.add (bump_mono hAB)) (mapMore_mono hAB K)))))

theorem simpleMalloc_mono {r : Reply} : simpleMalloc A a K n s = some r → simpleMalloc B a K n s = some r :=
  ite_mono id (bind_mono hAB.add (bind_mono hAB.sub (ite_mono (more_mono hAB K) (bump_mono hAB))))

end Mono

theorem simpleMalloc_zero (A : Arithmetic) (a : Arch) (K : Kernel top mapped) (s : State) :
    simpleMalloc A a K 0 s = simpleMalloc A a K 1 s := by
  have hone : ¬1 > a.sizeMax / 2 := by cases a <;> decide
  unfold simpleMalloc
  rw [if_neg hone]
  rfl

/-- A kernel that refuses to move the break, and maps one page. -/
def onePage : Kernel (2 ^ 20) [] where
  brk := 4096
  brk_pos := by decide
  brk_le := by decide
  moves _ _ := false
  moves_fresh h := by cases h
  mmap len := if len = 4096 then some 8192 else none
  mmap_page h := by
    obtain ⟨-, h⟩ := Option.ite_none_right_eq_some.mp h
    cases h
    exact ⟨2, rfl⟩
  mmap_fresh h := by
    obtain ⟨rfl, h⟩ := Option.ite_none_right_eq_some.mp h
    cases h
    exact ⟨by decide, by decide, fun t ht => absurd ht List.not_mem_nil⟩
  auxv := 0
  sp := 0

end Leblibc.LiteMalloc
