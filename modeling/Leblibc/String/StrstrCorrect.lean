import Leblibc.String.StrstrLoop

/-!
# Substring search is correct

`strstr`, `memmem` and `wcsstr` return, for every haystack and every needle, the first position at which
the needle occurs, and null if it occurs nowhere.

## Main results

* `wordStrstr_isFirst`, `wordMemmem_isFirst`: a word that slides over the haystack finds the first
  occurrence
* `strstr_isFirst`, `memmem_isFirst`, `wcsstr_isFirst`: the three functions
* `substring_search_correct`: the three functions together
-/

namespace Leblibc.Str

open Leblibc.Lib

/-- A search returns the first position at which the needle occurs, or null. -/
def Answers {β : Type} (m : ℕ → β) (h L n l : ℕ) (res : Option (Option ℕ)) : Prop :=
  ∃ r, res = some (r.map (h + ·)) ∧ IsFirst (view m h) L (view m n) l r

section Answers

variable {β : Type} {m : ℕ → β} {h n L l : ℕ}

/-- The empty needle occurs at the beginning. -/
theorem answers_empty (m : ℕ → β) (h L n : ℕ) : Answers m h L n 0 (some (some h)) :=
  ⟨some 0, rfl, Nat.zero_le L, fun x hx => absurd hx (Nat.not_lt_zero x), fun q hq => absurd hq (Nat.not_lt_zero q)⟩

theorem answers_one (hocc : m h = m n) (hL : 0 < L) : Answers m h L n 1 (some (some h)) := by
  refine ⟨some 0, rfl, hL, fun x hx => ?_, fun q hq => absurd hq (Nat.not_lt_zero q)⟩
  obtain rfl : x = 0 := by omega
  exact hocc

/-- A needle longer than the haystack does not occur. -/
theorem answers_short (hlt : L < l) : Answers m h L n l (some none) := ⟨none, rfl, fun q hq => by omega⟩

/-- Where the first letter of the needle does not occur, the needle does not. -/
theorem not_occursAt_of_first (hpos : 0 < l) {q : ℕ} (hq : ¬ OccursAt (view m h) (fun _ => m n) 1 q) :
    ¬ OccursAt (view m h) (view m n) l q := by
  intro hocc
  exact hq (occursAt_one.mpr (hocc 0 hpos))

theorem answers_absent (hpos : 0 < l) (hr : IsFirst (view m h) L (fun _ => m n) 1 none) :
    Answers m h L n l (some none) :=
  ⟨none, rfl, fun q hq => not_occursAt_of_first hpos (hr q (by omega))⟩

/-- A search that begins with one for the first letter of the needle goes on from there. -/
theorem answers_of_first (hpos : 0 < l) {d : ℕ} (hd : IsFirst (view m h) L (fun _ => m n) 1 (some d))
    {res : Option (Option ℕ)} (hres : Answers m (h + d) (L - d) n l res) : Answers m h L n l res := by
  obtain ⟨r, rfl, hr⟩ := hres
  obtain ⟨hle, -, hbefore⟩ := hd
  have hview : view m (h + d) = fun x => view m h (d + x) := by
    funext x
    exact congrArg m (add_assoc h d x)
  rw [hview] at hr
  refine ⟨r.map (d + ·), ?_, ?_⟩
  · rw [Option.map_map]
    congr 2
    funext x
    exact add_assoc h d x
  · exact hr.of_suffix (fun q hq => not_occursAt_of_first hpos (hbefore q hq)) (by omega)

end Answers

/-! ## Words that slide over the haystack -/

theorem shiftLeft_or {x b : ℕ} (i : ℕ) (hb : b < 2 ^ i) : x <<< i ||| b = x * 2 ^ i + b := by
  rw [← Nat.shiftLeft_add_eq_or_of_lt hb, Nat.shiftLeft_eq]

/-- The bytes at an address as a number, the first of them the highest. -/
def number (m : ℕ → UInt8) (s : ℕ) : ℕ → ℕ
  | 0 => 0
  | w + 1 => number m s w * 256 + (m (s + w)).toNat

variable (m : ℕ → UInt8)

theorem number_lt (s w : ℕ) : number m s w < 256 ^ w := by
  induction w with
  | zero => exact Nat.one_pos
  | succ w ih =>
    have := toNat_lt (m (s + w))
    rw [number]
    omega

theorem number_eq_iff (s n w : ℕ) : number m s w = number m n w ↔ ∀ x < w, m (s + x) = m (n + x) := by
  induction w with
  | zero => simp [number]
  | succ w ih =>
    have hs := toNat_lt (m (s + w))
    have hn := toNat_lt (m (n + w))
    rw [Nat.forall_lt_succ_right, ← ih, ← UInt8.toNat_inj, number, number]
    omega

/-- The number of one byte more begins with the byte at the address. -/
theorem number_succ (s w : ℕ) :
    number m s (w + 1) = (m s).toNat * 256 ^ w + number m (s + 1) w := by
  induction w with
  | zero => simp [number]
  | succ w ih =>
    rw [number, ih, number]
    ring

/-- A word of the bytes at an address that slides over memory: the step takes it to the next address, and
it is equal to the one of the needle where the bytes are. -/
structure Slides (m : ℕ → UInt8) (word : ℕ → ℕ) (step : ℕ → UInt8 → ℕ) (w : ℕ) : Prop where
  pos : 0 < w
  step_eq : ∀ s, step (word s) (m (s + w)) = word (s + 1)
  word_eq_iff : ∀ s n, word s = word n ↔ ∀ x < w, m (s + x) = m (n + x)

/-- A word that has the number of the bytes in its upper bits. -/
theorem Slides.of_number {m : ℕ → UInt8} {word : ℕ → ℕ} {step : ℕ → UInt8 → ℕ} {w c : ℕ} (hw : 0 < w) (hc : 0 < c)
    (hword : ∀ s, word s = number m s w * c)
    (hstep : ∀ x b, step (x * c) b = (x * 256 + b.toNat) % 256 ^ w * c) : Slides m word step w where
  pos := hw
  step_eq s := by
    have hnext : number m s w * 256 + (m (s + w)).toNat = number m (s + 1) w + 256 ^ w * (m s).toNat :=
      (number_succ m s w).trans (by ring)
    rw [hword, hstep, hnext, Nat.add_mul_mod_self_left, Nat.mod_eq_of_lt (number_lt m _ w), hword]
  word_eq_iff s n := by
    rw [hword, hword, Nat.mul_left_inj hc.ne', number_eq_iff]

theorem slides_two : Slides m (twobyteWord m) twobyteStep 2 := by
  refine .of_number (c := 1) (by decide) (by decide) (fun s => ?_) fun x b => ?_
  · have h := number_lt m s 2
    rw [twobyteWord, shiftLeft_or 8 (toNat_lt _)]
    simp only [number, add_zero] at h ⊢
    omega
  · rw [twobyteStep, shiftLeft_or 8 (toNat_lt b), mul_one, mul_one]
    rfl

theorem slides_three : Slides m (threebyteWord m) threebyteStep 3 := by
  refine .of_number (c := 2 ^ 8) (by decide) (by decide) (fun s => ?_) fun x b => ?_
  · have h := number_lt m s 3
    have hbits : (m s).toNat <<< 24 ||| (m (s + 1)).toNat <<< 16 ||| (m (s + 2)).toNat <<< 8 =
        (((m s).toNat <<< 8 ||| (m (s + 1)).toNat) <<< 8 ||| (m (s + 2)).toNat) <<< 8 := by
      simp only [Nat.shiftLeft_or_distrib, ← Nat.shiftLeft_add]
    rw [threebyteWord, hbits, shiftLeft_or 8 (toNat_lt _), shiftLeft_or 8 (toNat_lt _)]
    simp only [number, add_zero] at h ⊢
    omega
  · rw [threebyteStep, ← Nat.shiftLeft_eq, shiftLeft_or 8 (toNat_lt b)]
    omega

theorem slides_four : Slides m (fourbyteWord m) fourbyteStep 4 := by
  refine .of_number (c := 1) (by decide) (by decide) (fun s => ?_) fun x b => ?_
  · have h := number_lt m s 4
    have hbits : (m s).toNat <<< 24 ||| (m (s + 1)).toNat <<< 16 ||| (m (s + 2)).toNat <<< 8 ||| (m (s + 3)).toNat =
        (((m s).toNat <<< 8 ||| (m (s + 1)).toNat) <<< 8 ||| (m (s + 2)).toNat) <<< 8 ||| (m (s + 3)).toNat := by
      simp only [Nat.shiftLeft_or_distrib, ← Nat.shiftLeft_add]
    rw [fourbyteWord, hbits, shiftLeft_or 8 (toNat_lt _), shiftLeft_or 8 (toNat_lt _), shiftLeft_or 8 (toNat_lt _)]
    simp only [number, add_zero] at h ⊢
    omega
  · have hmod : (x * 1) <<< 8 % 2 ^ 32 = (x % 2 ^ 24) <<< 8 := by
      omega
    rw [fourbyteStep, hmod, shiftLeft_or 8 (toNat_lt b)]
    omega

section Short

variable {m : ℕ → UInt8} {word : ℕ → ℕ} {step : ℕ → UInt8 → ℕ} {w n h : ℕ}

theorem Slides.occursAt_iff (hS : Slides m word step w) (pos : ℕ) :
    OccursAt (view m h) (view m n) w pos ↔ word (h + pos) = word n := by
  rw [hS.word_eq_iff]
  simp only [OccursAt, view, add_assoc]

theorem not_occursAt_succ {β : Type} {g v : ℕ → β} {l pos : ℕ} (hnone : ∀ q < pos, ¬ OccursAt g v l q)
    (hpos : ¬ OccursAt g v l pos) : ∀ q < pos + 1, ¬ OccursAt g v l q := by
  intro q hq
  rcases (Nat.le_of_lt_succ hq).eq_or_lt with rfl | hlt
  · exact hpos
  · exact hnone q hlt

theorem StringAt.eq_zero_iff {β : Type} [Zero β] {m : ℕ → β} {s len i : ℕ} (h : StringAt m s len)
    (hi : i ≤ len) : m (s + i) = 0 ↔ i = len := by
  constructor
  · intro hz
    by_contra hne
    exact h.ne_zero i (by omega) hz
  · rintro rfl
    exact h.end_zero

theorem StringAt.cases {β : Type} [Zero β] {m : ℕ → β} {s len i : ℕ} (h : StringAt m s len) (hi : i ≤ len) :
    (m (s + i) = 0 ∧ len = i) ∨ m (s + i) ≠ 0 ∧ i < len := by
  rw [ne_eq, h.eq_zero_iff hi]
  omega

/-- **A word slides over a string** to the first occurrence, or to the end. -/
theorem wordStrstr_isFirst (hS : Slides m word step w) {L : ℕ} (hstr : StringAt m h L) {pos : ℕ}
    (fuel : ℕ) (hpos : pos + (w - 1) ≤ L) (hnone : ∀ q < pos, ¬ OccursAt (view m h) (view m n) w q)
    (hfuel : L < fuel + pos) :
    ∃ e r, wordStrstr m step (word n) fuel (h + pos + (w - 1)) (word (h + pos)) = some e ∧
      (if m e ≠ 0 then some (e - (w - 1)) else none) = Option.map (h + ·) r ∧
      IsFirst (view m h) L (view m n) w r := by
  have hw := hS.pos
  induction fuel generalizing pos with
  | zero => omega
  | succ fuel ih =>
    rw [wordStrstr]
    have hzero := hstr.eq_zero_iff hpos
    rw [← add_assoc] at hzero
    by_cases hend : m (h + pos + (w - 1)) = 0
    · -- the window has reached the end of the string
      rw [if_neg (fun hgo => hgo.1 hend)]
      have hlen := hzero.mp hend
      refine ⟨_, none, rfl, if_neg (not_not.mpr hend), fun q hq => hnone q (by omega)⟩
    · have hlt : pos + (w - 1) ≠ L := fun heq => hend (hzero.mpr heq)
      by_cases heq : word (h + pos) = word n
      · rw [if_neg (fun hgo => hgo.2 heq)]
        refine ⟨_, some pos, rfl, ?_, by omega, (hS.occursAt_iff pos).mpr heq, hnone⟩
        rw [if_pos hend, Nat.add_sub_cancel, Option.map_some]
      · have hidx : h + pos + (w - 1) + 1 = h + pos + w := by omega
        have hidx' : h + pos + w = h + (pos + 1) + (w - 1) := by omega
        rw [if_pos ⟨hend, heq⟩, hidx, hS.step_eq, hidx']
        exact ih (by omega) (not_occursAt_succ hnone fun hocc => heq ((hS.occursAt_iff pos).mp hocc))
          (by omega)

/-- The search with a word from the beginning of a string. -/
theorem Slides.strstr_isFirst (hS : Slides m word step w) {L fuel : ℕ} (hstr : StringAt m h L)
    (hw : w - 1 ≤ L) (hfuel : L < fuel) :
    Answers m h L n w (do
      let e ← wordStrstr m step (word n) fuel (h + (w - 1)) (word h)
      some (if m e ≠ 0 then some (e - (w - 1)) else none)) := by
  obtain ⟨e, r, heq, hr, hfirst⟩ := wordStrstr_isFirst hS hstr fuel (by rwa [zero_add])
    (fun q hq => absurd hq (Nat.not_lt_zero q)) hfuel
  rw [add_zero] at heq
  exact ⟨r, by rw [heq]; exact congrArg some hr, hfirst⟩

/-- **A word slides over an array** to the first occurrence, or to the end. -/
theorem wordMemmem_isFirst (hS : Slides m word step w) {pos : ℕ} (k : ℕ)
    (hnone : ∀ q < pos, ¬ OccursAt (view m h) (view m n) w q) :
    ∃ r, wordMemmem m step (word n) w k (h + pos + w) (word (h + pos)) = Option.map (h + ·) r ∧
      IsFirst (view m h) (pos + w + k) (view m n) w r := by
  induction k generalizing pos with
  | zero =>
    rw [wordMemmem]
    by_cases heq : word (h + pos) = word n
    · refine ⟨some pos, ?_, le_refl _, (hS.occursAt_iff pos).mpr heq, hnone⟩
      rw [if_pos heq, Nat.add_sub_cancel, Option.map_some]
    · refine ⟨none, if_neg heq, fun q hq hocc => ?_⟩
      exact not_occursAt_succ hnone (fun hocc' => heq ((hS.occursAt_iff pos).mp hocc')) q
        (by omega) hocc
  | succ k ih =>
    rw [wordMemmem]
    by_cases heq : word (h + pos) = word n
    · refine ⟨some pos, ?_, by omega, (hS.occursAt_iff pos).mpr heq, hnone⟩
      rw [if_pos heq, Nat.add_sub_cancel, Option.map_some]
    · have hidx : h + pos + w + 1 = h + (pos + 1) + w := by omega
      have hlen : pos + w + (k + 1) = pos + 1 + w + k := by omega
      rw [if_neg heq, hS.step_eq, hidx, hlen]
      exact ih (not_occursAt_succ hnone fun hocc => heq ((hS.occursAt_iff pos).mp hocc))

/-- The search with a word from the beginning of an array. -/
theorem Slides.memmem_isFirst (hS : Slides m word step w) {k : ℕ} (hk : w ≤ k) :
    Answers m h k n w (some (wordMemmem m step (word n) w (k - w) (h + w) (word h))) := by
  obtain ⟨r, hr, hfirst⟩ := wordMemmem_isFirst hS (h := h) (n := n) (k - w) fun q hq => absurd hq (Nat.not_lt_zero q)
  rw [zero_add, Nat.add_sub_cancel' hk] at hfirst
  exact ⟨r, congrArg some hr, hfirst⟩

end Short

/-! ## The two-way search -/

instance uint8StrictTotalOrder : IsStrictTotalOrder UInt8 (· < ·) where
  trichotomous _ _ hxy hyx := UInt8.le_antisymm (UInt8.not_lt.mp hyx) (UInt8.not_lt.mp hxy)
  irrefl := UInt8.lt_irrefl
  trans _ _ _ := UInt8.lt_trans

instance int32StrictTotalOrder : IsStrictTotalOrder Int32 (· < ·) where
  trichotomous _ _ hxy hyx := Int32.le_antisymm (Int32.not_lt.mp hyx) (Int32.not_lt.mp hxy)
  irrefl _ := Int32.lt_irrefl
  trans _ _ _ := Int32.lt_trans

section TwoWay

variable {a : Arch} {h n L l fuel : ℕ}

/-- The loop over the needle ends with the shorter one of the two strings, and has the table of the
needle so far. -/
theorem needleLoop_spec {m : ℕ → UInt8} (hstr : StringAt m h L) (hn : StringAt m n l)
    (hl : l < 2 ^ a.bits) (fuel : ℕ) {i : ℕ} {t : Table} (hi : i ≤ min l L)
    (ht : t.Covers a (view m n) i) (hfuel : min l L < fuel + i) :
    ∃ t', needleLoop a m h n fuel i t = some (min l L, t') ∧ t'.Covers a (view m n) (min l L) := by
  induction fuel generalizing i t with
  | zero => omega
  | succ fuel ih =>
    rw [needleLoop]
    have hni := hn.eq_zero_iff (i := i) (by omega)
    have hhi := hstr.eq_zero_iff (i := i) (by omega)
    by_cases hend : i = min l L
    · rw [if_neg (fun hgo => ?_)]
      · exact ⟨t, by rw [hend], hend ▸ ht⟩
      · have h1 : i ≠ l := fun heq => hgo.1 (hni.mpr heq)
        have h2 : i ≠ L := fun heq => hgo.2 (hhi.mpr heq)
        omega
    · rw [if_pos ⟨fun hz => by have := hni.mp hz; omega, fun hz => by have := hhi.mp hz; omega⟩]
      exact ih (by omega) (ht.add (by omega)) (by omega)

theorem needleTable_covers {m : ℕ → UInt8} (junk : ℕ → ℕ) (hl : l < 2 ^ a.bits) :
    (needleTable a m n (Table.empty junk) l).Covers a (view m n) l := by
  induction l with
  | zero => exact Table.Covers.empty a junk _
  | succ l ih =>
    rw [needleTable, List.range_succ, List.foldl_append]
    exact (ih (by omega)).add hl

theorem Search.ok_of_string {β : Type} [Zero β] [DecidableEq β] {S : Search β} {c bound : ℕ}
    {chr0 : ℕ → ℕ → Option ℕ} (hstr : StringAt S.m h L) (hn : StringAt S.m S.n S.l)
    (hL : L < 2 ^ S.arch.bits) (hl : S.l < 2 ^ S.arch.bits) (hbound : S.l < bound)
    (hfac : Factored S.arch S.needle S.l S.f c)
    (hchr : ∀ z k, ∃ r, chr0 z k = r.map (z + ·) ∧ IsFirst (view S.m z) k (fun _ => 0) 1 r)
    (hroom : S.room = stringRoom S.arch chr0 S.l) (hmore : S.more = fun k => decide (S.m (S.n + k) ≠ 0))
    (hskip : ∀ h mem k, S.Remembers h mem → S.skip h mem = some k →
      0 < k ∧ k ≤ S.l ∧ ∀ s < k, ¬ OccursAt S.m S.needle S.l (h + s)) :
    S.Ok h L c bound (fun z => h ≤ z ∧ z ≤ h + L) where
  factored := hfac
  length_lt := hl
  length_lt_bound := hbound
  more_iff k hk := by
    have hz := hn.eq_zero_iff hk
    rw [hmore, decide_eq_true_iff, Ne, hz]
    omega
  good_le _ hz := hz.2
  room_none z pos hz hpz hnone := by
    rw [hroom] at hnone
    rcases stringRoom_spec hstr hL hchr hpz hz.2 with ⟨-, hlt⟩ | ⟨z', heq, -⟩
    · exact hlt
    · rw [heq] at hnone
      cases hnone
  room_some z pos z' hz hpz hsome := by
    rw [hroom] at hsome
    rcases stringRoom_spec hstr hL hchr hpz hz.2 with ⟨heq, -⟩ | ⟨z'', heq, hge, hle, hfit⟩
    · rw [heq] at hsome
      cases hsome
    · rw [heq, Option.some_inj] at hsome
      subst hsome
      exact ⟨⟨hz.1.trans hge, hle⟩, hfit⟩
  skip_some := hskip

theorem Search.ok_of_array {β : Type} {S : Search β} {c bound : ℕ} (hL : L < 2 ^ S.arch.bits)
    (hl : S.l < 2 ^ S.arch.bits) (hbound : S.l < bound) (hfac : Factored S.arch S.needle S.l S.f c)
    (hroom : S.room = endRoom S.arch S.l) (hmore : S.more = fun k => decide (k < S.l))
    (hskip : ∀ h mem k, S.Remembers h mem → S.skip h mem = some k →
      0 < k ∧ k ≤ S.l ∧ ∀ s < k, ¬ OccursAt S.m S.needle S.l (h + s)) :
    S.Ok h L c bound (fun z => z = h + L) where
  factored := hfac
  length_lt := hl
  length_lt_bound := hbound
  more_iff k _ := by
    rw [hmore, decide_eq_true_iff]
  good_le _ hz := hz.le
  room_none z pos hz hpz hnone := by
    subst hz
    by_contra hlt
    rw [hroom, endRoom_spec hL (by omega), if_neg hlt] at hnone
    cases hnone
  room_some z pos z' hz hpz hsome := by
    subst hz
    rw [hroom, endRoom_spec hL (by omega)] at hsome
    split at hsome
    · cases hsome
    · cases hsome
      exact ⟨rfl, by omega⟩
  skip_some := hskip

theorem twowayStrstr_isFirst {m : ℕ → UInt8} (junk : ℕ → ℕ) (hstr : StringAt m h L)
    (hn : StringAt m n l) (hpos : 0 < l) (hL : L < 2 ^ a.bits) (hl : l < 2 ^ a.bits) (hfuel : L + 2 * l < fuel) :
    Answers m h L n l (twowayStrstr a junk m fuel h n) := by
  obtain ⟨t, heq, ht⟩ := needleLoop_spec hstr hn hl fuel (Nat.zero_le _)
    (Table.Covers.empty a junk _) (by omega)
  unfold twowayStrstr
  rw [heq]
  simp only [some_bind]
  by_cases hlt : L < l
  · -- the haystack ended before the needle
    have hne : m (n + min l L) ≠ 0 := by
      rw [min_eq_right hlt.le]
      exact hn.ne_zero L hlt
    rw [if_pos hne]
    exact answers_short hlt
  · have hmin : min l L = l := min_eq_left (by omega)
    rw [hmin] at ht ⊢
    rw [if_neg (not_not.mpr hn.end_zero)]
    obtain ⟨f, c, hfeq, hf⟩ := factorize_spec
      (fun r k => memcmp_eq_zero_iff) hpos hl fuel (by omega)
    rw [hfeq]
    refine Search.Ok.isFirst (Search.ok_of_string hstr hn hL hl ?_ hf
      (fun z k => memchr_isFirst a m z 0 k) rfl rfl fun h' mem k hrem hk => ?_) fuel
      ⟨le_refl h, by omega⟩ (le_refl h) (by omega)
    · show l < fuel
      omega
    · exact Table.skip_spec ht hl hpos (isPeriod_minPeriod _ _) hrem.mem_eq hrem.agree hk

theorem twowayMemmem_isFirst {m : ℕ → UInt8} (junk : ℕ → ℕ) (hpos : 0 < l) (hL : L < 2 ^ a.bits)
    (hl : l < 2 ^ a.bits) (hfuel : L + 2 * l < fuel) :
    Answers m h L n l (twowayMemmem a junk m fuel h (h + L) n l) := by
  obtain ⟨f, c, hfeq, hf⟩ := factorize_spec
    (fun r k => memcmp_eq_zero_iff) hpos hl fuel (by omega)
  unfold twowayMemmem
  rw [hfeq]
  refine Search.Ok.isFirst (Search.ok_of_array hL hl ?_ hf rfl rfl fun h' mem k hrem hk => ?_) fuel
    rfl (by omega) (by omega)
  · show l < fuel
    omega
  · exact Table.skip_spec (needleTable_covers junk hl) hl hpos (isPeriod_minPeriod _ _) hrem.mem_eq
      hrem.agree hk

theorem twowayWcsstr_isFirst {m : ℕ → Int32} (hstr : StringAt m h L) (hn : StringAt m n l)
    (hpos : 0 < l) (hL : L < 2 ^ a.bits) (hl : l < 2 ^ a.bits) (hfuel : L + 2 * l < fuel) :
    Answers m h L n l (twowayWcsstr a m fuel h n) := by
  have hloop : wideNeedleLoop m h n fuel 0 = some (0 + min l L) := by
    apply scanTo_one
    · rcases Nat.le_total l L with hle | hle
      · rw [min_eq_left hle, zero_add, hn.end_zero]
        rfl
      · rw [min_eq_right hle, zero_add, hstr.end_zero]
        exact Bool.or_true _
    · intro i hi
      rw [zero_add, Bool.or_eq_false_iff, beq_eq_false_iff_ne, beq_eq_false_iff_ne]
      exact ⟨hn.ne_zero i (by omega), hstr.ne_zero i (by omega)⟩
    · omega
  unfold twowayWcsstr
  rw [hloop, zero_add, some_bind]
  by_cases hlt : L < l
  · have hne : m (n + min l L) ≠ 0 := by
      rw [min_eq_right hlt.le]
      exact hn.ne_zero L hlt
    rw [if_pos hne]
    exact answers_short hlt
  · have hmin : min l L = l := min_eq_left (by omega)
    rw [hmin, if_neg (not_not.mpr hn.end_zero)]
    obtain ⟨f, c, hfeq, hf⟩ := factorize_spec
      (fun r k => wmemcmp_eq_zero_iff) hpos hl fuel (by omega)
    rw [hfeq]
    refine Search.Ok.isFirst (Search.ok_of_string hstr hn hL hl ?_ hf
      (fun z k => wmemchr_isFirst m z 0 k) rfl rfl fun h' mem k _ hk => ?_) fuel
      ⟨le_refl h, by omega⟩ (le_refl h) (by omega)
    · show l < fuel
      omega
    · cases hk

end TwoWay

/-! ## The functions -/

section Functions

variable {a : Arch} {h n L l fuel : ℕ}

/-- **`strstr`** returns the first position at which the needle occurs. -/
theorem strstr_isFirst {m : ℕ → UInt8} (junk : ℕ → ℕ) (hstr : StringAt m h L) (hn : StringAt m n l)
    (hL : L < 2 ^ a.bits) (hl : l < 2 ^ a.bits) (hfuel : L + 2 * l < fuel) :
    Answers m h L n l (strstr a junk m fuel h n) := by
  unfold strstr
  have hz0 := hn.eq_zero_iff (Nat.zero_le l)
  by_cases h0 : m n = 0
  · obtain rfl := hz0.mp h0
    rw [if_pos h0]
    exact answers_empty m h L n
  rw [if_neg h0]
  have hpos : 0 < l := Nat.pos_of_ne_zero fun h => h0 (hz0.mpr h.symm)
  obtain ⟨r, heq, hr⟩ := strchr_isFirst hstr h0
    (lt_of_le_of_lt (Nat.le_add_right L _) hfuel)
  rw [heq]
  cases r with
  | none => exact answers_absent hpos hr
  | some d =>
    apply answers_of_first hpos hr
    obtain ⟨hd, hocc, -⟩ := hr
    have hstr' : StringAt m (h + d) (L - d) := hstr.drop (by omega)
    simp only [Option.map_some]
    have hd1 : 1 ≤ L - d := by omega
    -- a needle of up to four bytes, if the haystack is not shorter
    rcases hn.cases hpos with ⟨n1, rfl⟩ | ⟨n1, hl1⟩
    · rw [if_pos n1]
      exact answers_one (occursAt_one.mp hocc) hd1
    rw [if_neg n1]
    rcases hstr'.cases hd1 with ⟨h1, hend⟩ | ⟨h1, hd2⟩
    · rw [if_pos h1]
      exact answers_short (by omega)
    rw [if_neg h1]
    rcases hn.cases hl1 with ⟨n2, rfl⟩ | ⟨n2, hl2⟩
    · rw [if_pos n2]
      exact (slides_two m).strstr_isFirst hstr' hd1 (by omega)
    rw [if_neg n2]
    rcases hstr'.cases hd2 with ⟨h2, hend⟩ | ⟨h2, hd3⟩
    · rw [if_pos h2]
      exact answers_short (by omega)
    rw [if_neg h2]
    rcases hn.cases hl2 with ⟨n3, rfl⟩ | ⟨n3, hl3⟩
    · rw [if_pos n3]
      exact (slides_three m).strstr_isFirst hstr' hd2 (by omega)
    rw [if_neg n3]
    rcases hstr'.cases hd3 with ⟨h3, hend⟩ | ⟨h3, -⟩
    · rw [if_pos h3]
      exact answers_short (by omega)
    rw [if_neg h3]
    rcases hn.cases hl3 with ⟨n4, rfl⟩ | ⟨n4, -⟩
    · rw [if_pos n4]
      exact (slides_four m).strstr_isFirst hstr' hd3 (by omega)
    rw [if_neg n4]
    exact twowayStrstr_isFirst junk hstr' hn hpos (by omega) hl (by omega)

/-- **`memmem`** returns the first position at which the needle occurs. -/
theorem memmem_isFirst (junk : ℕ → ℕ) (h n : ℕ) (hL : L < 2 ^ a.bits)
    (hl : l < 2 ^ a.bits) (hfuel : L + 2 * l < fuel) :
    Answers m h L n l (memmem a junk m fuel h L n l) := by
  unfold memmem
  by_cases h0 : l = 0
  · subst h0
    exact answers_empty m h L n
  rw [if_neg h0]
  have hpos : 0 < l := Nat.pos_of_ne_zero h0
  by_cases hlt : L < l
  · rw [if_pos hlt]
    exact answers_short (by omega)
  rw [if_neg hlt]
  obtain ⟨r, heq, hr⟩ := memchr_isFirst a m h (m n) L
  rw [heq]
  cases r with
  | none => exact answers_absent hpos hr
  | some d =>
    apply answers_of_first hpos hr
    obtain ⟨hd, hocc, -⟩ := hr
    simp only [Option.map_some, Nat.add_sub_cancel_left]
    by_cases h1 : l = 1
    · subst h1
      exact answers_one (occursAt_one.mp hocc) (by omega)
    rw [if_neg h1]
    by_cases hlt' : L - d < l
    · rw [if_pos hlt']
      exact answers_short (by omega)
    rw [if_neg hlt']
    by_cases h2 : l = 2
    · subst h2
      exact (slides_two m).memmem_isFirst (not_lt.mp hlt')
    rw [if_neg h2]
    by_cases h3 : l = 3
    · subst h3
      exact (slides_three m).memmem_isFirst (not_lt.mp hlt')
    rw [if_neg h3]
    by_cases h4 : l = 4
    · subst h4
      exact (slides_four m).memmem_isFirst (not_lt.mp hlt')
    rw [if_neg h4]
    exact twowayMemmem_isFirst junk hpos (by omega) hl (by omega)

/-- **`wcsstr`** returns the first position at which the needle occurs. -/
theorem wcsstr_isFirst {m : ℕ → Int32} (hstr : StringAt m h L) (hn : StringAt m n l)
    (hL : L < 2 ^ a.bits) (hl : l < 2 ^ a.bits) (hfuel : L + 2 * l < fuel) :
    Answers m h L n l (wcsstr a m fuel h n) := by
  unfold wcsstr
  have hz0 := hn.eq_zero_iff (Nat.zero_le l)
  by_cases n0 : m n = 0
  · obtain rfl := hz0.mp n0
    rw [if_pos n0]
    exact answers_empty m h L n
  rw [if_neg n0]
  have hpos : 0 < l := Nat.pos_of_ne_zero fun h => n0 (hz0.mpr h.symm)
  by_cases h0 : m h = 0
  · have hend := (hstr.eq_zero_iff (Nat.zero_le L)).mp h0
    rw [if_pos h0]
    exact answers_short (by omega)
  rw [if_neg h0]
  obtain ⟨r, heq, hr⟩ := wcschr_isFirst hstr n0 (lt_of_le_of_lt (Nat.le_add_right L _) hfuel)
  rw [heq]
  cases r with
  | none => exact answers_absent hpos hr
  | some d =>
    apply answers_of_first hpos hr
    obtain ⟨hd, hocc, -⟩ := hr
    have hstr' : StringAt m (h + d) (L - d) := hstr.drop (by omega)
    simp only [Option.map_some]
    have hd1 : 1 ≤ L - d := by omega
    rcases hn.cases hpos with ⟨n1, rfl⟩ | ⟨n1, hl1⟩
    · rw [if_pos n1]
      exact answers_one (occursAt_one.mp hocc) hd1
    rw [if_neg n1]
    rcases hstr'.cases hd1 with ⟨h1, hend⟩ | ⟨h1, -⟩
    · rw [if_pos h1]
      exact answers_short (by omega)
    rw [if_neg h1]
    exact twowayWcsstr_isFirst hstr' hn hpos (by omega) hl (by omega)

end Functions

/-- **Substring search is correct**: on strings, on arrays with their lengths and on wide strings, for
every haystack and every needle, the search ends and returns the first position at which the needle
occurs, and null where it occurs nowhere. The lengths are those of objects in memory, and `junk` is
whatever the stack holds. -/
theorem substring_search_correct (a : Arch) (junk : ℕ → ℕ) :
    (∀ (m : ℕ → UInt8) (h L n l : ℕ), StringAt m h L → StringAt m n l → L < 2 ^ a.bits →
      l < 2 ^ a.bits → ∀ fuel, L + 2 * l < fuel →
        ∃ r, strstr a junk m fuel h n = some (r.map (h + ·)) ∧
          IsFirst (view m h) L (view m n) l r) ∧
    (∀ (m : ℕ → UInt8) (h L n l : ℕ), L < 2 ^ a.bits → l < 2 ^ a.bits → ∀ fuel, L + 2 * l < fuel →
      ∃ r, memmem a junk m fuel h L n l = some (r.map (h + ·)) ∧
        IsFirst (view m h) L (view m n) l r) ∧
    (∀ (m : ℕ → Int32) (h L n l : ℕ), StringAt m h L → StringAt m n l → L < 2 ^ a.bits →
      l < 2 ^ a.bits → ∀ fuel, L + 2 * l < fuel →
        ∃ r, wcsstr a m fuel h n = some (r.map (h + ·)) ∧
          IsFirst (view m h) L (view m n) l r) := by
  refine ⟨?_, ?_, ?_⟩
  · intro m h L n l hstr hn hL hl fuel hfuel
    exact strstr_isFirst junk hstr hn hL hl hfuel
  · intro m h L n l hL hl fuel hfuel
    exact memmem_isFirst m junk h n hL hl hfuel
  · intro m h L n l hstr hn hL hl fuel hfuel
    exact wcsstr_isFirst hstr hn hL hl hfuel

/-- The needle `abaab` in `aabaabab`, as strings one after the other in memory. -/
def searchBytes : ℕ → UInt8 :=
  fun x => ([97, 97, 98, 97, 97, 98, 97, 98, 0, 97, 98, 97, 97, 98, 0] : List UInt8).getD x 0

/-- The same as wide strings. -/
def searchWide : ℕ → Int32 :=
  fun x => ([97, 97, 98, 97, 97, 98, 97, 98, 0, 97, 98, 97, 97, 98, 0] : List Int32).getD x 0

theorem substring_search_correct_periodic :
    (∃ r, strstr .x86_64 (fun _ => 7) searchBytes 19 0 9 = some (r.map (0 + ·)) ∧
      IsFirst (view searchBytes 0) 8 (view searchBytes 9) 5 r) ∧
    (∃ r, memmem .x86_64 (fun _ => 7) searchBytes 19 0 8 9 5 = some (r.map (0 + ·)) ∧
      IsFirst (view searchBytes 0) 8 (view searchBytes 9) 5 r) ∧
    (∃ r, wcsstr .x86_64 searchWide 19 0 9 = some (r.map (0 + ·)) ∧
      IsFirst (view searchWide 0) 8 (view searchWide 9) 5 r) := by
  obtain ⟨hs, hm, hw⟩ := substring_search_correct .x86_64 (fun _ => 7)
  exact ⟨hs searchBytes 0 8 9 5 ⟨by decide, by decide⟩ ⟨by decide, by decide⟩ (by decide) (by decide)
      19 (by decide),
    hm searchBytes 0 8 9 5 (by decide) (by decide) 19 (by decide),
    hw searchWide 0 8 9 5 ⟨by decide, by decide⟩ ⟨by decide, by decide⟩ (by decide) (by decide) 19
      (by decide)⟩

example : strstr .x86_64 (fun _ => 7) searchBytes 19 0 9 = some (some 1) := by decide +kernel

end Leblibc.Str
