import Mathlib.Algebra.Order.Group.Nat
import Mathlib.Order.Lattice.Nat
import Mathlib.Order.RelClasses
import Mathlib.Tactic.Common

/-!
# Words, periods and critical factorizations

A word of length `l` is given by its letters `n 0, …, n (l - 1)`. Its suffixes are compared letter by
letter, a suffix being smaller than the longer ones that it begins. The maximal suffixes of a word
under an order of the letters and under the opposite order give, the shorter one of the two, a critical
factorization: at its position no repetition is shorter than the period of the whole word.

## Main definitions

* `Mismatch lt n i j t`: the words that begin at `i` and `j` agree for `t` letters, and then the first
  one has the smaller letter
* `MaxSuffix lt n l i`: the suffix that begins at `i` is the maximal one
* `Scan lt n l i p m`: how far a search for the maximal suffix has come
* `IsPeriod n l p`, `minPeriod n l`: periods of a word, and the smallest one
* `Repeats n l c s`: around the position `c` the word repeats itself at the distance `s`
* `IsCritical n l c`: no repetition around `c` is shorter than the period of the word
* `OccursAt h n l pos`, `IsFirst h L n l`: the occurrences of a word in a text, and the first one

## Main results

* `Scan.step_eq`, `Scan.step_lt`, `Scan.step_gt`: the steps of the search
* `MaxSuffix.isCritical`: the critical factorization theorem
* `IsCritical.minPeriod_eq`: the period of the word, from that of its critical suffix
* `IsCritical.not_occursAt_of_right`, `IsCritical.not_occursAt_of_match`, `not_occursAt_of_last`,
  `not_occursAt_of_prefix`: how far a search may move the word along the text
-/

namespace Leblibc.Lib

variable {α : Type*} {lt : α → α → Prop} {n : ℕ → α} {l : ℕ}

/-! ## Comparing suffixes -/

/-- The words that begin at `i` and `j` agree for `t` letters, and then the first one has the smaller
letter. -/
def Mismatch (lt : α → α → Prop) (n : ℕ → α) (i j t : ℕ) : Prop :=
  (∀ x < t, n (i + x) = n (j + x)) ∧ lt (n (i + t)) (n (j + t))

theorem Mismatch.trans [IsTrans α lt] {i j k t t' : ℕ} (h : Mismatch lt n i j t)
    (h' : Mismatch lt n j k t') : Mismatch lt n i k (min t t') := by
  refine ⟨fun x hx => ?_, ?_⟩
  · rw [h.1 x (lt_of_lt_of_le hx (min_le_left _ _)), h'.1 x (lt_of_lt_of_le hx (min_le_right _ _))]
  · rcases lt_trichotomy t t' with htt | rfl | htt
    · rw [min_eq_left htt.le, ← h'.1 t htt]
      exact h.2
    · rw [min_self]
      exact trans_of lt h.2 h'.2
    · rw [min_eq_right htt.le, h.1 t' htt]
      exact h'.2

/-- The suffix that begins at `i` is the maximal one of a word of length `l`. -/
structure MaxSuffix (lt : α → α → Prop) (n : ℕ → α) (l i : ℕ) : Prop where
  lt_length : i < l
  left : ∀ i' < i, ∃ t, i + t < l ∧ Mismatch lt n i' i t
  right : ∀ i', i < i' → i' < l →
    (∃ t, i' + t < l ∧ Mismatch lt n i' i t) ∨ ∀ x, i' + x < l → n (i' + x) = n (i + x)

/-! ## Searching for the maximal suffix -/

/-- The suffix that begins at `i` is larger than all those that begin before it, and the maximal one
among the others as far as the first `m` letters tell; `p` is its smallest period there. -/
structure Scan (lt : α → α → Prop) (n : ℕ → α) (l i p m : ℕ) : Prop where
  le_length : m ≤ l
  period_pos : 0 < p
  period_le : i + p ≤ m
  left : ∀ i' < i, ∃ t, i + t < l ∧ Mismatch lt n i' i t
  right : ∀ i', i < i' → i' < m →
    (∃ t, i' + t < m ∧ Mismatch lt n i' i t) ∨ ∀ x, i' + x < m → n (i' + x) = n (i + x)
  period : ∀ x, i ≤ x → x + p < m → n x = n (x + p)
  minimal : ∀ q, 0 < q → (∀ x, i ≤ x → x + q < m → n x = n (x + q)) → p ≤ q

theorem Scan.init (h : 0 < l) : Scan lt n l 0 1 1 where
  le_length := h
  period_pos := Nat.one_pos
  period_le := le_refl _
  left i' hi' := absurd hi' (Nat.not_lt_zero _)
  right i' hi hi' := absurd hi' (by omega)
  period x _ hx := absurd hx (by omega)
  minimal q hq _ := hq

/-- At the end of the word the search has found the maximal suffix. -/
theorem Scan.maxSuffix {i p : ℕ} (h : Scan lt n l i p l) : MaxSuffix lt n l i where
  lt_length := by
    have := h.period_le
    have := h.period_pos
    omega
  left := h.left
  right := h.right

theorem Scan.period_mul {i p m : ℕ} (h : Scan lt n l i p m) (e : ℕ) :
    ∀ x, i ≤ x → x + e * p < m → n x = n (x + e * p) := by
  induction e with
  | zero =>
    intro x _ _
    rw [Nat.zero_mul, add_zero]
  | succ e ih =>
    intro x hi hx
    rw [Nat.succ_mul] at hx
    rw [ih x hi (by omega), h.period (x + e * p) (by omega) (by omega), Nat.succ_mul, add_assoc]

section Steps

variable [IsStrictTotalOrder α lt] {i p m : ℕ}

/-- Where the suffix has another period `q`, the letter that would continue it with this period is no
smaller than the one that would continue it with the smallest period. -/
theorem Scan.not_lt_of_period (h : Scan lt n l i p m) {q : ℕ} (hq : 0 < q) (hle : i + q ≤ m)
    (hper : ∀ x, i ≤ x → x + q < m → n x = n (x + q)) : ¬ lt (n (m - q)) (n (m - p)) := by
  have hpq := h.minimal q hq hper
  have hp := h.period_pos
  rcases hpq.eq_or_lt with rfl | hlt
  · exact irrefl _
  -- the suffix that begins at `i + (q - p)` begins with a border of length `m - i - q`
  have hborder : ∀ x, x < m - i - q → n (i + (q - p) + x) = n (i + x) := by
    intro x hx
    rw [h.period (i + (q - p) + x) (by omega) (by omega), hper (i + x) (by omega) (by omega)]
    congr 1
    omega
  have hleft : i + (q - p) + (m - i - q) = m - p := by omega
  have hright : i + (m - i - q) = m - q := by omega
  rcases h.right (i + (q - p)) (by omega) (by omega) with ⟨t, -, heq, hlt'⟩ | heq
  · rcases lt_trichotomy t (m - i - q) with ht | rfl | ht
    · rw [hborder t ht] at hlt'
      exact absurd hlt' (irrefl _)
    · rw [hleft, hright] at hlt'
      exact asymm hlt'
    · have := heq (m - i - q) ht
      rw [hleft, hright] at this
      rw [this]
      exact irrefl _
  · have := heq (m - i - q) (by omega)
    rw [hleft, hright] at this
    rw [this]
    exact irrefl _

/-- What the next letter says about a suffix that begins after `i` and agrees with the one at `i` so
far. -/
theorem Scan.not_lt_of_agree (h : Scan lt n l i p m) {i' : ℕ} (hi : i < i') (hi' : i' ≤ m)
    (heq : ∀ x, i' + x < m → n (i' + x) = n (i + x)) :
    ¬ lt (n (i + (m - i'))) (n (m - p)) := by
  have hper : ∀ x, i ≤ x → x + (i' - i) < m → n x = n (x + (i' - i)) := by
    intro x hx hxm
    have := heq (x - i) (by omega)
    have h1 : i' + (x - i) = x + (i' - i) := by omega
    have h2 : i + (x - i) = x := by omega
    rw [h1, h2] at this
    exact this.symm
  have := h.not_lt_of_period (by omega) (by omega) hper
  have hidx : m - (i' - i) = i + (m - i') := by omega
  rwa [hidx] at this

/-- The suffix of no letters agrees with every other one. -/
theorem Scan.right_le (h : Scan lt n l i p m) {i' : ℕ} (hi : i < i') (hi' : i' ≤ m) :
    (∃ t, i' + t < m ∧ Mismatch lt n i' i t) ∨ ∀ x, i' + x < m → n (i' + x) = n (i + x) := by
  rcases hi'.eq_or_lt with rfl | hlt
  · exact Or.inr fun x hx => by omega
  · exact h.right i' hi hlt

/-- **The next letter continues the period.** -/
theorem Scan.step_eq (h : Scan lt n l i p m) (hm : m < l) (heq : n m = n (m - p)) :
    Scan lt n l i p (m + 1) where
  le_length := hm
  period_pos := h.period_pos
  period_le := h.period_le.trans (Nat.le_succ m)
  left := h.left
  right i' hi hi' := by
    -- a suffix that agrees so far either goes on agreeing or meets a larger letter
    have hagree : (∀ x, i' + x < m → n (i' + x) = n (i + x)) →
        (∃ t, i' + t < m + 1 ∧ Mismatch lt n i' i t) ∨
          ∀ x, i' + x < m + 1 → n (i' + x) = n (i + x) := by
      intro hx
      have hnot := h.not_lt_of_agree hi (by omega) hx
      rw [← heq] at hnot
      have hidx : i' + (m - i') = m := by omega
      rcases trichotomous_of lt (n m) (n (i + (m - i'))) with hlt | heq' | hgt
      · left
        refine ⟨m - i', by omega, fun x hxt => hx x (by omega), ?_⟩
        rw [hidx]
        exact hlt
      · right
        intro x hxm
        by_cases hlast : i' + x = m
        · have : x = m - i' := by omega
          rw [hlast, heq', this]
        · exact hx x (by omega)
      · exact absurd hgt hnot
    rcases h.right_le hi (by omega) with ⟨t, ht, hmis⟩ | hx
    · exact Or.inl ⟨t, by omega, hmis⟩
    · exact hagree hx
  period x hi hx := by
    by_cases hlast : x + p = m
    · have : x = m - p := by omega
      rw [hlast, heq, this]
    · exact h.period x hi (by omega)
  minimal q hq hper := h.minimal q hq fun x hi hx => hper x hi (by omega)

/-- **The next letter is smaller**: the whole suffix becomes its own smallest period. -/
theorem Scan.step_lt (h : Scan lt n l i p m) (hm : m < l) (hlt : lt (n m) (n (m - p))) :
    Scan lt n l i (m + 1 - i) (m + 1) where
  le_length := hm
  period_pos := by
    have := h.period_le
    omega
  period_le := by
    have := h.period_le
    omega
  left := h.left
  right i' hi hi' := by
    have hagree : (∀ x, i' + x < m → n (i' + x) = n (i + x)) →
        ∃ t, i' + t < m + 1 ∧ Mismatch lt n i' i t := by
      intro hx
      have hnot := h.not_lt_of_agree hi (by omega) hx
      refine ⟨m - i', by omega, fun x hxt => hx x (by omega), ?_⟩
      have hidx : i' + (m - i') = m := by omega
      rw [hidx]
      rcases trichotomous_of lt (n m) (n (i + (m - i'))) with hlt' | heq' | hgt
      · exact hlt'
      · exact absurd (heq' ▸ hlt) hnot
      · exact absurd (trans_of lt hgt hlt) hnot
    left
    rcases h.right_le hi (by omega) with ⟨t, ht, hmis⟩ | hx
    · exact ⟨t, by omega, hmis⟩
    · exact hagree hx
  period x _ hx := by
    omega
  minimal q hq hper := by
    by_contra hlt'
    have hle : i + q ≤ m := by omega
    have hnot := h.not_lt_of_period hq hle fun x hi hx => hper x hi (by omega)
    have := hper (m - q) (by omega) (by omega)
    have hidx : m - q + q = m := by omega
    rw [hidx] at this
    rw [this] at hnot
    exact hnot hlt

/-- **The next letter is larger**: the last, unfinished period of the suffix begins a larger one. -/
theorem Scan.step_gt (h : Scan lt n l i p m) (hm : m < l) (hgt : lt (n (m - p)) (n m)) {e : ℕ}
    (hjm : i + e * p ≤ m) (hmj : m < i + e * p + p) : Scan lt n l (i + e * p) 1 (i + e * p + 1) where
  le_length := by omega
  period_pos := Nat.one_pos
  period_le := le_refl _
  left i' hi' := by
    have hp := h.period_le
    -- the letter at `r` after the beginning of every period is the one that was expected
    have hexp : n (i + (m - (i + e * p))) = n (m - p) := by
      cases e with
      | zero => omega
      | succ e =>
        rw [Nat.succ_mul] at hjm hmj ⊢
        rw [h.period_mul e _ (by omega) (by omega)]
        congr 1
        omega
    have hpre : ∀ x, i + e * p + x < m → n (i + x) = n (i + e * p + x) := by
      intro x hx
      rw [h.period_mul e (i + x) (by omega) (by omega)]
      congr 1
      omega
    have hbase : Mismatch lt n i (i + e * p) (m - (i + e * p)) := by
      refine ⟨fun x hx => hpre x (by omega), ?_⟩
      have hidx : i + e * p + (m - (i + e * p)) = m := by omega
      rw [hexp, hidx]
      exact hgt
    rcases lt_trichotomy i' i with hlt | rfl | hlt
    · obtain ⟨t, -, hmis⟩ := h.left i' hlt
      exact ⟨min t (m - (i + e * p)), by omega, hmis.trans hbase⟩
    · exact ⟨m - (i' + e * p), by omega, hbase⟩
    · rcases h.right i' hlt (by omega) with ⟨t, ht, hmis⟩ | heq
      · exact ⟨min t (m - (i + e * p)), by omega, hmis.trans hbase⟩
      · refine ⟨m - (i + e * p), by omega, fun x hx => ?_, ?_⟩
        · rw [heq x (by omega), hpre x (by omega)]
        · rw [heq _ (by omega)]
          exact hbase.2
  right i' hi hi' := absurd hi' (by omega)
  period x hi hx := absurd hx (by omega)
  minimal q hq _ := hq

end Steps

/-! ## Periods and repetitions -/

/-- `p` is a period of a word of length `l`. -/
def IsPeriod (n : ℕ → α) (l p : ℕ) : Prop :=
  0 < p ∧ ∀ x, x + p < l → n x = n (x + p)

/-- The smallest period of a word. -/
noncomputable def minPeriod (n : ℕ → α) (l : ℕ) : ℕ :=
  sInf {p | IsPeriod n l p}

theorem isPeriod_minPeriod (n : ℕ → α) (l : ℕ) : IsPeriod n l (minPeriod n l) := by
  refine Nat.sInf_mem (s := {p | IsPeriod n l p}) ⟨l + 1, Nat.succ_pos l, fun x hx => ?_⟩
  omega

theorem minPeriod_le {p : ℕ} (h : IsPeriod n l p) : minPeriod n l ≤ p :=
  Nat.sInf_le h

theorem IsPeriod.add_mul {p : ℕ} (h : IsPeriod n l p) (e : ℕ) {x : ℕ} (hx : x + e * p < l) :
    n x = n (x + e * p) := by
  induction e with
  | zero => rw [Nat.zero_mul, add_zero]
  | succ e ih =>
    rw [Nat.succ_mul] at hx
    rw [ih (by omega), h.2 (x + e * p) (by omega), Nat.succ_mul, add_assoc]

/-- Around the position `c` the word repeats itself at the distance `s`, as far as it reaches. -/
def Repeats (n : ℕ → α) (l c s : ℕ) : Prop :=
  ∀ t < c, c ≤ t + s → t + s < l → n t = n (t + s)

/-- `c` is a critical position: it lies in the first period of the word, and no repetition around it is
shorter than the period. -/
structure IsCritical (n : ℕ → α) (l c : ℕ) : Prop where
  lt_length : c < l
  lt_minPeriod : c < minPeriod n l
  minPeriod_le : ∀ s, 0 < s → Repeats n l c s → minPeriod n l ≤ s

section Critical

variable [IsStrictTotalOrder α lt] {c i s : ℕ}

theorem MaxSuffix.lt_isPeriod (h : MaxSuffix lt n l c) {p : ℕ} (hp : IsPeriod n l p) : c < p := by
  by_contra hle
  obtain ⟨t, ht, -, hlt⟩ := h.left (c - p) (by have := hp.1; omega)
  have heq := hp.2 (c - p + t) (by omega)
  have hidx : c - p + t + p = c + t := by omega
  rw [hidx] at heq
  rw [heq] at hlt
  exact irrefl _ hlt

/-- No repetition around the beginning of a maximal suffix lies within the letters before it. -/
theorem MaxSuffix.lt_of_repeats (h : MaxSuffix lt n l c) (hs : 0 < s) (hrep : Repeats n l c s) :
    c < s := by
  by_contra hle
  obtain ⟨t, ht, heq, hlt⟩ := h.left (c - s) (by omega)
  rcases Nat.lt_or_ge t s with hts | hts
  · -- the difference would lie in the repetition
    have := hrep (c - s + t) (by omega) (by omega) (by omega)
    have hidx : c - s + t + s = c + t := by omega
    rw [hidx] at this
    rw [this] at hlt
    exact irrefl _ hlt
  · -- the difference lies behind it, so the suffix at `c + s` would be larger than the one at `c`
    have hmis : Mismatch lt n c (c + s) (t - s) := by
      constructor
      · intro x hx
        have := heq (s + x) (by omega)
        have h1 : c - s + (s + x) = c + x := by omega
        rw [h1, ← add_assoc] at this
        exact this
      · have h1 : c - s + t = c + (t - s) := by omega
        have h2 : c + t = c + s + (t - s) := by omega
        rwa [h1, h2] at hlt
    rcases h.right (c + s) (by omega) (by omega) with ⟨t', -, hmis'⟩ | heq'
    · exact irrefl _ (hmis.trans hmis').2
    · have := heq' (t - s) (by omega)
      exact irrefl _ (this ▸ hmis.2)

/-- A repetition that reaches back to the beginning of the word is one of the whole word. -/
theorem MaxSuffix.isPeriod_of_repeats (h : MaxSuffix lt n l c) (h' : MaxSuffix (Function.swap lt) n l i)
    (hic : i ≤ c) (hcs : c < s) (hrep : Repeats n l c s) : IsPeriod n l s := by
  refine ⟨by omega, fun x hx => ?_⟩
  rcases Nat.lt_or_ge x c with hxc | hxc
  · exact hrep x hxc (by omega) hx
  rcases h.right (c + s) (by omega) (by omega) with ⟨t, ht, heq, hlt⟩ | heq
  · -- the opposite order compares the suffixes at `s + i` and `i`, which differ at the same place
    exfalso
    have hpre : ∀ y < c - i + t, n (s + i + y) = n (i + y) := by
      intro y hy
      rcases Nat.lt_or_ge (i + y) c with hyc | hyc
      · rw [hrep (i + y) hyc (by omega) (by omega)]
        congr 1
        omega
      · have := heq (i + y - c) (by omega)
        have h1 : c + s + (i + y - c) = s + i + y := by omega
        have h2 : c + (i + y - c) = i + y := by omega
        rwa [h1, h2] at this
    have h1 : s + i + (c - i + t) = c + s + t := by omega
    have h2 : i + (c - i + t) = c + t := by omega
    rcases h'.right (s + i) (by omega) (by omega) with ⟨t', -, heq', hlt'⟩ | heq'
    · rcases lt_trichotomy t' (c - i + t) with hlt'' | rfl | hgt
      · rw [hpre t' hlt''] at hlt'
        exact irrefl _ hlt'
      · rw [h1, h2] at hlt'
        exact asymm hlt hlt'
      · have := heq' (c - i + t) hgt
        rw [h1, h2] at this
        exact irrefl _ (this ▸ hlt)
    · have := heq' (c - i + t) (by omega)
      rw [h1, h2] at this
      exact irrefl _ (this ▸ hlt)
  · have := heq (x - c) (by omega)
    have h1 : c + s + (x - c) = x + s := by omega
    have h2 : c + (x - c) = x := by omega
    rw [h1, h2] at this
    exact this.symm

/-- **The critical factorization theorem**: of the maximal suffixes under an order and under the
opposite one, the shorter one begins at a critical position. -/
theorem MaxSuffix.isCritical (h : MaxSuffix lt n l c) (h' : MaxSuffix (Function.swap lt) n l i) (hic : i ≤ c) :
    IsCritical n l c where
  lt_length := h.lt_length
  lt_minPeriod := h.lt_isPeriod (isPeriod_minPeriod n l)
  minPeriod_le _ hs hrep :=
    Lib.minPeriod_le (h.isPeriod_of_repeats h' hic (h.lt_of_repeats hs hrep) hrep)

end Critical

section Shifts

variable {c s : ℕ}

/-- **A repetition within the word** is of a multiple of the period. -/
theorem IsCritical.minPeriod_dvd (h : IsCritical n l c) (hrep : Repeats n l c s) (hle : c + s ≤ l) :
    minPeriod n l ∣ s := by
  have hper := isPeriod_minPeriod n l
  by_contra hdvd
  have hpos : 0 < s % minPeriod n l := Nat.pos_of_ne_zero fun h0 => hdvd (Nat.dvd_of_mod_eq_zero h0)
  have hdiv : s % minPeriod n l + s / minPeriod n l * minPeriod n l = s := Nat.mod_add_div' s _
  -- the remainder would be a shorter repetition
  have hmod : Repeats n l c (s % minPeriod n l) := by
    intro t ht hct _
    rw [hrep t ht (by omega) (by omega), hper.add_mul (s / minPeriod n l)
      (x := t + s % minPeriod n l) (by omega), add_assoc, hdiv]
  exact absurd (h.minPeriod_le _ hpos hmod) (Nat.not_le.mpr (Nat.mod_lt _ hper.1))

/-- **The period of the word from that of its critical suffix**: if the word has a period no longer
than the suffix, then it is that of the suffix. -/
theorem IsCritical.minPeriod_eq (h : IsCritical n l c) {p : ℕ} (hp : 0 < p)
    (hper : ∀ e x, c ≤ x → x + e * p < l → n x = n (x + e * p))
    (hmin : ∀ q, 0 < q → (∀ x, c ≤ x → x + q < l → n x = n (x + q)) → p ≤ q)
    (hle : minPeriod n l ≤ l - c) : minPeriod n l = p := by
  have hP := isPeriod_minPeriod n l
  have hpP : p ≤ minPeriod n l := hmin _ hP.1 fun x _ hx => hP.2 x hx
  -- what is left of the period of the word after as many periods of the suffix as fit before its end
  set e := (minPeriod n l - 1) / p with he
  have hdiv := Nat.mod_add_div' (minPeriod n l - 1) p
  have hmod := Nat.mod_lt (minPeriod n l - 1) hp
  rw [← he] at hdiv
  have hrep : Repeats n l c (minPeriod n l - e * p) := by
    intro t ht hct htl
    rw [hper e (t + _) hct (by omega), hP.2 t (by omega)]
    congr 1
    omega
  have := h.minPeriod_le _ (by omega) hrep
  omega

end Shifts

/-! ## Occurrences -/

/-- The word of length `l` occurs in the text at `pos`. -/
def OccursAt (h n : ℕ → α) (l pos : ℕ) : Prop :=
  ∀ x < l, h (pos + x) = n x

/-- The first occurrence of a word in a text of length `L`, or none. -/
def IsFirst (h : ℕ → α) (L : ℕ) (n : ℕ → α) (l : ℕ) : Option ℕ → Prop
  | some pos => pos + l ≤ L ∧ OccursAt h n l pos ∧ ∀ q < pos, ¬ OccursAt h n l q
  | none => ∀ q, q + l ≤ L → ¬ OccursAt h n l q

section Occurrences

variable {h : ℕ → α} {c pos : ℕ}

/-- **A mismatch to the right of a critical position**: the word does not occur before the position has
passed the mismatch. -/
theorem IsCritical.not_occursAt_of_right (hc : IsCritical n l c) {k : ℕ} (hck : c ≤ k) (hk : k < l)
    (heq : ∀ x, c ≤ x → x < k → h (pos + x) = n x) (hne : h (pos + k) ≠ n k) {s : ℕ}
    (hs : s ≤ k - c) : ¬ OccursAt h n l (pos + s) := by
  intro hocc
  have hrep : Repeats n l c s := by
    intro t ht hct _
    rw [← hocc t (by omega), ← heq (t + s) hct (by omega)]
    congr 1
    omega
  obtain ⟨e, he⟩ := hc.minPeriod_dvd hrep (by omega)
  -- the letter that the occurrence has at the mismatch is the one which the period puts there
  have hper := (isPeriod_minPeriod n l).add_mul e (x := k - s) (by rw [mul_comm]; omega)
  have hocc' := hocc (k - s) (by omega)
  have h1 : pos + s + (k - s) = pos + k := by omega
  have h2 : k - s + e * minPeriod n l = k := by rw [mul_comm]; omega
  rw [h1] at hocc'
  rw [h2] at hper
  exact hne (hocc'.trans hper)

/-- **A match to the right of a critical position**: the next occurrence is a period away. -/
theorem IsCritical.not_occursAt_of_match (hc : IsCritical n l c)
    (heq : ∀ x, c ≤ x → x < l → h (pos + x) = n x) {s : ℕ} (hpos : 0 < s) (hs : s < minPeriod n l) :
    ¬ OccursAt h n l (pos + s) := by
  intro hocc
  have hrep : Repeats n l c s := by
    intro t ht hct htl
    rw [← hocc t (by have := hc.lt_length; omega), ← heq (t + s) hct htl]
    congr 1
    omega
  exact absurd (hc.minPeriod_le s hpos hrep) (by omega)

/-- A match to the right of a critical position is, a period on, one of the beginning of the word. -/
theorem IsCritical.prefix_after_period (hc : IsCritical n l c) (heq : ∀ x, c ≤ x → x < l → h (pos + x) = n x) :
    ∀ x < l - minPeriod n l, h (pos + minPeriod n l + x) = n x := by
  intro x hx
  have hlt := hc.lt_minPeriod
  rw [(isPeriod_minPeriod n l).2 x (by omega), ← heq (x + minPeriod n l) (by omega) (by omega)]
  congr 1
  omega

/-- **The last letter**: the word does not occur before the letter of the text that is at the end of the
window has passed its last occurrence in the word. -/
theorem not_occursAt_of_last {j : ℕ} (hj : ∀ y < l, n y = h (pos + (l - 1)) → y < j) {s : ℕ}
    (hs : s < l - j) : ¬ OccursAt h n l (pos + s) := by
  intro hocc
  have hidx : pos + s + (l - 1 - s) = pos + (l - 1) := by omega
  have := hocc (l - 1 - s) (by omega)
  rw [hidx] at this
  exact absurd (hj _ (by omega) this.symm) (by omega)

/-- **The last letter after a period**: where the beginning of the word is known to match up to its
last period and the last letter does not match, the word does not occur before that beginning has
been passed. -/
theorem not_occursAt_of_prefix {p : ℕ} (hper : IsPeriod n l p)
    (heq : ∀ x < l - p, h (pos + x) = n x) (hne : h (pos + (l - 1)) ≠ n (l - 1)) {s : ℕ}
    (hs : s < l - p) : ¬ OccursAt h n l (pos + s) := by
  intro hocc
  -- both the occurrence and the known beginning cover the letter before the last period
  have h1 : n (l - p - 1 - s) = n (l - 1 - s) := by
    rw [hper.2 (l - p - 1 - s) (by omega)]
    congr 1
    omega
  have h2 : n (l - p - 1) = n (l - 1) := by
    rw [hper.2 (l - p - 1) (by omega)]
    congr 1
    omega
  have h3 := hocc (l - p - 1 - s) (by omega)
  have h4 := hocc (l - 1 - s) (by omega)
  have hidx3 : pos + s + (l - p - 1 - s) = pos + (l - p - 1) := by omega
  have hidx4 : pos + s + (l - 1 - s) = pos + (l - 1) := by omega
  rw [hidx3, heq _ (by omega)] at h3
  rw [hidx4] at h4
  apply hne
  rw [h4, ← h1, ← h3, h2]

/-- A search may begin at any position before which the word does not occur. -/
theorem IsFirst.of_suffix {L d : ℕ} (hl : ∀ q < d, ¬ OccursAt h n l q) {r : Option ℕ}
    (hr : IsFirst (fun x => h (d + x)) (L - d) n l r) (hd : d ≤ L) :
    IsFirst h L n l (r.map (d + ·)) := by
  have hshift : ∀ q, OccursAt (fun x => h (d + x)) n l q ↔ OccursAt h n l (d + q) := by
    intro q
    simp only [OccursAt, add_assoc]
  cases r with
  | none =>
    intro q hq hocc
    rcases Nat.lt_or_ge q d with hlt | hge
    · exact hl q hlt hocc
    · apply hr (q - d) (by omega)
      rw [hshift, Nat.add_sub_cancel' hge]
      exact hocc
  | some pos =>
    obtain ⟨hle, hocc, hfirst⟩ := hr
    refine ⟨show d + pos + l ≤ L by omega, (hshift pos).mp hocc, fun q (hq : q < d + pos) hocc' => ?_⟩
    rcases Nat.lt_or_ge q d with hlt | hge
    · exact hl q hlt hocc'
    · apply hfirst (q - d) (by omega)
      rw [hshift, Nat.add_sub_cancel' hge]
      exact hocc'

end Occurrences

end Leblibc.Lib
