import Leblibc.String.Strstr

/-!
# The critical factorization of a needle

The two searches for a maximal suffix of the needle end, and what is made of them is a critical
factorization: a match to the right of the position `ms + 1` may be followed by a shift by `p`, which is
the period of the needle where `mem0` letters are remembered.

## Main results

* `memcmpLoop_eq_zero_iff`: a comparison of memory that returns 0
* `maxSuffixLoop_spec`: a search for a maximal suffix ends with one, and with its period
* `factorize_spec`: the searches together give a critical factorization
-/

namespace Leblibc.Str

open Leblibc.Lib

variable {β : Type}

/-! ## Comparing memory -/

theorem memcmpLoop_eq_zero_iff [DecidableEq β] {diff : β → β → ℤ} (hdiff : ∀ x y, diff x y = 0 → x = y)
    {m : ℕ → β} {k l r : ℕ} :
    memcmpLoop diff m k l r = 0 ↔ ∀ i < k, m (l + i) = m (r + i) := by
  induction k generalizing l r with
  | zero => exact ⟨fun _ i hi => absurd hi (Nat.not_lt_zero i), fun _ => rfl⟩
  | succ k ih =>
    rw [memcmpLoop]
    split_ifs with heq
    · rw [ih]
      constructor
      · intro h i hi
        rcases i with - | i
        · exact heq
        · have := h i (by omega)
          rwa [add_right_comm, add_right_comm r] at this
      · intro h i hi
        have := h (i + 1) (by omega)
        rwa [← add_assoc, ← add_assoc, add_right_comm, add_right_comm r] at this
    · constructor
      · intro h
        exact absurd (hdiff _ _ h) heq
      · intro h
        exact absurd (h 0 (Nat.succ_pos k)) heq

theorem memcmp_eq_zero_iff {m : ℕ → UInt8} {l r k : ℕ} :
    memcmp m l r k = 0 ↔ ∀ i < k, m (l + i) = m (r + i) := by
  apply memcmpLoop_eq_zero_iff
  intro x y h
  apply UInt8.toNat_inj.mp
  omega

theorem wmemcmp_eq_zero_iff {m : ℕ → Int32} {l r k : ℕ} :
    wmemcmp m l r k = 0 ↔ ∀ i < k, m (l + i) = m (r + i) := by
  apply memcmpLoop_eq_zero_iff
  intro x y h
  by_contra hne
  rcases Int32.lt_or_lt_of_ne hne with hlt | hgt
  · rw [if_pos hlt] at h
    omega
  · rw [if_pos hgt] at h
    omega

/-! ## Searching for the maximal suffix -/

section Suffix

variable {a : Arch} {lt : β → β → Prop} {m : ℕ → β} {n l : ℕ}

/-- The search has the suffix at `i` and is `e` periods after it: `ip` is `i - 1` in `size_t`. -/
structure SuffixInv (a : Arch) (lt : β → β → Prop) (w : ℕ → β) (l ip jp k p i e : ℕ) : Prop where
  scan : Scan lt w l i p (jp + k)
  ip_eq : ip = a.sub i 1
  jp_eq : jp + 1 = i + e * p
  pos : 0 < e
  k_pos : 0 < k
  k_le : k ≤ p

theorem SuffixInv.init (hl : 0 < l) (w : ℕ → β) : SuffixInv a lt w l (a.sub 0 1) 0 1 1 0 1 where
  scan := Scan.init hl
  ip_eq := rfl
  jp_eq := rfl
  pos := Nat.one_pos
  k_pos := Nat.one_pos
  k_le := le_refl 1

/-- The index `-1` of the source: adding to it gives back what was taken away. -/
theorem wrap_sub_one_add {i k : ℕ} (hk : 0 < k) (h : i + k < 2 ^ a.bits) :
    a.wrap (a.sub i 1 + k) = i + k - 1 := by
  have hone : a.wrap 1 = 1 := Arch.wrap_of_lt (by cases a <;> decide)
  rcases Nat.eq_zero_or_pos i with rfl | hi
  · have hsub : a.sub 0 1 = 2 ^ a.bits - 1 := by
      rw [Arch.sub, hone, zero_add]
      exact Arch.wrap_of_lt (by have := a.wrap_lt 0; omega)
    have hsum : 2 ^ a.bits - 1 + k = k - 1 + 2 ^ a.bits := by omega
    rw [hsub, hsum, Arch.wrap, Nat.add_mod_right, Nat.mod_eq_of_lt (by omega), zero_add]
  · rw [Arch.sub_of_le hi (by omega), Arch.wrap_of_lt (by omega)]
    omega

theorem sub_sub_one {i k : ℕ} (hik : i ≤ k + 1) (hk : k + 1 < 2 ^ a.bits) :
    a.sub k (a.sub i 1) = k + 1 - i := by
  have hone : a.wrap 1 = 1 := Arch.wrap_of_lt (by cases a <;> decide)
  rcases Nat.eq_zero_or_pos i with rfl | hi
  · have hsub : a.sub 0 1 = 2 ^ a.bits - 1 := by
      rw [Arch.sub, hone, zero_add]
      exact Arch.wrap_of_lt (by have := a.wrap_lt 0; omega)
    have hsum : k + (2 ^ a.bits - (2 ^ a.bits - 1)) = k + 1 := by omega
    rw [hsub, Arch.sub, Arch.wrap_of_lt (n := 2 ^ a.bits - 1) (by omega), hsum,
      Arch.wrap_of_lt hk]
    rfl
  · rw [Arch.sub_of_le hi (by omega), Arch.sub_of_le (by omega) (by omega)]
    omega

section Steps

variable {w : ℕ → β} {ip jp k p i e : ℕ}

/-- The letter at `ip + k` is the one that the period asks for. -/
theorem SuffixInv.expected (h : SuffixInv a lt w l ip jp k p i e) :
    w (i + k - 1) = w (jp + k - p) := by
  obtain ⟨e, rfl⟩ := Nat.exists_eq_succ_of_ne_zero (Nat.ne_of_gt h.pos)
  have hjp := h.jp_eq
  have hk := h.k_pos
  have hp := h.scan.period_pos
  rw [Nat.succ_mul] at hjp
  rw [h.scan.period_mul e (i + k - 1) (by omega) (by omega)]
  congr 1
  omega

variable [IsStrictTotalOrder β lt]

theorem SuffixInv.step_period (h : SuffixInv a lt w l ip jp p p i e) (hm : jp + p < l)
    (heq : w (jp + p) = w (jp + p - p)) : SuffixInv a lt w l ip (jp + p) 1 p i (e + 1) where
  scan := h.scan.step_eq hm heq
  ip_eq := h.ip_eq
  jp_eq := by
    have := h.jp_eq
    rw [Nat.succ_mul]
    omega
  pos := Nat.succ_pos e
  k_pos := Nat.one_pos
  k_le := h.scan.period_pos

theorem SuffixInv.step_eq (h : SuffixInv a lt w l ip jp k p i e) (hm : jp + k < l)
    (heq : w (jp + k) = w (jp + k - p)) (hk : k ≠ p) : SuffixInv a lt w l ip jp (k + 1) p i e where
  scan := h.scan.step_eq hm heq
  ip_eq := h.ip_eq
  jp_eq := h.jp_eq
  pos := h.pos
  k_pos := Nat.succ_pos k
  k_le := by
    have := h.k_le
    omega

theorem SuffixInv.step_lt (h : SuffixInv a lt w l ip jp k p i e) (hm : jp + k < l)
    (hlt : lt (w (jp + k)) (w (jp + k - p))) :
    SuffixInv a lt w l ip (jp + k) 1 (jp + k + 1 - i) i 1 where
  scan := h.scan.step_lt hm hlt
  ip_eq := h.ip_eq
  jp_eq := by
    have := h.scan.period_le
    omega
  pos := Nat.one_pos
  k_pos := Nat.one_pos
  k_le := by
    have := h.scan.period_le
    omega

theorem SuffixInv.step_gt (h : SuffixInv a lt w l ip jp k p i e) (hm : jp + k < l)
    (hgt : lt (w (jp + k - p)) (w (jp + k))) (hl : l < 2 ^ a.bits) :
    SuffixInv a lt w l jp (jp + 1) 1 1 (jp + 1) 1 where
  scan := by
    have hjp := h.jp_eq
    have hk := h.k_pos
    have hkp := h.k_le
    rw [hjp]
    exact h.scan.step_gt hm hgt (by omega) (by omega)
  ip_eq := by
    rw [Arch.sub_of_le (by omega) (by omega)]
    rfl
  jp_eq := rfl
  pos := Nat.one_pos
  k_pos := Nat.one_pos
  k_le := le_refl 1

end Steps

/-- **The search for a maximal suffix ends** with a maximal suffix and its smallest period. -/
theorem maxSuffixLoop_spec [DecidableEq β] (lt : β → β → Prop) [IsStrictTotalOrder β lt] {above : β → β → Bool}
    (habove : ∀ x y, above x y = true ↔ lt y x) (hl : l < 2 ^ a.bits) {ip jp k p i e : ℕ} (fuel : ℕ)
    (h : SuffixInv a lt (view m n) l ip jp k p i e) (hfuel : 2 * l < fuel + (jp + k) + i) :
    ∃ i' p', maxSuffixLoop a above m n l fuel ip jp k p = some (a.sub i' 1, p') ∧
      Scan lt (view m n) l i' p' l := by
  -- each turn moves the place of the comparison or the suffix further, and neither beyond `l`
  induction fuel generalizing ip jp k p i e with
  | zero =>
    have := h.scan.period_le
    have := h.scan.le_length
    omega
  | succ fuel ih =>
    have hle := h.scan.le_length
    have hjp := h.jp_eq
    have hk := h.k_pos
    have hkp := h.k_le
    have hep : p ≤ e * p := Nat.le_mul_of_pos_left p h.pos
    rw [maxSuffixLoop, Arch.wrap_of_lt (by omega)]
    by_cases hm : jp + k < l
    · have hidx : a.wrap (ip + k) = i + k - 1 := by
        rw [h.ip_eq]
        exact wrap_sub_one_add hk (by omega)
      have hexp : m (n + (i + k - 1)) = view m n (jp + k - p) := h.expected
      rw [if_pos hm, hidx, hexp]
      by_cases heq : view m n (jp + k - p) = m (n + (jp + k))
      · rw [if_pos heq]
        by_cases hkeq : k = p
        · subst hkeq
          rw [if_pos rfl, Arch.wrap_of_lt (by omega)]
          exact ih (h.step_period hm heq.symm) (by omega)
        · rw [if_neg hkeq, Arch.wrap_of_lt (by omega)]
          exact ih (h.step_eq hm heq.symm hkeq) (by omega)
      · rw [if_neg heq]
        by_cases hab : above (view m n (jp + k - p)) (m (n + (jp + k))) = true
        · rw [if_pos hab, h.ip_eq, sub_sub_one (by omega) (by omega), ← h.ip_eq]
          exact ih (h.step_lt hm ((habove _ _).mp hab)) (by omega)
        · have hgt : lt (view m n (jp + k - p)) (m (n + (jp + k))) := by
            rcases trichotomous_of lt (view m n (jp + k - p)) (m (n + (jp + k))) with hlt | heq' | hgt
            · exact hlt
            · exact absurd heq' heq
            · exact absurd ((habove _ _).mpr hgt) hab
          rw [if_neg hab, Arch.wrap_of_lt (by omega)]
          exact ih (h.step_gt hm hgt hl) (by omega)
    · rw [if_neg hm, h.ip_eq]
      obtain hend : jp + k = l := by omega
      exact ⟨i, p, rfl, hend ▸ h.scan⟩

end Suffix

/-! ## The factorization -/

/-- What the main loop relies on: `ms + 1` is a critical position, `p` is no more than the period, and
where something is remembered `p` is the period. -/
structure Factored (a : Arch) (w : ℕ → β) (l : ℕ) (f : Factor) (c : ℕ) : Prop where
  critical : IsCritical w l c
  ms_eq : f.ms = a.sub c 1
  p_pos : 0 < f.p
  p_le : f.p ≤ l
  p_le_minPeriod : f.p ≤ minPeriod w l
  mem0_eq : f.mem0 = 0 ∨ f.mem0 = l - f.p ∧ f.p = minPeriod w l

section Factorize

variable {a : Arch} {cmp : ℕ → ℕ → ℕ → ℤ} {m : ℕ → β} {n l : ℕ}

/-- The period of a critical suffix that its first repetition continues to the left is that of the
word. -/
theorem minPeriod_eq_of_agree {lt : β → β → Prop} {w : ℕ → β} {c p : ℕ} (hscan : Scan lt w l c p l)
    (hagree : ∀ i < c, w i = w (p + i)) : minPeriod w l = p := by
  have hper : IsPeriod w l p := by
    refine ⟨hscan.period_pos, fun x hx => ?_⟩
    rcases Nat.lt_or_ge x c with hlt | hge
    · rw [hagree x hlt, add_comm]
    · exact hscan.period x hge hx
  have hmin := isPeriod_minPeriod w l
  exact le_antisymm (minPeriod_le hper) (hscan.minimal _ hmin.1 fun x _ hx => hmin.2 x hx)

theorem factorOf_spec {lt : β → β → Prop} {c p : ℕ}
    (hcmp : ∀ r k, cmp n r k = 0 ↔ ∀ i < k, m (n + i) = m (r + i)) (hl : l < 2 ^ a.bits)
    (hcrit : IsCritical (view m n) l c) (hscan : Scan lt (view m n) l c p l) :
    Factored a (view m n) l (factorOf a cmp n l (a.sub c 1) p) c := by
  have hp := hscan.period_pos
  have hpl := hscan.period_le
  have hms : a.wrap (a.sub c 1 + 1) = c := wrap_sub_one_add Nat.one_pos (by omega)
  have hagree : (∀ i < c, m (n + i) = m (n + p + i)) ↔
      ∀ i < c, view m n i = view m n (p + i) := by
    simp only [view, add_assoc]
  unfold factorOf
  rw [hms]
  by_cases hz : cmp n (n + p) c = 0
  · -- the needle has the period of its critical suffix
    have heq := minPeriod_eq_of_agree hscan (hagree.mp ((hcmp _ _).mp hz))
    rw [if_neg (not_not.mpr hz), Arch.sub_of_le (x := l) (by omega) (by omega)]
    exact ⟨hcrit, rfl, hp, by show p ≤ l; omega, heq.ge, Or.inr ⟨rfl, heq.symm⟩⟩
  · -- its period is longer than either half
    have hcpos : 0 < c := by
      rcases Nat.eq_zero_or_pos c with rfl | hpos
      · exact absurd ((hcmp _ _).mpr fun i hi => absurd hi (Nat.not_lt_zero i)) hz
      · exact hpos
    have hlong : l - c < minPeriod (view m n) l := by
      by_contra hle
      have heq := hcrit.minPeriod_eq hp hscan.period_mul hscan.minimal (by omega)
      refine hz ((hcmp _ _).mpr (hagree.mpr fun i hi => ?_))
      rw [add_comm p]
      have hper := isPeriod_minPeriod (view m n) l
      rw [heq] at hper
      exact hper.2 i (by omega)
    have hlt := hcrit.lt_minPeriod
    have hmax : a.wrap (max (a.sub c 1) (a.sub (a.sub l (a.sub c 1)) 1) + 1) =
        max (c - 1) (l - c) + 1 := by
      rw [Arch.sub_of_le hcpos (by omega), Arch.sub_of_le (x := l) (by omega) (by omega),
        Arch.sub_of_le (by omega) (by omega), Arch.wrap_of_lt (by omega)]
      omega
    rw [if_pos hz, hmax]
    refine ⟨hcrit, rfl, Nat.succ_pos _, ?_, ?_, Or.inl rfl⟩
    · show max (c - 1) (l - c) + 1 ≤ l
      omega
    · show max (c - 1) (l - c) + 1 ≤ minPeriod (view m n) l
      omega

/-- **The searches together give a critical factorization** of the needle. -/
theorem factorize_spec [DecidableEq β] [LT β] [DecidableLT β] [IsStrictTotalOrder β (· < ·)]
    (hcmp : ∀ r k, cmp n r k = 0 ↔ ∀ i < k, m (n + i) = m (r + i)) (hpos : 0 < l)
    (hl : l < 2 ^ a.bits) (fuel : ℕ) (hfuel : 2 * l ≤ fuel) :
    ∃ f c, factorize a cmp m fuel n l = some f ∧ Factored a (view m n) l f c := by
  -- the first search goes by the order of the letters, the second one by the opposite order
  obtain ⟨i1, p1, heq1, hscan1⟩ :=
    maxSuffixLoop_spec (· < ·) (m := m) (fun x y => decide_eq_true_iff) hl fuel
      (SuffixInv.init hpos _) (by omega)
  obtain ⟨i2, p2, heq2, hscan2⟩ :=
    maxSuffixLoop_spec (Function.swap (· < ·)) (m := m) (n := n)
      (fun x y => decide_eq_true_iff) hl fuel (SuffixInv.init hpos _) (by omega)
  have hi1 := hscan1.maxSuffix.lt_length
  have hi2 := hscan2.maxSuffix.lt_length
  have hms1 : a.wrap (a.sub i1 1 + 1) = i1 := wrap_sub_one_add Nat.one_pos (by omega)
  have hms2 : a.wrap (a.sub i2 1 + 1) = i2 := wrap_sub_one_add Nat.one_pos (by omega)
  unfold factorize
  rw [heq1]
  simp only [some_bind, heq2, hms1, hms2]
  split_ifs with hlt
  · exact ⟨_, i2, rfl, factorOf_spec hcmp hl
      (hscan2.maxSuffix.isCritical hscan1.maxSuffix hlt.le) hscan2⟩
  · exact ⟨_, i1, rfl, factorOf_spec hcmp hl
      (hscan1.maxSuffix.isCritical hscan2.maxSuffix (not_lt.mp hlt)) hscan1⟩

end Factorize

end Leblibc.Str
