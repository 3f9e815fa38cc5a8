import Leblibc.Stdio.PrintfFp

/-!
# The blocks of digits

What `fmt_fp` keeps in `big`, as far as the length of the output depends on it: every block is below `base`, and the
exponent belongs to the first block. The loops end within their bounds.

## Main results

* `blocks_normal`: the loops leave blocks that are `Normal`
* `roundAt_fits`: and rounding makes them fit
-/

namespace Leblibc.Printf.Core

open Function

theorem ck_of_isInt {x : ℤ} (h : IsInt x) : ck x = .ok x := if_pos h

theorem base_pos : 0 < base := by decide

/-! ## Fractions -/

variable {k m : ℕ} {big : ℤ → ℕ} {sh : ℕ} {d a : ℤ} {b : Blocks} {need : ℤ} {isF : Bool} {e : ℤ}

theorem update_lt_base {v : ℕ} (hv : v < base) (hbig : ∀ i ≠ d, big i < base) (i : ℤ) : update big d v i < base :=
  (forall_update_iff big fun _ x => x < base).mpr ⟨hv, hbig⟩ i

/-- A turn of a loop that takes the whole part of `m / 2^k` and multiplies the rest by an even number. -/
theorem two_pow_dvd_mul_mod {c n : ℕ} (hm : 2 ^ c ∣ m) (hc : c ≤ k) (hn : 2 ∣ n) :
    2 ^ (c + 1) ∣ n * (m % 2 ^ k) := by
  have hmod : 2 ^ c ∣ m % 2 ^ k := (Nat.dvd_mod_iff (Nat.pow_dvd_pow 2 hc)).mpr hm
  rw [Nat.pow_succ, Nat.mul_comm]
  exact Nat.mul_dvd_mul hn hmod

/-- The loop ends, and leaves blocks that are below `base`. -/
theorem splitLoop_spec (k : ℕ) (fuel : ℕ) (hm : m / 2 ^ k < base) (hdvd : 2 ^ (k + 1 - fuel) ∣ m)
    (hfuel : 0 < fuel) (hbig : ∀ i, big i < base) (z : ℤ) :
    ∃ big' z', splitLoop k fuel m big z = .ok (big', z') ∧ z < z' ∧ (∀ i, big' i < base) ∧
      big' z = m / 2 ^ k ∧ ∀ i < z, big' i = big i := by
  induction fuel generalizing m big z with
  | zero => omega
  | succ fuel ih =>
    have hupd := update_lt_base (d := z) hm fun i _ => hbig i
    rw [splitLoop]
    split
    · refine ⟨_, _, rfl, by omega, hupd, update_self .., fun i hi => ?_⟩
      exact update_of_ne (by omega) ..
    · rename_i hne
      -- with the last turn the fraction is gone
      have hpos : 0 < fuel := by
        rcases Nat.eq_zero_or_pos fuel with rfl | h
        · refine absurd ?_ hne
          rw [Nat.add_sub_cancel] at hdvd
          rw [Nat.mod_eq_zero_of_dvd hdvd, Nat.mul_zero]
        · exact h
      have hdvd' : 2 ^ (k + 1 - fuel) ∣ base * (m % 2 ^ k) := by
        by_cases hle : fuel ≤ k
        · have heq : k + 1 - fuel = k + 1 - (fuel + 1) + 1 := by omega
          rw [heq]
          exact two_pow_dvd_mul_mod hdvd (by omega) (by decide)
        · rw [show k + 1 - fuel = 0 by omega]
          exact one_dvd _
      have hlt : base * (m % 2 ^ k) / 2 ^ k < base := by
        rw [Nat.div_lt_iff_lt_mul (by positivity)]
        exact Nat.mul_lt_mul_of_pos_left (Nat.mod_lt _ (by positivity)) base_pos
      obtain ⟨big', z', hrun, hz, hlt', -, hold⟩ := ih hlt hdvd' hpos hupd (z + 1)
      refine ⟨big', z', hrun, by omega, hlt', ?_, fun i hi => ?_⟩
      · rw [hold z (by omega), update_self]
      · rw [hold i (by omega), update_of_ne (by omega)]

/-! ## Multiplication -/

/-- The loop over the blocks: those outside are the same, and the last one and the carry have what is due. -/
theorem shlLoop_spec (n : ℕ) {carry : ℕ} (hbig : ∀ i, big i < base) (hcarry : carry < 2 ^ sh) :
    (∀ i, (shlLoop sh n d big carry).1 i < base) ∧ (shlLoop sh n d big carry).2 < 2 ^ sh ∧
      (∀ i ≤ d - n, (shlLoop sh n d big carry).1 i = big i) ∧
      (0 < n → big (d - n + 1) ≠ 0 →
        (shlLoop sh n d big carry).1 (d - n + 1) ≠ 0 ∨ (shlLoop sh n d big carry).2 ≠ 0) := by
  induction n generalizing d big carry with
  | zero => exact ⟨hbig, hcarry, fun _ _ => rfl, fun h => absurd h (by decide)⟩
  | succ n ih =>
    have hdiv : (big d * 2 ^ sh + carry) / base < 2 ^ sh := by
      rw [Nat.div_lt_iff_lt_mul base_pos]
      calc big d * 2 ^ sh + carry < big d * 2 ^ sh + 2 ^ sh := by omega
        _ = (big d + 1) * 2 ^ sh := by rw [Nat.succ_mul]
        _ ≤ base * 2 ^ sh := Nat.mul_le_mul_right _ (hbig d)
        _ = 2 ^ sh * base := Nat.mul_comm ..
    have hupd := update_lt_base (d := d) (Nat.mod_lt (big d * 2 ^ sh + carry) base_pos) fun i _ => hbig i
    obtain ⟨hlt, hc, hold, hlast⟩ := ih hupd hdiv
    rw [shlLoop]
    refine ⟨hlt, hc, fun i hi => ?_, fun _ hne => ?_⟩
    · rw [hold i (by omega), update_of_ne (by omega)]
    · rcases Nat.eq_zero_or_pos n with rfl | hn
      · -- the last block: its digits are in the new block and in the carry
        have hd : d - ((0 + 1 : ℕ) : ℤ) + 1 = d := by omega
        rw [hd] at hne ⊢
        simp only [shlLoop, update_self]
        by_contra hboth
        rw [not_or, not_not, not_not] at hboth
        have hsum := Nat.mod_add_div (big d * 2 ^ sh + carry) base
        rw [hboth.2] at hsum
        have hpos : 0 < big d * 2 ^ sh := Nat.mul_pos (Nat.pos_of_ne_zero hne) (by positivity)
        omega
      · have hd : d - ((n + 1 : ℕ) : ℤ) + 1 = d - 1 - n + 1 := by omega
        rw [hd] at hne ⊢
        refine hlast hn ?_
        rw [update_of_ne (by omega)]
        exact hne

theorem trimLoop_spec (ha : big a ≠ 0) (n : ℕ) {z : ℤ} (hz : a < z) (hn : a + n ≤ z) :
    a < trimLoop big n z ∧ trimLoop big n z ≤ z := by
  induction n generalizing z with
  | zero => exact ⟨hz, le_refl _⟩
  | succ n ih =>
    rw [trimLoop]
    split
    · rename_i h0
      have hne : z - 1 ≠ a := fun h => ha (h ▸ h0)
      have := ih (z := z - 1) (by omega) (by omega)
      omega
    · exact ⟨hz, le_refl _⟩

/-- The blocks in the loop where `e2` is positive. -/
structure Blocks.Whole (b : Blocks) : Prop where
  lt_base : ∀ i, b.big i < base
  a_le : b.a ≤ 0
  a_lt : b.a < b.z
  first : b.big b.a ≠ 0

theorem Blocks.Whole.shl (h : b.Whole) (hsh : sh ≤ 29) :
    (b.shl sh).Whole ∧ b.a - 1 ≤ (b.shl sh).a := by
  obtain ⟨hlt, hcarry, hold, hlast⟩ := shlLoop_spec (b.z - b.a).toNat h.lt_base
    (show 0 < 2 ^ sh by positivity)
  have hz := h.a_lt
  have ha := h.a_le
  have hcells : b.z - 1 - (b.z - b.a).toNat + 1 = b.a := by omega
  rw [hcells] at hlast
  have hsome := hlast (by omega) h.first
  have h29 : 2 ^ sh ≤ 2 ^ 29 := Nat.pow_le_pow_right (by decide) hsh
  unfold Blocks.shl
  generalize shlLoop sh (b.z - b.a).toNat (b.z - 1) b.big 0 = r at *
  dsimp only
  by_cases hc : r.2 = 0
  · rw [if_neg (not_not.mpr hc)]
    have hfirst : r.1 b.a ≠ 0 := hsome.resolve_right (not_not.mpr hc)
    obtain ⟨htrim, -⟩ := trimLoop_spec hfirst (b.z - b.a).toNat hz (by omega)
    exact ⟨⟨hlt, ha, htrim, hfirst⟩, by show b.a - 1 ≤ b.a; omega⟩
  · rw [if_pos hc]
    have hfirst : update r.1 (b.a - 1) r.2 (b.a - 1) ≠ 0 := by
      rw [update_self]
      exact hc
    obtain ⟨htrim, -⟩ := trimLoop_spec hfirst (b.z - (b.a - 1)).toNat (z := b.z) (by omega) (by omega)
    refine ⟨⟨?_, by show b.a - 1 ≤ 0; omega, htrim, hfirst⟩, le_refl _⟩
    exact update_lt_base (hcarry.trans_le (h29.trans (by decide))) fun i _ => hlt i

theorem mulLoop_spec (fuel e2 : ℕ) (h : b.Whole) :
    (mulLoop fuel e2 b).Whole ∧ b.a - fuel ≤ (mulLoop fuel e2 b).a := by
  induction fuel generalizing e2 b with
  | zero => exact ⟨h, by rw [mulLoop]; omega⟩
  | succ fuel ih =>
    rw [mulLoop]
    split
    · exact ⟨h, by omega⟩
    · obtain ⟨hwhole, hle⟩ := h.shl (show min 29 e2 ≤ 29 by omega)
      obtain ⟨hrun, hle'⟩ := ih (e2 - min 29 e2) hwhole
      exact ⟨hrun, by push_cast; omega⟩

/-! ## Division -/

/-- For the shifts of the loop, `base` is a multiple of the power of two. -/
theorem base_div_mul (hsh : sh ≤ 9) : base / 2 ^ sh * 2 ^ sh = base :=
  Nat.div_mul_cancel ((Nat.pow_dvd_pow 2 hsh).trans (by decide))

theorem base_div_pos (hsh : sh ≤ 9) : 0 < base / 2 ^ sh := by
  refine Nat.pos_of_ne_zero fun h => ?_
  have hbase := base_div_mul hsh
  rw [h, Nat.zero_mul] at hbase
  exact absurd hbase (by decide)

/-- What a block leaves for the next one, which then has room for its own digits. -/
theorem part_mul_mod_le (hsh : sh ≤ 9) (x : ℕ) : base / 2 ^ sh * (x % 2 ^ sh) + base / 2 ^ sh ≤ base := by
  calc base / 2 ^ sh * (x % 2 ^ sh) + base / 2 ^ sh = base / 2 ^ sh * (x % 2 ^ sh + 1) := by ring
    _ ≤ base / 2 ^ sh * 2 ^ sh := Nat.mul_le_mul_left _ (Nat.mod_lt _ (by positivity))
    _ = base := base_div_mul hsh

/-- The loop over the blocks: a block takes what the one before has left. -/
theorem shrLoop_spec (hsh : sh ≤ 9) (n : ℕ) {carry : ℕ} (hbig : ∀ i, big i < base)
    (hcarry : carry + base / 2 ^ sh ≤ base) :
    (∀ i, (shrLoop sh n d big carry).1 i < base) ∧ (shrLoop sh n d big carry).2 < base ∧
      (∀ i, i < d ∨ d + n ≤ i → (shrLoop sh n d big carry).1 i = big i) ∧
      (0 < n → (shrLoop sh n d big carry).1 d = big d / 2 ^ sh + carry) ∧
      (n = 0 → (shrLoop sh n d big carry).2 = carry) := by
  have hpart := base_div_pos hsh
  induction n generalizing d big carry with
  | zero => exact ⟨hbig, by rw [shrLoop]; omega, fun _ _ => rfl, fun h => absurd h (by decide), fun _ => rfl⟩
  | succ n ih =>
    have hquot : big d / 2 ^ sh < base / 2 ^ sh := by
      rw [Nat.div_lt_iff_lt_mul (by positivity), base_div_mul hsh]
      exact hbig d
    have hupd := update_lt_base (d := d) (show big d / 2 ^ sh + carry < base by omega) fun i _ => hbig i
    obtain ⟨hlt, hc, hold, -, -⟩ := ih hupd (part_mul_mod_le hsh (big d))
    rw [shrLoop]
    refine ⟨hlt, hc, fun i hi => ?_, fun _ => ?_, fun h => absurd h (by omega)⟩
    · rw [hold i (by omega), update_of_ne (by omega)]
    · rw [hold d (by omega), update_self]

/-- What the first block leaves when it becomes 0 is not 0, and goes to the next block or is the carry. -/
theorem shrLoop_next (hsh : sh ≤ 9) (n : ℕ) (hbig : ∀ i, big i < base)
    (hfirst : big d ≠ 0) (hzero : big d / 2 ^ sh = 0) :
    (n = 0 → (shrLoop sh (n + 1) d big 0).2 ≠ 0) ∧ (0 < n → (shrLoop sh (n + 1) d big 0).1 (d + 1) ≠ 0) := by
  have hpow : 0 < 2 ^ sh := by positivity
  have hmod : big d % 2 ^ sh = big d := Nat.mod_eq_of_lt ((Nat.div_eq_zero_iff_lt hpow).mp hzero)
  have hleft : base / 2 ^ sh * (big d % 2 ^ sh) ≠ 0 := by
    rw [hmod]
    exact Nat.mul_ne_zero (base_div_pos hsh).ne' hfirst
  have hupd := update_lt_base (d := d) (show big d / 2 ^ sh + 0 < base by rw [hzero]; decide) fun i _ => hbig i
  obtain ⟨-, -, -, hthere, hnone⟩ := shrLoop_spec hsh n hupd (part_mul_mod_le hsh (big d))
  rw [shrLoop]
  refine ⟨fun hn => ?_, fun hn => ?_⟩
  · rw [hnone hn]
    exact hleft
  · rw [hthere hn]
    exact fun h => hleft (Nat.add_eq_zero_iff.mp h).2

/-- The blocks in the loop where `e2` is negative. For `f` the first block may be behind those that are needed. -/
structure Blocks.Fraction (b : Blocks) (need : ℤ) (isF : Bool) : Prop where
  lt_base : ∀ i, b.big i < base
  a_nonneg : 0 ≤ b.a
  zeros : ∀ i, 0 ≤ i → i < b.a → b.big i = 0
  first : b.big b.a ≠ 0
  a_lt : b.a < b.z ∨ isF = true ∧ b.a = b.z ∧ 0 < b.a
  enough : isF = true → b.z ≤ need ∨ b.a = 0

theorem Blocks.Fraction.cut {z : ℤ} (hlt : ∀ i, big i < base) (ha : 0 ≤ a)
    (hzeros : ∀ i, 0 ≤ i → i < a → big i = 0) (hfirst : big a ≠ 0) (haz : a < z) (hneed : 1 ≤ need)
    (hle : isF = true → a ≤ need) :
    Blocks.Fraction ⟨big, a, if z - (if isF then 0 else a) > need then (if isF then 0 else a) + need else z⟩
      need isF := by
  cases isF with
  | true =>
    have hle := hle rfl
    refine ⟨hlt, ha, hzeros, hfirst, ?_, fun _ => Or.inl ?_⟩
    · simp only [true_and]
      split <;> omega
    · simp only [if_true]
      split <;> omega
  | false =>
    refine ⟨hlt, ha, hzeros, hfirst, Or.inl ?_, fun h => absurd h (by decide)⟩
    simp only [Bool.false_eq_true, if_false]
    split <;> omega

theorem Blocks.Fraction.shr (h : b.Fraction need isF) (hneed : 1 ≤ need)
    (hsh : sh ≤ 9) : (b.shr need isF sh).Fraction need isF ∧ (b.shr need isF sh).a ≤ b.a + 1 := by
  have hpow : base / 2 ^ sh ≤ base := Nat.div_le_self ..
  obtain ⟨hlt, hcarry, hold, hthere, hnone⟩ := shrLoop_spec hsh (b.z - b.a).toNat h.lt_base
    (show 0 + base / 2 ^ sh ≤ base by omega)
  have ha := h.a_nonneg
  -- the blocks after the loop, and the carry behind them
  have hcells : ∀ r : (ℤ → ℕ) × ℕ, (∀ i, r.1 i < base) → r.2 < base →
      ∀ i, (if r.2 ≠ 0 then update r.1 b.z r.2 else r.1) i < base := by
    intro r hr hr'
    split
    · exact update_lt_base hr' fun i _ => hr i
    · exact hr
  have hbelow : ∀ r : (ℤ → ℕ) × ℕ, ∀ i, i < b.z →
      (if r.2 ≠ 0 then update r.1 b.z r.2 else r.1) i = r.1 i := by
    intro r i hi
    split
    · exact update_of_ne (by omega) ..
    · rfl
  have hnext : b.a < b.z → (shrLoop sh (b.z - b.a).toNat b.a b.big 0).1 b.a = 0 →
      (b.z = b.a + 1 → (shrLoop sh (b.z - b.a).toNat b.a b.big 0).2 ≠ 0) ∧
        (b.a + 1 < b.z → (shrLoop sh (b.z - b.a).toNat b.a b.big 0).1 (b.a + 1) ≠ 0) := by
    intro hlt' hzero
    rw [hthere (by omega)] at hzero
    obtain ⟨n, hn⟩ := Nat.exists_eq_add_one_of_ne_zero (show (b.z - b.a).toNat ≠ 0 by omega)
    obtain ⟨h0, h1⟩ := shrLoop_next hsh n h.lt_base h.first hzero
    rw [hn]
    exact ⟨fun hz => h0 (by omega), fun hz => h1 (by omega)⟩
  unfold Blocks.shr
  generalize shrLoop sh (b.z - b.a).toNat b.a b.big 0 = r at *
  dsimp only
  rcases h.a_lt with hlt' | ⟨hisF, heq, hpos⟩
  · have henough : isF = true → b.a + 1 ≤ need := by
      intro hisF
      have := h.enough hisF
      omega
    by_cases hzero : r.1 b.a = 0
    · -- the first block has become 0, and the next one is not 0, be it one that there was or the carry
      rw [if_pos hzero]
      obtain ⟨hlast, hmid⟩ := hnext hlt' hzero
      refine ⟨Blocks.Fraction.cut (hcells r hlt hcarry) (by omega) (fun i h0 h1 => ?_) ?_ ?_ hneed henough, le_refl _⟩
      · rw [hbelow r i (by omega)]
        by_cases hi : i = b.a
        · rw [hi, hzero]
        · rw [hold i (by omega)]
          exact h.zeros i h0 (by omega)
      · by_cases hz' : b.z = b.a + 1
        · rw [if_pos (hlast hz'), hz', update_self]
          exact hlast hz'
        · rw [hbelow r _ (by omega)]
          exact hmid (by omega)
      · by_cases hz' : b.z = b.a + 1
        · omega
        · omega
    · rw [if_neg hzero]
      refine ⟨Blocks.Fraction.cut (hcells r hlt hcarry) ha (fun i h0 h1 => ?_) ?_ (by omega) hneed
        (fun hisF => by have := henough hisF; omega), by show b.a ≤ b.a + 1; omega⟩
      · rw [hbelow r i (by omega), hold i (by omega)]
        exact h.zeros i h0 h1
      · rw [hbelow r _ hlt']
        exact hzero
  · -- nothing is left to do
    have hnothing : (b.z - b.a).toNat = 0 := by omega
    have hr2 : r.2 = 0 := hnone hnothing
    have hr1 : ∀ i, r.1 i = b.big i := fun i => hold i (by omega)
    rw [hr1 b.a, if_neg h.first, if_neg (not_not.mpr hr2), if_neg (not_not.mpr hr2), hisF]
    have hz : b.z ≤ need := (h.enough hisF).resolve_right (by omega)
    rw [if_neg (by omega)]
    refine ⟨⟨hlt, ha, ?_, ?_, Or.inr ⟨rfl, heq, hpos⟩, fun _ => Or.inl hz⟩, by show b.a ≤ b.a + 1; omega⟩
    · intro i h0 h1
      show r.1 i = 0
      rw [hr1 i]
      exact h.zeros i h0 h1
    · show r.1 b.a ≠ 0
      rw [hr1 b.a]
      exact h.first

theorem divLoop_spec (hneed : 1 ≤ need) (fuel e2 : ℕ) (h : b.Fraction need isF) :
    (divLoop need isF fuel e2 b).Fraction need isF ∧ (divLoop need isF fuel e2 b).a ≤ b.a + fuel := by
  induction fuel generalizing e2 b with
  | zero => exact ⟨h, by rw [divLoop]; omega⟩
  | succ fuel ih =>
    rw [divLoop]
    split
    · exact ⟨h, by omega⟩
    · obtain ⟨hstep, hle⟩ := h.shr hneed (show min 9 e2 ≤ 9 by omega)
      obtain ⟨hrun, hle'⟩ := ih (e2 - min 9 e2) hstep
      exact ⟨hrun, by push_cast; omega⟩

/-! ## The exponent -/

/-- The loop counts the digits of a block behind the first one. -/
theorem expLoop_spec {v : ℕ} (k n : ℕ) (hn : v < 10 ^ (k + n + 1)) (hk : 10 ^ k ≤ v ∨ k = 0) (e : ℤ) :
    ∃ k' : ℕ, expLoop v n (10 ^ (k + 1)) e = e + ((k' : ℤ) - k) ∧ k ≤ k' ∧ v < 10 ^ (k' + 1) ∧
      (10 ^ k' ≤ v ∨ k' = 0) := by
  induction n generalizing k e with
  | zero => exact ⟨k, by rw [expLoop]; omega, le_refl _, hn, hk⟩
  | succ n ih =>
    rw [expLoop]
    split
    · rename_i hge
      rw [← Nat.pow_succ]
      obtain ⟨k', hrun, hle, hlt, hlow⟩ := ih (k + 1) (by rwa [Nat.add_right_comm k 1 n]) (Or.inl hge) (e + 1)
      exact ⟨k', by rw [hrun]; omega, by omega, hlt, hlow⟩
    · rename_i hlt
      exact ⟨k, by omega, le_refl _, Nat.not_le.mp hlt, hk⟩

/-- The exponent of blocks, by the number `k` of digits behind the first one of the first block. -/
theorem Blocks.exponent_spec (h : b.big b.a < base) :
    ∃ k : ℕ, b.exponent = 9 * (0 - b.a) + k ∧ k ≤ 8 ∧ b.big b.a < 10 ^ (k + 1) ∧ (10 ^ k ≤ b.big b.a ∨ k = 0) := by
  obtain ⟨k, hrun, -, hlt, hlow⟩ := expLoop_spec 0 10 (h.trans (by decide)) (Or.inr rfl)
    (9 * (0 - b.a))
  refine ⟨k, ?_, ?_, hlt, hlow⟩
  · exact hrun.trans (by omega)
  · rcases hlow with hle | h0
    · by_contra hgt
      have hpow : 10 ^ 9 ≤ 10 ^ k := Nat.pow_le_pow_right (by decide) (by omega)
      exact absurd (hpow.trans hle) (Nat.not_le.mpr h)
    · omega

/-- Blocks with first blocks of the same number of digits have the same exponent. -/
theorem Blocks.exponent_eq (hk : k ≤ 8) (hlt : b.big b.a < 10 ^ (k + 1))
    (hlow : 10 ^ k ≤ b.big b.a ∨ k = 0) : b.exponent = 9 * (0 - b.a) + k := by
  have hbase : b.big b.a < base := hlt.trans_le (Nat.pow_le_pow_right (by decide) (by omega) : 10 ^ (k + 1) ≤ 10 ^ 9)
  obtain ⟨k', hexp, hk', hlt', hlow'⟩ := Blocks.exponent_spec hbase
  have hle : k' ≤ k := by
    rcases hlow' with h | h
    · exact Nat.lt_succ_iff.mp ((Nat.pow_lt_pow_iff_right (by decide)).mp (h.trans_lt hlt))
    · omega
  have hge : k ≤ k' := by
    rcases hlow with h | h
    · exact Nat.lt_succ_iff.mp ((Nat.pow_lt_pow_iff_right (by decide)).mp (h.trans_lt hlt'))
    · omega
  rw [hexp, Nat.le_antisymm hle hge]

/-! ## Before rounding -/

/-- The blocks before they are rounded, with their exponent. The first block is among the blocks, but for `f` it may
be behind all that are needed; then the exponent is 0. -/
structure Blocks.Normal (b : Blocks) (e : ℤ) (isF : Bool) : Prop where
  lt_base : ∀ i, b.big i < base
  zeros : ∀ i, 0 ≤ i → i < b.a → b.big i = 0
  exponent : e = b.exponent ∨ isF = true ∧ 0 < b.a ∧ e = 0

/-- **The loops** leave blocks with their exponent. -/
theorem blocks_normal {e2 : ℤ} (isF : Bool) (hneed : 1 ≤ need) (hm : m / 2 ^ k < base)
    (hzero : m / 2 ^ k ≠ 0 ∨ e2 = 0) :
    ∃ r, splitLoop k (k + 1) m (fun _ => 0) 0 = .ok r ∧
      ∀ b, b = divLoop need isF (-e2).toNat (-e2).toNat (mulLoop e2.toNat e2.toNat ⟨r.1, 0, r.2⟩) →
        b.Normal (if b.a < b.z then b.exponent else 0) isF ∧ -e2.toNat ≤ b.a ∧ b.a ≤ (-e2).toNat := by
  have hdvd : 2 ^ (k + 1 - (k + 1)) ∣ m := by
    rw [Nat.sub_self]
    exact one_dvd m
  obtain ⟨big, z, hrun, hz, hlt, hfirst, -⟩ := splitLoop_spec k (k + 1) hm hdvd (by omega)
    (show ∀ i, (fun _ : ℤ => 0) i < base from fun _ => base_pos) 0
  refine ⟨_, hrun, fun b hb => ?_⟩
  rcases lt_trichotomy e2 0 with hneg | hnull | hpos
  · -- the number is divided
    rw [show e2.toNat = 0 by omega, mulLoop] at hb
    have hstart : Blocks.Fraction ⟨big, 0, z⟩ need isF :=
      ⟨hlt, le_refl _, fun i h0 h1 => absurd h1 (by show ¬ i < 0; omega),
        by show big 0 ≠ 0; rw [hfirst]; exact hzero.resolve_right (by omega), Or.inl hz, fun _ => Or.inr rfl⟩
    obtain ⟨hend, hle⟩ := divLoop_spec hneed (-e2).toNat (-e2).toNat hstart
    rw [← hb] at hend hle
    have hnonneg := hend.a_nonneg
    refine ⟨⟨hend.lt_base, hend.zeros, ?_⟩, by omega, by simpa using hle⟩
    rcases hend.a_lt with h | ⟨hisF, heq, hpos⟩
    · exact Or.inl (if_pos h)
    · exact Or.inr ⟨hisF, hpos, if_neg (by omega)⟩
  · -- there is nothing to do
    subst hnull
    subst hb
    exact ⟨⟨hlt, fun i h0 h1 => absurd h1 (by show ¬ i < 0; omega), Or.inl (if_pos hz)⟩, le_refl _, le_refl _⟩
  · -- the number is multiplied
    rw [show (-e2).toNat = 0 by omega, divLoop] at hb
    have hstart : Blocks.Whole ⟨big, 0, z⟩ :=
      ⟨hlt, le_refl _, hz, by show big 0 ≠ 0; rw [hfirst]; exact hzero.resolve_right (by omega)⟩
    obtain ⟨hend, hle⟩ := mulLoop_spec e2.toNat e2.toNat hstart
    rw [← hb] at hend hle
    have hnonpos := hend.a_le
    refine ⟨⟨hend.lt_base, fun i h0 h1 => by omega, Or.inl (if_pos hend.a_lt)⟩, by simpa using hle, by omega⟩

/-! ## Rounding -/

/-- What the length of the output needs of the blocks and the exponent: before the point there are as many digits as the
exponent says, or one. -/
structure Blocks.Fits (b : Blocks) (e : ℤ) : Prop where
  lt_base : ∀ i, b.big i < base
  whole : b.a ≤ 0 → e = b.exponent
  fraction : 0 < b.a → e ≤ 0 ∧ b.big 0 ≤ 9

theorem Blocks.exponent_nonpos (h : b.big b.a < base) (ha : 0 < b.a) : b.exponent ≤ 0 := by
  obtain ⟨k, hexp, hk, -, -⟩ := Blocks.exponent_spec h
  omega

theorem Blocks.Normal.fits (h : b.Normal e isF) : b.Fits e := by
  refine ⟨h.lt_base, fun ha => ?_, fun ha => ⟨?_, ?_⟩⟩
  · exact h.exponent.resolve_right fun hf => absurd hf.2.1 (by omega)
  · rcases h.exponent with he | ⟨-, -, he⟩
    · rw [he]
      exact Blocks.exponent_nonpos (h.lt_base _) ha
    · rw [he]
  · rw [h.zeros 0 (le_refl _) ha]
    exact Nat.zero_le _

/-- A new exponent always fits, if the units are right. -/
theorem Blocks.fits_exponent (h : ∀ i, b.big i < base) (h0 : 0 < b.a → b.big 0 ≤ 9) :
    b.Fits b.exponent :=
  ⟨h, fun _ => rfl, fun ha => ⟨Blocks.exponent_nonpos (h _) ha, h0 ha⟩⟩

/-- The carry ends where a block is not full, or in a new block before the first one. -/
theorem carryLoop_inside (fuel : ℕ) (had : a ≤ d) (hfuel : (d - a).toNat + 2 ≤ fuel) (hbig : ∀ i ≠ d, big i < base) :
    ∃ big' d' a', carryLoop fuel d big a = .ok (big', d', a') ∧ (∀ i, big' i < base) ∧ (a' = a ∨ a' = a - 1) ∧
      ∀ i < a', big' i = big i := by
  induction fuel generalizing d big with
  | zero => omega
  | succ fuel ih =>
    rw [carryLoop]
    split
    · by_cases hlt : d - 1 < a
      · -- the first block is full
        obtain rfl : d = a := by omega
        rcases fuel with _ | fuel
        · omega
        simp only [hlt, if_true, update_self]
        rw [carryLoop, update_self]
        refine ⟨_, _, _, rfl, ?_, Or.inr rfl, fun i hi => ?_⟩
        · refine update_lt_base (by decide) fun i hi => ?_
          rw [update_of_ne hi]
          exact update_lt_base base_pos hbig i
        · rw [update_of_ne (by omega), update_of_ne (by omega), update_of_ne (by omega)]
      · simp only [hlt]
        have hcarry : ∀ i ≠ d - 1, update (update big d 0) (d - 1)
            (update big d 0 (d - 1) + 1) i < base := by
          intro i hi
          rw [update_of_ne hi]
          exact update_lt_base base_pos hbig i
        obtain ⟨big', d', a', hrun, hlt', ha', hold⟩ := ih (by omega) (by omega) hcarry
        refine ⟨big', d', a', hrun, hlt', ha', fun i hi => ?_⟩
        rw [hold i hi, update_of_ne (by omega), update_of_ne (by omega)]
    · rename_i hle
      refine ⟨big, d, a, rfl, ?_, Or.inl rfl, fun _ _ => rfl⟩
      rw [← update_eq_self d big]
      exact update_lt_base (Nat.lt_succ_of_le (Nat.not_lt.mp hle)) hbig

theorem carryLoop_before (fuel : ℕ) (hfuel : 2 ≤ fuel) (hd1 : 1 ≤ d) (hda : d < a)
    (hbig : ∀ i ≠ d, big i < base) (hzeros : ∀ i, 0 ≤ i → i < a → i ≠ d → big i = 0) :
    ∃ big' d' a', carryLoop fuel d big a = .ok (big', d', a') ∧ (∀ i, big' i < base) ∧ (a' = a ∨ a' = a - 1) ∧
      big' 0 ≤ 9 := by
  rcases fuel with _ | fuel
  · omega
  rcases fuel with _ | fuel
  · omega
  rw [carryLoop]
  split
  · dsimp only
    rw [if_pos (show d - 1 < a by omega), if_pos (show d - 1 < a by omega)]
    have hprev : update (update big d 0) (a - 1) 0 (d - 1) = 0 := by
      rw [update_of_ne (by omega), update_of_ne (by omega)]
      exact hzeros _ (by omega) (by omega) (by omega)
    rw [hprev, carryLoop, update_self]
    have hcell := update_lt_base (d := a - 1) base_pos fun i _ => update_lt_base base_pos hbig i
    refine ⟨_, _, _, rfl, update_lt_base (by decide) fun i _ => hcell i, Or.inr rfl, ?_⟩
    · by_cases h0 : (0 : ℤ) = d - 1
      · rw [h0, update_self]
        decide
      · rw [update_of_ne h0]
        by_cases h1 : (0 : ℤ) = a - 1
        · rw [h1, update_self]
          decide
        · rw [update_of_ne h1, update_of_ne (by omega), hzeros 0 (le_refl _) (by omega) (by omega)]
          decide
  · rename_i hle
    refine ⟨big, d, a, rfl, ?_, Or.inl rfl, ?_⟩
    · rw [← update_eq_self d big]
      exact update_lt_base (Nat.lt_succ_of_le (Nat.not_lt.mp hle)) hbig
    · rw [hzeros 0 (le_refl _) (by omega) (by omega)]
      decide

/-- A number that is cut off behind a digit keeps its first digit. -/
theorem pow_le_sub_mod {v s : ℕ} (hk : 10 ^ k ≤ v) (hs : s ≤ k) : 10 ^ k ≤ v - v % 10 ^ s := by
  obtain ⟨c, rfl⟩ := Nat.exists_eq_add_of_le hs
  rw [Nat.pow_add] at hk ⊢
  have hsub : v - v % 10 ^ s = 10 ^ s * (v / 10 ^ s) := by
    have := Nat.div_add_mod v (10 ^ s)
    omega
  rw [hsub]
  refine Nat.mul_le_mul_left _ ?_
  rw [Nat.le_div_iff_mul_le (by positivity), Nat.mul_comm]
  exact hk

/-- The block `d` can be rounded: it is one of the blocks, or one of the zeros behind the units and before them. -/
def Blocks.CanRound (b : Blocks) (d : ℤ) : Prop := b.a ≤ d ∧ (0 < b.a → 1 ≤ d) ∨ 1 ≤ d ∧ d < b.a

/-- **Rounding of a block** keeps the number of digits right. -/
theorem roundBlock_fits (mode : Rounding) (neg : Bool) {s : ℕ}
    (h : b.Fits e) (hzeros : ∀ i, 0 ≤ i → i < b.a → b.big i = 0) (hd : b.CanRound d)
    (hkeep : d = b.a → b.a ≤ 0 → (s : ℤ) ≤ b.exponent - 9 * (0 - b.a)) :
    ∃ b' d' e', roundBlock mode neg d (10 ^ s) b e = .ok (b', d', e') ∧ b'.Fits e' ∧
      (b'.a = b.a ∨ b'.a = b.a - 1) ∧ (e' = e ∨ e' = b'.exponent) := by
  unfold roundBlock
  dsimp only
  split
  · have hcell : ∀ i ≠ d, update b.big d (b.big d - b.big d % 10 ^ s) i = b.big i :=
      fun i hi => update_of_ne hi ..
    have hbig : ∀ i ≠ d, update (update b.big d (b.big d - b.big d % 10 ^ s)) d
        (update b.big d (b.big d - b.big d % 10 ^ s) d + 10 ^ s) i = b.big i := by
      intro i hi
      rw [update_of_ne hi, hcell i hi]
    generalize roundsUp mode neg _ _ = up
    cases up with
    | true =>
      rcases hd with ⟨had, hd1⟩ | ⟨hd1, hda⟩
      · obtain ⟨big', d', a', hrun, hlt, ha', hold⟩ := carryLoop_inside ((d - b.a).toNat + 3) had (by omega)
          (fun i hi => (hbig i hi).trans_lt (h.lt_base i))
        rw [hrun]
        refine ⟨⟨big', a', b.z⟩, d', _, rfl, Blocks.fits_exponent hlt fun hpos => ?_, ha', Or.inr rfl⟩
        show big' 0 ≤ 9
        have hpos' : 0 < a' := hpos
        rw [hold 0 hpos', hbig 0 (by have := hd1 (by omega); omega), hzeros 0 (le_refl _) (by omega)]
        decide
      · obtain ⟨big', d', a', hrun, hlt, ha', h0⟩ := carryLoop_before ((d - b.a).toNat + 3) (by omega) hd1 hda
          (fun i hi => (hbig i hi).trans_lt (h.lt_base i))
          (fun i h₀ h1 hi => (hbig i hi).trans (hzeros i h₀ h1))
        rw [hrun]
        exact ⟨⟨big', a', b.z⟩, d', _, rfl, Blocks.fits_exponent hlt fun _ => h0, ha', Or.inr rfl⟩
    | false =>
      refine ⟨_, _, _, rfl, ⟨?_, fun ha => ?_, fun ha => ⟨(h.fraction ha).1, ?_⟩⟩, Or.inl rfl, Or.inl rfl⟩
      · exact update_lt_base ((Nat.sub_le ..).trans_lt (h.lt_base d)) fun i _ => h.lt_base i
      · have ha' : b.a ≤ 0 := ha
        rw [h.whole ha']
        by_cases hda : d = b.a
        · -- the first block keeps its first digit
          obtain ⟨k, hexp, hk, hlt, hlow⟩ := Blocks.exponent_spec (h.lt_base b.a)
          rw [hexp]
          refine Eq.symm (Blocks.exponent_eq
            (b := ⟨update b.big d (b.big d - b.big d % 10 ^ s), b.a, b.z⟩) hk ?_ ?_)
          · show update b.big d (b.big d - b.big d % 10 ^ s) b.a < 10 ^ (k + 1)
            rw [hda, update_self]
            omega
          · show 10 ^ k ≤ update b.big d (b.big d - b.big d % 10 ^ s) b.a ∨ k = 0
            rw [hda, update_self]
            exact hlow.imp (fun hle => pow_le_sub_mod hle (by omega)) id
        · show expLoop (b.big b.a) 10 10 _ = expLoop (update b.big d _ b.a) 10 10 _
          rw [hcell b.a (Ne.symm hda)]
      · show update b.big d (b.big d - b.big d % 10 ^ s) 0 ≤ 9
        have ha' : 0 < b.a := ha
        have hne : (0 : ℤ) ≠ d := by
          rcases hd with ⟨-, hd1⟩ | ⟨hd1, -⟩
          · omega
          · omega
        rw [hcell 0 hne]
        exact (h.fraction ha').2
  · exact ⟨_, _, _, rfl, h, Or.inl rfl, Or.inl rfl⟩

/-- **Rounding** keeps the number of digits right. For `f` the digit is behind the point; for the others it is not
before the first one. -/
theorem roundAt_fits (L : LdblFormat) (mode : Rounding) (neg : Bool) {j : ℤ}
    (h : b.Normal e isF) (hF : isF = true → 0 ≤ j) (hE : isF = false → -e ≤ j) (hj : -(9 * L.maxExp : ℤ) ≤ j) :
    ∃ b' e', roundAt L mode neg j b e = .ok (b', e') ∧ b'.Fits e' ∧ (b'.a = b.a ∨ b'.a = b.a - 1) ∧
      (e' = e ∨ e' = b'.exponent) := by
  unfold roundAt
  split
  · have hdiv : (j + 9 * L.maxExp).tdiv 9 = j / 9 + L.maxExp := by
      rw [Int.tdiv_eq_ediv_of_nonneg (by omega)]
      omega
    have hmod : (j + 9 * L.maxExp).tmod 9 = j % 9 := by
      rw [Int.tmod_eq_emod_of_nonneg (by omega)]
      omega
    dsimp only
    rw [hdiv, hmod]
    obtain ⟨k, hexp, hk, -, -⟩ := Blocks.exponent_spec (h.lt_base b.a)
    have hd : b.CanRound (1 + (j / 9 + L.maxExp - L.maxExp)) := by
      cases isF with
      | true =>
        have := hF rfl
        unfold Blocks.CanRound
        omega
      | false =>
        have := hE rfl
        have he := h.exponent.resolve_right fun hf => absurd hf.1 (by decide)
        refine Or.inl ⟨by omega, fun _ => by omega⟩
    have hkeep : 1 + (j / 9 + L.maxExp - L.maxExp) = b.a → b.a ≤ 0 →
        (((9 - j % 9).toNat : ℕ) : ℤ) ≤ b.exponent - 9 * (0 - b.a) := by
      intro hda ha
      cases isF with
      | true =>
        have := hF rfl
        omega
      | false =>
        have := hE rfl
        have he := h.exponent.resolve_right fun hf => absurd hf.1 (by decide)
        omega
    obtain ⟨b', d', e', hrun, hfits, ha', he'⟩ := roundBlock_fits mode neg h.fits h.zeros hd hkeep
    rw [hrun]
    exact ⟨_, _, rfl, ⟨hfits.lt_base, hfits.whole, hfits.fraction⟩, ha', he'⟩
  · exact ⟨_, _, rfl, h.fits, Or.inl rfl, Or.inl rfl⟩

end Leblibc.Printf.Core
