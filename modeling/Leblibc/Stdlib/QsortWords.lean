import Leblibc.Stdlib.Qsort
import Leblibc.Lib.Leonardo

/-!
# The bit string of smoothsort

The two words of `p` are the halves of one number, and the operations on them are those on this number, as
long as it fits. The sizes of the trees that the array has room for are the Leonardo numbers times the
width of an element.

## Main results

* `shl_ofNat`, `shr_ofNat`, `pntz_ofNat`: the operations on the two words
* `lpLoop_spec`: the loop that computes the sizes of the trees ends within the array of them
-/

namespace Leblibc.Qsort

open Function

open Leblibc.Lib

variable {a : Arch}

/-- The two words of a number. -/
def Pair.ofNat (a : Arch) (P : ℕ) : Pair := ⟨P % 2 ^ a.bits, P / 2 ^ a.bits⟩

theorem bits_pos (a : Arch) : 0 < a.bits := by
  cases a <;> decide

theorem three_lt_bits (a : Arch) : 3 < a.bits := by
  cases a <;> decide

/-! ## Shifts -/

theorem shlBits_ofNat {P n : ℕ} (hn : 0 < n) (hn' : n < a.bits) (hP : P * 2 ^ n < 2 ^ (2 * a.bits)) :
    shlBits a (Pair.ofNat a P) n = some (Pair.ofNat a (P * 2 ^ n)) := by
  rw [shlBits, if_pos ⟨hn, hn'⟩, Pair.ofNat, Pair.ofNat, Option.some_inj, Pair.mk.injEq]
  constructor <;> refine Nat.eq_of_testBit_eq fun i => ?_
  · simp only [Arch.wrap, Nat.testBit_mod_two_pow, Nat.testBit_shiftLeft, Nat.testBit_mul_two_pow]
    grind
  · -- the bits that leave the lower word come to the end of the upper one
    have hout : a.bits ≤ i → (P * 2 ^ n).testBit (i + a.bits) = false := fun hi =>
      Nat.testBit_lt_two_pow (lt_of_lt_of_le hP (Nat.pow_le_pow_right (by decide) (by omega)))
    simp only [Arch.wrap, Nat.testBit_or, Nat.testBit_mod_two_pow, Nat.testBit_shiftLeft, Nat.testBit_shiftRight,
      Nat.testBit_div_two_pow, Nat.testBit_mul_two_pow] at hout ⊢
    grind

theorem shl_ofNat {P n : ℕ} (hn : 0 < n) (hP : 0 < P) (hlt : P * 2 ^ n < 2 ^ (2 * a.bits)) :
    shl a (Pair.ofNat a P) n = some (Pair.ofNat a (P * 2 ^ n)) := by
  unfold shl
  by_cases hge : a.bits ≤ n
  · -- the number fits the lower word
    have hsplit : P * 2 ^ n = P * 2 ^ (n - a.bits) * 2 ^ a.bits := by
      rw [mul_assoc, ← pow_add, Nat.sub_add_cancel hge]
    have hfit : P * 2 ^ (n - a.bits) < 2 ^ a.bits := by
      rw [hsplit, two_mul, pow_add] at hlt
      exact Nat.lt_of_mul_lt_mul_right hlt
    have hPlt : P < 2 ^ a.bits := lt_of_le_of_lt (Nat.le_mul_of_pos_right P (Nat.two_pow_pos _)) hfit
    have hwords : Pair.ofNat a (P * 2 ^ a.bits) = ⟨0, P⟩ := by
      rw [Pair.ofNat, Nat.mul_mod_left, Nat.mul_div_cancel _ (Nat.two_pow_pos _)]
    have hlo : (Pair.ofNat a P).lo = P := Nat.mod_eq_of_lt hPlt
    rw [if_pos hge, hlo]
    by_cases hz : n - a.bits = 0
    · rw [if_pos hz, hsplit, hz, pow_zero, mul_one, hwords]
    · have hnlt : n - a.bits < a.bits := by
        by_contra hle
        have : 2 ^ a.bits ≤ 2 ^ (n - a.bits) := Nat.pow_le_pow_right (by omega) (by omega)
        have := Nat.le_mul_of_pos_left (2 ^ (n - a.bits)) hP
        omega
      rw [if_neg hz, ← hwords, shlBits_ofNat (by omega) hnlt ?_, hsplit, mul_right_comm]
      rw [mul_right_comm, ← hsplit]
      exact hlt
  · rw [if_neg hge]
    exact shlBits_ofNat hn (by omega) hlt

theorem shrBits_ofNat {P n : ℕ} (hn : 0 < n) (hn' : n < a.bits) :
    shrBits a (Pair.ofNat a P) n = some (Pair.ofNat a (P / 2 ^ n)) := by
  rw [shrBits, if_pos ⟨hn, hn'⟩, Pair.ofNat, Pair.ofNat, Option.some_inj, Pair.mk.injEq]
  constructor <;> refine Nat.eq_of_testBit_eq fun i => ?_
  · -- the bits that leave the upper word come to the beginning of the lower one
    simp only [Arch.wrap, Nat.testBit_or, Nat.testBit_mod_two_pow, Nat.testBit_shiftLeft, Nat.testBit_shiftRight,
      Nat.testBit_div_two_pow]
    grind
  · simp only [Nat.testBit_shiftRight, Nat.testBit_div_two_pow]
    grind

theorem shr_ofNat {P n : ℕ} (hn : 0 < n) (hn' : n < 2 * a.bits) (hP : P < 2 ^ (2 * a.bits)) :
    shr a (Pair.ofNat a P) n = some (Pair.ofNat a (P / 2 ^ n)) := by
  unfold shr
  by_cases hge : a.bits ≤ n
  · have hhi : P / 2 ^ a.bits < 2 ^ a.bits := by
      rw [Nat.div_lt_iff_lt_mul (Nat.two_pow_pos _), ← pow_add, ← two_mul]
      exact hP
    have hwords : Pair.ofNat a (P / 2 ^ a.bits) = ⟨P / 2 ^ a.bits, 0⟩ := by
      rw [Pair.ofNat, Nat.mod_eq_of_lt hhi, Nat.div_eq_of_lt hhi]
    have hsplit : P / 2 ^ n = P / 2 ^ a.bits / 2 ^ (n - a.bits) := by
      rw [Nat.div_div_eq_div_mul, ← pow_add, Nat.add_sub_cancel' hge]
    have hp : (Pair.ofNat a P).hi = P / 2 ^ a.bits := rfl
    rw [if_pos hge, hp]
    split_ifs with hz
    · rw [hsplit, hz, pow_zero, Nat.div_one, hwords]
    · rw [← hwords, shrBits_ofNat (by omega) (by omega), hsplit]
  · rw [if_neg hge]
    exact shrBits_ofNat hn (by omega)

/-! ## Bits -/

theorem ntz_mul {d c bits : ℕ} (hc : c % 2 = 1) (hd : d < bits) : ntz bits (2 ^ d * c) = d := by
  induction d generalizing bits with
  | zero =>
    obtain ⟨bits, rfl⟩ := Nat.exists_eq_succ_of_ne_zero (Nat.ne_of_gt hd)
    rw [ntz, pow_zero, one_mul, if_pos hc]
  | succ d ih =>
    obtain ⟨bits, rfl⟩ := Nat.exists_eq_succ_of_ne_zero (Nat.ne_of_gt (Nat.zero_lt_of_lt hd))
    have heven : 2 ^ (d + 1) * c = 2 * (2 ^ d * c) := by ring
    rw [ntz, heven, if_neg (by omega), Nat.mul_div_cancel_left _ (by decide), ih (by omega), add_comm]

theorem pntz_ofNat {P d c : ℕ} (hP : P = 1 + 2 ^ d * c) (hd : 0 < d) (hc : c % 2 = 1)
    (hlt : P < 2 ^ (2 * a.bits)) : pntz a (Pair.ofNat a P) = d := by
  have hpow : 2 ≤ 2 ^ d := Nat.le_self_pow (by omega) 2
  have hcpos : 0 < c := by omega
  have hbits := bits_pos a
  unfold pntz
  rcases Nat.lt_or_ge d a.bits with hdb | hdb
  · -- the next bit is in the lower word
    have hsplit : 2 ^ a.bits = 2 ^ d * 2 ^ (a.bits - d) := by
      rw [← pow_add, Nat.add_sub_cancel' hdb.le]
    have hodd : c % 2 ^ (a.bits - d) % 2 = 1 := by
      rw [Nat.mod_mod_of_dvd c (dvd_pow_self 2 (by omega))]
      exact hc
    have hrest : 2 ^ d * c % 2 ^ a.bits = 2 ^ d * (c % 2 ^ (a.bits - d)) := by
      rw [hsplit, Nat.mul_mod_mul_left]
    have hlt' : 1 + 2 ^ d * (c % 2 ^ (a.bits - d)) < 2 ^ a.bits := by
      have hle : c % 2 ^ (a.bits - d) + 1 ≤ 2 ^ (a.bits - d) := Nat.mod_lt _ (Nat.two_pow_pos _)
      have hmul := Nat.mul_le_mul_left (2 ^ d) hle
      rw [mul_add] at hmul
      omega
    have hlo : (Pair.ofNat a P).lo = 1 + 2 ^ d * (c % 2 ^ (a.bits - d)) := by
      show P % 2 ^ a.bits = _
      rw [hP, Nat.add_mod, hrest, Nat.mod_eq_of_lt (Nat.one_lt_two_pow (by omega)),
        Nat.mod_eq_of_lt hlt']
    have hpos : 0 < 2 ^ d * (c % 2 ^ (a.bits - d)) :=
      Nat.mul_pos (Nat.two_pow_pos d) (by omega)
    rw [hlo, if_pos (by omega), Arch.sub_of_le (by omega) (by omega), Nat.add_sub_cancel_left,
      ntz_mul hodd hdb]
  · -- it is in the upper word
    have hsplit : 2 ^ d * c = 2 ^ (d - a.bits) * c * 2 ^ a.bits := by
      rw [mul_right_comm, ← pow_add, Nat.sub_add_cancel hdb]
    have hone : 1 < 2 ^ a.bits := Nat.one_lt_two_pow (by omega)
    have hlo : (Pair.ofNat a P).lo = 1 := by
      show P % 2 ^ a.bits = _
      rw [hP, hsplit, Nat.add_mul_mod_self_right, Nat.mod_eq_of_lt hone]
    have hhi : (Pair.ofNat a P).hi = 2 ^ (d - a.bits) * c := by
      show P / 2 ^ a.bits = _
      rw [hP, hsplit, Nat.add_mul_div_right _ _ (Nat.two_pow_pos _), Nat.div_eq_of_lt hone, zero_add]
    have hpos : 0 < 2 ^ (d - a.bits) * c := Nat.mul_pos (Nat.two_pow_pos _) hcpos
    have hdlt : d < 2 * a.bits := by
      by_contra hge
      have h1 : 2 ^ (2 * a.bits) ≤ 2 ^ d := Nat.pow_le_pow_right (by omega) (by omega)
      have h2 : 2 ^ d ≤ 2 ^ d * c := Nat.le_mul_of_pos_right _ hcpos
      omega
    rw [if_neg (by omega), hhi, if_pos (by omega), ntz_mul hc (by omega)]
    omega

theorem ofNat_eq_one_iff {P : ℕ} :
    ((Pair.ofNat a P).lo ≠ 1 ∨ (Pair.ofNat a P).hi ≠ 0) ↔ P ≠ 1 := by
  have hone : 1 < 2 ^ a.bits := Nat.one_lt_two_pow (bits_pos a).ne'
  show (P % 2 ^ a.bits ≠ 1 ∨ P / 2 ^ a.bits ≠ 0) ↔ P ≠ 1
  constructor
  · rintro h rfl
    rw [Nat.mod_eq_of_lt hone, Nat.div_eq_of_lt hone] at h
    omega
  · intro h
    by_contra hne
    push Not at hne
    have := Nat.mod_add_div' P (2 ^ a.bits)
    rw [hne.1, hne.2, Nat.zero_mul] at this
    exact h this.symm

theorem ofNat_lo_and_three {P : ℕ} : (Pair.ofNat a P).lo &&& 3 = 3 ↔ P % 4 = 3 := by
  have hdvd : 2 ^ 2 ∣ 2 ^ a.bits := pow_dvd_pow 2 (by have := three_lt_bits a; omega)
  have hand : P % 2 ^ a.bits &&& (2 ^ 2 - 1) = P % 4 := by
    rw [Nat.and_two_pow_sub_one_eq_mod, Nat.mod_mod_of_dvd P hdvd]
    rfl
  exact Eq.congr_left hand

theorem or_one_of_even {x : ℕ} (h : x % 2 = 0) : x ||| 1 = x + 1 := by
  have hmod : (x ||| 1) % 2 ^ 1 = 1 := by
    rw [Nat.or_mod_two_pow, show x % 2 ^ 1 = 0 from h]
    rfl
  have hdiv : (x ||| 1) / 2 ^ 1 = x / 2 ^ 1 := by
    rw [Nat.or_div_two_pow]
    exact Nat.or_zero _
  omega

/-- The low three bits are `100`, and become `011`. -/
theorem xor_seven_of_four {x : ℕ} (h : x % 8 = 4) : x ^^^ 7 = x - 1 := by
  have hmod : (x ^^^ 7) % 2 ^ 3 = 3 := by
    rw [Nat.xor_mod_two_pow, show x % 2 ^ 3 = 4 from h]
    rfl
  have hdiv : (x ^^^ 7) / 2 ^ 3 = x / 2 ^ 3 := by
    rw [Nat.xor_div_two_pow]
    exact Nat.xor_zero _
  omega

theorem lt_two_pow_bits (a : Arch) {x : ℕ} (hx : x < 8) : x < 2 ^ a.bits :=
  lt_of_lt_of_le (show x < 2 ^ 3 from hx) (Nat.pow_le_pow_right Nat.two_pos (three_lt_bits a).le)

theorem ofNat_or_one {P : ℕ} (hP : P % 2 = 0) :
    { Pair.ofNat a P with lo := (Pair.ofNat a P).lo ||| 1 } = Pair.ofNat a (P + 1) := by
  have hone := lt_two_pow_bits a (x := 1) (by decide)
  rw [← or_one_of_even hP, Pair.ofNat, Pair.ofNat, Nat.or_mod_two_pow, Nat.or_div_two_pow, Nat.mod_eq_of_lt hone,
    Nat.div_eq_of_lt hone, Nat.or_zero]

theorem ofNat_xor_seven {P : ℕ} (hP : P % 8 = 4) :
    { Pair.ofNat a P with lo := (Pair.ofNat a P).lo ^^^ 7 } = Pair.ofNat a (P - 1) := by
  have hseven := lt_two_pow_bits a (x := 7) (by decide)
  rw [← xor_seven_of_four hP, Pair.ofNat, Pair.ofNat, Nat.xor_mod_two_pow, Nat.xor_div_two_pow,
    Nat.mod_eq_of_lt hseven, Nat.div_eq_of_lt hseven, Nat.xor_zero]

/-! ## The sizes of the trees -/

section Sizes

variable {σ : Type} {E : Env σ}

/-- No tree of the last order for which there is room in `lp` fits half of memory. -/
theorem half_lt_leonardo (a : Arch) : 2 ^ (a.bits - 1) < leonardo (12 * a.ptrSize - 1) := by
  have h := leonardo_add_one (12 * a.ptrSize - 1)
  have hfib : 2 ^ (a.bits - 1) + 1 < 2 * Nat.fib (12 * a.ptrSize - 1 + 1) := by
    cases a <;> decide +kernel
  omega

theorem lt_of_leonardo_le {a : Arch} {k : ℕ} (h : leonardo k ≤ 2 ^ (a.bits - 1)) :
    k + 1 < 12 * a.ptrSize := by
  by_contra hge
  have h1 := half_lt_leonardo a
  have h2 : leonardo (12 * a.ptrSize - 1) ≤ leonardo k := leonardo_mono (by omega)
  omega

/-- The loop where there are several elements: no size exceeds a word. -/
theorem lpLoop_many (hw : 0 < E.width) (hsize : E.nel * E.width < 2 ^ (E.arch.bits - 1)) {lp : ℕ → ℕ}
    (fuel : ℕ) {i : ℕ} (hi : 2 ≤ i) (hlp : ∀ k < i, lp k = leonardo k * E.width)
    (hlt : leonardo (i - 1) < E.nel) (hfuel : 12 * E.arch.ptrSize ≤ fuel + i) :
    ∃ lp', E.lpLoop (E.nel * E.width) fuel i lp = some lp' ∧
      ∀ k, leonardo k ≤ E.nel → lp' k = leonardo k * E.width := by
  induction fuel generalizing i lp with
  | zero =>
    have hnel : E.nel ≤ E.nel * E.width := Nat.le_mul_of_pos_right _ hw
    have := lt_of_leonardo_le (a := E.arch) (k := i - 1) (by omega)
    omega
  | succ fuel ih =>
    have hnel : E.nel ≤ E.nel * E.width := Nat.le_mul_of_pos_right _ hw
    have hidx := lt_of_leonardo_le (a := E.arch) (k := i - 1) (by omega)
    have hbits : 2 ^ E.arch.bits = 2 * 2 ^ (E.arch.bits - 1) := by
      rw [← pow_succ', Nat.sub_add_cancel (bits_pos E.arch)]
    -- the next size
    have hnext : leonardo i = leonardo (i - 2) + leonardo (i - 1) + 1 := by
      obtain ⟨j, rfl⟩ := Nat.exists_eq_add_of_le' hi
      exact leonardo_add_two j
    have hval : E.arch.wrap (lp (i - 2) + lp (i - 1) + E.width) = leonardo i * E.width := by
      rw [hlp (i - 2) (by omega), hlp (i - 1) (by omega), hnext]
      have hmono := leonardo_mono (show i - 2 ≤ i - 1 by omega)
      have hle : (leonardo (i - 2) + leonardo (i - 1) + 1) * E.width ≤ 2 * E.nel * E.width :=
        Nat.mul_le_mul_right _ (by omega)
      rw [Arch.wrap_of_lt]
      · ring
      · rw [mul_assoc] at hle
        rw [add_mul, add_mul] at hle
        omega
    rw [Env.lpLoop, if_pos (by omega)]
    simp only [hval, update_self]
    have hlp' : ∀ k < i + 1, Function.update lp i (leonardo i * E.width) k =
        leonardo k * E.width := by
      intro k hk
      rcases (Nat.le_of_lt_succ hk).eq_or_lt with rfl | hlt'
      · rw [update_self]
      · rw [update_of_ne (by omega), hlp k hlt']
    split_ifs with hgo
    · exact ih (by omega) hlp' (Nat.lt_of_mul_lt_mul_right hgo) (by omega)
    · refine ⟨_, rfl, fun k hk => hlp' k ?_⟩
      -- a larger order has no room
      by_contra hge
      have hmore := leonardo_lt_leonardo (j := i) (k := k) (by omega) (by omega)
      have hroom : E.nel ≤ leonardo i := Nat.le_of_mul_le_mul_right (Nat.le_of_not_lt hgo) hw
      omega

/-- The loop where there is one element, whatever its width: the sizes may wrap around, and are then below
half of memory by a growing multiple of what the element leaves there. -/
theorem lpLoop_one {w d : ℕ} (hwd : E.width = w) (hhalf : w + d = 2 ^ (E.arch.bits - 1)) (hd : 0 < d)
    {lp : ℕ → ℕ} (fuel : ℕ) {i : ℕ} (hi : 2 ≤ i) (hlp1 : lp (i - 1) + leonardo (i - 1) * d = 2 ^ (E.arch.bits - 1))
    (hlp2 : lp (i - 2) + leonardo (i - 2) * d = 2 ^ (E.arch.bits - 1))
    (h0 : lp 0 = w) (h1 : lp 1 = w) (hfuel : 12 * E.arch.ptrSize ≤ fuel + i) :
    ∃ lp', E.lpLoop w fuel i lp = some lp' ∧ lp' 0 = w ∧ lp' 1 = w := by
  have hidx : i < 12 * E.arch.ptrSize := by
    have hle : leonardo (i - 1) ≤ leonardo (i - 1) * d := Nat.le_mul_of_pos_right _ hd
    have := lt_of_leonardo_le (a := E.arch) (k := i - 1) (by omega)
    omega
  induction fuel generalizing i lp with
  | zero => omega
  | succ fuel ih =>
    have hbits : 2 ^ E.arch.bits = 2 * 2 ^ (E.arch.bits - 1) := by
      rw [← pow_succ', Nat.sub_add_cancel (bits_pos E.arch)]
    have hnext : leonardo i * d = leonardo (i - 2) * d + leonardo (i - 1) * d + d := by
      obtain ⟨j, rfl⟩ := Nat.exists_eq_add_of_le' hi
      show leonardo (j + 2) * d = leonardo j * d + leonardo (j + 1) * d + d
      rw [leonardo_add_two]
      ring
    rw [Env.lpLoop, if_pos hidx, hwd]
    simp only [update_self]
    have hkeep0 : ∀ v, Function.update lp i v 0 = w := fun v => by
      rw [update_of_ne (by omega), h0]
    have hkeep1 : ∀ v, Function.update lp i v 1 = w := fun v => by
      rw [update_of_ne (by omega), h1]
    generalize hv : E.arch.wrap (lp (i - 2) + lp (i - 1) + w) = v
    by_cases hle : leonardo i * d ≤ 2 ^ (E.arch.bits - 1)
    · -- the sum wraps around once
      have hval : v + leonardo i * d = 2 ^ (E.arch.bits - 1) := by
        have hsum : lp (i - 2) + lp (i - 1) + w =
            2 ^ (E.arch.bits - 1) - leonardo i * d + 2 ^ E.arch.bits := by omega
        rw [← hv, Arch.wrap, hsum, Nat.add_mod_right, Nat.mod_eq_of_lt (by omega)]
        omega
      split_ifs with hgo
      · have hlast : Function.update lp i v i + leonardo i * d = 2 ^ (E.arch.bits - 1) := by
          rw [update_self]
          exact hval
        have hprev : Function.update lp i v (i - 1) + leonardo (i - 1) * d =
            2 ^ (E.arch.bits - 1) := by
          rw [update_of_ne (by omega)]
          exact hlp1
        refine ih (by omega) hlast hprev (hkeep0 v) (hkeep1 v) (by omega) ?_
        have hle' : leonardo i ≤ leonardo i * d := Nat.le_mul_of_pos_right _ hd
        exact lt_of_leonardo_le (by omega)
      · exact ⟨_, rfl, hkeep0 v, hkeep1 v⟩
    · -- it does not, and is no smaller than the element
      have hval : v = lp (i - 2) + lp (i - 1) + w := by
        rw [← hv, Arch.wrap_of_lt (by omega)]
      rw [if_neg (by omega)]
      exact ⟨_, rfl, hkeep0 v, hkeep1 v⟩

/-- **The sizes of the trees** for which there is room in the array are computed within `lp`. -/
theorem lpLoop_spec (hw : 0 < E.width) (hnel : 0 < E.nel)
    (hsize : E.nel * E.width < 2 ^ (E.arch.bits - 1)) (junk : ℕ → ℕ) (fuel : ℕ) (hfuel : 12 * E.arch.ptrSize ≤ fuel) :
    ∃ lp, E.lpLoop (E.nel * E.width) fuel 2
        (Function.update (Function.update junk 0 E.width) 1 E.width) = some lp ∧
      ∀ k, leonardo k ≤ E.nel → lp k = leonardo k * E.width := by
  have h1 : Function.update (Function.update junk 0 E.width) 1 E.width 1 = E.width :=
    update_self ..
  have h0 : Function.update (Function.update junk 0 E.width) 1 E.width 0 = E.width := by
    rw [update_of_ne (by decide), update_self]
  rcases Nat.lt_or_ge 1 E.nel with hmany | hone
  · refine lpLoop_many hw hsize fuel (le_refl 2) (fun k hk => ?_) hmany (by omega)
    interval_cases k
    · rw [h0, leonardo, one_mul]
    · rw [h1, leonardo, one_mul]
  · obtain hone : E.nel = 1 := by omega
    rw [hone, one_mul] at hsize ⊢
    obtain ⟨lp, heq, hlp0, hlp1⟩ := lpLoop_one
      (d := 2 ^ (E.arch.bits - 1) - E.width) rfl (by omega) (by omega) fuel (le_refl 2)
      (by rw [h1, leonardo]; omega) (by rw [h0, leonardo]; omega) h0 h1 (by omega)
    refine ⟨lp, heq, fun k hk => ?_⟩
    match k, hk with
    | 0, _ => rw [hlp0, leonardo, one_mul]
    | 1, _ => rw [hlp1, leonardo, one_mul]
    | k + 2, hk =>
      rw [leonardo_add_two] at hk
      have := leonardo_pos k
      omega

end Sizes

end Leblibc.Qsort
