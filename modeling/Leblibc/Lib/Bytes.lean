import Mathlib.Data.Nat.Bitwise
import Mathlib.Algebra.Order.Group.Nat
import Mathlib.Tactic.Ring
import Mathlib.Tactic.Common

/-!
# Words of bytes

A word of `k` bytes is the number with these digits to the base 256, the first byte being the lowest
one. Subtracting 1 from each byte at once borrows first at the lowest byte that is zero, which is how a
whole word is tested for a zero byte.

## Main definitions

* `ofBytes f k`: the word of the bytes `f 0, …, f (k - 1)`
* `repByte b k`: the word of `k` bytes `b`

## Main results

* `ofBytes_xor`: exclusive or acts on each byte
* `exists_testBit_of_eq_zero`: the test for a zero byte misses none
-/

namespace Leblibc.Lib

/-- The word of the bytes `f 0, …, f (k - 1)`, the lowest one first. -/
def ofBytes (f : ℕ → ℕ) : ℕ → ℕ
  | 0 => 0
  | k + 1 => f 0 + 256 * ofBytes (fun i => f (i + 1)) k

/-- The word of `k` bytes `b`. -/
def repByte (b : ℕ) : ℕ → ℕ := ofBytes fun _ => b

theorem ofBytes_lt {f : ℕ → ℕ} {k : ℕ} (h : ∀ i < k, f i < 256) : ofBytes f k < 256 ^ k := by
  induction k generalizing f with
  | zero => exact Nat.one_pos
  | succ k ih =>
    have h0 := h 0 (Nat.succ_pos k)
    have h1 := ih fun i hi => h (i + 1) (by omega)
    rw [ofBytes]
    omega

theorem repByte_succ (b k : ℕ) : repByte b (k + 1) = b + 256 * repByte b k := rfl

theorem repByte_mul (b c k : ℕ) : repByte b k * c = repByte (b * c) k := by
  induction k with
  | zero => exact Nat.zero_mul c
  | succ k ih =>
    rw [repByte_succ, repByte_succ, ← ih]
    ring

theorem repByte_lt {b : ℕ} (hb : b < 256) (k : ℕ) : repByte b k < 256 ^ k :=
  ofBytes_lt fun _ _ => hb

/-- The bits of a word beyond its first byte are those of the word of the other bytes. -/
theorem testBit_add_mul {b y : ℕ} (hb : b < 256) (j : ℕ) :
    (b + 256 * y).testBit (j + 8) = y.testBit j := by
  rw [← Nat.testBit_div_two_pow]
  congr 1
  omega

theorem testBit_seven {b y : ℕ} (hb : b < 256) : (b + 256 * y).testBit 7 = decide (128 ≤ b) := by
  rw [Nat.testBit_eq_decide_div_mod_eq]
  have : (b + 256 * y) / 2 ^ 7 % 2 = 1 ↔ 128 ≤ b := by omega
  simp only [this]

theorem xor_add_mul {b c y z : ℕ} (hb : b < 256) (hc : c < 256) :
    (b + 256 * y) ^^^ (c + 256 * z) = (b ^^^ c) + 256 * (y ^^^ z) := by
  have hmod : ((b + 256 * y) ^^^ (c + 256 * z)) % 2 ^ 8 = b ^^^ c := by
    rw [Nat.xor_mod_two_pow]
    congr 1 <;> omega
  have hdiv : ((b + 256 * y) ^^^ (c + 256 * z)) / 2 ^ 8 = y ^^^ z := by
    rw [Nat.xor_div_two_pow]
    congr 1 <;> omega
  omega

theorem ofBytes_xor {f g : ℕ → ℕ} {k : ℕ} (hf : ∀ i < k, f i < 256) (hg : ∀ i < k, g i < 256) :
    ofBytes f k ^^^ ofBytes g k = ofBytes (fun i => f i ^^^ g i) k := by
  induction k generalizing f g with
  | zero => exact Nat.xor_self 0
  | succ k ih =>
    rw [ofBytes, ofBytes, ofBytes, xor_add_mul (hf 0 (Nat.succ_pos k)) (hg 0 (Nat.succ_pos k)),
      ih (fun i hi => hf (i + 1) (by omega)) (fun i hi => hg (i + 1) (by omega))]

/-- **The test for a zero byte misses none**: where a byte of the word is zero, a high bit is set both in
the word from each byte of which 1 is subtracted and in the complement of the word. -/
theorem exists_testBit_of_eq_zero {f : ℕ → ℕ} {k : ℕ} (hf : ∀ i < k, f i < 256) (hz : ∃ i < k, f i = 0) :
    ∃ j, ((ofBytes f k + 256 ^ k - repByte 1 k) % 256 ^ k).testBit j = true ∧
      (256 ^ k - 1 - ofBytes f k).testBit j = true ∧ (repByte 128 k).testBit j = true := by
  -- by induction on the bytes: the lowest zero byte is found before any borrow
  induction k generalizing f with
  | zero =>
    omega
  | succ k ih =>
    have hf' : ∀ i < k, f (i + 1) < 256 := fun i hi => hf (i + 1) (by omega)
    have h0 := hf 0 (Nat.succ_pos k)
    have hlt := ofBytes_lt hf'
    have hone := repByte_lt (b := 1) (by omega) k
    have hpow : 256 ^ (k + 1) = 256 * 256 ^ k := by ring
    rw [ofBytes, repByte_succ, repByte_succ, hpow]
    generalize hy : ofBytes (fun i => f (i + 1)) k = y at *
    have hmod : ∀ b z, b < 256 → (b + 256 * z) % (256 * 256 ^ k) = b + 256 * (z % 256 ^ k) := by
      intro b z hb
      rw [Nat.mod_mul]
      congr 1
      · omega
      · congr 2
        omega
    rcases Nat.eq_zero_or_pos (f 0) with hb | hb
    · refine ⟨7, ?_, ?_, ?_⟩
      · have hsub : f 0 + 256 * y + 256 * 256 ^ k - (1 + 256 * repByte 1 k) =
            255 + 256 * (y + 256 ^ k - repByte 1 k - 1) := by
          omega
        rw [hsub, hmod _ _ (by omega), testBit_seven (by omega)]
        rfl
      · have hsub : 256 * 256 ^ k - 1 - (f 0 + 256 * y) = 255 + 256 * (256 ^ k - 1 - y) := by omega
        rw [hsub, testBit_seven (by omega)]
        rfl
      · rw [testBit_seven (by omega)]
        rfl
    · have hz' : ∃ i < k, f (i + 1) = 0 := by
        obtain ⟨i, hi, hi0⟩ := hz
        rcases i with - | i
        · omega
        · exact ⟨i, by omega, hi0⟩
      obtain ⟨j, hj1, hj2, hj3⟩ := ih hf' hz'
      rw [hy] at hj1 hj2
      refine ⟨j + 8, ?_, ?_, ?_⟩
      · have hsub : f 0 + 256 * y + 256 * 256 ^ k - (1 + 256 * repByte 1 k) =
            (f 0 - 1) + 256 * (y + 256 ^ k - repByte 1 k) := by
          omega
        rw [hsub, hmod _ _ (by omega), testBit_add_mul (by omega)]
        exact hj1
      · have hsub : 256 * 256 ^ k - 1 - (f 0 + 256 * y) = (255 - f 0) + 256 * (256 ^ k - 1 - y) := by
          omega
        rw [hsub, testBit_add_mul (by omega)]
        exact hj2
      · rw [testBit_add_mul (by omega)]
        exact hj3

end Leblibc.Lib
