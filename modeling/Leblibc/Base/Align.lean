import Leblibc.Base.Machine

/-!
# Alignment

Rounding to multiples of a power of two, as C writes it with masks: `-x & m-1` is what is missing to the next multiple
of `m`, and `x & -m` is the multiple of `m` before `x`.

## Main results

* `Arch.sub_and_spec`, `Arch.pad_spec`, `Arch.roundDown_eq`: what they compute
-/

namespace Leblibc.Arch

/-- `-x & m-1`. -/
def pad (a : Arch) (x m : ℕ) : ℕ := a.sub 0 x &&& (m - 1)

/-- `x & -m`. -/
def roundDown (a : Arch) (x m : ℕ) : ℕ := x &&& a.sub 0 m

variable {a : Arch} {x k : ℕ}

theorem sub_zero_left (hx : x < 2 ^ a.bits) (hpos : 0 < x) : a.sub 0 x = 2 ^ a.bits - x := by
  rw [sub, wrap_of_lt hx, Nat.zero_add, wrap_of_lt (by omega)]

/-- **`x-y & m-1`** is less than `m`, and makes `y` congruent to `x`. -/
theorem sub_and_spec (a : Arch) (hk : k ≤ a.bits) (x y : ℕ) :
    a.sub x y &&& (2 ^ k - 1) < 2 ^ k ∧ y + (a.sub x y &&& (2 ^ k - 1)) ≡ x [MOD 2 ^ k] := by
  obtain ⟨c, hc⟩ : 2 ^ k ∣ 2 ^ a.bits := Nat.pow_dvd_pow 2 hk
  have hmod : a.sub x y &&& (2 ^ k - 1) = (x + (2 ^ a.bits - y % 2 ^ a.bits)) % 2 ^ k := by
    rw [Nat.and_two_pow_sub_one_eq_mod, sub, wrap, wrap, Nat.mod_mod_of_dvd _ ⟨c, hc⟩]
  -- the sum is `x` and a multiple of `2 ^ bits`
  have hsum : y + (x + (2 ^ a.bits - y % 2 ^ a.bits)) = x + 2 ^ k * (c * (y / 2 ^ a.bits + 1)) := by
    have hsplit := Nat.div_add_mod y (2 ^ a.bits)
    have hlt := Nat.mod_lt y (Nat.two_pow_pos a.bits)
    rw [← Nat.mul_assoc, ← hc, Nat.mul_add]
    omega
  rw [hmod]
  refine ⟨Nat.mod_lt _ (Nat.two_pow_pos k), ?_⟩
  rw [Nat.ModEq, Nat.add_mod_mod, hsum, Nat.add_mul_mod_self_left]

/-- **`-x & m-1`** is less than `m`, and makes `x` a multiple of `m`. -/
theorem pad_spec (a : Arch) (hk : k ≤ a.bits) (x : ℕ) : a.pad x (2 ^ k) < 2 ^ k ∧ 2 ^ k ∣ x + a.pad x (2 ^ k) :=
  (sub_and_spec a hk 0 x).imp_right (Nat.modEq_zero_iff_dvd.mp ·)

/-- **`x & -m`** is the multiple of `m` before `x`. -/
theorem roundDown_eq (hk : k < a.bits) (hx : x < 2 ^ a.bits) : a.roundDown x (2 ^ k) = x - x % 2 ^ k := by
  have hpow : 2 ^ k < 2 ^ a.bits := Nat.pow_lt_pow_right (by decide) hk
  have hmask : 2 ^ a.bits - 2 ^ k = 2 ^ k * (2 ^ (a.bits - k) - 1) := by
    rw [Nat.mul_sub, ← pow_add, Nat.add_sub_cancel' hk.le, Nat.mul_one]
  have hmul : x - x % 2 ^ k = 2 ^ k * (x / 2 ^ k) := by
    have := Nat.div_add_mod x (2 ^ k)
    omega
  rw [roundDown, sub_zero_left hpow (Nat.two_pow_pos k), hmask, hmul]
  refine Nat.eq_of_testBit_eq fun i => ?_
  rw [Nat.testBit_and, Nat.testBit_two_pow_mul, Nat.testBit_two_pow_mul, Nat.testBit_div_two_pow]
  by_cases hi : k ≤ i
  · rcases lt_or_ge i a.bits with hlt | hge
    · simp [hi, Nat.sub_lt_sub_right hi hlt]
    · -- there are no bits above the word
      have hbit : x.testBit i = false := Nat.testBit_lt_two_pow (hx.trans_le (Nat.pow_le_pow_right (by decide) hge))
      simp [hi, hbit]
  · simp [hi]

theorem roundDown_add (hk : k < a.bits) (hx : x + (2 ^ k - 1) < 2 ^ a.bits) :
    x ≤ a.roundDown (x + (2 ^ k - 1)) (2 ^ k) ∧ a.roundDown (x + (2 ^ k - 1)) (2 ^ k) < x + 2 ^ k ∧
      2 ^ k ∣ a.roundDown (x + (2 ^ k - 1)) (2 ^ k) := by
  rw [roundDown_eq hk hx]
  exact ⟨by omega, by omega, Nat.dvd_sub_mod _⟩

end Leblibc.Arch
