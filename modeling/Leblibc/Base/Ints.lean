import Mathlib.Data.Int.Init
import Mathlib.Tactic.Common

/-!
# Signed integers of C

A value of type `int` or `long long` is an integer in the range of the type. Arithmetic that leaves the
range is undefined in C, and is `none` here; a conversion to a type that cannot represent the value keeps
its lower bits, as the compilers of both architectures do.

## Main results

* `floor_tdiv`, `floor_tmod`: division that rounds down, as it is written in C
-/

namespace Leblibc

/-- The values of type `int`. -/
def IsInt (x : ℤ) : Prop := -2147483648 ≤ x ∧ x ≤ 2147483647

/-- The values of type `long long`. -/
def IsLlong (x : ℤ) : Prop := -9223372036854775808 ≤ x ∧ x ≤ 9223372036854775807

instance (x : ℤ) : Decidable (IsInt x) := inferInstanceAs (Decidable (_ ∧ _))

instance (x : ℤ) : Decidable (IsLlong x) := inferInstanceAs (Decidable (_ ∧ _))

/-- The result of arithmetic in `int`. -/
def int (x : ℤ) : Option ℤ := if IsInt x then some x else none

/-- The result of arithmetic in `long long`. -/
def llong (x : ℤ) : Option ℤ := if IsLlong x then some x else none

/-- Conversion to `int`. -/
def toInt (x : ℤ) : ℤ := x.bmod 4294967296

theorem int_of_isInt {x : ℤ} (h : IsInt x) : int x = some x := if_pos h

theorem llong_of_isLlong {x : ℤ} (h : IsLlong x) : llong x = some x := if_pos h

theorem toInt_of_isInt {x : ℤ} (h : IsInt x) : toInt x = x := by
  obtain ⟨hlo, hhi⟩ := h
  exact Int.bmod_eq_of_le (by omega) (by omega)

theorem isInt_toInt (x : ℤ) : IsInt (toInt x) := by
  have hle : -(((4294967296 : ℕ) : ℤ) / 2) ≤ x.bmod 4294967296 := Int.le_bmod (by decide)
  have hlt : x.bmod 4294967296 < (((4294967296 : ℕ) : ℤ) + 1) / 2 := Int.bmod_lt (by decide)
  unfold IsInt toInt
  omega

section Division

variable {x n : ℤ}

/-- The code's way to divide with a remainder that is not negative. -/
theorem floor_tdiv (hn : 0 < n) : (if x.tmod n < 0 then x.tdiv n - 1 else x.tdiv n) = x / n := by
  have hsum := Int.tmod_add_mul_tdiv x n
  have hlt := Int.tmod_lt_of_pos x hn
  have hgt := Int.lt_tmod_of_pos x hn
  rw [eq_comm]
  split
  · refine (Int.ediv_emod_unique (r := x.tmod n + n) hn).mpr ⟨?_, by omega, by omega⟩ |>.1
    rw [Int.mul_sub]
    omega
  · exact (Int.ediv_emod_unique hn).mpr ⟨hsum, by omega, by omega⟩ |>.1

theorem floor_tmod (hn : 0 < n) : (if x.tmod n < 0 then x.tmod n + n else x.tmod n) = x % n := by
  have hsum := Int.tmod_add_mul_tdiv x n
  have hlt := Int.tmod_lt_of_pos x hn
  have hgt := Int.lt_tmod_of_pos x hn
  rw [eq_comm]
  split
  · refine (Int.ediv_emod_unique (q := x.tdiv n - 1) hn).mpr ⟨?_, by omega, by omega⟩ |>.2
    rw [Int.mul_sub]
    omega
  · exact (Int.ediv_emod_unique hn).mpr ⟨hsum, by omega, by omega⟩ |>.2

end Division

theorem some_bind {α β : Type} (x : α) (f : α → Option β) : (some x >>= f) = f x := rfl

@[simp] theorem ok_bind {ε α β : Type} (a : α) (f : α → Except ε β) : ((Except.ok a : Except ε α) >>= f) = f a := rfl

@[simp] theorem error_bind {ε α β : Type} (e : ε) (f : α → Except ε β) :
    ((Except.error e : Except ε α) >>= f) = .error e := rfl

end Leblibc
