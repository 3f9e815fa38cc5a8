import Mathlib
import Leblibc.Base.Ints

/-!
# Machine words and C strings

The library is built for two architectures. Their only trace in the models is the width of
`size_t` and of a pointer; arithmetic in `size_t` is arithmetic on natural numbers reduced modulo
`2 ^ bits`. A C string is the list of its bytes up to the terminating NUL.

## Main definitions

* `Arch`, `Arch.bits`, `Arch.ptrSize`, `Arch.sizeMax`: the architectures and their word sizes
* `Arch.wrap`, `Arch.sub`: reduction of a number to `size_t`, and subtraction there
* `CStr`: a NUL-terminated string, as its bytes before the NUL
* `calloc`: whether a zeroed allocation succeeds
-/

namespace Leblibc

/-- The architectures under `arch/`. -/
inductive Arch where
  | i386
  | x86_64
  deriving DecidableEq, Repr

namespace Arch

/-- The number of bits of `size_t`. -/
def bits : Arch → ℕ
  | i386 => 32
  | x86_64 => 64

/-- The number of bytes of a pointer. -/
def ptrSize : Arch → ℕ
  | i386 => 4
  | x86_64 => 8

/-- `SIZE_MAX`. -/
def sizeMax (a : Arch) : ℕ := 2 ^ a.bits - 1

/-- The value of a computation in `size_t`. -/
def wrap (a : Arch) (n : ℕ) : ℕ := n % 2 ^ a.bits

/-- The difference of two numbers in `size_t`. -/
def sub (a : Arch) (x y : ℕ) : ℕ := a.wrap (x + (2 ^ a.bits - a.wrap y))

theorem wrap_of_lt {a : Arch} {n : ℕ} (h : n < 2 ^ a.bits) : a.wrap n = n := Nat.mod_eq_of_lt h

theorem wrap_lt (a : Arch) (n : ℕ) : a.wrap n < 2 ^ a.bits := Nat.mod_lt _ (by positivity)

theorem sub_of_le {a : Arch} {x y : ℕ} (h : y ≤ x) (hd : x - y < 2 ^ a.bits) : a.sub x y = x - y := by
  have hy := Nat.mod_add_div' y (2 ^ a.bits)
  -- the multiple of the modulus in `y` is one of those that the sum loses
  have hsum : x + (2 ^ a.bits - y % 2 ^ a.bits) = x - y + (y / 2 ^ a.bits + 1) * 2 ^ a.bits := by
    rw [Nat.add_mul]
    omega
  rw [sub, wrap, wrap, hsum, Nat.add_mul_mod_self_right, Nat.mod_eq_of_lt hd]

end Arch

/-- A NUL-terminated string: its bytes before the NUL. -/
structure CStr where
  bytes : List UInt8
  noNul : 0 ∉ bytes
  deriving DecidableEq

/-- `calloc(m, n)` where the underlying `malloc` has the outcome `ok`: the product is checked first
(`src/malloc/calloc.c`). -/
def calloc (a : Arch) (m n : ℕ) (ok : Bool) : Bool :=
  if n ≠ 0 ∧ m > a.sizeMax / n then false else ok

/-- A successful `calloc` asked for an object that fits the address space. -/
theorem mul_lt_of_calloc {a : Arch} {m n : ℕ} {ok : Bool} (h : calloc a m n ok = true) :
    m * n < 2 ^ a.bits := by
  unfold calloc at h
  split at h
  · cases h
  · rename_i hc
    rcases Nat.eq_zero_or_pos n with rfl | hn
    · simp
    · have hm : m ≤ a.sizeMax / n := by
        by_contra hlt
        exact hc ⟨by omega, by omega⟩
      have hmul : m * n ≤ a.sizeMax := (Nat.le_div_iff_mul_le hn).mp hm
      have hpos : 0 < 2 ^ a.bits := by positivity
      unfold Arch.sizeMax at hmul
      omega

end Leblibc
