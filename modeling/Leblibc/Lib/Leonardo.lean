import Mathlib.Data.Nat.Fib.Basic
import Mathlib.Algebra.Order.Ring.Nat
import Mathlib.Data.List.Pairwise
import Mathlib.Tactic.Ring
import Mathlib.Tactic.NormNum
import Mathlib.Tactic.Positivity

/-!
# Leonardo numbers

The Leonardo numbers are the sizes of the trees of a Leonardo heap: a tree of order `k + 2` is a root with
a tree of order `k + 1` and one of order `k`. A heap is a row of trees of increasing orders, from the
right to the left; its orders, from that of the first tree on, are coded as the bits of a number.

## Main definitions

* `leonardo k`: the size of a tree of order `k`
* `orderCode ks`: the code of the orders `ks`

## Main results

* `leonardo_lt_leonardo`: all but the first two numbers are distinct
* `leonardo_add_one`: Leonardo numbers and Fibonacci numbers
* `orderCode_lt`: how many bits a code has
-/

namespace Leblibc.Lib

/-- The Leonardo numbers. -/
def leonardo : ℕ → ℕ
  | 0 => 1
  | 1 => 1
  | k + 2 => leonardo k + leonardo (k + 1) + 1

variable (k : ℕ)

theorem leonardo_add_two : leonardo (k + 2) = leonardo k + leonardo (k + 1) + 1 := rfl

theorem leonardo_pos : 0 < leonardo k := by
  induction k using leonardo.induct with
  | case1 => decide
  | case2 => decide
  | case3 k _ _ =>
    rw [leonardo_add_two]
    omega

theorem leonardo_le_succ : leonardo k ≤ leonardo (k + 1) := by
  cases k with
  | zero => exact le_refl 1
  | succ k =>
    rw [leonardo_add_two]
    omega

theorem leonardo_mono {j k : ℕ} (h : j ≤ k) : leonardo j ≤ leonardo k :=
  monotone_nat_of_le_succ leonardo_le_succ h

theorem leonardo_lt_leonardo {j k : ℕ} (hj : 0 < j) (h : j < k) : leonardo j < leonardo k := by
  obtain ⟨i, rfl⟩ := Nat.exists_eq_succ_of_ne_zero (Nat.ne_of_gt hj)
  calc leonardo (i + 1) < leonardo (i + 2) := by
        rw [leonardo_add_two]
        omega
    _ ≤ leonardo k := leonardo_mono h

theorem leonardo_add_one : leonardo k + 1 = 2 * Nat.fib (k + 1) := by
  induction k using leonardo.induct with
  | case1 => rfl
  | case2 => rfl
  | case3 k ih1 ih2 =>
    rw [leonardo_add_two, Nat.fib_add_two]
    omega

/-! ## Codes of orders -/

/-- The code of the orders of a heap: bit `i` says that there is a tree of the order of the first one and
`i`. -/
def orderCode : List ℕ → ℕ
  | [] => 0
  | [_] => 1
  | k :: k' :: ks => 1 + 2 ^ (k' - k) * orderCode (k' :: ks)

theorem orderCode_singleton : orderCode [k] = 1 := rfl

theorem orderCode_cons_cons (k k' : ℕ) (ks : List ℕ) :
    orderCode (k :: k' :: ks) = 1 + 2 ^ (k' - k) * orderCode (k' :: ks) := rfl

theorem orderCode_odd {k : ℕ} {ks : List ℕ} (h : (k :: ks).Pairwise (· < ·)) :
    orderCode (k :: ks) % 2 = 1 := by
  cases ks with
  | nil => rfl
  | cons k' ks =>
    obtain ⟨d, hd⟩ : ∃ d, k' - k = d + 1 :=
      ⟨k' - k - 1, by have := List.rel_of_pairwise_cons h (List.mem_cons_self ..); omega⟩
    rw [orderCode_cons_cons, hd, pow_succ, mul_comm (2 ^ d), mul_assoc]
    omega

theorem orderCode_pos (ks : List ℕ) : 0 < orderCode (k :: ks) := by
  cases ks with
  | nil => exact Nat.one_pos
  | cons k' ks =>
    rw [orderCode_cons_cons]
    omega

theorem orderCode_eq_one_iff {k : ℕ} {ks : List ℕ} : orderCode (k :: ks) = 1 ↔ ks = [] := by
  cases ks with
  | nil => exact iff_of_true rfl rfl
  | cons k' ks =>
    rw [orderCode_cons_cons]
    have := Nat.mul_pos (Nat.two_pow_pos (k' - k)) (orderCode_pos k' ks)
    simp only [reduceCtorEq, iff_false]
    omega

theorem orderCode_lt {k K : ℕ} {ks : List ℕ} (h : (k :: ks).Pairwise (· < ·))
    (hK : ∀ i ∈ k :: ks, i < K) : orderCode (k :: ks) < 2 ^ (K - k) := by
  induction ks generalizing k with
  | nil => exact Nat.one_lt_two_pow (by have := hK k (List.mem_cons_self ..); omega)
  | cons k' ks ih =>
    have hlt := List.rel_of_pairwise_cons h (List.mem_cons_self ..)
    have hlt' := hK k' (by simp)
    have hrest := ih (List.Pairwise.of_cons h) fun i hi => hK i (List.mem_cons_of_mem k hi)
    -- the first gap takes as many bits as it is wide
    have hsplit : 2 ^ (K - k) = 2 ^ (k' - k) * 2 ^ (K - k') := by
      rw [← pow_add]
      congr 1
      omega
    have htwo : 2 ≤ 2 ^ (k' - k) := Nat.le_self_pow (by omega) 2
    calc orderCode (k :: k' :: ks) = 1 + 2 ^ (k' - k) * orderCode (k' :: ks) := rfl
      _ < 2 ^ (k' - k) * (orderCode (k' :: ks) + 1) := by
        rw [mul_add]
        omega
      _ ≤ 2 ^ (K - k) := by
        rw [hsplit]
        exact Nat.mul_le_mul_left _ hrest

end Leblibc.Lib
