import Mathlib.Algebra.Order.Group.Nat
import Mathlib.Tactic.Common

/-!
# Loops that search

The loop `for (i=a; i<n && p(i); i++);` of C ends at the first index from `a` on where `p` fails, or at `n`.

## Main definitions

* `skipTo p n a`: the value of `i` at the end of the loop

## Main results

* `skipTo_spec`: where the loop ends
* `skipTo_lt`: where it ends early
* `skipTo_le_of_not`: it goes no further than an index where `p` fails
-/

namespace Leblibc.Lib

/-- The loop with a bound on its rounds. -/
def skip (p : ℕ → Bool) : ℕ → ℕ → ℕ
  | 0, i => i
  | k + 1, i => if p i then skip p k (i + 1) else i

/-- The value of `i` at the end of `for (i=a; i<n && p(i); i++);`. -/
def skipTo (p : ℕ → Bool) (n a : ℕ) : ℕ := skip p (n - a) a

theorem skip_spec (p : ℕ → Bool) : ∀ k i, i ≤ skip p k i ∧ skip p k i ≤ i + k ∧
    (∀ j, i ≤ j → j < skip p k i → p j) ∧ (skip p k i < i + k → p (skip p k i) = false)
  | 0, i => ⟨le_rfl, le_rfl, fun j h h' => absurd h (Nat.not_le.mpr h'), fun h => absurd h (lt_irrefl i)⟩
  | k + 1, i => by
    rw [skip]
    split
    · rename_i hp
      obtain ⟨h1, h2, h3, h4⟩ := skip_spec p k (i + 1)
      refine ⟨by omega, by omega, fun j hj hj' => ?_, fun h => h4 (by omega)⟩
      rcases Nat.eq_or_lt_of_le hj with rfl | hj
      · exact hp
      · exact h3 j hj hj'
    · rename_i hp
      exact ⟨le_rfl, by omega, fun j h h' => absurd h (Nat.not_le.mpr h'), fun _ => Bool.eq_false_iff.mpr hp⟩

theorem skipTo_spec (p : ℕ → Bool) {n a : ℕ} (h : a ≤ n) : a ≤ skipTo p n a ∧ skipTo p n a ≤ n ∧
    (∀ j, a ≤ j → j < skipTo p n a → p j) ∧ (skipTo p n a < n → p (skipTo p n a) = false) := by
  have hspec := skip_spec p (n - a) a
  rwa [Nat.add_sub_cancel' h] at hspec

theorem skipTo_lt {p : ℕ → Bool} {n a : ℕ} (h : skipTo p n a < n) : a ≤ skipTo p n a ∧ p (skipTo p n a) = false := by
  rcases Nat.le_total a n with hle | hle
  · obtain ⟨h1, -, -, h4⟩ := skipTo_spec p hle
    exact ⟨h1, h4 h⟩
  · have hend : skipTo p n a = a := by rw [skipTo, Nat.sub_eq_zero_of_le hle, skip]
    omega

/-- The loop goes no further than an index where `p` fails. -/
theorem skipTo_le_of_not {p : ℕ → Bool} {n a j : ℕ} (haj : a ≤ j) (hj : j < n) (hp : p j = false) :
    skipTo p n a ≤ j := by
  by_contra hlt
  have htrue := (skipTo_spec p (haj.trans hj.le)).2.2.1 j haj (Nat.not_le.mp hlt)
  rw [hp] at htrue
  cases htrue

end Leblibc.Lib
