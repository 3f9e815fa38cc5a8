import Mathlib.Algebra.BigOperators.Group.Finset.Basic
import Mathlib.Algebra.Order.BigOperators.Group.Finset

/-!
# Threads that share a state

Each step of a system of threads changes the shared state and the state of one thread. An invariant speaks of the
shared state and of a sum over the threads, and is proved for one thread against whatever the others add to the sum.

## Main definitions

* `Threads`: the shared state and the states of the threads
* `Threads.run`: runs, in which each event is one of a thread

## Main results

* `Threads.Inv.run`: the rule for invariants
* `Threads.pair_le_sum`: two threads add no more than all of them
-/

namespace Leblibc.Lib

/-- The shared state, and the states of the threads. -/
structure Threads (ι S L : Type*) where
  shared : S
  thread : ι → L

namespace Threads

variable {ι S L E A : Type*} [DecidableEq ι] (step : S → L → E → S × L)

/-- A step of one thread. -/
def next (c : Threads ι S L) (e : ι × E) : Threads ι S L :=
  let r := step c.shared (c.thread e.1) e.2
  ⟨r.1, Function.update c.thread e.1 r.2⟩

/-- A run of the threads, in any order. -/
def run (c : Threads ι S L) (es : List (ι × E)) : Threads ι S L := es.foldl (next step) c

theorem forall_update {p : L → Prop} {l : ι → L} {i : ι} {x : L} (hx : p x) (hl : ∀ j, p (l j)) :
    ∀ j, p (Function.update l i x j) :=
  (Function.forall_update_iff l fun _ => p).mpr ⟨hx, fun j _ => hl j⟩

variable [AddCommMonoid A]

theorem sum_update (g : L → A) (l : ι → L) {s : Finset ι} {i : ι} (hi : i ∈ s) (x : L) :
    ∑ j ∈ s, g (Function.update l i x j) = g x + ∑ j ∈ s.erase i, g (l j) := by
  rw [← Finset.add_sum_erase _ _ hi, Function.update_self]
  refine congrArg (g x + ·) (Finset.sum_congr rfl fun j hj => ?_)
  rw [Function.update_of_ne (Finset.ne_of_mem_erase hj)]

variable [Fintype ι]

/-- What the threads add up to. -/
def sum (g : L → A) (l : ι → L) : A := ∑ i, g (l i)

/-- An invariant of the shared state, of what the threads add up to, and of each of them. -/
structure Inv (g : L → A) (G : S → A → Prop) (I : L → Prop) (c : Threads ι S L) : Prop where
  total : G c.shared (sum g c.thread)
  each : ∀ i, I (c.thread i)

variable {g : L → A} {G : S → A → Prop} {I : L → Prop} {c : Threads ι S L}

/-- A step keeps the invariant if it does so whatever the other threads add. -/
theorem Inv.next (hc : c.Inv g G I) {i : ι} {e : E}
    (hstep : ∀ a, I (c.thread i) → G c.shared (g (c.thread i) + a) →
      G (step c.shared (c.thread i) e).1 (g (step c.shared (c.thread i) e).2 + a) ∧
        I (step c.shared (c.thread i) e).2) : (c.next step (i, e)).Inv g G I := by
  have htotal := hc.total
  rw [← Function.update_eq_self i c.thread, sum, sum_update _ _ (Finset.mem_univ i)] at htotal
  obtain ⟨hG, hI⟩ := hstep _ (hc.each i) htotal
  constructor
  · rw [Threads.next, sum, sum_update _ _ (Finset.mem_univ i)]
    exact hG
  · exact forall_update hI hc.each

/-- **The rule for invariants** of runs. -/
theorem Inv.run (hc : c.Inv g G I)
    (hstep : ∀ s l e a, I l → G s (g l + a) → G (step s l e).1 (g (step s l e).2 + a) ∧ I (step s l e).2)
    (es : List (ι × E)) : (c.run step es).Inv g G I := by
  induction es generalizing c with
  | nil => exact hc
  | cons e es ih => exact ih (hc.next step (hstep _ _ _))

/-- Two threads add no more than all of them. -/
theorem pair_le_sum (g : L → ℕ) (l : ι → L) {i j : ι} (h : i ≠ j) : g (l i) + g (l j) ≤ sum g l := by
  rw [← Finset.sum_pair (f := fun i => g (l i)) h]
  exact Finset.sum_le_sum_of_subset (Finset.subset_univ _)

end Threads

end Leblibc.Lib
