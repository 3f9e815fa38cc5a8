import Mathlib

/-!
# Tables with open addressing

A table assigns to each slot the key stored there, if any, and every key has a probe path: the
slots at which it may stand, in order. A key is placed when every earlier slot of its path is taken
by another key. In a table all of whose keys are placed, walking a key's path up to the first slot
that is free or holds the key decides whether the key is there.

## Main definitions

* `Passed path table key n`: the first `n` slots of the path of `key` hold other keys
* `Placed path table`: every stored key stands behind slots of its path that hold other keys

## Main results

* `Placed.slot_unique`: a key stands in at most one slot
* `Placed.absent`: a key whose walk ends at a free slot is not in the table
* `Placed.update`: storing a key at the free slot where its walk ends keeps the keys placed
-/

namespace Leblibc.Lib

variable {K : Type} {path : K → ℕ → ℕ} {table : ℕ → Option K}

/-- The first `n` slots of the path of `key` hold other keys. -/
def Passed (path : K → ℕ → ℕ) (table : ℕ → Option K) (key : K) (n : ℕ) : Prop :=
  ∀ m < n, ∃ other, table (path key m) = some other ∧ other ≠ key

/-- Every stored key stands behind slots of its path that hold other keys. -/
def Placed (path : K → ℕ → ℕ) (table : ℕ → Option K) : Prop :=
  ∀ s key, table s = some key → ∃ n, path key n = s ∧ Passed path table key n

theorem placed_empty : Placed path fun _ => none := by
  intro s key h
  cases h

/-- A passed path has no free slot and none with the key, so it ends before such a slot. -/
theorem Passed.le_of_stop {key : K} {n m : ℕ} (h : Passed path table key n)
    (hm : table (path key m) = none ∨ table (path key m) = some key) : n ≤ m := by
  by_contra hlt
  obtain ⟨other, hother, hne⟩ := h m (by omega)
  rcases hm with hm | hm <;> rw [hm] at hother
  · cases hother
  · exact hne (Option.some.inj hother).symm

/-- **A key stands in at most one slot.** -/
theorem Placed.slot_unique (h : Placed path table) {s t : ℕ} {key : K}
    (hs : table s = some key) (ht : table t = some key) : s = t := by
  obtain ⟨n, rfl, hn⟩ := h s key hs
  obtain ⟨m, rfl, hm⟩ := h t key ht
  have h1 := hn.le_of_stop (Or.inr ht)
  have h2 := hm.le_of_stop (Or.inr hs)
  rw [le_antisymm h1 h2]

/-- **A key whose walk ends at a free slot is not in the table.** -/
theorem Placed.absent (h : Placed path table) {key : K} {n : ℕ}
    (hn : Passed path table key n) (hfree : table (path key n) = none) (s : ℕ) :
    table s ≠ some key := by
  intro hs
  obtain ⟨m, rfl, hm⟩ := h s key hs
  have h1 := hn.le_of_stop (Or.inr hs)
  have h2 := hm.le_of_stop (Or.inl hfree)
  rw [le_antisymm h1 h2, hs] at hfree
  cases hfree

/-- Storing a key in a free slot keeps every passed path of the other keys passed. -/
theorem Passed.update {key other : K} {s n : ℕ} (h : Passed path table other n)
    (hfree : table s = none) : Passed path (Function.update table s (some key)) other n := by
  intro m hm
  obtain ⟨k, hk, hne⟩ := h m hm
  have hns : path other m ≠ s := by
    intro heq
    rw [heq, hfree] at hk
    cases hk
  exact ⟨k, by rw [Function.update_of_ne hns, hk], hne⟩

/-- **Storing a key at the free slot where its walk ends** keeps the keys placed. -/
theorem Placed.update (h : Placed path table) {key : K} {n : ℕ}
    (hn : Passed path table key n) (hfree : table (path key n) = none) :
    Placed path (Function.update table (path key n) (some key)) := by
  intro s k hk
  by_cases hs : s = path key n
  · subst hs
    obtain rfl : key = k := by simpa using hk
    exact ⟨n, rfl, hn.update hfree⟩
  · rw [Function.update_of_ne hs] at hk
    obtain ⟨m, rfl, hm⟩ := h s k hk
    exact ⟨m, rfl, hm.update hfree⟩

end Leblibc.Lib
