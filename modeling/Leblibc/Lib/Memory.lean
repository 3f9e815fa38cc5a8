import Mathlib

/-!
# Flat memory

A memory assigns a value to every address. Consecutive cells are read and written as lists.

## Main definitions

* `load mem a n`: the `n` cells from address `a` on
* `store mem a vs`: the memory with `vs` written from address `a` on

## Main results

* `load_add`: a range splits at any point
* `load_store_same`, `load_store_of_disjoint`: reading what was written, and reading elsewhere
* `length_mul_le_of_separated`: how many separate ranges of one size there can be
-/

namespace Leblibc.Lib

open List

variable {α : Type}

/-- The `n` cells from address `a` on. -/
def load (mem : ℕ → α) (a n : ℕ) : List α := (List.range n).map fun i => mem (a + i)

/-- The memory with `vs` written from address `a` on. -/
def store (mem : ℕ → α) (a : ℕ) (vs : List α) : ℕ → α := fun x =>
  if a ≤ x then (vs[x - a]?).getD (mem x) else mem x

variable (mem : ℕ → α)

@[simp] theorem length_load (a n : ℕ) : (load mem a n).length = n := by
  simp [load]

variable (a : ℕ)

@[simp] theorem load_zero : load mem a 0 = [] := rfl

theorem getElem?_load {n i : ℕ} (hi : i < n) :
    (load mem a n)[i]? = some (mem (a + i)) := by
  simp [load, hi]

theorem load_add (a n m : ℕ) : load mem a (n + m) = load mem a n ++ load mem (a + n) m := by
  simp only [load, range_add]
  simp [Nat.add_assoc]

theorem load_succ (a n : ℕ) : load mem a (n + 1) = mem a :: load mem (a + 1) n := by
  rw [Nat.add_comm, load_add]
  rfl

theorem load_congr {mem mem' : ℕ → α} {a n : ℕ} (h : ∀ x, a ≤ x → x < a + n → mem x = mem' x) :
    load mem a n = load mem' a n := by
  refine map_congr_left fun i hi => ?_
  have : i < n := by simpa using hi
  exact h _ (by omega) (by omega)

theorem store_of_lt {mem : ℕ → α} {a x : ℕ} {vs : List α} (h : x < a) : store mem a vs x = mem x := by
  simp [store, Nat.not_le.mpr h]

theorem store_of_ge {mem : ℕ → α} {a x : ℕ} {vs : List α} (h : a + vs.length ≤ x) :
    store mem a vs x = mem x := by
  have : vs.length ≤ x - a := by omega
  simp [store, this]

theorem store_add {mem : ℕ → α} {a i : ℕ} {vs : List α} (h : i < vs.length) :
    store mem a vs (a + i) = vs[i] := by
  simp [store, h]

theorem store_store (vs ws : List α) :
    store (store mem a vs) (a + vs.length) ws = store mem a (vs ++ ws) := by
  funext x
  unfold store
  by_cases h : a + vs.length ≤ x
  · rw [if_pos h, if_pos (by omega), if_pos (by omega), getElem?_append_right (by omega),
      getElem?_eq_none (l := vs) (by omega), Nat.sub_sub]
    rfl
  · rw [if_neg h]
    split
    · rw [getElem?_append_left (by omega)]
    · rfl

theorem store_store_of_length_le {vs ws : List α} (h : vs.length ≤ ws.length) :
    store (store mem a vs) a ws = store mem a ws := by
  funext x
  unfold store
  by_cases hx : a ≤ x
  · rw [if_pos hx, if_pos hx, if_pos hx]
    by_cases hlt : x - a < ws.length
    · rw [getElem?_eq_getElem hlt]
      rfl
    · rw [getElem?_eq_none (by omega), getElem?_eq_none (by omega)]
      rfl
  · rw [if_neg hx, if_neg hx, if_neg hx]

theorem load_store_same (vs : List α) : load (store mem a vs) a vs.length = vs := by
  refine ext_getElem (by simp) fun i h1 h2 => ?_
  simp [load, store_add h2]

theorem load_store_of_disjoint {mem : ℕ → α} {a b n : ℕ} {vs : List α}
    (h : b + n ≤ a ∨ a + vs.length ≤ b) : load (store mem a vs) b n = load mem b n := by
  refine load_congr fun x h1 h2 => ?_
  rcases h with h | h
  · exact store_of_lt (by omega)
  · exact store_of_ge (by omega)

/-- **Separate ranges of `k` cells below `N`** take up at most `N` cells together. -/
theorem length_mul_le_of_separated {l : List ℕ} {k N : ℕ} (hnd : l.Nodup)
    (hsep : ∀ p ∈ l, ∀ q ∈ l, p ≠ q → p + k ≤ q ∨ q + k ≤ p) (hin : ∀ p ∈ l, p + k ≤ N) :
    l.length * k ≤ N := by
  have hdisj : (l.toFinset : Set ℕ).PairwiseDisjoint fun p => Finset.Ico p (p + k) := by
    intro p hp q hq hne
    have hsep' := hsep p (by simpa using hp) q (by simpa using hq) hne
    rw [Function.onFun, Finset.disjoint_left]
    intro n hn hn'
    rw [Finset.mem_Ico] at hn hn'
    omega
  have hsub : l.toFinset.biUnion (fun p => Finset.Ico p (p + k)) ⊆ Finset.range N := by
    intro n hn
    obtain ⟨p, hp, hn⟩ := Finset.mem_biUnion.mp hn
    have hp' := hin p (List.mem_toFinset.mp hp)
    rw [Finset.mem_Ico] at hn
    rw [Finset.mem_range]
    omega
  calc l.length * k = ∑ p ∈ l.toFinset, (Finset.Ico p (p + k)).card := by
        simp [toFinset_card_of_nodup hnd]
    _ = (l.toFinset.biUnion fun p => Finset.Ico p (p + k)).card := (Finset.card_biUnion hdisj).symm
    _ ≤ (Finset.range N).card := Finset.card_le_card hsub
    _ = N := Finset.card_range N

end Leblibc.Lib
