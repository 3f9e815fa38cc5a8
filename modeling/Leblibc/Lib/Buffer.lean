import Mathlib.Data.List.Basic
import Mathlib.Logic.Function.Basic
import Mathlib.Tactic.Common

/-!
# Bytes in a buffer

A buffer is a function from positions to characters. `Holds buf s l` says that the characters `l` stand in it
from the position `s` on; a string is held with the zero that ends it.

## Main definitions

* `Holds buf s l`: the contents of a buffer at a place
* `HoldsString buf s l`: a string without zeros, and the zero after it

## Main results

* `holds_append`: contents side by side
* `Holds.update`, `Holds.congr`: contents that a change elsewhere leaves
-/

namespace Leblibc.Lib

variable {β : Type}

/-- The characters `l` stand in `buf` from `s` on. -/
def Holds (buf : ℕ → β) : ℕ → List β → Prop
  | _, [] => True
  | s, b :: l => buf s = b ∧ Holds buf (s + 1) l

@[simp]
theorem holds_nil (buf : ℕ → β) (s : ℕ) : Holds buf s [] := trivial

variable {buf : ℕ → β} {s : ℕ} {b : β} {l : List β}

@[simp]
theorem holds_cons :
    Holds buf s (b :: l) ↔ buf s = b ∧ Holds buf (s + 1) l := Iff.rfl

theorem holds_append {l' : List β} :
    Holds buf s (l ++ l') ↔ Holds buf s l ∧ Holds buf (s + l.length) l' := by
  induction l generalizing s with
  | nil => simp
  | cons b l ih =>
    rw [List.cons_append, holds_cons, holds_cons, ih, and_assoc, List.length_cons, Nat.add_assoc,
      Nat.add_comm 1]

theorem Holds.congr {buf' : ℕ → β} (h : Holds buf s l)
    (heq : ∀ i, s ≤ i → i < s + l.length → buf' i = buf i) : Holds buf' s l := by
  induction l generalizing s with
  | nil => trivial
  | cons b l ih =>
    obtain ⟨hb, hl⟩ := h
    rw [List.length_cons] at heq
    refine ⟨(heq s (Nat.le_refl s) (by omega)).trans hb, ih hl fun i hi hi' => heq i (by omega) (by omega)⟩

theorem Holds.update {i : ℕ} (h : Holds buf s l)
    (hi : i < s ∨ s + l.length ≤ i) : Holds (Function.update buf i b) s l :=
  h.congr fun j hj hj' => Function.update_of_ne (by omega) b buf

/-- A string stands in `buf` from `s` on. -/
def HoldsString [Zero β] (buf : ℕ → β) (s : ℕ) (l : List β) : Prop := Holds buf s (l ++ [0]) ∧ 0 ∉ l

theorem HoldsString.cons [Zero β] (hb : buf s = b) (h0 : b ≠ 0)
    (hl : HoldsString buf (s + 1) l) : HoldsString buf s (b :: l) :=
  ⟨⟨hb, hl.1⟩, fun h => (List.mem_cons.mp h).elim (fun h => h0 h.symm) hl.2⟩

theorem HoldsString.nil [Zero β] (hb : buf s = 0) : HoldsString buf s [] :=
  ⟨⟨hb, trivial⟩, List.not_mem_nil⟩

theorem HoldsString.tail [Zero β] (h : HoldsString buf s (b :: l)) : buf s = b ∧ b ≠ 0 ∧ HoldsString buf (s + 1) l :=
  ⟨h.1.1, fun hb => h.2 (hb ▸ List.mem_cons_self ..), h.1.2, fun hm => h.2 (List.mem_cons_of_mem b hm)⟩

theorem holds_of_getElem (h : ∀ i, (hi : i < l.length) → buf (s + i) = l[i]) : Holds buf s l := by
  induction l generalizing s with
  | nil => trivial
  | cons b l ih =>
    refine ⟨h 0 (Nat.zero_lt_succ _), ih fun i hi => ?_⟩
    have := h (i + 1) (Nat.succ_lt_succ hi)
    rwa [← Nat.add_assoc, Nat.add_right_comm] at this

theorem HoldsString.unique [Zero β] {l' : List β} (h : HoldsString buf s l) (h' : HoldsString buf s l') : l = l' := by
  obtain ⟨hl, hz⟩ := h
  obtain ⟨hl', hz'⟩ := h'
  induction l generalizing s l' with
  | nil =>
    cases l' with
    | nil => rfl
    | cons b l' => exact absurd (hl.1.symm.trans hl'.1 ▸ List.mem_cons_self) hz'
  | cons b l ih =>
    cases l' with
    | nil => exact absurd (hl'.1.symm.trans hl.1 ▸ List.mem_cons_self) hz
    | cons b' l' =>
      rw [List.mem_cons, not_or] at hz hz'
      rw [ih hl.2 hz.2 hl'.2 hz'.2, ← hl.1, ← hl'.1]

end Leblibc.Lib
