import Mathlib.Data.List.Basic
import Mathlib.Tactic.Ring

/-!
# Lists with a separator

Parts of a list with one element between each two of them, as the groups of an address between colons or the labels
of a name between dots.

## Main definitions

* `separated c ps`: the parts `ps` with `c` between them

## Main results

* `separated_append`: parts behind other parts
-/

namespace Leblibc

variable {α : Type*}

/-- The parts `ps`, with `c` between them. -/
def separated (c : α) : List (List α) → List α
  | [] => []
  | [p] => p
  | p :: q :: ps => p ++ c :: separated c (q :: ps)

theorem separated_cons (c : α) (p : List α) {ps : List (List α)} (h : ps ≠ []) :
    separated c (p :: ps) = p ++ c :: separated c ps := by
  cases ps with
  | nil => exact absurd rfl h
  | cons q ps => rfl

/-- **Parts behind other parts** have one separator between them. -/
theorem separated_append (c : α) {ps qs : List (List α)} (hps : ps ≠ []) (hqs : qs ≠ []) :
    separated c (ps ++ qs) = separated c ps ++ c :: separated c qs := by
  induction ps with
  | nil => exact absurd rfl hps
  | cons p ps ih =>
    rcases eq_or_ne ps [] with rfl | h
    · exact separated_cons c p hqs
    · have hne : ps ++ qs ≠ [] := fun hc => h (List.append_eq_nil_iff.mp hc).1
      rw [List.cons_append, separated_cons c p hne, ih h, separated_cons c p h, List.append_assoc, List.cons_append]

theorem length_separated (c : α) : ∀ ps : List (List α), ps ≠ [] →
    (separated c ps).length + 1 = (ps.map fun p => p.length + 1).sum
  | [], h => absurd rfl h
  | [p], _ => by simp [separated]
  | p :: q :: ps, _ => by
    have ih := length_separated c (q :: ps) (List.cons_ne_nil _ _)
    rw [separated, List.map_cons, List.sum_cons, ← ih, List.length_append, List.length_cons]
    ring

end Leblibc
