import Mathlib.Data.List.Pairwise
import Mathlib.Tactic.Common

/-!
# Spans of addresses

A span is a range of addresses, given by its start and its length. Memory that is in use is a list of spans.

## Main definitions

* `Span`, with membership of an address
* `Span.Apart`: two spans have no address in common
* `Span.Covered`: every address of the span is in one of a list of spans

## Main results

* `Span.apart_of_covered`: a span apart from all of a list is apart from what they cover
-/

namespace Leblibc.Lib

/-- The addresses from `start` on, `len` of them. -/
structure Span where
  start : ℕ
  len : ℕ
  deriving DecidableEq, Repr

namespace Span

instance instMembership : Membership ℕ Span := ⟨fun s x => s.start ≤ x ∧ x < s.start + s.len⟩

theorem mem_iff {s : Span} {x : ℕ} : x ∈ s ↔ s.start ≤ x ∧ x < s.start + s.len := Iff.rfl

/-- No address is in both. -/
def Apart (s t : Span) : Prop := ∀ x ∈ s, x ∉ t

/-- Every address of the span is in one of the list. -/
def Covered (s : Span) (l : List Span) : Prop := ∀ x ∈ s, ∃ t ∈ l, x ∈ t

variable {s t : Span} {l l' : List Span}

theorem Apart.symm (h : s.Apart t) : t.Apart s := fun x hx hs => h x hs hx

theorem apart_of_le (h : s.start + s.len ≤ t.start) : s.Apart t := by
  intro x hx ht
  rw [mem_iff] at hx ht
  omega

/-- A part of a span is apart from what the span is apart from. -/
theorem Apart.mono (h : s.Apart t) {s' : Span} (hsub : ∀ x ∈ s', x ∈ s) : s'.Apart t := fun x hx => h x (hsub x hx)

theorem Covered.mono (h : s.Covered l) (hsub : l ⊆ l') : s.Covered l' := by
  intro x hx
  obtain ⟨t, ht, hxt⟩ := h x hx
  exact ⟨t, hsub ht, hxt⟩

theorem Covered.sub (h : s.Covered l) {s' : Span} (hsub : ∀ x ∈ s', x ∈ s) : s'.Covered l :=
  fun x hx => h x (hsub x hx)

theorem covered_of_mem (h : s ∈ l) : s.Covered l := fun _ hx => ⟨s, h, hx⟩

/-- A span that is apart from all of a list is apart from what they cover. -/
theorem apart_of_covered (h : ∀ t ∈ l, s.Apart t) (ht : t.Covered l) : s.Apart t := by
  intro x hx hxt
  obtain ⟨u, hu, hxu⟩ := ht x hxt
  exact h u hu x hx hxu

end Span

end Leblibc.Lib
