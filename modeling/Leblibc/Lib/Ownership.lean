import Mathlib.Logic.Function.Basic
import Mathlib.Tactic.Common

/-!
# Ownership

Resources have owners: an owner holds one resource at most, no resource is held by two owners, and the resources that
are held are those that are live. So nothing leaks, and nothing is taken from its owner.

## Main definitions

* `Owned holds live`: the resources that are live are held by one owner each

## Main results

* `Owned.acquire`, `Owned.drop`, `Owned.move`: an owner gets a resource, gives it up, or hands it to another one
-/

namespace Leblibc.Lib

open Function

/-- Every live resource is held by one owner, and no other resource is held. -/
structure Owned {ο ρ : Type} (holds : ο → Option ρ) (live : ρ → Prop) : Prop where
  inj : ∀ {o o' p}, holds o = some p → holds o' = some p → o = o'
  live_iff : ∀ p, live p ↔ ∃ o, holds o = some p

variable {ο ρ : Type} {holds : ο → Option ρ} {live live' : ρ → Prop} {o o' : ο} {p : ρ}

theorem Owned.live_of_holds (h : Owned holds live) (ho : holds o = some p) : live p := (h.live_iff p).mpr ⟨o, ho⟩

theorem Owned.congr (h : Owned holds live) (hlive : ∀ q, live' q ↔ live q) : Owned holds live' :=
  ⟨h.inj, fun q => (hlive q).trans (h.live_iff q)⟩

variable [DecidableEq ο]

theorem Owned.acquire (h : Owned holds live) (ho : holds o = none) (hp : ¬live p)
    (hlive : ∀ q, live' q ↔ live q ∨ q = p) : Owned (Function.update holds o (some p)) live' := by
  have hnot (k : ο) : holds k ≠ some p := fun hk => hp (h.live_of_holds hk)
  -- what is held afterwards is the new resource or an old one
  have hold {k : ο} {q : ρ} (hk : Function.update holds o (some p) k = some q) :
      (k = o ∧ q = p) ∨ holds k = some q := by
    by_cases hko : k = o
    · rw [hko, update_self, Option.some.injEq] at hk
      exact .inl ⟨hko, hk.symm⟩
    · rw [update_of_ne hko] at hk
      exact .inr hk
  refine ⟨fun {k k' q} hk hk' => ?_, fun q => ?_⟩
  · rcases hold hk with ⟨rfl, rfl⟩ | hk <;> rcases hold hk' with ⟨hko, hqp⟩ | hk'
    · exact hko.symm
    · exact absurd hk' (hnot k')
    · exact absurd (hqp ▸ hk) (hnot k)
    · exact h.inj hk hk'
  · rw [hlive, h.live_iff]
    refine ⟨?_, fun ⟨k, hk⟩ => ?_⟩
    · rintro (⟨k, hk⟩ | rfl)
      · refine ⟨k, ?_⟩
        rwa [update_of_ne]
        rintro rfl
        rw [ho] at hk
        cases hk
      · exact ⟨o, update_self _ _ _⟩
    · rcases hold hk with ⟨-, rfl⟩ | hk
      · exact .inr rfl
      · exact .inl ⟨k, hk⟩

theorem Owned.drop (h : Owned holds live) (ho : holds o = some p) (hlive : ∀ q, live' q ↔ live q ∧ q ≠ p) :
    Owned (Function.update holds o none) live' := by
  have hold {k : ο} {q : ρ} (hk : Function.update holds o none k = some q) : k ≠ o ∧ holds k = some q := by
    rcases eq_or_ne k o with rfl | hne
    · rw [update_self] at hk
      cases hk
    · rw [update_of_ne hne] at hk
      exact ⟨hne, hk⟩
  refine ⟨fun hk hk' => h.inj (hold hk).2 (hold hk').2, fun q => ?_⟩
  rw [hlive, h.live_iff]
  refine ⟨fun ⟨⟨k, hk⟩, hne⟩ => ⟨k, ?_⟩, fun ⟨k, hk⟩ => ⟨⟨k, (hold hk).2⟩, ?_⟩⟩
  · rwa [update_of_ne]
    rintro rfl
    rw [ho, Option.some.injEq] at hk
    exact hne hk.symm
  · rintro rfl
    exact (hold hk).1 (h.inj (hold hk).2 ho)

theorem Owned.move (h : Owned holds live) (ho : holds o = some p) (ho' : holds o' = none) :
    Owned (Function.update (Function.update holds o none) o' (some p)) live := by
  have hdrop : Owned (Function.update holds o none) fun q => live q ∧ q ≠ p := h.drop ho fun _ => Iff.rfl
  have hnone : Function.update holds o none o' = none := by
    rcases eq_or_ne o' o with rfl | hne
    · exact update_self _ _ _
    · rwa [update_of_ne hne]
  refine hdrop.acquire hnone (fun hp => hp.2 rfl) fun q => ⟨fun hq => ?_, ?_⟩
  · by_cases hqp : q = p
    · exact .inr hqp
    · exact .inl ⟨hq, hqp⟩
  · rintro (⟨hq, -⟩ | rfl)
    · exact hq
    · exact h.live_of_holds ho

end Leblibc.Lib
