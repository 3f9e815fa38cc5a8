import Mathlib

/-!
# Triangular probing of a power-of-two table

A probe sequence that starts anywhere and moves on by `1, 2, 3, …` stands, after `n` moves,
`triangle n` places further. Modulo a power of two the first `2 ^ k` of these places are all
different, so a table of `2 ^ k` slots is visited completely.

## Main definitions

* `triangle n`: the sum `1 + 2 + … + n`
* `probeSlot k a n`: the slot of a table of `2 ^ k` slots visited after `n` moves from `a`

## Main results

* `probeSlot_injOn`: the first `2 ^ k` probes visit different slots
* `exists_probeSlot_eq`: the first `2 ^ k` probes visit every slot
-/

namespace Leblibc.Lib

/-- The sum `1 + 2 + … + n`. -/
def triangle (n : ℕ) : ℕ := n * (n + 1) / 2

@[simp] theorem triangle_zero : triangle 0 = 0 := rfl

theorem two_mul_triangle (n : ℕ) : 2 * triangle n = n * (n + 1) :=
  Nat.mul_div_cancel' (Nat.even_mul_succ_self n).two_dvd

theorem triangle_succ (n : ℕ) : triangle (n + 1) = triangle n + (n + 1) := by
  have h1 := two_mul_triangle n
  have h2 := two_mul_triangle (n + 1)
  nlinarith

/-- The slot of a table of `2 ^ k` slots that is visited after `n` moves from `a`. -/
def probeSlot (k a n : ℕ) : ℕ := (a + triangle n) % 2 ^ k

theorem probeSlot_lt (k a n : ℕ) : probeSlot k a n < 2 ^ k :=
  Nat.mod_lt _ (by positivity)

/-- Two triangular numbers of index below `2 ^ k` that agree modulo `2 ^ k` have the same index: twice
their difference is `(m - n) * (m + n + 1)`, and only one of these factors can be even. -/
theorem eq_of_triangle_modEq {k n m : ℕ} (hm : m < 2 ^ k) (hnm : n ≤ m)
    (h : triangle n ≡ triangle m [MOD 2 ^ k]) : n = m := by
  obtain ⟨d, rfl⟩ := Nat.exists_eq_add_of_le hnm
  have hle : triangle n ≤ triangle (n + d) := by
    have h1 := two_mul_triangle n
    have h2 := two_mul_triangle (n + d)
    nlinarith
  have hdvd : 2 ^ k ∣ triangle (n + d) - triangle n := (Nat.modEq_iff_dvd' hle).mp h
  have hprod : 2 * (triangle (n + d) - triangle n) = d * (2 * n + d + 1) := by
    rw [Nat.mul_sub, two_mul_triangle, two_mul_triangle]
    have : (n + d) * (n + d + 1) = n * (n + 1) + d * (2 * n + d + 1) := by ring
    omega
  have hdvd' : 2 ^ (k + 1) ∣ d * (2 * n + d + 1) := by
    rw [← hprod, pow_succ']
    exact Nat.mul_dvd_mul_left 2 hdvd
  rcases Nat.even_or_odd d with hd | hd
  · -- `d` is even, so the other factor is odd and `d` carries all the powers of two
    have hodd : Odd (2 * n + d + 1) := by
      obtain ⟨r, rfl⟩ := hd
      exact ⟨n + r, by ring⟩
    have hcop : Nat.Coprime (2 ^ (k + 1)) (2 * n + d + 1) :=
      Nat.Coprime.pow_left _ (Nat.coprime_two_left.mpr hodd)
    have hdiv : 2 ^ (k + 1) ∣ d := hcop.dvd_of_dvd_mul_right hdvd'
    rcases Nat.eq_zero_or_pos d with rfl | hpos
    · rfl
    · have := Nat.le_of_dvd hpos hdiv
      omega
  · -- `d` is odd, so `2 ^ (k + 1)` divides a positive number that is too small for it
    have hcop : Nat.Coprime (2 ^ (k + 1)) d :=
      Nat.Coprime.pow_left _ (Nat.coprime_two_left.mpr hd)
    have hdiv : 2 ^ (k + 1) ∣ 2 * n + d + 1 := hcop.dvd_of_dvd_mul_left hdvd'
    have := Nat.le_of_dvd (by omega) hdiv
    omega

/-- **The first `2 ^ k` probes visit different slots.** -/
theorem probeSlot_injOn (k a : ℕ) : Set.InjOn (probeSlot k a) {n | n < 2 ^ k} := by
  intro n hn m hm h
  have hmod : triangle n ≡ triangle m [MOD 2 ^ k] := Nat.ModEq.add_left_cancel' a h
  rcases le_total n m with hnm | hnm
  · exact eq_of_triangle_modEq hm hnm hmod
  · exact (eq_of_triangle_modEq hn hnm hmod.symm).symm

/-- **The first `2 ^ k` probes visit every slot**: they are `2 ^ k` different slots of `2 ^ k`. -/
theorem exists_probeSlot_eq (k a : ℕ) {s : ℕ} (hs : s < 2 ^ k) :
    ∃ n < 2 ^ k, probeSlot k a n = s := by
  have hmaps : Set.MapsTo (probeSlot k a) (Finset.range (2 ^ k)) (Finset.range (2 ^ k)) := by
    intro n _
    simpa using probeSlot_lt k a n
  have hinj : Set.InjOn (probeSlot k a) (Finset.range (2 ^ k)) := by
    intro n hn m hm h
    exact probeSlot_injOn k a (by simpa using hn) (by simpa using hm) h
  have hsurj := Finset.surjOn_of_injOn_of_card_le (probeSlot k a) hmaps hinj le_rfl
  obtain ⟨n, hn, hns⟩ := hsurj (by simpa using hs)
  exact ⟨n, by simpa using hn, hns⟩

end Leblibc.Lib
