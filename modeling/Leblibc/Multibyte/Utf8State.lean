import Leblibc.Multibyte.Utf8
import Mathlib.Tactic.IntervalCases
import Mathlib.Tactic.Ring

/-!
# The state of the decoder

What the word means that `mbrtowc` keeps between two bytes of a character. With it, the bytes of a character
are taken one by one in the same way whether they come in one call or in several: the test of a byte in the
loop and the test of the first byte of a later call agree.

## Main results

* `oob_iff`: the test of a byte
* `pending_bittab`: the words of the table
* `shiftIn_last`, `pending_shiftIn`: a byte more
* `resume_cons`: the bytes of a character, one by one
-/

namespace Leblibc.Multibyte

/-! ## Words -/

theorem toNat_setWidth (b : UInt8) : (b.toBitVec.setWidth 32).toNat = b.toNat := by
  rw [BitVec.toNat_setWidth]
  exact Nat.mod_eq_of_lt (b.toNat_lt.trans (by decide))

theorem and_not_seven {x : BitVec 32} : x &&& ~~~7#32 = 0#32 ↔ x.toNat < 8 := by
  constructor
  · intro h
    have hx : x = x &&& 7#32 := by
      have hsplit : x &&& (7#32 ||| ~~~7#32) = x := BitVec.and_allOnes
      rwa [BitVec.and_or_distrib_left, h, BitVec.or_zero, eq_comm] at hsplit
    rw [hx, BitVec.toNat_and]
    exact Nat.lt_succ_of_le Nat.and_le_right
  · intro h
    obtain ⟨k, hk, rfl⟩ : ∃ k < 8, x = BitVec.ofNat 32 k := ⟨x.toNat, h, by simp⟩
    interval_cases k <;> rfl

theorem or_and_not_seven {x y : BitVec 32} :
    (x ||| y) &&& ~~~7#32 = 0#32 ↔ x.toNat < 8 ∧ y.toNat < 8 := by
  rw [← and_not_seven, ← and_not_seven, BitVec.and_or_distrib_right]
  exact BitVec.or_eq_zero_iff

theorem toInt_sshiftRight_26 {c : BitVec 32} (h : 2 ^ 31 ≤ c.toNat) :
    (c.sshiftRight 26).toNat = 2 ^ 32 - 64 + c.toNat / 2 ^ 26 := by
  have hshift : (c.sshiftRight 26).toInt = c.toInt / 2 ^ 26 := by
    rw [BitVec.toInt_sshiftRight, Int.shiftRight_eq_div_pow]
    rfl
  rw [BitVec.toInt_eq_toNat_cond, BitVec.toInt_eq_toNat_cond] at hshift
  split at hshift <;> split at hshift <;> omega

/-- **The test of a byte**: the top six bits of the word are a bound, from which the byte may be 64 values
above. -/
theorem oob_iff {c : BitVec 32} {b : UInt8} (h : 2 ^ 31 ≤ c.toNat) :
    oob c b = false ↔ (0x80 ≤ b.toNat ∧ b.toNat < 0xc0) ∧
      512 ≤ b.toNat + 8 * (c.toNat / 2 ^ 26) ∧ b.toNat + 8 * (c.toNat / 2 ^ 26) < 576 := by
  have hb := b.toNat_lt
  unfold oob
  simp only [ne_eq, decide_eq_false_iff_not]
  rw [or_and_not_seven, BitVec.toNat_sub, BitVec.toNat_add, toInt_sshiftRight_26 h, BitVec.toNat_ushiftRight,
    toNat_setWidth]
  simp only [BitVec.toNat_ofNat]
  omega

/-! ## Words that wait for bytes -/

/-- The bits in a word, below its top six, that say that bytes are to come after the next one. -/
def marker : ℕ → ℕ
  | 2 => 3 * 2 ^ 24
  | 3 => 3 * 2 ^ 24 + 3 * 2 ^ 18
  | _ => 0

/-- The word `c` waits for `k` bytes, of which the next one is at least `lo` and below `hi`, and has the bits
`acc` of the character. -/
structure Pending (c : BitVec 32) (lo hi k acc : ℕ) : Prop where
  top : 2 ^ 31 ≤ c.toNat
  low : c.toNat % 2 ^ 26 = marker k + acc
  next : ∀ b, oob c b = false ↔ lo ≤ b.toNat ∧ b.toNat < hi
  k_bounds : 1 ≤ k ∧ k ≤ 3
  acc_lt : acc * 64 ^ (k - 1) < 2 ^ 16
  cont : 0x80 ≤ lo ∧ hi ≤ 0xc0

theorem Pending.of_top {c : BitVec 32} {t k acc : ℕ} (ht : c.toNat / 2 ^ 26 = t) (ht' : 40 ≤ t ∧ t ≤ 56)
    (hlow : c.toNat % 2 ^ 26 = marker k + acc) (hk : 1 ≤ k ∧ k ≤ 3) (hacc : acc * 64 ^ (k - 1) < 2 ^ 16) :
    Pending c (max 0x80 (512 - 8 * t)) (min 0xc0 (576 - 8 * t)) k acc := by
  have htop : 2 ^ 31 ≤ c.toNat := by omega
  refine ⟨htop, hlow, fun b => ?_, hk, hacc, by omega⟩
  rw [oob_iff htop]
  omega

theorem Pending.ne_zero {c : BitVec 32} {lo hi k acc : ℕ} (h : Pending c lo hi k acc) : c ≠ 0#32 := by
  rintro rfl
  have := h.top
  rw [BitVec.toNat_zero] at this
  omega

section Step

variable {c : BitVec 32} {lo hi k acc : ℕ} {b : UInt8}

theorem toNat_shiftIn (h : Pending c lo hi k acc) (hb : 0x80 ≤ b.toNat ∧ b.toNat < 0xc0) :
    (shiftIn c b).toNat = (marker k + acc) * 64 + (b.toNat - 0x80) := by
  have hlow := h.low
  have hshl : (c <<< 6).toNat = 2 ^ 6 * (marker k + acc) := by
    rw [BitVec.toNat_shiftLeft]
    omega
  have hsub : (b.toBitVec.setWidth 32 - 0x80#32).toNat = b.toNat - 0x80 := by
    rw [BitVec.toNat_sub, toNat_setWidth]
    simp only [BitVec.toNat_ofNat]
    omega
  unfold shiftIn
  rw [BitVec.toNat_or, hshl, hsub, ← Nat.two_pow_add_eq_or_of_lt (by omega)]
  ring

theorem shiftIn_last (h : Pending c lo hi 1 acc) (hb : 0x80 ≤ b.toNat ∧ b.toNat < 0xc0) :
    (shiftIn c b).toNat = acc * 64 + (b.toNat - 0x80) := by
  rw [toNat_shiftIn h hb]
  simp [marker]

/-- Another byte gives a word that waits for one byte less. -/
theorem pending_shiftIn (h : Pending c lo hi (k + 1) acc) (hk : 1 ≤ k) (hb : 0x80 ≤ b.toNat ∧ b.toNat < 0xc0) :
    Pending (shiftIn c b) 0x80 0xc0 k (acc * 64 + (b.toNat - 0x80)) := by
  have hnat := toNat_shiftIn h hb
  have hacc := h.acc_lt
  have hk' := h.k_bounds
  obtain rfl | rfl : k = 1 ∨ k = 2 := by omega
  · simp only [marker] at hnat
    exact Pending.of_top (t := 48) (by omega) (by omega) (by simp only [marker]; omega) (by omega)
      (by norm_num; omega)
  · simp only [marker] at hnat
    exact Pending.of_top (t := 48) (by omega) (by omega) (by simp only [marker]; omega) (by omega)
      (by norm_num; omega)

theorem top_bit {x : BitVec 32} : x &&& 1#32 <<< 31 = 0#32 ↔ x.toNat < 2 ^ 31 := by
  have hpow : 1#32 <<< 31 = BitVec.twoPow 32 31 := rfl
  have hmsb : x.getLsbD 31 = false ↔ x.toNat < 2 ^ 31 := by
    have h := BitVec.msb_eq_false_iff_two_mul_lt (x := x)
    rw [BitVec.msb_eq_getLsbD_last] at h
    rw [h]
    omega
  rw [hpow, BitVec.and_twoPow, ← hmsb]
  cases x.getLsbD 31 with
  | true => exact iff_of_false (by decide) (by decide)
  | false => exact iff_of_true rfl rfl

theorem not_cont_iff : b.toBitVec.setWidth 32 - 0x80#32 ≥ 0x40#32 ↔ ¬ (0x80 ≤ b.toNat ∧ b.toNat < 0xc0) := by
  have hb := b.toNat_lt
  rw [ge_iff_le, BitVec.le_def, BitVec.toNat_sub, toNat_setWidth]
  simp only [BitVec.toNat_ofNat]
  omega

/-- The bits of a character that is complete are below the top bit. -/
theorem last_lt (h : Pending c lo hi 1 acc) (hb : 0x80 ≤ b.toNat ∧ b.toNat < 0xc0) :
    (shiftIn c b).toNat < 2 ^ 31 := by
  have hacc := h.acc_lt
  rw [shiftIn_last h hb]
  omega

/-- **The bytes of a character, one by one.** A byte that is not between the bounds is illegal; the last one
gives the character; and after another one the rest is taken as a later call would take it. -/
theorem resume_cons (h : Pending c lo hi k acc) (b : UInt8) (s : List UInt8) (n : ℕ) :
    resume c (b :: s) n =
      if lo ≤ b.toNat ∧ b.toNat < hi then
        if k = 1 then .char (n + 1) (acc * 64 + (b.toNat - 0x80)) 0 else resume (shiftIn c b) s (n + 1)
      else .illegal 0 := by
  have hnext := h.next b
  by_cases hb : lo ≤ b.toNat ∧ b.toNat < hi
  · have hcont : 0x80 ≤ b.toNat ∧ b.toNat < 0xc0 := by
      have := h.cont
      omega
    rw [if_pos hb, resume, hnext.mpr hb, if_neg (by decide), decodeLoop.eq_def]
    simp only []
    by_cases hk : k = 1
    · subst hk
      rw [if_pos (top_bit.mpr (last_lt h hcont)), if_pos rfl, shiftIn_last h hcont]
    · -- the test of the next byte in the loop is that of a later call
      have hk' := h.k_bounds
      rcases k with _ | k
      · omega
      have h' := pending_shiftIn h (by omega) hcont
      rw [if_neg (fun htop => absurd (top_bit.mp htop) (by have := h'.top; omega)), if_neg hk]
      cases s with
      | nil => rfl
      | cons b' s =>
        have hnext' := h'.next b'
        simp only [resume]
        by_cases hb' : 0x80 ≤ b'.toNat ∧ b'.toNat < 0xc0
        · rw [if_neg (fun hge => not_cont_iff.mp hge hb'), hnext'.mpr hb', if_neg (by decide)]
        · rw [if_pos (not_cont_iff.mpr hb'), if_pos (Bool.eq_true_of_not_eq_false fun hf => hb' (hnext'.mp hf))]
  · rw [if_neg hb, resume, if_pos (Bool.eq_true_of_not_eq_false fun hf => hb (hnext.mp hf))]

end Step

/-! ## The table -/

/-- The bounds of the byte after a first byte. -/
def secondLo (b : ℕ) : ℕ := if b = 0xe0 then 0xa0 else if b = 0xf0 then 0x90 else 0x80

/-- The bounds of the byte after a first byte. -/
def secondHi (b : ℕ) : ℕ := if b = 0xed then 0xa0 else if b = 0xf4 then 0x90 else 0xc0

/-- The bytes after a first byte. -/
def following (b : ℕ) : ℕ := if b < 0xe0 then 1 else if b < 0xf0 then 2 else 3

/-- The bits of a first byte. -/
def leadBits (b : ℕ) : ℕ := if b < 0xe0 then b - 0xc0 else if b < 0xf0 then b - 0xe0 else b - 0xf0

/-- **The words of the table.** -/
theorem pending_bittab {b : ℕ} (h1 : 0xc2 ≤ b) (h2 : b ≤ 0xf4) :
    Pending (bittab.getD (b - 0xc2) 0) (secondLo b) (secondHi b) (following b) (leadBits b) := by
  have hall : ∀ i : Fin 51,
      let c := bittab.getD i 0
      let t := c.toNat / 2 ^ 26
      (40 ≤ t ∧ t ≤ 56) ∧ c.toNat % 2 ^ 26 = marker (following (i + 0xc2)) + leadBits (i + 0xc2) ∧
        leadBits (i + 0xc2) * 64 ^ (following (i + 0xc2) - 1) < 2 ^ 16 ∧
        secondLo (i + 0xc2) = max 0x80 (512 - 8 * t) ∧ secondHi (i + 0xc2) = min 0xc0 (576 - 8 * t) := by
    decide
  obtain ⟨i, rfl⟩ := Nat.exists_eq_add_of_le' h1
  obtain ⟨ht, hlow, hacc, hlo, hhi⟩ := hall ⟨i, by omega⟩
  rw [Nat.add_sub_cancel]
  rw [hlo, hhi]
  refine Pending.of_top rfl ht hlow ?_ hacc
  unfold following
  split <;> (try split) <;> decide

end Leblibc.Multibyte
