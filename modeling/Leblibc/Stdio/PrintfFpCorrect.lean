import Leblibc.Stdio.PrintfBlocks
import Leblibc.Stdio.PrintfDigits

/-!
# The length of a floating-point number

`fmt_fp` returns the number of the bytes that it hands to `out`, or `-1` before it has handed out any. Arithmetic does not
overflow as long as the precision keeps some distance from `INT_MAX`; where it does not, `p+9` and `p+18` can overflow,
and `p-e` for a small number.

## Main results

* `pad_spec`, `pads_spec`: how much `pad` writes
* `fmtFp_spec`: the result of `fmt_fp` is the number of bytes
-/

namespace Leblibc.Printf.Core

open List

/-! ## Pieces -/

/-- The number of bytes in pieces. -/
def size (ps : List (List UInt8)) : ℕ := ps.flatten.length

@[simp] theorem size_nil : size [] = 0 := rfl

@[simp] theorem size_cons (p : List UInt8) (ps : List (List UInt8)) : size (p :: ps) = p.length + size ps := by
  simp [size]

@[simp] theorem size_append (ps qs : List (List UInt8)) : size (ps ++ qs) = size ps + size qs := by
  simp [size]

theorem size_padPieces (c : UInt8) (fuel l : ℕ) : size (padPieces c fuel l) = l := by
  induction fuel generalizing l with
  | zero => simp [padPieces]
  | succ fuel ih =>
    rw [padPieces]
    split
    · rw [size_cons, ih, length_replicate]
      omega
    · simp

variable {w : ℤ} {fl : BitVec 32} {e : ℤ} {big : ℤ → ℕ} {p : ℤ} {L : LdblFormat}

/-- **`pad`** writes what is missing, if the flags do not forbid it. -/
theorem pad_spec (c : UInt8) {l : ℤ} (hw : w ≤ INT_MAX) (hl : 0 ≤ l) (fl : BitVec 32) :
    ∃ ps, pad c w l fl = .ok ps ∧
      (size ps : ℤ) = if has fl (LEFT_ADJ ||| ZERO_PAD) then 0 else max 0 (w - l) := by
  unfold pad
  by_cases hflag : has fl (LEFT_ADJ ||| ZERO_PAD) = true
  · exact ⟨[], by rw [if_pos (Or.inl hflag)], by rw [if_pos hflag]; rfl⟩
  · by_cases hge : l ≥ w
    · exact ⟨[], by rw [if_pos (Or.inr hge)], by rw [if_neg hflag, max_eq_left (by omega)]; rfl⟩
    · have hint : IsInt (w - l) := by
        unfold INT_MAX at hw
        exact ⟨by omega, by omega⟩
      refine ⟨padPieces c (w - l).toNat (w - l).toNat, ?_, ?_⟩
      · rw [if_neg (by simp [hflag, hge]), ck_of_isInt hint]
        rfl
      · rw [size_padPieces, if_neg hflag]
        omega

/-- The flags behind the line that takes the flag `0` back. -/
def Adjusted (fl : BitVec 32) : Prop := fl.getLsbD 13 = true → fl.getLsbD 16 = false

theorem adjusted_leftAdjust (fl : BitVec 32) : Adjusted (leftAdjust fl) := by
  intro h
  unfold leftAdjust at h ⊢
  rw [has_left] at h ⊢
  split at h
  · rename_i hleft
    rw [if_pos hleft, getLsbD_clear _ (by decide)]
    simp
  · rename_i hleft
    exact absurd h hleft

theorem Adjusted.clear (_ : Adjusted fl) : Adjusted (fl &&& ~~~ZERO_PAD) := by
  intro _
  rw [getLsbD_clear _ (by decide)]
  simp

theorem has_pad (fl : BitVec 32) : has fl (LEFT_ADJ ||| ZERO_PAD) = (fl.getLsbD 13 || fl.getLsbD 16) := by
  rw [has_or, has_left, has_zero]

theorem has_pad_zero (fl : BitVec 32) :
    has (fl ^^^ ZERO_PAD) (LEFT_ADJ ||| ZERO_PAD) = (fl.getLsbD 13 || !fl.getLsbD 16) := by
  rw [has_pad, show ZERO_PAD = BitVec.twoPow 32 16 from rfl]
  simp

theorem has_pad_left (fl : BitVec 32) :
    has (fl ^^^ LEFT_ADJ) (LEFT_ADJ ||| ZERO_PAD) = (!fl.getLsbD 13 || fl.getLsbD 16) := by
  rw [has_pad, show LEFT_ADJ = BitVec.twoPow 32 13 from rfl]
  simp

/-- **The three calls of `pad`** fill up to the width together. -/
theorem pads_spec {total : ℤ} (hw : w ≤ INT_MAX) (ht : 0 ≤ total) (hfl : Adjusted fl) :
    ∃ before zeros after, pad 32 w total fl = .ok before ∧ pad 48 w total (fl ^^^ ZERO_PAD) = .ok zeros ∧
      pad 32 w total (fl ^^^ LEFT_ADJ) = .ok after ∧
      (size before + size zeros + size after : ℤ) = max 0 (w - total) := by
  obtain ⟨before, hbefore, hsize1⟩ := pad_spec 32 hw ht fl
  obtain ⟨zeros, hzeros, hsize2⟩ := pad_spec 48 hw ht (fl ^^^ ZERO_PAD)
  obtain ⟨after, hafter, hsize3⟩ := pad_spec 32 hw ht (fl ^^^ LEFT_ADJ)
  refine ⟨before, zeros, after, hbefore, hzeros, hafter, ?_⟩
  rw [hsize1, hsize2, hsize3, has_pad, has_pad_zero, has_pad_left]
  unfold Adjusted at hfl
  cases hleft : fl.getLsbD 13 <;> cases hzero : fl.getLsbD 16 <;> simp_all

/-! ## Digits -/

variable (arch : Arch)

theorem blockDigits_spec {v k : ℕ} (hk : k ≤ 8) (hlt : v < 10 ^ (k + 1)) :
    ∃ s, blockDigits arch v = .ok s ∧ s.length ≤ k + 1 ∧ (10 ^ k ≤ v ∨ k = 0 → (oneDigit s).length = k + 1) := by
  have hroom : v < 10 ^ 9 := hlt.trans_le (Nat.pow_le_pow_right (by decide) (by omega))
  have hlen : (digitsOf 10 false v).length ≤ k + 1 := by
    rw [length_digitsOf, Nat.digits_length_le_iff (by decide)]
    exact hlt
  refine ⟨digitsOf 10 false v, ?_, hlen, ?_⟩
  · unfold blockDigits
    rw [fmtU_eq _ _ _ hroom, append_nil]
    rfl
  · intro hlow
    unfold oneDigit
    by_cases hv : v = 0
    · subst hv
      rcases hlow with h | h
      · exact absurd h (Nat.not_le.mpr (by positivity))
      · rw [h]
        rfl
    · rw [if_neg (by rwa [digitsOf_eq_nil_iff])]
      rcases hlow with h | h
      · refine le_antisymm hlen ?_
        rw [length_digitsOf]
        exact (Nat.lt_digits_length_iff (show 1 < 10 by decide) v).mpr h
      · have hne : digitsOf 10 false v ≠ [] := by rwa [ne_eq, digitsOf_eq_nil_iff]
        have := List.length_pos_iff.mpr hne
        omega

theorem length_nineDigits {s : List UInt8} (h : s.length ≤ 9) : (nineDigits s).length = 9 := by
  unfold nineDigits
  rw [length_append, length_replicate]
  omega

theorem blockDigits_nine {v : ℕ} (hv : v < base) :
    ∃ s, blockDigits arch v = .ok s ∧ (nineDigits s).length = 9 ∧ 0 < (oneDigit s).length ∧
      (oneDigit s).length ≤ 9 := by
  obtain ⟨s, hs, hlen, -⟩ := blockDigits_spec arch (show 8 ≤ 8 by decide) hv
  refine ⟨s, hs, length_nineDigits hlen, ?_, ?_⟩
  · unfold oneDigit
    split
    · decide
    · rename_i hne
      exact List.length_pos_iff.mpr hne
  · unfold oneDigit
    split
    · decide
    · exact hlen

theorem expText_spec (letter : UInt8) {least : ℕ} (hleast : least ≤ 2) (he : -1000000 ≤ e ∧ e ≤ 1000000) :
    ∃ s, expText arch letter least e = .ok s ∧ 2 ≤ s.length ∧ s.length ≤ 12 := by
  have hlen : (digitsOf 10 false e.natAbs).length ≤ 10 := by
    rw [length_digitsOf, Nat.digits_length_le_iff (by decide)]
    omega
  unfold expText
  rw [fmtU_eq _ _ _ (show e.natAbs < 10 ^ 10 by omega), append_nil]
  refine ⟨_, rfl, ?_, ?_⟩
  · simp only [length_cons]
    omega
  · simp only [length_cons, length_append, length_replicate]
    omega

/-! ## The digits before and behind the point -/

theorem wholeLoop_spec (hbig : ∀ i, big i < base) {a : ℤ} (n : ℕ) {d : ℤ} (hd : a < d) :
    ∃ ps, wholeLoop arch big a n d = .ok ps ∧ size ps = 9 * n := by
  induction n generalizing d with
  | zero => exact ⟨[], rfl, rfl⟩
  | succ n ih =>
    obtain ⟨s, hs, hnine, -, -⟩ := blockDigits_nine arch (hbig d)
    obtain ⟨ps, hps, hsize⟩ := ih (d := d + 1) (by omega)
    rw [wholeLoop, hs, ok_bind, hps, if_pos (show d ≠ a by omega)]
    refine ⟨_, rfl, ?_⟩
    rw [size_cons]
    omega

/-- The digits behind the point: what is written and what is left make up the precision. -/
theorem fractionLoop_spec (hbig : ∀ i, big i < base) (n : ℕ) (d p : ℤ) :
    ∃ ps p', fractionLoop arch big n d p = .ok (ps, p') ∧ size ps + max 0 p' = max 0 p ∧ p' ≤ p ∧ min p (-9) ≤ p' := by
  induction n generalizing d p with
  | zero => exact ⟨[], p, rfl, by simp, le_refl _, by omega⟩
  | succ n ih =>
    rw [fractionLoop]
    split
    · obtain ⟨s, hs, hnine, -, -⟩ := blockDigits_nine arch (hbig d)
      obtain ⟨ps, p', hps, hsize, hle, hge⟩ := ih (d + 1) (p - 9)
      rw [hs, hps]
      refine ⟨(nineDigits s).take (min 9 p).toNat :: ps, p', rfl, ?_, by omega, by omega⟩
      rw [size_cons, length_take]
      omega
    · exact ⟨[], p, rfl, by simp, le_refl _, by omega⟩

/-- The point, if there is one. -/
def pointLength (p : ℤ) (fl : BitVec 32) : ℤ := if p ≠ 0 ∨ has fl ALT_FORM = true then 1 else 0

theorem pointLength_bounds (p : ℤ) (fl : BitVec 32) : 0 ≤ pointLength p fl ∧ pointLength p fl ≤ 1 := by
  unfold pointLength
  split <;> decide

theorem size_point (p : ℤ) (fl : BitVec 32) :
    (size (if p ≠ 0 ∨ has fl ALT_FORM = true then [[46]] else []) : ℤ) = pointLength p fl := by
  unfold pointLength
  split <;> rfl

/-- Without flags, `pad` fills up what is left of the precision. -/
theorem pad_rest {k : ℤ} (hk : 0 ≤ k) (hp : p + k ≤ INT_MAX) :
    ∃ ps, pad 48 (p + k) k 0#32 = .ok ps ∧ (size ps : ℤ) = max 0 p := by
  obtain ⟨ps, hps, hsize⟩ := pad_spec 48 hp hk 0#32
  refine ⟨ps, hps, ?_⟩
  rw [hsize, if_neg (by decide), Int.add_sub_cancel]

/-- **The length of the output for `f`.** -/
theorem fixedBody_spec {b : Blocks} (h : b.Fits e) (hp : 0 ≤ p) (hmax : p + 9 ≤ INT_MAX)
    (fl : BitVec 32) :
    ∃ ps, fixedBody arch b p fl = .ok ps ∧ (size ps : ℤ) = 1 + max 0 e + pointLength p fl + p := by
  obtain ⟨frac, p', hfrac, hsize, hle, hge⟩ := fractionLoop_spec arch h.lt_base (b.z - 1).toNat 1 p
  obtain ⟨fill, hfill, hfillSize⟩ := pad_rest (p := p') (show (0 : ℤ) ≤ 9 by decide) (by omega)
  have hint : IsInt (p' + 9) := by
    unfold INT_MAX at hmax
    exact ⟨by omega, by omega⟩
  -- the digits before the point
  have hwhole : ∃ whole, wholeLoop arch b.big (if b.a > 0 then 0 else b.a) (1 - if b.a > 0 then 0 else b.a).toNat
      (if b.a > 0 then 0 else b.a) = .ok whole ∧ (size whole : ℤ) = 1 + max 0 e := by
    by_cases ha : b.a > 0
    · -- one digit, which is 0 or the carry from behind the point
      obtain ⟨he, h0⟩ := h.fraction ha
      obtain ⟨s, hs, -, hone⟩ := blockDigits_spec arch (show 0 ≤ 8 by decide)
        (show b.big 0 < 10 ^ (0 + 1) from Nat.lt_succ_of_le h0)
      rw [if_pos ha]
      refine ⟨[oneDigit s], ?_, ?_⟩
      · show wholeLoop arch b.big 0 (0 + 1) 0 = _
        rw [wholeLoop, hs]
        rfl
      · rw [size_cons, size_nil]
        omega
    · -- the digits of the first block, and nine of each other one
      obtain ⟨k, hexp, hk, hlt, hlow⟩ := Blocks.exponent_spec (h.lt_base b.a)
      obtain ⟨s, hs, -, hone⟩ := blockDigits_spec arch hk hlt
      obtain ⟨ps, hps, hsize⟩ := wholeLoop_spec arch h.lt_base (-b.a).toNat (show b.a < b.a + 1 by omega)
      have he := h.whole (by omega)
      rw [if_neg ha, show (1 - b.a).toNat = (-b.a).toNat + 1 by omega]
      refine ⟨oneDigit s :: ps, ?_, ?_⟩
      · rw [wholeLoop, hs, ok_bind, hps, ok_bind, if_neg (not_not.mpr rfl)]
      · rw [size_cons]
        omega
  obtain ⟨whole, hwhole, hwholeSize⟩ := hwhole
  unfold fixedBody
  dsimp only
  rw [hwhole, ok_bind, hfrac, ok_bind, ck_of_isInt hint, ok_bind, hfill]
  refine ⟨_, rfl, ?_⟩
  rw [size_append, size_append, size_append]
  push_cast
  rw [size_point]
  omega

theorem scientificLoop_spec (hbig : ∀ i, big i < base) {a : ℤ} (fl : BitVec 32) (n : ℕ)
    {d : ℤ} (hd : a < d) (p : ℤ) :
    ∃ ps p', scientificLoop arch big a fl n d p = .ok (ps, p') ∧ size ps + max 0 p' = max 0 p ∧ p' ≤ p ∧
      min p (-9) ≤ p' := by
  induction n generalizing d p with
  | zero => exact ⟨[], p, rfl, by simp, le_refl _, by omega⟩
  | succ n ih =>
    rw [scientificLoop]
    split
    · obtain ⟨s, hs, hnine, -, -⟩ := blockDigits_nine arch (hbig d)
      obtain ⟨ps, p', hps, hsize, hle, hge⟩ := ih (d := d + 1) (by omega) (p - 9)
      have hne : d ≠ a := by omega
      rw [hs, ok_bind]
      dsimp only
      rw [if_pos hne, if_pos hne, if_pos hne, hnine]
      rw [show p - ((9 : ℕ) : ℤ) = p - 9 from rfl, hps]
      refine ⟨(nineDigits s).take (min ((9 : ℕ) : ℤ) p).toNat :: ps, p', rfl, ?_, by omega, by omega⟩
      rw [size_cons, length_take]
      omega
    · exact ⟨[], p, rfl, by simp, le_refl _, by omega⟩

/-- **The length of the output for `e`.** -/
theorem scientificBody_spec {b : Blocks} (h : ∀ i, b.big i < base) (hp : 0 ≤ p)
    (hmax : p + 18 ≤ INT_MAX) (fl : BitVec 32) (estr : List UInt8) :
    ∃ ps, scientificBody arch b p fl estr = .ok ps ∧
      (size ps : ℤ) = 1 + pointLength p fl + p + estr.length := by
  obtain ⟨n, hn⟩ : ∃ n : ℕ, ((if b.z ≤ b.a then b.a + 1 else b.z) - b.a).toNat = n + 1 := by
    refine Nat.exists_eq_add_one_of_ne_zero ?_
    split <;> omega
  -- the first block gives the digit before the point
  obtain ⟨s, hs, -, hpos, hnine⟩ := blockDigits_nine arch (h b.a)
  obtain ⟨ps, p', hps, hsize, hle, hge⟩ := scientificLoop_spec arch h fl n (show b.a < b.a + 1 by omega)
    (p - ((oneDigit s).drop 1).length)
  have hdrop : ((oneDigit s).drop 1).length = (oneDigit s).length - 1 := length_drop
  obtain ⟨fill, hfill, hfillSize⟩ := pad_rest (p := p') (show (0 : ℤ) ≤ 18 by decide) (by omega)
  have hint : IsInt (p' + 18) := by
    unfold INT_MAX at hmax
    exact ⟨by omega, by omega⟩
  unfold scientificBody
  dsimp only
  rw [hn, scientificLoop, if_pos (show p ≥ 0 from hp), hs, ok_bind]
  dsimp only
  rw [if_neg (not_not.mpr rfl), if_neg (not_not.mpr rfl), if_neg (not_not.mpr rfl), hps, ok_bind, ok_bind,
    ck_of_isInt hint, ok_bind, hfill]
  refine ⟨_, rfl, ?_⟩
  have hpoint : (size (if p > 0 ∨ has fl ALT_FORM = true then [[46]] else []) : ℤ) = pointLength p fl := by
    rw [← size_point]
    have hiff : p > 0 ↔ p ≠ 0 := by omega
    simp only [hiff]
  simp only [size_append, size_cons, size_nil, length_take]
  omega

/-! ## The digits of a number -/

/-- A precision with which arithmetic does not overflow. -/
def fpPrecMax : ℤ := INT_MAX - 200000

theorem Finite.split_whole (x : Finite L) :
    (if x.split.1 ≠ 0 then x.split.1 * 2 ^ 28 else x.split.1) / 2 ^ x.split.2.1 < base ∧
      ((if x.split.1 ≠ 0 then x.split.1 * 2 ^ 28 else x.split.1) / 2 ^ x.split.2.1 ≠ 0 ∨
        (if x.split.1 ≠ 0 then x.split.2.2 - 28 else x.split.2.2) = 0) := by
  by_cases hx : x.mant = 0
  · rw [Finite.split, if_pos hx]
    exact ⟨by decide, Or.inr rfl⟩
  · rw [Finite.split, if_neg hx]
    rw [if_pos hx]
    have hlow := Nat.log2_self_le hx
    have hhigh := Nat.lt_log2_self (n := x.mant)
    constructor
    · calc x.mant * 2 ^ 28 / 2 ^ x.mant.log2 < 2 ^ 29 := by
            rw [Nat.div_lt_iff_lt_mul (by positivity)]
            calc x.mant * 2 ^ 28 < 2 ^ (x.mant.log2 + 1) * 2 ^ 28 :=
                  Nat.mul_lt_mul_of_pos_right hhigh (by decide)
              _ = 2 ^ 29 * 2 ^ x.mant.log2 := by rw [← Nat.pow_add, ← Nat.pow_add]; congr 1; omega
        _ ≤ base := by decide
    · refine Or.inl ?_
      refine Nat.pos_iff_ne_zero.mp (Nat.div_pos ?_ (by positivity))
      exact hlow.trans (Nat.le_mul_of_pos_right _ (by decide))

theorem Finite.split_exp (x : Finite L) :
    -16600 ≤ (if x.split.1 ≠ 0 then x.split.2.2 - 28 else x.split.2.2) ∧
      (if x.split.1 ≠ 0 then x.split.2.2 - 28 else x.split.2.2) < L.maxExp := by
  have hpos := L.maxExp_pos
  by_cases hx : x.mant = 0
  · rw [Finite.split, if_pos hx]
    exact ⟨by decide, by simpa using hpos⟩
  · rw [Finite.split, if_neg hx]
    dsimp only
    have hlog : x.mant.log2 < L.mantDig := by
      rw [Nat.log2_lt hx]
      exact x.mant_lt
    have hge := x.exp_ge
    have hle := x.exp_le
    have hmant := L.mantDig_le
    have hmax := L.maxExp_le
    omega

theorem generalPart_spec (t : UInt8) (hp : 0 ≤ p ∧ p ≤ fpPrecMax) (fl : BitVec 32) (b : Blocks) :
    ∃ t' p', generalPart t p e fl b = .ok (t', p') ∧ 0 ≤ p' ∧ p' ≤ p + 4 := by
  have hint : IsInt (if (if p = 0 then 1 else p) > e ∧ e ≥ -4 then (if p = 0 then 1 else p) - (e + 1)
      else (if p = 0 then 1 else p) - 1) := by
    unfold fpPrecMax INT_MAX at hp
    unfold IsInt
    split <;> split <;> omega
  have hbound : 0 ≤ (if (if p = 0 then 1 else p) > e ∧ e ≥ -4 then (if p = 0 then 1 else p) - (e + 1)
      else (if p = 0 then 1 else p) - 1) ∧ (if (if p = 0 then 1 else p) > e ∧ e ≥ -4 then
        (if p = 0 then 1 else p) - (e + 1) else (if p = 0 then 1 else p) - 1) ≤ p + 4 := by
    split <;> split <;> omega
  unfold generalPart
  dsimp only
  rw [ck_of_isInt hint, ok_bind]
  split
  · exact ⟨_, _, rfl, hbound⟩
  · exact ⟨_, _, rfl, by omega, by omega⟩

/-- **The digits of a number** have the length that the exponent says. -/
theorem decimal_spec (L : LdblFormat) (mode : Rounding) (neg : Bool) (x : Finite L) (hp : 0 ≤ p ∧ p ≤ fpPrecMax)
    (fl : BitVec 32) (t : UInt8) :
    ∃ d, decimal L mode neg x.split p fl t = .ok d ∧ d.blocks.Fits d.e ∧ (-200000 ≤ d.e ∧ d.e ≤ 200000) ∧
      0 ≤ d.p ∧ d.p ≤ p + 4 := by
  have hmax := L.maxExp_le
  have hpos := L.maxExp_pos
  obtain ⟨hwhole, hzero⟩ := x.split_whole
  obtain ⟨helo, hehi⟩ := x.split_exp
  have hneed : 1 ≤ 1 + (p + (L.mantDig / 3 : ℕ) + 8) / 9 := by omega
  obtain ⟨r, hsplit, hloops⟩ := blocks_normal (isLetter t 102) hneed hwhole hzero
  unfold decimal
  dsimp only
  rw [hsplit, ok_bind]
  generalize hb : divLoop _ _ _ _ _ = b
  obtain ⟨hnormal, halo, hahi⟩ := hloops b hb.symm
  obtain ⟨k, hexp, hk, -, -⟩ := Blocks.exponent_spec (hnormal.lt_base b.a)
  generalize he : (if b.a < b.z then b.exponent else 0) = e at *
  -- the exponent, and the digit to which is rounded
  have hebounds : -160000 ≤ e ∧ e ≤ 160000 := by
    rcases hnormal.exponent with h | h <;> omega
  have hp' := hp
  unfold fpPrecMax INT_MAX at hp'
  have hj : IsInt (p - if isLetter t 102 = true then 0 else e) := by
    unfold IsInt
    split <;> omega
  have hj' : IsInt ((p - if isLetter t 102 = true then 0 else e) - if isLetter t 103 = true ∧ p ≠ 0 then 1 else 0) := by
    unfold IsInt
    split <;> split <;> omega
  have hF : isLetter t 102 = true →
      0 ≤ (p - if isLetter t 102 = true then 0 else e) - if isLetter t 103 = true ∧ p ≠ 0 then 1 else 0 := by
    intro h
    split <;> omega
  have hE' : isLetter t 102 = false →
      -e ≤ (p - if isLetter t 102 = true then 0 else e) - if isLetter t 103 = true ∧ p ≠ 0 then 1 else 0 := by
    intro h
    rw [if_neg (by rw [h]; decide)]
    split <;> omega
  have hlow : -(9 * L.maxExp : ℤ) ≤
      (p - if isLetter t 102 = true then 0 else e) - if isLetter t 103 = true ∧ p ≠ 0 then 1 else 0 := by
    cases h : isLetter t 102 with
    | true =>
      omega
    | false =>
      omega
  rw [ck_of_isInt hj, ok_bind, ck_of_isInt hj', ok_bind]
  obtain ⟨b', e', hround, hfits, ha', he'⟩ := roundAt_fits L mode neg hnormal hF hE' hlow
  obtain ⟨k', hexp', hk', -, -⟩ := Blocks.exponent_spec (hfits.lt_base b'.a)
  have hebounds' : -200000 ≤ e' ∧ e' ≤ 200000 := by
    rcases he' with h | h <;> omega
  have hfits' : b'.trim.Fits e' := ⟨hfits.lt_base, hfits.whole, hfits.fraction⟩
  rw [hround, ok_bind]
  split
  · obtain ⟨t', p', hg, hp0, hp1⟩ := generalPart_spec t hp fl b'.trim
    rw [hg]
    exact ⟨_, rfl, hfits', hebounds', hp0, hp1⟩
  · exact ⟨_, rfl, hfits', hebounds', hp.1, by show p ≤ p + 4; omega⟩

/-! ## The function -/

/-- For an output of `n` bytes: it is written and counted, or it is too long for an `int`, and nothing is written. -/
def Counted (n : ℤ) : Option (ℤ × List (List UInt8)) → Prop
  | none => INT_MAX < n
  | some (k, ps) => k = n ∧ k = size ps ∧ k ≤ INT_MAX

/-- The sign has at most one byte, and `prefix` has two more behind it. -/
theorem fpSign_spec (neg : Bool) (fl : BitVec 32) :
    (fpSign neg fl).2 ≤ 1 ∧ ∀ (lower : Bool) (more : ℕ), more ≤ 2 →
      (fpPrefix (if lower then (fpSign neg fl).1 + 9 else (fpSign neg fl).1) ((fpSign neg fl).2 + more)).length =
        (fpSign neg fl).2 + more := by
  unfold fpSign
  split
  · exact ⟨by decide, by decide⟩
  · split
    · exact ⟨by decide, by decide⟩
    · split
      · exact ⟨by decide, by decide⟩
      · exact ⟨by decide, by decide⟩

theorem length_fpPrefix (neg : Bool) (fl : BitVec 32) :
    (fpPrefix (fpSign neg fl).1 (fpSign neg fl).2).length = (fpSign neg fl).2 :=
  (fpSign_spec neg fl).2 false 0 (by decide)

/-- The length of the output of the digits, without a limit; `more` is for what depends on the exponent. -/
def decimalSize (arch : Arch) (x : Decimal) (sign : ℕ × ℕ) (w : ℤ) (fl : BitVec 32) : Except Fault ℤ := do
  let estr ← (if isLetter x.t 102 then .ok [] else expText arch x.t 2 x.e)
  let more : ℤ := if isLetter x.t 102 then x.e else estr.length
  .ok (max w (sign.2 + (1 + x.p + pointLength x.p fl + max 0 more)))

/-- **The output of the digits** has the length that is returned. -/
theorem decimalOut_spec {x : Decimal} (h : x.blocks.Fits x.e) (he : -200000 ≤ x.e ∧ x.e ≤ 200000)
    (hp : 0 ≤ x.p ∧ x.p ≤ fpPrecMax + 4) (neg : Bool) (hw : w ≤ INT_MAX)
    (hfl : Adjusted fl) : ∃ o n, decimalOut arch x (fpSign neg fl) w fl = .ok o ∧
      decimalSize arch x (fpSign neg fl) w fl = .ok n ∧ Counted n o := by
  have hprefix := length_fpPrefix neg fl
  obtain ⟨hpoint0, hpoint1⟩ := pointLength_bounds x.p fl
  have hp' := hp
  unfold fpPrecMax INT_MAX at hp'
  generalize hsign : fpSign neg fl = sign at *
  -- the exponent, and what it adds to the length
  obtain ⟨estr, hestr, hlen, hpos⟩ : ∃ estr, (if isLetter x.t 102 = true then Except.ok [] else expText arch x.t 2 x.e) =
      .ok estr ∧ estr.length ≤ 12 ∧ (isLetter x.t 102 = false → 0 < estr.length) := by
    split
    · rename_i hf
      exact ⟨[], rfl, by decide, fun h => absurd (hf.symm.trans h) (by decide)⟩
    · obtain ⟨s, hs, hlo, hhi⟩ := expText_spec arch x.t (show 2 ≤ 2 by decide)
        (show -1000000 ≤ x.e ∧ x.e ≤ 1000000 by omega)
      exact ⟨s, hs, hhi, fun _ => by omega⟩
  unfold decimalOut decimalSize
  rw [show (if x.p ≠ 0 ∨ has fl ALT_FORM = true then (1 : ℤ) else 0) = pointLength x.p fl from rfl, hestr]
  simp only [ok_bind]
  generalize hm : (if isLetter x.t 102 = true then x.e else (estr.length : ℤ)) = more
  by_cases hprec : x.p > INT_MAX - 1 - pointLength x.p fl
  · rw [if_pos hprec]
    refine ⟨_, _, rfl, rfl, ?_⟩
    show INT_MAX < max w _
    omega
  · rw [if_neg hprec, ck_of_isInt (show IsInt (1 + x.p + pointLength x.p fl) from ⟨by omega, by omega⟩), ok_bind]
    by_cases hlong : more > INT_MAX - (1 + x.p + pointLength x.p fl)
    · rw [if_pos hlong]
      refine ⟨_, _, rfl, rfl, ?_⟩
      show INT_MAX < max w _
      omega
    · rw [if_neg hlong]
      have hlong' := hlong
      unfold INT_MAX at hlong'
      have hl : ∃ l, (if more > 0 then 1 + x.p + pointLength x.p fl + more else 1 + x.p + pointLength x.p fl) = l ∧
          l = 1 + x.p + pointLength x.p fl + max 0 more := by
        refine ⟨_, rfl, ?_⟩
        split <;> omega
      obtain ⟨l, hl, hlsum⟩ := hl
      rw [hl, ← hlsum, ck_of_isInt (show IsInt l from ⟨by omega, by omega⟩), ok_bind]
      by_cases hfit : l > INT_MAX - sign.2
      · rw [if_pos hfit]
        refine ⟨_, _, rfl, rfl, ?_⟩
        show INT_MAX < max w _
        omega
      · rw [if_neg hfit]
        unfold INT_MAX at hfit
        rw [ck_of_isInt (show IsInt (sign.2 + l) from ⟨by omega, by omega⟩), ok_bind]
        obtain ⟨before, zeros, after, hbefore, hzeros, hafter, hsize⟩ := pads_spec hw
          (show 0 ≤ (sign.2 : ℤ) + l by omega) hfl
        obtain ⟨body, hbody, hbodySize⟩ : ∃ body, (if isLetter x.t 102 = true then fixedBody arch x.blocks x.p fl
            else scientificBody arch x.blocks x.p fl estr) = .ok body ∧ (size body : ℤ) = l := by
          split
          · rename_i hf
            obtain ⟨ps, hps, hs⟩ := fixedBody_spec arch h hp.1 (show x.p + 9 ≤ INT_MAX by unfold INT_MAX; omega) fl
            refine ⟨ps, hps, ?_⟩
            rw [if_pos hf] at hm
            rw [hs]
            omega
          · rename_i hf
            obtain ⟨ps, hps, hs⟩ := scientificBody_spec arch h.lt_base hp.1
              (show x.p + 18 ≤ INT_MAX by unfold INT_MAX; omega) fl estr
            refine ⟨ps, hps, ?_⟩
            rw [if_neg hf] at hm
            omega
        rw [hbefore, hzeros, hbody, hafter]
        refine ⟨_, _, rfl, rfl, rfl, ?_, ?_⟩
        · simp only [size_append, size_cons, size_nil]
          omega
        · unfold INT_MAX at hw ⊢
          omega

/-- The digits of `m / 2^k` end, since each turn takes a factor from the denominator. -/
theorem hexDigits_spec (lower : UInt8) (k fuel : ℕ) {m : ℕ} (hdvd : 2 ^ (k + 1 - fuel) ∣ m) (hfuel : 0 < fuel) :
    ∃ s, hexDigits lower k fuel m = .ok s ∧ 0 < s.length ∧ s.length ≤ fuel := by
  induction fuel generalizing m with
  | zero => omega
  | succ fuel ih =>
    rw [hexDigits]
    split
    · exact ⟨_, rfl, by simp, by simp⟩
    · rename_i hne
      have hpos : 0 < fuel := by
        rcases Nat.eq_zero_or_pos fuel with rfl | h
        · refine absurd ?_ hne
          rw [Nat.add_sub_cancel] at hdvd
          rw [Nat.mod_eq_zero_of_dvd hdvd]
        · exact h
      have hdvd' : 2 ^ (k + 1 - fuel) ∣ 16 * (m % 2 ^ k) := by
        by_cases hle : fuel ≤ k
        · have heq : k + 1 - fuel = k + 1 - (fuel + 1) + 1 := by omega
          rw [heq]
          exact two_pow_dvd_mul_mod hdvd (by omega) (by decide)
        · rw [show k + 1 - fuel = 0 by omega]
          exact one_dvd _
      obtain ⟨s, hs, hlen, hle⟩ := ih hdvd' hpos
      rw [hs]
      refine ⟨_, rfl, by simp, ?_⟩
      rw [length_cons]
      omega

theorem length_hexPoint (always : Bool) {s : List UInt8} (hs : 0 < s.length) :
    0 < (hexPoint always s).length ∧ (hexPoint always s).length ≤ s.length + 1 := by
  unfold hexPoint
  split
  · rw [length_append, length_take, length_cons, length_tail]
    omega
  · omega

theorem roundBits_snd_le (mode : Rounding) (neg : Bool) (q m k : ℕ) : (roundBits mode neg q m k).2 ≤ max q k := by
  unfold roundBits
  split
  · exact le_max_right ..
  · exact le_max_left ..

theorem Finite.split_bounds (x : Finite L) :
    x.split.2.1 ≤ 113 ∧ -16600 ≤ x.split.2.2 ∧ x.split.2.2 ≤ 16600 := by
  have hmant := L.mantDig_le
  have hmax := L.maxExp_le
  by_cases hx : x.mant = 0
  · rw [Finite.split, if_pos hx]
    decide
  · rw [Finite.split, if_neg hx]
    have hlog : x.mant.log2 < L.mantDig := by
      rw [Nat.log2_lt hx]
      exact x.mant_lt
    have hge := x.exp_ge
    have hle := x.exp_le
    dsimp only
    omega

/-- The length of the output for `a`, without a limit. -/
def hexSize (L : LdblFormat) (arch : Arch) (mode : Rounding) (neg : Bool) (y : ℕ × ℕ × ℤ) (sign : ℕ × ℕ) (w p : ℤ)
    (fl : BitVec 32) (t : UInt8) : Except Fault ℤ := do
  let m := if 0 ≤ p ∧ p < (L.mantDig - 1 + 3 : ℤ) / 4 then roundBits mode neg (4 * p.toNat) y.1 y.2.1
    else (y.1, y.2.1)
  let estr ← expText arch (t + 15) 1 y.2.2
  let s ← hexDigits (t &&& 32) m.2 (m.2 + 1) m.1
  let s := hexPoint (p > 0 ∨ has fl ALT_FORM) s
  .ok (max w (((sign.2 + 2 : ℕ) : ℤ) +
    if p ≠ 0 ∧ (s.length : ℤ) - 2 < p then p + 2 + estr.length else (s.length + estr.length : ℤ)))

/-- **The output for `a`** has the length that is returned. -/
theorem fmtHex_spec (L : LdblFormat) (arch : Arch) (mode : Rounding) (neg : Bool) (x : Finite L)
    (hw : w ≤ INT_MAX) (hp : IsInt p) (hfl : Adjusted fl) (t : UInt8) :
    ∃ o n, fmtHex L arch mode neg x.split (fpSign neg fl) w p fl t = .ok o ∧
      hexSize L arch mode neg x.split (fpSign neg fl) w p fl t = .ok n ∧ Counted n o := by
  obtain ⟨hk, helo, hehi⟩ := x.split_bounds
  have hmant := L.mantDig_le
  obtain ⟨hpl, hprefix⟩ := fpSign_spec neg fl
  have hprefix := hprefix (decide (t &&& 32 ≠ 0)) 2 (le_refl 2)
  simp only [decide_eq_true_eq] at hprefix
  generalize fpSign neg fl = sign at *
  unfold fmtHex hexSize
  dsimp only
  -- the digits
  have hbits : (if 0 ≤ p ∧ p < ((L.mantDig : ℤ) - 1 + 3) / 4 then roundBits mode neg (4 * p.toNat) x.split.1 x.split.2.1
      else (x.split.1, x.split.2.1)).2 ≤ 120 := by
    split
    · have := roundBits_snd_le mode neg (4 * p.toNat) x.split.1 x.split.2.1
      omega
    · exact hk.trans (by decide)
  generalize (if 0 ≤ p ∧ p < ((L.mantDig : ℤ) - 1 + 3) / 4 then roundBits mode neg (4 * p.toNat) x.split.1 x.split.2.1
      else (x.split.1, x.split.2.1)) = m at *
  obtain ⟨estr, hestr, hestr0, hestr1⟩ := expText_spec arch (t + 15) (show 1 ≤ 2 by decide)
    (show -1000000 ≤ x.split.2.2 ∧ x.split.2.2 ≤ 1000000 by omega)
  have hdvd : 2 ^ (m.2 + 1 - (m.2 + 1)) ∣ m.1 := by
    rw [Nat.sub_self]
    exact one_dvd _
  obtain ⟨digits, hdigits, hpos, hle⟩ := hexDigits_spec (t &&& 32) m.2 (m.2 + 1) hdvd (by omega)
  have hs := length_hexPoint (decide (p > 0 ∨ has fl ALT_FORM = true)) hpos
  rw [hestr, ok_bind, ok_bind, hdigits, ok_bind, ok_bind]
  generalize hexPoint (decide (p > 0 ∨ has fl ALT_FORM = true)) digits = s at *
  by_cases hlong : p > INT_MAX - 2 - estr.length - ((sign.2 + 2 : ℕ) : ℤ)
  · rw [if_pos hlong]
    refine ⟨_, _, rfl, rfl, ?_⟩
    show INT_MAX < max w _
    unfold INT_MAX at hlong ⊢
    omega
  · rw [if_neg hlong]
    unfold INT_MAX at hlong
    have hl : ∃ l : ℤ, (if p ≠ 0 ∧ (s.length : ℤ) - 2 < p then p + 2 + estr.length else (s.length + estr.length : ℤ)) = l ∧
        0 ≤ l ∧ l + sign.2 + 2 ≤ 2147483647 ∧ l = estr.length + s.length + max 0 (l - estr.length - s.length) := by
      refine ⟨_, rfl, ?_⟩
      split <;> omega
    obtain ⟨l, hl, hl0, hl1, hlsum⟩ := hl
    rw [hl, ck_of_isInt (show IsInt l from ⟨by omega, by omega⟩), ok_bind]
    rw [ck_of_isInt (show IsInt (((sign.2 + 2 : ℕ) : ℤ) + l) from ⟨by omega, by omega⟩), ok_bind]
    obtain ⟨before, zeros, after, hbefore, hzeros, hafter, hsize⟩ := pads_spec hw
      (show 0 ≤ ((sign.2 + 2 : ℕ) : ℤ) + l by omega) hfl
    obtain ⟨fill, hfill, hfillSize⟩ := pad_spec 48 (w := l - estr.length - s.length)
      (by unfold INT_MAX; omega) (le_refl _) 0#32
    rw [if_neg (by decide)] at hfillSize
    rw [hbefore, hzeros, hfill, hafter]
    refine ⟨_, _, rfl, rfl, rfl, ?_, ?_⟩
    · simp only [size_append, size_cons, size_nil]
      omega
    · unfold INT_MAX at hw ⊢
      omega

theorem fmtSpecial_spec (nan neg : Bool) (hw : w ≤ INT_MAX) (hfl : Adjusted fl) (t : UInt8) :
    ∃ o, fmtSpecial nan (fpSign neg fl) w fl t = .ok o ∧ Counted (max w (3 + (fpSign neg fl).2)) o := by
  obtain ⟨hpl, -⟩ := fpSign_spec neg fl
  have hprefix := length_fpPrefix neg fl
  generalize fpSign neg fl = sign at *
  obtain ⟨before, hbefore, hsize1⟩ := pad_spec 32 hw (show 0 ≤ 3 + (sign.2 : ℤ) by omega) (fl &&& ~~~ZERO_PAD)
  obtain ⟨after, hafter, hsize2⟩ := pad_spec 32 hw (show 0 ≤ 3 + (sign.2 : ℤ) by omega) (fl ^^^ LEFT_ADJ)
  have hlen : (if t &&& 32 ≠ 0 then (if nan = true then [78, 65, 78] else [73, 78, 70] : List UInt8).map (· ||| 32)
      else if nan = true then [78, 65, 78] else [73, 78, 70]).length = 3 := by
    cases nan <;> split <;> rfl
  have hpads : (size before + size after : ℤ) = max 0 (w - (3 + sign.2)) := by
    rw [hsize1, hsize2, has_pad, has_pad_left, getLsbD_clear _ (by decide), getLsbD_clear _ (by decide)]
    unfold Adjusted at hfl
    cases hleft : fl.getLsbD 13 <;> cases hzero : fl.getLsbD 16 <;> simp_all
  unfold fmtSpecial
  rw [hbefore, hafter]
  refine ⟨_, rfl, rfl, ?_, ?_⟩
  · simp only [size_append, size_cons, size_nil]
    omega
  · unfold INT_MAX at hw ⊢
    omega

/-- The length of the output of `fmt_fp`, without a limit. -/
def fpSize (L : LdblFormat) (arch : Arch) (mode : Rounding) (y : LongDouble L) (w p : ℤ) (fl : BitVec 32) (t : UInt8) :
    Except Fault ℤ :=
  let sign := fpSign y.neg fl
  match y.magnitude with
  | .nan => .ok (max w (3 + sign.2))
  | .inf => .ok (max w (3 + sign.2))
  | .finite x =>
    if isLetter t 97 then hexSize L arch mode y.neg x.split sign w p fl t
    else do
      let d ← decimal L mode y.neg x.split (if p < 0 then 6 else p) fl t
      decimalSize arch d sign w fl

/-- **`fmt_fp` counts what it writes**, and refuses what is too long. -/
theorem fmtFp_spec (L : LdblFormat) (arch : Arch) (mode : Rounding) (y : LongDouble L) (hw : w ≤ INT_MAX)
    (hp : IsInt p) (hfl : Adjusted fl) (t : UInt8) (hsmall : isLetter t 97 = true ∨ p ≤ fpPrecMax) :
    ∃ o n, fmtFp L arch mode y w p fl t = .ok o ∧ fpSize L arch mode y w p fl t = .ok n ∧ Counted n o := by
  unfold fmtFp fpSize
  cases y.magnitude with
  | nan =>
    obtain ⟨o, ho, hcount⟩ := fmtSpecial_spec true y.neg hw hfl t
    exact ⟨o, _, ho, rfl, hcount⟩
  | inf =>
    obtain ⟨o, ho, hcount⟩ := fmtSpecial_spec false y.neg hw hfl t
    exact ⟨o, _, ho, rfl, hcount⟩
  | finite x =>
    dsimp only
    by_cases ht : isLetter t 97 = true
    · rw [if_pos ht, if_pos ht]
      exact fmtHex_spec L arch mode y.neg x hw hp hfl t
    · have hp' : 0 ≤ (if p < 0 then 6 else p) ∧ (if p < 0 then 6 else p) ≤ fpPrecMax := by
        have := hsmall.resolve_left ht
        unfold fpPrecMax INT_MAX at this ⊢
        split <;> omega
      obtain ⟨d, hd, hfits, he, hp0, hp1⟩ := decimal_spec L mode y.neg x hp' fl t
      rw [if_neg ht, if_neg ht, hd]
      exact decimalOut_spec arch hfits he ⟨hp0, by omega⟩ y.neg hw hfl

end Leblibc.Printf.Core
