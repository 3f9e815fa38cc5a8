import Leblibc.Base.Machine
import Leblibc.Lib.Bytes
import Leblibc.Lib.Words

/-!
# Scans for a character

A model of `src/string/strlen.c`, `strchrnul.c`, `strchr.c`, `memchr.c` and of their wide relatives
`wcslen.c`, `wcschr.c`, `wmemchr.c`. Memory is a function from addresses to characters, a pointer is an
address, and a null pointer is `none`. The byte scans go through memory by aligned words, which are
tested with `HASZERO`, and so read beyond the end of a string but never stop there.

A loop that only the contents of memory can end has a bound on its turns, and is `none` where it
exceeds it.

## Main results

* `hasZero_ne_zero`: `HASZERO` misses no zero byte
* `strScan_eq`: a scan by words stops where the scan by bytes does
* `strchr_isFirst`, `memchr_isFirst`, `wcschr_isFirst`, `wmemchr_isFirst`: the scans find the first
  occurrence
-/

namespace Leblibc.Str

open Leblibc.Lib

/-! ## Model -/

/-- `ONES`. -/
def ones (a : Arch) : ℕ := a.sizeMax / 255

/-- `HIGHS`. -/
def highs (a : Arch) : ℕ := a.wrap (ones a * (255 / 2 + 1))

/-- `HASZERO(x)`. -/
def hasZero (a : Arch) (x : ℕ) : ℕ :=
  a.wrap (x + 2 ^ a.bits - ones a) &&& (a.sizeMax - x) &&& highs a

/-- The word at an address. -/
def loadWord (a : Arch) (m : ℕ → UInt8) (s : ℕ) : ℕ :=
  ofBytes (fun i => (m (s + i)).toNat) a.ptrSize

/-- A loop that moves a pointer by `step` until it satisfies `stop`. -/
def scanTo (stop : ℕ → Bool) (step : ℕ) : ℕ → ℕ → Option ℕ
  | 0, _ => none
  | fuel + 1, s => if stop s then some s else scanTo stop step fuel (s + step)

/-- The three loops of a scan by words: up to an aligned address, by words, and by bytes. -/
def strScan (a : Arch) (hit wordHit : ℕ → Bool) (fuel s : ℕ) : Option ℕ := do
  let s ← scanTo (fun s => s % a.ptrSize == 0 || hit s) 1 fuel s
  -- the first loop returns from the function where it meets what is looked for
  if s % a.ptrSize ≠ 0 then some s
  else
    let s ← scanTo wordHit a.ptrSize fuel s
    scanTo hit 1 fuel s

/-- `strlen`. -/
def strlen (a : Arch) (m : ℕ → UInt8) (fuel s : ℕ) : Option ℕ := do
  let e ← strScan a (fun s => m s == 0) (fun w => hasZero a (loadWord a m w) != 0) fuel s
  some (e - s)

/-- `__strchrnul`. -/
def strchrnul (a : Arch) (m : ℕ → UInt8) (fuel s : ℕ) (c : UInt8) : Option ℕ :=
  if c = 0 then do
    let len ← strlen a m fuel s
    some (s + len)
  else
    let k := a.wrap (ones a * c.toNat)
    strScan a (fun s => m s == 0 || m s == c)
      (fun w => hasZero a (loadWord a m w) != 0 || hasZero a (loadWord a m w ^^^ k) != 0) fuel s

/-- `strchr`. -/
def strchr (a : Arch) (m : ℕ → UInt8) (fuel s : ℕ) (c : UInt8) : Option (Option ℕ) := do
  let r ← strchrnul a m fuel s c
  some (if m r = c then some r else none)

section Bounded

variable {β : Type} [DecidableEq β]

/-- The loop `for (; go && n && *s != c; s++, n--)`, with the pointer and the count it ends with. -/
def chrLoop (go : ℕ → Bool) (m : ℕ → β) (c : β) : ℕ → ℕ → ℕ × ℕ
  | 0, s => (s, 0)
  | n + 1, s => if go s && m s ≠ c then chrLoop go m c n (s + 1) else (s, n + 1)

/-- `wmemchr`. -/
def wmemchr (m : ℕ → β) (s : ℕ) (c : β) (n : ℕ) : Option ℕ :=
  let (s, n) := chrLoop (fun _ => true) m c n s
  if n ≠ 0 then some s else none

end Bounded

/-- The loop of `memchr` by words. Each turn takes some of the count, which bounds the turns. -/
def chrWords (a : Arch) (m : ℕ → UInt8) (k : ℕ) : ℕ → ℕ → ℕ → ℕ × ℕ
  | 0, s, n => (s, n)
  | fuel + 1, s, n =>
    if a.ptrSize ≤ n ∧ hasZero a (loadWord a m s ^^^ k) = 0 then
      chrWords a m k fuel (s + a.ptrSize) (n - a.ptrSize)
    else (s, n)

/-- `memchr`. -/
def memchr (a : Arch) (m : ℕ → UInt8) (s : ℕ) (c : UInt8) (n : ℕ) : Option ℕ :=
  let (s, n) := chrLoop (fun s => s &&& (a.ptrSize - 1) != 0) m c n s
  let (s, n) := if n ≠ 0 ∧ m s ≠ c then chrWords a m (a.wrap (ones a * c.toNat)) n s n else (s, n)
  let (s, n) := chrLoop (fun _ => true) m c n s
  if n ≠ 0 then some s else none

section Wide

variable {β : Type} [DecidableEq β] [Zero β]

/-- `wcslen`. -/
def wcslen (m : ℕ → β) (fuel s : ℕ) : Option ℕ := do
  let e ← scanTo (fun s => m s == 0) 1 fuel s
  some (e - s)

/-- `wcschr`. -/
def wcschr (m : ℕ → β) (fuel s : ℕ) (c : β) : Option (Option ℕ) :=
  if c = 0 then do
    let len ← wcslen m fuel s
    some (some (s + len))
  else do
    let s ← scanTo (fun s => m s == 0 || m s == c) 1 fuel s
    some (if m s ≠ 0 then some s else none)

end Wide

/-! ## Strings in memory -/

/-- The contents of memory from an address on. -/
def view {β : Type} (m : ℕ → β) (s : ℕ) : ℕ → β := fun x => m (s + x)

/-- A string of `len` characters begins at `s`: none of them is zero, and a zero follows them. -/
structure StringAt {β : Type} [Zero β] (m : ℕ → β) (s len : ℕ) : Prop where
  ne_zero : ∀ i < len, m (s + i) ≠ 0
  end_zero : m (s + len) = 0

theorem StringAt.drop {β : Type} [Zero β] {m : ℕ → β} {s len d : ℕ} (h : StringAt m s len)
    (hd : d ≤ len) : StringAt m (s + d) (len - d) where
  ne_zero i hi := by
    rw [add_assoc]
    exact h.ne_zero (d + i) (by omega)
  end_zero := by
    rw [add_assoc, Nat.add_sub_cancel' hd]
    exact h.end_zero

theorem occursAt_one {β : Type} {m : ℕ → β} {s i : ℕ} {c : β} :
    OccursAt (view m s) (fun _ => c) 1 i ↔ m (s + i) = c := by
  constructor
  · intro hocc
    exact hocc 0 Nat.one_pos
  · intro heq x hx
    obtain rfl : x = 0 := by omega
    exact heq

/-! ## The test for a zero byte -/

variable (a : Arch)

theorem ones_eq : ones a = repByte 1 a.ptrSize := by
  cases a <;> rfl

theorem highs_eq : highs a = repByte 128 a.ptrSize := by
  cases a <;> rfl

theorem two_pow_bits : 2 ^ a.bits = 256 ^ a.ptrSize := by
  cases a <;> rfl

theorem ptrSize_pos : 0 < a.ptrSize := by
  cases a <;> decide

/-- **`HASZERO` misses no zero byte.** -/
theorem hasZero_ne_zero {f : ℕ → ℕ} (hf : ∀ i < a.ptrSize, f i < 256)
    (hz : ∃ i < a.ptrSize, f i = 0) : hasZero a (ofBytes f a.ptrSize) ≠ 0 := by
  obtain ⟨j, h1, h2, h3⟩ := exists_testBit_of_eq_zero hf hz
  intro h
  have hbit : (hasZero a (ofBytes f a.ptrSize)).testBit j = true := by
    rw [hasZero, Arch.wrap, Arch.sizeMax, two_pow_bits, ones_eq, highs_eq, Nat.testBit_and,
      Nat.testBit_and, h1, h2, h3]
    rfl
  rw [h, Nat.zero_testBit] at hbit
  cases hbit

theorem toNat_lt (b : UInt8) : b.toNat < 256 := b.toNat_lt

theorem hasZero_loadWord {m : ℕ → UInt8} {s : ℕ} (h : ∃ i < a.ptrSize, m (s + i) = 0) :
    hasZero a (loadWord a m s) ≠ 0 := by
  obtain ⟨i, hi, hz⟩ := h
  exact hasZero_ne_zero a (fun _ _ => toNat_lt _) ⟨i, hi, by rw [hz]; rfl⟩

theorem hasZero_loadWord_xor {m : ℕ → UInt8} {s : ℕ} {c : UInt8} (h : ∃ i < a.ptrSize, m (s + i) = c) :
    hasZero a (loadWord a m s ^^^ a.wrap (ones a * c.toNat)) ≠ 0 := by
  obtain ⟨i, hi, hz⟩ := h
  have hrep : a.wrap (ones a * c.toNat) = ofBytes (fun _ => c.toNat) a.ptrSize := by
    rw [ones_eq, repByte_mul, one_mul]
    apply Arch.wrap_of_lt
    rw [two_pow_bits]
    exact repByte_lt (toNat_lt c) _
  rw [hrep, loadWord, ofBytes_xor (fun _ _ => toNat_lt _) (fun _ _ => toNat_lt _)]
  apply hasZero_ne_zero
  · intro j _
    exact Nat.xor_lt_two_pow (n := 8) (toNat_lt _) (toNat_lt _)
  · refine ⟨i, hi, ?_⟩
    rw [hz]
    exact Nat.xor_self _

/-! ## Scans without a bound -/

/-- A scan that can stop in time stops at the first place where it can. -/
theorem scanTo_spec (stop : ℕ → Bool) {step s e : ℕ} (fuel : ℕ) (he : stop (s + e * step) = true) (hfuel : e < fuel) :
    ∃ e' ≤ e, scanTo stop step fuel s = some (s + e' * step) ∧ stop (s + e' * step) = true ∧
      ∀ i < e', stop (s + i * step) = false := by
  -- by induction on the turns; the scan from the next place has one turn less to go
  induction e generalizing fuel s with
  | zero =>
    obtain ⟨fuel, rfl⟩ := Nat.exists_eq_succ_of_ne_zero (Nat.ne_of_gt hfuel)
    refine ⟨0, le_refl _, ?_, he, fun i hi => absurd hi (Nat.not_lt_zero i)⟩
    rw [Nat.zero_mul, add_zero] at he ⊢
    rw [scanTo, if_pos he]
  | succ e ih =>
    obtain ⟨fuel, rfl⟩ := Nat.exists_eq_succ_of_ne_zero (Nat.ne_of_gt (Nat.zero_lt_of_lt hfuel))
    by_cases hs : stop s = true
    · refine ⟨0, Nat.zero_le _, ?_, ?_, fun i hi => absurd hi (Nat.not_lt_zero i)⟩
      · rw [scanTo, if_pos hs, Nat.zero_mul, add_zero]
      · rw [Nat.zero_mul]
        exact hs
    · have hnext : ∀ i, s + step + i * step = s + (i + 1) * step := fun i => by ring
      obtain ⟨e', hle, heq, hstop, hbefore⟩ := ih fuel
        (by rw [hnext]; exact he) (by omega)
      refine ⟨e' + 1, by omega, ?_, ?_, ?_⟩
      · rw [scanTo, if_neg hs, heq, hnext]
      · rw [← hnext]
        exact hstop
      · intro i hi
        rcases i with - | i
        · rw [Nat.zero_mul]
          exact Bool.eq_false_iff.mpr hs
        · rw [← hnext]
          exact hbefore i (by omega)

/-- A scan by single steps, from the first place where it can stop. -/
theorem scanTo_one {stop : ℕ → Bool} {fuel s d : ℕ} (hd : stop (s + d) = true)
    (hbefore : ∀ i < d, stop (s + i) = false) (hfuel : d < fuel) :
    scanTo stop 1 fuel s = some (s + d) := by
  rw [← mul_one d] at hd
  obtain ⟨e, hle, heq, hstop, -⟩ := scanTo_spec stop fuel hd hfuel
  rw [mul_one] at heq hstop
  rcases hle.eq_or_lt with rfl | hlt
  · exact heq
  · rw [hbefore e hlt] at hstop
    cases hstop

/-- **A scan by words stops where the scan by bytes does**, if no word that holds what is looked for is
passed over. -/
theorem strScan_eq {a : Arch} {hit wordHit : ℕ → Bool} {fuel s d : ℕ}
    (hword : ∀ w, (∃ i < a.ptrSize, hit (w + i) = true) → wordHit w = true)
    (hd : hit (s + d) = true) (hbefore : ∀ i < d, hit (s + i) = false) (hfuel : d < fuel) :
    strScan a hit wordHit fuel s = some (s + d) := by
  have hps := ptrSize_pos a
  -- the first loop cannot pass the place
  have hd1 : ((s + d * 1) % a.ptrSize == 0 || hit (s + d * 1)) = true := by
    rw [mul_one, hd, Bool.or_true]
  obtain ⟨e1, hle1, heq1, hstop1, -⟩ :=
    scanTo_spec (fun s => s % a.ptrSize == 0 || hit s) fuel hd1 hfuel
  rw [mul_one] at heq1 hstop1
  unfold strScan
  rw [heq1, some_bind]
  by_cases hal : (s + e1) % a.ptrSize = 0
  · rw [if_neg (not_not.mpr hal)]
    -- the second one cannot pass the word that holds it
    have hdiv := Nat.mod_add_div' (d - e1) a.ptrSize
    have hmod := Nat.mod_lt (d - e1) hps
    have hin : wordHit (s + e1 + (d - e1) / a.ptrSize * a.ptrSize) = true := by
      apply hword
      refine ⟨(d - e1) % a.ptrSize, hmod, ?_⟩
      have hidx : s + e1 + (d - e1) / a.ptrSize * a.ptrSize + (d - e1) % a.ptrSize = s + d := by omega
      rw [hidx]
      exact hd
    have hquot : (d - e1) / a.ptrSize ≤ d - e1 := Nat.div_le_self _ _
    obtain ⟨e2, hle2, heq2, -, -⟩ := scanTo_spec wordHit fuel hin (by omega)
    have hmul : e2 * a.ptrSize ≤ (d - e1) / a.ptrSize * a.ptrSize := Nat.mul_le_mul_right _ hle2
    rw [heq2, some_bind]
    have hrest : s + e1 + e2 * a.ptrSize + (d - e1 - e2 * a.ptrSize) = s + d := by omega
    rw [scanTo_one (by rw [hrest]; exact hd) ?_ (by omega), hrest]
    intro i hi
    have hidx : s + e1 + e2 * a.ptrSize + i = s + (e1 + e2 * a.ptrSize + i) := by omega
    rw [hidx]
    exact hbefore _ (by omega)
  · rw [if_pos hal]
    have hhit : hit (s + e1) = true := by
      simpa only [beq_eq_false_iff_ne.mpr hal, Bool.false_or] using hstop1
    rcases hle1.eq_or_lt with rfl | hlt
    · rfl
    · rw [hbefore e1 hlt] at hhit
      cases hhit

section Strings

variable {β : Type} [DecidableEq β] [Zero β] {m : ℕ → β} {s len : ℕ} {c : β}

/-- Where a scan of a string for a character, or for its end, stops. -/
theorem StringAt.exists_stop (h : StringAt m s len) (c : β) :
    ∃ d ≤ len, (m (s + d) == 0 || m (s + d) == c) = true ∧
      ∀ i < d, (m (s + i) == 0 || m (s + i) == c) = false := by
  have hex : ∃ d, (m (s + d) == 0 || m (s + d) == c) = true :=
    ⟨len, by rw [h.end_zero, beq_self_eq_true, Bool.true_or]⟩
  refine ⟨Nat.find hex, Nat.find_min' hex (by rw [h.end_zero, beq_self_eq_true, Bool.true_or]),
    Nat.find_spec hex, fun i hi => ?_⟩
  exact Bool.eq_false_iff.mpr (Nat.find_min hex hi)

theorem StringAt.isFirst (h : StringAt m s len) (hc : c ≠ 0) {d : ℕ} (hd : d ≤ len)
    (hstop : (m (s + d) == 0 || m (s + d) == c) = true)
    (hbefore : ∀ i < d, (m (s + i) == 0 || m (s + i) == c) = false) :
    IsFirst (view m s) len (fun _ => c) 1 (if m (s + d) = c then some d else none) := by
  have hne : ∀ i < d, ¬ OccursAt (view m s) (fun _ => c) 1 i := by
    intro i hi hocc
    have := hbefore i hi
    rw [occursAt_one.mp hocc, beq_self_eq_true, Bool.or_true] at this
    cases this
  split_ifs with heq
  · -- the end of the string is not the character
    have hlt : d < len := by
      rcases hd.eq_or_lt with rfl | hlt
      · exact absurd (heq.symm.trans h.end_zero) hc
      · exact hlt
    exact ⟨hlt, occursAt_one.mpr heq, hne⟩
  · -- the scan has come to the end
    have hzero : m (s + d) = 0 := by
      rcases Bool.or_eq_true_iff.mp hstop with hz | hz
      · exact eq_of_beq hz
      · exact absurd (eq_of_beq hz) heq
    have hlen : d = len := by
      by_contra hlt
      exact h.ne_zero d (by omega) hzero
    intro q hq
    exact hne q (by omega)

/-- **`wcschr`** finds the first occurrence of a character in a string. -/
theorem wcschr_isFirst (h : StringAt m s len) (hc : c ≠ 0) {fuel : ℕ} (hfuel : len < fuel) :
    ∃ r, wcschr m fuel s c = some (r.map (s + ·)) ∧ IsFirst (view m s) len (fun _ => c) 1 r := by
  obtain ⟨d, hd, hstop, hbefore⟩ := h.exists_stop c
  refine ⟨_, ?_, h.isFirst hc hd hstop hbefore⟩
  rw [wcschr, if_neg hc, scanTo_one hstop hbefore (by omega), some_bind]
  by_cases heq : m (s + d) = c
  · rw [if_pos heq, if_pos (heq.trans_ne hc), Option.map_some]
  · have hzero : m (s + d) = 0 := by
      rcases Bool.or_eq_true_iff.mp hstop with hz | hz
      · exact eq_of_beq hz
      · exact absurd (eq_of_beq hz) heq
    rw [if_neg heq, if_neg (not_not.mpr hzero), Option.map_none]

end Strings

/-- **`strchr`** finds the first occurrence of a character in a string. -/
theorem strchr_isFirst {a : Arch} {m : ℕ → UInt8} {s len fuel : ℕ} {c : UInt8}
    (h : StringAt m s len) (hc : c ≠ 0) (hfuel : len < fuel) :
    ∃ r, strchr a m fuel s c = some (r.map (s + ·)) ∧ IsFirst (view m s) len (fun _ => c) 1 r := by
  obtain ⟨d, hd, hstop, hbefore⟩ := h.exists_stop c
  refine ⟨_, ?_, h.isFirst hc hd hstop hbefore⟩
  have hword : ∀ w, (∃ i < a.ptrSize, (m (w + i) == 0 || m (w + i) == c) = true) →
      (hasZero a (loadWord a m w) != 0 ||
        hasZero a (loadWord a m w ^^^ a.wrap (ones a * c.toNat)) != 0) = true := by
    rintro w ⟨i, hi, hz⟩
    rcases Bool.or_eq_true_iff.mp hz with hz | hz
    · rw [bne_iff_ne.mpr (hasZero_loadWord a ⟨i, hi, eq_of_beq hz⟩), Bool.true_or]
    · rw [bne_iff_ne.mpr (hasZero_loadWord_xor a ⟨i, hi, eq_of_beq hz⟩), Bool.or_true]
  rw [strchr, strchrnul, if_neg hc, strScan_eq hword hstop hbefore (by omega), some_bind]
  split <;> rfl

/-! ## Scans with a bound -/

section Bounded

variable {β : Type} [DecidableEq β] {m : ℕ → β} {c : β}

theorem chrLoop_spec (go : ℕ → Bool) (m : ℕ → β) (c : β) (n s : ℕ) :
    ∃ d ≤ n, chrLoop go m c n s = (s + d, n - d) ∧ (∀ i < d, m (s + i) ≠ c) ∧
      (d < n → go (s + d) = true → m (s + d) = c) := by
  induction n generalizing s with
  | zero =>
    refine ⟨0, le_refl _, rfl, fun i hi => absurd hi (Nat.not_lt_zero i), ?_⟩
    intro h
    exact absurd h (Nat.lt_irrefl 0)
  | succ n ih =>
    by_cases hgo : (go s && decide (m s ≠ c)) = true
    · obtain ⟨d, hle, heq, hne, hstop⟩ := ih (s + 1)
      have hs : m s ≠ c := by
        rw [Bool.and_eq_true_iff] at hgo
        exact of_decide_eq_true hgo.2
      have hnext : ∀ i, s + 1 + i = s + (i + 1) := fun i => by omega
      refine ⟨d + 1, by omega, ?_, ?_, ?_⟩
      · rw [chrLoop, if_pos hgo, heq, hnext, Nat.add_sub_add_right]
      · intro i hi
        rcases i with - | i
        · exact hs
        · rw [← hnext]
          exact hne i (by omega)
      · intro hd
        rw [← hnext]
        exact hstop (by omega)
    · refine ⟨0, Nat.zero_le _, ?_, fun i hi => absurd hi (Nat.not_lt_zero i), fun _ hg => ?_⟩
      · rw [chrLoop, if_neg hgo]
        rfl
      · by_contra hne
        rw [add_zero] at hg hne
        exact hgo (by rw [hg, decide_eq_true hne]; rfl)

/-- What a scan that has passed `d` characters finds in the rest. -/
theorem chrLoop_isFirst {s n d : ℕ} (hd : d ≤ n) (hne : ∀ i < d, m (s + i) ≠ c) :
    ∃ r, (if (chrLoop (fun _ => true) m c (n - d) (s + d)).2 ≠ 0 then
        some (chrLoop (fun _ => true) m c (n - d) (s + d)).1 else none) = Option.map (s + ·) r ∧
      IsFirst (view m s) n (fun _ => c) 1 r := by
  obtain ⟨e, he, heq, hne', hstop⟩ := chrLoop_spec (fun _ => true) m c (n - d) (s + d)
  rw [heq]
  have hbefore : ∀ i < d + e, ¬ OccursAt (view m s) (fun _ => c) 1 i := by
    intro i hi hocc
    rcases Nat.lt_or_ge i d with hlt | hge
    · exact hne i hlt (occursAt_one.mp hocc)
    · apply hne' (i - d) (by omega)
      have hidx : s + d + (i - d) = s + i := by omega
      rw [hidx]
      exact occursAt_one.mp hocc
  by_cases hn : n - d - e = 0
  · refine ⟨none, if_neg (not_not.mpr hn), fun q hq => hbefore q (by omega)⟩
  · refine ⟨some (d + e), ?_, by omega, occursAt_one.mpr ?_, hbefore⟩
    · rw [if_pos hn, Option.map_some, add_assoc]
    · rw [← add_assoc]
      exact hstop (by omega) rfl

/-- **`wmemchr`** finds the first occurrence of a character in an array. -/
theorem wmemchr_isFirst (m : ℕ → β) (s : ℕ) (c : β) (n : ℕ) :
    ∃ r, wmemchr m s c n = r.map (s + ·) ∧ IsFirst (view m s) n (fun _ => c) 1 r :=
  chrLoop_isFirst (Nat.zero_le n) fun i hi => absurd hi (Nat.not_lt_zero i)

end Bounded

/-- The words that are passed over do not hold the byte. -/
theorem chrWords_spec (m : ℕ → UInt8) (c : UInt8) (fuel s n : ℕ) :
    ∃ d ≤ n, chrWords a m (a.wrap (ones a * c.toNat)) fuel s n = (s + d, n - d) ∧
      ∀ i < d, m (s + i) ≠ c := by
  induction fuel generalizing s n with
  | zero => exact ⟨0, Nat.zero_le _, rfl, fun i hi => absurd hi (Nat.not_lt_zero i)⟩
  | succ fuel ih =>
    by_cases hgo : a.ptrSize ≤ n ∧ hasZero a (loadWord a m s ^^^ a.wrap (ones a * c.toNat)) = 0
    · obtain ⟨d, hle, heq, hne⟩ := ih (s + a.ptrSize) (n - a.ptrSize)
      refine ⟨a.ptrSize + d, by omega, ?_, fun i hi heq' => ?_⟩
      · rw [chrWords, if_pos hgo, heq, add_assoc, Nat.sub_sub]
      · rcases Nat.lt_or_ge i a.ptrSize with hlt | hge
        · exact hasZero_loadWord_xor a ⟨i, hlt, heq'⟩ hgo.2
        · apply hne (i - a.ptrSize) (by omega)
          have hidx : s + a.ptrSize + (i - a.ptrSize) = s + i := by omega
          rw [hidx]
          exact heq'
    · refine ⟨0, Nat.zero_le _, ?_, fun i hi => absurd hi (Nat.not_lt_zero i)⟩
      rw [chrWords, if_neg hgo]
      rfl

/-- **`memchr`** finds the first occurrence of a byte in an array. -/
theorem memchr_isFirst (m : ℕ → UInt8) (s : ℕ) (c : UInt8) (n : ℕ) :
    ∃ r, memchr a m s c n = r.map (s + ·) ∧ IsFirst (view m s) n (fun _ => c) 1 r := by
  obtain ⟨d, hd, heq, hne, -⟩ := chrLoop_spec (fun s => s &&& (a.ptrSize - 1) != 0) m c n s
  unfold memchr
  rw [heq]
  by_cases hw : n - d ≠ 0 ∧ m (s + d) ≠ c
  · obtain ⟨e, he, heq', hne'⟩ := chrWords_spec a m c (n - d) (s + d) (n - d)
    simp only [if_pos hw, heq', Nat.sub_sub, add_assoc]
    apply chrLoop_isFirst (by omega)
    intro i hi
    rcases Nat.lt_or_ge i d with hlt | hge
    · exact hne i hlt
    · have hidx : s + i = s + d + (i - d) := by omega
      rw [hidx]
      exact hne' (i - d) (by omega)
  · simp only [if_neg hw]
    exact chrLoop_isFirst hd hne

end Leblibc.Str
