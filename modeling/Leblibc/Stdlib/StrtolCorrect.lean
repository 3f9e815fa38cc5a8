import Leblibc.Stdlib.Strtol

/-!
# Numbers from strings: correctness

A numeral is some space, a sign, and digits, which a prefix may precede that tells their base. A call finds the
longest prefix of the string that is a numeral: its value is the number that this numeral denotes, brought into the
range of the type, and `*endptr` points behind it.

The proof follows `__intscan`. Each of its loops takes a run of bytes from the front of what is left of the string;
the loops that accumulate take the digits with their exact value, up to the first digit with which the value is not
an `unsigned long long`.

## Main results

* `scanLoop_cur`: a loop on the string is a loop on the list of bytes that are left
* `accumulate_eq`, `discard_eq`: the digits and their value
* `strto_converts`: the functions return the number that the longest numeral denotes
-/

namespace Leblibc.Strtol

open List Option

/-! ## Numerals -/

/-- The number that digits denote behind the number `n`. -/
def valueFrom (b n : ℕ) (ds : List UInt8) : ℕ := ds.foldl (fun n c => b * n + val c) n

/-- The number that digits denote. -/
def value (b : ℕ) (ds : List UInt8) : ℕ := valueFrom b 0 ds

/-- The digits of a numeral and what precedes them, for a base that a call may have. -/
inductive Body : ℕ → List UInt8 → ℕ → Prop
  | digits {b : ℕ} {ds : List UInt8} (hb : b ≠ 0) (hne : ds ≠ []) (hds : ∀ c ∈ ds, val c < b) :
    Body b ds (value b ds)
  | hex {b : ℕ} {x : UInt8} {ds : List UInt8} (hb : b = 0 ∨ b = 16) (hx : x = 120 ∨ x = 88) (hne : ds ≠ [])
    (hds : ∀ c ∈ ds, val c < 16) : Body b (48 :: x :: ds) (value 16 ds)
  | octal {ds : List UInt8} (hds : ∀ c ∈ ds, val c < 8) : Body 0 (48 :: ds) (value 8 ds)
  | decimal {c : UInt8} {ds : List UInt8} (hc : c ≠ 48) (hds : ∀ d ∈ c :: ds, val d < 10) :
    Body 0 (c :: ds) (value 10 (c :: ds))

/-- The signs, and whether they negate. -/
inductive Sign : List UInt8 → Bool → Prop
  | none : Sign [] false
  | plus : Sign [43] false
  | minus : Sign [45] true

/-- A text that denotes the number `m`, or its opposite. -/
def Numeral (base : ℕ) (w : List UInt8) (neg : Bool) (m : ℕ) : Prop :=
  ∃ ws sg body, w = ws ++ (sg ++ body) ∧ (∀ c ∈ ws, isspace c = true) ∧ Sign sg neg ∧ Body base body m

/-- **The longest numeral** at the front of a string: every other one is shorter. -/
def Longest (base : ℕ) (s w : List UInt8) (neg : Bool) (m : ℕ) : Prop :=
  w <+: s ∧ Numeral base w neg m ∧
    ∀ w' neg' m', w' <+: s → Numeral base w' neg' m' → w'.length < w.length ∨ (w' = w ∧ neg' = neg ∧ m' = m)

/-- The types of results, with their numbers of bits. -/
inductive Target where
  | signed (k : ℕ)
  | unsigned (k : ℕ)

namespace Target

/-- The number that a numeral denotes. -/
def number (neg : Bool) (m : ℕ) : ℤ := if neg then -m else m

/-- Whether a number is in the range of the type. For an unsigned type this is a question of the magnitude. -/
def InRange (neg : Bool) (m : ℕ) : Target → Prop
  | signed k => -2 ^ (k - 1) ≤ number neg m ∧ number neg m < 2 ^ (k - 1)
  | unsigned k => m < 2 ^ k

instance instDecidableInRange (neg : Bool) (m : ℕ) : (t : Target) → Decidable (t.InRange neg m)
  | signed k => inferInstanceAs (Decidable (-2 ^ (k - 1) ≤ number neg m ∧ number neg m < 2 ^ (k - 1)))
  | unsigned k => inferInstanceAs (Decidable (m < 2 ^ k))

/-- The result for a number: clamped to the range, and for an unsigned type negated by wrapping around. -/
def result (neg : Bool) (m : ℕ) : Target → ℤ
  | signed k => max (-2 ^ (k - 1)) (min (number neg m) (2 ^ (k - 1) - 1))
  | unsigned k => if m < 2 ^ k then number neg m % 2 ^ k else 2 ^ k - 1

end Target

/-- **What a call has to return**: the number that the longest numeral denotes, the place behind it, and `ERANGE` if
the number is out of range; without a numeral zero and the start of the string. -/
def Converts (t : Target) (base : ℕ) (s : List UInt8) (r : Option Ret) : Prop :=
  (∃ w neg m, Longest base s w neg m ∧
    r = some ⟨t.result neg m, w.length, if t.InRange neg m then none else some .ERANGE⟩) ∨
  ((∀ w neg m, w <+: s → ¬Numeral base w neg m) ∧ r = some ⟨0, 0, some .EINVAL⟩)

/-! ## Loops -/

/-- What has been read when the bytes `r` are left, of which the first is in `c`. -/
def cur (s r : List UInt8) : UInt8 × Scan := (byte r 0, ⟨s.length - r.length + 1, 0, 0⟩)

theorem byte_cons (c : UInt8) (r : List UInt8) : byte (c :: r) 0 = c := rfl

theorem byte_nil : byte [] 0 = 0 := rfl

variable {s r : List UInt8} {c : UInt8} {b : ℕ} {x : UInt8} {m y base : ℕ} {t body : List UInt8} {lim : ℕ}
  {neg : Bool} {k : ℕ}

/-- A byte at the front of a suffix, in the whole string. -/
theorem byte_of_suffix (h : r <:+ s) : byte s (s.length - r.length) = byte r 0 := by
  obtain ⟨t, rfl⟩ := h
  rw [length_append, Nat.add_sub_cancel, byte, byte, append_assoc]
  simp

theorem shgetc_cur (h : c :: r <:+ s) : shgetc s (cur s (c :: r)).2 = some (cur s r) := by
  have hle := h.length_le
  rw [length_cons] at hle
  have hpos : s.length - (c :: r).length + 1 = s.length - r.length := by
    rw [length_cons]
    omega
  rw [shgetc, cur, cur]
  simp only [hpos]
  rw [if_pos (by omega), byte_of_suffix ((suffix_cons c r).trans h)]

/-- The loop on the bytes that are left. -/
def consume (step : ℕ → UInt8 → Option ℕ) : ℕ → List UInt8 → ℕ × List UInt8
  | y, [] => (y, [])
  | y, c :: r =>
    match step y c with
    | none => (y, c :: r)
    | some y' => consume step y' r

theorem consume_suffix (step : ℕ → UInt8 → Option ℕ) : ∀ (r : List UInt8) (y : ℕ), (consume step y r).2 <:+ r
  | [], _ => suffix_refl _
  | c :: r, y => by
    rw [consume]
    split
    · exact suffix_refl _
    · exact (consume_suffix step r _).trans (suffix_cons c r)

/-- **A loop on the string** is the loop on the bytes that are left. -/
theorem scanLoop_cur (step : ℕ → UInt8 → Option ℕ) (hnul : ∀ y, step y 0 = none) :
    ∀ (fuel : ℕ) (r : List UInt8) (y : ℕ), r <:+ s → r.length < fuel →
      scanLoop s step fuel y (cur s r).1 (cur s r).2 =
        some ((consume step y r).1, cur s (consume step y r).2) := by
  intro fuel
  induction fuel with
  | zero => exact fun r y _ h => absurd h (Nat.not_lt_zero _)
  | succ fuel ih =>
    intro r y hr hlen
    cases r with
    | nil =>
      -- the NUL ends every loop
      rw [scanLoop, show (cur s []).1 = 0 from rfl, hnul]
      rfl
    | cons c r =>
      rw [scanLoop, consume, show (cur s (c :: r)).1 = c from rfl]
      cases hstep : step y c with
      | none => rfl
      | some y' =>
        rw [length_cons] at hlen
        simp only
        rw [shgetc_cur hr, bind_some]
        exact ih r y' ((suffix_cons c r).trans hr) (by omega)

theorem consume_skip (p : UInt8 → Bool) (y : ℕ) : ∀ r : List UInt8,
    consume (fun y c => if p c then some y else none) y r = (y, r.dropWhile p)
  | [] => rfl
  | c :: r => by
    rw [consume, dropWhile_cons]
    cases hc : p c with
    | true => simpa using consume_skip p y r
    | false => simp

/-- A loop that takes digits takes some of those at the front, with their value, and leaves the rest where the next
byte is not taken. -/
theorem consume_digits {step : ℕ → UInt8 → Option ℕ}
    (hstep : ∀ y c y', step y c = some y' → val c < b ∧ y' = b * y + val c ∧ y' < 2 ^ 64) :
    ∀ (r : List UInt8) (y : ℕ), y < 2 ^ 64 → ∃ ds, r = ds ++ (consume step y r).2 ∧ (∀ c ∈ ds, val c < b) ∧
      (consume step y r).1 = valueFrom b y ds ∧ (consume step y r).1 < 2 ^ 64 ∧
      ∀ c t, (consume step y r).2 = c :: t → step (consume step y r).1 c = none
  | [], y, hy => ⟨[], rfl, by simp, rfl, hy, by simp [consume]⟩
  | c :: r, y, hy => by
    rw [consume]
    cases hs : step y c with
    | none =>
      refine ⟨[], rfl, by simp, rfl, hy, ?_⟩
      rintro c' t ⟨⟩
      exact hs
    | some y' =>
      obtain ⟨hc, rfl, hy'⟩ := hstep y c y' hs
      obtain ⟨ds, hr, hds, hval, hlt, hstop⟩ := consume_digits hstep r (b * y + val c) hy'
      refine ⟨c :: ds, ?_, ?_, hval, hlt, hstop⟩
      · rw [cons_append]
        exact congrArg (c :: ·) hr
      · intro d hd
        rcases List.mem_cons.mp hd with rfl | hd
        · exact hc
        · exact hds d hd

/-! ## Digits -/

theorem dec_lt_iff (c : UInt8) : dec c < 10 ↔ val c < 10 := by
  have hc := c.toNat_lt
  unfold dec val
  split_ifs <;> omega

theorem dec_eq_val (h : dec c < 10) : dec c = val c := by
  have hc := c.toNat_lt
  unfold dec val at *
  split_ifs <;> omega

theorem val_zero : val 0 = 255 := rfl

/-- The bases that are powers of two, with their shifts. -/
theorem pow_two_cases (h2 : 2 ≤ b) (h36 : b ≤ 36) (hb : b &&& (b - 1) = 0) :
    b = 2 ^ bs b ∧ (b = 2 ∨ b = 4 ∨ b = 8 ∨ b = 16 ∨ b = 32) := by
  revert hb
  interval_cases b <;> decide

theorem shift_or {v : ℕ} (hb : b = 2 ^ bs b) (hv : v < b) (y : ℕ) : y <<< bs b ||| v = b * y + v := by
  rw [← Nat.shiftLeft_add_eq_or_of_lt (by rwa [hb] at hv), Nat.shiftLeft_eq, ← hb, Nat.mul_comm]

/-- **A step in `unsigned`** takes a digit with its exact value. -/
theorem stepX_some (h2 : 2 ≤ b) (h36 : b ≤ 36) {x : ℕ} {x' : ℕ} (h : stepX b x c = some x') :
    val c < b ∧ x' = b * x + val c ∧ x' < 2 ^ 64 := by
  unfold stepX at h
  split_ifs at h with h10 hg hp hg hg
  · obtain rfl := h10
    have hval := dec_eq_val hg.1
    have hx : x ≤ (2 ^ 32 - 1) / 10 - 1 := hg.2
    rw [hval, some.injEq, Nat.mod_eq_of_lt (by omega)] at h
    omega
  · obtain ⟨hpow, hcases⟩ := pow_two_cases h2 h36 hp
    have hx : x ≤ (2 ^ 32 - 1) / 32 := hg.2
    have hlt : b * x + val c < 2 ^ 32 := by rcases hcases with rfl | rfl | rfl | rfl | rfl <;> omega
    rw [shift_or hpow hg.1, some.injEq, Nat.mod_eq_of_lt hlt] at h
    exact ⟨hg.1, h.symm, by omega⟩
  · have hx : x ≤ (2 ^ 32 - 1) / 36 - 1 := hg.2
    have hle : x * b ≤ x * 36 := Nat.mul_le_mul_left x h36
    rw [some.injEq, Nat.mod_eq_of_lt (by omega)] at h
    exact ⟨hg.1, by rw [← h, Nat.mul_comm], by omega⟩

/-- The test for overflow, without the overflow that the test itself might have. -/
theorem guard_iff {v : ℕ} (h2 : 2 ≤ b) (h36 : b ≤ 36) (hv : v < b) (y : ℕ) :
    (y ≤ ULLONG_MAX / b ∧ b * y % 2 ^ 64 ≤ ULLONG_MAX - v) ↔ b * y + v < 2 ^ 64 := by
  rw [Nat.le_div_iff_mul_le (by omega), Nat.mul_comm y b]
  unfold ULLONG_MAX
  omega

/-- A conditional step, by its condition and by its value where the condition holds. -/
theorem ite_some_congr {P Q : Prop} [Decidable P] [Decidable Q] {n : ℕ} (h : P ↔ Q) (hmn : Q → m = n) :
    (if P then some m else none) = if Q then some n else none := by
  by_cases hq : Q
  · rw [if_pos (h.mpr hq), if_pos hq, hmn hq]
  · rw [if_neg (mt h.mp hq), if_neg hq]

/-- **A step in `unsigned long long`** takes a digit if the value is one of the type. -/
theorem stepY_eq (h2 : 2 ≤ b) (h36 : b ≤ 36) (y : ℕ) (c : UInt8) :
    stepY b y c = if val c < b ∧ b * y + val c < 2 ^ 64 then some (b * y + val c) else none := by
  unfold stepY
  by_cases h10 : b = 10
  · obtain rfl := h10
    rw [if_pos rfl]
    apply ite_some_congr
    · rw [dec_lt_iff]
      apply and_congr_right
      intro hc
      rw [dec_eq_val ((dec_lt_iff c).mpr hc)]
      exact guard_iff h2 h36 hc y
    · intro h
      rw [dec_eq_val ((dec_lt_iff c).mpr h.1), Nat.mul_comm, Nat.mod_eq_of_lt h.2]
  · rw [if_neg h10]
    by_cases hp : b &&& (b - 1) = 0
    · obtain ⟨hpow, hcases⟩ := pow_two_cases h2 h36 hp
      rw [if_pos hp]
      apply ite_some_congr
      · apply and_congr_right
        intro hc
        rw [Nat.shiftRight_eq_div_pow, ← hpow]
        unfold ULLONG_MAX
        rcases hcases with rfl | rfl | rfl | rfl | rfl <;> omega
      · intro h
        rw [shift_or hpow h.1, Nat.mod_eq_of_lt h.2]
    · rw [if_neg hp]
      apply ite_some_congr
      · exact and_congr_right fun hc => guard_iff h2 h36 hc y
      · intro h
        rw [Nat.mul_comm y b, Nat.mod_eq_of_lt h.2]

theorem stepY_some (h2 : 2 ≤ b) (h36 : b ≤ 36) {y' : ℕ} (h : stepY b y c = some y') :
    val c < b ∧ y' = b * y + val c ∧ y' < 2 ^ 64 := by
  rw [stepY_eq h2 h36, ite_none_right_eq_some] at h
  obtain ⟨⟨hc, hlt⟩, h⟩ := h
  obtain rfl := some.inj h
  exact ⟨hc, rfl, hlt⟩

theorem stepY_none (h2 : 2 ≤ b) (h36 : b ≤ 36) (h : stepY b y c = none) (hc : val c < b) : 2 ^ 64 ≤ b * y + val c := by
  by_contra hlt
  rw [stepY_eq h2 h36, if_pos ⟨hc, not_le.mp hlt⟩] at h
  cases h

theorem stepY_nul (h2 : 2 ≤ b) (h36 : b ≤ 36) (y : ℕ) : stepY b y 0 = none := by
  rw [stepY_eq h2 h36, val_zero, if_neg (by omega)]

theorem stepX_nul (h36 : b ≤ 36) (x : ℕ) : stepX b x 0 = none := by
  have hval : ¬val 0 < b := by
    rw [val_zero]
    omega
  have hdec : ¬dec 0 < 10 := by decide
  simp [stepX, hval, hdec]

/-- The value of digits with one more number before them is at least that number. -/
theorem le_valueFrom (hb : b ≠ 0) : ∀ (n : ℕ) (ds : List UInt8), n ≤ valueFrom b n ds
  | _, [] => le_rfl
  | n, c :: ds =>
    calc n ≤ b * n + val c := Nat.le_add_right_of_le (Nat.le_mul_of_pos_left n (Nat.pos_of_ne_zero hb))
      _ ≤ valueFrom b (b * n + val c) ds := le_valueFrom hb _ ds

theorem valueFrom_append (b n : ℕ) (ds ds' : List UInt8) :
    valueFrom b n (ds ++ ds') = valueFrom b (valueFrom b n ds) ds' := foldl_append

/-- The digits at the front of the bytes that are left. -/
def front (b : ℕ) (r : List UInt8) : List UInt8 := r.takeWhile fun c => val c < b

/-- The bytes behind these digits. -/
def rest (b : ℕ) (r : List UInt8) : List UInt8 := r.dropWhile fun c => val c < b

section Front

variable {b : ℕ} {c : UInt8} {ds t : List UInt8}

theorem front_append_rest (r : List UInt8) : front b r ++ rest b r = r := takeWhile_append_dropWhile

theorem rest_suffix (r : List UInt8) : rest b r <:+ r := dropWhile_suffix _

theorem val_lt_of_mem_front (h : c ∈ front b r) : val c < b := by
  simpa using mem_takeWhile_imp h

theorem front_cons (h : val c < b) : front b (c :: t) = c :: front b t :=
  takeWhile_cons_of_pos (by simpa using h)

theorem rest_cons (h : val c < b) : rest b (c :: t) = rest b t := dropWhile_cons_of_pos (by simpa using h)

theorem front_stop (h : ¬val c < b) : front b (c :: t) = [] := takeWhile_cons_of_neg (by simpa using h)

theorem rest_stop (h : ¬val c < b) : rest b (c :: t) = c :: t := dropWhile_cons_of_neg (by simpa using h)

theorem front_append (h : ∀ c ∈ ds, val c < b) : front b (ds ++ t) = ds ++ front b t :=
  takeWhile_append_of_pos fun c hc => decide_eq_true (h c hc)

theorem rest_append (h : ∀ c ∈ ds, val c < b) : rest b (ds ++ t) = rest b t :=
  dropWhile_append_of_pos fun c hc => decide_eq_true (h c hc)

end Front

/-- **The two loops over digits** take all of them if their value is an `unsigned long long`; otherwise they stop at
one of them. -/
theorem accumulate_eq (hr : r <:+ s) (h2 : 2 ≤ b) (h36 : b ≤ 36) :
    ∃ y r', accumulate s b (cur s r).1 (cur s r).2 = some (y, cur s r') ∧ r' <:+ r ∧ rest b r' = rest b r ∧
      ((value b (front b r) < 2 ^ 64 ∧ y = value b (front b r) ∧ r' = rest b r) ∨
        (2 ^ 64 ≤ value b (front b r) ∧ ∃ c t, r' = c :: t ∧ val c < b)) := by
  obtain ⟨ds1, hr1, hds1, hval1, hlt1, -⟩ :=
    consume_digits (fun x c x' => stepX_some h2 h36) r 0 (by positivity)
  have hsX := consume_suffix (stepX b) r 0
  have hloopX := scanLoop_cur (stepX b) (stepX_nul h36) (s.length + 1) r 0 hr (Nat.lt_succ_of_le hr.length_le)
  generalize consume (stepX b) 0 r = q at *
  obtain ⟨ds2, hr2, hds2, hval2, hlt2, hstop⟩ :=
    consume_digits (fun y c y' => stepY_some h2 h36) q.2 q.1 hlt1
  have hsY := consume_suffix (stepY b) q.2 q.1
  have hloopY := scanLoop_cur (stepY b) (stepY_nul h2 h36) (s.length + 1) q.2 q.1 (hsX.trans hr)
    (Nat.lt_succ_of_le (hsX.trans hr).length_le)
  generalize consume (stepY b) q.1 q.2 = q' at *
  have hrest : rest b r = rest b q'.2 := by rw [hr1, rest_append hds1, hr2, rest_append hds2]
  have hvalue : value b (front b r) = valueFrom b q'.1 (front b q'.2) := by
    rw [hr1, front_append hds1, hr2, front_append hds2, value, valueFrom_append, ← hval1, valueFrom_append, ← hval2]
  refine ⟨q'.1, q'.2, ?_, hsY.trans hsX, hrest.symm, ?_⟩
  · rw [accumulate, hloopX, bind_some]
    exact hloopY
  -- either no digit is left, or one that does not fit
  rw [hvalue, hrest]
  rcases hq : q'.2 with _ | ⟨c, t⟩
  · exact .inl ⟨hlt2, rfl, rfl⟩
  · by_cases hc : val c < b
    · have hbig := stepY_none h2 h36 (hstop c t hq) hc
      rw [front_cons hc]
      exact .inr ⟨hbig.trans (le_valueFrom (by omega) _ _), c, t, rfl, hc⟩
    · rw [front_stop hc, rest_stop hc]
      exact .inl ⟨hlt2, rfl, rfl⟩

/-- What is found when the digits denote `m`. -/
def found (lim : ℕ) (neg : Bool) (m : ℕ) (f : Scan) : Found :=
  if m < 2 ^ 64 then ⟨m, neg, none, f⟩ else ⟨lim, if lim % 2 = 1 then false else neg, some .ERANGE, f⟩

/-- **All digits**: those that fit, and those that are discarded. -/
theorem discard_eq (hr : r <:+ s) (h2 : 2 ≤ b) (h36 : b ≤ 36) (neg : Bool) (lim : ℕ) :
    ((accumulate s b (cur s r).1 (cur s r).2).bind fun a => discard s b neg lim a.1 a.2.1 a.2.2) =
      some (found lim neg (value b (front b r)) (cur s (rest b r)).2) := by
  obtain ⟨y, r', hacc, hsuf, hrest, hcases⟩ := accumulate_eq hr h2 h36
  have hnul : ¬val 0 < b := by
    rw [val_zero]
    omega
  rw [hacc, bind_some, discard]
  rcases hcases with ⟨hfit, rfl, rfl⟩ | ⟨hbig, c, t, rfl, hc⟩
  · have hstop : ¬val (cur s (rest b r)).1 < b := by
      rcases hq : rest b r with _ | ⟨c, t⟩
      · exact hnul
      · intro hc
        rw [hq, rest_cons (show val c < b from hc)] at hrest
        have hle := (rest_suffix (b := b) t).length_le
        rw [hrest, length_cons] at hle
        omega
    rw [found, if_neg hstop, if_pos hfit, ite_self]
  · have hdec : ¬(b = 10 ∧ dec (cur s (c :: t)).1 ≥ 10) := by
      rintro ⟨rfl, hge⟩
      exact absurd ((dec_lt_iff c).mpr hc) (not_lt.mpr hge)
    have hloop := scanLoop_cur (fun y c => if val c < b then some y else none) (fun y => if_neg hnul)
      (s.length + 1) (c :: t) 0 (hsuf.trans hr) (Nat.lt_succ_of_le (hsuf.trans hr).length_le)
    have hskip := consume_skip (fun c => decide (val c < b)) 0 (c :: t)
    simp only [decide_eq_true_eq] at hskip
    rw [if_neg hdec, if_pos (show val (cur s (c :: t)).1 < b from hc), hloop, hskip, found,
      if_neg (not_lt.mpr hbig), ← hrest]
    rfl

/-! ## The parts before the digits -/

theorem skipSpace_eq (s : List UInt8) : skipSpace s (shlim ⟨0, 0, 0⟩ 0) = some (cur s (s.dropWhile isspace)) := by
  have hget : shgetc s (shlim ⟨0, 0, 0⟩ 0) = some (cur s s) := by
    simp [shgetc, shlim, cur]
  have hloop := scanLoop_cur (fun y c => if isspace c then some y else none) (fun y => rfl)
    (s.length + 1) s 0 (suffix_refl s) (Nat.lt_succ_self _)
  rw [skipSpace, hget, bind_some, hloop, consume_skip]
  rfl

/-- The sign at the front, and what is behind it. -/
def signOf : List UInt8 → List UInt8 × Bool × List UInt8
  | 43 :: r => ([43], false, r)
  | 45 :: r => ([45], true, r)
  | r => ([], false, r)

theorem signOf_append (r : List UInt8) : (signOf r).1 ++ (signOf r).2.2 = r := by
  fun_cases signOf r <;> rfl

theorem signOf_sign (r : List UInt8) : Sign (signOf r).1 (signOf r).2.1 := by
  fun_cases signOf r
  · exact .plus
  · exact .minus
  · exact .none

theorem sign_eq (hr : r <:+ s) :
    sign s (cur s r).1 (cur s r).2 = some ((signOf r).2.1, cur s (signOf r).2.2) := by
  unfold sign
  fun_cases signOf r with
  | case1 r => rw [if_pos (.inl rfl), shgetc_cur hr]; rfl
  | case2 r => rw [if_pos (.inr rfl), shgetc_cur hr]; rfl
  | case3 r h43 h45 =>
    rw [if_neg]
    rcases r with _ | ⟨c, t⟩
    · show ¬((0 : UInt8) = 43 ∨ (0 : UInt8) = 45)
      decide
    · rintro (rfl | rfl)
      · exact h43 t rfl
      · exact h45 t rfl

/-! ## The longest body -/

/-- The longest body of a numeral at the front of `r`, with what it denotes. -/
structure Reads (base : ℕ) (r body : List UInt8) (m : ℕ) : Prop where
  isPrefix : body <+: r
  isBody : Body base body m
  longest : ∀ body' m', body' <+: r → Body base body' m' → body'.length < body.length ∨ (body' = body ∧ m' = m)

theorem front_isPrefix (b : ℕ) (r : List UInt8) : front b r <+: r := ⟨_, front_append_rest r⟩

/-- Digits at the front are shorter than all of them, or are all of them. -/
theorem length_lt_or_eq_front {ds : List UInt8} (hr : ds <+: r) (hds : ∀ c ∈ ds, val c < b) :
    ds.length < (front b r).length ∨ ds = front b r := by
  obtain ⟨t, rfl⟩ := hr
  rw [front_append hds, length_append]
  rcases hf : front b t with _ | ⟨c, u⟩
  · exact .inr (append_nil ds).symm
  · exact .inl (by rw [length_cons]; omega)

/-- Zero does not change the value of the digits behind it. -/
theorem value_zero_cons (b : ℕ) (ds : List UInt8) : value b (48 :: ds) = value b ds := rfl

theorem or_eq_x_iff (x : UInt8) : x ||| 32 = 120 ↔ x = 120 ∨ x = 88 := by
  revert x
  decide +kernel

theorem val_x (hx : x = 120 ∨ x = 88) : val x = 33 := by
  rcases hx with rfl | rfl <;> rfl

/-- The digits at the front of `0x`, in a base without the digit `x`. -/
theorem front_zero_x (hb : b = 8 ∨ b = 16) (hx : x = 120 ∨ x = 88) (t : List UInt8) :
    front b (48 :: x :: t) = [48] := by
  have h48 : val 48 = 0 := rfl
  have hvx := val_x hx
  rw [front_cons (by omega), front_stop (by omega)]

/-- A body at the front of `0x`: with hexadecimal digits behind the `x`, or only the zero. -/
theorem body_zero_x (hb : base = 0 ∨ base = 16) (hx : x = 120 ∨ x = 88)
    (hp : body <+: 48 :: x :: t) (hbody : Body base body m) :
    (body = [48] ∧ m = 0) ∨
      ∃ ds, body = 48 :: x :: ds ∧ ds <+: t ∧ ds ≠ [] ∧ (∀ c ∈ ds, val c < 16) ∧ m = value 16 ds := by
  cases hbody with
  | digits hb0 hne hds =>
    obtain rfl : base = 16 := hb.resolve_left hb0
    rcases length_lt_or_eq_front hp hds with hlt | rfl
    · rw [front_zero_x (.inr rfl) hx] at hlt
      exact absurd (List.length_eq_zero_iff.mp (Nat.lt_one_iff.mp hlt)) hne
    · rw [front_zero_x (.inr rfl) hx]
      exact .inl ⟨rfl, rfl⟩
  | hex _ _ hne hds =>
    obtain ⟨u, hu⟩ := hp
    injection hu with _ hu
    injection hu with hx' hu
    exact .inr ⟨_, by rw [hx'], ⟨u, hu⟩, hne, hds, rfl⟩
  | octal hds =>
    have h48 : ∀ c ∈ (48 : UInt8) :: _, val c < 8 := List.forall_mem_cons.mpr ⟨by decide, hds⟩
    rcases length_lt_or_eq_front hp h48 with hlt | heq
    · rw [front_zero_x (.inl rfl) hx] at hlt
      simp at hlt
    · rw [front_zero_x (.inl rfl) hx] at heq
      injection heq with _ heq
      rw [heq]
      exact .inl ⟨rfl, rfl⟩
  | decimal hc hds =>
    obtain ⟨u, hu⟩ := hp
    injection hu with hc' _
    exact absurd hc' hc

theorem reads_hex (hb : base = 0 ∨ base = 16) (hx : x = 120 ∨ x = 88) (hc : val c < 16) (t : List UInt8) :
    Reads base (48 :: x :: c :: t) (48 :: x :: front 16 (c :: t)) (value 16 (front 16 (c :: t))) where
  isPrefix := (prefix_cons_inj _).mpr ((prefix_cons_inj _).mpr (front_isPrefix _ _))
  isBody := .hex hb hx (by rw [front_cons hc]; exact cons_ne_nil _ _) fun d hd => val_lt_of_mem_front hd
  longest := by
    intro body' m' hp hbody
    rcases body_zero_x hb hx hp hbody with ⟨rfl, -⟩ | ⟨ds, rfl, hds, -, hval, rfl⟩
    · exact .inl (by simp)
    · rcases length_lt_or_eq_front hds hval with hlt | rfl
      · exact .inl (by simpa using hlt)
      · exact .inr ⟨rfl, rfl⟩

theorem reads_zero_x (hb : base = 0 ∨ base = 16) (hx : x = 120 ∨ x = 88)
    (ht : ¬val (byte t 0) < 16) : Reads base (48 :: x :: t) [48] 0 where
  isPrefix := ⟨x :: t, rfl⟩
  isBody := by
    rcases hb with rfl | rfl
    · exact .octal (by simp)
    · exact .digits (by decide) (by simp) (by simp; decide)
  longest := by
    intro body' m' hp hbody
    rcases body_zero_x hb hx hp hbody with h | ⟨ds, rfl, ⟨u, rfl⟩, hne, hval, rfl⟩
    · exact .inr h
    · -- there is no hexadecimal digit
      obtain ⟨c, ds, rfl⟩ := exists_cons_of_ne_nil hne
      exact absurd (hval c mem_cons_self) ht

/-- A body at the front of a number without `0x`, in a given base. -/
theorem reads_digits (h0 : base ≠ 0) (hne : front base r ≠ [])
    (hx : base = 16 → ∀ x t, r = 48 :: x :: t → ¬(x = 120 ∨ x = 88)) :
    Reads base r (front base r) (value base (front base r)) where
  isPrefix := front_isPrefix _ _
  isBody := .digits h0 hne fun d hd => val_lt_of_mem_front hd
  longest := by
    intro body' m' hp hbody
    cases hbody with
    | digits _ _ hds =>
      rcases length_lt_or_eq_front hp hds with hlt | rfl
      · exact .inl hlt
      · exact .inr ⟨rfl, rfl⟩
    | hex hb hx' _ _ =>
      obtain ⟨u, rfl⟩ := hp
      exact absurd hx' (hx (hb.resolve_left h0) _ _ rfl)
    | octal _ => exact absurd rfl h0
    | decimal _ _ => exact absurd rfl h0

theorem reads_octal (hx : ∀ x u, t = x :: u → ¬(x = 120 ∨ x = 88)) :
    Reads 0 (48 :: t) (48 :: front 8 t) (value 8 (front 8 t)) where
  isPrefix := (prefix_cons_inj _).mpr (front_isPrefix _ _)
  isBody := .octal fun d hd => val_lt_of_mem_front hd
  longest := by
    intro body' m' hp hbody
    cases hbody with
    | digits h0 _ _ => exact absurd rfl h0
    | hex _ hx' _ _ =>
      obtain ⟨u, hu⟩ := hp
      injection hu with _ hu
      exact absurd hx' (hx _ _ hu.symm)
    | octal hds =>
      rcases length_lt_or_eq_front ((prefix_cons_inj _).mp hp) hds with hlt | rfl
      · exact .inl (by simpa using hlt)
      · exact .inr ⟨rfl, rfl⟩
    | decimal hc _ =>
      obtain ⟨u, hu⟩ := hp
      injection hu with hc' _
      exact absurd hc' hc

theorem reads_decimal (hc : c ≠ 48) (hval : val c < 10) (t : List UInt8) :
    Reads 0 (c :: t) (front 10 (c :: t)) (value 10 (front 10 (c :: t))) where
  isPrefix := front_isPrefix _ _
  isBody := by
    rw [front_cons hval]
    exact .decimal hc (List.forall_mem_cons.mpr ⟨hval, fun d hd => val_lt_of_mem_front hd⟩)
  longest := by
    intro body' m' hp hbody
    cases hbody with
    | digits h0 _ _ => exact absurd rfl h0
    | hex _ _ _ _ =>
      obtain ⟨u, hu⟩ := hp
      injection hu with hc' _
      exact absurd hc'.symm hc
    | octal _ =>
      obtain ⟨u, hu⟩ := hp
      injection hu with hc' _
      exact absurd hc'.symm hc
    | decimal _ hds =>
      rcases length_lt_or_eq_front hp hds with hlt | heq
      · exact .inl hlt
      · exact .inr ⟨heq, by rw [heq]⟩

theorem no_body (hzero : ¬((base = 0 ∨ base = 16) ∧ byte r 0 = 48))
    (hval : ¬val (byte r 0) < if base = 0 then 10 else base) (hp : body <+: r) :
    ¬Body base body m := by
  intro hbody
  obtain ⟨u, rfl⟩ := hp
  cases hbody with
  | digits h0 hne hds =>
    obtain ⟨c, ds, rfl⟩ := exists_cons_of_ne_nil hne
    rw [if_neg h0] at hval
    exact hval (hds c mem_cons_self)
  | hex hb _ _ _ => exact hzero ⟨hb, rfl⟩
  | octal _ => exact hzero ⟨.inl rfl, rfl⟩
  | decimal _ hds => exact hval (hds _ mem_cons_self)

/-! ## `__intscan` -/

/-- The number of bytes that have been read before those that are left. -/
theorem count_shunget_cur (hr : r <:+ s) : (shunget (cur s r).2).count = s.length - r.length := by
  have hle := hr.length_le
  show (0 : ℤ) + ((s.length - r.length + 1 - 1 : ℕ) : ℤ) = _
  omega

/-- What follows the choice of the base. -/
def afterRadix (s : List UInt8) (neg : Bool) (lim : ℕ) : Except Scanned (ℕ × UInt8 × Scan) → Option Scanned
  | .error q => some q
  | .ok b =>
    (accumulate s b.1 b.2.1 b.2.2).bind fun a => (discard s b.1 neg lim a.1 a.2.1 a.2.2).map (finish lim)

theorem afterRadix_ok (hr : r <:+ s) (h2 : 2 ≤ b) (h36 : b ≤ 36) (neg : Bool) (lim : ℕ) :
    afterRadix s neg lim (.ok (b, cur s r)) =
      some (finish lim (found lim neg (value b (front b r)) (cur s (rest b r)).2)) := by
  have h := congrArg (Option.map (finish lim)) (discard_eq hr h2 h36 neg lim)
  rwa [Option.map_bind, map_some] at h

section Radix

variable {s : List UInt8} {base : ℕ} {x : UInt8} {t : List UInt8}

/-- The base is told by `0x`, if a hexadecimal digit follows. -/
theorem radix_zero_x (hs : 48 :: x :: t <:+ s) (hb : base = 0 ∨ base = 16) (hx : x = 120 ∨ x = 88) :
    radix s base true (cur s (48 :: x :: t)).1 (cur s (48 :: x :: t)).2 =
      some (if val (byte t 0) ≥ 16 then .error ⟨0, none, shunget (shunget (cur s t).2)⟩ else .ok (16, cur s t)) := by
  have hs' : x :: t <:+ s := (suffix_cons _ _).trans hs
  have hx' : (cur s (x :: t)).1 ||| 32 = 120 := (or_eq_x_iff x).mpr hx
  rw [radix, if_pos ⟨hb, rfl⟩, shgetc_cur hs, bind_some, if_pos hx', shgetc_cur hs', map_some]
  rfl

/-- A zero without `x` tells the base 8, if any may be told. -/
theorem radix_zero (hs : 48 :: t <:+ s) (hb : base = 0 ∨ base = 16) (hx : ¬byte t 0 ||| 32 = 120) :
    radix s base true (cur s (48 :: t)).1 (cur s (48 :: t)).2 =
      some (.ok (if base = 0 then 8 else base, cur s t)) := by
  have hx' : ¬(cur s t).1 ||| 32 = 120 := hx
  rw [radix, if_pos ⟨hb, rfl⟩, shgetc_cur hs, bind_some, if_neg hx']
  split <;> rfl

/-- Without a zero the base is 10 if none is given, and there has to be a digit. -/
theorem radix_other (hzero : ¬((base = 0 ∨ base = 16) ∧ byte r 0 = 48)) :
    radix s base true (cur s r).1 (cur s r).2 =
      some (if val (byte r 0) ≥ if base = 0 then 10 else base then
          .error ⟨0, some .EINVAL, shlim (shunget (cur s r).2) 0⟩
        else .ok (if base = 0 then 10 else base, cur s r)) := by
  have hzero' : ¬((base = 0 ∨ base = 16) ∧ (cur s r).1 = 48) := hzero
  rw [radix, if_neg hzero']
  exact (apply_ite some _ _ _).symm

end Radix

theorem finish_found_zero (hlim : 0 < lim) (neg : Bool) (f : Scan) :
    finish lim (found lim neg 0 f) = ⟨0, none, shunget f⟩ := by
  rw [found, if_pos (by positivity), finish, if_neg (not_le.mpr hlim)]
  simp only [Scanned.mk.injEq, and_self, and_true]
  cases neg <;> simp [negate]

/-- **The number behind the sign**: the longest body, or none. -/
theorem radix_reads (hr : r <:+ s) (hb : base = 0 ∨ 2 ≤ base ∧ base ≤ 36) (neg : Bool) (hlim : 0 < lim) :
    (∃ body m f, Reads base r body m ∧ (shunget f).count = s.length - r.length + body.length ∧
      (radix s base true (cur s r).1 (cur s r).2).bind (afterRadix s neg lim) =
        some (finish lim (found lim neg m f))) ∨
    ((∀ body m, body <+: r → ¬Body base body m) ∧ ∃ f : Scan, f.count = 0 ∧
      (radix s base true (cur s r).1 (cur s r).2).bind (afterRadix s neg lim) = some ⟨0, some .EINVAL, f⟩) := by
  have hrest (b : ℕ) {t : List UInt8} (ht : t <:+ s) :
      (shunget (cur s (rest b t)).2).count = s.length - t.length + (front b t).length := by
    have hlen := congrArg List.length (front_append_rest (b := b) t)
    rw [length_append] at hlen
    rw [count_shunget_cur ((rest_suffix t).trans ht)]
    omega
  by_cases hzero : (base = 0 ∨ base = 16) ∧ byte r 0 = 48
  · obtain ⟨hbase, h48⟩ := hzero
    left
    obtain ⟨t, rfl⟩ : ∃ t, r = 48 :: t := by
      rcases r with _ | ⟨c, t⟩
      · cases h48
      · exact ⟨t, congrArg (· :: t) h48⟩
    have ht : t <:+ s := (suffix_cons _ _).trans hr
    by_cases hx : byte t 0 ||| 32 = 120
    · -- the prefix of a hexadecimal number, or a zero before an `x`
      obtain ⟨x, u, rfl⟩ : ∃ x u, t = x :: u := by
        rcases t with _ | ⟨x, u⟩
        · cases hx
        · exact ⟨x, u, rfl⟩
      have hx' := (or_eq_x_iff x).mp hx
      have hu : u <:+ s := (suffix_cons _ _).trans ht
      rw [radix_zero_x hr hbase hx', bind_some]
      by_cases hd : val (byte u 0) < 16
      · obtain ⟨c, v, rfl⟩ : ∃ c v, u = c :: v := by
          rcases u with _ | ⟨c, v⟩
          · exact absurd hd (by decide)
          · exact ⟨c, v, rfl⟩
        rw [byte_cons] at hd
        rw [byte_cons, if_neg (not_le.mpr hd), afterRadix_ok hu (by decide) (by decide)]
        refine ⟨_, _, _, reads_hex hbase hx' hd v, ?_, rfl⟩
        rw [hrest 16 hu]
        simp only [length_cons]
        omega
      · rw [if_pos (not_lt.mp hd)]
        refine ⟨_, _, shunget (cur s u).2, reads_zero_x hbase hx' hd, ?_, ?_⟩
        · have hle := ht.length_le
          rw [length_cons] at hle
          show (0 : ℤ) + ((s.length - u.length + 1 - 1 - 1 : ℕ) : ℤ) = _
          simp only [length_cons, length_nil]
          omega
        · rw [finish_found_zero hlim]
          rfl
    · have hx' : ∀ x u, t = x :: u → ¬(x = 120 ∨ x = 88) := by
        rintro x u rfl
        exact mt (or_eq_x_iff x).mpr hx
      rw [radix_zero hr hbase hx, bind_some]
      rcases hbase with rfl | rfl
      · rw [if_pos rfl, afterRadix_ok ht (by decide) (by decide)]
        refine ⟨_, _, _, reads_octal hx', ?_, rfl⟩
        rw [hrest 8 ht]
        simp only [length_cons]
        omega
      · rw [if_neg (by decide), afterRadix_ok ht (by decide) (by decide)]
        have hfront : front 16 (48 :: t) = 48 :: front 16 t := front_cons (by decide)
        have hreads : Reads 16 (48 :: t) (front 16 (48 :: t)) _ :=
          reads_digits (by decide) (by rw [hfront]; exact cons_ne_nil _ _) (by
            rintro - x u hu
            injection hu with _ hu
            exact hx' x u hu)
        rw [hfront, value_zero_cons] at hreads
        refine ⟨_, _, _, hreads, ?_, rfl⟩
        rw [hrest 16 ht]
        simp only [length_cons]
        omega
  · rw [radix_other hzero, bind_some]
    by_cases hval : val (byte r 0) < if base = 0 then 10 else base
    · left
      obtain ⟨c, t, rfl⟩ : ∃ c t, r = c :: t := by
        rcases r with _ | ⟨c, t⟩
        · rw [byte_nil, val_zero] at hval
          split at hval <;> omega
        · exact ⟨c, t, rfl⟩
      rw [byte_cons] at hval
      rw [byte_cons, if_neg (not_le.mpr hval)]
      by_cases h0 : base = 0
      · obtain rfl := h0
        rw [if_pos rfl] at hval ⊢
        rw [afterRadix_ok hr (by decide) (by decide)]
        exact ⟨_, _, _, reads_decimal (fun hc => hzero ⟨.inl rfl, hc⟩) hval t, hrest 10 hr, rfl⟩
      · obtain ⟨h2, h36⟩ := hb.resolve_left h0
        rw [if_neg h0] at hval ⊢
        rw [afterRadix_ok hr h2 h36]
        refine ⟨_, _, _, reads_digits h0 ?_ ?_, hrest base hr, rfl⟩
        · rw [front_cons hval]
          exact cons_ne_nil _ _
        · rintro h16 x u hu
          injection hu with hc _
          exact absurd ⟨.inr h16, hc⟩ hzero
    · right
      rw [if_pos (not_lt.mp hval)]
      refine ⟨fun body m hp => no_body hzero hval hp, _, ?_, rfl⟩
      show -(((shunget (cur s r).2).rpos : ℕ) : ℤ) + (shunget (cur s r).2).rpos = 0
      omega

/-! ## The parts of a numeral -/

theorem not_space_of_val (h : val c < 36) : isspace c = false ∧ c ≠ 43 ∧ c ≠ 45 := by
  revert c
  decide +kernel

theorem Body.cons (h : Body base body m) (hb : base ≤ 36) :
    ∃ c t, body = c :: t ∧ val c < 36 := by
  cases h with
  | digits _ hne hds =>
    obtain ⟨c, t, rfl⟩ := exists_cons_of_ne_nil hne
    exact ⟨c, t, rfl, (hds c mem_cons_self).trans_le hb⟩
  | hex _ _ _ _ => exact ⟨_, _, rfl, by decide⟩
  | octal _ => exact ⟨_, _, rfl, by decide⟩
  | decimal _ hds => exact ⟨_, _, rfl, (hds _ mem_cons_self).trans (by decide)⟩

theorem sign_not_space {sg : List UInt8} (h : Sign sg neg) (hc : val c < 36)
    (t : List UInt8) : ∃ d u, sg ++ c :: t = d :: u ∧ isspace d = false := by
  cases h with
  | none => exact ⟨c, t, rfl, (not_space_of_val hc).1⟩
  | plus => exact ⟨_, _, rfl, by decide⟩
  | minus => exact ⟨_, _, rfl, by decide⟩

theorem signOf_append_cons {sg : List UInt8} (h : Sign sg neg) (hc : val c < 36)
    (t : List UInt8) : signOf (sg ++ c :: t) = (sg, neg, c :: t) := by
  obtain ⟨-, h43, h45⟩ := not_space_of_val hc
  cases h with
  | none =>
    show signOf (c :: t) = _
    unfold signOf
    split
    · rename_i heq
      exact absurd (List.cons.inj heq).1 h43
    · rename_i heq
      exact absurd (List.cons.inj heq).1 h45
    · rfl
  | plus => rfl
  | minus => rfl

/-- **The parts of a numeral** at the front of a string are the ones that are found there. -/
theorem Numeral.parts (hb : base ≤ 36) {w : List UInt8} (hw : w <+: s) (h : Numeral base w neg m) :
    ∃ body, w = s.takeWhile isspace ++ ((signOf (s.dropWhile isspace)).1 ++ body) ∧
      neg = (signOf (s.dropWhile isspace)).2.1 ∧ body <+: (signOf (s.dropWhile isspace)).2.2 ∧ Body base body m := by
  obtain ⟨ws, sg, body, rfl, hws, hsg, hbody⟩ := h
  obtain ⟨u, rfl⟩ := hw
  obtain ⟨c, t, rfl, hc⟩ := hbody.cons hb
  obtain ⟨d, v, hd, hspace⟩ := sign_not_space hsg hc (t ++ u)
  have hs : ws ++ (sg ++ c :: t) ++ u = ws ++ (sg ++ c :: (t ++ u)) := by simp
  have htake : (ws ++ (sg ++ c :: (t ++ u))).takeWhile isspace = ws := by
    rw [takeWhile_append_of_pos hws, hd, takeWhile_cons_of_neg (by simp [hspace]), append_nil]
  have hdrop : (ws ++ (sg ++ c :: (t ++ u))).dropWhile isspace = sg ++ c :: (t ++ u) := by
    rw [dropWhile_append_of_pos hws, hd, dropWhile_cons_of_neg (by simp [hspace])]
  rw [hs, htake, hdrop, signOf_append_cons hsg hc]
  exact ⟨c :: t, rfl, rfl, ⟨u, rfl⟩, hbody⟩

theorem Reads.longest_numeral (hb : base ≤ 36) (h : Reads base (signOf (s.dropWhile isspace)).2.2 body m) :
    Longest base s (s.takeWhile isspace ++ ((signOf (s.dropWhile isspace)).1 ++ body))
      (signOf (s.dropWhile isspace)).2.1 m := by
  refine ⟨?_, ⟨_, _, body, rfl, fun c hc => mem_takeWhile_imp hc, signOf_sign _, h.isBody⟩, ?_⟩
  · obtain ⟨u, hu⟩ := h.isPrefix
    refine ⟨u, ?_⟩
    rw [append_assoc, append_assoc, hu, signOf_append, takeWhile_append_dropWhile]
  · intro w' neg' m' hw' hn'
    obtain ⟨body', rfl, rfl, hp, hbody'⟩ := hn'.parts hb hw'
    rcases h.longest body' m' hp hbody' with hlt | ⟨rfl, rfl⟩
    · refine .inl ?_
      simp only [length_append]
      omega
    · exact .inr ⟨rfl, rfl, rfl⟩

/-! ## Results -/

theorem negate_eq (hy : y < 2 ^ 64) (neg : Bool) : (negate y neg : ℤ) = Target.number neg y % 2 ^ 64 := by
  unfold negate Target.number
  cases neg with
  | false =>
    simp only [Bool.false_eq_true, if_false, Nat.xor_zero]
    omega
  | true =>
    have hxor : y ^^^ (2 ^ 64 - 1) = 2 ^ 64 - 1 - y := by
      have h := congrArg BitVec.toNat (BitVec.xor_allOnes (x := BitVec.ofNat 64 y))
      rwa [BitVec.toNat_xor, BitVec.toNat_not, BitVec.toNat_allOnes, BitVec.toNat_ofNat, Nat.mod_eq_of_lt hy] at h
    simp only [if_true, hxor]
    omega

/-- What follows `done`: a number in range, one above the range of a signed type, and any other one. -/
theorem finish_found (hlim : lim < 2 ^ 64) (neg : Bool) (m : ℕ) (f : Scan) :
    (finish lim (found lim neg m f)).value =
        (if m < lim ∨ m = lim ∧ (lim % 2 = 1 ∨ neg = true) then negate m neg
        else if lim % 2 = 0 ∧ neg = false then (lim + 2 ^ 64 - 1) % 2 ^ 64
        else if m < 2 ^ 64 then lim else negate lim (if lim % 2 = 1 then false else neg)) ∧
      (finish lim (found lim neg m f)).errno =
        if m < lim ∨ m = lim ∧ (lim % 2 = 1 ∨ neg = true) then none else some .ERANGE := by
  unfold found
  split
  · simp only [finish]
    grind
  · simp only [finish]
    grind

/-- A number of 64 bits as a signed number of `k` bits. -/
theorem bmod_eq_of_sub (hk : k = 32 ∨ k = 64) {y v : ℤ} (hmin : -2 ^ (k - 1) ≤ v) (hmax : v < 2 ^ (k - 1))
    (h : y = v ∨ y = v + 2 ^ 64 ∨ y = v + 2 ^ k) : y.bmod (2 ^ k) = v := by
  rcases hk with rfl | rfl
  · simp only [Nat.reduceSub, Int.reducePow, Nat.reducePow, Int.bmod_def] at *
    split <;> omega
  · simp only [Nat.reduceSub, Int.reducePow, Nat.reducePow, Int.bmod_def] at *
    split <;> omega

theorem finish_signed (hk : k = 32 ∨ k = 64) (neg : Bool) (m : ℕ) (f : Scan) :
    ((finish (2 ^ (k - 1)) (found (2 ^ (k - 1)) neg m f)).value : ℤ).bmod (2 ^ k) = (Target.signed k).result neg m ∧
      (finish (2 ^ (k - 1)) (found (2 ^ (k - 1)) neg m f)).errno =
        if (Target.signed k).InRange neg m then none else some .ERANGE := by
  have hlim : 2 ^ (k - 1) < 2 ^ 64 := by rcases hk with rfl | rfl <;> decide
  have heven : 2 ^ (k - 1) % 2 = 0 := by rcases hk with rfl | rfl <;> decide
  have htwo : (2 : ℤ) ^ k = 2 * (2 ^ (k - 1) : ℕ) := by rcases hk with rfl | rfl <;> norm_num
  have hcast : (2 : ℤ) ^ (k - 1) = (2 ^ (k - 1) : ℕ) := (Nat.cast_pow 2 (k - 1)).symm
  have hbmod (y v : ℤ) := bmod_eq_of_sub hk (y := y) (v := v)
  have hm (h : m < 2 ^ 64) := negate_eq h neg
  have hl := negate_eq hlim neg
  have hpos : 0 < 2 ^ (k - 1) := by positivity
  obtain ⟨hvalue, herrno⟩ := finish_found hlim neg m f
  rw [hvalue, herrno, heven]
  simp only [Target.result, Target.InRange, Target.number, hcast] at *
  generalize 2 ^ (k - 1) = lim at *
  cases neg <;> simp only [if_true, if_false, reduceCtorEq, and_true, and_false, or_false, false_or] at * <;> split_ifs
  all_goals first
    | exact ⟨hbmod _ _ (by omega) (by omega) (by omega), rfl⟩
    | omega

theorem finish_unsigned (hk : k = 32 ∨ k = 64) (neg : Bool) (m : ℕ) (f : Scan) :
    (((finish (2 ^ k - 1) (found (2 ^ k - 1) neg m f)).value % 2 ^ k : ℕ) : ℤ) =
        (Target.unsigned k).result neg m ∧
      (finish (2 ^ k - 1) (found (2 ^ k - 1) neg m f)).errno =
        if (Target.unsigned k).InRange neg m then none else some .ERANGE := by
  have hlim : 2 ^ k - 1 < 2 ^ 64 := by rcases hk with rfl | rfl <;> decide
  have hodd : (2 ^ k - 1) % 2 = 1 := by rcases hk with rfl | rfl <;> decide
  have hm (h : m < 2 ^ 64) := negate_eq h neg
  have hl : (negate (2 ^ k - 1) false : ℤ) = ((2 ^ k - 1 : ℕ) : ℤ) % 2 ^ 64 := negate_eq hlim false
  obtain ⟨hvalue, herrno⟩ := finish_found hlim neg m f
  have hrange : (Target.unsigned k).InRange neg m ↔ m < 2 ^ k := Iff.rfl
  have hpos : 0 < 2 ^ k := by positivity
  rw [hvalue, herrno]
  simp only [hodd, Target.result, if_true, true_or, and_true, one_ne_zero, false_and, if_false]
  refine ⟨?_, if_congr (by rw [hrange]; omega) rfl rfl⟩
  rcases hk with rfl | rfl <;> split_ifs <;> omega

theorem finish_f (lim : ℕ) (neg : Bool) (m : ℕ) (f : Scan) : (finish lim (found lim neg m f)).f = shunget f := by
  unfold finish found
  split_ifs <;> rfl

/-! ## The functions -/

theorem base_toNat (hb : base = 0 ∨ 2 ≤ base ∧ base ≤ 36) : ((base : ℤ) % 2 ^ 32).toNat = base := by
  omega

/-- **`strtox`** returns what a call has to return, if what follows `done` makes of a number what the type of the
result makes of it. -/
theorem strtox_converts (hb : base = 0 ∨ 2 ≤ base ∧ base ≤ 36) (s : List UInt8) (hlim : 0 < lim)
    {conv : ℕ → ℤ} {t : Target} (h0 : conv 0 = 0)
    (hfinish : ∀ neg m f, conv (finish lim (found lim neg m f)).value = t.result neg m ∧
      (finish lim (found lim neg m f)).errno = if t.InRange neg m then none else some .ERANGE) :
    Converts t base s (strtox s base lim conv) := by
  have hb36 : base ≤ 36 := by omega
  have hspace : s.dropWhile isspace <:+ s := dropWhile_suffix _
  have hsign := signOf_append (s.dropWhile isspace)
  have hr : (signOf (s.dropWhile isspace)).2.2 <:+ s := IsSuffix.trans ⟨_, hsign⟩ hspace
  have hscan : intscan s (shlim ⟨0, 0, 0⟩ 0) base true lim =
      (radix s base true (cur s (signOf (s.dropWhile isspace)).2.2).1
        (cur s (signOf (s.dropWhile isspace)).2.2).2).bind
          (afterRadix s (signOf (s.dropWhile isspace)).2.1 lim) := by
    rw [intscan, if_neg (by omega), skipSpace_eq, bind_some, sign_eq hspace, bind_some]
    rfl
  have hlen : s.length = (s.takeWhile isspace).length +
      ((signOf (s.dropWhile isspace)).1.length + (signOf (s.dropWhile isspace)).2.2.length) := by
    rw [← length_append, hsign, ← length_append, takeWhile_append_dropWhile]
  rw [strtox, base_toNat hb, hscan]
  rcases radix_reads hr hb (signOf (s.dropWhile isspace)).2.1 hlim with
    ⟨body, m, f, hreads, hcount, heq⟩ | ⟨hnone, f, hcount, heq⟩
  · left
    refine ⟨_, _, m, hreads.longest_numeral hb36, ?_⟩
    obtain ⟨hvalue, herrno⟩ := hfinish (signOf (s.dropWhile isspace)).2.1 m f
    rw [heq, map_some, hvalue, herrno, finish_f, hcount]
    simp only [length_append, some.injEq, Ret.mk.injEq, true_and, and_true]
    omega
  · right
    refine ⟨?_, ?_⟩
    · intro w neg m hw hn
      obtain ⟨body, -, -, hp, hbody⟩ := hn.parts hb36 hw
      exact hnone body m hp hbody
    · rw [heq, map_some]
      simp only [h0, hcount]

theorem unsigned_converts (hb : base = 0 ∨ 2 ≤ base ∧ base ≤ 36) (s : List UInt8) (hk : k = 32 ∨ k = 64) :
    Converts (.unsigned k) base s (strtox s base (2 ^ k - 1) fun y => (y % 2 ^ k : ℕ)) :=
  strtox_converts hb s (by rcases hk with rfl | rfl <;> decide) (by simp) (finish_unsigned hk)

/-- **`strtoul`** of a string that begins with a digit. -/
theorem strtoul_of_reads (arch : Arch) (hb : base = 0 ∨ 2 ≤ base ∧ base ≤ 36) (h : Reads base s body m)
    (hdigit : val (byte s 0) < 36) :
    ∃ e, strtoul arch s base = some ⟨if m < 2 ^ arch.bits then m else 2 ^ arch.bits - 1, body.length, e⟩ := by
  obtain ⟨c, t, rfl⟩ : ∃ c t, s = c :: t := by
    cases s with
    | nil => exact absurd hdigit (by decide)
    | cons c t => exact ⟨c, t, rfl⟩
  obtain ⟨hspace, h43, h45⟩ := not_space_of_val (c := c) hdigit
  have hdrop : (c :: t).dropWhile isspace = c :: t := dropWhile_cons_of_neg (by simp [hspace])
  have htake : (c :: t).takeWhile isspace = [] := takeWhile_cons_of_neg (by simp [hspace])
  have hsign : signOf (c :: t) = ([], false, c :: t) := by
    simp [signOf, h43, h45]
  have hlong : Longest base (c :: t) body false m := by
    have h' := Reads.longest_numeral (s := c :: t) (show base ≤ 36 by omega) (by rwa [hdrop, hsign])
    rwa [hdrop, htake, hsign] at h'
  rcases unsigned_converts hb (c :: t) (show arch.bits = 32 ∨ arch.bits = 64 by cases arch <;> decide) with
    ⟨w, neg, m', hlong', hr⟩ | ⟨hno, -⟩
  · rcases hlong.2.2 w neg m' hlong'.1 hlong'.2.1 with hlt | ⟨rfl, rfl, rfl⟩
    · rcases hlong'.2.2 body false m hlong.1 hlong.2.1 with hlt' | ⟨rfl, -⟩ <;> omega
    · refine ⟨_, hr.trans (congrArg (fun v => some (Ret.mk v _ _)) ?_)⟩
      show (if m' < 2 ^ arch.bits then (m' : ℤ) % 2 ^ arch.bits else 2 ^ arch.bits - 1) = _
      split
      · exact Int.emod_eq_of_lt (by omega) (by exact_mod_cast ‹_›)
      · rfl
  · exact absurd hlong.2.1 (hno body false m hlong.1)

/-- **Numbers from strings**: each of the functions returns the number that the longest numeral at the front of the
string denotes, brought into the range of its type, with `*endptr` behind the numeral, and sets `errno` to `ERANGE`
if and only if the number is out of range; without a numeral it returns zero and the start of the string. -/
theorem strto_converts {base : ℕ} (hb : base = 0 ∨ 2 ≤ base ∧ base ≤ 36) (s : List UInt8) :
    Converts (.signed 64) base s (strtoll s base) ∧ Converts (.unsigned 64) base s (strtoull s base) ∧
      ∀ arch : Arch, Converts (.signed arch.bits) base s (strtol arch s base) ∧
        Converts (.unsigned arch.bits) base s (strtoul arch s base) := by
  have hsigned {k : ℕ} (hk : k = 32 ∨ k = 64) :
      Converts (.signed k) base s (strtox s base (2 ^ (k - 1)) fun y => (y : ℤ).bmod (2 ^ k)) :=
    strtox_converts hb s (by positivity) (by simp) (finish_signed hk)
  refine ⟨hsigned (.inr rfl), unsigned_converts hb s (.inr rfl), fun arch => ?_⟩
  have hk : arch.bits = 32 ∨ arch.bits = 64 := by cases arch <;> decide
  exact ⟨hsigned hk, unsigned_converts hb s hk⟩

/-- The string `" -0x"` in the base 0: the numeral is `-0`, and the `x` is left. -/
theorem strto_converts_zero_x : Converts (.signed 64) 0 [32, 45, 48, 120] (strtoll [32, 45, 48, 120] 0) ∧
    strtoll [32, 45, 48, 120] 0 = some ⟨0, 3, none⟩ :=
  ⟨(strto_converts (.inl rfl) [32, 45, 48, 120]).1, by decide⟩

end Leblibc.Strtol
