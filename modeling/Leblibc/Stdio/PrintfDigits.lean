import Leblibc.Stdio.Printf

/-!
# Formatted output of integers: one field

The rendering of an integer as the C standard defines it is a sign or a prefix, the digits, of which there are at
least as many as the precision says, and padding up to the width. What `printf_core` writes for a field is this
rendering: the three loops over a number write its digits, the four calls of `pad` choose among them one side and
one byte for the padding, and the length is that of the rendering.

## Main results

* `fmtX_eq`, `fmtO_eq`, `fmtU_eq`: the loops over a number
* `emit_eq`: the bytes written for a field
-/

namespace Leblibc.Printf

open List

/-! ## The rendering -/

/-- The integer conversions. -/
inductive Conv where
  | d | i | u | o | x | X
  deriving DecidableEq

namespace Conv

/-- The letter of a conversion. -/
def char : Conv → UInt8
  | d => 100
  | i => 105
  | u => 117
  | o => 111
  | x => 120
  | X => 88

/-- The base that a conversion writes numbers in. -/
def base : Conv → ℕ
  | d | i | u => 10
  | o => 8
  | x | X => 16

/-- Whether the argument is signed. -/
def signed : Conv → Bool
  | d | i => true
  | _ => false

end Conv

/-- The byte for a digit. -/
def digitChar (upper : Bool) (d : ℕ) : UInt8 :=
  UInt8.ofNat (if d < 10 then 48 + d else (if upper then 55 else 87) + d)

/-- A number in a base, without leading zeros. Zero has no digits. -/
def digitsOf (b : ℕ) (upper : Bool) (n : ℕ) : List UInt8 := ((Nat.digits b n).map (digitChar upper)).reverse

/-- What stands between the `%` and the letter, as far as it matters for the rendering. -/
structure Spec where
  minus : Bool
  plus : Bool
  space : Bool
  alt : Bool
  zero : Bool
  width : ℕ
  prec : Option ℕ

namespace Spec

/-- The digits: as many as the precision says, or one if there is none; and with `#` an octal number begins with a
zero. -/
def digits (sp : Spec) (c : Conv) (n : ℕ) : List UInt8 :=
  let ds := digitsOf c.base (c = .X) n
  let ds := List.replicate (sp.prec.getD 1 - ds.length) 48 ++ ds
  if c = .o ∧ sp.alt ∧ ds.head? ≠ some 48 then 48 :: ds else ds

/-- The sign of a signed conversion, and the prefix of a hexadecimal number. -/
def sign (sp : Spec) (c : Conv) (v : ℤ) : List UInt8 :=
  match c with
  | .d | .i => if v < 0 then [45] else if sp.plus then [43] else if sp.space then [32] else []
  | .x => if v ≠ 0 ∧ sp.alt then [48, 120] else []
  | .X => if v ≠ 0 ∧ sp.alt then [48, 88] else []
  | _ => []

/-- The rendering of the value `v`. Zeros pad only without a precision and without `-`. -/
def render (sp : Spec) (c : Conv) (v : ℤ) : List UInt8 :=
  let sign := sp.sign c v
  let ds := sp.digits c v.natAbs
  let n := sp.width - (sign.length + ds.length)
  if sp.minus then sign ++ ds ++ List.replicate n 32
  else if sp.zero ∧ sp.prec = none then sign ++ List.replicate n 48 ++ ds
  else List.replicate n 32 ++ sign ++ ds

end Spec

/-! ## Numbers -/

theorem digitsOf_zero (b : ℕ) (upper : Bool) : digitsOf b upper 0 = [] := by
  simp [digitsOf]

variable {b n k : ℕ} {sp : Spec} {c : Conv} {v p : ℤ} {xp : Bool} {arg : ℕ} {fl : BitVec 32}

variable (upper : Bool)

theorem digitsOf_pos (hb : 1 < b) (hn : n ≠ 0) :
    digitsOf b upper n = digitsOf b upper (n / b) ++ [digitChar upper (n % b)] := by
  rw [digitsOf, Nat.digits_def' hb (Nat.pos_of_ne_zero hn)]
  simp [digitsOf]

theorem length_digitsOf (b : ℕ) (upper : Bool) (n : ℕ) :
    (digitsOf b upper n).length = (Nat.digits b n).length := by
  simp [digitsOf]

theorem digitsOf_eq_nil_iff : digitsOf b upper n = [] ↔ n = 0 := by
  rw [← length_eq_zero_iff, length_digitsOf, length_eq_zero_iff, Nat.digits_eq_nil_iff_eq_zero]

/-- A digit takes a byte of its own, so that a number below `b ^ (room + 1)` over `b` has room for one less. -/
theorem div_lt_pow {room : ℕ} (hb : 1 < b) (h : n < b ^ (room + 1)) : n / b < b ^ room := by
  rw [Nat.div_lt_iff_lt_mul (by omega)]
  rwa [Nat.pow_succ] at h

/-- The bytes of `xdigits`, in lower case if the bit for this is set. -/
theorem xdigits_or {d : ℕ} (hd : d < 16) (upper : Bool) :
    (xdigits.getD d 0 ||| if upper then 0 else 32) = digitChar upper d := by
  cases upper <;> interval_cases d <;> rfl

theorem digitChar_of_lt {d : ℕ} (hd : d < 10) (upper : Bool) : digitChar upper d = 48 + UInt8.ofNat d := by
  cases upper <;> interval_cases d <;> rfl

/-- A loop that writes the digits of a number, the last one first, writes one that has room. -/
theorem digits_of_loop {f : ℕ → ℕ → List UInt8 → Option (List UInt8)} (hb : 1 < b)
    (hzero : ∀ room s, f room 0 s = some s)
    (hstep : ∀ room x s, x ≠ 0 → f (room + 1) x s = f room (x / b) (digitChar upper (x % b) :: s)) (room : ℕ) :
    ∀ {x : ℕ} (s : List UInt8), x < b ^ room → f room x s = some (digitsOf b upper x ++ s) := by
  induction room with
  | zero =>
    intro x s hx
    obtain rfl : x = 0 := by simpa using hx
    rw [hzero, digitsOf_zero, nil_append]
  | succ room ih =>
    intro x s hx
    by_cases h0 : x = 0
    · rw [h0, hzero, digitsOf_zero, nil_append]
    · rw [hstep room x s h0, ih _ (div_lt_pow hb hx), digitsOf_pos upper hb h0, append_assoc, singleton_append]

/-- **`fmt_x`** writes the digits of a number that has room. -/
theorem fmtX_eq (room : ℕ) {x : ℕ} (s : List UInt8) (hx : x < 16 ^ room) :
    fmtX (if upper then 0 else 32) room x s = some (digitsOf 16 upper x ++ s) := by
  refine digits_of_loop upper (by decide) (fun room s => ?_) (fun room x s h0 => ?_) room s hx
  · cases room <;> rfl
  · rw [fmtX, if_neg h0, xdigits_or (Nat.mod_lt _ (by decide))]

/-- **`fmt_o`**. -/
theorem fmtO_eq (room : ℕ) {x : ℕ} (s : List UInt8) (hx : x < 8 ^ room) :
    fmtO room x s = some (digitsOf 8 false x ++ s) := by
  refine digits_of_loop false (by decide) (fun room s => ?_) (fun room x s h0 => ?_) room s hx
  · cases room <;> rfl
  · rw [fmtO, if_neg h0, digitChar_of_lt ((Nat.mod_lt x (by decide)).trans (by decide))]

theorem fmtU₂_zero (room : ℕ) (s : List UInt8) : fmtU₂ room 0 s = some s := by
  cases room <;> rfl

theorem fmtU₂_succ (room : ℕ) {x : ℕ} (s : List UInt8) (h0 : x ≠ 0) :
    fmtU₂ (room + 1) x s = fmtU₂ room (x / 10) (digitChar false (x % 10) :: s) := by
  rw [fmtU₂, digitChar_of_lt (Nat.mod_lt x (by decide))]
  split
  · rfl
  · rename_i hx
    rw [if_neg (Nat.succ_ne_zero room), Nat.div_eq_of_lt (by omega), fmtU₂_zero,
      Nat.mod_eq_of_lt (by omega)]

/-- **`fmt_u`**, for every `ULONG_MAX` that leaves no number unwritten. -/
theorem fmtU_eq (ulongMax room : ℕ) {x : ℕ} (s : List UInt8) (hx : x < 10 ^ room) :
    fmtU ulongMax room x s = some (digitsOf 10 false x ++ s) := by
  refine digits_of_loop false (by decide) (fun room s => ?_) (fun room x s h0 => ?_) room s hx
  · unfold fmtU
    rw [if_neg (Nat.not_lt_zero _), fmtU₂_zero]
  · rw [fmtU]
    split
    · rw [digitChar_of_lt (Nat.mod_lt x (by decide))]
    · unfold fmtU
      rw [fmtU₂_succ room s h0, if_neg (by omega)]

/-! ## Padding -/

theorem padLoop_eq (c : UInt8) : ∀ fuel l : ℕ, padLoop c fuel l = List.replicate l c := by
  intro fuel
  induction fuel with
  | zero => exact fun l => rfl
  | succ fuel ih =>
    intro l
    rw [padLoop]
    split
    · rename_i h
      rw [ih, replicate_append_replicate, Nat.add_sub_cancel' h]
    · rfl

theorem pad_eq (c : UInt8) (w l : ℤ) (fl : BitVec 32) :
    pad c w l fl = if has fl (LEFT_ADJ ||| ZERO_PAD) then [] else List.replicate (w - l).toNat c := by
  unfold pad
  by_cases hfl : has fl (LEFT_ADJ ||| ZERO_PAD) = true
  · rw [if_pos (.inl hfl), if_pos hfl]
  · rw [if_neg hfl]
    by_cases hl : l ≥ w
    · rw [if_pos (.inr hl), Int.toNat_of_nonpos (by omega)]
      rfl
    · rw [if_neg (by simp [hfl, hl]), padLoop_eq]

/-! ## The flag word -/

theorem has_twoPow (fl : BitVec 32) (hk : k < 32) : has fl (BitVec.twoPow 32 k) = fl.getLsbD k := by
  unfold has
  rw [BitVec.and_twoPow]
  by_cases h : fl.getLsbD k = true
  · have hne : BitVec.twoPow 32 k ≠ 0#32 := by
      intro hc
      have := congrArg (fun x => x.getLsbD k) hc
      simp [hk] at this
    simp [hne]
  · simp [h]

theorem has_or (fl m m' : BitVec 32) : has fl (m ||| m') = (has fl m || has fl m') := by
  have hand : fl &&& (m ||| m') = (fl &&& m) ||| (fl &&& m') := BitVec.and_or_distrib_left
  unfold has
  rw [hand]
  simp only [BitVec.or_eq_zero_iff, decide_not, Bool.decide_and, Bool.not_and]

theorem has_left (fl : BitVec 32) : has fl LEFT_ADJ = fl.getLsbD 13 := has_twoPow fl (by decide)

theorem has_zero (fl : BitVec 32) : has fl ZERO_PAD = fl.getLsbD 16 := has_twoPow fl (by decide)

theorem has_alt (fl : BitVec 32) : has fl ALT_FORM = fl.getLsbD 3 := has_twoPow fl (by decide)

theorem has_mark (fl : BitVec 32) : has fl MARK_POS = fl.getLsbD 11 := has_twoPow fl (by decide)

theorem has_space (fl : BitVec 32) : has fl PAD_POS = fl.getLsbD 0 := has_twoPow fl (by decide)

theorem getLsbD_clear (fl : BitVec 32) (hk : k < 32) :
    (fl &&& ~~~ZERO_PAD).getLsbD k = (fl.getLsbD k && k ≠ 16) := by
  simp [ZERO_PAD, hk]

theorem getLsbD_toggle (fl : BitVec 32) {j : ℕ} (hk : k < 32) :
    (fl ^^^ BitVec.twoPow 32 j).getLsbD k = (fl.getLsbD k ^^ (j == k)) := by
  by_cases h : j = k
  · simp [h, hk]
  · simp [h, beq_eq_false_iff_ne.mpr h]

/-! ## One field -/

/-- The flag word says what the specification says, and zeros are wanted only where they may be. -/
structure Word (fl : BitVec 32) (sp : Spec) : Prop where
  minus : fl.getLsbD 13 = sp.minus
  plus : fl.getLsbD 11 = sp.plus
  space : fl.getLsbD 0 = sp.space
  alt : fl.getLsbD 3 = sp.alt
  zero : fl.getLsbD 16 = (sp.zero && !sp.minus)

/-- The variables `p` and `xp` for a precision. -/
def Prec (p : ℤ) (xp : Bool) : Option ℕ → Prop
  | none => xp = false ∧ p < 0
  | some q => xp = true ∧ p = q

theorem Prec.cases {o : Option ℕ} (h : Prec p xp o) :
    (o = none ∧ xp = false ∧ p < 0) ∨ ∃ q : ℕ, o = some q ∧ xp = true ∧ p = q := by
  cases o with
  | none => exact .inl ⟨rfl, h⟩
  | some q => exact .inr ⟨q, rfl, h⟩

/-- What the `switch` has to leave for the value `v`. -/
structure Ready (sp : Spec) (c : Conv) (v : ℤ) (q : Field) : Prop where
  sign : q.sign = sp.sign c v
  digits : List.replicate ((max q.p q.digits.length).toNat - q.digits.length) 48 ++ q.digits =
    sp.digits c v.natAbs
  minus : q.fl.getLsbD 13 = sp.minus
  zero : q.fl.getLsbD 16 = (sp.zero && !sp.minus && sp.prec.isNone)

theorem length_render (sp : Spec) (c : Conv) (v : ℤ) :
    (sp.render c v).length = max sp.width ((sp.sign c v).length + (sp.digits c v.natAbs).length) := by
  unfold Spec.render
  split
  · simp
    omega
  · split
    · simp
      omega
    · simp
      omega

theorem pads_eq {q : Field} (h : Ready sp c v q) {w l : ℤ} (hn : (w - l).toNat = n) :
    pad 32 w l q.fl = (if sp.minus ∨ (sp.zero ∧ sp.prec = none) then [] else List.replicate n 32) ∧
      pad 48 w l (q.fl ^^^ ZERO_PAD) =
        (if sp.minus = false ∧ sp.zero ∧ sp.prec = none then List.replicate n 48 else []) ∧
      pad 32 w l (q.fl ^^^ LEFT_ADJ) = if sp.minus then List.replicate n 32 else [] := by
  have hz := h.zero
  have hm := h.minus
  rw [pad_eq, pad_eq, pad_eq, hn, has_or, has_or, has_or]
  simp only [has_left, has_zero]
  rw [show ZERO_PAD = BitVec.twoPow 32 16 from rfl, show LEFT_ADJ = BitVec.twoPow 32 13 from rfl,
    getLsbD_toggle _ (by decide), getLsbD_toggle _ (by decide), getLsbD_toggle _ (by decide),
    getLsbD_toggle _ (by decide), hz, hm]
  cases sp.minus <;> cases sp.zero <;> cases sp.prec <;> simp

/-- **The output of a field** is the rendering, unless it makes the output too long. -/
theorem emit_eq {q : Field} (h : Ready sp c v q) (cnt : ℕ) :
    emit cnt sp.width q =
      if (cnt + (sp.render c v).length : ℤ) ≤ INT_MAX then some (sp.render c v) else none := by
  -- the final `p` counts the digits, and the final `w` is the length
  have hp : (if q.p < q.digits.length then (q.digits.length : ℤ) else q.p) = (sp.digits c v.natAbs).length := by
    have hlen := congrArg List.length h.digits
    simp only [length_append, length_replicate] at hlen
    split <;> omega
  have hmax : (max q.p q.digits.length : ℤ) = (sp.digits c v.natAbs).length := by
    rw [← hp]
    split <;> omega
  have hlen := length_render sp c v
  unfold emit
  simp only [hp, h.sign]
  by_cases hfit : (cnt + (sp.render c v).length : ℤ) ≤ INT_MAX
  · rw [if_pos hfit, if_neg (by omega)]
    have hw : (if (sp.width : ℤ) < (sp.sign c v).length + (sp.digits c v.natAbs).length
        then ((sp.sign c v).length + (sp.digits c v.natAbs).length : ℤ) else sp.width) =
        (sp.render c v).length := by
      split <;> omega
    rw [hw, if_neg (by omega)]
    obtain ⟨h1, h2, h3⟩ := pads_eq h (w := (sp.render c v).length)
      (l := (sp.sign c v).length + (sp.digits c v.natAbs).length)
      (n := sp.width - ((sp.sign c v).length + (sp.digits c v.natAbs).length)) (by omega)
    have hfill : pad 48 (sp.digits c v.natAbs).length q.digits.length 0#32 ++ q.digits =
        sp.digits c v.natAbs := by
      rw [pad_eq, if_neg (by decide), ← hmax]
      rw [← h.digits]
      congr 2
      omega
    rw [h1, h2, h3, append_assoc _ (pad 48 _ _ 0#32) q.digits, hfill]
    unfold Spec.render
    -- one of the three sides has the padding
    cases hm : sp.minus
    · by_cases hz : sp.zero = true ∧ sp.prec = none
      · simp [hz]
      · simp [hz]
    · simp
  · rw [if_neg hfit]
    by_cases hbig : ((sp.digits c v.natAbs).length : ℤ) > INT_MAX - (sp.sign c v).length
    · rw [if_pos hbig]
    · rw [if_neg hbig, if_pos ?_]
      split <;> omega

/-! ## The `switch` -/

/-- The variable `arg.i` for a value that the conversion can have. -/
def Holds (c : Conv) (arg : ℕ) (v : ℤ) : Prop :=
  if c.signed then -9223372036854775808 ≤ v ∧ v ≤ 9223372036854775807 ∧ arg = (v % uintmaxSize).toNat
  else 0 ≤ v ∧ v < uintmaxSize ∧ arg = v.toNat

theorem head?_digitsOf_ne {b n : ℕ} (hb : 1 < b) (hb' : b ≤ 16) :
    (digitsOf b upper n).head? ≠ some 48 := by
  rcases Nat.eq_zero_or_pos n with rfl | hn
  · simp [digitsOf]
  · have hne : Nat.digits b n ≠ [] := Nat.digits_ne_nil_iff_ne_zero.mpr hn.ne'
    have hlast := Nat.getLast_digit_ne_zero b hn.ne'
    have hlt : (Nat.digits b n).getLast hne < 16 :=
      (Nat.digits_lt_base hb (getLast_mem hne)).trans_le hb'
    rw [digitsOf, head?_reverse, getLast?_map, getLast?_eq_some_getLast hne]
    generalize (Nat.digits b n).getLast hne = d at hlast hlt
    cases upper <;> interval_cases d <;> simp_all [digitChar]

/-- The number of zeros before the digits. -/
def Spec.zeros (sp : Spec) (c : Conv) (len : ℕ) : ℕ :=
  if c = .o ∧ sp.alt ∧ sp.prec.getD 1 ≤ len then 1 else sp.prec.getD 1 - len

theorem digits_eq (sp : Spec) (c : Conv) (n : ℕ) :
    sp.digits c n = List.replicate (sp.zeros c (digitsOf c.base (c = .X) n).length) 48 ++
      digitsOf c.base (c = .X) n := by
  have hb : 1 < c.base ∧ c.base ≤ 16 := by cases c <;> decide
  have hhead := head?_digitsOf_ne (n := n) (c = .X) hb.1 hb.2
  simp only [Spec.digits, Spec.zeros]
  generalize digitsOf c.base (c = .X) n = ds at *
  by_cases hle : sp.prec.getD 1 ≤ ds.length
  · -- the precision asks for no zero
    have h0 : sp.prec.getD 1 - ds.length = 0 := by omega
    rw [h0]
    by_cases halt : c = .o ∧ sp.alt
    · rw [if_pos ⟨halt.1, halt.2, by simpa using hhead⟩, if_pos ⟨halt.1, halt.2, hle⟩]
      rfl
    · rw [if_neg (fun hc => halt ⟨hc.1, hc.2.1⟩), if_neg (fun hc => halt ⟨hc.1, hc.2.1⟩)]
  · -- the first digit is a zero of the precision
    obtain ⟨k, hk⟩ : ∃ k, sp.prec.getD 1 - ds.length = k + 1 := ⟨sp.prec.getD 1 - ds.length - 1, by omega⟩
    rw [hk, if_neg (by simp [replicate_succ]), if_neg (fun hc => hle hc.2.2)]

theorem zeros_eq (hp : Prec p xp sp.prec) {len : ℕ} (hlen : len = 0 ↔ arg = 0) {p' : ℤ}
    (hp' : p' = if c = .o ∧ sp.alt ∧ p < len + 1 then (len + 1 : ℤ) else p) (h0 : ¬(arg = 0 ∧ p' = 0)) :
    (max (max p' (len + if arg = 0 then 1 else 0)) len).toNat - len = sp.zeros c len := by
  have hq : (sp.prec = none ∧ p < 0 ∧ sp.prec.getD 1 = 1) ∨ p = sp.prec.getD 1 := by
    obtain ⟨hprec, -, hneg⟩ | ⟨q, hprec, -, hq⟩ := hp.cases
    · exact .inl ⟨hprec, hneg, by rw [hprec]; rfl⟩
    · exact .inr (by rw [hq, hprec]; rfl)
  unfold Spec.zeros
  by_cases halt : c = .o ∧ sp.alt
  · -- an octal number with `#`
    simp only [halt, true_and] at hp' ⊢
    split at hp' <;> split <;> split <;> omega
  · have hno : ∀ P : Prop, ¬(c = .o ∧ sp.alt = true ∧ P) := fun P hc => halt ⟨hc.1, hc.2.1⟩
    rw [if_neg (hno _)] at hp'
    rw [if_neg (hno _)]
    split <;> omega

/-- The digits that the precision asks for, after `ifmt_tail`. -/
theorem ifmtTail_ready {p' : ℤ} (hw : Word fl sp) (hp : Prec p xp sp.prec) (harg : arg = v.natAbs)
    (hp' : p' = if c = .o ∧ sp.alt ∧ p < (digitsOf c.base (c = .X) arg).length + 1
      then ((digitsOf c.base (c = .X) arg).length + 1 : ℤ) else p) :
    ∃ q, ifmtTail arg (digitsOf c.base (c = .X) arg) (sp.sign c v) p' xp fl = .ok q ∧ Ready sp c v q := by
  have hlen : (digitsOf c.base (c = .X) arg).length = 0 ↔ arg = 0 := by
    rw [length_eq_zero_iff, digitsOf_eq_nil_iff]
  have hover : ¬(xp ∧ p' < 0) := by
    rintro ⟨rfl, hneg⟩
    obtain ⟨-, h, -⟩ | ⟨q, -, -, rfl⟩ := hp.cases
    · cases h
    · split at hp' <;> omega
  -- a precision takes the flag `0` back
  have hfl : ∀ fl', fl' = (if xp then fl &&& ~~~ZERO_PAD else fl) → fl'.getLsbD 13 = sp.minus ∧
      fl'.getLsbD 16 = (sp.zero && !sp.minus && sp.prec.isNone) := by
    rintro fl' rfl
    obtain ⟨hprec, rfl, -⟩ | ⟨q, hprec, rfl, -⟩ := hp.cases
    · rw [if_neg (by simp), hw.minus, hw.zero]
      simp [hprec]
    · rw [if_pos rfl, getLsbD_clear _ (by decide), getLsbD_clear _ (by decide), hw.minus]
      simp [hprec]
  unfold ifmtTail
  rw [if_neg hover]
  simp only
  split
  · rename_i h0
    -- zero with the precision zero has no digits
    refine ⟨_, rfl, rfl, ?_, (hfl _ rfl).1, (hfl _ rfl).2⟩
    have hds : digitsOf c.base (c = .X) arg = [] := (digitsOf_eq_nil_iff _).mpr h0.1
    have hz : sp.zeros c 0 = 0 := by
      split at hp'
      · omega
      · rename_i halt
        obtain ⟨-, -, hneg⟩ | ⟨q, hprec, -, rfl⟩ := hp.cases
        · omega
        · rw [Spec.zeros, if_neg (fun hc => halt ⟨hc.1, hc.2.1, by omega⟩), hprec, Option.getD_some]
          omega
    rw [digits_eq, ← harg, hds, length_nil, hz, h0.2]
    rfl
  · rename_i h0
    refine ⟨_, rfl, rfl, ?_, (hfl _ rfl).1, (hfl _ rfl).2⟩
    rw [digits_eq, ← harg, ← zeros_eq hp hlen hp' h0]

variable (arch : Arch)

theorem Holds.natAbs_lt (hv : Holds c arg v) : v.natAbs < uintmaxSize := by
  unfold Holds uintmaxSize at *
  split at hv <;> omega

theorem Holds.eq_natAbs (hv : Holds c arg v) (hc : c.signed = false) : arg = v.natAbs := by
  rw [Holds, hc, if_neg Bool.false_ne_true] at hv
  omega

theorem signPart_eq (hc : c = .d ∨ c = .i) (hv : Holds c arg v) (hw : Word fl sp) :
    (signPart arg fl).1 = v.natAbs ∧
      prefixAt (signPart arg fl).2.1 (signPart arg fl).2.2 = sp.sign c v := by
  obtain ⟨hmin, hmax, harg⟩ : -9223372036854775808 ≤ v ∧ v ≤ 9223372036854775807 ∧
      arg = (v % uintmaxSize).toNat := by
    rcases hc with rfl | rfl <;> exact hv
  have hsign : sp.sign c v =
      if v < 0 then [45] else if sp.plus then [43] else if sp.space then [32] else [] := by
    rcases hc with rfl | rfl <;> rfl
  have hcast : (uintmaxSize : ℤ) = 18446744073709551616 := rfl
  rw [hcast] at harg
  -- a negative value is above `INTMAX_MAX`, and its opposite is its magnitude
  have hneg : arg > INTMAX_MAX ↔ v < 0 := by
    unfold INTMAX_MAX
    omega
  rw [hsign, signPart, has_mark, has_space, hw.plus, hw.space]
  by_cases h0 : v < 0
  · rw [if_pos (hneg.mpr h0), if_pos h0]
    refine ⟨?_, rfl⟩
    unfold uintmaxSize
    omega
  · rw [if_neg (mt hneg.mp h0)]
    have habs : arg = v.natAbs := by omega
    split
    · exact ⟨habs, rfl⟩
    · split
      · exact ⟨habs, rfl⟩
      · exact ⟨habs, rfl⟩

theorem ifmt_x (hc : c = .x ∨ c = .X) (harg : arg = v.natAbs) (hx : arg < 16 ^ bufSize) (hw : Word fl sp) :
    ifmt arch c.char arg p xp fl = some (ifmtTail arg (digitsOf 16 (c = .X) arg) (sp.sign c v) p xp fl) := by
  have hunfold : ifmt arch c.char arg p xp fl = (fmtX (if decide (c = .X) then 0 else 32) bufSize arg []).bind fun a =>
      some (ifmtTail arg a (prefixAt (c.char.toNat / 16) (if arg ≠ 0 ∧ has fl ALT_FORM then 2 else 0)) p xp fl) := by
    rcases hc with rfl | rfl <;> rfl
  have hsign : prefixAt (c.char.toNat / 16) (if arg ≠ 0 ∧ sp.alt then 2 else 0) = sp.sign c v := by
    rcases hc with rfl | rfl <;> (simp only [harg, Spec.sign, ne_eq, Int.natAbs_eq_zero]; split <;> rfl)
  rw [hunfold, fmtX_eq _ _ _ hx, has_alt, hw.alt, hsign, append_nil]
  rfl

theorem ifmt_d (hc : c = .d ∨ c = .i) (hv : Holds c arg v) (hw : Word fl sp)
    (hu : fmtU (2 ^ arch.bits - 1) bufSize v.natAbs [] = some (digitsOf 10 false v.natAbs)) :
    ifmt arch c.char arg p xp fl = some (ifmtTail v.natAbs (digitsOf 10 false v.natAbs) (sp.sign c v) p xp fl) := by
  obtain ⟨habs, hsign⟩ := signPart_eq hc hv hw
  have hunfold : ifmt arch c.char arg p xp fl =
      (fmtU (2 ^ arch.bits - 1) bufSize (signPart arg fl).1 []).bind fun a =>
        some (ifmtTail (signPart arg fl).1 a (prefixAt (signPart arg fl).2.1 (signPart arg fl).2.2) p xp fl) := by
    rcases hc with rfl | rfl <;> rfl
  rw [hunfold, habs, hsign, hu]
  rfl

/-- **The `switch`**: the integer conversions leave the sign and the digits of the rendering. -/
theorem ifmt_ready (c : Conv) (hv : Holds c arg v) (hw : Word fl sp) (hp : Prec p xp sp.prec) :
    ∃ q, ifmt arch c.char arg p xp fl = some (.ok q) ∧ Ready sp c v q := by
  have hlt := hv.natAbs_lt
  have hu := fmtU_eq (2 ^ arch.bits - 1) bufSize [] (hlt.trans (by decide))
  rw [append_nil] at hu
  -- what the conversions share is `ifmt_tail`
  obtain ⟨q, hq, hr⟩ := ifmtTail_ready (c := c) hw hp rfl rfl
  refine ⟨q, ?_, hr⟩
  rw [← hq]
  cases c with
  | d => exact ifmt_d arch (.inl rfl) hv hw hu
  | i => exact ifmt_d arch (.inr rfl) hv hw hu
  | u =>
    obtain rfl := hv.eq_natAbs rfl
    exact congrArg (Option.bind · _) hu
  | o =>
    obtain rfl := hv.eq_natAbs rfl
    have ho := fmtO_eq bufSize [] (hlt.trans (by decide))
    rw [append_nil] at ho
    simp only [ifmt, Conv.char, ho, has_alt, hw.alt, true_and]
    rfl
  | x =>
    obtain rfl := hv.eq_natAbs rfl
    exact ifmt_x arch (.inl rfl) rfl (hlt.trans (by decide)) hw
  | X =>
    obtain rfl := hv.eq_natAbs rfl
    exact ifmt_x arch (.inr rfl) rfl (hlt.trans (by decide)) hw

end Leblibc.Printf
