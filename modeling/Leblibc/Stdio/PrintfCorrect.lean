import Leblibc.Stdio.PrintfDigits

/-!
# Formatted output of integers: whole formats

A format is a sequence of literal bytes, of `%%` and of conversion specifications with their arguments. The text
of a specification is read back by the loops of `printf_core` as its flags, its width, its precision and its
length modifier, so that the field is that of the specification; and over the whole format the bytes written are
the literal bytes and the renderings, one after the other.

## Main results

* `convert_eq`: a conversion specification is written as its rendering
* `printfCore_renders`: a format is written as its pieces, unless that is more than `INT_MAX` bytes
-/

namespace Leblibc.Printf

open List

/-! ## Conversion specifications -/

/-- The flags. -/
inductive Flag where
  | minus | plus | space | alt | zero
  deriving DecidableEq

namespace Flag

/-- The byte of a flag. -/
def char : Flag → UInt8
  | minus => 45
  | plus => 43
  | space => 32
  | alt => 35
  | zero => 48

/-- The bit of a flag in `fl`. -/
def bit (f : Flag) : ℕ := f.char.toNat - 32

end Flag

/-- The byte of a decimal digit. -/
def numeralChar (d : Fin 10) : UInt8 := 48 + UInt8.ofNat d

/-- The number that decimal digits denote after the number `i`. -/
def numeralFrom (i : ℕ) (ds : List (Fin 10)) : ℕ := ds.foldl (fun n d => 10 * n + d) i

/-- A width: digits, of which there may be none, or an argument. -/
inductive Width where
  | digits (ds : List (Fin 10))
  | star (w : ℤ)

namespace Width

/-- A width is at most `INT_MAX`, and its digits do not begin with `0`, which is a flag. -/
def Valid : Width → Prop
  | digits ds => ds.head? ≠ some 0 ∧ numeralFrom 0 ds ≤ INT_MAX
  | star w => -INT_MAX ≤ w ∧ w ≤ INT_MAX

def text : Width → List UInt8
  | digits ds => ds.map numeralChar
  | star _ => [42]

def args : Width → List ℤ
  | digits _ => []
  | star w => [w]

/-- The width in bytes. -/
def size : Width → ℕ
  | digits ds => numeralFrom 0 ds
  | star w => w.natAbs

/-- Whether the width is a negative argument, which means the flag `-`. -/
def negative : Width → Bool
  | digits _ => false
  | star w => w < 0

end Width

/-- A precision: none, a point with digits, of which there may be none, or an argument. -/
inductive Precision where
  | absent
  | digits (ds : List (Fin 10))
  | star (p : ℤ)

namespace Precision

/-- A precision is at most `INT_MAX`. -/
def Valid : Precision → Prop
  | absent => True
  | digits ds => numeralFrom 0 ds ≤ INT_MAX
  | star p => p ≤ INT_MAX

def text : Precision → List UInt8
  | absent => []
  | digits ds => 46 :: ds.map numeralChar
  | star _ => [46, 42]

def args : Precision → List ℤ
  | star p => [p]
  | _ => []

/-- The least number of digits. A negative argument is as no precision. -/
def least : Precision → Option ℕ
  | absent => none
  | digits ds => some (numeralFrom 0 ds)
  | star p => if p < 0 then none else some p.toNat

end Precision

/-- The length modifiers. -/
inductive Len where
  | none | hh | h | l | ll | j | z | t

namespace Len

def text : Len → List UInt8
  | none => []
  | hh => [104, 104]
  | h => [104]
  | l => [108]
  | ll => [108, 108]
  | j => [106]
  | z => [122]
  | t => [116]

/-- The type of the argument of a conversion. -/
def ty (m : Len) (c : Conv) : Ty :=
  match m, c.signed with
  | none, true => .int
  | none, false => .uint
  | hh, true => .char
  | hh, false => .uchar
  | h, true => .short
  | h, false => .ushort
  | l, true => .long
  | l, false => .ulong
  | ll, true => .llong
  | ll, false => .ullong
  | j, true => .imax
  | j, false => .umax
  | z, true => .pdiff
  | z, false => .sizet
  | t, true => .pdiff
  | t, false => .sizet

end Len

/-- A conversion specification, with the argument that it converts. -/
structure Directive where
  flags : List Flag
  width : Width
  prec : Precision
  len : Len
  conv : Conv
  arg : ℤ
  width_valid : width.Valid
  prec_valid : prec.Valid

namespace Directive

/-- The text from behind the `%` on. -/
def text (d : Directive) : List UInt8 :=
  d.flags.map Flag.char ++ (d.width.text ++ (d.prec.text ++ (d.len.text ++ [d.conv.char])))

/-- The arguments, in the order in which they are passed. -/
def args (d : Directive) : List ℤ := d.width.args ++ (d.prec.args ++ [d.arg])

/-- What the specification means. -/
def spec (d : Directive) : Spec where
  minus := .minus ∈ d.flags ∨ d.width.negative
  plus := .plus ∈ d.flags
  space := .space ∈ d.flags
  alt := .alt ∈ d.flags
  zero := .zero ∈ d.flags
  width := d.width.size
  prec := d.prec.least

/-- The value that is rendered: the argument, converted to the type that the length modifier says. -/
def value (arch : Arch) (d : Directive) : ℤ := (d.len.ty d.conv).convert arch d.arg

/-- The bytes that the specification stands for. -/
def render (arch : Arch) (d : Directive) : List UInt8 := d.spec.render d.conv (d.value arch)

end Directive

/-! ## Reading a specification -/

/-- A text that begins with a byte of some kind. -/
def Begins (P : UInt8 → Prop) (s : List UInt8) : Prop := ∃ c t, s = c :: t ∧ P c

theorem Begins.mono {P Q : UInt8 → Prop} {s : List UInt8} (h : Begins P s) (hpq : ∀ c, P c → Q c) : Begins Q s := by
  obtain ⟨c, t, rfl, hc⟩ := h
  exact ⟨c, t, rfl, hpq c hc⟩

/-- The bytes that length modifiers and conversions are made of. -/
def Letter (c : UInt8) : Prop := 64 < c

namespace Letter

variable {c : UInt8}

theorem ne (h : Letter c) {d : UInt8} (hd : d ≤ 64) : c ≠ d := by
  rintro rfl
  exact absurd h (UInt8.not_lt.mpr hd)

theorem not_isdigit (h : Letter c) : isdigit c = false := by
  have hlt : 64 < c.toNat := h
  unfold isdigit
  simp only [decide_eq_false_iff_not]
  rintro ⟨-, hle⟩
  exact absurd (show c.toNat ≤ 57 from hle) (by omega)

theorem flagBit (h : Letter c) : flagBit c = none := by
  exact if_neg fun hc => absurd (show c < 64 from hc.2.1) (UInt8.not_lt.mpr (UInt8.le_of_lt h))

end Letter

theorem Flag.flagBit_char (f : Flag) : flagBit f.char = some (BitVec.twoPow 32 f.bit) := by
  cases f <;> rfl

theorem Flag.bit_lt (f : Flag) : f.bit < 32 := by
  cases f <;> decide

theorem Flag.bit_inj {f g : Flag} (h : f.bit = g.bit) : f = g := by
  revert h
  cases f <;> cases g <;> decide

/-- The flag word `fl` with further flags. -/
def withFlags (fl : BitVec 32) (fs : List Flag) : BitVec 32 :=
  fs.foldl (fun fl f => fl ||| BitVec.twoPow 32 f.bit) fl

theorem withFlags_cons (fl : BitVec 32) (f : Flag) (fs : List Flag) :
    withFlags fl (f :: fs) = withFlags (fl ||| BitVec.twoPow 32 f.bit) fs := rfl

/-- The bits of the flag word after flags: those that were there, and those of the flags. -/
theorem getLsbD_withFlags (f : Flag) : ∀ (fs : List Flag) (fl : BitVec 32),
    (withFlags fl fs).getLsbD f.bit = (fl.getLsbD f.bit || decide (f ∈ fs))
  | [], fl => by simp [withFlags]
  | g :: fs, fl => by
    rw [withFlags_cons, getLsbD_withFlags f fs]
    by_cases h : f = g
    · simp [h, g.bit_lt]
    · have hbit : ¬g.bit = f.bit := fun hc => h (Flag.bit_inj hc).symm
      simp [h, hbit]

/-- **The loop over the flags** reads them, up to a byte that is none. -/
theorem flagLoop_eq {s : List UInt8} (hs : Begins (fun c => flagBit c = none) s) :
    ∀ (fs : List Flag) (fl : BitVec 32), flagLoop fl (fs.map Flag.char ++ s) = (withFlags fl fs, s)
  | [], fl => by
    obtain ⟨c, t, rfl, hc⟩ := hs
    rw [map_nil, nil_append, flagLoop, hc]
    rfl
  | f :: fs, fl => by
    rw [map_cons, cons_append, flagLoop, f.flagBit_char]
    exact flagLoop_eq hs fs _

theorem toNat_numeralChar (d : Fin 10) : (numeralChar d).toNat = 48 + d := by
  revert d
  decide

theorem isdigit_numeralChar (d : Fin 10) : isdigit (numeralChar d) = true := by
  revert d
  decide

theorem numeralChar_ne_star (d : Fin 10) : numeralChar d ≠ 42 := by
  revert d
  decide

theorem numeralFrom_cons (i : ℕ) (d : Fin 10) (ds : List (Fin 10)) :
    numeralFrom i (d :: ds) = numeralFrom (10 * i + d) ds := rfl

theorem le_numeralFrom : ∀ (i : ℕ) (ds : List (Fin 10)), i ≤ numeralFrom i ds
  | _, [] => le_rfl
  | i, d :: ds => le_trans (by omega) (le_numeralFrom (10 * i + d) ds)

/-- **`getint`** reads a number that is an `int`. -/
theorem getint_eq {s : List UInt8} (hs : Begins (fun c => isdigit c = false) s) :
    ∀ (ds : List (Fin 10)) (i : ℕ), (numeralFrom i ds : ℤ) ≤ INT_MAX →
      getint i (ds.map numeralChar ++ s) = ((numeralFrom i ds : ℤ), s)
  | [], i, _ => by
    obtain ⟨c, t, rfl, hc⟩ := hs
    rw [map_nil, nil_append, getint, hc]
    rfl
  | d :: ds, i, h => by
    rw [numeralFrom_cons] at h ⊢
    have hle := le_numeralFrom (10 * i + d) ds
    have hval : ((numeralChar d).toNat - 48 : ℤ) = d := by
      rw [toNat_numeralChar]
      omega
    -- the number so far is not larger than the whole one, so the tests for overflow fail
    have hok : ¬((i : ℤ) < 0 ∨ (i : ℤ) > INT_MAX / 10 ∨
        ((numeralChar d).toNat - 48 : ℤ) > INT_MAX - 10 * (i : ℤ)) := by
      omega
    rw [map_cons, cons_append, getint, if_pos (isdigit_numeralChar d), if_neg hok, hval]
    exact_mod_cast getint_eq hs ds (10 * i + d) h

theorem byte_zero (c : UInt8) (s : List UInt8) : byte (c :: s) 0 = c := rfl

theorem byte_succ (c : UInt8) (s : List UInt8) (n : ℕ) : byte (c :: s) (n + 1) = byte s n := by
  simp [byte]

theorem Begins.byte {P : UInt8 → Prop} {s : List UInt8} (h : Begins P s) : P (byte s 0) := by
  obtain ⟨c, t, rfl, hc⟩ := h
  exact hc

/-- The flag word after the width. -/
def Width.mark (w : Width) (fl : BitVec 32) : BitVec 32 := if w.negative then fl ||| LEFT_ADJ else fl

/-- **The width** is read, up to a byte that is no digit. -/
theorem parseWidth_eq (fl : BitVec 32) {w : Width} (hw : w.Valid) {s : List UInt8}
    (hs : Begins (fun c => c ≠ 42 ∧ isdigit c = false) s) (args : List ℤ) :
    parseWidth fl (w.text ++ s) (w.args ++ args) = some (.ok ⟨w.mark fl, w.size, -1, false, s, args⟩) := by
  cases w with
  | digits ds =>
    have hstar : byte (ds.map numeralChar ++ s) 0 ≠ 42 := by
      cases ds with
      | nil => exact hs.byte.1
      | cons d ds => exact numeralChar_ne_star d
    have hint := getint_eq (hs.mono fun c hc => hc.2) ds 0 hw.2
    show parseWidth fl (ds.map numeralChar ++ s) args = _
    unfold parseWidth
    rw [if_neg hstar]
    simp only [Nat.cast_zero] at hint
    simp only [hint]
    rfl
  | star w =>
    obtain ⟨hmin, hmax⟩ := hw
    have hdigit : ¬(isdigit (byte (42 :: s) 1) = true ∧ byte (42 :: s) 2 = 36) := by
      rw [byte_succ, hs.byte.2]
      simp
    show parseWidth fl (42 :: s) (w :: args) = _
    rw [parseWidth, if_pos (byte_zero _ _), if_neg hdigit]
    simp only [drop_one, tail_cons]
    by_cases h0 : w < 0
    · have hmark : (Width.star w).mark fl = fl ||| LEFT_ADJ := if_pos (decide_eq_true h0)
      have hsize : ((Width.star w).size : ℤ) = -w := Int.ofNat_natAbs_of_nonpos h0.le
      rw [if_pos h0, if_neg (by omega), hmark, hsize]
    · have hmark : (Width.star w).mark fl = fl := if_neg (by simpa [Width.negative] using h0)
      have hsize : ((Width.star w).size : ℤ) = w := Int.natAbs_of_nonneg (not_lt.mp h0)
      rw [if_neg h0, hmark, hsize]

/-- **The precision** is read, up to a letter. -/
theorem parsePrec_eq (fl : BitVec 32) (w : ℤ) {pr : Precision} (hp : pr.Valid) {s : List UInt8}
    (hs : Begins Letter s) (args : List ℤ) :
    ∃ p xp, parsePrec ⟨fl, w, -1, false, pr.text ++ s, pr.args ++ args⟩ = some (.ok ⟨fl, w, p, xp, s, args⟩) ∧
      Prec p xp pr.least := by
  have hpoint := hs.byte.ne (d := 46) (by decide)
  have hstar := hs.byte.ne (d := 42) (by decide)
  have hdigit := hs.byte.not_isdigit
  cases pr with
  | absent =>
    refine ⟨-1, false, ?_, rfl, by decide⟩
    show parsePrec ⟨fl, w, -1, false, s, args⟩ = _
    rw [parsePrec, if_neg (fun hc => hpoint hc.1), if_neg hpoint]
  | digits ds =>
    refine ⟨numeralFrom 0 ds, true, ?_, rfl, rfl⟩
    have hint := getint_eq (hs.mono fun _ => Letter.not_isdigit) ds 0 hp
    have hne : byte (46 :: (ds.map numeralChar ++ s)) 1 ≠ 42 := by
      cases ds with
      | nil => exact hstar
      | cons d ds => exact numeralChar_ne_star d
    show parsePrec ⟨fl, w, -1, false, 46 :: (ds.map numeralChar ++ s), args⟩ = _
    rw [parsePrec, if_neg (fun hc => hne hc.2), if_pos (byte_zero _ _)]
    simp only [Nat.cast_zero] at hint
    simp only [drop_one, tail_cons, hint]
  | star p =>
    refine ⟨p, decide (p ≥ 0), ?_, ?_⟩
    · have hno : ¬(isdigit (byte (46 :: 42 :: s) 2) = true ∧ byte (46 :: 42 :: s) 3 = 36) := by
        rw [byte_succ, byte_succ, hdigit]
        simp
      show parsePrec ⟨fl, w, -1, false, 46 :: 42 :: s, p :: args⟩ = _
      rw [parsePrec, if_neg hno]
      rfl
    · by_cases h0 : p < 0
      · rw [show (Precision.star p).least = none from if_pos h0]
        exact ⟨decide_eq_false (by omega), h0⟩
      · rw [show (Precision.star p).least = some p.toNat from if_neg h0]
        exact ⟨decide_eq_true (by omega), by omega⟩

/-- **The length modifier** is read, and the letter of the conversion. -/
theorem lengthLoop_eq (m : Len) (c : Conv) (s : List UInt8) :
    lengthLoop .bare (m.text ++ c.char :: s) = .ok (m.ty c, c.char, s) := by
  cases m <;> cases c <;> rfl

/-! ## One specification -/

namespace Directive

variable (d : Directive) (s : List UInt8)

/-- The length modifier and the conversion begin with a letter. -/
theorem begins_len : Begins Letter (d.len.text ++ d.conv.char :: s) := by
  cases d.len <;> cases d.conv <;> exact ⟨_, _, rfl, show 64 < _ by decide⟩

theorem begins_prec : Begins (fun c => c = 46 ∨ Letter c) (d.prec.text ++ (d.len.text ++ d.conv.char :: s)) := by
  cases d.prec with
  | absent => exact (d.begins_len s).mono fun c hc => .inr hc
  | digits ds => exact ⟨_, _, rfl, .inl rfl⟩
  | star p => exact ⟨_, _, rfl, .inl rfl⟩

theorem begins_width : Begins (fun c => flagBit c = none)
    (d.width.text ++ (d.prec.text ++ (d.len.text ++ d.conv.char :: s))) := by
  have hprec : Begins (fun c => flagBit c = none) (d.prec.text ++ (d.len.text ++ d.conv.char :: s)) := by
    refine (d.begins_prec s).mono fun c hc => ?_
    rcases hc with rfl | hc
    · rfl
    · exact hc.flagBit
  have hvalid := d.width_valid
  revert hvalid
  cases d.width with
  | digits ds =>
    intro hvalid
    cases ds with
    | nil => exact hprec
    | cons k ds =>
      -- the first digit is not `0`
      have hk : k ≠ 0 := fun hc => hvalid.1 (congrArg some hc)
      have hnone : ∀ k : Fin 10, k ≠ 0 → flagBit (numeralChar k) = none := by decide
      exact ⟨_, _, rfl, hnone k hk⟩
  | star w => exact fun _ => ⟨_, _, rfl, rfl⟩

/-- The flag word after the flags and the width. -/
def word : BitVec 32 := leftAdjust (d.width.mark (withFlags 0#32 d.flags))

end Directive

theorem getLsbD_mark (w : Width) (fl : BitVec 32) (k : ℕ) :
    (w.mark fl).getLsbD k = (fl.getLsbD k || (w.negative && k == 13)) := by
  unfold Width.mark
  cases w.negative with
  | false => simp
  | true =>
    rw [LEFT_ADJ]
    by_cases h : k = 13
    · simp [h]
    · simp [h, Ne.symm h]

variable (d : Directive)

theorem Directive.word_spec : Word d.word d.spec := by
  have hmark (f : Flag) := getLsbD_mark d.width (withFlags 0#32 d.flags) f.bit
  simp only [getLsbD_withFlags] at hmark
  generalize hfl : d.width.mark (withFlags 0#32 d.flags) = fl at hmark
  have hminus : fl.getLsbD 13 = d.spec.minus := (hmark .minus).trans (by simp [Flag.bit, Flag.char, Directive.spec])
  -- a left adjustment takes the flag `0` back, and no other
  have hword (f : Flag) : d.word.getLsbD f.bit = (fl.getLsbD f.bit && !(d.spec.minus && f.bit == 16)) := by
    rw [Directive.word, hfl, leftAdjust]
    simp only [has_left, hminus]
    cases d.spec.minus with
    | false => simp
    | true =>
      rw [if_pos rfl, getLsbD_clear _ f.bit_lt]
      by_cases h : f.bit = 16 <;> simp [h]
  simp only [hmark] at hword
  refine ⟨(hword .minus).trans ?_, (hword .plus).trans ?_, (hword .space).trans ?_, (hword .alt).trans ?_,
    (hword .zero).trans ?_⟩
  all_goals simp [Flag.bit, Flag.char, Directive.spec]

/-- The types that length modifiers name are not wider than `uintmax_t`. -/
theorem Len.bits_le (m : Len) (c : Conv) (arch : Arch) : (m.ty c).bits arch ≤ 64 := by
  cases arch <;> cases m <;> cases c <;> decide

theorem Len.signed_ty (m : Len) (c : Conv) : (m.ty c).signed = c.signed := by
  cases m <;> cases c <;> rfl

theorem Len.bits_pos (m : Len) (c : Conv) (arch : Arch) : 0 < (m.ty c).bits arch := by
  cases arch <;> cases m <;> cases c <;> decide

/-- The range of a number of `n + 1` bits in two's complement. -/
theorem bmod_two_pow_range (v : ℤ) (n : ℕ) :
    -(2 : ℤ) ^ n ≤ v.bmod (2 ^ (n + 1)) ∧ v.bmod (2 ^ (n + 1)) < 2 ^ n := by
  have hmin := Int.le_bmod (x := v) (m := 2 ^ (n + 1)) (by positivity)
  have hmax := Int.bmod_lt (x := v) (m := 2 ^ (n + 1)) (by positivity)
  have hsize : ((2 ^ (n + 1) : ℕ) : ℤ) = 2 * 2 ^ n := by
    push_cast [pow_succ]
    ring
  omega

variable (arch : Arch)

/-- **`pop_arg`** leaves the value in `arg.i`. -/
theorem Directive.popArg_holds :
    Holds d.conv (popArg arch (d.len.ty d.conv) d.arg) (d.value arch) := by
  obtain ⟨n, hn⟩ := Nat.exists_eq_add_one_of_ne_zero (d.len.bits_pos d.conv arch).ne'
  have hle : n ≤ 63 := by
    have := d.len.bits_le d.conv arch
    omega
  have hpow : (2 : ℤ) ^ n ≤ 2 ^ 63 := pow_le_pow_right₀ (by decide) hle
  unfold Holds popArg Directive.value Ty.convert
  rw [d.len.signed_ty, hn]
  split
  · -- a signed value is in range, and goes into `arg.i` modulo its size
    obtain ⟨hmin, hmax⟩ := bmod_two_pow_range d.arg n
    refine ⟨?_, ?_, rfl⟩
    · omega
    · omega
  · have hpos : (0 : ℤ) < 2 ^ (n + 1) := by positivity
    have h0 := Int.emod_nonneg d.arg hpos.ne'
    have hbound : d.arg % 2 ^ (n + 1) < uintmaxSize := by
      have hsize : (uintmaxSize : ℤ) = 2 * 2 ^ 63 := rfl
      omega
    refine ⟨h0, hbound, ?_⟩
    rw [Int.emod_eq_of_lt h0 hbound]

/-- **A conversion specification** is written as its rendering, unless the output becomes too long. -/
theorem convert_eq (cnt : ℕ) (s : List UInt8) (args : List ℤ) :
    convert arch cnt (d.text ++ s) (d.args ++ args) =
      some (if (cnt + (d.render arch).length : ℤ) ≤ INT_MAX then .ok (d.render arch, s, args)
        else .error .overflow) := by
  have htext : d.text ++ s = d.flags.map Flag.char ++
      (d.width.text ++ (d.prec.text ++ (d.len.text ++ d.conv.char :: s))) := by
    simp [Directive.text]
  have hargs : d.args ++ args = d.width.args ++ (d.prec.args ++ d.arg :: args) := by
    simp [Directive.args]
  have hflags := flagLoop_eq (d.begins_width s) d.flags 0#32
  have hnostar : ∀ c : UInt8, c = 46 ∨ Letter c → c ≠ 42 ∧ isdigit c = false := by
    rintro c (rfl | hc)
    · decide
    · exact ⟨hc.ne (by decide), hc.not_isdigit⟩
  have hwidth := parseWidth_eq (withFlags 0#32 d.flags) d.width_valid ((d.begins_prec s).mono hnostar)
    (d.prec.args ++ d.arg :: args)
  obtain ⟨p, xp, hprec, hp⟩ := parsePrec_eq (d.width.mark (withFlags 0#32 d.flags)) d.width.size d.prec_valid
    (d.begins_len s) (d.arg :: args)
  have hlen := lengthLoop_eq d.len d.conv s
  obtain ⟨q, hq, hready⟩ := ifmt_ready arch d.conv (d.popArg_holds arch) d.word_spec hp
  have hemit : emit cnt d.width.size q =
      if (cnt + (d.render arch).length : ℤ) ≤ INT_MAX then some (d.render arch) else none := emit_eq hready cnt
  rw [Directive.word] at hq
  rw [htext, hargs]
  unfold convert
  simp only [hflags, hwidth, hprec, hlen, hq, hemit, some_bind]
  by_cases hfit : (cnt + (d.render arch).length : ℤ) ≤ INT_MAX <;> simp only [hfit, if_true, if_false]

/-! ## Whole formats -/

/-- A part of a format. -/
inductive Piece where
  | literal (c : UInt8) (h : c ≠ 37 ∧ c ≠ 0)
  | percent
  | conv (d : Directive)

namespace Piece

/-- The text of a piece. -/
def text : Piece → List UInt8
  | literal c _ => [c]
  | percent => [37, 37]
  | conv d => 37 :: d.text

/-- The arguments of a piece. -/
def args : Piece → List ℤ
  | conv d => d.args
  | _ => []

/-- The bytes that a piece stands for. -/
def render (arch : Arch) : Piece → List UInt8
  | literal c _ => [c]
  | percent => [37]
  | conv d => d.render arch

def isLiteral : Piece → Bool
  | literal _ _ => true
  | _ => false

def isPercent : Piece → Bool
  | percent => true
  | _ => false

end Piece

/-- The text of a format. -/
def textOf (ps : List Piece) : List UInt8 := ps.flatMap Piece.text

/-- The arguments of a format. -/
def argsOf (ps : List Piece) : List ℤ := ps.flatMap Piece.args

/-- The bytes that a format stands for. -/
def renderOf (arch : Arch) (ps : List Piece) : List UInt8 := ps.flatMap (Piece.render arch)

/-- **How a call ends** that has to write `bytes`, `n` in number: with their count if that is an `int`, otherwise
with `EOVERFLOW` after some of them. -/
def Ends (r : Option (Result × List UInt8)) (n : ℕ) (bytes : List UInt8) : Prop :=
  if (n : ℤ) ≤ INT_MAX then r = some (.count n, bytes) else ∃ out, out <+: bytes ∧ r = some (.overflow, out)

/-- The bytes of a specification are neither `$` nor `%`. -/
theorem Directive.mem_text {d : Directive} {c : UInt8} (hc : c ∈ d.text) : c ≠ 36 ∧ c ≠ 37 := by
  have hnum (k : Fin 10) : numeralChar k ≠ 36 ∧ numeralChar k ≠ 37 := by
    revert k
    decide
  obtain ⟨fs, w, p, m, conv, a, hw, hp⟩ := d
  simp only [Directive.text, mem_append, mem_map, mem_singleton] at hc
  rcases hc with ⟨f, -, rfl⟩ | hc | hc | hc | rfl
  · cases f <;> decide
  · cases w with
    | digits ds =>
      obtain ⟨k, -, rfl⟩ := List.mem_map.mp hc
      exact hnum k
    | star w =>
      obtain rfl := List.mem_singleton.mp hc
      decide
  · cases p with
    | absent => cases hc
    | digits ds =>
      rcases List.mem_cons.mp hc with rfl | hc
      · decide
      · obtain ⟨k, -, rfl⟩ := List.mem_map.mp hc
        exact hnum k
    | star p =>
      simp only [Precision.text, mem_cons, not_mem_nil, or_false] at hc
      rcases hc with rfl | rfl <;> decide
  · revert c
    cases m <;> simp [Len.text]
  · cases conv <;> decide

/-- A specification ends with a letter, and what follows it is not read as the `$` of a position. -/
theorem Directive.no_position (s : List UInt8) :
    ¬(isdigit (byte (d.text ++ s) 0) = true ∧ byte (d.text ++ s) 1 = 36) := by
  rintro ⟨hdigit, hdollar⟩
  rcases htext : d.text with _ | ⟨c, _ | ⟨c', t⟩⟩
  · simp [Directive.text] at htext
  · -- the only byte is the letter of the conversion
    have hlast : d.text.getLast? = some d.conv.char := by simp [Directive.text]
    rw [htext, getLast?_singleton, Option.some.injEq] at hlast
    rw [htext, singleton_append, byte_zero, hlast] at hdigit
    revert hdigit
    cases d.conv <;> decide
  · rw [htext] at hdollar
    exact (Directive.mem_text (d := d) (c := c') (by simp [htext])).1 hdollar

theorem Directive.text_cons : ∃ c t, d.text = c :: t ∧ c ≠ 37 := by
  rcases htext : d.text with _ | ⟨c, t⟩
  · simp [Directive.text] at htext
  · exact ⟨c, t, rfl, (Directive.mem_text (d := d) (by simp [htext])).2⟩

theorem textOf_cons (p : Piece) (ps : List Piece) : textOf (p :: ps) = p.text ++ textOf ps := rfl

theorem argsOf_cons (p : Piece) (ps : List Piece) : argsOf (p :: ps) = p.args ++ argsOf ps := rfl

theorem renderOf_cons (p : Piece) (ps : List Piece) :
    renderOf arch (p :: ps) = p.render arch ++ renderOf arch ps := rfl

theorem literal_eq (s : List UInt8) : literal s = (s.takeWhile (· ≠ 37), s.dropWhile (· ≠ 37)) :=
  span_eq_takeWhile_dropWhile _ _

/-- **The loop over literal bytes** reads the literal pieces. -/
theorem literal_textOf (arch : Arch) : ∀ ps : List Piece,
    literal (textOf ps) =
      (renderOf arch (ps.takeWhile Piece.isLiteral), textOf (ps.dropWhile Piece.isLiteral))
  | [] => rfl
  | .literal c h :: ps => by
    have ih := literal_textOf arch ps
    rw [literal_eq, Prod.mk.injEq] at ih ⊢
    have hc : decide (c ≠ 37) = true := decide_eq_true h.1
    simp only [textOf_cons, Piece.text, singleton_append, takeWhile_cons, dropWhile_cons, hc,
      if_true, ih, Piece.isLiteral, renderOf_cons, Piece.render, and_self]
  | .percent :: _ => rfl
  | .conv _ :: _ => rfl

theorem percents_of_ne {s : List UInt8} (h : ∀ t, s ≠ 37 :: 37 :: t) : percents s = (0, s) := by
  unfold percents
  split
  · rename_i t
    exact absurd rfl (h t)
  · rfl

/-- **The loop over pairs of `%`** reads the pieces `%%`. -/
theorem percents_textOf : ∀ ps : List Piece,
    percents (textOf ps) = ((ps.takeWhile Piece.isPercent).length, textOf (ps.dropWhile Piece.isPercent))
  | [] => rfl
  | .literal c h :: ps => by
    apply percents_of_ne
    rintro t ht
    exact h.1 (List.cons.inj ht).1
  | .percent :: ps => by
    have ih := percents_textOf ps
    show ((percents (textOf ps)).1 + 1, (percents (textOf ps)).2) = _
    rw [ih]
    rfl
  | .conv d :: ps => by
    -- what follows the `%` is not another one
    obtain ⟨c, t, htext, hc⟩ := d.text_cons
    apply percents_of_ne
    intro u hu
    rw [textOf_cons, Piece.text, htext] at hu
    exact hc (List.cons.inj (List.cons.inj hu).2).1

/-! ## The loop -/

/-- The format behind the literal pieces and the pieces `%%` at its front. -/
def behind (ps : List Piece) : List Piece := (ps.dropWhile Piece.isLiteral).dropWhile Piece.isPercent

theorem argsOf_behind (ps : List Piece) : argsOf (behind ps) = argsOf ps := by
  have hpercent : ∀ ps : List Piece, argsOf (ps.dropWhile Piece.isPercent) = argsOf ps := by
    intro ps
    induction ps with
    | nil => rfl
    | cons p ps ih =>
      cases p with
      | percent => exact ih
      | _ => rfl
  induction ps with
  | nil => rfl
  | cons p ps ih =>
    cases p with
    | literal c h => exact ih
    | _ => exact hpercent _

/-- What the two loops read: the bytes that stand for the front of the format. -/
theorem renderOf_front (ps : List Piece) :
    (literal (textOf ps)).1 ++ (List.replicate (percents (literal (textOf ps)).2).1 37 ++
      renderOf arch (behind ps)) = renderOf arch ps := by
  have happend (ps ps' : List Piece) : renderOf arch (ps ++ ps') = renderOf arch ps ++ renderOf arch ps' :=
    flatMap_append
  have hpercent : ∀ ps : List Piece, replicate (ps.takeWhile Piece.isPercent).length 37 =
      renderOf arch (ps.takeWhile Piece.isPercent) := by
    intro ps
    induction ps with
    | nil => rfl
    | cons p ps ih =>
      cases p with
      | percent => exact congrArg (37 :: ·) ih
      | _ => rfl
  rw [literal_textOf arch, percents_textOf, hpercent, behind, ← happend, takeWhile_append_dropWhile,
    ← happend, takeWhile_append_dropWhile]

theorem textOf_behind (arch : Arch) (ps : List Piece) :
    (percents (literal (textOf ps)).2).2 = textOf (behind ps) := by
  rw [literal_textOf arch, percents_textOf, behind]

theorem percents_length (s : List UInt8) : s.length = 2 * (percents s).1 + (percents s).2.length := by
  fun_induction percents s with
  | case1 s ih =>
    rw [length_cons, length_cons, ih]
    ring
  | case2 s h => simp

/-- The two loops take at least a byte of text for a byte of output. -/
theorem length_behind (arch : Arch) (ps : List Piece) :
    (literal (textOf ps)).1.length + (percents (literal (textOf ps)).2).1 + (textOf (behind ps)).length ≤
      (textOf ps).length := by
  have hpercents := percents_length (literal (textOf ps)).2
  have hliteral : (literal (textOf ps)).1.length + (literal (textOf ps)).2.length = (textOf ps).length := by
    rw [literal_eq, ← length_append, takeWhile_append_dropWhile]
  rw [textOf_behind arch] at hpercents
  omega

/-- A format of which the two loops read nothing begins with a conversion specification. -/
theorem eq_conv_of_front {ps : List Piece} (hps : ps ≠ [])
    (h : (literal (textOf ps)).1.length + (percents (literal (textOf ps)).2).1 = 0) :
    ∃ d ps', ps = .conv d :: ps' := by
  obtain ⟨hlit, hper⟩ := Nat.add_eq_zero_iff.mp h
  rw [literal_textOf .x86_64] at hlit hper
  cases ps with
  | nil => exact absurd rfl hps
  | cons p ps =>
    cases p with
    | literal c h => cases hlit
    | percent => cases hper
    | conv d => exact ⟨d, ps, rfl⟩

theorem textOf_eq_nil {ps : List Piece} : textOf ps = [] ↔ ps = [] := by
  cases ps with
  | nil => simp [textOf]
  | cons p ps => cases p <;> simp [textOf_cons, Piece.text]

/-- **The loop of `printf_core`** writes the pieces of the format that it has not read. -/
theorem printfLoop_ends (fuel : ℕ) : ∀ (ps : List Piece) (cnt l : ℕ) (out : List UInt8),
    (textOf ps).length < fuel → Ends (printfLoop arch fuel (textOf ps) cnt l (argsOf ps) out)
      (cnt + l + (renderOf arch ps).length) (out ++ renderOf arch ps) := by
  induction fuel with
  | zero => exact fun ps cnt l out h => absurd h (Nat.not_lt_zero _)
  | succ fuel ih =>
    intro ps cnt l out hfuel
    have hfront := renderOf_front arch ps
    have hbehind := length_behind arch ps
    have htext := textOf_behind arch ps
    have hconv := @eq_conv_of_front ps
    unfold printfLoop
    generalize literal (textOf ps) = a at *
    simp only
    generalize hz : percents a.2 = z at *
    split
    · rw [Ends, if_neg (by omega)]
      exact ⟨out, prefix_append _ _, rfl⟩
    · split
      · rename_i hnil
        obtain rfl := textOf_eq_nil.mp hnil
        have hfit : (cnt + l : ℤ) ≤ INT_MAX := by omega
        simp [Ends, renderOf, hfit]
      · rename_i hne
        have hlen := congrArg List.length hfront
        simp only [length_append, length_replicate] at hlen
        split
        · rw [Ends, if_neg (by omega)]
          exact ⟨out, prefix_append _ _, rfl⟩
        · split
          · rename_i hl
            -- literal bytes are written, and the loop goes on behind them
            have hrest := ih (behind ps) (cnt + l) (a.1.length + z.1) (out ++ a.1 ++ replicate z.1 37)
              (by omega)
            have hout : out ++ a.1 ++ replicate z.1 37 ++ renderOf arch (behind ps) =
                out ++ renderOf arch ps := by
              rw [← hfront, append_assoc, append_assoc]
            have hn : cnt + l + (a.1.length + z.1) + (renderOf arch (behind ps)).length =
                cnt + l + (renderOf arch ps).length := by omega
            rwa [argsOf_behind, ← htext, hout, hn] at hrest
          · rename_i hl
            obtain ⟨d, ps', rfl⟩ := hconv (mt textOf_eq_nil.mpr hne) (not_not.mp hl)
            have hs : textOf (.conv d :: ps') = 37 :: (d.text ++ textOf ps') := rfl
            have hout : out ++ a.1 ++ replicate z.1 37 = out := by
              obtain ⟨ha, hz0⟩ := Nat.add_eq_zero_iff.mp (not_not.mp hl)
              rw [List.length_eq_zero_iff.mp ha, hz0]
              simp
            have hno := d.no_position (textOf ps')
            simp only [hs, byte_succ, hno, if_false, drop_one, tail_cons, argsOf_cons, Piece.args,
              convert_eq, renderOf_cons, Piece.render, hout]
            by_cases hfit : ((cnt + l : ℕ) + (d.render arch).length : ℤ) ≤ INT_MAX
            · -- the field is written, and the loop goes on behind the specification
              have hrest := ih ps' (cnt + l) (d.render arch).length (out ++ d.render arch)
                (by rw [hs, length_cons, length_append] at hfuel; omega)
              rw [append_assoc, Nat.add_assoc (cnt + l), ← length_append] at hrest
              simpa only [if_pos hfit] using hrest
            · simp only [if_neg hfit]
              rw [Ends, if_neg (by rw [length_append]; omega)]
              exact ⟨out, prefix_append _ _, rfl⟩

/-- The numbers of a type. -/
def Ty.InRange (arch : Arch) (t : Ty) (v : ℤ) : Prop :=
  if t.signed then -2 ^ (t.bits arch - 1) ≤ v ∧ v < 2 ^ (t.bits arch - 1) else 0 ≤ v ∧ v < 2 ^ t.bits arch

/-- The conversion to a type keeps the numbers of the type. -/
theorem Directive.value_of_inRange {d : Directive} (h : (d.len.ty d.conv).InRange arch d.arg) :
    d.value arch = d.arg := by
  obtain ⟨n, hn⟩ := Nat.exists_eq_add_one_of_ne_zero (d.len.bits_pos d.conv arch).ne'
  unfold Ty.InRange at h
  unfold Directive.value Ty.convert
  rw [hn] at h ⊢
  split
  · rename_i hs
    rw [if_pos hs, Nat.add_sub_cancel] at h
    have hsize : ((2 ^ (n + 1) : ℕ) : ℤ) = 2 * 2 ^ n := by
      push_cast [pow_succ]
      ring
    apply Int.bmod_eq_of_le <;> (rw [hsize]; omega)
  · rename_i hs
    rw [if_neg hs] at h
    exact Int.emod_eq_of_lt h.1 h.2

/-- **Integers are written as the standard says**: a call of `printf_core` with a format of literal bytes, `%%` and
integer conversions writes the bytes that the format stands for and returns their number; if that is more than
`INT_MAX`, it fails with `EOVERFLOW`. The value of a conversion is its argument if that is a number of the type
that the length modifier says; for `j` these are all of `intmax_t` and `uintmax_t`. -/
theorem printfCore_renders (arch : Arch) (ps : List Piece) :
    Ends (printfCore arch (textOf ps) (argsOf ps)) (renderOf arch ps).length (renderOf arch ps) ∧
      ∀ d, Piece.conv d ∈ ps → (d.len.ty d.conv).InRange arch d.arg → d.value arch = d.arg := by
  constructor
  · have h := printfLoop_ends arch ((textOf ps).length + 1) ps 0 0 [] (Nat.lt_succ_self _)
    rwa [Nat.zero_add] at h
  · exact fun d _ hd => d.value_of_inRange arch hd

/-- `"%#06x"` writes 255 as `0x00ff`. -/
example : printfCore .x86_64 [37, 35, 48, 54, 120] [255] = some (.count 6, [48, 120, 48, 48, 102, 102]) := by
  decide

end Leblibc.Printf
