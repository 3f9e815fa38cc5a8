import Leblibc.Stdio.PrintfCorrect
import Leblibc.Time.Strftime

/-!
# The texts of `strftime`

What `strftime` writes for a single conversion, where it calls `snprintf` for a number, and how the loop comes to it.

## Main results

* `number_eq`: the label `number` of `__strftime_fmt_1`
* `strftimeLoop_conv`: a conversion without flags and width
-/

namespace Leblibc.Time

open Printf (Directive Spec INT_MAX)

/-! ## Numbers -/

/-- A number in decimal, with zeros between its sign and its digits for the given width. -/
def padded (width : ℕ) (val : ℤ) : List UInt8 := Printf.Spec.render ⟨false, false, false, false, true, width, none⟩ .d val

variable (arch : Arch)

theorem snprintf_eq {fmt : String} {args : List ℤ} (ps : List Printf.Piece)
    (hfmt : ascii fmt = Printf.textOf ps) (hargs : args = Printf.argsOf ps)
    (hlen : ((Printf.renderOf arch ps).length : ℤ) ≤ INT_MAX) :
    snprintf arch fmt args = some (Printf.renderOf arch ps) := by
  have hends := Printf.printfLoop_ends arch ((Printf.textOf ps).length + 1) ps 0 0 [] (Nat.lt_succ_self _)
  rw [Printf.Ends, Nat.zero_add, List.nil_append, if_pos hlen] at hends
  unfold snprintf Printf.printfCore
  rw [hfmt, hargs, hends]

/-- The digits of a number, at least one. -/
def decimal (n : ℕ) : List UInt8 :=
  List.replicate (1 - (Printf.digitsOf 10 false n).length) 48 ++ Printf.digitsOf 10 false n

/-- The sign of a number. -/
def minus (val : ℤ) : List UInt8 := if val < 0 then [45] else []

theorem padded_eq (width : ℕ) (val : ℤ) : padded width val =
    minus val ++ List.replicate (width - ((minus val).length + (decimal val.natAbs).length)) 48 ++ decimal val.natAbs :=
  rfl

variable {val : ℤ} {w : ℕ} {x : UInt8} {t : List UInt8}

theorem length_decimal_le (hval : IsLlong val) : (decimal val.natAbs).length ≤ 19 := by
  have hlen : (Printf.digitsOf 10 false val.natAbs).length ≤ 19 := by
    rw [Printf.length_digitsOf]
    unfold IsLlong at hval
    exact (Nat.digits_length_le_iff (by decide) _).mpr (by omega)
  rw [decimal, List.length_append, List.length_replicate]
  omega

theorem length_minus_le (val : ℤ) : (minus val).length ≤ 1 := by
  unfold minus
  split <;> simp

theorem length_padded_le (width : ℕ) (hval : IsLlong val) : (padded width val).length ≤ width + 20 := by
  have hlen := length_decimal_le hval
  have hsign := length_minus_le val
  rw [padded_eq, List.length_append, List.length_append, List.length_replicate]
  omega

theorem convert_llong (hval : IsLlong val) : Printf.Ty.llong.convert arch val = val := by
  unfold IsLlong at hval
  exact Int.bmod_eq_of_le (show -(((2 ^ 64 : ℕ) : ℤ) / 2) ≤ val by omega)
    (show val < (((2 ^ 64 : ℕ) : ℤ) + 1) / 2 by omega)

/-- **The label `number`**, with zeros for padding. -/
theorem number_eq {width : ℕ} (hwidth : width ≤ 4) (hval : IsLlong val) :
    number arch val width '0' = some (padded width val) := by
  have hstar : (Printf.Width.star width).Valid := ⟨by have := hwidth; unfold INT_MAX; omega, by unfold INT_MAX; omega⟩
  have hrender : Printf.renderOf arch [.conv ⟨[.zero], .star width, .absent, .ll, .d, val, hstar, trivial⟩] =
      padded width val := by
    rw [show Printf.renderOf arch [.conv ⟨[.zero], .star width, .absent, .ll, .d, val, hstar, trivial⟩] =
      Spec.render ⟨decide (Printf.Flag.minus ∈ [Printf.Flag.zero] ∨ (Printf.Width.star width).negative = true), false, false,
        false, true, (width : ℤ).natAbs, none⟩ .d (Printf.Ty.llong.convert arch val) ++ [] from rfl]
    rw [convert_llong arch hval, List.append_nil]
    rfl
  have hlen := length_padded_le width hval
  rw [← hrender] at hlen ⊢
  exact snprintf_eq arch _ rfl rfl (by unfold INT_MAX; omega)

/-! ## The loop -/

/-- A letter that is no flag, digit or modifier. -/
def Plain (x : UInt8) : Prop := isdigit x = false ∧ letter x ∉ ['-', '_', '0', '+', 'E', 'O']

instance (x : UInt8) : Decidable (Plain x) := inferInstanceAs (Decidable (_ ∧ _))

theorem parseField_plain (hx : Plain x) (f : List UInt8) :
    parseField arch (x :: f) = ⟨none, false, 0, letter x, f⟩ := by
  obtain ⟨hdigit, hletter⟩ := hx
  have hpeek : peek (x :: f) = letter x := rfl
  have hhead : (x :: f).headD 0 = x := rfl
  simp only [List.mem_cons, not_or] at hletter
  obtain ⟨h1, h2, h3, h4, h5, h6⟩ := hletter
  unfold parseField
  rw [hpeek, if_neg (by simp [h1, h2, h3])]
  dsimp only
  rw [hpeek, if_neg h4]
  rw [hhead, hdigit, if_neg (show ¬ false = true by decide)]
  rw [hpeek, if_neg (show ¬ (0 = 0 ∧ false = true) by decide), ite_self, if_neg (by simp [h5, h6])]
  rfl

section Loop

variable {loc : Locale} {tm : Tm} {recu : List UInt8 → Option Result} {n fuel : ℕ} {f out : List UInt8}

theorem strftimeLoop_nil (h : out.length < n) :
    strftimeLoop loc tm recu n (fuel + 1) [] out = some ⟨out.length, some out⟩ := by
  rw [strftimeLoop, if_pos h]

/-- A conversion without flags and width, when there is room for its text. -/
theorem strftimeLoop_conv (hx : Plain x)
    (ht : strftimeFmt1 loc tm recu (letter x) none = some (some t)) (h : (out ++ t).length < n) :
    strftimeLoop loc tm recu n (fuel + 1) (37 :: x :: f) out = strftimeLoop loc tm recu n fuel f (out ++ t) := by
  have hout : out.length < n := by
    rw [List.length_append] at h
    omega
  rw [strftimeLoop, if_pos hout]
  dsimp only
  rw [parseField_plain loc.arch hx]
  rw [ht]
  show strftimeLoop loc tm recu n fuel f (store tm n ⟨none, false, 0, letter x, f⟩ out t) = _
  rw [store, if_pos rfl, List.take_of_length_le h.le]

theorem strftimeFmt1_number {c : Char} {v : ℤ} (hswitch : fmtSwitch loc tm c = some (.number v w '0'))
    (hwidth : w ≤ 4) (hval : IsLlong v) : strftimeFmt1 loc tm recu c none = some (some (padded w v)) := by
  unfold strftimeFmt1
  rw [hswitch]
  show (number loc.arch v w '0').bind (fun s => some (some s)) = _
  rw [number_eq loc.arch hwidth hval]
  rfl

end Loop

end Leblibc.Time
