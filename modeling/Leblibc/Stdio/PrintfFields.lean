import Leblibc.Stdio.PrintfParse

/-!
# The fields of `printf_core`

What a conversion counts is the length of its field, and what it writes has this length. There is one exception: a
wide conversion with the flag `0` writes no padding, but counts it, since `pad` does nothing with this flag and the
`switch` takes it back for `c` and `s` only.

## Main results

* `emitField_spec`: what is written after the `switch`
* `convert_spec`: what a conversion counts and what it writes
-/

namespace Leblibc.Printf.Core

/-! ## Fields -/

/-- The end of a conversion, against the length of its field without a limit: what is counted is the length, and what is
written too, unless `bad`; with an overflow the output would become too long. -/
inductive Agrees (cnt : ℤ) (bad : Prop) : Except Stop (ℤ × List (List UInt8)) → Except Stop ℤ → Prop
  | ok {l : ℤ} {ps : List (List UInt8)} (hl : 0 ≤ l ∧ l ≤ INT_MAX) (hle : size ps ≤ l)
      (heq : (size ps : ℤ) = l ↔ ¬ bad) : Agrees cnt bad (.ok (l, ps)) (.ok l)
  | overflow {n : Except Stop ℤ} (h : ∀ N, n = .ok N → INT_MAX < cnt + N) :
      Agrees cnt bad (.error (.err .EOVERFLOW)) n
  | stuck {e : Stop} {n : Except Stop ℤ} (he : e = .err .EILSEQ ∨ e = .fault .caller) (h : ∀ N, n ≠ .ok N) :
      Agrees cnt bad (.error e) n

variable {cnt w : ℤ} {fl : BitVec 32} {i : ℕ} {loc : Locale} {p : ℕ} {ws : List ℕ}

/-- **The output after the `switch`** fills the field. -/
theorem emitField_spec (hcnt : 0 ≤ cnt ∧ cnt ≤ INT_MAX) (hw : 0 ≤ w ∧ w ≤ INT_MAX) {q : Field}
    (hsign : q.sign.length ≤ 2) (hfl : Adjusted q.fl) :
    Agrees cnt False (emitField cnt w q) (.ok (max w (q.sign.length + max q.p q.digits.length))) := by
  unfold emitField
  have hp : (if q.p < q.digits.length then (q.digits.length : ℤ) else q.p) = max q.p q.digits.length := by
    split <;> omega
  dsimp only
  rw [hp]
  generalize hP : max q.p (q.digits.length : ℤ) = p
  unfold INT_MAX at *
  rw [ck_of_isInt (show IsInt (2147483647 - (q.sign.length : ℤ)) from ⟨by omega, by omega⟩), lift_ok, ok_bind]
  by_cases hbig : p > 2147483647 - (q.sign.length : ℤ)
  · rw [if_pos hbig]
    refine .overflow fun N hN => ?_
    cases hN
    unfold INT_MAX
    omega
  · rw [if_neg hbig, ck_of_isInt (show IsInt ((q.sign.length : ℤ) + p) from ⟨by omega, by omega⟩), lift_ok, ok_bind,
      ck_of_isInt (show IsInt (2147483647 - cnt) from ⟨by omega, by omega⟩), lift_ok, ok_bind]
    have hmax : (if w < q.sign.length + p then (q.sign.length + p : ℤ) else w) = max w (q.sign.length + p) := by
      split <;> omega
    rw [hmax]
    generalize hW : max w ((q.sign.length : ℤ) + p) = w'
    split_ifs with hroom
    · refine .overflow fun N hN => ?_
      cases hN
      unfold INT_MAX
      omega
    · have hw' : w' ≤ INT_MAX := by
        unfold INT_MAX
        omega
      obtain ⟨before, zeros, after, h1, h2, h3, hsize⟩ :=
        pads_spec hw' (show 0 ≤ (q.sign.length : ℤ) + p by omega) hfl
      obtain ⟨digits, h4, hdigits⟩ :=
        pad_spec 48 (show p ≤ INT_MAX by unfold INT_MAX; omega) (show 0 ≤ (q.digits.length : ℤ) by omega) 0#32
      rw [if_neg (by decide)] at hdigits
      rw [h1, h2, h4, h3]
      have htotal : (size (before ++ [q.sign] ++ zeros ++ digits ++ [q.digits] ++ after) : ℤ) = w' := by
        simp only [size_append, size_cons, size_nil]
        omega
      exact .ok ⟨by omega, hw'⟩ htotal.le (iff_of_true htotal not_false)

/-! ## Integers -/

theorem ifmtTail_spec (arg : ℕ) (digits sign : List UInt8) (p : ℤ) (xp : Bool) (hfl : Adjusted fl) :
    ifmtTail arg digits sign p xp fl = .error .overflow ∨
      ∃ q, ifmtTail arg digits sign p xp fl = .ok q ∧ q.sign = sign ∧ Adjusted q.fl := by
  unfold ifmtTail
  have hfl' : Adjusted (if xp = true then fl &&& ~~~ZERO_PAD else fl) := by
    split
    · exact hfl.clear
    · exact hfl
  split
  · exact Or.inl rfl
  · dsimp only
    split
    · exact Or.inr ⟨_, rfl, rfl, hfl'⟩
    · exact Or.inr ⟨_, rfl, rfl, hfl'⟩

theorem length_prefixAt_le (off pl : ℕ) : (prefixAt off pl).length ≤ pl := by
  unfold prefixAt
  rw [List.length_take]
  exact Nat.min_le_left ..

theorem signPart_spec {arg : ℕ} (harg : arg < uintmaxSize) (fl : BitVec 32) :
    (signPart arg fl).1 < uintmaxSize ∧ (signPart arg fl).2.2 ≤ 2 := by
  unfold signPart
  split
  · exact ⟨Nat.mod_lt _ (by decide), Nat.le_succ 1⟩
  · split
    · exact ⟨harg, Nat.le_succ 1⟩
    · split
      · exact ⟨harg, Nat.le_succ 1⟩
      · exact ⟨harg, Nat.zero_le 2⟩

/-- **The integer conversions** have room in the buffer. -/
theorem ifmt_spec (arch : Arch) (t : UInt8) {arg : ℕ} (harg : arg < uintmaxSize) (p : ℤ) (xp : Bool)
    (hfl : Adjusted fl) :
    ifmt arch t arg p xp fl = some (.error .overflow) ∨
      ∃ q, ifmt arch t arg p xp fl = some (.ok q) ∧ q.sign.length ≤ 2 ∧ Adjusted q.fl := by
  -- what is left to do when the digits are there
  have htail (arg : ℕ) (digits sign : List UInt8) (hsign : sign.length ≤ 2) (p : ℤ) :
      some (ifmtTail arg digits sign p xp fl) = some (.error .overflow) ∨
        ∃ q, some (ifmtTail arg digits sign p xp fl) = some (.ok q) ∧ q.sign.length ≤ 2 ∧ Adjusted q.fl := by
    rcases ifmtTail_spec arg digits sign p xp hfl with h | ⟨q, h, hq, hadj⟩
    · exact Or.inl (congrArg some h)
    · exact Or.inr ⟨q, congrArg some h, hq ▸ hsign, hadj⟩
  have hx : arg < 16 ^ bufSize := harg.trans_le (by decide)
  have ho : arg < 8 ^ bufSize := harg.trans_le (by decide)
  have hu : ∀ v < uintmaxSize, v < 10 ^ bufSize := fun v hv => hv.trans_le (by decide)
  unfold ifmt
  split
  · rename_i ht
    have hcase : ∃ upper : Bool, (t &&& 32) = if upper then 0 else 32 := by
      rcases ht with rfl | rfl
      · exact ⟨false, rfl⟩
      · exact ⟨true, rfl⟩
    obtain ⟨upper, hup⟩ := hcase
    rw [hup, fmtX_eq upper _ _ hx]
    refine htail _ _ _ ((length_prefixAt_le _ _).trans ?_) _
    split <;> decide
  · split
    · rw [fmtO_eq _ _ ho]
      exact htail _ _ _ (by decide) _
    · split
      · rw [fmtU_eq _ _ _ (hu arg harg)]
        exact htail _ _ _ (by decide) _
      · obtain ⟨hlt, hpl⟩ := signPart_spec harg fl
        dsimp only
        rw [fmtU_eq _ _ _ (hu _ hlt)]
        exact htail _ _ _ ((length_prefixAt_le _ _).trans hpl) _

theorem Adjusted.alt (hfl : Adjusted fl) : Adjusted (fl ||| ALT_FORM) := by
  unfold Adjusted at *
  rw [BitVec.getLsbD_or, BitVec.getLsbD_or, show ALT_FORM.getLsbD 13 = false by decide,
    show ALT_FORM.getLsbD 16 = false by decide, Bool.or_false, Bool.or_false]
  exact hfl

/-- What the `switch` leaves for an integer conversion, `p` among them. -/
def intField (arch : Arch) (t : UInt8) (v : ℕ) (p : ℤ) (xp : Bool) (fl : BitVec 32) : Option (Except Result Field) :=
  if t = 112 then ifmt arch 120 v (ptrPrec arch p) xp (fl ||| ALT_FORM) else ifmt arch t v p xp fl

/-- The length of the field of an integer. -/
def intSize (arch : Arch) (t : UInt8) (v : ℕ) (w p : ℤ) (xp : Bool) (fl : BitVec 32) : Except Stop ℤ :=
  match intField arch t v p xp fl with
  | some (.ok q) => .ok (max w (q.sign.length + max q.p q.digits.length))
  | _ => .error (.err .EOVERFLOW)

theorem convertInt_spec (arch : Arch) (hcnt : 0 ≤ cnt ∧ cnt ≤ INT_MAX) (hw : 0 ≤ w ∧ w ≤ INT_MAX) (t : UInt8)
    {v : ℕ} (hv : v < uintmaxSize) (p : ℤ) (xp : Bool) (hfl : Adjusted fl) :
    Agrees cnt False (convertInt arch cnt t v w p xp fl) (intSize arch t v w p xp fl) := by
  have hfield : intField arch t v p xp fl = some (.error .overflow) ∨
      ∃ q, intField arch t v p xp fl = some (.ok q) ∧ q.sign.length ≤ 2 ∧ Adjusted q.fl := by
    unfold intField
    split
    · exact ifmt_spec arch 120 hv _ xp hfl.alt
    · exact ifmt_spec arch t hv p xp hfl
  unfold convertInt intSize
  rw [show (if t = 112 then ifmt arch 120 v (ptrPrec arch p) xp (fl ||| ALT_FORM) else ifmt arch t v p xp fl) =
    intField arch t v p xp fl from rfl]
  rcases hfield with h | ⟨q, h, hsign, hadj⟩
  · rw [h]
    exact .overflow fun N hN => by cases hN
  · rw [h]
    exact emitField_spec hcnt hw hsign hadj

/-! ## Characters and strings -/

theorem convertChar_spec (hcnt : 0 ≤ cnt ∧ cnt ≤ INT_MAX) (hw : 0 ≤ w ∧ w ≤ INT_MAX) (v : ℤ)
    (hfl : Adjusted fl) : Agrees cnt False (convertChar cnt v w fl) (.ok (max w 1)) :=
  emitField_spec hcnt hw (Nat.zero_le 2) hfl.clear

/-- The length of a string up to a precision; without one, the string has to end. -/
def strLength (a : List UInt8) (p : ℤ) : Except Fault ℕ := strnlen a (if p < 0 then a.length + 1 else p.toNat)

section Length

variable {α : Type} [DecidableEq α] {z : α}

/-- The number of elements before the first one that is `z`. -/
def lengthTo (z : α) (a : List α) : ℕ := (a.takeWhile (· ≠ z)).length

theorem lengthTo_le (z : α) (a : List α) : lengthTo z a ≤ a.length := (List.takeWhile_prefix _).length_le

theorem lengthTo_cons (z c : α) (a : List α) : lengthTo z (c :: a) = if c = z then 0 else lengthTo z a + 1 := by
  by_cases hc : c = z <;> simp [lengthTo, hc]

/-- **The length up to a limit**: an object without `z` has to reach it. -/
theorem lengthUpTo_eq (z : α) (a : List α) (k : ℕ) :
    lengthUpTo z a k = if lengthTo z a = a.length ∧ a.length < k then .error .caller else .ok (min k (lengthTo z a)) := by
  induction a generalizing k with
  | nil =>
    cases k with
    | zero => rfl
    | succ k => rw [lengthUpTo, if_pos ⟨rfl, Nat.succ_pos k⟩]
  | cons c a ih =>
    cases k with
    | zero => rw [lengthUpTo, if_neg (by omega), Nat.zero_min]
    | succ k =>
      simp only [lengthUpTo, lengthTo_cons, ih, List.length_cons]
      split_ifs <;> first | omega | rfl | rw [Nat.succ_min_succ]; rfl | simp_all

theorem get_lengthTo {a : List α} (h : lengthTo z a < a.length) : a[lengthTo z a]? = some z := by
  induction a with
  | nil => exact absurd h (Nat.not_lt_zero _)
  | cons c a ih =>
    rw [lengthTo_cons, List.length_cons] at h
    rw [lengthTo_cons]
    split_ifs at h ⊢ with hc
    · rw [hc]
      rfl
    · exact ih (by omega)

theorem get_lt_lengthTo {a : List α} (h : i < lengthTo z a) : ∃ c, a[i]? = some c ∧ c ≠ z := by
  induction a generalizing i with
  | nil => exact absurd h (Nat.not_lt_zero _)
  | cons c a ih =>
    rw [lengthTo_cons] at h
    split_ifs at h with hc
    · exact absurd h (Nat.not_lt_zero _)
    · cases i with
      | zero => exact ⟨c, rfl, hc⟩
      | succ i => exact ih (by omega)

end Length

/-- The length of the field of a string. -/
def strSize (a : List UInt8) (w p : ℤ) : Except Stop ℤ := do
  let n ← lift (strLength a p)
  .ok (max w n)

theorem convertStr_spec (hcnt : 0 ≤ cnt ∧ cnt ≤ INT_MAX) (hw : 0 ≤ w ∧ w ≤ INT_MAX) (a : List UInt8)
    (p : ℤ) (hfl : Adjusted fl) :
    Agrees cnt False (convertStr cnt a w p fl) (strSize a w p) := by
  have hle := lengthTo_le 0 a
  -- the output, once the length is known
  have hemit (n : ℕ) (hn : n ≤ a.length) :
      Agrees cnt False (emitField cnt w ⟨a.take n, [], n, fl &&& ~~~ZERO_PAD⟩) (.ok (max w n)) := by
    have h := emitField_spec (q := ⟨a.take n, [], n, fl &&& ~~~ZERO_PAD⟩) hcnt hw (Nat.zero_le 2) hfl.clear
    rw [show max w ((([] : List UInt8).length : ℤ) + max (n : ℤ) ((a.take n).length : ℤ)) = max w n by
      rw [List.length_take, min_eq_left hn, max_self, List.length_nil, Nat.cast_zero, zero_add]] at h
    exact h
  unfold convertStr strSize strLength
  rw [strnlen, lengthUpTo_eq, lengthUpTo_eq]
  by_cases hp : p < 0
  · rw [if_pos hp, if_pos hp]
    rcases hle.lt_or_eq with hlt | heq
    · -- the string ends
      rw [if_neg (by omega), if_neg (by omega), min_eq_right (show lengthTo 0 a ≤ a.length + 1 by omega)]
      simp only [lift_ok, ok_bind]
      rw [if_pos hp]
      by_cases hlong : INT_MAX.toNat < lengthTo 0 a
      · obtain ⟨c, hget, hc⟩ := get_lt_lengthTo hlong
        rw [min_eq_left hlong.le, hget]
        simp only [lift_ok, ok_bind]
        rw [if_pos (decide_eq_true hc)]
        refine .overflow fun N hN => ?_
        cases hN
        omega
      · rw [min_eq_right (by omega), get_lengthTo hlt]
        exact hemit _ hle
    · -- it does not
      rw [if_pos (show lengthTo 0 a = a.length ∧ a.length < a.length + 1 from ⟨heq, Nat.lt_succ_self _⟩)]
      have hnone : ∀ N : ℤ, (lift (.error .caller : Except Fault ℕ) >>= fun n => .ok (max w n)) ≠
          (.ok N : Except Stop ℤ) := fun N hN => by cases hN
      by_cases hlong : a.length < INT_MAX.toNat
      · rw [if_pos ⟨heq, hlong⟩]
        exact .stuck (Or.inr rfl) hnone
      · rw [if_neg (by omega)]
        simp only [lift_ok, ok_bind]
        rw [if_pos hp, min_eq_left (by omega)]
        by_cases hlast : INT_MAX.toNat < lengthTo 0 a
        · obtain ⟨c, hget, hc⟩ := get_lt_lengthTo hlast
          rw [hget]
          simp only [lift_ok, ok_bind]
          rw [if_pos (decide_eq_true hc)]
          exact .overflow fun N hN => absurd hN (hnone N)
        · rw [List.getElem?_eq_none (by omega)]
          exact .stuck (Or.inr rfl) hnone
  · rw [if_neg hp, if_neg hp]
    by_cases hend : lengthTo 0 a = a.length ∧ a.length < p.toNat
    · rw [if_pos hend]
      exact .stuck (Or.inr rfl) fun N hN => by cases hN
    · rw [if_neg hend]
      simp only [lift_ok, ok_bind]
      rw [if_neg hp]
      exact hemit _ ((min_le_right _ _).trans hle)

/-! ## Wide characters -/

theorem le_wideLength {n : ℕ} (h : wideLength loc p ws i = .ok n) : i ≤ n := by
  fun_induction wideLength loc p ws i with
  | case5 c ws i hi hc mb hmb hle ih => exact (Nat.le_add_right ..).trans (ih h)
  | _ => cases h <;> exact le_rfl

theorem wideLength_error {e : Stop} (h : wideLength loc p ws i = .error e) :
    e = .err .EILSEQ ∨ e = .fault .caller := by
  fun_induction wideLength loc p ws i with
  | case5 c ws i hi hc mb hmb hle ih => exact ih h
  | _ => cases h <;> simp

/-- **The second loop over a wide string** writes as much as the first one has counted. -/
theorem wideOut_spec {n : ℕ} (h : wideLength loc p ws i = .ok n) :
    ∃ ps, wideOut loc n ws i = .ok ps ∧ size ps = n - i := by
  -- where the first loop ends, the second one has written all
  have hend (ws : List ℕ) : ∃ ps, wideOut loc n ws n = .ok ps ∧ size ps = n - n := by
    refine ⟨[], ?_, by simp⟩
    cases ws <;> rw [wideOut, if_neg (lt_irrefl n)]
  fun_induction wideLength loc p ws i with
  | case5 c ws i hi hc mb hmb hle ih =>
    obtain ⟨ps, hps, hsize⟩ := ih h
    have hle := le_wideLength h
    have hpos := loc.length_pos c mb hmb
    rw [wideOut, if_pos (by omega), if_neg hc, hmb]
    dsimp only
    rw [if_pos hle, hps]
    refine ⟨mb :: ps, rfl, ?_⟩
    rw [size_cons]
    omega
  | _ => cases h <;> exact hend _

/-- The length of the field of a wide string. -/
def wideSize (arch : Arch) (loc : Locale) (ws : List ℕ) (w p : ℤ) : Except Stop ℤ := do
  let i ← wideLength loc (p % 2 ^ arch.bits).toNat ws 0
  .ok (max w i)

theorem convertWide_spec (arch : Arch) (loc : Locale) (hcnt : 0 ≤ cnt) (hw : 0 ≤ w ∧ w ≤ INT_MAX)
    (ws : List ℕ) (p : ℤ) :
    Agrees cnt (∃ i, has fl ZERO_PAD = true ∧ wideLength loc (p % 2 ^ arch.bits).toNat ws 0 = .ok i ∧ i < w)
      (convertWide arch loc ws w p fl) (wideSize arch loc ws w p) := by
  unfold convertWide wideSize
  cases hrun : wideLength loc (p % 2 ^ arch.bits).toNat ws 0 with
  | error e => exact .stuck (wideLength_error hrun) fun N hN => by cases hN
  | ok i =>
    simp only [ok_bind]
    by_cases hbig : (i : ℤ) > INT_MAX
    · rw [if_pos hbig]
      refine .overflow fun N hN => ?_
      cases hN
      omega
    · rw [if_neg hbig]
      obtain ⟨before, h1, hsize1⟩ := pad_spec 32 hw.2 (show (0 : ℤ) ≤ i by omega) fl
      obtain ⟨chars, h2, hsize2⟩ := wideOut_spec hrun
      obtain ⟨after, h3, hsize3⟩ := pad_spec 32 hw.2 (show (0 : ℤ) ≤ i by omega) (fl ^^^ LEFT_ADJ)
      rw [h1, h2, h3]
      have hmax : (if w > i then w else (i : ℤ)) = max w i := by
        split <;> omega
      rw [hmax]
      rw [has_pad] at hsize1
      rw [has_pad_left] at hsize3
      have hsize : (size (before ++ chars ++ after) : ℤ) = if has fl ZERO_PAD then (i : ℤ) else max w i := by
        rw [has_zero]
        cases hleft : fl.getLsbD 13 <;> cases hzero : fl.getLsbD 16 <;> simp_all <;> omega
      refine .ok ⟨by omega, by omega⟩ ?_ ?_
      · rw [hsize]
        split <;> omega
      · rw [hsize]
        constructor
        · rintro h ⟨j, hzero, hj, hlt⟩
          cases hj
          rw [if_pos hzero] at h
          omega
        · intro h
          split
          · rename_i hzero
            have hge : ¬ (i : ℤ) < w := fun hlt => h ⟨i, hzero, rfl, hlt⟩
            omega
          · rfl

/-! ## Floating-point numbers -/

/-- The length of the field of a floating-point number. -/
def floatSize (env : Env) (x : LongDouble env.L) (t : UInt8) (w p : ℤ) (xp : Bool) (fl : BitVec 32) :
    Except Stop ℤ :=
  if xp ∧ p < 0 then .error (.err .EOVERFLOW) else lift (fpSize env.L env.arch env.mode x w p fl t)

variable (env : Env)

theorem convertFp_spec (hcnt : 0 ≤ cnt) (hw : 0 ≤ w ∧ w ≤ INT_MAX) (x : LongDouble env.L)
    {t : UInt8} {p : ℤ} (hp : IsInt p) (xp : Bool) (hfl : Adjusted fl) (hsmall : isLetter t 97 = true ∨ p ≤ fpPrecMax) :
    Agrees cnt False (convertFp env x t w p xp fl) (floatSize env x t w p xp fl) := by
  unfold convertFp floatSize
  by_cases hover : xp = true ∧ p < 0
  · rw [if_pos hover, if_pos hover]
    exact .overflow fun N hN => by cases hN
  · rw [if_neg hover, if_neg hover]
    obtain ⟨o, n, hrun, hsize, hcount⟩ := fmtFp_spec env.L env.arch env.mode x hw.2 hp hfl t hsmall
    rw [hrun, hsize]
    cases o with
    | none =>
      refine .overflow fun N hN => ?_
      cases hN
      have : INT_MAX < n := hcount
      omega
    | some q =>
      obtain ⟨k, ps⟩ := q
      obtain ⟨hk, hlen, hle⟩ : k = n ∧ k = size ps ∧ k ≤ INT_MAX := hcount
      subst hk
      exact .ok ⟨by omega, hle⟩ hlen.symm.le (iff_of_true hlen.symm not_false)

/-! ## All conversions -/

/-- The length of the field of a conversion, without a limit. -/
def fieldSize (env : Env) (sp : Spec env.L) : Except Stop ℤ :=
  if sp.t = 110 then .ok 0
  else if sp.t = 109 then strSize env.errmsg sp.w sp.p
  else if sp.t ∈ fpLetters then
    match sp.arg with
    | some (.fp x) => floatSize env x sp.t sp.w sp.p sp.xp sp.fl
    | _ => .error (.fault .caller)
  else if sp.t = 115 then
    match sp.arg with
    | some (.str a) => strSize (a.getD nullText) sp.w sp.p
    | _ => .error (.fault .caller)
  else if sp.t = 83 then
    match sp.arg with
    | some (.wstr ws) => wideSize env.arch env.locale ws sp.w sp.p
    | _ => .error (.fault .caller)
  else match sp.arg with
    | some (.num v) =>
      if sp.t = 99 ∨ sp.t = 67 ∧ v = 0 then .ok (max sp.w 1)
      else if sp.t = 67 then wideSize env.arch env.locale [(v % 4294967296).toNat, 0] sp.w (-1)
      else intSize env.arch sp.t v.toNat sp.w sp.p sp.xp sp.fl
    | _ => .error (.fault .caller)

/-- A wide conversion: its characters and its precision. -/
def Spec.wide {L : LdblFormat} (sp : Spec L) : Option (List ℕ × ℤ) :=
  if sp.t = 83 then
    match sp.arg with
    | some (.wstr ws) => some (ws, sp.p)
    | _ => none
  else if sp.t = 67 then
    match sp.arg with
    | some (.num v) => if v = 0 then none else some ([(v % 4294967296).toNat, 0], -1)
    | _ => none
  else none

/-- A wide conversion with the flag `0` whose characters do not fill the field. -/
def Spec.Unpadded (env : Env) (sp : Spec env.L) : Prop :=
  ∃ ws p i, sp.wide = some (ws, p) ∧ has sp.fl ZERO_PAD = true ∧
    wideLength env.locale (p % 2 ^ env.arch.bits).toNat ws 0 = .ok i ∧ i < sp.w

/-- The precision of a conversion in decimal digits is not almost `INT_MAX`. -/
def Spec.SmallPrec {L : LdblFormat} (sp : Spec L) : Prop :=
  sp.t ∈ fpLetters → isLetter sp.t 97 = true ∨ sp.p ≤ fpPrecMax

theorem Spec.not_unpadded {sp : Spec env.L} (h : sp.wide = none) : ¬ sp.Unpadded env := by
  rintro ⟨ws, p, i, hwide, -⟩
  rw [h] at hwide
  cases hwide

theorem Spec.unpadded_iff {sp : Spec env.L} {p : ℤ} (h : sp.wide = some (ws, p)) :
    sp.Unpadded env ↔ ∃ i, has sp.fl ZERO_PAD = true ∧
      wideLength env.locale (p % 2 ^ env.arch.bits).toNat ws 0 = .ok i ∧ i < sp.w := by
  constructor
  · rintro ⟨ws', p', i, hwide, hi⟩
    rw [h] at hwide
    cases hwide
    exact ⟨i, hi⟩
  · rintro ⟨i, hi⟩
    exact ⟨ws, p, i, h, hi⟩

theorem Agrees.congr {bad bad' : Prop} {r : Except Stop (ℤ × List (List UInt8))} {n : Except Stop ℤ}
    (h : Agrees cnt bad r n) (hbad : bad' ↔ bad) : Agrees cnt bad' r n := propext hbad ▸ h

/-- **A conversion** counts the length of its field, and writes as much, unless padding is left out. -/
theorem convert_spec (hcnt : 0 ≤ cnt ∧ cnt ≤ INT_MAX) {sp : Spec env.L} (hsp : sp.Valid)
    (hsmall : sp.SmallPrec) : Agrees cnt (sp.Unpadded env) (convert env cnt sp) (fieldSize env sp) := by
  obtain ⟨⟨hw, hp, harg⟩, hfl⟩ := hsp
  have hcaller : Agrees cnt (sp.Unpadded env) (.error (.fault .caller)) (.error (.fault .caller)) :=
    .stuck (Or.inr rfl) nofun
  -- only wide conversions can leave padding out
  have hnarrow {r : Except Stop (ℤ × List (List UInt8))} {n : Except Stop ℤ} (hwide : sp.wide = none)
      (h : Agrees cnt False r n) : Agrees cnt (sp.Unpadded env) r n :=
    h.congr (iff_of_false (Spec.not_unpadded env hwide) not_false)
  have hnone (h1 : sp.t ≠ 83) (h2 : sp.t ≠ 67) : sp.wide = none := by
    rw [Spec.wide, if_neg h1, if_neg h2]
  have hletter {c : UInt8} (ht : sp.t = c) (h : c ≠ 83 ∧ c ≠ 67) : sp.wide = none :=
    hnone (ht ▸ h.1) (ht ▸ h.2)
  unfold convert fieldSize
  by_cases hn : sp.t = 110
  · rw [if_pos hn, if_pos hn]
    exact hnarrow (hletter hn (by decide)) (.ok (by decide) (by decide) (iff_of_true rfl not_false))
  rw [if_neg hn, if_neg hn]
  by_cases hm : sp.t = 109
  · rw [if_pos hm, if_pos hm]
    exact hnarrow (hletter hm (by decide)) (convertStr_spec hcnt hw _ _ hfl)
  rw [if_neg hm, if_neg hm]
  by_cases hfp : sp.t ∈ fpLetters
  · rw [if_pos hfp, if_pos hfp]
    have hwide : sp.wide = none :=
      hnone (fun h => absurd (h ▸ hfp) (by decide)) (fun h => absurd (h ▸ hfp) (by decide))
    rcases sp.arg with _ | _ | _ | _ | _ | x
    case some.fp => exact hnarrow hwide (convertFp_spec env hcnt.1 hw x hp _ hfl (hsmall hfp))
    all_goals exact hcaller
  rw [if_neg hfp, if_neg hfp]
  by_cases hs : sp.t = 115
  · rw [if_pos hs, if_pos hs]
    rcases sp.arg with _ | _ | s | _ | _ | _
    case some.str => exact hnarrow (hletter hs (by decide)) (convertStr_spec hcnt hw _ _ hfl)
    all_goals exact hcaller
  rw [if_neg hs, if_neg hs]
  by_cases hS : sp.t = 83
  · rw [if_pos hS, if_pos hS]
    rcases ha : sp.arg with _ | _ | _ | ws | _ | _
    case some.wstr =>
      refine (convertWide_spec env.arch env.locale hcnt.1 hw ws sp.p).congr (Spec.unpadded_iff env ?_)
      rw [Spec.wide, if_pos hS, ha]
    all_goals exact hcaller
  rw [if_neg hS, if_neg hS]
  rcases ha : sp.arg with _ | v | _ | _ | _ | _
  case some.num =>
    dsimp only
    split_ifs with hc hC
    · refine hnarrow ?_ (convertChar_spec hcnt hw v hfl)
      rw [Spec.wide, if_neg hS]
      split_ifs with hC
      · rw [ha]
        exact if_pos (hc.resolve_left (by rw [hC]; decide)).2
      · rfl
    · refine (convertWide_spec env.arch env.locale hcnt.1 hw _ (-1)).congr (Spec.unpadded_iff env ?_)
      rw [Spec.wide, if_neg hS, if_pos hC, ha]
      exact if_neg fun hv => hc (Or.inr ⟨hC, hv⟩)
    · have hv : 0 ≤ v ∧ v < uintmaxSize := harg _ ha
      exact hnarrow (hnone hS hC) (convertInt_spec env.arch hcnt hw sp.t (by omega) sp.p sp.xp hfl)
  all_goals exact hcaller

theorem bind_ok {ε α β : Type} {x : Except ε α} {f : α → Except ε β} {r : β} (h : (x >>= f) = .ok r) :
    ∃ a, x = .ok a ∧ f a = .ok r := by
  cases x with
  | error e => cases h
  | ok a => exact ⟨a, rfl, h⟩

theorem lift_eq_ok {α : Type} {x : Except Fault α} {a : α} (h : lift x = .ok a) : x = .ok a := by
  cases x with
  | error e => cases h
  | ok b =>
    cases h
    rfl

theorem le_fpSize {L : LdblFormat} {arch : Arch} {mode : Rounding} {y : LongDouble L} {p n : ℤ}
    {t : UInt8} (h : fpSize L arch mode y w p fl t = .ok n) : w ≤ n := by
  unfold fpSize at h
  split at h
  · cases h
    exact le_max_left ..
  · cases h
    exact le_max_left ..
  · split at h
    all_goals
      obtain ⟨a, -, h⟩ := bind_ok h
      obtain ⟨b, -, h⟩ := bind_ok h
      cases h
      exact le_max_left ..

/-- A field is at least as long as its width, but for `%n`. -/
theorem le_fieldSize {env : Env} {sp : Spec env.L} {k : ℤ} (h : fieldSize env sp = .ok k) : sp.t = 110 ∧ k = 0 ∨ sp.w ≤ k := by
  have hstr {a : List UInt8} {w p : ℤ} (h : strSize a w p = .ok k) : w ≤ k := by
    obtain ⟨n, -, h⟩ := bind_ok h
    cases h
    exact le_max_left ..
  have hwide {ws : List ℕ} {w p : ℤ} (h : wideSize env.arch env.locale ws w p = .ok k) : w ≤ k := by
    obtain ⟨n, -, h⟩ := bind_ok h
    cases h
    exact le_max_left ..
  have hfloat {x : LongDouble env.L} (h : floatSize env x sp.t sp.w sp.p sp.xp sp.fl = .ok k) : sp.w ≤ k := by
    unfold floatSize at h
    split_ifs at h
    exact le_fpSize (lift_eq_ok h)
  have hint {v : ℕ} (h : intSize env.arch sp.t v sp.w sp.p sp.xp sp.fl = .ok k) : sp.w ≤ k := by
    unfold intSize at h
    split at h <;> cases h
    exact le_max_left ..
  unfold fieldSize at h
  split at h
  · next hn =>
    cases h
    exact Or.inl ⟨hn, rfl⟩
  right
  rcases harg : sp.arg with _ | v | s | ws | _ | x <;> rw [harg] at h <;> dsimp only at h <;> split_ifs at h
  all_goals first | exact hstr h | exact hfloat h | exact hwide h | exact hint h | cases h; exact le_max_left ..

end Leblibc.Printf.Core
