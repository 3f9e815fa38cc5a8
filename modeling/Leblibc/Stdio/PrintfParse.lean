import Leblibc.Stdio.PrintfCore
import Leblibc.Stdio.PrintfFpCorrect

/-!
# Conversion specifications

What `printf_core` finds behind a `%`. A width is an `int` that is not negative, unless it is the negated argument of a
`*` and this is the most negative `int`; nothing else overflows.

## Main results

* `parseSpec_spec`: how a specification ends in the second pass
* `parseSpec_first`: and in the first one
-/

namespace Leblibc.Printf.Core

variable {L : LdblFormat}

@[simp] theorem lift_ok {α : Type} (a : α) : lift (.ok a : Except Fault α) = .ok a := rfl

/-- What a specification leaves alone: it moves on in the format, and takes arguments. -/
structure Input.Same (inp inp' : Input L) : Prop where
  nlArg : inp'.nlArg = inp.nlArg
  length_le : inp'.s.length ≤ inp.s.length

theorem Input.Same.refl (inp : Input L) : inp.Same inp := ⟨rfl, le_refl _⟩

theorem Input.Same.trans {inp inp' inp'' : Input L} (h : inp.Same inp') (h' : inp'.Same inp'') : inp.Same inp'' :=
  ⟨h'.nlArg.trans h.nlArg, h'.length_le.trans h.length_le⟩

/-! ## Numbers -/

/-- **`getint`** does not overflow: its value is an `int`, or `-1`. -/
theorem getint_spec (s : List UInt8) {i : ℤ} (hi : -1 ≤ i ∧ i ≤ INT_MAX) :
    ∃ n s', getint i s = .ok (n, s') ∧ (-1 ≤ n ∧ n ≤ INT_MAX) ∧ s'.length ≤ s.length := by
  induction s generalizing i with
  | nil => exact ⟨i, [], rfl, hi, le_refl _⟩
  | cons c s ih =>
    rw [getint]
    split
    · -- a number that has become `-1` stays so
      have hlater : ∀ n, (-1 ≤ n ∧ n ≤ INT_MAX) → ∃ m s', getint n s = .ok (m, s') ∧ (-1 ≤ m ∧ m ≤ INT_MAX) ∧
          s'.length ≤ (c :: s).length := by
        intro n hn
        obtain ⟨m, s', hrun, hm, hlen⟩ := ih hn
        exact ⟨m, s', hrun, hm, hlen.trans (Nat.le_succ _)⟩
      split
      · exact hlater (-1) (by decide)
      · rename_i hdigit hsmall
        have hle : 0 ≤ i ∧ 10 * i ≤ 2147483640 := by
          unfold INT_MAX at hi hsmall
          omega
        have hd : (0 : ℤ) ≤ c.toNat - 48 ∧ (c.toNat : ℤ) - 48 ≤ 9 := by
          unfold isdigit at hdigit
          simp only [decide_eq_true_eq] at hdigit
          have h1 : 48 ≤ c.toNat := hdigit.1
          have h2 : c.toNat ≤ 57 := hdigit.2
          omega
        have hm : IsInt (10 * i) := ⟨by omega, by omega⟩
        have hroom : IsInt (INT_MAX - 10 * i) := by
          unfold INT_MAX
          exact ⟨by omega, by omega⟩
        rw [ck_of_isInt hm, ok_bind, ck_of_isInt hroom, ok_bind]
        split
        · exact hlater (-1) (by decide)
        · rename_i hfit
          unfold INT_MAX at hfit
          rw [ck_of_isInt (show IsInt (10 * i + (c.toNat - 48)) from ⟨by omega, by omega⟩)]
          refine hlater _ ?_
          unfold INT_MAX
          omega
    · exact ⟨i, c :: s, rfl, hi, le_refl _⟩

theorem length_flagLoop_le (fl : BitVec 32) (s : List UInt8) : (flagLoop fl s).2.length ≤ s.length := by
  induction s generalizing fl with
  | nil => exact le_refl _
  | cons c s ih =>
    rw [flagLoop]
    split
    · exact (ih _).trans (Nat.le_succ _)
    · exact le_refl _

/-- The argument of a `*` is an `int`, and 0 in the first pass. -/
theorem starArg_spec (f : Bool) (off : ℕ) (mark : Bool) (inp : Input L) :
    (∃ w inp', starArg f off mark inp = .ok (w, inp') ∧ inp.Same inp' ∧ IsInt w ∧ (f = false → w = 0)) ∨
      (f = true ∧ starArg f off mark inp = .error (.fault .caller)) ∨
      starArg f off mark inp = .error (.err .EINVAL) := by
  have hdrop (k : ℕ) : (inp.s.drop k).length ≤ inp.s.length := by
    rw [List.length_drop]
    exact Nat.sub_le ..
  unfold starArg
  split
  · cases f with
    | false => exact Or.inl ⟨0, _, rfl, ⟨rfl, hdrop _⟩, by decide, fun _ => rfl⟩
    | true =>
      dsimp only
      cases inp.nlArg ((byte inp.s off).toNat - 48) with
      | none => exact Or.inr (Or.inl ⟨rfl, rfl⟩)
      | some a =>
        cases a with
        | num v => exact Or.inl ⟨_, _, rfl, ⟨rfl, hdrop _⟩, isInt_toInt v, fun h => by cases h⟩
        | _ => exact Or.inr (Or.inl ⟨rfl, rfl⟩)
  · split
    · cases f with
      | false => exact Or.inl ⟨0, _, rfl, ⟨rfl, hdrop _⟩, by decide, fun _ => rfl⟩
      | true =>
        cases inp.ap with
        | nil => exact Or.inr (Or.inl ⟨rfl, rfl⟩)
        | cons a ap =>
          cases a with
          | num v =>
            dsimp only
            by_cases hv : IsInt v
            · rw [if_pos hv]
              exact Or.inl ⟨v, _, rfl, ⟨rfl, hdrop _⟩, hv, fun h => by cases h⟩
            · rw [if_neg hv]
              exact Or.inr (Or.inl ⟨rfl, rfl⟩)
          | _ => exact Or.inr (Or.inl ⟨rfl, rfl⟩)
    · exact Or.inr (Or.inr rfl)

/-! ## The width and the precision -/

/-- The most negative `int`. -/
def INT_MIN : ℤ := -2147483648

/-- The width is a `*`, and its argument is the most negative `int`. -/
def Input.StarMin (inp : Input L) : Prop := byte inp.s 0 = 42 ∧ ∃ inp', starArg true 1 true inp = .ok (INT_MIN, inp')

/-- How the width ends: with an `int` that is not negative, with a number that is too large, or without an argument;
and with an overflow for the most negative `int`. -/
theorem parseWidth_spec (fl : BitVec 32) (inp : Input L) :
    (∃ fl' w inp', parseWidth true fl inp = .ok (fl', w, inp') ∧ inp.Same inp' ∧ (0 ≤ w ∧ w ≤ INT_MAX) ∧ ¬ inp.StarMin) ∨
      (parseWidth true fl inp = .error (.fault .overflow) ∧ inp.StarMin) ∨
      (parseWidth true fl inp = .error (.fault .caller) ∧ ¬ inp.StarMin) ∨
      ∃ e, parseWidth true fl inp = .error (.err e) ∧ ¬ inp.StarMin := by
  unfold parseWidth
  split_ifs with hstar
  · rcases starArg_spec true 1 true inp with ⟨w, inp', hrun, hsame, hint, -⟩ | ⟨-, hrun⟩ | hrun
    · have hmin (h : w ≠ INT_MIN) : ¬ inp.StarMin := by
        rintro ⟨-, inp'', hr⟩
        rw [hrun] at hr
        cases hr
        exact h rfl
      rw [hrun, ok_bind]
      obtain ⟨hlo, hhi⟩ := hint
      split_ifs with hneg
      · by_cases hw : w = INT_MIN
        · rw [hw] at hrun ⊢
          exact Or.inr (Or.inl ⟨rfl, hstar, inp', hrun⟩)
        · have hmin := hmin hw
          unfold INT_MIN at hw
          rw [ck_of_isInt (show IsInt (-w) from ⟨by omega, by omega⟩)]
          refine Or.inl ⟨_, _, _, rfl, hsame, ?_, hmin⟩
          unfold INT_MAX
          omega
      · refine Or.inl ⟨_, _, _, rfl, hsame, ?_, hmin ?_⟩
        · unfold INT_MAX
          omega
        · unfold INT_MIN
          omega
    · have hno : ¬ inp.StarMin := by
        rintro ⟨-, inp'', hr⟩
        rw [hrun] at hr
        cases hr
      rw [hrun]
      exact Or.inr (Or.inr (Or.inl ⟨rfl, hno⟩))
    · have hno : ¬ inp.StarMin := by
        rintro ⟨-, inp'', hr⟩
        rw [hrun] at hr
        cases hr
      rw [hrun]
      exact Or.inr (Or.inr (Or.inr ⟨_, rfl, hno⟩))
  · have hno : ¬ inp.StarMin := fun h => hstar h.1
    obtain ⟨n, s', hrun, hn, hlen⟩ := getint_spec inp.s (show -1 ≤ (0 : ℤ) ∧ (0 : ℤ) ≤ INT_MAX by decide)
    rw [hrun, lift_ok, ok_bind]
    split
    · exact Or.inr (Or.inr (Or.inr ⟨_, rfl, hno⟩))
    · exact Or.inl ⟨_, _, _, rfl, ⟨rfl, hlen⟩, ⟨by omega, hn.2⟩, hno⟩

/-- In the first pass the width is 0, or a number of the format. -/
theorem parseWidth_first (fl : BitVec 32) (inp : Input L) :
    (∃ fl' w inp', parseWidth false fl inp = .ok (fl', w, inp') ∧ inp.Same inp') ∨
      ∃ e, parseWidth false fl inp = .error (.err e) := by
  unfold parseWidth
  split
  · rcases starArg_spec false 1 true inp with ⟨w, inp', hrun, hsame, -, hzero⟩ | ⟨hf, -⟩ | hrun
    · obtain rfl := hzero rfl
      rw [hrun]
      exact Or.inl ⟨_, _, _, rfl, hsame⟩
    · cases hf
    · rw [hrun]
      exact Or.inr ⟨_, rfl⟩
  · obtain ⟨n, s', hrun, -, hlen⟩ := getint_spec inp.s (show -1 ≤ (0 : ℤ) ∧ (0 : ℤ) ≤ INT_MAX by decide)
    rw [hrun, lift_ok, ok_bind]
    split
    · exact Or.inr ⟨_, rfl⟩
    · exact Or.inl ⟨_, _, _, rfl, ⟨rfl, hlen⟩⟩

theorem parsePrec_spec (f : Bool) (inp : Input L) :
    (∃ p xp inp', parsePrec f inp = .ok (p, xp, inp') ∧ inp.Same inp' ∧ IsInt p) ∨
      (f = true ∧ parsePrec f inp = .error (.fault .caller)) ∨ ∃ e, parsePrec f inp = .error (.err e) := by
  unfold parsePrec
  split
  · rcases starArg_spec f 2 false inp with ⟨w, inp', hrun, hsame, hint, -⟩ | ⟨hf, hrun⟩ | hrun
    · rw [hrun]
      exact Or.inl ⟨_, _, _, rfl, hsame, hint⟩
    · rw [hrun]
      exact Or.inr (Or.inl ⟨hf, rfl⟩)
    · rw [hrun]
      exact Or.inr (Or.inr ⟨_, rfl⟩)
  · split
    · obtain ⟨n, s', hrun, hn, hlen⟩ := getint_spec (inp.s.drop 1) (show -1 ≤ (0 : ℤ) ∧ (0 : ℤ) ≤ INT_MAX by decide)
      rw [hrun]
      rw [List.length_drop] at hlen
      unfold INT_MAX at hn
      exact Or.inl ⟨_, _, _, rfl, ⟨rfl, show s'.length ≤ _ by omega⟩, by omega, by omega⟩
    · exact Or.inl ⟨_, _, _, rfl, Input.Same.refl inp, by decide⟩

/-- The length modifiers and the letter are read, or the format is not valid. -/
theorem typeLoop_spec (inp : Pre) (s : List UInt8) :
    (∃ ty ps t s', typeLoop inp s = .ok (ty, ps, t, s') ∧ s'.length < s.length) ∨
      typeLoop inp s = .error (.err .EINVAL) := by
  induction s generalizing inp with
  | nil => exact Or.inr rfl
  | cons c s ih =>
    rw [typeLoop]
    split
    · exact Or.inr rfl
    · cases states inp c with
      | pre p =>
        rcases ih p with ⟨ty, ps, t, s', hrun, hlen⟩ | hrun
        · exact Or.inl ⟨ty, ps, t, s', hrun, hlen.trans (Nat.lt_succ_self _)⟩
        · exact Or.inr hrun
      | ty t => exact Or.inl ⟨_, _, _, _, rfl, Nat.lt_succ_self _⟩
      | other => exact Or.inl ⟨_, _, _, _, rfl, Nat.lt_succ_self _⟩
      | zero => exact Or.inr rfl

/-! ## Arguments -/

/-- A number as it is in `arg.i`. -/
def Arg.Valid : Arg L → Prop
  | .num v => 0 ≤ v ∧ v < uintmaxSize
  | _ => True

variable (arch : Arch)

theorem argAs_valid (ty : ArgTy) (a : Arg L) :
    (∃ b, argAs arch ty a = .ok b ∧ b.Valid) ∨ argAs arch ty a = .error .caller := by
  have hpop (t : Ty) (v : ℤ) : 0 ≤ ((popArg arch t v : ℕ) : ℤ) ∧ ((popArg arch t v : ℕ) : ℤ) < uintmaxSize := by
    unfold popArg
    have hlt := Int.emod_lt_of_pos (t.convert arch v) (show (0 : ℤ) < uintmaxSize by decide)
    have hge := Int.emod_nonneg (t.convert arch v) (show (uintmaxSize : ℤ) ≠ 0 by decide)
    omega
  have hptr (v : ℤ) : 0 ≤ v % 2 ^ arch.bits ∧ v % 2 ^ arch.bits < uintmaxSize := by
    have hpow : (2 : ℤ) ^ arch.bits ≤ uintmaxSize := by cases arch <;> decide
    omega
  cases ty with
  | num t =>
    cases a with
    | num v => exact Or.inl ⟨_, rfl, hpop t v⟩
    | _ => exact Or.inr rfl
  | ptr =>
    cases a with
    | num v => exact Or.inr rfl
    | fp x => exact Or.inr rfl
    | _ => exact Or.inl ⟨_, rfl, trivial⟩
  | uiptr =>
    cases a with
    | num v => exact Or.inl ⟨_, rfl, hptr v⟩
    | _ => exact Or.inr rfl
  | dbl =>
    cases a with
    | fp x => exact Or.inl ⟨_, rfl, trivial⟩
    | _ => exact Or.inr rfl
  | ldbl =>
    cases a with
    | fp x => exact Or.inl ⟨_, rfl, trivial⟩
    | _ => exact Or.inr rfl
  | noarg => cases a <;> exact Or.inr rfl

/-- The width, the precision and the argument that a specification can have. -/
structure Spec.Ranged (sp : Spec L) : Prop where
  w : 0 ≤ sp.w ∧ sp.w ≤ INT_MAX
  p : IsInt sp.p
  arg : ∀ a, sp.arg = some a → a.Valid

/-- The values that a specification can have in `printf_core`. -/
structure Spec.Valid (sp : Spec L) : Prop extends sp.Ranged where
  fl : Adjusted sp.fl

theorem takeArg_spec (argpos : Option ℕ) (ty : ArgTy) {sp : Spec L} {inp : Input L}
    (hnl : ∀ i a, inp.nlArg i = some a → a.Valid) :
    (∃ a inp', takeArg arch true argpos ty sp inp = .ok (.spec { sp with arg := a } inp') ∧ inp.Same inp' ∧
        ∀ b, a = some b → a = sp.arg ∨ b.Valid) ∨
      takeArg arch true argpos ty sp inp = .error (.fault .caller) ∨
      takeArg arch true argpos ty sp inp = .error (.err .EINVAL) := by
  unfold takeArg
  split
  · split
    · exact Or.inr (Or.inr rfl)
    · exact Or.inl ⟨sp.arg, inp, rfl, Input.Same.refl inp, fun _ _ => Or.inl rfl⟩
  · cases argpos with
    | some i =>
      dsimp only
      cases ha : inp.nlArg i with
      | none => exact Or.inr (Or.inl rfl)
      | some a =>
        refine Or.inl ⟨some a, inp, rfl, Input.Same.refl inp, fun b hb => Or.inr ?_⟩
        cases hb
        exact hnl i a ha
    | none =>
      cases inp.ap with
      | nil => exact Or.inr (Or.inl rfl)
      | cons a ap =>
        dsimp only
        rcases argAs_valid arch ty a with ⟨b, hb, hvalid⟩ | hb
        · rw [hb]
          refine Or.inl ⟨some b, _, rfl, ⟨rfl, le_refl _⟩, fun c hc => Or.inr ?_⟩
          cases hc
          exact hvalid
        · rw [hb]
          exact Or.inr (Or.inl rfl)

/-! ## The whole specification -/

theorem specStart_same {inp : Input L} (hs : inp.s ≠ []) :
    inp.Same (specStart inp).2.2 ∧ (specStart inp).2.2.s.length < inp.s.length := by
  have hpos : 0 < inp.s.length := List.length_pos_iff.mpr hs
  refine ⟨⟨rfl, ?_⟩, ?_⟩
  · refine (length_flagLoop_le _ _).trans ?_
    rw [List.length_drop]
    exact Nat.sub_le ..
  · refine (length_flagLoop_le _ _).trans_lt ?_
    rw [List.length_drop]
    split <;> omega

theorem parseSpecBy_spec (adjust : BitVec 32 → BitVec 32) (arch : Arch) {inp : Input L} (hs : inp.s ≠ [])
    (hnl : ∀ i a, inp.nlArg i = some a → a.Valid) :
    (∃ sp inp', parseSpecBy adjust arch true inp = .ok (.spec sp inp') ∧ inp.Same inp' ∧
        inp'.s.length < inp.s.length ∧ (sp.Ranged ∧ ∃ fl, sp.fl = adjust fl) ∧ ¬ (specStart inp).2.2.StarMin) ∨
      (parseSpecBy adjust arch true inp = .error (.fault .overflow) ∧ (specStart inp).2.2.StarMin) ∨
      (parseSpecBy adjust arch true inp = .error (.fault .caller) ∧ ¬ (specStart inp).2.2.StarMin) ∨
      ∃ e, parseSpecBy adjust arch true inp = .error (.err e) ∧ ¬ (specStart inp).2.2.StarMin := by
  obtain ⟨hsame, hlt⟩ := specStart_same hs
  unfold parseSpecBy
  dsimp only
  generalize specStart inp = b at *
  rcases parseWidth_spec b.2.1 b.2.2 with
    ⟨fl, w, inp1, hw, hsame1, hbound, hmin⟩ | ⟨hw, hmin⟩ | ⟨hw, hmin⟩ | ⟨e, hw, hmin⟩
  · rw [hw, ok_bind]
    rcases parsePrec_spec true inp1 with ⟨p, xp, inp2, hp, hsame2, hint⟩ | ⟨-, hp⟩ | ⟨e, hp⟩
    · rw [hp, ok_bind]
      rcases typeLoop_spec .bare inp2.s with ⟨ty, ps, t, s', ht, hlen⟩ | ht
      · rw [ht, ok_bind]
        have hthere : inp.Same { inp2 with s := s' } := by
          have h := (hsame.trans hsame1).trans hsame2
          exact ⟨h.nlArg, hlen.le.trans h.length_le⟩
        have hshort : s'.length < inp.s.length := hlen.trans_le ((hsame.trans hsame1).trans hsame2).length_le
        have hnl' : ∀ i a, ({ inp2 with s := s' } : Input L).nlArg i = some a → a.Valid := by
          rw [hthere.nlArg]
          exact hnl
        rcases takeArg_spec arch b.1 ty hnl' with ⟨a, inp3, ha, hsame3, hvalid⟩ | ha | ha
        · rw [ha]
          refine Or.inl ⟨_, _, rfl, hthere.trans hsame3, hsame3.length_le.trans_lt hshort, ?_, hmin⟩
          refine ⟨⟨hbound, hint, fun c hc => ?_⟩, fl, rfl⟩
          rcases hvalid c hc with hnone | hc'
          · rw [show a = none from hnone] at hc
            cases hc
          · exact hc'
        · rw [ha]
          exact Or.inr (Or.inr (Or.inl ⟨rfl, hmin⟩))
        · rw [ha]
          exact Or.inr (Or.inr (Or.inr ⟨_, rfl, hmin⟩))
      · rw [ht]
        exact Or.inr (Or.inr (Or.inr ⟨_, rfl, hmin⟩))
    · rw [hp]
      exact Or.inr (Or.inr (Or.inl ⟨rfl, hmin⟩))
    · rw [hp]
      exact Or.inr (Or.inr (Or.inr ⟨_, rfl, hmin⟩))
  · rw [hw]
    exact Or.inr (Or.inl ⟨rfl, hmin⟩)
  · rw [hw]
    exact Or.inr (Or.inr (Or.inl ⟨rfl, hmin⟩))
  · rw [hw]
    exact Or.inr (Or.inr (Or.inr ⟨_, rfl, hmin⟩))

/-- **A specification in the second pass**: it is found with its argument, or there is an error; an overflow comes from
a width that cannot be negated. -/
theorem parseSpec_spec {inp : Input L} (hs : inp.s ≠ []) (hnl : ∀ i a, inp.nlArg i = some a → a.Valid) :
    (∃ sp inp', parseSpec arch true inp = .ok (.spec sp inp') ∧ inp.Same inp' ∧ inp'.s.length < inp.s.length ∧
        sp.Valid ∧ ¬ (specStart inp).2.2.StarMin) ∨
      (parseSpec arch true inp = .error (.fault .overflow) ∧ (specStart inp).2.2.StarMin) ∨
      (parseSpec arch true inp = .error (.fault .caller) ∧ ¬ (specStart inp).2.2.StarMin) ∨
      ∃ e, parseSpec arch true inp = .error (.err e) ∧ ¬ (specStart inp).2.2.StarMin := by
  rcases parseSpecBy_spec leftAdjust arch hs hnl with ⟨sp, inp', h, hsame, hlt, ⟨hranged, fl, hfl⟩, hmin⟩ | h
  · refine Or.inl ⟨sp, inp', h, hsame, hlt, ⟨hranged, ?_⟩, hmin⟩
    rw [hfl]
    exact adjusted_leftAdjust fl
  · exact Or.inr h

/-- **A specification in the first pass** is passed over, or ends the pass. -/
theorem parseSpec_first {inp : Input L} (hs : inp.s ≠ []) :
    (∃ inp', parseSpec arch false inp = .ok (.skip inp') ∧ inp.Same inp' ∧ inp'.s.length < inp.s.length) ∨
      parseSpec arch false inp = .ok .return0 ∨ ∃ e, parseSpec arch false inp = .error (.err e) := by
  obtain ⟨hsame, hlt⟩ := specStart_same hs
  unfold parseSpec parseSpecBy
  dsimp only
  generalize specStart inp = b at *
  rcases parseWidth_first b.2.1 b.2.2 with ⟨fl, w, inp1, hw, hsame1⟩ | ⟨e, hw⟩
  · rw [hw, ok_bind]
    rcases parsePrec_spec false inp1 with ⟨p, xp, inp2, hp, hsame2, -⟩ | ⟨hf, -⟩ | ⟨e, hp⟩
    · rw [hp, ok_bind]
      rcases typeLoop_spec .bare inp2.s with ⟨ty, ps, t, s', ht, hlen⟩ | ht
      · rw [ht, ok_bind]
        have h := (hsame.trans hsame1).trans hsame2
        have hshort : s'.length < inp.s.length := hlen.trans_le h.length_le
        unfold takeArg
        split
        · split
          · exact Or.inr (Or.inr ⟨_, rfl⟩)
          · exact Or.inl ⟨_, rfl, ⟨h.nlArg, hshort.le⟩, hshort⟩
        · cases b.1 with
          | some i => exact Or.inl ⟨_, rfl, ⟨h.nlArg, hshort.le⟩, hshort⟩
          | none => exact Or.inr (Or.inl rfl)
      · rw [ht]
        exact Or.inr (Or.inr ⟨_, rfl⟩)
    · cases hf
    · rw [hp]
      exact Or.inr (Or.inr ⟨_, rfl⟩)
  · rw [hw]
    exact Or.inr (Or.inr ⟨_, rfl⟩)

end Leblibc.Printf.Core
