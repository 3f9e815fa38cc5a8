import Mathlib.Logic.Relation
import Leblibc.Stdio.PrintfFields

/-!
# The count of `printf_core`

What `vfprintf` returns is `-1`, or the number of bytes that it has handed to `out`, and on the way no `int` overflows,
but for three cases that the code does not have in mind. A `*` width with the most negative `int` as its argument is
negated. A precision of almost `INT_MAX` overflows in `fmt_fp`. And a wide conversion with the flag `0` counts padding
that it does not write.

## Main results

* `step_eq`: a turn of the loop
* `loop_spec`: how the second pass ends
-/

namespace Leblibc.Printf.Core

/-! ## One turn of the loop -/

/-- The bytes that are copied from the front of the format, and what follows them. -/
def textOf (s : List UInt8) : List UInt8 × List UInt8 :=
  ((literal s).1 ++ List.replicate (percents (literal s).2).1 37, (percents (literal s).2).2)

/-- The length of all output, without a limit. -/
inductive Total (env : Env) : Input env.L → ℤ → Prop
  | done {inp : Input env.L} (hs : inp.s = []) : Total env inp 0
  | text {inp : Input env.L} {n : ℤ} (hs : inp.s ≠ []) (ht : (textOf inp.s).1 ≠ [])
      (h : Total env { inp with s := (textOf inp.s).2 } n) : Total env inp ((textOf inp.s).1.length + n)
  | spec {inp inp' : Input env.L} {sp : Spec env.L} {k n : ℤ} (hs : inp.s ≠ []) (ht : (textOf inp.s).1 = [])
      (hsp : parseSpec env.arch true inp = .ok (.spec sp inp')) (hk : fieldSize env sp = .ok k)
      (h : Total env inp' n) : Total env inp (k + n)

theorem length_percents_le (s : List UInt8) : (percents s).1 + (percents s).2.length ≤ s.length := by
  induction s using percents.induct with
  | case1 s ih =>
    rw [percents]
    simp only [List.length_cons]
    omega
  | case2 s h =>
    rw [percents]
    · simp
    · exact h

theorem length_textOf_le (s : List UInt8) : (textOf s).1.length + (textOf s).2.length ≤ s.length := by
  have h := length_percents_le (literal s).2
  have hspan : (literal s).1.length + (literal s).2.length = s.length := by
    rw [← List.length_append, literal, List.span_eq_takeWhile_dropWhile, List.takeWhile_append_dropWhile]
  unfold textOf
  dsimp only
  rw [List.length_append, List.length_replicate]
  omega

/-- The counts are those of an `int`. -/
structure State.Counts {L : LdblFormat} (st : State L) : Prop where
  cnt : 0 ≤ st.cnt ∧ st.cnt ≤ INT_MAX
  l : 0 ≤ st.l ∧ st.l ≤ INT_MAX

theorem State.counts_start {L : LdblFormat} (inp : Input L) : (State.start inp).Counts :=
  ⟨⟨le_refl 0, show 0 ≤ INT_MAX by decide⟩, ⟨le_refl 0, show 0 ≤ INT_MAX by decide⟩⟩

/-- **A turn of the loop**, as far as the next specification. -/
theorem step_eq (env : Env) (f : Bool) {st : State env.L} (h : st.Counts) :
    step env f st =
      if st.cnt + st.l > INT_MAX then .error (.err .EOVERFLOW)
      else if st.inp.s = [] then .ok (.stop (.ret (st.cnt + st.l)) { st with cnt := st.cnt + st.l })
      else if st.cnt + st.l + (textOf st.inp.s).1.length > INT_MAX then .error (.err .EOVERFLOW)
      else if (textOf st.inp.s).1 ≠ [] then
        .ok (.next ⟨{ st.inp with s := (textOf st.inp.s).2 }, st.cnt + st.l, (textOf st.inp.s).1.length,
          if f then st.out ++ [(textOf st.inp.s).1] else st.out⟩)
      else stepSpec env f ⟨st.inp, st.cnt + st.l, 0, if f then st.out ++ [[]] else st.out⟩ := by
  obtain ⟨hcnt, hl⟩ := h
  have hlen : ((literal st.inp.s).1.length : ℤ) + (percents (literal st.inp.s).2).1 = (textOf st.inp.s).1.length := by
    rw [textOf, List.length_append, List.length_replicate, Nat.cast_add]
  have hmax : INT_MAX = 2147483647 := rfl
  unfold step
  rw [ck_of_isInt (show IsInt (INT_MAX - st.cnt) from ⟨by omega, by omega⟩), lift_ok, ok_bind]
  by_cases hbig : st.cnt + st.l > INT_MAX
  · rw [if_pos (by omega), if_pos hbig]
  rw [if_neg (by omega), if_neg hbig, ck_of_isInt (show IsInt (st.cnt + st.l) from ⟨by omega, by omega⟩), lift_ok,
    ok_bind]
  by_cases hs : st.inp.s = []
  · rw [if_pos hs, if_pos hs]
  rw [if_neg hs, if_neg hs, ck_of_isInt (show IsInt (INT_MAX - (st.cnt + st.l)) from ⟨by omega, by omega⟩), lift_ok,
    ok_bind, hlen]
  by_cases hlong : st.cnt + st.l + (textOf st.inp.s).1.length > INT_MAX
  · rw [if_pos (by omega), if_pos hlong]
  rw [if_neg (by omega), if_neg hlong]
  by_cases ht : (textOf st.inp.s).1 = []
  · rw [ht]
    have : (literal st.inp.s).1 ++ List.replicate (percents (literal st.inp.s).2).1 37 = [] := ht
    rw [this]
    rfl
  · have hpos : (textOf st.inp.s).1.length ≠ 0 := fun h0 => ht (List.length_eq_zero_iff.mp h0)
    rw [if_pos (by omega), if_pos ht]
    rfl

/-! ## The second pass -/

/-- A turn that is not the last one. -/
def Steps (env : Env) (st st' : State env.L) : Prop := step env true st = .ok (.next st')

/-- From this state on, the loop comes to a specification that stands at the front of what is left. -/
def ComesTo (env : Env) (st : State env.L) (inp : Input env.L) : Prop :=
  ∃ st', Relation.ReflTransGen (Steps env) st st' ∧ st'.cnt + st'.l ≤ INT_MAX ∧ st'.inp = inp ∧ inp.s ≠ [] ∧
    (textOf inp.s).1 = []

/-- From this state on, the loop comes to a `*` width that cannot be negated. -/
def NegatesMin (env : Env) (st : State env.L) : Prop := ∃ inp, ComesTo env st inp ∧ (specStart inp).2.2.StarMin

/-- From this state on, the loop comes to this conversion. -/
def Converts (env : Env) (st : State env.L) (sp : Spec env.L) : Prop :=
  ∃ inp inp', ComesTo env st inp ∧ parseSpec env.arch true inp = .ok (.spec sp inp')

variable {env : Env} {st st' : State env.L} {N : ℤ} {r : Except Fault (Outcome × State env.L)}

theorem comesTo_iff {inp : Input env.L} :
    ComesTo env st inp ↔ (st.cnt + st.l ≤ INT_MAX ∧ st.inp = inp ∧ inp.s ≠ [] ∧ (textOf inp.s).1 = []) ∨
      ∃ st', Steps env st st' ∧ ComesTo env st' inp := by
  constructor
  · rintro ⟨st', hrun, hrest⟩
    rcases hrun.cases_head with rfl | ⟨st1, hstep, hrun⟩
    · exact Or.inl hrest
    · exact Or.inr ⟨st1, hstep, st', hrun, hrest⟩
  · rintro (h | ⟨st1, hstep, st', hrun, hrest⟩)
    · exact ⟨st, .refl, h⟩
    · exact ⟨st', .head hstep hrun, hrest⟩

/-- What the second pass comes to, when it is not at a specification. -/
theorem comesTo_of_text (hstep : Steps env st st')
    (ht : (textOf st.inp.s).1 ≠ []) (inp : Input env.L) : ComesTo env st inp ↔ ComesTo env st' inp := by
  rw [comesTo_iff]
  constructor
  · rintro (⟨-, rfl, -, h⟩ | ⟨st1, hstep1, h⟩)
    · exact absurd h ht
    · cases hstep.symm.trans hstep1
      exact h
  · exact fun h => Or.inr ⟨st', hstep, h⟩

/-- What the second pass comes to, from a specification on. -/
theorem comesTo_of_spec (hstep : Steps env st st') (hcnt : st.cnt + st.l ≤ INT_MAX)
    (hs : st.inp.s ≠ []) (ht : (textOf st.inp.s).1 = []) (inp : Input env.L) :
    ComesTo env st inp ↔ st.inp = inp ∨ ComesTo env st' inp := by
  rw [comesTo_iff]
  constructor
  · rintro (⟨-, h, -⟩ | ⟨st1, hstep1, h⟩)
    · exact Or.inl h
    · cases hstep.symm.trans hstep1
      exact Or.inr h
  · rintro (rfl | h)
    · exact Or.inl ⟨hcnt, rfl, hs, ht⟩
    · exact Or.inr ⟨st', hstep, h⟩

theorem comesTo_of_stop (hstep : ∀ st', ¬ Steps env st st') {inp : Input env.L} :
    ComesTo env st inp ↔ st.cnt + st.l ≤ INT_MAX ∧ st.inp = inp ∧ inp.s ≠ [] ∧ (textOf inp.s).1 = [] := by
  rw [comesTo_iff, or_iff_left]
  rintro ⟨st', h, -⟩
  exact hstep st' h

/-! ### The length of all output -/

theorem total_of_nil {inp : Input env.L} (hs : inp.s = []) : Total env inp N ↔ N = 0 := by
  constructor
  · rintro (_ | ⟨hs', -⟩ | ⟨hs', -⟩)
    · rfl
    · exact absurd hs hs'
    · exact absurd hs hs'
  · rintro rfl
    exact .done hs

theorem total_of_text {inp : Input env.L} (hs : inp.s ≠ []) (ht : (textOf inp.s).1 ≠ []) :
    Total env inp N ↔ Total env { inp with s := (textOf inp.s).2 } (N - (textOf inp.s).1.length) := by
  constructor
  · intro h
    cases h with
    | done hs' => exact absurd hs' hs
    | text _ _ h => rwa [add_sub_cancel_left]
    | spec _ ht' => exact absurd ht' ht
  · intro h
    have h' := Total.text hs ht h
    rwa [add_sub_cancel] at h'

theorem total_of_spec {inp inp' : Input env.L} {sp : Spec env.L} (hs : inp.s ≠ [])
    (ht : (textOf inp.s).1 = []) (hsp : parseSpec env.arch true inp = .ok (.spec sp inp')) :
    Total env inp N ↔ ∃ k, fieldSize env sp = .ok k ∧ Total env inp' (N - k) := by
  constructor
  · intro h
    cases h with
    | done hs' => exact absurd hs' hs
    | text _ ht' => exact absurd ht ht'
    | @spec _ _ _ k _ _ _ hsp' hk h =>
      cases hsp.symm.trans hsp'
      exact ⟨k, hk, by rwa [add_sub_cancel_left]⟩
  · rintro ⟨k, hk, h⟩
    have h' := Total.spec hs ht hsp hk h
    rwa [add_sub_cancel] at h'

theorem not_total {inp : Input env.L} (hs : inp.s ≠ []) (ht : (textOf inp.s).1 = [])
    (hsp : ∀ sp inp', parseSpec env.arch true inp ≠ .ok (.spec sp inp')) (N : ℤ) : ¬ Total env inp N := by
  intro h
  cases h with
  | done hs' => exact absurd hs' hs
  | text _ ht' => exact absurd ht ht'
  | spec _ _ hsp' => exact hsp _ _ hsp'

/-- The arguments with positions are as they are in `arg.i`. -/
def Input.Args {L : LdblFormat} (inp : Input L) : Prop := ∀ i a, inp.nlArg i = some a → a.Valid

theorem Total.nonneg {inp : Input env.L} (h : Total env inp N) (hnl : inp.Args) : 0 ≤ N := by
  induction h with
  | done => exact le_refl _
  | text _ _ _ ih =>
    have := ih hnl
    omega
  | spec hs _ hsp hk _ ih =>
    rcases parseSpec_spec env.arch hs hnl with ⟨sp', inp'', hsp', hsame, -, hvalid, -⟩ | ⟨hsp', -⟩ | ⟨hsp', -⟩ | ⟨e, hsp', -⟩
    · cases hsp.symm.trans hsp'
      have hrest := ih (fun i a h => hnl i a (hsame.nlArg ▸ h))
      have hw := hvalid.w.1
      rcases le_fieldSize hk with ⟨-, h⟩ | h <;> omega
    · cases hsp.symm.trans hsp'
    · cases hsp.symm.trans hsp'
    · cases hsp.symm.trans hsp'

theorem Total.unique {inp : Input env.L} {M : ℤ} (h : Total env inp N) (h' : Total env inp M) :
    N = M := by
  induction h generalizing M with
  | done hs => exact ((total_of_nil hs).mp h').symm
  | text hs ht _ ih =>
    have := ih ((total_of_text hs ht).mp h')
    omega
  | spec hs ht hsp hk _ ih =>
    obtain ⟨k', hk', hrest⟩ := (total_of_spec hs ht hsp).mp h'
    cases hk.symm.trans hk'
    have := ih hrest
    omega

/-! ### The loop -/

/-- The end of the second pass from a state on, against the length of all output without a limit. -/
inductive Ends (env : Env) (st : State env.L) : Except Fault (Outcome × State env.L) → Prop
  | overflow (h : NegatesMin env st) : Ends env st (.error .overflow)
  | caller (h : ¬ NegatesMin env st) (ht : ∀ N, ¬ Total env st.inp N) : Ends env st (.error .caller)
  | fail {e : Err} {st' : State env.L} (h : ¬ NegatesMin env st)
      (ht : ∀ N, Total env st.inp N → e = .EOVERFLOW ∧ INT_MAX < st.cnt + st.l + N) : Ends env st (.ok (.fail e, st'))
  | ret {n : ℤ} {st' : State env.L} (h : ¬ NegatesMin env st) (hn : 0 ≤ n ∧ n ≤ INT_MAX)
      (ht : Total env st.inp (n - (st.cnt + st.l))) (hle : (size st'.out - size st.out : ℤ) ≤ n - (st.cnt + st.l))
      (heq : (size st'.out - size st.out : ℤ) = n - (st.cnt + st.l) ↔ ∀ sp, Converts env st sp → ¬ sp.Unpadded env) :
      Ends env st (.ok (.ret n, st'))

theorem Ends.of_step (h : Ends env st' r)
    (d : ℤ) (bad : Prop) (hneg : NegatesMin env st ↔ NegatesMin env st') (hcnt : st'.cnt + st'.l = st.cnt + st.l + d)
    (htotal : ∀ N, Total env st.inp N ↔ Total env st'.inp (N - d)) (hle : (size st'.out : ℤ) ≤ size st.out + d)
    (heq : (size st'.out : ℤ) = size st.out + d ↔ ¬ bad) (hconv : (∀ sp, Converts env st sp → ¬ sp.Unpadded env) ↔
      ¬ bad ∧ ∀ sp, Converts env st' sp → ¬ sp.Unpadded env) : Ends env st r := by
  cases h with
  | overflow h => exact .overflow (hneg.mpr h)
  | caller h ht => exact .caller (fun h' => h (hneg.mp h')) fun N hN => ht _ ((htotal N).mp hN)
  | fail h ht =>
    refine .fail (fun h' => h (hneg.mp h')) fun N hN => ?_
    obtain ⟨he, hlt⟩ := ht _ ((htotal N).mp hN)
    exact ⟨he, by omega⟩
  | @ret n fin h hn ht hle' heq' =>
    refine .ret (fun h' => h (hneg.mp h')) hn ((htotal _).mpr ?_) (by omega) ?_
    · rwa [show n - (st.cnt + st.l) - d = n - (st'.cnt + st'.l) by omega]
    · rw [hconv, ← heq, ← heq']
      omega

theorem Ends.of_text (h : Ends env st' r)
    (hs : st.inp.s ≠ []) (ht : (textOf st.inp.s).1 ≠ []) (hstep : Steps env st st')
    (hst' : st' = ⟨{ st.inp with s := (textOf st.inp.s).2 }, st.cnt + st.l, (textOf st.inp.s).1.length,
      st.out ++ [(textOf st.inp.s).1]⟩) : Ends env st r := by
  have hcomes := comesTo_of_text hstep ht
  have hsize : (size st'.out : ℤ) = size st.out + (textOf st.inp.s).1.length := by
    rw [hst', size_append, size_cons, size_nil]
    omega
  refine h.of_step (textOf st.inp.s).1.length False ?_ (by rw [hst']) ?_ hsize.le
    (iff_of_true hsize not_false) ?_
  · exact exists_congr fun inp => and_congr_left' (hcomes inp)
  · intro N
    rw [hst']
    exact total_of_text hs ht
  · rw [not_false_eq_true, true_and]
    exact forall_congr' fun sp => imp_congr_left
      (exists_congr fun inp => exists_congr fun inp' => and_congr_left' (hcomes inp))

theorem Ends.of_spec (h : Ends env st' r)
    (hcnt : st.cnt + st.l ≤ INT_MAX) (hs : st.inp.s ≠ []) (ht : (textOf st.inp.s).1 = []) (hstep : Steps env st st')
    {sp : Spec env.L} {inp' : Input env.L} (hsp : parseSpec env.arch true st.inp = .ok (.spec sp inp'))
    (hmin : ¬ (specStart st.inp).2.2.StarMin) {k : ℤ} {ps : List (List UInt8)} (hk : fieldSize env sp = .ok k)
    (hle : size ps ≤ k) (heq : (size ps : ℤ) = k ↔ ¬ sp.Unpadded env)
    (hst' : st' = ⟨inp', st.cnt + st.l, k, st.out ++ [[]] ++ ps⟩) : Ends env st r := by
  have hcomes := comesTo_of_spec hstep hcnt hs ht
  have hsize : (size st'.out : ℤ) = size st.out + size ps := by
    rw [hst', size_append, size_append, size_cons, size_nil, List.length_nil]
    omega
  refine h.of_step k (sp.Unpadded env) ?_ (by rw [hst']) ?_ (by omega) ?_ ?_
  · constructor
    · rintro ⟨inp, hinp, hm⟩
      rcases (hcomes inp).mp hinp with rfl | hinp
      · exact absurd hm hmin
      · exact ⟨inp, hinp, hm⟩
    · rintro ⟨inp, hinp, hm⟩
      exact ⟨inp, (hcomes inp).mpr (Or.inr hinp), hm⟩
  · intro N
    rw [hst', total_of_spec hs ht hsp]
    constructor
    · rintro ⟨k', hk', h⟩
      cases hk.symm.trans hk'
      exact h
    · exact fun h => ⟨k, hk, h⟩
  · rw [← heq]
    omega
  · constructor
    · intro h
      refine ⟨h sp ⟨st.inp, inp', (hcomes _).mpr (Or.inl rfl), hsp⟩, ?_⟩
      rintro sp' ⟨inp, inp'', hinp, hsp'⟩
      exact h sp' ⟨inp, inp'', (hcomes inp).mpr (Or.inr hinp), hsp'⟩
    · rintro ⟨hfirst, hlater⟩ sp' ⟨inp, inp'', hinp, hsp'⟩
      rcases (hcomes inp).mp hinp with rfl | hinp
      · cases hsp.symm.trans hsp'
        exact hfirst
      · exact hlater sp' ⟨inp, inp'', hinp, hsp'⟩

/-- **The second pass**: it ends with an overflow only at a width that cannot be negated, what it returns is the length
of all output, and this is what has been written, unless padding has been left out. -/
theorem loop_spec (env : Env) (fuel : ℕ) {st : State env.L} (hfuel : st.inp.s.length < fuel) (hcounts : st.Counts)
    (hnl : st.inp.Args) (hsmall : ∀ sp, Converts env st sp → sp.SmallPrec) : Ends env st (loop env true fuel st) := by
  induction fuel generalizing st with
  | zero => exact absurd hfuel (Nat.not_lt_zero _)
  | succ fuel ih =>
    have hcnt := hcounts.cnt
    have hl := hcounts.l
    have hstep := step_eq env true hcounts
    rw [loop]
    by_cases hbig : st.cnt + st.l > INT_MAX
    · -- the field of the turn before was too long
      rw [if_pos hbig] at hstep
      rw [hstep]
      refine .fail ?_ fun N hN => ⟨rfl, ?_⟩
      · rintro ⟨inp, hinp, -⟩
        rw [comesTo_of_stop fun st' h => by cases hstep.symm.trans h] at hinp
        omega
      · have := hN.nonneg hnl
        omega
    rw [if_neg hbig] at hstep
    by_cases hs : st.inp.s = []
    · rw [if_pos hs] at hstep
      have hstop : ∀ inp, ¬ ComesTo env st inp := by
        intro inp hinp
        rw [comesTo_of_stop fun st' h => by cases hstep.symm.trans h] at hinp
        obtain ⟨-, rfl, hne, -⟩ := hinp
        exact hne hs
      rw [hstep]
      refine .ret (fun ⟨inp, hinp, _⟩ => hstop inp hinp) ⟨by omega, by omega⟩ ?_ (by simp) ?_
      · rw [sub_self]
        exact .done hs
      · refine iff_of_true (by simp) ?_
        rintro sp ⟨inp, inp', hinp, -⟩
        exact absurd hinp (hstop inp)
    rw [if_neg hs] at hstep
    by_cases hlong : st.cnt + st.l + (textOf st.inp.s).1.length > INT_MAX
    · -- the text is too long
      rw [if_pos hlong] at hstep
      have ht : (textOf st.inp.s).1 ≠ [] := by
        intro ht
        rw [ht, List.length_nil] at hlong
        omega
      rw [hstep]
      refine .fail ?_ fun N hN => ⟨rfl, ?_⟩
      · rintro ⟨inp, hinp, -⟩
        rw [comesTo_of_stop fun st' h => by cases hstep.symm.trans h] at hinp
        obtain ⟨-, rfl, -, hnil⟩ := hinp
        exact ht hnil
      · have := ((total_of_text hs ht).mp hN).nonneg hnl
        omega
    rw [if_neg hlong] at hstep
    have hlen := length_textOf_le st.inp.s
    have hcnt' : 0 ≤ st.cnt + st.l ∧ st.cnt + st.l ≤ INT_MAX := ⟨by omega, by omega⟩
    by_cases ht : (textOf st.inp.s).1 = []
    · rw [if_neg (not_not.mpr ht), stepSpec] at hstep
      have hself : ComesTo env st st.inp := comesTo_iff.mpr (Or.inl ⟨hcnt'.2, rfl, hs, ht⟩)
      -- a turn that ends the loop has come to no other width
      have hlast (hmin : ¬ (specStart st.inp).2.2.StarMin) (hno : ∀ st', ¬ Steps env st st') : ¬ NegatesMin env st := by
        rintro ⟨inp, hinp, hm⟩
        obtain ⟨-, rfl, -⟩ := (comesTo_of_stop hno).mp hinp
        exact hmin hm
      rcases parseSpec_spec env.arch hs hnl with
        ⟨sp, inp', hsp, hsame, hshort, hvalid, hmin⟩ | ⟨hsp, hmin⟩ | ⟨hsp, hmin⟩ | ⟨e, hsp, hmin⟩
      · rw [hsp, ok_bind] at hstep
        dsimp only at hstep
        have hagree := convert_spec env hcnt' hvalid (hsmall sp ⟨st.inp, inp', hself, hsp⟩)
        generalize hsize : fieldSize env sp = n at hagree
        generalize convert env (st.cnt + st.l) sp = c at hagree hstep
        cases hagree with
        | @ok k ps hk hle heq =>
          rw [hstep]
          refine Ends.of_spec (ih ?_ ⟨hcnt', hk⟩ ?_ ?_) hcnt'.2 hs ht hstep hsp hmin hsize hle heq rfl
          · exact hshort.trans_le (Nat.le_of_lt_succ hfuel)
          · exact fun i a h => hnl i a (hsame.nlArg ▸ h)
          · rintro sp' ⟨inp, inp'', hinp, hsp'⟩
            exact hsmall sp' ⟨inp, inp'', comesTo_iff.mpr (Or.inr ⟨_, hstep, hinp⟩), hsp'⟩
        | overflow h =>
          rw [hstep]
          refine .fail (hlast hmin fun st' h => by cases hstep.symm.trans h) fun N hN => ⟨rfl, ?_⟩
          obtain ⟨k, hk, hrest⟩ := (total_of_spec hs ht hsp).mp hN
          have hlt := h k (hsize.symm.trans hk)
          have := hrest.nonneg fun i a h => hnl i a (hsame.nlArg ▸ h)
          omega
        | @stuck e n he h =>
          rw [hstep]
          have hnot : ∀ N, ¬ Total env st.inp N := by
            intro N hN
            obtain ⟨k, hk, -⟩ := (total_of_spec hs ht hsp).mp hN
            exact h k (hsize.symm.trans hk)
          have hneg := hlast hmin fun st' h => by cases hstep.symm.trans h
          rcases he with rfl | rfl
          · exact .fail hneg fun N hN => absurd hN (hnot N)
          · exact .caller hneg hnot
      · rw [hsp] at hstep
        rw [hstep]
        exact .overflow ⟨st.inp, hself, hmin⟩
      · rw [hsp] at hstep
        rw [hstep]
        refine .caller (hlast hmin fun st' h => by cases hstep.symm.trans h) (not_total hs ht ?_)
        rw [hsp]
        exact fun sp inp' h => by cases h
      · rw [hsp] at hstep
        rw [hstep]
        refine .fail (hlast hmin fun st' h => by cases hstep.symm.trans h) fun N hN => absurd hN (not_total hs ht ?_ N)
        rw [hsp]
        exact fun sp inp' h => by cases h
    · rw [if_pos ht] at hstep
      rw [hstep]
      have hpos : 0 < (textOf st.inp.s).1.length := List.length_pos_iff.mpr ht
      refine Ends.of_text (ih ?_ ⟨hcnt', ⟨?_, ?_⟩⟩ hnl ?_) hs ht hstep rfl
      · show (textOf st.inp.s).2.length < fuel
        omega
      · exact Int.natCast_nonneg _
      · show ((textOf st.inp.s).1.length : ℤ) ≤ INT_MAX
        omega
      · rintro sp' ⟨inp, inp'', hinp, hsp'⟩
        exact hsmall sp' ⟨inp, inp'', comesTo_iff.mpr (Or.inr ⟨_, hstep, hinp⟩), hsp'⟩

/-! ## The first pass -/

/-- **The first pass** has no overflow: it ends with a value or an error. -/
theorem loop_first (env : Env) (fuel : ℕ) {st : State env.L} (hfuel : st.inp.s.length < fuel) (hcounts : st.Counts) :
    ∃ o st', loop env false fuel st = .ok (o, st') ∧ st'.inp.nlArg = st.inp.nlArg := by
  induction fuel generalizing st with
  | zero => exact absurd hfuel (Nat.not_lt_zero _)
  | succ fuel ih =>
    have hcnt := hcounts.cnt
    have hl := hcounts.l
    have hstep := step_eq env false hcounts
    rw [loop]
    by_cases hbig : st.cnt + st.l > INT_MAX
    · rw [if_pos hbig] at hstep
      rw [hstep]
      exact ⟨_, _, rfl, rfl⟩
    rw [if_neg hbig] at hstep
    by_cases hs : st.inp.s = []
    · rw [if_pos hs] at hstep
      rw [hstep]
      exact ⟨_, _, rfl, rfl⟩
    rw [if_neg hs] at hstep
    by_cases hlong : st.cnt + st.l + (textOf st.inp.s).1.length > INT_MAX
    · rw [if_pos hlong] at hstep
      rw [hstep]
      exact ⟨_, _, rfl, rfl⟩
    rw [if_neg hlong] at hstep
    have hlen := length_textOf_le st.inp.s
    have hcnt' : 0 ≤ st.cnt + st.l ∧ st.cnt + st.l ≤ INT_MAX := ⟨by omega, by omega⟩
    by_cases ht : (textOf st.inp.s).1 = []
    · rw [if_neg (not_not.mpr ht), stepSpec] at hstep
      rcases parseSpec_first env.arch hs with ⟨inp', hsp, hsame, hshort⟩ | hsp | ⟨e, hsp⟩
      · rw [hsp] at hstep
        rw [hstep]
        obtain ⟨o, st', hrun, hnl⟩ := @ih ⟨inp', st.cnt + st.l, 0, st.out⟩
          (hshort.trans_le (Nat.le_of_lt_succ hfuel)) ⟨hcnt', show (0 : ℤ) ≤ 0 ∧ (0 : ℤ) ≤ INT_MAX by decide⟩
        exact ⟨o, st', hrun, hnl.trans hsame.nlArg⟩
      · rw [hsp] at hstep
        rw [hstep]
        exact ⟨_, _, rfl, rfl⟩
      · rw [hsp] at hstep
        rw [hstep]
        exact ⟨_, _, rfl, rfl⟩
    · rw [if_pos ht] at hstep
      rw [hstep]
      have hpos : 0 < (textOf st.inp.s).1.length := List.length_pos_iff.mpr ht
      exact ih (by dsimp only; omega) ⟨hcnt', Int.natCast_nonneg _, by dsimp only; omega⟩

theorem popLoop_spec {L : LdblFormat} (arch : Arch) (ty : ℕ → Option ArgTy) (n i : ℕ) (ap : List (Arg L))
    {args : ℕ → Option (Arg L)} (hargs : ∀ i a, args i = some a → a.Valid) :
    (∃ r, popLoop arch ty n i ap args = .ok r ∧ ∀ i a, r.2.2 i = some a → a.Valid) ∨
      popLoop arch ty n i ap args = .error .caller := by
  induction n generalizing i ap args with
  | zero => exact Or.inl ⟨_, rfl, hargs⟩
  | succ n ih =>
    rw [popLoop]
    cases ty i with
    | none => exact Or.inl ⟨_, rfl, hargs⟩
    | some t =>
      cases ap with
      | nil => exact Or.inr rfl
      | cons a ap =>
        dsimp only
        rcases argAs_valid arch t a with ⟨b, hb, hvalid⟩ | hb
        · rw [hb]
          refine ih (i + 1) ap fun j c hc => ?_
          by_cases hj : j = i
          · rw [hj, Function.update_self] at hc
            cases hc
            exact hvalid
          · rw [Function.update_of_ne hj] at hc
            exact hargs j c hc
        · rw [hb]
          exact Or.inr rfl

/-- **What the second pass reads**, if the first one has no error. -/
theorem firstPass_spec (env : Env) (fmt : List UInt8) (args : List (Arg env.L)) :
    firstPass env fmt args = .error .caller ∨ (∃ e, firstPass env fmt args = .ok (.error e)) ∨
      ∃ inp, firstPass env fmt args = .ok (.ok inp) ∧ inp.s = fmt ∧ inp.Args := by
  have hnone : ∀ (i : ℕ) (a : Arg env.L), (fun _ : ℕ => (none : Option (Arg env.L))) i = some a → a.Valid :=
    fun i a h => by cases h
  obtain ⟨o, st, hrun, hnl⟩ := @loop_first env (fmt.length + 1) (State.start (Input.start fmt args fun _ => none))
    (Nat.lt_succ_self _) (State.counts_start _)
  unfold firstPass
  rw [hrun, ok_bind]
  cases o with
  | fail e => exact Or.inr (Or.inl ⟨e, rfl⟩)
  | ret n =>
    dsimp only
    split_ifs with hs
    · unfold popArgs
      have hargs : ∀ i a, st.inp.nlArg i = some a → a.Valid := by
        rw [hnl]
        exact hnone
      split_ifs with hl
      · exact Or.inr (Or.inr ⟨_, rfl, rfl, hargs⟩)
      · rcases popLoop_spec env.arch st.inp.nlType NL_ARGMAX 1 st.inp.ap hargs with ⟨r, hr, hvalid⟩ | hr
        · rw [hr, ok_bind]
          split
          · exact Or.inr (Or.inl ⟨_, rfl⟩)
          · exact Or.inr (Or.inr ⟨_, rfl, rfl, hvalid⟩)
        · rw [hr]
          exact Or.inl rfl
    · exact Or.inr (Or.inr ⟨_, rfl, rfl, hnone⟩)

/-! ## Both passes -/

/-- The state at the beginning of the second pass, if there is one. -/
def Begins (env : Env) (fmt : List UInt8) (args : List (Arg env.L)) (st : State env.L) : Prop :=
  ∃ inp, firstPass env fmt args = .ok (.ok inp) ∧ st = State.start inp

theorem printfRun_spec (env : Env) (fmt : List UInt8) (args : List (Arg env.L))
    (hsmall : ∀ st sp, Begins env fmt args st → Converts env st sp → sp.SmallPrec) :
    (printfRun env fmt args = .error .caller ∧ ∀ st, ¬ Begins env fmt args st) ∨
      (∃ e, printfRun env fmt args = .ok (.fail e, []) ∧ ∀ st, ¬ Begins env fmt args st) ∨
      ∃ st r, Begins env fmt args st ∧ (∀ st', Begins env fmt args st' → st' = st) ∧ st.inp.s = fmt ∧ Ends env st r ∧
        printfRun env fmt args = r.map fun o => (o.1, o.2.out) := by
  unfold printfRun
  rcases firstPass_spec env fmt args with h | ⟨e, h⟩ | ⟨inp, h, hs, hargs⟩
  · rw [h]
    refine Or.inl ⟨rfl, ?_⟩
    rintro st ⟨inp, hinp, -⟩
    cases h.symm.trans hinp
  · rw [h]
    refine Or.inr (Or.inl ⟨e, rfl, ?_⟩)
    rintro st ⟨inp, hinp, -⟩
    cases h.symm.trans hinp
  · rw [h, ok_bind]
    dsimp only
    have hbegin : Begins env fmt args (State.start inp) := ⟨inp, h, rfl⟩
    have hfuel : (State.start inp).inp.s.length < fmt.length + 1 := by
      show inp.s.length < fmt.length + 1
      rw [hs]
      exact Nat.lt_succ_self _
    refine Or.inr (Or.inr ⟨State.start inp, _, hbegin, ?_, hs,
      loop_spec env (fmt.length + 1) hfuel (State.counts_start inp) hargs fun sp => hsmall _ sp hbegin, ?_⟩)
    · rintro st' ⟨inp', hinp', rfl⟩
      cases h.symm.trans hinp'
      rfl
    · cases loop env true (fmt.length + 1) (State.start inp) <;> rfl

/-- The value that is returned when the stream has no error of its own. -/
theorem Outcome.value_iff (o : Outcome) {k : ℕ} (hn : ∀ n, o = .ret n → 0 ≤ n) :
    (∀ err, o.value err = -1 ∨ o.value err = k) ↔ ∀ n, o = .ret n → n = k := by
  constructor
  · rintro h n rfl
    have hval : n = -1 ∨ n = k := h false
    have := hn n rfl
    omega
  · intro h err
    cases o with
    | fail e => exact Or.inl rfl
    | ret n =>
      cases err with
      | true => exact Or.inl rfl
      | false => exact Or.inr (h n rfl)

/-- The format of `long double` on x86. -/
def LdblFormat.x87 : LdblFormat := ⟨64, 16384, by decide, by decide, by decide⟩

/-- A locale with the characters of ASCII. -/
def Locale.ascii : Locale where
  wctomb c := if c < 128 then some [UInt8.ofNat c] else none
  length_pos c s h := by
    split at h
    · cases h
      exact Nat.one_pos
    · cases h
  length_le c s h := by
    split at h
    · cases h
      exact Nat.le_of_ble_eq_true rfl
    · cases h

/-- An environment for examples. -/
def Env.plain : Env := ⟨.x87, .x86_64, .nearest, .ascii, [0]⟩

end Leblibc.Printf.Core
