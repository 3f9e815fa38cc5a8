import Leblibc.Stdio.PrintfCount

/-!
# The full output of a format

The full output of a format is the text in it and the fields of its conversions, each one as if it stood alone. There
is no limit on its length and no count in it, so that it does not depend on how far `printf_core` comes. If the counts
stay within an `int`, then `printf_core` writes exactly this output.

## Main results

* `Output.length_iff`: what is counted is the length, unless padding is left out
* `loop_output`: `printf_core` writes the full output
-/

namespace Leblibc.Printf.Core

/-- The full output, and what is counted for it. -/
inductive Output (env : Env) : Input env.L → List UInt8 → ℤ → Prop
  | done {inp : Input env.L} (hs : inp.s = []) : Output env inp [] 0
  | text {inp : Input env.L} {out : List UInt8} {n : ℤ} (hs : inp.s ≠ []) (ht : (textOf inp.s).1 ≠ [])
      (h : Output env { inp with s := (textOf inp.s).2 } out n) :
      Output env inp ((textOf inp.s).1 ++ out) ((textOf inp.s).1.length + n)
  | spec {inp inp' : Input env.L} {sp : Spec env.L} {k : ℤ} {ps : List (List UInt8)} {out : List UInt8} {n : ℤ}
      (hs : inp.s ≠ []) (ht : (textOf inp.s).1 = []) (hsp : parseSpec env.arch true inp = .ok (.spec sp inp'))
      (hk : convert env 0 sp = .ok (k, ps)) (h : Output env inp' out n) : Output env inp (ps.flatten ++ out) (k + n)

/-- The conversions in a format. -/
inductive Occurs (env : Env) : Input env.L → Spec env.L → Prop
  | text {inp : Input env.L} {sp : Spec env.L} (hs : inp.s ≠ []) (ht : (textOf inp.s).1 ≠ [])
      (h : Occurs env { inp with s := (textOf inp.s).2 } sp) : Occurs env inp sp
  | here {inp inp' : Input env.L} {sp : Spec env.L} (hs : inp.s ≠ []) (ht : (textOf inp.s).1 = [])
      (hsp : parseSpec env.arch true inp = .ok (.spec sp inp')) : Occurs env inp sp
  | later {inp inp' : Input env.L} {sp sp' : Spec env.L} (hs : inp.s ≠ []) (ht : (textOf inp.s).1 = [])
      (hsp : parseSpec env.arch true inp = .ok (.spec sp inp')) (h : Occurs env inp' sp') : Occurs env inp sp'

variable {env : Env} {inp : Input env.L} {sp : Spec env.L} {out : List UInt8} {n cnt w k : ℤ} {ps : List (List UInt8)}
  {st : State env.L}

theorem occurs_of_nil (hs : inp.s = []) (sp : Spec env.L) : ¬ Occurs env inp sp := by
  rintro (⟨hs', -⟩ | ⟨hs', -⟩ | ⟨hs', -⟩)
  · exact hs' hs
  · exact hs' hs
  · exact hs' hs

theorem occurs_of_text (hs : inp.s ≠ []) (ht : (textOf inp.s).1 ≠ [])
    (sp : Spec env.L) : Occurs env inp sp ↔ Occurs env { inp with s := (textOf inp.s).2 } sp := by
  constructor
  · rintro (⟨-, -, h⟩ | ⟨-, ht', -⟩ | ⟨-, ht', -⟩)
    · exact h
    · exact absurd ht' ht
    · exact absurd ht' ht
  · exact .text hs ht

theorem occurs_of_spec {inp' : Input env.L} (hs : inp.s ≠ [])
    (ht : (textOf inp.s).1 = []) (hsp : parseSpec env.arch true inp = .ok (.spec sp inp')) (sp' : Spec env.L) :
    Occurs env inp sp' ↔ sp' = sp ∨ Occurs env inp' sp' := by
  constructor
  · intro h
    cases h with
    | text _ ht' => exact absurd ht ht'
    | here _ _ hsp' =>
      cases hsp.symm.trans hsp'
      exact Or.inl rfl
    | later _ _ hsp' h =>
      cases hsp.symm.trans hsp'
      exact Or.inr h
  · rintro (rfl | h)
    · exact .here hs ht hsp
    · exact .later hs ht hsp h

/-- The specification that is found is valid, and the arguments are left as they are. -/
theorem valid_of_parseSpec {inp' : Input env.L} (hs : inp.s ≠ []) (hnl : inp.Args)
    (hsp : parseSpec env.arch true inp = .ok (.spec sp inp')) :
    sp.Valid ∧ inp'.Args ∧ inp'.s.length < inp.s.length := by
  rcases parseSpec_spec env.arch hs hnl with ⟨sp', inp'', h, hsame, hlt, hvalid, -⟩ | ⟨h, -⟩ | ⟨h, -⟩ | ⟨e, h, -⟩
  · cases hsp.symm.trans h
    exact ⟨hvalid, fun i a h => hnl i a (hsame.nlArg ▸ h), hlt⟩
  · cases hsp.symm.trans h
  · cases hsp.symm.trans h
  · cases hsp.symm.trans h

/-- **What is counted is the length of the output**, unless a conversion leaves its padding out. -/
theorem Output.length_iff (h : Output env inp out n)
    (hnl : inp.Args) (hsmall : ∀ sp, Occurs env inp sp → sp.SmallPrec) :
    (out.length : ℤ) ≤ n ∧ ((out.length : ℤ) = n ↔ ∀ sp, Occurs env inp sp → ¬ sp.Unpadded env) := by
  induction h with
  | done hs => exact ⟨le_refl _, iff_of_true rfl fun sp h => absurd h (occurs_of_nil hs sp)⟩
  | text hs ht _ ih =>
    obtain ⟨hle, heq⟩ := ih hnl fun sp h => hsmall sp ((occurs_of_text hs ht sp).mpr h)
    rw [forall_congr' fun sp => imp_congr_left (occurs_of_text hs ht sp), ← heq, List.length_append]
    exact ⟨by omega, by omega⟩
  | @spec inp inp' sp k ps out n hs ht hsp hk _ ih =>
    obtain ⟨hvalid, hnl', -⟩ := valid_of_parseSpec hs hnl hsp
    have hocc := occurs_of_spec hs ht hsp
    obtain ⟨hle, heq⟩ := ih hnl' fun sp h => hsmall sp ((hocc sp).mpr (Or.inr h))
    have hagree := convert_spec env (show (0 : ℤ) ≤ 0 ∧ (0 : ℤ) ≤ INT_MAX by decide) hvalid
      (hsmall sp ((hocc sp).mpr (Or.inl rfl)))
    rw [hk] at hagree
    generalize fieldSize env sp = r at hagree
    cases hagree with
    | ok hk hle' heq' =>
      unfold size at hle' heq'
      have hall : (∀ sp', Occurs env inp sp' → ¬ sp'.Unpadded env) ↔
          ¬ sp.Unpadded env ∧ ∀ sp', Occurs env inp' sp' → ¬ sp'.Unpadded env := by
        rw [forall_congr' fun sp' => imp_congr_left (hocc sp')]
        constructor
        · exact fun h => ⟨h sp (Or.inl rfl), fun sp' h' => h sp' (Or.inr h')⟩
        · rintro ⟨hfirst, hlater⟩ sp' (rfl | h')
          · exact hfirst
          · exact hlater sp' h'
      rw [hall, ← heq, ← heq', List.length_append]
      exact ⟨by omega, by omega⟩

/-! ## Behind other output -/

/-- A field behind other output: the same, or too long. -/
inductive Behind (cnt k : ℤ) (ps : List (List UInt8)) : Except Stop (ℤ × List (List UInt8)) → Prop
  | same : Behind cnt k ps (.ok (k, ps))
  | overflow (h : INT_MAX < cnt + k) : Behind cnt k ps (.error (.err .EOVERFLOW))

theorem emitField_behind (hcnt : 0 ≤ cnt ∧ cnt ≤ INT_MAX) {q : Field}
    (h : emitField 0 w q = .ok (k, ps)) : Behind cnt k ps (emitField cnt w q) := by
  have hmax : INT_MAX = 2147483647 := rfl
  unfold emitField at h ⊢
  dsimp only at h ⊢
  generalize (if q.p < (q.digits.length : ℤ) then (q.digits.length : ℤ) else q.p) = p at h ⊢
  obtain ⟨room, hroom, h⟩ := bind_ok h
  rw [hroom, ok_bind]
  by_cases hp : p > room
  · rw [if_pos hp] at h
    cases h
  rw [if_neg hp] at h ⊢
  obtain ⟨total, htotal, h⟩ := bind_ok h
  rw [htotal, ok_bind]
  rw [ck_of_isInt (show IsInt (INT_MAX - 0) by decide), lift_ok, ok_bind] at h
  rw [ck_of_isInt (show IsInt (INT_MAX - cnt) from ⟨by omega, by omega⟩), lift_ok, ok_bind]
  generalize (if w < total then total else w) = w' at h ⊢
  by_cases hw : w' > INT_MAX - 0
  · rw [if_pos hw] at h
    cases h
  rw [if_neg hw] at h
  obtain ⟨before, h1, h⟩ := bind_ok h
  obtain ⟨zeros, h2, h⟩ := bind_ok h
  obtain ⟨digits, h3, h⟩ := bind_ok h
  obtain ⟨after, h4, h⟩ := bind_ok h
  cases h
  split_ifs with hlong
  · exact .overflow (by omega)
  · rw [h1, h2, h3, h4]
    exact .same

theorem convertInt_behind {arch : Arch} {p : ℤ} (hcnt : 0 ≤ cnt ∧ cnt ≤ INT_MAX) {t : UInt8} {v : ℕ} {xp : Bool}
    {fl : BitVec 32} (h : convertInt arch 0 t v w p xp fl = .ok (k, ps)) :
    Behind cnt k ps (convertInt arch cnt t v w p xp fl) := by
  obtain ⟨r, hr, h⟩ := bind_ok h
  unfold convertInt
  rw [hr]
  cases r with
  | error e => cases h
  | ok q => exact emitField_behind hcnt h

theorem convertStr_behind {p : ℤ} (hcnt : 0 ≤ cnt ∧ cnt ≤ INT_MAX) {a : List UInt8} {fl : BitVec 32}
    (h : convertStr 0 a w p fl = .ok (k, ps)) :
    Behind cnt k ps (convertStr cnt a w p fl) := by
  obtain ⟨n, hn, h⟩ := bind_ok h
  obtain ⟨more, hmore, h⟩ := bind_ok h
  unfold convertStr
  rw [hn, ok_bind, hmore]
  cases more with
  | true => cases h
  | false => exact emitField_behind hcnt h

/-- **A conversion behind other output** has the same field, or this is too long. -/
theorem convert_behind (hcnt : 0 ≤ cnt ∧ cnt ≤ INT_MAX)
    (h : convert env 0 sp = .ok (k, ps)) : Behind cnt k ps (convert env cnt sp) := by
  unfold convert at h ⊢
  by_cases hn : sp.t = 110
  · rw [if_pos hn] at h ⊢
    cases h
    exact .same
  rw [if_neg hn] at h ⊢
  by_cases hm : sp.t = 109
  · rw [if_pos hm] at h ⊢
    exact convertStr_behind hcnt h
  rw [if_neg hm] at h ⊢
  by_cases hfp : sp.t ∈ fpLetters
  · -- neither these nor the wide conversions look at the count
    rw [if_pos hfp] at h ⊢
    rw [h]
    exact .same
  rw [if_neg hfp] at h ⊢
  by_cases hs : sp.t = 115
  · rw [if_pos hs] at h ⊢
    cases ha : sp.arg with
    | none =>
      rw [ha] at h
      cases h
    | some a =>
      rw [ha] at h
      cases a with
      | str s => exact convertStr_behind hcnt h
      | _ => cases h
  rw [if_neg hs] at h ⊢
  by_cases hS : sp.t = 83
  · rw [if_pos hS] at h ⊢
    rw [h]
    exact .same
  rw [if_neg hS] at h ⊢
  cases ha : sp.arg with
  | none =>
    rw [ha] at h
    cases h
  | some a =>
    rw [ha] at h
    cases a with
    | num v =>
      dsimp only at h ⊢
      by_cases hc : sp.t = 99 ∨ sp.t = 67 ∧ v = 0
      · rw [if_pos hc] at h ⊢
        exact emitField_behind hcnt h
      rw [if_neg hc] at h ⊢
      split_ifs at h ⊢ with hC
      · rw [h]
        exact .same
      · exact convertInt_behind hcnt h
    | _ => cases h

/-- The second pass writes `out` and counts `n` for it, if the count stays an `int`, and fails otherwise. -/
def Lands (env : Env) (out : List UInt8) (n : ℤ) (fuel : ℕ) (st : State env.L) : Prop :=
  (st.cnt + st.l + n ≤ INT_MAX → ∃ st', loop env true fuel st = .ok (.ret (st.cnt + st.l + n), st') ∧
      st'.out.flatten = st.out.flatten ++ out) ∧
    (INT_MAX < st.cnt + st.l + n → ∃ e st', loop env true fuel st = .ok (.fail e, st'))

theorem Lands.of_fail {e : Err}
    (hstep : step env true st = .error (.err e)) (hn : INT_MAX < st.cnt + st.l + n) (fuel : ℕ) :
    Lands env out n (fuel + 1) st :=
  ⟨fun h => absurd h (not_le.mpr hn), fun _ => ⟨e, st, by rw [loop, hstep]⟩⟩

theorem Lands.of_next {bytes : List UInt8} {d : ℤ} {fuel : ℕ} {st1 : State env.L}
    (h : Lands env out n fuel st1) (hstep : step env true st = .ok (.next st1))
    (hcnt : st1.cnt + st1.l = st.cnt + st.l + d) (hout : st1.out.flatten = st.out.flatten ++ bytes) :
    Lands env (bytes ++ out) (d + n) (fuel + 1) st := by
  obtain ⟨hret, hfail⟩ := h
  rw [hcnt, add_assoc (st.cnt + st.l)] at hret hfail
  unfold Lands
  rw [loop, hstep]
  refine ⟨fun hle => ?_, hfail⟩
  obtain ⟨st', hrun, hflat⟩ := hret hle
  exact ⟨st', hrun, by rw [hflat, hout, List.append_assoc]⟩

/-- **`printf_core` writes the full output**, if what is counted is an `int`, and fails otherwise. -/
theorem loop_output (h : Output env inp out n)
    (hnl : inp.Args) (hsmall : ∀ sp, Occurs env inp sp → sp.SmallPrec) {fuel : ℕ} (hfuel : inp.s.length < fuel)
    (hst : st.inp = inp) (hcounts : st.Counts) : Lands env out n fuel st := by
  -- what is still to be counted is not negative
  have hnonneg {inp : Input env.L} {out : List UInt8} {n : ℤ} (h : Output env inp out n) (hnl : inp.Args)
      (hsmall : ∀ sp, Occurs env inp sp → sp.SmallPrec) : 0 ≤ n :=
    (Int.natCast_nonneg _).trans (h.length_iff hnl hsmall).1
  induction h generalizing fuel st with
  | done hs =>
    subst hst
    rcases fuel with _ | fuel
    · omega
    have hstep := step_eq env true hcounts
    by_cases hbig : st.cnt + st.l > INT_MAX
    · rw [if_pos hbig] at hstep
      exact .of_fail hstep (by omega) fuel
    · rw [if_neg hbig, if_pos hs] at hstep
      exact ⟨fun _ => ⟨_, by rw [loop, hstep, add_zero], by rw [List.append_nil]⟩, fun h => by omega⟩
  | @text inp out n hs ht hout ih =>
    subst hst
    have hsmall' := fun sp h => hsmall sp ((occurs_of_text hs ht sp).mpr h)
    have hn := hnonneg hout hnl hsmall'
    rcases fuel with _ | fuel
    · omega
    have hlen := length_textOf_le st.inp.s
    have hpos := List.length_pos_iff.mpr ht
    have hcnt := hcounts.cnt
    have hl := hcounts.l
    have hstep := step_eq env true hcounts
    by_cases hbig : st.cnt + st.l > INT_MAX
    · rw [if_pos hbig] at hstep
      exact .of_fail hstep (by omega) fuel
    by_cases hlong : st.cnt + st.l + (textOf st.inp.s).1.length > INT_MAX
    · rw [if_neg hbig, if_neg hs, if_pos hlong] at hstep
      exact .of_fail hstep (by omega) fuel
    rw [if_neg hbig, if_neg hs, if_neg hlong, if_pos ht] at hstep
    have hcounts' : State.Counts ⟨{ st.inp with s := (textOf st.inp.s).2 }, st.cnt + st.l,
        (textOf st.inp.s).1.length, st.out ++ [(textOf st.inp.s).1]⟩ :=
      ⟨⟨add_nonneg hcnt.1 hl.1, not_lt.mp hbig⟩, Int.natCast_nonneg _, by dsimp only; omega⟩
    refine (ih hnl hsmall' ?_ rfl hcounts').of_next hstep rfl ?_
    · show (textOf st.inp.s).2.length < fuel
      omega
    · rw [List.flatten_append, List.flatten_singleton]
  | @spec inp inp' sp k ps out n hs ht hsp hk hout ih =>
    subst hst
    obtain ⟨hvalid, hnl', hshort⟩ := valid_of_parseSpec hs hnl hsp
    have hocc := occurs_of_spec hs ht hsp
    have hsmall' := fun sp h => hsmall sp ((hocc sp).mpr (Or.inr h))
    have hn := hnonneg hout hnl' hsmall'
    rcases fuel with _ | fuel
    · omega
    have hcnt := hcounts.cnt
    have hl := hcounts.l
    have hstep := step_eq env true hcounts
    have hkbound : 0 ≤ k ∧ k ≤ INT_MAX := by
      have hagree := convert_spec env (show (0 : ℤ) ≤ 0 ∧ (0 : ℤ) ≤ INT_MAX by decide) hvalid
        (hsmall sp ((hocc sp).mpr (Or.inl rfl)))
      rw [hk] at hagree
      generalize fieldSize env sp = r at hagree
      cases hagree with
      | ok hl => exact hl
    by_cases hbig : st.cnt + st.l > INT_MAX
    · rw [if_pos hbig] at hstep
      exact .of_fail hstep (by omega) fuel
    have hcnt' : 0 ≤ st.cnt + st.l ∧ st.cnt + st.l ≤ INT_MAX := ⟨add_nonneg hcnt.1 hl.1, not_lt.mp hbig⟩
    rw [if_neg hbig, if_neg hs, ht, List.length_nil, if_neg (by omega), if_pos rfl, stepSpec]
      at hstep
    rw [hsp, ok_bind] at hstep
    dsimp only at hstep
    have hbehind := convert_behind hcnt' hk
    generalize convert env (st.cnt + st.l) sp = c at hbehind hstep
    cases hbehind with
    | same =>
      refine (ih hnl' hsmall' ?_ rfl ⟨hcnt', hkbound⟩).of_next hstep rfl ?_
      · exact hshort.trans_le (Nat.le_of_lt_succ hfuel)
      · rw [List.flatten_append, List.flatten_append, List.flatten_singleton, List.append_nil]
    | overflow hover => exact .of_fail hstep (by omega) fuel

end Leblibc.Printf.Core
