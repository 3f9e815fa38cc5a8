import Leblibc.Misc.GetoptOperands
import Mathlib.Data.List.Induction

/-!
# Parsing arguments: the permutation

Every call of `getopt_long` moves the arguments it has used up before the operands it has passed over. As long as
no letter lacks its argument while operands have been passed over, the array holds the same arguments as before
with the null pointer after them, and when the options end the operands are left, in their order.

A letter that lacks its argument counts the null pointer at the end of the array as used up, and the null pointer
is then moved before the operands.

## Main results

* `permutes_eq`: what the calls of `permute` do
* `getoptLong_spec`, `getoptLong_strays`: one call
* `getoptLong_intact_iff`: sequences of calls
-/

namespace Leblibc.Getopt

open List

/-! ## `permute` -/

/-- The entries from `dest` on move up by one, over the entry after them. -/
theorem shift_eq (pre x : List (Option Arg)) (y : Option Arg) (rest : List (Option Arg)) :
    ∃ z, shift pre.length x.length (pre ++ x ++ y :: rest) = pre ++ z :: x ++ rest := by
  induction x using reverseRecOn generalizing y rest with
  | nil => exact ⟨y, by simp [shift]⟩
  | append_singleton x a ih =>
    obtain ⟨z, hz⟩ := ih a (a :: rest)
    have hget : (pre ++ (x ++ [a]) ++ y :: rest).getD (pre.length + x.length) none = a := by
      simp [getD_eq_getElem?_getD]
    have hset : (pre ++ (x ++ [a]) ++ y :: rest).set (pre.length + x.length + 1) a =
        pre ++ x ++ a :: a :: rest := by
      have hlen : (pre ++ x ++ [a]).length = pre.length + x.length + 1 := by
        simp only [length_append, length_singleton]
      rw [show pre ++ (x ++ [a]) ++ y :: rest = (pre ++ x ++ [a]) ++ y :: rest by simp,
        set_append_right _ _ (Nat.le_of_eq hlen), hlen]
      simp
    rw [length_append, length_singleton, shift, hget, hset, hz]
    simp

theorem permute_eq (pre x : List (Option Arg)) (y : Option Arg) (rest : List (Option Arg)) :
    permute pre.length (pre.length + x.length) (pre ++ x ++ y :: rest) = pre ++ y :: x ++ rest := by
  obtain ⟨z, hz⟩ := shift_eq pre x y rest
  rw [permute, Nat.add_sub_cancel_left, hz]
  simp

/-- **The calls of `permute`** after an option: the entries `c` that are used up come before the entries `x` that
were passed over. -/
theorem permutes_eq (pre x c rest : List (Option Arg)) :
    permutes pre.length (pre.length + x.length + c.length - 1) c.length (pre ++ x ++ c ++ rest) =
      pre ++ c ++ x ++ rest := by
  -- the last of the entries used up is moved each time, and those moved before it are now passed over
  induction c using reverseRecOn generalizing x with
  | nil => simp [permutes]
  | append_singleton c y ih =>
    have hsrc : pre.length + x.length + (c ++ [y]).length - 1 = pre.length + (x ++ c).length := by
      simp only [length_append, length_singleton]
      omega
    have hlist : pre ++ x ++ (c ++ [y]) ++ rest = pre ++ (x ++ c) ++ y :: rest := by simp
    have hn : (c ++ [y]).length = c.length + 1 := by simp
    rw [hsrc, hlist, hn, permutes, permute_eq]
    have hnext := ih (y :: x)
    have hlen : pre.length + (y :: x).length + c.length - 1 = pre.length + (x ++ c).length := by
      simp only [length_cons]
      omega
    rw [hlen, show pre ++ y :: x ++ c ++ rest = pre ++ y :: (x ++ c) ++ rest by simp] at hnext
    rw [hnext]
    simp

/-! ## Looking for an option -/

/-- The array holds the arguments `l`, and the null pointer after them. -/
def Holds (st : State) (l : List Arg) : Prop := st.argv = l.map some ++ [none]

variable {st : State} {l : List Arg} {w : Arg} {cfg : Config} {ops t : List Arg}

theorem Holds.arg (h : Holds st l) (i : ℕ) : st.arg i = l[i]? := by
  rw [State.arg, h]
  rcases Nat.lt_trichotomy i l.length with hlt | rfl | hgt
  · rw [getElem?_append_left (by simpa using hlt), getElem?_map, getElem?_eq_getElem hlt]
    rfl
  · simp
  · rw [getElem?_eq_none (by simp; omega), getElem?_eq_none (by omega)]
    rfl

theorem findOption_step (h : Holds st l) {i : ℕ} (hi : l[i]? = some w)
    (fuel : ℕ) : findOption l.length st (fuel + 1) i =
      if OptionLike w then some i else findOption l.length st fuel (i + 1) := by
  have hlt : i < l.length := (List.getElem?_eq_some_iff.mp hi).1
  simp only [findOption, h.arg, hi]
  rw [if_neg (by omega)]
  rfl

/-- The loop finds the first argument that is an option. -/
theorem findOption_some (h : Holds st l) (ops : List Arg)
    (hops : ∀ o ∈ ops, ¬OptionLike o) (hw : OptionLike w) (t : List Arg) : ∀ (i fuel : ℕ),
    l.drop i = ops ++ w :: t → ops.length < fuel →
    findOption l.length st fuel i = some (i + ops.length) := by
  have hhead : ∀ {i : ℕ} {o : Arg} {rest : List Arg}, l.drop i = o :: rest → l[i]? = some o := by
    intro i o rest hl
    rw [← head?_drop, hl]
    rfl
  induction ops with
  | nil =>
    intro i fuel hl hfuel
    obtain ⟨fuel, rfl⟩ := Nat.exists_eq_add_of_lt hfuel
    rw [findOption_step h (hhead hl), if_pos hw]
    rfl
  | cons o ops ih =>
    intro i fuel hl hfuel
    obtain ⟨fuel, rfl⟩ := Nat.exists_eq_add_of_lt hfuel
    have hrest : l.drop (i + 1) = ops ++ w :: t := by
      rw [← tail_drop, hl]
      rfl
    rw [findOption_step h (hhead hl), if_neg (hops o mem_cons_self),
      ih (fun o' ho' => hops o' (mem_cons_of_mem _ ho')) (i + 1) _ hrest (by simp; omega)]
    simp
    omega

/-- The loop finds nothing where there are operands only. -/
theorem findOption_none (h : Holds st l) : ∀ (fuel i : ℕ),
    (∀ o ∈ l.drop i, ¬OptionLike o) → findOption l.length st fuel i = none := by
  intro fuel
  induction fuel with
  | zero => exact fun _ _ => rfl
  | succ fuel ih =>
    intro i hops
    by_cases hlt : i < l.length
    · rw [drop_eq_getElem_cons hlt] at hops
      rw [findOption_step h (getElem?_eq_getElem hlt), if_neg (hops _ mem_cons_self)]
      exact ih (i + 1) fun o ho => hops o (mem_cons_of_mem _ ho)
    · rw [findOption, if_pos (by omega)]

/-- Arguments are operands up to the first option, if there is one. -/
theorem exists_option (l : List Arg) : (∀ o ∈ l, ¬OptionLike o) ∨
    ∃ ops w t, l = ops ++ w :: t ∧ (∀ o ∈ ops, ¬OptionLike o) ∧ OptionLike w := by
  induction l with
  | nil => exact .inl nofun
  | cons a l ih =>
    by_cases ha : OptionLike a
    · exact .inr ⟨[], a, l, rfl, nofun, ha⟩
    · rcases ih with h | ⟨ops, w, t, rfl, hops, hw⟩
      · exact .inl (List.forall_mem_cons.mpr ⟨ha, h⟩)
      · exact .inr ⟨a :: ops, w, t, rfl, List.forall_mem_cons.mpr ⟨ha, hops⟩, hw⟩

/-! ## One call -/

/-- The arguments from `optind` on. -/
def remaining (cfg : Config) (st : State) : List Arg :=
  ((st.argv.take cfg.argc).drop st.optind).filterMap id

/-- Operands come first, and the option after them is the last argument and lacks its own. -/
def Strays (cfg : Config) (st : State) : Prop :=
  ∃ ops w, ops ≠ [] ∧ remaining cfg st = ops ++ [w] ∧ (∀ o ∈ ops, ¬OptionLike o) ∧ OptionLike w ∧
    ¬EndsOptions w ∧ Lacks cfg st.place w

/-- The array holds the original arguments in some order, and the null pointer after them. -/
def Intact (l₀ : List Arg) (st : State) : Prop := ∃ l, l.Perm l₀ ∧ Holds st l

/-- The state between calls, while the array is intact. -/
structure Inv (cfg : Config) (st : State) (l : List Arg) : Prop where
  holds : Holds st l
  argc : cfg.argc = l.length
  reset : st.optreset = false
  pos : 0 < st.optind
  place : st.optpos ≠ 0 → ∃ ops w t, l.drop st.optind = ops ++ w :: t ∧ (∀ o ∈ ops, ¬OptionLike o) ∧
    OptionLike w ∧ ¬EndsOptions w ∧ Short cfg w ∧ st.optpos < w.bytes.length

theorem Holds.remaining (h : Holds st l) (hargc : cfg.argc = l.length) : remaining cfg st = l.drop st.optind := by
  have htake : st.argv.take cfg.argc = l.map some := by
    rw [h, hargc, take_left' (by simp)]
  rw [Getopt.remaining, htake, ← map_drop]
  simp

/-- The first option is where the operands before it end. -/
theorem append_option_inj {ops' : List Arg} {w' : Arg} {t' : List Arg}
    (h : ops ++ w :: t = ops' ++ w' :: t') (hops : ∀ o ∈ ops, ¬OptionLike o) (hw : OptionLike w)
    (hops' : ∀ o ∈ ops', ¬OptionLike o) (hw' : OptionLike w') : ops = ops' ∧ w = w' ∧ t = t' := by
  induction ops generalizing ops' with
  | nil =>
    rcases ops' with _ | ⟨o, ops'⟩
    · obtain ⟨rfl, rfl⟩ := List.cons.inj h
      exact ⟨rfl, rfl, rfl⟩
    · obtain ⟨rfl, -⟩ := List.cons.inj h
      exact absurd hw (hops' w mem_cons_self)
  | cons o ops ih =>
    rcases ops' with _ | ⟨o', ops'⟩
    · obtain ⟨rfl, -⟩ := List.cons.inj h
      exact absurd hw' (hops o mem_cons_self)
    · obtain ⟨rfl, hrest⟩ := List.cons.inj h
      obtain ⟨rfl, hw, ht⟩ := ih hrest (fun o ho => hops o (mem_cons_of_mem _ ho))
        (fun o ho => hops' o (mem_cons_of_mem _ ho))
      exact ⟨rfl, hw, ht⟩

theorem Inv.at (h : Inv cfg st l)
    (hl : l.drop st.optind = ops ++ w :: t) (hops : ∀ o ∈ ops, ¬OptionLike o) (hw : OptionLike w) :
    At cfg w t { st with optind := st.optind + ops.length } := by
  have hlen : l.length = st.optind + ops.length + t.length + 1 := by
    have := congrArg List.length hl
    simp only [length_drop, length_append, length_cons] at this
    omega
  have hdrop : l.drop (st.optind + ops.length) = w :: t := by
    rw [← drop_drop, hl, drop_left]
  have hfirst : ∀ i, l[st.optind + ops.length + i]? = (w :: t)[i]? := by
    intro i
    rw [← hdrop, getElem?_drop]
  -- when an option has been looked at before, it is this one
  have hplace : st.optpos ≠ 0 → ¬EndsOptions w ∧ Short cfg w ∧ st.optpos < w.bytes.length := by
    intro h0
    obtain ⟨ops', w', t', hl', hops', hw', he, hs, hp⟩ := h.place h0
    obtain ⟨-, rfl, -⟩ := append_option_inj (hl.symm.trans hl') hops hw hops' hw'
    exact ⟨he, hs, hp⟩
  constructor
  case reset => exact h.reset
  case pos => exact Nat.add_pos_left h.pos _
  case arg => exact (h.holds.arg _).trans (hfirst 0)
  case next => exact (h.holds.arg _).trans ((hfirst 1).trans (by cases t <;> rfl))
  case argc => exact h.argc.trans hlen
  case option => exact hw
  case ends =>
    intro he
    by_contra hc
    exact (hplace hc).1 he
  case short => exact fun h0 => (hplace h0).2.1
  case place =>
    by_cases h0 : st.optpos = 0
    · show st.optpos < _
      have := hw.one_lt
      omega
    · exact (hplace h0).2.2

/-- A call that finds an option: the entries that `__getopt_long_core` has used up are moved before the operands. -/
theorem getoptLong_eq (h : Inv cfg st l) (hopt : byte cfg.optstring 0 ≠ plus ∧ byte cfg.optstring 0 ≠ dash)
    (hl : l.drop st.optind = ops ++ w :: t) (hops : ∀ o ∈ ops, ¬OptionLike o) (hw : OptionLike w)
    {r : ℤ × State} (hr : r = longCore cfg false w { st with optind := st.optind + ops.length })
    (hargv : r.2.argv = st.argv) {c rest : List (Option Arg)}
    (hc : (w :: t).map some ++ [none] = c ++ rest) (hind : r.2.optind = st.optind + ops.length + c.length) :
    (getoptLong cfg st).1 = r.1 ∧ (getoptLong cfg st).2.optind = st.optind + c.length ∧
      (getoptLong cfg st).2.optpos = r.2.optpos ∧ (getoptLong cfg st).2.optreset = r.2.optreset ∧
      (getoptLong cfg st).2.argv = (l.take st.optind).map some ++ c ++ ops.map some ++ rest := by
  have hat := h.at hl hops hw
  have hlt : st.optind < l.length := by
    by_contra hge
    rw [drop_eq_nil_of_le (by omega)] at hl
    cases ops <;> cases hl
  have hreset : st.reset = st := if_neg (by simp [h.reset, Nat.pos_iff_ne_zero.mp h.pos])
  have hstart : ¬(st.optind ≥ cfg.argc ∨ st.arg st.optind = none) := by
    rw [h.argc, h.holds.arg]
    simp
    omega
  have hfind : findOption cfg.argc st (cfg.argc + 1 - st.optind) st.optind = some (st.optind + ops.length) := by
    rw [h.argc]
    refine findOption_some h.holds ops hops hw t _ _ hl ?_
    have := congrArg List.length hl
    simp only [length_drop, length_append] at this
    omega
  have hcall : getoptLong cfg st = if st.optind + ops.length > st.optind
      then (r.1, r.2.restore st.optind (r.2.optind - (st.optind + ops.length))) else r := by
    simp only [getoptLong, getoptLongWith, hreset, if_neg hstart, if_pos hopt, hfind]
    simp only [getoptLongAt, hat.arg, ← hr]
  -- the array, with the place where the options used up so far end
  have hsplit : st.argv = (l.take st.optind).map some ++ ops.map some ++ c ++ rest := by
    rw [h.holds, append_assoc _ c rest, ← hc]
    nth_rewrite 1 [← take_append_drop st.optind l]
    rw [hl]
    simp
  have hpre : ((l.take st.optind).map some).length = st.optind := by
    simp
    omega
  rw [hcall]
  split
  · have hcnt : r.2.optind - (st.optind + ops.length) = c.length := by omega
    have hsrc : r.2.optind - 1 =
        ((l.take st.optind).map some).length + (ops.map some).length + c.length - 1 := by
      rw [hpre, hind, length_map]
    refine ⟨rfl, by rw [State.restore, hcnt], rfl, rfl, ?_⟩
    have hperm := permutes_eq ((l.take st.optind).map some) (ops.map some) c rest
    rw [← hsrc, hpre] at hperm
    rw [State.restore, hcnt, hargv, hsplit, hperm]
  · have hnil : ops = [] := List.length_eq_zero_iff.mp (by omega)
    subst hnil
    refine ⟨rfl, by simpa using hind, rfl, rfl, ?_⟩
    rw [hargv, hsplit]
    simp

/-- What a call that does not stray has to do: it keeps the array intact, and either the options go on and the
operands are the same ones, or they end and the operands are left. -/
structure Works (cfg : Config) (st : State) (l : List Arg) (r : ℤ × State) (l' : List Arg) : Prop where
  perm : l'.Perm l
  inv : Inv cfg r.2 l'
  goesOn : r.1 ≠ -1 → operands cfg false r.2.place (l'.drop r.2.optind) =
    operands cfg false st.place (l.drop st.optind)
  ends : NoMinusOne cfg → r.1 = -1 → l'.drop r.2.optind = operands cfg false st.place (l.drop st.optind)

theorem getoptLong_of_operands (h : Inv cfg st l) (hopt : byte cfg.optstring 0 ≠ plus ∧ byte cfg.optstring 0 ≠ dash)
    (hops : ∀ o ∈ l.drop st.optind, ¬OptionLike o) : Works cfg st l (getoptLong cfg st) l := by
  have hreset : st.reset = st := if_neg (by simp [h.reset, Nat.pos_iff_ne_zero.mp h.pos])
  have hcall : getoptLong cfg st = (-1, st) := by
    simp only [getoptLong, getoptLongWith, hreset]
    split
    · rfl
    · rw [h.argc, findOption_none h.holds _ _ hops]
  have hleft : operands cfg false st.place (l.drop st.optind) = l.drop st.optind := by
    have := operands_append cfg st.place hops []
    simpa [operands] using this
  rw [hcall]
  exact ⟨List.Perm.refl l, h, fun hc => absurd rfl hc, fun _ _ => hleft.symm⟩

/-- The operands of arguments that begin with operands and an option. -/
theorem operands_option (cfg : Config) (pos : ℕ) (hops : ∀ o ∈ ops, ¬OptionLike o)
    (hw : OptionLike w) : operands cfg false pos (ops ++ w :: t) =
      ops ++ if EndsOptions w then t else operands cfg (takesNext cfg pos w) 1 t := by
  rw [operands_append cfg pos hops, operands, if_neg (not_not.mpr hw)]

/-- The arguments `d` are used up and have been moved before the operands. -/
theorem Inv.moved (h : Inv cfg st l) {d : List Arg}
    (hl : l.drop st.optind = ops ++ (d ++ t)) (hle : st.optind ≤ l.length) {st' : State}
    (hargv : st'.argv = (l.take st.optind).map some ++ d.map some ++ ops.map some ++ (t.map some ++ [none]))
    (hind : st'.optind = st.optind + d.length) (hpos : st'.optpos = 0) (hreset : st'.optreset = false) :
    ∃ l', l'.Perm l ∧ Inv cfg st' l' ∧ l'.drop st'.optind = ops ++ t := by
  have hpre : (l.take st.optind).length = st.optind := length_take_of_le hle
  have hsplit : l = l.take st.optind ++ (ops ++ (d ++ t)) := by rw [← hl, take_append_drop]
  have hperm : (l.take st.optind ++ (d ++ (ops ++ t))).Perm l := by
    have := Perm.append_left (l.take st.optind) (perm_append_comm_assoc d ops t)
    rwa [← hsplit] at this
  refine ⟨l.take st.optind ++ (d ++ (ops ++ t)), hperm, ?_, ?_⟩
  · refine ⟨?_, h.argc.trans hperm.length_eq.symm, hreset, ?_, fun hc => absurd hpos hc⟩
    · rw [Holds, hargv]
      simp
    · rw [hind]
      exact Nat.add_pos_left h.pos _
  · rw [hind, ← append_assoc, drop_left' (by simp [hpre])]

/-- **One call** of `getopt_long` that does not stray. -/
theorem getoptLong_works (h : Inv cfg st l)
    (hopt : byte cfg.optstring 0 ≠ plus ∧ byte cfg.optstring 0 ≠ dash) (hns : ¬Strays cfg st) :
    ∃ l', Works cfg st l (getoptLong cfg st) l' := by
  rcases exists_option (l.drop st.optind) with hops | ⟨ops, w, t, hl, hops, hw⟩
  · exact ⟨l, getoptLong_of_operands h hopt hops⟩
  have hle : st.optind ≤ l.length := by
    by_contra hge
    rw [drop_eq_nil_of_le (by omega)] at hl
    cases ops <;> cases hl
  obtain ⟨hhandles, hargv, hreset⟩ := longCore_handles (h.at hl hops hw)
  generalize hr : longCore cfg false w { st with optind := st.optind + ops.length } = r at hhandles hargv hreset
  have hcall := fun (c rest : List (Option Arg)) (hc : (w :: t).map some ++ [none] = c ++ rest)
      (hind : r.2.optind = st.optind + ops.length + c.length) =>
    getoptLong_eq h hopt hl hops hw hr.symm hargv hc hind
  have hop := operands_option cfg st.place (t := t) hops hw
  rw [← hl] at hop
  have hplace : ∀ {st' : State}, st'.optpos = 0 → st'.place = 1 := fun h0 => if_pos h0
  cases hhandles with
  | ends he hret hind hpos =>
    -- the argument is `"--"`
    obtain ⟨h1, h2, h3, h4, h5⟩ := hcall [some w] (t.map some ++ [none]) (by simp) hind
    obtain ⟨l', hperm, hinv, hdrop⟩ := h.moved (d := [w]) hl hle h5 h2 (h3.trans hpos)
      (h4.trans (hreset.trans h.reset))
    refine ⟨l', hperm, hinv, fun hc => absurd (h1.trans hret) hc, fun _ _ => ?_⟩
    rw [hdrop, hop, if_pos he]
  | stays he hret hind hpos hlt hshort _ htakes =>
    -- nothing is used up, and the array stays as it is
    obtain ⟨h1, h2, h3, h4, h5⟩ := hcall [] ((w :: t).map some ++ [none]) rfl hind
    have hsame : (getoptLong cfg st).2.argv = st.argv := by
      rw [h5, h.holds]
      nth_rewrite 2 [← take_append_drop st.optind l]
      rw [hl]
      simp
    have hsame' : (getoptLong cfg st).2.optind = st.optind := h2
    refine ⟨l, List.Perm.refl l, ?_, fun _ => ?_, fun hm hc => absurd (h1 ▸ hc) (hret hm)⟩
    · refine ⟨hsame.trans h.holds, h.argc, h4.trans (hreset.trans h.reset), ?_, fun _ => ?_⟩
      · rw [hsame']
        exact h.pos
      · rw [hsame', h3]
        exact ⟨ops, w, t, hl, hops, hw, he, hshort, hlt⟩
    · have hp : (getoptLong cfg st).2.place = r.2.optpos := by
        rw [State.place, h3, if_neg hpos]
      rw [hsame', hop, hp, hl, operands_option cfg _ hops hw, if_neg he, if_neg he, htakes]
      rfl
  | one he hret hind hpos htakes =>
    obtain ⟨h1, h2, h3, h4, h5⟩ := hcall [some w] (t.map some ++ [none]) (by simp) hind
    obtain ⟨l', hperm, hinv, hdrop⟩ := h.moved (d := [w]) hl hle h5 h2 (h3.trans hpos)
      (h4.trans (hreset.trans h.reset))
    refine ⟨l', hperm, hinv, fun _ => ?_, fun hm hc => absurd (h1 ▸ hc) (hret hm)⟩
    rw [hdrop, hop, if_neg he, hplace (h3.trans hpos), operands_append cfg 1 hops]
    -- an option that takes the next argument, where there is none
    cases htk : takesNext cfg st.place w with
    | false => rfl
    | true =>
      rw [(htakes htk).1]
      rfl
  | two he hret hind hpos htakes hnext =>
    rcases t with _ | ⟨x, t⟩
    · -- the null pointer is counted, and there are no operands before it
      have hnil : ops = [] := by
        by_contra hne
        refine hns ⟨ops, w, hne, (h.holds.remaining h.argc).trans hl, hops, hw, he, ?_⟩
        exact hnext.resolve_left fun hc => hc rfl
      subst hnil
      obtain ⟨h1, h2, h3, h4, h5⟩ := hcall [some w, none] [] rfl hind
      have hlast : l.length = st.optind + 1 := by
        have := congrArg List.length hl
        simp at this
        omega
      have hsame : (getoptLong cfg st).2.argv = st.argv := by
        rw [h5, h.holds]
        nth_rewrite 2 [← take_append_drop st.optind l]
        rw [hl]
        simp
      have hend : l.drop (getoptLong cfg st).2.optind = [] := by
        rw [h2]
        simp
        omega
      refine ⟨l, List.Perm.refl l, ?_, fun _ => ?_, fun hm hc => absurd (h1 ▸ hc) (hret hm)⟩
      · refine ⟨hsame.trans h.holds, h.argc, h4.trans (hreset.trans h.reset), ?_, fun hc => ?_⟩
        · rw [h2]
          exact Nat.add_pos_left h.pos _
        · exact absurd (h3.trans hpos) hc
      · rw [hend, hop, if_neg he]
        rfl
    · obtain ⟨h1, h2, h3, h4, h5⟩ := hcall [some w, some x] (t.map some ++ [none]) (by simp) hind
      obtain ⟨l', hperm, hinv, hdrop⟩ := h.moved (d := [w, x]) hl hle h5 h2 (h3.trans hpos)
        (h4.trans (hreset.trans h.reset))
      refine ⟨l', hperm, hinv, fun _ => ?_, fun hm hc => absurd (h1 ▸ hc) (hret hm)⟩
      have htakes : takesNext cfg st.place w = true := htakes
      rw [hdrop, hop, if_neg he, htakes, hplace (h3.trans hpos), operands_append cfg 1 hops]
      rfl

/-- A letter that lacks its argument counts the null pointer as used up. -/
theorem longCore_lacks (h : At cfg w t st) (he : ¬EndsOptions w) (hlacks : Lacks cfg st.place w) :
    (longCore cfg false w st).2.optind = st.optind + 2 := by
  obtain ⟨hs, hle, htk⟩ := hlacks
  have htakes : takesNext cfg st.place w = true := by
    rw [takesNext_of_short hs, lettersTake_eq cfg w.bytes h.place_lt, htk]
    exact decide_eq_true hle
  cases (longCore_handles h).1 with
  | ends he' => exact absurd he' he
  | stays _ _ _ _ hplace _ hmore =>
    omega
  | one _ _ _ _ hno => exact absurd hs (hno htakes).2
  | two _ _ hind => exact hind

/-- **A call that strays** leaves an operand where the null pointer was. -/
theorem getoptLong_strays (h : Inv cfg st l)
    (hopt : byte cfg.optstring 0 ≠ plus ∧ byte cfg.optstring 0 ≠ dash) (hs : Strays cfg st) (l0 : List Arg) :
    ¬Intact l0 (getoptLong cfg st).2 := by
  obtain ⟨ops, w, hne, hrem, hops, hw, he, hlacks⟩ := hs
  have hl : l.drop st.optind = ops ++ w :: [] := (h.holds.remaining h.argc).symm.trans hrem
  have hat := h.at hl hops hw
  have hsplit : [w].map some ++ [none] = [some w, none] ++ [] := rfl
  obtain ⟨-, -, -, -, hargv⟩ := getoptLong_eq h hopt hl hops hw rfl (longCore_handles hat).2.1 hsplit
    (longCore_lacks hat he hlacks)
  rintro ⟨l', -, hl'⟩
  rw [Holds, hargv, append_nil] at hl'
  -- the last entry is an operand, and is the null pointer
  obtain ⟨ops, o, rfl⟩ := (eq_nil_or_concat ops).resolve_left hne
  rw [concat_eq_append, map_append, ← append_assoc] at hl'
  have hlast := (append_inj' hl' rfl).2
  cases hlast

/-! ## Sequences of calls -/

theorem inv_init {l0 : List Arg} (hargc : cfg.argc = l0.length) : Inv cfg (State.init l0) l0 :=
  ⟨rfl, hargc, rfl, Nat.one_pos, fun hc => absurd rfl hc⟩

/-- As long as no call has strayed the invariant holds, and until the options end the operands are the same. -/
theorem after_inv {l0 : List Arg} (hargc : cfg.argc = l0.length)
    (hopt : byte cfg.optstring 0 ≠ plus ∧ byte cfg.optstring 0 ≠ dash) (n : ℕ)
    (hns : ∀ k < n, ¬Strays cfg (after cfg (State.init l0) k)) :
    ∃ l, l.Perm l0 ∧ Inv cfg (after cfg (State.init l0) n) l ∧
      ((∀ k < n, (getoptLong cfg (after cfg (State.init l0) k)).1 ≠ -1) →
        operands cfg false (after cfg (State.init l0) n).place (l.drop (after cfg (State.init l0) n).optind) =
          operands cfg false 1 (l0.drop 1)) := by
  induction n with
  | zero => exact ⟨l0, List.Perm.refl l0, inv_init hargc, fun _ => rfl⟩
  | succ n ih =>
    obtain ⟨l, hperm, hinv, hop⟩ := ih fun k hk => hns k (Nat.lt_succ_of_lt hk)
    obtain ⟨l', hw⟩ := getoptLong_works hinv hopt (hns n (Nat.lt_succ_self n))
    refine ⟨l', hw.perm.trans hperm, hw.inv, fun hret => ?_⟩
    exact (hw.goesOn (hret n (Nat.lt_succ_self n))).trans (hop fun k hk => hret k (Nat.lt_succ_of_lt hk))

/-- **The arguments stay a permutation** of the original ones with the null pointer after them, after any number of
calls, exactly as long as no call strays. And when the options end, and no call has strayed, the arguments left are
the operands in their original order. -/
theorem getoptLong_intact_iff {cfg : Config} {l₀ : List Arg} (hargc : cfg.argc = l₀.length)
    (hopt : byte cfg.optstring 0 ≠ plus ∧ byte cfg.optstring 0 ≠ dash) (n : ℕ) :
    ((∀ k ≤ n, Intact l₀ (after cfg (State.init l₀) k)) ↔
        ∀ k < n, ¬Strays cfg (after cfg (State.init l₀) k)) ∧
      (NoMinusOne cfg → (∀ k ≤ n, ¬Strays cfg (after cfg (State.init l₀) k)) →
        (∀ k < n, (getoptLong cfg (after cfg (State.init l₀) k)).1 ≠ -1) →
        (getoptLong cfg (after cfg (State.init l₀) n)).1 = -1 →
        remaining cfg (after cfg (State.init l₀) (n + 1)) = operands cfg false 1 (l₀.drop 1)) := by
  refine ⟨⟨fun hall => ?_, fun hns k hk => ?_⟩, fun hm hns hret hend => ?_⟩
  · -- the first call that strays would spoil the array
    intro k
    induction k using Nat.strongRecOn with
    | ind k ih =>
      intro hk hs
      obtain ⟨l, -, hinv, -⟩ := after_inv hargc hopt k fun j hj => ih j hj (Nat.lt_trans hj hk)
      exact getoptLong_strays hinv hopt hs l₀ (hall (k + 1) hk)
  · obtain ⟨l, hperm, hinv, -⟩ := after_inv hargc hopt k fun j hj => hns j (Nat.lt_of_lt_of_le hj hk)
    exact ⟨l, hperm, hinv.holds⟩
  · obtain ⟨l, -, hinv, hop⟩ := after_inv hargc hopt n fun k hk => hns k (Nat.le_of_lt hk)
    obtain ⟨l', hw⟩ := getoptLong_works hinv hopt (hns n (Nat.le_refl n))
    have hrem := hw.inv.holds.remaining hw.inv.argc
    rw [after, hrem, hw.ends hm hend, hop hret]

/-! ## An example -/

/-- `mbtowc` in the C locale. -/
def cLocale : Locale where
  mbtowc
    | [] => some (0, 0)
    | b :: _ => some (1, if b.toNat < 128 then b.toNat else 0xdf00 + b.toNat)
  nil := rfl
  pos := by
    intro s k c hs h
    cases s with
    | nil => exact absurd rfl hs
    | cons b s =>
      obtain ⟨rfl, -⟩ := Prod.mk.inj (Option.some.inj h)
      exact Nat.one_pos
  le := by
    intro s k c h
    cases s with
    | nil =>
      obtain ⟨rfl, -⟩ := Prod.mk.inj (Option.some.inj h)
      exact Nat.zero_le _
    | cons b s =>
      obtain ⟨rfl, -⟩ := Prod.mk.inj (Option.some.inj h)
      exact Nat.succ_le_succ (Nat.zero_le _)

/-- The arguments `p f -o`. -/
def operandThenOption : List Arg := [⟨10, [112], by decide⟩, ⟨20, [102], by decide⟩, ⟨30, [45, 111], by decide⟩]

/-- The three arguments, the short options `optstring` and no long ones. -/
def shortConfig (optstring : List UInt8) : Config := ⟨cLocale, 3, optstring, some [], false, true⟩

/-- Two calls for an option that takes no argument, of which the second one ends the options. -/
theorem getoptLong_intact_flag :
    (getoptLong (shortConfig [111]) (after (shortConfig [111]) (State.init operandThenOption) 1)).1 = -1 ∧
      ((∀ k ≤ 2, Intact operandThenOption (after (shortConfig [111]) (State.init operandThenOption) k)) ↔
        ∀ k < 2, ¬Strays (shortConfig [111]) (after (shortConfig [111]) (State.init operandThenOption) k)) :=
  ⟨by decide, (getoptLong_intact_iff rfl (by decide) 2).1⟩

/-- **The null pointer moves**: with the option `o` that requires an argument, the arguments `p f -o` become
`p -o`, the null pointer and `f`. -/
theorem getoptLong_moves_null :
    (after (shortConfig [111, 58]) (State.init operandThenOption) 1).argv =
        [some ⟨10, [112], by decide⟩, some ⟨30, [45, 111], by decide⟩, none, some ⟨20, [102], by decide⟩] ∧
      ¬Intact operandThenOption (after (shortConfig [111, 58]) (State.init operandThenOption) 1) := by
  have hargv : (after (shortConfig [111, 58]) (State.init operandThenOption) 1).argv =
      [some ⟨10, [112], by decide⟩, some ⟨30, [45, 111], by decide⟩, none, some ⟨20, [102], by decide⟩] := by
    decide
  refine ⟨hargv, ?_⟩
  rintro ⟨l, -, hl⟩
  have hlast := congrArg getLast? (hargv.symm.trans hl)
  simp at hlast

end Leblibc.Getopt
