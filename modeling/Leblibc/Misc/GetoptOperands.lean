import Leblibc.Misc.Getopt
import Mathlib.Data.List.GetD
import Mathlib.Tactic.Common

/-!
# Parsing arguments: options and operands

Which of its arguments a program is left with is said without the array that is permuted: an argument is an
operand unless it is an option, or is the argument of an option before it; and after `"--"` everything is an
operand. What `getopt_long` does with one argument that is an option is then one of four things: it ends the
options, it stays with the argument, it goes on to the next one, or it takes the next one as well. The last of
these it does also where there is no next argument, and then `optind` is beyond the end of the array.

## Main results

* `longCore_handles`: `__getopt_long_core` does one of the four
-/

namespace Leblibc.Getopt

open List

/-! ## Strings -/

variable {i : ℕ} {w : Arg} {cfg : Config} {t : List Arg} {st : State} {table : List LongOption}

theorem byte_eq_zero_iff {s : List UInt8} (h : 0 ∉ s) : byte s i = 0 ↔ s.length ≤ i := by
  unfold byte
  constructor
  · intro hi
    by_contra hle
    have hlt : i < s.length := Nat.lt_of_not_le hle
    rw [getD_append _ _ _ _ hlt, getD_eq_getElem _ _ hlt] at hi
    exact h (hi ▸ getElem_mem hlt)
  · intro hi
    rw [getD_append_right _ _ _ _ hi]
    rcases Nat.eq_zero_or_pos (i - s.length) with h0 | h0
    · rw [h0]
      rfl
    · exact getD_eq_default _ _ h0

theorem charAt_pos (loc : Locale) {s : List UInt8} {pos : ℕ} (h : pos < s.length) :
    0 < (charAt loc s pos).1 := by
  unfold charAt
  split
  · rename_i r hr
    exact loc.pos (s.drop pos) r.1 r.2 (by simpa using h) hr
  · exact Nat.one_pos

theorem charAt_drop (loc : Locale) (s : List UInt8) (pos : ℕ) :
    charAt loc (s.drop pos) 0 = charAt loc s pos := rfl

/-! ## Options and operands -/

/-- The argument begins with `'-'`, and is not that alone. -/
def OptionLike (w : Arg) : Prop := byte w.bytes 0 = dash ∧ byte w.bytes 1 ≠ 0

/-- The argument is `"--"`. -/
def EndsOptions (w : Arg) : Prop := byte w.bytes 1 = dash ∧ byte w.bytes 2 = 0

instance (w : Arg) : Decidable (OptionLike w) := inferInstanceAs (Decidable (_ ∧ _))

instance (w : Arg) : Decidable (EndsOptions w) := inferInstanceAs (Decidable (_ ∧ _))

/-- The argument is not looked up among the long options. -/
def Short (cfg : Config) (w : Arg) : Prop := cfg.longopts = none ∨ ¬isLong false w

instance (cfg : Config) (w : Arg) : Decidable (Short cfg w) := inferInstanceAs (Decidable (_ ∨ _))

/-- Whether letters at the end of an argument take the next argument. -/
def lettersTake (cfg : Config) : ℕ → List UInt8 → Bool
  | 0, _ => false
  | _, [] => false
  | fuel + 1, s =>
    let r := charAt cfg.locale s 0
    match cfg.takes r.2 with
    | .required => s.length ≤ r.1
    | .optional => false
    | _ => lettersTake cfg fuel (s.drop r.1)

/-- Whether a long option takes the next argument. -/
def longTakes (cfg : Config) (table : List LongOption) (w : Arg) : Bool :=
  match longLookup cfg false table w with
  | (1, some (i, arg)) =>
    match table[i]? with
    | some o => byte arg 0 ≠ equals ∧ o.hasArg = requiredArgument
    | none => false
  | _ => false

/-- Whether an option takes the next argument, from the place `pos` in it on. -/
def takesNext (cfg : Config) (pos : ℕ) (w : Arg) : Bool :=
  match cfg.longopts with
  | some table =>
    if isLong false w then longTakes cfg table w else lettersTake cfg w.bytes.length (w.bytes.drop pos)
  | none => lettersTake cfg w.bytes.length (w.bytes.drop pos)

/-- The operands among arguments. The first option is looked at from `pos` on; with `skip` the first argument is
that of an option. -/
def operands (cfg : Config) : Bool → ℕ → List Arg → List Arg
  | _, _, [] => []
  | true, _, _ :: t => operands cfg false 1 t
  | false, pos, w :: t =>
    if ¬OptionLike w then w :: operands cfg false pos t
    else if EndsOptions w then t
    else operands cfg (takesNext cfg pos w) 1 t

/-- The argument ends with the letter at `pos`, and this letter requires an argument. -/
def Lacks (cfg : Config) (pos : ℕ) (w : Arg) : Prop :=
  Short cfg w ∧ w.bytes.length ≤ pos + (charAt cfg.locale w.bytes pos).1 ∧
    cfg.takes (charAt cfg.locale w.bytes pos).2 = .required

theorem OptionLike.one_lt (h : OptionLike w) : 1 < w.bytes.length := by
  have := mt (byte_eq_zero_iff w.noNul).mpr h.2
  omega

theorem operands_append (cfg : Config) (pos : ℕ) {ops : List Arg} (h : ∀ o ∈ ops, ¬OptionLike o)
    (l : List Arg) : operands cfg false pos (ops ++ l) = ops ++ operands cfg false pos l := by
  induction ops with
  | nil => rfl
  | cons o ops ih =>
    rw [cons_append, operands, if_pos (h o mem_cons_self),
      ih fun o' ho' => h o' (mem_cons_of_mem _ ho'), cons_append]

theorem lettersTake_fuel (cfg : Config) : ∀ (n m : ℕ) (s : List UInt8), s.length ≤ n → s.length ≤ m →
    lettersTake cfg n s = lettersTake cfg m s := by
  intro n
  induction n with
  | zero =>
    intro m s hn _
    obtain rfl : s = [] := List.length_eq_zero_iff.mp (by omega)
    cases m <;> rfl
  | succ n ih =>
    intro m s hn hm
    rcases s with _ | ⟨b, s⟩
    · cases m <;> rfl
    · obtain ⟨m, rfl⟩ : ∃ m', m = m' + 1 := ⟨m - 1, by simp at hm; omega⟩
      have hpos : 0 < (charAt cfg.locale (b :: s) 0).1 := charAt_pos cfg.locale (by simp)
      have hstep := ih m ((b :: s).drop (charAt cfg.locale (b :: s) 0).1)
        (by simp at hn ⊢; omega) (by simp at hm ⊢; omega)
      simp only [lettersTake]
      split <;> first | rfl | exact hstep

theorem lettersTake_eq (cfg : Config) (s : List UInt8) {pos : ℕ} (h : pos < s.length) :
    lettersTake cfg s.length (s.drop pos) =
      match cfg.takes (charAt cfg.locale s pos).2 with
      | .required => decide (s.length ≤ pos + (charAt cfg.locale s pos).1)
      | .optional => false
      | _ => lettersTake cfg s.length (s.drop (pos + (charAt cfg.locale s pos).1)) := by
  obtain ⟨n, hn⟩ : ∃ n, s.length = n + 1 := ⟨s.length - 1, by omega⟩
  have hcons : s.drop pos = s[pos] :: s.drop (pos + 1) := drop_eq_getElem_cons h
  have hpos := charAt_pos cfg.locale h
  have hrest := lettersTake_fuel cfg n s.length (s.drop (pos + (charAt cfg.locale s pos).1))
    (by rw [length_drop]; omega) (by rw [length_drop]; omega)
  have hunfold : lettersTake cfg (n + 1) (s.drop pos) =
      match cfg.takes (charAt cfg.locale (s.drop pos) 0).2 with
      | .required => decide ((s.drop pos).length ≤ (charAt cfg.locale (s.drop pos) 0).1)
      | .optional => false
      | _ => lettersTake cfg n ((s.drop pos).drop (charAt cfg.locale (s.drop pos) 0).1) := by
    rw [hcons]
    rfl
  rw [hn, hunfold, charAt_drop, drop_drop, hrest, ← hn]
  split
  · rw [length_drop]
    congr 1
    exact propext (by omega)
  · rfl
  · rfl

/-! ## What one call does with an option -/

/-- The state with which an option at `optind` is looked at: it is the argument `w`, and `t` follow. -/
structure At (cfg : Config) (w : Arg) (t : List Arg) (st : State) : Prop where
  reset : st.optreset = false
  pos : 0 < st.optind
  arg : st.arg st.optind = some w
  next : st.arg (st.optind + 1) = t.head?
  argc : cfg.argc = st.optind + t.length + 1
  option : OptionLike w
  ends : EndsOptions w → st.optpos = 0
  short : st.optpos ≠ 0 → Short cfg w
  place : st.optpos < w.bytes.length

/-- No entry of the table gives the result `-1`, which would be taken for the end of the options. -/
def NoMinusOne (cfg : Config) : Prop :=
  ∀ table, cfg.longopts = some table → ∀ o ∈ table, o.flag = none → o.val ≠ -1

/-- What becomes of the option `w` with the arguments `t` after it: it ends the options, it is not yet used up, it
is used up, or the next argument is as well. -/
inductive Handles (cfg : Config) (w : Arg) (t : List Arg) (st : State) (r : ℤ × State) : Prop where
  | ends (h : EndsOptions w) (hret : r.1 = -1) (hind : r.2.optind = st.optind + 1) (hpos : r.2.optpos = 0)
  | stays (h : ¬EndsOptions w) (hret : NoMinusOne cfg → r.1 ≠ -1) (hind : r.2.optind = st.optind)
      (hpos : r.2.optpos ≠ 0) (hplace : r.2.optpos < w.bytes.length) (hshort : Short cfg w)
      (hmore : r.2.optpos = st.place + (charAt cfg.locale w.bytes st.place).1)
      (htakes : takesNext cfg r.2.optpos w = takesNext cfg st.place w)
  | one (h : ¬EndsOptions w) (hret : NoMinusOne cfg → r.1 ≠ -1) (hind : r.2.optind = st.optind + 1)
      (hpos : r.2.optpos = 0) (htakes : takesNext cfg st.place w = true → t = [] ∧ ¬Short cfg w)
  | two (h : ¬EndsOptions w) (hret : NoMinusOne cfg → r.1 ≠ -1) (hind : r.2.optind = st.optind + 2)
      (hpos : r.2.optpos = 0) (htakes : takesNext cfg st.place w = true) (hnext : t ≠ [] ∨ Lacks cfg st.place w)

theorem At.place_lt (h : At cfg w t st) :
    st.place < w.bytes.length := by
  unfold State.place
  split
  · exact h.option.one_lt
  · exact h.place

theorem takesNext_of_short (h : Short cfg w) (pos : ℕ) :
    takesNext cfg pos w = lettersTake cfg w.bytes.length (w.bytes.drop pos) := by
  unfold takesNext
  rcases hl : cfg.longopts with _ | table
  · rfl
  · exact if_neg (h.resolve_left (by simp [hl]))

/-- The place after a character: in the same argument, or at the start of the next. -/
theorem advance_cases (st : State) (w : Arg) (next : ℕ) :
    (w.bytes.length ≤ next ∧ st.advance w next = { st with optind := st.optind + 1, optpos := 0 }) ∨
      (next < w.bytes.length ∧ st.advance w next = { st with optpos := next }) := by
  by_cases h : w.bytes.length ≤ next
  · exact .inl ⟨h, if_pos ((byte_eq_zero_iff w.noNul).mpr h)⟩
  · exact .inr ⟨Nat.lt_of_not_le h, if_neg (mt (byte_eq_zero_iff w.noNul).mp h)⟩

/-- The end of `getopt` gives a letter, `'?'` or `':'`, and moves on only to take an argument. -/
theorem getoptArg_spec (cfg : Config) (c : ℕ) (t : Takes) (optchar : List UInt8) (st : State) :
    (getoptArg cfg c t optchar st).1 ≠ -1 ∧ (getoptArg cfg c t optchar st).2.argv = st.argv ∧
      (getoptArg cfg c t optchar st).2.optreset = st.optreset ∧
      (getoptArg cfg c t optchar st).2.optpos = 0 ∧
      (getoptArg cfg c t optchar st).2.optind =
        if t = .required ∨ st.optpos ≠ 0 then st.optind + 1 else st.optind := by
  unfold getoptArg
  by_cases h : t = .required ∨ st.optpos ≠ 0
  · simp only [if_pos h]
    split
    · split
      · exact ⟨by simp, rfl, rfl, rfl, rfl⟩
      · refine ⟨by simp [question], ?_⟩
        split <;> exact ⟨rfl, rfl, rfl, rfl⟩
    · exact ⟨by simp, rfl, rfl, rfl, rfl⟩
  · have h0 : st.optpos = 0 := by
      by_contra hc
      exact h (.inr hc)
    simp only [if_neg h]
    split
    · split
      · exact ⟨by simp, rfl, rfl, h0, rfl⟩
      · refine ⟨by simp [question], ?_⟩
        split <;> exact ⟨rfl, rfl, h0, rfl⟩
    · exact ⟨by simp, rfl, rfl, h0, rfl⟩

/-- Whatever `getopt` does with a character, it leaves the array alone. -/
theorem getoptChar_argv (cfg : Config) (w : Arg) (st : State) :
    (getoptChar cfg w st).2.argv = st.argv ∧ (getoptChar cfg w st).2.optreset = st.optreset := by
  have hadv : ∀ next, (st.advance w next).argv = st.argv ∧ (st.advance w next).optreset = st.optreset := by
    intro next
    rcases advance_cases st w next with ⟨-, h⟩ | ⟨-, h⟩ <;> rw [h] <;> exact ⟨rfl, rfl⟩
  unfold getoptChar
  simp only
  split
  · split <;> exact hadv _
  · exact hadv _
  · obtain ⟨-, ha, hr, -, -⟩ := getoptArg_spec cfg (charAt cfg.locale w.bytes st.place).2
      (cfg.takes (charAt cfg.locale w.bytes st.place).2)
      ((w.bytes.drop st.place).take (charAt cfg.locale w.bytes st.place).1)
      (st.advance w (st.place + (charAt cfg.locale w.bytes st.place).1))
    exact ⟨ha.trans (hadv _).1, hr.trans (hadv _).2⟩

/-- A letter that takes no argument, or that is not listed. -/
theorem handles_of_letter (h : At cfg w t st) (hs : Short cfg w) (he : ¬EndsOptions w)
    (htk : cfg.takes (charAt cfg.locale w.bytes st.place).2 = .unknown ∨
      cfg.takes (charAt cfg.locale w.bytes st.place).2 = .nothing) {r : ℤ × State} (hret : r.1 ≠ -1)
    (hind : r.2.optind = (st.advance w (st.place + (charAt cfg.locale w.bytes st.place).1)).optind)
    (hpos : r.2.optpos = (st.advance w (st.place + (charAt cfg.locale w.bytes st.place).1)).optpos) :
    Handles cfg w t st r := by
  have hrest : takesNext cfg st.place w =
      takesNext cfg (st.place + (charAt cfg.locale w.bytes st.place).1) w := by
    rw [takesNext_of_short hs, takesNext_of_short hs, lettersTake_eq cfg w.bytes h.place_lt]
    rcases htk with htk | htk <;> rw [htk]
  rcases advance_cases st w (st.place + (charAt cfg.locale w.bytes st.place).1) with ⟨hle, ha⟩ | ⟨hlt, ha⟩
  · rw [ha] at hind hpos
    refine .one he (fun _ => hret) hind hpos fun hc => ?_
    -- nothing is left of the argument
    rw [hrest, takesNext_of_short hs, drop_eq_nil_of_le hle, lettersTake_fuel cfg _ 0 [] (by simp) (by simp)]
      at hc
    cases hc
  · rw [ha] at hind hpos
    have hplace : 0 < st.place := by
      unfold State.place
      split <;> omega
    refine .stays he (fun _ => hret) hind ?_ ?_ hs hpos ?_
    · rw [hpos]
      exact Nat.pos_iff_ne_zero.mp (Nat.add_pos_left hplace _)
    · rw [hpos]
      exact hlt
    · rw [hpos, hrest]

theorem handles_of_arg (h : At cfg w t st)
    (hs : Short cfg w) (he : ¬EndsOptions w) (c : ℕ) (optchar : List UInt8) {tk : Takes}
    (htk : cfg.takes (charAt cfg.locale w.bytes st.place).2 = tk) (hreq : tk = .required ∨ tk = .optional) :
    Handles cfg w t st (getoptArg cfg c tk optchar
      (st.advance w (st.place + (charAt cfg.locale w.bytes st.place).1))) := by
  obtain ⟨hret, -, -, hpos, hind⟩ := getoptArg_spec cfg c tk optchar
    (st.advance w (st.place + (charAt cfg.locale w.bytes st.place).1))
  have htakes : takesNext cfg st.place w = true →
      tk = .required ∧ w.bytes.length ≤ st.place + (charAt cfg.locale w.bytes st.place).1 := by
    rw [takesNext_of_short hs, lettersTake_eq cfg w.bytes h.place_lt, htk]
    rcases hreq with rfl | rfl
    · exact fun hc => ⟨rfl, of_decide_eq_true hc⟩
    · exact fun hc => by cases hc
  rcases advance_cases st w (st.place + (charAt cfg.locale w.bytes st.place).1) with ⟨hle, ha⟩ | ⟨hlt, ha⟩
  · rw [ha] at hind hpos hret ⊢
    rcases hreq with rfl | rfl
    · -- the argument is the next one
      refine .two he (fun _ => hret) (by rw [hind, if_pos (.inl rfl)]) hpos ?_ (.inr ⟨hs, hle, htk⟩)
      rw [takesNext_of_short hs, lettersTake_eq cfg w.bytes h.place_lt, htk]
      exact decide_eq_true hle
    · refine .one he (fun _ => hret) (by rw [hind]; rfl) hpos fun hc => ?_
      cases (htakes hc).1
  · -- the argument is the rest of this one
    rw [ha] at hind hpos hret ⊢
    have hne : st.place + (charAt cfg.locale w.bytes st.place).1 ≠ 0 := by
      have := charAt_pos cfg.locale h.place_lt
      omega
    refine .one he (fun _ => hret) (by rw [hind, if_pos (.inr hne)]) hpos fun hc => ?_
    exact absurd (htakes hc).2 (by omega)

theorem getoptChar_handles (h : At cfg w t st)
    (hs : Short cfg w) (he : ¬EndsOptions w) : Handles cfg w t st (getoptChar cfg w st) := by
  cases htk : cfg.takes (charAt cfg.locale w.bytes st.place).2 with
  | unknown =>
    simp only [getoptChar, htk]
    refine handles_of_letter h hs he (.inl htk) (by simp [question]) ?_ ?_
    · split <;> rfl
    · split <;> rfl
  | nothing =>
    simp only [getoptChar, htk]
    exact handles_of_letter h hs he (.inr htk) (by simp) rfl rfl
  | required =>
    simp only [getoptChar, htk]
    exact handles_of_arg h hs he _ _ htk (.inl rfl)
  | optional =>
    simp only [getoptChar, htk]
    exact handles_of_arg h hs he _ _ htk (.inr rfl)

/-- `getopt`, for an argument that is not a long option. -/
theorem getopt_handles (h : At cfg w t st) (hs : Short cfg w) :
    Handles cfg w t st (getopt cfg st) ∧ (getopt cfg st).2.argv = st.argv ∧
      (getopt cfg st).2.optreset = st.optreset := by
  have hreset : st.reset = st := if_neg (by simp [h.reset, Nat.pos_iff_ne_zero.mp h.pos])
  have hargc : ¬st.optind ≥ cfg.argc := by
    rw [h.argc]
    omega
  have hget : getopt cfg st = if byte w.bytes 1 = dash ∧ byte w.bytes 2 = 0
      then (-1, { st with optind := st.optind + 1 }) else getoptChar cfg w st := by
    simp only [getopt, hreset, if_neg hargc, h.arg, if_neg (not_not.mpr h.option.1), if_neg h.option.2]
  rw [hget]
  split
  · rename_i he
    exact ⟨.ends he rfl rfl (h.ends he), rfl, rfl⟩
  · rename_i he
    exact ⟨getoptChar_handles h hs he, getoptChar_argv cfg w st⟩

/-- The end of the part for long options stores what was found, and moves nothing. -/
theorem longFound_spec (hl : cfg.longopts = some table) (i : ℕ) {o : LongOption} (ho : o ∈ table) (st : State) :
    (NoMinusOne cfg → (longFound cfg i o st).1 ≠ -1) ∧ (longFound cfg i o st).2.argv = st.argv ∧
      (longFound cfg i o st).2.optreset = st.optreset ∧ (longFound cfg i o st).2.optind = st.optind ∧
      (longFound cfg i o st).2.optpos = st.optpos := by
  unfold longFound
  rcases hf : o.flag with _ | p
  · refine ⟨fun hm => hm table hl o ho hf, ?_⟩
    split <;> exact ⟨rfl, rfl, rfl, rfl⟩
  · refine ⟨fun _ => by simp, ?_⟩
    split <;> exact ⟨rfl, rfl, rfl, rfl⟩

theorem longMatches_lt (opt : List UInt8) (table : List LongOption) : ∀ (i cnt : ℕ)
    (found : Option (ℕ × List UInt8)) (j : ℕ) (arg : List UInt8),
    (longMatches opt i cnt found table).2 = some (j, arg) → found = some (j, arg) ∨ j < i + table.length := by
  induction table with
  | nil => exact fun i cnt found j arg h => .inl h
  | cons o table ih =>
    intro i cnt found j arg h
    simp only [longMatches] at h
    have hlen : i + 1 + table.length = i + (o :: table).length := by simp; omega
    split at h
    · exact hlen ▸ ih (i + 1) cnt found j arg h
    · split at h
      · obtain ⟨rfl, -⟩ := Prod.mk.inj (Option.some.inj h)
        exact .inr (by simp)
      · rcases ih (i + 1) _ _ j arg h with h | h
        · obtain ⟨rfl, -⟩ := Prod.mk.inj (Option.some.inj h)
          exact .inr (by simp)
        · exact .inr (hlen ▸ h)

theorem longLookup_lt {cnt : ℕ} {arg : List UInt8}
    (h : longLookup cfg false table w = (cnt, some (i, arg))) : i < table.length := by
  unfold longLookup at h
  simp only [Bool.false_eq_true, false_and, and_false, if_false] at h
  have := longMatches_lt _ table 0 0 none i arg (by rw [h])
  simpa using this

theorem longOne_handles (h : At cfg w t st) (hl : cfg.longopts = some table) (hlong : isLong false w) {o : LongOption}
    {arg : List UInt8} (hm : longLookup cfg false table w = (1, some (i, arg))) (hi : table[i]? = some o)
    (h0 : st.optpos = 0) (he : ¬EndsOptions w) :
    Handles cfg w t st (longOne cfg i o arg st) ∧ (longOne cfg i o arg st).2.argv = st.argv ∧
      (longOne cfg i o arg st).2.optreset = st.optreset := by
  have ho : o ∈ table := mem_of_getElem? hi
  have hns : ¬Short cfg w := not_or.mpr ⟨by simp [hl], not_not.mpr hlong⟩
  have htn : takesNext cfg st.place w = decide (byte arg 0 ≠ equals ∧ o.hasArg = requiredArgument) := by
    rw [takesNext, hl]
    simp only [if_pos hlong, longTakes, hm, hi]
  unfold longOne
  by_cases heq : byte arg 0 = equals
  · have hno : takesNext cfg st.place w = true → t = [] ∧ ¬Short cfg w := by
      rw [htn]
      simp [heq]
    simp only [if_pos heq]
    split
    · split <;> exact ⟨.one he (fun _ => by simp [question]) rfl h0 hno, rfl, rfl⟩
    · obtain ⟨hret, ha, hr, hind, hpos⟩ := longFound_spec hl i ho
        { st with optind := st.optind + 1, optarg := some (arg.drop 1) }
      exact ⟨.one he hret hind (hpos.trans h0) hno, ha, hr⟩
  · simp only [if_neg heq]
    split
    · rename_i hreq
      have hyes : takesNext cfg st.place w = true := by
        rw [htn]
        simp [heq, hreq]
      have hnext : ({ st with optind := st.optind + 1 } : State).arg (st.optind + 1) = t.head? := h.next
      rw [hnext]
      rcases t with _ | ⟨a, t⟩
      · -- there is no next argument, and nothing more is used up
        simp only [head?_nil]
        split
        · exact ⟨.one he (fun _ => by simp) rfl h0 fun _ => ⟨rfl, hns⟩, rfl, rfl⟩
        · split <;> exact ⟨.one he (fun _ => by simp [question]) rfl h0 fun _ => ⟨rfl, hns⟩, rfl, rfl⟩
      · obtain ⟨hret, ha, hr, hind, hpos⟩ := longFound_spec hl i ho
          { st with optind := st.optind + 1 + 1, optarg := some a.bytes }
        exact ⟨.two he hret hind (hpos.trans h0) hyes (.inl (by simp)), ha, hr⟩
    · rename_i hreq
      have hno : takesNext cfg st.place w = true → t = [] ∧ ¬Short cfg w := by
        rw [htn]
        simp [hreq]
      obtain ⟨hret, ha, hr, hind, hpos⟩ := longFound_spec hl i ho { st with optind := st.optind + 1 }
      exact ⟨.one he hret hind (hpos.trans h0) hno, ha, hr⟩

/-- **`__getopt_long_core`** ends the options, stays with its argument, uses it up, or uses up the next one too;
and it leaves the array alone. -/
theorem longCore_handles (h : At cfg w t st) :
    Handles cfg w t st (longCore cfg false w st) ∧ (longCore cfg false w st).2.argv = st.argv ∧
      (longCore cfg false w st).2.optreset = st.optreset := by
  have h' : At cfg w t { st with optarg := none } :=
    ⟨h.reset, h.pos, h.arg, h.next, h.argc, h.option, h.ends, h.short, h.place⟩
  -- what is said of an outcome does not depend on `optarg`
  suffices hw : Handles cfg w t { st with optarg := none } (longCore cfg false w st) ∧
      (longCore cfg false w st).2.argv = st.argv ∧ (longCore cfg false w st).2.optreset = st.optreset by
    refine ⟨?_, hw.2⟩
    cases hw.1 with
    | ends a b c d => exact .ends a b c d
    | stays a b c d e f g i => exact .stays a b c d e f g i
    | one a b c d e => exact .one a b c d e
    | two a b c d e f => exact .two a b c d e f
  unfold longCore
  rcases hl : cfg.longopts with _ | table
  · exact getopt_handles h' (.inl hl)
  · simp only
    by_cases hlong : isLong false w
    · have h0 : st.optpos = 0 := by
        by_contra hc
        exact (h.short hc).elim (fun hn => by simp [hl] at hn) (fun hn => hn hlong)
      have hd : byte w.bytes 1 = dash ∧ byte w.bytes 2 ≠ 0 := hlong.2.resolve_left (by simp)
      have he : ¬EndsOptions w := fun hc => hd.2 hc.2
      rw [if_pos hlong]
      split
      · rename_i i arg hm
        have hi : table[i]? = some (table.get ⟨i, longLookup_lt hm⟩) :=
          getElem?_eq_getElem (longLookup_lt hm)
        rw [hi]
        exact longOne_handles h' hl hlong hm hi h0 he
      · rename_i cnt found hne hm
        rw [if_pos hd.1]
        have hno : takesNext cfg st.place w = true → t = [] ∧ ¬Short cfg w := by
          intro hc
          rw [takesNext, hl] at hc
          simp only [if_pos hlong, longTakes] at hc
          split at hc
          · rename_i i arg hm'
            obtain ⟨hcnt, hfound⟩ := Prod.mk.inj (hm.symm.trans hm')
            exact (hne i arg hcnt hfound).elim
          · cases hc
        refine ⟨.one he (fun _ => by simp [question]) ?_ ?_ hno, ?_, ?_⟩ <;>
          (simp only; split <;> first | rfl | exact h0)
    · rw [if_neg hlong]
      exact getopt_handles h' (.inr hlong)

end Leblibc.Getopt
