import Leblibc.Locale.Pleval
import Leblibc.Locale.Plural

/-!
# Plural expressions: what is evaluated

The evaluator reads exactly the expressions of the grammar for which its counter is large enough, and computes all
their operands. So it returns the value that C assigns to an expression if no divisor in it is zero; but a divisor
that is zero in an operand that C does not compute makes it fail.

The loop of `evalbinop` climbs along precedences. A call with `minprec` reads an expression whose operators bind
closer than that, and stops at an operator that does not; behind an expression that has been read, the loop is as it
is behind a single operand with the same value.

## Main results

* `binLoop_total`, `evaluators_total`: the loops end
* `written_evaluates`: the text of an expression is read, and its value computed
* `evaluators_sound`: what is read is the text of an expression
* `pleval_eq`: the value that `__pleval` returns
* `pleval_value`: it is that of C unless some operand that C skips divides by zero
-/

namespace Leblibc.Pleval

open List Option

open Plural
open Strtol (byte byte_cons isspace dec value strtoul)

/-! ## Operators -/

/-- The number of an operator in the table of the source. -/
def code : Op → ℕ
  | .or => 0
  | .and => 1
  | .eq => 2
  | .ne => 3
  | .ge => 4
  | .le => 5
  | .gt => 6
  | .lt => 7
  | .add => 8
  | .sub => 9
  | .mul => 10
  | .mod => 11
  | .div => 12

theorem prec_code (op : Op) : prec (code op) = op.prec := by
  cases op <;> rfl

theorem binop_code (arch : Arch) (op : Op) (a b : ℕ) : binop arch (code op) a b = op.apply arch a b := by
  cases op <;> rfl

theorem byte_cons_succ (c : UInt8) (s : List UInt8) (i : ℕ) : byte (c :: s) (i + 1) = byte s i := by
  simp [byte]

variable {s : List UInt8} {c : UInt8} {eval : ℕ → St → List UInt8 → Option (St × List UInt8)} {p : ℕ}
  {res : St × List UInt8} {st : St} {ds : List UInt8} {n d : ℕ} {st' : St} {s' : List UInt8} {e : Expr}
  {u w w' : List UInt8}

theorem parseop_of_index {i : ℕ} (h : opch.findIdx? (· = byte s 0) = some i) :
    parseop s = if i < 6 ∧ byte s 1 = opch2.getD i 0 then (i, s.drop 2)
      else if i ≥ 4 then (i + 2, s.drop 1) else (13, s) := by
  rw [parseop, h]

/-- **An operator is found**, if it is not one that is made longer by a `=` behind it. -/
theorem parseop_text (op : Op) (hs : byte s 0 ≠ 61) : parseop (op.text ++ s) = (code op, s) := by
  have hlonger (c : UInt8) : byte (c :: s) 1 ≠ 61 := by rwa [byte_cons_succ]
  cases op with
  | gt =>
    rw [parseop_of_index rfl, if_neg (fun hc => hlonger 62 hc.2)]
    rfl
  | lt =>
    rw [parseop_of_index rfl, if_neg (fun hc => hlonger 60 hc.2)]
    rfl
  | _ => rfl

theorem parseop_of_not_mem (h : byte s 0 ∉ opch) : parseop s = (13, s) := by
  have hnone : opch.findIdx? (· = byte s 0) = none := by
    rw [findIdx?_eq_none_iff]
    intro c hc
    rw [decide_eq_false_iff_not]
    rintro rfl
    exact h hc
  rw [parseop, hnone]

theorem parseop_cons (h : c ∉ opch) (s : List UInt8) : parseop (c :: s) = (13, c :: s) :=
  parseop_of_not_mem h

/-- How the operator with a number is written; the number 13 is none. -/
def opText (c : ℕ) : List UInt8 :=
  ([.or, .and, .eq, .ne, .ge, .le, .gt, .lt, .add, .sub, .mul, .mod, .div].map Op.text).getD c []

theorem opText_code (op : Op) : opText (code op) = op.text := by
  cases op <;> rfl

theorem exists_code {c : ℕ} (h : 0 < prec c) : ∃ op, c = code op := by
  have hc : c < 13 := by
    by_contra hge
    have : prec c = 0 := by
      rcases eq_or_lt_of_le (not_lt.mp hge) with rfl | hgt
      · rfl
      · exact getD_eq_default _ _ (by simp; omega)
    omega
  have hall : ∀ c < 13, ∃ op ∈ [Op.or, .and, .eq, .ne, .ge, .le, .gt, .lt, .add, .sub, .mul, .mod, .div],
      c = code op := by
    decide
  obtain ⟨op, -, rfl⟩ := hall c hc
  exact ⟨op, rfl⟩

theorem opText_of_prec {c : ℕ} (h : prec c = 0) : opText c = [] := by
  by_cases hc : c < 13
  · have hall : ∀ c < 13, prec c ≠ 0 := by decide
    exact absurd h (hall c hc)
  · exact getD_eq_default _ _ (by simp; omega)

theorem exists_cons_of_byte (hc : c ≠ 0) (h : byte s 0 = c) : ∃ t, s = c :: t := by
  cases s with
  | nil => exact absurd h.symm hc
  | cons c' t => exact ⟨t, by rw [← h]; rfl⟩

/-- What `parseop` finds is at the front of the string. -/
theorem parseop_split (s : List UInt8) : s = opText (parseop s).1 ++ (parseop s).2 := by
  cases hidx : opch.findIdx? (· = byte s 0) with
  | none =>
    rw [parseop, hidx]
    rfl
  | some i =>
    obtain ⟨hi, hbyte, -⟩ := List.findIdx?_eq_some_iff_getElem.mp hidx
    rw [parseop_of_index hidx]
    have hi' : i < 11 := hi
    -- both bytes of the tables are there, since they are not the NUL
    have hne : ∀ i (hi : i < opch.length), opch[i] ≠ 0 ∧ (i < 6 → opch2.getD i 0 ≠ 0) := by decide
    obtain ⟨t, rfl⟩ := exists_cons_of_byte (hne i hi).1 (of_decide_eq_true hbyte).symm
    split
    · rename_i h
      obtain ⟨t, rfl⟩ := exists_cons_of_byte ((hne i hi).2 h.1) h.2
      obtain ⟨h6, -⟩ := h
      interval_cases i <;> rfl
    · split
      · interval_cases i <;> rfl
      · rfl

/-! ## The loops end -/

section Total

variable {arch : Arch}

/-- What the loop needs of its recursive call: it returns, leaves less than it was given, and finds no operator where
there is nothing. -/
def Shortens (eval : ℕ → St → List UInt8 → Option (St × List UInt8)) : Prop :=
  ∀ p st s, ∃ st' s', eval p st s = some (st', s') ∧ (s ≠ [] → s'.length < s.length) ∧
    (s = [] → s' = [] ∧ st'.op = 13)

theorem binLoop_succ :
    ∀ {fuel : ℕ} {st : St} {s : List UInt8}, binLoop arch eval p fuel st s = some res →
      binLoop arch eval p (fuel + 1) st s = some res := by
  intro fuel
  induction fuel with
  | zero => exact fun h => by cases h
  | succ fuel ih =>
    intro st s h
    rw [binLoop] at h ⊢
    split
    · rename_i hle
      rwa [if_pos hle] at h
    · rename_i hle
      rw [if_neg hle] at h
      obtain ⟨q, hq, h⟩ := Option.bind_eq_some_iff.mp h
      rw [hq, bind_some]
      cases hb : binop arch st.op st.r q.1.r with
      | none => simpa only [hb] using h
      | some r =>
        simp only [hb] at h ⊢
        exact ih h

theorem binLoop_mono {fuel : ℕ} (h : binLoop arch eval p fuel st s = some res) (k : ℕ) :
    binLoop arch eval p (fuel + k) st s = some res := by
  induction k with
  | zero => exact h
  | succ k ih => exact binLoop_succ ih

/-- **The loop of `evalbinop` ends**, and does not leave more than it was given. -/
theorem binLoop_total (arch : Arch) (heval : Shortens eval) (p : ℕ) :
    ∀ (fuel : ℕ) (st : St) (s : List UInt8), s.length + 2 ≤ fuel ∨ (s = [] ∧ st.op = 13 ∧ 0 < fuel) →
      ∃ st' s', binLoop arch eval p fuel st s = some (st', s') ∧ s'.length ≤ s.length := by
  intro fuel
  induction fuel with
  | zero =>
    rintro st s (h | ⟨-, -, h⟩)
    · omega
    · omega
  | succ fuel ih =>
    intro st s h
    rw [binLoop]
    split
    · exact ⟨st, s, rfl, le_rfl⟩
    · rename_i hle
      rcases h with h | ⟨-, hop, -⟩
      · obtain ⟨st', s', heq, hshort, hnil⟩ := heval (prec st.op) st s
        rw [heq, bind_some]
        cases hb : binop arch st.op st.r st'.r with
        | none => exact ⟨st', [], rfl, Nat.zero_le _⟩
        | some r =>
          rcases eq_or_ne s [] with rfl | hs
          · -- at the end of the string there is no operator for a further round
            obtain ⟨rfl, hop'⟩ := hnil rfl
            exact ih ⟨r, st'.op⟩ [] (.inr ⟨rfl, hop', by omega⟩)
          · have hlt := hshort hs
            obtain ⟨st'', s'', hloop, hle'⟩ := ih ⟨r, st'.op⟩ s' (.inl (by omega))
            exact ⟨st'', s'', hloop, by omega⟩
      · rw [hop] at hle
        exact absurd (Nat.zero_le p) hle

/-- **A constant is read** up to the byte behind its last digit, and is at most `ULONG_MAX`. -/
theorem strtoul_digits (arch : Arch) {t : List UInt8} (hne : ds ≠ []) (hds : ∀ c ∈ ds, dec c < 10)
    (ht : ¬dec (byte t 0) < 10) :
    ∃ err, strtoul arch (ds ++ t) 10 = some ⟨(min (value 10 ds) (ULONG_MAX arch) : ℕ), ds.length, err⟩ := by
  have hval : ∀ c ∈ ds, Strtol.val c < 10 := fun c hc => (Strtol.dec_lt_iff c).mp (hds c hc)
  have hfront : Strtol.front 10 (ds ++ t) = ds := by
    rw [Strtol.front_append hval]
    cases t with
    | nil => exact append_nil ds
    | cons c t => rw [Strtol.front_stop (mt (Strtol.dec_lt_iff c).mpr ht), append_nil]
  have hreads := Strtol.reads_digits (show 10 ≠ 0 by decide) (by rwa [hfront]) nofun
  rw [hfront] at hreads
  have hdigit : Strtol.val (byte (ds ++ t) 0) < 36 := by
    obtain ⟨c, ds, rfl⟩ := exists_cons_of_ne_nil hne
    exact (hval c mem_cons_self).trans (by decide)
  obtain ⟨err, hr⟩ := Strtol.strtoul_of_reads arch (.inr (by decide)) hreads hdigit
  refine ⟨err, hr.trans (congrArg (fun v => some (Strtol.Ret.mk v _ _)) ?_)⟩
  have hpos : 0 < 2 ^ arch.bits := by positivity
  have hcast : (2 ^ arch.bits - 1 : ℤ) = (2 ^ arch.bits - 1 : ℕ) := by push_cast [Nat.one_le_of_lt hpos]; rfl
  rw [ULONG_MAX]
  split <;> omega

theorem skipspace_length (s : List UInt8) : (skipspace s).length ≤ s.length := (dropWhile_suffix _).length_le

/-- The digits at the front of a string, and what follows them. -/
theorem split_digits (h : dec (byte s 0) < 10) :
    ∃ ds t, s = ds ++ t ∧ ds ≠ [] ∧ (∀ c ∈ ds, dec c < 10) ∧ ¬dec (byte t 0) < 10 := by
  refine ⟨s.takeWhile (dec · < 10), s.dropWhile (dec · < 10), List.takeWhile_append_dropWhile.symm, ?_, ?_, ?_⟩
  · cases s with
    | nil => exact absurd h (by decide)
    | cons c s =>
      have hc : decide (dec c < 10) = true := decide_eq_true h
      simp [hc]
  · intro c hc
    have := mem_takeWhile_imp hc
    simpa using this
  · cases ht : s.dropWhile (dec · < 10) with
    | nil => decide
    | cons c t =>
      have hne : s.dropWhile (dec · < 10) ≠ [] := by simp [ht]
      have := head_dropWhile_not (p := fun c => decide (dec c < 10)) hne
      simp only [ht] at this
      exact of_decide_eq_false this

/-- **A constant is evaluated** unless it is `ULONG_MAX` or larger. -/
theorem evalprim_digits (arch : Arch) (n d : ℕ) (st : St) {t : List UInt8} (hs : skipspace s = ds ++ t)
    (hne : ds ≠ []) (hds : ∀ c ∈ ds, dec c < 10) (ht : ¬dec (byte t 0) < 10) :
    evalprim arch n (d + 1) st s =
      some (⟨min (value 10 ds) (ULONG_MAX arch), st.op⟩, if value 10 ds < ULONG_MAX arch then skipspace t else []) := by
  obtain ⟨err, hread⟩ := strtoul_digits arch hne hds ht
  have hfirst : dec (byte (ds ++ t) 0) < 10 := by
    obtain ⟨c, ds, rfl⟩ := exists_cons_of_ne_nil hne
    exact hds c mem_cons_self
  have hlen : (ds.length : ℤ) ≠ 0 := by simpa using hne
  rw [evalprim]
  simp only [hs, if_pos hfirst, hread, map_some, Int.toNat_natCast, drop_left]
  by_cases hlt : value 10 ds < ULONG_MAX arch
  · rw [if_neg (by omega), if_pos hlt]
  · rw [if_pos (.inr (by omega)), if_neg hlt]

/-- A result that leaves nothing, or less than there was. -/
def Returns (s : List UInt8) (res : Option (St × List UInt8)) : Prop :=
  ∃ st' s', res = some (st', s') ∧ (s' = [] ∨ s'.length < s.length)

theorem skipspace_drop_length (hs : skipspace s ≠ []) :
    (skipspace ((skipspace s).drop 1)).length < s.length := by
  have h := skipspace_length s
  have h' := skipspace_length ((skipspace s).drop 1)
  have hpos := List.length_pos_iff.mpr hs
  rw [length_drop] at h'
  omega

theorem skipspace_ne_nil (hc : c ≠ 0) (h : byte (skipspace s) 0 = c) :
    skipspace s ≠ [] := by
  intro hnil
  rw [hnil] at h
  exact hc h.symm

/-- The evaluators return, with a counter. -/
structure Total (arch : Arch) (n d : ℕ) : Prop where
  prim : ∀ st s, Returns s (evalprim arch n d st s)
  binop : Shortens (evalbinop arch n d)
  expr : ∀ st s, Returns s (evalexpr arch n d st s)

theorem Total.prim_succ (h : Total arch n d) (st : St) (s : List UInt8) :
    Returns s (evalprim arch n (d + 1) st s) := by
  have hlen := skipspace_length s
  by_cases hdig : dec (byte (skipspace s) 0) < 10
  · obtain ⟨ds, t, hs, hne, hds, ht⟩ := split_digits hdig
    refine ⟨_, _, evalprim_digits arch n d st hs hne hds ht, ?_⟩
    split
    · have ht := skipspace_length t
      have hpos := List.length_pos_iff.mpr hne
      rw [hs, length_append] at hlen
      omega
    · exact .inl rfl
  · rw [evalprim]
    simp only [if_neg hdig]
    split
    · rename_i hn
      exact ⟨_, _, rfl, .inr (skipspace_drop_length (skipspace_ne_nil (by decide) hn))⟩
    · split
      · obtain ⟨st', s', heq, hshort⟩ := h.expr st ((skipspace s).drop 1)
        rw [heq, map_some]
        split
        · exact ⟨_, _, rfl, .inl rfl⟩
        · have hdrop := skipspace_length (s'.drop 1)
          rw [length_drop] at hdrop hshort
          refine ⟨_, _, rfl, ?_⟩
          rcases hshort with rfl | hshort
          · exact .inl rfl
          · exact .inr (by simp only; omega)
      · split
        · obtain ⟨st', s', heq, hshort⟩ := h.prim st ((skipspace s).drop 1)
          rw [heq]
          rw [length_drop] at hshort
          exact ⟨_, _, rfl, hshort.imp_right fun h => by simp only; omega⟩
        · exact ⟨_, _, rfl, .inl rfl⟩

theorem parseop_length (s : List UInt8) : (parseop s).2.length ≤ s.length := by
  have h := congrArg List.length (parseop_split s)
  rw [length_append] at h
  omega

theorem Total.binop_succ (h : Total arch n d) : Shortens (evalbinop arch n (d + 1)) := by
  intro p st s
  obtain ⟨st', s', heq, hshort⟩ := h.prim st s
  have hop := parseop_length s'
  obtain ⟨st'', s'', hloop, hle⟩ := binLoop_total arch h.binop p (s'.length + 2)
    ⟨st'.r, (parseop s').1⟩ (parseop s').2 (.inl (by omega))
  refine ⟨st'', s'', ?_, fun hs => ?_, ?_⟩
  · rw [evalbinop, heq, bind_some, hloop]
  · have hpos := List.length_pos_iff.mpr hs
    rcases hshort with rfl | hshort
    · rw [length_nil] at hop
      omega
    · omega
  · -- nothing is read from the empty string, and there is no operator in it
    rintro rfl
    obtain rfl : s' = [] := by
      rcases hshort with rfl | hshort
      · rfl
      · exact absurd hshort (Nat.not_lt_zero _)
    cases hloop
    exact ⟨rfl, rfl⟩

theorem Total.expr_succ (h : Total arch n d) (st : St) (s : List UInt8) :
    Returns s (evalexpr arch n (d + 1) st s) := by
  obtain ⟨st1, s1, heq1, hshort1, hnil1⟩ := h.binop 0 st s
  have hlen1 : s1 = [] ∨ s1.length < s.length := by
    rcases eq_or_ne s [] with rfl | hs
    · exact .inl (hnil1 rfl).1
    · exact .inr (hshort1 hs)
  rw [evalexpr, heq1, bind_some]
  split
  · exact ⟨st1, s1, rfl, hlen1⟩
  · obtain ⟨st2, s2, heq2, hlen2⟩ := h.expr st1 (s1.drop 1)
    rw [heq2, bind_some]
    split
    · exact ⟨st2, [], rfl, .inl rfl⟩
    · obtain ⟨st3, s3, heq3, hlen3⟩ := h.expr st2 (s2.drop 1)
      rw [heq3]
      refine ⟨_, s3, rfl, ?_⟩
      rw [length_drop] at hlen2 hlen3
      rcases hlen3 with rfl | hlen3
      · exact .inl rfl
      · rcases hlen2 with rfl | hlen2
        · rw [length_nil] at hlen3
          omega
        · rcases hlen1 with rfl | hlen1
          · rw [length_nil] at hlen2
            omega
          · exact .inr (by omega)

/-- **The evaluators return**, and what they leave is shorter than what they were given. -/
theorem evaluators_total (arch : Arch) (n d : ℕ) : Total arch n d := by
  induction d with
  | zero =>
    refine ⟨fun st s => ⟨st, [], rfl, .inl rfl⟩, fun p st s => ?_, fun st s => ⟨st, [], rfl, .inl rfl⟩⟩
    exact ⟨⟨st.r, 13⟩, [], rfl, List.length_pos_iff.mpr, fun _ => ⟨rfl, rfl⟩⟩
  | succ d ih => exact ⟨ih.prim_succ, ih.binop_succ, ih.expr_succ⟩

end Total

/-! ## The loop behind an expression -/

section Written

variable {arch : Arch} {n : ℕ}

/-- **The results of the loop of `evalbinop`**, whatever the number of rounds. -/
def Loops (arch : Arch) (n d p : ℕ) (st : St) (s : List UInt8) (res : St × List UInt8) : Prop :=
  ∃ fuel, binLoop arch (evalbinop arch n d) p fuel st s = some res

theorem Loops.stop (h : prec st.op ≤ p) (s : List UInt8) : Loops arch n d p st s (st, s) :=
  ⟨1, by rw [binLoop, if_pos h]⟩

theorem Loops.step {r : ℕ} (h : p < prec st.op)
    (heval : evalbinop arch n d (prec st.op) st s = some (st', s')) (hb : binop arch st.op st.r st'.r = some r)
    (hrest : Loops arch n d p ⟨r, st'.op⟩ s' res) : Loops arch n d p st s res := by
  obtain ⟨fuel, hloop⟩ := hrest
  refine ⟨fuel + 1, ?_⟩
  rw [binLoop, if_neg (Nat.not_le.mpr h), heval, bind_some]
  simpa only [hb] using hloop

theorem Loops.fail (h : p < prec st.op)
    (heval : evalbinop arch n d (prec st.op) st s = some (st', s')) (hb : binop arch st.op st.r st'.r = none) :
    Loops arch n d p st s (st', []) := by
  refine ⟨1, ?_⟩
  rw [binLoop, if_neg (Nat.not_le.mpr h), heval, bind_some]
  simp only [hb]

theorem Loops.nil (arch : Arch) (n d p : ℕ) (st : St) : ∃ st', Loops arch n d p st [] (st', []) := by
  obtain ⟨st', s', hloop, hle⟩ := binLoop_total arch (evaluators_total arch n d).binop p 2 st [] (.inl le_rfl)
  obtain rfl := List.length_eq_zero_iff.mp (Nat.le_zero.mp hle)
  exact ⟨st', 2, hloop⟩

/-- **`evalbinop`** is the first operand and the loop behind it. -/
theorem evalbinop_of_loops (hprim : evalprim arch n d st s = some (st', s'))
    (h : Loops arch n d p ⟨st'.r, (parseop s').1⟩ (parseop s').2 res) : evalbinop arch n (d + 1) p st s = some res := by
  obtain ⟨fuel, hloop⟩ := h
  have hop := parseop_length s'
  obtain ⟨st'', s'', htotal, -⟩ := binLoop_total arch (evaluators_total arch n d).binop p (s'.length + 2)
    ⟨st'.r, (parseop s').1⟩ (parseop s').2 (.inl (by omega))
  have hmono := binLoop_mono htotal fuel
  rw [Nat.add_comm, binLoop_mono hloop] at hmono
  rw [evalbinop, hprim, bind_some, htotal, ← hmono]

/-! ## Reading an expression -/

/-- A string that neither continues a constant nor has space at its front. -/
def Behind (s : List UInt8) : Prop := isspace (byte s 0) = false ∧ ¬dec (byte s 0) < 10

theorem behind_cons (h : isspace c = false ∧ ¬dec c < 10) (s : List UInt8) : Behind (c :: s) := h

/-- What a function leaves when it has read a text with a value, or with none, before `s`. -/
def Outcome (v : Option ℕ) (s : List UInt8) (res : Option (St × List UInt8)) : Prop :=
  ∃ st', (v = none ∧ res = some (st', [])) ∨ (v = some st'.r ∧ res = some (st', s))

/-- What `evalprim` does with the text `u` of an expression. -/
def Prims (arch : Arch) (n : ℕ) (e : Expr) (u : List UInt8) : Prop :=
  ∀ d st s, e.depth ≤ d → Behind s → Outcome (e.evalAll arch n) s (evalprim arch n d st (u ++ s))

/-- What `evalbinop` does with it, if the operator behind it does not bind closer: it fails, or goes on as if it had
read a single operand. -/
def Operands (arch : Arch) (n : ℕ) (e : Expr) (u : List UInt8) : Prop :=
  ∀ d p st s, e.operandDepth ≤ d + 1 → p < e.level → Behind s → prec (parseop s).1 ≤ e.level →
    (e.evalAll arch n = none ∧ ∃ st', evalbinop arch n (d + 1) p st (u ++ s) = some (st', [])) ∨
      ∃ x, e.evalAll arch n = some x ∧ ∀ res, Loops arch n d p ⟨x, (parseop s).1⟩ (parseop s).2 res →
        evalbinop arch n (d + 1) p st (u ++ s) = some res

/-- The bytes that end a whole expression. -/
def Ends (s : List UInt8) : Prop := byte s 0 ∈ ([41, 58, 59] : List UInt8)

theorem ends_cons (h : c ∈ ([41, 58, 59] : List UInt8)) (s : List UInt8) : Ends (c :: s) := h

/-- What `evalexpr` does with it. -/
def Wholes (arch : Arch) (n : ℕ) (e : Expr) (u : List UInt8) : Prop :=
  ∀ d st s, e.fullDepth ≤ d → Ends s → Outcome (e.evalAll arch n) s (evalexpr arch n d st (u ++ s))

theorem Ends.behind (h : Ends s) : Behind s := by
  simp only [Ends, mem_cons, not_mem_nil, or_false] at h
  unfold Behind
  rcases h with h | h | h <;> rw [h] <;> decide

theorem Ends.parseop (h : Ends s) : parseop s = (13, s) ∧ byte s 0 ≠ 63 := by
  simp only [Ends, mem_cons, not_mem_nil, or_false] at h
  refine ⟨parseop_of_not_mem ?_, ?_⟩ <;> rcases h with h | h | h <;> rw [h] <;> decide

theorem Prims.operands (h : Prims arch n e u) (hl : e.level = 7) : Operands arch n e u := by
  intro d p st s hd _ hs _
  rw [Expr.operandDepth_of_level hl] at hd
  obtain ⟨st', ⟨hv, heq⟩ | ⟨hv, heq⟩⟩ := h d st s (by omega) hs
  · refine .inl ⟨hv, ⟨st'.r, 13⟩, evalbinop_of_loops heq ?_⟩
    exact Loops.stop (show prec 13 ≤ p from Nat.zero_le p) []
  · exact .inr ⟨st'.r, hv, fun res hloop => evalbinop_of_loops heq hloop⟩

theorem Operands.wholes (h : Operands arch n e u) (hl : 0 < e.level) :
    Wholes arch n e u := by
  intro d st s hd hs
  obtain ⟨hop, hne⟩ := hs.parseop
  rw [Expr.fullDepth_of_level hl] at hd
  have hpos : 0 < e.operandDepth := lt_of_lt_of_le e.depth_pos (Nat.le_add_right _ _)
  obtain ⟨d, rfl⟩ : ∃ d', d = d' + 1 + 1 := ⟨d - 2, by omega⟩
  rw [evalexpr]
  rcases h d 0 st s (by omega) hl hs.behind (by rw [hop]; exact Nat.zero_le _) with ⟨hv, st', heq⟩ | ⟨x, hv, hloop⟩
  · exact ⟨st', .inl ⟨hv, by rw [heq]; rfl⟩⟩
  · have heq := hloop (⟨x, 13⟩, s) (by rw [hop]; exact Loops.stop (show prec 13 ≤ 0 from le_rfl) s)
    refine ⟨⟨x, 13⟩, .inr ⟨hv, ?_⟩⟩
    rw [heq, bind_some, if_pos hne]

/-- The text of an expression does not begin with a `=`. -/
theorem written_head (h : Written e u) (hwf : e.WellFormed arch) :
    ∃ c t, u = c :: t ∧ c ≠ 61 := by
  have hspace {w v : List UInt8} (hw : Space w) (hv : ∃ c t, v = c :: t ∧ c ≠ 61) :
      ∃ c t, w ++ v = c :: t ∧ c ≠ 61 := by
    cases w with
    | nil => exact hv
    | cons c w =>
      refine ⟨c, w ++ v, rfl, ?_⟩
      rintro rfl
      exact absurd (hw 61 mem_cons_self) (by decide)
  induction h with
  | @num ds w w' hw hw' =>
    obtain ⟨hne, hds, -⟩ := hwf
    obtain ⟨c, ds, rfl⟩ := exists_cons_of_ne_nil hne
    refine hspace hw ⟨c, ds ++ w', rfl, ?_⟩
    rintro rfl
    exact absurd (hds 61 mem_cons_self) (by decide)
  | var hw hw' => exact hspace hw ⟨_, _, rfl, by decide⟩
  | paren hw hw' h ih => exact hspace hw ⟨_, _, rfl, by decide⟩
  | not hw h ih => exact hspace hw ⟨_, _, rfl, by decide⟩
  | bin ha hb iha ihb =>
    obtain ⟨c, t, rfl, hc⟩ := iha hwf.2.1
    exact ⟨c, _, rfl, hc⟩
  | cond hc ha hb ihc iha ihb =>
    obtain ⟨c, t, rfl, hne⟩ := ihc hwf.2.1
    exact ⟨c, _, rfl, hne⟩

theorem behind_text (op : Op) (s : List UInt8) : Behind (op.text ++ s) := by
  have hhead : ∃ c t, op.text = c :: t ∧ isspace c = false ∧ ¬dec c < 10 := by
    cases op <;> exact ⟨_, _, rfl, by decide, by decide⟩
  obtain ⟨c, t, htext, hc⟩ := hhead
  rw [htext]
  exact behind_cons hc _

/-- **A binary operator**: the left operand is read by the same call, the right one by a call that stops at operators
that do not bind closer. -/
theorem Operands.bin {op : Op} {a b : Expr} {u' : List UInt8} (ha : Operands arch n a u) (hb : Operands arch n b u')
    (hleft : op.prec ≤ a.level) (hright : op.prec < b.level) (hhead : ∃ c t, u' = c :: t ∧ c ≠ 61) :
    Operands arch n (.bin op a b) (u ++ (op.text ++ u')) := by
  intro d p st s hd hp hs hprec
  have hp : p < op.prec := hp
  have hprec : prec (parseop s).1 ≤ op.prec := hprec
  rw [Expr.operandDepth_bin] at hd
  have hop : parseop (op.text ++ (u' ++ s)) = (code op, u' ++ s) := by
    obtain ⟨c, t, rfl, hc⟩ := hhead
    exact parseop_text op hc
  rw [append_assoc, append_assoc]
  rcases ha d p st (op.text ++ (u' ++ s)) (by omega) (by omega) (behind_text op _)
    (by rw [hop, prec_code]; exact hleft) with ⟨hv, st', heq⟩ | ⟨x, hx, hloop⟩
  · exact .inl ⟨by rw [Expr.evalAll, hv]; rfl, st', heq⟩
  · rw [hop] at hloop
    have hpos : 0 < b.operandDepth := lt_of_lt_of_le b.depth_pos (Nat.le_add_right _ _)
    have hcode : prec (⟨x, code op⟩ : St).op = op.prec := prec_code op
    have hstep : p < prec (⟨x, code op⟩ : St).op := by rwa [hcode]
    rcases d with _ | d
    · omega
    rcases hb d op.prec ⟨x, code op⟩ s (by omega) hright hs (by omega) with ⟨hv, st', heq⟩ | ⟨y, hy, hloop'⟩
    · -- the right operand fails, and the rest of the string is empty
      refine .inl ⟨by rw [Expr.evalAll, hx, hv]; rfl, ?_⟩
      rw [← hcode] at heq
      cases hbin : binop arch (⟨x, code op⟩ : St).op (⟨x, code op⟩ : St).r st'.r with
      | none => exact ⟨st', hloop _ (Loops.fail hstep heq hbin)⟩
      | some r =>
        obtain ⟨st'', hnil⟩ := Loops.nil arch n (d + 1) p ⟨r, st'.op⟩
        exact ⟨st'', hloop _ (Loops.step hstep heq hbin hnil)⟩
    · have heq := hloop' _ (Loops.stop hprec _)
      rw [← hcode] at heq
      have hbin : binop arch (⟨x, code op⟩ : St).op (⟨x, code op⟩ : St).r y = op.apply arch x y :=
        binop_code arch op x y
      have hall : (Expr.bin op a b).evalAll arch n = op.apply arch x y := by
        rw [Expr.evalAll, hx, hy]
        rfl
      rw [hall]
      cases happly : op.apply arch x y with
      | none =>
        rw [happly] at hbin
        exact .inl ⟨rfl, _, hloop _ (Loops.fail hstep heq hbin)⟩
      | some z =>
        rw [happly] at hbin
        exact .inr ⟨z, rfl, fun res hrest => hloop _ (Loops.step hstep heq hbin hrest)⟩

/-- **A conditional**: both branches are evaluated. -/
theorem Wholes.cond {c a b : Expr} {u' u'' : List UInt8} (hc : Operands arch n c u) (ha : Wholes arch n a u')
    (hb : Wholes arch n b u'') (hl : 0 < c.level) : Wholes arch n (.cond c a b) (u ++ 63 :: (u' ++ 58 :: u'')) := by
  intro d st s hd hs
  have hpos : 0 < c.operandDepth := lt_of_lt_of_le c.depth_pos (Nat.le_add_right _ _)
  rw [Expr.fullDepth_cond] at hd
  obtain ⟨d, rfl⟩ : ∃ d', d = d' + 1 + 1 := ⟨d - 2, by omega⟩
  have htext : u ++ 63 :: (u' ++ 58 :: u'') ++ s = u ++ (63 :: (u' ++ 58 :: (u'' ++ s))) := by simp
  have hop := parseop_cons (c := 63) (by decide) (u' ++ 58 :: (u'' ++ s))
  rw [htext, evalexpr]
  rcases hc d 0 st (63 :: (u' ++ 58 :: (u'' ++ s))) (by omega) hl (behind_cons (by decide) _)
    (by rw [hop]; exact Nat.zero_le _) with ⟨hv, st', heq⟩ | ⟨x, hx, hloop⟩
  · exact ⟨st', .inl ⟨by rw [Expr.evalAll, hv]; rfl, by rw [heq]; rfl⟩⟩
  · have heq := hloop (⟨x, 13⟩, 63 :: (u' ++ 58 :: (u'' ++ s)))
      (by rw [hop]; exact Loops.stop (show prec 13 ≤ 0 from le_rfl) _)
    rw [heq, bind_some, if_neg (not_not_intro (byte_cons _ _)), drop_one, tail_cons]
    obtain ⟨st1, ⟨hv, heq1⟩ | ⟨hv1, heq1⟩⟩ := ha (d + 1) ⟨x, 13⟩ (58 :: (u'' ++ s)) (by omega)
      (ends_cons (by decide) _)
    · refine ⟨st1, .inl ⟨by rw [Expr.evalAll, hx, hv]; rfl, ?_⟩⟩
      rw [heq1, bind_some, if_pos (show byte [] 0 ≠ 58 by decide)]
    · rw [heq1, bind_some, drop_one, tail_cons]
      obtain ⟨st2, ⟨hv, heq2⟩ | ⟨hv2, heq2⟩⟩ := hb (d + 1) st1 s (by omega) hs
      · exact ⟨_, .inl ⟨by rw [Expr.evalAll, hx, hv1, hv]; rfl, by rw [heq2]; rfl⟩⟩
      · exact ⟨⟨if x ≠ 0 then st1.r else st2.r, st2.op⟩,
          .inr ⟨by rw [Expr.evalAll, hx, hv1, hv2]; rfl, by rw [heq2]; rfl⟩⟩

theorem skipspace_append (hw : Space w) (hc : isspace c = false) (s : List UInt8) :
    skipspace (w ++ c :: s) = c :: s := by
  unfold skipspace
  rw [dropWhile_append_of_pos hw, dropWhile_cons_of_neg (by simp [hc])]

theorem skipspace_behind (hw : Space w) (hs : Behind s) : skipspace (w ++ s) = s := by
  cases s with
  | nil =>
    unfold skipspace
    rw [dropWhile_append_of_pos hw]
    rfl
  | cons c s => exact skipspace_append hw hs.1 s

theorem behind_append (hw : Space w) (hs : Behind s) : ¬dec (byte (w ++ s) 0) < 10 := by
  cases w with
  | nil => exact hs.2
  | cons c w =>
    have hall : ∀ c : UInt8, isspace c = true → ¬dec c < 10 := by decide +kernel
    exact hall c (hw c mem_cons_self)

/-- **A constant.** -/
theorem prims_num (hw : Space w) (hw' : Space w') (hwf : (Expr.num ds).WellFormed arch) :
    Prims arch n (.num ds) (w ++ (ds ++ w')) := by
  intro d st s hd hs
  obtain ⟨hne, hds, hlt⟩ := hwf
  obtain ⟨d, rfl⟩ : ∃ d', d = d' + 1 := ⟨d - 1, by simp only [Expr.depth] at hd; omega⟩
  have hskip : skipspace (w ++ (ds ++ w') ++ s) = ds ++ (w' ++ s) := by
    obtain ⟨c, ds, rfl⟩ := exists_cons_of_ne_nil hne
    have hc : isspace c = false :=
      (Strtol.not_space_of_val (lt_trans ((Strtol.dec_lt_iff c).mp (hds c mem_cons_self)) (by decide))).1
    simpa using skipspace_append hw hc (ds ++ (w' ++ s))
  have heq := evalprim_digits arch n d st hskip hne hds (behind_append hw' hs)
  have hlt : value 10 ds < ULONG_MAX arch := hlt
  rw [if_pos hlt, skipspace_behind hw' hs, Nat.min_eq_left hlt.le] at heq
  exact ⟨⟨value 10 ds, st.op⟩, .inr ⟨rfl, heq⟩⟩

/-- **The variable.** -/
theorem prims_var (hw : Space w) (hw' : Space w') : Prims arch n .var (w ++ 110 :: w') := by
  intro d st s hd hs
  obtain ⟨d, rfl⟩ : ∃ d', d = d' + 1 := ⟨d - 1, by simp only [Expr.depth] at hd; omega⟩
  have hskip : skipspace (w ++ 110 :: w' ++ s) = 110 :: (w' ++ s) := by
    simpa using skipspace_append hw (by decide) (w' ++ s)
  refine ⟨⟨n, st.op⟩, .inr ⟨rfl, ?_⟩⟩
  rw [evalprim]
  simp only [hskip, byte_cons]
  rw [if_neg (by decide), if_pos trivial, drop_one, tail_cons, skipspace_behind hw' hs]

/-- **Parentheses.** -/
theorem Wholes.paren (h : Wholes arch n e u) (hw : Space w) (hw' : Space w') :
    Prims arch n (.paren e) (w ++ 40 :: (u ++ 41 :: w')) := by
  intro d st s hd hs
  rw [Expr.depth_paren] at hd
  rcases d with _ | d
  · omega
  have hskip : skipspace (w ++ 40 :: (u ++ 41 :: w') ++ s) = 40 :: (u ++ 41 :: (w' ++ s)) := by
    simpa using skipspace_append hw (by decide) (u ++ 41 :: (w' ++ s))
  have heq : evalprim arch n (d + 1) st (w ++ 40 :: (u ++ 41 :: w') ++ s) =
      (evalexpr arch n d st (u ++ 41 :: (w' ++ s))).map fun q =>
        if byte q.2 0 ≠ 41 then (q.1, []) else (q.1, skipspace (q.2.drop 1)) := by
    rw [evalprim]
    simp only [hskip, byte_cons]
    rw [if_neg (by decide), if_neg (by decide), if_pos trivial, drop_one, tail_cons]
  rw [heq]
  obtain ⟨st', ⟨hv, hin⟩ | ⟨hv, hin⟩⟩ := h d st (41 :: (w' ++ s)) (by omega) (ends_cons (by decide) _)
  · exact ⟨st', .inl ⟨hv, by rw [hin]; rfl⟩⟩
  · refine ⟨st', .inr ⟨hv, ?_⟩⟩
    rw [hin, map_some, if_neg (not_not_intro (byte_cons _ _)), drop_one, tail_cons,
      skipspace_behind hw' hs]

/-- **Negation.** -/
theorem Prims.not (h : Prims arch n e u) (hw : Space w) :
    Prims arch n (.not e) (w ++ 33 :: u) := by
  intro d st s hd hs
  have hd : 1 + e.depth ≤ d := hd
  rcases d with _ | d
  · omega
  have hskip : skipspace (w ++ 33 :: u ++ s) = 33 :: (u ++ s) := by
    simpa using skipspace_append hw (by decide) (u ++ s)
  have heq : evalprim arch n (d + 1) st (w ++ 33 :: u ++ s) =
      (evalprim arch n d st (u ++ s)).map fun q => (⟨truth (q.1.r = 0), q.1.op⟩, q.2) := by
    rw [evalprim]
    simp only [hskip, byte_cons]
    rw [if_neg (by decide), if_neg (by decide), if_neg (by decide), if_pos trivial, drop_one, tail_cons]
  rw [heq]
  obtain ⟨st', ⟨hv, hin⟩ | ⟨hv, hin⟩⟩ := h d st s (by omega) hs
  · exact ⟨_, .inl ⟨by rw [Expr.evalAll, hv]; rfl, by rw [hin]; rfl⟩⟩
  · exact ⟨⟨truth (st'.r = 0), st'.op⟩, .inr ⟨by rw [Expr.evalAll, hv]; rfl, by rw [hin]; rfl⟩⟩

/-- What all three functions do with the text of an expression, each with those that it takes apart. -/
structure Evaluates (arch : Arch) (n : ℕ) (e : Expr) (u : List UInt8) : Prop where
  prims : e.level = 7 → Prims arch n e u
  operands : 0 < e.level → Operands arch n e u
  wholes : Wholes arch n e u

theorem Evaluates.of_prims (h : Prims arch n e u) (hl : e.level = 7) :
    Evaluates arch n e u :=
  ⟨fun _ => h, fun _ => h.operands hl, (h.operands hl).wholes (by omega)⟩

/-- **The text of an expression is read**, and the value of all its operands computed. -/
theorem written_evaluates (h : Written e u) (hwf : e.WellFormed arch) :
    Evaluates arch n e u := by
  induction h with
  | num hw hw' => exact .of_prims (prims_num hw hw' hwf) rfl
  | var hw hw' => exact .of_prims (prims_var hw hw') rfl
  | paren hw hw' h ih => exact .of_prims ((ih hwf).wholes.paren hw hw') rfl
  | not hw h ih => exact .of_prims (((ih hwf.2).prims hwf.1).not hw) rfl
  | @bin op a b u u' ha hb iha ihb =>
    obtain ⟨⟨hleft, hright⟩, hwfa, hwfb⟩ := hwf
    have hpos := op.prec_pos
    have hops := ((iha hwfa).operands (by omega)).bin ((ihb hwfb).operands (by omega)) hleft hright
      (written_head hb hwfb)
    refine ⟨fun hl => ?_, fun _ => hops, hops.wholes hpos⟩
    exact absurd hl op.prec_lt.ne
  | cond hc ha hb ihc iha ihb =>
    obtain ⟨hl, hwfc, hwfa, hwfb⟩ := hwf
    refine ⟨fun hl => ?_, fun hl => ?_, Wholes.cond ((ihc hwfc).operands hl) (iha hwfa).wholes (ihb hwfb).wholes hl⟩
    · cases hl
    · exact absurd hl (lt_irrefl 0)

end Written

/-! ## Only expressions are read -/

section Sound

variable {arch : Arch} {n : ℕ}

/-- What has been read of `s` when `s'` is left is the text of an expression of some kind. -/
def Reads (arch : Arch) (P : Expr → Prop) (s s' : List UInt8) : Prop :=
  ∃ e u, P e ∧ e.WellFormed arch ∧ Written e u ∧ s = u ++ s'

/-- The evaluators read only texts of expressions, with a counter, unless they fail. -/
structure Sound (arch : Arch) (n d : ℕ) : Prop where
  prim : ∀ {st s st' s'}, evalprim arch n d st s = some (st', s') → s' ≠ [] →
    Reads arch (fun e => e.level = 7 ∧ e.depth ≤ d) s s'
  binop : ∀ {p st s st' s'}, p < 7 → evalbinop arch n d p st s = some (st', s') → s' ≠ [] →
    prec st'.op ≤ p ∧ Reads arch (fun e => p < e.level ∧ e.operandDepth ≤ d) s (opText st'.op ++ s')
  expr : ∀ {st s st' s'}, evalexpr arch n d st s = some (st', s') → s' ≠ [] →
    Reads arch (fun e => e.fullDepth ≤ d) s s'

theorem skipspace_split (s : List UInt8) : ∃ w, Space w ∧ s = w ++ skipspace s :=
  ⟨s.takeWhile isspace, fun _ hc => mem_takeWhile_imp hc, List.takeWhile_append_dropWhile.symm⟩

theorem Sound.prim_succ (h : Sound arch n d) (heq : evalprim arch n (d + 1) st s = some (st', s')) (hne : s' ≠ []) :
    Reads arch (fun e => e.level = 7 ∧ e.depth ≤ d + 1) s s' := by
  obtain ⟨w, hw, hs⟩ := skipspace_split s
  by_cases hdig : dec (byte (skipspace s) 0) < 10
  · obtain ⟨ds, t, ht, hdsne, hds, htdig⟩ := split_digits hdig
    rw [evalprim_digits arch n d st ht hdsne hds htdig] at heq
    obtain ⟨-, rfl⟩ := heq
    obtain ⟨w', hw', ht'⟩ := skipspace_split t
    by_cases hlt : value 10 ds < ULONG_MAX arch
    · rw [if_pos hlt]
      refine ⟨.num ds, _, ⟨rfl, Nat.le_add_left 1 d⟩, ⟨hdsne, hds, hlt⟩, .num hw hw', ?_⟩
      rw [append_assoc, append_assoc, ← ht', ← ht]
      exact hs
    · exact absurd (if_neg hlt) hne
  · rw [evalprim] at heq
    simp only [if_neg hdig] at heq
    split at heq
    · rename_i hbyte
      obtain ⟨t, ht⟩ := exists_cons_of_byte (by decide) hbyte
      obtain ⟨w', hw', ht'⟩ := skipspace_split t
      rw [ht, drop_one, tail_cons] at heq
      obtain ⟨-, rfl⟩ := heq
      refine ⟨.var, _, ⟨rfl, Nat.le_add_left 1 d⟩, trivial, .var hw hw', ?_⟩
      rw [append_assoc, cons_append, ← ht', ← ht]
      exact hs
    · split at heq
      · rename_i hbyte
        obtain ⟨t, ht⟩ := exists_cons_of_byte (by decide) hbyte
        rw [ht, drop_one, tail_cons] at heq
        obtain ⟨q, hq, heq⟩ := Option.map_eq_some_iff.mp heq
        split at heq
        · exact absurd (congrArg Prod.snd heq).symm hne
        · rename_i hclose
          obtain ⟨t', ht'⟩ := exists_cons_of_byte (by decide) (not_not.mp hclose)
          obtain ⟨w', hw', hskip⟩ := skipspace_split t'
          rw [ht'] at heq
          obtain ⟨e, u, hdepth, hwf, hu, hread⟩ := h.expr hq (by rw [ht']; exact cons_ne_nil _ _)
          refine ⟨.paren e, _, ⟨rfl, ?_⟩, hwf, .paren hw hw' hu, ?_⟩
          · rw [Expr.depth_paren]
            omega
          · have hs' : s' = skipspace t' := (congrArg Prod.snd heq).symm
            rw [hs', append_assoc, cons_append, append_assoc, cons_append, ← hskip, ← ht', ← hread,
              ← ht]
            exact hs
      · split at heq
        · rename_i hbyte
          obtain ⟨t, ht⟩ := exists_cons_of_byte (by decide) hbyte
          rw [ht, drop_one, tail_cons] at heq
          obtain ⟨q, hq, heq⟩ := Option.map_eq_some_iff.mp heq
          obtain rfl : q.2 = s' := congrArg Prod.snd heq
          obtain ⟨e, u, ⟨hl, hdepth⟩, hwf, hu, hread⟩ := h.prim hq hne
          refine ⟨.not e, _, ⟨rfl, ?_⟩, ⟨hl, hwf⟩, .not hw hu, ?_⟩
          · show 1 + e.depth ≤ d + 1
            omega
          · rw [append_assoc, cons_append, ← hread, ← ht]
            exact hs
        · cases heq
          exact absurd rfl hne

/-- **The loop reads only operands and operators**: what has been read before a round is the text of an expression,
and the operator behind it does not bind closer than those of the expression. -/
theorem Sound.loop (h : Sound arch n d) {s0 : List UInt8} (hne : s' ≠ []) :
    ∀ (fuel : ℕ) (st : St) (s : List UInt8), binLoop arch (evalbinop arch n d) p fuel st s = some (st', s') →
      Reads arch (fun e => (p < e.level ∧ prec st.op ≤ e.level) ∧ e.operandDepth ≤ d + 1) s0 (opText st.op ++ s) →
      prec st'.op ≤ p ∧ Reads arch (fun e => p < e.level ∧ e.operandDepth ≤ d + 1) s0 (opText st'.op ++ s') := by
  intro fuel
  induction fuel with
  | zero => exact fun st s heq => by cases heq
  | succ fuel ih =>
    rintro st s heq ⟨e, u, ⟨⟨hp, hle⟩, hdepth⟩, hwf, hu, hs0⟩
    rw [binLoop] at heq
    split at heq
    · rename_i hstop
      cases heq
      exact ⟨hstop, e, u, ⟨hp, hdepth⟩, hwf, hu, hs0⟩
    · rename_i hgo
      obtain ⟨op, hop⟩ := exists_code (c := st.op) (by omega)
      obtain ⟨q, hq, heq⟩ := Option.bind_eq_some_iff.mp heq
      cases hb : Pleval.binop arch st.op st.r q.1.r with
      | none =>
        simp only [hb, some.injEq, Prod.mk.injEq] at heq
        exact absurd heq.2.symm hne
      | some r =>
        simp only [hb] at heq
        -- where nothing is left, nothing is left in the end
        have hq2 : q.2 ≠ [] := by
          intro hnil
          rw [hnil] at heq
          obtain ⟨st'', s'', htotal, hlen⟩ := binLoop_total arch (evaluators_total arch n d).binop p
            (2 + fuel) ⟨r, q.1.op⟩ [] (.inl (by simp))
          rw [Nat.add_comm, binLoop_mono heq 2] at htotal
          obtain ⟨-, rfl⟩ := htotal
          exact hne (List.length_eq_zero_iff.mp (Nat.le_zero.mp hlen))
        obtain ⟨hprec, e', u', ⟨hl', hdepth'⟩, hwf', hu', hs⟩ :=
          h.binop (by rw [hop, prec_code]; exact op.prec_lt) hq hq2
        rw [hop, prec_code] at hgo hle hprec hl'
        refine ih ⟨r, q.1.op⟩ q.2 heq ⟨.bin op e e', _, ⟨⟨?_, hprec⟩, ?_⟩, ⟨⟨hle, hl'⟩, hwf, hwf'⟩, .bin hu hu', ?_⟩
        · exact Nat.not_le.mp hgo
        · rw [Expr.operandDepth_bin]
          omega
        · rw [append_assoc, append_assoc, ← hs, ← opText_code, ← hop]
          exact hs0

theorem Sound.binop_succ (h : Sound arch n d) (hp : p < 7)
    (heq : evalbinop arch n (d + 1) p st s = some (st', s')) (hne : s' ≠ []) :
    prec st'.op ≤ p ∧ Reads arch (fun e => p < e.level ∧ e.operandDepth ≤ d + 1) s (opText st'.op ++ s') := by
  obtain ⟨q, hq, hloop⟩ := Option.bind_eq_some_iff.mp heq
  have hq2 : q.2 ≠ [] := by
    intro hnil
    rw [hnil] at hloop
    cases hloop
    exact hne rfl
  obtain ⟨e, u, ⟨hl, hdepth⟩, hwf, hu, hs⟩ := h.prim hq hq2
  refine h.loop hne _ _ _ hloop ⟨e, u, ⟨⟨by omega, ?_⟩, ?_⟩, hwf, hu, ?_⟩
  · rw [hl]
    rcases Nat.eq_zero_or_pos (prec (parseop q.2).1) with h0 | hpos
    · exact h0.le.trans (Nat.zero_le 7)
    · obtain ⟨op, hop⟩ := exists_code hpos
      rw [hop, prec_code]
      exact op.prec_lt.le
  · rw [Expr.operandDepth_of_level hl]
    omega
  · rw [← parseop_split]
    exact hs

theorem Sound.expr_succ (h : Sound arch n d) (heq : evalexpr arch n (d + 1) st s = some (st', s')) (hne : s' ≠ []) :
    Reads arch (fun e => e.fullDepth ≤ d + 1) s s' := by
  obtain ⟨a, ha, heq⟩ := Option.bind_eq_some_iff.mp heq
  -- an operand that is read with the precedence 0 has no operator behind it
  have hoperand (hne : a.2 ≠ []) : Reads arch (fun e => 0 < e.level ∧ e.operandDepth ≤ d) s a.2 := by
    obtain ⟨hprec, hreads⟩ := h.binop (by decide) ha hne
    rwa [opText_of_prec (Nat.le_zero.mp hprec)] at hreads
  split at heq
  · cases heq
    obtain ⟨e, u, ⟨hl, hdepth⟩, hwf, hu, hs⟩ := hoperand hne
    refine ⟨e, u, ?_, hwf, hu, hs⟩
    show e.fullDepth ≤ d + 1
    rw [Expr.fullDepth_of_level hl]
    omega
  · rename_i hquestion
    obtain ⟨t, ht⟩ := exists_cons_of_byte (by decide) (not_not.mp hquestion)
    obtain ⟨c, u, ⟨hl, hdepth⟩, hwf, hu, hs⟩ := hoperand (by rw [ht]; exact cons_ne_nil _ _)
    obtain ⟨b, hb, heq⟩ := Option.bind_eq_some_iff.mp heq
    rw [ht, drop_one, tail_cons] at hb
    split at heq
    · cases heq
      exact absurd rfl hne
    · rename_i hcolon
      obtain ⟨t', ht'⟩ := exists_cons_of_byte (by decide) (not_not.mp hcolon)
      obtain ⟨q, hq, heq⟩ := Option.map_eq_some_iff.mp heq
      rw [ht', drop_one, tail_cons] at hq
      obtain rfl : q.2 = s' := congrArg Prod.snd heq
      obtain ⟨e1, u1, hdepth1, hwf1, hu1, hs1⟩ := h.expr hb (by rw [ht']; exact cons_ne_nil _ _)
      obtain ⟨e2, u2, hdepth2, hwf2, hu2, hs2⟩ := h.expr hq hne
      refine ⟨.cond c e1 e2, _, ?_, ⟨hl, hwf, hwf1, hwf2⟩, .cond hu hu1 hu2, ?_⟩
      · show (Expr.cond c e1 e2).fullDepth ≤ d + 1
        rw [Expr.fullDepth_cond]
        omega
      · rw [append_assoc, cons_append, append_assoc, cons_append, ← hs2, ← ht', ← hs1, ← ht]
        exact hs

/-- **The evaluators read only texts of expressions**, unless they fail. -/
theorem evaluators_sound (arch : Arch) (n d : ℕ) : Sound arch n d := by
  induction d with
  | zero =>
    refine ⟨fun heq hne => ?_, fun _ heq hne => ?_, fun heq hne => ?_⟩ <;>
    · cases heq
      exact absurd rfl hne
  | succ d ih => exact ⟨ih.prim_succ, ih.binop_succ, ih.expr_succ⟩

end Sound

/-! ## `__pleval` -/

/-- A string that begins with an expression of the grammar and `;`, for which the counter does not run out. -/
def Form (arch : Arch) (e : Expr) (s : List UInt8) : Prop :=
  e.WellFormed arch ∧ e.fullDepth ≤ 100 ∧ ∃ u t, Written e u ∧ s = u ++ 59 :: t

/-- **What `__pleval` returns**: the value of an expression with all its operands computed, and `ULONG_MAX` if there
is none or if the string does not begin with an expression. -/
theorem pleval_eq (arch : Arch) (s : List UInt8) (n : ℕ) (st : St) :
    (∀ e, Form arch e s → pleval arch s n st = some ((e.evalAll arch n).getD (ULONG_MAX arch))) ∧
      ((¬∃ e, Form arch e s) → pleval arch s n st = some (ULONG_MAX arch)) := by
  constructor
  · rintro e ⟨hwf, hdepth, u, t, hu, rfl⟩
    obtain ⟨st', ⟨hv, heq⟩ | ⟨hv, heq⟩⟩ := (written_evaluates hu hwf).wholes 100 st (59 :: t) hdepth
      (ends_cons (by decide) t)
    · rw [pleval, heq, hv]
      rfl
    · rw [pleval, heq, hv]
      rfl
  · intro hno
    obtain ⟨st', s', heq, -⟩ := (evaluators_total arch n 100).expr st s
    rw [pleval, heq]
    refine congrArg some (if_neg fun hsemi => hno ?_)
    obtain ⟨t, rfl⟩ := exists_cons_of_byte (by decide) hsemi
    obtain ⟨e, u, hdepth, hwf, hu, hs⟩ := (evaluators_sound arch n 100).expr heq (cons_ne_nil _ _)
    exact ⟨e, hwf, hdepth, u, t, hu, hs⟩

/-- **`__pleval` and C**: for an expression, the result is the value that C assigns to it, or `ULONG_MAX` if C divides
by zero, exactly if no divisor in the expression is zero, also in the operands that C does not compute, or if
`ULONG_MAX` is right. For a string that does not begin with an expression the result is `ULONG_MAX`. -/
theorem pleval_value (arch : Arch) (s : List UInt8) (n : ℕ) (st : St) :
    (∀ e, Form arch e s → (pleval arch s n st = some ((e.eval arch n).getD (ULONG_MAX arch)) ↔
      ¬e.ZeroDivisor arch n ∨ (e.eval arch n).getD (ULONG_MAX arch) = ULONG_MAX arch)) ∧
      ((¬∃ e, Form arch e s) → pleval arch s n st = some (ULONG_MAX arch)) := by
  obtain ⟨hform, hno⟩ := pleval_eq arch s n st
  refine ⟨fun e he => ?_, hno⟩
  rw [hform e he, some.injEq, ← Expr.evalAll_eq_none_iff]
  cases hv : e.evalAll arch n with
  | none =>
    constructor
    · exact fun h => .inr h.symm
    · exact fun h => (h.resolve_left (not_not_intro rfl)).symm
  | some v =>
    rw [Expr.eval_of_evalAll hv]
    simp

/-- The expression `n?1/n:1`. -/
def guarded : Expr := .cond .var (.bin .div (.num [49]) .var) (.num [49])

theorem form_guarded : Form .x86_64 guarded [110, 63, 49, 47, 110, 58, 49, 59] := by
  have hspace : Space [] := forall_mem_nil _
  have hone : (Expr.num [49]).WellFormed .x86_64 :=
    ⟨cons_ne_nil _ _, List.forall_mem_singleton.mpr (by decide), by decide⟩
  refine ⟨?_, by decide, [110, 63, 49, 47, 110, 58, 49], [], ?_, rfl⟩
  · exact ⟨by decide, trivial, ⟨by decide, hone, trivial⟩, hone⟩
  · exact .cond (.var hspace hspace) (.bin (.num hspace hspace) (.var hspace hspace)) (.num hspace hspace)

/-- With `n = 1` no divisor is zero. -/
theorem pleval_value_one : Form .x86_64 guarded [110, 63, 49, 47, 110, 58, 49, 59] ∧
    pleval .x86_64 [110, 63, 49, 47, 110, 58, 49, 59] 1 ⟨0, 0⟩ =
      some ((guarded.eval .x86_64 1).getD (ULONG_MAX .x86_64)) := by
  refine ⟨form_guarded, ((pleval_value .x86_64 _ 1 ⟨0, 0⟩).1 guarded form_guarded).mpr (.inl ?_)⟩
  rw [← Expr.evalAll_eq_none_iff]
  decide

/-- With `n = 0`, C does not compute the branch that divides by `n`, and the value is 1; but `__pleval` fails. -/
theorem pleval_guarded : Form .x86_64 guarded [110, 63, 49, 47, 110, 58, 49, 59] ∧
    guarded.eval .x86_64 0 = some 1 ∧
    pleval .x86_64 [110, 63, 49, 47, 110, 58, 49, 59] 0 ⟨0, 0⟩ = some (ULONG_MAX .x86_64) :=
  ⟨form_guarded, by decide, by decide⟩

end Leblibc.Pleval
