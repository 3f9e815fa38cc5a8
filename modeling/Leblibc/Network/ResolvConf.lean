import Leblibc.Stdlib.StrtolCorrect

/-!
# The configuration of the resolver

A model of `__get_resolv_conf` in `src/network/resolvconf.c`, and of the division by its result in `__res_msend_rc`. The
file is the list of its bytes; a line is the C string that `fgets` leaves in the buffer. Whether `__lookup_ipliteral`
accepts the text of a name server is a parameter, and the addresses that it stores are left out.

A number behind `attempts:` is bounded from above only. So the configuration is one that `__res_msend_rc` can work with
exactly if the last such number is not zero.

## Main results

* `handle_spec`: a line keeps all bounds from above, and sets `attempts` to the number of its text
* `getResolvConf_bounds`: the bounds of the configuration
-/

namespace Leblibc.ResolvConf

open List

open Strtol (isspace strtoul value front)

/-- The bytes of a string literal. -/
def ascii (s : String) : List UInt8 := s.toList.map fun c => UInt8.ofNat c.toNat

/-- `isdigit`. -/
def isdigit (c : UInt8) : Bool := 48 ≤ c ∧ c ≤ 57

/-! ## Lines -/

/-- The loop of `fgets` with room for `n` bytes: what it stores, what is left of the file, and whether it has met the
end. -/
def fgetsLoop : ℕ → List UInt8 → List UInt8 × List UInt8 × Bool
  | 0, rest => ([], rest, false)
  | _ + 1, [] => ([], [], true)
  | n + 1, c :: rest =>
    if c = 10 then ([c], rest, false)
    else
      let r := fgetsLoop n rest
      (c :: r.1, r.2)

/-- `fgets(line, sizeof line, f)`, with `feof(f)`. -/
def fgets (rest : List UInt8) : Option (List UInt8 × List UInt8 × Bool) :=
  let r := fgetsLoop 255 rest
  if r.1 = [] then none else some r

/-- The string in the buffer. -/
def cstr (line : List UInt8) : List UInt8 := line.takeWhile (· ≠ 0)

/-- The lines that the loop handles. A line that does not fit, or has a NUL before its end, is dropped with what follows
up to the next newline. -/
def lines : ℕ → List UInt8 → Option (List (List UInt8))
  | 0, _ => none
  | fuel + 1, rest =>
    match fgets rest with
    | none => some []
    | some (line, rest, eof) =>
      if 10 ∉ cstr line ∧ eof = false then lines fuel ((rest.dropWhile (· ≠ 10)).drop 1)
      else (lines fuel rest).map (cstr line :: ·)

/-! ## The configuration -/

/-- `MAXNS`. -/
def MAXNS : ℕ := 3

/-- The configuration, with what has been stored from the beginning of `search` on. -/
structure Conf where
  nns : ℕ
  attempts : ℕ
  ndots : ℕ
  timeout : ℕ
  search : List UInt8
  deriving DecidableEq

/-- `strstr`. -/
def strstr (s name : List UInt8) : Option (List UInt8) := s.tails.find? (name.isPrefixOf ·)

/-- One of the options: its name, the test of the byte behind it, and the largest value. -/
def option (arch : Arch) (line name : List UInt8) (first : UInt8 → Bool) (limit old : ℕ) : Option ℕ :=
  match strstr line name with
  | none => some old
  | some p =>
    if first (p.getD name.length 0) then
      (strtoul arch (p.drop name.length) 10).map fun x =>
        if x.endptr ≠ 0 then if x.value > (limit : ℤ) then limit else x.value.toNat else old
    else some old

/-- Whether a line begins with this word and a space. -/
def IsLine (word line : List UInt8) : Prop := word <+: line ∧ isspace (line.getD word.length 0) = true

instance decidableIsLine (word line : List UInt8) : Decidable (IsLine word line) := inferInstanceAs (Decidable (_ ∧ _))

/-- What is behind the word of a line. -/
def argument (word line : List UInt8) : List UInt8 := (line.drop (word.length + 1)).dropWhile isspace

/-- The body of the loop. -/
def handle (arch : Arch) (lookup : List UInt8 → Bool) (searchSz : Option ℕ) (conf : Conf) (line : List UInt8) :
    Option Conf :=
  if IsLine (ascii "options") line then do
    let ndots ← option arch line (ascii "ndots:") isdigit 15 conf.ndots
    let attempts ← option arch line (ascii "attempts:") isdigit 10 conf.attempts
    let timeout ← option arch line (ascii "timeout:") (fun c => isdigit c || c = 46) 60 conf.timeout
    some { conf with ndots := ndots, attempts := attempts, timeout := timeout }
  else if IsLine (ascii "nameserver") line then
    if conf.nns ≥ MAXNS then some conf
    else if lookup ((argument (ascii "nameserver") line).takeWhile fun c => !isspace c) then
      some { conf with nns := conf.nns + 1 }
    else some conf
  else
    match searchSz with
    | none => some conf
    | some sz =>
      if ¬ (IsLine (ascii "domain") line ∨ IsLine (ascii "search") line) then some conf
      else if (argument (ascii "search") line).length ≥ sz then some conf
      else some { conf with search := argument (ascii "search") line ++ [0] }

/-- The values before the first line. -/
def Conf.start : Conf := ⟨0, 2, 1, 5, [0]⟩

/-- The label `no_resolv_conf`. -/
def noResolvConf (conf : Conf) : Conf := if conf.nns = 0 then { conf with nns := 1 } else conf

/-- The result of opening the file: its content, an error that means that there is none, or another error. -/
inductive Opened where
  | file (content : List UInt8)
  | missing
  | error

/-- `__get_resolv_conf`; a result `-1` is the inner `none`. -/
def getResolvConf (arch : Arch) (lookup : List UInt8 → Bool) (searchSz : Option ℕ) : Opened → Option (Option Conf)
  | .file content => do
    let ls ← lines (content.length + 1) content
    let conf ← ls.foldlM (handle arch lookup searchSz) .start
    some (some (noResolvConf conf))
  | .missing => some (some (noResolvConf .start))
  | .error => some none

/-- `retry_interval` in `__res_msend_rc`; without a value the division is one by zero. -/
def retryInterval (conf : Conf) : Option ℕ :=
  if conf.attempts = 0 then none else some (1000 * conf.timeout / conf.attempts)

/-! ## Bounds -/

/-- The text of the number that a line sets `attempts` to. -/
def attemptsText (line : List UInt8) : Option (List UInt8) :=
  if IsLine (ascii "options") line then
    (strstr line (ascii "attempts:")).bind fun p => if isdigit (p.getD 9 0) then some (p.drop 9) else none
  else none

theorem length_fgetsLoop (n : ℕ) (rest : List UInt8) :
    (fgetsLoop n rest).1.length + (fgetsLoop n rest).2.1.length = rest.length := by
  induction n generalizing rest with
  | zero => simp [fgetsLoop]
  | succ n ih =>
    cases rest with
    | nil => rfl
    | cons c rest =>
      rw [fgetsLoop]
      split
      · simp [Nat.add_comm]
      · have := ih rest
        simp only [length_cons]
        omega

/-- The loop over the lines ends. -/
theorem exists_lines (fuel : ℕ) {rest : List UInt8} (h : rest.length < fuel) : ∃ ls, lines fuel rest = some ls := by
  induction fuel generalizing rest with
  | zero => omega
  | succ fuel ih =>
    rw [lines]
    cases hline : fgets rest with
    | none => exact ⟨[], rfl⟩
    | some r =>
      obtain ⟨line, left, eof⟩ := r
      have hleft : left.length < rest.length := by
        unfold fgets at hline
        dsimp only at hline
        split at hline
        · cases hline
        · have hlen := length_fgetsLoop 255 rest
          have hpos := List.length_pos_iff.mpr ‹_›
          rw [Option.some.inj hline] at hlen hpos
          dsimp only at hlen hpos
          omega
      dsimp only
      split
      · refine ih ?_
        have := (dropWhile_suffix (p := (· ≠ (10 : UInt8))) (l := left)).length_le
        rw [length_drop]
        omega
      · obtain ⟨ls, hls⟩ := ih (show left.length < fuel by omega)
        exact ⟨_, by rw [hls]; rfl⟩

variable {searchSz : Option ℕ} {line name : List UInt8} {limit old : ℕ}

variable (arch : Arch)

theorem option_le (line name : List UInt8) (first : UInt8 → Bool) (h : old ≤ limit) :
    ∃ v, option arch line name first limit old = some v ∧ v ≤ limit := by
  unfold option
  cases strstr line name with
  | none => exact ⟨old, rfl, h⟩
  | some p =>
    dsimp only
    split
    · obtain ⟨x, hx⟩ : ∃ x, strtoul arch (p.drop name.length) 10 = some x := by
        rcases Strtol.unsigned_converts (show 10 = 0 ∨ 2 ≤ 10 ∧ 10 ≤ 36 by decide) (p.drop name.length)
          (show arch.bits = 32 ∨ arch.bits = 64 by cases arch <;> decide) with ⟨w, neg, m, -, hr⟩ | ⟨-, hr⟩
        · exact ⟨_, hr⟩
        · exact ⟨_, hr⟩
      rw [hx]
      refine ⟨_, rfl, ?_⟩
      dsimp only
      split
      · split
        · exact le_refl _
        · omega
      · exact h
    · exact ⟨old, rfl, h⟩

theorem val_of_isdigit (c : UInt8) (h : isdigit c = true) : Strtol.val c < 10 := by
  revert c
  decide +kernel

/-- An option with digits behind its name is set to zero exactly if the digits denote zero. -/
theorem option_digits (old : ℕ) {p : List UInt8} (hp : strstr line name = some p)
    (hdigit : isdigit (p.getD name.length 0) = true) (hlimit : 0 < limit) :
    ∃ v, option arch line name isdigit limit old = some v ∧ (v ≠ 0 ↔ value 10 (front 10 (p.drop name.length)) ≠ 0) := by
  have hval := val_of_isdigit _ hdigit
  obtain ⟨c, t, hs⟩ : ∃ c t, p.drop name.length = c :: t := by
    refine exists_cons_of_ne_nil fun hnil => ?_
    rw [getD_eq_default _ _ (List.drop_eq_nil_iff.mp hnil)] at hval
    exact absurd hval (by decide)
  have hc : p.getD name.length 0 = c := by
    have hget : p[name.length]? = some c := by
      rw [← head?_drop, hs]
      rfl
    rw [getD_eq_getElem?_getD, hget]
    rfl
  rw [hc] at hval
  have hfront : front 10 (c :: t) ≠ [] := by
    rw [Strtol.front_cons hval]
    exact cons_ne_nil _ _
  obtain ⟨e, hx⟩ := Strtol.strtoul_of_reads arch (by decide) (Strtol.reads_digits (by decide) hfront fun h => absurd h (by decide))
    (show Strtol.val c < 36 by omega)
  unfold option
  rw [hp]
  dsimp only
  rw [if_pos hdigit, hs, show strtoul arch (c :: t) 10 = _ from hx]
  refine ⟨_, rfl, ?_⟩
  dsimp only
  have hlen : (front 10 (c :: t)).length ≠ 0 := mt List.length_eq_zero_iff.mp hfront
  have hbits : 1 < 2 ^ arch.bits := by cases arch <;> decide
  rw [if_pos (by exact_mod_cast hlen)]
  rw [show (2 : ℤ) ^ arch.bits = (2 ^ arch.bits : ℕ) by push_cast; rfl]
  split <;> split <;> omega

/-- The bounds from above. -/
structure Conf.Bounded (searchSz : Option ℕ) (conf : Conf) : Prop where
  nns : conf.nns ≤ MAXNS
  attempts : conf.attempts ≤ 10
  ndots : conf.ndots ≤ 15
  timeout : conf.timeout ≤ 60
  search : ∀ n ∈ searchSz, conf.search.length ≤ n ∧ conf.search.getLast? = some 0

/-- Whether `attempts` is not zero after a line. -/
def nonzeroAfter (line : List UInt8) (before : Prop) : Prop :=
  match attemptsText line with
  | none => before
  | some t => value 10 (front 10 t) ≠ 0

/-- **A line** keeps the bounds from above. -/
theorem handle_spec (lookup : List UInt8 → Bool) (line : List UInt8) {conf : Conf} (h : conf.Bounded searchSz) :
    ∃ conf', handle arch lookup searchSz conf line = some conf' ∧ conf'.Bounded searchSz ∧
      (conf'.attempts ≠ 0 ↔ nonzeroAfter line (conf.attempts ≠ 0)) := by
  obtain ⟨hnns, hattempts, hndots, htimeout, hsearch⟩ := h
  unfold handle nonzeroAfter attemptsText
  by_cases hopt : IsLine (ascii "options") line
  · rw [if_pos hopt, if_pos hopt]
    obtain ⟨ndots, hnd, hnd'⟩ := option_le arch line (ascii "ndots:") isdigit hndots
    obtain ⟨timeout, hti, hti'⟩ := option_le arch line (ascii "timeout:") (fun c => isdigit c || c = 46) htimeout
    obtain ⟨attempts, hat, hat'⟩ := option_le arch line (ascii "attempts:") isdigit hattempts
    rw [hnd, hat, hti]
    refine ⟨_, rfl, ⟨hnns, hat', hnd', hti', hsearch⟩, ?_⟩
    cases hp : strstr line (ascii "attempts:") with
    | none =>
      rw [option, hp] at hat
      cases hat
      exact Iff.rfl
    | some p =>
      rw [Option.bind_some]
      by_cases hdigit : isdigit (p.getD 9 0) = true
      · obtain ⟨v, hv, hiff⟩ := option_digits arch conf.attempts hp hdigit (show 0 < 10 by decide)
        cases hat.symm.trans hv
        rw [if_pos hdigit]
        exact hiff
      · rw [option, hp] at hat
        dsimp only at hat
        rw [if_neg (show ¬ isdigit (p.getD (ascii "attempts:").length 0) = true from hdigit)] at hat
        cases hat
        rw [if_neg hdigit]
  rw [if_neg hopt, if_neg hopt]
  have hsame : conf.Bounded searchSz := ⟨hnns, hattempts, hndots, htimeout, hsearch⟩
  by_cases hns : IsLine (ascii "nameserver") line
  · rw [if_pos hns]
    split
    · exact ⟨conf, rfl, hsame, Iff.rfl⟩
    · split
      · exact ⟨_, rfl, ⟨by dsimp only; omega, hattempts, hndots, htimeout, hsearch⟩, Iff.rfl⟩
      · exact ⟨conf, rfl, hsame, Iff.rfl⟩
  rw [if_neg hns]
  cases searchSz with
  | none => exact ⟨conf, rfl, hsame, Iff.rfl⟩
  | some sz =>
    dsimp only
    split
    · exact ⟨conf, rfl, hsame, Iff.rfl⟩
    · split
      · exact ⟨conf, rfl, hsame, Iff.rfl⟩
      · refine ⟨_, rfl, ⟨hnns, hattempts, hndots, htimeout, fun n hn => ?_⟩, Iff.rfl⟩
        cases hn
        rw [length_append, length_singleton, getLast?_append]
        exact ⟨by omega, rfl⟩

/-- Whether the last number behind `attempts:` in the lines is not zero; 2 if there is none. -/
def NonzeroAttempts (ls : List (List UInt8)) : Prop :=
  ∀ t ∈ (ls.filterMap attemptsText).getLast?, value 10 (front 10 t) ≠ 0

/-- **All lines.** -/
theorem foldlM_handle (lookup : List UInt8 → Bool) (ls : List (List UInt8)) {conf : Conf} (h : conf.Bounded searchSz) :
    ∃ conf', ls.foldlM (handle arch lookup searchSz) conf = some conf' ∧ conf'.Bounded searchSz ∧
      (conf'.attempts ≠ 0 ↔ ((ls.filterMap attemptsText).getLast?.elim (conf.attempts ≠ 0) fun t =>
        value 10 (front 10 t) ≠ 0)) := by
  induction ls generalizing conf with
  | nil => exact ⟨conf, rfl, h, Iff.rfl⟩
  | cons line ls ih =>
    obtain ⟨conf1, hconf1, hbound1, hiff1⟩ := handle_spec arch lookup line h
    obtain ⟨conf2, hconf2, hbound2, hiff2⟩ := ih hbound1
    refine ⟨conf2, ?_, hbound2, hiff2.trans ?_⟩
    · rw [foldlM_cons, hconf1]
      exact hconf2
    · unfold nonzeroAfter at hiff1
      cases htext : attemptsText line with
      | none =>
        rw [htext] at hiff1
        rw [filterMap_cons_none htext]
        cases (ls.filterMap attemptsText).getLast? with
        | none => exact hiff1
        | some t => exact Iff.rfl
      | some t =>
        rw [htext] at hiff1
        rw [filterMap_cons_some htext, getLast?_cons]
        cases (ls.filterMap attemptsText).getLast? with
        | none => exact hiff1
        | some t' => exact Iff.rfl

/-- **The configuration**, for every content of the file: all bounds hold but the lower one of `attempts`, which holds,
together with the division in `__res_msend_rc` being defined, exactly if the last number behind `attempts:` is not
zero. -/
theorem getResolvConf_bounds (arch : Arch) (lookup : List UInt8 → Bool) (searchSz : Option ℕ)
    (hsz : ∀ n ∈ searchSz, 0 < n) (content : List UInt8) :
    ∃ ls conf, lines (content.length + 1) content = some ls ∧
      getResolvConf arch lookup searchSz (.file content) = some (some conf) ∧ 1 ≤ conf.nns ∧ conf.nns ≤ MAXNS ∧
      conf.attempts ≤ 10 ∧ conf.ndots ≤ 15 ∧ conf.timeout ≤ 60 ∧
      (∀ n ∈ searchSz, conf.search.length ≤ n ∧ conf.search.getLast? = some 0) ∧
      (1 ≤ conf.attempts ↔ NonzeroAttempts ls) ∧ (retryInterval conf ≠ none ↔ NonzeroAttempts ls) := by
  obtain ⟨ls, hls⟩ := exists_lines (content.length + 1) (Nat.lt_succ_self _)
  have hstart : Conf.start.Bounded searchSz :=
    ⟨Nat.zero_le _, by decide, by decide, by decide, fun n hn => ⟨hsz n hn, rfl⟩⟩
  obtain ⟨conf, hfold, ⟨hnns, hattempts, hndots, htimeout, hsearch⟩, hiff⟩ :=
    foldlM_handle arch lookup ls hstart
  have hnonzero : conf.attempts ≠ 0 ↔ NonzeroAttempts ls := by
    rw [hiff, NonzeroAttempts]
    cases (ls.filterMap attemptsText).getLast? with
    | none => exact iff_of_true (show (2 : ℕ) ≠ 0 by decide) fun t ht => by cases ht
    | some t => exact ⟨fun h t' ht' => by cases ht'; exact h, fun h => h t rfl⟩
  have hsame : (noResolvConf conf).attempts = conf.attempts ∧ (noResolvConf conf).ndots = conf.ndots ∧
      (noResolvConf conf).timeout = conf.timeout ∧ (noResolvConf conf).search = conf.search ∧
      1 ≤ (noResolvConf conf).nns ∧ (noResolvConf conf).nns ≤ MAXNS := by
    unfold noResolvConf
    split
    · exact ⟨rfl, rfl, rfl, rfl, le_refl _, show 1 ≤ MAXNS by decide⟩
    · exact ⟨rfl, rfl, rfl, rfl, by omega, hnns⟩
  obtain ⟨h1, h2, h3, h4, hpos, hle⟩ := hsame
  refine ⟨ls, noResolvConf conf, hls, ?_, hpos, hle, h1 ▸ hattempts, h2 ▸ hndots, h3 ▸ htimeout, h4 ▸ hsearch, ?_, ?_⟩
  · rw [getResolvConf, hls]
    show (ls.foldlM (handle arch lookup searchSz) Conf.start >>= _) = _
    rw [hfold]
    rfl
  · rw [h1, Nat.one_le_iff_ne_zero, hnonzero]
  · rw [retryInterval]
    split <;> simp_all

/-- The file `options attempts:3`. -/
theorem getResolvConf_bounds_three :
    lines 20 (ascii "options attempts:3\n") = some [ascii "options attempts:3\n"] ∧
      NonzeroAttempts [ascii "options attempts:3\n"] := by
  have hls : lines 20 (ascii "options attempts:3\n") = some [ascii "options attempts:3\n"] := by decide +kernel
  have hrun : getResolvConf .x86_64 (fun _ => true) none (.file (ascii "options attempts:3\n")) =
      some (some ⟨1, 3, 1, 5, [0]⟩) := by decide +kernel
  obtain ⟨ls, conf, hls', hrun', -, -, -, -, -, -, hiff, -⟩ :=
    getResolvConf_bounds .x86_64 (fun _ => true) none (fun n h => by cases h) (ascii "options attempts:3\n")
  cases hls.symm.trans hls'
  cases hrun.symm.trans hrun'
  exact ⟨hls, hiff.mp (by decide)⟩

/-- With `options attempts:0` the interval is a division by zero. -/
theorem getResolvConf_zero :
    getResolvConf .x86_64 (fun _ => true) none (.file (ascii "options attempts:0\n")) =
      some (some ⟨1, 0, 1, 5, [0]⟩) ∧ retryInterval ⟨1, 0, 1, 5, [0]⟩ = none := by
  decide +kernel

end Leblibc.ResolvConf
