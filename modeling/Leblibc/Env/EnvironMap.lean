import Leblibc.Env.EnvironInv

/-!
# The environment is a map

A successful call changes the environment, as a map from names to values, in the one way its arguments say, and a
call that fails leaves it alone. Along a sequence of calls every block that is freed is one that the library has
allocated and not freed yet, and none of the application's; and every string that `__environ` points to is the
application's, or is still allocated.

`unsetenv` frees a string before it takes it out of the array, so that for the rest of the call `__environ` points
to a string that is no longer there. The other functions take it out first.

## Main results

* `step_spec`: one call
* `environ_is_map`: sequences of calls
* `unsetenv_frees_first`: a string is freed while `__environ` points to it
-/

namespace Leblibc.Env

open List Function

/-! ## The map -/

/-- What a successful call does to the map from names to values. -/
def Call.effect (m : List UInt8 → Option (List UInt8)) : Call → List UInt8 → Option (List UInt8)
  | .setenv none _ _ => m
  | .setenv (some var) value overwrite =>
    if overwrite = false ∧ (m var).isSome then m else Function.update m var (some value)
  | .putenv _ str =>
    match nameOf str with
    | some n => Function.update m n (some (valueOf str))
    | none => Function.update m str none
  | .unsetenv name => Function.update m name none
  | .clearenv => fun _ => none
  | .getenv _ => m

/-- What a sequence of calls does to the map, of which some have been successful. -/
def replay (m : List UInt8 → Option (List UInt8)) : List (Call × Bool) → List UInt8 → Option (List UInt8)
  | [] => m
  | (c, ok) :: cs => replay (if ok then c.effect m else m) cs

/-- The calls that remove a name by `unsetenv`. -/
def Call.Unsets : Call → Prop
  | .unsetenv _ => True
  | .putenv _ str => equals ∉ str
  | _ => False

/-! ## What the library may rely on -/

/-- The library when the program starts: nothing is allocated, what `__environ` points to is not the library's, and
no name occurs twice. -/
structure Initial (st : State) : Prop where
  oldenv : st.oldenv = 0
  alloced : st.alloced = []
  owned : st.owned = []
  frees : st.frees = []
  foreign : ∀ p ∈ st.strs, p ∈ st.foreign
  distinct : Distinct st.texts

/-- The allocator answers with blocks that are not in use. The application passes to `putenv` a string of its own,
and leaves the strings alone that are in the environment. -/
def Admissible (st : State) (c : Call) (ans : Answers) : Prop :=
  match c with
  | .setenv _ _ _ => (ans.mem ≠ 0 → ans.mem ∉ st.owned ∧ ans.mem ∉ st.strs) ∧
      (ans.room ≠ 0 → Room st ans.mem ans.room)
  | .putenv s str => s ≠ 0 ∧ s ∉ st.owned ∧ (s ∈ st.strs → st.content s = str) ∧
      (ans.room ≠ 0 → Room st s ans.room)
  | _ => True

/-- Every call of a sequence is admissible when it is made. -/
def AdmissibleRun : State → List (Call × Answers) → Prop
  | _, [] => True
  | st, (c, ans) :: cs => Admissible st c ans ∧ AdmissibleRun (step st c ans).2 cs

variable {st : State} {ans : Answers}

theorem Initial.inv (h : Initial st) : Inv st where
  distinct := h.distinct
  nonzero := by simp [h.owned]
  nodup := by simp [h.alloced]
  listed := by simp [h.alloced]
  known p hp := .inr (h.foreign p hp)
  apart := by simp [h.owned]
  named := by simp [h.owned]
  oldenv h0 := absurd h.oldenv h0
  frees := by simp [h.frees]

/-! ## One call -/

/-- The value of a name that can be one changes with what is looked up. -/
theorem value_update {st' : State} {n : List UInt8} (hn : IsName n) {x : Option (List UInt8)}
    (h : lookup st'.texts = Function.update (lookup st.texts) n x) :
    value st' = Function.update (value st) n x := by
  funext name
  rw [value_eq, h]
  by_cases hname : name = n
  · subst hname
    rw [if_pos hn, update_self, update_self]
  · rw [update_of_ne hname, update_of_ne hname, value_eq]

theorem value_congr {st' : State} (h : lookup st'.texts = lookup st.texts) : value st' = value st := by
  funext name
  rw [value_eq, value_eq, h]

/-- What a call has to do: keep the invariant, change the map by its effect or not at all, and take a string out
of the environment before it frees it. -/
structure Works (st : State) (c : Call) (r : Bool × State) : Prop where
  inv : Inv r.2
  success : r.1 = true → value r.2 = c.effect (value st)
  failure : r.1 = false → value r.2 = value st
  unlinked : ¬c.Unsets → Unlinked st r.2

theorem Unlinked.refl (st : State) : Unlinked st st := fun _ hf => .inl hf

theorem Works.fail (h : Inv st) (c : Call) : Works st c (false, st) :=
  ⟨h, nofun, fun _ => rfl, fun _ => Unlinked.refl st⟩

theorem Inv.mallocString (h : Inv st) {p : ℕ} (h0 : p ≠ 0) (hp : p ∉ st.owned) (hps : p ∉ st.strs) (str : List UInt8) :
    Inv (st.mallocString p str) ∧ (st.mallocString p str).texts = st.texts := by
  have hcontent : ∀ q ∈ st.strs, Function.update st.content p str q = st.content q := by
    intro q hq
    refine update_of_ne ?_ _ _
    rintro rfl
    exact hps hq
  have htexts : (st.mallocString p str).texts = st.texts := map_congr_left hcontent
  refine ⟨?_, htexts⟩
  constructor
  case distinct => exact htexts.symm ▸ h.distinct
  case nonzero =>
    intro hc
    rcases List.mem_cons.mp hc with hc | hc
    · exact h0 hc.symm
    · exact h.nonzero hc
  case nodup => exact h.nodup
  case listed =>
    intro q hq hq0
    exact ⟨mem_cons_of_mem _ (h.listed q hq hq0).1, (h.listed q hq hq0).2⟩
  case known =>
    intro q hq
    refine (h.known q hq).imp (mem_cons_of_mem _) fun hf => List.mem_filter.mpr ⟨hf, ?_⟩
    have hne : q ≠ p := by
      rintro rfl
      exact hps hq
    simpa using hne
  case apart =>
    intro q hq hc
    obtain ⟨hf, hne⟩ := List.mem_filter.mp hc
    rcases List.mem_cons.mp hq with hq | hq
    · simp [hq] at hne
    · exact h.apart q hq hf
  case named =>
    intro q hq hqs
    show nameOf (Function.update st.content p str q) ≠ none
    rw [hcontent q hqs]
    rcases List.mem_cons.mp hq with rfl | hq
    · exact absurd hqs hps
    · exact h.named q hq hqs
  case oldenv =>
    intro hq
    exact ⟨mem_cons_of_mem _ (h.oldenv hq).1, (h.oldenv hq).2⟩
  case frees => exact h.frees

/-- **`setenv`**. -/
theorem setenv_works (h : Inv st) (var : Option (List UInt8)) (v : List UInt8) (overwrite : Bool)
    (ha : Admissible st (.setenv var v overwrite) ans) :
    Works st (.setenv var v overwrite) (setenv ans var v overwrite st) := by
  obtain ⟨hmem, hroom⟩ := ha
  rcases var with _ | var
  · exact Works.fail h _
  by_cases hn : IsName var
  swap
  · simp only [setenv, if_pos ((notName_iff var).mpr hn)]
    exact Works.fail h _
  have hsome : (getenv var st).isSome = (value st var).isSome := by simp [value]
  simp only [setenv, if_neg (fun hc => (notName_iff var).mp hc hn), hsome]
  by_cases hkeep : overwrite = false ∧ (value st var).isSome
  · -- the variable exists and is left as it is
    rw [if_pos (by simp [hkeep])]
    refine ⟨h, fun _ => ?_, fun _ => rfl, fun _ => Unlinked.refl st⟩
    rw [Call.effect, if_pos hkeep]
  rw [if_neg (by simpa using hkeep)]
  by_cases hm0 : ans.mem = 0
  · rw [if_pos hm0]
    exact Works.fail h _
  rw [if_neg hm0, nameLen_of_notMem hn.2, take_length]
  obtain ⟨hfresh, hnew⟩ := hmem hm0
  obtain ⟨hinv, htexts⟩ := h.mallocString hm0 hfresh hnew (var ++ equals :: v)
  have hat : (st.mallocString ans.mem (var ++ equals :: v)).content ans.mem = var ++ equals :: v :=
    update_self _ _ _
  have hold : ans.mem ≠ st.oldenv := by
    intro hc
    exact hfresh (hc ▸ (h.oldenv (hc ▸ hm0)).1)
  have hroom' : ans.room ≠ 0 → Room (st.mallocString ans.mem (var ++ equals :: v)) ans.mem ans.room := by
    intro h0
    refine ⟨(hroom h0).ne, (hroom h0).notMem, fun hc => ?_⟩
    exact (hroom h0).fresh ((List.mem_cons.mp hc).resolve_left (hroom h0).ne)
  obtain ⟨hinv', hlookup, hunl⟩ := putenvAt_spec hinv hold (.inl ⟨rfl, mem_cons_self, hnew⟩) hroom'
    (by rw [hat, nameOf_append hn.2])
  rw [htexts, hat, valueOf_append hn.2] at hlookup
  refine ⟨hinv', fun hok => ?_, fun hok => ?_, fun _ => hunl⟩
  · rw [hok] at hlookup
    rw [Call.effect, if_neg hkeep]
    exact value_update hn hlookup
  · rw [hok] at hlookup
    exact value_congr hlookup

/-- The state when the application has handed over a string. -/
theorem Inv.supply (h : Inv st) {s : ℕ} {str : List UInt8} (hs : s ∉ st.owned)
    (hsame : s ∈ st.strs → st.content s = str) :
    Inv (st.supply s str) ∧ (st.supply s str).texts = st.texts := by
  have hcontent : ∀ q ∈ st.strs, Function.update st.content s str q = st.content q := by
    intro q hq
    by_cases hqs : q = s
    · subst hqs
      rw [update_self, hsame hq]
    · rw [update_of_ne hqs]
  have htexts : (st.supply s str).texts = st.texts := map_congr_left hcontent
  refine ⟨?_, htexts⟩
  constructor
  case distinct => exact htexts.symm ▸ h.distinct
  case nonzero => exact h.nonzero
  case nodup => exact h.nodup
  case listed => exact h.listed
  case known => exact fun q hq => (h.known q hq).imp id (mem_cons_of_mem _)
  case apart =>
    intro q hq hc
    rcases List.mem_cons.mp hc with rfl | hc
    · exact hs hq
    · exact h.apart q hq hc
  case named =>
    intro q hq hqs
    show nameOf (Function.update st.content s str q) ≠ none
    rw [hcontent q hqs]
    exact h.named q hq hqs
  case oldenv => exact h.oldenv
  case frees => exact h.frees

/-- **`unsetenv`**, for a call whose effect it is to remove the name. -/
theorem unsetenv_works (h : Inv st) {name : List UInt8} {c : Call}
    (hc : IsName name → c.effect (value st) = Function.update (value st) name none)
    (hu : IsName name → c.Unsets) : Works st c (unsetenv name st) := by
  obtain ⟨hinv, hok, hlookup⟩ := unsetenv_spec name h
  by_cases hn : IsName name
  · rw [if_pos hn] at hlookup
    refine ⟨hinv, fun _ => ?_, fun hf => ?_, fun hnu => absurd (hu hn) hnu⟩
    · rw [hc hn]
      exact value_update hn hlookup
    · simp [hok, hn] at hf
  · rw [unsetenv, if_pos ((notName_iff name).mpr hn)]
    exact Works.fail h c

/-- **`putenv`**. -/
theorem putenv_works (h : Inv st) (s : ℕ) (str : List UInt8) (ha : Admissible st (.putenv s str) ans) :
    Works st (.putenv s str) (putenv ans s (st.supply s str)) := by
  obtain ⟨hs0, hs, hsame, hroom⟩ := ha
  obtain ⟨hinv, htexts⟩ := h.supply hs hsame
  have hvalue : value (st.supply s str) = value st := value_congr (by rw [htexts])
  have hat : (st.supply s str).content s = str := update_self _ _ _
  -- the frees recorded before are the same ones
  suffices hw : Works (st.supply s str) (.putenv s str) (putenv ans s (st.supply s str)) by
    exact ⟨hw.inv, hvalue ▸ hw.success, hvalue ▸ hw.failure, hw.unlinked⟩
  rw [putenv, hat]
  by_cases hmem : equals ∈ str
  · obtain ⟨n, v, rfl, hn⟩ := eq_append_cons_of_mem hmem
    rw [nameLen_append hn]
    by_cases hn0 : n = []
    · -- an empty name
      rw [if_pos (.inl (by simp [hn0])), unsetenv, if_pos (.inl (by rw [hn0]; rfl))]
      exact Works.fail hinv _
    · have hbyte : byteAt (n ++ equals :: v) n.length ≠ 0 := by
        simp [byteAt, equals]
      rw [if_neg (by simp [hbyte, hn0])]
      have hold : s ≠ st.oldenv := by
        intro hc
        exact hs (hc ▸ (h.oldenv (hc ▸ hs0)).1)
      obtain ⟨hinv', hlookup, hunl⟩ := putenvAt_spec hinv hold
        (.inr ⟨rfl, mem_cons_self⟩) (fun h0 => ⟨(hroom h0).ne, (hroom h0).notMem, (hroom h0).fresh⟩)
        (by rw [hat, nameOf_append hn])
      rw [hat, valueOf_append hn] at hlookup
      refine ⟨hinv', fun hok => ?_, fun hok => ?_, fun _ => hunl⟩
      · rw [hok] at hlookup
        rw [Call.effect, nameOf_append hn, valueOf_append hn]
        exact value_update ⟨hn0, hn⟩ hlookup
      · rw [hok] at hlookup
        exact value_congr hlookup
  · -- without an `'='` the string is a name to remove
    have hbyte : byteAt str (nameLen str) = 0 := by
      simp [byteAt, nameLen_of_notMem hmem]
    rw [if_pos (.inr hbyte)]
    refine unsetenv_works hinv (fun _ => ?_) fun _ => hmem
    rw [Call.effect, nameOf, if_neg hmem]

/-- **`clearenv`**. -/
theorem clearenv_works (h : Inv st) : Works st .clearenv (clearenv st) := by
  obtain ⟨hinv, hlookup⟩ := clearenv_spec h
  refine ⟨hinv, fun _ => ?_, nofun, fun _ => ?_⟩
  · funext name
    rw [value_eq, hlookup]
    split <;> rfl
  · -- `__environ` is null before anything is freed
    have hloop : ∀ (l : List ℕ) (st' : State), st'.strs = [] →
        Unlinked st' (l.foldl (fun st p => envRmAdd false p 0 st) st') := by
      intro l
      induction l with
      | nil => exact fun st' _ => Unlinked.refl st'
      | cons p l ih =>
        intro st' hst f hf
        rcases ih _ (by rw [envRmAdd_strs, hst]) f hf with hf | hf
        · rcases envRmAdd_frees _ _ _ _ hf with hf | ⟨-, -, rfl⟩
          · exact .inl hf
          · exact .inr (by simp [hst])
        · exact .inr hf
    exact hloop st.strs _ rfl

/-- **One call** keeps the invariant, and does to the map what it says. -/
theorem step_spec (h : Inv st) {c : Call} (ha : Admissible st c ans) :
    Works st c (step st c ans) := by
  cases c with
  | setenv var v overwrite => exact setenv_works h var v overwrite ha
  | putenv s str => exact putenv_works h s str ha
  | unsetenv name => exact unsetenv_works h (fun _ => rfl) fun _ => trivial
  | clearenv => exact clearenv_works h
  | getenv name => exact ⟨h, fun _ => rfl, nofun, fun _ => Unlinked.refl st⟩

/-! ## Sequences of calls -/

/-- The invariant holds after every sequence of calls, and the map is what the successful ones have made it. -/
theorem run_spec (h : Inv st) {cs : List (Call × Answers)} (hcs : AdmissibleRun st cs) :
    Inv (run st cs).2 ∧
      value (run st cs).2 = replay (value st) ((cs.map Prod.fst).zip (run st cs).1) := by
  induction cs generalizing st with
  | nil => exact ⟨h, rfl⟩
  | cons x cs ih =>
    obtain ⟨c, ans⟩ := x
    have hstep := step_spec h hcs.1
    obtain ⟨hinv, hvalue⟩ := ih hstep.inv hcs.2
    refine ⟨hinv, ?_⟩
    simp only [run, map_cons, zip_cons_cons, replay]
    rw [hvalue]
    cases hok : (step st c ans).1 with
    | true => rw [hstep.success hok, if_pos rfl]
    | false => rw [hstep.failure hok, if_neg (by simp)]

/-- **The environment is a map**, and the library frees what is its own. After every sequence of calls, `getenv`
gives what the successful calls have made of the initial values. Every block that was freed was at that moment one
the library had allocated and not freed, and none of the application's. Whatever `__environ` points to is still
allocated or is the application's. The next call, if it fails, changes no value; and unless it is one that removes
a name by `unsetenv`, it frees no string while `__environ` points to it. -/
theorem environ_is_map {st : State} (h : Initial st) {cs : List (Call × Answers)} (hcs : AdmissibleRun st cs) :
    value (run st cs).2 = replay (value st) ((cs.map Prod.fst).zip (run st cs).1) ∧
      (∀ f ∈ (run st cs).2.frees, f.ptr ∈ f.owned ∧ f.ptr ∉ f.foreign) ∧
      (∀ p ∈ (run st cs).2.strs, p ∈ (run st cs).2.owned ∨ p ∈ (run st cs).2.foreign) ∧
      ∀ c ans, Admissible (run st cs).2 c ans →
        ((step (run st cs).2 c ans).1 = false →
          value (step (run st cs).2 c ans).2 = value (run st cs).2) ∧
        (¬c.Unsets → ∀ f ∈ (step (run st cs).2 c ans).2.frees,
          f ∈ (run st cs).2.frees ∨ f.ptr ∉ f.environ) := by
  obtain ⟨hinv, hvalue⟩ := run_spec h.inv hcs
  refine ⟨hvalue, hinv.frees, hinv.known, fun c ans ha => ?_⟩
  have hstep := step_spec hinv ha
  exact ⟨hstep.failure, hstep.unlinked⟩

/-- A program that starts with an empty environment at the address `64`. -/
def emptyEnvironment : State where
  content := fun _ => []
  environ := some ⟨64, []⟩
  oldenv := 0
  alloced := []
  owned := []
  foreign := [64]
  frees := []

theorem initial_emptyEnvironment : Initial emptyEnvironment :=
  ⟨rfl, rfl, rfl, rfl, by simp [emptyEnvironment, State.strs], Pairwise.nil⟩

/-- The calls `setenv("A", "1", 1)` and `unsetenv("A")`. -/
def setAndUnset : List (Call × Answers) :=
  [(.setenv (some [65]) [49] true, ⟨8, 16, true⟩), (.unsetenv [65], ⟨0, 0, false⟩)]

theorem admissible_setAndUnset : AdmissibleRun emptyEnvironment setAndUnset := by
  refine ⟨⟨fun _ => ?_, fun _ => ⟨?_, ?_, ?_⟩⟩, trivial, trivial⟩ <;>
    simp [emptyEnvironment, State.strs]

theorem environ_is_map_set_unset :
    value (run emptyEnvironment setAndUnset).2 [65] =
        replay (value emptyEnvironment) ((setAndUnset.map Prod.fst).zip [true, true]) [65] ∧
      ∀ f ∈ (run emptyEnvironment setAndUnset).2.frees, f.ptr ∈ f.owned ∧ f.ptr ∉ f.foreign := by
  have h := environ_is_map initial_emptyEnvironment admissible_setAndUnset
  exact ⟨congrFun h.1 [65], h.2.1⟩

/-- **`unsetenv` frees first**: the string of the variable is freed while `__environ` points to it. -/
theorem unsetenv_frees_first :
    Initial emptyEnvironment ∧ AdmissibleRun emptyEnvironment setAndUnset ∧
      ∃ f ∈ (run emptyEnvironment setAndUnset).2.frees, f.ptr ∈ f.environ :=
  ⟨initial_emptyEnvironment, admissible_setAndUnset, ⟨8, [8], [16, 8], [64]⟩, by decide, by decide⟩

end Leblibc.Env
