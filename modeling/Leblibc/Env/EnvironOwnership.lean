import Leblibc.Env.Environ
import Mathlib.Data.List.GetD
import Mathlib.Data.List.Nodup
import Mathlib.Data.List.TakeWhile
import Mathlib.Tactic.Common

/-!
# The environment: names and ownership

The strings of the environment are found by their names, the bytes before the first `'='`. A string without an
`'='` has no name and is never found.

`__env_rm_add` keeps a table of strings that `setenv` has allocated. What a call of it, or a number of calls,
does to the table and to the blocks of the library is the relation `Retires`: of the strings retired none is
left in the table, the blocks that are freed are among them, and the library owned each of them.

## Main results

* `value_eq`: what `getenv` finds is what `lookup` gives
* `envRmAdd_retires`, `Retires.trans`: one call, and several
* `unsetLoop_retires`, `clear_retires`: the loops of `unsetenv` and `clearenv`
-/

namespace Leblibc.Env

open List

/-! ## Names -/

/-- The name of a string of the environment: what stands before the first `'='`. -/
def nameOf (s : List UInt8) : Option (List UInt8) :=
  if equals ∈ s then some (s.takeWhile (· ≠ equals)) else none

/-- What stands after the first `'='`. -/
def valueOf (s : List UInt8) : List UInt8 := s.drop (nameLen s + 1)

/-- The names that a variable can have. -/
def IsName (name : List UInt8) : Prop := name ≠ [] ∧ equals ∉ name

instance (name : List UInt8) : Decidable (IsName name) := inferInstanceAs (Decidable (_ ∧ _))

variable {name e : List UInt8} {st : State} {p : ℕ}

theorem takeWhile_of_notMem (h : equals ∉ name) (v : List UInt8) :
    (name ++ equals :: v).takeWhile (· ≠ equals) = name := by
  rw [takeWhile_append_of_pos (by simpa using fun x hx (hc : x = equals) => h (hc ▸ hx))]
  simp

theorem nameLen_of_notMem (h : equals ∉ name) : nameLen name = name.length := by
  rw [nameLen, List.takeWhile_eq_self_iff.mpr (by simpa using fun x hx (hc : x = equals) => h (hc ▸ hx))]

theorem nameLen_append (h : equals ∉ name) (v : List UInt8) :
    nameLen (name ++ equals :: v) = name.length := by
  rw [nameLen, takeWhile_of_notMem h]

theorem nameOf_append (h : equals ∉ name) (v : List UInt8) :
    nameOf (name ++ equals :: v) = some name := by
  rw [nameOf, if_pos (by simp), takeWhile_of_notMem h]

theorem valueOf_append (h : equals ∉ name) (v : List UInt8) :
    valueOf (name ++ equals :: v) = v := by
  rw [valueOf, nameLen_append h]
  simp

/-- A string with a name consists of the name, an `'='` and the value. -/
theorem eq_of_nameOf {s : List UInt8} (h : nameOf s = some name) :
    equals ∉ name ∧ s = name ++ equals :: valueOf s := by
  unfold nameOf at h
  split at h
  · rename_i hmem
    obtain ⟨u, v, rfl, hu⟩ := eq_append_cons_of_mem hmem
    rw [takeWhile_of_notMem hu, Option.some.injEq] at h
    subst h
    exact ⟨hu, by rw [valueOf_append hu]⟩
  · cases h

/-- A string has a certain name if it begins with it and an `'='`. -/
theorem nameOf_eq_some_iff {s : List UInt8} :
    nameOf s = some name ↔ equals ∉ name ∧ name ++ [equals] <+: s := by
  constructor
  · intro h
    obtain ⟨hn, hs⟩ := eq_of_nameOf h
    exact ⟨hn, valueOf s, by rw [append_assoc, singleton_append, ← hs]⟩
  · rintro ⟨hn, v, rfl⟩
    rw [append_assoc, singleton_append, nameOf_append hn]

/-- The bytes of a string and its NUL begin with bytes that end in no NUL only if the string does. -/
theorem append_equals_isPrefix :
    name ++ [equals] <+: e ++ [0] ↔ name ++ [equals] <+: e := by
  constructor
  · intro h
    rcases List.prefix_concat_iff.mp h with hc | hc
    · have hlast := congrArg getLast? hc
      simp [equals] at hlast
    · exact hc
  · intro h
    exact h.trans (prefix_append _ _)

/-- `__putenv` finds the strings with the name of its own string. -/
theorem sameFor_iff {v : List UInt8} (hn : equals ∉ name) :
    sameFor (name.length + 1) (name ++ equals :: v) e = true ↔ nameOf e = some name := by
  have htake : (name ++ equals :: v ++ [0]).take (name.length + 1) = name ++ [equals] := by
    have hlen : name.length + 1 = (name ++ [equals]).length := by simp
    rw [hlen, show name ++ equals :: v ++ [0] = (name ++ [equals]) ++ (v ++ [0]) by simp,
      take_left]
  have hlen : (name ++ [equals]).length = name.length + 1 := by simp
  rw [sameFor, beq_iff_eq, htake, nameOf_eq_some_iff, ← append_equals_isPrefix, prefix_iff_eq_take,
    hlen]
  exact ⟨fun h => ⟨hn, h⟩, fun h => h.2⟩

/-- `getenv` and `unsetenv` find the strings with the name they are given. -/
theorem hits_iff (hn : equals ∉ name) :
    hits name e = true ↔ nameOf e = some name := by
  have htake : (name ++ [0]).take name.length = name := take_left
  rw [hits, Bool.and_eq_true, sameFor, beq_iff_eq, beq_iff_eq, nameLen_of_notMem hn, htake,
    nameOf_eq_some_iff, ← append_equals_isPrefix, byteAt]
  constructor
  · rintro ⟨h, hb⟩
    refine ⟨hn, ?_⟩
    -- the bytes before the index are the name, and the byte at the index is there
    have hlt : name.length < (e ++ [0]).length := by
      by_contra hc
      rw [getD_eq_default _ _ (by omega)] at hb
      exact absurd hb (by decide)
    rw [getD_eq_getElem _ _ hlt] at hb
    rw [prefix_iff_eq_take, length_append, length_singleton,
      take_succ_eq_append_getElem hlt, ← h, hb]
  · rintro ⟨-, v, hv⟩
    rw [← hv]
    simp

/-! ## Looking up a name -/

/-- The value of the first string with a name. -/
def lookup (l : List (List UInt8)) (name : List UInt8) : Option (List UInt8) :=
  (l.find? fun c => nameOf c = some name).map valueOf

/-- The strings of the environment, as bytes. -/
def State.texts (st : State) : List (List UInt8) := st.strs.map st.content

/-- The test for a name is whether it has a byte and no `'='`. -/
theorem isName_iff (name : List UInt8) :
    nameLen name ≠ 0 ∧ byteAt name (nameLen name) = 0 ↔ IsName name := by
  constructor
  · rintro ⟨hl, hb⟩
    refine ⟨fun hc => hl (by rw [hc]; rfl), fun hmem => ?_⟩
    obtain ⟨u, v, rfl, hu⟩ := eq_append_cons_of_mem hmem
    rw [nameLen_append hu, byteAt] at hb
    simp [equals] at hb
  · rintro ⟨hne, hn⟩
    rw [nameLen_of_notMem hn, byteAt]
    exact ⟨by simpa using hne, by simp⟩

/-- The test of `setenv` and `unsetenv` for their argument. -/
theorem notName_iff (name : List UInt8) :
    nameLen name = 0 ∨ byteAt name (nameLen name) ≠ 0 ↔ ¬IsName name := by
  rw [← isName_iff, not_and_or, not_not]

/-- **What `getenv` finds**: the value of the first string with the name. -/
theorem value_eq (st : State) (name : List UInt8) :
    value st name = if IsName name then lookup st.texts name else none := by
  unfold value getenv
  by_cases hn : IsName name
  · rw [if_pos hn, if_pos ((isName_iff name).mpr hn), lookup, State.texts, find?_map,
      Option.map_map, Option.map_map]
    have htest : (fun e => hits name (st.content e)) =
        ((fun c => decide (nameOf c = some name)) ∘ st.content) := by
      funext e
      exact Bool.eq_iff_iff.mpr (by simpa using hits_iff hn.2)
    rw [htest]
    refine Option.map_congr fun e he => ?_
    have hname : nameOf (st.content e) = some name := by simpa using find?_some he
    -- the value begins after the name, whose length is that of the name asked for
    obtain ⟨-, hs⟩ := eq_of_nameOf hname
    simp only [Function.comp_apply, valueOf]
    rw [hs, nameLen_append hn.2, nameLen_of_notMem hn.2]
  · rw [if_neg hn, if_neg (mt (isName_iff name).mp hn)]
    rfl

/-! ## The state -/

namespace State

/-- Only where `__environ` is null can the entries not be replaced, and there are none then. -/
theorem strs_setStrs (h : st.strs ≠ []) (l : List ℕ) : (st.setStrs l).strs = l := by
  rcases he : st.environ with _ | v
  · exact absurd (by simp [strs, he]) h
  · simp [setStrs, strs, he]

/-- `free` touches the blocks of the library and the record, and nothing else. -/
@[simp] theorem free_content (st : State) (p : ℕ) : (st.free p).content = st.content := by
  unfold free
  split <;> rfl

@[simp] theorem free_environ (st : State) (p : ℕ) : (st.free p).environ = st.environ := by
  unfold free
  split <;> rfl

@[simp] theorem free_oldenv (st : State) (p : ℕ) : (st.free p).oldenv = st.oldenv := by
  unfold free
  split <;> rfl

@[simp] theorem free_alloced (st : State) (p : ℕ) : (st.free p).alloced = st.alloced := by
  unfold free
  split <;> rfl

@[simp] theorem free_foreign (st : State) (p : ℕ) : (st.free p).foreign = st.foreign := by
  unfold free
  split <;> rfl

theorem mem_owned_free {q : ℕ} :
    q ∈ (st.free p).owned ↔ q ∈ st.owned ∧ (p ≠ 0 → q ≠ p) := by
  unfold free
  split
  · rename_i h
    simp [h]
  · rename_i h
    simp [h]

theorem mem_frees_free {f : Free} :
    f ∈ (st.free p).frees ↔ f ∈ st.frees ∨ (p ≠ 0 ∧ f = ⟨p, st.strs, st.owned, st.foreign⟩) := by
  unfold free
  split
  · rename_i h
    simp [h]
  · rename_i h
    simp [h]

end State

/-- A call of `free` was in order: the library owned the block, and it was none of the application's. -/
def Free.InOrder (f : Free) : Prop := f.ptr ∈ f.owned ∧ f.ptr ∉ f.foreign

/-- What retiring a string relies on: the table lists strings once, and these are blocks of the library. -/
structure Table (st : State) : Prop where
  nodup : (st.alloced.filter (· ≠ 0)).Nodup
  owned : ∀ p ∈ st.alloced, p ≠ 0 → p ∈ st.owned
  apart : ∀ p ∈ st.owned, p ∉ st.foreign

/-- The state `st'` arises from `st` by retiring the strings `R` and listing `new`. -/
structure Retires (R : List ℕ) (new : ℕ) (st st' : State) : Prop where
  content : st'.content = st.content
  oldenv : st'.oldenv = st.oldenv
  foreign : st'.foreign = st.foreign
  alloced : ∀ p ∈ st'.alloced, p ≠ 0 → p = new ∨ (p ∈ st.alloced ∧ p ∉ R)
  nodup : (st'.alloced.filter (· ≠ 0)).Nodup
  owned_sub : ∀ p ∈ st'.owned, p ∈ st.owned
  owned_keep : ∀ p ∈ st.owned, p ∉ R → p ∈ st'.owned
  frees : ∀ f ∈ st'.frees, f ∈ st.frees ∨ (f.InOrder ∧ f.ptr ∈ R)

theorem Retires.table {R : List ℕ} {st' : State} (h : Retires R 0 st st') (ht : Table st) :
    Table st' where
  nodup := h.nodup
  owned p hp h0 := by
    rcases h.alloced p hp h0 with rfl | ⟨hp, hR⟩
    · exact absurd rfl h0
    · exact h.owned_keep p (ht.owned p hp h0) hR
  apart p hp := by
    rw [h.foreign]
    exact ht.apart p (h.owned_sub p hp)

theorem Retires.refl (ht : Table st) (v : Option Vec) : Retires [] 0 st { st with environ := v } where
  content := rfl
  oldenv := rfl
  foreign := rfl
  alloced _ hp _ := .inr ⟨hp, not_mem_nil⟩
  nodup := ht.nodup
  owned_sub _ hp := hp
  owned_keep _ hp _ := hp
  frees _ hf := .inl hf

/-- The strings that stand in the environment do not matter. -/
theorem Retires.of_environ {R : List ℕ} {new : ℕ} {st' : State} {v : Option Vec}
    (h : Retires R new { st with environ := v } st') : Retires R new st st' :=
  ⟨h.content, h.oldenv, h.foreign, h.alloced, h.nodup, h.owned_sub, h.owned_keep, h.frees⟩

/-- A block of the library is freed. -/
theorem Retires.free {new : ℕ} {t : List ℕ} (hfree : p ≠ 0 → p ∈ st.owned ∧ p ∉ st.foreign)
    (hmem : ∀ q ∈ t, q ≠ 0 → q = new ∨ (q ∈ st.alloced ∧ q ∉ [p])) (hnodup : (t.filter (· ≠ 0)).Nodup) :
    Retires [p] new st ({ st with alloced := t }.free p) where
  content := by simp
  oldenv := by simp
  foreign := by simp
  alloced := by simpa using hmem
  nodup := by simpa using hnodup
  owned_sub q hq := (State.mem_owned_free.mp hq).1
  owned_keep q hq hR := State.mem_owned_free.mpr ⟨hq, fun _ => by simpa using hR⟩
  frees f hf := by
    rcases State.mem_frees_free.mp hf with hf | ⟨h0, rfl⟩
    · exact .inl hf
    · exact .inr ⟨hfree h0, by simp⟩

/-- Retiring some strings and then others is to retire them all. -/
theorem Retires.trans {R R' : List ℕ} {st' st'' : State} (h : Retires R 0 st st')
    (h' : Retires R' 0 st' st'') : Retires (R ++ R') 0 st st'' where
  content := h'.content.trans h.content
  oldenv := h'.oldenv.trans h.oldenv
  foreign := h'.foreign.trans h.foreign
  alloced p hp h0 := by
    rcases h'.alloced p hp h0 with rfl | ⟨hp', hR'⟩
    · exact absurd rfl h0
    · rcases h.alloced p hp' h0 with rfl | ⟨hp'', hR⟩
      · exact absurd rfl h0
      · exact .inr ⟨hp'', by simp [hR, hR']⟩
  nodup := h'.nodup
  owned_sub p hp := h.owned_sub p (h'.owned_sub p hp)
  owned_keep p hp hR := by
    rw [mem_append, not_or] at hR
    exact h'.owned_keep p (h.owned_keep p hp hR.1) hR.2
  frees f hf := by
    rcases h'.frees f hf with hf | ⟨ho, hR⟩
    · rcases h.frees f hf with hf | ⟨ho, hR⟩
      · exact .inl hf
      · exact .inr ⟨ho, mem_append_left _ hR⟩
    · exact .inr ⟨ho, mem_append_right _ hR⟩

/-! ## `__env_rm_add` -/

/-- The table with what `__env_rm_add` still has to append to it after its loop. -/
def scanned (r : List ℕ × ℕ × Bool) : List ℕ := if r.2.2 then r.1 else r.1 ++ [r.2.1]

theorem scanned_cons (a : ℕ) (r : List ℕ × ℕ × Bool) : scanned (a :: r.1, r.2) = a :: scanned r := by
  simp only [scanned]
  split <;> rfl

theorem rmAddScan_found (old new : ℕ) (t : List ℕ) :
    (rmAddScan old new t).2.2 = true ↔ old ∈ t := by
  induction t generalizing new with
  | nil => simp [rmAddScan]
  | cons a t ih =>
    unfold rmAddScan
    split
    · rename_i h
      simp [h]
    · rename_i h
      split
      · simpa [Ne.symm h] using ih 0
      · simpa [Ne.symm h] using ih new

/-- Up to the order and to empty slots, `new` takes the place of `old` in the table. -/
theorem scanned_perm (old new : ℕ) (t : List ℕ) :
    ((scanned (rmAddScan old new t)).filter (· ≠ 0)).Perm ((new :: t.erase old).filter (· ≠ 0)) := by
  induction t generalizing new with
  | nil => exact List.Perm.refl _
  | cons a t ih =>
    unfold rmAddScan
    split
    · rename_i h
      subst h
      simp [scanned]
    · rename_i h
      rw [erase_cons_tail (by simpa using h)]
      split
      · rename_i h0
        -- an empty slot takes `new`, and the rest of the loop only looks for `old`
        obtain ⟨rfl, hnew⟩ := h0
        rw [scanned_cons, filter_cons_of_pos (by simpa using hnew),
          filter_cons_of_pos (by simpa using hnew)]
        exact (ih 0).cons new
      · rw [scanned_cons]
        refine Perm.trans ?_ ((Perm.swap new a (t.erase old)).filter _)
        rw [filter_cons, filter_cons]
        split
        · exact (ih new).cons a
        · exact ih new

/-- What is listed after the loop, and after `new` has been appended where that is still to be done. -/
theorem mem_scanned {old new : ℕ} {t : List ℕ} (ht : (t.filter (· ≠ 0)).Nodup) (h0 : p ≠ 0)
    (hp : p ∈ scanned (rmAddScan old new t)) : p = new ∨ (p ∈ t ∧ p ≠ old) := by
  have hmem : p ∈ (new :: t.erase old).filter (· ≠ 0) :=
    (scanned_perm old new t).mem_iff.mp (List.mem_filter.mpr ⟨hp, by simpa using h0⟩)
  rcases List.mem_cons.mp (mem_of_mem_filter hmem) with rfl | he
  · exact .inl rfl
  · refine .inr ⟨mem_of_mem_erase he, ?_⟩
    rintro rfl
    -- a second `p` in the table would be listed twice
    have hcount := List.nodup_iff_count_le_one.mp ht p
    rw [count_filter (by simpa using h0)] at hcount
    have hpos := List.count_pos_iff.mpr he
    rw [count_erase_self] at hpos
    omega

theorem scanned_nodup {old new : ℕ} {t : List ℕ} (ht : (t.filter (· ≠ 0)).Nodup)
    (hnew : new ≠ 0 → new ∉ t) : ((scanned (rmAddScan old new t)).filter (· ≠ 0)).Nodup := by
  rw [(scanned_perm old new t).nodup_iff]
  have herase : ((t.erase old).filter (· ≠ 0)).Nodup := ht.sublist (List.erase_sublist.filter _)
  rw [filter_cons]
  split
  · rename_i h
    refine List.nodup_cons.mpr ⟨fun hmem => ?_, herase⟩
    exact hnew (by simpa using h) (mem_of_mem_erase (mem_of_mem_filter hmem))
  · exact herase

variable (grow : Bool)

/-- The state that `__env_rm_add` leaves: part of what its loop has scanned is the table, and `old` is freed if
it was listed. -/
theorem envRmAdd_eq (old new : ℕ) (st : State) :
    ∃ t, t.Sublist (scanned (rmAddScan old new st.alloced)) ∧
      envRmAdd grow old new st =
        if old ∈ st.alloced then { st with alloced := t }.free old else { st with alloced := t } := by
  have hfound := rmAddScan_found old new st.alloced
  unfold envRmAdd
  rcases hr : rmAddScan old new st.alloced with ⟨t, n, found⟩
  rw [hr] at hfound
  cases found with
  | true => exact ⟨t, by simp [scanned], by rw [if_pos (hfound.mp rfl)]⟩
  | false =>
    have hold : old ∉ st.alloced := fun hc => by simpa using hfound.mpr hc
    simp only [if_neg hold]
    split
    · exact ⟨t, by simp [scanned], rfl⟩
    · split
      · exact ⟨t ++ [n], by simp [scanned], rfl⟩
      · exact ⟨t, by simp [scanned], rfl⟩

@[simp] theorem envRmAdd_environ (old new : ℕ) (st : State) :
    (envRmAdd grow old new st).environ = st.environ := by
  obtain ⟨t, -, h⟩ := envRmAdd_eq grow old new st
  rw [h]
  split <;> simp

theorem envRmAdd_strs (old new : ℕ) (st : State) :
    (envRmAdd grow old new st).strs = st.strs := by
  rw [State.strs, envRmAdd_environ, State.strs]

/-- **What `__env_rm_add` does**, when `new` is a block of the library that is not listed yet. -/
theorem envRmAdd_retires (old new : ℕ) (ht : Table st)
    (hnew : new ≠ 0 → new ∉ st.alloced) : Retires [old] new st (envRmAdd grow old new st) := by
  obtain ⟨t, hsub, h⟩ := envRmAdd_eq grow old new st
  have hmem : ∀ p ∈ t, p ≠ 0 → p = new ∨ (p ∈ st.alloced ∧ p ∉ [old]) := by
    intro p hp h0
    simpa using mem_scanned ht.nodup h0 (hsub.subset hp)
  have hnodup : (t.filter (· ≠ 0)).Nodup := (scanned_nodup ht.nodup hnew).sublist (hsub.filter _)
  rw [h]
  split
  · rename_i hold
    exact Retires.free (fun h0 => ⟨ht.owned old hold h0, ht.apart old (ht.owned old hold h0)⟩) hmem hnodup
  · exact ⟨rfl, rfl, rfl, hmem, hnodup, fun _ hp => hp, fun _ hp _ => hp, fun _ hf => .inl hf⟩

/-- A block freed by `__env_rm_add` is the string it retires, which was listed. -/
theorem envRmAdd_frees (old new : ℕ) (st : State) {f : Free} (hf : f ∈ (envRmAdd grow old new st).frees) :
    f ∈ st.frees ∨
      (old ≠ 0 ∧ old ∈ st.alloced ∧ f = ⟨old, st.strs, st.owned, st.foreign⟩) := by
  obtain ⟨t, -, h⟩ := envRmAdd_eq grow old new st
  rw [h] at hf
  split at hf
  · rename_i hold
    rcases State.mem_frees_free.mp hf with hf | ⟨h0, rfl⟩
    · exact .inl hf
    · exact .inr ⟨h0, hold, rfl⟩
  · exact .inl hf

/-! ## The loops -/

theorem clear_retires (l : List ℕ) (ht : Table st) :
    Retires l 0 st (l.foldl (fun st p => envRmAdd false p 0 st) st) := by
  induction l generalizing st with
  | nil => exact Retires.refl ht st.environ
  | cons p l ih =>
    have h := envRmAdd_retires false p 0 ht (fun h => absurd rfl h)
    exact h.trans (ih (h.table ht))

/-- The loop of `unsetenv`, when the array begins with the strings `kept` before the index `eo` and the strings
`rest` are still to come: the strings with the name are retired, and the others stay in their order. -/
theorem unsetLoop_retires (name : List UInt8) (rest : List ℕ) : ∀ (fuel : ℕ) (kept junk : List ℕ) (st : State),
    rest.length < fuel → Table st → st.strs = kept ++ junk ++ rest →
    let st' := unsetLoop name fuel (kept.length + junk.length) kept.length st
    Retires (rest.filter fun p => hits name (st.content p)) 0 st st' ∧
      st'.strs = kept ++ rest.filter fun p => !hits name (st.content p) := by
  -- induction on the strings still to come; what was kept has moved over the strings retired
  induction rest with
  | nil =>
    intro fuel kept junk st hfuel ht hs
    obtain ⟨fuel, rfl⟩ := Nat.exists_eq_add_of_lt hfuel
    have hend : st.strs[kept.length + junk.length]? = none := by simp [hs]
    simp only [unsetLoop, hend, filter_nil, append_nil] at hs ⊢
    split
    · rename_i hne
      have hjunk : st.strs ≠ [] := by
        rintro hc
        rw [hs, append_eq_nil_iff] at hc
        exact hne (by simp [hc.2])
      rw [State.strs_setStrs hjunk, hs, take_left]
      exact ⟨Retires.refl ht _, rfl⟩
    · have hjunk : junk = [] := List.length_eq_zero_iff.mp (by omega)
      exact ⟨Retires.refl ht st.environ, by rw [hs, hjunk, append_nil]⟩
  | cons p rest ih =>
    intro fuel kept junk st hfuel ht hs
    obtain ⟨fuel, rfl⟩ := Nat.exists_eq_add_of_lt hfuel
    have hget : st.strs[kept.length + junk.length]? = some p := by
      rw [hs]
      simp
    simp only [unsetLoop, hget, filter_cons]
    by_cases hp : hits name (st.content p) = true
    · -- the string is retired, and the index `eo` stays behind
      have hret := envRmAdd_retires false p 0 ht (fun h => absurd rfl h)
      have hnext := ih ((p :: rest).length + fuel) kept (junk ++ [p]) (envRmAdd false p 0 st)
        (by simp; omega) (hret.table ht) (by rw [envRmAdd_strs, hs]; simp)
      simp only [hret.content, length_append] at hnext
      simp only [hp]
      exact ⟨hret.trans hnext.1, hnext.2⟩
    · simp only [hp, Bool.false_eq_true, if_false]
      rcases junk with _ | ⟨q, junk⟩
      · have hnext := ih ((p :: rest).length + fuel) (kept ++ [p]) [] st (by simp; omega) ht
          (by rw [hs]; simp)
        simpa using hnext
      · -- the string moves down over the first of those that were retired
        have hset : st.strs.set kept.length p = kept ++ [p] ++ (junk ++ [p]) ++ rest := by
          rw [hs]
          simp
        have hret : Retires [] 0 st (st.setStrs (st.strs.set kept.length p)) := Retires.refl ht _
        have hnext := ih ((p :: rest).length + fuel) (kept ++ [p]) (junk ++ [p])
          (st.setStrs (st.strs.set kept.length p)) (by simp; omega) (hret.table ht)
          (by rw [State.strs_setStrs (by simp [hs]), hset])
        have hlen : (kept ++ [p]).length + (junk ++ [p]).length = kept.length + (q :: junk).length + 1 := by
          simp
          omega
        rw [hlen] at hnext
        simp only [hret.content, length_append, length_singleton] at hnext
        rw [if_pos (by simp)]
        refine ⟨hret.trans hnext.1, ?_⟩
        rw [hnext.2]
        simp

end Leblibc.Env
