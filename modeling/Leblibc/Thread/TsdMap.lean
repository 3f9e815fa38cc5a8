import Leblibc.Thread.Tsd

/-!
# Thread-specific data is a map

To the program, thread-specific data is a map from threads and keys to values: a new thread and a new
key have no values, and a value is the one set last. The list `extended_values` names threads by their
addresses, and a thread that exits may leave entries in it: `__pthread_tsd_run_dtors` gives up after
`PTHREAD_DESTRUCTOR_ITERATIONS` passes. Where no thread is created at an address that the list still
names, the library is a map; where one is, the new thread finds a value it never set.

## Main results

* `tsdSetLocked_spec`, `keyCreate_spec`, `keyDelete_spec`, `runDtors_spec`: the functions
* `tsd_refines_map`: in every run of clean steps the library is a map
* `stale_value`: a run in which it is not
-/

namespace Leblibc.Tsd

open List

/-! ## The map -/

/-- The keys in use, and the value of every thread and key. -/
structure Spec where
  live : ℕ → Bool
  value : ℕ → ℕ → ℕ

/-- The map of a process that starts. -/
def Spec.init : Spec := ⟨fun _ => false, fun _ _ => 0⟩

/-- What a thread may see of the value: a key that is not in use has none. -/
def Spec.get (a : Spec) (t k : ℕ) : ℕ := if a.live k then a.value t k else 0

/-- The value of one thread and key is changed. -/
def Spec.put (a : Spec) (t k v : ℕ) : Spec :=
  { a with value := Function.update a.value t (Function.update (a.value t) k v) }

/-- What an event, with the reply it gets, does to the map. -/
def Spec.next (a : Spec) : Event → Reply → Spec
  | .keyCreate _ _, .key k =>
    ⟨Function.update a.live k true, fun t => Function.update (a.value t) k 0⟩
  | .keyDelete _ k, .status 0 => { a with live := Function.update a.live k false }
  | .set self k v, .status 0 => a.put self k v
  | .create _ new, _ => { a with value := Function.update a.value new fun _ => 0 }
  | .turn self, .taken k _ => a.put self k 0
  | _, _ => a

/-- The replies the map allows. A new key is one that is not in use; a value is the one the map has. -/
def Spec.Allows (a : Spec) : Event → Reply → Prop
  | .keyCreate _ _, .key k => a.live k = false
  | .keyCreate _ _, r => r = .status EAGAIN
  | .keyDelete _ k, r => r = .status (if a.live k then 0 else EINVAL)
  | .set _ k _, r => r = .status (if a.live k then 0 else EINVAL)
  | .get self k, r => r = .value (a.get self k)
  | .turn self, .taken k v => v = a.get self k
  | _, r => r = .done

/-- No thread is created at an address that `extended_values` still names. -/
def Clean (s : State) : Event → Prop
  | .create _ new => ∀ e ∈ s.extended, e.thread ≠ new
  | _ => True

/-- The states that runs of clean steps lead to, each with the map that the run makes. -/
inductive Reachable (arch : Arch) (main : ℕ) : State → Spec → Prop where
  | init : Reachable arch main (State.init main) Spec.init
  | step {s s' : State} {a : Spec} {r : Reply} (h : Reachable arch main s a) (e : Event)
      (henabled : s.enabled e) (hclean : Clean s e) (hstep : step arch s e = some (r, s')) :
      Reachable arch main s' (a.next e r)

/-! ## Where the values stand -/

/-- The value that the list `extended_values` has for a thread and a key. -/
def lookup (t k : ℕ) (l : List Entry) : ℕ :=
  match findExtended t k l with
  | some e => e.value
  | none => 0

/-- The value stored for a thread and a key. -/
def stored (s : State) (t k : ℕ) : ℕ :=
  if k < INLINE_KEYS then
    match (s.thread t).bind (·.tsd) with
    | some tsd => tsd k
    | none => 0
  else lookup t k s.extended

/-- The thread is there, and has its array. -/
def Attached (s : State) (t : ℕ) : Prop := ∃ th tsd, s.thread t = some th ∧ th.tsd = some tsd

variable {t k : ℕ} {s : State} {l : List Entry} {s' : State} {f : Thread → Thread} {self : ℕ}

theorem Entry.isFor_iff {e : Entry} : e.isFor t k = true ↔ e.thread = t ∧ e.key = k := by
  simp [Entry.isFor]

theorem tsdGetLocked_eq (h : Attached s t) (k : ℕ) :
    tsdGetLocked t k s = some (stored s t k) := by
  obtain ⟨th, tsd, hth, htsd⟩ := h
  unfold tsdGetLocked stored lookup
  by_cases hk : k < INLINE_KEYS
  · simp [hk, hth, htsd]
  · rw [if_neg hk, if_neg hk]
    cases findExtended t k s.extended <;> rfl

/-! ## The list of values -/

/-- The thread and the key that an entry is for. -/
def Entry.name (e : Entry) : ℕ × ℕ := (e.thread, e.key)

/-- At most one entry for every thread and key. -/
def Unique (l : List Entry) : Prop := (l.map Entry.name).Nodup

theorem lookup_cons (t k : ℕ) (e : Entry) (l : List Entry) :
    lookup t k (e :: l) = if e.thread = t ∧ e.key = k then e.value else lookup t k l := by
  simp only [lookup, findExtended, find?_cons, ← Entry.isFor_iff]
  cases e.isFor t k <;> rfl

theorem lookup_of_not_mem (h : ∀ e ∈ l, ¬(e.thread = t ∧ e.key = k)) : lookup t k l = 0 := by
  induction l with
  | nil => rfl
  | cons e l ih =>
    rw [lookup_cons, if_neg (h e mem_cons_self)]
    exact ih fun e' he' => h e' (mem_cons_of_mem _ he')

theorem findExtended_eq_none_iff :
    findExtended t k l = none ↔ ∀ e ∈ l, ¬(e.thread = t ∧ e.key = k) := by
  unfold findExtended
  rw [find?_eq_none]
  simp only [Entry.isFor_iff]

/-- Changing the value of the entry for a thread and a key. -/
theorem lookup_replaceExtended {v : ℕ} (h : findExtended t k l ≠ none) (t' k' : ℕ) :
    lookup t' k' (replaceExtended t k v l) =
      if t' = t ∧ k' = k then v else lookup t' k' l := by
  induction l with
  | nil => exact absurd rfl h
  | cons e l ih =>
    have hrest : ¬e.isFor t k = true → findExtended t k l ≠ none := fun he => by
      rwa [findExtended, find?_cons_of_neg he] at h
    rw [replaceExtended, lookup_cons]
    split_ifs with he <;> grind [lookup_cons, Entry.isFor_iff]

/-- Removing the entry for a thread and a key, when there is only one. -/
theorem lookup_eraseP (h : Unique l) (t' k' : ℕ) :
    lookup t' k' (l.eraseP (Entry.isFor t k)) =
      if t' = t ∧ k' = k then 0 else lookup t' k' l := by
  induction l with
  | nil => simp [lookup, findExtended]
  | cons e l ih =>
    obtain ⟨hfirst, hrest⟩ := List.nodup_cons.mp h
    -- no second entry for the same thread and key follows
    have hlast : lookup e.thread e.key l = 0 := lookup_of_not_mem fun e' he' hc =>
      hfirst (List.mem_map.mpr ⟨e', he', Prod.ext hc.1 hc.2⟩)
    by_cases he : e.isFor t k = true
    · rw [eraseP_cons_of_pos he, lookup_cons]
      grind [Entry.isFor_iff]
    · rw [eraseP_cons_of_neg he, lookup_cons, lookup_cons, ih hrest]
      grind [Entry.isFor_iff]

theorem map_name_replaceExtended (t k v : ℕ) (l : List Entry) :
    (replaceExtended t k v l).map Entry.name = l.map Entry.name := by
  induction l with
  | nil => rfl
  | cons e l ih =>
    rw [replaceExtended]
    split
    · rfl
    · rw [map_cons, map_cons, ih]

theorem lookup_filter (k : ℕ) (l : List Entry) (t' k' : ℕ) :
    lookup t' k' (l.filter fun e => e.key ≠ k) = if k' = k then 0 else lookup t' k' l := by
  induction l with
  | nil => simp [lookup, findExtended]
  | cons e l ih =>
    rw [filter_cons, lookup_cons]
    split_ifs <;> grind [lookup_cons]

/-! ## Setting a value -/

/-- The two states agree on the keys and on which threads there are and have their arrays. -/
structure Frame (s s' : State) : Prop where
  keys : s'.keys = s.keys
  list : s'.list = s.list
  threaded : s'.threaded = s.threaded
  attached : ∀ t, (s'.thread t).map (fun th => th.tsd.isSome) = (s.thread t).map fun th => th.tsd.isSome

theorem Frame.refl (s : State) : Frame s s := ⟨rfl, rfl, rfl, fun _ => rfl⟩

theorem Frame.trans {s'' : State} (h : Frame s s') (h' : Frame s' s'') : Frame s s'' :=
  ⟨h'.keys.trans h.keys, h'.list.trans h.list, h'.threaded.trans h.threaded,
    fun t => (h'.attached t).trans (h.attached t)⟩

theorem Frame.isSome (h : Frame s s') (t : ℕ) :
    (s'.thread t).isSome = (s.thread t).isSome := by
  simpa using congrArg Option.isSome (h.attached t)

/-- Changing a thread in a way that keeps its array, or leaves another one in its place. -/
theorem frame_modify (s : State) (t : ℕ)
    (hf : ∀ th, s.thread t = some th → (f th).tsd.isSome = th.tsd.isSome) : Frame s (s.modify t f) := by
  refine ⟨rfl, rfl, rfl, fun t' => ?_⟩
  by_cases ht : t' = t
  · subst ht
    cases hth : s.thread t' <;> simp_all [State.modify]
  · simp [State.modify, ht]

theorem stored_congr (hthread : (s'.thread t).bind (·.tsd) = (s.thread t).bind (·.tsd))
    (hext : s'.extended = s.extended) (k : ℕ) : stored s' t k = stored s t k := by
  rw [stored, hthread, hext]
  rfl

theorem stored_modify (s : State) (t : ℕ) (hf : ∀ th, (f th).tsd = th.tsd)
    (t' k : ℕ) : stored (s.modify t f) t' k = stored s t' k := by
  refine stored_congr ?_ (by rfl) k
  by_cases ht : t' = t
  · subst ht
    cases hth : s.thread t' <;> simp [State.modify, hth, hf]
  · simp [State.modify, ht]

theorem Frame.attached_of (h : Frame s s') (ht : Attached s t) :
    Attached s' t := by
  obtain ⟨th, tsd, hth, htsd⟩ := ht
  have hmap := h.attached t
  rw [hth, Option.map_some, htsd] at hmap
  obtain ⟨th', hth', hsome⟩ := Option.map_eq_some_iff.mp hmap
  obtain ⟨tsd', htsd'⟩ := Option.isSome_iff_exists.mp hsome
  exact ⟨th', tsd', hth', htsd'⟩

theorem setInline_spec {th : Thread} {tsd : ℕ → ℕ} (hth : s.thread t = some th)
    (htsd : th.tsd = some tsd) (hk : k < INLINE_KEYS) (v : ℕ) :
    Frame s (s.modify t fun th => { th with tsd := some (Function.update tsd k v) }) ∧
      ∀ t' k', stored (s.modify t fun th => { th with tsd := some (Function.update tsd k v) }) t' k' =
        if t' = t ∧ k' = k then v else stored s t' k' := by
  refine ⟨frame_modify s t fun th' hth' => ?_, fun t' k' => ?_⟩
  · cases hth.symm.trans hth'
    rw [htsd]
    rfl
  · by_cases ht : t' = t
    · subst ht
      simp only [stored, State.modify, Function.update_self, hth, Option.map_some, Option.bind_some, htsd,
        Function.update_apply]
      split_ifs <;> simp_all
    · simp [stored, State.modify, ht]

/-- What setting a value does: the value is there, no other has changed, and the list still has at most
one entry for every thread and key. The only key for which it may have its first entry is this one, if
it is one of those whose values stand in the list and the value is not null. -/
structure SetOk (s s' : State) (t k v : ℕ) : Prop where
  frame : Frame s s'
  stored_eq : ∀ t' k', stored s' t' k' = if t' = t ∧ k' = k then v else stored s t' k'
  unique : Unique s'.extended
  keys_of : ∀ e ∈ s'.extended,
    (e.key = k ∧ v ≠ 0 ∧ INLINE_KEYS ≤ k) ∨ ∃ e' ∈ s.extended, e'.key = e.key

/-- A value in the list is changed. -/
theorem SetOk.of_extended (hk : ¬k < INLINE_KEYS) {v : ℕ}
    (hl : ∀ t' k', lookup t' k' l = if t' = t ∧ k' = k then v else lookup t' k' s.extended) (hu : Unique l)
    (hkeys : ∀ e ∈ l, (e.key = k ∧ v ≠ 0 ∧ INLINE_KEYS ≤ k) ∨ ∃ e' ∈ s.extended, e'.key = e.key) :
    SetOk s { s with extended := l } t k v := by
  refine ⟨⟨rfl, rfl, rfl, fun _ => rfl⟩, fun t' k' => ?_, hu, hkeys⟩
  unfold stored
  by_cases hk' : k' < INLINE_KEYS
  · have hkk : ¬(t' = t ∧ k' = k) := fun hc => hk (hc.2 ▸ hk')
    rw [if_pos hk', if_pos hk', if_neg hkk]
  · rw [if_neg hk', if_neg hk']
    exact hl t' k'

/-- **`tsd_set_locked`.** -/
theorem tsdSetLocked_spec (h : Attached s t) (hu : Unique s.extended) (k v : ℕ) :
    ∃ s', tsdSetLocked t k v s = some s' ∧ SetOk s s' t k v := by
  obtain ⟨th, tsd, hth, htsd⟩ := h
  unfold tsdSetLocked
  by_cases hk : k < INLINE_KEYS
  · -- the value goes to the thread's own array
    rw [if_pos hk]
    simp only [hth, htsd, some_bind]
    obtain ⟨hframe, hstored⟩ := setInline_spec hth htsd hk v
    exact ⟨_, rfl, hframe, hstored, hu, fun e he => Or.inr ⟨e, he, rfl⟩⟩
  · -- the value goes to the list
    rw [if_neg hk]
    cases hfind : findExtended t k s.extended with
    | some e =>
      have hne : findExtended t k s.extended ≠ none := by rw [hfind]; exact Option.some_ne_none e
      by_cases hv : v ≠ 0
      · simp only [if_pos hv]
        refine ⟨_, rfl, .of_extended hk (lookup_replaceExtended hne) ?_ fun e' he' => ?_⟩
        · rw [Unique, map_name_replaceExtended]
          exact hu
        · have hmem : e'.name ∈ s.extended.map Entry.name := by
            rw [← map_name_replaceExtended t k v]
            exact mem_map_of_mem he'
          obtain ⟨e'', he'', hname⟩ := List.mem_map.mp hmem
          exact Or.inr ⟨e'', he'', congrArg Prod.snd hname⟩
      · obtain rfl := not_not.mp hv
        exact ⟨_, rfl, .of_extended hk (lookup_eraseP hu) (hu.sublist (List.eraseP_sublist.map _))
          fun e' he' => Or.inr ⟨e', mem_of_mem_eraseP he', rfl⟩⟩
    | none =>
      have hnone := findExtended_eq_none_iff.mp hfind
      by_cases hv : v = 0
      · simp only [if_pos hv]
        refine ⟨s, rfl, .of_extended hk (fun t' k' => ?_) hu fun e' he' => Or.inr ⟨e', he', rfl⟩⟩
        split_ifs with hkk
        · rw [hkk.1, hkk.2, hv, lookup_of_not_mem hnone]
        · rfl
      · simp only [if_neg hv]
        refine ⟨_, rfl, .of_extended hk (fun t' k' => ?_) (List.nodup_cons.mpr ⟨fun hmem => ?_, hu⟩) fun e' he' => ?_⟩
        · rw [lookup_cons]
          simp only [eq_comm]
        · obtain ⟨e', he', hname⟩ := List.mem_map.mp hmem
          exact hnone e' he' ⟨congrArg Prod.fst hname, congrArg Prod.snd hname⟩
        · rcases List.mem_cons.mp he' with rfl | he'
          · exact Or.inl ⟨rfl, hv, not_lt.mp hk⟩
          · exact Or.inr ⟨e', he', rfl⟩

/-! ## The table of keys -/

theorem inUse_nil (k : ℕ) : inUse [] k = false := rfl

theorem lt_length_of_inUse {keys : List (Option Dtor)} (h : inUse keys k) :
    k < keys.length := by
  by_contra hge
  rw [inUse, getElem?_eq_none (not_lt.mp hge)] at h
  exact absurd h (by decide)

theorem inUse_set {keys : List (Option Dtor)} {i : ℕ} (hi : i < keys.length) (d : Option Dtor) (k : ℕ) :
    inUse (keys.set i d) k = if k = i then d.isSome else inUse keys k := by
  unfold inUse
  rw [getElem?_set]
  by_cases hk : k = i
  · rw [if_pos hk.symm, if_pos hi, if_pos hk]
    cases d <;> rfl
  · rw [if_neg fun hc => hk hc.symm, if_neg hk]

variable (keys : List (Option Dtor))

theorem inUse_append_replicate (n k : ℕ) :
    inUse (keys ++ List.replicate n none) k = inUse keys k := by
  unfold inUse
  by_cases hk : k < keys.length
  · rw [getElem?_append_left hk]
  · have hge := not_lt.mp hk
    rw [getElem?_append_right hge, getElem?_eq_none hge, getElem?_replicate]
    split <;> rfl

theorem scan_spec (n : ℕ) :
    ∀ index, index ≤ scan keys n index ∧ scan keys n index ≤ index + n ∧
      (scan keys n index < index + n → inUse keys (scan keys n index) = false) := by
  induction n with
  | zero =>
    intro index
    exact ⟨le_refl _, le_refl _, fun h => absurd h (lt_irrefl _)⟩
  | succ n ih =>
    intro index
    rw [scan]
    split_ifs with hu
    · obtain ⟨hle, hge, hfree⟩ := ih (index + 1)
      exact ⟨by omega, by omega, fun h => hfree (by omega)⟩
    · exact ⟨le_refl _, by omega, fun _ => by simpa using hu⟩

/-- The search ends at a free key, or at the end of the table. -/
theorem searchFree_spec (nextKey : ℕ) :
    searchFree keys nextKey ≤ keys.length ∧
      inUse keys (searchFree keys nextKey) = false := by
  have hend : inUse keys keys.length = false := by
    rw [inUse, getElem?_eq_none (le_refl _)]
    rfl
  unfold searchFree
  generalize hstart : (if nextKey < keys.length then nextKey else 0) = start
  have hle : start ≤ keys.length := by split at hstart <;> omega
  obtain ⟨-, h1, hfree1⟩ := scan_spec keys (keys.length - start) start
  obtain ⟨-, h2, hfree2⟩ := scan_spec keys start 0
  simp only
  generalize scan keys (keys.length - start) start = index at h1 hfree1 ⊢
  generalize scan keys start 0 = index' at h2 hfree2 ⊢
  by_cases hfull : index = keys.length
  · -- nothing is free from `start` on
    rw [if_pos hfull]
    split_ifs with hall
    · exact ⟨le_refl _, hend⟩
    · refine ⟨by omega, ?_⟩
      by_cases hlast : index' = start
      · simpa [hlast] using hall
      · exact hfree2 (by omega)
  · rw [if_neg hfull]
    have hfree := hfree1 (by omega)
    rw [if_neg (by simp [hfree])]
    exact ⟨by omega, hfree⟩

/-- What creating a key does to the table. -/
structure CreateOk (s s' : State) (t k : ℕ) : Prop where
  key_free : inUse s.keys k = false
  inUse_eq : ∀ k', inUse s'.keys k' = if k' = k then true else inUse s.keys k'
  length_lt : s'.keys.length < 2 ^ 32
  rest : s' = { s.modify t Thread.attach with keys := s'.keys, nextKey := s'.nextKey }

/-- **`__pthread_key_create`** gives a key that is not in use, or fails and leaves all keys as they
were. -/
theorem keyCreate_spec (arch : Arch) (self : ℕ) (dtor : Option ℕ) (hcap : s.keys.length < 2 ^ 32) :
    (∃ k s', keyCreate arch self dtor s = (some k, s') ∧ CreateOk s s' self k) ∨
      ∃ s', keyCreate arch self dtor s = (none, s') ∧ s'.keys = s.keys ∧ s.keys ≠ [] ∧
        s' = { s.modify self Thread.attach with keys := s'.keys } := by
  unfold keyCreate
  simp only
  generalize hkeys : (if (s.modify self Thread.attach).keys.length = 0 then [none]
    else (s.modify self Thread.attach).keys) = keys
  have hcase : (keys = [none] ∧ s.keys = []) ∨ (keys = s.keys ∧ s.keys ≠ []) := by
    split_ifs at hkeys with hnil
    · exact Or.inl ⟨hkeys.symm, List.length_eq_zero_iff.mp hnil⟩
    · exact Or.inr ⟨hkeys.symm, fun hc => hnil (List.length_eq_zero_iff.mpr hc)⟩
  have hsame : ∀ k, inUse keys k = inUse s.keys k := by
    intro k
    rcases hcase with ⟨hone, hnil⟩ | ⟨hsame, -⟩
    · rw [hone, hnil]
      cases k <;> rfl
    · rw [hsame]
  have hlen : 0 < keys.length ∧ keys.length < 2 ^ 32 := by
    rcases hcase with ⟨hone, -⟩ | ⟨hsame, hne⟩
    · rw [hone]
      decide
    · rw [hsame]
      exact ⟨length_pos_of_ne_nil hne, hcap⟩
  obtain ⟨hle, hfree⟩ := searchFree_spec keys (s.modify self Thread.attach).nextKey
  generalize searchFree keys (s.modify self Thread.attach).nextKey = index at hle hfree ⊢
  have hmod : index % 2 ^ 32 = index := Nat.mod_eq_of_lt (by omega)
  by_cases hfull : index = keys.length
  · rw [if_pos hfull]
    by_cases hmax : keys.length > (2 ^ 32 - 1) / 2 ∨ keys.length * 2 > arch.sizeMax / arch.ptrSize
    · -- a table that cannot grow has keys in it
      right
      rw [if_pos hmax]
      rcases hcase with ⟨hone, -⟩ | ⟨hkeep, hne⟩
      · rw [hone] at hmax
        cases arch <;> exact absurd hmax (by decide)
      · exact ⟨_, rfl, hkeep, hne, rfl⟩
    · left
      rw [if_neg hmax, hmod]
      refine ⟨index, _, rfl, (hsame index).symm.trans hfree, fun k' => ?_, ?_, rfl⟩
      · rw [inUse_set (by rw [length_append, length_replicate]; omega), inUse_append_replicate, hsame]
        rfl
      · simp only [length_set, length_append, length_replicate]
        omega
  · left
    rw [if_neg hfull, hmod]
    refine ⟨index, _, rfl, (hsame index).symm.trans hfree, fun k' => ?_, ?_, rfl⟩
    · rw [inUse_set (by omega), hsame]
      rfl
    · simp only [length_set]
      exact hlen.2

/-- The loop over the threads in `__pthread_key_delete`. -/
theorem clearInline_spec (hk : k < INLINE_KEYS) (l : List ℕ) :
    ∀ s : State, (∀ t ∈ l, Attached s t) →
      ∃ s', clearInline k l s = some s' ∧ Frame s s' ∧ s'.extended = s.extended ∧
        ∀ t k', stored s' t k' = if t ∈ l ∧ k' = k then 0 else stored s t k' := by
  induction l with
  | nil =>
    intro s _
    exact ⟨s, rfl, Frame.refl s, rfl, fun t k' => by simp⟩
  | cons t l ih =>
    intro s hl
    obtain ⟨th, tsd, hth, htsd⟩ := hl t mem_cons_self
    rw [clearInline]
    simp only [hth, htsd, some_bind]
    obtain ⟨hframe, hstored⟩ := setInline_spec hth htsd hk 0
    obtain ⟨s', hrun, hframe', hext, hstored'⟩ := ih _ fun t' ht' =>
      hframe.attached_of (hl t' (mem_cons_of_mem _ ht'))
    refine ⟨s', hrun, hframe.trans hframe', hext, fun t' k' => ?_⟩
    rw [hstored', hstored]
    by_cases hkk : k' = k <;> by_cases ht : t' = t <;> simp [hkk, ht]

/-! ## The invariant -/

/-- **The library stores the map.** -/
structure Inv (s : State) (a : Spec) : Prop where
  live_eq : ∀ k, inUse s.keys k = a.live k
  stored_eq : ∀ t, (s.thread t).isSome → ∀ k, stored s t k = a.get t k
  entries : ∀ e ∈ s.extended, INLINE_KEYS ≤ e.key ∧ a.live e.key = true
  unique : Unique s.extended
  attached : ∀ t, (s.thread t).isSome → s.keys ≠ [] ∨ s.threaded = true → Attached s t
  single : s.threaded = false → ∀ t t', (s.thread t).isSome → (s.thread t').isSome → t = t'
  mem_list : ∀ t, t ∈ s.list ↔ (s.thread t).isSome
  nodup_list : s.list.Nodup
  capacity : s.keys.length < 2 ^ 32

section Steps

variable {s : State} {a : Spec}

theorem Inv.attached_of_live (h : Inv s a) (ht : (s.thread t).isSome) (hk : a.live k = true) :
    Attached s t := by
  apply h.attached t ht
  left
  intro hnil
  have hlive := h.live_eq k
  rw [hnil, inUse_nil, hk] at hlive
  exact absurd hlive (by decide)

theorem Inv.tsdGet_eq (h : Inv s a) (ht : (s.thread t).isSome) (k : ℕ) :
    tsdGet t k s = some (a.get t k) := by
  unfold tsdGet Spec.get
  rw [h.live_eq]
  by_cases hlive : a.live k = true
  · rw [tsdGetLocked_eq (h.attached_of_live ht hlive),
      h.stored_eq t ht, Spec.get, if_pos hlive]
  · rw [if_neg hlive, if_neg hlive]

/-- A step that keeps the threads. -/
theorem Inv.of_threads (h : Inv s a) {a' : Spec} (hlist : s'.list = s.list) (hthreaded : s'.threaded = s.threaded)
    (hsome : ∀ t, (s'.thread t).isSome = (s.thread t).isSome)
    (hattached : ∀ t, (s.thread t).isSome → s'.keys ≠ [] ∨ s.threaded = true → Attached s' t)
    (hlive : ∀ k, inUse s'.keys k = a'.live k)
    (hstored : ∀ t, (s.thread t).isSome → ∀ k, stored s' t k = a'.get t k)
    (hentries : ∀ e ∈ s'.extended, INLINE_KEYS ≤ e.key ∧ a'.live e.key = true) (hunique : Unique s'.extended)
    (hcap : s'.keys.length < 2 ^ 32) : Inv s' a' where
  live_eq := hlive
  stored_eq t ht := hstored t (hsome t ▸ ht)
  entries := hentries
  unique := hunique
  attached t ht hcase := hattached t (hsome t ▸ ht) (hthreaded ▸ hcase)
  single hth t t' ht ht' := h.single (hthreaded ▸ hth) t t' (hsome t ▸ ht) (hsome t' ▸ ht')
  mem_list t := by rw [hlist, hsome, h.mem_list]
  nodup_list := hlist ▸ h.nodup_list
  capacity := hcap

/-- A step that keeps the keys, the threads and the list, and changes values as the map does. -/
theorem Inv.of_frame (h : Inv s a) {a' : Spec} (hframe : Frame s s')
    (hlive : a'.live = a.live) (hstored : ∀ t, (s.thread t).isSome → ∀ k, stored s' t k = a'.get t k)
    (hentries : ∀ e ∈ s'.extended, INLINE_KEYS ≤ e.key ∧ a.live e.key = true) (hunique : Unique s'.extended) :
    Inv s' a' := by
  refine h.of_threads hframe.list hframe.threaded hframe.isSome (fun t ht hcase => ?_) (fun k => ?_) hstored
    (hlive ▸ hentries) hunique (hframe.keys ▸ h.capacity)
  · exact hframe.attached_of (h.attached t ht (hframe.keys ▸ hcase))
  · rw [hframe.keys, hlive, h.live_eq]

theorem Inv.modify (h : Inv s a) (t : ℕ) (hf : ∀ th, (f th).tsd = th.tsd) :
    Inv (s.modify t f) a := by
  apply h.of_frame
  · apply frame_modify
    intro th _
    rw [hf]
  · rfl
  · intro t' ht' k
    rw [stored_modify s t hf]
    exact h.stored_eq t' ht' k
  · exact h.entries
  · exact h.unique

theorem get_put (a : Spec) (t k v t' k' : ℕ) (hk : v ≠ 0 → a.live k = true) :
    (a.put t k v).get t' k' = if t' = t ∧ k' = k then v else a.get t' k' := by
  unfold Spec.get Spec.put
  by_cases ht : t' = t
  · subst ht
    by_cases hkk : k' = k
    · subst hkk
      by_cases hv : v = 0
      · simp [hv]
      · simp [hk hv]
    · simp [hkk]
  · simp [ht]

/-- Setting the value of a key in use, or taking away that of any key. -/
theorem Inv.set (h : Inv s a) {v : ℕ} (hset : SetOk s s' t k v)
    (hk : v ≠ 0 → a.live k = true) : Inv s' (a.put t k v) := by
  apply h.of_frame hset.frame
  · rfl
  · intro t' ht' k'
    rw [hset.stored_eq, get_put a t k v t' k' hk, h.stored_eq t' ht']
  · intro e he
    rcases hset.keys_of e he with ⟨hkey, hv, hin⟩ | ⟨e', he', hkey⟩
    · rw [hkey]
      exact ⟨hin, hk hv⟩
    · rw [← hkey]
      exact h.entries e' he'
  · exact hset.unique

theorem stored_attach (s : State) (t t' k : ℕ) :
    stored (s.modify t Thread.attach) t' k = stored s t' k := by
  by_cases ht : t' = t
  · subst ht
    cases hth : s.thread t' with
    | none => simp [stored, State.modify, hth]
    | some th =>
      -- an array that was not there is taken to be all zero, and so it is
      cases htsd : th.tsd <;> simp [stored, State.modify, hth, Thread.attach, htsd]
  · simp [stored, State.modify, ht]

theorem isSome_modify (s : State) (t : ℕ) (f : Thread → Thread) (t' : ℕ) :
    ((s.modify t f).thread t').isSome = (s.thread t').isSome := by
  by_cases ht : t' = t <;> simp [State.modify, ht]

/-- After `self` has been given its array every thread has one: a thread without one is the only
thread. -/
theorem Inv.attached_modify (h : Inv s a) (hself : (s.thread self).isSome)
    (ht : (s.thread t).isSome) : Attached (s.modify self Thread.attach) t := by
  by_cases heq : t = self
  · subst heq
    obtain ⟨th, hth⟩ := Option.isSome_iff_exists.mp ht
    exact ⟨th.attach, th.tsd.getD fun _ => 0, by simp [State.modify, hth], rfl⟩
  · have hthreaded : s.threaded = true := by
      cases hth : s.threaded with
      | true => rfl
      | false => exact absurd (h.single hth t self ht hself) heq
    obtain ⟨th, tsd, hth, htsd⟩ := h.attached t ht (Or.inr hthreaded)
    exact ⟨th, tsd, by simp [State.modify, heq, hth], htsd⟩

theorem Inv.attach (h : Inv s a) (hself : (s.thread self).isSome) (hne : s.keys ≠ []) :
    Inv (s.modify self Thread.attach) a := by
  refine h.of_frame (frame_modify s self fun th hth => ?_) rfl (fun t ht k => ?_) h.entries h.unique
  · obtain ⟨th', tsd, hth', htsd⟩ := h.attached self hself (Or.inl hne)
    rw [hth] at hth'
    cases hth'
    rw [htsd]
    rfl
  · rw [stored_attach]
    exact h.stored_eq t ht k

/-- **Creating a key.** -/
theorem Inv.keyCreate (h : Inv s a) (hself : (s.thread self).isSome) (hcreate : CreateOk s s' self k) :
    Inv s' ⟨Function.update a.live k true, fun t => Function.update (a.value t) k 0⟩ := by
  have hfree : a.live k = false := (h.live_eq k).symm.trans hcreate.key_free
  have hthread : s'.thread = (s.modify self Thread.attach).thread := by rw [hcreate.rest]
  have hext : s'.extended = s.extended := by rw [hcreate.rest]; rfl
  refine h.of_threads (by rw [hcreate.rest]; rfl) (by rw [hcreate.rest]; rfl) (fun t => ?_) (fun t ht _ => ?_)
    (fun k' => ?_) (fun t ht k' => ?_) (fun e he => ?_) (hext ▸ h.unique) hcreate.length_lt
  · rw [hthread, isSome_modify]
  · rw [Attached, hthread]
    exact h.attached_modify hself ht
  · rw [hcreate.inUse_eq, h.live_eq]
    exact (Function.update_apply ..).symm
  · rw [stored_congr (s := s.modify self Thread.attach) (by rw [hthread]) hext, stored_attach, h.stored_eq t ht]
    by_cases hk : k' = k <;> simp [Spec.get, hk, hfree]
  · obtain ⟨hin, hlive⟩ := h.entries e (hext ▸ he)
    refine ⟨hin, ?_⟩
    simp only [Function.update_apply, hlive, ite_self]

/-- **Deleting a key.** -/
theorem Inv.keyDelete (h : Inv s a) (hk : a.live k = true) :
    ∃ s', keyDelete k s = some (0, s') ∧ Inv s' { a with live := Function.update a.live k false } := by
  have huse : inUse s.keys k = true := (h.live_eq k).trans hk
  -- the values go first
  have hclear : ∃ s1, clearValues k s = some s1 ∧ Frame s s1 ∧
      (∀ t, (s.thread t).isSome → ∀ k', stored s1 t k' = if k' = k then 0 else stored s t k') ∧
      (∀ e ∈ s1.extended, e ∈ s.extended ∧ e.key ≠ k) ∧ Unique s1.extended := by
    unfold clearValues
    split_ifs with hin
    · obtain ⟨s1, hrun, hframe, hext, hstored⟩ := clearInline_spec hin s.list s fun t ht =>
        h.attached_of_live ((h.mem_list t).mp ht) hk
      refine ⟨s1, hrun, hframe, fun t ht k' => ?_, fun e he => ?_, hext ▸ h.unique⟩
      · rw [hstored]
        simp [(h.mem_list t).mpr ht]
      · rw [hext] at he
        have := (h.entries e he).1
        exact ⟨he, by omega⟩
    · refine ⟨_, rfl, ⟨rfl, rfl, rfl, fun _ => rfl⟩, fun t ht k' => ?_, fun e he => ?_,
        h.unique.sublist (List.filter_sublist.map _)⟩
      · simp only [stored, lookup_filter]
        split_ifs <;> first | rfl | omega
      · simpa using List.mem_filter.mp he
  obtain ⟨s1, hrun, hframe, hstored, hentries, hunique⟩ := hclear
  -- then the key; whether or not the table is freed, the keys in use are the others
  have hfinish : ∀ keys, (∀ k', inUse keys k' = if k' = k then false else inUse s.keys k') →
      keys.length < 2 ^ 32 → ∀ n,
      Inv { s1 with keys := keys, nextKey := n } { a with live := Function.update a.live k false } := by
    intro keys hkeys hcap n
    refine h.of_threads hframe.list hframe.threaded hframe.isSome (fun t ht _ => ?_) (fun k' => ?_) (fun t ht k' => ?_)
      (fun e he => ?_) hunique hcap
    · exact hframe.attached_of (h.attached_of_live ht hk)
    · simp only
      rw [hkeys, Function.update_apply, h.live_eq]
    · refine (hstored t ht k').trans ?_
      rw [h.stored_eq t ht]
      by_cases hkk : k' = k <;> simp [Spec.get, hkk]
    · obtain ⟨hmem, hkne⟩ := hentries e he
      obtain ⟨hin, hlive⟩ := h.entries e hmem
      exact ⟨hin, by simp [hkne, hlive]⟩
  have hset : ∀ k', inUse (s.keys.set k none) k' = if k' = k then false else inUse s.keys k' :=
    inUse_set (lt_length_of_inUse huse) none
  unfold Tsd.keyDelete
  rw [if_neg (by simp [huse]), hrun]
  simp only [some_bind, hframe.keys]
  split_ifs with hany
  · refine ⟨_, rfl, hfinish _ hset ?_ s1.nextKey⟩
    rw [length_set]
    exact h.capacity
  · refine ⟨_, rfl, hfinish [] (fun k' => ?_) (by decide) 0⟩
    rw [← hset k', inUse_nil]
    -- no entry of the table is left
    by_contra hc
    obtain ⟨d, hd⟩ := Option.isSome_iff_exists.mp (Bool.eq_true_of_not_eq_false (Ne.symm hc))
    exact hany (List.any_eq_true.mpr ⟨some d, mem_of_getElem? (Option.join_eq_some_iff.mp hd), rfl⟩)

/-- **Creating a thread**: it has the values that the list names for its address. -/
theorem Inv.create (h : Inv s a) {new : ℕ} (hself : (s.thread self).isSome) (hnew : s.thread new = none) {v : ℕ → ℕ}
    (hv : ∀ k, v k = if k < INLINE_KEYS then 0 else lookup new k s.extended) :
    Inv { (if s.threaded then s else s.modify self Thread.attach) with
        thread := Function.update (if s.threaded then s else s.modify self Thread.attach).thread new
          (some ⟨some fun _ => 0, false, .user, false⟩)
        list := new :: s.list
        threaded := true }
      { a with value := Function.update a.value new v } := by
  generalize hs1 : (if s.threaded then s else s.modify self Thread.attach) = s1
  -- giving `self` its array changes no value, and leaves no thread without one
  have hkeep : s1.keys = s.keys ∧ s1.extended = s.extended ∧
      (∀ t, (s1.thread t).isSome = (s.thread t).isSome) ∧ (∀ t k, stored s1 t k = stored s t k) ∧
      ∀ t, (s.thread t).isSome → Attached s1 t := by
    rw [← hs1]
    split_ifs with hth
    · exact ⟨rfl, rfl, fun _ => rfl, fun _ _ => rfl, fun t ht => h.attached t ht (Or.inr hth)⟩
    · exact ⟨rfl, rfl, isSome_modify s self _, stored_attach s self,
        fun t ht => h.attached_modify hself ht⟩
  obtain ⟨hkeys, hext, hsome, hstored, hattached⟩ := hkeep
  refine ⟨?_, fun t ht k => ?_, hext ▸ h.entries, hext ▸ h.unique, fun t ht _ => ?_, nofun, fun t => ?_,
    List.nodup_cons.mpr ⟨fun hmem => ?_, h.nodup_list⟩, hkeys ▸ h.capacity⟩
  · exact hkeys ▸ h.live_eq
  · by_cases heq : t = new
    · -- the array of the new thread is all zero, and the list has values of keys in use only
      subst heq
      simp only [stored, Spec.get, Function.update_self, hv k, hext, Option.bind_some]
      have hdead : ¬a.live k = true → lookup t k s.extended = 0 := fun hlive =>
        lookup_of_not_mem fun e he hc => hlive (hc.2 ▸ (h.entries e he).2)
      split_ifs with hk hlive <;> simp_all
    · simp only [Function.update_of_ne heq, hsome] at ht
      refine (stored_congr (s := s1) ?_ (by rfl) k).trans ?_
      · simp only [Function.update_of_ne heq]
      · rw [hstored, h.stored_eq t ht]
        simp [Spec.get, heq]
  · by_cases heq : t = new
    · subst heq
      exact ⟨_, _, Function.update_self .., rfl⟩
    · simp only [Function.update_of_ne heq, hsome] at ht
      obtain ⟨th, tsd, hth, htsd⟩ := hattached t ht
      exact ⟨th, tsd, (Function.update_of_ne heq ..).trans hth, htsd⟩
  · rw [mem_cons, h.mem_list]
    by_cases heq : t = new <;> simp [heq, hsome]
  · rw [h.mem_list, hnew] at hmem
    exact absurd hmem (by decide)

/-- **The end of a thread.** Its entries in the list stay. -/
theorem Inv.exit (h : Inv s a) (t : ℕ) :
    Inv { s with thread := Function.update s.thread t none, list := s.list.erase t } a := by
  have hother : ∀ t', (Function.update s.thread t none t').isSome = true →
      Function.update s.thread t none t' = s.thread t' ∧ (s.thread t').isSome = true := by
    intro t' ht'
    by_cases heq : t' = t
    · simp [heq] at ht'
    · simpa [heq] using ht'
  refine ⟨h.live_eq, fun t' ht' k => ?_, h.entries, h.unique, fun t' ht' hcase => ?_, fun hth t1 t2 ht1 ht2 => ?_,
    fun t' => ?_, h.nodup_list.erase t, h.capacity⟩
  · obtain ⟨hsame, hsome⟩ := hother t' ht'
    rw [← h.stored_eq t' hsome]
    exact stored_congr (by simp only [hsame]) (by rfl) k
  · obtain ⟨hsame, hsome⟩ := hother t' ht'
    obtain ⟨th, tsd, hth, htsd⟩ := h.attached t' hsome hcase
    exact ⟨th, tsd, hsame.trans hth, htsd⟩
  · exact h.single hth t1 t2 (hother t1 ht1).2 (hother t2 ht2).2
  · rw [h.nodup_list.mem_erase_iff, h.mem_list]
    by_cases heq : t' = t <;> simp [heq]

/-- **A turn of `__pthread_tsd_run_dtors`** takes away the value of one key, or none. -/
theorem runDtors_spec (h : Inv s a) {th : Thread} (hth : s.thread self = some th) :
    ∃ r s', runDtors self th s = some (r, s') ∧ a.Allows (.turn self) r ∧
      Inv s' (a.next (.turn self) r) := by
  have hself : (s.thread self).isSome = true := by rw [hth]; rfl
  unfold runDtors
  split
  · -- between two passes
    split
    · exact ⟨.done, _, rfl, rfl, h.modify self fun _ => rfl⟩
    · split
      · exact ⟨.done, _, rfl, rfl, h.exit self⟩
      · exact ⟨.done, _, rfl, rfl, h.modify self fun _ => rfl⟩
  · rename_i j i hphase
    split
    · exact ⟨.done, _, rfl, rfl, h.modify self fun _ => rfl⟩
    · rename_i hlt
      have hne : s.keys ≠ [] := by
        intro hnil
        rw [hnil] at hlt
        exact hlt (Nat.zero_le _)
      have hattached := h.attached self hself (Or.inl hne)
      have hget := h.tsdGet_eq hself i
      obtain ⟨s1, hset, hok⟩ := tsdSetLocked_spec hattached h.unique i 0
      have hinv := h.set hok fun hv => absurd rfl hv
      simp only [hget, hset, some_bind]
      split
      · exact ⟨.taken i (a.get self i), _, rfl, rfl, hinv.modify self fun _ => rfl⟩
      · exact ⟨.taken i (a.get self i), _, rfl, rfl, hinv.modify self fun _ => rfl⟩
  · exact ⟨.done, s, rfl, rfl, h⟩

theorem isSome_of_inProgram (h : s.inProgram t = true) : (s.thread t).isSome = true := by
  unfold State.inProgram at h
  split at h
  · rename_i th hth
    rw [hth]
    rfl
  · exact absurd h (by decide)

/-- **One step**: no null pointer is followed, the reply is one the map allows, and if the step is clean
the library stores the map again. -/
theorem inv_step (arch : Arch) (h : Inv s a) {e : Event} (henabled : s.enabled e = true) :
    ∃ r s', step arch s e = some (r, s') ∧ a.Allows e r ∧ (Clean s e → Inv s' (a.next e r)) := by
  cases e with
  | keyCreate self dtor =>
    have hself := isSome_of_inProgram henabled
    rcases keyCreate_spec arch self dtor h.capacity with ⟨k, s', hrun, hok⟩ | ⟨s', hrun, hkeys, hne, hrest⟩
    · refine ⟨.key k, s', by simp only [step, hrun], ?_, fun _ => h.keyCreate hself hok⟩
      exact (h.live_eq k).symm.trans hok.key_free
    · refine ⟨.status EAGAIN, s', by simp only [step, hrun], rfl, fun _ => ?_⟩
      -- all that has changed is that `self` has its array
      have hframe : s' = s.modify self Thread.attach := by
        rw [hrest, hkeys]
        rfl
      rw [hframe]
      exact h.attach hself hne
  | keyDelete self k =>
    by_cases hk : a.live k = true
    · obtain ⟨s', hrun, hinv⟩ := h.keyDelete hk
      refine ⟨.status 0, s', by simp [step, hrun], ?_, fun _ => hinv⟩
      simp [Spec.Allows, hk]
    · have huse : ¬inUse s.keys k = true := by rwa [h.live_eq]
      refine ⟨.status EINVAL, s, by simp [step, Tsd.keyDelete, huse], ?_, fun _ => h⟩
      simp [Spec.Allows, hk]
  | set self k v =>
    have hself := isSome_of_inProgram henabled
    by_cases hk : a.live k = true
    · have huse : inUse s.keys k = true := by rwa [h.live_eq]
      obtain ⟨s1, hset, hok⟩ := tsdSetLocked_spec (h.attached_of_live hself hk) h.unique k v
      have hinv := h.set hok fun _ => hk
      refine ⟨.status 0, if v ≠ 0 then s1.modify self fun th => { th with tsdUsed := true } else s1,
        by simp [step, tsdSet, huse, hset], ?_, fun _ => ?_⟩
      · simp [Spec.Allows, hk]
      · split
        · exact hinv.modify self fun _ => rfl
        · exact hinv
    · have huse : ¬inUse s.keys k = true := by rwa [h.live_eq]
      refine ⟨.status EINVAL, s, by simp [step, tsdSet, huse], ?_, fun _ => h⟩
      simp [Spec.Allows, hk]
  | get self k =>
    have hself := isSome_of_inProgram henabled
    refine ⟨.value (a.get self k), s, ?_, rfl, fun _ => h⟩
    simp [step, h.tsdGet_eq hself k]
  | create self new =>
    simp only [State.enabled, decide_eq_true_eq] at henabled
    obtain ⟨hprog, -, hnew⟩ := henabled
    refine ⟨.done, _, rfl, rfl, fun hclean => ?_⟩
    have hlist : (if s.threaded then s else s.modify self Thread.attach).list = s.list := by
      split <;> rfl
    rw [hlist]
    refine h.create (isSome_of_inProgram hprog) hnew fun k => ?_
    rw [lookup_of_not_mem fun e he hc => hclean e he hc.1, ite_self]
  | finish self exits =>
    exact ⟨.done, _, rfl, rfl, fun _ => h.modify self fun _ => rfl⟩
  | turn self =>
    simp only [State.enabled, decide_eq_true_eq] at henabled
    obtain ⟨th, hth⟩ := Option.isSome_iff_exists.mp henabled.1
    obtain ⟨r, s', hrun, hallows, hinv⟩ := runDtors_spec h hth
    exact ⟨r, s', by simp [step, hth, hrun], hallows, fun _ => hinv⟩
  | dtorReturn self =>
    refine ⟨.done, _, rfl, rfl, fun _ => h.modify self fun th => ?_⟩
    split <;> rfl

theorem inv_init (main : ℕ) : Inv (State.init main) Spec.init := by
  have hthread : ∀ t, ((State.init main).thread t).isSome = true ↔ t = main := by
    intro t
    by_cases ht : t = main
    · simp [State.init, ht]
    · simp [State.init, ht]
  refine ⟨fun _ => rfl, ?_, by simp [State.init], by simp [State.init, Unique], ?_, ?_, ?_,
    by simp [State.init], Nat.two_pow_pos 32⟩
  · intro t ht k
    rw [(hthread t).mp ht]
    unfold stored
    split
    · simp [State.init, Spec.get, Spec.init]
    · rfl
  · intro t _ hcase
    simp [State.init] at hcase
  · intro _ t t' ht ht'
    rw [(hthread t).mp ht, (hthread t').mp ht']
  · intro t
    rw [hthread]
    simp [State.init]

/-- **Whole runs** of clean steps. -/
theorem Reachable.inv {arch : Arch} {main : ℕ} (h : Reachable arch main s a) : Inv s a := by
  induction h with
  | init => exact inv_init main
  | step _ e henabled hclean hstep ih =>
    obtain ⟨r, s', hstep', -, hinv⟩ := inv_step arch ih henabled
    cases hstep.symm.trans hstep'
    exact hinv hclean

end Steps

/-- **Thread-specific data is a map.** In every run in which no thread is created at an address that
`extended_values` still names: the keys in use are those created and not deleted since; what a thread
reads under a key in use is the value it set last, or null if it has set none since it and the key were
created; and every call returns what the map allows, a new key being one that is not in use. -/
theorem tsd_refines_map {arch : Arch} {main : ℕ} {s : State} {a : Spec} (h : Reachable arch main s a) :
    (∀ k, inUse s.keys k = a.live k) ∧
      (∀ t k, (s.thread t).isSome → a.live k = true → tsdGet t k s = some (a.value t k)) ∧
      ∀ e, s.enabled e = true → ∃ r s', step arch s e = some (r, s') ∧ a.Allows e r := by
  have hinv := h.inv
  refine ⟨hinv.live_eq, fun t k ht hk => ?_, fun e he => ?_⟩
  · rw [hinv.tsdGet_eq ht k, Spec.get, if_pos hk]
  · obtain ⟨r, s', hstep, hallows, -⟩ := inv_step arch hinv he
    exact ⟨r, s', hstep, hallows⟩

/-- A key, and a value under it. -/
theorem tsd_refines_map_one_key :
    ∃ s a, Reachable .i386 1 s a ∧ tsdGet 1 0 s = some 7 := by
  have h1 : Reachable .i386 1 _ _ := Reachable.init.step (.keyCreate 1 none) rfl trivial rfl
  have h2 : Reachable .i386 1 _ _ := h1.step (.set 1 0 7) rfl trivial rfl
  exact ⟨_, _, h2, (tsd_refines_map h2).2.1 1 0 rfl rfl⟩

/-! ## A stale value -/

/-- Events one after another, each of them enabled; the state and the map they lead to. -/
def run (arch : Arch) : State → Spec → List Event → Option (State × Spec)
  | s, a, [] => some (s, a)
  | s, a, e :: es =>
    if s.enabled e then do
      let (r, s') ← step arch s e
      run arch s' (a.next e r) es
    else none

/-- A pass of `__pthread_tsd_run_dtors` in the thread 2 over a table of 16 keys; the destructor of the
key 8 sets the value again. -/
def stalePass : List Event :=
  List.replicate 10 (.turn 2) ++ [.set 2 8 5, .dtorReturn 2] ++ List.replicate 8 (.turn 2)

/-- The thread 1 creates nine keys, the last one with a destructor, and the thread 2; that one sets a
value under the last key and exits, and another thread is then created at its address. -/
def staleRun : List Event :=
  List.replicate 8 (.keyCreate 1 none) ++
    [.keyCreate 1 (some 100), .create 1 2, .set 2 8 5, .finish 2 true] ++
    stalePass ++ stalePass ++ stalePass ++ stalePass ++ [.turn 2, .create 1 2]

/-- **The new thread reads a value it never set**: the key 8 is in use, the thread 2 has set nothing since
it was created, and reads 5. -/
theorem stale_value :
    (run .x86_64 (State.init 1) Spec.init staleRun).map
        (fun p => (tsdGet 2 8 p.1, p.2.live 8, p.2.value 2 8)) = some (some 5, true, 0) := by
  decide +kernel

end Leblibc.Tsd
