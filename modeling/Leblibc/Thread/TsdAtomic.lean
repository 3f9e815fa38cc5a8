import Leblibc.Thread.TsdMap
import Leblibc.Thread.TsdTable

/-!
# Failed key operations are atomic

As long as the first table can be allocated whenever one is needed, `keys` points to a table of `keys_capacity` entries
or `keys_capacity` is 0; then the process with failing allocations does what the one of `Tsd` does, or reports an error
and leaves keys and values as they were. Where the first table cannot be allocated, `keys_capacity` is 1 and `keys` is
null, and the next operation follows the null pointer.

## Main results

* `Process.step_refines`: a step is a step of `Tsd`, or an error that changes nothing
* `Process.failed_operations_atomic`: when errors are atomic
-/

namespace Leblibc.Tsd

open List Option

variable {s : State} {o : Outcomes} {t k v e self : ℕ} {r : Reply} {a : Spec}

namespace Process

/-- `keys` is a table of `keys_capacity` entries, or there is none. -/
def Table (p : Process) : Prop :=
  (p.capacity = 0 ∧ p.keys = none) ∨ ∃ keys, p.keys = some keys ∧ keys.length = p.capacity ∧ 0 < p.capacity

/-- The two states have the same keys and values. -/
structure Same (p p' : Process) : Prop where
  keys : p'.keys = p.keys
  capacity : p'.capacity = p.capacity
  nextKey : p'.nextKey = p.nextKey
  stored : ∀ t k, stored p'.state t k = stored p.state t k

/-- If the event needs a first table, then it is allocated. -/
def Allocates (p : Process) (o : Outcomes) : Event → Prop
  | .keyCreate _ _ => p.capacity ≠ 0 ∨ o.calloc = true
  | _ => True

/-- The states that runs lead to, in which the first table is always allocated. -/
inductive Reached (arch : Arch) (main : ℕ) : Process → Prop where
  | init : Reached arch main (init main)
  | step {p p' : Process} {r : Reply} (h : Reached arch main p) (e : Event) (o : Outcomes)
      (henabled : p.state.enabled e) (hallocates : p.Allocates o e) (hstep : p.step arch o e = some (r, p')) :
      Reached arch main p'
  | fork {p : Process} (h : Reached arch main p) (self : ℕ) (locks : Bool) (hself : p.state.inProgram self) :
      Reached arch main (p.fork self locks)

variable {p : Process}

/-! ## The table -/

theorem Table.length (h : p.Table) : p.state.keys.length = p.capacity := by
  rcases h with ⟨hzero, hnull⟩ | ⟨keys, hkeys, hlen, -⟩
  · rw [state, hnull, hzero]
    rfl
  · rw [state, hkeys]
    exact hlen

theorem Table.read (h : p.Table) {i : ℕ} (hi : i < p.capacity) :
    ∃ d, p.read i = some d ∧ p.state.keys[i]? = some d ∧ d.isSome = inUse p.state.keys i := by
  rcases h with ⟨hzero, -⟩ | ⟨keys, hkeys, hlen, -⟩
  · omega
  · have hget : keys[i]? = some keys[i] := getElem?_eq_getElem (by omega)
    have hread : p.read i = keys[i]? := by rw [Process.read, hkeys, bind_some]
    have hstate : p.state.keys = keys := by rw [state, hkeys, getD_some]
    rw [hstate]
    refine ⟨keys[i], hread.trans hget, hget, ?_⟩
    rw [inUse, hget, join_some]

theorem Table.live (h : p.Table) (k : ℕ) : p.live k = some (inUse p.state.keys k) := by
  unfold Process.live
  split_ifs with hk
  · obtain ⟨d, hread, -, hd⟩ := h.read hk
    rw [hread, map_some, hd]
  · have hnone : p.state.keys[k]? = none := getElem?_eq_none (by rw [h.length]; omega)
    rw [inUse, hnone]
    rfl

theorem Table.scan (h : p.Table) (n : ℕ) : ∀ index, index + n ≤ p.capacity →
    p.scan n index = some (Tsd.scan p.state.keys n index) := by
  induction n with
  | zero => exact fun _ _ => rfl
  | succ n ih =>
    intro index hle
    obtain ⟨d, hread, -, hd⟩ := h.read (show index < p.capacity by omega)
    unfold Process.scan Tsd.scan
    rw [hread, some_bind, hd]
    split
    · exact ih (index + 1) (by omega)
    · rfl

theorem Table.searchEnd (h : p.Table) {start : ℕ} (hstart : start < p.capacity) (index : ℕ) :
    p.searchEnd start index =
      some (if index = start ∧ inUse p.state.keys index then p.state.keys.length else index) := by
  unfold Process.searchEnd
  by_cases heq : index = start
  · obtain ⟨d, hread, -, hd⟩ := h.read (show index < p.capacity by omega)
    simp [heq ▸ hread, heq, hd, h.length]
  · simp [heq]

theorem Table.searchFree (h : p.Table) (hpos : 0 < p.capacity) :
    p.searchFree = some (Tsd.searchFree p.state.keys p.nextKey) := by
  unfold Process.searchFree Tsd.searchFree
  rw [← h.length] at hpos ⊢
  generalize hstart : (if p.nextKey < p.state.keys.length then p.nextKey else 0) = start
  have hlt : start < p.state.keys.length := by
    rw [← hstart]
    split <;> omega
  have hlen := h.length
  dsimp only
  rw [h.scan _ start (by omega), some_bind]
  by_cases hend : Tsd.scan p.state.keys (p.state.keys.length - start) start = p.state.keys.length
  · rw [if_pos hend, if_pos hend, h.scan start 0 (by omega)]
    exact h.searchEnd (by omega) _
  · rw [if_neg hend, if_neg hend]
    exact h.searchEnd (by omega) _

theorem Table.active (h : p.Table) (n : ℕ) : ∀ index, index + n = p.capacity →
    p.active n index = some ((p.state.keys.drop index).any Option.isSome) := by
  induction n with
  | zero =>
    intro index hle
    rw [drop_eq_nil_of_le (by rw [h.length]; omega)]
    rfl
  | succ n ih =>
    intro index hle
    have hlt : index < p.state.keys.length := by
      rw [h.length]
      omega
    obtain ⟨d, hread, hget, -⟩ := h.read (show index < p.capacity by omega)
    rw [getElem?_eq_getElem hlt] at hget
    unfold Process.active
    rw [hread, some_bind, drop_eq_getElem_cons hlt, some.inj hget, any_cons]
    rcases hd : d.isSome with _ | _
    · rw [if_neg Bool.false_ne_true, ih (index + 1) (by omega), Bool.false_or]
    · rw [if_pos rfl, Bool.true_or]

/-! ## The functions -/

theorem state_withState (p : Process) (hkeys : s.keys = p.state.keys) (hnext : s.nextKey = p.nextKey) :
    (p.withState s).state = s := by
  obtain ⟨keys, nextKey, extended, thread, list, threaded⟩ := s
  cases hkeys
  cases hnext
  rfl

theorem state_modify (p : Process) (t : ℕ) (f : Thread → Thread) : (p.modify t f).state = p.state.modify t f := rfl

theorem Table.withState (h : p.Table) (s : State) : (p.withState s).Table := h

/-- **The end of `__pthread_key_create`.** -/
theorem Table.assign (h : p.Table) (d : Dtor) {index : ℕ} (hindex : index < p.capacity) :
    ∃ p', p.assign d index = some (some (index % 2 ^ 32), p') ∧ p'.Table ∧ p'.state =
      { p.state with
        keys := p.state.keys.set index (some d)
        nextKey := (if index + 1 < p.state.keys.length then index + 1 else 0) % 2 ^ 32 } := by
  rw [h.length]
  rcases h with ⟨hzero, -⟩ | ⟨keys, hkeys, hlen, hpos⟩
  · omega
  · unfold Process.assign
    rw [hkeys, some_bind, if_pos (by omega)]
    refine ⟨_, rfl, .inr ⟨_, rfl, ?_, hpos⟩, ?_⟩
    · rw [length_set, hlen]
    · simp only [state, hkeys, getD_some]

theorem Table.resized (h : p.Table) (hpos : 0 < p.capacity) :
    p.resized.Table ∧ p.capacity < p.resized.capacity ∧
      p.resized.state = { p.state with keys := p.state.keys ++ List.replicate p.state.keys.length none } := by
  rcases h with ⟨hzero, -⟩ | ⟨keys, hkeys, hlen, -⟩
  · omega
  · have hcap : p.capacity * 2 - p.capacity = p.capacity := by omega
    refine ⟨.inr ⟨_, by rw [Process.resized, hkeys, map_some], ?_, ?_⟩, ?_, ?_⟩
    · rw [length_append, length_replicate]
      show _ = p.capacity * 2
      omega
    · show 0 < p.capacity * 2
      omega
    · show p.capacity < p.capacity * 2
      omega
    · simp only [state, Process.resized, hkeys, map_some, getD_some, hcap, hlen]

/-- `__pthread_key_create` from the search on, in `Tsd`. -/
def insertState (arch : Arch) (d : Dtor) (s : State) : Option ℕ × State :=
  let index := Tsd.searchFree s.keys s.nextKey
  if index = s.keys.length then
    if s.keys.length > (2 ^ 32 - 1) / 2 ∨ s.keys.length * 2 > arch.sizeMax / arch.ptrSize then (none, s)
    else
      let keys := s.keys ++ List.replicate s.keys.length none
      (some (index % 2 ^ 32),
        { s with
          keys := keys.set index (some d)
          nextKey := (if index + 1 < keys.length then index + 1 else 0) % 2 ^ 32 })
  else
    (some (index % 2 ^ 32),
      { s with
        keys := s.keys.set index (some d)
        nextKey := (if index + 1 < s.keys.length then index + 1 else 0) % 2 ^ 32 })

/-- **`__pthread_key_create` from the search on** stores the key, or reports an error and changes nothing. -/
theorem Table.insert (h : p.Table) (hpos : 0 < p.capacity) (arch : Arch) (d : Dtor) (realloc : Bool) :
    ∃ r p', p.insert arch d realloc = some (r, p') ∧ p'.Table ∧
      ((r ≠ none ∧ (r, p'.state) = insertState arch d p.state) ∨
        r = none ∧ p' = p ∧ Tsd.searchFree p.state.keys p.nextKey = p.capacity) := by
  have hle := (searchFree_spec p.state.keys p.nextKey).1
  have hlength := h.length
  rw [hlength] at hle
  unfold Process.insert insertState
  rw [h.searchFree hpos, some_bind]
  by_cases hend : Tsd.searchFree p.state.keys p.nextKey = p.capacity
  · rw [if_pos hend]
    by_cases hlimit : p.capacity > (2 ^ 32 - 1) / 2 ∨ p.capacity * 2 > arch.sizeMax / arch.ptrSize
    · rw [if_pos hlimit]
      exact ⟨none, p, rfl, h, .inr ⟨rfl, rfl, hend⟩⟩
    · rw [if_neg hlimit]
      cases realloc with
      | false => exact ⟨none, p, rfl, h, .inr ⟨rfl, rfl, hend⟩⟩
      | true =>
        obtain ⟨htable, hlt, hstate⟩ := h.resized hpos
        obtain ⟨p', hassign, htable', hstate'⟩ := htable.assign d hlt
        refine ⟨_, p', hassign, htable', .inl ⟨some_ne_none _, ?_⟩⟩
        have hindex : Tsd.searchFree p.state.keys p.state.nextKey = p.capacity := hend
        rw [hstate', hstate, hlength, hindex]
        exact ((if_pos rfl).trans (if_neg hlimit)).symm
  · rw [if_neg hend]
    obtain ⟨p', hassign, htable', hstate'⟩ := h.assign d (lt_of_le_of_ne hle hend)
    refine ⟨_, p', hassign, htable', .inl ⟨some_ne_none _, ?_⟩⟩
    rw [hstate', hlength]
    exact (if_neg hend).symm

theorem searchFree_new (nextKey : ℕ) : Tsd.searchFree [none] nextKey = 0 := by
  have hstart : (if nextKey < 1 then nextKey else 0) = 0 := by
    split <;> omega
  unfold Tsd.searchFree
  rw [length_singleton, hstart]
  rfl

/-- The same keys and values, where only `self` got its array. -/
theorem same_attach (p : Process) (self : ℕ) : p.Same (p.modify self Thread.attach) :=
  ⟨rfl, rfl, rfl, stored_attach p.state self⟩

/-- **`__pthread_key_create`**, where the first table is allocated. -/
theorem Table.keyCreate (h : p.Table) (arch : Arch) (self : ℕ) (dtor : Option ℕ)
    (hcalloc : p.capacity ≠ 0 ∨ o.calloc = true) :
    ∃ r p', p.keyCreate arch self dtor o = some (r, p') ∧ p'.Table ∧
      ((r ≠ none ∧ (r, p'.state) = Tsd.keyCreate arch self dtor p.state) ∨
        r = none ∧ p.capacity ≠ 0 ∧ p' = p.modify self Thread.attach) := by
  have hlength := h.length
  by_cases hzero : p.capacity = 0
  · have hstate : ({ p.modify self Thread.attach with capacity := 1, keys := some [none] } : Process).state =
        { p.state.modify self Thread.attach with
          keys := if p.state.keys.length = 0 then [none] else p.state.keys } := by
      rw [if_pos (hlength.trans hzero)]
      rfl
    have htable : ({ p.modify self Thread.attach with capacity := 1, keys := some [none] } : Process).Table :=
      .inr ⟨[none], rfl, rfl, Nat.one_pos⟩
    obtain ⟨r, p', hinsert, htable', hcase⟩ := htable.insert Nat.one_pos arch (Dtor.ofArg dtor) o.realloc
    refine ⟨r, p', ?_, htable', ?_⟩
    · exact (if_pos hzero).trans ((if_pos (hcalloc.resolve_left (not_not_intro hzero))).trans hinsert)
    · rw [hstate] at hcase
      refine hcase.imp id fun hnone => ?_
      have hfull := hnone.2.2
      rw [hlength, hzero] at hfull
      exact absurd ((searchFree_new p.nextKey).symm.trans hfull) Nat.zero_ne_one
  · have hstate : (p.modify self Thread.attach).state =
        { p.state.modify self Thread.attach with
          keys := if p.state.keys.length = 0 then [none] else p.state.keys } := by
      rw [if_neg (by rwa [hlength])]
      rfl
    have htable : (p.modify self Thread.attach).Table := h
    obtain ⟨r, p', hinsert, htable', hcase⟩ :=
      htable.insert (Nat.pos_of_ne_zero hzero) arch (Dtor.ofArg dtor) o.realloc
    rw [hstate] at hcase
    exact ⟨r, p', (if_neg hzero).trans hinsert, htable', hcase.imp id fun hnone => ⟨hnone.1, hzero, hnone.2.1⟩⟩

/-- **`tsd_set_locked`** sets the value, or reports an error and changes nothing. -/
theorem tsdSetLocked_refines (p : Process) (malloc : Bool) (t k v : ℕ) (hs : Tsd.tsdSetLocked t k v p.state = some s) :
    (p.tsdSetLocked malloc t k v = some (0, p.withState s) ∧ s.keys = p.state.keys ∧ s.nextKey = p.nextKey) ∨
      (p.tsdSetLocked malloc t k v = some (ENOMEM, p) ∧ v ≠ 0) := by
  unfold Tsd.tsdSetLocked at hs
  unfold Process.tsdSetLocked
  by_cases hk : k < INLINE_KEYS
  · rw [if_pos hk] at hs ⊢
    obtain ⟨th, hth, hs⟩ := Option.bind_eq_some_iff.mp hs
    obtain ⟨tsd, htsd, hs⟩ := Option.bind_eq_some_iff.mp hs
    have hth' : p.thread t = some th := hth
    cases hs
    rw [hth', some_bind, htsd]
    exact .inl ⟨rfl, rfl, rfl⟩
  · rw [if_neg hk] at hs ⊢
    have hext : p.state.extended = p.extended := rfl
    rw [hext] at hs
    cases hfind : findExtended t k p.extended with
    | some e =>
      rw [hfind] at hs
      dsimp only at hs ⊢
      split_ifs at hs ⊢
      all_goals
        cases hs
        exact .inl ⟨rfl, rfl, rfl⟩
    | none =>
      rw [hfind] at hs
      dsimp only at hs ⊢
      by_cases hv : v = 0
      · rw [if_pos hv] at hs ⊢
        cases hs
        exact .inl ⟨rfl, rfl, rfl⟩
      · rw [if_neg hv] at hs ⊢
        cases hs
        cases malloc with
        | true => exact .inl ⟨rfl, rfl, rfl⟩
        | false => exact .inr ⟨rfl, hv⟩

/-- **`__pthread_tsd_set`.** -/
theorem Table.tsdSet (h : p.Table) (malloc : Bool) (hs : Tsd.tsdSet t k v p.state = some (e, s)) :
    ∃ e' p', p.tsdSet malloc t k v = some (e', p') ∧ p'.Table ∧ (e' = e ∧ p'.state = s ∨ e' = ENOMEM ∧ p' = p) := by
  unfold Tsd.tsdSet at hs
  unfold Process.tsdSet
  rw [h.live, some_bind]
  cases huse : inUse p.state.keys k with
  | true =>
    rw [huse] at hs
    obtain ⟨s1, hset, hs⟩ := Option.bind_eq_some_iff.mp hs
    cases hs
    rcases p.tsdSetLocked_refines malloc t k v hset with ⟨hrun, hkeys, hnext⟩ | ⟨hrun, hv⟩
    · have hstate := p.state_withState hkeys hnext
      rw [hrun]
      refine ⟨0, _, rfl, ?_, .inl ⟨rfl, ?_⟩⟩
      · split <;> exact h
      · by_cases hv : v = 0 <;> simp [hv, state_modify, hstate]
    · rw [hrun]
      exact ⟨ENOMEM, p, rfl, h, .inr ⟨rfl, rfl⟩⟩
  | false =>
    rw [huse] at hs
    cases hs
    exact ⟨EINVAL, p, rfl, h, .inl ⟨rfl, rfl⟩⟩

theorem clearInline_keys (k : ℕ) (l : List ℕ) : ∀ {s s' : State}, clearInline k l s = some s' →
    s'.keys = s.keys ∧ s'.nextKey = s.nextKey := by
  induction l with
  | nil =>
    intro s s' h
    cases h
    exact ⟨rfl, rfl⟩
  | cons t l ih =>
    intro s s' h
    obtain ⟨th, -, h⟩ := Option.bind_eq_some_iff.mp h
    obtain ⟨tsd, -, h⟩ := Option.bind_eq_some_iff.mp h
    obtain ⟨hkeys, hnext⟩ := ih h
    exact ⟨hkeys, hnext⟩

theorem clearValues_keys {s' : State} (h : clearValues k s = some s') :
    s'.keys = s.keys ∧ s'.nextKey = s.nextKey := by
  unfold clearValues at h
  split at h
  · exact clearInline_keys k _ h
  · cases h
    exact ⟨rfl, rfl⟩

theorem Table.removed (h : p.Table) (hk : k < p.capacity) :
    (p.removed k).Table ∧ (p.removed k).state = { p.state with keys := p.state.keys.set k none } := by
  rcases h with ⟨hzero, -⟩ | ⟨keys, hkeys, hlen, hpos⟩
  · omega
  · refine ⟨.inr ⟨keys.set k none, ?_, ?_, hpos⟩, ?_⟩
    · rw [Process.removed, hkeys, map_some]
    · rw [length_set]
      exact hlen
    · simp only [state, Process.removed, hkeys, map_some, getD_some]

/-- **`__pthread_key_delete`.** -/
theorem Table.keyDelete (h : p.Table) (hs : Tsd.keyDelete k p.state = some (e, s)) :
    ∃ p', p.keyDelete k = some (e, p') ∧ p'.Table ∧ p'.state = s := by
  unfold Tsd.keyDelete at hs
  unfold Process.keyDelete
  rw [h.live, some_bind]
  by_cases huse : inUse p.state.keys k = true
  · rw [if_neg (not_not_intro huse)] at hs
    rw [if_pos huse]
    obtain ⟨s1, hclear, hs⟩ := Option.bind_eq_some_iff.mp hs
    obtain ⟨hkeys, hnext⟩ := clearValues_keys hclear
    have hlt : k < p.capacity := h.length ▸ lt_length_of_inUse huse
    obtain ⟨htable, hremoved⟩ := (h.withState s1).removed (show k < (p.withState s1).capacity from hlt)
    rw [p.state_withState hkeys hnext] at hremoved
    have hactive := htable.active (p.withState s1).capacity 0 (Nat.zero_add _)
    rw [hremoved, drop_zero] at hactive
    rw [hclear, some_bind]
    dsimp only
    rw [show ((p.withState s1).removed k).capacity = (p.withState s1).capacity from rfl, hactive]
    by_cases hany : (s1.keys.set k none).any Option.isSome = true
    · rw [if_pos hany] at hs
      cases hs
      exact ⟨_, rfl, by rwa [if_pos hany], by rw [if_pos hany, hremoved]⟩
    · rw [if_neg hany] at hs
      cases hs
      exact ⟨_, rfl, by rw [if_neg hany]; exact .inl ⟨rfl, rfl⟩, by rw [if_neg hany]; rfl⟩
  · rw [if_pos huse] at hs
    rw [if_neg huse]
    cases hs
    exact ⟨p, rfl, h, rfl⟩

theorem runDtors_keys {th : Thread} {s' : State} (hphase : ∀ j i, th.phase ≠ .key j i)
    (h : Tsd.runDtors self th s = some (r, s')) : s'.keys = s.keys ∧ s'.nextKey = s.nextKey := by
  unfold Tsd.runDtors at h
  split at h
  · split_ifs at h
    all_goals
      cases h
      exact ⟨rfl, rfl⟩
  · next j i hkey => exact absurd hkey (hphase j i)
  · cases h
    exact ⟨rfl, rfl⟩

/-- **A turn of `__pthread_tsd_run_dtors`.** -/
theorem Table.runDtors (h : p.Table) {th : Thread} (hs : Tsd.runDtors self th p.state = some (r, s)) :
    ∃ p', p.runDtors self th = some (r, p') ∧ p'.Table ∧ p'.state = s := by
  unfold Process.runDtors
  cases hphase : th.phase with
  | key j i =>
    unfold Tsd.runDtors at hs
    rw [hphase] at hs
    dsimp only at hs ⊢
    rw [h.length] at hs
    split_ifs at hs ⊢ with hi
    · cases hs
      exact ⟨_, rfl, h, rfl⟩
    · obtain ⟨d, hread, hget, hd⟩ := h.read (Nat.not_le.mp hi)
      obtain ⟨val, hval, hs⟩ := Option.bind_eq_some_iff.mp hs
      obtain ⟨s1, hset, hs⟩ := Option.bind_eq_some_iff.mp hs
      have hval' : p.valueOf self i d = some val := by
        rw [valueOf, hd]
        exact hval
      -- a null value is never allocated
      rcases p.tsdSetLocked_refines false self i 0 hset with ⟨hrun, hkeys, hnext⟩ | ⟨-, hv⟩
      · have hstate := p.state_withState hkeys hnext
        rw [hget, join_some] at hs
        rw [hread, some_bind, hval', some_bind, hrun, some_bind]
        split_ifs at hs ⊢ with hcall
        · cases hs
          exact ⟨_, rfl, h, by rw [state_modify, hstate]⟩
        · cases hs
          exact ⟨_, rfl, h, by rw [state_modify, hstate]⟩
      · exact absurd rfl hv
  | _ =>
    obtain ⟨hkeys, hnext⟩ := runDtors_keys (by rw [hphase]; exact fun j i h => by cases h) hs
    rw [hs]
    exact ⟨_, rfl, h, p.state_withState hkeys hnext⟩

theorem step_keyCreate (arch : Arch) (self : ℕ) (dtor : Option ℕ) (s : State) :
    Tsd.step arch s (.keyCreate self dtor) =
      some (keyReply (Tsd.keyCreate arch self dtor s).1, (Tsd.keyCreate arch self dtor s).2) := by
  unfold Tsd.step
  dsimp only
  rcases Tsd.keyCreate arch self dtor s with ⟨_ | k, s'⟩
  · rfl
  · rfl

/-- **A step** is a step of `Tsd`, or an error that changes no key and no value. -/
theorem Table.step_refines (h : p.Table) {arch : Arch} {e : Event} (hallocates : p.Allocates o e)
    (hs : Tsd.step arch p.state e = some (r, s)) :
    ∃ r' p', p.step arch o e = some (r', p') ∧ p'.Table ∧
      (p'.state = s ∨ p' = p ∨ ∃ self dtor, e = .keyCreate self dtor ∧ p.capacity ≠ 0 ∧
        p' = p.modify self Thread.attach) := by
  cases e with
  | keyCreate self dtor =>
    obtain ⟨r', p', hrun, htable, hcase⟩ := h.keyCreate arch self dtor hallocates
    refine ⟨_, p', by rw [step, hrun, map_some], htable, ?_⟩
    rcases hcase with ⟨-, heq⟩ | ⟨-, hne, heq⟩
    · rw [step_keyCreate, ← heq] at hs
      cases hs
      exact .inl rfl
    · exact .inr (.inr ⟨self, dtor, rfl, hne, heq⟩)
  | keyDelete self k =>
    obtain ⟨⟨e, s1⟩, hrun, hs⟩ := Option.bind_eq_some_iff.mp hs
    cases hs
    obtain ⟨p', hrun', htable, hstate⟩ := h.keyDelete hrun
    exact ⟨_, p', by rw [step, hrun', map_some], htable, .inl hstate⟩
  | set self k v =>
    obtain ⟨⟨e, s1⟩, hrun, hs⟩ := Option.bind_eq_some_iff.mp hs
    cases hs
    obtain ⟨e', p', hrun', htable, hcase⟩ := h.tsdSet o.malloc hrun
    refine ⟨_, p', by rw [step, hrun', map_some], htable, ?_⟩
    rcases hcase with ⟨-, hstate⟩ | ⟨-, heq⟩
    · exact .inl hstate
    · exact .inr (.inl heq)
  | get self k =>
    obtain ⟨v, hrun, hs⟩ := Option.bind_eq_some_iff.mp hs
    cases hs
    have hget : p.tsdGet self k = some v := by
      rw [Process.tsdGet, h.live]
      exact hrun
    exact ⟨_, p, by rw [step, hget, map_some], h, .inl rfl⟩
  | turn self =>
    obtain ⟨th, hth, hrun⟩ := Option.bind_eq_some_iff.mp hs
    obtain ⟨p', hrun', htable, hstate⟩ := h.runDtors hrun
    have hth' : p.thread self = some th := hth
    exact ⟨r, p', by rw [step, hth', bind_some, hrun'], htable, .inl hstate⟩
  | create self new =>
    cases hs
    refine ⟨_, _, rfl, h.withState _, .inl (p.state_withState ?_ ?_)⟩
    all_goals
      split <;> rfl
  | finish self exits =>
    cases hs
    exact ⟨_, _, rfl, h.withState _, .inl rfl⟩
  | dtorReturn self =>
    cases hs
    exact ⟨_, _, rfl, h.withState _, .inl rfl⟩

/-! ## Runs -/

/-- A step of `Tsd`, at whatever address a thread is created. -/
theorem exists_inv_step (arch : Arch) (h : Inv s a) {e : Event}
    (henabled : s.enabled e = true) : ∃ r s', Tsd.step arch s e = some (r, s') ∧ ∃ a', Inv s' a' := by
  obtain ⟨r, s', hstep, -, hinv⟩ := inv_step arch h henabled
  refine ⟨r, s', hstep, ?_⟩
  cases e with
  | create self new =>
    simp only [State.enabled, Bool.and_eq_true, decide_eq_true_eq] at henabled
    obtain ⟨hprog, -, hnew⟩ := henabled
    cases hstep
    have hlist : (if s.threaded then s else s.modify self Thread.attach).list = s.list := by
      split <;> rfl
    rw [hlist]
    exact ⟨_, h.create (isSome_of_inProgram hprog) hnew fun k => rfl⟩
  | _ => exact ⟨_, hinv trivial⟩

theorem lookup_filter_thread (t k : ℕ) (l : List Entry) :
    lookup t k (l.filter fun e => e.thread = t) = lookup t k l := by
  induction l with
  | nil => rfl
  | cons e l ih => by_cases ht : e.thread = t <;> simp [lookup_cons, ht, ih]

/-- **The child after `fork`.** -/
theorem inv_fork (h : Inv p.state a) (hself : (p.thread self).isSome) (locks : Bool) :
    Inv (p.fork self locks).state a := by
  have hsome {t : ℕ} (ht : ((p.fork self locks).state.thread t).isSome) : t = self := by
    by_contra hne
    have hnone : (p.fork self locks).state.thread t = none := if_neg hne
    rw [hnone] at ht
    exact Bool.false_ne_true ht
  have hthread : (p.fork self locks).state.thread self = p.state.thread self := if_pos rfl
  obtain ⟨hsub, hlookup⟩ : (p.fork self locks).state.extended.Sublist p.state.extended ∧
      ∀ k, lookup self k (p.fork self locks).state.extended = lookup self k p.state.extended := by
    cases locks with
    | true => exact ⟨filter_sublist, fun k => lookup_filter_thread self k p.extended⟩
    | false => exact ⟨Sublist.refl _, fun _ => rfl⟩
  refine ⟨h.live_eq, fun t ht k => ?_, fun e he => h.entries e (hsub.subset he),
    Nodup.sublist (hsub.map Entry.name) h.unique, fun t ht hcase => ?_,
    fun _ t t' ht ht' => (hsome ht).trans (hsome ht').symm, fun t => ?_, nodup_singleton self, h.capacity⟩
  · rw [hsome ht, ← h.stored_eq self hself]
    unfold stored
    rw [hthread, hlookup]
  · obtain ⟨th, tsd, hth, htsd⟩ := h.attached self hself hcase
    rw [hsome ht]
    exact ⟨th, tsd, hthread.trans hth, htsd⟩
  · refine ⟨fun hmem => ?_, fun ht => ?_⟩
    · rw [List.mem_singleton.mp hmem, hthread]
      exact hself
    · rw [hsome ht]
      exact mem_singleton_self self

/-- A step from a state with a table, where the first table is allocated. -/
theorem exists_step (h : p.Table) (hinv : Inv p.state a) (arch : Arch) {e : Event}
    (henabled : p.state.enabled e) (hallocates : p.Allocates o e) :
    ∃ r p', p.step arch o e = some (r, p') ∧ p'.Table ∧ ∃ a', Inv p'.state a' := by
  obtain ⟨r, s, hs, a', hinv'⟩ := exists_inv_step arch hinv henabled
  obtain ⟨r', p', hstep, htable, hcase⟩ := h.step_refines hallocates hs
  refine ⟨r', p', hstep, htable, ?_⟩
  rcases hcase with hstate | rfl | ⟨self, dtor, rfl, hne, rfl⟩
  · exact ⟨a', hstate ▸ hinv'⟩
  · exact ⟨a, hinv⟩
  · refine ⟨a, hinv.attach (isSome_of_inProgram henabled) fun hnil => hne ?_⟩
    rw [← h.length, hnil]
    rfl

/-- **Whole runs.** -/
theorem Reached.inv {arch : Arch} {main : ℕ} (h : Reached arch main p) : p.Table ∧ ∃ a, Inv p.state a := by
  induction h with
  | init => exact ⟨.inl ⟨rfl, rfl⟩, Spec.init, inv_init main⟩
  | step _ e o henabled hallocates hstep ih =>
    obtain ⟨htable, a, hinv⟩ := ih
    obtain ⟨r', p', hstep', htable', hinv'⟩ := exists_step htable hinv arch henabled hallocates
    cases hstep.symm.trans hstep'
    exact ⟨htable', hinv'⟩
  | fork _ self locks hself ih =>
    obtain ⟨htable, a, hinv⟩ := ih
    exact ⟨htable, a, inv_fork hinv (isSome_of_inProgram hself) locks⟩

theorem tsdSetLocked_error {malloc : Bool} {p' : Process}
    (h : p.tsdSetLocked malloc t k v = some (e, p')) (he : e ≠ 0) : p' = p := by
  unfold Process.tsdSetLocked at h
  split at h
  · obtain ⟨th, -, h⟩ := Option.bind_eq_some_iff.mp h
    obtain ⟨tsd, -, h⟩ := Option.bind_eq_some_iff.mp h
    cases h
    exact absurd rfl he
  · split at h <;> split_ifs at h <;> cases h
    all_goals first | rfl | exact absurd rfl he

/-- **A failed `__pthread_tsd_set`** changes nothing. -/
theorem tsdSet_error {malloc : Bool} {p' : Process} (h : p.tsdSet malloc t k v = some (e, p'))
    (he : e ≠ 0) : p' = p := by
  obtain ⟨found, -, h⟩ := Option.bind_eq_some_iff.mp h
  cases found with
  | false =>
    cases h
    rfl
  | true =>
    obtain ⟨r, hset, h⟩ := Option.bind_eq_some_iff.mp h
    cases h
    rw [if_neg fun hc => he hc.1]
    exact tsdSetLocked_error hset he

/-- **A failed `__pthread_key_create`.** -/
theorem Table.keyCreate_error (h : p.Table) (arch : Arch) (self : ℕ) (dtor : Option ℕ) (o : Outcomes) :
    (∀ p', p.keyCreate arch self dtor o = some (none, p') → p.Same p' ∧ p'.Table) ↔
      p.capacity ≠ 0 ∨ o.calloc = true := by
  refine ⟨fun hatomic => ?_, fun hcalloc p' hrun => ?_⟩
  · by_contra hno
    obtain ⟨hzero, hcalloc⟩ := not_or.mp hno
    have hzero := not_not.mp hzero
    have hrun : p.keyCreate arch self dtor o =
        some (none, { p.modify self Thread.attach with capacity := 1, keys := none }) :=
      (if_pos hzero).trans (if_neg hcalloc)
    have hcap : 1 = p.capacity := (hatomic _ hrun).1.capacity
    omega
  · obtain ⟨r, p1, hrun', htable, hcase⟩ := h.keyCreate arch self dtor hcalloc
    cases hrun.symm.trans hrun'
    rcases hcase with ⟨hne, -⟩ | ⟨-, -, rfl⟩
    · exact absurd rfl hne
    · exact ⟨p.same_attach self, htable⟩

/-- **Failed key operations are atomic.** In every run in which the first table is allocated whenever one is needed:
`keys` is a table of `keys_capacity` entries, no operation follows a null pointer or indexes outside of the table, a
failed `__pthread_tsd_set` changes nothing, and a failed `__pthread_key_create` leaves the keys and the values and a
table, exactly if it does not need a first table that it cannot allocate. -/
theorem failed_operations_atomic {arch : Arch} {main : ℕ} (h : Reached arch main p) :
    p.Table ∧
      (∀ e o, p.state.enabled e → p.Allocates o e → p.step arch o e ≠ none) ∧
      (∀ self dtor o, (∀ p', p.keyCreate arch self dtor o = some (none, p') → p.Same p' ∧ p'.Table) ↔
        p.capacity ≠ 0 ∨ o.calloc = true) ∧
      ∀ malloc t k v e p', p.tsdSet malloc t k v = some (e, p') → e ≠ 0 → p' = p := by
  obtain ⟨htable, a, hinv⟩ := h.inv
  refine ⟨htable, fun e o henabled hallocates => ?_, htable.keyCreate_error arch, fun malloc t k v e p' hrun he => ?_⟩
  · obtain ⟨r, p', hstep, -⟩ := exists_step htable hinv arch henabled hallocates
    rw [hstep]
    exact some_ne_none _
  · exact tsdSet_error hrun he

/-- One key is in use, and the table cannot grow. -/
theorem failed_operations_atomic_one_key :
    ∃ p p' : Process, Reached .x86_64 1 p ∧
      p.keyCreate .x86_64 1 none ⟨true, false, true⟩ = some (none, p') ∧ p.Same p' := by
  have h : Reached .x86_64 1 _ := Reached.init.step (.keyCreate 1 none) ⟨true, true, true⟩ rfl (.inr rfl) rfl
  obtain ⟨-, -, hcreate, -⟩ := failed_operations_atomic h
  exact ⟨_, _, h, rfl, ((hcreate 1 none ⟨true, false, true⟩).mpr (.inr rfl) _ rfl).1⟩

/-- The first table cannot be allocated: `__pthread_key_create` returns `EAGAIN` with a capacity of 1 and no table, and
the next operation follows the null pointer. -/
theorem first_table_fails :
    ∃ p : Process, (init 1).step .x86_64 ⟨false, true, true⟩ (.keyCreate 1 none) = some (.status EAGAIN, p) ∧
      p.capacity = 1 ∧ p.keys = none ∧ ∀ o, p.step .x86_64 o (.get 1 0) = none ∧
        p.step .x86_64 o (.keyCreate 1 none) = none :=
  ⟨_, rfl, rfl, rfl, fun _ => ⟨rfl, rfl⟩⟩

end Process

end Leblibc.Tsd
