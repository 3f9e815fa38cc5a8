import Leblibc.Env.EnvironOwnership

/-!
# The environment: the invariant

The invariant has two sides. The names of the strings are distinct, so that to replace or to remove one string is
to change the value of one name. And the strings that the table of `__env_rm_add` lists are strings of the
environment that the library has allocated, so that a string is freed when it leaves the environment, and a string
of the application never is.

## Main results

* `unsetenv_spec`, `clearenv_spec`, `putenvAt_spec`: what these functions do to the values of names, and that they
  keep the invariant
-/

namespace Leblibc.Env

open List Function

/-! ## Looking up names in changed lists -/

/-- No name occurs twice. -/
def Distinct (l : List (List UInt8)) : Prop :=
  l.Pairwise fun a b => nameOf a = none ∨ nameOf a ≠ nameOf b

variable {l : List (List UInt8)} {n c : List UInt8} {i : ℕ} {st : State} {s r : ℕ}

/-- The first string with a name is replaced by another one with this name. -/
theorem lookup_set (hc : nameOf c = some n) (hi : l.findIdx? (fun t => nameOf t = some n) = some i) :
    lookup (l.set i c) = Function.update (lookup l) n (some (valueOf c)) := by
  induction l generalizing i with
  | nil => cases hi
  | cons t l ih =>
    rw [findIdx?_cons] at hi
    funext name
    split at hi
    · rename_i ht
      obtain rfl := Option.some.inj hi
      have ht : nameOf t = some n := by simpa using ht
      by_cases hname : n = name
      · subst hname
        simp [lookup, hc]
      · rw [update_of_ne (Ne.symm hname)]
        simp [lookup, hc, ht, hname]
    · rename_i ht
      obtain ⟨j, hj, rfl⟩ := Option.map_eq_some_iff.mp hi
      have hrest := congrFun (ih hj) name
      by_cases hname : n = name
      · subst hname
        simpa [lookup, ht] using hrest
      · rw [update_of_ne (Ne.symm hname)] at hrest ⊢
        simp only [lookup, set_cons_succ, find?_cons] at hrest ⊢
        split
        · rfl
        · exact hrest

theorem lookup_append (hc : nameOf c = some n) (hl : ∀ t ∈ l, nameOf t ≠ some n) :
    lookup (l ++ [c]) = Function.update (lookup l) n (some (valueOf c)) := by
  funext name
  by_cases hname : n = name
  · subst hname
    have hnone : l.find? (fun t => nameOf t = some n) = none := by simpa using hl
    rw [lookup, find?_append, hnone]
    simp [hc]
  · rw [update_of_ne (Ne.symm hname)]
    simp [lookup, hc, hname]

theorem lookup_filter (l : List (List UInt8)) (n : List UInt8) :
    lookup (l.filter fun t => nameOf t ≠ some n) = Function.update (lookup l) n none := by
  funext name
  rw [lookup, find?_filter]
  by_cases hname : name = n
  · subst hname
    simp
  · rw [update_of_ne hname]
    congr 2
    funext t
    by_cases ht : nameOf t = some name <;> simp [ht, hname]

theorem Distinct.set (h : Distinct l) {t : List UInt8}
    (hi : l[i]? = some t) (hc : nameOf c = nameOf t) : Distinct (l.set i c) := by
  have hmap : ∀ l : List (List UInt8), Distinct l ↔
      (l.map nameOf).Pairwise fun a b => a = none ∨ a ≠ b := by
    intro l
    rw [Distinct, pairwise_map]
  rw [hmap] at h ⊢
  obtain ⟨hlt, rfl⟩ := List.getElem?_eq_some_iff.mp hi
  have hnames : (l.set i c).map nameOf = l.map nameOf := by
    rw [map_set, hc]
    have hself := (l.map nameOf).set_getElem_self (by simpa using hlt)
    rwa [getElem_map] at hself
  rw [hnames]
  exact h

theorem Distinct.append (h : Distinct l)
    (hc : nameOf c = some n) (hl : ∀ t ∈ l, nameOf t ≠ some n) : Distinct (l ++ [c]) := by
  refine List.pairwise_append.mpr ⟨h, pairwise_singleton _ _, ?_⟩
  intro t ht c' hc'
  rw [List.mem_singleton.mp hc', hc]
  exact .inr (hl t ht)

/-! ## The invariant -/

/-- The invariant between calls. -/
structure Inv (st : State) : Prop where
  distinct : Distinct st.texts
  nonzero : 0 ∉ st.owned
  nodup : (st.alloced.filter (· ≠ 0)).Nodup
  listed : ∀ p ∈ st.alloced, p ≠ 0 → p ∈ st.owned ∧ p ∈ st.strs
  known : ∀ p ∈ st.strs, p ∈ st.owned ∨ p ∈ st.foreign
  apart : ∀ p ∈ st.owned, p ∉ st.foreign
  named : ∀ p ∈ st.owned, p ∈ st.strs → nameOf (st.content p) ≠ none
  oldenv : st.oldenv ≠ 0 → st.oldenv ∈ st.owned ∧ st.oldenv ∉ st.strs
  frees : ∀ f ∈ st.frees, f.InOrder

theorem Inv.table (h : Inv st) : Table st where
  nodup := h.nodup
  owned p hp h0 := (h.listed p hp h0).1
  apart := h.apart

/-- A block of the library stands in the environment once. -/
theorem Inv.unique (h : Inv st) {j : ℕ} {p : ℕ} (hi : st.strs[i]? = some p)
    (hj : st.strs[j]? = some p) (hp : nameOf (st.content p) ≠ none) : i = j := by
  have hd := List.pairwise_iff_getElem.mp (List.pairwise_map.mp h.distinct)
  obtain ⟨hi', rfl⟩ := List.getElem?_eq_some_iff.mp hi
  obtain ⟨hj', he⟩ := List.getElem?_eq_some_iff.mp hj
  by_contra hne
  rcases Nat.lt_or_gt_of_ne hne with hlt | hlt
  · have := hd i j hi' hj' hlt
    rw [he] at this
    exact this.elim hp (fun hc => hc rfl)
  · have := hd j i hj' hi' hlt
    rw [he] at this
    exact this.elim hp (fun hc => hc rfl)

/-- Strings are retired and one is listed. What stands in the environment then has been there before, or comes in. -/
theorem Inv.of_retires {st' : State} {R : List ℕ} (h : Inv st) (hret : Retires R r st st')
    (hR : st.oldenv ≠ 0 → st.oldenv ∉ R) (hdistinct : Distinct (st'.strs.map st.content))
    (hkeep : ∀ p ∈ st.strs, p ∉ R → p ∈ st'.strs) (hnew : r ≠ 0 → r ∈ st'.owned ∧ r ∈ st'.strs)
    (hin : ∀ p ∈ st'.strs, p ∈ st.strs ∧ (p ∈ st.owned → p ∉ R) ∨
      (p ∈ st'.owned ∨ p ∈ st.foreign) ∧ nameOf (st.content p) ≠ none ∧ p ≠ st.oldenv) : Inv st' where
  distinct := by
    rw [State.texts, hret.content]
    exact hdistinct
  nonzero hc := h.nonzero (hret.owned_sub 0 hc)
  nodup := hret.nodup
  listed p hp h0 := by
    rcases hret.alloced p hp h0 with rfl | ⟨hp', hpR⟩
    · exact hnew h0
    · obtain ⟨ho, hs⟩ := h.listed p hp' h0
      exact ⟨hret.owned_keep p ho hpR, hkeep p hs hpR⟩
  known p hp := by
    rw [hret.foreign]
    rcases hin p hp with ⟨hps, hpR⟩ | hp
    · exact (h.known p hps).imp (fun ho => hret.owned_keep p ho (hpR ho)) id
    · exact hp.1
  apart p hp := by
    rw [hret.foreign]
    exact h.apart p (hret.owned_sub p hp)
  named p hp hps := by
    rw [hret.content]
    exact (hin p hps).elim (fun hps => h.named p (hret.owned_sub p hp) hps.1) fun hp => hp.2.1
  oldenv h0 := by
    rw [hret.oldenv] at h0 ⊢
    obtain ⟨ho, hs⟩ := h.oldenv h0
    exact ⟨hret.owned_keep _ ho (hR h0), fun hc => (hin _ hc).elim (fun hc => hs hc.1) fun hc => hc.2.2 rfl⟩
  frees f hf := (hret.frees f hf).elim (h.frees f) fun hf => hf.1

/-! ## `unsetenv` and `clearenv` -/

/-- **`unsetenv`** fails for what is not a name, and otherwise removes the name. -/
theorem unsetenv_spec (name : List UInt8) (h : Inv st) :
    Inv (unsetenv name st).2 ∧ (unsetenv name st).1 = decide (IsName name) ∧
      lookup (unsetenv name st).2.texts =
        if IsName name then Function.update (lookup st.texts) name none else lookup st.texts := by
  unfold unsetenv
  by_cases hn : IsName name
  · rw [if_neg (fun hc => (notName_iff name).mp hc hn), if_pos hn]
    obtain ⟨hret, hstrs⟩ := unsetLoop_retires name st.strs (st.strs.length + 1) [] [] st (by omega)
      h.table rfl
    simp only [length_nil] at hret hstrs
    refine ⟨h.of_retires hret (fun h0 hc => (h.oldenv h0).2 (mem_of_mem_filter hc)) ?_ (fun p hp hpR => ?_)
      (absurd rfl) (fun p hp => .inl ?_), by simp [hn], ?_⟩
    · rw [hstrs]
      exact Pairwise.sublist (filter_sublist.map _) h.distinct
    · rw [hstrs]
      simp_all
    · rw [hstrs] at hp
      simp_all
    · rw [← lookup_filter, State.texts, hret.content, hstrs, State.texts, filter_map]
      congr 2
      refine filter_congr fun p _ => ?_
      have := hits_iff (e := st.content p) hn.2
      by_cases hp : hits name (st.content p) = true <;> simp_all
  · rw [if_pos ((notName_iff name).mpr hn), if_neg hn]
    exact ⟨h, by simp [hn], rfl⟩

/-- **`clearenv`** removes every name. -/
theorem clearenv_spec (h : Inv st) :
    Inv (clearenv st).2 ∧ lookup (clearenv st).2.texts = fun _ => none := by
  have ht : Table { st with environ := none } := ⟨h.table.nodup, h.table.owned, h.table.apart⟩
  have hret := clear_retires st.strs ht
  have henv : ∀ (l : List ℕ) (st : State),
      (l.foldl (fun st p => envRmAdd false p 0 st) st).environ = st.environ := by
    intro l
    induction l with
    | nil => exact fun _ => rfl
    | cons p l ih =>
      intro st
      rw [foldl_cons, ih, envRmAdd_environ]
  have hstrs : (clearenv st).2.strs = [] := by
    rw [State.strs, clearenv, henv]
    rfl
  refine ⟨h.of_retires hret.of_environ (fun h0 => (h.oldenv h0).2) ?_ (fun p hp hpR => absurd hp hpR) (absurd rfl) ?_,
    ?_⟩
  · rw [hstrs]
    exact Pairwise.nil
  · rw [hstrs]
    exact fun p hp => absurd hp not_mem_nil
  · rw [State.texts, hstrs]
    rfl

/-! ## `__putenv` -/

/-- The block for an array that the allocator may answer with while `s` is in use: a new one, or `oldenv` where
this is resized. -/
structure Room (st : State) (s room : ℕ) : Prop where
  ne : room ≠ s
  notMem : room ∉ st.strs
  fresh : room ∈ st.owned → room = st.oldenv ∧ st.environAddr = st.oldenv

/-- The string that `__putenv` receives: one that `setenv` has allocated, which is then `r` as well, or one of
the application. -/
def Supplied (st : State) (s r : ℕ) : Prop :=
  (r = s ∧ s ∈ st.owned ∧ s ∉ st.strs) ∨ (r = 0 ∧ s ∈ st.foreign)

/-- The frees of a call are in order, and `__environ` does not point to the block any more. -/
def Unlinked (st st' : State) : Prop := ∀ f ∈ st'.frees, f ∈ st.frees ∨ f.ptr ∉ f.environ

/-- What stands in a list after one entry that occurs once is overwritten. -/
theorem mem_set_iff {l : List ℕ} {tmp : ℕ} (hi : l[i]? = some tmp)
    (honce : ∀ j, l[j]? = some tmp → j = i) (p : ℕ) : p ∈ l.set i s ↔ p = s ∨ (p ∈ l ∧ p ≠ tmp) := by
  obtain ⟨hlt, htmp⟩ := List.getElem?_eq_some_iff.mp hi
  constructor
  · intro hp
    obtain ⟨j, hj⟩ := List.mem_iff_getElem?.mp hp
    by_cases hij : i = j
    · subst hij
      rw [getElem?_set_self hlt] at hj
      exact .inl (Option.some.inj hj).symm
    · rw [getElem?_set_ne hij] at hj
      refine .inr ⟨mem_of_getElem? hj, ?_⟩
      rintro rfl
      exact hij (honce j hj).symm
  · rintro (rfl | ⟨hp, hne⟩)
    · exact mem_set hlt p
    · obtain ⟨j, hj⟩ := List.mem_iff_getElem?.mp hp
      have hij : i ≠ j := by
        rintro rfl
        exact hne (Option.some.inj (hj.symm.trans hi))
      exact mem_of_getElem? ((getElem?_set_ne hij).trans hj)

/-- A string takes the place of another one with its name, which is retired. -/
theorem Inv.replace (h : Inv st) {tmp : ℕ} (grow : Bool)
    (hso : s ≠ st.oldenv) (hr : Supplied st s r) (hi : st.strs[i]? = some tmp)
    (hname : nameOf (st.content s) = nameOf (st.content tmp)) (hnamed : nameOf (st.content tmp) ≠ none)
    {st' : State} (hst : st' = envRmAdd grow tmp r (st.setStrs (st.strs.set i s))) :
    Inv st' ∧ st'.strs = st.strs.set i s ∧ st'.content = st.content ∧ Unlinked st st' := by
  have hne : st.strs ≠ [] := by
    rintro hc
    simp [hc] at hi
  have hmem : tmp ∈ st.strs := mem_of_getElem? hi
  have hset := mem_set_iff (s := s) hi fun j hj => h.unique hj hi hnamed
  have hmid : (st.setStrs (st.strs.set i s)).strs = st.strs.set i s := State.strs_setStrs hne _
  have hstrs : st'.strs = st.strs.set i s := by rw [hst, envRmAdd_strs, hmid]
  have hnew : r ≠ 0 → r ∉ st.alloced := by
    intro h0 hc
    rcases hr with ⟨rfl, -, hns⟩ | ⟨hc', -⟩
    · exact hns (h.listed r hc h0).2
    · exact h0 hc'
  have ht : Table (st.setStrs (st.strs.set i s)) := ⟨h.nodup, h.table.owned, h.apart⟩
  have hret : Retires [tmp] r st st' := hst ▸ (envRmAdd_retires grow tmp r ht hnew).of_environ
  -- the string that comes in is the library's and not the one replaced, or it is the application's
  have hin : (r = s ∧ s ∈ st'.owned) ∨ (r = 0 ∧ s ∈ st.foreign) := by
    rcases hr with ⟨hrs, ho, hns⟩ | hr
    · exact .inl ⟨hrs, hret.owned_keep s ho (by simpa using fun hc : s = tmp => hns (hc ▸ hmem))⟩
    · exact .inr hr
  refine ⟨h.of_retires hret (fun h0 => ?_) ?_ (fun p hp hpR => ?_) (fun h0 => ?_) (fun p hp => ?_), hstrs, hret.content,
    fun f hf => ?_⟩
  · simpa using fun hc : st.oldenv = tmp => (h.oldenv h0).2 (hc ▸ hmem)
  · rw [hstrs, map_set]
    exact h.distinct.set (by rw [State.texts, getElem?_map, hi]; rfl) hname
  · rw [hstrs, hset]
    exact .inr ⟨hp, by simpa using hpR⟩
  · rw [hstrs, hset]
    rcases hin with ⟨rfl, ho⟩ | ⟨hc, -⟩
    · exact ⟨ho, .inl rfl⟩
    · exact absurd hc h0
  · rw [hstrs, hset] at hp
    rcases hp with rfl | ⟨hps, hpt⟩
    · exact .inr ⟨hin.imp (·.2) (·.2), hname ▸ hnamed, hso⟩
    · exact .inl ⟨hps, fun _ => by simpa using hpt⟩
  · rw [hst] at hf
    rcases envRmAdd_frees _ _ _ _ hf with hf | ⟨h0, hal, rfl⟩
    · exact .inl hf
    · -- the string freed is no longer there, unless it came in again, and then it was not listed
      refine .inr ?_
      rw [hmid, hset]
      rintro (hc | ⟨-, hc⟩)
      · rcases hr with ⟨-, -, hns⟩ | ⟨-, hf⟩
        · exact hns (hc ▸ hmem)
        · have hc : tmp = s := hc
          exact h.apart tmp (h.listed tmp hal h0).1 (hc ▸ hf)
      · exact hc rfl

/-- The block of the array is replaced: what `oldenv` was is freed, and the new block is there. -/
theorem resize_spec (h : Inv st) {room : ℕ} (hroom : Room st s room) :
    (st.resize room).content = st.content ∧ (st.resize room).alloced = st.alloced ∧
      (∀ p, p ∈ (st.resize room).foreign ↔ p ∈ st.foreign ∧ p ≠ room) ∧
      (∀ p, p ∈ (st.resize room).owned ↔ p = room ∨ (p ∈ st.owned ∧ p ≠ st.oldenv)) ∧
      ∀ f ∈ (st.resize room).frees, f ∈ st.frees ∨ (f.InOrder ∧ f.ptr ∉ f.environ) := by
  have hkeep (p : ℕ) (hp : p ∈ st.owned) : (st.oldenv ≠ 0 → p ≠ st.oldenv) ↔ p ≠ st.oldenv :=
    ⟨fun hc heq => hc (heq ▸ fun h0 : p = 0 => h.nonzero (h0 ▸ hp)) heq, fun hc _ => hc⟩
  unfold State.resize
  split_ifs with hmoved
  · refine ⟨by simp [State.malloc], by simp [State.malloc], by simp [State.malloc], fun p => ?_, fun f hf => ?_⟩
    · simp only [State.malloc, mem_cons, State.mem_owned_free]
      exact or_congr_right (and_congr_right (hkeep p))
    · rcases State.mem_frees_free.mp hf with hf | ⟨h0, rfl⟩
      · exact .inl hf
      · obtain ⟨ho, hns⟩ := h.oldenv h0
        exact .inr ⟨⟨ho, h.apart _ ho⟩, hns⟩
  · -- the new block is not `oldenv`, which is still there when it is allocated
    have hfresh : room ∉ st.owned := fun hc => hmoved (hroom.fresh hc).2
    refine ⟨by simp [State.malloc], by simp [State.malloc], by simp [State.malloc], fun p => ?_, fun f hf => ?_⟩
    · simp only [State.malloc, mem_cons, State.mem_owned_free, or_and_right]
      refine or_congr (and_iff_left_of_imp fun heq h0 hc => ?_) (and_congr_right (hkeep p))
      exact hfresh (heq ▸ hc ▸ (h.oldenv h0).1)
    · rcases State.mem_frees_free.mp hf with hf | ⟨h0, rfl⟩
      · exact .inl hf
      · obtain ⟨ho, hns⟩ := h.oldenv h0
        have hnf : st.oldenv ∉ (st.malloc room).foreign := fun hc =>
          h.apart _ ho (mem_of_mem_filter hc)
        exact .inr ⟨⟨mem_cons_of_mem _ ho, hnf⟩, hns⟩

/-- A string with a new name comes in at the end of a larger array. -/
theorem Inv.grow (h : Inv st) {room : ℕ} (hso : s ≠ st.oldenv) (hr : Supplied st s r)
    (hroom : Room st s room) (hroom0 : room ≠ 0) (hname : nameOf (st.content s) = some n)
    (hnew : ∀ t ∈ st.texts, nameOf t ≠ some n) :
    Inv { st.resize room with environ := some ⟨room, st.strs ++ [s]⟩, oldenv := room } := by
  obtain ⟨hcontent, halloced, hforeign, howned, hfrees⟩ := resize_spec h hroom
  have hstay : ∀ p ∈ st.strs, p ∈ st.owned → p ∈ (st.resize room).owned := fun p hps hp =>
    (howned p).mpr (.inr ⟨hp, fun hc => (h.oldenv (hc ▸ fun h0 => h.nonzero (h0 ▸ hp))).2 (hc ▸ hps)⟩)
  have hins : s ∈ (st.resize room).owned ∨ s ∈ (st.resize room).foreign := by
    rcases hr with ⟨-, ho, -⟩ | ⟨-, hf⟩
    · exact .inl ((howned s).mpr (.inr ⟨ho, hso⟩))
    · exact .inr ((hforeign s).mpr ⟨hf, hroom.ne.symm⟩)
  constructor
  case distinct =>
    show Distinct ((st.strs ++ [s]).map (st.resize room).content)
    rw [hcontent, map_append]
    exact h.distinct.append hname hnew
  case nonzero =>
    intro hc
    rcases (howned 0).mp hc with hc | ⟨hc, -⟩
    · exact hroom0 hc.symm
    · exact h.nonzero hc
  case nodup =>
    rw [halloced]
    exact h.nodup
  case listed =>
    intro p hp h0
    have hp : p ∈ st.alloced := halloced ▸ hp
    obtain ⟨ho, hps⟩ := h.listed p hp h0
    exact ⟨hstay p hps ho, mem_append_left _ hps⟩
  case known =>
    intro p hp
    rcases List.mem_append.mp hp with hps | hp
    · refine (h.known p hps).imp (hstay p hps) fun hf => (hforeign p).mpr ⟨hf, ?_⟩
      rintro rfl
      exact hroom.notMem hps
    · rw [List.mem_singleton.mp hp]
      exact hins
  case apart =>
    intro p hp hc
    obtain ⟨hf, hne⟩ := (hforeign p).mp hc
    rcases (howned p).mp hp with hp | ⟨hp, -⟩
    · exact hne hp
    · exact h.apart p hp hf
  case named =>
    intro p hp hps
    rw [hcontent]
    rcases List.mem_append.mp hps with hold | hlast
    · rcases (howned p).mp hp with rfl | ⟨hp, -⟩
      · exact absurd hold hroom.notMem
      · exact h.named p hp hold
    · rw [List.mem_singleton.mp hlast, hname]
      exact Option.some_ne_none n
  case oldenv =>
    intro _
    refine ⟨(howned room).mpr (.inl rfl), fun hc => ?_⟩
    rcases List.mem_append.mp hc with hc | hc
    · exact hroom.notMem hc
    · exact hroom.ne (List.mem_singleton.mp hc)
  case frees =>
    intro f hf
    exact (hfrees f hf).elim (h.frees f) fun hf => hf.1

/-- A string of the environment that the library has allocated is listed. -/
theorem Inv.list (h : Inv st) (grow : Bool) (ho : r ∈ st.owned) (hs : r ∈ st.strs)
    (hnew : r ∉ st.alloced) : Inv (envRmAdd grow 0 r st) := by
  have hret := envRmAdd_retires grow 0 r h.table fun _ => hnew
  have hne : ∀ p ∈ st.owned, p ∉ [0] := fun p hp => by
    simpa using fun hc : p = 0 => h.nonzero (hc ▸ hp)
  have hstrs := envRmAdd_strs grow 0 r st
  refine h.of_retires hret (fun h0 => by simpa using h0) ?_ (fun p hp _ => hstrs ▸ hp) (fun _ => ?_)
    fun p hp => .inl ⟨hstrs ▸ hp, hne p⟩
  · rw [hstrs]
    exact h.distinct
  · exact ⟨hret.owned_keep r ho (hne r ho), hstrs ▸ hs⟩

/-- A string that was allocated for nothing is given back. -/
theorem Inv.giveBack (h : Inv st) (ho : r ∈ st.owned) (hs : r ∉ st.strs) (hso : r ≠ st.oldenv) : Inv (st.free r) := by
  have hstrs : (st.free r).strs = st.strs := by rw [State.strs, State.free_environ, State.strs]
  have hne : ∀ p ∈ st.strs, p ∉ [r] := fun p hp => by
    simpa using fun hc : p = r => hs (hc ▸ hp)
  have hret : Retires [r] 0 st (st.free r) :=
    Retires.free (fun _ => ⟨ho, h.apart r ho⟩) (fun p hp h0 => .inr ⟨hp, hne p (h.listed p hp h0).2⟩) h.nodup
  refine h.of_retires hret (fun _ => by simpa using hso.symm) ?_ (fun p hp _ => hstrs ▸ hp) (absurd rfl)
    fun p hp => .inl ⟨hstrs ▸ hp, fun _ => hne p (hstrs ▸ hp)⟩
  rw [hstrs]
  exact h.distinct

theorem putenvGrow_spec (h : Inv st) {ans : Answers} (hso : s ≠ st.oldenv)
    (hr : Supplied st s r) (hroom : ans.room ≠ 0 → Room st s ans.room)
    (hname : nameOf (st.content s) = some n) (hnew : ∀ t ∈ st.texts, nameOf t ≠ some n) :
    Inv (putenvGrow ans s r st).2 ∧
      lookup (putenvGrow ans s r st).2.texts = (if (putenvGrow ans s r st).1 then
        Function.update (lookup st.texts) n (some (valueOf (st.content s))) else lookup st.texts) ∧
      Unlinked st (putenvGrow ans s r st).2 := by
  unfold putenvGrow
  split
  · -- there is no larger array
    rcases hr with ⟨rfl, ho, hns⟩ | ⟨rfl, -⟩
    · refine ⟨h.giveBack ho hns hso, ?_, ?_⟩
      · simp [State.texts, State.strs]
      · intro f hf
        rcases State.mem_frees_free.mp hf with hf | ⟨-, rfl⟩
        · exact .inl hf
        · exact .inr hns
    · have hfree : st.free 0 = st := if_pos rfl
      rw [hfree]
      exact ⟨h, by simp, fun f hf => .inl hf⟩
  · rename_i h0
    obtain ⟨hcontent, halloced, -, howned, hfrees⟩ := resize_spec h (hroom h0)
    have hinv := h.grow hso hr (hroom h0) h0 hname hnew
    have hlookup : lookup ((st.strs ++ [s]).map st.content) =
        Function.update (lookup st.texts) n (some (valueOf (st.content s))) := by
      rw [map_append]
      exact lookup_append hname hnew
    simp only [if_true]
    split
    · rename_i hr0
      -- the string is one that `setenv` has allocated
      obtain ⟨rfl, ho, hns⟩ := hr.resolve_right fun hc => hr0 hc.1
      have hlist := hinv.list ans.grow ((howned r).mpr (.inr ⟨ho, hso⟩))
        (mem_append_right _ (List.mem_singleton.mpr rfl))
        (fun hc => hns (h.listed r (halloced ▸ hc) hr0).2)
      refine ⟨hlist, ?_, ?_⟩
      · obtain ⟨t, -, he⟩ := envRmAdd_eq ans.grow 0 r
          { st.resize ans.room with environ := some ⟨ans.room, st.strs ++ [r]⟩, oldenv := ans.room }
        rw [State.texts, he, ← hlookup, ← hcontent]
        split <;> simp [State.strs]
      · intro f hf
        rcases envRmAdd_frees _ _ _ _ hf with hf | ⟨hc, -⟩
        · exact (hfrees f hf).imp id fun hf => hf.2
        · exact absurd rfl hc
    · refine ⟨hinv, ?_, fun f hf => (hfrees f hf).imp id fun hf => hf.2⟩
      rw [← hlookup, ← hcontent]
      rfl

/-- **`__putenv`** gives its name the value in its string, or fails and changes no value. -/
theorem putenvAt_spec (h : Inv st) {ans : Answers} (hso : s ≠ st.oldenv)
    (hr : Supplied st s r) (hroom : ans.room ≠ 0 → Room st s ans.room) (hname : nameOf (st.content s) = some n) :
    Inv (putenvAt ans s n.length r st).2 ∧
      lookup (putenvAt ans s n.length r st).2.texts = (if (putenvAt ans s n.length r st).1 then
        Function.update (lookup st.texts) n (some (valueOf (st.content s))) else lookup st.texts) ∧
      Unlinked st (putenvAt ans s n.length r st).2 := by
  obtain ⟨hn, hs⟩ := eq_of_nameOf hname
  have htest : (fun e => sameFor (n.length + 1) (st.content s) (st.content e)) =
      ((fun t => decide (nameOf t = some n)) ∘ st.content) := by
    funext e
    refine Bool.eq_iff_iff.mpr ?_
    rw [hs]
    simpa using sameFor_iff hn
  have hidx : st.strs.findIdx? (fun e => sameFor (n.length + 1) (st.content s) (st.content e)) =
      st.texts.findIdx? (fun t => nameOf t = some n) := by
    rw [htest, State.texts, findIdx?_map]
  unfold putenvAt
  rw [hidx]
  rcases hi : st.texts.findIdx? (fun t => decide (nameOf t = some n)) with _ | i
  · have hnew : ∀ t ∈ st.texts, nameOf t ≠ some n := by
      simpa using List.findIdx?_eq_none_iff.mp hi
    exact putenvGrow_spec h hso hr hroom hname hnew
  · obtain ⟨hlt, hfound, -⟩ := List.findIdx?_eq_some_iff_getElem.mp hi
    have hlt' : i < st.strs.length := by simpa [State.texts] using hlt
    have hget : st.strs[i]? = some (st.strs.getD i 0) := by
      rw [getD_eq_getElem _ _ hlt', getElem?_eq_getElem hlt']
    have htmp : nameOf (st.content (st.strs.getD i 0)) = some n := by
      rw [getD_eq_getElem _ _ hlt']
      simpa [State.texts] using hfound
    obtain ⟨hinv, hstrs, hcontent, hunl⟩ := h.replace ans.grow hso hr hget (hname.trans htmp.symm)
      (by rw [htmp]; exact Option.some_ne_none n) rfl
    refine ⟨hinv, ?_, hunl⟩
    rw [State.texts, hstrs, hcontent, map_set]
    exact lookup_set hname hi

end Leblibc.Env
