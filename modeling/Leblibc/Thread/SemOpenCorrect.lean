import Leblibc.Lib.Ownership
import Leblibc.Thread.SemOpen

/-!
# Named semaphores: the table

An entry of the table is free, reserved, or open; an open one has as many references as there are semaphores open with
its inode and its pointer, and no two have the same inode. Slots and mappings have owners: a slot that is reserved
belongs to one thread in `sem_open`, and an address that is mapped belongs to a thread or to an entry. From there the
properties of the table follow for every interleaving of the threads.

## Main results

* `Table.Inv.set`: a change of one entry
* `Inv.semOpen`, `Inv.commit`, `Inv.release`, `Inv.semClose`: the sections under the lock
* `Inv.step`: a step keeps the invariant, and does not access anything beyond the table
* `run_safe`: the properties in all runs
-/

namespace Leblibc.SemOpen

open List Function

open Lib (Owned skipTo skipTo_spec skipTo_lt skipTo_le_of_not)

/-! ## Entries -/

/-- What an entry may be, for the semaphores that are open. -/
inductive EntryOk (a : Arch) (handles : List (ℕ × Sem)) : Entry → Prop
  | free {sem : Sem} (h : sem = .null ∨ sem = .reserved) : EntryOk a handles ⟨0, sem, 0⟩
  | opened {ino p n : ℕ} (hino : 0 < ino) (hn : 0 < n) (hmax : n ≤ a.sizeMax)
    (hcount : handles.count (ino, .addr p) = n) : EntryOk a handles ⟨ino, .addr p, n⟩

variable {a : Arch} {handles handles' : List (ℕ × Sem)} {tab : Table} {e : Entry} {i : ℕ}

/-- The semaphores of other inodes do not matter for an entry. -/
theorem EntryOk.congr (h : EntryOk a handles e)
    (hcount : e.ino ≠ 0 → ∀ sem, handles'.count (e.ino, sem) = handles.count (e.ino, sem)) :
    EntryOk a handles' e := by
  cases h with
  | free h => exact .free h
  | opened hino hn hmax h => exact .opened hino hn hmax ((hcount (Nat.ne_of_gt hino) _).trans h)

theorem EntryOk.of_ino_eq_zero (h : EntryOk a handles e) (h0 : e.ino = 0) :
    e.refcnt = 0 ∧ (e.sem = .null ∨ e.sem = .reserved) := by
  cases h with
  | free h => exact ⟨rfl, h⟩
  | opened hino => exact absurd h0 (Nat.ne_of_gt hino)

theorem EntryOk.of_free (h : EntryOk a handles e) (hsem : e.sem = .null ∨ e.sem = .reserved) :
    e = ⟨0, e.sem, 0⟩ := by
  cases h with
  | free h => rfl
  | opened => rcases hsem with h | h <;> cases h

variable {p i ino : ℕ} {g : ℕ × Sem} {m : Mapping} {s : ℕ}

theorem EntryOk.of_addr (h : EntryOk a handles e) (hp : e.sem = .addr p) :
    0 < e.ino ∧ 0 < e.refcnt ∧ e.refcnt ≤ a.sizeMax ∧ handles.count (e.ino, .addr p) = e.refcnt := by
  cases h with
  | free h => rcases h with h | h <;> rw [h] at hp <;> cases hp
  | opened hino hn hmax h =>
    cases hp
    exact ⟨hino, hn, hmax, h⟩

theorem EntryOk.of_ino_pos (h : EntryOk a handles e) (hino : 0 < e.ino) : ∃ p, e.sem = .addr p := by
  cases h with
  | free h => exact absurd hino (lt_irrefl 0)
  | @opened ino p n => exact ⟨p, rfl⟩

/-- The invariant of the table. -/
structure Table.Inv (a : Arch) (tab : Table) (handles : List (ℕ × Sem)) : Prop where
  entry : ∀ i < tab.cap, EntryOk a handles (tab.entries i)
  ino_inj : ∀ i < tab.cap, ∀ j < tab.cap, (tab.entries i).ino = (tab.entries j).ino → (tab.entries i).ino ≠ 0 → i = j
  handle : ∀ h ∈ handles, ∃ i < tab.cap, 0 < h.1 ∧ (tab.entries i).ino = h.1 ∧ (tab.entries i).sem = h.2

namespace Table

@[simp] theorem set_cap (tab : Table) (i : ℕ) (e : Entry) : (tab.set i e).cap = tab.cap := rfl

@[simp] theorem set_entries_self (tab : Table) (i : ℕ) (e : Entry) : (tab.set i e).entries i = e :=
  update_self _ _ _

theorem set_entries_of_ne (tab : Table) {j : ℕ} (e : Entry) (h : j ≠ i) :
    (tab.set i e).entries j = tab.entries j := update_of_ne h _ _

/-- **One entry changes**, and of the semaphores that are open at most those of one inode `x`, which is that of the
entry. -/
theorem Inv.set (h : tab.Inv a handles) {x : ℕ} (hx : ∀ j < tab.cap, j ≠ i → (tab.entries j).ino = x → x = 0)
    (hold : (tab.entries i).ino = x ∨ (tab.entries i).ino = 0) (hnew : e.ino = x ∨ e.ino = 0)
    (he : EntryOk a handles' e) (hcount : ∀ ino sem, ino ≠ x → handles'.count (ino, sem) = handles.count (ino, sem))
    (hhandle : ∀ g ∈ handles', g.1 = x → i < tab.cap ∧ 0 < g.1 ∧ e.ino = g.1 ∧ e.sem = g.2) :
    (tab.set i e).Inv a handles' := by
  -- an inode in another entry is not that of the new one
  have hdiff {j : ℕ} (hj : j < tab.cap) (hji : j ≠ i) (heq : (tab.entries j).ino = e.ino) : e.ino = 0 := by
    rcases hnew with hnew | hnew
    · rw [hnew] at heq ⊢
      exact hx j hj hji heq
    · exact hnew
  refine ⟨fun j hj => ?_, fun j hj k hk hjk hne => ?_, fun g hg => ?_⟩
  · rcases eq_or_ne j i with rfl | hji
    · rwa [set_entries_self]
    · rw [set_entries_of_ne _ _ hji]
      refine (h.entry j hj).congr fun hne sem => hcount _ sem fun heq => ?_
      exact hne (heq.trans (hx j hj hji heq))
  · by_cases hji : j = i <;> by_cases hki : k = i
    · rw [hji, hki]
    · rw [hji, set_entries_self, set_entries_of_ne _ _ hki] at hjk
      rw [hji, set_entries_self] at hne
      exact absurd (hdiff hk hki hjk.symm) hne
    · rw [hki, set_entries_self, set_entries_of_ne _ _ hji] at hjk
      rw [set_entries_of_ne _ _ hji, hjk] at hne
      exact absurd (hdiff hj hji hjk) hne
    · rw [set_entries_of_ne _ _ hji, set_entries_of_ne _ _ hki] at hjk
      rw [set_entries_of_ne _ _ hji] at hne
      exact h.ino_inj j hj k hk hjk hne
  · by_cases hgx : g.1 = x
    · obtain ⟨hi, hpos, hino, hsem⟩ := hhandle g hg hgx
      exact ⟨i, hi, hpos, by rw [set_entries_self, hino], by rw [set_entries_self, hsem]⟩
    · have hmem : g ∈ handles := by
        rw [← count_pos_iff, ← hcount g.1 g.2 hgx]
        exact List.count_pos_iff.mpr hg
      obtain ⟨j, hj, hpos, hino, hsem⟩ := h.handle g hmem
      have hji : j ≠ i := by
        rintro rfl
        rcases hold with hold | hold <;> omega
      exact ⟨j, hj, hpos, by rw [set_entries_of_ne _ _ hji, hino], by rw [set_entries_of_ne _ _ hji, hsem]⟩

theorem Inv.setFree (h : tab.Inv a handles) (hold : (tab.entries i).ino = 0) {sem : Sem}
    (hsem : sem = .null ∨ sem = .reserved) : (tab.set i ⟨0, sem, 0⟩).Inv a handles := by
  refine h.set (fun _ _ _ _ => rfl) (.inr hold) (.inr rfl) (.free hsem) (fun _ _ _ => rfl) fun g hg h0 => ?_
  obtain ⟨-, -, hpos, -⟩ := h.handle g hg
  omega

theorem Inv.grow (h : tab.Inv a handles) {n : ℕ} (hn : tab.cap ≤ n) : (tab.grow n).Inv a handles := by
  unfold Table.grow
  refine ⟨fun j hj => ?_, fun j hj k hk hjk hne => ?_, fun g hg => ?_⟩
  · simp only
    split_ifs with hjc
    · exact h.entry j hjc
    · exact .free (.inl rfl)
  · simp only at hjk hne
    split_ifs at hjk hne with hjc hkc
    · exact h.ino_inj j hjc k hkc hjk hne
    · exact absurd hjk hne
    · exact absurd rfl hne
    · exact absurd rfl hne
  · obtain ⟨j, hj, hrest⟩ := h.handle g hg
    refine ⟨j, hj.trans_le hn, ?_⟩
    simp only [if_pos hj]
    exact hrest

/-- A semaphore with an inode that was not in the table. -/
theorem Inv.setNew (h : tab.Inv a handles) (hi : i < tab.cap) (hold : (tab.entries i).ino = 0)
    (hino : 0 < ino) (hnew : ∀ j < tab.cap, (tab.entries j).ino ≠ ino) (hmax : 1 ≤ a.sizeMax) :
    (tab.set i ⟨ino, .addr p, 1⟩).Inv a ((ino, .addr p) :: handles) := by
  have hnone {sem : Sem} : (ino, sem) ∉ handles := by
    intro hmem
    obtain ⟨j, hj, -, hj', -⟩ := h.handle _ hmem
    exact hnew j hj hj'
  refine h.set (fun j hj _ heq => absurd heq (hnew j hj)) (.inr hold) (.inl rfl) (.opened hino Nat.one_pos hmax ?_)
    (fun ino' sem hne => ?_) fun g hg hgx => ?_
  · rw [count_cons_self, List.count_eq_zero.mpr hnone]
  · exact count_cons_of_ne fun heq => hne (congrArg Prod.fst heq).symm
  · rcases List.mem_cons.mp hg with rfl | hg
    · exact ⟨hi, hino, rfl, rfl⟩
    · rw [← Prod.mk.eta (p := g), hgx] at hg
      exact absurd hg hnone

theorem Inv.handle_eq (h : tab.Inv a handles) (hi : i < tab.cap) (hino : (tab.entries i).ino ≠ 0)
    (hg : g ∈ handles) (heq : g.1 = (tab.entries i).ino) : g = ((tab.entries i).ino, (tab.entries i).sem) := by
  obtain ⟨j, hj, -, hj', hsem⟩ := h.handle g hg
  obtain rfl := h.ino_inj i hi j hj (heq.symm.trans hj'.symm) hino
  exact Prod.ext heq hsem.symm

/-- The number of references of an entry changes with the semaphores that are open. -/
theorem Inv.setCount (h : tab.Inv a handles) (hi : i < tab.cap) {n m : ℕ}
    (hentry : tab.entries i = ⟨ino, .addr p, n⟩) (hm : 0 < m) (hmax : m ≤ a.sizeMax)
    (hcount : handles'.count (ino, .addr p) = m)
    (hother : ∀ g, g ≠ (ino, .addr p) → handles'.count g = handles.count g) :
    (tab.set i ⟨ino, .addr p, m⟩).Inv a handles' := by
  have hino : 0 < ino := by
    have hok := (h.entry i hi).of_addr (by rw [hentry])
    rw [hentry] at hok
    exact hok.1
  have hone {g : ℕ × Sem} (hg : g ∈ handles) (heq : g.1 = ino) : g = (ino, .addr p) := by
    have := h.handle_eq hi (by rw [hentry]; exact Nat.ne_of_gt hino) hg (by rw [hentry, heq])
    rwa [hentry] at this
  refine h.set (fun j hj hji heq => ?_) (.inl (by rw [hentry])) (.inl rfl) (.opened hino hm hmax hcount)
    (fun ino' sem hne => hother _ fun heq => hne (congrArg Prod.fst heq)) fun g hg hgx => ?_
  · by_contra hne
    exact hji (h.ino_inj j hj i hi (by rw [heq, hentry]) (by rw [heq]; exact hne))
  · have hg' : g = (ino, .addr p) := by
      by_contra hne
      rw [← count_pos_iff, hother g hne, count_pos_iff] at hg
      exact hne (hone hg hgx)
    rw [hg']
    exact ⟨hi, hino, rfl, rfl⟩

theorem Inv.setLast (h : tab.Inv a handles) (hi : i < tab.cap) (hentry : tab.entries i = ⟨ino, .addr p, 1⟩) :
    (tab.set i ⟨0, .null, 0⟩).Inv a (handles.erase (ino, .addr p)) := by
  have hok := (h.entry i hi).of_addr (by rw [hentry])
  rw [hentry] at hok
  obtain ⟨hino, -, -, hcount⟩ := hok
  refine h.set (fun j hj hji heq => ?_) (.inl (by rw [hentry])) (.inr rfl) (.free (.inl rfl))
    (fun ino' sem hne => count_erase_of_ne fun heq => hne (congrArg Prod.fst heq)) fun g hg hgx => ?_
  · by_contra hne
    exact hji (h.ino_inj j hj i hi (by rw [heq, hentry]) (by rw [heq]; exact hne))
  · have hg' := h.handle_eq hi (by rw [hentry]; exact Nat.ne_of_gt hino) (mem_of_mem_erase hg) (by rw [hentry, hgx])
    rw [hentry] at hg'
    rw [hg', ← count_pos_iff, count_erase_self, hcount] at hg
    exact absurd hg (lt_irrefl 0)

end Table

/-! ## The invariant -/

/-- The owners of mappings: threads and entries. -/
inductive Owner
  | thread (t : ℕ)
  | entry (i : ℕ)
  deriving DecidableEq

/-- The address of a semaphore. -/
def Sem.addr? : Sem → Option ℕ
  | .addr p => some p
  | _ => none

/-- The slots that threads have reserved. -/
def slotsOf (threads : ℕ → Pc) : ℕ → Option ℕ := fun t => (threads t).slot

/-- The mappings of threads and of entries. -/
def holdsOf (threads : ℕ → Pc) (tab : Table) : Owner → Option ℕ
  | .thread t => (threads t).map
  | .entry i => if i < tab.cap then (tab.entries i).sem.addr? else none

/-- An entry is reserved. -/
def Table.Reserved (tab : Table) (i : ℕ) : Prop := i < tab.cap ∧ (tab.entries i).sem = .reserved

variable (threads : ℕ → Pc)

theorem slotsOf_update (t : ℕ) (pc : Pc) :
    slotsOf (Function.update threads t pc) = Function.update (slotsOf threads) t pc.slot := by
  funext t'
  simp only [slotsOf, update_apply]
  split_ifs <;> rfl

theorem holdsOf_update (tab : Table) (t : ℕ) (pc : Pc) :
    holdsOf (Function.update threads t pc) tab = Function.update (holdsOf threads tab) (.thread t) pc.map := by
  funext o
  cases o with
  | thread t' =>
    simp only [holdsOf, update_apply, Owner.thread.injEq]
    split_ifs <;> rfl
  | entry i => rw [update_of_ne Owner.noConfusion, holdsOf, holdsOf]

theorem slotsOf_update_same {threads : ℕ → Pc} {t : ℕ} {pc : Pc} (h : pc.slot = (threads t).slot) :
    slotsOf (Function.update threads t pc) = slotsOf threads := by
  rw [slotsOf_update, h]
  exact update_eq_self t (slotsOf threads)

theorem holdsOf_update_same {threads : ℕ → Pc} {t : ℕ} {pc : Pc} (h : pc.map = (threads t).map) (tab : Table) :
    holdsOf (Function.update threads t pc) tab = holdsOf threads tab := by
  rw [holdsOf_update, h]
  exact update_eq_self (Owner.thread t) (holdsOf threads tab)

theorem holdsOf_set {tab : Table} (hi : i < tab.cap) (e : Entry) :
    holdsOf threads (tab.set i e) = Function.update (holdsOf threads tab) (.entry i) e.sem.addr? := by
  funext o
  cases o with
  | thread t => rw [update_of_ne Owner.noConfusion, holdsOf, holdsOf]
  | entry j =>
    simp only [holdsOf, Table.set, update_apply, Owner.entry.injEq]
    by_cases hji : j = i <;> simp [hji, hi]

/-- A change of an entry that has no mapping, and gets none. -/
theorem holdsOf_set_of_none {tab : Table} (hi : i < tab.cap) {e : Entry}
    (hold : (tab.entries i).sem.addr? = none) (hnew : e.sem.addr? = none) :
    holdsOf threads (tab.set i e) = holdsOf threads tab := by
  have hnone : holdsOf threads tab (.entry i) = none := by rw [holdsOf, if_pos hi, hold]
  rw [holdsOf_set threads hi, hnew, ← hnone, update_eq_self]

/-- The invariant. -/
structure Inv (a : Arch) (w : World) : Prop where
  tab : w.tab.Inv a w.handles
  slots : Owned (slotsOf w.threads) w.tab.Reserved
  maps : Owned (holdsOf w.threads w.tab) (· ∈ w.mapped)

theorem Inv.init (a : Arch) : Inv a init := by
  have hholds (o : Owner) (p : ℕ) : holdsOf SemOpen.init.threads SemOpen.init.tab o ≠ some p := by
    cases o <;> nofun
  refine ⟨⟨nofun, nofun, nofun⟩, ⟨nofun, fun p => ⟨fun h => absurd h.1 (Nat.not_lt_zero p), nofun⟩⟩,
    ⟨fun h => absurd h (hholds _ _), fun p => ⟨fun h => absurd h (Finset.notMem_empty p), fun ⟨o, h⟩ => ?_⟩⟩⟩
  exact absurd h (hholds o p)

variable {w : World} {t : ℕ} {pc : Pc}

theorem holdsOf_entry (hi : i < w.tab.cap) (hsem : (w.tab.entries i).sem = .addr p) :
    holdsOf w.threads w.tab (.entry i) = some p := by
  rw [holdsOf, if_pos hi, hsem]
  rfl

theorem entry_of_holdsOf (h : holdsOf w.threads w.tab (.entry i) = some p) :
    i < w.tab.cap ∧ (w.tab.entries i).sem = .addr p := by
  rw [holdsOf] at h
  split_ifs at h with hi
  refine ⟨hi, ?_⟩
  cases hsem : (w.tab.entries i).sem <;> simp_all [Sem.addr?]

/-! ## Operations on files -/

theorem Inv.goto (h : Inv a w) (hslot : pc.slot = (w.threads t).slot) (hmap : pc.map = (w.threads t).map) :
    Inv a (w.goto t pc) := by
  refine ⟨h.tab, ?_, ?_⟩
  · rw [World.goto, slotsOf_update_same hslot]
    exact h.slots
  · rw [World.goto, holdsOf_update_same hmap]
    exact h.maps

theorem Inv.mmap (h : Inv a w) (hslot : pc.slot = (w.threads t).slot) (hnone : (w.threads t).map = none)
    (hmap : pc.map = some m.addr) : Inv a (w.mmap t m pc) := by
  unfold World.mmap
  split
  · exact h
  rename_i hfresh
  refine ⟨h.tab, ?_, ?_⟩
  · rw [World.goto, slotsOf_update_same hslot]
    exact h.slots
  · rw [World.goto, holdsOf_update, hmap]
    exact h.maps.acquire hnone hfresh fun q => by rw [Finset.mem_insert, or_comm]

theorem Inv.munmap (h : Inv a w) (hslot : pc.slot = (w.threads t).slot) (hold : (w.threads t).map = some p)
    (hmap : pc.map = none) : Inv a (w.munmap t p pc) := by
  refine ⟨h.tab, ?_, ?_⟩
  · rw [World.munmap, World.goto, slotsOf_update_same hslot]
    exact h.slots
  · rw [World.munmap, World.goto, holdsOf_update, hmap]
    exact h.maps.drop hold fun q => by rw [Finset.mem_erase, and_comm]

/-- Between the operations on files a thread keeps its slot. -/
theorem create_slot (args : Args) (s : ℕ) : (create args s).slot = some s ∧ (create args s).map = none := by
  unfold create
  split <;> exact ⟨rfl, rfl⟩

theorem again_slot (args : Args) (s : ℕ) : (again args s).slot = some s ∧ (again args s).map = none := by
  unfold again
  split
  · exact create_slot args s
  · exact ⟨rfl, rfl⟩

theorem begin_slot (args : Args) (s : ℕ) : (begin args s).slot = some s ∧ (begin args s).map = none := by
  unfold begin
  split <;> exact ⟨rfl, rfl⟩

/-- **An operation on files** keeps the invariant. -/
theorem Inv.returns (h : Inv a w) (t : ℕ) (r : Result) : Inv a (w.returns t r) := by
  have hgoto {pc pc' : Pc} (hpc : w.threads t = pc) (hslot : pc'.slot = pc.slot) (hmap : pc'.map = pc.map) :
      Inv a (w.goto t pc') := h.goto (by rw [hpc, hslot]) (by rw [hpc, hmap])
  unfold World.returns
  cases hpc : w.threads t with
  | idle => exact h
  | munmap p => exact h
  | commit s m => exact h
  | fail s => exact h
  | access args s =>
    cases r with
    | ok => exact hgoto hpc rfl rfl
    | _ => exact hgoto hpc (again_slot args s).1 (again_slot args s).2
  | openName args s =>
    cases r with
    | enoent => exact hgoto hpc (create_slot args s).1 (create_slot args s).2
    | _ => exact hgoto hpc rfl rfl
  | mapName s =>
    cases r with
    | mapped m => exact h.mmap (by rw [hpc]; rfl) (by rw [hpc]; rfl) rfl
    | _ => exact hgoto hpc rfl rfl
  | openTmp args s =>
    cases r with
    | eexist => exact hgoto hpc (again_slot args s).1 (again_slot args s).2
    | _ => exact hgoto hpc rfl rfl
  | mapTmp args s =>
    cases r with
    | mapped m => exact h.mmap (by rw [hpc]; rfl) (by rw [hpc]; rfl) rfl
    | _ => exact hgoto hpc rfl rfl
  | link args s m =>
    cases r with
    | ok => exact hgoto hpc rfl rfl
    | eexist =>
      refine h.munmap ?_ (by rw [hpc]; rfl) ?_ <;> split
      · rw [hpc]
        rfl
      · rw [hpc]
        exact (again_slot args s).1
      · rfl
      · exact (again_slot args s).2
    | _ => exact h.munmap (by rw [hpc]; rfl) (by rw [hpc]; rfl) rfl

/-! ## The sections of `sem_open` -/

theorem Inv.entry_of_slot (h : Inv a w) (hs : (w.threads t).slot = some s) :
    s < w.tab.cap ∧ w.tab.entries s = ⟨0, .reserved, 0⟩ := by
  obtain ⟨hlt, hsem⟩ := h.slots.live_of_holds hs
  refine ⟨hlt, ?_⟩
  rw [(h.tab.entry s hlt).of_free (.inr hsem), hsem]

/-- What the first section does to the table: an entry is reserved that was free, or one behind the others. -/
structure Reserves (tab tab' : Table) (s : ℕ) : Prop where
  lt : s < tab'.cap
  le : tab.cap ≤ tab'.cap
  reserved : (tab'.entries s).sem = .reserved
  free : s < tab.cap → (tab.entries s).sem = .null
  other : ∀ i < tab'.cap, i ≠ s → (i < tab.cap ∧ tab'.entries i = tab.entries i) ∨
    (tab.cap ≤ i ∧ (tab'.entries i).sem = .null)

theorem reserve_spec (h : tab.Inv a handles) {realloc : Bool} {tab' : Table}
    (hr : reserve a tab realloc = some (tab', s)) : tab'.Inv a handles ∧ Reserves tab tab' s := by
  unfold reserve at hr
  simp only at hr
  split at hr
  · rename_i hlt
    obtain ⟨rfl, rfl⟩ := Prod.mk.inj (Option.some.inj hr)
    have hnull := not_not.mp (of_decide_eq_false (skipTo_lt hlt).2)
    have hentry := (h.entry _ hlt).of_free (.inl hnull)
    refine ⟨?_, hlt, le_rfl, by rw [Table.set_entries_self], fun _ => hnull, fun i hi hne => .inl ⟨hi, ?_⟩⟩
    · rw [hentry]
      exact h.setFree (by rw [hentry]) (.inr rfl)
    · exact Table.set_entries_of_ne _ _ hne
  · generalize a.wrap (if tab.cap ≠ 0 then tab.cap * 2 else 1) = newcap at hr
    split at hr
    · cases hr
    rename_i hcap
    split at hr
    · obtain ⟨rfl, rfl⟩ := Prod.mk.inj (Option.some.inj hr)
      have hlt : tab.cap < newcap := Nat.not_le.mp (not_or.mp hcap).1
      have hnew {i : ℕ} (hi : tab.cap ≤ i) : (tab.grow newcap).entries i = ⟨0, .null, 0⟩ := if_neg (Nat.not_lt.mpr hi)
      refine ⟨?_, hlt, hlt.le, by rw [Table.set_entries_self], fun hlt => absurd hlt (lt_irrefl _), fun i hi hne => ?_⟩
      · rw [hnew le_rfl]
        exact (h.grow hlt.le).setFree (by rw [hnew le_rfl]) (.inr rfl)
      · rw [Table.set_entries_of_ne _ _ hne]
        rcases lt_or_ge i tab.cap with hi' | hi'
        · exact .inl ⟨hi', if_pos hi'⟩
        · exact .inr ⟨hi', by rw [hnew hi']⟩
    · cases hr

/-- **The first section of `sem_open`.** -/
theorem Inv.semOpen (h : Inv a w) (hpc : w.threads t = .idle) (args : Args) (realloc : Bool) :
    Inv a (w.semOpen a t args realloc) := by
  unfold World.semOpen
  split
  · exact h
  rename_i tab' s hr
  obtain ⟨htab, hres⟩ := reserve_spec h.tab hr
  obtain ⟨hslot, hmap⟩ := begin_slot args s
  refine ⟨htab, ?_, ?_⟩
  · rw [World.goto, slotsOf_update, hslot]
    refine h.slots.acquire (by rw [slotsOf, hpc]; rfl) (fun hs => ?_) fun q => ⟨fun ⟨hq, hsem⟩ => ?_, ?_⟩
    · have hnull := hs.2
      rw [hres.free hs.1] at hnull
      cases hnull
    · by_cases hqs : q = s
      · exact .inr hqs
      · rcases hres.other q hq hqs with ⟨hq', heq⟩ | ⟨-, heq⟩ <;> rw [heq] at hsem
        · exact .inl ⟨hq', hsem⟩
        · cases hsem
    · rintro (⟨hq, hsem⟩ | rfl)
      · have hqs : q ≠ s := by
          rintro rfl
          rw [hres.free hq] at hsem
          cases hsem
        rcases hres.other q (hq.trans_le hres.le) hqs with ⟨-, heq⟩ | ⟨hge, -⟩
        · exact ⟨hq.trans_le hres.le, by rw [heq, hsem]⟩
        · omega
      · exact ⟨hres.lt, hres.reserved⟩
  · rw [World.goto, holdsOf_update_same (by rw [hmap, hpc]; rfl)]
    convert h.maps using 1
    funext o
    cases o with
    | thread t' => rfl
    | entry i =>
      -- the entries that are new or reserved have no mapping
      have hle := hres.le
      rw [holdsOf, holdsOf]
      by_cases his : i = s
      · rw [his, if_pos hres.lt, hres.reserved]
        split_ifs with hlt
        · rw [hres.free hlt]
          rfl
        · rfl
      · by_cases hi : i < tab'.cap
        · rcases hres.other i hi his with ⟨hi', heq⟩ | ⟨hi', heq⟩
          · rw [if_pos hi, if_pos hi', heq]
          · rw [if_pos hi, if_neg (Nat.not_lt.mpr hi'), heq]
            rfl
        · rw [if_neg hi, if_neg (by omega)]

theorem Table.reserved_set {e : Entry} (he : e.sem ≠ .reserved) (q : ℕ) :
    (tab.set i e).Reserved q ↔ tab.Reserved q ∧ q ≠ i := by
  unfold Table.Reserved
  by_cases hqi : q = i
  · simp [hqi, he]
  · simp [hqi, Table.set_entries_of_ne]

theorem Inv.drop_slot (h : Inv a w) (hs : (w.threads t).slot = some s) (hpc : pc.slot = none) {tab' : Table}
    (hres : ∀ q, tab'.Reserved q ↔ w.tab.Reserved q ∧ q ≠ s) :
    Owned (slotsOf (Function.update w.threads t pc)) tab'.Reserved := by
  rw [slotsOf_update, hpc]
  exact h.slots.drop hs hres

/-- **The section of `sem_open` after a failure.** -/
theorem Inv.release (h : Inv a w) (hpc : w.threads t = .fail s) :
    ∃ tab, release w.tab s = some tab ∧ tab.cap = w.tab.cap ∧ Inv a { w.goto t .idle with tab := tab } := by
  have hs : (w.threads t).slot = some s := by rw [hpc]; rfl
  obtain ⟨hlt, hentry⟩ := h.entry_of_slot hs
  refine ⟨w.tab.set s ⟨0, .null, 0⟩, ?_, rfl, h.tab.setFree (by rw [hentry]) (.inl rfl), ?_, ?_⟩
  · rw [SemOpen.release, Table.setSem, if_pos hlt, hentry]
  · exact h.drop_slot hs rfl (Table.reserved_set Sem.noConfusion)
  · rw [World.goto, holdsOf_update_same (by rw [hpc]; rfl), holdsOf_set_of_none _ hlt (by rw [hentry]; rfl) rfl]
    exact h.maps

theorem one_le_sizeMax (a : Arch) : 1 ≤ a.sizeMax := by cases a <;> decide

/-- The inode of a call is in the table: its entry gets one more reference, or has too many. -/
theorem Inv.commit_found (h : Inv a w) (hpc : w.threads t = .commit s m)
    (hi : i < w.tab.cap) (hino : (w.tab.entries i).ino = m.ino) :
    ∃ r, ((w.tab.setSem s .null).bind fun tab => register a tab i m.ino (tab.entries i).sem) = some r ∧
      r.1.cap = w.tab.cap ∧ Inv a { w.goto t .idle with
        tab := r.1
        mapped := w.mapped.erase m.addr
        handles := (r.2.map (m.ino, ·)).toList ++ w.handles } := by
  have hs : (w.threads t).slot = some s := by rw [hpc]; rfl
  have hmap : (w.threads t).map = some m.addr := by rw [hpc]; rfl
  obtain ⟨hlt, hentry⟩ := h.entry_of_slot hs
  have hok := h.tab.entry i hi
  obtain ⟨q, hq⟩ := hok.of_ino_pos (hino ▸ m.ino_pos)
  obtain ⟨-, hpos, hmax, hcount⟩ := hok.of_addr hq
  have hne : i ≠ s := by
    rintro rfl
    rw [hentry] at hino
    exact Nat.ne_of_gt m.ino_pos hino.symm
  -- the slot of the call is free again
  have hset : w.tab.setSem s .null = some (w.tab.set s ⟨0, .null, 0⟩) := by rw [Table.setSem, if_pos hlt, hentry]
  have hfree := h.tab.setFree (by rw [hentry]) (.inl rfl)
  have hsame : (w.tab.set s ⟨0, .null, 0⟩).entries i = w.tab.entries i := Table.set_entries_of_ne _ _ hne
  have hholds : holdsOf w.threads (w.tab.set s ⟨0, .null, 0⟩) = holdsOf w.threads w.tab :=
    holdsOf_set_of_none _ hlt (by rw [hentry]; rfl) rfl
  have hmaps {tab : Table} (heq : holdsOf w.threads tab = holdsOf w.threads w.tab) :
      Owned (holdsOf (Function.update w.threads t .idle) tab) (· ∈ w.mapped.erase m.addr) := by
    rw [holdsOf_update, heq]
    exact h.maps.drop hmap fun q => by rw [Finset.mem_erase, and_comm]
  rw [hset, Option.bind_some, hsame, hq, register, Table.set_cap, if_pos hi, hsame]
  split
  · exact ⟨_, rfl, rfl, hfree, h.drop_slot hs rfl (Table.reserved_set Sem.noConfusion), hmaps hholds⟩
  · refine ⟨_, rfl, rfl, ?_, h.drop_slot hs rfl fun k => ?_, hmaps ?_⟩
    · rw [hino] at hcount
      refine hfree.setCount (n := (w.tab.entries i).refcnt) hi ?_ (Nat.succ_pos _) (by omega) ?_ fun g hg => ?_
      · rw [hsame, ← hino, ← hq]
      · exact List.count_cons_self.trans (congrArg (· + 1) hcount)
      · exact count_cons_of_ne (Ne.symm hg)
    · rw [Table.reserved_set Sem.noConfusion, Table.reserved_set Sem.noConfusion]
      refine ⟨fun hk => hk.1, fun hk => ⟨hk, ?_⟩⟩
      rintro rfl
      have hsem := hk.1.2
      rw [hq] at hsem
      cases hsem
    · have hself := holdsOf_entry hi hq
      refine (holdsOf_set w.threads (show i < (w.tab.set s ⟨0, .null, 0⟩).cap from hi) _).trans ?_
      show Function.update (holdsOf w.threads (w.tab.set s ⟨0, .null, 0⟩)) (.entry i) (some q) = _
      rw [hholds, ← hself, update_eq_self]

/-- The inode of a call is not in the table: it takes the slot of the call. -/
theorem Inv.commit_new (h : Inv a w) (hpc : w.threads t = .commit s m)
    (hnew : ∀ i < w.tab.cap, (w.tab.entries i).ino ≠ m.ino) :
    ∃ r, register a w.tab s m.ino (.addr m.addr) = some r ∧ r.1.cap = w.tab.cap ∧
      Inv a { w.goto t .idle with
        tab := r.1
        handles := (r.2.map (m.ino, ·)).toList ++ w.handles } := by
  have hs : (w.threads t).slot = some s := by rw [hpc]; rfl
  obtain ⟨hlt, hentry⟩ := h.entry_of_slot hs
  have hone := one_le_sizeMax a
  rw [register, if_pos hlt, hentry, if_neg (show ¬0 = a.sizeMax by omega)]
  refine ⟨_, rfl, rfl, ?_, h.drop_slot hs rfl (Table.reserved_set Sem.noConfusion), ?_⟩
  · exact h.tab.setNew hlt (by rw [hentry]) m.ino_pos hnew hone
  · -- the mapping goes from the thread to the entry
    have hnone : holdsOf w.threads w.tab (.entry s) = none := by rw [holdsOf, if_pos hlt, hentry]; rfl
    rw [holdsOf_set _ hlt, World.goto, holdsOf_update]
    exact h.maps.move (by rw [holdsOf, hpc]; rfl) hnone

/-- **The second section of `sem_open`.** -/
theorem Inv.commit (h : Inv a w) (hpc : w.threads t = .commit s m) :
    ∃ w', w.commit a t s m = some w' ∧ w'.tab.cap = w.tab.cap ∧ Inv a w' := by
  unfold World.commit SemOpen.commit
  simp only
  split
  · rename_i hlt
    have hino := not_not.mp (of_decide_eq_false (skipTo_lt hlt).2)
    obtain ⟨r, hr, hcap, hinv⟩ := h.commit_found hpc hlt hino
    obtain ⟨tab, hset, hreg⟩ := Option.bind_eq_some_iff.mp hr
    exact ⟨_, by rw [hset, Option.bind_some, hreg]; rfl, hcap, hinv⟩
  · rename_i hge
    have hnew : ∀ i < w.tab.cap, (w.tab.entries i).ino ≠ m.ino := fun i hi =>
      of_decide_eq_true ((skipTo_spec _ (Nat.zero_le _)).2.2.1 i (Nat.zero_le i) (hi.trans_le (Nat.not_lt.mp hge)))
    obtain ⟨r, hr, hcap, hinv⟩ := h.commit_new hpc hnew
    exact ⟨_, by rw [hr]; rfl, hcap, hinv⟩

/-! ## The section of `sem_close` -/

theorem eraseP_congr {l : List (ℕ × Sem)} {p : ℕ × Sem → Bool} (h : ∀ x ∈ l, p x ↔ x = g) :
    l.eraseP p = l.erase g := by
  induction l with
  | nil => rfl
  | cons x l ih =>
    rw [eraseP_cons, erase_cons, ih fun y hy => h y (mem_cons_of_mem x hy)]
    have hx := h x mem_cons_self
    by_cases hxg : x = g
    · rw [hx.mpr hxg, hxg, beq_self_eq_true]
      rfl
    · rw [if_neg fun heq => hxg (eq_of_beq heq), Bool.eq_false_iff.mpr fun hp => hxg (hx.mp hp)]
      rfl

/-- The semaphores that are open with the address of an entry are all the same. -/
theorem Inv.handle_eq_of_addr (h : Inv a w) (hi : i < w.tab.cap) (hsem : (w.tab.entries i).sem = .addr p)
    (hg : g ∈ w.handles) (hgp : g.2 = .addr p) : g = ((w.tab.entries i).ino, .addr p) := by
  -- an address is held by one entry only
  obtain ⟨j, hj, -, hino, hsem'⟩ := h.tab.handle g hg
  rw [hgp] at hsem'
  obtain rfl := Owner.entry.inj (h.maps.inj (holdsOf_entry hi hsem) (holdsOf_entry hj hsem'))
  exact Prod.ext hino.symm hgp

theorem Inv.eraseP_handles (h : Inv a w) (hi : i < w.tab.cap) (hsem : (w.tab.entries i).sem = .addr p) :
    w.handles.eraseP (fun g => g.2 = .addr p) = w.handles.erase ((w.tab.entries i).ino, .addr p) :=
  eraseP_congr fun _ hg => ⟨fun hgp => h.handle_eq_of_addr hi hsem hg (of_decide_eq_true hgp),
    fun hgp => decide_eq_true (by rw [hgp])⟩

theorem Inv.find_addr (h : Inv a w) (hp : Sem.addr p ∈ w.handles.map Prod.snd) :
    skipTo (fun i => (w.tab.entries i).sem ≠ .addr p) w.tab.cap 0 < w.tab.cap ∧
      (w.tab.entries (skipTo (fun i => (w.tab.entries i).sem ≠ .addr p) w.tab.cap 0)).sem = .addr p := by
  obtain ⟨g, hg, hgp⟩ := List.mem_map.mp hp
  obtain ⟨j, hj, -, -, hsem⟩ := h.tab.handle g hg
  rw [hgp] at hsem
  have hle := skipTo_le_of_not (p := fun i => decide ((w.tab.entries i).sem ≠ .addr p)) (Nat.zero_le j) hj
    (decide_eq_false (not_not_intro hsem))
  have hlt := hle.trans_lt hj
  exact ⟨hlt, not_not.mp (of_decide_eq_false (skipTo_lt hlt).2)⟩

theorem reserved_set_of_addr (hsem : (tab.entries i).sem = .addr p) (he : e.sem ≠ .reserved) (q : ℕ) :
    (tab.set i e).Reserved q ↔ tab.Reserved q := by
  rw [Table.reserved_set he]
  refine ⟨And.left, fun hq => ⟨hq, ?_⟩⟩
  rintro rfl
  rw [hq.2] at hsem
  cases hsem

theorem Inv.close_one (h : Inv a w) (hpc : w.threads t = .idle) (hi : i < w.tab.cap)
    (hsem : (w.tab.entries i).sem = .addr p) (hmore : (w.tab.entries i).refcnt - 1 ≠ 0) :
    Inv a { w.goto t .idle with
      tab := w.tab.set i ⟨(w.tab.entries i).ino, .addr p, (w.tab.entries i).refcnt - 1⟩
      handles := w.handles.erase ((w.tab.entries i).ino, .addr p) } := by
  obtain ⟨-, hpos, hmax, hcount⟩ := (h.tab.entry i hi).of_addr hsem
  have hentry : w.tab.entries i = ⟨(w.tab.entries i).ino, .addr p, (w.tab.entries i).refcnt⟩ := by rw [← hsem]
  refine ⟨?_, ?_, ?_⟩
  · refine h.tab.setCount hi hentry (by omega) (by omega) ?_ fun g hg => count_erase_of_ne hg
    rw [count_erase_self, hcount]
  · rw [World.goto, slotsOf_update_same (by rw [hpc])]
    exact h.slots.congr (reserved_set_of_addr hsem Sem.noConfusion)
  · have hself := holdsOf_entry hi hsem
    rw [World.goto, holdsOf_update_same (by rw [hpc]), holdsOf_set _ hi]
    show Owned (Function.update (holdsOf w.threads w.tab) (.entry i) (some p)) _
    rw [← hself, update_eq_self]
    exact h.maps

/-- The last semaphore of an entry is closed: its mapping goes to the thread. -/
theorem Inv.close_last (h : Inv a w) (hpc : w.threads t = .idle) (hi : i < w.tab.cap)
    (hsem : (w.tab.entries i).sem = .addr p) (hlast : (w.tab.entries i).refcnt = 1) :
    Inv a { w.goto t (.munmap p) with
      tab := w.tab.set i ⟨0, .null, 0⟩
      handles := w.handles.erase ((w.tab.entries i).ino, .addr p) } := by
  refine ⟨h.tab.setLast hi (by rw [← hsem, ← hlast]), ?_, ?_⟩
  · rw [World.goto, slotsOf_update_same (by rw [hpc]; rfl)]
    exact h.slots.congr (reserved_set_of_addr hsem Sem.noConfusion)
  · have hself := holdsOf_entry hi hsem
    rw [World.goto, holdsOf_update, holdsOf_set _ hi]
    exact h.maps.move hself (by rw [holdsOf, hpc]; rfl)

/-- The table is freed when all its entries are free: no slot is reserved then, and no semaphore is open. -/
theorem Inv.free (h : Inv a w) (hnull : ∀ i < w.tab.cap, (w.tab.entries i).sem = .null) :
    Inv a { w with tab := ⟨w.tab.entries, 0⟩ } ∧ w.handles = [] ∧ ∀ t, (w.threads t).slot = none := by
  have hhandles : w.handles = [] := by
    refine List.eq_nil_iff_forall_not_mem.mpr fun g hg => ?_
    obtain ⟨j, hj, hpos, hino, -⟩ := h.tab.handle g hg
    obtain ⟨p, hp⟩ := (h.tab.entry j hj).of_ino_pos (hino ▸ hpos)
    rw [hnull j hj] at hp
    cases hp
  have hslots (q : ℕ) : ¬w.tab.Reserved q := by
    rintro ⟨hq, hsem⟩
    rw [hnull q hq] at hsem
    cases hsem
  refine ⟨⟨⟨fun i hi => absurd hi (Nat.not_lt_zero i), fun i hi => absurd hi (Nat.not_lt_zero i), fun g hg => ?_⟩, ?_, ?_⟩,
    hhandles, fun t => ?_⟩
  · rw [hhandles] at hg
    exact absurd hg not_mem_nil
  · exact h.slots.congr fun q => iff_of_false (fun hq => Nat.not_lt_zero q hq.1) (hslots q)
  · convert h.maps using 1
    funext o
    cases o with
    | thread t => rfl
    | entry i =>
      rw [holdsOf, holdsOf, if_neg (Nat.not_lt_zero i)]
      split
      · rename_i hi
        rw [hnull i hi]
        rfl
      · rfl
  · by_contra hne
    obtain ⟨s, hs⟩ := Option.ne_none_iff_exists'.mp hne
    exact hslots s (h.slots.live_of_holds hs)

/-- What the section of `sem_close` does to the table, for the entry `i` of the semaphore. -/
theorem closeEntry_spec (hlt : skipTo (fun i => (tab.entries i).sem ≠ .addr p) tab.cap 0 = i)
    (hi : i < tab.cap) (hsem : (tab.entries i).sem = .addr p) (hpos : 0 < (tab.entries i).refcnt)
    (hmax : (tab.entries i).refcnt ≤ a.sizeMax) :
    ((tab.entries i).refcnt ≠ 1 ∧ closeEntry a tab p =
      some ⟨tab.set i ⟨(tab.entries i).ino, .addr p, (tab.entries i).refcnt - 1⟩, false⟩) ∨
    ((tab.entries i).refcnt = 1 ∧ (closeEntry a tab p = some ⟨tab.set i ⟨0, .null, 0⟩, true⟩ ∨
      closeEntry a tab p = some ⟨⟨(tab.set i ⟨0, .null, 0⟩).entries, 0⟩, true⟩ ∧
        ∀ j < tab.cap, ((tab.set i ⟨0, .null, 0⟩).entries j).sem = .null)) := by
  have hsub : a.sub (tab.entries i).refcnt 1 = (tab.entries i).refcnt - 1 :=
    Arch.sub_of_le hpos (by unfold Arch.sizeMax at hmax; have := Nat.two_pow_pos a.bits; omega)
  unfold closeEntry
  simp only [hlt, if_neg (Nat.ne_of_lt hi), hsub, hsem]
  by_cases hone : (tab.entries i).refcnt = 1
  · refine .inr ⟨hone, ?_⟩
    simp only [hone, ne_eq, not_true_eq_false, if_false]
    split
    · exact .inl rfl
    · rename_i hactive
      refine .inr ⟨rfl, fun j hj => of_decide_eq_true ?_⟩
      exact (skipTo_spec _ (Nat.zero_le _)).2.2.1 j (Nat.zero_le j) (hj.trans_le (Nat.not_lt.mp hactive))
  · exact .inl ⟨hone, if_pos (by omega)⟩

/-- **The section of `sem_close`** for a semaphore that is open. It is to be unmapped if it is not open any more, and
the table is freed only when no slot is reserved and no semaphore is open. -/
theorem Inv.semClose (h : Inv a w) (hpc : w.threads t = .idle) (hp : Sem.addr p ∈ w.handles.map Prod.snd) :
    Inv a (w.semClose a t p) ∧
      ((w.semClose a t p).threads t = .munmap p ↔ Sem.addr p ∉ (w.semClose a t p).handles.map Prod.snd) ∧
      ((w.semClose a t p).tab.cap = w.tab.cap ∨
        (w.semClose a t p).handles = [] ∧ ∀ t', ((w.semClose a t p).threads t').slot = none) := by
  obtain ⟨hi, hsem⟩ := h.find_addr hp
  generalize hfind : skipTo (fun i => decide ((w.tab.entries i).sem ≠ .addr p)) w.tab.cap 0 = i at hi hsem
  obtain ⟨hino, hpos, hmax, hcount⟩ := (h.tab.entry i hi).of_addr hsem
  -- which semaphores are left
  have hleft : Sem.addr p ∈ (w.handles.erase ((w.tab.entries i).ino, .addr p)).map Prod.snd ↔
      (w.tab.entries i).refcnt - 1 ≠ 0 := by
    rw [← hcount, ← count_erase_self, ← Nat.pos_iff_ne_zero, count_pos_iff, mem_map]
    refine ⟨fun ⟨g, hg, hgp⟩ => ?_, fun hg => ⟨_, hg, rfl⟩⟩
    obtain rfl := h.handle_eq_of_addr hi hsem (mem_of_mem_erase hg) hgp
    exact hg
  have hself (pc : Pc) : Function.update w.threads t pc t = pc := update_self _ _ _
  have hclose := closeEntry_spec hfind hi hsem hpos hmax
  unfold World.semClose
  rw [if_pos hp, h.eraseP_handles hi hsem]
  rcases hclose with ⟨hmore, hclose⟩ | ⟨hone, hclose | ⟨hclose, hnull⟩⟩ <;> rw [hclose]
  · refine ⟨h.close_one hpc hi hsem (by omega), iff_of_false ?_ (not_not_intro (hleft.mpr (by omega))), .inl rfl⟩
    exact fun heq => Pc.noConfusion ((hself .idle).symm.trans heq)
  · exact ⟨h.close_last hpc hi hsem hone, iff_of_true (hself _) fun hmem => hleft.mp hmem (by omega), .inl rfl⟩
  · obtain ⟨hfree, hnil, hslots⟩ := (h.close_last hpc hi hsem hone).free hnull
    exact ⟨hfree, iff_of_true (hself _) fun hmem => hleft.mp hmem (by omega), .inr ⟨hnil, hslots⟩⟩

/-! ## Runs -/

theorem World.semOpen_cap (h : Inv a w) (t : ℕ) (args : Args) (realloc : Bool) :
    w.tab.cap ≤ (w.semOpen a t args realloc).tab.cap := by
  unfold World.semOpen
  split
  · exact le_rfl
  · rename_i tab' s hr
    exact (reserve_spec h.tab hr).2.le

theorem World.returns_cap (w : World) (t : ℕ) (r : Result) : (w.returns t r).tab = w.tab := by
  have hmmap (m : Mapping) (pc : Pc) : (w.mmap t m pc).tab = w.tab := by
    unfold World.mmap
    split <;> rfl
  unfold World.returns
  split <;> first | rfl | exact hmmap _ _

/-- The table is freed in a step only if no slot is reserved and no semaphore is open afterwards. -/
def FreesRightly (w w' : World) : Prop :=
  w.tab.cap ≤ w'.tab.cap ∨ w'.handles = [] ∧ ∀ t, (w'.threads t).slot = none

/-- **A step keeps the invariant**, and accesses nothing beyond the table. -/
theorem Inv.step (h : Inv a w) (t : ℕ) (e : Event) :
    ∃ w', step a w t e = some w' ∧ Inv a w' ∧ FreesRightly w w' := by
  unfold SemOpen.step
  split
  · rename_i args realloc hpc
    exact ⟨_, rfl, h.semOpen hpc _ _, .inl (World.semOpen_cap h t args realloc)⟩
  · rename_i p hpc
    refine ⟨_, rfl, ?_⟩
    by_cases hp : Sem.addr p ∈ w.handles.map Prod.snd
    · obtain ⟨hinv, -, hfrees⟩ := h.semClose hpc hp
      exact ⟨hinv, hfrees.imp_left Eq.ge⟩
    · rw [World.semClose, if_neg hp]
      exact ⟨h, .inl le_rfl⟩
  · rename_i s m hpc
    obtain ⟨w', hcommit, hcap, hinv⟩ := h.commit hpc
    exact ⟨w', hcommit, hinv, .inl hcap.ge⟩
  · rename_i s hpc
    obtain ⟨tab, hrel, hcap, hinv⟩ := h.release hpc
    exact ⟨_, by rw [hrel]; rfl, hinv, .inl hcap.ge⟩
  · rename_i p hpc
    exact ⟨_, rfl, h.munmap (by rw [hpc]; rfl) (by rw [hpc]; rfl) rfl, .inl le_rfl⟩
  · exact ⟨_, rfl, h.returns t _, .inl (by rw [World.returns_cap])⟩
  · exact ⟨w, rfl, h, .inl le_rfl⟩

/-- **A run keeps the invariant.** -/
theorem Inv.run : ∀ (es : List (ℕ × Event)) {w : World}, Inv a w → ∃ w', run a w es = some w' ∧ Inv a w'
  | [], w, h => ⟨w, rfl, h⟩
  | e :: es, w, h => by
    obtain ⟨w1, hstep, h1, -⟩ := h.step e.1 e.2
    obtain ⟨w', hrun, h'⟩ := Inv.run es h1
    exact ⟨w', by rw [SemOpen.run, hstep, Option.bind_some, hrun], h'⟩

/-- What holds of the semaphores that are open, the slots and the mappings. -/
structure Safe (w : World) : Prop where
  /-- two semaphores that are open have the same pointer if and only if they have the same inode -/
  pointer : ∀ g ∈ w.handles, ∀ g' ∈ w.handles, g.1 = g'.1 ↔ g.2 = g'.2
  /-- each has an entry -/
  entry : ∀ g ∈ w.handles, ∃ i < w.tab.cap, (w.tab.entries i).ino = g.1 ∧ (w.tab.entries i).sem = g.2
  /-- an entry counts the semaphores that are open with its pointer -/
  refcnt : ∀ i < w.tab.cap, (w.tab.entries i).refcnt = w.handles.countP fun g => g.2 = (w.tab.entries i).sem
  /-- the slot of a thread in `sem_open` is in the table, is reserved, and is that of no other thread -/
  slot : ∀ t s, (w.threads t).slot = some s → s < w.tab.cap ∧ (w.tab.entries s).sem = .reserved ∧
    ∀ t', (w.threads t').slot = some s → t' = t
  /-- the addresses that are mapped are those of semaphores that are open, and those of threads -/
  mapped : ∀ p, p ∈ w.mapped ↔ .addr p ∈ w.handles.map Prod.snd ∨ ∃ t, (w.threads t).map = some p
  /-- no thread unmaps a semaphore that is open -/
  kept : ∀ p, .addr p ∈ w.handles.map Prod.snd → ∀ t, (w.threads t).map ≠ some p

/-- A semaphore that is open has an address, and an entry that holds it. -/
theorem Inv.addr_of_handle (h : Inv a w) (hg : g ∈ w.handles) :
    ∃ i < w.tab.cap, ∃ p, g = ((w.tab.entries i).ino, .addr p) ∧ (w.tab.entries i).sem = .addr p := by
  obtain ⟨i, hi, hpos, hino, hsem⟩ := h.tab.handle g hg
  obtain ⟨p, hp⟩ := (h.tab.entry i hi).of_ino_pos (hino ▸ hpos)
  exact ⟨i, hi, p, Prod.ext hino.symm (hsem.symm.trans hp), hp⟩

theorem Inv.safe (h : Inv a w) : Safe w := by
  refine ⟨fun g hg g' hg' => ?_, fun g hg => ?_, fun i hi => ?_, fun t s hs => ?_, fun p => ?_, fun p hp t ht => ?_⟩
  · obtain ⟨i, hi, p, rfl, hsem⟩ := h.addr_of_handle hg
    obtain ⟨hino, -⟩ := (h.tab.entry i hi).of_addr hsem
    refine ⟨fun heq => ?_, fun heq => ?_⟩
    · rw [h.tab.handle_eq hi (Nat.ne_of_gt hino) hg' heq.symm, hsem]
    · rw [h.handle_eq_of_addr hi hsem hg' heq.symm]
  · obtain ⟨i, hi, -, hino, hsem⟩ := h.tab.handle g hg
    exact ⟨i, hi, hino, hsem⟩
  · by_cases hopen : ∃ p, (w.tab.entries i).sem = .addr p
    · obtain ⟨p, hsem⟩ := hopen
      rw [← ((h.tab.entry i hi).of_addr hsem).2.2.2, hsem]
      refine countP_congr fun g hg => ?_
      rw [beq_iff_eq, decide_eq_true_iff]
      exact ⟨fun heq => by rw [heq], fun heq => h.handle_eq_of_addr hi hsem hg heq⟩
    · -- no semaphore that is open has the pointer of an entry that is free or reserved
      have hnone : ∀ g ∈ w.handles, ¬decide (g.2 = (w.tab.entries i).sem) = true := by
        intro g hg heq
        obtain ⟨j, -, p, rfl, -⟩ := h.addr_of_handle hg
        exact hopen ⟨p, (of_decide_eq_true heq).symm⟩
      rw [List.countP_eq_zero.mpr hnone]
      rcases Nat.eq_zero_or_pos (w.tab.entries i).ino with h0 | hpos
      · exact ((h.tab.entry i hi).of_ino_eq_zero h0).1
      · exact absurd ((h.tab.entry i hi).of_ino_pos hpos) hopen
  · obtain ⟨hlt, hentry⟩ := h.entry_of_slot hs
    exact ⟨hlt, by rw [hentry], fun t' ht' => h.slots.inj ht' hs⟩
  · refine (h.maps.live_iff p).trans ⟨?_, ?_⟩
    · rintro ⟨o, ho⟩
      cases o with
      | thread t => exact .inr ⟨t, ho⟩
      | entry i =>
        obtain ⟨hi, hsem⟩ := entry_of_holdsOf ho
        obtain ⟨-, hpos, -, hcount⟩ := (h.tab.entry i hi).of_addr hsem
        exact .inl (List.mem_map.mpr ⟨_, List.count_pos_iff.mp (hcount ▸ hpos), rfl⟩)
    · rintro (hp | ⟨t, ht⟩)
      · obtain ⟨g, hg, hgp⟩ := List.mem_map.mp hp
        obtain ⟨i, hi, q, rfl, hsem⟩ := h.addr_of_handle hg
        obtain rfl := Sem.addr.inj hgp
        exact ⟨.entry i, holdsOf_entry hi hsem⟩
      · exact ⟨.thread t, ht⟩
  · obtain ⟨g, hg, hgp⟩ := List.mem_map.mp hp
    obtain ⟨i, hi, q, rfl, hsem⟩ := h.addr_of_handle hg
    obtain rfl := Sem.addr.inj hgp
    exact Owner.noConfusion (h.maps.inj (o := .thread t) ht (holdsOf_entry hi hsem))

/-- Two threads map the file with the inode 5, and both get the mapping of the one that is first to take the lock. -/
example : (run .x86_64 init [(0, .semOpen ⟨false, false, true⟩ true), (1, .semOpen ⟨false, false, true⟩ true),
    (0, .returns .ok), (0, .returns (.mapped ⟨5, 100, by decide⟩)), (1, .returns .ok),
    (1, .returns (.mapped ⟨5, 200, by decide⟩)), (1, .goOn), (0, .goOn)]).map World.handles =
    some [(5, .addr 200), (5, .addr 200)] := by decide

end Leblibc.SemOpen
