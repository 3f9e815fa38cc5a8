import Leblibc.Lib.Threads
import Mathlib.Algebra.BigOperators.Pi

/-!
# Read-write locks

A model of `pthread_rwlock_tryrdlock`, `trywrlock`, `timedrdlock`, `timedwrlock` and `unlock` in `src/thread`. Any
number of threads call them; each access of `_rw_lock` or `_rw_waiters` is a step of its own. `__timedwait` returns at
any time, with an error or without one, so that nothing depends on `__wake`. The spinning before the loop of the timed
functions reads only, and is no step. `unlock` is only called by a thread that holds the lock.

How often a thread holds the lock is no variable of the program.

## Main results

* `run_consistent`: the lock word in every run
-/

namespace Leblibc.Rwlock

open Lib

/-- `_rw_lock` and `_rw_waiters`. -/
structure Lock where
  lock : ℕ
  waiters : ℤ

/-- What a lock is taken for. -/
inductive Mode
  | rd
  | wr
  deriving DecidableEq

/-- Which call a try is made in: one of the try functions itself, or a timed one, before its loop or in it. -/
inductive Caller
  | user
  | first
  | loop

/-- Where a thread stands. -/
inductive Pc
  | idle
  /-- at the head of the loop of `tryrdlock` -/
  | load (c : Caller)
  /-- before the `a_cas` of `tryrdlock` -/
  | casRd (c : Caller) (val : ℕ)
  /-- before the `a_cas` of `trywrlock` -/
  | casWr (c : Caller)
  /-- after `EBUSY` in the loop of a timed function -/
  | busy (m : Mode)
  /-- before `a_inc` -/
  | inc (m : Mode) (r : ℕ)
  /-- before the `a_cas` that sets the waiter bit -/
  | mark (m : Mode) (r : ℕ)
  /-- in `__timedwait` -/
  | wait (m : Mode)
  /-- before `a_dec` -/
  | dec (m : Mode) (failed : Bool)
  /-- at the head of the loop of `unlock` -/
  | unlock
  /-- before the read of the waiters -/
  | unlockWaiters (val : ℕ)
  /-- before the `a_cas` of `unlock` -/
  | unlockCas (val : ℕ) (waiters : ℤ)
  /-- before `__wake` -/
  | wake (cnt : ℕ)

/-- A thread: where it stands, and how often it holds the lock. -/
structure Thread where
  pc : Pc
  writes : ℕ
  reads : ℕ

/-- The lock is held once less. -/
def Thread.release (t : Thread) : Thread :=
  if 0 < t.writes then { t with writes := t.writes - 1 } else { t with reads := t.reads - 1 }

/-- What happens to a thread: it calls a function, makes its next step, or returns from `__timedwait`. -/
inductive Event
  | lock (m : Mode) (timed : Bool)
  | unlock
  | go
  | returns (failed : Bool)

/-- A try begins. -/
def attempt (c : Caller) : Mode → Pc
  | .rd => .load c
  | .wr => .casWr c

/-- After `EBUSY`. -/
def ebusy (m : Mode) : Caller → Pc
  | .user => .idle
  | .first => attempt .loop m
  | .loop => .busy m

/-- The next step of a thread. -/
def go (s : Lock) (t : Thread) : Lock × Thread :=
  match t.pc with
  | .load c =>
    let cnt := s.lock &&& 0x7fffffff
    (s, { t with pc := if cnt = 0x7fffffff then ebusy .rd c else if cnt = 0x7ffffffe then .idle else .casRd c s.lock })
  | .casRd c val =>
    if s.lock = val then ({ s with lock := (val + 1) % 2 ^ 32 }, { t with pc := .idle, reads := t.reads + 1 })
    else (s, { t with pc := .load c })
  | .casWr c =>
    if s.lock = 0 then ({ s with lock := 0x7fffffff }, { t with pc := .idle, writes := t.writes + 1 })
    else (s, { t with pc := ebusy .wr c })
  | .busy m =>
    let again := s.lock = 0 ∨ m = .rd ∧ s.lock &&& 0x7fffffff ≠ 0x7fffffff
    (s, { t with pc := if again then attempt .loop m else .inc m s.lock })
  | .inc m r => ({ s with waiters := s.waiters + 1 }, { t with pc := .mark m r })
  | .mark m r => ({ s with lock := if s.lock = r then r ||| 0x80000000 else s.lock }, { t with pc := .wait m })
  | .dec m failed => ({ s with waiters := s.waiters - 1 }, { t with pc := if failed then .idle else attempt .loop m })
  | .unlock => (s, { t with pc := .unlockWaiters s.lock })
  | .unlockWaiters val => (s, { t with pc := .unlockCas val s.waiters })
  | .unlockCas val waiters =>
    let cnt := val &&& 0x7fffffff
    let new := if cnt = 0x7fffffff ∨ cnt = 1 then 0 else (val + 0xffffffff) % 2 ^ 32
    if s.lock = val then
      ({ s with lock := new },
        { t.release with pc := if new = 0 ∧ (waiters ≠ 0 ∨ 2 ^ 31 ≤ val) then .wake cnt else .idle })
    else (s, { t with pc := .unlock })
  | .wake _ => (s, { t with pc := .idle })
  | .idle | .wait _ => (s, t)

/-- What happens to a thread; an event that is not possible where it stands changes nothing. -/
def step (s : Lock) (t : Thread) (e : Event) : Lock × Thread :=
  match t.pc, e with
  | .idle, .lock m timed => (s, { t with pc := attempt (if timed then .first else .user) m })
  | .idle, .unlock => (s, { t with pc := if 0 < t.writes + t.reads then .unlock else .idle })
  | .wait m, .returns failed => (s, { t with pc := .dec m failed })
  | _, .go => go s t
  | _, _ => (s, t)

/-- `PTHREAD_RWLOCK_INITIALIZER`, before the first call. -/
def init (ι : Type*) : Threads ι Lock Thread := ⟨⟨0, 0⟩, fun _ => ⟨.idle, 0, 0⟩⟩

/-! ## The invariant -/

/-- The lock word when the lock is held `w` times for writing and `r` times for reading. -/
def Word (lock w r : ℕ) : Prop :=
  lock < 2 ^ 32 ∧
    ((w = 1 ∧ r = 0 ∧ lock % 2 ^ 31 = 0x7fffffff) ∨
      (w = 0 ∧ r < 0x7fffffff ∧ lock % 2 ^ 31 = r ∧ (r = 0 → lock = 0)))

/-- What a thread that holds the lock `n` times knows where it stands. -/
def Pc.Ok (n : ℕ) : Pc → Prop
  | .casRd _ val => val % 2 ^ 31 < 0x7ffffffe
  | .inc _ r | .mark _ r => r % 2 ^ 31 ≠ 0
  | .unlock | .unlockWaiters _ | .unlockCas _ _ => 0 < n
  | _ => True

theorem and_mask (v : ℕ) : v &&& 0x7fffffff = v % 2 ^ 31 := Nat.and_two_pow_sub_one_eq_mod v 31

theorem or_bit {v : ℕ} (h : v < 2 ^ 32) : v ||| 0x80000000 = v % 2 ^ 31 + 2 ^ 31 := by
  have hdiv : (v ||| 2 ^ 31) / 2 ^ 31 = 1 := by
    rw [Nat.or_div_two_pow]
    rcases (by omega : v / 2 ^ 31 = 0 ∨ v / 2 ^ 31 = 1) with h | h <;> rw [h] <;> rfl
  have hmod : (v ||| 2 ^ 31) % 2 ^ 31 = v % 2 ^ 31 := by
    rw [Nat.or_mod_two_pow]
    exact Nat.or_zero _
  show v ||| 2 ^ 31 = _
  omega

theorem attempt_ok (n : ℕ) (c : Caller) (m : Mode) : (attempt c m).Ok n := by
  cases m <;> trivial

theorem ebusy_ok (n : ℕ) (m : Mode) (c : Caller) : (ebusy m c).Ok n := by
  cases c with
  | first => exact attempt_ok n _ m
  | user | loop => trivial

theorem wake_ok (n cnt : ℕ) (p : Prop) [Decidable p] : (if p then Pc.wake cnt else .idle).Ok n := by
  split_ifs <;> trivial

theorem release_cases {t : Thread} (h : 0 < t.writes + t.reads) :
    (t.release.writes + 1 = t.writes ∧ t.release.reads = t.reads) ∨
      (t.writes = 0 ∧ t.release.writes = 0 ∧ t.release.reads + 1 = t.reads) := by
  unfold Thread.release
  split_ifs with hw
  · exact .inl ⟨Nat.sub_add_cancel hw, rfl⟩
  · exact .inr ⟨by omega, by simpa using hw, Nat.sub_add_cancel (by omega)⟩

/-- The invariant, against what the other threads hold. -/
def Holds (a : ℕ × ℕ) (r : Lock × Thread) : Prop :=
  Word r.1.lock (r.2.writes + a.1) (r.2.reads + a.2) ∧ r.2.pc.Ok (r.2.writes + r.2.reads)

/-- **One step keeps the invariant**, whatever the other threads hold. -/
theorem go_holds {s : Lock} {t : Thread} {a : ℕ × ℕ} (h : Holds a (s, t)) : Holds a (go s t) := by
  obtain ⟨lock, k⟩ := s
  obtain ⟨pc, w, r⟩ := t
  obtain ⟨hs, ht⟩ := h
  have hs' := hs
  unfold Word at hs'
  simp only at hs'
  cases pc with
  | load c =>
    refine ⟨hs, ?_⟩
    simp only [go, and_mask]
    split_ifs with h1 h2
    · exact ebusy_ok _ _ c
    · trivial
    · show lock % 2 ^ 31 < 0x7ffffffe
      omega
  | casRd c val =>
    have ht : val % 2 ^ 31 < 0x7ffffffe := ht
    simp only [go]
    split_ifs with h
    · exact ⟨by unfold Word; simp only; omega, trivial⟩
    · exact ⟨hs, trivial⟩
  | casWr c =>
    simp only [go]
    split_ifs with h
    · exact ⟨by unfold Word; simp only; omega, trivial⟩
    · exact ⟨hs, ebusy_ok _ _ c⟩
  | busy m =>
    refine ⟨hs, ?_⟩
    simp only [go]
    split_ifs with h
    · exact attempt_ok _ _ m
    · -- a lock that is not free has a holder
      have h0 : lock ≠ 0 := fun h0 => h (.inl h0)
      show lock % 2 ^ 31 ≠ 0
      omega
  | mark m val =>
    have ht : val % 2 ^ 31 ≠ 0 := ht
    refine ⟨?_, trivial⟩
    simp only [go]
    split_ifs with h
    · rw [or_bit (by omega)]
      unfold Word
      omega
    · exact hs
  | dec m failed =>
    refine ⟨hs, ?_⟩
    cases failed
    · exact attempt_ok _ _ m
    · trivial
  | unlockCas val waiters =>
    have hrel := release_cases ht
    by_cases h : lock = val
    · simp only [go, if_pos h, and_mask]
      constructor
      · unfold Word
        simp only at hrel ⊢
        split_ifs <;> omega
      · exact wake_ok _ _ _
    · simp only [go, if_neg h]
      exact ⟨hs, ht⟩
  | inc m val => exact ⟨hs, ht⟩
  | unlock => exact ⟨hs, ht⟩
  | unlockWaiters val => exact ⟨hs, ht⟩
  | _ => exact ⟨hs, trivial⟩

theorem step_holds (s : Lock) (t : Thread) (e : Event) (a : ℕ × ℕ) (h : Holds a (s, t)) : Holds a (step s t e) := by
  unfold step
  split
  · exact ⟨h.1, attempt_ok _ _ _⟩
  · refine ⟨h.1, ?_⟩
    split_ifs with hn
    · exact hn
    · trivial
  · exact ⟨h.1, trivial⟩
  · exact go_holds h
  · exact h

/-! ## Runs -/

/-- The lock word says who holds the lock. -/
structure Consistent {ι : Type*} [Fintype ι] (c : Threads ι Lock Thread) : Prop where
  /-- a writer holds the lock alone -/
  exclusive : ∀ i, (c.thread i).writes ≠ 0 → (c.thread i).writes = 1 ∧ (c.thread i).reads = 0 ∧
    ∀ j, j ≠ i → (c.thread j).writes = 0 ∧ (c.thread j).reads = 0
  /-- the low bits are the number of readers, or tell of a writer -/
  low : c.shared.lock &&& 0x7fffffff =
    if ∃ i, (c.thread i).writes ≠ 0 then 0x7fffffff else ∑ i, (c.thread i).reads
  /-- the number of readers is not the value for a writer -/
  bound : ∑ i, (c.thread i).reads < 0x7fffffff
  /-- the waiter bit of a free lock is not set -/
  free : (∀ i, (c.thread i).writes = 0 ∧ (c.thread i).reads = 0) → c.shared.lock = 0

variable {ι : Type*} [Fintype ι] [DecidableEq ι]

/-- **Read-write locks**: in every run of any number of threads the lock word says who holds the lock, and a writer
holds it alone. -/
theorem run_consistent (es : List (ι × Event)) : Consistent ((init ι).run step es) := by
  have hinit : (init ι).Inv (fun t : Thread => (t.writes, t.reads)) (fun s a => Word s.lock a.1 a.2)
      (fun t => t.pc.Ok (t.writes + t.reads)) := by
    refine ⟨?_, fun i => trivial⟩
    simp [init, Threads.sum, Word]
  have h := (hinit.run step (fun s t e a ht hs => step_holds s t e a ⟨hs, ht⟩) es).total
  generalize (init ι).run step es = c at h
  simp only [Threads.sum, Prod.fst_sum, Prod.snd_sum] at h
  have hwrites : ∑ i, (c.thread i).writes = 0 ↔ ∀ i, (c.thread i).writes = 0 := by simp
  have hreads : ∑ i, (c.thread i).reads = 0 ↔ ∀ i, (c.thread i).reads = 0 := by simp
  constructor
  · intro i hi
    have h1 : ∑ i, (c.thread i).writes = 1 ∧ ∑ i, (c.thread i).reads = 0 := by
      have hne : ∑ i, (c.thread i).writes ≠ 0 := fun h0 => hi (hwrites.mp h0 i)
      unfold Word at h
      omega
    have hle := Finset.single_le_sum (fun j _ => Nat.zero_le (c.thread j).writes) (Finset.mem_univ i)
    refine ⟨by omega, hreads.mp h1.2 i, fun j hj => ⟨?_, hreads.mp h1.2 j⟩⟩
    have hpair := Threads.pair_le_sum Thread.writes c.thread hj
    unfold Threads.sum at hpair
    omega
  · rw [and_mask]
    unfold Word at h
    split_ifs with hw
    · have hne : ∑ i, (c.thread i).writes ≠ 0 := fun h0 => hw.elim fun i hi => hi (hwrites.mp h0 i)
      omega
    · have h0 := hwrites.mpr fun i => not_not.mp fun hi => hw ⟨i, hi⟩
      omega
  · unfold Word at h
    omega
  · intro hfree
    unfold Word at h
    have := hwrites.mpr fun i => (hfree i).1
    have := hreads.mpr fun i => (hfree i).2
    omega

end Leblibc.Rwlock
