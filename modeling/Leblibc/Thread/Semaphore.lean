import Leblibc.Lib.Threads
import Mathlib.Algebra.BigOperators.Pi

/-!
# Semaphores

A model of `sem_post`, `sem_trywait` and `sem_timedwait` in `src/thread`. Any number of threads call them on one
semaphore; each access of `__val[0]` or `__val[1]` is a step of its own, and so are `__wake` and the test of the futex
before a thread sleeps. A thread that sleeps may go on at any time, as after a signal, or leave, as after a time-out or
a cancellation. The spinning before the loop of `sem_timedwait` reads only, and is no step.

The numbers of successful posts and waits are no variables of the program.

## Main results

* `run_accounted`: the count in every run, and no thread is left asleep
-/

namespace Leblibc.Semaphore

open Lib

/-- `__val[0]` and `__val[1]`, with the successful posts and waits. -/
structure Sem where
  val : ℕ
  waiters : ℤ
  posts : ℕ
  waits : ℕ

/-- Which call a try is made in: `sem_trywait` itself, or `sem_timedwait`, before its loop or in it. -/
inductive Caller
  | user
  | first
  | loop
  deriving DecidableEq

/-- Where a thread stands. -/
inductive Pc
  | idle
  /-- at the head of the loop of `sem_post` -/
  | post
  /-- before the read of the waiters -/
  | postWaiters (val : ℕ)
  /-- before the `a_cas` of `sem_post` -/
  | postCas (val : ℕ) (waiters : ℤ)
  /-- before `__wake`, of one thread or of all -/
  | wakeOne
  | wakeAll
  /-- at the head of the loop of `sem_trywait` -/
  | load (c : Caller)
  /-- before the `a_cas` of `sem_trywait` -/
  | cas (c : Caller) (val : ℕ)
  /-- before `a_inc` -/
  | inc
  /-- before the `a_cas` that sets the top bit -/
  | mark
  /-- in `__timedwait_cp`, before the test of the futex -/
  | futex
  | asleep
  /-- before `a_dec` -/
  | dec (failed : Bool)
  deriving DecidableEq

/-- What a thread does by itself: it calls a function, makes its next step, or leaves the futex. -/
inductive Event
  | post
  | trywait
  | timedwait
  | go
  | returns (failed : Bool)

/-- After `EAGAIN` of `sem_trywait`. -/
def eagain : Caller → Pc
  | .user => .idle
  | .first => .load .loop
  | .loop => .inc

/-- The next step of a thread, other than `__wake`. -/
def go (s : Sem) : Pc → Sem × Pc
  | .post => (s, if s.val &&& 0x7fffffff = 0x7fffffff then .idle else .postWaiters s.val)
  | .postWaiters val => (s, .postCas val s.waiters)
  | .postCas val waiters =>
    let new := if waiters ≤ 1 then (val + 1) % 2 ^ 32 &&& 0x7fffffff else (val + 1) % 2 ^ 32
    if s.val = val then
      ({ s with val := new, posts := s.posts + 1 },
        if 2 ^ 31 ≤ val ∨ waiters ≠ 0 then if waiters > 1 then .wakeOne else .wakeAll else .idle)
    else (s, .post)
  | .load c =>
    if s.val &&& 0x7fffffff ≠ 0 then (s, .cas c s.val)
    else (s, eagain c)
  | .cas c val =>
    if s.val = val then ({ s with val := (val + 0xffffffff) % 2 ^ 32, waits := s.waits + 1 }, .idle)
    else (s, .load c)
  | .inc => ({ s with waiters := s.waiters + 1 }, .mark)
  | .mark => ({ s with val := if s.val = 0 then 0x80000000 else s.val }, .futex)
  | .futex => (s, if s.val = 0x80000000 then .asleep else .dec false)
  | .dec failed => ({ s with waiters := s.waiters - 1 }, if failed then .idle else .load .loop)
  | pc => (s, pc)

/-- What a thread does; an event that is not possible where it stands changes nothing. -/
def step (s : Sem) (pc : Pc) : Event → Sem × Pc
  | .post => (s, if pc = .idle then .post else pc)
  | .trywait => (s, if pc = .idle then .load .user else pc)
  | .timedwait => (s, if pc = .idle then .load .first else pc)
  | .go => go s pc
  | .returns failed => (s, if pc = .futex ∨ pc = .asleep then .dec failed else pc)

/-- A thread that sleeps is woken. -/
def Pc.wake (pc : Pc) : Pc := if pc = .asleep then .dec false else pc

/-- A thread does not sleep. -/
def Pc.Awake (pc : Pc) : Prop := pc ≠ .asleep

section Runs

variable {ι : Type*} [Fintype ι] [DecidableEq ι]

/-- One event of a run: a step of a thread by itself, or its `__wake`, where the system chooses the thread `j` that is
woken if one is to be woken. -/
def next (c : Threads ι Sem Pc) (i : ι) : Event ⊕ ι → Threads ι Sem Pc
  | .inl e => c.next step (i, e)
  | .inr j =>
    if c.thread i = .wakeAll then ⟨c.shared, Function.update (fun k => (c.thread k).wake) i .idle⟩
    else if c.thread i = .wakeOne ∧ (c.thread j = .asleep ∨ ∀ k, c.thread k ≠ .asleep) then
      ⟨c.shared, Function.update (Function.update c.thread j (c.thread j).wake) i .idle⟩
    else c

/-- A run of any number of threads. -/
def run (c : Threads ι Sem Pc) (es : List (ι × (Event ⊕ ι))) : Threads ι Sem Pc :=
  es.foldl (fun c e => next c e.1 e.2) c

/-- A semaphore with an initial value, before the first call. -/
def init (ι : Type*) (v : Fin (2 ^ 31)) : Threads ι Sem Pc := ⟨⟨v, 0, 0, 0⟩, fun _ => .idle⟩

/-! ## The invariant -/

/-- Whether a thread is sure to look at the count again or to wake one that does, sleeps, or is going to wake all. -/
def weight : Pc → ℕ × ℕ × ℕ
  | .wakeOne | .load .loop | .cas .loop _ | .dec false => (1, 0, 0)
  | .asleep => (0, 1, 0)
  | .wakeAll => (0, 0, 1)
  | _ => (0, 0, 0)

/-- What a thread knows where it stands. -/
def Pc.Ok : Pc → Prop
  | .postWaiters val | .postCas val _ => val % 2 ^ 31 ≠ 0x7fffffff
  | .cas _ val => val % 2 ^ 31 ≠ 0
  | _ => True

/-- The semaphore, for an initial value and what the threads add up to: while a thread sleeps, all are going to be
woken, or the top bit is set and there are as many threads that look at the count again as it says. -/
def Ok (v : ℕ) (s : Sem) (a : ℕ × ℕ × ℕ) : Prop :=
  s.val < 2 ^ 32 ∧ s.val % 2 ^ 31 + s.waits = v + s.posts ∧
    (a.2.1 = 0 ∨ 0 < a.2.2 ∨ (s.val % 2 ^ 31 ≤ a.1 ∧ 2 ^ 31 ≤ s.val))

theorem and_mask (v : ℕ) : v &&& 0x7fffffff = v % 2 ^ 31 := Nat.and_two_pow_sub_one_eq_mod v 31

theorem ok_add {v val p q x y z t n w : ℕ} {k : ℤ} : Ok v ⟨val, k, p, q⟩ ((x, y, z) + (t, n, w)) ↔
    val < 2 ^ 32 ∧ val % 2 ^ 31 + q = v + p ∧ (y + n = 0 ∨ 0 < z + w ∨ (val % 2 ^ 31 ≤ x + t ∧ 2 ^ 31 ≤ val)) := Iff.rfl

/-- **One step keeps the invariant**, whatever the other threads add. -/
theorem go_ok {v : ℕ} (s : Sem) (pc : Pc) (a : ℕ × ℕ × ℕ) (hpc : pc.Ok) (hs : Ok v s (weight pc + a)) :
    Ok v (go s pc).1 (weight (go s pc).2 + a) ∧ (go s pc).2.Ok := by
  obtain ⟨t, n, w⟩ := a
  obtain ⟨cur, k, p, q⟩ := s
  cases pc with
  | post =>
    simp only [go, and_mask]
    split_ifs with h
    · exact ⟨hs, trivial⟩
    · exact ⟨hs, h⟩
  | postCas val waiters =>
    have hpc : val % 2 ^ 31 ≠ 0x7fffffff := hpc
    have hs' := ok_add.mp hs
    simp only [go, and_mask]
    split_ifs
    all_goals first
      | exact ⟨hs, trivial⟩
      | exact ⟨ok_add.mpr (by omega), trivial⟩
  | load c =>
    simp only [go, and_mask]
    split_ifs with h
    · cases c <;> exact ⟨hs, h⟩
    · cases c
      all_goals
        have hs' := ok_add.mp hs
        exact ⟨ok_add.mpr (by omega), trivial⟩
  | cas c val =>
    have hpc : val % 2 ^ 31 ≠ 0 := hpc
    simp only [go]
    split_ifs with h
    · refine ⟨?_, trivial⟩
      cases c
      all_goals
        have hs' := ok_add.mp hs
        exact ok_add.mpr (by omega)
    · cases c <;> exact ⟨hs, trivial⟩
  | mark =>
    have hs' := ok_add.mp hs
    simp only [go]
    split_ifs <;> exact ⟨ok_add.mpr (by omega), trivial⟩
  | futex =>
    have hs' := ok_add.mp hs
    simp only [go]
    split_ifs <;> exact ⟨ok_add.mpr (by omega), trivial⟩
  | dec failed => cases failed <;> exact ⟨hs, trivial⟩
  | inc => exact ⟨hs, trivial⟩
  | _ => exact ⟨hs, hpc⟩

theorem step_ok {v : ℕ} (s : Sem) (pc : Pc) (e : Event) (a : ℕ × ℕ × ℕ) (hpc : pc.Ok) (hs : Ok v s (weight pc + a)) :
    Ok v (step s pc e).1 (weight (step s pc e).2 + a) ∧ (step s pc e).2.Ok := by
  cases e with
  | go => exact go_ok s pc a hpc hs
  | returns failed =>
    obtain ⟨t, n, w⟩ := a
    obtain ⟨cur, k, p, q⟩ := s
    simp only [step]
    split_ifs with h
    · rcases h with rfl | rfl <;> cases failed
      all_goals
        have hs := ok_add.mp hs
        exact ⟨ok_add.mpr (by omega), trivial⟩
    · exact ⟨hs, hpc⟩
  | _ =>
    simp only [step]
    split_ifs with h
    · subst h
      exact ⟨hs, trivial⟩
    · exact ⟨hs, hpc⟩

theorem wake_ok {pc : Pc} (h : pc.Ok) : pc.wake.Ok := by
  unfold Pc.wake
  split_ifs
  · trivial
  · exact h

theorem wake_awake (pc : Pc) : pc.wake.Awake := by
  unfold Pc.wake
  split_ifs with h
  · nofun
  · exact h

/-- Where no thread sleeps, only the count matters. -/
theorem ok_of_awake {v : ℕ} {s : Sem} {a : ℕ × ℕ × ℕ} {l : ι → Pc} (h : Ok v s a) (hl : ∀ k, (l k).Awake) :
    Ok v s (Threads.sum weight l) := by
  refine ⟨h.1, h.2.1, .inl ?_⟩
  rw [Threads.sum, Prod.snd_sum, Prod.fst_sum]
  refine Finset.sum_eq_zero fun k _ => ?_
  have hk := hl k
  unfold weight
  split <;> first | rfl | contradiction

/-- **A step of a run keeps the invariant.** -/
theorem next_inv {v : ℕ} {c : Threads ι Sem Pc} (hc : c.Inv weight (Ok v) Pc.Ok) (i : ι) (e : Event ⊕ ι) :
    (next c i e).Inv weight (Ok v) Pc.Ok := by
  rcases e with e | j
  · exact hc.next step (step_ok _ _ e)
  simp only [next]
  split_ifs with hall hone
  · exact ⟨ok_of_awake hc.total (Threads.forall_update (p := Pc.Awake) nofun fun k => wake_awake _),
      Threads.forall_update trivial fun k => wake_ok (hc.each k)⟩
  · obtain ⟨hi, hj⟩ := hone
    refine ⟨?_, Threads.forall_update trivial (Threads.forall_update (wake_ok (hc.each j)) hc.each)⟩
    by_cases hsleeps : c.thread j = .asleep
    · -- the thread that is woken looks at the count in place of the one that wakes it
      have hji : j ∈ Finset.univ.erase i := by
        refine Finset.mem_erase.mpr ⟨?_, Finset.mem_univ j⟩
        rintro rfl
        rw [hi] at hsleeps
        cases hsleeps
      have htotal := hc.total
      rw [Threads.sum, ← Finset.add_sum_erase _ _ (Finset.mem_univ i), ← Finset.add_sum_erase _ _ hji, hi, hsleeps]
        at htotal
      rw [Threads.sum, Threads.sum_update _ _ (Finset.mem_univ i), Threads.sum_update _ _ hji, hsleeps]
      generalize ∑ k ∈ (Finset.univ.erase i).erase j, weight (c.thread k) = a at htotal ⊢
      have hbefore : weight .wakeOne + weight .asleep = (1, 1, 0) := rfl
      have hafter : weight .idle + weight (Pc.wake .asleep) = (1, 0, 0) := rfl
      rw [← add_assoc, hbefore] at htotal
      rw [← add_assoc, hafter]
      have htotal := ok_add.mp htotal
      exact ok_add.mpr (by omega)
    · have hawake := hj.resolve_left hsleeps
      exact ok_of_awake hc.total (Threads.forall_update (p := Pc.Awake) nofun
        (Threads.forall_update (p := Pc.Awake) (wake_awake _) hawake))
  · exact hc

/-- The count is right, and no thread is left asleep. -/
structure Accounted (v : ℕ) (c : Threads ι Sem Pc) : Prop where
  count : ((c.shared.val &&& 0x7fffffff : ℕ) : ℤ) = v + c.shared.posts - c.shared.waits
  bounds : 0 ≤ (v : ℤ) + c.shared.posts - c.shared.waits ∧ (v : ℤ) + c.shared.posts - c.shared.waits ≤ 0x7fffffff
  /-- where no thread is in a call but for those that sleep, the count is not positive while one sleeps -/
  awake : (∀ i, c.thread i = .idle ∨ c.thread i = .asleep) → (∃ i, c.thread i = .asleep) →
    c.shared.val &&& 0x7fffffff = 0

/-- **Semaphores**: in every run of any number of threads the count is the initial value with the successful posts and
without the successful waits, and no thread is left asleep when it is positive. -/
theorem run_accounted (v : Fin (2 ^ 31)) (es : List (ι × (Event ⊕ ι))) : Accounted v (run (init ι v) es) := by
  have hinv : ∀ c : Threads ι Sem Pc, c.Inv weight (Ok v) Pc.Ok → (run c es).Inv weight (Ok v) Pc.Ok := by
    induction es with
    | nil => exact fun c hc => hc
    | cons e es ih => exact fun c hc => ih _ (next_inv hc e.1 e.2)
  have hinit : (init ι v).Inv weight (Ok v) Pc.Ok := by
    refine ⟨?_, fun i => trivial⟩
    have hv := v.isLt
    have hok : Ok v ⟨v, 0, 0, 0⟩ ((0, 0, 0) + (0, 0, 0)) := ok_add.mpr (by omega)
    exact ok_of_awake hok fun k => nofun
  have h := (hinv _ hinit).total
  generalize run (init ι v) es = c at h
  obtain ⟨-, hcount, hsleep⟩ := h
  refine ⟨by rw [and_mask]; omega, by omega, fun hidle hasleep => ?_⟩
  have hweight (i : ι) : (weight (c.thread i)).1 = 0 ∧ (weight (c.thread i)).2.2 = 0 := by
    rcases hidle i with h | h <;> rw [h] <;> exact ⟨rfl, rfl⟩
  obtain ⟨i, hi⟩ := hasleep
  have hle := Finset.single_le_sum (fun j _ => Nat.zero_le (weight (c.thread j)).2.1) (Finset.mem_univ i)
  rw [hi, ← Prod.fst_sum, ← Prod.snd_sum] at hle
  have hle : 1 ≤ (Threads.sum weight c.thread).2.1 := hle
  have h1 : (Threads.sum weight c.thread).1 = 0 := by
    rw [Threads.sum, Prod.fst_sum]
    exact Finset.sum_eq_zero fun j _ => (hweight j).1
  have h2 : (Threads.sum weight c.thread).2.2 = 0 := by
    rw [Threads.sum, Prod.snd_sum, Prod.snd_sum]
    exact Finset.sum_eq_zero fun j _ => (hweight j).2
  rw [and_mask]
  omega

end Runs

end Leblibc.Semaphore
