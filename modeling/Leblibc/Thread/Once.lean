import Leblibc.Lib.Threads
import Mathlib.Algebra.BigOperators.Pi

/-!
# One-time initialisation

A model of `src/thread/pthread_once.c`. Any number of threads call `pthread_once` with one control word; each access of
the word is a step of its own, and so are `__wake` and the test of the futex before a thread sleeps. A thread that
sleeps may go on at any time, and has to when there is another `__wake`.

## Main results

* `run_once`: `init` in every run, and no thread is left asleep
-/

namespace Leblibc.Once

open Lib Threads

/-- The control word, and how often `init` has returned and `__wake` has been called. -/
structure Control where
  word : ℕ
  inits : ℕ
  wakes : ℕ

/-- Where a thread stands. -/
inductive Pc
  | outside
  | load
  /-- before the `a_cas` of the loop -/
  | cas
  | init
  /-- before `a_swap(control, 2)` -/
  | finish
  /-- before `a_swap(control, 0)` -/
  | undo
  /-- before `a_cas(control, 1, 3)` -/
  | mark
  /-- before the test of the futex -/
  | wait
  /-- in the futex since there were `wakes` calls of `__wake` -/
  | asleep (wakes : ℕ)
  /-- before `__wake`, and whether the call returns then -/
  | wake (returns : Bool)
  | done
  deriving DecidableEq

/-- A thread calls the function, makes its next step, or is cancelled in `init`. -/
inductive Event
  | call
  | go
  | cancel

/-- What an event does; where it is not possible it changes nothing. -/
def step (s : Control) (pc : Pc) (e : Event) : Control × Pc :=
  match pc, e with
  | .outside, .call | .done, .call => (s, .load)
  | .load, .go => (s, if s.word = 2 then .done else .cas)
  | .cas, .go =>
    if s.word = 0 then ({ s with word := 1 }, .init)
    else (s, if s.word = 1 then .mark else if s.word = 3 then .wait else if s.word = 2 then .done else .cas)
  | .init, .go => ({ s with inits := s.inits + 1 }, .finish)
  | .init, .cancel => (s, .undo)
  | .finish, .go => ({ s with word := 2 }, if s.word = 3 then .wake true else .done)
  | .undo, .go => ({ s with word := 0 }, if s.word = 3 then .wake false else .outside)
  | .mark, .go => ({ s with word := if s.word = 1 then 3 else s.word }, .wait)
  | .wait, .go => (s, if s.word = 3 then .asleep s.wakes else .cas)
  | .asleep _, .go => (s, .wait)
  | .wake true, .go => ({ s with wakes := s.wakes + 1 }, .done)
  | .wake false, .go => ({ s with wakes := s.wakes + 1 }, .outside)
  | pc, _ => (s, pc)

/-! ## The invariant -/

/-- A thread, counted where it stands. -/
@[simp]
def count (pc p : Pc) : ℕ := if p = pc then 1 else 0

/-- The control word, against how many threads stand where: it is odd while a thread is at `init`, and 2 when it has
been set after `init`; and while a thread sleeps it is 3, or all are going to be woken. -/
def Ok (s : Control) (n : Pc → ℕ) : Prop :=
  (s.word ≤ 3 ∧ n .init + n .undo + n .finish = s.word % 2 ∧
      (s.word = 2 ∧ s.inits = 1 ∨ s.word ≠ 2 ∧ s.inits = n .finish) ∧
      (n .done + n (.wake true) = 0 ∨ s.word = 2) ∧
      (n (.asleep s.wakes) = 0 ∨ 0 < n (.wake true) + n (.wake false) ∨ s.word = 3)) ∧
    ∀ k, s.wakes < k → n (.asleep k) = 0

/-- **One step keeps the invariant**, whatever the other threads are. -/
theorem step_ok (s : Control) (pc : Pc) (e : Event) (n : Pc → ℕ) (hs : Ok s (count pc + n)) :
    Ok (step s pc e).1 (count (step s pc e).2 + n) := by
  obtain ⟨hs, hlater⟩ := hs
  have hnext := hlater (s.wakes + 1) (Nat.lt_succ_self _)
  unfold step
  constructor
  · split <;> (try split_ifs) <;> simp at hs hnext ⊢ <;> omega
  · intro k hk
    have hk' : s.wakes < k := by
      revert hk
      split <;> (try split_ifs) <;> simp <;> omega
    have := hlater k hk'
    split <;> (try split_ifs) <;> simp at this ⊢ <;> omega

/-! ## Runs -/

variable {ι : Type*} [Fintype ι] [DecidableEq ι]

/-- What `pthread_once` is for. -/
structure Safe (c : Threads ι Control Pc) : Prop where
  /-- at most one thread runs `init`, and none when it has returned -/
  exclusive : ∀ i j, c.thread i = .init → c.thread j = .init → i = j ∧ c.shared.inits = 0
  once : c.shared.inits ≤ 1
  /-- a call returns only when `init` has returned -/
  returned : ∀ i, c.thread i = .done → c.shared.inits = 1
  /-- a thread that sleeps waits for one at `init`, or for one that is going to wake it -/
  awake : ∀ i, c.thread i = .asleep c.shared.wakes → ∃ j, c.thread j ∈ [.init, .undo, .finish, .wake true, .wake false]

/-- **One-time initialisation**, in every run of any number of threads. -/
theorem run_once (es : List (ι × Event)) : Safe (run step ⟨⟨0, 0, 0⟩, fun _ : ι => Pc.outside⟩ es) := by
  have hinit : (⟨⟨0, 0, 0⟩, fun _ : ι => Pc.outside⟩ : Threads ι Control Pc).Inv count Ok fun _ => True :=
    ⟨by simp [Ok, sum, Finset.sum_apply], fun _ => trivial⟩
  obtain ⟨⟨hword, hrun, hinits, hdone, hsleep⟩, -⟩ :=
    (hinit.run step (fun s pc e n _ hs => ⟨step_ok s pc e n hs, trivial⟩) es).total
  generalize run step _ es = c at *
  have hmem (p : Pc) : sum count c.thread p ≠ 0 ↔ ∃ i, c.thread i = p := by
    simp [sum, Finset.sum_apply, @eq_comm _ p]
  constructor
  · intro i j hi hj
    have := (hmem _).mpr ⟨i, hi⟩
    refine ⟨by_contra fun hne => ?_, by omega⟩
    have hpair := pair_le_sum (fun pc => count pc .init) c.thread hne
    rw [sum, ← Finset.sum_apply, ← sum] at hpair
    simp [hi, hj] at hpair
    omega
  · omega
  · intro i hi
    have := (hmem _).mpr ⟨i, hi⟩
    omega
  · intro i hi
    have := (hmem _).mpr ⟨i, hi⟩
    by_contra hnone
    have hzero : ∀ p ∈ [Pc.init, .undo, .finish, .wake true, .wake false], sum count c.thread p = 0 := by
      intro p hp
      by_contra hne
      obtain ⟨j, rfl⟩ := (hmem p).mp hne
      exact hnone ⟨j, hp⟩
    simp only [List.forall_mem_cons] at hzero
    omega

end Leblibc.Once
