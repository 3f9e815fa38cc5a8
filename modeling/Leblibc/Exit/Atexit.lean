import Mathlib

/-!
# Exit handlers

`__cxa_atexit` and `__funcs_on_exit` (`src/exit/atexit.c`). The handlers stand in blocks of 32 that are linked from the
newest to the oldest; `slot` is the first free place of the newest block. The loop that calls them takes the place it
calls from out of the block before the call, with the lock open: what runs meanwhile may register handlers, the first
of them in the very place of the handler that is running, and may push new blocks in front of the one the loop works on.

A run is a list of events, each with the lock held once: a registration, wherever it comes from, or the loop going on
to its next call. An access outside the array of a block, or through a null `head`, is `none`.

## Main results

* `run_eq_stack`: every run calls the handlers as a stack, and is only over when the stack is empty
-/

namespace Leblibc.Atexit

/-- `COUNT`. -/
def COUNT : ℕ := 32

/-- A registered function with its argument; a zeroed place has both null. -/
structure Handler where
  func : ℕ
  arg : ℕ
  deriving DecidableEq

/-- The arrays of a `struct fl`. -/
abbrev Fl : Type := Vector Handler COUNT

/-- A block as it is in static storage or from `calloc`. -/
def Fl.zero : Fl := Vector.replicate COUNT ⟨0, 0⟩

/-- The static variables of the file; `head` is the chain of blocks it points to. -/
structure State where
  head : List Fl
  slot : ℤ
  finishedAtexit : Bool

/-- The program's start. -/
def State.init : State := ⟨[], 0, false⟩

/-- `head->f[slot] = func; head->a[slot] = arg; slot++;` -/
def State.put (s : State) (h : Handler) : Option State :=
  match s.head with
  | [] => none
  | b :: bs =>
    if hs : 0 ≤ s.slot ∧ s.slot.toNat < COUNT then
      some { s with head := b.set s.slot.toNat h hs.2 :: bs, slot := s.slot + 1 }
    else none

/-- `__cxa_atexit`, with whether `calloc` would give a block: the result and the state behind it. -/
def cxaAtexit (s : State) (h : Handler) (calloc : Bool) : Option (ℤ × State) :=
  if s.finishedAtexit then some (-1, s)
  else
    let s := if s.head.isEmpty then { s with head := [Fl.zero] } else s
    if s.slot = COUNT then
      if calloc then (State.put { s with head := Fl.zero :: s.head, slot := 0 } h).map fun s => (0, s)
      else some (-1, s)
    else (s.put h).map fun s => (0, s)

/-- The loop of `__funcs_on_exit` from where the lock is taken to where it is opened again: the next handler that is
called, or none when the loop has ended. -/
def funcsOnExit (s : State) : List Fl → ℤ → Option (Option Handler × State)
  | [], slot => some (none, { s with head := [], slot := slot, finishedAtexit := true })
  | b :: bs, slot =>
    if 0 < slot then
      -- `slot` has been counted down by the test
      (b[(slot - 1).toNat]?).map fun h => (some h, { s with head := b :: bs, slot := slot - 1 })
    else funcsOnExit s bs COUNT

/-- What happens with the lock held. -/
inductive Event where
  /-- A call of `__cxa_atexit`, before the exit or while a handler runs. -/
  | register (h : Handler) (calloc : Bool)
  /-- `__funcs_on_exit` begins, or goes on after a call. -/
  | goOn

/-- What a run has done. -/
inductive Action where
  | registered (h : Handler)
  | called (h : Handler)

/-- One event: the state behind it, and what it did. -/
def step (s : State) : Event → Option (State × List Action)
  | .register h calloc =>
    (cxaAtexit s h calloc).map fun r => (r.2, if r.1 = 0 then [.registered h] else [])
  | .goOn =>
    (funcsOnExit s s.head s.slot).map fun r => (r.2, (r.1.map Action.called).toList)

/-- A run from the program's start. -/
def run : List Event → Option (State × List Action)
  | [] => some (State.init, [])
  | e :: es => do
    -- the events are listed from the last one back
    let (s, past) ← run es
    let (s', new) ← step s e
    return (s', new ++ past)

/-- The handlers that are registered and not yet called, the newest first, after the actions listed from the last one
back; `none` if one was called that was not the newest. -/
def pending : List Action → Option (List Handler)
  | [] => some []
  | .registered h :: past => (pending past).map (h :: ·)
  | .called h :: past =>
    match pending past with
    | some (h' :: p) => if h = h' then some p else none
    | _ => none

/-- The handlers that were registered. -/
def registered (past : List Action) : List Handler :=
  past.filterMap fun | .registered h => some h | .called _ => none

/-- The handlers that were called. -/
def called (past : List Action) : List Handler :=
  past.filterMap fun | .registered _ => none | .called h => some h

/-! ## The stack in the blocks -/

open List

/-- The places of a block below `n`, the last one first. -/
def top (b : Fl) (n : ℕ) : List Handler := (b.toList.take n).reverse

/-- The stack of a chain of blocks with the first free place of its first block. -/
def stack : List Fl → ℕ → List Handler
  | [], _ => []
  | b :: bs, n => top b n ++ bs.flatMap fun b => top b COUNT

/-- What holds whenever the lock is open. -/
structure Inv (s : State) (p : List Handler) : Prop where
  slot_nonneg : 0 ≤ s.slot
  slot_le : s.slot ≤ COUNT
  stack_eq : stack s.head s.slot.toNat = p
  slot_of_nil : s.head = [] → s.finishedAtexit = false → s.slot = 0
  finished : s.finishedAtexit = true → s.head = []

theorem top_set (b : Fl) {n : ℕ} (hn : n < COUNT) (h : Handler) : top (b.set n h hn) (n + 1) = h :: top b n := by
  have hlen : n < b.toList.length := by simpa using hn
  rw [top, top, Vector.toList_set, take_add_one, getElem?_set_self hlen, take_set_of_le le_rfl]
  simp

theorem top_succ (b : Fl) {n : ℕ} (hn : n < COUNT) : top b (n + 1) = b[n] :: top b n := by
  rw [top, top, take_add_one, getElem?_eq_getElem (by simpa using hn)]
  simp

/-- A handler that is put behind the others is the new top of the stack. -/
theorem put_spec (b : Fl) (bs : List Fl) {slot : ℤ} (h0 : 0 ≤ slot) (hlt : slot < COUNT) (h : Handler) :
    ∃ s, State.put ⟨b :: bs, slot, false⟩ h = some s ∧ Inv s (h :: stack (b :: bs) slot.toNat) := by
  have hs : 0 ≤ slot ∧ slot.toNat < COUNT := by omega
  refine ⟨_, dif_pos hs, ⟨?_, ?_, ?_, ?_, ?_⟩⟩
  · show 0 ≤ slot + 1
    omega
  · show slot + 1 ≤ COUNT
    omega
  · show stack _ (slot + 1).toNat = _
    rw [Int.toNat_add h0 (by decide)]
    exact congrArg (· ++ _) (top_set b hs.2 h)
  · exact fun hnil => absurd hnil (cons_ne_nil _ _)
  · exact fun hfin => Bool.noConfusion hfin

/-- **A registration** that succeeds pushes the handler, in the place of the one that is running if need be. -/
theorem cxaAtexit_spec {s : State} {p : List Handler} (hi : Inv s p) (h : Handler) (calloc : Bool) :
    ∃ r s', cxaAtexit s h calloc = some (r, s') ∧ Inv s' (if r = 0 then h :: p else p) := by
  obtain ⟨head, slot, fin⟩ := s
  obtain ⟨h0, hle, rfl, hnil, hfin⟩ := hi
  dsimp only at h0 hle hnil hfin
  cases fin with
  | true => exact ⟨-1, _, rfl, ⟨h0, hle, rfl, hnil, hfin⟩⟩
  | false =>
    -- the chain that the rest of the function works on, with the same stack
    obtain ⟨b, bs, hchain, hstack⟩ : ∃ b bs, (if head.isEmpty then [Fl.zero] else head) = b :: bs ∧
        stack (b :: bs) slot.toNat = stack head slot.toNat := by
      cases head with
      | nil => exact ⟨_, [], rfl, by rw [show slot = 0 from hnil rfl rfl]; rfl⟩
      | cons b bs => exact ⟨b, bs, rfl, rfl⟩
    have hs : (if head.isEmpty then (⟨[Fl.zero], slot, false⟩ : State) else ⟨head, slot, false⟩) =
        ⟨b :: bs, slot, false⟩ := by
      rw [← hchain]
      split <;> rfl
    rw [← hstack]
    simp only [cxaAtexit, hs]
    by_cases hfull : slot = COUNT
    · rw [if_pos hfull]
      cases calloc with
      | true =>
        obtain ⟨s', hput, hinv⟩ := put_spec Fl.zero (b :: bs) le_rfl (by decide) h
        refine ⟨0, s', by rw [if_pos rfl, hput]; rfl, ?_⟩
        subst hfull
        exact hinv
      | false =>
        exact ⟨-1, _, rfl, h0, hle, rfl, fun hn => absurd hn (cons_ne_nil _ _), fun hf => Bool.noConfusion hf⟩
    · obtain ⟨s', hput, hinv⟩ := put_spec b bs h0 (by omega) h
      exact ⟨0, s', by rw [if_neg hfull, hput]; rfl, hinv⟩

/-- **The loop** calls the top of the stack, and ends only when the stack is empty. -/
theorem funcsOnExit_spec (s : State) : ∀ (head : List Fl) (slot : ℤ), 0 ≤ slot → slot ≤ COUNT →
    (s.finishedAtexit = true → head = []) →
      ∃ s', funcsOnExit s head slot = some ((stack head slot.toNat).head?, s') ∧
        Inv s' (stack head slot.toNat).tail ∧ (stack head slot.toNat = [] → s'.finishedAtexit = true)
  | [], slot, h0, hle, _ =>
    ⟨_, rfl, ⟨h0, hle, rfl, fun _ hf => Bool.noConfusion hf, fun _ => rfl⟩, fun _ => rfl⟩
  | b :: bs, slot, h0, hle, hfin => by
    have hopen : s.finishedAtexit ≠ true := fun hf => absurd (hfin hf) (cons_ne_nil _ _)
    rw [funcsOnExit]
    by_cases hpos : 0 < slot
    · have hlt : (slot - 1).toNat < COUNT := by omega
      have hsucc : slot.toNat = (slot - 1).toNat + 1 := by omega
      have hget : b[(slot - 1).toNat]? = some b[(slot - 1).toNat] := by simp
      rw [if_pos hpos, hget, stack, hsucc, top_succ b hlt]
      refine ⟨_, rfl, ⟨?_, ?_, rfl, fun hn => absurd hn (cons_ne_nil _ _), fun hf => absurd hf hopen⟩,
        fun hn => absurd hn (cons_ne_nil _ _)⟩
      · show 0 ≤ slot - 1
        omega
      · show slot - 1 ≤ COUNT
        omega
    · -- the block is used up: the next one is full
      obtain rfl : slot = 0 := by omega
      have hstack : stack (b :: bs) (0 : ℤ).toNat = stack bs (COUNT : ℤ).toNat := by
        cases bs <;> rfl
      rw [if_neg hpos, hstack]
      exact funcsOnExit_spec s bs COUNT (by decide) le_rfl fun hf => absurd hf hopen

/-! ## Runs -/

/-- One event, with what it does to the stack. -/
theorem step_spec {s : State} {past : List Action} {p : List Handler} (hi : Inv s p) (hp : pending past = some p)
    (hperm : registered past ~ called past ++ p) (e : Event) :
    ∃ s' new p', step s e = some (s', new) ∧ Inv s' p' ∧ pending (new ++ past) = some p' ∧
      registered (new ++ past) ~ called (new ++ past) ++ p' := by
  cases e with
  | register h calloc =>
    obtain ⟨r, s', hr, hi'⟩ := cxaAtexit_spec hi h calloc
    refine ⟨s', _, _, by rw [step, hr]; rfl, hi', ?_⟩
    by_cases h0 : r = 0
    · simp only [if_pos h0]
      refine ⟨by simp [pending, hp], ?_⟩
      exact (hperm.cons h).trans perm_middle.symm
    · simp only [if_neg h0]
      exact ⟨hp, hperm⟩
  | goOn =>
    obtain ⟨s', hs', hi', -⟩ := funcsOnExit_spec s s.head s.slot hi.slot_nonneg hi.slot_le hi.finished
    rw [hi.stack_eq] at hs' hi'
    refine ⟨s', _, _, by rw [step, hs']; rfl, hi', ?_⟩
    cases p with
    | nil => exact ⟨hp, hperm⟩
    | cons h p =>
      refine ⟨by simp [pending, hp], ?_⟩
      exact hperm.trans perm_middle

/-- **Exit handlers form a stack.** In every run, each call is of the handler that was registered last among those not
yet called, the calls and the handlers still on the stack are together the registered ones, each as often as it was
registered, and when `__funcs_on_exit` is over no handler is left; it is over when it finds none. -/
theorem run_eq_stack (es : List Event) :
    ∃ s past p, run es = some (s, past) ∧ pending past = some p ∧ registered past ~ called past ++ p ∧
      (s.finishedAtexit = true → p = []) ∧
      ∃ s', step s .goOn = some (s', (p.head?.map Action.called).toList) ∧ (p = [] → s'.finishedAtexit = true) := by
  obtain ⟨s, past, p, hrun, hi, hp, hperm⟩ : ∃ s past p, run es = some (s, past) ∧ Inv s p ∧
      pending past = some p ∧ registered past ~ called past ++ p := by
    induction es with
    | nil => exact ⟨_, _, [], rfl, ⟨le_rfl, by decide, rfl, fun _ _ => rfl, fun _ => rfl⟩, rfl, Perm.refl _⟩
    | cons e es ih =>
      obtain ⟨s, past, p, hrun, hi, hp, hperm⟩ := ih
      obtain ⟨s', new, p', hstep, hi', h⟩ := step_spec hi hp hperm e
      exact ⟨s', new ++ past, p', by rw [run, hrun]; simp [hstep], hi', h⟩
  obtain ⟨s', hs', -, hend⟩ := funcsOnExit_spec s s.head s.slot hi.slot_nonneg hi.slot_le hi.finished
  rw [hi.stack_eq] at hs' hend
  refine ⟨s, past, p, hrun, hp, hperm, fun hf => ?_, s', by rw [step, hs']; rfl, hend⟩
  rw [← hi.stack_eq, hi.finished hf]
  rfl

end Leblibc.Atexit
