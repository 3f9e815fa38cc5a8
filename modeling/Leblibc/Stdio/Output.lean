import Leblibc.Stdio.Write

/-!
# Integrity of buffered output

Every output call takes a prefix of the bytes it is given: all of them, unless it fails. As long as
no write fails, what the descriptor has received followed by what is in the buffer is what the calls
have taken. A write that fails drops the buffer: the bytes of it that had not gone out are lost, and
the count goes on from there. A run is therefore cut by its failed calls into epochs, and in each
epoch the descriptor receives a prefix of what the calls of the epoch have taken.

## Main results

* `fwritex_spec`, `putc_spec`, `fflush_spec`: the effect of each call
* `output_epochs`: in every run each epoch receives a prefix of what it took
-/

namespace Leblibc.Stdio

open Lib List

/-- The stream is set up for writing and holds the bytes `w` in its buffer. -/
def Active (f : FILE) (w : List UInt8) : Prop :=
  f.wbase = f.buf ∧ f.wend = f.buf + f.bufSize ∧ f.buf ≤ f.wpos ∧ f.wpos ≤ f.wend ∧
    w = load f.mem f.buf (f.wpos - f.buf)

/-- The stream is not set up for writing, and nothing is buffered. -/
def Idle (f : FILE) (w : List UInt8) : Prop :=
  f.wend = 0 ∧ f.wpos = 0 ∧ f.wbase = 0 ∧ w = []

/-- The stream holds the bytes `w` in its buffer. -/
def Buffers (f : FILE) (w : List UInt8) : Prop := 0 < f.buf ∧ (Idle f w ∨ Active f w)

/-- What a call that is given the bytes `s` does: it takes the first `k` of them and goes from `w`
buffered to `w'` buffered. -/
inductive Effect (f : FILE) (d : Descriptor) (w s : List UInt8) (k : ℕ) (f' : FILE) (d' : Descriptor)
    (w' : List UInt8) : Prop where
  /-- All of them are taken: `x` goes out, the rest is buffered. -/
  | taken (x : List UInt8) (hk : k = s.length) (herr : f.err = true → f'.err = true)
      (hd : d'.received = d.received ++ x) (hx : x ++ w' = w ++ s)
  /-- The call fails after `j` bytes have gone out, and the rest of the buffer is dropped. -/
  | failed (j : ℕ) (hs : 0 < s.length) (hj : j < w.length + s.length) (hk : k = j - w.length)
      (herr : f'.err = true) (hw : w' = []) (hd : d'.received = d.received ++ (w ++ s).take j)

variable {f : FILE} {w s : List UInt8} {d : Descriptor} {received : List UInt8} {events : List OutEvent}
  {closed : List (List OutEvent × List UInt8)} {current : List OutEvent} {part : List UInt8}

theorem Active.load_eq (h : Active f w) :
    load f.mem f.wbase (f.wpos - f.wbase) = w := by
  rw [h.1, h.2.2.2.2]

theorem Active.length_eq (h : Active f w) :
    w.length = f.wpos - f.buf := by
  rw [h.2.2.2.2, length_load]

theorem active_drained (f : FILE) : Active f.drained [] :=
  ⟨rfl, rfl, le_rfl, Nat.le_add_right _ _, by simp [FILE.drained]⟩

theorem idle_dropped (f : FILE) : Idle f.dropped [] := ⟨rfl, rfl, rfl, rfl⟩

theorem Active.append (h : Active f w) (hfit : s.length ≤ f.wend - f.wpos) : Active (f.append s) (w ++ s) := by
  obtain ⟨h1, h2, h3, h4, rfl⟩ := h
  have hlen : f.wpos + s.length - f.buf = (f.wpos - f.buf) + s.length := by omega
  have hpos : f.buf + (f.wpos - f.buf) = f.wpos := by omega
  refine ⟨h1, h2, Nat.le_add_right_of_le h3, Nat.add_le_of_le_sub' h4 hfit, ?_⟩
  simp only [FILE.append, hlen, load_add, hpos, load_store_same]
  rw [load_store_of_disjoint (Or.inl (by omega))]

/-- `ready` sets an idle stream up for writing, unless it is not open for that. -/
theorem ready_spec (h : Buffers f w) :
    (ready f).1 = true ∧ w = [] ∧ (ready f).2.err = true ∧ Buffers (ready f).2 [] ∨
      (ready f).1 = false ∧ Active (ready f).2 w ∧ 0 < (ready f).2.buf ∧ (ready f).2.err = f.err := by
  obtain ⟨hbuf, ⟨hwend, hwpos, hwbase, rfl⟩ | hact⟩ := h
  · unfold ready towrite
    rw [if_pos hwend]
    split_ifs with hno
    · exact Or.inl ⟨rfl, rfl, rfl, hbuf, Or.inl ⟨hwend, hwpos, hwbase, rfl⟩⟩
    · exact Or.inr ⟨rfl, ⟨rfl, rfl, le_rfl, Nat.le_add_right _ _, by simp⟩, hbuf, rfl⟩
  · unfold ready
    rw [if_neg (by have := hact.2.1; omega)]
    exact Or.inr ⟨rfl, hact, hbuf, rfl⟩

theorem effect_of_writeEnd {r : ℕ × FILE × Descriptor} (hs : 0 < s.length) (h : WriteEnd f s.length w s d.received r) :
    Effect f d w s r.1 r.2.1 r.2.2 [] := by
  cases h with
  | done hd => exact .taken (w ++ s) rfl id (by rw [hd, append_assoc]) (by simp)
  | failed j hj hd hn => exact .failed j hs hj (by simpa using hn) rfl rfl hd

/-- A write of the buffer and of `s` leaves the stream with an empty buffer. -/
theorem buffers_of_writeEnd {n : ℕ} {r : ℕ × FILE × Descriptor} (hbuf : 0 < f.buf) (h : WriteEnd f n w s received r) :
    Buffers r.2.1 [] := by
  cases h with
  | done => exact ⟨hbuf, Or.inr (active_drained f)⟩
  | failed => exact ⟨hbuf, Or.inl (idle_dropped f)⟩

theorem scanNewline_le (s : List UInt8) (i : ℕ) : scanNewline s i ≤ i := by
  induction i with
  | zero => exact le_rfl
  | succ i ih =>
    unfold scanNewline
    split <;> omega

/-- The effect is read off the stream that `ready` leaves: the error flag is that of the stream
before. -/
theorem Effect.of_ready {g : FILE} {k : ℕ} {f' : FILE}
    {d' : Descriptor} {w' : List UInt8} (herr : g.err = f.err) (h : Effect g d w s k f' d' w') :
    Effect f d w s k f' d' w' := by
  cases h with
  | taken x hk he hd hx => exact .taken x hk (herr ▸ he) hd hx
  | failed j hs hj hk he hw hd => exact .failed j hs hj hk he hw hd

/-- A stream that is not open for writing takes nothing, which is a failure if it was given
something. -/
theorem effect_refused {f' : FILE} (herr : f'.err = true) (d : Descriptor) (s : List UInt8) :
    Effect f d [] s 0 f' d [] := by
  rcases s with _ | ⟨c, s⟩
  · exact .taken [] rfl (fun _ => herr) (by simp) rfl
  · exact .failed 0 (by simp) (by simp) rfl herr rfl (by simp)

/-- **The effect of `__fwritex`.** -/
theorem fwritex_spec (h : Buffers f w) (s : List UInt8) (d : Descriptor) :
    ∃ w', Buffers (fwritex s f d).2.1 w' ∧
      Effect f d w s (fwritex s f d).1 (fwritex s f d).2.1 (fwritex s f d).2.2 w' := by
  unfold fwritex
  rcases ready_spec h with ⟨hfail, rfl, herr, hbuf⟩ | ⟨hok, hact, hbuf, herr⟩
  · simp only [hfail]
    exact ⟨[], hbuf, effect_refused herr d _⟩
  · simp only [hok, Bool.false_eq_true, if_false]
    generalize (ready f).2 = g at hact hbuf herr ⊢
    by_cases hbig : s.length > g.wend - g.wpos
    · -- more than the buffer has room for goes out with the buffer
      rw [if_pos hbig]
      have hend := stdioWrite_spec g s d (by omega)
      rw [hact.load_eq] at hend
      exact ⟨[], buffers_of_writeEnd hbuf hend, (effect_of_writeEnd (by omega) hend).of_ready herr⟩
    · rw [if_neg hbig]
      generalize hi : (if g.lbf ≥ 0 then scanNewline s s.length else 0) = i
      have hile : i ≤ s.length := by
        have := scanNewline_le s s.length
        split at hi <;> omega
      by_cases hzero : i ≠ 0
      · -- line buffering: the part up to the last newline goes out with the buffer
        rw [if_pos hzero]
        have htake : (s.take i).length = i := by simpa using hile
        have hend := stdioWrite_spec g (s.take i) d (by omega)
        rw [hact.load_eq, htake] at hend
        generalize stdioWrite g (s.take i) d = r at hend ⊢
        cases hend with
        | @done d' hd =>
          rw [if_neg (by simp)]
          have hcap : (s.drop i).length ≤ g.drained.wend - g.drained.wpos := by
            have := hact.2.1
            have := hact.2.2.1
            simp only [FILE.drained, length_drop]
            omega
          refine ⟨s.drop i, ⟨hbuf, Or.inr ?_⟩, .taken (w ++ s.take i) ?_ (herr ▸ id) ?_ ?_⟩
          · simpa using (active_drained g).append hcap
          · simp only [length_drop]
            omega
          · rw [hd, append_assoc]
          · rw [append_assoc, take_append_drop]
        | @failed d' n j hj hd hn =>
          have hlt : n < i := by omega
          simp only [if_pos hlt]
          refine ⟨[], ⟨hbuf, Or.inl (idle_dropped g)⟩, .failed j (by omega) (by omega) (by omega) rfl rfl
            ?_⟩
          rw [hd, take_append, take_append, take_take]
          congr 3
          omega
      · rw [if_neg hzero]
        exact ⟨w ++ s, ⟨hbuf, Or.inr (hact.append (by omega))⟩,
          .taken [] (by omega) (herr ▸ id) (by simp) rfl⟩

/-- Putting one byte into a buffer that has room for it. -/
theorem append_byte_spec (hact : Active f w) (hbuf : 0 < f.buf) (hroom : f.wpos ≠ f.wend) (c : UInt8) (d : Descriptor) :
    Buffers (f.append [c]) (w ++ [c]) ∧ Effect f d w [c] 1 (f.append [c]) d (w ++ [c]) := by
  have hlt : f.wpos < f.wend := lt_of_le_of_ne hact.2.2.2.1 hroom
  exact ⟨⟨hbuf, Or.inr (hact.append (by simp only [length_singleton]; omega))⟩,
    .taken [] rfl id (by simp) rfl⟩

/-- The number of bytes a `putc` that returned `r` has taken. -/
def putTaken (r : ℤ) : ℕ := if r = EOF then 0 else 1

theorem putTaken_toNat (c : UInt8) : putTaken (c.toNat : ℤ) = 1 := by
  have : (c.toNat : ℤ) ≠ EOF := by
    unfold EOF
    omega
  simp [putTaken, this]

/-- **The effect of `__overflow`.** -/
theorem overflow_spec (h : Buffers f w) (c : UInt8) (d : Descriptor) :
    ∃ w', Buffers (overflow f c d).2.1 w' ∧
      Effect f d w [c] (putTaken (overflow f c d).1) (overflow f c d).2.1 (overflow f c d).2.2 w' := by
  unfold overflow
  rcases ready_spec h with ⟨hfail, rfl, herr, hbuf⟩ | ⟨hok, hact, hbuf, herr⟩
  · simp only [hfail]
    exact ⟨[], hbuf, effect_refused herr d _⟩
  · simp only [hok]
    generalize (ready f).2 = g at hact hbuf herr ⊢
    by_cases hroom : g.wpos ≠ g.wend ∧ (c.toNat : ℤ) ≠ g.lbf
    · rw [if_pos hroom]
      obtain ⟨hb, heff⟩ := append_byte_spec hact hbuf hroom.1 c d
      exact ⟨w ++ [c], hb, heff.of_ready herr⟩
    · rw [if_neg hroom]
      have hend := stdioWrite_spec g [c] d (by simp)
      rw [hact.load_eq] at hend
      have hb := buffers_of_writeEnd hbuf hend
      generalize stdioWrite g [c] d = r at hend hb ⊢
      refine ⟨[], hb, ?_⟩
      have heff := (effect_of_writeEnd (by simp) hend).of_ready herr
      -- the one byte went out exactly when the count is 1
      cases hend with
      | done => simpa [putTaken_toNat] using heff
      | @failed d' n j hj hd hn =>
        have hn0 : n = 0 := by
          simp only [length_singleton] at hj hn
          omega
        subst hn0
        simpa [putTaken] using heff

/-- **The effect of `putc`.** -/
theorem putc_spec (h : Buffers f w) (c : ℤ) (d : Descriptor) :
    ∃ w', Buffers (putc c f d).2.1 w' ∧
      Effect f d w [uchar c] (putTaken (putc c f d).1) (putc c f d).2.1 (putc c f d).2.2 w' := by
  unfold putc
  split_ifs with hroom
  · obtain ⟨hbuf, hidle | hact⟩ := h
    · exact absurd (hidle.2.1.trans hidle.1.symm) hroom.2
    · obtain ⟨hb, heff⟩ := append_byte_spec hact hbuf hroom.2 (uchar c) d
      exact ⟨_, hb, heff⟩
  · exact overflow_spec h (uchar c) d

/-- **The effect of `fflush`**: it returns 0 and leaves an empty buffer, or returns `EOF`. -/
theorem fflush_spec (h : Buffers f w) (d : Descriptor) :
    Buffers (fflush f d).2.1 [] ∧
      ((fflush f d).1 = 0 ∧ (f.err = true → (fflush f d).2.1.err = true) ∧
          (fflush f d).2.2.received = d.received ++ w ∨
        (fflush f d).1 = EOF ∧ (fflush f d).2.1.err = true ∧
          ∃ j < w.length, (fflush f d).2.2.received = d.received ++ w.take j) := by
  obtain ⟨hbuf, hst⟩ := h
  unfold fflush
  by_cases hw : f.wpos ≠ f.wbase
  · -- only an active stream has bytes to send
    have hact : Active f w := by
      rcases hst with hidle | hact
      · exact absurd (hidle.2.1.trans hidle.2.2.1.symm) hw
      · exact hact
    have hne : 0 < w.length := by
      have := hact.length_eq
      have := hact.1
      have := hact.2.2.1
      omega
    have hend := stdioWrite_spec f [] d (by rw [hact.load_eq]; omega)
    rw [hact.load_eq] at hend
    simp only [if_pos hw]
    generalize stdioWrite f [] d = r at hend ⊢
    cases hend with
    | @done d' hd =>
      have hpos : ¬(f.wpos ≠ f.wbase ∧ f.drained.wpos = 0) := by
        rintro ⟨-, h0⟩
        simp only [FILE.drained] at h0
        omega
      simp only [if_neg hpos]
      refine ⟨⟨hbuf, Or.inl ⟨rfl, rfl, rfl, rfl⟩⟩, Or.inl ⟨trivial, id, ?_⟩⟩
      split <;> simpa using hd
    | @failed d' n j hj hd hn =>
      have hpos : f.wpos ≠ f.wbase ∧ f.dropped.wpos = 0 := ⟨hw, rfl⟩
      simp only [if_pos hpos]
      exact ⟨⟨hbuf, Or.inl (idle_dropped f)⟩, Or.inr ⟨trivial, rfl, j, by simpa using hj,
        by simpa using hd⟩⟩
  · have hnil : w = [] := by
      rcases hst with hidle | hact
      · exact hidle.2.2.2
      · have := hact.length_eq
        have := hact.1
        exact List.length_eq_zero_iff.mp (by omega)
    subst hnil
    simp only [hw, false_and, if_false]
    refine ⟨⟨hbuf, Or.inl ⟨rfl, rfl, rfl, rfl⟩⟩, Or.inl ⟨trivial, id, ?_⟩⟩
    split <;> simp

/-! ## Runs of output calls -/

/-- An output call on a stream; `fwrite` comes with the `size * nmemb` bytes it is to write. -/
inductive OutCall where
  | fwrite (src : List UInt8) (size nmemb : ℕ) (hlen : src.length = size * nmemb)
  | putc (c : ℤ)
  | fflush

/-- The bytes a call is given. -/
def OutCall.bytes : OutCall → List UInt8
  | .fwrite src _ _ _ => src
  | .putc c => [uchar c]
  | .fflush => []

/-- A call that has returned: its return value, the number of bytes it took, and the state it
left. -/
structure OutEvent where
  call : OutCall
  ret : ℤ
  taken : ℕ
  file : FILE
  fd : Descriptor

/-- One call. -/
def outStep (f : FILE) (d : Descriptor) : OutCall → OutEvent
  | .fwrite src size nmemb hlen =>
    let r := fwrite src size nmemb f d
    ⟨.fwrite src size nmemb hlen, r.1, r.2.1, r.2.2.1, r.2.2.2⟩
  | .putc c =>
    let r := putc c f d
    ⟨.putc c, r.1, putTaken r.1, r.2.1, r.2.2⟩
  | .fflush =>
    let r := fflush f d
    ⟨.fflush, r.1, 0, r.2.1, r.2.2⟩

/-- Calls made one after another. -/
def outRun : FILE → Descriptor → List OutCall → List OutEvent
  | _, _, [] => []
  | f, d, c :: calls => outStep f d c :: outRun (outStep f d c).file (outStep f d c).fd calls

/-- The call reports a failure: it returns `EOF`, or took less than it was given. -/
def OutEvent.Failed (ev : OutEvent) : Prop := ev.ret = EOF ∨ ev.taken < ev.call.bytes.length

/-- The bytes the calls have taken, in order. -/
def takenBytes (events : List OutEvent) : List UInt8 :=
  (events.map fun ev => ev.call.bytes.take ev.taken).flatten

theorem takenBytes_append (es es' : List OutEvent) :
    takenBytes (es ++ es') = takenBytes es ++ takenBytes es' := by
  simp [takenBytes]

theorem takenBytes_singleton (ev : OutEvent) : takenBytes [ev] = ev.call.bytes.take ev.taken := by
  simp [takenBytes]

/-- **One call**: it reports a failure exactly when a write has failed. -/
theorem outStep_spec (h : Buffers f w) (d : Descriptor) (c : OutCall) :
    ∃ w', Buffers (outStep f d c).file w' ∧ (outStep f d c).call = c ∧
      ((∃ x, ¬(outStep f d c).Failed ∧ (outStep f d c).taken = c.bytes.length ∧
          (f.err = true → (outStep f d c).file.err = true) ∧
          (outStep f d c).fd.received = d.received ++ x ∧ x ++ w' = w ++ c.bytes) ∨
        ∃ j, (outStep f d c).Failed ∧ (outStep f d c).file.err = true ∧ w' = [] ∧
          j < w.length + c.bytes.length ∧ (outStep f d c).taken = j - w.length ∧
          (outStep f d c).fd.received = d.received ++ (w ++ c.bytes).take j) := by
  have hcall : (outStep f d c).call = c := by cases c <;> rfl
  by_cases hflush : c = .fflush
  · subst hflush
    obtain ⟨hb, ⟨hret, herr, hd⟩ | ⟨hret, herr, j, hj, hd⟩⟩ := fflush_spec h d
    · refine ⟨[], hb, rfl, Or.inl ⟨w, ?_, rfl, herr, hd, by simp [OutCall.bytes]⟩⟩
      rintro (hf | hf)
      · exact absurd (hret.symm.trans hf) (by decide)
      · exact absurd hf (by simp [outStep, OutCall.bytes])
    · refine ⟨[], hb, rfl, Or.inr ⟨j, Or.inl hret, herr, rfl, hj, (Nat.sub_eq_zero_of_le hj.le).symm, ?_⟩⟩
      simpa [OutCall.bytes, outStep] using hd
  · -- a call that is given bytes and takes them all returns something else than `EOF`
    have heff : ∃ w', Buffers (outStep f d c).file w' ∧
        Effect f d w c.bytes (outStep f d c).taken (outStep f d c).file (outStep f d c).fd w' ∧
        ((outStep f d c).ret = EOF → (outStep f d c).taken ≠ c.bytes.length) := by
      cases c with
      | fwrite src size nmemb hlen =>
        obtain ⟨w', hb, heff⟩ := fwritex_spec h src d
        refine ⟨w', hb, heff, fun hret => ?_⟩
        simp only [outStep, EOF] at hret
        omega
      | putc c =>
        obtain ⟨w', hb, heff⟩ := putc_spec h c d
        refine ⟨w', hb, heff, fun hret => ?_⟩
        have hret : (putc c f d).1 = EOF := hret
        simp [outStep, OutCall.bytes, putTaken, hret]
      | fflush => exact absurd rfl hflush
    obtain ⟨w', hb, heff, hret⟩ := heff
    refine ⟨w', hb, hcall, ?_⟩
    cases heff with
    | taken x hk herr hd hx =>
      refine Or.inl ⟨x, ?_, hk, herr, hd, hx⟩
      rintro (hf | hf)
      · exact hret hf hk
      · rw [hcall] at hf
        omega
    | failed j hs hj hk herr hw hd =>
      refine Or.inr ⟨j, Or.inr ?_, herr, hw, hj, hk, hd⟩
      rw [hcall]
      omega

/-! ## Epochs -/

/-- An epoch: calls of which the last one, and only it, failed, and the part of the received bytes
that belongs to it. This is a prefix of the bytes the calls have taken, and the failed call took as
many of its bytes as are part of it. -/
def EpochOk (epoch : List OutEvent × List UInt8) : Prop :=
  ∃ es ev, epoch.1 = es ++ [ev] ∧ (∀ e ∈ es, ¬e.Failed) ∧ ev.Failed ∧
    epoch.2 <+: takenBytes epoch.1 ∧ ev.taken = epoch.2.length - (takenBytes es).length

/-- The account of a run with `w` in the buffer: the closed epochs `closed`, then the calls `current`
since the last failure, of whose bytes `part` was received and `w` is still in the buffer. -/
structure Account (events : List OutEvent) (received w : List UInt8)
    (closed : List (List OutEvent × List UInt8)) (current : List OutEvent) (part : List UInt8) :
    Prop where
  events_eq : events = (closed.map Prod.fst).flatten ++ current
  received_eq : received = (closed.map Prod.snd).flatten ++ part
  closed_ok : ∀ epoch ∈ closed, EpochOk epoch
  current_ok : ∀ e ∈ current, ¬e.Failed
  current_eq : part ++ w = takenBytes current

theorem account_step (hb : Buffers f w) (h : Account events d.received w closed current part) (c : OutCall) :
    ∃ w' closed' current' part', Buffers (outStep f d c).file w' ∧
      Account (events ++ [outStep f d c]) (outStep f d c).fd.received w' closed' current' part' := by
  obtain ⟨w', hb', hcall, ⟨x, hnf, htaken, -, hd, hx⟩ | ⟨j, hf, -, rfl, hj, htaken, hd⟩⟩ :=
    outStep_spec hb d c
  · -- the call joins the current epoch
    refine ⟨w', closed, current ++ [outStep f d c], part ++ x, hb', ?_, ?_, h.closed_ok, ?_, ?_⟩
    · rw [h.events_eq, append_assoc]
    · rw [hd, h.received_eq, append_assoc]
    · intro e he
      rcases List.mem_append.mp he with he | he
      · exact h.current_ok e he
      · rw [List.mem_singleton.mp he]
        exact hnf
    · rw [takenBytes_append, takenBytes_singleton, hcall, htaken, take_length, append_assoc,
        hx, ← append_assoc, h.current_eq]
  · -- the call closes it, and the buffer is gone
    refine ⟨[], closed ++ [(current ++ [outStep f d c], part ++ (w ++ c.bytes).take j)], [], [], hb',
      ?_, ?_, ?_, by simp, by simp [takenBytes]⟩
    · simp [h.events_eq]
    · simp [hd, h.received_eq]
    · intro epoch he
      rcases List.mem_append.mp he with he | he
      · exact h.closed_ok epoch he
      · rw [List.mem_singleton.mp he]
        refine ⟨current, outStep f d c, rfl, h.current_ok, hf, ?_, ?_⟩
        · rw [takenBytes_append, takenBytes_singleton, hcall, htaken, ← h.current_eq,
            append_assoc, prefix_append_right_inj, take_append]
          -- either the write failed inside the buffer, or all of it went out
          rcases Nat.lt_or_ge j w.length with hlt | hge
          · rw [Nat.sub_eq_zero_of_le hlt.le, take_zero, append_nil, append_nil]
            exact take_prefix _ _
          · rw [take_of_length_le hge]
        · rw [← h.current_eq]
          simp only [length_append, length_take]
          omega

/-- The bytes in the buffer are determined by the stream. -/
theorem Buffers.unique {w' : List UInt8} (h : Buffers f w) (h' : Buffers f w') :
    w = w' := by
  obtain ⟨hbuf, hidle | hact⟩ := h <;> obtain ⟨-, hidle' | hact'⟩ := h'
  · rw [hidle.2.2.2, hidle'.2.2.2]
  · have h1 := hidle.1
    have h2 := hact'.2.1
    omega
  · have h1 := hidle'.1
    have h2 := hact.2.1
    omega
  · rw [hact.2.2.2.2, hact'.2.2.2.2]

/-- What a run keeps: an account, and an error flag that is set once a call has failed. -/
structure OutInv (f : FILE) (d : Descriptor) (events : List OutEvent) : Prop where
  account : ∃ w closed current part, Buffers f w ∧ Account events d.received w closed current part
  flagged : f.err = false → ∀ e ∈ events, ¬e.Failed

theorem outInv_step (h : OutInv f d events) (c : OutCall) :
    OutInv (outStep f d c).file (outStep f d c).fd (events ++ [outStep f d c]) := by
  obtain ⟨w, closed, current, part, hb, hacc⟩ := h.account
  refine ⟨?_, fun herr e he => ?_⟩
  · exact account_step hb hacc c
  · obtain ⟨w', -, -, ⟨x, hnf, -, hkeep, -⟩ | ⟨j, -, herr', -⟩⟩ := outStep_spec hb d c
    · have hold : f.err = false := by
        cases hf : f.err with
        | false => rfl
        | true => rw [hkeep hf] at herr; cases herr
      rcases List.mem_append.mp he with he | he
      · exact h.flagged hold e he
      · rw [List.mem_singleton.mp he]
        exact hnf
    · rw [herr'] at herr
      cases herr

/-- Every event of a run leaves a state that keeps what a run keeps. -/
theorem outRun_inv (calls : List OutCall) :
    ∀ (f : FILE) (d : Descriptor) (events : List OutEvent), OutInv f d events →
      ∀ pre ev post, outRun f d calls = pre ++ ev :: post →
        (∃ f' d', ev = outStep f' d' ev.call ∧ OutInv f' d' (events ++ pre)) ∧
          OutInv ev.file ev.fd (events ++ (pre ++ [ev])) := by
  induction calls with
  | nil =>
    intro f d events _ pre ev post heq
    simp [outRun] at heq
  | cons c calls ih =>
    intro f d events hinv pre ev post heq
    have hstep := outInv_step hinv c
    rcases pre with _ | ⟨ev', pre⟩
    · obtain ⟨rfl, -⟩ := List.cons.inj heq
      have hcall : (outStep f d c).call = c := by cases c <;> rfl
      exact ⟨⟨f, d, by rw [hcall], by simpa using hinv⟩, by simpa using hstep⟩
    · obtain ⟨rfl, htail⟩ := List.cons.inj heq
      simpa [append_assoc] using ih _ _ _ hstep pre ev post htail

/-- As long as no earlier call has failed, the received bytes are a prefix of the taken ones. -/
theorem Account.received_prefix {pre : List OutEvent} {ev : OutEvent}
    (h : Account (pre ++ [ev]) received w closed current part) (hpre : ∀ e ∈ pre, ¬e.Failed) :
    received <+: takenBytes (pre ++ [ev]) := by
  rcases closed with _ | ⟨⟨epoch, p⟩, rest⟩
  · have hev : pre ++ [ev] = current := by simpa using h.events_eq
    have hrec : received = part := by simpa using h.received_eq
    rw [hrec, hev, ← h.current_eq]
    exact prefix_append _ _
  · -- the failed call that closes the first epoch can only be the last call
    obtain ⟨es, ev', hep, -, hfail, hpref, -⟩ := h.closed_ok (epoch, p) (by simp)
    simp only at hep hpref
    have heq : pre ++ [ev] = es ++ ev' :: ((rest.map Prod.fst).flatten ++ current) := by
      simpa [hep] using h.events_eq
    have htail : (rest.map Prod.fst).flatten ++ current = [] := by
      rcases eq_nil_or_concat ((rest.map Prod.fst).flatten ++ current) with hnil | ⟨l, x, hl⟩
      · exact hnil
      · have hlast : pre ++ [ev] = (es ++ ev' :: l) ++ [x] := by
          rw [heq, hl]
          simp
        obtain ⟨hpre', -⟩ := append_inj' hlast rfl
        exact absurd hfail (hpre ev' (by rw [hpre']; simp))
    obtain ⟨hflat, hcur⟩ := List.append_eq_nil_iff.mp htail
    have hrest : rest = [] := by
      rcases rest with _ | ⟨⟨e2, p2⟩, rest⟩
      · rfl
      · obtain ⟨es2, ev2, he2, -⟩ := h.closed_ok (e2, p2) (by simp)
        simp only at he2
        simp [he2] at hflat
    have hpart : part = [] := by
      have := h.current_eq
      rw [hcur] at this
      exact (List.append_eq_nil_iff.mp (by simpa [takenBytes] using this)).1
    have hrec : received = p := by simpa [hrest, hpart] using h.received_eq
    rw [hrec, heq, htail, ← hep]
    exact hpref

/-- With no failed call and nothing left in the buffer, all taken bytes are received. -/
theorem Account.received_eq_taken
    (h : Account events received [] closed current part) (hall : ∀ e ∈ events, ¬e.Failed) :
    received = takenBytes events := by
  have hclosed : closed = [] := by
    rcases closed with _ | ⟨epoch, rest⟩
    · rfl
    · obtain ⟨es, ev', hep, -, hfail, -⟩ := h.closed_ok epoch (by simp)
      exact absurd hfail (hall ev' (by rw [h.events_eq]; simp [hep]))
  have hev : events = current := by simpa [hclosed] using h.events_eq
  have hrec : received = part := by simpa [hclosed] using h.received_eq
  have hcur : part = takenBytes current := by simpa using h.current_eq
  rw [hrec, hev, hcur]

/-- **Integrity of buffered output.** After every call of a run on an opened stream, the failed calls
cut the run into epochs, in each of which the descriptor has received a prefix of the bytes its calls
have taken; a failed call took as many of its bytes as were received. In particular the received bytes
are a prefix of the taken ones up to and including the first call that fails, and they are all of them
after an `fflush` that returns 0 on a stream without the error flag. What `fwrite` returns is the
number of bytes it took, counted in members. -/
theorem output_integrity (noRd noWr : Bool) (buf bufSize : ℕ) (lbf : ℤ) (mem : ℕ → UInt8)
    (hbuf : 0 < buf) (d : Descriptor) (hd : d.received = []) (calls : List OutCall)
    (pre : List OutEvent) (ev : OutEvent) (post : List OutEvent)
    (hrun : outRun (FILE.opened noRd noWr buf bufSize lbf mem) d calls = pre ++ ev :: post) :
    (∃ w closed current part, Account (pre ++ [ev]) ev.fd.received w closed current part) ∧
      ((∀ e ∈ pre, ¬e.Failed) → ev.fd.received <+: takenBytes (pre ++ [ev])) ∧
      (ev.call = .fflush → ev.ret = 0 → ev.file.err = false →
        ev.fd.received = takenBytes (pre ++ [ev])) ∧
      (ev.Failed → ev.file.err = true) ∧
      (∀ src size nmemb hlen, ev.call = .fwrite src size nmemb hlen →
        ev.ret = ((if ev.taken = src.length then (if size = 0 then 0 else nmemb)
          else ev.taken / size : ℕ) : ℤ)) := by
  have hinit : OutInv (FILE.opened noRd noWr buf bufSize lbf mem) d [] := by
    refine ⟨⟨[], [], [], [], ⟨hbuf, Or.inl ⟨rfl, rfl, rfl, rfl⟩⟩, rfl, ?_, by simp, by simp, rfl⟩,
      by simp⟩
    simp [hd]
  obtain ⟨⟨f', d', hev, hinv'⟩, hinv⟩ := outRun_inv calls _ _ _ hinit pre ev post hrun
  obtain ⟨w, closed, current, part, hb, hacc⟩ := hinv.account
  refine ⟨⟨w, closed, current, part, hacc⟩, hacc.received_prefix, fun hcall hret herr => ?_,
    fun hfail => ?_, fun src size nmemb hlen hcall => ?_⟩
  · obtain ⟨w0, -, -, -, hb0, -⟩ := hinv'.account
    have hb' : Buffers ev.file [] := by
      rw [hev, hcall]
      exact (fflush_spec hb0 d').1
    obtain rfl := hb.unique hb'
    exact hacc.received_eq_taken (hinv.flagged herr)
  · cases herr : ev.file.err with
    | true => rfl
    | false => exact absurd hfail (hinv.flagged herr ev (by simp))
  · rw [hev, hcall]
    rfl

/-- A run on which everything goes out: two bytes of a line-buffered stream, flushed. -/
theorem output_integrity_two_bytes :
    ∃ (ev : OutEvent) (pre : List OutEvent),
      outRun (FILE.opened true false 8 16 10 fun _ => 0) ⟨[], [.count 1, .count 1], [], [], [], []⟩
          [.putc 65, .putc 66, .fflush] = pre ++ [ev] ∧
        ev.fd.received <+: takenBytes (pre ++ [ev]) := by
  refine ⟨_, _, rfl, (output_integrity true false 8 16 10 (fun _ => 0) (by decide)
    ⟨[], [.count 1, .count 1], [], [], [], []⟩ rfl [.putc 65, .putc 66, .fflush]
    (outRun (FILE.opened true false 8 16 10 fun _ => 0) ⟨[], [.count 1, .count 1], [], [], [], []⟩
      [.putc 65, .putc 66]) _ [] rfl).2.1 ?_⟩
  intro e he hf
  simp only [outRun, mem_cons, not_mem_nil, or_false] at he
  rcases he with rfl | rfl <;> rcases hf with hf | hf <;> revert hf <;> decide

/-- **After a failed write the received bytes are no longer a prefix of the taken ones**: the first
byte is taken into the buffer and lost when it cannot be flushed, the second one is taken and
received. -/
theorem received_not_prefix_after_failure :
    ((outRun (FILE.opened true false 8 16 (-1) fun _ => 0) ⟨[], [.fail, .count 1], [], [], [], []⟩
        [.putc 65, .fflush, .putc 66, .fflush]).map fun ev => ev.fd.received).getLast? = some [66] ∧
      takenBytes (outRun (FILE.opened true false 8 16 (-1) fun _ => 0)
        ⟨[], [.fail, .count 1], [], [], [], []⟩ [.putc 65, .fflush, .putc 66, .fflush]) = [65, 66] ∧
      ¬([66] : List UInt8) <+: [65, 66] := by
  refine ⟨by decide, by decide, by decide⟩

end Leblibc.Stdio
