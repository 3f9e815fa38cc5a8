import Leblibc.Network.ResMsend

/-!
# The routing of answers

The queries before `next` all have an answer or a connection, and `next` has none; so what is received into its buffer
destroys nothing. A slot with an answer is found again by no datagram, and a connection is only for a slot without
one. These facts are kept by every step, whatever the network does, and with them every answer stays as it was
accepted.

## Main results

* `receive_inv`, `tcpReceive_inv`: the two ways to get an answer
* `step_inv`: a step keeps the invariant, and the answers
* `run_routes`: the routing of answers in all runs
-/

namespace Leblibc.ResMsend

open List Function Option

open Lib (store load skipTo skipTo_spec skipTo_lt)

variable {α : Type} {c : Conf α}

/-! ## The invariant -/

/-- The query `i` has an answer that came as a datagram: it has an answer, and no connection was started for it. -/
def Slots.Accepted (s : Slots) (i : ℕ) : Prop := 0 < s.alens i ∧ s.apos i = none

/-- What an answer to the query `i` is, with its length and the buffer: the whole of a datagram of at least 4 bytes
from a name server, not truncated, with the ID of the query and with the rcode 0 or 3. -/
structure Reply (c : Conf α) (d : Datagram α) (i : ℕ) (alen : ℤ) (answer : ℕ → UInt8) : Prop where
  query : i < c.nqueries
  server : d.sender ∈ c.ns
  alen_eq : alen = d.data.length
  bytes : load answer 0 d.data.length = d.data
  four_le : 4 ≤ d.data.length
  le_asize : d.data.length ≤ c.asize
  id : answer 0 = c.queryByte i 0 ∧ answer 1 = c.queryByte i 1
  complete : answer 2 &&& 2 = 0
  rcode : answer 3 &&& 15 = 0 ∨ answer 3 &&& 15 = 3

/-- Every answer that came as a datagram is one of those that have been received. -/
def Slots.Replies (s : Slots) (c : Conf α) (hist : List (Datagram α)) : Prop :=
  ∀ i, s.Accepted i → ∃ d ∈ hist, Reply c d i (s.alens i) (s.answers i)

/-- The invariant of the slots. -/
structure Slots.Inv (s : Slots) (c : Conf α) (hist : List (Datagram α)) : Prop where
  next_le : s.next ≤ c.nqueries
  below : ∀ k < s.next, s.alens k ≠ 0
  free : s.next < c.nqueries → s.alens s.next = 0
  connection : ∀ i, s.pfd i ≠ none → s.alens i < 0 ∧ s.apos i ≠ none
  replies : s.Replies c hist

/-- Answers are kept. -/
def Slots.Keeps (s s' : Slots) : Prop :=
  ∀ i, 0 < s.alens i → s'.alens i = s.alens i ∧ s'.answers i = s.answers i ∧ s'.apos i = s.apos i

namespace Slots

variable {s s' s'' : Slots} {hist : List (Datagram α)}

theorem Keeps.refl (s : Slots) : s.Keeps s := fun _ _ => ⟨rfl, rfl, rfl⟩

theorem Keeps.trans (h : s.Keeps s') (h' : s'.Keeps s'') : s.Keeps s'' := by
  intro i hi
  obtain ⟨h1, h2, h3⟩ := h i hi
  obtain ⟨h1', h2', h3'⟩ := h' i (h1 ▸ hi)
  exact ⟨h1'.trans h1, h2'.trans h2, h3'.trans h3⟩

theorem Keeps.accepted (h : s.Keeps s') {i : ℕ} (hi : s.Accepted i) : s'.Accepted i := by
  obtain ⟨h1, -, h3⟩ := h i hi.1
  exact ⟨h1 ▸ hi.1, h3.trans hi.2⟩

/-- Answers that are kept are still what they were; only new ones have to be looked at. -/
theorem Replies.keep (h : s.Replies c hist) (hk : s.Keeps s') {hist' : List (Datagram α)} (hsub : hist ⊆ hist')
    (hnew : ∀ i, ¬ 0 < s.alens i → s'.Accepted i → ∃ d ∈ hist', Reply c d i (s'.alens i) (s'.answers i)) :
    s'.Replies c hist' := by
  intro i hi
  by_cases hpos : 0 < s.alens i
  · obtain ⟨h1, h2, h3⟩ := hk i hpos
    obtain ⟨d, hd, hreply⟩ := h i ⟨hpos, h3.symm.trans hi.2⟩
    rw [h1, h2]
    exact ⟨d, hsub hd, hreply⟩
  · exact hnew i hpos hi

/-! ## A datagram -/

theorem load_fill (s : Slots) (bs : List UInt8) : load ((s.fill bs).answers (s.fill bs).next) 0 bs.length = bs := by
  have hself : (s.fill bs).answers (s.fill bs).next = store (s.answers s.next) 0 bs := update_self _ _ _
  rw [hself, Lib.load_store_same]

theorem Inv.fill (h : s.Inv c hist) (hn : s.next < c.nqueries) (bs : List UInt8) :
    (s.fill bs).Inv c hist ∧ s.Keeps (s.fill bs) := by
  have hk : s.Keeps (s.fill bs) := by
    intro i hi
    have hne : i ≠ s.next := by
      rintro rfl
      rw [h.free hn] at hi
      exact lt_irrefl 0 hi
    exact ⟨rfl, update_of_ne hne _ _, rfl⟩
  exact ⟨⟨h.next_le, h.below, h.free, h.connection, h.replies.keep hk (Subset.refl _) fun i hi hi' => absurd hi'.1 hi⟩,
    hk⟩

/-- A datagram that is no answer leaves the invariant as it is. -/
theorem Inv.mono (h : s.Inv c hist) (d : Datagram α) : s.Inv c (d :: hist) :=
  ⟨h.next_le, h.below, h.free, h.connection, h.replies.keep (Keeps.refl s) (subset_cons_self _ _)
    fun _ hi hi' => absurd hi'.1 hi⟩

/-- What a datagram does to the slots apart from the buffers: an answer of any length, or -1, for a query without
one. -/
structure Takes (s s' : Slots) (c : Conf α) (i : ℕ) : Prop where
  alen : s.alens i = 0
  alen' : s'.alens i ≠ 0
  other : ∀ k ≠ i, s'.alens k = s.alens k ∧ s'.answers k = s.answers k ∧ s'.apos k = s.apos k ∧ s'.pfd k = s.pfd k
  next_le : s'.next ≤ c.nqueries
  below : ∀ k < s'.next, s'.alens k ≠ 0
  free : s'.next < c.nqueries → s'.alens s'.next = 0

theorem Takes.keeps {i : ℕ} (h : s.Takes s' c i) : s.Keeps s' := by
  intro k hk
  have hne : k ≠ i := by
    rintro rfl
    rw [h.alen] at hk
    exact lt_irrefl 0 hk
  obtain ⟨h1, h2, h3, -⟩ := h.other k hne
  exact ⟨h1, h2, h3⟩

theorem Inv.accept (h : s.Inv c hist) {i rlen : ℕ} (hn : s.next ≤ i) (h0 : s.alens i = 0) (hr : rlen ≠ 0) :
    s.Takes (s.accept c.nqueries i rlen) c i ∧ (s.accept c.nqueries i rlen).alens i = rlen ∧
      load ((s.accept c.nqueries i rlen).answers i) 0 rlen = load (s.answers s.next) 0 rlen ∧
      (s.accept c.nqueries i rlen).apos = s.apos ∧ (s.accept c.nqueries i rlen).pfd = s.pfd := by
  have hself : Function.update s.alens i (rlen : ℤ) i = rlen := update_self _ _ _
  have hne0 : Function.update s.alens i (rlen : ℤ) i ≠ 0 := by
    rw [hself]
    exact Int.natCast_ne_zero.mpr hr
  unfold Slots.accept
  split
  · rename_i heq
    obtain ⟨h1, h2, h3, h4⟩ := skipTo_spec (fun k => decide (Function.update s.alens i (rlen : ℤ) k ≠ 0)) h.next_le
    refine ⟨⟨h0, hne0, fun k hk => ⟨update_of_ne hk _ _, rfl, rfl, rfl⟩, h2, fun k hk => ?_,
      fun hlt => not_not.mp (of_decide_eq_false (h4 hlt))⟩, hself, by rw [heq], rfl, rfl⟩
    rcases lt_or_ge k s.next with hlt | hge
    · show Function.update s.alens i (rlen : ℤ) k ≠ 0
      rw [update_of_ne (by omega)]
      exact h.below k hlt
    · exact of_decide_eq_true (h3 k hge hk)
  · rename_i hne
    refine ⟨⟨h0, hne0, fun k hk => ⟨update_of_ne hk _ _, update_of_ne hk _ _, rfl, rfl⟩,
      h.next_le, fun k hk => ?_, fun hlt => ?_⟩, hself, ?_, rfl, rfl⟩
    · have hk : k < s.next := hk
      show Function.update s.alens i (rlen : ℤ) k ≠ 0
      rw [update_of_ne (by omega)]
      exact h.below k hk
    · show Function.update s.alens i (rlen : ℤ) s.next = 0
      rw [update_of_ne (Ne.symm hne)]
      exact h.free hlt
    · show load (Function.update s.answers i _ i) 0 rlen = _
      rw [update_self]
      have hsame := Lib.load_store_same (s.answers i) 0 (load (s.answers s.next) 0 rlen)
      rwa [Lib.length_load] at hsame

/-- The invariant after a datagram, from what it does to the slot of its query. -/
theorem Takes.inv {i : ℕ} (ht : s.Takes s' c i) (h : s.Inv c hist) {hist' : List (Datagram α)} (hsub : hist ⊆ hist')
    (hconn : s'.pfd i ≠ none → s'.alens i < 0 ∧ s'.apos i ≠ none)
    (hreply : s'.Accepted i → ∃ d ∈ hist', Reply c d i (s'.alens i) (s'.answers i)) : s'.Inv c hist' := by
  refine ⟨ht.next_le, ht.below, ht.free, fun k hk => ?_, h.replies.keep ht.keeps hsub fun k hk hacc => ?_⟩
  · rcases eq_or_ne k i with rfl | hne
    · exact hconn hk
    · obtain ⟨h1, -, h3, h4⟩ := ht.other k hne
      rw [h1, h3]
      exact h.connection k (h4 ▸ hk)
  · rcases eq_or_ne k i with rfl | hne
    · exact hreply hacc
    · rw [← (ht.other k hne).1] at hk
      exact absurd hacc.1 hk

theorem Takes.opened {i : ℕ} (ht : s.Takes s' c i) (h : s.Inv c hist) {k : ℕ} (hk : s.pfd k ≠ none) :
    s'.pfd k ≠ none := by
  have hne : k ≠ i := by
    rintro rfl
    have hneg := (h.connection k hk).1
    rw [ht.alen] at hneg
    exact lt_irrefl 0 hneg
  rwa [(ht.other k hne).2.2.2]

/-- A connection is started for a query that has just got an answer. -/
theorem Takes.startTcp {i : ℕ} (ht : s.Takes s' c i) (r : Option ℕ) :
    s.Takes (s'.startTcp c i r) c i ∧
      ((s'.startTcp c i r).pfd i ≠ none → (s'.startTcp c i r).apos i ≠ none) ∧ (s'.startTcp c i r).alens i = -1 := by
  have hself : Function.update s'.alens i (-1) i = -1 := update_self _ _ _
  have halens : (s'.startTcp c i r).alens = Function.update s'.alens i (-1) := by cases r <;> rfl
  have hnext : (s'.startTcp c i r).next = s'.next := by cases r <;> rfl
  have hanswers : (s'.startTcp c i r).answers = s'.answers := by cases r <;> rfl
  -- the slot of the query is not zero before and after
  have hzero (k : ℕ) : (s'.startTcp c i r).alens k = 0 ↔ s'.alens k = 0 := by
    rw [halens]
    rcases eq_or_ne k i with rfl | hne
    · rw [hself]
      exact iff_of_false (by decide) ht.alen'
    · rw [update_of_ne hne]
  refine ⟨⟨ht.alen, ?_, fun k hk => ?_, hnext ▸ ht.next_le, fun k hk => ?_, fun hlt => ?_⟩, fun hpfd => ?_, ?_⟩
  · exact fun h => ht.alen' ((hzero i).mp h)
  · obtain ⟨h1, h2, h3, h4⟩ := ht.other k hk
    refine ⟨by rw [halens, update_of_ne hk, h1], by rw [hanswers, h2], ?_, ?_⟩
    · cases r with
      | none => exact h3
      | some r => exact (update_of_ne hk _ _).trans h3
    · cases r <;> exact (update_of_ne hk _ _).trans h4
  · rw [hnext] at hk
    exact fun h => ht.below k hk ((hzero k).mp h)
  · rw [hnext] at hlt ⊢
    exact (hzero _).mpr (ht.free hlt)
  · cases r with
    | none => exact absurd (update_self _ _ _) hpfd
    | some r =>
      show Function.update s'.apos i (some 0) i ≠ none
      rw [update_self]
      exact some_ne_none 0
  · rw [halens, hself]

end Slots

theorem apply_eq_of_load_eq {f g : ℕ → UInt8} {n k : ℕ} (h : load f 0 n = load g 0 n) (hk : k < n) : f k = g k := by
  have hget := congrArg (fun l => l[k]?) h
  simpa [Lib.getElem?_load _ _ hk] using hget

/-- **An answer** with the ID and a good rcode: it is the reply of its query, or a connection is started. -/
theorem Slots.Inv.answer {s : Slots} {hist : List (Datagram α)} (h : s.Inv c hist) {i rlen : ℕ} {d : Datagram α}
    (hi : i < c.nqueries) (hn : s.next ≤ i) (h0 : s.alens i = 0) (hlen : rlen = min d.data.length c.asize)
    (hfour : 4 ≤ rlen) (hbytes : load (s.answers s.next) 0 rlen = d.data.take c.asize) (hserver : d.sender ∈ c.ns)
    (hid : s.answers s.next 0 = c.queryByte i 0 ∧ s.answers s.next 1 = c.queryByte i 1)
    (hrcode : s.answers s.next 3 &&& 15 = 0 ∨ s.answers s.next 3 &&& 15 = 3) :
    (s.answer c i rlen (c.asize < d.data.length) d.startTcp).Inv c (d :: hist) ∧
      s.Takes (s.answer c i rlen (c.asize < d.data.length) d.startTcp) c i := by
  obtain ⟨ht, halen, hload, hapos, hpfd⟩ := h.accept hn h0 (show rlen ≠ 0 by omega)
  have hsame {k : ℕ} (hk : k < rlen) : (s.accept c.nqueries i rlen).answers i k = s.answers s.next k :=
    apply_eq_of_load_eq hload hk
  unfold Slots.answer
  simp only
  split
  · obtain ⟨ht', hconn, hneg⟩ := ht.startTcp d.startTcp
    refine ⟨ht'.inv h (subset_cons_self _ _) (fun hp => ⟨by omega, hconn hp⟩) fun hacc => ?_, ht'⟩
    exact absurd hacc.1 (by omega)
  · rename_i hwhole
    obtain ⟨hbit, htrunc⟩ := not_or.mp hwhole
    have hle : d.data.length ≤ c.asize := by simpa using htrunc
    rw [Nat.min_eq_left hle] at hlen
    subst hlen
    refine ⟨ht.inv h (subset_cons_self _ _) (fun hp => ?_) fun _ => ⟨d, mem_cons_self, ?_⟩, ht⟩
    · rw [hpfd] at hp
      have hneg := (h.connection i hp).1
      omega
    · refine ⟨hi, hserver, halen, ?_, hfour, hle, ?_, not_not.mp hbit, ?_⟩
      · rw [hload, hbytes, take_of_length_le hle]
      · rw [hsame (by omega), hsame (by omega)]
        exact hid
      · rw [hsame (by omega)]
        exact hrcode

/-- The query that is found has the ID of what has been received. -/
theorem findQuery_spec {s : Slots} (h : s.next ≤ c.nqueries) (hne : findQuery c s ≠ c.nqueries) :
    findQuery c s < c.nqueries ∧ s.next ≤ findQuery c s ∧
      s.answers s.next 0 = c.queryByte (findQuery c s) 0 ∧ s.answers s.next 1 = c.queryByte (findQuery c s) 1 := by
  obtain ⟨h1, h2, -, h4⟩ := skipTo_spec (fun i => decide (s.answers s.next 0 ≠ c.queryByte i 0 ∨
    s.answers s.next 1 ≠ c.queryByte i 1)) h
  have hlt : findQuery c s < c.nqueries := lt_of_le_of_ne h2 hne
  obtain ⟨hid, hid'⟩ := not_or.mp (of_decide_eq_false (h4 hlt))
  exact ⟨hlt, h1, not_not.mp hid, not_not.mp hid'⟩

/-- What a step may do to the slots: answers and connections are kept. -/
structure Slots.Grows (s s' : Slots) : Prop where
  keeps : s.Keeps s'
  opened : ∀ k, s.pfd k ≠ none → s'.pfd k ≠ none

section

variable [DecidableEq α]

/-- **A datagram keeps the invariant**, the answers and the connections, and nothing is known of what it changes
else than the count of retries and the log. -/
theorem receive_inv {st : St} {hist : List (Datagram α)} (h : st.slots.Inv c hist) (hn : st.slots.next < c.nqueries)
    (d : Datagram α) :
    (receive c st d).slots.Inv c (d :: hist) ∧ st.slots.Grows (receive c st d).slots ∧
      (receive c st d).pollout = st.pollout ∧ (receive c st d).pollin = st.pollin := by
  obtain ⟨hfill, hkeeps⟩ := h.fill hn (d.data.take c.asize)
  have hgrows : st.slots.Grows (st.slots.fill (d.data.take c.asize)) := ⟨hkeeps, fun _ hk => hk⟩
  have hbytes := st.slots.load_fill (d.data.take c.asize)
  rw [length_take, Nat.min_comm] at hbytes
  unfold receive
  simp only
  -- too short, from elsewhere, to no query, to a query with an answer
  split
  · exact ⟨hfill.mono d, hgrows, rfl, rfl⟩
  rename_i hfour
  split
  · exact ⟨hfill.mono d, hgrows, rfl, rfl⟩
  rename_i hserver
  split
  · exact ⟨hfill.mono d, hgrows, rfl, rfl⟩
  rename_i hfound
  split
  · exact ⟨hfill.mono d, hgrows, rfl, rfl⟩
  rename_i h0
  split
  · rename_i hrcode
    have hmem : d.sender ∈ c.ns := by
      by_contra hmem
      refine hserver (List.findIdx_eq_length.mpr fun x hx => decide_eq_false ?_)
      rintro rfl
      exact hmem hx
    obtain ⟨hi, hnext, hid⟩ := findQuery_spec hfill.next_le hfound
    obtain ⟨hinv, ht⟩ := hfill.answer hi hnext (not_not.mp h0) rfl (Nat.not_lt.mp hfour) hbytes hmem hid hrcode
    exact ⟨hinv, ⟨hgrows.keeps.trans ht.keeps, fun k hk => ht.opened hfill (hgrows.opened k hk)⟩, rfl, rfl⟩
  · split <;> exact ⟨hfill.mono d, hgrows, rfl, rfl⟩

end

/-! ## Steps -/

/-- The invariant of the states. The events that `poll` has reported are those of connections; while a connection is
read, this is known of the rest of them. -/
structure Inv (c : Conf α) (hist : List (Datagram α)) (st : St) : Prop where
  slots : st.pc ≠ .out → st.slots.Inv c hist
  replies : st.slots.Replies c hist
  recvmsg : st.pc = .recvmsg → st.slots.next < c.nqueries ∧ ∀ k, st.pollout k ∨ st.pollin k → st.slots.pfd k ≠ none
  tcpSend : ∀ i, st.pc = .tcpSend i → st.slots.pfd i ≠ none ∧ ∀ k, st.pollout k ∨ st.pollin k → st.slots.pfd k ≠ none
  tcpRecv : ∀ i, st.pc = .tcpRecv i → st.slots.pfd i ≠ none ∧ ∀ k > i, st.pollin k → st.slots.pfd k ≠ none

variable {hist : List (Datagram α)} {st : St}

theorem Slots.Inv.toInv (h : st.slots.Inv c hist) (hpc : st.pc = .mtime ∨ st.pc = .poll) : ResMsend.Inv c hist st := by
  refine ⟨fun _ => h, h.replies, fun hp => ?_, fun i hp => ?_, fun i hp => ?_⟩ <;>
    · rw [hp] at hpc
      rcases hpc with hpc | hpc <;> cases hpc

theorem Slots.Inv.seekIn (h : st.slots.Inv c hist) {i : ℕ} (hopen : ∀ k ≥ i, st.pollin k → st.slots.pfd k ≠ none) :
    ResMsend.Inv c hist (seekIn c st i) := by
  unfold ResMsend.seekIn
  simp only
  split
  · rename_i hlt
    obtain ⟨hle, hp⟩ := skipTo_lt hlt
    refine ⟨fun _ => h, h.replies, fun hp => ?_, fun i hp => ?_, fun k hpc => ?_⟩
    · cases hp
    · cases hp
    · obtain rfl := Pc.tcpRecv.inj hpc
      exact ⟨hopen _ hle (by simpa using hp), fun k hk => hopen k (by omega)⟩
  · exact Slots.Inv.toInv h (.inl rfl)

theorem Slots.Inv.seekOut (h : st.slots.Inv c hist) {i : ℕ}
    (hopen : ∀ k, st.pollout k ∨ st.pollin k → st.slots.pfd k ≠ none) : ResMsend.Inv c hist (seekOut c st i) := by
  unfold ResMsend.seekOut
  simp only
  split
  · rename_i hlt
    obtain ⟨hle, hp⟩ := skipTo_lt hlt
    refine ⟨fun _ => h, h.replies, fun hp => ?_, fun k hpc => ?_, fun i hp => ?_⟩
    · cases hp
    · obtain rfl := Pc.tcpSend.inj hpc
      exact ⟨hopen _ (.inl (by simpa using hp)), hopen⟩
    · cases hp
  · exact h.seekIn fun k _ hk => hopen k (.inr hk)

theorem Slots.Inv.seekRecv (h : st.slots.Inv c hist)
    (hopen : ∀ k, st.pollout k ∨ st.pollin k → st.slots.pfd k ≠ none) : ResMsend.Inv c hist (seekRecv c st) := by
  unfold ResMsend.seekRecv
  split
  · rename_i hlt
    refine ⟨fun _ => h, h.replies, fun _ => ⟨hlt, hopen⟩, fun i hp => ?_, fun i hp => ?_⟩ <;> cases hp
  · exact h.seekOut hopen

theorem seekOut_slots (c : Conf α) (st : St) (i : ℕ) : (seekOut c st i).slots = st.slots := by
  unfold seekOut
  simp only
  split <;> rfl

theorem seekRecv_slots (c : Conf α) (st : St) : (seekRecv c st).slots = st.slots := by
  unfold seekRecv
  split
  · rfl
  · exact seekOut_slots c st 0

/-- At the end only the slots without an answer change. -/
theorem leave_inv (h : st.slots.Replies c hist) :
    Inv c hist (leave c st) ∧ st.slots.Keeps (leave c st).slots := by
  have halens (i : ℕ) : (leave c st).slots.alens i =
      if i < c.nqueries ∧ st.slots.alens i < 0 then 0 else st.slots.alens i := rfl
  have hkeeps : st.slots.Keeps (leave c st).slots := by
    intro i hi
    rw [halens, if_neg (by omega)]
    exact ⟨rfl, rfl, rfl⟩
  refine ⟨⟨fun hp => absurd rfl hp, h.keep hkeeps (Subset.refl _) fun i hi hacc => ?_, fun hp => ?_, fun i hp => ?_,
    fun i hp => ?_⟩, hkeeps⟩
  · have hpos := hacc.1
    rw [halens] at hpos
    split at hpos
    · exact absurd hpos (lt_irrefl 0)
    · exact absurd hpos hi
  all_goals cases hp

/-- **The outer loop** up to `poll`. -/
theorem enter_inv (h : st.slots.Inv c hist) (t2 : ℕ) :
    Inv c hist (enter c st t2) ∧ st.slots.Keeps (enter c st t2).slots := by
  unfold enter
  split
  · exact leave_inv h.replies
  split
  · exact leave_inv h.replies
  have hslots : (if c.arch.sub t2 st.t1 ≥ c.retryInterval then resend c st t2 else st).slots = st.slots := by
    split <;> rfl
  refine ⟨Slots.Inv.toInv ?_ (.inr rfl), ?_⟩
  · rwa [hslots]
  · rw [hslots]
    exact Slots.Keeps.refl _

/-! ## Connections -/

namespace Slots

variable {s : Slots} {i : ℕ}

theorem Inv.tcpSend (h : s.Inv c hist) (hi : s.pfd i ≠ none) (r : ℕ) :
    (ResMsend.tcpSend c s i r).Inv c hist ∧ s.Grows (ResMsend.tcpSend c s i r) := by
  have hpfd (k : ℕ) : (ResMsend.tcpSend c s i r).pfd k ≠ none ↔ s.pfd k ≠ none := by
    unfold ResMsend.tcpSend
    simp only
    split
    · rcases eq_or_ne k i with rfl | hne
      · rw [update_self]
        exact iff_of_true (some_ne_none _) hi
      · rw [update_of_ne hne]
    · exact Iff.rfl
  exact ⟨⟨h.next_le, h.below, h.free, fun k hk => h.connection k ((hpfd k).mp hk), h.replies⟩,
    fun _ _ => ⟨rfl, rfl, rfl⟩, fun k => (hpfd k).mpr⟩

/-- Bytes are received for a connection, into a slot without an answer. -/
theorem Inv.fillTcp (h : s.Inv c hist) (hi : s.pfd i ≠ none) (bs : List UInt8) :
    (s.fillTcp i bs).Inv c hist ∧ s.Keeps (s.fillTcp i bs) := by
  have hneg := (h.connection i hi).1
  have hkeeps : s.Keeps (s.fillTcp i bs) := by
    intro k hk
    have hne : k ≠ i := by
      rintro rfl
      omega
    exact ⟨rfl, update_of_ne hne _ _, update_of_ne hne _ _⟩
  refine ⟨⟨h.next_le, h.below, h.free, fun k hk => ⟨(h.connection k hk).1, ?_⟩, h.replies.keep hkeeps
    (Subset.refl _) fun k hk hacc => absurd hacc.1 hk⟩, hkeeps⟩
  show Function.update s.apos i _ k ≠ none
  rcases eq_or_ne k i with rfl | hne
  · rw [update_self]
    exact some_ne_none _
  · rw [update_of_ne hne]
    exact (h.connection k hk).2

theorem closeTcp_of_ne {k : ℕ} (hk : k ≠ i) (alen : ℕ) :
    (s.closeTcp i alen).alens k = s.alens k ∧ (s.closeTcp i alen).pfd k = s.pfd k :=
  ⟨update_of_ne hk _ _, update_of_ne hk _ _⟩

/-- An answer has come over a connection, and it is closed. -/
theorem Inv.closeTcp (h : s.Inv c hist) (hi : s.pfd i ≠ none) {alen : ℕ} (halen : alen ≠ 0) :
    (s.closeTcp i alen).Inv c hist ∧ s.Keeps (s.closeTcp i alen) := by
  obtain ⟨hneg, hapos⟩ := h.connection i hi
  have hself : (s.closeTcp i alen).alens i = alen := update_self _ _ _
  have hkeeps : s.Keeps (s.closeTcp i alen) := by
    intro k hk
    have hne : k ≠ i := by
      rintro rfl
      omega
    exact ⟨(closeTcp_of_ne hne alen).1, rfl, rfl⟩
  refine ⟨⟨h.next_le, fun k hk => ?_, fun hlt => ?_, fun k hk => ?_, h.replies.keep hkeeps (Subset.refl _)
    fun k hk hacc => ?_⟩, hkeeps⟩
  · rcases eq_or_ne k i with rfl | hne
    · rw [hself]
      exact Int.natCast_ne_zero.mpr halen
    · rw [(closeTcp_of_ne hne alen).1]
      exact h.below k hk
  · have hfree := h.free hlt
    have hne : s.next ≠ i := by
      intro heq
      rw [heq] at hfree
      omega
    exact (closeTcp_of_ne hne alen).1.trans hfree
  · have hne : k ≠ i := by
      rintro rfl
      exact hk (update_self _ _ _)
    obtain ⟨h1, h2⟩ := closeTcp_of_ne hne alen
    rw [h1]
    exact h.connection k (h2 ▸ hk)
  · rcases eq_or_ne k i with rfl | hne
    · exact absurd hacc.2 hapos
    · rw [← (closeTcp_of_ne hne alen).1] at hk
      exact absurd hacc.1 hk

end Slots

/-- **A connection that can be read.** -/
theorem tcpReceive_inv (h : st.slots.Inv c hist) {i : ℕ} (hi : st.slots.pfd i ≠ none)
    (hopen : ∀ k > i, st.pollin k → st.slots.pfd k ≠ none) (r : List UInt8) :
    Inv c hist (tcpReceive c st i r) ∧ st.slots.Keeps (tcpReceive c st i r).slots := by
  unfold tcpReceive
  simp only
  split
  · exact leave_inv h.replies
  obtain ⟨hfill, hkeeps⟩ := h.fillTcp hi (r.take (c.asize + 2 - (st.slots.apos i).getD 0))
  have hpfd : (st.slots.fillTcp i (r.take (c.asize + 2 - (st.slots.apos i).getD 0))).pfd = st.slots.pfd := rfl
  generalize st.slots.fillTcp i (r.take (c.asize + 2 - (st.slots.apos i).getD 0)) = s at *
  have hleave : Inv c hist (leave c { st with slots := s }) ∧ s.Keeps (leave c { st with slots := s }).slots :=
    leave_inv hfill.replies
  have hrest : ∀ k ≥ i + 1, st.pollin k → s.pfd k ≠ none := hpfd ▸ hopen
  split
  · exact ⟨Slots.Inv.seekIn hfill hrest, hkeeps⟩
  split
  · exact ⟨hleave.1, hkeeps.trans hleave.2⟩
  split
  · exact ⟨Slots.Inv.seekIn hfill hrest, hkeeps⟩
  split
  · exact ⟨hleave.1, hkeeps.trans hleave.2⟩
  have hpos : (s.alenBuf i 0).toNat * 256 + (s.alenBuf i 1).toNat ≠ 0 := by omega
  obtain ⟨hdone, hkeeps'⟩ := hfill.closeTcp (hpfd ▸ hi) hpos
  refine ⟨Slots.Inv.seekIn hdone fun k hk hp => ?_, hkeeps.trans hkeeps'⟩
  rw [(Slots.closeTcp_of_ne (by omega) _).2]
  exact hrest k hk hp

/-! ## Runs -/

/-- The datagram of an event. -/
def Event.datagram : Event α → List (Datagram α)
  | .recvmsg (some d) => [d]
  | _ => []

section

variable [DecidableEq α]

/-- **A step keeps the invariant**, and the answers. -/
theorem step_inv (h : Inv c hist st) {e : Event α} {st' : St} (hstep : step c st e = some st') :
    Inv c (e.datagram ++ hist) st' ∧ st.slots.Keeps st'.slots := by
  unfold step at hstep
  split at hstep
  · rename_i t hpc
    obtain rfl := some.inj hstep
    exact enter_inv (h.slots (by rw [hpc]; exact Pc.noConfusion)) t
  · rename_i ready pollout pollin hpc
    obtain rfl := some.inj hstep
    have hslots := h.slots (by rw [hpc]; exact Pc.noConfusion)
    split
    · refine ⟨Slots.Inv.seekRecv hslots fun k hk => ?_, ?_⟩
      · show st.slots.pfd k ≠ none
        rcases hk with hk | hk <;>
          · rw [of_decide_eq_true (Bool.and_elim_left hk)]
            exact some_ne_none _
      · rw [seekRecv_slots]
        exact Slots.Keeps.refl _
    · exact ⟨Slots.Inv.toInv hslots (.inl rfl), Slots.Keeps.refl _⟩
  · rename_i hpc
    obtain rfl := some.inj hstep
    refine ⟨Slots.Inv.seekOut (h.slots (by rw [hpc]; exact Pc.noConfusion)) (h.recvmsg hpc).2, ?_⟩
    rw [seekOut_slots]
    exact Slots.Keeps.refl _
  · rename_i d hpc
    obtain rfl := some.inj hstep
    obtain ⟨hnext, hopen⟩ := h.recvmsg hpc
    obtain ⟨hinv, hgrows, hout, hin⟩ := receive_inv (h.slots (by rw [hpc]; exact Pc.noConfusion)) hnext d
    refine ⟨Slots.Inv.seekRecv hinv fun k hk => hgrows.opened k (hopen k ?_), ?_⟩
    · rwa [hout, hin] at hk
    · rw [seekRecv_slots]
      exact hgrows.keeps
  · obtain rfl := some.inj hstep
    exact leave_inv h.replies
  · rename_i i r hpc
    obtain rfl := some.inj hstep
    obtain ⟨hi, hopen⟩ := h.tcpSend i hpc
    obtain ⟨hinv, hgrows⟩ := (h.slots (by rw [hpc]; exact Pc.noConfusion)).tcpSend hi r
    refine ⟨Slots.Inv.seekOut hinv fun k hk => hgrows.opened k (hopen k hk), ?_⟩
    rw [seekOut_slots]
    exact hgrows.keeps
  · rename_i i r hpc
    obtain rfl := some.inj hstep
    obtain ⟨hi, hopen⟩ := h.tcpRecv i hpc
    exact tcpReceive_inv (h.slots (by rw [hpc]; exact Pc.noConfusion)) hi hopen r
  · cases hstep

/-- **A run keeps the invariant**, and the answers. -/
theorem run_inv : ∀ (es : List (Event α)) {hist : List (Datagram α)} {st st' : St}, Inv c hist st →
    run c st es = some st' → (∃ hist', hist' ⊆ es.flatMap Event.datagram ++ hist ∧ Inv c hist' st') ∧
      st.slots.Keeps st'.slots
  | [], hist, st, st', h, hrun => by
    obtain rfl := some.inj hrun
    exact ⟨⟨hist, Subset.refl _, h⟩, Slots.Keeps.refl _⟩
  | e :: es, hist, st, st', h, hrun => by
    obtain ⟨st1, hstep, hrun⟩ := Option.bind_eq_some_iff.mp hrun
    obtain ⟨h1, hkeeps⟩ := step_inv h hstep
    obtain ⟨⟨hist', hsub, h'⟩, hkeeps'⟩ := run_inv es h1 hrun
    refine ⟨⟨hist', fun d hd => ?_, h'⟩, hkeeps.trans hkeeps'⟩
    have hmem := hsub hd
    simp only [flatMap_cons, mem_append] at hmem ⊢
    tauto

omit [DecidableEq α] in
theorem start_inv (c : Conf α) (t0 : ℕ) (answers alenBuf : ℕ → ℕ → UInt8) :
    Inv c [] (start c t0 answers alenBuf) := by
  refine (enter_inv ?_ t0).1
  refine ⟨Nat.zero_le _, fun k hk => absurd hk (Nat.not_lt_zero k), fun _ => rfl, fun i hi => absurd rfl hi,
    fun i hi => absurd hi.1 (lt_irrefl 0)⟩

/-- **The routing of answers.** In every state of every run, whatever the network does:

* the buffer for receiving is that of a query without an answer;
* every answer that came as a datagram is the whole of a datagram that was received from a name server, of 4 bytes at
  least, with the ID of its query and the rcode 0 or 3;
* no answer is changed later. -/
theorem run_routes (c : Conf α) (t0 : ℕ) (answers alenBuf : ℕ → ℕ → UInt8) (es : List (Event α)) (st : St)
    (hrun : run c (start c t0 answers alenBuf) es = some st) :
    (st.pc = .recvmsg → st.slots.next < c.nqueries ∧ st.slots.alens st.slots.next = 0) ∧
    (∀ i, st.slots.Accepted i →
      ∃ d ∈ es.flatMap Event.datagram, Reply c d i (st.slots.alens i) (st.slots.answers i)) ∧
    ∀ es' st', run c st es' = some st' → ∀ i, 0 < st.slots.alens i →
      st'.slots.alens i = st.slots.alens i ∧ st'.slots.answers i = st.slots.answers i ∧
        (st.slots.Accepted i → st'.slots.Accepted i) := by
  obtain ⟨⟨hist, hsub, hinv⟩, -⟩ := run_inv es (start_inv c t0 answers alenBuf) hrun
  rw [append_nil] at hsub
  refine ⟨fun hpc => ?_, fun i hi => ?_, fun es' st' hrun' i hi => ?_⟩
  · have hnext := (hinv.recvmsg hpc).1
    exact ⟨hnext, (hinv.slots (by rw [hpc]; exact Pc.noConfusion)).free hnext⟩
  · obtain ⟨d, hd, hreply⟩ := hinv.replies i hi
    exact ⟨d, hsub hd, hreply⟩
  · have hkeeps := (run_inv es' hinv hrun').2
    obtain ⟨h1, h2, -⟩ := hkeeps i hi
    exact ⟨h1, h2, hkeeps.accepted⟩

end

/-- One query, with the ID 1, and one name server. -/
def oneQuery : Conf ℕ := ⟨.x86_64, [[0, 1, 1, 0]], 512, [7], 5000, 2⟩

/-- A datagram from elsewhere, and then the answer. -/
def oneAnswer : List (Event ℕ) :=
  [.poll true (fun _ => false) fun _ => false, .recvmsg (some ⟨8, [0, 1, 128, 0], none⟩),
    .recvmsg (some ⟨7, [0, 1, 128, 0], none⟩)]

theorem run_routes_oneAnswer : ∃ st, run oneQuery (start oneQuery 0 (fun _ _ => 0) fun _ _ => 0) oneAnswer = some st ∧
    st.slots.Accepted 0 ∧
    ∃ d ∈ oneAnswer.flatMap Event.datagram, Reply oneQuery d 0 (st.slots.alens 0) (st.slots.answers 0) := by
  obtain ⟨st, hst⟩ : ∃ st, run oneQuery (start oneQuery 0 (fun _ _ => 0) fun _ _ => 0) oneAnswer = some st :=
    Option.isSome_iff_exists.mp (by decide)
  have hall : (run oneQuery (start oneQuery 0 (fun _ _ => 0) fun _ _ => 0) oneAnswer).all
      (fun st => decide (0 < st.slots.alens 0 ∧ st.slots.apos 0 = none)) = true := by decide
  rw [hst] at hall
  have hacc : 0 < st.slots.alens 0 ∧ st.slots.apos 0 = none := of_decide_eq_true hall
  exact ⟨st, hst, hacc, (run_routes oneQuery 0 _ _ oneAnswer st hst).2.1 0 hacc⟩

end Leblibc.ResMsend
