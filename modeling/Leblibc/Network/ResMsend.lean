import Leblibc.Base.Machine
import Leblibc.Lib.Memory
import Leblibc.Lib.Search

/-!
# Sending queries and receiving answers

A model of `__res_msend_rc` in `src/network/res_msend.c`, from where the sockets are open. The queries are sent to all
name servers, again after a while, and datagrams are received until every query has an answer or the time is over. A
datagram is received into the buffer of the first query without an answer, and copied from there if it answers another
one; for an answer that was truncated a TCP connection is started.

The function is a machine that stops at each call that waits for something from outside: `Pc` says at which. An `Event`
is the result of such a call, and a step goes on from there to the next one. So the states of all runs are the states
of the function at all of its calls, for any behaviour of the network.

An array of the size `nqueries` is a function of the index, and an element of `qpos` and `apos` that has not been
assigned is `none`. Addresses are of any type with equality. The byte count of a call that fails is `none`.

## Main definitions

* `Conf`: the arguments
* `Slots`, `St`: the variables
* `receive`: the body of the loop over datagrams
* `tcpSend`, `tcpReceive`: the bodies of the loops over connections
* `step`, `run`: steps and runs
-/

namespace Leblibc.ResMsend

open Lib (store load skipTo)

/-! ## The variables -/

/-- The arguments: the queries, the size of the buffers for answers, the name servers, and the times of the
configuration, in milliseconds. -/
structure Conf (α : Type) where
  arch : Arch
  queries : List (List UInt8)
  asize : ℕ
  ns : List α
  timeout : ℕ
  attempts : ℕ

/-- The number of queries. -/
def Conf.nqueries {α : Type} (c : Conf α) : ℕ := c.queries.length

/-- `queries[i][k]`. -/
def Conf.queryByte {α : Type} (c : Conf α) (i k : ℕ) : UInt8 := (c.queries.getD i []).getD k 0

/-- `qlens[i]`. -/
def Conf.qlen {α : Type} (c : Conf α) (i : ℕ) : ℕ := (c.queries.getD i []).length

/-- `retry_interval`. -/
def Conf.retryInterval {α : Type} (c : Conf α) : ℕ := c.timeout / c.attempts

/-- What a connection is waiting for. -/
inductive Wait
  | pollin
  | pollout
  deriving DecidableEq

/-- The variables of the queries. `pfd i` is `none` while there is no connection for the query. -/
structure Slots where
  next : ℕ
  alens : ℕ → ℤ
  answers : ℕ → ℕ → UInt8
  pfd : ℕ → Option Wait
  qpos : ℕ → Option ℕ
  apos : ℕ → Option ℕ
  alenBuf : ℕ → ℕ → UInt8

/-- The call at which the function stands. -/
inductive Pc
  /-- `mtime`, at the end of the outer loop -/
  | mtime
  | poll
  /-- `recvmsg` in the loop over datagrams -/
  | recvmsg
  /-- `sendmsg` for the connection of a query -/
  | tcpSend (i : ℕ)
  /-- `recvmsg` for the connection of a query -/
  | tcpRecv (i : ℕ)
  /-- it has returned -/
  | out
  deriving DecidableEq

/-- The state. `sent` is a log of the datagrams that have been sent, each with the query and the name server;
`pollout` and `pollin` are the events that `poll` has reported. -/
structure St where
  pc : Pc
  t0 : ℕ
  t1 : ℕ
  servfailRetry : ℕ
  sent : List (ℕ × ℕ)
  pollout : ℕ → Bool
  pollin : ℕ → Bool
  slots : Slots

/-- A datagram, with what comes of `start_tcp` if it is called for it. -/
structure Datagram (α : Type) where
  sender : α
  data : List UInt8
  startTcp : Option ℕ

/-- The result of a call. -/
inductive Event (α : Type)
  | mtime (t : ℕ)
  | poll (ready : Bool) (pollout pollin : ℕ → Bool)
  | recvmsg (d : Option (Datagram α))
  | tcpSend (r : Option ℕ)
  | tcpRecv (r : List UInt8)

/-! ## Datagrams -/

/-- `recvmsg` into the buffer of the query `next`: at most `asize` bytes. -/
def Slots.fill (s : Slots) (bs : List UInt8) : Slots :=
  { s with answers := Function.update s.answers s.next (store (s.answers s.next) 0 bs) }

/-- The query with the ID of what has been received. -/
def findQuery {α : Type} (c : Conf α) (s : Slots) : ℕ :=
  skipTo (fun i => s.answers s.next 0 ≠ c.queryByte i 0 ∨ s.answers s.next 1 ≠ c.queryByte i 1) c.nqueries s.next

/-- An answer to the query `i`, of `rlen` bytes. -/
def Slots.accept (s : Slots) (n i rlen : ℕ) : Slots :=
  let alens := Function.update s.alens i rlen
  if i = s.next then { s with alens := alens, next := skipTo (fun k => alens k ≠ 0) n s.next }
  else
    { s with alens := alens
             answers := Function.update s.answers i (store (s.answers i) 0 (load (s.answers s.next) 0 rlen)) }

/-- `start_tcp` and the assignments behind it, for the query `i`; `r` is its result. -/
def Slots.startTcp {α : Type} (s : Slots) (c : Conf α) (i : ℕ) (r : Option ℕ) : Slots :=
  let s := { s with alens := Function.update s.alens i (-1) }
  match r with
  | none => { s with pfd := Function.update s.pfd i none }
  | some r =>
    { s with pfd := Function.update s.pfd i (some (if r = c.qlen i + 2 then .pollin else .pollout))
             qpos := Function.update s.qpos i (some r)
             apos := Function.update s.apos i (some 0) }

/-- What is done with an answer to the query `i` with the rcode 0 or 3. -/
def Slots.answer {α : Type} (s : Slots) (c : Conf α) (i rlen : ℕ) (trunc : Bool) (tcp : Option ℕ) : Slots :=
  let s := s.accept c.nqueries i rlen
  if s.answers i 2 &&& 2 ≠ 0 ∨ trunc then s.startTcp c i tcp else s

variable {α : Type}

/-- The body of the loop over datagrams, for a datagram that has been received. -/
def receive [DecidableEq α] (c : Conf α) (st : St) (d : Datagram α) : St :=
  let rlen := min d.data.length c.asize
  let s := st.slots.fill (d.data.take c.asize)
  let st := { st with slots := s }
  if rlen < 4 then st
  else
    let j := c.ns.findIdx (· = d.sender)
    if j = c.ns.length then st
    else
      let i := findQuery c s
      if i = c.nqueries then st
      else if s.alens i ≠ 0 then st
      else
        let rcode := s.answers s.next 3 &&& 15
        if rcode = 0 ∨ rcode = 3 then { st with slots := s.answer c i rlen (c.asize < d.data.length) d.startTcp }
        else if rcode = 2 ∧ st.servfailRetry ≠ 0 then
          { st with servfailRetry := st.servfailRetry - 1, sent := st.sent ++ [(i, j)] }
        else st

/-! ## The other steps -/

/-- The end of the function. -/
def leave (c : Conf α) (st : St) : St :=
  { st with pc := .out
            slots := { st.slots with
              alens := fun i => if i < c.nqueries ∧ st.slots.alens i < 0 then 0 else st.slots.alens i } }

/-- The queries without an answer are sent to all name servers. -/
def resend (c : Conf α) (st : St) (t2 : ℕ) : St :=
  { st with sent := st.sent ++ (List.range c.nqueries).flatMap fun i =>
              if st.slots.alens i = 0 then (List.range c.ns.length).map (i, ·) else []
            t1 := t2
            servfailRetry := 2 * c.nqueries }

/-- The outer loop from its test on to `poll`. -/
def enter (c : Conf α) (st : St) (t2 : ℕ) : St :=
  if ¬c.arch.sub t2 st.t0 < c.timeout then leave c st
  else if skipTo (fun i => st.slots.alens i > 0) c.nqueries 0 = c.nqueries then leave c st
  else { (if c.arch.sub t2 st.t1 ≥ c.retryInterval then resend c st t2 else st) with pc := .poll }

/-- On to the next connection that can be read, from the query `i` on. -/
def seekIn (c : Conf α) (st : St) (i : ℕ) : St :=
  let i := skipTo (fun i => !st.pollin i) c.nqueries i
  { st with pc := if i < c.nqueries then .tcpRecv i else .mtime }

/-- On to the next connection that can be written, from the query `i` on. -/
def seekOut (c : Conf α) (st : St) (i : ℕ) : St :=
  let i := skipTo (fun i => !st.pollout i) c.nqueries i
  if i < c.nqueries then { st with pc := .tcpSend i } else seekIn c st 0

/-- The test of the loop over datagrams. -/
def seekRecv (c : Conf α) (st : St) : St :=
  if st.slots.next < c.nqueries then { st with pc := .recvmsg } else seekOut c st 0

/-- `poll` reports the events for which connections wait. -/
def polled (st : St) (pollout pollin : ℕ → Bool) : St :=
  { st with pollout := fun i => st.slots.pfd i = some .pollout && pollout i
            pollin := fun i => st.slots.pfd i = some .pollin && pollin i }

/-- The body of the loop over connections that can be written, after `r` bytes have been sent. -/
def tcpSend (c : Conf α) (s : Slots) (i r : ℕ) : Slots :=
  let qpos := (s.qpos i).getD 0 + r
  { s with qpos := Function.update s.qpos i (some qpos)
           pfd := if qpos = c.qlen i + 2 then Function.update s.pfd i (some .pollin) else s.pfd }

/-- The bytes `bs` are received for the query `i`, into `alen_buf[i]` and behind it into `answers[i]`. -/
def Slots.fillTcp (s : Slots) (i : ℕ) (bs : List UInt8) : Slots :=
  let apos := (s.apos i).getD 0
  { s with alenBuf := Function.update s.alenBuf i (store (s.alenBuf i) apos (bs.take (2 - apos)))
           answers := Function.update s.answers i (store (s.answers i) (apos - 2) (bs.drop (2 - apos)))
           apos := Function.update s.apos i (some (apos + bs.length)) }

/-- The answer for the query `i` has been received, and the connection is closed. -/
def Slots.closeTcp (s : Slots) (i alen : ℕ) : Slots :=
  { s with alens := Function.update s.alens i alen, pfd := Function.update s.pfd i none }

/-- The body of the loop over connections that can be read, after `r` has been received for the query `i`. -/
def tcpReceive (c : Conf α) (st : St) (i : ℕ) (r : List UInt8) : St :=
  let bs := r.take (c.asize + 2 - (st.slots.apos i).getD 0)
  if bs = [] then leave c st
  else
    let s := st.slots.fillTcp i bs
    let st := { st with slots := s }
    let apos := (s.apos i).getD 0
    let alen := (s.alenBuf i 0).toNat * 256 + (s.alenBuf i 1).toNat
    if apos < 2 then seekIn c st (i + 1)
    else if alen < 13 then leave c st
    else if apos < alen + 2 ∧ apos < c.asize + 2 then seekIn c st (i + 1)
    else if s.answers i 3 &&& 15 ≠ 0 ∧ s.answers i 3 &&& 15 ≠ 3 then leave c st
    else seekIn c { st with slots := s.closeTcp i alen } (i + 1)

/-- A step: the call at which the function stands returns. There is none for the result of another call. -/
def step [DecidableEq α] (c : Conf α) (st : St) (e : Event α) : Option St :=
  match st.pc, e with
  | .mtime, .mtime t => some (enter c st t)
  | .poll, .poll ready pollout pollin =>
    some (if ready then seekRecv c (polled st pollout pollin) else { st with pc := .mtime })
  | .recvmsg, .recvmsg none => some (seekOut c st 0)
  | .recvmsg, .recvmsg (some d) => some (seekRecv c (receive c st d))
  | .tcpSend _, .tcpSend none => some (leave c st)
  | .tcpSend i, .tcpSend (some r) => some (seekOut c { st with slots := tcpSend c st.slots i r } (i + 1))
  | .tcpRecv i, .tcpRecv r => some (tcpReceive c st i r)
  | _, _ => none

/-- A run. -/
def run [DecidableEq α] (c : Conf α) : St → List (Event α) → Option St
  | st, [] => some st
  | st, e :: es => (step c st e).bind fun st => run c st es

/-- The start, at the time `t0`, with any contents of the buffers. -/
def start (c : Conf α) (t0 : ℕ) (answers alenBuf : ℕ → ℕ → UInt8) : St :=
  enter c ⟨.mtime, t0, c.arch.sub t0 c.retryInterval, 0, [], fun _ => false, fun _ => false,
    ⟨0, fun _ => 0, answers, fun _ => none, fun _ => none, fun _ => none, alenBuf⟩⟩ t0

end Leblibc.ResMsend
