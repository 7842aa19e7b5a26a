import Carwatch.Lib.Machine
import Carwatch.Interface.Layout
import Mathlib.Data.List.FinRange
import Mathlib.Logic.Function.Basic
import Mathlib.Logic.Relation

/-!
# Carwatch.Interface.Loop — the connection loop of `statusd` (`src/interface/server.c`)

One thread serves `SERVER_MAX_CONNS` connections from a table of slots. A
round polls, reaps what is late, accepts, and moves each ready connection
forward; slots change owner within a round, while the loop still walks what it
polled before.

* **Model layer**: `serverStep` and `serverClose` and what they call. What the
  kernel and the handler answer in a round is a script, read off answer by
  answer. Times are milliseconds.
* **Ghosts**: `Kernel` is the table of open descriptors, with every accepted
  connection numbered; `Life` is what a connection has been sent. Neither is
  read by the code.
* **Moves**: `Move` says what can happen to the table at all, and
  `serverStep_moves` that a round is a run of moves. Nothing after it unfolds
  the loop.
-/

namespace Carwatch.Interface

open Carwatch.Lib

/-! ## State -/

/-- `SERVER_MAX_CONNS` -/
abbrev serverMaxConns : ℕ := 4

/-- `SERVER_DEADLINE_MS` -/
abbrev serverDeadlineMs : ℕ := 5000

/-- `SERVER_ACCEPT_PAUSE_MS` -/
abbrev serverAcceptPauseMs : ℕ := 100

/-- `ACCEPTS_PER_STEP` -/
abbrev acceptsPerStep : ℕ := 16

/-- An answer that was begun: the request it is for, what the handler returned
if it was asked, and the bytes meant. -/
structure Reply where
  request : Bytes
  result : Option ServerResponse
  bytes : Bytes

/-- What has become of a connection: its number, when it was accepted, how
often the handler ran for it, the answers begun, and the bytes `send` took. -/
structure Life where
  id : ℕ
  acceptedAt : ℕ
  calls : ℕ
  replies : List Reply
  sent : Bytes

/-- Why a connection was closed. -/
inductive End where
  /-- The response was sent. -/
  | served
  /-- An error of `recv` or `send`, or the end of the stream. -/
  | failed
  /-- It was past its deadline. -/
  | timedOut
  /-- There was no slot for it. -/
  | dropped
  /-- `server_close`. -/
  | shut
deriving DecidableEq

/-- `server_conn_t`; `fd` is `none` for -1. -/
structure Slot where
  conn : Conn
  fd : Option ℕ
  deadline : ℕ
  out : OutBuf
  life : Life

/-- The kernel's side: which connection each open descriptor belongs to, how
many were accepted, which were closed, and how often `close` was called on a
descriptor that is not open. -/
structure Kernel where
  fds : ℕ → Option ℕ
  accepted : ℕ
  closed : List ℕ
  wild : ℕ

/-- `server_t`, the kernel, and the connections that are over. -/
structure Server where
  listening : Bool
  acceptResume : ℕ
  served : ℕ
  drops : ℕ
  timeouts : ℕ
  conns : Fin serverMaxConns → Slot
  kernel : Kernel
  past : List (Life × End)

/-- The slot is taken. -/
def Slot.Busy (c : Slot) : Prop := c.conn.state ≠ .free

instance : DecidablePred Slot.Busy := fun c => inferInstanceAs (Decidable (c.conn.state ≠ .free))

/-- `accept4` gives out a descriptor that is not open. -/
def Kernel.accept (k : Kernel) (fd : ℕ) : Kernel :=
  { k with fds := Function.update k.fds fd (some k.accepted), accepted := k.accepted + 1 }

/-- `close`; whatever it returns, the descriptor is gone. -/
def Kernel.close (k : Kernel) (fd : ℕ) : Kernel :=
  match k.fds fd with
  | some id => { k with fds := Function.update k.fds fd none, closed := k.closed ++ [id] }
  | none => { k with wild := k.wild + 1 }

/-- The slot `i` as it is after a change. -/
def Server.set (s : Server) (i : Fin serverMaxConns) (c : Slot) : Server :=
  { s with conns := Function.update s.conns i c }

/-- A slot before its first connection; the table starts zeroed. -/
def Slot.empty : Slot where
  conn := ⟨.free, [], Nat.zero_le _⟩
  fd := none
  deadline := 0
  out := ⟨List.replicate (serverHeadMax + serverBodyMax) 0, 0, 0⟩
  life := ⟨0, 0, 0, [], []⟩

/-- `server_open`, when it succeeds. -/
def serverOpen : Server where
  listening := true
  acceptResume := 0
  served := 0
  drops := 0
  timeouts := 0
  conns := fun _ => Slot.empty
  kernel := ⟨fun _ => none, 0, [], 0⟩
  past := []

/-! ## What the kernel and the handler answer -/

/-- What `accept4` returns. -/
inductive AcceptAns where
  | conn (fd : ℕ)
  /-- `EAGAIN` or `EWOULDBLOCK`. -/
  | again
  /-- `EINTR` or `ECONNABORTED`. -/
  | retry
  /-- Any other error. -/
  | failed

/-- What `send` returns. -/
inductive SendAns where
  /-- A count; the kernel takes no more than there is. -/
  | sent (n : ℕ)
  /-- `EINTR` -/
  | eintr
  /-- `EAGAIN` or `EWOULDBLOCK`. -/
  | again
  /-- Any other error. -/
  | failed

/-- What a handler may leave: any status, type and length, and any bytes in
the buffer it was given. -/
abbrev Handled := { r : ServerResponse // r.body.length = serverBodyMax }

/-- The answers of a round, in the order they are asked for. Where a list is
used up, the kernel has nothing more to say and the handler writes nothing. -/
structure Script where
  accepts : List AcceptAns
  recvs : List (RecvAns × Bytes)
  sends : List SendAns
  handled : List Handled

/-- What `poll` reports of the listener. -/
inductive ListenEv where
  | none
  | ready
  /-- `POLLERR` or `POLLNVAL`. -/
  | failed

/-- What `poll` returns, with the events of each slot. -/
inductive PollAns where
  | eintr
  | failed
  | ready (listener : ListenEv) (events : Fin serverMaxConns → Bool)

/-- The environment of a round: the clock before and after `poll`. -/
structure StepEnv where
  before : ℕ
  poll : PollAns
  after : ℕ
  script : Script

/-! ## Writing -/

/-- `close_conn` -/
def closeConn (s : Server) (i : Fin serverMaxConns) (how : End) : Server :=
  let c := s.conns i
  let kernel := match c.fd with
    | some fd => s.kernel.close fd
    | none => s.kernel
  { s.set i { c with conn := ⟨.free, [], Nat.zero_le _⟩, fd := none } with
    kernel := kernel
    past := s.past ++ [(c.life, how)] }

/-- `out_pos += r`, the `r` bytes there having been taken. -/
def Slot.advance (c : Slot) (r : ℕ) : Slot :=
  { c with
    out := { c.out with outPos := c.out.outPos + r }
    life := { c.life with sent := c.life.sent ++ c.out.pending.take r } }

/-- The end of `conn_write`. What `drain` and `shutdown` return changes
nothing. -/
def connServed (s : Server) (i : Fin serverMaxConns) : Server :=
  { closeConn s i .served with served := s.served + 1 }

/-- `conn_write` -/
def connWrite (i : Fin serverMaxConns) : Server → List SendAns → Server × List SendAns
  | s, [] =>
      if (s.conns i).out.outPos < (s.conns i).out.outEnd then (s, []) else (connServed s i, [])
  | s, ans :: sends =>
      let c := s.conns i
      if c.out.outPos < c.out.outEnd then
        match ans with
        | .sent n =>
            let r := min n (c.out.outEnd - c.out.outPos)
            if r = 0 then (closeConn s i .failed, sends)
            else connWrite i (s.set i (c.advance r)) sends
        | .eintr => connWrite i s sends
        | .again => (s, sends)
        | .failed => (closeConn s i .failed, sends)
      else (connServed s i, ans :: sends)

/-- `begin_write` on the slot `c`, in whose buffer the response stands. -/
def beginWrite (s : Server) (i : Fin serverMaxConns) (c : Slot) (now : ℕ)
    (result : Option ServerResponse) (e : Script) : Server × Script :=
  let reply : Reply := ⟨c.conn.req, result, c.out.pending⟩
  let c := { c with
    deadline := now + serverDeadlineMs
    life := { c.life with replies := c.life.replies ++ [reply] } }
  let (s, sends) := connWrite i (s.set i c) e.sends
  (s, { e with sends := sends })

/-- `respond_error` -/
def respondError (s : Server) (i : Fin serverMaxConns) (c : Slot) (refusal : HttpParse) (now : ℕ)
    (e : Script) : Server × Script :=
  beginWrite s i { c with out := layRefusal c.out refusal } now none e

/-- What the handler returns next; one that writes nothing leaves the response
as `dispatch` preset it. -/
def Script.nextHandled (e : Script) (c : OutBuf) : ServerResponse × Script :=
  match e.handled with
  | [] =>
      (⟨httpStatusInternalError, some (ascii "text/plain"), c.buf.drop serverHeadMax, 0⟩, e)
  | r :: rest => (r.val, { e with handled := rest })

/-- `dispatch` -/
def dispatch (s : Server) (i : Fin serverMaxConns) (c : Slot) (now : ℕ) (e : Script) :
    Server × Script :=
  let (result, e) := e.nextHandled c.out
  let c := { c with
    out := layHandled c.out result
    life := { c.life with calls := c.life.calls + 1 } }
  beginWrite s i c now (some result) e

/-! ## Reading -/

/-- What `recv` finds next. -/
def Script.nextRecv (e : Script) : (RecvAns × Bytes) × Script :=
  match e.recvs with
  | [] => ((.again, []), e)
  | r :: rest => (r, { e with recvs := rest })

/-- `conn_read` with what it calls: the connection reads on, is closed, or is
answered. -/
def serverRead (s : Server) (i : Fin serverMaxConns) (now : ℕ) (e : Script) : Server × Script :=
  let (r, e) := e.nextRecv
  let c := { s.conns i with conn := (connRead (s.conns i).conn r.1 r.2).1 }
  match c.conn.state with
  | .reading => (s.set i c, e)
  | .free => (closeConn s i .failed, e)
  | .writing (.ok _) => dispatch s i c now e
  | .writing refusal => respondError s i c refusal now e

/-! ## The loop -/

/-- `free_slot` -/
def freeSlot (s : Server) : Option (Fin serverMaxConns) :=
  (List.finRange serverMaxConns).find? fun i => (s.conns i).conn.state = .free

/-- A slot with a connection just accepted in it. -/
def acceptInto (s : Server) (i : Fin serverMaxConns) (fd now : ℕ) : Server :=
  { s.set i { s.conns i with
      conn := .fresh
      fd := some fd
      deadline := now + serverDeadlineMs
      life := ⟨s.kernel.accepted, now, 0, [], []⟩ } with
    kernel := s.kernel.accept fd }

/-- A connection there is no slot for. -/
def dropConn (s : Server) (fd now : ℕ) : Server :=
  { s with
    drops := s.drops + 1
    kernel := (s.kernel.accept fd).close fd
    past := s.past ++ [(⟨s.kernel.accepted, now, 0, [], []⟩, .dropped)] }

/-- `accept_new`, with `n` rounds to go. -/
def acceptNew (now : ℕ) : ℕ → Server → Script → Server × Script
  | 0, s, e => (s, e)
  | n + 1, s, e =>
      match e.accepts with
      | [] => (s, e)
      | .again :: rest => (s, { e with accepts := rest })
      | .retry :: rest => acceptNew now n s { e with accepts := rest }
      | .failed :: rest =>
          ({ s with acceptResume := now + serverAcceptPauseMs }, { e with accepts := rest })
      | .conn fd :: rest =>
          let e := { e with accepts := rest }
          -- the kernel does not give out a descriptor that is open
          if (s.kernel.fds fd).isSome then (s, e)
          else
            match freeSlot s with
            | none => acceptNew now n (dropConn s fd now) e
            | some i =>
                let (s, e) := serverRead (acceptInto s i fd now) i now e
                acceptNew now n s e

/-- What `reap` does with one slot. -/
def reapSlot (now : ℕ) (s : Server) (i : Fin serverMaxConns) : Server :=
  if (s.conns i).conn.state = .free || now < (s.conns i).deadline then s
  else { closeConn s i .timedOut with timeouts := s.timeouts + 1 }

/-- `reap` -/
def reap (s : Server) (now : ℕ) : Server := run (reapSlot now) s (List.finRange serverMaxConns)

/-- What `server_step` does with one polled slot that has an event. The state
is looked at again: the slot may have been reaped, or hold another connection
by now. -/
def serveSlot (now : ℕ) (s : Server) (e : Script) (i : Fin serverMaxConns) : Server × Script :=
  match (s.conns i).conn.state with
  | .free => (s, e)
  | .reading => serverRead s i now e
  | .writing _ =>
      let (s, sends) := connWrite i s e.sends
      (s, { e with sends := sends })

/-- The polled slots with an event, one after the other, and how many of them
were `handled`. -/
def serveSlots (now : ℕ) : List (Fin serverMaxConns) → Server → Script → ℕ → Server × ℕ
  | [], s, _, handled => (s, handled)
  | i :: slots, s, e, handled =>
      let handled := if (s.conns i).conn.state = .free then handled else handled + 1
      let (s, e) := serveSlot now s e i
      serveSlots now slots s e handled

/-- The slots that `poll` is asked about. -/
def polled (s : Server) : List (Fin serverMaxConns) :=
  (List.finRange serverMaxConns).filter fun i => (s.conns i).conn.state ≠ .free

/-- `server_step`: the server and what it returns, `none` for -1. The listener
is the first in the poll set, when it is in it at all. -/
def serverStep (s : Server) (env : StepEnv) : Server × Option ℕ :=
  if !s.listening then (s, none)
  else
    match env.poll with
    | .eintr => (s, some 0)
    | .failed => (s, none)
    | .ready listener events =>
        let listens : Bool := env.before ≥ s.acceptResume
        let ready := (polled s).filter events
        let s := reap s env.after
        match listens, listener with
        | true, .failed => (s, none)
        | true, .ready =>
            let (s, e) := acceptNew env.after acceptsPerStep s env.script
            let (s, handled) := serveSlots env.after ready s e 1
            (s, some handled)
        | _, _ =>
            let (s, handled) := serveSlots env.after ready s env.script 0
            (s, some handled)

/-- What `server_close` does with one slot. -/
def closeSlot (s : Server) (i : Fin serverMaxConns) : Server :=
  if (s.conns i).conn.state ≠ .free then closeConn s i .shut else s

/-- `server_close` -/
def serverClose (s : Server) : Server :=
  { run closeSlot s (List.finRange serverMaxConns) with listening := false }

/-- A call on the server. -/
inductive ServerAct where
  | step (env : StepEnv)
  | close

/-- One call. -/
def Server.exec (s : Server) : ServerAct → Server
  | .step env => (serverStep s env).1
  | .close => serverClose s

/-! ## Moves -/

/-- The bytes are the ones meant for what the parser said, and for what the
handler returned where it was asked. -/
def Answers : HttpParse → Option ServerResponse → Bytes → Prop
  | .ok _, some r, bytes => r.body.length = serverBodyMax ∧ bytes = handledBytes r
  | .ok _, none, _ => False
  | .incomplete, _, _ => False
  | refusal, none, bytes => bytes = refusalBytes refusal
  | _, some _, _ => False

/-- All that can happen to the table at a time `now`. -/
inductive Move (now : ℕ) : Server → Server → Prop where
  | flags (s : Server) (listening : Bool) (acceptResume : ℕ) :
      Move now s { s with listening := listening, acceptResume := acceptResume }
  | accept (s : Server) (i : Fin serverMaxConns) (fd : ℕ)
      (hfree : (s.conns i).conn.state = .free) (hfd : s.kernel.fds fd = none) :
      Move now s (acceptInto s i fd now)
  | drop (s : Server) (fd : ℕ) (hfd : s.kernel.fds fd = none) : Move now s (dropConn s fd now)
  | receive (s : Server) (i : Fin serverMaxConns) (conn : Conn)
      (hread : (s.conns i).conn.state = .reading) (hconn : conn.state = .reading)
      (hparse : httpParseRequest conn.req = .incomplete ∨ conn = (s.conns i).conn) :
      Move now s (s.set i { s.conns i with conn := conn })
  | begin (s : Server) (i : Fin serverMaxConns) (conn : Conn) (out : OutBuf) (answer : HttpParse)
      (result : Option ServerResponse) (hread : (s.conns i).conn.state = .reading)
      (hconn : conn.state = .writing answer)
      (hparse : httpParseRequest conn.req = answer ∨ httpMaxRequest ≤ (s.conns i).conn.req.length)
      (hout : (s.conns i).out.Sized → out.Sized ∧ Answers answer result out.pending) :
      Move now s (s.set i { s.conns i with
        conn := conn
        deadline := now + serverDeadlineMs
        out := out
        life := { (s.conns i).life with
          calls := (s.conns i).life.calls + result.toList.length
          replies := (s.conns i).life.replies ++ [⟨conn.req, result, out.pending⟩] } })
  | send (s : Server) (i : Fin serverMaxConns) (r : ℕ) (answer : HttpParse)
      (hwrite : (s.conns i).conn.state = .writing answer)
      (hr : (s.conns i).out.outPos + r < (s.conns i).out.outEnd) :
      Move now s (s.set i ((s.conns i).advance r))
  | finish (s : Server) (i : Fin serverMaxConns) (answer : HttpParse)
      (hwrite : (s.conns i).conn.state = .writing answer) :
      Move now s (connServed (s.set i ((s.conns i).advance
        ((s.conns i).out.outEnd - (s.conns i).out.outPos))) i)
  | fail (s : Server) (i : Fin serverMaxConns) (hbusy : (s.conns i).conn.state ≠ .free) :
      Move now s (closeConn s i .failed)
  | timeout (s : Server) (i : Fin serverMaxConns) (hbusy : (s.conns i).conn.state ≠ .free) :
      Move now s { closeConn s i .timedOut with timeouts := s.timeouts + 1 }
  | shut (s : Server) (i : Fin serverMaxConns) (hbusy : (s.conns i).conn.state ≠ .free) :
      Move now s (closeConn s i .shut)

/-- Some moves. -/
abbrev Moves (now : ℕ) : Server → Server → Prop := Relation.ReflTransGen (Move now)

/-! ### Slots of a changed table -/

theorem Slot.busy_of_reading {c : Slot} (h : c.conn.state = .reading) : c.Busy := by
  unfold Slot.Busy
  rw [h]
  exact ConnState.noConfusion

theorem Slot.busy_of_writing {c : Slot} {answer : HttpParse}
    (h : c.conn.state = .writing answer) : c.Busy := by
  unfold Slot.Busy
  rw [h]
  exact ConnState.noConfusion

@[simp] theorem set_conns_self (s : Server) (i : Fin serverMaxConns) (c : Slot) :
    (s.set i c).conns i = c := by
  show Function.update s.conns i c i = c
  exact Function.update_self i c s.conns

@[simp] theorem set_conns_of_ne (s : Server) {i j : Fin serverMaxConns} (h : j ≠ i) (c : Slot) :
    (s.set i c).conns j = s.conns j := by
  show Function.update s.conns i c j = s.conns j
  exact Function.update_of_ne h c s.conns

theorem set_self (s : Server) (i : Fin serverMaxConns) : s.set i (s.conns i) = s := by
  unfold Server.set
  rw [Function.update_eq_self]

/-- A closed slot is free; the others are as they were. -/
theorem closeConn_conns (s : Server) (i : Fin serverMaxConns) (how : End) :
    ((closeConn s i how).conns i).conn.state = .free ∧ ((closeConn s i how).conns i).fd = none ∧
    ∀ j, j ≠ i → (closeConn s i how).conns j = s.conns j := by
  have hself : (closeConn s i how).conns i =
      { s.conns i with conn := ⟨.free, [], Nat.zero_le _⟩, fd := none } :=
    set_conns_self s i _
  refine ⟨?_, ?_, ?_⟩
  · rw [hself]
  · rw [hself]
  · intro j hj
    exact set_conns_of_ne s hj _

/-- All connections in the table have a property. -/
def AllBusy (p : Slot → Prop) (s : Server) : Prop := ∀ i, (s.conns i).Busy → p (s.conns i)

theorem AllBusy.set {p : Slot → Prop} {s : Server} (h : AllBusy p s) (i : Fin serverMaxConns)
    {c : Slot} (hc : p c) : AllBusy p (s.set i c) := by
  intro j hbusy
  by_cases hj : j = i
  · subst hj
    rw [set_conns_self]
    exact hc
  · rw [set_conns_of_ne s hj] at hbusy ⊢
    exact h j hbusy

theorem AllBusy.close {p : Slot → Prop} {s : Server} (h : AllBusy p s) (i : Fin serverMaxConns)
    (how : End) : AllBusy p (closeConn s i how) := by
  rcases closeConn_conns s i how with ⟨hfree, -, hframe⟩
  intro j hbusy
  by_cases hj : j = i
  · subst hj
    exact absurd hfree hbusy
  · rw [hframe j hj] at hbusy ⊢
    exact h j hbusy

theorem advance_zero (c : Slot) : c.advance 0 = c := by
  unfold Slot.advance
  rw [List.take_zero, List.append_nil, Nat.add_zero]

/-! ### What `conn_write` does -/

theorem connWrite_done {s : Server} {i : Fin serverMaxConns}
    (h : ¬ (s.conns i).out.outPos < (s.conns i).out.outEnd) (sends : List SendAns) :
    connWrite i s sends = (connServed s i, sends) := by
  cases sends with
  | nil =>
      unfold connWrite
      exact if_neg h
  | cons ans sends =>
      unfold connWrite
      exact if_neg h

theorem connWrite_moves {now : ℕ} {s : Server} {i : Fin serverMaxConns} {answer : HttpParse}
    (hwrite : (s.conns i).conn.state = .writing answer) (sends : List SendAns) :
    Moves now s (connWrite i s sends).1 := by
  -- the last piece is taken, and the loop ends
  have hfinish : ∀ s : Server, (s.conns i).conn.state = .writing answer →
      ¬ (s.conns i).out.outPos < (s.conns i).out.outEnd → Moves now s (connServed s i) := by
    intro s hw hdone
    have hmove := @Move.finish now s i answer hw
    rw [Nat.sub_eq_zero_of_le (not_lt.mp hdone), advance_zero, set_self] at hmove
    exact .single hmove
  induction sends generalizing s with
  | nil =>
      rw [connWrite]
      split_ifs with hmore
      · exact .refl
      · exact hfinish s hwrite hmore
  | cons ans sends ih =>
      by_cases hmore : (s.conns i).out.outPos < (s.conns i).out.outEnd
      · unfold connWrite
        dsimp only
        rw [if_pos hmore]
        cases ans with
        | eintr => exact ih hwrite
        | again => exact .refl
        | failed => exact .single (.fail s i (Slot.busy_of_writing hwrite))
        | sent n =>
            dsimp only
            by_cases hzero : min n ((s.conns i).out.outEnd - (s.conns i).out.outPos) = 0
            · rw [if_pos hzero]
              exact .single (.fail s i (Slot.busy_of_writing hwrite))
            · rw [if_neg hzero]
              generalize hr : min n ((s.conns i).out.outEnd - (s.conns i).out.outPos) = r at hzero ⊢
              have hstill : ((s.set i ((s.conns i).advance r)).conns i).conn.state =
                  .writing answer := by
                rw [set_conns_self]
                exact hwrite
              by_cases hpart : (s.conns i).out.outPos + r < (s.conns i).out.outEnd
              · exact .head (.send s i r answer hwrite hpart) (ih hstill)
              · have hall : r = (s.conns i).out.outEnd - (s.conns i).out.outPos := by omega
                have hdone : ¬ ((s.set i ((s.conns i).advance r)).conns i).out.outPos <
                    ((s.set i ((s.conns i).advance r)).conns i).out.outEnd := by
                  rw [set_conns_self]
                  exact hpart
                rw [connWrite_done hdone, hall]
                exact .single (.finish s i answer hwrite)
      · rw [connWrite_done hmore]
        exact hfinish s hwrite hmore

/-! ### What `conn_read` does -/

/-- A connection that reads: it goes on, it is given up, or it has its
answer. -/
theorem connRead_cases {c : Conn} (h : c.state = .reading) (ans : RecvAns) (sock : Bytes) :
    ((connRead c ans sock).1.state = .reading ∧
      (httpParseRequest (connRead c ans sock).1.req = .incomplete ∨ (connRead c ans sock).1 = c)) ∨
    (connRead c ans sock).1.state = .free ∨
    ∃ answer, (connRead c ans sock).1.state = .writing answer ∧ answer ≠ .incomplete ∧
      (httpParseRequest (connRead c ans sock).1.req = answer ∨ httpMaxRequest ≤ c.req.length) := by
  unfold connRead
  rw [h]
  dsimp only
  by_cases hroom : httpMaxRequest - c.req.length = 0
  · rw [if_pos hroom]
    exact Or.inr (Or.inr ⟨.tooLarge, rfl, HttpParse.noConfusion, Or.inr (by omega)⟩)
  · rw [if_neg hroom]
    cases ans with
    | again => exact Or.inl ⟨h, Or.inr rfl⟩
    | gone => exact Or.inr (Or.inl rfl)
    | ready =>
        by_cases hsock : sock = []
        · dsimp only
          rw [if_pos hsock]
          exact Or.inl ⟨h, Or.inr rfl⟩
        · dsimp only
          rw [if_neg hsock]
          by_cases hinc : httpParseRequest (c.receive sock).req = .incomplete
          · refine Or.inl ⟨?_, Or.inl hinc⟩
            show ConnState.after _ = _
            rw [hinc]
            rfl
          · refine Or.inr (Or.inr ⟨_, ConnState.after_of_ne hinc, hinc, Or.inl rfl⟩)

theorem nextHandled_length {e : Script} {c : OutBuf} (hc : c.Sized) :
    (e.nextHandled c).1.body.length = serverBodyMax := by
  unfold Script.nextHandled
  cases e.handled with
  | nil =>
      show (c.buf.drop serverHeadMax).length = _
      rw [List.length_drop, hc.size, Nat.add_sub_cancel_left]
  | cons r rest => exact r.property

/-- Every answer that is begun is the one meant. -/
theorem beginWrite_moves {now : ℕ} {s : Server} {i : Fin serverMaxConns} {conn : Conn}
    {out : OutBuf} {answer : HttpParse} {result : Option ServerResponse}
    (hread : (s.conns i).conn.state = .reading) (hconn : conn.state = .writing answer)
    (hparse : httpParseRequest conn.req = answer ∨ httpMaxRequest ≤ (s.conns i).conn.req.length)
    (hout : (s.conns i).out.Sized → out.Sized ∧ Answers answer result out.pending) (e : Script) :
    Moves now s (beginWrite s i { s.conns i with
      conn := conn
      out := out
      life := { (s.conns i).life with
        calls := (s.conns i).life.calls + result.toList.length } } now result e).1 := by
  refine .head (.begin s i conn out answer result hread hconn hparse hout) ?_
  refine @connWrite_moves now _ i answer ?_ e.sends
  rw [set_conns_self]
  exact hconn

theorem serverRead_moves {now : ℕ} {s : Server} {i : Fin serverMaxConns}
    (hread : (s.conns i).conn.state = .reading) (e : Script) :
    Moves now s (serverRead s i now e).1 := by
  unfold serverRead
  cases hrecv : e.nextRecv with
  | mk r e =>
      dsimp only
      rcases connRead_cases hread r.1 r.2 with ⟨hstate, hparse⟩ | hstate | ⟨answer, hstate, hne, hparse⟩
      · rw [hstate]
        exact .single (.receive s i _ hread hstate hparse)
      · rw [hstate]
        exact .single (.fail s i (Slot.busy_of_reading hread))
      · rw [hstate]
        -- a refusal is laid out the same way whichever it is
        have hrefuse : ∀ refusal, answer = refusal →
            (∀ bytes, bytes = refusalBytes refusal → Answers refusal none bytes) →
            Moves now s (respondError s i { s.conns i with
              conn := (connRead (s.conns i).conn r.1 r.2).1 } refusal now e).1 := by
          rintro refusal rfl hmeant
          refine @beginWrite_moves now s i _ _ answer none hread hstate hparse ?_ e
          intro hsized
          rcases layRefusal_pending hsized answer with ⟨hsized', hpending⟩
          exact ⟨hsized', hmeant _ hpending⟩
        cases answer with
        | incomplete => exact absurd rfl hne
        | bad => exact hrefuse .bad rfl fun _ h => h
        | badMethod => exact hrefuse .badMethod rfl fun _ h => h
        | tooLarge => exact hrefuse .tooLarge rfl fun _ h => h
        | ok req =>
            show Moves now s (dispatch s i _ now e).1
            unfold dispatch
            have hlen := @nextHandled_length e (s.conns i).out
            dsimp only
            cases hnext : e.nextHandled (s.conns i).out with
            | mk result e' =>
                rw [hnext] at hlen
                refine @beginWrite_moves now s i _ _ (.ok req) (some result) hread hstate hparse ?_ e'
                intro hsized
                rcases layHandled_pending hsized (hlen hsized) with ⟨hsized', hpending⟩
                exact ⟨hsized', hlen hsized, hpending⟩

/-! ### What a round does -/

theorem freeSlot_free {s : Server} {i : Fin serverMaxConns} (h : freeSlot s = some i) :
    (s.conns i).conn.state = .free := by
  have hfound := List.find?_some h
  exact of_decide_eq_true hfound

theorem acceptNew_moves {now n : ℕ} (s : Server) (e : Script) :
    Moves now s (acceptNew now n s e).1 := by
  induction n generalizing s e with
  | zero => exact .refl
  | succ n ih =>
      rw [acceptNew]
      cases e.accepts with
      | nil => exact .refl
      | cons ans rest =>
          cases ans with
          | again => exact .refl
          | retry => exact ih s _
          | failed => exact .single (.flags s s.listening _)
          | conn fd =>
              dsimp only
              by_cases hopen : (s.kernel.fds fd).isSome = true
              · rw [if_pos hopen]
              · rw [if_neg hopen]
                have hfd : s.kernel.fds fd = none := by simpa using hopen
                cases hslot : freeSlot s with
                | none => exact .head (.drop s fd hfd) (ih _ _)
                | some i =>
                    dsimp only
                    have hread : ((acceptInto s i fd now).conns i).conn.state = .reading := by
                      show ((s.set i _).conns i).conn.state = _
                      rw [set_conns_self]
                      rfl
                    refine .head (.accept s i fd (freeSlot_free hslot) hfd) ?_
                    exact (serverRead_moves hread _).trans (ih _ _)

/-- A loop of moves. -/
theorem run_moves {now : ℕ} {α : Type} {step : Server → α → Server}
    (h : ∀ s a, Moves now s (step s a)) (s : Server) (acts : List α) :
    Moves now s (run step s acts) := by
  induction acts generalizing s with
  | nil => exact .refl
  | cons a acts ih => exact (h s a).trans (ih (step s a))

theorem reap_moves (now : ℕ) (s : Server) : Moves now s (reap s now) := by
  refine run_moves ?_ s _
  intro s i
  unfold reapSlot
  split_ifs with hskip
  · exact .refl
  · simp only [Bool.or_eq_true, decide_eq_true_eq, not_or] at hskip
    exact .single (.timeout s i hskip.1)

theorem serveSlot_moves (now : ℕ) (s : Server) (e : Script) (i : Fin serverMaxConns) :
    Moves now s (serveSlot now s e i).1 := by
  unfold serveSlot
  cases hstate : (s.conns i).conn.state with
  | free => exact .refl
  | reading => exact serverRead_moves hstate e
  | writing answer => exact connWrite_moves hstate e.sends

theorem serveSlots_moves {now : ℕ} (slots : List (Fin serverMaxConns)) (s : Server) (e : Script)
    (handled : ℕ) : Moves now s (serveSlots now slots s e handled).1 := by
  induction slots generalizing s e handled with
  | nil => exact .refl
  | cons i slots ih => exact (serveSlot_moves now s e i).trans (ih _ _ _)

/-- After `reap`, a round is a run of moves. -/
theorem serverStep_moves {s : Server} {env : StepEnv} {listener : ListenEv}
    {events : Fin serverMaxConns → Bool} (hlisten : s.listening = true)
    (hpoll : env.poll = .ready listener events) :
    Moves env.after (reap s env.after) (serverStep s env).1 := by
  unfold serverStep
  rw [hlisten, hpoll]
  dsimp only [Bool.not_true]
  rw [if_neg (by decide)]
  cases decide (env.before ≥ s.acceptResume) with
  | false => exact serveSlots_moves _ _ _ _
  | true =>
      cases listener with
      | none => exact serveSlots_moves _ _ _ _
      | failed => exact .refl
      | ready => exact (acceptNew_moves _ _).trans (serveSlots_moves _ _ _ _)

/-- Every call is a run of moves. -/
theorem exec_moves (s : Server) (act : ServerAct) : ∃ now, Moves now s (s.exec act) := by
  cases act with
  | close =>
      refine ⟨0, ?_⟩
      -- all slots are closed before the socket is
      have hloop : Moves 0 s (run closeSlot s (List.finRange serverMaxConns)) := by
        refine run_moves ?_ s _
        intro s i
        unfold closeSlot
        split_ifs with hbusy
        · exact .single (.shut s i hbusy)
        · exact .refl
      exact hloop.tail (.flags _ false _)
  | step env =>
      refine ⟨env.after, ?_⟩
      show Moves env.after s (serverStep s env).1
      cases hlisten : s.listening with
      | false =>
          unfold serverStep
          rw [hlisten]
          exact .refl
      | true =>
          cases hpoll : env.poll with
          | eintr =>
              unfold serverStep
              rw [hlisten, hpoll]
              exact .refl
          | failed =>
              unfold serverStep
              rw [hlisten, hpoll]
              exact .refl
          -- the slots whose time is over go first
          | ready listener events =>
              exact (reap_moves env.after s).trans (serverStep_moves hlisten hpoll)

/-- What every move keeps holds in every run. -/
theorem run_of_moves {inv : Server → Prop} (hopen : inv serverOpen)
    (hmove : ∀ now s s', Move now s s' → inv s → inv s') (acts : List ServerAct) :
    inv (run Server.exec serverOpen acts) := by
  have hstep : ∀ s act, inv s → inv (Server.exec s act) := by
    intro s act hs
    rcases exec_moves s act with ⟨now, hmoves⟩
    generalize s.exec act = t at hmoves
    induction hmoves with
    | refl => exact hs
    | tail _ hlast ih => exact hmove now _ _ hlast ih
  exact run_invariant Server.exec inv hstep serverOpen hopen acts

end Carwatch.Interface
