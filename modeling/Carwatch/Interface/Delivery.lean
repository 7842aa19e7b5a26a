import Carwatch.Interface.Slots

/-!
# Carwatch.Interface.Delivery — one response, and exactly that (`src/interface/server.c`)

What a connection is sent is a run of bytes cut wherever `send` cut it. The
offsets say how far it came; the ghosts say what was meant.

* **Invariant**: `Slot.Delivers`: what was sent and what is pending are the
  one message begun, and something is pending as long as it is not over.
* **Result**: `responses_exact`, for every request, every result of the
  handler and every pattern of sends: at most one message on a connection, a
  well-formed one, and `served` counts those sent in full.
-/

namespace Carwatch.Interface

open Carwatch.Lib

/-! ## Connections and their messages -/

/-- Nothing was begun. -/
structure Life.Silent (l : Life) : Prop where
  replies : l.replies = []
  calls : l.calls = 0
  sent : l.sent = []

/-- One message was begun: the one meant for the request, and for what the
handler returned if it was asked. -/
structure Life.Begun (l : Life) (reply : Reply) : Prop where
  replies : l.replies = [reply]
  calls : l.calls = reply.result.toList.length
  meant : Answers (httpParseRequest reply.request) reply.result reply.bytes

/-- All of the message was sent. -/
def Life.complete (l : Life) : Bool :=
  match l.replies with
  | [reply] => l.sent == reply.bytes
  | _ => false

/-- At most one message, and what was sent is the front of it. -/
def Life.Exact (l : Life) : Prop := l.Silent ∨ ∃ reply, l.Begun reply ∧ l.sent <+: reply.bytes

/-- The connections there were and are. -/
def lives (s : Server) : List Life :=
  s.past.map Prod.fst ++
    ((List.finRange serverMaxConns).filter fun i => (s.conns i).Busy).map fun i => (s.conns i).life

/-! ## The invariant -/

/-- A connection in the table: silent while it reads, and halfway through its
message while it writes. -/
structure Slot.Delivers (c : Slot) : Prop where
  reading : c.conn.state = .reading → c.life.Silent ∧ httpParseRequest c.conn.req = .incomplete
  writing : ∀ answer, c.conn.state = .writing answer →
    ∃ reply, c.life.Begun reply ∧ reply.bytes = c.life.sent ++ c.out.pending ∧ c.out.pending ≠ []

/-- The messages of a server: every buffer has its size, the connections in
the table deliver, and those that are over had at most one message and count
as served when it was complete. -/
structure Delivery (s : Server) : Prop where
  sized : ∀ i, (s.conns i).out.Sized
  table : AllBusy Slot.Delivers s
  past : ∀ p ∈ s.past, p.1.Exact ∧ (p.1.complete = true ↔ p.2 = .served)

/-- A message is meant for a request that the handler was asked about, or for
a refusal. -/
theorem Answers.cases {answer : HttpParse} {result : Option ServerResponse} {bytes : Bytes}
    (h : Answers answer result bytes) :
    (∃ req r, answer = .ok req ∧ result = some r ∧ r.body.length = serverBodyMax ∧
      bytes = handledBytes r) ∨
    (result = none ∧ bytes = refusalBytes answer) := by
  unfold Answers at h
  split at h
  · exact Or.inl ⟨_, _, rfl, rfl, h⟩
  · exact absurd h id
  · exact absurd h id
  · exact Or.inr ⟨rfl, h⟩
  · exact absurd h id

theorem Answers.isResponse {answer : HttpParse} {result : Option ServerResponse} {bytes : Bytes}
    (h : Answers answer result bytes) : IsResponse bytes := by
  rcases h.cases with ⟨req, r, -, -, -, rfl⟩ | ⟨-, rfl⟩
  · exact isResponse_handledBytes r
  · exact isResponse_refusalBytes answer

theorem Life.Silent.complete {l : Life} (h : l.Silent) : l.complete = false := by
  unfold Life.complete
  rw [h.replies]

/-- A connection that is closed before its message is through. -/
theorem Slot.Delivers.over {c : Slot} (h : c.Delivers) (hbusy : c.Busy) :
    c.life.Exact ∧ c.life.complete = false := by
  cases hstate : c.conn.state with
  | free => exact absurd hstate hbusy
  | reading =>
      have hsilent := (h.reading hstate).1
      exact ⟨Or.inl hsilent, hsilent.complete⟩
  | writing answer =>
      rcases h.writing answer hstate with ⟨reply, hbegun, hbytes, hpending⟩
      refine ⟨Or.inr ⟨reply, hbegun, ⟨_, hbytes.symm⟩⟩, ?_⟩
      unfold Life.complete
      rw [hbegun.replies]
      show (c.life.sent == reply.bytes) = false
      rw [beq_eq_false_iff_ne]
      intro heq
      rw [hbytes] at heq
      exact hpending (List.self_eq_append_right.mp heq)

/-- What is pending after `r` more bytes. -/
theorem pending_advance (c : Slot) (r : ℕ) : (c.advance r).out.pending = c.out.pending.drop r := by
  show (c.out.buf.take c.out.outEnd).drop (c.out.outPos + r) = _
  rw [OutBuf.pending, List.drop_drop]

theorem length_pending {c : OutBuf} (h : c.Sized) : c.pending.length = c.outEnd - c.outPos := by
  have hend := h.end_le
  rw [OutBuf.pending, List.length_drop, List.length_take, h.size, Nat.min_eq_left hend]

/-! ## The moves -/

theorem Delivery.set {s : Server} (h : Delivery s) (i : Fin serverMaxConns) {c : Slot}
    (hsized : c.out.Sized) (hc : c.Delivers) : Delivery (s.set i c) := by
  refine ⟨?_, h.table.set i hc, h.past⟩
  intro j
  by_cases hj : j = i
  · subst hj
    rw [set_conns_self]
    exact hsized
  · rw [set_conns_of_ne s hj]
    exact h.sized j

/-- A connection that ends, however the counters are kept. -/
theorem Delivery.close {s s' : Server} {i : Fin serverMaxConns} (how : End)
    (hsized : ∀ j, (s.conns j).out.Sized) (htable : AllBusy Slot.Delivers (closeConn s i how))
    (hpast : ∀ p ∈ s.past, p.1.Exact ∧ (p.1.complete = true ↔ p.2 = .served))
    (hlast : (s.conns i).life.Exact ∧ ((s.conns i).life.complete = true ↔ how = .served))
    (hconns : s'.conns = (closeConn s i how).conns)
    (hpast' : s'.past = s.past ++ [((s.conns i).life, how)]) : Delivery s' := by
  refine ⟨?_, ?_, ?_⟩
  · intro j
    rw [hconns]
    by_cases hj : j = i
    · subst hj
      show ((s.set j _).conns j).out.Sized
      rw [set_conns_self]
      exact hsized j
    · rw [(closeConn_conns s i how).2.2 j hj]
      exact hsized j
  · intro j hbusy
    rw [hconns] at hbusy ⊢
    exact htable j hbusy
  · intro p hp
    rw [hpast'] at hp
    rcases List.mem_append.mp hp with hp | hp
    · exact hpast p hp
    · rw [List.mem_singleton.mp hp]
      exact hlast

/-- A connection closed before its message is through. -/
theorem Delivery.cut {s s' : Server} (h : Delivery s) {i : Fin serverMaxConns}
    (hbusy : (s.conns i).Busy) {how : End} (hhow : how ≠ .served)
    (hconns : s'.conns = (closeConn s i how).conns)
    (hpast : s'.past = s.past ++ [((s.conns i).life, how)]) : Delivery s' := by
  rcases (h.table i hbusy).over hbusy with ⟨hexact, hcut⟩
  refine Delivery.close how h.sized (h.table.close i how) h.past ⟨hexact, ?_⟩ hconns hpast
  rw [hcut]
  exact ⟨fun hfalse => (by cases hfalse), fun heq => absurd heq hhow⟩

/-- Every move keeps to the messages meant. -/
theorem move_delivery {now : ℕ} {s s' : Server} (hmove : Move now s s') (h : Delivery s) :
    Delivery s' := by
  cases hmove with
  | flags listening acceptResume => exact ⟨h.sized, h.table, h.past⟩
  | accept i fd hfree hfd =>
      have hset := @Delivery.set s h i { s.conns i with
        conn := .fresh
        fd := some fd
        deadline := now + serverDeadlineMs
        life := ⟨s.kernel.accepted, now, 0, [], []⟩ } (h.sized i)
        ⟨fun _ => ⟨⟨rfl, rfl, rfl⟩, rfl⟩, fun answer hstate => by cases hstate⟩
      exact ⟨hset.sized, hset.table, hset.past⟩
  | drop fd hfd =>
      refine ⟨h.sized, h.table, ?_⟩
      intro p hp
      rcases List.mem_append.mp hp with hp | hp
      · exact h.past p hp
      · rw [List.mem_singleton.mp hp]
        refine ⟨Or.inl ⟨rfl, rfl, rfl⟩, ?_⟩
        exact ⟨fun hfalse => (by cases hfalse), fun heq => (by cases heq)⟩
  | receive i conn hread hconn hparse =>
      have hold := (h.table i (Slot.busy_of_reading hread)).reading hread
      refine h.set i (h.sized i) ⟨?_, ?_⟩
      · intro _
        refine ⟨hold.1, ?_⟩
        rcases hparse with hinc | rfl
        · exact hinc
        · exact hold.2
      · intro answer hstate
        have hwriting : conn.state = .writing answer := hstate
        rw [hconn] at hwriting
        cases hwriting
  | begin i conn out answer result hread hconn hparse hout =>
      rcases (h.table i (Slot.busy_of_reading hread)).reading hread with ⟨hsilent, hinc⟩
      rcases hout (h.sized i) with ⟨hsized, hmeant⟩
      -- the buffer is never full while the parser asks for more
      have hanswer : httpParseRequest conn.req = answer := by
        rcases hparse with hp | hfull
        · exact hp
        · have hroom := ((httpParseRequest_eq_incomplete_iff _).mp hinc).2
          exact absurd hfull (not_le.mpr hroom)
      refine h.set i hsized ⟨?_, ?_⟩
      · intro hstate
        have hreading : conn.state = .reading := hstate
        rw [hconn] at hreading
        cases hreading
      · intro answer' _
        refine ⟨⟨conn.req, result, out.pending⟩, ⟨?_, ?_, ?_⟩, ?_, hmeant.isResponse.ne_nil⟩
        · show (s.conns i).life.replies ++ _ = _
          rw [hsilent.replies]
          rfl
        · show (s.conns i).life.calls + _ = _
          rw [hsilent.calls, Nat.zero_add]
        · rw [hanswer]
          exact hmeant
        · show out.pending = (s.conns i).life.sent ++ out.pending
          rw [hsilent.sent, List.nil_append]
  | send i r answer hwrite hr =>
      have hold := h.table i (Slot.busy_of_writing hwrite)
      have hsized := h.sized i
      refine h.set i ⟨hsized.size, hsized.end_le⟩ ⟨?_, ?_⟩
      · intro hstate
        have hreading : (s.conns i).conn.state = .reading := hstate
        rw [hwrite] at hreading
        cases hreading
      · intro answer' hstate
        rcases hold.writing answer' hstate with ⟨reply, hbegun, hbytes, -⟩
        refine ⟨reply, ⟨hbegun.replies, hbegun.calls, hbegun.meant⟩, ?_, ?_⟩
        · rw [pending_advance]
          show reply.bytes = ((s.conns i).life.sent ++ (s.conns i).out.pending.take r) ++ _
          rw [List.append_assoc, List.take_append_drop]
          exact hbytes
        · rw [pending_advance]
          intro hnil
          have hlen := congrArg List.length hnil
          rw [List.length_drop, length_pending hsized, List.length_nil] at hlen
          omega
  | finish i answer hwrite =>
      have hsized := h.sized i
      rcases (h.table i (Slot.busy_of_writing hwrite)).writing answer hwrite with
        ⟨reply, hbegun, hbytes, -⟩
      generalize hc : (s.conns i).advance ((s.conns i).out.outEnd - (s.conns i).out.outPos) = c
      -- what was pending is all taken
      have hsent : c.life.sent = reply.bytes := by
        rw [← hc]
        show (s.conns i).life.sent ++ (s.conns i).out.pending.take _ = _
        rw [← length_pending hsized, List.take_length]
        exact hbytes.symm
      have hreplies : c.life.replies = [reply] := by
        rw [← hc]
        exact hbegun.replies
      have hcalls : c.life.calls = reply.result.toList.length := by
        rw [← hc]
        exact hbegun.calls
      have hout : c.out.Sized := by
        rw [← hc]
        exact ⟨hsized.size, hsized.end_le⟩
      have hcomplete : c.life.complete = true := by
        unfold Life.complete
        rw [hreplies]
        show (c.life.sent == reply.bytes) = true
        rw [hsent]
        exact BEq.rfl
      refine @Delivery.close (s.set i c) _ i .served ?_ ?_ h.past ?_ rfl rfl
      · intro j
        by_cases hj : j = i
        · subst hj
          rw [set_conns_self]
          exact hout
        · rw [set_conns_of_ne s hj]
          exact h.sized j
      · intro j hbusy
        rcases closeConn_conns (s.set i c) i .served with ⟨hfree, -, hframe⟩
        by_cases hj : j = i
        · subst hj
          exact absurd hfree hbusy
        · rw [hframe j hj, set_conns_of_ne s hj] at hbusy ⊢
          exact h.table j hbusy
      · rw [set_conns_self]
        refine ⟨Or.inr ⟨reply, ⟨hreplies, hcalls, hbegun.meant⟩, ?_⟩, fun _ => rfl, fun _ => hcomplete⟩
        rw [hsent]
  | fail i hbusy => exact h.cut hbusy (by decide) rfl rfl
  | timeout i hbusy => exact h.cut hbusy (by decide) rfl rfl
  | shut i hbusy => exact h.cut hbusy (by decide) rfl rfl

theorem run_delivery (acts : List ServerAct) : Delivery (serverRun acts) := by
  refine run_of_moves ?_ (fun _ _ _ hmove h => move_delivery hmove h) acts
  refine ⟨?_, ?_, ?_⟩
  · intro i
    exact ⟨List.length_replicate, Nat.zero_le _⟩
  · intro i hbusy
    exact absurd rfl hbusy
  · intro p hp
    exact absurd hp List.not_mem_nil

/-! ## The result -/

/-- `served` counts the connections whose message was sent in full. -/
theorem served_eq {s : Server} (hbooks : Books s) (h : Delivery s) :
    s.served = (lives s).countP Life.complete := by
  have hopen : (((List.finRange serverMaxConns).filter fun i => (s.conns i).Busy).map
      fun i => (s.conns i).life).countP Life.complete = 0 := by
    rw [List.countP_eq_zero]
    intro l hl
    rcases List.mem_map.mp hl with ⟨i, hi, rfl⟩
    have hbusy : (s.conns i).Busy := of_decide_eq_true (List.mem_filter.mp hi).2
    rw [((h.table i hbusy).over hbusy).2]
    decide
  have hpast : (s.past.map Prod.fst).countP Life.complete = ended s.past .served := by
    rw [List.countP_map]
    unfold ended
    apply List.countP_congr
    intro p hp
    rw [decide_eq_true_iff]
    exact (h.past p hp).2
  rw [lives, List.countP_append, hpast, hopen, hbooks.served, Nat.add_zero]

theorem lives_exact {s : Server} (h : Delivery s) : ∀ l ∈ lives s, l.Exact := by
  intro l hl
  rcases List.mem_append.mp hl with hl | hl
  · rcases List.mem_map.mp hl with ⟨p, hp, rfl⟩
    exact (h.past p hp).1
  · rcases List.mem_map.mp hl with ⟨i, hi, rfl⟩
    have hbusy : (s.conns i).Busy := of_decide_eq_true (List.mem_filter.mp hi).2
    exact ((h.table i hbusy).over hbusy).1

/-- In every run each connection is sent the front of at most one message,
the handler runs for it at most once, and `served` counts the messages sent in
full. The message is a well-formed response; for a request it is the handler's
own, or the fixed 500 where the handler's result is invalid. -/
theorem responses_exact (acts : List ServerAct) :
    (∀ l ∈ lives (serverRun acts), l.calls ≤ 1 ∧
      (l.replies = [] ∧ l.sent = [] ∨
        ∃ reply, l.replies = [reply] ∧ l.sent <+: reply.bytes ∧ IsResponse reply.bytes ∧
          ((∃ req r, httpParseRequest reply.request = .ok req ∧ reply.result = some r ∧
              (r.Valid → ∃ head,
                httpWriteHead serverHeadMax r.status r.ctype r.bodyLen = some head ∧
                reply.bytes = head ++ r.content) ∧
              (¬ r.Valid → reply.bytes = fixed500)) ∨
            (reply.result = none ∧
              reply.bytes = refusalBytes (httpParseRequest reply.request))))) ∧
    (∀ p ∈ (serverRun acts).past, p.1.complete = true ↔ p.2 = .served) ∧
    (serverRun acts).served = (lives (serverRun acts)).countP Life.complete := by
  have hdelivery := run_delivery acts
  refine ⟨?_, fun p hp => (hdelivery.past p hp).2, served_eq (run_books acts) hdelivery⟩
  intro l hl
  rcases lives_exact hdelivery l hl with hsilent | ⟨reply, hbegun, hsent⟩
  · rw [hsilent.calls]
    exact ⟨Nat.zero_le 1, Or.inl ⟨hsilent.replies, hsilent.sent⟩⟩
  · refine ⟨?_, Or.inr ⟨reply, hbegun.replies, hsent, hbegun.meant.isResponse, ?_⟩⟩
    · rw [hbegun.calls]
      cases reply.result with
      | none => exact Nat.zero_le 1
      | some r => exact le_refl 1
    · rcases hbegun.meant.cases with ⟨req, r, hanswer, hresult, hlen, hbytes⟩ | ⟨hresult, hbytes⟩
      · refine Or.inl ⟨req, r, hanswer, hresult, ?_, ?_⟩
        · intro hvalid
          rw [hbytes]
          exact handledBytes_of_valid hlen hvalid
        · intro hinvalid
          rw [hbytes]
          exact handledBytes_of_not_valid hlen hinvalid
      · exact Or.inr ⟨hresult, hbytes⟩

end Carwatch.Interface
