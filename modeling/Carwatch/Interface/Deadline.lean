import Carwatch.Interface.Loop

/-!
# Carwatch.Interface.Deadline — no client holds a slot for long (`src/interface/server.c`)

A connection has `SERVER_DEADLINE_MS` to deliver its request, and as long
again to take the response. Only `accept_new` and `begin_write` set a
deadline, and `reap` closes what is late before anything else is done.

* **Invariant**: `Slot.Allowed`, what a deadline may be.
* **Result**: `slots_within_allowance`, after every round of every run. It
  needs nothing of the clock.
-/

namespace Carwatch.Interface

open Carwatch.Lib

/-- The deadline of a connection: the first allowance while it reads, two at
most. -/
structure Slot.Allowed (c : Slot) : Prop where
  within : c.deadline ≤ c.life.acceptedAt + 2 * serverDeadlineMs
  reading : c.conn.state = .reading → c.deadline = c.life.acceptedAt + serverDeadlineMs

/-- A connection that is not late at `now`. -/
structure Slot.Timely (now : ℕ) (c : Slot) : Prop extends c.Allowed where
  ahead : now < c.deadline

/-- No move at `now` makes a connection late at `now`, or its deadline too
long. -/
theorem move_timely {now : ℕ} {s s' : Server} (hmove : Move now s s')
    (h : AllBusy (Slot.Timely now) s) : AllBusy (Slot.Timely now) s' := by
  cases hmove with
  | flags listening acceptResume => exact h
  | accept i fd hfree hfd =>
      refine h.set i ⟨⟨?_, ?_⟩, ?_⟩
      · show now + serverDeadlineMs ≤ now + 2 * serverDeadlineMs
        omega
      · intro _
        rfl
      · show now < now + serverDeadlineMs
        exact Nat.lt_add_of_pos_right (by decide)
  | drop fd hfd => exact h
  | receive i conn hread hconn hparse =>
      have hold := h i (Slot.busy_of_reading hread)
      exact h.set i ⟨⟨hold.within, fun _ => hold.reading hread⟩, hold.ahead⟩
  | begin i conn out answer result hread hconn hparse hout =>
      have hold := h i (Slot.busy_of_reading hread)
      refine h.set i ⟨⟨?_, ?_⟩, ?_⟩
      · -- the request was in time, so the second allowance ends within two
        have hfirst := hold.reading hread
        have hahead := hold.ahead
        show now + serverDeadlineMs ≤ (s.conns i).life.acceptedAt + 2 * serverDeadlineMs
        omega
      · intro hstate
        have hwriting : conn.state = .reading := hstate
        rw [hconn] at hwriting
        cases hwriting
      · show now < now + serverDeadlineMs
        exact Nat.lt_add_of_pos_right (by decide)
  | send i r answer hwrite hr =>
      have hold := h i (Slot.busy_of_writing hwrite)
      exact h.set i ⟨⟨hold.within, hold.reading⟩, hold.ahead⟩
  | finish i answer hwrite =>
      have hold := h i (Slot.busy_of_writing hwrite)
      have hset := @AllBusy.set _ s h i ((s.conns i).advance
        ((s.conns i).out.outEnd - (s.conns i).out.outPos))
        ⟨⟨hold.within, hold.reading⟩, hold.ahead⟩
      exact hset.close i .served
  | fail i hbusy => exact h.close i .failed
  | timeout i hbusy => exact h.close i .timedOut
  | shut i hbusy => exact h.close i .shut

/-- What `reap` leaves in a slot was there before, and is not late. -/
theorem reapSlot_conns (now : ℕ) (s : Server) (i j : Fin serverMaxConns)
    (hbusy : ((reapSlot now s i).conns j).Busy) :
    (reapSlot now s i).conns j = s.conns j ∧ (j = i → now < (s.conns j).deadline) := by
  unfold reapSlot at hbusy ⊢
  split_ifs at hbusy ⊢ with hskip
  · refine ⟨rfl, ?_⟩
    rintro rfl
    simp only [Bool.or_eq_true, decide_eq_true_eq] at hskip
    exact hskip.resolve_left hbusy
  · rcases closeConn_conns s i .timedOut with ⟨hfree, -, hframe⟩
    by_cases hj : j = i
    · subst hj
      exact absurd hfree hbusy
    · exact ⟨hframe j hj, fun heq => absurd heq hj⟩

theorem run_reapSlot_conns (now : ℕ) (slots : List (Fin serverMaxConns)) (s : Server)
    (j : Fin serverMaxConns) (hbusy : ((run (reapSlot now) s slots).conns j).Busy) :
    (run (reapSlot now) s slots).conns j = s.conns j ∧
      (j ∈ slots → now < (s.conns j).deadline) := by
  induction slots generalizing s with
  | nil => exact ⟨rfl, fun h => absurd h List.not_mem_nil⟩
  | cons i slots ih =>
      rcases ih (reapSlot now s i) hbusy with ⟨hrest, hlate⟩
      have hbusy' : ((reapSlot now s i).conns j).Busy := by
        rw [← hrest]
        exact hbusy
      rcases reapSlot_conns now s i j hbusy' with ⟨hfirst, hlate'⟩
      refine ⟨hrest.trans hfirst, ?_⟩
      intro hin
      rcases List.mem_cons.mp hin with heq | hin
      · exact hlate' heq
      · rw [← hfirst]
        exact hlate hin

/-- `reap` looks at every slot. -/
theorem reap_timely {s : Server} (h : AllBusy Slot.Allowed s) (now : ℕ) :
    AllBusy (Slot.Timely now) (reap s now) := by
  intro j hbusy
  rcases run_reapSlot_conns now (List.finRange serverMaxConns) s j hbusy with ⟨hsame, hlate⟩
  have heq : (reap s now).conns j = s.conns j := hsame
  rw [heq] at hbusy ⊢
  exact ⟨h j hbusy, hlate (List.mem_finRange j)⟩

/-- After the poll of a round every connection is in time. -/
theorem serverStep_timely {s : Server} (h : AllBusy Slot.Allowed s) {env : StepEnv}
    {listener : ListenEv} {events : Fin serverMaxConns → Bool} (hlisten : s.listening = true)
    (hpoll : env.poll = .ready listener events) :
    AllBusy (Slot.Timely env.after) (serverStep s env).1 := by
  have hmoves := serverStep_moves hlisten hpoll
  have hstart := reap_timely h env.after
  generalize (serverStep s env).1 = t at hmoves ⊢
  induction hmoves with
  | refl => exact hstart
  | tail _ hlast ih => exact move_timely hlast ih

theorem exec_allowed (s : Server) (act : ServerAct) (h : AllBusy Slot.Allowed s) :
    AllBusy Slot.Allowed (s.exec act) := by
  cases act with
  | close =>
      have hstep : ∀ s i, AllBusy Slot.Allowed s → AllBusy Slot.Allowed (closeSlot s i) := by
        intro s i hs
        unfold closeSlot
        split_ifs
        · exact hs.close i .shut
        · exact hs
      exact run_invariant closeSlot (AllBusy Slot.Allowed) hstep s h _
  | step env =>
      show AllBusy Slot.Allowed (serverStep s env).1
      cases hlisten : s.listening with
      | false =>
          unfold serverStep
          rw [hlisten]
          exact h
      | true =>
          cases hpoll : env.poll with
          | eintr =>
              unfold serverStep
              rw [hlisten, hpoll]
              exact h
          | failed =>
              unfold serverStep
              rw [hlisten, hpoll]
              exact h
          | ready listener events =>
              intro i hbusy
              exact (serverStep_timely h hlisten hpoll i hbusy).toAllowed

theorem run_allowed (acts : List ServerAct) :
    AllBusy Slot.Allowed (run Server.exec serverOpen acts) := by
  have hopen : AllBusy Slot.Allowed serverOpen := fun _ hbusy => absurd rfl hbusy
  exact run_invariant Server.exec _ exec_allowed serverOpen hopen acts

/-- A round at 7 ms in which one client connects and sends nothing. -/
def firstClient : StepEnv where
  before := 0
  poll := .ready .ready fun _ => false
  after := 7
  script := ⟨[.conn 5], [], [], []⟩

end Carwatch.Interface
