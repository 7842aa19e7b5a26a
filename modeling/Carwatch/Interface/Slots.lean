import Carwatch.Interface.Loop
import Mathlib.Data.Fintype.Basic
import Mathlib.Data.Finset.Card

/-!
# Carwatch.Interface.Slots — no descriptor is lost or closed twice (`src/interface/server.c`)

A connection can end in eight places of the source, and its slot may be given
away before the round is over. The kernel's table of open descriptors tells
whether each one was closed, and whether `close` was ever called on one that
was not open.

* **Invariant**: `Table` ties the slots to the kernel's table; `Books` ties
  the counters to the connections that are over.
* **Result**: `descriptors_accounted`, for every sequence of calls and every
  answer of the kernel.
-/

namespace Carwatch.Interface

open Carwatch.Lib

/-! ## The kernel's table -/

/-- The kernel's own order: a connection has one descriptor, and it is closed
once it has none. -/
structure Kernel.Ok (k : Kernel) : Prop where
  lt : ∀ fd id, k.fds fd = some id → id < k.accepted
  inj : ∀ fd fd' id, k.fds fd = some id → k.fds fd' = some id → fd = fd'
  once : k.closed.Nodup
  closed_iff : ∀ id, id ∈ k.closed ↔ id < k.accepted ∧ ∀ fd, k.fds fd ≠ some id

@[simp] theorem accept_fds_self (k : Kernel) (fd : ℕ) :
    (k.accept fd).fds fd = some k.accepted := by
  show Function.update k.fds fd _ fd = _
  exact Function.update_self fd _ k.fds

@[simp] theorem accept_fds_of_ne (k : Kernel) {fd fd' : ℕ} (h : fd' ≠ fd) :
    (k.accept fd).fds fd' = k.fds fd' := by
  show Function.update k.fds fd _ fd' = _
  exact Function.update_of_ne h _ k.fds

theorem Kernel.Ok.accept {k : Kernel} (h : k.Ok) {fd : ℕ} (hfd : k.fds fd = none) :
    (k.accept fd).Ok := by
  -- a number that is used already is below the next one
  have hne : ∀ fd', k.fds fd' ≠ some k.accepted := fun fd' hin =>
    absurd (h.lt fd' _ hin) (lt_irrefl _)
  refine ⟨?_, ?_, h.once, ?_⟩
  · intro fd' id hid
    show id < k.accepted + 1
    by_cases hf : fd' = fd
    · rw [hf, accept_fds_self] at hid
      rw [← Option.some.inj hid]
      exact Nat.lt_succ_self _
    · rw [accept_fds_of_ne k hf] at hid
      exact Nat.lt_succ_of_lt (h.lt fd' id hid)
  · intro a b id ha hb
    by_cases haf : a = fd
    · by_cases hbf : b = fd
      · rw [haf, hbf]
      · rw [haf, accept_fds_self] at ha
        rw [accept_fds_of_ne k hbf, ← Option.some.inj ha] at hb
        exact absurd hb (hne b)
    · by_cases hbf : b = fd
      · rw [hbf, accept_fds_self] at hb
        rw [accept_fds_of_ne k haf, ← Option.some.inj hb] at ha
        exact absurd ha (hne a)
      · rw [accept_fds_of_ne k haf] at ha
        rw [accept_fds_of_ne k hbf] at hb
        exact h.inj a b id ha hb
  · intro id
    show id ∈ k.closed ↔ id < k.accepted + 1 ∧ _
    rw [h.closed_iff id]
    constructor
    · rintro ⟨hlt, hnone⟩
      refine ⟨Nat.lt_succ_of_lt hlt, ?_⟩
      intro fd' hid
      by_cases hf : fd' = fd
      · rw [hf, accept_fds_self] at hid
        rw [← Option.some.inj hid] at hlt
        exact lt_irrefl _ hlt
      · rw [accept_fds_of_ne k hf] at hid
        exact hnone fd' hid
    · rintro ⟨hlt, hnone⟩
      have hid : id ≠ k.accepted := by
        rintro rfl
        exact hnone fd (accept_fds_self k fd)
      refine ⟨by omega, ?_⟩
      intro fd' hin
      have hf : fd' ≠ fd := by
        rintro rfl
        rw [hfd] at hin
        cases hin
      exact hnone fd' (by rw [accept_fds_of_ne k hf]; exact hin)

/-- `close` of a descriptor that is open. -/
theorem close_eq {k : Kernel} {fd id : ℕ} (h : k.fds fd = some id) :
    k.close fd = { k with fds := Function.update k.fds fd none, closed := k.closed ++ [id] } := by
  unfold Kernel.close
  rw [h]

theorem close_fds {k : Kernel} {fd id : ℕ} (h : k.fds fd = some id) :
    (k.close fd).fds fd = none ∧ ∀ fd', fd' ≠ fd → (k.close fd).fds fd' = k.fds fd' := by
  rw [close_eq h]
  exact ⟨Function.update_self fd none k.fds, fun fd' hf => Function.update_of_ne hf none k.fds⟩

theorem Kernel.Ok.close {k : Kernel} (h : k.Ok) {fd id : ℕ} (hfd : k.fds fd = some id) :
    (k.close fd).Ok := by
  rcases close_fds hfd with ⟨hself, hother⟩
  have haccepted : (k.close fd).accepted = k.accepted := by rw [close_eq hfd]
  have hclosed : (k.close fd).closed = k.closed ++ [id] := by rw [close_eq hfd]
  have hstill : ∀ fd' id', (k.close fd).fds fd' = some id' → fd' ≠ fd ∧ k.fds fd' = some id' := by
    intro fd' id' hin
    have hf : fd' ≠ fd := by
      rintro rfl
      rw [hself] at hin
      cases hin
    rw [hother fd' hf] at hin
    exact ⟨hf, hin⟩
  -- an open descriptor was not closed before
  have hnew : id ∉ k.closed := fun hin => ((h.closed_iff id).mp hin).2 fd hfd
  refine ⟨?_, ?_, ?_, ?_⟩
  · intro fd' id' hin
    rw [haccepted]
    exact h.lt fd' id' (hstill fd' id' hin).2
  · intro a b id' ha hb
    exact h.inj a b id' (hstill a id' ha).2 (hstill b id' hb).2
  · rw [hclosed, List.nodup_append]
    refine ⟨h.once, List.pairwise_singleton _ _, ?_⟩
    intro a ha b hb heq
    rw [List.mem_singleton.mp hb] at heq
    rw [heq] at ha
    exact hnew ha
  · intro id'
    rw [hclosed, haccepted, List.mem_append, List.mem_singleton, h.closed_iff id']
    constructor
    · rintro (⟨hlt, hnone⟩ | rfl)
      · exact ⟨hlt, fun fd' hin => hnone fd' (hstill fd' id' hin).2⟩
      · refine ⟨h.lt fd id' hfd, ?_⟩
        -- no other descriptor names the same connection
        intro fd' hin
        rcases hstill fd' id' hin with ⟨hf, hin'⟩
        exact hf (h.inj fd' fd id' hin' hfd)
    · rintro ⟨hlt, hnone⟩
      by_cases heq : id' = id
      · exact Or.inr heq
      · refine Or.inl ⟨hlt, ?_⟩
        intro fd' hin
        have hf : fd' ≠ fd := by
          rintro rfl
          rw [hfd] at hin
          exact heq (Option.some.inj hin).symm
        exact hnone fd' (by rw [hother fd' hf]; exact hin)

/-! ## Slots and descriptors -/

/-- The slots hold exactly the open descriptors, one each. -/
structure Table (k : Kernel) (conns : Fin serverMaxConns → Slot) : Prop where
  kernel : k.Ok
  free_iff : ∀ i, (conns i).conn.state = .free ↔ (conns i).fd = none
  held : ∀ i fd, (conns i).fd = some fd → k.fds fd = some (conns i).life.id
  distinct : ∀ i j fd, (conns i).fd = some fd → (conns j).fd = some fd → i = j
  whole : ∀ fd id, k.fds fd = some id → ∃ i, (conns i).fd = some fd
  tame : k.wild = 0

theorem table_open : Table serverOpen.kernel serverOpen.conns where
  kernel := by
    refine ⟨?_, ?_, List.nodup_nil, ?_⟩
    · intro _ _ h
      cases h
    · intro _ _ _ h
      cases h
    · intro id
      constructor
      · intro h
        cases h
      · rintro ⟨h, -⟩
        exact absurd h (Nat.not_lt_zero id)
  free_iff := fun _ => ⟨fun _ => rfl, fun _ => rfl⟩
  held := fun _ _ h => by cases h
  distinct := fun _ _ _ h => by cases h
  whole := fun _ _ h => by cases h
  tame := rfl

/-- A slot that keeps its connection. -/
theorem Table.set {s : Server} (h : Table s.kernel s.conns) (i : Fin serverMaxConns) {c : Slot}
    (hfd : c.fd = (s.conns i).fd) (hid : c.life.id = (s.conns i).life.id)
    (hbusy : (s.conns i).Busy) (hc : c.Busy) : Table s.kernel (s.set i c).conns := by
  have hfds : ∀ j, ((s.set i c).conns j).fd = (s.conns j).fd ∧
      ((s.set i c).conns j).life.id = (s.conns j).life.id := by
    intro j
    by_cases hj : j = i
    · subst hj
      rw [set_conns_self]
      exact ⟨hfd, hid⟩
    · rw [set_conns_of_ne s hj]
      exact ⟨rfl, rfl⟩
  refine ⟨h.kernel, ?_, ?_, ?_, ?_, h.tame⟩
  · intro j
    by_cases hj : j = i
    · subst hj
      rw [set_conns_self]
      constructor
      · intro hfree
        exact absurd hfree hc
      · intro hnone
        rw [hfd] at hnone
        exact absurd ((h.free_iff j).mpr hnone) hbusy
    · rw [set_conns_of_ne s hj]
      exact h.free_iff j
  · intro j fd hj
    rw [(hfds j).1] at hj
    rw [(hfds j).2]
    exact h.held j fd hj
  · intro j l fd hj hl
    rw [(hfds j).1] at hj
    rw [(hfds l).1] at hl
    exact h.distinct j l fd hj hl
  · intro fd id hin
    rcases h.whole fd id hin with ⟨j, hj⟩
    exact ⟨j, by rw [(hfds j).1]; exact hj⟩

/-- A connection that is closed. -/
theorem Table.close {s : Server} (h : Table s.kernel s.conns) (i : Fin serverMaxConns)
    (hbusy : (s.conns i).Busy) (how : End) :
    Table (closeConn s i how).kernel (closeConn s i how).conns := by
  rcases closeConn_conns s i how with ⟨hfree, hnone, hframe⟩
  have hfd : ∃ fd, (s.conns i).fd = some fd := by
    cases hcase : (s.conns i).fd with
    | none => exact absurd ((h.free_iff i).mpr hcase) hbusy
    | some fd => exact ⟨fd, rfl⟩
  rcases hfd with ⟨fd, hfd⟩
  have hheld := h.held i fd hfd
  have hkernel : (closeConn s i how).kernel = s.kernel.close fd := by
    unfold closeConn
    dsimp only
    rw [hfd]
  rcases close_fds hheld with ⟨hself, hother⟩
  have hwild : (s.kernel.close fd).wild = s.kernel.wild := by rw [close_eq hheld]
  rw [hkernel]
  -- the other slots hold other descriptors
  have hne : ∀ j fd', j ≠ i → (s.conns j).fd = some fd' → fd' ≠ fd := by
    rintro j fd' hj hjfd rfl
    exact hj (h.distinct j i fd' hjfd hfd)
  refine ⟨h.kernel.close hheld, ?_, ?_, ?_, ?_, by rw [hwild]; exact h.tame⟩
  · intro j
    by_cases hj : j = i
    · subst hj
      exact ⟨fun _ => hnone, fun _ => hfree⟩
    · rw [hframe j hj]
      exact h.free_iff j
  · intro j fd' hjfd
    by_cases hj : j = i
    · subst hj
      rw [hnone] at hjfd
      cases hjfd
    · rw [hframe j hj] at hjfd ⊢
      rw [hother fd' (hne j fd' hj hjfd)]
      exact h.held j fd' hjfd
  · intro j l fd' hjfd hlfd
    by_cases hj : j = i
    · subst hj
      rw [hnone] at hjfd
      cases hjfd
    · by_cases hl : l = i
      · subst hl
        rw [hnone] at hlfd
        cases hlfd
      · rw [hframe j hj] at hjfd
        rw [hframe l hl] at hlfd
        exact h.distinct j l fd' hjfd hlfd
  · intro fd' id hin
    have hf : fd' ≠ fd := by
      rintro rfl
      rw [hself] at hin
      cases hin
    rw [hother fd' hf] at hin
    rcases h.whole fd' id hin with ⟨j, hj⟩
    have hji : j ≠ i := by
      rintro rfl
      rw [hfd] at hj
      exact hf (Option.some.inj hj).symm
    exact ⟨j, by rw [hframe j hji]; exact hj⟩

/-- A connection that is accepted into a free slot. -/
theorem Table.accept {s : Server} (h : Table s.kernel s.conns) {i : Fin serverMaxConns} {fd : ℕ}
    (hfree : (s.conns i).conn.state = .free) (hfd : s.kernel.fds fd = none) (now : ℕ) :
    Table (acceptInto s i fd now).kernel (acceptInto s i fd now).conns := by
  have hself : (acceptInto s i fd now).conns i = { s.conns i with
      conn := .fresh
      fd := some fd
      deadline := now + serverDeadlineMs
      life := ⟨s.kernel.accepted, now, 0, [], []⟩ } := set_conns_self s i _
  have hframe : ∀ j, j ≠ i → (acceptInto s i fd now).conns j = s.conns j := fun j hj =>
    set_conns_of_ne s hj _
  have hkernel : (acceptInto s i fd now).kernel = s.kernel.accept fd := rfl
  rw [hkernel]
  -- no slot holds the new descriptor yet
  have hnew : ∀ j fd', j ≠ i → (s.conns j).fd = some fd' → fd' ≠ fd := by
    rintro j fd' - hjfd rfl
    rw [h.held j fd' hjfd] at hfd
    cases hfd
  refine ⟨h.kernel.accept hfd, ?_, ?_, ?_, ?_, h.tame⟩
  · intro j
    by_cases hj : j = i
    · subst hj
      rw [hself]
      constructor
      · intro hstate
        cases hstate
      · intro hnone
        cases hnone
    · rw [hframe j hj]
      exact h.free_iff j
  · intro j fd' hjfd
    by_cases hj : j = i
    · subst hj
      rw [hself] at hjfd ⊢
      rw [← Option.some.inj hjfd]
      exact accept_fds_self s.kernel fd
    · rw [hframe j hj] at hjfd ⊢
      rw [accept_fds_of_ne s.kernel (hnew j fd' hj hjfd)]
      exact h.held j fd' hjfd
  · intro j l fd' hjfd hlfd
    by_cases hj : j = i
    · by_cases hl : l = i
      · rw [hj, hl]
      · rw [hj, hself] at hjfd
        rw [hframe l hl] at hlfd
        exact absurd (Option.some.inj hjfd).symm (hnew l fd' hl hlfd)
    · by_cases hl : l = i
      · rw [hframe j hj] at hjfd
        rw [hl, hself] at hlfd
        exact absurd (Option.some.inj hlfd).symm (hnew j fd' hj hjfd)
      · rw [hframe j hj] at hjfd
        rw [hframe l hl] at hlfd
        exact h.distinct j l fd' hjfd hlfd
  · intro fd' id hin
    by_cases hf : fd' = fd
    · refine ⟨i, ?_⟩
      rw [hself, hf]
    · rw [accept_fds_of_ne s.kernel hf] at hin
      rcases h.whole fd' id hin with ⟨j, hj⟩
      have hji : j ≠ i := by
        rintro rfl
        rw [(h.free_iff j).mp hfree] at hj
        cases hj
      exact ⟨j, by rw [hframe j hji]; exact hj⟩

/-- A connection that is refused is closed at once. -/
theorem Table.drop {s : Server} (h : Table s.kernel s.conns) {fd : ℕ}
    (hfd : s.kernel.fds fd = none) (now : ℕ) :
    Table (dropConn s fd now).kernel (dropConn s fd now).conns := by
  have hopen := accept_fds_self s.kernel fd
  rcases close_fds hopen with ⟨hself, hother⟩
  have hback : ∀ fd', ((s.kernel.accept fd).close fd).fds fd' = s.kernel.fds fd' := by
    intro fd'
    by_cases hf : fd' = fd
    · rw [hf, hself, hfd]
    · rw [hother fd' hf, accept_fds_of_ne s.kernel hf]
  have hwild : ((s.kernel.accept fd).close fd).wild = s.kernel.wild := by
    rw [close_eq hopen]
    rfl
  refine ⟨(h.kernel.accept hfd).close hopen, h.free_iff, ?_, h.distinct, ?_, ?_⟩
  · intro j fd' hj
    show ((s.kernel.accept fd).close fd).fds fd' = _
    rw [hback]
    exact h.held j fd' hj
  · intro fd' id hin
    have hin' : ((s.kernel.accept fd).close fd).fds fd' = some id := hin
    rw [hback] at hin'
    exact h.whole fd' id hin'
  · show ((s.kernel.accept fd).close fd).wild = 0
    rw [hwild]
    exact h.tame

/-- Every move keeps the slots and the descriptors together. -/
theorem move_table {now : ℕ} {s s' : Server} (hmove : Move now s s')
    (h : Table s.kernel s.conns) : Table s'.kernel s'.conns := by
  cases hmove with
  | flags listening acceptResume => exact h
  | accept i fd hfree hfd => exact h.accept hfree hfd now
  | drop fd hfd => exact h.drop hfd now
  | receive i conn hread hconn hparse =>
      exact h.set i rfl rfl (Slot.busy_of_reading hread) (Slot.busy_of_reading hconn)
  | begin i conn out answer result hread hconn hparse hout =>
      exact h.set i rfl rfl (Slot.busy_of_reading hread) (Slot.busy_of_writing hconn)
  | send i r answer hwrite hr =>
      exact h.set i rfl rfl (Slot.busy_of_writing hwrite) (Slot.busy_of_writing hwrite)
  | finish i answer hwrite =>
      have hbusy : ((s.conns i).advance ((s.conns i).out.outEnd - (s.conns i).out.outPos)).Busy :=
        Slot.busy_of_writing hwrite
      refine @Table.close (s.set i _) ?_ i ?_ .served
      · exact h.set i rfl rfl (Slot.busy_of_writing hwrite) hbusy
      · rw [set_conns_self]
        exact hbusy
  | fail i hbusy => exact h.close i hbusy .failed
  | timeout i hbusy => exact h.close i hbusy .timedOut
  | shut i hbusy => exact h.close i hbusy .shut

/-! ## The counters -/

/-- How many connections are in the table. -/
def occupied (conns : Fin serverMaxConns → Slot) : ℕ :=
  (Finset.univ.filter fun i => (conns i).Busy).card

/-- How many connections ended in this way. -/
def ended (past : List (Life × End)) (how : End) : ℕ := past.countP fun p => p.2 = how

/-- The counters and the connections that are over. -/
structure Books (s : Server) : Prop where
  total : s.kernel.accepted = s.past.length + occupied s.conns
  served : s.served = ended s.past .served
  drops : s.drops = ended s.past .dropped
  timeouts : s.timeouts = ended s.past .timedOut

/-- A slot that stays busy. -/
theorem occupied_set {s : Server} {i : Fin serverMaxConns} {c : Slot} (hbusy : (s.conns i).Busy)
    (hc : c.Busy) : occupied (s.set i c).conns = occupied s.conns := by
  unfold occupied
  congr 1
  apply Finset.filter_congr
  intro j _
  by_cases hj : j = i
  · subst hj
    rw [set_conns_self]
    exact ⟨fun _ => hbusy, fun _ => hc⟩
  · rw [set_conns_of_ne s hj]

/-- One slot more, where the others are as they were. -/
theorem occupied_add {conns conns' : Fin serverMaxConns → Slot} {i : Fin serverMaxConns}
    (hfree : ¬ (conns i).Busy) (hbusy : (conns' i).Busy)
    (hframe : ∀ j, j ≠ i → conns' j = conns j) : occupied conns' = occupied conns + 1 := by
  unfold occupied
  have hinsert : (Finset.univ.filter fun j => (conns' j).Busy) =
      insert i (Finset.univ.filter fun j => (conns j).Busy) := by
    ext j
    simp only [Finset.mem_filter, Finset.mem_univ, true_and, Finset.mem_insert]
    by_cases hj : j = i
    · subst hj
      exact ⟨fun _ => Or.inl rfl, fun _ => hbusy⟩
    · rw [hframe j hj]
      exact ⟨Or.inr, fun h => h.resolve_left hj⟩
  have hnot : i ∉ Finset.univ.filter fun j => (conns j).Busy := by
    simp only [Finset.mem_filter, Finset.mem_univ, true_and]
    exact hfree
  rw [hinsert, Finset.card_insert_of_notMem hnot]

theorem Books.set {s : Server} (h : Books s) (i : Fin serverMaxConns) {c : Slot}
    (hbusy : (s.conns i).Busy) (hc : c.Busy) : Books (s.set i c) := by
  refine ⟨?_, h.served, h.drops, h.timeouts⟩
  rw [occupied_set hbusy hc]
  exact h.total

theorem ended_append (past : List (Life × End)) (life : Life) (how how' : End) :
    ended (past ++ [(life, how)]) how' = ended past how' + if how = how' then 1 else 0 := by
  unfold ended
  rw [List.countP_append, List.countP_singleton]
  simp only [decide_eq_true_eq]

theorem closeConn_books (s : Server) {i : Fin serverMaxConns} (how : End) (hbusy : (s.conns i).Busy) :
    (closeConn s i how).kernel.accepted = s.kernel.accepted ∧
    (closeConn s i how).past = s.past ++ [((s.conns i).life, how)] ∧
    occupied s.conns = occupied (closeConn s i how).conns + 1 := by
  refine ⟨?_, rfl, ?_⟩
  · unfold closeConn
    dsimp only
    cases (s.conns i).fd with
    | none => rfl
    | some fd =>
        dsimp only
        unfold Kernel.close
        split
        · rfl
        · rfl
  · rcases closeConn_conns s i how with ⟨hfree, -, hframe⟩
    exact occupied_add (not_not.mpr hfree) hbusy fun j hj => (hframe j hj).symm

/-- A connection that ends is counted where its end says. -/
theorem Books.close {s s' : Server} (h : Books s) {i : Fin serverMaxConns} (hbusy : (s.conns i).Busy)
    (how : End) (hkernel : s'.kernel = (closeConn s i how).kernel)
    (hconns : s'.conns = (closeConn s i how).conns) (hpast : s'.past = (closeConn s i how).past)
    (hserved : s'.served = s.served + if how = .served then 1 else 0)
    (hdrops : s'.drops = s.drops + if how = .dropped then 1 else 0)
    (htimeouts : s'.timeouts = s.timeouts + if how = .timedOut then 1 else 0) : Books s' := by
  rcases closeConn_books s how hbusy with ⟨haccepted, hpast', hoccupied⟩
  have htotal := h.total
  refine ⟨?_, ?_, ?_, ?_⟩
  · rw [hkernel, hconns, hpast, haccepted, hpast', List.length_append, List.length_singleton]
    omega
  · rw [hpast, hpast', ended_append, hserved, h.served]
  · rw [hpast, hpast', ended_append, hdrops, h.drops]
  · rw [hpast, hpast', ended_append, htimeouts, h.timeouts]

/-- Every move keeps the books. -/
theorem move_books {now : ℕ} {s s' : Server} (hmove : Move now s s') (h : Books s) : Books s' := by
  cases hmove with
  | flags listening acceptResume => exact ⟨h.total, h.served, h.drops, h.timeouts⟩
  | accept i fd hfree hfd =>
      have hframe : ∀ j, j ≠ i → (acceptInto s i fd now).conns j = s.conns j := fun j hj =>
        set_conns_of_ne s hj _
      have hbusy : ((acceptInto s i fd now).conns i).Busy := by
        refine Slot.busy_of_reading ?_
        show ((s.set i _).conns i).conn.state = _
        rw [set_conns_self]
        rfl
      have htotal := h.total
      refine ⟨?_, h.served, h.drops, h.timeouts⟩
      show s.kernel.accepted + 1 = s.past.length + occupied _
      -- one connection more is accepted, and one slot more is occupied
      rw [occupied_add (not_not.mpr hfree) hbusy hframe]
      omega
  | drop fd hfd =>
      -- accepted and closed at once, so it is in the past already
      have haccepted : (dropConn s fd now).kernel.accepted = s.kernel.accepted + 1 := by
        show ((s.kernel.accept fd).close fd).accepted = _
        rw [close_eq (accept_fds_self s.kernel fd)]
        rfl
      have htotal := h.total
      refine ⟨?_, ?_, ?_, ?_⟩
      · rw [haccepted]
        show _ = (s.past ++ [_]).length + occupied s.conns
        rw [List.length_append, List.length_singleton]
        omega
      · show s.served = ended (s.past ++ [_]) .served
        rw [ended_append, ← h.served]
        rfl
      · show s.drops + 1 = ended (s.past ++ [_]) .dropped
        rw [ended_append, ← h.drops]
        rfl
      · show s.timeouts = ended (s.past ++ [_]) .timedOut
        rw [ended_append, ← h.timeouts]
        rfl
  | receive i conn hread hconn hparse =>
      exact h.set i (Slot.busy_of_reading hread) (Slot.busy_of_reading hconn)
  | begin i conn out answer result hread hconn hparse hout =>
      exact h.set i (Slot.busy_of_reading hread) (Slot.busy_of_writing hconn)
  | send i r answer hwrite hr =>
      exact h.set i (Slot.busy_of_writing hwrite) (Slot.busy_of_writing hwrite)
  | finish i answer hwrite =>
      have hbusy : ((s.conns i).advance ((s.conns i).out.outEnd - (s.conns i).out.outPos)).Busy :=
        Slot.busy_of_writing hwrite
      -- the last bytes are sent before the slot is given back
      have hset := h.set i (Slot.busy_of_writing hwrite) hbusy
      refine hset.close ?_ .served rfl rfl rfl rfl rfl rfl
      rw [set_conns_self]
      exact hbusy
  | fail i hbusy => exact h.close hbusy .failed rfl rfl rfl rfl rfl rfl
  | timeout i hbusy => exact h.close hbusy .timedOut rfl rfl rfl rfl rfl rfl
  | shut i hbusy => exact h.close hbusy .shut rfl rfl rfl rfl rfl rfl

/-- Every connection that is over ended in one of five ways. -/
theorem length_past (past : List (Life × End)) :
    past.length = ended past .served + ended past .timedOut + ended past .dropped +
      ended past .failed + ended past .shut := by
  induction past with
  | nil => rfl
  | cons p past ih =>
      have hcons : ∀ how, ended (p :: past) how = ended past how + if p.2 = how then 1 else 0 := by
        intro how
        unfold ended
        rw [List.countP_cons]
        simp only [decide_eq_true_eq]
      rw [List.length_cons, ih, hcons, hcons, hcons, hcons, hcons]
      cases p.2 <;> simp only [reduceCtorEq, if_true, if_false] <;> omega

/-! ## The result -/

/-- The state of a run. -/
abbrev serverRun (acts : List ServerAct) : Server := run Server.exec serverOpen acts

theorem run_table (acts : List ServerAct) : Table (serverRun acts).kernel (serverRun acts).conns :=
  run_of_moves table_open (fun _ _ _ hmove h => move_table hmove h) acts

theorem run_books (acts : List ServerAct) : Books (serverRun acts) :=
  run_of_moves ⟨rfl, rfl, rfl, rfl⟩ (fun _ _ _ hmove h => move_books hmove h) acts

/-- After any calls and whatever the kernel answered: a slot is free exactly
when it has no descriptor; the others hold distinct descriptors that are open;
every accepted connection was closed exactly once or is in one slot, and
`close` was called on nothing else; and the counters account for all of
them. -/
theorem descriptors_accounted (acts : List ServerAct) :
    (∀ i, ((serverRun acts).conns i).conn.state = .free ↔ ((serverRun acts).conns i).fd = none) ∧
    (∀ i j fd, ((serverRun acts).conns i).fd = some fd → ((serverRun acts).conns j).fd = some fd → i = j) ∧
    (∀ i fd, ((serverRun acts).conns i).fd = some fd →
      (serverRun acts).kernel.fds fd = some ((serverRun acts).conns i).life.id) ∧
    (serverRun acts).kernel.closed.Nodup ∧
    (∀ id < (serverRun acts).kernel.accepted,
      (id ∈ (serverRun acts).kernel.closed ↔
        ¬ ∃ i fd, ((serverRun acts).conns i).fd = some fd ∧ (serverRun acts).kernel.fds fd = some id)) ∧
    (serverRun acts).kernel.wild = 0 ∧
    (serverRun acts).kernel.accepted =
      (serverRun acts).served + (serverRun acts).timeouts + (serverRun acts).drops +
        ended (serverRun acts).past .failed + occupied (serverRun acts).conns +
        ended (serverRun acts).past .shut := by
  have htable := run_table acts
  have hbooks := run_books acts
  refine ⟨htable.free_iff, htable.distinct, htable.held, htable.kernel.once, ?_, htable.tame, ?_⟩
  · intro id hid
    rw [htable.kernel.closed_iff id]
    constructor
    · rintro ⟨-, hnone⟩ ⟨i, fd, -, hin⟩
      exact hnone fd hin
    · intro hnot
      refine ⟨hid, ?_⟩
      intro fd hin
      rcases htable.whole fd id hin with ⟨i, hi⟩
      exact hnot ⟨i, fd, hi, hin⟩
  · rw [hbooks.total, length_past, ← hbooks.served, ← hbooks.timeouts, ← hbooks.drops]
    omega

end Carwatch.Interface
