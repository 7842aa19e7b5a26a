import Carwatch.Store.Draining

/-!
# Carwatch.Store.Capacity — the batch buffer has room for what must go in it

`wal_add` looks for room before it opens a batch, and the BEGIN it writes then
is not in its sum; a first record that is refused leaves a batch of nothing but
that BEGIN. What keeps the COMMIT in reach all the same is that no record but an
open batch's comes near the limit.

* `Wal.Ready` — the invariant of the buffer, kept by `wal_add` and
  `wal_commit` whatever their arguments and their outcome; `ready_of_reached`
  for a whole session.
* `Wal.Ready.takes` — a batch of `storaged`: 64 samples and a note for each
  ring go in, and none is refused.
* `Storaged.Fits` — the same of every run of `storaged`. It says nothing about
  the log, so it needs no undo to succeed.
* `batch_buffer_has_room` — the three together.
-/

namespace Carwatch.Store

open Carwatch.Lib Carwatch.Ipc

/-! ## The buffer of one session -/

/-- What holds of `*w` between two calls. -/
structure Wal.Ready (w : Wal) : Prop where
  src : srcIsValid w.src = true
  closed : w.openBatch = false → w.buf = []
  opened : w.openBatch = true → 52 ≤ w.buf.length ∧ w.buf.length ≤ walBufBytes - 60

/-- The sessions that can come about: `wal_open` with a valid source, and then
any calls in any order. A commit may fail at any of its system calls. -/
inductive Reached : Wal → Prop
  | opened {src flags : UInt8} {io : OpenAns} {d d' : Dir} {w : Wal}
      (hsrc : srcIsValid src = true) (h : walOpenLog src flags io d = (some (true, w), d')) :
      Reached w
  | added {w : Wal} (h : Reached w) (kind : UInt16) (src : UInt8) (now : Now) (body : Body)
      (clk : BeginClock) (hkind : kind ≠ RecKind.begin.code ∧ kind ≠ RecKind.commit.code) :
      Reached (walAdd w kind src now body clk).2
  | committed {w w' : Wal} (h : Reached w) {now : Now} {io : CommitAns} {d d' : Dir} {ok : Bool}
      (hrun : walCommit w now io d = (some (ok, w'), d')) : Reached w'

/-- A freshly opened session holds no batch. -/
theorem walOpenLog_fresh {src flags : UInt8} {io : OpenAns} {d d' : Dir} {w : Wal}
    (h : walOpenLog src flags io d = (some (true, w), d')) :
    w.src = src ∧ w.openBatch = false ∧ w.buf = [] ∧ w.batchSamples = 0 := by
  rcases walOpenLog_cases h with ⟨hfail, -⟩ | ⟨-, hcreate⟩ | ⟨first, -, hw, -⟩
  · exact absurd rfl (hfail w)
  · rcases createSegment_cases hcreate with ⟨hw, -⟩ | ⟨hw | ⟨hw, -⟩, -⟩
    · rw [(Prod.mk.inj (Option.some.inj hw)).2]
      exact ⟨rfl, rfl, rfl, rfl⟩
    · cases hw
    · cases (Prod.mk.inj (Option.some.inj hw)).1
  · rw [(Prod.mk.inj (Option.some.inj hw)).2]
    exact ⟨rfl, rfl, rfl, rfl⟩

/-- A record the encoder took has a body of at most 204 bytes. -/
theorem append_body_le {w w' : Wal} {kind : UInt16} {src : UInt8} {now : Now} {body : Body}
    (h : append w kind src now body = some w') : body.bytes.length ≤ 204 := by
  have hlen := bodyLenOk_le (append_eq_some h).1.1.2.1
  change (UInt16.ofNat body.bytes.length).toNat ≤ 204 at hlen
  rwa [UInt16.toNat_ofNat', Nat.mod_eq_of_lt body.fits] at hlen

/-- Neither block of `wal_add` touches the source of the session. -/
theorem walBegin_src {w w' : Wal} {clk : BeginClock} {ok : Bool} (h : walBegin w clk = (ok, w')) :
    w'.src = w.src := by
  unfold walBegin at h
  split_ifs at h
  · rw [← (Prod.mk.inj h).2]
  · cases happ : append { w with batchSeq0 := w.nextSeq } RecKind.begin.code w.src clk.now
        (beginBody w.nextTxn) with
    | none =>
        simp only [happ] at h
        rw [← (Prod.mk.inj h).2]
    | some w₁ =>
        simp only [happ] at h
        rw [← (Prod.mk.inj h).2]
        show w₁.src = w.src
        rw [(append_eq_some happ).2]

theorem walAdd_src {w w' : Wal} {kind : UInt16} {src : UInt8} {now : Now} {body : Body}
    {clk : BeginClock} {ok : Bool} (h : walAdd w kind src now body clk = (ok, w')) :
    w'.src = w.src := by
  unfold walAdd at h
  split at h
  · rw [← (Prod.mk.inj h).2]
  · cases hbeg : walBegin w clk with
    | mk begun w₁ =>
        rw [← walBegin_src hbeg]
        rw [hbeg] at h
        cases begun with
        | false => rw [← (Prod.mk.inj h).2]
        | true =>
            simp only at h
            cases happ : append w₁ kind src now body with
            | none =>
                rw [happ] at h
                rw [← (Prod.mk.inj h).2]
            | some w₂ =>
                rw [happ] at h
                rw [← (Prod.mk.inj h).2]
                show w₂.src = w₁.src
                rw [(append_eq_some happ).2]

theorem AddReq.run_src (q : AddReq) (w : Wal) (clk : BeginClock) : (q.run w clk).2.src = w.src :=
  walAdd_src (show walAdd w q.kind q.src q.now q.body clk = q.run w clk from rfl)

/-- Opening a batch leaves a buffer of one BEGIN. -/
theorem Wal.Ready.begin {w w' : Wal} (h : w.Ready) {clk : BeginClock} {ok : Bool}
    (hrun : walBegin w clk = (ok, w')) :
    w'.Ready ∧ (ok = true → w'.openBatch = true ∧
      (w.openBatch = true ∧ w' = w ∨ w.openBatch = false ∧ w'.buf.length = 52)) := by
  have hsrc := walBegin_src hrun
  rcases walBegin_cases hrun with ⟨hopen, rfl, rfl⟩ | ⟨hclosed, rfl, rfl⟩ |
    ⟨hclosed, rfl, hopen, -, hlen⟩
  · exact ⟨h, fun _ => ⟨hopen, Or.inl ⟨hopen, rfl⟩⟩⟩
  · refine ⟨⟨h.src, h.closed, h.opened⟩, ?_⟩
    intro hok
    cases hok
  · rw [h.closed hclosed] at hlen
    refine ⟨⟨hsrc ▸ h.src, ?_, ?_⟩, fun _ => ⟨hopen, Or.inr ⟨hclosed, hlen⟩⟩⟩
    · intro hclosed'
      rw [hopen] at hclosed'
      cases hclosed'
    · intro _
      rw [hlen, walBufBytes_eq]
      exact ⟨Nat.le_refl _, by decide⟩

/-- The bytes of the batch a record would go into: an open one, or a new BEGIN. -/
def Wal.filled (w : Wal) : ℕ := if w.openBatch then w.buf.length else 52

/-- The two ways `wal_add` can go: nothing is stored but a BEGIN, or the record
stands behind what the batch held. -/
theorem Wal.Ready.add_cases {w w' : Wal} (h : w.Ready) {kind : UInt16} {src : UInt8} {now : Now}
    {body : Body} {clk : BeginClock} {ok : Bool}
    (hrun : walAdd w kind src now body clk = (ok, w')) :
    ok = false ∧ w'.Ready ∨
    ok = true ∧ w'.openBatch = true ∧ body.bytes.length ≤ 204 ∧
      w.buf.length + body.bytes.length + 104 ≤ walBufBytes ∧
      w'.buf.length = w.filled + (44 + body.bytes.length) := by
  unfold walAdd at hrun
  split at hrun
  · obtain ⟨rfl, rfl⟩ := Prod.mk.inj hrun
    exact Or.inl ⟨rfl, h⟩
  · rename_i hroom
    cases hbeg : walBegin w clk with
    | mk begun w₁ =>
        obtain ⟨h₁, hbegun⟩ := h.begin hbeg
        rw [hbeg] at hrun
        cases begun with
        | false =>
            obtain ⟨rfl, rfl⟩ := Prod.mk.inj hrun
            exact Or.inl ⟨rfl, h₁⟩
        | true =>
            obtain ⟨hopen₁, hbuf₁⟩ := hbegun rfl
            simp only at hrun
            cases happ : append w₁ kind src now body with
            | none =>
                -- a refused first record leaves the BEGIN alone in the batch
                rw [happ] at hrun
                obtain ⟨rfl, rfl⟩ := Prod.mk.inj hrun
                exact Or.inl ⟨rfl, h₁⟩
            | some w₂ =>
                rw [happ] at hrun
                obtain ⟨rfl, rfl⟩ := Prod.mk.inj hrun
                have hlen := (append_length happ).1
                have hfilled : w₁.buf.length = w.filled := by
                  unfold Wal.filled
                  rcases hbuf₁ with ⟨hopen, rfl⟩ | ⟨hclosed, hfirst⟩
                  · rw [if_pos hopen]
                  · rw [if_neg (by simp [hclosed]), hfirst]
                refine Or.inr ⟨rfl, ?_, append_body_le happ, ?_, ?_⟩
                · show w₂.openBatch = true
                  rw [(append_eq_some happ).2]
                  exact hopen₁
                · simp only [recHdrSize, recCrcSize] at hroom
                  omega
                · show w₂.buf.length = _
                  rw [hlen, hfilled]

/-- `wal_add` keeps the room, whatever it is asked to add. -/
theorem Wal.Ready.add {w w' : Wal} (h : w.Ready) {kind : UInt16} {src : UInt8} {now : Now}
    {body : Body} {clk : BeginClock} {ok : Bool}
    (hrun : walAdd w kind src now body clk = (ok, w')) : w'.Ready := by
  rcases h.add_cases hrun with ⟨-, hready⟩ | ⟨-, hopen', hbody, hroom, hlen⟩
  · exact hready
  · refine ⟨walAdd_src hrun ▸ h.src, ?_, ?_⟩
    · intro hclosed
      rw [hopen'] at hclosed
      cases hclosed
    · intro _
      unfold Wal.filled at hlen
      rw [walBufBytes_eq] at hroom ⊢
      cases hopen : w.openBatch with
      | true =>
          -- the check was about this very buffer
          have hge := (h.opened hopen).1
          rw [hopen, if_pos rfl] at hlen
          omega
      | false =>
          -- the check did not count the BEGIN, but a first record is small
          rw [hopen, if_neg Bool.false_ne_true] at hlen
          omega

/-- `wal_commit` empties the buffer, however it ends. -/
theorem Wal.Ready.commit {w w' : Wal} (h : w.Ready) {now : Now} {io : CommitAns} {d d' : Dir}
    {ok : Bool} (hrun : walCommit w now io d = (some (ok, w'), d')) : w'.Ready := by
  rcases walCommit_closed hrun with ⟨rfl, -⟩ | ⟨hclosed, -, hbuf, hsrc⟩
  · exact h
  · refine ⟨hsrc ▸ h.src, fun _ => hbuf, ?_⟩
    intro hopen
    rw [hclosed] at hopen
    cases hopen

theorem ready_of_reached {w : Wal} (h : Reached w) : w.Ready := by
  induction h with
  | opened hsrc h =>
      obtain ⟨rfl, hclosed, hbuf, -⟩ := walOpenLog_fresh h
      refine ⟨hsrc, fun _ => hbuf, ?_⟩
      intro hopen
      rw [hclosed] at hopen
      cases hopen
  | added h kind src now body clk hkind ih => exact ih.add Prod.mk.eta.symm
  | committed h hrun ih => exact ih.commit hrun

/-- The COMMIT of an open batch is never refused. -/
theorem Wal.Ready.commit_fits {w : Wal} (h : w.Ready) (hopen : w.openBatch = true) (now : Now) :
    append w RecKind.commit.code w.src now (commitBody w.nextTxn w.batchSamples) ≠ none := by
  have hle := (h.opened hopen).2
  have hbody : (commitBody w.nextTxn w.batchSamples).bytes.length = 16 := by simp [commitBody]
  obtain ⟨w₁, happ, -⟩ := append_of_acceptable
    (acceptable_commit h.src now w.nextTxn w.batchSamples)
    (show w.buf.length + (44 + (commitBody w.nextTxn w.batchSamples).bytes.length) ≤ walBufBytes by
      rw [hbody]
      rw [walBufBytes_eq] at hle ⊢
      omega)
  rw [happ]
  exact Option.some_ne_none w₁

/-! ## A batch of `storaged` -/

/-- None of these calls is refused. -/
def Wal.Takes : Wal → List (AddReq × BeginClock) → Prop
  | _, [] => True
  | w, (q, clk) :: rest => (q.run w clk).1 = true ∧ Wal.Takes (q.run w clk).2 rest

/-- Valid records are taken as long as their bytes leave room for a BEGIN and a
COMMIT. -/
theorem Wal.Ready.takes {w : Wal} (h : w.Ready) {reqs : List (AddReq × BeginClock)}
    (hvalid : ∀ x ∈ reqs, x.1.Valid)
    (hroom : w.filled + (reqs.map fun x => 44 + x.1.body.bytes.length).sum + 112 ≤ walBufBytes) :
    w.Takes reqs := by
  induction reqs generalizing w with
  | nil => trivial
  | cons x rest ih =>
      obtain ⟨q, clk⟩ := x
      rw [List.map_cons, List.sum_cons] at hroom
      have hbuf : w.buf.length ≤ w.filled := by
        unfold Wal.filled
        split_ifs with hopen
        · exact Nat.le_refl _
        · rw [h.closed (by simpa using hopen)]
          exact Nat.zero_le _
      have hok : (q.run w clk).1 = true :=
        AddReq.run_fits h.src (hvalid (q, clk) List.mem_cons_self)
          (show w.buf.length + q.body.bytes.length + 156 ≤ walBufBytes by
            simp only at hroom
            omega) clk
      refine ⟨hok, ?_⟩
      have hrun : walAdd w q.kind q.src q.now q.body clk = (q.run w clk) := rfl
      rcases h.add_cases (hrun.trans Prod.mk.eta.symm) with ⟨hno, -⟩ | ⟨-, hopen, -, -, hlen⟩
      · rw [hok] at hno
        cases hno
      · refine ih (h.add (hrun.trans Prod.mk.eta.symm)) ?_ ?_
        · intro y hy
          exact hvalid y (List.mem_cons_of_mem _ hy)
        · have hfilled : (q.run w clk).2.filled = w.filled + (44 + q.body.bytes.length) := by
            rw [← hlen]
            exact if_pos hopen
          simp only at hroom
          rw [hfilled]
          omega

/-- A call of `note_ring_seq`, if there is one: the seq and the clocks. -/
abbrev Note := Option (UInt64 × Now × BeginClock)

/-- The call of `wal_add` in `note_ring_seq`. -/
def noteReqs (w : Wal) (ns : Ns) (note : Note) : List (AddReq × BeginClock) :=
  note.toList.map fun x => (noteRingSeq ns x.1 w.src x.2.1, x.2.2)

/-- The calls of `wal_add` between two commits of `storaged`: the slots, and
then a note for each ring that has one. -/
def batchReqs (w : Wal) (slots : List (Slot × Now × BeginClock)) (notes : Ns → Note) :
    List (AddReq × BeginClock) :=
  slots.map (fun x => (sampleReq x.1 x.2.1, x.2.2)) ++ (noteReqs w 0 (notes 0) ++
    noteReqs w 1 (notes 1))

theorem noteReqs_spec {w : Wal} (hsrc : srcIsValid w.src = true) (ns : Ns) (note : Note) :
    (∀ x ∈ noteReqs w ns note, x.1.Valid) ∧
    ((noteReqs w ns note).map fun x => 44 + x.1.body.bytes.length).sum ≤ 82 := by
  cases note with
  | none =>
      refine ⟨?_, Nat.zero_le _⟩
      intro x hx
      cases hx
  | some note =>
      constructor
      · intro x hx
        rw [List.mem_singleton.mp hx]
        exact ringEvent_valid walEvRingSeq (.inr rfl) ns note.1 hsrc note.2.1
      · have hlen := length_ringEvent_le walEvRingSeq (.inr rfl) ns note.1 w.src note.2.1
        show 44 + (noteRingSeq ns note.1 w.src note.2.1).body.bytes.length + 0 ≤ 82
        change (noteRingSeq ns note.1 w.src note.2.1).body.bytes.length ≤ 38 at hlen
        omega

/-- 64 samples and two notes go into an empty batch, and none is refused. -/
theorem Wal.Ready.takes_batch {w : Wal} (h : w.Ready) (hclosed : w.openBatch = false)
    {slots : List (Slot × Now × BeginClock)} (hfew : slots.length ≤ walBatchSamples)
    (hsrc : ∀ x ∈ slots, srcIsValid x.1.src = true) (notes : Ns → Note) :
    w.Takes (batchReqs w slots notes) := by
  obtain ⟨hvalid₀, hsum₀⟩ := noteReqs_spec h.src 0 (notes 0)
  obtain ⟨hvalid₁, hsum₁⟩ := noteReqs_spec h.src 1 (notes 1)
  have hsamples : ((slots.map fun x => (sampleReq x.1 x.2.1, x.2.2)).map
      fun x => 44 + x.1.body.bytes.length).sum = slots.length * 56 := by
    rw [List.map_map]
    have hconst : (fun x : Slot × Now × BeginClock =>
        44 + (sampleReq x.1 x.2.1).body.bytes.length) = fun _ => 56 := by
      funext x
      rw [show (sampleReq x.1 x.2.1).body.bytes.length = 12 from length_sampleBody x.1]
    show (slots.map fun x => 44 + (sampleReq x.1 x.2.1).body.bytes.length).sum = _
    rw [hconst, List.map_const', List.sum_replicate_nat]
  refine h.takes ?_ ?_
  · intro x hx
    rcases List.mem_append.mp hx with hx | hx
    · obtain ⟨y, hy, rfl⟩ := List.mem_map.mp hx
      exact sampleReq_valid (hsrc y hy) y.2.1
    · rcases List.mem_append.mp hx with hx | hx
      · exact hvalid₀ x hx
      · exact hvalid₁ x hx
  · have hfilled : w.filled = 52 := if_neg (by simp [hclosed])
    unfold batchReqs
    simp only [walBatchSamples] at hfew
    rw [hfilled, List.map_append, List.map_append, List.sum_append, List.sum_append, hsamples,
      walBufBytes_eq]
    omega

/-! ## Every run of `storaged` -/

namespace Storaged

variable {s s' : Storaged} {w : Wal}

/-- What holds in every state of a run, whatever becomes of its commits. -/
structure Fits (s : Storaged) : Prop where
  slots : ∀ g, ∀ slot ∈ (s.rings g).items, srcIsValid slot.src = true
  live : s.pc = .down ∧ s.hist.wal = none ∨ s.pc ≠ .down ∧ ∃ w, s.Session w (82 * s.pc.notes)
  noted : s.pc.Noted

theorem Fits.session (h : s.Fits) (hw : s.hist.wal = some w) :
    s.pc ≠ .down ∧ s.Session w (82 * s.pc.notes) := by
  rcases h.live with ⟨-, hnone⟩ | ⟨hpc, w', hw'⟩
  · rw [hw] at hnone
    cases hnone
  · have heq := hw'.wal
    rw [hw] at heq
    obtain rfl := Option.some.inj heq
    exact ⟨hpc, hw'⟩

/-- A process that goes on with the rings it had. -/
theorem Fits.goOn (h : s.Fits) {c : ℕ} (hrings : s'.rings = s.rings) (hsession : s'.Session w c)
    (hpc : s'.pc ≠ .down) (hc : c ≤ 82 * s'.pc.notes) (hnoted : s'.pc.Noted) : s'.Fits :=
  ⟨hrings ▸ h.slots, Or.inr ⟨hpc, w, hsession.wal, hsession.src, hsession.room.mono hc⟩, hnoted⟩

/-- A process that is gone. -/
theorem Fits.exit (h : s.Fits) (hrings : s'.rings = s.rings) : s'.exit.Fits := by
  refine ⟨?_, Or.inl ⟨rfl, rfl⟩, trivial⟩
  show ∀ g, ∀ slot ∈ (s'.rings g).items, _
  rw [hrings]
  exact h.slots

/-- A step that does not concern the process. -/
theorem Fits.of_same (h : s.Fits)
    (hslots : ∀ g, ∀ slot ∈ (s'.rings g).items, srcIsValid slot.src = true)
    (hhist : s'.hist = s.hist) (hpc : s'.pc = s.pc) : s'.Fits := by
  refine ⟨hslots, ?_, hpc ▸ h.noted⟩
  rw [hhist, hpc]
  rcases h.live with hdown | ⟨hne, w, hs⟩
  · exact Or.inl hdown
  · exact Or.inr ⟨hne, w, hhist ▸ hs.wal, hs.src, hs.room⟩

/-- The session behind a record that is no sample. -/
theorem Session.add {c : ℕ} (h : s.Session w c) {q : AddReq}
    (hkind : q.kind ≠ RecKind.sample.code) (hlen : q.body.bytes.length ≤ 38) (clk : BeginClock) :
    (s.add q clk).2.Session (q.run w clk).2 (c + 82) := by
  rw [add_eq h.wal]
  refine ⟨rfl, ?_, h.room.add Prod.mk.eta.symm (by omega) (Or.inl ⟨hkind, by omega⟩)⟩
  rw [q.run_src]
  exact h.src

/-- A sample that `drain` adds: it is taken while the batch is not full. -/
theorem Session.addSample {c : ℕ} (h : s.Session w c) (hc : c ≤ 164)
    (hfew : w.batchSamples.toNat < walBatchSamples) {slot : Slot}
    (hvalid : srcIsValid slot.src = true) (now : Now) (clk : BeginClock) :
    (s.add (sampleReq slot now) clk).1 = true ∧
    (s.add (sampleReq slot now) clk).2.Session ((sampleReq slot now).run w clk).2 c := by
  have hlength : (sampleReq slot now).body.bytes.length = 12 := length_sampleBody slot
  have hlen := h.room.length_le
  rw [add_eq h.wal]
  refine ⟨?_, rfl, ?_, h.room.add Prod.mk.eta.symm le_rfl (Or.inr ⟨rfl, hlength, hfew⟩)⟩
  · refine AddReq.run_fits h.src (sampleReq_valid hvalid now) ?_ clk
    rw [hlength, walBufBytes_eq]
    omega
  · rw [AddReq.run_src]
    exact h.src

theorem add_rings (s : Storaged) (q : AddReq) (clk : BeginClock) :
    (s.add q clk).2.rings = s.rings := by
  unfold add
  cases s.hist.wal <;> rfl

/-- The session behind a commit that returned, whatever it returned. -/
theorem Session.commit {c : ℕ} (h : s.Session w c) {now : Now} {io : CommitAns} {r : Option Bool}
    (hrun : s.walCommit now io = (r, s')) :
    s'.rings = s.rings ∧ (r ≠ none → ∃ w', s'.Session w' 0) := by
  unfold walCommit at hrun
  rw [h.wal] at hrun
  obtain ⟨hr, rfl⟩ := Prod.mk.inj hrun
  refine ⟨rfl, ?_⟩
  intro hne
  cases hcommit : Store.walCommit w now io s.hist.dir with
  | mk res d =>
      rcases res with _ | ⟨ok, w'⟩
      · rw [hcommit] at hr
        exact absurd hr.symm hne
      · refine ⟨w', ?_, ?_, h.room.commit hcommit⟩
        · simp only [Hist.apply, h.wal, hcommit]
          cases ok <;> rfl
        · rcases walCommit_closed hcommit with ⟨rfl, -⟩ | ⟨-, -, -, hsrc⟩
          · exact h.src
          · rw [hsrc]
            exact h.src

/-! ### Steps -/

/-- An event behind which `main` goes on only if it is taken. -/
theorem Fits.addOrExit (h : s.Fits) (hrings : s'.rings = s.rings) (hsession : s'.Session w 0)
    {q : AddReq} (hkind : q.kind ≠ RecKind.sample.code) (hlen : q.body.bytes.length ≤ 38)
    (clk : BeginClock) {pc : Pc} (hpc : pc ≠ .down) (hc : 1 ≤ pc.notes) (hnoted : pc.Noted) :
    (match s'.add q clk with
      | (true, s) => { s with pc := pc }
      | (false, s) => s.exit).Fits := by
  have hadd := hsession.add hkind hlen clk
  have hrings₁ := (add_rings s' q clk).trans hrings
  cases hrun : s'.add q clk with
  | mk ok s₁ =>
      rw [hrun] at hadd hrings₁
      cases ok with
      | true =>
          exact @Fits.goOn s { s₁ with pc := pc } _ h _ hrings₁ ⟨hadd.wal, hadd.src, hadd.room⟩ hpc
            (by show 0 + 82 ≤ 82 * pc.notes; omega) hnoted
      | false => exact h.exit hrings₁

/-- A commit behind which `main` goes on only if it succeeds. -/
theorem Fits.commitOrExit (h : s.Fits) (hw : s.hist.wal = some w) (env : Env) {pc : Pc}
    (hpc : pc ≠ .down) (hnoted : pc.Noted) :
    (match s.walCommit env.now env.commit with
      | (some true, s) => { s with pc := pc }
      | (_, s) => s.exit).Fits := by
  cases hrun : s.walCommit env.now env.commit with
  | mk r s₁ =>
      obtain ⟨hrings, hafter⟩ := (h.session hw).2.commit hrun
      rcases r with _ | _ | _
      · exact h.exit hrings
      · exact h.exit hrings
      · obtain ⟨w', hs⟩ := hafter (Option.some_ne_none true)
        exact @Fits.goOn s { s₁ with pc := pc } _ h _ hrings ⟨hs.wal, hs.src, hs.room⟩ hpc
          (Nat.zero_le _) hnoted

theorem Fits.noteGen (h : s.Fits) (hw : s.hist.wal = some w) {ns : Ns} (hpc : s.pc = .noteGen ns)
    (env : Env) : (s.noteGen w ns env).Fits := by
  have hsession := (h.session hw).2
  rw [hpc] at hsession
  unfold Storaged.noteGen
  cases hring : (s.srcs ns).ring with
  | none =>
      exact @Fits.goOn s { s with pc := nextGen ns } w h _ rfl
        ⟨hsession.wal, hsession.src, hsession.room⟩ (nextGen_ne_down ns).1 (Nat.zero_le _)
        (nextGen_ne_down ns).2
  | some gen =>
      dsimp only
      generalize decideSkip w.recovered ns gen (s.srcs ns) = src
      refine @Fits.addOrExit s (s.setSrc ns src) w h rfl
        ⟨hsession.wal, hsession.src, hsession.room⟩ _ ?_ ?_ env.clk _ Pc.noConfusion le_rfl trivial
      · intro hkind
        cases hkind
      · exact length_ringEvent_le walEvRingGen (.inl rfl) ns gen w.src env.now

/-- One round of `drain`: a slot that is peeked for the batch goes in. -/
theorem Fits.drain (h : s.Fits) (hw : s.hist.wal = some w) {ns : Ns} (hpc : s.pc = .drain ns)
    (env : Env) : (s.drain w ns env).Fits := by
  obtain ⟨hrun, hsession⟩ := h.session hw
  rw [hpc] at hsession
  rcases drain_cases s w ns env with hend | ⟨gen, slot, hring, hfew, hpeek, ⟨-, hskip⟩ | ⟨-, htake⟩⟩
  · rw [hend]
    refine @Fits.goOn s { s with pc := nextDrain ns } w h 0 rfl
      ⟨hsession.wal, hsession.src, hsession.room⟩ ?_ (Nat.zero_le _) ?_
    · show nextDrain ns ≠ .down
      unfold nextDrain
      split_ifs <;> exact Pc.noConfusion
    · show (nextDrain ns).Noted
      unfold nextDrain
      split_ifs <;> trivial
  · rw [hskip]
    exact h.of_same h.slots rfl rfl
  · have hvalid := h.slots gen slot (List.mem_of_getElem? hpeek)
    obtain ⟨hok, hs⟩ := hsession.addSample (Nat.zero_le _) hfew hvalid env.now env.clk
    rw [htake hok]
    rw [add_eq hw] at hs ⊢
    exact @Fits.goOn s _ _ h 0 rfl ⟨rfl, hs.src, hs.room⟩ hrun (Nat.zero_le _) h.noted

/-- `note_ring_seq` does not fail. -/
theorem Fits.noteSeq (h : s.Fits) (hw : s.hist.wal = some w) {stop noted : Bool} {ns : Ns}
    (hpc : s.pc = .noteSeq stop noted ns) (env : Env) : (s.noteSeq w stop noted ns env).Fits := by
  have hsession := (h.session hw).2
  have hnoted := h.noted
  rw [hpc] at hsession hnoted
  obtain rfl : noted = true := hnoted
  have hns : ns.val ≤ 1 := Nat.le_of_lt_succ ns.isLt
  -- where the next step stands
  have hnext : ∀ s' : Storaged, ∀ w', s'.rings = s.rings → s'.Session w' (82 * ns.val + 82) →
      { s' with pc := if ns = 0 then .noteSeq stop true 1 else .commit stop true }.Fits := by
    intro s' w' hrings hs
    refine @Fits.goOn s { s' with pc := _ } w' h (82 * ns.val + 82) hrings
      ⟨hs.wal, hs.src, hs.room⟩ ?_ ?_ ?_
    · dsimp only
      split_ifs <;> exact Pc.noConfusion
    · dsimp only
      split_ifs with h0
      · rw [h0]
        exact le_rfl
      · show 82 * ns.val + 82 ≤ 82 * 2
        omega
    · dsimp only
      split_ifs <;> rfl
  unfold Storaged.noteSeq
  dsimp only
  by_cases hadded : (s.srcs ns).added = true
  · rw [if_pos hadded]
    have hlen := length_ringEvent_le walEvRingSeq (.inr rfl) ns (s.srcs ns).lastSeq w.src env.now
    have hadd := hsession.add (q := noteRingSeq ns (s.srcs ns).lastSeq w.src env.now)
      (by intro hkind; cases hkind) hlen env.clk
    rw [hsession.noted ns (s.srcs ns).lastSeq env.now env.clk]
    exact hnext _ _ (add_rings s _ env.clk) hadd
  · rw [if_neg hadded]
    exact hnext s w rfl ⟨hsession.wal, hsession.src, hsession.room.mono (Nat.le_add_right _ _)⟩

theorem Fits.commitBatch (h : s.Fits) (hw : s.hist.wal = some w) {stop noted : Bool}
    (hpc : s.pc = .commit stop noted) (env : Env) : (s.commitBatch stop noted env).Fits := by
  have hnoted := h.noted
  rw [hpc] at hnoted
  obtain rfl : noted = true := hnoted
  unfold Storaged.commitBatch
  rw [if_neg (by simp)]
  cases hrun : s.walCommit env.now env.commit with
  | mk r s₁ =>
      obtain ⟨hrings, hafter⟩ := (h.session hw).2.commit hrun
      cases r with
      | none => exact h.exit hrings
      | some ok =>
          obtain ⟨w', hs⟩ := hafter (Option.some_ne_none ok)
          have hgo : ∀ (pc : Pc) (srcs : Ns → Source), pc ≠ .down → pc.Noted →
              { s₁ with pc := pc, srcs := srcs }.Fits := fun pc srcs hdown hnoted =>
            @Fits.goOn s { s₁ with pc := pc, srcs := srcs } w' h 0 hrings
              ⟨hs.wal, hs.src, hs.room⟩ hdown (Nat.zero_le _) hnoted
          cases ok with
          | true => exact hgo (.release stop 0) s₁.srcs Pc.noConfusion trivial
          | false =>
              dsimp only
              split_ifs
              · exact hgo .closeCommit s₁.srcs Pc.noConfusion trivial
              · exact hgo .top _ Pc.noConfusion trivial

theorem Fits.release (h : s.Fits) (hw : s.hist.wal = some w) {stop : Bool} {ns : Ns}
    (hpc : s.pc = .release stop ns) : (s.release stop ns).Fits := by
  have hsession := (h.session hw).2
  rw [hpc] at hsession
  have hgo : ∀ rings srcs, (∀ g, (rings g).items = (s.rings g).items) →
      { s with
        rings := rings
        srcs := srcs
        pc := if ns = 0 then .release stop 1 else if stop then .closeCommit else .top }.Fits := by
    intro rings srcs hitems
    refine ⟨?_, Or.inr ⟨?_, w, hsession.wal, hsession.src, hsession.room.mono (Nat.zero_le _)⟩, ?_⟩
    · intro g slot hslot
      exact h.slots g slot (hitems g ▸ hslot)
    · dsimp only
      split_ifs <;> exact Pc.noConfusion
    · dsimp only
      split_ifs <;> trivial
  cases hring : (s.srcs ns).ring with
  | none =>
      rw [release_none hring]
      exact hgo s.rings _ fun _ => rfl
  | some gen =>
      rw [release_some hring]
      refine hgo _ _ ?_
      intro g
      by_cases hg : g = gen
      · rw [hg, Function.update_self, Fifo.release_items]
      · rw [Function.update_of_ne hg]

/-- Every step of `main`. -/
theorem Fits.advance (h : s.Fits) (hw : s.hist.wal = some w) (env : Env) :
    (s.advance w env).Fits := by
  obtain ⟨hrun, hsession⟩ := h.session hw
  have hboot : (Hist.bootReq w { bootNow := env.now }).body.bytes.length = 12 := by
    simp [Hist.bootReq, bootBody]
  have hshut : (Hist.shutReq w recShutSignal { shutNow := env.now }).body.bytes.length = 8 := by
    simp [Hist.shutReq, shutdownBody]
  have hgo : ∀ pc : Pc, s.Session w 0 → pc ≠ .down → pc.Noted → { s with pc := pc }.Fits :=
    fun pc hs hdown hnoted => @Fits.goOn s { s with pc := pc } w h 0 rfl
      ⟨hs.wal, hs.src, hs.room⟩ hdown (Nat.zero_le _) hnoted
  unfold Storaged.advance
  cases hpc : s.pc with
  | down => exact absurd hpc hrun
  | boot =>
      rw [hpc] at hsession
      refine h.addOrExit rfl hsession ?_ (by rw [hboot]; omega) env.clk Pc.noConfusion le_rfl trivial
      exact ne_of_beq_false rfl
  | bootCommit => exact h.commitOrExit hw env Pc.noConfusion trivial
  | noteGen ns => exact h.noteGen hw hpc env
  | genCommit ns => exact h.commitOrExit hw env (nextGen_ne_down ns).1 (nextGen_ne_down ns).2
  | top =>
      rw [hpc] at hsession
      refine hgo _ hsession ?_ ?_
      · split_ifs <;> exact Pc.noConfusion
      · split_ifs
        · rfl
        · trivial
  | drain ns => exact h.drain hw hpc env
  | due =>
      rw [hpc] at hsession
      refine hgo _ hsession ?_ ?_
      · split_ifs <;> exact Pc.noConfusion
      · split_ifs
        · rfl
        · trivial
  | noteSeq stop noted ns => exact h.noteSeq hw hpc env
  | commit stop noted => exact h.commitBatch hw hpc env
  | release stop ns => exact h.release hw hpc
  | closeCommit => exact h.commitOrExit hw env Pc.noConfusion trivial
  | shutdown =>
      rw [hpc] at hsession
      refine h.addOrExit rfl hsession ?_ (by rw [hshut]; omega) env.clk Pc.noConfusion le_rfl trivial
      exact ne_of_beq_false rfl
  | shutCommit => exact h.exit (hsession.commit (Prod.mk.eta.symm)).1

theorem Fits.start (h : s.Fits) (src : UInt8) (io : OpenAns) : (s.start src io).Fits := by
  unfold Storaged.start
  split_ifs with hguard
  · exact h
  · push Not at hguard
    obtain ⟨hpc, hsrc, -⟩ := hguard
    rcases h.live with ⟨-, hidle⟩ | ⟨hne, -⟩
    · dsimp only
      cases hwal : (s.hist.apply (.openLog src 0 io)).wal with
      | none => exact ⟨h.slots, Or.inl ⟨hpc, hwal⟩, h.noted⟩
      | some w =>
          have hfresh : w.src = src ∧ w.openBatch = false ∧ w.buf = [] ∧ w.batchSamples = 0 := by
            simp only [Hist.apply, hidle] at hwal
            cases hrun : walOpenLog src 0 io s.hist.dir with
            | mk r d =>
                rw [hrun] at hwal
                rcases r with _ | ⟨_ | _, w₁⟩
                · cases hwal
                · cases hwal
                · rw [Option.some.inj hwal] at hrun
                  exact walOpenLog_fresh hrun
          obtain ⟨rfl, hclosed, hbuf, hzero⟩ := hfresh
          refine @Fits.goOn s { s with hist := _, pc := _, srcs := _ } w h 0 rfl
            ⟨hwal, by simpa using hsrc, ⟨by simp [hzero], fun _ => hbuf, ?_⟩⟩ Pc.noConfusion le_rfl
            trivial
          intro hopen
          rw [hclosed] at hopen
          cases hopen
    · exact absurd hpc hne

theorem Fits.push (h : s.Fits) (gen : UInt64) (slot : Slot) : (s.push gen slot).Fits := by
  unfold Storaged.push
  split_ifs with hguard
  · exact h
  · push Not at hguard
    obtain ⟨-, hsrc, -⟩ := hguard
    refine h.of_same ?_ rfl rfl
    intro g slot' hmem
    by_cases hg : g = gen
    · subst hg
      dsimp only at hmem
      rw [Function.update_self] at hmem
      rcases Fifo.push_items (s.rings g)
        { slot with seq := UInt64.ofNat (s.rings g).items.length } with heq | heq
      · rw [heq] at hmem
        exact h.slots g slot' hmem
      · rw [heq] at hmem
        rcases List.mem_append.mp hmem with hmem | hmem
        · exact h.slots g slot' hmem
        · rw [List.mem_singleton.mp hmem]
          exact by simpa using hsrc
    · dsimp only at hmem
      rw [Function.update_of_ne hg] at hmem
      exact h.slots g slot' hmem

theorem fits_step (h : s.Fits) (a : Act) : (s.step a).Fits := by
  have happly : (s.apply a).Fits := by
    cases a with
    | create ns gen =>
        show (s.create ns gen).Fits
        unfold Storaged.create
        split_ifs
        · exact h.of_same h.slots rfl rfl
        · exact h
    | push gen slot => exact h.push gen slot
    | start src io => exact h.start src io
    | step env =>
        unfold Storaged.apply
        cases hw : s.hist.wal with
        | none => exact h
        | some w => exact h.advance hw env
    | kill => exact h.exit rfl
  unfold Storaged.step
  split_ifs
  · exact happly
  · exact h

theorem fits_run (acts : List Act) : (run step {} acts).Fits := by
  refine run_invariant step Fits (fun s a h => fits_step h a) {} ⟨?_, Or.inl ⟨rfl, rfl⟩, trivial⟩ acts
  intro g slot hslot
  cases hslot

/-- A step of `drain` that has a slot for the batch: `wal_add` takes it. -/
theorem Fits.sample_added (h : s.Fits) (hw : s.hist.wal = some w) {ns : Ns}
    (hpc : s.pc = .drain ns) {gen : UInt64} {slot : Slot}
    (hfew : w.batchSamples.toNat < walBatchSamples)
    (hpeek : (s.rings gen).peek (s.srcs ns).taken = some slot) (env : Env) :
    (s.add (sampleReq slot env.now) env.clk).1 = true := by
  have hsession := (h.session hw).2
  rw [hpc] at hsession
  exact (hsession.addSample (Nat.zero_le _) hfew (h.slots gen slot (List.mem_of_getElem? hpeek))
    env.now env.clk).1

end Storaged

/-! ## The result -/

/-- The batch buffer always has room for what must go in it: in every session
for the COMMIT, in every batch of `storaged` for its samples and notes, and so in
no run of `storaged` does one of them fail. -/
theorem batch_buffer_has_room :
    (∀ w, Reached w →
      (w.openBatch = false → w.buf.length = 0) ∧
      (w.openBatch = true → 52 ≤ w.buf.length ∧ w.buf.length ≤ walBufBytes - 60 ∧
        ∀ now, append w RecKind.commit.code w.src now (commitBody w.nextTxn w.batchSamples) ≠
          none)) ∧
    (∀ w, Reached w → w.openBatch = false →
      ∀ slots : List (Slot × Now × BeginClock), slots.length ≤ walBatchSamples →
        (∀ x ∈ slots, srcIsValid x.1.src = true) →
        ∀ notes : Ns → Note, w.Takes (batchReqs w slots notes)) ∧
    (∀ (acts : List Storaged.Act) (s : Storaged), s = run Storaged.step {} acts →
      (∀ w ns gen slot (env : Env), s.hist.wal = some w → s.pc = .drain ns →
        w.batchSamples.toNat < walBatchSamples →
        (s.rings gen).peek (s.srcs ns).taken = some slot →
        (s.add (sampleReq slot env.now) env.clk).1 = true) ∧
      ∀ stop noted, s.pc = .commit stop noted → noted = true) := by
  refine ⟨?_, ?_, ?_⟩
  · intro w hw
    have hready := ready_of_reached hw
    constructor
    · intro hclosed
      rw [hready.closed hclosed]
      rfl
    · intro hopen
      exact ⟨(hready.opened hopen).1, (hready.opened hopen).2, hready.commit_fits hopen⟩
  · intro w hw hclosed slots hfew hsrc notes
    exact (ready_of_reached hw).takes_batch hclosed hfew hsrc notes
  · rintro acts s rfl
    have hfits := Storaged.fits_run acts
    constructor
    · intro w ns gen slot env hw hpc hfew hpeek
      exact hfits.sample_added hw hpc hfew hpeek env
    · intro stop noted hpc
      have hnoted := hfits.noted
      rw [hpc] at hnoted
      exact hnoted

end Carwatch.Store
