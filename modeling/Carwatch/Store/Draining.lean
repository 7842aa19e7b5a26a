import Mathlib.Data.List.Forall2
import Carwatch.Store.Storaged

/-!
# Carwatch.Store.Draining — the log under storaged

What each call of `storaged` does to the log, and what holds between them.

* `Content.Carries` — a record of the log is the sample of a slot;
* `add_eq`, `walCommit_spec` — the two calls on the log, as storaged sees them;
* `Wal.Room` — how full the buffer is; there is always room for what storaged
  adds, so the branches for a refused record are never taken;
* `Storaged.Sound` — the samples of the log are those of the slots the history
  names, in that order (`sound_run`).
-/

namespace Carwatch.Store

open Carwatch.Lib Carwatch.Ipc

/-! ## Samples -/

/-- The records that are samples. -/
def samples (cs : List Content) : List Content :=
  cs.filter fun c => c.kind = RecKind.sample.code

@[simp] theorem samples_nil : samples [] = [] := rfl

@[simp] theorem samples_append (cs cs' : List Content) :
    samples (cs ++ cs') = samples cs ++ samples cs' := by
  simp [samples]

theorem samples_of_kind {c : Content} (h : c.kind = RecKind.sample.code) : samples [c] = [c] := by
  simp [samples, h]

theorem samples_of_ne {c : Content} (h : c.kind ≠ RecKind.sample.code) : samples [c] = [] := by
  simp [samples, h]

/-- The record is a REC_SAMPLE with what the slot says: its `src`, `mono_ns`,
`mode`, `pid` and `value`, and its first data bytes, five at most. -/
structure Content.Carries (c : Content) (slot : Slot) : Prop where
  kind : c.kind = RecKind.sample.code
  src : c.src = slot.src
  mono : c.monoNs = slot.monoNs
  mode : field 0 1 c.body = slot.mode.toNat
  pid : field 1 1 c.body = slot.pid.toNat
  len : field 2 1 c.body = min slot.len.toNat recRawMax
  raw : (c.body.drop 3).take (min slot.len.toNat recRawMax) =
    slot.data.take (min slot.len.toNat recRawMax)
  value : field 8 4 c.body = slot.value.toNat

theorem rawLen_eq (slot : Slot) : rawLen slot = min slot.len.toNat recRawMax := by
  unfold rawLen
  split_ifs with h
  · exact (min_eq_left (le_of_lt h)).symm
  · exact (min_eq_right (not_lt.mp h)).symm

/-- `raw` as `drain` leaves it: five bytes, zeros behind the slot's. -/
theorem length_raw (slot : Slot) :
    (slot.data.take (rawLen slot) ++ List.replicate (recRawMax - rawLen slot) (0 : UInt8)).length =
      recRawMax := by
  have hle := rawLen_le slot
  have hdata := slot.data_length
  simp only [ringPayload, recRawMax] at hle hdata ⊢
  rw [List.length_append, List.length_take, List.length_replicate, hdata]
  omega

/-- What `drain` adds carries the slot. -/
theorem carries_sampleReq (slot : Slot) (now : Now) : (sampleReq slot now).content.Carries slot := by
  have hbody : (sampleReq slot now).content.body = (sampleBody slot).bytes := rfl
  have hlen : rawLen slot % 256 ^ 1 = rawLen slot := by
    have hle := rawLen_le slot
    exact Nat.mod_eq_of_lt (lt_of_le_of_lt hle (by decide))
  refine ⟨rfl, rfl, rfl, ?_, ?_, ?_, ?_, ?_⟩
  · rw [hbody, sampleBody, field_leBytes]
    exact Nat.mod_eq_of_lt slot.mode.toNat_lt
  · rw [hbody, sampleBody, field_leBytes_skip _ _ _ le_rfl, Nat.sub_self, field_leBytes]
    exact Nat.mod_eq_of_lt slot.pid.toNat_lt
  · rw [hbody, sampleBody, field_leBytes_skip _ _ _ (by omega),
      field_leBytes_skip _ _ _ (by omega), field_leBytes, hlen, rawLen_eq]
  · rw [hbody, ← rawLen_eq]
    show ((leBytes 1 _ ++ (leBytes 1 _ ++ (leBytes 1 _ ++ _))).drop 3).take _ = _
    rw [← List.append_assoc, ← List.append_assoc, List.drop_left' (by simp),
      List.take_append_of_le_length]
    · exact List.take_of_length_le (List.length_take_le _ _)
    · have hle := rawLen_le slot
      have hdata := slot.data_length
      simp only [ringPayload, recRawMax] at hle hdata
      rw [List.length_take, hdata]
      omega
  · rw [hbody, sampleBody, field_leBytes_skip _ _ _ (by omega),
      field_leBytes_skip _ _ _ (by omega), field_leBytes_skip _ _ _ (by omega)]
    -- the value stands behind the five bytes of `raw`
    have hdrop : (slot.data.take (rawLen slot) ++ (List.replicate (recRawMax - rawLen slot) 0 ++
        leBytes 4 slot.value.toNat)).drop 5 = leBytes 4 slot.value.toNat := by
      rw [← List.append_assoc]
      exact List.drop_left' (length_raw slot)
    have hfield := field_leBytes 4 slot.value.toNat []
    rw [List.append_nil] at hfield
    unfold field at hfield ⊢
    rw [show 8 - 1 - 1 - 1 = 5 by rfl, hdrop]
    rw [List.drop_zero] at hfield
    rw [hfield]
    exact Nat.mod_eq_of_lt slot.value.toNat_lt

theorem length_sampleBody (slot : Slot) : (sampleBody slot).bytes.length = 12 := by
  have hraw := length_raw slot
  rw [List.length_append] at hraw
  show (leBytes 1 _ ++ (leBytes 1 _ ++ (leBytes 1 _ ++ (_ ++ (_ ++ leBytes 4 _))))).length = 12
  simp only [List.length_append, length_leBytes, recRawMax] at hraw ⊢
  omega

/-- The encoder accepts the sample of every slot `ring_push` accepts. -/
theorem sampleReq_valid {slot : Slot} (h : srcIsValid slot.src = true) (now : Now) :
    (sampleReq slot now).Valid := by
  refine ⟨rfl, ?_, h, ?_⟩
  · show bodyLenOk RecKind.sample.code (UInt16.ofNat (sampleBody slot).bytes.length) = true
    rw [length_sampleBody]
    rfl
  · intro hkind
    cases hkind

/-! ## The calls on the log -/

/-- `wal_commit` leaves no batch open, and starts the count of samples again;
the source of the session stays. -/
theorem walCommit_closed {w w' : Wal} {now : Now} {io : CommitAns} {d d' : Dir} {ok : Bool}
    (h : walCommit w now io d = (some (ok, w'), d')) :
    w' = w ∧ w.openBatch = false ∨
    w'.openBatch = false ∧ w'.batchSamples = 0 ∧ w'.buf = [] ∧ w'.src = w.src := by
  cases hopen : w.openBatch with
  | false =>
      unfold walCommit at h
      rw [hopen] at h
      rcases Prod.mk.inj h with ⟨hr, -⟩
      exact Or.inl ⟨(Prod.mk.inj (Option.some.inj hr)).2.symm, rfl⟩
  | true =>
      -- whatever becomes of the batch, the call leaves none open
      refine Or.inr ?_
      cases happ : append w RecKind.commit.code w.src now
          (commitBody w.nextTxn w.batchSamples) with
      | none =>
          unfold walCommit at h
          rw [hopen, happ] at h
          rcases Prod.mk.inj h with ⟨hr, -⟩
          rw [← (Prod.mk.inj (Option.some.inj hr)).2]
          exact ⟨rfl, rfl, rfl, rfl⟩
      | some w₁ =>
          have hsrc : w₁.src = w.src := by
            rw [(append_eq_some happ).2]
          generalize hr : some (ok, w') = r at h
          cases walCommit_outcome hopen happ h with
          | killed k hk => cases hr
          | undone seg k hfd hk =>
              rw [(Prod.mk.inj (Option.some.inj hr)).2]
              exact ⟨rfl, rfl, rfl, hsrc⟩
          | stuck seg hfd hio hend =>
              rw [(Prod.mk.inj (Option.some.inj hr)).2]
              exact ⟨rfl, rfl, rfl, hsrc⟩
          | closed hfd =>
              rw [(Prod.mk.inj (Option.some.inj hr)).2]
              exact ⟨rfl, rfl, rfl, hsrc⟩
          | done seg hfd hroom =>
              rw [(Prod.mk.inj (Option.some.inj hr)).2]
              exact ⟨rfl, rfl, rfl, hsrc⟩
          | rolled seg hfd hend hsync hfull hclose r' d' hcreate =>
              rcases createSegment_cases hcreate with ⟨hr', -⟩ | ⟨hr' | ⟨hr', -⟩, -⟩
              · rw [hr'] at hr
                rw [(Prod.mk.inj (Option.some.inj hr)).2]
                exact ⟨rfl, rfl, rfl, hsrc⟩
              · rw [hr'] at hr
                cases hr
              · rw [hr'] at hr
                rw [(Prod.mk.inj (Option.some.inj hr)).2]
                exact ⟨rfl, rfl, rfl, hsrc⟩

theorem Wal.Room.commit {w w' : Wal} {c : ℕ} (h : w.Room c) {now : Now} {io : CommitAns}
    {d d' : Dir} {ok : Bool} (hrun : walCommit w now io d = (some (ok, w'), d')) : w'.Room 0 := by
  rcases walCommit_closed hrun with ⟨rfl, hclosed⟩ | ⟨hclosed, hzero, hnil, -⟩
  · refine ⟨h.few, h.closed, ?_⟩
    intro hopen
    rw [hclosed] at hopen
    cases hopen
  · refine ⟨by simp [hzero], fun _ => hnil, ?_⟩
    intro hopen
    rw [hclosed] at hopen
    cases hopen

namespace Storaged

variable {s s' : Storaged} {w : Wal}

/-- The contents of the records recovery keeps. -/
def log (s : Storaged) : List Content := contents (keptRecords s.hist.dir)

/-- `wal_add`, in a session. -/
theorem add_eq (hw : s.hist.wal = some w) (q : AddReq) (clk : BeginClock) :
    s.add q clk = ((q.run w clk).1, { s with
      hist := { s.hist with
        wal := some (q.run w clk).2
        pending := if (q.run w clk).1 then s.hist.pending ++ [q.content] else s.hist.pending } }) := by
  unfold add
  rw [hw]
  simp only [Hist.apply, hw]

/-- What `wal_commit` leaves, whether or not it was killed: the batch is gone,
and what it held is in the log if `durable` says so. -/
structure Settled (s s' : Storaged) (w : Wal) (durable : Bool) : Prop where
  same : s' = { s with hist := s'.hist, batch := [], logged := s'.logged }
  log : s'.log = s.log ++ if durable then s.hist.pending else []
  logged : s'.logged = s.logged ++ if durable then s.batch else []
  pending : s'.hist.pending = []
  laid : s'.hist.Laid
  file : durable = true → w.fd ≠ none

/-- The session `wal_commit` returns to. -/
structure Returned (s s' : Storaged) (w w' : Wal) (durable ok : Bool) : Prop where
  wal : s'.hist.wal = some w'
  session : w.SameSession w'
  file : w'.fd ≠ none → w.fd ≠ none
  lost : ok = false → durable = true → w'.fd = none
  acked : ok = true → durable = true ∨ s.hist.pending = []
  room : ∀ c, w.Room c → w'.Room 0

/-- The session `wal_commit` returns to, if it returns. -/
def After (s s' : Storaged) (w : Wal) (durable : Bool) : Option Bool → Prop
  | none => s'.hist.wal = none
  | some ok => ∃ w', Returned s s' w w' durable ok

/-- `wal_commit`, in a session on a log in order. -/
theorem walCommit_spec (hinv : s.hist.Inv) (hw : s.hist.wal = some w) {now : Now} {io : CommitAns}
    (hundo : ¬ w.UndoFails io) {r : Option Bool} (h : s.walCommit now io = (r, s')) :
    ∃ durable, Settled s s' w durable ∧ After s s' w durable r := by
  have hlaid : (s.hist.apply (.commit now io)).Laid := by
    refine Hist.laid_commit hinv ?_
    intro w' hw'
    rw [hw] at hw'
    rwa [← Option.some.inj hw']
  rcases hinv.laid.session hw with ⟨l, rs, hdir, hon, hpend⟩
  have hcount : l.count < 2 ^ 61 := lt_trans (Layout.count_lt (hdir ▸ hinv.fits)) (by norm_num)
  unfold walCommit at h
  rw [hw] at h
  rcases Prod.mk.inj h with ⟨hr, hs'⟩
  cases hrun : Store.walCommit w now io s.hist.dir with
  | mk res d =>
      have happly : s.hist.apply (.commit now io) = s.hist.committed w (res, d) := by
        simp only [Hist.apply, hw, hrun]
      rw [happly] at hs' hlaid
      rw [hrun] at hr
      have hdir' : (s.hist.committed w (res, d)).dir = d := Hist.committed_dir _ _ _
      have hpend' : (s.hist.committed w (res, d)).pending = [] := by
        rcases res with _ | ⟨_ | _, _⟩ <;> rfl
      -- what is left to say is what the log holds now
      have hsettled : ∀ durable : Bool, (Durable s.hist.dir d ↔ durable = true) →
          contents (keptRecords d) = s.log ++ (if durable then s.hist.pending else []) →
          (durable = true → w.fd ≠ none) → Settled s s' w durable := by
        intro durable hdurable hlog hfile
        subst hs'
        refine ⟨rfl, ?_, ?_, hpend', hlaid, hfile⟩
        · show contents (keptRecords (s.hist.committed w (res, d)).dir) = _
          rw [hdir']
          exact hlog
        · show (if Durable s.hist.dir (s.hist.committed w (res, d)).dir then _ else _) = _
          rw [hdir']
          cases durable with
          | true => rw [if_pos (hdurable.mpr rfl), if_pos rfl]
          | false => rw [if_neg fun hd => by simpa using hdurable.mp hd, if_neg (by simp),
              List.append_nil]
      have hwal' : ∀ ok w', res = some (ok, w') → s'.hist.wal = some w' := by
        rintro ok w' rfl
        subst hs'
        cases ok <;> rfl
      have hroom : ∀ ok w', res = some (ok, w') → ∀ c, w.Room c → w'.Room 0 := by
        rintro ok w' rfl c hc
        exact hc.commit hrun
      have hnone : res = none → s'.hist.wal = none := by
        rintro rfl
        subst hs'
        rfl
      have hlog : s.log = contents l.recs := by
        rw [log, hdir, Layout.keptRecords_dir]
      cases hopen : w.openBatch with
      | false =>
          have hrs : rs = [] := by
            cases rs with
            | nil => rfl
            | cons r rs => simp [hon.holds.isOpen] at hopen
          have hidle : Store.walCommit w now io s.hist.dir = (some (true, w), s.hist.dir) := by
            simp [Store.walCommit, hopen]
          rw [hrun] at hidle
          rcases Prod.mk.inj hidle with ⟨rfl, rfl⟩
          refine ⟨false, hsettled false (by simp [Durable]) (by simp [log]) (by simp), ?_⟩
          rw [← hr]
          refine ⟨w, hwal' true w rfl, Wal.SameSession.refl w, id, by simp, ?_, hroom true w rfl⟩
          intro _
          rw [← hpend, hrs]
          exact Or.inr rfl
      | true =>
          rw [hdir] at hrun
          cases hon.commit hcount hopen hrun with
          | undone w' hsame hon' hfd =>
              have hkept : contents (keptRecords l.dir) = s.log := by
                rw [hlog, Layout.keptRecords_dir]
              refine ⟨false, hsettled false (by simp [Durable, hdir]) (by simp [hkept]) (by simp), ?_⟩
              rw [← hr]
              refine ⟨w', hwal' false w' rfl, hsame, ?_, by simp, by simp, hroom false w' rfl⟩
              rw [hfd]
              exact id
          | stuck b hb w' hon' hfail => exact absurd hfail hundo
          | torn p hp =>
              have hkept : keptRecords (l.tear p hp).dir = keptRecords l.dir := by
                rw [Layout.keptRecords_dir, Layout.keptRecords_dir]
                rfl
              refine ⟨false, hsettled false ?_ ?_ (by simp), ?_⟩
              · simp [Durable, hdir, hkept]
              · rw [hkept, hlog, Layout.keptRecords_dir]
                simp
              · rw [← hr]
                exact hnone rfl
          | written b hb l' hl' r' hr' hfd =>
              have hkept : keptRecords l'.dir = keptRecords s.hist.dir ++ b.recs := by
                rw [Layout.keptRecords_dir, hdir, Layout.keptRecords_dir, hl'.recs]
              refine ⟨true, hsettled true ?_ ?_ (fun _ => hfd), ?_⟩
              · simp [Durable, hkept, Batch.recs]
              · rw [hkept, contents_append, hb.contents, hpend]
                rfl
              · rw [← hr]
                rcases hr' with rfl | ⟨ok, w', rfl, hsame, hon', hfail⟩
                · exact hnone rfl
                · refine ⟨w', hwal' ok w' rfl, hsame, fun _ => hfd, ?_, by simp, hroom ok w' rfl⟩
                  intro hok _
                  exact (hfail hok).2.2

/-! ## What holds between two calls -/

/-- The record is the sample of this slot. -/
def Carried (s : Storaged) (c : Content) (tag : Tag) : Prop :=
  ∃ slot, (s.rings tag.1).items[tag.2]? = some slot ∧ c.Carries slot

/-- The log is in order, and the history names the slot of each of its samples
and of each sample in the open batch. -/
structure Booked (s : Storaged) : Prop where
  laid : s.hist.Laid
  slots : ∀ g, ∀ slot ∈ (s.rings g).items, srcIsValid slot.src = true
  aligned : List.Forall₂ s.Carried (samples s.log) s.logged
  batched : List.Forall₂ s.Carried (samples s.hist.pending) s.batch

/-- A session runs whose buffer holds at most `c` bytes besides its samples. -/
structure Session (s : Storaged) (w : Wal) (c : ℕ) : Prop where
  wal : s.hist.wal = some w
  src : srcIsValid w.src = true
  room : w.Room c

end Storaged

/-- How many records that are no samples the open batch may hold. -/
def Pc.notes : Pc → ℕ
  | .bootCommit | .genCommit _ | .shutCommit => 1
  | .noteSeq _ _ ns => ns.val
  | .commit _ _ => 2
  | _ => 0

/-- No note failed so far. -/
def Pc.Noted : Pc → Prop
  | .noteSeq _ noted _ | .commit _ noted => noted = true
  | _ => True

/-- The next step calls `wal_commit`. -/
def Pc.Commits : Pc → Prop
  | .bootCommit | .genCommit _ | .commit _ _ | .closeCommit | .shutCommit => True
  | _ => False

namespace Storaged

variable {s s' : Storaged} {w : Wal}

/-- What holds in every state of a run whose undo truncations succeed. -/
structure Sound (s : Storaged) : Prop where
  booked : s.Booked
  live : s.pc = .down ∧ s.hist.wal = none ∧ s.hist.pending = [] ∨
    s.pc ≠ .down ∧ ∃ w, s.Session w (82 * s.pc.notes)
  noted : s.pc.Noted

theorem Sound.session (h : s.Sound) (hw : s.hist.wal = some w) :
    s.pc ≠ .down ∧ s.Session w (82 * s.pc.notes) := by
  rcases h.live with ⟨-, hnone, -⟩ | ⟨hpc, w', hw'⟩
  · rw [hw] at hnone
    cases hnone
  · have heq := hw'.wal
    rw [hw] at heq
    obtain rfl := Option.some.inj heq
    exact ⟨hpc, hw'⟩

/-- A process that goes on. -/
theorem Sound.of_session {c : ℕ} (hbooked : s.Booked) (hsession : s.Session w c) (hpc : s.pc ≠ .down)
    (hc : c ≤ 82 * s.pc.notes) (hnoted : s.pc.Noted) : s.Sound :=
  ⟨hbooked, Or.inr ⟨hpc, w, hsession.wal, hsession.src, hsession.room.mono hc⟩, hnoted⟩

/-- A step that does not concern the process. -/
theorem Sound.of_same (h : s.Sound) (hbooked : s'.Booked) (hhist : s'.hist = s.hist)
    (hpc : s'.pc = s.pc) : s'.Sound := by
  refine ⟨hbooked, ?_, ?_⟩
  · rw [hhist, hpc]
    rcases h.live with hdown | ⟨hne, w, hs⟩
    · exact Or.inl hdown
    · exact Or.inr ⟨hne, w, by rw [hhist]; exact hs.wal, hs.src, hs.room⟩
  · rw [hpc]
    exact h.noted

/-- A process that is gone. -/
theorem Booked.exit (h : s.Booked) : s.exit.Sound := by
  refine ⟨⟨?_, h.slots, h.aligned, .nil⟩, Or.inl ⟨rfl, rfl, rfl⟩, trivial⟩
  rcases h.laid with ⟨hnil, -⟩ | ⟨l, hdir, -⟩
  · exact Or.inl ⟨hnil, rfl⟩
  · exact Hist.laid_of_idle hdir rfl

/-- A record that is no sample. -/
theorem Booked.add (h : s.Booked) {c : ℕ} (hsession : s.Session w c) {q : AddReq}
    (hkind : q.kind ≠ RecKind.sample.code) (hlen : q.body.bytes.length ≤ 38) (clk : BeginClock) :
    (s.add q clk).2.Booked ∧ (s.add q clk).2.Session (q.run w clk).2 (c + 82) := by
  have hlaid := Hist.laid_add h.laid q clk
  simp only [Hist.apply, hsession.wal] at hlaid
  rcases h.laid.session hsession.wal with ⟨l, rs, -, hon, -⟩
  rcases walAdd_holds hon.holds (Prod.mk.eta.symm : q.run w clk = _) with ⟨-, -, hsame, -⟩
  rw [add_eq hsession.wal]
  refine ⟨⟨hlaid, h.slots, h.aligned, ?_⟩, rfl, ?_, ?_⟩
  · show List.Forall₂ s.Carried (samples (if (q.run w clk).1 then _ else _)) s.batch
    split_ifs
    · rw [samples_append, samples_of_ne hkind, List.append_nil]
      exact h.batched
    · exact h.batched
  · rw [hsame.src]
    exact hsession.src
  · exact hsession.room.add Prod.mk.eta.symm (by omega) (Or.inl ⟨hkind, by omega⟩)

/-- A batch that is committed, or lost. -/
theorem Booked.commit (h : s.Booked) (hfits : s.hist.dir.size < diskBytes) {c : ℕ}
    (hsession : s.Session w c) {io : CommitAns} (hundo : ¬ w.UndoFails io) (now : Now) :
    (s.walCommit now io).2.Booked ∧
    ((s.walCommit now io).1 ≠ none → ∃ w', (s.walCommit now io).2.Session w' 0) := by
  cases hrun : s.walCommit now io with
  | mk r s₁ =>
      rcases walCommit_spec ⟨hfits, h.laid⟩ hsession.wal hundo hrun with ⟨durable, hset, hafter⟩
      have hrings : s₁.rings = s.rings := by rw [hset.same]
      have hbatch : s₁.batch = [] := by rw [hset.same]
      have hcarried : s₁.Carried = s.Carried := by
        unfold Carried
        rw [hrings]
      refine ⟨⟨hset.laid, by rw [hrings]; exact h.slots, ?_, ?_⟩, ?_⟩
      · rw [hcarried, hset.log, hset.logged, samples_append]
        refine List.rel_append h.aligned ?_
        cases durable with
        | true => exact h.batched
        | false => exact .nil
      · rw [hset.pending, hbatch]
        exact .nil
      · intro hr
        cases r with
        | none => exact absurd rfl hr
        | some ok =>
            rcases hafter with ⟨w', hw'⟩
            exact ⟨w', hw'.wal, by rw [hw'.session.src]; exact hsession.src, hw'.room c hsession.room⟩

/-- A sample that `drain` adds: there is room for it, and it is the sample of
the slot the history names. -/
theorem Booked.addSample (h : s.Booked) {c : ℕ} (hsession : s.Session w c) (hc : c ≤ 164)
    (hfew : w.batchSamples.toNat < walBatchSamples) {gen : UInt64} {k : ℕ} {slot : Slot}
    (hslot : (s.rings gen).items[k]? = some slot) (now : Now) (clk : BeginClock) :
    (s.add (sampleReq slot now) clk).1 = true ∧
    { (s.add (sampleReq slot now) clk).2 with batch := s.batch ++ [(gen, k)] }.Booked ∧
    (s.add (sampleReq slot now) clk).2.Session ((sampleReq slot now).run w clk).2 c := by
  have hmem : slot ∈ (s.rings gen).items := List.mem_of_getElem? hslot
  have hvalid := sampleReq_valid (h.slots gen slot hmem) now
  have hlength : (sampleReq slot now).body.bytes.length = 12 := length_sampleBody slot
  have hok : ((sampleReq slot now).run w clk).1 = true := by
    have hlen := hsession.room.length_le
    refine AddReq.run_fits hsession.src hvalid ?_ clk
    rw [hlength, walBufBytes_eq]
    omega
  have hlaid := Hist.laid_add h.laid (sampleReq slot now) clk
  simp only [Hist.apply, hsession.wal] at hlaid
  rcases h.laid.session hsession.wal with ⟨l, rs, -, hon, -⟩
  rcases walAdd_holds hon.holds (Prod.mk.eta.symm : (sampleReq slot now).run w clk = _) with
    ⟨-, -, hsame, -⟩
  rw [add_eq hsession.wal]
  refine ⟨hok, ⟨hlaid, h.slots, h.aligned, ?_⟩, rfl, ?_, ?_⟩
  · show List.Forall₂ s.Carried (samples (if _ then _ else _)) (s.batch ++ [(gen, k)])
    rw [if_pos hok, samples_append, samples_of_kind rfl]
    refine List.rel_append h.batched (.cons ?_ .nil)
    exact ⟨slot, hslot, carries_sampleReq slot now⟩
  · rw [hsame.src]
    exact hsession.src
  · exact hsession.room.add Prod.mk.eta.symm le_rfl (Or.inr ⟨rfl, hlength, hfew⟩)

/-! ## One step -/

/-- The ways a round of `drain` can go: the end of its loop, a slot that is
skipped, or one that is logged. -/
theorem drain_cases (s : Storaged) (w : Wal) (ns : Ns) (env : Env) :
    s.drain w ns env = { s with pc := nextDrain ns } ∨
    ∃ gen slot, (s.srcs ns).ring = some gen ∧ w.batchSamples.toNat < walBatchSamples ∧
      (s.rings gen).peek (s.srcs ns).taken = some slot ∧
      ((((s.srcs ns).skip = true ∧ slot.seq ≤ (s.srcs ns).skipSeq) ∧
        s.drain w ns env = s.setSrc ns { s.srcs ns with
          taken := (s.srcs ns).taken + 1, lastSeq := slot.seq }) ∨
      (¬ ((s.srcs ns).skip = true ∧ slot.seq ≤ (s.srcs ns).skipSeq) ∧
        ((s.add (sampleReq slot env.now) env.clk).1 = true →
          s.drain w ns env =
            { (s.add (sampleReq slot env.now) env.clk).2.setSrc ns { s.srcs ns with
                taken := (s.srcs ns).taken + 1, lastSeq := slot.seq, added := true } with
              batch := (s.add (sampleReq slot env.now) env.clk).2.batch ++
                [(gen, ((s.add (sampleReq slot env.now) env.clk).2.rings gen).taken +
                  (s.srcs ns).taken)] }))) := by
  unfold Storaged.drain
  dsimp only
  generalize hsrc : s.srcs ns = src
  cases hring : src.ring with
  | none => exact Or.inl rfl
  | some gen =>
      dsimp only
      by_cases hfew : w.batchSamples.toNat < walBatchSamples
      · rw [if_pos hfew]
        cases hpeek : (s.rings gen).peek src.taken with
        | none => exact Or.inl rfl
        | some slot =>
            dsimp only
            refine Or.inr ⟨gen, slot, rfl, hfew, hpeek, ?_⟩
            -- the slot is in the log already, or it goes into the batch
            by_cases hskip : src.skip = true ∧ slot.seq ≤ src.skipSeq
            · exact Or.inl ⟨hskip, if_pos hskip⟩
            · refine Or.inr ⟨hskip, ?_⟩
              intro hok
              rw [if_neg hskip]
              cases hrun : s.add (sampleReq slot env.now) env.clk with
              | mk b s₁ =>
                  rw [hrun] at hok
                  obtain rfl : b = true := hok
                  rfl
      · rw [if_neg hfew]
        exact Or.inl rfl

/-- One round of `drain`. -/
theorem Sound.drain (h : s.Sound) (hw : s.hist.wal = some w) {ns : Ns} (hpc : s.pc = .drain ns)
    (env : Env) : (s.drain w ns env).Sound := by
  rcases h.session hw with ⟨hrun, hsession⟩
  rw [hpc] at hsession
  rcases drain_cases s w ns env with hend | ⟨gen, slot, hring, hfew, hpeek, hcase⟩
  · rw [hend]
    refine @of_session { s with pc := nextDrain ns } w 0
      ⟨h.booked.laid, h.booked.slots, h.booked.aligned, h.booked.batched⟩
      ⟨hsession.wal, hsession.src, hsession.room⟩ ?_ (Nat.zero_le _) ?_
    · show nextDrain ns ≠ .down
      unfold nextDrain
      split_ifs <;> exact Pc.noConfusion
    · show (nextDrain ns).Noted
      unfold nextDrain
      split_ifs <;> trivial
  · rcases hcase with ⟨-, hskip⟩ | ⟨-, htake⟩
    · rw [hskip]
      exact h.of_same ⟨h.booked.laid, h.booked.slots, h.booked.aligned, h.booked.batched⟩ rfl rfl
    · rcases h.booked.addSample hsession (Nat.zero_le _) hfew hpeek env.now env.clk with
        ⟨hok, hbooked, hsession'⟩
      rw [htake hok]
      rw [add_eq hw] at hbooked hsession' ⊢
      exact @of_session _ _ 0 ⟨hbooked.laid, hbooked.slots, hbooked.aligned, hbooked.batched⟩
        ⟨rfl, hsession'.src, hsession'.room⟩ hrun (Nat.zero_le _) h.noted

/-- An event behind which `main` goes on only if it is accepted. -/
theorem Booked.addOrExit (h : s.Booked) (hsession : s.Session w 0) {q : AddReq}
    (hkind : q.kind ≠ RecKind.sample.code) (hlen : q.body.bytes.length ≤ 38) (clk : BeginClock)
    {pc : Pc} (hpc : pc ≠ .down) (hc : 1 ≤ pc.notes) (hnoted : pc.Noted) :
    (match s.add q clk with
      | (true, s) => { s with pc := pc }
      | (false, s) => s.exit).Sound := by
  have hadd := h.add hsession hkind hlen clk
  cases hrun : s.add q clk with
  | mk ok s₁ =>
      rw [hrun] at hadd
      rcases hadd with ⟨hbooked, hs⟩
      cases ok with
      | true =>
          exact @Sound.of_session { s₁ with pc := pc } _ _
            ⟨hbooked.laid, hbooked.slots, hbooked.aligned, hbooked.batched⟩
            ⟨hs.wal, hs.src, hs.room⟩ hpc (by show 0 + 82 ≤ 82 * pc.notes; omega) hnoted
      | false => exact hbooked.exit

/-- A commit that returned. -/
theorem Booked.goOn (h : s.Booked) (hsession : ∃ w, s.Session w 0) {pc : Pc} (hpc : pc ≠ .down)
    (hnoted : pc.Noted) : { s with pc := pc }.Sound := by
  rcases hsession with ⟨w, hs⟩
  exact @Sound.of_session { s with pc := pc } _ _ ⟨h.laid, h.slots, h.aligned, h.batched⟩
    ⟨hs.wal, hs.src, hs.room⟩ hpc (Nat.zero_le _) hnoted

/-- A commit behind which `main` goes on only if it succeeds. -/
theorem Sound.commitOrExit (h : s.Sound) (hfits : s.hist.dir.size < diskBytes)
    (hw : s.hist.wal = some w) {env : Env} (hundo : ¬ w.UndoFails env.commit) {pc : Pc}
    (hpc : pc ≠ .down) (hnoted : pc.Noted) :
    (match s.walCommit env.now env.commit with
      | (some true, s) => { s with pc := pc }
      | (_, s) => s.exit).Sound := by
  have hcommit := h.booked.commit hfits (h.session hw).2 hundo env.now
  cases hrun : s.walCommit env.now env.commit with
  | mk r s₁ =>
      rw [hrun] at hcommit
      rcases r with _ | _ | _
      · exact hcommit.1.exit
      · exact hcommit.1.exit
      · exact hcommit.1.goOn (hcommit.2 (Option.some_ne_none _)) hpc hnoted

theorem nextGen_ne_down (ns : Ns) : nextGen ns ≠ .down ∧ (nextGen ns).Noted := by
  unfold nextGen
  split_ifs
  · exact ⟨Pc.noConfusion, trivial⟩
  · exact ⟨Pc.noConfusion, trivial⟩

theorem Sound.noteGen (h : s.Sound) (hw : s.hist.wal = some w) {ns : Ns} (hpc : s.pc = .noteGen ns)
    (env : Env) : (s.noteGen w ns env).Sound := by
  rcases h.session hw with ⟨-, hsession⟩
  rw [hpc] at hsession
  unfold Storaged.noteGen
  cases hring : (s.srcs ns).ring with
  | none => exact h.booked.goOn ⟨w, hsession⟩ (nextGen_ne_down ns).1 (nextGen_ne_down ns).2
  | some gen =>
      dsimp only
      generalize decideSkip w.recovered ns gen (s.srcs ns) = src
      have hbooked : (s.setSrc ns src).Booked :=
        ⟨h.booked.laid, h.booked.slots, h.booked.aligned, h.booked.batched⟩
      refine hbooked.addOrExit ⟨hsession.wal, hsession.src, hsession.room⟩ ?_ ?_ env.clk
        Pc.noConfusion le_rfl trivial
      · intro hkind
        cases hkind
      · exact length_ringEvent_le walEvRingGen (.inl rfl) ns gen w.src env.now

/-- `note_ring_seq` does not fail: the batch has room for one note of each
ring. -/
theorem Session.noted {ns : Ns} (h : s.Session w (82 * ns.val)) (ns' : Ns) (seq : UInt64) (now : Now)
    (clk : BeginClock) : (s.add (noteRingSeq ns' seq w.src now) clk).1 = true := by
  have hns : ns.val ≤ 1 := Nat.le_of_lt_succ ns.isLt
  have hlen : (noteRingSeq ns' seq w.src now).body.bytes.length ≤ 38 :=
    length_ringEvent_le walEvRingSeq (.inr rfl) ns' seq w.src now
  have hvalid : (noteRingSeq ns' seq w.src now).Valid :=
    ringEvent_valid walEvRingSeq (.inr rfl) ns' seq h.src now
  rw [add_eq h.wal]
  refine AddReq.run_fits h.src hvalid ?_ clk
  have hbuf := h.room.length_le
  rw [walBufBytes_eq]
  omega

theorem Sound.noteSeq (h : s.Sound) (hw : s.hist.wal = some w) {stop noted : Bool} {ns : Ns}
    (hpc : s.pc = .noteSeq stop noted ns) (env : Env) :
    (s.noteSeq w stop noted ns env).Sound := by
  rcases h.session hw with ⟨-, hsession⟩
  have hnoted := h.noted
  rw [hpc] at hsession hnoted
  obtain rfl : noted = true := hnoted
  have hns : ns.val ≤ 1 := Nat.le_of_lt_succ ns.isLt
  -- where the next step stands
  have hnext : ∀ s : Storaged, ∀ w, s.Booked → s.Session w (82 * ns.val + 82) →
      { s with pc := if ns = 0 then .noteSeq stop true 1 else .commit stop true }.Sound := by
    intro s w hbooked hs
    refine @Sound.of_session { s with pc := _ } w (82 * ns.val + 82)
      ⟨hbooked.laid, hbooked.slots, hbooked.aligned, hbooked.batched⟩
      ⟨hs.wal, hs.src, hs.room⟩ ?_ ?_ ?_
    · dsimp only
      split_ifs <;> exact Pc.noConfusion
    · dsimp only
      split_ifs with h0
      · rw [h0]
        exact le_rfl
      · show 82 * ns.val + 82 ≤ 82 * 2
        omega
    · dsimp only
      split_ifs <;> rfl
  unfold Storaged.noteSeq
  dsimp only
  by_cases hadded : (s.srcs ns).added = true
  · rw [if_pos hadded]
    have hlen := length_ringEvent_le walEvRingSeq (.inr rfl) ns (s.srcs ns).lastSeq w.src env.now
    have hadd := h.booked.add hsession (by intro hkind; cases hkind) hlen env.clk
    rw [hsession.noted ns (s.srcs ns).lastSeq env.now env.clk]
    exact hnext _ _ hadd.1 hadd.2
  · rw [if_neg hadded]
    exact hnext s w h.booked ⟨hsession.wal, hsession.src, hsession.room.mono (Nat.le_add_right _ _)⟩

theorem Booked.startAgain (h : s.Booked) (hsession : ∃ w, s.Session w 0) : s.startAgain.Sound := by
  rcases hsession with ⟨w, hs⟩
  exact @Sound.of_session s.startAgain w 0 ⟨h.laid, h.slots, h.aligned, h.batched⟩
    ⟨hs.wal, hs.src, hs.room⟩ Pc.noConfusion le_rfl trivial

theorem Sound.commitBatch (h : s.Sound) (hfits : s.hist.dir.size < diskBytes)
    (hw : s.hist.wal = some w) {stop noted : Bool} (hpc : s.pc = .commit stop noted) {env : Env}
    (hundo : ¬ w.UndoFails env.commit) : (s.commitBatch stop noted env).Sound := by
  have hnoted := h.noted
  rw [hpc] at hnoted
  obtain rfl : noted = true := hnoted
  have hcommit := h.booked.commit hfits (h.session hw).2 hundo env.now
  unfold Storaged.commitBatch
  rw [if_neg (by simp)]
  cases hrun : s.walCommit env.now env.commit with
  | mk r s₁ =>
      rw [hrun] at hcommit
      rcases r with _ | _ | _
      · exact hcommit.1.exit
      · have hs := hcommit.2 (Option.some_ne_none _)
        dsimp only
        split_ifs
        · exact hcommit.1.goOn hs Pc.noConfusion trivial
        · exact hcommit.1.startAgain hs
      · exact hcommit.1.goOn (hcommit.2 (Option.some_ne_none _)) Pc.noConfusion trivial

/-- A change of the rings that keeps the slots that are in them. -/
theorem Booked.of_rings (h : s.Booked) {rings : UInt64 → Fifo Slot ringCapacity}
    (hkeep : ∀ g, (s.rings g).items <+: (rings g).items)
    (hslots : ∀ g, ∀ slot ∈ (rings g).items, srcIsValid slot.src = true) :
    { s with rings := rings }.Booked := by
  have hcarried : ∀ c tag, s.Carried c tag → ({ s with rings := rings } : Storaged).Carried c tag := by
    rintro c tag ⟨slot, hslot, hc⟩
    rcases hkeep tag.1 with ⟨new, hnew⟩
    refine ⟨slot, ?_, hc⟩
    show (rings tag.1).items[tag.2]? = some slot
    rw [← hnew, List.getElem?_append_left (List.getElem?_eq_some_iff.mp hslot).1]
    exact hslot
  exact ⟨h.laid, hslots, h.aligned.imp hcarried, h.batched.imp hcarried⟩

/-- `ring_release` for a source that has a ring. -/
theorem release_some {stop : Bool} {ns : Ns} {gen : UInt64} (h : (s.srcs ns).ring = some gen) :
    s.release stop ns = { s with
      rings := Function.update s.rings gen ((s.rings gen).release (s.srcs ns).taken)
      srcs := if stop then s.srcs
        else Function.update s.srcs ns { s.srcs ns with taken := 0, added := false }
      pc := if ns = 0 then .release stop 1 else if stop then .closeCommit else .top } := by
  unfold Storaged.release
  dsimp only
  rw [h]
  cases stop <;> rfl

/-- The same for a source without one. -/
theorem release_none {stop : Bool} {ns : Ns} (h : (s.srcs ns).ring = none) :
    s.release stop ns = { s with
      srcs := if stop then s.srcs
        else Function.update s.srcs ns { s.srcs ns with taken := 0, added := false }
      pc := if ns = 0 then .release stop 1 else if stop then .closeCommit else .top } := by
  unfold Storaged.release
  dsimp only
  rw [h]
  cases stop <;> rfl

/-- `ring_release` takes no slot out of the history of its ring. -/
theorem Sound.release (h : s.Sound) (hw : s.hist.wal = some w) {stop : Bool} {ns : Ns}
    (hpc : s.pc = .release stop ns) : (s.release stop ns).Sound := by
  rcases h.session hw with ⟨-, hsession⟩
  rw [hpc] at hsession
  have hgo : ∀ rings srcs, (∀ g, (rings g).items = (s.rings g).items) →
      { s with
        rings := rings
        srcs := srcs
        pc := if ns = 0 then .release stop 1 else if stop then .closeCommit else .top }.Sound := by
    intro rings srcs hitems
    have hbooked : { s with rings := rings }.Booked := by
      refine h.booked.of_rings ?_ ?_
      · intro g
        exact hitems g ▸ List.prefix_refl (s.rings g).items
      · intro g
        rw [hitems g]
        exact h.booked.slots g
    -- the batch was committed before, so nothing is open
    refine @Sound.of_session { s with rings := rings, srcs := srcs, pc := _ } w 0
      ⟨hbooked.laid, hbooked.slots, hbooked.aligned, hbooked.batched⟩
      ⟨hsession.wal, hsession.src, hsession.room⟩ ?_ (Nat.zero_le _) ?_
    · dsimp only
      split_ifs <;> exact Pc.noConfusion
    · dsimp only
      split_ifs <;> trivial
  cases hring : (s.srcs ns).ring with
  | none =>
      rw [release_none hring]
      exact hgo s.rings _ fun _ => rfl
  | some gen =>
      rw [release_some hring]
      refine hgo _ _ ?_
      intro g
      -- a release moves the position; the items of a ring are all that it ever held
      by_cases hg : g = gen
      · rw [hg, Function.update_self, Fifo.release_items]
      · rw [Function.update_of_ne hg]

/-- Every step of `main`. -/
theorem Sound.advance (h : s.Sound) (hfits : s.hist.dir.size < diskBytes)
    (hw : s.hist.wal = some w) {env : Env} (hundo : s.pc.Commits → ¬ w.UndoFails env.commit) :
    (s.advance w env).Sound := by
  rcases h.session hw with ⟨hrun, hsession⟩
  -- both records are short, so the buffer has room for them
  have hboot : (Hist.bootReq w { bootNow := env.now }).body.bytes.length = 12 := by
    simp [Hist.bootReq, bootBody]
  have hshut : (Hist.shutReq w recShutSignal { shutNow := env.now }).body.bytes.length = 8 := by
    simp [Hist.shutReq, shutdownBody]
  unfold Storaged.advance
  cases hpc : s.pc with
  | down => exact absurd hpc hrun
  | boot =>
      rw [hpc] at hsession
      refine h.booked.addOrExit hsession ?_ (by rw [hboot]; omega) env.clk Pc.noConfusion le_rfl trivial
      exact ne_of_beq_false rfl
  | bootCommit =>
      exact h.commitOrExit hfits hw (hundo (by rw [hpc]; trivial)) Pc.noConfusion trivial
  | noteGen ns => exact h.noteGen hw hpc env
  | genCommit ns =>
      exact h.commitOrExit hfits hw (hundo (by rw [hpc]; trivial)) (nextGen_ne_down ns).1
        (nextGen_ne_down ns).2
  | top =>
      rw [hpc] at hsession
      refine h.booked.goOn ⟨w, hsession⟩ ?_ ?_
      · split_ifs <;> exact Pc.noConfusion
      · split_ifs
        · rfl
        · trivial
  | drain ns => exact h.drain hw hpc env
  | due =>
      rw [hpc] at hsession
      refine h.booked.goOn ⟨w, hsession⟩ ?_ ?_
      · split_ifs <;> exact Pc.noConfusion
      · split_ifs
        · rfl
        · trivial
  | noteSeq stop noted ns => exact h.noteSeq hw hpc env
  | commit stop noted => exact h.commitBatch hfits hw hpc (hundo (by rw [hpc]; trivial))
  | release stop ns => exact h.release hw hpc
  | closeCommit =>
      exact h.commitOrExit hfits hw (hundo (by rw [hpc]; trivial)) Pc.noConfusion trivial
  | shutdown =>
      rw [hpc] at hsession
      refine h.booked.addOrExit hsession ?_ (by rw [hshut]; omega) env.clk Pc.noConfusion le_rfl trivial
      exact ne_of_beq_false rfl
  | shutCommit =>
      exact (h.booked.commit hfits hsession (hundo (by rw [hpc]; trivial)) env.now).1.exit

/-! ## Starting -/

end Storaged

/-- What the scan of the newest segment finds; nothing, if there is none. -/
def newestScan (d : Dir) : WalScan :=
  match newestSegment d with
  | some f => walScan (d.read f)
  | none => {}

theorem Layout.newestScan_dir {l : Layout} (hfit : l.count < 2 ^ 64) :
    newestScan l.dir = walScan (l.last.bytes ++ l.torn) := by
  unfold newestScan
  rw [newestSegment_dir hfit]
  dsimp only
  rw [read_dir hfit]

/-- The session that `wal_open` opens: it remembers the scan of the newest
segment, and its batch is still to be opened. -/
structure Wal.Opened (w : Wal) (src : UInt8) (d : Dir) : Prop where
  src : w.src = src
  recovered : w.recovered = newestScan d
  room : w.Room 0

theorem Wal.opened_of_fresh {w : Wal} {src : UInt8} {d : Dir} (hsrc : w.src = src)
    (hrec : w.recovered = newestScan d) (hbs : w.batchSamples = 0) (hbuf : w.buf = [])
    (hopen : w.openBatch = false) : w.Opened src d := by
  refine ⟨hsrc, hrec, ⟨by simp [hbs], fun _ => hbuf, ?_⟩⟩
  intro h
  rw [hopen] at h
  cases h

theorem Hist.openLog_session {h : Hist} (hinv : h.Inv) (hidle : h.wal = none) (src flags : UInt8)
    (io : OpenAns) :
    ((h.apply (.openLog src flags io)).wal = none ∧
      (h.apply (.openLog src flags io)).pending = h.pending) ∨
    ∃ w, (h.apply (.openLog src flags io)).wal = some w ∧
      (h.apply (.openLog src flags io)).pending = [] ∧ w.Opened src h.dir := by
  cases hrun : walOpenLog src flags io h.dir with
  | mk r d =>
      simp only [Hist.apply, hidle, hrun]
      rcases r with _ | ⟨_ | _, w⟩
      · exact Or.inl ⟨rfl, rfl⟩
      · exact Or.inl ⟨rfl, rfl⟩
      · refine Or.inr ⟨w, rfl, rfl, ?_⟩
        rcases hinv.laid with ⟨hnil, -⟩ | ⟨l, hdir, -⟩
        · rw [hnil] at hrun ⊢
          rw [((openLog_empty hrun).2 w rfl).2.2]
          exact Wal.opened_of_fresh rfl rfl rfl rfl rfl
        · have hcount := Layout.count_lt' (hdir ▸ hinv.fits)
          rw [hdir] at hrun ⊢
          rw [((Layout.openLog hcount hrun).2 w rfl).2.2]
          refine Wal.opened_of_fresh rfl ?_ rfl rfl rfl
          exact (Layout.newestScan_dir hcount).symm

/-- A RING_SEQ of the newest segment is the last one of the log. -/
theorem Hist.Inv.newestScan_ringSeq {h : Hist} (hinv : h.Inv) {ns : Ns}
    (hhas : (newestScan h.dir).hasRingSeq ns = true) :
    lastSeqOf ns (contents (keptRecords h.dir)) = some ((newestScan h.dir).ringSeq ns) := by
  rcases hinv.laid with ⟨hnil, -⟩ | ⟨l, hdir, -⟩
  · rw [hnil] at hhas
    cases hhas
  · have hcount := Layout.count_lt' (hdir ▸ hinv.fits)
    rw [hdir] at hhas ⊢
    rw [Layout.newestScan_dir hcount] at hhas ⊢
    rw [Layout.keptRecords_dir]
    exact l.scan_ringSeq hhas

namespace Storaged

variable {s s' : Storaged} {w : Wal}

/-- The start of a process. -/
theorem Sound.start (h : s.Sound) (hfits : s.hist.dir.size < diskBytes) (src : UInt8) (io : OpenAns) :
    (s.start src io).Sound := by
  unfold Storaged.start
  split_ifs with hguard
  · exact h
  · have hpc : s.pc = .down := by
      by_contra hne
      exact hguard (Or.inl hne)
    have hsrc : srcIsValid src = true := by
      by_contra hne
      exact hguard (Or.inr (Or.inl (by simpa using hne)))
    rcases h.live with ⟨-, hidle, hpending⟩ | ⟨hne, -⟩
    · have hinv : s.hist.Inv := ⟨hfits, h.booked.laid⟩
      have hlaid := Hist.laid_openLog hinv src 0 io
      have hlog : contents (keptRecords (s.hist.apply (.openLog src 0 io)).dir) = s.log := by
        rw [Hist.keptRecords_openLog hinv]
        rfl
      have hbatch : s.batch = [] := by
        have hbatched := h.booked.batched
        rw [hpending] at hbatched
        exact List.forall₂_nil_left_iff.mp hbatched
      -- the log is as it was, and no batch is open
      have hbooked : ∀ pc srcs, (s.hist.apply (.openLog src 0 io)).pending = [] →
          { s with hist := s.hist.apply (.openLog src 0 io), pc := pc, srcs := srcs }.Booked := by
        intro pc srcs hnil
        refine ⟨hlaid, h.booked.slots, ?_, ?_⟩
        · show List.Forall₂ s.Carried (samples (contents (keptRecords _))) s.logged
          rw [hlog]
          exact h.booked.aligned
        · show List.Forall₂ s.Carried (samples (s.hist.apply _).pending) s.batch
          rw [hnil, hbatch]
          exact .nil
      rcases Hist.openLog_session hinv hidle src 0 io with
        ⟨hnone, hsame⟩ | ⟨w, hsome, hnil, hopened⟩
      · dsimp only
        rw [hnone]
        have hnil := hsame.trans hpending
        exact ⟨hbooked s.pc s.srcs hnil, Or.inl ⟨hpc, hnone, hnil⟩, h.noted⟩
      · dsimp only
        rw [hsome]
        refine @Sound.of_session { s with hist := _, pc := _, srcs := _ } w 0
          (hbooked _ _ hnil) ⟨hsome, ?_, hopened.room⟩ Pc.noConfusion le_rfl trivial
        rw [hopened.src]
        exact hsrc
    · exact absurd hpc hne

/-- The call on the log that undoes a failed commit does not fail. -/
def Act.UndoOk (s : Storaged) : Act → Prop
  | .step env => s.pc.Commits → ∀ w, s.hist.wal = some w → ¬ w.UndoFails env.commit
  | _ => True

theorem Sound.push (h : s.Sound) (gen : UInt64) (slot : Slot) : (s.push gen slot).Sound := by
  unfold Storaged.push
  split_ifs with hguard
  · exact h
  · have hsrc : srcIsValid slot.src = true := by
      by_contra hne
      exact hguard (Or.inr (Or.inl (by simpa using hne)))
    -- the ring numbers the slot, and does not look at the rest of it
    have hnew : srcIsValid ({ slot with seq := UInt64.ofNat (s.rings gen).items.length } :
        Slot).src = true := hsrc
    generalize ({ slot with seq := UInt64.ofNat (s.rings gen).items.length } : Slot) = new at hnew ⊢
    have hitems : ∀ g, (s.rings g).items <+:
        (Function.update s.rings gen ((s.rings gen).push new) g).items ∧
        ∀ slot ∈ (Function.update s.rings gen ((s.rings gen).push new) g).items,
          srcIsValid slot.src = true := by
      intro g
      by_cases hg : g = gen
      · subst hg
        rw [Function.update_self]
        rcases Fifo.push_items (s.rings g) new with heq | heq
        · rw [heq]
          exact ⟨List.prefix_rfl, h.booked.slots g⟩
        · rw [heq]
          refine ⟨List.prefix_append _ _, ?_⟩
          intro slot' hmem
          rcases List.mem_append.mp hmem with hmem | hmem
          · exact h.booked.slots g slot' hmem
          · rw [List.mem_singleton.mp hmem]
            exact hnew
      · rw [Function.update_of_ne hg]
        exact ⟨List.prefix_rfl, h.booked.slots g⟩
    exact h.of_same (h.booked.of_rings (fun g => (hitems g).1) fun g => (hitems g).2) rfl rfl

theorem Sound.apply (h : s.Sound) (hfits : s.hist.dir.size < diskBytes) {a : Act}
    (hundo : a.UndoOk s) : (s.apply a).Sound := by
  cases a with
  | create ns gen =>
      show (s.create ns gen).Sound
      unfold Storaged.create
      split_ifs
      · exact h.of_same ⟨h.booked.laid, h.booked.slots, h.booked.aligned, h.booked.batched⟩ rfl rfl
      · exact h
  | push gen slot => exact h.push gen slot
  | start src io => exact h.start hfits src io
  | step env =>
      unfold Storaged.apply
      cases hw : s.hist.wal with
      | none => exact h
      | some w => exact h.advance hfits hw fun hpc => hundo hpc w hw
  | kill => exact h.booked.exit

/-- What holds in every state of a run. -/
structure Inv (s : Storaged) : Prop where
  fits : s.hist.dir.size < diskBytes
  sound : s.Sound

theorem inv_init : ({} : Storaged).Inv := by
  refine ⟨by decide, ⟨⟨Or.inl ⟨rfl, rfl⟩, ?_, .nil, .nil⟩, Or.inl ⟨rfl, rfl, rfl⟩, trivial⟩⟩
  intro g slot hslot
  cases hslot

theorem inv_step (h : s.Inv) {a : Act} (hundo : a.UndoOk s) : (s.step a).Inv := by
  unfold Storaged.step
  split_ifs with hfits
  · exact ⟨hfits, h.sound.apply h.fits hundo⟩
  · exact h

end Storaged

end Carwatch.Store
