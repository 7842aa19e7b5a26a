import Carwatch.Store.History

/-!
# Carwatch.Store.Failure — what a failed `wal_commit` leaves behind

`wal.h` promises that a `wal_commit` that returns -1 has cut the file back and
discarded the batch. Two of its exits break the promise: the one taken when
the next segment cannot be made, after the batch is durable, and the one taken
when the truncation that undoes the batch fails.

* `Hist.FailureAtomic` — the promise, with what later calls may rely on;
* `commit_failure_durable` — a batch that is in the log although `wal_commit`
  returned -1;
* `commit_failure_atomic` — the promise holds in every run that takes neither
  exit.
-/

namespace Carwatch.Store

open Carwatch.Lib

/-! ## The promise -/

/-- `wal_commit` takes neither of its two bad exits. -/
def Wal.CommitOk (w : Wal) (io : CommitAns) : Prop :=
  ¬ w.UndoFails io ∧ (w.Rolls io → ¬ io.create.Fails)

/-- The same for an action of a history without garbage. -/
def LogAct.CommitOk (h : Hist) (a : LogAct) : Prop := a.UndoOk h ∧ a.RollOk h ∧ a.NoGarbage

namespace Hist

/-- A `wal_add` and a `wal_commit` that returns 0 put the batch, and nothing
else, behind what recovery keeps. -/
def Appends (h : Hist) : Prop :=
  ∀ w, h.wal = some w → ∀ (q : AddReq) (clk : BeginClock) (ok : Bool) (w₁ : Wal),
    q.run w clk = (ok, w₁) → w₁.openBatch = true →
    ∀ (now : Now) (io : CommitAns) (w₂ : Wal) (d : Dir),
      walCommit w₁ now io h.dir = (some (true, w₂), d) →
      ∃ com, keptRecords d = keptRecords h.dir ++ (records w₁.buf ++ [com])

/-- A `wal_commit` that returns -1 leaves the records recovery would keep as
they were, and leaves `*w` such that every later batch that is acknowledged is
kept. -/
def FailureAtomic (h : Hist) (w : Wal) (now : Now) (io : CommitAns) : Prop :=
  ∀ w' d', walCommit w now io h.dir = (some (false, w'), d') →
    keptRecords d' = keptRecords h.dir ∧
    ∀ later, Meets step (fun h a => a.CommitOk h)
        { h with dir := d', wal := some w', pending := [] } later →
      (run step { h with dir := d', wal := some w', pending := [] } later).Appends

/-- A session on a layout appends whole batches to it. -/
theorem Inv.appends {h : Hist} (hinv : h.Inv) : h.Appends := by
  intro w hw q clk ok w₁ hadd hopen now io w₂ d hrun
  obtain ⟨l, rs, hdir, hon, -⟩ := hinv.laid.session hw
  obtain ⟨new, hholds, hsame, -⟩ := walAdd_holds hon.holds hadd
  have hon₁ : w₁.On l (rs ++ new) := by
    refine ⟨hon.torn, hholds, ?_⟩
    rw [hsame.fd, hsame.segBytes]
    exact hon.file
  -- the buffer decodes to the records it holds
  have hbuf : records w₁.buf = rs ++ new := by
    have h := records_images hholds.wf []
    rw [List.append_nil, records_nil, List.append_nil] at h
    rw [hholds.buf]
    exact h
  have hcount : l.count < 2 ^ 61 := lt_trans (Layout.count_lt (hdir ▸ hinv.fits)) (by norm_num)
  rw [hdir] at hrun ⊢
  generalize hr : some (true, w₂) = r at hrun
  cases hon₁.commit hcount hopen hrun with
  | undone w' hsame' hon' hfd => simp at hr
  | stuck b hb w' hon' hfail => simp at hr
  | torn p hp => simp at hr
  | written b hb l' hl' r' hr' hfd =>
      obtain ⟨com, hcom⟩ := hb.recs
      refine ⟨com, ?_⟩
      rw [Layout.keptRecords_dir, Layout.keptRecords_dir, hl'.recs, hbuf, hcom]

end Hist

theorem inv_of_commitOk {h : Hist} (hinv : h.Inv) {acts : List LogAct}
    (hacts : Meets Hist.step (fun h a => a.CommitOk h) h acts) : (run Hist.step h acts).Inv :=
  meets_invariant Hist.step _ Hist.Inv
    (fun _ _ hi ha => Hist.inv_step hi ha.1 ha.2.2) h hinv acts hacts

/-! ## When it holds -/

/-- In every run whose commits take neither bad exit, every `wal_commit` that
takes neither keeps its promise. -/
theorem commit_failure_atomic (acts : List LogAct)
    (hacts : Meets Hist.step (fun h a => a.CommitOk h) {} acts) (w : Wal)
    (hw : (run Hist.step {} acts).wal = some w) (hopen : w.openBatch = true) (now : Now)
    (io : CommitAns) (hio : w.CommitOk io) :
    (run Hist.step {} acts).FailureAtomic w now io := by
  have hinv := inv_of_commitOk Hist.inv_init hacts
  generalize run Hist.step {} acts = h at hinv hw
  obtain ⟨l, rs, hdir, hon, -⟩ := hinv.laid.session hw
  have hfits := hinv.fits
  intro w' d' hrun
  rw [hdir] at hrun hfits
  have hcount : l.count < 2 ^ 61 := lt_trans (Layout.count_lt hfits) (by norm_num)
  generalize hr : some (false, w') = r at hrun
  cases hon.commit hcount hopen hrun with
  | undone w₁ hsame hon₁ hfd =>
      obtain rfl := (Prod.mk.inj (Option.some.inj hr)).2
      rw [hdir]
      refine ⟨rfl, fun later hlater => ?_⟩
      -- the state behind the failed commit is in order again
      have hinv' : Hist.Inv { h with dir := l.dir, wal := some w', pending := [] } := by
        refine ⟨hfits, Or.inr ⟨l, rfl, fun w₂ hw₂ => ⟨[], ?_, rfl⟩⟩⟩
        rwa [← Option.some.inj hw₂]
      exact (inv_of_commitOk hinv' hlater).appends
  | stuck b hb w₁ hon₁ hfail => exact absurd hfail hio.1
  | torn p hp => simp at hr
  | written b hb l' hl' r' hr' hfd =>
      rcases hr' with rfl | ⟨ok, w₁, rfl, -, -, hfail⟩
      · simp at hr
      · obtain ⟨rfl, -⟩ := Prod.mk.inj (Option.some.inj hr)
        exact absurd (hfail rfl).2.1 (hio.2 (hfail rfl).1)

/-- A batch of which ten bytes are written, and cut off again. -/
theorem commit_failure_atomic_undone :
    ∃ w, (run Hist.step {} [.openLog 1 0 {}, .add emptyEvent {}]).wal = some w ∧
      w.openBatch = true ∧
      (run Hist.step {} [.openLog 1 0 {}, .add emptyEvent {}]).FailureAtomic w {}
        { writes := [.wrote 10, .fail] } := by
  have hopened : (run Hist.step {} [.openLog 1 0 {}, .add emptyEvent {}]).wal.map
      (fun w => w.openBatch) = some true := by decide +kernel
  obtain ⟨w, hw, hopen⟩ := Option.map_eq_some_iff.mp hopened
  refine ⟨w, hw, hopen, ?_⟩
  apply commit_failure_atomic [.openLog 1 0 {}, .add emptyEvent {}] _ w hw hopen
  · constructor
    · simp [Wal.UndoFails]
    · simp [CreateAns.Fails]
  · simp [LogAct.CommitOk, LogAct.UndoOk, LogAct.RollOk, LogAct.NoGarbage]

/-! ## When it does not -/

/-- The promise is broken: the batch is written, its fsync and the truncation
fail, and recovery would keep what `wal_commit` reported as gone. -/
theorem commit_failure_durable :
    ¬ ∀ (acts : List LogAct) (w : Wal) (now : Now) (io : CommitAns),
      (run Hist.step {} acts).wal = some w → w.openBatch = true →
      (run Hist.step {} acts).FailureAtomic w now io := by
  intro hall
  let h := run Hist.step {} [.openLog 1 0 {}, .add emptyEvent {}]
  let res := fun w => walCommit w {} { fsync := some false, ftruncate := some false } h.dir
  have hrun : h.wal.map (fun w => (w.openBatch, (res w).1.map Prod.fst,
      decide (keptRecords (res w).2 = keptRecords h.dir))) =
      some (true, some false, false) := by decide +kernel
  obtain ⟨w, hw, hres⟩ := Option.map_eq_some_iff.mp hrun
  simp only [Prod.mk.injEq, Option.map_eq_some_iff, decide_eq_false_iff_not] at hres
  obtain ⟨hopen, ⟨⟨ok, w'⟩, hfail, rfl⟩, hkept⟩ := hres
  have hatomic := hall [.openLog 1 0 {}, .add emptyEvent {}] w {}
    { fsync := some false, ftruncate := some false } hw hopen
  -- the call returned -1, so recovery must not see the batch; it does
  exact hkept (hatomic w' (res w).2 (Prod.ext hfail rfl)).1

end Carwatch.Store
