import Carwatch.Lib.Machine
import Carwatch.Store.Layout

/-!
# Carwatch.Store.History — histories of sessions on one directory

The log as a machine: its state is the directory and the `wal_t` of the
running session, its actions are the calls on the log, with everything the
system calls answer, and the deaths of the process. `wal_open` and `wal_close`
are sequences of these calls (`walOpen_calls`, `walClose_calls`), so every
history of sessions is a run.

* `Wal.On` — the session agrees with the layout of the directory;
* `Wal.On.commit` — what `walCommit` does to a layout, as `CommitEffect`;
* `Hist` — the machine, with ghost fields for what callers were told;
* `Hist.Inv` — every directory reached has a layout (`inv_run`).
-/

namespace Carwatch.Store

open Carwatch.Lib

/-! ## Sessions on a layout -/

/-- The session `w` holds the records `rs` in its buffer and appends to the
last segment of `l`, or to none after a rollover that failed. -/
structure Wal.On (w : Wal) (l : Layout) (rs : List Rec) : Prop where
  torn : l.torn = []
  holds : w.Holds l.count rs
  file : ∀ f, w.fd = some f → f = l.last.first ∧ w.segBytes = l.last.bytes.length

/-- The batch `b` is what the buffer of `w` held, closed by a COMMIT. -/
structure Batch.Of (b : Batch) (w : Wal) (rs : List Rec) : Prop where
  recs : ∃ com, b.recs = rs ++ [com]
  contents : contents b.recs = contents rs
  boot : ∀ r ∈ b.recs, r.hdr.bootId = w.bootId
  few : b.recs.length < 2 ^ 10

/-- The batch `wal_commit` writes. -/
theorem Wal.Holds.batch_of {w w₁ : Wal} {n : ℕ} {rs : List Rec} (h : w.Holds n rs)
    (hopen : w.openBatch = true) {now : Now}
    (happ : append w RecKind.commit.code w.src now (commitBody w.nextTxn w.batchSamples) =
      some w₁) :
    ∃ b : Batch, b.Of w rs ∧ Numbered n b.recs ∧ w.SameFile w₁ ∧ w₁.buf = b.bytes ∧
      w₁.nextSeq = UInt64.ofNat (n + b.recs.length) ∧ w₁.batchSeq0 = w.batchSeq0 := by
  obtain ⟨b, hrecs, hcont, hnum, hboot, hsame, hbuf, hnext, hseq⟩ := h.batch hopen happ
  have hlen := append_length_le happ
  have hbytes : 44 * b.recs.length ≤ b.bytes.length := length_images_ge b.recs
  have hfew : b.recs.length < 2 ^ 10 := by
    rw [hbuf] at hlen
    simp only [walBufBytes, walBatchSamples, recMaxSize, recMaxBody, recHdrSize, recCrcSize,
      recEventTextMax] at hlen
    omega
  exact ⟨b, ⟨hrecs, hcont, hboot, hfew⟩, hnum, hsame, hbuf, hnext, hseq⟩

/-- The layout grew by the batch `b`, and maybe by a segment after it. -/
def Layout.Grown (l : Layout) (b : Batch) (l' : Layout) : Prop :=
  ∃ hnum, l' = l.push b hnum ∨ l' = (l.push b hnum).roll (l.push_batches b hnum)

theorem Layout.Grown.recs {l l' : Layout} {b : Batch} (h : l.Grown b l') :
    l'.recs = l.recs ++ b.recs := by
  obtain ⟨hnum, rfl | rfl⟩ := h
  · rw [Layout.recs_push]
  · rw [Layout.recs_roll, Layout.recs_push]

/-- The batch of `w` gets durable and fills the segment. -/
def Wal.Rolls (w : Wal) (io : CommitAns) : Prop :=
  w.openBatch = true ∧ w.fd ≠ none ∧ writeEnd io.writes (w.buf.length + 60) = .done ∧ io.fsync = some true ∧
  walSegmentBytes ≤ w.segBytes + (w.buf.length + 60) ∧ io.close ≠ none

/-- The batch of `w` does not get durable, and what the file took of it is not
cut off again. -/
def Wal.UndoFails (w : Wal) (io : CommitAns) : Prop :=
  w.openBatch = true ∧ w.fd ≠ none ∧
  (writeEnd io.writes (w.buf.length + 60) = .failed ∨
    writeEnd io.writes (w.buf.length + 60) = .done ∧ io.fsync = some false) ∧
  io.ftruncate = some false ∧ 0 < bytesTaken io.writes (w.buf.length + 60)

instance (w : Wal) (io : CommitAns) : Decidable (w.Rolls io) :=
  inferInstanceAs (Decidable (_ ∧ _ ∧ _ ∧ _ ∧ _ ∧ _))

instance (w : Wal) (io : CommitAns) : Decidable (w.UndoFails io) :=
  inferInstanceAs (Decidable (_ ∧ _ ∧ _ ∧ _ ∧ _))

/-- What `wal_commit` does to the layout it is called on, with `rs` in the
buffer of `w`. -/
inductive CommitEffect (w : Wal) (l : Layout) (rs : List Rec) (io : CommitAns) :
    Option (Bool × Wal) → Dir → Prop
  /-- it failed, and the log is as it was -/
  | undone (w' : Wal) (hsame : w.SameSession w') (hon : w'.On l []) (hfd : w'.fd = w.fd) :
      CommitEffect w l rs io (some (false, w')) l.dir
  /-- it failed, and so did the truncation that undoes it -/
  | stuck (b : Batch) (hb : b.Of w rs) (w' : Wal) (hon : w'.On l []) (hfail : w.UndoFails io) :
      CommitEffect w l rs io (some (false, w')) (l.dir.extend (some l.last.first)
        (b.bytes.take (bytesTaken io.writes (w.buf.length + 60))))
  /-- it was killed before the batch was all written -/
  | torn (p : Bytes) (hp : Torn p) : CommitEffect w l rs io none (l.tear p hp).dir
  /-- the batch is written; a failure can only be that of the next segment -/
  | written (b : Batch) (hb : b.Of w rs) (l' : Layout) (hl' : l.Grown b l')
      (r : Option (Bool × Wal))
      (hr : r = none ∨ ∃ ok w', r = some (ok, w') ∧ w.SameSession w' ∧ w'.On l' [] ∧
        (ok = false → w.Rolls io ∧ io.create.Fails ∧ w'.fd = none)) (hfd : w.fd ≠ none) :
      CommitEffect w l rs io r l'.dir

theorem Wal.On.settled {w : Wal} {l : Layout} {b : Batch} (hnum : Numbered l.count b.recs)
    (hbuf : w.buf = b.bytes) (hnext : w.nextSeq = UInt64.ofNat (l.count + b.recs.length))
    (hfile : ∀ f, w.fd = some f → f = l.last.first ∧ w.segBytes = l.last.bytes.length) :
    w.settled.On (l.push b hnum) [] := by
  refine ⟨rfl, ?_, ?_⟩
  · refine ⟨rfl, rfl, by simp, trivial, numbered_nil _, ?_, fun hne => absurd rfl hne, by simp⟩
    simp only [Wal.settled, hnext, Layout.count, Layout.recs_push, List.length_append,
      List.length_nil, Nat.add_zero]
  · intro f hf
    obtain ⟨hf', hseg⟩ := hfile f hf
    refine ⟨hf', ?_⟩
    simp only [Wal.settled, hseg, hbuf, Layout.push, SegLog.bytes, SegLog.push,
      bytesOf_append_singleton, List.length_append]

theorem Wal.On.closed {w : Wal} {l : Layout} {rs : List Rec} (hon : w.On l rs) :
    { w with fd := none }.On l rs := by
  have h := hon.holds
  exact ⟨hon.torn, ⟨h.buf, h.isOpen, h.wf, h.framed, h.numbered, h.next, h.first, h.boot⟩, by simp⟩

/-- The rollover, whatever `create_segment` does. -/
theorem CommitEffect.rolled {w w₁ : Wal} {l : Layout} {rs : List Rec} {io : CommitAns} {b : Batch}
    (hb : b.Of w rs) (hnum : Numbered l.count b.recs) (hrolls : w.Rolls io)
    (hsame : w.SameSession w₁) (hon : w₁.On (l.push b hnum) []) (hfd : w₁.fd = none)
    (hcount : (l.push b hnum).count < 2 ^ 64) {r : Option (Bool × Wal)} {d' : Dir}
    (hcreate : createSegment w₁ (UInt64.ofNat (l.push b hnum).count) io.create
      (l.push b hnum).dir = (r, d')) :
    CommitEffect w l rs io r d' := by
  have hne := l.push_batches b hnum
  have hfree := Layout.name_free hcount hne
  have hgrown : l.Grown b (l.push b hnum) := ⟨hnum, Or.inl rfl⟩
  have hgrown' : l.Grown b ((l.push b hnum).roll hne) := ⟨hnum, Or.inr rfl⟩
  -- the session after a failed rollover has no segment open
  have hclosed : w₁.On ((l.push b hnum).roll hne) [] := by
    refine ⟨rfl, ?_, fun f hf => by simp [hfd] at hf⟩
    rw [Layout.count_roll]
    exact hon.holds
  rcases createSegment_cases hcreate with ⟨rfl, -, -, rfl⟩ | ⟨hr, hd⟩
  · rw [Layout.dir_roll rfl hne]
    refine .written b hb _ hgrown' _ (Or.inr ⟨true, _, rfl, ?_, ?_, by simp⟩) hrolls.2.1
    · exact ⟨hsame.boot, hsame.src, hsame.flags, hsame.recovered⟩
    · refine ⟨rfl, ?_, ?_⟩
      · have h := hclosed.holds
        exact ⟨h.buf, h.isOpen, h.wf, h.framed, h.numbered, h.next, h.first, h.boot⟩
      · intro f hf
        simp only [Option.some.injEq] at hf
        exact ⟨hf.symm, rfl⟩
  · have hr' : ∀ l', w₁.On l' [] → r = none ∨ ∃ ok w', r = some (ok, w') ∧ w.SameSession w' ∧
        w'.On l' [] ∧ (ok = false → w.Rolls io ∧ io.create.Fails ∧ w'.fd = none) := by
      intro l' hl'
      rcases hr with rfl | ⟨rfl, hfail⟩
      · exact Or.inl rfl
      · refine Or.inr ⟨false, w₁, rfl, hsame, hl', fun _ => ⟨hrolls, hfail.resolve_right ?_, hfd⟩⟩
        rintro ⟨s, hs, hname⟩
        exact hfree s hs hname
    rcases hd with rfl | ⟨-, rfl⟩
    · exact .written b hb _ hgrown r (hr' _ hon) hrolls.2.1
    · rw [Layout.dir_roll rfl hne]
      exact .written b hb _ hgrown' r (hr' _ hclosed) hrolls.2.1

theorem Wal.On.dropped {w w₁ : Wal} {l : Layout} {rs : List Rec} (hon : w.On l rs) (hne : rs ≠ [])
    (hseq : w₁.batchSeq0 = w.batchSeq0) (hfd : w₁.fd = w.fd) (hseg : w₁.segBytes = w.segBytes) :
    (dropBatch w₁).On l [] := by
  refine ⟨hon.torn, Wal.Holds.drop (hseq.trans (hon.holds.first hne)), fun f hf => ?_⟩
  change w₁.fd = some f at hf
  change f = l.last.first ∧ w₁.segBytes = _
  rw [hseg]
  exact hon.file f (hfd ▸ hf)

/-- What `wal_commit` does to a layout. -/
theorem Wal.On.commit {w : Wal} {l : Layout} {rs : List Rec} (hon : w.On l rs)
    (hfit : l.count < 2 ^ 61) (hopen : w.openBatch = true) {now : Now} {io : CommitAns}
    {r : Option (Bool × Wal)} {d' : Dir} (h : walCommit w now io l.dir = (r, d')) :
    CommitEffect w l rs io r d' := by
  have hcount : l.count < 2 ^ 64 := lt_trans hfit (by norm_num)
  have hne : rs ≠ [] := by
    rintro rfl
    simp [hon.holds.isOpen] at hopen
  cases happ : append w RecKind.commit.code w.src now (commitBody w.nextTxn w.batchSamples) with
  | none =>
      unfold walCommit at h
      rw [hopen, happ] at h
      obtain ⟨rfl, rfl⟩ := Prod.mk.inj h
      exact .undone _ ⟨rfl, rfl, rfl, rfl⟩ (hon.dropped hne rfl rfl rfl) rfl
  | some w₁ =>
      obtain ⟨b, hb, hnum, hsame, hbuf, hnext, hseq⟩ := hon.holds.batch_of hopen happ
      have hfew := hb.few
      have hlen' := append_commit_length happ
      have hdrop := hon.dropped hne hseq hsame.fd hsame.segBytes
      have hgrown : l.Grown b (l.push b hnum) := ⟨hnum, Or.inl rfl⟩
      have hfile : ∀ f, w₁.fd = some f → f = l.last.first ∧ w₁.segBytes = l.last.bytes.length := by
        rw [hsame.fd, hsame.segBytes]
        exact hon.file
      -- the batch is small, so the seqs do not wrap behind it either
      have hcount' : (l.push b hnum).count < 2 ^ 64 := by
        rw [Layout.count, Layout.recs_push, List.length_append]
        change l.count + b.recs.length < 2 ^ 64
        omega
      cases walCommit_outcome hopen happ h with
      | killed k hk =>
          cases hfd : w₁.fd with
          | none =>
              have htear := @CommitEffect.torn w l rs io [] (Or.inl rfl)
              rwa [← Layout.cut, Layout.cut_of_torn_nil hon.torn] at htear
          | some f =>
              rw [(hfile f hfd).1, hbuf]
              rcases Nat.lt_or_ge k b.bytes.length with hlt | hge
              · have hp : Torn (b.bytes.take k) :=
                  Or.inr ⟨b, List.take_prefix _ _, by rw [List.length_take]; omega⟩
                rw [Layout.dir_tear hcount hon.torn _ hp]
                exact .torn _ hp
              · rw [List.take_of_length_le hge, Layout.dir_push hcount hon.torn b hnum]
                exact .written b hb _ hgrown none (Or.inl rfl) (by simp [← hsame.fd, hfd])
      | undone seg k hfd hk =>
          obtain ⟨rfl, hseg⟩ := hfile seg hfd
          have hback : (l.dir.extend (some l.last.first) (w₁.buf.take k)).modify l.last.first
              (truncateTo w₁.segBytes) = l.dir := by
            rw [hseg, Dir.extend, Dir.modify_modify, Layout.modify_dir hcount, hon.torn]
            simp [Layout.dir, truncateTo, hon.torn]
          rw [hback]
          exact .undone _ (hsame.toSameSession.trans ⟨rfl, rfl, rfl, rfl⟩) hdrop hsame.fd
      | stuck seg hfd hio hend =>
          obtain ⟨rfl, -⟩ := hfile seg hfd
          have hfd' : w.fd ≠ none := by simp [← hsame.fd, hfd]
          rw [hlen'] at hend ⊢
          by_cases hzero : bytesTaken io.writes (w.buf.length + 60) = 0
          · -- nothing was written, so there is nothing to undo
            rw [hzero, List.take_zero, Dir.extend_nil]
            exact .undone _ (hsame.toSameSession.trans ⟨rfl, rfl, rfl, rfl⟩) hdrop hsame.fd
          · rw [hbuf]
            exact .stuck b hb _ hdrop ⟨hopen, hfd', hend, hio, Nat.pos_of_ne_zero hzero⟩
      | closed hfd => exact .undone _ (hsame.toSameSession.trans ⟨rfl, rfl, rfl, rfl⟩) hdrop hsame.fd
      | done seg hfd hroom =>
          obtain ⟨rfl, -⟩ := hfile seg hfd
          rw [hbuf, Layout.dir_push hcount hon.torn b hnum]
          refine .written b hb _ hgrown _ (Or.inr ⟨true, _, rfl, ?_, ?_, by simp⟩)
            (by simp [← hsame.fd, hfd])
          · exact hsame.toSameSession.trans ⟨rfl, rfl, rfl, rfl⟩
          · exact Wal.On.settled hnum hbuf hnext hfile
      | rolled seg hfd hend hsync hfull hclose r d' hcreate =>
          obtain ⟨rfl, -⟩ := hfile seg hfd
          have hset := (Wal.On.settled hnum hbuf hnext hfile).closed
          have hname : w₁.nextSeq = UInt64.ofNat (l.push b hnum).count := by
            rw [hnext, Layout.count, Layout.count, Layout.recs_push, List.length_append]
          rw [hbuf, Layout.dir_push hcount hon.torn b hnum, hname] at hcreate
          have hsame' : w.SameSession { w₁.settled with fd := none } :=
            hsame.toSameSession.trans ⟨rfl, rfl, rfl, rfl⟩
          have hrolls : w.Rolls io := by
            rw [hlen'] at hend hfull
            rw [hsame.segBytes] at hfull
            exact ⟨hopen, by simp [← hsame.fd, hfd], hend, hsync, hfull, hclose⟩
          exact CommitEffect.rolled hb hnum hrolls hsame' hset rfl hcount' hcreate

/-! ## `wal_open` on a layout -/

/-- The next seq, as `wal_open` finds it in the last segment. -/
theorem Layout.nextSeq_last (l : Layout) :
    (if (walScan (l.last.bytes ++ l.torn)).anyCommitted then
      (walScan (l.last.bytes ++ l.torn)).lastSeq + 1 else l.last.first) =
      UInt64.ofNat l.count := by
  obtain ⟨n, hscan⟩ := walScan_eq_out (l.last.bytes ++ l.torn)
  rw [hscan, l.scan_last]
  rcases List.eq_nil_or_concat l.last.batches with hnil | ⟨bs, b, hbs⟩
  · have hcount : l.count = (allRecs l.older).length := by
      rw [count, recs_eq, SegLog.recs, hnil, recsOf_nil, List.append_nil]
    rw [hnil, hcount, ← l.last_first]
    rfl
  · have hlast : l.recs = (allRecs l.older ++ recsOf bs ++ b.beg :: b.payload) ++ [b.com] := by
      rw [recs_eq, SegLog.recs, hbs]
      simp [Batch.recs]
    have hnum : Numbered 0 l.recs := l.numbered
    rw [hlast] at hnum
    have hseq := numbered_last hnum
    have hscanned : scannedAll l.last.batches {} = b.scanned (scannedAll bs {}) := by
      rw [hbs]
      simp [scannedAll]
    rw [hscanned]
    simp only [Batch.scanned_anyCommitted, Batch.scanned_lastSeq, if_true]
    rw [hseq, ofNat_add_one, Nat.zero_add, count, hlast]
    simp only [List.length_append, List.length_singleton]

/-- What the part of `wal_open` before its boot record does to a layout. -/
theorem Layout.openLog {l : Layout} (hfit : l.count < 2 ^ 64) {src flags : UInt8} {io : OpenAns}
    {r : Option (Bool × Wal)} {d' : Dir} (h : walOpenLog src flags io l.dir = (r, d')) :
    (d' = l.dir ∨ d' = l.cut.dir) ∧
    ∀ w, r = some (true, w) → d' = l.cut.dir ∧ w.On l.cut [] ∧
      w = recoveredWal src flags l.last.first (l.last.bytes ++ l.torn) := by
  have hnewest := newestSegment_dir hfit
  -- only the last segment is torn, and it is cut where its last batch ends
  have hcut : ∀ first, newestSegment l.dir = some first →
      l.dir.modify first (truncateTo (walScan (l.dir.read first)).committedLen) = l.cut.dir := by
    intro first hfirst
    rw [hnewest] at hfirst
    rw [← Option.some.inj hfirst, read_dir hfit, committedLen_last, dir_cut hfit]
  rcases walOpenLog_cases h with ⟨hfail, hd⟩ | ⟨hnone, -⟩ | ⟨first, hfirst, rfl, hd⟩
  · refine ⟨?_, fun w hw => absurd hw (hfail w)⟩
    rcases hd with rfl | ⟨first, hfirst, rfl⟩
    · exact Or.inl rfl
    · exact Or.inr (hcut first hfirst)
  · rw [hnewest] at hnone
    simp at hnone
  · have hd' : d' = l.cut.dir := by
      rcases hd with ⟨rfl, hle⟩ | rfl
      · rw [hnewest] at hfirst
        rw [← Option.some.inj hfirst, read_dir hfit, committedLen_last, List.length_append] at hle
        have htorn : l.torn = [] := List.length_eq_zero_iff.mp (by omega)
        rw [cut_of_torn_nil htorn]
      · exact hcut first hfirst
    rw [hnewest] at hfirst
    obtain rfl := Option.some.inj hfirst
    rw [read_dir hfit]
    refine ⟨Or.inr hd', fun w hw => ?_⟩
    obtain rfl := (Prod.mk.inj (Option.some.inj hw)).2
    refine ⟨hd', ⟨rfl, ?_, ?_⟩, rfl⟩
    · refine ⟨rfl, rfl, by simp, trivial, numbered_nil _, ?_, fun hne => absurd rfl hne, by simp⟩
      exact l.nextSeq_last
    · intro f hf
      exact ⟨(Option.some.inj hf).symm, l.committedLen_last⟩

/-- The same in a directory that holds no segment yet. -/
theorem openLog_empty {src flags : UInt8} {io : OpenAns} {r : Option (Bool × Wal)} {d' : Dir}
    (h : walOpenLog src flags io [] = (r, d')) :
    (d' = [] ∨ d' = Layout.fresh.dir) ∧
    ∀ w, r = some (true, w) → d' = Layout.fresh.dir ∧ w.On Layout.fresh [] ∧
      w = { firstWal src flags with fd := some 0 } := by
  rcases walOpenLog_cases h with ⟨hfail, hd⟩ | ⟨-, hcreate⟩ | ⟨first, hfirst, -⟩
  · refine ⟨?_, fun w hw => absurd hw (hfail w)⟩
    rcases hd with rfl | ⟨first, hfirst, -⟩
    · exact Or.inl rfl
    · simp [newestSegment] at hfirst
  · rcases createSegment_cases hcreate with ⟨rfl, -, -, rfl⟩ | ⟨hr, hd⟩
    · refine ⟨Or.inr rfl, fun w hw => ?_⟩
      obtain rfl := (Prod.mk.inj (Option.some.inj hw)).2
      refine ⟨rfl, ⟨rfl, ?_, ?_⟩, rfl⟩
      · exact ⟨rfl, rfl, by simp, trivial, numbered_nil _, rfl, fun hne => absurd rfl hne, by simp⟩
      · intro f hf
        exact ⟨(Option.some.inj hf).symm, rfl⟩
    · refine ⟨hd.imp id And.right, fun w hw => ?_⟩
      rcases hr with rfl | ⟨rfl, -⟩ <;> simp at hw
  · simp [newestSegment] at hfirst

/-! ## The machine -/

/-- What became of a batch callers had filled. -/
inductive Entry where
  /-- `wal_commit` returned 0 -/
  | acked (items : List Content)
  /-- the process died inside `wal_commit` -/
  | inFlight (items : List Content)

/-- The log directory with the session that runs on it. `pending`, `entries`
and `acked` only record what callers were told: the records accepted into the
open batch, the batches of the past, and for each segment its bytes when a
commit to it was last acknowledged. -/
structure Hist where
  dir : Dir := []
  wal : Option Wal := none
  pending : List Content := []
  entries : List Entry := []
  acked : UInt64 → Bytes := fun _ => []

/-- The calls on the log and the ways a session can end. -/
inductive LogAct where
  /-- `wal_open` up to its boot record -/
  | openLog (src flags : UInt8) (io : OpenAns)
  /-- `wal_add` -/
  | add (q : AddReq) (clk : BeginClock)
  /-- `wal_commit` -/
  | commit (now : Now) (io : CommitAns)
  /-- the process exits or is killed between two calls -/
  | kill
  /-- the machine dies, and leaves any bytes behind the acknowledged ones -/
  | crash (left : UInt64 → Bytes)

namespace Hist

/-- The state after `wal_commit` on `w` ended with the given result. -/
def committed (h : Hist) (w : Wal) : Option (Bool × Wal) × Dir → Hist
  | (none, d) =>
      { h with dir := d, wal := none, pending := [], entries := h.entries ++ [.inFlight h.pending] }
  | (some (false, w'), d) => { h with dir := d, wal := some w', pending := [] }
  | (some (true, w'), d) =>
      { h with
        dir := d
        wal := some w'
        pending := []
        entries := if w.openBatch then h.entries ++ [.acked h.pending] else h.entries
        acked := match w.openBatch, w.fd with
          | true, some f => Function.update h.acked f (d.read f)
          | _, _ => h.acked }

/-- One action. A call needs a session, `openLog` needs that there is none. -/
def apply (h : Hist) : LogAct → Hist
  | .openLog src flags io =>
      match h.wal with
      | some _ => h
      | none =>
          match walOpenLog src flags io h.dir with
          | (some (true, w), d) => { h with dir := d, wal := some w, pending := [] }
          | (_, d) => { h with dir := d }
  | .add q clk =>
      match h.wal with
      | none => h
      | some w =>
          { h with
            wal := some (q.run w clk).2
            pending := if (q.run w clk).1 then h.pending ++ [q.content] else h.pending }
  | .commit now io =>
      match h.wal with
      | none => h
      | some w => h.committed w (walCommit w now io h.dir)
  | .kill => { h with wal := none, pending := [] }
  | .crash left =>
      { h with
        dir := h.dir.map fun s => { s with data := h.acked s.first ++ left s.first }
        wal := none
        pending := [] }

/-- One action, on a disk that holds less than `off_t` can count. -/
def step (h : Hist) (a : LogAct) : Hist :=
  if (h.apply a).dir.size < diskBytes then h.apply a else h

/-! ### The invariant -/

/-- The directory has a layout, and the session agrees with it. -/
def Laid (h : Hist) : Prop :=
  (h.dir = [] ∧ h.wal = none) ∨
  ∃ l : Layout, h.dir = l.dir ∧
    ∀ w, h.wal = some w → ∃ rs, w.On l rs ∧ contents rs = h.pending

/-- What holds in every state of a history whose undo truncations succeed. -/
structure Inv (h : Hist) : Prop where
  fits : h.dir.size < diskBytes
  laid : h.Laid

end Hist

/-- A truncation that undoes a commit does not fail. -/
def LogAct.UndoOk (h : Hist) : LogAct → Prop
  | .commit _ io => ∀ w, h.wal = some w → ¬ w.UndoFails io
  | _ => True

/-- Making the next segment does not fail. -/
def LogAct.RollOk (h : Hist) : LogAct → Prop
  | .commit _ io => ∀ w, h.wal = some w → w.Rolls io → ¬ io.create.Fails
  | _ => True

/-- The action is not a crash that leaves garbage. -/
def LogAct.NoGarbage : LogAct → Prop
  | .crash _ => False
  | _ => True

namespace Hist

/-- A session with a layout under it. -/
theorem Laid.session {h : Hist} (hlaid : h.Laid) {w : Wal} (hw : h.wal = some w) :
    ∃ l rs, h.dir = l.dir ∧ w.On l rs ∧ contents rs = h.pending := by
  rcases hlaid with ⟨-, hnone⟩ | ⟨l, hdir, hon⟩
  · simp [hw] at hnone
  · obtain ⟨rs, hrs, hpend⟩ := hon w hw
    exact ⟨l, rs, hdir, hrs, hpend⟩

theorem laid_of_idle {h : Hist} {l : Layout} (hdir : h.dir = l.dir) (hidle : h.wal = none) :
    h.Laid :=
  Or.inr ⟨l, hdir, fun w hw => by simp [hidle] at hw⟩

theorem laid_openLog {h : Hist} (hinv : h.Inv) (src flags : UInt8) (io : OpenAns) :
    (h.apply (.openLog src flags io)).Laid := by
  cases hwal : h.wal with
  | some w =>
      simp only [apply, hwal]
      exact hinv.laid
  | none =>
      simp only [apply, hwal]
      cases hopen : walOpenLog src flags io h.dir with
      | mk r d =>
          -- where the directory can be afterwards, and what a session starts from
          have hend : (d = [] ∨ ∃ l : Layout, d = l.dir) ∧ ∀ w, r = some (true, w) →
              ∃ l : Layout, d = l.dir ∧ w.On l [] := by
            rcases hinv.laid with ⟨hnil, -⟩ | ⟨l, hdir, -⟩
            · rw [hnil] at hopen
              obtain ⟨hd, hw⟩ := openLog_empty hopen
              exact ⟨hd.imp id fun hd => ⟨_, hd⟩, fun w hr => ⟨_, (hw w hr).1, (hw w hr).2.1⟩⟩
            · have hcount := Layout.count_lt' (hdir ▸ hinv.fits)
              rw [hdir] at hopen
              obtain ⟨hd, hw⟩ := Layout.openLog hcount hopen
              exact ⟨Or.inr (hd.elim (fun hd => ⟨_, hd⟩) fun hd => ⟨_, hd⟩),
                fun w hr => ⟨_, (hw w hr).1, (hw w hr).2.1⟩⟩
          split
          · rename_i w d₁ heq
            obtain ⟨rfl, rfl⟩ := Prod.mk.inj heq
            obtain ⟨l, hd, hon⟩ := hend.2 w rfl
            refine Or.inr ⟨l, hd, fun w' hw' => ⟨[], ?_, rfl⟩⟩
            rwa [← Option.some.inj hw']
          · rename_i heq
            obtain ⟨rfl, rfl⟩ := Prod.mk.inj heq
            rcases hend.1 with hd | ⟨l, hd⟩
            · exact Or.inl ⟨hd, rfl⟩
            · exact laid_of_idle hd rfl

theorem laid_add {h : Hist} (hlaid : h.Laid) (q : AddReq) (clk : BeginClock) :
    (h.apply (.add q clk)).Laid := by
  cases hwal : h.wal with
  | none =>
      simp only [apply, hwal]
      exact hlaid
  | some w =>
      obtain ⟨l, rs, hdir, hon, hpend⟩ := hlaid.session hwal
      obtain ⟨new, hholds, hsame, hnew⟩ := walAdd_holds hon.holds (Prod.mk.eta.symm : q.run w clk = _)
      simp only [apply, hwal]
      refine Or.inr ⟨l, hdir, fun w' hw' => ⟨rs ++ new, ?_, ?_⟩⟩
      · obtain rfl := Option.some.inj hw'
        refine ⟨hon.torn, hholds, ?_⟩
        rw [hsame.fd, hsame.segBytes]
        exact hon.file
      · rw [contents_append, hnew, hpend]
        split_ifs <;> simp

/-- `wal_commit` leaves a layout and a session on it. -/
theorem laid_commit {h : Hist} (hinv : h.Inv) {now : Now} {io : CommitAns}
    (hundo : (LogAct.commit now io).UndoOk h) : (h.apply (.commit now io)).Laid := by
  cases hwal : h.wal with
  | none =>
      simp only [apply, hwal]
      exact hinv.laid
  | some w =>
      obtain ⟨l, rs, hdir, hon, hpend⟩ := hinv.laid.session hwal
      have hcount : l.count < 2 ^ 61 := lt_trans (Layout.count_lt (hdir ▸ hinv.fits)) (by norm_num)
      simp only [apply, hwal]
      by_cases hopen : w.openBatch = true
      · cases hrun : walCommit w now io h.dir with
        | mk r d =>
            rw [hdir] at hrun
            have heff := hon.commit hcount hopen hrun
            cases heff with
            | undone w' hsame hon' hfd =>
                exact Or.inr ⟨l, rfl, fun w'' hw'' => ⟨[], Option.some.inj hw'' ▸ hon', rfl⟩⟩
            | stuck b hb w' hon' hfail => exact absurd hfail (hundo w hwal)
            -- the process died in the middle of the batch: no session is left
            | torn p hp => exact laid_of_idle rfl rfl
            | written b hb l' hl' r hr hfd =>
                rcases hr with rfl | ⟨ok, w', rfl, -, hon', -⟩
                · exact laid_of_idle rfl rfl
                · cases ok <;>
                  exact Or.inr ⟨l', rfl, fun w'' hw'' => ⟨[], Option.some.inj hw'' ▸ hon', rfl⟩⟩
      -- nothing is open, so there is nothing to commit
      · have hrs : rs = [] := by
          cases rs with
          | nil => rfl
          | cons r rs => simp [hon.holds.isOpen] at hopen
        have hrun : walCommit w now io h.dir = (some (true, w), h.dir) := by
          simp [walCommit, hopen]
        rw [hrun]
        exact Or.inr ⟨l, hdir, fun w'' hw'' => ⟨[], Option.some.inj hw'' ▸ hrs ▸ hon, rfl⟩⟩

/-- Recovery keeps every record it would keep. -/
theorem keptRecords_openLog {h : Hist} (hinv : h.Inv) (src flags : UInt8) (io : OpenAns) :
    keptRecords (h.apply (.openLog src flags io)).dir = keptRecords h.dir := by
  cases hwal : h.wal with
  | some w => simp only [apply, hwal]
  | none =>
      cases hrun : walOpenLog src flags io h.dir with
      | mk r d =>
          have hdir : (h.apply (.openLog src flags io)).dir = d := by
            simp only [apply, hwal, hrun]
            split <;> rename_i heq <;> exact (Prod.mk.inj heq).2.symm
          rw [hdir]
          rcases hinv.laid with ⟨hnil, -⟩ | ⟨l, hl, -⟩
          · rw [hnil] at hrun ⊢
            rcases (openLog_empty hrun).1 with rfl | rfl
            · rfl
            · rw [Layout.keptRecords_dir]
              rfl
          · have hcount := Layout.count_lt' (hl ▸ hinv.fits)
            rw [hl] at hrun ⊢
            rcases (Layout.openLog hcount hrun).1 with rfl | rfl
            · rfl
            · rw [Layout.keptRecords_dir, Layout.keptRecords_dir]
              rfl

theorem inv_init : ({} : Hist).Inv := ⟨by decide, Or.inl ⟨rfl, rfl⟩⟩

theorem inv_step {h : Hist} {a : LogAct} (hinv : h.Inv) (hundo : a.UndoOk h)
    (hgarb : a.NoGarbage) : (h.step a).Inv := by
  unfold step
  split_ifs with hfit
  · refine ⟨hfit, ?_⟩
    cases a with
    | openLog src flags io => exact laid_openLog hinv src flags io
    | add q clk => exact laid_add hinv.laid q clk
    | commit now io => exact laid_commit hinv hundo
    | kill =>
        rcases hinv.laid with ⟨hnil, -⟩ | ⟨l, hdir, -⟩
        · exact Or.inl ⟨hnil, rfl⟩
        · exact laid_of_idle hdir rfl
    | crash left => exact hgarb.elim
  · exact hinv

/-- Every directory reached by calls whose undo truncations succeed has a
layout. -/
theorem inv_run {acts : List LogAct}
    (hacts : Meets step (fun h a => a.UndoOk h ∧ a.NoGarbage) {} acts) :
    (run step {} acts).Inv :=
  meets_invariant step _ Inv (fun _ _ hinv ha => inv_step hinv ha.1 ha.2) {} inv_init acts hacts

/-! ### `wal_open` and `wal_close` as calls -/

/-- The boot record `wal_open` adds. -/
def bootReq (w : Wal) (io : OpenAns) : AddReq where
  kind := RecKind.boot.code
  src := w.src
  now := io.bootNow
  body := bootBody w.prevEnd w.truncated w.recovered.recordsLost
  inside := by decide

/-- The shutdown record `wal_close` adds. -/
def shutReq (w : Wal) (reason : UInt8) (io : CloseAns) : AddReq where
  kind := RecKind.shutdown.code
  src := w.src
  now := io.shutNow
  body := shutdownBody reason
  inside := by decide

@[simp] theorem committed_dir (h : Hist) (w : Wal) (p : Option (Bool × Wal) × Dir) :
    (h.committed w p).dir = p.2 := by
  obtain ⟨_ | ⟨ok, w'⟩, d⟩ := p
  · rfl
  · cases ok <;> rfl

/-- `wal_open` is the calls `openLog`, `add` and `commit`, as far as they
succeed; its commit is given the answers `io.commit`. -/
theorem walOpen_calls (h : Hist) (hidle : h.wal = none) (src flags : UInt8) (io : OpenAns) :
    ∃ acts : List LogAct, (run apply h acts).dir = (walOpen src flags io h.dir).2 ∧
      (∀ a ∈ acts, a.NoGarbage) ∧ ∀ now ans, .commit now ans ∈ acts → ans = io.commit := by
  unfold walOpen
  cases hopen : walOpenLog src flags io h.dir with
  | mk r d =>
      have hdir : (h.apply (.openLog src flags io)).dir = d := by
        simp only [apply, hidle, hopen]
        split <;> rename_i heq <;> exact (Prod.mk.inj heq).2.symm
      rcases r with _ | ⟨_ | _, w⟩
      · exact ⟨[.openLog src flags io], hdir, by simp [LogAct.NoGarbage], by simp⟩
      · exact ⟨[.openLog src flags io], hdir, by simp [LogAct.NoGarbage], by simp⟩
      · have hstart : h.apply (.openLog src flags io) =
            { h with dir := d, wal := some w, pending := [] } := by
          simp only [apply, hidle, hopen]
        have hboot : walAddBoot w io = (bootReq w io).run w io.bootClock := rfl
        simp only [hboot]
        cases hadd : (bootReq w io).run w io.bootClock with
        | mk ok w₁ =>
            cases ok with
            | false => exact ⟨[.openLog src flags io], hdir, by simp [LogAct.NoGarbage], by simp⟩
            | true =>
                refine ⟨[.openLog src flags io, .add (bootReq w io) io.bootClock,
                  .commit io.commitNow io.commit], ?_, by simp [LogAct.NoGarbage], by simp⟩
                simp only [run_cons, run_nil, hstart]
                simp only [apply, hadd, committed_dir]
                split <;> rename_i heq <;> rw [heq]

/-- `wal_close` is two commits with the shutdown record between them, as far as
they succeed. -/
theorem walClose_calls (h : Hist) {w : Wal} (hwal : h.wal = some w) (reason : UInt8)
    (io : CloseAns) :
    ∃ acts : List LogAct, (run apply h acts).dir = (walClose w reason io h.dir).2 ∧
      (∀ a ∈ acts, a.NoGarbage) ∧
      ∀ now ans, .commit now ans ∈ acts → ans = io.commit ∨ ans = io.shutCommit := by
  unfold walClose
  cases hfirst : walCommit w io.commitNow io.commit h.dir with
  | mk r d =>
      have hdir : (h.apply (.commit io.commitNow io.commit)).dir = d := by
        simp only [apply, hwal, committed_dir, hfirst]
      rcases r with _ | ⟨_ | _, w₁⟩
      · exact ⟨[.commit io.commitNow io.commit], hdir, by simp [LogAct.NoGarbage],
          by simp +contextual⟩
      · exact ⟨[.commit io.commitNow io.commit], hdir, by simp [LogAct.NoGarbage],
          by simp +contextual⟩
      · have hwal₁ : (h.apply (.commit io.commitNow io.commit)).wal = some w₁ := by
          simp only [apply, hwal, hfirst, committed]
        have hshut : walAdd w₁ RecKind.shutdown.code w₁.src io.shutNow (shutdownBody reason)
            io.shutClock = (shutReq w₁ reason io).run w₁ io.shutClock := rfl
        simp only [hshut]
        cases hadd : (shutReq w₁ reason io).run w₁ io.shutClock with
        | mk ok w₂ =>
            cases ok with
            | false => exact ⟨[.commit io.commitNow io.commit], hdir, by simp [LogAct.NoGarbage],
                by simp +contextual⟩
            | true =>
                refine ⟨[.commit io.commitNow io.commit,
                  .add (shutReq w₁ reason io) io.shutClock,
                  .commit io.shutCommitNow io.shutCommit], ?_, by simp [LogAct.NoGarbage], ?_⟩
                -- the second commit is given what the first one left
                · simp only [run_cons, run_nil]
                  generalize h.apply (.commit io.commitNow io.commit) = h₁ at hdir hwal₁
                  simp only [apply, hwal₁, hadd, hdir, committed_dir]
                  split <;> rename_i heq <;> rw [heq]
                · intro now ans hmem
                  simp only [List.mem_cons, LogAct.commit.injEq, reduceCtorEq, List.not_mem_nil,
                    or_false, false_or] at hmem
                  exact hmem.imp And.right And.right

end Hist

/-- An event without a text, for the instances of this development. -/
def emptyEvent : AddReq where
  kind := RecKind.event.code
  src := 1
  now := {}
  body := ⟨[0, 0, 0, 0], by decide⟩
  inside := event_inside

end Carwatch.Store
