import Carwatch.Store.History

/-!
# Carwatch.Store.Progress — calls that succeed

Where the invariants say what calls may do, this module says what they do when
the record is valid and no system call fails:

* `AddReq.run_valid` — a valid record is accepted into an empty buffer;
* `Wal.On.commit_smooth` — the batch is durable afterwards, and the segment is
  rolled over exactly when it is full;
* `fill_segment` — so a session can fill its segment and roll it over.
-/

namespace Carwatch.Store

open Carwatch.Lib

/-! ## Accepted records -/

/-- A record the encoder accepts, whoever's session it is. -/
def AddReq.Valid (q : AddReq) : Prop :=
  kindOk q.kind = true ∧ bodyLenOk q.kind (UInt16.ofNat q.body.bytes.length) = true ∧
  srcIsValid q.src = true ∧
  (q.kind = RecKind.event.code →
    eventOk q.body.bytes (UInt16.ofNat q.body.bytes.length) = true)

instance (q : AddReq) : Decidable q.Valid := inferInstanceAs (Decidable (_ ∧ _ ∧ _ ∧ _))

theorem bodyLenOk_le {kind bodyLen : UInt16} (h : bodyLenOk kind bodyLen = true) :
    bodyLen.toNat ≤ 204 := by
  unfold bodyLenOk at h
  split at h
  case h_6 =>
    simp only [Bool.and_eq_true, decide_eq_true_eq] at h
    exact h.2
  case h_7 => simp at h
  all_goals
    rw [beq_iff_eq] at h
    rw [h]
    decide

theorem AddReq.Valid.length_le {q : AddReq} (h : q.Valid) : q.body.bytes.length ≤ 204 := by
  have hle := bodyLenOk_le h.2.1
  rwa [UInt16.toNat_ofNat', Nat.mod_eq_of_lt q.body.fits] at hle

theorem Wal.size_record (w : Wal) (kind : UInt16) (src : UInt8) (now : Now) (body : Body) :
    (w.record kind src now body).size = 44 + body.bytes.length := by
  rw [Rec.size_eq, ← (w.record kind src now body).body_len_eq]
  rfl

/-- What `append` takes of the buffer. -/
theorem append_length {w w' : Wal} {kind : UInt16} {src : UInt8} {now : Now} {body : Body}
    (h : append w kind src now body = some w') :
    w'.buf.length = w.buf.length + (44 + body.bytes.length) ∧
      w'.batchSamples = w.batchSamples := by
  rcases append_eq_some h with ⟨-, rfl⟩
  refine ⟨?_, rfl⟩
  show (w.buf ++ (w.record kind src now body).frame).length = _
  rw [List.length_append, Rec.length_frame, Wal.size_record]

/-- `append` succeeds when the record is acceptable and fits. -/
theorem append_of_acceptable {w : Wal} {kind : UInt16} {src : UInt8} {now : Now} {body : Body}
    (hacc : (w.record kind src now body).Acceptable)
    (hroom : w.buf.length + (44 + body.bytes.length) ≤ walBufBytes) :
    ∃ w', append w kind src now body = some w' ∧
      w'.buf.length = w.buf.length + (44 + body.bytes.length) ∧ w'.openBatch = w.openBatch := by
  have henc : recEncode (walBufBytes - w.buf.length) (w.record kind src now body) =
      some (w.record kind src now body).frame := by
    rw [recEncode_eq_some_iff]
    refine ⟨hacc, ?_, rfl⟩
    rw [Wal.size_record]
    omega
  refine ⟨{ w with
    buf := w.buf ++ (w.record kind src now body).frame
    nextSeq := w.nextSeq + 1 }, ?_, ?_, rfl⟩
  · rw [append, henc]
  · rw [List.length_append, Rec.length_frame, Wal.size_record]

/-- A BEGIN is acceptable when the session's src is. -/
theorem acceptable_begin {w : Wal} (hsrc : srcIsValid w.src = true) (now : Now) (txn : UInt64) :
    (w.record RecKind.begin.code w.src now (beginBody txn)).Acceptable := by
  refine ⟨rfl, ?_, hsrc, ?_⟩
  · simp [Wal.record, beginBody, bodyLenOk]
  · intro hkind
    exact absurd hkind (by simp [Wal.record, RecKind.code])

/-- A COMMIT is acceptable when the session's src is. -/
theorem acceptable_commit {w : Wal} (hsrc : srcIsValid w.src = true) (now : Now) (txn : UInt64)
    (records : UInt32) :
    (w.record RecKind.commit.code w.src now (commitBody txn records)).Acceptable := by
  refine ⟨rfl, ?_, hsrc, ?_⟩
  · simp [Wal.record, commitBody, bodyLenOk]
  · intro hkind
    exact absurd hkind (by simp [Wal.record, RecKind.code])

theorem walBufBytes_eq : walBufBytes = 11520 := by
  simp only [walBufBytes, walBatchSamples, recMaxSize, recMaxBody, recHdrSize, recCrcSize,
    recEventTextMax]

/-- A valid record is accepted when no batch is open. -/
theorem AddReq.run_valid {w : Wal} {n : ℕ} (h : w.Holds n []) (hsrc : srcIsValid w.src = true)
    {q : AddReq} (hq : q.Valid) (clk : BeginClock) :
    ∃ w₁ rs, q.run w clk = (true, w₁) ∧ w₁.Holds n rs ∧ w.SameFile w₁ ∧ w₁.openBatch = true ∧
      contents rs = [q.content] ∧ w₁.buf.length = 96 + q.body.bytes.length := by
  have hlen := hq.length_le
  have hbuf : w.buf.length = 0 := by rw [h.buf]; rfl
  have hclosed : ¬ w.openBatch = true := by rw [h.isOpen]; decide
  have hbody : (beginBody w.nextTxn).bytes.length = 8 := by simp [beginBody]
  -- the BEGIN goes in first
  obtain ⟨w₀, hbeg, hlen₀, -⟩ := append_of_acceptable
    (@acceptable_begin { w with batchSeq0 := w.nextSeq } hsrc clk.now w.nextTxn)
    (show w.buf.length + (44 + (beginBody w.nextTxn).bytes.length) ≤ walBufBytes by
      rw [hbuf, hbody, walBufBytes_eq]; omega)
  change w₀.buf.length = w.buf.length + _ at hlen₀
  rw [hbuf, hbody] at hlen₀
  have hbegin : walBegin w clk =
      (true, { w₀ with openBatch := true, batchMono := clk.batchMono, batchSamples := 0 }) := by
    unfold walBegin
    rw [if_neg hclosed]
    simp only [hbeg]
  -- then the record itself
  obtain ⟨w₂, happ, hlen₂, hopen₂⟩ := @append_of_acceptable
    { w₀ with openBatch := true, batchMono := clk.batchMono, batchSamples := 0 }
    q.kind q.src q.now q.body hq
    (show w₀.buf.length + (44 + q.body.bytes.length) ≤ walBufBytes by
      rw [hlen₀, walBufBytes_eq]; omega)
  have hrun : q.run w clk = (true, { w₂ with
      batchSamples := if q.kind = RecKind.sample.code then w₂.batchSamples + 1
        else w₂.batchSamples }) := by
    unfold AddReq.run walAdd
    rw [if_neg (by simp only [hbuf, walBufBytes_eq, recHdrSize, recCrcSize]; omega), hbegin]
    simp only [happ]
  obtain ⟨new, hholds, hsame, hcont⟩ := walAdd_holds h hrun
  refine ⟨_, new, hrun, hholds, hsame, hopen₂, hcont, ?_⟩
  change w₂.buf.length = _
  rw [hlen₂]
  change w₀.buf.length + _ = _
  rw [hlen₀]
  omega

/-- A valid record is accepted whenever the buffer has room for it, for a BEGIN
and for a COMMIT. -/
theorem AddReq.run_fits {w : Wal} (hsrc : srcIsValid w.src = true) {q : AddReq} (hq : q.Valid)
    (hroom : w.buf.length + q.body.bytes.length + 156 ≤ walBufBytes) (clk : BeginClock) :
    (q.run w clk).1 = true := by
  have hbody : (beginBody w.nextTxn).bytes.length = 8 := by simp [beginBody]
  -- the block that opens a batch gets through
  have hbegin : ∃ w₁, walBegin w clk = (true, w₁) ∧ w₁.buf.length ≤ w.buf.length + 52 := by
    unfold walBegin
    split_ifs with hopen
    · exact ⟨w, rfl, by omega⟩
    · rcases append_of_acceptable
        (@acceptable_begin { w with batchSeq0 := w.nextSeq } hsrc clk.now w.nextTxn)
        (show w.buf.length + (44 + (beginBody w.nextTxn).bytes.length) ≤ walBufBytes by omega)
        with ⟨w₀, hbeg, hlen, -⟩
      simp only [hbeg]
      refine ⟨_, rfl, ?_⟩
      rw [hbody] at hlen
      exact le_of_eq hlen
  rcases hbegin with ⟨w₁, hbeg, hlen⟩
  rcases @append_of_acceptable w₁ q.kind q.src q.now q.body hq (by omega) with ⟨w₂, happ, -, -⟩
  unfold AddReq.run walAdd
  rw [if_neg (by simp only [recHdrSize, recCrcSize]; omega), hbeg]
  simp only [happ]

/-- How full the buffer is: a BEGIN, the samples, and `c` bytes of other
records. -/
structure Wal.Room (w : Wal) (c : ℕ) : Prop where
  few : w.batchSamples.toNat ≤ walBatchSamples
  closed : w.openBatch = false → w.buf = []
  bytes : w.openBatch = true → w.buf.length ≤ 52 + 56 * w.batchSamples.toNat + c

theorem Wal.Room.mono {w : Wal} {c c' : ℕ} (h : w.Room c) (hle : c ≤ c') : w.Room c' := by
  refine ⟨h.few, h.closed, ?_⟩
  intro hopen
  exact le_trans (h.bytes hopen) (by omega)

theorem Wal.Room.length_le {w : Wal} {c : ℕ} (h : w.Room c) : w.buf.length ≤ 3636 + c := by
  cases hopen : w.openBatch with
  | false =>
      rw [h.closed hopen]
      exact Nat.zero_le _
  | true =>
      have hbytes := h.bytes hopen
      have hfew := h.few
      simp only [walBatchSamples] at hfew
      omega

/-- The ways the block that opens a batch can go. -/
theorem walBegin_cases {w w' : Wal} {clk : BeginClock} {ok : Bool}
    (h : walBegin w clk = (ok, w')) :
    (w.openBatch = true ∧ ok = true ∧ w' = w) ∨
    (w.openBatch = false ∧ ok = false ∧ w' = { w with batchSeq0 := w.nextSeq }) ∨
    (w.openBatch = false ∧ ok = true ∧ w'.openBatch = true ∧ w'.batchSamples = 0 ∧
      w'.buf.length = w.buf.length + 52) := by
  unfold walBegin at h
  split_ifs at h with hopen
  · rcases Prod.mk.inj h with ⟨rfl, rfl⟩
    exact Or.inl ⟨hopen, rfl, rfl⟩
  · have hclosed : w.openBatch = false := by simpa using hopen
    simp only at h
    split at h
    · rcases Prod.mk.inj h with ⟨rfl, rfl⟩
      exact Or.inr (Or.inl ⟨hclosed, rfl, rfl⟩)
    · rename_i w₀ happ
      rcases Prod.mk.inj h with ⟨rfl, rfl⟩
      have hlen : w₀.buf.length = w.buf.length + (44 + (beginBody w.nextTxn).bytes.length) :=
        (append_length happ).1
      rw [show (beginBody w.nextTxn).bytes.length = 8 by simp [beginBody]] at hlen
      exact Or.inr (Or.inr ⟨hclosed, rfl, rfl, rfl, hlen⟩)

theorem Wal.Room.begin {w w' : Wal} {c : ℕ} (h : w.Room c) {clk : BeginClock} {ok : Bool}
    (hrun : walBegin w clk = (ok, w')) :
    w'.Room c ∧ w'.batchSamples.toNat ≤ w.batchSamples.toNat ∧
      (ok = true → w'.openBatch = true) := by
  rcases walBegin_cases hrun with ⟨hopen, rfl, rfl⟩ | ⟨-, rfl, rfl⟩ |
    ⟨hclosed, rfl, hopen, hzero, hlen⟩
  · exact ⟨h, le_rfl, fun _ => hopen⟩
  · exact ⟨⟨h.few, h.closed, h.bytes⟩, le_rfl, by simp⟩
  · have hnil := h.closed hclosed
    rw [hnil] at hlen
    refine ⟨⟨by simp [hzero], by simp [hopen], fun _ => ?_⟩, by simp [hzero], fun _ => hopen⟩
    rw [hlen, hzero]
    show 0 + 52 ≤ 52 + 56 * 0 + c
    omega

/-- A record added, or refused: an event takes its length, a sample its share
of the samples. -/
theorem Wal.Room.add {w w' : Wal} {c c' : ℕ} (h : w.Room c) {q : AddReq} {clk : BeginClock}
    {ok : Bool} (hrun : q.run w clk = (ok, w')) (hle : c ≤ c')
    (hq : q.kind ≠ RecKind.sample.code ∧ c + (44 + q.body.bytes.length) ≤ c' ∨
      q.kind = RecKind.sample.code ∧ q.body.bytes.length = 12 ∧
        w.batchSamples.toNat < walBatchSamples) : w'.Room c' := by
  unfold AddReq.run walAdd at hrun
  split at hrun
  · rcases Prod.mk.inj hrun with ⟨-, rfl⟩
    exact h.mono hle
  · cases hbeg : walBegin w clk with
    | mk begun w₁ =>
        -- opening a batch starts the count of its samples again
        rcases h.begin hbeg with ⟨h₁, hcount, hopen₁⟩
        rw [hbeg] at hrun
        cases begun with
        | false =>
            rcases Prod.mk.inj hrun with ⟨-, rfl⟩
            exact h₁.mono hle
        | true =>
            simp only at hrun
            cases happ : append w₁ q.kind q.src q.now q.body with
            | none =>
                rw [happ] at hrun
                rcases Prod.mk.inj hrun with ⟨-, rfl⟩
                exact h₁.mono hle
            | some w₂ =>
                rw [happ] at hrun
                rcases Prod.mk.inj hrun with ⟨-, rfl⟩
                rcases append_length happ with ⟨hlen, hbs⟩
                have hopen₂ : w₂.openBatch = true := by
                  rcases append_eq_some happ with ⟨-, rfl⟩
                  exact hopen₁ rfl
                have hbytes := h₁.bytes (hopen₁ rfl)
                have hfew := h₁.few
                rcases hq with ⟨hkind, hroom⟩ | ⟨hkind, hbody, hsmall⟩
                · simp only [hkind, if_false]
                  refine ⟨by rw [hbs]; exact hfew, fun hclosed => ?_, fun _ => ?_⟩
                  · rw [hopen₂] at hclosed
                    cases hclosed
                  · rw [hlen, hbs]
                    omega
                · have hsucc : (w₂.batchSamples + 1).toNat = w₁.batchSamples.toNat + 1 := by
                    simp only [walBatchSamples] at hfew
                    rw [hbs, UInt32.toNat_add]
                    exact Nat.mod_eq_of_lt (by show _ + 1 < _; omega)
                  simp only [hkind, if_true]
                  refine ⟨by rw [hsucc]; omega, fun hclosed => ?_, fun _ => ?_⟩
                  · rw [hopen₂] at hclosed
                    cases hclosed
                  · rw [hlen, hsucc, hbody]
                    omega

/-! ## Acknowledged batches -/

theorem createSegment_smooth {w : Wal} {first : UInt64} {d : Dir}
    (hfree : ∀ s ∈ d, s.first ≠ first) :
    createSegment w first {} d =
      (some (true, { w with fd := some first, segBytes := 0 }), d ++ [⟨first, []⟩]) := by
  have hany : (d.any fun s => decide (s.first = first)) = false := by
    rw [List.any_eq_false]
    intro s hs
    simpa using hfree s hs
  simp [createSegment, hany]

/-- `wal_commit` when no call fails. -/
theorem walCommit_smooth {w w₁ : Wal} {now : Now} {d : Dir} {seg : UInt64}
    (hopen : w.openBatch = true)
    (happ : append w RecKind.commit.code w.src now (commitBody w.nextTxn w.batchSamples) =
      some w₁) (hfd : w₁.fd = some seg) :
    walCommit w now {} d =
      if w₁.segBytes + w₁.buf.length < walSegmentBytes then
        (some (true, w₁.settled), d.extend (some seg) w₁.buf)
      else createSegment { w₁.settled with fd := none } w₁.nextSeq {}
        (d.extend (some seg) w₁.buf) := by
  have hle := append_length_le happ
  have hend : writeEnd [.wrote walBufBytes] w₁.buf.length = .done := by
    cases hl : w₁.buf.length with
    | zero => rfl
    | succ m =>
        rw [writeEnd, Nat.sub_eq_zero_of_le (hl ▸ hle)]
        rfl
  have htaken := bytesTaken_of_done hend
  unfold walCommit
  rw [hopen, happ]
  simp only [Bool.not_true, Bool.false_eq_true, if_false, hfd, writeAll_some, hend, htaken,
    List.take_length]
  rw [Wal.settled, hfd]

/-- A batch that no call fails for is acknowledged, and behind the others. -/
theorem Wal.On.commit_smooth {w : Wal} {l : Layout} {rs : List Rec} (hon : w.On l rs)
    (hcount : l.count < 2 ^ 61) (hopen : w.openBatch = true) (hsrc : srcIsValid w.src = true)
    {f : UInt64} (hfd : w.fd = some f) (hroom : w.buf.length + 60 ≤ walBufBytes) (now : Now) :
    ∃ b l' w', walCommit w now {} l.dir = (some (true, w'), l'.dir) ∧ b.Of w rs ∧ l.Grown b l' ∧
      w.SameSession w' ∧ w'.On l' [] ∧ w'.fd ≠ none ∧ b.bytes.length = w.buf.length + 60 ∧
      (w.segBytes + (w.buf.length + 60) < walSegmentBytes → l'.older = l.older ∧
        w'.segBytes = w.segBytes + (w.buf.length + 60)) ∧
      (walSegmentBytes ≤ w.segBytes + (w.buf.length + 60) → l'.last.batches = []) := by
  obtain ⟨w₁, happ, -⟩ := append_of_acceptable
    (acceptable_commit hsrc now w.nextTxn w.batchSamples)
    (show w.buf.length + (44 + (commitBody w.nextTxn w.batchSamples).bytes.length) ≤ walBufBytes by
      simpa [commitBody] using hroom)
  obtain ⟨b, hb, hnum, hsame, hbuf, hnext, hseq⟩ := hon.holds.batch_of hopen happ
  have hfew := hb.few
  have hlen := append_commit_length happ
  have hfd₁ : w₁.fd = some f := hsame.fd.trans hfd
  obtain ⟨rfl, hseg⟩ := hon.file f hfd
  have hfile : ∀ g, w₁.fd = some g → g = l.last.first ∧ w₁.segBytes = l.last.bytes.length := by
    rw [hsame.fd, hsame.segBytes]
    exact hon.file
  have hcount' : l.count < 2 ^ 64 := lt_trans hcount (by norm_num)
  have hset := Wal.On.settled hnum hbuf hnext hfile
  have hlen' : b.bytes.length = w.buf.length + 60 := by rw [← hbuf, hlen]
  have hrun := @walCommit_smooth w w₁ now l.dir l.last.first hopen happ hfd₁
  rw [hlen, hsame.segBytes, hbuf, Layout.dir_push hcount' hon.torn b hnum] at hrun
  by_cases hfull : w.segBytes + (w.buf.length + 60) < walSegmentBytes
  -- the segment has room for another batch, or a new segment is begun
  · rw [if_pos hfull] at hrun
    refine ⟨b, l.push b hnum, w₁.settled, hrun, hb, ⟨hnum, Or.inl rfl⟩, ?_, hset, ?_, hlen', ?_, ?_⟩
    · exact hsame.toSameSession.trans ⟨rfl, rfl, rfl, rfl⟩
    · change w₁.fd ≠ none
      simp [hfd₁]
    · intro _
      refine ⟨rfl, ?_⟩
      change w₁.segBytes + w₁.buf.length = _
      rw [hsame.segBytes, hlen]
    · intro hle
      omega
  · rw [if_neg hfull] at hrun
    have hne := l.push_batches b hnum
    have hcount₁ : (l.push b hnum).count < 2 ^ 64 := by
      rw [Layout.count, Layout.recs_push, List.length_append]
      change l.count + b.recs.length < 2 ^ 64
      omega
    have hname : w₁.nextSeq = UInt64.ofNat (l.push b hnum).count := by
      rw [hnext, Layout.count, Layout.count, Layout.recs_push, List.length_append]
    rw [hname, createSegment_smooth (Layout.name_free hcount₁ hne), Layout.dir_roll rfl hne] at hrun
    refine ⟨b, (l.push b hnum).roll hne, _, hrun, hb, ⟨hnum, Or.inr rfl⟩, ?_, ?_, ?_, hlen', ?_, ?_⟩
    · exact hsame.toSameSession.trans ⟨rfl, rfl, rfl, rfl⟩
    -- a new segment is empty and numbered on from the last record
    · refine ⟨rfl, ?_, ?_⟩
      · have h := hset.holds
        rw [Layout.count_roll]
        exact ⟨h.buf, h.isOpen, h.wf, h.framed, h.numbered, h.next, h.first, h.boot⟩
      · intro g hg
        exact ⟨(Option.some.inj hg).symm, rfl⟩
    · simp
    · intro hlt
      exact absurd hlt hfull
    · intro _
      rfl

/-! ## Filling a segment -/

/-- A session that can go on appending to the one segment of the log. -/
structure Hist.Filling (h : Hist) (w : Wal) (l : Layout) : Prop where
  dir : h.dir = l.dir
  wal : h.wal = some w
  on : w.On l []
  only : l.older = []
  file : w.fd ≠ none
  src : srcIsValid w.src = true
  room : w.segBytes < walSegmentBytes

theorem Hist.Filling.size {h : Hist} {w : Wal} {l : Layout} (hf : h.Filling w l) :
    l.dir.size = w.segBytes := by
  obtain ⟨f, hfd⟩ := Option.ne_none_iff_exists'.mp hf.file
  rw [(hf.on.file f hfd).2]
  simp [Layout.dir, Dir.size, hf.only, hf.on.torn]

theorem Layout.Grown.size {l l' : Layout} {b : Batch} (h : l.Grown b l') (htorn : l.torn = []) :
    l'.dir.size = l.dir.size + b.bytes.length := by
  obtain ⟨hnum, rfl | rfl⟩ := h
  · simp [dir, Dir.size, push, SegLog.push, SegLog.bytes, htorn, Nat.add_assoc]
  · simp [dir, Dir.size, roll, push, SegLog.push, SegLog.bytes, SegLog.segment, htorn,
      Nat.add_assoc]

/-- A batch with one empty event, in a session that can go on. -/
theorem Hist.Filling.round {h : Hist} {w : Wal} {l : Layout} (hf : h.Filling w l) :
    ∃ b l' w', (run Hist.step h [.add emptyEvent {}, .commit {} {}]).dir = l'.dir ∧
      (run Hist.step h [.add emptyEvent {}, .commit {} {}]).wal = some w' ∧
      w'.On l' [] ∧ w.SameSession w' ∧ l.Grown b l' ∧
      ((run Hist.step h [.add emptyEvent {}, .commit {} {}]).Filling w' l' ∧
        w'.segBytes = w.segBytes + 160 ∨ l'.last.batches = []) := by
  have hsize := hf.size
  have hroom := hf.room
  have hfit : l.dir.size < diskBytes := by
    simp only [walSegmentBytes, diskBytes] at hroom ⊢
    omega
  have hcount : l.count < 2 ^ 61 := lt_trans (Layout.count_lt hfit) (by norm_num)
  obtain ⟨f, hfd⟩ := Option.ne_none_iff_exists'.mp hf.file
  obtain ⟨w₁, rs, hadd, hholds, hsame, hopen, -, hlen⟩ :=
    AddReq.run_valid hf.on.holds hf.src (q := emptyEvent) (by decide) {}
  have hbuf : w₁.buf.length = 100 := hlen
  have hon₁ : w₁.On l rs := by
    refine ⟨hf.on.torn, hholds, ?_⟩
    rw [hsame.fd, hsame.segBytes]
    exact hf.on.file
  obtain ⟨b, l', w', hrun, -, hgrown, hsame', hon', hfd', hblen, hsmall, hlarge⟩ :=
    hon₁.commit_smooth hcount hopen (hsame.src ▸ hf.src) (hsame.fd.trans hfd)
      (by rw [hbuf, walBufBytes_eq]; omega) {}
  rw [hsame.segBytes, hbuf] at hsmall hlarge
  rw [hbuf] at hblen
  -- neither call meets the limit of the disk
  have hstep₁ : h.step (.add emptyEvent {}) =
      { h with wal := some w₁, pending := h.pending ++ [emptyEvent.content] } := by
    have happly : h.apply (.add emptyEvent {}) =
        { h with wal := some w₁, pending := h.pending ++ [emptyEvent.content] } := by
      simp only [Hist.apply, hf.wal, hadd, if_true]
    rw [Hist.step, happly, if_pos]
    change h.dir.size < diskBytes
    rwa [hf.dir]
  have hend : (run Hist.step h [.add emptyEvent {}, .commit {} {}]).dir = l'.dir ∧
      (run Hist.step h [.add emptyEvent {}, .commit {} {}]).wal = some w' := by
    rw [run_cons, run_cons, run_nil, hstep₁]
    have happly : ({ h with wal := some w₁, pending := h.pending ++ [emptyEvent.content] } :
        Hist).apply (.commit {} {}) = Hist.committed
          { h with wal := some w₁, pending := h.pending ++ [emptyEvent.content] } w₁
          (some (true, w'), l'.dir) := by
      simp only [Hist.apply, hf.dir, hrun]
    rw [Hist.step, happly, if_pos]
    · exact ⟨rfl, rfl⟩
    · change l'.dir.size < diskBytes
      rw [hgrown.size hf.on.torn, hblen, hsize]
      simp only [walSegmentBytes, diskBytes] at hroom ⊢
      omega
  refine ⟨b, l', w', hend.1, hend.2, hon', hsame.toSameSession.trans hsame', hgrown, ?_⟩
  by_cases hfull : w.segBytes + (100 + 60) < walSegmentBytes
  · obtain ⟨holder, hseg⟩ := hsmall hfull
    refine Or.inl ⟨⟨hend.1, hend.2, hon', holder.trans hf.only, hfd', ?_, ?_⟩, hseg⟩
    · rw [hsame'.src, hsame.src]
      exact hf.src
    · rw [hseg]
      exact hfull
  · exact Or.inr (hlarge (not_lt.mp hfull))

/-- A session can fill its segment: after enough batches the log has a new,
empty one. -/
theorem fill_segment {h : Hist} {w : Wal} {l : Layout} (hf : h.Filling w l) :
    ∃ acts : List LogAct, (∀ a ∈ acts, a = .add emptyEvent {} ∨ a = .commit {} {}) ∧
      ∃ l' w', (run Hist.step h acts).dir = l'.dir ∧ (run Hist.step h acts).wal = some w' ∧
        w'.On l' [] ∧ w.SameSession w' ∧ l'.last.batches = [] ∧ l'.older ≠ [] := by
  -- the induction is on the bytes that are still missing
  induction hn : walSegmentBytes - w.segBytes using Nat.strong_induction_on
    generalizing h w l with
  | _ n ih =>
      obtain ⟨b, l₁, w₁, hdir, hwal, hon, hsame, hgrown, hnext⟩ := hf.round
      rcases hnext with ⟨hf₁, hseg⟩ | hempty
      · have hroom := hf.room
        obtain ⟨acts, hacts, l', w', hdir', hwal', hon', hsame', hlast, holder⟩ :=
          ih (walSegmentBytes - w₁.segBytes) (by rw [hseg]; omega) hf₁ rfl
        refine ⟨[.add emptyEvent {}, .commit {} {}] ++ acts, ?_, l', w', ?_, ?_, hon',
          hsame.trans hsame', hlast, holder⟩
        · intro a ha
          rcases List.mem_append.mp ha with ha | ha
          · simpa using ha
          · exact hacts a ha
        · rw [run_append]
          exact hdir'
        · rw [run_append]
          exact hwal'
      · refine ⟨[.add emptyEvent {}, .commit {} {}], by simp, l₁, w₁, hdir, hwal, hon, hsame,
          hempty, ?_⟩
        obtain ⟨hnum, rfl | rfl⟩ := hgrown
        · exact absurd hempty (l.push_batches b hnum)
        · simp [Layout.roll]

end Carwatch.Store
