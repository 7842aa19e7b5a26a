import Carwatch.Store.Handover

/-!
# Carwatch.Store.Smooth — a process none of whose calls fails

`Draining` says what a step keeps, whatever the calls in it answer. Here they
all answer well, and a step goes where the straight path of `main` goes. That
is what it takes to follow a process through a log too large to be written
down.

* `Smooth` — a process with its segment open, and room on the disk;
* `Goes` — the states such a process can be brought to;
* `session_logs` — a process logs the slot it finds in its ring, unless it
  finds a position for it;
* `empties_newest` — processes that are killed at once fill the newest
  segment, and leave an empty one.
-/

namespace Carwatch.Store

open Carwatch.Lib Carwatch.Ipc

/-! ## Calls that do not fail -/

theorem walOpenLog_smooth {src flags : UInt8} {d : Dir} {first : UInt64}
    (h : newestSegment d = some first) :
    (walOpenLog src flags {} d).1 = some (true, recoveredWal src flags first (d.read first)) := by
  unfold walOpenLog recoverSegment
  simp only [h]
  split_ifs with hcut
  · rfl
  · rfl

/-- A record that goes in leaves its batch open. -/
theorem Wal.Holds.run_open {w : Wal} {n : ℕ} {rs : List Rec} (h : w.Holds n rs) {q : AddReq}
    {clk : BeginClock} (hok : (q.run w clk).1 = true) : (q.run w clk).2.openBatch = true := by
  rcases walAdd_holds h (Prod.mk.eta.symm : q.run w clk = _) with ⟨new, hholds, -, hnew⟩
  rw [hok, if_pos rfl] at hnew
  rw [hholds.isOpen]
  cases new with
  | nil => cases hnew
  | cons r new => simp

theorem Pc.notes_le (pc : Pc) : pc.notes ≤ 2 := by
  cases pc with
  | noteSeq _ _ ns => exact (show ns.val < 2 from ns.isLt).le
  | _ => simp [Pc.notes]

namespace Storaged

variable {s s' s'' : Storaged} {w : Wal} {n : ℕ}

/-- What an undo would be answered. -/
def Act.ftruncate : Act → Option Bool
  | .step env => env.commit.ftruncate
  | _ => some true

theorem undoOk_of_ftruncate {a : Act} (h : a.ftruncate = some true) (s : Storaged) : a.UndoOk s := by
  cases a with
  | step env =>
      intro _ w _ hfails
      have hno : env.commit.ftruncate = some false := hfails.2.2.2.1
      rw [show env.commit.ftruncate = some true from h] at hno
      cases hno
  | _ => trivial

/-- Actions in which no undo fails bring `s` to `s'`. -/
def Goes (s s' : Storaged) : Prop :=
  ∃ acts : List Act, (∀ a ∈ acts, a.ftruncate = some true) ∧ run step s acts = s'

theorem Goes.trans (h : s.Goes s') (h' : s'.Goes s'') : s.Goes s'' := by
  rcases h with ⟨acts, hacts, rfl⟩
  rcases h' with ⟨acts', hacts', rfl⟩
  refine ⟨acts ++ acts', ?_, run_append step s acts acts'⟩
  intro a ha
  rcases List.mem_append.mp ha with ha | ha
  · exact hacts a ha
  · exact hacts' a ha

theorem Goes.single {a : Act} (ha : a.ftruncate = some true) (h : s.step a = s') : s.Goes s' := by
  refine ⟨[a], ?_, h⟩
  intro b hb
  rw [List.mem_singleton.mp hb]
  exact ha

/-- The newest segment, committed up to `m`, gets a batch that fits into it, or
it is full and followed by an empty one. -/
def Grows (d d' : Dir) (m : ℕ) : Prop :=
  (∃ len, 0 < len ∧ d'.size ≤ d.size + len ∧ (newestScan d').committedLen = m + len ∧
    m + len < walSegmentBytes) ∨ newestScan d' = {}

/-- A process with its segment open, and room for `n` commits on the disk. -/
structure Smooth (s : Storaged) (w : Wal) (n : ℕ) : Prop where
  inv : s.Inv
  wal : s.hist.wal = some w
  file : w.fd ≠ none
  room : s.hist.dir.size + n * walBufBytes < diskBytes

namespace Smooth

/-- A step of `main` that the disk has room for. -/
theorem goes (h : s.Smooth w n) (env : Env) (henv : env.commit.ftruncate = some true) {w' : Wal}
    {n' : ℕ} (hadv : s.advance w env = s') (hwal : s'.hist.wal = some w') (hfile : w'.fd ≠ none)
    (hroom : s'.hist.dir.size + n' * walBufBytes < diskBytes) : s.Goes s' ∧ s'.Smooth w' n' := by
  have hstep : s.step (.step env) = s' := by
    have happly : s.apply (.step env) = s' := by
      unfold Storaged.apply
      rw [h.wal]
      exact hadv
    unfold Storaged.step
    rw [happly, if_pos (by omega)]
  have hundo : (Act.step env).ftruncate = some true := henv
  refine ⟨.single hundo hstep, ?_, hwal, hfile, hroom⟩
  rw [← hstep]
  exact inv_step h.inv (undoOk_of_ftruncate hundo s)

/-- `wal_add` of a record that is not too long. -/
theorem add (h : s.Smooth w n) {q : AddReq} (hq : q.Valid) (hlen : q.body.bytes.length ≤ 38)
    (clk : BeginClock) : ∃ hist w', s.add q clk = (true, { s with hist := hist }) ∧
      hist.dir = s.hist.dir ∧ hist.wal = some w' ∧ w.SameFile w' ∧ w'.openBatch = true := by
  rcases h.inv.sound.session h.wal with ⟨-, hsession⟩
  rcases h.inv.sound.booked.laid.session h.wal with ⟨l, rs, -, hon, -⟩
  have hok : (q.run w clk).1 = true := by
    refine AddReq.run_fits hsession.src hq ?_ clk
    have hbuf := hsession.room.length_le
    have hnotes := s.pc.notes_le
    rw [walBufBytes_eq]
    omega
  rcases walAdd_holds hon.holds (Prod.mk.eta.symm : q.run w clk = _) with ⟨-, -, hsame, -⟩
  refine ⟨{ s.hist with wal := some (q.run w clk).2, pending := s.hist.pending ++ [q.content] },
    (q.run w clk).2, ?_, rfl, rfl, hsame, hon.holds.run_open hok⟩
  rw [add_eq h.wal, hok, if_pos rfl]

/-- `wal_commit` of an open batch; the newest segment grows by it, or is full
and followed by an empty one. -/
theorem commit (h : s.Smooth w (n + 1)) (hopen : w.openBatch = true) (now : Now) :
    ∃ hist w', s.walCommit now {} =
        (some true, { s with hist := hist, batch := [], logged := s.logged ++ s.batch }) ∧
      hist.wal = some w' ∧ w.SameSession w' ∧ w'.fd ≠ none ∧ w'.batchSamples = 0 ∧
      hist.dir.size ≤ s.hist.dir.size + walBufBytes ∧
      Grows s.hist.dir hist.dir w.segBytes := by
  rcases h.inv.sound.session h.wal with ⟨-, hsession⟩
  rcases h.inv.sound.booked.laid.session h.wal with ⟨l, rs, hdir, hon, -⟩
  have hcount : l.count < 2 ^ 61 :=
    lt_trans (Layout.count_lt (hdir ▸ h.inv.fits)) (by norm_num)
  rcases Option.ne_none_iff_exists'.mp h.file with ⟨f, hfd⟩
  have hbuf : w.buf.length + 60 ≤ walBufBytes := by
    have hlen := hsession.room.length_le
    have hnotes := s.pc.notes_le
    rw [walBufBytes_eq]
    omega
  rcases hon.commit_smooth hcount hopen hsession.src hfd hbuf now with
    ⟨b, l', w', hrun, -, hgrown, hsame, hon', hfd', hlen, hsmall, hlarge⟩
  rw [← hdir] at hrun
  -- the batch is in the log
  have hundo : ¬ w.UndoFails {} := fun hfails => absurd hfails.2.2.2.1 (by decide)
  cases hcommit : s.walCommit now {} with
  | mk r s₁ =>
      rcases walCommit_spec ⟨h.inv.fits, h.inv.sound.booked.laid⟩ h.wal hundo hcommit with
        ⟨durable, hset, hafter⟩
      have heq := hcommit
      unfold walCommit at heq
      rw [h.wal] at heq
      dsimp only at heq
      rw [hrun] at heq
      rcases Prod.mk.inj heq with ⟨hr, hs₁⟩
      obtain rfl : r = some true := hr.symm
      rcases hafter with ⟨w₁, hret⟩
      have hhist : s₁.hist = s.hist.committed w (some (true, w'), l'.dir) := by
        rw [← hs₁]
        simp only [Hist.apply, h.wal, hrun]
      have hlogged : s₁.logged = s.logged ++ s.batch := by
        rw [hset.logged]
        rcases hret.acked rfl with rfl | hnil
        · rw [if_pos rfl]
        · have hbatched := h.inv.sound.booked.batched
          rw [hnil] at hbatched
          rw [List.forall₂_nil_left_iff.mp hbatched, ite_self]
      have hdir₁ : s₁.hist.dir = l'.dir := by
        rw [hhist]
        rfl
      have hsize : l'.dir.size = s.hist.dir.size + (w.buf.length + 60) := by
        rw [hgrown.size hon.torn, hlen, hdir]
      refine ⟨s₁.hist, w', ?_, ?_, hsame, hfd', ?_, ?_, ?_⟩
      · rw [hset.same, hlogged]
      · rw [hhist]
        rfl
      · rcases walCommit_closed hrun with ⟨-, hclosed⟩ | ⟨-, hzero, -⟩
        · rw [hopen] at hclosed
          cases hclosed
        · exact hzero
      · rw [hdir₁, hsize]
        omega
      · rw [hdir₁]
        have hcount' : l'.count < 2 ^ 64 := by
          refine Layout.count_lt' ?_
          have hroom := h.room
          rw [hsize]
          rw [Nat.add_mul, Nat.one_mul] at hroom
          omega
        unfold Grows
        rw [Layout.newestScan_dir hcount', hon'.torn]
        by_cases hfull : w.segBytes + (w.buf.length + 60) < walSegmentBytes
        · refine Or.inl ⟨w.buf.length + 60, by omega, hsize.le, ?_, hfull⟩
          rcases hsmall hfull with ⟨-, hseg⟩
          rcases Option.ne_none_iff_exists'.mp hfd' with ⟨f', hf'⟩
          have hcommitted := l'.committedLen_last
          rw [hon'.torn] at hcommitted
          rw [hcommitted, ← (hon'.file f' hf').2, hseg]
        · refine Or.inr ?_
          have hempty := hlarge (Nat.le_of_not_lt hfull)
          unfold SegLog.bytes
          rw [hempty]
          rfl

end Smooth

/-! ## The start of a process -/

/-- `wal_open` on a log in order, up to its boot record. -/
theorem openLog_smooth {h : Hist} (hinv : h.Inv) (hidle : h.wal = none) :
    ∃ w, (h.apply (.openLog 1 0 {})).wal = some w ∧ w.fd ≠ none ∧
      w.recovered = newestScan h.dir ∧ w.segBytes = (newestScan h.dir).committedLen ∧
      (h.apply (.openLog 1 0 {})).dir.size ≤ h.dir.size := by
  -- an empty directory, where the first segment is made, or a log in order
  rcases hinv.laid with ⟨hnil, -⟩ | ⟨l, hdir, -⟩
  · refine ⟨{ firstWal 1 0 with fd := some 0 }, ?_, Option.some_ne_none _, ?_, ?_, ?_⟩
    · simp only [Hist.apply, hidle, hnil]
      rfl
    · rw [hnil]
      rfl
    · rw [hnil]
      rfl
    · simp only [Hist.apply, hidle, hnil]
      exact le_rfl
  · have hcount := Layout.count_lt' (hdir ▸ hinv.fits)
    have hopen := @walOpenLog_smooth 1 0 h.dir l.last.first (by
      rw [hdir, Layout.newestSegment_dir hcount])
    cases hrun : walOpenLog 1 0 {} h.dir with
    | mk r d =>
        rw [hrun] at hopen
        obtain rfl : r = _ := hopen
        have hcut := hrun
        rw [hdir] at hcut
        rcases (Layout.openLog hcount hcut).2 _ rfl with ⟨rfl, -, -⟩
        simp only [Hist.apply, hidle, hrun]
        refine ⟨_, rfl, Option.some_ne_none _, ?_, ?_, ?_⟩
        · rw [hdir, Layout.newestScan_dir hcount]
          show walScan (l.dir.read l.last.first) = _
          rw [Layout.read_dir hcount]
        · rw [hdir, Layout.newestScan_dir hcount]
          show (walScan (l.dir.read l.last.first)).committedLen = _
          rw [Layout.read_dir hcount]
        · rw [hdir]
          simp [Layout.cut, Layout.tear, Layout.dir, Dir.size]

/-- Between two processes there is no batch. -/
theorem Inv.batch_of_down (h : s.Inv) (hpc : s.pc = .down) : s.batch = [] := by
  rcases h.sound.live with ⟨-, -, hpending⟩ | ⟨hne, -⟩
  · have hbatched := h.sound.booked.batched
    rw [hpending] at hbatched
    exact List.forall₂_nil_left_iff.mp hbatched
  · exact absurd hpc hne

/-- A process starts, and stands before its boot record. -/
theorem start_smooth (h : s.Inv) (hpc : s.pc = .down) (hring : s.current 0 ≠ none)
    (hroom : s.hist.dir.size + n * walBufBytes < diskBytes) :
    ∃ hist w, s.Goes { s with hist := hist, pc := .boot, srcs := fun ns => { ring := s.current ns } } ∧
      Smooth { s with hist := hist, pc := .boot, srcs := fun ns => { ring := s.current ns } } w n ∧
      w.recovered = newestScan s.hist.dir ∧ w.segBytes = (newestScan s.hist.dir).committedLen ∧
      hist.dir.size ≤ s.hist.dir.size := by
  rcases h.sound.live with ⟨-, hidle, -⟩ | ⟨hne, -⟩
  · rcases openLog_smooth ⟨h.fits, h.sound.booked.laid⟩ hidle with ⟨w, hwal, hfd, hrec, hseg, hsize⟩
    have hstart : s.start 1 {} = { s with
        hist := s.hist.apply (.openLog 1 0 {})
        pc := .boot
        srcs := fun ns => { ring := s.current ns } } := by
      unfold Storaged.start
      rw [if_neg (by simp [hpc, hring, srcIsValid])]
      dsimp only
      rw [hwal]
    -- opening does not make the log longer, so the disk is large enough
    have hstep : s.step (.start 1 {}) = s.start 1 {} := by
      unfold Storaged.step
      refine if_pos ?_
      show (s.start 1 {}).hist.dir.size < _
      rw [hstart]
      exact lt_of_le_of_lt hsize h.fits
    have hinv : (s.start 1 {}).Inv := by
      rw [← hstep]
      exact inv_step h trivial
    refine ⟨_, w, .single rfl (hstep.trans hstart), ⟨?_, hwal, hfd, ?_⟩, hrec, hseg, hsize⟩
    · rw [← hstart]
      exact hinv
    · exact lt_of_le_of_lt (Nat.add_le_add_right hsize _) hroom
  · exact absurd hpc hne

/-- The process is killed. -/
theorem kill_goes (h : s.Inv) : s.Goes s.exit ∧ s.exit.Inv := by
  have hstep : s.step .kill = s.exit := if_pos h.fits
  refine ⟨.single rfl hstep, ?_⟩
  rw [← hstep]
  exact inv_step h trivial

/-! ## One session -/

namespace Smooth

/-- A step that only decides where to go on. -/
theorem stays (h : s.Smooth w n) {env : Env} (henv : env.commit.ftruncate = some true) {pc : Pc}
    (hadv : s.advance w env = { s with pc := pc }) :
    s.Goes { s with pc := pc } ∧ Smooth { s with pc := pc } w n :=
  h.goes env henv hadv h.wal h.file h.room

/-- A step that commits while the batch holds nothing from the rings. -/
theorem commits (h : s.Smooth w (n + 1)) (hopen : w.openBatch = true) (hbatch : s.batch = []) {pc : Pc}
    (hadv : ∀ s', s.walCommit {} {} = (some true, s') → s.advance w {} = { s' with pc := pc }) :
    ∃ hist w', s.Goes { s with hist := hist, pc := pc } ∧
      Smooth { s with hist := hist, pc := pc } w' n ∧ w.SameSession w' ∧ w'.batchSamples = 0 ∧
      Grows s.hist.dir hist.dir w.segBytes ∧
      hist.dir.size ≤ s.hist.dir.size + walBufBytes := by
  rcases h.commit hopen {} with ⟨hist, w', hcommit, hwal, hsame, hfd, hzero, hsize, hnewest⟩
  have hend : s.advance w {} = { s with hist := hist, pc := pc } := by
    rw [hadv _ hcommit, hbatch, List.append_nil, ← hbatch]
  have hroom := h.room
  rw [Nat.add_mul, Nat.one_mul] at hroom
  have hnext := h.goes {} rfl hend hwal hfd
    (show hist.dir.size + n * walBufBytes < _ by omega)
  exact ⟨hist, w', hnext.1, hnext.2, hsame, hzero, hnewest, hsize⟩

theorem boot (h : s.Smooth w n) (hpc : s.pc = .boot) :
    ∃ hist w', s.Goes { s with hist := hist, pc := .bootCommit } ∧
      Smooth { s with hist := hist, pc := .bootCommit } w' n ∧ hist.dir = s.hist.dir ∧
      w.SameFile w' ∧ w'.openBatch = true := by
  rcases h.inv.sound.session h.wal with ⟨-, hsession⟩
  have hlen : (Hist.bootReq w { bootNow := {} }).body.bytes.length = 12 := by
    simp [Hist.bootReq, bootBody]
  have hvalid : (Hist.bootReq w { bootNow := {} }).Valid := by
    refine ⟨rfl, ?_, hsession.src, ?_⟩
    · rw [hlen]
      rfl
    · intro hkind
      cases hkind
  rcases h.add hvalid (by rw [hlen]; omega) {} with ⟨hist, w', hadd, hdir, hwal, hsame, hopen⟩
  have hadv : s.advance w {} = { s with hist := hist, pc := .bootCommit } := by
    unfold Storaged.advance
    rw [hpc]
    dsimp only
    rw [hadd]
  have hnext := h.goes {} rfl hadv hwal (by rw [hsame.fd]; exact h.file)
    (show hist.dir.size + n * walBufBytes < _ by rw [hdir]; exact h.room)
  exact ⟨hist, w', hnext.1, hnext.2, hdir, hsame, hopen⟩

theorem bootCommit (h : s.Smooth w (n + 1)) (hpc : s.pc = .bootCommit) (hopen : w.openBatch = true)
    (hbatch : s.batch = []) :
    ∃ hist w', s.Goes { s with hist := hist, pc := .noteGen 0 } ∧
      Smooth { s with hist := hist, pc := .noteGen 0 } w' n ∧ w.SameSession w' ∧
      w'.batchSamples = 0 ∧
      Grows s.hist.dir hist.dir w.segBytes ∧
      hist.dir.size ≤ s.hist.dir.size + walBufBytes := by
  refine h.commits hopen hbatch ?_
  intro s' hcommit
  unfold Storaged.advance
  rw [hpc]
  dsimp only
  rw [hcommit]

/-- A process that finds no position for its ring. -/
theorem noteGen (h : s.Smooth w n) {ns : Ns} (hpc : s.pc = .noteGen ns) {gen : UInt64}
    (hring : (s.srcs ns).ring = some gen) (hfound : foundIn w.recovered ns (some gen) = none) :
    ∃ hist w', s.Goes { s with hist := hist, pc := .genCommit ns } ∧
      Smooth { s with hist := hist, pc := .genCommit ns } w' n ∧ hist.dir = s.hist.dir ∧
      w'.openBatch = true := by
  rcases h.inv.sound.session h.wal with ⟨-, hsession⟩
  have hlen : (noteGeneration ns gen w.src {}).body.bytes.length ≤ 38 :=
    length_ringEvent_le walEvRingGen (.inl rfl) ns gen w.src {}
  have hvalid : (noteGeneration ns gen w.src {}).Valid :=
    ringEvent_valid walEvRingGen (.inl rfl) ns gen hsession.src {}
  rcases h.add hvalid hlen {} with ⟨hist, w', hadd, hdir, hwal, hsame, hopen⟩
  have hskip : decideSkip w.recovered ns gen (s.srcs ns) = s.srcs ns := by
    unfold decideSkip
    refine if_neg ?_
    intro hboth
    simp [foundIn, hboth] at hfound
  have hself : s.setSrc ns (s.srcs ns) = s := by
    unfold setSrc
    rw [Function.update_eq_self]
  have hadv : s.advance w {} = { s with hist := hist, pc := .genCommit ns } := by
    unfold Storaged.advance
    rw [hpc]
    unfold Storaged.noteGen
    dsimp only
    rw [hring]
    dsimp only
    rw [hskip, hself, hadd]
  have hnext := h.goes {} rfl hadv hwal (by rw [hsame.fd]; exact h.file)
    (show hist.dir.size + n * walBufBytes < _ by rw [hdir]; exact h.room)
  exact ⟨hist, w', hnext.1, hnext.2, hdir, hopen⟩

theorem genCommit (h : s.Smooth w (n + 1)) {ns : Ns} (hpc : s.pc = .genCommit ns)
    (hopen : w.openBatch = true) (hbatch : s.batch = []) :
    ∃ hist w', s.Goes { s with hist := hist, pc := nextGen ns } ∧
      Smooth { s with hist := hist, pc := nextGen ns } w' n ∧ w'.batchSamples = 0 ∧
      hist.dir.size ≤ s.hist.dir.size + walBufBytes := by
  rcases @commits s w n h hopen hbatch (nextGen ns) (by
    intro s' hcommit
    unfold Storaged.advance
    rw [hpc]
    dsimp only
    rw [hcommit]) with ⟨hist, w', hgoes, hsmooth, -, hzero, -, hsize⟩
  exact ⟨hist, w', hgoes, hsmooth, hzero, hsize⟩

/-- The slot at the end of what the source has taken comes into the batch. -/
theorem take (h : s.Smooth w n) {ns : Ns} (hpc : s.pc = .drain ns) {gen : UInt64}
    (hring : (s.srcs ns).ring = some gen) (hskip : (s.srcs ns).skip = false)
    (hfew : w.batchSamples.toNat < walBatchSamples) {slot : Slot}
    (hpeek : (s.rings gen).peek (s.srcs ns).taken = some slot) :
    ∃ hist w', s.Goes { s with
        hist := hist
        srcs := Function.update s.srcs ns { s.srcs ns with
          taken := (s.srcs ns).taken + 1, lastSeq := slot.seq, added := true }
        batch := s.batch ++ [(gen, (s.rings gen).taken + (s.srcs ns).taken)] } ∧
      Smooth { s with
        hist := hist
        srcs := Function.update s.srcs ns { s.srcs ns with
          taken := (s.srcs ns).taken + 1, lastSeq := slot.seq, added := true }
        batch := s.batch ++ [(gen, (s.rings gen).taken + (s.srcs ns).taken)] } w' n ∧
      hist.dir = s.hist.dir ∧ w'.openBatch = true := by
  have hmem : slot ∈ (s.rings gen).items := List.mem_of_getElem? hpeek
  have hvalid := sampleReq_valid (h.inv.sound.booked.slots gen slot hmem) {}
  have hlen : (sampleReq slot {}).body.bytes.length ≤ 38 := by
    rw [show (sampleReq slot {}).body.bytes.length = 12 from length_sampleBody slot]
    omega
  rcases h.add hvalid hlen {} with ⟨hist, w', hadd, hdir, hwal, hsame, hopen⟩
  have hadv : s.advance w {} = { s with
      hist := hist
      srcs := Function.update s.srcs ns { s.srcs ns with
        taken := (s.srcs ns).taken + 1, lastSeq := slot.seq, added := true }
      batch := s.batch ++ [(gen, (s.rings gen).taken + (s.srcs ns).taken)] } := by
    unfold Storaged.advance
    rw [hpc]
    unfold Storaged.drain
    dsimp only
    rw [hring]
    dsimp only
    rw [if_pos hfew, hpeek]
    dsimp only
    rw [if_neg (by simp [hskip]), hadd]
    dsimp only [setSrc]
    rw [hpc]
  have hnext := h.goes {} rfl hadv hwal (by rw [hsame.fd]; exact h.file)
    (show hist.dir.size + n * walBufBytes < _ by rw [hdir]; exact h.room)
  exact ⟨hist, w', hnext.1, hnext.2, hdir, hopen⟩

/-- A name without a ring. -/
theorem noGen (h : s.Smooth w n) {ns : Ns} (hpc : s.pc = .noteGen ns) (hring : (s.srcs ns).ring = none) :
    s.Goes { s with pc := nextGen ns } ∧ Smooth { s with pc := nextGen ns } w n := by
  refine h.stays rfl (?_ : s.advance w {} = _)
  unfold Storaged.advance
  rw [hpc]
  show s.noteGen w ns {} = _
  unfold Storaged.noteGen
  rw [hring]

theorem top (h : s.Smooth w n) (hpc : s.pc = .top) :
    s.Goes { s with pc := .drain 0 } ∧ Smooth { s with pc := .drain 0 } w n := by
  refine h.stays rfl (?_ : s.advance w {} = _)
  unfold Storaged.advance
  rw [hpc]
  rfl

/-- The ring has no slot beyond those taken. -/
theorem drainEnd (h : s.Smooth w n) {ns : Ns} (hpc : s.pc = .drain ns)
    (hend : ∀ gen, (s.srcs ns).ring = some gen → (s.rings gen).peek (s.srcs ns).taken = none) :
    s.Goes { s with pc := nextDrain ns } ∧ Smooth { s with pc := nextDrain ns } w n := by
  refine h.stays rfl (?_ : s.advance w {} = _)
  have hadv : s.advance w {} = s.drain w ns {} := by
    unfold Storaged.advance
    rw [hpc]
  rw [hadv]
  rcases drain_cases s w ns {} with hdone | ⟨gen, slot, hring, -, hpeek, -⟩
  · exact hdone
  · rw [hend gen hring] at hpeek
    cases hpeek

/-- The batch is a second old. -/
theorem due (h : s.Smooth w n) (hpc : s.pc = .due) (hopen : w.openBatch = true) :
    s.Goes { s with pc := .noteSeq false true 0 } ∧
      Smooth { s with pc := .noteSeq false true 0 } w n := by
  refine h.stays rfl
    (?_ : s.advance w { now := { mono := w.batchMono + UInt64.ofNat 1000000000 } } = _)
  have hdue : s.isDue w { now := { mono := w.batchMono + UInt64.ofNat 1000000000 } } = true := by
    have hage : w.batchMono + UInt64.ofNat 1000000000 - w.batchMono = UInt64.ofNat 1000000000 := by
      rw [UInt64.add_comm, UInt64.add_sub_cancel]
    unfold isDue walDue
    dsimp only
    rw [hopen, hage]
    simp [walBatchNs]
  unfold Storaged.advance
  rw [hpc]
  dsimp only
  rw [if_pos hdue]

/-- A source with nothing in the batch. -/
theorem noSeq (h : s.Smooth w n) (hpc : s.pc = .noteSeq false true 1)
    (hadded : (s.srcs 1).added = false) :
    s.Goes { s with pc := .commit false true } ∧ Smooth { s with pc := .commit false true } w n := by
  refine h.stays rfl (?_ : s.advance w {} = _)
  unfold Storaged.advance
  rw [hpc]
  show s.noteSeq w false true 1 {} = _
  unfold Storaged.noteSeq
  rw [if_neg (by simp [hadded])]
  rfl

theorem noteSeq (h : s.Smooth w n) (hpc : s.pc = .noteSeq false true 0)
    (hadded : (s.srcs 0).added = true) :
    ∃ hist w', s.Goes { s with hist := hist, pc := .noteSeq false true 1 } ∧
      Smooth { s with hist := hist, pc := .noteSeq false true 1 } w' n ∧ hist.dir = s.hist.dir ∧
      w'.openBatch = true := by
  rcases h.inv.sound.session h.wal with ⟨-, hsession⟩
  have hlen : (noteRingSeq 0 (s.srcs 0).lastSeq w.src {}).body.bytes.length ≤ 38 :=
    length_ringEvent_le walEvRingSeq (.inr rfl) 0 (s.srcs 0).lastSeq w.src {}
  have hvalid : (noteRingSeq 0 (s.srcs 0).lastSeq w.src {}).Valid :=
    ringEvent_valid walEvRingSeq (.inr rfl) 0 (s.srcs 0).lastSeq hsession.src {}
  rcases h.add hvalid hlen {} with ⟨hist, w', hadd, hdir, hwal, hsame, hopen⟩
  have hadv : s.advance w {} = { s with hist := hist, pc := .noteSeq false true 1 } := by
    unfold Storaged.advance
    rw [hpc]
    unfold Storaged.noteSeq
    dsimp only
    rw [if_pos hadded, hadd]
    rfl
  have hnext := h.goes {} rfl hadv hwal (by rw [hsame.fd]; exact h.file)
    (show hist.dir.size + n * walBufBytes < _ by rw [hdir]; exact h.room)
  exact ⟨hist, w', hnext.1, hnext.2, hdir, hopen⟩

/-- The batch is logged. -/
theorem commitBatch (h : s.Smooth w (n + 1)) (hpc : s.pc = .commit false true)
    (hopen : w.openBatch = true) :
    ∃ hist w', s.Goes { s with
        hist := hist, batch := [], logged := s.logged ++ s.batch, pc := .release false 0 } ∧
      Smooth { s with
        hist := hist, batch := [], logged := s.logged ++ s.batch, pc := .release false 0 } w' n ∧
      hist.dir.size ≤ s.hist.dir.size + walBufBytes := by
  rcases h.commit hopen {} with ⟨hist, w', hcommit, hwal, -, hfd, -, hsize, -⟩
  have hadv : s.advance w {} = { s with
      hist := hist, batch := [], logged := s.logged ++ s.batch, pc := .release false 0 } := by
    unfold Storaged.advance
    rw [hpc]
    show s.commitBatch false true {} = _
    unfold Storaged.commitBatch
    rw [if_neg (by simp), hcommit]
  have hroom := h.room
  rw [Nat.add_mul, Nat.one_mul] at hroom
  have hnext := h.goes {} rfl hadv hwal hfd
    (show hist.dir.size + n * walBufBytes < _ by omega)
  exact ⟨hist, w', hnext.1, hnext.2, hsize⟩

end Smooth

/-- One round of the main loop, with one slot in the first ring and no second
ring. -/
theorem Smooth.loop (h : s.Smooth w (n + 1)) (hpc : s.pc = .top) {gen : UInt64}
    (hsrc : s.srcs 0 = { ring := some gen }) (hnone : (s.srcs 1).ring = none)
    (hadded : (s.srcs 1).added = false) (hfew : w.batchSamples.toNat < walBatchSamples) {slot : Slot}
    (hpeek : (s.rings gen).peek 0 = some slot) (hlast : (s.rings gen).peek 1 = none)
    (hbatch : s.batch = []) :
    ∃ s', s.Goes s' ∧ s'.Inv ∧ s'.logged = s.logged ++ [(gen, (s.rings gen).taken)] ∧
      s'.rings = s.rings ∧ s'.current = s.current ∧
      s'.hist.dir.size ≤ s.hist.dir.size + walBufBytes := by
  have hring : (s.srcs 0).ring = some gen := by rw [hsrc]
  have hskip : (s.srcs 0).skip = false := by rw [hsrc]
  have htaken : (s.srcs 0).taken = 0 := by rw [hsrc]
  -- the slot comes into the batch
  rcases h.top hpc with ⟨hgoes₁, h₁⟩
  rcases h₁.take rfl hring hskip hfew (by rw [htaken]; exact hpeek) with
    ⟨hist₂, w₂, hgoes₂, h₂, hdir₂, hopen₂⟩
  have hother : ∀ src, Function.update s.srcs 0 src 1 = s.srcs 1 := fun src =>
    Function.update_of_ne (by decide) src s.srcs
  rcases h₂.drainEnd rfl (by
    intro gen' hgen'
    dsimp only at hgen' ⊢
    rw [Function.update_self] at hgen' ⊢
    dsimp only at hgen' ⊢
    rw [hring] at hgen'
    rw [← Option.some.inj hgen', htaken]
    exact hlast) with ⟨hgoes₃, h₃⟩
  rcases h₃.drainEnd (show _ = Pc.drain 1 from rfl) (by
    intro gen' hgen'
    dsimp only at hgen'
    rw [hother, hnone] at hgen'
    cases hgen') with ⟨hgoes₄, h₄⟩
  -- the commit
  rcases h₄.due rfl hopen₂ with ⟨hgoes₅, h₅⟩
  rcases h₅.noteSeq rfl (by dsimp only; rw [Function.update_self]) with
    ⟨hist₆, w₆, hgoes₆, h₆, hdir₆, hopen₆⟩
  rcases h₆.noSeq rfl (by dsimp only; rw [hother]; exact hadded) with ⟨hgoes₇, h₇⟩
  rcases h₇.commitBatch rfl hopen₆ with ⟨hist₈, w₈, hgoes₈, h₈, hsize₈⟩
  refine ⟨_, hgoes₁.trans (hgoes₂.trans (hgoes₃.trans (hgoes₄.trans (hgoes₅.trans (hgoes₆.trans
    (hgoes₇.trans hgoes₈)))))), h₈.inv, ?_, rfl, rfl, ?_⟩
  · dsimp only
    rw [hbatch, htaken, List.nil_append, Nat.add_zero]
  · dsimp only at hsize₈ hdir₂ hdir₆ ⊢
    rw [hdir₆, hdir₂] at hsize₈
    exact hsize₈

/-- A process starts on a ring with one slot, finds no position for it, and
logs it. -/
theorem session_logs (h : s.Inv) (hpc : s.pc = .down) {gen : UInt64} (hring : s.current 0 = some gen)
    (hnone : s.current 1 = none) (hfound : s.findings 0 = none) {slot : Slot}
    (hpeek : (s.rings gen).peek 0 = some slot) (hlast : (s.rings gen).peek 1 = none)
    (hroom : s.hist.dir.size + 3 * walBufBytes < diskBytes) :
    ∃ s', s.Goes s' ∧ s'.Inv ∧ s'.logged = s.logged ++ [(gen, (s.rings gen).taken)] ∧
      s'.rings = s.rings ∧ s'.current = s.current ∧
      s'.hist.dir.size ≤ s.hist.dir.size + 3 * walBufBytes := by
  have hbatch := h.batch_of_down hpc
  -- up to the first commit
  rcases start_smooth h hpc (by rw [hring]; exact Option.some_ne_none gen) hroom with
    ⟨hist₁, w₁, hgoes₁, h₁, hrec₁, -, hsize₁⟩
  rcases h₁.boot rfl with ⟨hist₂, w₂, hgoes₂, h₂, hdir₂, hsame₂, hopen₂⟩
  rcases h₂.bootCommit rfl hopen₂ hbatch with ⟨hist₃, w₃, hgoes₃, h₃, hsame₃, -, -, hsize₃⟩
  -- the generation
  have hrec₃ : foundIn w₃.recovered 0 (some gen) = none := by
    rw [hsame₃.recovered, hsame₂.recovered, hrec₁, ← hring]
    exact hfound
  rcases h₃.noteGen rfl hring hrec₃ with ⟨hist₄, w₄, hgoes₄, h₄, hdir₄, hopen₄⟩
  rcases h₄.genCommit rfl hopen₄ hbatch with ⟨hist₅, w₅, hgoes₅, h₅, hzero₅, hsize₅⟩
  rcases h₅.noGen rfl hnone with ⟨hgoes₆, h₆⟩
  -- the slot
  rcases h₆.loop rfl (by dsimp only; rw [hring]) hnone rfl (by rw [hzero₅]; decide) hpeek hlast hbatch
    with ⟨s', hgoes₇, hinv, hlogged, hrings, hcurrent, hsize₇⟩
  refine ⟨s', hgoes₁.trans (hgoes₂.trans (hgoes₃.trans (hgoes₄.trans (hgoes₅.trans (hgoes₆.trans
    hgoes₇))))), hinv, hlogged, hrings, hcurrent, ?_⟩
  dsimp only at hsize₃ hsize₅ hsize₇ hdir₂ hdir₄
  rw [hdir₄] at hsize₅
  rw [hdir₂] at hsize₃
  omega

/-! ## Processes that are killed at once -/

/-- A process starts and is killed behind its boot record. -/
theorem boot_and_kill (h : s.Inv) (hpc : s.pc = .down) (hring : s.current 0 ≠ none)
    (hroom : s.hist.dir.size + walBufBytes < diskBytes) :
    ∃ s', s.Goes s' ∧ s'.Inv ∧ s'.pc = .down ∧ s'.logged = s.logged ∧ s'.rings = s.rings ∧
      s'.current = s.current ∧ s'.hist.dir.size ≤ s.hist.dir.size + walBufBytes ∧
      Grows s.hist.dir s'.hist.dir (newestScan s.hist.dir).committedLen := by
  have hbatch := h.batch_of_down hpc
  rcases start_smooth h hpc hring (show s.hist.dir.size + (0 + 1) * walBufBytes < _ by omega) with
    ⟨hist₁, w₁, hgoes₁, h₁, -, hseg₁, hsize₁⟩
  rcases h₁.boot rfl with ⟨hist₂, w₂, hgoes₂, h₂, hdir₂, hsame₂, hopen₂⟩
  rcases h₂.bootCommit rfl hopen₂ hbatch with ⟨hist₃, w₃, hgoes₃, h₃, -, -, hnewest, hsize₃⟩
  rcases kill_goes h₃.inv with ⟨hgoes₄, hinv⟩
  dsimp only at hnewest hsize₃ hdir₂
  rw [hdir₂] at hnewest hsize₃
  refine ⟨_, hgoes₁.trans (hgoes₂.trans (hgoes₃.trans hgoes₄)), hinv, rfl, rfl, rfl, rfl, ?_, ?_⟩
  · exact hsize₃.trans (Nat.add_le_add_right hsize₁ _)
  · rw [hsame₂.segBytes, hseg₁] at hnewest
    rcases hnewest with ⟨len, hpos, hsize, hlen, hfits⟩ | hempty
    · exact Or.inl ⟨len, hpos, hsize.trans (Nat.add_le_add_right hsize₁ _), hlen, hfits⟩
    · exact Or.inr hempty

/-- Enough of them fill the newest segment, and leave an empty one. -/
theorem empties_newest (h : s.Inv) (hpc : s.pc = .down) (hring : s.current 0 ≠ none) (m : ℕ)
    (hm : s.hist.dir.size + m + 2 * walBufBytes < diskBytes)
    (hleft : walSegmentBytes ≤ (newestScan s.hist.dir).committedLen + m) :
    ∃ s', s.Goes s' ∧ s'.Inv ∧ s'.pc = .down ∧ s'.logged = s.logged ∧ s'.rings = s.rings ∧
      s'.current = s.current ∧ s'.hist.dir.size ≤ s.hist.dir.size + m + walBufBytes ∧
      newestScan s'.hist.dir = {} := by
  -- the induction is on the bytes that may still be missing
  induction m using Nat.strong_induction_on generalizing s with
  | _ m ih =>
      rcases boot_and_kill h hpc hring (by omega) with
        ⟨s₁, hgoes, hinv, hdown, hlogged, hrings, hcurrent, hsize, hgrows⟩
      rcases hgrows with ⟨len, hpos, hlen, hcommitted, hfits⟩ | hempty
      · rcases @ih (m - len) (by omega) s₁ hinv hdown (by rw [hcurrent]; exact hring) (by omega)
          (by omega) with ⟨s', hgoes', hinv', hdown', hlogged', hrings', hcurrent', hsize', hempty⟩
        exact ⟨s', hgoes.trans hgoes', hinv', hdown', hlogged'.trans hlogged, hrings'.trans hrings,
          hcurrent'.trans hcurrent, by omega, hempty⟩
      · exact ⟨s₁, hgoes, hinv, hdown, hlogged, hrings, hcurrent, by omega, hempty⟩

end Storaged

end Carwatch.Store
