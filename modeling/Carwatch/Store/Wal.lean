import Carwatch.Lib.Stdio
import Carwatch.Store.Record

/-!
# Carwatch.Store.Wal — the write-ahead log (`src/store/wal.c`)

The functions of `wal.c` as they stand:

* `walScan` — the recovery scan of one segment;
* the log directory (`Dir`): one entry for each file `log-<first seq>.cwr`,
  named here by that first seq;
* `append`, `walAdd`, `dropBatch`, `walCommit` — batches;
* `createSegment`, `recoverSegment`, `walOpen`, `walClose` — sessions.

**System calls.** What the kernel answers is an argument: `some true` is
success, `some false` a failure, and `none` a `kill -9` that arrives before the
call has answered. A function that touches the directory returns the
directory it leaves behind and, unless it was killed, its result. So
"whatever the calls answer and wherever the process dies" is "for every
`io`". Clock readings are arguments as well.

Log lines are left out, as are return values that only choose one (`close`).
-/

namespace Carwatch.Store

open Carwatch.Lib

/-! ## Constants -/

/-- An index below `WAL_NAMESPACES`: 0 the car, 1 the box. -/
abbrev Ns := Fin 2

instance walNamespacesNeZero : NeZero 2 := ⟨by decide⟩

/-- `WAL_SEGMENT_BYTES` -/
abbrev walSegmentBytes : ℕ := 16 * 1024 * 1024

/-- `WAL_BATCH_SAMPLES` -/
abbrev walBatchSamples : ℕ := 64

/-- `WAL_BATCH_NS` -/
abbrev walBatchNs : UInt64 := 1000000000

/-- `WAL_BUF_BYTES` -/
abbrev walBufBytes : ℕ := walBatchSamples * 56 + 32 * recMaxSize

/-- `WAL_EV_RING_GEN` -/
def walEvRingGen : ℕ := 0x0501

/-- `WAL_EV_RING_SEQ` -/
def walEvRingSeq : ℕ := 0x0502

/-! ## Bodies -/

/-- A record body: at most 65535 bytes, so that `uint16_t body_len` holds its
length. -/
structure Body where
  bytes : Bytes
  fits : bytes.length < 2 ^ 16

/-- `rec_begin_t` -/
def beginBody (txn : UInt64) : Body where
  bytes := leBytes 8 txn.toNat
  fits := by simp

/-- `rec_commit_t` -/
def commitBody (txn : UInt64) (records : UInt32) : Body where
  bytes := leBytes 8 txn.toNat ++ (leBytes 4 records.toNat ++ leBytes 4 0)
  fits := by simp

/-- `rec_prev_end_t` -/
inductive PrevEnd where
  | clean
  | recovered
  | first
deriving DecidableEq, Repr

/-- The value `prev_end` has in a boot record. -/
def PrevEnd.code : PrevEnd → ℕ
  | .clean => 0
  | .recovered => 1
  | .first => 2

/-- `rec_boot_t` -/
def bootBody (prevEnd : PrevEnd) (bytesTruncated : ℕ) (recordsLost : UInt32) : Body where
  bytes := leBytes 1 prevEnd.code ++ (leBytes 3 0 ++
    (leBytes 4 (min bytesTruncated (2 ^ 32 - 1)) ++ leBytes 4 recordsLost.toNat))
  fits := by simp

/-- `rec_shutdown_t` -/
def shutdownBody (reason : UInt8) : Body where
  bytes := leBytes 1 reason.toNat ++ leBytes 7 0
  fits := by simp

/-- The `txn_id` that BEGIN and COMMIT bodies start with. -/
def txnOf (body : Bytes) : UInt64 := UInt64.ofNat (field 0 8 body)

/-! ## The recovery scan -/

/-- `ns_of`: mode `REC_MODE_BOX` names the box's own sensors. -/
def nsOf (body : Bytes) : Ns := if field 0 1 body = 0 then 1 else 0

/-- The text of an event as a C string. -/
def eventText (body : Bytes) : Bytes :=
  ((body.drop 4).take (field 2 2 body)).takeWhile (· ≠ 0)

/-- `ns=` -/
def nsWord : Bytes := [0x6E, 0x73, 0x3D]

/-- `gen=` -/
def genWord : Bytes := [0x67, 0x65, 0x6E, 0x3D]

/-- `seq=` -/
def seqWord : Bytes := [0x73, 0x65, 0x71, 0x3D]

/-- `sscanf(text, "ns=%u <word>%llx", &ns, &g) == 2` -/
def scanRingEvent (word text : Bytes) : Option (ℕ × UInt64) := do
  let s ← scanLit nsWord text
  let (ns, s) ← scanUnsigned 10 s
  let s ← scanLit word (s.dropWhile isSpace)
  let (g, _) ← scanUnsigned 16 s
  return (ns % 2 ^ 32, UInt64.ofNat g)

/-- `wal_scan_t`: what a scan of one segment found. -/
structure WalScan where
  committedLen : ℕ := 0
  anyCommitted : Bool := false
  endedClean : Bool := false
  lastSeq : UInt64 := 0
  lastTxn : UInt64 := 0
  lastBootId : UInt32 := 0
  samplesCommitted : UInt32 := 0
  recordsLost : UInt32 := 0
  lastMono : Ns → UInt64 := fun _ => 0
  ringGen : Ns → UInt64 := fun _ => 0
  hasRingSeq : Ns → Bool := fun _ => false
  ringSeq : Ns → UInt64 := fun _ => 0

/-- The local variables of `wal_scan`: `out`, and what the open batch would
contribute if its COMMIT turned up. -/
structure ScanSt where
  out : WalScan := {}
  inBatch : Bool := false
  txn : UInt64 := 0
  samples : UInt32 := 0
  mono : Ns → UInt64 := fun _ => 0
  gen : Ns → UInt64 := fun _ => 0
  batchRingSeq : Ns → UInt64 := fun _ => 0
  batchHasRingSeq : Ns → Bool := fun _ => false
  lastKind : UInt16 := 0
  off : ℕ := 0

/-- The `REC_EVENT` branch: the two event codes storaged writes itself. -/
def scanEvent (st : ScanSt) (body : Bytes) : ScanSt :=
  let code := field 0 2 body
  let st := if code = walEvRingGen then
      match scanRingEvent genWord (eventText body) with
      | some (ns, g) => if h : ns < 2 then { st with gen := Function.update st.gen ⟨ns, h⟩ g } else st
      | none => st
    else st
  if code = walEvRingSeq then
    match scanRingEvent seqWord (eventText body) with
    | some (ns, g) =>
        if h : ns < 2 then
          { st with
            batchRingSeq := Function.update st.batchRingSeq ⟨ns, h⟩ g
            batchHasRingSeq := Function.update st.batchHasRingSeq ⟨ns, h⟩ true }
        else st
    | none => st
  else st

/-- The end of every round of the loop. -/
def ScanSt.advance (st : ScanSt) (r : Rec) (size : ℕ) : ScanSt :=
  { st with lastKind := r.hdr.kind, off := st.off + size }

/-- The `REC_BEGIN` branch: the open batch starts from what is committed. -/
def scanBegin (st : ScanSt) (r : Rec) : ScanSt :=
  { st with
    inBatch := true
    txn := txnOf r.body
    samples := 0
    mono := st.out.lastMono
    gen := st.out.ringGen
    batchRingSeq := st.out.ringSeq
    batchHasRingSeq := st.out.hasRingSeq }

/-- The `REC_COMMIT` branch: what the batch held is committed. -/
def scanCommit (st : ScanSt) (r : Rec) (size : ℕ) : ScanSt :=
  { st with
    inBatch := false
    samples := 0
    out := { st.out with
      committedLen := st.off + size
      anyCommitted := true
      endedClean := st.lastKind == RecKind.shutdown.code
      lastSeq := r.hdr.seq
      lastTxn := st.txn
      lastBootId := r.hdr.bootId
      samplesCommitted := st.out.samplesCommitted + st.samples
      lastMono := st.mono
      ringGen := st.gen
      ringSeq := st.batchRingSeq
      hasRingSeq := st.batchHasRingSeq } }

/-- The branches for a record inside a batch. -/
def scanPayload (st : ScanSt) (r : Rec) : ScanSt :=
  if r.hdr.kind = RecKind.sample.code then
    { st with
      samples := st.samples + 1
      mono := Function.update st.mono (nsOf r.body) r.hdr.monoNs }
  else if r.hdr.kind = RecKind.event.code then scanEvent st r.body
  else st

/-- The body of `wal_scan`'s loop for one decoded record; `none` is a `break`. -/
def scanStep (st : ScanSt) (r : Rec) (size : ℕ) : Option ScanSt :=
  if r.hdr.kind = RecKind.begin.code then
    if st.inBatch then none else some ((scanBegin st r).advance r size)
  else if !st.inBatch then none
  else if r.hdr.kind = RecKind.commit.code then
    if txnOf r.body ≠ st.txn then none else some ((scanCommit st r size).advance r size)
  else some ((scanPayload st r).advance r size)

/-- `wal_scan`'s loop over the bytes left; each round takes at least one, so
as much fuel as bytes never runs out. -/
def scanLoop : ℕ → ScanSt → Bytes → ScanSt
  | 0, st, _ => st
  | fuel + 1, st, buf =>
      match recDecode buf with
      | .error _ => st
      | .ok (r, size) =>
          match scanStep st r size with
          | none => st
          | some st' => scanLoop fuel st' (buf.drop size)

/-- `wal_scan` -/
def walScan (buf : Bytes) : WalScan :=
  let st := scanLoop buf.length {} buf
  if st.inBatch then { st.out with recordsLost := st.samples } else st.out

/-! ## The log directory -/

/-- One segment file. -/
structure Segment where
  first : UInt64
  data : Bytes
deriving DecidableEq, Repr

/-- The segment files of the log directory, in the order they were made. -/
abbrev Dir := List Segment

/-- `newest_segment`: the greatest first seq in a file name. -/
def newestSegment (d : Dir) : Option UInt64 :=
  d.foldl (fun found s =>
    match found with
    | none => some s.first
    | some m => if m < s.first then some s.first else some m) none

/-- The content of the file named `first`. -/
def Dir.read (d : Dir) (first : UInt64) : Bytes :=
  match d.find? (·.first = first) with
  | some s => s.data
  | none => []

/-- The directory with the content of one file changed. -/
def Dir.modify (d : Dir) (first : UInt64) (f : Bytes → Bytes) : Dir :=
  d.map fun s => if s.first = first then { s with data := f s.data } else s

/-- `ftruncate`: cut back to `n` bytes, or filled up with zeros to `n`. -/
def truncateTo (n : ℕ) (data : Bytes) : Bytes := data.take n ++ List.replicate (n - data.length) 0

/-! ## Batches -/

/-- `wal_t`. `fd` is the segment the descriptor is open on, `none` for -1, and
`buf` is `buf[0, len)`. -/
structure Wal where
  fd : Option UInt64 := none
  segBytes : ℕ := 0
  nextSeq : UInt64 := 0
  nextTxn : UInt64 := 0
  bootId : UInt32 := 0
  src : UInt8 := 0
  flags : UInt8 := 0
  recovered : WalScan := {}
  prevEnd : PrevEnd := .clean
  truncated : ℕ := 0
  openBatch : Bool := false
  batchSeq0 : UInt64 := 0
  batchMono : UInt64 := 0
  batchSamples : UInt32 := 0
  buf : Bytes := []

/-- `wal_now_mono` and `wal_now_wall`, read together. -/
structure Now where
  mono : UInt64 := 0
  wall : UInt64 := 0

/-- The record `append` hands to the encoder. -/
def Wal.record (w : Wal) (kind : UInt16) (src : UInt8) (now : Now) (body : Body) : Rec where
  hdr := {
    magic := 0
    kind := kind
    bodyLen := UInt16.ofNat body.bytes.length
    seq := w.nextSeq
    monoNs := now.mono
    wallNs := now.wall
    src := src
    flags := w.flags
    reserved := 0
    bootId := w.bootId }
  body := body.bytes
  body_len_eq := by
    rw [UInt16.toNat_ofNat', Nat.mod_eq_of_lt body.fits]

/-- `append`; `none` is the return value -1, which leaves `*w` alone. -/
def append (w : Wal) (kind : UInt16) (src : UInt8) (now : Now) (body : Body) : Option Wal :=
  match recEncode (walBufBytes - w.buf.length) (w.record kind src now body) with
  | none => none
  | some out => some { w with buf := w.buf ++ out, nextSeq := w.nextSeq + 1 }

/-- The clock readings of a `wal_add` that opens a batch. -/
structure BeginClock where
  now : Now := {}
  batchMono : UInt64 := 0

/-- The block of `wal_add` that opens a batch if none is open: whether it got
through, and `*w` after it. -/
def walBegin (w : Wal) (clk : BeginClock) : Bool × Wal :=
  if w.openBatch then (true, w)
  else
    let w := { w with batchSeq0 := w.nextSeq }
    match append w RecKind.begin.code w.src clk.now (beginBody w.nextTxn) with
    | none => (false, w)
    | some w => (true, { w with openBatch := true, batchMono := clk.batchMono, batchSamples := 0 })

/-- `wal_add`: whether it returned 0, and `*w` after it. -/
def walAdd (w : Wal) (kind : UInt16) (src : UInt8) (now : Now) (body : Body)
    (clk : BeginClock) : Bool × Wal :=
  -- room for the record and for the COMMIT that must close the batch
  if w.buf.length + recHdrSize + body.bytes.length + recCrcSize +
      recHdrSize + 16 + recCrcSize > walBufBytes then (false, w)
  else
    match walBegin w clk with
    | (false, w) => (false, w)
    | (true, w) =>
        match append w kind src now body with
        | none => (false, w)
        | some w =>
            (true, { w with batchSamples :=
              if kind = RecKind.sample.code then w.batchSamples + 1 else w.batchSamples })

/-- `wal_due`: the open batch holds 64 samples or is a second old. -/
def walDue (w : Wal) (nowMono : UInt64) : Bool :=
  w.openBatch && (walBatchSamples ≤ w.batchSamples.toNat || walBatchNs ≤ nowMono - w.batchMono)

/-- `drop_batch`: the dropped batch's seqs were never durable. -/
def dropBatch (w : Wal) : Wal :=
  { w with buf := [], openBatch := false, batchSamples := 0, nextSeq := w.batchSeq0 }

/-! ## Commit -/

/-- The answer to one `write`. -/
inductive WriteAns where
  | wrote (n : ℕ)
  | intr
  | fail
deriving DecidableEq, Repr

/-- How a write loop ended. -/
inductive WriteRes where
  | done
  | failed
  | killed
deriving DecidableEq, Repr

/-- The answers to the calls of `create_segment`. -/
structure CreateAns where
  openFd : Option Bool := some true
  dirOpen : Option Bool := some true
  dirSync : Option Bool := some true

/-- The answers to the calls of `wal_commit`; a kill in the write loop is the
end of `writes`. -/
structure CommitAns where
  writes : List WriteAns := [.wrote walBufBytes]
  fsync : Option Bool := some true
  ftruncate : Option Bool := some true
  close : Option Bool := some true
  create : CreateAns := {}

/-- The write loop of `wal_commit`: the bytes still to be written, appended to
the segment as the answers say. A descriptor of -1 fails. -/
def writeAll (fd : Option UInt64) : List WriteAns → Bytes → Dir → WriteRes × Dir
  | _, [], d => (.done, d)
  | [], _ :: _, d => (.killed, d)
  | a :: as, buf, d =>
      match fd with
      | none => (.failed, d)
      | some seg =>
          match a with
          | .intr => writeAll fd as buf d
          | .fail => (.failed, d)
          | .wrote n => writeAll fd as (buf.drop n) (d.modify seg (· ++ buf.take n))

/-- `create_segment` -/
def createSegment (w : Wal) (first : UInt64) (io : CreateAns) (d : Dir) :
    Option (Bool × Wal) × Dir :=
  match io.openFd with
  | none => (none, d)
  | some false => (some (false, w), d)
  | some true =>
      -- O_EXCL: an existing file is not opened
      if d.any (·.first = first) then (some (false, w), d)
      else
        let d := d ++ [⟨first, []⟩]
        match io.dirOpen with
        | none => (none, d)
        | some false => (some (false, w), d)
        | some true =>
            match io.dirSync with
            | none => (none, d)
            | some false => (some (false, w), d)
            | some true => (some (true, { w with fd := some first, segBytes := 0 }), d)

/-- The `undo` label of `wal_commit`: leave the file ending at its last COMMIT. -/
def walUndo (w : Wal) (io : CommitAns) (d : Dir) : Option (Bool × Wal) × Dir :=
  match io.ftruncate with
  | none => (none, d)
  | some ok =>
      match ok, w.fd with
      | true, some seg => (some (false, dropBatch w), d.modify seg (truncateTo w.segBytes))
      | _, _ => (some (false, dropBatch w), d)

/-- `wal_commit`: whether it returned 0 and `*w` after it, or `none` when it
was killed; and the directory it leaves. -/
def walCommit (w : Wal) (now : Now) (io : CommitAns) (d : Dir) : Option (Bool × Wal) × Dir :=
  if !w.openBatch then (some (true, w), d)
  else
    match append w RecKind.commit.code w.src now (commitBody w.nextTxn w.batchSamples) with
    | none => (some (false, dropBatch w), d)
    | some w =>
        match writeAll w.fd io.writes w.buf d with
        | (.killed, d) => (none, d)
        | (.failed, d) => walUndo w io d
        | (.done, d) =>
            match io.fsync with
            | none => (none, d)
            | some false => walUndo w io d
            | some true =>
                let w := { w with
                  segBytes := w.segBytes + w.buf.length
                  buf := []
                  openBatch := false
                  batchSamples := 0
                  nextTxn := w.nextTxn + 1 }
                if w.segBytes < walSegmentBytes then (some (true, w), d)
                else
                  match io.close with
                  | none => (none, d)
                  | some _ => createSegment { w with fd := none } w.nextSeq io.create d

/-! ## Open and close -/

/-- The answers to the calls of `recover_segment`; `pread` is the read loop as
a whole. -/
structure RecoverAns where
  openFd : Option Bool := some true
  fstat : Option Bool := some true
  alloc : Option Bool := some true
  pread : Option Bool := some true
  ftruncate : Option Bool := some true
  fsync : Option Bool := some true

/-- How `recover_segment` says the last session ended, from the scan of a
segment of `size` bytes. -/
def prevEndOf (sc : WalScan) (size : ℕ) : PrevEnd :=
  if sc.endedClean && sc.committedLen == size then .clean else .recovered

/-- `recover_segment`: scan, cut back to the last COMMIT, leave it open. -/
def recoverSegment (w : Wal) (first : UInt64) (io : RecoverAns) (d : Dir) :
    Option (Bool × Wal) × Dir :=
  let opened := match io.openFd, io.fstat, io.alloc, io.pread with
    | some true, some true, some true, some true => some true
    | none, _, _, _ => none
    | some true, none, _, _ => none
    | some true, some true, none, _ => none
    | some true, some true, some true, none => none
    | _, _, _, _ => some false
  match opened with
  | none => (none, d)
  | some false => (some (false, w), d)
  | some true =>
      let data := d.read first
      let sc := walScan data
      let keep := sc.committedLen
      let w := { w with recovered := sc }
      let w' := { w with
        prevEnd := prevEndOf sc data.length
        truncated := data.length - keep
        fd := some first
        segBytes := keep }
      if keep < data.length then
        match io.ftruncate with
        | none => (none, d)
        | some false => (some (false, w), d)
        | some true =>
            let d := d.modify first (truncateTo keep)
            match io.fsync with
            | none => (none, d)
            | some false => (some (false, w), d)
            | some true => (some (true, w'), d)
      else (some (true, w'), d)

/-- The answers to the calls of `wal_open`. `mkdir` covers the path check that
comes before it. -/
structure OpenAns where
  mkdir : Option Bool := some true
  opendir : Option Bool := some true
  create : CreateAns := {}
  recover : RecoverAns := {}
  bootNow : Now := {}
  bootClock : BeginClock := {}
  commitNow : Now := {}
  commit : CommitAns := {}

/-- `wal_open` up to its boot record: find or make the segment to append to. -/
def walOpenLog (src flags : UInt8) (io : OpenAns) (d : Dir) : Option (Bool × Wal) × Dir :=
  let w : Wal := { src := src, flags := flags }
  match io.mkdir, io.opendir with
  | none, _ => (none, d)
  | some false, _ => (some (false, w), d)
  | some true, none => (none, d)
  | some true, some false => (some (false, w), d)
  | some true, some true =>
      match newestSegment d with
      | none =>
          createSegment { w with prevEnd := .first, nextSeq := 0, nextTxn := 1, bootId := 1 } 0
            io.create d
      | some first =>
          match recoverSegment w first io.recover d with
          | (some (true, w), d) =>
              (some (true, { w with
                nextSeq := if w.recovered.anyCommitted then w.recovered.lastSeq + 1 else first
                nextTxn := w.recovered.lastTxn + 1
                bootId := w.recovered.lastBootId + 1 }), d)
          | r => r

/-- The record `wal_open` adds to say how the last session ended. -/
def walAddBoot (w : Wal) (io : OpenAns) : Bool × Wal :=
  walAdd w RecKind.boot.code w.src io.bootNow
    (bootBody w.prevEnd w.truncated w.recovered.recordsLost) io.bootClock

/-- `wal_open` -/
def walOpen (src flags : UInt8) (io : OpenAns) (d : Dir) : Option (Bool × Wal) × Dir :=
  match walOpenLog src flags io d with
  | (some (true, w), d) =>
      match walAddBoot w io with
      | (false, w) => (some (false, { w with fd := none }), d)
      | (true, w) =>
          match walCommit w io.commitNow io.commit d with
          | (some (true, w), d) => (some (true, w), d)
          | (some (false, w), d) => (some (false, { w with fd := none }), d)
          | (none, d) => (none, d)
  | r => r

/-- The answers and clock readings of `wal_close`. -/
structure CloseAns where
  commitNow : Now := {}
  commit : CommitAns := {}
  shutNow : Now := {}
  shutClock : BeginClock := {}
  shutCommitNow : Now := {}
  shutCommit : CommitAns := {}
  close : Option Bool := some true

/-- `close(w->fd)` at the end of `wal_close`. -/
def closeFd (rc : Bool) (w : Wal) (io : CloseAns) : Option Bool :=
  match w.fd with
  | none => some rc
  | some _ => io.close.map (rc && ·)

/-- `wal_close`: whether it returned 0, `none` when it was killed. -/
def walClose (w : Wal) (reason : UInt8) (io : CloseAns) (d : Dir) : Option Bool × Dir :=
  match walCommit w io.commitNow io.commit d with
  | (none, d) => (none, d)
  | (some (false, w), d) => (closeFd false w io, d)
  | (some (true, w), d) =>
      match walAdd w RecKind.shutdown.code w.src io.shutNow (shutdownBody reason) io.shutClock with
      | (false, w) => (closeFd false w io, d)
      | (true, w) =>
          match walCommit w io.shutCommitNow io.shutCommit d with
          | (none, d) => (none, d)
          | (some (rc, w), d) => (closeFd rc w io, d)

end Carwatch.Store
