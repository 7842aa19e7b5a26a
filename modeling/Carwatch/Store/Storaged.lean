import Carwatch.Ipc.Ring
import Carwatch.Store.Marks

/-!
# Carwatch.Store.Storaged — the daemon between the rings and the log (`src/store/main.c`)

`storaged` drains two rings into the log in batches and releases a slot only
when the batch that holds it is durable. It may be killed at any point, and a
later run works out from the log which slots it must not log again.

* **Model layer**: `Pc` walks through `main` one call on the log or one slot
  at a time; what the clocks and the system calls answer comes with the step
  (`Env`, `OpenAns`). The calls on the log are those of `Hist`, so a kill
  inside one of them is a kill of the process.
* **Rings**: a ring is the queue `ring_refines_fifo` says it is, named by its
  generation, so that one that was replaced stays what it was for whoever is
  still attached to it.
* **History**: `batch` and `logged` say which slot each sample record of the
  open batch, and of the log, was made from. No step reads them.
-/

namespace Carwatch.Store

open Carwatch.Lib Carwatch.Ipc

/-! ## Samples -/

/-- `REC_RAW_MAX` -/
abbrev recRawMax : ℕ := 5

/-- `raw_len` of a slot's sample. -/
def rawLen (s : Slot) : ℕ := if s.len.toNat < recRawMax then s.len.toNat else recRawMax

theorem rawLen_le (s : Slot) : rawLen s ≤ recRawMax := by
  unfold rawLen
  split_ifs with h
  · exact le_of_lt h
  · exact le_rfl

/-- The `rec_sample_t` that `drain` makes of a slot. -/
def sampleBody (s : Slot) : Body where
  bytes := leBytes 1 s.mode.toNat ++ (leBytes 1 s.pid.toNat ++ (leBytes 1 (rawLen s) ++
    (s.data.take (rawLen s) ++ (List.replicate (recRawMax - rawLen s) 0 ++
      leBytes 4 s.value.toNat))))
  fits := by
    have hraw := rawLen_le s
    simp only [List.length_append, length_leBytes, List.length_take, List.length_replicate,
      s.data_length, recRawMax, ringPayload] at hraw ⊢
    omega

/-- The record `drain` asks for: captured when the slot was, and as long ago by
the wall clock as by the monotonic one. -/
def sampleReq (s : Slot) (now : Now) : AddReq where
  kind := RecKind.sample.code
  src := s.src
  now := {
    mono := s.monoNs
    wall := now.wall - if s.monoNs < now.mono then now.mono - s.monoNs else 0 }
  body := sampleBody s
  inside := by decide

/-! ## The process -/

/-- `source_t`; an attached ring is its generation. -/
structure Source where
  ring : Option UInt64 := none
  taken : ℕ := 0
  added : Bool := false
  lastSeq : UInt64 := 0
  skip : Bool := false
  skipSeq : UInt64 := 0

/-- Where `main` is. -/
inductive Pc where
  /-- No `storaged` runs. -/
  | down
  /-- In `wal_open`: before its boot record, and before the commit of it. -/
  | boot
  | bootCommit
  /-- In the start-up loop: before `note_generation`, and before the commit of
  it. -/
  | noteGen (ns : Ns)
  | genCommit (ns : Ns)
  /-- At `while (!g_stop)`. -/
  | top
  /-- In `drain`. -/
  | drain (ns : Ns)
  /-- At the test whether to commit. -/
  | due
  /-- Before `note_ring_seq`; `noted` says that none failed so far, `stop` that
  this is the commit after the loop. -/
  | noteSeq (stop noted : Bool) (ns : Ns)
  | commit (stop noted : Bool)
  | release (stop : Bool) (ns : Ns)
  /-- In `wal_close`. -/
  | closeCommit
  | shutdown
  | shutCommit
deriving DecidableEq

/-- What one step of `storaged` reads from its surroundings. -/
structure Env where
  /-- `g_stop` -/
  stop : Bool := false
  now : Now := {}
  clk : BeginClock := {}
  commit : CommitAns := {}

/-- A slot: the generation of its ring, and its position there. -/
abbrev Tag := UInt64 × ℕ

/-- The log, the rings, and the process between them. -/
structure Storaged where
  hist : Hist := {}
  pc : Pc := .down
  srcs : Ns → Source := fun _ => {}
  /-- Every ring ever made, by generation. -/
  rings : UInt64 → Fifo Slot ringCapacity := fun _ => .empty
  /-- The name each generation was made under. -/
  owner : UInt64 → Option Ns := fun _ => none
  /-- The generation each name stands for now. -/
  current : Ns → Option UInt64 := fun _ => none
  /-- The slots of the samples in the open batch. -/
  batch : List Tag := []
  /-- The slots of the samples in the log. -/
  logged : List Tag := []

namespace Storaged

/-- Changes one source. -/
def setSrc (s : Storaged) (ns : Ns) (src : Source) : Storaged :=
  { s with srcs := Function.update s.srcs ns src }

/-- The process is gone. -/
def exit (s : Storaged) : Storaged :=
  { s with hist := s.hist.apply .kill, pc := .down, srcs := fun _ => {}, batch := [] }

/-- `wal_add` in the running session: whether it returned 0. -/
def add (s : Storaged) (q : AddReq) (clk : BeginClock) : Bool × Storaged :=
  match s.hist.wal with
  | none => (false, s)
  | some w => ((q.run w clk).1, { s with hist := s.hist.apply (.add q clk) })

/-- The log holds more than it did. -/
def Durable (d d' : Dir) : Prop := (keptRecords d).length < (keptRecords d').length

instance (d d' : Dir) : Decidable (Durable d d') := inferInstanceAs (Decidable (_ < _))

/-- `wal_commit` in the running session: whether it returned 0, `none` when the
process was killed in it. -/
def walCommit (s : Storaged) (now : Now) (io : CommitAns) : Option Bool × Storaged :=
  match s.hist.wal with
  | none => (none, s)
  | some w =>
      let hist := s.hist.apply (.commit now io)
      ((Store.walCommit w now io s.hist.dir).1.map (·.1),
        { s with
          hist := hist
          batch := []
          logged := if Durable s.hist.dir hist.dir then s.logged ++ s.batch else s.logged })

/-- The start-up loop behind `ns`. -/
def nextGen (ns : Ns) : Pc := if ns = 0 then .noteGen 1 else .top

/-- The loop over the rings behind `drain` of `ns`. -/
def nextDrain (ns : Ns) : Pc := if ns = 0 then .drain 1 else .due

/-- The start-up of a process: attach the rings, and `wal_open` up to its boot
record. Without the first ring, or with a source no option names, `main`
gives up before it touches the log. -/
def start (s : Storaged) (src : UInt8) (io : OpenAns) : Storaged :=
  if s.pc ≠ .down ∨ srcIsValid src = false ∨ s.current 0 = none then s
  else
    let hist := s.hist.apply (.openLog src 0 io)
    match hist.wal with
    | none => { s with hist := hist }
    | some _ =>
        { s with hist := hist, pc := .boot, srcs := fun ns => { ring := s.current ns } }

/-- The skip decision: the ring of `src` outlived the run that wrote the
log's last RING_SEQ. -/
def decideSkip (recovered : WalScan) (ns : Ns) (gen : UInt64) (src : Source) : Source :=
  if recovered.ringGen ns = gen ∧ recovered.hasRingSeq ns = true then
    { src with skip := true, skipSeq := recovered.ringSeq ns }
  else src

/-- One round of the start-up loop, up to its commit. -/
def noteGen (s : Storaged) (w : Wal) (ns : Ns) (env : Env) : Storaged :=
  match (s.srcs ns).ring with
  | none => { s with pc := nextGen ns }
  | some gen =>
      let s := s.setSrc ns (decideSkip w.recovered ns gen (s.srcs ns))
      match s.add (noteGeneration ns gen w.src env.now) env.clk with
      | (true, s) => { s with pc := .genCommit ns }
      | (false, s) => s.exit

/-- One round of the loop in `drain`. -/
def drain (s : Storaged) (w : Wal) (ns : Ns) (env : Env) : Storaged :=
  let src := s.srcs ns
  match src.ring with
  | none => { s with pc := nextDrain ns }
  | some gen =>
      if w.batchSamples.toNat < walBatchSamples then
        match (s.rings gen).peek src.taken with
        | none => { s with pc := nextDrain ns }
        | some slot =>
            if src.skip ∧ slot.seq ≤ src.skipSeq then
              -- durable before a restart
              s.setSrc ns { src with taken := src.taken + 1, lastSeq := slot.seq }
            else
              match s.add (sampleReq slot env.now) env.clk with
              | (true, s) =>
                  { s.setSrc ns { src with
                      taken := src.taken + 1, lastSeq := slot.seq, added := true } with
                    batch := s.batch ++ [(gen, (s.rings gen).taken + src.taken)] }
              | (false, s) =>
                  -- full or invalid: leave the slot for after the commit
                  { s.setSrc ns { src with lastSeq := slot.seq - 1 } with pc := nextDrain ns }
      else { s with pc := nextDrain ns }

/-- `wal_due(...) || (any_taken && !w->open_batch)` -/
def isDue (s : Storaged) (w : Wal) (env : Env) : Bool :=
  walDue w env.now.mono || ((0 < (s.srcs 0).taken || 0 < (s.srcs 1).taken) && !w.openBatch)

/-- `note_ring_seq` for one source, if the batch holds a sample of it. -/
def noteSeq (s : Storaged) (w : Wal) (stop noted : Bool) (ns : Ns) (env : Env) : Storaged :=
  let next := fun noted => if ns = 0 then Pc.noteSeq stop noted 1 else Pc.commit stop noted
  if (s.srcs ns).added then
    let r := s.add (noteRingSeq ns (s.srcs ns).lastSeq w.src env.now) env.clk
    { r.2 with pc := next (noted && r.1) }
  else { s with pc := next noted }

/-- The batch is gone from the log but not from the rings: start again. -/
def startAgain (s : Storaged) : Storaged :=
  { s with pc := .top, srcs := fun ns => { s.srcs ns with taken := 0, added := false } }

/-- The commit of a batch, in the loop or after it. -/
def commitBatch (s : Storaged) (stop noted : Bool) (env : Env) : Storaged :=
  if !stop && !noted then s.startAgain
  else
    match s.walCommit env.now env.commit with
    | (none, s) => s.exit
    | (some true, s) => { s with pc := .release stop 0 }
    | (some false, s) => if stop then { s with pc := .closeCommit } else s.startAgain

/-- `ring_release` of what one source has taken. -/
def release (s : Storaged) (stop : Bool) (ns : Ns) : Storaged :=
  let src := s.srcs ns
  let rings := match src.ring with
    | some gen => Function.update s.rings gen ((s.rings gen).release src.taken)
    | none => s.rings
  let s := { s with
    rings := rings
    pc := if ns = 0 then .release stop 1 else if stop then .closeCommit else .top }
  -- after the loop nothing reads the sources again
  if stop then s else s.setSrc ns { src with taken := 0, added := false }

/-- `REC_SHUT_SIGNAL` -/
def recShutSignal : UInt8 := 2

/-- The next step of `main`. -/
def advance (s : Storaged) (w : Wal) (env : Env) : Storaged :=
  match s.pc with
  | .down => s
  | .boot =>
      match s.add (Hist.bootReq w { bootNow := env.now }) env.clk with
      | (true, s) => { s with pc := .bootCommit }
      | (false, s) => s.exit
  | .bootCommit =>
      match s.walCommit env.now env.commit with
      | (some true, s) => { s with pc := .noteGen 0 }
      | (_, s) => s.exit
  | .noteGen ns => s.noteGen w ns env
  | .genCommit ns =>
      match s.walCommit env.now env.commit with
      | (some true, s) => { s with pc := nextGen ns }
      | (_, s) => s.exit
  | .top => { s with pc := if env.stop then .noteSeq true true 0 else .drain 0 }
  | .drain ns => s.drain w ns env
  | .due => { s with pc := if s.isDue w env then .noteSeq false true 0 else .top }
  | .noteSeq stop noted ns => s.noteSeq w stop noted ns env
  | .commit stop noted => s.commitBatch stop noted env
  | .release stop ns => s.release stop ns
  | .closeCommit =>
      match s.walCommit env.now env.commit with
      | (some true, s) => { s with pc := .shutdown }
      | (_, s) => s.exit
  | .shutdown =>
      match s.add (Hist.shutReq w recShutSignal { shutNow := env.now }) env.clk with
      | (true, s) => { s with pc := .shutCommit }
      | (false, s) => s.exit
  | .shutCommit => (s.walCommit env.now env.commit).2.exit

/-! ## The machine -/

/-- What can happen. -/
inductive Act where
  /-- `ring_create` under the name of `ns`. -/
  | create (ns : Ns) (gen : UInt64)
  /-- A producer attached to the ring `gen` calls `ring_push`. -/
  | push (gen : UInt64) (slot : Slot)
  /-- `storaged` is started. -/
  | start (src : UInt8) (io : OpenAns)
  /-- `storaged` takes its next step. -/
  | step (env : Env)
  /-- `storaged` is killed. -/
  | kill

/-- `ring_push`, into a ring whose positions have not run out: a position is
never reused (`ring.h`). -/
def push (s : Storaged) (gen : UInt64) (slot : Slot) : Storaged :=
  if s.owner gen = none ∨ srcIsValid slot.src = false ∨
      2 ^ 64 ≤ (s.rings gen).items.length + 1 then s
  else
    { s with
      rings := Function.update s.rings gen
        ((s.rings gen).push { slot with seq := UInt64.ofNat (s.rings gen).items.length }) }

/-- `ring_create` makes a generation there never was. -/
def create (s : Storaged) (ns : Ns) (gen : UInt64) : Storaged :=
  if s.owner gen = none then
    { s with
      owner := Function.update s.owner gen (some ns)
      current := Function.update s.current ns (some gen) }
  else s

/-- One action. -/
def apply (s : Storaged) : Act → Storaged
  | .create ns gen => s.create ns gen
  | .push gen slot => s.push gen slot
  | .start src io => s.start src io
  | .step env =>
      match s.hist.wal with
      | none => s
      | some w => s.advance w env
  | .kill => s.exit

/-- One action, on a disk that holds less than `off_t` can count. -/
def step (s : Storaged) (a : Act) : Storaged :=
  if (s.apply a).hist.dir.size < diskBytes then s.apply a else s

end Storaged

end Carwatch.Store
