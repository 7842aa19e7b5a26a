import Carwatch.Obdlog.Log
import Carwatch.Obdlog.Schedule

/-!
# Carwatch.Obdlog.Session — the session loop (`_run` of `tools/obdlog.py`)

One pass of the loop asks one PID and ends in one of seven ways. What the
adapter, the bus, the clock and the location say is in the action, so every
sequence of outcomes is a list of actions.

* **Model layer**: `Record`, `Event` — what is written, with the fields as
  they are in the log; `Session` and `step`. The log is the list of records
  handed to `LogWriter.write`.
* **Housekeeping**: `Quiet` — what polls and reconnections keep, for any
  property that a plain event and a fix keep.
-/

namespace Carwatch.Obdlog

open Carwatch.Lib

/-! ## Records -/

/-- An upper-case hexadecimal digit. -/
def hexUpper (d : ℕ) : CodePoint := chr (if d < 10 then 0x30 + d else 0x37 + d)

/-- Two upper-case hexadecimal digits. -/
def hex2 (b : UInt8) : Text := [hexUpper (b.toNat / 16), hexUpper (b.toNat % 16)]

/-- `f"{pid:02X}"` -/
def key (pid : UInt8) : Text := hex2 pid

/-- `data.hex(" ").upper()` -/
def rawHex : Bytes → Text
  | [] => []
  | [b] => hex2 b
  | b :: bs => hex2 b ++ 0x20 :: rawHex bs

/-- The events, each with its own fields. -/
inductive Event where
  | gpsUnavailable (detail : Text)
  | gpsError (detail : Text)
  | connectFailed (attempt : ℕ) (detail : Text)
  | reconnected (attempts : ℕ)
  | noData (pid : Text)
  | pidAbsent (pid : Text) (after : ℕ)
  | pidPresent (pid : Text)
  | busAsleep (pid detail : Text)
  | busAwake (pid : Text)
  | linkLost (detail : Text)
  | timeout (pid detail : Text)
  | adapterError (pid detail : Text)
  | reinit (banner : Text)
  | reinitFailed (detail : Text)
  | reopen (detail : Text)
  | multiEcu (pid : Text) (nEcu : ℕ) (rawAll : List Text)

/-- The name of an event and its other fields. -/
def Event.call : Event → Text × List (Text × PyVal)
  | .gpsUnavailable detail => (text "gps_unavailable", [(text "detail", .str detail)])
  | .gpsError detail => (text "gps_error", [(text "detail", .str detail)])
  | .connectFailed attempt detail =>
      (text "connect_failed", [(text "attempt", .num (natNum attempt)), (text "detail", .str detail)])
  | .reconnected attempts => (text "reconnected", [(text "attempts", .num (natNum attempts))])
  | .noData pid => (text "no_data", [(text "pid", .str pid)])
  | .pidAbsent pid after => (text "pid_absent", [(text "pid", .str pid), (text "after", .num (natNum after))])
  | .pidPresent pid => (text "pid_present", [(text "pid", .str pid)])
  | .busAsleep pid detail => (text "bus_asleep", [(text "pid", .str pid), (text "detail", .str detail)])
  | .busAwake pid => (text "bus_awake", [(text "pid", .str pid)])
  | .linkLost detail => (text "link_lost", [(text "detail", .str detail)])
  | .timeout pid detail => (text "timeout", [(text "pid", .str pid), (text "detail", .str detail)])
  | .adapterError pid detail => (text "adapter_error", [(text "pid", .str pid), (text "detail", .str detail)])
  | .reinit banner => (text "reinit", [(text "banner", .str banner)])
  | .reinitFailed detail => (text "reinit_failed", [(text "detail", .str detail)])
  | .reopen detail => (text "reopen", [(text "detail", .str detail)])
  | .multiEcu pid nEcu rawAll =>
      (text "multi_ecu", [(text "pid", .str pid), (text "n_ecu", .num (natNum nEcu)),
        (text "raw_all", .list (rawAll.map .str))])

/-- An event that says nothing about a PID or the bus. -/
def Event.isPlain : Event → Bool
  | .pidAbsent _ _ => false
  | .pidPresent _ => false
  | .busAsleep _ _ => false
  | .busAwake _ => false
  | _ => true

/-- A sample; `rawAll` only when more than one line answered. -/
structure Sample where
  pid : Text
  raw : Text
  val : PyVal
  unit : Text
  nEcu : ℕ
  rawAll : Option (List Text)

/-- The records of a session. -/
inductive Record where
  | header (fields : List (Text × PyVal))
  | event (e : Event)
  | sample (s : Sample)
  | gps (fix : List (Text × PyVal))
  | footer (reason : Text) (seconds : NumText) (samples events fixes : ℕ)

/-- The type of a record and its fields, as `write` is called with them. -/
def Record.call : Record → Text × List (Text × PyVal)
  | .header fields => (text "header", fields)
  | .event e => (text "event", (text "event", .str e.call.1) :: e.call.2)
  | .sample s =>
      (text "sample",
        [(text "pid", .str s.pid), (text "raw", .str s.raw), (text "val", s.val), (text "unit", .str s.unit),
          (text "n_ecu", .num (natNum s.nEcu))] ++
          (s.rawAll.map fun raws => (text "raw_all", PyVal.list (raws.map .str))).toList)
  | .gps fields => (text "gps", fields)
  | .footer reason seconds samples events fixes =>
      (text "footer",
        [(text "reason", .str reason), (text "seconds", .num seconds), (text "samples", .num (natNum samples)),
          (text "events", .num (natNum events)), (text "gps", .num (natNum fixes))])

/-! ## The state -/

/-- `NO_DATA_LIMIT` -/
def noDataLimit : ℕ := 5

/-- `ABSENT_RETRY_SEC` -/
def absentRetrySec : ℚ := 60

/-- `ERROR_LIMIT` -/
def errorLimit : ℕ := 3

/-- `BUS_RETRY_MAX` -/
def busRetryMax : ℚ := 30

/-- What a request came to: whether it ended in a timeout or another adapter
error, and whether the adapter was re-initialised upon it. -/
structure Asked where
  error : Bool
  reinit : Bool
deriving DecidableEq

/-- Whether the loop runs, has been left, or the footer is written too. -/
inductive Phase
  | running
  | left
  | closed
deriving DecidableEq

/-- The variables of `_run`. `out` is what was handed to `LogWriter.write`;
`asked` is kept for the record, nothing reads it. -/
structure Session where
  sched : Schedule UInt8
  noData : UInt8 → ℕ
  absent : UInt8 → Option ℚ
  multi : List UInt8
  errors : ℕ
  asleepDelay : Option ℚ
  samples : ℕ
  events : ℕ
  gps : ℕ
  out : List Record
  asked : List Asked
  phase : Phase

/-- What the session is started with: the decoder (`obdlib.decode`) and
`--backoff-min`. -/
structure Setup where
  decode : UInt8 → Bytes → PyVal × Text
  backoffMin : ℚ

/-! ## What can happen -/

/-- A poll of the location. -/
structure Poll where
  fixes : List (List (Text × PyVal))
  err : Option Text

/-- A reconnection: the attempts that failed, and whether one succeeded then.
It does not when the session is stopped first, or an exception ends it. -/
structure Reopen where
  failed : List Text
  ok : Bool

/-- What `ad.init()` comes to: a banner, an adapter error or a lost link, or
any other exception. -/
inductive Recovery where
  | banner (banner : Text)
  | failed (detail : Text) (reopen : Reopen)
  | raised

/-- What a request comes to. -/
inductive Outcome where
  | answers (first : Bytes) (more : List Bytes)
  | noData
  | busAsleep (detail : Text) (waited : List Poll)
  | linkLost (detail : Text) (reopen : Reopen)
  | failed (timedOut : Bool) (detail : Text) (recovery : Recovery)

/-- A pass of the loop, or the `finally` block. An exception that nothing
catches ends the session like a stop does, at a request, in a wait or at a
poll. -/
inductive Action where
  | pass (now : ℚ) (outcome : Outcome) (polls : List Poll)
  | finish (reason : Text) (seconds : NumText)

/-! ## The loop -/

namespace Session

/-- `out.write` -/
def write (s : Session) (r : Record) : Session := { s with out := s.out ++ [r] }

/-- `event` -/
def event (s : Session) (e : Event) : Session := { s.write (.event e) with events := s.events + 1 }

/-- A fix of `poll_gps`. -/
def fix (s : Session) (fix : List (Text × PyVal)) : Session :=
  { s.write (.gps fix) with gps := s.gps + 1 }

/-- `poll_gps`, when it is time for it. -/
def poll (s : Session) (p : Poll) : Session :=
  let s := p.fixes.foldl fix s
  match p.err with
  | none => s
  | some err => s.event (.gpsError err)

/-- The polls of a while. -/
def polls (s : Session) (ps : List Poll) : Session := ps.foldl poll s

/-- The failed attempts of `connect`, numbered from `attempt + 1` on. -/
def connectFailures (s : Session) : ℕ → List Text → Session
  | _, [] => s
  | attempt, detail :: rest =>
      (s.event (.connectFailed (attempt + 1) detail)).connectFailures (attempt + 1) rest

/-- `reopen`; without an adapter the loop is left. -/
def reopen (s : Session) (r : Reopen) : Session :=
  let s := s.connectFailures 0 r.failed
  if r.ok then s.event (.reconnected (r.failed.length + 1)) else { s with phase := .left }

/-- Keeps for the record what a request came to. -/
def note (s : Session) (error reinit : Bool) : Session := { s with asked := s.asked ++ [⟨error, reinit⟩] }

/-- `except obdlib.NoData` -/
def onNoData (s : Session) (pid : UInt8) (now : ℚ) : Session :=
  let s := s.note false false
  -- `errors` stays as it is in this branch
  let s := { s with noData := Function.update s.noData pid (s.noData pid + 1) }
  let s := s.event (.noData (key pid))
  if s.noData pid = noDataLimit ∧ s.absent pid = none then
    { s with absent := Function.update s.absent pid (some now) }.event (.pidAbsent (key pid) noDataLimit)
  else s

/-- `except obdlib.BusAsleep` -/
def onBusAsleep (setup : Setup) (s : Session) (pid : UInt8) (detail : Text) (waited : List Poll) : Session :=
  let s := s.note false false
  let s := { s with errors := 0 }
  let s :=
    match s.asleepDelay with
    -- said once, until the bus answers
    | none => { s.event (.busAsleep (key pid) detail) with asleepDelay := some setup.backoffMin }
    | some _ => s
  let s := s.polls waited
  { s with asleepDelay := s.asleepDelay.map fun delay => min (delay * 2) busRetryMax }

/-- `except elm.LinkLost` -/
def onLinkLost (s : Session) (detail : Text) (r : Reopen) : Session :=
  let s := s.note false false
  -- also when no adapter is left and the loop ends
  { (s.event (.linkLost detail)).reopen r with errors := 0 }

/-- The re-initialisation; where that fails, the port is closed and opened
again. -/
def recover (s : Session) (recovery : Recovery) : Session :=
  match recovery with
  | .banner banner => s.event (.reinit banner)
  | .failed detail r =>
      ((s.event (.reinitFailed detail)).event (.reopen (text "adapter stopped answering"))).reopen r
  -- nothing catches it: the `finally` block is next
  | .raised => { s with phase := .left }

/-- `except obdlib.AdapterError` -/
def onFailed (s : Session) (pid : UInt8) (timedOut : Bool) (detail : Text) (recovery : Recovery) : Session :=
  let s := { s with errors := s.errors + 1 }
  let s := s.event (if timedOut then .timeout (key pid) detail else .adapterError (key pid) detail)
  if s.errors < errorLimit then s.note true false
  else { s.note true true with errors := 0 }.recover recovery

/-- `bus_awake`, if the bus was asleep. -/
def busAwake (s : Session) (pid : UInt8) : Session :=
  match s.asleepDelay with
  | none => s
  | some _ => { s with asleepDelay := none }.event (.busAwake (key pid))

/-- `pid_present`, if the PID was set aside. -/
def pidPresent (s : Session) (pid : UInt8) : Session :=
  let s := { s with noData := Function.update s.noData pid 0 }
  match s.absent pid with
  | none => s
  | some _ => { s with absent := Function.update s.absent pid none }.event (.pidPresent (key pid))

/-- `multi_ecu`, the first time that more than one line answers. -/
def multiEcu (s : Session) (pid : UInt8) (raws : List Text) : Session :=
  if raws.length > 1 ∧ pid ∉ s.multi then
    { s with multi := pid :: s.multi }.event (.multiEcu (key pid) raws.length raws)
  else s

/-- The sample of an answer. -/
def sample (setup : Setup) (s : Session) (pid : UInt8) (first : Bytes) (raws : List Text) : Session :=
  let decoded := setup.decode pid first
  let x : Sample :=
    { pid := key pid
      raw := rawHex first
      val := decoded.1
      unit := decoded.2
      nEcu := raws.length
      rawAll := if raws.length > 1 then some raws else none }
  { s.write (.sample x) with samples := s.samples + 1 }

/-- What follows an answer. -/
def onAnswers (setup : Setup) (s : Session) (pid : UInt8) (first : Bytes) (more : List Bytes)
    (ps : List Poll) : Session :=
  let raws := (first :: more).map rawHex
  let s := s.note false false
  let s := { s with errors := 0 }
  ((((s.busAwake pid).pidPresent pid).multiEcu pid raws).sample setup pid first raws).polls ps

/-- A request for a PID, and what it comes to. -/
def request (setup : Setup) (s : Session) (pid : UInt8) (now : ℚ) (outcome : Outcome) (ps : List Poll) :
    Session :=
  match outcome with
  | .answers first more => s.onAnswers setup pid first more ps
  | .noData => s.onNoData pid now
  | .busAsleep detail waited => s.onBusAsleep setup pid detail waited
  | .linkLost detail r => s.onLinkLost detail r
  | .failed timedOut detail recovery => s.onFailed pid timedOut detail recovery

/-- Whether a PID is set aside and not due for its retry. -/
def skips (s : Session) (now : ℚ) (pid : UInt8) : Bool :=
  match s.absent pid with
  | none => false
  | some since => decide (now - since < absentRetrySec)

/-- A PID that is set aside is tried again. -/
def retry (s : Session) (pid : UInt8) (now : ℚ) : Session :=
  match s.absent pid with
  | none => s
  | some _ => { s with absent := Function.update s.absent pid (some now) }

/-- A pass of the loop. -/
def pass (setup : Setup) (s : Session) (now : ℚ) (outcome : Outcome) (ps : List Poll) : Session :=
  let next := s.sched.next (s.skips now)
  let s := { s with sched := next.2 }
  match next.1 with
  -- every PID is set aside: only the location is polled
  | none => s.polls ps
  | some pid => (s.retry pid now).request setup pid now outcome ps

/-- The `finally` block. -/
def finish (s : Session) (reason : Text) (seconds : NumText) : Session :=
  { s.write (.footer reason seconds s.samples s.events s.gps) with phase := .closed }

/-- One action. -/
def step (setup : Setup) (s : Session) (a : Action) : Session :=
  match a with
  -- a pass needs a loop that runs, and the `finally` block is run once
  | .pass now outcome ps => if s.phase = .running then s.pass setup now outcome ps else s
  | .finish reason seconds => if s.phase = .closed then s else s.finish reason seconds

/-- Before the loop: the header is written, and the location may be
unavailable. -/
def start (pids fast : List UInt8) (header : List (Text × PyVal)) (gpsUnavailable : Option Text) : Session :=
  let s : Session :=
    { sched := .init pids fast
      noData _ := 0
      absent _ := none
      multi := []
      errors := 0
      asleepDelay := none
      samples := 0
      events := 0
      gps := 0
      out := [.header header]
      asked := []
      phase := .running }
  match gpsUnavailable with
  | none => s
  | some detail => s.event (.gpsUnavailable detail)

/-! ## Housekeeping -/

/-- A property of sessions that fixes, if their fields are right, plain events
and leaving the loop keep. -/
structure Quiet (fine : List (Text × PyVal) → Prop) (P : Session → Prop) : Prop where
  fix : ∀ {s : Session} (fields : List (Text × PyVal)), fine fields → P s → P (s.fix fields)
  event : ∀ {s : Session} {e : Event}, e.isPlain = true → P s → P (s.event e)
  left : ∀ {s : Session}, P s → P { s with phase := .left }

variable {fine : List (Text × PyVal) → Prop} {P : Session → Prop} {s : Session}

theorem Quiet.poll (h : Quiet fine P) (hs : P s) {p : Poll} (hp : ∀ fields ∈ p.fixes, fine fields) :
    P (s.poll p) := by
  have hfixes : P (p.fixes.foldl Session.fix s) := by
    generalize p.fixes = fixes at hp
    induction fixes generalizing s with
    | nil => exact hs
    | cons fields fixes ih =>
        apply ih
        · exact h.fix fields (hp fields List.mem_cons_self) hs
        · intro other hother
          exact hp other (List.mem_cons_of_mem fields hother)
  unfold Session.poll
  dsimp only
  cases p.err with
  | none => exact hfixes
  | some err => exact h.event rfl hfixes

theorem Quiet.polls (h : Quiet fine P) (hs : P s) {ps : List Poll}
    (hps : ∀ p ∈ ps, ∀ fields ∈ p.fixes, fine fields) : P (s.polls ps) := by
  unfold Session.polls
  induction ps generalizing s with
  | nil => exact hs
  | cons p ps ih =>
      apply ih
      · exact h.poll hs (hps p List.mem_cons_self)
      · intro q hq
        exact hps q (List.mem_cons_of_mem p hq)

theorem Quiet.connectFailures (h : Quiet fine P) (hs : P s) (attempt : ℕ) (details : List Text) :
    P (s.connectFailures attempt details) := by
  induction details generalizing s attempt with
  | nil => exact hs
  | cons detail details ih =>
      apply ih
      exact h.event rfl hs

theorem Quiet.reopen (h : Quiet fine P) (hs : P s) (r : Reopen) : P (s.reopen r) := by
  have hfailed := h.connectFailures hs 0 r.failed
  unfold Session.reopen
  dsimp only
  split_ifs
  · exact h.event rfl hfailed
  · exact h.left hfailed

theorem Quiet.recover (h : Quiet fine P) (hs : P s) (recovery : Recovery) : P (s.recover recovery) := by
  unfold Session.recover
  cases recovery with
  | banner banner => exact h.event rfl hs
  | failed detail r =>
      apply h.reopen
      apply h.event rfl
      exact h.event rfl hs
  | raised => exact h.left hs

end Session

end Carwatch.Obdlog
