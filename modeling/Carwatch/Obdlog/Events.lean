import Carwatch.Lib.Brackets
import Carwatch.Obdlog.Session

/-!
# Carwatch.Obdlog.Events — the event stream of a session is well bracketed

Whether a PID is set aside and whether the bus is asleep are in the state of
the loop; `pid_absent`, `pid_present`, `bus_asleep` and `bus_awake` are in the
log.

* `Books` — the log and the state agree: one rule for each kind of record;
* `Kept` — the same of a session; each exit of the loop keeps it;
* `event_stream_bracketed` — every run.
-/

namespace Carwatch.Obdlog

open Carwatch.Lib

/-! ## Marks -/

/-- `pid_absent` of one PID. -/
def isPidAbsent (pid : Text) : Record → Bool
  | .event (.pidAbsent p _) => decide (p = pid)
  | _ => false

/-- `pid_present` of one PID. -/
def isPidPresent (pid : Text) : Record → Bool
  | .event (.pidPresent p) => decide (p = pid)
  | _ => false

/-- A sample of one PID. -/
def isSampleOf (pid : Text) : Record → Bool
  | .sample x => decide (x.pid = pid)
  | _ => false

/-- `bus_asleep` -/
def isBusAsleep : Record → Bool
  | .event (.busAsleep _ _) => true
  | _ => false

/-- `bus_awake` -/
def isBusAwake : Record → Bool
  | .event (.busAwake _) => true
  | _ => false

def isSample : Record → Bool
  | .sample _ => true
  | _ => false

def isEvent : Record → Bool
  | .event _ => true
  | _ => false

def isFooter : Record → Bool
  | .footer .. => true
  | _ => false

theorem hexUpper_inj : ∀ d < 16, ∀ e < 16, hexUpper d = hexUpper e → d = e := by decide +kernel

theorem key_inj {p q : UInt8} (h : key p = key q) : p = q := by
  have hp := p.toNat_lt
  have hq := q.toNat_lt
  obtain ⟨hhigh, hrest⟩ := List.cons.inj h
  obtain ⟨hlow, -⟩ := List.cons.inj hrest
  have hdiv := hexUpper_inj _ (by omega) _ (by omega) hhigh
  have hmod := hexUpper_inj _ (by omega) _ (by omega) hlow
  apply UInt8.toNat_inj.mp
  omega

/-! ## The log and the state -/

/-- The log is bracketed, with an interval open for each PID that is set aside
and for a bus that is asleep, and the counts are those of the log. -/
structure Books (out : List Record) (absent : UInt8 → Bool) (asleep : Bool) (samples events : ℕ) :
    Prop where
  pids : ∀ pid, Tracks (isPidAbsent (key pid)) (isPidPresent (key pid)) (isSampleOf (key pid)) out
    (absent pid)
  bus : Tracks isBusAsleep isBusAwake isSample out asleep
  samples : samples = out.countP isSample
  events : events = out.countP isEvent
  noFooter : ∀ r ∈ out, isFooter r = false

namespace Books

variable {out : List Record} {absent : UInt8 → Bool} {asleep : Bool} {samples events : ℕ}

/-- One more record: what it does to the intervals, and the counts. -/
theorem concat (h : Books out absent asleep samples events) {r : Record} {absent' : UInt8 → Bool}
    {asleep' : Bool}
    (hpids : ∀ pid, Tracks (isPidAbsent (key pid)) (isPidPresent (key pid)) (isSampleOf (key pid))
      (out ++ [r]) (absent' pid))
    (hbus : Tracks isBusAsleep isBusAwake isSample (out ++ [r]) asleep') (hfooter : isFooter r = false) :
    Books (out ++ [r]) absent' asleep' (samples + (isSample r).toNat) (events + (isEvent r).toNat) := by
  -- the counts go up with the log, and the record is no footer
  refine ⟨hpids, hbus, ?_, ?_, ?_⟩
  · rw [countP_concat, h.samples]
  · rw [countP_concat, h.events]
  · intro q hq
    rcases List.mem_append.mp hq with hin | hlast
    · exact h.noFooter q hin
    · rw [List.mem_singleton.mp hlast]
      exact hfooter

/-- A record that opens and closes nothing, and is no sample. -/
theorem unmarked (h : Books out absent asleep samples events) {r : Record}
    (hpid : ∀ k, isPidAbsent k r = false ∧ isPidPresent k r = false ∧ isSampleOf k r = false)
    (hbus : isBusAsleep r = false ∧ isBusAwake r = false ∧ isSample r = false)
    (hfooter : isFooter r = false) :
    Books (out ++ [r]) absent asleep (samples + (isSample r).toNat) (events + (isEvent r).toNat) := by
  apply h.concat
  · intro pid
    obtain ⟨hopens, hcloses, hout⟩ := hpid (key pid)
    exact (h.pids pid).skip hopens hcloses fun ho => absurd (hout.symm.trans ho) Bool.false_ne_true
  · exact h.bus.skip hbus.1 hbus.2.1 fun ho => absurd (hbus.2.2.symm.trans ho) Bool.false_ne_true
  · exact hfooter

theorem plainEvent (h : Books out absent asleep samples events) {e : Event} (he : e.isPlain = true) :
    Books (out ++ [.event e]) absent asleep samples (events + 1) := by
  have hmarks : (∀ k, isPidAbsent k (.event e) = false ∧ isPidPresent k (.event e) = false ∧
      isSampleOf k (.event e) = false) ∧
      isBusAsleep (.event e) = false ∧ isBusAwake (.event e) = false ∧ isSample (.event e) = false := by
    -- the four that say something are excluded
    cases e with
    | pidAbsent p n => cases he
    | pidPresent p => cases he
    | busAsleep p d => cases he
    | busAwake p => cases he
    | _ => exact ⟨fun _ => ⟨rfl, rfl, rfl⟩, rfl, rfl, rfl⟩
  exact h.unmarked hmarks.1 hmarks.2 rfl

theorem fix (h : Books out absent asleep samples events) (fields : List (Text × PyVal)) :
    Books (out ++ [.gps fields]) absent asleep samples events :=
  h.unmarked (fun _ => ⟨rfl, rfl, rfl⟩) ⟨rfl, rfl, rfl⟩ rfl

/-- `pid_absent` of a PID that is not set aside. -/
theorem pidAbsent (h : Books out absent asleep samples events) {pid : UInt8} (hpid : absent pid = false)
    (after : ℕ) :
    Books (out ++ [.event (.pidAbsent (key pid) after)]) (Function.update absent pid true) asleep samples
      (events + 1) := by
  apply h.concat
  · intro q
    by_cases hq : q = pid
    · have hopen := h.pids q
      rw [hq, hpid] at hopen
      rw [hq, Function.update_self]
      exact hopen.opening (decide_eq_true rfl) rfl
    · rw [Function.update_of_ne hq]
      apply (h.pids q).skip
      · exact decide_eq_false fun heq => hq (key_inj heq).symm
      · rfl
      · intro ho
        cases ho
  · apply h.bus.skip
    · rfl
    · rfl
    · intro ho
      cases ho
  · rfl

/-- `pid_present` of a PID that is set aside. -/
theorem pidPresent (h : Books out absent asleep samples events) {pid : UInt8} (hpid : absent pid = true) :
    Books (out ++ [.event (.pidPresent (key pid))]) (Function.update absent pid false) asleep samples
      (events + 1) := by
  apply h.concat
  · intro q
    by_cases hq : q = pid
    · have hopen := h.pids q
      rw [hq, hpid] at hopen
      rw [hq, Function.update_self]
      exact hopen.closing rfl (decide_eq_true rfl) rfl
    · rw [Function.update_of_ne hq]
      apply (h.pids q).skip
      · rfl
      · exact decide_eq_false fun heq => hq (key_inj heq).symm
      · intro ho
        cases ho
  · apply h.bus.skip
    · rfl
    · rfl
    · intro ho
      cases ho
  · rfl

/-- An event about the bus says nothing about a PID. -/
theorem busEvent (h : Books out absent asleep samples events) {e : Event}
    (he : ∀ k, isPidAbsent k (.event e) = false ∧ isPidPresent k (.event e) = false) {asleep' : Bool}
    (hbus : Tracks isBusAsleep isBusAwake isSample (out ++ [.event e]) asleep') :
    Books (out ++ [.event e]) absent asleep' samples (events + 1) := by
  apply h.concat
  · intro pid
    apply (h.pids pid).skip
    · exact (he (key pid)).1
    · exact (he (key pid)).2
    · intro ho
      cases ho
  · exact hbus
  · rfl

theorem busAsleep (h : Books out absent false samples events) (pid detail : Text) :
    Books (out ++ [.event (.busAsleep pid detail)]) absent true samples (events + 1) :=
  h.busEvent (fun _ => ⟨rfl, rfl⟩) (h.bus.opening rfl rfl)

theorem busAwake (h : Books out absent true samples events) (pid : Text) :
    Books (out ++ [.event (.busAwake pid)]) absent false samples (events + 1) :=
  h.busEvent (fun _ => ⟨rfl, rfl⟩) (h.bus.closing rfl rfl rfl)

/-- A sample of a PID that is not set aside, while the bus is awake. -/
theorem sample (h : Books out absent false samples events) {pid : UInt8} (hpid : absent pid = false)
    {x : Sample} (hx : x.pid = key pid) :
    Books (out ++ [.sample x]) absent false (samples + 1) events := by
  apply h.concat
  · intro q
    apply (h.pids q).skip
    · rfl
    · rfl
    · intro ho
      have heq : key pid = key q := hx.symm.trans (of_decide_eq_true ho)
      rw [← key_inj heq]
      exact hpid
  · apply h.bus.skip
    · rfl
    · rfl
    · intro _
      rfl
  · rfl

end Books

/-! ## The loop -/

/-- The log of a session agrees with its state. -/
def Session.Kept (s : Session) : Prop :=
  Books s.out (fun pid => (s.absent pid).isSome) s.asleepDelay.isSome s.samples s.events

namespace Session

variable {s : Session}

/-- What is set aside, after a change at one PID. -/
theorem isSome_update (absent : UInt8 → Option ℚ) (pid : UInt8) (v : Option ℚ) :
    (fun q => (Function.update absent pid v q).isSome) =
      Function.update (fun q => (absent q).isSome) pid v.isSome := by
  funext q
  by_cases hq : q = pid
  · rw [hq, Function.update_self, Function.update_self]
  · rw [Function.update_of_ne hq, Function.update_of_ne hq]

theorem Kept.event (h : s.Kept) {e : Event} (he : e.isPlain = true) : (s.event e).Kept :=
  h.plainEvent he

/-- A PID is set aside. -/
theorem Kept.setAside (h : s.Kept) {pid : UInt8} (hpid : s.absent pid = none) (now : ℚ) :
    Kept ({ s with absent := Function.update s.absent pid (some now) }.event
      (.pidAbsent (key pid) noDataLimit)) := by
  have hnot : (s.absent pid).isSome = false := by
    rw [hpid]
    rfl
  have hbooks := Books.pidAbsent h hnot noDataLimit
  rw [show Function.update (fun q => (s.absent q).isSome) pid true = _ from
    (isSome_update s.absent pid (some now)).symm] at hbooks
  exact hbooks

/-- A PID that was set aside is back. -/
theorem Kept.takeBack (h : s.Kept) {pid : UInt8} {since : ℚ} (hpid : s.absent pid = some since) :
    Kept ({ s with absent := Function.update s.absent pid none }.event (.pidPresent (key pid))) := by
  have haside : (s.absent pid).isSome = true := by
    rw [hpid]
    rfl
  have hbooks := Books.pidPresent h haside
  rw [show Function.update (fun q => (s.absent q).isSome) pid false = _ from
    (isSome_update s.absent pid none).symm] at hbooks
  exact hbooks

/-- Polls and reconnections keep the agreement. -/
theorem quiet_kept : Quiet (fun _ => True) Kept where
  fix fields _ h := Books.fix h fields
  event he h := h.event he
  left h := h

theorem Kept.polls (h : s.Kept) (ps : List Poll) : (s.polls ps).Kept :=
  quiet_kept.polls h fun _ _ _ _ => trivial

theorem Kept.onNoData (h : s.Kept) (pid : UInt8) (now : ℚ) : (s.onNoData pid now).Kept := by
  have hevent : (({ s.note false false with
      noData := Function.update s.noData pid (s.noData pid + 1) } : Session).event
        (.noData (key pid))).Kept := Books.plainEvent h rfl
  unfold Session.onNoData
  dsimp only
  split_ifs with hlimit
  · exact hevent.setAside hlimit.2 now
  · exact hevent

theorem Kept.onBusAsleep (h : s.Kept) (setup : Setup) (pid : UInt8) (detail : Text) (waited : List Poll) :
    (s.onBusAsleep setup pid detail waited).Kept := by
  -- the delay changes, not whether there is one
  have hlast : ∀ {t : Session}, t.Kept →
      Session.Kept { t with asleepDelay := t.asleepDelay.map fun delay => min (delay * 2) busRetryMax } := by
    intro t ht
    unfold Session.Kept
    rw [Option.isSome_map]
    exact ht
  unfold Session.onBusAsleep
  dsimp only
  apply hlast
  apply Kept.polls
  split
  · rename_i hasleep
    have hawake : Books s.out (fun q => (s.absent q).isSome) false s.samples s.events := by
      have hkept := h
      unfold Session.Kept at hkept
      rw [show s.asleepDelay = none from hasleep] at hkept
      exact hkept
    exact hawake.busAsleep (key pid) detail
  · exact h

theorem Kept.onLinkLost (h : s.Kept) (detail : Text) (r : Reopen) : (s.onLinkLost detail r).Kept := by
  have hlost : ((s.note false false).event (.linkLost detail)).Kept := Books.plainEvent h rfl
  exact quiet_kept.reopen hlost r

theorem Kept.onFailed (h : s.Kept) (pid : UInt8) (timedOut : Bool) (detail : Text) (recovery : Recovery) :
    (s.onFailed pid timedOut detail recovery).Kept := by
  have hevent : ∀ e : Event, e.isPlain = true →
      (({ s with errors := s.errors + 1 } : Session).event e).Kept := fun e he => Books.plainEvent h he
  have hplain : (if timedOut then Event.timeout (key pid) detail
      else Event.adapterError (key pid) detail).isPlain = true := by
    cases timedOut with
    | true => rfl
    | false => rfl
  unfold Session.onFailed
  dsimp only
  -- which of the two events it is does not matter
  generalize (if timedOut then Event.timeout (key pid) detail else Event.adapterError (key pid) detail) = e
    at hplain ⊢
  split_ifs
  · exact hevent e hplain
  · apply quiet_kept.recover
    exact hevent e hplain

theorem Kept.busAwake (h : s.Kept) (pid : UInt8) :
    (s.busAwake pid).Kept ∧ (s.busAwake pid).asleepDelay = none := by
  unfold Session.busAwake
  cases hasleep : s.asleepDelay with
  | none => exact ⟨h, hasleep⟩
  | some delay =>
      have hbooks : Books s.out (fun q => (s.absent q).isSome) true s.samples s.events := by
        have hkept := h
        unfold Session.Kept at hkept
        rw [hasleep] at hkept
        exact hkept
      exact ⟨hbooks.busAwake (key pid), rfl⟩

theorem Kept.pidPresent (h : s.Kept) (pid : UInt8) :
    (s.pidPresent pid).Kept ∧ (s.pidPresent pid).absent pid = none ∧
      (s.pidPresent pid).asleepDelay = s.asleepDelay := by
  unfold Session.pidPresent
  dsimp only
  cases habsent : s.absent pid with
  | none => exact ⟨h, habsent, rfl⟩
  | some since =>
      have hreset : Session.Kept { s with noData := Function.update s.noData pid 0 } := h
      exact ⟨hreset.takeBack habsent, Function.update_self _ _ _, rfl⟩

theorem Kept.multiEcu (h : s.Kept) (pid : UInt8) (raws : List Text) :
    (s.multiEcu pid raws).Kept ∧ (s.multiEcu pid raws).absent = s.absent ∧
      (s.multiEcu pid raws).asleepDelay = s.asleepDelay := by
  unfold Session.multiEcu
  split_ifs
  · exact ⟨Books.plainEvent h rfl, rfl, rfl⟩
  · exact ⟨h, rfl, rfl⟩

theorem Kept.sample (h : s.Kept) {pid : UInt8} (hpid : s.absent pid = none) (hawake : s.asleepDelay = none)
    (setup : Setup) (first : Bytes) (raws : List Text) : (s.sample setup pid first raws).Kept := by
  have hnot : (s.absent pid).isSome = false := by
    rw [hpid]
    rfl
  have hbooks : Books s.out (fun q => (s.absent q).isSome) false s.samples s.events := by
    have hkept := h
    unfold Session.Kept at hkept
    rw [hawake] at hkept
    exact hkept
  unfold Session.sample Session.Kept
  dsimp only
  show Books (s.out ++ [_]) (fun q => (s.absent q).isSome) s.asleepDelay.isSome (s.samples + 1) s.events
  rw [hawake]
  exact hbooks.sample hnot rfl

/-- An answer: the intervals are closed before its sample is written. -/
theorem Kept.onAnswers (h : s.Kept) (setup : Setup) (pid : UInt8) (first : Bytes) (more : List Bytes)
    (ps : List Poll) : (s.onAnswers setup pid first more ps).Kept := by
  have hreset : Session.Kept { s.note false false with errors := 0 } := h
  -- each step says what it leaves of the intervals to the next one
  obtain ⟨hawake, hdelay⟩ := hreset.busAwake pid
  obtain ⟨hpresent, habsent, hdelay'⟩ := hawake.pidPresent pid
  obtain ⟨hmulti, habsent', hdelay''⟩ := hpresent.multiEcu pid ((first :: more).map rawHex)
  have hnone := hdelay''.trans (hdelay'.trans hdelay)
  rw [← habsent'] at habsent
  exact (hmulti.sample habsent hnone setup first ((first :: more).map rawHex)).polls ps

theorem Kept.retry (h : s.Kept) (pid : UInt8) (now : ℚ) : (s.retry pid now).Kept := by
  unfold Session.retry
  cases habsent : s.absent pid with
  | none => exact h
  | some since =>
      -- the PID stays set aside; only the time of its retry is new
      have hsame : Function.update (fun q => (s.absent q).isSome) pid (some now).isSome =
          fun q => (s.absent q).isSome := by
        apply Function.update_eq_self_iff.mpr
        rw [habsent]
        rfl
      unfold Session.Kept
      dsimp only
      rw [isSome_update, hsame]
      exact h

theorem Kept.request (h : s.Kept) (setup : Setup) (pid : UInt8) (now : ℚ) (outcome : Outcome)
    (ps : List Poll) : (s.request setup pid now outcome ps).Kept := by
  cases outcome with
  | answers first more => exact h.onAnswers setup pid first more ps
  | noData => exact h.onNoData pid now
  | busAsleep detail waited => exact h.onBusAsleep setup pid detail waited
  | linkLost detail r => exact h.onLinkLost detail r
  | failed timedOut detail recovery => exact h.onFailed pid timedOut detail recovery

theorem Kept.pass (h : s.Kept) (setup : Setup) (now : ℚ) (outcome : Outcome) (ps : List Poll) :
    (s.pass setup now outcome ps).Kept := by
  have hnext : Session.Kept { s with sched := (s.sched.next (s.skips now)).2 } := h
  unfold Session.pass
  dsimp only
  cases (s.sched.next (s.skips now)).1 with
  | none => exact hnext.polls ps
  | some pid => exact (hnext.retry pid now).request setup pid now outcome ps

theorem kept_start (pids fast : List UInt8) (header : List (Text × PyVal)) (gpsUnavailable : Option Text) :
    (start pids fast header gpsUnavailable).Kept := by
  have hempty : Books [] (fun _ => false) false 0 0 :=
    ⟨fun _ => .nil, .nil, rfl, rfl, fun r hr => absurd hr List.not_mem_nil⟩
  have hheader : Books [.header header] (fun _ => false) false 0 0 :=
    hempty.unmarked (fun _ => ⟨rfl, rfl, rfl⟩) ⟨rfl, rfl, rfl⟩ rfl
  unfold start
  cases gpsUnavailable with
  | none => exact hheader
  | some detail => exact hheader.plainEvent rfl

/-! ## Runs -/

/-- The log of a session agrees with its state, or is that of one that did and
a footer with its counts. -/
def Booked (s : Session) : Prop := s.Kept ∨ ∃ t reason seconds, t.Kept ∧ s = finish t reason seconds

theorem booked_run (setup : Setup) (pids fast : List UInt8) (header : List (Text × PyVal))
    (gpsUnavailable : Option Text) (acts : List Action) :
    (run (step setup) (start pids fast header gpsUnavailable) acts).Booked := by
  apply run_invariant
  · intro s a hs
    rcases hs with hkept | ⟨t, reason, seconds, hkept, rfl⟩
    · cases a with
      | pass now outcome ps =>
          unfold step
          dsimp only
          split_ifs
          · exact .inl (hkept.pass setup now outcome ps)
          · exact .inl hkept
      | finish reason seconds =>
          unfold step
          dsimp only
          split_ifs
          · exact .inl hkept
          · exact .inr ⟨s, reason, seconds, hkept, rfl⟩
    · -- behind the footer nothing happens
      have hstay : step setup (finish t reason seconds) a = finish t reason seconds := by
        cases a with
        | pass now outcome ps => rfl
        | finish reason' seconds' => rfl
      rw [hstay]
      exact .inr ⟨t, reason, seconds, hkept, rfl⟩
  · exact .inl (kept_start pids fast header gpsUnavailable)

/-- The event stream of every session is well bracketed: for each PID
`pid_absent` and `pid_present` alternate, with no sample of it in between,
`bus_asleep` and `bus_awake` alternate, with no sample at all in between, and
a footer counts the samples and the events of the log. -/
theorem event_stream_bracketed (setup : Setup) (pids fast : List UInt8) (header : List (Text × PyVal))
    (gpsUnavailable : Option Text) (acts : List Action) :
    let log := (run (step setup) (start pids fast header gpsUnavailable) acts).out
    (∀ pid, Bracketed (isPidAbsent (key pid)) (isPidPresent (key pid)) (isSampleOf (key pid)) log) ∧
    Bracketed isBusAsleep isBusAwake isSample log ∧
    ∀ reason seconds samples events fixes, .footer reason seconds samples events fixes ∈ log →
      samples = log.countP isSample ∧ events = log.countP isEvent := by
  intro log
  rcases booked_run setup pids fast header gpsUnavailable acts with hkept | ⟨t, reason, seconds, hkept, heq⟩
  · refine ⟨fun pid => (hkept.pids pid).bracketed, hkept.bus.bracketed, ?_⟩
    -- there is no footer yet
    intro reason seconds samples events fixes hin
    cases hkept.noFooter _ hin
  · have hlog : log = t.out ++ [.footer reason seconds t.samples t.events t.gps] := by
      show (run (step setup) (start pids fast header gpsUnavailable) acts).out = _
      rw [heq]
      rfl
    rw [hlog]
    refine ⟨?_, ?_, ?_⟩
    -- the footer itself opens and closes nothing
    · intro pid
      exact ((hkept.pids pid).skip rfl rfl fun ho => by cases ho).bracketed
    · exact (hkept.bus.skip rfl rfl fun ho => by cases ho).bracketed
    · intro reason' seconds' samples events fixes hin
      rcases List.mem_append.mp hin with hin | hlast
      · cases hkept.noFooter _ hin
      -- the footer is the last record, and counts what is before it
      · have hsame := List.mem_singleton.mp hlast
        injection hsame with _ _ hsamples hevents _
        rw [List.countP_append, List.countP_append, hsamples, hevents, hkept.samples, hkept.events]
        exact ⟨rfl, rfl⟩

end Session

end Carwatch.Obdlog
