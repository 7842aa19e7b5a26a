import Carwatch.Obdlog.Session

/-!
# Carwatch.Obdlog.Written — the writer takes the log of every session

`LogWriter.write` refuses a record with a field of a reserved name. The fields
of the header and of the fixes come from elsewhere; all others are the loop's.

* `writeAll_isSome` — calls without a clash are all accepted;
* `clash_event`, `clash_sample`, `clash_footer` — the records of the loop;
* `Written` — no record of the log clashes; each exit of the loop keeps it;
* `session_written` — every run.
-/

namespace Carwatch.Obdlog

open Carwatch.Lib

/-! ## The writer -/

theorem write_isSome (w : LogWriter) {e : Entry} (he : clash e.fields = false) :
    ∃ w', w.write e = some w' := by
  unfold LogWriter.write
  rw [he, if_neg Bool.false_ne_true]
  exact ⟨_, rfl⟩

theorem writeAll_isSome (w : LogWriter) {es : List Entry} (hes : ∀ e ∈ es, clash e.fields = false) :
    ∃ w', w.writeAll es = some w' := by
  induction es generalizing w with
  | nil => exact ⟨w, rfl⟩
  | cons e es ih =>
      rcases write_isSome w (hes e List.mem_cons_self) with ⟨v, hv⟩
      rcases ih v fun d hd => hes d (List.mem_cons_of_mem e hd) with ⟨w', hw'⟩
      refine ⟨w', ?_⟩
      rw [LogWriter.writeAll, hv]
      exact hw'

/-! ## The records of the loop -/

theorem clash_eq_names (fields : List (Text × PyVal)) :
    clash fields = (fields.map Prod.fst).any isReserved := by
  unfold clash
  rw [List.any_map]
  rfl

/-- Only the names count, and they are the same in all events of a kind. -/
theorem clash_event (e : Event) : clash (Record.event e).call.2 = false := by
  rw [clash_eq_names]
  -- the values are not looked at, so names alone are left to compare
  cases e <;> simp only [Record.call, Event.call, List.map_cons, List.map_nil] <;> decide +kernel

theorem clash_sample (x : Sample) : clash (Record.sample x).call.2 = false := by
  rw [clash_eq_names]
  cases hraws : x.rawAll <;>
    simp only [Record.call, hraws, Option.map_some, Option.map_none, Option.toList_some,
      Option.toList_none, List.map_cons, List.map_nil, List.cons_append, List.nil_append] <;>
    decide +kernel

theorem clash_footer (reason : Text) (seconds : NumText) (samples events fixes : ℕ) :
    clash (Record.footer reason seconds samples events fixes).call.2 = false := by
  rw [clash_eq_names]
  simp only [Record.call, List.map_cons, List.map_nil]
  decide +kernel

/-! ## The loop -/

/-- The polls of an action. -/
def Action.polls : Action → List Poll
  | .pass _ (.busAsleep _ waited) ps => waited ++ ps
  | .pass _ _ ps => ps
  | .finish _ _ => []

/-- No fix of an action clashes. -/
def Action.Fine (a : Action) : Prop := ∀ p ∈ a.polls, ∀ fields ∈ p.fixes, clash fields = false

namespace Session

/-- The writer takes every record of the log. -/
def Written (s : Session) : Prop := ∀ r ∈ s.out, clash r.call.2 = false

variable {s : Session}

theorem Written.write (h : s.Written) {r : Record} (hr : clash r.call.2 = false) : (s.write r).Written := by
  intro q hq
  rcases List.mem_append.mp hq with hin | hlast
  · exact h q hin
  · rw [List.mem_singleton.mp hlast]
    exact hr

theorem Written.event (h : s.Written) (e : Event) : (s.event e).Written := h.write (clash_event e)

theorem quiet_written : Quiet (fun fields => clash fields = false) Written where
  fix _ hfields h := h.write hfields
  event _ h := h.event _
  left h := h

theorem Written.onNoData (h : s.Written) (pid : UInt8) (now : ℚ) : (s.onNoData pid now).Written := by
  have hevent : (({ s.note false false with
      noData := Function.update s.noData pid (s.noData pid + 1) } : Session).event
        (.noData (key pid))).Written := Written.event h _
  unfold Session.onNoData
  dsimp only
  split_ifs
  · exact Written.event hevent _
  · exact hevent

theorem Written.onBusAsleep (h : s.Written) (setup : Setup) (pid : UInt8) (detail : Text)
    {waited : List Poll} (hwaited : ∀ p ∈ waited, ∀ fields ∈ p.fixes, clash fields = false) :
    (s.onBusAsleep setup pid detail waited).Written := by
  unfold Session.onBusAsleep
  dsimp only
  apply quiet_written.polls ?_ hwaited
  split
  · exact Written.event h _
  · exact h

theorem Written.onFailed (h : s.Written) (pid : UInt8) (timedOut : Bool) (detail : Text)
    (recovery : Recovery) : (s.onFailed pid timedOut detail recovery).Written := by
  have hevent : ∀ e : Event, (({ s with errors := s.errors + 1 } : Session).event e).Written :=
    fun e => Written.event h e
  unfold Session.onFailed
  dsimp only
  generalize (if timedOut then Event.timeout (key pid) detail else Event.adapterError (key pid) detail) = e
  split_ifs
  · exact hevent e
  · apply quiet_written.recover
    exact hevent e

theorem Written.onAnswers (h : s.Written) (setup : Setup) (pid : UInt8) (first : Bytes)
    (more : List Bytes) {ps : List Poll} (hps : ∀ p ∈ ps, ∀ fields ∈ p.fixes, clash fields = false) :
    (s.onAnswers setup pid first more ps).Written := by
  have hawake : ∀ {t : Session}, t.Written → (t.busAwake pid).Written := by
    intro t ht
    unfold busAwake
    split
    · exact ht
    · exact Written.event ht _
  have hpresent : ∀ {t : Session}, t.Written → (t.pidPresent pid).Written := by
    intro t ht
    unfold pidPresent
    dsimp only
    split
    · exact ht
    · exact Written.event ht _
  have hmulti : ∀ {t : Session} (raws : List Text), t.Written → (t.multiEcu pid raws).Written := by
    intro t raws ht
    unfold multiEcu
    split_ifs
    · exact Written.event ht _
    · exact ht
  unfold Session.onAnswers
  dsimp only
  apply quiet_written.polls ?_ hps
  apply Written.write
  · apply hmulti
    apply hpresent
    apply hawake
    exact h
  · exact clash_sample _

theorem Written.request (h : s.Written) (setup : Setup) (pid : UInt8) (now : ℚ) {outcome : Outcome}
    {ps : List Poll} (hfine : (Action.pass now outcome ps).Fine) :
    (s.request setup pid now outcome ps).Written := by
  cases outcome with
  | answers first more => exact h.onAnswers setup pid first more hfine
  | noData => exact h.onNoData pid now
  | busAsleep detail waited => exact h.onBusAsleep setup pid detail fun p hp => hfine p (List.mem_append_left _ hp)
  | linkLost detail r =>
      have hlost : ((s.note false false).event (.linkLost detail)).Written := Written.event h _
      exact quiet_written.reopen hlost r
  | failed timedOut detail recovery => exact h.onFailed pid timedOut detail recovery

theorem Written.pass (h : s.Written) (setup : Setup) (now : ℚ) {outcome : Outcome} {ps : List Poll}
    (hfine : (Action.pass now outcome ps).Fine) : (s.pass setup now outcome ps).Written := by
  have hretry : ∀ {t : Session} (pid : UInt8), t.Written → (t.retry pid now).Written := by
    intro t pid ht
    unfold retry
    split
    · exact ht
    · exact ht
  -- whatever the outcome, the polls behind it are among those of the action
  have hps : ∀ p ∈ ps, ∀ fields ∈ p.fixes, clash fields = false := by
    intro p hp
    apply hfine p
    cases outcome with
    | busAsleep detail waited => exact List.mem_append_right _ hp
    | _ => exact hp
  have hnext : Written { s with sched := (s.sched.next (s.skips now)).2 } := h
  unfold Session.pass
  dsimp only
  split
  · exact quiet_written.polls hnext hps
  · exact (hretry _ hnext).request setup _ now hfine

theorem written_step (setup : Setup) (h : s.Written) {a : Action} (hfine : a.Fine) :
    (step setup s a).Written := by
  cases a with
  | pass now outcome ps =>
      unfold step
      dsimp only
      split_ifs
      · exact h.pass setup now hfine
      · exact h
  | finish reason seconds =>
      unfold step
      dsimp only
      split_ifs
      · exact h
      · exact Written.write h (clash_footer reason seconds s.samples s.events s.gps)

/-- No record of a session clashes, if the header and the fixes of the location
have fields with names of their own. -/
theorem written_run (setup : Setup) (pids fast : List UInt8) {header : List (Text × PyVal)}
    (gpsUnavailable : Option Text) {acts : List Action} (hheader : clash header = false)
    (hfine : ∀ a ∈ acts, a.Fine) :
    (run (step setup) (start pids fast header gpsUnavailable) acts).Written := by
  have hstart : (start pids fast header gpsUnavailable).Written := by
    have hfirst : (start pids fast header none).Written := by
      intro r hr
      rw [List.mem_singleton.mp hr]
      exact hheader
    cases gpsUnavailable with
    | none => exact hfirst
    | some detail => exact hfirst.event _
  exact meets_invariant (step setup) (fun _ a => a.Fine) Written
    (fun s a hs ha => written_step setup hs ha) _ hstart acts (meets_of_forall (fun a ha _ => hfine a ha) _)

/-- An entry that was made for a record that does not clash does not clash. -/
theorem Written.entries {s : Session} (h : s.Written) {es : List Entry}
    (hes : es.map (fun e => (e.rtype, e.fields)) <+: s.out.map Record.call) :
    ∀ e ∈ es, clash e.fields = false := by
  intro e he
  have hcall : (e.rtype, e.fields) ∈ s.out.map Record.call :=
    hes.subset (List.mem_map_of_mem he)
  rcases List.mem_map.mp hcall with ⟨r, hr, heq⟩
  have hclash := h r hr
  rw [heq] at hclash
  exact hclash

/-- The writer takes the log of every session. -/
theorem session_written (setup : Setup) (pids fast : List UInt8) {header : List (Text × PyVal)}
    (gpsUnavailable : Option Text) {acts : List Action} (hheader : clash header = false)
    (hfine : ∀ a ∈ acts, a.Fine) (w : LogWriter) {es : List Entry}
    (hes : es.map (fun e => (e.rtype, e.fields)) =
      (run (step setup) (start pids fast header gpsUnavailable) acts).out.map Record.call) :
    ∃ w', w.writeAll es = some w' :=
  writeAll_isSome w
    ((written_run setup pids fast gpsUnavailable hheader hfine).entries (hes ▸ List.prefix_rfl))

end Session

end Carwatch.Obdlog
