import Carwatch.Obdlog.Session

/-!
# Carwatch.Obdlog.Reset — when the adapter is re-initialised

The loop counts timeouts and adapter errors, and re-initialises the adapter at
the third in a row.

* `ResetsRight` — a reset exactly upon the last of so many errors in a row;
* `request_asked` — what a request does to the count, one case for each kind of
  outcome. NO DATA leaves it alone;
* `resets_right` — the runs in which no NO DATA meets a count other than 0.
-/

namespace Carwatch.Obdlog

open Carwatch.Lib

/-! ## What is right -/

/-- An error that did not lead to a reset. -/
def Asked.counts (y : Asked) : Bool := y.error && !y.reinit

/-- A request leads to a reset exactly when it is the last of `ERROR_LIMIT`
requests that all ended in an error, with no reset among the others. -/
def ResetsRight (asked : List Asked) : Prop :=
  ∀ before x, before ++ [x] <+: asked →
    (x.reinit = true ↔ x.error = true ∧ ∃ earlier last, before = earlier ++ last ∧
      last.length = errorLimit - 1 ∧ ∀ y ∈ last, y.counts = true)

/-- The errors at the end of the requests so far, back to a reset or another
outcome. -/
def streak (asked : List Asked) : ℕ := (asked.reverse.takeWhile Asked.counts).length

theorem streak_concat (asked : List Asked) (x : Asked) :
    streak (asked ++ [x]) = if x.counts then streak asked + 1 else 0 := by
  unfold streak
  rw [List.reverse_append, List.reverse_singleton, List.singleton_append, List.takeWhile_cons]
  split_ifs
  · rw [List.length_cons]
  · rfl

/-- So many errors in a row. -/
theorem le_streak_iff (asked : List Asked) (n : ℕ) :
    n ≤ streak asked ↔ ∃ earlier last, asked = earlier ++ last ∧ last.length = n ∧
      ∀ y ∈ last, y.counts = true := by
  constructor
  · intro hn
    refine ⟨((asked.reverse.drop n)).reverse, (asked.reverse.take n).reverse, ?_, ?_, ?_⟩
    · rw [← List.reverse_append, List.take_append_drop, List.reverse_reverse]
    · rw [List.length_reverse, List.length_take]
      exact Nat.min_eq_left (hn.trans (List.takeWhile_prefix _).length_le)
    · intro y hy
      rw [List.mem_reverse] at hy
      have hwithin : asked.reverse.take n <+: asked.reverse.takeWhile Asked.counts := by
        apply List.prefix_of_prefix_length_le (List.take_prefix n _) (List.takeWhile_prefix _)
        rw [List.length_take]
        exact (Nat.min_le_left _ _).trans hn
      exact List.all_eq_true.mp List.all_takeWhile y (hwithin.subset hy)
  · rintro ⟨earlier, last, rfl, rfl, hall⟩
    unfold streak
    rw [List.reverse_append, List.takeWhile_append_of_pos fun y hy => hall y (List.mem_reverse.mp hy),
      List.length_append, List.length_reverse]
    exact Nat.le_add_right _ _

/-- One more request. -/
theorem ResetsRight.concat {asked : List Asked} (h : ResetsRight asked) {x : Asked}
    (hx : x.reinit = true ↔ x.error = true ∧ errorLimit - 1 ≤ streak asked) :
    ResetsRight (asked ++ [x]) := by
  intro before y hy
  rcases List.prefix_concat_iff.mp hy with heq | hin
  · obtain ⟨rfl, hyx⟩ := List.append_inj' heq rfl
    rw [List.singleton_inj.mp hyx, hx, le_streak_iff]
  · exact h before y hin

/-! ## What a request does to the count -/

namespace Session

/-- The count and the requests are as before. -/
def Uncounted (s t : Session) : Prop := t.errors = s.errors ∧ t.asked = s.asked

theorem Uncounted.refl (s : Session) : Uncounted s s := ⟨rfl, rfl⟩

theorem Uncounted.trans {s t u : Session} (h : Uncounted s t) (h' : Uncounted t u) : Uncounted s u :=
  ⟨h'.1.trans h.1, h'.2.trans h.2⟩

/-- Polls and reconnections leave both alone. -/
theorem quiet_uncounted (s : Session) : Quiet (fun _ => True) (Uncounted s) where
  fix _ _ h := h
  event _ h := h
  left h := h

theorem uncounted_polls (s : Session) (ps : List Poll) : Uncounted s (s.polls ps) :=
  (quiet_uncounted s).polls (.refl s) fun _ _ _ _ => trivial

theorem uncounted_reopen (s : Session) (r : Reopen) : Uncounted s (s.reopen r) :=
  (quiet_uncounted s).reopen (.refl s) r

theorem uncounted_recover (s : Session) (recovery : Recovery) : Uncounted s (s.recover recovery) :=
  (quiet_uncounted s).recover (.refl s) recovery

theorem uncounted_answer (s : Session) (setup : Setup) (pid : UInt8) (first : Bytes) (raws : List Text)
    (ps : List Poll) :
    Uncounted s (((((s.busAwake pid).pidPresent pid).multiEcu pid raws).sample setup pid first raws).polls
      ps) := by
  have hawake : Uncounted s (s.busAwake pid) := by
    unfold busAwake
    split
    · exact .refl s
    · exact ⟨rfl, rfl⟩
  have hpresent : ∀ t : Session, Uncounted t (t.pidPresent pid) := by
    intro t
    unfold pidPresent
    dsimp only
    split
    · exact ⟨rfl, rfl⟩
    · exact ⟨rfl, rfl⟩
  have hmulti : ∀ t : Session, Uncounted t (t.multiEcu pid raws) := by
    intro t
    unfold multiEcu
    split_ifs
    · exact ⟨rfl, rfl⟩
    · exact .refl t
  have hsample : ∀ t : Session, Uncounted t (t.sample setup pid first raws) := fun _ => ⟨rfl, rfl⟩
  exact (((hawake.trans (hpresent _)).trans (hmulti _)).trans (hsample _)).trans (uncounted_polls _ ps)

/-- What a request does to the count: an error is counted, up to the limit, NO
DATA leaves the count alone, and everything else sets it to 0. -/
theorem request_asked (setup : Setup) (s : Session) (pid : UInt8) (now : ℚ) (outcome : Outcome)
    (ps : List Poll) :
    ((s.request setup pid now outcome ps).asked = s.asked ++ [⟨true, false⟩] ∧
      (s.request setup pid now outcome ps).errors = s.errors + 1 ∧ s.errors + 1 < errorLimit) ∨
    ((s.request setup pid now outcome ps).asked = s.asked ++ [⟨true, true⟩] ∧
      (s.request setup pid now outcome ps).errors = 0 ∧ errorLimit ≤ s.errors + 1) ∨
    ((s.request setup pid now outcome ps).asked = s.asked ++ [⟨false, false⟩] ∧
      ((s.request setup pid now outcome ps).errors = 0 ∨
        outcome = .noData ∧ (s.request setup pid now outcome ps).errors = s.errors)) := by
  cases outcome with
  | failed timedOut detail recovery =>
      by_cases hlimit : s.errors + 1 < errorLimit
      · left
        have hnot : s.request setup pid now (.failed timedOut detail recovery) ps = _ := if_pos hlimit
        rw [hnot]
        exact ⟨rfl, rfl, hlimit⟩
      -- the limit: the count is set to 0 before the adapter is re-initialised
      · right
        left
        have hreset : s.request setup pid now (.failed timedOut detail recovery) ps = _ := if_neg hlimit
        rw [hreset]
        obtain ⟨herrors, hasked⟩ := uncounted_recover
          { (({ s with errors := s.errors + 1 } : Session).event
            (if timedOut then .timeout (key pid) detail else .adapterError (key pid) detail)).note true true
            with errors := 0 } recovery
        exact ⟨hasked, herrors, Nat.not_lt.mp hlimit⟩
  | noData =>
      right
      right
      -- the count stays as it is
      unfold request onNoData
      dsimp only
      split_ifs
      · exact ⟨rfl, .inr ⟨rfl, rfl⟩⟩
      · exact ⟨rfl, .inr ⟨rfl, rfl⟩⟩
  | busAsleep detail waited =>
      right
      right
      unfold request onBusAsleep
      dsimp only
      split
      · obtain ⟨herrors, hasked⟩ := uncounted_polls
          { ({ s.note false false with errors := 0 } : Session).event (.busAsleep (key pid) detail) with
            asleepDelay := some setup.backoffMin } waited
        exact ⟨hasked, .inl herrors⟩
      · obtain ⟨herrors, hasked⟩ := uncounted_polls { s.note false false with errors := 0 } waited
        exact ⟨hasked, .inl herrors⟩
  | linkLost detail r =>
      right
      right
      -- the count is set to 0 behind the reconnection
      obtain ⟨-, hasked⟩ := uncounted_reopen ((s.note false false).event (.linkLost detail)) r
      exact ⟨hasked, .inl rfl⟩
  | answers first more =>
      right
      right
      obtain ⟨herrors, hasked⟩ := uncounted_answer { s.note false false with errors := 0 } setup pid first
        ((first :: more).map rawHex) ps
      exact ⟨hasked, .inl herrors⟩

/-! ## Runs -/

/-- The count is that of the errors in a row. -/
structure Counted (s : Session) : Prop where
  errors : s.errors = streak s.asked
  below : s.errors < errorLimit
  right : ResetsRight s.asked

/-- No NO DATA meets a count other than 0: if the pass asks a PID and NO DATA
is the answer, no error has been counted. -/
def NoDataAtZero (s : Session) (a : Action) : Prop :=
  ∀ now ps, a = .pass now .noData ps → s.phase = .running → (s.sched.next (s.skips now)).1 ≠ none →
    s.errors = 0

theorem Counted.request {s : Session} (h : s.Counted) (setup : Setup) (pid : UInt8) (now : ℚ)
    (outcome : Outcome) (ps : List Poll) (hzero : outcome = .noData → s.errors = 0) :
    (s.request setup pid now outcome ps).Counted := by
  have hpos : 0 < errorLimit := by decide
  rcases request_asked setup s pid now outcome ps with
    ⟨hasked, herrors, hlimit⟩ | ⟨hasked, herrors, hlimit⟩ | ⟨hasked, herrors⟩
  -- one more error, below the limit
  · refine ⟨?_, by rw [herrors]; exact hlimit, ?_⟩
    · rw [hasked, herrors, streak_concat, h.errors]
      rfl
    · rw [hasked]
      apply h.right.concat
      rw [← h.errors]
      refine iff_of_false Bool.false_ne_true ?_
      rintro ⟨-, hle⟩
      omega
  -- the error that reaches the limit, and the reset
  · refine ⟨?_, by rw [herrors]; exact hpos, ?_⟩
    · rw [hasked, herrors, streak_concat]
      rfl
    · rw [hasked]
      apply h.right.concat
      rw [← h.errors]
      exact iff_of_true rfl ⟨rfl, by omega⟩
  -- anything else ends the streak, and the count is 0 behind it: where NO DATA
  -- leaves it alone it was 0 before
  · have hnone : (s.request setup pid now outcome ps).errors = 0 := by
      rcases herrors with hzero' | ⟨hnodata, hsame⟩
      · exact hzero'
      · rw [hsame]
        exact hzero hnodata
    refine ⟨?_, by rw [hnone]; exact hpos, ?_⟩
    · rw [hasked, hnone, streak_concat]
      rfl
    · rw [hasked]
      apply h.right.concat
      refine iff_of_false Bool.false_ne_true ?_
      rintro ⟨herror, -⟩
      cases herror

/-- What does not touch the count keeps it. -/
theorem Counted.of_uncounted {s t : Session} (h : s.Counted) (hst : Uncounted s t) : t.Counted := by
  refine ⟨?_, ?_, ?_⟩
  · rw [hst.1, hst.2]
    exact h.errors
  · rw [hst.1]
    exact h.below
  · rw [hst.2]
    exact h.right

theorem counted_step {s : Session} (setup : Setup) (a : Action) (h : s.Counted) (hclean : NoDataAtZero s a) :
    (step setup s a).Counted := by
  cases a with
  | finish reason seconds =>
      unfold step
      dsimp only
      split_ifs
      · exact h
      · exact h.of_uncounted ⟨rfl, rfl⟩
  | pass now outcome ps =>
      unfold step
      dsimp only
      split_ifs with hrunning
      · have hretry : ∀ pid, Uncounted s
            (Session.retry { s with sched := (s.sched.next (s.skips now)).2 } pid now) := by
          intro pid
          unfold retry
          split
          · exact ⟨rfl, rfl⟩
          · exact ⟨rfl, rfl⟩
        unfold pass
        dsimp only
        cases hnext : (s.sched.next (s.skips now)).1 with
        | none => exact h.of_uncounted (uncounted_polls { s with sched := _ } ps)
        | some pid =>
            apply (h.of_uncounted (hretry pid)).request
            -- the retry mark touches no count, so the condition is about `s`
            intro hnodata
            rw [(hretry pid).1]
            apply hclean now ps
            · rw [hnodata]
            · exact hrunning
            · rw [hnext]
              exact Option.some_ne_none pid
      · exact h

/-- In a run in which no NO DATA meets a count other than 0, the adapter is
re-initialised exactly upon the last of three requests in a row that ended in a
timeout or an adapter error. -/
theorem resets_right (setup : Setup) (pids fast : List UInt8) (header : List (Text × PyVal))
    (gpsUnavailable : Option Text) (acts : List Action)
    (hclean : Meets (step setup) NoDataAtZero (start pids fast header gpsUnavailable) acts) :
    ResetsRight (run (step setup) (start pids fast header gpsUnavailable) acts).asked := by
  have hstart : (start pids fast header gpsUnavailable).Counted := by
    have hempty : ResetsRight [] := by
      intro before x hx
      exact absurd (List.prefix_nil.mp hx) (List.append_ne_nil_of_right_ne_nil _ (List.cons_ne_nil _ _))
    have hpos : 0 < errorLimit := by decide
    unfold start
    cases gpsUnavailable with
    | none => exact ⟨rfl, hpos, hempty⟩
    | some detail => exact ⟨rfl, hpos, hempty⟩
  exact (meets_invariant (step setup) NoDataAtZero Counted
    (fun s a hs ha => counted_step setup a hs ha) _ hstart acts hclean).right

/-- A logger that decodes nothing. -/
def plainSetup : Setup := ⟨fun _ _ => (.none, []), 1⟩

/-- A request that times out, with an adapter that can be re-initialised. -/
def timesOut : Action := .pass 0 (.failed true [] (.banner [])) []

/-- Three timeouts in a row, a reset, and NO DATA. -/
theorem resets_right_three :
    Meets (step plainSetup) NoDataAtZero (start [0x0C] [0x0C] [] none)
      [timesOut, timesOut, timesOut, .pass 0 .noData []] ∧
    ResetsRight (run (step plainSetup) (start [0x0C] [0x0C] [] none)
      [timesOut, timesOut, timesOut, .pass 0 .noData []]).asked := by
  have hclean : Meets (step plainSetup) NoDataAtZero (start [0x0C] [0x0C] [] none)
      [timesOut, timesOut, timesOut, .pass 0 .noData []] := by
    refine ⟨?_, ?_, ?_, ?_, trivial⟩
    · intro now ps heq
      cases heq
    · intro now ps heq
      cases heq
    · intro now ps heq
      cases heq
    · intro _ _ _ _ _
      rfl
  exact ⟨hclean, resets_right plainSetup [0x0C] [0x0C] [] none _ hclean⟩

/-- Two timeouts, NO DATA, and a third timeout: the adapter is re-initialised,
although it answered in between. -/
theorem reset_after_no_data :
    (run (step plainSetup) (start [0x0C] [0x0C] [] none)
      [timesOut, timesOut, .pass 0 .noData [], timesOut]).asked =
      [⟨true, false⟩, ⟨true, false⟩, ⟨false, false⟩, ⟨true, true⟩] ∧
    ¬ ResetsRight (run (step plainSetup) (start [0x0C] [0x0C] [] none)
      [timesOut, timesOut, .pass 0 .noData [], timesOut]).asked := by
  have hasked : (run (step plainSetup) (start [0x0C] [0x0C] [] none)
      [timesOut, timesOut, .pass 0 .noData [], timesOut]).asked =
      [⟨true, false⟩, ⟨true, false⟩, ⟨false, false⟩, ⟨true, true⟩] := by
    decide +kernel
  refine ⟨hasked, ?_⟩
  rw [hasked]
  -- the reset calls for a streak of two before it, and NO DATA ended it
  intro hright
  obtain ⟨-, hlast⟩ := (hright [⟨true, false⟩, ⟨true, false⟩, ⟨false, false⟩] ⟨true, true⟩
    (List.prefix_refl _)).mp rfl
  have hstreak := (le_streak_iff _ _).mpr hlast
  exact absurd hstreak (by decide)

end Session

end Carwatch.Obdlog
