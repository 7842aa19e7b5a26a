import Carwatch.Lib.Framing
import Carwatch.Store.Wal

/-!
# Carwatch.Store.Scan — what the recovery scan finds

The loop of `walScan` seen from outside:

* `scan` — the loop from any state; `scan_of_step` and `scan_of_break` run it
  one record at a time, `scanStep_cases` says everything one record can do;
* `Clean` — bytes that the scan reads to their end with no batch left open:
  a segment cut back to its last COMMIT. `scan_append` continues a scan behind
  them, and `clean_kept` is the reason recovery may run again after a crash
  during recovery;
* `records` — the records decoded from a byte string.
-/

namespace Carwatch.Store

open Carwatch.Lib

/-! ## The loop, one record at a time -/

/-- `wal_scan`'s loop from state `st`. -/
def scan (st : ScanSt) (buf : Bytes) : ScanSt := scanLoop buf.length st buf

theorem scanLoop_fuel {fuel : ℕ} {st : ScanSt} {buf : Bytes} (h : buf.length ≤ fuel) :
    scanLoop fuel st buf = scan st buf := by
  unfold scan
  suffices H : ∀ f g st buf, buf.length ≤ f → buf.length ≤ g →
      scanLoop f st buf = scanLoop g st buf from H _ _ st buf h le_rfl
  intro f
  induction f with
  | zero =>
      intro g st buf hf hg
      have hb : buf = [] := List.length_eq_zero_iff.mp (Nat.le_zero.mp hf)
      subst hb
      cases g <;> rfl
  | succ f ih =>
      intro g st buf hf hg
      cases hd : recDecode buf with
      | error e => cases g <;> simp [scanLoop, hd]
      | ok p =>
          obtain ⟨hpos, hle⟩ := recDecode_size_le (r := p.1) (n := p.2) hd
          cases g with
          | zero => omega
          | succ g =>
              have hlen : (buf.drop p.2).length = buf.length - p.2 := List.length_drop
              simp only [scanLoop, hd]
              cases scanStep st p.1 p.2 with
              | none => rfl
              | some st' => exact ih g st' (buf.drop p.2) (by omega) (by omega)

theorem scan_of_step {st st' : ScanSt} {buf : Bytes} {r : Rec} {n : ℕ}
    (hd : recDecode buf = .ok (r, n)) (hs : scanStep st r n = some st') :
    scan st buf = scan st' (buf.drop n) := by
  obtain ⟨hpos, hle⟩ := recDecode_size_le hd
  have hlen : (buf.drop n).length = buf.length - n := List.length_drop
  cases hb : buf.length with
  | zero => omega
  | succ m =>
      rw [scan, hb]
      simp only [scanLoop, hd, hs]
      exact scanLoop_fuel (by omega)

theorem scan_of_break {st : ScanSt} {buf : Bytes} {r : Rec} {n : ℕ}
    (hd : recDecode buf = .ok (r, n)) (hs : scanStep st r n = none) : scan st buf = st := by
  rw [scan]
  cases buf.length <;> simp [scanLoop, hd, hs]

theorem scan_of_error {st : ScanSt} {buf : Bytes} {e : RecStatus}
    (hd : recDecode buf = .error e) : scan st buf = st := by
  rw [scan]
  cases buf.length <;> simp [scanLoop, hd]

@[simp] theorem scan_nil (st : ScanSt) : scan st [] = st := rfl

/-- Induction along a scan: it stops at once, or it takes a record and scans
the rest. -/
theorem scan_induction {motive : ScanSt → Bytes → Prop}
    (stop : ∀ st buf, scan st buf = st → motive st buf)
    (step : ∀ st buf r n st', recDecode buf = .ok (r, n) → scanStep st r n = some st' →
      motive st' (buf.drop n) → motive st buf)
    (st : ScanSt) (buf : Bytes) : motive st buf := by
  induction hm : buf.length using Nat.strong_induction_on generalizing st buf with
  | _ m ih =>
      cases hd : recDecode buf with
      | error e => exact stop st buf (scan_of_error hd)
      | ok p =>
          obtain ⟨hpos, hle⟩ := recDecode_size_le (r := p.1) (n := p.2) hd
          cases hs : scanStep st p.1 p.2 with
          | none => exact stop st buf (scan_of_break hd hs)
          | some st' =>
              have hlen : (buf.drop p.2).length = buf.length - p.2 := List.length_drop
              exact step st buf p.1 p.2 st' hd hs (ih _ (by omega) st' (buf.drop p.2) rfl)

/-- Everything one record can do to the scan. -/
theorem scanStep_cases {st st' : ScanSt} {r : Rec} {n : ℕ} (h : scanStep st r n = some st') :
    (r.hdr.kind = RecKind.begin.code ∧ st.inBatch = false ∧
      st' = (scanBegin st r).advance r n) ∨
    (r.hdr.kind = RecKind.commit.code ∧ st.inBatch = true ∧ txnOf r.body = st.txn ∧
      st' = (scanCommit st r n).advance r n) ∨
    (r.hdr.kind ≠ RecKind.begin.code ∧ r.hdr.kind ≠ RecKind.commit.code ∧ st.inBatch = true ∧
      st' = (scanPayload st r).advance r n) := by
  unfold scanStep at h
  split_ifs at h with hbegin hin hout hcommit htxn
  · exact Or.inl ⟨hbegin, by simpa using hin, by simpa using h.symm⟩
  · exact Or.inr (Or.inl ⟨hcommit, by simpa using hout, not_not.mp htxn, by simpa using h.symm⟩)
  · exact Or.inr (Or.inr ⟨hbegin, hcommit, by simpa using hout, by simpa using h.symm⟩)

@[simp] theorem ScanSt.advance_off (st : ScanSt) (r : Rec) (n : ℕ) :
    (st.advance r n).off = st.off + n := rfl

@[simp] theorem ScanSt.advance_out (st : ScanSt) (r : Rec) (n : ℕ) :
    (st.advance r n).out = st.out := rfl

@[simp] theorem ScanSt.advance_inBatch (st : ScanSt) (r : Rec) (n : ℕ) :
    (st.advance r n).inBatch = st.inBatch := rfl

/-- A record inside a batch touches neither what is committed nor the
bracket it is in. -/
theorem scanPayload_frame (st : ScanSt) (r : Rec) :
    (scanPayload st r).out = st.out ∧ (scanPayload st r).inBatch = st.inBatch ∧
    (scanPayload st r).txn = st.txn ∧ (scanPayload st r).off = st.off := by
  unfold scanPayload
  split_ifs
  · exact ⟨rfl, rfl, rfl, rfl⟩
  · unfold scanEvent
    simp only
    split_ifs <;> (repeat' split) <;> exact ⟨rfl, rfl, rfl, rfl⟩
  · exact ⟨rfl, rfl, rfl, rfl⟩

theorem scanStep_off {st st' : ScanSt} {r : Rec} {n : ℕ} (h : scanStep st r n = some st') :
    st'.off = st.off + n := by
  rcases scanStep_cases h with ⟨-, -, rfl⟩ | ⟨-, -, -, rfl⟩ | ⟨-, -, -, rfl⟩
  · rfl
  · rfl
  · rw [ScanSt.advance_off, (scanPayload_frame st r).2.2.2]

theorem scan_off_le (st : ScanSt) (buf : Bytes) :
    st.off ≤ (scan st buf).off ∧ (scan st buf).off ≤ st.off + buf.length := by
  induction st, buf using scan_induction with
  | stop st buf h => simp [h]
  | step st buf r n st' hd hs ih =>
      have hoff := scanStep_off hs
      obtain ⟨hpos, hle⟩ := recDecode_size_le hd
      rw [scan_of_step hd hs]
      rw [List.length_drop] at ih
      omega

/-- A scan that read `x` to its end goes on behind it as if it began there. -/
theorem scan_append {st : ScanSt} {x : Bytes} (h : (scan st x).off = st.off + x.length)
    (y : Bytes) : scan st (x ++ y) = scan (scan st x) y := by
  induction st, x using scan_induction with
  | stop st x hstop =>
      rw [hstop] at h ⊢
      have hx : x = [] := List.length_eq_zero_iff.mp (by omega)
      simp [hx]
  | step st x r n st' hd hs ih =>
      have hoff := scanStep_off hs
      obtain ⟨hpos, hle⟩ := recDecode_size_le hd
      have hdrop : (x ++ y).drop n = x.drop n ++ y := List.drop_append_of_le_length hle
      rw [scan_of_step hd hs] at h ⊢
      rw [scan_of_step (recDecode_append hd y) hs, hdrop]
      apply ih
      rw [List.length_drop]
      omega

/-! ## What is committed -/

/-- The scan's own invariant: the last COMMIT lies behind, and right behind
when no batch is open. -/
def ScanSt.Ok (st : ScanSt) : Prop :=
  st.out.committedLen ≤ st.off ∧ (st.inBatch = false → st.out.committedLen = st.off)

theorem scanStep_ok {st st' : ScanSt} {r : Rec} {n : ℕ} (h : scanStep st r n = some st')
    (hst : st.Ok) : st'.Ok := by
  rcases scanStep_cases h with ⟨-, -, rfl⟩ | ⟨-, -, -, rfl⟩ | ⟨-, -, hin, rfl⟩
  · refine ⟨?_, fun hout => by simp [scanBegin] at hout⟩
    have hle := hst.1
    simp only [ScanSt.advance_out, ScanSt.advance_off, scanBegin]
    omega
  · exact ⟨le_rfl, fun _ => rfl⟩
  · obtain ⟨hout, hbatch, -, hoff⟩ := scanPayload_frame st r
    refine ⟨?_, fun hidle => ?_⟩
    · have hle := hst.1
      rw [ScanSt.advance_out, ScanSt.advance_off, hout, hoff]
      omega
    · rw [ScanSt.advance_inBatch, hbatch, hin] at hidle
      simp at hidle

theorem scan_ok {st : ScanSt} (hst : st.Ok) (buf : Bytes) : (scan st buf).Ok := by
  induction st, buf using scan_induction with
  | stop st buf h => rwa [h]
  | step st buf r n st' hd hs ih =>
      rw [scan_of_step hd hs]
      exact ih (scanStep_ok hs hst)

theorem scanSt_init_ok : (({} : ScanSt)).Ok := ⟨le_rfl, fun _ => rfl⟩

/-- `out` changes at a COMMIT only, and then to one that lies further on. -/
theorem scan_out_cases (st : ScanSt) (buf : Bytes) :
    (scan st buf).out = st.out ∨ st.off < (scan st buf).out.committedLen := by
  induction st, buf using scan_induction with
  | stop st buf h => exact Or.inl (by rw [h])
  | step st buf r n st' hd hs ih =>
      obtain ⟨hpos, hle⟩ := recDecode_size_le hd
      have hoff := scanStep_off hs
      rw [scan_of_step hd hs]
      rcases ih with hsame | hfar
      · rw [hsame]
        rcases scanStep_cases hs with ⟨-, -, rfl⟩ | ⟨-, -, -, rfl⟩ | ⟨-, -, -, rfl⟩
        · exact Or.inl rfl
        · refine Or.inr ?_
          simp only [ScanSt.advance_out, scanCommit]
          omega
        · exact Or.inl (scanPayload_frame st r).1
      · exact Or.inr (by omega)

/-- Scanning only up to the last COMMIT gives the same result and ends
there, with no batch open. -/
theorem scan_cut {st : ScanSt} {buf : Bytes} (hst : st.Ok)
    (hfar : st.off < (scan st buf).out.committedLen) :
    (scan st (buf.take ((scan st buf).out.committedLen - st.off))).out = (scan st buf).out ∧
    (scan st (buf.take ((scan st buf).out.committedLen - st.off))).inBatch = false ∧
    (scan st (buf.take ((scan st buf).out.committedLen - st.off))).off =
      (scan st buf).out.committedLen := by
  induction st, buf using scan_induction with
  | stop st buf h =>
      rw [h] at hfar
      have hle := hst.1
      omega
  | step st buf r n st' hd hs ih =>
      obtain ⟨hpos, hle⟩ := recDecode_size_le hd
      have hoff := scanStep_off hs
      have hst' := scanStep_ok hs hst
      rw [scan_of_step hd hs] at hfar ⊢
      generalize hc : (scan st' (buf.drop n)).out.committedLen = c at *
      have hsize := ((recDecode_eq_ok_iff buf r n).mp hd).2.2.1
      have hcut : n ≤ c - st.off → recDecode (buf.take (c - st.off)) = .ok (r, n) := by
        intro hn
        obtain ⟨hr, hmagic, hrn, hpre⟩ := (recDecode_eq_ok_iff buf r n).mp hd
        refine (recDecode_eq_ok_iff _ r n).mpr ⟨hr, hmagic, hrn, ?_⟩
        refine List.prefix_of_prefix_length_le hpre (List.take_prefix _ _) ?_
        rw [Rec.length_image, List.length_take]
        omega
      rcases scan_out_cases st' (buf.drop n) with hsame | hfar'
      · -- no COMMIT after this record: this record is the last one
        have hcst : c = st'.out.committedLen := by rw [← hc, hsame]
        have hcommit : st'.inBatch = false ∧ c = st'.off := by
          rcases scanStep_cases hs with ⟨-, -, rfl⟩ | ⟨-, -, -, rfl⟩ | ⟨-, -, -, rfl⟩
          · have hle' := hst.1
            simp only [ScanSt.advance_out, scanBegin] at hcst
            omega
          · exact ⟨rfl, hcst⟩
          · have hle' := hst.1
            rw [ScanSt.advance_out, (scanPayload_frame st r).1] at hcst
            omega
        have hn : c - st.off = n := by omega
        rw [scan_of_step (hcut (by omega)) hs, hn]
        simp only [List.drop_take, Nat.sub_self, List.take_zero, scan_nil]
        exact ⟨hsame.symm, hcommit.1, hcommit.2.symm⟩
      · rw [hc] at hfar'
        have hrest : (buf.take (c - st.off)).drop n = (buf.drop n).take (c - st'.off) := by
          rw [List.drop_take]
          congr 1
          omega
        rw [scan_of_step (hcut (by omega)) hs, hrest]
        exact ih hst' hfar'

/-! ## Clean bytes -/

/-- The bytes recovery keeps: up to and including the last COMMIT. -/
def walKept (data : Bytes) : Bytes := data.take (walScan data).committedLen

/-- Bytes that the scan reads to their end with no batch left open. -/
def Clean (x : Bytes) : Prop := (scan {} x).inBatch = false ∧ (scan {} x).off = x.length

/-- `walScan` reports what the loop found committed, and a count of what it
did not. -/
theorem walScan_eq_out (x : Bytes) : ∃ n, walScan x = { (scan {} x).out with recordsLost := n } := by
  simp only [walScan]
  change ∃ n, (if (scan {} x).inBatch = true then _ else (scan {} x).out) = _
  split_ifs
  · exact ⟨_, rfl⟩
  · exact ⟨_, rfl⟩

theorem walScan_committedLen (x : Bytes) :
    (walScan x).committedLen = (scan {} x).out.committedLen := by
  obtain ⟨n, h⟩ := walScan_eq_out x
  rw [h]

theorem walScan_of_clean {x : Bytes} (h : Clean x) : walScan x = (scan {} x).out := by
  simp only [walScan]
  change (if (scan {} x).inBatch = true then _ else (scan {} x).out) = _
  rw [if_neg (by simp [h.1])]

theorem clean_nil : Clean [] := ⟨rfl, rfl⟩

theorem Clean.committedLen {x : Bytes} (h : Clean x) : (walScan x).committedLen = x.length := by
  rw [walScan_committedLen, (scan_ok scanSt_init_ok x).2 h.1, h.2]

theorem Clean.kept {x : Bytes} (h : Clean x) : walKept x = x := by
  rw [walKept, h.committedLen, List.take_length]

theorem committedLen_le (x : Bytes) : (walScan x).committedLen ≤ x.length := by
  have hok := (scan_ok scanSt_init_ok x).1
  have hoff := (scan_off_le {} x).2
  rw [walScan_committedLen]
  simp only [Nat.zero_add] at hoff
  omega

/-- What recovery keeps is clean, and scanning it again finds the same. -/
theorem clean_kept (x : Bytes) :
    Clean (walKept x) ∧ (scan {} (walKept x)).out = (scan {} x).out := by
  have hle := committedLen_le x
  rw [walKept]
  rw [walScan_committedLen] at hle ⊢
  rcases scan_out_cases {} x with hsame | hfar
  · have hzero : (scan {} x).out.committedLen = 0 := by rw [hsame]
    rw [hzero, List.take_zero]
    exact ⟨clean_nil, hsame.symm⟩
  · obtain ⟨hout, hidle, hoff⟩ := scan_cut scanSt_init_ok hfar
    simp only [Nat.sub_zero] at hout hidle hoff
    refine ⟨⟨hidle, ?_⟩, hout⟩
    rw [hoff, List.length_take]
    omega

/-- Clean bytes are kept whatever follows them. -/
theorem Clean.prefix_kept {x : Bytes} (h : Clean x) (g : Bytes) : x <+: walKept (x ++ g) := by
  have hscan : scan {} (x ++ g) = scan (scan {} x) g := scan_append (by rw [h.2]; simp) g
  have hlen : x.length ≤ (walScan (x ++ g)).committedLen := by
    have hx := (scan_ok scanSt_init_ok x).2 h.1
    rw [walScan_committedLen, hscan]
    rcases scan_out_cases (scan {} x) g with hsame | hfar
    · rw [hsame, hx, h.2]
    · rw [h.2] at hfar
      omega
  rw [walKept, List.take_append]
  rw [List.take_of_length_le hlen]
  exact List.prefix_append x _

/-! ## Decoded records -/

/-- One record off the front of a byte string. -/
def recFrame (b : Bytes) : Option (Rec × ℕ) := (recDecode b).toOption

theorem recFrame_eq_some_iff {b : Bytes} {r : Rec} {n : ℕ} :
    recFrame b = some (r, n) ↔ recDecode b = .ok (r, n) := by
  unfold recFrame
  cases recDecode b <;> simp [Except.toOption]

theorem recFrame_lawful : Lawful recFrame where
  size h := recDecode_size_le (recFrame_eq_some_iff.mp h)
  extend h t := recFrame_eq_some_iff.mpr (recDecode_append (recFrame_eq_some_iff.mp h) t)

/-- The records decoded from the front of a byte string. -/
def records (b : Bytes) : List Rec := frames recFrame b

@[simp] theorem records_nil : records [] = [] := frames_nil recFrame_lawful

theorem records_of_decode {b : Bytes} {r : Rec} {n : ℕ} (h : recDecode b = .ok (r, n)) :
    records b = r :: records (b.drop n) :=
  frames_of_some recFrame_lawful (recFrame_eq_some_iff.mpr h)

/-- Bytes a scan read to their end decode apart from what follows. -/
theorem records_append {st : ScanSt} {x : Bytes} (h : (scan st x).off = st.off + x.length)
    (y : Bytes) : records (x ++ y) = records x ++ records y := by
  induction st, x using scan_induction with
  | stop st x hstop =>
      rw [hstop] at h
      have hx : x = [] := List.length_eq_zero_iff.mp (by omega)
      simp [hx]
  | step st x r n st' hd hs ih =>
      have hoff := scanStep_off hs
      obtain ⟨hpos, hle⟩ := recDecode_size_le hd
      have hdrop : (x ++ y).drop n = x.drop n ++ y := List.drop_append_of_le_length hle
      rw [scan_of_step hd hs] at h
      rw [records_of_decode (recDecode_append hd y), records_of_decode hd, hdrop,
        ih (by rw [List.length_drop]; omega), List.cons_append]

theorem Clean.records_append {x : Bytes} (h : Clean x) (y : Bytes) :
    records (x ++ y) = records x ++ records y :=
  @Store.records_append {} x (by rw [h.2]; simp) y

end Carwatch.Store
