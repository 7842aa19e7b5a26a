import Carwatch.Store.Scan

/-!
# Carwatch.Store.Cut — a segment cut anywhere

A crash leaves a prefix of a segment behind, and so does a crash during the
recovery from it. `walScan` of a prefix is determined by the scan of the whole:

* `commits` — the values `out` takes in the loop, one for each COMMIT the scan
  accepts; `scan_out_eq_getLastD` ties them to what the scan returns;
* `commits_take` — the COMMITs accepted in a prefix are those of the whole that
  end inside it, over bytes of any kind;
* `walScan_take` — what a cut recovers.
-/

namespace Carwatch.Store

open Carwatch.Lib

/-! ## The COMMITs a scan accepts -/

/-- What `out` holds just after each COMMIT that the loop accepts. -/
def commitsLoop : ℕ → ScanSt → Bytes → List WalScan
  | 0, _, _ => []
  | fuel + 1, st, buf =>
      match recDecode buf with
      | .error _ => []
      | .ok (r, size) =>
          match scanStep st r size with
          | none => []
          | some st' =>
              let rest := commitsLoop fuel st' (buf.drop size)
              if r.hdr.kind = RecKind.commit.code then st'.out :: rest else rest

/-- The same for the loop from state `st`. -/
def commits (st : ScanSt) (buf : Bytes) : List WalScan := commitsLoop buf.length st buf

/-- Every field of a scan but `records_lost`, which tells of what is not
committed. -/
def WalScan.committed (s : WalScan) : WalScan := { s with recordsLost := 0 }

theorem commitsLoop_fuel {fuel : ℕ} {st : ScanSt} {buf : Bytes} (h : buf.length ≤ fuel) :
    commitsLoop fuel st buf = commits st buf := by
  unfold commits
  suffices H : ∀ f g st buf, buf.length ≤ f → buf.length ≤ g →
      commitsLoop f st buf = commitsLoop g st buf from H _ _ st buf h le_rfl
  intro f
  induction f with
  | zero =>
      intro g st buf hf hg
      have hb : buf = [] := List.length_eq_zero_iff.mp (Nat.le_zero.mp hf)
      subst hb
      cases g <;> rfl
  | succ f ih =>
      intro g st buf hf hg
      cases hd : recDecode buf with
      | error e => cases g <;> simp [commitsLoop, hd]
      | ok p =>
          obtain ⟨hpos, hle⟩ := recDecode_size_le (r := p.1) (n := p.2) hd
          cases g with
          | zero => omega
          | succ g =>
              have hlen : (buf.drop p.2).length = buf.length - p.2 := List.length_drop
              simp only [commitsLoop, hd]
              cases scanStep st p.1 p.2 with
              | none => rfl
              | some st' =>
                  simp only
                  rw [ih g st' (buf.drop p.2) (by omega) (by omega)]

theorem commits_of_step {st st' : ScanSt} {buf : Bytes} {r : Rec} {n : ℕ}
    (hd : recDecode buf = .ok (r, n)) (hs : scanStep st r n = some st') :
    commits st buf = if r.hdr.kind = RecKind.commit.code
      then st'.out :: commits st' (buf.drop n) else commits st' (buf.drop n) := by
  obtain ⟨hpos, hle⟩ := recDecode_size_le hd
  have hlen : (buf.drop n).length = buf.length - n := List.length_drop
  cases hb : buf.length with
  | zero => omega
  | succ m =>
      rw [commits, hb]
      simp only [commitsLoop, hd, hs]
      rw [commitsLoop_fuel (by omega)]

theorem commits_of_error {st : ScanSt} {buf : Bytes} {e : RecStatus}
    (hd : recDecode buf = .error e) : commits st buf = [] := by
  rw [commits]
  cases buf.length <;> simp [commitsLoop, hd]

/-- A scan that stops at once accepts nothing. -/
theorem commits_of_stop {st : ScanSt} {buf : Bytes} (h : scan st buf = st) :
    commits st buf = [] := by
  cases hd : recDecode buf with
  | error e => exact commits_of_error hd
  | ok p =>
      cases hs : scanStep st p.1 p.2 with
      | none =>
          rw [commits]
          cases buf.length <;> simp [commitsLoop, hd, hs]
      | some st' =>
          have hpos := (recDecode_size_le (r := p.1) (n := p.2) hd).1
          have hoff := scanStep_off hs
          have hfar := (scan_off_le st' (buf.drop p.2)).1
          rw [scan_of_step hd hs] at h
          rw [h] at hfar
          omega

/-- Only a COMMIT changes `out`, and it writes down where it ends. -/
theorem scanStep_out {st st' : ScanSt} {r : Rec} {n : ℕ} (h : scanStep st r n = some st') :
    (r.hdr.kind = RecKind.commit.code → st'.out.committedLen = st.off + n) ∧
    (r.hdr.kind ≠ RecKind.commit.code → st'.out = st.out) ∧
    st'.out.recordsLost = st.out.recordsLost := by
  rcases scanStep_cases h with ⟨hk, -, rfl⟩ | ⟨hk, -, -, rfl⟩ | ⟨-, hk, -, rfl⟩
  · refine ⟨fun hc => ?_, fun _ => rfl, rfl⟩
    rw [hk] at hc
    exact absurd hc (by decide)
  · exact ⟨fun _ => rfl, fun hc => absurd hk hc, rfl⟩
  · have hout := (scanPayload_frame st r).1
    exact ⟨fun hc => absurd hc hk, fun _ => hout, by rw [ScanSt.advance_out, hout]⟩

/-- What the scan returns is what the last COMMIT left. -/
theorem scan_out_eq_getLastD (st : ScanSt) (buf : Bytes) :
    (scan st buf).out = (commits st buf).getLastD st.out := by
  induction st, buf using scan_induction with
  | stop st buf h => rw [commits_of_stop h, h, List.getLastD_nil]
  | step st buf r n st' hd hs ih =>
      rw [scan_of_step hd hs, commits_of_step hd hs, ih]
      by_cases hk : r.hdr.kind = RecKind.commit.code
      · rw [if_pos hk, List.getLastD_cons]
      · rw [if_neg hk, (scanStep_out hs).2.1 hk]

theorem scan_recordsLost (st : ScanSt) (buf : Bytes) :
    (scan st buf).out.recordsLost = st.out.recordsLost := by
  induction st, buf using scan_induction with
  | stop st buf h => rw [h]
  | step st buf r n st' hd hs ih => rw [scan_of_step hd hs, ih, (scanStep_out hs).2.2]

/-! ## Cutting -/

theorem off_lt_of_mem_commits {st : ScanSt} {buf : Bytes} {c : WalScan} (h : c ∈ commits st buf) :
    st.off < c.committedLen := by
  induction st, buf using scan_induction with
  | stop st buf hstop =>
      rw [commits_of_stop hstop] at h
      exact absurd h (List.not_mem_nil)
  | step st buf r n st' hd hs ih =>
      have hpos := (recDecode_size_le hd).1
      have hoff := scanStep_off hs
      rw [commits_of_step hd hs] at h
      by_cases hk : r.hdr.kind = RecKind.commit.code
      · rw [if_pos hk, List.mem_cons] at h
        rcases h with rfl | hlater
        · rw [(scanStep_out hs).1 hk]
          omega
        · have hfar := ih hlater
          omega
      · rw [if_neg hk] at h
        have hfar := ih h
        omega

/-- A record in a prefix is the record of the whole. -/
theorem recDecode_of_take {buf : Bytes} {k : ℕ} {r : Rec} {n : ℕ}
    (h : recDecode (buf.take k) = .ok (r, n)) : recDecode buf = .ok (r, n) := by
  have hwhole := recDecode_append h (buf.drop k)
  rwa [List.take_append_drop] at hwhole

/-- A record that ends inside a prefix is there to be read. -/
theorem recDecode_take {buf : Bytes} {k : ℕ} {r : Rec} {n : ℕ}
    (h : recDecode buf = .ok (r, n)) (hk : n ≤ k) : recDecode (buf.take k) = .ok (r, n) := by
  obtain ⟨hr, hmagic, rfl, hpre⟩ := (recDecode_eq_ok_iff buf r n).mp h
  refine (recDecode_eq_ok_iff _ r _).mpr ⟨hr, hmagic, rfl, ?_⟩
  have hle := hpre.length_le
  rw [Rec.length_image] at hle
  refine List.prefix_of_prefix_length_le hpre (List.take_prefix _ _) ?_
  rw [Rec.length_image, List.length_take]
  omega

/-- The COMMITs accepted in a prefix are those of the whole that end in it. -/
theorem commits_take (st : ScanSt) (buf : Bytes) (k : ℕ) :
    commits st (buf.take k) =
      (commits st buf).filter (fun c => c.committedLen ≤ st.off + k) := by
  induction st, buf using scan_induction generalizing k with
  | stop st buf hstop =>
      rw [commits_of_stop hstop, List.filter_nil]
      cases hd : recDecode (buf.take k) with
      | error e => exact commits_of_error hd
      | ok p =>
          cases hs : scanStep st p.1 p.2 with
          | none => exact commits_of_stop (scan_of_break hd hs)
          | some st' =>
              -- what stops the whole stops its prefix
              have hpos := (recDecode_size_le (r := p.1) (n := p.2) hd).1
              have hoff := scanStep_off hs
              have hfar := (scan_off_le st' (buf.drop p.2)).1
              rw [scan_of_step (recDecode_of_take hd) hs] at hstop
              rw [hstop] at hfar
              omega
  | step st buf r n st' hd hs ih =>
      have hoff := scanStep_off hs
      by_cases hn : n ≤ k
      · have hdrop : (buf.take k).drop n = (buf.drop n).take (k - n) := List.drop_take
        have hend : st'.off + (k - n) = st.off + k := by omega
        rw [commits_of_step (recDecode_take hd hn) hs, commits_of_step hd hs, hdrop, ih, hend]
        by_cases hk : r.hdr.kind = RecKind.commit.code
        · have hin : st'.out.committedLen ≤ st.off + k := by
            rw [(scanStep_out hs).1 hk]
            omega
          rw [if_pos hk, if_pos hk, List.filter_cons_of_pos (by simpa using hin)]
        · rw [if_neg hk, if_neg hk]
      · -- the cut falls into this record, and every COMMIT lies behind it
        have hcut : commits st (buf.take k) = [] := by
          cases hd' : recDecode (buf.take k) with
          | error e => exact commits_of_error hd'
          | ok p =>
              have hle := (recDecode_size_le (r := p.1) (n := p.2) hd').2
              have hsame := recDecode_of_take (r := p.1) (n := p.2) hd'
              rw [hd, Except.ok.injEq, Prod.mk.injEq] at hsame
              rw [List.length_take] at hle
              omega
        rw [hcut, eq_comm, List.filter_eq_nil_iff]
        intro c hc
        rw [commits_of_step hd hs] at hc
        have hfar : st.off + n ≤ c.committedLen := by
          by_cases hk : r.hdr.kind = RecKind.commit.code
          · rw [if_pos hk, List.mem_cons] at hc
            rcases hc with rfl | hlater
            · rw [(scanStep_out hs).1 hk]
            · have h := off_lt_of_mem_commits hlater
              omega
          · rw [if_neg hk] at hc
            have h := off_lt_of_mem_commits hc
            omega
        simp only [decide_eq_true_eq]
        omega

theorem walScan_committed (x : Bytes) : (walScan x).committed = (scan {} x).out := by
  obtain ⟨n, h⟩ := walScan_eq_out x
  have hlost : (scan {} x).out.recordsLost = 0 := scan_recordsLost {} x
  rw [h]
  generalize (scan {} x).out = out at hlost ⊢
  cases out
  simp only at hlost
  subst hlost
  rfl

/-- `wal_scan` of a cut reports what the scan of the whole held after the last
COMMIT that ends at or before the cut. So what it keeps lies before the cut,
grows with the cut, and is found again by a second scan. -/
theorem walScan_take (buf : Bytes) (cut : ℕ) :
    (walScan (buf.take cut)).committed =
      ((commits {} buf).filter fun c => c.committedLen ≤ cut).getLastD {} ∧
    (walScan (buf.take cut)).committedLen ≤ cut ∧
    (∀ cut' ≤ cut, (walScan (buf.take cut')).committedLen ≤ (walScan (buf.take cut)).committedLen) ∧
    walScan (buf.take (walScan (buf.take cut)).committedLen) =
      (walScan (buf.take cut)).committed := by
  have hle : (walScan (buf.take cut)).committedLen ≤ cut :=
    (committedLen_le _).trans (List.length_take_le _ _)
  refine ⟨?_, hle, ?_, ?_⟩
  · rw [walScan_committed, scan_out_eq_getLastD, commits_take]
    simp
  · intro cut' hcut
    -- what the shorter cut keeps is kept by the longer one
    obtain ⟨g, hg⟩ : buf.take cut' <+: buf.take cut := List.take_prefix_take_left hcut
    have hkept : walKept (buf.take cut') <+: walKept (buf.take cut) := by
      have hsplit : buf.take cut =
          walKept (buf.take cut') ++
            ((buf.take cut').drop (walScan (buf.take cut')).committedLen ++ g) := by
        rw [← hg, walKept, ← List.append_assoc, List.take_append_drop]
      rw [hsplit]
      exact (clean_kept _).1.prefix_kept _
    have hlen := hkept.length_le
    unfold walKept at hlen
    rwa [List.length_take_of_le (committedLen_le _), List.length_take_of_le (committedLen_le _)] at hlen
  · have hkept : buf.take (walScan (buf.take cut)).committedLen = walKept (buf.take cut) := by
      rw [walKept, List.take_take, Nat.min_eq_left hle]
    obtain ⟨hclean, hout⟩ := clean_kept (buf.take cut)
    rw [hkept, walScan_of_clean hclean, hout, walScan_committed]

/-- The COMMIT of transaction 7, for the instance below. -/
def commitSeven : Rec where
  hdr := { magic := 0, kind := 3, bodyLen := 16, seq := 6, monoNs := 1, wallNs := 2, src := 3,
           flags := 0, reserved := 9, bootId := 1 }
  body := [7, 0, 0, 0, 0, 0, 0, 0, 1, 0, 0, 0, 0, 0, 0, 0]
  body_len_eq := rfl

/-- A batch of 112 bytes counts from its last byte on. -/
theorem walScan_take_batch :
    (walScan ((beginSeven.frame ++ commitSeven.frame).take 111)).committedLen ≤
      (walScan ((beginSeven.frame ++ commitSeven.frame).take 112)).committedLen ∧
    (walScan ((beginSeven.frame ++ commitSeven.frame).take 112)).committedLen = 112 := by
  refine ⟨?_, by decide +kernel⟩
  exact (walScan_take (beginSeven.frame ++ commitSeven.frame) 112).2.2.1 111 (by decide)

end Carwatch.Store
