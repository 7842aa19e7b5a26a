import Carwatch.Store.History

/-!
# Carwatch.Store.Numbering — sequence numbers of the log

`next_seq` is advanced by every record, taken back by every dropped batch,
found again in the last COMMIT or the file name at `wal_open`, and used to
name segments. `seqs_gapless` is what comes of it: in every history the
committed records are numbered 0, 1, 2, ..., and file names follow suit.
-/

namespace Carwatch.Store

open Carwatch.Lib

/-! ## Numbered records -/

theorem numbered_toNat {rs : List Rec} (h : Numbered 0 rs) (hfit : rs.length ≤ 2 ^ 64) :
    rs.map (fun r => r.hdr.seq.toNat) = List.range rs.length := by
  have hmap : rs.map (fun r => r.hdr.seq.toNat) =
      (rs.map fun r => r.hdr.seq).map UInt64.toNat := by
    simp [Function.comp_def]
  rw [hmap, h, List.map_map, ← List.range_eq_range']
  refine (List.map_congr_left fun i hi => ?_).trans (List.map_id _)
  have hlt := List.mem_range.mp hi
  simp only [Function.comp, UInt64.toNat_ofNat', id]
  exact Nat.mod_eq_of_lt (by omega)

theorem numbered_bounds {n : ℕ} {rs : List Rec} (h : Numbered n rs)
    (hfit : n + rs.length ≤ 2 ^ 64) :
    ∀ r ∈ rs, n ≤ r.hdr.seq.toNat ∧ r.hdr.seq.toNat < n + rs.length := by
  intro r hr
  have hmem : r.hdr.seq ∈ (List.range' n rs.length).map UInt64.ofNat := by
    have h' : rs.map (fun r => r.hdr.seq) = (List.range' n rs.length).map UInt64.ofNat := h
    rw [← h']
    exact List.mem_map.mpr ⟨r, hr, rfl⟩
  obtain ⟨i, hi, hseq⟩ := List.mem_map.mp hmem
  have hrange := List.mem_range'_1.mp hi
  rw [← hseq, UInt64.toNat_ofNat', Nat.mod_eq_of_lt (by omega)]
  exact hrange

/-- The first record of a segment carries the segment's name. -/
theorem named_head {n : ℕ} {segs : List SegLog} (hnum : Numbered n (allRecs segs))
    (hnamed : Named n segs) :
    ∀ s ∈ segs, ∀ r, s.recs.head? = some r → r.hdr.seq = s.first := by
  induction segs generalizing n with
  | nil => simp
  | cons t segs ih =>
      rw [allRecs_cons, numbered_append_iff] at hnum
      intro s hs r hr
      rcases List.mem_cons.mp hs with rfl | hs
      · obtain ⟨rest, hrest⟩ := List.head?_eq_some_iff.mp hr
        have hfirst := hnum.1
        rw [hrest, Numbered, List.map_cons, List.length_cons, List.range'_succ,
          List.map_cons] at hfirst
        rw [hnamed.1]
        exact (List.cons.inj hfirst).1
      · exact ih hnum.2 hnamed.2 s hs r hr

theorem named_ge {n : ℕ} {segs : List SegLog} (hnamed : Named n segs)
    (hfit : n + (allRecs segs).length < 2 ^ 64) : ∀ s ∈ segs, n ≤ s.first.toNat := by
  induction segs generalizing n with
  | nil => simp
  | cons t segs ih =>
      rw [allRecs_cons, List.length_append] at hfit
      intro s hs
      rcases List.mem_cons.mp hs with rfl | hs
      · rw [hnamed.1, UInt64.toNat_ofNat', Nat.mod_eq_of_lt (by omega)]
      · have h := ih hnamed.2 (by omega) s hs
        omega

/-- Segments that hold something have increasing names. -/
theorem named_pairwise {n : ℕ} {segs : List SegLog} (hnamed : Named n segs)
    (hfilled : ∀ s ∈ segs, s.batches ≠ []) (hfit : n + (allRecs segs).length < 2 ^ 64) :
    segs.Pairwise fun s t => s.first < t.first := by
  induction segs generalizing n with
  | nil => exact List.Pairwise.nil
  | cons s segs ih =>
      have hpos := recs_length_pos (hfilled s List.mem_cons_self)
      rw [allRecs_cons, List.length_append] at hfit
      refine List.Pairwise.cons (fun t ht => ?_)
        (ih hnamed.2 (fun t ht => hfilled t (List.mem_cons_of_mem s ht)) (by omega))
      have hge := named_ge hnamed.2 (by omega) t ht
      rw [UInt64.lt_iff_toNat_lt, hnamed.1, UInt64.toNat_ofNat', Nat.mod_eq_of_lt (by omega)]
      omega

namespace Layout

theorem dir_pairwise {l : Layout} (hfit : l.count < 2 ^ 64) :
    l.dir.Pairwise fun s t => s.first < t.first := by
  have hcount := hfit
  rw [count, recs_eq, List.length_append] at hcount
  have holder := named_pairwise (named_append.mp l.named).1 l.filled (by omega)
  refine List.pairwise_append.mpr ⟨?_, List.pairwise_singleton _ _, ?_⟩
  · exact List.pairwise_map.mpr holder
  · intro s hs t ht
    obtain ⟨s', hs', rfl⟩ := List.mem_map.mp hs
    rw [List.mem_singleton.mp ht]
    exact older_lt hfit s' hs'

/-- Each file of the directory is a segment of the layout. -/
theorem records_mem_dir {l : Layout} {s : Segment} (hs : s ∈ l.dir) :
    (∃ t ∈ l.older, s.first = t.first ∧ records (walKept s.data) = t.recs) ∨
    (s.first = l.last.first ∧ records (walKept s.data) = l.last.recs) := by
  have hrec : ∀ (t : SegLog) {p : Bytes}, Torn p → records (walKept (t.bytes ++ p)) = t.recs := by
    intro t p hp
    have hkept : walKept (t.bytes ++ p) = t.bytes := walKept_bytesOf t.batches hp
    have h := records_images (recsOf_wf t.batches) []
    rw [List.append_nil, records_nil, List.append_nil] at h
    rw [hkept]
    exact h
  rcases List.mem_append.mp hs with hs | hs
  · obtain ⟨t, ht, rfl⟩ := List.mem_map.mp hs
    refine Or.inl ⟨t, ht, rfl, ?_⟩
    have h := hrec t (Or.inl rfl)
    rwa [List.append_nil] at h
  · rw [List.mem_singleton.mp hs]
    exact Or.inr ⟨rfl, hrec l.last l.torn_ok⟩

end Layout

/-! ## Every history -/

/-- **Gapless numbering.** In every history whose undo truncations succeed, the
committed records of all segments, read in the order of the file names, carry
the seqs 0, 1, 2, ...; the first record of a segment carries the seq in its
file name; and `newest_segment` picks the segment with the highest seqs. -/
theorem seqs_gapless (acts : List LogAct)
    (hacts : Meets Hist.step (fun h a => a.UndoOk h ∧ a.NoGarbage) {} acts) :
    (run Hist.step {} acts).dir.Pairwise (fun s t => s.first < t.first) ∧
    (keptRecords (run Hist.step {} acts).dir).map (fun r => r.hdr.seq.toNat) =
      List.range (keptRecords (run Hist.step {} acts).dir).length ∧
    (∀ s ∈ (run Hist.step {} acts).dir, ∀ r, (records (walKept s.data)).head? = some r →
      r.hdr.seq = s.first) ∧
    (∀ f, newestSegment (run Hist.step {} acts).dir = some f →
      ∀ s ∈ (run Hist.step {} acts).dir, s.first ≠ f → ∀ r ∈ records (walKept s.data),
        r.hdr.seq < f ∧ ∀ r' ∈ records (walKept ((run Hist.step {} acts).dir.read f)),
          r.hdr.seq < r'.hdr.seq) := by
  have hinv := Hist.inv_run hacts
  rcases hinv.laid with ⟨hnil, -⟩ | ⟨l, hdir, -⟩
  · rw [hnil]
    simp [keptRecords, newestSegment]
  have hcount : l.count < 2 ^ 64 := Layout.count_lt' (hdir ▸ hinv.fits)
  have hsum := hcount
  rw [Layout.count, Layout.recs_eq, List.length_append] at hsum
  have hnum : Numbered 0 (allRecs (l.older ++ [l.last])) := l.numbered
  rw [hdir]
  refine ⟨Layout.dir_pairwise hcount, ?_, ?_, ?_⟩
  · rw [Layout.keptRecords_dir]
    exact numbered_toNat l.numbered (le_of_lt hcount)
  · intro s hs r hr
    have hhead := named_head hnum l.named
    rcases Layout.records_mem_dir hs with ⟨t, ht, hfirst, hrecs⟩ | ⟨hfirst, hrecs⟩
    · rw [hrecs] at hr
      rw [hfirst]
      exact hhead t (List.mem_append_left _ ht) r hr
    · rw [hrecs] at hr
      rw [hfirst]
      exact hhead l.last (by simp) r hr
  · intro f hf s hs hne r hr
    rw [Layout.newestSegment_dir hcount] at hf
    obtain rfl := Option.some.inj hf
    rw [allRecs_append, numbered_append_iff, allRecs_cons, allRecs_nil, List.append_nil,
      Nat.zero_add] at hnum
    -- a record of an older segment has a seq below the number of records there
    have hlt : r.hdr.seq.toNat < (allRecs l.older).length := by
      rcases Layout.records_mem_dir hs with ⟨t, ht, -, hrecs⟩ | ⟨hfirst, -⟩
      · rw [hrecs] at hr
        have hmem : r ∈ allRecs l.older := List.mem_flatMap.mpr ⟨t, ht, hr⟩
        have hb := (numbered_bounds hnum.1 (by omega) r hmem).2
        omega
      · exact absurd hfirst hne
    refine ⟨?_, fun r' hr' => ?_⟩
    · rw [UInt64.lt_iff_toNat_lt, Layout.last_first, UInt64.toNat_ofNat',
        Nat.mod_eq_of_lt (by omega)]
      exact hlt
    · rw [Layout.read_dir hcount] at hr'
      have hlast : records (walKept (l.last.bytes ++ l.torn)) = l.last.recs := by
        have hmem : (⟨l.last.first, l.last.bytes ++ l.torn⟩ : Segment) ∈ l.dir :=
          List.mem_append_right _ (List.mem_singleton.mpr rfl)
        rcases Layout.records_mem_dir hmem with ⟨t, ht, hfirst, -⟩ | ⟨-, hrecs⟩
        · exact absurd hfirst.symm (UInt64.ne_of_lt (Layout.older_lt hcount t ht))
        · exact hrecs
      rw [hlast] at hr'
      have hb := (numbered_bounds hnum.2 (by omega) r' hr').1
      rw [UInt64.lt_iff_toNat_lt]
      omega

/-- A batch, one whose write fails and is undone, and a restart. -/
theorem seqs_gapless_undone :
    (keptRecords (run Hist.step {} [.openLog 1 0 {}, .add emptyEvent {}, .commit {} {},
      .add emptyEvent {}, .commit {} { writes := [.wrote 10, .fail] }, .kill,
      .openLog 1 0 {}]).dir).map (fun r => r.hdr.seq.toNat) =
    List.range (keptRecords (run Hist.step {} [.openLog 1 0 {}, .add emptyEvent {}, .commit {} {},
      .add emptyEvent {}, .commit {} { writes := [.wrote 10, .fail] }, .kill,
      .openLog 1 0 {}]).dir).length :=
  (seqs_gapless [.openLog 1 0 {}, .add emptyEvent {}, .commit {} {}, .add emptyEvent {},
    .commit {} { writes := [.wrote 10, .fail] }, .kill, .openLog 1 0 {}]
    (by simp [LogAct.UndoOk, LogAct.NoGarbage, Wal.UndoFails])).2.1

end Carwatch.Store
