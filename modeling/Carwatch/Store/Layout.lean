import Carwatch.Store.Session

/-!
# Carwatch.Store.Layout — what the log directory means

The abstract log: segments of whole batches, numbered without a gap, with at
most one torn batch behind the last of them. A `Layout` carries this as
fields, so a directory that has a layout is in order:

* `Layout.push`, `Layout.tear`, `Layout.cut`, `Layout.roll` — the only ways the
  log changes;
* `Layout.dir` — the directory a layout stands for, with one equation for each
  of the four;
* `newestSegment_dir` — `newest_segment` picks the last segment, as long as
  seqs do not wrap.
-/

namespace Carwatch.Store

open Carwatch.Lib

/-! ## Segments of batches -/

/-- The records of batches in a row. -/
def recsOf (bs : List Batch) : List Rec := bs.flatMap Batch.recs

@[simp] theorem recsOf_nil : recsOf [] = [] := rfl

@[simp] theorem recsOf_append (bs bs' : List Batch) : recsOf (bs ++ bs') = recsOf bs ++ recsOf bs' := by
  simp [recsOf]

@[simp] theorem recsOf_singleton (b : Batch) : recsOf [b] = b.recs := by
  simp [recsOf]

theorem recsOf_wf (bs : List Batch) : ∀ r ∈ recsOf bs, r.Wf := by
  intro r hr
  obtain ⟨b, -, hr⟩ := List.mem_flatMap.mp hr
  exact b.recs_wf r hr

/-- The bytes of batches in a row. -/
def bytesOf (bs : List Batch) : Bytes := images (recsOf bs)

@[simp] theorem bytesOf_nil : bytesOf [] = [] := rfl

@[simp] theorem bytesOf_append_singleton (bs : List Batch) (b : Batch) :
    bytesOf (bs ++ [b]) = bytesOf bs ++ b.bytes := by
  simp [bytesOf, Batch.bytes]

/-- The scan behind batches in a row. -/
def scannedAll (bs : List Batch) (st : ScanSt) : ScanSt := bs.foldl (fun st b => b.scanned st) st

/-- Batches in a row are clean, and the scan takes them one by one. -/
theorem clean_bytesOf (bs : List Batch) :
    Clean (bytesOf bs) ∧ scan {} (bytesOf bs) = scannedAll bs {} := by
  induction bs using List.reverseRec with
  | nil => exact ⟨clean_nil, rfl⟩
  | append_singleton bs b ih =>
      obtain ⟨hclean, hscan⟩ := ih.1.append_batch b
      rw [bytesOf_append_singleton]
      refine ⟨hclean, ?_⟩
      rw [hscan, ih.2]
      simp [scannedAll]

theorem walKept_bytesOf (bs : List Batch) {p : Bytes} (hp : Torn p) :
    walKept (bytesOf bs ++ p) = bytesOf bs :=
  ((clean_bytesOf bs).1.torn hp).2

/-- A segment of the abstract log: its name and the batches in it. -/
structure SegLog where
  first : UInt64
  batches : List Batch

namespace SegLog

/-- The records of a segment. -/
def recs (s : SegLog) : List Rec := recsOf s.batches

/-- The bytes of a segment. -/
def bytes (s : SegLog) : Bytes := bytesOf s.batches

/-- The file of a segment that ends with a COMMIT. -/
def segment (s : SegLog) : Segment := ⟨s.first, s.bytes⟩

/-- The segment with one more batch. -/
def push (s : SegLog) (b : Batch) : SegLog := ⟨s.first, s.batches ++ [b]⟩

end SegLog

/-- All records of segments in a row. -/
def allRecs (segs : List SegLog) : List Rec := segs.flatMap SegLog.recs

@[simp] theorem allRecs_nil : allRecs [] = [] := rfl

@[simp] theorem allRecs_append (a b : List SegLog) : allRecs (a ++ b) = allRecs a ++ allRecs b := by
  simp [allRecs]

@[simp] theorem allRecs_cons (s : SegLog) (segs : List SegLog) :
    allRecs (s :: segs) = s.recs ++ allRecs segs := by
  simp [allRecs]

/-- Each segment is named by the number of records before it, from `n` on. -/
def Named : ℕ → List SegLog → Prop
  | _, [] => True
  | n, s :: rest => s.first = UInt64.ofNat n ∧ Named (n + s.recs.length) rest

theorem named_append {n : ℕ} {a b : List SegLog} :
    Named n (a ++ b) ↔ Named n a ∧ Named (n + (allRecs a).length) b := by
  induction a generalizing n with
  | nil => simp [Named]
  | cons s a ih =>
      simp [Named, ih, and_assoc, Nat.add_assoc]

theorem recs_length_pos {s : SegLog} (h : s.batches ≠ []) : 0 < s.recs.length := by
  cases hs : s.batches with
  | nil => exact absurd hs h
  | cons b bs => simp [SegLog.recs, hs, recsOf, Batch.recs]

/-- A segment that is followed by others has a smaller name. -/
theorem named_lt {n : ℕ} {segs : List SegLog} (hnamed : Named n segs)
    (hfilled : ∀ s ∈ segs, s.batches ≠ []) (hfit : n + (allRecs segs).length < 2 ^ 64) :
    ∀ s ∈ segs, s.first.toNat < n + (allRecs segs).length := by
  induction segs generalizing n with
  | nil => simp
  | cons s segs ih =>
      have hpos := recs_length_pos (hfilled s List.mem_cons_self)
      intro t ht
      rw [allRecs_cons, List.length_append] at hfit ⊢
      rcases List.mem_cons.mp ht with rfl | ht
      · rw [hnamed.1, UInt64.toNat_ofNat', Nat.mod_eq_of_lt (by omega)]
        omega
      · have h := ih hnamed.2 (fun s hs => hfilled s (List.mem_cons_of_mem _ hs)) (by omega) t ht
        omega

/-! ## Directories -/

/-- The bytes in a directory. -/
def Dir.size (d : Dir) : ℕ := (d.map fun s => s.data.length).sum

/-- No disk holds as much as `off_t` can count. -/
abbrev diskBytes : ℕ := 2 ^ 63

/-- The records recovery would keep, segment by segment. -/
def keptRecords (d : Dir) : List Rec := d.flatMap fun s => records (walKept s.data)

theorem Dir.modify_last {a : Dir} {f : UInt64} (h : ∀ s ∈ a, s.first ≠ f) (x : Bytes)
    (g : Bytes → Bytes) : Dir.modify (a ++ [⟨f, x⟩]) f g = a ++ [⟨f, g x⟩] := by
  have ha : Dir.modify a f g = a := Dir.modify_id a f fun s hs heq => absurd heq (h s hs)
  unfold Dir.modify at ha ⊢
  rw [List.map_append, ha]
  simp

theorem Dir.read_last {a : Dir} {f : UInt64} (h : ∀ s ∈ a, s.first ≠ f) (x : Bytes) :
    Dir.read (a ++ [⟨f, x⟩]) f = x := by
  have ha : a.find? (fun s => decide (s.first = f)) = none := by
    rw [List.find?_eq_none]
    intro s hs
    simpa using h s hs
  simp [Dir.read, List.find?_append, ha]

theorem newestSegment_append (a : Dir) (s : Segment) :
    newestSegment (a ++ [s]) = match newestSegment a with
      | none => some s.first
      | some m => if m < s.first then some s.first else some m := by
  unfold newestSegment
  rw [List.foldl_append]
  rfl

theorem newestSegment_mem {d : Dir} {m : UInt64} (h : newestSegment d = some m) :
    ∃ s ∈ d, s.first = m := by
  induction d using List.reverseRec generalizing m with
  | nil => simp [newestSegment] at h
  | append_singleton d s ih =>
      rw [newestSegment_append] at h
      split at h
      · exact ⟨s, by simp, Option.some.inj h⟩
      · rename_i m' hm'
        split_ifs at h
        · exact ⟨s, by simp, Option.some.inj h⟩
        · obtain ⟨t, ht, htm⟩ := ih hm'
          exact ⟨t, List.mem_append_left _ ht, htm.trans (Option.some.inj h)⟩

theorem newestSegment_last {a : Dir} {s : Segment} (h : ∀ t ∈ a, t.first < s.first) :
    newestSegment (a ++ [s]) = some s.first := by
  rw [newestSegment_append]
  split
  · rfl
  · rename_i m hm
    obtain ⟨t, ht, rfl⟩ := newestSegment_mem hm
    rw [if_pos (h t ht)]

/-! ## Layouts -/

/-- A log in order: every segment but the last holds a batch, the last may be
empty and may end in a torn batch. -/
structure Layout where
  older : List SegLog
  last : SegLog
  torn : Bytes
  torn_ok : Torn torn
  filled : ∀ s ∈ older, s.batches ≠ []
  numbered : Numbered 0 (allRecs (older ++ [last]))
  named : Named 0 (older ++ [last])

namespace Layout

/-- The records of a layout, in order. -/
def recs (l : Layout) : List Rec := allRecs (l.older ++ [l.last])

/-- How many records a layout holds, which is the seq of the next one. -/
def count (l : Layout) : ℕ := l.recs.length

/-- The directory a layout stands for. -/
def dir (l : Layout) : Dir :=
  l.older.map SegLog.segment ++ [⟨l.last.first, l.last.bytes ++ l.torn⟩]

theorem recs_eq (l : Layout) : l.recs = allRecs l.older ++ l.last.recs := by
  simp [recs]

/-- One segment, just made. -/
def fresh : Layout where
  older := []
  last := ⟨0, []⟩
  torn := []
  torn_ok := Or.inl rfl
  filled := by simp
  numbered := rfl
  named := ⟨rfl, trivial⟩

/-- A whole batch behind the last one. -/
def push (l : Layout) (b : Batch) (hnum : Numbered l.count b.recs) : Layout where
  older := l.older
  last := l.last.push b
  torn := []
  torn_ok := Or.inl rfl
  filled := l.filled
  numbered := by
    have h : allRecs (l.older ++ [l.last.push b]) = l.recs ++ b.recs := by
      simp [recs, SegLog.recs, SegLog.push]
    rw [h]
    exact numbered_append l.numbered (by rwa [Nat.zero_add])
  named := by
    obtain ⟨ha, hb⟩ := named_append.mp l.named
    exact named_append.mpr ⟨ha, hb.1, trivial⟩

/-- Part of a batch behind the last one. -/
def tear (l : Layout) (p : Bytes) (hp : Torn p) : Layout :=
  { l with torn := p, torn_ok := hp }

/-- The layout without its torn batch. -/
def cut (l : Layout) : Layout := l.tear [] (Or.inl rfl)

/-- A new segment behind the last one. -/
def roll (l : Layout) (hne : l.last.batches ≠ []) : Layout where
  older := l.older ++ [l.last]
  last := ⟨UInt64.ofNat l.count, []⟩
  torn := []
  torn_ok := Or.inl rfl
  filled := by
    intro s hs
    rcases List.mem_append.mp hs with hs | hs
    · exact l.filled s hs
    · rwa [List.mem_singleton.mp hs]
  numbered := by
    have h : allRecs (l.older ++ [l.last] ++ [⟨UInt64.ofNat l.count, []⟩]) =
        allRecs (l.older ++ [l.last]) := by
      simp [SegLog.recs]
    rw [h]
    exact l.numbered
  named := by
    refine named_append.mpr ⟨l.named, ?_, trivial⟩
    rw [Nat.zero_add]
    rfl

@[simp] theorem recs_push (l : Layout) (b : Batch) (hnum : Numbered l.count b.recs) :
    (l.push b hnum).recs = l.recs ++ b.recs := by
  simp [recs, push, SegLog.recs, SegLog.push]

@[simp] theorem recs_tear (l : Layout) (p : Bytes) (hp : Torn p) : (l.tear p hp).recs = l.recs := rfl

@[simp] theorem recs_roll (l : Layout) (hne : l.last.batches ≠ []) : (l.roll hne).recs = l.recs := by
  simp [recs, roll, SegLog.recs]

@[simp] theorem count_roll (l : Layout) (hne : l.last.batches ≠ []) : (l.roll hne).count = l.count := by
  simp [count]

theorem push_batches (l : Layout) (b : Batch) (hnum : Numbered l.count b.recs) :
    (l.push b hnum).last.batches ≠ [] := by
  simp [push, SegLog.push]

/-! ### The directory of a layout -/

theorem bytes_length_ge (s : SegLog) : 44 * s.recs.length ≤ s.bytes.length :=
  length_images_ge s.recs

theorem count_le_size (l : Layout) : 44 * l.count ≤ l.dir.size := by
  have holder : ∀ segs : List SegLog,
      44 * (allRecs segs).length ≤ (segs.map fun s => s.bytes.length).sum := by
    intro segs
    induction segs with
    | nil => simp
    | cons s segs ih =>
        have h := bytes_length_ge s
        rw [allRecs_cons, List.length_append, List.map_cons, List.sum_cons]
        omega
  have h₁ := holder l.older
  have h₂ := bytes_length_ge l.last
  have hsize : l.dir.size =
      (l.older.map fun s => s.bytes.length).sum + (l.last.bytes.length + l.torn.length) := by
    simp [dir, Dir.size, Function.comp_def, SegLog.segment]
  rw [count, recs_eq, List.length_append, hsize]
  omega

/-- On a disk, seqs stay far from wrapping. -/
theorem count_lt {l : Layout} (hfit : l.dir.size < diskBytes) : l.count < 2 ^ 60 := by
  have h := l.count_le_size
  simp only [diskBytes] at hfit
  omega

theorem count_lt' {l : Layout} (hfit : l.dir.size < diskBytes) : l.count < 2 ^ 64 :=
  lt_trans (count_lt hfit) (by norm_num)

theorem last_first (l : Layout) : l.last.first = UInt64.ofNat (allRecs l.older).length := by
  have h := (named_append.mp l.named).2.1
  rwa [Nat.zero_add] at h

/-- The segments before the last have smaller names. -/
theorem older_lt {l : Layout} (hfit : l.count < 2 ^ 64) :
    ∀ s ∈ l.older, s.first < l.last.first := by
  have hcount := hfit
  rw [count, recs_eq, List.length_append] at hcount
  intro s hs
  have h := named_lt (named_append.mp l.named).1 l.filled (by omega) s hs
  rw [UInt64.lt_iff_toNat_lt, last_first, UInt64.toNat_ofNat', Nat.mod_eq_of_lt (by omega)]
  omega

/-- The seq of the next record names no segment yet, once the last one holds
a batch. -/
theorem name_free {l : Layout} (hfit : l.count < 2 ^ 64) (hne : l.last.batches ≠ []) :
    ∀ s ∈ l.dir, s.first ≠ UInt64.ofNat l.count := by
  have hpos := recs_length_pos hne
  have hcount := hfit
  rw [count, recs_eq, List.length_append] at hcount
  have hlast : l.last.first < UInt64.ofNat l.count := by
    rw [UInt64.lt_iff_toNat_lt, last_first, UInt64.toNat_ofNat', UInt64.toNat_ofNat',
      Nat.mod_eq_of_lt (by omega), Nat.mod_eq_of_lt hfit, count, recs_eq, List.length_append]
    omega
  intro s hs
  rcases List.mem_append.mp hs with hs | hs
  · obtain ⟨t, ht, rfl⟩ := List.mem_map.mp hs
    exact UInt64.ne_of_lt (UInt64.lt_trans (older_lt hfit t ht) hlast)
  · rw [List.mem_singleton.mp hs]
    exact UInt64.ne_of_lt hlast

theorem older_ne {l : Layout} (hfit : l.count < 2 ^ 64) :
    ∀ s ∈ l.older.map SegLog.segment, s.first ≠ l.last.first := by
  intro s hs
  obtain ⟨t, ht, rfl⟩ := List.mem_map.mp hs
  exact UInt64.ne_of_lt (older_lt hfit t ht)

theorem newestSegment_dir {l : Layout} (hfit : l.count < 2 ^ 64) :
    newestSegment l.dir = some l.last.first := by
  refine newestSegment_last fun t ht => ?_
  obtain ⟨s, hs, rfl⟩ := List.mem_map.mp ht
  exact older_lt hfit s hs

theorem read_dir {l : Layout} (hfit : l.count < 2 ^ 64) :
    l.dir.read l.last.first = l.last.bytes ++ l.torn :=
  Dir.read_last (older_ne hfit) _

theorem modify_dir {l : Layout} (hfit : l.count < 2 ^ 64) (g : Bytes → Bytes) :
    l.dir.modify l.last.first g =
      l.older.map SegLog.segment ++ [⟨l.last.first, g (l.last.bytes ++ l.torn)⟩] :=
  Dir.modify_last (older_ne hfit) _ g

theorem dir_push {l : Layout} (hfit : l.count < 2 ^ 64) (htorn : l.torn = []) (b : Batch)
    (hnum : Numbered l.count b.recs) :
    l.dir.extend (some l.last.first) b.bytes = (l.push b hnum).dir := by
  rw [Dir.extend, modify_dir hfit, htorn]
  simp [dir, push, SegLog.bytes, SegLog.push]

theorem dir_tear {l : Layout} (hfit : l.count < 2 ^ 64) (htorn : l.torn = []) (p : Bytes)
    (hp : Torn p) : l.dir.extend (some l.last.first) p = (l.tear p hp).dir := by
  rw [Dir.extend, modify_dir hfit, htorn]
  simp [dir, tear]

theorem dir_roll {l : Layout} (htorn : l.torn = []) (hne : l.last.batches ≠ []) :
    l.dir ++ [⟨UInt64.ofNat l.count, []⟩] = (l.roll hne).dir := by
  simp [dir, roll, htorn, SegLog.segment, SegLog.bytes]

theorem cut_of_torn_nil {l : Layout} (htorn : l.torn = []) : l.cut = l := by
  cases l
  simp only at htorn
  subst htorn
  rfl

/-- A layout is what `walScan` makes of the last segment. -/
theorem scan_last (l : Layout) :
    (scan {} (l.last.bytes ++ l.torn)).out = (scannedAll l.last.batches {}).out := by
  rw [SegLog.bytes, ((clean_bytesOf l.last.batches).1.torn l.torn_ok).1, (clean_bytesOf _).2]

theorem committedLen_last (l : Layout) :
    (walScan (l.last.bytes ++ l.torn)).committedLen = l.last.bytes.length := by
  have hclean := (clean_bytesOf l.last.batches).1
  rw [SegLog.bytes, walScan_committedLen, (hclean.torn l.torn_ok).1, ← walScan_committedLen,
    hclean.committedLen]

/-- Cutting the last segment back to its last COMMIT takes the torn batch off. -/
theorem dir_cut {l : Layout} (hfit : l.count < 2 ^ 64) :
    l.dir.modify l.last.first (truncateTo l.last.bytes.length) = l.cut.dir := by
  rw [modify_dir hfit]
  simp [dir, cut, tear, truncateTo]

theorem keptRecords_dir (l : Layout) : keptRecords l.dir = l.recs := by
  have hseg : ∀ s : SegLog, records (walKept s.bytes) = s.recs := by
    intro s
    have hkept : walKept s.bytes = s.bytes := (clean_bytesOf s.batches).1.kept
    have h := records_images (recsOf_wf s.batches) []
    rw [List.append_nil, records_nil, List.append_nil] at h
    rw [hkept]
    exact h
  have hlast : records (walKept (l.last.bytes ++ l.torn)) = l.last.recs := by
    have h := walKept_bytesOf l.last.batches l.torn_ok
    have hb : walKept (l.last.bytes ++ l.torn) = l.last.bytes := h
    have hkept : walKept l.last.bytes = l.last.bytes := (clean_bytesOf l.last.batches).1.kept
    rw [hb, ← hkept, hseg]
  rw [recs_eq, keptRecords, dir, List.flatMap_append]
  simp only [List.flatMap_cons, List.flatMap_nil, List.append_nil, hlast]
  congr 1
  rw [List.flatMap_map, allRecs]
  apply List.flatMap_congr
  intro s _
  exact hseg s

end Layout

end Carwatch.Store
