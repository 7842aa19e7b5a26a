import Carwatch.Store.Progress

/-!
# Carwatch.Store.Recovery — recovering from the newest segment alone

`wal_open` scans one segment, the newest, and takes `next_seq`, `boot_id` and
`prev_end` from it. Scanning the whole log would find the same as long as the
newest segment holds a COMMIT. Between a rollover and the next commit it holds
none, and then the session that opens the log starts over with boot id 1.

* `derive` — what `wal_open` makes of one segment;
* `RecoveryAgrees` — the newest segment alone tells what the whole log tells,
  and the new boot id is larger than all committed ones;
* `recoveryAgrees_iff` — exactly when;
* `newest_agrees` — for every history, with the last `wal_close`;
* `newest_disagrees` — a history in which it does not.
-/

namespace Carwatch.Store

open Carwatch.Lib

/-! ## What a segment tells -/

/-- What `wal_open` takes over from a segment. -/
structure Derived where
  nextSeq : UInt64
  bootId : UInt32
  prevEnd : PrevEnd
deriving DecidableEq, Repr

/-- The same from `data`, read as a segment named `first`. -/
def derive (first : UInt64) (data : Bytes) : Derived where
  nextSeq := if (walScan data).anyCommitted then (walScan data).lastSeq + 1 else first
  bootId := (walScan data).lastBootId + 1
  prevEnd := prevEndOf (walScan data) data.length

/-- `derive` is what the session of `wal_open` starts with. -/
theorem recoveredWal_derive (src flags : UInt8) (first : UInt64) (data : Bytes) :
    derive first data = ⟨(recoveredWal src flags first data).nextSeq,
      (recoveredWal src flags first data).bootId,
      (recoveredWal src flags first data).prevEnd⟩ := rfl

/-- All segments, one after the other. -/
def wholeLog (d : Dir) : Bytes := d.flatMap Segment.data

/-- The name of the first segment. -/
def oldestSegment (d : Dir) : UInt64 := (d.head?.map Segment.first).getD 0

/-- Scanning the newest segment alone tells what scanning the whole log tells,
and the boot id it gives is larger than every committed one. -/
def RecoveryAgrees (d : Dir) : Prop :=
  ∀ f, newestSegment d = some f →
    derive f (d.read f) = derive (oldestSegment d) (wholeLog d) ∧
    ∀ r ∈ keptRecords d, r.hdr.bootId < (derive f (d.read f)).bootId

/-- The newest segment holds a COMMIT if any segment does. -/
def NewestHolds (d : Dir) : Prop :=
  ∀ f, newestSegment d = some f → (∃ s ∈ d, (walScan s.data).anyCommitted = true) →
    (walScan (d.read f)).anyCommitted = true

/-- In addition, its last boot id is not the last a `uint32_t` holds. -/
def NewestTells (d : Dir) : Prop :=
  NewestHolds d ∧ ∀ f, newestSegment d = some f → (walScan (d.read f)).lastBootId ≠ 0xFFFFFFFF

/-! ## Scans of batches -/

theorem scannedAll_concat (bs : List Batch) (b : Batch) (st : ScanSt) :
    scannedAll (bs ++ [b]) st = b.scanned (scannedAll bs st) := by
  simp [scannedAll]

/-- The kind of the last record before the COMMIT. -/
def Batch.lastKind (b : Batch) : UInt16 := ((b.beg :: b.payload).getLast (by simp)).hdr.kind

theorem within_lastKind (st : ScanSt) (beg : Rec) (payload : List Rec) :
    (Batch.within st beg payload).lastKind =
      ((beg :: payload).getLast (by simp)).hdr.kind := by
  induction payload using List.reverseRec with
  | nil => rfl
  | append_singleton payload r ih =>
      have hlast : Batch.within st beg (payload ++ [r]) =
          (scanPayload (Batch.within st beg payload) r).advance r r.size := by
        simp [Batch.within]
      rw [hlast]
      simp [ScanSt.advance]

theorem Batch.scanned_endedClean (b : Batch) (st : ScanSt) :
    (b.scanned st).out.endedClean = (b.lastKind == RecKind.shutdown.code) := by
  rw [Batch.lastKind, ← within_lastKind st]
  rfl

theorem walScan_batches (bs : List Batch) {p : Bytes} (hp : Torn p) :
    ∃ n, walScan (bytesOf bs ++ p) = { (scannedAll bs {}).out with recordsLost := n } := by
  obtain ⟨hclean, hscan⟩ := clean_bytesOf bs
  obtain ⟨n, h⟩ := walScan_eq_out (bytesOf bs ++ p)
  rw [(hclean.torn hp).1, hscan] at h
  exact ⟨n, h⟩

theorem anyCommitted_batches (bs : List Batch) {p : Bytes} (hp : Torn p) :
    (walScan (bytesOf bs ++ p)).anyCommitted = true ↔ bs ≠ [] := by
  obtain ⟨n, h⟩ := walScan_batches bs hp
  rw [h]
  rcases List.eq_nil_or_concat bs with rfl | ⟨bs', b, rfl⟩
  · simp [scannedAll]
  · rw [List.concat_eq_append, scannedAll_concat]
    simp

/-- Batches in a row tell only what the last of them tells. -/
theorem derive_batches (bs : List Batch) (b : Batch) {p : Bytes} (hp : Torn p) (first : UInt64) :
    derive first (bytesOf (bs ++ [b]) ++ p) =
      ⟨b.com.hdr.seq + 1, b.com.hdr.bootId + 1,
        if b.lastKind = RecKind.shutdown.code ∧ p = [] then .clean else .recovered⟩ := by
  obtain ⟨n, h⟩ := walScan_batches (bs ++ [b]) hp
  have hlen : (walScan (bytesOf (bs ++ [b]) ++ p)).committedLen =
      (bytesOf (bs ++ [b])).length := by
    have hclean := (clean_bytesOf (bs ++ [b])).1
    rw [walScan_committedLen, (hclean.torn hp).1, ← walScan_committedLen, hclean.committedLen]
  have hend : prevEndOf (walScan (bytesOf (bs ++ [b]) ++ p)) (bytesOf (bs ++ [b]) ++ p).length =
      if b.lastKind = RecKind.shutdown.code ∧ p = [] then .clean else .recovered := by
    have hclean : (walScan (bytesOf (bs ++ [b]) ++ p)).endedClean =
        (b.lastKind == RecKind.shutdown.code) := by
      rw [h, scannedAll_concat]
      exact b.scanned_endedClean _
    rw [prevEndOf, hclean, hlen, List.length_append]
    have hnil : ((bytesOf (bs ++ [b])).length == (bytesOf (bs ++ [b])).length + p.length) = true ↔
        p = [] := by
      rw [beq_iff_eq, ← List.length_eq_zero_iff]
      omega
    by_cases hp' : p = [] <;> by_cases hk : b.lastKind = RecKind.shutdown.code <;>
      simp [hp', hk]
  rw [derive, hend, h, scannedAll_concat]
  rfl

namespace Layout

/-- All batches of a layout, in order. -/
def batches (l : Layout) : List Batch := l.older.flatMap SegLog.batches ++ l.last.batches

theorem recs_eq_batches (l : Layout) : l.recs = recsOf l.batches := by
  have holder : ∀ segs : List SegLog, allRecs segs = recsOf (segs.flatMap SegLog.batches) := by
    intro segs
    induction segs with
    | nil => rfl
    | cons s segs ih => rw [allRecs_cons, ih, List.flatMap_cons, recsOf_append]; rfl
  rw [recs_eq, holder, batches, recsOf_append]
  rfl

theorem wholeLog_dir (l : Layout) : wholeLog l.dir = bytesOf l.batches ++ l.torn := by
  have holder : ∀ segs : List SegLog, (segs.map SegLog.segment).flatMap Segment.data =
      bytesOf (segs.flatMap SegLog.batches) := by
    intro segs
    induction segs with
    | nil => rfl
    | cons s segs ih =>
        rw [List.map_cons, List.flatMap_cons, ih, List.flatMap_cons, bytesOf, bytesOf,
          recsOf_append, images_append]
        rfl
  rw [wholeLog, dir, List.flatMap_append, holder, batches, bytesOf, bytesOf, recsOf_append,
    images_append]
  simp [SegLog.bytes, bytesOf]

/-- Some segment of a layout holds a COMMIT exactly when the layout has a batch. -/
theorem exists_committed_iff (l : Layout) :
    (∃ s ∈ l.dir, (walScan s.data).anyCommitted = true) ↔ l.batches ≠ [] := by
  constructor
  · rintro ⟨s, hs, hany⟩ hnil
    obtain ⟨holder, hlast⟩ := List.append_eq_nil_iff.mp hnil
    rcases List.mem_append.mp hs with hs | hs
    · obtain ⟨t, ht, rfl⟩ := List.mem_map.mp hs
      exact l.filled t ht (List.flatMap_eq_nil_iff.mp holder t ht)
    · rw [List.mem_singleton.mp hs] at hany
      exact (anyCommitted_batches l.last.batches l.torn_ok).mp hany hlast
  · intro hne
    by_cases hlast : l.last.batches = []
    · rw [batches, hlast, List.append_nil] at hne
      obtain ⟨b, hb⟩ := List.exists_mem_of_ne_nil _ hne
      obtain ⟨t, ht, -⟩ := List.mem_flatMap.mp hb
      refine ⟨t.segment, List.mem_append_left _ (List.mem_map.mpr ⟨t, ht, rfl⟩), ?_⟩
      have h := (anyCommitted_batches t.batches (Or.inl rfl)).mpr (l.filled t ht)
      rwa [List.append_nil] at h
    · exact ⟨_, List.mem_append_right _ (List.mem_singleton.mpr rfl),
        (anyCommitted_batches l.last.batches l.torn_ok).mpr hlast⟩

end Layout

/-! ## Boot ids -/

/-- Boot ids start at 1 and never fall, up to the running session's. -/
structure Hist.Boots (h : Hist) : Prop where
  sorted : (keptRecords h.dir).Pairwise fun r r' => r.hdr.bootId ≤ r'.hdr.bootId
  pos : ∀ r ∈ keptRecords h.dir, 0 < r.hdr.bootId
  session : ∀ w, h.wal = some w → 0 < w.bootId ∧ ∀ r ∈ keptRecords h.dir, r.hdr.bootId ≤ w.bootId

theorem lt_add_one_of_ne {x : UInt32} (h : x ≠ 0xFFFFFFFF) : x < x + 1 := by
  have hne : x.toNat ≠ 0xFFFFFFFF := fun heq => h (UInt32.toNat_inj.mp heq)
  have hlt : x.toNat < 2 ^ 32 := x.toNat_lt
  rw [UInt32.lt_iff_toNat_lt, UInt32.toNat_add, UInt32.toNat_one]
  omega

/-- Sorted boot ids are at most the last one. -/
theorem le_last_of_sorted {rs : List Rec} {com : Rec}
    (h : (rs ++ [com]).Pairwise fun r r' => r.hdr.bootId ≤ r'.hdr.bootId) :
    ∀ r ∈ rs ++ [com], r.hdr.bootId ≤ com.hdr.bootId := by
  intro r hr
  rcases List.mem_append.mp hr with hr | hr
  · exact (List.pairwise_append.mp h).2.2 r hr com (List.mem_singleton.mpr rfl)
  · rw [List.mem_singleton.mp hr]
    exact UInt32.le_refl _

theorem recsOf_concat (bs : List Batch) (b : Batch) :
    recsOf (bs ++ [b]) = (recsOf bs ++ b.beg :: b.payload) ++ [b.com] := by
  simp [Batch.recs]

/-- The boot id the newest segment gives, when it tells enough. -/
theorem Layout.bootId_of_tells {l : Layout} (hcount : l.count < 2 ^ 64)
    (hsorted : l.recs.Pairwise fun r r' => r.hdr.bootId ≤ r'.hdr.bootId)
    (htells : NewestTells l.dir) :
    0 < (walScan (l.last.bytes ++ l.torn)).lastBootId + 1 ∧
    ∀ r ∈ l.recs, r.hdr.bootId < (walScan (l.last.bytes ++ l.torn)).lastBootId + 1 := by
  have hnewest := newestSegment_dir hcount
  have hread := read_dir hcount
  have hne := htells.2 _ hnewest
  have hholds := htells.1 _ hnewest
  rw [hread] at hne hholds
  have hlt := lt_add_one_of_ne hne
  refine ⟨UInt32.lt_of_le_of_lt (UInt32.le_iff_toNat_le.mpr (Nat.zero_le _)) hlt, ?_⟩
  rcases List.eq_nil_or_concat l.batches with hnil | ⟨bs, b, hbs⟩
  · intro r hr
    rw [l.recs_eq_batches, hnil] at hr
    simp at hr
  · -- the newest segment ends with the last batch of the log
    have hany := hholds (l.exists_committed_iff.mpr (by rw [hbs]; simp))
    have hlast := (anyCommitted_batches l.last.batches l.torn_ok).mp hany
    rcases List.eq_nil_or_concat l.last.batches with hnil | ⟨bs', b', hbs'⟩
    · exact absurd hnil hlast
    · rw [List.concat_eq_append] at hbs'
      have hrecs : l.recs = recsOf ((l.older.flatMap SegLog.batches ++ bs') ++ [b']) := by
        rw [l.recs_eq_batches, batches, hbs', List.append_assoc]
      have hboot : (walScan (l.last.bytes ++ l.torn)).lastBootId = b'.com.hdr.bootId := by
        obtain ⟨n, h⟩ := walScan_batches l.last.batches l.torn_ok
        rw [SegLog.bytes, h, hbs', scannedAll_concat]
        rfl
      intro r hr
      rw [hrecs, recsOf_concat] at hr hsorted
      rw [hboot] at hlt ⊢
      exact UInt32.lt_of_le_of_lt (le_last_of_sorted hsorted r hr) hlt

/-- An `openLog` on a directory whose newest segment tells enough. -/
def LogAct.OpenOk (h : Hist) : LogAct → Prop
  | .openLog _ _ _ => h.wal = none → NewestTells h.dir
  | _ => True

namespace Hist

theorem boots_init : ({} : Hist).Boots :=
  ⟨List.Pairwise.nil, by simp [keptRecords], by simp⟩

theorem boots_openLog {h : Hist} (hinv : h.Inv) (hboots : h.Boots) {src flags : UInt8}
    {io : OpenAns} (hok : (LogAct.openLog src flags io).OpenOk h) :
    (h.apply (.openLog src flags io)).Boots := by
  have hkept := keptRecords_openLog hinv src flags io
  refine ⟨by rw [hkept]; exact hboots.sorted, by rw [hkept]; exact hboots.pos, ?_⟩
  rw [hkept]
  intro w hw
  cases hwal : h.wal with
  | some w' =>
      simp only [apply, hwal] at hw
      exact hboots.session w (hwal.trans hw)
  | none =>
      have htells := hok hwal
      cases hrun : walOpenLog src flags io h.dir with
      | mk r d =>
          have hr : r = some (true, w) := by
            simp only [apply, hwal, hrun] at hw
            split at hw
            · rename_i w' d' heq
              rw [(Prod.mk.inj heq).1, Option.some.inj hw]
            · simp at hw
          -- the first session of all, or one after the newest that was found
          rcases hinv.laid with ⟨hnil, -⟩ | ⟨l, hl, -⟩
          · rw [hnil] at hrun ⊢
            rw [((openLog_empty hrun).2 w hr).2.2]
            exact ⟨show (0 : UInt32) < 1 by decide, by simp [keptRecords]⟩
          · have hcount := Layout.count_lt' (hl ▸ hinv.fits)
            have hsorted := hboots.sorted
            rw [hl] at hrun htells ⊢
            rw [hl, Layout.keptRecords_dir] at hsorted
            rw [((Layout.openLog hcount hrun).2 w hr).2.2, Layout.keptRecords_dir]
            obtain ⟨hpos, hlt⟩ := Layout.bootId_of_tells hcount hsorted htells
            exact ⟨hpos, fun r hr => UInt32.le_of_lt (hlt r hr)⟩

theorem boots_commit {h : Hist} (hinv : h.Inv) (hboots : h.Boots) {now : Now} {io : CommitAns}
    (hundo : (LogAct.commit now io).UndoOk h) : (h.apply (.commit now io)).Boots := by
  cases hwal : h.wal with
  | none =>
      simp only [apply, hwal]
      exact hboots
  | some w =>
      obtain ⟨l, rs, hdir, hon, -⟩ := hinv.laid.session hwal
      have hcount : l.count < 2 ^ 61 := lt_trans (Layout.count_lt (hdir ▸ hinv.fits)) (by norm_num)
      obtain ⟨hpos, hle⟩ := hboots.session w hwal
      have hsorted := hboots.sorted
      have hall := hboots.pos
      simp only [apply, hwal]
      by_cases hopen : w.openBatch = true
      · cases hrun : walCommit w now io h.dir with
        | mk r d =>
            rw [hdir] at hrun
            rw [hdir, Layout.keptRecords_dir] at hsorted hall hle
            cases hon.commit hcount hopen hrun with
            | undone w' hsame hon' hfd =>
                have hkept := Layout.keptRecords_dir l
                refine ⟨?_, ?_, fun w'' hw'' => ?_⟩
                · change (keptRecords l.dir).Pairwise _
                  rwa [hkept]
                · change ∀ r ∈ keptRecords l.dir, _
                  rwa [hkept]
                · obtain rfl := Option.some.inj hw''
                  change _ ∧ ∀ r ∈ keptRecords l.dir, _
                  rw [hkept, hsame.boot]
                  exact ⟨hpos, hle⟩
            | stuck b hb w' hon' hfail => exact absurd hfail (hundo w hwal)
            | torn p hp =>
                have hkept : keptRecords (l.tear p hp).dir = l.recs := Layout.keptRecords_dir _
                refine ⟨?_, ?_, fun w'' hw'' => by simp [committed] at hw''⟩
                · change (keptRecords (l.tear p hp).dir).Pairwise _
                  rwa [hkept]
                · change ∀ r ∈ keptRecords (l.tear p hp).dir, _
                  rwa [hkept]
            | written b hb l' hl' r hr hfd =>
                -- the new records all carry the session's boot id
                have hkept : keptRecords l'.dir = l.recs ++ b.recs := by
                  rw [Layout.keptRecords_dir, hl'.recs]
                have hbound : ∀ r ∈ l.recs ++ b.recs, r.hdr.bootId ≤ w.bootId := by
                  intro r hr
                  rcases List.mem_append.mp hr with hr | hr
                  · exact hle r hr
                  · rw [hb.boot r hr]
                    exact UInt32.le_refl _
                have hsorted' : (l.recs ++ b.recs).Pairwise
                    fun r r' => r.hdr.bootId ≤ r'.hdr.bootId := by
                  refine List.pairwise_append.mpr ⟨hsorted, ?_, ?_⟩
                  · refine List.pairwise_of_forall_mem_list fun r hr r' hr' => ?_
                    rw [hb.boot r hr, hb.boot r' hr']
                    exact UInt32.le_refl _
                  · intro r hr r' hr'
                    rw [hb.boot r' hr']
                    exact hle r hr
                have hpos' : ∀ r ∈ l.recs ++ b.recs, 0 < r.hdr.bootId := by
                  intro r hr
                  rcases List.mem_append.mp hr with hr | hr
                  · exact hall r hr
                  · rw [hb.boot r hr]
                    exact hpos
                have hdir' : (h.committed w (r, l'.dir)).dir = l'.dir := committed_dir _ _ _
                refine ⟨?_, ?_, fun w'' hw'' => ?_⟩
                · rw [hdir', hkept]
                  exact hsorted'
                · rw [hdir', hkept]
                  exact hpos'
                · rw [hdir', hkept]
                  rcases hr with rfl | ⟨ok, w', rfl, hsame, -, -⟩
                  · simp [committed] at hw''
                  · have hw' : w'' = w' := by
                      cases ok <;> exact (Option.some.inj hw'').symm
                    rw [hw', hsame.boot]
                    exact ⟨hpos, hbound⟩
      · have hrun : walCommit w now io h.dir = (some (true, w), h.dir) := by
          simp [walCommit, hopen]
        rw [hrun]
        refine ⟨hsorted, hall, fun w'' hw'' => ?_⟩
        obtain rfl := Option.some.inj hw''
        exact ⟨hpos, hle⟩

theorem boots_step {h : Hist} {a : LogAct} (hinv : h.Inv) (hboots : h.Boots) (hok : a.OpenOk h)
    (hundo : a.UndoOk h) (hgarb : a.NoGarbage) : (h.step a).Boots := by
  unfold step
  split_ifs
  · cases a with
    | openLog src flags io => exact boots_openLog hinv hboots hok
    | add q clk =>
        cases hwal : h.wal with
        | none =>
            simp only [apply, hwal]
            exact hboots
        | some w =>
            obtain ⟨l, rs, hdir, hon, -⟩ := hinv.laid.session hwal
            obtain ⟨-, -, hsame, -⟩ :=
              walAdd_holds hon.holds (Prod.mk.eta.symm : q.run w clk = _)
            simp only [apply, hwal]
            refine ⟨hboots.sorted, hboots.pos, fun w' hw' => ?_⟩
            obtain rfl := Option.some.inj hw'
            rw [hsame.boot]
            exact hboots.session w hwal
    | commit now io => exact boots_commit hinv hboots hundo
    | kill => exact ⟨hboots.sorted, hboots.pos, by simp [apply]⟩
    | crash left => exact hgarb.elim
  · exact hboots

end Hist

/-! ## When the newest segment is enough -/

/-- With boot ids in order, the newest segment is enough exactly when it holds
a COMMIT, if any segment does, and its boot id can be counted up. -/
theorem recoveryAgrees_iff {h : Hist} (hinv : h.Inv) (hboots : h.Boots) :
    RecoveryAgrees h.dir ↔ NewestTells h.dir := by
  rcases hinv.laid with ⟨hnil, -⟩ | ⟨l, hl, -⟩
  · rw [hnil]
    simp [RecoveryAgrees, NewestTells, NewestHolds, newestSegment]
  have hcount := Layout.count_lt' (hl ▸ hinv.fits)
  have hsorted := hboots.sorted
  have hpos := hboots.pos
  rw [hl, Layout.keptRecords_dir] at hsorted hpos
  rw [hl]
  have hnewest := Layout.newestSegment_dir hcount
  have hread := Layout.read_dir hcount
  constructor
  · intro hagree
    obtain ⟨-, hboot⟩ := hagree _ hnewest
    rw [hread, Layout.keptRecords_dir] at hboot
    refine ⟨fun f hf hex => ?_, fun f hf => ?_⟩
    · -- an empty newest segment would give boot id 1, which is taken
      obtain rfl := Option.some.inj (hnewest.symm.trans hf)
      rw [hread]
      refine (anyCommitted_batches l.last.batches l.torn_ok).mpr fun hempty => ?_
      rcases List.eq_nil_or_concat l.batches with hnil | ⟨bs, b, hbs⟩
      · exact l.exists_committed_iff.mp hex hnil
      · have hmem : b.com ∈ l.recs := by
          rw [l.recs_eq_batches, hbs, List.concat_eq_append, recsOf_concat]
          simp
        have hone : (derive l.last.first (l.last.bytes ++ l.torn)).bootId = 1 := by
          obtain ⟨n, hscan⟩ := walScan_batches l.last.batches l.torn_ok
          rw [derive, SegLog.bytes, hscan, hempty]
          rfl
        have hlt := hboot b.com hmem
        have hgt := hpos b.com hmem
        rw [hone, UInt32.lt_iff_toNat_lt] at hlt
        rw [UInt32.lt_iff_toNat_lt] at hgt
        simp only [UInt32.toNat_zero, UInt32.toNat_one] at hlt hgt
        omega
    · obtain rfl := Option.some.inj (hnewest.symm.trans hf)
      rw [hread]
      intro hmax
      rcases List.eq_nil_or_concat l.last.batches with hempty | ⟨bs, b, hbs⟩
      · obtain ⟨n, hscan⟩ := walScan_batches l.last.batches l.torn_ok
        rw [SegLog.bytes, hscan, hempty] at hmax
        exact absurd hmax (show (0 : UInt32) ≠ 0xFFFFFFFF by decide)
      · have hmem : b.com ∈ l.recs := by
          rw [l.recs_eq, SegLog.recs, hbs, List.concat_eq_append, recsOf_concat]
          simp
        have hzero : (derive l.last.first (l.last.bytes ++ l.torn)).bootId = 0 := by
          rw [derive, hmax]
          rfl
        have hlt := hboot b.com hmem
        rw [hzero, UInt32.lt_iff_toNat_lt] at hlt
        exact absurd hlt (Nat.not_lt_zero _)
  · intro htells f hf
    obtain rfl := Option.some.inj (hnewest.symm.trans hf)
    refine ⟨?_, ?_⟩
    · rw [hread, l.wholeLog_dir]
      rcases List.eq_nil_or_concat l.last.batches with hempty | ⟨bs, b, hbs⟩
      · -- nothing is committed at all: there is one segment
        have hnone : l.batches = [] := by
          by_contra hne
          have hany := htells.1 _ hnewest (l.exists_committed_iff.mpr hne)
          rw [hread] at hany
          exact (anyCommitted_batches l.last.batches l.torn_ok).mp hany hempty
        have holder : l.older = [] := by
          cases hold : l.older with
          | nil => rfl
          | cons s segs =>
              have hfilled := l.filled s (by rw [hold]; exact List.mem_cons_self)
              simp [Layout.batches, hold, hfilled] at hnone
        have hfirst : oldestSegment l.dir = l.last.first := by
          simp [oldestSegment, Layout.dir, holder]
        rw [hnone, hfirst, SegLog.bytes, hempty]
      · rw [SegLog.bytes, Layout.batches, hbs, List.concat_eq_append, ← List.append_assoc,
          derive_batches _ _ l.torn_ok, derive_batches _ _ l.torn_ok]
    · rw [hread, Layout.keptRecords_dir]
      exact (Layout.bootId_of_tells hcount hsorted htells).2

/-! ## Clean closes -/

theorem contents_of_inside {rs : List Rec} (h : ∀ r ∈ rs, r.Inside) :
    contents rs = rs.map Rec.content := by
  rw [contents, List.filter_eq_self.mpr]
  intro r hr
  simpa using h r hr

/-- A batch with a single record has the kind of that record as its last. -/
theorem Batch.lastKind_of_contents {b : Batch} {c : Content} (h : contents b.recs = [c]) :
    b.lastKind = c.kind := by
  have hrecs : contents b.recs = b.payload.map Rec.content := by
    have hbeg : contents [b.beg] = [] := contents_outside fun hin => hin.1 b.beg_kind
    have hcom : contents [b.com] = [] := contents_outside fun hin => hin.2 b.com_kind
    have hsplit : b.recs = [b.beg] ++ (b.payload ++ [b.com]) := rfl
    rw [hsplit, contents_append, contents_append, hbeg, hcom, List.nil_append, List.append_nil,
      contents_of_inside b.payload_inside]
  rw [hrecs, List.map_eq_singleton_iff] at h
  obtain ⟨r, hr, rfl⟩ := h
  simp [Batch.lastKind, hr, Rec.content]

/-- A session after `wal_commit` returned 0. -/
theorem Wal.On.commit_acked {w w' : Wal} {l : Layout} {rs : List Rec} (hon : w.On l rs)
    (hcount : l.count < 2 ^ 61) {now : Now} {io : CommitAns} {d' : Dir}
    (h : walCommit w now io l.dir = (some (true, w'), d')) :
    ∃ l', d' = l'.dir ∧ w'.On l' [] ∧ l'.count < l.count + 2 ^ 10 ∧
      (w.openBatch = true → ∃ b, b.Of w rs ∧ l.Grown b l') := by
  by_cases hopen : w.openBatch = true
  · generalize hr : some (true, w') = r at h
    cases hon.commit hcount hopen h with
    | undone w₁ hsame hon₁ hfd => simp at hr
    | stuck b hb w₁ hon₁ hfail => simp at hr
    | torn p hp => simp at hr
    | written b hb l' hl' r' hr' hfd =>
        rcases hr' with rfl | ⟨ok, w₁, rfl, -, hon₁, -⟩
        · simp at hr
        · obtain ⟨-, rfl⟩ := Prod.mk.inj (Option.some.inj hr)
          refine ⟨l', rfl, hon₁, ?_, fun _ => ⟨b, hb, hl'⟩⟩
          have hfew := hb.few
          rw [Layout.count, hl'.recs, List.length_append]
          change l.count + b.recs.length < _
          omega
  · have hrs : rs = [] := by
      cases rs with
      | nil => rfl
      | cons r rs => simp [hon.holds.isOpen] at hopen
    have hrun : walCommit w now io l.dir = (some (true, w), l.dir) := by simp [walCommit, hopen]
    rw [hrun] at h
    obtain ⟨hw, rfl⟩ := Prod.mk.inj h
    obtain ⟨-, rfl⟩ := Prod.mk.inj (Option.some.inj hw)
    exact ⟨l, rfl, hrs ▸ hon, by omega, fun h => absurd h hopen⟩

/-- A `wal_close` that returned 0 committed a batch that holds just a SHUTDOWN. -/
theorem walClose_acked {w : Wal} {reason : UInt8} {io : CloseAns} {d d' : Dir}
    (h : walClose w reason io d = (some true, d')) :
    ∃ w₁ d₁ w₂ w₃, walCommit w io.commitNow io.commit d = (some (true, w₁), d₁) ∧
      (Hist.shutReq w₁ reason io).run w₁ io.shutClock = (true, w₂) ∧
      walCommit w₂ io.shutCommitNow io.shutCommit d₁ = (some (true, w₃), d') := by
  have hrc : ∀ w, closeFd false w io ≠ some true := by
    intro w
    unfold closeFd
    cases w.fd with
    | none => simp
    | some f => cases io.close <;> simp
  unfold walClose at h
  split at h
  · simp at h
  · exact absurd (Prod.mk.inj h).1 (hrc _)
  · rename_i w₁ d₁ hfirst
    split at h
    · exact absurd (Prod.mk.inj h).1 (hrc _)
    · rename_i w₂ hadd
      split at h
      · simp at h
      · rename_i rc w₃ d₃ hsecond
        obtain ⟨hret, rfl⟩ := Prod.mk.inj h
        cases rc with
        | false => exact absurd hret (hrc _)
        | true => exact ⟨w₁, d₁, w₂, w₃, hfirst, hadd, hsecond⟩

/-- After a `wal_close` that returned 0, `prev_end` is CLEAN exactly when the
shutdown batch did not fill its segment. -/
theorem walClose_prevEnd {h : Hist} (hinv : h.Inv) {w : Wal} (hw : h.wal = some w)
    {reason : UInt8} {io : CloseAns} {d' : Dir}
    (hclose : walClose w reason io h.dir = (some true, d')) {f : UInt64}
    (hf : newestSegment d' = some f) :
    (derive f (d'.read f)).prevEnd = .clean ↔ NewestHolds d' := by
  obtain ⟨l, rs, hdir, hon, -⟩ := hinv.laid.session hw
  have hsmall := Layout.count_lt (hdir ▸ hinv.fits)
  obtain ⟨w₁, d₁, w₂, w₃, hfirst, hadd, hsecond⟩ := walClose_acked hclose
  rw [hdir] at hfirst
  obtain ⟨l₁, rfl, hon₁, hcount₁, -⟩ := hon.commit_acked (by omega) hfirst
  obtain ⟨new, hholds, hsame, hcont⟩ := walAdd_holds hon₁.holds hadd
  have hon₂ : w₂.On l₁ new := by
    refine ⟨hon₁.torn, hholds, ?_⟩
    rw [hsame.fd, hsame.segBytes]
    exact hon₁.file
  -- the shutdown record is in the batch, so the second commit is of something
  have hopen : w₂.openBatch = true := by
    rw [hholds.isOpen]
    cases new with
    | nil => simp at hcont
    | cons r new => rfl
  obtain ⟨l₂, rfl, hon₃, hcount₂, hbatch⟩ := hon₂.commit_acked (by omega) hsecond
  obtain ⟨b, hb, hgrown⟩ := hbatch hopen
  have hkind : b.lastKind = RecKind.shutdown.code :=
    Batch.lastKind_of_contents (hb.contents.trans hcont)
  have hnewest : newestSegment l₂.dir = some l₂.last.first :=
    Layout.newestSegment_dir (by omega)
  have hread : l₂.dir.read l₂.last.first = l₂.last.bytes ++ l₂.torn := Layout.read_dir (by omega)
  obtain rfl := Option.some.inj (hnewest.symm.trans hf)
  have hsome : ∃ s ∈ l₂.dir, (walScan s.data).anyCommitted = true := by
    refine l₂.exists_committed_iff.mpr fun hnil => ?_
    have hrecs := hgrown.recs
    rw [l₂.recs_eq_batches, hnil] at hrecs
    simp [Batch.recs] at hrecs
  have hholds' : NewestHolds l₂.dir ↔ l₂.last.batches ≠ [] := by
    rw [← anyCommitted_batches l₂.last.batches l₂.torn_ok]
    constructor
    · intro hn
      have h := hn _ hnewest hsome
      rwa [hread] at h
    · intro hany g hg _
      obtain rfl := Option.some.inj (hnewest.symm.trans hg)
      rw [hread]
      exact hany
  -- where that commit began a new segment, the record that says so is in the one
  -- before
  rw [hholds', hread, hon₃.torn, List.append_nil]
  obtain ⟨hnum, rfl | rfl⟩ := hgrown
  · have hlast : (l₁.push b hnum).last.bytes = bytesOf (l₁.last.batches ++ [b]) := rfl
    have hder := derive_batches l₁.last.batches b (Or.inl rfl : Torn []) l₁.last.first
    rw [List.append_nil] at hder
    rw [hlast]
    change (derive l₁.last.first _).prevEnd = _ ↔ _
    rw [hder]
    simp [hkind, Layout.push, SegLog.push]
  · simp only [Layout.roll, SegLog.bytes, bytesOf_nil, ne_eq, not_true_eq_false, iff_false]
    exact show PrevEnd.recovered ≠ .clean by decide

/-! ## Every history -/

theorem boots_run {acts : List LogAct}
    (hacts : Meets Hist.step (fun h a => a.OpenOk h ∧ a.UndoOk h ∧ a.NoGarbage) {} acts) :
    (run Hist.step {} acts).Inv ∧ (run Hist.step {} acts).Boots := by
  refine meets_invariant Hist.step _ (fun h => h.Inv ∧ h.Boots) ?_ {}
    ⟨Hist.inv_init, Hist.boots_init⟩ acts hacts
  rintro h a ⟨hinv, hboots⟩ ⟨hok, hundo, hgarb⟩
  exact ⟨Hist.inv_step hinv hundo hgarb, Hist.boots_step hinv hboots hok hundo hgarb⟩

/-- In every history whose undo truncations succeed and whose sessions start
from a newest segment that tells enough, recovering from the newest segment
alone agrees with recovering from the whole log exactly when it tells enough
again; and after a `wal_close` that returned 0 `prev_end` is CLEAN exactly when
the newest segment holds a COMMIT. -/
theorem newest_agrees (acts : List LogAct)
    (hacts : Meets Hist.step (fun h a => a.OpenOk h ∧ a.UndoOk h ∧ a.NoGarbage) {} acts) :
    (RecoveryAgrees (run Hist.step {} acts).dir ↔ NewestTells (run Hist.step {} acts).dir) ∧
    ∀ w, (run Hist.step {} acts).wal = some w → ∀ reason io d',
      walClose w reason io (run Hist.step {} acts).dir = (some true, d') →
      ∀ f, newestSegment d' = some f →
        ((derive f (d'.read f)).prevEnd = .clean ↔ NewestHolds d') := by
  obtain ⟨hinv, hboots⟩ := boots_run hacts
  refine ⟨recoveryAgrees_iff hinv hboots, ?_⟩
  intro w hw reason io d' hclose f hf
  exact walClose_prevEnd hinv hw hclose hf

/-- A session that writes one event and is killed. -/
theorem newest_agrees_killed :
    RecoveryAgrees (run Hist.step {} [.openLog 1 0 {}, .add emptyEvent {}, .commit {} {},
      .kill]).dir ↔
    NewestTells (run Hist.step {} [.openLog 1 0 {}, .add emptyEvent {}, .commit {} {}, .kill]).dir :=
  (newest_agrees [.openLog 1 0 {}, .add emptyEvent {}, .commit {} {}, .kill]
    (by simp [LogAct.OpenOk, LogAct.UndoOk, LogAct.NoGarbage, Wal.UndoFails, NewestTells,
          NewestHolds, newestSegment])).1

/-- A session can stop between a rollover and the next commit. The session
after it would start with boot id 1, as the one before it did. -/
theorem newest_disagrees :
    ¬ ∀ acts : List LogAct, Meets Hist.step (fun h a => a.UndoOk h ∧ a.NoGarbage) {} acts →
      RecoveryAgrees (run Hist.step {} acts).dir := by
  intro hall
  -- a first session, with one segment
  have hopen : Hist.step {} (.openLog 1 0 {}) =
      { dir := Layout.fresh.dir, wal := some { firstWal 1 0 with fd := some 0 } } := rfl
  have hfill : (Hist.step {} (.openLog 1 0 {})).Filling { firstWal 1 0 with fd := some 0 }
      Layout.fresh := by
    rw [hopen]
    refine ⟨rfl, rfl, ⟨rfl, ?_, ?_⟩, rfl, by simp, by decide, by decide⟩
    · exact ⟨rfl, rfl, by simp, trivial, numbered_nil _, rfl, fun hne => absurd rfl hne, by simp⟩
    · intro f hf
      exact ⟨(Option.some.inj hf).symm, rfl⟩
  -- it fills the segment
  obtain ⟨acts, hacts, l, w, hdir, -, -, -, hempty, holder⟩ := fill_segment hfill
  have hmeets : Meets Hist.step (fun h a => a.OpenOk h ∧ a.UndoOk h ∧ a.NoGarbage) {}
      (.openLog 1 0 {} :: acts) := by
    refine ⟨⟨?_, trivial, trivial⟩, meets_of_forall ?_ _⟩
    · intro _
      simp [NewestTells, NewestHolds, newestSegment]
    · intro a ha h
      rcases hacts a ha with rfl | rfl
      · exact ⟨trivial, trivial, trivial⟩
      · exact ⟨trivial, by simp [LogAct.UndoOk, Wal.UndoFails], trivial⟩
  obtain ⟨hinv, hboots⟩ := boots_run hmeets
  have hagree := hall _ (meets_imp hmeets fun _ _ hok => hok.2)
  -- but the new segment holds no COMMIT
  have hholds := ((recoveryAgrees_iff hinv hboots).mp hagree).1
  have hfits := hinv.fits
  rw [run_cons, hdir] at hholds hfits
  have hcount := Layout.count_lt' hfits
  have hsome : ∃ s ∈ l.dir, (walScan s.data).anyCommitted = true := by
    refine l.exists_committed_iff.mpr fun hnil => ?_
    obtain ⟨s, hs⟩ := List.exists_mem_of_ne_nil _ holder
    have hall' := List.flatMap_eq_nil_iff.mp (List.append_eq_nil_iff.mp hnil).1
    exact l.filled s hs (hall' s hs)
  have hany := hholds _ (Layout.newestSegment_dir hcount) hsome
  rw [Layout.read_dir hcount] at hany
  exact (anyCommitted_batches l.last.batches l.torn_ok).mp hany hempty

end Carwatch.Store
