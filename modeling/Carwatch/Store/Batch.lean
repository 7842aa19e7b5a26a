import Mathlib.Data.List.Induction
import Carwatch.Store.Scan

/-!
# Carwatch.Store.Batch — batches as the scan sees them

A batch on disk is a BEGIN, records that are neither BEGIN nor COMMIT, and a
COMMIT of the same transaction; `Batch` carries these facts as fields.

* `scan_batch` — a scan with no batch open goes through a whole batch, and
  `Batch.scanned` is the state behind it;
* `scan_torn` — a batch cut short anywhere changes nothing that is committed;
* `Clean.append_batch`, `records_images`, `walKept_torn` — the same for whole
  segments.
-/

namespace Carwatch.Store

open Carwatch.Lib

/-! ## Records in a row -/

/-- A record the decoder accepts when it meets its image. -/
def Rec.Wf (r : Rec) : Prop := r.Acceptable ∧ r.hdr.magic = recMagic

theorem Rec.Wf.decode {r : Rec} (h : r.Wf) (t : Bytes) :
    recDecode (r.image ++ t) = .ok (r, r.size) :=
  (recDecode_eq_ok_iff _ r r.size).mpr ⟨h.1, h.2, rfl, List.prefix_append _ _⟩

/-- The images of records, one after the other. -/
def images (rs : List Rec) : Bytes := (rs.map Rec.image).flatten

@[simp] theorem images_nil : images [] = [] := rfl

@[simp] theorem images_cons (r : Rec) (rs : List Rec) : images (r :: rs) = r.image ++ images rs :=
  rfl

@[simp] theorem images_append (rs rs' : List Rec) : images (rs ++ rs') = images rs ++ images rs' := by
  simp [images]

/-- Each record takes 44 bytes or more. -/
theorem length_images_ge (rs : List Rec) : 44 * rs.length ≤ (images rs).length := by
  induction rs with
  | nil => simp
  | cons r rs ih =>
      rw [images_cons, List.length_append, Rec.length_image, r.size_eq, List.length_cons]
      omega

theorem records_images {rs : List Rec} (h : ∀ r ∈ rs, r.Wf) (t : Bytes) :
    records (images rs ++ t) = rs ++ records t := by
  induction rs with
  | nil => rfl
  | cons r rs ih =>
      have hdec := (h r List.mem_cons_self).decode (images rs ++ t)
      rw [images_cons, List.append_assoc, records_of_decode hdec, ← Rec.length_image,
        List.drop_left, ih fun r' hr' => h r' (List.mem_cons_of_mem r hr'), List.cons_append]

/-- A record that belongs inside a batch. -/
def Rec.Inside (r : Rec) : Prop :=
  r.hdr.kind ≠ RecKind.begin.code ∧ r.hdr.kind ≠ RecKind.commit.code

instance (r : Rec) : Decidable r.Inside := inferInstanceAs (Decidable (_ ∧ _))

/-! ## Batches -/

/-- A batch as it lies in a segment. -/
structure Batch where
  beg : Rec
  payload : List Rec
  com : Rec
  beg_wf : beg.Wf
  payload_wf : ∀ r ∈ payload, r.Wf
  com_wf : com.Wf
  beg_kind : beg.hdr.kind = RecKind.begin.code
  payload_inside : ∀ r ∈ payload, r.Inside
  com_kind : com.hdr.kind = RecKind.commit.code
  txn_eq : txnOf com.body = txnOf beg.body

namespace Batch

/-- The records of a batch, in order. -/
def recs (b : Batch) : List Rec := b.beg :: (b.payload ++ [b.com])

/-- The bytes of a batch. -/
def bytes (b : Batch) : Bytes := images b.recs

theorem recs_wf (b : Batch) : ∀ r ∈ b.recs, r.Wf := by
  intro r hr
  simp only [recs, List.mem_cons, List.mem_append, List.not_mem_nil, or_false] at hr
  rcases hr with rfl | hr | rfl
  · exact b.beg_wf
  · exact b.payload_wf r hr
  · exact b.com_wf

@[simp] theorem records_bytes (b : Batch) (t : Bytes) : records (b.bytes ++ t) = b.recs ++ records t :=
  records_images b.recs_wf t

/-- The scan behind the records of an open batch. -/
def within (st : ScanSt) (beg : Rec) (payload : List Rec) : ScanSt :=
  payload.foldl (fun st r => (scanPayload st r).advance r r.size)
    ((scanBegin st beg).advance beg beg.size)

/-- The scan behind a whole batch. -/
def scanned (b : Batch) (st : ScanSt) : ScanSt :=
  (scanCommit (within st b.beg b.payload) b.com b.com.size).advance b.com b.com.size

end Batch

/-- What the records of an open batch leave alone, and how far they reach. -/
theorem within_frame (st : ScanSt) (beg : Rec) (payload : List Rec) :
    (Batch.within st beg payload).out = st.out ∧
    (Batch.within st beg payload).inBatch = true ∧
    (Batch.within st beg payload).txn = txnOf beg.body ∧
    (Batch.within st beg payload).off = st.off + (images (beg :: payload)).length := by
  induction payload using List.reverseRec with
  | nil => exact ⟨rfl, rfl, rfl, by simp [Batch.within, scanBegin]⟩
  | append_singleton payload r ih =>
      obtain ⟨hout, hin, htxn, hoff⟩ := ih
      have hlast : Batch.within st beg (payload ++ [r]) =
          (scanPayload (Batch.within st beg payload) r).advance r r.size := by
        simp [Batch.within]
      obtain ⟨fout, fin, ftxn, foff⟩ := scanPayload_frame (Batch.within st beg payload) r
      rw [hlast]
      refine ⟨fout.trans hout, fin.trans hin, ftxn.trans htxn, ?_⟩
      rw [ScanSt.advance_off, foff, hoff, ← List.cons_append, images_append, List.length_append]
      simp [Nat.add_assoc]

/-- A scan with no batch open takes in the records of a batch. -/
theorem scan_within {st : ScanSt} (hidle : st.inBatch = false) {beg : Rec} {payload : List Rec}
    (hbeg : beg.Wf) (hkind : beg.hdr.kind = RecKind.begin.code)
    (hwf : ∀ r ∈ payload, r.Wf) (hinside : ∀ r ∈ payload, r.Inside) (t : Bytes) :
    scan st (images (beg :: payload) ++ t) = scan (Batch.within st beg payload) t := by
  induction payload using List.reverseRec generalizing t with
  | nil =>
      have hstep : scanStep st beg beg.size = some ((scanBegin st beg).advance beg beg.size) := by
        simp [scanStep, hkind, hidle]
      rw [images_cons, images_nil, List.append_nil, scan_of_step (hbeg.decode t) hstep,
        ← Rec.length_image, List.drop_left]
      simp [Batch.within]
  | append_singleton payload r ih =>
      have hmem : r ∈ payload ++ [r] := by simp
      have hlast : Batch.within st beg (payload ++ [r]) =
          (scanPayload (Batch.within st beg payload) r).advance r r.size := by
        simp [Batch.within]
      have hstep : scanStep (Batch.within st beg payload) r r.size =
          some (Batch.within st beg (payload ++ [r])) := by
        have hin := (within_frame st beg payload).2.1
        rw [hlast]
        simp [scanStep, (hinside r hmem).1, (hinside r hmem).2, hin]
      have hrest := ih (fun r' hr' => hwf r' (List.mem_append_left _ hr'))
        (fun r' hr' => hinside r' (List.mem_append_left _ hr')) (r.image ++ t)
      have himage : images (beg :: (payload ++ [r])) ++ t =
          images (beg :: payload) ++ (r.image ++ t) := by
        rw [← List.cons_append, images_append]
        simp
      rw [himage, hrest, scan_of_step ((hwf r hmem).decode t) hstep, ← Rec.length_image,
        List.drop_left]

/-- A scan with no batch open goes through a whole batch. -/
theorem scan_batch {st : ScanSt} (hidle : st.inBatch = false) (b : Batch) (t : Bytes) :
    scan st (b.bytes ++ t) = scan (b.scanned st) t := by
  have himage : b.bytes ++ t = images (b.beg :: b.payload) ++ (b.com.image ++ t) := by
    rw [Batch.bytes, Batch.recs, ← List.cons_append, images_append]
    simp
  obtain ⟨-, hin, htxn, -⟩ := within_frame st b.beg b.payload
  have hnot : b.com.hdr.kind ≠ RecKind.begin.code := by
    rw [b.com_kind]
    decide
  have hstep : scanStep (Batch.within st b.beg b.payload) b.com b.com.size =
      some (b.scanned st) := by
    rw [scanStep, if_neg hnot, hin, htxn, b.txn_eq]
    simp [Batch.scanned, b.com_kind]
  rw [himage, scan_within hidle b.beg_wf b.beg_kind b.payload_wf b.payload_inside,
    scan_of_step (b.com_wf.decode t) hstep, ← Rec.length_image, List.drop_left]

@[simp] theorem Batch.scanned_inBatch (b : Batch) (st : ScanSt) : (b.scanned st).inBatch = false :=
  rfl

theorem Batch.scanned_off (b : Batch) (st : ScanSt) :
    (b.scanned st).off = st.off + b.bytes.length := by
  have hoff := (within_frame st b.beg b.payload).2.2.2
  have hbytes : b.bytes = images (b.beg :: b.payload) ++ b.com.image := by
    rw [Batch.bytes, Batch.recs, ← List.cons_append, images_append]
    simp
  rw [Batch.scanned, ScanSt.advance_off, hbytes, List.length_append, Rec.length_image]
  change (Batch.within st b.beg b.payload).off + b.com.size = _
  rw [hoff, Nat.add_assoc]

@[simp] theorem Batch.scanned_lastSeq (b : Batch) (st : ScanSt) :
    (b.scanned st).out.lastSeq = b.com.hdr.seq := rfl

@[simp] theorem Batch.scanned_lastBootId (b : Batch) (st : ScanSt) :
    (b.scanned st).out.lastBootId = b.com.hdr.bootId := rfl

@[simp] theorem Batch.scanned_anyCommitted (b : Batch) (st : ScanSt) :
    (b.scanned st).out.anyCommitted = true := rfl

/-! ## Torn batches -/

/-- What a crash can leave of a batch that was not all written; nothing, if
none was being written. -/
def Torn (p : Bytes) : Prop :=
  p = [] ∨ ∃ b : Batch, p <+: b.bytes ∧ p.length < b.bytes.length

/-- Half a batch changes nothing that is committed. -/
theorem scan_torn {st : ScanSt} (hidle : st.inBatch = false) {p : Bytes} (hp : Torn p) :
    (scan st p).out = st.out := by
  rcases hp with rfl | ⟨b, hpre, hlt⟩
  · rw [scan_nil]
  obtain ⟨before, part, after, q, hparts, rfl, hq, hqlt⟩ := cut_flatten hpre hlt
  -- the parts before the cut are images of records, and the cut record is one of the batch
  obtain ⟨rs, rest, hsplit, hrs, hrest⟩ := List.map_eq_append_iff.mp hparts
  obtain ⟨r, rs', rfl, rfl, -⟩ := List.map_eq_cons_iff.mp hrest
  have hr : r.Wf := b.recs_wf r (by rw [hsplit]; simp)
  rw [Rec.length_image] at hqlt
  have hcut : recDecode q = .error .short := recDecode_cut hr.1 hr.2 hq hqlt
  have himages : before.flatten = images rs := by rw [← hrs]; rfl
  rw [himages]
  cases rs with
  | nil => rw [images_nil, List.nil_append, scan_of_error hcut]
  | cons r₀ payload =>
      -- the cut record is not part of `payload`, so `payload` is inside the batch
      have hbeg : b.beg = r₀ := (List.cons.inj hsplit).1
      have hpay : b.payload ++ [b.com] = payload ++ r :: rs' := (List.cons.inj hsplit).2
      have hsub : ∀ x ∈ payload, x ∈ b.payload := by
        have hle : payload.length ≤ b.payload.length := by
          have hlen := congrArg List.length hpay
          simp only [List.length_append, List.length_cons, List.length_nil] at hlen
          omega
        have hpre' : payload <+: b.payload :=
          List.prefix_of_prefix_length_le (List.prefix_append payload (r :: rs'))
            (hpay ▸ List.prefix_append b.payload [b.com]) hle
        exact fun x hx => hpre'.subset hx
      rw [scan_within hidle (hbeg ▸ b.beg_wf) (hbeg ▸ b.beg_kind)
        (fun x hx => b.payload_wf x (hsub x hx)) (fun x hx => b.payload_inside x (hsub x hx)),
        scan_of_error hcut]
      exact (within_frame st r₀ payload).1

/-! ## Whole segments -/

theorem Clean.scan_append {x : Bytes} (h : Clean x) (y : Bytes) :
    scan {} (x ++ y) = scan (scan {} x) y :=
  Store.scan_append (by rw [h.2]; simp) y

theorem Clean.append_batch {x : Bytes} (h : Clean x) (b : Batch) :
    Clean (x ++ b.bytes) ∧ scan {} (x ++ b.bytes) = b.scanned (scan {} x) := by
  have hscan : scan {} (x ++ b.bytes) = b.scanned (scan {} x) := by
    have hb := scan_batch h.1 b []
    rw [List.append_nil, scan_nil] at hb
    rw [h.scan_append, hb]
  refine ⟨⟨?_, ?_⟩, hscan⟩
  · rw [hscan, Batch.scanned_inBatch]
  · rw [hscan, Batch.scanned_off, h.2, List.length_append]

/-- A torn batch behind clean bytes is cut off, and takes nothing with it. -/
theorem Clean.torn {x : Bytes} (h : Clean x) {p : Bytes} (hp : Torn p) :
    (scan {} (x ++ p)).out = (scan {} x).out ∧ walKept (x ++ p) = x := by
  have hout : (scan {} (x ++ p)).out = (scan {} x).out := by
    rw [h.scan_append, scan_torn h.1 hp]
  refine ⟨hout, ?_⟩
  rw [walKept, walScan_committedLen, hout, ← walScan_committedLen, h.committedLen, List.take_left]

end Carwatch.Store
