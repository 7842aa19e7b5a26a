import Carwatch.Store.Record

/-!
# Carwatch.Store.Damage — records with damage

What `recDecode` makes of a record that was cut or had one byte overwritten.
The checksum alone does not settle it: a changed length moves where the
checksum is read.

* `image_set_ne_image` — with the length field intact the damaged bytes are
  no record's image, by the injectivity of the checksum in each byte;
* `bodyLen_of_set` — the length field itself cannot have changed: only an
  event may have another length, and its text length says which;
* `damaged_record_rejected` — both together.
-/

namespace Carwatch.Store

open Carwatch.Lib

/-! ## Fields around an overwritten byte -/

/-- A field that does not hold the overwritten byte reads as before. -/
theorem field_set {off w i : ℕ} (buf : Bytes) (b : UInt8) (h : i < off ∨ off + w ≤ i) :
    field off w (buf.set i b) = field off w buf := by
  unfold field
  rcases h with hbefore | hbehind
  · rw [List.drop_set_of_lt hbefore]
  · rw [List.drop_set, if_neg (by omega), List.take_set_of_le (by omega)]

/-- The fields of a record's body, read from the buffer it lies in. -/
theorem field_body (r : Rec) (t : Bytes) (off w : ℕ) (h : off + w ≤ r.hdr.bodyLen.toNat) :
    field off w r.body = field (recHdrSize + off) w (r.image ++ t) := by
  have hbody := (fields_of_image r t).2.2.1
  rw [← hbody, field, field, List.drop_take, List.drop_drop, List.take_take]
  congr 2
  omega

/-! ## One byte overwritten -/

/-- The checksum tells two images of one length apart. -/
theorem image_set_ne_image {r r' : Rec} (hlen : r'.hdr.bodyLen = r.hdr.bodyLen) {i : ℕ}
    (hi : i < r.image.length) {b : UInt8} (hb : b ≠ r.image[i]) : r.image.set i b ≠ r'.image := by
  intro heq
  have hcov : r.covered.length = r'.covered.length := by
    rw [Rec.length_covered, Rec.length_covered, hlen]
  rw [Rec.image, Rec.image] at heq
  by_cases hin : i < r.covered.length
  · -- under the checksum: it has changed, its copy behind has not
    rw [List.set_append_left _ _ hin] at heq
    have hsplit := List.append_inj heq (by rw [List.length_set, hcov])
    have hat : b ≠ r.covered[i] := by
      simpa [Rec.image, List.getElem_append_left hin] using hb
    have hcrc : recCrc32 r.covered = recCrc32 r'.covered := by
      have hnat := congrArg leNat hsplit.2
      rw [leNat_leBytes_of_lt (recCrc32 r.covered).toNat_lt,
        leNat_leBytes_of_lt (recCrc32 r'.covered).toNat_lt] at hnat
      exact UInt32.toNat_inj.mp hnat
    rw [← hsplit.1, List.set_eq_take_append_cons_drop, if_pos hin] at hcrc
    refine recCrc32_ne (r.covered.take i) (r.covered.drop (i + 1)) hat.symm ?_
    rw [← hcrc, ← List.drop_eq_getElem_cons hin, List.take_append_drop]
  · -- in the stored copy: what it is a copy of has not changed
    rw [List.set_append_right _ _ (not_lt.mp hin)] at heq
    have hsplit := List.append_inj heq hcov
    rw [← hsplit.1] at hsplit
    have hback : r.image.set i b = r.image := by
      rw [Rec.image, List.set_append_right _ _ (not_lt.mp hin), hsplit.2]
    have hget := List.getElem_set_self (l := r.image) (a := b) (by rwa [List.length_set])
    simp only [hback] at hget
    exact hb hget.symm

theorem kind_event_of_bodyLenOk {k l l' : UInt16} (h : bodyLenOk k l = true)
    (h' : bodyLenOk k l' = true) (hne : l' ≠ l) : k = RecKind.event.code := by
  unfold bodyLenOk RecKind.ofCode at h h'
  split_ifs at h h' with h1 h2 h3 h4 h5 h6
  all_goals simp only [beq_iff_eq] at h h'
  all_goals first
    | exact h6
    | exact absurd (h'.trans h.symm) hne

/-- One overwritten byte leaves the length field as it was, or what is there
is no record. -/
theorem bodyLen_of_set {r r' : Rec} (hr : r.Acceptable) (hr' : r'.Acceptable) {i : ℕ} {b : UInt8}
    {t t' : Bytes} (h : (r.image ++ t).set i b = r'.image ++ t') :
    r'.hdr.bodyLen = r.hdr.bodyLen := by
  by_contra hne
  have hhdr := (fields_of_image r t).1
  have hhdr' := (fields_of_image r' t').1
  -- every other field reads the same in both
  have hsame : ∀ off w, i < off ∨ off + w ≤ i →
      field off w (r'.image ++ t') = field off w (r.image ++ t) := by
    intro off w hout
    rw [← h, field_set _ _ hout]
  have hat : i = 6 ∨ i = 7 := by
    by_contra hout
    apply hne
    have hfield := hsame 6 2 (by omega)
    have hlen := congrArg RecHdr.bodyLen hhdr
    have hlen' := congrArg RecHdr.bodyLen hhdr'
    simp only [RecHdr.ofBytes] at hlen hlen'
    rw [← hlen, ← hlen', hfield]
  have hkind : r'.hdr.kind = r.hdr.kind := by
    have hfield := hsame 4 2 (by omega)
    have hk := congrArg RecHdr.kind hhdr
    have hk' := congrArg RecHdr.kind hhdr'
    simp only [RecHdr.ofBytes] at hk hk'
    rw [← hk, ← hk', hfield]
  have hok := hr.2.1
  have hok' := hr'.2.1
  rw [hkind] at hok'
  have hev := kind_event_of_bodyLenOk hok hok' hne
  have hfour : ∀ l, bodyLenOk RecKind.event.code l = true → 4 ≤ l.toNat := by
    intro l hl
    simp only [bodyLenOk, RecKind.ofCode_code, Bool.and_eq_true, decide_eq_true_eq] at hl
    exact hl.1
  rw [hev] at hok hok'
  -- the text length of an event fixes the length of its body
  have htext := hr.2.2.2 hev
  have htext' := hr'.2.2.2 (hkind.trans hev)
  simp only [eventOk, Bool.and_eq_true, decide_eq_true_eq, beq_iff_eq] at htext htext'
  have hbody := field_body r t 2 2 (hfour _ hok)
  have hbody' := field_body r' t' 2 2 (hfour _ hok')
  rw [hsame _ _ (by simp only [recHdrSize]; omega)] at hbody'
  apply hne
  apply UInt16.toNat_inj.mp
  omega

/-- A record with one byte overwritten is refused, whatever follows it. -/
theorem recDecode_set {r : Rec} (hr : r.Acceptable) {i : ℕ} (hi : i < r.frame.length) {b : UInt8}
    (hb : b ≠ r.frame[i]) (t : Bytes) : ∃ e, recDecode (r.frame.set i b ++ t) = .error e := by
  cases hdec : recDecode (r.frame.set i b ++ t) with
  | error e => exact ⟨e, rfl⟩
  | ok p =>
      obtain ⟨hr', -, -, t', ht'⟩ := (recDecode_eq_ok_iff _ p.1 p.2).mp hdec
      have hset : (r.stamped.image ++ t).set i b = p.1.image ++ t' := by
        rw [ht']
        exact List.set_append_left _ _ hi
      have hlen := bodyLen_of_set ((Rec.acceptable_stamped r).mpr hr) hr' hset
      have hsame : r.stamped.image.length = p.1.image.length := by
        rw [Rec.length_image, Rec.length_image, Rec.size_eq, Rec.size_eq, hlen]
      have hfront : r.stamped.image.set i b ++ t = p.1.image ++ t' := ht'.symm
      have hsplit := List.append_inj hfront (by rw [List.length_set, hsame])
      exact absurd hsplit.1 (image_set_ne_image hlen hi hb)

/-- No damaged record decodes: a strict prefix of what the encoder wrote is
short, and with any one byte replaced it is refused, alone or with any tail
behind it. -/
theorem damaged_record_rejected (cap : ℕ) (r : Rec) (out : Bytes)
    (h : recEncode cap r = some out) :
    (∀ p, p <+: out → p ≠ out → recDecode p = .error .short) ∧
    (∀ i (hi : i < out.length) b, b ≠ out[i] → ∀ tail, ∃ e,
      recDecode (out.set i b ++ tail) = .error e) := by
  obtain ⟨hr, -, rfl⟩ := (recEncode_eq_some_iff cap r out).mp h
  constructor
  · intro p hp hne
    have hlt : p.length < r.stamped.size := by
      have hle := hp.length_le
      rw [Rec.length_frame] at hle
      refine lt_of_le_of_ne hle fun heq => hne ?_
      exact hp.eq_of_length (by rw [heq, Rec.length_frame, Rec.size_stamped])
    exact recDecode_cut ((Rec.acceptable_stamped r).mpr hr) rfl hp hlt
  · intro i hi b hb tail
    exact recDecode_set hr hi hb tail

/-- A BEGIN record with its kind byte turned into another kind's, or cut in
its checksum. -/
theorem damaged_record_rejected_begin :
    recEncode 52 beginSeven = some beginSeven.frame ∧
    recDecode (beginSeven.frame.take 50) = .error .short ∧
    ∃ e, recDecode (beginSeven.frame.set 4 5 ++ [1]) = .error e := by
  have henc : recEncode 52 beginSeven = some beginSeven.frame := by decide +kernel
  obtain ⟨hcut, hset⟩ := damaged_record_rejected 52 beginSeven _ henc
  have hlen : beginSeven.frame.length = 52 := Rec.length_frame _
  obtain ⟨hat, hne⟩ : ∃ h : 4 < beginSeven.frame.length, (5 : UInt8) ≠ beginSeven.frame[4] := by
    decide +kernel
  refine ⟨henc, hcut _ (List.take_prefix _ _) ?_, hset 4 hat 5 hne [1]⟩
  intro heq
  have hl := congrArg List.length heq
  rw [List.length_take] at hl
  omega

end Carwatch.Store
