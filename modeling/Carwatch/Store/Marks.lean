import Mathlib.Data.List.TakeWhile
import Carwatch.Store.Progress

/-!
# Carwatch.Store.Marks — the two events storaged leaves for its next run

`note_generation` and `note_ring_seq` print which ring a run drains, and how
far, into the text of an event; `wal_scan` reads both back with `sscanf`.

* `ringEvent` — the event, as both functions build it, and
  `scanRingEvent_ringText`, its way through print and scan;
* `lastSeqOf` — the last RING_SEQ among a list of records, whole log or one
  segment;
* `recovered_ringSeq` — what `wal_open` finds is the last RING_SEQ of the
  newest segment.
-/

namespace Carwatch.Store

open Carwatch.Lib

/-! ## Printing -/

/-- The text `ns=<ns> <word><value>`, the value in hex. -/
def ringText (word : Bytes) (ns : Ns) (v : UInt64) : Bytes :=
  nsWord ++ (printNat 10 10 ns.val ++ (0x20 :: (word ++ printNat 16 16 v.toNat)))

/-- The words of the two events: four bytes, no space and no NUL. -/
def RingWord (word : Bytes) : Prop := word = genWord ∨ word = seqWord

theorem RingWord.length {word : Bytes} (h : RingWord word) : word.length = 4 := by
  rcases h with rfl | rfl <;> rfl

theorem ringText_length_le {word : Bytes} (h : RingWord word) (ns : Ns) (v : UInt64) :
    (ringText word ns v).length ≤ 34 := by
  have hns := length_printNat_le 10 10 ns.val
  have hv := length_printNat_le 16 16 v.toNat
  have hword := h.length
  have hnsWord : nsWord.length = 3 := rfl
  simp only [ringText, List.length_append, List.length_cons]
  omega

/-- `rec_event_t` with a text. -/
def eventBody (code : ℕ) (text : Bytes) (hfits : text.length ≤ recEventTextMax) : Body where
  bytes := leBytes 2 code ++ (leBytes 2 text.length ++ text)
  fits := by
    simp only [List.length_append, length_leBytes, recEventTextMax] at hfits ⊢
    omega

/-- The event of `note_generation` and `note_ring_seq`, with the session's
`src`. -/
def ringEvent (code : ℕ) (word : Bytes) (hword : RingWord word) (ns : Ns) (v : UInt64) (src : UInt8)
    (now : Now) : AddReq where
  kind := RecKind.event.code
  src := src
  now := now
  body := eventBody code (ringText word ns v) 
    (le_trans (ringText_length_le hword ns v) (by decide))
  inside := event_inside

/-- `note_generation` asks for this record. -/
def noteGeneration (ns : Ns) (gen : UInt64) (src : UInt8) (now : Now) : AddReq :=
  ringEvent walEvRingGen genWord (.inl rfl) ns gen src now

/-- `note_ring_seq` asks for this record. -/
def noteRingSeq (ns : Ns) (seq : UInt64) (src : UInt8) (now : Now) : AddReq :=
  ringEvent walEvRingSeq seqWord (.inr rfl) ns seq src now

/-! ## Scanning -/

theorem takeWhile_digit_space {b : ℕ} (rest : Bytes) :
    (0x20 :: rest : Bytes).takeWhile (isDigitIn b) = [] := by
  have hspace : isDigitIn b 0x20 = false := rfl
  rw [List.takeWhile_cons, hspace]
  rfl

/-- `sscanf` reads back what `snprintf` wrote. -/
theorem scanRingEvent_ringText {word : Bytes} (hword : RingWord word) (ns : Ns) (v : UInt64) :
    scanRingEvent word (ringText word ns v) = some (ns.val, v) := by
  have hlit : ∀ w rest : Bytes, scanLit w (w ++ rest) = some rest := by
    intro w rest
    have hpre : w.isPrefixOf (w ++ rest) = true :=
      List.isPrefixOf_iff_prefix.mpr (List.prefix_append w rest)
    simp [scanLit, hpre]
  have hns : scanUnsigned 10 (printNat 10 10 ns.val ++
      (0x20 :: (word ++ printNat 16 16 v.toNat))) =
      some (ns.val, 0x20 :: (word ++ printNat 16 16 v.toNat)) := by
    have hlt := ns.isLt
    apply scanUnsigned_printNat (by omega) (by omega) (by omega) (by omega)
    · exact takeWhile_digit_space _
    · intro h
      cases h
  have hv : scanUnsigned 16 (printNat 16 16 v.toNat) = some (v.toNat, []) := by
    have hlt := v.toNat_lt
    have h := @scanUnsigned_printNat 16 (by omega) (by omega) 15 v.toNat
      (by omega) (by omega) [] rfl (fun _ => rfl)
    rwa [List.append_nil] at h
  -- one space is printed, and the directive passes over it
  have hspace : (0x20 :: (word ++ printNat 16 16 v.toNat) : Bytes).dropWhile isSpace =
      word ++ printNat 16 16 v.toNat := by
    rcases hword with rfl | rfl <;> rfl
  unfold scanRingEvent ringText
  rw [hlit]
  simp only [Option.bind_eq_bind, Option.bind_some, hns, hspace, hlit, hv, pure,
    UInt64.ofNat_toNat]
  rw [Nat.mod_eq_of_lt (by have := ns.isLt; omega)]

/-- No byte of the text ends the C string early. -/
theorem ringText_ne_zero {word : Bytes} (hword : RingWord word) (ns : Ns) (v : UInt64) :
    ∀ c ∈ ringText word ns v, c ≠ 0 := by
  have hdigit : ∀ d < 16, digitChar d ≠ 0 := by
    intro d hd
    interval_cases d <;> decide
  intro c hc
  simp only [ringText, List.mem_append, List.mem_cons] at hc
  rcases hc with hc | hc | rfl | hc | hc
  · rintro rfl
    simp [nsWord] at hc
  · rcases printNat_mem (by omega) hc with ⟨d, hd, rfl⟩
    exact hdigit d (by omega)
  · decide
  · rintro rfl
    rcases hword with rfl | rfl <;> simp [genWord, seqWord] at hc
  · rcases printNat_mem (by omega) hc with ⟨d, hd, rfl⟩
    exact hdigit d hd

theorem field_code_eventBody {code : ℕ} {text : Bytes} (hfits : text.length ≤ recEventTextMax)
    (hcode : code < 2 ^ 16) : field 0 2 (eventBody code text hfits).bytes = code := by
  show field 0 2 (leBytes 2 code ++ _) = code
  rw [field_leBytes]
  exact Nat.mod_eq_of_lt hcode

theorem field_len_eventBody {code : ℕ} {text : Bytes} (hfits : text.length ≤ recEventTextMax) :
    field 2 2 (eventBody code text hfits).bytes = text.length := by
  show field 2 2 (leBytes 2 code ++ (leBytes 2 text.length ++ text)) = text.length
  rw [field_leBytes_skip _ _ _ (by omega), Nat.sub_self, field_leBytes]
  simp only [recEventTextMax] at hfits
  exact Nat.mod_eq_of_lt (by omega)

theorem length_ringEvent (code : ℕ) {word : Bytes} (hword : RingWord word) (ns : Ns) (v : UInt64)
    (src : UInt8) (now : Now) :
    (ringEvent code word hword ns v src now).body.bytes.length =
      4 + (ringText word ns v).length := by
  show (leBytes 2 code ++ (leBytes 2 _ ++ ringText word ns v)).length = _
  rw [List.length_append, List.length_append, length_leBytes, length_leBytes]
  omega

theorem length_ringEvent_le (code : ℕ) {word : Bytes} (hword : RingWord word) (ns : Ns) (v : UInt64)
    (src : UInt8) (now : Now) :
    (ringEvent code word hword ns v src now).body.bytes.length ≤ 38 := by
  have htext := ringText_length_le hword ns v
  rw [length_ringEvent]
  omega

/-- The encoder accepts both events from a session that has a valid `src`. -/
theorem ringEvent_valid (code : ℕ) {word : Bytes} (hword : RingWord word) (ns : Ns) (v : UInt64)
    {src : UInt8} (hsrc : srcIsValid src = true) (now : Now) :
    (ringEvent code word hword ns v src now).Valid := by
  have htext := ringText_length_le hword ns v
  have htoNat : (UInt16.ofNat (ringEvent code word hword ns v src now).body.bytes.length).toNat =
      4 + (ringText word ns v).length := by
    rw [UInt16.toNat_ofNat', length_ringEvent]
    exact Nat.mod_eq_of_lt (by omega)
  have hfield : field 2 2 (ringEvent code word hword ns v src now).body.bytes =
      (ringText word ns v).length :=
    field_len_eventBody (le_trans htext (by decide))
  refine ⟨rfl, ?_, hsrc, ?_⟩
  · show (decide (4 ≤ _) && decide (_ ≤ recMaxBody)) = true
    rw [htoNat, Bool.and_eq_true, decide_eq_true_eq, decide_eq_true_eq]
    simp only [recMaxBody, recEventTextMax]
    omega
  · intro _
    unfold eventOk
    rw [hfield, htoNat]
    simp only [recEventTextMax, Bool.and_eq_true, decide_eq_true_eq, beq_iff_eq]
    omega

theorem eventText_eventBody {code : ℕ} {text : Bytes} (hfits : text.length ≤ recEventTextMax)
    (hne : ∀ c ∈ text, c ≠ 0) : eventText (eventBody code text hfits).bytes = text := by
  have hdrop : (eventBody code text hfits).bytes.drop 4 = text := by
    show (leBytes 2 code ++ (leBytes 2 text.length ++ text)).drop 4 = text
    rw [← List.append_assoc, List.drop_left' (by simp)]
  unfold eventText
  rw [field_len_eventBody, hdrop, List.take_length]
  have hall : ∀ c ∈ text, decide (c ≠ 0) = true := by
    intro c hc
    exact decide_eq_true (hne c hc)
  exact List.takeWhile_eq_self_iff.mpr hall

/-! ## The last RING_SEQ -/

/-- The position a RING_SEQ record gives for `ns`. -/
def seqMark (ns : Ns) (c : Content) : Option UInt64 :=
  if c.kind = RecKind.event.code ∧ field 0 2 c.body = walEvRingSeq then
    match scanRingEvent seqWord (eventText c.body) with
    | some (n, v) => if n = ns.val then some v else none
    | none => none
  else none

/-- The last position given for `ns` among some records. -/
def lastSeqOf (ns : Ns) (cs : List Content) : Option UInt64 :=
  cs.foldl (fun last c => (seqMark ns c).or last) none

@[simp] theorem lastSeqOf_nil (ns : Ns) : lastSeqOf ns [] = none := rfl

theorem lastSeqOf_append_singleton (ns : Ns) (cs : List Content) (c : Content) :
    lastSeqOf ns (cs ++ [c]) = (seqMark ns c).or (lastSeqOf ns cs) := by
  simp [lastSeqOf]

theorem lastSeqOf_append (ns : Ns) (cs cs' : List Content) :
    lastSeqOf ns (cs ++ cs') = (lastSeqOf ns cs').or (lastSeqOf ns cs) := by
  induction cs' using List.reverseRec with
  | nil => simp
  | append_singleton cs' c ih =>
      rw [← List.append_assoc, lastSeqOf_append_singleton, lastSeqOf_append_singleton, ih,
        Option.or_assoc]

theorem seqMark_of_ne_event {ns : Ns} {c : Content} (h : c.kind ≠ RecKind.event.code) :
    seqMark ns c = none := by
  unfold seqMark
  rw [if_neg fun hc => h hc.1]

/-- What `note_ring_seq` leaves. -/
theorem seqMark_noteRingSeq (ns ns' : Ns) (seq : UInt64) (src : UInt8) (now : Now) :
    seqMark ns' (noteRingSeq ns seq src now).content = if ns = ns' then some seq else none := by
  have hword : RingWord seqWord := .inr rfl
  have hfits := le_trans (ringText_length_le hword ns seq) (by decide : 34 ≤ recEventTextMax)
  have hcode : field 0 2 (noteRingSeq ns seq src now).content.body = walEvRingSeq :=
    field_code_eventBody hfits (by decide)
  have htext : eventText (noteRingSeq ns seq src now).content.body = ringText seqWord ns seq :=
    eventText_eventBody hfits (ringText_ne_zero hword ns seq)
  unfold seqMark
  rw [if_pos ⟨rfl, hcode⟩, htext, scanRingEvent_ringText hword]
  simp only [Fin.val_inj]

/-- What `note_generation` leaves is no RING_SEQ. -/
theorem seqMark_noteGeneration (ns ns' : Ns) (gen : UInt64) (src : UInt8) (now : Now) :
    seqMark ns' (noteGeneration ns gen src now).content = none := by
  have hfits := le_trans (ringText_length_le (.inl rfl : RingWord genWord) ns gen)
    (by decide : 34 ≤ recEventTextMax)
  have hcode : field 0 2 (noteGeneration ns gen src now).content.body = walEvRingGen :=
    field_code_eventBody hfits (by decide)
  unfold seqMark
  rw [if_neg]
  rintro ⟨-, h⟩
  rw [hcode] at h
  exact absurd h (by decide)

/-! ## What the scan finds -/

/-- The RING_SEQ a scan has seen, committed or in the open batch. -/
def seenSeq (has : Ns → Bool) (seq : Ns → UInt64) (ns : Ns) : Option UInt64 :=
  if has ns then some (seq ns) else none

/-- One record inside a batch. -/
theorem seenSeq_scanPayload (st : ScanSt) (r : Rec) (ns : Ns) :
    seenSeq (scanPayload st r).batchHasRingSeq (scanPayload st r).batchRingSeq ns =
      (seqMark ns r.content).or (seenSeq st.batchHasRingSeq st.batchRingSeq ns) := by
  unfold scanPayload
  split_ifs with hsample hevent
  · rw [seqMark_of_ne_event]
    · rfl
    · show r.hdr.kind ≠ _
      rw [hsample]
      decide
  · -- an event: only the RING_SEQ code touches what is asked for
    unfold scanEvent seqMark
    have hkind : r.content.kind = RecKind.event.code := hevent
    have hbody : r.content.body = r.body := rfl
    simp only [hkind, hbody, true_and]
    by_cases hseq : field 0 2 r.body = walEvRingSeq
    · have hgen : field 0 2 r.body ≠ walEvRingGen := by
        rw [hseq]
        decide
      rw [if_neg hgen, if_pos hseq, if_pos hseq]
      cases hscan : scanRingEvent seqWord (eventText r.body) with
      | none => rfl
      | some p =>
          rcases p with ⟨n, v⟩
          by_cases hn : n < 2
          · simp only [hn, dif_pos]
            by_cases hns : n = ns.val
            · have heq : (⟨n, hn⟩ : Ns) = ns := Fin.ext hns
              subst heq
              simp [seenSeq]
            · have hne : ns ≠ ⟨n, hn⟩ := by
                intro h
                exact hns (congrArg Fin.val h).symm
              simp [seenSeq, Function.update_of_ne hne, hns]
          · have hns : n ≠ ns.val := by
              have := ns.isLt
              omega
            simp [hn, hns]
    · rw [if_neg hseq, if_neg hseq]
      split
      · split
        · split <;> rfl
        · rfl
      · rfl
  · rw [seqMark_of_ne_event hevent]
    rfl

/-- The records of an open batch. -/
theorem seenSeq_within (st : ScanSt) (beg : Rec) {payload : List Rec}
    (hin : ∀ r ∈ payload, r.Inside) (ns : Ns) :
    seenSeq (Batch.within st beg payload).batchHasRingSeq
        (Batch.within st beg payload).batchRingSeq ns =
      (lastSeqOf ns (contents payload)).or (seenSeq st.out.hasRingSeq st.out.ringSeq ns) := by
  induction payload using List.reverseRec with
  | nil => rfl
  | append_singleton payload r ih =>
      have hlast : Batch.within st beg (payload ++ [r]) =
          (scanPayload (Batch.within st beg payload) r).advance r r.size := by
        simp [Batch.within]
      have hr : r.Inside := hin r (List.mem_append_right _ List.mem_cons_self)
      rw [hlast, contents_append, contents_inside hr, lastSeqOf_append_singleton, Option.or_assoc,
        ← ih fun r' hr' => hin r' (List.mem_append_left _ hr')]
      exact seenSeq_scanPayload _ r ns

theorem contents_batch (b : Batch) : contents b.recs = contents b.payload := by
  have hbeg : ¬ b.beg.Inside := fun h => h.1 b.beg_kind
  have hcom : ¬ b.com.Inside := fun h => h.2 b.com_kind
  have hrecs : b.recs = [b.beg] ++ (b.payload ++ [b.com]) := rfl
  rw [hrecs, contents_append, contents_append, contents_outside hbeg, contents_outside hcom,
    List.nil_append, List.append_nil]

/-- A whole batch: its last RING_SEQ, else the one before it. -/
theorem seenSeq_scanned (b : Batch) (st : ScanSt) (ns : Ns) :
    seenSeq (b.scanned st).out.hasRingSeq (b.scanned st).out.ringSeq ns =
      (lastSeqOf ns (contents b.recs)).or (seenSeq st.out.hasRingSeq st.out.ringSeq ns) := by
  rw [contents_batch]
  exact seenSeq_within st b.beg b.payload_inside ns

theorem seenSeq_scannedAll (bs : List Batch) (ns : Ns) :
    seenSeq (scannedAll bs {}).out.hasRingSeq (scannedAll bs {}).out.ringSeq ns =
      lastSeqOf ns (contents (recsOf bs)) := by
  induction bs using List.reverseRec with
  | nil => rfl
  | append_singleton bs b ih =>
      have hlast : scannedAll (bs ++ [b]) {} = b.scanned (scannedAll bs {}) := by
        simp [scannedAll]
      rw [hlast, seenSeq_scanned, ih, recsOf_append, recsOf_singleton, contents_append,
        lastSeqOf_append]

/-- A RING_SEQ found in the newest segment is the last one of the log. -/
theorem Layout.scan_ringSeq (l : Layout) {ns : Ns}
    (h : (walScan (l.last.bytes ++ l.torn)).hasRingSeq ns = true) :
    lastSeqOf ns (contents l.recs) = some ((walScan (l.last.bytes ++ l.torn)).ringSeq ns) := by
  rcases walScan_eq_out (l.last.bytes ++ l.torn) with ⟨n, hscan⟩
  have hseen := seenSeq_scannedAll l.last.batches ns
  rw [hscan] at h ⊢
  simp only [l.scan_last] at h ⊢
  unfold seenSeq at hseen
  rw [if_pos h] at hseen
  rw [l.recs_eq, contents_append, lastSeqOf_append, SegLog.recs, ← hseen]
  rfl

end Carwatch.Store
