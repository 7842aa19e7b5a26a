import Carwatch.Interface.SynthReply
import Mathlib.Data.List.Chain

/-!
# Carwatch.Interface.Room — the buffers of `statusd` are large enough

A reply of the synthetic source goes through two buffers: `reply` of
`route_ctx_t`, and the body of the response, in which its records stand as
JSON. A record with a field named tag would be refused too. None of this ever
happens.

* `length_recordsJson_le` — JSON is hardly longer than the lines it is made of;
* `Clean` — a text in which no key can end in a `g`;
* `Told` — what a reply is, with the room it takes;
* `synthReply_told` — for any request and clock.
-/

namespace Carwatch.Interface

open Carwatch.Lib

/-! ## The length of JSON -/

/-- A string of a record is written as it is. -/
theorem length_renderString_plain {s : Bytes} (h : ∀ c ∈ s, IsPrintable c ∧ c ≠ 0x22 ∧ c ≠ 0x5C) :
    (renderString s).length = s.length + 2 := by
  have hchars : (s.flatMap renderChar).length = s.length := by
    induction s with
    | nil => rfl
    | cons c s ih =>
        obtain ⟨⟨hlo, hhi⟩, hquote, hback⟩ := h c List.mem_cons_self
        have hchar : renderChar c = [c] := by
          rw [UInt8.le_iff_toNat_le] at hlo
          rw [UInt8.lt_iff_toNat_lt] at hhi
          have hne : ∀ b : UInt8, b.toNat < 0x20 → c ≠ b := by
            rintro b hb rfl
            exact absurd hlo (not_le.mpr hb)
          unfold renderChar
          rw [if_neg hquote, if_neg hback, if_neg (hne _ (by decide)), if_neg (hne _ (by decide)),
            if_neg (hne _ (by decide)), if_neg (hne _ (by decide)), if_neg (hne _ (by decide)), if_neg]
          rw [Bool.or_eq_true, decide_eq_true_eq, beq_iff_eq, not_or, UInt8.lt_iff_toNat_lt, not_lt]
          refine ⟨hlo, ?_⟩
          rintro rfl
          exact absurd hhi (by decide)
        rw [List.flatMap_cons, hchar, List.length_append, ih fun c hc => h c (List.mem_cons_of_mem _ hc),
          List.length_singleton, List.length_cons, Nat.add_comm]
  rw [renderString, List.length_cons, List.length_append, hchars, List.length_singleton]

theorem IsName.plain {s : Bytes} {max : ℕ} (h : IsName s max) :
    ∀ c ∈ s, IsPrintable c ∧ c ≠ 0x22 ∧ c ≠ 0x5C := by
  intro c hc
  have hident := h.2.2 c hc
  refine ⟨(isIdent_ne hident).1, (isIdent_ne hident).2.2.1, ?_⟩
  rintro rfl
  exact absurd hident (by decide)

theorem length_fieldJson {f : KvField} (h : f.ValueOk) : (fieldJson f).render.length = f.valueText.length := by
  unfold KvField.ValueOk at h
  unfold fieldJson KvField.valueText
  cases htype : f.type with
  | str =>
      rw [htype] at h
      dsimp only
      rw [Json.render, length_renderString_plain h.2, List.length_cons, List.length_append]
      rfl
  | num => rfl
  | null =>
      rw [htype] at h
      dsimp only
      rw [Json.render, show f.val = nullWord from h]

/-- A field is two bytes longer than in its line. -/
theorem length_renderMembers_fields {fields : List KvField} (hnames : ∀ f ∈ fields, IsName f.key kvMaxKey)
    (hvalues : ∀ f ∈ fields, f.ValueOk) :
    (renderMembers (fields.map fun f => (f.key, fieldJson f))).length =
      (fieldsText fields).length + 2 * fields.length := by
  induction fields with
  | nil => rfl
  | cons f fields ih =>
      rw [List.map_cons, renderMembers]
      simp only [List.length_cons, List.length_append, length_renderString_plain
        (hnames f List.mem_cons_self).plain, length_fieldJson (hvalues f List.mem_cons_self),
        ih (fun g hg => hnames g (List.mem_cons_of_mem _ hg))
          fun g hg => hvalues g (List.mem_cons_of_mem _ hg),
        fieldsText, List.flatMap_cons, KvField.render]
      omega

theorem length_recordJson {rec : KvLine} (h : rec.Wf) :
    (Json.obj (recordMembers rec)).render.length = rec.render.length + 2 * rec.fields.length + 10 := by
  have htag : (renderString tagKey).length = 5 := by decide
  rw [recordMembers, Json.render]
  simp only [List.length_cons, List.length_append, List.length_nil, htag, Json.render,
    length_renderString_plain h.tag.plain, length_renderMembers_fields h.fields.names h.fields.values,
    KvLine.render]
  omega

/-- The items of the array. -/
theorem length_records_le {final : KvKind} {recs : List KvLine} {text : Bytes} (h : IsReply final recs text) :
    (renderItems (recs.map fun rec => .obj (recordMembers rec))).length ≤ text.length + 42 * recs.length := by
  induction h with
  | last _ _ => exact Nat.zero_le _
  | @record line eol rest rec recs hline heol _ ih =>
      obtain ⟨hwf, -, hrender⟩ := (kvParseLine_eq_record_iff line rec).mp hline
      have hcount := hwf.fields.count
      have heol' := heol.length_pos
      rw [List.map_cons, renderItems]
      simp only [List.length_cons, List.length_append, length_recordJson hwf, hrender]
      rw [kvMaxFields] at hcount
      omega

/-- The JSON of a reply is hardly longer than the reply. -/
theorem length_recordsJson_le {final : KvKind} {recs : List KvLine} {text : Bytes}
    (h : IsReply final recs text) :
    (recordsJson recs).render.length ≤ text.length + 42 * recs.length + 24 := by
  have hitems := length_records_le h
  have hinside : (itemsText (recs.map fun rec => .obj (recordMembers rec))).length ≤
      (renderItems (recs.map fun rec => .obj (recordMembers rec))).length := by
    cases recs with
    | nil => exact Nat.le_refl 0
    | cons rec recs =>
        rw [List.map_cons, itemsText, renderItems, List.length_cons]
        exact Nat.le_succ _
  have hkeys : (renderString (ascii "ok")).length = 4 ∧ (renderString (ascii "records")).length = 9 ∧
      trueWord.length = 4 := by decide
  simp only [recordsJson, Json.render, renderMembers, render_arr, List.length_cons, List.length_append,
    List.length_nil, hkeys.1, hkeys.2.1, hkeys.2.2]
  omega

/-! ## No field is named tag -/

/-- No `g` stands before an equals sign. -/
def Clean (t : Bytes) : Prop := t.IsChain fun a b => ¬ (a = 0x67 ∧ b = 0x3D)

instance cleanDecidable (t : Bytes) : Decidable (Clean t) :=
  inferInstanceAs (Decidable (t.IsChain _))

/-- A piece of such a text: whatever stands before it. -/
def CleanPiece (t : Bytes) : Prop := Clean t ∧ t.head? ≠ some 0x3D

instance cleanPieceDecidable (t : Bytes) : Decidable (CleanPiece t) :=
  inferInstanceAs (Decidable (Clean t ∧ t.head? ≠ some 0x3D))

theorem CleanPiece.append {t u : Bytes} (ht : CleanPiece t) (hu : CleanPiece u) : CleanPiece (t ++ u) := by
  refine ⟨List.isChain_append.mpr ⟨ht.1, hu.1, ?_⟩, ?_⟩
  · rintro a - b hb ⟨-, rfl⟩
    exact hu.2 hb
  · cases t with
    | nil => exact hu.2
    | cons a t => exact ht.2

theorem cleanPiece_flatten {pieces : List Bytes} (h : ∀ p ∈ pieces, CleanPiece p) :
    CleanPiece pieces.flatten := by
  induction pieces with
  | nil => exact ⟨.nil, nofun⟩
  | cons p pieces ih =>
      rw [List.flatten_cons]
      exact (h p List.mem_cons_self).append (ih fun q hq => h q (List.mem_cons_of_mem _ hq))

/-- A text without an equals sign. -/
theorem cleanPiece_of_notMem {t : Bytes} (h : 0x3D ∉ t) : CleanPiece t := by
  constructor
  · refine (List.isChain_isInfix t).imp fun a b hin heq => h ?_
    rw [← heq.2]
    exact hin.subset (by simp)
  · intro heq
    exact h (List.mem_of_head? heq)

/-- The record on such a line has no field named tag. -/
theorem untagged_of_clean {rec : KvLine} (h : Clean rec.render) : kvGet rec tagKey = none := by
  rw [kvGet, Option.map_eq_none_iff, List.find?_eq_none]
  intro f hf hkey
  obtain ⟨before, after, hfields⟩ := List.append_of_mem hf
  have hsplit : rec.render = (rec.tag ++ fieldsText before ++ [0x20, 0x74, 0x61]) ++
      0x67 :: 0x3D :: (f.valueText ++ fieldsText after) := by
    rw [KvLine.render, hfields]
    simp only [fieldsText, List.flatMap_append, List.flatMap_cons, KvField.render, beq_iff_eq.mp hkey,
      List.append_assoc]
    rfl
  rw [hsplit] at h
  exact (List.isChain_append_cons_cons.mp h).2.1 ⟨rfl, rfl⟩

/-! ## The lines of the source -/

theorem isNumber_clean {t : Bytes} (h : IsNumber t) : CleanPiece t := by
  refine cleanPiece_of_notMem fun hmem => ?_
  exact absurd (h.chars _ hmem) (by decide)

/-- A line of a record that has room. -/
structure Line (b : ℕ) (text : Bytes) : Prop where
  labeled : Labeled text
  clean : CleanPiece text
  short : text.length ≤ b

theorem Labeled.length_le {text : Bytes} (h : Labeled text) : text.length ≤ kvMaxLine + 1 := by
  obtain ⟨body, rec, rfl, hparse, -⟩ := h
  rw [List.length_append, List.length_singleton]
  exact Nat.succ_le_succ ((kvParseLine_eq_record_iff body rec).mp hparse).2.1

/-- Any line is no longer than a line may be. -/
theorem Labeled.line {text : Bytes} (h : Labeled text) (hclean : CleanPiece text) :
    Line (kvMaxLine + 1) text := ⟨h, hclean, h.length_le⟩

theorem procs_clean : ∀ p ∈ procs, CleanPiece p.name := by decide

theorem line_procLine {d : Doubles} (hd : d.Ok) (s : SynthState) {p : Proc} (hp : p ∈ procs) (i : ℕ) :
    Line (kvMaxLine + 1) (procLine d s p i) := by
  refine (labeled_procLine hd s hp i).line (cleanPiece_flatten ?_)
  simp only [List.forall_mem_cons, List.not_mem_nil, false_imp_iff, implies_true, and_true]
  exact ⟨by decide, procs_clean p hp, by decide, isNumber_clean (printUint32_isNumber _).1, by decide,
    isNumber_clean (printUint_isNumber _).1, by decide, isNumber_clean (printUint32_isNumber _).1,
    by decide, isNumber_clean (printUint32_isNumber _).1, by decide,
    isNumber_clean (fixed1_isNumber hd (cpuPct_bound hd s i)).1, by decide,
    isNumber_clean (printUint_isNumber _).1, by decide⟩

theorem line_ringLine {name : Bytes} (hname : Word name) (hclean : CleanPiece name) (depth : UInt32) :
    Line (kvMaxLine + 1) (ringLine name depth) := by
  refine (labeled_ringLine hname depth).line (cleanPiece_flatten ?_)
  simp only [List.forall_mem_cons, List.not_mem_nil, false_imp_iff, implies_true, and_true]
  exact ⟨by decide, hclean, by decide, isNumber_clean (printUint32_isNumber _).1, by decide⟩

theorem line_srcmixLine (s : SynthState) : Line (kvMaxLine + 1) (srcmixLine s) := by
  refine (labeled_srcmixLine s).line (cleanPiece_flatten ?_)
  simp only [List.forall_mem_cons, List.not_mem_nil, false_imp_iff, implies_true, and_true]
  exact ⟨by decide, isNumber_clean (printUint_isNumber _).1, by decide⟩

theorem synthEvents_clean : ∀ e ∈ synthEvents,
    CleanPiece e.kind ∧ CleanPiece e.source ∧ CleanPiece e.code ∧ CleanPiece e.detail := by decide

theorem line_faultLine (s : SynthState) {e : SynthEvent} (he : e ∈ synthEvents) :
    Line (kvMaxLine + 1) (faultLine s e) := by
  obtain ⟨hkind, hsource, hcode, hdetail⟩ := synthEvents_clean e he
  refine (labeled_faultLine s he).line (cleanPiece_flatten ?_)
  simp only [List.forall_mem_cons, List.not_mem_nil, false_imp_iff, implies_true, and_true]
  exact ⟨by decide, isNumber_clean (printUint_isNumber _).1, by decide, hkind, by decide, hsource,
    by decide, hcode, by decide, hdetail, by decide⟩

theorem signals_clean : ∀ sig ∈ signals, CleanPiece sig.pid ∧ sig.pid.length ≤ 5 := by decide

/-- There may be hundreds of samples, so their lines are kept short. -/
theorem line_sampleLine {d : Doubles} (hd : d.Ok) {sig : Signal} (hsig : sig ∈ signals) (k : ℕ)
    (t : UInt64) : Line 89 (sampleLine d sig k t) := by
  obtain ⟨hpid, hshort⟩ := signals_clean sig hsig
  have htime := printUint_isNumber t
  have hvalue := fixed1_isNumber hd (sampleValue_bound hd hsig k t)
  have hlabeled := labeled_sampleLine hd hsig k t
  unfold sampleLine at hlabeled ⊢
  generalize sig.pid = pid at hpid hshort hlabeled ⊢
  generalize printUint t = time at htime hlabeled ⊢
  generalize d.fixed1 (sampleValue d sig k t) = value at hvalue hlabeled ⊢
  split_ifs at hlabeled ⊢
  · refine ⟨hlabeled, cleanPiece_flatten ?_, ?_⟩
    · simp only [List.forall_mem_cons, List.not_mem_nil, false_imp_iff, implies_true, and_true]
      exact ⟨by decide, hpid, by decide, isNumber_clean htime.1, by decide⟩
    · have hfixed : (ascii "sample pid=\"").length = 12 ∧ (ascii "\" t_s=").length = 6 ∧
          (ascii " value=null src=\"synth\"\n").length = 24 := by decide
      simp only [List.flatten_cons, List.flatten_nil, List.length_append, List.length_nil, hfixed]
      omega
  · refine ⟨hlabeled, cleanPiece_flatten ?_, ?_⟩
    · simp only [List.forall_mem_cons, List.not_mem_nil, false_imp_iff, implies_true, and_true]
      exact ⟨by decide, hpid, by decide, isNumber_clean htime.1, by decide, isNumber_clean hvalue.1,
        by decide⟩
    · have hfixed : (ascii "sample pid=\"").length = 12 ∧ (ascii "\" t_s=").length = 6 ∧
          (ascii " value=").length = 7 ∧ (ascii " src=\"synth\"\n").length = 13 := by decide
      simp only [List.flatten_cons, List.flatten_nil, List.length_append, List.length_nil, hfixed]
      omega

/-! ## Whole replies -/

/-- `ROUTE_REPLY_MAX` -/
abbrev routeReplyMax : ℕ := 65536

/-- A record that the page can trust. -/
structure Synthetic (rec : KvLine) : Prop where
  src : findField rec (ascii "src") = some synthField
  untagged : kvGet rec tagKey = none

/-- A request for the baseline. -/
def AsksBaseline (request : Bytes) : Prop :=
  ∃ req, kvParseLine request = .record req ∧ req.tag = ascii "baseline"

/-- What a request is told: records, with room for them in both buffers, or one
of the refusals. Only the baseline is unavailable. -/
inductive Told (request : Bytes) (texts : List Bytes) : Prop where
  | records (recs : List KvLine) (hreply : IsReply .ok recs texts.flatten)
      (hsrc : ∀ rec ∈ recs, Synthetic rec) (hroom : texts.flatten.length < routeReplyMax)
      (hshow : Showable recs)
  | refused (code reason : Bytes) (herror : (code, reason) ∈ synthErrors)
      (hserved : code = ascii "unavailable" → AsksBaseline request)
      (htexts : texts = [replyErr code reason])

theorem told_refused {request code reason : Bytes} (herror : (code, reason) ∈ synthErrors)
    (hserved : code ≠ ascii "unavailable") : Told request [replyErr code reason] :=
  .refused code reason herror (fun h => absurd h hserved) rfl

/-- The records of lines. -/
theorem records_of_lines {b : ℕ} {lines : List Bytes} (h : ∀ text ∈ lines, Line b text) :
    ∃ recs, IsReply .ok recs (lines ++ [okText]).flatten ∧ recs.length = lines.length ∧
      (lines ++ [okText]).flatten.length ≤ lines.length * b + 3 ∧ ∀ rec ∈ recs, Synthetic rec := by
  induction lines with
  | nil =>
      refine ⟨[], @IsReply.last .ok okWord [0x0A] (by decide) (.inl rfl), rfl, ?_, ?_⟩
      · show 3 ≤ 0 * b + 3
        omega
      · intro rec hrec
        cases hrec
  | cons text lines ih =>
      obtain ⟨recs, hreply, hcount, hlen, hsrc⟩ := ih fun t ht => h t (List.mem_cons_of_mem _ ht)
      obtain ⟨⟨body, rec, hbody, hparse, hfield⟩, hclean, hshort⟩ := h text List.mem_cons_self
      have hrender : body = rec.render := ((kvParseLine_eq_record_iff body rec).mp hparse).2.2
      subst hbody
      refine ⟨rec :: recs, ?_, ?_, ?_, ?_⟩
      · rw [List.cons_append, List.flatten_cons]
        exact .record hparse (.inl rfl) hreply
      · rw [List.length_cons, List.length_cons, hcount]
      · rw [List.cons_append, List.flatten_cons, List.length_append, List.length_cons, Nat.succ_mul]
        omega
      · refine List.forall_mem_cons.mpr ⟨⟨hfield, untagged_of_clean ?_⟩, hsrc⟩
        rw [← hrender]
        exact (List.isChain_append.mp hclean.1).1

/-- Lines with room for all of them. -/
theorem told_of_lines {request : Bytes} {lines : List Bytes} (b n : ℕ) (h : ∀ text ∈ lines, Line b text)
    (hn : lines.length ≤ n) (hroom : n * b + 42 * n + 27 < serverBodyMax) :
    Told request (lines ++ [okText]) := by
  obtain ⟨recs, hreply, hcount, hlen, hsrc⟩ := records_of_lines h
  have hall : lines.length * b ≤ n * b := Nat.mul_le_mul_right b hn
  have hjson := length_recordsJson_le hreply
  rw [hcount] at hjson
  refine .records recs hreply hsrc ?_ ⟨fun rec hrec => (hsrc rec hrec).untagged, ?_⟩
  · rw [serverBodyMax] at hroom
    rw [routeReplyMax]
    omega
  · omega

theorem told_replyStatus {d : Doubles} (hd : d.Ok) (s : SynthState) (request : Bytes) :
    Told request (replyStatus d s) := by
  have hrings : ∀ name ∈ [ascii "obd", ascii "ambient"], Word name ∧ CleanPiece name := by decide
  have htexts : replyStatus d s =
      ((procs.zipIdx.map fun p => procLine d s p.1 p.2) ++
        [ringLine (ascii "obd") (mix (s.nowS + 1) % 40),
          ringLine (ascii "ambient") (mix (s.nowS + 2) % 3), linkLine, srcmixLine s]) ++ [okText] := by
    rw [replyStatus, List.append_assoc]
    rfl
  rw [htexts]
  refine told_of_lines (kvMaxLine + 1) 10 ?_ (le_of_eq rfl) (by decide)
  · intro text htext
    rcases List.mem_append.mp htext with hproc | hrest
    · obtain ⟨⟨p, i⟩, hp, rfl⟩ := List.mem_map.mp hproc
      exact line_procLine hd s (List.fst_mem_of_mem_zipIdx hp) i
    · simp only [List.mem_cons, List.not_mem_nil, or_false] at hrest
      obtain ⟨hobd, hobd'⟩ := hrings (ascii "obd") List.mem_cons_self
      obtain ⟨hambient, hambient'⟩ :=
        hrings (ascii "ambient") (List.mem_cons_of_mem _ List.mem_cons_self)
      rcases hrest with rfl | rfl | rfl | rfl
      · exact line_ringLine hobd hobd' _
      · exact line_ringLine hambient hambient' _
      · exact labeled_linkLine.line (by decide +kernel)
      · exact line_srcmixLine s

theorem told_replyVerdicts (s : SynthState) (request : Bytes) :
    Told request (replyVerdicts s) := by
  refine @told_of_lines request [_, _] (kvMaxLine + 1) 2 ?_ (le_of_eq rfl) (by decide)
  simp only [List.forall_mem_cons, List.not_mem_nil, false_imp_iff, implies_true, and_true]
  constructor
  · refine (labeled_verdict (printUint_isNumber _)).line (cleanPiece_flatten ?_)
    simp only [List.forall_mem_cons, List.not_mem_nil, false_imp_iff, implies_true, and_true]
    exact ⟨by decide +kernel, by decide +kernel, isNumber_clean (printUint_isNumber _).1, by decide⟩
  · refine (labeled_endedVerdict (printUint_isNumber _) (printUint_isNumber _)).line
      (cleanPiece_flatten ?_)
    simp only [List.forall_mem_cons, List.not_mem_nil, false_imp_iff, implies_true, and_true]
    exact ⟨by decide +kernel, by decide +kernel, isNumber_clean (printUint_isNumber _).1, by decide,
      isNumber_clean (printUint_isNumber _).1, by decide⟩

theorem told_replyFaults (s : SynthState) (request : Bytes) :
    Told request (replyFaults s) := by
  refine told_of_lines (kvMaxLine + 1) 4 ?_ (le_of_eq rfl) (by decide)
  intro text htext
  obtain ⟨e, he, rfl⟩ := List.mem_map.mp htext
  exact line_faultLine s he

theorem told_replySeries {d : Doubles} (hd : d.Ok) {rounds : ℕ} (hrounds : 300 < rounds) {s : SynthState}
    (hnow : s.nowS.toNat < 2 ^ 63) (req : KvLine) (request : Bytes) :
    ∃ texts, replySeries d rounds s req = some texts ∧ Told request texts := by
  unfold replySeries
  cases hpid : findField req (ascii "pid") with
  | none => exact ⟨_, rfl, told_refused (by decide) (by decide)⟩
  | some pid =>
      dsimp only
      by_cases htype : pid.type ≠ .str
      · rw [if_pos htype]
        exact ⟨_, rfl, told_refused (by decide) (by decide)⟩
      rw [if_neg htype]
      cases hfind : signals.zipIdx.find? (·.1.pid == pid.val) with
      | none => exact ⟨_, rfl, told_refused (by decide) (by decide)⟩
      | some entry =>
          obtain ⟨sig, k⟩ := entry
          have hsig : sig ∈ signals := List.fst_mem_of_mem_zipIdx (List.mem_of_find?_eq_some hfind)
          dsimp only
          cases hstart : parseWhen req (ascii "from") (ascii "-5m") s.nowS with
          | none => exact ⟨_, rfl, told_refused (by decide) (by decide)⟩
          | some start =>
              cases hstop : parseWhen req (ascii "to") (ascii "now") s.nowS with
              | none => exact ⟨_, rfl, told_refused (by decide) (by decide)⟩
              | some stop =>
                  dsimp only
                  by_cases hbad : (decide (start ≥ stop) || decide (stop - start > 3600)) = true
                  · rw [if_pos hbad]
                    exact ⟨_, rfl, told_refused (by decide) (by decide)⟩
                  rw [if_neg hbad]
                  rw [Bool.or_eq_true, decide_eq_true_eq, decide_eq_true_eq, not_or] at hbad
                  obtain ⟨ts, hts, -, -, -, hcount⟩ := window_times (UInt64.not_le.mp hbad.1)
                    (toNat_parseWhen_lt (by decide) hnow hstop)
                  refine ⟨_, by rw [hts rounds hrounds]; rfl, told_of_lines 89 300 ?_ ?_ (by decide)⟩
                  · intro text htext
                    obtain ⟨t, -, rfl⟩ := List.mem_map.mp htext
                    exact line_sampleLine hd hsig k t
                  · rwa [List.length_map]

/-- Whatever is asked, at whatever time, there is room for what is told. -/
theorem synthReply_told {d : Doubles} (hd : d.Ok) {rounds : ℕ} (hrounds : 300 < rounds) {s : SynthState}
    (hnow : s.nowS.toNat < 2 ^ 63) (request : Bytes) :
    ∃ texts, synthReply d rounds s request = some texts ∧ Told request texts := by
  unfold synthReply
  cases hparse : kvParseLine request with
  | record req =>
      dsimp only
      split_ifs
      · exact ⟨_, rfl, told_replyStatus hd s request⟩
      · exact ⟨_, rfl, told_replyVerdicts s request⟩
      · exact ⟨_, rfl, told_replyFaults s request⟩
      · exact told_replySeries hd hrounds hnow req request
      · rename_i hbaseline
        exact ⟨_, rfl, .refused _ _ (by decide) (fun _ => ⟨req, hparse, hbaseline⟩) rfl⟩
      · exact ⟨_, rfl, told_refused (by decide) (by decide)⟩
  | ok => exact ⟨_, rfl, told_refused (by decide) (by decide)⟩
  | err code reason => exact ⟨_, rfl, told_refused (by decide) (by decide)⟩
  | bad => exact ⟨_, rfl, told_refused (by decide) (by decide)⟩
  | incomplete => exact ⟨_, rfl, told_refused (by decide) (by decide)⟩

end Carwatch.Interface
