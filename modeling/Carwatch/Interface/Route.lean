import Carwatch.Interface.JsonTree
import Carwatch.Interface.Query
import Carwatch.Interface.Response

/-!
# Carwatch.Interface.Route — the routes of `statusd` (`src/interface/route.c`)

`route_handle` maps a request to at most one line for the source, and the
source's reply to a response. The source is a function here: a request line
to a reply, or `none` where `source_query` returns -1.

* **Model layer**: `setError`, `recordsToJson`, `routeHandle`. Next to the
  response stand the lines the source was sent.
* **Abstract layer**: `recordsJson` and `errorJson` are the trees a body
  stands for; `replyLines` cuts a reply into its lines.
* **Results**: `series_request_iff` on what reaches the source, and
  `routeHandle_converts` on what becomes of its reply.
-/

namespace Carwatch.Interface

open Carwatch.Lib

/-! ## Responses -/

/-- `text/plain` -/
def textPlain : Bytes := ascii "text/plain"

/-- `application/json` -/
def applicationJson : Bytes := ascii "application/json"

/-- `set_empty_500` -/
def setEmpty500 (r : ServerResponse) : ServerResponse :=
  { r with status := httpStatusInternalError, ctype := some textPlain, bodyLen := 0 }

/-- `set_text` -/
def setText (r : ServerResponse) (status : ℤ) (ctype text : Bytes) : ServerResponse :=
  if text.length > r.body.length then setEmpty500 r
  else ⟨status, some ctype, overwrite r.body 0 text, text.length⟩

/-- The calls of `set_error`. -/
def errorCalls (code reason : Bytes) : List JsonCall :=
  [.beginObject, .key (some (ascii "ok")), .bool false, .key (some (ascii "code")),
    .string (some code), .key (some (ascii "reason")), .string (some reason), .endObject]

/-- `set_error` -/
def setError (r : ServerResponse) (status : ℤ) (code reason : Bytes) : ServerResponse :=
  let j := run JsonWriter.exec (jsonInit r.body) (errorCalls code reason)
  match jsonFinish j with
  | none => setEmpty500 { r with body := j.buf }
  | some n => ⟨status, some applicationJson, j.buf, n⟩

/-- `status_for_code` -/
def statusForCode (code : Bytes) : ℤ :=
  if code = ascii "usage" then httpStatusBadRequest
  else if code = ascii "unknown_pid" || code = ascii "unknown_verb" then httpStatusNotFound
  else if code = ascii "unavailable" then httpStatusUnavailable
  else httpStatusInternalError

/-- `tag` -/
def tagKey : Bytes := ascii "tag"

/-- The calls of `records_to_json` for one field. -/
def fieldCalls (f : KvField) : List JsonCall :=
  [.key (some f.key),
    match f.type with
    | .str => .string (some f.val)
    | .num => .number (some f.val)
    | .null => .null]

/-- The calls of `records_to_json` for one record. -/
def recordCalls (line : KvLine) : List JsonCall :=
  .beginObject :: .key (some tagKey) :: .string (some line.tag) ::
    (line.fields.flatMap fieldCalls ++ [.endObject])

/-- The loop of `records_to_json`: whether it ran to its end, and the writer.
Every round but the last takes a line. -/
def recordsFrom : ℕ → Bytes → JsonWriter → Bool × JsonWriter
  | 0, _, j => (true, j)
  | fuel + 1, cur, j =>
      match kvReplyNext cur with
      | (.record line, cur) =>
          if (kvGet line tagKey).isSome then (false, j)
          else recordsFrom fuel cur (run JsonWriter.exec j (recordCalls line))
      | _ => (true, j)

/-- `records_to_json`: the response, and the reason where it returns false. -/
def recordsToJson (r : ServerResponse) (reply : Bytes) : ServerResponse × Option Bytes :=
  let j := run JsonWriter.exec (jsonInit r.body)
    [.beginObject, .key (some (ascii "ok")), .bool true, .key (some (ascii "records")), .beginArray]
  match recordsFrom (reply.length + 1) reply j with
  | (false, j) => ({ r with body := j.buf }, some (ascii "source sent a field named tag"))
  | (true, j) =>
      let j := run JsonWriter.exec j [.endArray, .endObject]
      match jsonFinish j with
      | none => ({ r with body := j.buf }, some (ascii "response did not fit"))
      | some n => (⟨httpStatusOk, some applicationJson, j.buf, n⟩, none)

/-! ## The handler -/

/-- `api`: the paths, and the verb each stands for. -/
def api : List (Bytes × Bytes) :=
  [(ascii "/api/status", ascii "status"), (ascii "/api/verdicts", ascii "verdicts"),
    (ascii "/api/faults", ascii "faults"), (ascii "/api/series", seriesWord)]

/-- The request line of a route, or the reason the URL is refused. -/
def requestLine (verb query : Bytes) : Except Bytes Bytes :=
  if verb = seriesWord then buildSeries query
  else if query ≠ [] then .error (ascii "this route takes no query")
  else .ok verb

/-- What `route_handle` makes of the source's reply. -/
def answerReply (resp : ServerResponse) : Option Bytes → ServerResponse
  | none => setError resp httpStatusInternalError (ascii "internal") (ascii "reply did not fit")
  | some reply =>
      match kvReplyCheck reply with
      | .ok =>
          match recordsToJson resp reply with
          | (resp, none) => resp
          | (resp, some why) => setError resp httpStatusInternalError (ascii "internal") why
      | .err code reason => setError resp (statusForCode code) code reason
      | _ =>
          setError resp httpStatusInternalError (ascii "internal") (ascii "malformed source reply")

/-- `route_handle`: the response, and the lines sent to the source. `page` is
`page_html`. -/
def routeHandle (page : Bytes) (source : Bytes → Option Bytes) (req : HttpRequest)
    (resp : ServerResponse) : ServerResponse × List Bytes :=
  if req.path = ascii "/" then
    if req.query ≠ [] then
      (setText resp httpStatusBadRequest textPlain (ascii "bad request\n"), [])
    else (setText resp httpStatusOk (ascii "text/html; charset=utf-8") page, [])
  else if ¬ (ascii "/api/").isPrefixOf req.path then
    (setText resp httpStatusNotFound textPlain (ascii "not found\n"), [])
  else
    match api.lookup req.path with
    | none => (setError resp httpStatusNotFound (ascii "not_found") (ascii "no such route"), [])
    | some verb =>
        match requestLine verb req.query with
        | .error why => (setError resp httpStatusBadRequest (ascii "usage") why, [])
        | .ok line => (answerReply resp (source line), [line])

/-! ## The trees that bodies stand for -/

/-- `{"ok":false,"code":...,"reason":...}` -/
def errorJson (code reason : Bytes) : Json :=
  .obj [(ascii "ok", .bool false), (ascii "code", .str code), (ascii "reason", .str reason)]

/-- A value by its type. -/
def fieldJson (f : KvField) : Json :=
  match f.type with
  | .str => .str f.val
  | .num => .num f.val
  | .null => .null

/-- The members of a record's object: its tag, then its fields. -/
def recordMembers (line : KvLine) : List (Bytes × Json) :=
  (tagKey, .str line.tag) :: line.fields.map fun f => (f.key, fieldJson f)

/-- `{"ok":true,"records":[...]}` -/
def recordsJson (lines : List KvLine) : Json :=
  .obj [(ascii "ok", .bool true),
    (ascii "records", .arr (lines.map fun line => .obj (recordMembers line)))]

theorem treeCalls_errorJson (code reason : Bytes) :
    treeCalls (errorJson code reason) = errorCalls code reason := by
  simp only [errorJson, errorCalls, treeCalls, membersCalls, List.cons_append, List.nil_append]

theorem treeCalls_record (line : KvLine) :
    treeCalls (.obj (recordMembers line)) = recordCalls line := by
  have hfields : membersCalls (line.fields.map fun f => (f.key, fieldJson f)) =
      line.fields.flatMap fieldCalls := by
    induction line.fields with
    | nil => simp only [List.map_nil, membersCalls, List.flatMap_nil]
    | cons f fields ih =>
        have hvalue : JsonCall.key (some f.key) :: treeCalls (fieldJson f) = fieldCalls f := by
          unfold fieldJson fieldCalls
          cases f.type with
          | str => simp only [treeCalls]
          | num => simp only [treeCalls]
          | null => simp only [treeCalls]
        rw [List.map_cons, membersCalls, List.flatMap_cons, ih, ← hvalue, List.cons_append]
  simp only [recordMembers, recordCalls, treeCalls, membersCalls, hfields, List.cons_append,
    List.nil_append]

/-! ## Errors -/

/-- A code and a reason as the source may send them, or as `route_handle` has
them itself. -/
structure ErrorText (code reason : Bytes) : Prop where
  code_short : code.length < kvMaxCode
  reason_short : reason.length < kvMaxReason
  code_ascii : IsAscii code
  reason_ascii : IsAscii reason

theorem ErrorText.nests {code reason : Bytes} (h : ErrorText code reason) :
    Nests jsonMaxDepth (errorJson code reason) := by
  have hkeys : ∀ key ∈ [ascii "ok", ascii "code", ascii "reason"], IsAscii key := by decide
  refine .obj ?_ ?_
  · intro m hm
    exact hkeys m.1 (List.mem_map_of_mem hm)
  · rw [List.forall_mem_cons, List.forall_mem_cons, List.forall_mem_singleton]
    exact ⟨.bool _ _, .str _ h.code_ascii, .str _ h.reason_ascii⟩

/-- An error always fits. -/
theorem ErrorText.fits {code reason : Bytes} (h : ErrorText code reason) :
    (errorJson code reason).render.length < serverBodyMax := by
  have hcode := length_renderString_le code
  have hreason := length_renderString_le reason
  have hok := length_renderString_le (ascii "ok")
  have hcodeKey := length_renderString_le (ascii "code")
  have hreasonKey := length_renderString_le (ascii "reason")
  have hlens : (ascii "ok").length = 2 ∧ (ascii "code").length = 4 ∧
      (ascii "reason").length = 6 ∧ falseWord.length = 5 := by
    decide
  rcases hlens with ⟨hl1, hl2, hl3, hl4⟩
  have hshort := h.code_short
  have hshort' := h.reason_short
  simp only [errorJson, Json.render, renderMembers, List.length_cons, List.length_append,
    List.length_nil, serverBodyMax, kvMaxCode, kvMaxReason] at hshort hshort' ⊢
  omega

/-- `set_error` writes the error as JSON. -/
theorem setError_writes {r : ServerResponse} (hr : r.body.length = serverBodyMax) {code reason : Bytes}
    (h : ErrorText code reason) (status : ℤ) :
    (setError r status code reason).status = status ∧
    (setError r status code reason).ctype = some applicationJson ∧
    jsonParse (setError r status code reason).content = some (errorJson code reason) := by
  have hwrite := jsonFinish_treeCalls h.nests r.body
  rw [hr, if_pos h.fits, treeCalls_errorJson] at hwrite
  rcases hwrite with ⟨hfinish, htext, -⟩
  unfold setError
  dsimp only
  rw [hfinish]
  refine ⟨rfl, rfl, ?_⟩
  show jsonParse ((run JsonWriter.exec (jsonInit r.body) (errorCalls code reason)).buf.take _) = _
  rw [htext]
  exact jsonParse_render h.nests.plain

/-! ## Lines of a reply -/

/-- A line without the CR it may end in. -/
def stripCr (line : Bytes) : Bytes :=
  if line.getLast? = some 0x0D then line.dropLast else line

/-- The lines of a reply, each ended by a newline. -/
def replyLines (reply : Bytes) : List Bytes := ((reply.splitOn 0x0A).dropLast).map stripCr

/-- The records among the lines of a reply. -/
def replyRecords (reply : Bytes) : List KvLine :=
  (replyLines reply).filterMap fun line =>
    match kvParseLine line with
    | .record rec => some rec
    | _ => none

/-- `kv_reply_next` takes the lines one by one. -/
theorem kvReplyNext_cases (rest : Bytes) :
    (kvReplyNext rest = (.incomplete, rest) ∧ replyLines rest = []) ∨
    ∃ line rest', kvReplyNext rest = (kvParseLine line, rest') ∧
      replyLines rest = line :: replyLines rest' ∧ rest'.length < rest.length := by
  unfold kvReplyNext
  cases hnl : rest.idxOf? 0x0A with
  | none =>
      have hnot : 0x0A ∉ rest := List.idxOf?_eq_none_iff.mp hnl
      refine Or.inl ⟨rfl, ?_⟩
      rw [replyLines, List.splitOn_eq_singleton hnot]
      rfl
  | some i =>
      rcases idxOf?_eq_some_iff_split.mp hnl with ⟨line, rest', rfl, hnot, rfl⟩
      refine Or.inr ⟨stripCr line, rest', ?_, ?_, ?_⟩
      · simp only [take_drop_of_split, stripCr]
      · rw [replyLines, List.splitOn_append_cons_self_of_not_mem hnot,
          List.dropLast_cons_of_ne_nil (List.splitOn_ne_nil _ _), List.map_cons]
        rfl
      · rw [List.length_append, List.length_cons]
        omega

/-- A reply that is accepted is records and a terminator. -/
theorem replyCheckFrom_eq_ok {fuel : ℕ} {rest : Bytes} (h : replyCheckFrom fuel rest = .ok) :
    ∃ recs : List KvLine, (replyLines rest).map kvParseLine = recs.map KvKind.record ++ [.ok] := by
  induction fuel generalizing rest with
  | zero => cases h
  | succ fuel ih =>
      rw [replyCheckFrom] at h
      rcases kvReplyNext_cases rest with ⟨hnext, -⟩ | ⟨line, rest', hnext, hlines, -⟩
      · rw [hnext] at h
        cases h
      · rw [hnext] at h
        rw [hlines, List.map_cons]
        cases hk : kvParseLine line with
        | record rec =>
            rw [hk] at h
            rcases ih h with ⟨recs, hrecs⟩
            exact ⟨rec :: recs, by rw [hrecs, List.map_cons, List.cons_append]⟩
        | ok =>
            rw [hk] at h
            -- `ok` counts only as the last line
            by_cases hend : rest' = []
            · subst hend
              exact ⟨[], rfl⟩
            · have hbad := (if_pos hend).symm.trans h
              cases hbad
        | err code reason =>
            rw [hk] at h
            dsimp only at h
            split_ifs at h
        | bad =>
            rw [hk] at h
            cases h
        | incomplete =>
            rw [hk] at h
            cases h

theorem replyRecords_eq {reply : Bytes} {recs : List KvLine}
    (h : (replyLines reply).map kvParseLine = recs.map KvKind.record ++ [.ok]) :
    replyRecords reply = recs := by
  have hmap : replyRecords reply = ((replyLines reply).map kvParseLine).filterMap fun
      | .record rec => some rec
      | _ => none := by
    rw [List.filterMap_map]
    rfl
  rw [hmap, h, List.filterMap_append, List.filterMap_map]
  show (recs.filterMap some) ++ [] = recs
  rw [List.filterMap_some, List.append_nil]

/-- An accepted refusal is one the parser read. -/
theorem replyCheckFrom_eq_err {fuel : ℕ} {rest code reason : Bytes}
    (h : replyCheckFrom fuel rest = .err code reason) :
    ∃ line, kvParseLine line = .err code reason := by
  induction fuel generalizing rest with
  | zero => cases h
  | succ fuel ih =>
      rw [replyCheckFrom] at h
      rcases kvReplyNext_cases rest with ⟨hnext, -⟩ | ⟨line, rest', hnext, -, -⟩
      · rw [hnext] at h
        cases h
      · rw [hnext] at h
        cases hk : kvParseLine line with
        | record rec =>
            rw [hk] at h
            exact ih h
        | ok =>
            rw [hk] at h
            dsimp only at h
            split_ifs at h
        | err code' reason' =>
            rw [hk] at h
            dsimp only at h
            split_ifs at h
            exact ⟨line, hk.trans h⟩
        | bad =>
            rw [hk] at h
            cases h
        | incomplete =>
            rw [hk] at h
            cases h

theorem IsPrintable.ascii {s : Bytes} (h : ∀ c ∈ s, IsPrintable c) : IsAscii s := by
  intro c hc
  exact UInt8.lt_trans (h c hc).2 (by decide)

/-- What the source may say in an `err` line fits an error. -/
theorem errorText_of_err {reply code reason : Bytes} (h : kvReplyCheck reply = .err code reason) :
    ErrorText code reason := by
  rcases replyCheckFrom_eq_err h with ⟨line, hline⟩
  rcases (kvParseLine_eq_err_iff line code reason).mp hline with ⟨hcode, hreason⟩
  rcases hreason with ⟨rfl, -⟩ | ⟨hreason, -⟩
  · exact ⟨hcode.2.1, by decide, IsPrintable.ascii hcode.printable, isAscii_nil⟩
  · exact ⟨hcode.2.1, hreason.short, IsPrintable.ascii hcode.printable,
      IsPrintable.ascii hreason.printable⟩

/-! ## Records -/

theorem wf_of_mem_records {reply : Bytes} {recs : List KvLine}
    (h : (replyLines reply).map kvParseLine = recs.map KvKind.record ++ [.ok]) :
    ∀ rec ∈ recs, rec.Wf := by
  intro rec hrec
  have hin : KvKind.record rec ∈ (replyLines reply).map kvParseLine := by
    rw [h]
    exact List.mem_append_left _ (List.mem_map_of_mem hrec)
  rcases List.mem_map.mp hin with ⟨line, -, hline⟩
  exact ((kvParseLine_eq_record_iff line rec).mp hline).1

theorem KvLine.Wf.nests {rec : KvLine} (h : rec.Wf) (d : ℕ) :
    Nests (d + 1) (.obj (recordMembers rec)) := by
  have htag : IsAscii rec.tag := IsPrintable.ascii h.tag.printable
  refine .obj ?_ ?_
  · refine List.forall_mem_cons.mpr ⟨(by decide : IsAscii tagKey), ?_⟩
    intro m hm
    rcases List.mem_map.mp hm with ⟨f, hf, rfl⟩
    exact IsPrintable.ascii (h.fields.names f hf).printable
  · refine List.forall_mem_cons.mpr ⟨.str d htag, ?_⟩
    intro m hm
    rcases List.mem_map.mp hm with ⟨f, hf, rfl⟩
    have hval := h.fields.values f hf
    unfold KvField.ValueOk at hval
    show Nests d (fieldJson f)
    unfold fieldJson
    cases htype : f.type with
    | str =>
        rw [htype] at hval
        exact .str d (IsPrintable.ascii fun c hc => (hval.2 c hc).1)
    | num =>
        rw [htype] at hval
        exact .num d hval.2
    | null => exact .null d

theorem recordsJson_nests {recs : List KvLine} (h : ∀ rec ∈ recs, rec.Wf) :
    Nests jsonMaxDepth (recordsJson recs) := by
  have hkeys : ∀ key ∈ [ascii "ok", ascii "records"], IsAscii key := by decide
  refine .obj ?_ ?_
  · intro m hm
    exact hkeys m.1 (List.mem_map_of_mem hm)
  · rw [List.forall_mem_cons, List.forall_mem_singleton]
    refine ⟨.bool _ _, .arr ?_⟩
    intro v hv
    rcases List.mem_map.mp hv with ⟨rec, hrec, rfl⟩
    exact (h rec hrec).nests 5

theorem tagKey_not_mem {rec : KvLine} (h : kvGet rec tagKey = none) :
    tagKey ∉ rec.fields.map KvField.key := by
  intro hin
  rcases List.mem_map.mp hin with ⟨f, hf, hkey⟩
  rw [kvGet, Option.map_eq_none_iff, List.find?_eq_none] at h
  exact h f hf (beq_iff_eq.mpr hkey)

/-- The keys of a record's object are distinct. -/
theorem nodup_recordMembers {rec : KvLine} (hwf : rec.Wf) (htag : kvGet rec tagKey = none) :
    ((recordMembers rec).map Prod.fst).Nodup := by
  have hkeys : (recordMembers rec).map Prod.fst = tagKey :: rec.fields.map KvField.key := by
    rw [recordMembers, List.map_cons, List.map_map]
    rfl
  rw [hkeys, List.nodup_cons]
  exact ⟨tagKey_not_mem htag, hwf.fields.distinct⟩

/-- The loop writes the items of the array, or stops at a field named tag. -/
theorem recordsFrom_eq {fuel : ℕ} {rest : Bytes} {recs : List KvLine} (j : JsonWriter)
    (h : (replyLines rest).map kvParseLine = recs.map KvKind.record ++ [.ok])
    (hfuel : rest.length < fuel) :
    if ∀ rec ∈ recs, kvGet rec tagKey = none then
      recordsFrom fuel rest j =
        (true, run JsonWriter.exec j (itemsCalls (recs.map fun rec => .obj (recordMembers rec))))
    else ∃ j', recordsFrom fuel rest j = (false, j') ∧ j'.cap = j.cap := by
  induction fuel generalizing rest recs j with
  | zero => omega
  | succ fuel ih =>
      rw [recordsFrom]
      rcases kvReplyNext_cases rest with ⟨-, hlines⟩ | ⟨line, rest', hnext, hlines, hlen⟩
      -- no line is left, but the terminator is one
      · rw [hlines] at h
        have hlast := congrArg List.length h
        rw [List.length_append, List.length_singleton] at hlast
        exact absurd hlast (by simp)
      · rw [hlines, List.map_cons] at h
        rw [hnext]
        cases recs with
        | nil =>
            rw [List.map_nil, List.nil_append, List.cons.injEq] at h
            rw [h.1, if_pos (fun rec hrec => absurd hrec List.not_mem_nil), List.map_nil, itemsCalls]
            rfl
        | cons rec recs =>
            rw [List.map_cons, List.cons_append, List.cons.injEq] at h
            rw [h.1]
            dsimp only
            cases htag : kvGet rec tagKey with
            | some v =>
                rw [if_neg (by simp [htag])]
                exact ⟨j, rfl, rfl⟩
            | none =>
                -- the first record is written, and the rest starts behind it
                have hrest := ih (run JsonWriter.exec j (recordCalls rec)) h.2 (by omega)
                have hall : (∀ r ∈ rec :: recs, kvGet r tagKey = none) ↔
                    ∀ r ∈ recs, kvGet r tagKey = none := by
                  rw [List.forall_mem_cons]
                  exact and_iff_right htag
                simp only [hall, Option.isSome_none, Bool.false_eq_true, if_false]
                split_ifs at hrest ⊢ with hno
                · rw [hrest, List.map_cons, itemsCalls, run_append, treeCalls_record]
                · rcases hrest with ⟨j', hj', hcap⟩
                  exact ⟨j', hj', hcap.trans (cap_run j _)⟩

theorem treeCalls_recordsJson (recs : List KvLine) :
    treeCalls (recordsJson recs) =
      [.beginObject, .key (some (ascii "ok")), .bool true, .key (some (ascii "records")),
        .beginArray] ++
      (itemsCalls (recs.map fun rec => .obj (recordMembers rec)) ++ [.endArray, .endObject]) := by
  simp only [recordsJson, treeCalls, membersCalls, List.cons_append, List.nil_append,
    List.append_assoc, List.append_nil]

/-- Records that can be shown: none has a field named tag, and their text fits. -/
structure Showable (recs : List KvLine) : Prop where
  untagged : ∀ rec ∈ recs, kvGet rec tagKey = none
  fits : (recordsJson recs).render.length < serverBodyMax

/-- `records_to_json` writes the records as JSON. -/
theorem recordsToJson_writes {r : ServerResponse} (hr : r.body.length = serverBodyMax)
    {reply : Bytes} {recs : List KvLine}
    (h : (replyLines reply).map kvParseLine = recs.map KvKind.record ++ [.ok])
    (hshow : Showable recs) :
    ∃ out, recordsToJson r reply = (out, none) ∧ out.status = httpStatusOk ∧
      out.ctype = some applicationJson ∧ jsonParse out.content = some (recordsJson recs) := by
  have hnests := recordsJson_nests (wf_of_mem_records h)
  have hwrite := jsonFinish_treeCalls hnests r.body
  rw [hr, if_pos hshow.fits, treeCalls_recordsJson, run_append, run_append] at hwrite
  rcases hwrite with ⟨hfinish, htext, -⟩
  have hloop := recordsFrom_eq (run JsonWriter.exec (jsonInit r.body)
    [.beginObject, .key (some (ascii "ok")), .bool true, .key (some (ascii "records")),
      .beginArray]) h (Nat.lt_succ_self _)
  rw [if_pos hshow.untagged] at hloop
  unfold recordsToJson
  dsimp only
  rw [hloop]
  dsimp only
  rw [hfinish]
  refine ⟨_, rfl, rfl, rfl, ?_⟩
  show jsonParse (List.take _ _) = _
  rw [htext]
  exact jsonParse_render hnests.plain

/-- Where it cannot, it says why, and has written to the buffer only. -/
theorem recordsToJson_refuses {r : ServerResponse} (hr : r.body.length = serverBodyMax)
    {reply : Bytes} {recs : List KvLine}
    (h : (replyLines reply).map kvParseLine = recs.map KvKind.record ++ [.ok])
    (hshow : ¬ Showable recs) :
    ∃ out why, recordsToJson r reply = (out, some why) ∧ out.body.length = serverBodyMax ∧
      why ∈ [ascii "source sent a field named tag", ascii "response did not fit"] := by
  have hstart : (run JsonWriter.exec (jsonInit r.body)
      [.beginObject, .key (some (ascii "ok")), .bool true, .key (some (ascii "records")),
        .beginArray]).cap = serverBodyMax := by
    rw [cap_run, cap_jsonInit, hr]
  have hloop := recordsFrom_eq (run JsonWriter.exec (jsonInit r.body)
    [.beginObject, .key (some (ascii "ok")), .bool true, .key (some (ascii "records")),
      .beginArray]) h (Nat.lt_succ_self _)
  unfold recordsToJson
  dsimp only
  by_cases htags : ∀ rec ∈ recs, kvGet rec tagKey = none
  · -- the array is whole, so it is the room that was missing
    have hlong : ¬ (recordsJson recs).render.length < serverBodyMax := fun hfits =>
      hshow ⟨htags, hfits⟩
    have hwrite := jsonFinish_treeCalls (recordsJson_nests (wf_of_mem_records h)) r.body
    rw [hr, if_neg hlong, treeCalls_recordsJson, run_append, run_append] at hwrite
    rw [if_pos htags] at hloop
    rw [hloop]
    dsimp only
    rw [hwrite]
    refine ⟨_, _, rfl, ?_, List.mem_cons_of_mem _ List.mem_cons_self⟩
    exact (cap_run _ _).trans ((cap_run _ _).trans hstart)
  · rw [if_neg htags] at hloop
    rcases hloop with ⟨j', hj', hcap⟩
    rw [hj']
    exact ⟨_, _, rfl, hcap.trans hstart, List.mem_cons_self⟩

/-! ## What becomes of a reply -/

/-- The reasons `route_handle` gives for a reply it cannot show. -/
def internalReasons : List Bytes :=
  [ascii "reply did not fit", ascii "malformed source reply", ascii "source sent a field named tag",
    ascii "response did not fit"]

theorem errorText_internal {why : Bytes} (h : why ∈ internalReasons) :
    ErrorText (ascii "internal") why := by
  have hall : ∀ w ∈ internalReasons, w.length < kvMaxReason ∧ IsAscii w := by decide
  exact ⟨by decide, (hall why h).1, by decide, (hall why h).2⟩

/-- A reply of records, shown. -/
theorem answerReply_showable {resp : ServerResponse} (hresp : resp.body.length = serverBodyMax)
    {reply : Bytes} (hok : kvReplyCheck reply = .ok) (hshow : Showable (replyRecords reply)) :
    (answerReply resp (some reply)).status = httpStatusOk ∧
    (answerReply resp (some reply)).ctype = some applicationJson ∧
    jsonParse (answerReply resp (some reply)).content = some (recordsJson (replyRecords reply)) := by
  rcases replyCheckFrom_eq_ok hok with ⟨recs, hrecs⟩
  rw [replyRecords_eq hrecs] at hshow ⊢
  rcases recordsToJson_writes hresp hrecs hshow with ⟨out, hout, hwritten⟩
  unfold answerReply
  dsimp only
  rw [hok]
  dsimp only
  rw [hout]
  exact hwritten

/-- A refusal of the source, passed on. -/
theorem answerReply_err {resp : ServerResponse} (hresp : resp.body.length = serverBodyMax)
    {reply code reason : Bytes} (herr : kvReplyCheck reply = .err code reason) :
    (answerReply resp (some reply)).status = statusForCode code ∧
    (answerReply resp (some reply)).ctype = some applicationJson ∧
    jsonParse (answerReply resp (some reply)).content = some (errorJson code reason) := by
  unfold answerReply
  dsimp only
  rw [herr]
  exact setError_writes hresp (errorText_of_err herr) _

/-- What the source returned is no reply, or one that cannot be shown. -/
def Unshowable : Option Bytes → Prop
  | none => True
  | some reply =>
      (kvReplyCheck reply ≠ .ok ∧ ∀ code reason, kvReplyCheck reply ≠ .err code reason) ∨
      (kvReplyCheck reply = .ok ∧ ¬ Showable (replyRecords reply))

theorem answerReply_unshowable {resp : ServerResponse} (hresp : resp.body.length = serverBodyMax)
    {reply : Option Bytes} (h : Unshowable reply) :
    (answerReply resp reply).status = httpStatusInternalError ∧
    (answerReply resp reply).ctype = some applicationJson ∧
    ∃ why ∈ internalReasons,
      jsonParse (answerReply resp reply).content = some (errorJson (ascii "internal") why) := by
  -- every case is one more error, into a buffer of the same size
  have herror : ∀ (r : ServerResponse) (why : Bytes), r.body.length = serverBodyMax →
      why ∈ internalReasons →
      (setError r httpStatusInternalError (ascii "internal") why).status =
        httpStatusInternalError ∧
      (setError r httpStatusInternalError (ascii "internal") why).ctype = some applicationJson ∧
      ∃ why' ∈ internalReasons,
        jsonParse (setError r httpStatusInternalError (ascii "internal") why).content =
          some (errorJson (ascii "internal") why') := by
    intro r why hr hwhy
    rcases setError_writes hr (errorText_internal hwhy) httpStatusInternalError with
      ⟨hstatus, hctype, hbody⟩
    exact ⟨hstatus, hctype, why, hwhy, hbody⟩
  cases reply with
  | none => exact herror resp _ hresp (by decide)
  | some reply =>
      rcases h with ⟨hok, herr⟩ | ⟨hok, hshow⟩
      · unfold answerReply
        dsimp only
        cases hk : kvReplyCheck reply with
        | ok => exact absurd hk hok
        | err code reason => exact absurd hk (herr code reason)
        | record rec => exact herror resp _ hresp (by decide)
        | bad => exact herror resp _ hresp (by decide)
        | incomplete => exact herror resp _ hresp (by decide)
      · rcases replyCheckFrom_eq_ok hok with ⟨recs, hrecs⟩
        rw [replyRecords_eq hrecs] at hshow
        rcases recordsToJson_refuses hresp hrecs hshow with ⟨out, why, hout, hlen, hwhy⟩
        unfold answerReply
        dsimp only
        rw [hok]
        dsimp only
        rw [hout]
        exact herror out why hlen (List.mem_cons_of_mem _ (List.mem_cons_of_mem _ hwhy))

/-- A line is sent where the answer is made from the reply to it. -/
theorem routeHandle_of_sent {page : Bytes} {source : Bytes → Option Bytes} {req : HttpRequest}
    {resp : ServerResponse} {line : Bytes} (h : (routeHandle page source req resp).2 = [line]) :
    (routeHandle page source req resp).1 = answerReply resp (source line) := by
  unfold routeHandle at h ⊢
  by_cases hroot : req.path = ascii "/"
  · rw [if_pos hroot] at h
    split_ifs at h
  · rw [if_neg hroot] at h ⊢
    by_cases hapi : ¬ (ascii "/api/").isPrefixOf req.path
    · rw [if_pos hapi] at h
      cases h
    · rw [if_neg hapi] at h ⊢
      cases hpath : api.lookup req.path with
      | none =>
          rw [hpath] at h
          cases h
      | some verb =>
          rw [hpath] at h
          dsimp only at h ⊢
          cases hline : requestLine verb req.query with
          | error why =>
              rw [hline] at h
              cases h
          | ok line' =>
              rw [hline] at h
              have hsame : line' = line := (List.cons.inj h).1
              rw [hsame]

/-- Whatever the source returns to a request that reaches it, the body is one
JSON object: its records with their types, its own refusal, or an internal
error. -/
theorem routeHandle_converts (page : Bytes) (source : Bytes → Option Bytes) (req : HttpRequest)
    (resp : ServerResponse) (line : Bytes) (hresp : resp.body.length = serverBodyMax)
    (hreach : (routeHandle page source req resp).2 = [line]) :
    (routeHandle page source req resp).1.ctype = some applicationJson ∧
    (∃ members, jsonParse (routeHandle page source req resp).1.content = some (.obj members)) ∧
    (∀ reply, source line = some reply → kvReplyCheck reply = .ok → Showable (replyRecords reply) →
      (routeHandle page source req resp).1.status = httpStatusOk ∧
      jsonParse (routeHandle page source req resp).1.content =
        some (recordsJson (replyRecords reply)) ∧
      (replyLines reply).map kvParseLine =
        (replyRecords reply).map KvKind.record ++ [KvKind.ok] ∧
      ∀ rec ∈ replyRecords reply, ((recordMembers rec).map Prod.fst).Nodup) ∧
    (∀ reply code reason, source line = some reply → kvReplyCheck reply = .err code reason →
      (routeHandle page source req resp).1.status = statusForCode code ∧
      jsonParse (routeHandle page source req resp).1.content = some (errorJson code reason)) ∧
    (Unshowable (source line) →
      (routeHandle page source req resp).1.status = httpStatusInternalError ∧
      ∃ why, jsonParse (routeHandle page source req resp).1.content =
        some (errorJson (ascii "internal") why)) := by
  rw [routeHandle_of_sent hreach]
  -- what the source says can be shown, is a refusal, or is neither: an object in
  -- each case
  have hobject : (answerReply resp (source line)).ctype = some applicationJson ∧
      ∃ members, jsonParse (answerReply resp (source line)).content = some (.obj members) := by
    by_cases hun : Unshowable (source line)
    · rcases answerReply_unshowable hresp hun with ⟨-, hctype, why, -, hbody⟩
      exact ⟨hctype, _, hbody⟩
    · cases hreply : source line with
      | none =>
          rw [hreply] at hun
          exact absurd trivial hun
      | some reply =>
          rw [hreply] at hun
          by_cases hok : kvReplyCheck reply = .ok
          · have hshow : Showable (replyRecords reply) := by
              by_contra hnot
              exact hun (Or.inr ⟨hok, hnot⟩)
            rcases answerReply_showable hresp hok hshow with ⟨-, hctype, hbody⟩
            exact ⟨hctype, _, hbody⟩
          · have herr : ∃ code reason, kvReplyCheck reply = .err code reason := by
              by_contra hnot
              push Not at hnot
              exact hun (Or.inl ⟨hok, hnot⟩)
            rcases herr with ⟨code, reason, herr⟩
            rcases answerReply_err hresp herr with ⟨-, hctype, hbody⟩
            exact ⟨hctype, _, hbody⟩
  refine ⟨hobject.1, hobject.2, ?_, ?_, ?_⟩
  · intro reply hreply hok hshow
    rcases replyCheckFrom_eq_ok hok with ⟨recs, hrecs⟩
    have hrecords := replyRecords_eq hrecs
    rw [hreply]
    rcases answerReply_showable hresp hok hshow with ⟨hstatus, -, hbody⟩
    rw [← hrecords] at hrecs
    refine ⟨hstatus, hbody, hrecs, ?_⟩
    intro rec hrec
    exact nodup_recordMembers (wf_of_mem_records hrecs rec hrec) (hshow.untagged rec hrec)
  · intro reply code reason hreply herr
    rw [hreply]
    rcases answerReply_err hresp herr with ⟨hstatus, -, hbody⟩
    exact ⟨hstatus, hbody⟩
  · intro hun
    rcases answerReply_unshowable hresp hun with ⟨hstatus, -, why, -, hbody⟩
    exact ⟨hstatus, why, hbody⟩

/-- A reply with a field of each type, as in the tests of the routes. -/
def sampleReply : Bytes := ascii "rec a=\"x\" n=1.5 z=null\nok\n"

/-- The record in it. -/
def sampleRecord : KvLine :=
  ⟨ascii "rec", [⟨ascii "a", ascii "x", .str⟩, ⟨ascii "n", ascii "1.5", .num⟩,
    ⟨ascii "z", ascii "null", .null⟩]⟩

/-- A response as `dispatch` presets it. -/
def freshResponse : ServerResponse :=
  ⟨httpStatusInternalError, some textPlain, List.replicate serverBodyMax 0, 0⟩

theorem length_freshResponse : freshResponse.body.length = serverBodyMax := List.length_replicate

theorem routeHandle_converts_sample :
    (routeHandle [] (fun _ => some sampleReply) ⟨ascii "/api/status", []⟩ freshResponse).2 =
      [ascii "status"] ∧
    (routeHandle [] (fun _ => some sampleReply) ⟨ascii "/api/status", []⟩ freshResponse).1.status =
      httpStatusOk ∧
    jsonParse (routeHandle [] (fun _ => some sampleReply) ⟨ascii "/api/status", []⟩
      freshResponse).1.content = some (recordsJson [sampleRecord]) := by
  have hsent : ∀ resp, (routeHandle [] (fun _ => some sampleReply) ⟨ascii "/api/status", []⟩
      resp).2 = [ascii "status"] := fun _ => rfl
  have hok : kvReplyCheck sampleReply = .ok := by decide +kernel
  have hrecords : replyRecords sampleReply = [sampleRecord] := by decide +kernel
  have hshow : Showable (replyRecords sampleReply) := by
    rw [hrecords]
    exact ⟨by decide +kernel, by decide +kernel⟩
  rcases routeHandle_converts [] (fun _ => some sampleReply) ⟨ascii "/api/status", []⟩
    freshResponse (ascii "status") length_freshResponse (hsent _) with ⟨-, -, hconv, -, -⟩
  rcases hconv sampleReply rfl hok hshow with ⟨hstatus, hbody, -, -⟩
  rw [hrecords] at hbody
  exact ⟨hsent _, hstatus, hbody⟩

/-! ## What reaches the source -/

/-- The reasons `build_series` gives. -/
def seriesRefusals : List Bytes :=
  [ascii "unknown query key", ascii "repeated query key", ascii "empty query pair",
    ascii "bad query value", ascii "unsafe query value", ascii "query too long"]

/-- The refusal for a line that is too long. -/
def tooLong : Bytes := ascii "query too long"

theorem checkKeysFrom_error_mem {fuel : ℕ} {p why : Bytes} {seen : List Bytes}
    (h : checkKeysFrom fuel p seen = .error why) : why ∈ seriesRefusals ∧ why ≠ tooLong := by
  induction fuel generalizing p seen with
  | zero => cases h
  | succ fuel ih =>
      rw [checkKeysFrom] at h
      by_cases hp : p = []
      · rw [if_pos hp] at h
        cases h
      · rw [if_neg hp] at h
        dsimp only at h
        split at h
        · rw [← Except.error.inj h]
          decide
        · split at h
          · rw [← Except.error.inj h]
            decide
          · split at h
            · cases h
            · rw [← Except.error.inj h]
              decide
            · exact ih h

/-- A line has room for every key there is, so none is refused for length. -/
theorem buildSeriesFrom_error_mem {query why line : Bytes} {seen keys : List Bytes}
    (hkeys : ∀ key ∈ keys, key ∈ seriesKeys) (hroom : line.length + 32 * keys.length < routeLineMax)
    (h : buildSeriesFrom query seen keys line = .error why) :
    why ∈ seriesRefusals ∧ why ≠ tooLong := by
  induction keys generalizing line with
  | nil => cases h
  | cons key keys ih =>
      have hrest : ∀ k ∈ keys, k ∈ seriesKeys := fun k hk => hkeys k (List.mem_cons_of_mem key hk)
      rw [List.length_cons] at hroom
      rw [buildSeriesFrom] at h
      by_cases hseen : key ∈ seen
      · rw [if_neg (not_not.mpr hseen)] at h
        cases hv : httpQueryGet query key httpQueryMax with
        | none =>
            rw [hv] at h
            rw [← Except.error.inj h]
            decide
        | some v =>
            simp only [hv] at h
            split_ifs at h with hsafe hlong
            · rw [← Except.error.inj h]
              decide
            -- a key and its value take 32 bytes at most, and there is room for all
            · have hlen : (keyValue (decide (key ≠ pidKey) && v.all isDigit) key v).length ≤ 32 :=
                length_keyValue_le (hkeys key List.mem_cons_self)
                  (safeValue_bounds (by simpa using hsafe)).2.1
              omega
            · have hlen : (keyValue (decide (key ≠ pidKey) && v.all isDigit) key v).length ≤ 32 :=
                length_keyValue_le (hkeys key List.mem_cons_self)
                  (safeValue_bounds (by simpa using hsafe)).2.1
              exact ih hrest (by rw [List.length_append]; omega) h
      · rw [if_pos hseen] at h
        exact ih hrest (by omega) h

theorem buildSeries_error_mem {query why : Bytes} (h : buildSeries query = .error why) :
    why ∈ seriesRefusals ∧ why ≠ tooLong := by
  unfold buildSeries at h
  cases hkeys : checkKeys query with
  | error why' =>
      rw [hkeys] at h
      rw [← Except.error.inj h]
      exact checkKeysFrom_error_mem hkeys
  | ok seen =>
      rw [hkeys] at h
      exact buildSeriesFrom_error_mem (fun _ hkey => hkey) (by decide) h

theorem errorText_usage {why : Bytes} (h : why ∈ seriesRefusals) : ErrorText (ascii "usage") why := by
  have hall : ∀ w ∈ seriesRefusals, w.length < kvMaxReason ∧ IsAscii w := by decide
  exact ⟨by decide, (hall why h).1, by decide, (hall why h).2⟩

theorem routeHandle_series (page : Bytes) (source : Bytes → Option Bytes) (query : Bytes)
    (resp : ServerResponse) :
    routeHandle page source ⟨ascii "/api/series", query⟩ resp =
      match buildSeries query with
      | .error why => (setError resp httpStatusBadRequest (ascii "usage") why, [])
      | .ok line => (answerReply resp (source line), [line]) := rfl

/-- A query of `/api/series` is refused, or the source is sent the typed
request it stands for, exactly when it holds no `from` or `to` that is digits
with a zero before them. -/
theorem series_request_iff (page : Bytes) (source : Bytes → Option Bytes) (query : Bytes)
    (resp : ServerResponse) (hresp : resp.body.length = serverBodyMax) :
    ((routeHandle page source ⟨ascii "/api/series", query⟩ resp).1.status = httpStatusBadRequest ∧
        (routeHandle page source ⟨ascii "/api/series", query⟩ resp).2 = [] ∨
      ∃ line, (routeHandle page source ⟨ascii "/api/series", query⟩ resp).2 = [line] ∧
        kvParseLine line = .record ⟨seriesWord, seriesFields query⟩) ↔
    (SeriesQuery query →
      ∀ key ∈ [fromKey, toKey], ∀ v, queryValue query key = some v → ¬ LeadingZero v) := by
  rw [routeHandle_series]
  constructor
  · intro h hq
    rw [← kvParseLine_seriesLine_iff hq]
    rw [buildSeries_eq_ok hq] at h
    rcases h with ⟨-, hnone⟩ | ⟨line, hsent, hline⟩
    · cases hnone
    · rw [(List.cons.inj hsent).1]
      exact hline
  · intro h
    cases hbuild : buildSeries query with
    | error why =>
        have htext := errorText_usage (buildSeries_error_mem hbuild).1
        exact Or.inl ⟨(setError_writes hresp htext httpStatusBadRequest).1, rfl⟩
    | ok line =>
        have hq := seriesQuery_of_ok hbuild
        rw [buildSeries_eq_ok hq] at hbuild
        rw [← Except.ok.inj hbuild]
        exact Or.inr ⟨_, rfl, (kvParseLine_seriesLine_iff hq).mpr (h hq)⟩

/-- The window of the tests reaches the source as it should. -/
theorem series_request_window :
    freshResponse.body.length = serverBodyMax ∧
    (SeriesQuery (ascii "to=now&from=1799999700&pid=0%43") →
      ∀ key ∈ [fromKey, toKey], ∀ v,
        queryValue (ascii "to=now&from=1799999700&pid=0%43") key = some v → ¬ LeadingZero v) := by
  have hsent : ∀ resp, (routeHandle [] (fun _ => none)
      ⟨ascii "/api/series", ascii "to=now&from=1799999700&pid=0%43"⟩ resp).2 =
      [ascii "series pid=\"0C\" from=1799999700 to=\"now\""] := by
    intro resp
    rw [routeHandle_series]
    have hbuild : buildSeries (ascii "to=now&from=1799999700&pid=0%43") =
        .ok (ascii "series pid=\"0C\" from=1799999700 to=\"now\"") := by
      decide +kernel
    rw [hbuild]
  have hline : kvParseLine (ascii "series pid=\"0C\" from=1799999700 to=\"now\"") =
      .record ⟨seriesWord, seriesFields (ascii "to=now&from=1799999700&pid=0%43")⟩ := by
    decide +kernel
  exact ⟨length_freshResponse, (series_request_iff [] (fun _ => none)
    (ascii "to=now&from=1799999700&pid=0%43") freshResponse length_freshResponse).mp
    (Or.inr ⟨_, hsent _, hline⟩)⟩

/-- `from=007` does not: what the source is sent is no request at all. -/
theorem series_request_zero :
    (routeHandle [] (fun _ => none) ⟨ascii "/api/series", ascii "from=007"⟩ freshResponse).2 =
      [ascii "series from=007"] ∧
    kvParseLine (ascii "series from=007") = .bad ∧
    ¬ ((routeHandle [] (fun _ => none) ⟨ascii "/api/series", ascii "from=007"⟩
          freshResponse).1.status = httpStatusBadRequest ∧
        (routeHandle [] (fun _ => none) ⟨ascii "/api/series", ascii "from=007"⟩ freshResponse).2 =
          [] ∨
      ∃ line, (routeHandle [] (fun _ => none) ⟨ascii "/api/series", ascii "from=007"⟩
          freshResponse).2 = [line] ∧
        kvParseLine line = .record ⟨seriesWord, seriesFields (ascii "from=007")⟩) := by
  have hsent : ∀ resp, (routeHandle [] (fun _ => none) ⟨ascii "/api/series", ascii "from=007"⟩
      resp).2 = [ascii "series from=007"] := by
    intro resp
    have hbuild : buildSeries (ascii "from=007") = .ok (ascii "series from=007") := by
      decide +kernel
    rw [routeHandle_series, hbuild]
  have hbad : kvParseLine (ascii "series from=007") = .bad := by decide +kernel
  refine ⟨hsent _, hbad, ?_⟩
  rw [hsent]
  rintro (⟨-, hnone⟩ | ⟨line, hline, hrecord⟩)
  · cases hnone
  · rw [← (List.cons.inj hline).1, hbad] at hrecord
    cases hrecord

end Carwatch.Interface
