import Carwatch.Interface.Delivery
import Carwatch.Interface.Room

/-!
# Carwatch.Interface.Statusd — the daemon as a whole (`src/interface/statusd_main.c`)

`main` puts the parts together: the connection loop with `route_handle` for
its handler, and behind that the synthetic source, moved to the time of each
request.

* `clockedQuery`, `statusdHandle` — the source and the handler;
* `Answer` — what a client may be told;
* `routeHandle_synth` — and is told, for every request;
* `statusd_answers` — on every connection of every run.
-/

namespace Carwatch.Interface

open Carwatch.Lib

/-! ## The handler -/

section Handler

variable (page : Bytes) (d : Doubles) (rounds : ℕ) (t0 : UInt64)

/-- `clocked_query` at the time `wall`, into `reply` of `route_ctx_t`. -/
def clockedQuery (wall : UInt64) (buf line : Bytes) : Option Bytes :=
  (synthQuery d rounds ⟨t0, wall⟩ line buf).bind fun ans => ans.ret.map fun n => ans.out.take n

/-- `route_handle` as `main` sets it up. -/
def statusdHandle (wall : UInt64) (buf : Bytes) (req : HttpRequest) (resp : ServerResponse) :
    ServerResponse :=
  (routeHandle page (clockedQuery d rounds t0 wall buf) req resp).1

end Handler

/-- The type of the page. -/
def textHtml : Bytes := ascii "text/html; charset=utf-8"

/-- What a client may be told. -/
inductive Answer (page : Bytes) (req : HttpRequest) (r : ServerResponse) : Prop where
  /-- The page. -/
  | page (hpath : req.path = ascii "/") (hquery : req.query = []) (hstatus : r.status = httpStatusOk)
      (hctype : r.ctype = some textHtml) (hcontent : r.content = page)
  /-- A refusal of a request that is not for the API. -/
  | text (hpath : (ascii "/api/").isPrefixOf req.path = false)
      (hstatus : r.status = httpStatusBadRequest ∨ r.status = httpStatusNotFound)
      (hctype : r.ctype = some textPlain)
  /-- Records of the source. -/
  | records (recs : List KvLine) (hpath : (api.lookup req.path).isSome) (hsrc : ∀ rec ∈ recs, Synthetic rec)
      (hstatus : r.status = httpStatusOk) (hctype : r.ctype = some applicationJson)
      (hcontent : jsonParse r.content = some (recordsJson recs))
  /-- A refusal of a request for the API. -/
  | error (code reason : Bytes) (hpath : (ascii "/api/").isPrefixOf req.path = true)
      (hstatus : r.status = httpStatusBadRequest ∨ r.status = httpStatusNotFound)
      (hctype : r.ctype = some applicationJson)
      (hcontent : jsonParse r.content = some (errorJson code reason))

/-! ## Responses keep to their buffer -/

theorem length_of_jsonFinish {buf : Bytes} {cs : List JsonCall} {n : ℕ}
    (h : jsonFinish (run JsonWriter.exec (jsonInit buf) cs) = some n) : n < buf.length := by
  obtain ⟨pos, text, -, -, rfl, hj⟩ := holds_of_jsonFinish h
  exact hj.lt

theorem bodyLen_setError {r : ServerResponse} (hr : r.body.length = serverBodyMax) (status : ℤ)
    (code reason : Bytes) : (setError r status code reason).bodyLen ≤ serverBodyMax := by
  unfold setError
  dsimp only
  cases hfinish : jsonFinish (run JsonWriter.exec (jsonInit r.body) (errorCalls code reason)) with
  | none => exact Nat.zero_le _
  | some n =>
      have hlt := length_of_jsonFinish hfinish
      rw [hr] at hlt
      exact hlt.le

theorem bodyLen_setText {r : ServerResponse} (hr : r.body.length = serverBodyMax) (status : ℤ)
    (ctype text : Bytes) : (setText r status ctype text).bodyLen ≤ serverBodyMax := by
  unfold setText
  split_ifs with hlong
  · exact Nat.zero_le _
  · rw [← hr]
    exact not_lt.mp hlong

/-- The response that `records_to_json` leaves, finished or not. -/
theorem recordsToJson_sized {r : ServerResponse} (hr : r.body.length = serverBodyMax) (reply : Bytes) :
    (recordsToJson r reply).1.body.length = serverBodyMax ∧
    ((recordsToJson r reply).2 = none → (recordsToJson r reply).1.bodyLen ≤ serverBodyMax) := by
  have hcap : ∀ cs, (run JsonWriter.exec (jsonInit r.body) cs).buf.length = serverBodyMax := by
    intro cs
    exact (cap_run _ cs).trans ((cap_jsonInit r.body).trans hr)
  unfold recordsToJson
  dsimp only
  rw [recordsFrom_eq_seen, ← run_append]
  cases (recordsSeen (reply.length + 1) reply).all untagged with
  | false => exact ⟨hcap _, nofun⟩
  | true =>
      dsimp only
      rw [← run_append]
      split
      · exact ⟨hcap _, nofun⟩
      · rename_i n hfinish
        have hlt := length_of_jsonFinish hfinish
        rw [hr] at hlt
        exact ⟨hcap _, fun _ => hlt.le⟩

/-! ## The source at a time -/

/-- The lines of a reply are those of its records and the last one. -/
theorem IsReply.map_replyLines {final : KvKind} {recs : List KvLine} {text : Bytes}
    (hfinal : final.Ends) (h : IsReply final recs text) :
    (replyLines text).map kvParseLine = recs.map KvKind.record ++ [final] := by
  -- `kv_reply_next` takes the line that `replyLines` has first
  have hnext : ∀ {line eol rest : Bytes}, kvParseLine line ≠ .bad → IsEol eol →
      (replyLines (line ++ eol ++ rest)).map kvParseLine =
        kvParseLine line :: (replyLines rest).map kvParseLine := by
    intro line eol rest hline heol
    have htake := kvReplyNext_line (plain_of_kvParseLine hline) heol rest
    rcases kvReplyNext_cases (line ++ eol ++ rest) with ⟨hwait, -⟩ | ⟨line', rest', htake', hlines, -⟩
    · rw [hwait, Prod.mk.injEq] at htake
      exact absurd (congrArg List.length htake.2) (by
        have hpos := heol.length_pos
        rw [List.length_append, List.length_append]
        omega)
    · rw [htake, Prod.mk.injEq] at htake'
      rw [hlines, List.map_cons, ← htake'.1, ← htake'.2]
  induction h with
  | last hline heol =>
      have hlast := @hnext _ _ [] (hline ▸ hfinal.ne_bad) heol
      rw [List.append_nil, hline] at hlast
      exact hlast
  | record hline heol _ ih =>
      rw [hnext (by rw [hline]; nofun) heol, ih, hline]
      rfl

section Source

variable {d : Doubles} (hd : d.Ok) {rounds : ℕ} (hrounds : 300 < rounds) (t0 : UInt64) {wall : UInt64}
  (hwall : wall.toNat < 2 ^ 63)

include hd hrounds hwall

/-- A request is told all there is to tell. -/
theorem clockedQuery_told {buf : Bytes} (hbuf : buf.length = routeReplyMax) (line : Bytes) :
    ∃ texts, Told line texts ∧ clockedQuery d rounds t0 wall buf line = some texts.flatten := by
  obtain ⟨texts, htexts, htold⟩ := synthReply_told (s := ⟨t0, wall⟩) hd hrounds hwall line
  refine ⟨texts, htold, ?_⟩
  have hroom : texts.flatten.length < routeReplyMax := by
    cases htold with
    | records recs _ _ hroom _ => exact hroom
    | refused code reason herror _ heq =>
        subst heq
        have hall : ∀ e ∈ synthErrors, [replyErr e.1 e.2].flatten.length < routeReplyMax := by decide
        exact hall (code, reason) herror
  have hne : texts.flatten ≠ [] := by
    obtain ⟨final, recs, -, hreply, -⟩ := synthReply_sound hd htexts
    exact hreply.ne_nil
  have hholds := holds_texts buf texts
  rw [hbuf] at hholds
  unfold clockedQuery synthQuery
  rw [htexts, Option.map_some, Option.bind_some]
  dsimp only
  generalize texts.foldl outf { buf := buf } = o at hholds ⊢
  cases hover : o.isOver with
  | true => exact absurd (hholds.absent hover) (not_le.mpr hroom)
  | false =>
      rw [if_neg (by decide), Option.map_some, (hholds.whole hover).1, hholds.front hover]

end Source

/-! ## What is answered -/

theorem synthErrors_check : ∀ e ∈ synthErrors,
    kvReplyCheck [replyErr e.1 e.2].flatten = .err e.1 e.2 ∧ (e.1 ≠ ascii "unavailable" →
      statusForCode e.1 = httpStatusBadRequest ∨ statusForCode e.1 = httpStatusNotFound) := by
  decide +kernel

/-- What the source tells is passed on. -/
theorem answer_of_told {page : Bytes} {req : HttpRequest} {resp : ServerResponse}
    (hresp : resp.body.length = serverBodyMax) (hpath : (api.lookup req.path).isSome)
    (happi : (ascii "/api/").isPrefixOf req.path = true) {line : Bytes} {texts : List Bytes}
    (htold : Told line texts) (hline : ¬ AsksBaseline line) :
    Answer page req (answerReply resp (some texts.flatten)) := by
  cases htold with
  | records recs hreply hsrc _ hshow =>
      have hok : kvReplyCheck texts.flatten = .ok := (replyCheck_eq_iff (.inl rfl) _).mpr ⟨recs, hreply⟩
      have hrecords := replyRecords_eq (hreply.map_replyLines (.inl rfl))
      rw [← hrecords] at hshow hsrc
      obtain ⟨hstatus, hctype, hbody⟩ := answerReply_showable hresp hok hshow
      exact .records _ hpath hsrc hstatus hctype hbody
  | refused code reason herror hserved heq =>
      subst heq
      obtain ⟨hcheck, hcode⟩ := synthErrors_check (code, reason) herror
      obtain ⟨hstatus, hctype, hbody⟩ := answerReply_err hresp hcheck
      refine .error code reason happi ?_ hctype hbody
      rw [hstatus]
      exact hcode fun h => hline (hserved h)

/-- A reply of the source is shown in the buffer. -/
theorem bodyLen_answerReply {resp : ServerResponse} (hresp : resp.body.length = serverBodyMax)
    (reply : Option Bytes) : (answerReply resp reply).bodyLen ≤ serverBodyMax := by
  cases reply with
  | none => exact bodyLen_setError hresp _ _ _
  | some reply =>
      unfold answerReply
      dsimp only
      cases hcheck : kvReplyCheck reply with
      | ok =>
          dsimp only
          have hsized := recordsToJson_sized hresp reply
          cases hout : recordsToJson resp reply with
          | mk out why =>
              rw [hout] at hsized
              cases why with
              | none => exact hsized.2 rfl
              | some why => exact bodyLen_setError hsized.1 _ _ _
      | err code reason => exact bodyLen_setError hresp _ _ _
      | record rec => exact bodyLen_setError hresp _ _ _
      | bad => exact bodyLen_setError hresp _ _ _
      | incomplete => exact bodyLen_setError hresp _ _ _

/-- No request of `route_handle` is for the baseline. -/
theorem requestLine_served {path verb query line : Bytes} (hverb : api.lookup path = some verb)
    (hline : requestLine verb query = .ok line) : ¬ AsksBaseline line := by
  rintro ⟨req, hparse, htag⟩
  have hhead : line.head? = some 0x62 := by
    rw [((kvParseLine_eq_record_iff line req).mp hparse).2.2, KvLine.render, htag]
    rfl
  have hfirst : verb.head? ≠ some 0x62 := by
    have hall : ∀ entry ∈ api, entry.2.head? ≠ some 0x62 := by decide
    obtain ⟨before, after, hsplit, -⟩ := List.lookup_eq_some_iff.mp hverb
    exact hall (path, verb) (hsplit ▸ List.mem_append_right _ List.mem_cons_self)
  have hline' : line.head? = verb.head? := by
    unfold requestLine at hline
    split_ifs at hline with hseries hquery
    · have hq := seriesQuery_of_ok hline
      rw [buildSeries_eq_ok hq] at hline
      rw [← Except.ok.inj hline, hseries]
      rfl
    · rw [Except.ok.inj hline]
  exact hfirst (hline'.symm.trans hhead)

section Answered

variable {page : Bytes} (hpage : page.length ≤ serverBodyMax) {d : Doubles} (hd : d.Ok) {rounds : ℕ}
  (hrounds : 300 < rounds) (t0 : UInt64) {wall : UInt64} (hwall : wall.toNat < 2 ^ 63) {buf : Bytes}
  (hbuf : buf.length = routeReplyMax) (req : HttpRequest) {resp : ServerResponse}
  (hresp : resp.body.length = serverBodyMax)

theorem setText_fits {text : Bytes} (hresp : resp.body.length = serverBodyMax)
    (htext : text.length ≤ serverBodyMax) (status : ℤ) (ctype : Bytes) :
    (setText resp status ctype text).status = status ∧ (setText resp status ctype text).ctype = some ctype ∧
    (setText resp status ctype text).content = text := by
  unfold setText
  rw [if_neg (by rw [hresp]; exact not_lt.mpr htext)]
  refine ⟨rfl, rfl, ?_⟩
  exact @drop_overwrite resp.body text 0 (Nat.zero_le _)

include hresp in
theorem bodyLen_routeHandle (source : Bytes → Option Bytes) :
    (routeHandle page source req resp).1.bodyLen ≤ serverBodyMax := by
  unfold routeHandle
  split_ifs
  · exact bodyLen_setText hresp _ _ _
  · exact bodyLen_setText hresp _ _ _
  · cases api.lookup req.path with
    | none => exact bodyLen_setError hresp _ _ _
    | some verb =>
        dsimp only
        cases requestLine verb req.query with
        | error why => exact bodyLen_setError hresp _ _ _
        | ok line => exact bodyLen_answerReply hresp _
  · exact bodyLen_setText hresp _ _ _

include hpage hd hrounds hwall hbuf hresp

/-- Every request is answered, and never with an internal error. -/
theorem statusdHandle_answers : Answer page req (statusdHandle page d rounds t0 wall buf req resp) := by
  unfold statusdHandle routeHandle
  by_cases hroot : req.path = ascii "/"
  · rw [if_pos hroot]
    split_ifs with hquery
    · obtain ⟨hstatus, hctype, -⟩ := setText_fits hresp (show (ascii "bad request\n").length ≤ _ by decide)
        httpStatusBadRequest textPlain
      refine .text ?_ (Or.inl hstatus) hctype
      rw [hroot]
      decide
    · obtain ⟨hstatus, hctype, hcontent⟩ := setText_fits hresp hpage httpStatusOk textHtml
      exact .page hroot (not_not.mp hquery) hstatus hctype hcontent
  rw [if_neg hroot]
  by_cases happi : ¬ (ascii "/api/").isPrefixOf req.path
  · rw [if_pos happi]
    obtain ⟨hstatus, hctype, -⟩ := setText_fits hresp (show (ascii "not found\n").length ≤ _ by decide)
      httpStatusNotFound textPlain
    exact .text (Bool.eq_false_of_not_eq_true happi) (Or.inr hstatus) hctype
  rw [if_neg happi]
  have happi' : (ascii "/api/").isPrefixOf req.path = true := not_not.mp happi
  -- an error of `route_handle` itself
  have herror : ∀ status code reason, status = httpStatusBadRequest ∨ status = httpStatusNotFound →
      ErrorText code reason → Answer page req (setError resp status code reason) := by
    intro status code reason hstatus htext
    obtain ⟨hwritten, hctype, hbody⟩ := setError_writes hresp htext status
    exact .error code reason happi' (by rwa [hwritten]) hctype hbody
  cases hpath : api.lookup req.path with
  | none => exact herror _ _ _ (Or.inr rfl) ⟨by decide, by decide, by decide, by decide⟩
  | some verb =>
      dsimp only
      cases hline : requestLine verb req.query with
      | error why =>
          refine herror _ _ _ (Or.inl rfl) ?_
          unfold requestLine at hline
          split_ifs at hline
          · exact errorText_usage (buildSeries_error_mem hline).1
          · rw [← Except.error.inj hline]
            exact ⟨by decide, by decide, by decide, by decide⟩
      | ok line =>
          obtain ⟨texts, htold, hreply⟩ := clockedQuery_told hd hrounds t0 hwall hbuf line
          dsimp only
          rw [hreply]
          exact answer_of_told hresp (by rw [hpath]; rfl) happi' htold (requestLine_served hpath hline)

end Answered

/-! ## A run -/

/-- A head takes less than the room kept for it. -/
theorem length_head_lt {status : ℤ} {text ctype : Bytes} (n : ℕ) (h405 : status ≠ httpStatusMethodNotAllowed)
    (hline : (printSigned status ++ 0x20 :: text).length ≤ 20) (hctype : ctype.length ≤ 30) :
    (headText (headLines status text ctype n)).length < serverHeadMax := by
  have hsize : (printSize n).length ≤ 20 := length_printNat_le 10 20 n
  have hfixed : (ascii "HTTP/1.1 ").length = 9 ∧ (ascii "Content-Type: ").length = 14 ∧
      (ascii "Content-Length: ").length = 16 ∧ (ascii "Connection: close").length = 17 ∧
      (ascii "Cache-Control: no-store").length = 23 ∧
      (ascii "X-Content-Type-Options: nosniff").length = 31 ∧ crlf.length = 2 := by decide
  unfold headText headLines
  rw [if_neg h405, List.append_nil]
  simp only [List.flatMap_cons, List.flatMap_nil, List.length_append, List.length_nil, hfixed,
    serverHeadMax] at hline ⊢
  omega

/-- The responses of `route_handle` can be sent. -/
theorem valid_of_ok {r : ServerResponse} (hfits : r.bodyLen ≤ serverBodyMax)
    (hstatus : r.status ∈ [httpStatusOk, httpStatusBadRequest, httpStatusNotFound])
    (hctype : ∃ ctype ∈ [textPlain, textHtml, applicationJson], r.ctype = some ctype) : r.Valid := by
  obtain ⟨ctype, hmem, hctype⟩ := hctype
  have hctypes : ∀ ctype ∈ [textPlain, textHtml, applicationJson],
      ctype.length ≤ 30 ∧ ctypeOk (some ctype) = true := by decide
  have hstatuses : ∀ status ∈ [httpStatusOk, httpStatusBadRequest, httpStatusNotFound],
      status ≠ httpStatusMethodNotAllowed ∧ ∃ text, statusText status = some text ∧
        (printSigned status ++ 0x20 :: text).length ≤ 20 := by
    simp only [List.forall_mem_cons, List.not_mem_nil, false_imp_iff, implies_true, and_true]
    exact ⟨⟨by decide, ascii "OK", by decide, by decide⟩,
      ⟨by decide, ascii "Bad Request", by decide, by decide⟩,
      ⟨by decide, ascii "Not Found", by decide, by decide⟩⟩
  obtain ⟨h405, text, htext, hline⟩ := hstatuses _ hstatus
  refine ⟨hfits, ?_, ?_⟩
  · rw [hctype]
    exact (hctypes ctype hmem).2
  · unfold httpWriteHead
    rw [htext, hctype]
    dsimp only
    rw [if_neg (not_le.mpr (length_head_lt r.bodyLen h405 hline (hctypes ctype hmem).1))]
    rfl

theorem Answer.valid {page : Bytes} {req : HttpRequest} {r : ServerResponse} (h : Answer page req r)
    (hfits : r.bodyLen ≤ serverBodyMax) : r.Valid := by
  cases h with
  | page _ _ hstatus hctype _ =>
      exact valid_of_ok hfits (by rw [hstatus]; decide) ⟨_, by decide, hctype⟩
  | text _ hstatus hctype =>
      refine valid_of_ok hfits ?_ ⟨_, by decide, hctype⟩
      rcases hstatus with hstatus | hstatus
      · rw [hstatus]
        decide
      · rw [hstatus]
        decide
  | records recs _ _ hstatus hctype _ =>
      exact valid_of_ok hfits (by rw [hstatus]; decide) ⟨_, by decide, hctype⟩
  | error code reason _ hstatus hctype _ =>
      refine valid_of_ok hfits ?_ ⟨_, by decide, hctype⟩
      rcases hstatus with hstatus | hstatus
      · rw [hstatus]
        decide
      · rw [hstatus]
        decide

/-- The handler of a run was `route_handle`, whatever the time and the buffers
were when it was called. -/
def HandledBy (page : Bytes) (d : Doubles) (rounds : ℕ) (t0 : UInt64) (s : Server) : Prop :=
  ∀ l ∈ lives s, ∀ reply ∈ l.replies, ∀ req r, httpParseRequest reply.request = .ok req →
    reply.result = some r → ∃ (wall : UInt64) (buf body : Bytes), wall.toNat < 2 ^ 63 ∧
      buf.length = routeReplyMax ∧ body.length = serverBodyMax ∧
      r = statusdHandle page d rounds t0 wall buf req ⟨httpStatusInternalError, some textPlain, body, 0⟩

/-- What became of a connection: nothing was said, or one message as far as it
was taken. -/
inductive Life.Answered (page : Bytes) (l : Life) : Prop where
  | silent (h : l.Silent)
  | answered (reply : Reply) (req : HttpRequest) (r : ServerResponse) (head : Bytes)
      (hreplies : l.replies = [reply]) (hsent : l.sent <+: reply.bytes)
      (hreq : httpParseRequest reply.request = .ok req) (hanswer : Answer page req r)
      (hhead : httpWriteHead serverHeadMax r.status r.ctype r.bodyLen = some head)
      (hbytes : reply.bytes = head ++ r.content)
  | refused (reply : Reply) (hreplies : l.replies = [reply]) (hsent : l.sent <+: reply.bytes)
      (hreq : ∀ req, httpParseRequest reply.request ≠ .ok req)
      (hbytes : reply.bytes = refusalBytes (httpParseRequest reply.request))

/-- **In every run of the daemon** each client is sent the front of one
message: the answer to its own request, or the parser's refusal of it. -/
theorem statusd_answers {page : Bytes} (hpage : page.length ≤ serverBodyMax) {d : Doubles} (hd : d.Ok)
    {rounds : ℕ} (hrounds : 300 < rounds) (t0 : UInt64) (acts : List ServerAct)
    (hroutes : HandledBy page d rounds t0 (serverRun acts)) :
    ∀ l ∈ lives (serverRun acts), l.Answered page := by
  intro l hl
  rcases lives_exact (run_delivery acts) l hl with hsilent | ⟨reply, hbegun, hsent⟩
  · exact .silent hsilent
  have hmine : reply ∈ l.replies := by
    rw [hbegun.replies]
    exact List.mem_singleton_self reply
  rcases hbegun.meant.cases with ⟨req, r, hreq, hresult, hlen, hbytes⟩ | ⟨hresult, hbytes⟩
  · obtain ⟨wall, buf, body, hwall, hbuf, hbody, rfl⟩ := hroutes l hl reply hmine req r hreq hresult
    have hanswer : Answer page req (statusdHandle page d rounds t0 wall buf req
        ⟨httpStatusInternalError, some textPlain, body, 0⟩) :=
      statusdHandle_answers hpage hd hrounds t0 hwall hbuf req hbody
    obtain ⟨head, hhead, hwhole⟩ := handledBytes_of_valid hlen
      (hanswer.valid (bodyLen_routeHandle req hbody _))
    exact .answered reply req _ head hbegun.replies hsent hreq hanswer hhead (hbytes.trans hwhole)
  · refine .refused reply hbegun.replies hsent (fun req hreq => ?_) hbytes
    have hmeant := hbegun.meant
    rw [hreq, hresult] at hmeant
    exact hmeant

/-- A client connects and asks for the page. -/
def oneRequest (r : Handled) : StepEnv where
  before := 0
  poll := .ready .ready fun _ => false
  after := 0
  script := ⟨[.conn 5], [(.ready, rootRequest)], [], [r]⟩

theorem lives_oneRequest (r : Handled) : ∃ bytes, lives (serverRun [.step (oneRequest r)]) =
    [⟨0, 0, 1, [⟨rootRequest, some r.val, bytes⟩], []⟩] := by
  refine ⟨(layHandled Slot.empty.out r.val).pending, ?_⟩
  have hstep : serverRun [.step (oneRequest r)] =
      (dispatch (acceptInto serverOpen 0 5 0) 0 { (acceptInto serverOpen 0 5 0).conns 0 with
        conn := ⟨.writing (.ok ⟨ascii "/", []⟩), rootRequest, by decide⟩ } 0 ⟨[], [], [], [r]⟩).1 := rfl
  rw [hstep]
  unfold dispatch
  dsimp only [Script.nextHandled]
  unfold beginWrite connWrite
  dsimp only
  -- what is there to send decides only whether the slot is free again
  split_ifs
  · rfl
  · rfl

theorem statusd_answers_page : ∃ r bytes,
    lives (serverRun [.step (oneRequest r)]) = [⟨0, 0, 1, [⟨rootRequest, some r.val, bytes⟩], []⟩] ∧
    ∀ l ∈ lives (serverRun [.step (oneRequest r)]), l.Answered (ascii "page") := by
  have hbody : (statusdHandle (ascii "page") exactDoubles 301 0 0 (List.replicate routeReplyMax 0)
      ⟨ascii "/", []⟩ freshResponse).body.length = serverBodyMax := by
    show (setText freshResponse httpStatusOk textHtml (ascii "page")).body.length = _
    unfold setText
    rw [if_neg (by rw [length_freshResponse]; decide)]
    refine (length_overwrite ?_).trans length_freshResponse
    rw [length_freshResponse]
    decide
  generalize hr : statusdHandle (ascii "page") exactDoubles 301 0 0 (List.replicate routeReplyMax 0)
    ⟨ascii "/", []⟩ freshResponse = r at hbody
  obtain ⟨bytes, hlives⟩ := lives_oneRequest ⟨r, hbody⟩
  refine ⟨⟨r, hbody⟩, bytes, hlives, statusd_answers (d := exactDoubles) (by decide) exactDoubles_ok
    (show 300 < 301 by decide) 0 _ ?_⟩
  intro l hl reply hreply req r' hreq hresult
  rw [hlives, List.mem_singleton] at hl
  subst hl
  rw [List.mem_singleton] at hreply
  subst hreply
  have hroot : httpParseRequest rootRequest = .ok ⟨ascii "/", []⟩ := by decide +kernel
  rw [hroot] at hreq
  cases hreq
  exact ⟨0, List.replicate routeReplyMax 0, freshResponse.body, by decide, List.length_replicate,
    length_freshResponse, (Option.some.inj hresult).symm.trans hr.symm⟩

end Carwatch.Interface
