import Carwatch.Interface.Json
import Carwatch.Interface.Response
import Carwatch.Interface.Server

/-!
# Carwatch.Interface.Layout — a response in its buffer (`src/interface/server.c`)

The body of a response stands at `SERVER_HEAD_MAX` in the connection's
buffer, and the head goes right-aligned before it, so that both are one run of
bytes to send. What a handler returns is checked first; where the check fails
a fixed 500 takes its place in the same buffer.

* **Model layer**: `finish`, `fail500`, `layRefusal` and `layHandled`, over
  offsets into one buffer.
* **Abstract layer**: `refusalBytes` and `handledBytes` say which message is
  meant.
* **Results**: `layRefusal_pending` and `layHandled_pending`: what stands
  between the two offsets is that message. `isResponse_handledBytes`: it is a
  well-formed response, whatever the handler returned.
-/

namespace Carwatch.Interface

open Carwatch.Lib

/-! ## The buffer of a connection -/

/-- The writing side of `server_conn_t`: the response is `buf[out_pos, out_end)`. -/
structure OutBuf where
  buf : Bytes
  outPos : ℕ
  outEnd : ℕ

/-- `finish`; `none` is -1. -/
def finish (c : OutBuf) (status : ℤ) (ctype : Option Bytes) (bodyLen : ℕ) : Option OutBuf :=
  match httpWriteHead serverHeadMax status ctype bodyLen with
  | none => none
  | some head =>
      some {
        outPos := serverHeadMax - head.length
        buf := overwrite c.buf (serverHeadMax - head.length) head
        outEnd := serverHeadMax + bodyLen }

/-- `internal_error_body` -/
def internalErrorBody : Bytes := ascii "internal error\n"

/-- `fail_500` -/
def fail500 (c : OutBuf) : OutBuf :=
  let c := { c with buf := overwrite c.buf serverHeadMax internalErrorBody }
  match finish c httpStatusInternalError (some (ascii "text/plain")) internalErrorBody.length with
  | some c => c
  | none => c

/-- `refusal_text` -/
def refusalText : HttpParse → Bytes
  | .badMethod => ascii "method not allowed\n"
  | .tooLarge => ascii "request headers too large\n"
  | .bad => ascii "bad request\n"
  | .ok _ => ascii "bad request\n"
  | .incomplete => ascii "bad request\n"

/-- `(int)refusal`: an `http_parse_t` as the status it stands for. -/
def refusalStatus : HttpParse → ℤ
  | .incomplete => -1
  | .ok _ => 0
  | .bad => httpStatusBadRequest
  | .badMethod => httpStatusMethodNotAllowed
  | .tooLarge => httpStatusHeadersTooLarge

/-- What `respond_error` puts into the buffer. -/
def layRefusal (c : OutBuf) (refusal : HttpParse) : OutBuf :=
  let text := refusalText refusal
  let c := { c with buf := overwrite c.buf serverHeadMax text }
  match finish c (refusalStatus refusal) (some (ascii "text/plain")) text.length with
  | some c => c
  | none => fail500 c

/-- `ctype_ok` -/
def ctypeOk : Option Bytes → Bool
  | none => false
  | some ctype => !ctype.any fun c => c < 0x20 || c == 0x7F

/-- What `dispatch` makes of a handler's result. The body is in the buffer
already: the handler has written it there. -/
def layHandled (c : OutBuf) (r : ServerResponse) : OutBuf :=
  let c := { c with buf := c.buf.take serverHeadMax ++ r.body }
  if r.bodyLen > serverBodyMax || !ctypeOk r.ctype then fail500 c
  else
    match finish c r.status r.ctype r.bodyLen with
    | some c => c
    | none => fail500 c

/-- What is still to be sent. -/
def OutBuf.pending (c : OutBuf) : Bytes := (c.buf.take c.outEnd).drop c.outPos

/-! ## The messages that are meant -/

/-- A head and its body, when the head can be written. -/
def message (status : ℤ) (ctype : Option Bytes) (body : Bytes) : Option Bytes :=
  (httpWriteHead serverHeadMax status ctype body.length).map (· ++ body)

/-- The fixed 500. -/
def fixed500 : Bytes :=
  headText (headLines httpStatusInternalError (ascii "Internal Server Error") (ascii "text/plain")
    internalErrorBody.length) ++ internalErrorBody

/-- The answer to a request that is refused. -/
def refusalBytes (refusal : HttpParse) : Bytes :=
  (message (refusalStatus refusal) (some (ascii "text/plain")) (refusalText refusal)).getD fixed500

/-- A result that can be sent: the body fits, the content type is one header
value, and the head can be written. -/
structure ServerResponse.Valid (r : ServerResponse) : Prop where
  fits : r.bodyLen ≤ serverBodyMax
  ctype : ctypeOk r.ctype = true
  head : (httpWriteHead serverHeadMax r.status r.ctype r.bodyLen).isSome

/-- The answer a handler's result stands for: its head and its body, or the
fixed 500 where it is invalid. -/
def handledBytes (r : ServerResponse) : Bytes :=
  if r.bodyLen > serverBodyMax || !ctypeOk r.ctype then fixed500
  else (message r.status r.ctype r.content).getD fixed500

/-! ## What stands in the buffer -/

/-- A buffer of the size `server_conn_t` has, and an end inside it. -/
structure OutBuf.Sized (c : OutBuf) : Prop where
  size : c.buf.length = serverHeadMax + serverBodyMax
  end_le : c.outEnd ≤ serverHeadMax + serverBodyMax

theorem httpWriteHead_length {cap : ℕ} {status : ℤ} {ctype : Option Bytes} {bodyLen : ℕ} {head : Bytes}
    (h : httpWriteHead cap status ctype bodyLen = some head) : head.length < cap := by
  unfold httpWriteHead at h
  split at h
  · dsimp only at h
    split_ifs at h with hlong
    rw [← Option.some.inj h]
    exact not_le.mp hlong
  · cases h

/-- `finish` lays the head before the body that is there. -/
theorem finish_pending {c c' : OutBuf} {status : ℤ} {ctype : Option Bytes} {bodyLen : ℕ}
    (hc : c.Sized) (hbody : bodyLen ≤ serverBodyMax) (h : finish c status ctype bodyLen = some c') :
    c'.Sized ∧ ∃ head, httpWriteHead serverHeadMax status ctype bodyLen = some head ∧
      c'.pending = head ++ (c.buf.drop serverHeadMax).take bodyLen := by
  unfold finish at h
  cases hhead : httpWriteHead serverHeadMax status ctype bodyLen with
  | none =>
      rw [hhead] at h
      cases h
  | some head =>
      rw [hhead] at h
      have hlen := httpWriteHead_length hhead
      have hsize := hc.size
      rw [← Option.some.inj h]
      have hfit : serverHeadMax - head.length + head.length = serverHeadMax := by omega
      refine ⟨⟨?_, ?_⟩, head, rfl, ?_⟩
      · show (overwrite c.buf _ head).length = _
        rw [length_overwrite (by omega)]
        exact hsize
      · show serverHeadMax + bodyLen ≤ serverHeadMax + serverBodyMax
        omega
      · show ((overwrite c.buf (serverHeadMax - head.length) head).take
          (serverHeadMax + bodyLen)).drop (serverHeadMax - head.length) = _
        -- the head ends where the body begins, so the two are sent as one piece
        have hfront : (c.buf.take (serverHeadMax - head.length)).length =
            serverHeadMax - head.length := by
          rw [List.length_take]
          omega
        have hrest : serverHeadMax + bodyLen - (serverHeadMax - head.length) =
            head.length + bodyLen := by
          omega
        rw [List.drop_take, overwrite, hfit, List.drop_left' hfront, hrest,
          List.take_length_add_append]

/-- Offset 0 of the body is where the text was written. -/
theorem drop_overwrite {buf text : Bytes} {off : ℕ} (h : off ≤ buf.length) :
    ((overwrite buf off text).drop off).take text.length = text := by
  have hfront : (buf.take off).length = off := by
    rw [List.length_take]
    omega
  rw [overwrite, List.drop_left' hfront]
  exact List.take_left' rfl

theorem overwrite_sized {c : OutBuf} (hc : c.Sized) {text : Bytes}
    (h : text.length ≤ serverBodyMax) :
    OutBuf.Sized { c with buf := overwrite c.buf serverHeadMax text } := by
  have hsize := hc.size
  refine ⟨?_, hc.end_le⟩
  rw [← hsize]
  exact length_overwrite (by omega)

theorem httpWriteHead_500 :
    httpWriteHead serverHeadMax httpStatusInternalError (some (ascii "text/plain"))
      internalErrorBody.length =
    some (headText (headLines httpStatusInternalError (ascii "Internal Server Error")
      (ascii "text/plain") internalErrorBody.length)) := by
  decide +kernel

theorem fail500_pending {c : OutBuf} (hc : c.Sized) :
    (fail500 c).Sized ∧ (fail500 c).pending = fixed500 := by
  have hlen : internalErrorBody.length ≤ serverBodyMax := by decide
  have hsized := overwrite_sized hc hlen
  have hfinish : ∃ c', finish { c with buf := overwrite c.buf serverHeadMax internalErrorBody }
      httpStatusInternalError (some (ascii "text/plain")) internalErrorBody.length = some c' := by
    unfold finish
    rw [httpWriteHead_500]
    exact ⟨_, rfl⟩
  rcases hfinish with ⟨c', hc'⟩
  rcases finish_pending hsized (by omega) hc' with ⟨hsized', head, hhead, hpending⟩
  unfold fail500
  dsimp only
  rw [hc']
  refine ⟨hsized', ?_⟩
  have hsize := hc.size
  rw [httpWriteHead_500] at hhead
  rw [hpending, ← Option.some.inj hhead, drop_overwrite (by omega)]
  rfl

/-- The end of both ways to answer: the head goes before the body, or the
fixed 500 takes its place. -/
theorem finish_or_500_pending {c : OutBuf} (hc : c.Sized) {status : ℤ} {ctype : Option Bytes}
    {bodyLen : ℕ} (hbody : bodyLen ≤ serverBodyMax) :
    (match finish c status ctype bodyLen with
      | some c => c
      | none => fail500 c).Sized ∧
    (match finish c status ctype bodyLen with
      | some c => c
      | none => fail500 c).pending =
      (message status ctype ((c.buf.drop serverHeadMax).take bodyLen)).getD fixed500 := by
  have hlen : ((c.buf.drop serverHeadMax).take bodyLen).length = bodyLen := by
    have hsize := hc.size
    rw [List.length_take, List.length_drop]
    omega
  unfold message
  rw [hlen]
  cases hfinish : finish c status ctype bodyLen with
  | some c' =>
      rcases finish_pending hc hbody hfinish with ⟨hsized, head, hhead, hpending⟩
      rw [hhead]
      exact ⟨hsized, hpending⟩
  | none =>
      have hnone : httpWriteHead serverHeadMax status ctype bodyLen = none := by
        unfold finish at hfinish
        split at hfinish
        · assumption
        · cases hfinish
      rw [hnone]
      exact fail500_pending hc

/-- A refusal is laid out as it is meant. -/
theorem layRefusal_pending {c : OutBuf} (hc : c.Sized) (refusal : HttpParse) :
    (layRefusal c refusal).Sized ∧ (layRefusal c refusal).pending = refusalBytes refusal := by
  have hshort : (refusalText refusal).length ≤ serverBodyMax := by
    have hplain : (ascii "bad request\n").length ≤ serverBodyMax := by decide
    cases refusal with
    | badMethod => decide
    | tooLarge => decide
    | bad => exact hplain
    | ok req => exact hplain
    | incomplete => exact hplain
  have hsized := overwrite_sized hc hshort
  have hlaid := @finish_or_500_pending { c with
    buf := overwrite c.buf serverHeadMax (refusalText refusal) } hsized (refusalStatus refusal)
    (some (ascii "text/plain")) _ hshort
  have hsize := hc.size
  rw [drop_overwrite (by omega)] at hlaid
  exact hlaid

/-- So is what a handler returned. -/
theorem layHandled_pending {c : OutBuf} (hc : c.Sized) {r : ServerResponse}
    (hr : r.body.length = serverBodyMax) :
    (layHandled c r).Sized ∧ (layHandled c r).pending = handledBytes r := by
  have hfront : (c.buf.take serverHeadMax).length = serverHeadMax := by
    have hsize := hc.size
    rw [List.length_take]
    omega
  have hsized : OutBuf.Sized { c with buf := c.buf.take serverHeadMax ++ r.body } := by
    refine ⟨?_, hc.end_le⟩
    rw [List.length_append, hfront, hr]
  unfold layHandled handledBytes
  dsimp only
  by_cases hbad : (r.bodyLen > serverBodyMax || !ctypeOk r.ctype) = true
  · rw [if_pos hbad, if_pos hbad]
    exact fail500_pending hsized
  · rw [if_neg hbad, if_neg hbad]
    simp only [Bool.or_eq_true, decide_eq_true_eq, not_or, not_lt] at hbad
    have hlaid := @finish_or_500_pending { c with buf := c.buf.take serverHeadMax ++ r.body } hsized
      r.status r.ctype r.bodyLen hbad.1
    have hbody : ((c.buf.take serverHeadMax ++ r.body).drop serverHeadMax).take r.bodyLen =
        r.content := by
      rw [List.drop_left' hfront]
      rfl
    rw [hbody] at hlaid
    exact hlaid

/-! ## The messages are responses -/

/-- One response: a known status line and the fixed header lines, each of them
one line, and a body that starts behind the first blank line and has the
length the head says. -/
def IsResponse (R : Bytes) : Prop :=
  ∃ status text ctype body, statusText status = some text ∧
    R = headText (headLines status text ctype body.length) ++ body ∧
    (∀ line ∈ headLines status text ctype body.length, IsLine line) ∧
    ∃ i, memmem crlfcrlf R = some i ∧ R.drop (i + 4) = body

/-- Text without a line break. -/
def NoBreak (s : Bytes) : Prop := 0x0D ∉ s ∧ 0x0A ∉ s

instance : DecidablePred NoBreak := fun s => inferInstanceAs (Decidable (0x0D ∉ s ∧ 0x0A ∉ s))

theorem isLine_append {a b : Bytes} (hne : a ≠ []) (ha : NoBreak a) (hb : NoBreak b) :
    IsLine (a ++ b) := by
  refine ⟨List.append_ne_nil_of_left_ne_nil hne b, ?_, ?_⟩
  · rw [List.mem_append]
    exact not_or.mpr ⟨ha.1, hb.1⟩
  · rw [List.mem_append]
    exact not_or.mpr ⟨ha.2, hb.2⟩

theorem noBreak_printSize (n : ℕ) : NoBreak (printSize n) := by
  have hdigit : ∀ c ∈ printSize n, c ≠ 0x0D ∧ c ≠ 0x0A := by
    intro c hc
    rcases printNat_mem (by decide) hc with ⟨d, hd, rfl⟩
    interval_cases d <;> decide
  exact ⟨fun h => (hdigit _ h).1 rfl, fun h => (hdigit _ h).2 rfl⟩

theorem noBreak_ctype {ctype : Bytes} (h : ctypeOk (some ctype) = true) : NoBreak ctype := by
  have hclean : ∀ c ∈ ctype, ¬ (c < 0x20 || c == 0x7F) = true := by
    have hany : (ctype.any fun c => c < 0x20 || c == 0x7F) = false := by
      simpa [ctypeOk] using h
    exact List.any_eq_false.mp hany
  exact ⟨fun hin => hclean _ hin (by decide), fun hin => hclean _ hin (by decide)⟩

theorem noBreak_statusLine {status : ℤ} {text : Bytes} (h : statusText status = some text) :
    NoBreak (printSigned status ++ 0x20 :: text) := by
  unfold statusText at h
  split_ifs at h with h1 h2 h3 h4 h5 h6 h7
  · rw [h1, ← Option.some.inj h]
    decide
  · rw [h2, ← Option.some.inj h]
    decide
  · rw [h3, ← Option.some.inj h]
    decide
  · rw [h4, ← Option.some.inj h]
    decide
  · rw [h5, ← Option.some.inj h]
    decide
  · rw [h6, ← Option.some.inj h]
    decide
  · rw [h7, ← Option.some.inj h]
    decide

/-- No header line is split in two, and none is added. -/
theorem isLine_headLines {status : ℤ} {text ctype : Bytes} (hstatus : statusText status = some text)
    (hctype : ctypeOk (some ctype) = true) (bodyLen : ℕ) :
    ∀ line ∈ headLines status text ctype bodyLen, IsLine line := by
  have hfixed : ∀ line ∈ [ascii "Connection: close", ascii "Cache-Control: no-store",
      ascii "X-Content-Type-Options: nosniff", ascii "Allow: GET"], IsLine line := by
    intro line hline
    have hall : ∀ l ∈ [ascii "Connection: close", ascii "Cache-Control: no-store",
        ascii "X-Content-Type-Options: nosniff", ascii "Allow: GET"], l ≠ [] ∧ NoBreak l := by
      decide
    rcases hall line hline with ⟨hne, hbreak⟩
    exact ⟨hne, hbreak.1, hbreak.2⟩
  intro line hline
  rcases List.mem_append.mp hline with hline | hline
  · simp only [List.mem_cons, List.not_mem_nil, or_false] at hline
    rcases hline with rfl | rfl | rfl | rfl | rfl | rfl
    · exact isLine_append (by decide) (by decide) (noBreak_statusLine hstatus)
    · exact isLine_append (by decide) (by decide) (noBreak_ctype hctype)
    · exact isLine_append (by decide) (by decide) (noBreak_printSize bodyLen)
    · exact hfixed _ (by simp)
    · exact hfixed _ (by simp)
    · exact hfixed _ (by simp)
  · split_ifs at hline
    · rw [List.mem_singleton.mp hline]
      exact hfixed _ (by simp)
    · exact absurd hline List.not_mem_nil

/-- A head and its body make a response. -/
theorem isResponse_of_lines {status : ℤ} {text ctype : Bytes} (hstatus : statusText status = some text)
    (hctype : ctypeOk (some ctype) = true) (body : Bytes) :
    IsResponse (headText (headLines status text ctype body.length) ++ body) := by
  have hlines := isLine_headLines hstatus hctype body.length
  have hlong : 4 ≤ (headText (headLines status text ctype body.length)).length := by
    show 4 ≤ (headText (_ :: _ :: _)).length
    simp only [headText, List.flatMap_cons, List.length_append, crlf, List.length_cons,
      List.length_nil]
    omega
  refine ⟨status, text, ctype, body, hstatus, rfl, hlines, _,
    memmem_headText hlines (List.cons_ne_nil _ _) body, ?_⟩
  rw [Nat.sub_add_cancel hlong]
  exact List.drop_left' rfl

theorem IsResponse.ne_nil {R : Bytes} (h : IsResponse R) : R ≠ [] := by
  rcases h with ⟨status, text, ctype, body, -, rfl, -⟩
  exact List.append_ne_nil_of_left_ne_nil (List.append_ne_nil_of_right_ne_nil _ (by decide)) body

theorem isResponse_fixed500 : IsResponse fixed500 :=
  isResponse_of_lines (by decide) (by decide) internalErrorBody

theorem isResponse_message {status : ℤ} {ctype : Option Bytes} (hctype : ctypeOk ctype = true)
    (body : Bytes) : IsResponse ((message status ctype body).getD fixed500) := by
  unfold message httpWriteHead
  cases hstatus : statusText status with
  | none => exact isResponse_fixed500
  | some text =>
      cases ctype with
      | none => cases hctype
      | some ctype =>
          dsimp only
          split_ifs
          · exact isResponse_fixed500
          · exact isResponse_of_lines hstatus hctype body

/-- Every refusal is a response. -/
theorem isResponse_refusalBytes (refusal : HttpParse) : IsResponse (refusalBytes refusal) :=
  isResponse_message (by decide) _

/-- Whatever a handler returned, the answer is a response. -/
theorem isResponse_handledBytes (r : ServerResponse) : IsResponse (handledBytes r) := by
  unfold handledBytes
  by_cases hbad : (r.bodyLen > serverBodyMax || !ctypeOk r.ctype) = true
  · rw [if_pos hbad]
    exact isResponse_fixed500
  · rw [if_neg hbad]
    simp only [Bool.or_eq_true, not_or, Bool.not_eq_true', Bool.not_eq_false] at hbad
    exact isResponse_message hbad.2 _

/-- A result that is not valid is answered with the fixed 500. -/
theorem handledBytes_of_not_valid {r : ServerResponse} (hr : r.body.length = serverBodyMax)
    (h : ¬ r.Valid) : handledBytes r = fixed500 := by
  unfold handledBytes
  by_cases hbad : (r.bodyLen > serverBodyMax || !ctypeOk r.ctype) = true
  · rw [if_pos hbad]
  · rw [if_neg hbad]
    simp only [Bool.or_eq_true, decide_eq_true_eq, not_or, not_lt, Bool.not_eq_true',
      Bool.not_eq_false] at hbad
    have hlen : r.content.length = r.bodyLen := by
      rw [ServerResponse.content, List.length_take, hr]
      omega
    have hnone : httpWriteHead serverHeadMax r.status r.ctype r.bodyLen = none := by
      by_contra hsome
      exact h ⟨hbad.1, hbad.2, Option.isSome_iff_ne_none.mpr hsome⟩
    rw [message, hlen, hnone]
    rfl

/-- A valid one with its own head and body. -/
theorem handledBytes_of_valid {r : ServerResponse} (hr : r.body.length = serverBodyMax)
    (h : r.Valid) :
    ∃ head, httpWriteHead serverHeadMax r.status r.ctype r.bodyLen = some head ∧
      handledBytes r = head ++ r.content := by
  have hbad : ¬ (r.bodyLen > serverBodyMax || !ctypeOk r.ctype) = true := by
    have hfits := h.fits
    simp only [Bool.or_eq_true, decide_eq_true_eq, not_or, not_lt, Bool.not_eq_true',
      Bool.not_eq_false]
    exact ⟨hfits, h.ctype⟩
  have hlen : r.content.length = r.bodyLen := by
    have hfits := h.fits
    rw [ServerResponse.content, List.length_take, hr]
    omega
  rcases Option.isSome_iff_exists.mp h.head with ⟨head, hhead⟩
  refine ⟨head, hhead, ?_⟩
  rw [handledBytes, if_neg hbad, message, hlen, hhead]
  rfl

end Carwatch.Interface
