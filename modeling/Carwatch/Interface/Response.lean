import Carwatch.Lib.Stdio
import Carwatch.Interface.Http

/-!
# Carwatch.Interface.Response — the head of a response (`http_write_head` of `src/interface/http.c`)

A response is a head and a body. The head is a status line and a fixed set of
header lines; the one text in it that comes from outside the writer is the
content type.

* **Model layer**: `httpWriteHead`, and `ServerResponse`, which is what a
  handler fills in.
* **Result**: `memmem_headText`: when no line of a head has a CR in it, the
  first blank line of a response is the end of its head, whatever the body is.
-/

namespace Carwatch.Interface

open Carwatch.Lib

/-! ## Statuses -/

/-- `HTTP_STATUS_OK` -/
abbrev httpStatusOk : ℤ := 200

/-- `HTTP_STATUS_BAD_REQUEST` -/
abbrev httpStatusBadRequest : ℤ := 400

/-- `HTTP_STATUS_NOT_FOUND` -/
abbrev httpStatusNotFound : ℤ := 404

/-- `HTTP_STATUS_METHOD_NOT_ALLOWED` -/
abbrev httpStatusMethodNotAllowed : ℤ := 405

/-- `HTTP_STATUS_HEADERS_TOO_LARGE` -/
abbrev httpStatusHeadersTooLarge : ℤ := 431

/-- `HTTP_STATUS_INTERNAL_ERROR` -/
abbrev httpStatusInternalError : ℤ := 500

/-- `HTTP_STATUS_UNAVAILABLE` -/
abbrev httpStatusUnavailable : ℤ := 503

/-- `status_text` -/
def statusText (status : ℤ) : Option Bytes :=
  if status = httpStatusOk then some (ascii "OK")
  else if status = httpStatusBadRequest then some (ascii "Bad Request")
  else if status = httpStatusNotFound then some (ascii "Not Found")
  else if status = httpStatusMethodNotAllowed then some (ascii "Method Not Allowed")
  else if status = httpStatusHeadersTooLarge then some (ascii "Request Header Fields Too Large")
  else if status = httpStatusInternalError then some (ascii "Internal Server Error")
  else if status = httpStatusUnavailable then some (ascii "Service Unavailable")
  else none

/-! ## The head -/

/-- `snprintf` of `%d` -/
def printSigned (v : ℤ) : Bytes :=
  if v < 0 then 0x2D :: printNat 10 10 v.natAbs else printNat 10 10 v.natAbs

/-- `snprintf` of `%zu` -/
def printSize (n : ℕ) : Bytes := printNat 10 20 n

/-- The lines of a head, without their CR LF. A 405 lists what is allowed. -/
def headLines (status : ℤ) (text ctype : Bytes) (bodyLen : ℕ) : List Bytes :=
  [ascii "HTTP/1.1 " ++ (printSigned status ++ 0x20 :: text),
    ascii "Content-Type: " ++ ctype,
    ascii "Content-Length: " ++ printSize bodyLen,
    ascii "Connection: close",
    ascii "Cache-Control: no-store",
    ascii "X-Content-Type-Options: nosniff"] ++
  if status = httpStatusMethodNotAllowed then [ascii "Allow: GET"] else []

/-- Lines, each with its CR LF, and the blank line behind them. -/
def headText (lines : List Bytes) : Bytes := lines.flatMap (· ++ crlf) ++ crlf

/-- `http_write_head` into `cap` bytes; `none` is -1. -/
def httpWriteHead (cap : ℕ) (status : ℤ) (ctype : Option Bytes) (bodyLen : ℕ) : Option Bytes :=
  match statusText status, ctype with
  | some text, some ctype =>
      let head := headText (headLines status text ctype bodyLen)
      if head.length ≥ cap then none else some head
  | _, _ => none

/-! ## Responses -/

/-- `SERVER_HEAD_MAX` -/
abbrev serverHeadMax : ℕ := 256

/-- `SERVER_BODY_MAX` -/
abbrev serverBodyMax : ℕ := 49152

/-- `server_response_t`: `body` is all of the buffer the handler may write to,
so `cap` is its length. -/
structure ServerResponse where
  status : ℤ
  ctype : Option Bytes
  body : Bytes
  bodyLen : ℕ

/-- The bytes of the body. -/
def ServerResponse.content (r : ServerResponse) : Bytes := r.body.take r.bodyLen

/-! ## Where a head ends -/

/-- A line that is a line: not empty, and without a line break. -/
structure IsLine (line : Bytes) : Prop where
  ne_nil : line ≠ []
  no_cr : 0x0D ∉ line
  no_lf : 0x0A ∉ line

theorem memmem_crlfcrlf_crlf {rest : Bytes} (h : rest.head? ≠ some 0x0D) :
    memmem crlfcrlf (crlf ++ rest) = (memmem crlfcrlf rest).map (· + 2) := by
  have hfirst : crlfcrlf.isPrefixOf (0x0D :: 0x0A :: rest) = false := by
    cases rest with
    | nil => rfl
    | cons c rest =>
        have hc : (0x0D == c) = false := by
          rw [beq_eq_false_iff_ne]
          rintro rfl
          exact h rfl
        simp [crlfcrlf, List.isPrefixOf, hc]
  have hsecond : crlfcrlf.isPrefixOf (0x0A :: rest) = false := rfl
  show memmem crlfcrlf (0x0D :: 0x0A :: rest) = _
  rw [memmem, if_neg (by simp [hfirst]), memmem, if_neg (by simp [hsecond]), Option.map_map]
  rfl

theorem head?_flatMap_lines {lines : List Bytes} (h : ∀ line ∈ lines, IsLine line) (hne : lines ≠ [])
    (rest : Bytes) : (lines.flatMap (· ++ crlf) ++ rest).head? ≠ some 0x0D := by
  cases lines with
  | nil => exact absurd rfl hne
  | cons line lines =>
      have hline := h line List.mem_cons_self
      cases line with
      | nil => exact absurd rfl hline.ne_nil
      | cons c line =>
          intro hc
          have hc' : c = 0x0D := Option.some.inj hc
          exact hline.no_cr (by rw [hc']; exact List.mem_cons_self)

/-- The first blank line is the end of the head. -/
theorem memmem_headText {lines : List Bytes} (h : ∀ line ∈ lines, IsLine line) (hne : lines ≠ [])
    (body : Bytes) :
    memmem crlfcrlf (headText lines ++ body) = some ((headText lines).length - 4) := by
  induction lines with
  | nil => exact absurd rfl hne
  | cons line lines ih =>
      have hline := h line List.mem_cons_self
      have hrest : ∀ l ∈ lines, IsLine l := fun l hl => h l (List.mem_cons_of_mem line hl)
      have hsplit : headText (line :: lines) ++ body = line ++ (crlf ++ (headText lines ++ body)) := by
        simp only [headText, List.flatMap_cons, List.append_assoc]
      have hlen : (headText (line :: lines)).length =
          line.length + 2 + (headText lines).length := by
        simp only [headText, List.flatMap_cons, List.length_append]
        show line.length + 2 + _ + 2 = line.length + 2 + (_ + 2)
        omega
      have hskip := @memmem_append_of_not_mem _ _ _ 0x0D [0x0A, 0x0D, 0x0A] line hline.no_cr
        (crlf ++ (headText lines ++ body))
      rw [hsplit]
      show memmem (0x0D :: [0x0A, 0x0D, 0x0A]) _ = _
      rw [hskip]
      cases lines with
      | nil =>
          -- the blank line follows at once
          have hfound : memmem (0x0D :: [0x0A, 0x0D, 0x0A]) (crlf ++ (headText [] ++ body)) =
              some 0 := rfl
          rw [hfound, hlen]
          show some (0 + line.length) = some (line.length + 2 + 2 - 4)
          congr 1
          omega
      | cons next lines =>
          have hhead : (headText (next :: lines) ++ body).head? ≠ some 0x0D := by
            rw [headText, List.append_assoc]
            exact head?_flatMap_lines hrest (List.cons_ne_nil _ _) _
          have hlong : 4 ≤ (headText (next :: lines)).length := by
            simp only [headText, List.flatMap_cons, List.length_append]
            show 4 ≤ next.length + 2 + _ + 2
            omega
          have hfound := memmem_crlfcrlf_crlf hhead
          rw [ih hrest (List.cons_ne_nil _ _)] at hfound
          show (memmem crlfcrlf _).map _ = _
          rw [hfound, hlen]
          show some (_ - 4 + 2 + line.length) = some (line.length + 2 + _ - 4)
          congr 1
          omega

end Carwatch.Interface
