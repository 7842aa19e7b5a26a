import Carwatch.Lib.Bytes
import Carwatch.Lib.Search

/-!
# Carwatch.Interface.Http — the request parser of `statusd` (`src/interface/http.c`)

`http_parse_request` is run from scratch on everything a connection has sent
so far. It looks for the blank line that ends the head, and then reads the
head alone.

* **Model layer**: `httpParseRequest` and what it calls, check by check in
  the order of the source. `memchr` is `List.idxOf?`; pointers into the
  buffer are the lists they delimit.
* **Stability**: `httpParseRequest_eq_incomplete_iff` says when the parser
  asks for more; `httpParseRequest_append` and `httpParseRequest_take` then
  follow from the two facts about the search.
-/

namespace Carwatch.Interface

open Carwatch.Lib

/-! ## Constants -/

/-- `HTTP_MAX_REQUEST` -/
abbrev httpMaxRequest : ℕ := 4096

/-- `HTTP_PATH_MAX` -/
abbrev httpPathMax : ℕ := 128

/-- `HTTP_QUERY_MAX` -/
abbrev httpQueryMax : ℕ := 256

/-- CR LF, the end of a line. -/
def crlf : Bytes := [0x0D, 0x0A]

/-- CR LF CR LF, the end of the head. -/
def crlfcrlf : Bytes := [0x0D, 0x0A, 0x0D, 0x0A]

/-- `GET` -/
def getWord : Bytes := [0x47, 0x45, 0x54]

/-- `HTTP/1.1` -/
def version11 : Bytes := [0x48, 0x54, 0x54, 0x50, 0x2F, 0x31, 0x2E, 0x31]

/-- `HTTP/1.0` -/
def version10 : Bytes := [0x48, 0x54, 0x54, 0x50, 0x2F, 0x31, 0x2E, 0x30]

/-! ## Percent decoding -/

/-- `hexval` -/
def hexval (c : UInt8) : Option ℕ :=
  if 0x30 ≤ c && c ≤ 0x39 then some (c.toNat - 0x30)
  else if 0x61 ≤ c && c ≤ 0x66 then some (c.toNat - 0x61 + 10)
  else if 0x41 ≤ c && c ≤ 0x46 then some (c.toNat - 0x41 + 10)
  else none

/-- The loop of `decode`, with `o` bytes written and the rest of the input
to go; the result is what it still writes. -/
def decodeFrom (cap : ℕ) (plusIsSpace : Bool) : ℕ → Bytes → Option Bytes
  | _, [] => some []
  | o, c :: rest =>
      if c = 0x25 then
        match rest with
        | h :: l :: rest' =>
            match hexval h, hexval l with
            | some hi, some lo =>
                let d := UInt8.ofNat (hi * 16 + lo)
                if d = 0 then none
                else if o + 1 ≥ cap then none
                else (decodeFrom cap plusIsSpace (o + 1) rest').map (d :: ·)
            | _, _ => none
        | _ => none
      else
        let d := if c = 0x2B && plusIsSpace then 0x20 else c
        if o + 1 ≥ cap then none
        else (decodeFrom cap plusIsSpace (o + 1) rest).map (d :: ·)

/-- `decode`: the decoded bytes, or `none` for a bad escape, an encoded NUL,
or no room for them and the NUL behind them. -/
def decode (inp : Bytes) (cap : ℕ) (plusIsSpace : Bool) : Option Bytes :=
  if cap = 0 then none else decodeFrom cap plusIsSpace 0 inp

/-! ## The request line -/

/-- `..` -/
def dotDot : Bytes := [0x2E, 0x2E]

/-- The loop of `path_is_unsafe` over the decoded path; `seg` is the segment
read so far. -/
def unsafeFrom : Bytes → Bytes → Bool
  | seg, [] => seg == dotDot
  | seg, c :: rest =>
      if c < 0x20 || c == 0x7F || c == 0x5C then true
      else if c == 0x2F then seg == dotDot || unsafeFrom [] rest
      else unsafeFrom (seg ++ [c]) rest

/-- `path_is_unsafe` -/
def pathIsUnsafe (path : Bytes) : Bool :=
  match decode path httpPathMax false with
  | none => true
  | some dec => unsafeFrom [] dec

/-- `http_request_t`: the text before the NUL of each field. -/
structure HttpRequest where
  path : Bytes
  query : Bytes
deriving DecidableEq, Repr

/-- `http_parse_t`, with what `HTTP_OK` leaves in `*out`. -/
inductive HttpParse where
  | incomplete
  | ok (req : HttpRequest)
  | bad
  | badMethod
  | tooLarge
deriving DecidableEq, Repr

/-- The target of the request line. -/
def parseTarget (target : Bytes) : HttpParse :=
  if target.head? ≠ some 0x2F then .bad
  else if target.any fun c => c ≤ 0x20 || 0x7F ≤ c || c == 0x5C then .bad
  else
    let q := target.idxOf? 0x3F
    let path := match q with
      | some i => target.take i
      | none => target
    let query := match q with
      | some i => target.drop (i + 1)
      | none => []
    if path.length ≥ httpPathMax || query.length ≥ httpQueryMax then .bad
    else if pathIsUnsafe path then .bad
    else .ok { path := path, query := query }

/-- The request line, without its CR LF. -/
def parseLine (line : Bytes) : HttpParse :=
  if line.contains 0x0A || line.contains 0x0D then .bad
  else
    match line.idxOf? 0x20 with
    | none => .bad
    | some sp1 =>
        if sp1 ≠ 3 || line.take 3 ≠ getWord then .badMethod
        else
          let target := line.drop (sp1 + 1)
          match target.idxOf? 0x20 with
          | none => .bad
          | some sp2 =>
              let ver := target.drop (sp2 + 1)
              if ver ≠ version11 && ver ≠ version10 then .bad
              else parseTarget (target.take sp2)

/-- A byte no head may carry: a control byte other than tab, CR and LF, or
DEL. -/
def isControl (c : UInt8) : Bool :=
  (c < 0x20 && c != 0x0D && c != 0x0A && c != 0x09) || c == 0x7F

/-- What `http_parse_request` does with a head of admissible size. -/
def parseHead (head : Bytes) : HttpParse :=
  if head.any isControl then .bad
  else
    match memmem crlf head with
    -- not taken: the head ends in CR LF (`memmem_crlf_head`)
    | none => .bad
    | some eol => parseLine (head.take eol)

/-- `http_parse_request` on `buf[0, len)`. -/
def httpParseRequest (buf : Bytes) : HttpParse :=
  match memmem crlfcrlf buf with
  | none => if buf.length ≥ httpMaxRequest then .tooLarge else .incomplete
  | some e =>
      let head := e + 4
      if head > httpMaxRequest then .tooLarge else parseHead (buf.take head)

/-! ## Query strings -/

/-- The loop of `http_query_get`; a round takes a pair and the `&` behind
it. -/
def queryGetFrom (key : Bytes) (n : ℕ) : ℕ → Bytes → Option Bytes
  | 0, _ => none
  | fuel + 1, p =>
      if p = [] then none
      else
        let pair := p.takeWhile (· ≠ 0x26)
        let name := pair.takeWhile (· ≠ 0x3D)
        if name = key then
          -- the `=` is skipped when there is one
          decode ((pair.drop name.length).drop 1) n true
        else queryGetFrom key n fuel ((p.drop pair.length).drop 1)

/-- `http_query_get`; `none` is -1. -/
def httpQueryGet (query key : Bytes) (n : ℕ) : Option Bytes :=
  queryGetFrom key n (query.length + 1) query

/-! ## Stability under more input -/

theorem crlfcrlf_end_le {buf : Bytes} {e : ℕ} (h : memmem crlfcrlf buf = some e) :
    e + 4 ≤ buf.length := by
  rcases memmem_add_length_le h with hle | hnil
  · exact hle
  · cases hnil

theorem parseTarget_ne_incomplete (target : Bytes) : parseTarget target ≠ .incomplete := by
  intro h
  unfold parseTarget at h
  split_ifs at h
  dsimp only at h
  split_ifs at h

theorem parseLine_ne_incomplete (line : Bytes) : parseLine line ≠ .incomplete := by
  intro h
  unfold parseLine at h
  split_ifs at h
  cases hsp : line.idxOf? 0x20 with
  | none =>
      rw [hsp] at h
      cases h
  | some sp1 =>
      simp only [hsp] at h
      split_ifs at h
      cases hsp2 : (line.drop (sp1 + 1)).idxOf? 0x20 with
      | none =>
          rw [hsp2] at h
          cases h
      | some sp2 =>
          simp only [hsp2] at h
          split_ifs at h
          exact parseTarget_ne_incomplete _ h

/-- A whole head gets an answer. -/
theorem parseHead_ne_incomplete (head : Bytes) : parseHead head ≠ .incomplete := by
  intro h
  unfold parseHead at h
  split_ifs at h
  cases heol : memmem crlf head with
  | none =>
      rw [heol] at h
      cases h
  | some eol =>
      rw [heol] at h
      exact parseLine_ne_incomplete _ h

/-- The parser asks for more exactly while there is room and no end. -/
theorem httpParseRequest_eq_incomplete_iff (buf : Bytes) :
    httpParseRequest buf = .incomplete ↔
      memmem crlfcrlf buf = none ∧ buf.length < httpMaxRequest := by
  unfold httpParseRequest
  cases hm : memmem crlfcrlf buf with
  | none =>
      show (if _ then _ else _) = _ ↔ _
      split_ifs with hlen
      · constructor
        · intro h
          cases h
        · intro h
          exact absurd h.2 (Nat.not_lt.mpr hlen)
      · exact ⟨fun _ => ⟨rfl, Nat.lt_of_not_le hlen⟩, fun _ => rfl⟩
  | some e =>
      show (if _ then _ else _) = _ ↔ _
      constructor
      · intro h
        split_ifs at h
        exact absurd h (parseHead_ne_incomplete _)
      · intro h
        cases h.1

/-- An answer, once given, is given on every extension of the buffer. -/
theorem httpParseRequest_append {buf : Bytes} (h : httpParseRequest buf ≠ .incomplete)
    (ext : Bytes) : httpParseRequest (buf ++ ext) = httpParseRequest buf := by
  cases hm : memmem crlfcrlf buf with
  | some e =>
      have hle := crlfcrlf_end_le hm
      unfold httpParseRequest
      rw [hm, memmem_append hm ext]
      simp only [List.take_append_of_le_length hle]
  | none =>
      have hlen : httpMaxRequest ≤ buf.length := by
        by_contra hlt
        exact h ((httpParseRequest_eq_incomplete_iff buf).mpr ⟨hm, Nat.lt_of_not_le hlt⟩)
      have hlarge : httpParseRequest buf = .tooLarge := by
        unfold httpParseRequest
        rw [hm]
        exact if_pos hlen
      rw [hlarge]
      unfold httpParseRequest
      cases hm' : memmem crlfcrlf (buf ++ ext) with
      | none =>
          have hlen' : httpMaxRequest ≤ (buf ++ ext).length := by
            rw [List.length_append]
            omega
          exact if_pos hlen'
      | some e =>
          -- an end that came with the extension lies beyond the cap
          have hbeyond : e + 4 > httpMaxRequest := by
            by_contra hle
            have hin : e + crlfcrlf.length ≤ buf.length := by
              show e + 4 ≤ buf.length
              omega
            rw [memmem_of_append hm' hin] at hm
            cases hm
          exact if_pos hbeyond

/-- Every strict prefix of an admissible head asks for more. -/
theorem httpParseRequest_take {buf : Bytes} {e : ℕ} (h : memmem crlfcrlf buf = some e)
    (hcap : e + 4 ≤ httpMaxRequest) {n : ℕ} (hn : n < e + 4) :
    httpParseRequest (buf.take n) = .incomplete := by
  rw [httpParseRequest_eq_incomplete_iff]
  have hlen : (buf.take n).length ≤ n := by
    rw [List.length_take]
    exact Nat.min_le_left _ _
  constructor
  · cases hm : memmem crlfcrlf (buf.take n) with
    | none => rfl
    | some j =>
        -- an end found in the prefix would be the first one of the buffer
        have hj := crlfcrlf_end_le hm
        have hfirst := memmem_append hm (buf.drop n)
        rw [List.take_append_drop, h] at hfirst
        have heq := Option.some.inj hfirst
        omega
  · omega

end Carwatch.Interface
