import Carwatch.Lib.Json
import Carwatch.Lib.Machine

/-!
# Carwatch.Interface.Json — the JSON writer of `statusd` (`src/interface/json.c`)

The writer builds a document in a buffer of its caller, call by call. Errors
are sticky, and whether the document is whole shows at the end only.

* **Model layer**: `JsonWriter` and the calls, over the caller's whole buffer.
* **Plan**: `JsonPos.call` says what a call writes and where it leaves the
  writer, capacity apart.
* **Result**: `run_follows`, over call sequences of any length: the writer has
  written what the plan says, or has failed for want of room. Nothing after it
  unfolds a call.
-/

namespace Carwatch.Interface

open Carwatch.Lib

/-! ## The writer -/

/-- `JSON_MAX_DEPTH` -/
abbrev jsonMaxDepth : ℕ := 8

/-- `is_object` and `has_item` of one open container. -/
structure JsonOpen where
  isObject : Bool
  hasItem : Bool

/-- Where the writer stands in its document: the open containers, innermost
first (`depth` is their number), and the flags `after_key` and `done`. -/
structure JsonPos where
  opened : List JsonOpen := []
  afterKey : Bool := false
  done : Bool := false

/-- `json_t`; `buf` is all of the caller's buffer, so `cap` is its length. -/
structure JsonWriter where
  buf : Bytes
  len : ℕ := 0
  pos : JsonPos := {}
  failed : Bool := false

/-- `cap` -/
def JsonWriter.cap (j : JsonWriter) : ℕ := j.buf.length

/-- `fail` -/
def JsonWriter.fail (j : JsonWriter) : JsonWriter := { j with failed := true }

/-- `memcpy(buf + off, s, n)` -/
def overwrite (buf : Bytes) (off : ℕ) (s : Bytes) : Bytes :=
  buf.take off ++ (s ++ buf.drop (off + s.length))

/-- `put`: the bytes and a NUL behind them. -/
def put (j : JsonWriter) (s : Bytes) : JsonWriter :=
  if j.failed then j
  else if s.length ≥ j.cap - j.len then j.fail
  else { j with buf := overwrite j.buf j.len (s ++ [0]), len := j.len + s.length }

/-- `json_init` -/
def jsonInit (buf : Bytes) : JsonWriter :=
  if buf.length = 0 then { buf := buf, failed := true } else { buf := overwrite buf 0 [0] }

/-- `begin_value`: whether a value may go here, and the comma before it. -/
def beginValue (j : JsonWriter) : Bool × JsonWriter :=
  if j.failed then (false, j)
  else
    match j.pos.opened with
    | [] => if j.pos.done then (false, j.fail) else (true, j)
    | top :: below =>
        if top.isObject then
          -- an object wants a key first
          if j.pos.afterKey then (true, { j with pos := { j.pos with afterKey := false } })
          else (false, j.fail)
        else
          let j := if top.hasItem then put j [0x2C] else j
          let j := { j with pos := { j.pos with opened := { top with hasItem := true } :: below } }
          (!j.failed, j)

/-- `end_value` -/
def endValue (j : JsonWriter) : JsonWriter :=
  if j.pos.opened.length = 0 then { j with pos := { j.pos with done := true } } else j

/-- `put_scalar` -/
def putScalar (j : JsonWriter) (text : Bytes) : JsonWriter :=
  match beginValue j with
  | (false, j) => j
  | (true, j) => endValue (put j text)

/-- `snprintf` of `%04x` -/
def hex4 (n : ℕ) : Bytes :=
  [digitChar (n / 4096 % 16), digitChar (n / 256 % 16), digitChar (n / 16 % 16), digitChar (n % 16)]

/-- What `put_quoted` writes for one ASCII character. -/
def escape (c : UInt8) : Bytes :=
  if c = 0x22 then [0x5C, 0x22]
  else if c = 0x5C then [0x5C, 0x5C]
  else if c = 0x08 then [0x5C, 0x62]
  else if c = 0x0C then [0x5C, 0x66]
  else if c = 0x0A then [0x5C, 0x6E]
  else if c = 0x0D then [0x5C, 0x72]
  else if c = 0x09 then [0x5C, 0x74]
  else if c < 0x20 || c == 0x7F then 0x5C :: 0x75 :: hex4 c.toNat
  else [c]

/-- The loop of `put_quoted`. -/
def putChars (j : JsonWriter) : Bytes → JsonWriter
  | [] => j
  | c :: s =>
      if j.failed then j
      else if 0x80 ≤ c then j.fail
      else putChars (put j (escape c)) s

/-- `put_quoted`; `none` is a null pointer. A return from inside the loop
leaves a failed writer, for which the closing quote does nothing either. -/
def putQuoted (j : JsonWriter) : Option Bytes → JsonWriter
  | none => j.fail
  | some s => put (putChars (put j [0x22]) s) [0x22]

/-- `begin_container` -/
def beginContainer (j : JsonWriter) (object : Bool) : JsonWriter :=
  match beginValue j with
  | (false, j) => j
  | (true, j) =>
      if j.pos.opened.length ≥ jsonMaxDepth then j.fail
      else
        put { j with pos := { j.pos with opened := ⟨object, false⟩ :: j.pos.opened } }
          [if object then 0x7B else 0x5B]

/-- `end_container` -/
def endContainer (j : JsonWriter) (object : Bool) : JsonWriter :=
  if j.failed then j
  else
    match j.pos.opened with
    | [] => j.fail
    | top :: below =>
        if top.isObject != object || j.pos.afterKey then j.fail
        else
          endValue (put { j with pos := { j.pos with opened := below } }
            [if object then 0x7D else 0x5D])

/-- `json_key` -/
def jsonKey (j : JsonWriter) (key : Option Bytes) : JsonWriter :=
  if j.failed then j
  else
    match key, j.pos.opened with
    | none, _ => j.fail
    | _, [] => j.fail
    | some key, top :: below =>
        if !top.isObject || j.pos.afterKey then j.fail
        else
          let j := if top.hasItem then put j [0x2C] else j
          let j := { j with pos := { j.pos with opened := { top with hasItem := true } :: below } }
          let j := put (putQuoted j (some key)) [0x3A]
          { j with pos := { j.pos with afterKey := true } }

/-- `json_string` -/
def jsonString (j : JsonWriter) (s : Option Bytes) : JsonWriter :=
  match beginValue j with
  | (false, j) => j
  | (true, j) => endValue (putQuoted j s)

/-- `snprintf` of `%llu` -/
def printUint (v : UInt64) : Bytes := printNat 10 20 v.toNat

/-- `snprintf` of `%lld` -/
def printInt (v : Int64) : Bytes :=
  if v.toInt < 0 then 0x2D :: printNat 10 20 v.toInt.natAbs else printNat 10 20 v.toInt.natAbs

/-! ### `json_is_number`, part by part -/

/-- `if (*p == '0') p++; else if (*p >= '1' && *p <= '9') while (is_digit(*p)) p++;
else return false;` -/
def passInt : Bytes → Option Bytes
  | [] => none
  | c :: p =>
      if c = 0x30 then some p
      else if 0x31 ≤ c && c ≤ 0x39 then some ((c :: p).dropWhile isDigit)
      else none

/-- `if (!is_digit(*p)) return false; while (is_digit(*p)) p++;` -/
def passDigits : Bytes → Option Bytes
  | [] => none
  | c :: p => if !isDigit c then none else some ((c :: p).dropWhile isDigit)

/-- The part behind a `.`. -/
def passFrac : Bytes → Option Bytes
  | [] => some []
  | c :: p => if c = 0x2E then passDigits p else some (c :: p)

/-- `if (*p == '+' || *p == '-') p++;` -/
def passSign : Bytes → Bytes
  | [] => []
  | c :: p => if c = 0x2B || c = 0x2D then p else c :: p

/-- The part behind an `e` or `E`. -/
def passExp : Bytes → Option Bytes
  | [] => some []
  | c :: p => if c = 0x65 || c = 0x45 then passDigits (passSign p) else some (c :: p)

/-- `json_is_number` of a string that is not null. -/
def jsonIsNumber (text : Bytes) : Bool :=
  let p := match text with
    | [] => []
    | c :: q => if c = 0x2D then q else c :: q
  match passInt p with
  | none => false
  | some p =>
      match passFrac p with
      | none => false
      | some p =>
          match passExp p with
          | none => false
          | some p => p == []

/-- `json_number` -/
def jsonNumber (j : JsonWriter) : Option Bytes → JsonWriter
  | none => j.fail
  | some text => if !jsonIsNumber text then j.fail else putScalar j text

/-- `json_finish`; `none` is -1. -/
def jsonFinish (j : JsonWriter) : Option ℕ :=
  if j.failed || j.pos.opened.length != 0 || !j.pos.done then none else some j.len

/-- A call of the writer. A string argument is the bytes before its NUL, or
`none` for a null pointer. -/
inductive JsonCall where
  | beginObject
  | endObject
  | beginArray
  | endArray
  | key (k : Option Bytes)
  | string (s : Option Bytes)
  | int (v : Int64)
  | uint (v : UInt64)
  | bool (v : Bool)
  | null
  | number (text : Option Bytes)

/-- One call. -/
def JsonWriter.exec (j : JsonWriter) : JsonCall → JsonWriter
  | .beginObject => beginContainer j true
  | .endObject => endContainer j true
  | .beginArray => beginContainer j false
  | .endArray => endContainer j false
  | .key k => jsonKey j k
  | .string s => jsonString j s
  | .int v => putScalar j (printInt v)
  | .uint v => putScalar j (printUint v)
  | .bool v => putScalar j (if v then trueWord else falseWord)
  | .null => putScalar j nullWord
  | .number text => jsonNumber j text

/-! ## Numbers -/

theorem passInt_eq_scanInt (t : Bytes) : passInt t = scanInt t := by
  cases t with
  | nil => rfl
  | cons c t =>
      rw [passInt, scanInt, scanDigits]
      by_cases hzero : c = 0x30
      · rw [if_pos hzero, if_pos hzero]
      · have hdigit : (0x31 ≤ c && c ≤ 0x39) = isDigit c := by
          have hne : c.toNat ≠ 48 := fun h => hzero (UInt8.toNat_inj.mp h)
          rw [isDigit, Bool.eq_iff_iff]
          simp only [Bool.and_eq_true, decide_eq_true_eq, UInt8.le_iff_toNat_le]
          show 49 ≤ c.toNat ∧ c.toNat ≤ 57 ↔ 48 ≤ c.toNat ∧ c.toNat ≤ 57
          omega
        rw [if_neg hzero, if_neg hzero, hdigit]
        by_cases hd : isDigit c = true
        · rw [if_pos hd, if_pos hd, List.dropWhile_cons, if_pos hd]
        · rw [if_neg hd, if_neg hd]

theorem passDigits_eq_scanDigits (t : Bytes) : passDigits t = scanDigits t := by
  cases t with
  | nil => rfl
  | cons c t =>
      rw [passDigits, scanDigits]
      by_cases hd : isDigit c = true
      · rw [if_neg (by simp [hd]), if_pos hd, List.dropWhile_cons, if_pos hd]
      · rw [if_pos (by simpa using hd), if_neg hd]

theorem passFrac_eq_scanFrac (t : Bytes) : passFrac t = scanFrac t := by
  cases t with
  | nil => rfl
  | cons c t => rw [passFrac, scanFrac, passDigits_eq_scanDigits]

theorem passExp_eq_scanExp (t : Bytes) : passExp t = scanExp t := by
  cases t with
  | nil => rfl
  | cons c t =>
      have hsign : passSign t = dropSign t := by
        cases t with
        | nil => rfl
        | cons s t => simp [passSign, dropSign]
      rw [passExp, scanExp, passDigits_eq_scanDigits, hsign]
      simp

/-- `json_is_number` decides JSON's grammar of numbers. -/
theorem jsonIsNumber_iff (t : Bytes) : jsonIsNumber t = true ↔ IsNumber t := by
  rw [← numberOk_iff]
  have hminus : (match t with
      | [] => []
      | c :: q => if c = 0x2D then q else c :: q) = dropMinus t := by
    cases t with
    | nil => rfl
    | cons c t => rfl
  unfold jsonIsNumber numberOk
  rw [hminus]
  simp only [passInt_eq_scanInt, passFrac_eq_scanFrac, passExp_eq_scanExp]
  cases scanInt (dropMinus t) with
  | none => rfl
  | some p =>
      cases hf : scanFrac p with
      | none => simp [hf]
      | some q =>
          cases he : scanExp q with
          | none => simp [hf, he]
          | some r => simp [hf, he]

theorem isNumber_printUint (v : UInt64) : IsNumber (printUint v) := by
  have hv := v.toNat_lt
  have hbound : v.toNat < 10 ^ (19 + 1) := by omega
  exact isNumber_of_isInt (Or.inl rfl) (isInt_printNat hbound)

theorem isNumber_printInt (v : Int64) : IsNumber (printInt v) := by
  have hlo := v.le_toInt
  have hhi := v.toInt_lt
  have habs : v.toInt.natAbs < 10 ^ (19 + 1) := by omega
  unfold printInt
  split_ifs
  · exact isNumber_of_isInt (Or.inr rfl) (isInt_printNat habs)
  · exact isNumber_of_isInt (Or.inl rfl) (isInt_printNat habs)

/-! ## What a call writes, capacity apart -/

/-- What `begin_value` writes, and where it leaves the writer; `none` is a
value where none may go. -/
def JsonPos.lead (p : JsonPos) : Option (JsonPos × Bytes) :=
  match p.opened with
  | [] => if p.done then none else some (p, [])
  | top :: below =>
      if top.isObject then
        if p.afterKey then some ({ p with afterKey := false }, []) else none
      else
        some ({ p with opened := { top with hasItem := true } :: below },
          if top.hasItem then [0x2C] else [])

/-- `end_value` -/
def JsonPos.ended (p : JsonPos) : JsonPos :=
  if p.opened.length = 0 then { p with done := true } else p

/-- One plan, and then the next from where it leaves the writer. -/
def andThen (plan : Option (JsonPos × Bytes)) (next : JsonPos → Option (JsonPos × Bytes)) :
    Option (JsonPos × Bytes) :=
  match plan with
  | none => none
  | some (p, out) =>
      match next p with
      | none => none
      | some (p', out') => some (p', out ++ out')

/-- A value without parts. -/
def JsonPos.scalar (p : JsonPos) (text : Bytes) : Option (JsonPos × Bytes) :=
  andThen p.lead fun p => some (p.ended, text)

/-- The begin of a container. -/
def JsonPos.enter (p : JsonPos) (object : Bool) : Option (JsonPos × Bytes) :=
  andThen p.lead fun p =>
    if p.opened.length ≥ jsonMaxDepth then none
    else some ({ p with opened := ⟨object, false⟩ :: p.opened }, [if object then 0x7B else 0x5B])

/-- The end of a container. -/
def JsonPos.leave (p : JsonPos) (object : Bool) : Option (JsonPos × Bytes) :=
  match p.opened with
  | [] => none
  | top :: below =>
      if top.isObject != object || p.afterKey then none
      else some ({ p with opened := below }.ended, [if object then 0x7D else 0x5D])

/-- The key of a member. -/
def JsonPos.name (p : JsonPos) (key : Bytes) : Option (JsonPos × Bytes) :=
  match p.opened with
  | [] => none
  | top :: below =>
      if !top.isObject || p.afterKey || key.any (0x80 ≤ ·) then none
      else some ({ p with opened := { top with hasItem := true } :: below, afterKey := true },
        (if top.hasItem then [0x2C] else []) ++ (renderString key ++ [0x3A]))

/-- What a call writes and where it leaves the writer; `none` is a failure
whatever the room. -/
def JsonPos.call (p : JsonPos) : JsonCall → Option (JsonPos × Bytes)
  | .beginObject => p.enter true
  | .endObject => p.leave true
  | .beginArray => p.enter false
  | .endArray => p.leave false
  | .key none => none
  | .key (some k) => p.name k
  | .string none => none
  | .string (some s) => if s.any (0x80 ≤ ·) then none else p.scalar (renderString s)
  | .int v => p.scalar (printInt v)
  | .uint v => p.scalar (printUint v)
  | .bool v => p.scalar (if v then trueWord else falseWord)
  | .null => p.scalar nullWord
  | .number none => none
  | .number (some text) => if !jsonIsNumber text then none else p.scalar text

/-- The same for a sequence of calls. -/
def JsonPos.calls (p : JsonPos) : List JsonCall → Option (JsonPos × Bytes)
  | [] => some (p, [])
  | c :: cs => andThen (p.call c) fun p => JsonPos.calls p cs

/-! ## The writer follows its plan -/

/-- A writer that has not failed: what it has written, a NUL behind that, and
where it stands. -/
structure JsonWriter.Holds (j : JsonWriter) (cap : ℕ) (text : Bytes) (pos : JsonPos) : Prop where
  ok : j.failed = false
  cap_eq : j.cap = cap
  len_eq : j.len = text.length
  written : j.buf.take text.length = text
  nul : j.buf[text.length]? = some 0
  pos_eq : j.pos = pos

/-- A writer that should have written `text`: it has, or that does not fit and
the writer has failed. -/
def JsonWriter.Yields (j : JsonWriter) (cap : ℕ) (text : Bytes) (pos : JsonPos) : Prop :=
  if text.length < cap then j.Holds cap text pos else j.failed = true

theorem JsonWriter.Holds.lt {j : JsonWriter} {cap : ℕ} {text : Bytes} {pos : JsonPos}
    (h : j.Holds cap text pos) : text.length < cap := by
  rw [← h.cap_eq]
  by_contra hle
  have hnone := List.getElem?_eq_none (not_lt.mp hle)
  rw [h.nul] at hnone
  cases hnone

theorem JsonWriter.Holds.yields {j : JsonWriter} {cap : ℕ} {text : Bytes} {pos : JsonPos}
    (h : j.Holds cap text pos) : j.Yields cap text pos := by
  rw [Yields, if_pos h.lt]
  exact h

theorem JsonWriter.Yields.cases {j : JsonWriter} {cap : ℕ} {text : Bytes} {pos : JsonPos}
    (h : j.Yields cap text pos) : j.Holds cap text pos ∨ (cap ≤ text.length ∧ j.failed = true) := by
  rw [Yields] at h
  split_ifs at h with hlt
  · exact Or.inl h
  · exact Or.inr ⟨not_lt.mp hlt, h⟩

/-- A failed writer is one that ran out of room before. -/
theorem JsonWriter.Yields.of_failed {j : JsonWriter} {cap : ℕ} {text : Bytes} {pos : JsonPos}
    (hj : j.failed = true) (h : cap ≤ text.length) : j.Yields cap text pos := by
  rw [Yields, if_neg (not_lt.mpr h)]
  exact hj

/-! What was written over, read again. -/

theorem length_overwrite {buf s : Bytes} {off : ℕ} (h : off + s.length ≤ buf.length) :
    (overwrite buf off s).length = buf.length := by
  simp only [overwrite, List.length_append, List.length_take, List.length_drop]
  omega

theorem take_overwrite {buf s : Bytes} {off : ℕ} (h : off ≤ buf.length) :
    (overwrite buf off s).take (off + s.length) = buf.take off ++ s := by
  have hlen : (buf.take off ++ s).length = off + s.length := by
    rw [List.length_append, List.length_take, Nat.min_eq_left h]
  rw [overwrite, ← List.append_assoc]
  exact List.take_left' hlen

theorem put_yields {j : JsonWriter} {cap : ℕ} {text : Bytes} {pos : JsonPos}
    (h : j.Yields cap text pos) (s : Bytes) : (put j s).Yields cap (text ++ s) pos := by
  rcases h.cases with hj | ⟨hfull, hfail⟩
  · have hlt := hj.lt
    have hcap := hj.cap_eq
    unfold put
    rw [if_neg (by simp [hj.ok]), hcap, hj.len_eq]
    by_cases hroom : s.length ≥ cap - text.length
    · rw [if_pos hroom]
      exact JsonWriter.Yields.of_failed rfl (by rw [List.length_append]; omega)
    · rw [if_neg hroom]
      have hbuf : j.buf.length = cap := hcap
      have hwrite : text.length + (s ++ [0]).length ≤ j.buf.length := by
        rw [List.length_append, List.length_singleton]
        omega
      have htake := @take_overwrite j.buf (s ++ [0]) text.length (by omega)
      rw [hj.written] at htake
      -- the text and its NUL are the front of the new buffer
      have hfront : (overwrite j.buf text.length (s ++ [0])).take ((text ++ s).length + 1) =
          (text ++ s) ++ [0] := by
        rw [List.append_assoc, ← htake]
        congr 1
        rw [List.length_append, List.length_append, List.length_singleton]
        omega
      apply JsonWriter.Holds.yields
      refine ⟨hj.ok, ?_, ?_, ?_, ?_, hj.pos_eq⟩
      · show (overwrite j.buf text.length (s ++ [0])).length = cap
        rw [length_overwrite hwrite, hbuf]
      · show text.length + s.length = (text ++ s).length
        rw [List.length_append]
      · show (overwrite j.buf text.length (s ++ [0])).take (text ++ s).length = text ++ s
        have hshort := congrArg (List.take (text ++ s).length) hfront
        rwa [List.take_take, Nat.min_eq_left (Nat.le_succ _), List.take_left' rfl] at hshort
      · show (overwrite j.buf text.length (s ++ [0]))[(text ++ s).length]? = some 0
        have hlast := congrArg (fun l => l[(text ++ s).length]?) hfront
        simp only [List.getElem?_take_of_succ] at hlast
        rw [hlast]
        simp
  · have hput : put j s = j := by
      unfold put
      rw [if_pos hfail]
    rw [hput]
    exact JsonWriter.Yields.of_failed hfail (by rw [List.length_append]; omega)

/-- Moving the writer writes nothing. -/
theorem mapPos_yields {j : JsonWriter} {cap : ℕ} {text : Bytes} {pos : JsonPos}
    (h : j.Yields cap text pos) (f : JsonPos → JsonPos) :
    JsonWriter.Yields { j with pos := f j.pos } cap text (f pos) := by
  rcases h.cases with hj | ⟨hfull, hfail⟩
  · refine JsonWriter.Holds.yields ⟨hj.ok, hj.cap_eq, hj.len_eq, hj.written, hj.nul, ?_⟩
    show f j.pos = f pos
    rw [hj.pos_eq]
  · exact JsonWriter.Yields.of_failed hfail hfull

theorem endValue_failed {j : JsonWriter} (h : j.failed = true) : (endValue j).failed = true := by
  unfold endValue
  split_ifs
  · exact h
  · exact h

theorem endValue_yields {j : JsonWriter} {cap : ℕ} {text : Bytes} {pos : JsonPos}
    (h : j.Yields cap text pos) : (endValue j).Yields cap text pos.ended := by
  rcases h.cases with hj | ⟨hfull, hfail⟩
  · rw [endValue, hj.pos_eq, JsonPos.ended]
    split_ifs with hdepth
    · exact mapPos_yields h fun _ => { pos with done := true }
    · exact h
  · exact JsonWriter.Yields.of_failed (endValue_failed hfail) hfull

/-! ### Sticky failures -/

theorem put_of_failed {j : JsonWriter} (h : j.failed = true) (s : Bytes) : put j s = j := by
  unfold put
  rw [if_pos h]

theorem put_failed {j : JsonWriter} (h : j.failed = true) (s : Bytes) :
    (put j s).failed = true := by
  rw [put_of_failed h]
  exact h

/-! ### What every call keeps -/

/-- A property of writers that the three ways to change one keep. Every call
is made of these, so every call keeps it (`Kept.exec`). -/
structure Kept (P : JsonWriter → Prop) : Prop where
  put : ∀ {j : JsonWriter} (s : Bytes), P j → P (put j s)
  fail : ∀ {j : JsonWriter}, P j → P j.fail
  move : ∀ {j : JsonWriter} (pos : JsonPos), P j → P { j with pos := pos }

section Kept

variable {P : JsonWriter → Prop} {j : JsonWriter}

theorem Kept.beginValue (hP : Kept P) (h : P j) : P (beginValue j).2 := by
  unfold Interface.beginValue
  by_cases hfail : j.failed = true
  · rw [if_pos hfail]
    exact h
  · rw [if_neg hfail]
    cases hopen : j.pos.opened with
    | nil =>
        dsimp only
        split_ifs
        · exact hP.fail h
        · exact h
    | cons top below =>
        dsimp only
        by_cases hobject : top.isObject = true
        · rw [if_pos hobject]
          split_ifs
          · exact hP.move _ h
          · exact hP.fail h
        · rw [if_neg hobject]
          split_ifs
          · exact hP.move _ (hP.put _ h)
          · exact hP.move _ h

theorem Kept.endValue (hP : Kept P) (h : P j) : P (endValue j) := by
  unfold Interface.endValue
  split_ifs
  · exact hP.move _ h
  · exact h

/-- `if (!begin_value(j)) return;` and what comes after it. -/
theorem Kept.afterBegin (hP : Kept P) (h : P j) {k : JsonWriter → JsonWriter}
    (hk : ∀ j, P j → P (k j)) :
    P (match Interface.beginValue j with
      | (false, j) => j
      | (true, j) => k j) := by
  have hbegin := hP.beginValue h
  cases hb : Interface.beginValue j with
  | mk ok j' =>
      rw [hb] at hbegin
      cases ok with
      | false => exact hbegin
      | true => exact hk j' hbegin

theorem Kept.putScalar (hP : Kept P) (h : P j) (text : Bytes) : P (putScalar j text) :=
  hP.afterBegin h fun _ hj => hP.endValue (hP.put text hj)

theorem Kept.putChars (hP : Kept P) (h : P j) (s : Bytes) : P (putChars j s) := by
  induction s generalizing j with
  | nil => exact h
  | cons c s ih =>
      rw [Interface.putChars]
      split_ifs
      · exact h
      · exact hP.fail h
      · exact ih (hP.put _ h)

theorem Kept.putQuoted (hP : Kept P) (h : P j) (s : Option Bytes) : P (putQuoted j s) := by
  cases s with
  | none => exact hP.fail h
  | some s => exact hP.put _ (hP.putChars (hP.put _ h) s)

theorem Kept.beginContainer (hP : Kept P) (h : P j) (object : Bool) :
    P (beginContainer j object) := by
  apply hP.afterBegin h
  intro j' hj'
  split_ifs
  · exact hP.fail hj'
  · exact hP.put _ (hP.move _ hj')
  · exact hP.put _ (hP.move _ hj')

theorem Kept.endContainer (hP : Kept P) (h : P j) (object : Bool) : P (endContainer j object) := by
  unfold Interface.endContainer
  by_cases hfail : j.failed = true
  · rw [if_pos hfail]
    exact h
  · rw [if_neg hfail]
    cases hopen : j.pos.opened with
    | nil => exact hP.fail h
    | cons top below =>
        dsimp only
        by_cases hwrong : (top.isObject != object || j.pos.afterKey) = true
        · rw [if_pos hwrong]
          exact hP.fail h
        · rw [if_neg hwrong]
          exact hP.endValue (hP.put _ (hP.move _ h))

theorem Kept.jsonKey (hP : Kept P) (h : P j) (key : Option Bytes) : P (jsonKey j key) := by
  unfold Interface.jsonKey
  by_cases hfail : j.failed = true
  · rw [if_pos hfail]
    exact h
  · rw [if_neg hfail]
    split
    · exact hP.fail h
    · exact hP.fail h
    · split_ifs
      · exact hP.fail h
      · exact hP.move _ (hP.put _ (hP.putQuoted (hP.move _ (hP.put _ h)) _))
      · exact hP.move _ (hP.put _ (hP.putQuoted (hP.move _ h) _))

/-- Every call keeps it. -/
theorem Kept.exec (hP : Kept P) (h : P j) (c : JsonCall) : P (j.exec c) := by
  cases c with
  | beginObject => exact hP.beginContainer h true
  | endObject => exact hP.endContainer h true
  | beginArray => exact hP.beginContainer h false
  | endArray => exact hP.endContainer h false
  | key k => exact hP.jsonKey h k
  | string s => exact hP.afterBegin h fun _ hj => hP.endValue (hP.putQuoted hj s)
  | int v => exact hP.putScalar h _
  | uint v => exact hP.putScalar h _
  | bool v => exact hP.putScalar h _
  | null => exact hP.putScalar h _
  | number text =>
      show P (jsonNumber j text)
      cases text with
      | none => exact hP.fail h
      | some text =>
          rw [jsonNumber]
          split_ifs
          · exact hP.fail h
          · exact hP.putScalar h text

/-- So does a sequence of calls. -/
theorem Kept.run (hP : Kept P) (h : P j) (cs : List JsonCall) : P (run JsonWriter.exec j cs) :=
  run_invariant JsonWriter.exec P (fun _ c hj => hP.exec hj c) j h cs

end Kept

theorem cap_put (j : JsonWriter) (s : Bytes) : (put j s).cap = j.cap := by
  unfold put
  split_ifs with hfail hroom
  · rfl
  · rfl
  · apply length_overwrite
    rw [List.length_append, List.length_singleton]
    unfold JsonWriter.cap at hroom
    omega

theorem kept_cap (cap : ℕ) : Kept (·.cap = cap) where
  put s h := (cap_put _ s).trans h
  fail h := h
  move _ h := h

/-- No call changes the size of the buffer. -/
theorem cap_run (j : JsonWriter) (cs : List JsonCall) :
    (run JsonWriter.exec j cs).cap = j.cap :=
  (kept_cap j.cap).run rfl cs

/-- A failed writer, with this in its buffer. -/
def JsonWriter.Stuck (buf : Bytes) (len : ℕ) (j : JsonWriter) : Prop :=
  j.failed = true ∧ j.buf = buf ∧ j.len = len

theorem kept_stuck (buf : Bytes) (len : ℕ) : Kept (JsonWriter.Stuck buf len) where
  put s h := by
    rw [put_of_failed h.1]
    exact h
  fail h := ⟨rfl, h.2⟩
  move _ h := h

/-- A failed writer stays failed. -/
theorem exec_of_failed {j : JsonWriter} (h : j.failed = true) (c : JsonCall) :
    (j.exec c).failed = true :=
  ((kept_stuck j.buf j.len).exec ⟨h, rfl, rfl⟩ c).1

theorem cap_jsonInit (buf : Bytes) : (jsonInit buf).cap = buf.length := by
  unfold jsonInit
  split_ifs with h
  · rfl
  · apply length_overwrite
    rw [List.length_singleton]
    omega

/-! ### One call -/

/-- A writer after a call with this plan, `text` being what it had written
before. -/
def JsonWriter.Follows (j : JsonWriter) (cap : ℕ) (text : Bytes) :
    Option (JsonPos × Bytes) → Prop
  | none => j.failed = true
  | some (pos, out) => j.Yields cap (text ++ out) pos

theorem follows_of_failed {j : JsonWriter} {cap : ℕ} {text : Bytes} (hj : j.failed = true)
    (h : cap ≤ text.length) (plan : Option (JsonPos × Bytes)) : j.Follows cap text plan := by
  cases plan with
  | none => exact hj
  | some p =>
      exact JsonWriter.Yields.of_failed hj (by rw [List.length_append]; omega)

/-- `begin_value` says no exactly when the writer has failed. -/
theorem beginValue_follows {j : JsonWriter} {cap : ℕ} {text : Bytes} {pos : JsonPos}
    (h : j.Holds cap text pos) :
    (beginValue j).2.Follows cap text pos.lead ∧
    ((beginValue j).1 = false ↔ (beginValue j).2.failed = true) := by
  have hok := h.ok
  unfold beginValue JsonPos.lead
  rw [if_neg (by simp [hok]), h.pos_eq]
  rcases pos with ⟨opened, afterKey, done⟩
  cases opened with
  | nil =>
      cases done with
      | true => exact ⟨rfl, by simp [JsonWriter.fail]⟩
      | false =>
          refine ⟨?_, by simp [hok]⟩
          show j.Yields cap (text ++ []) _
          rw [List.append_nil]
          exact h.yields
  | cons top below =>
      rcases top with ⟨isObject, hasItem⟩
      cases isObject with
      -- in an object only a key can be waiting, and it has put its own comma
      | true =>
          cases afterKey with
          | true =>
              refine ⟨?_, by simp [hok]⟩
              show JsonWriter.Yields { j with pos := _ } cap (text ++ []) _
              rw [List.append_nil]
              exact mapPos_yields h.yields fun _ => _
          | false => exact ⟨rfl, by simp [JsonWriter.fail]⟩
      | false =>
          refine ⟨?_, by simp⟩
          cases hasItem with
          -- an item behind another one
          | true =>
              exact mapPos_yields (put_yields h.yields [0x2C])
                fun p => { p with opened := ⟨false, true⟩ :: below }
          | false =>
              show JsonWriter.Yields { j with pos := { j.pos with opened := _ } } cap (text ++ []) _
              rw [List.append_nil]
              exact mapPos_yields h.yields fun p => { p with opened := ⟨false, true⟩ :: below }

/-- What follows one plan and then the next follows both. -/
theorem follows_andThen {j j' : JsonWriter} {cap : ℕ} {text : Bytes}
    {plan : Option (JsonPos × Bytes)} {next : JsonPos → Option (JsonPos × Bytes)}
    (h : j.Follows cap text plan) (hfail : j.failed = true → j'.failed = true)
    (hnext : ∀ text' p, j.Yields cap text' p → j'.Follows cap text' (next p)) :
    j'.Follows cap text (andThen plan next) := by
  unfold andThen
  cases plan with
  | none => exact hfail h
  | some q =>
      rcases q with ⟨p, out⟩
      have hj' := hnext (text ++ out) p h
      dsimp only
      cases hn : next p with
      | none =>
          rw [hn] at hj'
          exact hj'
      | some q' =>
          rw [hn] at hj'
          show j'.Yields cap (text ++ (out ++ q'.2)) q'.1
          rw [← List.append_assoc]
          exact hj'

/-- `if (!begin_value(j)) return;` and what comes after it. -/
theorem beginValue_andThen {j : JsonWriter} {cap : ℕ} {text : Bytes} {pos : JsonPos}
    (h : j.Holds cap text pos) {k : JsonWriter → JsonWriter}
    {next : JsonPos → Option (JsonPos × Bytes)}
    (hk : ∀ j' text' p, j'.Yields cap text' p → (k j').Follows cap text' (next p)) :
    (match beginValue j with
      | (false, j) => j
      | (true, j) => k j).Follows cap text (andThen pos.lead next) := by
  rcases beginValue_follows h with ⟨hlead, hgo⟩
  rcases hb : beginValue j with ⟨go, j'⟩
  rw [hb] at hlead hgo
  refine follows_andThen hlead ?_ ?_
  · intro hfail
    have hstop : go = false := hgo.mpr hfail
    subst hstop
    exact hfail
  · intro text' p hy
    cases go with
    | true => exact hk j' text' p hy
    | false =>
        have hfail : j'.failed = true := hgo.mp rfl
        rcases hy.cases with hj' | ⟨hfull, -⟩
        · rw [hj'.ok] at hfail
          cases hfail
        · exact follows_of_failed hfail hfull _

theorem putScalar_follows {j : JsonWriter} {cap : ℕ} {text : Bytes} {pos : JsonPos}
    (h : j.Holds cap text pos) (out : Bytes) :
    (putScalar j out).Follows cap text (pos.scalar out) := by
  apply beginValue_andThen h
  intro j' text' p hy
  exact endValue_yields (put_yields hy out)

theorem escape_eq_renderChar {c : UInt8} (h : c < 0x80) : escape c = renderChar c := by
  have hc : c.toNat < 128 := UInt8.lt_iff_toNat_lt.mp h
  have h4096 : c.toNat / 4096 % 16 = 0 := by omega
  have h256 : c.toNat / 256 % 16 = 0 := by omega
  have h16 : c.toNat / 16 % 16 = c.toNat / 16 := by omega
  unfold escape renderChar hex4
  rw [h4096, h256, h16]
  rfl

theorem putChars_yields {j : JsonWriter} {cap : ℕ} {text : Bytes} {pos : JsonPos}
    (h : j.Yields cap text pos) {s : Bytes} (hs : s.any (0x80 ≤ ·) = false) :
    (putChars j s).Yields cap (text ++ s.flatMap renderChar) pos := by
  induction s generalizing j text with
  | nil =>
      rw [List.flatMap_nil, List.append_nil]
      exact h
  | cons c s ih =>
      rw [List.any_cons, Bool.or_eq_false_iff] at hs
      have hc : ¬ 0x80 ≤ c := by simpa using hs.1
      rw [List.flatMap_cons, ← List.append_assoc]
      rcases h.cases with hj | ⟨hfull, hfail⟩
      · rw [putChars, if_neg (by simp [hj.ok]), if_neg hc,
          escape_eq_renderChar (UInt8.not_le.mp hc)]
        exact ih (put_yields h _) hs.2
      · rw [putChars, if_pos hfail]
        exact JsonWriter.Yields.of_failed hfail (by simp only [List.length_append]; omega)

theorem putChars_failed {j : JsonWriter} {s : Bytes} (hs : s.any (0x80 ≤ ·) = true) :
    (putChars j s).failed = true := by
  induction s generalizing j with
  | nil => cases hs
  | cons c s ih =>
      rw [putChars]
      split_ifs with hfail hc
      · exact hfail
      · rfl
      · rw [List.any_cons, Bool.or_eq_true] at hs
        rcases hs with hhere | hlater
        · exact absurd (by simpa using hhere) hc
        · exact ih hlater

theorem putQuoted_yields {j : JsonWriter} {cap : ℕ} {text : Bytes} {pos : JsonPos}
    (h : j.Yields cap text pos) {s : Bytes} (hs : s.any (0x80 ≤ ·) = false) :
    (putQuoted j (some s)).Yields cap (text ++ renderString s) pos := by
  have hquoted := put_yields (putChars_yields (put_yields h [0x22]) hs) [0x22]
  have htext : text ++ [0x22] ++ s.flatMap renderChar ++ [0x22] = text ++ renderString s := by
    rw [List.append_assoc, List.append_assoc, renderString]
    rfl
  rw [htext] at hquoted
  exact hquoted

theorem putQuoted_failed {j : JsonWriter} {s : Bytes} (hs : s.any (0x80 ≤ ·) = true) :
    (putQuoted j (some s)).failed = true := by
  exact put_failed (putChars_failed hs) [0x22]

theorem andThen_none (plan : Option (JsonPos × Bytes)) : andThen plan (fun _ => none) = none := by
  unfold andThen
  cases plan with
  | none => rfl
  | some q => rfl

theorem jsonString_follows {j : JsonWriter} {cap : ℕ} {text : Bytes} {pos : JsonPos}
    (h : j.Holds cap text pos) (s : Option Bytes) :
    (jsonString j s).Follows cap text (pos.call (.string s)) := by
  -- a string that cannot be written fails, wherever it stands
  have hbad : (∀ j', (putQuoted j' s).failed = true) → (jsonString j s).Follows cap text none := by
    intro hfail
    rw [← andThen_none pos.lead]
    apply beginValue_andThen h
    intro j' text' p _
    exact endValue_failed (hfail j')
  cases s with
  | none => exact hbad fun _ => rfl
  | some s =>
      show (jsonString j (some s)).Follows cap text
        (if s.any (0x80 ≤ ·) then none else pos.scalar (renderString s))
      by_cases hs : s.any (0x80 ≤ ·) = true
      · rw [if_pos hs]
        exact hbad fun _ => putQuoted_failed hs
      · rw [if_neg hs]
        apply beginValue_andThen h
        intro j' text' p hy
        exact endValue_yields (putQuoted_yields hy (by simpa using hs))

theorem beginContainer_follows {j : JsonWriter} {cap : ℕ} {text : Bytes} {pos : JsonPos}
    (h : j.Holds cap text pos) (object : Bool) :
    (beginContainer j object).Follows cap text (pos.enter object) := by
  apply beginValue_andThen h
  intro j' text' p hy
  rcases hy.cases with hj' | ⟨hfull, hfail⟩
  · rw [hj'.pos_eq]
    by_cases hdepth : p.opened.length ≥ jsonMaxDepth
    · rw [if_pos hdepth, if_pos hdepth]
      rfl
    · rw [if_neg hdepth, if_neg hdepth]
      exact put_yields (mapPos_yields hy fun _ => _) _
  · refine follows_of_failed ?_ hfull _
    by_cases hdepth : j'.pos.opened.length ≥ jsonMaxDepth
    · rw [if_pos hdepth]
      rfl
    · rw [if_neg hdepth]
      apply put_failed
      exact hfail

theorem endContainer_follows {j : JsonWriter} {cap : ℕ} {text : Bytes} {pos : JsonPos}
    (h : j.Holds cap text pos) (object : Bool) :
    (endContainer j object).Follows cap text (pos.leave object) := by
  unfold endContainer JsonPos.leave
  rw [if_neg (by simp [h.ok]), h.pos_eq]
  cases pos.opened with
  | nil => rfl
  | cons top below =>
      dsimp only
      by_cases hwrong : (top.isObject != object || pos.afterKey) = true
      · rw [if_pos hwrong, if_pos hwrong]
        rfl
      · rw [if_neg hwrong, if_neg hwrong]
        exact endValue_yields (put_yields (mapPos_yields h.yields fun _ => _) _)

theorem jsonKey_follows {j : JsonWriter} {cap : ℕ} {text : Bytes} {pos : JsonPos}
    (h : j.Holds cap text pos) (k : Option Bytes) :
    (jsonKey j k).Follows cap text (pos.call (.key k)) := by
  unfold jsonKey
  rw [if_neg (by simp [h.ok]), h.pos_eq]
  cases k with
  | none => rfl
  | some k =>
      show JsonWriter.Follows _ cap text (pos.name k)
      unfold JsonPos.name
      rcases pos with ⟨opened, afterKey, done⟩
      cases opened with
      | nil => rfl
      | cons top below =>
          dsimp only
          by_cases hwrong : (!top.isObject || afterKey) = true
          · have hrefused : (!top.isObject || afterKey || k.any (0x80 ≤ ·)) = true := by
              rw [hwrong, Bool.true_or]
            rw [if_pos hwrong, if_pos hrefused]
            rfl
          · -- the comma, and the key after it
            have hcomma : (if top.hasItem then put j [0x2C] else j).Yields cap
                (text ++ if top.hasItem then [0x2C] else []) ⟨top :: below, afterKey, done⟩ := by
              cases top.hasItem with
              | true => exact put_yields h.yields [0x2C]
              | false =>
                  show j.Yields cap (text ++ []) _
                  rw [List.append_nil]
                  exact h.yields
            have hitem := mapPos_yields hcomma
              fun p => { p with opened := { top with hasItem := true } :: below }
            rw [if_neg hwrong]
            by_cases hascii : k.any (0x80 ≤ ·) = true
            · have hrefused : (!top.isObject || afterKey || k.any (0x80 ≤ ·)) = true := by
                rw [hascii, Bool.or_true]
              rw [if_pos hrefused]
              exact put_failed (putQuoted_failed hascii) [0x3A]
            · have hk := put_yields (putQuoted_yields hitem (by simpa using hascii)) [0x3A]
              rw [List.append_assoc, List.append_assoc] at hk
              have hallowed : ¬ (!top.isObject || afterKey || k.any (0x80 ≤ ·)) = true := by
                rw [Bool.or_eq_true]
                exact not_or.mpr ⟨hwrong, hascii⟩
              rw [if_neg hallowed]
              exact mapPos_yields hk fun p => { p with afterKey := true }

theorem jsonNumber_follows {j : JsonWriter} {cap : ℕ} {text : Bytes} {pos : JsonPos}
    (h : j.Holds cap text pos) (t : Option Bytes) :
    (jsonNumber j t).Follows cap text (pos.call (.number t)) := by
  cases t with
  | none => rfl
  | some t =>
      show (if !jsonIsNumber t then j.fail else putScalar j t).Follows cap text
        (if !jsonIsNumber t then none else pos.scalar t)
      by_cases hbad : (!jsonIsNumber t) = true
      · rw [if_pos hbad, if_pos hbad]
        rfl
      · rw [if_neg hbad, if_neg hbad]
        exact putScalar_follows h t

/-- Every call writes what its plan says, or fails for room. -/
theorem exec_follows {j : JsonWriter} {cap : ℕ} {text : Bytes} {pos : JsonPos}
    (h : j.Yields cap text pos) (c : JsonCall) : (j.exec c).Follows cap text (pos.call c) := by
  rcases h.cases with hj | ⟨hfull, hfail⟩
  · cases c with
    | beginObject => exact beginContainer_follows hj true
    | endObject => exact endContainer_follows hj true
    | beginArray => exact beginContainer_follows hj false
    | endArray => exact endContainer_follows hj false
    | key k => exact jsonKey_follows hj k
    | string s => exact jsonString_follows hj s
    | int v => exact putScalar_follows hj _
    | uint v => exact putScalar_follows hj _
    | bool v => exact putScalar_follows hj _
    | null => exact putScalar_follows hj _
    | number t => exact jsonNumber_follows hj t
  · exact follows_of_failed (exec_of_failed hfail c) hfull _

/-- So does a sequence of calls. -/
theorem run_follows {j : JsonWriter} {cap : ℕ} {text : Bytes} {pos : JsonPos}
    (h : j.Yields cap text pos) (cs : List JsonCall) :
    (run JsonWriter.exec j cs).Follows cap text (pos.calls cs) := by
  induction cs generalizing j text pos with
  | nil =>
      show j.Yields cap (text ++ []) pos
      rw [List.append_nil]
      exact h
  | cons c cs ih =>
      refine follows_andThen (exec_follows h c) ?_ ?_
      · intro hfail
        exact run_invariant JsonWriter.exec (·.failed = true) (fun j c hj => exec_of_failed hj c)
          _ hfail cs
      · intro text' p hy
        exact ih hy

theorem jsonInit_yields (buf : Bytes) : (jsonInit buf).Yields buf.length [] {} := by
  unfold jsonInit
  by_cases hzero : buf.length = 0
  · rw [if_pos hzero]
    exact JsonWriter.Yields.of_failed rfl (by rw [hzero]; exact Nat.zero_le _)
  · rw [if_neg hzero]
    have hlen : (overwrite buf 0 [0]).length = buf.length :=
      length_overwrite (by rw [List.length_singleton]; omega)
    exact JsonWriter.Holds.yields ⟨rfl, hlen, rfl, rfl, rfl, rfl⟩

end Carwatch.Interface
