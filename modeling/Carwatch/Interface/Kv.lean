import Carwatch.Lib.Search
import Carwatch.Interface.Json

/-!
# Carwatch.Interface.Kv — the lines of the control socket (`src/interface/kv.c`)

A reply is record lines and one terminator. A record is a tag and typed
fields; a string stands in quotes and nothing in it is escaped.

* **Model layer**: `kvParseLine` and what it calls, `kvReplyNext`,
  `kvReplyCheck`, `kvGet`.
* **Grammar**: `KvLine.Wf` and `KvLine.render` say which records there are and
  how they are written, apart from any parser.
* **Result**: `kvParseLine_grammar`: the parser accepts exactly the rendered
  records and gives each one back; `number_gate`: what it keeps as a number is
  one, and the JSON writer takes it.
-/

namespace Carwatch.Interface

open Carwatch.Lib

/-! ## Constants -/

/-- `KV_MAX_LINE` -/
abbrev kvMaxLine : ℕ := 512

/-- `KV_MAX_FIELDS` -/
abbrev kvMaxFields : ℕ := 16

/-- `KV_MAX_TAG` -/
abbrev kvMaxTag : ℕ := 24

/-- `KV_MAX_KEY` -/
abbrev kvMaxKey : ℕ := 24

/-- `KV_MAX_VALUE` -/
abbrev kvMaxValue : ℕ := 96

/-- `KV_MAX_CODE` -/
abbrev kvMaxCode : ℕ := 24

/-- `KV_MAX_REASON` -/
abbrev kvMaxReason : ℕ := 96

/-- `ok` -/
def okWord : Bytes := [0x6F, 0x6B]

/-- `err` -/
def errWord : Bytes := [0x65, 0x72, 0x72]

/-! ## Lines -/

/-- `kv_type_t` -/
inductive KvType where
  | str
  | num
  | null
deriving DecidableEq, Repr

/-- `kv_field_t`: the text before the NUL of each array. -/
structure KvField where
  key : Bytes
  val : Bytes
  type : KvType
deriving DecidableEq, Repr

/-- A record as `kv_line_t` holds it; `f[0, nfields)` is `fields`. -/
structure KvLine where
  tag : Bytes
  fields : List KvField
deriving DecidableEq, Repr

/-- `kv_kind_t`, with what `*out` holds where that means something. -/
inductive KvKind where
  | record (line : KvLine)
  | ok
  | err (code reason : Bytes)
  | bad
  | incomplete
deriving DecidableEq, Repr

/-! ## The parser -/

/-- `is_ident` -/
def isIdent (c : UInt8) : Bool := (0x61 ≤ c && c ≤ 0x7A) || (0x30 ≤ c && c ≤ 0x39) || c == 0x5F

/-- `is_name` -/
def isName (s : Bytes) (max : ℕ) : Bool :=
  if s.length = 0 || s.length ≥ max then false else s.all isIdent

/-- `parse_err` on what stands behind `err ` in the line. -/
def parseErr (rest : Bytes) : KvKind :=
  match rest.idxOf? 0x20 with
  | none => if !isName rest kvMaxCode then .bad else .err rest []
  | some csp =>
      let code := rest.take csp
      let reason := rest.drop (csp + 1)
      if !isName code kvMaxCode then .bad
      else if reason.length = 0 || reason.length ≥ kvMaxReason then .bad
      else if reason.head? = some 0x20 || reason.getLast? = some 0x20 then .bad
      else .err code reason

/-- The loop of `token_len`. -/
def tokenLenFrom : Bool → Bytes → ℕ
  | _, [] => 0
  | quoted, c :: t =>
      if quoted || c ≠ 0x20 then
        tokenLenFrom (if c = 0x22 then !quoted else quoted) t + 1
      else 0

/-- `token_len` -/
def tokenLen (t : Bytes) : ℕ := tokenLenFrom false t

/-- `add_field`: one `key=value` token behind the fields already there. -/
def addField (t : Bytes) (fields : List KvField) : Option (List KvField) :=
  match t.idxOf? 0x3D with
  | none => none
  | some eq =>
      let key := t.take eq
      let val := t.drop (eq + 1)
      if fields.length ≥ kvMaxFields then none
      else if !isName key kvMaxKey then none
      else if fields.any (·.key == key) then none
      else if val.head? = some 0x22 then
        if val.length < 2 || val.getLast? ≠ some 0x22 then none
        else
          let str := (val.drop 1).take (val.length - 2)
          if str.length ≥ kvMaxValue || str.contains 0x22 || str.contains 0x5C then none
          else some (fields ++ [⟨key, str, .str⟩])
      else if val.length ≥ kvMaxValue then none
      else if val = nullWord then some (fields ++ [⟨key, val, .null⟩])
      else if !jsonIsNumber val then none
      else some (fields ++ [⟨key, val, .num⟩])

/-- The loop of `kv_parse_line` over `s[pos, len)`, whose first byte is the
separating space. A round takes that byte and a token. -/
def parseFields : ℕ → Bytes → List KvField → Option (List KvField)
  | _, [], fields => some fields
  | 0, _ :: _, _ => none
  | fuel + 1, _ :: t, fields =>
      let n := tokenLen t
      if n = 0 then none
      else
        match addField (t.take n) fields with
        | none => none
        | some fields => parseFields fuel (t.drop n) fields

/-- A byte no line may carry. -/
def unprintable (c : UInt8) : Bool := c < 0x20 || 0x7F ≤ c

/-- `kv_parse_line` -/
def kvParseLine (s : Bytes) : KvKind :=
  if s.length = 0 || s.length > kvMaxLine then .bad
  else if s.any unprintable then .bad
  else if s = okWord then .ok
  else
    let sp := s.idxOf? 0x20
    let head := sp.getD s.length
    if s.take head = errWord then
      match sp with
      | some i => parseErr (s.drop (i + 1))
      | none => .bad
    else if !isName (s.take head) kvMaxTag || s.take head = okWord then .bad
    else
      match parseFields s.length (s.drop head) [] with
      | none => .bad
      | some fields => .record ⟨s.take head, fields⟩

/-! ## Replies -/

/-- `kv_reply_next`: the next line and where the cursor is after it. -/
def kvReplyNext (rest : Bytes) : KvKind × Bytes :=
  match rest.idxOf? 0x0A with
  | none => (.incomplete, rest)
  | some nl =>
      let line := rest.take nl
      let line := if line.getLast? = some 0x0D then line.dropLast else line
      (kvParseLine line, rest.drop (nl + 1))

/-- The loop of `kv_reply_check`; every round but the last takes a line. -/
def replyCheckFrom : ℕ → Bytes → KvKind
  | 0, _ => .incomplete
  | fuel + 1, rest =>
      match kvReplyNext rest with
      | (.record _, rest) => replyCheckFrom fuel rest
      | (.ok, rest) => if rest ≠ [] then .bad else .ok
      | (.err code reason, rest) => if rest ≠ [] then .bad else .err code reason
      | (k, _) => k

/-- `kv_reply_check`; the terminator's line is in the result. -/
def kvReplyCheck (buf : Bytes) : KvKind := replyCheckFrom (buf.length + 1) buf

/-- `kv_get` -/
def kvGet (line : KvLine) (key : Bytes) : Option Bytes :=
  (line.fields.find? (·.key == key)).map KvField.val

/-! ## The grammar -/

/-- 1 to `max - 1` bytes of `[a-z0-9_]`. -/
def IsName (s : Bytes) (max : ℕ) : Prop :=
  0 < s.length ∧ s.length < max ∧ ∀ c ∈ s, isIdent c = true

/-- A printable ASCII byte. -/
def IsPrintable (c : UInt8) : Prop := 0x20 ≤ c ∧ c < 0x7F

instance : DecidablePred IsPrintable := fun c => inferInstanceAs (Decidable (0x20 ≤ c ∧ c < 0x7F))

/-- What a value of each type may be. -/
def KvField.ValueOk (f : KvField) : Prop :=
  match f.type with
  | .str => f.val.length < kvMaxValue ∧ ∀ c ∈ f.val, IsPrintable c ∧ c ≠ 0x22 ∧ c ≠ 0x5C
  | .num => f.val.length < kvMaxValue ∧ IsNumber f.val
  | .null => f.val = nullWord

/-- A value as it is written: a string in quotes, anything else bare. -/
def KvField.valueText (f : KvField) : Bytes :=
  match f.type with
  | .str => 0x22 :: (f.val ++ [0x22])
  | .num => f.val
  | .null => f.val

/-- `key=value` -/
def KvField.render (f : KvField) : Bytes := f.key ++ 0x3D :: f.valueText

/-- Fields a record may have. -/
structure FieldsWf (fields : List KvField) : Prop where
  count : fields.length ≤ kvMaxFields
  distinct : (fields.map KvField.key).Nodup
  names : ∀ f ∈ fields, IsName f.key kvMaxKey
  values : ∀ f ∈ fields, f.ValueOk

/-- A record: a tag that is no terminator, and its fields. -/
structure KvLine.Wf (line : KvLine) : Prop where
  tag : IsName line.tag kvMaxTag
  tag_ne_ok : line.tag ≠ okWord
  tag_ne_err : line.tag ≠ errWord
  fields : FieldsWf line.fields

/-- The fields as they are written, each behind its space. -/
def fieldsText (fields : List KvField) : Bytes := fields.flatMap fun f => 0x20 :: f.render

/-- `tag ( ' ' key '=' value )*` -/
def KvLine.render (line : KvLine) : Bytes := line.tag ++ fieldsText line.fields

/-- The reason of an `err` line. -/
structure ReasonWf (reason : Bytes) : Prop where
  pos : 0 < reason.length
  short : reason.length < kvMaxReason
  printable : ∀ c ∈ reason, IsPrintable c
  head : reason.head? ≠ some 0x20
  last : reason.getLast? ≠ some 0x20

/-- `err code`, or `err code reason`. -/
def IsErrLine (s code reason : Bytes) : Prop :=
  IsName code kvMaxCode ∧
    (reason = [] ∧ s = errWord ++ 0x20 :: code ∨
      ReasonWf reason ∧ s = errWord ++ 0x20 :: (code ++ 0x20 :: reason))

/-! ### Names and printable bytes -/

theorem isName_iff (s : Bytes) (max : ℕ) : isName s max = true ↔ IsName s max := by
  unfold isName IsName
  by_cases hlen : (s.length = 0 || s.length ≥ max) = true
  · rw [if_pos hlen]
    simp only [Bool.or_eq_true, decide_eq_true_eq] at hlen
    constructor
    · intro h
      cases h
    · rintro ⟨h1, h2, -⟩
      omega
  · rw [if_neg hlen]
    simp only [Bool.or_eq_true, decide_eq_true_eq, not_or, not_le] at hlen
    rw [List.all_eq_true]
    constructor
    · intro h
      exact ⟨by omega, by omega, h⟩
    · intro h
      exact h.2.2

theorem not_isName {s : Bytes} {max : ℕ} (h : ¬ (!isName s max) = true) : IsName s max :=
  (isName_iff s max).mp (by simpa using h)

theorem isIdent_ne {c : UInt8} (h : isIdent c = true) :
    IsPrintable c ∧ c ≠ 0x20 ∧ c ≠ 0x22 ∧ c ≠ 0x3D := by
  refine ⟨?_, ?_, ?_, ?_⟩
  · simp only [isIdent, Bool.or_eq_true, Bool.and_eq_true, decide_eq_true_eq, beq_iff_eq,
      UInt8.le_iff_toNat_le] at h
    rw [IsPrintable, UInt8.le_iff_toNat_le, UInt8.lt_iff_toNat_lt]
    rcases h with (⟨hlo, hhi⟩ | ⟨hlo, hhi⟩) | rfl
    · exact ⟨le_trans (by decide) hlo, lt_of_le_of_lt hhi (by decide)⟩
    · exact ⟨le_trans (by decide) hlo, lt_of_le_of_lt hhi (by decide)⟩
    · decide
  · rintro rfl
    exact absurd h (by decide)
  · rintro rfl
    exact absurd h (by decide)
  · rintro rfl
    exact absurd h (by decide)

theorem unprintable_eq_false_iff (c : UInt8) : unprintable c = false ↔ IsPrintable c := by
  unfold unprintable IsPrintable
  rw [Bool.or_eq_false_iff, decide_eq_false_iff_not, decide_eq_false_iff_not, UInt8.not_lt,
    UInt8.not_le]

/-- The bytes numbers are made of are printable and stay out of the way of the
tokenizer. -/
theorem isNumberChar_ne {c : UInt8} (h : isNumberChar c = true) :
    IsPrintable c ∧ c ≠ 0x20 ∧ c ≠ 0x22 := by
  refine ⟨?_, ?_, ?_⟩
  · simp only [isNumberChar, isDigit, Bool.or_eq_true, Bool.and_eq_true, decide_eq_true_eq,
      beq_iff_eq, UInt8.le_iff_toNat_le] at h
    rw [IsPrintable, UInt8.le_iff_toNat_le, UInt8.lt_iff_toNat_lt]
    rcases h with ((((⟨hlo, hhi⟩ | rfl) | rfl) | rfl) | rfl) | rfl
    · exact ⟨le_trans (by decide) hlo, lt_of_le_of_lt hhi (by decide)⟩
    · decide
    · decide
    · decide
    · decide
    · decide
  · rintro rfl
    exact absurd h (by decide)
  · rintro rfl
    exact absurd h (by decide)

/-! ### Tokens -/

/-- A run without quotes, and without spaces unless it is quoted. -/
theorem tokenLenFrom_append {quoted : Bool} {s : Bytes}
    (h : ∀ c ∈ s, c ≠ 0x22 ∧ (quoted = true ∨ c ≠ 0x20)) (t : Bytes) :
    tokenLenFrom quoted (s ++ t) = s.length + tokenLenFrom quoted t := by
  induction s with
  | nil => simp
  | cons c s ih =>
      have hc := h c List.mem_cons_self
      have hgo : (quoted || decide (c ≠ 0x20)) = true := by
        rw [Bool.or_eq_true, decide_eq_true_eq]
        exact hc.2
      rw [List.cons_append, tokenLenFrom, if_pos hgo, if_neg hc.1,
        ih fun d hd => h d (List.mem_cons_of_mem c hd), List.length_cons]
      omega

/-- A token ends at the end of the line or before a space. -/
theorem drop_tokenLenFrom (quoted : Bool) (t : Bytes) :
    t.drop (tokenLenFrom quoted t) = [] ∨
      ∃ u, t.drop (tokenLenFrom quoted t) = 0x20 :: u := by
  induction t generalizing quoted with
  | nil => exact Or.inl rfl
  | cons c t ih =>
      rw [tokenLenFrom]
      by_cases hgo : (quoted || decide (c ≠ 0x20)) = true
      · rw [if_pos hgo, List.drop_succ_cons]
        exact ih _
      · rw [if_neg hgo]
        simp only [Bool.or_eq_true, decide_eq_true_eq, not_or, not_not] at hgo
        rw [hgo.2]
        exact Or.inr ⟨t, rfl⟩

/-- What stands behind a token. -/
def SpaceOrEnd (rest : Bytes) : Prop := rest = [] ∨ ∃ u, rest = 0x20 :: u

theorem tokenLenFrom_spaceOrEnd {rest : Bytes} (h : SpaceOrEnd rest) :
    tokenLenFrom false rest = 0 := by
  rcases h with rfl | ⟨u, rfl⟩
  · rfl
  · rfl

theorem isNumber_plainChars {t : Bytes} (h : IsNumber t) : ∀ c ∈ t, c ≠ 0x22 ∧ c ≠ 0x20 := by
  intro c hc
  have hne := isNumberChar_ne (h.chars c hc)
  exact ⟨hne.2.2, hne.2.1⟩

theorem nullWord_plainChars : ∀ c ∈ nullWord, c ≠ 0x22 ∧ c ≠ 0x20 :=
  forall_mem_of_all (by decide)

/-- The tokenizer takes exactly a rendered field. -/
theorem tokenLen_render {f : KvField} (hname : IsName f.key kvMaxKey) (hval : f.ValueOk)
    {rest : Bytes} (hrest : SpaceOrEnd rest) : tokenLen (f.render ++ rest) = f.render.length := by
  have hkey : ∀ c ∈ f.key, c ≠ 0x22 ∧ (false = true ∨ c ≠ 0x20) := by
    intro c hc
    have hne := isIdent_ne (hname.2.2 c hc)
    exact ⟨hne.2.2.1, Or.inr hne.2.1⟩
  have heq : tokenLenFrom false (0x3D :: (f.valueText ++ rest)) =
      tokenLenFrom false (f.valueText ++ rest) + 1 := by
    rw [tokenLenFrom, if_pos (by decide), if_neg (by decide)]
  -- a bare value has neither quotes nor spaces
  have hbare : (∀ c ∈ f.val, c ≠ 0x22 ∧ c ≠ 0x20) →
      tokenLenFrom false (f.val ++ rest) = f.val.length := by
    intro hplain
    rw [tokenLenFrom_append fun c hc => ⟨(hplain c hc).1, Or.inr (hplain c hc).2⟩,
      tokenLenFrom_spaceOrEnd hrest, Nat.add_zero]
  have hvalue : tokenLenFrom false (f.valueText ++ rest) = f.valueText.length := by
    unfold KvField.ValueOk at hval
    unfold KvField.valueText
    cases htype : f.type with
    | str =>
        rw [htype] at hval
        have hinside : ∀ c ∈ f.val, c ≠ 0x22 ∧ (true = true ∨ c ≠ 0x20) :=
          fun c hc => ⟨(hval.2 c hc).2.1, Or.inl rfl⟩
        simp only [List.cons_append, List.append_assoc, List.nil_append]
        rw [tokenLenFrom, if_pos (by decide), if_pos rfl, Bool.not_false,
          tokenLenFrom_append hinside, tokenLenFrom, if_pos (by decide), if_pos rfl, Bool.not_true,
          tokenLenFrom_spaceOrEnd hrest, List.length_cons, List.length_append, List.length_singleton]
    | num =>
        rw [htype] at hval
        exact hbare (isNumber_plainChars hval.2)
    | null =>
        rw [htype] at hval
        have hnull : f.val = nullWord := hval
        exact hbare (hnull ▸ nullWord_plainChars)
  rw [tokenLen, KvField.render, List.append_assoc, List.cons_append, tokenLenFrom_append hkey, heq,
    hvalue, List.length_append, List.length_cons]

/-! ### Fields -/

/-- A string of the grammar in its quotes, taken apart. -/
theorem quoted_parts (str : Bytes) :
    (0x22 :: (str ++ [0x22])).length = str.length + 2 ∧
    (0x22 :: (str ++ [0x22]) : Bytes).getLast? = some 0x22 ∧
    ((0x22 :: (str ++ [0x22]) : Bytes).drop 1).take str.length = str := by
  refine ⟨by simp, ?_, ?_⟩
  · rw [← List.cons_append, List.getLast?_concat]
  · rw [List.drop_succ_cons, List.drop_zero]
    exact List.take_left' rfl

/-- A quoted text is a string between its first and its last byte. -/
theorem eq_quoted {val : Bytes} (hhead : val.head? = some 0x22) (hlen : ¬ val.length < 2)
    (hlast : val.getLast? = some 0x22) :
    val = 0x22 :: ((val.drop 1).take (val.length - 2) ++ [0x22]) := by
  cases val with
  | nil => cases hhead
  | cons c t =>
      have hc : c = 0x22 := Option.some.inj hhead
      subst hc
      have hne : t ≠ [] := by
        rintro rfl
        exact hlen (by decide)
      rw [List.getLast?_cons, List.getLast?_eq_some_getLast hne, Option.getD_some] at hlast
      have ht : t = t.dropLast ++ [0x22] := by
        have hsplit := List.dropLast_append_getLast hne
        rw [Option.some.inj hlast] at hsplit
        exact hsplit.symm
      have htake : t.take (t.length - 1) = t.dropLast := (List.dropLast_eq_take ..).symm
      rw [List.drop_succ_cons, List.drop_zero, List.length_cons]
      have hn : t.length + 1 - 2 = t.length - 1 := by omega
      rw [hn, htake, ← ht]

theorem any_key_iff {fields : List KvField} {key : Bytes} :
    fields.any (·.key == key) = true ↔ key ∈ fields.map KvField.key := by
  rw [List.any_eq_true, List.mem_map]
  constructor
  · rintro ⟨f, hf, hkey⟩
    exact ⟨f, hf, eq_of_beq hkey⟩
  · rintro ⟨f, hf, rfl⟩
    exact ⟨f, hf, BEq.rfl⟩

/-- What `add_field` accepts is a rendered field with a new key. -/
theorem addField_eq_some {t : Bytes} {fields fields' : List KvField}
    (hprint : ∀ c ∈ t, IsPrintable c) (h : addField t fields = some fields') :
    ∃ f, fields' = fields ++ [f] ∧ t = f.render ∧ fields.length < kvMaxFields ∧
      IsName f.key kvMaxKey ∧ f.ValueOk ∧ f.key ∉ fields.map KvField.key := by
  unfold addField at h
  cases heq : t.idxOf? 0x3D with
  | none =>
      rw [heq] at h
      cases h
  | some i =>
      rcases idxOf?_eq_some_iff_split.mp heq with ⟨key, val, rfl, -, rfl⟩
      rw [heq] at h
      simp only [take_drop_of_split] at h
      have hval : ∀ c ∈ val, IsPrintable c := fun c hc =>
        hprint c (List.mem_append_right key (List.mem_cons_of_mem 0x3D hc))
      split_ifs at h with hcount hname hdup hhead hlen hstr hvlen hnull hnum
      all_goals have hfields := (Option.some.inj h).symm
      all_goals have hnew := any_key_iff.not.mp hdup
      · -- a string
        simp only [Bool.or_eq_true, decide_eq_true_eq, not_or, ne_eq, not_not] at hlen
        simp only [Bool.or_eq_true, decide_eq_true_eq, List.contains_iff_mem, not_or, not_le] at hstr
        have hquoted := eq_quoted hhead hlen.1 hlen.2
        refine ⟨_, hfields, ?_, not_le.mp hcount, not_isName hname, ⟨hstr.1.1, ?_⟩, hnew⟩
        · show key ++ 0x3D :: val = key ++ 0x3D :: (0x22 :: _)
          rw [← hquoted]
        · intro c hc
          refine ⟨hval c (List.mem_of_mem_drop (List.mem_of_mem_take hc)), ?_, ?_⟩
          · rintro rfl
            exact hstr.1.2 hc
          · rintro rfl
            exact hstr.2 hc
      · exact ⟨_, hfields, rfl, not_le.mp hcount, not_isName hname, hnull, hnew⟩
      · have hnumber : IsNumber val := (jsonIsNumber_iff val).mp (by simpa using hnum)
        exact ⟨_, hfields, rfl, not_le.mp hcount, not_isName hname, ⟨not_le.mp hvlen, hnumber⟩, hnew⟩

/-- A rendered field with a new key is accepted. -/
theorem addField_render {f : KvField} {fields : List KvField} (hcount : fields.length < kvMaxFields)
    (hname : IsName f.key kvMaxKey) (hval : f.ValueOk) (hnew : f.key ∉ fields.map KvField.key) :
    addField f.render fields = some (fields ++ [f]) := by
  have heq : f.render.idxOf? 0x3D = some f.key.length := by
    refine idxOf?_eq_some_iff_split.mpr ⟨f.key, f.valueText, rfl, ?_, rfl⟩
    intro hin
    exact (isIdent_ne (hname.2.2 _ hin)).2.2.2 rfl
  have hparts := @take_drop_of_split _ f.key f.valueText 0x3D
  have hfree := any_key_iff.not.mpr hnew
  unfold addField
  rw [heq]
  simp only [KvField.render, hparts.1, hparts.2]
  rw [if_neg (not_le.mpr hcount), if_neg (by simp [(isName_iff _ _).mpr hname]), if_neg hfree]
  rcases f with ⟨key, val, type⟩
  cases type with
  | str =>
      -- the quotes are the first and the last byte, the value is in between
      rcases quoted_parts val with ⟨hlen, hlast, hinside⟩
      have hclean : ¬ (decide (val.length ≥ kvMaxValue) || val.contains 0x22 || val.contains 0x5C) =
          true := by
        simp only [Bool.or_eq_true, decide_eq_true_eq, List.contains_iff_mem, not_or, not_le]
        refine ⟨⟨hval.1, ?_⟩, ?_⟩
        · intro hin
          exact (hval.2 _ hin).2.1 rfl
        · intro hin
          exact (hval.2 _ hin).2.2 rfl
      have htext : KvField.valueText ⟨key, val, .str⟩ = 0x22 :: (val ++ [0x22]) := rfl
      rw [htext, if_pos List.head?_cons, hlast]
      simp only [hlen, Nat.add_sub_cancel, hinside]
      rw [if_neg (by simp), if_neg hclean]
  | num =>
      -- a number starts with neither a quote nor `null`, so the last branch takes it
      have hbare : ¬ val.head? = some 0x22 := by
        intro hhead
        have hquote := hval.2.chars 0x22 (List.mem_of_mem_head? hhead)
        exact absurd hquote (by decide)
      have hnull : ¬ val = nullWord := by
        rintro rfl
        exact absurd ((numberOk_iff nullWord).mpr hval.2) (by decide)
      have htext : KvField.valueText ⟨key, val, .num⟩ = val := rfl
      rw [htext, if_neg hbare, if_neg (not_le.mpr hval.1), if_neg hnull,
        if_neg (by simp [(jsonIsNumber_iff val).mpr hval.2])]
  | null =>
      have hnull : val = nullWord := hval
      subst hnull
      rfl

theorem FieldsWf.snoc {fields : List KvField} {f : KvField} (h : FieldsWf fields)
    (hcount : fields.length < kvMaxFields) (hname : IsName f.key kvMaxKey) (hval : f.ValueOk)
    (hnew : f.key ∉ fields.map KvField.key) : FieldsWf (fields ++ [f]) where
  count := by
    rw [List.length_append, List.length_singleton]
    omega
  distinct := by
    rw [List.map_append, List.map_singleton]
    exact List.nodup_append.mpr ⟨h.distinct, List.pairwise_singleton _ _, by
      intro a ha b hb hab
      rw [List.mem_singleton.mp hb] at hab
      exact hnew (hab ▸ ha)⟩
  names g hg := by
    rcases List.mem_append.mp hg with hin | hlast
    · exact h.names g hin
    · rw [List.mem_singleton.mp hlast]
      exact hname
  values g hg := by
    rcases List.mem_append.mp hg with hin | hlast
    · exact h.values g hin
    · rw [List.mem_singleton.mp hlast]
      exact hval

theorem spaceOrEnd_fieldsText (fields : List KvField) : SpaceOrEnd (fieldsText fields) := by
  cases fields with
  | nil => exact Or.inl rfl
  | cons f fields => exact Or.inr ⟨f.render ++ fieldsText fields, rfl⟩

/-- What the loop accepts is rendered fields. -/
theorem parseFields_eq_some {fuel : ℕ} {rest : Bytes} {fields fields' : List KvField}
    (hrest : SpaceOrEnd rest) (hprint : ∀ c ∈ rest, IsPrintable c) (hwf : FieldsWf fields)
    (h : parseFields fuel rest fields = some fields') :
    FieldsWf fields' ∧ ∃ more, fields' = fields ++ more ∧ rest = fieldsText more := by
  induction fuel generalizing rest fields with
  | zero =>
      cases rest with
      | nil =>
          rw [parseFields, Option.some.injEq] at h
          subst h
          exact ⟨hwf, [], (List.append_nil _).symm, rfl⟩
      | cons c t => cases h
  | succ fuel ih =>
      cases rest with
      | nil =>
          rw [parseFields, Option.some.injEq] at h
          subst h
          exact ⟨hwf, [], (List.append_nil _).symm, rfl⟩
      | cons c t =>
          -- a token ends before a space or at the end
          have hc : c = 0x20 := by
            rcases hrest with hnil | ⟨u, hu⟩
            · cases hnil
            · exact (List.cons.inj hu).1
          subst hc
          rw [parseFields] at h
          split_ifs at h with hn
          cases hadd : addField (t.take (tokenLen t)) fields with
          | none =>
              rw [hadd] at h
              cases h
          | some fields₁ =>
              rw [hadd] at h
              -- the token is a field as it is printed, and what is behind it is left
              have htoken : ∀ c ∈ t.take (tokenLen t), IsPrintable c := fun c hc =>
                hprint c (List.mem_cons_of_mem _ (List.mem_of_mem_take hc))
              rcases addField_eq_some htoken hadd with
                ⟨f, rfl, hrender, hcount, hname, hval, hnew⟩
              have hdrop : ∀ c ∈ t.drop (tokenLen t), IsPrintable c := fun c hc =>
                hprint c (List.mem_cons_of_mem _ (List.mem_of_mem_drop hc))
              rcases ih (drop_tokenLenFrom false t) hdrop (hwf.snoc hcount hname hval hnew) h with
                ⟨hwf', more, rfl, hmore⟩
              refine ⟨hwf', f :: more, by rw [List.append_assoc]; rfl, ?_⟩
              show 0x20 :: t = (0x20 :: f.render) ++ fieldsText more
              rw [← hmore, ← hrender, List.cons_append]
              congr 1
              exact (List.take_append_drop _ _).symm

/-- Rendered fields are accepted. -/
theorem parseFields_fieldsText {fuel : ℕ} {fields more : List KvField}
    (hwf : FieldsWf (fields ++ more)) (hfuel : (fieldsText more).length ≤ fuel) :
    parseFields fuel (fieldsText more) fields = some (fields ++ more) := by
  induction more generalizing fuel fields with
  | nil =>
      rw [List.append_nil]
      cases fuel with
      | zero => rfl
      | succ fuel => rfl
  | cons f more ih =>
      have htext : fieldsText (f :: more) = 0x20 :: (f.render ++ fieldsText more) := rfl
      rw [htext, List.length_cons, List.length_append] at hfuel
      have hmem : f ∈ fields ++ f :: more := List.mem_append_right _ List.mem_cons_self
      have htoken := tokenLen_render (hwf.names f hmem) (hwf.values f hmem)
        (spaceOrEnd_fieldsText more)
      -- an empty token would be refused
      have hpos : f.render.length ≠ 0 := by
        rw [KvField.render, List.length_append, List.length_cons]
        omega
      have hadd : addField f.render fields = some (fields ++ [f]) := by
        have hcount := hwf.count
        have hdistinct := hwf.distinct
        rw [List.length_append, List.length_cons] at hcount
        rw [List.map_append, List.map_cons, List.nodup_append] at hdistinct
        refine addField_render (by omega) (hwf.names f hmem) (hwf.values f hmem) ?_
        intro hin
        exact hdistinct.2.2 _ hin _ List.mem_cons_self rfl
      have happ : fields ++ f :: more = (fields ++ [f]) ++ more := by
        rw [List.append_assoc]
        rfl
      cases fuel with
      | zero => omega
      | succ fuel =>
          rw [htext, parseFields]
          simp only [htoken]
          rw [if_neg hpos, List.take_left' rfl, List.drop_left' rfl, hadd]
          simp only
          rw [happ] at hwf ⊢
          exact ih hwf (by omega)

/-! ### Lines -/

/-- Every line is a first word and what stands behind it. -/
theorem exists_head (s : Bytes) : ∃ a b, s = a ++ b ∧ 0x20 ∉ a ∧ SpaceOrEnd b := by
  cases hsp : s.idxOf? 0x20 with
  | none =>
      exact ⟨s, [], (List.append_nil s).symm, List.idxOf?_eq_none_iff.mp hsp, Or.inl rfl⟩
  | some i =>
      rcases idxOf?_eq_some_iff_split.mp hsp with ⟨a, u, rfl, hnot, -⟩
      exact ⟨a, 0x20 :: u, rfl, hnot, Or.inr ⟨u, rfl⟩⟩

/-- `kv_parse_line` behind its checks on the whole line, on a line taken
apart. -/
def wordAndRest (a b : Bytes) : KvKind :=
  if a ++ b = okWord then .ok
  else if a = errWord then
    match b with
    | [] => .bad
    | _ :: t => parseErr t
  else if !isName a kvMaxTag || a = okWord then .bad
  else
    match parseFields (a ++ b).length b [] with
    | none => .bad
    | some fields => .record ⟨a, fields⟩

theorem kvParseLine_append {a b : Bytes} (ha : 0x20 ∉ a) (hb : SpaceOrEnd b) :
    kvParseLine (a ++ b) =
      if (a ++ b).length = 0 || (a ++ b).length > kvMaxLine then .bad
      else if (a ++ b).any unprintable then .bad
      else wordAndRest a b := by
  unfold wordAndRest
  unfold kvParseLine
  rcases hb with rfl | ⟨u, rfl⟩
  · have hsp : a.idxOf? 0x20 = none := List.idxOf?_eq_none_iff.mpr ha
    simp only [List.append_nil, hsp, Option.getD_none, List.take_length, List.drop_length]
  · have hsp : (a ++ 0x20 :: u).idxOf? 0x20 = some a.length :=
      idxOf?_eq_some_iff_split.mpr ⟨a, u, rfl, ha, rfl⟩
    have hparts := @take_drop_of_split _ a u 0x20
    have hdrop : (a ++ 0x20 :: u).drop a.length = 0x20 :: u := List.drop_left' rfl
    simp only [hsp, Option.getD_some, hparts.1, hparts.2, hdrop]

theorem IsName.no_space {a : Bytes} {max : ℕ} (h : IsName a max) : 0x20 ∉ a := by
  intro hin
  exact (isIdent_ne (h.2.2 _ hin)).2.1 rfl

theorem IsName.printable {a : Bytes} {max : ℕ} (h : IsName a max) : ∀ c ∈ a, IsPrintable c :=
  fun c hc => (isIdent_ne (h.2.2 c hc)).1

theorem any_unprintable_iff (s : Bytes) :
    s.any unprintable = false ↔ ∀ c ∈ s, IsPrintable c := by
  rw [List.any_eq_false]
  constructor
  · intro h c hc
    exact (unprintable_eq_false_iff c).mp (by simpa using h c hc)
  · intro h c hc
    simp [(unprintable_eq_false_iff c).mpr (h c hc)]

theorem KvField.render_printable {f : KvField} (hname : IsName f.key kvMaxKey) (hval : f.ValueOk) :
    ∀ c ∈ f.render, IsPrintable c := by
  have hvalue : ∀ c ∈ f.valueText, IsPrintable c := by
    unfold KvField.ValueOk at hval
    unfold KvField.valueText
    cases htype : f.type with
    | str =>
        rw [htype] at hval
        intro c hc
        rcases List.mem_cons.mp hc with rfl | hc
        · decide
        · rcases List.mem_append.mp hc with hc | hc
          · exact (hval.2 c hc).1
          · rw [List.mem_singleton.mp hc]
            decide
    | num =>
        rw [htype] at hval
        exact fun c hc => (isNumberChar_ne (hval.2.chars c hc)).1
    | null =>
        rw [htype] at hval
        have hnull : f.val = nullWord := hval
        rw [hnull]
        exact forall_mem_of_all (by decide)
  intro c hc
  rcases List.mem_append.mp hc with hc | hc
  · exact hname.printable c hc
  · rcases List.mem_cons.mp hc with rfl | hc
    · decide
    · exact hvalue c hc

theorem KvLine.Wf.printable {line : KvLine} (h : line.Wf) : ∀ c ∈ line.render, IsPrintable c := by
  intro c hc
  rcases List.mem_append.mp hc with hc | hc
  · exact h.tag.printable c hc
  · rcases List.mem_flatMap.mp hc with ⟨f, hf, hc⟩
    rcases List.mem_cons.mp hc with rfl | hc
    · decide
    · exact KvField.render_printable (h.fields.names f hf) (h.fields.values f hf) c hc

/-- A line that is not refused passes the checks on the whole line. -/
theorem wordAndRest_of_ne_bad {a b : Bytes} (ha : 0x20 ∉ a) (hb : SpaceOrEnd b)
    (h : kvParseLine (a ++ b) ≠ .bad) :
    kvParseLine (a ++ b) = wordAndRest a b ∧ (a ++ b).length ≤ kvMaxLine ∧
      ∀ c ∈ a ++ b, IsPrintable c := by
  rw [kvParseLine_append ha hb] at h ⊢
  by_cases hlen : ((a ++ b).length = 0 || (a ++ b).length > kvMaxLine) = true
  · rw [if_pos hlen] at h
    exact absurd rfl h
  · by_cases hprint : (a ++ b).any unprintable = true
    · rw [if_neg hlen, if_pos hprint] at h
      exact absurd rfl h
    · rw [if_neg hlen, if_neg hprint]
      simp only [Bool.or_eq_true, decide_eq_true_eq, not_or, not_lt] at hlen
      exact ⟨rfl, hlen.2, (any_unprintable_iff _).mp (by simpa using hprint)⟩

/-- The other way round. -/
theorem kvParseLine_eq_wordAndRest {a b : Bytes} (ha : 0x20 ∉ a) (hb : SpaceOrEnd b)
    (hpos : 0 < (a ++ b).length) (hlen : (a ++ b).length ≤ kvMaxLine)
    (hprint : ∀ c ∈ a ++ b, IsPrintable c) : kvParseLine (a ++ b) = wordAndRest a b := by
  have hbounds : ¬ ((a ++ b).length = 0 || (a ++ b).length > kvMaxLine) = true := by
    simp only [Bool.or_eq_true, decide_eq_true_eq, not_or, not_lt]
    exact ⟨by omega, hlen⟩
  rw [kvParseLine_append ha hb, if_neg hbounds,
    if_neg (by simp [(any_unprintable_iff _).mpr hprint])]

/-- `parse_err` refuses, or finds a code and a reason. -/
theorem parseErr_cases (t : Bytes) : parseErr t = .bad ∨ ∃ code reason, parseErr t = .err code reason := by
  unfold parseErr
  cases hsp : t.idxOf? 0x20 with
  | none =>
      dsimp only
      split_ifs
      · exact Or.inl rfl
      · exact Or.inr ⟨_, _, rfl⟩
  | some i =>
      dsimp only
      split_ifs
      · exact Or.inl rfl
      · exact Or.inl rfl
      · exact Or.inl rfl
      · exact Or.inr ⟨_, _, rfl⟩

/-- The records of the grammar. -/
theorem kvParseLine_eq_record_iff (s : Bytes) (line : KvLine) :
    kvParseLine s = .record line ↔ line.Wf ∧ s.length ≤ kvMaxLine ∧ s = line.render := by
  constructor
  · intro h
    rcases exists_head s with ⟨a, b, rfl, ha, hb⟩
    rcases wordAndRest_of_ne_bad ha hb (by rw [h]; exact KvKind.noConfusion) with
      ⟨hcore, hlen, hprint⟩
    rw [hcore] at h
    unfold wordAndRest at h
    split_ifs at h with hok herr htag
    · cases b with
      | nil => cases h
      | cons c t =>
          rcases parseErr_cases t with hbad | ⟨code, reason, herr'⟩
          · have hcontra := hbad.symm.trans h
            cases hcontra
          · have hcontra := herr'.symm.trans h
            cases hcontra
    · simp only [Bool.or_eq_true, decide_eq_true_eq, not_or] at htag
      cases hparse : parseFields (a ++ b).length b [] with
      | none =>
          rw [hparse] at h
          cases h
      | some fields =>
          rw [hparse] at h
          have hline : (⟨a, fields⟩ : KvLine) = line := KvKind.record.inj h
          subst hline
          have hempty : FieldsWf [] :=
            ⟨Nat.zero_le _, List.Pairwise.nil, fun _ hf => absurd hf List.not_mem_nil,
              fun _ hf => absurd hf List.not_mem_nil⟩
          rcases parseFields_eq_some hb (fun c hc => hprint c (List.mem_append_right a hc)) hempty
            hparse with ⟨hfields, more, hmore, rfl⟩
          rw [List.nil_append] at hmore
          subst hmore
          exact ⟨⟨not_isName htag.1, htag.2, herr, hfields⟩, hlen, rfl⟩
  · rintro ⟨hwf, hlen, rfl⟩
    rcases line with ⟨tag, fields⟩
    have hpos : 0 < tag.length := hwf.tag.1
    have hprint : ∀ c ∈ tag ++ fieldsText fields, IsPrintable c := hwf.printable
    have hlen' : (tag ++ fieldsText fields).length ≤ kvMaxLine := hlen
    -- a line with a space in it is not `ok`, and one without is its tag
    have hok : tag ++ fieldsText fields ≠ okWord := by
      intro heq
      rcases spaceOrEnd_fieldsText fields with hnil | ⟨u, hu⟩
      · rw [hnil, List.append_nil] at heq
        exact hwf.tag_ne_ok heq
      · have hin : (0x20 : UInt8) ∈ okWord := by
          rw [← heq, hu]
          exact List.mem_append_right _ List.mem_cons_self
        exact absurd hin (by decide)
    have hname : ¬ (!isName tag kvMaxTag || decide (tag = okWord)) = true := by
      simp only [Bool.or_eq_true, decide_eq_true_eq, not_or]
      refine ⟨?_, hwf.tag_ne_ok⟩
      have hisname := (isName_iff tag kvMaxTag).mpr hwf.tag
      simp [hisname]
    have hfields : FieldsWf ([] ++ fields) := hwf.fields
    have hparse : parseFields (tag ++ fieldsText fields).length (fieldsText fields) [] =
        some fields :=
      parseFields_fieldsText hfields (by rw [List.length_append]; omega)
    have hspace : 0x20 ∉ tag := hwf.tag.no_space
    have hne : tag ≠ errWord := hwf.tag_ne_err
    show kvParseLine (tag ++ fieldsText fields) = _
    rw [kvParseLine_eq_wordAndRest hspace (spaceOrEnd_fieldsText fields)
      (by rw [List.length_append]; omega) hlen' hprint]
    unfold wordAndRest
    rw [if_neg hok, if_neg hne, if_neg hname, hparse]

theorem kvParseLine_eq_ok_iff (s : Bytes) : kvParseLine s = .ok ↔ s = okWord := by
  constructor
  · intro h
    rcases exists_head s with ⟨a, b, rfl, ha, hb⟩
    rcases wordAndRest_of_ne_bad ha hb (by rw [h]; exact KvKind.noConfusion) with ⟨hcore, -, -⟩
    rw [hcore] at h
    unfold wordAndRest at h
    split_ifs at h with hok herr htag
    · exact hok
    · cases b with
      | nil => cases h
      | cons c t =>
          rcases parseErr_cases t with hbad | ⟨code, reason, herr'⟩
          · have hcontra := hbad.symm.trans h
            cases hcontra
          · have hcontra := herr'.symm.trans h
            cases hcontra
    · cases hparse : parseFields (a ++ b).length b [] with
      | none =>
          rw [hparse] at h
          cases h
      | some fields =>
          rw [hparse] at h
          cases h
  · rintro rfl
    decide

/-- What `parse_err` accepts. -/
theorem parseErr_eq_err_iff {t code reason : Bytes} (hprint : ∀ c ∈ t, IsPrintable c) :
    parseErr t = .err code reason ↔ IsErrLine (errWord ++ 0x20 :: t) code reason := by
  have hline : ∀ u : Bytes, errWord ++ 0x20 :: t = errWord ++ 0x20 :: u ↔ t = u := by
    intro u
    rw [List.append_cancel_left_eq, List.cons.injEq]
    exact and_iff_right rfl
  unfold IsErrLine
  rw [hline, hline]
  constructor
  · intro h
    unfold parseErr at h
    cases hsp : t.idxOf? 0x20 with
    | none =>
        simp only [hsp] at h
        split_ifs at h with hname
        rcases KvKind.err.inj h with ⟨rfl, rfl⟩
        exact ⟨not_isName hname, Or.inl ⟨rfl, rfl⟩⟩
    | some i =>
        rcases idxOf?_eq_some_iff_split.mp hsp with ⟨code', reason', rfl, -, rfl⟩
        simp only [hsp, take_drop_of_split] at h
        split_ifs at h with hname hlen hspace
        rcases KvKind.err.inj h with ⟨rfl, rfl⟩
        simp only [Bool.or_eq_true, decide_eq_true_eq, not_or, not_le] at hlen hspace
        refine ⟨not_isName hname, Or.inr ⟨⟨by omega, hlen.2, ?_, hspace.1, hspace.2⟩, rfl⟩⟩
        intro c hc
        exact hprint c (List.mem_append_right _ (List.mem_cons_of_mem _ hc))
  · rintro ⟨hname, ⟨rfl, rfl⟩ | ⟨hreason, rfl⟩⟩
    -- a code alone has no space in it, a code with a reason has its first one there
    · have hsp : t.idxOf? 0x20 = none := List.idxOf?_eq_none_iff.mpr hname.no_space
      have hisname := (isName_iff t kvMaxCode).mpr hname
      simp [parseErr, hsp, hisname]
    · have hsp : (code ++ 0x20 :: reason).idxOf? 0x20 = some code.length :=
        idxOf?_eq_some_iff_split.mpr ⟨code, reason, rfl, hname.no_space, rfl⟩
      have hisname := (isName_iff code kvMaxCode).mpr hname
      have hlen : ¬ (decide (reason.length = 0) || decide (reason.length ≥ kvMaxReason)) = true := by
        have hpos := hreason.pos
        have hshort := hreason.short
        simp only [Bool.or_eq_true, decide_eq_true_eq, not_or, not_le]
        omega
      have hspace : ¬ (decide (reason.head? = some 0x20) || decide (reason.getLast? = some 0x20)) =
          true := by
        simp only [Bool.or_eq_true, decide_eq_true_eq, not_or]
        exact ⟨hreason.head, hreason.last⟩
      unfold parseErr
      simp only [hsp, take_drop_of_split]
      rw [if_neg (by simp [hisname]), if_neg hlen, if_neg hspace]

theorem IsErrLine.bounds {s code reason : Bytes} (h : IsErrLine s code reason) :
    s.length ≤ kvMaxLine ∧ ∀ c ∈ s, IsPrintable c := by
  have hword : ∀ c ∈ errWord ++ [0x20], IsPrintable c := forall_mem_of_all (by decide)
  rcases h with ⟨hname, ⟨-, rfl⟩ | ⟨hreason, rfl⟩⟩
  · have hcode := hname.2.1
    have hsplit : errWord ++ 0x20 :: code = (errWord ++ [0x20]) ++ code := by
      rw [List.append_assoc]
      rfl
    rw [hsplit]
    constructor
    · rw [List.length_append]
      simp only [errWord, List.length_append, List.length_cons, List.length_nil, kvMaxLine,
        kvMaxCode] at hcode ⊢
      omega
    · intro c hc
      rcases List.mem_append.mp hc with hc | hc
      · exact hword c hc
      · exact hname.printable c hc
  -- the longest code, the longest reason and two spaces are within a line
  · have hcode := hname.2.1
    have hshort := hreason.short
    have hsplit : errWord ++ 0x20 :: (code ++ 0x20 :: reason) =
        (errWord ++ [0x20]) ++ (code ++ ([0x20] ++ reason)) := by
      rw [List.append_assoc]
      rfl
    rw [hsplit]
    constructor
    · simp only [errWord, List.length_append, List.length_cons, List.length_nil, kvMaxLine,
        kvMaxCode, kvMaxReason] at hcode hshort ⊢
      omega
    · intro c hc
      rcases List.mem_append.mp hc with hc | hc
      · exact hword c hc
      · rcases List.mem_append.mp hc with hc | hc
        · exact hname.printable c hc
        · rcases List.mem_append.mp hc with hc | hc
          · rw [List.mem_singleton.mp hc]
            decide
          · exact hreason.printable c hc

theorem kvParseLine_eq_err_iff (s code reason : Bytes) :
    kvParseLine s = .err code reason ↔ IsErrLine s code reason := by
  constructor
  · intro h
    rcases exists_head s with ⟨a, b, rfl, ha, hb⟩
    rcases wordAndRest_of_ne_bad ha hb (by rw [h]; exact KvKind.noConfusion) with
      ⟨hcore, -, hprint⟩
    rw [hcore] at h
    unfold wordAndRest at h
    split_ifs at h with hok herr htag
    · subst herr
      rcases hb with rfl | ⟨t, rfl⟩
      · cases h
      · have ht : ∀ c ∈ t, IsPrintable c := fun c hc =>
          hprint c (List.mem_append_right _ (List.mem_cons_of_mem _ hc))
        exact (parseErr_eq_err_iff ht).mp h
    · cases hparse : parseFields (a ++ b).length b [] with
      | none =>
          rw [hparse] at h
          cases h
      | some fields =>
          rw [hparse] at h
          cases h
  · intro h
    rcases h.bounds with ⟨hlen, hprint⟩
    have htail : ∃ t, s = errWord ++ 0x20 :: t := by
      rcases h.2 with ⟨-, rfl⟩ | ⟨-, rfl⟩
      · exact ⟨_, rfl⟩
      · exact ⟨_, rfl⟩
    rcases htail with ⟨t, rfl⟩
    -- the word is `err`, so neither `ok` nor a tag
    have hok : errWord ++ 0x20 :: t ≠ okWord := by
      intro heq
      have hfirst := congrArg List.head? heq
      exact absurd hfirst (by simp [errWord, okWord])
    have ht : ∀ c ∈ t, IsPrintable c := fun c hc =>
      hprint c (List.mem_append_right _ (List.mem_cons_of_mem _ hc))
    rw [kvParseLine_eq_wordAndRest (by decide) (Or.inr ⟨t, rfl⟩)
        (by rw [List.length_append, List.length_cons]; omega) hlen hprint]
    unfold wordAndRest
    rw [if_neg hok, if_pos rfl]
    exact (parseErr_eq_err_iff ht).mpr h

/-- The parser accepts exactly the grammar, and gives back what was written. -/
theorem kvParseLine_grammar (s : Bytes) :
    (∀ line, kvParseLine s = .record line ↔
      line.Wf ∧ s.length ≤ kvMaxLine ∧ s = line.render) ∧
    (kvParseLine s = .ok ↔ s = okWord) ∧
    (∀ code reason, kvParseLine s = .err code reason ↔ IsErrLine s code reason) :=
  ⟨kvParseLine_eq_record_iff s, kvParseLine_eq_ok_iff s, kvParseLine_eq_err_iff s⟩

/-! ## Numbers that reach the writer -/

/-- A field that `add_field` appends as a number holds one. -/
theorem isNumber_of_addField {t : Bytes} {fields fields' : List KvField}
    (h : addField t fields = some fields') :
    ∃ f, fields' = fields ++ [f] ∧ (f.type = .num → IsNumber f.val) := by
  unfold addField at h
  cases heq : t.idxOf? 0x3D with
  | none =>
      rw [heq] at h
      cases h
  | some i =>
      rw [heq] at h
      simp only at h
      split_ifs at h with hcount hname hdup hhead hlen hstr hvlen hnull hnum
      all_goals refine ⟨_, (Option.some.inj h).symm, ?_⟩
      all_goals intro htype
      · -- a string
        cases htype
      · -- `null`
        cases htype
      · exact (jsonIsNumber_iff _).mp (by simpa using hnum)

/-- Where a value may go and has room, a number is written as it stands. -/
theorem jsonNumber_written {j j' : JsonWriter} {text : Bytes} (ht : IsNumber text)
    (hbegin : beginValue j = (true, j')) (hok : j'.failed = false)
    (hroom : text.length < j'.cap - j'.len) :
    (jsonNumber j (some text)).failed = false ∧
      (jsonNumber j (some text)).buf = overwrite j'.buf j'.len (text ++ [0]) := by
  have hgate : ¬ (!jsonIsNumber text) = true := by
    rw [(jsonIsNumber_iff text).mpr ht]
    exact Bool.false_ne_true
  have hput : put j' text =
      { j' with buf := overwrite j'.buf j'.len (text ++ [0]), len := j'.len + text.length } := by
    unfold put
    rw [if_neg (by simp [hok]), if_neg (not_le.mpr hroom)]
  have hwrite : jsonNumber j (some text) = endValue (put j' text) := by
    unfold jsonNumber putScalar
    simp only [if_neg hgate, hbegin]
  rw [hwrite, hput]
  unfold endValue
  split_ifs
  · exact ⟨hok, rfl⟩
  · exact ⟨hok, rfl⟩

/-- The gate in front of every bare number: `json_is_number` accepts JSON's
grammar, and `json_number` takes what `add_field` keeps as a number. -/
theorem number_gate :
    (∀ text, jsonIsNumber text = true ↔ IsNumber text) ∧
    ∀ t fields fields', addField t fields = some fields' →
      ∃ f, fields' = fields ++ [f] ∧
        (f.type = .num → ∀ j : JsonWriter, jsonNumber j (some f.val) = putScalar j f.val ∧
          ∀ j', beginValue j = (true, j') → j'.failed = false → f.val.length < j'.cap - j'.len →
            (jsonNumber j (some f.val)).failed = false ∧
              (jsonNumber j (some f.val)).buf = overwrite j'.buf j'.len (f.val ++ [0])) := by
  refine ⟨jsonIsNumber_iff, ?_⟩
  intro t fields fields' h
  obtain ⟨f, hf, hnum⟩ := isNumber_of_addField h
  refine ⟨f, hf, ?_⟩
  intro htype j
  constructor
  · exact if_neg (by simp [(jsonIsNumber_iff f.val).mpr (hnum htype)])
  · intro j' hbegin hok hroom
    exact jsonNumber_written (hnum htype) hbegin hok hroom

/-- `t=-1.5e3` into an empty record. -/
theorem number_gate_exponent :
    ∃ f : KvField, [⟨[0x74], [0x2D, 0x31, 0x2E, 0x35, 0x65, 0x33], .num⟩] = [] ++ [f] ∧
      (f.type = .num → ∀ j : JsonWriter, jsonNumber j (some f.val) = putScalar j f.val) := by
  obtain ⟨f, hf, hwrite⟩ := number_gate.2
    [0x74, 0x3D, 0x2D, 0x31, 0x2E, 0x35, 0x65, 0x33] []
    [⟨[0x74], [0x2D, 0x31, 0x2E, 0x35, 0x65, 0x33], .num⟩] (by decide)
  exact ⟨f, hf, fun htype j => (hwrite htype j).1⟩

end Carwatch.Interface
