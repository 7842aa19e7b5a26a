import Carwatch.Interface.Http
import Carwatch.Lib.Stdio

/-!
# Carwatch.Interface.Grammar — what `http_parse_request` accepts

The parser is the one reader of text that strangers send. This module writes
its language down a second time, as a grammar that searches nothing and
counts no offsets, and proves that the parser accepts that language and
nothing else.

* **Abstract layer**: `PercentDecodes`, `ClimbsNowhere`, `RequestTarget`,
  `RequestLine`, `Request`.
* **Correspondence**: one lemma for each stage of the parser, from `decode`
  up to `httpParseRequest_eq_ok_iff`.
* **Memory**: `httpParseRequestInto` stores the two texts in the caller's
  `char` arrays, and `cString` reads them back.
-/

namespace Carwatch.Interface

open Carwatch.Lib

/-! ## The grammar -/

/-- The value of a hexadecimal digit, in either case. -/
inductive HexDigit : UInt8 → ℕ → Prop
  | decimal {c : UInt8} {v : ℕ} (hv : v < 10) (hc : c.toNat = 0x30 + v) : HexDigit c v
  | lower {c : UInt8} {v : ℕ} (hv : v < 6) (hc : c.toNat = 0x61 + v) : HexDigit c (10 + v)
  | upper {c : UInt8} {v : ℕ} (hv : v < 6) (hc : c.toNat = 0x41 + v) : HexDigit c (10 + v)

/-- The bytes a percent-encoded text stands for. An escape has two digits and
is not NUL. -/
inductive PercentDecodes : Bytes → Bytes → Prop
  | nil : PercentDecodes [] []
  | plain {c : UInt8} {s d : Bytes} (hc : c ≠ 0x25) (hs : PercentDecodes s d) :
      PercentDecodes (c :: s) (c :: d)
  | escape {h l b : UInt8} {hi lo : ℕ} {s d : Bytes} (hh : HexDigit h hi) (hl : HexDigit l lo)
      (hb : b.toNat = hi * 16 + lo) (hnul : b ≠ 0) (hs : PercentDecodes s d) :
      PercentDecodes (0x25 :: h :: l :: s) (b :: d)

/-- A decoded path that stays below the root: no control byte, DEL or
backslash, and no segment `..`. -/
structure ClimbsNowhere (dec : Bytes) : Prop where
  plain : ∀ c ∈ dec, 0x20 ≤ c ∧ c ≠ 0x7F ∧ c ≠ 0x5C
  segments : dotDot ∉ dec.splitOn 0x2F

/-- A request target and the path and query it is made of. -/
structure RequestTarget (target path query : Bytes) : Prop where
  rooted : ∃ rest, target = 0x2F :: rest
  printable : ∀ c ∈ target, 0x20 < c ∧ c < 0x7F ∧ c ≠ 0x5C
  /-- The query is what stands behind the first `?`. -/
  split : target = path ∧ query = [] ∧ 0x3F ∉ path ∨
    target = path ++ 0x3F :: query ∧ 0x3F ∉ path
  path_lt : path.length < httpPathMax
  query_lt : query.length < httpQueryMax
  decodes : ∃ dec, PercentDecodes path dec ∧ ClimbsNowhere dec

/-- A request line: `GET`, a target and a version, one space between them. -/
structure RequestLine (line path query : Bytes) : Prop where
  oneLine : 0x0D ∉ line ∧ 0x0A ∉ line
  words : ∃ target version, line = getWord ++ 0x20 :: (target ++ 0x20 :: version) ∧
    (version = version10 ∨ version = version11) ∧ RequestTarget target path query

/-- A request: a head of at most `HTTP_MAX_REQUEST` bytes up to the first blank
line, without control bytes, that starts with a request line. -/
def Request (buf path query : Bytes) : Prop :=
  ∃ n, FirstEnd crlfcrlf buf n ∧ n ≤ httpMaxRequest ∧
    (∀ c ∈ buf.take n, (c < 0x20 → c = 0x0D ∨ c = 0x0A ∨ c = 0x09) ∧ c ≠ 0x7F) ∧
    ∃ line, RequestLine line path query ∧ line ++ crlf <+: buf.take n

/-! ## Percent decoding -/

theorem hexval_eq_some_iff (c : UInt8) (v : ℕ) : hexval c = some v ↔ HexDigit c v := by
  have hle : ∀ a b : UInt8, a ≤ b ↔ a.toNat ≤ b.toNat := fun a b => UInt8.le_iff_toNat_le
  constructor
  · intro h
    unfold hexval at h
    simp only [Bool.and_eq_true, decide_eq_true_eq, hle] at h
    split_ifs at h with h0 h1 h2
    · -- `0` to `9`
      rw [← Option.some.inj h]
      obtain ⟨hlo, hhi⟩ := h0
      change 0x30 ≤ c.toNat at hlo
      change c.toNat ≤ 0x39 at hhi
      exact .decimal (by omega) (by omega)
    · -- `a` to `f`
      rw [← Option.some.inj h]
      obtain ⟨hlo, hhi⟩ := h1
      change 0x61 ≤ c.toNat at hlo
      change c.toNat ≤ 0x66 at hhi
      rw [Nat.add_comm]
      exact .lower (by omega) (by omega)
    · -- `A` to `F`
      rw [← Option.some.inj h]
      obtain ⟨hlo, hhi⟩ := h2
      change 0x41 ≤ c.toNat at hlo
      change c.toNat ≤ 0x46 at hhi
      rw [Nat.add_comm]
      exact .upper (by omega) (by omega)
  · intro h
    have h30 : (0x30 : UInt8).toNat = 0x30 := rfl
    have h39 : (0x39 : UInt8).toNat = 0x39 := rfl
    have h61 : (0x61 : UInt8).toNat = 0x61 := rfl
    have h66 : (0x66 : UInt8).toNat = 0x66 := rfl
    have h41 : (0x41 : UInt8).toNat = 0x41 := rfl
    have h46 : (0x46 : UInt8).toNat = 0x46 := rfl
    unfold hexval
    simp only [Bool.and_eq_true, decide_eq_true_eq, hle, h30, h39, h61, h66, h41, h46]
    cases h with
    | decimal hv hc =>
        rw [if_pos (by omega)]
        congr 1
        omega
    | lower hv hc =>
        rw [if_neg (by omega), if_pos (by omega)]
        congr 1
        omega
    | upper hv hc =>
        rw [if_neg (by omega), if_neg (by omega), if_pos (by omega)]
        congr 1
        omega

theorem HexDigit.lt {c : UInt8} {v : ℕ} (h : HexDigit c v) : v < 16 := by
  cases h with
  | decimal hv _ => omega
  | lower hv _ => omega
  | upper hv _ => omega

/-- Two hex digits spell a byte. -/
theorem HexDigit.toNat_ofNat {h l : UInt8} {hi lo : ℕ} (hh : HexDigit h hi) (hl : HexDigit l lo) :
    (UInt8.ofNat (hi * 16 + lo)).toNat = hi * 16 + lo := by
  have hhi := hh.lt
  have hlo := hl.lt
  apply UInt8.toNat_ofNat_of_lt'
  show hi * 16 + lo < 256
  omega

theorem PercentDecodes.length_le {s d : Bytes} (h : PercentDecodes s d) : d.length ≤ s.length := by
  induction h with
  | nil => exact Nat.le_refl 0
  | plain _ _ ih =>
      simp only [List.length_cons]
      omega
  | escape _ _ _ _ _ ih =>
      simp only [List.length_cons]
      omega

/-- One round of `decode` at a byte that starts no escape. -/
theorem decodeFrom_plain {cap o : ℕ} {c : UInt8} {s : Bytes} (hc : c ≠ 0x25) :
    decodeFrom cap false o (c :: s) =
      if o + 1 ≥ cap then none else (decodeFrom cap false (o + 1) s).map (c :: ·) := by
  conv_lhs => unfold decodeFrom
  rw [if_neg hc]
  simp only [Bool.and_false, Bool.false_eq_true, if_false]

/-- One round of `decode` at an escape. -/
theorem decodeFrom_escape {cap o hi lo : ℕ} {h l : UInt8} {s : Bytes} (hh : hexval h = some hi)
    (hl : hexval l = some lo) :
    decodeFrom cap false o (0x25 :: h :: l :: s) =
      if UInt8.ofNat (hi * 16 + lo) = 0 then none
      else if o + 1 ≥ cap then none
      else (decodeFrom cap false (o + 1) s).map (UInt8.ofNat (hi * 16 + lo) :: ·) := by
  rw [decodeFrom, if_pos rfl]
  simp only [hh, hl]

/-- What `decode` returns is the decoding. -/
theorem percentDecodes_of_decodeFrom {cap o : ℕ} {s d : Bytes}
    (h : decodeFrom cap false o s = some d) : PercentDecodes s d := by
  induction o, s using decodeFrom.induct cap false generalizing d with
  | case1 o =>
      rw [decodeFrom] at h
      rw [← Option.some.inj h]
      exact .nil
  | case2 o h' l rest hi lo hl hh b =>
      rename_i hb
      rw [decodeFrom_escape hh hl, if_pos hb] at h
      cases h
  | case3 o h' l rest hi lo hl hh b hb =>
      rename_i hcap
      rw [decodeFrom_escape hh hl, if_neg hb, if_pos hcap] at h
      cases h
  | case4 o h' l rest hi lo hl hh b hb hcap =>
      rename_i ih
      rw [decodeFrom_escape hh hl, if_neg hb, if_neg hcap] at h
      rcases Option.map_eq_some_iff.mp h with ⟨d', hd', rfl⟩
      have hhi := (hexval_eq_some_iff h' hi).mp hh
      have hlo := (hexval_eq_some_iff l lo).mp hl
      exact .escape hhi hlo (hhi.toNat_ofNat hlo) hb (ih hd')
  | case5 o h' l rest hbad =>
      rw [decodeFrom, if_pos rfl] at h
      cases hh : hexval h' with
      | none =>
          simp only [hh] at h
          cases h
      | some hi =>
          cases hl : hexval l with
          | none =>
              simp only [hh, hl] at h
              cases h
          | some lo => exact absurd hl fun hl => hbad hi lo hh hl
  | case6 o rest hshort =>
      -- fewer than two bytes behind the `%`
      cases rest with
      | nil => cases h
      | cons a rest =>
          cases rest with
          | nil => cases h
          | cons b rest => exact absurd rfl (hshort a b rest)
  | case7 o c rest hc hcap =>
      rw [decodeFrom_plain hc, if_pos hcap] at h
      cases h
  | case8 o c rest hc hcap ih =>
      rw [decodeFrom_plain hc, if_neg hcap] at h
      rcases Option.map_eq_some_iff.mp h with ⟨d', hd', rfl⟩
      exact .plain hc (ih hd')

/-- A decoding that leaves room for a NUL is returned. -/
theorem PercentDecodes.decodeFrom_eq {s d : Bytes} (h : PercentDecodes s d) {cap o : ℕ}
    (hcap : o + d.length < cap) : decodeFrom cap false o s = some d := by
  induction h generalizing o with
  | nil => rfl
  | plain hc _ ih =>
      rw [List.length_cons] at hcap
      rw [decodeFrom_plain hc, if_neg (by omega), ih (by omega)]
      rfl
  | @escape h l b hi lo s d hh hl hb hnul _ ih =>
      rw [List.length_cons] at hcap
      have hval : UInt8.ofNat (hi * 16 + lo) = b := by
        rw [← hb]
        exact UInt8.ofNat_toNat
      rw [decodeFrom_escape ((hexval_eq_some_iff h hi).mpr hh) ((hexval_eq_some_iff l lo).mpr hl),
        hval, if_neg hnul, if_neg (by omega), ih (by omega)]
      rfl

/-! ## The path -/

/-- The loop of `path_is_unsafe`, with the segment read so far in front. -/
theorem unsafeFrom_eq_false_iff {seg dec : Bytes} (hseg : 0x2F ∉ seg) :
    unsafeFrom seg dec = false ↔
      (∀ c ∈ dec, 0x20 ≤ c ∧ c ≠ 0x7F ∧ c ≠ 0x5C) ∧ dotDot ∉ (seg ++ dec).splitOn 0x2F := by
  induction dec generalizing seg with
  | nil =>
      rw [List.append_nil, List.splitOn_eq_singleton hseg, List.mem_singleton, unsafeFrom]
      simp only [List.not_mem_nil, false_imp_iff, implies_true, true_and, beq_eq_false_iff_ne]
      exact ne_comm
  | cons c rest ih =>
      rw [unsafeFrom, List.forall_mem_cons]
      by_cases hbad : (c < 0x20 || c == 0x7F || c == 0x5C) = true
      · rw [if_pos hbad]
        constructor
        · intro h
          cases h
        · intro h
          simp only [Bool.or_eq_true, decide_eq_true_eq, beq_iff_eq] at hbad
          rcases hbad with (hlt | hdel) | hback
          · exact absurd hlt (UInt8.not_lt.mpr h.1.1.1)
          · exact absurd hdel h.1.1.2.1
          · exact absurd hback h.1.1.2.2
      · rw [if_neg hbad]
        simp only [Bool.or_eq_true, decide_eq_true_eq, beq_iff_eq, not_or] at hbad
        have hgood : 0x20 ≤ c ∧ c ≠ 0x7F ∧ c ≠ 0x5C :=
          ⟨UInt8.not_lt.mp hbad.1.1, hbad.1.2, hbad.2⟩
        by_cases hslash : c = 0x2F
        · -- a segment ends here
          subst hslash
          rw [if_pos BEq.rfl, Bool.or_eq_false_iff, ih List.not_mem_nil,
            List.splitOn_append_cons_self_of_not_mem hseg, List.mem_cons, List.nil_append, not_or,
            beq_eq_false_iff_ne, ne_comm]
          constructor
          · rintro ⟨hne, hrest, hdots⟩
            exact ⟨⟨hgood, hrest⟩, hne, hdots⟩
          · rintro ⟨⟨-, hrest⟩, hne, hdots⟩
            exact ⟨hne, hrest, hdots⟩
        · have hseg' : 0x2F ∉ seg ++ [c] := by
            intro hin
            rcases List.mem_append.mp hin with hin | hin
            · exact hseg hin
            · exact hslash (List.mem_singleton.mp hin).symm
          rw [if_neg fun h => hslash (beq_iff_eq.mp h), ih hseg', List.append_assoc]
          constructor
          · rintro ⟨hrest, hdots⟩
            exact ⟨⟨hgood, hrest⟩, hdots⟩
          · rintro ⟨⟨-, hrest⟩, hdots⟩
            exact ⟨hrest, hdots⟩

/-- `path_is_unsafe` on a path that fits its buffer. -/
theorem pathIsUnsafe_eq_false_iff {path : Bytes} (hlen : path.length < httpPathMax) :
    pathIsUnsafe path = false ↔ ∃ dec, PercentDecodes path dec ∧ ClimbsNowhere dec := by
  have hdecode : decode path httpPathMax false = decodeFrom httpPathMax false 0 path :=
    if_neg (by decide)
  unfold pathIsUnsafe
  rw [hdecode]
  constructor
  · intro h
    cases hd : decodeFrom httpPathMax false 0 path with
    | none =>
        rw [hd] at h
        cases h
    | some dec =>
        rw [hd] at h
        have hsafe := (unsafeFrom_eq_false_iff List.not_mem_nil).mp h
        exact ⟨dec, percentDecodes_of_decodeFrom hd, hsafe.1, hsafe.2⟩
  · rintro ⟨dec, hdec, hplain, hdots⟩
    have hfits : 0 + dec.length < httpPathMax := by
      have := hdec.length_le
      omega
    rw [hdec.decodeFrom_eq hfits]
    exact (unsafeFrom_eq_false_iff List.not_mem_nil).mpr ⟨hplain, hdots⟩

-- the segments are those of the decoded path: an encoded slash ends one
example : pathIsUnsafe (ascii "/a%2f%2e.%2Fb") = true ∧ pathIsUnsafe (ascii "/a/..b") = false := by
  decide +kernel

/-! ## The target and the request line -/

/-- The search for `?` cuts a target in one of two ways. -/
theorem exists_target_split (target : Bytes) : ∃ path query : Bytes,
    target = path ∧ query = [] ∧ 0x3F ∉ path ∨ target = path ++ 0x3F :: query ∧ 0x3F ∉ path := by
  by_cases hq : (0x3F : UInt8) ∈ target
  · rcases List.eq_append_cons_of_mem hq with ⟨path, query, htarget, hpath⟩
    exact ⟨path, query, .inr ⟨htarget, hpath⟩⟩
  · exact ⟨target, [], .inl ⟨rfl, rfl, hq⟩⟩

/-- The checks of a target, on the parts it is cut into. -/
theorem parseTarget_eq_of_split {target path query : Bytes}
    (hsplit : target = path ∧ query = [] ∧ 0x3F ∉ path ∨
      target = path ++ 0x3F :: query ∧ 0x3F ∉ path) :
    parseTarget target =
      if target.head? ≠ some 0x2F then .bad
      else if target.any fun c => c ≤ 0x20 || 0x7F ≤ c || c == 0x5C then .bad
      else if path.length ≥ httpPathMax || query.length ≥ httpQueryMax then .bad
      else if pathIsUnsafe path then .bad
      else .ok ⟨path, query⟩ := by
  unfold parseTarget
  rcases hsplit with ⟨rfl, rfl, hq⟩ | ⟨rfl, hq⟩
  · rw [List.idxOf?_eq_none_iff.mpr hq]
  · have hidx : (path ++ 0x3F :: query).idxOf? 0x3F = some path.length :=
      idxOf?_eq_some_iff_split.mpr ⟨path, query, rfl, hq, rfl⟩
    simp only [hidx, take_drop_of_split.1, take_drop_of_split.2]

theorem any_unprintable_eq_false_iff (target : Bytes) :
    (target.any fun c => c ≤ 0x20 || 0x7F ≤ c || c == 0x5C) = false ↔
      ∀ c ∈ target, 0x20 < c ∧ c < 0x7F ∧ c ≠ 0x5C := by
  simp only [List.any_eq_false, Bool.or_eq_true, decide_eq_true_eq, beq_iff_eq, not_or,
    UInt8.not_le, and_assoc, ne_eq]

theorem head?_eq_some_iff_rooted (target : Bytes) :
    target.head? = some 0x2F ↔ ∃ rest, target = 0x2F :: rest := by
  cases target with
  | nil => simp
  | cons c rest => simp

/-- The targets the parser takes, and what it makes of them. -/
theorem parseTarget_eq_ok_iff (target : Bytes) (req : HttpRequest) :
    parseTarget target = .ok req ↔ RequestTarget target req.path req.query := by
  constructor
  · intro h
    rcases exists_target_split target with ⟨path, query, hsplit⟩
    rw [parseTarget_eq_of_split hsplit] at h
    split_ifs at h with hhead hany hlen hpath
    rw [← HttpParse.ok.inj h]
    rw [Bool.or_eq_true, decide_eq_true_eq, decide_eq_true_eq, not_or, Nat.not_le, Nat.not_le] at hlen
    exact
      { rooted := (head?_eq_some_iff_rooted target).mp (not_not.mp hhead)
        printable := (any_unprintable_eq_false_iff target).mp (Bool.eq_false_of_not_eq_true hany)
        split := hsplit
        path_lt := hlen.1
        query_lt := hlen.2
        decodes := (pathIsUnsafe_eq_false_iff hlen.1).mp (Bool.eq_false_of_not_eq_true hpath) }
  · intro h
    have hlen : ¬ (decide (req.path.length ≥ httpPathMax) ||
        decide (req.query.length ≥ httpQueryMax)) = true := by
      rw [Bool.or_eq_true, decide_eq_true_eq, decide_eq_true_eq, not_or, Nat.not_le, Nat.not_le]
      exact ⟨h.path_lt, h.query_lt⟩
    rw [parseTarget_eq_of_split h.split,
      if_neg (not_not.mpr ((head?_eq_some_iff_rooted target).mpr h.rooted)),
      if_neg (ne_true_of_eq_false ((any_unprintable_eq_false_iff target).mpr h.printable)),
      if_neg hlen,
      if_neg (ne_true_of_eq_false ((pathIsUnsafe_eq_false_iff h.path_lt).mpr h.decodes))]

/-- A target has no space in it. -/
theorem RequestTarget.space_not_mem {target path query : Bytes}
    (h : RequestTarget target path query) : 0x20 ∉ target := by
  intro hin
  exact absurd (h.printable _ hin).1 (by decide)

theorem getWord_append (rest : Bytes) :
    (getWord ++ 0x20 :: rest).idxOf? 0x20 = some 3 ∧ (getWord ++ 0x20 :: rest).take 3 = getWord ∧
      (getWord ++ 0x20 :: rest).drop 4 = rest := by
  refine ⟨idxOf?_eq_some_iff_split.mpr ⟨getWord, rest, rfl, by decide, rfl⟩, rfl, rfl⟩

/-- The request lines the parser takes, and what it makes of them. -/
theorem parseLine_eq_ok_iff (line : Bytes) (req : HttpRequest) :
    parseLine line = .ok req ↔ RequestLine line req.path req.query := by
  unfold parseLine
  by_cases hone : (line.contains 0x0A || line.contains 0x0D) = true
  · rw [if_pos hone]
    constructor
    · intro h
      cases h
    · intro h
      rw [Bool.or_eq_true, List.contains_iff_mem, List.contains_iff_mem] at hone
      rcases hone with hlf | hcr
      · exact absurd hlf h.oneLine.2
      · exact absurd hcr h.oneLine.1
  · rw [if_neg hone]
    rw [Bool.or_eq_true, List.contains_iff_mem, List.contains_iff_mem, not_or] at hone
    constructor
    · intro h
      -- each search that succeeds splits the line; what is behind it is searched next
      cases hsp1 : line.idxOf? 0x20 with
      | none =>
          simp only [hsp1] at h
          cases h
      | some sp1 =>
          simp only [hsp1] at h
          split_ifs at h with hget
          rcases idxOf?_eq_some_iff_split.mp hsp1 with ⟨method, rest, rfl, -, rfl⟩
          rw [take_drop_of_split.2] at h
          rw [Bool.or_eq_true, decide_eq_true_eq, decide_eq_true_eq, not_or, not_not, not_not] at hget
          have hmethod : method = getWord := by
            rw [← hget.2, List.take_left' hget.1]
          cases hsp2 : rest.idxOf? 0x20 with
          | none =>
              simp only [hsp2] at h
              cases h
          | some sp2 =>
              simp only [hsp2] at h
              split_ifs at h with hver
              rcases idxOf?_eq_some_iff_split.mp hsp2 with ⟨target, version, rfl, -, rfl⟩
              rw [take_drop_of_split.1] at h
              rw [take_drop_of_split.2, Bool.and_eq_true, decide_eq_true_eq, decide_eq_true_eq,
                not_and_or, not_not, not_not] at hver
              refine ⟨⟨hone.2, hone.1⟩, target, version, ?_, hver.symm,
                (parseTarget_eq_ok_iff target req).mp h⟩
              rw [hmethod]
    · rintro ⟨-, target, version, rfl, hver, htarget⟩
      -- no space in the target, so the second search stops behind it
      have hsp2 : (target ++ 0x20 :: version).idxOf? 0x20 = some target.length :=
        idxOf?_eq_some_iff_split.mpr ⟨target, version, rfl, htarget.space_not_mem, rfl⟩
      have hver' : ¬ (decide (version ≠ version11) && decide (version ≠ version10)) = true := by
        rw [Bool.and_eq_true, decide_eq_true_eq, decide_eq_true_eq, not_and_or, not_not, not_not]
        exact hver.symm
      obtain ⟨hidx, htake, hdrop⟩ := getWord_append (target ++ 0x20 :: version)
      simp only [hidx]
      rw [if_neg (by rw [htake]; decide)]
      simp only [Nat.reduceAdd, hdrop, hsp2, take_drop_of_split.1, take_drop_of_split.2]
      rw [if_neg hver']
      exact (parseTarget_eq_ok_iff target req).mpr htarget

/-! ## The head -/

theorem any_isControl_eq_false_iff (head : Bytes) :
    head.any isControl = false ↔
      ∀ c ∈ head, (c < 0x20 → c = 0x0D ∨ c = 0x0A ∨ c = 0x09) ∧ c ≠ 0x7F := by
  rw [List.any_eq_false]
  refine forall₂_congr fun c _ => ?_
  rw [isControl, Bool.not_eq_true, Bool.or_eq_false_iff, Bool.and_eq_false_iff, Bool.and_eq_false_iff,
    Bool.and_eq_false_iff, beq_eq_false_iff_ne]
  simp only [decide_eq_false_iff_not, bne_eq_false_iff_eq]
  refine and_congr_left fun _ => ?_
  constructor
  · intro h hlt
    rcases h with ((hge | hcr) | hlf) | htab
    · exact absurd hlt hge
    · exact .inl hcr
    · exact .inr (.inl hlf)
    · exact .inr (.inr htab)
  · intro h
    by_cases hlt : c < 0x20
    · rcases h hlt with hcr | hlf | htab
      · exact .inl (.inl (.inr hcr))
      · exact .inl (.inr hlf)
      · exact .inr htab
    · exact .inl (.inl (.inl hlt))

/-- The first line of a head is what stands before a CR LF and has neither
in it. -/
theorem memmem_crlf_of_line {line head : Bytes} (hcr : 0x0D ∉ line) (h : line ++ crlf <+: head) :
    memmem crlf head = some line.length := by
  rcases h with ⟨rest, rfl⟩
  rw [List.append_assoc, crlf, memmem_append_of_not_mem hcr]
  have hfirst : memmem ([0x0D, 0x0A] : Bytes) ([0x0D, 0x0A] ++ rest) = some 0 :=
    memmem_append (by decide) rest
  rw [hfirst, Option.map_some, Nat.zero_add]

/-- The heads the parser takes, and what it makes of them. -/
theorem parseHead_eq_ok_iff (head : Bytes) (req : HttpRequest) :
    parseHead head = .ok req ↔
      (∀ c ∈ head, (c < 0x20 → c = 0x0D ∨ c = 0x0A ∨ c = 0x09) ∧ c ≠ 0x7F) ∧
        ∃ line, RequestLine line req.path req.query ∧ line ++ crlf <+: head := by
  rw [← any_isControl_eq_false_iff, parseHead]
  constructor
  · intro h
    split_ifs at h with hctl
    refine ⟨Bool.eq_false_of_not_eq_true hctl, ?_⟩
    cases heol : memmem crlf head with
    | none =>
        rw [heol] at h
        cases h
    | some eol =>
        rw [heol] at h
        refine ⟨head.take eol, (parseLine_eq_ok_iff _ req).mp h, ?_⟩
        rcases memmem_isPrefix heol with ⟨rest, hrest⟩
        refine ⟨rest, ?_⟩
        rw [List.append_assoc, hrest, List.take_append_drop]
  · rintro ⟨hctl, line, hline, hpre⟩
    rw [if_neg (ne_true_of_eq_false hctl), memmem_crlf_of_line hline.oneLine.1 hpre]
    have htake : head.take line.length = line := by
      rcases hpre with ⟨rest, rfl⟩
      rw [List.append_assoc]
      exact List.take_left' rfl
    show parseLine (head.take line.length) = .ok req
    rw [htake]
    exact (parseLine_eq_ok_iff line req).mpr hline

/-- The parser accepts the grammar and nothing else. -/
theorem httpParseRequest_eq_ok_iff (buf : Bytes) (req : HttpRequest) :
    httpParseRequest buf = .ok req ↔ Request buf req.path req.query := by
  unfold httpParseRequest
  constructor
  · intro h
    cases hend : memmem crlfcrlf buf with
    | none =>
        simp only [hend] at h
        split_ifs at h
    | some e =>
        simp only [hend] at h
        split_ifs at h with hcap
        rcases (parseHead_eq_ok_iff _ req).mp h with ⟨hctl, hline⟩
        exact ⟨e + 4, (memmem_eq_some_iff_firstEnd (by decide)).mp hend, Nat.not_lt.mp hcap, hctl,
          hline⟩
  · rintro ⟨n, hend, hcap, hctl, hline⟩
    have hfour : crlfcrlf.length ≤ n := by
      have hle := hend.ends.length_le
      rw [List.length_take] at hle
      omega
    obtain ⟨e, rfl⟩ : ∃ e, n = e + crlfcrlf.length := ⟨n - crlfcrlf.length, by omega⟩
    simp only [(memmem_eq_some_iff_firstEnd (by decide)).mpr hend]
    have hfits : ¬ e + 4 > httpMaxRequest := Nat.not_lt.mpr hcap
    rw [if_neg hfits]
    exact (parseHead_eq_ok_iff _ req).mpr ⟨hctl, hline⟩

/-! ## The caller's memory -/

/-- The `char` arrays of an `http_request_t`. -/
structure HttpRequestMem where
  path : Bytes
  query : Bytes
deriving DecidableEq, Repr

/-- The arrays have their declared sizes. -/
def HttpRequestMem.Sized (out : HttpRequestMem) : Prop :=
  out.path.length = httpPathMax ∧ out.query.length = httpQueryMax

/-- `memcpy` of a text to the front of an array, and a NUL behind it. -/
def storeText (mem text : Bytes) : Bytes := text ++ 0 :: mem.drop (text.length + 1)

/-- The text that a `char` array holds. -/
def cString (mem : Bytes) : Bytes := mem.takeWhile (· ≠ 0)

/-- `http_parse_request` with the caller's `*out`. The stores stand in front
of `return HTTP_OK`. -/
def httpParseRequestInto (buf : Bytes) (out : HttpRequestMem) : HttpParse × HttpRequestMem :=
  match httpParseRequest buf with
  | .ok req => (.ok req, ⟨storeText out.path req.path, storeText out.query req.query⟩)
  | other => (other, out)

theorem cString_storeText {text : Bytes} (mem : Bytes) (h : 0 ∉ text) :
    cString (storeText mem text) = text := by
  have hall : ∀ c ∈ text, decide (c ≠ 0) = true := by
    intro c hc
    exact decide_eq_true fun heq => h (by rw [← heq]; exact hc)
  rw [cString, storeText, List.takeWhile_append_of_pos hall, List.takeWhile_cons, if_neg (by decide),
    List.append_nil]

theorem length_storeText {mem text : Bytes} (h : text.length < mem.length) :
    (storeText mem text).length = mem.length := by
  rw [storeText, List.length_append, List.length_cons, List.length_drop]
  omega

/-- Neither part of a target has a NUL in it. -/
theorem RequestTarget.nul_not_mem {target path query : Bytes}
    (h : RequestTarget target path query) : 0 ∉ path ∧ 0 ∉ query := by
  have hnul : 0 ∉ target := by
    intro hin
    exact absurd (h.printable _ hin).1 (by decide)
  rcases h.split with ⟨rfl, rfl, -⟩ | ⟨rfl, -⟩
  · exact ⟨hnul, List.not_mem_nil⟩
  · constructor
    · intro hin
      exact hnul (List.mem_append_left _ hin)
    · intro hin
      exact hnul (List.mem_append_right _ (List.mem_cons_of_mem _ hin))

theorem Request.target {buf path query : Bytes} (h : Request buf path query) :
    ∃ target, RequestTarget target path query := by
  rcases h with ⟨n, -, -, -, line, hline, -⟩
  rcases hline.words with ⟨target, version, -, -, htarget⟩
  exact ⟨target, htarget⟩

/-- The two texts fit their arrays, with a NUL behind each. -/
theorem Request.fits {buf path query : Bytes} (h : Request buf path query) {out : HttpRequestMem}
    (hout : out.Sized) :
    (⟨storeText out.path path, storeText out.query query⟩ : HttpRequestMem).Sized := by
  rcases h.target with ⟨target, htarget⟩
  constructor
  · have hfits : path.length < out.path.length := by
      rw [hout.1]
      exact htarget.path_lt
    exact (length_storeText hfits).trans hout.1
  · have hfits : query.length < out.query.length := by
      rw [hout.2]
      exact htarget.query_lt
    exact (length_storeText hfits).trans hout.2

/-- The stores of an accepted request. -/
theorem httpParseRequestInto_of_request {buf path query : Bytes} (h : Request buf path query)
    (out : HttpRequestMem) :
    httpParseRequestInto buf out =
      (.ok ⟨path, query⟩, ⟨storeText out.path path, storeText out.query query⟩) := by
  have hok : httpParseRequest buf = .ok ⟨path, query⟩ :=
    (httpParseRequest_eq_ok_iff buf ⟨path, query⟩).mpr h
  unfold httpParseRequestInto
  rw [hok]

/-- The code of the answer does not depend on what `*out` held. -/
theorem httpParseRequestInto_fst (buf : Bytes) (out : HttpRequestMem) :
    (httpParseRequestInto buf out).1 = httpParseRequest buf := by
  unfold httpParseRequestInto
  cases httpParseRequest buf <;> rfl

/-- `HTTP_OK` is returned exactly for the requests of the grammar; then `*out`
holds the path and the query of the target, inside its arrays, and otherwise
`*out` is as it was. -/
theorem http_ok_iff_request (buf : Bytes) (out : HttpRequestMem) :
    ((∃ req, (httpParseRequestInto buf out).1 = .ok req) ↔ ∃ path query, Request buf path query) ∧
    (∀ path query, Request buf path query →
      cString (httpParseRequestInto buf out).2.path = path ∧
      cString (httpParseRequestInto buf out).2.query = query ∧
      (out.Sized → (httpParseRequestInto buf out).2.Sized)) ∧
    ((∀ req, (httpParseRequestInto buf out).1 ≠ .ok req) →
      (httpParseRequestInto buf out).2 = out) := by
  refine ⟨?_, ?_, ?_⟩
  · rw [httpParseRequestInto_fst]
    constructor
    · rintro ⟨req, hreq⟩
      exact ⟨req.path, req.query, (httpParseRequest_eq_ok_iff buf req).mp hreq⟩
    · rintro ⟨path, query, h⟩
      exact ⟨⟨path, query⟩, (httpParseRequest_eq_ok_iff buf ⟨path, query⟩).mpr h⟩
  · intro path query h
    rcases h.target with ⟨target, htarget⟩
    rw [httpParseRequestInto_of_request h]
    exact ⟨cString_storeText _ htarget.nul_not_mem.1, cString_storeText _ htarget.nul_not_mem.2,
      fun hout => h.fits hout⟩
  · intro hnot
    rw [httpParseRequestInto_fst] at hnot
    unfold httpParseRequestInto
    cases hr : httpParseRequest buf with
    | ok req => exact absurd hr (hnot req)
    | incomplete => rfl
    | bad => rfl
    | badMethod => rfl
    | tooLarge => rfl

end Carwatch.Interface
