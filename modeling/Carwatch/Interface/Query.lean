import Carwatch.Interface.Http
import Carwatch.Interface.Kv
import Mathlib.Data.List.Nodup
import Mathlib.Data.List.TakeWhile

/-!
# Carwatch.Interface.Query — from a URL to a request line (`build_series` of `src/interface/route.c`)

The query of `/api/series` is text from outside, and a line for the source
is built from it. Two scanners read it: `check_keys` takes stock of the keys,
and `http_query_get` looks each value up again.

* **Model layer**: `safeValue`, `checkKeys`, `buildSeries`.
* **Abstract layer**: `queryPairs` cuts a query at its separators;
  `SeriesQuery` says which queries are well formed and `seriesFields` which
  fields they ask for.
* **Result**: `buildSeries_eq_ok` and `seriesQuery_of_ok`: a line is built
  exactly from the well-formed queries, and it is the rendering of their
  fields. `seriesLine_wf_iff` says when that rendering is a line of the
  grammar.
-/

namespace Carwatch.Interface

open Carwatch.Lib

/-! ## The request line -/

/-- `ROUTE_VALUE_MAX` -/
abbrev routeValueMax : ℕ := 24

/-- `ROUTE_LINE_MAX` -/
abbrev routeLineMax : ℕ := 160

/-- `series` -/
def seriesWord : Bytes := ascii "series"

/-- `pid` -/
def pidKey : Bytes := ascii "pid"

/-- `from` -/
def fromKey : Bytes := ascii "from"

/-- `to` -/
def toKey : Bytes := ascii "to"

/-- `series_keys` -/
def seriesKeys : List Bytes := [pidKey, fromKey, toKey]

/-- A byte that `safe_value` lets through. -/
def safeChar (c : UInt8) : Bool :=
  (0x61 ≤ c && c ≤ 0x7A) || (0x41 ≤ c && c ≤ 0x5A) || (0x30 ≤ c && c ≤ 0x39) ||
    (ascii ":+.,_/-").contains c

/-- `safe_value` -/
def safeValue (v : Bytes) : Bool :=
  if v.length = 0 || v.length > routeValueMax then false else v.all safeChar

/-- The loop of `check_keys`. The bits of `*seen` are the keys in `seen`; the
reason of a refusal is the error. -/
def checkKeysFrom : ℕ → Bytes → List Bytes → Except Bytes (List Bytes)
  | 0, _, seen => .ok seen
  | fuel + 1, p, seen =>
      if p = [] then .ok seen
      else
        let pair := p.takeWhile (· ≠ 0x26)
        let key := pair.takeWhile (· ≠ 0x3D)
        if key ∉ seriesKeys then .error (ascii "unknown query key")
        else if key ∈ seen then .error (ascii "repeated query key")
        else
          match p.drop pair.length with
          | [] => .ok (seen ++ [key])
          | [_] => .error (ascii "empty query pair")
          | _ :: p => checkKeysFrom fuel p (seen ++ [key])

/-- `check_keys` -/
def checkKeys (query : Bytes) : Except Bytes (List Bytes) :=
  checkKeysFrom (query.length + 1) query []

/-- `snprintf` of `" %s=%s"` or `" %s=\"%s\""`. -/
def keyValue (bare : Bool) (key v : Bytes) : Bytes :=
  if bare then 0x20 :: (key ++ 0x3D :: v) else 0x20 :: (key ++ 0x3D :: 0x22 :: (v ++ [0x22]))

/-- The loop of `build_series` over the keys that are left. -/
def buildSeriesFrom (query : Bytes) (seen : List Bytes) : List Bytes → Bytes → Except Bytes Bytes
  | [], line => .ok line
  | key :: keys, line =>
      if key ∉ seen then buildSeriesFrom query seen keys line
      else
        match httpQueryGet query key httpQueryMax with
        | none => .error (ascii "bad query value")
        | some v =>
            if !safeValue v then .error (ascii "unsafe query value")
            else
              let bare := key ≠ pidKey && v.all isDigit
              let w := keyValue bare key v
              if w.length ≥ routeLineMax - line.length then .error (ascii "query too long")
              else buildSeriesFrom query seen keys (line ++ w)

/-- `build_series`: the line, or the reason the URL was refused. -/
def buildSeries (query : Bytes) : Except Bytes Bytes :=
  match checkKeys query with
  | .error why => .error why
  | .ok seen => buildSeriesFrom query seen seriesKeys seriesWord

/-! ## What a query says -/

/-- The name of a pair: what stands before its `=`. -/
def pairName (pair : Bytes) : Bytes := pair.takeWhile (· ≠ 0x3D)

/-- The value of a pair: what stands behind its `=`, still encoded. -/
def pairValue (pair : Bytes) : Bytes := (pair.drop (pairName pair).length).drop 1

/-- The pairs of a query, between its `&`. -/
def queryPairs (query : Bytes) : List (Bytes × Bytes) :=
  if query = [] then [] else (query.splitOn 0x26).map fun pair => (pairName pair, pairValue pair)

/-- The names in a query, in order. -/
def queryNames (query : Bytes) : List Bytes := (queryPairs query).map Prod.fst

/-- The decoded value of a key. -/
def queryValue (query key : Bytes) : Option Bytes :=
  ((queryPairs query).lookup key).bind fun raw => decode raw httpQueryMax true

/-- A query of `/api/series`: known keys, each once, with values that decode
to a safe token. -/
structure SeriesQuery (query : Bytes) : Prop where
  known : ∀ key ∈ queryNames query, key ∈ seriesKeys
  once : (queryNames query).Nodup
  safe : ∀ key ∈ queryNames query, ∃ v, queryValue query key = some v ∧ safeValue v = true

/-- A key with its value: `from` and `to` are numbers when they are all
digits, anything else is a string. -/
def seriesField (key v : Bytes) : KvField :=
  ⟨key, v, if key ≠ pidKey && v.all isDigit then .num else .str⟩

/-- The fields a query asks for, in the order of `series_keys`. -/
def seriesFields (query : Bytes) : List KvField :=
  seriesKeys.filterMap fun key => (queryValue query key).map (seriesField key)

/-- The record a query asks for. -/
def seriesLine (query : Bytes) : KvLine := ⟨seriesWord, seriesFields query⟩

/-! ## The two scanners -/

/-- A query is its first pair alone, or goes on behind an `&`. -/
theorem firstPair_cases (p : Bytes) :
    (p.splitOn 0x26 = [p.takeWhile (· ≠ 0x26)] ∧ p.drop (p.takeWhile (· ≠ 0x26)).length = []) ∨
    ∃ rest, p.splitOn 0x26 = p.takeWhile (· ≠ 0x26) :: rest.splitOn 0x26 ∧
      p.drop (p.takeWhile (· ≠ 0x26)).length = 0x26 :: rest := by
  by_cases hsep : 0x26 ∈ p
  · rcases List.eq_append_cons_of_mem hsep with ⟨pair, rest, rfl, hpair⟩
    have htake : (pair ++ 0x26 :: rest).takeWhile (· ≠ 0x26) = pair := by
      have hall : ∀ c ∈ pair, decide (c ≠ 0x26) = true := by
        intro c hc
        exact decide_eq_true fun heq => hpair (by rw [← heq]; exact hc)
      rw [List.takeWhile_append_of_pos hall, List.takeWhile_cons, if_neg (by decide),
        List.append_nil]
    rw [htake]
    exact Or.inr ⟨rest, List.splitOn_append_cons_self_of_not_mem hpair rest, List.drop_left' rfl⟩
  · have htake : p.takeWhile (· ≠ 0x26) = p := by
      rw [List.takeWhile_eq_self_iff]
      intro c hc
      exact decide_eq_true fun heq => hsep (by rw [← heq]; exact hc)
    rw [htake]
    exact Or.inl ⟨List.splitOn_eq_singleton hsep, List.drop_length⟩

theorem nil_not_mem_seriesKeys : ([] : Bytes) ∉ seriesKeys := by decide

/-- One round of `check_keys` on a key it does not refuse. -/
theorem checkKeysFrom_succ {fuel : ℕ} {p : Bytes} {seen : List Bytes} (hp : p ≠ [])
    (hknown : pairName (p.takeWhile (· ≠ 0x26)) ∈ seriesKeys)
    (hnew : pairName (p.takeWhile (· ≠ 0x26)) ∉ seen) :
    checkKeysFrom (fuel + 1) p seen =
      match p.drop (p.takeWhile (· ≠ 0x26)).length with
      | [] => .ok (seen ++ [pairName (p.takeWhile (· ≠ 0x26))])
      | [_] => .error (ascii "empty query pair")
      | _ :: p' => checkKeysFrom fuel p' (seen ++ [pairName (p.takeWhile (· ≠ 0x26))]) := by
  rw [checkKeysFrom, if_neg hp]
  exact (if_neg (not_not.mpr hknown)).trans (if_neg hnew)

/-- `check_keys` accepts known keys, each once. -/
theorem checkKeysFrom_eq_ok_iff {fuel : ℕ} {p : Bytes} {seen seen' : List Bytes}
    (hfuel : p.length < fuel) (hp : p ≠ []) (hseen : seen.Nodup) :
    checkKeysFrom fuel p seen = .ok seen' ↔
      (∀ key ∈ (p.splitOn 0x26).map pairName, key ∈ seriesKeys) ∧
      (seen ++ (p.splitOn 0x26).map pairName).Nodup ∧
      seen' = seen ++ (p.splitOn 0x26).map pairName := by
  induction fuel generalizing p seen with
  | zero => omega
  | succ fuel ih =>
      have hfirst : pairName (p.takeWhile (· ≠ 0x26)) ∈ (p.splitOn 0x26).map pairName := by
        rcases firstPair_cases p with ⟨hsplit, -⟩ | ⟨rest, hsplit, -⟩
        · rw [hsplit]
          exact List.mem_cons_self
        · rw [hsplit]
          exact List.mem_cons_self
      by_cases hknown : pairName (p.takeWhile (· ≠ 0x26)) ∈ seriesKeys
      · by_cases hrep : pairName (p.takeWhile (· ≠ 0x26)) ∈ seen
        · constructor
          · intro h
            rw [checkKeysFrom, if_neg hp] at h
            have herror := ((if_neg (not_not.mpr hknown)).trans (if_pos hrep)).symm.trans h
            cases herror
          · rintro ⟨-, hnodup, -⟩
            exact absurd rfl ((List.nodup_append.mp hnodup).2.2 _ hrep _ hfirst)
        · have hnodup : (seen ++ [pairName (p.takeWhile (· ≠ 0x26))]).Nodup := by
            rw [List.nodup_append]
            refine ⟨hseen, List.nodup_singleton _, ?_⟩
            intro a ha b hb heq
            rw [List.mem_singleton.mp hb] at heq
            rw [heq] at ha
            exact hrep ha
          rw [checkKeysFrom_succ hp hknown hrep]
          rcases firstPair_cases p with ⟨hsplit, hdrop⟩ | ⟨rest, hsplit, hdrop⟩
          · rw [hsplit, hdrop]
            constructor
            · intro h
              refine ⟨?_, hnodup, (Except.ok.inj h).symm⟩
              intro key hkey
              rw [List.mem_singleton.mp hkey]
              exact hknown
            · rintro ⟨-, -, rfl⟩
              rfl
          · rw [hsplit, hdrop]
            cases rest with
            | nil =>
                -- an empty pair has no name
                constructor
                · intro h
                  cases h
                · rintro ⟨hall, -, -⟩
                  exact absurd (hall [] (by simp [pairName])) nil_not_mem_seriesKeys
            | cons c rest =>
                have hlen : (c :: rest).length < fuel := by
                  have hdrop' := congrArg List.length hdrop
                  simp only [List.length_drop, List.length_cons] at hdrop' ⊢
                  omega
                show checkKeysFrom fuel (c :: rest) _ = _ ↔ _
                rw [ih hlen (List.cons_ne_nil c rest) hnodup, List.map_cons, List.append_assoc,
                  List.singleton_append, List.forall_mem_cons]
                exact ⟨fun h => ⟨⟨hknown, h.1⟩, h.2⟩, fun h => ⟨h.1.2, h.2⟩⟩
      · constructor
        · intro h
          rw [checkKeysFrom, if_neg hp] at h
          have herror := (if_pos hknown).symm.trans h
          cases herror
        · rintro ⟨hall, -, -⟩
          exact absurd (hall _ hfirst) hknown

/-- `check_keys` reports the names of the query. -/
theorem checkKeys_eq_ok_iff (query : Bytes) (seen : List Bytes) :
    checkKeys query = .ok seen ↔
      (∀ key ∈ queryNames query, key ∈ seriesKeys) ∧ (queryNames query).Nodup ∧
      seen = queryNames query := by
  by_cases hq : query = []
  · subst hq
    have hnames : queryNames [] = [] := rfl
    rw [hnames]
    constructor
    · intro h
      exact ⟨fun _ hkey => absurd hkey List.not_mem_nil, List.nodup_nil, (Except.ok.inj h).symm⟩
    · rintro ⟨-, -, rfl⟩
      rfl
  · have hnames : queryNames query = (query.splitOn 0x26).map pairName := by
      rw [queryNames, queryPairs, if_neg hq, List.map_map]
      rfl
    rw [hnames, checkKeys, checkKeysFrom_eq_ok_iff (Nat.lt_succ_self _) hq List.nodup_nil]
    rfl

/-- `http_query_get` finds the first pair of that name. -/
theorem queryGetFrom_eq {fuel n : ℕ} {key p : Bytes} (hfuel : p.length < fuel) (hp : p ≠ [])
    (hkey : key ≠ []) :
    queryGetFrom key n fuel p =
      (((p.splitOn 0x26).map fun pair => (pairName pair, pairValue pair)).lookup key).bind
        fun raw => decode raw n true := by
  induction fuel generalizing p with
  | zero => omega
  | succ fuel ih =>
      rw [queryGetFrom, if_neg hp]
      show (if pairName (p.takeWhile (· ≠ 0x26)) = key then
          decode (pairValue (p.takeWhile (· ≠ 0x26))) n true
        else queryGetFrom key n fuel ((p.drop (p.takeWhile (· ≠ 0x26)).length).drop 1)) = _
      have hhead : ∀ tail : List Bytes,
          (((p.takeWhile (· ≠ 0x26) :: tail).map fun pair => (pairName pair, pairValue pair)).lookup
            key) =
          if pairName (p.takeWhile (· ≠ 0x26)) = key then
            some (pairValue (p.takeWhile (· ≠ 0x26)))
          else (tail.map fun pair => (pairName pair, pairValue pair)).lookup key := by
        intro tail
        rw [List.map_cons, List.lookup_cons]
        by_cases hname : pairName (p.takeWhile (· ≠ 0x26)) = key
        · have heq : (key == pairName (p.takeWhile (· ≠ 0x26))) = true := beq_iff_eq.mpr hname.symm
          rw [if_pos hname, heq]
        · have hne : (key == pairName (p.takeWhile (· ≠ 0x26))) = false :=
            beq_eq_false_iff_ne.mpr fun h => hname h.symm
          rw [if_neg hname, hne]
      rcases firstPair_cases p with ⟨hsplit, hdrop⟩ | ⟨rest, hsplit, hdrop⟩
      · rw [hsplit, hhead, hdrop]
        by_cases hname : pairName (p.takeWhile (· ≠ 0x26)) = key
        · rw [if_pos hname, if_pos hname, Option.bind_some]
        · rw [if_neg hname, if_neg hname]
          cases fuel with
          | zero => rfl
          | succ fuel => rfl
      · rw [hsplit, hhead, hdrop]
        by_cases hname : pairName (p.takeWhile (· ≠ 0x26)) = key
        · rw [if_pos hname, if_pos hname, Option.bind_some]
        · rw [if_neg hname, if_neg hname]
          show queryGetFrom key n fuel rest = _
          by_cases hrest : rest = []
          · -- the empty text behind a last `&` is not looked at, and has no name
            subst hrest
            have hne : ¬ ([] : Bytes) = key := fun h => hkey h.symm
            cases fuel with
            | zero => simp [queryGetFrom, pairName, hkey]
            | succ fuel => simp [queryGetFrom, pairName, hkey]
          · have hlen : rest.length < fuel := by
              have hdrop' := congrArg List.length hdrop
              simp only [List.length_drop, List.length_cons] at hdrop'
              omega
            exact ih hlen hrest

theorem httpQueryGet_eq_lookup (query : Bytes) {key : Bytes} (hkey : key ≠ []) (n : ℕ) :
    httpQueryGet query key n = ((queryPairs query).lookup key).bind fun raw => decode raw n true := by
  rw [httpQueryGet, queryPairs]
  by_cases hq : query = []
  · subst hq
    rfl
  · rw [if_neg hq]
    exact queryGetFrom_eq (Nat.lt_succ_self _) hq hkey

theorem httpQueryGet_eq_queryValue (query : Bytes) {key : Bytes} (hkey : key ≠ []) :
    httpQueryGet query key httpQueryMax = queryValue query key :=
  httpQueryGet_eq_lookup query hkey httpQueryMax

/-! ## The line -/

theorem seriesKeys_ne_nil {key : Bytes} (h : key ∈ seriesKeys) : key ≠ [] := by
  rintro rfl
  exact nil_not_mem_seriesKeys h

theorem queryValue_eq_none {query key : Bytes} (h : key ∉ queryNames query) :
    queryValue query key = none := by
  have hlookup : (queryPairs query).lookup key = none := by
    rw [List.lookup_eq_none_iff]
    intro pair hpair
    refine bne_iff_ne.mpr ?_
    rintro rfl
    exact h (List.mem_map_of_mem hpair)
  rw [queryValue, hlookup]
  rfl

theorem keyValue_eq (key v : Bytes) :
    keyValue (key ≠ pidKey && v.all isDigit) key v = 0x20 :: (seriesField key v).render := by
  unfold keyValue KvField.render KvField.valueText seriesField
  cases (decide (key ≠ pidKey) && v.all isDigit) with
  | true => rfl
  | false => rfl

theorem safeValue_bounds {v : Bytes} (h : safeValue v = true) :
    0 < v.length ∧ v.length ≤ routeValueMax ∧ ∀ c ∈ v, safeChar c = true := by
  unfold safeValue at h
  by_cases hlen : (v.length = 0 || v.length > routeValueMax) = true
  · rw [if_pos hlen] at h
    cases h
  · rw [if_neg hlen] at h
    simp only [Bool.or_eq_true, decide_eq_true_eq, not_or, not_lt] at hlen
    exact ⟨Nat.pos_of_ne_zero hlen.1, hlen.2, List.all_eq_true.mp h⟩

theorem length_keyValue_le {bare : Bool} {key v : Bytes} (hkey : key ∈ seriesKeys)
    (hv : v.length ≤ routeValueMax) : (keyValue bare key v).length ≤ 32 := by
  have hlen : key.length ≤ 4 := by
    have hall : ∀ k ∈ seriesKeys, k.length ≤ 4 := by decide
    exact hall key hkey
  unfold keyValue
  cases bare with
  | true =>
      rw [if_pos rfl]
      simp only [List.length_cons, List.length_append, routeValueMax] at hv ⊢
      omega
  | false =>
      rw [if_neg (by decide)]
      simp only [List.length_cons, List.length_append, List.length_nil, routeValueMax] at hv ⊢
      omega

/-- One field behind the other, while the line has room. -/
theorem buildSeriesFrom_eq_ok {query : Bytes} (hq : SeriesQuery query) {keys : List Bytes}
    (hkeys : ∀ key ∈ keys, key ∈ seriesKeys) {line : Bytes}
    (hroom : line.length + 32 * keys.length < routeLineMax) :
    buildSeriesFrom query (queryNames query) keys line =
      .ok (line ++ fieldsText (keys.filterMap fun key =>
        (queryValue query key).map (seriesField key))) := by
  induction keys generalizing line with
  | nil => rw [buildSeriesFrom, List.filterMap_nil, fieldsText, List.flatMap_nil, List.append_nil]
  | cons key keys ih =>
      have hkey : key ∈ seriesKeys := hkeys key List.mem_cons_self
      have hrest : ∀ k ∈ keys, k ∈ seriesKeys := fun k hk => hkeys k (List.mem_cons_of_mem key hk)
      rw [List.length_cons] at hroom
      rw [buildSeriesFrom]
      by_cases hin : key ∈ queryNames query
      · rcases hq.safe key hin with ⟨v, hv, hsafe⟩
        have hlen : (keyValue (key ≠ pidKey && v.all isDigit) key v).length ≤ 32 :=
          length_keyValue_le hkey (safeValue_bounds hsafe).2.1
        have hfits : ¬ (keyValue (key ≠ pidKey && v.all isDigit) key v).length ≥
            routeLineMax - line.length := by
          omega
        rw [if_neg (not_not.mpr hin), httpQueryGet_eq_queryValue query (seriesKeys_ne_nil hkey), hv]
        simp only [hsafe, Bool.not_true, Bool.false_eq_true, if_false]
        rw [if_neg hfits, ih hrest (by rw [List.length_append]; omega),
          List.filterMap_cons_some (by rw [hv]; rfl), fieldsText, fieldsText, List.flatMap_cons,
          keyValue_eq, List.append_assoc]
      · rw [if_pos hin, ih hrest (by omega),
          List.filterMap_cons_none (by rw [queryValue_eq_none hin]; rfl)]

/-- A well-formed query gives the line of its fields. -/
theorem buildSeries_eq_ok {query : Bytes} (hq : SeriesQuery query) :
    buildSeries query = .ok (seriesLine query).render := by
  have hkeys := (checkKeys_eq_ok_iff query (queryNames query)).mpr ⟨hq.known, hq.once, rfl⟩
  rw [buildSeries, hkeys]
  exact buildSeriesFrom_eq_ok hq (fun _ h => h) (by decide)

theorem safe_of_buildSeriesFrom {query : Bytes} {seen keys : List Bytes}
    (hkeys : ∀ key ∈ keys, key ∈ seriesKeys) {line line' : Bytes}
    (h : buildSeriesFrom query seen keys line = .ok line') :
    ∀ key ∈ keys, key ∈ seen → ∃ v, queryValue query key = some v ∧ safeValue v = true := by
  induction keys generalizing line with
  | nil => exact fun _ hkey => absurd hkey List.not_mem_nil
  | cons key keys ih =>
      have hkey : key ≠ [] := seriesKeys_ne_nil (hkeys key List.mem_cons_self)
      have hrest : ∀ k ∈ keys, k ∈ seriesKeys := fun k hk => hkeys k (List.mem_cons_of_mem key hk)
      rw [buildSeriesFrom] at h
      intro k hk hin
      -- a key that is in the query has been asked for and checked by now
      by_cases hseen : key ∈ seen
      · rw [if_neg (not_not.mpr hseen), httpQueryGet_eq_queryValue query hkey] at h
        cases hv : queryValue query key with
        | none =>
            rw [hv] at h
            cases h
        | some v =>
            rw [hv] at h
            by_cases hsafe : safeValue v = true
            · simp only [hsafe, Bool.not_true, Bool.false_eq_true, if_false] at h
              split_ifs at h
              rcases List.mem_cons.mp hk with rfl | hk
              · exact ⟨v, hv, hsafe⟩
              · exact ih hrest h k hk hin
            · simp [hsafe] at h
      · rw [if_pos hseen] at h
        rcases List.mem_cons.mp hk with rfl | hk
        · exact absurd hin hseen
        · exact ih hrest h k hk hin

/-- A line is built from a well-formed query only. -/
theorem seriesQuery_of_ok {query line : Bytes} (h : buildSeries query = .ok line) :
    SeriesQuery query := by
  unfold buildSeries at h
  cases hkeys : checkKeys query with
  | error why =>
      rw [hkeys] at h
      cases h
  | ok seen =>
      rw [hkeys] at h
      rcases (checkKeys_eq_ok_iff query seen).mp hkeys with ⟨hknown, honce, rfl⟩
      refine ⟨hknown, honce, ?_⟩
      intro key hkey
      exact safe_of_buildSeriesFrom (fun _ h => h) h key (hknown key hkey) hkey

/-! ## When the line is one of the grammar -/

/-- Digits that JSON takes for no number. -/
def LeadingZero (v : Bytes) : Prop :=
  2 ≤ v.length ∧ v.head? = some 0x30 ∧ v.all isDigit = true

theorem isNumber_of_digits {v : Bytes} (hpos : 0 < v.length) (hall : v.all isDigit = true)
    (h : ¬ LeadingZero v) : IsNumber v := by
  have hdigits : IsDigits v := ⟨List.length_pos_iff.mp hpos, List.all_eq_true.mp hall⟩
  have hint : IsInt v := by
    by_cases hzero : v.head? = some 0x30
    · have hone : v.length = 1 := by
        by_contra hlen
        exact h ⟨by omega, hzero, hall⟩
      rcases List.length_eq_one_iff.mp hone with ⟨c, rfl⟩
      rw [List.head?_cons] at hzero
      exact Or.inl (by rw [Option.some.inj hzero])
    · exact Or.inr ⟨hdigits, hzero⟩
  exact isNumber_of_isInt (Or.inl rfl) hint

theorem not_isNumber_of_leadingZero {v : Bytes} (h : LeadingZero v) : ¬ IsNumber v := by
  rcases h with ⟨hlen, hhead, hall⟩
  rcases v with _ | ⟨c, _ | ⟨d, t⟩⟩
  · cases hhead
  · simp at hlen
  · have hc : c = 0x30 := Option.some.inj hhead
    have hd : isDigit d = true := List.all_eq_true.mp hall d (by simp)
    have hdot : d ≠ 0x2E := by
      rintro rfl
      exact absurd hd (by decide)
    have hexp : ¬ (d = 0x65 ∨ d = 0x45) := by
      rintro (rfl | rfl)
      · exact absurd hd (by decide)
      · exact absurd hd (by decide)
    -- the zero is the whole integer, and nothing of a number starts with a digit behind it
    rw [← numberOk_iff, hc]
    simp [numberOk, dropMinus, scanInt, scanFrac, scanExp, hdot, hexp]

theorem safeChar_plain {c : UInt8} (h : safeChar c = true) :
    IsPrintable c ∧ c ≠ 0x22 ∧ c ≠ 0x5C := by
  refine ⟨?_, ?_, ?_⟩
  · have hother : ∀ d ∈ ascii ":+.,_/-", IsPrintable d := forall_mem_of_all (by decide)
    simp only [safeChar, Bool.or_eq_true, Bool.and_eq_true, decide_eq_true_eq,
      UInt8.le_iff_toNat_le, List.contains_iff_mem] at h
    rcases h with ((⟨hlo, hhi⟩ | ⟨hlo, hhi⟩) | ⟨hlo, hhi⟩) | hin
    · rw [IsPrintable, UInt8.le_iff_toNat_le, UInt8.lt_iff_toNat_lt]
      exact ⟨le_trans (by decide) hlo, lt_of_le_of_lt hhi (by decide)⟩
    · rw [IsPrintable, UInt8.le_iff_toNat_le, UInt8.lt_iff_toNat_lt]
      exact ⟨le_trans (by decide) hlo, lt_of_le_of_lt hhi (by decide)⟩
    · rw [IsPrintable, UInt8.le_iff_toNat_le, UInt8.lt_iff_toNat_lt]
      exact ⟨le_trans (by decide) hlo, lt_of_le_of_lt hhi (by decide)⟩
    · exact hother c hin
  · rintro rfl
    exact absurd h (by decide)
  · rintro rfl
    exact absurd h (by decide)

theorem mem_seriesFields {query : Bytes} {f : KvField} :
    f ∈ seriesFields query ↔
      ∃ key ∈ seriesKeys, ∃ v, queryValue query key = some v ∧ seriesField key v = f := by
  unfold seriesFields
  simp only [List.mem_filterMap, Option.map_eq_some_iff]

theorem keys_seriesFields (query : Bytes) :
    ((seriesFields query).map KvField.key).Sublist seriesKeys := by
  have hkeys : (seriesFields query).map KvField.key =
      seriesKeys.filter fun key => (queryValue query key).isSome := by
    unfold seriesFields
    rw [List.map_filterMap, ← List.filterMap_eq_filter]
    apply List.filterMap_congr
    intro key _
    cases hv : queryValue query key with
    | none => simp [Option.guard, hv]
    | some v => simp [Option.guard, hv, seriesField]
  rw [hkeys]
  exact List.filter_sublist

/-- The value of a query is one its field may have, unless it is digits with a
zero before them. -/
theorem seriesField_valueOk {key v : Bytes} (hv : safeValue v = true)
    (hzero : key ≠ pidKey → ¬ LeadingZero v) : (seriesField key v).ValueOk := by
  rcases safeValue_bounds hv with ⟨hpos, hlen, hall⟩
  have hshort : v.length < kvMaxValue := lt_of_le_of_lt hlen (by decide)
  unfold KvField.ValueOk seriesField
  by_cases hbare : (decide (key ≠ pidKey) && v.all isDigit) = true
  · rw [if_pos hbare]
    rw [Bool.and_eq_true, decide_eq_true_eq] at hbare
    exact ⟨hshort, isNumber_of_digits hpos hbare.2 (hzero hbare.1)⟩
  · rw [if_neg hbare]
    exact ⟨hshort, fun c hc => safeChar_plain (hall c hc)⟩

/-- The number written with a zero before it is what breaks the grammar, and
nothing else does. -/
theorem seriesLine_wf_iff {query : Bytes} (hq : SeriesQuery query) :
    (seriesLine query).Wf ↔
      ∀ key ∈ [fromKey, toKey], ∀ v, queryValue query key = some v → ¬ LeadingZero v := by
  have hnames : ∀ key ∈ seriesKeys, isName key kvMaxKey = true := by decide
  constructor
  · intro hwf key hkey v hv hzero
    have hin : key ∈ seriesKeys := List.mem_cons_of_mem pidKey hkey
    have hpid : key ≠ pidKey := by
      rintro rfl
      exact absurd hkey (by decide)
    have hfield := hwf.fields.values _ (mem_seriesFields.mpr ⟨key, hin, v, hv, rfl⟩)
    unfold KvField.ValueOk seriesField at hfield
    -- such a value is all digits, so it goes into the line without quotes
    have hbare : (decide (key ≠ pidKey) && v.all isDigit) = true := by
      rw [hzero.2.2, Bool.and_true]
      exact decide_eq_true hpid
    rw [if_pos hbare] at hfield
    exact not_isNumber_of_leadingZero hzero hfield.2
  · intro hzero
    have htag : IsName seriesWord kvMaxTag := (isName_iff _ _).mp (by decide)
    refine ⟨htag, show seriesWord ≠ okWord by decide, show seriesWord ≠ errWord by decide, ?_⟩
    refine ⟨?_, ?_, ?_, ?_⟩
    · have hlen := (keys_seriesFields query).length_le
      rw [List.length_map] at hlen
      exact le_trans hlen (by decide)
    · exact (keys_seriesFields query).nodup (by decide)
    · intro f hf
      rcases mem_seriesFields.mp hf with ⟨key, hkey, v, -, rfl⟩
      exact (isName_iff _ _).mp (hnames key hkey)
    · intro f hf
      rcases mem_seriesFields.mp hf with ⟨key, hkey, v, hv, rfl⟩
      have hin : key ∈ queryNames query := by
        by_contra hnot
        rw [queryValue_eq_none hnot] at hv
        cases hv
      rcases hq.safe key hin with ⟨w, hw, hsafe⟩
      rw [hv] at hw
      rw [← Option.some.inj hw] at hsafe
      refine seriesField_valueOk hsafe ?_
      intro hpid
      rcases List.mem_cons.mp hkey with rfl | hother
      · exact absurd rfl hpid
      · exact hzero key hother v hv

theorem length_buildSeriesFrom {query : Bytes} {seen keys : List Bytes} {line line' : Bytes}
    (hline : line.length < routeLineMax) (h : buildSeriesFrom query seen keys line = .ok line') :
    line'.length < routeLineMax := by
  induction keys generalizing line with
  | nil =>
      rw [← Except.ok.inj h]
      exact hline
  | cons key keys ih =>
      rw [buildSeriesFrom] at h
      by_cases hseen : key ∈ seen
      · rw [if_neg (not_not.mpr hseen)] at h
        cases hv : httpQueryGet query key httpQueryMax with
        | none =>
            rw [hv] at h
            cases h
        | some v =>
            simp only [hv] at h
            split_ifs at h with hunsafe hlong
            refine ih ?_ h
            rw [List.length_append]
            omega
      · rw [if_pos hseen] at h
        exact ih hline h

/-- The line has the room it was given. -/
theorem length_buildSeries {query line : Bytes} (h : buildSeries query = .ok line) :
    line.length < routeLineMax := by
  unfold buildSeries at h
  cases hkeys : checkKeys query with
  | error why =>
      rw [hkeys] at h
      cases h
  | ok seen =>
      rw [hkeys] at h
      exact length_buildSeriesFrom (by decide) h

/-- The source is sent the record that the query asks for, when no number has
a zero before it. -/
theorem kvParseLine_seriesLine_iff {query : Bytes} (hq : SeriesQuery query) :
    kvParseLine (seriesLine query).render = .record (seriesLine query) ↔
      ∀ key ∈ [fromKey, toKey], ∀ v, queryValue query key = some v → ¬ LeadingZero v := by
  have hlen : (seriesLine query).render.length ≤ kvMaxLine :=
    le_of_lt (lt_trans (length_buildSeries (buildSeries_eq_ok hq)) (by decide))
  rw [kvParseLine_eq_record_iff, seriesLine_wf_iff hq]
  exact ⟨fun h => h.1, fun h => ⟨h, hlen, rfl⟩⟩

end Carwatch.Interface
