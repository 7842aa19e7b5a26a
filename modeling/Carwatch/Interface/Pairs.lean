import Carwatch.Interface.Route
import Mathlib.Data.List.Perm.Basic

/-!
# Carwatch.Interface.Pairs — the order of the pairs in a query

`check_keys` and `http_query_get` cut the query of `/api/series` on their own,
one pair by pair, the other up to the first pair of a name. They agree on
every query that `check_keys` accepts (`checkKeys_agrees`), and what comes of
a query depends on its pairs and not on their order.

* `joinPairs` — the query that a list of pairs makes;
* `queryPairs_perm`, `queryValue_perm` — what survives a permutation;
* `series_request_perm` — two orders of the same pairs are both refused, or
  send the source the same line.
-/

namespace Carwatch.Interface

open Carwatch.Lib

/-! ## Values by name -/

/-- With each name once, looking a name up finds its pair. -/
theorem lookup_eq_some_iff_mem {l : List (Bytes × Bytes)} (h : (l.map Prod.fst).Nodup)
    {key value : Bytes} : l.lookup key = some value ↔ (key, value) ∈ l := by
  induction l with
  | nil =>
      constructor
      · intro hnone
        cases hnone
      · intro hin
        exact absurd hin List.not_mem_nil
  | cons pair l ih =>
      rcases pair with ⟨name, v⟩
      rw [List.map_cons, List.nodup_cons] at h
      rw [List.lookup_cons, List.mem_cons]
      by_cases hname : key = name
      -- the first pair is found; the name is not in another one
      · subst hname
        rw [beq_self_eq_true]
        constructor
        · intro hv
          left
          rw [Option.some.inj hv]
        · rintro (hv | hin)
          · rw [(Prod.mk.inj hv).2]
          · exact absurd (List.mem_map_of_mem hin) h.1
      · rw [beq_eq_false_iff_ne.mpr hname]
        show l.lookup key = some value ↔ _
        rw [ih h.2]
        constructor
        · exact Or.inr
        · rintro (hv | hin)
          · exact absurd (Prod.mk.inj hv).1 hname
          · exact hin

theorem lookup_perm {l l' : List (Bytes × Bytes)} (h : l.Perm l') (hnodup : (l.map Prod.fst).Nodup)
    (key : Bytes) : l.lookup key = l'.lookup key := by
  have hnodup' : (l'.map Prod.fst).Nodup := (h.map Prod.fst).nodup_iff.mp hnodup
  apply Option.ext
  intro value
  rw [lookup_eq_some_iff_mem hnodup, lookup_eq_some_iff_mem hnodup']
  exact h.mem_iff

/-! ## The same pairs in another order -/

/-- The query with these pairs, an `&` between any two. -/
def joinPairs (pairs : List Bytes) : Bytes := [0x26].intercalate pairs

/-- The pairs of a joined query; a query of nothing but one empty pair is no
query. -/
theorem queryPairs_joinPairs {pairs : List Bytes} (hplain : ∀ pair ∈ pairs, 0x26 ∉ pair)
    (hne : pairs ≠ [[]]) :
    queryPairs (joinPairs pairs) = pairs.map fun pair => (pairName pair, pairValue pair) := by
  by_cases hnil : pairs = []
  · subst hnil
    rfl
  · have hsplit : (joinPairs pairs).splitOn 0x26 = pairs := List.splitOn_intercalate 0x26 hplain hnil
    have hjoin : joinPairs pairs ≠ [] := by
      intro hempty
      rw [hempty] at hsplit
      exact hne hsplit.symm
    rw [queryPairs, if_neg hjoin, hsplit]

theorem queryPairs_perm {pairs pairs' : List Bytes} (hplain : ∀ pair ∈ pairs, 0x26 ∉ pair)
    (hperm : pairs.Perm pairs') :
    (queryPairs (joinPairs pairs)).Perm (queryPairs (joinPairs pairs')) := by
  by_cases hone : pairs = [[]]
  · subst hone
    rw [List.singleton_perm.mp hperm]
  · have hone' : pairs' ≠ [[]] := by
      rintro rfl
      exact hone (List.perm_singleton.mp hperm)
    have hplain' : ∀ pair ∈ pairs', 0x26 ∉ pair := fun pair hpair =>
      hplain pair (hperm.mem_iff.mpr hpair)
    rw [queryPairs_joinPairs hplain hone, queryPairs_joinPairs hplain' hone']
    exact hperm.map _

section Perm

variable {query query' : Bytes} (hperm : (queryPairs query).Perm (queryPairs query'))
include hperm

theorem queryNames_perm : (queryNames query).Perm (queryNames query') := hperm.map Prod.fst

theorem queryValue_perm (hnodup : (queryNames query).Nodup) (key : Bytes) :
    queryValue query key = queryValue query' key := by
  unfold queryValue
  rw [lookup_perm hperm hnodup]

/-- Whether a query is well formed is a matter of its pairs. -/
theorem SeriesQuery.perm (h : SeriesQuery query) : SeriesQuery query' where
  known key hkey := h.known key ((queryNames_perm hperm).mem_iff.mpr hkey)
  once := (queryNames_perm hperm).nodup_iff.mp h.once
  safe key hkey := by
    rcases h.safe key ((queryNames_perm hperm).mem_iff.mpr hkey) with ⟨v, hv, hsafe⟩
    exact ⟨v, (queryValue_perm hperm h.once key).symm.trans hv, hsafe⟩

/-- And so is the line made of it. -/
theorem seriesLine_perm (hnodup : (queryNames query).Nodup) : seriesLine query = seriesLine query' := by
  have hfields : seriesFields query = seriesFields query' := by
    unfold seriesFields
    congr 1
    funext key
    rw [queryValue_perm hperm hnodup]
  rw [seriesLine, hfields]
  rfl

end Perm

/-! ## The two scanners agree -/

theorem filter_eq_singleton_of_mem {l : List (Bytes × Bytes)} (h : (l.map Prod.fst).Nodup)
    {key raw : Bytes} (hin : (key, raw) ∈ l) : l.filter (fun pair => pair.1 = key) = [(key, raw)] := by
  induction l with
  | nil => exact absurd hin List.not_mem_nil
  | cons pair l ih =>
      rw [List.map_cons, List.nodup_cons] at h
      rw [List.filter_cons]
      rcases List.mem_cons.mp hin with rfl | hin
      · -- no other pair has this name
        have hothers : l.filter (fun pair => pair.1 = key) = [] := by
          rw [List.filter_eq_nil_iff]
          intro other hother hname
          have hin := List.mem_map_of_mem (f := Prod.fst) hother
          rw [of_decide_eq_true hname] at hin
          exact h.1 hin
        rw [if_pos (decide_eq_true rfl), hothers]
      · have hne : ¬ decide (pair.1 = key) = true := by
          intro hname
          apply h.1
          rw [of_decide_eq_true hname]
          exact List.mem_map_of_mem hin
        rw [if_neg hne]
        exact ih h.2 hin

/-- On a query that `check_keys` accepts, `http_query_get` finds a key exactly
when its bit is set, and then decodes the value of the one pair of that name. -/
theorem checkKeys_agrees {query : Bytes} {seen : List Bytes} (h : checkKeys query = .ok seen)
    {key : Bytes} (hkey : key ∈ seriesKeys) :
    (key ∈ seen → ∃ raw, (queryPairs query).filter (fun pair => pair.1 = key) = [(key, raw)] ∧
      ∀ n, httpQueryGet query key n = decode raw n true) ∧
    (key ∉ seen → (queryPairs query).filter (fun pair => pair.1 = key) = [] ∧
      ∀ n, httpQueryGet query key n = none) := by
  rcases (checkKeys_eq_ok_iff query seen).mp h with ⟨-, hnodup, rfl⟩
  have hget := httpQueryGet_eq_lookup query (seriesKeys_ne_nil hkey)
  constructor
  · intro hin
    rcases List.mem_map.mp hin with ⟨⟨name, raw⟩, hpair, rfl⟩
    refine ⟨raw, filter_eq_singleton_of_mem hnodup hpair, ?_⟩
    intro n
    rw [hget, (lookup_eq_some_iff_mem hnodup).mpr hpair]
    rfl
  · intro hnot
    -- `seen` holds the names of the pairs, all of them
    have hnone : ∀ pair ∈ queryPairs query, pair.1 ≠ key := by
      rintro pair hpair rfl
      exact hnot (List.mem_map_of_mem hpair)
    constructor
    · rw [List.filter_eq_nil_iff]
      intro pair hpair hname
      exact hnone pair hpair (of_decide_eq_true hname)
    · intro n
      have hlookup : (queryPairs query).lookup key = none := by
        rw [List.lookup_eq_none_iff]
        intro pair hpair
        exact bne_iff_ne.mpr (hnone pair hpair).symm
      rw [hget, hlookup]
      rfl

/-! ## What reaches the source -/

/-- A query is refused, or its line is sent. -/
theorem series_outcome (page : Bytes) (source : Bytes → Option Bytes) (query : Bytes)
    (resp : ServerResponse) (hresp : resp.body.length = serverBodyMax) :
    (¬ SeriesQuery query ∧
      (routeHandle page source ⟨ascii "/api/series", query⟩ resp).1.status = httpStatusBadRequest ∧
      (routeHandle page source ⟨ascii "/api/series", query⟩ resp).2 = []) ∨
    (SeriesQuery query ∧
      (routeHandle page source ⟨ascii "/api/series", query⟩ resp).2 = [(seriesLine query).render]) := by
  rw [routeHandle_series]
  cases hbuild : buildSeries query with
  | error why =>
      left
      have hnot : ¬ SeriesQuery query := by
        intro hq
        rw [buildSeries_eq_ok hq] at hbuild
        cases hbuild
      have htext := errorText_usage (buildSeries_error_mem hbuild).1
      exact ⟨hnot, (setError_writes hresp htext httpStatusBadRequest).1, rfl⟩
  | ok line =>
      right
      have hq := seriesQuery_of_ok hbuild
      rw [buildSeries_eq_ok hq] at hbuild
      rw [← Except.ok.inj hbuild]
      exact ⟨hq, rfl⟩

/-- Two orders of the same pairs are both refused with 400 and nothing sent,
or send the source the same line; where `check_keys` accepts, the two scanners
agree; and no query is refused for length. -/
theorem series_request_perm (page : Bytes) (source : Bytes → Option Bytes) (resp : ServerResponse)
    (hresp : resp.body.length = serverBodyMax) (pairs pairs' : List Bytes)
    (hplain : ∀ pair ∈ pairs, 0x26 ∉ pair) (hperm : pairs.Perm pairs') :
    (((routeHandle page source ⟨ascii "/api/series", joinPairs pairs⟩ resp).1.status =
          httpStatusBadRequest ∧
        (routeHandle page source ⟨ascii "/api/series", joinPairs pairs⟩ resp).2 = [] ∧
        (routeHandle page source ⟨ascii "/api/series", joinPairs pairs'⟩ resp).1.status =
          httpStatusBadRequest ∧
        (routeHandle page source ⟨ascii "/api/series", joinPairs pairs'⟩ resp).2 = []) ∨
      ∃ line, (routeHandle page source ⟨ascii "/api/series", joinPairs pairs⟩ resp).2 = [line] ∧
        (routeHandle page source ⟨ascii "/api/series", joinPairs pairs'⟩ resp).2 = [line]) ∧
    (∀ query seen, checkKeys query = .ok seen → ∀ key ∈ seriesKeys,
      (key ∈ seen → ∃ raw, (queryPairs query).filter (fun pair => pair.1 = key) = [(key, raw)] ∧
        ∀ n, httpQueryGet query key n = decode raw n true) ∧
      (key ∉ seen → (queryPairs query).filter (fun pair => pair.1 = key) = [] ∧
        ∀ n, httpQueryGet query key n = none)) ∧
    ∀ query, buildSeries query ≠ .error (ascii "query too long") := by
  have hpairs := queryPairs_perm hplain hperm
  refine ⟨?_, ?_, ?_⟩
  · rcases series_outcome page source (joinPairs pairs) resp hresp with
      ⟨hnot, hstatus, hnone⟩ | ⟨hq, hsent⟩
    -- whether a query asks for a series does not depend on the order
    · rcases series_outcome page source (joinPairs pairs') resp hresp with
        ⟨-, hstatus', hnone'⟩ | ⟨hq', -⟩
      · exact .inl ⟨hstatus, hnone, hstatus', hnone'⟩
      · exact absurd (SeriesQuery.perm hpairs.symm hq') hnot
    · rcases series_outcome page source (joinPairs pairs') resp hresp with
        ⟨hnot', -, -⟩ | ⟨-, hsent'⟩
      · exact absurd (SeriesQuery.perm hpairs hq) hnot'
      · refine .inr ⟨_, hsent, ?_⟩
        rw [hsent', seriesLine_perm hpairs hq.once]
  · intro query seen h key hkey
    exact checkKeys_agrees h hkey
  · intro query h
    exact (buildSeries_error_mem h).2 rfl

/-- Two pairs in both orders, one with an escape in its value. -/
theorem series_request_perm_swap :
    freshResponse.body.length = serverBodyMax ∧
    ∃ line, (routeHandle [] (fun _ => none)
        ⟨ascii "/api/series", joinPairs [ascii "to=now", ascii "pid=0%43"]⟩ freshResponse).2 = [line] ∧
      (routeHandle [] (fun _ => none)
        ⟨ascii "/api/series", joinPairs [ascii "pid=0%43", ascii "to=now"]⟩ freshResponse).2 = [line] := by
  refine ⟨length_freshResponse, ?_⟩
  have hbuild : buildSeries (joinPairs [ascii "to=now", ascii "pid=0%43"]) =
      .ok (ascii "series pid=\"0C\" to=\"now\"") := by
    decide +kernel
  rcases (series_request_perm [] (fun _ => none) freshResponse length_freshResponse
    [ascii "to=now", ascii "pid=0%43"] [ascii "pid=0%43", ascii "to=now"] (by decide)
    (List.Perm.swap _ _ _)).1 with ⟨-, hnone, -⟩ | hline
  · rw [routeHandle_series, hbuild] at hnone
    cases hnone
  · exact hline

end Carwatch.Interface
