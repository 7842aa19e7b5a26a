import Mathlib.Data.List.Basic
import Mathlib.Data.List.Nodup
import Mathlib.Data.List.Forall2
import Mathlib.Data.List.Induction

/-!
# Carwatch.Lib.Dict — a dictionary in the order of insertion

Keys are in the order in which they were first put in, and putting a key in
again replaces its value in place. (`AList` of the library moves the key to the
front.)

* `Dict` — the entries, with the proof that no key occurs twice;
* `get?_insert`, `keys_insert` — what `insert` does to either view;
* `Dict.ext_get` — the two views say everything;
* `ofList`, `indexBy` — the dictionary of a list, in which a later one wins.
-/

namespace Carwatch.Lib

universe u v w

/-- A dictionary. -/
structure Dict (κ : Type u) (ν : Type v) where
  entries : List (κ × ν)
  nodup : (entries.map Prod.fst).Nodup

namespace Dict

variable {κ : Type u} {ν : Type v} {μ : Type w}

/-- The keys, oldest first. -/
def keys (d : Dict κ ν) : List κ := d.entries.map Prod.fst

/-- The dictionary without entries. -/
def empty : Dict κ ν := ⟨[], List.nodup_nil⟩

/-- The values changed, the keys as they were. -/
def mapVal (f : ν → μ) (d : Dict κ ν) : Dict κ μ where
  entries := d.entries.map fun e => (e.1, f e.2)
  nodup := by
    rw [List.map_map]
    exact d.nodup

@[simp] theorem keys_mapVal (f : ν → μ) (d : Dict κ ν) : (d.mapVal f).keys = d.keys := by
  unfold keys mapVal
  rw [List.map_map]
  rfl

theorem ext_entries {d d' : Dict κ ν} (h : d.entries = d'.entries) : d = d' := by
  cases d
  cases d'
  obtain rfl : _ = _ := h
  rfl

variable [DecidableEq κ]

/-- The value of a key among the entries. -/
def lookupIn (k : κ) : List (κ × ν) → Option ν
  | [] => none
  | e :: es => if e.1 = k then some e.2 else lookupIn k es

/-- The value of a key. -/
def get? (d : Dict κ ν) (k : κ) : Option ν := lookupIn k d.entries

/-- The entry of a key replaced where it stands, or put at the end. -/
def insertIn (k : κ) (v : ν) : List (κ × ν) → List (κ × ν)
  | [] => [(k, v)]
  | e :: es => if e.1 = k then (k, v) :: es else e :: insertIn k v es

theorem insertIn_keys (k : κ) (v : ν) (es : List (κ × ν)) :
    (insertIn k v es).map Prod.fst =
      if k ∈ es.map Prod.fst then es.map Prod.fst else es.map Prod.fst ++ [k] := by
  induction es with
  | nil => rfl
  | cons e es ih =>
      rw [insertIn]
      by_cases he : e.1 = k
      · rw [if_pos he, if_pos (by simp [he])]
        rw [List.map_cons, List.map_cons, he]
      · have hmem : k ∈ (e :: es).map Prod.fst ↔ k ∈ es.map Prod.fst := by
          rw [List.map_cons, List.mem_cons]
          exact or_iff_right fun h => he h.symm
        rw [if_neg he, List.map_cons, ih]
        by_cases hk : k ∈ es.map Prod.fst
        · rw [if_pos hk, if_pos (hmem.mpr hk), List.map_cons]
        · rw [if_neg hk, if_neg (fun h => hk (hmem.mp h)), List.map_cons, List.cons_append]

/-- The dictionary with the value of one key set. -/
def insert (d : Dict κ ν) (k : κ) (v : ν) : Dict κ ν where
  entries := insertIn k v d.entries
  nodup := by
    rw [insertIn_keys]
    split_ifs with hk
    · exact d.nodup
    · exact List.nodup_append.mpr ⟨d.nodup, List.nodup_singleton k, by
        intro a ha b hb hab
        rw [List.mem_singleton.mp hb] at hab
        exact hk (hab ▸ ha)⟩

/-- The dictionary of a list of pairs; a later pair wins. -/
def ofList (l : List (κ × ν)) : Dict κ ν := l.foldl (fun d e => d.insert e.1 e.2) empty

/-! ## The two views -/

@[simp] theorem get?_empty (k : κ) : (empty : Dict κ ν).get? k = none := rfl

theorem get?_insert (d : Dict κ ν) (k k' : κ) (v : ν) :
    (d.insert k v).get? k' = if k = k' then some v else d.get? k' := by
  show lookupIn k' (insertIn k v d.entries) = if k = k' then some v else lookupIn k' d.entries
  induction d.entries with
  | nil => rfl
  | cons e es ih =>
      rw [insertIn]
      by_cases he : e.1 = k
      · rw [if_pos he, lookupIn, lookupIn, he]
        split_ifs <;> rfl
      · rw [if_neg he, lookupIn, lookupIn, ih]
        by_cases hk : k = k'
        · rw [if_pos hk, if_pos hk, if_neg (fun h => he (h.trans hk.symm))]
        · rw [if_neg hk, if_neg hk]

theorem keys_insert (d : Dict κ ν) (k : κ) (v : ν) :
    (d.insert k v).keys = if k ∈ d.keys then d.keys else d.keys ++ [k] :=
  insertIn_keys k v d.entries

theorem get?_mapVal (f : ν → μ) (d : Dict κ ν) (k : κ) :
    (d.mapVal f).get? k = (d.get? k).map f := by
  show lookupIn k (d.entries.map fun e => (e.1, f e.2)) = (lookupIn k d.entries).map f
  induction d.entries with
  | nil => rfl
  | cons e es ih =>
      rw [List.map_cons, lookupIn, lookupIn, ih]
      split_ifs <;> rfl

theorem lookupIn_eq_none_iff {k : κ} {es : List (κ × ν)} :
    lookupIn k es = none ↔ k ∉ es.map Prod.fst := by
  induction es with
  | nil => simp [lookupIn]
  | cons e es ih =>
      rw [lookupIn, List.map_cons, List.mem_cons, not_or]
      by_cases he : e.1 = k
      · simp [he]
      · rw [if_neg he, ih]
        exact (and_iff_right fun h => he h.symm).symm

theorem get?_eq_none_iff {d : Dict κ ν} {k : κ} : d.get? k = none ↔ k ∉ d.keys :=
  lookupIn_eq_none_iff

theorem lookupIn_of_mem {k : κ} {v : ν} {es : List (κ × ν)} (h : (k, v) ∈ es)
    (hnodup : (es.map Prod.fst).Nodup) : lookupIn k es = some v := by
  induction es with
  | nil => cases h
  | cons e es ih =>
      rw [List.map_cons, List.nodup_cons] at hnodup
      rw [lookupIn]
      rcases List.mem_cons.mp h with rfl | hmem
      · exact if_pos rfl
      · have hne : e.1 ≠ k := by
          rintro rfl
          exact hnodup.1 (List.mem_map.mpr ⟨_, hmem, rfl⟩)
        rw [if_neg hne]
        exact ih hmem hnodup.2

theorem mem_of_lookupIn {k : κ} {v : ν} {es : List (κ × ν)} (h : lookupIn k es = some v) :
    (k, v) ∈ es := by
  induction es with
  | nil => cases h
  | cons e es ih =>
      rw [lookupIn] at h
      split_ifs at h with he
      · rw [← he, ← Option.some.inj h]
        exact List.mem_cons_self
      · exact List.mem_cons_of_mem e (ih h)

/-- A dictionary holds an entry exactly if it gives the value for the key. -/
theorem get?_eq_some_iff {d : Dict κ ν} {k : κ} {v : ν} :
    d.get? k = some v ↔ (k, v) ∈ d.entries :=
  ⟨mem_of_lookupIn, fun h => lookupIn_of_mem h d.nodup⟩

/-- Keys and values say everything about a dictionary. -/
theorem ext_get {d d' : Dict κ ν} (hkeys : d.keys = d'.keys) (hget : ∀ k, d.get? k = d'.get? k) :
    d = d' := by
  refine ext_entries (List.ext_getElem? fun i => ?_)
  have hi : (d.entries[i]?).map Prod.fst = (d'.entries[i]?).map Prod.fst := by
    rw [← List.getElem?_map, ← List.getElem?_map]
    exact congrArg (·[i]?) hkeys
  cases he : d.entries[i]? with
  | none =>
      rw [he] at hi
      cases he' : d'.entries[i]? with
      | none => rfl
      | some e' =>
          rw [he'] at hi
          cases hi
  | some e =>
      rw [he] at hi
      cases he' : d'.entries[i]? with
      | none =>
          rw [he'] at hi
          cases hi
      | some e' =>
          rw [he'] at hi
          obtain ⟨k, v⟩ := e
          obtain ⟨k', v'⟩ := e'
          obtain rfl : k = k' := Option.some.inj hi
          have hv : d.get? k = some v := get?_eq_some_iff.mpr (List.mem_of_getElem? he)
          have hv' : d'.get? k = some v' := get?_eq_some_iff.mpr (List.mem_of_getElem? he')
          rw [hget k, hv'] at hv
          rw [Option.some.inj hv]

/-! ## Dictionaries of lists -/

theorem ofList_concat (l : List (κ × ν)) (e : κ × ν) :
    ofList (l ++ [e]) = (ofList l).insert e.1 e.2 := by
  unfold ofList
  rw [List.foldl_append]
  rfl

theorem mem_keys_ofList {l : List (κ × ν)} {k : κ} :
    k ∈ (ofList l).keys ↔ k ∈ l.map Prod.fst := by
  induction l using List.reverseRec with
  | nil => rfl
  | append_singleton l e ih =>
      rw [ofList_concat, keys_insert, List.map_append, List.mem_append, ← ih]
      split_ifs with he
      · constructor
        · exact Or.inl
        · rintro (h | h)
          · exact h
          · rw [List.map_singleton, List.mem_singleton] at h
            exact h ▸ he
      · rw [List.mem_append]
        rfl

/-- Changing the values of the pairs changes the values of the dictionary. -/
theorem ofList_map (f : ν → μ) (l : List (κ × ν)) :
    ofList (l.map fun e => (e.1, f e.2)) = (ofList l).mapVal f := by
  induction l using List.reverseRec with
  | nil => rfl
  | append_singleton l e ih =>
      rw [List.map_append, List.map_singleton, ofList_concat, ofList_concat, ih]
      refine ext_get ?_ ?_
      · rw [keys_insert, keys_mapVal, keys_mapVal, keys_insert]
      · intro k
        rw [get?_insert, get?_mapVal, get?_mapVal, get?_insert]
        split_ifs <;> rfl

theorem mem_of_get?_ofList {l : List (κ × ν)} {k : κ} {v : ν} (h : (ofList l).get? k = some v) :
    (k, v) ∈ l := by
  induction l using List.reverseRec with
  | nil => cases h
  | append_singleton l e ih =>
      rw [ofList_concat, get?_insert] at h
      rw [List.mem_append, List.mem_singleton]
      split_ifs at h with hk
      · exact Or.inr (Prod.ext hk.symm (Option.some.inj h).symm)
      · exact Or.inl (ih h)

/-! ## Things by one of their fields -/

section IndexBy

variable {α : Type v} (key : α → κ)

/-- Things by a key of theirs; a later one wins. -/
def indexBy (l : List α) : Dict κ α := ofList (l.map fun a => (key a, a))

theorem get?_indexBy_concat (l : List α) (a : α) (k : κ) :
    (indexBy key (l ++ [a])).get? k = if key a = k then some a else (indexBy key l).get? k := by
  unfold indexBy
  rw [List.map_append, List.map_singleton, ofList_concat, get?_insert]

/-- Changing the things behind their keys. -/
theorem get?_indexBy_map {g : α → α} (hg : ∀ a, key (g a) = key a) (l : List α) (k : κ) :
    (indexBy key (l.map g)).get? k = ((indexBy key l).get? k).map g := by
  unfold indexBy
  rw [← get?_mapVal, ← ofList_map, List.map_map, List.map_map]
  congr 3
  funext a
  exact Prod.ext (hg a) rfl

theorem get?_indexBy_none {l : List α} {k : κ} : (indexBy key l).get? k = none ↔ k ∉ l.map key := by
  rw [get?_eq_none_iff, indexBy, mem_keys_ofList, List.map_map]
  rfl

theorem mem_of_get?_indexBy {l : List α} {k : κ} {a : α}
    (h : (indexBy key l).get? k = some a) : a ∈ l ∧ key a = k := by
  obtain ⟨a', ha', heq⟩ := List.mem_map.mp (mem_of_get?_ofList h)
  rw [Prod.mk.injEq] at heq
  exact ⟨heq.2 ▸ ha', heq.2 ▸ heq.1⟩

end IndexBy

end Dict

end Carwatch.Lib
