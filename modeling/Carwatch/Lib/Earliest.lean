import Carwatch.Lib.Dict
import Mathlib.Data.List.Sort

/-!
# Carwatch.Lib.Earliest — dictionaries in which an earlier one wins

What a reader makes of numbered parts that come in any order, and more than
once.

* `setDefault`, `earliest` — a key keeps its first value;
* `get?_earliest` — which is the first with that key in the list;
* `inOrder` — the values by increasing key; `inOrder_eq` is what that is for
  the keys `0`, …, `n - 1`.
-/

namespace Carwatch.Lib.Dict

universe u v

variable {κ : Type u} {ν : Type v}

section Earliest

variable [DecidableEq κ]

/-- `d.setdefault(k, v)` -/
def setDefault (d : Dict κ ν) (k : κ) (v : ν) : Dict κ ν :=
  match d.get? k with
  | some _ => d
  | none => d.insert k v

/-- The dictionary of a list of pairs; an earlier pair wins. -/
def earliest (l : List (κ × ν)) : Dict κ ν := l.foldl (fun d e => d.setDefault e.1 e.2) empty

theorem get?_setDefault (d : Dict κ ν) (k k' : κ) (v : ν) :
    (d.setDefault k v).get? k' = (d.get? k').or (if k = k' then some v else none) := by
  unfold setDefault
  split
  · next w hw =>
      by_cases hk : k = k'
      · rw [if_pos hk, ← hk, hw]
        rfl
      · rw [if_neg hk, Option.or_none]
  · next hw =>
      rw [get?_insert]
      by_cases hk : k = k'
      · rw [if_pos hk, if_pos hk, ← hk, hw]
        rfl
      · rw [if_neg hk, if_neg hk, Option.or_none]

/-- The first value of a key is kept. -/
theorem get?_earliest (l : List (κ × ν)) (k : κ) : (earliest l).get? k = lookupIn k l := by
  have hfold : ∀ d : Dict κ ν,
      (l.foldl (fun d e => d.setDefault e.1 e.2) d).get? k = (d.get? k).or (lookupIn k l) := by
    induction l with
    | nil => exact fun d => (Option.or_none).symm
    | cons e l ih =>
        intro d
        rw [List.foldl_cons, ih, get?_setDefault, Option.or_assoc, lookupIn]
        by_cases hk : e.1 = k
        · rw [if_pos hk, if_pos hk]
          rfl
        · rw [if_neg hk, if_neg hk, Option.none_or]
  rw [earliest, hfold, get?_empty, Option.none_or]

end Earliest

/-- The values by increasing key: `[d[k] for k in sorted(d)]`. -/
def inOrder [LE κ] [DecidableLE κ] (d : Dict κ ν) : List ν :=
  (d.entries.insertionSort fun a b => a.1 ≤ b.1).map Prod.snd

/-- A dictionary of the keys `0`, …, `n - 1` is a list. -/
theorem inOrder_eq {d : Dict ℕ ν} {vs : List ν} (h : ∀ k, d.get? k = vs[k]?) : d.inOrder = vs := by
  have hmem : ∀ e, e ∈ d.entries ↔ e ∈ vs.mapIdx fun i v => (i, v) := by
    rintro ⟨k, v⟩
    have hentry : (k, v) ∈ d.entries ↔ vs[k]? = some v := by
      rw [← h k]
      exact get?_eq_some_iff.symm
    rw [hentry, List.mem_mapIdx]
    constructor
    · intro hk
      obtain ⟨hlt, rfl⟩ := List.getElem?_eq_some_iff.mp hk
      exact ⟨k, hlt, rfl⟩
    · rintro ⟨i, hi, heq⟩
      obtain ⟨rfl, rfl⟩ := Prod.mk.inj heq
      exact List.getElem?_eq_getElem hi
  have hsorted : (vs.mapIdx fun i v => (i, v)).Pairwise fun a b => a.1 < b.1 := by
    rw [List.pairwise_iff_getElem]
    intro i j hi hj hij
    rw [List.getElem_mapIdx, List.getElem_mapIdx]
    exact hij
  have hperm : (d.entries.insertionSort fun a b => a.1 ≤ b.1).Perm (vs.mapIdx fun i v => (i, v)) := by
    refine (List.perm_insertionSort _ _).trans ?_
    rw [List.perm_ext_iff_of_nodup (List.Nodup.of_map _ d.nodup)
      (hsorted.imp fun hlt heq => absurd (heq ▸ hlt) (Nat.lt_irrefl _))]
    exact hmem
  have htotal : Std.Total fun a b : ℕ × ν => a.1 ≤ b.1 := ⟨fun a b => Nat.le_total a.1 b.1⟩
  have htrans : IsTrans (ℕ × ν) fun a b => a.1 ≤ b.1 := ⟨fun _ _ _ => Nat.le_trans⟩
  have heq : (d.entries.insertionSort fun a b => a.1 ≤ b.1) = vs.mapIdx fun i v => (i, v) := by
    refine hperm.eq_of_pairwise ?_ (List.pairwise_insertionSort _ _) (hsorted.imp Nat.le_of_lt)
    rintro ⟨i, v⟩ ⟨j, w⟩ ha hb hij hji
    obtain rfl : i = j := Nat.le_antisymm hij hji
    have hv := get?_eq_some_iff.mpr ((List.mem_insertionSort _).mp ha)
    have hw := get?_eq_some_iff.mpr ((hmem (i, w)).mpr hb)
    rw [hv, Option.some.injEq] at hw
    rw [hw]
  rw [inOrder, heq]
  apply List.ext_getElem?
  intro i
  rw [List.getElem?_map, List.getElem?_mapIdx, Option.map_map]
  exact Option.map_id_fun ▸ rfl

end Carwatch.Lib.Dict
