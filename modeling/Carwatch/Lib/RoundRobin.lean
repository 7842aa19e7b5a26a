import Mathlib.Data.List.Basic
import Mathlib.Data.Nat.ModEq

/-!
# Carwatch.Lib.RoundRobin — taking turns around a list

A cursor goes around a list of items and never back; a turn goes to the first
item from the cursor on that is not skipped, and the cursor stops behind it.

* `scan` — one turn, in so many rounds;
* `ahead` — how far the cursor is from an item;
* `scan_eq_none_iff` — a turn goes to nobody exactly when all are skipped;
* `scan_ahead` — a turn that passes an item by, although that is not skipped,
  brings the cursor nearer to it. An item of `n` is therefore passed by at most
  `n - 1` times in a row, whatever is skipped in between.
-/

namespace Carwatch.Lib

universe u

variable {α : Type u}

/-- The first item that is not skipped among so many from the cursor on, and
the cursor behind what was looked at. -/
def scan (group : List α) (skip : α → Bool) : ℕ → ℕ → Option α × ℕ
  | 0, cursor => (none, cursor)
  | rounds + 1, cursor =>
      match group[cursor % group.length]? with
      | none => (none, cursor)
      | some x => if skip x then scan group skip rounds (cursor + 1) else (some x, cursor + 1)

theorem scan_eq_some {group : List α} {skip : α → Bool} {rounds cursor : ℕ} {x : α}
    (h : (scan group skip rounds cursor).1 = some x) : x ∈ group ∧ skip x = false := by
  induction rounds generalizing cursor with
  | zero => cases h
  | succ rounds ih =>
      rw [scan] at h
      cases hx : group[cursor % group.length]? with
      | none =>
          rw [hx] at h
          cases h
      | some y =>
          rw [hx] at h
          dsimp only at h
          split_ifs at h with hskip
          · exact ih h
          · rw [← Option.some.inj h]
            exact ⟨List.mem_of_getElem? hx, Bool.not_eq_true _ ▸ hskip⟩

/-- How many items the cursor has to pass to come to the `i`-th of `n`. -/
def ahead (n i cursor : ℕ) : ℕ := (i + (n - cursor % n)) % n

theorem ahead_lt {n : ℕ} (hn : 0 < n) (i cursor : ℕ) : ahead n i cursor < n := Nat.mod_lt _ hn

/-- The cursor is at the item, or one step brings it one item nearer. -/
theorem ahead_step {n i : ℕ} (hi : i < n) (cursor : ℕ) :
    cursor % n = i ∨ ahead n i (cursor + 1) + 1 = ahead n i cursor := by
  have hn : 0 < n := Nat.zero_lt_of_lt hi
  have hc : cursor % n < n := Nat.mod_lt _ hn
  unfold ahead
  -- what the remainder of a sum of two numbers up to `n` can be
  have hmod : ∀ m, m < 2 * n → m % n = if m < n then m else m - n := by
    intro m hm
    split_ifs with hlt
    · exact Nat.mod_eq_of_lt hlt
    · rw [Nat.mod_eq_sub_mod (Nat.not_lt.mp hlt), Nat.mod_eq_of_lt (by omega)]
  have hnext : (cursor + 1) % n = if cursor % n + 1 < n then cursor % n + 1 else 0 := by
    rw [← Nat.mod_add_mod, hmod _ (by omega)]
    split_ifs <;> omega
  rw [hnext]
  generalize cursor % n = c at hc
  by_cases hat : c = i
  · exact .inl hat
  · right
    split_ifs with hwrap
    · rw [hmod (i + (n - (c + 1))) (by omega), hmod (i + (n - c)) (by omega)]
      split_ifs <;> omega
    · rw [hmod (i + (n - c)) (by omega), Nat.sub_zero, Nat.add_mod_right, Nat.mod_eq_of_lt hi]
      split_ifs <;> omega

/-- A turn goes to the item, or brings the cursor nearer to it, unless the item
is skipped or out of reach. -/
theorem scan_ahead {group : List α} {skip : α → Bool} {i : ℕ} {x : α} (hx : group[i]? = some x)
    (hskip : skip x = false) {rounds cursor : ℕ} (h : ahead group.length i cursor < rounds) :
    ∃ y cursor', scan group skip rounds cursor = (some y, cursor') ∧
      (y = x ∨ ahead group.length i cursor' < ahead group.length i cursor) := by
  have hi : i < group.length := (List.getElem?_eq_some_iff.mp hx).1
  induction rounds generalizing cursor with
  | zero => omega
  | succ rounds ih =>
      have hlt : cursor % group.length < group.length := Nat.mod_lt _ (Nat.zero_lt_of_lt hi)
      rcases ahead_step hi cursor with hat | hnear
      · rw [scan, hat, hx]
        dsimp only
        rw [if_neg (by rw [hskip]; exact Bool.false_ne_true)]
        exact ⟨x, cursor + 1, rfl, .inl rfl⟩
      · rw [scan, List.getElem?_eq_getElem hlt]
        dsimp only
        split_ifs with hpass
        · rcases @ih (cursor + 1) (by omega) with ⟨y, cursor', hscan, hy⟩
          exact ⟨y, cursor', hscan, hy.imp_right fun hlt => by omega⟩
        · exact ⟨_, cursor + 1, rfl, .inr (by omega)⟩

/-- A turn that looks at every item goes to nobody exactly when all are
skipped. -/
theorem scan_eq_none_iff (group : List α) (skip : α → Bool) (cursor : ℕ) :
    (scan group skip group.length cursor).1 = none ↔ ∀ x ∈ group, skip x = true := by
  constructor
  · intro hnone x hx
    by_contra hfree
    rcases List.mem_iff_getElem?.mp hx with ⟨i, hi⟩
    have hpos : 0 < group.length := List.length_pos_of_mem hx
    rcases scan_ahead hi (Bool.not_eq_true _ ▸ hfree) (ahead_lt hpos i cursor) with ⟨y, c, hscan, -⟩
    rw [hscan] at hnone
    cases hnone
  · intro hall
    cases hscan : (scan group skip group.length cursor).1 with
    | none => rfl
    | some x =>
        obtain ⟨hmem, hfree⟩ := scan_eq_some hscan
        rw [hall x hmem] at hfree
        cases hfree

end Carwatch.Lib
