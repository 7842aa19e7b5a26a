import Carwatch.Lib.Machine

/-!
# Carwatch.Lib.Fifo — the bounded queue

What a single-producer single-consumer ring is for: at most `cap` items
wait, items leave in the order in which they came, and nothing else happens
to them.

A `Fifo` keeps every item it ever accepted and the number of those already
released, so that "the `k`-th item accepted" has a meaning after the item
has left. The two bounds are fields: a queue that holds too much, or that
released more than it took, cannot be built.
-/

namespace Carwatch.Lib

universe u

/-- A queue of at most `cap` waiting items, with its past. -/
structure Fifo (α : Type u) (cap : ℕ) where
  /-- Every item accepted so far, oldest first. -/
  items : List α
  /-- How many of them have been released. -/
  taken : ℕ
  taken_le : taken ≤ items.length
  bounded : items.length ≤ taken + cap

namespace Fifo

variable {α : Type u} {cap : ℕ}

@[ext] theorem ext {q q' : Fifo α cap} (hitems : q.items = q'.items) (htaken : q.taken = q'.taken) :
    q = q' := by
  rcases q with ⟨items, taken, h, h'⟩
  rcases q' with ⟨items', taken', k, k'⟩
  simp only at hitems htaken
  subst hitems htaken
  rfl

/-- The queue that never held anything. -/
def empty : Fifo α cap := ⟨[], 0, Nat.le_refl 0, by simp⟩

/-- Accept `x`, unless `cap` items wait. -/
def push (q : Fifo α cap) (x : α) : Fifo α cap :=
  if h : q.items.length < q.taken + cap then
    { q with
      items := q.items ++ [x]
      taken_le := by have := q.taken_le; rw [List.length_append]; omega
      bounded := by rw [List.length_append, List.length_singleton]; omega }
  else q

/-- The `i`-th waiting item. -/
def peek (q : Fifo α cap) (i : ℕ) : Option α := q.items[q.taken + i]?

/-- Let the `n` oldest waiting items go, unless fewer wait. -/
def release (q : Fifo α cap) (n : ℕ) : Fifo α cap :=
  if h : q.taken + n ≤ q.items.length then
    { q with
      taken := q.taken + n
      taken_le := h
      bounded := by have := q.bounded; omega }
  else q

/-- What can happen to a queue. -/
inductive Act (α : Type u) where
  | push (x : α)
  | release (n : ℕ)

/-- The queue as a machine. -/
def step (q : Fifo α cap) : Act α → Fifo α cap
  | .push x => q.push x
  | .release n => q.release n

theorem push_of_lt {q : Fifo α cap} (x : α) (h : q.items.length < q.taken + cap) :
    (q.push x).items = q.items ++ [x] ∧ (q.push x).taken = q.taken := by
  unfold push
  rw [dif_pos h]
  exact ⟨rfl, rfl⟩

theorem release_of_le {q : Fifo α cap} {n : ℕ} (h : q.taken + n ≤ q.items.length) :
    (q.release n).items = q.items ∧ (q.release n).taken = q.taken + n := by
  unfold release
  rw [dif_pos h]
  exact ⟨rfl, rfl⟩

@[simp] theorem release_items (q : Fifo α cap) (n : ℕ) : (q.release n).items = q.items := by
  unfold release
  split_ifs
  · rfl
  · rfl

@[simp] theorem push_taken (q : Fifo α cap) (x : α) : (q.push x).taken = q.taken := by
  unfold push
  split_ifs
  · rfl
  · rfl

/-- The items after a `push`: one more behind the others, unless it was
refused. -/
theorem push_items (q : Fifo α cap) (x : α) :
    (q.push x).items = q.items ∨ (q.push x).items = q.items ++ [x] := by
  unfold push
  split_ifs
  · exact Or.inr rfl
  · exact Or.inl rfl

end Fifo

end Carwatch.Lib
