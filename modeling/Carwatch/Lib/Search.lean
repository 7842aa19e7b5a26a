import Mathlib.Data.List.Basic

/-!
# Carwatch.Lib.Search — the first occurrence of a word in a growing buffer

`memmem` finds the first place where a word stands in a list. A reader that
searches a buffer again each time more has arrived needs two facts about it:
an occurrence found stays the first one (`memmem_append`), and one that lies
wholly in the part already there would have been found
(`memmem_of_append`). `FirstEnd` says what is found without a search
(`memmem_eq_some_iff_firstEnd`). For a single element `List.idxOf?` is the search, and
`idxOf?_eq_some_iff_split` says what it finds.
-/

namespace Carwatch.Lib

universe u

variable {α : Type u} [BEq α] [LawfulBEq α]

/-- The offset of the first occurrence of `word` in a list. -/
def memmem (word : List α) : List α → Option ℕ
  | [] => if word.isPrefixOf [] then some 0 else none
  | x :: xs => if word.isPrefixOf (x :: xs) then some 0 else (memmem word xs).map (· + 1)

/-- At an occurrence the list starts with the word. -/
theorem memmem_isPrefix {word xs : List α} {i : ℕ} (h : memmem word xs = some i) :
    word <+: xs.drop i := by
  induction xs generalizing i with
  | nil =>
      unfold memmem at h
      split_ifs at h with hp
      rw [← Option.some.inj h]
      exact List.isPrefixOf_iff_prefix.mp hp
  | cons x xs ih =>
      unfold memmem at h
      split_ifs at h with hp
      · rw [← Option.some.inj h]
        exact List.isPrefixOf_iff_prefix.mp hp
      · rcases Option.map_eq_some_iff.mp h with ⟨j, hj, rfl⟩
        exact ih hj

/-- An occurrence ends inside the list. -/
theorem memmem_add_length_le {word xs : List α} {i : ℕ} (h : memmem word xs = some i) :
    i + word.length ≤ xs.length ∨ word = [] := by
  have hlen := (memmem_isPrefix h).length_le
  rw [List.length_drop] at hlen
  cases word with
  | nil => exact .inr rfl
  | cons w word =>
      rw [List.length_cons] at hlen ⊢
      exact .inl (by omega)

/-- The first occurrence stays the first when the list grows. -/
theorem memmem_append {word xs : List α} {i : ℕ} (h : memmem word xs = some i) (ys : List α) :
    memmem word (xs ++ ys) = some i := by
  induction xs generalizing i with
  | nil =>
      unfold memmem at h
      split_ifs at h with hp
      have hword : word = [] := List.prefix_nil.mp (List.isPrefixOf_iff_prefix.mp hp)
      subst hword
      rw [← Option.some.inj h]
      cases ys <;> rfl
  | cons x xs ih =>
      rw [List.cons_append]
      unfold memmem at h ⊢
      split_ifs at h with hp
      · have hp' : word.isPrefixOf (x :: (xs ++ ys)) = true := by
          apply List.isPrefixOf_iff_prefix.mpr
          exact (List.isPrefixOf_iff_prefix.mp hp).trans (List.prefix_append (x :: xs) ys)
        rw [if_pos hp']
        exact h
      · rcases Option.map_eq_some_iff.mp h with ⟨j, hj, rfl⟩
        -- the word does not start here in the longer list either, for then it would have
        -- to reach beyond an occurrence that lies behind it
        have hp' : ¬ word.isPrefixOf (x :: (xs ++ ys)) = true := by
          intro hpre
          apply hp
          have hlong := List.isPrefixOf_iff_prefix.mp hpre
          have hword : word.length ≤ (x :: xs).length := by
            rcases memmem_add_length_le hj with hle | hnil
            · rw [List.length_cons]
              omega
            · rw [hnil]
              exact Nat.zero_le _
          apply List.isPrefixOf_iff_prefix.mpr
          exact List.prefix_of_prefix_length_le hlong (List.prefix_append (x :: xs) ys) hword
        rw [if_neg hp', ih hj]
        rfl

/-- An occurrence in a longer list that ends inside `xs` is one in `xs`. -/
theorem memmem_of_append {word xs ys : List α} {i : ℕ} (h : memmem word (xs ++ ys) = some i)
    (hi : i + word.length ≤ xs.length) : memmem word xs = some i := by
  cases hx : memmem word xs with
  | some j =>
      rw [← h, memmem_append hx ys]
  | none =>
      exfalso
      induction xs generalizing i with
      | nil =>
          have hword : word = [] := List.length_eq_zero_iff.mp (by rw [List.length_nil] at hi; omega)
          subst hword
          simp [memmem] at hx
      | cons x xs ih =>
          rw [List.cons_append] at h
          unfold memmem at h hx
          split_ifs at hx with hp
          split_ifs at h with hp'
          · -- it starts here, and `x :: xs` is long enough to hold it
            rw [← Option.some.inj h, Nat.zero_add] at hi
            apply hp
            apply List.isPrefixOf_iff_prefix.mpr
            have hlong := List.isPrefixOf_iff_prefix.mp hp'
            exact List.prefix_of_prefix_length_le hlong (List.prefix_append (x :: xs) ys) hi
          · rcases Option.map_eq_some_iff.mp h with ⟨j, hj, rfl⟩
            rw [List.length_cons] at hi
            exact ih hj (by omega) (Option.map_eq_none_iff.mp hx)

/-- An occurrence is found, if no earlier one is. -/
theorem exists_memmem_le {word xs : List α} {j : ℕ} (h : word <+: xs.drop j) :
    ∃ i, memmem word xs = some i ∧ i ≤ j := by
  induction xs generalizing j with
  | nil =>
      rw [List.drop_nil] at h
      refine ⟨0, ?_, Nat.zero_le j⟩
      rw [memmem, if_pos (List.isPrefixOf_iff_prefix.mpr h)]
  | cons x xs ih =>
      unfold memmem
      split_ifs with hp
      · exact ⟨0, rfl, Nat.zero_le j⟩
      · cases j with
        | zero => exact absurd (List.isPrefixOf_iff_prefix.mpr h) hp
        | succ j =>
            rcases ih h with ⟨i, hi, hij⟩
            exact ⟨i + 1, by rw [hi]; rfl, Nat.succ_le_succ hij⟩

omit [BEq α] [LawfulBEq α] in
/-- `word` ends for the first time with the first `n` elements of a list. -/
structure FirstEnd (word xs : List α) (n : ℕ) : Prop where
  le : n ≤ xs.length
  ends : word <:+ xs.take n
  first : ∀ m < n, ¬ word <:+ xs.take m

omit [BEq α] [LawfulBEq α] in
/-- A word that ends at `n` starts its own length before. -/
theorem suffix_take_iff {word xs : List α} {n : ℕ} (hn : n ≤ xs.length) :
    word <:+ xs.take n ↔ ∃ j, j + word.length = n ∧ word <+: xs.drop j := by
  constructor
  · rintro ⟨ys, hys⟩
    have hlen := congrArg List.length hys
    rw [List.length_append, List.length_take, Nat.min_eq_left hn] at hlen
    refine ⟨ys.length, hlen, xs.drop n, ?_⟩
    have hxs : xs = ys ++ (word ++ xs.drop n) := by
      rw [← List.append_assoc, hys, List.take_append_drop]
    exact (congrArg (List.drop ys.length) hxs).trans (List.drop_left' rfl) |>.symm
  · rintro ⟨j, rfl, hpre⟩
    rw [List.take_add]
    refine ⟨xs.take j, ?_⟩
    rw [← List.prefix_iff_eq_take.mp hpre]

/-- What `memmem` finds, told by where it ends. -/
theorem memmem_eq_some_iff_firstEnd {word xs : List α} {i : ℕ} (hword : word ≠ []) :
    memmem word xs = some i ↔ FirstEnd word xs (i + word.length) := by
  constructor
  · intro h
    have hle : i + word.length ≤ xs.length := (memmem_add_length_le h).resolve_right hword
    refine ⟨hle, (suffix_take_iff hle).mpr ⟨i, rfl, memmem_isPrefix h⟩, ?_⟩
    intro m hm hends
    rcases (suffix_take_iff (by omega)).mp hends with ⟨j, rfl, hpre⟩
    rcases exists_memmem_le hpre with ⟨i', hi', hle'⟩
    rw [h] at hi'
    have := Option.some.inj hi'
    omega
  · intro h
    rcases (suffix_take_iff h.le).mp h.ends with ⟨j, hj, hpre⟩
    have hji : j = i := Nat.add_right_cancel hj
    subst hji
    rcases exists_memmem_le hpre with ⟨i, hi, hle⟩
    -- an earlier occurrence would end earlier
    have hfits : i + word.length ≤ xs.length := (memmem_add_length_le hi).resolve_right hword
    have hends := (suffix_take_iff hfits).mpr ⟨i, rfl, memmem_isPrefix hi⟩
    have hnot : ¬ i < j := by
      intro hlt
      exact h.first (i + word.length) (by omega) hends
    have hij : i = j := by omega
    rw [hi, hij]

/-- A part without the first element of the word is passed over. -/
theorem memmem_append_of_not_mem {w : α} {ws xs : List α} (h : w ∉ xs) (ys : List α) :
    memmem (w :: ws) (xs ++ ys) = (memmem (w :: ws) ys).map (· + xs.length) := by
  induction xs with
  | nil =>
      rw [List.nil_append]
      cases memmem (w :: ws) ys with
      | none => rfl
      | some i => rfl
  | cons x xs ih =>
      have hx : ¬ (w :: ws).isPrefixOf (x :: (xs ++ ys)) = true := by
        intro hpre
        have hfirst := (List.cons_prefix_cons.mp (List.isPrefixOf_iff_prefix.mp hpre)).1
        exact h (by rw [hfirst]; exact List.mem_cons_self)
      rw [List.cons_append, memmem, if_neg hx, ih fun hin => h (List.mem_cons_of_mem x hin),
        Option.map_map]
      congr 1

/-- A single element, found where the list splits at it for the first time. -/
theorem idxOf?_eq_some_iff_split {xs : List α} {a : α} {i : ℕ} :
    xs.idxOf? a = some i ↔ ∃ ys zs, xs = ys ++ a :: zs ∧ a ∉ ys ∧ ys.length = i := by
  induction xs generalizing i with
  | nil =>
      constructor
      · intro h
        cases h
      · rintro ⟨ys, zs, h, -, -⟩
        cases ys with
        | nil => cases h
        | cons y ys => cases h
  | cons x xs ih =>
      rw [List.idxOf?_cons]
      by_cases hx : (x == a) = true
      · rw [if_pos hx]
        have hxa : x = a := eq_of_beq hx
        subst hxa
        constructor
        · intro h
          exact ⟨[], xs, rfl, List.not_mem_nil, Option.some.inj h⟩
        · rintro ⟨ys, zs, h, hnot, rfl⟩
          cases ys with
          | nil => rfl
          | cons y ys =>
              rw [List.cons_append, List.cons.injEq] at h
              rw [h.1] at hnot
              exact absurd List.mem_cons_self hnot
      · rw [if_neg hx, Option.map_eq_some_iff]
        constructor
        · rintro ⟨j, hj, rfl⟩
          rcases ih.mp hj with ⟨ys, zs, rfl, hnot, rfl⟩
          refine ⟨x :: ys, zs, rfl, ?_, rfl⟩
          intro hin
          rcases List.mem_cons.mp hin with rfl | hin
          · exact hx BEq.rfl
          · exact hnot hin
        -- the first element is not `a`, so it is in front of it
        · rintro ⟨ys, zs, h, hnot, rfl⟩
          cases ys with
          | nil =>
              rw [List.nil_append, List.cons.injEq] at h
              exact absurd (by rw [h.1]; exact BEq.rfl) hx
          | cons y ys =>
              rw [List.cons_append, List.cons.injEq] at h
              exact ⟨ys.length, ih.mpr ⟨ys, zs, h.2, fun hin => hnot (List.mem_cons_of_mem y hin), rfl⟩,
                rfl⟩

omit [BEq α] [LawfulBEq α] in
/-- The split at the first occurrence, as the parts a reader takes. -/
theorem take_drop_of_split {ys zs : List α} {a : α} :
    (ys ++ a :: zs).take ys.length = ys ∧ (ys ++ a :: zs).drop (ys.length + 1) = zs := by
  constructor
  · exact List.take_left' rfl
  · rw [← List.drop_drop, List.drop_left' rfl]
    rfl

end Carwatch.Lib
