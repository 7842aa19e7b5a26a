import Mathlib.Algebra.Order.Round
import Mathlib.Tactic.Linarith
import Mathlib.Tactic.Ring

/-!
# Carwatch.Lib.Quantize — rounding to an integer, and to a range of them

An encoder that has `N + 1` codes rounds its argument and clamps the result.

* `roundEven` — the nearest integer, a tie going to the even one;
* `quantize` — the nearest of `0`, …, `N`;
* `quantize_nearest` — no other code is nearer, for codes beyond the range
  too; `quantize_near` is the same where the argument is known up to an error;
* `quantize_eq` — an argument that is nearly a code gives that code.
-/

namespace Carwatch.Lib

universe u

variable {K : Type u} [Field K] [LinearOrder K] [IsStrictOrderedRing K] [FloorRing K]

/-- The integer nearest to `x`, the even one of two. -/
def roundEven (x : K) : ℤ :=
  if x - ⌊x⌋ < 1 / 2 then ⌊x⌋
  else if 1 / 2 < x - ⌊x⌋ then ⌊x⌋ + 1
  else if ⌊x⌋ % 2 = 0 then ⌊x⌋
  else ⌊x⌋ + 1

/-- The integer of `0`, …, `N` nearest to `x`. -/
def quantize (N : ℕ) (x : K) : ℕ := (max 0 (min (roundEven x) N)).toNat

theorem roundEven_near (x : K) : |(roundEven x : K) - x| ≤ 1 / 2 := by
  have hlow := Int.floor_le x
  have hhigh := Int.lt_floor_add_one x
  have hdown : x - ⌊x⌋ ≤ 1 / 2 → |(⌊x⌋ : K) - x| ≤ 1 / 2 := by
    intro h
    rw [abs_sub_comm, abs_of_nonneg (by linarith)]
    exact h
  have hup : 1 / 2 ≤ x - ⌊x⌋ → |((⌊x⌋ + 1 : ℤ) : K) - x| ≤ 1 / 2 := by
    intro h
    push_cast
    rw [abs_of_nonneg (by linarith)]
    linarith
  unfold roundEven
  by_cases hlt : x - ⌊x⌋ < 1 / 2
  · rw [if_pos hlt]
    exact hdown hlt.le
  · rw [if_neg hlt]
    by_cases hgt : 1 / 2 < x - ⌊x⌋
    · rw [if_pos hgt]
      exact hup hgt.le
    · rw [if_neg hgt]
      split
      · exact hdown (not_lt.mp hgt)
      · exact hup (not_lt.mp hlt)

/-- Two integers within a distance less than one of each other are equal. -/
theorem int_eq_of_near {m n : ℤ} {x : K} (hm : |(m : K) - x| ≤ 1 / 2)
    (hn : |(n : K) - x| < 1 / 2) : m = n := by
  have hlt : |((m - n : ℤ) : K)| < 1 := by
    have hsplit : ((m - n : ℤ) : K) = ((m : K) - x) - ((n : K) - x) := by
      push_cast
      ring
    rw [hsplit]
    have htri := abs_sub ((m : K) - x) ((n : K) - x)
    linarith
  rw [← Int.cast_abs] at hlt
  have hzero : |m - n| < 1 := by exact_mod_cast hlt
  have habs := Int.abs_lt_one_iff.mp hzero
  omega

/-- No integer is nearer. -/
theorem roundEven_nearest (x : K) (m : ℤ) : |(roundEven x : K) - x| ≤ |(m : K) - x| := by
  by_contra hlt
  rw [not_le] at hlt
  have hnear := roundEven_near x
  have heq := int_eq_of_near hnear (hlt.trans_le hnear)
  rw [heq] at hlt
  exact lt_irrefl _ hlt

omit [IsStrictOrderedRing K] in
theorem quantize_le (N : ℕ) (x : K) : quantize N x ≤ N := by
  unfold quantize
  omega

/-- No code is nearer. -/
theorem quantize_nearest {N : ℕ} (x : K) {m : ℕ} (hm : m ≤ N) :
    |(quantize N x : K) - x| ≤ |(m : K) - x| := by
  have hnear := abs_le.mp (roundEven_near x)
  by_cases hneg : roundEven x < 0
  · -- below the range: every code lies above `x`
    have hq : quantize N x = 0 := by
      unfold quantize
      omega
    have hx : x < 0 := by
      have hle : (roundEven x : K) ≤ -1 := by exact_mod_cast (by omega : roundEven x ≤ -1)
      linarith
    have hm0 : (0 : K) ≤ m := Nat.cast_nonneg m
    rw [hq, Nat.cast_zero, abs_of_nonneg (by linarith), abs_of_nonneg (by linarith)]
    linarith
  · by_cases hbig : (N : ℤ) < roundEven x
    · -- above it
      have hq : quantize N x = N := by
        unfold quantize
        omega
      have hx : (N : K) < x := by
        have hle : ((N : ℤ) : K) + 1 ≤ roundEven x := by exact_mod_cast hbig
        rw [Int.cast_natCast] at hle
        linarith
      have hmN : (m : K) ≤ N := Nat.cast_le.mpr hm
      rw [hq, abs_sub_comm, abs_sub_comm (m : K), abs_of_nonneg (by linarith),
        abs_of_nonneg (by linarith)]
      linarith
    · have hq : ((quantize N x : ℕ) : ℤ) = roundEven x := by
        unfold quantize
        omega
      have hcast : (quantize N x : K) = roundEven x := by rw [← hq, Int.cast_natCast]
      have hint := roundEven_nearest x m
      rwa [Int.cast_natCast, ← hcast] at hint

/-- The nearest code, from an argument that is off by `e`. -/
theorem quantize_near {N : ℕ} {x y e : K} (h : |x - y| ≤ e) {m : ℕ} (hm : m ≤ N) :
    |(quantize N x : K) - y| ≤ |(m : K) - y| + 2 * e := by
  have hq := quantize_nearest x hm
  have hleft := abs_sub_le (quantize N x : K) x y
  have hright := abs_sub_le (m : K) y x
  rw [abs_sub_comm y x] at hright
  linarith

/-- An argument that is nearly a code gives that code. -/
theorem quantize_eq {N : ℕ} {x : K} {n : ℕ} (hn : n ≤ N) (h : |x - n| < 1 / 2) :
    quantize N x = n := by
  have heq : roundEven x = n := by
    refine int_eq_of_near (roundEven_near x) ?_
    rw [Int.cast_natCast, abs_sub_comm]
    exact h
  unfold quantize
  omega

end Carwatch.Lib
