import Mathlib.Logic.Function.Iterate
import Mathlib.Data.List.Basic

/-!
# Carwatch.Lib.Crc — cyclic redundancy checks, a bit at a time

The reflected CRC of width `w` for an arbitrary polynomial: a remainder is
moved down one place, and the polynomial is added when a one falls out.

* `bitSteps_xor` — moving is linear, so a table of the remainders of single
  bytes is enough (`bitSteps_eight`);
* `bitStep_injective` — when the polynomial has its top bit, no two
  remainders meet again; hence `foldl_byteStep_ne`: a changed byte changes
  the remainder of everything behind it.
-/

namespace Carwatch.Lib

variable {w : ℕ}

/-- One bit falls out of the remainder. -/
def bitStep (poly c : BitVec w) : BitVec w :=
  if c.getLsbD 0 then poly ^^^ (c >>> 1) else c >>> 1

/-- `n` bits fall out of the remainder. -/
def bitSteps (poly : BitVec w) (n : ℕ) : BitVec w → BitVec w := (bitStep poly)^[n]

/-- One byte goes into the remainder. -/
def byteStep (poly c : BitVec w) (p : BitVec 8) : BitVec w :=
  bitSteps poly 8 (c ^^^ p.setWidth w)

/-! ## Linearity -/

theorem bitStep_xor (poly a b : BitVec w) :
    bitStep poly (a ^^^ b) = bitStep poly a ^^^ bitStep poly b := by
  apply BitVec.eq_of_getLsbD_eq
  intro i hi
  -- bit by bit: the polynomial is added once, twice or not at all
  unfold bitStep
  cases ha : a.getLsbD 0 <;> cases hb : b.getLsbD 0 <;>
    simp [BitVec.getLsbD_xor, ha, hb, Bool.xor_left_comm]

theorem bitSteps_xor (poly : BitVec w) (n : ℕ) (a b : BitVec w) :
    bitSteps poly n (a ^^^ b) = bitSteps poly n a ^^^ bitSteps poly n b := by
  induction n generalizing a b with
  | zero => rfl
  | succ n ih =>
      show bitSteps poly n (bitStep poly (a ^^^ b)) = _
      rw [bitStep_xor, ih]
      rfl

/-- A remainder that ends in `n` zeros only moves down. -/
theorem bitSteps_of_low_zero (poly : BitVec w) (n : ℕ) {c : BitVec w}
    (h : ∀ i < n, c.getLsbD i = false) : bitSteps poly n c = c >>> n := by
  induction n generalizing c with
  | zero => exact (BitVec.ushiftRight_zero c).symm
  | succ n ih =>
      have hzero : c.getLsbD 0 = false := h 0 (by omega)
      have hstep : bitStep poly c = c >>> 1 := by
        unfold bitStep
        rw [hzero]
        rfl
      show bitSteps poly n (bitStep poly c) = _
      rw [hstep, ih, ← BitVec.shiftRight_add, Nat.add_comm]
      intro i hi
      rw [BitVec.getLsbD_ushiftRight]
      exact h (1 + i) (by omega)

/-- Eight steps: those of the low byte, and the rest moved down. -/
theorem bitSteps_eight (poly x : BitVec w) :
    bitSteps poly 8 x = bitSteps poly 8 (x &&& 255) ^^^ (x >>> 8) := by
  have hlow : ∀ i, (255 : BitVec w).getLsbD i = (decide (i < w) && decide (i < 8)) := by
    intro i
    show (BitVec.ofNat w (2 ^ 8 - 1)).getLsbD i = _
    rw [BitVec.getLsbD_ofNat, Nat.testBit_two_pow_sub_one]
  have hsplit : x = (x &&& 255) ^^^ (x &&& ~~~255) := by
    apply BitVec.eq_of_getLsbD_eq
    intro i hi
    simp only [BitVec.getLsbD_xor, BitVec.getLsbD_and, BitVec.getLsbD_not]
    cases x.getLsbD i <;> cases (255 : BitVec w).getLsbD i <;> simp [hi]
  have hhigh : ∀ i < 8, (x &&& ~~~255).getLsbD i = false := by
    intro i hi
    simp only [BitVec.getLsbD_and, BitVec.getLsbD_not, hlow]
    by_cases hw : i < w <;> simp [hi, hw]
  have hshift : (x &&& ~~~255) >>> 8 = x >>> 8 := by
    apply BitVec.eq_of_getLsbD_eq
    intro i hi
    simp only [BitVec.getLsbD_ushiftRight, BitVec.getLsbD_and, BitVec.getLsbD_not, hlow]
    by_cases hw : 8 + i < w
    · simp [hw]
    · simp [BitVec.getLsbD_of_ge x (8 + i) (by omega)]
  calc bitSteps poly 8 x
      = bitSteps poly 8 ((x &&& 255) ^^^ (x &&& ~~~255)) := by rw [← hsplit]
    _ = bitSteps poly 8 (x &&& 255) ^^^ bitSteps poly 8 (x &&& ~~~255) := bitSteps_xor _ _ _ _
    _ = bitSteps poly 8 (x &&& 255) ^^^ (x >>> 8) := by
        rw [bitSteps_of_low_zero poly 8 hhigh, hshift]

/-! ## Injectivity -/

/-- The top bit tells whether a one fell out. -/
theorem msb_bitStep {poly : BitVec w} (hpoly : poly.msb = true) (c : BitVec w) :
    (bitStep poly c).msb = c.getLsbD 0 := by
  have hpos : 0 < w := by
    rcases Nat.eq_zero_or_pos w with rfl | hpos
    · simp [BitVec.msb, BitVec.getMsbD] at hpoly
    · exact hpos
  have htop : (c >>> 1).msb = false := by
    rw [BitVec.msb_eq_getLsbD_last, BitVec.getLsbD_ushiftRight]
    exact BitVec.getLsbD_of_ge c _ (by omega)
  unfold bitStep
  cases hc : c.getLsbD 0 with
  | false =>
      rw [if_neg Bool.false_ne_true]
      exact htop
  | true => simp [BitVec.msb_xor, hpoly, htop]

theorem bitStep_injective {poly : BitVec w} (hpoly : poly.msb = true) :
    Function.Injective (bitStep poly) := by
  intro a b h
  have hbit : a.getLsbD 0 = b.getLsbD 0 := by
    rw [← msb_bitStep hpoly a, ← msb_bitStep hpoly b, h]
  have hrest : a >>> 1 = b >>> 1 := by
    unfold bitStep at h
    rw [hbit] at h
    split at h
    · have hxor := congrArg (poly ^^^ ·) h
      simpa [← BitVec.xor_assoc] using hxor
    · exact h
  apply BitVec.eq_of_getLsbD_eq
  intro i hi
  cases i with
  | zero => exact hbit
  | succ i =>
      have hi' := congrArg (fun c => BitVec.getLsbD c i) hrest
      simpa [BitVec.getLsbD_ushiftRight, Nat.add_comm] using hi'

/-- Different remainders stay different whatever byte goes in. -/
theorem byteStep_ne_of_ne {poly : BitVec w} (hpoly : poly.msb = true) {c c' : BitVec w}
    (h : c ≠ c') (p : BitVec 8) : byteStep poly c p ≠ byteStep poly c' p := by
  intro heq
  have hxor := (bitStep_injective hpoly).iterate 8 heq
  apply h
  have hcancel := congrArg (· ^^^ p.setWidth w) hxor
  simpa [BitVec.xor_assoc] using hcancel

/-- Different bytes leave different remainders. -/
theorem byteStep_ne_of_byte_ne {poly : BitVec w} (hpoly : poly.msb = true) (hw : 8 ≤ w)
    (c : BitVec w) {p p' : BitVec 8} (h : p ≠ p') : byteStep poly c p ≠ byteStep poly c p' := by
  intro heq
  have hxor := (bitStep_injective hpoly).iterate 8 heq
  apply h
  have hcancel : p.setWidth w = p'.setWidth w := by
    have hc := congrArg (c ^^^ ·) hxor
    simpa [← BitVec.xor_assoc] using hc
  apply BitVec.eq_of_getLsbD_eq
  intro i hi
  have hi' := congrArg (fun x => BitVec.getLsbD x i) hcancel
  simpa [show i < w by omega] using hi'

theorem foldl_byteStep_injective {poly : BitVec w} (hpoly : poly.msb = true) {c c' : BitVec w}
    (h : c ≠ c') (ps : List (BitVec 8)) :
    ps.foldl (byteStep poly) c ≠ ps.foldl (byteStep poly) c' := by
  induction ps generalizing c c' with
  | nil => exact h
  | cons p ps ih => exact ih (byteStep_ne_of_ne hpoly h p)

/-- One changed byte changes the remainder of the whole. -/
theorem foldl_byteStep_ne {poly : BitVec w} (hpoly : poly.msb = true) (hw : 8 ≤ w)
    (c : BitVec w) (as bs : List (BitVec 8)) {p p' : BitVec 8} (h : p ≠ p') :
    (as ++ p :: bs).foldl (byteStep poly) c ≠ (as ++ p' :: bs).foldl (byteStep poly) c := by
  rw [List.foldl_append, List.foldl_append, List.foldl_cons, List.foldl_cons]
  exact foldl_byteStep_injective hpoly (byteStep_ne_of_byte_ne hpoly hw _ h) bs

end Carwatch.Lib
