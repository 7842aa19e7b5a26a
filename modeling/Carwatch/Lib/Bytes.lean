import Mathlib.Data.List.Basic
import Mathlib.Tactic.Ring

/-!
# Carwatch.Lib.Bytes — fixed-width little-endian integers in byte lists

The part of C's memory layout that a packed struct needs:

* `leBytes w n` — the `w` low bytes of `n`, least significant first;
* `leNat` — the number such bytes stand for;
* `field off w buf` — the `w`-byte integer at offset `off` of a buffer, what
  a `memcpy` into a `w`-byte field reads;
* `leNat_leBytes` / `leBytes_leNat` / `leBytes_field` — the round trips.
-/

namespace Carwatch.Lib

/-- A byte string. -/
abbrev Bytes := List UInt8

/-- The `w` low bytes of `n`, least significant byte first. -/
def leBytes : ℕ → ℕ → Bytes
  | 0, _ => []
  | w + 1, n => UInt8.ofNat n :: leBytes w (n / 256)

/-- The number that little-endian bytes stand for. -/
def leNat : Bytes → ℕ
  | [] => 0
  | b :: bs => b.toNat + 256 * leNat bs

/-- The `w`-byte little-endian integer at offset `off`. -/
def field (off w : ℕ) (buf : Bytes) : ℕ := leNat ((buf.drop off).take w)

/-- A property of every byte of a fixed string, by running over the string
and not over all bytes there are. -/
theorem forall_mem_of_all {p : UInt8 → Prop} [DecidablePred p] {s : Bytes}
    (h : (s.all fun c => decide (p c)) = true) : ∀ c ∈ s, p c :=
  fun c hc => of_decide_eq_true (List.all_eq_true.mp h c hc)

@[simp] theorem length_leBytes (w n : ℕ) : (leBytes w n).length = w := by
  induction w generalizing n with
  | zero => rfl
  | succ w ih => simp [leBytes, ih]

theorem leNat_lt (bs : Bytes) : leNat bs < 256 ^ bs.length := by
  induction bs with
  | nil => simp [leNat]
  | cons b bs ih =>
      have hb : b.toNat < 256 := b.toNat_lt
      rw [leNat, List.length_cons, pow_succ]
      omega

/-- Reading back what was written keeps the low `w` bytes. -/
theorem leNat_leBytes (w n : ℕ) : leNat (leBytes w n) = n % 256 ^ w := by
  induction w generalizing n with
  | zero => simp [leBytes, leNat, Nat.mod_one]
  | succ w ih =>
      have hlow : (UInt8.ofNat n).toNat = n % 256 := by simp
      rw [leBytes, leNat, ih, hlow, pow_succ', Nat.mod_mul]

theorem leNat_leBytes_of_lt {w n : ℕ} (h : n < 256 ^ w) : leNat (leBytes w n) = n := by
  rw [leNat_leBytes, Nat.mod_eq_of_lt h]

/-- Writing back what was read restores the bytes. -/
theorem leBytes_leNat (bs : Bytes) : leBytes bs.length (leNat bs) = bs := by
  induction bs with
  | nil => rfl
  | cons b bs ih =>
      have hb : b.toNat < 256 := b.toNat_lt
      have hdiv : (b.toNat + 256 * leNat bs) / 256 = leNat bs := by omega
      have hlow : UInt8.ofNat (b.toNat + 256 * leNat bs) = b := by
        apply UInt8.toNat_inj.mp
        simp
      rw [List.length_cons, leNat, leBytes, hdiv, ih, hlow]

/-- A field at the front of what `leBytes` wrote. -/
theorem field_leBytes (w n : ℕ) (t : Bytes) : field 0 w (leBytes w n ++ t) = n % 256 ^ w := by
  have htake : (leBytes w n ++ t).take w = leBytes w n :=
    List.take_left' (length_leBytes w n)
  rw [field, List.drop_zero, htake, leNat_leBytes]

/-- A field behind another integer is a field of what follows it. -/
theorem field_leBytes_skip {off w' : ℕ} (w n : ℕ) (t : Bytes) (h : w' ≤ off) :
    field off w (leBytes w' n ++ t) = field (off - w') w t := by
  have hoff : off = (leBytes w' n).length + (off - w') := by
    rw [length_leBytes]
    omega
  rw [field, field, hoff, List.drop_length_add_append]
  simp

theorem field_lt {off w : ℕ} {buf : Bytes} : field off w buf < 256 ^ w := by
  have hlen : ((buf.drop off).take w).length ≤ w := by simp
  exact lt_of_lt_of_le (leNat_lt _) (Nat.pow_le_pow_right (by norm_num) hlen)

theorem leBytes_field {off w : ℕ} {buf : Bytes} (h : off + w ≤ buf.length) :
    leBytes w (field off w buf) = (buf.drop off).take w := by
  have hlen : ((buf.drop off).take w).length = w := by
    rw [List.length_take, List.length_drop]
    omega
  have hback := leBytes_leNat ((buf.drop off).take w)
  rwa [hlen] at hback

/-- A field does not look past its own bytes. -/
theorem field_append_left {off w : ℕ} {a : Bytes} (b : Bytes) (h : off + w ≤ a.length) :
    field off w (a ++ b) = field off w a := by
  have hdrop : (a ++ b).drop off = a.drop off ++ b :=
    List.drop_append_of_le_length (by omega)
  have htake : (a.drop off ++ b).take w = (a.drop off).take w :=
    List.take_append_of_le_length (by rw [List.length_drop]; omega)
  rw [field, field, hdrop, htake]

/-- Two adjacent slices of a buffer make one. -/
theorem slice_append (off m n : ℕ) (buf : Bytes) :
    (buf.drop off).take m ++ (buf.drop (off + m)).take n = (buf.drop off).take (m + n) := by
  rw [List.take_add, List.drop_drop]

end Carwatch.Lib
