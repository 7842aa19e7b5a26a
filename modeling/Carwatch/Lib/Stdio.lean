import Carwatch.Lib.Bytes
import Mathlib.Data.List.Induction
import Mathlib.Tactic.IntervalCases

/-!
# Carwatch.Lib.Stdio — the `printf` and `scanf` conversions of unsigned integers

C strings are byte lists here. `printNat` is what `%u`, `%llu` (base 10) and
`%llx` (base 16) print; `scanUnsigned` is what `%u` and `%llx` read: leading
white space, a sign, for base 16 an optional `0x`, digits, the value clamped
to 64 bits the way `strtoull` clamps it. `scanUnsigned_printNat` is the round
trip.
-/

namespace Carwatch.Lib

/-- The bytes of an ASCII text, as a string literal of the source has them. -/
def ascii (s : String) : Bytes := s.toList.map fun c => UInt8.ofNat c.toNat

/-- `isspace` in the C locale. -/
def isSpace (c : UInt8) : Bool := c == 0x20 || (0x09 ≤ c && c ≤ 0x0D)

/-- The lower-case digit of value `d`. -/
def digitChar (d : ℕ) : UInt8 := if d < 10 then UInt8.ofNat (0x30 + d) else UInt8.ofNat (0x57 + d)

/-- The value of a digit in base 10 or 16, in either case. -/
def digitVal (c : UInt8) : Option ℕ :=
  if 0x30 ≤ c && c ≤ 0x39 then some (c.toNat - 0x30)
  else if 0x61 ≤ c && c ≤ 0x66 then some (c.toNat - 0x57)
  else if 0x41 ≤ c && c ≤ 0x46 then some (c.toNat - 0x37)
  else none

/-- Whether a byte is a digit in base `b`. -/
def isDigitIn (b : ℕ) (c : UInt8) : Bool :=
  match digitVal c with
  | some d => d < b
  | none => false

/-- The number that digits stand for, most significant first. -/
def digitsVal (b : ℕ) (ds : Bytes) : ℕ :=
  ds.foldl (fun v c => v * b + (digitVal c).getD 0) 0

/-- The digits of `n` in base `b`, most significant first and at most `fuel`
of them. -/
def printNat (b : ℕ) : ℕ → ℕ → Bytes
  | 0, _ => []
  | fuel + 1, n => if n < b then [digitChar n] else printNat b fuel (n / b) ++ [digitChar (n % b)]

/-- The optional sign of a number, and whether it is a minus. -/
def scanSign : Bytes → Bool × Bytes
  | [] => (false, [])
  | c :: s => if c = 0x2D then (true, s) else if c = 0x2B then (false, s) else (false, c :: s)

/-- In base 16 a leading `0x` counts as the digit 0, with the x passed over. -/
def scanHexMark (b : ℕ) : Bytes → Bytes
  | c :: x :: s =>
      if b = 16 ∧ c = 0x30 ∧ (x = 0x78 ∨ x = 0x58) then c :: s else c :: x :: s
  | s => s

/-- An unsigned conversion of `scanf` in base `b`: the value and what is left
of the input, or `none` when there is no digit. -/
def scanUnsigned (b : ℕ) (input : Bytes) : Option (ℕ × Bytes) :=
  let (neg, s) := scanSign (input.dropWhile isSpace)
  let s := scanHexMark b s
  let ds := s.takeWhile (isDigitIn b)
  if ds.isEmpty then none
  else
    let v := digitsVal b ds
    some (if 2 ^ 64 ≤ v then 2 ^ 64 - 1 else if neg then (2 ^ 64 - v) % 2 ^ 64 else v,
      s.drop ds.length)

/-- A literal run of a `scanf` format: it must be there byte for byte. -/
def scanLit (lit input : Bytes) : Option Bytes :=
  if lit.isPrefixOf input then some (input.drop lit.length) else none

/-! ## Digits -/

theorem digitVal_digitChar {d : ℕ} (h : d < 16) : digitVal (digitChar d) = some d := by
  interval_cases d <;> rfl

theorem digitChar_ne {d : ℕ} (h : d < 16) :
    isSpace (digitChar d) = false ∧ digitChar d ≠ 0x2D ∧ digitChar d ≠ 0x2B ∧
    digitChar d ≠ 0x78 ∧ digitChar d ≠ 0x58 := by
  interval_cases d <;> decide

theorem isDigitIn_digitChar {b d : ℕ} (hb : b ≤ 16) (h : d < b) :
    isDigitIn b (digitChar d) = true := by
  simp [isDigitIn, digitVal_digitChar (lt_of_lt_of_le h hb), h]

theorem digitsVal_append_singleton (b : ℕ) (ds : Bytes) (c : UInt8) :
    digitsVal b (ds ++ [c]) = digitsVal b ds * b + (digitVal c).getD 0 := by
  simp [digitsVal, List.foldl_append]

/-- Every byte that is printed is the character of a digit. -/
theorem printNat_mem {b : ℕ} (hb : 0 < b) {fuel n : ℕ} {c : UInt8} (hc : c ∈ printNat b fuel n) :
    ∃ d < b, c = digitChar d := by
  induction fuel generalizing n with
  | zero => simp [printNat] at hc
  | succ fuel ih =>
      rw [printNat] at hc
      split_ifs at hc with hn
      · exact ⟨n, hn, by simpa using hc⟩
      · rcases List.mem_append.mp hc with hhigh | hlow
        · exact ih hhigh
        · exact ⟨n % b, Nat.mod_lt n hb, by simpa using hlow⟩

theorem printNat_ne_nil (b fuel n : ℕ) : printNat b (fuel + 1) n ≠ [] := by
  rw [printNat]
  split_ifs <;> simp

theorem length_printNat_le (b fuel n : ℕ) : (printNat b fuel n).length ≤ fuel := by
  induction fuel generalizing n with
  | zero => simp [printNat]
  | succ fuel ih =>
      rw [printNat]
      split_ifs with hn
      · simp
      · simpa using ih (n / b)

/-- The printed digits stand for the number printed. -/
theorem digitsVal_printNat {b : ℕ} (hb : b ≤ 16) {fuel n : ℕ} (h : n < b ^ (fuel + 1)) :
    digitsVal b (printNat b (fuel + 1) n) = n := by
  induction fuel generalizing n with
  | zero =>
      have hn : n < b := by simpa using h
      simp [printNat, hn, digitsVal, digitVal_digitChar (lt_of_lt_of_le hn hb)]
  | succ fuel ih =>
      rw [printNat]
      split_ifs with hn
      · simp [digitsVal, digitVal_digitChar (lt_of_lt_of_le hn hb)]
      · have hpos : 0 < b := by
          rcases Nat.eq_zero_or_pos b with h0 | hpos
          · subst h0
            simp at h
          · exact hpos
        have hmod : n % b < b := Nat.mod_lt n hpos
        have hdiv : n / b < b ^ (fuel + 1) := by
          rw [Nat.div_lt_iff_lt_mul hpos, ← pow_succ]
          exact h
        rw [digitsVal_append_singleton, ih hdiv, digitVal_digitChar (lt_of_lt_of_le hmod hb)]
        exact Nat.div_add_mod' n b

/-- Digits stand for less than the next power of the base. -/
theorem digitsVal_lt {b : ℕ} (ds : Bytes) (h : ∀ c ∈ ds, isDigitIn b c = true) :
    digitsVal b ds < b ^ ds.length := by
  induction ds using List.reverseRecOn with
  | nil => simp [digitsVal]
  | append_singleton ds c ih =>
      have hinit := ih fun e he => h e (List.mem_append_left _ he)
      have hlast : (digitVal c).getD 0 < b := by
        have hc := h c (List.mem_append_right _ List.mem_cons_self)
        unfold isDigitIn at hc
        cases hd : digitVal c with
        | none =>
            rw [hd] at hc
            cases hc
        | some d =>
            rw [hd] at hc
            exact of_decide_eq_true hc
      rw [digitsVal_append_singleton, List.length_append, List.length_singleton, pow_succ]
      calc digitsVal b ds * b + (digitVal c).getD 0
          < digitsVal b ds * b + b := by omega
        _ = (digitsVal b ds + 1) * b := by ring
        _ ≤ b ^ ds.length * b := Nat.mul_le_mul_right b hinit

/-! ## The round trip -/

/-- Digits in front of the input are neither space, sign nor `0x` mark. -/
theorem scanSign_digits {b : ℕ} (hb : b ≤ 16) {ds rest : Bytes} (hne : ds ≠ [])
    (hds : ∀ c ∈ ds, ∃ d < b, c = digitChar d) (hx : b = 16 → rest = []) :
    scanSign ((ds ++ rest).dropWhile isSpace) = (false, ds ++ rest) ∧
    scanHexMark b (ds ++ rest) = ds ++ rest := by
  cases ds with
  | nil => exact absurd rfl hne
  | cons c cs =>
      obtain ⟨d, hd, rfl⟩ := hds c (by simp)
      have hc := digitChar_ne (lt_of_lt_of_le hd hb)
      constructor
      · simp [hc.1, scanSign, hc.2.1, hc.2.2.1]
      · -- the byte after a first digit is another digit, or the input ends
        cases cs with
        | nil =>
            by_cases h16 : b = 16
            · simp [hx h16, scanHexMark]
            · cases rest with
              | nil => simp [scanHexMark]
              | cons x rest => simp [scanHexMark, h16]
        | cons x cs =>
            obtain ⟨d', hd', rfl⟩ := hds x (by simp)
            have hx' := digitChar_ne (lt_of_lt_of_le hd' hb)
            simp [scanHexMark, hx'.2.2.2.1, hx'.2.2.2.2]

/-- What was printed is read back, when no further digit follows it and, in
base 16, nothing at all does. -/
theorem scanUnsigned_printNat {b : ℕ} (hb0 : 0 < b) (hb : b ≤ 16) {fuel n : ℕ}
    (hn : n < b ^ (fuel + 1)) (h64 : n < 2 ^ 64) {rest : Bytes}
    (hrest : rest.takeWhile (isDigitIn b) = []) (hx : b = 16 → rest = []) :
    scanUnsigned b (printNat b (fuel + 1) n ++ rest) = some (n, rest) := by
  have hne := printNat_ne_nil b fuel n
  have hmem : ∀ c ∈ printNat b (fuel + 1) n, ∃ d < b, c = digitChar d :=
    fun c hc => printNat_mem hb0 hc
  obtain ⟨hsign, hmark⟩ := scanSign_digits hb hne hmem hx
  have hall : ∀ c ∈ printNat b (fuel + 1) n, isDigitIn b c = true := by
    intro c hc
    obtain ⟨d, hd, rfl⟩ := hmem c hc
    exact isDigitIn_digitChar hb hd
  have htake : (printNat b (fuel + 1) n ++ rest).takeWhile (isDigitIn b) =
      printNat b (fuel + 1) n := by
    rw [List.takeWhile_append_of_pos hall, hrest, List.append_nil]
  have hval := digitsVal_printNat hb hn
  simp only [scanUnsigned, hsign, hmark, htake, hval, List.drop_left]
  rw [if_neg (by simpa using hne), if_neg (not_le.mpr h64)]
  simp

end Carwatch.Lib
