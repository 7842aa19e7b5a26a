import Carwatch.Lib.Bytes
import Carwatch.Lib.Quantize
import Mathlib.Data.Rat.Floor
import Mathlib.Tactic.FieldSimp
import Mathlib.Tactic.NormNum

/-!
# Carwatch.Obd.Pids — Mode 01 values (`PIDS` of `tools/obdlib.py`, `ENCODE` of `tools/obdsim.py`)

What the data bytes of a reply stand for, and the bytes the simulator sends
for a value. A finite float is a rational number, and an operation on floats
rounds its exact result.

* **Model layer**: `Rounding`; `PIDS`, `decode`, `pidName`; `ENCODE`,
  `MODELED`, `encode`;
* `Coded` — what an encoder and its decoder have to do with one scale;
* `Coded.encode_value`, `Coded.nearest` — the codes survive, and a value
  gets the code that says it best;
* `coded_of_modeled` — every modelled PID has such a scale.
-/

namespace Carwatch.Obd

open Carwatch.Lib

/-- Python's float arithmetic: rounding to the nearest double, with what is
lost near zero. -/
structure Rounding where
  /-- The double an exact result is rounded to. -/
  rnd : ℚ → ℚ
  near : ∀ x, |x| ≤ 2 ^ 1000 → |rnd x - x| ≤ |x| / 2 ^ 53 + 1 / 2 ^ 1074

namespace Rounding

variable (r : Rounding)

/-- `+` -/
def add (x y : ℚ) : ℚ := r.rnd (x + y)

/-- `-` -/
def sub (x y : ℚ) : ℚ := r.rnd (x - y)

/-- `*` -/
def mul (x y : ℚ) : ℚ := r.rnd (x * y)

/-- `/`, also of two integers. -/
def div (x y : ℚ) : ℚ := r.rnd (x / y)

end Rounding

/-! ## `PIDS` -/

/-- `d[i]` -/
def at1 (data : Bytes) (i : ℕ) : ℚ := ((data.getD i 0).toNat : ℚ)

/-- `_u16` of `obdlib` -/
def at2 (data : Bytes) : ℚ := at1 data 0 * 256 + at1 data 1

/-- A row of `PIDS`. -/
structure Entry where
  name : String
  unit : String
  /-- How many bytes the formula needs. -/
  need : ℕ
  value : Rounding → Bytes → ℚ

/-- `lambda d: d[0] * 100 / 255` -/
def percent (r : Rounding) (d : Bytes) : ℚ := r.div (at1 d 0 * 100) 255

/-- `lambda d: d[0] - 40` -/
def celsius (r : Rounding) (d : Bytes) : ℚ := r.rnd (at1 d 0 - 40)

/-- `lambda d: (d[0] - 128) * 100 / 128` -/
def trim (r : Rounding) (d : Bytes) : ℚ := r.div ((at1 d 0 - 128) * 100) 128

/-- `lambda d: d[0]` -/
def byteValue (r : Rounding) (d : Bytes) : ℚ := r.rnd (at1 d 0)

/-- `_u16` as a value. -/
def wordValue (r : Rounding) (d : Bytes) : ℚ := r.rnd (at2 d)

/-- `PIDS` -/
def PIDS : List (UInt8 × Entry) :=
  [(0x04, ⟨"Calculated engine load", "%", 1, percent⟩),
    (0x05, ⟨"Coolant temperature", "degC", 1, celsius⟩),
    (0x06, ⟨"Short term fuel trim, bank 1", "%", 1, trim⟩),
    (0x07, ⟨"Long term fuel trim, bank 1", "%", 1, trim⟩),
    (0x08, ⟨"Short term fuel trim, bank 2", "%", 1, trim⟩),
    (0x09, ⟨"Long term fuel trim, bank 2", "%", 1, trim⟩),
    (0x0A, ⟨"Fuel pressure", "kPa", 1, fun r d => r.rnd (at1 d 0 * 3)⟩),
    (0x0B, ⟨"Intake manifold pressure", "kPa", 1, byteValue⟩),
    (0x0C, ⟨"Engine speed", "rpm", 2, fun r d => r.div (at2 d) 4⟩),
    (0x0D, ⟨"Vehicle speed", "km/h", 1, byteValue⟩),
    (0x0E, ⟨"Timing advance", "deg", 1, fun r d => r.sub (r.div (at1 d 0) 2) 64⟩),
    (0x0F, ⟨"Intake air temperature", "degC", 1, celsius⟩),
    (0x10, ⟨"Mass air flow", "g/s", 2, fun r d => r.div (at2 d) 100⟩),
    (0x11, ⟨"Throttle position", "%", 1, percent⟩),
    (0x1F, ⟨"Run time since start", "s", 2, wordValue⟩),
    (0x21, ⟨"Distance with MIL on", "km", 2, wordValue⟩),
    (0x2C, ⟨"Commanded EGR", "%", 1, percent⟩),
    (0x2F, ⟨"Fuel level", "%", 1, percent⟩),
    (0x30, ⟨"Warm-ups since codes cleared", "count", 1, byteValue⟩),
    (0x31, ⟨"Distance since codes cleared", "km", 2, wordValue⟩),
    (0x33, ⟨"Barometric pressure", "kPa", 1, byteValue⟩),
    (0x42, ⟨"Control module voltage", "V", 2, fun r d => r.div (at2 d) 1000⟩),
    (0x43, ⟨"Absolute load", "%", 2, fun r d => r.div (at2 d * 100) 255⟩),
    (0x44, ⟨"Commanded equivalence ratio", "ratio", 2, fun r d => r.div (at2 d) 32768⟩),
    (0x45, ⟨"Relative throttle position", "%", 1, percent⟩),
    (0x46, ⟨"Ambient air temperature", "degC", 1, celsius⟩),
    (0x47, ⟨"Absolute throttle position B", "%", 1, percent⟩),
    (0x49, ⟨"Accelerator pedal position D", "%", 1, percent⟩),
    (0x4A, ⟨"Accelerator pedal position E", "%", 1, percent⟩),
    (0x4C, ⟨"Commanded throttle actuator", "%", 1, percent⟩),
    (0x5C, ⟨"Engine oil temperature", "degC", 1, celsius⟩),
    (0x5E, ⟨"Engine fuel rate", "L/h", 2, fun r d => r.div (at2 d) 20⟩)] ++
  -- narrow-band O2 sensors report volts first, wide-band ones the equivalence ratio
  (List.range 8).map (fun i => (0x14 + UInt8.ofNat i,
    ⟨"O2 sensor " ++ toString (i + 1) ++ " voltage", "V", 2, fun r d => r.div (at1 d 0) 200⟩)) ++
  (List.range 8).map (fun i => (0x24 + UInt8.ofNat i,
    ⟨"O2 sensor " ++ toString (i + 1) ++ " lambda", "ratio", 4, fun r d => r.div (at2 d) 32768⟩)) ++
  [(0x3C, "B1S1"), (0x3D, "B2S1"), (0x3E, "B1S2"), (0x3F, "B2S2")].map (fun (pid, label) =>
    (pid, ⟨"Catalyst temperature " ++ label, "degC", 2, fun r d => r.sub (r.div (at2 d) 10) 40⟩))

/-- `decode` -/
def decode (r : Rounding) (pid : UInt8) (data : Bytes) : Option ℚ × String :=
  match PIDS.lookup pid with
  | none => (none, "")
  | some entry =>
      if data.length < entry.need then (none, "") else (some (entry.value r data), entry.unit)

/-! ## `ENCODE` -/

/-- `_b` -/
def code1 (v : ℚ) : Bytes := [UInt8.ofNat (quantize 255 v)]

/-- The two bytes of `to_bytes(2, "big")`. -/
def be2 (n : ℕ) : Bytes := [UInt8.ofNat (n / 256), UInt8.ofNat (n % 256)]

/-- `_u16` of `obdsim` -/
def code2 (v : ℚ) : Bytes := be2 (quantize 65535 v)

/-- `lambda v: _b(v * 255 / 100)` -/
def encodePercent (r : Rounding) (v : ℚ) : Bytes := code1 (r.div (r.mul v 255) 100)

/-- `lambda v: _b(v + 40)` -/
def encodeCelsius (r : Rounding) (v : ℚ) : Bytes := code1 (r.add v 40)

/-- `lambda v: _b(v * 128 / 100 + 128)` -/
def encodeTrim (r : Rounding) (v : ℚ) : Bytes := code1 (r.add (r.div (r.mul v 128) 100) 128)

/-- `lambda v: _b(v * 200) + b"\x80"` -/
def encodeOxygen (r : Rounding) (v : ℚ) : Bytes := code1 (r.mul v 200) ++ [0x80]

/-- `ENCODE` -/
def ENCODE : List (UInt8 × (Rounding → ℚ → Bytes)) :=
  [(0x04, encodePercent), (0x05, encodeCelsius), (0x06, encodeTrim), (0x07, encodeTrim),
    (0x0B, fun _ v => code1 v), (0x0C, fun r v => code2 (r.mul v 4)), (0x0D, fun _ v => code1 v),
    (0x0E, fun r v => code1 (r.mul (r.add v 64) 2)), (0x0F, encodeCelsius),
    (0x10, fun r v => code2 (r.mul v 100)), (0x11, encodePercent), (0x14, encodeOxygen),
    (0x15, encodeOxygen), (0x1F, fun _ v => code2 v), (0x33, fun _ v => code1 v),
    (0x42, fun r v => code2 (r.mul v 1000)), (0x46, encodeCelsius)]

/-- `MODELED`: the keys, which stand in order. -/
def MODELED : List UInt8 := ENCODE.map Prod.fst

/-- `ENCODE[pid](v)` -/
def encode (r : Rounding) (pid : UInt8) (v : ℚ) : Option Bytes :=
  (ENCODE.lookup pid).map fun f => f r v

/-! ## What is lost in rounding -/

/-- A result of at most `b` is off by a little more than `b / 2 ^ 53`. -/
theorem Rounding.error (r : Rounding) {x b : ℚ} (hx : |x| ≤ b) (hb : b ≤ 2 ^ 60) :
    |r.rnd x - x| ≤ (b + 1) / 2 ^ 53 := by
  have hbig : (2 : ℚ) ^ 60 ≤ 2 ^ 1000 := pow_le_pow_right₀ (by norm_num) (by norm_num)
  have hsmall : (1 : ℚ) / 2 ^ 1074 ≤ 1 / 2 ^ 53 :=
    one_div_le_one_div_of_le (by positivity) (pow_le_pow_right₀ (by norm_num) (by norm_num))
  calc |r.rnd x - x| ≤ |x| / 2 ^ 53 + 1 / 2 ^ 1074 := r.near x (hx.trans (hb.trans hbig))
    _ ≤ b / 2 ^ 53 + 1 / 2 ^ 53 :=
        add_le_add (div_le_div_of_nonneg_right hx (by positivity)) hsmall
    _ = (b + 1) / 2 ^ 53 := by ring

/-! ## One scale for a decoder and its encoder -/

/-- `value` reads the code `n` of `bytes n` as `s * n + o`, and `encode`
sends the code nearest to `(v - o) / s`, both up to the rounding of floats. -/
structure Coded (N : ℕ) (bytes : ℕ → Bytes) (value : Bytes → ℚ) (encode : ℚ → Bytes)
    (s o : ℚ) : Prop where
  step_ge : 1 / 1024 ≤ s
  step_le : s ≤ 1
  range : ∀ n ≤ N, |s * n + o| ≤ 65535
  value_near : ∀ n ≤ N, |value (bytes n) - (s * n + o)| ≤ s / 2 ^ 26
  encode_near : ∀ v, |v| ≤ 65536 →
    ∃ y, encode v = bytes (quantize N y) ∧ |y - (v - o) / s| ≤ 1 / 2 ^ 26

namespace Coded

variable {N : ℕ} {bytes : ℕ → Bytes} {value : Bytes → ℚ} {encode : ℚ → Bytes} {s o : ℚ}

theorem step_pos (h : Coded N bytes value encode s o) : 0 < s :=
  lt_of_lt_of_le (by norm_num) h.step_ge

/-- A code is read and sent back as itself. -/
theorem encode_value (h : Coded N bytes value encode s o) {n : ℕ} (hn : n ≤ N) :
    encode (value (bytes n)) = bytes n := by
  have hs := h.step_pos
  have hval := h.value_near n hn
  have hsmall : s / 2 ^ 26 ≤ 1 := by
    have := h.step_le
    rw [div_le_one (by positivity)]
    linarith [show (1 : ℚ) ≤ 2 ^ 26 by norm_num]
  have hrange : |value (bytes n)| ≤ 65536 := by
    have htri := abs_sub_abs_le_abs_sub (value (bytes n)) (s * n + o)
    linarith [h.range n hn]
  obtain ⟨y, hy, hnear⟩ := h.encode_near _ hrange
  have hcode : |(value (bytes n) - o) / s - n| ≤ 1 / 2 ^ 26 := by
    have hsplit : (value (bytes n) - o) / s - n = (value (bytes n) - (s * n + o)) / s := by
      field_simp
      ring
    rw [hsplit, abs_div, abs_of_pos hs, div_le_iff₀ hs]
    linarith
  rw [hy, quantize_eq hn]
  have htri := abs_sub_le y ((value (bytes n) - o) / s) n
  have hhalf : (1 : ℚ) / 2 ^ 26 + 1 / 2 ^ 26 < 1 / 2 := by norm_num
  linarith

/-- Of all codes the one that is sent says the value best, up to rounding. -/
theorem nearest (h : Coded N bytes value encode s o) {v : ℚ} (hv : |v| ≤ 65536) :
    ∃ n ≤ N, encode v = bytes n ∧
      ∀ m ≤ N, |value (bytes n) - v| ≤ |value (bytes m) - v| + 1 / 2 ^ 24 := by
  have hs := h.step_pos
  obtain ⟨y, hy, hnear⟩ := h.encode_near v hv
  refine ⟨quantize N y, quantize_le N y, hy, ?_⟩
  intro m hm
  have hq := quantize_near hnear hm
  -- the same in the units of the value
  have hscale : ∀ n : ℕ, |s * n + o - v| = s * |(n : ℚ) - (v - o) / s| := by
    intro n
    rw [← abs_of_pos hs, ← abs_mul, abs_of_pos hs]
    congr 1
    field_simp
    ring
  have hcodes : |s * (quantize N y : ℚ) + o - v| ≤ |s * (m : ℚ) + o - v| + s * (2 * (1 / 2 ^ 26)) := by
    rw [hscale, hscale, ← mul_add]
    exact mul_le_mul_of_nonneg_left hq hs.le
  have hleft := abs_sub_le (value (bytes (quantize N y))) (s * (quantize N y : ℚ) + o) v
  have hright := abs_sub_le (s * (m : ℚ) + o) (value (bytes m)) v
  rw [abs_sub_comm (s * (m : ℚ) + o) (value (bytes m))] at hright
  have hn := h.value_near _ (quantize_le N y)
  have hm' := h.value_near m hm
  have hsum : s / 2 ^ 26 + s * (2 * (1 / 2 ^ 26)) + s / 2 ^ 26 ≤ 1 / 2 ^ 24 := by
    have := h.step_le
    norm_num
    linarith
  linarith

end Coded

/-! ## The scales -/

/-- A value that is rounded once is near enough. -/
theorem once_near (r : Rounding) {s x : ℚ} (hs : 1 / 1024 ≤ s) (hx : |x| ≤ 65535) :
    |r.rnd x - x| ≤ s / 2 ^ 26 := by
  have herr := r.error hx (by norm_num)
  have hle : ((65535 : ℚ) + 1) / 2 ^ 53 ≤ 1 / 1024 / 2 ^ 26 := by norm_num
  exact herr.trans (hle.trans (div_le_div_of_nonneg_right hs (by positivity)))

/-- So is a code that is rounded once. -/
theorem once_code (r : Rounding) {x : ℚ} (hx : |x| ≤ 2 ^ 26) : |r.rnd x - x| ≤ 1 / 2 ^ 26 :=
  (r.error hx (by norm_num)).trans (by norm_num)

theorem at1_byte {n : ℕ} (hn : n ≤ 255) (tail : Bytes) : at1 (UInt8.ofNat n :: tail) 0 = n := by
  have hmod : n % 256 = n := by omega
  simp [at1, hmod]

theorem at2_be2 {n : ℕ} (hn : n ≤ 65535) : at2 (be2 n) = n := by
  have hhigh : n / 256 % 256 = n / 256 := by omega
  have hsum : ((n / 256 * 256 + n % 256 : ℕ) : ℚ) = n := by rw [Nat.div_add_mod']
  have heq : at2 (be2 n) = ((n / 256 : ℕ) : ℚ) * 256 + ((n % 256 : ℕ) : ℚ) := by
    simp [at2, at1, be2, hhigh]
  rw [heq, ← hsum]
  push_cast
  ring

section Scales

variable (r : Rounding)

/-- The bounds of a cast code. -/
theorem code_bounds {n N : ℕ} (hn : n ≤ N) : (0 : ℚ) ≤ n ∧ (n : ℚ) ≤ N :=
  ⟨Nat.cast_nonneg n, Nat.cast_le.mpr hn⟩

theorem coded_percent :
    Coded 255 (fun n => [UInt8.ofNat n]) (percent r) (encodePercent r) (100 / 255) 0 where
  step_ge := by norm_num
  step_le := by norm_num
  range n hn := by
    have hb := code_bounds hn
    rw [abs_le]
    constructor <;> push_cast at * <;> linarith
  value_near n hn := by
    have hb := code_bounds hn
    have hx : percent r [UInt8.ofNat n] = r.rnd (100 / 255 * n + 0) := by
      rw [percent, at1_byte hn, Rounding.div]
      ring_nf
    rw [hx]
    apply once_near r (by norm_num)
    rw [abs_le]
    constructor <;> push_cast at * <;> linarith
  encode_near v hv := by
    refine ⟨_, rfl, ?_⟩
    have hv' := abs_le.mp hv
    have hmul := abs_le.mp (r.error (b := 2 ^ 24)
      (show |v * 255| ≤ 2 ^ 24 by rw [abs_le]; constructor <;> linarith) (by norm_num))
    have hdiv := abs_le.mp (r.error (b := 2 ^ 18) (show |r.mul v 255 / 100| ≤ 2 ^ 18 by
      rw [Rounding.mul, abs_le]
      norm_num at *
      constructor <;> linarith) (by norm_num))
    rw [abs_le]
    unfold Rounding.div Rounding.mul at *
    norm_num at *
    constructor <;> linarith

theorem coded_celsius :
    Coded 255 (fun n => [UInt8.ofNat n]) (celsius r) (encodeCelsius r) 1 (-40) where
  step_ge := by norm_num
  step_le := le_rfl
  range n hn := by
    have hb := code_bounds hn
    rw [abs_le]
    constructor <;> push_cast at * <;> linarith
  value_near n hn := by
    have hb := code_bounds hn
    have hx : celsius r [UInt8.ofNat n] = r.rnd (1 * n + -40) := by
      rw [celsius, at1_byte hn]
      ring_nf
    rw [hx]
    apply once_near r (by norm_num)
    rw [abs_le]
    constructor <;> push_cast at * <;> linarith
  encode_near v hv := by
    refine ⟨_, rfl, ?_⟩
    have hv' := abs_le.mp hv
    have hx : (v - -40) / 1 = v + 40 := by ring
    rw [hx]
    apply once_code
    rw [abs_le]
    constructor <;> linarith

theorem coded_trim :
    Coded 255 (fun n => [UInt8.ofNat n]) (trim r) (encodeTrim r) (100 / 128) (-100) where
  step_ge := by norm_num
  step_le := by norm_num
  range n hn := by
    have hb := code_bounds hn
    rw [abs_le]
    constructor <;> push_cast at * <;> linarith
  value_near n hn := by
    have hb := code_bounds hn
    have hx : trim r [UInt8.ofNat n] = r.rnd (100 / 128 * n + -100) := by
      rw [trim, at1_byte hn, Rounding.div]
      ring_nf
    rw [hx]
    apply once_near r (by norm_num)
    rw [abs_le]
    constructor <;> push_cast at * <;> linarith
  encode_near v hv := by
    refine ⟨_, rfl, ?_⟩
    have hv' := abs_le.mp hv
    have hmul := abs_le.mp (r.error (b := 2 ^ 23)
      (show |v * 128| ≤ 2 ^ 23 by rw [abs_le]; constructor <;> linarith) (by norm_num))
    have hdiv := abs_le.mp (r.error (b := 2 ^ 17) (show |r.mul v 128 / 100| ≤ 2 ^ 17 by
      rw [Rounding.mul, abs_le]
      norm_num at *
      constructor <;> linarith) (by norm_num))
    have hadd := abs_le.mp (r.error (b := 2 ^ 18)
      (show |r.div (r.mul v 128) 100 + 128| ≤ 2 ^ 18 by
        rw [Rounding.div, abs_le]
        unfold Rounding.mul at *
        norm_num at *
        constructor <;> linarith) (by norm_num))
    rw [abs_le]
    unfold Rounding.add Rounding.div Rounding.mul at *
    norm_num at *
    constructor <;> linarith

theorem coded_byte : Coded 255 (fun n => [UInt8.ofNat n]) (byteValue r) code1 1 0 where
  step_ge := by norm_num
  step_le := le_rfl
  range n hn := by
    have hb := code_bounds hn
    rw [abs_le]
    constructor <;> push_cast at * <;> linarith
  value_near n hn := by
    have hb := code_bounds hn
    have hx : byteValue r [UInt8.ofNat n] = r.rnd (1 * n + 0) := by
      rw [byteValue, at1_byte hn]
      ring_nf
    rw [hx]
    apply once_near r (by norm_num)
    rw [abs_le]
    constructor <;> push_cast at * <;> linarith
  encode_near v _ := ⟨v, rfl, by norm_num⟩

theorem coded_timing :
    Coded 255 (fun n => [UInt8.ofNat n]) (fun d => r.sub (r.div (at1 d 0) 2) 64)
      (fun v => code1 (r.mul (r.add v 64) 2)) (1 / 2) (-64) where
  step_ge := by norm_num
  step_le := by norm_num
  range n hn := by
    have hb := code_bounds hn
    rw [abs_le]
    constructor <;> push_cast at * <;> linarith
  value_near n hn := by
    have hb := code_bounds hn
    rw [at1_byte hn]
    have hdiv := abs_le.mp (r.error (b := 2 ^ 7)
      (show |(n : ℚ) / 2| ≤ 2 ^ 7 by rw [abs_le]; constructor <;> push_cast at * <;> linarith)
      (by norm_num))
    have hsub := abs_le.mp (r.error (b := 2 ^ 8) (show |r.div n 2 - 64| ≤ 2 ^ 8 by
      rw [Rounding.div, abs_le]
      norm_num at hdiv ⊢
      constructor <;> push_cast at * <;> linarith) (by norm_num))
    rw [abs_le]
    unfold Rounding.sub Rounding.div at *
    norm_num at *
    constructor <;> linarith
  encode_near v hv := by
    refine ⟨_, rfl, ?_⟩
    have hv' := abs_le.mp hv
    have hadd := abs_le.mp (r.error (b := 2 ^ 17)
      (show |v + 64| ≤ 2 ^ 17 by rw [abs_le]; constructor <;> linarith) (by norm_num))
    have hmul := abs_le.mp (r.error (b := 2 ^ 19) (show |r.add v 64 * 2| ≤ 2 ^ 19 by
      rw [Rounding.add, abs_le]
      norm_num at *
      constructor <;> linarith) (by norm_num))
    rw [abs_le]
    unfold Rounding.mul Rounding.add at *
    norm_num at *
    constructor <;> linarith

/-- The volts of a sensor, with the trim that is not used. -/
theorem coded_oxygen :
    Coded 255 (fun n => [UInt8.ofNat n, 0x80]) (fun d => r.div (at1 d 0) 200) (encodeOxygen r)
      (1 / 200) 0 where
  step_ge := by norm_num
  step_le := by norm_num
  range n hn := by
    have hb := code_bounds hn
    rw [abs_le]
    constructor <;> push_cast at * <;> linarith
  value_near n hn := by
    have hb := code_bounds hn
    have hx : r.div (at1 [UInt8.ofNat n, 0x80] 0) 200 = r.rnd (1 / 200 * n + 0) := by
      rw [at1_byte hn, Rounding.div]
      ring_nf
    rw [hx]
    apply once_near r (by norm_num)
    rw [abs_le]
    constructor <;> push_cast at * <;> linarith
  encode_near v hv := by
    refine ⟨_, rfl, ?_⟩
    have hv' := abs_le.mp hv
    have hx : (v - 0) / (1 / 200) = v * 200 := by ring
    rw [hx]
    apply once_code
    rw [abs_le]
    constructor <;> linarith

/-- A word that counts in steps of `1 / k`. -/
theorem coded_word (k : ℚ) (hk : 1 ≤ k) (hk' : k ≤ 1000) :
    Coded 65535 be2 (fun d => r.div (at2 d) k) (fun v => code2 (r.mul v k)) (1 / k) 0 := by
  have hpos : 0 < k := by linarith
  have hle : 1 / k ≤ 1 := by rw [div_le_one hpos]; exact hk
  have hge : 1 / 1024 ≤ 1 / k := one_div_le_one_div_of_le hpos (by linarith)
  have hrange : ∀ n : ℕ, n ≤ 65535 → |1 / k * (n : ℚ) + 0| ≤ 65535 := by
    intro n hn
    have hb := code_bounds hn
    rw [add_zero, abs_of_nonneg (mul_nonneg (by positivity) hb.1)]
    calc 1 / k * (n : ℚ) ≤ 1 * n := mul_le_mul_of_nonneg_right hle hb.1
      _ ≤ 65535 := by rw [one_mul]; exact_mod_cast hb.2
  refine ⟨hge, hle, hrange, ?_, ?_⟩
  · intro n hn
    have hx : r.div (at2 (be2 n)) k = r.rnd (1 / k * n + 0) := by
      rw [at2_be2 hn, Rounding.div, add_zero, one_div_mul_eq_div]
    rw [hx]
    exact once_near r hge (hrange n hn)
  · intro v hv
    refine ⟨_, rfl, ?_⟩
    have hx : (v - 0) / (1 / k) = v * k := by
      rw [sub_zero, div_div_eq_mul_div, div_one]
    rw [hx]
    apply once_code
    rw [abs_mul, abs_of_pos hpos]
    calc |v| * k ≤ 65536 * 1000 := mul_le_mul hv hk' hpos.le (by norm_num)
      _ ≤ 2 ^ 26 := by norm_num

/-- Seconds, sent and read as they are. -/
theorem coded_seconds : Coded 65535 be2 (wordValue r) code2 1 0 where
  step_ge := by norm_num
  step_le := le_rfl
  range n hn := by
    have hb := code_bounds hn
    rw [abs_le]
    constructor <;> push_cast at * <;> linarith
  value_near n hn := by
    have hb := code_bounds hn
    have hx : wordValue r (be2 n) = r.rnd (1 * n + 0) := by
      rw [wordValue, at2_be2 hn]
      ring_nf
    rw [hx]
    apply once_near r (by norm_num)
    rw [abs_le]
    constructor <;> push_cast at * <;> linarith
  encode_near v _ := ⟨v, rfl, by norm_num⟩

end Scales

/-! ## Every modelled PID -/

/-- How many bytes a reading of `pid` has. -/
def need (pid : UInt8) : ℕ := ((PIDS.lookup pid).map Entry.need).getD 0

/-- The bytes of a reading. A narrow-band sensor's second byte says that its
trim is not used. -/
def Fits (pid : UInt8) (data : Bytes) : Prop :=
  data.length = need pid ∧ (pid = 0x14 ∨ pid = 0x15 → data.getD 1 0 = 0x80)

instance decidableFits (pid : UInt8) (data : Bytes) : Decidable (Fits pid data) :=
  inferInstanceAs (Decidable (_ ∧ _))

theorem byte_code (b : UInt8) : ∃ n ≤ 255, b = UInt8.ofNat n :=
  ⟨b.toNat, by have := b.toNat_lt; omega, UInt8.ofNat_toNat.symm⟩

theorem fits_byte {pid : UInt8} (hneed : need pid = 1) (hplain : ¬(pid = 0x14 ∨ pid = 0x15))
    (data : Bytes) : Fits pid data ↔ ∃ n ≤ 255, data = [UInt8.ofNat n] := by
  constructor
  · rintro ⟨hlen, -⟩
    rw [hneed, List.length_eq_one_iff] at hlen
    obtain ⟨b, rfl⟩ := hlen
    obtain ⟨n, hn, rfl⟩ := byte_code b
    exact ⟨n, hn, rfl⟩
  · rintro ⟨n, -, rfl⟩
    exact ⟨hneed.symm, fun h => absurd h hplain⟩

theorem fits_word {pid : UInt8} (hneed : need pid = 2) (hplain : ¬(pid = 0x14 ∨ pid = 0x15))
    (data : Bytes) : Fits pid data ↔ ∃ n ≤ 65535, data = be2 n := by
  constructor
  · rintro ⟨hlen, -⟩
    rw [hneed, List.length_eq_two] at hlen
    obtain ⟨a, b, rfl⟩ := hlen
    obtain ⟨m, hm, rfl⟩ := byte_code a
    obtain ⟨n, hn, rfl⟩ := byte_code b
    refine ⟨m * 256 + n, by omega, ?_⟩
    have hdiv : (m * 256 + n) / 256 = m := by omega
    have hmod : (m * 256 + n) % 256 = n := by omega
    rw [be2, hdiv, hmod]
  · rintro ⟨n, -, rfl⟩
    exact ⟨hneed.symm, fun h => absurd h hplain⟩

theorem fits_oxygen {pid : UInt8} (hneed : need pid = 2) (hsensor : pid = 0x14 ∨ pid = 0x15)
    (data : Bytes) : Fits pid data ↔ ∃ n ≤ 255, data = [UInt8.ofNat n, 0x80] := by
  constructor
  · rintro ⟨hlen, htail⟩
    rw [hneed, List.length_eq_two] at hlen
    obtain ⟨a, b, rfl⟩ := hlen
    obtain ⟨n, hn, rfl⟩ := byte_code a
    exact ⟨n, hn, congrArg (fun b => [UInt8.ofNat n, b]) (htail hsensor)⟩
  · rintro ⟨n, -, rfl⟩
    exact ⟨hneed.symm, fun _ => rfl⟩

/-- Decoder and encoder of a modelled PID share a scale. -/
theorem coded_of_modeled (r : Rounding) {pid : UInt8} (h : pid ∈ MODELED) :
    ∃ (entry : Entry) (enc : Rounding → ℚ → Bytes) (N : ℕ) (bytes : ℕ → Bytes) (s o : ℚ),
      PIDS.lookup pid = some entry ∧ ENCODE.lookup pid = some enc ∧
      Coded N bytes (entry.value r) (enc r) s o ∧ ∀ data, Fits pid data ↔ ∃ n ≤ N, data = bytes n := by
  simp only [ENCODE, MODELED, List.map_cons, List.map_nil, List.mem_cons, List.not_mem_nil,
    or_false] at h
  rcases h with rfl | rfl | rfl | rfl | rfl | rfl | rfl | rfl | rfl | rfl | rfl | rfl | rfl | rfl |
    rfl | rfl | rfl
  · exact ⟨_, _, _, _, _, _, rfl, rfl, coded_percent r, fits_byte rfl (by decide)⟩
  · exact ⟨_, _, _, _, _, _, rfl, rfl, coded_celsius r, fits_byte rfl (by decide)⟩
  · exact ⟨_, _, _, _, _, _, rfl, rfl, coded_trim r, fits_byte rfl (by decide)⟩
  · exact ⟨_, _, _, _, _, _, rfl, rfl, coded_trim r, fits_byte rfl (by decide)⟩
  · exact ⟨_, _, _, _, _, _, rfl, rfl, coded_byte r, fits_byte rfl (by decide)⟩
  · exact ⟨_, _, _, _, _, _, rfl, rfl, coded_word r 4 (by norm_num) (by norm_num),
      fits_word rfl (by decide)⟩
  · exact ⟨_, _, _, _, _, _, rfl, rfl, coded_byte r, fits_byte rfl (by decide)⟩
  · exact ⟨_, _, _, _, _, _, rfl, rfl, coded_timing r, fits_byte rfl (by decide)⟩
  · exact ⟨_, _, _, _, _, _, rfl, rfl, coded_celsius r, fits_byte rfl (by decide)⟩
  · exact ⟨_, _, _, _, _, _, rfl, rfl, coded_word r 100 (by norm_num) (by norm_num),
      fits_word rfl (by decide)⟩
  · exact ⟨_, _, _, _, _, _, rfl, rfl, coded_percent r, fits_byte rfl (by decide)⟩
  · exact ⟨_, _, _, _, _, _, rfl, rfl, coded_oxygen r, fits_oxygen rfl (by decide)⟩
  · exact ⟨_, _, _, _, _, _, rfl, rfl, coded_oxygen r, fits_oxygen rfl (by decide)⟩
  · exact ⟨_, _, _, _, _, _, rfl, rfl, coded_seconds r, fits_word rfl (by decide)⟩
  · exact ⟨_, _, _, _, _, _, rfl, rfl, coded_byte r, fits_byte rfl (by decide)⟩
  · exact ⟨_, _, _, _, _, _, rfl, rfl, coded_word r 1000 (by norm_num) (by norm_num),
      fits_word rfl (by decide)⟩
  · exact ⟨_, _, _, _, _, _, rfl, rfl, coded_celsius r, fits_byte rfl (by decide)⟩

/-- What `decode` makes of a reading of a known PID. -/
theorem decode_of_fits (r : Rounding) {pid : UInt8} {entry : Entry}
    (hentry : PIDS.lookup pid = some entry) {data : Bytes} (h : Fits pid data) :
    decode r pid data = (some (entry.value r data), entry.unit) := by
  have hneed : need pid = entry.need := by rw [need, hentry]; rfl
  have hlen : ¬data.length < entry.need := by
    have := h.1
    omega
  rw [decode, hentry]
  exact if_neg hlen

/-- The bytes the simulator sends are decoded to the reading nearest to the
value it models, values beyond what a byte can say included. -/
theorem decode_encode_nearest (r : Rounding) {pid : UInt8} (hpid : pid ∈ MODELED) {v : ℚ}
    (hv : |v| ≤ 65536) :
    ∃ data w unit, encode r pid v = some data ∧ Fits pid data ∧ decode r pid data = (some w, unit) ∧
      ∀ data' w', Fits pid data' → decode r pid data' = (some w', unit) →
        |w - v| ≤ |w' - v| + 1 / 2 ^ 24 := by
  obtain ⟨entry, enc, N, bytes, s, o, hentry, henc, hcoded, hfits⟩ := coded_of_modeled r hpid
  obtain ⟨n, hn, hsent, hbest⟩ := hcoded.nearest hv
  have hfit : Fits pid (bytes n) := (hfits _).mpr ⟨n, hn, rfl⟩
  refine ⟨bytes n, _, _, ?_, hfit, decode_of_fits r hentry hfit, ?_⟩
  · rw [encode, henc, Option.map_some, hsent]
  · intro data' w' hfit' hdecode
    obtain ⟨m, hm, rfl⟩ := (hfits data').mp hfit'
    rw [decode_of_fits r hentry hfit', Prod.mk.injEq, Option.some.injEq] at hdecode
    rw [← hdecode.1]
    exact hbest m hm

/-- The arithmetic without rounding. -/
def exactRounding : Rounding where
  rnd x := x
  near x _ := by
    rw [sub_self, abs_zero]
    positivity

theorem decode_encode_nearest_rpm : ∃ data w unit, encode exactRounding 0x0C 1726 = some data ∧
    Fits 0x0C data ∧ decode exactRounding 0x0C data = (some w, unit) ∧
    ∀ data' w', Fits 0x0C data' → decode exactRounding 0x0C data' = (some w', unit) →
      |w - 1726| ≤ |w' - 1726| + 1 / 2 ^ 24 :=
  decode_encode_nearest exactRounding (by decide) (by rw [abs_of_nonneg] <;> norm_num)

end Carwatch.Obd
