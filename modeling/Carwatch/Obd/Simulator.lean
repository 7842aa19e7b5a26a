import Carwatch.Obd.Pids
import Carwatch.Obd.Reply

/-!
# Carwatch.Obd.Simulator — the fake OBD2 port (`Simulator` of `tools/obdsim.py`)

The emulator without its pty. What the scripted drive makes of a moment
(`vehicle_state`) is a parameter: a value for each PID.

* **Model layer**: `Simulator`, `handle`, `answerTo`, `obd`, `bitmap`,
  `supported`, `vinLines`;
* `handle_prompt` — a reply has one prompt, at its end;
* `parseAll_handle` — whatever state the emulator is in, its reply to a
  Mode 01 request is read as what it answered.
-/

namespace Carwatch.Obd

open Carwatch.Lib (Bytes quantize roundEven)
open Carwatch.BoardSync (Text isSpace strip natText Blank)

/-! ## The emulator -/

/-- `vehicle_state(t)` at one moment. -/
abbrev Vehicle := UInt8 → ℚ

/-- `Simulator`. The set `two_ecu` is a list. -/
structure Simulator where
  twoEcu : List UInt8
  echo : Bool
  searched : Bool

/-- `Simulator(two_ecu)` -/
def Simulator.new (twoEcu : List UInt8) : Simulator := ⟨twoEcu, true, false⟩

/-- `_reset` -/
def Simulator.reset (sim : Simulator) : Simulator := { sim with echo := true, searched := false }

/-- `BANNER` -/
def BANNER : Text := "ELM327 v1.5 (carwatch SIM)".toList

/-- `PROTOCOL` -/
def PROTOCOL : Text := "AUTO, ISO 15765-4 (CAN 11/500)".toList

/-- `SIM_VIN` -/
def SIM_VIN : Bytes := "SIMCARWATCH000001".toList.map fun c => UInt8.ofNat c.toNat

/-- `_hex` -/
def hexLine (data : Bytes) : Text := [' '].intercalate (data.map hex2) ++ [' ']

/-- The four bytes of `to_bytes(4, "big")`. -/
def be4 (n : ℕ) : Bytes :=
  [UInt8.ofNat (n / 2 ^ 24), UInt8.ofNat (n / 2 ^ 16), UInt8.ofNat (n / 2 ^ 8), UInt8.ofNat n]

/-- The bits of `_bitmap`: those of the block's PIDs, and one for the blocks
after it. -/
def bitmapBits (modeled : List UInt8) (base : ℕ) : ℕ :=
  modeled.foldl
      (fun bits pid =>
        if base < pid.toNat ∧ pid.toNat < base + 0x20 then bits ||| 2 ^ (31 - (pid.toNat - base - 1))
        else bits) 0 |||
    (if modeled.any fun pid => base + 0x20 < pid.toNat then 1 else 0)

/-- `_bitmap` -/
def bitmap (modeled : List UInt8) (base : ℕ) : Bytes := be4 (bitmapBits modeled base)

/-- What the bits of a block's bitmap list. -/
def listed (base bits : ℕ) : List ℕ :=
  ((List.range 32).filter fun i => bits.testBit (31 - i)).map fun i => base + 1 + i

/-- The loop of `_supported`. -/
def supportedFrom (modeled : List UInt8) : List ℕ → List ℕ → List ℕ
  | [], found => found
  | base :: bases, found =>
      if base ≠ 0 ∧ base ∉ found then found
      else supportedFrom modeled bases (found ++ listed base (bitmapBits modeled base))

/-- `_supported` -/
def supported (modeled : List UInt8) : List ℕ := supportedFrom modeled [0x00, 0x20, 0x40] []

/-- `f"{n:X}"` -/
def hexText (n : ℕ) : Text :=
  if n < 16 then [hexChar n] else hexText (n / 16) ++ [hexChar (n % 16)]

/-- `f"{n:03X}"` -/
def hex3 (n : ℕ) : Text := List.replicate (3 - (hexText n).length) '0' ++ hexText n

/-- `[body[i:i + 7] for i in range(0, len(body), 7)]` -/
def sevens : Bytes → List Bytes
  | [] => []
  | b :: body => (b :: body.take 6) :: sevens (body.drop 6)
termination_by body => body.length
decreasing_by
  simp only [List.length_drop, List.length_cons]
  omega

/-- What Mode 09 sends before it is cut into frames. -/
def vinBody (vin : Bytes) : Bytes := 0x49 :: 0x02 :: 0x01 :: vin

/-- The frames of a VIN: six bytes, then seven at a time. -/
def vinFrames (vin : Bytes) : List Bytes := (vinBody vin).take 6 :: sevens ((vinBody vin).drop 6)

/-- `f"{i}: {_hex(f)}"` -/
def frameLine (i : ℕ) (frame : Bytes) : Text := natText i ++ ':' :: ' ' :: hexLine frame

/-- The lines of a VIN: its length, and the numbered frames. -/
def vinLines (vin : Bytes) : List Text :=
  hex3 (vinBody vin).length :: (vinFrames vin).mapIdx frameLine

/-- `f"{v:.1f}"` -/
def fixed1 (v : ℚ) : Text :=
  let tenths := (roundEven (|v| * 10)).toNat
  (if v < 0 then ['-'] else []) ++ natText (tenths / 10) ++ ['.', Nat.digitChar (tenths % 10)]

/-- `_obd` -/
def obd (r : Rounding) (vehicle : Vehicle) (sim : Simulator) (mode pid : UInt8) : List Text :=
  if mode = 0x01 then
    if pid.toNat % 0x20 = 0 ∧ (pid = 0 ∨ pid.toNat ∈ supported MODELED) then
      [hexLine (0x41 :: pid :: bitmap MODELED pid.toNat)]
    else match encode r pid (vehicle pid) with
      | some data =>
          let line := hexLine (0x41 :: pid :: data)
          if pid ∈ sim.twoEcu then [line, line] else [line]
      | none => [noDataText]
  else if mode = 0x09 ∧ pid = 0x00 then [hexLine [0x49, 0x00, 0x40, 0, 0, 0]]
  else if mode = 0x09 ∧ pid = 0x02 then vinLines SIM_VIN
  else [noDataText]

/-- `"SEARCHING..."` -/
def searchingText : Text := "SEARCHING...".toList

/-- `_answer`: the next state and the lines. -/
def answerTo (r : Rounding) (vehicle : Vehicle) (sim : Simulator) (cmd : Text) :
    Simulator × List Text :=
  if cmd = "ATZ".toList ∨ cmd = "ATWS".toList then (sim.reset, [[], BANNER])
  else if cmd = "ATI".toList then (sim, [BANNER])
  else if cmd = "ATE0".toList ∨ cmd = "ATE1".toList then
    ({ sim with echo := decide (cmd = "ATE1".toList) }, ["OK".toList])
  else if cmd = "ATDP".toList then (sim, [PROTOCOL])
  else if cmd = "ATRV".toList then
    (sim, [fixed1 (r.sub (vehicle 0x42) (r.rnd (3 / 10))) ++ ['V']])
  else if ['A', 'T'].isPrefixOf cmd ∧ 2 < cmd.length then (sim, ["OK".toList])
  else match cmd.length == 4, hexPairs cmd with
    | true, some [mode, pid] =>
        ({ sim with searched := true },
          (if sim.searched then [] else [searchingText]) ++ obd r vehicle sim mode pid)
    | _, _ => (sim, [['?']])

/-- `cmd.strip().upper().replace(" ", "")` -/
def normal (cmd : Text) : Text := (upper (strip cmd)).filter fun c => c != ' '

/-- `"\r".join(lines) + "\r\r>"` -/
def replyText (ls : List Text) : Text := ['\r'].intercalate ls ++ ['\r', '\r', '>']

/-- `handle`: the next state and the text of the reply. -/
def handle (r : Rounding) (vehicle : Vehicle) (sim : Simulator) (cmd : Text) : Simulator × Text :=
  let (sim', ls) := answerTo r vehicle sim (normal cmd)
  (sim', if sim'.echo then normal cmd ++ '\r' :: replyText ls else replyText ls)

/-! ## What the emulator prints -/

/-- A character a reply is made of: no prompt, no NUL, no line break. -/
def Plain (c : Char) : Prop := isKept c = true ∧ isNewline c = false

instance decidablePlain (c : Char) : Decidable (Plain c) := inferInstanceAs (Decidable (_ ∧ _))

theorem IsHex.isPlain {c : Char} (h : IsHex c) : Plain c := ⟨h.plain.2.2.1, h.plain.2.1⟩

theorem mem_hexLine {data : Bytes} {c : Char} (h : c ∈ hexLine data) : c = ' ' ∨ IsHex c := by
  have hjoin : ∀ ls : Bytes, c ∈ [' '].intercalate (ls.map hex2) → c = ' ' ∨ IsHex c := by
    intro ls
    induction ls with
    | nil => exact fun hc => absurd hc List.not_mem_nil
    | cons b ls ih =>
        have hb : c ∈ hex2 b → c = ' ' ∨ IsHex c := by
          intro hc
          have hdigits : c ∈ digits [b] := by rwa [digits, List.flatMap_singleton]
          exact Or.inr (isHex_digits hdigits)
        cases ls with
        | nil =>
            rw [List.map_singleton, List.intercalate_singleton]
            exact hb
        | cons b' ls =>
            rw [List.map_cons, List.map_cons, List.intercalate_cons_cons, List.mem_append,
              List.mem_append, List.mem_singleton, ← List.map_cons]
            rintro ((hc | hc) | hc)
            · exact hb hc
            · exact Or.inl hc
            · exact ih hc
  rw [hexLine, List.mem_append, List.mem_singleton] at h
  rcases h with h | h
  · exact hjoin data h
  · exact Or.inl h

theorem upper_digits (data : Bytes) : upper (digits data) = digits data := by
  rw [upper, List.map_congr_left fun c hc => (isHex_digits hc).plain.2.2.2.1, List.map_id']

/-- Digits hold no blank. -/
theorem filter_digits (data : Bytes) : (digits data).filter (fun c => c != ' ') = digits data := by
  rw [List.filter_eq_self]
  exact fun c hc => bne_iff_ne.mpr (isHex_digits hc).plain.2.2.2.2

theorem hex2_eq (b : UInt8) : hex2 b = digits [b] := by rw [digits, List.flatMap_singleton]

/-- A line of bytes says these bytes. -/
theorem spells_hexLine (data : Bytes) : Spells (hexLine data) data := by
  have hkept : (hexLine data).filter isKept = hexLine data := by
    rw [List.filter_eq_self]
    intro c hc
    rcases mem_hexLine hc with rfl | hc
    · rfl
    · exact hc.plain.2.2.1
  have hpack : ∀ ls : Bytes,
      ([' '].intercalate (ls.map hex2)).filter (fun c => c != ' ') = digits ls := by
    intro ls
    induction ls with
    | nil => rfl
    | cons b ls ih =>
        have hsplit : digits (b :: ls) = digits [b] ++ digits ls := by simp [digits]
        rw [hsplit]
        cases ls with
        | nil =>
            rw [List.map_singleton, List.intercalate_singleton, hex2_eq, filter_digits]
            exact (List.append_nil _).symm
        | cons b' ls =>
            rw [List.map_cons, List.map_cons, List.intercalate_cons_cons, List.filter_append,
              List.filter_append, ← List.map_cons, ih, hex2_eq, filter_digits]
            simp
  rw [Spells, hkept, hexLine, List.filter_append, hpack]
  simpa using upper_digits data

theorem request_eq (mode pid : UInt8) : request mode pid = digits [mode, pid] := by
  simp [digits, request]

/-- A request is spelled without blanks. -/
theorem spells_request (mode pid : UInt8) : Spells (request mode pid) [mode, pid] := by
  have hkept : (digits [mode, pid]).filter isKept = digits [mode, pid] := by
    rw [List.filter_eq_self]
    exact fun c hc => (isHex_digits hc).plain.2.2.1
  rw [Spells, request_eq, hkept, filter_digits, upper_digits]

/-- A request is taken as it is. -/
theorem normal_request (mode pid : UInt8) : normal (request mode pid) = request mode pid := by
  have hstrip := (spells_request mode pid).filter_strip
  have hkept : (request mode pid).filter isKept = request mode pid := by
    rw [List.filter_eq_self, request_eq]
    exact fun c hc => (isHex_digits hc).plain.2.2.1
  rw [hkept] at hstrip
  rw [normal, filter_upper, hstrip, request_eq, filter_digits, upper_digits]

/-- A request is neither a setting nor unknown. -/
theorem answerTo_request (r : Rounding) (vehicle : Vehicle) (sim : Simulator) (mode pid : UInt8) :
    answerTo r vehicle sim (request mode pid) =
      ({ sim with searched := true },
        (if sim.searched then [] else [searchingText]) ++ obd r vehicle sim mode pid) := by
  have hno : 'T' ∉ request mode pid := by
    rw [request_eq]
    intro hc
    obtain ⟨d, hd, hT⟩ := isHex_digits hc
    have hall : ∀ d < 16, 'T' ≠ hexChar d := by decide +kernel
    exact hall d hd hT
  have hne : ∀ t : Text, 'T' ∈ t → request mode pid ≠ t := by
    rintro t ht rfl
    exact hno ht
  have hsetting : ¬(['A', 'T'].isPrefixOf (request mode pid) = true ∧
      2 < (request mode pid).length) := by
    rintro ⟨hat, -⟩
    exact hno ((List.isPrefixOf_iff_prefix.mp hat).subset (by decide))
  have hlen : ((request mode pid).length == 4) = true := rfl
  have hpairs : hexPairs (request mode pid) = some [mode, pid] := by
    rw [request_eq, hexPairs_digits]
  unfold answerTo
  rw [if_neg (by rintro (h | h) <;> exact hne _ (by decide) h), if_neg (hne _ (by decide)),
    if_neg (by rintro (h | h) <;> exact hne _ (by decide) h), if_neg (hne _ (by decide)),
    if_neg (hne _ (by decide)), if_neg hsetting, hlen, hpairs]

/-! ## Characters of a reply -/

theorem isHex_hexText {n : ℕ} {c : Char} (h : c ∈ hexText n) : IsHex c := by
  fun_induction hexText n with
  | case1 n hn =>
      rw [List.mem_singleton] at h
      exact ⟨n, hn, h⟩
  | case2 n hn ih =>
      rcases List.mem_append.mp h with h | h
      · exact ih h
      · exact ⟨n % 16, Nat.mod_lt n (by decide), List.mem_singleton.mp h⟩

theorem isHex_hex3 {n : ℕ} {c : Char} (h : c ∈ hex3 n) : IsHex c := by
  rcases List.mem_append.mp h with h | h
  · exact ⟨0, by decide, (List.mem_replicate.mp h).2⟩
  · exact isHex_hexText h

theorem plain_digitChar : ∀ d < 10, Plain (Nat.digitChar d) := by decide +kernel

theorem plain_natText {n : ℕ} {c : Char} (h : c ∈ natText n) : Plain c := by
  obtain ⟨d, hd, rfl⟩ := BoardSync.exists_digit h
  exact plain_digitChar d hd

theorem plain_hexLine {data : Bytes} {c : Char} (h : c ∈ hexLine data) : Plain c := by
  rcases mem_hexLine h with rfl | h
  · decide
  · exact h.isPlain

theorem plain_fixed1 {v : ℚ} {c : Char} (h : c ∈ fixed1 v) : Plain c := by
  rw [fixed1, List.mem_append, List.mem_append, List.mem_cons, List.mem_singleton] at h
  rcases h with (h | h) | rfl | rfl
  · split at h
    · rw [List.mem_singleton.mp h]
      decide
    · exact absurd h List.not_mem_nil
  · exact plain_natText h
  · decide
  · exact plain_digitChar _ (Nat.mod_lt _ (by decide))

theorem plain_vinLines {vin : Bytes} {l : Text} (hl : l ∈ vinLines vin) : ∀ c ∈ l, Plain c := by
  intro c hc
  rcases List.mem_cons.mp hl with rfl | hl
  · exact (isHex_hex3 hc).isPlain
  · obtain ⟨i, hi, rfl⟩ := List.mem_mapIdx.mp hl
    rw [frameLine, List.mem_append, List.mem_cons, List.mem_cons] at hc
    rcases hc with hc | rfl | rfl | hc
    · exact plain_natText hc
    · decide
    · decide
    · exact plain_hexLine hc

theorem plain_obd {r : Rounding} {vehicle : Vehicle} {sim : Simulator} {mode pid : UInt8} {l : Text}
    (hl : l ∈ obd r vehicle sim mode pid) : ∀ c ∈ l, Plain c := by
  have hnone : ∀ c ∈ noDataText, Plain c := forall_char_of_all (by decide +kernel)
  unfold obd at hl
  split at hl
  · split at hl
    · rw [List.mem_singleton.mp hl]
      exact fun c hc => plain_hexLine hc
    · split at hl
      · next data _ =>
          have hline : l = hexLine (0x41 :: pid :: data) := by
            split at hl <;> simpa using hl
          rw [hline]
          exact fun c hc => plain_hexLine hc
      · rw [List.mem_singleton.mp hl]
        exact hnone
  · split at hl
    · rw [List.mem_singleton.mp hl]
      exact fun c hc => plain_hexLine hc
    · split at hl
      · exact plain_vinLines hl
      · rw [List.mem_singleton.mp hl]
        exact hnone

/-- What the emulator answers to anything. -/
theorem answerTo_cases (r : Rounding) (vehicle : Vehicle) (sim : Simulator) (cmd : Text) :
    (answerTo r vehicle sim cmd).1.twoEcu = sim.twoEcu ∧
      ((answerTo r vehicle sim cmd).2 ∈
          [[[], BANNER], [BANNER], ["OK".toList], [PROTOCOL], [['?']]] ∨
        (∃ v, (answerTo r vehicle sim cmd).2 = [fixed1 v ++ ['V']]) ∨
        ∃ mode pid, (answerTo r vehicle sim cmd).2 =
          (if sim.searched then [] else [searchingText]) ++ obd r vehicle sim mode pid) := by
  unfold answerTo
  by_cases hreset : cmd = "ATZ".toList ∨ cmd = "ATWS".toList
  · rw [if_pos hreset]
    exact ⟨rfl, by simp⟩
  rw [if_neg hreset]
  by_cases hident : cmd = "ATI".toList
  · rw [if_pos hident]
    exact ⟨rfl, by simp⟩
  rw [if_neg hident]
  by_cases hecho : cmd = "ATE0".toList ∨ cmd = "ATE1".toList
  · rw [if_pos hecho]
    exact ⟨rfl, by simp⟩
  rw [if_neg hecho]
  by_cases hproto : cmd = "ATDP".toList
  · rw [if_pos hproto]
    exact ⟨rfl, by simp⟩
  rw [if_neg hproto]
  by_cases hvolt : cmd = "ATRV".toList
  · rw [if_pos hvolt]
    exact ⟨rfl, Or.inr (Or.inl ⟨_, rfl⟩)⟩
  rw [if_neg hvolt]
  by_cases hset : ['A', 'T'].isPrefixOf cmd = true ∧ 2 < cmd.length
  · rw [if_pos hset]
    exact ⟨rfl, by simp⟩
  rw [if_neg hset]
  rcases cmd.length == 4 with _ | _
  · exact ⟨rfl, by simp⟩
  · rcases hexPairs cmd with _ | _ | ⟨mode, _ | ⟨pid, _ | ⟨b, bs⟩⟩⟩
    · exact ⟨rfl, by simp⟩
    · exact ⟨rfl, by simp⟩
    · exact ⟨rfl, by simp⟩
    · exact ⟨rfl, Or.inr (Or.inr ⟨mode, pid, rfl⟩)⟩
    · exact ⟨rfl, by simp⟩

/-- The lines of every answer. -/
theorem plain_answerTo {r : Rounding} {vehicle : Vehicle} {sim : Simulator} {cmd l : Text}
    (hl : l ∈ (answerTo r vehicle sim cmd).2) : ∀ c ∈ l, Plain c := by
  have hconst : ∀ c ∈ [[[], BANNER], [BANNER], ["OK".toList], [PROTOCOL], [['?']]].flatten.flatten,
      Plain c := forall_char_of_all (by decide +kernel)
  have hsearch : ∀ c ∈ searchingText, Plain c := forall_char_of_all (by decide +kernel)
  rcases (answerTo_cases r vehicle sim cmd).2 with hls | ⟨v, hv⟩ | ⟨mode, pid, hls⟩
  · intro c hc
    exact hconst c (List.mem_flatten.mpr ⟨l, List.mem_flatten.mpr ⟨_, hls, hl⟩, hc⟩)
  · rw [hv, List.mem_singleton] at hl
    rw [hl]
    intro c hc
    rcases List.mem_append.mp hc with hc | hc
    · exact plain_fixed1 hc
    · rw [List.mem_singleton.mp hc]
      decide
  · rw [hls, List.mem_append] at hl
    rcases hl with hl | hl
    · split at hl
      · exact absurd hl List.not_mem_nil
      · rw [List.mem_singleton.mp hl]
        exact hsearch
    · exact plain_obd hl

/-! ## The prompt -/

theorem prompt_notMem_normal {cmd : Text} (h : '>' ∉ cmd) : '>' ∉ normal cmd := by
  intro hc
  obtain ⟨c, hmem, hup⟩ := List.mem_map.mp (List.mem_of_mem_filter hc)
  rw [toUpper_eq_iff (by decide)] at hup
  rw [hup] at hmem
  exact h (BoardSync.mem_strip hmem)

theorem prompt_notMem_join {ls : List Text} (h : ∀ l ∈ ls, '>' ∉ l) : '>' ∉ ['\r'].intercalate ls := by
  induction ls with
  | nil => exact List.not_mem_nil
  | cons l ls ih =>
      have hl := h l List.mem_cons_self
      have hls := ih fun l' hl' => h l' (List.mem_cons_of_mem l hl')
      cases ls with
      | nil =>
          rw [List.intercalate_singleton]
          exact hl
      | cons l' ls =>
          rw [List.intercalate_cons_cons, List.mem_append, List.mem_append]
          rintro ((hc | hc) | hc)
          · exact hl hc
          · cases List.mem_singleton.mp hc
          · exact hls hc

/-- A reply has one prompt, and ends with it. -/
theorem handle_prompt (r : Rounding) (vehicle : Vehicle) (sim : Simulator) {cmd : Text}
    (hcmd : '>' ∉ cmd) :
    ∃ t, (handle r vehicle sim cmd).2 = t ++ ['>'] ∧ '>' ∉ t := by
  have hlines : ∀ l ∈ (answerTo r vehicle sim (normal cmd)).2, '>' ∉ l := by
    intro l hl hc
    have hplain := plain_answerTo hl '>' hc
    exact absurd hplain.1 (by decide)
  have hjoin := prompt_notMem_join hlines
  unfold handle replyText
  dsimp only
  split
  · refine ⟨normal cmd ++ '\r' :: (['\r'].intercalate (answerTo r vehicle sim (normal cmd)).2 ++
      ['\r', '\r']), by simp, ?_⟩
    simp only [List.mem_append, List.mem_cons, List.not_mem_nil, or_false, not_or]
    exact ⟨prompt_notMem_normal hcmd, by decide, hjoin, by decide, by decide⟩
  · refine ⟨['\r'].intercalate (answerTo r vehicle sim (normal cmd)).2 ++ ['\r', '\r'], by simp, ?_⟩
    simp only [List.mem_append, List.mem_cons, List.not_mem_nil, or_false, not_or]
    exact ⟨hjoin, by decide, by decide⟩

/-! ## Reading the reply to a request -/

theorem lines_replyText (ls : List Text) : lines (replyText ls) = ls.flatMap lines := by
  rw [replyText, lines_append _ _ rfl, lines_join]
  exact List.append_nil _

/-- The lines of the reply to a request: what is echoed, what is announced,
and the answer. -/
theorem lines_handle (r : Rounding) (vehicle : Vehicle) (sim : Simulator) (mode pid : UInt8) :
    lines (handle r vehicle sim (request mode pid)).2 =
      (if sim.echo then lines (request mode pid) else []) ++
      ((if sim.searched then [] else [searchingText]) ++
        (obd r vehicle sim mode pid).flatMap lines) := by
  have hsearch : (if sim.searched = true then [] else [searchingText]).flatMap lines =
      if sim.searched = true then [] else [searchingText] := by
    split
    · rfl
    · decide +kernel
  unfold handle
  rw [normal_request, answerTo_request]
  dsimp only
  by_cases hecho : sim.echo = true
  · rw [if_pos hecho, if_pos hecho, lines_append _ _ rfl, lines_replyText, List.flatMap_append, hsearch]
  · rw [if_neg hecho, if_neg hecho, lines_replyText, List.flatMap_append, hsearch, List.nil_append]

/-- Before the answer to a request nothing is read. -/
theorem collect_handle (r : Rounding) (vehicle : Vehicle) (sim : Simulator) (mode pid : UInt8) :
    collect mode pid (lines (handle r vehicle sim (request mode pid)).2) =
      collect mode pid ((obd r vehicle sim mode pid).flatMap lines) := by
  rw [lines_handle, ← List.append_assoc]
  apply collect_append_idle
  intro line hline
  rcases List.mem_append.mp hline with hline | hline
  · -- the echo: its first byte is the mode, an answer's is the mode plus 0x40
    right
    split at hline
    · rw [lines_of_spells (spells_request mode pid) (List.cons_ne_nil _ _), List.mem_singleton] at hline
      have hbytes := hexBytes_of_spells (spells_request mode pid) (List.cons_ne_nil _ _)
      rw [← hline] at hbytes
      refine ⟨(checkText_of_hex hbytes).2, ?_⟩
      rw [answer, hbytes]
      exact if_neg fun h => by omega
    · exact absurd hline List.not_mem_nil
  · left
    split at hline
    · exact absurd hline List.not_mem_nil
    · rw [List.mem_singleton.mp hline]
      decide

/-- What the engine answers to one Mode 01 request, and a second ECU after it. -/
def reading (r : Rounding) (vehicle : Vehicle) (twoEcu : List UInt8) (pid : UInt8) :
    Except Failure (List Bytes) :=
  if pid.toNat % 0x20 = 0 ∧ (pid = 0 ∨ pid.toNat ∈ supported MODELED) then
    .ok [bitmap MODELED pid.toNat]
  else match encode r pid (vehicle pid) with
    | some data => .ok (if pid ∈ twoEcu then [data, data] else [data])
    | none => .error (.noData noDataText)

/-- A line of bytes among the lines of an answer. -/
theorem collect_hexLine (pid : UInt8) (data : Bytes) (rest : List Text) :
    collect 1 pid (lines (hexLine (0x41 :: pid :: data)) ++ rest) =
      (collect 1 pid rest).map fun found => data :: found := by
  have hspells := spells_hexLine (0x41 :: pid :: data)
  have hbytes := hexBytes_of_spells hspells (List.cons_ne_nil _ _)
  have hcheck := checkText_of_hex hbytes
  have hanswer : answer 1 pid (clean ((hexLine (0x41 :: pid :: data)).filter isKept)) = some data := by
    rw [answer, hbytes]
    exact if_pos ⟨rfl, rfl⟩
  rw [lines_of_spells hspells (List.cons_ne_nil _ _), List.singleton_append, collect,
    if_neg hcheck.1, hcheck.2, hanswer]
  cases collect 1 pid rest <;> rfl

/-- Whatever state the emulator is in, with or without echo, its reply to a
Mode 01 request is read as what the engine answers. -/
theorem parseAll_handle (r : Rounding) (vehicle : Vehicle) (sim : Simulator) (pid : UInt8) :
    parseAll (handle r vehicle sim (request 1 pid)).2 1 pid = reading r vehicle sim.twoEcu pid := by
  have hone : ∀ data, collect 1 pid ([hexLine (0x41 :: pid :: data)].flatMap lines) = .ok [data] := by
    intro data
    rw [List.flatMap_cons, collect_hexLine]
    rfl
  have htwo : ∀ data, collect 1 pid
      ([hexLine (0x41 :: pid :: data), hexLine (0x41 :: pid :: data)].flatMap lines) =
        .ok [data, data] := by
    intro data
    rw [List.flatMap_cons, collect_hexLine, hone]
    rfl
  have hlines : lines noDataText = [noDataText] := by decide +kernel
  rw [parseAll, collect_handle, reading, obd, if_pos rfl]
  split
  · rw [hone]
    rfl
  · split
    · dsimp only
      split
      · rw [htwo]
        rfl
      · rw [hone]
        rfl
    · rw [List.flatMap_cons, hlines, List.flatMap_nil, List.append_nil, collect,
        if_neg (by decide)]
      rfl

end Carwatch.Obd
