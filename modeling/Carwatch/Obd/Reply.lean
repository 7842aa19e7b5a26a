import Carwatch.BoardSync.Text
import Carwatch.Lib.Bytes

/-!
# Carwatch.Obd.Reply — reading the adapter's text (`tools/obdlib.py`)

What an ELM327 adapter prints for one request, and what the tools make of
it. A text comes out of `decode("ascii", errors="replace")`, so the only
letters whose case changes are those of ASCII.

* `lines`, `hexBytes`, `parseAll` — the reader;
* `lines_append`, `lines_join` — a text is read line by line;
* `Spells` — a line that says these bytes, in either case, with blanks, NUL
  bytes and prompts anywhere in it;
* `collect_eq` — lines without an error text are read as the answers among
  them, in order.
-/

namespace Carwatch.Obd

open Carwatch.Lib (Bytes)
open Carwatch.BoardSync (Text isSpace strip rstrip Blank)

/-! ## Hexadecimal digits -/

/-- A digit of `{x:X}`. -/
def hexChar (d : ℕ) : Char := Char.ofNat (if d < 10 then 0x30 + d else 0x37 + d)

/-- `f"{b:02X}"` -/
def hex2 (b : UInt8) : Text := [hexChar (b.toNat / 16), hexChar (b.toNat % 16)]

/-- The digits of a byte string, two for each byte. -/
def digits (data : Bytes) : Text := data.flatMap hex2

/-- `[0-9A-F]`, and what `bytes.fromhex` makes of it. -/
def hexValue (c : Char) : Option ℕ :=
  if 0x30 ≤ c.toNat ∧ c.toNat ≤ 0x39 then some (c.toNat - 0x30)
  else if 0x41 ≤ c.toNat ∧ c.toNat ≤ 0x46 then some (c.toNat - 0x37)
  else none

/-- `(?:[0-9A-F]{2})*` and the bytes it stands for. -/
def hexPairs : Text → Option Bytes
  | [] => some []
  | [_] => none
  | a :: b :: t =>
      match hexValue a, hexValue b, hexPairs t with
      | some x, some y, some data => some (UInt8.ofNat (16 * x + y) :: data)
      | _, _, _ => none

/-! ## The reader -/

/-- The exceptions of `obdlib`, each with its text. -/
inductive Failure where
  | noData (text : Text)
  | busAsleep (text : Text)
  | adapterError (text : Text)
deriving DecidableEq, Repr

/-- `_ASLEEP_TEXT` -/
def asleepText : List Text := ["UNABLE TO CONNECT", "CAN ERROR"].map String.toList

/-- `_ERROR_TEXT` -/
def errorText : List Text :=
  ["?", "BUFFER FULL", "STOPPED", "BUS BUSY", "BUS ERROR", "DATA ERROR", "<DATA ERROR", "FB ERROR",
    "LV RESET", "ACT ALERT", "BUS INIT: ...ERROR", "BUS INIT: ERROR", "BUS INIT:...ERROR",
    "ERROR"].map String.toList

/-- `_SKIP_TEXT` -/
def skipText : List Text :=
  ["SEARCHING...", "BUS INIT: ...OK", "BUS INIT: OK", "BUS INIT:...OK"].map String.toList

/-- `"NO DATA"` -/
def noDataText : Text := "NO DATA".toList

/-- `request` -/
def request (mode pid : UInt8) : Text := hex2 mode ++ hex2 pid

/-- `[\r\n]` -/
def isNewline (c : Char) : Bool := c == '\r' || c == '\n'

/-- What `_lines` does not throw away. -/
def isKept (c : Char) : Bool := c != '>' && c != Char.ofNat 0

/-- `str.upper` -/
def upper (t : Text) : Text := t.map Char.toUpper

/-- One line as `_lines` cleans it. -/
def clean (line : Text) : Text := upper (strip line)

/-- `_lines`. A run of separators only makes empty lines, which are dropped. -/
def lines (raw : Text) : List Text :=
  (((raw.filter isKept).splitOnP isNewline).map clean).filter fun line => !line.isEmpty

/-- `_hex_bytes` -/
def hexBytes (line : Text) : Option Bytes :=
  match line.filter fun c => c != ' ' with
  | [] => none
  | packed => hexPairs packed

/-- The equality test that finds a line among the fixed texts is lawful. -/
local instance lawfulText : LawfulBEq Text := inferInstance

/-- `_check_text` -/
def checkText (line : Text) : Except Failure Unit :=
  if line = noDataText then .error (.noData noDataText)
  else if line ∈ asleepText then .error (.busAsleep line)
  else if line ∈ errorText then .error (.adapterError line)
  else .ok ()

/-- `check_bus` -/
def checkBus (raw : Text) : Except Failure Unit :=
  match (lines raw).find? fun line => decide (line ∈ asleepText) with
  | some line => .error (.busAsleep line)
  | none => .ok ()

/-- The bytes behind `want`, in a line that answers the request. -/
def answer (mode pid : UInt8) (line : Text) : Option Bytes :=
  match hexBytes line with
  | some (m :: p :: data) => if m.toNat = mode.toNat + 0x40 ∧ p = pid then some data else none
  | _ => none

/-- The loop of `parse_all` over the lines. -/
def collect (mode pid : UInt8) : List Text → Except Failure (List Bytes)
  | [] => .ok []
  | line :: rest =>
      if line ∈ skipText then collect mode pid rest
      else do
        checkText line
        let found ← collect mode pid rest
        .ok ((answer mode pid line).toList ++ found)

/-- `parse_all` -/
def parseAll (raw : Text) (mode pid : UInt8) : Except Failure (List Bytes) := do
  let found ← collect mode pid (lines raw)
  if found = [] then
    .error (.adapterError (if lines raw = [] then "empty reply" else "no matching reply").toList)
  else .ok found

/-- `parse_response`: the first answer. -/
def parseResponse (raw : Text) (mode pid : UInt8) : Except Failure Bytes := do
  let found ← parseAll raw mode pid
  .ok (found.headD [])

example : parseAll "SEARCHING...\r41 0c 1A F8 \r\n41 0C 00 01\r\r>".toList 1 0x0C
    = .ok [[0x1A, 0xF8], [0, 1]] := by decide +kernel

/-! ## Digits -/

theorem hexValue_hexChar : ∀ d < 16, hexValue (hexChar d) = some d := by decide

theorem hexPairs_digits (data : Bytes) : hexPairs (digits data) = some data := by
  induction data with
  | nil => rfl
  | cons b data ih =>
      have hb := b.toNat_lt
      have hhigh := hexValue_hexChar (b.toNat / 16) (by omega)
      have hlow := hexValue_hexChar (b.toNat % 16) (Nat.mod_lt _ (by decide))
      have hbyte : UInt8.ofNat (16 * (b.toNat / 16) + b.toNat % 16) = b := by
        rw [Nat.div_add_mod]
        exact UInt8.ofNat_toNat
      have hsplit : digits (b :: data)
          = hexChar (b.toNat / 16) :: hexChar (b.toNat % 16) :: digits data := rfl
      rw [hsplit, hexPairs, hhigh, hlow, ih]
      exact congrArg (fun b => some (b :: data)) hbyte

/-- The sixteen digits of an upper-case number. -/
def IsHex (c : Char) : Prop := ∃ d < 16, c = hexChar d

theorem isHex_digits {d : Bytes} {c : Char} (h : c ∈ digits d) : IsHex c := by
  obtain ⟨b, -, hc⟩ := List.mem_flatMap.mp h
  have hb := b.toNat_lt
  rcases List.mem_cons.mp hc with rfl | hc
  · exact ⟨_, by omega, rfl⟩
  · rw [List.mem_singleton] at hc
    exact ⟨_, Nat.mod_lt _ (by decide), hc⟩

/-- What a digit is not. -/
theorem IsHex.plain {c : Char} (h : IsHex c) :
    isSpace c = false ∧ isNewline c = false ∧ isKept c = true ∧ c.toUpper = c ∧ c ≠ ' ' := by
  obtain ⟨d, hd, rfl⟩ := h
  have hall : ∀ d < 16, isSpace (hexChar d) = false ∧ isNewline (hexChar d) = false ∧
      isKept (hexChar d) = true ∧ (hexChar d).toUpper = hexChar d ∧ hexChar d ≠ ' ' := by
    decide +kernel
  exact hall d hd

/-- The digits in either case. -/
theorem IsHex.of_upper {c : Char} (h : IsHex c.toUpper) :
    isSpace c = false ∧ isNewline c = false := by
  by_cases hlow : 97 ≤ c.toNat ∧ c.toNat ≤ 122
  · have hspace : ∀ n, 97 ≤ n → n ≤ 122 → isSpace (Char.ofNat n) = false ∧
        isNewline (Char.ofNat n) = false := by decide +kernel
    have hc := hspace c.toNat hlow.1 hlow.2
    rwa [Char.ofNat_toNat] at hc
  · have hself : c.toUpper = c := by
      refine dif_neg fun hle => hlow ⟨?_, ?_⟩
      · exact UInt32.le_iff_toNat_le.mp hle.1
      · exact UInt32.le_iff_toNat_le.mp hle.2
    rw [hself] at h
    exact ⟨h.plain.1, h.plain.2.1⟩

/-- A property of every character of a fixed text, by running over the text
and not over all characters there are. -/
theorem forall_char_of_all {p : Char → Prop} [DecidablePred p] {t : Text}
    (h : (t.all fun c => decide (p c)) = true) : ∀ c ∈ t, p c :=
  fun c hc => of_decide_eq_true (List.all_eq_true.mp h c hc)

/-! ## Lines -/

theorem isKept_of_isNewline {c : Char} (hc : isNewline c = true) : isKept c = true := by
  rw [isNewline, Bool.or_eq_true, beq_iff_eq, beq_iff_eq] at hc
  rcases hc with rfl | rfl <;> rfl

@[simp] theorem lines_nil : lines [] = [] := rfl

/-- Reading goes line by line. -/
theorem lines_append (a b : Text) {c : Char} (hc : isNewline c = true) :
    lines (a ++ c :: b) = lines a ++ lines b := by
  unfold lines
  rw [List.filter_append, List.filter_cons_of_pos (isKept_of_isNewline hc),
    List.splitOnP_append_cons _ _ hc, List.map_append, List.filter_append]

/-- A text without a line break is one line, or none. -/
theorem lines_of_line {a : Text} (h : ∀ c ∈ a, isNewline c = false) :
    lines a = [clean (a.filter isKept)].filter fun line => !line.isEmpty := by
  unfold lines
  rw [List.splitOnP_eq_singleton fun c hc => h c (List.mem_of_mem_filter hc), List.map_singleton]

/-- Lines put together with carriage returns are read one by one. -/
theorem lines_join (ls : List Text) : lines (['\r'].intercalate ls) = ls.flatMap lines := by
  induction ls with
  | nil => rfl
  | cons l ls ih =>
      rw [List.flatMap_cons]
      cases ls with
      | nil => rw [List.intercalate_singleton, List.flatMap_nil, List.append_nil]
      | cons l' ls =>
          rw [List.intercalate_cons_cons, List.append_assoc, List.singleton_append,
            lines_append _ _ rfl, ih]

/-! ## Lines of digits -/

/-- `line` says `data`: its digits are those of `data`, in either case. -/
def Spells (line : Text) (data : Bytes) : Prop :=
  upper ((line.filter isKept).filter fun c => c != ' ') = digits data

theorem Spells.char {line : Text} {data : Bytes} (h : Spells line data) {c : Char} (hc : c ∈ line)
    (hkept : isKept c = true) (hblank : c ≠ ' ') : IsHex c.toUpper := by
  apply isHex_digits (d := data)
  rw [← h]
  refine List.mem_map_of_mem (List.mem_filter.mpr ⟨List.mem_filter.mpr ⟨hc, hkept⟩, ?_⟩)
  exact bne_iff_ne.mpr hblank

theorem Spells.newline {line : Text} {data : Bytes} (h : Spells line data) :
    ∀ c ∈ line, isNewline c = false := by
  intro c hc
  by_cases hkept : isKept c = true
  · by_cases hblank : c = ' '
    · rw [hblank]
      rfl
    · exact (h.char hc hkept hblank).of_upper.2
  · rw [Bool.eq_false_iff]
    exact fun hnew => hkept (isKept_of_isNewline hnew)

/-- Stripping such a line takes blanks away and nothing else. -/
theorem Spells.filter_strip {line : Text} {data : Bytes} (h : Spells line data) :
    (strip (line.filter isKept)).filter (fun c => c != ' ')
      = (line.filter isKept).filter fun c => c != ' ' := by
  obtain ⟨w, w', hw, hw', heq⟩ := BoardSync.exists_strip (line.filter isKept)
  have hblank : ∀ v : Text, Blank v → (∀ c ∈ v, c ∈ line.filter isKept) →
      v.filter (fun c => c != ' ') = [] := by
    intro v hv hmem
    rw [List.filter_eq_nil_iff]
    intro c hc hne
    have hin := List.mem_filter.mp (hmem c hc)
    have hspace := (h.char hin.1 hin.2 (bne_iff_ne.mp hne)).of_upper.1
    rw [hv c hc] at hspace
    cases hspace
  conv_rhs => rw [heq]
  rw [List.filter_append, List.filter_append, hblank w hw, hblank w' hw', List.nil_append,
    List.append_nil]
  · intro c hc
    rw [heq]
    exact List.mem_append_right _ hc
  · intro c hc
    rw [heq]
    exact List.mem_append_left _ (List.mem_append_left _ hc)

/-- What is no capital letter is the capital of nothing else. -/
theorem toUpper_eq_iff {d : Char} (hd : d.toNat < 65 ∨ 122 < d.toNat) {c : Char} :
    c.toUpper = d ↔ c = d := by
  have hself : ∀ {c : Char}, ¬(97 ≤ c.toNat ∧ c.toNat ≤ 122) → c.toUpper = c := by
    intro c hc
    refine dif_neg fun hle => hc ⟨?_, ?_⟩
    · exact UInt32.le_iff_toNat_le.mp hle.1
    · exact UInt32.le_iff_toNat_le.mp hle.2
  constructor
  · intro h
    by_cases hlow : 97 ≤ c.toNat ∧ c.toNat ≤ 122
    · have hall : ∀ n, 97 ≤ n → n ≤ 122 →
          65 ≤ (Char.ofNat n).toUpper.toNat ∧ (Char.ofNat n).toUpper.toNat ≤ 90 := by decide +kernel
      have hrange := hall c.toNat hlow.1 hlow.2
      rw [Char.ofNat_toNat, h] at hrange
      omega
    · rwa [hself hlow] at h
  · rintro rfl
    exact hself (by omega)

theorem filter_upper (t : Text) :
    (upper t).filter (fun c => c != ' ') = upper (t.filter fun c => c != ' ') := by
  have hcomp : (fun c : Char => c != ' ') ∘ Char.toUpper = fun c => c != ' ' := by
    funext c
    rw [Function.comp_apply, Bool.eq_iff_iff, bne_iff_ne, bne_iff_ne, Ne, toUpper_eq_iff (by decide)]
  rw [upper, List.filter_map, hcomp]
  rfl

theorem digits_ne_nil {data : Bytes} (h : data ≠ []) : digits data ≠ [] := by
  cases data with
  | nil => exact absurd rfl h
  | cons b data => exact List.cons_ne_nil _ _

/-- A line that says `data` is read as `data`. -/
theorem hexBytes_of_spells {line : Text} {data : Bytes} (h : Spells line data) (hne : data ≠ []) :
    hexBytes (clean (line.filter isKept)) = some data := by
  have hpacked : (clean (line.filter isKept)).filter (fun c => c != ' ') = digits data := by
    rw [clean, filter_upper, h.filter_strip]
    exact h
  unfold hexBytes
  rw [hpacked]
  split
  · next hnil => exact absurd hnil (digits_ne_nil hne)
  · exact hexPairs_digits data

/-- A line that says something is one line. -/
theorem lines_of_spells {line : Text} {data : Bytes} (h : Spells line data) (hne : data ≠ []) :
    lines line = [clean (line.filter isKept)] := by
  have hsome : clean (line.filter isKept) ≠ [] := by
    intro hnil
    have hbytes := hexBytes_of_spells h hne
    rw [hnil] at hbytes
    cases hbytes
  rw [lines_of_line h.newline, List.filter_cons_of_pos, List.filter_nil]
  rw [Bool.not_eq_true', List.isEmpty_eq_false_iff]
  exact hsome

/-! ## Answers -/

/-- The texts of the adapter are no digits. -/
theorem hexBytes_text {line : Text}
    (h : line ∈ skipText ∨ line = noDataText ∨ line ∈ asleepText ∨ line ∈ errorText) :
    hexBytes line = none := by
  have hall : ∀ t ∈ skipText ++ noDataText :: asleepText ++ errorText, hexBytes t = none := by
    decide +kernel
  apply hall
  rcases h with h | rfl | h | h <;> simp [*]

/-- A line of digits is no text of the adapter. -/
theorem checkText_of_hex {line : Text} {data : Bytes} (h : hexBytes line = some data) :
    line ∉ skipText ∧ checkText line = .ok () := by
  have hno : ∀ {p : Prop}, (p → hexBytes line = none) → ¬p := by
    intro p hp hin
    rw [hp hin] at h
    cases h
  constructor
  · exact hno fun hin => hexBytes_text (Or.inl hin)
  · rw [checkText, if_neg (hno fun heq => hexBytes_text (Or.inr (Or.inl heq))),
      if_neg (hno fun hin => hexBytes_text (Or.inr (Or.inr (Or.inl hin)))),
      if_neg (hno fun hin => hexBytes_text (Or.inr (Or.inr (Or.inr hin))))]

/-- Lines without an error text are read as the answers among them. -/
theorem collect_eq {mode pid : UInt8} {ls : List Text}
    (h : ∀ line ∈ ls, line ∈ skipText ∨ checkText line = .ok ()) :
    collect mode pid ls = .ok (ls.flatMap fun line => (answer mode pid line).toList) := by
  induction ls with
  | nil => rfl
  | cons line ls ih =>
      have hrest := ih fun l hl => h l (List.mem_cons_of_mem line hl)
      rw [collect, List.flatMap_cons]
      by_cases hskip : line ∈ skipText
      · have hnone : answer mode pid line = none := by
          rw [answer, hexBytes_text (Or.inl hskip)]
        rw [if_pos hskip, hrest, hnone]
        rfl
      · have hok := (h line List.mem_cons_self).resolve_left hskip
        rw [if_neg hskip, hok, hrest]
        rfl

/-- Lines that are read but answer nothing. -/
theorem collect_append_idle {mode pid : UInt8} {ls rest : List Text}
    (h : ∀ line ∈ ls, line ∈ skipText ∨ checkText line = .ok () ∧ answer mode pid line = none) :
    collect mode pid (ls ++ rest) = collect mode pid rest := by
  induction ls with
  | nil => rfl
  | cons line ls ih =>
      have hrest := ih fun l hl => h l (List.mem_cons_of_mem line hl)
      rw [List.cons_append, collect, hrest]
      by_cases hskip : line ∈ skipText
      · rw [if_pos hskip]
      · obtain ⟨hok, hnone⟩ := (h line List.mem_cons_self).resolve_left hskip
        rw [if_neg hskip, hok, hnone]
        cases collect mode pid rest <;> rfl

end Carwatch.Obd
