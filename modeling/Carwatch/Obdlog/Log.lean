import Carwatch.Lib.JsonText
import Mathlib.Data.Rat.Defs

/-!
# Carwatch.Obdlog.Log — the drive log (`LogWriter` and `read_log` of `tools/obdlog.py`)

One JSON object per line. `LogWriter.write` appends a record; `read_log` reads
every complete line of a file that may have been cut anywhere.

* **Model layer**: `PyVal`, `PyVal.dumps` (`json.dumps` with ASCII escaping and
  without white space), `LogWriter.write`, `readLog`. `json.loads` is a
  parameter.
* **Texts**: `dumps_ok` — what `dumps` makes is JSON in printable ASCII.
* **Cut**: `readLines_take`, by induction over the records, and
  `read_log_of_cut`.
-/

namespace Carwatch.Obdlog

open Carwatch.Lib

/-! ## Values -/

/-- A character of a Python string; a lone surrogate is one. -/
abbrev CodePoint := Fin 0x110000

/-- A Python string. -/
abbrev Text := List CodePoint

/-- `chr` -/
def chr (n : ℕ) : CodePoint := Fin.ofNat 0x110000 n

/-- A string literal. -/
def text (s : String) : Text := s.toList.map fun c => chr c.toNat

/-- A number as it is printed. -/
structure NumText where
  text : Bytes
  isNumber : IsNumber text

/-- What a field of a record can hold. The members of a dictionary are in the
order of their insertion. -/
inductive PyVal where
  | none
  | bool (b : Bool)
  | num (n : NumText)
  | str (s : Text)
  | list (vs : List PyVal)
  | dict (ms : List (Text × PyVal))

/-- An `int` that is not negative. -/
def natNum (n : ℕ) : NumText where
  text := printNat 10 (n + 1) n
  isNumber := by
    have hpow : n < 10 ^ (n + 1) := lt_of_lt_of_le Nat.lt_two_pow_self
      ((Nat.pow_le_pow_left (by decide) n).trans (Nat.pow_le_pow_right (by decide) (Nat.le_succ n)))
    exact isNumber_of_isInt (.inl rfl) (isInt_printNat hpow)

/-! ## `json.dumps` -/

/-- `\uXXXX` of a number of 16 bits. -/
def uEscape (n : ℕ) : Bytes :=
  [0x5C, 0x75, digitChar (n / 4096 % 16), digitChar (n / 256 % 16), digitChar (n / 16 % 16),
    digitChar (n % 16)]

/-- A character of a string; one beyond 16 bits becomes two surrogates. -/
def dumpChar (c : CodePoint) : Bytes :=
  if c.val = 0x22 then [0x5C, 0x22]
  else if c.val = 0x5C then [0x5C, 0x5C]
  else if c.val = 0x0A then [0x5C, 0x6E]
  else if c.val = 0x0D then [0x5C, 0x72]
  else if c.val = 0x09 then [0x5C, 0x74]
  else if c.val = 0x0C then [0x5C, 0x66]
  else if c.val = 0x08 then [0x5C, 0x62]
  else if 0x20 ≤ c.val ∧ c.val ≤ 0x7E then [UInt8.ofNat c.val]
  else if c.val < 0x10000 then uEscape c.val
  else uEscape (0xD800 + (c.val - 0x10000) / 0x400) ++ uEscape (0xDC00 + (c.val - 0x10000) % 0x400)

/-- A string in its quotes. -/
def dumpStr (s : Text) : Bytes := 0x22 :: (s.flatMap dumpChar ++ [0x22])

mutual

/-- `json.dumps` with `separators=(",", ":")` -/
def PyVal.dumps : PyVal → Bytes
  | .none => nullWord
  | .bool true => trueWord
  | .bool false => falseWord
  | .num n => n.text
  | .str s => dumpStr s
  | .list [] => [0x5B, 0x5D]
  | .list (v :: vs) => 0x5B :: ((v.dumps ++ dumpItems vs) ++ [0x5D])
  | .dict [] => [0x7B, 0x7D]
  | .dict ((k, v) :: ms) => 0x7B :: ((dumpStr k ++ 0x3A :: v.dumps) ++ dumpMembers ms ++ [0x7D])

/-- The items of an array behind its first, each with its comma. -/
def dumpItems : List PyVal → Bytes
  | [] => []
  | v :: vs => 0x2C :: (v.dumps ++ dumpItems vs)

/-- The members of an object behind its first, each with its comma. -/
def dumpMembers : List (Text × PyVal) → Bytes
  | [] => []
  | (k, v) :: ms => 0x2C :: ((dumpStr k ++ 0x3A :: v.dumps) ++ dumpMembers ms)

end

/-! ## `LogWriter` -/

/-- `LogWriter`; `file` is all that was written, `synced` how much of it was
forced to the disk. -/
structure LogWriter where
  src : Text
  fsyncLines : ℤ
  fsyncSec : ℚ
  lastSync : ℚ
  file : Bytes := []
  synced : ℕ := 0
  seq : ℕ := 0
  unsynced : ℕ := 0

/-- A call of `write`: its arguments, and what the clocks say during it. -/
structure Entry where
  rtype : Text
  fields : List (Text × PyVal)
  tMono : NumText
  tWall : Text
  now : ℚ
  syncedAt : ℚ

/-- `RESERVED` -/
def reserved : List Text := [text "type", text "src", text "seq", text "t_mono", text "t_wall"]

def isReserved (k : Text) : Bool := decide (k ∈ reserved)

/-- The clash of the fields with `RESERVED`. -/
def clash (fields : List (Text × PyVal)) : Bool := fields.any fun f => isReserved f.1

/-- The record that `write` makes. -/
def Entry.record (e : Entry) (src : Text) (seq : ℕ) : PyVal :=
  .dict ((text "type", .str e.rtype) :: (text "src", .str src) :: (text "seq", .num (natNum seq)) ::
    (text "t_mono", .num e.tMono) :: (text "t_wall", .str e.tWall) :: e.fields)

namespace LogWriter

/-- `LogWriter.__init__`, on a new file -/
def init (src : Text) (fsyncLines : ℤ) (fsyncSec now : ℚ) : LogWriter where
  src := src
  fsyncLines := fsyncLines
  fsyncSec := fsyncSec
  lastSync := now

/-- `LogWriter.sync` -/
def sync (w : LogWriter) (now : ℚ) : LogWriter :=
  { w with synced := w.file.length, unsynced := 0, lastSync := now }

/-- `LogWriter.write`; `none` is the `ValueError`. -/
def write (w : LogWriter) (e : Entry) : Option LogWriter :=
  if clash e.fields then none
  else
    let w := { w with
      file := w.file ++ ((e.record w.src w.seq).dumps ++ [0x0A])
      seq := w.seq + 1
      unsynced := w.unsynced + 1 }
    some (if w.fsyncLines ≤ w.unsynced ∨ w.fsyncSec ≤ e.now - w.lastSync then w.sync e.syncedAt else w)

/-- Calls of `write`, one after another, all of them accepted. -/
def writeAll : LogWriter → List Entry → Option LogWriter
  | w, [] => some w
  | w, e :: es => (w.write e).bind fun w => w.writeAll es

end LogWriter

/-- The records of calls of `write`, from a sequence number on. -/
def recordsFrom (src : Text) : ℕ → List Entry → List PyVal
  | _, [] => []
  | seq, e :: es => e.record src seq :: recordsFrom src (seq + 1) es

/-! ## `read_log` -/

/-- What reading in text mode does to the ends of lines. -/
def universalNewlines : Bytes → Bytes
  | 0x0D :: 0x0A :: s => 0x0A :: universalNewlines s
  | 0x0D :: s => 0x0A :: universalNewlines s
  | c :: s => c :: universalNewlines s
  | [] => []

/-- The loop of `read_log` over the lines; `none` where it raises. -/
def readLines (loads : Bytes → Option PyVal) : List Bytes → Option (List PyVal × Bool)
  | [] => some ([], false)
  | line :: lines =>
      if line = [] then readLines loads lines
      else
        match loads line with
        | some v => (readLines loads lines).map fun r => (v :: r.1, r.2)
        | none => if lines = [] then some ([], true) else none

/-- `read_log`: the records, and whether a torn last line was dropped. A string
is its UTF-8 here; `none` where it raises. -/
def readLog (loads : Bytes → Option PyVal) (file : Bytes) : Option (List PyVal × Bool) :=
  if file.toByteArray.IsValidUTF8 then readLines loads ((universalNewlines file).splitOn 0x0A)
  else none

/-! ## What `dumps` makes -/

/-- Printable ASCII. -/
def IsPlain (t : Bytes) : Prop := ∀ c ∈ t, 0x20 ≤ c ∧ c ≤ 0x7E

instance isPlainDecidable (t : Bytes) : Decidable (IsPlain t) :=
  List.decidableBAll (fun c => 0x20 ≤ c ∧ c ≤ 0x7E) t

theorem IsPlain.append {s t : Bytes} (hs : IsPlain s) (ht : IsPlain t) : IsPlain (s ++ t) := by
  intro c hc
  rcases List.mem_append.mp hc with hin | hin
  · exact hs c hin
  · exact ht c hin

theorem IsPlain.cons {c : UInt8} {t : Bytes} (hc : 0x20 ≤ c ∧ c ≤ 0x7E) (ht : IsPlain t) :
    IsPlain (c :: t) := by
  intro e he
  rcases List.mem_cons.mp he with rfl | hin
  · exact hc
  · exact ht e hin

theorem isPlain_nil : IsPlain [] := fun _ hc => absurd hc List.not_mem_nil

theorem hexDigit_ok : ∀ d < 16, isHexDigit (digitChar d) = true ∧
    0x20 ≤ digitChar d ∧ digitChar d ≤ 0x7E := by decide

theorem isPlain_uEscape (n : ℕ) : IsPlain (uEscape n) := by
  have hdigit : ∀ m, 0x20 ≤ digitChar (m % 16) ∧ digitChar (m % 16) ≤ 0x7E := fun m =>
    (hexDigit_ok (m % 16) (Nat.mod_lt m (by decide))).2
  exact .cons (by decide) (.cons (by decide) (.cons (hdigit _) (.cons (hdigit _) (.cons (hdigit _)
    (.cons (hdigit _) isPlain_nil)))))

theorem isChars_uEscape (n : ℕ) {t : Bytes} (ht : IsChars t) : IsChars (uEscape n ++ t) := by
  have hdigit : ∀ m, isHexDigit (digitChar (m % 16)) = true := fun m =>
    (hexDigit_ok (m % 16) (Nat.mod_lt m (by decide))).1
  exact .long (hdigit _) (hdigit _) (hdigit _) (hdigit _) ht

/-- A character of a string, in front of others. -/
theorem dumpChar_ok (c : CodePoint) {t : Bytes} (ht : IsChars t) :
    IsChars (dumpChar c ++ t) ∧ IsPlain (dumpChar c) := by
  have hshort : ∀ {e : UInt8}, isShortEscape e = true → 0x20 ≤ e ∧ e ≤ 0x7E →
      IsChars ([0x5C, e] ++ t) ∧ IsPlain [0x5C, e] := fun he hp =>
    ⟨.short he ht, .cons (by decide) (.cons hp isPlain_nil)⟩
  unfold dumpChar
  split_ifs with hquote hback h1 h2 h3 h4 h5 hplain h16
  · exact hshort (by decide) (by decide)
  · exact hshort (by decide) (by decide)
  · exact hshort (by decide) (by decide)
  · exact hshort (by decide) (by decide)
  · exact hshort (by decide) (by decide)
  · exact hshort (by decide) (by decide)
  · exact hshort (by decide) (by decide)
  -- a printable character stands for itself, for the two that do not are gone
  · have hval : (UInt8.ofNat c.val).toNat = c.val := by
      rw [UInt8.toNat_ofNat']
      exact Nat.mod_eq_of_lt (by omega)
    have hlow : 0x20 ≤ UInt8.ofNat c.val := by
      rw [UInt8.le_iff_toNat_le, hval]
      exact hplain.1
    have hhigh : UInt8.ofNat c.val ≤ 0x7E := by
      rw [UInt8.le_iff_toNat_le, hval]
      exact hplain.2
    refine ⟨.plain hlow ?_ ?_ ht, .cons ⟨hlow, hhigh⟩ isPlain_nil⟩
    · intro heq
      rw [heq] at hval
      exact hquote hval.symm
    · intro heq
      rw [heq] at hval
      exact hback hval.symm
  · exact ⟨isChars_uEscape _ ht, isPlain_uEscape _⟩
  -- two escapes, for the halves of a surrogate pair
  · rw [List.append_assoc]
    exact ⟨isChars_uEscape _ (isChars_uEscape _ ht), (isPlain_uEscape _).append (isPlain_uEscape _)⟩

theorem dumpStr_ok (s : Text) : IsString (dumpStr s) ∧ IsPlain (dumpStr s) := by
  have hchars : IsChars (s.flatMap dumpChar) ∧ IsPlain (s.flatMap dumpChar) := by
    induction s with
    | nil => exact ⟨.nil, isPlain_nil⟩
    | cons c s ih =>
        rw [List.flatMap_cons]
        obtain ⟨hc, hplain⟩ := dumpChar_ok c ih.1
        exact ⟨hc, hplain.append ih.2⟩
  exact ⟨⟨_, hchars.1, rfl⟩, .cons (by decide) (hchars.2.append (.cons (by decide) isPlain_nil))⟩

theorem isPlain_of_isNumber {t : Bytes} (h : IsNumber t) : IsPlain t := by
  intro c hc
  have hchar := h.chars c hc
  unfold isNumberChar isDigit at hchar
  simp only [Bool.or_eq_true, Bool.and_eq_true, decide_eq_true_eq, beq_iff_eq] at hchar
  rcases hchar with ((((⟨hlow, hhigh⟩ | rfl) | rfl) | rfl) | rfl) | rfl
  · have hlow' : (0x20 : UInt8) ≤ 0x30 := by decide
    have hhigh' : (0x39 : UInt8) ≤ 0x7E := by decide
    exact ⟨UInt8.le_trans hlow' hlow, UInt8.le_trans hhigh hhigh'⟩
  all_goals decide

/-- A part of a JSON text, in printable ASCII. -/
def Dumped (part : Part) (t : Bytes) : Prop := IsJson part t ∧ IsPlain t

theorem isWs_nil : IsWs [] := fun _ hc => absurd hc List.not_mem_nil

theorem Dumped.item {t : Bytes} (h : Dumped .value t) : Dumped .items t := by
  have hjson := IsJson.item isWs_nil h.1 isWs_nil
  rw [List.nil_append, List.append_nil] at hjson
  exact ⟨hjson, h.2⟩

theorem Dumped.member {t : Bytes} (k : Text) (h : Dumped .value t) :
    Dumped .members (dumpStr k ++ 0x3A :: t) := by
  have hjson := IsJson.member isWs_nil (dumpStr_ok k).1 isWs_nil isWs_nil h.1 isWs_nil
  rw [List.nil_append, List.append_nil, List.nil_append, List.append_nil] at hjson
  exact ⟨hjson, (dumpStr_ok k).2.append (.cons (by decide) h.2)⟩

mutual

/-- What `dumps` makes is a JSON value in printable ASCII. -/
theorem dumps_ok : ∀ v : PyVal, Dumped .value v.dumps
  | .none => ⟨.wordNull, by decide⟩
  | .bool true => ⟨.wordTrue, by decide⟩
  | .bool false => ⟨.wordFalse, by decide⟩
  | .num n => ⟨.number n.isNumber, isPlain_of_isNumber n.isNumber⟩
  | .str s => ⟨.string (dumpStr_ok s).1, (dumpStr_ok s).2⟩
  | .list [] => ⟨.emptyArray isWs_nil, by decide⟩
  | .list (v :: vs) => by
      have hitems := dumpItems_ok vs (dumps_ok v).item
      exact ⟨.array hitems.1, .cons (by decide) (hitems.2.append (by decide))⟩
  | .dict [] => ⟨.emptyObject isWs_nil, by decide⟩
  | .dict ((k, v) :: ms) => by
      have hmembers := dumpMembers_ok ms ((dumps_ok v).member k)
      exact ⟨.object hmembers.1, .cons (by decide) (hmembers.2.append (by decide))⟩

theorem dumpItems_ok : ∀ (vs : List PyVal) {t : Bytes}, Dumped .items t → Dumped .items (t ++ dumpItems vs)
  | [], t, ht => by
      rw [dumpItems, List.append_nil]
      exact ht
  | v :: vs, t, ht => by
      have hrest := dumpItems_ok vs (dumps_ok v).item
      exact ⟨.items ht.1 hrest.1, ht.2.append (.cons (by decide) hrest.2)⟩

theorem dumpMembers_ok : ∀ (ms : List (Text × PyVal)) {t : Bytes}, Dumped .members t →
    Dumped .members (t ++ dumpMembers ms)
  | [], t, ht => by
      rw [dumpMembers, List.append_nil]
      exact ht
  | (k, v) :: ms, t, ht => by
      have hrest := dumpMembers_ok ms ((dumps_ok v).member k)
      exact ⟨.members ht.1 hrest.1, ht.2.append (.cons (by decide) hrest.2)⟩

end

/-! ## The file -/

/-- The text of records, each on a line. -/
def logText (recs : List PyVal) : Bytes := recs.flatMap fun r => r.dumps ++ [0x0A]

/-- Where the text of the `i`-th record starts in the file. -/
def textStart (recs : List PyVal) (i : ℕ) : ℕ := (logText (recs.take i)).length

/-- Where it ends: its line end is there. -/
def textEnd (recs : List PyVal) (i : ℕ) : ℕ :=
  textStart recs i + ((recs[i]?.map PyVal.dumps).getD []).length

theorem logText_cons (r : PyVal) (recs : List PyVal) :
    logText (r :: recs) = r.dumps ++ 0x0A :: logText recs := by
  unfold logText
  rw [List.flatMap_cons, List.append_assoc]
  rfl

theorem textStart_zero (recs : List PyVal) : textStart recs 0 = 0 := rfl

theorem textStart_succ (r : PyVal) (recs : List PyVal) (i : ℕ) :
    textStart (r :: recs) (i + 1) = r.dumps.length + 1 + textStart recs i := by
  unfold textStart
  rw [List.take_succ_cons, logText_cons, List.length_append, List.length_cons]
  omega

theorem textEnd_zero (r : PyVal) (recs : List PyVal) : textEnd (r :: recs) 0 = r.dumps.length :=
  Nat.zero_add _

theorem textEnd_succ (r : PyVal) (recs : List PyVal) (i : ℕ) :
    textEnd (r :: recs) (i + 1) = r.dumps.length + 1 + textEnd recs i := by
  unfold textEnd
  rw [textStart_succ, List.getElem?_cons_succ, Nat.add_assoc]

theorem write_file {w w' : LogWriter} {e : Entry} (h : w.write e = some w') :
    w'.file = w.file ++ ((e.record w.src w.seq).dumps ++ [0x0A]) ∧ w'.src = w.src ∧
      w'.seq = w.seq + 1 := by
  unfold LogWriter.write at h
  split_ifs at h
  rw [← Option.some.inj h]
  dsimp only
  split_ifs
  · exact ⟨rfl, rfl, rfl⟩
  · exact ⟨rfl, rfl, rfl⟩

/-- The file of a writer is the text of its records. -/
theorem writeAll_file {w w' : LogWriter} {es : List Entry} (h : w.writeAll es = some w') :
    w'.file = w.file ++ logText (recordsFrom w.src w.seq es) := by
  induction es generalizing w with
  | nil =>
      rw [← Option.some.inj h]
      exact (List.append_nil _).symm
  | cons e es ih =>
      rw [LogWriter.writeAll] at h
      rcases Option.bind_eq_some_iff.mp h with ⟨v, hv, hrest⟩
      obtain ⟨hfile, hsrc, hseq⟩ := write_file hv
      rw [ih hrest, hfile, hsrc, hseq, recordsFrom, logText_cons, List.append_assoc, List.append_assoc]
      rfl

/-! ## A cut -/

/-- A value whose text is braces around what is balanced. -/
def IsObject (v : PyVal) : Prop := ∃ inner, Balanced inner ∧ v.dumps = 0x7B :: (inner ++ [0x7D])

theorem IsObject.ne_nil {v : PyVal} (h : IsObject v) : v.dumps ≠ [] := by
  rcases h with ⟨inner, -, hdumps⟩
  rw [hdumps]
  exact List.cons_ne_nil _ _

theorem isObject_dict (ms : List (Text × PyVal)) : IsObject (.dict ms) := by
  cases ms with
  | nil => exact ⟨[], keeps_nil .out, rfl⟩
  | cons m ms =>
      have hmembers := dumpMembers_ok ms ((dumps_ok m.2).member m.1)
      exact ⟨_, hmembers.1.balanced, rfl⟩

theorem isObject_recordsFrom {src : Text} {seq : ℕ} {es : List Entry} :
    ∀ r ∈ recordsFrom src seq es, IsObject r := by
  induction es generalizing seq with
  | nil =>
      intro r hr
      cases hr
  | cons e es ih =>
      intro r hr
      rcases List.mem_cons.mp hr with rfl | hin
      · exact isObject_dict _
      · exact ih r hin

/-- What a reader has of a file that was cut at `n`: the first `k` records,
those whose whole text lies before the cut, and whether the cut is strictly
inside a text. -/
structure Cut (recs : List PyVal) (n k : ℕ) (torn : Bool) : Prop where
  le : k ≤ recs.length
  whole : ∀ i < recs.length, (i < k ↔ textEnd recs i ≤ n)
  torn : torn = true ↔ ∃ i < recs.length, textStart recs i < n ∧ n < textEnd recs i

/-- A record in front, with the cut behind its line. -/
theorem Cut.cons {recs : List PyVal} {n k : ℕ} {torn : Bool} (h : Cut recs n k torn) (r : PyVal) :
    Cut (r :: recs) (r.dumps.length + 1 + n) (k + 1) torn := by
  refine ⟨Nat.succ_le_succ h.le, ?_, ?_⟩
  · intro i hi
    cases i with
    | zero =>
        rw [textEnd_zero]
        exact iff_of_true (Nat.succ_pos k) (by omega)
    -- a later record ends as much further on as the new line is long
    | succ i =>
        rw [textEnd_succ, Nat.succ_lt_succ_iff, h.whole i (Nat.lt_of_succ_lt_succ hi)]
        omega
  · rw [h.torn]
    constructor
    · rintro ⟨i, hi, hstart, hend⟩
      refine ⟨i + 1, Nat.succ_lt_succ hi, ?_, ?_⟩
      · rw [textStart_succ]
        omega
      · rw [textEnd_succ]
        omega
    · rintro ⟨i, hi, hstart, hend⟩
      cases i with
      | zero =>
          rw [textEnd_zero] at hend
          omega
      | succ i =>
          rw [textStart_succ] at hstart
          rw [textEnd_succ] at hend
          exact ⟨i, Nat.lt_of_succ_lt_succ hi, by omega, by omega⟩

/-- The cut is within the first line. -/
theorem cut_first (r : PyVal) (recs : List PyVal) {n : ℕ} (hn : n ≤ r.dumps.length) :
    Cut (r :: recs) n (if n = r.dumps.length then 1 else 0) (decide (0 < n ∧ n < r.dumps.length)) := by
  have hlater : ∀ i, r.dumps.length + 1 ≤ textStart (r :: recs) (i + 1) := by
    intro i
    rw [textStart_succ]
    omega
  have hend : ∀ i, textStart (r :: recs) i ≤ textEnd (r :: recs) i := fun i => Nat.le_add_right _ _
  refine ⟨?_, ?_, ?_⟩
  · split_ifs
    · exact Nat.succ_le_succ (Nat.zero_le _)
    · exact Nat.zero_le _
  · intro i _
    -- the first text ends at its length, all others start behind its line
    cases i with
    | zero =>
        rw [textEnd_zero]
        split_ifs with heq
        · exact iff_of_true Nat.one_pos heq.ge
        · exact iff_of_false (Nat.lt_irrefl 0) (by omega)
    | succ i =>
        have := hlater i
        have := hend (i + 1)
        refine iff_of_false ?_ (by omega)
        split_ifs
        · omega
        · omega
  · rw [decide_eq_true_eq]
    constructor
    · rintro ⟨hpos, hlt⟩
      refine ⟨0, Nat.succ_pos _, ?_, ?_⟩
      · rw [textStart_zero]
        exact hpos
      · rw [textEnd_zero]
        exact hlt
    · rintro ⟨i, _, hstart, hlt⟩
      cases i with
      | zero =>
          rw [textEnd_zero] at hlt
          exact ⟨hstart, hlt⟩
      | succ i =>
          have := hlater i
          omega

theorem isPlain_not_mem {t : Bytes} (h : IsPlain t) : 0x0A ∉ t := by
  intro hin
  exact absurd (h _ hin).1 (by decide)

/-- The loop of `read_log` over the lines of a file that was cut. -/
theorem readLines_take {loads : Bytes → Option PyVal} (hloads : ∀ t v, loads t = some v → IsJsonText t)
    {recs : List PyVal} (hobject : ∀ r ∈ recs, IsObject r)
    (hback : ∀ r ∈ recs, loads r.dumps = some r) (n : ℕ) :
    ∃ k torn, readLines loads (((logText recs).take n).splitOn 0x0A) = some (recs.take k, torn) ∧
      Cut recs n k torn := by
  induction recs generalizing n with
  | nil =>
      refine ⟨0, false, ?_, Nat.le_refl 0, fun i hi => absurd hi (Nat.not_lt_zero i), ?_⟩
      · rw [show logText [] = [] from rfl, List.take_nil, List.splitOn_nil]
        rfl
      · exact iff_of_false Bool.false_ne_true fun ⟨i, hi, _⟩ => Nat.not_lt_zero i hi
  | cons r recs ih =>
      have hplain := (dumps_ok r).2
      have hr := hback r List.mem_cons_self
      have hne := (hobject r List.mem_cons_self).ne_nil
      by_cases hn : n ≤ r.dumps.length
      · -- the cut is in the first line or at its end
        refine ⟨_, _, ?_, cut_first r recs hn⟩
        have htake : (logText (r :: recs)).take n = r.dumps.take n := by
          rw [logText_cons, List.take_append_of_le_length hn]
        have hline : 0x0A ∉ r.dumps.take n := fun hin => isPlain_not_mem hplain (List.mem_of_mem_take hin)
        rw [htake, List.splitOn_eq_singleton hline]
        rcases hobject r List.mem_cons_self with ⟨inner, hinner, hdumps⟩
        by_cases hfull : n = r.dumps.length
        · rw [hfull, List.take_length, if_pos rfl, readLines, if_neg hne, hr]
          simp [readLines]
        · rw [if_neg hfull]
          by_cases hzero : n = 0
          -- nothing is left of the line, which is then skipped as empty
          · rw [hzero]
            rfl
          · -- a strict prefix of an object
            have hpart : r.dumps.take n ≠ [] := by
              intro hnil
              have := congrArg List.length hnil
              rw [List.length_take, List.length_nil] at this
              omega
            have hnot : ¬ IsJsonText (r.dumps.take n) := by
              apply not_isJsonText_of_cut hinner
              · rw [← hdumps]
                exact List.take_prefix n _
              · exact hpart
              · intro heq
                have := congrArg List.length heq
                rw [← hdumps, List.length_take] at this
                omega
            -- so the last line does not load, and it is dropped as torn
            have hnone : loads (r.dumps.take n) = none := by
              cases hload : loads (r.dumps.take n) with
              | none => rfl
              | some v => exact absurd (hloads _ _ hload) hnot
            rw [readLines, if_neg hpart, hnone]
            simp [Nat.pos_of_ne_zero hzero, lt_of_le_of_ne hn hfull]
      · -- the first line is whole
        rcases ih (fun s hs => hobject s (List.mem_cons_of_mem r hs))
          (fun s hs => hback s (List.mem_cons_of_mem r hs)) (n - (r.dumps.length + 1)) with
          ⟨k, torn, hread, hcut⟩
        have hsum : r.dumps.length + 1 + (n - (r.dumps.length + 1)) = n := by omega
        refine ⟨k + 1, torn, ?_, by rw [← hsum]; exact hcut.cons r⟩
        have htake : (logText (r :: recs)).take n =
            r.dumps ++ 0x0A :: (logText recs).take (n - (r.dumps.length + 1)) := by
          rw [logText_cons, List.take_append, List.take_of_length_le (by omega)]
          congr 1
          rw [show n - r.dumps.length = n - (r.dumps.length + 1) + 1 by omega, List.take_succ_cons]
        rw [htake, List.splitOn_append_cons_self_of_not_mem (isPlain_not_mem hplain), readLines,
          if_neg hne, hr]
        dsimp only
        rw [hread, Option.map_some, List.take_succ_cons]

/-! ## Reading the file -/

/-- The file is printable ASCII and line feeds. -/
theorem logText_chars {recs : List PyVal} {c : UInt8} (h : c ∈ logText recs) :
    c = 0x0A ∨ (0x20 ≤ c ∧ c ≤ 0x7E) := by
  rcases List.mem_flatMap.mp h with ⟨r, -, hc⟩
  rcases List.mem_append.mp hc with hin | hlast
  · exact .inr ((dumps_ok r).2 c hin)
  · exact .inl (List.mem_singleton.mp hlast)

theorem universalNewlines_of_not_mem {t : Bytes} (h : 0x0D ∉ t) : universalNewlines t = t := by
  fun_induction universalNewlines t with
  | case1 s ih => exact absurd List.mem_cons_self h
  | case2 s _ ih => exact absurd List.mem_cons_self h
  | case3 c s _ _ ih => rw [ih fun hin => h (List.mem_cons_of_mem c hin)]
  | case4 => rfl

/-- ASCII is UTF-8. -/
theorem isValidUTF8_of_isAscii {t : Bytes} (h : IsAscii t) : t.toByteArray.IsValidUTF8 := by
  induction t with
  | nil => exact ByteArray.isValidUTF8_empty
  | cons c t ih =>
      have hsingle : String.utf8EncodeChar (Char.ofNat c.toNat) = [c] := by
        have hall : ∀ n < 128, String.utf8EncodeChar (Char.ofNat n) = [UInt8.ofNat n] := by decide
        rw [hall c.toNat (UInt8.lt_iff_toNat_lt.mp (h c List.mem_cons_self)), UInt8.ofNat_toNat]
      have hfirst : [c].toByteArray.IsValidUTF8 := by
        rw [← hsingle]
        exact Char.isValidUTF8_toByteArray_utf8EncodeChar
      have hcons : (c :: t).toByteArray = [c].toByteArray ++ t.toByteArray := by
        rw [← List.toByteArray_append]
        rfl
      rw [hcons]
      exact hfirst.append (ih fun e he => h e (List.mem_cons_of_mem c he))

/-- A file of records that was cut, up to the splitting into lines. -/
theorem readLog_take (loads : Bytes → Option PyVal) (recs : List PyVal) (n : ℕ) :
    readLog loads ((logText recs).take n) = readLines loads (((logText recs).take n).splitOn 0x0A) := by
  have hchars : ∀ c ∈ (logText recs).take n, c = 0x0A ∨ (0x20 ≤ c ∧ c ≤ 0x7E) :=
    fun c hc => logText_chars (List.mem_of_mem_take hc)
  have hascii : IsAscii ((logText recs).take n) := by
    intro c hc
    rcases hchars c hc with rfl | ⟨-, hhigh⟩
    · decide
    · exact UInt8.lt_of_le_of_lt hhigh (by decide)
  -- without a carriage return the lines are those that were written
  have hcr : 0x0D ∉ (logText recs).take n := by
    intro hin
    rcases hchars _ hin with heq | ⟨hlow, -⟩
    · exact absurd heq (by decide)
    · exact absurd hlow (by decide)
  rw [readLog, if_pos (isValidUTF8_of_isAscii hascii), universalNewlines_of_not_mem hcr]

/-- A drive log that was cut anywhere reads back its complete records, as long
as `json.loads` takes nothing but JSON and reads back what was dumped. -/
theorem read_log_of_cut (loads : Bytes → Option PyVal)
    (hloads : ∀ t v, loads t = some v → IsJsonText t) (src : Text) (fsyncLines : ℤ) (fsyncSec now : ℚ)
    (es : List Entry) (w : LogWriter)
    (hwritten : (LogWriter.init src fsyncLines fsyncSec now).writeAll es = some w)
    (hback : ∀ r ∈ recordsFrom src 0 es, loads r.dumps = some r) (n : ℕ) :
    ∃ k torn, readLog loads (w.file.take n) = some ((recordsFrom src 0 es).take k, torn) ∧
      Cut (recordsFrom src 0 es) n k torn := by
  have hfile : w.file = logText (recordsFrom src 0 es) := writeAll_file hwritten
  rw [hfile, readLog_take]
  exact readLines_take hloads isObject_recordsFrom hback n

/-- A record with characters that have to be escaped. -/
def sampleHeader : Entry :=
  ⟨text "header", [(text "adapter", .str (text "ELM \"v1\"\n" ++ [0x1F697])), (text "vin_hash", .none)],
    natNum 12, text "2026", 0, 0⟩

/-- A record with a list. -/
def sampleReply : Entry :=
  ⟨text "sample", [(text "pid", .str (text "0C")), (text "raw_all", .list [.num (natNum 7), .bool true])],
    natNum 13, text "2026", 1, 1⟩

/-- `json.loads` on the lines of these two, and on what is no JSON. -/
def sampleLoads (t : Bytes) : Option PyVal :=
  [sampleHeader.record (text "synth") 0, sampleReply.record (text "synth") 1].find? fun r =>
    decide (r.dumps = t)

/-- A cut in the second record. -/
theorem read_log_of_cut_sample :
    ∃ w, (LogWriter.init (text "synth") 50 1 0).writeAll [sampleHeader, sampleReply] = some w ∧
      ∃ k torn, readLog sampleLoads (w.file.take 150) =
          some ((recordsFrom (text "synth") 0 [sampleHeader, sampleReply]).take k, torn) ∧
        Cut (recordsFrom (text "synth") 0 [sampleHeader, sampleReply]) 150 k torn := by
  have hloads : ∀ t v, sampleLoads t = some v → IsJsonText t := by
    intro t v h
    unfold sampleLoads at h
    have htext := List.find?_some h
    rw [decide_eq_true_eq] at htext
    rw [← htext]
    exact ⟨[], v.dumps, [], isWs_nil, (dumps_ok v).1, isWs_nil, by rw [List.append_nil]; rfl⟩
  have hwritten : ∃ w, (LogWriter.init (text "synth") 50 1 0).writeAll [sampleHeader, sampleReply] =
      some w := Option.isSome_iff_exists.mp (by decide +kernel)
  have hne : (sampleHeader.record (text "synth") 0).dumps ≠ (sampleReply.record (text "synth") 1).dumps := by
    decide +kernel
  have hback : ∀ r ∈ recordsFrom (text "synth") 0 [sampleHeader, sampleReply],
      sampleLoads r.dumps = some r := by
    intro r hr
    rcases List.mem_cons.mp hr with rfl | hr
    · exact List.find?_cons_of_pos (decide_eq_true rfl)
    · rw [List.mem_singleton.mp hr, sampleLoads, List.find?_cons_of_neg]
      · exact List.find?_cons_of_pos (decide_eq_true rfl)
      · rw [decide_eq_true_eq]
        exact hne
  rcases hwritten with ⟨w, hw⟩
  exact ⟨w, hw, read_log_of_cut sampleLoads hloads _ _ _ _ _ w hw hback 150⟩

end Carwatch.Obdlog
