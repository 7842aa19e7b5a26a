import Mathlib.Data.List.DropRight
import Mathlib.Data.List.Forall2

/-!
# Carwatch.BoardSync.Text — the strings `tools/board_sync.py` works on

A string is a list of characters. What the script asks of Python's `str` is
here: `strip`, `split`, `join`, `replace` and the classes `\s`, `\d` and `\w` of
its regular expressions. The tables behind `\d` and `\w` are Python's, so they
are a parameter.

* `UnicodeDb` — which characters are digits and letters;
* `strip`, `splitLines`, `joinLines`, `readText` — texts and lines;
* `natText` — a number as it is printed; `intOf_natText` reads it back.
-/

namespace Carwatch.BoardSync

/-- A Python string without surrogates, as a file in UTF-8 gives it. -/
abbrev Text := List Char

/-! ## Classes of characters -/

/-- `str.isspace` of one character, and `\s`. -/
def isSpace (c : Char) : Bool :=
  (0x09 ≤ c.toNat && c.toNat ≤ 0x0D) || (0x1C ≤ c.toNat && c.toNat ≤ 0x20) ||
  c.toNat == 0x85 || c.toNat == 0xA0 || c.toNat == 0x1680 ||
  (0x2000 ≤ c.toNat && c.toNat ≤ 0x200A) || c.toNat == 0x2028 || c.toNat == 0x2029 ||
  c.toNat == 0x202F || c.toNat == 0x205F || c.toNat == 0x3000

/-- Python's table of digits and letters, as far as the script depends on it:
what the digits it prints stand for, and that white space is no digit. -/
structure UnicodeDb where
  /-- The value of a decimal digit: `\d`, and what `int` makes of it. -/
  decimal : Char → Option ℕ
  /-- `str.isalnum` of one character. -/
  alnum : Char → Bool
  decimal_digitChar : ∀ n < 10, decimal (Nat.digitChar n) = some n
  decimal_space : ∀ c, isSpace c = true → decimal c = none

/-- The table cut down to ASCII. -/
def asciiDb : UnicodeDb where
  decimal c := if c.isDigit then some (c.toNat - 48) else none
  alnum c := c.isAlphanum
  decimal_digitChar := by decide
  decimal_space := by
    intro c hc
    have hno : c.isDigit = false := by
      rw [Bool.eq_false_iff]
      intro hd
      have hrange : 48 ≤ c.toNat ∧ c.toNat ≤ 57 := by
        rw [Char.isDigit, Bool.and_eq_true, decide_eq_true_eq, decide_eq_true_eq] at hd
        exact ⟨UInt32.le_iff_toNat_le.mp hd.1, UInt32.le_iff_toNat_le.mp hd.2⟩
      simp only [isSpace, Bool.or_eq_true, Bool.and_eq_true, decide_eq_true_eq, beq_iff_eq] at hc
      omega
    rw [hno]
    rfl

/-- `\d` -/
def isDecimal (db : UnicodeDb) (c : Char) : Bool := (db.decimal c).isSome

/-- `\w` -/
def isWord (db : UnicodeDb) (c : Char) : Bool := db.alnum c || c == '_'

/-! ## Strings -/

/-- `str.rstrip` -/
def rstrip (t : Text) : Text := t.rdropWhile isSpace

/-- `str.strip` -/
def strip (t : Text) : Text := rstrip (t.dropWhile isSpace)

/-- `str.strip` of one character. -/
def stripChar (c : Char) (t : Text) : Text := (t.dropWhile (· == c)).rdropWhile (· == c)

/-- `t.split("\n")` -/
def splitLines (t : Text) : List Text := t.splitOn '\n'

/-- `"\n".join(lines)` -/
def joinLines (lines : List Text) : Text := ['\n'].intercalate lines

/-- What `read_text` makes of a file's text: every line ends in `\n`. -/
def readText : Text → Text
  | [] => []
  | '\r' :: '\n' :: t => '\n' :: readText t
  | '\r' :: t => '\n' :: readText t
  | c :: t => c :: readText t

/-- `t.replace(old, new, 1)` -/
def replaceFirst (old new : Text) : Text → Text
  | [] => if old = [] then new else []
  | c :: t =>
      if old.isPrefixOf (c :: t) then new ++ (c :: t).drop old.length
      else c :: replaceFirst old new t

/-- `t.replace("**", "")` -/
def dropStars : Text → Text
  | '*' :: '*' :: t => dropStars t
  | c :: t => c :: dropStars t
  | [] => []

/-- The rest of `re.sub(r"\s+", " ", t)`; the flag says that white space was
just replaced. -/
def squeezeFrom : Bool → Text → Text
  | _, [] => []
  | inSpace, c :: t =>
      if isSpace c then if inSpace then squeezeFrom true t else ' ' :: squeezeFrom true t
      else c :: squeezeFrom false t

/-- `re.sub(r"\s+", " ", t)` -/
def squeeze (t : Text) : Text := squeezeFrom false t

/-- `str(n)` -/
def natText (n : ℕ) : Text := Nat.toDigits 10 n

/-- `int(t)` of a text of digits. -/
def intOf (db : UnicodeDb) (t : Text) : ℕ :=
  t.foldl (fun n c => 10 * n + (db.decimal c).getD 0) 0

/-! ## White space -/

/-- Nothing but white space. -/
def Blank (t : Text) : Prop := ∀ c ∈ t, isSpace c = true

instance decidableBlank (t : Text) : Decidable (Blank t) :=
  inferInstanceAs (Decidable (∀ c ∈ t, isSpace c = true))

theorem blank_one : Blank [' '] := List.forall_mem_singleton.mpr rfl

theorem blank_append {s t : Text} : Blank (s ++ t) ↔ Blank s ∧ Blank t := List.forall_mem_append

theorem dropWhile_blank {w : Text} (hw : Blank w) (t : Text) :
    (w ++ t).dropWhile isSpace = t.dropWhile isSpace := List.dropWhile_append_of_pos hw

theorem rstrip_append_blank (t : Text) {w : Text} (hw : Blank w) :
    rstrip (t ++ w) = rstrip t := by
  unfold rstrip List.rdropWhile
  rw [List.reverse_append, List.dropWhile_append_of_pos]
  intro c hc
  exact hw c (List.mem_reverse.mp hc)

theorem rstrip_append_cons (s : Text) {c : Char} (hc : isSpace c = false) (t : Text) :
    rstrip (s ++ c :: t) = s ++ c :: rstrip t := by
  induction t using List.reverseRec with
  | nil =>
      rw [rstrip, rstrip, List.rdropWhile_nil]
      exact List.rdropWhile_concat_neg isSpace s c (by rw [hc]; decide)
  | append_singleton t d ih =>
      have hassoc : s ++ c :: (t ++ [d]) = (s ++ c :: t) ++ [d] := by simp
      rw [hassoc]
      unfold rstrip at ih ⊢
      rw [List.rdropWhile_concat, List.rdropWhile_concat]
      split_ifs
      · exact ih
      · exact hassoc.symm

/-- What `rstrip` takes away. -/
theorem exists_rstrip (t : Text) : ∃ w, Blank w ∧ t = rstrip t ++ w :=
  ⟨t.rtakeWhile isSpace, fun _ hc => List.mem_rtakeWhile_imp hc,
    List.rdropWhile_append_rtakeWhile.symm⟩

theorem rstrip_eq_nil_iff {t : Text} : rstrip t = [] ↔ Blank t := List.rdropWhile_eq_nil_iff

theorem strip_blank_append {w : Text} (hw : Blank w) (t : Text) : strip (w ++ t) = strip t := by
  rw [strip, strip, dropWhile_blank hw]

theorem strip_cons {c : Char} (hc : isSpace c = false) (t : Text) :
    strip (c :: t) = c :: rstrip t := by
  rw [strip, List.dropWhile_cons_of_neg (by rw [hc]; decide)]
  exact rstrip_append_cons [] hc t

theorem strip_append_blank (t : Text) {w : Text} (hw : Blank w) : strip (t ++ w) = strip t := by
  by_cases ht : Blank t
  · have hall : t ++ w = (t ++ w) ++ [] := (List.append_nil _).symm
    rw [hall, strip_blank_append (blank_append.mpr ⟨ht, hw⟩), ← List.append_nil t,
      strip_blank_append ht]
  · rw [strip, strip, List.dropWhile_append, if_neg, rstrip_append_blank _ hw]
    intro hnil
    exact ht (List.dropWhile_eq_nil_iff.mp (List.isEmpty_iff.mp hnil))

theorem strip_rstrip (t : Text) : strip (rstrip t) = strip t := by
  obtain ⟨w, hw, ht⟩ := exists_rstrip t
  rw [← strip_append_blank (rstrip t) hw, ← ht]

/-- What `strip` takes away. -/
theorem exists_strip (t : Text) : ∃ w w', Blank w ∧ Blank w' ∧ t = w ++ strip t ++ w' := by
  obtain ⟨w', hw', ht⟩ := exists_rstrip (t.dropWhile isSpace)
  refine ⟨t.takeWhile isSpace, w', fun c hc => List.mem_takeWhile_imp hc, hw', ?_⟩
  rw [strip, List.append_assoc, ← ht, List.takeWhile_append_dropWhile]

theorem strip_strip (t : Text) : strip (strip t) = strip t := by
  obtain ⟨w, w', hw, hw', ht⟩ := exists_strip t
  rw [← strip_blank_append hw, ← strip_append_blank _ hw', ← ht]

theorem mem_strip {c : Char} {t : Text} (hc : c ∈ strip t) : c ∈ t := by
  obtain ⟨w, w', -, -, ht⟩ := exists_strip t
  rw [ht]
  simp [hc]

theorem strip_eq_nil_iff {t : Text} : strip t = [] ↔ Blank t := by
  constructor
  · intro hnil
    obtain ⟨w, w', hw, hw', ht⟩ := exists_strip t
    rw [hnil, List.append_nil] at ht
    rw [ht]
    exact blank_append.mpr ⟨hw, hw'⟩
  · intro ht
    rw [← List.append_nil t, strip_blank_append ht]
    rfl

/-- A text that is not blank, up to its first letter. -/
theorem exists_first {t : Text} (ht : ¬Blank t) :
    ∃ w c s, Blank w ∧ isSpace c = false ∧ t = w ++ c :: s := by
  have hne : t.dropWhile isSpace ≠ [] := fun h => ht (List.dropWhile_eq_nil_iff.mp h)
  obtain ⟨c, s, hs⟩ := List.exists_cons_of_ne_nil hne
  refine ⟨t.takeWhile isSpace, c, s, fun d hd => List.mem_takeWhile_imp hd, ?_, ?_⟩
  · have hhead := List.head_dropWhile_not isSpace hne
    simpa [hs] using hhead
  · rw [← hs, List.takeWhile_append_dropWhile]

/-! ## Lines -/

theorem mem_splitOn {t part : Text} {sep : Char} (h : part ∈ t.splitOn sep) {c : Char}
    (hc : c ∈ part) : c ∈ t ∧ c ≠ sep := by
  induction t generalizing part with
  | nil =>
      rw [List.splitOn_nil, List.mem_singleton] at h
      rw [h] at hc
      cases hc
  | cons d t ih =>
      have hrest : ∀ {l : Text}, l ∈ t.splitOn sep → c ∈ l → c ∈ d :: t ∧ c ≠ sep :=
        fun hl hcl => ⟨List.mem_cons_of_mem d (ih hl hcl).1, (ih hl hcl).2⟩
      rw [List.splitOn_cons_eq_if_modifyHead] at h
      split_ifs at h with hd
      · rcases List.mem_cons.mp h with rfl | h
        · cases hc
        · exact hrest h hc
      · obtain ⟨l, ls, hls⟩ := List.exists_cons_of_ne_nil (List.splitOn_ne_nil sep t)
        rw [hls, List.modifyHead_cons] at h
        rcases List.mem_cons.mp h with rfl | h
        · rcases List.mem_cons.mp hc with rfl | hc
          · exact ⟨List.mem_cons_self, by simpa using hd⟩
          · exact hrest (by rw [hls]; exact List.mem_cons_self) hc
        · exact hrest (by rw [hls]; exact List.mem_cons_of_mem l h) hc

theorem joinLines_splitLines (t : Text) : joinLines (splitLines t) = t :=
  List.intercalate_splitOn '\n'

theorem splitLines_joinLines {lines : List Text} (hne : lines ≠ [])
    (h : ∀ line ∈ lines, '\n' ∉ line) : splitLines (joinLines lines) = lines :=
  List.splitOn_intercalate '\n' h hne

theorem mem_joinLines {c : Char} {lines : List Text} (hc : c ∈ joinLines lines) :
    c = '\n' ∨ ∃ line ∈ lines, c ∈ line := by
  unfold joinLines at hc
  induction lines with
  | nil => cases hc
  | cons line lines ih =>
      cases lines with
      | nil =>
          rw [List.intercalate_singleton] at hc
          exact Or.inr ⟨line, List.mem_cons_self, hc⟩
      | cons line' lines =>
          rw [List.intercalate_cons_cons, List.mem_append, List.mem_append,
            List.mem_singleton] at hc
          rcases hc with (hc | hc) | hc
          · exact Or.inr ⟨line, List.mem_cons_self, hc⟩
          · exact Or.inl hc
          · rcases ih hc with hc | ⟨l, hl, hc⟩
            · exact Or.inl hc
            · exact Or.inr ⟨l, List.mem_cons_of_mem line hl, hc⟩

/-- A line that a file can hold as one line. -/
def Clean (line : Text) : Prop := '\n' ∉ line ∧ '\r' ∉ line

theorem return_notMem_readText (t : Text) : '\r' ∉ readText t := by
  fun_induction readText t with
  | case1 => exact List.not_mem_nil
  | case2 t ih => simp [ih]
  | case3 t _ ih => simp [ih]
  | case4 c t _ hc ih =>
      rw [List.mem_cons, not_or]
      exact ⟨fun h => hc h.symm, ih⟩

theorem readText_eq_self {t : Text} (h : '\r' ∉ t) : readText t = t := by
  fun_induction readText t with
  | case1 => rfl
  | case2 t ih => exact absurd List.mem_cons_self h
  | case3 t _ ih => exact absurd List.mem_cons_self h
  | case4 c t _ hc ih => rw [ih fun hin => h (List.mem_cons_of_mem c hin)]

theorem clean_splitLines {t line : Text} (h : line ∈ splitLines (readText t)) : Clean line :=
  ⟨fun hc => (mem_splitOn h hc).2 rfl, fun hc => return_notMem_readText t (mem_splitOn h hc).1⟩

/-- Reading back the lines that were written. -/
theorem splitLines_readText {lines : List Text} (hne : lines ≠ [])
    (h : ∀ line ∈ lines, Clean line) : splitLines (readText (joinLines lines)) = lines := by
  rw [readText_eq_self]
  · exact splitLines_joinLines hne fun line hl => (h line hl).1
  · intro hr
    rcases mem_joinLines hr with hr | ⟨line, hl, hr⟩
    · cases hr
    · exact (h line hl).2 hr

/-! ## Numbers -/

theorem exists_digitChar {c : Char} (hc : c.isDigit = true) : ∃ n < 10, c = Nat.digitChar n := by
  have hrange : 48 ≤ c.toNat ∧ c.toNat ≤ 57 := by
    rw [Char.isDigit, Bool.and_eq_true, decide_eq_true_eq, decide_eq_true_eq] at hc
    exact ⟨UInt32.le_iff_toNat_le.mp hc.1, UInt32.le_iff_toNat_le.mp hc.2⟩
  refine ⟨c.toNat - 48, by omega, ?_⟩
  have hof : ∀ n < 10, Nat.digitChar n = Char.ofNat (n + 48) := by decide
  rw [hof _ (by omega), Nat.sub_add_cancel hrange.1, Char.ofNat_toNat]

/-- A printed number is made of digits. -/
theorem exists_digit {n : ℕ} {c : Char} (h : c ∈ natText n) : ∃ d < 10, c = Nat.digitChar d :=
  exists_digitChar (Nat.isDigit_of_mem_toDigits (by decide) (by decide) h)

theorem natText_ne_nil (n : ℕ) : natText n ≠ [] := Nat.toDigits_ne_nil

/-- A printed number is read back. -/
theorem intOf_natText (db : UnicodeDb) (n : ℕ) : intOf db (natText n) = n := by
  have hdigits : ∀ (t : Text) (m : ℕ), (∀ c ∈ t, ∃ d < 10, c = Nat.digitChar d) →
      t.foldl (fun n c => 10 * n + (db.decimal c).getD 0) m = Nat.ofDigitChars 10 t m := by
    intro t
    induction t with
    | nil =>
        intro m _
        rw [Nat.ofDigitChars_nil]
        rfl
    | cons c t ih =>
        intro m h
        obtain ⟨d, hd, rfl⟩ := h c List.mem_cons_self
        rw [List.foldl_cons, ih _ fun e he => h e (List.mem_cons_of_mem _ he),
          Nat.ofDigitChars_cons_digitChar_of_lt_ten hd, db.decimal_digitChar d hd]
        rfl
  rw [intOf, hdigits _ 0 fun c hc => exists_digit hc]
  exact Nat.ofDigitChars_ten_toDigits

end Carwatch.BoardSync
