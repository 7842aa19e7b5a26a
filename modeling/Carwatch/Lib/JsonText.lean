import Carwatch.Lib.Json
import Mathlib.Data.List.TakeDrop

/-!
# Carwatch.Lib.JsonText — the grammar of JSON texts (RFC 8259)

Texts are in UTF-8, so a character beyond ASCII is some bytes from 0x80 on.

* `IsJson` — values, items and members, with the white space they may have
  around them; `IsJsonText` — a whole text;
* `Lexer` — how many brackets and braces are open, and whether a string is;
  `Keeps` — what leaves a lexer as it was and never closes what it did not
  open. Every part of a text does (`IsJson.balanced`);
* `not_isJsonText_of_cut` — what is left of an object after a cut is no text.
-/

namespace Carwatch.Lib

/-! ## The grammar -/

/-- A hexadecimal digit. -/
def isHexDigit (c : UInt8) : Bool :=
  isDigit c || (0x41 ≤ c && c ≤ 0x46) || (0x61 ≤ c && c ≤ 0x66)

/-- What may stand behind a backslash, the long escapes apart. -/
def isShortEscape (c : UInt8) : Bool :=
  c == 0x22 || c == 0x5C || c == 0x2F || c == 0x62 || c == 0x66 || c == 0x6E || c == 0x72 || c == 0x74

/-- `*char`, without the quotes. -/
inductive IsChars : Bytes → Prop
  | nil : IsChars []
  | plain {c : UInt8} {t : Bytes} (hc : 0x20 ≤ c) (hquote : c ≠ 0x22) (hback : c ≠ 0x5C)
      (ht : IsChars t) : IsChars (c :: t)
  | short {e : UInt8} {t : Bytes} (he : isShortEscape e = true) (ht : IsChars t) :
      IsChars (0x5C :: e :: t)
  | long {a b c d : UInt8} {t : Bytes} (ha : isHexDigit a = true) (hb : isHexDigit b = true)
      (hc : isHexDigit c = true) (hd : isHexDigit d = true) (ht : IsChars t) :
      IsChars (0x5C :: 0x75 :: a :: b :: c :: d :: t)

/-- `string` -/
def IsString (t : Bytes) : Prop := ∃ chars, IsChars chars ∧ t = 0x22 :: (chars ++ [0x22])

/-- `ws` -/
def IsWs (t : Bytes) : Prop := ∀ c ∈ t, isWs c = true

/-- The parts of a text that have a rule of their own. -/
inductive Part
  | value
  | items
  | members

/-- A value; the items of an array and the members of an object, at least one,
with the white space around each. -/
inductive IsJson : Part → Bytes → Prop
  | wordNull : IsJson .value nullWord
  | wordTrue : IsJson .value trueWord
  | wordFalse : IsJson .value falseWord
  | number {t : Bytes} (ht : IsNumber t) : IsJson .value t
  | string {t : Bytes} (ht : IsString t) : IsJson .value t
  | emptyArray {w : Bytes} (hw : IsWs w) : IsJson .value (0x5B :: (w ++ [0x5D]))
  | array {t : Bytes} (ht : IsJson .items t) : IsJson .value (0x5B :: (t ++ [0x5D]))
  | emptyObject {w : Bytes} (hw : IsWs w) : IsJson .value (0x7B :: (w ++ [0x7D]))
  | object {t : Bytes} (ht : IsJson .members t) : IsJson .value (0x7B :: (t ++ [0x7D]))
  | item {w t w' : Bytes} (hw : IsWs w) (ht : IsJson .value t) (hw' : IsWs w') :
      IsJson .items (w ++ t ++ w')
  | items {t ts : Bytes} (ht : IsJson .items t) (hts : IsJson .items ts) :
      IsJson .items (t ++ 0x2C :: ts)
  | member {w k w' v t w'' : Bytes} (hw : IsWs w) (hk : IsString k) (hw' : IsWs w') (hv : IsWs v)
      (ht : IsJson .value t) (hw'' : IsWs w'') :
      IsJson .members (w ++ k ++ w' ++ 0x3A :: (v ++ t ++ w''))
  | members {t ts : Bytes} (ht : IsJson .members t) (hts : IsJson .members ts) :
      IsJson .members (t ++ 0x2C :: ts)

/-- `JSON-text = ws value ws` -/
def IsJsonText (s : Bytes) : Prop :=
  ∃ w t w', IsWs w ∧ IsJson .value t ∧ IsWs w' ∧ s = w ++ t ++ w'

/-! ## The lexer -/

/-- Where a lexer is: between tokens, in a string, or behind a backslash. -/
inductive LexMode
  | out
  | str
  | escaped
deriving DecidableEq

/-- What a lexer remembers. -/
structure Lexer where
  depth : ℕ
  mode : LexMode
deriving DecidableEq

/-- One character. -/
def Lexer.step (l : Lexer) (c : UInt8) : Lexer :=
  match l.mode with
  | .out =>
      if c = 0x22 then { l with mode := .str }
      else if c = 0x5B ∨ c = 0x7B then { l with depth := l.depth + 1 }
      else if c = 0x5D ∨ c = 0x7D then { l with depth := l.depth - 1 }
      else l
  | .str =>
      if c = 0x22 then { l with mode := .out }
      else if c = 0x5C then { l with mode := .escaped }
      else l
  | .escaped => { l with mode := .str }

/-- A text. -/
def Lexer.lex (l : Lexer) (t : Bytes) : Lexer := t.foldl Lexer.step l

theorem Lexer.lex_append (l : Lexer) (s t : Bytes) : l.lex (s ++ t) = (l.lex s).lex t :=
  List.foldl_append

theorem Lexer.lex_cons (l : Lexer) (c : UInt8) (t : Bytes) : l.lex (c :: t) = (l.step c).lex t := rfl

/-- A text that leaves a lexer at the depth and in the mode that it found it
in, and at least as deep all the way. -/
structure Keeps (m : LexMode) (t : Bytes) : Prop where
  back : ∀ d, (Lexer.mk d m).lex t = ⟨d, m⟩
  deep : ∀ d p, p <+: t → d ≤ ((Lexer.mk d m).lex p).depth

/-- A text that a lexer between tokens comes back from. -/
abbrev Balanced (t : Bytes) : Prop := Keeps .out t

/-- A prefix of two texts in a row ends in the first or in the second. -/
theorem prefix_append_cases {p s t : Bytes} (h : p <+: s ++ t) :
    p <+: s ∨ ∃ q, q <+: t ∧ p = s ++ q := by
  rcases List.prefix_or_prefix_of_prefix h (List.prefix_append s t) with hp | ⟨q, rfl⟩
  · exact .inl hp
  · exact .inr ⟨q, (List.prefix_append_right_inj s).mp h, rfl⟩

theorem prefix_singleton_cases {p : Bytes} {c : UInt8} (h : p <+: [c]) : p = [] ∨ p = [c] := by
  rcases List.prefix_cons_iff.mp h with rfl | ⟨q, rfl, hq⟩
  · exact .inl rfl
  · rw [List.prefix_nil.mp hq]
    exact .inr rfl

theorem keeps_nil (m : LexMode) : Keeps m [] := by
  constructor
  · intro d
    rfl
  · intro d p hp
    rw [List.prefix_nil.mp hp]
    exact Nat.le_refl d

theorem Keeps.append {m : LexMode} {s t : Bytes} (hs : Keeps m s) (ht : Keeps m t) :
    Keeps m (s ++ t) := by
  constructor
  · intro d
    rw [Lexer.lex_append, hs.back, ht.back]
  · intro d p hp
    rcases prefix_append_cases hp with hp | ⟨q, hq, rfl⟩
    · exact hs.deep d p hp
    · rw [Lexer.lex_append, hs.back]
      exact ht.deep d q hq

/-- A character that changes nothing, in front of a text. -/
theorem Keeps.cons {m : LexMode} {c : UInt8} {t : Bytes} (hc : ∀ d, (Lexer.mk d m).step c = ⟨d, m⟩)
    (ht : Keeps m t) : Keeps m (c :: t) := by
  constructor
  · intro d
    rw [Lexer.lex_cons, hc, ht.back]
  · intro d p hp
    rcases List.prefix_cons_iff.mp hp with rfl | ⟨q, rfl, hq⟩
    · exact Nat.le_refl d
    · rw [Lexer.lex_cons, hc]
      exact ht.deep d q hq

/-- A text in another mode or one level down, between the characters that lead
there and back. -/
theorem Keeps.wrap {m m' : LexMode} {first last : UInt8} {t : Bytes} {k : ℕ} (ht : Keeps m' t)
    (hfirst : ∀ d, (Lexer.mk d m).step first = ⟨d + k, m'⟩)
    (hlast : ∀ d, (Lexer.mk (d + k) m').step last = ⟨d, m⟩) : Keeps m (first :: (t ++ [last])) := by
  constructor
  · intro d
    rw [Lexer.lex_cons, hfirst, Lexer.lex_append, ht.back, Lexer.lex_cons, hlast]
    rfl
  · intro d p hp
    rcases List.prefix_cons_iff.mp hp with rfl | ⟨q, rfl, hq⟩
    · exact Nat.le_refl d
    · rw [Lexer.lex_cons, hfirst]
      rcases prefix_append_cases hq with hq | ⟨r, hr, rfl⟩
      · have := ht.deep (d + k) q hq
        omega
      · rw [Lexer.lex_append, ht.back]
        rcases prefix_singleton_cases hr with rfl | rfl
        · exact Nat.le_add_right d k
        · rw [Lexer.lex_cons, hlast]
          exact Nat.le_refl d

/-! ### Strings -/

theorem step_str {c : UInt8} (hquote : c ≠ 0x22) (hback : c ≠ 0x5C) (d : ℕ) :
    (Lexer.mk d .str).step c = ⟨d, .str⟩ := by
  unfold Lexer.step
  dsimp only
  rw [if_neg hquote, if_neg hback]

theorem step_hex {c : UInt8} (h : isHexDigit c = true) (d : ℕ) :
    (Lexer.mk d .str).step c = ⟨d, .str⟩ := by
  apply step_str
  · rintro rfl
    exact absurd h (by decide)
  · rintro rfl
    exact absurd h (by decide)

/-- Whatever stands behind a backslash. -/
theorem Keeps.escape {e : UInt8} {t : Bytes} (ht : Keeps .str t) : Keeps .str (0x5C :: e :: t) := by
  constructor
  · intro d
    exact ht.back d
  · intro d p hp
    rcases List.prefix_cons_iff.mp hp with rfl | ⟨q, rfl, hq⟩
    · exact Nat.le_refl d
    · rcases List.prefix_cons_iff.mp hq with rfl | ⟨r, rfl, hr⟩
      · exact Nat.le_refl d
      · exact ht.deep d r hr

theorem IsChars.keeps {t : Bytes} (h : IsChars t) : Keeps .str t := by
  induction h with
  | nil => exact keeps_nil .str
  | plain _ hquote hback _ ih => exact ih.cons (step_str hquote hback)
  | short _ _ ih => exact ih.escape
  | long ha hb hc hd _ ih =>
      exact ((((ih.cons (step_hex hd)).cons (step_hex hc)).cons (step_hex hb)).cons (step_hex ha)).escape

theorem IsString.balanced {t : Bytes} (h : IsString t) : Balanced t := by
  rcases h with ⟨chars, hchars, rfl⟩
  exact @Keeps.wrap .out .str 0x22 0x22 chars 0 hchars.keeps (fun _ => rfl) (fun _ => rfl)

/-! ### Values -/

/-- A character that is neither a quote nor a bracket. -/
def isInert (c : UInt8) : Bool :=
  c != 0x22 && c != 0x5B && c != 0x7B && c != 0x5D && c != 0x7D

theorem step_of_inert {c : UInt8} (h : isInert c = true) (d : ℕ) :
    (Lexer.mk d .out).step c = ⟨d, .out⟩ := by
  unfold isInert at h
  simp only [Bool.and_eq_true, bne_iff_ne] at h
  obtain ⟨⟨⟨⟨hquote, hopen⟩, hopen'⟩, hclose⟩, hclose'⟩ := h
  unfold Lexer.step
  dsimp only
  rw [if_neg hquote, if_neg (by rintro (h | h) <;> contradiction),
    if_neg (by rintro (h | h) <;> contradiction)]

theorem balanced_of_inert {t : Bytes} (h : ∀ c ∈ t, isInert c = true) : Balanced t := by
  induction t with
  | nil => exact keeps_nil .out
  | cons c t ih =>
      exact (ih fun e he => h e (List.mem_cons_of_mem c he)).cons (step_of_inert (h c List.mem_cons_self))

theorem IsWs.balanced {t : Bytes} (h : IsWs t) : Balanced t := by
  apply balanced_of_inert
  intro c hc
  have hws := h c hc
  unfold isWs at hws
  simp only [Bool.or_eq_true, beq_iff_eq] at hws
  rcases hws with ((rfl | rfl) | rfl) | rfl <;> decide

theorem inert_of_isNumberChar {c : UInt8} (h : isNumberChar c = true) : isInert c = true := by
  have hne : ∀ e : UInt8, isNumberChar e = false → c ≠ e := by
    rintro e he rfl
    rw [h] at he
    cases he
  unfold isInert
  simp only [Bool.and_eq_true, bne_iff_ne]
  exact ⟨⟨⟨⟨hne 0x22 (by decide), hne 0x5B (by decide)⟩, hne 0x7B (by decide)⟩, hne 0x5D (by decide)⟩,
    hne 0x7D (by decide)⟩

/-- Brackets and braces around what is balanced. -/
theorem Balanced.bracket {t : Bytes} (ht : Balanced t) : Balanced (0x5B :: (t ++ [0x5D])) :=
  @Keeps.wrap .out .out 0x5B 0x5D t 1 ht (fun _ => rfl) (fun _ => rfl)

theorem Balanced.brace {t : Bytes} (ht : Balanced t) : Balanced (0x7B :: (t ++ [0x7D])) :=
  @Keeps.wrap .out .out 0x7B 0x7D t 1 ht (fun _ => rfl) (fun _ => rfl)

/-- Every part of a text is balanced. -/
theorem IsJson.balanced {part : Part} {t : Bytes} (h : IsJson part t) : Balanced t := by
  have hpunct : ∀ {c : UInt8} {s : Bytes}, isInert c = true → Balanced s → Balanced (c :: s) :=
    fun hc hs => hs.cons (step_of_inert hc)
  induction h with
  | wordNull => exact balanced_of_inert (by simp [nullWord, isInert])
  | wordTrue => exact balanced_of_inert (by simp [trueWord, isInert])
  | wordFalse => exact balanced_of_inert (by simp [falseWord, isInert])
  | number ht =>
      apply balanced_of_inert
      intro c hc
      exact inert_of_isNumberChar (ht.chars c hc)
  | string ht => exact ht.balanced
  | emptyArray hw => exact hw.balanced.bracket
  | array _ ih => exact ih.bracket
  | emptyObject hw => exact hw.balanced.brace
  | object _ ih => exact ih.brace
  | item hw _ hw' ih => exact (hw.balanced.append ih).append hw'.balanced
  | items _ _ ih ih' => exact ih.append (hpunct (by decide) ih')
  | member hw hk hw' hv _ hw'' ih =>
      exact ((hw.balanced.append hk.balanced).append hw'.balanced).append
        (hpunct (by decide) ((hv.balanced.append ih).append hw''.balanced))
  | members _ _ ih ih' => exact ih.append (hpunct (by decide) ih')

/-! ## Cuts -/

/-- What is left of an object after a cut: nothing, or no text. -/
theorem not_isJsonText_of_cut {inner p : Bytes} (hinner : Balanced inner)
    (hp : p <+: 0x7B :: (inner ++ [0x7D])) (hne : p ≠ []) (hcut : p ≠ 0x7B :: (inner ++ [0x7D])) :
    ¬ IsJsonText p := by
  rintro ⟨w, t, w', hw, ht, hw', heq⟩
  -- the lexer ends between tokens at depth 0 on a text
  have hback : (Lexer.mk 0 .out).lex p = ⟨0, .out⟩ := by
    rw [heq]
    exact ((hw.balanced.append ht.balanced).append hw'.balanced).back 0
  -- but the brace is still open
  rcases List.prefix_cons_iff.mp hp with rfl | ⟨q, rfl, hq⟩
  · exact hne rfl
  · have hopen : (Lexer.mk 0 .out).lex (0x7B :: q) = (Lexer.mk 1 .out).lex q := rfl
    rcases prefix_append_cases hq with hq | ⟨r, hr, rfl⟩
    · have hdeep := hinner.deep 1 q hq
      rw [← hopen, hback] at hdeep
      exact absurd hdeep (by decide)
    · rcases prefix_singleton_cases hr with rfl | rfl
      · rw [List.append_nil, hinner.back] at hopen
        rw [List.append_nil, hopen] at hback
        cases hback
      · exact hcut rfl

end Carwatch.Lib
