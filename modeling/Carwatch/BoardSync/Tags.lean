import Carwatch.BoardSync.Checklist

/-!
# Carwatch.BoardSync.Tags — an item reads the same once it has its tag

`setTag` writes the tag behind the words of an item, and `parse` has to find
the same words there. The text before may hold the beginning of a tag, or end in
white space; what protects the words is that white space separates them from
the tag, and that every literal of `TAG_RE` but the first begins with something
other than `<`.

* `tagAt_append` — a tag behind a text matches nothing inside the text;
* `scanTags_append` — so it is the only tag found, and is cut off cleanly;
* `readItem_tag`, `readItem_tick`, `readItem_at` — the item read from the
  tagged, the ticked and the moved lines.
-/

namespace Carwatch.BoardSync

open Carwatch.Lib

/-! ## Literals -/

/-- A literal of `TAG_RE` behind the first one. -/
def Inner (lit : Text) : Prop :=
  ∃ c rest, lit = c :: rest ∧ c ≠ '<' ∧ ∀ d ∈ lit, isSpace d = false

theorem inner_hash : Inner ['#'] := ⟨'#', [], rfl, by decide, List.forall_mem_singleton.mpr rfl⟩

theorem inner_close : Inner ['-', '-', '>'] := 
  ⟨'-', ['-', '>'], rfl, by decide, by simp [isSpace]⟩

theorem eat_append {lit : Text} (hlit : ∀ d ∈ lit, isSpace d = false) {w : Text} (hw : Blank w)
    (hne : w ≠ []) (s y : Text) :
    eat lit (s ++ (w ++ y)) = (eat lit s).map (· ++ (w ++ y)) := by
  induction lit generalizing s with
  | nil => rfl
  | cons c lit ih =>
      cases s with
      | nil =>
          obtain ⟨d, w, rfl⟩ := List.exists_cons_of_ne_nil hne
          have hcd : c ≠ d := by
            rintro rfl
            have hspace := hw c List.mem_cons_self
            rw [hlit c List.mem_cons_self] at hspace
            cases hspace
          rw [List.nil_append, List.cons_append, eat, eat, if_neg hcd]
          rfl
      | cons d s =>
          rw [List.cons_append, eat, eat]
          split_ifs
          · exact ih (fun e he => hlit e (List.mem_cons_of_mem c he)) s
          · rfl

theorem dropWhile_append_of_not_blank {s : Text} (hs : ¬Blank s) (y : Text) :
    (s ++ y).dropWhile isSpace = s.dropWhile isSpace ++ y := by
  rw [List.dropWhile_append, if_neg]
  intro hnil
  exact hs (List.dropWhile_eq_nil_iff.mp (List.isEmpty_iff.mp hnil))

theorem eatPast_append_of_not_blank {lit : Text} (hlit : ∀ d ∈ lit, isSpace d = false) {w : Text}
    (hw : Blank w) (hne : w ≠ []) {s : Text} (hs : ¬Blank s) (y : Text) :
    eatPast lit (s ++ (w ++ y)) = (eatPast lit s).map (· ++ (w ++ y)) := by
  rw [eatPast, dropWhile_append_of_not_blank hs, eat_append hlit hw hne]
  rfl

theorem eatPast_append {lit : Text} (hlit : Inner lit) {w : Text} (hw : Blank w) (hne : w ≠ [])
    (s u : Text) :
    eatPast lit (s ++ (w ++ '<' :: u)) = (eatPast lit s).map (· ++ (w ++ '<' :: u)) := by
  obtain ⟨c, rest, rfl, hc, hspace⟩ := hlit
  by_cases hs : Blank s
  · have hleft : eatPast (c :: rest) (s ++ (w ++ '<' :: u)) = none := by
      rw [eatPast, dropWhile_blank hs, dropWhile_blank hw, List.dropWhile_cons_of_neg (by decide),
        eat, if_neg hc]
    have hright : eatPast (c :: rest) s = none := by
      rw [eatPast, List.dropWhile_eq_nil_iff.mpr hs, eat]
    rw [hleft, hright]
    rfl
  · exact eatPast_append_of_not_blank hspace hw hne hs _

/-- The literals of `TAG_RE` before its digits. -/
def opening (t : Text) : Option Text := (eatPast ['<', '!', '-', '-'] t).bind (eatPast ['#'])

/-- `TAG_RE` from its digits on. -/
def closing (db : UnicodeDb) (t : Text) : Option (Text × Text) :=
  if t.takeWhile (isDecimal db) = [] then none
  else (eatPast ['-', '-', '>'] (t.dropWhile (isDecimal db))).map (t.takeWhile (isDecimal db), ·)

theorem tagAt_eq (db : UnicodeDb) (t : Text) : tagAt db t = (opening t).bind (closing db) := by
  unfold tagAt opening closing
  cases (eatPast ['<', '!', '-', '-'] t).bind (eatPast ['#']) <;> rfl

section Appended

variable {db : UnicodeDb} {w : Text} (hw : Blank w) (hne : w ≠ [])
include hw hne

theorem opening_append {s : Text} (hs : ¬Blank s) (u : Text) :
    opening (s ++ (w ++ '<' :: u)) = (opening s).map (· ++ (w ++ '<' :: u)) := by
  rw [opening, eatPast_append_of_not_blank (by simp [isSpace]) hw hne hs, opening]
  cases eatPast ['<', '!', '-', '-'] s with
  | none => rfl
  | some t => exact eatPast_append inner_hash hw hne t u

theorem not_decimal_blank (db : UnicodeDb) (y : Text) :
    (w ++ y).takeWhile (isDecimal db) = [] ∧ (w ++ y).dropWhile (isDecimal db) = w ++ y := by
  obtain ⟨d, w, rfl⟩ := List.exists_cons_of_ne_nil hne
  have hd : isDecimal db d = false := by
    rw [isDecimal, db.decimal_space d (hw d List.mem_cons_self)]
    rfl
  rw [List.cons_append, List.takeWhile_cons_of_neg (by simp [hd]),
    List.dropWhile_cons_of_neg (by simp [hd])]
  exact ⟨rfl, rfl⟩

theorem closing_append (t u : Text) :
    closing db (t ++ (w ++ '<' :: u)) =
      (closing db t).map fun r => (r.1, r.2 ++ (w ++ '<' :: u)) := by
  obtain ⟨htake, hdrop⟩ := not_decimal_blank hw hne db ('<' :: u)
  have hboth : (t ++ (w ++ '<' :: u)).takeWhile (isDecimal db) = t.takeWhile (isDecimal db) ∧
      (t ++ (w ++ '<' :: u)).dropWhile (isDecimal db) =
        t.dropWhile (isDecimal db) ++ (w ++ '<' :: u) := by
    generalize w ++ '<' :: u = y at htake hdrop
    induction t with
    | nil => exact ⟨htake, hdrop⟩
    | cons c t ih =>
        rw [List.cons_append, List.takeWhile_cons, List.dropWhile_cons, List.takeWhile_cons,
          List.dropWhile_cons]
        split_ifs
        · exact ⟨congrArg (c :: ·) ih.1, ih.2⟩
        · exact ⟨rfl, rfl⟩
  rw [closing, closing, hboth.1, hboth.2, eatPast_append inner_close hw hne]
  split_ifs
  · rfl
  · rw [Option.map_map, Option.map_map]
    rfl

/-- A tag behind a text matches nothing inside the text. -/
theorem tagAt_append {s : Text} (hs : ¬Blank s) (u : Text) :
    tagAt db (s ++ (w ++ '<' :: u)) =
      (tagAt db s).map fun r => (r.1, r.2 ++ (w ++ '<' :: u)) := by
  rw [tagAt_eq, tagAt_eq, opening_append hw hne hs]
  cases opening s with
  | none => rfl
  | some t => exact closing_append hw hne t u

end Appended

/-! ## The tag itself -/

theorem eat_self (lit t : Text) : eat lit (lit ++ t) = some t := by
  induction lit with
  | nil => rfl
  | cons c lit ih => rw [List.cons_append, eat, if_pos rfl, ih]

theorem eatPast_self {c : Char} (hc : isSpace c = false) {w : Text} (hw : Blank w)
    (rest t : Text) : eatPast (c :: rest) (w ++ (c :: rest ++ t)) = some t := by
  rw [eatPast, dropWhile_blank hw, List.cons_append,
    List.dropWhile_cons_of_neg (by rw [hc]; decide)]
  exact eat_self (c :: rest) t

theorem isDecimal_natText (db : UnicodeDb) {n : ℕ} {c : Char} (hc : c ∈ natText n) :
    isDecimal db c = true := by
  obtain ⟨d, hd, rfl⟩ := exists_digit hc
  rw [isDecimal, db.decimal_digitChar d hd]
  rfl

theorem natText_takeWhile (db : UnicodeDb) (n : ℕ) {c : Char} (hc : isDecimal db c = false)
    (t : Text) :
    (natText n ++ c :: t).takeWhile (isDecimal db) = natText n ∧
      (natText n ++ c :: t).dropWhile (isDecimal db) = c :: t := by
  constructor
  · rw [List.takeWhile_append_of_pos fun d hd => isDecimal_natText db hd,
      List.takeWhile_cons_of_neg (by simp [hc]), List.append_nil]
  · rw [List.dropWhile_append_of_pos fun d hd => isDecimal_natText db hd,
      List.dropWhile_cons_of_neg (by simp [hc])]

theorem tagText_eq (n : ℕ) :
    tagText n =
      ['<', '!', '-', '-'] ++ ([' '] ++ (['#'] ++ (natText n ++ ' ' :: ['-', '-', '>']))) :=
  List.append_assoc _ _ _

theorem tagText_head (n : ℕ) : ∃ u, tagText n = '<' :: u := ⟨_, tagText_eq n⟩

/-- The tag is a match, with its number as the group. -/
theorem tagAt_tagText (db : UnicodeDb) {w : Text} (hw : Blank w) (n : ℕ) :
    tagAt db (w ++ tagText n) = some (natText n, []) := by
  have hopen : opening (w ++ tagText n) = some (natText n ++ ' ' :: ['-', '-', '>']) := by
    rw [opening, tagText_eq, eatPast_self (by decide) hw]
    exact eatPast_self (by decide) blank_one [] _
  have hnot : isDecimal db ' ' = false := by
    rw [isDecimal, db.decimal_space ' ' rfl]
    rfl
  obtain ⟨htake, hdrop⟩ := natText_takeWhile db n hnot ['-', '-', '>']
  have hclose : eatPast ['-', '-', '>'] (' ' :: ['-', '-', '>']) = some [] := by decide
  rw [tagAt_eq, hopen, Option.bind_some, closing, htake, hdrop, if_neg (natText_ne_nil n), hclose]
  rfl

/-! ## The scan -/

theorem scanTags_skip (db : UnicodeDb) (t : Text) : scanTags db t.length t = ([], []) := by
  induction t with
  | nil => rfl
  | cons c t ih => exact ih

/-- The scan at a character that no match covers. -/
theorem scanTags_cons (db : UnicodeDb) (c : Char) (t : Text) :
    scanTags db 0 (c :: t) =
      match tagAt db (c :: t) with
      | some (digits, rest) =>
          (digits :: (scanTags db (t.length - rest.length) t).1,
            (scanTags db (t.length - rest.length) t).2)
      | none => ((scanTags db 0 t).1, c :: (scanTags db 0 t).2) := by
  rfl

theorem scanTags_of_some {db : UnicodeDb} {c : Char} {t : Text} {r : Text × Text}
    (h : tagAt db (c :: t) = some r) :
    scanTags db 0 (c :: t) =
      (r.1 :: (scanTags db (t.length - r.2.length) t).1,
        (scanTags db (t.length - r.2.length) t).2) := by
  rw [scanTags_cons, h]

theorem scanTags_of_none {db : UnicodeDb} {c : Char} {t : Text} (h : tagAt db (c :: t) = none) :
    scanTags db 0 (c :: t) = ((scanTags db 0 t).1, c :: (scanTags db 0 t).2) := by
  rw [scanTags_cons, h]

/-- Where no tag is found, none is at the front. -/
theorem tagAt_eq_none {db : UnicodeDb} {c : Char} {t : Text}
    (h : (scanTags db 0 (c :: t)).1 = []) : tagAt db (c :: t) = none := by
  rcases htag : tagAt db (c :: t) with _ | r
  · rfl
  · rw [scanTags_of_some htag] at h
    exact absurd h (List.cons_ne_nil _ _)

/-- A text in which the scan finds no tag is left as it is. -/
theorem scanTags_none {db : UnicodeDb} {t : Text} (h : (scanTags db 0 t).1 = []) :
    (scanTags db 0 t).2 = t := by
  induction t with
  | nil => rfl
  | cons c t ih =>
      have htag := tagAt_eq_none h
      rw [scanTags_of_none htag] at h ⊢
      exact congrArg (c :: ·) (ih h)

theorem rstrip_cons_of_not_blank {c : Char} {t : Text} (h : ¬Blank (c :: t)) :
    rstrip (c :: t) = c :: rstrip t := by
  by_cases hc : isSpace c = true
  · have ht : ¬Blank t := by
      intro ht
      refine h fun d hd => ?_
      rcases List.mem_cons.mp hd with rfl | hd
      · exact hc
      · exact ht d hd
    obtain ⟨w, d, s, -, hd, rfl⟩ := exists_first ht
    rw [rstrip_append_cons w hd]
    exact rstrip_append_cons (c :: w) hd s
  · exact rstrip_append_cons [] (Bool.eq_false_iff.mpr hc) t

/-- The tag behind a text without one is the one that is found, and what stays
is the text without the white space at its end. -/
theorem scanTags_append {db : UnicodeDb} {raw w : Text} (h : (scanTags db 0 raw).1 = [])
    (hw : Blank w) (hne : w ≠ []) (n : ℕ) :
    scanTags db 0 (raw ++ (w ++ tagText n)) = ([natText n], rstrip raw) := by
  -- the tag is met where only white space is left before it
  have hhere : ∀ {v : Text}, Blank v → v ≠ [] →
      scanTags db 0 (v ++ tagText n) = ([natText n], []) := by
    intro v hv hvne
    have htag := tagAt_tagText db hv n
    obtain ⟨c, v, rfl⟩ := List.exists_cons_of_ne_nil hvne
    rw [List.cons_append] at htag ⊢
    rw [scanTags_of_some htag, List.length_nil, Nat.sub_zero, scanTags_skip]
  induction raw with
  | nil => exact hhere hw hne
  | cons c t ih =>
      by_cases hb : Blank (c :: t)
      · rw [← List.append_assoc, hhere (blank_append.mpr ⟨hb, hw⟩) (by simp),
          rstrip_eq_nil_iff.mpr hb]
      · have htag := tagAt_eq_none h
        rw [scanTags_of_none htag] at h
        have hnew : tagAt db (c :: (t ++ (w ++ tagText n))) = none := by
          obtain ⟨u, hu⟩ := tagText_head n
          rw [hu, ← List.cons_append, tagAt_append hw hne hb, htag]
          rfl
        rw [List.cons_append, scanTags_of_none hnew, rstrip_cons_of_not_blank hb, ih h]

/-! ## Items -/

/-- The text of an item over its lines. -/
def joined (body : Text) (more : List Text) : Text := [' '].intercalate (body :: more.map strip)

theorem readWords_at {db : UnicodeDb} {i : ℕ} {raw : Text}
    {r : Option Person × Option Text × Text} (h : readWords db i raw = .ok r) (j : ℕ) :
    readWords db j raw = .ok r := by
  unfold readWords at h ⊢
  generalize scanOwners db none 0 raw = owners at h ⊢
  dsimp only at h ⊢
  cases hfind : owners.1.find? fun o => (personOf o).isNone with
  | some o =>
      rw [hfind] at h
      cases h
  | none =>
      rw [hfind] at h
      exact h

/-- Everything that can come out of an item's lines. -/
theorem readItem_eq_ok {db : UnicodeDb} {i : ℕ} {sect : Option Text} {mark : Char} {body : Text}
    {more : List Text} {it : Item} :
    readItem db i sect mark body more = .ok it ↔
      ∃ ms owner slug text, sect = some ms ∧ (scanTags db 0 (joined body more)).1.length ≤ 1 ∧
        readWords db i (strip (scanTags db 0 (joined body more)).2) = .ok (owner, slug, text) ∧
        it = ⟨ms, mark != ' ', text, slug, owner,
          (scanTags db 0 (joined body more)).1.head?.map (intOf db), i, i + more.length⟩ := by
  unfold readItem joined
  cases sect with
  | none => simp
  | some ms =>
      simp only [gt_iff_lt]
      split_ifs with hlen
      · simp [hlen.not_ge]
      · cases hwords : readWords db i
            (strip (scanTags db 0 ([' '].intercalate (body :: more.map strip))).2) with
        | error e => simp
        | ok r =>
            obtain ⟨owner, slug, text⟩ := r
            simp [not_lt.mp hlen, eq_comm]

/-- The item as read from other lines of the file. -/
theorem readItem_at {db : UnicodeDb} {i : ℕ} {sect : Option Text} {mark : Char} {body : Text}
    {more : List Text} {it : Item} (h : readItem db i sect mark body more = .ok it) (j : ℕ) :
    readItem db j sect mark body more = .ok { it with first := j, last := j + more.length } := by
  obtain ⟨ms, owner, slug, text, hsect, hlen, hwords, rfl⟩ := readItem_eq_ok.mp h
  exact readItem_eq_ok.mpr ⟨ms, owner, slug, text, hsect, hlen, readWords_at hwords j, rfl⟩

theorem readItem_span {db : UnicodeDb} {i : ℕ} {sect : Option Text} {mark : Char} {body : Text}
    {more : List Text} {it : Item} (h : readItem db i sect mark body more = .ok it) :
    it.first = i ∧ it.last = i + more.length ∧ it.checked = (mark != ' ') := by
  obtain ⟨ms, owner, slug, text, -, -, -, rfl⟩ := readItem_eq_ok.mp h
  exact ⟨rfl, rfl, rfl⟩

/-- The ticked item. -/
theorem readItem_tick {db : UnicodeDb} {i : ℕ} {sect : Option Text} {mark : Char} {body : Text}
    {more : List Text} {it : Item} (h : readItem db i sect mark body more = .ok it) :
    readItem db i sect 'x' body more = .ok { it with checked := true } := by
  obtain ⟨ms, owner, slug, text, hsect, hlen, hwords, rfl⟩ := readItem_eq_ok.mp h
  exact readItem_eq_ok.mpr ⟨ms, owner, slug, text, hsect, hlen, hwords, rfl⟩

/-- The item with a tag behind its text. -/
theorem readItem_tag {db : UnicodeDb} {i : ℕ} {sect : Option Text} {mark : Char}
    {body body' w : Text} {more more' : List Text} {it : Item}
    (h : readItem db i sect mark body more = .ok it) (hnone : it.number = none) (hw : Blank w)
    (hne : w ≠ []) {n : ℕ} (hjoined : joined body' more' = joined body more ++ (w ++ tagText n)) :
    readItem db i sect mark body' more' =
      .ok { it with number := some n, last := i + more'.length } := by
  obtain ⟨ms, owner, slug, text, hsect, -, hwords, rfl⟩ := readItem_eq_ok.mp h
  have hnil : (scanTags db 0 (joined body more)).1 = [] := by simpa using hnone
  have hscan := scanTags_append hnil hw hne n
  rw [scanTags_none hnil] at hwords
  refine readItem_eq_ok.mpr ⟨ms, owner, slug, text, hsect, ?_, ?_, ?_⟩
  · rw [hjoined, hscan]
    exact le_rfl
  · rw [hjoined, hscan, strip_rstrip]
    exact hwords
  · rw [hjoined, hscan, List.head?_cons, Option.map_some, intOf_natText]

/-! ## The places `setTag` writes to -/

theorem intercalate_concat (sep : Text) {ls : List Text} (hne : ls ≠ []) (l : Text) :
    sep.intercalate (ls ++ [l]) = sep.intercalate ls ++ (sep ++ l) := by
  induction ls with
  | nil => exact absurd rfl hne
  | cons l' ls ih =>
      cases ls with
      | nil => rw [List.singleton_append, List.intercalate_cons_cons, List.intercalate_singleton,
          List.intercalate_singleton, List.append_assoc]
      | cons l'' ls =>
          rw [List.cons_append, List.cons_append, List.intercalate_cons_cons, ← List.cons_append,
            ih (List.cons_ne_nil _ _), List.intercalate_cons_cons]
          simp

theorem joined_concat (body : Text) (more : List Text) (l : Text) :
    joined body (more ++ [l]) = joined body more ++ (' ' :: strip l) := by
  unfold joined
  rw [List.map_append, List.map_singleton, ← List.cons_append,
    intercalate_concat _ (List.cons_ne_nil _ _)]
  rfl

theorem rstrip_tagText (s : Text) (n : ℕ) : rstrip (s ++ tagText n) = s ++ tagText n := by
  have hlast : s ++ tagText n = (s ++ ['<', '!', '-', '-', ' ', '#'] ++ natText n ++
      [' ', '-', '-']) ++ '>' :: [] := by simp [tagText]
  rw [hlast]
  exact rstrip_append_cons _ (by decide) []

theorem blank_space {w : Text} (hw : Blank w) : Blank (w ++ [' ']) :=
  blank_append.mpr ⟨hw, blank_one⟩

/-- The tag behind the only line. -/
theorem joined_tag_body (body : Text) (n : ℕ) :
    joined (body ++ ' ' :: tagText n) [] = joined body [] ++ ([' '] ++ tagText n) := by
  unfold joined
  rw [List.map_nil, List.intercalate_singleton, List.intercalate_singleton]
  rfl

/-- The tag behind a continuation line. -/
theorem joined_tag_last (body : Text) (more : List Text) {l : Text} (hl : ¬Blank l) (n : ℕ) :
    ∃ w, Blank w ∧ w ≠ [] ∧ joined body (more ++ [l ++ ' ' :: tagText n]) =
      joined body (more ++ [l]) ++ (w ++ tagText n) := by
  obtain ⟨w, hw, hdrop⟩ := exists_rstrip (l.dropWhile isSpace)
  refine ⟨w ++ [' '], blank_space hw, by simp, ?_⟩
  have hstrip : strip (l ++ ' ' :: tagText n) = strip l ++ (w ++ [' '] ++ tagText n) := by
    have hassoc : l ++ ' ' :: tagText n = l ++ ([' '] ++ tagText n) := rfl
    rw [hassoc, strip, dropWhile_append_of_not_blank hl, ← List.append_assoc, rstrip_tagText]
    conv_lhs => rw [hdrop]
    simp [strip]
  rw [joined_concat, joined_concat, hstrip]
  simp

/-- The tag on a line of its own. -/
theorem joined_tag_line (body : Text) (more : List Text) {w : Text} (hw : Blank w) (n : ℕ) :
    joined body (more ++ [w ++ tagText n]) = joined body more ++ ([' '] ++ tagText n) := by
  obtain ⟨u, hu⟩ := tagText_head n
  have hstrip : strip (tagText n) = tagText n := by
    rw [hu, strip_cons (by decide)]
    have hkeep := rstrip_tagText [] n
    rwa [List.nil_append, hu, rstrip_cons_of_not_blank] at hkeep
    intro hblank
    exact absurd (hblank '<' List.mem_cons_self) (by decide)
  rw [joined_concat, strip_blank_append hw, hstrip]
  rfl

end Carwatch.BoardSync
