import Carwatch.BoardSync.Document

/-!
# Carwatch.BoardSync.Table — a row of the table, written and read

`render` writes a row from its cells, and `parse` takes it apart again. The
cells come from `parse`, so there is no `|` in them and no white space around
them, and the first is the name of the milestone that `ROW_RE` found.

* `rowRe_eq_some` — the lines `ROW_RE` matches;
* `tableCells_head` — the first cell is its group;
* `tableCells_rowText`, `rowRe_rowText` — a written row reads as its cells;
* `parseTable_row` — what `parse` does with a row.
-/

namespace Carwatch.BoardSync

open Carwatch.Lib

/-! ## Rows -/

/-- `M[0-6]` -/
def IsMilestone (ms : Text) : Prop := ∃ d, '0' ≤ d ∧ d ≤ '6' ∧ ms = ['M', d]

theorem milestoneRe_eq_some {t ms rest : Text} :
    milestoneRe t = some (ms, rest) ↔ IsMilestone ms ∧ t = ms ++ rest := by
  unfold milestoneRe IsMilestone
  split
  · rename_i d tail
    split_ifs with hd
    · simp only [Option.some.injEq, Prod.mk.injEq]
      constructor
      · rintro ⟨rfl, rfl⟩
        exact ⟨⟨d, hd.1, hd.2, rfl⟩, rfl⟩
      · rintro ⟨⟨e, he, he', rfl⟩, heq⟩
        simp only [List.cons_append, List.nil_append, List.cons.injEq, true_and] at heq
        exact ⟨by rw [heq.1], heq.2⟩
    · simp only [false_iff]
      rintro ⟨⟨e, he, he', rfl⟩, heq⟩
      simp only [List.cons_append, List.nil_append, List.cons.injEq, true_and] at heq
      exact hd (by rw [heq.1]; exact ⟨he, he'⟩)
  · rename_i hno
    simp only [reduceCtorEq, false_iff]
    rintro ⟨⟨e, -, -, rfl⟩, rfl⟩
    exact hno e rest rfl

theorem IsMilestone.cons {ms : Text} (h : IsMilestone ms) :
    ∃ d, ms = ['M', d] ∧ isSpace d = false ∧ d ≠ '|' ∧ Clean ms := by
  obtain ⟨d, h0, h6, rfl⟩ := h
  have hd : 0x30 ≤ d.toNat ∧ d.toNat ≤ 0x36 :=
    ⟨UInt32.le_iff_toNat_le.mp h0, UInt32.le_iff_toNat_le.mp h6⟩
  have hne : ∀ c : Char, c.toNat < 0x30 ∨ 0x36 < c.toNat → d ≠ c := by
    rintro c hc rfl
    omega
  refine ⟨d, rfl, ?_, hne '|' (by decide), ?_, ?_⟩
  · rw [isSpace]
    simp only [Bool.or_eq_false_iff, Bool.and_eq_false_iff, decide_eq_false_iff_not,
      beq_eq_false_iff_ne]
    omega
  · simp [(hne '\n' (by decide)).symm]
  · simp [(hne '\r' (by decide)).symm]

/-- The lines `ROW_RE` matches. -/
theorem rowRe_eq_some {line ms : Text} :
    rowRe line = some ms ↔ ∃ w w' rest, Blank w ∧ Blank w' ∧ IsMilestone ms ∧
      line = '|' :: (w ++ (ms ++ (w' ++ '|' :: rest))) := by
  constructor
  · intro h
    unfold rowRe at h
    split at h
    · rename_i tail
      split at h
      · rename_i m rest hms
        obtain ⟨hm, hdrop⟩ := milestoneRe_eq_some.mp hms
        split_ifs at h with hbar
        obtain rfl := Option.some.inj h
        refine ⟨tail.takeWhile isSpace, rest.takeWhile isSpace, (rest.dropWhile isSpace).tail,
          fun c hc => List.mem_takeWhile_imp hc, fun c hc => List.mem_takeWhile_imp hc, hm, ?_⟩
        have htail : rest.dropWhile isSpace = '|' :: (rest.dropWhile isSpace).tail :=
          (List.cons_head?_tail hbar).symm
        rw [← htail, List.takeWhile_append_dropWhile, ← hdrop, List.takeWhile_append_dropWhile]
      · cases h
    · cases h
  · rintro ⟨w, w', rest, hw, hw', hms, rfl⟩
    obtain ⟨d, rfl, -, -, -⟩ := hms.cons
    have hmatch : milestoneRe (['M', d] ++ (w' ++ '|' :: rest)) =
        some (['M', d], w' ++ '|' :: rest) := milestoneRe_eq_some.mpr ⟨hms, rfl⟩
    have hdrop : (w ++ (['M', d] ++ (w' ++ '|' :: rest))).dropWhile isSpace =
        ['M', d] ++ (w' ++ '|' :: rest) := by
      rw [dropWhile_blank hw, List.cons_append, List.dropWhile_cons_of_neg (by decide)]
    have hbar : ((w' ++ '|' :: rest).dropWhile isSpace).head? = some '|' := by
      rw [dropWhile_blank hw', List.dropWhile_cons_of_neg (by decide), List.head?_cons]
    unfold rowRe
    simp only [hdrop, hmatch, hbar, if_true]

/-- A row is no marker, no heading, no item and continues none. -/
theorem bar_line (t : Text) :
    strip ('|' :: t) ≠ tableOpen ∧ strip ('|' :: t) ≠ tableClose ∧ itemRe ('|' :: t) = none ∧
      isMore ('|' :: t) = false ∧ ∀ db st, parseSection db ('|' :: t) st = st := by
  have hmarker : ∀ m, m = tableOpen ∨ m = tableClose → strip ('|' :: t) ≠ m := by
    intro m hm h
    rw [strip_cons (by decide)] at h
    have hhead := congrArg List.head? h
    rw [List.head?_cons] at hhead
    rcases hm with rfl | rfl
    · exact absurd hhead (by decide +kernel)
    · exact absurd hhead (by decide +kernel)
  exact ⟨hmarker _ (Or.inl rfl), hmarker _ (Or.inr rfl), rfl, rfl, fun _ _ => rfl⟩

theorem row_line {line ms : Text} (h : rowRe line = some ms) : ∃ t, line = '|' :: t := by
  obtain ⟨w, w', rest, -, -, -, rfl⟩ := rowRe_eq_some.mp h
  exact ⟨_, rfl⟩

/-! ## Cells -/

/-- A cell as `parse` keeps it. -/
structure IsCell (c : Text) : Prop where
  strip : strip c = c
  bar : '|' ∉ c
  clean : Clean c

theorem mem_stripChar {c sep : Char} {t : Text} (h : c ∈ stripChar sep t) : c ∈ t :=
  (List.dropWhile_suffix _).subset ((List.rdropWhile_prefix _ _).subset h)

theorem isCell_tableCells {line c : Text} (hline : Clean line) (hc : c ∈ tableCells line) :
    IsCell c := by
  unfold tableCells at hc
  obtain ⟨part, hpart, rfl⟩ := List.mem_map.mp hc
  have hin : ∀ d ∈ strip part, d ∈ line ∧ d ≠ '|' := by
    intro d hd
    have hboth := mem_splitOn hpart (mem_strip hd)
    exact ⟨mem_strip (mem_stripChar hboth.1), hboth.2⟩
  exact ⟨strip_strip part, fun h => (hin _ h).2 rfl, fun h => hline.1 (hin _ h).1,
    fun h => hline.2 (hin _ h).1⟩

/-- What `strip("|")` leaves of a text from its first `|` on. -/
theorem rdropWhile_bar {s : Text} (hs : '|' ∉ s) (r : Text) :
    (s ++ '|' :: r).rdropWhile (· == '|') = s ∨
      ∃ r', (s ++ '|' :: r).rdropWhile (· == '|') = s ++ '|' :: r' := by
  induction r using List.reverseRec with
  | nil =>
      left
      rw [List.rdropWhile_concat_pos _ _ _ (by decide), List.rdropWhile_eq_self_iff]
      intro hne hlast
      rw [beq_iff_eq] at hlast
      exact hs (hlast ▸ List.getLast_mem hne)
  | append_singleton r d ih =>
      rw [← List.cons_append, ← List.append_assoc, List.rdropWhile_concat]
      split_ifs
      · exact ih
      · exact Or.inr ⟨r ++ [d], by simp⟩

/-- The first cell is what `ROW_RE` finds. -/
theorem tableCells_head {line ms : Text} (h : rowRe line = some ms) :
    (tableCells line).headD [] = ms := by
  obtain ⟨w, w', rest, hw, hw', hms, rfl⟩ := rowRe_eq_some.mp h
  obtain ⟨d, rfl, hspace, hbar, -⟩ := hms.cons
  have hnobar : ∀ {v : Text}, Blank v → '|' ∉ v := fun hv hin => absurd (hv _ hin) (by decide)
  have hfirst : '|' ∉ w ++ (['M', d] ++ w') := by
    simp [hnobar hw, hnobar hw', hbar.symm]
  have hstrip : strip ('|' :: (w ++ (['M', d] ++ (w' ++ '|' :: rest)))) =
      '|' :: ((w ++ (['M', d] ++ w')) ++ '|' :: rstrip rest) := by
    rw [strip_cons (by decide), ← rstrip_append_cons _ (by decide)]
    simp
  have hlead : ('|' :: ((w ++ (['M', d] ++ w')) ++ '|' :: rstrip rest)).dropWhile (· == '|') =
      (w ++ (['M', d] ++ w')) ++ '|' :: rstrip rest := by
    rw [List.dropWhile_cons_of_pos (by decide)]
    cases w with
    | nil => rfl
    | cons c w =>
        rw [List.cons_append, List.cons_append, List.dropWhile_cons_of_neg]
        rw [beq_iff_eq]
        rintro rfl
        exact hnobar hw List.mem_cons_self
  have hms : strip (w ++ (['M', d] ++ w')) = ['M', d] := by
    rw [strip_blank_append hw, strip_append_blank _ hw', strip_cons (by decide)]
    exact congrArg ('M' :: ·) (rstrip_append_cons [] hspace [])
  rw [tableCells, hstrip, stripChar, hlead]
  rcases rdropWhile_bar hfirst (rstrip rest) with heq | ⟨r', heq⟩
  · rw [heq, List.splitOn_eq_singleton hfirst]
    exact hms
  · rw [heq, List.splitOn_append_cons_self_of_not_mem hfirst]
    exact hms

/-! ## Rows in the loop of `parse` -/

/-- A row that `parse` has accepted. -/
structure IsRow (ms : Text) (cells : List Text) : Prop where
  milestone : IsMilestone ms
  length : cells.length = 6
  head : cells.headD [] = ms
  cell : ∀ c ∈ cells, IsCell c

theorem isRow_tableCells {line ms : Text} (h : rowRe line = some ms) (hclean : Clean line)
    (hlen : (tableCells line).length = 6) : IsRow ms (tableCells line) := by
  obtain ⟨w, w', rest, -, -, hms, -⟩ := rowRe_eq_some.mp h
  exact ⟨hms, hlen, tableCells_head h, fun c hc => isCell_tableCells hclean hc⟩

/-- What `parse` does with a row: it counts only inside the table. -/
theorem parseTable_row {line ms : Text} (h : rowRe line = some ms) (i : ℕ) (st : ParseState) :
    parseTable i line st =
      if st.inTable then
        if (tableCells line).length ≠ 6 then .error (.rowCells i line)
        else .ok { st with rows := st.rows.insert ms (tableCells line) }
      else .ok st := by
  obtain ⟨t, rfl⟩ := row_line h
  obtain ⟨hopen, hclose, -⟩ := bar_line t
  have hhead := tableCells_head h
  rw [parseTable, if_neg hopen, if_neg hclose, h]
  simp only [hhead, Option.isSome_some, Bool.and_true]

/-- What `parse` does with any other line: it opens the table, closes it, or
leaves it as it was. -/
theorem parseTable_other {line : Text} (h : rowRe line = none) (i : ℕ) (st : ParseState) :
    parseTable i line st = .ok { st with inTable := tableNow line st.inTable } := by
  rw [parseTable, h, tableNow]
  by_cases hopen : strip line = tableOpen
  · rw [if_pos hopen, if_pos (Or.inl hopen), hopen, beq_self_eq_true]
  · by_cases hclose : strip line = tableClose
    · rw [if_neg hopen, if_pos hclose, if_pos (Or.inr hclose), beq_eq_false_iff_ne.mpr hopen]
    · rw [if_neg hopen, if_neg hclose, if_neg (not_or.mpr ⟨hopen, hclose⟩)]
      simp

/-! ## A written row -/

theorem rowText_inner {cells : List Text} (hne : cells ≠ []) :
    ' ' :: ([' ', '|', ' '].intercalate cells ++ [' ']) =
      ['|'].intercalate (cells.map fun c => ' ' :: (c ++ [' '])) := by
  induction cells with
  | nil => exact absurd rfl hne
  | cons c cells ih =>
      cases cells with
      | nil => simp
      | cons c' cells =>
          have hrest := ih (List.cons_ne_nil c' cells)
          rw [List.map_cons, List.map_cons, List.intercalate_cons_cons, List.intercalate_cons_cons,
            ← List.map_cons (f := fun c => ' ' :: (c ++ [' '])), ← hrest]
          simp

theorem stripChar_row (s : Text) :
    stripChar '|' ('|' :: (' ' :: (s ++ [' '])) ++ ['|']) = ' ' :: (s ++ [' ']) := by
  have hlead : ('|' :: (' ' :: (s ++ [' '])) ++ ['|']).dropWhile (· == '|') =
      (' ' :: s ++ [' ']) ++ ['|'] := by
    rw [List.cons_append, List.dropWhile_cons_of_pos (by decide), List.cons_append,
      List.dropWhile_cons_of_neg (by decide)]
    rfl
  rw [stripChar, hlead, List.rdropWhile_concat_pos _ _ _ (by decide),
    List.rdropWhile_concat_neg _ _ _ (by decide)]
  rfl

/-- A written row reads as its cells. -/
theorem tableCells_rowText {cells : List Text} (hne : cells ≠ []) (h : ∀ c ∈ cells, IsCell c) :
    tableCells (rowText cells) = cells := by
  have hrow : rowText cells =
      '|' :: (' ' :: ([' ', '|', ' '].intercalate cells ++ [' '])) ++ ['|'] := by
    simp [rowText]
  have hstrip : strip (rowText cells) = rowText cells := by
    rw [hrow, List.cons_append, strip_cons (by decide), rstrip_append_cons _ (by decide)]
    rfl
  rw [tableCells, hstrip, hrow, stripChar_row, rowText_inner hne, List.splitOn_intercalate]
  · rw [List.map_map]
    conv_rhs => rw [← List.map_id cells]
    refine List.map_congr_left fun c hc => ?_
    have hpad : ' ' :: (c ++ [' ']) = [' '] ++ (c ++ [' ']) := rfl
    rw [Function.comp_apply, hpad, strip_blank_append blank_one, strip_append_blank _ blank_one]
    exact (h c hc).strip
  · intro part hpart
    obtain ⟨c, hc, rfl⟩ := List.mem_map.mp hpart
    simp [(h c hc).bar]
  · simpa using hne

/-- A written row is one of the same milestone. -/
theorem rowRe_rowText {ms : Text} {cells : List Text} (hms : IsMilestone ms)
    (hhead : cells.headD [] = ms) (hlen : 2 ≤ cells.length) :
    rowRe (rowText cells) = some ms := by
  match cells, hlen with
  | c :: c' :: cells, _ =>
      obtain rfl : c = ms := hhead
      refine rowRe_eq_some.mpr ⟨[' '], [' '],
        ' ' :: ([' ', '|', ' '].intercalate (c' :: cells) ++ [' ', '|']), blank_one, blank_one, hms, ?_⟩
      rw [rowText, List.intercalate_cons_cons]
      simp

end Carwatch.BoardSync
