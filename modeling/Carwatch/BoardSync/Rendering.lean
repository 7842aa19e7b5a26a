import Carwatch.BoardSync.Table
import Carwatch.BoardSync.Editing

/-!
# Carwatch.BoardSync.Rendering — a rendered file reads as the board

`render` and `parse` do not agree on what is in the table: a marker on a
continuation line counts for `render` alone. So a file that was written may have
some of its rows redrawn and others not, and rows outside the table redrawn
too. What survives is the first five cells of the row that counts for each
milestone, which is all that `render` and the sync read.

* `renderLines_flat` — rendering changes rows only, block by block;
* `readBlocks_redrawn` — reading the redrawn blocks;
* `Faithful.render` — what a rendered file reads as;
* `Faithful.render_again` — rendering that changes nothing.
-/

namespace Carwatch.BoardSync

open Carwatch.Lib

/-! ## The Progress cell -/

theorem strip_ends {c d : Char} (hc : isSpace c = false) (hd : isSpace d = false) (s : Text) :
    strip (c :: (s ++ [d])) = c :: (s ++ [d]) := by
  rw [strip_cons hc, rstrip_append_cons s hd]
  rfl

theorem digit_isSpace {n : ℕ} {c : Char} (h : c ∈ natText n) :
    isSpace c = false ∧ c ≠ '|' ∧ c ≠ '\n' ∧ c ≠ '\r' := by
  obtain ⟨d, hd, rfl⟩ := exists_digit h
  clear h
  revert d
  decide

/-- `render` fills in a cell that `parse` keeps as it is. -/
theorem isCell_progress (items : List Item) (ms : Text) : IsCell (progress items ms) := by
  have hcount : ∀ icon : Char, isSpace icon = false → icon ≠ '|' → icon ≠ '\n' → icon ≠ '\r' →
      ∀ done total, IsCell (icon :: ' ' :: (natText done ++ '/' :: natText total)) := by
    intro icon hspace hbar hn hr done total
    obtain ⟨s, d, hs⟩ : ∃ s d, natText total = s ++ [d] := by
      rcases List.eq_nil_or_concat (natText total) with h | ⟨s, d, h⟩
      · exact absurd h (natText_ne_nil total)
      · exact ⟨s, d, by rw [h, List.concat_eq_append]⟩
    have hno : ∀ c : Char, icon ≠ c → ' ' ≠ c → '/' ≠ c → (∀ n, c ∉ natText n) →
        c ∉ icon :: ' ' :: (natText done ++ '/' :: natText total) := by
      intro c h₁ h₂ h₃ h₄
      simp [h₁.symm, h₂.symm, h₃.symm, h₄]
    refine ⟨?_, hno '|' hbar (by decide) (by decide) fun n h => (digit_isSpace h).2.1 rfl,
      hno '\n' hn (by decide) (by decide) fun n h => (digit_isSpace h).2.2.1 rfl,
      hno '\r' hr (by decide) (by decide) fun n h => (digit_isSpace h).2.2.2 rfl⟩
    have hd : isSpace d = false := (digit_isSpace (n := total) (by rw [hs]; simp)).1
    have hform : icon :: ' ' :: (natText done ++ '/' :: natText total) =
        icon :: ((' ' :: (natText done ++ '/' :: s)) ++ [d]) := by
      rw [hs]
      simp
    rw [hform]
    exact strip_ends hspace hd _
  unfold progress
  dsimp only
  split_ifs
  · exact ⟨by decide, by decide, by decide, by decide⟩
  all_goals exact hcount _ (by decide) (by decide) (by decide) (by decide) _ _

/-- The cells that `render` writes for a milestone. -/
def drawn (b : Board) (ms : Text) (cells : List Text) : List Text :=
  cells.take 5 ++ [progress b.items ms]

theorem IsRow.drawn {ms : Text} {cells : List Text} (h : IsRow ms cells) (b : Board) :
    IsRow ms (drawn b ms cells) := by
  obtain ⟨hms, hlen, hhead, hcell⟩ := h
  match cells, hlen with
  | [c₀, c₁, c₂, c₃, c₄, c₅], _ =>
      refine ⟨hms, rfl, hhead, fun c hc => ?_⟩
      rcases List.mem_append.mp hc with hc | hc
      · exact hcell c (List.mem_of_mem_take hc)
      · rw [List.mem_singleton.mp hc]
        exact isCell_progress b.items ms

theorem IsRow.take_drawn {ms : Text} {cells : List Text} (h : IsRow ms cells) (b : Board) :
    (BoardSync.drawn b ms cells).take 5 = cells.take 5 := by
  rw [BoardSync.drawn, List.take_append_of_le_length, List.take_take]
  · rfl
  · rw [List.length_take, h.length]
    decide

/-- A drawn row is a row of its milestone and reads as its cells. -/
theorem IsRow.reads {ms : Text} {cells : List Text} (h : IsRow ms cells) :
    rowRe (rowText cells) = some ms ∧ tableCells (rowText cells) = cells := by
  refine ⟨rowRe_rowText h.milestone h.head (by rw [h.length]; decide), ?_⟩
  refine tableCells_rowText (fun hnil => ?_) h.cell
  have hlen := h.length
  rw [hnil] at hlen
  cases hlen

theorem clean_rowText {cells : List Text} (h : ∀ c ∈ cells, Clean c) : Clean (rowText cells) := by
  have hinter : Clean ([' ', '|', ' '].intercalate cells) := by
    induction cells with
    | nil => exact ⟨by decide, by decide⟩
    | cons c cells ih =>
        have hc := h c List.mem_cons_self
        have hrest := ih fun d hd => h d (List.mem_cons_of_mem c hd)
        cases cells with
        | nil => rwa [List.intercalate_singleton]
        | cons c' cells =>
            rw [List.intercalate_cons_cons, clean_append, clean_append]
            exact ⟨⟨hc, by decide, by decide⟩, hrest⟩
  rw [rowText, clean_append, clean_append]
  exact ⟨⟨⟨by decide, by decide⟩, hinter⟩, by decide, by decide⟩

/-! ## Rows of the table in a board -/

/-- A row line stands alone in its block. -/
theorem readBlock_row {db : UnicodeDb} {blk : Block} {ms : Text} (h : rowRe blk.head = some ms)
    (i : ℕ) (st : ParseState) : readBlock db i blk st = parseTable i blk.head st := by
  obtain ⟨t, ht⟩ := row_line h
  obtain ⟨-, -, hitem, -, hsect⟩ := bar_line t
  rw [← ht] at hitem hsect
  rw [readBlock]
  cases parseTable i blk.head st with
  | error e => rfl
  | ok st =>
      dsimp only
      rw [hitem, hsect]

/-- Other blocks neither read nor write the rows. -/
theorem readBlock_other {db : UnicodeDb} {i : ℕ} {blk : Block} {st st' : ParseState}
    (hno : rowRe blk.head = none) (h : readBlock db i blk st = .ok st') :
    st'.rows = st.rows ∧ ∀ rows, readBlock db i blk { st with rows := rows } =
      .ok { st' with rows := rows } := by
  have hsect : ∀ st : ParseState, (parseSection db blk.head st).rows = st.rows ∧ ∀ rows,
      parseSection db blk.head { st with rows := rows } =
        { parseSection db blk.head st with rows := rows } := by
    intro st
    unfold parseSection
    split_ifs
    · exact ⟨rfl, fun _ => rfl⟩
    · exact ⟨rfl, fun _ => rfl⟩
  unfold readBlock at h ⊢
  rw [parseTable_other hno] at h
  obtain ⟨hrows, hmove⟩ := hsect { st with inTable := tableNow blk.head st.inTable }
  cases hitem : itemRe blk.head with
  | none =>
      simp only [hitem] at h
      obtain rfl := Except.ok.inj h
      refine ⟨hrows, fun rows => ?_⟩
      rw [parseTable_other hno]
      exact congrArg Except.ok (hmove rows)
  | some r =>
      obtain ⟨mark, body⟩ := r
      simp only [hitem] at h
      split at h
      · cases h
      · rename_i item hread
        obtain rfl := Except.ok.inj h
        refine ⟨hrows, fun rows => ?_⟩
        rw [parseTable_other hno]
        dsimp only
        rw [hmove rows]
        dsimp only
        rw [hread]

/-- Every row in the state is one that `parse` has accepted. -/
def RowsOk (rows : Dict Text (List Text)) : Prop :=
  ∀ ms cells, rows.get? ms = some cells → IsRow ms cells

theorem readBlock_rowsOk {db : UnicodeDb} {i : ℕ} {blk : Block} {st st' : ParseState}
    (hclean : Clean blk.head) (h : readBlock db i blk st = .ok st') (hrows : RowsOk st.rows) :
    RowsOk st'.rows := by
  cases hrow : rowRe blk.head with
  | none =>
      rw [(readBlock_other hrow h).1]
      exact hrows
  | some ms =>
      rw [readBlock_row hrow, parseTable_row hrow] at h
      split_ifs at h with hin hlen
      · obtain rfl := Except.ok.inj h
        intro ms' cells hget
        rw [Dict.get?_insert] at hget
        split_ifs at hget with hms
        · obtain rfl := Option.some.inj hget
          exact hms ▸ isRow_tableCells hrow hclean (not_not.mp hlen)
        · exact hrows ms' cells hget
      · obtain rfl := Except.ok.inj h
        exact hrows

theorem readBlocks_rowsOk {db : UnicodeDb} {i : ℕ} {doc : List Block} {st st' : ParseState}
    (hclean : ∀ line ∈ flat doc, Clean line) (h : readBlocks db i doc st = .ok st')
    (hrows : RowsOk st.rows) : RowsOk st'.rows := by
  induction doc generalizing i st with
  | nil =>
      obtain rfl := Except.ok.inj h
      exact hrows
  | cons blk doc ih =>
      rw [readBlocks] at h
      cases hblk : readBlock db i blk st with
      | error e =>
          rw [hblk] at h
          cases h
      | ok st₁ =>
          rw [hblk] at h
          exact ih (fun line hl => hclean line (by simp [hl])) h
            (readBlock_rowsOk (hclean blk.head (by simp)) hblk hrows)

theorem Faithful.rowsOk {db : UnicodeDb} {b : Board} (h : Faithful db b) : RowsOk b.rows := by
  obtain ⟨st, hst, -, hrows⟩ := h.reads
  obtain ⟨doc, hwhole, hflat⟩ := exists_doc b.lines
  rw [← hflat, parseLines_flat db hwhole] at hst
  rw [← hrows]
  refine readBlocks_rowsOk (fun line hl => h.clean line (hflat ▸ hl)) hst fun ms cells hget => ?_
  cases hget

/-! ## Redrawn blocks -/

/-- A block as `render` leaves it. -/
inductive Redrawn (b : Board) : Block → Block → Prop where
  | same (blk : Block) : Redrawn b blk blk
  | row {line ms : Text} {cells : List Text} : rowRe line = some ms → b.rows.get? ms = some cells →
      Redrawn b ⟨line, []⟩ ⟨rowText (drawn b ms cells), []⟩

theorem renderLine_cases (b : Board) (inTable : Bool) (line : Text) :
    renderLine b inTable line = line ∨ ∃ ms cells, rowRe line = some ms ∧
      b.rows.get? ms = some cells ∧ renderLine b inTable line = rowText (drawn b ms cells) := by
  unfold renderLine
  cases inTable with
  | false => exact Or.inl rfl
  | true =>
      cases hrow : rowRe line with
      | none => exact Or.inl rfl
      | some ms =>
          cases hget : b.rows.get? ms with
          | none => simp [hget]
          | some cells => exact Or.inr ⟨ms, cells, rfl, hget, by simp [hget, drawn]⟩

theorem renderLine_other {line : Text} (h : rowRe line = none) (b : Board) (inTable : Bool) :
    renderLine b inTable line = line := by
  rcases renderLine_cases b inTable line with heq | ⟨ms, cells, hrow, -, -⟩
  · exact heq
  · rw [h] at hrow
    cases hrow

theorem renderLines_others {more : List Text} (h : ∀ line ∈ more, rowRe line = none) (b : Board)
    (inTable : Bool) (rest : List Text) :
    ∃ inTable', renderLines b inTable (more ++ rest) = more ++ renderLines b inTable' rest := by
  induction more generalizing inTable with
  | nil => exact ⟨inTable, rfl⟩
  | cons line more ih =>
      obtain ⟨inTable', heq⟩ := ih (fun l hl => h l (List.mem_cons_of_mem line hl)) _
      refine ⟨inTable', ?_⟩
      rw [List.cons_append, renderLines, renderLine_other (h line List.mem_cons_self), heq]
      rfl

theorem Block.IsItem.others {blk : Block} (h : blk.IsItem) :
    ∀ line ∈ blk.lines, rowRe line = none := by
  intro line hl
  rcases List.mem_cons.mp hl with rfl | hl
  · obtain ⟨t, ht⟩ := item_line h.1
    rw [ht]
    rfl
  · obtain ⟨⟨t, rfl⟩, -⟩ := isMore_iff.mp (h.2 line hl)
    rfl

/-- Rendering changes rows only, and no two of them at once. -/
theorem renderLines_flat (b : Board) {doc : List Block} (h : Whole doc) (inTable : Bool) :
    ∃ doc', List.Forall₂ (Redrawn b) doc doc' ∧ renderLines b inTable (flat doc) = flat doc' := by
  induction h generalizing inTable with
  | nil => exact ⟨[], List.Forall₂.nil, rfl⟩
  | @plain line doc hno _ ih =>
      obtain ⟨doc', hdoc, heq⟩ := ih (tableNow line inTable)
      rw [flat_cons, List.nil_append, renderLines, heq]
      rcases renderLine_cases b (tableNow line inTable) line with
        hline | ⟨ms, cells, hrow, hget, hline⟩
      · exact ⟨⟨line, []⟩ :: doc', List.Forall₂.cons (Redrawn.same _) hdoc, by rw [hline]; rfl⟩
      · exact ⟨⟨rowText (drawn b ms cells), []⟩ :: doc',
          List.Forall₂.cons (Redrawn.row hrow hget) hdoc, by rw [hline]; rfl⟩
  | @item blk doc hblk _ _ ih =>
      obtain ⟨inTable', hmore⟩ := renderLines_others hblk.others b inTable (flat doc)
      obtain ⟨doc', hdoc, heq⟩ := ih inTable'
      refine ⟨blk :: doc', List.Forall₂.cons (Redrawn.same blk) hdoc, ?_⟩
      rw [flat_cons, ← List.cons_append, ← Block.lines, hmore, heq]
      rfl

theorem rowText_bar (cells : List Text) : ∃ t, rowText cells = '|' :: t := ⟨_, rfl⟩

theorem whole_redrawn {b : Board} {doc doc' : List Block} (h : Whole doc)
    (hdoc : List.Forall₂ (Redrawn b) doc doc') : Whole doc' := by
  have hhead : ∀ {d d' : List Block}, List.Forall₂ (Redrawn b) d d' → Fresh (flat d) →
      Fresh (flat d') := by
    intro d d' hd hfresh
    cases hd with
    | nil => exact hfresh
    | cons hblk _ =>
        cases hblk with
        | same => exact hfresh
        | @row line ms cells _ _ =>
            intro l hl
            obtain ⟨t, ht⟩ := rowText_bar (drawn b ms cells)
            obtain rfl := Option.some.inj hl
            rw [ht]
            rfl
  induction h generalizing doc' with
  | nil =>
      cases hdoc
      exact Whole.nil
  | @plain line doc hno _ ih =>
      cases hdoc with
      | cons hblk hrest =>
          cases hblk with
          | same => exact Whole.plain hno (ih hrest)
          | @row _ ms cells _ _ =>
              refine Whole.plain ?_ (ih hrest)
              obtain ⟨t, ht⟩ := rowText_bar (drawn b ms cells)
              rw [ht]
              rfl
  | @item blk doc hitem hfresh _ ih =>
      cases hdoc with
      | cons hblk hrest =>
          cases hblk with
          | same => exact Whole.item hitem (hhead hrest hfresh) (ih hrest)
          | row hrow _ =>
              have hnone := hitem.others _ List.mem_cons_self
              dsimp only at hnone
              rw [hrow] at hnone
              cases hnone

theorem clean_redrawn {b : Board} {doc doc' : List Block} (hok : RowsOk b.rows)
    (hdoc : List.Forall₂ (Redrawn b) doc doc') (h : ∀ line ∈ flat doc, Clean line) :
    ∀ line ∈ flat doc', Clean line := by
  induction hdoc with
  | nil => exact h
  | @cons blk blk' doc doc' hblk _ ih =>
      intro line hl
      have hin : line ∈ blk'.lines ++ flat doc' := hl
      rcases List.mem_append.mp hin with hl | hl
      · cases hblk with
        | same => exact h line (List.mem_append_left (flat doc) hl)
        | @row _ ms cells _ hget =>
            have hline : line ∈ [rowText (drawn b ms cells)] := hl
            rw [List.mem_singleton.mp hline]
            exact clean_rowText fun c hc => (((hok ms cells hget).drawn b).cell c hc).clean
      · exact ih (fun l hl => h l (by simp [hl])) line hl

/-! ## Reading the redrawn blocks -/

/-- The rows read so far from redrawn lines, beside those read from the lines
before: the same, but for what `render` took from the final rows `w`. -/
structure RowsBeside (w rows rows' : Dict Text (List Text)) : Prop where
  keys : rows'.keys = rows.keys
  cells : ∀ ms, (rows'.get? ms).map (List.take 5) = (rows.get? ms).map (List.take 5) ∨
    (rows'.get? ms).map (List.take 5) = (w.get? ms).map (List.take 5)

theorem RowsBeside.insert {w rows rows' : Dict Text (List Text)} (h : RowsBeside w rows rows')
    (ms : Text) {cells cells' : List Text}
    (hcells : cells' = cells ∨ (some cells').map (List.take 5) = (w.get? ms).map (List.take 5)) :
    RowsBeside w (rows.insert ms cells) (rows'.insert ms cells') := by
  refine ⟨?_, fun ms' => ?_⟩
  · rw [Dict.keys_insert, Dict.keys_insert, h.keys]
  · rw [Dict.get?_insert, Dict.get?_insert]
    split_ifs with hms
    · subst hms
      rcases hcells with rfl | hw
      · exact Or.inl rfl
      · exact Or.inr hw
    · exact h.cells ms'

theorem readBlock_redrawn {db : UnicodeDb} {b : Board} {i : ℕ} {blk blk' : Block}
    {st st' : ParseState} (hok : RowsOk b.rows) (hblk : Redrawn b blk blk')
    (h : readBlock db i blk st = .ok st') {rows : Dict Text (List Text)}
    (hrows : RowsBeside b.rows st.rows rows) :
    ∃ rows', readBlock db i blk' { st with rows := rows } = .ok { st' with rows := rows' } ∧
      RowsBeside b.rows st'.rows rows' := by
  cases hblk with
  | same =>
      cases hrow : rowRe blk.head with
      | none =>
          obtain ⟨hsame, hother⟩ := readBlock_other hrow h
          exact ⟨rows, hother rows, hsame ▸ hrows⟩
      | some ms =>
          rw [readBlock_row hrow, parseTable_row hrow] at h ⊢
          split_ifs at h ⊢ with hin hlen
          · obtain rfl := Except.ok.inj h
            exact ⟨_, rfl, hrows.insert ms (Or.inl rfl)⟩
          · obtain rfl := Except.ok.inj h
            exact ⟨_, rfl, hrows⟩
  | @row line ms cells hrow hget =>
      have hdrawn := (hok ms cells hget).drawn b
      obtain ⟨hrow', hcells'⟩ := hdrawn.reads
      rw [readBlock_row hrow, parseTable_row hrow] at h
      rw [readBlock_row hrow', parseTable_row hrow', hcells',
        if_neg (not_not.mpr hdrawn.length)]
      split_ifs at h with hin hlen
      · obtain rfl := Except.ok.inj h
        refine ⟨_, if_pos hin, hrows.insert ms (Or.inr ?_)⟩
        rw [hget, Option.map_some, Option.map_some, (hok ms cells hget).take_drawn]
      · obtain rfl := Except.ok.inj h
        exact ⟨_, if_neg hin, hrows⟩

theorem readBlocks_redrawn {db : UnicodeDb} {b : Board} {i : ℕ} {doc doc' : List Block}
    {st st' : ParseState} (hok : RowsOk b.rows) (hdoc : List.Forall₂ (Redrawn b) doc doc')
    (h : readBlocks db i doc st = .ok st') {rows : Dict Text (List Text)}
    (hrows : RowsBeside b.rows st.rows rows) :
    ∃ rows', readBlocks db i doc' { st with rows := rows } = .ok { st' with rows := rows' } ∧
      RowsBeside b.rows st'.rows rows' := by
  induction hdoc generalizing i st rows with
  | nil =>
      obtain rfl := Except.ok.inj h
      exact ⟨rows, rfl, hrows⟩
  | @cons blk blk' doc doc' hblk _ ih =>
      have hmore : blk'.more.length = blk.more.length := by
        cases hblk with
        | same => rfl
        | row _ _ => rfl
      rw [readBlocks] at h
      cases hread : readBlock db i blk st with
      | error e =>
          rw [hread] at h
          cases h
      | ok st₁ =>
          rw [hread] at h
          obtain ⟨rows₁, hblk', hrows₁⟩ := readBlock_redrawn hok hblk hread hrows
          obtain ⟨rows', hrest, hrows'⟩ := ih h hrows₁
          refine ⟨rows', ?_, hrows'⟩
          rw [readBlocks, hblk', hmore]
          exact hrest

/-! ## The rendered file -/

/-- Two boards that differ in cells `render` does not look at. -/
structure SameTable (b b' : Board) : Prop where
  items : b'.items = b.items
  rows : b'.rows.mapVal (List.take 5) = b.rows.mapVal (List.take 5)

theorem SameTable.get {b b' : Board} (h : SameTable b b') (ms : Text) :
    (b'.rows.get? ms).map (List.take 5) = (b.rows.get? ms).map (List.take 5) := by
  rw [← Dict.get?_mapVal, ← Dict.get?_mapVal, h.rows]

/-- What a rendered file reads as. -/
theorem Faithful.render {db : UnicodeDb} {b : Board} (h : Faithful db b) :
    ∃ b', Faithful db b' ∧ b'.lines = renderLines b false b.lines ∧ SameTable b b' := by
  obtain ⟨st, hst, hitems, hrows⟩ := h.reads
  obtain ⟨doc, hwhole, hflat⟩ := exists_doc b.lines
  obtain ⟨doc', hdoc, hlines⟩ := renderLines_flat b hwhole false
  rw [hflat] at hlines
  rw [← hflat, parseLines_flat db hwhole] at hst
  have hempty : RowsBeside b.rows Dict.empty Dict.empty := ⟨rfl, fun _ => Or.inl rfl⟩
  obtain ⟨rows, hread, hbeside⟩ := readBlocks_redrawn h.rowsOk hdoc hst hempty
  rw [hrows] at hbeside
  have htable : rows.mapVal (List.take 5) = b.rows.mapVal (List.take 5) := by
    refine Dict.ext_get ?_ fun ms => ?_
    · rw [Dict.keys_mapVal, Dict.keys_mapVal, hbeside.keys]
    · rw [Dict.get?_mapVal, Dict.get?_mapVal]
      exact (hbeside.cells ms).elim id id
  refine ⟨⟨renderLines b false b.lines, b.items, rows⟩, ⟨⟨{ st with rows := rows }, ?_, hitems, rfl⟩,
    h.tags, fun line hl => ?_, ?_⟩, rfl, rfl, htable⟩
  · rw [hlines, parseLines_flat db (whole_redrawn hwhole hdoc)]
    exact hread
  · dsimp only at hl
    rw [hlines] at hl
    exact clean_redrawn h.rowsOk hdoc (fun l hl => h.clean l (hflat ▸ hl)) line hl
  · rw [hlines]
    cases hdoc with
    | nil => exact absurd hflat.symm h.ne
    | cons _ _ => simp

theorem renderLine_congr {b b' : Board} (h : SameTable b b') (inTable : Bool) (line : Text) :
    renderLine b' inTable line = renderLine b inTable line := by
  unfold renderLine
  cases (if inTable then rowRe line else none) with
  | none => rfl
  | some ms =>
      have hget := h.get ms
      cases hb : b.rows.get? ms with
      | none =>
          rw [hb, Option.map_none, Option.map_eq_none_iff] at hget
          simp only [hget, hb]
      | some cells =>
          rw [hb, Option.map_some, Option.map_eq_some_iff] at hget
          obtain ⟨cells', hget', htake⟩ := hget
          simp only [hget', hb, htake, h.items]

theorem renderLines_congr {b b' : Board} (h : SameTable b b') (inTable : Bool)
    (lines : List Text) : renderLines b' inTable lines = renderLines b inTable lines := by
  induction lines generalizing inTable with
  | nil => rfl
  | cons line lines ih =>
      rw [renderLines, renderLines, renderLine_congr h, ih]

/-- A line that was drawn is drawn the same again. -/
theorem renderLine_again {b : Board} (hok : RowsOk b.rows) (inTable : Bool) (line : Text) :
    renderLine b inTable (renderLine b inTable line) = renderLine b inTable line := by
  rcases renderLine_cases b inTable line with heq | ⟨ms, cells, hrow, hget, heq⟩
  · rw [heq, heq]
  · rw [heq]
    rcases renderLine_cases b inTable (rowText (drawn b ms cells)) with
      hsame | ⟨ms', cells', hrow', hget', heq'⟩
    · exact hsame
    · rw [((hok ms cells hget).drawn b).reads.1, Option.some.injEq] at hrow'
      subst hrow'
      rw [hget, Option.some.injEq] at hget'
      rw [heq', hget']

/-- A line that was drawn is no marker if it was none before. -/
theorem tableNow_renderLine (b : Board) (inTable : Bool) (line : Text) (t : Bool) :
    tableNow (renderLine b inTable line) t = tableNow line t := by
  rcases renderLine_cases b inTable line with heq | ⟨ms, cells, hrow, hget, heq⟩
  · rw [heq]
  · have hno : ∀ s, tableNow ('|' :: s) t = t := by
      intro s
      obtain ⟨hopen, hclose, -⟩ := bar_line s
      rw [tableNow, if_neg (not_or.mpr ⟨hopen, hclose⟩)]
    obtain ⟨s, hs⟩ := row_line hrow
    obtain ⟨s', hs'⟩ := rowText_bar (drawn b ms cells)
    rw [heq, hs, hs', hno, hno]

theorem renderLines_again {b : Board} (hok : RowsOk b.rows) (inTable : Bool) (lines : List Text) :
    renderLines b inTable (renderLines b inTable lines) = renderLines b inTable lines := by
  induction lines generalizing inTable with
  | nil => rfl
  | cons line lines ih =>
      rw [renderLines, renderLines, tableNow_renderLine, renderLine_again hok, ih]

/-- Rendering what a rendered file reads as gives the same file. -/
theorem Faithful.render_again {db : UnicodeDb} {b b' : Board} (h : Faithful db b)
    (hlines : b'.lines = renderLines b false b.lines) (htable : SameTable b b') :
    BoardSync.render b' = BoardSync.render b := by
  rw [BoardSync.render, BoardSync.render, renderLines_congr htable, hlines,
    renderLines_again h.rowsOk]

theorem SameTable.refl (b : Board) : SameTable b b := ⟨rfl, rfl⟩

/-- A rendered file is read as it was written. -/
theorem Faithful.readText_render {db : UnicodeDb} {b : Board} (h : Faithful db b) :
    readText (BoardSync.render b) = BoardSync.render b := by
  obtain ⟨b', hb', hlines, -⟩ := h.render
  refine readText_eq_self fun hr => ?_
  rw [BoardSync.render, ← hlines] at hr
  rcases mem_joinLines hr with hr | ⟨line, hl, hr⟩
  · cases hr
  · exact (hb'.clean line hl).2 hr

/-- Reading the rendered file gives back the board, as far as a sync looks at it,
and a board that renders the same. -/
theorem Faithful.reread {db : UnicodeDb} {b : Board} (h : Faithful db b) :
    ∃ b', BoardSync.parse db (BoardSync.render b) = .ok b' ∧ SameTable b b' ∧
      BoardSync.render b' = BoardSync.render b := by
  obtain ⟨b', hb', hlines, htable⟩ := h.render
  refine ⟨b', ?_, htable, h.render_again hlines htable⟩
  have hparse := hb'.parse
  rw [hlines, ← BoardSync.render, h.readText_render] at hparse
  exact hparse

end Carwatch.BoardSync
