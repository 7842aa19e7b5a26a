import Carwatch.BoardSync.Document

/-!
# Carwatch.BoardSync.Editing — tags and ticks keep lines and items together

`setTag` and `setChecked` change the lines and the items of a board in two
separate assignments. Both leave a board whose lines read as its items.

* `Faithful` — a board that `parse` could have returned;
* `Faithful.setTag`, `Faithful.setChecked` — and still is one afterwards;
* `setTag_unplaced`, `setChecked_unplaced` — the items but for their lines.
-/

namespace Carwatch.BoardSync

open Carwatch.Lib

/-! ## Boards that read as themselves -/

/-- The lines of a board read as its items and rows, a file can hold them, and
no two items have the same tag. -/
structure Faithful (db : UnicodeDb) (b : Board) : Prop where
  reads : ∃ st, parseLines db 0 0 b.lines {} = .ok st ∧ st.items = b.items ∧ st.rows = b.rows
  tags : (b.items.filterMap Item.number).Nodup
  clean : ∀ line ∈ b.lines, Clean line
  ne : b.lines ≠ []

theorem checkSeen_ok_iff {seen : Dict ℕ ℕ} {items : List Item} :
    checkSeen seen items = .ok () ↔
      (items.filterMap Item.number).Nodup ∧
        ∀ n ∈ items.filterMap Item.number, seen.get? n = none := by
  induction items generalizing seen with
  | nil => simp [checkSeen]
  | cons it items ih =>
      rw [checkSeen]
      cases hn : it.number with
      | none =>
          rw [List.filterMap_cons_none hn]
          exact ih
      | some n =>
          rw [List.filterMap_cons_some hn, List.nodup_cons]
          cases hseen : seen.get? n with
          | some line => simp [hseen]
          | none =>
              simp only [hseen]
              rw [ih]
              constructor
              · rintro ⟨hnodup, hnone⟩
                have hfresh : n ∉ items.filterMap Item.number := by
                  intro hin
                  have hget := hnone n hin
                  rw [Dict.get?_insert, if_pos rfl] at hget
                  cases hget
                refine ⟨⟨hfresh, hnodup⟩, fun m hm => ?_⟩
                rcases List.mem_cons.mp hm with rfl | hm
                · exact hseen
                · have hget := hnone m hm
                  rw [Dict.get?_insert, if_neg] at hget
                  · exact hget
                  · rintro rfl
                    exact hfresh hm
              · rintro ⟨⟨hfresh, hnodup⟩, hnone⟩
                refine ⟨hnodup, fun m hm => ?_⟩
                rw [Dict.get?_insert, if_neg]
                · exact hnone m (List.mem_cons_of_mem n hm)
                · rintro rfl
                  exact hfresh hm

/-- What `parse` makes of the lines of such a board. -/
theorem Faithful.parse {db : UnicodeDb} {b : Board} (h : Faithful db b) :
    BoardSync.parse db (readText (joinLines b.lines)) = .ok b := by
  obtain ⟨st, hst, hitems, hrows⟩ := h.reads
  have hseen : checkSeen .empty st.items = .ok () := by
    rw [hitems, checkSeen_ok_iff]
    exact ⟨h.tags, fun n _ => Dict.get?_empty n⟩
  rw [BoardSync.parse, splitLines_readText h.ne h.clean, hst]
  simp only [hseen]
  rw [hitems, hrows]

/-- What `parse` returns is such a board, of the lines of the text. -/
theorem faithful_of_parse {db : UnicodeDb} {file : Text} {b : Board}
    (h : BoardSync.parse db (readText file) = .ok b) :
    Faithful db b ∧ joinLines b.lines = readText file := by
  unfold BoardSync.parse at h
  cases hst : parseLines db 0 0 (splitLines (readText file)) {} with
  | error e =>
      rw [hst] at h
      cases h
  | ok st =>
      rw [hst] at h
      dsimp only at h
      cases hseen : checkSeen .empty st.items with
      | error e =>
          rw [hseen] at h
          cases h
      | ok u =>
          rw [hseen] at h
          obtain rfl := Except.ok.inj h
          refine ⟨⟨⟨st, hst, rfl, rfl⟩, (checkSeen_ok_iff.mp hseen).1, fun line hl => ?_, ?_⟩,
            joinLines_splitLines _⟩
          · exact clean_splitLines hl
          · exact List.splitOn_ne_nil '\n' _

/-! ## One block replaced -/

theorem fresh_replace {pre post : List Block} {blk blk' : Block} (h : Fresh (flat (pre ++ blk :: post)))
    (h' : blk'.IsItem) : Fresh (flat (pre ++ blk' :: post)) := by
  cases pre with
  | nil =>
      intro line hl
      obtain rfl := Option.some.inj hl
      exact isMore_item h'.1
  | cons p pre => exact h

theorem Whole.replace {pre post : List Block} {blk blk' : Block} (h : Whole (pre ++ blk :: post))
    (hitem : (itemRe blk.head).isSome = true) (h' : blk'.IsItem) : Whole (pre ++ blk' :: post) := by
  induction pre with
  | nil =>
      cases h with
      | plain hno _ =>
          rw [hno] at hitem
          cases hitem
      | item _ hfresh hpost => exact Whole.item h' hfresh hpost
  | cons p pre ih =>
      cases h with
      | plain hno hrest => exact Whole.plain hno (ih hrest)
      | item hp hfresh hrest => exact Whole.item hp (fresh_replace hfresh h') (ih hrest)

/-- A board around the block of one of its items. -/
structure Around (db : UnicodeDb) (b : Board) (k : ℕ) (it : Item) where
  pre : List Block
  blk : Block
  post : List Block
  mark : Char
  body : Text
  before : ParseState
  after : List Item
  final : ParseState
  whole : Whole (pre ++ blk :: post)
  isItem : blk.IsItem
  head : itemRe blk.head = some (mark, body)
  lines : b.lines = flat (pre ++ blk :: post)
  items : b.items = before.items ++ it :: after
  rows : final.rows = b.rows
  index : before.items.length = k
  above : ∀ other ∈ before.items, other.first ≤ other.last ∧ other.last < size pre
  below : ∀ other ∈ after, size pre + blk.more.length < other.first
  start : readBlocks db 0 pre {} = .ok before
  item : readItem db (size pre) before.sect mark body blk.more = .ok it
  rest : ∀ d items, readBlocks db (size pre + 1 + blk.more.length + d) post
    { before with items := items } = .ok { final with items := items ++ after.map (Item.move d) }

theorem Whole.of_append {pre post : List Block} (h : Whole (pre ++ post)) : Whole post := by
  induction pre with
  | nil => exact h
  | cons p pre ih =>
      cases h with
      | plain _ hrest => exact ih hrest
      | item _ _ hrest => exact ih hrest

theorem Whole.head_isItem {blk : Block} {post : List Block} (h : Whole (blk :: post))
    (hitem : (itemRe blk.head).isSome = true) : blk.IsItem := by
  cases h with
  | plain hno _ =>
      rw [hno] at hitem
      cases hitem
  | item hblk _ _ => exact hblk

theorem Faithful.around {db : UnicodeDb} {b : Board} (h : Faithful db b) {k : ℕ} {it : Item}
    (hk : b.items[k]? = some it) : Nonempty (Around db b k it) := by
  obtain ⟨st, hst, hitems, hrows⟩ := h.reads
  obtain ⟨doc, hwhole, hflat⟩ := exists_doc b.lines
  rw [← hflat, parseLines_flat db hwhole] at hst
  obtain ⟨pre, blk, post, mark, body, before, rfl, hhead, hpre, hlen, hread, hpost⟩ :=
    exists_block hst (hitems ▸ hk) (Nat.zero_le k)
  have hsome : (itemRe blk.head).isSome = true := by
    rw [hhead]
    rfl
  obtain ⟨new, hnew, habove, -⟩ := readBlocks_move hpre
  obtain ⟨after, hafter, hbelow, hrest⟩ := readBlocks_move hpost
  rw [Nat.zero_add] at hread hbelow hrest
  rw [List.nil_append] at hnew
  refine ⟨⟨pre, blk, post, mark, body, before, after, st, hwhole,
    hwhole.of_append.head_isItem hsome, hhead, hflat.symm, ?_, hrows, hlen, ?_, ?_, hpre, hread,
    hrest⟩⟩
  · rw [← hitems, hafter, List.append_assoc]
    rfl
  · intro other hother
    have hb := habove other (hnew ▸ hother)
    omega
  · intro other hother
    have hb := hbelow other hother
    omega

/-- The board with the block replaced by one that reads as another item. -/
theorem Around.replace {db : UnicodeDb} {b b' : Board} {k : ℕ} {it it' : Item}
    (a : Around db b k it) {blk : Block} {mark : Char} {body : Text} {d : ℕ}
    (hhead : itemRe blk.head = some (mark, body)) (hmore : ∀ line ∈ blk.more, isMore line = true)
    (hlen : blk.more.length = a.blk.more.length + d)
    (hitem : readItem db (size a.pre) a.before.sect mark body blk.more = .ok it')
    (hlines : b'.lines = flat (a.pre ++ blk :: a.post))
    (hitems : b'.items = a.before.items ++ it' :: a.after.map (Item.move d))
    (hrows : b'.rows = b.rows) :
    ∃ st, parseLines db 0 0 b'.lines {} = .ok st ∧ st.items = b'.items ∧ st.rows = b'.rows := by
  have hblk : blk.IsItem := by
    refine ⟨?_, hmore⟩
    rw [hhead]
    rfl
  have hold : (itemRe a.blk.head).isSome = true := a.isItem.1
  refine ⟨{ a.final with items := b'.items }, ?_, rfl, a.rows.trans hrows.symm⟩
  rw [hlines, parseLines_flat db (a.whole.replace hold hblk), readBlocks_append, a.start]
  dsimp only
  rw [Nat.zero_add, readBlocks, (readBlock_item_ok hhead).mpr ⟨it', hitem, rfl⟩]
  dsimp only
  rw [hlen, ← Nat.add_assoc, a.rest d, hitems]
  simp

/-! ## What a file can hold -/

theorem clean_append {s t : Text} : Clean (s ++ t) ↔ Clean s ∧ Clean t := by
  simp only [Clean, List.mem_append, not_or]
  tauto

theorem clean_tagText (n : ℕ) : Clean (tagText n) := by
  have hdigits : Clean (natText n) := by
    constructor
    all_goals
      intro hin
      obtain ⟨d, hd, hc⟩ := exists_digit hin
      revert d
      decide
  rw [tagText, clean_append, clean_append]
  exact ⟨⟨⟨by decide, by decide⟩, hdigits⟩, by decide, by decide⟩

theorem clean_tagged {line : Text} (h : Clean line) (n : ℕ) : Clean (line ++ ' ' :: tagText n) := by
  have hspace : Clean [' '] := ⟨by decide, by decide⟩
  exact clean_append.mpr ⟨h, clean_append.mpr ⟨hspace, clean_tagText n⟩⟩

/-! ## The tagged block -/

theorem isMore_iff {line : Text} :
    isMore line = true ↔ (∃ t, line = ' ' :: ' ' :: t) ∧ ¬Blank line := by
  have hprefix : List.isPrefixOf [' ', ' '] line = true ↔ ∃ t, line = ' ' :: ' ' :: t := by
    rw [List.isPrefixOf_iff_prefix]
    exact ⟨fun ⟨t, ht⟩ => ⟨t, ht.symm⟩, fun ⟨t, ht⟩ => ⟨t, ht.symm⟩⟩
  rw [isMore, Bool.and_eq_true, hprefix, bne_iff_ne, ne_eq, strip_eq_nil_iff]

theorem not_blank_tagText (n : ℕ) : ¬Blank (tagText n) := by
  obtain ⟨u, hu⟩ := tagText_head n
  intro hblank
  rw [hu] at hblank
  exact absurd (hblank '<' List.mem_cons_self) (by decide)

theorem isMore_tagged {line : Text} (h : isMore line = true) (n : ℕ) :
    isMore (line ++ ' ' :: tagText n) = true := by
  obtain ⟨⟨t, rfl⟩, hblank⟩ := isMore_iff.mp h
  exact isMore_iff.mpr ⟨⟨_, rfl⟩, fun hall => hblank (blank_append.mp hall).1⟩

/-- The white space before a tag on a line of its own. -/
def indent : Text := [' ', ' ', ' ', ' ', ' ', ' ']

theorem isMore_tagLine (n : ℕ) : isMore (indent ++ tagText n) = true :=
  isMore_iff.mpr ⟨⟨_, rfl⟩, fun hall => not_blank_tagText n (blank_append.mp hall).2⟩

/-- A block that reads as `blk` does with the tag of `n` behind it. -/
structure Tagged (blk blk' : Block) (mark : Char) (body : Text) (n d : ℕ) : Prop where
  more : ∀ line ∈ blk'.more, isMore line = true
  length : blk'.more.length = blk.more.length + d
  joined : ∃ body' w, itemRe blk'.head = some (mark, body') ∧ Blank w ∧ w ≠ [] ∧
    joined body' blk'.more = BoardSync.joined body blk.more ++ (w ++ tagText n)
  clean : (∀ line ∈ blk.lines, Clean line) → ∀ line ∈ blk'.lines, Clean line

/-- The tag at the end of the last line. -/
theorem exists_tagged {blk : Block} {mark : Char} {body : Text} (hblk : blk.IsItem)
    (hhead : itemRe blk.head = some (mark, body)) (n : ℕ) :
    ∃ init last blk', blk.lines = init ++ [last] ∧ init.length = blk.more.length ∧
      blk'.lines = init ++ [last ++ ' ' :: tagText n] ∧ Tagged blk blk' mark body n 0 := by
  obtain ⟨head, more⟩ := blk
  rcases List.eq_nil_or_concat more with rfl | ⟨more, last, rfl⟩
  · refine ⟨[], head, ⟨head ++ ' ' :: tagText n, []⟩, rfl, rfl, rfl,
      ⟨by simp, rfl, ?_, fun hclean line hl => ?_⟩⟩
    · obtain ⟨rfl, hmark⟩ := itemRe_eq_some.mp hhead
      exact ⟨body ++ ' ' :: tagText n, [' '], itemRe_eq_some.mpr ⟨rfl, hmark⟩, blank_one, by simp,
        joined_tag_body body n⟩
    · rw [List.mem_singleton.mp hl]
      exact clean_tagged (hclean head List.mem_cons_self) n
  · rw [List.concat_eq_append] at hblk hhead ⊢
    have hlast : isMore last = true := hblk.2 last (by simp)
    obtain ⟨w, hw, hne, hjoined⟩ := joined_tag_last body more (isMore_iff.mp hlast).2 n
    refine ⟨head :: more, last, ⟨head, more ++ [last ++ ' ' :: tagText n]⟩, rfl, by simp, rfl,
      ⟨fun line hl => ?_, by simp, ⟨body, w, hhead, hw, hne, hjoined⟩, fun hclean line hl => ?_⟩⟩
    · rcases List.mem_append.mp hl with hl | hl
      · exact hblk.2 line (by simp [hl])
      · rw [List.mem_singleton.mp hl]
        exact isMore_tagged hlast n
    · have hin : line ∈ (head :: more) ++ [last ++ ' ' :: tagText n] := hl
      rcases List.mem_append.mp hin with hl | hl
      · exact hclean line (List.mem_append_left [last] hl)
      · rw [List.mem_singleton.mp hl]
        exact clean_tagged (hclean last (by simp [Block.lines])) n

/-- The tag on a line of its own. -/
theorem tagged_line {blk : Block} {mark : Char} {body : Text} (hblk : blk.IsItem)
    (hhead : itemRe blk.head = some (mark, body)) (n : ℕ) :
    Tagged blk ⟨blk.head, blk.more ++ [indent ++ tagText n]⟩ mark body n 1 := by
  refine ⟨fun line hl => ?_, by simp, ⟨body, [' '], hhead, blank_one, by simp, ?_⟩,
    fun hclean line hl => ?_⟩
  · rcases List.mem_append.mp hl with hl | hl
    · exact hblk.2 line hl
    · rw [List.mem_singleton.mp hl]
      exact isMore_tagLine n
  · exact joined_tag_line body blk.more (w := indent) (by simp [Blank, indent, isSpace]) n
  · have hin : line ∈ blk.lines ++ [indent ++ tagText n] := hl
    rcases List.mem_append.mp hin with hl | hl
    · exact hclean line hl
    · rw [List.mem_singleton.mp hl]
      exact clean_append.mpr ⟨⟨by decide, by decide⟩, clean_tagText n⟩

/-! ## `setTag` -/

section Mid

variable {α : Type} {before after : List α} {a : α} {k : ℕ} (hk : before.length = k)
include hk

theorem getElem?_mid : (before ++ a :: after)[k]? = some a := by
  subst hk
  simp

theorem set_mid (x : α) : (before ++ a :: after).set k x = before ++ x :: after := by
  subst hk
  simp

theorem insertIdx_mid (x : α) :
    (before ++ a :: after).insertIdx (k + 1) x = before ++ a :: x :: after := by
  subst hk
  induction before with
  | nil => rfl
  | cons b before ih =>
      rw [List.cons_append, List.length_cons, List.insertIdx_succ_cons, ih]
      rfl

end Mid

section Around

variable {db : UnicodeDb} {b : Board} {k : ℕ} {it : Item} (a : Around db b k it)
include a

theorem Around.getElem : b.items[k]? = some it := by
  rw [a.items]
  exact getElem?_mid a.index

theorem Around.last : it.last = size a.pre + a.blk.more.length := (readItem_span a.item).2.1

theorem Around.first : it.first = size a.pre := (readItem_span a.item).1

theorem Around.lines_split {init : List Text} {last : Text} (h : a.blk.lines = init ++ [last]) :
    b.lines = (flat a.pre ++ init) ++ last :: flat a.post := by
  rw [a.lines, flat_append, flat_cons, ← List.cons_append, ← Block.lines, h]
  simp

/-- What `setTag` writes. -/
theorem Around.setTag (n : ℕ) :
    ∃ blk' d, Tagged a.blk blk' a.mark a.body n d ∧
      (setTag b k n).lines = flat (a.pre ++ blk' :: a.post) ∧
      (setTag b k n).items =
        a.before.items ++ { it with last := it.last + d, number := some n } ::
          a.after.map (Item.move d) ∧
      (setTag b k n).rows = b.rows := by
  obtain ⟨init, last, blk', hinit, hlen, hblk', htagged⟩ := exists_tagged a.isItem a.head n
  have hat : (flat a.pre ++ init).length = it.last := by
    rw [List.length_append, hlen, a.last, size]
  have hlines := a.lines_split hinit
  have hget : b.lines.getD it.last [] = last := by
    rw [hlines, List.getD_eq_getElem?_getD, getElem?_mid hat]
    rfl
  unfold BoardSync.setTag
  simp only [a.getElem, hget]
  split_ifs
  · refine ⟨blk', 0, htagged, ?_, ?_, rfl⟩
    · dsimp only
      rw [hlines, set_mid hat, flat_append, flat_cons, ← List.cons_append, ← Block.lines, hblk']
      simp
    · dsimp only
      rw [a.items, set_mid a.index, List.map_congr_left fun other _ => Item.move_zero other,
        List.map_id']
      rfl
  · refine ⟨_, 1, tagged_line a.isItem a.head n, ?_, ?_, rfl⟩
    · have hnew : flat (a.pre ++ ⟨a.blk.head, a.blk.more ++ [indent ++ tagText n]⟩ :: a.post) =
          flat a.pre ++ (a.blk.lines ++ (indent ++ tagText n) :: flat a.post) := by
        simp [Block.lines]
      dsimp only
      rw [hlines, insertIdx_mid hat, hnew, hinit]
      simp [indent]
    · -- the items above stay, those below move down one line
      have habove : a.before.items.map (fun other =>
          if it.last < other.first then other.down else other) = a.before.items := by
        rw [List.map_congr_left, List.map_id']
        intro other hother
        have hb := a.above other hother
        have hlast := a.last
        exact if_neg (by omega)
      have hbelow : a.after.map (fun other =>
          if it.last < other.first then other.down else other) = a.after.map (Item.move 1) := by
        refine List.map_congr_left fun other hother => ?_
        have hb := a.below other hother
        have hlast := a.last
        exact if_pos (by omega)
      dsimp only
      rw [a.items, List.map_append, List.map_cons, habove, hbelow, set_mid a.index]

end Around

/-- A board with one block replaced by a tagged or ticked one. -/
theorem Around.faithful {db : UnicodeDb} {b b' : Board} {k : ℕ} {it : Item}
    (a : Around db b k it) (h : Faithful db b) {blk : Block}
    (hreads : ∃ st, parseLines db 0 0 b'.lines {} = .ok st ∧ st.items = b'.items ∧
      st.rows = b'.rows)
    (hlines : b'.lines = flat (a.pre ++ blk :: a.post))
    (hclean : (∀ line ∈ a.blk.lines, Clean line) → ∀ line ∈ blk.lines, Clean line)
    (htags : (b'.items.filterMap Item.number).Nodup) : Faithful db b' := by
  have hall : ∀ blk : Block, ∀ line, line ∈ flat (a.pre ++ blk :: a.post) ↔
      line ∈ flat a.pre ∨ line ∈ blk.lines ∨ line ∈ flat a.post := by
    intro blk line
    simp [Block.lines, or_assoc]
  have hold : ∀ line, line ∈ flat a.pre ∨ line ∈ a.blk.lines ∨ line ∈ flat a.post → Clean line := by
    intro line hl
    exact h.clean line (by rw [a.lines]; exact (hall a.blk line).mpr hl)
  refine ⟨hreads, htags, fun line hl => ?_, ?_⟩
  · rw [hlines, hall] at hl
    rcases hl with hl | hl | hl
    · exact hold line (Or.inl hl)
    · exact hclean (fun l hl => hold l (Or.inr (Or.inl hl))) line hl
    · exact hold line (Or.inr (Or.inr hl))
  · rw [hlines]
    simp

theorem filterMap_move (d : ℕ) (items : List Item) :
    (items.map (Item.move d)).filterMap Item.number = items.filterMap Item.number := by
  rw [List.filterMap_map]
  rfl

/-- A tag keeps lines and items together. -/
theorem Faithful.setTag {db : UnicodeDb} {b : Board} (h : Faithful db b) {k : ℕ} {it : Item}
    (hk : b.items[k]? = some it) (hnone : it.number = none) {n : ℕ}
    (hn : n ∉ b.items.filterMap Item.number) : Faithful db (BoardSync.setTag b k n) := by
  obtain ⟨a⟩ := h.around hk
  obtain ⟨blk, d, htagged, hlines, hitems, hrows⟩ := a.setTag n
  obtain ⟨body, w, hhead, hw, hne, hjoined⟩ := htagged.joined
  have hread := readItem_tag a.item hnone hw hne hjoined
  have hlast : it.last + d = size a.pre + blk.more.length := by
    rw [a.last, htagged.length, Nat.add_assoc]
  rw [← hlast] at hread
  refine a.faithful h (a.replace hhead htagged.more htagged.length hread hlines hitems hrows) hlines
    htagged.clean ?_
  have hold := h.tags
  rw [a.items, List.filterMap_append, List.filterMap_cons_none hnone] at hold hn
  rw [hitems, List.filterMap_append, List.filterMap_cons_some (f := Item.number) (b := n) rfl,
    filterMap_move]
  exact List.nodup_middle.mpr (List.nodup_cons.mpr ⟨hn, hold⟩)

/-! ## `setChecked` -/

theorem replaceFirst_mark (body : Text) :
    replaceFirst ['-', ' ', '[', ' ', ']'] ['-', ' ', '[', 'x', ']']
      ('-' :: ' ' :: '[' :: ' ' :: ']' :: ' ' :: body) =
      '-' :: ' ' :: '[' :: 'x' :: ']' :: ' ' :: body := by
  rw [replaceFirst, if_pos]
  · rfl
  · rfl

/-- A tick keeps lines and items together. -/
theorem Faithful.setChecked {db : UnicodeDb} {b : Board} (h : Faithful db b) {k : ℕ} {it : Item}
    (hk : b.items[k]? = some it) (hopen : it.checked = false) :
    Faithful db (BoardSync.setChecked b k) := by
  obtain ⟨a⟩ := h.around hk
  have hmark : a.mark = ' ' := by
    have hchecked := (readItem_span a.item).2.2
    rw [hopen] at hchecked
    simpa using hchecked.symm
  obtain ⟨hhead, -⟩ := itemRe_eq_some.mp a.head
  rw [hmark] at hhead
  have hat : (flat a.pre).length = it.first := a.first.symm
  have hsplit : b.lines = flat a.pre ++ a.blk.head :: (a.blk.more ++ flat a.post) := by
    rw [a.lines, flat_append, flat_cons]
  have hitems : (BoardSync.setChecked b k).items =
      a.before.items ++ { it with checked := true } :: a.after.map (Item.move 0) := by
    rw [List.map_congr_left fun other _ => Item.move_zero other, List.map_id']
    unfold BoardSync.setChecked
    rw [hk]
    dsimp only
    rw [a.items, set_mid a.index]
  obtain ⟨blk, hblk⟩ : ∃ blk : Block,
      blk = ⟨'-' :: ' ' :: '[' :: 'x' :: ']' :: ' ' :: a.body, a.blk.more⟩ := ⟨_, rfl⟩
  have hticked : itemRe blk.head = some ('x', a.body) := by
    rw [hblk]
    exact itemRe_eq_some.mpr ⟨rfl, Or.inr (Or.inl rfl)⟩
  have hmore : blk.more = a.blk.more := by rw [hblk]
  have hlines : (BoardSync.setChecked b k).lines = flat (a.pre ++ blk :: a.post) := by
    unfold BoardSync.setChecked
    rw [hk]
    dsimp only
    rw [hsplit, List.getD_eq_getElem?_getD, getElem?_mid hat, set_mid hat, Option.getD_some, hhead,
      replaceFirst_mark, flat_append, flat_cons, hblk]
  have hrows : (BoardSync.setChecked b k).rows = b.rows := by
    unfold BoardSync.setChecked
    rw [hk]
  have hreads := a.replace hticked (by rw [hmore]; exact a.isItem.2) (by rw [hmore]; rfl)
    (by rw [hmore]; exact readItem_tick a.item) hlines hitems hrows
  refine a.faithful h hreads hlines (fun hclean line hl => ?_) ?_
  · rw [hblk] at hl
    rcases List.mem_cons.mp hl with rfl | hl
    · have hold := hclean a.blk.head List.mem_cons_self
      rw [hhead] at hold
      simpa [Clean] using hold
    · exact hclean line (List.mem_cons_of_mem _ hl)
  · have hold := h.tags
    rw [a.items, List.filterMap_append, List.filterMap_cons] at hold
    rw [hitems, List.filterMap_append, List.filterMap_cons, filterMap_move]
    exact hold

/-! ## Items without their lines -/

/-- An item but for where it stands. -/
def Item.unplaced (it : Item) : Item := { it with first := 0, last := 0 }

theorem map_set_modify {α β : Type} {f : α → β} {g : β → β} {l : List α} {k : ℕ} {a x : α}
    (hk : l[k]? = some a) (hx : f x = g (f a)) : (l.set k x).map f = (l.map f).modify k g := by
  refine List.ext_getElem? fun j => ?_
  have hlt : k < l.length := (List.getElem?_eq_some_iff.mp hk).1
  rw [List.getElem?_map, List.getElem?_set, List.getElem?_modify, List.getElem?_map]
  by_cases hj : k = j
  · subst hj
    rw [if_pos rfl, if_pos hlt, hk]
    simp [hx]
  · simp [hj]

/-- One item is changed, and of the others no more than where they stand. -/
structure OneItem (f : Item → Item) (k : ℕ) (b b' : Board) : Prop where
  items : b'.items.map Item.unplaced = (b.items.map Item.unplaced).modify k f
  rows : b'.rows = b.rows

namespace OneItem

variable {f : Item → Item} {k : ℕ} {b b' : Board} (h : OneItem f k b b')
include h

theorem getElem (j : ℕ) :
    (b'.items[j]?).map Item.unplaced =
      (b.items[j]?).map fun it => if k = j then f it.unplaced else it.unplaced := by
  rw [← List.getElem?_map, h.items, List.getElem?_modify, List.getElem?_map]
  cases b.items[j]? <;> rfl

/-- Where an item of the changed board comes from. -/
theorem before {j : ℕ} {it' : Item} (hj : b'.items[j]? = some it') :
    ∃ it, b.items[j]? = some it ∧
      it'.unplaced = if k = j then f it.unplaced else it.unplaced := by
  have hget := h.getElem j
  rw [hj, Option.map_some, eq_comm, Option.map_eq_some_iff] at hget
  obtain ⟨it, hit, heq⟩ := hget
  exact ⟨it, hit, heq.symm⟩

/-- What becomes of an item. -/
theorem now {j : ℕ} {it : Item} (hj : b.items[j]? = some it) :
    ∃ it', b'.items[j]? = some it' ∧
      it'.unplaced = if k = j then f it.unplaced else it.unplaced := by
  have hget := h.getElem j
  rw [hj, Option.map_some, Option.map_eq_some_iff] at hget
  exact hget

theorem now_self {it : Item} (hk : b.items[k]? = some it) :
    ∃ it', b'.items[k]? = some it' ∧ it'.unplaced = f it.unplaced := by
  obtain ⟨it', hit', heq⟩ := h.now hk
  rw [if_pos rfl] at heq
  exact ⟨it', hit', heq⟩

theorem now_other {j : ℕ} (hne : j ≠ k) {it : Item} (hj : b.items[j]? = some it) :
    ∃ it', b'.items[j]? = some it' ∧ it'.unplaced = it.unplaced := by
  obtain ⟨it', hit', heq⟩ := h.now hj
  rw [if_neg hne.symm] at heq
  exact ⟨it', hit', heq⟩

theorem before_other {j : ℕ} (hne : j ≠ k) {it' : Item} (hj : b'.items[j]? = some it') :
    ∃ it, b.items[j]? = some it ∧ it'.unplaced = it.unplaced := by
  obtain ⟨it, hit, heq⟩ := h.before hj
  rw [if_neg hne.symm] at heq
  exact ⟨it, hit, heq⟩

section Same

variable {α : Type} {g : Item → α} (hplace : ∀ it, g it.unplaced = g it) (hf : ∀ it, g (f it) = g it)
include hplace hf

/-- What the change leaves alone. -/
theorem now_same {j : ℕ} {it : Item} (hj : b.items[j]? = some it) :
    ∃ it', b'.items[j]? = some it' ∧ g it' = g it := by
  obtain ⟨it', hit', heq⟩ := h.now hj
  refine ⟨it', hit', ?_⟩
  rw [← hplace it', heq]
  split_ifs
  · rw [hf, hplace]
  · exact hplace it

theorem before_same {j : ℕ} {it' : Item} (hj : b'.items[j]? = some it') :
    ∃ it, b.items[j]? = some it ∧ g it' = g it := by
  obtain ⟨it, hit, -⟩ := h.before hj
  obtain ⟨it'', hit'', heq⟩ := h.now_same hplace hf hit
  rw [hj, Option.some.injEq] at hit''
  exact ⟨it, hit, hit'' ▸ heq⟩

end Same

end OneItem

/-- `setTag` gives the item its number, and changes no other. -/
theorem setTag_unplaced (b : Board) (k n : ℕ) :
    (setTag b k n).items.map Item.unplaced =
      (b.items.map Item.unplaced).modify k fun it => { it with number := some n } := by
  unfold setTag
  cases hk : b.items[k]? with
  | none =>
      rw [List.modify_eq_self]
      rw [List.length_map]
      exact List.getElem?_eq_none_iff.mp hk
  | some it =>
      dsimp only
      split_ifs
      · exact map_set_modify hk rfl
      · -- moving an item down changes nothing here
        have hdown : (b.items.map fun other =>
            if it.last < other.first then other.down else other).map Item.unplaced =
              b.items.map Item.unplaced := by
          rw [List.map_map]
          refine List.map_congr_left fun other _ => ?_
          rw [Function.comp_apply]
          split_ifs
          · rfl
          · rfl
        have hmoved : (b.items.map fun other =>
            if it.last < other.first then other.down else other)[k]? =
              some (if it.last < it.first then it.down else it) := by
          rw [List.getElem?_map, hk]
          rfl
        rw [← hdown]
        refine map_set_modify hmoved ?_
        split_ifs
        · rfl
        · rfl

/-- `setChecked` ticks the item, and changes no other. -/
theorem setChecked_unplaced (b : Board) (k : ℕ) :
    (setChecked b k).items.map Item.unplaced =
      (b.items.map Item.unplaced).modify k fun it => { it with checked := true } := by
  unfold setChecked
  cases hk : b.items[k]? with
  | none =>
      rw [List.modify_eq_self]
      rw [List.length_map]
      exact List.getElem?_eq_none_iff.mp hk
  | some it => exact map_set_modify hk rfl

theorem setTag_oneItem (b : Board) (k n : ℕ) :
    OneItem (fun it => { it with number := some n }) k b (setTag b k n) := by
  refine ⟨setTag_unplaced b k n, ?_⟩
  unfold setTag
  split
  · rfl
  · dsimp only
    split_ifs
    · rfl
    · rfl

theorem setChecked_oneItem (b : Board) (k : ℕ) :
    OneItem (fun it => { it with checked := true }) k b (setChecked b k) := by
  refine ⟨setChecked_unplaced b k, ?_⟩
  unfold setChecked
  split
  · rfl
  · rfl

end Carwatch.BoardSync
