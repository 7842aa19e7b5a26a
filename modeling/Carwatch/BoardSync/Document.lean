import Carwatch.BoardSync.Tags

/-!
# Carwatch.BoardSync.Document — the lines of the file in blocks

An item is a line with its continuation lines; every other line stands alone.
Cut into such blocks, the file can be changed in one of them and the rest reads
as before, further down perhaps.

* `Whole`, `exists_doc` — every file is such a list of blocks;
* `readBlocks`, `parseLines_flat` — the loop of `parse`, block by block;
* `readBlocks_move` — the blocks behind one that has grown;
* `exists_block` — the block of the item at an index.
-/

namespace Carwatch.BoardSync

open Carwatch.Lib

/-! ## Blocks -/

/-- A line, and the lines that continue it. -/
structure Block where
  head : Text
  more : List Text

/-- The lines of a block. -/
def Block.lines (blk : Block) : List Text := blk.head :: blk.more

/-- The lines of a list of blocks. -/
def flat (doc : List Block) : List Text := doc.flatMap Block.lines

@[simp] theorem flat_cons (blk : Block) (doc : List Block) :
    flat (blk :: doc) = blk.head :: (blk.more ++ flat doc) := rfl

@[simp] theorem flat_append (pre post : List Block) : flat (pre ++ post) = flat pre ++ flat post :=
  List.flatMap_append

/-- A list of lines the first of which continues nothing. -/
def Fresh (lines : List Text) : Prop := ∀ line ∈ lines.head?, isMore line = false

/-- The block of an item. -/
def Block.IsItem (blk : Block) : Prop :=
  (itemRe blk.head).isSome = true ∧ ∀ line ∈ blk.more, isMore line = true

/-- Blocks that are as long as `parse` takes them to be. -/
inductive Whole : List Block → Prop where
  | nil : Whole []
  | plain {line : Text} {doc : List Block} : itemRe line = none → Whole doc →
      Whole (⟨line, []⟩ :: doc)
  | item {blk : Block} {doc : List Block} : blk.IsItem → Fresh (flat doc) → Whole doc →
      Whole (blk :: doc)

/-- Every list of lines is one of blocks. -/
theorem exists_doc (lines : List Text) : ∃ doc, Whole doc ∧ flat doc = lines := by
  induction hn : lines.length using Nat.strong_induction_on generalizing lines with
  | _ n ih =>
      subst hn
      cases lines with
      | nil => exact ⟨[], Whole.nil, rfl⟩
      | cons line rest =>
          cases hitem : itemRe line with
          | none =>
              obtain ⟨doc, hdoc, rfl⟩ := ih rest.length (by simp) rest rfl
              exact ⟨⟨line, []⟩ :: doc, Whole.plain hitem hdoc, rfl⟩
          | some r =>
              have hlt : (rest.dropWhile isMore).length < (line :: rest).length := by
                have hle := List.length_dropWhile_le isMore rest
                rw [List.length_cons]
                omega
              obtain ⟨doc, hdoc, hflat⟩ := ih _ hlt _ rfl
              refine ⟨⟨line, rest.takeWhile isMore⟩ :: doc, Whole.item ⟨?_, ?_⟩ ?_ hdoc, ?_⟩
              · rw [hitem]
                rfl
              · exact fun l hl => List.mem_takeWhile_imp hl
              · intro l hl
                rw [hflat] at hl
                have hne : rest.dropWhile isMore ≠ [] := by
                  intro hnil
                  rw [hnil] at hl
                  cases hl
                have hhead := List.head_dropWhile_not isMore hne
                rw [Option.mem_def, List.head?_eq_some_head hne, Option.some.injEq] at hl
                rw [hl] at hhead
                exact Bool.eq_false_iff.mpr (by simpa using hhead)
              · rw [flat_cons, hflat, List.takeWhile_append_dropWhile]

/-! ## Lines of items -/

theorem itemRe_eq_some {line body : Text} {mark : Char} :
    itemRe line = some (mark, body) ↔
      line = '-' :: ' ' :: '[' :: mark :: ']' :: ' ' :: body ∧
        (mark = ' ' ∨ mark = 'x' ∨ mark = 'X') := by
  unfold itemRe
  split
  · split_ifs with hmark
    · simp only [Option.some.injEq, Prod.mk.injEq]
      constructor
      · rintro ⟨rfl, rfl⟩
        exact ⟨rfl, hmark⟩
      · rintro ⟨h, -⟩
        simp only [List.cons.injEq] at h
        tauto
    · simp only [false_iff]
      rintro ⟨h, hm⟩
      simp only [List.cons.injEq] at h
      exact hmark (by rwa [h.2.2.2.1])
  · rename_i hno
    simp only [reduceCtorEq, false_iff]
    rintro ⟨rfl, -⟩
    exact hno mark body rfl

/-- Such a line has no part in the table, and is no heading. -/
theorem item_line {line : Text} (h : (itemRe line).isSome = true) :
    ∃ t, line = '-' :: ' ' :: '[' :: t := by
  obtain ⟨⟨mark, body⟩, hr⟩ := Option.isSome_iff_exists.mp h
  exact ⟨_, (itemRe_eq_some.mp hr).1⟩

theorem dash_not_marker (t : Text) :
    strip ('-' :: t) ≠ tableOpen ∧ strip ('-' :: t) ≠ tableClose := by
  rw [strip_cons (by decide)]
  constructor
  all_goals
    intro h
    have hhead := congrArg List.head? h
    rw [List.head?_cons] at hhead
    exact absurd hhead (by decide +kernel)

theorem parseTable_item {line : Text} (h : (itemRe line).isSome = true) (i : ℕ)
    (st : ParseState) : parseTable i line st = .ok st := by
  obtain ⟨t, rfl⟩ := item_line h
  have hrow : rowRe ('-' :: ' ' :: '[' :: t) = none := rfl
  rw [parseTable, if_neg (dash_not_marker _).1, if_neg (dash_not_marker _).2, hrow]
  simp

theorem parseSection_item {line : Text} (h : (itemRe line).isSome = true) (db : UnicodeDb)
    (st : ParseState) : parseSection db line st = st := by
  obtain ⟨t, rfl⟩ := item_line h
  rfl

theorem isMore_item {line : Text} (h : (itemRe line).isSome = true) : isMore line = false := by
  obtain ⟨t, rfl⟩ := item_line h
  rfl

/-! ## Reading block by block -/

/-- `parse` on one block. -/
def readBlock (db : UnicodeDb) (i : ℕ) (blk : Block) (st : ParseState) :
    Except ParseFail ParseState :=
  match parseTable i blk.head st with
  | .error e => .error e
  | .ok st =>
      let st := parseSection db blk.head st
      match itemRe blk.head with
      | none => .ok st
      | some (mark, body) =>
          match readItem db i st.sect mark body blk.more with
          | .error e => .error e
          | .ok item => .ok { st with items := st.items ++ [item] }

/-- How many lines there are in a list of blocks. -/
def size (doc : List Block) : ℕ := (flat doc).length

@[simp] theorem size_cons (blk : Block) (doc : List Block) :
    size (blk :: doc) = 1 + blk.more.length + size doc := by
  rw [size, flat_cons, List.length_cons, List.length_append, size]
  omega

/-- `parse` on blocks, the first of which starts on line `i`. -/
def readBlocks (db : UnicodeDb) : ℕ → List Block → ParseState → Except ParseFail ParseState
  | _, [], st => .ok st
  | i, blk :: doc, st =>
      match readBlock db i blk st with
      | .error e => .error e
      | .ok st => readBlocks db (i + 1 + blk.more.length) doc st

theorem parseLines_skip (db : UnicodeDb) (i : ℕ) (more rest : List Text) (st : ParseState) :
    parseLines db i more.length (more ++ rest) st = parseLines db (i + more.length) 0 rest st := by
  induction more generalizing i with
  | nil => rfl
  | cons line more ih =>
      rw [List.length_cons, List.cons_append, parseLines, ih]
      congr 1
      omega

theorem takeWhile_fresh {more rest : List Text} (hmore : ∀ line ∈ more, isMore line = true)
    (hfresh : Fresh rest) : (more ++ rest).takeWhile isMore = more := by
  rw [List.takeWhile_append_of_pos hmore]
  cases rest with
  | nil => rw [List.takeWhile_nil, List.append_nil]
  | cons line rest =>
      rw [List.takeWhile_cons_of_neg (by rw [hfresh line rfl]; decide), List.append_nil]

/-- The loop of `parse`, block by block. -/
theorem parseLines_flat (db : UnicodeDb) {doc : List Block} (h : Whole doc) (i : ℕ)
    (st : ParseState) : parseLines db i 0 (flat doc) st = readBlocks db i doc st := by
  induction h generalizing i st with
  | nil => rfl
  | @plain line doc hitem _ ih =>
      rw [flat_cons, parseLines, readBlocks, readBlock]
      cases parseTable i line st with
      | error e => rfl
      | ok st =>
          simp only [hitem]
          exact ih (i + 1) _
  | @item blk doc hblk hfresh _ ih =>
      obtain ⟨⟨mark, body⟩, hr⟩ := Option.isSome_iff_exists.mp hblk.1
      rw [flat_cons, parseLines, readBlocks, readBlock, parseTable_item hblk.1,
        takeWhile_fresh hblk.2 hfresh]
      simp only [hr]
      cases readItem db i (parseSection db blk.head st).sect mark body blk.more with
      | error e => rfl
      | ok item =>
          dsimp only
          rw [parseLines_skip, ih]

theorem readBlocks_append (db : UnicodeDb) (i : ℕ) (pre post : List Block) (st : ParseState) :
    readBlocks db i (pre ++ post) st =
      match readBlocks db i pre st with
      | .error e => .error e
      | .ok st => readBlocks db (i + size pre) post st := by
  induction pre generalizing i st with
  | nil => rfl
  | cons blk pre ih =>
      rw [List.cons_append, readBlocks, readBlocks]
      cases readBlock db i blk st with
      | error e => rfl
      | ok st =>
          dsimp only
          rw [ih, size_cons]
          simp only [Nat.add_assoc]

/-! ## Blocks further down -/

/-- An item `d` lines further down. -/
def Item.move (d : ℕ) (it : Item) : Item := { it with first := it.first + d, last := it.last + d }

@[simp] theorem Item.move_zero (it : Item) : it.move 0 = it := rfl

theorem parseTable_move {i : ℕ} {line : Text} {st st' : ParseState}
    (h : parseTable i line st = .ok st') :
    st'.items = st.items ∧ ∀ j items,
      parseTable j line { st with items := items } = .ok { st' with items := items } := by
  unfold parseTable at h ⊢
  dsimp only at h ⊢
  split_ifs at h ⊢
  all_goals
    obtain rfl := Except.ok.inj h
    exact ⟨rfl, fun _ _ => rfl⟩

theorem parseSection_move (db : UnicodeDb) (line : Text) (st : ParseState) :
    (parseSection db line st).items = st.items ∧ ∀ items,
      parseSection db line { st with items := items } =
        { parseSection db line st with items := items } := by
  unfold parseSection
  split_ifs
  · exact ⟨rfl, fun _ => rfl⟩
  · exact ⟨rfl, fun _ => rfl⟩

/-- A block that is no item only moves the state on. -/
theorem readBlock_plain {db : UnicodeDb} {i : ℕ} {blk : Block} {st st' : ParseState}
    (hno : itemRe blk.head = none) (h : readBlock db i blk st = .ok st') :
    st'.items = st.items ∧ ∀ j items,
      readBlock db j blk { st with items := items } = .ok { st' with items := items } := by
  unfold readBlock at h ⊢
  cases htable : parseTable i blk.head st with
  | error e =>
      rw [htable] at h
      cases h
  | ok st₁ =>
      obtain ⟨hitems, hmove⟩ := parseTable_move htable
      obtain ⟨hitems', hmove'⟩ := parseSection_move db blk.head st₁
      rw [htable] at h
      simp only [hno] at h
      obtain rfl := Except.ok.inj h
      refine ⟨hitems'.trans hitems, fun j items => ?_⟩
      rw [hmove j items]
      simp only [hno]
      rw [hmove' items]

/-- The block of an item adds what `readItem` finds. -/
theorem readBlock_item {db : UnicodeDb} {i : ℕ} {blk : Block} {st : ParseState} {mark : Char}
    {body : Text} (hr : itemRe blk.head = some (mark, body)) :
    readBlock db i blk st =
      match readItem db i st.sect mark body blk.more with
      | .error e => .error e
      | .ok item => .ok { st with items := st.items ++ [item] } := by
  have hsome : (itemRe blk.head).isSome = true := by
    rw [hr]
    rfl
  rw [readBlock, parseTable_item hsome]
  simp only [hr, parseSection_item hsome]

theorem readBlock_item_ok {db : UnicodeDb} {i : ℕ} {blk : Block} {st st' : ParseState}
    {mark : Char} {body : Text} (hr : itemRe blk.head = some (mark, body)) :
    readBlock db i blk st = .ok st' ↔ ∃ item, readItem db i st.sect mark body blk.more = .ok item ∧
      st' = { st with items := st.items ++ [item] } := by
  rw [readBlock_item hr]
  cases readItem db i st.sect mark body blk.more with
  | error e => simp
  | ok item => simp [eq_comm]

/-- What blocks add to the items, wherever they stand and whatever is before. -/
theorem readBlocks_move {db : UnicodeDb} {i : ℕ} {doc : List Block} {st st' : ParseState}
    (h : readBlocks db i doc st = .ok st') :
    ∃ new, st'.items = st.items ++ new ∧
      (∀ it ∈ new, i ≤ it.first ∧ it.first ≤ it.last ∧ it.last < i + size doc) ∧
      ∀ d items, readBlocks db (i + d) doc { st with items := items } =
        .ok { st' with items := items ++ new.map (Item.move d) } := by
  induction doc generalizing i st with
  | nil =>
      obtain rfl := Except.ok.inj h
      exact ⟨[], by simp, by simp, fun d items => by simp [readBlocks]⟩
  | cons blk doc ih =>
      rw [readBlocks] at h
      cases hblk : readBlock db i blk st with
      | error e =>
          rw [hblk] at h
          cases h
      | ok st₁ =>
          rw [hblk] at h
          obtain ⟨new, hitems, hbound, hmove⟩ := ih h
          have hdist : ∀ d, i + d + 1 + blk.more.length = i + 1 + blk.more.length + d := by
            intro d
            omega
          rw [size_cons]
          cases hr : itemRe blk.head with
          | none =>
              obtain ⟨hsame, hplain⟩ := readBlock_plain hr hblk
              refine ⟨new, hitems.trans (by rw [hsame]), fun it hit => ?_, fun d items => ?_⟩
              · have hb := hbound it hit
                omega
              · rw [readBlocks, hplain (i + d) items]
                dsimp only
                rw [hdist, hmove d items]
          | some r =>
              obtain ⟨mark, body⟩ := r
              obtain ⟨item, hread, rfl⟩ := (readBlock_item_ok hr).mp hblk
              obtain ⟨hfirst, hlast, -⟩ := readItem_span hread
              refine ⟨item :: new, hitems.trans (by simp), fun it hit => ?_, fun d items => ?_⟩
              · rcases List.mem_cons.mp hit with rfl | hit
                · omega
                · have hb := hbound it hit
                  omega
              · have hitem : { item with first := i + d, last := i + d + blk.more.length } =
                    item.move d := by
                  rw [Item.move, hfirst, hlast, Nat.add_right_comm]
                have hmoved : readBlock db (i + d) blk { st with items := items } =
                    .ok { st with items := items ++ [item.move d] } := by
                  rw [readBlock_item_ok hr, ← hitem]
                  exact ⟨_, readItem_at hread (i + d), rfl⟩
                rw [readBlocks, hmoved]
                dsimp only
                rw [hdist, hmove d (items ++ [item.move d])]
                simp

/-- The block of the item at an index. -/
theorem exists_block {db : UnicodeDb} {i k : ℕ} {doc : List Block} {st st' : ParseState}
    {it : Item} (h : readBlocks db i doc st = .ok st') (hk : st'.items[k]? = some it)
    (hle : st.items.length ≤ k) :
    ∃ pre blk post mark body st₁, doc = pre ++ blk :: post ∧
      itemRe blk.head = some (mark, body) ∧ readBlocks db i pre st = .ok st₁ ∧
      st₁.items.length = k ∧ readItem db (i + size pre) st₁.sect mark body blk.more = .ok it ∧
      readBlocks db (i + size pre + 1 + blk.more.length) post
        { st₁ with items := st₁.items ++ [it] } = .ok st' := by
  induction doc generalizing i st with
  | nil =>
      obtain rfl := Except.ok.inj h
      rw [List.getElem?_eq_none hle] at hk
      cases hk
  | cons blk doc ih =>
      rw [readBlocks] at h
      cases hblk : readBlock db i blk st with
      | error e =>
          rw [hblk] at h
          cases h
      | ok st₁ =>
          rw [hblk] at h
          by_cases hlater : st₁.items.length ≤ k
          · obtain ⟨pre, blk', post, mark, body, st₂, rfl, hr, hpre, hlen, hread, hpost⟩ :=
              ih h hlater
            have hat : i + size (blk :: pre) = i + 1 + blk.more.length + size pre := by
              rw [size_cons]
              omega
            refine ⟨blk :: pre, blk', post, mark, body, st₂, rfl, hr, ?_, hlen, ?_, ?_⟩
            · rw [readBlocks, hblk]
              exact hpre
            · rw [hat]
              exact hread
            · rw [hat]
              exact hpost
          · cases hr : itemRe blk.head with
            | none =>
                rw [(readBlock_plain hr hblk).1] at hlater
                exact absurd hle hlater
            | some r =>
                obtain ⟨mark, body⟩ := r
                obtain ⟨item, hread, rfl⟩ := (readBlock_item_ok hr).mp hblk
                have hlen : st.items.length = k := by
                  simp only [List.length_append, List.length_singleton] at hlater
                  omega
                obtain ⟨new, hitems, -, -⟩ := readBlocks_move h
                rw [hitems, ← hlen] at hk
                obtain rfl : item = it := by simpa using hk
                exact ⟨[], blk, doc, mark, body, st, rfl, hr, rfl, hlen, hread, h⟩

end Carwatch.BoardSync
