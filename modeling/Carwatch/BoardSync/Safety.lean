import Carwatch.BoardSync.Rendering
import Carwatch.BoardSync.Sync

/-!
# Carwatch.BoardSync.Safety — what a run keeps, wherever it stops

A run stops at the first call that fails. What it leaves is a file that reads
as the board of that moment, with the tag of every issue it has created: the
file is saved between a creation and the next call.

* `InRun` — the invariant of a run, `Once` — at most one creation for a line;
* `InRun.did`, `InRun.change` — a call, and a change of the board;
* `InRun.reread` — what the next run finds in the file.
-/

namespace Carwatch.BoardSync

open Carwatch.Lib

/-! ## What a run may not lose -/

/-- What no sync changes of an item. -/
def Item.words (it : Item) : Text × Text × Option Text × Option Person :=
  (it.milestone, it.text, it.slug, it.owner)

/-- The words of all items. -/
def Board.words (b : Board) : List (Text × Text × Option Text × Option Person) :=
  b.items.map Item.words

theorem OneItem.words {f : Item → Item} {k : ℕ} {b b' : Board} (h : OneItem f k b b')
    (hf : ∀ it, (f it).words = it.words) : b'.words = b.words := by
  refine List.ext_getElem? fun j => ?_
  have hget := congrArg (Option.map Item.words) (h.getElem j)
  rw [Option.map_map, Option.map_map] at hget
  rw [Board.words, Board.words, List.getElem?_map, List.getElem?_map]
  refine Eq.trans (b := _) hget ?_
  cases b.items[j]? with
  | none => rfl
  | some it =>
      rw [Option.map_some, Option.map_some, Function.comp_apply]
      split_ifs
      · exact congrArg some (hf it.unplaced)
      · rfl

/-- Some line has the tag of the issue. -/
def Listed (b : Board) (n : ℕ) : Prop := ∃ it ∈ b.items, it.number = some n

theorem listed_iff {b : Board} {n : ℕ} : Listed b n ↔ n ∈ b.items.filterMap Item.number :=
  List.mem_filterMap.symm

theorem listed_getElem {b : Board} {k n : ℕ} {it : Item} (hk : b.items[k]? = some it)
    (hn : it.number = some n) : Listed b n := ⟨it, List.mem_of_getElem? hk, hn⟩

/-- The issue is there and closed. -/
def IsClosed (hub : Hub) (n : ℕ) : Prop := ∃ i, hub.issue n = some i ∧ i.closed = true

/-- The issue of every tag is there. -/
def TagsExist (hub : Hub) (b : Board) : Prop := ∀ n, Listed b n → hub.issue n ≠ none

/-- The calls that create an issue. -/
def Call.creates : Call → Bool
  | .createIssue _ _ _ _ _ => true
  | _ => false

/-- How many issues were created for a line. -/
def created (log : List Entry) (k : ℕ) : ℕ :=
  log.countP fun e => e.line == some k && e.ok && e.call.creates

/-- Every issue that was created was created for a line, with its words; no line
has had more than one, and one that had has its tag. -/
structure Once (db : UnicodeDb) (log : List Entry) (b : Board) : Prop where
  line : ∀ e ∈ log, e.ok = true → e.call.creates = true →
    ∃ k it, e.line = some k ∧ b.items[k]? = some it ∧ e.call = createCall db it
  one : ∀ k, created log k ≤ 1
  tagged : ∀ k, created log k = 1 → ∃ it n, b.items[k]? = some it ∧ it.number = some n

/-! ## What a call may do -/

/-- No call loses an issue or opens one, and one alone closes one. -/
theorem apply_keeps {hub hub' : Hub} {n : ℕ} {c : Call} (h : hub.apply n c = some hub') (m : ℕ) :
    (hub.issue m ≠ none → hub'.issue m ≠ none) ∧ (IsClosed hub m → IsClosed hub' m) ∧
      (IsClosed hub' m → IsClosed hub m ∨ c = .closeIssue m) := by
  have hsame : hub'.issues = hub.issues → (hub.issue m ≠ none → hub'.issue m ≠ none) ∧
      (IsClosed hub m → IsClosed hub' m) ∧ (IsClosed hub' m → IsClosed hub m ∨ c = .closeIssue m) := by
    intro hissues
    have hissue : hub'.issue m = hub.issue m := by rw [Hub.issue, hissues, Hub.issue]
    unfold IsClosed
    rw [hissue]
    exact ⟨id, id, Or.inl⟩
  cases c with
  | repoView => exact hsame (congrArg Hub.issues (apply_read rfl h))
  | listMilestones => exact hsame (congrArg Hub.issues (apply_read rfl h))
  | listIssues => exact hsame (congrArg Hub.issues (apply_read rfl h))
  | createMilestone _ _ _ => exact hsame (apply_createMilestone h).1
  | patchMilestone _ _ _ =>
      obtain ⟨r, -, rfl⟩ := Option.map_eq_some_iff.mp h
      exact hsame rfl
  | createIssue _ _ _ _ _ =>
      obtain ⟨-, -, hnone, hissue⟩ := apply_createIssue h
      unfold IsClosed
      rw [hissue m]
      split_ifs with hm
      · subst hm
        rw [hnone]
        simp
      · exact ⟨id, id, Or.inl⟩
  | editIssue _ _ _ _ =>
      obtain ⟨-, hissue⟩ := apply_editIssue h
      unfold IsClosed
      rw [hissue m]
      split_ifs
      · cases hub.issue m with
        | none => simp
        | some i => simp [edited]
      · exact ⟨id, id, Or.inl⟩
  | closeIssue number =>
      obtain ⟨-, hissue⟩ := apply_closeIssue h
      unfold IsClosed
      rw [hissue m]
      split_ifs with hm
      · rw [hm]
        cases hub.issue m with
        | none => simp
        | some i => simp [closed]
      · exact ⟨id, id, Or.inl⟩

/-- Saving touches the file alone. -/
theorem save_keeps (s : Session) :
    s.save.world.hub = s.world.hub ∧ s.save.world.log = s.world.log ∧ s.save.board = s.board := by
  unfold Session.save
  split_ifs
  · exact ⟨rfl, rfl, rfl⟩
  · exact ⟨rfl, rfl, rfl⟩

/-- What was written last is in the file, and after saving that is the board. -/
theorem save_saved {db : UnicodeDb} {s : Session} (hboard : Faithful db s.board)
    (hfile : readText s.world.file = s.written) :
    readText s.save.world.file = render s.board ∧ s.save.written = render s.board := by
  unfold Session.save
  split_ifs with heq
  · exact ⟨hfile.trans heq.symm, heq.symm⟩
  · exact ⟨hboard.readText_render, rfl⟩

/-! ## The invariant of a run -/

/-- A run that began in `w₀`, where the file read as `b₀`. -/
structure InRun (db : UnicodeDb) (w₀ : World) (b₀ : Board) (s : Session) : Prop where
  faithful : Faithful db s.board
  rows : s.board.rows = b₀.rows
  words : s.board.words = b₀.words
  tags : TagsExist s.world.hub s.board
  saved : (s.board = b₀ ∧ s.world.file = w₀.file ∧ s.world.saves = w₀.saves ∧
      s.written = readText w₀.file) ∨
    (readText s.world.file = render s.board ∧ s.written = render s.board)
  log : w₀.log <+: s.world.log
  closedKept : ∀ n, IsClosed w₀.hub n → IsClosed s.world.hub n
  closedListed : ∀ n, IsClosed s.world.hub n → IsClosed w₀.hub n ∨ Listed s.board n

section Steps

variable {db : UnicodeDb} {w₀ : World} {b₀ : Board} {s : Session}

theorem inRun_start (hb : parse db (readText w₀.file) = .ok b₀) (htags : TagsExist w₀.hub b₀) :
    InRun db w₀ b₀ ⟨w₀, b₀, readText w₀.file⟩ where
  faithful := (faithful_of_parse hb).1
  rows := rfl
  words := rfl
  tags := htags
  saved := Or.inl ⟨rfl, rfl, rfl, rfl⟩
  log := List.prefix_rfl
  closedKept _ := id
  closedListed _ := Or.inl

theorem InRun.readText_file (h : InRun db w₀ b₀ s) : readText s.world.file = s.written := by
  rcases h.saved with ⟨-, hfile, -, hwritten⟩ | ⟨hfile, hwritten⟩
  · rw [hfile, hwritten]
  · rw [hfile, hwritten]

/-- A call that succeeds. -/
theorem InRun.did (h : InRun db w₀ b₀ s) {n : ℕ} {c : Call} {hub : Hub}
    (happly : s.world.hub.apply n c = some hub) (line : Option ℕ)
    (hlisted : ∀ m, c = .closeIssue m → Listed s.board m) :
    InRun db w₀ b₀ (s.did line c hub) where
  faithful := h.faithful
  rows := h.rows
  words := h.words
  tags m hm := (apply_keeps happly m).1 (h.tags m hm)
  saved := h.saved
  log := h.log.trans (List.prefix_append _ _)
  closedKept m hm := (apply_keeps happly m).2.1 (h.closedKept m hm)
  closedListed m hm := by
    rcases (apply_keeps happly m).2.2 hm with hm | hc
    · exact h.closedListed m hm
    · exact Or.inr (hlisted m hc)

/-- A call that fails. -/
theorem InRun.didNot (h : InRun db w₀ b₀ s) (line : Option ℕ) (c : Call) :
    InRun db w₀ b₀ (s.didNot line c) :=
  { h with log := h.log.trans (List.prefix_append _ _) }

/-- A change of one item that is saved at once. -/
theorem InRun.change (h : InRun db w₀ b₀ s) {f : Item → Item} {k : ℕ} {b : Board}
    (hone : OneItem f k s.board b) (hf : ∀ it, (f it).words = it.words) (hfaithful : Faithful db b)
    (htags : TagsExist s.world.hub b) (hlisted : ∀ n, Listed s.board n → Listed b n) :
    InRun db w₀ b₀ { s with board := b }.save := by
  obtain ⟨hhub, hlog, hboard⟩ := save_keeps { s with board := b }
  have hsaved := save_saved (s := { s with board := b }) hfaithful h.readText_file
  constructor
  · rw [hboard]
    exact hfaithful
  · rw [hboard, hone.rows, h.rows]
  · rw [hboard, hone.words hf, h.words]
  · rw [hboard, hhub]
    exact htags
  · rw [hboard]
    exact Or.inr hsaved
  · rw [hlog]
    exact h.log
  · rw [hhub]
    exact h.closedKept
  · rw [hhub, hboard]
    exact fun n hn => (h.closedListed n hn).imp_right (hlisted n)

/-- What the next run finds in the file. -/
theorem InRun.reread (h : InRun db w₀ b₀ s) (hb : parse db (readText w₀.file) = .ok b₀) :
    ∃ b, parse db (readText s.world.file) = .ok b ∧ SameTable s.board b ∧
      (readText s.world.file = render s.board → render b = readText s.world.file) := by
  rcases h.saved with ⟨hboard, hfile, -, -⟩ | ⟨hfile, -⟩
  · refine ⟨b₀, by rw [hfile, hb], hboard ▸ SameTable.refl _, fun heq => ?_⟩
    rw [heq, hboard]
  · obtain ⟨b, hparse, htable, hagain⟩ := h.faithful.reread
    exact ⟨b, hfile ▸ hparse, htable, fun heq => hagain.trans heq.symm⟩

end Steps

/-! ## Tags and ticks -/

theorem listed_setTag {b : Board} {k n : ℕ} {it : Item} (hk : b.items[k]? = some it)
    (hnone : it.number = none) (m : ℕ) : Listed (setTag b k n) m ↔ m = n ∨ Listed b m := by
  have hone := setTag_oneItem b k n
  constructor
  · rintro ⟨it', hmem, hnumber⟩
    obtain ⟨j, hj⟩ := List.mem_iff_getElem?.mp hmem
    obtain ⟨other, hother, heq⟩ := hone.before hj
    have hsame := congrArg Item.number heq
    split_ifs at hsame with hkj
    · exact Or.inl (Option.some.inj (hnumber.symm.trans hsame))
    · exact Or.inr (listed_getElem hother (hsame.symm.trans hnumber))
  · rintro (rfl | ⟨other, hmem, hnumber⟩)
    · obtain ⟨it', hit', heq⟩ := hone.now_self hk
      exact listed_getElem hit' (congrArg Item.number heq)
    · obtain ⟨j, hj⟩ := List.mem_iff_getElem?.mp hmem
      have hne : j ≠ k := by
        rintro rfl
        rw [hj, Option.some.injEq] at hk
        rw [hk, hnone] at hnumber
        cases hnumber
      obtain ⟨it', hit', heq⟩ := hone.now_other hne hj
      exact listed_getElem hit' ((congrArg Item.number heq).trans hnumber)

theorem listed_setChecked {b : Board} {k : ℕ} (m : ℕ) : Listed (setChecked b k) m ↔ Listed b m := by
  have hone := setChecked_oneItem b k
  constructor
  · rintro ⟨it', hmem, hn⟩
    obtain ⟨j, hj⟩ := List.mem_iff_getElem?.mp hmem
    obtain ⟨it, hit, heq⟩ := hone.before_same (g := Item.number) (fun _ => rfl) (fun _ => rfl) hj
    exact listed_getElem hit (heq.symm.trans hn)
  · rintro ⟨it, hmem, hn⟩
    obtain ⟨j, hj⟩ := List.mem_iff_getElem?.mp hmem
    obtain ⟨it', hit', heq⟩ := hone.now_same (g := Item.number) (fun _ => rfl) (fun _ => rfl) hj
    exact listed_getElem hit' (heq.trans hn)

/-- The call for a line depends on its words alone. -/
theorem createCall_words (db : UnicodeDb) {it it' : Item} (h : it'.words = it.words) :
    createCall db it' = createCall db it := by
  simp only [Item.words, Prod.mk.injEq] at h
  obtain ⟨hmilestone, htext, -, howner⟩ := h
  unfold createCall Item.title
  rw [hmilestone, htext, howner]

/-- Creations were for lines of the board, also once one of them has changed. -/
theorem Once.line_oneItem {db : UnicodeDb} {log : List Entry} {f : Item → Item} {k : ℕ}
    {b b' : Board} (h : Once db log b) (hone : OneItem f k b b')
    (hf : ∀ it, (f it).words = it.words) {e : Entry} (he : e ∈ log) (hok : e.ok = true)
    (hcreates : e.call.creates = true) :
    ∃ k it, e.line = some k ∧ b'.items[k]? = some it ∧ e.call = createCall db it := by
  obtain ⟨j, it, hline, hit, hcall⟩ := h.line e he hok hcreates
  obtain ⟨it', hit', hwords⟩ := hone.now_same (g := Item.words) (fun _ => rfl) hf hit
  exact ⟨j, it', hline, hit', hcall.trans (createCall_words db hwords).symm⟩

theorem Once.other {db : UnicodeDb} {log : List Entry} {b : Board} (h : Once db log b) {e : Entry}
    (he : (e.ok && e.call.creates) = false) : Once db (log ++ [e]) b := by
  have hsame : ∀ k, created (log ++ [e]) k = created log k := by
    intro k
    rw [created, List.countP_append, List.countP_singleton, Bool.and_assoc, he]
    simp [created]
  refine ⟨fun e' he' hok hcreates => ?_, fun k => ?_, fun k => ?_⟩
  · rcases List.mem_append.mp he' with he' | he'
    · exact h.line e' he' hok hcreates
    · rw [List.mem_singleton.mp he'] at hok hcreates
      rw [hok, hcreates] at he
      cases he
  · rw [hsame]
    exact h.one k
  · rw [hsame]
    exact h.tagged k

theorem Once.keep {db : UnicodeDb} {log : List Entry} {f : Item → Item} {k : ℕ} {b b' : Board}
    (h : Once db log b) (hone : OneItem f k b b') (hf : ∀ it, (f it).words = it.words)
    (hnumber : ∀ it n, it.number = some n → ∃ m, (f it).number = some m) : Once db log b' := by
  refine ⟨fun e he hok hcreates => h.line_oneItem hone hf he hok hcreates, h.one, fun j hj => ?_⟩
  obtain ⟨it, n, hit, hn⟩ := h.tagged j hj
  obtain ⟨it', hit', heq⟩ := hone.now hit
  have hsame := congrArg Item.number heq
  split_ifs at hsame
  · obtain ⟨m, hm⟩ := hnumber it.unplaced n hn
    exact ⟨it', m, hit', hsame.trans hm⟩
  · exact ⟨it', n, hit', hsame.trans hn⟩

/-- An issue is created for a line that had none, and its tag is written. -/
theorem Once.create {db : UnicodeDb} {log : List Entry} {b : Board} {k : ℕ} {it : Item}
    (h : Once db log b) (hk : b.items[k]? = some it) (hnone : it.number = none) (n : ℕ) :
    Once db (log ++ [⟨some k, createCall db it, true⟩]) (setTag b k n) := by
  have hbefore : created log k = 0 := by
    have hle := h.one k
    by_contra hne
    obtain ⟨it', n', hit', hn'⟩ := h.tagged k (by omega)
    rw [hk, Option.some.injEq] at hit'
    rw [← hit', hnone] at hn'
    cases hn'
  have hone := setTag_oneItem b k n
  have hother : ∀ {j : ℕ}, j ≠ k →
      created (log ++ [⟨some k, createCall db it, true⟩]) j = created log j := by
    intro j hj
    rw [created, List.countP_append, List.countP_singleton]
    simp [created, Ne.symm hj]
  refine ⟨fun e he hok hcreates => ?_, fun j => ?_, fun j hj => ?_⟩
  · rcases List.mem_append.mp he with he | he
    · exact h.line_oneItem hone (fun _ => rfl) he hok hcreates
    · rw [List.mem_singleton.mp he]
      obtain ⟨it', hit', hwords⟩ := hone.now_same (g := Item.words) (fun _ => rfl) (fun _ => rfl) hk
      exact ⟨k, it', rfl, hit', (createCall_words db hwords).symm⟩
  · by_cases hj : j = k
    · subst hj
      have hle := List.countP_le_length (p := fun e : Entry => e.line == some j && e.ok &&
        e.call.creates) (l := [⟨some j, createCall db it, true⟩])
      rw [created, List.countP_append, ← created, hbefore, Nat.zero_add]
      exact hle
    · rw [hother hj]
      exact h.one j
  · by_cases hjk : j = k
    · subst hjk
      obtain ⟨it', hit', heq⟩ := hone.now_self hk
      exact ⟨it', n, hit', congrArg Item.number heq⟩
    · rw [hother hjk] at hj
      obtain ⟨other, m, hget, hm⟩ := h.tagged j hj
      obtain ⟨it', hit', heq⟩ := hone.now_other hjk hget
      exact ⟨it', m, hit', (congrArg Item.number heq).trans hm⟩

section Steps

variable {db : UnicodeDb} {w₀ : World} {b₀ : Board} {s : Session}

/-- The tag of an issue that was just created. -/
theorem InRun.tag (h : InRun db w₀ b₀ s) {k n : ℕ} {it : Item}
    (hk : s.board.items[k]? = some it) (hnone : it.number = none) (hnew : ¬Listed s.board n)
    (hissue : s.world.hub.issue n ≠ none) :
    InRun db w₀ b₀ { s with board := setTag s.board k n }.save := by
  have hlisted := listed_setTag (n := n) hk hnone
  refine h.change (setTag_oneItem s.board k n) (fun _ => rfl)
    (h.faithful.setTag hk hnone fun hn => hnew (listed_iff.mpr hn)) (fun m hm => ?_)
    fun m hm => (hlisted m).mpr (Or.inr hm)
  rcases (hlisted m).mp hm with rfl | hm
  · exact hissue
  · exact h.tags m hm

/-- The tick of an issue that was found closed. -/
theorem InRun.tick (h : InRun db w₀ b₀ s) {k : ℕ} {it : Item}
    (hk : s.board.items[k]? = some it) (hopen : it.checked = false) :
    InRun db w₀ b₀ { s with board := setChecked s.board k }.save :=
  h.change (setChecked_oneItem s.board k) (fun _ => rfl) (h.faithful.setChecked hk hopen)
    (fun m hm => h.tags m ((listed_setChecked m).mp hm)) fun m => (listed_setChecked m).mpr

end Steps

end Carwatch.BoardSync
