import Carwatch.BoardSync.Settling

/-!
# Carwatch.BoardSync.Convergence — the sync over any sequence of runs

Runs follow one another, each of them stopped by a call that fails or not. What
one leaves is what the next begins with.

* `Ready`, `ready_run` — from run to run;
* `Idle`, `sync_idle` — a run that finds everything settled;
* `board_sync_converges` — the sync over all runs.
-/

namespace Carwatch.BoardSync

open Carwatch.Lib

/-! ## From run to run -/

/-- A world in which a run can begin; the first file read as `b₀`. -/
def Ready (db : UnicodeDb) (b₀ : Board) (w : World) : Prop :=
  ∃ b, parse db (readText w.file) = .ok b ∧ b.words = b₀.words ∧ TagsExist w.hub b ∧
    Once db w.log b

section Runs

variable {db : UnicodeDb} {answers : Answers} {w : World} {b : Board}

variable (answers) in
/-- How a run ends, as a fact about its session. -/
theorem run_ended (hb : parse db (readText w.file) = .ok b) (htags : TagsExist w.hub b)
    (honce : Once db w.log b) : ∃ s, (run db answers w).1 = s.world ∧ Ended db w b s := by
  have hstart : InRun db w b ⟨w, b, readText w.file⟩ := inRun_start hb htags
  have hend := sync_rule answers hb ⟨w, b, readText w.file⟩
    ⟨hstart, honce, rfl, rfl⟩
  unfold run
  rw [hb]
  dsimp only
  cases hsync : sync db answers (readText w.file) ⟨w, b, readText w.file⟩ with
  | ok report s =>
      rw [hsync] at hend
      exact ⟨s, rfl, hend⟩
  | error e s =>
      rw [hsync] at hend
      exact ⟨s, rfl, hend⟩

/-- What one run does. -/
structure Ran (db : UnicodeDb) (w w' : World) : Prop where
  closedKept : ∀ n, IsClosed w.hub n → IsClosed w'.hub n
  closedListed : ∀ n, IsClosed w'.hub n → IsClosed w.hub n ∨
    ∃ b, parse db (readText w'.file) = .ok b ∧ Listed b n
  settled : ¬FailedSince w.log w'.log → Settled db w'

theorem ready_run {b₀ : Board} (h : Ready db b₀ w) :
    Ready db b₀ (run db answers w).1 ∧ Ran db w (run db answers w).1 := by
  obtain ⟨b, hb, hwords, htags, honce⟩ := h
  obtain ⟨s, hs, hrun, honce', hend⟩ := run_ended answers hb htags honce
  rw [hs]
  obtain ⟨b', hparse, htable, -⟩ := hrun.reread hb
  have hlisted : ∀ n, Listed b' n ↔ Listed s.board n := by
    intro n
    unfold Listed
    rw [htable.items]
  refine ⟨⟨b', hparse, ?_, fun n hn => ?_, ?_⟩, hrun.closedKept, fun n hn => ?_, fun hclean => ?_⟩
  · rw [Board.words, htable.items, ← Board.words, hrun.words, hwords]
  · exact hrun.tags n ((hlisted n).mp hn)
  · obtain ⟨hline, hone, htagged⟩ := honce'
    exact ⟨by rw [htable.items]; exact hline, hone, by rw [htable.items]; exact htagged⟩
  · exact (hrun.closedListed n hn).imp_right fun hn => ⟨b', hparse, (hlisted n).mpr hn⟩
  · exact hend.resolve_left hclean

end Runs

/-! ## A run that finds everything settled -/

/-- Nothing has happened but reads. -/
structure Idle (w : World) (b : Board) (s : Session) : Prop where
  hub : s.world.hub = w.hub
  file : s.world.file = w.file
  saves : s.world.saves = w.saves
  log : ∃ more, s.world.log = w.log ++ more ∧ ∀ e ∈ more, e.call.isRead = true
  board : s.board = b

section Idle

variable {db : UnicodeDb} {answers : Answers} {w : World} {b : Board}

theorem idle_gh {line : Option ℕ} {c : Call} (hc : c.isRead = true) :
    Triple (Idle w b) (gh answers line c) (fun _ => Idle w b) (fun _ => Idle w b) := by
  intro s hs
  obtain ⟨more, hlog, hmore⟩ := hs.log
  have hentry : ∀ ok, ∃ more', s.world.log ++ [⟨line, c, ok⟩] = w.log ++ more' ∧
      ∀ e ∈ more', e.call.isRead = true := by
    intro ok
    refine ⟨more ++ [⟨line, c, ok⟩], by rw [hlog, List.append_assoc], fun e he => ?_⟩
    rcases List.mem_append.mp he with he | he
    · exact hmore e he
    · rw [List.mem_singleton.mp he]
      exact hc
  have hfailed : Idle w b (s.didNot line c) := ⟨hs.hub, hs.file, hs.saves, hentry false, hs.board⟩
  unfold gh
  cases answers s.world.log.length with
  | none => exact hfailed
  | some n =>
      cases happly : s.world.hub.apply n c with
      | none =>
          simp only [happly]
          exact hfailed
      | some hub =>
          simp only [happly]
          exact ⟨(apply_read hc happly).trans hs.hub, hs.file, hs.saves, hentry true, hs.board⟩

theorem syncMilestones_idle
    (hrows : ∀ r ∈ b.rows.entries.takeWhile fun r => isDate db (due r.2), RowSettled w.hub r) :
    Triple (Idle w b) (syncMilestones db answers)
      (fun _ s => Idle w b s ∧ ∀ r ∈ b.rows.entries, Dated db r) (fun _ => Idle w b) := by
  unfold syncMilestones
  refine Triple.bind (idle_gh rfl) fun _ => Triple.get_bind fun t ht => ?_
  refine Triple.conseq (Triple.forM (I := fun done s => Idle w b s ∧ ∀ r ∈ done, Dated db r)
    (E := fun _ => Idle w b) fun done row rest hsplit => ?_) ?_ (fun _ s hs => ht.board ▸ hs)
    fun _ _ hs => hs
  · unfold syncMilestone
    refine Triple.ite (fun hdate => ?_) fun _ => Triple.throw fun s hs => hs.1
    -- the rows before have a date, so this one is among those that are settled
    have hfound : ∀ s, (Idle w b s ∧ ∀ r ∈ done, Dated db r) → ∃ cur,
        (Dict.indexBy Milestone.title t.world.hub.milestones.entries).get? row.1 = some cur ∧
          upToDate row.2 cur = true := by
      intro s hs
      rw [ht.hub]
      refine hrows row ?_
      rw [← ht.board, hsplit, List.takeWhile_append_of_pos hs.2,
        List.takeWhile_cons_of_pos (p := fun r : Text × List Text => isDate db (due r.2)) hdate]
      exact List.mem_append_right done List.mem_cons_self
    cases hget : (Dict.indexBy Milestone.title t.world.hub.milestones.entries).get? row.1 with
    | none =>
        intro s hs
        obtain ⟨cur, hcur, -⟩ := hfound s hs
        rw [hget] at hcur
        cases hcur
    | some cur =>
        refine Triple.ite (fun hup => Triple.pure fun s hs => ⟨hs.1, fun r hr => ?_⟩) fun hup => ?_
        · rcases List.mem_append.mp hr with hr | hr
          · exact hs.2 r hr
          · rw [List.mem_singleton.mp hr]
            exact hdate
        · intro s hs
          obtain ⟨cur', hcur, hup'⟩ := hfound s hs
          rw [hget, Option.some.injEq] at hcur
          exact absurd (hcur ▸ hup') hup
  · rintro s rfl
    exact ⟨ht, by simp⟩

/-- A settled line: its number is there, and there is nothing to edit, to close
or to tick. -/
theorem syncIssue_idle {issues : Dict ℕ Issue} (hissues : ∀ n, issues.get? n = w.hub.issue n)
    (hitems : ∀ it ∈ b.items, ItemSettled db w.hub it) (report : List Report) (k : ℕ) :
    Triple (Idle w b) (syncIssue db answers (issues, report) k)
      (fun r s => Idle w b s ∧ r.1 = issues) (fun _ => Idle w b) := by
  unfold syncIssue
  refine Triple.get_bind fun t ht => ?_
  cases hk : t.board.items[k]? with
  | none => exact Triple.pure fun s hs => ⟨hs ▸ ht, rfl⟩
  | some it =>
      obtain ⟨n, issue, hn, hget, hmatch, hclosed⟩ :=
        hitems it (ht.board ▸ List.mem_of_getElem? hk)
      refine Triple.bind (Q := fun r s => s = t ∧ r = (n, issues)) ?_ fun r => ?_
      · unfold ensureIssue
        rw [hn]
        exact Triple.pure fun s hs => ⟨hs, rfl⟩
      · intro s hs
        obtain ⟨rfl, rfl⟩ := hs
        have hfound : issues.get? n = some issue := (hissues n).trans hget
        have hedit : editIssue db answers k n it issue = pure ⟨⟩ := if_pos hmatch
        have hstate : settleState answers k n it issue = pure [] := by
          unfold settleState
          rw [if_neg, if_neg]
          · rintro ⟨hc, hopen⟩
            rw [hclosed, hopen] at hc
            cases hc
          · rintro ⟨hc, hopen⟩
            rw [← hclosed, hopen] at hc
            cases hc
        simp only [hfound, hedit, hstate, pure_bind]
        exact ⟨ht, rfl⟩

theorem syncIssues_idle (hitems : ∀ it ∈ b.items, ItemSettled db w.hub it) :
    Triple (Idle w b) (syncIssues db answers) (fun _ => Idle w b) (fun _ => Idle w b) := by
  unfold syncIssues
  refine Triple.bind (idle_gh rfl) fun _ => Triple.get_bind fun t ht => ?_
  have hissues : ∀ n, (Dict.indexBy Issue.number t.world.hub.issues.entries).get? n =
      w.hub.issue n := by
    intro n
    rw [ht.hub]
    rfl
  have hloop := Triple.foldlM (l := List.range t.board.items.length)
    (I := fun _ (acc : Dict ℕ Issue × List Report) s => Idle w b s ∧
      acc.1 = .indexBy Issue.number t.world.hub.issues.entries)
    (E := fun _ => Idle w b) (f := syncIssue db answers)
    (fun done k rest _ acc => by
      intro s ⟨hs, hacc⟩
      obtain ⟨issues, report⟩ := acc
      obtain rfl : issues = _ := hacc
      exact syncIssue_idle hissues hitems report k s hs)
    (.indexBy Issue.number t.world.hub.issues.entries, [])
  refine Triple.bind (Triple.conseq hloop ?_ (fun _ _ hs => hs.1) fun _ _ hs => hs) fun r => ?_
  · rintro s rfl
    exact ⟨ht, rfl⟩
  · exact Triple.get_bind fun s hs => Triple.pure fun u hu => hu ▸ hs

variable (answers) in
/-- A run that finds everything settled only reads. -/
theorem sync_idle
    (hrows : ∀ r ∈ b.rows.entries.takeWhile fun r => isDate db (due r.2), RowSettled w.hub r)
    (hitems : (∀ r ∈ b.rows.entries, Dated db r) →
      (∀ it ∈ b.items, ItemSettled db w.hub it) ∧ render b = readText w.file) :
    Triple (Idle w b) (sync db answers (readText w.file)) (fun _ => Idle w b)
      (fun _ => Idle w b) := by
  unfold sync
  refine Triple.bind (idle_gh rfl) fun _ => Triple.bind (syncMilestones_idle hrows) fun _ => ?_
  intro s ⟨hs, hdated⟩
  obtain ⟨hsettled, hrender⟩ := hitems hdated
  refine Triple.bind (syncIssues_idle hsettled) (fun report => ?_) s hs
  refine Triple.get_bind fun t ht => Triple.ite (fun _ => Triple.pure fun u hu => hu ▸ ht) ?_
  intro hne
  rw [ht.board] at hne
  exact absurd hrender hne

variable (answers) in
/-- What a settled world is left as. -/
theorem run_idle (h : Settled db w) :
    (run db answers w).1.hub = w.hub ∧ (run db answers w).1.file = w.file ∧
      (run db answers w).1.saves = w.saves ∧
      ∀ e ∈ (run db answers w).1.log.drop w.log.length, e.call.isRead = true := by
  obtain ⟨b, hb, hrows, hitems⟩ := h
  have hidle := sync_idle answers hrows hitems ⟨w, b, readText w.file⟩
    ⟨rfl, rfl, rfl, ⟨[], by simp⟩, rfl⟩
  have hworld : ∀ s, Idle w b s → s.world.hub = w.hub ∧ s.world.file = w.file ∧
      s.world.saves = w.saves ∧ ∀ e ∈ s.world.log.drop w.log.length, e.call.isRead = true := by
    intro s hs
    obtain ⟨more, hlog, hmore⟩ := hs.log
    refine ⟨hs.hub, hs.file, hs.saves, ?_⟩
    rw [hlog, List.drop_left]
    exact hmore
  unfold run
  rw [hb]
  dsimp only
  cases hsync : sync db answers (readText w.file) ⟨w, b, readText w.file⟩ with
  | ok report s =>
      rw [hsync] at hidle
      exact hworld s hidle
  | error e s =>
      rw [hsync] at hidle
      exact hworld s hidle

end Idle

/-! ## All runs -/

section All

variable {db : UnicodeDb} {answers : Answers} {hub : Hub} {file : Text} {b : Board}

/-- Before the first run. -/
theorem ready_start (hb : parse db (readText file) = .ok b) (htags : TagsExist hub b) :
    Ready db b (World.start hub file) :=
  ⟨b, hb, rfl, htags, by simp [World.start], fun _ => Nat.zero_le 1, fun k hk => by cases hk⟩

theorem ready_worlds {w : World} (h : Ready db b w) (i : ℕ) :
    Ready db b (worlds db answers w i) := by
  induction i with
  | zero => exact h
  | succ i ih => exact (ready_run ih).1

/-- Boards with the same words have their items at the same places. -/
theorem item_of_words {b b' : Board} (h : b'.words = b.words) {k : ℕ} {it' : Item}
    (hk : b'.items[k]? = some it') : ∃ it, b.items[k]? = some it ∧ it'.words = it.words := by
  have hget := congrArg (·[k]?) h
  simp only [Board.words, List.getElem?_map, hk, Option.map_some] at hget
  obtain ⟨it, hit, heq⟩ := Option.map_eq_some_iff.mp hget.symm
  exact ⟨it, hit, heq.symm⟩

/-- What is settled stays so. -/
theorem settled_worlds {w : World} {i : ℕ} (h : Settled db (worlds db answers w i)) (j : ℕ) :
    Settled db (worlds db answers w (i + j)) := by
  induction j with
  | zero => exact h
  | succ j ih =>
      obtain ⟨hhub, hfile, -, -⟩ := run_idle answers ih
      obtain ⟨b, hb, hrows, hitems⟩ := ih
      have hnext : worlds db answers w (i + (j + 1)) =
          (run db answers (worlds db answers w (i + j))).1 := rfl
      rw [hnext]
      refine ⟨b, by rw [hfile]; exact hb, by rw [hhub]; exact hrows, ?_⟩
      rw [hhub, hfile]
      exact hitems

end All

/-- What holds of the worlds `w i` behind any number of runs, of which the first
began with a file that read as `b`. -/
structure Converges (db : UnicodeDb) (b : Board) (w : ℕ → World) : Prop where
  /-- The file reads as the same lines. -/
  words : ∀ i, ∃ b', parse db (readText (w i).file) = .ok b' ∧ b'.words = b.words
  /-- No line has led to a second issue. -/
  once : ∀ i k, created (w i).log k ≤ 1
  /-- And no issue was created but for a line, as it says. -/
  forLine : ∀ i, ∀ e ∈ (w i).log, e.ok = true → e.call.creates = true →
    ∃ k it, e.line = some k ∧ b.items[k]? = some it ∧ e.call = createCall db it
  /-- No issue is opened again. -/
  closedKept : ∀ i n, IsClosed (w i).hub n → IsClosed (w (i + 1)).hub n
  /-- None is closed that is on no line. -/
  closedListed : ∀ i n, IsClosed (w (i + 1)).hub n → IsClosed (w i).hub n ∨
    ∃ b', parse db (readText (w (i + 1)).file) = .ok b' ∧ Listed b' n
  /-- Behind a run in which no call failed, all runs only read. -/
  idle : ∀ i, ¬FailedSince (w i).log (w (i + 1)).log → ∀ j > i,
    (w (j + 1)).hub = (w j).hub ∧ (w (j + 1)).file = (w j).file ∧
      (w (j + 1)).saves = (w j).saves ∧
      ∀ e ∈ (w (j + 1)).log.drop (w j).log.length, e.call.isRead = true

/-- **The sync converges**, over any sequence of runs, each of them stopped by a
call that fails at any point or by none. -/
theorem board_sync_converges (db : UnicodeDb) (answers : Answers) (hub : Hub) (file : Text)
    (b : Board) (hb : parse db (readText file) = .ok b) (htags : TagsExist hub b) :
    Converges db b (worlds db answers (World.start hub file)) := by
  have hready : ∀ i, Ready db b (worlds db answers (World.start hub file) i) :=
    ready_worlds (ready_start hb htags)
  constructor
  case words =>
    intro i
    obtain ⟨b', hb', hwords, -⟩ := hready i
    exact ⟨b', hb', hwords⟩
  case once =>
    intro i k
    obtain ⟨b', -, -, -, honce⟩ := hready i
    exact honce.one k
  case forLine =>
    intro i e he hok hcreates
    obtain ⟨b', -, hwords, -, honce⟩ := hready i
    obtain ⟨k, it', hline, hit', hcall⟩ := honce.line e he hok hcreates
    obtain ⟨it, hit, heq⟩ := item_of_words hwords hit'
    exact ⟨k, it, hline, hit, hcall.trans (createCall_words db heq)⟩
  case closedKept =>
    intro i n hn
    exact (ready_run (hready i)).2.closedKept n hn
  case closedListed =>
    intro i n hn
    exact (ready_run (hready i)).2.closedListed n hn
  case idle =>
    intro i hclean j hj
    have hnext : Settled db (worlds db answers (World.start hub file) (i + 1)) :=
      (ready_run (hready i)).2.settled hclean
    have hsettled := settled_worlds hnext (j - (i + 1))
    rw [Nat.add_sub_cancel' hj] at hsettled
    exact run_idle _ hsettled

/-- A file with one new line, and an empty GitHub. -/
theorem board_sync_converges_one_line :
    Converges asciiDb
      ⟨[['#', '#', ' ', 'M', '1'], ['-', ' ', '[', ' ', ']', ' ', 'a']],
        [⟨['M', '1'], false, ['a'], none, none, none, 1, 1⟩], .empty⟩
      (worlds asciiDb some (World.start ⟨[], ⟨[], List.nodup_nil⟩, ⟨[], List.nodup_nil⟩⟩
        ['#', '#', ' ', 'M', '1', '\n', '-', ' ', '[', ' ', ']', ' ', 'a'])) := by
  refine board_sync_converges asciiDb some _ _ _ rfl ?_
  rintro n ⟨it, hit, hn⟩
  rw [List.mem_singleton.mp hit] at hn
  cases hn

end Carwatch.BoardSync
