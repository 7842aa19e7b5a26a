import Carwatch.BoardSync.Safety

/-!
# Carwatch.BoardSync.Settling — a run in which no call fails settles everything

Each row is looked at once, and each line: behind the loop stands what has been
settled, before it what GitHub was found to be. Either way a run ends, its file
and GitHub are as `InRun` says; if no call of it failed, they are `Settled`.

* `RowSettled`, `ItemSettled`, `Settled` — nothing left to do;
* `RowsLoop`, `ItemsLoop` — the invariants of the two loops;
* `syncMilestone_rule`, `syncIssue_rule` — one row, one line;
* `sync_rule` — a whole run.
-/

namespace Carwatch.BoardSync

open Carwatch.Lib

/-! ## Nothing left to do -/

/-- The row has a date. -/
def Dated (db : UnicodeDb) (row : Text × List Text) : Prop := isDate db (due row.2) = true

/-- The milestone is what its row says. -/
def RowSettled (hub : Hub) (row : Text × List Text) : Prop :=
  ∃ cur, hub.milestone row.1 = some cur ∧ upToDate row.2 cur = true

/-- Nothing to edit in an issue. -/
def Matches (db : UnicodeDb) (it : Item) (issue : Issue) : Prop :=
  editTitle db it issue = none ∧ editMilestone it issue = none ∧ editAssignee it issue = none

/-- The issue is what its line says. -/
def ItemSettled (db : UnicodeDb) (hub : Hub) (it : Item) : Prop :=
  ∃ n issue, it.number = some n ∧ hub.issue n = some issue ∧ Matches db it issue ∧
    issue.closed = it.checked

/-- The next run has nothing to do: up to the first row without a date, or to
the end. -/
def Settled (db : UnicodeDb) (w : World) : Prop :=
  ∃ b, parse db (readText w.file) = .ok b ∧
    (∀ r ∈ b.rows.entries.takeWhile fun r => isDate db (due r.2), RowSettled w.hub r) ∧
    ((∀ r ∈ b.rows.entries, Dated db r) →
      (∀ it ∈ b.items, ItemSettled db w.hub it) ∧ render b = readText w.file)

/-- A call failed since the log was `log₀`. -/
def FailedSince (log₀ log : List Entry) : Prop := ∃ e ∈ log.drop log₀.length, e.ok = false

/-- How a run ends. -/
def Ended (db : UnicodeDb) (w₀ : World) (b₀ : Board) (s : Session) : Prop :=
  InRun db w₀ b₀ s ∧ Once db s.world.log s.board ∧
    (FailedSince w₀.log s.world.log ∨ Settled db s.world)

/-! ## Calls -/

section Rules

variable {db : UnicodeDb} {answers : Answers} {w₀ : World} {b₀ : Board}

/-- A call either succeeds or ends the run. -/
theorem gh_rule {P : Session → Prop} {Q : ℕ → Session → Prop} {line : Option ℕ} {c : Call}
    (hsafe : ∀ s, P s → InRun db w₀ b₀ s ∧ Once db s.world.log s.board)
    (hok : ∀ s n hub, P s → s.world.hub.apply n c = some hub → Q n (s.did line c hub)) :
    Triple P (gh answers line c) Q (fun _ => Ended db w₀ b₀) := by
  intro s hs
  obtain ⟨hrun, honce⟩ := hsafe s hs
  have hfailed : Ended db w₀ b₀ (s.didNot line c) := by
    refine ⟨hrun.didNot line c, honce.other rfl, Or.inl ⟨⟨line, c, false⟩, ?_, rfl⟩⟩
    have hlog : (s.didNot line c).world.log = s.world.log ++ [⟨line, c, false⟩] := rfl
    rw [hlog, List.drop_append_of_le_length hrun.log.length_le]
    exact List.mem_append_right _ List.mem_cons_self
  unfold gh
  cases answers s.world.log.length with
  | none => exact hfailed
  | some n =>
      cases happly : s.world.hub.apply n c with
      | none =>
          simp only [happly]
          exact hfailed
      | some hub =>
          simp only [happly]
          exact hok s n hub hs happly

/-! ## The rows -/

theorem isDate_length {db : UnicodeDb} {t : Text} (h : isDate db t = true) : t.length = 10 := by
  unfold isDate at h
  split at h
  · rfl
  · cases h

/-- Between two rows: those behind are settled, of the others GitHub is known. -/
structure RowsLoop (db : UnicodeDb) (w₀ : World) (b₀ : Board) (known : Dict Text Milestone)
    (done : List (Text × List Text)) (s : Session) : Prop where
  inRun : InRun db w₀ b₀ s
  once : Once db s.world.log s.board
  board : s.board = b₀
  file : s.world.file = w₀.file
  settled : ∀ r ∈ done, Dated db r ∧ RowSettled s.world.hub r
  ahead : ∀ t, t ∉ done.map Prod.fst → s.world.hub.milestone t = known.get? t

/-- A row whose milestone was just written. -/
theorem RowsLoop.did {known : Dict Text Milestone} {done : List (Text × List Text)}
    {row : Text × List Text} {s : Session} (h : RowsLoop db w₀ b₀ known done s)
    (hnew : row.1 ∉ done.map Prod.fst) (hdated : Dated db row) {n : ℕ} {c : Call} {hub : Hub}
    (happly : s.world.hub.apply n c = some hub) (hc : ∀ m, c ≠ .closeIssue m)
    (hcreates : c.creates = false) {cur : Milestone}
    (hub_eq : ∀ t, hub.milestone t = if row.1 = t then some cur else s.world.hub.milestone t)
    (hcur : upToDate row.2 cur = true) :
    RowsLoop db w₀ b₀ known (done ++ [row]) (s.did none c hub) where
  inRun := h.inRun.did happly none fun m hm => absurd hm (hc m)
  once := h.once.other (by rw [hcreates, Bool.and_false])
  board := h.board
  file := h.file
  settled r hr := by
    rcases List.mem_append.mp hr with hr | hr
    · obtain ⟨hd, cur', hget, hup⟩ := h.settled r hr
      refine ⟨hd, cur', (hub_eq r.1).trans ?_, hup⟩
      rw [if_neg, hget]
      intro heq
      exact hnew (heq ▸ List.mem_map_of_mem hr)
    · rw [List.mem_singleton.mp hr]
      exact ⟨hdated, cur, (hub_eq row.1).trans (if_pos rfl), hcur⟩
  ahead t ht := by
    rw [List.map_append, List.mem_append, not_or] at ht
    refine (hub_eq t).trans ?_
    rw [if_neg, h.ahead t ht.1]
    intro heq
    exact ht.2 (by rw [← heq]; exact List.mem_cons_self)

/-- What is written for a row is up to date. -/
theorem upToDate_written {cells : List Text} (h : isDate db (due cells) = true) (n : ℕ)
    (title : Text) : upToDate cells ⟨n, title, some (dueOn cells), some (desc cells)⟩ = true := by
  have htake : (dueOn cells).take 10 = due cells := by
    rw [dueOn, ← isDate_length h, List.take_left]
  simp [upToDate, htake]

/-- One row. -/
theorem syncMilestone_rule (hb : parse db (readText w₀.file) = .ok b₀)
    {known : Dict Text Milestone} {done rest : List (Text × List Text)} {row : Text × List Text}
    (hrows : b₀.rows.entries = done ++ row :: rest) :
    Triple (RowsLoop db w₀ b₀ known done) (syncMilestone db answers known row)
      (fun _ => RowsLoop db w₀ b₀ known (done ++ [row])) (fun _ => Ended db w₀ b₀) := by
  have hnew : row.1 ∉ done.map Prod.fst := by
    have hnodup := b₀.rows.nodup
    rw [hrows, List.map_append, List.map_cons, List.nodup_append] at hnodup
    exact fun hin => hnodup.2.2 row.1 hin row.1 List.mem_cons_self rfl
  unfold syncMilestone
  refine Triple.ite (fun hdate => ?_) fun hdate => ?_
  · cases hget : known.get? row.1 with
    | none =>
        refine Triple.bind (gh_rule (fun s hs => ⟨hs.inRun, hs.once⟩) fun s n hub hs happly => ?_)
          fun _ => Triple.pure fun _ hs => hs
        exact hs.did hnew hdate happly (fun m => by simp) rfl (apply_createMilestone happly).2
          (upToDate_written hdate n row.1)
    | some cur =>
        refine Triple.ite (fun hup => ?_) fun hup => ?_
        · refine Triple.pure fun s hs => ⟨hs.inRun, hs.once, hs.board, hs.file, fun r hr => ?_,
            fun t ht => hs.ahead t fun hin => ht (by simp [hin])⟩
          rcases List.mem_append.mp hr with hr | hr
          · exact hs.settled r hr
          · rw [List.mem_singleton.mp hr]
            exact ⟨hdate, cur, (hs.ahead row.1 hnew).trans hget, hup⟩
        · refine Triple.bind (gh_rule (fun s hs => ⟨hs.inRun, hs.once⟩)
            fun s n hub hs happly => ?_) fun _ => Triple.pure fun _ hs => hs
          have hcur := (hs.ahead row.1 hnew).trans hget
          exact hs.did hnew hdate happly (fun m => by simp) rfl
            (apply_patchMilestone hcur happly).2 (upToDate_written hdate cur.number cur.title)
  · -- a row without a date ends the run here, and will do so again
    refine Triple.throw fun s hs => ⟨hs.inRun, hs.once, Or.inr ⟨b₀, by rw [hs.file, hb], ?_, ?_⟩⟩
    · intro r hr
      rw [hrows, List.takeWhile_append_of_pos fun r hr => (hs.settled r hr).1,
        List.takeWhile_cons_of_neg (p := fun r : Text × List Text => isDate db (due r.2)) hdate,
        List.append_nil] at hr
      exact (hs.settled r hr).2
    · intro hall
      exact absurd (hall row (by rw [hrows]; simp)) hdate

/-- The rows. -/
theorem syncMilestones_rule (hb : parse db (readText w₀.file) = .ok b₀) :
    Triple (fun s => InRun db w₀ b₀ s ∧ Once db s.world.log s.board ∧ s.board = b₀ ∧
        s.world.file = w₀.file)
      (syncMilestones db answers)
      (fun _ s => InRun db w₀ b₀ s ∧ Once db s.world.log s.board ∧
        ∀ r ∈ b₀.rows.entries, Dated db r ∧ RowSettled s.world.hub r)
      (fun _ => Ended db w₀ b₀) := by
  unfold syncMilestones
  refine Triple.bind (Q := fun _ s => InRun db w₀ b₀ s ∧ Once db s.world.log s.board ∧
    s.board = b₀ ∧ s.world.file = w₀.file) (gh_rule (fun s hs => ⟨hs.1, hs.2.1⟩) ?_) fun _ => ?_
  · rintro s n hub ⟨hrun, honce, hboard, hfile⟩ happly
    exact ⟨hrun.did happly none (by simp), honce.other rfl, hboard, hfile⟩
  · refine Triple.get_bind fun s hs => ?_
    obtain ⟨hrun, honce, hboard, hfile⟩ := hs
    refine Triple.conseq (Triple.forM fun done row rest hrows =>
      syncMilestone_rule hb (hboard ▸ hrows)) ?_ ?_ fun _ _ hs => hs
    · rintro t rfl
      exact ⟨hrun, honce, hboard, hfile, by simp, fun _ _ => rfl⟩
    · intro _ t ht
      exact ⟨ht.inRun, ht.once, hboard ▸ ht.settled⟩

/-! ## The lines -/

theorem itemSettled_unplaced {hub : Hub} (it : Item) {it' : Item} (h : it'.unplaced = it.unplaced) :
    ItemSettled db hub it' ↔ ItemSettled db hub it := by
  have hboth : ∀ it : Item, ItemSettled db hub it ↔ ItemSettled db hub it.unplaced :=
    fun _ => Iff.rfl
  rw [hboth it', h, ← hboth it]

/-- No two lines have the same tag. -/
theorem tag_unique {b : Board} (h : Faithful db b) {j k n : ℕ} {it it' : Item}
    (hj : b.items[j]? = some it) (hk : b.items[k]? = some it') (hn : it.number = some n)
    (hn' : it'.number = some n) : j = k := by
  have hpair := List.pairwise_filterMap.mp h.tags
  rw [List.pairwise_iff_getElem] at hpair
  obtain ⟨hjlt, rfl⟩ := List.getElem?_eq_some_iff.mp hj
  obtain ⟨hklt, rfl⟩ := List.getElem?_eq_some_iff.mp hk
  rcases Nat.lt_trichotomy j k with hlt | heq | hlt
  · exact absurd rfl (hpair j k hjlt hklt hlt n hn n hn')
  · exact heq
  · exact absurd rfl (hpair k j hklt hjlt hlt n hn' n hn)

/-- Between two lines: those behind are settled, of the other issues the list
that was read is still true. -/
structure ItemsLoop (db : UnicodeDb) (w₀ : World) (b₀ : Board) (k : ℕ) (issues : Dict ℕ Issue)
    (s : Session) : Prop where
  inRun : InRun db w₀ b₀ s
  once : Once db s.world.log s.board
  rows : ∀ r ∈ b₀.rows.entries, Dated db r ∧ RowSettled s.world.hub r
  settled : ∀ j < k, ∀ it, s.board.items[j]? = some it → ItemSettled db s.world.hub it
  ahead : ∀ n, (∀ j < k, ∀ it, s.board.items[j]? = some it → it.number ≠ some n) →
    issues.get? n = s.world.hub.issue n

/-- Lines that were settled before the changed one are so behind it. -/
theorem OneItem.settled_before {f : Item → Item} {k : ℕ} {b b' : Board} (h : OneItem f k b b')
    {hub : Hub} (hsettled : ∀ j < k, ∀ it, b.items[j]? = some it → ItemSettled db hub it) :
    ∀ j < k, ∀ it, b'.items[j]? = some it → ItemSettled db hub it := by
  intro j hj other hother
  obtain ⟨it, hit, heq⟩ := h.before_other hj.ne hother
  rw [itemSettled_unplaced _ heq]
  exact hsettled j hj it hit

/-- A number that no line before the changed one has now had none of them then. -/
theorem OneItem.free_before {f : Item → Item} {k : ℕ} {b b' : Board} (h : OneItem f k b b') {m : ℕ}
    (hfree : ∀ j < k, ∀ it, b'.items[j]? = some it → it.number ≠ some m) :
    ∀ j < k, ∀ it, b.items[j]? = some it → it.number ≠ some m := by
  intro j hj it hit hm
  obtain ⟨it', hit', heq⟩ := h.now_other hj.ne hit
  exact hfree j hj it' hit' ((congrArg Item.number heq).trans hm)

theorem rowSettled_of_milestones {hub hub' : Hub} (h : hub'.milestones = hub.milestones)
    {r : Text × List Text} (hr : RowSettled hub r) : RowSettled hub' r := by
  obtain ⟨cur, hget, hup⟩ := hr
  refine ⟨cur, ?_, hup⟩
  rw [Hub.milestone, h]
  exact hget

/-- At a line whose issue is known to be `n`. -/
structure AtLine (db : UnicodeDb) (w₀ : World) (b₀ : Board) (k : ℕ) (it : Item) (n : ℕ)
    (issues : Dict ℕ Issue) (s : Session) : Prop where
  inRun : InRun db w₀ b₀ s
  once : Once db s.world.log s.board
  rows : ∀ r ∈ b₀.rows.entries, Dated db r ∧ RowSettled s.world.hub r
  settled : ∀ j < k, ∀ it, s.board.items[j]? = some it → ItemSettled db s.world.hub it
  here : ∃ it', s.board.items[k]? = some it' ∧
    it'.unplaced = { it.unplaced with number := some n }
  ahead : ∀ m, m ≠ n → (∀ j < k, ∀ it, s.board.items[j]? = some it → it.number ≠ some m) →
    issues.get? m = s.world.hub.issue m

/-- The tag of a line is on no line before it. -/
theorem AtLine.other {k n : ℕ} {it : Item} {issues : Dict ℕ Issue} {s : Session}
    (h : AtLine db w₀ b₀ k it n issues s) {j : ℕ} (hj : j < k) {other : Item}
    (hother : s.board.items[j]? = some other) : other.number ≠ some n := by
  intro hn
  obtain ⟨it', hit', heq⟩ := h.here
  exact absurd (tag_unique h.inRun.faithful hother hit' hn (congrArg Item.number heq)) hj.ne

theorem AtLine.listed {k n : ℕ} {it : Item} {issues : Dict ℕ Issue} {s : Session}
    (h : AtLine db w₀ b₀ k it n issues s) : Listed s.board n := by
  obtain ⟨it', hit', heq⟩ := h.here
  exact listed_getElem hit' (congrArg Item.number heq)

/-- A call for the issue of the line. -/
theorem AtLine.did {k n : ℕ} {it : Item} {issues : Dict ℕ Issue} {s : Session}
    (h : AtLine db w₀ b₀ k it n issues s) {m : ℕ} {c : Call} {hub : Hub}
    (happly : s.world.hub.apply m c = some hub) (hcreates : c.creates = false)
    (hclose : ∀ m, c = .closeIssue m → m = n)
    (hmilestones : hub.milestones = s.world.hub.milestones)
    (hissue : ∀ m, n ≠ m → hub.issue m = s.world.hub.issue m) :
    AtLine db w₀ b₀ k it n issues (s.did (some k) c hub) where
  inRun := h.inRun.did happly (some k) fun m hm => hclose m hm ▸ h.listed
  once := h.once.other (by rw [hcreates, Bool.and_false])
  rows r hr := ⟨(h.rows r hr).1, rowSettled_of_milestones hmilestones (h.rows r hr).2⟩
  settled j hj other hother := by
    obtain ⟨m, issue, hm, hget, hrest⟩ := h.settled j hj other hother
    have hne : n ≠ m := by
      rintro rfl
      exact h.other hj hother hm
    exact ⟨m, issue, hm, (hissue m hne).trans hget, hrest⟩
  here := h.here
  ahead m hm hfree := (h.ahead m hm hfree).trans (hissue m hm.symm).symm

/-- The line is done. -/
theorem AtLine.finish {k n : ℕ} {it : Item} {issues : Dict ℕ Issue} {s : Session}
    (h : AtLine db w₀ b₀ k it n issues s)
    (hsettled : ∀ it, s.board.items[k]? = some it → ItemSettled db s.world.hub it) :
    ItemsLoop db w₀ b₀ (k + 1) issues s where
  inRun := h.inRun
  once := h.once
  rows := h.rows
  settled j hj other hother := by
    rcases Nat.lt_succ_iff_lt_or_eq.mp hj with hj | rfl
    · exact h.settled j hj other hother
    · exact hsettled other hother
  ahead m hfree := by
    refine h.ahead m ?_ fun j hj => hfree j (Nat.lt_succ_of_lt hj)
    rintro rfl
    obtain ⟨it', hit', heq⟩ := h.here
    exact hfree k (Nat.lt_succ_self k) it' hit' (congrArg Item.number heq)

/-- The line is ticked, and done. -/
theorem AtLine.tick {k n : ℕ} {it : Item} {issues : Dict ℕ Issue} {s : Session}
    (h : AtLine db w₀ b₀ k it n issues s) (hopen : it.checked = false) {issue : Issue}
    (hget : s.world.hub.issue n = some issue) (hmatch : Matches db it issue)
    (hclosed : issue.closed = true) :
    ItemsLoop db w₀ b₀ (k + 1) issues { s with board := setChecked s.board k }.save := by
  have hone := setChecked_oneItem s.board k
  obtain ⟨hhub, hlog, hboard⟩ := save_keeps { s with board := setChecked s.board k }
  obtain ⟨it₀, hit₀, heq₀⟩ := h.here
  have hrun := h.inRun.tick hit₀ ((congrArg Item.checked heq₀).trans hopen)
  obtain ⟨it₁, hit₁, heq₁⟩ := hone.now_self hit₀
  rw [heq₀] at heq₁
  have hat : AtLine db w₀ b₀ k { it with checked := true } n issues
      { s with board := setChecked s.board k }.save := by
    refine ⟨hrun, ?_, ?_, ?_, ⟨it₁, by rw [hboard]; exact hit₁, heq₁⟩, ?_⟩
    · rw [hlog, hboard]
      exact h.once.keep hone (fun _ => rfl) fun it m hm => ⟨m, hm⟩
    · rw [hhub]
      exact h.rows
    · rw [hhub, hboard]
      exact hone.settled_before h.settled
    · intro m hm hfree
      rw [hboard] at hfree
      rw [hhub]
      exact h.ahead m hm (hone.free_before hfree)
  refine hat.finish fun other hother => ?_
  rw [hboard, hit₁, Option.some.injEq] at hother
  rw [hhub, ← hother,
    itemSettled_unplaced { it with checked := true, number := some n } heq₁]
  exact ⟨n, issue, rfl, hget, hmatch, hclosed⟩

/-! ## A new issue -/

theorem urlNumber_issueUrl (db : UnicodeDb) (repo : Text) (n : ℕ) :
    urlNumber db (issueUrl repo n) = n := by
  have hdigits : ∀ c ∈ (natText n).reverse, (c != '/') = true := by
    intro c hc
    obtain ⟨d, hd, rfl⟩ := exists_digit (List.mem_reverse.mp hc)
    clear hc
    revert d
    decide
  have hlast : ∀ s : Text, (s ++ '/' :: natText n).rtakeWhile (· != '/') = natText n := by
    intro s
    rw [List.rtakeWhile, List.reverse_append, List.reverse_cons, List.append_assoc,
      List.takeWhile_append_of_pos hdigits, List.singleton_append,
      List.takeWhile_cons_of_neg (by decide), List.append_nil, List.reverse_reverse]
  obtain ⟨s, hs⟩ : ∃ s, issueUrl repo n = s ++ '/' :: natText n := ⟨_, rfl⟩
  rw [urlNumber, hs, hlast, intOf_natText]

theorem createCall_ne (db : UnicodeDb) (it : Item) (m : ℕ) : createCall db it ≠ .closeIssue m := by
  unfold createCall
  exact Call.noConfusion

/-- The issue was created, and its tag is in the file. -/
theorem ItemsLoop.created {k n : ℕ} {it : Item} {issues : Dict ℕ Issue} {s : Session}
    (h : ItemsLoop db w₀ b₀ k issues s) (hk : s.board.items[k]? = some it)
    (hnone : it.number = none) {hub : Hub}
    (happly : s.world.hub.apply n (createCall db it) = some hub) :
    AtLine db w₀ b₀ k it n (issues.insert n (newIssue db it n))
        { s.did (some k) (createCall db it) hub with board := setTag s.board k n }.save ∧
      (issues.insert n (newIssue db it n)).get? n = hub.issue n := by
  obtain ⟨hmilestones, -, hnew, hissue⟩ := apply_createIssue happly
  have hfresh : ¬Listed s.board n := fun hn => h.inRun.tags n hn hnew
  have hhere : hub.issue n = some (newIssue db it n) := (hissue n).trans (if_pos rfl)
  have hone := setTag_oneItem s.board k n
  have hdid : InRun db w₀ b₀ (s.did (some k) (createCall db it) hub) :=
    h.inRun.did happly (some k) fun m hm => absurd hm (createCall_ne db it m)
  have hrun := hdid.tag hk hnone hfresh
    (by rw [show (s.did (some k) (createCall db it) hub).world.hub = hub from rfl, hhere]; simp)
  obtain ⟨hhub, hlog, hboard⟩ :=
    save_keeps { s.did (some k) (createCall db it) hub with board := setTag s.board k n }
  have hget : ∀ m, (issues.insert n (newIssue db it n)).get? m =
      if n = m then hub.issue m else issues.get? m := by
    intro m
    rw [Dict.get?_insert]
    split_ifs with hm
    · rw [← hm, hhere]
    · rfl
  refine ⟨⟨hrun, ?_, ?_, ?_, ?_, ?_⟩, (hget n).trans (if_pos rfl)⟩
  · rw [hlog, hboard]
    exact h.once.create hk hnone n
  · intro r hr
    rw [hhub]
    exact ⟨(h.rows r hr).1, rowSettled_of_milestones hmilestones (h.rows r hr).2⟩
  · rw [hhub, hboard]
    refine hone.settled_before fun j hj other hother => ?_
    obtain ⟨m, issue, hm, hissue', hrest⟩ := h.settled j hj other hother
    have hne : n ≠ m := by
      rintro rfl
      exact hfresh (listed_getElem hother hm)
    exact ⟨m, issue, hm, (hissue m).trans ((if_neg hne).trans hissue'), hrest⟩
  · rw [hboard]
    exact hone.now_self hk
  · intro m hm hfree
    rw [hboard] at hfree
    have hold : issues.get? m = s.world.hub.issue m := h.ahead m (hone.free_before hfree)
    rw [hhub, hget, if_neg hm.symm, hold]
    exact ((hissue m).trans (if_neg hm.symm)).symm

/-- The number of the line, found or made. -/
theorem ensureIssue_rule {k : ℕ} {it : Item} {issues : Dict ℕ Issue} :
    Triple (fun s => ItemsLoop db w₀ b₀ k issues s ∧ s.board.items[k]? = some it)
      (ensureIssue db answers k it issues)
      (fun r s => AtLine db w₀ b₀ k it r.1 r.2 s ∧ r.2.get? r.1 = s.world.hub.issue r.1)
      (fun _ => Ended db w₀ b₀) := by
  unfold ensureIssue
  cases hnumber : it.number with
  | some n =>
      refine Triple.pure fun s ⟨hs, hk⟩ => ?_
      have hat : AtLine db w₀ b₀ k it n issues s := by
        refine ⟨hs.inRun, hs.once, hs.rows, hs.settled, ⟨it, hk, ?_⟩, fun m _ => hs.ahead m⟩
        rw [← hnumber]
        rfl
      exact ⟨hat, hs.ahead n fun j hj other hother => hat.other hj hother⟩
  | none =>
      -- nothing can fail between the creation and the save
      refine Triple.bind (Q := fun n t => ∃ s hub, (ItemsLoop db w₀ b₀ k issues s ∧
          s.board.items[k]? = some it) ∧ s.world.hub.apply n (createCall db it) = some hub ∧
            t = s.did (some k) (createCall db it) hub)
        (gh_rule (fun s hs => ⟨hs.1.inRun, hs.1.once⟩)
          fun s n hub hs happly => ⟨s, hub, hs, happly, rfl⟩) fun n => ?_
      refine Triple.get_bind fun t ⟨s, hub, ⟨hs, hk⟩, happly, ht⟩ => ?_
      obtain ⟨hat, hget⟩ := hs.created hk hnumber happly
      rw [urlNumber_issueUrl]
      refine Triple.bind (Q := fun _ u => u = { t with board := setTag t.board k n })
        (Triple.modify fun u hu => by rw [hu]) fun _ => ?_
      refine Triple.bind (Q := fun _ u => u = { t with board := setTag t.board k n }.save)
        (Triple.modify fun u hu => by rw [hu]) fun _ => Triple.pure fun u hu => ?_
      rw [hu, ht]
      refine ⟨hat, hget.trans (congrArg (fun hub : Hub => hub.issue n) ?_)⟩
      exact (save_keeps
        { s.did (some k) (createCall db it) hub with board := setTag s.board k n }).1.symm

/-! ## The issue of a line -/

theorem matches_edited (it : Item) (issue : Issue) :
    Matches db it ((edited (editTitle db it issue) (editMilestone it issue)
      (editAssignee it issue)).apply issue) := by
  refine ⟨?_, ?_, ?_⟩
  · by_cases h : issue.title = it.title db
    · simp [edited, editTitle, h]
    · simp [edited, editTitle, h]
  · by_cases h : issue.milestone = some it.milestone
    · simp [edited, editMilestone, h]
    · simp [edited, editMilestone, h]
  · cases hp : it.owner with
    | none => simp [editAssignee, hp]
    | some p =>
        by_cases h : p.login ∈ issue.assignees
        · simp [edited, editAssignee, hp, h]
        · simp [edited, editAssignee, hp, h]

theorem editIssue_rule {k n : ℕ} {it : Item} {issue : Issue} {issues : Dict ℕ Issue} :
    Triple (fun s => AtLine db w₀ b₀ k it n issues s ∧ s.world.hub.issue n = some issue)
      (editIssue db answers k n it issue)
      (fun _ s => AtLine db w₀ b₀ k it n issues s ∧ ∃ issue', s.world.hub.issue n = some issue' ∧
        Matches db it issue' ∧ issue'.closed = issue.closed)
      (fun _ => Ended db w₀ b₀) := by
  unfold editIssue
  refine Triple.ite (fun hsame => ?_) fun _ => ?_
  · exact Triple.pure fun s ⟨hs, hget⟩ => ⟨hs, issue, hget, hsame, rfl⟩
  · refine Triple.bind (gh_rule (fun s hs => ⟨hs.1.inRun, hs.1.once⟩) ?_)
      fun _ => Triple.pure fun _ hs => hs
    rintro s m hub ⟨hs, hget⟩ happly
    obtain ⟨hmilestones, hissue⟩ := apply_editIssue happly
    refine ⟨hs.did happly rfl (fun m hm => by cases hm) hmilestones
      fun m hm => (hissue m).trans (if_neg hm), _, ?_, matches_edited it issue, rfl⟩
    exact (hissue n).trans (by rw [if_pos rfl, hget]; rfl)

theorem settleState_rule {k n : ℕ} {it : Item} {issue : Issue} {issues : Dict ℕ Issue} :
    Triple (fun s => AtLine db w₀ b₀ k it n issues s ∧ ∃ issue', s.world.hub.issue n = some issue' ∧
        Matches db it issue' ∧ issue'.closed = issue.closed)
      (settleState answers k n it issue)
      (fun _ => ItemsLoop db w₀ b₀ (k + 1) issues)
      (fun _ => Ended db w₀ b₀) := by
  -- the item as it stands differs from the one that was looked at in its tag alone
  have hitem : ∀ {s : Session}, AtLine db w₀ b₀ k it n issues s → ∀ {other : Item},
      s.board.items[k]? = some other → other.unplaced = { it.unplaced with number := some n } := by
    intro s hs other hother
    obtain ⟨it', hit', heq⟩ := hs.here
    rw [hother, Option.some.injEq] at hit'
    rw [hit', heq]
  unfold settleState
  refine Triple.ite (fun hclose => ?_) fun hclose => Triple.ite (fun htick => ?_) fun htick => ?_
  · refine Triple.bind (Q := fun _ => ItemsLoop db w₀ b₀ (k + 1) issues)
      (gh_rule (fun s hs => ⟨hs.1.inRun, hs.1.once⟩) ?_) fun _ => Triple.pure fun _ hs => hs
    rintro s m hub ⟨hs, issue', hget, hmatch, -⟩ happly
    obtain ⟨hmilestones, hissue⟩ := apply_closeIssue happly
    refine (hs.did happly rfl (fun m hm => (Call.closeIssue.inj hm).symm) hmilestones
      fun m hm => (hissue m).trans (if_neg hm)).finish fun other hother => ?_
    rw [itemSettled_unplaced { it with number := some n } (hitem hs hother)]
    refine ⟨n, closed.apply issue', rfl, (hissue n).trans (by rw [if_pos rfl, hget]; rfl), hmatch, ?_⟩
    exact hclose.1.symm
  · refine Triple.bind (Q := fun _ t => ∃ s, (AtLine db w₀ b₀ k it n issues s ∧
        ∃ issue', s.world.hub.issue n = some issue' ∧ Matches db it issue' ∧
          issue'.closed = issue.closed) ∧ t = { s with board := setChecked s.board k })
      (Triple.modify fun s hs => ⟨s, hs, rfl⟩) fun _ => ?_
    refine Triple.bind (Q := fun _ => ItemsLoop db w₀ b₀ (k + 1) issues) (Triple.modify ?_)
      fun _ => Triple.pure fun _ hs => hs
    rintro t ⟨s, ⟨hs, issue', hget, hmatch, hclosed⟩, rfl⟩
    exact hs.tick htick.2 hget hmatch (hclosed.trans htick.1)
  · refine Triple.pure fun s ⟨hs, issue', hget, hmatch, hclosed⟩ => hs.finish fun other hother => ?_
    rw [itemSettled_unplaced { it with number := some n } (hitem hs hother)]
    refine ⟨n, issue', rfl, hget, hmatch, hclosed.trans ?_⟩
    cases hc : issue.closed with
    | true =>
        cases hk : it.checked with
        | true => rfl
        | false => exact absurd ⟨hc, hk⟩ htick
    | false =>
        cases hk : it.checked with
        | true => exact absurd ⟨hk, hc⟩ hclose
        | false => rfl

/-- One line. -/
theorem syncIssue_rule (acc : Dict ℕ Issue × List Report) (k : ℕ) :
    Triple (ItemsLoop db w₀ b₀ k acc.1) (syncIssue db answers acc k)
      (fun r => ItemsLoop db w₀ b₀ (k + 1) r.1) (fun _ => Ended db w₀ b₀) := by
  unfold syncIssue
  refine Triple.get_bind fun t ht => ?_
  cases hk : t.board.items[k]? with
  | none =>
      refine Triple.pure fun s hs => ?_
      subst hs
      refine ⟨ht.inRun, ht.once, ht.rows, fun j hj other hother => ?_, fun m hfree => ?_⟩
      · rcases Nat.lt_succ_iff_lt_or_eq.mp hj with hj | rfl
        · exact ht.settled j hj other hother
        · rw [hk] at hother
          cases hother
      · exact ht.ahead m fun j hj => hfree j (Nat.lt_succ_of_lt hj)
  | some it =>
      refine Triple.bind (Triple.conseq ensureIssue_rule (fun s hs => hs ▸ ⟨ht, hk⟩)
        (fun _ _ hs => hs) fun _ _ hs => hs) fun r => ?_
      cases hget : r.2.get? r.1 with
      | none =>
          -- every tag is there, so this does not happen
          refine Triple.throw fun s ⟨hs, hsame⟩ => ?_
          exact absurd hsame.symm (hs.inRun.tags r.1 hs.listed)
      | some issue =>
          refine Triple.bind (Triple.conseq editIssue_rule
            (fun s hs => ⟨hs.1, hs.2.symm⟩) (fun _ _ hs => hs) fun _ _ hs => hs)
            fun _ => ?_
          exact Triple.bind settleState_rule fun _ => Triple.pure fun _ hs => hs

/-- The lines. -/
theorem syncIssues_rule :
    Triple (fun s => InRun db w₀ b₀ s ∧ Once db s.world.log s.board ∧
        ∀ r ∈ b₀.rows.entries, Dated db r ∧ RowSettled s.world.hub r)
      (syncIssues db answers)
      (fun _ s => ∃ issues, ItemsLoop db w₀ b₀ s.board.items.length issues s)
      (fun _ => Ended db w₀ b₀) := by
  unfold syncIssues
  refine Triple.bind (Q := fun _ s => InRun db w₀ b₀ s ∧ Once db s.world.log s.board ∧
    ∀ r ∈ b₀.rows.entries, Dated db r ∧ RowSettled s.world.hub r)
    (gh_rule (fun s hs => ⟨hs.1, hs.2.1⟩) ?_) fun _ => ?_
  · rintro s n hub ⟨hrun, honce, hrows⟩ happly
    obtain rfl := apply_read rfl happly
    exact ⟨hrun.did happly none (by simp), honce.other rfl, hrows⟩
  · refine Triple.get_bind fun t ⟨hrun, honce, hrows⟩ => ?_
    have hloop := Triple.foldlM (l := List.range t.board.items.length)
      (I := fun done (acc : Dict ℕ Issue × List Report) =>
        ItemsLoop db w₀ b₀ done.length acc.1)
      (E := fun _ => Ended db w₀ b₀) (f := syncIssue db answers)
      (fun done k rest hrange acc => by
        have hk : k = done.length := by
          have hget : (done ++ k :: rest)[done.length]? = some k := by simp
          rw [← hrange, List.getElem?_range] at hget
          · exact (Option.some.inj hget).symm
          · have hlen := congrArg List.length hrange
            simp only [List.length_range, List.length_append, List.length_cons] at hlen
            omega
        rw [List.length_append, List.length_singleton, hk]
        exact syncIssue_rule acc done.length)
      (.indexBy Issue.number t.world.hub.issues.entries, [])
    have hcount : ∀ s, InRun db w₀ b₀ s → s.board.items.length = t.board.items.length := by
      intro s hs
      have hwords := congrArg List.length (hs.words.trans hrun.words.symm)
      rwa [Board.words, Board.words, List.length_map, List.length_map] at hwords
    refine Triple.bind (Triple.conseq hloop ?_ (fun _ _ hs => hs) fun _ _ hs => hs) fun r => ?_
    · rintro s rfl
      exact ⟨hrun, honce, hrows, fun j hj => absurd hj (Nat.not_lt_zero j), fun _ _ => rfl⟩
    · refine Triple.get_bind fun s hs => Triple.pure fun u hu => ?_
      subst hu
      rw [List.length_range] at hs
      exact ⟨r.1, by rw [hcount u hs.inRun]; exact hs⟩

/-! ## The whole run -/

theorem upToDate_take (cells : List Text) (cur : Milestone) :
    upToDate (cells.take 5) cur = upToDate cells cur ∧ due (cells.take 5) = due cells := by
  have hdue : due (cells.take 5) = due cells := by
    unfold due
    rw [List.getD_eq_getElem?_getD, List.getElem?_take_of_lt (by decide),
      ← List.getD_eq_getElem?_getD]
  have hdesc : desc (cells.take 5) = desc cells := by
    unfold desc
    rw [List.getD_eq_getElem?_getD, List.getElem?_take_of_lt (by decide),
      ← List.getD_eq_getElem?_getD]
  unfold upToDate
  rw [hdue, hdesc]
  exact ⟨rfl, rfl⟩

/-- Rows that agree as far as a sync looks are as settled. -/
theorem SameTable.rows_settled {b b' : Board} (h : SameTable b b') {hub : Hub}
    (hrows : ∀ r ∈ b.rows.entries, Dated db r ∧ RowSettled hub r) :
    ∀ r ∈ b'.rows.entries, Dated db r ∧ RowSettled hub r := by
  rintro ⟨ms, cells'⟩ hr
  have hmem : (ms, cells'.take 5) ∈ (b.rows.mapVal (List.take 5)).entries := by
    rw [← h.rows]
    exact List.mem_map.mpr ⟨_, hr, rfl⟩
  obtain ⟨⟨ms₀, cells⟩, hin, heq⟩ := List.mem_map.mp hmem
  obtain ⟨rfl, htake⟩ := Prod.mk.inj heq
  obtain ⟨hdated, cur, hget, hup⟩ := hrows _ hin
  have hdue : due cells' = due cells := by
    rw [← (upToDate_take cells' cur).2, ← htake, (upToDate_take cells cur).2]
  refine ⟨?_, cur, hget, ?_⟩
  · rw [Dated, hdue]
    exact hdated
  · rw [← (upToDate_take cells' cur).1, ← htake, (upToDate_take cells cur).1]
    exact hup

/-- A run that has been through all lines and has saved. -/
theorem ItemsLoop.ended (hb : parse db (readText w₀.file) = .ok b₀) {s : Session}
    {issues : Dict ℕ Issue} (h : ItemsLoop db w₀ b₀ s.board.items.length issues s)
    (hsaved : readText s.world.file = render s.board) : Ended db w₀ b₀ s := by
  obtain ⟨b, hparse, htable, hagain⟩ := h.inRun.reread hb
  have hrows : ∀ r ∈ b.rows.entries, Dated db r ∧ RowSettled s.world.hub r :=
    htable.rows_settled (h.inRun.rows ▸ h.rows)
  refine ⟨h.inRun, h.once, Or.inr ⟨b, hparse, fun r hr => ?_, fun _ => ⟨fun it hit => ?_, ?_⟩⟩⟩
  · exact (hrows r ((List.takeWhile_prefix _).subset hr)).2
  · rw [htable.items] at hit
    obtain ⟨j, hj⟩ := List.mem_iff_getElem?.mp hit
    exact h.settled j (List.getElem?_eq_some_iff.mp hj).1 it hj
  · exact hagain hsaved

theorem ItemsLoop.save {k : ℕ} {issues : Dict ℕ Issue} {s : Session}
    (h : ItemsLoop db w₀ b₀ k issues s) : ItemsLoop db w₀ b₀ k issues s.save := by
  obtain ⟨hhub, hlog, hboard⟩ := save_keeps s
  have hrun : InRun db w₀ b₀ s.save := by
    have hsame : OneItem id s.board.items.length s.board s.board := by
      refine ⟨?_, rfl⟩
      rw [List.modify_id]
    exact h.inRun.change hsame (fun _ => rfl) h.inRun.faithful h.inRun.tags fun _ => id
  refine ⟨hrun, ?_, ?_, ?_, ?_⟩
  · rw [hlog, hboard]
    exact h.once
  · rw [hhub]
    exact h.rows
  · rw [hhub, hboard]
    exact h.settled
  · rw [hhub, hboard]
    exact h.ahead

variable (answers) in
/-- However a run ends, it has kept what it must; and it has left nothing to do
unless a call failed. -/
theorem sync_rule (hb : parse db (readText w₀.file) = .ok b₀) :
    Triple (fun s => InRun db w₀ b₀ s ∧ Once db s.world.log s.board ∧ s.board = b₀ ∧
        s.world.file = w₀.file)
      (sync db answers (readText w₀.file)) (fun _ => Ended db w₀ b₀) (fun _ => Ended db w₀ b₀) := by
  unfold sync
  refine Triple.bind (Q := fun _ s => InRun db w₀ b₀ s ∧ Once db s.world.log s.board ∧
    s.board = b₀ ∧ s.world.file = w₀.file) (gh_rule (fun s hs => ⟨hs.1, hs.2.1⟩) ?_) fun _ => ?_
  · rintro s n hub ⟨hrun, honce, hboard, hfile⟩ happly
    exact ⟨hrun.did happly none (by simp), honce.other rfl, hboard, hfile⟩
  refine Triple.bind (syncMilestones_rule hb) fun _ => Triple.bind syncIssues_rule fun report => ?_
  refine Triple.get_bind fun t ⟨issues, ht⟩ => Triple.ite (fun hsame => ?_) fun hsame => ?_
  · refine Triple.pure fun s hs => ?_
    subst hs
    refine ht.ended hb ?_
    rcases ht.inRun.saved with ⟨-, hfile, -, -⟩ | ⟨hfile, -⟩
    · rw [hfile, hsame]
    · exact hfile
  · refine Triple.bind (Q := fun _ => Ended db w₀ b₀) (Triple.modify fun s hs => ?_)
      fun _ => Triple.pure fun _ hs => hs
    subst hs
    obtain ⟨-, -, hboard⟩ := save_keeps s
    have hloop : ItemsLoop db w₀ b₀ s.save.board.items.length issues s.save := by
      rw [hboard]
      exact ht.save
    refine hloop.ended hb ?_
    rw [hboard]
    exact (save_saved ht.inRun.faithful ht.inRun.readText_file).1

end Rules

end Carwatch.BoardSync
