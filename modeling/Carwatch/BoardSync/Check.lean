import Carwatch.BoardSync.Convergence

/-!
# Carwatch.BoardSync.Check — `board_sync.py --check`

The script when `gh` is dry: a write is counted and printed, not made; the file
is not replaced; a line without a tag keeps none.

* `Would` — one `would:` line;
* `check` — the dry run; `checkCode` its exit code;
* `plan` — all that a run has to do, read off GitHub and the file;
* `check_outcome` — the dry run changes nothing and prints the plan.
-/

namespace Carwatch.BoardSync

open Carwatch.Lib

/-! ## The dry run -/

/-- One `would:` line. -/
inductive Would where
  | call (c : Call)
  | closeAgain
  | rewrite
deriving DecidableEq

/-- A dry run, with what it has counted. -/
structure Checking where
  session : Session
  pending : List Would

/-- A part of a dry run. -/
abbrev Check := EStateM Stop Checking

/-- `Gh.read_json` -/
def ask (answers : Answers) (c : Call) : Check PUnit := fun s =>
  match gh answers none c s.session with
  | .ok _ t => .ok ⟨⟩ { s with session := t }
  | .error e t => .error e { s with session := t }

/-- `Gh.write` of a dry `Gh` -/
def would (d : Would) : Check PUnit := modify fun s => { s with pending := s.pending ++ [d] }

/-- The loop of `sync_milestones`. -/
def checkMilestone (db : UnicodeDb) (known : Dict Text Milestone) (row : Text × List Text) :
    Check PUnit :=
  if isDate db (due row.2) = true then
    match known.get? row.1 with
    | none => would (.call (.createMilestone row.1 (dueOn row.2) (desc row.2)))
    | some cur =>
        if upToDate row.2 cur = true then pure ⟨⟩
        else would (.call (.patchMilestone cur.number (dueOn row.2) (desc row.2)))
  else throw (.badDue row.1 (due row.2))

/-- `sync_milestones` -/
def checkMilestones (db : UnicodeDb) (answers : Answers) : Check PUnit := do
  ask answers .listMilestones
  let s ← get
  s.session.board.rows.entries.forM
    (checkMilestone db (.indexBy Milestone.title s.session.world.hub.milestones.entries))

/-- The edit of an issue. -/
def checkEdit (db : UnicodeDb) (n : ℕ) (it : Item) (issue : Issue) : Check PUnit :=
  if editTitle db it issue = none ∧ editMilestone it issue = none ∧ editAssignee it issue = none then
    pure ⟨⟩
  else
    would (.call (.editIssue n (editTitle db it issue) (editMilestone it issue)
      (editAssignee it issue)))

/-- The state of an issue: `save` does nothing here. -/
def checkState (k n : ℕ) (it : Item) (issue : Issue) : Check (List Report) :=
  if it.checked = true ∧ issue.closed = false then do
    would (.call (.closeIssue n))
    pure []
  else if issue.closed = true ∧ it.checked = false then do
    modify fun s => { s with session := { s.session with board := setChecked s.session.board k } }
    pure [.ticked n]
  else pure []

/-- A ticked line of which the issue would be new. -/
def checkNew (it : Item) : Check PUnit :=
  if it.checked = true then would .closeAgain else pure ⟨⟩

/-- The loop of `sync_issues`. -/
def checkIssue (db : UnicodeDb) (issues : Dict ℕ Issue) (report : List Report) (k : ℕ) :
    Check (List Report) := do
  let s ← get
  match s.session.board.items[k]? with
  | none => pure report
  | some it =>
      match it.number with
      | none => do
          would (.call (createCall db it))
          checkNew it
          pure report
      | some n =>
          match issues.get? n with
          | none => throw (.noIssue it.first n)
          | some issue => do
              checkEdit db n it issue
              let found ← checkState k n it issue
              pure (report ++ found)

/-- `sync_issues` -/
def checkIssues (db : UnicodeDb) (answers : Answers) : Check (List Report) := do
  ask answers .listIssues
  let s ← get
  let issues := Dict.indexBy Issue.number s.session.world.hub.issues.entries
  let report ← (List.range s.session.board.items.length).foldlM (checkIssue db issues) []
  let s ← get
  pure (report ++ unlisted s.session.board.items issues)

/-- `main`, behind `parse`. -/
def checkAll (db : UnicodeDb) (answers : Answers) (original : Text) : Check (List Report) := do
  ask answers .repoView
  checkMilestones db answers
  let report ← checkIssues db answers
  let s ← get
  if render s.session.board = original then pure report
  else do
    would .rewrite
    pure report

/-- `main` with `--check --no-board`: the world after it, and how it ended. -/
def check (db : UnicodeDb) (answers : Answers) (w : World) :
    World × Except Stop (List Report × List Would) :=
  match parse db (readText w.file) with
  | .error e => (w, .error (.parse e))
  | .ok b =>
      match checkAll db answers (readText w.file) ⟨⟨w, b, readText w.file⟩, []⟩ with
      | .ok report s => (s.session.world, .ok (report, s.pending))
      | .error e s => (s.session.world, .error e)

/-- What `main` returns. -/
def checkCode (out : Except Stop (List Report × List Would)) : ℕ :=
  match out with
  | .ok (_, []) => 0
  | .ok (_, _ :: _) => 1
  | .error _ => 1

/-! ## All there is to do -/

/-- What a row needs. -/
def rowPlan (known : Dict Text Milestone) (row : Text × List Text) : List Would :=
  match known.get? row.1 with
  | none => [.call (.createMilestone row.1 (dueOn row.2) (desc row.2))]
  | some cur =>
      if upToDate row.2 cur = true then []
      else [.call (.patchMilestone cur.number (dueOn row.2) (desc row.2))]

/-- What an issue needs to be as its line says. -/
def editPlan (db : UnicodeDb) (n : ℕ) (it : Item) (issue : Issue) : List Would :=
  if editTitle db it issue = none ∧ editMilestone it issue = none ∧ editAssignee it issue = none then
    []
  else
    [.call (.editIssue n (editTitle db it issue) (editMilestone it issue) (editAssignee it issue))]

/-- What an issue needs to be closed as its line is ticked. -/
def closePlan (n : ℕ) (it : Item) (issue : Issue) : List Would :=
  if it.checked = true ∧ issue.closed = false then [.call (.closeIssue n)] else []

/-- What a line needs. -/
def linePlan (db : UnicodeDb) (hub : Hub) (it : Item) : List Would :=
  match it.number with
  | none => .call (createCall db it) :: if it.checked = true then [.closeAgain] else []
  | some n =>
      match hub.issue n with
      | none => []
      | some issue => editPlan db n it issue ++ closePlan n it issue

/-- The board once line `k` is ticked if its issue is closed. -/
def tickLine (hub : Hub) (b : Board) (k : ℕ) : Board :=
  match b.items[k]? with
  | none => b
  | some it =>
      match it.number.bind hub.issue with
      | none => b
      | some issue => if issue.closed = true ∧ it.checked = false then setChecked b k else b

/-- The board with the first `k` lines looked at. -/
def tickLines (hub : Hub) (b : Board) (k : ℕ) : Board := (List.range k).foldl (tickLine hub) b

/-- The calls that make GitHub match the file. -/
def callPlan (db : UnicodeDb) (hub : Hub) (b : Board) : List Would :=
  b.rows.entries.flatMap (rowPlan (.indexBy Milestone.title hub.milestones.entries)) ++
    b.items.flatMap (linePlan db hub)

/-- Everything `--check` has to print. -/
def plan (db : UnicodeDb) (hub : Hub) (b : Board) (original : Text) : List Would :=
  callPlan db hub b ++
    if render (tickLines hub b b.items.length) = original then [] else [.rewrite]

/-! ## The lines ahead -/

section Ticks

variable {hub : Hub} {b : Board} {k j : ℕ}

theorem tickLine_cases (hub : Hub) (b : Board) (k : ℕ) :
    tickLine hub b k = b ∨ tickLine hub b k = setChecked b k := by
  unfold tickLine
  split
  · exact Or.inl rfl
  · split
    · exact Or.inl rfl
    · split_ifs
      · exact Or.inr rfl
      · exact Or.inl rfl

theorem tickLines_succ : tickLines hub b (k + 1) = tickLine hub (tickLines hub b k) k := by
  rw [tickLines, List.range_succ, List.foldl_append]
  rfl

theorem tickLine_rows : (tickLine hub b k).rows = b.rows := by
  rcases tickLine_cases hub b k with h | h
  · rw [h]
  · rw [h, (setChecked_oneItem b k).rows]

theorem tickLines_rows : (tickLines hub b k).rows = b.rows := by
  induction k with
  | zero => rfl
  | succ k ih => rw [tickLines_succ, tickLine_rows, ih]

theorem tickLine_other (hj : j ≠ k) :
    ((tickLine hub b k).items[j]?).map Item.unplaced = (b.items[j]?).map Item.unplaced := by
  rcases tickLine_cases hub b k with h | h
  · rw [h]
  · rw [h, (setChecked_oneItem b k).getElem j]
    simp only [if_neg hj.symm]

/-- A line of which the issue is found. -/
theorem tickLine_found {it : Item} {n : ℕ} {issue : Issue} (hk : b.items[k]? = some it)
    (hn : it.number = some n) (hissue : hub.issue n = some issue) :
    tickLine hub b k = if issue.closed = true ∧ it.checked = false then setChecked b k else b := by
  simp only [tickLine, hk, hn, Option.bind_some, hissue]

/-- A line that was not looked at is as it was, but for where it stands. -/
theorem tickLines_ahead (hj : k ≤ j) :
    ((tickLines hub b k).items[j]?).map Item.unplaced = (b.items[j]?).map Item.unplaced := by
  induction k with
  | zero => rfl
  | succ k ih => rw [tickLines_succ, tickLine_other (by omega), ih (by omega)]

end Ticks

/-- Items that differ in where they stand need the same. -/
theorem linePlan_unplaced (db : UnicodeDb) (hub : Hub) {it it' : Item}
    (h : it'.unplaced = it.unplaced) : linePlan db hub it' = linePlan db hub it := by
  have hboth : ∀ it : Item, linePlan db hub it = linePlan db hub it.unplaced := fun _ => rfl
  rw [hboth it', h, ← hboth it]

/-- An item of a list of which the words are known. -/
theorem exists_unplaced {items items' : List Item} {k : ℕ} {it : Item}
    (h : (items'[k]?).map Item.unplaced = (items[k]?).map Item.unplaced) (hk : items'[k]? = some it) :
    ∃ it₀, items[k]? = some it₀ ∧ it.unplaced = it₀.unplaced := by
  rw [hk, Option.map_some, eq_comm, Option.map_eq_some_iff] at h
  obtain ⟨it₀, hit₀, heq⟩ := h
  exact ⟨it₀, hit₀, heq.symm⟩

/-! ## The dry run prints the plan -/

/-- Why a dry run stops: a call failed, a row has no date, a tag has no issue. -/
inductive NoCheck (db : UnicodeDb) (answers : Answers) (w : World) (b : Board) : Stop → Prop where
  | gh (c : Call) (i : ℕ) (h : answers i = none) : NoCheck db answers w b (.gh c)
  | badDue (r : Text × List Text) (hr : r ∈ b.rows.entries) (h : ¬Dated db r) :
      NoCheck db answers w b (.badDue r.1 (due r.2))
  | noIssue (line n : ℕ) (hn : Listed b n) (h : w.hub.issue n = none) :
      NoCheck db answers w b (.noIssue line n)

/-- A dry run that was stopped has changed nothing. -/
def Unchecked (db : UnicodeDb) (answers : Answers) (w : World) (b : Board) (e : Stop)
    (s : Checking) : Prop := NoCheck db answers w b e ∧ ∃ b', Idle w b' s.session

/-- A dry run that has printed `p`. -/
def Printed (w : World) (b : Board) (p : List Would) (s : Checking) : Prop :=
  Idle w b s.session ∧ s.pending = p

section Dry

variable {db : UnicodeDb} {answers : Answers} {w : World} {b b₀ : Board} {p : List Would}

theorem ask_rule {c : Call} (hc : c.isRead = true) :
    Triple (Printed w b p) (ask answers c) (fun _ => Printed w b p) (Unchecked db answers w b₀) := by
  intro s ⟨hs, hp⟩
  have hgh : Triple (Idle w b) (gh answers none c) (fun _ => Idle w b) (fun _ => Idle w b) := idle_gh hc
  have hidle := hgh s.session hs
  unfold ask
  cases hgh : gh answers none c s.session with
  | ok n t =>
      rw [hgh] at hidle
      exact ⟨hidle, hp⟩
  | error e t =>
      rw [hgh] at hidle
      refine ⟨?_, b, hidle⟩
      -- a read fails only if no answer comes
      have hanswer : answers s.session.world.log.length = none ∧ e = .gh c := by
        unfold gh at hgh
        cases hget : answers s.session.world.log.length with
        | none =>
            simp only [hget] at hgh
            exact ⟨rfl, (EStateM.Result.error.inj hgh).1.symm⟩
        | some n =>
            have happly : s.session.world.hub.apply n c = some s.session.world.hub := by
              cases c <;> first | rfl | cases hc
            simp only [hget, happly] at hgh
            cases hgh
      rw [hanswer.2]
      exact .gh c _ hanswer.1

theorem would_rule {E : Stop → Checking → Prop} (d : Would) :
    Triple (Printed w b p) (would d) (fun _ => Printed w b (p ++ [d])) E :=
  Triple.modify fun s hs => ⟨hs.1, by rw [hs.2]⟩

/-- One row. -/
theorem checkMilestone_rule {known : Dict Text Milestone} {row : Text × List Text}
    (hrow : row ∈ b₀.rows.entries) :
    Triple (Printed w b p) (checkMilestone db known row)
      (fun _ s => Printed w b (p ++ rowPlan known row) s ∧ Dated db row)
      (Unchecked db answers w b₀) := by
  unfold checkMilestone rowPlan
  refine Triple.ite (fun hdate => ?_) fun hdate => Triple.throw fun s hs => ?_
  · cases known.get? row.1 with
    | none => exact Triple.conseq (would_rule _) (fun _ => id) (fun _ _ hs => ⟨hs, hdate⟩) fun _ _ => id
    | some cur =>
        dsimp only
        split_ifs with hup
        · exact Triple.pure fun s hs => ⟨by rwa [List.append_nil], hdate⟩
        · exact Triple.conseq (would_rule _) (fun _ => id) (fun _ _ hs => ⟨hs, hdate⟩) fun _ _ => id
  · exact ⟨.badDue row hrow hdate, b, hs.1⟩

theorem checkMilestones_rule :
    Triple (Printed w b []) (checkMilestones db answers)
      (fun _ s => Printed w b (b.rows.entries.flatMap
        (rowPlan (.indexBy Milestone.title w.hub.milestones.entries))) s ∧
          ∀ r ∈ b.rows.entries, Dated db r)
      (Unchecked db answers w b) := by
  unfold checkMilestones
  refine Triple.bind (ask_rule rfl) fun _ => Triple.get_bind fun t ht => ?_
  have hhub := ht.1.hub
  have hboard := ht.1.board
  rw [hhub, hboard]
  refine Triple.conseq (Triple.forM (I := fun done s => Printed w b (done.flatMap
    (rowPlan (.indexBy Milestone.title w.hub.milestones.entries))) s ∧ ∀ r ∈ done, Dated db r)
    (E := Unchecked db answers w b) fun done row rest hsplit => ?_) ?_ (fun _ _ => id) fun _ _ => id
  · intro s ⟨hs, hdated⟩
    refine Triple.conseq (checkMilestone_rule (by rw [hsplit]; simp)) (fun _ => id) ?_
      (fun _ _ => id) s hs
    rintro _ u ⟨hu, hrow⟩
    refine ⟨by rwa [List.flatMap_append, List.flatMap_singleton], fun r hr => ?_⟩
    rcases List.mem_append.mp hr with hr | hr
    · exact hdated r hr
    · rw [List.mem_singleton.mp hr]
      exact hrow
  · rintro s rfl
    exact ⟨ht, by simp⟩

theorem checkEdit_rule {E : Stop → Checking → Prop} (n : ℕ) (it : Item) (issue : Issue) :
    Triple (Printed w b p) (checkEdit db n it issue)
      (fun _ => Printed w b (p ++ editPlan db n it issue)) E := by
  unfold checkEdit editPlan
  split_ifs
  · exact Triple.pure fun s hs => by rwa [List.append_nil]
  · exact would_rule _

theorem checkState_rule {E : Stop → Checking → Prop} {k n : ℕ} {it : Item} {issue : Issue}
    (hk : b.items[k]? = some it) (hn : it.number = some n) (hissue : w.hub.issue n = some issue) :
    Triple (Printed w b p) (checkState k n it issue)
      (fun _ => Printed w (tickLine w.hub b k) (p ++ closePlan n it issue)) E := by
  rw [tickLine_found hk hn hissue]
  unfold checkState closePlan
  by_cases hclose : it.checked = true ∧ issue.closed = false
  · have hopen : ¬(issue.closed = true ∧ it.checked = false) := by
      rintro ⟨hc, -⟩
      rw [hclose.2] at hc
      cases hc
    rw [if_pos hclose, if_pos hclose, if_neg hopen]
    exact Triple.bind (would_rule _) fun _ => Triple.pure fun _ hs => hs
  · rw [if_neg hclose, if_neg hclose, List.append_nil]
    by_cases htick : issue.closed = true ∧ it.checked = false
    · rw [if_pos htick, if_pos htick]
      refine Triple.bind (Q := fun _ => Printed w (setChecked b k) p) (Triple.modify ?_)
        fun _ => Triple.pure fun _ hs => hs
      rintro s ⟨hs, hp⟩
      exact ⟨⟨hs.hub, hs.file, hs.saves, hs.log, congrArg (setChecked · k) hs.board⟩, hp⟩
    · rw [if_neg htick, if_neg htick]
      exact Triple.pure fun _ hs => hs

/-- Between two lines of a dry run. -/
def Looked (db : UnicodeDb) (w : World) (b : Board) (p : List Would) (k : ℕ) (s : Checking) : Prop :=
  Printed w (tickLines w.hub b k) (p ++ (b.items.take k).flatMap (linePlan db w.hub)) s ∧
    ∀ j < k, ∀ it n, b.items[j]? = some it → it.number = some n → w.hub.issue n ≠ none

/-- One line. -/
theorem checkIssue_rule {k : ℕ} (hk : k < b.items.length) (report : List Report) :
    Triple (Looked db w b p k)
      (checkIssue db (.indexBy Issue.number w.hub.issues.entries) report k)
      (fun _ => Looked db w b p (k + 1)) (Unchecked db answers w b) := by
  obtain ⟨it₀, hit₀⟩ : ∃ it₀, b.items[k]? = some it₀ := ⟨_, List.getElem?_eq_getElem hk⟩
  have htake : b.items.take (k + 1) = b.items.take k ++ [it₀] := by
    rw [List.take_add_one, hit₀, Option.toList_some]
  -- what is left to do for this line
  have hdone : ∀ s, Printed w (tickLine w.hub (tickLines w.hub b k) k)
      (p ++ (b.items.take k).flatMap (linePlan db w.hub) ++ linePlan db w.hub it₀) s →
      (∀ n, it₀.number = some n → w.hub.issue n ≠ none) →
      (∀ j < k, ∀ it n, b.items[j]? = some it → it.number = some n → w.hub.issue n ≠ none) →
      Looked db w b p (k + 1) s := by
    intro s hs hhere htags
    refine ⟨?_, fun j hj it n hit hn => ?_⟩
    · rwa [tickLines_succ, htake, List.flatMap_append, List.flatMap_singleton, ← List.append_assoc]
    · rcases Nat.lt_succ_iff_lt_or_eq.mp hj with hj | rfl
      · exact htags j hj it n hit hn
      · rw [hit₀, Option.some.injEq] at hit
        exact hhere n (hit ▸ hn)
  unfold checkIssue
  refine Triple.get_bind fun t ⟨ht, htags⟩ => ?_
  obtain ⟨it, hit, heq⟩ : ∃ it, (tickLines w.hub b k).items[k]? = some it ∧
      it.unplaced = it₀.unplaced := by
    have hsame : ((tickLines w.hub b k).items[k]?).map Item.unplaced =
        (b.items[k]?).map Item.unplaced := tickLines_ahead (le_refl k)
    rw [hit₀, Option.map_some, Option.map_eq_some_iff] at hsame
    exact hsame
  have hnumber : it.number = it₀.number :=
    show it.unplaced.number = it₀.unplaced.number by rw [heq]
  rw [← linePlan_unplaced db w.hub heq] at hdone
  rw [ht.1.board, hit]
  dsimp only
  cases hn : it.number with
  | none =>
      have hplan : linePlan db w.hub it =
          .call (createCall db it) :: if it.checked = true then [.closeAgain] else [] := by
        simp only [linePlan, hn]
      have htick : tickLine w.hub (tickLines w.hub b k) k = tickLines w.hub b k := by
        simp only [tickLine, hit, hn, Option.bind_none]
      have hclose : Triple (Printed w (tickLines w.hub b k)
          (p ++ (b.items.take k).flatMap (linePlan db w.hub) ++ [.call (createCall db it)]))
          (checkNew it)
          (fun _ => Printed w (tickLines w.hub b k)
            (p ++ (b.items.take k).flatMap (linePlan db w.hub) ++ linePlan db w.hub it))
          (Unchecked db answers w b) := by
        rw [hplan]
        unfold checkNew
        split_ifs
        · exact Triple.conseq (would_rule _) (fun _ => id)
            (fun _ _ hs => by rwa [List.append_assoc] at hs) fun _ _ => id
        · exact Triple.pure fun _ hs => hs
      refine Triple.bind (Triple.conseq (would_rule _) (fun s hs => hs ▸ ht) (fun _ _ => id)
        fun _ _ => id) fun _ => Triple.bind hclose fun _ => Triple.pure fun s hs => ?_
      refine hdone s (by rwa [htick]) (fun n hn₀ => ?_) htags
      rw [← hnumber, hn] at hn₀
      cases hn₀
  | some n =>
      have hget : (Dict.indexBy Issue.number w.hub.issues.entries).get? n = w.hub.issue n := rfl
      dsimp only
      rw [hget]
      cases hissue : w.hub.issue n with
      | none =>
          refine Triple.throw fun s hs => ⟨.noIssue it.first n ?_ hissue, _, hs ▸ ht.1⟩
          exact ⟨it₀, List.mem_of_getElem? hit₀, hnumber ▸ hn⟩
      | some issue =>
          have hplan : linePlan db w.hub it = editPlan db n it issue ++ closePlan n it issue := by
            simp only [linePlan, hn, hissue]
          refine Triple.bind (Triple.conseq (checkEdit_rule n it issue) (fun s hs => hs ▸ ht)
            (fun _ _ => id) fun _ _ => id) fun _ =>
            Triple.bind (checkState_rule hit hn hissue) fun _ => Triple.pure fun s hs => ?_
          refine hdone s (by rwa [hplan, ← List.append_assoc]) (fun m hm => ?_) htags
          rw [← hnumber, hn, Option.some.injEq] at hm
          rw [← hm, hissue]
          exact Option.some_ne_none issue

/-- The lines. -/
theorem checkIssues_rule :
    Triple (Printed w b p) (checkIssues db answers)
      (fun _ => Looked db w b p b.items.length) (Unchecked db answers w b) := by
  unfold checkIssues
  refine Triple.bind (ask_rule rfl) fun _ => Triple.get_bind fun t ht => ?_
  dsimp only
  rw [ht.1.hub, ht.1.board]
  refine Triple.bind (Triple.conseq (Triple.foldlM_range (I := fun k _ => Looked db w b p k)
    (E := Unchecked db answers w b) (fun k hk report => checkIssue_rule hk report) [])
    ?_ (fun _ _ => id) fun _ _ => id) fun report => ?_
  · rintro s rfl
    exact ⟨by rwa [List.take_zero, List.flatMap_nil, List.append_nil], fun j hj => by omega⟩
  · exact Triple.get_bind fun s hs => Triple.pure fun u hu => hu ▸ hs

variable (db answers w b) in
/-- A whole dry run. -/
theorem checkAll_rule :
    Triple (Printed w b []) (checkAll db answers (readText w.file))
      (fun _ s => Printed w (tickLines w.hub b b.items.length) (plan db w.hub b (readText w.file)) s ∧
        (∀ r ∈ b.rows.entries, Dated db r) ∧ TagsExist w.hub b)
      (Unchecked db answers w b) := by
  unfold checkAll
  refine Triple.bind (ask_rule rfl) fun _ => Triple.bind checkMilestones_rule fun _ => ?_
  intro s ⟨hs, hdated⟩
  refine Triple.bind checkIssues_rule (fun report => ?_) s hs
  refine Triple.get_bind fun t ⟨ht, htags⟩ => ?_
  have hexist : TagsExist w.hub b := by
    rintro n ⟨it, hmem, hn⟩
    obtain ⟨j, hj⟩ := List.mem_iff_getElem?.mp hmem
    exact htags j (List.getElem?_eq_some_iff.mp hj).1 it n hj hn
  rw [List.take_length] at ht
  have hplan : ∀ l, plan db w.hub b (readText w.file) = callPlan db w.hub b ++ l →
      ∀ u, Printed w (tickLines w.hub b b.items.length) (callPlan db w.hub b ++ l) u →
      Printed w (tickLines w.hub b b.items.length) (plan db w.hub b (readText w.file)) u := by
    intro l hl u hu
    rwa [hl]
  rw [ht.1.board]
  refine Triple.ite (fun hsame => Triple.pure fun u hu => ⟨?_, hdated, hexist⟩) fun hnew => ?_
  · refine hplan [] (by rw [plan, if_pos hsame]) u ?_
    rw [List.append_nil]
    exact hu ▸ ht
  · refine Triple.bind (Triple.conseq (would_rule _) (fun u hu => hu ▸ ht) (fun _ _ => id)
      fun _ _ => id) fun _ => Triple.pure fun u hu => ⟨?_, hdated, hexist⟩
    exact hplan [.rewrite] (by rw [plan, if_neg hnew]) u hu

/-- What a dry run does to the world: it reads. -/
structure OnlyReads (w w' : World) : Prop where
  hub : w'.hub = w.hub
  file : w'.file = w.file
  saves : w'.saves = w.saves
  log : ∀ e ∈ w'.log.drop w.log.length, e.call.isRead = true

theorem Idle.onlyReads {s : Session} (h : Idle w b s) : OnlyReads w s.world := by
  obtain ⟨more, hlog, hmore⟩ := h.log
  refine ⟨h.hub, h.file, h.saves, ?_⟩
  rw [hlog, List.drop_left]
  exact hmore

variable (answers) in
/-- A dry run only reads. It prints the plan, or it stops for a reason. -/
theorem check_outcome (hb : parse db (readText w.file) = .ok b) :
    OnlyReads w (check db answers w).1 ∧
      match (check db answers w).2 with
      | .ok (_, pending) => pending = plan db w.hub b (readText w.file) ∧
          (∀ r ∈ b.rows.entries, Dated db r) ∧ TagsExist w.hub b
      | .error e => NoCheck db answers w b e := by
  have hstart : Idle w b ⟨w, b, readText w.file⟩ := ⟨rfl, rfl, rfl, ⟨[], by simp⟩, rfl⟩
  have hend := checkAll_rule db answers w b ⟨⟨w, b, readText w.file⟩, []⟩ ⟨hstart, rfl⟩
  unfold check
  rw [hb]
  dsimp only
  cases hall : checkAll db answers (readText w.file) ⟨⟨w, b, readText w.file⟩, []⟩ with
  | ok report s =>
      rw [hall] at hend
      obtain ⟨⟨hidle, hpending⟩, hdated, htags⟩ := hend
      exact ⟨hidle.onlyReads, hpending, hdated, htags⟩
  | error e s =>
      rw [hall] at hend
      obtain ⟨hwhy, b', hidle⟩ := hend
      exact ⟨hidle.onlyReads, hwhy⟩

end Dry

end Carwatch.BoardSync
