import Carwatch.Lib.Hoare
import Carwatch.BoardSync.Hub

/-!
# Carwatch.BoardSync.Sync — `tools/board_sync.py`, run after run

The script without `--check`, `--status` and the project board: `main` reads the
file, makes GitHub match it call by call, and writes tags, ticks and progress
back. Any call can fail, and that stops the run.

* `World` — GitHub, the file, and the calls made so far;
* `gh` — one call;
* `syncMilestones`, `syncIssues`, `sync`, `run` — the functions of the script;
* `worlds` — a run, and another, and another.
-/

namespace Carwatch.BoardSync

open Carwatch.Lib

/-! ## The world of a run -/

/-- A call that was made. `line` says for which item, by its index; the script
does not keep it. -/
structure Entry where
  line : Option ℕ
  call : Call
  ok : Bool

/-- GitHub, `docs/milestones.md` with the number of times it was replaced, and
all calls so far. -/
structure World where
  hub : Hub
  file : Text
  saves : ℕ
  log : List Entry

/-- Before the first run. -/
def World.start (hub : Hub) (file : Text) : World := ⟨hub, file, 0, []⟩

/-- A run, once `parse` has accepted the file. -/
structure Session where
  world : World
  board : Board
  written : Text

/-- Why a run stops early. -/
inductive Stop where
  | parse (e : ParseFail)
  | gh (call : Call)
  | badDue (ms due : Text)
  | noIssue (line number : ℕ)

/-- A part of a run. -/
abbrev Sync := EStateM Stop Session

/-- What becomes of the calls, in the order in which they are made: `none` is
one that fails, and `some n` one that succeeds, with `n` as the number of what
it creates. -/
abbrev Answers := ℕ → Option ℕ

/-- The session after a call that succeeded. -/
def Session.did (s : Session) (line : Option ℕ) (call : Call) (hub : Hub) : Session :=
  { s with world := { s.world with hub := hub, log := s.world.log ++ [⟨line, call, true⟩] } }

/-- The session after a call that failed. -/
def Session.didNot (s : Session) (line : Option ℕ) (call : Call) : Session :=
  { s with world := { s.world with log := s.world.log ++ [⟨line, call, false⟩] } }

/-- `Gh.read_json` and `Gh.write`: a call that fails stops the run. -/
def gh (answers : Answers) (line : Option ℕ) (call : Call) : Sync ℕ := fun s =>
  match answers s.world.log.length with
  | none => .error (.gh call) (s.didNot line call)
  | some n =>
      match s.world.hub.apply n call with
      | none => .error (.gh call) (s.didNot line call)
      | some hub => .ok n (s.did line call hub)

/-! ## Milestones -/

/-- `re.fullmatch(r"\d{4}-\d{2}-\d{2}", due)` -/
def isDate (db : UnicodeDb) : Text → Bool
  | [y₀, y₁, y₂, y₃, s₀, m₀, m₁, s₁, d₀, d₁] =>
      [y₀, y₁, y₂, y₃, m₀, m₁, d₀, d₁].all (isDecimal db) && s₀ == '-' && s₁ == '-'
  | _ => false

/-- The Due cell of a row. -/
def due (cells : List Text) : Text := cells.getD 3 []

/-- The Deliverable cell of a row, which is the description. -/
def desc (cells : List Text) : Text := cells.getD 1 []

/-- `f"{due}T23:59:59Z"` -/
def dueOn (cells : List Text) : Text := due cells ++ "T23:59:59Z".toList

/-- Whether a milestone is what its row says. -/
def upToDate (cells : List Text) (cur : Milestone) : Bool :=
  (cur.dueOn.getD []).take 10 == due cells && cur.description.getD [] == desc cells

/-- The loop of `sync_milestones`. -/
def syncMilestone (db : UnicodeDb) (answers : Answers) (known : Dict Text Milestone)
    (row : Text × List Text) : Sync PUnit :=
  if isDate db (due row.2) = true then
    match known.get? row.1 with
    | none => do
        let _ ← gh answers none (.createMilestone row.1 (dueOn row.2) (desc row.2))
        pure ⟨⟩
    | some cur =>
        if upToDate row.2 cur = true then pure ⟨⟩
        else do
          let _ ← gh answers none (.patchMilestone cur.number (dueOn row.2) (desc row.2))
          pure ⟨⟩
  else throw (.badDue row.1 (due row.2))

/-- `sync_milestones` -/
def syncMilestones (db : UnicodeDb) (answers : Answers) : Sync PUnit := do
  let _ ← gh answers none .listMilestones
  let s ← get
  s.board.rows.entries.forM
    (syncMilestone db answers (.indexBy Milestone.title s.world.hub.milestones.entries))

/-! ## Issues -/

/-- A line of the report. -/
inductive Report where
  | ticked (number : ℕ)
  | onNoLine (number : ℕ) (title : Text)

/-- The session with the board in the file. -/
def Session.save (s : Session) : Session :=
  if render s.board = s.written then s
  else
    { s with
      world := { s.world with file := render s.board, saves := s.world.saves + 1 }
      written := render s.board }

/-- `save` of `main` -/
def save : Sync PUnit := modify Session.save

/-- `re.match(r"(Decide:|M[0-6] (decision|question))", text)` -/
def isDecision (text : Text) : Bool :=
  (eat "Decide:".toList text).isSome ||
    match milestoneRe text with
    | some (_, rest) =>
        (eat " decision".toList rest).isSome || (eat " question".toList rest).isSome
    | none => false

/-- The call that creates the issue of a line. -/
def createCall (db : UnicodeDb) (it : Item) : Call :=
  .createIssue (it.title db) it.milestone
    (if isDecision it.text then "decision".toList else "task".toList)
    ("Tracked in `docs/milestones.md`, ".toList ++ it.milestone ++
      ". Tick the box there and run `python tools/board_sync.py`.".toList)
    (it.owner.map Person.login)

/-- The issue of a line, as it was created. -/
def newIssue (db : UnicodeDb) (it : Item) (n : ℕ) : Issue :=
  { number := n
    title := it.title db
    closed := false
    milestone := some it.milestone
    assignees := (it.owner.map Person.login).toList }

/-- `int(url.rsplit("/", 1)[-1])` -/
def urlNumber (db : UnicodeDb) (url : Text) : ℕ := intOf db (url.rtakeWhile (· != '/'))

/-- The number of a line's issue, which is created for a line without a tag. -/
def ensureIssue (db : UnicodeDb) (answers : Answers) (k : ℕ) (it : Item) (issues : Dict ℕ Issue) :
    Sync (ℕ × Dict ℕ Issue) :=
  match it.number with
  | some n => pure (n, issues)
  | none => do
      let created ← gh answers (some k) (createCall db it)
      let s ← get
      let n := urlNumber db (issueUrl s.world.hub.repo created)
      modify fun s => { s with board := setTag s.board k n }
      save
      pure (n, issues.insert n (newIssue db it n))

/-- The title to set. -/
def editTitle (db : UnicodeDb) (it : Item) (issue : Issue) : Option Text :=
  if issue.title = it.title db then none else some (it.title db)

/-- The milestone to set. -/
def editMilestone (it : Item) (issue : Issue) : Option Text :=
  if issue.milestone = some it.milestone then none else some it.milestone

/-- The person to assign. -/
def editAssignee (it : Item) (issue : Issue) : Option Text :=
  match it.owner with
  | none => none
  | some p => if p.login ∈ issue.assignees then none else some p.login

/-- Title, milestone and assignee made to match the line. -/
def editIssue (db : UnicodeDb) (answers : Answers) (k n : ℕ) (it : Item) (issue : Issue) :
    Sync PUnit :=
  if editTitle db it issue = none ∧ editMilestone it issue = none ∧ editAssignee it issue = none then
    pure ⟨⟩
  else do
    let _ ← gh answers (some k) (.editIssue n (editTitle db it issue) (editMilestone it issue)
      (editAssignee it issue))
    pure ⟨⟩

/-- The issue closed for a ticked line, or the line ticked for a closed issue. -/
def settleState (answers : Answers) (k n : ℕ) (it : Item) (issue : Issue) : Sync (List Report) :=
  if it.checked = true ∧ issue.closed = false then do
    let _ ← gh answers (some k) (.closeIssue n)
    pure []
  else if issue.closed = true ∧ it.checked = false then do
    modify fun s => { s with board := setChecked s.board k }
    save
    pure [.ticked n]
  else pure []

/-- The loop of `sync_issues`. -/
def syncIssue (db : UnicodeDb) (answers : Answers) (acc : Dict ℕ Issue × List Report) (k : ℕ) :
    Sync (Dict ℕ Issue × List Report) := do
  let s ← get
  match s.board.items[k]? with
  | none => pure acc
  | some it => do
      let r ← ensureIssue db answers k it acc.1
      match r.2.get? r.1 with
      | none => throw (.noIssue it.first r.1)
      | some issue => do
          editIssue db answers k r.1 it issue
          let report ← settleState answers k r.1 it issue
          pure (r.2, acc.2 ++ report)

/-- The issues that are open and on no line, by number. -/
def unlisted (items : List Item) (issues : Dict ℕ Issue) : List Report :=
  (issues.entries.mergeSort fun a b => a.1 ≤ b.1).filterMap fun e =>
    if items.any (·.number == some e.1) || e.2.closed then none
    else some (.onNoLine e.1 e.2.title)

/-- `sync_issues` -/
def syncIssues (db : UnicodeDb) (answers : Answers) : Sync (List Report) := do
  let _ ← gh answers none .listIssues
  let s ← get
  let r ← (List.range s.board.items.length).foldlM (syncIssue db answers)
    (.indexBy Issue.number s.world.hub.issues.entries, [])
  let s ← get
  pure (r.2 ++ unlisted s.board.items r.1)

/-! ## Runs -/

/-- `main`, behind `parse`. -/
def sync (db : UnicodeDb) (answers : Answers) (original : Text) : Sync (List Report) := do
  let _ ← gh answers none .repoView
  syncMilestones db answers
  let report ← syncIssues db answers
  let s ← get
  if render s.board = original then pure report
  else do
    save
    pure report

/-- `main`: the world after it, and how it ended. -/
def run (db : UnicodeDb) (answers : Answers) (w : World) : World × Except Stop (List Report) :=
  match parse db (readText w.file) with
  | .error e => (w, .error (.parse e))
  | .ok b =>
      match sync db answers (readText w.file) ⟨w, b, readText w.file⟩ with
      | .ok report s => (s.world, .ok report)
      | .error e s => (s.world, .error e)

/-- The worlds after each of many runs. -/
def worlds (db : UnicodeDb) (answers : Answers) (w : World) : ℕ → World
  | 0 => w
  | i + 1 => (run db answers (worlds db answers w i)).1

end Carwatch.BoardSync
