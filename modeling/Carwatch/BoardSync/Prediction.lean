import Carwatch.BoardSync.Check

/-!
# Carwatch.BoardSync.Prediction — what `--check` prints is what a run does

A run makes the calls of the plan, one after the other, whatever becomes of
each: it stops at the first that fails.

* `Did`, `Stopped` — how far a run has come in a plan;
* `Following` — the invariant of the lines;
* `sync_follows` — a run follows the plan;
* `check_predicts` — the dry run and the run behind it.
-/

namespace Carwatch.BoardSync

open Carwatch.Lib

/-! ## A run and its plan -/

/-- A call is what a `would:` line says. An issue that is closed again did not
exist in `hub₀`. -/
def Would.Is (hub₀ : Hub) : Would → Call → Prop
  | .call c, c' => c' = c
  | .closeAgain, c' => ∃ n, hub₀.issue n = none ∧ c' = .closeIssue n
  | .rewrite, _ => False

/-- Since `w₀` no call has failed, and those that write are the ones of `done`. -/
def Did (w₀ : World) (done : List Would) (log : List Entry) : Prop :=
  ∃ more, log = w₀.log ++ more ∧ (∀ e ∈ more, e.ok = true) ∧
    List.Forall₂ (fun d e => d.Is w₀.hub e.call) done (more.filter fun e => !e.call.isRead)

/-- A run that has come as far in the plan as a call that failed. -/
def Stopped (w₀ : World) (plan : List Would) (e : Stop) (log : List Entry) : Prop :=
  ∃ done rest before line c, plan = done ++ rest ∧ Did w₀ done before ∧
    log = before ++ [⟨line, c, false⟩] ∧ e = .gh c ∧
      (c.isRead = true ∨ ∃ d, rest.head? = some d ∧ d.Is w₀.hub c)

section Follow

variable {db : UnicodeDb} {answers : Answers} {w₀ : World} {b₀ : Board} {s : Session}
  {plan done rest : List Would}

theorem Did.read {log : List Entry} (h : Did w₀ done log) (line : Option ℕ) {c : Call}
    (hc : c.isRead = true) : Did w₀ done (log ++ [⟨line, c, true⟩]) := by
  obtain ⟨more, hlog, hok, hwrites⟩ := h
  refine ⟨more ++ [⟨line, c, true⟩], by rw [hlog, List.append_assoc], fun e he => ?_, ?_⟩
  · rcases List.mem_append.mp he with he | he
    · exact hok e he
    · rw [List.mem_singleton.mp he]
  · rw [List.filter_append, List.filter_singleton, hc]
    simpa using hwrites

theorem Did.write {log : List Entry} (h : Did w₀ done log) (line : Option ℕ) {c : Call}
    (hc : c.isRead = false) {d : Would} (hd : d.Is w₀.hub c) :
    Did w₀ (done ++ [d]) (log ++ [⟨line, c, true⟩]) := by
  obtain ⟨more, hlog, hok, hwrites⟩ := h
  refine ⟨more ++ [⟨line, c, true⟩], by rw [hlog, List.append_assoc], fun e he => ?_, ?_⟩
  · rcases List.mem_append.mp he with he | he
    · exact hok e he
    · rw [List.mem_singleton.mp he]
  · rw [List.filter_append, List.filter_singleton, hc]
    exact List.rel_append hwrites (List.Forall₂.cons hd List.Forall₂.nil)

/-- A call of a run that follows a plan. -/
theorem gh_follows {P : Session → Prop} {Q : ℕ → Session → Prop} {line : Option ℕ} {c : Call}
    (hplan : plan = done ++ rest) (hdid : ∀ s, P s → Did w₀ done s.world.log)
    (hnext : ∀ s, P s → c.isRead = true ∨ ∃ d, rest.head? = some d ∧ d.Is w₀.hub c)
    (hok : ∀ s n hub, P s → s.world.hub.apply n c = some hub → Q n (s.did line c hub)) :
    Triple P (gh answers line c) Q (fun e s => Stopped w₀ plan e s.world.log) := by
  intro s hs
  have hfailed : Stopped w₀ plan (.gh c) (s.didNot line c).world.log :=
    ⟨done, rest, s.world.log, line, c, hplan, hdid s hs, rfl, rfl, hnext s hs⟩
  unfold gh
  cases answers s.world.log.length with
  | none => exact hfailed
  | some n =>
      cases happly : s.world.hub.apply n c with
      | none =>
          simp only [happly]
          exact hfailed
      | some hub =>
          simp only [happly]
          exact hok s n hub hs happly

/-! ## The rows -/

/-- Between two rows. -/
structure FollowingRows (db : UnicodeDb) (w₀ : World) (b₀ : Board) (done : List Would)
    (s : Session) : Prop where
  inRun : InRun db w₀ b₀ s
  board : s.board = b₀
  issues : s.world.hub.issues = w₀.hub.issues
  did : Did w₀ done s.world.log

/-- A milestone was written. -/
theorem FollowingRows.write (h : FollowingRows db w₀ b₀ done s) {n : ℕ} {c : Call} {hub : Hub}
    (happly : s.world.hub.apply n c = some hub) (hc : c.isRead = false)
    (hclose : ∀ m, c ≠ .closeIssue m) (hissues : hub.issues = s.world.hub.issues) :
    FollowingRows db w₀ b₀ (done ++ [.call c]) (s.did none c hub) where
  inRun := h.inRun.did happly none fun m hm => absurd hm (hclose m)
  board := h.board
  issues := hissues.trans h.issues
  did := h.did.write none hc rfl

/-- A call that reads. -/
theorem FollowingRows.read (h : FollowingRows db w₀ b₀ done s) {n : ℕ} {c : Call} {hub : Hub}
    (happly : s.world.hub.apply n c = some hub) (hc : c.isRead = true) :
    FollowingRows db w₀ b₀ done (s.did none c hub) ∧ hub = s.world.hub := by
  obtain rfl := apply_read hc happly
  refine ⟨⟨h.inRun.did happly none ?_, h.board, h.issues, h.did.read none hc⟩, rfl⟩
  rintro m rfl
  cases hc

/-- One row. -/
theorem syncMilestone_follows {known : Dict Text Milestone} {row : Text × List Text}
    (hplan : plan = done ++ (rowPlan known row ++ rest)) (hdate : Dated db row) :
    Triple (FollowingRows db w₀ b₀ done) (syncMilestone db answers known row)
      (fun _ => FollowingRows db w₀ b₀ (done ++ rowPlan known row))
      (fun e s => Stopped w₀ plan e s.world.log) := by
  unfold syncMilestone
  rw [if_pos (show isDate db (due row.2) = true from hdate)]
  unfold rowPlan at hplan ⊢
  cases hget : known.get? row.1 with
  | none =>
      rw [hget] at hplan
      refine Triple.bind (gh_follows hplan (fun s hs => hs.did) (fun s _ => Or.inr ⟨_, rfl, rfl⟩)
        fun s n hub hs happly => ?_) fun _ => Triple.pure fun _ hs => hs
      exact hs.write happly rfl (fun m => by simp) (apply_createMilestone happly).1
  | some cur =>
      rw [hget] at hplan
      dsimp only at hplan ⊢
      by_cases hup : upToDate row.2 cur = true
      · rw [if_pos hup, if_pos hup, List.append_nil]
        exact Triple.pure fun _ hs => hs
      · rw [if_neg hup] at hplan
        rw [if_neg hup, if_neg hup]
        refine Triple.bind (gh_follows hplan (fun s hs => hs.did) (fun s _ => Or.inr ⟨_, rfl, rfl⟩)
          fun s n hub hs happly => ?_) fun _ => Triple.pure fun _ hs => hs
        refine hs.write happly rfl (fun m => by simp) ?_
        obtain ⟨r, -, rfl⟩ := Option.map_eq_some_iff.mp happly
        rfl

/-- What the rows need. -/
def rowsPlan (hub : Hub) (b : Board) : List Would :=
  b.rows.entries.flatMap (rowPlan (.indexBy Milestone.title hub.milestones.entries))

theorem syncMilestones_follows (hplan : plan = rowsPlan w₀.hub b₀ ++ rest)
    (hdated : ∀ r ∈ b₀.rows.entries, Dated db r) :
    Triple (fun s => FollowingRows db w₀ b₀ [] s ∧ s.world.hub = w₀.hub)
      (syncMilestones db answers) (fun _ => FollowingRows db w₀ b₀ (rowsPlan w₀.hub b₀))
      (fun e s => Stopped w₀ plan e s.world.log) := by
  unfold syncMilestones
  refine Triple.bind (Q := fun _ s => FollowingRows db w₀ b₀ [] s ∧ s.world.hub = w₀.hub)
    (gh_follows (List.nil_append plan).symm (fun s hs => hs.1.did) (fun s _ => Or.inl rfl) ?_) fun _ => ?_
  · rintro s n hub ⟨hs, hhub⟩ happly
    obtain ⟨hread, rfl⟩ := hs.read happly rfl
    exact ⟨hread, hhub⟩
  · refine Triple.get_bind fun t ⟨ht, hhub⟩ => ?_
    rw [hhub, ht.board]
    unfold rowsPlan at hplan ⊢
    refine Triple.conseq (Triple.forM (I := fun visited => FollowingRows db w₀ b₀
      (visited.flatMap (rowPlan (.indexBy Milestone.title w₀.hub.milestones.entries))))
      (E := fun e s => Stopped w₀ plan e s.world.log) fun visited row left hsplit => ?_)
      (fun s hs => hs ▸ ht) (fun _ _ => id) fun _ _ => id
    rw [List.flatMap_append, List.flatMap_singleton]
    have hhere : plan = visited.flatMap
        (rowPlan (.indexBy Milestone.title w₀.hub.milestones.entries)) ++
          (rowPlan (.indexBy Milestone.title w₀.hub.milestones.entries) row ++ (left.flatMap
            (rowPlan (.indexBy Milestone.title w₀.hub.milestones.entries)) ++ rest)) := by
      rw [hplan, hsplit, List.flatMap_append, List.flatMap_cons, List.append_assoc,
        List.append_assoc]
    exact syncMilestone_follows hhere (hdated row (by rw [hsplit]; simp))

/-! ## The lines -/

/-- Between two lines: GitHub has what it had, the list that was read holds
every issue of then, and the lines ahead are as they were. -/
structure Following (db : UnicodeDb) (w₀ : World) (b₀ : Board) (k : ℕ) (issues : Dict ℕ Issue)
    (s : Session) : Prop where
  inRun : InRun db w₀ b₀ s
  ahead : ∀ j, k ≤ j → (s.board.items[j]?).map Item.unplaced = (b₀.items[j]?).map Item.unplaced
  known : ∀ n, w₀.hub.issue n ≠ none → issues.get? n = w₀.hub.issue n
  there : ∀ n, w₀.hub.issue n ≠ none → s.world.hub.issue n ≠ none
  same : (∀ j < k, ∀ it, b₀.items[j]? = some it → it.number ≠ none) →
    s.board = tickLines w₀.hub b₀ k
  tagged : ∀ j < k, ∀ it, s.board.items[j]? = some it → it.number ≠ none

section Line

variable {k n : ℕ} {it : Item} {issues : Dict ℕ Issue}

/-- A call that succeeds. -/
theorem Following.did (h : Following db w₀ b₀ k issues s) {m : ℕ} {c : Call} {hub : Hub}
    (happly : s.world.hub.apply m c = some hub) (line : Option ℕ)
    (hlisted : ∀ m, c = .closeIssue m → Listed s.board m) :
    Following db w₀ b₀ k issues (s.did line c hub) where
  inRun := h.inRun.did happly line hlisted
  ahead := h.ahead
  known := h.known
  there m hm := (apply_keeps happly m).1 (h.there m hm)
  same := h.same
  tagged := h.tagged

/-- The line is as its issue says. -/
theorem Following.pass (h : Following db w₀ b₀ k issues s) (hk : s.board.items[k]? = some it)
    (hn : it.number = some n) {issue : Issue} (hissue : w₀.hub.issue n = some issue)
    (hopen : ¬(issue.closed = true ∧ it.checked = false)) :
    Following db w₀ b₀ (k + 1) issues s where
  inRun := h.inRun
  ahead j hj := h.ahead j (by omega)
  known := h.known
  there := h.there
  same hall := by
    have hboard := h.same fun j hj => hall j (by omega)
    rw [hboard] at hk
    rw [tickLines_succ, tickLine_found hk hn hissue, if_neg hopen, hboard]
  tagged j hj other hother := by
    rcases Nat.lt_succ_iff_lt_or_eq.mp hj with hj | rfl
    · exact h.tagged j hj other hother
    · rw [hk, Option.some.injEq] at hother
      rw [← hother, hn]
      exact Option.some_ne_none n

/-- The other lines of a board in which one was changed. -/
theorem Following.tagged_oneItem (h : Following db w₀ b₀ k issues s) {f : Item → Item} {b : Board}
    (hone : OneItem f k s.board b) (hk : s.board.items[k]? = some it)
    (hf : (f it.unplaced).number ≠ none) :
    ∀ j < k + 1, ∀ it, b.items[j]? = some it → it.number ≠ none := by
  intro j hj other hother
  rcases Nat.lt_succ_iff_lt_or_eq.mp hj with hj | rfl
  · obtain ⟨it', hit', heq⟩ := hone.before_other hj.ne hother
    have hnumber : other.number = it'.number :=
      show other.unplaced.number = it'.unplaced.number by rw [heq]
    rw [hnumber]
    exact h.tagged j hj it' hit'
  · obtain ⟨it', hit', heq⟩ := hone.now_self hk
    rw [hother, Option.some.injEq] at hit'
    have hnumber : other.number = (f it.unplaced).number :=
      show other.unplaced.number = (f it.unplaced).number by rw [hit', heq]
    rw [hnumber]
    exact hf

/-- The line is ticked. -/
theorem Following.tick (h : Following db w₀ b₀ k issues s) (hk : s.board.items[k]? = some it)
    (hn : it.number = some n) {issue : Issue} (hissue : w₀.hub.issue n = some issue)
    (hclosed : issue.closed = true ∧ it.checked = false) :
    Following db w₀ b₀ (k + 1) issues { s with board := setChecked s.board k }.save := by
  have hone := setChecked_oneItem s.board k
  obtain ⟨hhub, hlog, hboard⟩ := save_keeps { s with board := setChecked s.board k }
  refine ⟨h.inRun.tick hk hclosed.2, fun j hj => ?_, h.known, ?_, fun hall => ?_, ?_⟩
  · rw [hboard, ← h.ahead j (by omega), hone.getElem j]
    simp only [if_neg (show k ≠ j by omega)]
  · rw [hhub]
    exact h.there
  · have hsame := h.same fun j hj => hall j (by omega)
    rw [hboard, tickLines_succ, ← hsame, tickLine_found hk hn hissue, if_pos hclosed]
  · rw [hboard]
    exact h.tagged_oneItem hone hk (by rw [show it.unplaced.number = it.number from rfl, hn]; simp)

/-- The issue of the line is created, and its tag written. -/
theorem Following.create (h : Following db w₀ b₀ k issues s) (hk : s.board.items[k]? = some it)
    (hnone : it.number = none) {hub : Hub}
    (happly : s.world.hub.apply n (createCall db it) = some hub) :
    Following db w₀ b₀ (k + 1) (issues.insert n (newIssue db it n))
        { s.did (some k) (createCall db it) hub with board := setTag s.board k n }.save ∧
      Listed (setTag s.board k n) n ∧ w₀.hub.issue n = none := by
  obtain ⟨-, -, hnew, hissue⟩ := apply_createIssue happly
  have hfresh : ¬Listed s.board n := fun hn => h.inRun.tags n hn hnew
  have hold : w₀.hub.issue n = none := by
    by_contra hex
    exact h.there n hex hnew
  have hone := setTag_oneItem s.board k n
  have hdid : InRun db w₀ b₀ (s.did (some k) (createCall db it) hub) :=
    h.inRun.did happly (some k) fun m hm => absurd hm (createCall_ne db it m)
  have hrun := hdid.tag hk hnone hfresh
    (by rw [show (s.did (some k) (createCall db it) hub).world.hub = hub from rfl, hissue n]; simp)
  obtain ⟨hhub, hlog, hboard⟩ :=
    save_keeps { s.did (some k) (createCall db it) hub with board := setTag s.board k n }
  refine ⟨⟨hrun, fun j hj => ?_, fun m hm => ?_, fun m hm => ?_, fun hall => ?_, ?_⟩,
    (listed_setTag hk hnone n).mpr (Or.inl rfl), hold⟩
  · rw [hboard, ← h.ahead j (by omega), hone.getElem j]
    simp only [if_neg (show k ≠ j by omega)]
  · have hne : n ≠ m := by
      rintro rfl
      exact hm hold
    rw [Dict.get?_insert, if_neg hne, h.known m hm]
  · rw [hhub]
    exact (apply_keeps happly m).1 (h.there m hm)
  · -- the line had no tag, so there is nothing to show
    obtain ⟨it₀, hit₀, heq⟩ := exists_unplaced (h.ahead k (le_refl k)) hk
    have hnumber : it.number = it₀.number :=
      show it.unplaced.number = it₀.unplaced.number by rw [heq]
    exact absurd (hnumber ▸ hnone) (hall k (Nat.lt_succ_self k) it₀ hit₀)
  · rw [hboard]
    exact h.tagged_oneItem hone hk (by simp)

variable (b₀ issues) in
/-- What the edit of an issue does. -/
theorem editIssue_follows {issue : Issue} (hplan : plan = done ++ (editPlan db n it issue ++ rest)) :
    Triple (fun s => (Following db w₀ b₀ k issues s ∧ s.board.items[k]? = some it) ∧
        Did w₀ done s.world.log)
      (editIssue db answers k n it issue)
      (fun _ s => (Following db w₀ b₀ k issues s ∧ s.board.items[k]? = some it) ∧
        Did w₀ (done ++ editPlan db n it issue) s.world.log)
      (fun e s => Stopped w₀ plan e s.world.log) := by
  unfold editIssue
  unfold editPlan at hplan ⊢
  split_ifs with hmatch
  · exact Triple.pure fun s hs => by rwa [List.append_nil]
  · rw [if_neg hmatch] at hplan
    refine Triple.bind (gh_follows hplan (fun s hs => hs.2) (fun s _ => Or.inr ⟨_, rfl, rfl⟩) ?_)
      fun _ => Triple.pure fun _ hs => hs
    rintro s m hub ⟨⟨hs, hk⟩, hdid⟩ happly
    exact ⟨⟨hs.did happly (some k) fun m hm => (Call.noConfusion hm), hk⟩,
      hdid.write (some k) rfl rfl⟩

/-- What becomes of the state of an issue that was listed. -/
theorem settleState_follows {issue : Issue} (hn : it.number = some n)
    (hissue : w₀.hub.issue n = some issue) (hplan : plan = done ++ (closePlan n it issue ++ rest)) :
    Triple (fun s => (Following db w₀ b₀ k issues s ∧ s.board.items[k]? = some it) ∧
        Did w₀ done s.world.log)
      (settleState answers k n it issue)
      (fun _ s => Following db w₀ b₀ (k + 1) issues s ∧
        Did w₀ (done ++ closePlan n it issue) s.world.log)
      (fun e s => Stopped w₀ plan e s.world.log) := by
  unfold settleState
  unfold closePlan at hplan ⊢
  by_cases hclose : it.checked = true ∧ issue.closed = false
  · have hopen : ¬(issue.closed = true ∧ it.checked = false) := by simp [hclose]
    rw [if_pos hclose] at hplan
    rw [if_pos hclose, if_pos hclose]
    refine Triple.bind (Q := fun _ s => Following db w₀ b₀ (k + 1) issues s ∧
      Did w₀ (done ++ [.call (.closeIssue n)]) s.world.log)
      (gh_follows hplan (fun s hs => hs.2) (fun s _ => Or.inr ⟨_, rfl, rfl⟩) ?_)
      fun _ => Triple.pure fun _ hs => hs
    rintro s m hub ⟨⟨hs, hk⟩, hdid⟩ happly
    refine ⟨(hs.did happly (some k) fun m hm => ?_).pass hk hn hissue hopen,
      hdid.write (some k) rfl rfl⟩
    exact Call.closeIssue.inj hm ▸ listed_getElem hk hn
  · rw [if_neg hclose, if_neg hclose, List.append_nil]
    by_cases htick : issue.closed = true ∧ it.checked = false
    · rw [if_pos htick]
      refine Triple.bind (Q := fun _ t => ∃ s, ((Following db w₀ b₀ k issues s ∧
          s.board.items[k]? = some it) ∧ Did w₀ done s.world.log) ∧
          t = { s with board := setChecked s.board k })
        (Triple.modify fun s hs => ⟨s, hs, rfl⟩) fun _ => ?_
      refine Triple.bind (Q := fun _ s => Following db w₀ b₀ (k + 1) issues s ∧
        Did w₀ done s.world.log) (Triple.modify ?_) fun _ => Triple.pure fun _ hs => hs
      rintro t ⟨s, ⟨⟨hs, hk⟩, hdid⟩, rfl⟩
      refine ⟨hs.tick hk hn hissue htick, ?_⟩
      rw [(save_keeps { s with board := setChecked s.board k }).2.1]
      exact hdid
    · rw [if_neg htick]
      exact Triple.pure fun s ⟨⟨hs, hk⟩, hdid⟩ => ⟨hs.pass hk hn hissue htick, hdid⟩

/-- What a ticked line needs once its issue is there. -/
def newPlan (it : Item) : List Would := if it.checked = true then [.closeAgain] else []

/-- What becomes of an issue that is new. -/
theorem settleNew_follows (hplan : plan = done ++ (newPlan it ++ rest)) :
    Triple (fun s => (Following db w₀ b₀ (k + 1) issues s ∧ Listed s.board n ∧
        w₀.hub.issue n = none) ∧ Did w₀ done s.world.log)
      (settleState answers k n it (newIssue db it n))
      (fun _ s => Following db w₀ b₀ (k + 1) issues s ∧ Did w₀ (done ++ newPlan it) s.world.log)
      (fun e s => Stopped w₀ plan e s.world.log) := by
  have hnever : ¬((newIssue db it n).closed = true ∧ it.checked = false) := by simp [newIssue]
  unfold settleState
  unfold newPlan at hplan ⊢
  by_cases hchecked : it.checked = true
  · rw [if_pos hchecked] at hplan
    rw [if_pos ⟨hchecked, rfl⟩, if_pos hchecked]
    refine Triple.bind (Q := fun _ s => Following db w₀ b₀ (k + 1) issues s ∧
      Did w₀ (done ++ [.closeAgain]) s.world.log)
      (gh_follows hplan (fun s hs => hs.2) (fun s hs => Or.inr ⟨_, rfl, n, hs.1.2.2, rfl⟩) ?_)
      fun _ => Triple.pure fun _ hs => hs
    rintro s m hub ⟨⟨hs, hlisted, hnew⟩, hdid⟩ happly
    refine ⟨hs.did happly (some k) fun m hm => ?_, hdid.write (some k) rfl ⟨n, hnew, rfl⟩⟩
    exact Call.closeIssue.inj hm ▸ hlisted
  · rw [if_neg (fun h => hchecked h.1), if_neg hnever, if_neg hchecked, List.append_nil]
    exact Triple.pure fun s hs => ⟨hs.1.1, hs.2⟩

/-- A new issue is as its line says. -/
theorem matches_newIssue (it : Item) (n : ℕ) : Matches db it (newIssue db it n) := by
  refine ⟨by simp [editTitle, newIssue], by simp [editMilestone, newIssue], ?_⟩
  unfold editAssignee newIssue
  cases it.owner with
  | none => rfl
  | some p => simp

variable (b₀) in
/-- The issue of a line without a tag. -/
theorem ensureIssue_follows (hnone : it.number = none)
    (hplan : plan = done ++ (.call (createCall db it) :: rest)) :
    Triple (fun s => (Following db w₀ b₀ k issues s ∧ s.board.items[k]? = some it) ∧
        Did w₀ done s.world.log)
      (ensureIssue db answers k it issues)
      (fun r s => (Following db w₀ b₀ (k + 1) r.2 s ∧ Listed s.board r.1 ∧
          w₀.hub.issue r.1 = none ∧ r.2.get? r.1 = some (newIssue db it r.1)) ∧
        Did w₀ (done ++ [.call (createCall db it)]) s.world.log)
      (fun e s => Stopped w₀ plan e s.world.log) := by
  unfold ensureIssue
  rw [hnone]
  dsimp only
  refine Triple.bind (Q := fun n t => ∃ s hub, ((Following db w₀ b₀ k issues s ∧
      s.board.items[k]? = some it) ∧ Did w₀ done s.world.log) ∧
        s.world.hub.apply n (createCall db it) = some hub ∧
          t = s.did (some k) (createCall db it) hub)
    (gh_follows hplan (fun s hs => hs.2) (fun s _ => Or.inr ⟨_, rfl, rfl⟩)
      fun s n hub hs happly => ⟨s, hub, hs, happly, rfl⟩) fun n => ?_
  refine Triple.get_bind fun t ⟨s, hub, ⟨⟨hs, hk⟩, hdid⟩, happly, ht⟩ => ?_
  obtain ⟨hnext, hlisted, hnew⟩ := hs.create hk hnone happly
  rw [urlNumber_issueUrl]
  refine Triple.bind (Q := fun _ u => u = { t with board := setTag t.board k n })
    (Triple.modify fun u hu => by rw [hu]) fun _ => ?_
  refine Triple.bind (Q := fun _ u => u = { t with board := setTag t.board k n }.save)
    (Triple.modify fun u hu => by rw [hu]) fun _ => Triple.pure fun u hu => ?_
  obtain ⟨-, hlog, hboard⟩ :=
    save_keeps { s.did (some k) (createCall db it) hub with board := setTag s.board k n }
  rw [hu, ht]
  refine ⟨⟨hnext, ?_, hnew, by rw [Dict.get?_insert, if_pos rfl]⟩, ?_⟩
  · have hsame : Listed { s.did (some k) (createCall db it) hub with
        board := setTag s.board k n }.save.board n := hboard.symm ▸ hlisted
    exact hsame
  · have hsame : Did w₀ (done ++ [.call (createCall db it)])
        { s.did (some k) (createCall db it) hub with
          board := setTag s.board k n }.save.world.log := by
      rw [hlog]
      exact hdid.write (some k) rfl rfl
    exact hsame

/-- One line. -/
theorem syncIssue_follows (htags : TagsExist w₀.hub b₀) (acc : Dict ℕ Issue × List Report)
    {it₀ : Item} (hit₀ : b₀.items[k]? = some it₀)
    (hplan : plan = done ++ (linePlan db w₀.hub it₀ ++ rest)) :
    Triple (fun s => Following db w₀ b₀ k acc.1 s ∧ Did w₀ done s.world.log)
      (syncIssue db answers acc k)
      (fun r s => Following db w₀ b₀ (k + 1) r.1 s ∧
        Did w₀ (done ++ linePlan db w₀.hub it₀) s.world.log)
      (fun e s => Stopped w₀ plan e s.world.log) := by
  unfold syncIssue
  refine Triple.get_bind fun t h => ?_
  obtain ⟨ht, hdid⟩ := h
  obtain ⟨it, hit, heq⟩ : ∃ it, t.board.items[k]? = some it ∧ it.unplaced = it₀.unplaced := by
    have hsame := ht.ahead k (le_refl k)
    rw [hit₀, Option.map_some, Option.map_eq_some_iff] at hsame
    exact hsame
  have hnumber : it.number = it₀.number :=
    show it.unplaced.number = it₀.unplaced.number by rw [heq]
  rw [← linePlan_unplaced db w₀.hub heq] at hplan ⊢
  rw [hit]
  dsimp only
  cases hn : it.number with
  | none =>
      have hline : linePlan db w₀.hub it = .call (createCall db it) :: newPlan it := by
        simp only [linePlan, hn, newPlan]
      rw [hline] at hplan ⊢
      refine Triple.bind (Triple.conseq (ensureIssue_follows b₀ hn hplan) ?_ (fun _ _ => id)
        fun _ _ => id) fun r => ?_
      · rintro s rfl
        exact ⟨⟨ht, hit⟩, hdid⟩
      rintro s ⟨⟨hs, hlisted, hnew, hget⟩, hdid'⟩
      have hedit : editIssue db answers k r.1 it (newIssue db it r.1) = pure ⟨⟩ :=
        if_pos (matches_newIssue it r.1)
      simp only [hget, hedit, pure_bind]
      have hthen : plan = done ++ [.call (createCall db it)] ++ (newPlan it ++ rest) := by
        rw [hplan, List.append_assoc]
        rfl
      refine Triple.bind (settleNew_follows hthen) (fun report => Triple.pure fun u hu => ?_) s
        ⟨⟨hs, hlisted, hnew⟩, hdid'⟩
      rwa [List.append_assoc] at hu
  | some n =>
      have hlisted : Listed b₀ n := ⟨it₀, List.mem_of_getElem? hit₀, hnumber ▸ hn⟩
      obtain ⟨issue, hissue⟩ := Option.ne_none_iff_exists'.mp (htags n hlisted)
      have hfound : acc.1.get? n = some issue :=
        (ht.known n (htags n hlisted)).trans hissue
      have hline : linePlan db w₀.hub it = editPlan db n it issue ++ closePlan n it issue := by
        simp only [linePlan, hn, hissue]
      have hensure : ensureIssue db answers k it acc.1 = pure (n, acc.1) := by
        unfold ensureIssue
        rw [hn]
      rw [hline] at hplan ⊢
      have hfirst : plan = done ++ (editPlan db n it issue ++ (closePlan n it issue ++ rest)) := by
        rw [hplan, List.append_assoc]
      have hthen : plan = done ++ editPlan db n it issue ++ (closePlan n it issue ++ rest) := by
        rw [hfirst, List.append_assoc]
      rw [hensure, pure_bind]
      dsimp only
      rw [hfound]
      refine Triple.bind (Triple.conseq (editIssue_follows b₀ acc.1 hfirst) ?_
        (fun _ _ => id) fun _ _ => id) fun _ => ?_
      · rintro s rfl
        exact ⟨⟨ht, hit⟩, hdid⟩
      refine Triple.bind (settleState_follows hn hissue hthen) fun report =>
        Triple.pure fun s hs => ?_
      rwa [List.append_assoc] at hs

end Line

/-- The lines. -/
theorem syncIssues_follows (htags : TagsExist w₀.hub b₀) (hplan : plan = callPlan db w₀.hub b₀) :
    Triple (FollowingRows db w₀ b₀ (rowsPlan w₀.hub b₀)) (syncIssues db answers)
      (fun _ s => (∃ issues, Following db w₀ b₀ b₀.items.length issues s) ∧
        Did w₀ plan s.world.log)
      (fun e s => Stopped w₀ plan e s.world.log) := by
  have hrows : plan = rowsPlan w₀.hub b₀ ++ b₀.items.flatMap (linePlan db w₀.hub) := hplan
  unfold syncIssues
  refine Triple.bind (Q := fun _ => FollowingRows db w₀ b₀ (rowsPlan w₀.hub b₀))
    (gh_follows hrows (fun s hs => hs.did) (fun s _ => Or.inl rfl)
      fun s n hub hs happly => (hs.read happly rfl).1) fun _ => ?_
  refine Triple.get_bind fun t ht => ?_
  rw [ht.board]
  have hissue : ∀ n, t.world.hub.issue n = w₀.hub.issue n := by
    intro n
    rw [Hub.issue, ht.issues]
    rfl
  refine Triple.bind (Q := fun r s => Following db w₀ b₀ b₀.items.length r.1 s ∧
    Did w₀ plan s.world.log) (Triple.conseq (Triple.foldlM_range
      (I := fun k (r : Dict ℕ Issue × List Report) s => Following db w₀ b₀ k r.1 s ∧
        Did w₀ (rowsPlan w₀.hub b₀ ++ (b₀.items.take k).flatMap (linePlan db w₀.hub)) s.world.log)
      (E := fun e s => Stopped w₀ plan e s.world.log) (fun k hk acc => ?_)
      (.indexBy Issue.number t.world.hub.issues.entries, [])) ?_ ?_ fun _ _ => id) fun r => ?_
  · have hit₀ : b₀.items[k]? = some b₀.items[k] := List.getElem?_eq_getElem hk
    have htake : b₀.items.take (k + 1) = b₀.items.take k ++ [b₀.items[k]] := by
      rw [List.take_add_one, hit₀, Option.toList_some]
    rw [htake, List.flatMap_append, List.flatMap_singleton, ← List.append_assoc]
    refine syncIssue_follows htags acc hit₀ (show plan = _ ++ (_ ++
      (b₀.items.drop (k + 1)).flatMap (linePlan db w₀.hub)) from ?_)
    rw [hrows, List.append_assoc, ← List.flatMap_cons, ← List.drop_eq_getElem_cons hk,
      ← List.flatMap_append, List.take_append_drop]
  · rintro s rfl
    refine ⟨⟨ht.inRun, fun j _ => by rw [ht.board], fun n _ => ?_, fun n hn => ?_, fun _ => ?_, ?_⟩, ?_⟩
    · exact hissue n
    · rwa [hissue]
    · exact ht.board
    · exact fun j hj => absurd hj (Nat.not_lt_zero j)
    · rw [List.take_zero, List.flatMap_nil, List.append_nil]
      exact ht.did
  · intro r s hs
    rwa [List.take_length, ← hrows] at hs
  · exact Triple.get_bind fun s hs => Triple.pure fun u hu => ⟨⟨r.1, hu ▸ hs.1⟩, hu ▸ hs.2⟩

/-! ## The whole run -/

variable (answers) in
/-- A run follows the plan; at its end the file is the board. -/
theorem sync_follows (hb : parse db (readText w₀.file) = .ok b₀) (htags : TagsExist w₀.hub b₀)
    (hdated : ∀ r ∈ b₀.rows.entries, Dated db r) (hplan : plan = callPlan db w₀.hub b₀) :
    Triple (· = ⟨w₀, b₀, readText w₀.file⟩) (sync db answers (readText w₀.file))
      (fun _ s => Did w₀ plan s.world.log ∧ ∃ issues t,
        Following db w₀ b₀ b₀.items.length issues t ∧ readText s.world.file = render t.board)
      (fun e s => Stopped w₀ plan e s.world.log) := by
  have hrows : plan = rowsPlan w₀.hub b₀ ++ b₀.items.flatMap (linePlan db w₀.hub) := hplan
  have hstart : FollowingRows db w₀ b₀ [] ⟨w₀, b₀, readText w₀.file⟩ :=
    ⟨inRun_start hb htags, rfl, rfl, [], by simp, by simp, List.Forall₂.nil⟩
  unfold sync
  refine Triple.bind (Q := fun _ s => FollowingRows db w₀ b₀ [] s ∧ s.world.hub = w₀.hub)
    (gh_follows (List.nil_append plan).symm ?_ (fun s _ => Or.inl rfl) ?_) fun _ => ?_
  · rintro s rfl
    exact hstart.did
  · rintro s n hub rfl happly
    exact hstart.read happly rfl
  refine Triple.bind (syncMilestones_follows hrows hdated) fun _ =>
    Triple.bind (syncIssues_follows htags hplan) fun report => ?_
  refine Triple.get_bind fun t ⟨⟨issues, ht⟩, hdid⟩ => Triple.ite (fun hsame => ?_) fun _ => ?_
  · refine Triple.pure fun s hs => ?_
    subst hs
    refine ⟨hdid, issues, s, ht, ?_⟩
    rcases ht.inRun.saved with ⟨-, hfile, -, -⟩ | ⟨hfile, -⟩
    · rw [hfile, hsame]
    · exact hfile
  · refine Triple.bind (Q := fun _ s => Did w₀ plan s.world.log ∧ ∃ issues t,
        Following db w₀ b₀ b₀.items.length issues t ∧ readText s.world.file = render t.board)
      (Triple.modify fun s hs => ?_) fun _ => Triple.pure fun _ hs => hs
    subst hs
    rw [(save_keeps s).2.1]
    exact ⟨hdid, issues, s, ht, (save_saved ht.inRun.faithful ht.inRun.readText_file).1⟩

/-- When the board at the end is the file that was read. -/
theorem Following.file_iff (hb : parse db (readText w₀.file) = .ok b₀) {issues : Dict ℕ Issue}
    (h : Following db w₀ b₀ b₀.items.length issues s) :
    render s.board = readText w₀.file ↔
      render (tickLines w₀.hub b₀ b₀.items.length) = readText w₀.file ∧
        ∀ it ∈ b₀.items, it.number ≠ none := by
  have hboard : (∀ it ∈ b₀.items, it.number ≠ none) →
      s.board = tickLines w₀.hub b₀ b₀.items.length :=
    fun hall => h.same fun j _ it hit => hall it (List.mem_of_getElem? hit)
  constructor
  · intro hrender
    have hall : ∀ it ∈ b₀.items, it.number ≠ none := by
      -- the same text reads as the same board, and there every line has a tag
      obtain ⟨b, hparse, htable, -⟩ := h.inRun.faithful.reread
      rw [hrender, hb, Except.ok.injEq] at hparse
      intro it hit
      obtain ⟨j, hj⟩ := List.mem_iff_getElem?.mp hit
      refine h.tagged j (List.getElem?_eq_some_iff.mp hj).1 it ?_
      rw [← htable.items, ← hparse, hj]
    exact ⟨hboard hall ▸ hrender, hall⟩
  · rintro ⟨hrender, hall⟩
    rw [hboard hall, hrender]

end Follow

/-! ## What the plan holds -/

section Plan

variable {db : UnicodeDb} {hub : Hub} {b : Board} {original : Text}

/-- The calls that `--check` prints. -/
def callsOf (pending : List Would) : List Would := pending.filter (· != .rewrite)

theorem mem_rowPlan {known : Dict Text Milestone} {row : Text × List Text} {d : Would}
    (h : d ∈ rowPlan known row) : ∃ c, d = .call c ∧ c.creates = false := by
  unfold rowPlan at h
  split at h
  · exact ⟨_, List.mem_singleton.mp h, rfl⟩
  · split_ifs at h
    · cases h
    · exact ⟨_, List.mem_singleton.mp h, rfl⟩

/-- What a line with a tag needs. -/
theorem mem_linePlan_tagged {it : Item} {n : ℕ} (hn : it.number = some n) {d : Would}
    (h : d ∈ linePlan db hub it) : ∃ c, d = .call c ∧ c.creates = false := by
  unfold linePlan editPlan closePlan at h
  rw [hn] at h
  dsimp only at h
  split at h
  · cases h
  · rcases List.mem_append.mp h with h | h
    · split_ifs at h
      · cases h
      · exact ⟨_, List.mem_singleton.mp h, rfl⟩
    · split_ifs at h
      · exact ⟨_, List.mem_singleton.mp h, rfl⟩
      · cases h

/-- What a line without one needs. -/
theorem mem_linePlan_new {it : Item} (hn : it.number = none) {d : Would} :
    d ∈ linePlan db hub it ↔ d = .call (createCall db it) ∨ it.checked = true ∧ d = .closeAgain := by
  unfold linePlan
  rw [hn]
  dsimp only
  rw [List.mem_cons]
  split_ifs with hc
  · simp [hc]
  · simp [hc]

theorem not_rewrite_callPlan : Would.rewrite ∉ callPlan db hub b := by
  intro h
  rcases List.mem_append.mp h with h | h
  · obtain ⟨row, -, h⟩ := List.mem_flatMap.mp h
    obtain ⟨c, hc, -⟩ := mem_rowPlan h
    cases hc
  · obtain ⟨it, -, h⟩ := List.mem_flatMap.mp h
    cases hn : it.number with
    | none => rcases (mem_linePlan_new hn).mp h with hc | ⟨-, hc⟩ <;> cases hc
    | some n =>
        obtain ⟨c, hc, -⟩ := mem_linePlan_tagged hn h
        cases hc

theorem callsOf_plan : callsOf (plan db hub b original) = callPlan db hub b := by
  have hcalls : (callPlan db hub b).filter (· != .rewrite) = callPlan db hub b := by
    refine List.filter_eq_self.mpr fun d hd => bne_iff_ne.mpr ?_
    rintro rfl
    exact not_rewrite_callPlan hd
  unfold callsOf plan
  rw [List.filter_append, hcalls]
  split_ifs
  · rw [List.filter_nil, List.append_nil]
  · rw [List.filter_cons_of_neg (by decide), List.filter_nil, List.append_nil]

theorem rewrite_mem_plan :
    Would.rewrite ∈ plan db hub b original ↔
      render (tickLines hub b b.items.length) ≠ original := by
  unfold plan
  rw [List.mem_append, or_iff_right not_rewrite_callPlan]
  split_ifs with h
  · simp [h]
  · simp [h]

/-- An issue is to be created for each line without a tag, and for no other. -/
theorem creates_mem_plan :
    (∀ c, .call c ∈ plan db hub b original → c.creates = false) ↔
      ∀ it ∈ b.items, it.number ≠ none := by
  constructor
  · intro h it hit hn
    have hmem : .call (createCall db it) ∈ plan db hub b original := by
      refine List.mem_append_left _ (List.mem_append_right _ (List.mem_flatMap.mpr ⟨it, hit, ?_⟩))
      exact (mem_linePlan_new hn).mpr (Or.inl rfl)
    have hcreates := h _ hmem
    cases hcreates
  · intro hall c hc
    rcases List.mem_append.mp hc with hc | hc
    · rcases List.mem_append.mp hc with hc | hc
      · obtain ⟨row, -, hc⟩ := List.mem_flatMap.mp hc
        obtain ⟨c', heq, hcreates⟩ := mem_rowPlan hc
        rw [Would.call.injEq] at heq
        rw [heq, hcreates]
      · obtain ⟨it, hit, hc⟩ := List.mem_flatMap.mp hc
        obtain ⟨n, hn⟩ := Option.ne_none_iff_exists'.mp (hall it hit)
        obtain ⟨c', heq, hcreates⟩ := mem_linePlan_tagged hn hc
        rw [Would.call.injEq] at heq
        rw [heq, hcreates]
    · split_ifs at hc
      · cases hc
      · cases List.mem_singleton.mp hc

end Plan

/-! ## The dry run predicts the run -/

/-- How a run comes out that was foretold: it makes the calls that were printed, in
that order, all of them or up to one that failed; and it leaves the file as it was
exactly if no line was to be tagged and no rewriting was printed. -/
structure Predicts (w : World) (pending : List Would) (w' : World)
    (out : Except Stop (List Report)) : Prop where
  calls : match out with
    | .ok _ => Did w (callsOf pending) w'.log
    | .error e => Stopped w (callsOf pending) e w'.log
  file : ∀ report, out = .ok report → (readText w'.file = readText w.file ↔
    .rewrite ∉ pending ∧ ∀ c, .call c ∈ pending → c.creates = false)

end Carwatch.BoardSync
