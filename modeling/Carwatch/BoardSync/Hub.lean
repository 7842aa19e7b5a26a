import Carwatch.Lib.Dict
import Carwatch.BoardSync.Checklist

/-!
# Carwatch.BoardSync.Hub — GitHub, as the calls of `gh` see it

* `Milestone`, `Issue` — what the two lists show of them;
* `Hub` — all milestones and issues, each with a number of its own;
* `Call` — the calls the script makes, and `Hub.apply` what one of them does.

A call can fail for any reason, and then it has changed nothing; which ones do
is not up to the script. `Hub.apply` refuses only what GitHub cannot do.
-/

namespace Carwatch.BoardSync

open Carwatch.Lib

/-! ## What GitHub holds -/

/-- A milestone. -/
structure Milestone where
  number : ℕ
  title : Text
  dueOn : Option Text
  description : Option Text
deriving DecidableEq

/-- An issue, with the fields that `issue list` is asked for. -/
structure Issue where
  number : ℕ
  title : Text
  closed : Bool
  milestone : Option Text
  assignees : List Text
deriving DecidableEq

/-- Things in the order in which GitHub lists them, each with its number. -/
structure Register (α : Type) (number : α → ℕ) where
  entries : List α
  nodup : (entries.map number).Nodup

namespace Register

variable {α : Type} {number : α → ℕ}

/-- One more entry, if its number is free. -/
def add (r : Register α number) (a : α) : Option (Register α number) :=
  if h : number a ∈ r.entries.map number then none
  else some
    { entries := r.entries ++ [a]
      nodup := by
        rw [List.map_append, List.map_singleton]
        exact List.nodup_append.mpr ⟨r.nodup, List.nodup_singleton _, by
          intro x hx y hy hxy
          rw [List.mem_singleton.mp hy] at hxy
          exact h (hxy ▸ hx)⟩ }

/-- A change of one entry, which keeps its number. -/
structure Change (α : Type) (number : α → ℕ) where
  apply : α → α
  keeps : ∀ a, number (apply a) = number a

/-- The change at the entry of one number alone. -/
def Change.one (f : Change α number) (n : ℕ) (a : α) : α := if number a = n then f.apply a else a

theorem Change.one_number (f : Change α number) (n : ℕ) (a : α) : number (f.one n a) = number a := by
  unfold Change.one
  split_ifs
  · exact f.keeps a
  · rfl

/-- The entry with the number changed, if there is one. -/
def change (r : Register α number) (n : ℕ) (f : Change α number) : Option (Register α number) :=
  if n ∈ r.entries.map number then
    some
      { entries := r.entries.map (f.one n)
        nodup := by
          have hsame : number ∘ f.one n = number := funext (f.one_number n)
          rw [List.map_map, hsame]
          exact r.nodup }
  else none

end Register

/-- GitHub. -/
structure Hub where
  repo : Text
  milestones : Register Milestone Milestone.number
  issues : Register Issue Issue.number

/-! ## Calls -/

/-- A call of `gh`. -/
inductive Call where
  | repoView
  | listMilestones
  | createMilestone (title dueOn description : Text)
  | patchMilestone (number : ℕ) (dueOn description : Text)
  | listIssues
  | createIssue (title milestone label body : Text) (assignee : Option Text)
  | editIssue (number : ℕ) (title milestone addAssignee : Option Text)
  | closeIssue (number : ℕ)
deriving DecidableEq

/-- The calls through `read_json`, and `repo view`. -/
def Call.isRead : Call → Bool
  | .repoView | .listMilestones | .listIssues => true
  | _ => false

/-- `-X PATCH` with a due date and a description. -/
def patched (dueOn description : Text) : Register.Change Milestone Milestone.number where
  apply m := { m with dueOn := some dueOn, description := some description }
  keeps _ := rfl

/-- `issue edit` -/
def edited (title milestone addAssignee : Option Text) : Register.Change Issue Issue.number where
  apply i :=
    { i with
      title := title.getD i.title
      milestone := milestone.or i.milestone
      assignees := i.assignees ++ addAssignee.toList }
  keeps _ := rfl

/-- `issue close` -/
def closed : Register.Change Issue Issue.number where
  apply i := { i with closed := true }
  keeps _ := rfl

/-- What a call does that succeeds; `n` is the number of what it creates. -/
def Hub.apply (hub : Hub) (n : ℕ) : Call → Option Hub
  | .repoView | .listMilestones | .listIssues => some hub
  | .createMilestone title dueOn description =>
      (hub.milestones.add ⟨n, title, some dueOn, some description⟩).map fun r =>
        { hub with milestones := r }
  | .patchMilestone number dueOn description =>
      (hub.milestones.change number (patched dueOn description)).map fun r =>
        { hub with milestones := r }
  | .createIssue title milestone _ _ assignee =>
      (hub.issues.add ⟨n, title, false, some milestone, assignee.toList⟩).map fun r =>
        { hub with issues := r }
  | .editIssue number title milestone addAssignee =>
      (hub.issues.change number (edited title milestone addAssignee)).map fun r =>
        { hub with issues := r }
  | .closeIssue number =>
      (hub.issues.change number closed).map fun r => { hub with issues := r }

/-- What `issue create` prints. -/
def issueUrl (repo : Text) (n : ℕ) : Text :=
  "https://github.com/".toList ++ repo ++ "/issues".toList ++ '/' :: natText n

/-! ## Looking things up -/

/-- The milestone of a title; of several, the last one listed. -/
def Hub.milestone (hub : Hub) (title : Text) : Option Milestone :=
  (Dict.indexBy Milestone.title hub.milestones.entries).get? title

/-- The issue of a number. -/
def Hub.issue (hub : Hub) (n : ℕ) : Option Issue :=
  (Dict.indexBy Issue.number hub.issues.entries).get? n

namespace Register

variable {α κ : Type} [DecidableEq κ] {number : α → ℕ} {r r' : Register α number}

theorem add_eq_some {a : α} : r.add a = some r' ↔
    number a ∉ r.entries.map number ∧ r'.entries = r.entries ++ [a] := by
  unfold add
  split_ifs with h
  · simp [h]
  · cases r'
    simp [h, eq_comm]

theorem change_eq_some {n : ℕ} {f : Change α number} : r.change n f = some r' ↔
    n ∈ r.entries.map number ∧ r'.entries = r.entries.map (f.one n) := by
  unfold change
  split_ifs with h
  · cases r'
    simp [h, eq_comm]
  · simp [h]

/-- A new entry is found under its key, and nothing else is found elsewhere. -/
theorem get?_add {a : α} (h : r.add a = some r') (key : α → κ) (k : κ) :
    (Dict.indexBy key r'.entries).get? k =
      if key a = k then some a else (Dict.indexBy key r.entries).get? k := by
  rw [(add_eq_some.mp h).2, Dict.get?_indexBy_concat]

/-- An entry is found changed if it is the one with the number. -/
theorem get?_change {n : ℕ} {f : Change α number} (h : r.change n f = some r') {key : α → κ}
    (hkey : ∀ a, key (f.apply a) = key a) (k : κ) :
    (Dict.indexBy key r'.entries).get? k =
      ((Dict.indexBy key r.entries).get? k).map (f.one n) := by
  have hone : ∀ a, key (f.one n a) = key a := by
    intro a
    unfold Change.one
    split_ifs
    · exact hkey a
    · rfl
  rw [(change_eq_some.mp h).2, Dict.get?_indexBy_map key hone]

/-- Two entries with the same number are the same. -/
theorem eq_of_number {a a' : α} (ha : a ∈ r.entries) (ha' : a' ∈ r.entries)
    (h : number a = number a') : a = a' := List.inj_on_of_nodup_map r.nodup ha ha' h

end Register

/-! ## What each call does -/

section Effects

variable {hub hub' : Hub} {n : ℕ}

theorem apply_read {c : Call} (hc : c.isRead = true) (h : hub.apply n c = some hub') :
    hub' = hub := by
  cases c with
  | repoView => exact (Option.some.inj h).symm
  | listMilestones => exact (Option.some.inj h).symm
  | listIssues => exact (Option.some.inj h).symm
  | createMilestone _ _ _ => cases hc
  | patchMilestone _ _ _ => cases hc
  | createIssue _ _ _ _ _ => cases hc
  | editIssue _ _ _ _ => cases hc
  | closeIssue _ => cases hc

theorem apply_createMilestone {title dueOn description : Text}
    (h : hub.apply n (.createMilestone title dueOn description) = some hub') :
    hub'.issues = hub.issues ∧ ∀ t, hub'.milestone t =
      if title = t then some ⟨n, title, some dueOn, some description⟩ else hub.milestone t := by
  obtain ⟨r, hr, rfl⟩ := Option.map_eq_some_iff.mp h
  exact ⟨rfl, fun t => Register.get?_add hr Milestone.title t⟩

/-- The milestone that a title stands for is patched, and no other. -/
theorem apply_patchMilestone {title dueOn description : Text} {cur : Milestone}
    (hcur : hub.milestone title = some cur)
    (h : hub.apply n (.patchMilestone cur.number dueOn description) = some hub') :
    hub'.issues = hub.issues ∧ ∀ t, hub'.milestone t =
      if title = t then some { cur with dueOn := some dueOn, description := some description }
      else hub.milestone t := by
  obtain ⟨r, hr, rfl⟩ := Option.map_eq_some_iff.mp h
  refine ⟨rfl, fun t => ?_⟩
  obtain ⟨hmem, htitle⟩ := Dict.mem_of_get?_indexBy _ hcur
  rw [Hub.milestone, Register.get?_change hr (fun _ => rfl)]
  change (hub.milestone t).map _ = _
  split_ifs with ht
  · subst ht
    rw [hcur, Option.map_some, Register.Change.one, if_pos rfl]
    rfl
  · cases hget : hub.milestone t with
    | none => rfl
    | some other =>
        obtain ⟨hmem', htitle'⟩ := Dict.mem_of_get?_indexBy _ hget
        have hne : other.number ≠ cur.number := by
          intro hnumber
          have hsame := hub.milestones.eq_of_number hmem' hmem hnumber
          rw [hsame] at htitle'
          exact ht (htitle.symm.trans htitle')
        rw [Option.map_some, Register.Change.one, if_neg hne]

theorem apply_createIssue {title milestone label body : Text} {assignee : Option Text}
    (h : hub.apply n (.createIssue title milestone label body assignee) = some hub') :
    hub'.milestones = hub.milestones ∧ hub'.repo = hub.repo ∧ hub.issue n = none ∧
      ∀ m, hub'.issue m =
        if n = m then some ⟨n, title, false, some milestone, assignee.toList⟩ else hub.issue m := by
  obtain ⟨r, hr, rfl⟩ := Option.map_eq_some_iff.mp h
  refine ⟨rfl, rfl, ?_, fun m => Register.get?_add hr Issue.number m⟩
  exact (Dict.get?_indexBy_none _).mpr (Register.add_eq_some.mp hr).1

theorem issue_number {m : ℕ} {i : Issue} (h : hub.issue m = some i) : i.number = m :=
  (Dict.mem_of_get?_indexBy _ h).2

/-- A change reaches the issue of its number alone. -/
theorem issue_change {m : ℕ} {f : Register.Change Issue Issue.number}
    {r : Register Issue Issue.number} (h : hub.issues.change m f = some r) (k : ℕ) :
    ({ hub with issues := r } : Hub).issue k =
      if m = k then (hub.issue k).map f.apply else hub.issue k := by
  rw [Hub.issue, Register.get?_change h f.keeps]
  change (hub.issue k).map _ = _
  cases hget : hub.issue k with
  | none => simp
  | some i =>
      rw [Option.map_some, Register.Change.one, issue_number hget]
      by_cases hk : m = k
      · rw [if_pos hk.symm, if_pos hk]
        rfl
      · rw [if_neg (Ne.symm hk), if_neg hk]

theorem apply_editIssue {m : ℕ} {title milestone addAssignee : Option Text}
    (h : hub.apply n (.editIssue m title milestone addAssignee) = some hub') :
    hub'.milestones = hub.milestones ∧ ∀ k, hub'.issue k =
      if m = k then (hub.issue k).map (edited title milestone addAssignee).apply
      else hub.issue k := by
  obtain ⟨r, hr, rfl⟩ := Option.map_eq_some_iff.mp h
  exact ⟨rfl, issue_change hr⟩

theorem apply_closeIssue {m : ℕ} (h : hub.apply n (.closeIssue m) = some hub') :
    hub'.milestones = hub.milestones ∧ ∀ k, hub'.issue k =
      if m = k then (hub.issue k).map closed.apply else hub.issue k := by
  obtain ⟨r, hr, rfl⟩ := Option.map_eq_some_iff.mp h
  exact ⟨rfl, issue_change hr⟩

end Effects

end Carwatch.BoardSync
