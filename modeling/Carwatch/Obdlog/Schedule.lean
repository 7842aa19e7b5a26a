import Carwatch.Lib.Machine
import Carwatch.Lib.RoundRobin
import Mathlib.Logic.Function.Basic

/-!
# Carwatch.Obdlog.Schedule — which PID to ask next (`Schedule` of `tools/obdlog.py`)

The fast PIDs get one request in every `every`, taken in turn; every other PID
shares the rest, round-robin. The caller says at each call which PIDs to skip.

* **Model layer**: `Schedule.init`, `take`, `next`; `results` and `after` of a
  run of calls, each with a skip predicate of its own.
* **One call**: `next_cases` — all that a call can do.
* **Runs**: `window_has_fast` and `window_fast_count` for the share of the fast
  PIDs, `picks_le_ahead` for the turns within a group; `schedule_fair` puts
  them together.
-/

namespace Carwatch.Obdlog

open Carwatch.Lib

universe u

variable {α : Type u}

/-! ## The schedule -/

/-- `FAST_EVERY` -/
def fastEvery : ℕ := 4

/-- The two groups of a schedule, by the names that `_take` is called with. -/
inductive Kind
  | fast
  | slow
deriving DecidableEq, Repr

/-- `Schedule` -/
structure Schedule (α : Type u) where
  fast : List α
  slow : List α
  every : ℕ
  cursor : Kind → ℕ
  sinceFast : ℕ

namespace Schedule

/-- `Schedule.__init__` -/
def init [DecidableEq α] (pids fast : List α) (every : ℕ := fastEvery) : Schedule α where
  fast := fast.filter (· ∈ pids)
  slow := pids.filter (· ∉ fast.filter (· ∈ pids))
  every := every
  cursor _ := 0
  sinceFast := 0

/-- `getattr(self, kind)` -/
def group (s : Schedule α) : Kind → List α
  | .fast => s.fast
  | .slow => s.slow

/-- `Schedule._take` -/
def take (s : Schedule α) (kind : Kind) (skip : α → Bool) : Option α × Schedule α :=
  -- at most one look at each PID of the group, from the cursor on
  let (pid, cursor) := scan (s.group kind) skip (s.group kind).length (s.cursor kind)
  (pid, { s with cursor := Function.update s.cursor kind cursor })

/-- `Schedule.next` from its second `_take` on. -/
def nextSlow (s : Schedule α) (skip : α → Bool) : Option α × Schedule α :=
  let slow := s.take .slow skip
  match slow.1 with
  | some pid => (some pid, { slow.2 with sinceFast := slow.2.sinceFast + 1 })
  | none =>
      -- nothing slow is left, so the turn goes to a fast PID early
      let fast := slow.2.take .fast skip
      match fast.1 with
      | some pid => (some pid, { fast.2 with sinceFast := 0 })
      | none => (none, fast.2)

/-- Whether it is time for a fast PID. -/
def due (s : Schedule α) : Bool := !s.fast.isEmpty && decide (s.every - 1 ≤ s.sinceFast)

/-- `Schedule.next` -/
def next (s : Schedule α) (skip : α → Bool) : Option α × Schedule α :=
  if s.due then
    let fast := s.take .fast skip
    match fast.1 with
    | some pid => (some pid, { fast.2 with sinceFast := 0 })
    | none => fast.2.nextSlow skip
  else s.nextSlow skip

/-- The schedule after calls of `next` with these skip predicates. -/
def after (s : Schedule α) (skips : List (α → Bool)) : Schedule α :=
  run (fun s skip => (s.next skip).2) s skips

/-- What calls of `next` with these skip predicates return. -/
def results : Schedule α → List (α → Bool) → List (Option α)
  | _, [] => []
  | s, skip :: skips => (s.next skip).1 :: results (s.next skip).2 skips

/-- The results that are of one group. -/
def picks [DecidableEq α] (s : Schedule α) (kind : Kind) (skips : List (α → Bool)) : List α :=
  (s.results skips).filterMap fun r => r.filter (· ∈ s.group kind)

/-! ## One turn -/

theorem take_eq_none_iff (s : Schedule α) (kind : Kind) (skip : α → Bool) :
    (s.take kind skip).1 = none ↔ ∀ pid ∈ s.group kind, skip pid = true :=
  scan_eq_none_iff (s.group kind) skip (s.cursor kind)

theorem take_eq_some {s : Schedule α} {kind : Kind} {skip : α → Bool} {pid : α}
    (h : (s.take kind skip).1 = some pid) : pid ∈ s.group kind ∧ skip pid = false :=
  scan_eq_some h

/-- A turn depends on its own group and cursor, and moves no other cursor. -/
theorem take_congr {s t : Schedule α} {kind : Kind} (hgroup : t.group kind = s.group kind)
    (hcursor : t.cursor kind = s.cursor kind) (skip : α → Bool) :
    (t.take kind skip).1 = (s.take kind skip).1 ∧
      (t.take kind skip).2.cursor kind = (s.take kind skip).2.cursor kind := by
  unfold take
  dsimp only
  rw [hgroup, hcursor, Function.update_self, Function.update_self]
  exact ⟨rfl, rfl⟩

theorem take_fast_cursor_slow (s : Schedule α) (skip : α → Bool) :
    (s.take .fast skip).2.cursor .slow = s.cursor .slow :=
  rfl

theorem take_slow_cursor_fast (s : Schedule α) (skip : α → Bool) :
    (s.take .slow skip).2.cursor .fast = s.cursor .fast :=
  rfl

/-- A turn brings the cursor nearer to a PID that is not skipped, or is its. -/
theorem take_ahead {s : Schedule α} {kind : Kind} {skip : α → Bool} {i : ℕ} {pid : α}
    (hpid : (s.group kind)[i]? = some pid) (hskip : skip pid = false) {got : α}
    (hgot : (s.take kind skip).1 = some got) :
    got = pid ∨
      ahead (s.group kind).length i ((s.take kind skip).2.cursor kind) <
        ahead (s.group kind).length i (s.cursor kind) := by
  have hpos : 0 < (s.group kind).length :=
    Nat.zero_lt_of_lt (List.getElem?_eq_some_iff.mp hpid).1
  rcases scan_ahead hpid hskip (ahead_lt hpos i (s.cursor kind)) with ⟨y, cursor, hscan, hy⟩
  unfold take at hgot ⊢
  rw [hscan] at hgot ⊢
  dsimp only at hgot ⊢
  rw [Function.update_self, ← Option.some.inj hgot]
  exact hy

/-! ## One call -/

/-- A call that gives the turn to a fast PID: it is due, or there is no slow
one to be had. -/
structure FastTurn (s : Schedule α) (skip : α → Bool) (t : Schedule α) (pid : α) : Prop where
  taken : (s.take .fast skip).1 = some pid
  cursor : t.cursor .fast = (s.take .fast skip).2.cursor .fast
  sinceFast : t.sinceFast = 0
  why : (s.due = true ∧ t.cursor .slow = s.cursor .slow) ∨ ∀ q ∈ s.slow, skip q = true

/-- A call that gives the turn to a slow PID: no fast one is due, or none to be
had. -/
structure SlowTurn (s : Schedule α) (skip : α → Bool) (t : Schedule α) (pid : α) : Prop where
  taken : (s.take .slow skip).1 = some pid
  cursor : t.cursor .slow = (s.take .slow skip).2.cursor .slow
  sinceFast : t.sinceFast = s.sinceFast + 1
  why : (s.due = false ∧ t.cursor .fast = s.cursor .fast) ∨ ∀ q ∈ s.fast, skip q = true

/-- What a call does from its second turn on. -/
theorem nextSlow_cases (s : Schedule α) (skip : α → Bool) :
    (∃ pid, (s.nextSlow skip).1 = some pid ∧ (s.take .slow skip).1 = some pid ∧
      (s.nextSlow skip).2 = { (s.take .slow skip).2 with sinceFast := s.sinceFast + 1 }) ∨
    (∃ pid, (s.nextSlow skip).1 = some pid ∧ (s.take .slow skip).1 = none ∧
      (s.take .fast skip).1 = some pid ∧
      (s.nextSlow skip).2 = { ((s.take .slow skip).2.take .fast skip).2 with sinceFast := 0 }) ∨
    ((s.nextSlow skip).1 = none ∧ (s.take .slow skip).1 = none ∧ (s.take .fast skip).1 = none) := by
  have hfast : ((s.take .slow skip).2.take .fast skip).1 = (s.take .fast skip).1 :=
    (@take_congr α s (s.take .slow skip).2 .fast rfl (take_slow_cursor_fast s skip) skip).1
  unfold nextSlow
  dsimp only
  cases hslow : (s.take .slow skip).1 with
  | some pid => exact .inl ⟨pid, rfl, rfl, rfl⟩
  | none =>
      dsimp only
      rw [← hfast]
      cases htake : ((s.take .slow skip).2.take .fast skip).1 with
      | some pid => exact .inr (.inl ⟨pid, rfl, rfl, rfl, rfl⟩)
      | none => exact .inr (.inr ⟨rfl, rfl, rfl⟩)

/-- All that a call can do: a turn of a fast PID, a turn of a slow PID, or
nothing because every PID is skipped. -/
theorem next_cases (s : Schedule α) (skip : α → Bool) :
    (∃ pid, (s.next skip).1 = some pid ∧ FastTurn s skip (s.next skip).2 pid) ∨
    (∃ pid, (s.next skip).1 = some pid ∧ SlowTurn s skip (s.next skip).2 pid) ∨
    ((s.next skip).1 = none ∧ ∀ kind, ∀ pid ∈ s.group kind, skip pid = true) := by
  have hnone := fun kind => (take_eq_none_iff s kind skip).mp
  cases hdue : s.due with
  | true =>
      cases hfast : (s.take .fast skip).1 with
      | some pid =>
          left
          have hnext : s.next skip = (some pid, { (s.take .fast skip).2 with sinceFast := 0 }) := by
            rw [next, if_pos hdue]
            dsimp only
            rw [hfast]
          rw [hnext]
          exact ⟨pid, rfl, hfast, rfl, rfl, .inl ⟨hdue, take_fast_cursor_slow s skip⟩⟩
      | none =>
          right
          have hnext : s.next skip = (s.take .fast skip).2.nextSlow skip := by
            rw [next, if_pos hdue]
            dsimp only
            rw [hfast]
          -- the turn that found nothing moved no slow cursor, so the slow turn is as it
          -- would have been at once, and a second fast turn finds nothing again
          have hslow := @take_congr α s (s.take .fast skip).2 .slow rfl (take_fast_cursor_slow s skip) skip
          have hagain : ((s.take .fast skip).2.take .fast skip).1 = none :=
            (take_eq_none_iff _ .fast skip).mpr (hnone .fast hfast)
          rw [hnext]
          rcases nextSlow_cases (s.take .fast skip).2 skip with
            ⟨pid, hres, htake, hst⟩ | ⟨pid, -, -, htake, -⟩ | ⟨hres, htake, -⟩
          · left
            refine ⟨pid, hres, ?_⟩
            rw [hst]
            exact ⟨hslow.1 ▸ htake, hslow.2, rfl, .inr (hnone .fast hfast)⟩
          · rw [hagain] at htake
            cases htake
          · right
            refine ⟨hres, ?_⟩
            intro kind
            cases kind with
            | fast => exact hnone .fast hfast
            | slow => exact hnone .slow (hslow.1 ▸ htake)
  | false =>
      have hnext : s.next skip = s.nextSlow skip := by
        rw [next, if_neg (by rw [hdue]; exact Bool.false_ne_true)]
      rw [hnext]
      rcases nextSlow_cases s skip with
        ⟨pid, hres, htake, hst⟩ | ⟨pid, hres, hslow, htake, hst⟩ | ⟨hres, hslow, hfast⟩
      · right
        left
        refine ⟨pid, hres, ?_⟩
        rw [hst]
        exact ⟨htake, rfl, rfl, .inl ⟨hdue, take_slow_cursor_fast s skip⟩⟩
      · left
        refine ⟨pid, hres, ?_⟩
        rw [hst]
        refine ⟨htake, ?_, rfl, .inr (hnone .slow hslow)⟩
        exact (@take_congr α s (s.take .slow skip).2 .fast rfl (take_slow_cursor_fast s skip) skip).2
      · right
        right
        refine ⟨hres, ?_⟩
        intro kind
        cases kind with
        | fast => exact hnone .fast hfast
        | slow => exact hnone .slow hslow

theorem next_eq_some {s : Schedule α} {skip : α → Bool} {pid : α} (h : (s.next skip).1 = some pid) :
    (∃ kind, pid ∈ s.group kind) ∧ skip pid = false := by
  rcases next_cases s skip with ⟨got, hres, hturn⟩ | ⟨got, hres, hturn⟩ | ⟨hres, -⟩
  · obtain ⟨hin, hskip⟩ := take_eq_some hturn.taken
    rw [← Option.some.inj (hres.symm.trans h)]
    exact ⟨⟨.fast, hin⟩, hskip⟩
  · obtain ⟨hin, hskip⟩ := take_eq_some hturn.taken
    rw [← Option.some.inj (hres.symm.trans h)]
    exact ⟨⟨.slow, hin⟩, hskip⟩
  · rw [hres] at h
    cases h

theorem next_eq_none_iff (s : Schedule α) (skip : α → Bool) :
    (s.next skip).1 = none ↔ ∀ kind, ∀ pid ∈ s.group kind, skip pid = true := by
  constructor
  · intro hnone
    rcases next_cases s skip with ⟨got, hres, -⟩ | ⟨got, hres, -⟩ | ⟨-, hall⟩
    · rw [hres] at hnone
      cases hnone
    · rw [hres] at hnone
      cases hnone
    · exact hall
  · intro hall
    cases hres : (s.next skip).1 with
    | none => rfl
    | some pid =>
        obtain ⟨⟨kind, hin⟩, hskip⟩ := next_eq_some hres
        rw [hall kind pid hin] at hskip
        cases hskip

/-- The groups and the share of a schedule are never changed. -/
theorem next_same (s : Schedule α) (skip : α → Bool) :
    (s.next skip).2.group = s.group ∧ (s.next skip).2.every = s.every := by
  have hslow : ∀ s : Schedule α, (s.nextSlow skip).2.group = s.group ∧
      (s.nextSlow skip).2.every = s.every := by
    intro s
    unfold nextSlow
    dsimp only
    split
    · exact ⟨rfl, rfl⟩
    · split
      · exact ⟨rfl, rfl⟩
      · exact ⟨rfl, rfl⟩
  unfold next
  split_ifs
  · dsimp only
    split
    · exact ⟨rfl, rfl⟩
    · exact hslow _
  · exact hslow s

/-! ## Runs -/

@[simp] theorem length_results (s : Schedule α) (skips : List (α → Bool)) :
    (s.results skips).length = skips.length := by
  induction skips generalizing s with
  | nil => rfl
  | cons skip skips ih => rw [results, List.length_cons, List.length_cons, ih]

theorem results_append (s : Schedule α) (skips skips' : List (α → Bool)) :
    s.results (skips ++ skips') = s.results skips ++ (s.after skips).results skips' := by
  induction skips generalizing s with
  | nil => rfl
  | cons skip skips ih =>
      rw [List.cons_append, results, results, ih, List.cons_append]
      rfl

/-- The groups and the share are those of the start all along. -/
theorem after_same (s : Schedule α) (skips : List (α → Bool)) :
    (s.after skips).group = s.group ∧ (s.after skips).every = s.every := by
  apply run_invariant (fun s skip => (s.next skip).2)
    (fun t : Schedule α => t.group = s.group ∧ t.every = s.every)
  · intro t skip ht
    obtain ⟨hgroup, hevery⟩ := next_same t skip
    exact ⟨hgroup.trans ht.1, hevery.trans ht.2⟩
  · exact ⟨rfl, rfl⟩

/-- No PID is in both groups. -/
def Apart (s : Schedule α) : Prop := ∀ pid ∈ s.slow, pid ∉ s.fast

theorem apart_of_group {s t : Schedule α} (h : t.group = s.group) (hs : s.Apart) : t.Apart := by
  have hfast : t.fast = s.fast := congrFun h .fast
  have hslow : t.slow = s.slow := congrFun h .slow
  unfold Apart
  rw [hfast, hslow]
  exact hs

theorem apart_init [DecidableEq α] (pids fast : List α) (every : ℕ) :
    (init pids fast every).Apart := by
  intro pid hpid
  have := (List.mem_filter.mp hpid).2
  exact of_decide_eq_true this

/-! ### The share of the fast PIDs -/

/-- With a fast PID to be had, a slow one gets a turn only before it is due. -/
theorem SlowTurn.lt {s t : Schedule α} {skip : α → Bool} {pid : α} (h : SlowTurn s skip t pid)
    (hfast : ∃ q ∈ s.fast, skip q = false) : s.sinceFast + 1 < s.every := by
  rcases hfast with ⟨q, hq, hskip⟩
  rcases h.why with ⟨hdue, -⟩ | hall
  · have hne : s.fast.isEmpty = false := by
      rw [List.isEmpty_eq_false_iff]
      exact List.ne_nil_of_mem hq
    unfold due at hdue
    rw [hne, Bool.not_false, Bool.true_and, decide_eq_false_iff_not] at hdue
    omega
  · rw [hall q hq] at hskip
    cases hskip

/-- With a slow PID to be had, a fast one gets a turn only when it is due. -/
theorem FastTurn.le {s t : Schedule α} {skip : α → Bool} {pid : α} (h : FastTurn s skip t pid)
    (hslow : ∃ q ∈ s.slow, skip q = false) : s.every ≤ s.sinceFast + 1 := by
  rcases hslow with ⟨q, hq, hskip⟩
  rcases h.why with ⟨hdue, -⟩ | hall
  · unfold due at hdue
    rw [Bool.and_eq_true, decide_eq_true_eq] at hdue
    omega
  · rw [hall q hq] at hskip
    cases hskip

/-- A result of the fast group. -/
def isFast [DecidableEq α] (s : Schedule α) (result : Option α) : Bool := result.any (· ∈ s.fast)

section Share

variable [DecidableEq α] {s : Schedule α} {skip : α → Bool}

theorem isFast_congr {t : Schedule α} (h : t.group = s.group) : t.isFast = s.isFast := by
  have hfast : t.fast = s.fast := congrFun h .fast
  unfold isFast
  rw [hfast]

theorem FastTurn.isFast {t : Schedule α} {pid : α} (h : FastTurn s skip t pid) :
    s.isFast (some pid) = true := by
  exact decide_eq_true (take_eq_some h.taken).1

theorem SlowTurn.isFast (hapart : s.Apart) {t : Schedule α} {pid : α} (h : SlowTurn s skip t pid) :
    s.isFast (some pid) = false := by
  exact decide_eq_false (hapart pid (take_eq_some h.taken).1)

/-- While a fast PID can be had, one gets a turn before long. -/
theorem window_has_fast {skips : List (α → Bool)}
    (hfast : ∀ skip ∈ skips, ∃ q ∈ s.fast, skip q = false) (hpos : 0 < skips.length)
    (hlong : s.every ≤ skips.length + s.sinceFast) : ∃ r ∈ s.results skips, s.isFast r = true := by
  induction skips generalizing s with
  | nil => exact absurd hpos (Nat.lt_irrefl 0)
  | cons skip skips ih =>
      have hnow := hfast skip List.mem_cons_self
      obtain ⟨hgroup, hevery⟩ := next_same s skip
      rcases next_cases s skip with ⟨pid, hres, hturn⟩ | ⟨pid, hres, hturn⟩ | ⟨-, hall⟩
      · rw [results, hres]
        exact ⟨some pid, List.mem_cons_self, hturn.isFast⟩
      -- a slow turn brings the fast one a call nearer
      · have hlt := hturn.lt hnow
        have hsince := hturn.sinceFast
        rw [List.length_cons] at hlong
        have hrest : ∃ r ∈ (s.next skip).2.results skips, (s.next skip).2.isFast r = true := by
          apply ih
          · intro sk hsk
            rw [show (s.next skip).2.fast = s.fast from congrFun hgroup .fast]
            exact hfast sk (List.mem_cons_of_mem _ hsk)
          · omega
          · rw [hevery, hsince]
            omega
        rcases hrest with ⟨r, hr, hisfast⟩
        rw [isFast_congr hgroup] at hisfast
        exact ⟨r, List.mem_cons_of_mem _ hr, hisfast⟩
      · rcases hnow with ⟨q, hq, hskip⟩
        rw [hall .fast q hq] at hskip
        cases hskip

/-- While PIDs of both groups can be had, the turns of the fast ones are
`every` calls apart. -/
theorem window_fast_count (hapart : s.Apart) {skips : List (α → Bool)}
    (hfast : ∀ skip ∈ skips, ∃ q ∈ s.fast, skip q = false)
    (hslow : ∀ skip ∈ skips, ∃ q ∈ s.slow, skip q = false) :
    (skips.length + s.sinceFast < s.every → (s.results skips).countP s.isFast = 0) ∧
    (0 < skips.length → s.every ≤ skips.length + s.sinceFast →
      skips.length ≤ s.every - 1 - s.sinceFast + s.every → 0 < s.every →
      (s.results skips).countP s.isFast = 1) := by
  induction skips generalizing s with
  | nil => exact ⟨fun _ => rfl, fun hpos => absurd hpos (Nat.lt_irrefl 0)⟩
  | cons skip skips ih =>
      have hnow := hfast skip List.mem_cons_self
      have hnow' := hslow skip List.mem_cons_self
      obtain ⟨hgroup, hevery⟩ := next_same s skip
      -- both parts are needed of the rest: the second one turns into the first after
      -- a fast turn
      have hrest := @ih (s.next skip).2 (apart_of_group hgroup hapart)
        (fun sk hsk => by
          rw [show (s.next skip).2.fast = s.fast from congrFun hgroup .fast]
          exact hfast sk (List.mem_cons_of_mem _ hsk))
        (fun sk hsk => by
          rw [show (s.next skip).2.slow = s.slow from congrFun hgroup .slow]
          exact hslow sk (List.mem_cons_of_mem _ hsk))
      rw [isFast_congr hgroup, hevery] at hrest
      rw [results, List.countP_cons, List.length_cons]
      rcases next_cases s skip with ⟨pid, hres, hturn⟩ | ⟨pid, hres, hturn⟩ | ⟨-, hall⟩
      · -- a fast turn is due, and the count starts again
        have hle := hturn.le hnow'
        rw [hturn.sinceFast] at hrest
        rw [hres, if_pos hturn.isFast]
        constructor
        · intro hshort
          omega
        · intro _ _ hfew hpos
          rw [hrest.1 (by omega)]
      -- a slow turn, and what is counted comes in the rest
      · have hlt := hturn.lt hnow
        rw [hturn.sinceFast] at hrest
        rw [hres, if_neg (by rw [hturn.isFast hapart]; exact Bool.false_ne_true), Nat.add_zero]
        constructor
        · intro hshort
          exact hrest.1 (by omega)
        · intro _ hlong hfew hpos
          exact hrest.2 (by omega) (by omega) (by omega) hpos
      · rcases hnow with ⟨q, hq, hskip⟩
        rw [hall .fast q hq] at hskip
        cases hskip

end Share

/-! ### The turns within a group -/

/-- A call picks a PID of the group or it does not; when it picks another than
one that is not skipped, that one is nearer, and else as near as before. -/
theorem next_ahead {s : Schedule α} (hapart : s.Apart) {kind : Kind} {skip : α → Bool} {i : ℕ} {pid : α}
    (hpid : (s.group kind)[i]? = some pid) (hskip : skip pid = false) :
    ∃ got, (s.next skip).1 = some got ∧
      ((got ∈ s.group kind ∧ (got = pid ∨
          ahead (s.group kind).length i ((s.next skip).2.cursor kind) <
            ahead (s.group kind).length i (s.cursor kind))) ∨
        (got ∉ s.group kind ∧ (s.next skip).2.cursor kind = s.cursor kind)) := by
  have hmem : pid ∈ s.group kind := List.mem_of_getElem? hpid
  rcases next_cases s skip with ⟨got, hres, hturn⟩ | ⟨got, hres, hturn⟩ | ⟨-, hall⟩
  · have hgot := (take_eq_some hturn.taken).1
    refine ⟨got, hres, ?_⟩
    cases kind with
    | fast =>
        rw [hturn.cursor]
        exact .inl ⟨hgot, take_ahead hpid hskip hturn.taken⟩
    | slow =>
        right
        -- a slow PID that can be had rules out that the fast turn was a makeshift
        rcases hturn.why with ⟨-, hcursor⟩ | hall
        · exact ⟨fun hin => hapart got hin hgot, hcursor⟩
        · rw [hall pid hmem] at hskip
          cases hskip
  · have hgot := (take_eq_some hturn.taken).1
    refine ⟨got, hres, ?_⟩
    cases kind with
    | slow =>
        rw [hturn.cursor]
        exact .inl ⟨hgot, take_ahead hpid hskip hturn.taken⟩
    | fast =>
        right
        rcases hturn.why with ⟨-, hcursor⟩ | hall
        · exact ⟨fun hin => hapart got hgot hin, hcursor⟩
        · rw [hall pid hmem] at hskip
          cases hskip
  · rw [hall kind pid hmem] at hskip
    cases hskip

section Turns

variable [DecidableEq α]

/-- As long as a PID that is not skipped is not picked, every pick of its group
brings the cursor nearer to it. -/
theorem picks_le_ahead {s : Schedule α} (hapart : s.Apart) {kind : Kind} {i : ℕ} {pid : α}
    (hpid : (s.group kind)[i]? = some pid) {skips : List (α → Bool)}
    (hskip : ∀ skip ∈ skips, skip pid = false) (hnot : pid ∉ s.picks kind skips) :
    (s.picks kind skips).length ≤ ahead (s.group kind).length i (s.cursor kind) := by
  induction skips generalizing s with
  | nil => exact Nat.zero_le _
  | cons skip skips ih =>
      obtain ⟨hgroup, -⟩ := next_same s skip
      have hg : (s.next skip).2.group kind = s.group kind := congrFun hgroup kind
      have hrest := @ih (s.next skip).2 (apart_of_group hgroup hapart) (by rw [hg]; exact hpid)
        fun sk hsk => hskip sk (List.mem_cons_of_mem _ hsk)
      rw [hg] at hrest
      unfold picks at hnot hrest ⊢
      rw [hg] at hrest
      rw [results] at hnot ⊢
      rcases next_ahead hapart hpid (hskip skip List.mem_cons_self) with ⟨got, hres, hturn⟩
      rcases hturn with ⟨hin, hnear⟩ | ⟨hout, hcursor⟩
      · have hpick : ((s.next skip).1.filter fun q => decide (q ∈ s.group kind)) = some got := by
          rw [hres, Option.filter_some, if_pos (decide_eq_true hin)]
        rw [List.filterMap_cons, hpick] at hnot ⊢
        -- the pick is another one, so it brought the cursor nearer
        have hne : got ≠ pid := by
          rintro rfl
          exact hnot List.mem_cons_self
        have hlt := hnear.resolve_left hne
        have hle := hrest fun h => hnot (List.mem_cons_of_mem _ h)
        rw [List.length_cons]
        omega
      · have hpick : ((s.next skip).1.filter fun q => decide (q ∈ s.group kind)) = none := by
          rw [hres, Option.filter_some, if_neg (by rw [decide_eq_true_eq]; exact hout)]
        rw [List.filterMap_cons, hpick] at hnot ⊢
        rw [hcursor] at hrest
        exact hrest hnot

/-- A run can be cut where its picks are. -/
theorem picks_cut {s : Schedule α} {kind : Kind} {skips : List (α → Bool)} {xs ys : List α}
    (h : s.picks kind skips = xs ++ ys) :
    ∃ first last, skips = first ++ last ∧ s.picks kind first = xs ∧
      (s.after first).picks kind last = ys := by
  unfold picks at h
  rcases List.filterMap_eq_append_iff.mp h with ⟨rs, rs', hresults, hrs, hrs'⟩
  refine ⟨skips.take rs.length, skips.drop rs.length, (List.take_append_drop _ skips).symm, ?_⟩
  -- one result a call, so the calls are cut at the same place
  have hlen : rs.length ≤ skips.length := by
    have := congrArg List.length hresults
    rw [length_results, List.length_append] at this
    omega
  have hsplit := results_append s (skips.take rs.length) (skips.drop rs.length)
  rw [List.take_append_drop, hresults] at hsplit
  have hfirst : (s.results (skips.take rs.length)).length = rs.length := by
    rw [length_results, List.length_take, Nat.min_eq_left hlen]
  obtain ⟨heq, heq'⟩ := List.append_inj hsplit hfirst.symm
  have hg : (s.after (skips.take rs.length)).group kind = s.group kind :=
    congrFun (after_same s _).1 kind
  unfold picks
  rw [hg, ← heq, ← heq']
  exact ⟨hrs, hrs'⟩

/-- A PID that is never skipped is among as many picks in a row as its group
has PIDs. -/
theorem mem_of_picks_infix {s : Schedule α} (hapart : s.Apart) {kind : Kind} {pid : α}
    (hpid : pid ∈ s.group kind) {skips : List (α → Bool)} (hskip : ∀ skip ∈ skips, skip pid = false)
    {window : List α} (hwindow : window <:+: s.picks kind skips)
    (hlen : window.length = (s.group kind).length) : pid ∈ window := by
  by_contra hnot
  -- the calls that gave the window are `mid`
  rcases hwindow with ⟨before, behind, hall⟩
  rw [List.append_assoc] at hall
  rcases picks_cut hall.symm with ⟨first, rest, rfl, -, hrest⟩
  rcases picks_cut hrest with ⟨mid, last, rfl, hmid, -⟩
  rcases List.mem_iff_getElem?.mp hpid with ⟨i, hi⟩
  obtain ⟨hgroup, -⟩ := after_same s first
  have hg : (s.after first).group kind = s.group kind := congrFun hgroup kind
  have hle := @picks_le_ahead α _ (s.after first) (apart_of_group hgroup hapart) kind i pid
    (by rw [hg]; exact hi) mid
    (fun sk hsk => hskip sk (List.mem_append_right _ (List.mem_append_left _ hsk)))
    (by rw [hmid]; exact hnot)
  have hlt := ahead_lt (List.length_pos_of_mem hpid) i ((s.after first).cursor kind)
  rw [hmid, hg, hlen] at hle
  omega

end Turns

/-! ## Fairness -/

/-- A PID is in one of the groups exactly when it is polled. -/
theorem exists_group_init [DecidableEq α] (pids fast : List α) (every : ℕ) (pid : α) :
    (∃ kind, pid ∈ (init pids fast every).group kind) ↔ pid ∈ pids := by
  constructor
  · rintro ⟨kind, hkind⟩
    cases kind with
    | fast => exact of_decide_eq_true (List.mem_filter.mp hkind).2
    | slow => exact (List.mem_filter.mp hkind).1
  · intro hpid
    by_cases hfast : pid ∈ fast.filter (· ∈ pids)
    · exact ⟨.fast, hfast⟩
    · exact ⟨.slow, List.mem_filter.mpr ⟨hpid, decide_eq_true hfast⟩⟩

/-- The schedule is fair, whatever is skipped at each call: a skipped PID is
never returned, and `None` only when every PID is skipped; of `every` results
in a row at least one is fast while a fast PID can be had, and exactly one
while a slow one can be had too; and a PID that is never skipped comes up in
every round of its group. That no PID is given twice is not needed. -/
theorem schedule_fair [DecidableEq α] (pids fast : List α) (every : ℕ) (hevery : 2 ≤ every) :
    (∀ before skip,
      (∀ pid, (((init pids fast every).after before).next skip).1 = some pid →
        pid ∈ pids ∧ skip pid = false) ∧
      ((((init pids fast every).after before).next skip).1 = none ↔ ∀ pid ∈ pids, skip pid = true)) ∧
    (∀ before window : List (α → Bool), window.length = every →
      (∀ skip ∈ window, ∃ pid ∈ (init pids fast every).fast, skip pid = false) →
      (∃ r ∈ ((init pids fast every).after before).results window,
        (init pids fast every).isFast r = true) ∧
      ((∀ skip ∈ window, ∃ pid ∈ (init pids fast every).slow, skip pid = false) →
        (((init pids fast every).after before).results window).countP (init pids fast every).isFast = 1)) ∧
    ∀ skips kind, ∀ pid ∈ (init pids fast every).group kind, (∀ skip ∈ skips, skip pid = false) →
      ∀ window, window <:+: (init pids fast every).picks kind skips →
        window.length = ((init pids fast every).group kind).length → pid ∈ window := by
  refine ⟨?_, ?_, ?_⟩
  -- what one call returns, after any calls
  · intro before skip
    obtain ⟨hgroup, -⟩ := after_same (init pids fast every) before
    have hpolled := exists_group_init pids fast every
    rw [← hgroup] at hpolled
    constructor
    · intro pid hpid
      obtain ⟨hin, hskip⟩ := next_eq_some hpid
      exact ⟨(hpolled pid).mp hin, hskip⟩
    · rw [next_eq_none_iff]
      constructor
      · intro hall pid hpid
        rcases (hpolled pid).mpr hpid with ⟨kind, hkind⟩
        exact hall kind pid hkind
      · intro hall kind pid hkind
        exact hall pid ((hpolled pid).mp ⟨kind, hkind⟩)
  -- the share of the fast PIDs, from any state that calls can reach
  · intro before window hlen hfast
    have hapart := apart_init pids fast every
    obtain ⟨hgroup, hshare⟩ := after_same (init pids fast every) before
    have hfast' : ∀ skip ∈ window, ∃ pid ∈ ((init pids fast every).after before).fast, skip pid = false := by
      rw [show ((init pids fast every).after before).fast = _ from congrFun hgroup .fast]
      exact hfast
    have hevery' : ((init pids fast every).after before).every = every := hshare
    rw [← isFast_congr hgroup]
    constructor
    · exact window_has_fast hfast' (by omega) (by omega)
    · intro hslow
      have hslow' : ∀ skip ∈ window, ∃ pid ∈ ((init pids fast every).after before).slow,
          skip pid = false := by
        rw [show ((init pids fast every).after before).slow = _ from congrFun hgroup .slow]
        exact hslow
      exact (window_fast_count (apart_of_group hgroup hapart) hfast' hslow').2 (by omega) (by omega)
        (by omega) (by omega)
  -- the rounds of a group
  · intro skips kind pid hpid hskip window hwindow hlen
    exact mem_of_picks_infix (apart_init pids fast every) hpid hskip hwindow hlen

/-- The default share, with one PID set aside: after three slow requests comes
a fast one. -/
theorem schedule_fair_default :
    2 ≤ fastEvery ∧
    ((init [0x04, 0x05, 0x06, 0x0C] [0x0C, 0x04]).results (List.replicate 4 (· == 0x06))).countP
      (init [0x04, 0x05, 0x06, 0x0C] [0x0C, 0x04]).isFast = 1 := by
  have hshare := ((schedule_fair [0x04, 0x05, 0x06, 0x0C] [0x0C, 0x04] fastEvery (by decide)).2.1 []
    (List.replicate 4 (· == 0x06)) rfl (by decide)).2 (by decide)
  exact ⟨by decide, hshare⟩

end Schedule

end Carwatch.Obdlog
