import Mathlib.Data.List.Basic
import Mathlib.Data.List.Infix

/-!
# Carwatch.Lib.Brackets — openings and closings in a log

Some entries of a log open an interval, some close it, and some must stand
outside of all intervals.

* `Bracketed` — openings and closings alternate, beginning with an opening, and
  what must stand outside does;
* `Tracks` — a log that grows and a flag that says whether an interval is open:
  one rule for each kind of entry.
-/

namespace Carwatch.Lib

universe u

variable {α : Type u}

theorem countP_concat (p : α → Bool) (log : List α) (x : α) :
    (log ++ [x]).countP p = log.countP p + (p x).toNat := by
  rw [List.countP_append, List.countP_singleton]
  cases p x with
  | true => rfl
  | false => rfl

/-- Each opening finds as many openings as closings before it, each closing one
opening more, and what must stand outside as many of both. -/
def Bracketed (opens closes outside : α → Bool) (log : List α) : Prop :=
  ∀ before x, before ++ [x] <+: log →
    (opens x = true → before.countP opens = before.countP closes) ∧
    (closes x = true → before.countP opens = before.countP closes + 1) ∧
    (outside x = true → before.countP opens = before.countP closes)

/-- A bracketed log, and whether an interval is open at its end. -/
structure Tracks (opens closes outside : α → Bool) (log : List α) (isOpen : Bool) : Prop where
  bracketed : Bracketed opens closes outside log
  count : log.countP opens = log.countP closes + isOpen.toNat

namespace Tracks

variable {opens closes outside : α → Bool} {log : List α} {x : α}

theorem nil : Tracks opens closes outside [] false := by
  refine ⟨?_, rfl⟩
  intro before x hx
  have := List.prefix_nil.mp hx
  exact absurd this (List.append_ne_nil_of_right_ne_nil _ (List.cons_ne_nil _ _))

/-- One more entry, from what it finds. -/
theorem concat {isOpen isOpen' : Bool} (h : Tracks opens closes outside log isOpen)
    (hopens : opens x = true → isOpen = false) (hcloses : closes x = true → isOpen = true)
    (houtside : outside x = true → isOpen = false)
    (hcount : isOpen.toNat + (opens x).toNat = isOpen'.toNat + (closes x).toNat) :
    Tracks opens closes outside (log ++ [x]) isOpen' := by
  constructor
  · intro before y hy
    rcases List.prefix_concat_iff.mp hy with heq | hin
    · obtain ⟨rfl, hxy⟩ := List.append_inj' heq rfl
      rw [List.singleton_inj.mp hxy, h.count]
      refine ⟨?_, ?_, ?_⟩
      · intro ho
        rw [hopens ho]
        rfl
      · intro hc
        rw [hcloses hc]
        rfl
      · intro ho
        rw [houtside ho]
        rfl
    · exact h.bracketed before y hin
  · rw [countP_concat, countP_concat, h.count]
    omega

/-- An entry that neither opens nor closes, and may stand where it does. -/
theorem skip {isOpen : Bool} (h : Tracks opens closes outside log isOpen) (hopens : opens x = false)
    (hcloses : closes x = false) (houtside : outside x = true → isOpen = false) :
    Tracks opens closes outside (log ++ [x]) isOpen := by
  apply h.concat
  · intro ho
    rw [hopens] at ho
    cases ho
  · intro hc
    rw [hcloses] at hc
    cases hc
  · exact houtside
  · rw [hopens, hcloses]

/-- An opening. -/
theorem opening (h : Tracks opens closes outside log false) (hopens : opens x = true)
    (hcloses : closes x = false) : Tracks opens closes outside (log ++ [x]) true := by
  apply h.concat
  · intro _
    rfl
  · intro hc
    rw [hcloses] at hc
    cases hc
  · intro _
    rfl
  · rw [hopens, hcloses]
    rfl

/-- A closing. -/
theorem closing (h : Tracks opens closes outside log true) (hopens : opens x = false)
    (hcloses : closes x = true) (houtside : outside x = false) :
    Tracks opens closes outside (log ++ [x]) false := by
  apply h.concat
  · intro ho
    rw [hopens] at ho
    cases ho
  · intro _
    rfl
  · intro ho
    rw [houtside] at ho
    cases ho
  · rw [hopens, hcloses]
    rfl

end Tracks

end Carwatch.Lib
