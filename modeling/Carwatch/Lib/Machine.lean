import Mathlib.Data.List.Basic

/-!
# Carwatch.Lib.Machine — executable machines and their runs

A machine is a total step function `step : σ → α → σ` on states `σ` and
actions `α`; an action that is not enabled stutters. Everything that can go
either way (what a system call answers, when a process is killed, which
party moves) is written in the action, so "for every run" is "for every
list of actions".

* `run` — the state reached by a list of actions;
* `Meets` — every action of a run meets a condition on the state it is
  performed in;
* `run_invariant` / `meets_invariant` — invariant induction, without and
  with such a condition;
* `run_simulation` — a step-by-step simulation transports runs.
-/

namespace Carwatch.Lib

universe u v w x

variable {σ : Type u} {α : Type v}

/-- The state reached from `s` by performing `acts` in order. -/
def run (step : σ → α → σ) (s : σ) (acts : List α) : σ := acts.foldl step s

@[simp] theorem run_nil (step : σ → α → σ) (s : σ) : run step s [] = s := rfl

@[simp] theorem run_cons (step : σ → α → σ) (s : σ) (a : α) (acts : List α) :
    run step s (a :: acts) = run step (step s a) acts := rfl

theorem run_append (step : σ → α → σ) (s : σ) (acts acts' : List α) :
    run step s (acts ++ acts') = run step (run step s acts) acts' :=
  List.foldl_append

/-- Every action of `acts`, performed from `s`, meets `cond` in the state
in which it is performed. -/
def Meets (step : σ → α → σ) (cond : σ → α → Prop) : σ → List α → Prop
  | _, [] => True
  | s, a :: acts => cond s a ∧ Meets step cond (step s a) acts

@[simp] theorem meets_nil (step : σ → α → σ) (cond : σ → α → Prop) (s : σ) :
    Meets step cond s [] := trivial

@[simp] theorem meets_cons (step : σ → α → σ) (cond : σ → α → Prop) (s : σ) (a : α)
    (acts : List α) :
    Meets step cond s (a :: acts) ↔ cond s a ∧ Meets step cond (step s a) acts := Iff.rfl

/-- A run that meets a condition meets every weaker one. -/
theorem meets_imp {step : σ → α → σ} {cond cond' : σ → α → Prop} {s : σ} {acts : List α}
    (h : Meets step cond s acts) (himp : ∀ s a, cond s a → cond' s a) :
    Meets step cond' s acts := by
  induction acts generalizing s with
  | nil => trivial
  | cons a acts ih => exact ⟨himp s a h.1, ih h.2⟩

/-- A condition every action meets in every state is met by every run. -/
theorem meets_of_forall {step : σ → α → σ} {cond : σ → α → Prop} {acts : List α}
    (h : ∀ a ∈ acts, ∀ s, cond s a) (s : σ) : Meets step cond s acts := by
  induction acts generalizing s with
  | nil => trivial
  | cons a acts ih =>
      exact ⟨h a List.mem_cons_self s, ih (fun b hb => h b (List.mem_cons_of_mem a hb)) _⟩

/-- A condition on the actions alone can be added to a run's condition. -/
theorem meets_and_all {step : σ → α → σ} {cond : σ → α → Prop} {p : α → Prop} {s : σ}
    {acts : List α} (h : Meets step cond s acts) (hp : ∀ a ∈ acts, p a) :
    Meets step (fun s a => cond s a ∧ p a) s acts := by
  induction acts generalizing s with
  | nil => trivial
  | cons a acts ih =>
      exact ⟨⟨h.1, hp a List.mem_cons_self⟩, ih h.2 fun b hb => hp b (List.mem_cons_of_mem a hb)⟩

instance decidableMeets (step : σ → α → σ) (cond : σ → α → Prop)
    [∀ s a, Decidable (cond s a)] : ∀ (s : σ) (acts : List α), Decidable (Meets step cond s acts)
  | _, [] => inferInstanceAs (Decidable True)
  | s, a :: acts =>
      have := decidableMeets step cond (step s a) acts
      inferInstanceAs (Decidable (cond s a ∧ Meets step cond (step s a) acts))

/-- Invariant induction along a run all of whose actions meet `cond`. -/
theorem meets_invariant (step : σ → α → σ) (cond : σ → α → Prop) (inv : σ → Prop)
    (hstep : ∀ s a, inv s → cond s a → inv (step s a))
    (s : σ) (hs : inv s) (acts : List α) (h : Meets step cond s acts) :
    inv (run step s acts) := by
  induction acts generalizing s with
  | nil => exact hs
  | cons a acts ih => exact ih (step s a) (hstep s a hs h.1) h.2

/-- Invariant induction along an arbitrary run. -/
theorem run_invariant (step : σ → α → σ) (inv : σ → Prop)
    (hstep : ∀ s a, inv s → inv (step s a)) (s : σ) (hs : inv s) (acts : List α) :
    inv (run step s acts) := by
  induction acts generalizing s with
  | nil => exact hs
  | cons a acts ih => exact ih (step s a) (hstep s a hs)

/-- A simulation: when every concrete action from related states is matched
by a list of abstract actions, every concrete run is matched by an abstract
one that ends in a related state. -/
theorem run_simulation {τ : Type w} {β : Type x} (step : σ → α → σ) (astep : τ → β → τ)
    (rel : σ → τ → Prop)
    (hstep : ∀ s t a, rel s t → ∃ bs : List β, rel (step s a) (run astep t bs))
    (s : σ) (t : τ) (h : rel s t) (acts : List α) :
    ∃ bs : List β, rel (run step s acts) (run astep t bs) := by
  induction acts generalizing s t with
  | nil => exact ⟨[], h⟩
  | cons a acts ih =>
      rcases hstep s t a h with ⟨bs, hbs⟩
      rcases ih (step s a) (run astep t bs) hbs with ⟨cs, hcs⟩
      refine ⟨bs ++ cs, ?_⟩
      rw [run_append]
      exact hcs

end Carwatch.Lib
