import Mathlib.Data.List.Induction

/-!
# Carwatch.Lib.Hoare — rules for programs that can stop with an error

A program of `EStateM` returns a value or stops with an error, and leaves a
state either way. A triple says what holds in both cases.

* `Triple P x Q E` — from `P`, `x` returns with `Q` or stops with `E`;
* `Triple.bind`, `Triple.get_bind`, `Triple.ite`, … — one rule for each way to build
  a program;
* `Triple.foldlM`, `Triple.forM` — an invariant that speaks of the elements
  already visited; `Triple.foldlM_range` — of how many there are.
-/

namespace Carwatch.Lib

universe u

variable {ε σ α β : Type u}

/-- From every state with `P`, the program returns with `Q` or stops with `E`. -/
def Triple (P : σ → Prop) (x : EStateM ε σ α) (Q : α → σ → Prop) (E : ε → σ → Prop) : Prop :=
  ∀ s, P s → match x s with
    | .ok a s' => Q a s'
    | .error e s' => E e s'

namespace Triple

variable {P P' : σ → Prop} {Q Q' : α → σ → Prop} {R : β → σ → Prop} {E E' : ε → σ → Prop}

theorem pure {a : α} (h : ∀ s, P s → Q a s) : Triple (ε := ε) P (pure a) Q E := h

theorem throw {e : ε} (h : ∀ s, P s → E e s) : Triple (σ := σ) P (throw e) Q E := h

/-- A program that looks at the state first. -/
theorem get_bind {f : σ → EStateM ε σ β} (h : ∀ s, P s → Triple (· = s) (f s) R E) :
    Triple P (get >>= f) R E := fun s hs => h s hs s rfl

theorem modify {f : σ → σ} {Q : PUnit → σ → Prop} (h : ∀ s, P s → Q ⟨⟩ (f s)) :
    Triple (ε := ε) P (modify f) Q E := h

/-- Two programs in sequence, with `Q` between them. -/
theorem bind {x : EStateM ε σ α} {f : α → EStateM ε σ β} (hx : Triple P x Q E)
    (hf : ∀ a, Triple (Q a) (f a) R E) : Triple P (x >>= f) R E := by
  intro s hs
  have hfirst := hx s hs
  show match EStateM.bind x f s with
    | .ok b s' => R b s'
    | .error e s' => E e s'
  unfold EStateM.bind
  cases hrun : x s with
  | ok a s' =>
      rw [hrun] at hfirst
      exact hf a s' hfirst
  | error e s' =>
      rw [hrun] at hfirst
      exact hfirst

theorem ite {c : Prop} [Decidable c] {x y : EStateM ε σ α}
    (hx : c → Triple P x Q E) (hy : ¬c → Triple P y Q E) :
    Triple P (if c then x else y) Q E := by
  split_ifs with hc
  · exact hx hc
  · exact hy hc

/-- The rule of consequence. -/
theorem conseq {x : EStateM ε σ α} (h : Triple P' x Q' E') (hP : ∀ s, P s → P' s)
    (hQ : ∀ a s, Q' a s → Q a s) (hE : ∀ e s, E' e s → E e s) : Triple P x Q E := by
  intro s hs
  have hrun := h s (hP s hs)
  cases hx : x s with
  | ok a s' =>
      rw [hx] at hrun
      exact hQ a s' hrun
  | error e s' =>
      rw [hx] at hrun
      exact hE e s' hrun

/-- A loop over a list that carries a value along: the invariant speaks of the
elements already visited. -/
theorem foldlM {γ : Type u} {I : List γ → β → σ → Prop} {f : β → γ → EStateM ε σ β} {l : List γ}
    (h : ∀ done x rest, l = done ++ x :: rest → ∀ b,
      Triple (I done b) (f b x) (I (done ++ [x])) E) (b : β) :
    Triple (I [] b) (l.foldlM f b) (I l) E := by
  have hrest : ∀ (rest done : List γ), l = done ++ rest → ∀ b,
      Triple (I done b) (rest.foldlM f b) (I l) E := by
    intro rest
    induction rest with
    | nil =>
        rintro done rfl b
        rw [List.foldlM_nil, List.append_nil]
        exact pure fun _ hs => hs
    | cons x rest ih =>
        intro done hl b
        rw [List.foldlM_cons]
        exact bind (h done x rest hl b) fun b' => ih (done ++ [x]) (by simp [hl]) b'
  exact hrest l [] rfl b

/-- A loop that counts. -/
theorem foldlM_range {ε σ β : Type} {E : ε → σ → Prop} {I : ℕ → β → σ → Prop}
    {f : β → ℕ → EStateM ε σ β} {n : ℕ}
    (h : ∀ k < n, ∀ b, Triple (I k b) (f b k) (I (k + 1)) E) (b : β) :
    Triple (I 0 b) ((List.range n).foldlM f b) (I n) E := by
  have hstep : ∀ done k rest, List.range n = done ++ k :: rest → ∀ b,
      Triple (I done.length b) (f b k) (I (done ++ [k]).length) E := by
    intro done k rest hsplit b
    have hlen := congrArg List.length hsplit
    rw [List.length_range, List.length_append, List.length_cons] at hlen
    have hget : (List.range n)[done.length]? = (done ++ k :: rest)[done.length]? := by rw [hsplit]
    rw [List.getElem?_append_right (Nat.le_refl done.length), Nat.sub_self,
      List.getElem?_cons_zero, List.getElem?_range (by omega), Option.some.injEq] at hget
    rw [List.length_append, List.length_singleton, ← hget]
    exact h done.length (by omega) b
  have hloop := foldlM (I := fun done => I done.length) hstep b
  rw [List.length_range] at hloop
  exact hloop

/-- A loop over a list. -/
theorem forM {γ : Type u} {I : List γ → σ → Prop} {f : γ → EStateM ε σ PUnit} {l : List γ}
    (h : ∀ done x rest, l = done ++ x :: rest →
      Triple (I done) (f x) (fun _ => I (done ++ [x])) E) :
    Triple (I []) (l.forM f) (fun _ => I l) E := by
  have hrest : ∀ (rest done : List γ), l = done ++ rest →
      Triple (I done) (rest.forM f) (fun _ => I l) E := by
    intro rest
    induction rest with
    | nil =>
        rintro done rfl
        rw [List.append_nil]
        exact pure fun _ hs => hs
    | cons x rest ih =>
        intro done hl
        exact bind (h done x rest hl) fun _ => ih (done ++ [x]) (by simp [hl])
  exact hrest l [] rfl

end Triple

end Carwatch.Lib
