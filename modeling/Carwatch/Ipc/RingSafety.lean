import Carwatch.Ipc.Ring

/-!
# Carwatch.Ipc.RingSafety — the ring is a bounded queue

Producer and consumer each act on a copy of the other's counter that may be
out of date. What saves them is that a counter only grows: a stale `tail`
makes the ring look fuller than it is, a stale `head` makes it look emptier.

* **Words and positions**: `ofNat_sub_ofNat`, `slotIndex_ofNat`; slots at
  most 4096 apart share no cell (`slotIndex_ne`).
* **Invariant**: `RingSys.Inv` says what `head`, `tail`, the two refusal
  counters and the unread slots are in terms of the calls that returned, and
  what each program counter knows.
* **Results**: `ring_lossless`, and the refinement `ring_refines_fifo`.
-/

namespace Carwatch.Ipc

open Carwatch.Lib Carwatch.Store

/-! ## Words and positions -/

theorem ofNat_sub_ofNat {a b : ℕ} (h : b ≤ a) :
    UInt64.ofNat a - UInt64.ofNat b = UInt64.ofNat (a - b) := by
  apply UInt64.toNat.inj
  rw [UInt64.toNat_sub, UInt64.toNat_ofNat', UInt64.toNat_ofNat', UInt64.toNat_ofNat']
  omega

theorem toNat_ofNat_of_le {n : ℕ} (h : n ≤ ringCapacity) : (UInt64.ofNat n).toNat = n := by
  rw [UInt64.toNat_ofNat']
  exact Nat.mod_eq_of_lt (by unfold ringCapacity at h; omega)

/-- Two counters at most a ring apart are subtracted without a wrap. -/
theorem toNat_ofNat_sub_ofNat {a b : ℕ} (h : b ≤ a) (hcap : a ≤ b + ringCapacity) :
    (UInt64.ofNat a - UInt64.ofNat b).toNat = a - b := by
  rw [ofNat_sub_ofNat h]
  exact toNat_ofNat_of_le (by omega)

theorem ofNat_add_one (n : ℕ) : UInt64.ofNat n + 1 = UInt64.ofNat (n + 1) :=
  (UInt64.ofNat_add n 1).symm

theorem ofNat_add_toNat (n : ℕ) (i : UInt64) :
    UInt64.ofNat n + i = UInt64.ofNat (n + i.toNat) := by
  rw [UInt64.ofNat_add, UInt64.ofNat_toNat]

/-- Position `k` lives in cell `k mod 4096`. -/
theorem slotIndex_ofNat (k : ℕ) : (slotIndex (UInt64.ofNat k)).val = k % ringCapacity := by
  show (UInt64.ofNat k &&& mask).toNat = k % ringCapacity
  rw [UInt64.toNat_and, UInt64.toNat_ofNat']
  have hmask : mask.toNat = 2 ^ 12 - 1 := by decide
  rw [hmask, Nat.and_two_pow_sub_one_eq_mod]
  unfold ringCapacity
  omega

/-- Distinct positions less than a ring apart have distinct cells. -/
theorem slotIndex_ne {j k : ℕ} (h : j < k) (hcap : k < j + ringCapacity) :
    slotIndex (UInt64.ofNat j) ≠ slotIndex (UInt64.ofNat k) := by
  intro e
  have hval := congrArg Fin.val e
  rw [slotIndex_ofNat, slotIndex_ofNat] at hval
  unfold ringCapacity at hval hcap
  omega

/-! ## Numbered slots -/

/-- The slots as the ring holds them: each numbered with its position. -/
def numbered (l : List Slot) : List Slot := l.mapIdx fun k s => { s with seq := UInt64.ofNat k }

@[simp] theorem numbered_length (l : List Slot) : (numbered l).length = l.length := by
  simp [numbered]

theorem numbered_append (l : List Slot) (s : Slot) :
    numbered (l ++ [s]) = numbered l ++ [{ s with seq := UInt64.ofNat l.length }] := by
  simp [numbered, List.mapIdx_append]

theorem numbered_getElem? (l : List Slot) (k : ℕ) :
    (numbered l)[k]? = l[k]?.map fun s => { s with seq := UInt64.ofNat k } := by
  simp [numbered]

/-- More pushes do not change what the earlier positions hold. -/
theorem numbered_getElem?_append {l : List Slot} {k : ℕ} {x : Slot} (s : Slot)
    (h : (numbered l)[k]? = some x) : (numbered (l ++ [s]))[k]? = some x := by
  have hk := (List.getElem?_eq_some_iff.mp h).1
  rw [numbered_append, List.getElem?_append_left hk]
  exact h

/-! ## The invariant -/

/-- Calls refused for want of a valid `src`. -/
def RingSys.rejections (t : RingSys) : List (Slot × Bool) :=
  t.returned.filter fun c => !c.2 && !srcIsValid c.1.src

/-- Calls refused because the ring looked full. -/
def RingSys.refusals (t : RingSys) : List (Slot × Bool) :=
  t.returned.filter fun c => !c.2 && srcIsValid c.1.src

/-- What the producer knows at each point of `ring_push`. -/
def RingSys.ProdKnows (t : RingSys) : Prop :=
  match t.prod with
  | .idle => True
  | .reject inp => srcIsValid inp.src = false
  | .loadHead inp => srcIsValid inp.src = true
  | .overrun inp => srcIsValid inp.src = true
  | .loadTail inp head =>
      srcIsValid inp.src = true ∧ head = UInt64.ofNat t.accepted.length
  | .copy inp head =>
      srcIsValid inp.src = true ∧ head = UInt64.ofNat t.accepted.length ∧
        t.accepted.length < t.consumed.length + ringCapacity
  | .number inp head =>
      srcIsValid inp.src = true ∧ head = UInt64.ofNat t.accepted.length ∧
        t.accepted.length < t.consumed.length + ringCapacity ∧
        t.ring.slot (slotIndex head) = inp
  | .publish inp head =>
      srcIsValid inp.src = true ∧ head = UInt64.ofNat t.accepted.length ∧
        t.accepted.length < t.consumed.length + ringCapacity ∧
        t.ring.slot (slotIndex head) = { inp with seq := head }

/-- What the consumer knows at each point of its functions. -/
def RingSys.ConsKnows (t : RingSys) : Prop :=
  match t.cons with
  | .idle => True
  | .peekTail _ _ => True
  | .relTail _ => True
  | .peekHead _ _ tail => tail = UInt64.ofNat t.consumed.length
  | .relHead _ tail => tail = UInt64.ofNat t.consumed.length
  | .peekCopy _ i tail =>
      tail = UInt64.ofNat t.consumed.length ∧ t.consumed.length + i.toNat < t.accepted.length
  | .relStore n tail =>
      tail = UInt64.ofNat t.consumed.length ∧ t.consumed.length + n.toNat ≤ t.accepted.length

/-- What the observer holds between its two loads. -/
def RingSys.ObsKnows (t : RingSys) : Prop :=
  match t.obs with
  | .idle => True
  | .loadHead tail taken pushed =>
      tail = UInt64.ofNat taken ∧ taken ≤ pushed ∧ pushed ≤ t.accepted.length

/-- The counters and the slots, in terms of the calls that returned. -/
structure RingSys.Shared (t : RingSys) : Prop where
  head : t.ring.head = UInt64.ofNat t.accepted.length
  tail : t.ring.tail = UInt64.ofNat t.consumed.length
  overruns : t.ring.overruns = UInt64.ofNat t.refusals.length
  rejected : t.ring.rejected = UInt64.ofNat t.rejections.length
  le : t.consumed.length ≤ t.accepted.length
  bounded : t.accepted.length ≤ t.consumed.length + ringCapacity
  /-- Every unread slot is in its cell. -/
  unread : ∀ k, t.consumed.length ≤ k → k < t.accepted.length →
    (numbered t.accepted)[k]? = some (t.ring.slot (slotIndex (UInt64.ofNat k)))
  consumed : t.consumed <+: numbered t.accepted
  peeked : ∀ p ∈ t.peeked, (numbered t.accepted)[p.1]? = some p.2
  valid : ∀ c ∈ t.returned, c.2 = true → srcIsValid c.1.src = true

/-- The invariant of the ring. -/
structure RingSys.Inv (t : RingSys) : Prop where
  shared : t.Shared
  prod : t.ProdKnows
  cons : t.ConsKnows
  obs : t.ObsKnows

theorem inv_init : RingSys.init.Inv := by
  refine ⟨?_, trivial, trivial, trivial⟩
  constructor <;> simp [RingSys.init, ringInit, RingSys.accepted, RingSys.refusals,
    RingSys.rejections]

/-- A step that leaves the ring and the history alone. -/
theorem RingSys.Shared.of_eq {t t' : RingSys} (h : t.Shared) (hring : t'.ring = t.ring)
    (hret : t'.returned = t.returned) (hcons : t'.consumed = t.consumed)
    (hpeek : t'.peeked = t.peeked) : t'.Shared := by
  rcases t with ⟨ring, prod, cons, obs, returned, consumed, peeked, depths⟩
  rcases t' with ⟨ring', prod', cons', obs', returned', consumed', peeked', depths'⟩
  simp only at hring hret hcons hpeek
  subst hring hret hcons hpeek
  exact ⟨h.head, h.tail, h.overruns, h.rejected, h.le, h.bounded, h.unread, h.consumed,
    h.peeked, h.valid⟩

/-! ## The producer's steps -/

theorem accepted_append_true (t : RingSys) (inp : Slot) {r : RingSys}
    (h : r.returned = t.returned ++ [(inp, true)]) : r.accepted = t.accepted ++ [inp] := by
  simp [RingSys.accepted, h]

theorem accepted_append_false (t : RingSys) (inp : Slot) {r : RingSys}
    (h : r.returned = t.returned ++ [(inp, false)]) : r.accepted = t.accepted := by
  simp [RingSys.accepted, h]

/-- A refused push is counted by the one counter that names its reason. -/
theorem RingSys.Inv.refuse {t : RingSys} (h : t.Inv) (inp : Slot) {ring : Ring}
    (hhead : ring.head = t.ring.head) (htail : ring.tail = t.ring.tail)
    (hslot : ring.slot = t.ring.slot)
    (hover : ring.overruns = t.ring.overruns + if srcIsValid inp.src then 1 else 0)
    (hrej : ring.rejected = t.ring.rejected + if srcIsValid inp.src then 0 else 1) :
    ({ t with ring := ring }.returns inp false).Inv := by
  have hs := h.shared
  have hacc : ({ t with ring := ring }.returns inp false).accepted = t.accepted :=
    accepted_append_false t inp rfl
  refine ⟨?_, trivial, ?_, ?_⟩
  · constructor
    · rw [hacc]
      exact hhead.trans hs.head
    · exact htail.trans hs.tail
    · show ring.overruns = UInt64.ofNat (List.filter _ (t.returned ++ [(inp, false)])).length
      rw [hover, hs.overruns, List.filter_append, List.length_append, UInt64.ofNat_add]
      cases hv : srcIsValid inp.src <;> simp [RingSys.refusals, hv]
    · show ring.rejected = UInt64.ofNat (List.filter _ (t.returned ++ [(inp, false)])).length
      rw [hrej, hs.rejected, List.filter_append, List.length_append, UInt64.ofNat_add]
      cases hv : srcIsValid inp.src <;> simp [RingSys.rejections, hv]
    · rw [hacc]
      exact hs.le
    · rw [hacc]
      exact hs.bounded
    · rw [hacc]
      show ∀ k, t.consumed.length ≤ k → k < t.accepted.length → _ = some (ring.slot _)
      rw [hslot]
      exact hs.unread
    · rw [hacc]
      exact hs.consumed
    · rw [hacc]
      exact hs.peeked
    -- the call that is refused returned false
    · intro c hc htrue
      rcases List.mem_append.mp hc with hold | hnew
      · exact hs.valid c hold htrue
      · rw [List.mem_singleton.mp hnew] at htrue
        cases htrue
  · have hk := h.cons
    unfold RingSys.ConsKnows at hk ⊢
    rw [hacc]
    exact hk
  · have hk := h.obs
    unfold RingSys.ObsKnows at hk ⊢
    rw [hacc]
    exact hk

/-- The cell of the slot being written holds no unread slot. -/
theorem RingSys.unread_ne {t : RingSys}
    (hroom : t.accepted.length < t.consumed.length + ringCapacity) {k : ℕ}
    (hk : t.consumed.length ≤ k) (hk' : k < t.accepted.length) :
    slotIndex (UInt64.ofNat k) ≠ slotIndex (UInt64.ofNat t.accepted.length) :=
  slotIndex_ne hk' (by omega)

/-- Writing the next free slot disturbs nothing that is unread. -/
theorem RingSys.Shared.write {t : RingSys} (h : t.Shared) (s : Slot) (pc : PushPc)
    (hroom : t.accepted.length < t.consumed.length + ringCapacity) :
    { t with
      ring :=
        { t.ring with
          slot := Function.update t.ring.slot (slotIndex (UInt64.ofNat t.accepted.length)) s }
      prod := pc : RingSys }.Shared where
  head := h.head
  tail := h.tail
  overruns := h.overruns
  rejected := h.rejected
  le := h.le
  bounded := h.bounded
  unread := by
    intro k hk hk'
    refine (h.unread k hk hk').trans (congrArg some ?_)
    exact (Function.update_of_ne (RingSys.unread_ne hroom hk hk') _ _).symm
  consumed := h.consumed
  peeked := h.peeked
  valid := h.valid

/-- Publishing makes the slot just written the youngest unread one. -/
theorem RingSys.Inv.publish {t : RingSys} (h : t.Inv) {inp : Slot} {head : UInt64}
    (hpc : t.prod = .publish inp head) :
    ({ t with ring := { t.ring with head := head + 1 } }.returns inp true).Inv := by
  have hs := h.shared
  have hk := h.prod
  unfold RingSys.ProdKnows at hk
  rw [hpc] at hk
  rcases hk with ⟨hsrc, rfl, hroom, hslot⟩
  set t' := { t with ring := { t.ring with head := UInt64.ofNat t.accepted.length + 1 } }.returns
    inp true with ht'
  have hacc : t'.accepted = t.accepted ++ [inp] := accepted_append_true t inp rfl
  have hlen : t'.accepted.length = t.accepted.length + 1 := by
    rw [hacc, List.length_append, List.length_singleton]
  refine ⟨?_, trivial, ?_, ?_⟩
  · constructor
    · rw [hlen]
      exact ofNat_add_one _
    · exact hs.tail
    · rw [show t'.ring.overruns = t.ring.overruns from rfl, hs.overruns]
      simp [RingSys.refusals, ht', RingSys.returns]
    · rw [show t'.ring.rejected = t.ring.rejected from rfl, hs.rejected]
      simp [RingSys.rejections, ht', RingSys.returns]
    · rw [hlen]
      exact Nat.le_succ_of_le hs.le
    · rw [hlen]
      exact hroom
    · intro k hle hlt
      rw [hlen] at hlt
      rw [hacc]
      rcases Nat.lt_succ_iff_lt_or_eq.mp hlt with hold | hnew
      · exact numbered_getElem?_append inp (hs.unread k hle hold)
      · -- the new slot: it was numbered with `head` before it was published
        rw [hnew, numbered_append]
        rw [List.getElem?_append_right (by rw [numbered_length]), numbered_length, Nat.sub_self]
        exact congrArg some hslot.symm
    · rw [hacc, numbered_append]
      exact hs.consumed.trans (List.prefix_append _ _)
    · intro p hp
      rw [hacc]
      exact numbered_getElem?_append inp (hs.peeked p hp)
    · intro c hc htrue
      rcases List.mem_append.mp hc with hold | hnew
      · exact hs.valid c hold htrue
      · rw [List.mem_singleton.mp hnew]
        exact hsrc
  · have hc := h.cons
    unfold RingSys.ConsKnows at hc ⊢
    rw [show t'.cons = t.cons from rfl, show t'.consumed = t.consumed from rfl, hlen]
    -- the consumer's copy of `head` only gets older
    cases hp : t.cons <;> simp only [hp] at hc ⊢ <;> try exact hc
    · exact ⟨hc.1, Nat.lt_succ_of_lt hc.2⟩
    · exact ⟨hc.1, Nat.le_succ_of_le hc.2⟩
  · have ho := h.obs
    unfold RingSys.ObsKnows at ho ⊢
    rw [show t'.obs = t.obs from rfl, hlen]
    cases hp : t.obs with
    | idle => trivial
    | loadHead tail taken pushed =>
        rw [hp] at ho
        exact ⟨ho.1, ho.2.1, Nat.le_succ_of_le ho.2.2⟩

theorem RingSys.Inv.callPush {t : RingSys} (h : t.Inv) (inp : Slot) : (t.callPush inp).Inv := by
  unfold RingSys.callPush
  split
  · refine ⟨h.shared.of_eq rfl rfl rfl rfl, ?_, h.cons, h.obs⟩
    cases hv : srcIsValid inp.src
    · exact hv
    · exact hv
  · exact h

theorem RingSys.Inv.pushStep {t : RingSys} (h : t.Inv) : t.pushStep.Inv := by
  have hs := h.shared
  have hk := h.prod
  unfold RingSys.ProdKnows at hk
  unfold RingSys.pushStep
  cases hp : t.prod with
  | idle => exact h
  | reject inp =>
      rw [hp] at hk
      have hv : srcIsValid inp.src = false := hk
      exact h.refuse inp rfl rfl rfl (by simp [hv]) (by simp [hv])
  | loadHead inp =>
      rw [hp] at hk
      exact ⟨hs.of_eq rfl rfl rfl rfl, ⟨hk, hs.head⟩, h.cons, h.obs⟩
  | loadTail inp head =>
      rw [hp] at hk
      rcases hk with ⟨hsrc, rfl⟩
      refine ⟨hs.of_eq rfl rfl rfl rfl, ?_, h.cons, h.obs⟩
      have hdiff := toNat_ofNat_sub_ofNat hs.le hs.bounded
      show RingSys.ProdKnows { t with prod := _ }
      by_cases hfull : UInt64.ofNat ringCapacity ≤ UInt64.ofNat t.accepted.length - t.ring.tail
      · rw [if_pos hfull]
        exact hsrc
      · rw [if_neg hfull]
        refine ⟨hsrc, rfl, ?_⟩
        -- room was seen with this `tail`, and the tail only grows
        rw [hs.tail, UInt64.le_iff_toNat_le, hdiff, toNat_ofNat_of_le (Nat.le_refl _)] at hfull
        show t.accepted.length < t.consumed.length + ringCapacity
        omega
  | overrun inp =>
      rw [hp] at hk
      have hv : srcIsValid inp.src = true := hk
      exact h.refuse inp rfl rfl rfl (by simp [hv]) (by simp [hv])
  | copy inp head =>
      rw [hp] at hk
      rcases hk with ⟨hsrc, rfl, hroom⟩
      refine ⟨hs.write inp _ hroom, ⟨hsrc, rfl, hroom, ?_⟩, h.cons, h.obs⟩
      exact Function.update_self _ _ _
  | number inp head =>
      rw [hp] at hk
      rcases hk with ⟨hsrc, rfl, hroom, hslot⟩
      refine ⟨hs.write _ _ hroom, ⟨hsrc, rfl, hroom, ?_⟩, h.cons, h.obs⟩
      show Function.update _ _ _ _ = _
      rw [Function.update_self, hslot]
  | publish inp head => exact h.publish hp

/-! ## The consumer's and the observer's steps -/

/-- What a release takes is what was accepted there. -/
theorem RingSys.Shared.window_eq {t : RingSys} (h : t.Shared) {n : UInt64}
    (hn : t.consumed.length + n.toNat ≤ t.accepted.length) :
    t.ring.window (UInt64.ofNat t.consumed.length) n =
      ((numbered t.accepted).drop t.consumed.length).take n.toNat := by
  apply List.ext_getElem?
  intro j
  rw [List.getElem?_take, List.getElem?_drop]
  by_cases hj : j < n.toNat
  · rw [if_pos hj, h.unread _ (Nat.le_add_right _ _) (by omega)]
    unfold Ring.window
    rw [List.getElem?_map, List.getElem?_range hj, UInt64.ofNat_add]
    rfl
  · rw [if_neg hj, List.getElem?_eq_none]
    simpa [Ring.window] using hj

/-- Releasing moves the boundary between what was consumed and what waits. -/
theorem RingSys.Inv.relStore {t : RingSys} (h : t.Inv) {n tail : UInt64}
    (hpc : t.cons = .relStore n tail) :
    { t with
      ring := { t.ring with tail := tail + n }
      cons := .idle
      consumed := t.consumed ++ t.ring.window tail n : RingSys }.Inv := by
  have hs := h.shared
  have hk := h.cons
  unfold RingSys.ConsKnows at hk
  rw [hpc] at hk
  rcases hk with ⟨rfl, hn⟩
  have hwin := hs.window_eq hn
  have hlen : (t.consumed ++ t.ring.window (UInt64.ofNat t.consumed.length) n).length =
      t.consumed.length + n.toNat := by
    simp [Ring.window]
  refine ⟨?_, ?_, trivial, h.obs⟩
  · constructor
    · exact hs.head
    · show UInt64.ofNat t.consumed.length + n = UInt64.ofNat (List.length (_ ++ _))
      rw [hlen, ofNat_add_toNat]
    · exact hs.overruns
    · exact hs.rejected
    · show List.length (_ ++ _) ≤ t.accepted.length
      rw [hlen]
      exact hn
    · show t.accepted.length ≤ List.length (_ ++ _) + ringCapacity
      have := hs.bounded
      rw [hlen]
      omega
    · intro k hle hlt
      refine hs.unread k ?_ hlt
      have hle' : t.consumed.length + n.toNat ≤ k := hlen ▸ hle
      omega
    · show t.consumed ++ _ <+: numbered t.accepted
      rw [hwin]
      nth_rewrite 1 [List.prefix_iff_eq_take.mp hs.consumed]
      rw [← List.take_add]
      exact List.take_prefix _ _
    · exact hs.peeked
    · exact hs.valid
  · -- more room than the producer saw
    have hp := h.prod
    unfold RingSys.ProdKnows at hp ⊢
    cases hpp : t.prod <;> simp only [hpp, hlen] at hp ⊢ <;> try exact hp
    · exact ⟨hp.1, hp.2.1, Nat.lt_of_lt_of_le hp.2.2 (by omega)⟩
    · exact ⟨hp.1, hp.2.1, Nat.lt_of_lt_of_le hp.2.2.1 (by omega), hp.2.2.2⟩
    · exact ⟨hp.1, hp.2.1, Nat.lt_of_lt_of_le hp.2.2.1 (by omega), hp.2.2.2⟩

theorem RingSys.Inv.callCons {t : RingSys} (h : t.Inv) {pc : ConsPc}
    (hpc : { t with cons := pc : RingSys }.ConsKnows) : (t.callCons pc).Inv := by
  unfold RingSys.callCons
  split
  · exact ⟨h.shared.of_eq rfl rfl rfl rfl, h.prod, hpc, h.obs⟩
  · exact h

theorem RingSys.Inv.consStep {t : RingSys} (h : t.Inv) : t.consStep.Inv := by
  have hs := h.shared
  have hk := h.cons
  have hdiff := toNat_ofNat_sub_ofNat hs.le hs.bounded
  unfold RingSys.ConsKnows at hk
  unfold RingSys.consStep
  cases hp : t.cons with
  | idle => exact h
  | peekTail pop i => exact ⟨hs.of_eq rfl rfl rfl rfl, h.prod, hs.tail, h.obs⟩
  | peekHead pop i tail =>
      rw [hp] at hk
      have htail : tail = UInt64.ofNat t.consumed.length := hk
      subst htail
      refine ⟨hs.of_eq rfl rfl rfl rfl, h.prod, ?_, h.obs⟩
      show RingSys.ConsKnows { t with cons := _ }
      by_cases hshort : t.ring.head - UInt64.ofNat t.consumed.length ≤ i
      · rw [if_pos hshort]
        trivial
      · rw [if_neg hshort]
        refine ⟨rfl, ?_⟩
        rw [hs.head, UInt64.le_iff_toNat_le, hdiff] at hshort
        show t.consumed.length + i.toNat < t.accepted.length
        omega
  | peekCopy pop i tail =>
      rw [hp] at hk
      rcases hk with ⟨rfl, hi⟩
      refine ⟨?_, h.prod, ?_, h.obs⟩
      · refine ⟨hs.head, hs.tail, hs.overruns, hs.rejected, hs.le, hs.bounded, hs.unread,
          hs.consumed, ?_, hs.valid⟩
        intro p hp'
        rcases List.mem_append.mp hp' with hold | hnew
        · exact hs.peeked p hold
        -- what it copies is unread, and the producer does not touch it
        · rw [List.mem_singleton.mp hnew, ofNat_add_toNat]
          exact hs.unread _ (Nat.le_add_right _ _) hi
      · show RingSys.ConsKnows { t with cons := if pop = true then _ else _, peeked := _ }
        cases pop <;> trivial
  | relTail n => exact ⟨hs.of_eq rfl rfl rfl rfl, h.prod, hs.tail, h.obs⟩
  | relHead n tail =>
      rw [hp] at hk
      have htail : tail = UInt64.ofNat t.consumed.length := hk
      subst htail
      refine ⟨hs.of_eq rfl rfl rfl rfl, h.prod, ?_, h.obs⟩
      show RingSys.ConsKnows { t with cons := _ }
      by_cases hshort : t.ring.head - UInt64.ofNat t.consumed.length < n
      · rw [if_pos hshort]
        trivial
      · rw [if_neg hshort]
        refine ⟨rfl, ?_⟩
        rw [hs.head, UInt64.lt_iff_toNat_lt, hdiff] at hshort
        show t.consumed.length + n.toNat ≤ t.accepted.length
        have := hs.le
        omega
  | relStore n tail => exact h.relStore hp

theorem RingSys.Inv.obsStep {t : RingSys} (h : t.Inv) : t.obsStep.Inv := by
  unfold RingSys.obsStep
  split
  · exact ⟨h.shared.of_eq rfl rfl rfl rfl, h.prod, h.cons, h.shared.tail, h.shared.le,
      Nat.le_refl _⟩
  · exact ⟨h.shared.of_eq rfl rfl rfl rfl, h.prod, h.cons, trivial⟩

/-- Every step of either side, of the observer, and every death, keeps the
invariant. -/
theorem RingSys.Inv.step {t : RingSys} (h : t.Inv) (a : RingAct) : (t.step a).Inv := by
  cases a with
  | push inp => exact h.callPush inp
  | produce => exact h.pushStep
  | crash => exact ⟨h.shared.of_eq rfl rfl rfl rfl, trivial, h.cons, h.obs⟩
  | peek i => exact h.callCons trivial
  | release n => exact h.callCons trivial
  | pop => exact h.callCons trivial
  | consume => exact h.consStep
  | kill => exact ⟨h.shared.of_eq rfl rfl rfl rfl, h.prod, trivial, h.obs⟩
  | observe => exact h.obsStep

theorem RingSys.Inv.reach {t : RingSys} (h : t.Inv) (acts : List RingAct) :
    (run RingSys.step t acts).Inv :=
  run_invariant RingSys.step RingSys.Inv (fun _ a h => h.step a) t h acts

/-! ## Nothing lost, repeated, reordered or overwritten -/

/-- What a ring owes both its sides. -/
structure RingSys.Lossless (t : RingSys) : Prop where
  /-- `head` counts the accepted pushes and `tail` the consumed slots. -/
  head : t.ring.head = UInt64.ofNat t.accepted.length
  tail : t.ring.tail = UInt64.ofNat t.consumed.length
  /-- Between none and `RING_CAPACITY` slots are unread. -/
  depth : t.consumed.length + (t.ring.head - t.ring.tail).toNat = t.accepted.length
  depth_le : (t.ring.head - t.ring.tail).toNat ≤ ringCapacity
  /-- What `ring_peek` copied out is the push accepted at that position, with
  the position as its `seq`. -/
  peeked : ∀ p ∈ t.peeked, ∃ s, t.accepted[p.1]? = some s ∧
    p.2 = { s with seq := UInt64.ofNat p.1 }
  /-- No step writes a slot of `[tail, head)`. -/
  unread : ∀ (a : RingAct) (j : UInt64), j < t.ring.head - t.ring.tail →
    t.writes a ≠ some (slotIndex (t.ring.tail + j))
  /-- What was consumed is a prefix of what was accepted, in its order. -/
  consumed : t.consumed <+: numbered t.accepted
  /-- The two refusal counters. -/
  overruns : t.ring.overruns = UInt64.ofNat t.refusals.length
  rejected : t.ring.rejected = UInt64.ofNat t.rejections.length
  /-- Every completed push is in exactly one of the three counts. -/
  counted : t.accepted.length + t.refusals.length + t.rejections.length = t.returned.length

/-- Only a producer about to write or number its slot writes one. -/
theorem RingSys.Inv.writes {t : RingSys} (h : t.Inv) {a : RingAct} {c : Fin ringCapacity}
    (hw : t.writes a = some c) :
    c = slotIndex (UInt64.ofNat t.accepted.length) ∧
      t.accepted.length < t.consumed.length + ringCapacity := by
  have hk := h.prod
  cases a with
  | produce =>
      unfold RingSys.writes at hw
      unfold RingSys.ProdKnows at hk
      cases hp : t.prod with
      | copy inp head =>
          simp only [hp] at hw hk
          rcases hk with ⟨-, rfl, hroom⟩
          exact ⟨(Option.some.inj hw).symm, hroom⟩
      | number inp head =>
          simp only [hp] at hw hk
          rcases hk with ⟨-, rfl, hroom, -⟩
          exact ⟨(Option.some.inj hw).symm, hroom⟩
      | idle | reject | loadHead | loadTail | overrun | publish => simp [hp] at hw
  | push inp | crash | peek i | release n | pop | consume | kill | observe => cases hw

theorem counted_filter (l : List (Slot × Bool)) :
    ((l.filter (·.2)).map (·.1)).length +
      (l.filter fun c => !c.2 && srcIsValid c.1.src).length +
      (l.filter fun c => !c.2 && !srcIsValid c.1.src).length = l.length := by
  induction l with
  | nil => rfl
  | cons c l ih =>
      rcases c with ⟨s, ok⟩
      cases ok <;> cases hv : srcIsValid s.src <;>
        simp [hv] at ih ⊢ <;> omega

/-- For every interleaving of the steps of one producer, one consumer and an
observer, with deaths anywhere. -/
theorem ring_lossless (acts : List RingAct) :
    (run RingSys.step RingSys.init acts).Lossless := by
  have h := inv_init.reach acts
  generalize run RingSys.step RingSys.init acts = t at h
  have hs := h.shared
  -- the counters wrap, their distance does not
  have hdiff : (t.ring.head - t.ring.tail).toNat = t.accepted.length - t.consumed.length := by
    rw [hs.head, hs.tail]
    exact toNat_ofNat_sub_ofNat hs.le hs.bounded
  constructor
  · exact hs.head
  · exact hs.tail
  · rw [hdiff]
    exact Nat.add_sub_cancel' hs.le
  · rw [hdiff]
    have := hs.bounded
    omega
  · intro p hp
    have hget := hs.peeked p hp
    rw [numbered_getElem?] at hget
    rcases Option.map_eq_some_iff.mp hget with ⟨s, hs', heq⟩
    exact ⟨s, hs', heq.symm⟩
  · intro a j hj hw
    rcases h.writes hw with ⟨hcell, hroom⟩
    rw [UInt64.lt_iff_toNat_lt, hdiff] at hj
    rw [hs.tail, ofNat_add_toNat] at hcell
    exact RingSys.unread_ne hroom (Nat.le_add_right _ _) (by omega) hcell
  · exact hs.consumed
  · exact hs.overruns
  · exact hs.rejected
  · exact counted_filter t.returned

/-! ## Refinement -/

/-- What a step does to the history, seen from outside: nothing, one accepted
push, or one release. -/
theorem RingSys.Inv.step_history {t : RingSys} (h : t.Inv) (a : RingAct) :
    ((t.step a).accepted = t.accepted ∧ (t.step a).consumed = t.consumed) ∨
    (∃ inp, (t.step a).accepted = t.accepted ++ [inp] ∧ (t.step a).consumed = t.consumed ∧
      t.accepted.length < t.consumed.length + ringCapacity) ∨
    (∃ n, (t.step a).accepted = t.accepted ∧
      (t.step a).consumed.length = t.consumed.length + n ∧
      t.consumed.length + n ≤ t.accepted.length) := by
  cases a with
  | produce =>
      have hk := h.prod
      unfold RingSys.ProdKnows at hk
      simp only [RingSys.step, RingSys.pushStep]
      cases hp : t.prod with
      | idle | loadHead | loadTail | copy | number => exact .inl ⟨rfl, rfl⟩
      | reject inp | overrun inp => exact .inl ⟨accepted_append_false t inp rfl, rfl⟩
      | publish inp head =>
          rw [hp] at hk
          -- the producer saw room for one more before it published
          exact .inr (.inl ⟨inp, accepted_append_true t inp rfl, rfl, hk.2.2.1⟩)
  | consume =>
      have hk := h.cons
      unfold RingSys.ConsKnows at hk
      simp only [RingSys.step, RingSys.consStep]
      cases hp : t.cons with
      | idle | peekTail | peekHead | peekCopy | relTail | relHead => exact .inl ⟨rfl, rfl⟩
      | relStore n tail =>
          rw [hp] at hk
          refine .inr (.inr ⟨n.toNat, rfl, ?_, hk.2⟩)
          simp [Ring.window]
  | push inp =>
      simp only [RingSys.step, RingSys.callPush]
      split <;> exact .inl ⟨rfl, rfl⟩
  | peek i | release n | pop =>
      simp only [RingSys.step, RingSys.callCons]
      split <;> exact .inl ⟨rfl, rfl⟩
  | observe =>
      simp only [RingSys.step, RingSys.obsStep]
      split <;> exact .inl ⟨rfl, rfl⟩
  | crash | kill => exact .inl ⟨rfl, rfl⟩

/-- The queue a ring stands for. -/
def RingSys.Refines (t : RingSys) (q : Fifo Slot ringCapacity) : Prop :=
  t.Inv ∧ q.items = numbered t.accepted ∧ q.taken = t.consumed.length

/-- Every run of the ring is a run of the bounded queue: a push takes effect
where it stores `head`, a release where it stores `tail`. -/
theorem ring_refines_fifo (acts : List RingAct) :
    ∃ bs : List (Fifo.Act Slot),
      (run RingSys.step RingSys.init acts).Refines (run Fifo.step Fifo.empty bs) := by
  apply run_simulation RingSys.step Fifo.step RingSys.Refines
  · intro t q a hrel
    rcases hrel with ⟨hinv, hitems, htaken⟩
    rcases hinv.step_history a with ⟨hacc, hcons⟩ | ⟨inp, hacc, hcons, hroom⟩ | ⟨n, hacc, hcons, hn⟩
    · exact ⟨[], hinv.step a, by rw [hacc]; exact hitems, by rw [hcons]; exact htaken⟩
    · have hlt : q.items.length < q.taken + ringCapacity := by
        rw [hitems, htaken, numbered_length]
        exact hroom
      have hpush := Fifo.push_of_lt { inp with seq := UInt64.ofNat t.accepted.length } hlt
      refine ⟨[.push { inp with seq := UInt64.ofNat t.accepted.length }], hinv.step a, ?_, ?_⟩
      · rw [hacc, numbered_append, ← hitems]
        exact hpush.1
      · rw [hcons, ← htaken]
        exact hpush.2
    · have hle : q.taken + n ≤ q.items.length := by
        rw [hitems, htaken, numbered_length]
        exact hn
      have hrel := Fifo.release_of_le hle
      refine ⟨[.release n], hinv.step a, ?_, ?_⟩
      · rw [hacc, ← hitems]
        exact hrel.1
      · rw [hcons, ← htaken]
        exact hrel.2
  · exact ⟨inv_init, rfl, rfl⟩

end Carwatch.Ipc
