import Carwatch.Store.Handover

/-!
# Carwatch.Store.Window — what the open batch holds of each ring

A source fills the batch from its ring: of the slots between what is released
and what it has taken, the batch holds those that recovery did not find in the
log. `View.Shape` says so of every state the moves can reach, together with
who owns which ring and what is noted; it is what both of the questions about
whole runs, whether a slot is lost and whether one is logged twice, stand on.

* `Fill` — the batch and one source;
* `Names` — generations, names and attached rings;
* `Shape`, `shape_move` — the invariant.
-/

namespace Carwatch.Store

open Carwatch.Lib Carwatch.Ipc

/-! ## Phases -/

namespace Phase

/-- The batch is empty. -/
def Resting : Phase → Prop
  | .filling | .noting _ => False
  | _ => True

/-- The batch holds what the source has taken and did not skip. -/
def Fills : Phase → Ns → Prop
  | .opening _, _ | .filling, _ | .noting _, _ => True
  | .releasing false n, ns => ns.val < n
  | _, _ => False

/-- What the source has taken is about to be released. -/
def Releases : Phase → Ns → Prop
  | .releasing _ n, ns => n ≤ ns.val
  | _, _ => False

/-- The source has decided what to skip. -/
def Decided : Phase → Ns → Prop
  | .opening n, ns => ns.val < n
  | .filling, _ | .noting _, _ | .releasing _ _, _ => True
  | _, _ => False

/-- The source has noted how far the batch goes. -/
def Notes : Phase → Ns → Prop
  | .noting n, ns => ns.val < n
  | _, _ => False

theorem Quiet.resting {phase : Phase} (h : phase.Quiet) : phase.Resting := by
  cases phase with
  | opening n => trivial
  | closing => trivial
  | _ => exact h.elim

theorem Resting.not_notes {phase : Phase} (h : phase.Resting) (ns : Ns) : ¬ phase.Notes ns := by
  cases phase with
  | noting n => exact h.elim
  | _ => exact id

end Phase

/-- What a source decides to skip is what recovery found. -/
theorem Source.skips_decide (src : Source) (m : UInt64) (k : ℕ) :
    (src.decide (some m)).Skips k ↔ k ≤ m.toNat := by
  simp [Source.Skips, Source.decide]

/-- The decision touches nothing else. -/
structure Source.Same (src src' : Source) : Prop where
  ring : src'.ring = src.ring
  taken : src'.taken = src.taken
  added : src'.added = src.added
  lastSeq : src'.lastSeq = src.lastSeq

theorem Source.same_decide (src : Source) (found : Option UInt64) : src.Same (src.decide found) := by
  unfold Source.decide
  cases found with
  | none => exact ⟨rfl, rfl, rfl, rfl⟩
  | some m => exact ⟨rfl, rfl, rfl, rfl⟩

namespace View

variable {v v' : View} {ns : Ns} {g : UInt64} {k : ℕ}

/-! ## A source and the batch -/

/-- Recovery found the position `k` noted in the log. -/
def Found (v : View) (ns : Ns) (k : ℕ) : Prop := ∃ m, v.found ns = some m ∧ k ≤ m.toNat

/-- The batch holds what the source has taken and recovery did not find. -/
structure Fill (v : View) (ns : Ns) (g : UInt64) : Prop where
  window : (v.rings g).taken + (v.srcs ns).taken ≤ (v.rings g).items.length
  batch : ∀ k, (g, k) ∈ v.batch ↔ (v.rings g).taken ≤ k ∧
    k < (v.rings g).taken + (v.srcs ns).taken ∧ ¬ v.Found ns k
  added : (v.srcs ns).added = true ↔ ∃ k, (g, k) ∈ v.batch
  last : 0 < (v.srcs ns).taken →
    (v.srcs ns).lastSeq.toNat + 1 = (v.rings g).taken + (v.srcs ns).taken

/-- A source that has taken nothing. -/
theorem Fill.of_empty (htaken : (v.srcs ns).taken = 0) (hadded : (v.srcs ns).added = false)
    (hbatch : v.batch = []) : v.Fill ns g := by
  constructor
  · rw [htaken]
    exact (v.rings g).taken_le
  · intro k
    rw [hbatch, htaken]
    simp only [List.not_mem_nil, false_iff]
    omega
  · rw [hadded, hbatch]
    simp
  · intro hpos
    omega

/-- What does not touch a source and its ring. -/
theorem Fill.of_same (h : v.Fill ns g) (htail : (v'.rings g).taken = (v.rings g).taken)
    (hlen : (v.rings g).items.length ≤ (v'.rings g).items.length)
    (htaken : (v'.srcs ns).taken = (v.srcs ns).taken)
    (hadded : (v'.srcs ns).added = (v.srcs ns).added)
    (hlast : (v'.srcs ns).lastSeq = (v.srcs ns).lastSeq)
    (hbatch : ∀ k, (g, k) ∈ v'.batch ↔ (g, k) ∈ v.batch) (hfound : v'.found ns = v.found ns) :
    v'.Fill ns g := by
  have hsame : ∀ k, v'.Found ns k ↔ v.Found ns k := by
    intro k
    unfold Found
    rw [hfound]
  constructor
  · rw [htail, htaken]
    exact h.window.trans hlen
  · intro k
    rw [hbatch, htail, htaken, hsame]
    exact h.batch k
  · simp only [hadded, hbatch]
    exact h.added
  · rw [htail, htaken, hlast]
    exact h.last

/-! ## The invariant -/

/-- Generations, names and attached rings. -/
structure Names (v : View) : Prop where
  unmade : ∀ g k, v.owner g = none → (g, k) ∉ v.logged
  owned : ∀ ns g, v.current ns = some g → v.owner g = some ns
  attached : ∀ ns g, (v.srcs ns).ring = some g → v.owner g = some ns
  /-- A ring made after the one a source is attached to is not in the log. -/
  later : ∀ ns g g' k, (v.srcs ns).ring = some g → v.current ns = some g' → (g', k) ∈ v.logged →
    g' = g

/-- What holds between the rings, the sources and the batch. -/
structure Shape (v : View) : Prop where
  names : v.Names
  numbered : ∀ g k (slot : Slot), (v.rings g).items[k]? = some slot → slot.seq.toNat = k
  mine : ∀ g k, (g, k) ∈ v.batch → ∃ ns, (v.srcs ns).ring = some g
  resting : v.phase.Resting → v.batch = []
  noted : ∀ ns, v.phase.Notes ns → (v.srcs ns).added = true → v.note ns = some (v.srcs ns).lastSeq
  unnoted : ∀ ns, ¬ (v.phase.Notes ns ∧ (v.srcs ns).added = true) → v.note ns = none
  bare : ∀ ns, (v.srcs ns).ring = none → (v.srcs ns).added = false
  skips : ∀ ns k, (v.srcs ns).Skips k → v.Found ns k
  decided : ∀ ns g k, (v.srcs ns).ring = some g → v.phase.Decided ns → v.Found ns k →
    (v.srcs ns).Skips k
  fill : ∀ ns g, (v.srcs ns).ring = some g → v.phase.Fills ns → v.Fill ns g
  window : ∀ ns g, (v.srcs ns).ring = some g → v.phase.Releases ns →
    (v.rings g).taken + (v.srcs ns).taken ≤ (v.rings g).items.length

namespace Shape

/-- Two sources are attached to two rings. -/
theorem ns_eq (h : v.Shape) {ns' : Ns} (hring : (v.srcs ns).ring = some g)
    (hring' : (v.srcs ns').ring = some g) : ns' = ns := by
  have howner := h.names.attached ns g hring
  rw [h.names.attached ns' g hring'] at howner
  exact Option.some.inj howner

/-- A slot in the batch is a slot of the ring that its owner is attached to. -/
theorem ring_of_batch (h : v.Shape) (hbatch : (g, k) ∈ v.batch) (howner : v.owner g = some ns) :
    (v.srcs ns).ring = some g := by
  rcases h.mine g k hbatch with ⟨ns', hring⟩
  have howner' := h.names.attached ns' g hring
  rw [howner] at howner'
  rw [Option.some.inj howner']
  exact hring

theorem skips_iff (h : v.Shape) (hring : (v.srcs ns).ring = some g) (hdec : v.phase.Decided ns) :
    (v.srcs ns).Skips k ↔ v.Found ns k := by
  constructor
  · exact h.skips ns k
  · exact h.decided ns g k hring hdec

theorem note_of_resting (h : v.Shape) (hrest : v.phase.Resting) : v.note = fun _ => none := by
  funext ns
  exact h.unnoted ns fun hnotes => hrest.not_notes ns hnotes.1

/-- Without a batch there is nothing to settle. -/
theorem settle_eq (h : v.Shape) (hrest : v.phase.Resting) (durable : Bool) : v.settle durable = v := by
  have hbatch := h.resting hrest
  have hnote := h.note_of_resting hrest
  unfold settle
  cases v with
  | mk rings owner current srcs phase batch logged mark note found file =>
      dsimp only at hbatch hnote ⊢
      subst hbatch hnote
      simp

/-- A slot of the ring a name stands for, or a source is attached to: if the
batch holds it, the source has it from there. -/
theorem added_of_batch (h : v.Shape) (hfills : v.phase.Fills ns)
    (hns : v.current ns = some g ∨ (v.srcs ns).ring = some g) (hbatch : (g, k) ∈ v.batch) :
    (v.srcs ns).ring = some g ∧ (v.srcs ns).added = true := by
  have hring : (v.srcs ns).ring = some g := by
    rcases hns with hcurrent | hring
    · exact h.ring_of_batch hbatch (h.names.owned ns g hcurrent)
    · exact hring
  exact ⟨hring, (h.fill ns g hring hfills).added.mpr ⟨k, hbatch⟩⟩

/-- The position a commit leaves in the log, for a ring with a slot there: the
one before, or the last one the source has taken. -/
theorem settle_mark (h : v.Shape) (durable : Bool) (hphase : v.phase = .noting 2)
    (hns : v.current ns = some g ∨ (v.srcs ns).ring = some g)
    (hlogged : (g, k) ∈ (v.settle durable).logged) :
    ((g, k) ∈ v.logged ∧ (v.settle durable).mark ns = v.mark ns) ∨
    (durable = true ∧ (v.srcs ns).ring = some g ∧
      (v.settle durable).mark ns = some (v.srcs ns).lastSeq ∧ (∃ j, (g, j) ∈ v.batch) ∧
      (v.srcs ns).lastSeq.toNat + 1 = (v.rings g).taken + (v.srcs ns).taken) := by
  have hfills : v.phase.Fills ns := by
    rw [hphase]
    trivial
  have hnotes : v.phase.Notes ns := by
    rw [hphase]
    exact ns.isLt
  cases durable with
  | false => exact Or.inl ⟨by simpa [settle] using hlogged, rfl⟩
  | true =>
      by_cases hadded : (v.srcs ns).added = true
      · -- the source took slots of the ring into the batch
        have hring : (v.srcs ns).ring = some g := by
          cases hnone : (v.srcs ns).ring with
          | none =>
              have hbare := h.bare ns hnone
              rw [hadded] at hbare
              cases hbare
          | some g' =>
              rw [← hnone]
              rcases hns with hcurrent | hring
              · rcases List.mem_append.mp hlogged with hold | hnew
                · rw [h.names.later ns g' g k hnone hcurrent hold]
                  exact hnone
                · exact (h.added_of_batch hfills (Or.inl hcurrent) hnew).1
              · exact hring
        have hfill := h.fill ns g hring hfills
        rcases hfill.added.mp hadded with ⟨j, hj⟩
        have hwin := (hfill.batch j).mp hj
        refine Or.inr ⟨rfl, hring, ?_, ⟨j, hj⟩, hfill.last (by omega)⟩
        show (v.note ns).or (v.mark ns) = _
        rw [h.noted ns hnotes hadded, Option.some_or]
      · refine Or.inl ⟨?_, ?_⟩
        · rcases List.mem_append.mp hlogged with hold | hnew
          · exact hold
          · exact absurd (h.added_of_batch hfills hns hnew).2 hadded
        · show (v.note ns).or (v.mark ns) = _
          rw [h.unnoted ns fun hnoted => hadded hnoted.2, Option.none_or]

/-- The names after a commit. -/
theorem settle_names (h : v.Shape) (durable : Bool) : (v.settle durable).Names := by
  have hmem : ∀ g k, (g, k) ∈ (v.settle durable).logged → (g, k) ∈ v.logged ∨ (g, k) ∈ v.batch := by
    intro g k hlogged
    cases durable with
    | true => exact List.mem_append.mp hlogged
    | false => exact Or.inl (by simpa [settle] using hlogged)
  constructor
  · intro g k howner hlogged
    rcases hmem g k hlogged with hold | hnew
    · exact h.names.unmade g k howner hold
    · rcases h.mine g k hnew with ⟨ns, hring⟩
      have howner' := h.names.attached ns g hring
      rw [show v.owner g = none from howner] at howner'
      cases howner'
  · exact h.names.owned
  · exact h.names.attached
  · intro ns g g' k hring hcurrent hlogged
    rcases hmem g' k hlogged with hold | hnew
    · exact h.names.later ns g g' k hring hcurrent hold
    · have hring' := h.ring_of_batch hnew (h.names.owned ns g' hcurrent)
      rw [show (v.srcs ns).ring = some g from hring] at hring'
      exact (Option.some.inj hring').symm

end Shape

/-- What is logged stays so. -/
theorem mem_settle (v : View) (durable : Bool) {tag : Tag} (h : tag ∈ v.logged) :
    tag ∈ (v.settle durable).logged := List.mem_append_left _ h

/-! ## One move -/

variable {ok : View → (Ns → Option UInt64) → Prop}

/-- A move that only goes on to the next phase. -/
theorem Shape.of_phase (h : v.Shape) {phase : Phase} (hrest : phase.Resting → v.phase.Resting)
    (hnotes : ∀ ns, phase.Notes ns ↔ v.phase.Notes ns)
    (hdecided : ∀ ns, phase.Decided ns → v.phase.Decided ns ∨ (v.srcs ns).ring = none)
    (hfills : ∀ ns, phase.Fills ns → v.phase.Fills ns)
    (hreleases : ∀ ns, phase.Releases ns → v.phase.Releases ns) :
    ({ v with phase := phase } : View).Shape := by
  constructor
  · exact ⟨h.names.unmade, h.names.owned, h.names.attached, h.names.later⟩
  · exact h.numbered
  · exact h.mine
  · intro hphase
    exact h.resting (hrest hphase)
  · intro ns hphase
    exact h.noted ns ((hnotes ns).mp hphase)
  · intro ns hphase
    refine h.unnoted ns ?_
    rw [← hnotes ns]
    exact hphase
  · exact h.bare
  · exact h.skips
  · intro ns g k hring hphase
    rcases hdecided ns hphase with hdec | hnone
    · exact h.decided ns g k hring hdec
    · rw [show (v.srcs ns).ring = some g from hring] at hnone
      cases hnone
  · intro ns g hring hphase
    exact (h.fill ns g hring (hfills ns hphase)).of_same rfl le_rfl rfl rfl rfl (fun _ => Iff.rfl) rfl
  · intro ns g hring hphase
    exact h.window ns g hring (hreleases ns hphase)

theorem Shape.create (h : v.Shape) (ns : Ns) (gen : UInt64) (hgen : v.owner gen = none) :
    ({ v with
      owner := Function.update v.owner gen (some ns)
      current := Function.update v.current ns (some gen) } : View).Shape := by
  -- a generation that is owned is not the new one
  have hold : ∀ g ns', v.owner g = some ns' → Function.update v.owner gen (some ns) g = some ns' := by
    intro g ns' howner
    have hne : g ≠ gen := by
      rintro rfl
      rw [hgen] at howner
      cases howner
    rw [Function.update_of_ne hne]
    exact howner
  refine { h with names := ?_, fill := ?_ }
  · constructor
    · intro g k howner
      refine h.names.unmade g k ?_
      by_cases hg : g = gen
      · rw [hg]
        exact hgen
      · rw [← howner]
        exact (Function.update_of_ne hg _ _).symm
    · intro ns' g hcurrent
      by_cases hns : ns' = ns
      · dsimp only at hcurrent
        rw [hns, Function.update_self] at hcurrent
        rw [hns, ← Option.some.inj hcurrent]
        exact Function.update_self _ _ _
      · dsimp only at hcurrent
        rw [Function.update_of_ne hns] at hcurrent
        exact hold g ns' (h.names.owned ns' g hcurrent)
    · intro ns' g hring
      exact hold g ns' (h.names.attached ns' g hring)
    · intro ns' g g' k hring hcurrent hlogged
      by_cases hns : ns' = ns
      · dsimp only at hcurrent
        rw [hns, Function.update_self] at hcurrent
        rw [← Option.some.inj hcurrent] at hlogged
        exact absurd hlogged (h.names.unmade gen k hgen)
      · dsimp only at hcurrent
        rw [Function.update_of_ne hns] at hcurrent
        exact h.names.later ns' g g' k hring hcurrent hlogged
  · intro ns' g hring hphase
    exact (h.fill ns' g hring hphase).of_same rfl le_rfl rfl rfl rfl (fun _ => Iff.rfl) rfl

theorem Shape.push (h : v.Shape) (gen : UInt64) (slot : Slot)
    (hroom : (v.rings gen).items.length + 1 < 2 ^ 64)
    (hseq : slot.seq = UInt64.ofNat (v.rings gen).items.length) :
    ({ v with rings := Function.update v.rings gen ((v.rings gen).push slot) } : View).Shape := by
  have htail : ∀ g, (Function.update v.rings gen ((v.rings gen).push slot) g).taken =
      (v.rings g).taken := by
    intro g
    by_cases hg : g = gen
    · rw [hg, Function.update_self, Fifo.push_taken]
    · rw [Function.update_of_ne hg]
  have hitems : ∀ g, (Function.update v.rings gen ((v.rings gen).push slot) g).items =
      (v.rings g).items ∨ g = gen ∧
        (Function.update v.rings gen ((v.rings gen).push slot) g).items =
          (v.rings g).items ++ [slot] := by
    intro g
    by_cases hg : g = gen
    · rw [hg, Function.update_self]
      rcases Fifo.push_items (v.rings gen) slot with hsame | hmore
      · exact Or.inl hsame
      · exact Or.inr ⟨rfl, hmore⟩
    · rw [Function.update_of_ne hg]
      exact Or.inl rfl
  have hlen : ∀ g, (v.rings g).items.length ≤
      (Function.update v.rings gen ((v.rings gen).push slot) g).items.length := by
    intro g
    rcases hitems g with hsame | ⟨-, hmore⟩
    · rw [hsame]
    · rw [hmore, List.length_append]
      exact Nat.le_add_right _ _
  refine { h with
    names := ⟨h.names.unmade, h.names.owned, h.names.attached, h.names.later⟩
    numbered := ?_
    fill := ?_
    window := ?_ }
  · intro g k slot' hslot
    dsimp only at hslot
    rcases hitems g with hsame | ⟨rfl, hmore⟩
    · rw [hsame] at hslot
      exact h.numbered g k slot' hslot
    · rw [hmore] at hslot
      by_cases hk : k < (v.rings g).items.length
      · rw [List.getElem?_append_left hk] at hslot
        exact h.numbered g k slot' hslot
      · -- the new slot is numbered by its position
        have hlast : k = (v.rings g).items.length ∧ slot = slot' := by
          rw [List.getElem?_append_right (by omega), List.getElem?_singleton] at hslot
          split_ifs at hslot with hzero
          exact ⟨by omega, Option.some.inj hslot⟩
        rw [← hlast.2, hseq, hlast.1, UInt64.toNat_ofNat']
        exact Nat.mod_eq_of_lt (by omega)
  · intro ns g hring hphase
    exact (h.fill ns g hring hphase).of_same (htail g) (hlen g) rfl rfl rfl (fun _ => Iff.rfl) rfl
  · intro ns g hring hphase
    dsimp only
    rw [htail g]
    exact (h.window ns g hring hphase).trans (hlen g)

theorem Shape.attach (h : v.Shape) (found : Ns → Option UInt64) (file : Bool)
    (hdown : v.phase = .down) :
    ({ v with
      phase := .opening 0
      srcs := fun ns => { ring := v.current ns }
      found := found
      file := file } : View).Shape := by
  have hrest : v.phase.Resting := by
    rw [hdown]
    trivial
  have hbatch := h.resting hrest
  constructor
  · refine ⟨h.names.unmade, h.names.owned, h.names.owned, ?_⟩
    intro ns g g' k hring hcurrent _
    exact Option.some.inj (hcurrent.symm.trans hring)
  · exact h.numbered
  · intro g k hmem
    rw [show v.batch = [] from hbatch] at hmem
    cases hmem
  · exact fun _ => hbatch
  · exact fun ns hnotes => hnotes.elim
  · intro ns _
    exact congrFun (h.note_of_resting hrest) ns
  · exact fun _ _ => rfl
  · exact fun ns k hskips => Bool.noConfusion hskips.1
  · exact fun ns g k _ hdec => absurd hdec (Nat.not_lt_zero _)
  · exact fun ns g _ _ => Fill.of_empty rfl rfl hbatch
  · exact fun ns g _ hrel => hrel.elim

theorem Names.of_rings (h : v.Names) {srcs : Ns → Source}
    (hring : ∀ ns, (srcs ns).ring = (v.srcs ns).ring) : ({ v with srcs := srcs } : View).Names := by
  refine ⟨h.unmade, h.owned, ?_, ?_⟩
  · intro ns g hns
    exact h.attached ns g ((hring ns).symm.trans hns)
  · intro ns g g' k hns
    exact h.later ns g g' k ((hring ns).symm.trans hns)

theorem update_ring {srcs : Ns → Source} {src : Source} (hring : src.ring = (srcs ns).ring) (ns' : Ns) :
    (Function.update srcs ns src ns').ring = (srcs ns').ring := by
  by_cases hns : ns' = ns
  · rw [hns, Function.update_self, hring]
  · rw [Function.update_of_ne hns]

theorem update_skips {srcs : Ns → Source} {src : Source}
    (hskips : ∀ k, src.Skips k ↔ (srcs ns).Skips k) (ns' : Ns) (k : ℕ) :
    (Function.update srcs ns src ns').Skips k ↔ (srcs ns').Skips k := by
  by_cases hns : ns' = ns
  · rw [hns, Function.update_self]
    exact hskips k
  · rw [Function.update_of_ne hns]

theorem Shape.decide (h : v.Shape) (hphase : v.phase = .opening ns.val) :
    ({ v with
      srcs := Function.update v.srcs ns ((v.srcs ns).decide (v.found ns))
      phase := .opening (ns.val + 1) } : View).Shape := by
  -- the decision sets what is skipped, and no more
  have hsame : ∀ ns', (v.srcs ns').Same
      (Function.update v.srcs ns ((v.srcs ns).decide (v.found ns)) ns') := by
    intro ns'
    by_cases hns : ns' = ns
    · rw [hns, Function.update_self]
      exact Source.same_decide _ _
    · rw [Function.update_of_ne hns]
      exact ⟨rfl, rfl, rfl, rfl⟩
  have hrest : v.phase.Resting := by
    rw [hphase]
    trivial
  have hnone : ∀ ns', v.note ns' = none := congrFun (h.note_of_resting hrest)
  constructor
  · have hnames := h.names.of_rings fun ns' => (hsame ns').ring
    exact ⟨hnames.unmade, hnames.owned, hnames.attached, hnames.later⟩
  · exact h.numbered
  · intro g k hmem
    rw [show v.batch = [] from h.resting hrest] at hmem
    cases hmem
  · exact fun _ => h.resting hrest
  · exact fun ns' hnotes => hnotes.elim
  · exact fun ns' _ => hnone ns'
  · intro ns' hnone'
    dsimp only at hnone' ⊢
    rw [(hsame ns').ring] at hnone'
    rw [(hsame ns').added]
    exact h.bare ns' hnone'
  · intro ns' k hskips
    dsimp only at hskips
    by_cases hns : ns' = ns
    · rw [hns, Function.update_self] at hskips
      rw [hns]
      cases hfound : v.found ns with
      | none =>
          rw [hfound] at hskips
          exact h.skips ns k hskips
      | some m =>
          rw [hfound, Source.skips_decide] at hskips
          exact ⟨m, hfound, hskips⟩
    · rw [Function.update_of_ne hns] at hskips
      exact h.skips ns' k hskips
  -- this source skips what was found from now on; the others were decided before
  -- or are not yet
  · intro ns' g k hring' hdec hfound
    dsimp only at hring' ⊢
    by_cases hns : ns' = ns
    · rw [hns] at hfound
      rw [hns, Function.update_self]
      rcases hfound with ⟨m, hm, hle⟩
      rw [show v.found ns = some m from hm, Source.skips_decide]
      exact hle
    · rw [Function.update_of_ne hns] at hring' ⊢
      refine h.decided ns' g k hring' ?_ hfound
      rw [hphase]
      have hlt : ns'.val < ns.val + 1 := hdec
      have hval : ns'.val ≠ ns.val := fun heq => hns (Fin.ext heq)
      show ns'.val < ns.val
      omega
  · intro ns' g hring' _
    dsimp only at hring'
    rw [(hsame ns').ring] at hring'
    have hfills : v.phase.Fills ns' := by
      rw [hphase]
      trivial
    exact (h.fill ns' g hring' hfills).of_same rfl le_rfl (hsame ns').taken (hsame ns').added
      (hsame ns').lastSeq (fun _ => Iff.rfl) rfl
  · exact fun ns' g _ hrel => hrel.elim

/-- The slot a source takes next, and whether it is skipped. -/
theorem Shape.peek (h : v.Shape) (hphase : v.phase = .filling) (hring : (v.srcs ns).ring = some g)
    {slot : Slot} (hpeek : (v.rings g).peek (v.srcs ns).taken = some slot) :
    slot.seq.toNat = (v.rings g).taken + (v.srcs ns).taken ∧
    (v.rings g).taken + (v.srcs ns).taken < (v.rings g).items.length ∧
    ((v.srcs ns).skip = true ∧ slot.seq ≤ (v.srcs ns).skipSeq ↔
      v.Found ns ((v.rings g).taken + (v.srcs ns).taken)) := by
  have hseq := h.numbered g _ slot hpeek
  refine ⟨hseq, (List.getElem?_eq_some_iff.mp hpeek).1, ?_⟩
  have hdec : v.phase.Decided ns := by
    rw [hphase]
    trivial
  rw [← h.skips_iff hring hdec]
  unfold Source.Skips
  rw [UInt64.le_iff_toNat_le, hseq]

/-- A source takes a slot; the batch gets it unless recovery found it. -/
theorem Shape.taken (h : v.Shape) (hphase : v.phase = .filling) {gen : UInt64}
    (hring : (v.srcs ns).ring = some gen) {slot : Slot}
    (hpeek : (v.rings gen).peek (v.srcs ns).taken = some slot) {added : Bool} {batch : List Tag}
    (hbatch : ∀ g k, (g, k) ∈ batch ↔ (g, k) ∈ v.batch ∨
      (g = gen ∧ k = (v.rings gen).taken + (v.srcs ns).taken ∧ ¬ v.Found ns k))
    (hadded : added = true ↔ (v.srcs ns).added = true ∨
      ¬ v.Found ns ((v.rings gen).taken + (v.srcs ns).taken)) :
    ({ v with
      srcs := Function.update v.srcs ns { v.srcs ns with
        taken := (v.srcs ns).taken + 1, lastSeq := slot.seq, added := added }
      batch := batch } : View).Shape := by
  rcases h.peek hphase hring hpeek with ⟨hseq, hlt, -⟩
  have hfills : ∀ ns', v.phase.Fills ns' := by
    intro ns'
    rw [hphase]
    trivial
  have hsame : ∀ ns', (Function.update v.srcs ns { v.srcs ns with
      taken := (v.srcs ns).taken + 1, lastSeq := slot.seq, added := added } ns').ring =
        (v.srcs ns').ring := update_ring rfl
  have hskips : ∀ ns' k, (Function.update v.srcs ns { v.srcs ns with
      taken := (v.srcs ns).taken + 1, lastSeq := slot.seq, added := added } ns').Skips k ↔
        (v.srcs ns').Skips k := update_skips fun _ => Iff.rfl
  constructor
  · have hnames := h.names.of_rings hsame
    exact ⟨hnames.unmade, hnames.owned, hnames.attached, hnames.later⟩
  · exact h.numbered
  · intro g k hmem
    rcases (hbatch g k).mp hmem with hold | ⟨rfl, -, -⟩
    · rcases h.mine g k hold with ⟨ns', hring'⟩
      exact ⟨ns', (hsame ns').trans hring'⟩
    · exact ⟨ns, (hsame ns).trans hring⟩
  · intro hrest
    dsimp only at hrest
    rw [hphase] at hrest
    exact hrest.elim
  · intro ns' hnotes
    dsimp only at hnotes
    rw [hphase] at hnotes
    exact hnotes.elim
  · intro ns' _
    refine h.unnoted ns' ?_
    rw [hphase]
    exact fun hnotes => hnotes.1
  · intro ns' hnone
    dsimp only at hnone ⊢
    rw [hsame ns'] at hnone
    have hne : ns' ≠ ns := by
      rintro rfl
      rw [hring] at hnone
      cases hnone
    rw [Function.update_of_ne hne]
    exact h.bare ns' hnone
  · intro ns' k hskip
    exact h.skips ns' k ((hskips ns' k).mp hskip)
  · intro ns' g k hring' hdec hfound
    exact (hskips ns' k).mpr (h.decided ns' g k ((hsame ns').symm.trans hring') hdec hfound)
  · intro ns' g hring' _
    dsimp only at hring'
    rw [hsame ns'] at hring'
    have hfill := h.fill ns' g hring' (hfills ns')
    by_cases hns : ns' = ns
    · -- the window of the source itself is one longer
      subst hns
      obtain rfl : gen = g := Option.some.inj (hring.symm.trans hring')
      constructor
      · dsimp only
        rw [Function.update_self]
        exact hlt
      · intro k
        dsimp only
        rw [Function.update_self, hbatch gen k, hfill.batch k]
        show _ ↔ (v.rings gen).taken ≤ k ∧ k < (v.rings gen).taken + ((v.srcs ns').taken + 1) ∧
          ¬ v.Found ns' k
        constructor
        · rintro (⟨hle, hup, hnot⟩ | ⟨-, hk, hnot⟩)
          · exact ⟨hle, by omega, hnot⟩
          · exact ⟨by omega, by omega, hnot⟩
        · rintro ⟨hle, hup, hnot⟩
          by_cases hk : k = (v.rings gen).taken + (v.srcs ns').taken
          · exact Or.inr ⟨rfl, hk, hnot⟩
          · exact Or.inl ⟨hle, by omega, hnot⟩
      · dsimp only
        rw [Function.update_self]
        show added = true ↔ ∃ k, (gen, k) ∈ batch
        rw [hadded, hfill.added]
        constructor
        · rintro (⟨k, hk⟩ | hnot)
          · exact ⟨k, (hbatch gen k).mpr (Or.inl hk)⟩
          · exact ⟨_, (hbatch gen _).mpr (Or.inr ⟨rfl, rfl, hnot⟩)⟩
        · rintro ⟨k, hk⟩
          rcases (hbatch gen k).mp hk with hold | ⟨-, rfl, hnot⟩
          · exact Or.inl ⟨k, hold⟩
          · exact Or.inr hnot
      · intro _
        dsimp only
        rw [Function.update_self]
        show slot.seq.toNat + 1 = (v.rings gen).taken + ((v.srcs ns').taken + 1)
        omega
    · have hne : g ≠ gen := by
        rintro rfl
        exact hns (h.ns_eq hring hring')
      have hother : (Function.update v.srcs ns { v.srcs ns with
          taken := (v.srcs ns).taken + 1, lastSeq := slot.seq, added := added } ns') = v.srcs ns' :=
        Function.update_of_ne hns _ _
      refine hfill.of_same rfl le_rfl (congrArg Source.taken hother) (congrArg Source.added hother)
        (congrArg Source.lastSeq hother) ?_ rfl
      intro k
      rw [hbatch g k]
      exact or_iff_left fun hnew => hne hnew.1
  · intro ns' g _ hrel
    dsimp only at hrel
    rw [hphase] at hrel
    exact hrel.elim

theorem Shape.note (h : v.Shape) (hphase : v.phase = .noting ns.val) :
    ({ v with
      note := if (v.srcs ns).added then Function.update v.note ns (some (v.srcs ns).lastSeq)
        else v.note
      phase := .noting (ns.val + 1) } : View).Shape := by
  have hnote : ∀ ns', (if (v.srcs ns).added then Function.update v.note ns
      (some (v.srcs ns).lastSeq) else v.note) ns' =
        if ns' = ns ∧ (v.srcs ns).added = true then some (v.srcs ns).lastSeq else v.note ns' := by
    intro ns'
    by_cases hadded : (v.srcs ns).added = true
    · rw [if_pos hadded]
      by_cases hns : ns' = ns
      · rw [hns, Function.update_self, if_pos ⟨rfl, hadded⟩]
      · rw [Function.update_of_ne hns, if_neg fun heq => hns heq.1]
    · rw [if_neg hadded, if_neg fun heq => hadded heq.2]
  -- no source fills its window any further, the windows stay as they are
  have hfills : ∀ ns', v.phase.Fills ns' := by
    intro ns'
    rw [hphase]
    trivial
  have hnotes : ∀ ns' : Ns, ns' ≠ ns → ((Phase.noting (ns.val + 1)).Notes ns' ↔ v.phase.Notes ns') := by
    intro ns' hns
    have hval : ns'.val ≠ ns.val := fun heq => hns (Fin.ext heq)
    rw [hphase]
    show ns'.val < ns.val + 1 ↔ ns'.val < ns.val
    omega
  constructor
  · exact ⟨h.names.unmade, h.names.owned, h.names.attached, h.names.later⟩
  · exact h.numbered
  · exact h.mine
  · exact fun hrest => hrest.elim
  · intro ns' hnoted hadded
    dsimp only
    rw [hnote ns']
    by_cases hns : ns' = ns
    · subst hns
      rw [if_pos ⟨rfl, hadded⟩]
    · rw [if_neg fun heq => hns heq.1]
      exact h.noted ns' ((hnotes ns' hns).mp hnoted) hadded
  · intro ns' hunnoted
    dsimp only
    rw [hnote ns']
    by_cases hns : ns' = ns
    · subst hns
      have hadded : ¬ (v.srcs ns').added = true := fun hadded =>
        hunnoted ⟨Nat.lt_succ_self _, hadded⟩
      rw [if_neg fun heq => hadded heq.2]
      exact h.unnoted ns' fun hold => hadded hold.2
    · rw [if_neg fun heq => hns heq.1]
      exact h.unnoted ns' fun hold => hunnoted ⟨(hnotes ns' hns).mpr hold.1, hold.2⟩
  · exact h.bare
  · exact h.skips
  · intro ns' g k hring' _
    refine h.decided ns' g k hring' ?_
    rw [hphase]
    trivial
  · intro ns' g hring' _
    exact (h.fill ns' g hring' (hfills ns')).of_same rfl le_rfl rfl rfl rfl (fun _ => Iff.rfl) rfl
  · exact fun ns' g _ hrel => hrel.elim

/-- The batch is settled, and the sources are what they were. -/
theorem Shape.settle (h : v.Shape) (durable file : Bool) {phase : Phase}
    (hdecided : ∀ ns, phase.Decided ns → v.phase.Decided ns) (hnotes : ∀ ns, ¬ phase.Notes ns)
    (hfills : ∀ ns, ¬ phase.Fills ns) (hreleases : ∀ ns, phase.Releases ns → v.phase.Fills ns) :
    ({ v.settle durable with phase := phase, file := file } : View).Shape := by
  have hnames := h.settle_names durable
  constructor
  · exact ⟨hnames.unmade, hnames.owned, hnames.attached, hnames.later⟩
  · exact h.numbered
  · exact fun g k hmem => absurd hmem List.not_mem_nil
  · exact fun _ => rfl
  · exact fun ns hnoted => absurd hnoted (hnotes ns)
  · exact fun _ _ => rfl
  · exact h.bare
  · exact h.skips
  · exact fun ns g k hring hdec => h.decided ns g k hring (hdecided ns hdec)
  · exact fun ns g _ hfill => absurd hfill (hfills ns)
  · exact fun ns g hring hrel => (h.fill ns g hring (hreleases ns hrel)).window

theorem Shape.retry (h : v.Shape) (durable file : Bool) (hphase : v.phase = .noting 2) :
    ({ v.settle durable with phase := .filling, file := file, srcs := rewind v.srcs } : View).Shape := by
  have hnames := h.settle_names durable
  constructor
  · exact ⟨hnames.unmade, hnames.owned, hnames.attached, hnames.later⟩
  · exact h.numbered
  · exact fun g k hmem => absurd hmem List.not_mem_nil
  · exact fun _ => rfl
  · exact fun ns hnoted => hnoted.elim
  · exact fun _ _ => rfl
  · exact fun _ _ => rfl
  · exact h.skips
  · intro ns g k hring _
    refine h.decided ns g k hring ?_
    rw [hphase]
    trivial
  · exact fun ns g _ _ => Fill.of_empty rfl rfl rfl
  · exact fun ns g _ hrel => hrel.elim

theorem stopped_ring (v : View) : (v.stopped.srcs ns).ring ≠ some g := by
  intro hring
  cases hring

theorem Shape.killed (h : v.Shape) (durable : Bool) : (v.settle durable).stopped.Shape := by
  have hnames := h.settle_names durable
  constructor
  · exact ⟨hnames.unmade, hnames.owned, fun ns g hring => absurd hring (stopped_ring _),
      fun ns g g' k hring => absurd hring (stopped_ring _)⟩
  · exact h.numbered
  · exact fun g k hmem => absurd hmem List.not_mem_nil
  · exact fun _ => rfl
  · exact fun ns hnoted => hnoted.elim
  · exact fun _ _ => rfl
  · exact fun _ _ => rfl
  · exact fun ns k hskip => Bool.noConfusion hskip.1
  · exact fun ns g k _ hdec => hdec.elim
  · exact fun ns g _ hfill => hfill.elim
  · exact fun ns g _ hrel => hrel.elim

theorem released_ring {stop : Bool} {rings : UInt64 → Fifo Slot ringCapacity} (ns' : Ns) :
    ((v.released stop ns rings).srcs ns').ring = (v.srcs ns').ring := by
  cases stop with
  | true => rfl
  | false => exact update_ring (by rfl) ns'

theorem released_skips {stop : Bool} {rings : UInt64 → Fifo Slot ringCapacity} (ns' : Ns) (k : ℕ) :
    ((v.released stop ns rings).srcs ns').Skips k ↔ (v.srcs ns').Skips k := by
  cases stop with
  | true => rfl
  | false => exact update_skips (by exact fun _ => Iff.rfl) ns' k

theorem released_of_ne {stop : Bool} {rings : UInt64 → Fifo Slot ringCapacity} {ns' : Ns}
    (hns : ns' ≠ ns) : (v.released stop ns rings).srcs ns' = v.srcs ns' := by
  cases stop with
  | true => rfl
  | false => exact Function.update_of_ne hns _ _

/-- What one source has taken is released, and at most its own ring shows it. -/
theorem Shape.released (h : v.Shape) {stop : Bool} (hphase : v.phase = .releasing stop ns.val)
    {rings : UInt64 → Fifo Slot ringCapacity} (hitems : ∀ g, (rings g).items = (v.rings g).items)
    (hother : ∀ g, (v.srcs ns).ring ≠ some g → rings g = v.rings g) :
    (v.released stop ns rings).Shape := by
  have hrest : v.phase.Resting := by
    rw [hphase]
    trivial
  have hbatch := h.resting hrest
  -- the ring of another source
  have hrings : ∀ ns' g, ns' ≠ ns → (v.srcs ns').ring = some g → rings g = v.rings g := by
    intro ns' g hns hring'
    refine hother g ?_
    intro hring
    exact hns (h.ns_eq hring hring')
  constructor
  · have hnames := h.names.of_rings fun ns' => @released_ring v ns stop rings ns'
    exact ⟨hnames.unmade, hnames.owned, hnames.attached, hnames.later⟩
  · intro g k slot hslot
    exact h.numbered g k slot (hitems g ▸ hslot)
  · intro g k hmem
    rw [show (v.released stop ns rings).batch = [] from hbatch] at hmem
    cases hmem
  · exact fun _ => hbatch
  · exact fun ns' hnoted => hnoted.elim
  · exact fun ns' _ => congrFun (h.note_of_resting hrest) ns'
  · intro ns' hnone
    rw [released_ring] at hnone
    by_cases hns : ns' = ns
    · cases stop with
      | true => exact h.bare ns' hnone
      | false =>
          rw [hns]
          exact congrArg Source.added (Function.update_self ns _ v.srcs)
    · rw [released_of_ne hns]
      exact h.bare ns' hnone
  · intro ns' k hskip
    exact h.skips ns' k ((released_skips ns' k).mp hskip)
  · intro ns' g k hring' _ hfound
    refine (released_skips ns' k).mpr
      (h.decided ns' g k ((released_ring ns').symm.trans hring') ?_ hfound)
    rw [hphase]
    trivial
  · intro ns' g hring' hfills
    have hring := (released_ring ns').symm.trans hring'
    cases stop with
    | true => exact hfills.elim
    | false =>
        by_cases hns : ns' = ns
        · -- the source itself starts again
          have hself : (v.released false ns rings).srcs ns' =
              { v.srcs ns with taken := 0, added := false } := by
            rw [hns]
            exact Function.update_self _ _ _
          exact Fill.of_empty (congrArg Source.taken hself) (congrArg Source.added hself) hbatch
        · have hold : v.phase.Fills ns' := by
            rw [hphase]
            have hlt : ns'.val < ns.val + 1 := hfills
            have hval : ns'.val ≠ ns.val := fun heq => hns (Fin.ext heq)
            show ns'.val < ns.val
            omega
          have hsrc := @released_of_ne v ns false rings ns' hns
          have hring_eq := hrings ns' g hns hring
          exact (h.fill ns' g hring hold).of_same (congrArg Fifo.taken hring_eq)
            (congrArg (fun q => q.items.length) hring_eq).ge (congrArg Source.taken hsrc)
            (congrArg Source.added hsrc) (congrArg Source.lastSeq hsrc) (fun _ => Iff.rfl) rfl
  · intro ns' g hring' hrel
    have hle : ns.val + 1 ≤ ns'.val := hrel
    have hns : ns' ≠ ns := by
      rintro rfl
      omega
    have hring := (released_ring ns').symm.trans hring'
    rw [released_of_ne hns]
    show (rings g).taken + _ ≤ (rings g).items.length
    rw [hrings ns' g hns hring]
    refine h.window ns' g hring ?_
    rw [hphase]
    show ns.val ≤ ns'.val
    omega

/-- The rings behind a release: the ring of the source lost what the source had
taken. -/
theorem Shape.release_rings (h : v.Shape) {stop : Bool} (hphase : v.phase = .releasing stop ns.val)
    {gen : UInt64} (hring : (v.srcs ns).ring = some gen) (g : UInt64) :
    (Function.update v.rings gen ((v.rings gen).release (v.srcs ns).taken) g).taken =
      (v.rings g).taken + if g = gen then (v.srcs ns).taken else 0 := by
  by_cases hg : g = gen
  · rw [hg, Function.update_self, if_pos rfl]
    refine (Fifo.release_of_le (h.window ns gen hring ?_)).2
    rw [hphase]
    exact Nat.le_refl ns.val
  · rw [Function.update_of_ne hg, if_neg hg, Nat.add_zero]

/-- Every move keeps the shape. -/
theorem shape_move (h : v.Shape) (hmove : Move ok v v') : v'.Shape := by
  cases hmove with
  | create ns gen hgen => exact h.create ns gen hgen
  | push gen slot hgen hroom hseq => exact h.push gen slot hroom hseq
  | attach found file hdown hfound hok => exact h.attach found file hdown
  | decide ns gen hphase hring => exact h.decide hphase
  | absent ns hphase hring =>
      refine h.of_phase ?_ ?_ ?_ ?_ ?_
      · rw [hphase]
        exact id
      · intro ns'
        rw [hphase]
        exact Iff.rfl
      · intro ns' hdec
        by_cases hns : ns' = ns
        · rw [hns]
          exact Or.inr hring
        · have hlt : ns'.val < ns.val + 1 := hdec
          have hval : ns'.val ≠ ns.val := fun heq => hns (Fin.ext heq)
          refine Or.inl ?_
          rw [hphase]
          show ns'.val < ns.val
          omega
      · intro ns'
        rw [hphase]
        exact id
      · intro ns'
        rw [hphase]
        exact id
  | decided hphase =>
      refine h.of_phase ?_ ?_ ?_ ?_ ?_
      · exact fun hrest => hrest.elim
      · intro ns'
        rw [hphase]
        exact Iff.rfl
      · intro ns' _
        rw [hphase]
        exact Or.inl ns'.isLt
      · intro ns'
        rw [hphase]
        exact id
      · exact fun ns' hrel => hrel.elim
  | flush durable file hphase hfile =>
      rw [h.settle_eq hphase.resting]
      exact ⟨⟨h.names.unmade, h.names.owned, h.names.attached, h.names.later⟩, h.numbered, h.mine,
        h.resting, h.noted, h.unnoted, h.bare, h.skips, h.decided, fun ns g hring hfills =>
          (h.fill ns g hring hfills).of_same rfl le_rfl rfl rfl rfl (fun _ => Iff.rfl) rfl, h.window⟩
  -- taken, and not put into the batch: it is in the log already
  | skip ns gen slot hphase hring hpeek hskip =>
      have hfound := (h.peek hphase hring hpeek).2.2.mp hskip
      refine h.taken hphase hring hpeek ?_ ?_
      · intro g k
        refine (or_iff_left ?_).symm
        rintro ⟨-, rfl, hnot⟩
        exact hnot hfound
      · exact (or_iff_left fun hnot => hnot hfound).symm
  | take ns gen slot hphase hring hpeek hskip =>
      -- taken and put into the batch
      have hnot := fun hfound => hskip ((h.peek hphase hring hpeek).2.2.mpr hfound)
      refine h.taken hphase hring hpeek ?_ ?_
      · intro g k
        rw [List.mem_append, List.mem_singleton, Prod.mk.injEq]
        refine or_congr_right ?_
        constructor
        · rintro ⟨rfl, rfl⟩
          exact ⟨rfl, rfl, hnot⟩
        · exact fun hnew => ⟨hnew.1, hnew.2.1⟩
      · exact iff_of_true rfl (Or.inr hnot)
  | finish hphase =>
      refine h.of_phase ?_ ?_ ?_ ?_ ?_
      · exact fun hrest => hrest.elim
      · intro ns'
        rw [hphase]
        exact iff_of_false (Nat.not_lt_zero _) id
      · intro ns' _
        rw [hphase]
        exact Or.inl trivial
      · intro ns'
        rw [hphase]
        exact id
      · exact fun ns' hrel => hrel.elim
  | note ns hphase => exact h.note hphase
  | acked stop file hphase hfile =>
      refine h.settle true file ?_ ?_ ?_ ?_
      · intro ns _
        rw [hphase]
        trivial
      · exact fun ns => id
      · intro ns hfills
        cases stop with
        | true => exact hfills
        | false => exact absurd hfills (Nat.not_lt_zero _)
      · intro ns _
        rw [hphase]
        trivial
  | empty stop file hphase hbatch hnote hfile =>
      refine h.settle false file ?_ ?_ ?_ ?_
      · intro ns _
        rw [hphase]
        trivial
      · exact fun ns => id
      · intro ns hfills
        cases stop with
        | true => exact hfills
        | false => exact absurd hfills (Nat.not_lt_zero _)
      · intro ns _
        rw [hphase]
        trivial
  | retry durable file hphase hfile hkeep => exact h.retry durable file hphase
  | giveUp durable file hphase hfile =>
      exact h.settle durable file (fun ns hdec => hdec.elim) (fun ns => id) (fun ns => id)
        (fun ns hrel => hrel.elim)
  | release stop ns gen hphase hring =>
      refine h.released hphase ?_ ?_
      · intro g
        by_cases hg : g = gen
        · rw [hg, Function.update_self, Fifo.release_items]
        · rw [Function.update_of_ne hg]
      · intro g hne
        refine Function.update_of_ne ?_ _ _
        rintro rfl
        exact hne hring
  -- without a ring there is nothing to release
  | pass stop ns hphase hring => exact h.released hphase (fun _ => rfl) (fun _ _ => rfl)
  | resume hphase =>
      refine h.of_phase ?_ ?_ ?_ ?_ ?_
      · exact fun hrest => hrest.elim
      · intro ns'
        rw [hphase]
        exact Iff.rfl
      · intro ns' _
        rw [hphase]
        exact Or.inl trivial
      · intro ns' _
        rw [hphase]
        exact ns'.isLt
      · exact fun ns' hrel => hrel.elim
  | close hphase =>
      refine h.of_phase ?_ ?_ ?_ ?_ ?_
      · intro _
        rw [hphase]
        trivial
      · intro ns'
        rw [hphase]
        exact Iff.rfl
      · exact fun ns' hdec => hdec.elim
      · exact fun ns' hfills => hfills.elim
      · exact fun ns' hrel => hrel.elim
  | killed durable hphase => exact h.killed durable

end View

theorem Storaged.shape_init : ({} : Storaged).view.Shape := by
  constructor
  · constructor
    · exact fun g k _ => List.not_mem_nil
    · intro ns g hcurrent
      cases hcurrent
    · intro ns g hring
      cases hring
    · exact fun ns g g' k _ _ hmem => absurd hmem List.not_mem_nil
  · intro g k slot hslot
    cases hslot
  · exact fun g k hmem => absurd hmem List.not_mem_nil
  · exact fun _ => rfl
  · exact fun ns hnoted => hnoted.elim
  · exact fun _ _ => rfl
  · exact fun _ _ => rfl
  · exact fun ns k hskip => Bool.noConfusion hskip.1
  · exact fun ns g k _ hdec => hdec.elim
  · exact fun ns g _ hfill => hfill.elim
  · exact fun ns g _ hrel => hrel.elim

end Carwatch.Store
