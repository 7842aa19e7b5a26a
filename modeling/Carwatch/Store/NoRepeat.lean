import Carwatch.Store.NoLoss

/-!
# Carwatch.Store.NoRepeat — a slot is logged once

What `storaged` has logged and not released it meets again after a restart, and
skips it by the position recovery finds. Recovery reads the newest segment
only. RING_GEN is written once in a run and RING_SEQ with every batch of
samples, so behind a rollover the newest segment can hold neither of them for a
ring whose slots are in the log, and the process logs them again.

* `View.Once` — the slots in the log increase, ring by ring, and those not
  released are known to the running process;
* `Storaged.Act.Known` — a process that starts on a ring with slots in the log
  finds their position;
* `every_slot_logged_once` — then no slot is logged twice, in any run.
-/

namespace Carwatch.Store

open Carwatch.Lib Carwatch.Ipc

/-- Of two slots of one ring, the first one comes first. -/
def Tag.Before (a b : Tag) : Prop := a.1 = b.1 → a.2 < b.2

instance Tag.decidableBefore (a b : Tag) : Decidable (a.Before b) :=
  inferInstanceAs (Decidable (_ → _))

namespace View

variable {v v' : View} {ns : Ns} {g : UInt64} {k : ℕ}

/-- Where the log holds a slot of a ring that is not released, recovery finds
a position. -/
def Known (v : View) (found : Ns → Option UInt64) : Prop :=
  ∀ tag ∈ v.logged, ∀ ns, v.current ns = some tag.1 → (v.rings tag.1).taken ≤ tag.2 →
    found ns ≠ none

/-- The log and the batch in order, and what a process knows of the log. A
process that has lost its segment does not log any more. -/
structure Once (v : View) : Prop where
  shape : v.Shape
  logged : v.logged.Pairwise Tag.Before
  batch : v.batch.Pairwise Tag.Before
  marked : ∀ ns g k, v.current ns = some g ∨ (v.srcs ns).ring = some g → (g, k) ∈ v.logged →
    ∃ m, v.mark ns = some m ∧ k ≤ m.toNat
  behind : v.file = true → ∀ ns g k, (v.srcs ns).ring = some g → v.phase.Fills ns →
    (g, k) ∈ v.logged → k < (v.rings g).taken ∨ v.Found ns k
  taken : v.file = true → ∀ ns g k, (v.srcs ns).ring = some g → v.phase.Releases ns →
    (g, k) ∈ v.logged → k < (v.rings g).taken + (v.srcs ns).taken ∨ v.Found ns k

namespace Once

/-- A move that neither logs nor releases. -/
theorem of_same (h : v.Once) (hshape : v'.Shape) (hbatch : v'.batch.Pairwise Tag.Before)
    (htail : ∀ g, (v'.rings g).taken = (v.rings g).taken) (hlogged : v'.logged = v.logged)
    (hmark : v'.mark = v.mark) (hcurrent : v'.current = v.current)
    (hring : ∀ ns, (v'.srcs ns).ring = (v.srcs ns).ring) (hfound : v'.found = v.found)
    (hfile : v'.file = true → v.file = true)
    (hfills : ∀ ns g, (v.srcs ns).ring = some g → v'.phase.Fills ns → v.phase.Fills ns)
    (hrel : ∀ ns, v'.phase.Releases ns →
      v.phase.Releases ns ∧ (v'.srcs ns).taken = (v.srcs ns).taken) : v'.Once := by
  have hsame : ∀ ns k, v'.Found ns k ↔ v.Found ns k := by
    intro ns k
    unfold Found
    rw [hfound]
  constructor
  · exact hshape
  · rw [hlogged]
    exact h.logged
  · exact hbatch
  · intro ns g k hns
    rw [hcurrent, hring ns] at hns
    rw [hlogged, hmark]
    exact h.marked ns g k hns
  · intro hopen ns g k hns hphase
    rw [hring ns] at hns
    rw [hlogged, htail g, hsame]
    exact h.behind (hfile hopen) ns g k hns (hfills ns g hns hphase)
  · intro hopen ns g k hns hphase
    rw [hring ns] at hns
    rw [hlogged, htail g, hsame, (hrel ns hphase).2]
    exact h.taken (hfile hopen) ns g k hns (hrel ns hphase).1

/-- The batch goes on where the log ends. -/
theorem follows (h : v.Once) (hphase : v.phase = .noting 2) (hfile : v.file = true) {j : ℕ}
    (hlogged : (g, k) ∈ v.logged) (hbatch : (g, j) ∈ v.batch) : k < j := by
  rcases h.shape.mine g j hbatch with ⟨ns, hring⟩
  have hfills : v.phase.Fills ns := by
    rw [hphase]
    trivial
  have hwin := ((h.shape.fill ns g hring hfills).batch j).mp hbatch
  rcases h.behind hfile ns g k hring hfills hlogged with htail | ⟨m, hm, hle⟩
  · omega
  · by_contra hge
    exact hwin.2.2 ⟨m, hm, by omega⟩

theorem settle_logged (h : v.Once) (durable : Bool) (hphase : v.phase = .noting 2)
    (hfile : durable = true → v.file = true) :
    (v.settle durable).logged.Pairwise Tag.Before := by
  cases durable with
  | false =>
      show (v.logged ++ []).Pairwise _
      rw [List.append_nil]
      exact h.logged
  | true =>
      show (v.logged ++ v.batch).Pairwise _
      refine List.pairwise_append.mpr ⟨h.logged, h.batch, ?_⟩
      rintro ⟨g, k⟩ hlogged ⟨g', j⟩ hbatch rfl
      exact h.follows hphase (hfile rfl) hlogged hbatch

/-- A batch that is logged leaves a position that no slot in the log exceeds. -/
theorem settle_marked (h : v.Once) (durable : Bool) (hphase : v.phase = .noting 2)
    (hfile : durable = true → v.file = true)
    (hns : v.current ns = some g ∨ (v.srcs ns).ring = some g)
    (hlogged : (g, k) ∈ (v.settle durable).logged) :
    ∃ m, (v.settle durable).mark ns = some m ∧ k ≤ m.toNat := by
  rcases h.shape.settle_mark durable hphase hns hlogged with
    ⟨hold, hmark⟩ | ⟨rfl, hring, hmark, ⟨j, hj⟩, hlast⟩
  · rw [hmark]
    exact h.marked ns g k hns hold
  · have hfills : v.phase.Fills ns := by
      rw [hphase]
      trivial
    have hbatch : ∀ i, (g, i) ∈ v.batch → i ≤ (v.srcs ns).lastSeq.toNat := by
      intro i hi
      have hwin := ((h.shape.fill ns g hring hfills).batch i).mp hi
      omega
    refine ⟨(v.srcs ns).lastSeq, hmark, ?_⟩
    rcases List.mem_append.mp hlogged with hold | hnew
    · exact (h.follows hphase (hfile rfl) hold hj).le.trans (hbatch j hj)
    · exact hbatch k hnew

end Once

/-- The batch is settled. -/
theorem Once.settled (h : v.Once) (durable : Bool) (hphase : v.phase = .noting 2)
    (hlog : durable = true → v.file = true) {phase : Phase} {srcs : Ns → Source} {file : Bool}
    (hring : ∀ ns, (srcs ns).ring = (v.srcs ns).ring)
    (hshape : ({ v.settle durable with phase := phase, srcs := srcs, file := file } : View).Shape)
    (hbehind : file = true → ∀ ns g k, (v.srcs ns).ring = some g → phase.Fills ns →
      (g, k) ∈ (v.settle durable).logged → k < (v.rings g).taken ∨ v.Found ns k)
    (htaken : file = true → ∀ ns g k, (v.srcs ns).ring = some g → phase.Releases ns →
      (g, k) ∈ (v.settle durable).logged → k < (v.rings g).taken + (srcs ns).taken ∨ v.Found ns k) :
    ({ v.settle durable with phase := phase, srcs := srcs, file := file } : View).Once := by
  constructor
  · exact hshape
  · exact h.settle_logged durable hphase hlog
  · exact List.Pairwise.nil
  · intro ns g k hns hlogged
    refine h.settle_marked durable hphase hlog (hns.imp_right ?_) hlogged
    exact fun hns => (hring ns).symm.trans hns
  · intro hopen ns g k hns
    exact hbehind hopen ns g k ((hring ns).symm.trans hns)
  · intro hopen ns g k hns
    exact htaken hopen ns g k ((hring ns).symm.trans hns)

theorem Once.create (h : v.Once) (ns : Ns) (gen : UInt64) (hgen : v.owner gen = none) :
    ({ v with
      owner := Function.update v.owner gen (some ns)
      current := Function.update v.current ns (some gen) } : View).Once := by
  refine ⟨h.shape.create ns gen hgen, h.logged, h.batch, ?_, h.behind, h.taken⟩
  intro ns' g k hns' hlogged
  rcases hns' with hcurrent | hring
  · dsimp only at hcurrent
    by_cases hns : ns' = ns
    · -- nothing of the new ring is logged
      rw [hns, Function.update_self] at hcurrent
      rw [← Option.some.inj hcurrent] at hlogged
      exact absurd hlogged (h.shape.names.unmade gen k hgen)
    · rw [Function.update_of_ne hns] at hcurrent
      exact h.marked ns' g k (Or.inl hcurrent) hlogged
  · exact h.marked ns' g k (Or.inr hring) hlogged

/-- A process starts, and finds how far the log goes. -/
theorem Once.attach (h : v.Once) (found : Ns → Option UInt64) (file : Bool)
    (hdown : v.phase = .down) (hfound : ∀ ns m, found ns = some m → v.mark ns = some m)
    (hok : v.Known found) :
    ({ v with
      phase := .opening 0
      srcs := fun ns => { ring := v.current ns }
      found := found
      file := file } : View).Once := by
  refine ⟨h.shape.attach found file hdown, h.logged, h.batch, ?_, ?_, ?_⟩
  · intro ns g k hns hlogged
    exact h.marked ns g k (Or.inl (hns.elim id id)) hlogged
  · intro _ ns g k hring _ hlogged
    have hcurrent : v.current ns = some g := hring
    by_cases htail : k < (v.rings g).taken
    · exact Or.inl htail
    · refine Or.inr ?_
      rcases h.marked ns g k (Or.inl hcurrent) hlogged with ⟨m, hmark, hle⟩
      have hne : found ns ≠ none := hok (g, k) hlogged ns hcurrent (Nat.le_of_not_lt htail)
      rcases Option.ne_none_iff_exists'.mp hne with ⟨m', hm'⟩
      rw [hfound ns m' hm'] at hmark
      exact ⟨m', hm', by rw [Option.some.inj hmark]; exact hle⟩
  · exact fun _ ns g k _ hrel => hrel.elim

theorem Once.killed (h : v.Once) (durable : Bool)
    (hphase : durable = true → (v.phase = .noting 2 ∧ v.file = true) ∨ v.phase.Quiet) :
    (v.settle durable).stopped.Once := by
  -- the log is as if the batch had been settled, or as it was
  have hlog : (v.settle durable).logged.Pairwise Tag.Before ∧ ∀ ns g k, v.current ns = some g →
      (g, k) ∈ (v.settle durable).logged →
      ∃ m, (v.settle durable).mark ns = some m ∧ k ≤ m.toNat := by
    have hmarked : ∀ ns g k, v.current ns = some g → (g, k) ∈ v.logged →
        ∃ m, v.mark ns = some m ∧ k ≤ m.toNat := fun ns g k hcurrent =>
      h.marked ns g k (Or.inl hcurrent)
    cases durable with
    | false =>
        rw [show (v.settle false).logged = v.logged from List.append_nil _]
        exact ⟨h.logged, hmarked⟩
    | true =>
        rcases hphase rfl with ⟨hnoting, hfile⟩ | hquiet
        · refine ⟨h.settle_logged true hnoting fun _ => hfile, ?_⟩
          intro ns g k hcurrent
          exact h.settle_marked true hnoting (fun _ => hfile) (Or.inl hcurrent)
        · rw [h.shape.settle_eq hquiet.resting]
          exact ⟨h.logged, hmarked⟩
  refine ⟨h.shape.killed durable, hlog.1, List.Pairwise.nil, ?_, ?_, ?_⟩
  · intro ns g k hns
    exact hlog.2 ns g k (hns.resolve_right (stopped_ring _))
  · exact fun _ ns g k _ hfills => hfills.elim
  · exact fun _ ns g k _ hrel => hrel.elim

/-- A source is done with its slots, and they are released. -/
theorem Once.release (h : v.Once) {stop : Bool} (hphase : v.phase = .releasing stop ns.val)
    {gen : UInt64} (hring : (v.srcs ns).ring = some gen)
    (hshape : (v.released stop ns
      (Function.update v.rings gen ((v.rings gen).release (v.srcs ns).taken))).Shape) :
    (v.released stop ns
      (Function.update v.rings gen ((v.rings gen).release (v.srcs ns).taken))).Once := by
  have hrings := h.shape.release_rings hphase hring
  -- another source has another ring
  have hother : ∀ ns' g, ns' ≠ ns → (v.srcs ns').ring = some g → g ≠ gen := by
    rintro ns' g hns hring' rfl
    exact hns (h.shape.ns_eq hring hring')
  refine ⟨hshape, h.logged, h.batch, ?_, ?_, ?_⟩
  · intro ns' g k hns'
    rw [released_ring] at hns'
    exact h.marked ns' g k hns'
  · intro hfile ns' g k hring' hfills hlogged
    rw [released_ring] at hring'
    rw [show ((v.released stop ns _).rings g).taken = _ from hrings g]
    cases stop with
    | true => exact hfills.elim
    | false =>
        have hlt : ns'.val < ns.val + 1 := hfills
        by_cases hns : ns' = ns
        · subst hns
          obtain rfl : gen = g := Option.some.inj (hring.symm.trans hring')
          rw [if_pos rfl]
          refine h.taken hfile ns' gen k hring ?_ hlogged
          rw [hphase]
          exact Nat.le_refl ns'.val
        · rw [if_neg (hother ns' g hns hring'), Nat.add_zero]
          refine h.behind hfile ns' g k hring' ?_ hlogged
          rw [hphase]
          have hval : ns'.val ≠ ns.val := fun heq => hns (Fin.ext heq)
          show ns'.val < ns.val
          omega
  · intro hfile ns' g k hring' hrel hlogged
    have hle : ns.val + 1 ≤ ns'.val := hrel
    have hns : ns' ≠ ns := by
      rintro rfl
      omega
    rw [released_ring] at hring'
    rw [released_of_ne hns, show ((v.released stop ns _).rings g).taken = _ from hrings g,
      if_neg (hother ns' g hns hring'), Nat.add_zero]
    refine h.taken hfile ns' g k hring' ?_ hlogged
    rw [hphase]
    show ns.val ≤ ns'.val
    omega

/-- A commit that was acknowledged: what it logged is about to be released. -/
theorem Once.acked (h : v.Once) (durable stop file : Bool) (hphase : v.phase = .noting 2)
    (hlog : durable = true → v.file = true) (hfile : file = true → v.file = true)
    (hshape : ({ v.settle durable with phase := .releasing stop 0, file := file } : View).Shape) :
    ({ v.settle durable with phase := .releasing stop 0, file := file } : View).Once := by
  refine h.settled durable hphase hlog (fun _ => rfl) hshape ?_ ?_
  · intro _ ns g k _ hfills
    cases stop with
    | true => exact hfills.elim
    | false => exact absurd hfills (Nat.not_lt_zero _)
  · intro hopen ns g k hring _ hlogged
    have hfills : v.phase.Fills ns := by
      rw [hphase]
      trivial
    rcases List.mem_append.mp hlogged with hold | hnew
    · rcases h.behind (hfile hopen) ns g k hring hfills hold with htail | hfound
      · exact Or.inl (by omega)
      · exact Or.inr hfound
    · cases durable with
      | true => exact Or.inl (((h.shape.fill ns g hring hfills).batch k).mp hnew).2.1
      | false => cases hnew

/-- The batch goes back to the rings; if it was logged, the segment is lost. -/
theorem Once.retry (h : v.Once) (durable file : Bool) (hphase : v.phase = .noting 2)
    (hlost : durable = true → v.file = true ∧ file = false) (hfile : file = true → v.file = true) :
    ({ v.settle durable with phase := .filling, file := file, srcs := rewind v.srcs } : View).Once := by
  refine h.settled durable hphase (fun hdurable => (hlost hdurable).1) (fun _ => rfl)
    (h.shape.retry durable file hphase) ?_ fun _ ns g k _ hrel => hrel.elim
  intro hopen ns g k hring _ hlogged
  cases durable with
  | true =>
      rw [(hlost rfl).2] at hopen
      cases hopen
  | false =>
      have hold : (g, k) ∈ v.logged := by simpa [View.settle] using hlogged
      refine h.behind (hfile hopen) ns g k hring ?_ hold
      rw [hphase]
      trivial

/-- A slot that comes into the batch is behind those of its ring. -/
theorem Once.take_batch (h : v.Once) (hphase : v.phase = .filling) (hring : (v.srcs ns).ring = some g) :
    (v.batch ++ [(g, (v.rings g).taken + (v.srcs ns).taken)]).Pairwise Tag.Before := by
  have hfills : v.phase.Fills ns := by
    rw [hphase]
    trivial
  refine List.pairwise_append.mpr ⟨h.batch, List.pairwise_singleton _ _, ?_⟩
  rintro ⟨g', k⟩ hbatch tag htag hsame
  obtain rfl := List.mem_singleton.mp htag
  obtain rfl : g' = g := hsame
  exact (((h.shape.fill ns g' hring hfills).batch k).mp hbatch).2.1

/-- Every move keeps the log in order. -/
theorem once_move (h : v.Once) (hmove : Move Known v v') : v'.Once := by
  have hshape := shape_move h.shape hmove
  cases hmove with
  | create ns gen hgen => exact h.create ns gen hgen
  | push gen slot hgen hroom hseq =>
      refine h.of_same hshape h.batch ?_ rfl rfl rfl (fun _ => rfl) rfl id (fun _ _ _ => id)
        fun ns hrel => ⟨hrel, rfl⟩
      intro g
      by_cases hg : g = gen
      · dsimp only
        rw [hg, Function.update_self, Fifo.push_taken]
      · exact congrArg Fifo.taken (Function.update_of_ne hg _ _)
  | attach found file hdown hfound hok => exact h.attach found file hdown hfound hok
  | decide ns gen hphase hring =>
      refine h.of_same hshape h.batch (fun _ => rfl) rfl rfl rfl
        (update_ring (Source.same_decide _ _).ring) rfl id ?_ fun ns hrel => hrel.elim
      intro ns g _ _
      rw [hphase]
      trivial
  | absent ns hphase hring =>
      refine h.of_same hshape h.batch (fun _ => rfl) rfl rfl rfl (fun _ => rfl) rfl id ?_
        fun ns hrel => hrel.elim
      intro ns g _ _
      rw [hphase]
      trivial
  | decided hphase =>
      refine h.of_same hshape h.batch (fun _ => rfl) rfl rfl rfl (fun _ => rfl) rfl id ?_
        fun ns hrel => hrel.elim
      intro ns g _ _
      rw [hphase]
      trivial
  | flush durable file hphase hfile =>
      rw [h.shape.settle_eq hphase.resting] at hshape ⊢
      exact h.of_same hshape h.batch (fun _ => rfl) rfl rfl rfl (fun _ => rfl) rfl hfile (fun _ _ _ => id)
        fun ns hrel => ⟨hrel, rfl⟩
  | skip ns gen slot hphase hring hpeek hskip =>
      refine h.of_same hshape h.batch (fun _ => rfl) rfl rfl rfl (update_ring (by rfl)) rfl id
        (fun _ _ _ => id) ?_
      intro ns hrel
      dsimp only at hrel
      rw [hphase] at hrel
      exact hrel.elim
  -- the slot was not found in the log, so it is new in the batch
  | take ns gen slot hphase hring hpeek hskip =>
      refine h.of_same hshape (h.take_batch hphase hring) (fun _ => rfl) rfl rfl rfl
        (update_ring (by rfl)) rfl id (fun _ _ _ => id) ?_
      intro ns hrel
      dsimp only at hrel
      rw [hphase] at hrel
      exact hrel.elim
  | finish hphase =>
      refine h.of_same hshape h.batch (fun _ => rfl) rfl rfl rfl (fun _ => rfl) rfl id ?_
        fun ns hrel => hrel.elim
      intro ns g _ _
      rw [hphase]
      trivial
  | note ns hphase =>
      refine h.of_same hshape h.batch (fun _ => rfl) rfl rfl rfl (fun _ => rfl) rfl id ?_
        fun ns hrel => hrel.elim
      intro ns g _ _
      rw [hphase]
      trivial
  | acked stop file hphase hfile =>
      exact h.acked true stop file hphase (fun _ => hfile) (fun _ => hfile) hshape
  | empty stop file hphase hbatch hnote hfile =>
      exact h.acked false stop file hphase (by simp) hfile hshape
  | retry durable file hphase hfile hkeep => exact h.retry durable file hphase hfile hkeep
  | giveUp durable file hphase hfile =>
      exact h.settled durable hphase hfile (fun _ => rfl) hshape (fun _ ns g k _ hfills => hfills.elim)
        fun _ ns g k _ hrel => hrel.elim
  | release stop ns gen hphase hring => exact h.release hphase hring hshape
  | pass stop ns hphase hring =>
      refine h.of_same hshape h.batch (fun _ => rfl) rfl rfl rfl released_ring rfl id ?_ ?_
      · intro ns' g hring' hfills
        rw [hphase]
        cases stop with
        | true => exact hfills.elim
        | false =>
            have hlt : ns'.val < ns.val + 1 := hfills
            -- the source that is passed has no ring
            have hval : ns'.val ≠ ns.val := by
              intro heq
              rw [Fin.ext heq, hring] at hring'
              cases hring'
            show ns'.val < ns.val
            omega
      · intro ns' hrel
        have hle : ns.val + 1 ≤ ns'.val := hrel
        have hns : ns' ≠ ns := by
          rintro rfl
          omega
        rw [released_of_ne hns, hphase]
        refine ⟨?_, rfl⟩
        show ns.val ≤ ns'.val
        omega
  | resume hphase =>
      refine h.of_same hshape h.batch (fun _ => rfl) rfl rfl rfl (fun _ => rfl) rfl id ?_
        fun ns hrel => hrel.elim
      intro ns g _ _
      rw [hphase]
      exact ns.isLt
  | close hphase =>
      exact h.of_same hshape h.batch (fun _ => rfl) rfl rfl rfl (fun _ => rfl) rfl id
        (fun ns g _ hfills => hfills.elim) fun ns hrel => hrel.elim
  | killed durable hphase => exact h.killed durable hphase

theorem once_moves (h : v.Once) (hmoves : Moves Known v v') : v'.Once := by
  induction hmoves with
  | refl => exact h
  | tail _ hmove ih => exact once_move ih hmove

end View

/-! ## Whole runs -/

namespace Storaged

variable {s : Storaged}

/-- A process starts on what it can know: where the log holds a slot of its
ring that is not released, it finds a position. -/
def Act.Known (s : Storaged) : Act → Prop
  | .start _ _ => s.pc = .down → ∀ tag ∈ s.logged, ∀ ns, s.current ns = some tag.1 →
      (s.rings tag.1).taken ≤ tag.2 → s.findings ns ≠ none
  | _ => True

instance Act.decidableKnown (s : Storaged) : ∀ a : Act, Decidable (a.Known s)
  | .start _ _ => inferInstanceAs (Decidable (_ → ∀ _ ∈ _, _))
  | .create _ _ | .push _ _ | .step _ | .kill => .isTrue trivial

theorem once_init : ({} : Storaged).view.Once := by
  refine ⟨shape_init, List.Pairwise.nil, List.Pairwise.nil, ?_, ?_, ?_⟩
  · exact fun ns g k _ hlogged => absurd hlogged List.not_mem_nil
  · exact fun _ ns g k _ hfills => hfills.elim
  · exact fun _ ns g k _ hrel => hrel.elim

/-- What every action keeps. -/
theorem once_step (hinv : s.Inv) (h : s.view.Once) {a : Act} (hundo : a.UndoOk s)
    (hknown : a.Known s) : (s.step a).view.Once := by
  refine View.once_moves h (apply_moves hinv hundo ?_)
  rintro src io rfl hpc
  exact hknown hpc

/-- In a run in which every process finds how far its rings are logged, each
sample in the log is that of a slot, and the slots of one ring come in their
order, each once. -/
theorem every_slot_logged_once (acts : List Act)
    (h : Meets step (fun s a => a.UndoOk s ∧ a.Known s) {} acts) :
    List.Forall₂ (run step {} acts).Carried (samples (run step {} acts).log)
      (run step {} acts).logged ∧
    (run step {} acts).logged.Pairwise Tag.Before := by
  have hall : (run step {} acts).Inv ∧ (run step {} acts).view.Once := by
    refine meets_invariant step _ (fun s => s.Inv ∧ s.view.Once) ?_ {} ⟨inv_init, once_init⟩ acts h
    rintro s a ⟨hinv, honce⟩ ⟨hundo, hknown⟩
    exact ⟨inv_step hinv hundo, once_step hinv honce hundo hknown⟩
  exact ⟨hall.1.sound.booked.aligned, hall.2.logged⟩

/-- A process is killed between the commit and the release; the next one skips
the slot. -/
theorem skipped_slot_logged_once :
    List.Forall₂ (run step {} skippedRun).Carried (samples (run step {} skippedRun).log)
      (run step {} skippedRun).logged ∧
    (run step {} skippedRun).logged.Pairwise Tag.Before := by
  have hundo : ∀ a ∈ skippedRun, a.ftruncate = some true := by decide +kernel
  have hknown : Meets step (fun s a => a.Known s) {} skippedRun := by decide +kernel
  refine every_slot_logged_once skippedRun (meets_imp (meets_and_all hknown hundo) ?_)
  exact fun s a hcond => ⟨undoOk_of_ftruncate hcond.2 s, hcond.1⟩

/-- A process is killed between the commit and the release, and behind it the
newest segment fills up. The next one finds an empty segment, and logs the slot
again. -/
theorem slot_logged_twice :
    ¬ ∀ acts, Meets step (fun s a => a.UndoOk s) {} acts →
      List.Forall₂ (run step {} acts).Carried (samples (run step {} acts).log)
        (run step {} acts).logged ∧
      (run step {} acts).logged.Pairwise Tag.Before := by
  intro hall
  -- one slot in one ring
  have hgoes₁ : ({} : Storaged).Goes (run step {} [.create 0 1, .push 1 (slotAt 100)]) :=
    ⟨_, by decide, rfl⟩
  have hinv₁ : (run step {} [.create 0 1, .push 1 (slotAt 100)]).Inv :=
    inv_step (inv_step inv_init (show Act.UndoOk {} (.create 0 1) from trivial))
      (show Act.UndoOk _ (.push 1 (slotAt 100)) from trivial)
  have hrings₁ : ((run step {} [.create 0 1, .push 1 (slotAt 100)]).rings 1).taken = 0 ∧
      ((run step {} [.create 0 1, .push 1 (slotAt 100)]).rings 1).peek 0 = some (slotAt 100) ∧
      ((run step {} [.create 0 1, .push 1 (slotAt 100)]).rings 1).peek 1 = none := by decide
  generalize hs₁ : run step {} [.create 0 1, .push 1 (slotAt 100)] = s₁ at *
  have hpc₁ : s₁.pc = .down := by rw [← hs₁]; rfl
  have hcur₁ : s₁.current 0 = some 1 := by rw [← hs₁]; rfl
  have hnone₁ : s₁.current 1 = none := by rw [← hs₁]; rfl
  have hlog₁ : s₁.logged = [] := by rw [← hs₁]; rfl
  have hdir₁ : s₁.hist.dir = [] := by rw [← hs₁]; rfl
  have hfound₁ : s₁.findings 0 = none := by
    unfold findings
    rw [hdir₁, hcur₁]
    rfl
  have hsize₁ : s₁.hist.dir.size = 0 := by rw [hdir₁]; rfl
  -- it is logged, and not released
  rcases session_logs hinv₁ hpc₁ hcur₁ hnone₁ hfound₁ hrings₁.2.1 hrings₁.2.2
    (by rw [hsize₁, walBufBytes_eq]; decide) with
    ⟨s₂, hgoes₂, hinv₂, hlog₂, hrings₂, hcur₂, hsize₂⟩
  rcases kill_goes hinv₂ with ⟨hgoes₃, hinv₃⟩
  -- the segment fills up
  rw [walBufBytes_eq] at hsize₂
  rcases empties_newest hinv₃ rfl (show s₂.current 0 ≠ none by rw [hcur₂, hcur₁]; simp)
    walSegmentBytes (by
      show s₂.hist.dir.size + _ + _ < _
      rw [walBufBytes_eq, walSegmentBytes, diskBytes]
      omega) (Nat.le_add_left _ _) with
    ⟨s₄, hgoes₄, hinv₄, hpc₄, hlog₄, hrings₄, hcur₄, hsize₄, hempty⟩
  have hr₄ : s₄.rings = s₁.rings := hrings₄.trans hrings₂
  have hc₄ : s₄.current = s₁.current := hcur₄.trans hcur₂
  have hfound₄ : s₄.findings 0 = none := by
    unfold findings
    rw [hempty, hc₄, hcur₁]
    rfl
  -- and the slot is logged again
  rcases session_logs hinv₄ hpc₄ (by rw [hc₄, hcur₁]) (by rw [hc₄, hnone₁]) hfound₄
    (by rw [hr₄]; exact hrings₁.2.1) (by rw [hr₄]; exact hrings₁.2.2) (by
      rw [walBufBytes_eq] at hsize₄ ⊢
      have hle : s₄.hist.dir.size ≤ s₂.hist.dir.size + walSegmentBytes + 11520 := hsize₄
      rw [walSegmentBytes] at hle
      rw [diskBytes]
      omega) with
    ⟨s₅, hgoes₅, -, hlog₅, -, -, -⟩
  rcases hgoes₁.trans (hgoes₂.trans (hgoes₃.trans (hgoes₄.trans hgoes₅))) with ⟨acts, hacts, hend⟩
  have honce := (hall acts (meets_of_forall (fun a ha s => undoOk_of_ftruncate (hacts a ha) s) _)).2
  have htwice : s₅.logged = [(1, 0), (1, 0)] := by
    rw [hlog₅, hlog₄, hr₄, hrings₁.1]
    show s₂.logged ++ _ = _
    rw [hlog₂, hlog₁, hrings₁.1]
    rfl
  rw [hend, htwice] at honce
  exact absurd honce (by decide)

end Storaged

end Carwatch.Store
