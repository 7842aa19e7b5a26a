import Carwatch.Store.Smooth
import Carwatch.Store.Window

/-!
# Carwatch.Store.NoLoss — a released slot is in the log

`storaged` releases what it logged, and what it skipped because recovery found
it in the log. The second is where a slot can go: recovery reads the last
RING_GEN and the last RING_SEQ, and nothing says that the second was noted
under the first. A process that notes a new generation and is killed before it
logs a sample of it leaves the position of the ring before to the next one.

* `View.Kept` — every released slot is logged, and so is every slot up to the
  last position noted of a ring that has any slot in the log;
* `Storaged.Act.Sampled` — a process does not start from a position that was
  noted for another ring;
* `every_released_slot_logged` — then no slot is lost, in any run.
-/

namespace Carwatch.Store

open Carwatch.Lib Carwatch.Ipc

namespace View

variable {v v' : View} {ns : Ns} {g : UInt64} {k : ℕ}

/-- Where recovery finds a position for a ring, the log holds a slot of it. -/
def Sampled (v : View) (found : Ns → Option UInt64) : Prop :=
  ∀ ns, found ns ≠ none → ∃ tag ∈ v.logged, v.current ns = some tag.1

/-- The log holds what is released, and what will be skipped. -/
structure Kept (v : View) : Prop where
  shape : v.Shape
  released : ∀ g k, k < (v.rings g).taken → (g, k) ∈ v.logged
  taken : ∀ ns g k, (v.srcs ns).ring = some g → v.phase.Releases ns →
    k < (v.rings g).taken + (v.srcs ns).taken → (g, k) ∈ v.logged
  found : ∀ ns g k, (v.srcs ns).ring = some g → v.Found ns k → (g, k) ∈ v.logged
  marked : ∀ ns g k, v.current ns = some g ∨ (v.srcs ns).ring = some g → (g, k) ∈ v.logged →
    ∃ m, v.mark ns = some m ∧ ∀ j ≤ m.toNat, (g, j) ∈ v.logged

namespace Kept

/-- A move that neither logs nor releases. -/
theorem of_same (h : v.Kept) (hshape : v'.Shape)
    (htail : ∀ g, (v'.rings g).taken = (v.rings g).taken) (hlogged : v'.logged = v.logged)
    (hmark : v'.mark = v.mark) (hcurrent : v'.current = v.current)
    (hring : ∀ ns, (v'.srcs ns).ring = (v.srcs ns).ring) (hfound : v'.found = v.found)
    (hrel : ∀ ns, v'.phase.Releases ns →
      v.phase.Releases ns ∧ (v'.srcs ns).taken = (v.srcs ns).taken) : v'.Kept := by
  constructor
  · exact hshape
  · intro g k hk
    rw [htail g] at hk
    rw [hlogged]
    exact h.released g k hk
  · intro ns g k hns hphase hk
    rw [hring ns] at hns
    rw [htail g, (hrel ns hphase).2] at hk
    rw [hlogged]
    exact h.taken ns g k hns (hrel ns hphase).1 hk
  · intro ns g k hns hk
    rw [hring ns] at hns
    unfold Found at hk
    rw [hfound] at hk
    rw [hlogged]
    exact h.found ns g k hns hk
  · intro ns g k hns
    rw [hcurrent, hring ns] at hns
    rw [hlogged, hmark]
    exact h.marked ns g k hns

/-- A slot that a source has taken is in the batch or in the log. -/
theorem window (h : v.Kept) (hring : (v.srcs ns).ring = some g) (hfills : v.phase.Fills ns)
    (hk : k < (v.rings g).taken + (v.srcs ns).taken) : (g, k) ∈ v.batch ∨ (g, k) ∈ v.logged := by
  have hfill := h.shape.fill ns g hring hfills
  by_cases htail : k < (v.rings g).taken
  · exact Or.inr (h.released g k htail)
  · by_cases hfound : v.Found ns k
    · exact Or.inr (h.found ns g k hring hfound)
    · exact Or.inl ((hfill.batch k).mpr ⟨by omega, hk, hfound⟩)

end Kept

/-- A batch that is logged leaves the position up to which everything is. -/
theorem Kept.settle_marked (h : v.Kept) (durable : Bool) (hphase : v.phase = .noting 2)
    (hns : v.current ns = some g ∨ (v.srcs ns).ring = some g)
    (hlogged : (g, k) ∈ (v.settle durable).logged) :
    ∃ m, (v.settle durable).mark ns = some m ∧
      ∀ j ≤ m.toNat, (g, j) ∈ (v.settle durable).logged := by
  rcases h.shape.settle_mark durable hphase hns hlogged with
    ⟨hold, hmark⟩ | ⟨rfl, hring, hmark, -, hlast⟩
  · rcases h.marked ns g k hns hold with ⟨m, hm, hle⟩
    exact ⟨m, hmark.trans hm, fun j hj => mem_settle v durable (hle j hj)⟩
  · have hfills : v.phase.Fills ns := by
      rw [hphase]
      trivial
    refine ⟨(v.srcs ns).lastSeq, hmark, ?_⟩
    intro j hj
    rcases h.window hring hfills (show j < _ by omega) with hnew | hold
    · exact List.mem_append_right _ hnew
    · exact mem_settle v true hold

/-- The batch is settled. -/
theorem Kept.settled (h : v.Kept) (durable : Bool) (hphase : v.phase = .noting 2) {phase : Phase}
    {srcs : Ns → Source} {file : Bool} (hring : ∀ ns, (srcs ns).ring = (v.srcs ns).ring)
    (hshape : ({ v.settle durable with phase := phase, srcs := srcs, file := file } : View).Shape)
    (htaken : ∀ ns g k, (v.srcs ns).ring = some g → phase.Releases ns →
      k < (v.rings g).taken + (srcs ns).taken → (g, k) ∈ (v.settle durable).logged) :
    ({ v.settle durable with phase := phase, srcs := srcs, file := file } : View).Kept := by
  constructor
  · exact hshape
  · exact fun g k hk => mem_settle v durable (h.released g k hk)
  · intro ns g k hns
    exact htaken ns g k ((hring ns).symm.trans hns)
  · intro ns g k hns hfound
    exact mem_settle v durable (h.found ns g k ((hring ns).symm.trans hns) hfound)
  · intro ns g k hns hlogged
    refine h.settle_marked durable hphase (hns.imp_right ?_) hlogged
    exact fun hns => (hring ns).symm.trans hns

theorem Kept.create (h : v.Kept) (ns : Ns) (gen : UInt64) (hgen : v.owner gen = none) :
    ({ v with
      owner := Function.update v.owner gen (some ns)
      current := Function.update v.current ns (some gen) } : View).Kept := by
  refine ⟨h.shape.create ns gen hgen, h.released, h.taken, h.found, ?_⟩
  intro ns' g k hns' hlogged
  rcases hns' with hcurrent | hring
  · dsimp only at hcurrent
    by_cases hns : ns' = ns
    · -- nothing of the new ring is logged
      rw [hns, Function.update_self] at hcurrent
      rw [← Option.some.inj hcurrent] at hlogged
      exact absurd hlogged (h.shape.names.unmade gen k hgen)
    · rw [Function.update_of_ne hns] at hcurrent
      exact h.marked ns' g k (Or.inl hcurrent) hlogged
  · exact h.marked ns' g k (Or.inr hring) hlogged

/-- A process starts, from positions noted for its own rings. -/
theorem Kept.attach (h : v.Kept) (found : Ns → Option UInt64) (file : Bool)
    (hdown : v.phase = .down) (hfound : ∀ ns m, found ns = some m → v.mark ns = some m)
    (hok : v.Sampled found) :
    ({ v with
      phase := .opening 0
      srcs := fun ns => { ring := v.current ns }
      found := found
      file := file } : View).Kept := by
  refine ⟨h.shape.attach found file hdown, h.released, ?_, ?_, ?_⟩
  · exact fun ns g k _ hrel => hrel.elim
  · rintro ns g k hring ⟨m, hm, hle⟩
    have hcurrent : v.current ns = some g := hring
    have hnone : found ns ≠ none := by
      rw [show found ns = some m from hm]
      exact Option.some_ne_none m
    rcases hok ns hnone with ⟨⟨g', j⟩, hlogged, hsame⟩
    rw [hcurrent] at hsame
    obtain rfl : g = g' := Option.some.inj hsame
    rcases h.marked ns g j (Or.inl hcurrent) hlogged with ⟨m', hmark, hall⟩
    rw [hfound ns m hm] at hmark
    rw [← Option.some.inj hmark] at hall
    exact hall k hle
  · intro ns g k hns hlogged
    exact h.marked ns g k (Or.inl (hns.elim id id)) hlogged

/-- A commit that was acknowledged, and the batch with it. -/
theorem Kept.acked (h : v.Kept) (durable stop file : Bool) (hphase : v.phase = .noting 2)
    (hbatch : durable = false → v.batch = [])
    (hshape : ({ v.settle durable with phase := .releasing stop 0, file := file } : View).Shape) :
    ({ v.settle durable with phase := .releasing stop 0, file := file } : View).Kept := by
  refine h.settled durable hphase (fun _ => rfl) hshape ?_
  intro ns g k hring _ hk
  have hfills : v.phase.Fills ns := by
    rw [hphase]
    trivial
  rcases h.window hring hfills hk with hnew | hold
  · cases durable with
    | true => exact List.mem_append_right _ hnew
    | false =>
        rw [hbatch rfl] at hnew
        cases hnew
  · exact mem_settle v durable hold

theorem Kept.killed (h : v.Kept) (durable : Bool)
    (hphase : durable = true → (v.phase = .noting 2 ∧ v.file = true) ∨ v.phase.Quiet) :
    (v.settle durable).stopped.Kept := by
  refine ⟨h.shape.killed durable, ?_, ?_, ?_, ?_⟩
  · exact fun g k hk => mem_settle v durable (h.released g k hk)
  · exact fun ns g k _ hrel => hrel.elim
  · exact fun ns g k hring => absurd hring (stopped_ring _)
  · intro ns g k hns hlogged
    have hcurrent : v.current ns = some g := hns.resolve_right (stopped_ring _)
    cases durable with
    | false =>
        have hold : (g, k) ∈ v.logged := by simpa [View.settle, stopped] using hlogged
        rcases h.marked ns g k (Or.inl hcurrent) hold with ⟨m, hm, hle⟩
        exact ⟨m, hm, fun j hj => mem_settle v false (hle j hj)⟩
    | true =>
        rcases hphase rfl with ⟨hnoting, -⟩ | hquiet
        · exact h.settle_marked true hnoting (Or.inl hcurrent) hlogged
        · rw [h.shape.settle_eq hquiet.resting] at hlogged ⊢
          exact h.marked ns g k (Or.inl hcurrent) hlogged

/-- What is released was logged. -/
theorem Kept.release (h : v.Kept) {stop : Bool} (hphase : v.phase = .releasing stop ns.val)
    {gen : UInt64} (hring : (v.srcs ns).ring = some gen)
    (hshape : (v.released stop ns
      (Function.update v.rings gen ((v.rings gen).release (v.srcs ns).taken))).Shape) :
    (v.released stop ns
      (Function.update v.rings gen ((v.rings gen).release (v.srcs ns).taken))).Kept := by
  have hrings := h.shape.release_rings hphase hring
  refine ⟨hshape, ?_, ?_, ?_, ?_⟩
  · intro g k hk
    rw [show ((v.released stop ns _).rings g).taken = _ from hrings g] at hk
    -- what was taken of this ring is now what is released of it
    by_cases hg : g = gen
    · rw [if_pos hg] at hk
      rw [hg] at hk ⊢
      refine h.taken ns gen k hring ?_ hk
      rw [hphase]
      exact Nat.le_refl ns.val
    · rw [if_neg hg] at hk
      exact h.released g k hk
  · intro ns' g k hring' hrel hk
    have hle : ns.val + 1 ≤ ns'.val := hrel
    have hns : ns' ≠ ns := by
      rintro rfl
      omega
    rw [released_ring] at hring'
    -- two sources have no ring in common
    have hg : g ≠ gen := by
      rintro rfl
      exact hns (h.shape.ns_eq hring hring')
    rw [released_of_ne hns, show ((v.released stop ns _).rings g).taken = _ from hrings g,
      if_neg hg] at hk
    refine h.taken ns' g k hring' ?_ hk
    rw [hphase]
    show ns.val ≤ ns'.val
    omega
  · intro ns' g k hring'
    rw [released_ring] at hring'
    exact h.found ns' g k hring'
  · intro ns' g k hns'
    rw [released_ring] at hns'
    exact h.marked ns' g k hns'

/-- Every move keeps what is released in the log. -/
theorem kept_move (h : v.Kept) (hmove : Move Sampled v v') : v'.Kept := by
  have hshape := shape_move h.shape hmove
  cases hmove with
  | create ns gen hgen => exact h.create ns gen hgen
  | push gen slot hgen hroom hseq =>
      refine h.of_same hshape ?_ rfl rfl rfl (fun _ => rfl) rfl fun ns hrel => ⟨hrel, rfl⟩
      intro g
      by_cases hg : g = gen
      · dsimp only
        rw [hg, Function.update_self, Fifo.push_taken]
      · exact congrArg Fifo.taken (Function.update_of_ne hg _ _)
  | attach found file hdown hfound hok => exact h.attach found file hdown hfound hok
  | decide ns gen hphase hring =>
      refine h.of_same hshape (fun _ => rfl) rfl rfl rfl ?_ rfl fun ns hrel => hrel.elim
      exact update_ring (Source.same_decide _ _).ring
  | absent ns hphase hring =>
      exact h.of_same hshape (fun _ => rfl) rfl rfl rfl (fun _ => rfl) rfl fun ns hrel => hrel.elim
  | decided hphase =>
      exact h.of_same hshape (fun _ => rfl) rfl rfl rfl (fun _ => rfl) rfl fun ns hrel => hrel.elim
  -- the batch is empty, so nothing is settled
  | flush durable file hphase hfile =>
      rw [h.shape.settle_eq hphase.resting] at hshape ⊢
      exact h.of_same hshape (fun _ => rfl) rfl rfl rfl (fun _ => rfl) rfl fun ns hrel => ⟨hrel, rfl⟩
  | skip ns gen slot hphase hring hpeek hskip =>
      refine h.of_same hshape (fun _ => rfl) rfl rfl rfl (update_ring (by rfl)) rfl ?_
      intro ns hrel
      dsimp only at hrel
      rw [hphase] at hrel
      exact hrel.elim
  | take ns gen slot hphase hring hpeek hskip =>
      refine h.of_same hshape (fun _ => rfl) rfl rfl rfl (update_ring (by rfl)) rfl ?_
      intro ns hrel
      dsimp only at hrel
      rw [hphase] at hrel
      exact hrel.elim
  | finish hphase =>
      exact h.of_same hshape (fun _ => rfl) rfl rfl rfl (fun _ => rfl) rfl fun ns hrel => hrel.elim
  | note ns hphase =>
      exact h.of_same hshape (fun _ => rfl) rfl rfl rfl (fun _ => rfl) rfl fun ns hrel => hrel.elim
  -- the batch went into the log
  | acked stop file hphase hfile => exact h.acked true stop file hphase (by simp) hshape
  | empty stop file hphase hbatch hnote hfile =>
      exact h.acked false stop file hphase (fun _ => hbatch) hshape
  | retry durable file hphase hfile hkeep =>
      exact h.settled durable hphase (fun _ => rfl) hshape fun ns g k _ hrel => hrel.elim
  -- the batch may be lost, but nothing was released for it
  | giveUp durable file hphase hfile =>
      exact h.settled durable hphase (fun _ => rfl) hshape fun ns g k _ hrel => hrel.elim
  | release stop ns gen hphase hring => exact h.release hphase hring hshape
  | pass stop ns hphase hring =>
      refine h.of_same hshape (fun _ => rfl) rfl rfl rfl released_ring rfl ?_
      intro ns' hrel
      have hle : ns.val + 1 ≤ ns'.val := hrel
      have hns : ns' ≠ ns := by
        rintro rfl
        omega
      rw [released_of_ne hns, hphase]
      refine ⟨?_, rfl⟩
      show ns.val ≤ ns'.val
      omega
  | resume hphase =>
      exact h.of_same hshape (fun _ => rfl) rfl rfl rfl (fun _ => rfl) rfl fun ns hrel => hrel.elim
  | close hphase =>
      exact h.of_same hshape (fun _ => rfl) rfl rfl rfl (fun _ => rfl) rfl fun ns hrel => hrel.elim
  | killed durable hphase => exact h.killed durable hphase

theorem kept_moves (h : v.Kept) (hmoves : Moves Sampled v v') : v'.Kept := by
  induction hmoves with
  | refl => exact h
  | tail _ hmove ih => exact kept_move ih hmove

end View

/-! ## Whole runs -/

namespace Storaged

variable {s : Storaged}

/-- A process starts on positions that were noted for its own rings: where it
finds one, the log holds a slot of the ring. -/
def Act.Sampled (s : Storaged) : Act → Prop
  | .start _ _ => s.pc = .down →
      ∀ ns, s.findings ns ≠ none → ∃ tag ∈ s.logged, s.current ns = some tag.1
  | _ => True

instance Act.decidableSampled (s : Storaged) : ∀ a : Act, Decidable (a.Sampled s)
  | .start _ _ => inferInstanceAs (Decidable (_ → ∀ _, _))
  | .create _ _ | .push _ _ | .step _ | .kill => .isTrue trivial

theorem kept_init : ({} : Storaged).view.Kept := by
  refine ⟨shape_init, ?_, ?_, ?_, ?_⟩
  · exact fun g k hk => absurd hk (Nat.not_lt_zero k)
  · exact fun ns g k _ hrel => hrel.elim
  · intro ns g k hring
    cases hring
  · exact fun ns g k _ hlogged => absurd hlogged List.not_mem_nil

/-- What every action keeps. -/
theorem kept_step (hinv : s.Inv) (h : s.view.Kept) {a : Act} (hundo : a.UndoOk s)
    (hsampled : a.Sampled s) : (s.step a).view.Kept := by
  refine View.kept_moves h (apply_moves hinv hundo ?_)
  rintro src io rfl hpc
  exact hsampled hpc

/-- A slot whose position is in the log is in the log. -/
theorem Inv.sample (h : s.Inv) {g : UInt64} {k : ℕ} (hlogged : (g, k) ∈ s.logged) {slot : Slot}
    (hslot : (s.rings g).items[k]? = some slot) : ∃ c ∈ samples s.log, c.Carries slot := by
  have haligned := h.sound.booked.aligned
  generalize samples s.log = cs at haligned ⊢
  generalize s.logged = tags at haligned hlogged
  induction haligned with
  | nil => cases hlogged
  | cons hcarried _ ih =>
      rcases List.mem_cons.mp hlogged with rfl | hlater
      · rcases hcarried with ⟨slot', hslot', hcarries⟩
        rw [hslot] at hslot'
        rw [← Option.some.inj hslot'] at hcarries
        exact ⟨_, List.mem_cons_self, hcarries⟩
      · rcases ih hlater with ⟨c, hc, hcarries⟩
        exact ⟨c, List.mem_cons_of_mem _ hc, hcarries⟩

/-- In a run in which every process starts on positions noted for its own
rings, every slot that was released is in the log. -/
theorem every_released_slot_logged (acts : List Act)
    (h : Meets step (fun s a => a.UndoOk s ∧ a.Sampled s) {} acts) (g : UInt64) (k : ℕ) (slot : Slot)
    (hreleased : k < ((run step {} acts).rings g).taken)
    (hslot : ((run step {} acts).rings g).items[k]? = some slot) :
    ∃ c ∈ samples (run step {} acts).log, c.Carries slot := by
  have hall : (run step {} acts).Inv ∧ (run step {} acts).view.Kept := by
    refine meets_invariant step _ (fun s => s.Inv ∧ s.view.Kept) ?_ {} ⟨inv_init, kept_init⟩ acts h
    rintro s a ⟨hinv, hkept⟩ ⟨hundo, hsampled⟩
    exact ⟨inv_step hinv hundo, kept_step hinv hkept hundo hsampled⟩
  exact hall.1.sample (hall.2.released g k hreleased) hslot

/-! ## Two runs -/

/-- A slot of the OBD source. -/
def slotAt (mono : UInt64) : Slot := { Slot.zero with monoNs := mono, mode := 1, pid := 12, src := 1 }

/-- Steps in which nothing fails. -/
def quietSteps (n : ℕ) : List Act := List.replicate n (.step {})

/-- A process logs one slot of the ring 1; it is not released yet. -/
def loggedRun : List Act :=
  [.create 0 1, .push 1 (slotAt 100), .start 1 {}] ++ quietSteps 9 ++
    [.step { now := { mono := 1000000000 } }] ++ quietSteps 3

/-- It is killed, and the next one skips and releases the slot. -/
def skippedRun : List Act := loggedRun ++ [.kill, .start 1 {}] ++ quietSteps 14

/-- It is killed and the ring replaced. The next process notes the new
generation and is killed before it sees a slot. -/
def lostRun : List Act :=
  loggedRun ++ [.kill, .create 0 2, .start 1 {}] ++ quietSteps 4 ++
    [.kill, .push 2 (slotAt 200), .start 1 {}] ++ quietSteps 14

/-- The slot that the second process skips was logged by the first. -/
theorem skipped_slot_logged :
    ∃ c ∈ samples (run step {} skippedRun).log, c.Carries (slotAt 100) := by
  have hundo : ∀ a ∈ skippedRun, a.ftruncate = some true := by decide +kernel
  have hsampled : Meets step (fun s a => a.Sampled s) {} skippedRun := by decide +kernel
  have hrings : ((run step {} skippedRun).rings 1).taken = 1 ∧
      ((run step {} skippedRun).rings 1).items[0]? = some (slotAt 100) := by decide +kernel
  refine every_released_slot_logged skippedRun ?_ 1 0 (slotAt 100) (by rw [hrings.1]; exact one_pos)
    hrings.2
  refine meets_imp (meets_and_all hsampled hundo) ?_
  exact fun s a hcond => ⟨undoOk_of_ftruncate hcond.2 s, hcond.1⟩

/-- The slot of the new ring is released, and it is not in the log. -/
theorem released_slot_lost :
    Meets step (fun s a => a.UndoOk s) {} lostRun ∧
    0 < ((run step {} lostRun).rings 2).taken ∧
    ((run step {} lostRun).rings 2).items[0]? = some (slotAt 200) ∧
    ∀ c ∈ samples (run step {} lostRun).log, ¬ c.Carries (slotAt 200) := by
  have hundo : ∀ a ∈ lostRun, a.ftruncate = some true := by decide +kernel
  have hend : 0 < ((run step {} lostRun).rings 2).taken ∧
      ((run step {} lostRun).rings 2).items[0]? = some (slotAt 200) ∧
      ∀ c ∈ samples (run step {} lostRun).log, c.monoNs = 100 := by decide +kernel
  refine ⟨meets_of_forall (fun a ha s => undoOk_of_ftruncate (hundo a ha) s) {}, hend.1, hend.2.1, ?_⟩
  intro c hc hcarries
  have hmono := hcarries.mono
  rw [hend.2.2 c hc] at hmono
  exact absurd hmono (by decide)

end Storaged

end Carwatch.Store
