import Mathlib.Logic.Relation
import Carwatch.Store.Draining

/-!
# Carwatch.Store.Handover — how slots get from the rings into the log

The abstract daemon: sources, the batch they fill, the log as the list of the
slots in it, and for each name the last position noted there. The pages of the
log, its buffer and the records that are neither samples nor notes are gone.

* `View`, `Storaged.view` — the abstract state, and what a concrete state
  shows of it;
* `View.Move` — all that can happen;
* `apply_moves` — every action of the concrete machine is a run of moves.
-/

namespace Carwatch.Store

open Carwatch.Lib Carwatch.Ipc

/-! ## The abstract state -/

/-- How far a process is with its sources. -/
inductive Phase where
  | down
  /-- The sources from `n` on have not decided what to skip. -/
  | opening (n : ℕ)
  | filling
  /-- The sources below `n` have noted how far the batch goes. -/
  | noting (n : ℕ)
  /-- The sources from `n` on are still to be released. -/
  | releasing (stop : Bool) (n : ℕ)
  | closing

/-- Where `main` is, as far as the sources are concerned. -/
def Pc.phase : Pc → Phase
  | .down => .down
  | .boot | .bootCommit => .opening 0
  | .noteGen ns => .opening ns.val
  | .genCommit ns => .opening (ns.val + 1)
  | .top | .drain _ | .due => .filling
  | .noteSeq _ _ ns => .noting ns.val
  | .commit _ _ => .noting 2
  | .release stop ns => .releasing stop ns.val
  | .closeCommit | .shutdown | .shutCommit => .closing

/-- The batch holds nothing from the sources. -/
def Phase.Quiet : Phase → Prop
  | .opening _ | .closing => True
  | _ => False

/-- The slots a source does not log. -/
def Source.Skips (src : Source) (k : ℕ) : Prop := src.skip = true ∧ k ≤ src.skipSeq.toNat

/-- A source that has decided what to skip, by what recovery found. -/
def Source.decide (src : Source) (found : Option UInt64) : Source :=
  match found with
  | some m => { src with skip := true, skipSeq := m }
  | none => src

/-- The position a scan makes a source skip to. -/
def foundIn (sc : WalScan) (ns : Ns) : Option UInt64 → Option UInt64
  | some gen => if sc.ringGen ns = gen ∧ sc.hasRingSeq ns = true then some (sc.ringSeq ns) else none
  | none => none

/-- Rings, sources and log. -/
structure View where
  rings : UInt64 → Fifo Slot ringCapacity
  owner : UInt64 → Option Ns
  current : Ns → Option UInt64
  srcs : Ns → Source
  phase : Phase
  batch : List Tag
  logged : List Tag
  /-- The last position noted in the log. -/
  mark : Ns → Option UInt64
  /-- The last position noted in the open batch. -/
  note : Ns → Option UInt64
  /-- What recovery found for each source. -/
  found : Ns → Option UInt64
  /-- A segment is open. -/
  file : Bool

/-- What a state shows. -/
def Storaged.view (s : Storaged) : View where
  rings := s.rings
  owner := s.owner
  current := s.current
  srcs := s.srcs
  phase := s.pc.phase
  batch := s.batch
  logged := s.logged
  mark := fun ns => lastSeqOf ns s.log
  note := fun ns => lastSeqOf ns s.hist.pending
  found := fun ns => match s.hist.wal with
    | some w => foundIn w.recovered ns (s.srcs ns).ring
    | none => none
  file := match s.hist.wal with
    | some w => w.fd.isSome
    | none => false

namespace View

/-- The batch is gone, into the log or not. -/
def settle (v : View) (durable : Bool) : View :=
  { v with
    batch := []
    note := fun _ => none
    logged := v.logged ++ if durable then v.batch else []
    mark := fun ns => if durable then (v.note ns).or (v.mark ns) else v.mark ns }

/-- The sources start again from what is not released. -/
def rewind (srcs : Ns → Source) : Ns → Source :=
  fun ns => { srcs ns with taken := 0, added := false }

/-- No process. -/
def stopped (v : View) : View :=
  { v with phase := .down, srcs := fun _ => {}, found := fun _ => none, file := false }

/-- One source is done with what it has taken; after the loop nothing reads the
sources again. -/
def released (v : View) (stop : Bool) (ns : Ns) (rings : UInt64 → Fifo Slot ringCapacity) : View :=
  { v with
    rings := rings
    srcs := if stop then v.srcs
      else Function.update v.srcs ns { v.srcs ns with taken := 0, added := false }
    phase := .releasing stop (ns.val + 1) }

/-- All that can happen; `ok` says which findings a process may start with. -/
inductive Move (ok : View → (Ns → Option UInt64) → Prop) : View → View → Prop where
  | create (v : View) (ns : Ns) (gen : UInt64) (hgen : v.owner gen = none) :
      Move ok v { v with
        owner := Function.update v.owner gen (some ns)
        current := Function.update v.current ns (some gen) }
  | push (v : View) (gen : UInt64) (slot : Slot) (hgen : v.owner gen ≠ none)
      (hroom : (v.rings gen).items.length + 1 < 2 ^ 64)
      (hseq : slot.seq = UInt64.ofNat (v.rings gen).items.length) :
      Move ok v { v with rings := Function.update v.rings gen ((v.rings gen).push slot) }
  | attach (v : View) (found : Ns → Option UInt64) (file : Bool) (hdown : v.phase = .down)
      (hfound : ∀ ns m, found ns = some m → v.mark ns = some m) (hok : ok v found) :
      Move ok v { v with
        phase := .opening 0
        srcs := fun ns => { ring := v.current ns }
        found := found
        file := file }
  | decide (v : View) (ns : Ns) (gen : UInt64) (hphase : v.phase = .opening ns.val)
      (hring : (v.srcs ns).ring = some gen) :
      Move ok v { v with
        srcs := Function.update v.srcs ns ((v.srcs ns).decide (v.found ns))
        phase := .opening (ns.val + 1) }
  | absent (v : View) (ns : Ns) (hphase : v.phase = .opening ns.val)
      (hring : (v.srcs ns).ring = none) : Move ok v { v with phase := .opening (ns.val + 1) }
  | decided (v : View) (hphase : v.phase = .opening 2) : Move ok v { v with phase := .filling }
  | flush (v : View) (durable file : Bool) (hphase : v.phase.Quiet)
      (hfile : file = true → v.file = true) : Move ok v { v.settle durable with file := file }
  | skip (v : View) (ns : Ns) (gen : UInt64) (slot : Slot) (hphase : v.phase = .filling)
      (hring : (v.srcs ns).ring = some gen)
      (hpeek : (v.rings gen).peek (v.srcs ns).taken = some slot)
      (hskip : (v.srcs ns).skip = true ∧ slot.seq ≤ (v.srcs ns).skipSeq) :
      Move ok v { v with
        srcs := Function.update v.srcs ns { v.srcs ns with
          taken := (v.srcs ns).taken + 1, lastSeq := slot.seq } }
  | take (v : View) (ns : Ns) (gen : UInt64) (slot : Slot) (hphase : v.phase = .filling)
      (hring : (v.srcs ns).ring = some gen)
      (hpeek : (v.rings gen).peek (v.srcs ns).taken = some slot)
      (hskip : ¬ ((v.srcs ns).skip = true ∧ slot.seq ≤ (v.srcs ns).skipSeq)) :
      Move ok v { v with
        srcs := Function.update v.srcs ns { v.srcs ns with
          taken := (v.srcs ns).taken + 1, lastSeq := slot.seq, added := true }
        batch := v.batch ++ [(gen, (v.rings gen).taken + (v.srcs ns).taken)] }
  | finish (v : View) (hphase : v.phase = .filling) : Move ok v { v with phase := .noting 0 }
  | note (v : View) (ns : Ns) (hphase : v.phase = .noting ns.val) :
      Move ok v { v with
        note := if (v.srcs ns).added then Function.update v.note ns (some (v.srcs ns).lastSeq)
          else v.note
        phase := .noting (ns.val + 1) }
  | acked (v : View) (stop file : Bool) (hphase : v.phase = .noting 2) (hfile : v.file = true) :
      Move ok v { v.settle true with phase := .releasing stop 0, file := file }
  | empty (v : View) (stop file : Bool) (hphase : v.phase = .noting 2) (hbatch : v.batch = [])
      (hnote : ∀ ns, v.note ns = none) (hfile : file = true → v.file = true) :
      Move ok v { v.settle false with phase := .releasing stop 0, file := file }
  | retry (v : View) (durable file : Bool) (hphase : v.phase = .noting 2)
      (hfile : durable = true → v.file = true ∧ file = false) (hkeep : file = true → v.file = true) :
      Move ok v { v.settle durable with phase := .filling, file := file, srcs := rewind v.srcs }
  | giveUp (v : View) (durable file : Bool) (hphase : v.phase = .noting 2)
      (hfile : durable = true → v.file = true) :
      Move ok v { v.settle durable with phase := .closing, file := file }
  | release (v : View) (stop : Bool) (ns : Ns) (gen : UInt64)
      (hphase : v.phase = .releasing stop ns.val) (hring : (v.srcs ns).ring = some gen) :
      Move ok v (v.released stop ns
        (Function.update v.rings gen ((v.rings gen).release (v.srcs ns).taken)))
  | pass (v : View) (stop : Bool) (ns : Ns) (hphase : v.phase = .releasing stop ns.val)
      (hring : (v.srcs ns).ring = none) :
      Move ok v (v.released stop ns v.rings)
  | resume (v : View) (hphase : v.phase = .releasing false 2) : Move ok v { v with phase := .filling }
  | close (v : View) (hphase : v.phase = .releasing true 2) : Move ok v { v with phase := .closing }
  | killed (v : View) (durable : Bool)
      (hphase : durable = true → (v.phase = .noting 2 ∧ v.file = true) ∨ v.phase.Quiet) :
      Move ok v (v.settle durable).stopped

/-- Some moves. -/
abbrev Moves (ok : View → (Ns → Option UInt64) → Prop) : View → View → Prop :=
  Relation.ReflTransGen (Move ok)

end View

/-! ## What the steps of the concrete machine show -/

namespace Storaged

variable {s s' : Storaged} {w : Wal}

theorem view_pc (s : Storaged) (pc : Pc) :
    ({ s with pc := pc } : Storaged).view = { s.view with phase := pc.phase } := rfl

theorem view_srcs {srcs : Ns → Source} (hring : ∀ ns, (srcs ns).ring = (s.srcs ns).ring) :
    ({ s with srcs := srcs } : Storaged).view = { s.view with srcs := srcs } := by
  unfold view
  congr 1
  funext ns
  dsimp only
  rw [hring ns]

theorem view_setSrc {ns : Ns} {src : Source} (hring : src.ring = (s.srcs ns).ring) :
    (s.setSrc ns src).view = { s.view with srcs := Function.update s.srcs ns src } := by
  refine view_srcs ?_
  intro ns'
  by_cases hns : ns' = ns
  · rw [hns, Function.update_self, hring]
  · rw [Function.update_of_ne hns]

/-- A record added to the batch shows in what the batch notes. -/
theorem view_add (h : s.Booked) (hw : s.hist.wal = some w) (q : AddReq) (clk : BeginClock) :
    (s.add q clk).2.view = { s.view with
      note := fun ns => if (q.run w clk).1 then (seqMark ns q.content).or (s.view.note ns)
        else s.view.note ns } := by
  rcases h.laid.session hw with ⟨l, rs, -, hon, -⟩
  rcases walAdd_holds hon.holds (Prod.mk.eta.symm : q.run w clk = _) with ⟨-, -, hsame, -⟩
  rw [add_eq hw]
  unfold view
  congr 1
  · funext ns
    dsimp only
    split_ifs
    · exact lastSeqOf_append_singleton ns _ _
    · rfl
  · funext ns
    dsimp only
    rw [hw]
    dsimp only
    rw [hsame.recovered]
  · dsimp only
    rw [hw]
    dsimp only
    rw [hsame.fd]

/-- A record that is no note does not show. -/
theorem view_add_of_none (h : s.Booked) (hw : s.hist.wal = some w) {q : AddReq}
    (hmark : ∀ ns, seqMark ns q.content = none) (clk : BeginClock) :
    (s.add q clk).2.view = s.view := by
  rw [view_add h hw]
  have hnote : (fun ns => if (q.run w clk).1 then (seqMark ns q.content).or (s.view.note ns)
      else s.view.note ns) = s.view.note := by
    funext ns
    rw [hmark ns, Option.none_or, ite_self]
  rw [hnote]

/-- What a commit leaves in the log, and in the batch. -/
theorem Settled.mark {durable : Bool} (h : Settled s s' w durable) :
    (fun ns => lastSeqOf ns s'.log) = (s.view.settle durable).mark := by
  funext ns
  rw [h.log, lastSeqOf_append]
  cases durable with
  | true => rfl
  | false => rfl

theorem Settled.note {durable : Bool} (h : Settled s s' w durable) :
    (fun ns => lastSeqOf ns s'.hist.pending) = (s.view.settle durable).note := by
  funext ns
  rw [h.pending]
  rfl

/-- A process that is gone after a commit. -/
theorem Settled.view_exit {durable : Bool} (h : Settled s s' w durable) :
    s'.exit.view = (s.view.settle durable).stopped := by
  have hmark := h.mark
  have hlogged := h.logged
  rw [h.same] at hmark ⊢
  unfold view at hmark ⊢
  unfold exit View.stopped View.settle at *
  dsimp only at hmark ⊢
  congr 1

/-- A process that goes on after a commit. -/
theorem Settled.view_eq {durable ok : Bool} {w' : Wal} (hw : s.hist.wal = some w)
    (h : Settled s s' w durable) (hret : Returned s s' w w' durable ok) :
    s'.view = { s.view.settle durable with file := w'.fd.isSome } := by
  have hmark := h.mark
  have hnote := h.note
  have hlogged := h.logged
  have hwal := hret.wal
  rw [h.same] at hmark hnote hwal ⊢
  unfold view at hmark hnote ⊢
  unfold View.settle at *
  dsimp only at hmark hnote hwal ⊢
  congr 1
  · funext ns
    rw [hwal, hw]
    dsimp only
    rw [hret.session.recovered]
  · rw [hwal]

theorem view_exit : s.exit.view = (s.view.settle false).stopped := by
  unfold view exit View.stopped View.settle
  congr 1
  exact (List.append_nil s.logged).symm

/-! ### One step -/

variable {ok : View → (Ns → Option UInt64) → Prop}

theorem moves_of_eq {v v' : View} (h : v' = v) : View.Moves ok v v' := by
  rw [h]

theorem exit_moves (s : Storaged) : View.Moves ok s.view s.exit.view := by
  rw [view_exit]
  exact .single (.killed s.view false (by simp))

/-- A process that exits shows nothing of its open batch. -/
theorem add_exit (hw : s.hist.wal = some w) (q : AddReq) (clk : BeginClock) :
    (s.add q clk).2.exit.view = s.exit.view := by
  rw [add_eq hw]
  rfl

/-- A commit while the batch holds nothing from the sources. -/
theorem commit_moves (h : s.Sound) (hfits : s.hist.dir.size < diskBytes) (hw : s.hist.wal = some w)
    {now : Now} {io : CommitAns} (hundo : ¬ w.UndoFails io) (hquiet : s.pc.phase.Quiet)
    {r : Option Bool} (hrun : s.walCommit now io = (r, s')) :
    View.Moves ok s.view s'.exit.view ∧ (r = some true → View.Moves ok s.view s'.view) := by
  rcases walCommit_spec ⟨hfits, h.booked.laid⟩ hw hundo hrun with ⟨durable, hset, hafter⟩
  constructor
  · rw [hset.view_exit]
    exact .single (.killed s.view durable fun _ => Or.inr hquiet)
  · rintro rfl
    rcases hafter with ⟨w', hret⟩
    rw [hset.view_eq hw hret]
    refine .single (.flush s.view durable w'.fd.isSome hquiet ?_)
    intro hfile
    have hfd := hret.file (by simpa [Option.isSome_iff_ne_none] using hfile)
    show (match s.hist.wal with | some w => w.fd.isSome | none => false) = true
    rw [hw]
    exact Option.isSome_iff_ne_none.mpr hfd

theorem ns_eq_one {ns : Ns} (h : ns ≠ 0) : ns = 1 := by
  have hlt := ns.isLt
  have hne : ns.val ≠ 0 := fun hval => h (Fin.ext hval)
  exact Fin.ext (by show ns.val = 1; omega)

theorem nextGen_moves {v : View} {ns : Ns} (h : v.phase = .opening (ns.val + 1)) :
    View.Moves ok v { v with phase := (nextGen ns).phase } := by
  unfold nextGen
  by_cases hns : ns = 0
  · subst hns
    refine moves_of_eq ?_
    rw [if_pos rfl]
    show { v with phase := Phase.opening 1 } = v
    rw [show Phase.opening 1 = v.phase from h.symm]
  · obtain rfl := ns_eq_one hns
    exact .single (.decided v h)

theorem noteGen_moves (h : s.Sound) (hw : s.hist.wal = some w) {ns : Ns} (hpc : s.pc = .noteGen ns)
    (env : Env) : View.Moves ok s.view (s.noteGen w ns env).view := by
  have hphase : s.view.phase = .opening ns.val := by
    show s.pc.phase = _
    rw [hpc]
    rfl
  unfold Storaged.noteGen
  cases hring : (s.srcs ns).ring with
  | none =>
      refine .head (.absent s.view ns hphase hring) ?_
      exact @nextGen_moves ok { s.view with phase := .opening (ns.val + 1) } ns rfl
  | some gen =>
      dsimp only
      -- the decision is what the view says recovery found
      have hfound : s.view.found ns = foundIn w.recovered ns (some gen) := by
        show (match s.hist.wal with
          | some w => foundIn w.recovered ns (s.srcs ns).ring
          | none => none) = _
        rw [hw, hring]
      have hdecide : decideSkip w.recovered ns gen (s.srcs ns) =
          (s.srcs ns).decide (s.view.found ns) := by
        rw [hfound]
        by_cases hsame : w.recovered.ringGen ns = gen ∧ w.recovered.hasRingSeq ns = true
        · simp only [decideSkip, foundIn, if_pos hsame, Source.decide]
        · simp only [decideSkip, foundIn, if_neg hsame, Source.decide]
      have hsame : ((s.srcs ns).decide (s.view.found ns)).ring = (s.srcs ns).ring := by
        unfold Source.decide
        split <;> rfl
      rw [hdecide]
      generalize hsrc : (s.srcs ns).decide (s.view.found ns) = src at hsame
      have hsound : (s.setSrc ns src).Sound :=
        h.of_same ⟨h.booked.laid, h.booked.slots, h.booked.aligned, h.booked.batched⟩ rfl rfl
      have hview := view_add_of_none hsound.booked hw
        (fun ns' => seqMark_noteGeneration ns ns' gen w.src env.now) env.clk
      have hexit := @add_exit (s.setSrc ns src) w hw (noteGeneration ns gen w.src env.now) env.clk
      cases hrun : (s.setSrc ns src).add (noteGeneration ns gen w.src env.now) env.clk with
      | mk b s₁ =>
          rw [hrun] at hview hexit
          cases b with
          | true =>
              have hend : ({ s₁ with pc := .genCommit ns } : Storaged).view =
                  { s.view with
                    srcs := Function.update s.srcs ns ((s.srcs ns).decide (s.view.found ns))
                    phase := .opening (ns.val + 1) } := by
                show { s₁.view with phase := Phase.opening (ns.val + 1) } = _
                rw [hview, view_setSrc hsame, hsrc]
              dsimp only
              rw [hend]
              exact .single (.decide s.view ns gen hphase hring)
          | false =>
              dsimp only
              rw [hexit]
              exact exit_moves s

/-- `main` adds an event that is no RING_SEQ, or exits. -/
theorem addOrExit_moves (h : s.Sound) (hw : s.hist.wal = some w) {q : AddReq}
    (hmark : ∀ ns, seqMark ns q.content = none) (clk : BeginClock) {pc : Pc}
    (hpc : pc.phase = s.pc.phase) :
    View.Moves ok s.view (match s.add q clk with
      | (true, s) => { s with pc := pc }
      | (false, s) => s.exit).view := by
  have hview := view_add_of_none h.booked hw hmark clk
  have hexit := add_exit hw q clk
  cases hrun : s.add q clk with
  | mk b s₁ =>
      rw [hrun] at hview hexit
      cases b with
      | true =>
          refine moves_of_eq ?_
          show { s₁.view with phase := pc.phase } = s.view
          rw [hview, hpc]
          rfl
      | false =>
          dsimp only
          rw [hexit]
          exact exit_moves s

/-- `main` commits while the batch holds nothing from the sources, or exits. -/
theorem commitOrExit_moves (h : s.Sound) (hfits : s.hist.dir.size < diskBytes)
    (hw : s.hist.wal = some w) {now : Now} {io : CommitAns} (hundo : ¬ w.UndoFails io)
    (hquiet : s.pc.phase.Quiet) {pc : Pc}
    (hpc : ∀ v : View, v.phase = s.pc.phase → View.Moves ok v { v with phase := pc.phase }) :
    View.Moves ok s.view (match s.walCommit now io with
      | (some true, s) => { s with pc := pc }
      | (_, s) => s.exit).view := by
  cases hrun : s.walCommit now io with
  | mk r s₁ =>
      rcases walCommit_spec ⟨hfits, h.booked.laid⟩ hw hundo hrun with ⟨durable, hset, -⟩
      have hmoves := @commit_moves s s₁ w ok h hfits hw now io hundo hquiet r hrun
      rcases r with _ | _ | _
      · exact hmoves.1
      · exact hmoves.1
      · refine (hmoves.2 rfl).trans (hpc s₁.view ?_)
        show s₁.pc.phase = _
        rw [hset.same]

theorem drain_moves (h : s.Sound) (hw : s.hist.wal = some w) {ns : Ns} (hpc : s.pc = .drain ns)
    (env : Env) : View.Moves ok s.view (s.drain w ns env).view := by
  have hphase : s.view.phase = .filling := by
    show s.pc.phase = _
    rw [hpc]
    rfl
  rcases h.session hw with ⟨-, hsession⟩
  rcases drain_cases s w ns env with hend | ⟨gen, slot, hring, hfew, hpeek, hcase⟩
  · -- the end of the loop does not show
    refine moves_of_eq ?_
    rw [hend]
    show { s.view with phase := (nextDrain ns).phase } = s.view
    have hsame : (nextDrain ns).phase = s.view.phase := by
      rw [hphase]
      unfold nextDrain
      split_ifs <;> rfl
    rw [hsame]
  · rcases hcase with ⟨hskip, hend⟩ | ⟨hskip, hend⟩
    · rw [hend, view_setSrc (by rfl)]
      exact .single (.skip s.view ns gen slot hphase hring hpeek hskip)
    · rw [hpc] at hsession
      have hadd := h.booked.addSample hsession (Nat.zero_le _) hfew hpeek env.now env.clk
      have hmark : ∀ ns', seqMark ns' (sampleReq slot env.now).content = none := by
        intro ns'
        refine seqMark_of_ne_event ?_
        intro hkind
        cases hkind
      have hview := view_add_of_none h.booked hw hmark env.clk
      rw [hend hadd.1]
      generalize hs₁ : (s.add (sampleReq slot env.now) env.clk).2 = s₁ at hview ⊢
      rw [add_eq hw] at hs₁
      have hsrcs : s₁.srcs = s.srcs := by rw [← hs₁]
      have hbatch : s₁.batch = s.batch := by rw [← hs₁]
      have hrings : s₁.rings = s.rings := by rw [← hs₁]
      have htake : ∀ src batch, src.ring = (s.srcs ns).ring →
          ({ s₁.setSrc ns src with batch := batch } : Storaged).view = { s.view with
            srcs := Function.update s.srcs ns src, batch := batch } := by
        intro src batch hsame
        show { (s₁.setSrc ns src).view with batch := batch } = _
        rw [view_setSrc (by rw [hsrcs, hsame]), hview, hsrcs]
      rw [htake _ _ (by rfl), hbatch, hrings]
      exact .single (.take s.view ns gen slot hphase hring hpeek hskip)

theorem noteSeq_moves (h : s.Sound) (hw : s.hist.wal = some w) {stop noted : Bool} {ns : Ns}
    (hpc : s.pc = .noteSeq stop noted ns) (env : Env) :
    View.Moves ok s.view (s.noteSeq w stop noted ns env).view := by
  rcases h.session hw with ⟨-, hsession⟩
  have hphase : s.view.phase = .noting ns.val := by
    show s.pc.phase = _
    rw [hpc]
    rfl
  -- after the last source comes the commit, which is a phase of noting too
  have hnext : ∀ noted : Bool, (if ns = 0 then Pc.noteSeq stop noted 1 else Pc.commit stop noted).phase =
      .noting (ns.val + 1) := by
    intro noted
    by_cases hns : ns = 0
    · subst hns
      rfl
    · obtain rfl := ns_eq_one hns
      rfl
  have hmove : View.Move ok s.view _ := .note s.view ns hphase
  unfold Storaged.noteSeq
  dsimp only
  by_cases hadded : (s.srcs ns).added = true
  · rw [if_pos hadded]
    rw [hpc] at hsession
    have hok := hsession.noted ns (s.srcs ns).lastSeq env.now env.clk
    have hview := view_add h.booked hw (noteRingSeq ns (s.srcs ns).lastSeq w.src env.now) env.clk
    rw [hok]
    rw [add_eq hw] at hok
    -- a note about one source says nothing about the other
    have hnote : (fun ns' => if ((noteRingSeq ns (s.srcs ns).lastSeq w.src env.now).run w env.clk).1
        then (seqMark ns' (noteRingSeq ns (s.srcs ns).lastSeq w.src env.now).content).or
          (s.view.note ns') else s.view.note ns') =
        Function.update s.view.note ns (some (s.srcs ns).lastSeq) := by
      funext ns'
      rw [if_pos hok, seqMark_noteRingSeq]
      by_cases hns : ns' = ns
      · rw [hns, Function.update_self, if_pos rfl, Option.some_or]
      · rw [Function.update_of_ne hns, if_neg fun heq => hns heq.symm, Option.none_or]
    rw [hnote] at hview
    have hadded' : (s.view.srcs ns).added = true := hadded
    rw [if_pos hadded'] at hmove
    have hend : ∀ pc : Pc, pc.phase = .noting (ns.val + 1) →
        ({ (s.add (noteRingSeq ns (s.srcs ns).lastSeq w.src env.now) env.clk).2 with pc := pc } :
          Storaged).view = { s.view with
            note := Function.update s.view.note ns (some (s.srcs ns).lastSeq)
            phase := .noting (ns.val + 1) } := by
      intro pc hphase'
      show { (s.add _ env.clk).2.view with phase := pc.phase } = _
      rw [hview, hphase']
    rw [hend _ (hnext _)]
    exact .single hmove
  · have hadded' : ¬ (s.view.srcs ns).added = true := hadded
    rw [if_neg hadded]
    rw [if_neg hadded'] at hmove
    have hend : ({ s with pc := if ns = 0 then .noteSeq stop noted 1 else .commit stop noted } :
        Storaged).view = { s.view with phase := .noting (ns.val + 1) } := by
      rw [view_pc, hnext]
    rw [hend]
    exact .single hmove

theorem view_file (hw : s.hist.wal = some w) : s.view.file = w.fd.isSome := by
  unfold view
  dsimp only
  rw [hw]

theorem commitBatch_moves (h : s.Sound) (hfits : s.hist.dir.size < diskBytes)
    (hw : s.hist.wal = some w) {stop noted : Bool} (hpc : s.pc = .commit stop noted) {env : Env}
    (hundo : ¬ w.UndoFails env.commit) :
    View.Moves ok s.view (s.commitBatch stop noted env).view := by
  have hphase : s.view.phase = .noting 2 := by
    show s.pc.phase = _
    rw [hpc]
    rfl
  have hnoted := h.noted
  rw [hpc] at hnoted
  obtain rfl : noted = true := hnoted
  unfold Storaged.commitBatch
  rw [if_neg (by simp)]
  cases hrun : s.walCommit env.now env.commit with
  | mk r s₁ =>
      rcases walCommit_spec ⟨hfits, h.booked.laid⟩ hw hundo hrun with ⟨durable, hset, hafter⟩
      have hfile : durable = true → s.view.file = true := by
        intro hdurable
        rw [view_file hw]
        exact Option.isSome_iff_ne_none.mpr (hset.file hdurable)
      rcases r with _ | ok'
      · dsimp only
        rw [hset.view_exit]
        exact .single (.killed s.view durable fun hdurable => Or.inl ⟨hphase, hfile hdurable⟩)
      · rcases hafter with ⟨w', hret⟩
        have hview := hset.view_eq hw hret
        have hkeep : w'.fd.isSome = true → s.view.file = true := by
          intro hsome
          rw [view_file hw]
          exact Option.isSome_iff_ne_none.mpr (hret.file (Option.isSome_iff_ne_none.mp hsome))
        cases ok' with
        | true =>
            dsimp only
            rw [view_pc s₁, hview]
            cases durable with
            | true => exact .single (.acked s.view stop w'.fd.isSome hphase (hfile rfl))
            | false =>
                -- there was no batch to commit
                have hpending := (hret.acked rfl).resolve_left (by simp)
                have hbatch : s.batch = [] := by
                  have hbatched := h.booked.batched
                  rw [hpending] at hbatched
                  exact List.forall₂_nil_left_iff.mp hbatched
                refine .single (.empty s.view stop w'.fd.isSome hphase hbatch ?_ hkeep)
                intro ns
                show lastSeqOf ns s.hist.pending = none
                rw [hpending]
                rfl
        | false =>
            dsimp only
            split_ifs with hstop
            · rw [view_pc s₁, hview]
              exact .single (.giveUp s.view durable w'.fd.isSome hphase hfile)
            · have hsrcs : s₁.srcs = s.srcs := by rw [hset.same]
              have hend : s₁.startAgain.view =
                  { s₁.view with phase := .filling, srcs := View.rewind s₁.srcs } := by
                have hagain := @view_srcs { s₁ with pc := .top } (View.rewind s₁.srcs) fun _ => rfl
                exact hagain
              rw [hend, hview, hsrcs]
              refine .single (.retry s.view durable w'.fd.isSome hphase ?_ hkeep)
              intro hdurable
              refine ⟨hfile hdurable, ?_⟩
              rw [hret.lost rfl hdurable]
              rfl

theorem release_moves {stop : Bool} {ns : Ns} (hpc : s.pc = .release stop ns) :
    View.Moves ok s.view (s.release stop ns).view := by
  have hphase : s.view.phase = .releasing stop ns.val := by
    show s.pc.phase = _
    rw [hpc]
    rfl
  -- behind the last source the loop ends
  have hnext : ∀ v : View, v.phase = .releasing stop (ns.val + 1) → View.Moves ok v { v with
      phase := (if ns = 0 then Pc.release stop 1 else if stop then .closeCommit else .top).phase } := by
    intro v hv
    by_cases hns : ns = 0
    · subst hns
      refine moves_of_eq ?_
      rw [if_pos rfl]
      show { v with phase := Phase.releasing stop 1 } = v
      rw [show Phase.releasing stop 1 = v.phase from hv.symm]
    · obtain rfl := ns_eq_one hns
      cases stop with
      | true => exact .single (.close v hv)
      | false => exact .single (.resume v hv)
  have hview : ∀ rings, ∀ srcs : Ns → Source, (∀ ns, (srcs ns).ring = (s.srcs ns).ring) → ∀ pc : Pc,
      ({ s with rings := rings, srcs := srcs, pc := pc } : Storaged).view =
        { s.view with rings := rings, srcs := srcs, phase := pc.phase } := by
    intro rings srcs hring pc
    exact @view_srcs { s with rings := rings, pc := pc } srcs hring
  have hring : ∀ ns', ((if stop then s.srcs else Function.update s.srcs ns
      { s.srcs ns with taken := 0, added := false }) ns').ring = (s.srcs ns').ring := by
    intro ns'
    split_ifs
    · rfl
    · by_cases hns : ns' = ns
      · rw [hns, Function.update_self]
      · rw [Function.update_of_ne hns]
  cases hgen : (s.srcs ns).ring with
  | none =>
      rw [release_none hgen]
      have hend := hview s.rings _ hring
      rw [hend]
      exact .head (.pass s.view stop ns hphase hgen) (hnext _ rfl)
  | some gen =>
      rw [release_some hgen, hview _ _ hring]
      exact .head (.release s.view stop ns gen hphase hgen) (hnext _ rfl)

/-- Every step of `main` is a run of moves. -/
theorem advance_moves (h : s.Sound) (hfits : s.hist.dir.size < diskBytes)
    (hw : s.hist.wal = some w) {env : Env} (hundo : s.pc.Commits → ¬ w.UndoFails env.commit) :
    View.Moves ok s.view (s.advance w env).view := by
  rcases h.session hw with ⟨hrun, -⟩
  -- a step that only decides where to go on, still filling or at the notes
  have hgo : ∀ (b : Bool) (pc pc' : Pc), s.pc.phase = .filling → pc.phase = .noting 0 →
      pc'.phase = .filling →
      View.Moves ok s.view ({ s with pc := if b then pc else pc' } : Storaged).view := by
    intro b pc pc' hphase hnoting hfilling
    rw [view_pc s (if b then pc else pc')]
    cases b with
    | true =>
        rw [if_pos rfl, hnoting]
        exact .single (.finish s.view hphase)
    | false =>
        rw [if_neg (by simp), hfilling, ← hphase]
        exact .refl
  unfold Storaged.advance
  cases hpc : s.pc with
  | down => exact absurd hpc hrun
  | boot =>
      refine addOrExit_moves h hw ?_ env.clk (by rw [hpc]; rfl)
      intro ns
      exact seqMark_of_ne_event fun hkind => by cases hkind
  | bootCommit =>
      refine commitOrExit_moves h hfits hw (hundo (by rw [hpc]; trivial)) (by rw [hpc]; trivial) ?_
      intro v hv
      rw [hpc] at hv
      exact moves_of_eq (by rw [show (Pc.noteGen 0).phase = v.phase from hv.symm])
  | noteGen ns => exact noteGen_moves h hw hpc env
  | genCommit ns =>
      refine commitOrExit_moves h hfits hw (hundo (by rw [hpc]; trivial)) (by rw [hpc]; trivial) ?_
      intro v hv
      rw [hpc] at hv
      exact nextGen_moves hv
  | top => exact hgo env.stop _ _ (by rw [hpc]; rfl) rfl rfl
  | drain ns => exact drain_moves h hw hpc env
  | due => exact hgo (s.isDue w env) _ _ (by rw [hpc]; rfl) rfl rfl
  | noteSeq stop noted ns => exact noteSeq_moves h hw hpc env
  | commit stop noted => exact commitBatch_moves h hfits hw hpc (hundo (by rw [hpc]; trivial))
  | release stop ns => exact release_moves hpc
  | closeCommit =>
      refine commitOrExit_moves h hfits hw (hundo (by rw [hpc]; trivial)) (by rw [hpc]; trivial) ?_
      intro v hv
      rw [hpc] at hv
      exact moves_of_eq (by rw [show Pc.shutdown.phase = v.phase from hv.symm])
  | shutdown =>
      refine addOrExit_moves h hw ?_ env.clk (by rw [hpc]; rfl)
      intro ns
      exact seqMark_of_ne_event fun hkind => by cases hkind
  | shutCommit =>
      exact (commit_moves h hfits hw (hundo (by rw [hpc]; trivial)) (by rw [hpc]; trivial)
        Prod.mk.eta.symm).1

/-- The findings a process starts with. -/
def findings (s : Storaged) (ns : Ns) : Option UInt64 :=
  foundIn (newestScan s.hist.dir) ns (s.current ns)

/-- What recovery finds is the last position noted in the log. -/
theorem findings_eq (hinv : s.hist.Inv) {ns : Ns} {m : UInt64} (hfound : s.findings ns = some m) :
    s.view.mark ns = some m := by
  unfold findings foundIn at hfound
  cases hring : s.current ns with
  | none =>
      rw [hring] at hfound
      cases hfound
  | some gen =>
      rw [hring] at hfound
      dsimp only at hfound
      split_ifs at hfound with hsame
      rw [← hfound]
      exact hinv.newestScan_ringSeq hsame.2

theorem start_moves (h : s.Sound) (hfits : s.hist.dir.size < diskBytes) (src : UInt8) (io : OpenAns)
    (hok : s.pc = .down → ok s.view s.findings) : View.Moves ok s.view (s.start src io).view := by
  unfold Storaged.start
  split_ifs with hguard
  · exact .refl
  · have hpc : s.pc = .down := by
      by_contra hne
      exact hguard (Or.inl hne)
    rcases h.live with ⟨-, hidle, hpending⟩ | ⟨hne, -⟩
    · have hinv : s.hist.Inv := ⟨hfits, h.booked.laid⟩
      -- opening the log keeps its records, and so what they say of each source
      have hmark : ∀ ns, lastSeqOf ns (contents (keptRecords (s.hist.apply
          (.openLog src 0 io)).dir)) = s.view.mark ns := by
        intro ns
        rw [Hist.keptRecords_openLog hinv]
        rfl
      have hnote : ∀ ns, lastSeqOf ns ([] : List Content) = s.view.note ns := by
        intro ns
        show _ = lastSeqOf ns s.hist.pending
        rw [hpending]
      dsimp only
      rcases Hist.openLog_session hinv hidle src 0 io with ⟨hnone, hsame⟩ | ⟨w, hsome, hnil, hopened⟩
      -- the log could not be opened, and nothing of the view has changed
      · rw [hnone]
        refine moves_of_eq ?_
        unfold view at hmark ⊢
        dsimp only at hmark ⊢
        rw [hnone, hidle, hsame]
        congr 1
        exact funext hmark
      · rw [hsome]
        have hend : ({ s with
            hist := s.hist.apply (.openLog src 0 io)
            pc := .boot
            srcs := fun ns => { ring := s.current ns } } : Storaged).view =
            { s.view with
              phase := .opening 0
              srcs := fun ns => { ring := s.current ns }
              found := s.findings
              file := w.fd.isSome } := by
          unfold view at hmark hnote ⊢
          dsimp only at hmark hnote ⊢
          rw [hsome, hnil]
          dsimp only
          rw [hopened.recovered]
          congr 1
          · exact funext hmark
          · exact funext hnote
        dsimp only
        rw [hend]
        refine .single (.attach s.view s.findings w.fd.isSome (by show s.pc.phase = _; rw [hpc]; rfl)
          ?_ (hok hpc))
        intro ns m hfound
        exact findings_eq hinv hfound
    · exact absurd hpc hne

theorem push_moves (s : Storaged) (gen : UInt64) (slot : Slot) :
    View.Moves ok s.view (s.push gen slot).view := by
  unfold Storaged.push
  split_ifs with hguard
  · exact .refl
  · push Not at hguard
    rcases hguard with ⟨howner, -, hroom⟩
    exact .single (.push s.view gen _ howner hroom rfl)

theorem create_moves (s : Storaged) (ns : Ns) (gen : UInt64) :
    View.Moves ok s.view (s.create ns gen).view := by
  unfold Storaged.create
  split_ifs with hgen
  · exact .single (.create s.view ns gen hgen)
  · exact .refl

/-- Every action of the concrete machine is a run of moves. -/
theorem apply_moves (h : s.Inv) {a : Act} (hundo : a.UndoOk s)
    (hok : ∀ src io, a = .start src io → s.pc = .down → ok s.view s.findings) :
    View.Moves ok s.view (s.step a).view := by
  unfold Storaged.step
  split_ifs
  · cases a with
    | create ns gen => exact create_moves s ns gen
    | push gen slot => exact push_moves s gen slot
    | start src io => exact start_moves h.sound h.fits src io (hok src io rfl)
    | kill => exact exit_moves s
    | step env =>
        unfold Storaged.apply
        dsimp only
        cases hw : s.hist.wal with
        | none => exact .refl
        | some w => exact advance_moves h.sound h.fits hw fun hcommits => hundo hcommits w hw
  · exact .refl

end Storaged

end Carwatch.Store
