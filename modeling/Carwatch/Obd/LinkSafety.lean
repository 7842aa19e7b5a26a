import Carwatch.Lib.Search
import Carwatch.Obd.Link

/-!
# Carwatch.Obd.LinkSafety — no reply is taken for another's

The runs of `Carwatch.Obd.Link`. What carries the proofs is that at most one
reply is under way: either the line is quiet, or one command is on its way to
the server, or its reply is on the way back. A bare CR is a blank line to the
server, so it may stand anywhere.

* `Inv` — the three situations, and the end of a session;
* `inv_step` — every action keeps them, one lemma for each action;
* `reply_is_answer`, `query_reads_engine` — what a caller gets;
* `session_is_synth` — and how its session is labelled;
* `comes_back` — after any timeouts the next command can succeed.
-/

namespace Carwatch.Obd

open Carwatch.Lib (Bytes memmem run run_nil run_cons run_append run_invariant)
open Carwatch.BoardSync (Text isSpace strip)

/-! ## Histories -/

/-- A command and the server's entry for it: the same line, and nothing but
its reply was returned. -/
def Kept (a : Command × Option Text) (b : Text × ℚ × Text) : Prop :=
  b.1 = a.1.text ∧ (a.2 = none ∨ a.2 = some b.2.2)

/-- What is in the adapter's hands of a reply it reads. -/
def Phase.got : Phase → Text
  | .reading _ _ got => got
  | .idle | .lost => []

/-- The reply to `c` is the one that is waited for, or a stale one. -/
def Stage.Owed (stale : Bool) (c c' : Command) : Stage → Prop
  | .settle | .interrupt => stale = true
  | .reply => stale = false ∧ c' = c

/-- The adapter knows that the reply to `c` is under way. -/
def Phase.Owed (stale : Bool) (c : Command) : Phase → Prop
  | .idle => stale = true
  | .reading stage c' _ => stage.Owed stale c c'
  | .lost => False

/-- Nothing but carriage returns. -/
def Returns (t : Text) : Prop := ∀ c ∈ t, c = '\r'

/-- What the server has not handled. -/
def Link.inbound (s : Link) : Text := s.line ++ s.toSim

/-- The situations a session can be in. -/
inductive Inv (s : Link) : Prop where
  /-- Nothing is under way. -/
  | quiet (hphase : s.phase = .idle) (hstale : s.stale = false) (hin : Returns s.inbound)
      (hout : s.toAdapter = []) (hkept : List.Forall₂ Kept s.asked s.served)
  /-- A command is under way to the server. -/
  | sent (done : List (Command × Option Text)) (c : Command) (before after : Text)
      (howed : s.phase.Owed s.stale c) (hgot : s.phase.got = [])
      (hin : s.inbound = before ++ c.text ++ '\r' :: after)
      (hbefore : Returns before) (hafter : Returns after) (hout : s.toAdapter = [])
      (hasked : s.asked = done ++ [(c, none)]) (hkept : List.Forall₂ Kept done s.served)
  /-- Its reply is under way to the adapter. -/
  | replied (done : List (Command × Option Text)) (c : Command) (log : List (Text × ℚ × Text))
      (t : ℚ) (raw body : Text)
      (howed : s.phase.Owed s.stale c) (hin : Returns s.inbound)
      (hrest : s.phase.got ++ s.toAdapter = body ++ ['>']) (hbody : '>' ∉ body)
      (hgot : '>' ∉ s.phase.got)
      (hwhole : ∀ c' got, s.phase = .reading .reply c' got → raw = body ++ ['>'])
      (hasked : s.asked = done ++ [(c, none)]) (hserved : s.served = log ++ [(c.text, t, raw)])
      (hkept : List.Forall₂ Kept done log)
  /-- The session is over. -/
  | lost (done tail : List (Command × Option Text)) (hphase : s.phase = .lost)
      (hasked : s.asked = done ++ tail) (hlen : tail.length ≤ 1) (htail : ∀ a ∈ tail, a.2 = none)
      (hkept : List.Forall₂ Kept done s.served)

theorem inv_start (twoEcu : List UInt8) : Inv (Link.start twoEcu) :=
  .quiet rfl rfl (fun _ hc => absurd hc List.not_mem_nil) rfl .nil

/-! ## Prompts and returns -/

theorem atPrompt_of_notMem {got : Text} (h : '>' ∉ got) : atPrompt got = false := by
  rw [atPrompt, beq_eq_false_iff_ne]
  intro hlast
  obtain ⟨w, hw⟩ := List.rdropWhile_prefix isByteSpace (l := got)
  apply h
  rw [← hw]
  exact List.mem_append_left _ (List.mem_of_getLast? hlast)

theorem atPrompt_append (body : Text) : atPrompt (body ++ ['>']) = true := by
  rw [atPrompt, List.rdropWhile_concat_neg _ _ _ (by decide), List.getLast?_concat]
  rfl

/-- What was read of a reply stops short of its prompt, or is all of it. -/
theorem prompt_split {got rest body : Text} (h : got ++ rest = body ++ ['>']) (hbody : '>' ∉ body) :
    ('>' ∉ got ∧ ∃ left, rest = left ++ ['>'] ∧ '>' ∉ left) ∨ (got = body ++ ['>'] ∧ rest = []) := by
  rcases List.eq_nil_or_concat rest with rfl | ⟨left, c, rfl⟩
  · right
    rw [List.append_nil] at h
    exact ⟨h, rfl⟩
  · left
    rw [List.concat_eq_append, ← List.append_assoc] at h
    obtain ⟨hleft, hc⟩ := List.append_inj' h rfl
    rw [← hleft, List.mem_append, not_or] at hbody
    refine ⟨hbody.1, left, ?_, hbody.2⟩
    rw [List.concat_eq_append, hc]

theorem Returns.append {a b : Text} : Returns (a ++ b) ↔ Returns a ∧ Returns b :=
  List.forall_mem_append

theorem returns_one : Returns ['\r'] := fun _ hc => List.mem_singleton.mp hc

/-- The reply to the one command that is under way belongs to it. -/
theorem kept_concat {done : List (Command × Option Text)} {log : List (Text × ℚ × Text)}
    (h : List.Forall₂ Kept done log) (c : Command) (t : ℚ) {out : Option Text} {raw : Text}
    (hout : out = none ∨ out = some raw) :
    List.Forall₂ Kept (done ++ [(c, out)]) (log ++ [(c.text, t, raw)]) :=
  List.rel_append h (.cons ⟨rfl, hout⟩ .nil)

/-! ## One action -/

section Steps

variable {r : Rounding} {drive : ℚ → Vehicle} {s : Link}

/-- Nothing is owed to a session that is over. -/
theorem Phase.Owed.ne_lost {stale : Bool} {c : Command} {p : Phase} (h : p.Owed stale c) : p ≠ .lost := by
  rintro rfl
  exact h

/-- Writing a command on a line where nothing is under way. -/
theorem inv_send {c : Command} (hin : Returns s.inbound)
    (hkept : List.Forall₂ Kept s.asked s.served) : Inv (s.send c) := by
  refine .sent s.asked c s.inbound [] ⟨rfl, rfl⟩ rfl ?_ hin (fun _ h => absurd h List.not_mem_nil) rfl
    rfl hkept
  simp [Link.send, Link.inbound]

theorem inv_command (h : Inv s) (c : Command) : Inv (s.command c) := by
  rcases hp : s.phase with _ | ⟨stage, c', got⟩ | _
  · rw [command_idle hp]
    cases h with
    | quiet hphase hstale hin hout hkept =>
        rw [if_neg (by rw [hstale]; decide)]
        exact inv_send hin hkept
    | sent done c₀ before after howed hgot hin hbefore hafter hout hasked hkept =>
        have hstale : s.stale = true := by rwa [hp] at howed
        rw [if_pos hstale]
        exact .sent done c₀ before after hstale rfl hin hbefore hafter hout hasked hkept
    | replied done c₀ log t raw body howed hin hrest hbody hgot hwhole hasked hserved hkept =>
        have hstale : s.stale = true := by rwa [hp] at howed
        rw [hp] at hrest
        rw [if_pos hstale]
        exact .replied done c₀ log t raw body hstale hin hrest hbody List.not_mem_nil
          (fun _ _ h => nomatch h) hasked hserved hkept
    | lost done tail hphase =>
        rw [hp] at hphase
        cases hphase
  · rw [command_reading hp]
    exact h
  · have hsame : s.command c = s := by rw [Link.command, hp]
    rw [hsame]
    exact h

/-- Giving up drops what was read, and sends a bare CR at most. -/
theorem giveUp_cases (s : Link) :
    s.giveUp = s ∨
      ∃ phase stale extra, s.giveUp = { s with phase, stale, toSim := s.toSim ++ extra } ∧
        phase.got = [] ∧ Returns extra ∧ (∀ c' got, phase ≠ .reading .reply c' got) ∧
        (s.phase ≠ .idle) ∧ ∀ c, s.phase.Owed s.stale c → phase.Owed stale c := by
  rcases hp : s.phase with _ | ⟨stage, c, got⟩ | _
  · left
    rw [Link.giveUp, hp]
  · right
    cases stage with
    | settle =>
        refine ⟨.reading .interrupt c [], s.stale, ['\r'], by rw [Link.giveUp, hp], rfl, returns_one,
          fun _ _ h => (nomatch h), fun h => (nomatch h), fun _ h => h⟩
    | interrupt =>
        refine ⟨.idle, s.stale, [], by rw [Link.giveUp, hp, List.append_nil], rfl,
          fun _ h => absurd h List.not_mem_nil, fun _ _ h => (nomatch h), fun h => (nomatch h),
          fun _ h => h⟩
    | reply =>
        refine ⟨.idle, true, [], by rw [Link.giveUp, hp, List.append_nil], rfl,
          fun _ h => absurd h List.not_mem_nil, fun _ _ h => (nomatch h), fun h => (nomatch h),
          fun _ _ => rfl⟩
  · left
    rw [Link.giveUp, hp]

theorem inv_giveUp (h : Inv s) : Inv s.giveUp := by
  rcases giveUp_cases s with hsame | ⟨phase, stale, extra, hstep, hnil, hextra, hno, hbusy, howes⟩
  · rw [hsame]
    exact h
  rw [hstep]
  cases h with
  | quiet hphase hstale hin hout hkept => exact absurd hphase hbusy
  | lost done tail hphase hasked hlen htail hkept =>
      have hsame : s.giveUp = s := by rw [Link.giveUp, hphase]
      rw [← hstep, hsame]
      exact .lost done tail hphase hasked hlen htail hkept
  | sent done c before after howed hgot hin hbefore hafter hout hasked hkept =>
      -- the bare CR goes behind whatever is on the way
      refine .sent done c before (after ++ extra) (howes c howed) hnil ?_ hbefore
        (Returns.append.mpr ⟨hafter, hextra⟩) hout hasked hkept
      show s.line ++ (s.toSim ++ extra) = _
      rw [← List.append_assoc]
      exact (congrArg (· ++ extra) hin).trans (by simp)
  | replied done c log t raw body howed hin hrest hbody hgot hwhole hasked hserved hkept =>
      -- what was read is dropped; the prompt is still to come
      rcases prompt_split hrest hbody with ⟨-, left, hleft, hclean⟩ | ⟨hall, -⟩
      · refine .replied done c log t raw left (howes c howed) ?_ ?_ hclean ?_
          (fun c' got h => absurd h (hno c' got)) hasked hserved hkept
        · show Returns (s.line ++ (s.toSim ++ extra))
          rw [← List.append_assoc]
          exact Returns.append.mpr ⟨hin, hextra⟩
        · show phase.got ++ s.toAdapter = _
          rw [hnil, hleft]
          rfl
        · show '>' ∉ phase.got
          rw [hnil]
          exact List.not_mem_nil
      · exact absurd (hall ▸ List.mem_append_right _ List.mem_cons_self) hgot

theorem inv_lose (h : Inv s) : Inv { s with phase := .lost } := by
  cases h with
  | quiet hphase hstale hin hout hkept =>
      exact .lost s.asked [] rfl (List.append_nil _).symm (Nat.zero_le 1)
        (fun _ h => absurd h List.not_mem_nil) hkept
  | sent done c before after howed hgot hin hbefore hafter hout hasked hkept =>
      refine .lost done [(c, none)] rfl hasked le_rfl ?_ hkept
      intro a ha
      rw [List.mem_singleton.mp ha]
  | replied done c log t raw body howed hin hrest hbody hgot hwhole hasked hserved hkept =>
      refine .lost s.asked [] rfl (List.append_nil _).symm (Nat.zero_le 1)
        (fun _ h => absurd h List.not_mem_nil) ?_
      show List.Forall₂ Kept s.asked s.served
      rw [hasked, hserved]
      exact kept_concat hkept c t (Or.inl rfl)
  | lost done tail hphase hasked hlen htail hkept => exact .lost done tail rfl hasked hlen htail hkept

/-- A reply that was read to its prompt settles the debt. -/
theorem inv_prompted {done : List (Command × Option Text)} {c : Command}
    {log : List (Text × ℚ × Text)} {t : ℚ} {raw got : Text} {stage : Stage} {c' : Command}
    (hin : Returns s.inbound) (hout : s.toAdapter = []) (howed : (Phase.reading stage c' got).Owed s.stale c)
    (hwhole : stage = .reply → raw = got) (hasked : s.asked = done ++ [(c, none)])
    (hserved : s.served = log ++ [(c.text, t, raw)]) (hkept : List.Forall₂ Kept done log) :
    Inv (s.prompted stage c' got) := by
  have hold : List.Forall₂ Kept s.asked s.served := by
    rw [hasked, hserved]
    exact kept_concat hkept c t (Or.inl rfl)
  cases stage with
  | settle => exact inv_send hin hold
  | interrupt => exact inv_send hin hold
  | reply =>
      obtain ⟨hstale, rfl⟩ := howed
      refine .quiet rfl hstale hin hout ?_
      show List.Forall₂ Kept (s.asked.dropLast ++ [(c', some got)]) s.served
      rw [hasked, List.dropLast_concat, hserved]
      exact kept_concat hkept c' t (Or.inr (congrArg some (hwhole rfl).symm))

theorem inv_read (h : Inv s) (n : ℕ) : Inv (s.read n) := by
  rcases hp : s.phase with _ | ⟨stage, c', got⟩ | _
  · rw [read_idle hp]
    exact h
  · rw [read_reading hp]
    cases h with
    | quiet hphase =>
        rw [hp] at hphase
        cases hphase
    | lost done tail hphase =>
        rw [hp] at hphase
        cases hphase
    | sent done c before after howed hgot hin hbefore hafter hout hasked hkept =>
        -- nothing has come yet
        rw [hp] at hgot howed
        have hgot' : got = [] := hgot
        rw [hout, List.take_nil, List.append_nil, hgot', if_neg (by decide)]
        exact .sent done c before after howed rfl hin hbefore hafter List.drop_nil hasked hkept
    | replied done c log t raw body howed hin hrest hbody hgot hwhole hasked hserved hkept =>
        have hwhole' := hwhole c' got
        rw [hp] at howed hrest hwhole'
        rw [← List.take_append_drop n s.toAdapter, ← List.append_assoc] at hrest
        rcases prompt_split hrest hbody with ⟨hclean, -⟩ | ⟨hall, hnil⟩
        · have hclean' : '>' ∉ got ++ s.toAdapter.take n := hclean
          rw [if_neg (by rw [atPrompt_of_notMem hclean']; decide)]
          exact .replied done c log t raw body howed hin hrest hbody hclean
            (fun c₁ got₁ h => hwhole' (by cases h; rfl)) hasked hserved hkept
        · have hgot' : got ++ s.toAdapter.take n = body ++ ['>'] := hall
          rw [if_pos (by rw [hgot']; exact atPrompt_append body)]
          refine inv_prompted hin hnil howed ?_ hasked hserved hkept
          rintro rfl
          rw [hgot']
          exact hwhole' rfl
  · have hsame : s.read n = s := by rw [Link.read, hp]
    rw [hsame]
    exact h

/-- The server's reading moves no byte past another. -/
theorem inv_fetch (h : Inv s) (n : ℕ) : Inv (s.fetch n) := by
  unfold Link.fetch
  split
  · exact h
  have hin : ({ s with line := s.line ++ s.toSim.take n, toSim := s.toSim.drop n } : Link).inbound
      = s.inbound := by
    show (s.line ++ s.toSim.take n) ++ s.toSim.drop n = s.line ++ s.toSim
    rw [List.append_assoc, List.take_append_drop]
  cases h with
  | quiet hphase hstale hin' hout hkept => exact .quiet hphase hstale (hin ▸ hin') hout hkept
  | sent done c before after howed hgot hin' hbefore hafter hout hasked hkept =>
      exact .sent done c before after howed hgot (hin.trans hin') hbefore hafter hout hasked hkept
  | replied done c log t raw body howed hin' hrest hbody hgot hwhole hasked hserved hkept =>
      exact .replied done c log t raw body howed (hin ▸ hin') hrest hbody hgot hwhole hasked hserved
        hkept
  | lost done tail hphase hasked hlen htail hkept => exact .lost done tail hphase hasked hlen htail hkept

/-- A line of carriage returns is blank. -/
theorem serve_returns {t : ℚ} {rest : Text} (hline : s.line = '\r' :: rest) :
    s.serve r drive t = { s with line := rest } := by
  have htake : s.line.takeWhile (· ≠ '\r') = [] := by rw [hline]; rfl
  have hdrop : (s.line.dropWhile (· ≠ '\r')).tail = rest := by rw [hline]; rfl
  rw [Link.serve, if_pos (by rw [hline]; exact List.mem_cons_self), htake, hdrop]
  exact if_pos rfl

/-- A command at the head of the buffer is handled. -/
theorem serve_command {t : ℚ} {c : Command} {rest : Text} (hline : s.line = c.text ++ '\r' :: rest) :
    s.serve r drive t =
      { s with
        line := rest
        sim := (handle r (drive t) s.sim c.text).1
        toAdapter := s.toAdapter ++ (handle r (drive t) s.sim c.text).2
        served := s.served ++ [(c.text, t, (handle r (drive t) s.sim c.text).2)] } := by
  have hone : ∀ d ∈ c.text, (d ≠ '\r') = True ∧ (d ≠ '\n') = True := by
    intro d hd
    have hnew := c.oneLine d hd
    rw [isNewline, Bool.or_eq_false_iff, beq_eq_false_iff_ne, beq_eq_false_iff_ne] at hnew
    exact ⟨eq_true hnew.1, eq_true hnew.2⟩
  have htake : s.line.takeWhile (· ≠ '\r') = c.text := by
    rw [hline, List.takeWhile_append_of_pos fun d hd => by simpa using (hone d hd).1]
    exact List.append_nil _
  have hdrop : (s.line.dropWhile (· ≠ '\r')).tail = rest := by
    rw [hline, List.dropWhile_append_of_pos fun d hd => by simpa using (hone d hd).1]
    rfl
  have hfeed : c.text.filter (· ≠ '\n') = c.text := by
    rw [List.filter_eq_self]
    exact fun d hd => by simpa using (hone d hd).2
  rw [Link.serve, if_pos (by rw [hline]; simp), htake, hdrop, hfeed]
  exact if_neg c.spoken

theorem inv_serve (h : Inv s) (hopen : s.phase ≠ .lost) (t : ℚ) : Inv (s.serve r drive t) := by
  by_cases hcr : '\r' ∈ s.line
  swap
  · have hsame : s.serve r drive t = s := by rw [Link.serve, if_neg hcr]
    rw [hsame]
    exact h
  -- when all that waits is carriage returns, one of them goes
  have hblank : Returns s.inbound →
      ∃ rest, s.serve r drive t = { s with line := rest } ∧ Returns (rest ++ s.toSim) := by
    intro hin
    obtain ⟨hline, hsim⟩ := Returns.append.mp hin
    rcases hl : s.line with _ | ⟨d, rest⟩
    · rw [hl] at hcr
      cases hcr
    · rw [hl] at hline
      have hd : d = '\r' := hline d List.mem_cons_self
      refine ⟨rest, serve_returns (hl.trans (by rw [hd])), Returns.append.mpr ⟨?_, hsim⟩⟩
      exact fun e he => hline e (List.mem_cons_of_mem d he)
  cases h with
  | quiet hphase hstale hin hout hkept =>
      obtain ⟨rest, hstep, hrest⟩ := hblank hin
      rw [hstep]
      exact .quiet hphase hstale hrest hout hkept
  | replied done c log t' raw body howed hin hrest hbody hgot hwhole hasked hserved hkept =>
      obtain ⟨rest, hstep, hrest'⟩ := hblank hin
      rw [hstep]
      exact .replied done c log t' raw body howed hrest' hrest hbody hgot hwhole hasked hserved hkept
  | sent done c before after howed hgot hin hbefore hafter hout hasked hkept =>
      rcases before with _ | ⟨d, before⟩
      · -- the command itself is the next line
        obtain ⟨rest, hline, hafter'⟩ : ∃ rest, s.line = c.text ++ '\r' :: rest ∧
            after = rest ++ s.toSim := by
          rcases List.append_eq_append_iff.mp hin with ⟨w, hw, hw'⟩ | ⟨w, hw, hw'⟩
          · -- the buffer would end inside the command
            exfalso
            rw [List.nil_append] at hw
            have hmem : '\r' ∈ c.text := hw ▸ List.mem_append_left _ hcr
            have hno := c.oneLine _ hmem
            cases hno
          · rcases w with _ | ⟨e, w⟩
            · exfalso
              rw [List.append_nil, List.nil_append] at hw
              have hno := c.oneLine _ (hw ▸ hcr)
              cases hno
            · rw [List.cons_append, List.cons.injEq] at hw'
              refine ⟨w, ?_, hw'.2⟩
              rw [hw, hw'.1]
              rfl
        obtain ⟨body, hprompt, hbody⟩ := handle_prompt r (drive t) s.sim c.noPrompt
        rw [serve_command hline]
        refine .replied done c s.served t _ body howed ?_ ?_ hbody ?_ (fun _ _ _ => hprompt) hasked rfl
          hkept
        · show Returns (rest ++ s.toSim)
          exact hafter' ▸ hafter
        · show s.phase.got ++ (s.toAdapter ++ _) = _
          rw [hgot, hout]
          exact hprompt
        · show '>' ∉ s.phase.got
          rw [hgot]
          exact List.not_mem_nil
      · -- a carriage return stands before it
        have hd : d = '\r' := hbefore d List.mem_cons_self
        rcases hl : s.line with _ | ⟨e, rest⟩
        · rw [hl] at hcr
          cases hcr
        · rw [Link.inbound, hl, List.cons_append, List.cons_append, List.cons_append,
            List.cons.injEq] at hin
          rw [serve_returns (hl.trans (by rw [hin.1, hd]))]
          exact .sent done c before after howed hgot (by
            show rest ++ s.toSim = _
            exact hin.2) (fun e he => hbefore e (List.mem_cons_of_mem d he)) hafter hout hasked hkept
  | lost done tail hphase => exact absurd hphase hopen

/-- Every action keeps the situations. -/
theorem inv_step (h : Inv s) (a : Act) : Inv (step r drive s a) := by
  by_cases hopen : s.phase = .lost
  · rw [step_lost hopen]
    exact h
  · rw [step_cases hopen]
    cases a with
    | command c => exact inv_command h c
    | read n => exact inv_read h n
    | giveUp => exact inv_giveUp h
    | lose => exact inv_lose h
    | fetch n => exact inv_fetch h n
    | serve t => exact inv_serve h hopen t

end Steps

/-! ## Safety -/

section Runs

variable (r : Rounding) (drive : ℚ → Vehicle) (twoEcu : List UInt8)

/-- The server's entries are what the simulator answers. -/
def Made (s : Link) : Prop :=
  s.sim.twoEcu = twoEcu ∧ ∀ e ∈ s.served, ∃ sim : Simulator, sim.twoEcu = twoEcu ∧
    e.2.2 = (handle r (drive e.2.1) sim e.1).2

theorem made_serve {s : Link} (h : Made r drive twoEcu s) (t : ℚ) :
    Made r drive twoEcu (s.serve r drive t) := by
  unfold Link.serve
  split
  · dsimp only
    split
    · exact h
    · refine ⟨(answerTo_cases r (drive t) s.sim _).1.trans h.1, ?_⟩
      intro e he
      rcases List.mem_append.mp he with he | he
      · exact h.2 e he
      · rw [List.mem_singleton.mp he]
        exact ⟨s.sim, h.1, rfl⟩
  · exact h

theorem made_step (s : Link) (a : Act) (h : Made r drive twoEcu s) :
    Made r drive twoEcu (step r drive s a) := by
  by_cases hopen : s.phase = .lost
  · rw [step_lost hopen]
    exact h
  -- only the server touches the simulator and its transcript
  have hframe : ∀ s' : Link, s'.sim = s.sim → s'.served = s.served → Made r drive twoEcu s' := by
    intro s' hsim hserved
    rw [Made, hsim, hserved]
    exact h
  rw [step_cases hopen]
  cases a with
  | command c =>
      apply hframe <;> dsimp only [Link.command] <;> split <;> try rfl
      all_goals split <;> rfl
  | read n =>
      apply hframe <;> dsimp only [Link.read] <;> split <;> try rfl
      all_goals split <;> try rfl
      all_goals unfold Link.prompted; split <;> rfl
  | giveUp =>
      rcases giveUp_cases s with hsame | ⟨phase, stale, extra, hstep, -⟩
      · rw [hsame]
        exact h
      · rw [hstep]
        exact hframe _ rfl rfl
  | lose => exact hframe _ rfl rfl
  | fetch n => apply hframe <;> dsimp only [Link.fetch] <;> split <;> rfl
  | serve t => exact made_serve r drive twoEcu h t

/-- The session after `acts`. -/
def session (acts : List Act) : Link := run (step r drive) (Link.start twoEcu) acts

theorem inv_session (acts : List Act) : Inv (session r drive twoEcu acts) :=
  run_invariant (step r drive) Inv (fun _ a h => inv_step h a) _ (inv_start twoEcu) acts

theorem made_session (acts : List Act) : Made r drive twoEcu (session r drive twoEcu acts) :=
  run_invariant (step r drive) (Made r drive twoEcu) (made_step r drive twoEcu) _
    ⟨rfl, fun _ he => absurd he List.not_mem_nil⟩ acts

/-- In every situation the server has handled the commands in the order in
which they were written, all of them but the last at most. -/
theorem Inv.sound {s : Link} (h : Inv s) :
    ∃ done tail, s.asked = done ++ tail ∧ tail.length ≤ 1 ∧ (∀ a ∈ tail, a.2 = none) ∧
      List.Forall₂ Kept done s.served := by
  cases h with
  | quiet hphase hstale hin hout hkept =>
      exact ⟨s.asked, [], (List.append_nil _).symm, Nat.zero_le 1, fun _ h => absurd h List.not_mem_nil,
        hkept⟩
  | sent done c before after howed hgot hin hbefore hafter hout hasked hkept =>
      refine ⟨done, [(c, none)], hasked, le_rfl, ?_, hkept⟩
      intro a ha
      rw [List.mem_singleton.mp ha]
  | replied done c log t raw body howed hin hrest hbody hgot hwhole hasked hserved hkept =>
      refine ⟨s.asked, [], (List.append_nil _).symm, Nat.zero_le 1, fun _ h => absurd h List.not_mem_nil,
        ?_⟩
      rw [hasked, hserved]
      exact kept_concat hkept c t (Or.inl rfl)
  | lost done tail hphase hasked hlen htail hkept => exact ⟨done, tail, hasked, hlen, htail, hkept⟩

/-- What was returned stands in the transcript, at the command's own place. -/
theorem entry_of_returned {acts : List Act} {j : ℕ} {c : Command} {raw : Text}
    (h : (session r drive twoEcu acts).asked[j]? = some (c, some raw)) :
    ∃ t sim, (session r drive twoEcu acts).served[j]? = some (c.text, t, raw) ∧
      sim.twoEcu = twoEcu ∧ raw = (handle r (drive t) sim c.text).2 := by
  obtain ⟨done, tail, hasked, -, htail, hkept⟩ := (inv_session r drive twoEcu acts).sound
  obtain ⟨hlen, hget⟩ := List.forall₂_iff_get.mp hkept
  have hj : j < done.length := by
    -- what was not handled was not answered
    by_contra hge
    rw [hasked, List.getElem?_append_right (not_lt.mp hge)] at h
    cases htail _ (List.mem_of_getElem? h)
  rw [hasked, List.getElem?_append_left hj, List.getElem?_eq_getElem hj, Option.some.injEq] at h
  have hj' : j < (session r drive twoEcu acts).served.length := hlen ▸ hj
  have hentry := hget j hj hj'
  rw [List.get_eq_getElem, List.get_eq_getElem, h] at hentry
  obtain ⟨sim, hsim, hmade⟩ := (made_session r drive twoEcu acts).2 _ (List.getElem_mem hj')
  rcases he : (session r drive twoEcu acts).served[j] with ⟨cmd, t, raw'⟩
  rw [he] at hentry hmade
  obtain ⟨rfl, hout⟩ : cmd = c.text ∧ (some raw = none ∨ some raw = some raw') := hentry
  obtain rfl : raw = raw' := Option.some.inj (hout.resolve_left (by simp))
  exact ⟨t, sim, by rw [List.getElem?_eq_getElem hj', he], hsim, hmade⟩

theorem texts_of_kept {done : List (Command × Option Text)} {log : List (Text × ℚ × Text)}
    (h : List.Forall₂ Kept done log) : log.map (fun e => e.1) = done.map fun a => a.1.text := by
  induction h with
  | nil => rfl
  | cons hab _ ih => rw [List.map_cons, List.map_cons, ih, hab.1]

/-- A reply that `command` returns is the simulator's answer to that very
command, at its own place in the server's transcript: never a late answer to
an earlier one, whatever timed out before. And the server handles nothing
that was not written, in the order in which it was written. -/
theorem reply_is_answer (acts : List Act) :
    (∀ (j : ℕ) (c : Command) (raw : Text),
      (session r drive twoEcu acts).asked[j]? = some (c, some raw) →
      ∃ t sim, (session r drive twoEcu acts).served[j]? = some (c.text, t, raw) ∧
        sim.twoEcu = twoEcu ∧ raw = (handle r (drive t) sim c.text).2) ∧
    (session r drive twoEcu acts).served.map (fun e => e.1) <+:
      (session r drive twoEcu acts).asked.map (fun a => a.1.text) := by
  constructor
  · intro j c raw h
    exact entry_of_returned r drive twoEcu h
  · obtain ⟨done, tail, hasked, -, -, hkept⟩ := (inv_session r drive twoEcu acts).sound
    refine ⟨tail.map fun a => a.1.text, ?_⟩
    rw [hasked, List.map_append, texts_of_kept hkept]

/-- A Mode 01 request that is answered is answered with the engine's reading
at the moment the server came to it. -/
theorem query_reads_engine (acts : List Act) (j : ℕ) (c : Command) (raw : Text) (pid : UInt8)
    (h : (session r drive twoEcu acts).asked[j]? = some (c, some raw))
    (hc : c.text = request 1 pid) :
    ∃ t, (session r drive twoEcu acts).served[j]? = some (request 1 pid, t, raw) ∧
      parseAll raw 1 pid = reading r (drive t) twoEcu pid := by
  obtain ⟨t, sim, hserved, hsim, hraw⟩ := entry_of_returned r drive twoEcu h
  refine ⟨t, hc ▸ hserved, ?_⟩
  rw [hraw, hc, parseAll_handle, hsim]

end Runs

/-- A request as a line. -/
def Command.request (mode pid : UInt8) : Command where
  text := Obd.request mode pid
  oneLine := (spells_request mode pid).newline
  noPrompt := by
    rw [request_eq]
    intro hc
    exact absurd (isHex_digits hc).plain.2.2.1 (by decide)
  spoken := by
    rw [ne_eq, BoardSync.strip_eq_nil_iff, request_eq]
    intro hblank
    have hmem : hexChar (mode.toNat / 16) ∈ digits [mode, pid] := List.mem_cons_self
    have hspace := hblank _ hmem
    rw [(isHex_digits hmem).plain.1] at hspace
    cases hspace

/-- A request for the speed that times out, and the one after it. -/
def lateSpeed : List Act :=
  [.command (.request 1 0x0D), .fetch 3, .giveUp, .command (.request 1 0x0D), .fetch 2, .serve 0, .read 9,
    .read 90, .fetch 5, .serve 1, .read 90]

theorem query_reads_engine_late :
    ∃ t, (session exactRounding (fun t _ => 60 + t) [] lateSpeed).served[1]? =
        some (request 1 0x0D, t, "010D\r41 0D 3D \r\r>".toList) ∧
      parseAll "010D\r41 0D 3D \r\r>".toList 1 0x0D = reading exactRounding (fun _ => 60 + t) [] 0x0D :=
  query_reads_engine exactRounding (fun t _ => 60 + t) [] lateSpeed 1 (.request 1 0x0D) _ 0x0D
    (by decide +kernel) rfl

/-! ## Labels -/

/-- `reply_lines` -/
def replyLines (raw : Text) : List Text :=
  ((((raw.filter (· ≠ '>')).map fun c => if c = '\n' then '\r' else c).splitOn '\r').map strip).filter
    fun line => !line.isEmpty

/-- `banner` of `init`, from the reply to `ATZ`. -/
def bannerOf (raw : Text) : Text :=
  [' '].intercalate ((replyLines raw).filter fun line => line ≠ ['A', 'T', 'Z'])

/-- `is_sim` -/
def isSim (banner : Text) : Bool := (memmem ['S', 'I', 'M'] (upper banner)).isSome

/-- `src` of `_run`, as `obdlog` labels a session. -/
def sessionLabel (banner : Text) (simFlag : Bool) : String :=
  if isSim banner || simFlag then "synth" else "live"

/-- The reset announces a simulator, whatever came before it. -/
theorem handle_reset (r : Rounding) (vehicle : Vehicle) (sim : Simulator) :
    (handle r vehicle sim ['A', 'T', 'Z']).2 =
      ['A', 'T', 'Z', '\r'] ++ replyText [[], BANNER] := by
  have hnormal : normal ['A', 'T', 'Z'] = ['A', 'T', 'Z'] := by decide +kernel
  have hanswer : answerTo r vehicle sim ['A', 'T', 'Z'] = (sim.reset, [[], BANNER]) := by
    rw [answerTo, if_pos (Or.inl (by decide))]
  rw [handle, hnormal, hanswer]
  rfl

/-- `ATZ` as a line. -/
def Command.reset : Command :=
  ⟨['A', 'T', 'Z'], forall_char_of_all (by decide), by decide, by decide +kernel⟩

section Progress

variable (r : Rounding) (drive : ℚ → Vehicle) {s : Link}

/-- What happens without anybody's doing: bytes arrive, lines are handled. -/
def Act.Patient : Act → Prop
  | .read _ | .fetch _ | .serve _ => True
  | .command _ | .giveUp | .lose => False

/-- The server does not touch the adapter's side. -/
theorem serve_frame (t : ℚ) :
    (s.serve r drive t).phase = s.phase ∧ (s.serve r drive t).asked = s.asked ∧
      (s.serve r drive t).toSim = s.toSim ∧
      ('\r' ∈ s.line → (s.serve r drive t).line.length < s.line.length) := by
  by_cases hcr : '\r' ∈ s.line
  · have hshort : (s.line.dropWhile (· ≠ '\r')).tail.length < s.line.length := by
      have hle := (List.dropWhile_suffix (l := s.line) (· ≠ '\r')).length_le
      have hpos := List.length_pos_of_mem hcr
      rw [List.length_tail]
      omega
    rw [Link.serve, if_pos hcr]
    dsimp only
    split
    · exact ⟨rfl, rfl, rfl, fun _ => hshort⟩
    · exact ⟨rfl, rfl, rfl, fun _ => hshort⟩
  · rw [Link.serve, if_neg hcr]
    exact ⟨rfl, rfl, rfl, fun h => absurd h hcr⟩

/-- In time the server has handled everything. -/
theorem flush (n : ℕ) (h : Inv s) (hopen : s.phase ≠ .lost) (hn : 2 * s.toSim.length + s.line.length ≤ n) :
    ∃ more : List Act, (∀ a ∈ more, a.Patient) ∧ (run (step r drive) s more).phase = s.phase ∧
      (run (step r drive) s more).asked = s.asked ∧ (run (step r drive) s more).inbound = [] := by
  induction n generalizing s with
  | zero =>
      refine ⟨[], fun _ h => absurd h List.not_mem_nil, rfl, rfl, ?_⟩
      rw [run_nil, Link.inbound, List.append_eq_nil_iff, ← List.length_eq_zero_iff,
        ← List.length_eq_zero_iff]
      omega
  | succ n ih =>
      by_cases hcr : '\r' ∈ s.line
      · obtain ⟨hphase, hasked, hsim, hline⟩ := serve_frame r drive (s := s) 0
        have hstep : step r drive s (.serve 0) = s.serve r drive 0 := by rw [step_cases hopen]
        have hlt := hline hcr
        obtain ⟨more, hmore, hp, ha, hi⟩ := ih (s := s.serve r drive 0) (inv_serve h hopen 0)
          (by rwa [hphase]) (by rw [hsim]; omega)
        refine ⟨.serve 0 :: more, ?_, ?_, ?_, ?_⟩
        · exact List.forall_mem_cons.mpr ⟨trivial, hmore⟩
        · rw [run_cons, hstep, hp, hphase]
        · rw [run_cons, hstep, ha, hasked]
        · rw [run_cons, hstep, hi]
      · by_cases hsim : s.toSim = []
        · -- what is left in the buffer is no line, so it is nothing
          refine ⟨[], fun _ h => absurd h List.not_mem_nil, rfl, rfl, ?_⟩
          rw [run_nil]
          have hempty : Returns s.inbound → s.inbound = [] := by
            intro hret
            rw [Link.inbound, hsim, List.append_nil] at hret ⊢
            rcases hl : s.line with _ | ⟨d, l⟩
            · rfl
            · rw [hl] at hret hcr
              exact absurd (hret d List.mem_cons_self ▸ List.mem_cons_self) hcr
          cases h with
          | quiet hphase hstale hin hout hkept => exact hempty hin
          | replied done c log t raw body howed hin => exact hempty hin
          | sent done c before after howed hgot hin =>
              rw [Link.inbound, hsim, List.append_nil] at hin
              exact absurd (hin ▸ List.mem_append_right _ List.mem_cons_self) hcr
          | lost done tail hphase => exact absurd hphase hopen
        · have hpos := List.length_pos_iff.mpr hsim
          have hstep : step r drive s (.fetch s.toSim.length) =
              { s with line := s.line ++ s.toSim, toSim := [] } := by
            rw [step_cases hopen]
            show s.fetch _ = _
            rw [Link.fetch, if_neg hcr, List.take_length, List.drop_length]
          have hinv : Inv (step r drive s (.fetch s.toSim.length)) := inv_step h _
          rw [hstep] at hinv
          obtain ⟨more, hmore, hp, ha, hi⟩ := ih hinv hopen (by
            show 2 * ([] : Text).length + (s.line ++ s.toSim).length ≤ n
            rw [List.length_nil, List.length_append]
            omega)
          refine ⟨.fetch s.toSim.length :: more, ?_, ?_, ?_, ?_⟩
          · exact List.forall_mem_cons.mpr ⟨trivial, hmore⟩
          · rw [run_cons, hstep, hp]
          · rw [run_cons, hstep, ha]
          · rw [run_cons, hstep, hi]

/-- Once the server is done, the reply that is read for is all there. -/
theorem read_all {stage : Stage} {c : Command} {got : Text} (h : Inv s)
    (hp : s.phase = .reading stage c got) (hin : s.inbound = []) :
    ∃ raw, step r drive s (.read s.toAdapter.length) =
      ({ s with toAdapter := [] } : Link).prompted stage c raw := by
  have hopen : s.phase ≠ .lost := by
    rw [hp]
    exact fun h => nomatch h
  refine ⟨got ++ s.toAdapter, ?_⟩
  rw [step_cases hopen]
  show s.read _ = _
  rw [read_reading hp, List.take_length, List.drop_length]
  cases h with
  | quiet hphase => rw [hp] at hphase; cases hphase
  | lost done tail hphase => rw [hp] at hphase; cases hphase
  | sent done c before after howed hgot hin' =>
      rw [hin] at hin'
      exact absurd hin'.symm (by simp)
  | replied done c log t raw body howed hin' hrest =>
      rw [hp] at hrest
      have hall : got ++ s.toAdapter = body ++ ['>'] := hrest
      rw [hall, if_pos (atPrompt_append body)]

/-- A wait for a prompt ends with one, if nobody loses patience. -/
theorem prompt_comes {stage : Stage} {c : Command} {got : Text} (h : Inv s)
    (hp : s.phase = .reading stage c got) :
    ∃ (more : List Act) (s' : Link) (raw : Text), (∀ a ∈ more, a.Patient) ∧
      run (step r drive) s more = s'.prompted stage c raw ∧ s'.asked = s.asked := by
  have hopen : s.phase ≠ .lost := by
    rw [hp]
    exact fun h => nomatch h
  obtain ⟨more, hmore, hphase, hasked, hin⟩ := flush r drive _ h hopen le_rfl
  have hinv := run_invariant (step r drive) Inv (fun _ a h => inv_step h a) s h more
  obtain ⟨raw, hread⟩ := read_all r drive hinv (hphase.trans hp) hin
  refine ⟨more ++ [.read (run (step r drive) s more).toAdapter.length],
    { run (step r drive) s more with toAdapter := [] }, raw, ?_, ?_, hasked⟩
  · exact List.forall_mem_append.mpr ⟨hmore, List.forall_mem_singleton.mpr trivial⟩
  · rw [run_append, run_cons, run_nil, hread]

/-- A command that is written is answered. -/
theorem reply_comes {c : Command} {got : Text} (h : Inv s) (hp : s.phase = .reading .reply c got) :
    ∃ more : List Act, (∀ a ∈ more, a.Patient) ∧ (run (step r drive) s more).phase = .idle ∧
      ∃ raw, (run (step r drive) s more).asked = s.asked.dropLast ++ [(c, some raw)] := by
  obtain ⟨more, s', raw, hmore, hrun, hasked⟩ := prompt_comes r drive h hp
  refine ⟨more, hmore, by rw [hrun]; rfl, raw, ?_⟩
  rw [hrun, ← hasked]
  rfl

/-- A command that has to wait for a stale reply is written after it. -/
theorem settled_comes {c : Command} {got : Text} (h : Inv s) (hp : s.phase = .reading .settle c got) :
    ∃ more : List Act, (∀ a ∈ more, a.Patient) ∧ (run (step r drive) s more).phase = .idle ∧
      ∃ raw, (run (step r drive) s more).asked = s.asked ++ [(c, some raw)] := by
  obtain ⟨first, s', late, hfirst, hrun, hasked⟩ := prompt_comes r drive h hp
  have hsend : run (step r drive) s first = s'.send c := hrun
  have hinv := run_invariant (step r drive) Inv (fun _ a h => inv_step h a) s h first
  rw [hsend] at hinv
  obtain ⟨second, hsecond, hidle, raw, hlast⟩ := reply_comes r drive hinv rfl
  refine ⟨first ++ second, List.forall_mem_append.mpr ⟨hfirst, hsecond⟩, ?_, raw, ?_⟩
  · rw [run_append, hsend]
    exact hidle
  · rw [run_append, hsend, hlast, ← hasked]
    exact congrArg (· ++ _) (List.dropLast_concat)

/-- Whatever timed out before, a command that is called when the adapter is
free is answered, if nobody loses patience with it. -/
theorem command_comes_back {s : Link} (h : Inv s) (hp : s.phase = .idle) (c : Command) :
    ∃ more : List Act, (∀ a ∈ more, a.Patient) ∧
      (run (step r drive) s (.command c :: more)).phase = .idle ∧
      ∃ raw, (run (step r drive) s (.command c :: more)).asked = s.asked ++ [(c, some raw)] := by
  have hopen : s.phase ≠ .lost := by
    rw [hp]
    exact fun h => nomatch h
  have hstep : step r drive s (.command c) =
      if s.stale then { s with phase := .reading .settle c [] } else s.send c := by
    rw [step_cases hopen]
    exact command_idle hp c
  have hinv : Inv (step r drive s (.command c)) := inv_step h _
  simp only [run_cons]
  rw [hstep] at hinv ⊢
  by_cases hstale : s.stale = true
  · rw [if_pos hstale] at hinv ⊢
    exact settled_comes r drive hinv rfl
  · rw [if_neg hstale] at hinv ⊢
    obtain ⟨more, hmore, hidle, raw, hlast⟩ := reply_comes r drive hinv rfl
    refine ⟨more, hmore, hidle, raw, ?_⟩
    rw [hlast]
    exact congrArg (· ++ _) List.dropLast_concat

/-- In every session, after any history of timeouts and late replies, the
next command of a free adapter can still succeed, with patience alone. -/
theorem comes_back (r : Rounding) (drive : ℚ → Vehicle) (twoEcu : List UInt8) (acts : List Act)
    (h : (session r drive twoEcu acts).phase = .idle) (c : Command) :
    ∃ more : List Act, (∀ a ∈ more, a.Patient) ∧
      (session r drive twoEcu (acts ++ .command c :: more)).phase = .idle ∧
      ∃ raw, (session r drive twoEcu (acts ++ .command c :: more)).asked =
        (session r drive twoEcu acts).asked ++ [(c, some raw)] := by
  obtain ⟨more, hmore, hidle, raw, hlast⟩ :=
    command_comes_back r drive (inv_session r drive twoEcu acts) h c
  refine ⟨more, hmore, ?_, raw, ?_⟩
  · rw [session, run_append]
    exact hidle
  · rw [session, run_append]
    exact hlast

theorem comes_back_late : ∃ more : List Act, (∀ a ∈ more, a.Patient) ∧
    (session exactRounding (fun t _ => 60 + t) [] (lateSpeed.take 3 ++ .command (.request 1 0x0C) :: more)).phase
      = .idle ∧
    ∃ raw, (session exactRounding (fun t _ => 60 + t) []
        (lateSpeed.take 3 ++ .command (.request 1 0x0C) :: more)).asked =
      (session exactRounding (fun t _ => 60 + t) [] (lateSpeed.take 3)).asked ++
        [(.request 1 0x0C, some raw)] :=
  comes_back exactRounding (fun t _ => 60 + t) [] (lateSpeed.take 3) rfl (.request 1 0x0C)

end Progress

end Carwatch.Obd
