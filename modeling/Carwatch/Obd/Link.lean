import Carwatch.Lib.Machine
import Carwatch.Obd.Simulator

/-!
# Carwatch.Obd.Link — one serial session (`Adapter.command` of `tools/elm.py`)

An `Adapter` and the simulator's pty server (`PtyServer._serve`) on the two
ends of a serial line. Every byte may be late: how much a `read` finds, when
the server comes to the next line and when a deadline passes is in the
action, so "for every run" is "for every list of actions".

* **Model layer**: `Link`, `Act`, `step`. `asked` and `served` are ghosts:
  the commands that were written, each with what `command` returned for it,
  and the server's transcript.
-/

namespace Carwatch.Obd

open Carwatch.BoardSync (Text isSpace strip)

/-! ## The two ends -/

/-- What the tools send: a line that is not blank. -/
structure Command where
  text : Text
  oneLine : ∀ c ∈ text, isNewline c = false
  noPrompt : '>' ∉ text
  spoken : strip text ≠ []
deriving DecidableEq

/-- The three calls of `_read_to_prompt`. -/
inductive Stage where
  /-- `_resync` waits for the prompt of a request that timed out. -/
  | settle
  /-- `_resync` has sent a bare CR and waits again. -/
  | interrupt
  /-- `command` waits for the reply to what it has written. -/
  | reply
deriving DecidableEq

/-- Where `command` is. -/
inductive Phase where
  /-- Nobody is in `command`. -/
  | idle
  /-- In `_read_to_prompt`, with what it has read. -/
  | reading (stage : Stage) (c : Command) (got : Text)
  /-- `LinkLost` was raised: the session is over. -/
  | lost

/-- The adapter, the line in both directions, and the server. -/
structure Link where
  phase : Phase
  stale : Bool
  /-- Written by the adapter, not read by the server. -/
  toSim : Text
  /-- Written by the server, not read by the adapter. -/
  toAdapter : Text
  /-- `buf` of `_serve` -/
  line : Text
  sim : Simulator
  asked : List (Command × Option Text)
  served : List (Text × ℚ × Text)

/-- A freshly opened port. -/
def Link.start (twoEcu : List UInt8) : Link :=
  ⟨.idle, false, [], [], [], Simulator.new twoEcu, [], []⟩

inductive Act where
  /-- Somebody calls `command`. -/
  | command (c : Command)
  /-- `port.read` returns that many bytes, or what there is. -/
  | read (n : ℕ)
  /-- The deadline has passed. -/
  | giveUp
  /-- The port vanished. -/
  | lose
  /-- The server's `os.read`. -/
  | fetch (n : ℕ)
  /-- The server handles the next line of its buffer, at a moment of the drive. -/
  | serve (t : ℚ)

/-- `bytes.isspace` -/
def isByteSpace (c : Char) : Bool := (0x09 ≤ c.toNat && c.toNat ≤ 0x0D) || c.toNat == 0x20

/-- `buf.rstrip().endswith(b">")` -/
def atPrompt (got : Text) : Bool := (got.rdropWhile isByteSpace).getLast? == some '>'

/-- The rest of `command` once nothing is stale: drop what is there, write. -/
def Link.send (s : Link) (c : Command) : Link :=
  { s with
    phase := .reading .reply c []
    stale := false
    toAdapter := []
    toSim := s.toSim ++ c.text ++ ['\r']
    asked := s.asked ++ [(c, none)] }

/-- `command` is called. -/
def Link.command (s : Link) (c : Command) : Link :=
  match s.phase with
  | .idle => if s.stale then { s with phase := .reading .settle c [] } else s.send c
  | _ => s

/-- `_read_to_prompt` has returned `raw`. -/
def Link.prompted (s : Link) (stage : Stage) (c : Command) (raw : Text) : Link :=
  match stage with
  | .settle | .interrupt => s.send c
  | .reply => { s with phase := .idle, asked := s.asked.dropLast ++ [(c, some raw)] }

/-- `port.read` -/
def Link.read (s : Link) (n : ℕ) : Link :=
  match s.phase with
  | .reading stage c got =>
      let rest := { s with toAdapter := s.toAdapter.drop n }
      let got := got ++ s.toAdapter.take n
      if atPrompt got then rest.prompted stage c got
      else { rest with phase := .reading stage c got }
  | _ => s

/-- `_read_to_prompt` returns `None`. -/
def Link.giveUp (s : Link) : Link :=
  match s.phase with
  | .reading .settle c _ =>
      { s with phase := .reading .interrupt c [], toSim := s.toSim ++ ['\r'] }
  | .reading .interrupt _ _ => { s with phase := .idle }
  | .reading .reply _ _ => { s with phase := .idle, stale := true }
  | _ => s

/-- The server's `os.read`, when its buffer holds no line. -/
def Link.fetch (s : Link) (n : ℕ) : Link :=
  if '\r' ∈ s.line then s else { s with line := s.line ++ s.toSim.take n, toSim := s.toSim.drop n }

/-- The server takes the first line off its buffer. A line feed is dropped,
and a blank line gets no reply. -/
def Link.serve (r : Rounding) (drive : ℚ → Vehicle) (s : Link) (t : ℚ) : Link :=
  if '\r' ∈ s.line then
    let cmd := (s.line.takeWhile (· ≠ '\r')).filter (· ≠ '\n')
    let rest := (s.line.dropWhile (· ≠ '\r')).tail
    if strip cmd = [] then { s with line := rest }
    else
      let (sim', raw) := handle r (drive t) s.sim cmd
      { s with
        line := rest
        sim := sim'
        toAdapter := s.toAdapter ++ raw
        served := s.served ++ [(cmd, t, raw)] }
  else s

/-- One action. Once the session is over nothing is looked at any more. -/
def step (r : Rounding) (drive : ℚ → Vehicle) (s : Link) (a : Act) : Link :=
  match s.phase, a with
  | .lost, _ => s
  | _, .command c => s.command c
  | _, .read n => s.read n
  | _, .giveUp => s.giveUp
  | _, .lose => { s with phase := .lost }
  | _, .fetch n => s.fetch n
  | _, .serve t => s.serve r drive t

/-! ## What an action does -/

section Steps

variable {r : Rounding} {drive : ℚ → Vehicle} {s : Link}

theorem step_lost (h : s.phase = .lost) (a : Act) : step r drive s a = s := by
  unfold step
  rw [h]

/-- Before the end an action does what its name says. -/
theorem step_cases (h : s.phase ≠ .lost) (a : Act) :
    step r drive s a =
      match a with
      | .command c => s.command c
      | .read n => s.read n
      | .giveUp => s.giveUp
      | .lose => { s with phase := .lost }
      | .fetch n => s.fetch n
      | .serve t => s.serve r drive t := by
  unfold step
  rcases hp : s.phase with _ | ⟨stage, c, got⟩ | _
  · cases a <;> rfl
  · cases a <;> rfl
  · exact absurd hp h

theorem command_idle (h : s.phase = .idle) (c : Command) :
    s.command c = if s.stale then { s with phase := .reading .settle c [] } else s.send c := by
  rw [Link.command, h]

theorem command_reading {stage : Stage} {c' : Command} {got : Text}
    (h : s.phase = .reading stage c' got) (c : Command) : s.command c = s := by
  rw [Link.command, h]

theorem read_reading {stage : Stage} {c : Command} {got : Text}
    (h : s.phase = .reading stage c got) (n : ℕ) :
    s.read n =
      if atPrompt (got ++ s.toAdapter.take n) then
        { s with toAdapter := s.toAdapter.drop n }.prompted stage c (got ++ s.toAdapter.take n)
      else
        { s with
          toAdapter := s.toAdapter.drop n
          phase := .reading stage c (got ++ s.toAdapter.take n) } := by
  rw [Link.read, h]

theorem read_idle (h : s.phase = .idle) (n : ℕ) : s.read n = s := by
  rw [Link.read, h]

end Steps

end Carwatch.Obd
