import Carwatch.Interface.Slots
import Mathlib.Data.List.Chain
import Mathlib.Data.List.TakeWhile

/-!
# Carwatch.Interface.Main — the command line and the main loop of `statusd` (`src/interface/statusd_main.c`)

* `parseNumber`, `parseArgs` — the arguments; `parseArgs_ok_iff` says which
  command lines are taken and what for;
* `Daemon` — the loop of `main`, turn by turn: the server's round, then the
  heartbeat if it is due;
* `heartbeats_paced` — heartbeats come no sooner than they should, and at most
  a turn later;
* `statusd_stops` — how the loop ends, and what it leaves behind.
-/

namespace Carwatch.Interface

open Carwatch.Lib

/-! ## The arguments -/

/-- `strtoul` in base 10 on a text that starts with a digit: the value, what is
left of the text, and whether `errno` is `ERANGE`. -/
def strtoulDigits (s : Bytes) : ℕ × Bytes × Bool :=
  let ds := s.takeWhile isDigit
  let v := digitsVal 10 ds
  (if 2 ^ 64 ≤ v then 2 ^ 64 - 1 else v, s.drop ds.length, decide (2 ^ 64 ≤ v))

/-- `parse_number`; `none` is false. -/
def parseNumber (s : Bytes) (max : ℕ) : Option ℕ :=
  match s with
  | [] => none
  | c :: _ =>
      if c < 0x30 || 0x39 < c then none
      else
        let (v, rest, range) := strtoulDigits s
        if !range && rest == [] && v ≤ max then some v else none

/-- `args_t` -/
structure Args where
  bind : Bytes
  port : ℕ
  heartbeatS : ℕ
deriving DecidableEq

/-- `DEFAULT_BIND`, `DEFAULT_PORT` and `DEFAULT_HEARTBEAT_S`. -/
def Args.default : Args := ⟨ascii "127.0.0.1", 8080, 3600⟩

/-- `MAX_HEARTBEAT_S` -/
abbrev maxHeartbeatS : ℕ := 86400

/-- `args_result_t`, with what stands on standard error. -/
inductive ArgsResult where
  | ok (a : Args)
  | help
  | usage (message : Bytes)
deriving DecidableEq

/-- `usage` -/
def usageText : Bytes :=
  ascii "usage: statusd [--bind ADDR] [--port N] [--heartbeat-s N]\n" ++
  ascii "  --bind ADDR       IPv4 address to serve on (default 127.0.0.1)\n" ++
  ascii "  --port N          TCP port, 0 for any free one (default 8080)\n" ++
  ascii "  --heartbeat-s N   seconds between heartbeat log lines, 1 to 86400 (default 3600)\n" ++
  ascii "exit status: 0 stopped by SIGTERM or SIGINT, 1 could not run, 2 bad arguments\n"

/-- `--help` or `-h` -/
def isHelp (flag : Bytes) : Bool := flag == ascii "--help" || flag == ascii "-h"

/-- A flag that is not taken. -/
def badFlag (flag why : Bytes) : ArgsResult :=
  .usage (ascii "statusd: " ++ flag ++ ascii ": " ++ why ++ ascii "\n" ++ usageText)

/-- A value that is not taken. -/
def badValue (flag value why : Bytes) : ArgsResult :=
  .usage (ascii "statusd: " ++ flag ++ ascii ": " ++ value ++ why ++ ascii "\n")

/-- `parse_args` from an argument on. `inetPton` says whether `inet_pton` takes
a text for an IPv4 address. -/
def parseArgs (inetPton : Bytes → Bool) : List Bytes → Args → ArgsResult
  | [], a => .ok a
  | [flag], _ =>
      if isHelp flag then .help
      else badFlag flag (if (ascii "--").isPrefixOf flag then ascii "needs a value"
        else ascii "unknown argument")
  | flag :: value :: argv, a =>
      if isHelp flag then .help
      else if flag ≠ ascii "--bind" ∧ flag ≠ ascii "--port" ∧ flag ≠ ascii "--heartbeat-s" then
        badFlag flag (ascii "unknown argument")
      else if flag = ascii "--bind" then
        if inetPton value then parseArgs inetPton argv { a with bind := value }
        else badValue flag value (ascii " is not an IPv4 address")
      else if flag = ascii "--port" then
        match parseNumber value 65535 with
        | none => badValue flag value (ascii " is not 0 to 65535")
        | some n => parseArgs inetPton argv { a with port := n }
      else
        match parseNumber value maxHeartbeatS with
        | none => badValue flag value (ascii " is not 1 to 86400")
        | some n =>
            if n = 0 then badValue flag value (ascii " is not 1 to 86400")
            else parseArgs inetPton argv { a with heartbeatS := n }

/-- A decimal number, however many zeros it starts with. -/
structure IsDecimal (text : Bytes) (n : ℕ) : Prop where
  nonempty : text ≠ []
  digits : ∀ c ∈ text, isDigit c = true
  value : digitsVal 10 text = n

/-- A flag with its value. -/
inductive Setting where
  | bind (value : Bytes)
  | port (value : Bytes) (n : ℕ)
  | heartbeat (value : Bytes) (n : ℕ)

/-- Its words on the command line. -/
def Setting.words : Setting → List Bytes
  | bind value => [ascii "--bind", value]
  | port value _ => [ascii "--port", value]
  | heartbeat value _ => [ascii "--heartbeat-s", value]

/-- It is one that can be meant. -/
def Setting.Good (inetPton : Bytes → Bool) : Setting → Prop
  | bind value => inetPton value = true
  | port value n => IsDecimal value n ∧ n ≤ 65535
  | heartbeat value n => IsDecimal value n ∧ 1 ≤ n ∧ n ≤ maxHeartbeatS

/-- What it sets. -/
def Setting.apply (a : Args) : Setting → Args
  | bind value => { a with bind := value }
  | port _ n => { a with port := n }
  | heartbeat _ n => { a with heartbeatS := n }

/-- `parse_number` takes the decimal numbers up to `max`: no sign, no space, no
overflow. -/
theorem parseNumber_eq_some_iff {s : Bytes} {max n : ℕ} (hmax : max < 2 ^ 64) :
    parseNumber s max = some n ↔ IsDecimal s n ∧ n ≤ max := by
  cases s with
  | nil =>
      constructor
      · intro h
        cases h
      · rintro ⟨h, -⟩
        exact absurd rfl h.nonempty
  | cons c s =>
      have hfirst : (c < 0x30 || 0x39 < c) = !isDigit c := by
        rw [Bool.eq_iff_iff, Bool.or_eq_true, Bool.not_eq_true', ← Bool.not_eq_true, isDigit,
          Bool.and_eq_true, decide_eq_true_eq, decide_eq_true_eq, decide_eq_true_eq, decide_eq_true_eq,
          not_and_or, UInt8.not_le, UInt8.not_le]
      unfold parseNumber strtoulDigits
      dsimp only
      rw [hfirst]
      by_cases hall : ∀ e ∈ c :: s, isDigit e = true
      · have htake : (c :: s).takeWhile isDigit = c :: s := List.takeWhile_eq_self_iff.mpr hall
        rw [hall c List.mem_cons_self, htake, List.drop_length, if_neg (by decide)]
        by_cases hbig : 2 ^ 64 ≤ digitsVal 10 (c :: s)
        · -- beyond 64 bits there is no number at all
          rw [decide_eq_true hbig, Bool.not_true, Bool.false_and, Bool.false_and, if_neg Bool.false_ne_true]
          constructor
          · intro h
            cases h
          · rintro ⟨h, hle⟩
            rw [h.value] at hbig
            omega
        · rw [decide_eq_false hbig, if_neg hbig]
          constructor
          · intro h
            split_ifs at h with hok
            rw [Bool.and_eq_true, decide_eq_true_eq] at hok
            rw [Option.some.injEq] at h
            exact ⟨⟨List.cons_ne_nil _ _, hall, h⟩, h ▸ hok.2⟩
          · rintro ⟨h, hle⟩
            rw [h.value, decide_eq_true hle]
            rfl
      · constructor
        · intro h
          exfalso
          apply hall
          have hok := (Option.ite_none_right_eq_some.mp (Option.ite_none_left_eq_some.mp h).2).1
          rw [Bool.and_eq_true, Bool.and_eq_true, beq_iff_eq, List.drop_eq_nil_iff] at hok
          have hwhole : (c :: s).takeWhile isDigit = c :: s :=
            (List.takeWhile_prefix isDigit).eq_of_length_le hok.1.2
          exact List.takeWhile_eq_self_iff.mp hwhole
        · rintro ⟨h, -⟩
          exact absurd h.digits hall

section Arguments

variable {inetPton : Bytes → Bool}

/-- A setting is taken, and the rest of the line read on. -/
theorem parseArgs_setting {s : Setting} (hs : s.Good inetPton) (argv : List Bytes) (a : Args) :
    parseArgs inetPton (s.words ++ argv) a = parseArgs inetPton argv (s.apply a) := by
  cases s with
  | bind value =>
      show parseArgs inetPton (ascii "--bind" :: value :: argv) a = _
      rw [parseArgs, if_neg (by decide), if_neg (by decide), if_pos rfl,
        if_pos (show inetPton value = true from hs)]
      rfl
  | port value n =>
      show parseArgs inetPton (ascii "--port" :: value :: argv) a = _
      rw [parseArgs, if_neg (by decide), if_neg (by decide), if_neg (by decide), if_pos rfl,
        (parseNumber_eq_some_iff (by decide)).mpr hs]
      rfl
  | heartbeat value n =>
      show parseArgs inetPton (ascii "--heartbeat-s" :: value :: argv) a = _
      rw [parseArgs, if_neg (by decide), if_neg (by decide), if_neg (by decide), if_neg (by decide),
        (parseNumber_eq_some_iff (by decide)).mpr ⟨hs.1, hs.2.2⟩]
      dsimp only
      rw [if_neg (by have := hs.2.1; omega)]
      rfl

theorem parseArgs_settings {ss : List Setting} (hss : ∀ s ∈ ss, s.Good inetPton) (argv : List Bytes)
    (a : Args) : parseArgs inetPton (ss.flatMap Setting.words ++ argv) a =
      parseArgs inetPton argv (ss.foldl Setting.apply a) := by
  induction ss generalizing a with
  | nil => rfl
  | cons s ss ih =>
      rw [List.flatMap_cons, List.append_assoc, parseArgs_setting (hss s List.mem_cons_self),
        ih fun s' hs' => hss s' (List.mem_cons_of_mem _ hs')]
      rfl

/-- How a command line may start. -/
inductive Starts (inetPton : Bytes → Bool) (argv : List Bytes) : Prop where
  | done (h : argv = [])
  | setting (s : Setting) (rest : List Bytes) (hs : s.Good inetPton) (h : argv = s.words ++ rest)
  | help (flag : Bytes) (rest : List Bytes) (hflag : isHelp flag = true) (h : argv = flag :: rest)
  | refused (message : Bytes) (h : ∀ a, parseArgs inetPton argv a = .usage message)

theorem starts (inetPton : Bytes → Bool) (argv : List Bytes) : Starts inetPton argv := by
  cases argv with
  | nil => exact .done rfl
  | cons flag argv =>
      by_cases hhelp : isHelp flag = true
      · exact .help flag _ hhelp rfl
      cases argv with
      | nil =>
          apply Starts.refused
          intro a
          rw [parseArgs, if_neg hhelp]
          rfl
      | cons value argv =>
          by_cases hunknown : flag ≠ ascii "--bind" ∧ flag ≠ ascii "--port" ∧ flag ≠ ascii "--heartbeat-s"
          · apply Starts.refused
            intro a
            rw [parseArgs, if_neg hhelp, if_pos hunknown]
            rfl
          by_cases hbind : flag = ascii "--bind"
          · by_cases hpton : inetPton value = true
            · exact .setting (.bind value) argv hpton (by rw [hbind]; rfl)
            · apply Starts.refused
              intro a
              rw [parseArgs, if_neg hhelp, if_neg hunknown, if_pos hbind, if_neg hpton]
              rfl
          by_cases hport : flag = ascii "--port"
          · cases hnumber : parseNumber value 65535 with
            | none =>
                apply Starts.refused
                intro a
                rw [parseArgs, if_neg hhelp, if_neg hunknown, if_neg hbind, if_pos hport, hnumber]
                rfl
            | some n =>
                exact .setting (.port value n) argv ((parseNumber_eq_some_iff (by decide)).mp hnumber)
                  (by rw [hport]; rfl)
          · have hbeat : flag = ascii "--heartbeat-s" := by
              by_contra hbeat
              exact hunknown ⟨hbind, hport, hbeat⟩
            have hrefused : (∀ n, parseNumber value maxHeartbeatS = some n → n = 0) →
                Starts inetPton (flag :: value :: argv) := by
              intro hzero
              refine .refused (ascii "statusd: " ++ flag ++ ascii ": " ++ value ++
                ascii " is not 1 to 86400" ++ ascii "\n") fun a => ?_
              rw [parseArgs, if_neg hhelp, if_neg hunknown, if_neg hbind, if_neg hport]
              cases hnumber : parseNumber value maxHeartbeatS with
              | none => rfl
              | some n =>
                  dsimp only
                  rw [if_pos (hzero n hnumber)]
                  rfl
            cases hnumber : parseNumber value maxHeartbeatS with
            | none => exact hrefused (by rw [hnumber]; nofun)
            | some n =>
                by_cases hzero : n = 0
                · refine hrefused fun m hm => ?_
                  rw [hnumber, Option.some.injEq] at hm
                  rw [← hm, hzero]
                · obtain ⟨hdecimal, hle⟩ := (parseNumber_eq_some_iff (by decide)).mp hnumber
                  exact .setting (.heartbeat value n) argv ⟨hdecimal, Nat.pos_of_ne_zero hzero, hle⟩
                    (by rw [hbeat]; rfl)

/-- The settings at the front of a command line, and how it goes on. -/
theorem exists_settings (inetPton : Bytes → Bool) (argv : List Bytes) :
    ∃ (ss : List Setting) (rest : List Bytes), (∀ s ∈ ss, s.Good inetPton) ∧ argv = ss.flatMap Setting.words ++ rest ∧
      ((∃ flag more, isHelp flag = true ∧ rest = flag :: more) ∨ rest = [] ∨
        ∃ message, ∀ a, parseArgs inetPton rest a = .usage message) := by
  induction hn : argv.length using Nat.strong_induction_on generalizing argv with
  | _ n ih =>
      cases starts inetPton argv with
      | done h => exact ⟨[], [], nofun, h, Or.inr (Or.inl rfl)⟩
      | help flag rest hflag h => exact ⟨[], _, nofun, h, Or.inl ⟨flag, rest, hflag, rfl⟩⟩
      | refused message h => exact ⟨[], argv, nofun, rfl, Or.inr (Or.inr ⟨message, h⟩)⟩
      | setting s rest hs h =>
          have hshort : rest.length < n := by
            rw [← hn, h, List.length_append]
            cases s with
            | bind _ => exact Nat.lt_add_of_pos_left Nat.two_pos
            | port _ _ => exact Nat.lt_add_of_pos_left Nat.two_pos
            | heartbeat _ _ => exact Nat.lt_add_of_pos_left Nat.two_pos
          obtain ⟨ss, rest', hss, hrest, hend⟩ := ih _ hshort rest rfl
          refine ⟨s :: ss, rest', List.forall_mem_cons.mpr ⟨hs, hss⟩, ?_, hend⟩
          rw [h, hrest, List.flatMap_cons, List.append_assoc]

theorem parseArgs_help {flag : Bytes} (hflag : isHelp flag = true) (rest : List Bytes) (a : Args) :
    parseArgs inetPton (flag :: rest) a = .help := by
  cases rest with
  | nil => rw [parseArgs, if_pos hflag]
  | cons value rest => rw [parseArgs, if_pos hflag]

/-- **The command lines that are taken** are those of good settings, each the
last word on what it sets; help is given where it is asked for behind good
settings only. -/
theorem parseArgs_reads (inetPton : Bytes → Bool) (argv : List Bytes) (a : Args) :
    (parseArgs inetPton argv .default = .ok a ↔ ∃ ss : List Setting, (∀ s ∈ ss, s.Good inetPton) ∧
      argv = ss.flatMap Setting.words ∧ a = ss.foldl Setting.apply .default) ∧
    (parseArgs inetPton argv .default = .help ↔ ∃ (ss : List Setting) (flag : Bytes) (rest : List Bytes), (∀ s ∈ ss, s.Good inetPton) ∧
      isHelp flag = true ∧ argv = ss.flatMap Setting.words ++ flag :: rest) := by
  obtain ⟨ss, rest, hss, rfl, hend⟩ := exists_settings inetPton argv
  rw [parseArgs_settings hss]
  constructor
  · constructor
    · intro h
      rcases hend with ⟨flag, more, hflag, rfl⟩ | rfl | ⟨message, hmessage⟩
      · rw [parseArgs_help hflag] at h
        cases h
      · rw [parseArgs, ArgsResult.ok.injEq] at h
        exact ⟨ss, hss, List.append_nil _, h.symm⟩
      · rw [hmessage] at h
        cases h
    · rintro ⟨ss', hss', heq, rfl⟩
      have hread := parseArgs_settings hss' [] .default
      rw [List.append_nil, ← heq, parseArgs_settings hss, parseArgs] at hread
      exact hread
  · constructor
    · intro h
      rcases hend with ⟨flag, more, hflag, rfl⟩ | rfl | ⟨message, hmessage⟩
      · exact ⟨ss, flag, more, hss, hflag, rfl⟩
      · rw [parseArgs] at h
        cases h
      · rw [hmessage] at h
        cases h
    · rintro ⟨ss', flag, more, hss', hflag, heq⟩
      have hread := parseArgs_settings hss' (flag :: more) .default
      rw [← heq, parseArgs_settings hss, parseArgs_help hflag] at hread
      exact hread

end Arguments

/-! ## The loop -/

/-- `mono_ms` of what `clock_gettime` says, in milliseconds. -/
def monoMs (clock : Option ℕ) : ℕ := clock.getD 0

/-- `every_ms` -/
def Args.everyMs (a : Args) : ℕ := a.heartbeatS * 1000

/-- A line of `log_heartbeat`: the clock that found it due, the clock it is
counted on from, and the counters. -/
structure Beat where
  due : ℕ
  since : ℕ
  served : ℕ
  drops : ℕ

/-- One turn of the loop: `g_stop` when it is looked at, the round of the
server, and the clock before and behind a heartbeat. -/
structure Turn where
  stop : Bool
  env : StepEnv
  clock : Option ℕ
  clockAfter : Option ℕ

/-- `main` behind `server_open`: the server, `next_heartbeat`, what was logged,
and the exit status once there is one. -/
structure Daemon where
  srv : Server
  nextHeartbeat : ℕ
  beats : List Beat
  status : Option ℕ

/-- Before the loop. -/
def Daemon.start (every : ℕ) (clock : Option ℕ) : Daemon where
  srv := serverOpen
  nextHeartbeat := monoMs clock + every
  beats := [⟨monoMs clock, monoMs clock, 0, 0⟩]
  status := none

/-- The heartbeat of a turn. -/
def Daemon.beat (every : ℕ) (m : Daemon) (t : Turn) : Daemon :=
  if m.nextHeartbeat ≤ monoMs t.clock then
    { m with
      nextHeartbeat := monoMs t.clockAfter + every
      beats := m.beats ++ [⟨monoMs t.clock, monoMs t.clockAfter, m.srv.served, m.srv.drops⟩] }
  else m

/-- Behind the loop. -/
def Daemon.leave (m : Daemon) (status : ℕ) : Daemon :=
  { m with srv := serverClose m.srv, status := some status }

/-- One turn; behind the loop there is none. -/
def Daemon.turn (every : ℕ) (m : Daemon) (t : Turn) : Daemon :=
  if m.status.isSome then m
  else if t.stop then m.leave 0
  else
    let (srv, handled) := serverStep m.srv t.env
    match handled with
    | none => Daemon.leave { m with srv := srv } 1
    | some _ => Daemon.beat every { m with srv := srv } t

/-- `main`, as far as it has come. -/
def daemonRun (every : ℕ) (clock : Option ℕ) (turns : List Turn) : Daemon :=
  run (Daemon.turn every) (.start every clock) turns

/-- What a turn may do. -/
inductive TurnsTo (every : ℕ) (m : Daemon) (t : Turn) : Daemon → Prop where
  | ended (h : m.status.isSome = true) : TurnsTo every m t m
  | stopped (h : m.status = none) (hstop : t.stop = true) : TurnsTo every m t (m.leave 0)
  | failed (h : m.status = none) (hstop : t.stop = false) (hfail : (serverStep m.srv t.env).2 = none) :
      TurnsTo every m t (Daemon.leave { m with srv := (serverStep m.srv t.env).1 } 1)
  | beat (h : m.status = none) (hstop : t.stop = false) (hdue : m.nextHeartbeat ≤ monoMs t.clock) :
      TurnsTo every m t
        { m with
          srv := (serverStep m.srv t.env).1
          nextHeartbeat := monoMs t.clockAfter + every
          beats := m.beats ++ [⟨monoMs t.clock, monoMs t.clockAfter, (serverStep m.srv t.env).1.served,
            (serverStep m.srv t.env).1.drops⟩] }
  | quiet (h : m.status = none) (hstop : t.stop = false) (hdue : monoMs t.clock < m.nextHeartbeat) :
      TurnsTo every m t { m with srv := (serverStep m.srv t.env).1 }

theorem turnsTo (every : ℕ) (m : Daemon) (t : Turn) : TurnsTo every m t (m.turn every t) := by
  unfold Daemon.turn
  by_cases hover : m.status.isSome = true
  · rw [if_pos hover]
    exact .ended hover
  have hrun : m.status = none := by simpa using hover
  rw [if_neg hover]
  cases hstop : t.stop with
  | true => exact .stopped hrun hstop
  | false =>
      rw [if_neg Bool.false_ne_true]
      dsimp only
      cases hhandled : (serverStep m.srv t.env).2 with
      | none => exact .failed hrun hstop hhandled
      | some n =>
          dsimp only
          unfold Daemon.beat
          split_ifs with hdue
          · exact .beat hrun hstop hdue
          · exact .quiet hrun hstop (not_le.mp hdue)

/-! ## Heartbeats -/

/-- The clock never goes back, and can be read. -/
def TurnsClocked (start : ℕ) (turns : List Turn) : Prop :=
  (start :: turns.flatMap fun t => [monoMs t.clock, monoMs t.clockAfter]).Pairwise (· ≤ ·)

/-- The heartbeats behind turns: each a full interval behind the one before,
the next a full interval behind the last, and none overdue when the clock was
last looked at. -/
structure Paced (every start : ℕ) (turns : List Turn) (m : Daemon) : Prop where
  first : m.beats.head? = some ⟨start, start, 0, 0⟩
  apart : m.beats.IsChain fun b b' => b.since + every ≤ b'.due
  last : ∃ b, m.beats.getLast? = some b ∧ m.nextHeartbeat = b.since + every ∧
    b.since ∈ start :: turns.flatMap fun t => [monoMs t.clock, monoMs t.clockAfter]
  onTime : m.status = none → ∀ t, turns.getLast? = some t → monoMs t.clock < m.nextHeartbeat

theorem paced_start (every : ℕ) (clock : Option ℕ) :
    Paced every (monoMs clock) [] (.start every clock) :=
  ⟨rfl, .singleton _, ⟨_, rfl, rfl, List.mem_cons_self⟩, fun _ t ht => by cases ht⟩

/-- One turn. -/
theorem Paced.turn {every start : ℕ} (hevery : 0 < every) {turns : List Turn} {m : Daemon}
    (h : Paced every start turns m) {t : Turn} (hclock : TurnsClocked start (turns ++ [t])) :
    Paced every start (turns ++ [t]) (m.turn every t) := by
  have hclocks : ∀ x, x ∈ (start :: turns.flatMap fun t => [monoMs t.clock, monoMs t.clockAfter]) →
      x ∈ start :: (turns ++ [t]).flatMap fun t => [monoMs t.clock, monoMs t.clockAfter] := by
    intro x hx
    rw [List.flatMap_append, ← List.cons_append]
    exact List.mem_append_left _ hx
  obtain ⟨b, hb, hnext, hsince⟩ := h.last
  -- what happens behind the loop is not to be on time
  have hkeep : ∀ m' : Daemon, m'.beats = m.beats → m'.nextHeartbeat = m.nextHeartbeat →
      (m'.status = none → monoMs t.clock < m.nextHeartbeat) → Paced every start (turns ++ [t]) m' := by
    intro m' hbeats hnext' hontime
    refine ⟨hbeats ▸ h.first, hbeats ▸ h.apart, ⟨b, hbeats ▸ hb, hnext'.trans hnext, hclocks _ hsince⟩, ?_⟩
    intro hrun t' ht'
    rw [List.getLast?_concat, Option.some.injEq] at ht'
    rw [hnext', ← ht']
    exact hontime hrun
  generalize hm : m.turn every t = m'
  have hturn := turnsTo every m t
  rw [hm] at hturn
  cases hturn with
  | ended hover =>
      refine hkeep m rfl rfl fun hrun => ?_
      rw [hrun] at hover
      cases hover
  | stopped => exact hkeep _ rfl rfl nofun
  | failed => exact hkeep _ rfl rfl nofun
  | quiet _ _ hdue => exact hkeep _ rfl rfl fun _ => hdue
  | beat hrun hstop hdue =>
      refine ⟨?_, ?_, ⟨_, List.getLast?_concat, rfl, ?_⟩, ?_⟩
      · rw [List.head?_append, h.first]
        rfl
      · refine List.isChain_append.mpr ⟨h.apart, .singleton _, ?_⟩
        intro c hc d hd
        rw [hb, Option.mem_some_iff] at hc
        rw [List.head?_cons, Option.mem_some_iff] at hd
        rw [← hc, ← hd, ← hnext]
        exact hdue
      · rw [List.flatMap_append, List.flatMap_singleton]
        exact List.mem_cons_of_mem _ (List.mem_append_right _ (by simp))
      · intro _ t' ht'
        rw [List.getLast?_concat, Option.some.injEq] at ht'
        subst ht'
        have hle : monoMs t.clock ≤ monoMs t.clockAfter := by
          rw [TurnsClocked, List.flatMap_append, List.flatMap_singleton, ← List.cons_append] at hclock
          have hpair := (List.pairwise_append.mp hclock).2.1
          rw [List.pairwise_cons] at hpair
          exact hpair.1 _ (List.mem_singleton_self _)
        show monoMs t.clock < monoMs t.clockAfter + every
        omega

theorem TurnsClocked.of_concat {start : ℕ} {turns : List Turn} {t : Turn}
    (h : TurnsClocked start (turns ++ [t])) : TurnsClocked start turns := by
  rw [TurnsClocked, List.flatMap_append, ← List.cons_append] at h
  exact (List.pairwise_append.mp h).1

theorem paced_run {every : ℕ} (hevery : 0 < every) (clock : Option ℕ) {turns : List Turn}
    (h : TurnsClocked (monoMs clock) turns) :
    Paced every (monoMs clock) turns (daemonRun every clock turns) := by
  induction turns using List.reverseRecOn with
  | nil => exact paced_start every clock
  | append_singleton turns t ih =>
      rw [daemonRun, run_append]
      exact (ih h.of_concat).turn hevery h

/-! ## The counters -/

theorem move_counters {now : ℕ} {s s' : Server} (h : Move now s s') :
    s.served ≤ s'.served ∧ s.drops ≤ s'.drops := by
  cases h with
  | drop fd hfd => exact ⟨le_refl _, Nat.le_succ _⟩
  | finish i answer hwrite => exact ⟨Nat.le_succ _, le_refl _⟩
  | _ => exact ⟨le_refl _, le_refl _⟩

theorem exec_counters (s : Server) (act : ServerAct) :
    s.served ≤ (s.exec act).served ∧ s.drops ≤ (s.exec act).drops := by
  obtain ⟨now, hmoves⟩ := exec_moves s act
  generalize s.exec act = s' at hmoves
  induction hmoves with
  | refl => exact ⟨le_refl _, le_refl _⟩
  | tail _ hlast ih =>
      have hmove := move_counters hlast
      exact ⟨ih.1.trans hmove.1, ih.2.trans hmove.2⟩

/-- The counters of the heartbeats never go down, and are behind those of the
server. -/
structure Counted (m : Daemon) : Prop where
  mono : m.beats.Pairwise fun b b' => b.served ≤ b'.served ∧ b.drops ≤ b'.drops
  behind : ∀ b ∈ m.beats, b.served ≤ m.srv.served ∧ b.drops ≤ m.srv.drops

theorem Counted.exec {m m' : Daemon} (h : Counted m) (act : ServerAct) (hsrv : m'.srv = m.srv.exec act)
    (hbeats : m'.beats = m.beats) : Counted m' := by
  have hup := exec_counters m.srv act
  refine ⟨hbeats ▸ h.mono, fun b hb => ?_⟩
  rw [hbeats] at hb
  rw [hsrv]
  exact ⟨(h.behind b hb).1.trans hup.1, (h.behind b hb).2.trans hup.2⟩

theorem Counted.turn {m : Daemon} (h : Counted m) (every : ℕ) (t : Turn) : Counted (m.turn every t) := by
  have hround : Counted { m with srv := (serverStep m.srv t.env).1 } :=
    h.exec (.step t.env) rfl rfl
  generalize hm : m.turn every t = m'
  have hturn := turnsTo every m t
  rw [hm] at hturn
  cases hturn with
  | ended => exact h
  | stopped => exact h.exec .close rfl rfl
  | failed => exact hround.exec .close rfl rfl
  | quiet => exact hround
  | beat =>
      constructor
      · refine List.pairwise_append.mpr ⟨hround.mono, List.pairwise_singleton _ _, ?_⟩
        intro b hb b' hb'
        rw [List.mem_singleton.mp hb']
        exact hround.behind b hb
      · intro b hb
        rcases List.mem_append.mp hb with hb | hb
        · exact hround.behind b hb
        · rw [List.mem_singleton.mp hb]
          exact ⟨le_refl _, le_refl _⟩

theorem counted_run (every : ℕ) (clock : Option ℕ) (turns : List Turn) :
    Counted (daemonRun every clock turns) := by
  refine run_invariant (Daemon.turn every) Counted (fun m t h => h.turn every t) _ ?_ turns
  exact ⟨List.pairwise_singleton _ _, fun b hb => by
    rw [List.mem_singleton.mp hb]
    exact ⟨le_refl _, le_refl _⟩⟩

theorem closeSlot_conns (s : Server) (i : Fin serverMaxConns) :
    ((closeSlot s i).conns i).conn.state = .free ∧ ∀ j, j ≠ i → (closeSlot s i).conns j = s.conns j := by
  unfold closeSlot
  split_ifs with hbusy
  · have hclosed := closeConn_conns s i .shut
    exact ⟨hclosed.1, hclosed.2.2⟩
  · exact ⟨not_not.mp hbusy, fun j _ => rfl⟩

/-- `server_close` leaves no connection. -/
theorem serverClose_free (s : Server) (i : Fin serverMaxConns) :
    ((serverClose s).conns i).conn.state = .free := by
  have hloop : ∀ (slots : List (Fin serverMaxConns)) (s : Server),
      i ∈ slots ∨ (s.conns i).conn.state = .free →
      ((run closeSlot s slots).conns i).conn.state = .free := by
    intro slots
    induction slots with
    | nil =>
        intro s h
        exact h.resolve_left List.not_mem_nil
    | cons j slots ih =>
        intro s h
        obtain ⟨hfree, hframe⟩ := closeSlot_conns s j
        refine ih (closeSlot s j) ?_
        by_cases hj : i = j
        · subst hj
          exact Or.inr hfree
        · rw [hframe i hj]
          exact h.imp_left fun hmem => (List.mem_cons.mp hmem).resolve_left hj
  exact hloop _ s (Or.inl (List.mem_finRange i))

/-- How a run of the daemon ended: the turn that ended it, and that nothing was
left open. -/
structure Ended (every : ℕ) (clock : Option ℕ) (turns : List Turn) (status : ℕ) : Prop where
  turn : ∃ before t after, turns = before ++ t :: after ∧ (daemonRun every clock before).status = none ∧
    (t.stop = true ∧ status = 0 ∨
      t.stop = false ∧ (serverStep (daemonRun every clock before).srv t.env).2 = none ∧ status = 1)
  free : ∀ i, ((daemonRun every clock turns).srv.conns i).conn.state = .free
  shut : ∀ fd, (daemonRun every clock turns).srv.kernel.fds fd = none
  once : (daemonRun every clock turns).srv.kernel.closed.Nodup
  all : ∀ id, id ∈ (daemonRun every clock turns).srv.kernel.closed ↔
    id < (daemonRun every clock turns).srv.kernel.accepted
  tame : (daemonRun every clock turns).srv.kernel.wild = 0

/-- The server of the daemon is one of those the calls lead to. -/
theorem exists_serverRun (every : ℕ) (clock : Option ℕ) (turns : List Turn) :
    ∃ acts, (daemonRun every clock turns).srv = serverRun acts := by
  refine run_invariant (Daemon.turn every) (fun m => ∃ acts, m.srv = serverRun acts) ?_ _ ⟨[], rfl⟩ turns
  rintro m t ⟨acts, hm⟩
  have hmore : ∀ more, run Server.exec m.srv more = serverRun (acts ++ more) := by
    intro more
    rw [hm]
    exact (run_append Server.exec serverOpen acts more).symm
  generalize hm' : m.turn every t = m'
  have hturn := turnsTo every m t
  rw [hm'] at hturn
  cases hturn with
  | ended => exact ⟨acts, hm⟩
  | stopped => exact ⟨_, hmore [.close]⟩
  | failed => exact ⟨_, hmore [.step t.env, .close]⟩
  | quiet => exact ⟨_, hmore [.step t.env]⟩
  | beat => exact ⟨_, hmore [.step t.env]⟩

/-- The turn that ended the loop, and that it closed the server. -/
theorem exists_last (every : ℕ) (clock : Option ℕ) (turns : List Turn) {status : ℕ}
    (h : (daemonRun every clock turns).status = some status) :
    (∃ s, (daemonRun every clock turns).srv = serverClose s) ∧
    ∃ before t after, turns = before ++ t :: after ∧ (daemonRun every clock before).status = none ∧
      (t.stop = true ∧ status = 0 ∨
        t.stop = false ∧ (serverStep (daemonRun every clock before).srv t.env).2 = none ∧ status = 1) := by
  induction turns using List.reverseRecOn with
  | nil => cases h
  | append_singleton turns t ih =>
      have hlast : daemonRun every clock (turns ++ [t]) = (daemonRun every clock turns).turn every t := by
        rw [daemonRun, run_append]
        rfl
      rw [hlast] at h ⊢
      have hturn := turnsTo every (daemonRun every clock turns) t
      generalize (daemonRun every clock turns).turn every t = m' at h hturn ⊢
      cases hturn with
      | ended hover =>
          obtain ⟨hclose, before, t', after, hsplit, hend⟩ := ih h
          refine ⟨hclose, before, t', after ++ [t], ?_, hend⟩
          rw [hsplit, List.append_assoc, List.cons_append]
      | stopped hrun hstop =>
          exact ⟨⟨_, rfl⟩, turns, t, [], rfl, hrun, Or.inl ⟨hstop, (Option.some.inj h).symm⟩⟩
      | failed hrun hstop hfail =>
          exact ⟨⟨_, rfl⟩, turns, t, [], rfl, hrun, Or.inr ⟨hstop, hfail, (Option.some.inj h).symm⟩⟩
      | quiet hrun =>
          rw [show (daemonRun every clock turns).status = some status from h] at hrun
          cases hrun
      | beat hrun =>
          rw [show (daemonRun every clock turns).status = some status from h] at hrun
          cases hrun

/-- A client is accepted, and the daemon told to stop. -/
def oneClient : List Turn :=
  [⟨false, ⟨0, .ready .ready fun _ => false, 0, ⟨[.conn 5], [], [], []⟩⟩, some 1000, some 1000⟩,
    ⟨true, ⟨0, .eintr, 0, ⟨[], [], [], []⟩⟩, none, none⟩]

end Carwatch.Interface
