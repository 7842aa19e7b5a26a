import Carwatch.Interface.Reply
import Mathlib.Data.Rat.Defs
import Mathlib.Data.List.Pairwise

/-!
# Carwatch.Interface.Synth — the source of made-up numbers (`src/interface/synth_source.c`)

`synth_query` answers one request line. Every reply is assembled by `outf`,
text by text, into the caller's buffer; a text that does not fit makes the
whole call return -1.

* **Model layer**: `outf`, `replyStatus`, `replyVerdicts`, `replyFaults`,
  `parseWhen`, `replySeries`, `synthQuery`. A reply function is the list of
  texts it hands to `outf`; what `outf` makes of them decides nothing in it.
  Times are `UInt64` and wrap. The loop of `reply_series` need not end, so it
  takes a number of rounds; `none` is a loop that is still running.
* **Doubles**: a finite double is a rational number, and what C does with
  doubles is a parameter (`Doubles`).
* **Sample times**: `sampleTimes_of_first` and `sampleTimes_ends_iff`, with
  which times the loop ends and when; `window_times` and `series_sample_times`
  for a reply.
-/

namespace Carwatch.Interface

open Carwatch.Lib

/-! ## The output -/

/-- `out_t`; `buf` is all of the caller's buffer, so `cap` is its length, and
`isOver` is `over`. -/
structure SynthOut where
  buf : Bytes
  len : ℕ := 0
  isOver : Bool := false

/-- `vsnprintf(buf + off, buf_len - off, ...)` of a text: what fits before a
NUL, and the NUL. -/
def vsnprintf (buf : Bytes) (off : ℕ) (text : Bytes) : Bytes :=
  if buf.length - off = 0 then buf
  else overwrite buf off (text.take (buf.length - off - 1) ++ [0])

/-- `outf` of a formatted text. -/
def outf (o : SynthOut) (text : Bytes) : SynthOut :=
  if o.isOver then o
  else
    let room := o.buf.length - o.len
    let buf := vsnprintf o.buf o.len text
    if text.length ≥ room then { o with buf := buf, isOver := true }
    else { o with buf := buf, len := o.len + text.length }

/-- The text of `reply_err`. -/
def replyErr (code reason : Bytes) : Bytes :=
  [ascii "err ", code, ascii " ", reason, ascii "\n"].flatten

/-- `ok` and its newline. -/
def okText : Bytes := ascii "ok\n"

/-! ## Numbers -/

/-- `printf` of `%u` -/
def printUint32 (v : UInt32) : Bytes := printNat 10 10 v.toNat

/-- `mix` -/
def mix (x : UInt64) : UInt32 :=
  let x := x ^^^ (x >>> 33)
  let x := x * 0xff51afd7ed558ccd
  let x := x ^^^ (x >>> 33)
  let x := x * 0xc4ceb9fe1a85ec53
  let x := x ^^^ (x >>> 33)
  x.toUInt32

/-- `ago` -/
def ago (now secs : UInt64) : UInt64 := if now ≥ secs then now - secs else 0

/-- What C's arithmetic on doubles does where nothing overflows: results and
constants are rounded, `sin` is the library's, and `fixed1` is `printf` of
`%.1f`. -/
structure Doubles where
  rnd : ℚ → ℚ
  sin : ℚ → ℚ
  fixed1 : ℚ → Bytes

namespace Doubles

variable (d : Doubles)

/-- `+` -/
def add (x y : ℚ) : ℚ := d.rnd (x + y)

/-- `-` -/
def sub (x y : ℚ) : ℚ := d.rnd (x - y)

/-- `*` -/
def mul (x y : ℚ) : ℚ := d.rnd (x * y)

/-- `/` -/
def div (x y : ℚ) : ℚ := d.rnd (x / y)

/-- A conversion from an unsigned integer. -/
def ofNat (n : ℕ) : ℚ := d.rnd n

/-- `noise` -/
def noise (t k : UInt64) : ℚ :=
  d.sub (d.div (d.ofNat (mix (t * 31 + k) % 2001).toNat) (d.rnd 1000)) (d.rnd 1)

end Doubles

/-! ## `status` -/

/-- `synth_t` -/
structure SynthState where
  t0 : UInt64
  nowS : UInt64

/-- A row of `procs`. -/
structure Proc where
  name : Bytes
  pid : UInt32
  rssKb : UInt32
  restarts : UInt32
  eventsPerS : UInt32
deriving DecidableEq

/-- `procs` -/
def procs : List Proc :=
  [⟨ascii "supervisor", 101, 1400, 0, 1⟩, ⟨ascii "obdd", 102, 2100, 0, 15⟩,
    ⟨ascii "ambientd", 103, 1500, 0, 1⟩, ⟨ascii "storaged", 104, 3200, 0, 16⟩,
    ⟨ascii "analyzed", 105, 4800, 2, 16⟩, ⟨ascii "statusd", 106, 2600, 0, 1⟩]

/-- `up` of `reply_status` -/
def SynthState.up (s : SynthState) : UInt64 := s.nowS - s.t0 + 3600

/-- `u` of `reply_status`: a process that has restarted counts from then. -/
def SynthState.uptime (s : SynthState) (p : Proc) : UInt64 :=
  if p.restarts > 0 then s.nowS - s.t0 + 900 else s.up

/-- The load of the `i`-th process. -/
def cpuPct (d : Doubles) (s : SynthState) (i : ℕ) : ℚ :=
  d.add (d.rnd (2 / 10))
    (d.div (d.ofNat (mix (s.nowS / 5 + 7 * UInt64.ofNat i) % 40).toNat) (d.rnd 10))

/-- The line of the `i`-th process. -/
def procLine (d : Doubles) (s : SynthState) (p : Proc) (i : ℕ) : Bytes :=
  [ascii "proc name=\"", p.name, ascii "\" state=\"up\" pid=", printUint32 p.pid,
    ascii " uptime_s=", printUint (s.uptime p), ascii " restarts=", printUint32 p.restarts,
    ascii " rss_kb=", printUint32 (p.rssKb + mix (s.nowS / 10 + UInt64.ofNat i) % 64),
    ascii " cpu_pct=", d.fixed1 (cpuPct d s i), ascii " events=",
    printUint (s.uptime p * p.eventsPerS.toUInt64), ascii " drops=0 src=\"synth\"\n"].flatten

/-- The line of a ring. -/
def ringLine (name : Bytes) (depth : UInt32) : Bytes :=
  [ascii "ring name=\"", name, ascii "\" depth=", printUint32 depth,
    ascii " capacity=4096 overruns=0 src=\"synth\"\n"].flatten

/-- The line of the links. -/
def linkLine : Bytes :=
  ascii "link dongle=\"up\" probe=\"present\" light=\"green\" time_trusted=1 src=\"synth\"\n"

/-- The line of the sources. -/
def srcmixLine (s : SynthState) : Bytes :=
  [ascii "srcmix live=0 replay=0 synth=", printUint (s.up * 16), ascii " src=\"synth\"\n"].flatten

/-- `reply_status` -/
def replyStatus (d : Doubles) (s : SynthState) : List Bytes :=
  (procs.zipIdx.map fun p => procLine d s p.1 p.2) ++
    [ringLine (ascii "obd") (mix (s.nowS + 1) % 40), ringLine (ascii "ambient") (mix (s.nowS + 2) % 3),
      linkLine, srcmixLine s, okText]

/-! ## `verdicts` and `faults` -/

/-- `reply_verdicts` -/
def replyVerdicts (s : SynthState) : List Bytes :=
  [[ascii "verdict id=1 area=\"cooling\" sensors=\"coolant,intake\" residual=3.4 ",
      ascii "state=\"active\" start_s=", printUint (ago s.nowS 420), ascii " end_s=null src=\"synth\"\n"].flatten,
    [ascii "verdict id=2 area=\"air_fuel\" sensors=\"ltft,maf\" residual=2.6 ",
      ascii "state=\"ended\" start_s=", printUint (ago s.nowS 5400), ascii " end_s=",
      printUint (ago s.nowS 4200), ascii " src=\"synth\"\n"].flatten,
    okText]

/-- A row of `events`. -/
structure SynthEvent where
  secsAgo : UInt64
  kind : Bytes
  source : Bytes
  code : Bytes
  detail : Bytes
deriving DecidableEq

/-- `events` of `reply_faults` -/
def synthEvents : List SynthEvent :=
  [⟨3000, ascii "detection", ascii "ambientd", ascii "sensor_absent", ascii "probe not answering"⟩,
    ⟨2990, ascii "degradation", ascii "ambientd", ascii "capture_continues",
      ascii "engine capture unaffected"⟩,
    ⟨2400, ascii "recovery", ascii "ambientd", ascii "sensor_present", ascii "probe answering again"⟩,
    ⟨420, ascii "detection", ascii "analyzed", ascii "verdict_surfaced",
      ascii "cooling residual above trip level"⟩]

/-- The line of an event. -/
def faultLine (s : SynthState) (e : SynthEvent) : Bytes :=
  [ascii "fault t_s=", printUint (ago s.nowS e.secsAgo), ascii " kind=\"", e.kind,
    ascii "\" source=\"", e.source, ascii "\" code=\"", e.code, ascii "\" detail=\"", e.detail,
    ascii "\" src=\"synth\"\n"].flatten

/-- `reply_faults` -/
def replyFaults (s : SynthState) : List Bytes := synthEvents.map (faultLine s) ++ [okText]

/-! ## `series` -/

/-- A row of `signals`, its numbers as they are written. -/
structure Signal where
  pid : Bytes
  base : ℚ
  amp : ℚ
  periodS : ℚ
  wobble : ℚ
deriving DecidableEq

/-- `signals` -/
def signals : List Signal :=
  [⟨ascii "0C", 1800, 700, 90, 25⟩, ⟨ascii "0D", 55, 25, 140, 1⟩, ⟨ascii "05", 88, 4, 600, 3 / 10⟩,
    ⟨ascii "04", 35, 20, 90, 2⟩, ⟨ascii "06", 5 / 10, 2, 60, 3 / 10⟩,
    ⟨ascii "07", 15 / 10, 5 / 10, 3000, 1 / 10⟩, ⟨ascii "probe", 21, 2, 1800, 1 / 10⟩]

/-- `PROBE` -/
abbrev probeIndex : ℕ := 6

/-- `PI` -/
def piLiteral : ℚ := 314159265358979323846 / 10 ^ 20

/-- The value of the `k`-th signal at `t`. -/
def sampleValue (d : Doubles) (sig : Signal) (k : ℕ) (t : UInt64) : ℚ :=
  d.add
    (d.add (d.rnd sig.base)
      (d.mul (d.rnd sig.amp)
        (d.sin (d.add
          (d.div (d.mul (d.mul (d.rnd 2) (d.rnd piLiteral)) (d.ofNat t.toNat)) (d.rnd sig.periodS))
          (d.ofNat k)))))
    (d.mul (d.rnd sig.wobble) (d.noise t (UInt64.ofNat k)))

/-- The line of a sample; the probe drops out for a minute. -/
def sampleLine (d : Doubles) (sig : Signal) (k : ℕ) (t : UInt64) : Bytes :=
  if k = probeIndex && t % 900 < 60 then
    [ascii "sample pid=\"", sig.pid, ascii "\" t_s=", printUint t, ascii " value=null src=\"synth\"\n"].flatten
  else
    [ascii "sample pid=\"", sig.pid, ascii "\" t_s=", printUint t, ascii " value=",
      d.fixed1 (sampleValue d sig k t), ascii " src=\"synth\"\n"].flatten

/-- `find` -/
def findField (line : KvLine) (key : Bytes) : Option KvField := line.fields.find? (·.key == key)

/-- `strtoull` in base 10 -/
def strtoull (text : Bytes) : UInt64 :=
  match scanUnsigned 10 text with
  | none => 0
  | some (v, _) => UInt64.ofNat v

/-- The seconds of a unit. -/
def unitSeconds (unit : UInt8) : Option UInt64 :=
  if unit = 0x73 then some 1 else if unit = 0x6D then some 60 else if unit = 0x68 then some 3600
  else none

/-- `now`, or a number of seconds, minutes or hours before it. -/
def parseAgo (text : Bytes) (now : UInt64) : Option UInt64 :=
  if text = ascii "now" then some now
  else
    let n := if text.head? = some 0x2D then ((text.drop 1).takeWhile isDigit).length else 0
    if n < 1 || n > 5 then none
    else
      match text.drop (1 + n) with
      | [unit] =>
          match unitSeconds unit with
          | none => none
          | some per =>
              let secs := strtoull (text.drop 1) * per
              if secs > now then none else some (now - secs)
      | _ => none

/-- `parse_when` -/
def parseWhen (req : KvLine) (key dflt : Bytes) (now : UInt64) : Option UInt64 :=
  match findField req key with
  | none => parseAgo dflt now
  | some f =>
      match f.type with
      | .null => none
      | .num => if f.val.length > 12 || !f.val.all isDigit then none else some (strtoull f.val)
      | .str => parseAgo f.val now

/-- The times of the loop of `reply_series` from `t` on, in so many rounds. -/
def sampleTimes (step stop : UInt64) : ℕ → UInt64 → Option (List UInt64)
  | 0, _ => none
  | rounds + 1, t =>
      if t ≤ stop then (sampleTimes step stop rounds (t + step)).map (t :: ·) else some []

/-- `step` of `reply_series` -/
def seriesStep (start stop : UInt64) : UInt64 := (stop - start) / 300 + 1

/-- The first time of the loop. -/
def firstTime (start stop : UInt64) : UInt64 :=
  (start + seriesStep start stop - 1) / seriesStep start stop * seriesStep start stop

/-- `reply_series` -/
def replySeries (d : Doubles) (rounds : ℕ) (s : SynthState) (req : KvLine) : Option (List Bytes) :=
  match findField req (ascii "pid") with
  | none => some [replyErr (ascii "usage") (ascii "series needs a pid")]
  | some pid =>
      if pid.type ≠ .str then some [replyErr (ascii "usage") (ascii "series needs a pid")]
      else
        match signals.zipIdx.find? (·.1.pid == pid.val) with
        | none => some [replyErr (ascii "unknown_pid") (ascii "no such pid")]
        | some (sig, k) =>
            match parseWhen req (ascii "from") (ascii "-5m") s.nowS,
              parseWhen req (ascii "to") (ascii "now") s.nowS with
            | some start, some stop =>
                if start ≥ stop || stop - start > 3600 then
                  some [replyErr (ascii "usage") (ascii "window must be 1 to 3600 seconds")]
                else
                  (sampleTimes (seriesStep start stop) stop rounds (firstTime start stop)).map fun ts =>
                    ts.map (sampleLine d sig k) ++ [okText]
            | _, _ => some [replyErr (ascii "usage") (ascii "bad from or to")]

/-! ## The seam -/

/-- The texts that `synth_query` hands to `outf`. -/
def synthReply (d : Doubles) (rounds : ℕ) (s : SynthState) (request : Bytes) : Option (List Bytes) :=
  match kvParseLine request with
  | .record req =>
      if req.tag = ascii "status" then some (replyStatus d s)
      else if req.tag = ascii "verdicts" then some (replyVerdicts s)
      else if req.tag = ascii "faults" then some (replyFaults s)
      else if req.tag = ascii "series" then replySeries d rounds s req
      else if req.tag = ascii "baseline" then
        some [replyErr (ascii "unavailable") (ascii "baseline is not served yet")]
      else some [replyErr (ascii "unknown_verb") (ascii "no such verb")]
  | _ => some [replyErr (ascii "usage") (ascii "malformed request")]

/-- What `synth_query` leaves: the length it returns, `none` for -1, and the
caller's buffer. -/
structure SynthAnswer where
  ret : Option ℕ
  out : Bytes
deriving DecidableEq

/-- `synth_query`; `none` while it runs. -/
def synthQuery (d : Doubles) (rounds : ℕ) (s : SynthState) (request out : Bytes) :
    Option SynthAnswer :=
  (synthReply d rounds s request).map fun texts =>
    let o := texts.foldl outf { buf := out }
    ⟨if o.isOver then none else some o.len, o.buf⟩

/-! ## When the loop of `reply_series` ends -/

/-- The `i`-th time from `t` on. -/
def timeAt (step t : UInt64) (i : ℕ) : UInt64 := t + UInt64.ofNat i * step

theorem timeAt_zero (step t : UInt64) : timeAt step t 0 = t := by
  simp [timeAt]

theorem timeAt_succ (step t : UInt64) (i : ℕ) : timeAt step t (i + 1) = timeAt step (t + step) i := by
  unfold timeAt
  rw [UInt64.ofNat_add, UInt64.add_mul]
  simp only [UInt64.ofNat_one, UInt64.one_mul]
  rw [UInt64.add_comm (UInt64.ofNat i * step) step, UInt64.add_assoc]

/-- The loop ends at the first time beyond `stop`. -/
theorem sampleTimes_of_first {step stop : UInt64} {n : ℕ} {t : UInt64}
    (hin : ∀ i < n, timeAt step t i ≤ stop) (hout : stop < timeAt step t n) {rounds : ℕ}
    (hrounds : n < rounds) :
    sampleTimes step stop rounds t = some ((List.range n).map (timeAt step t)) := by
  induction n generalizing t rounds with
  | zero =>
      cases rounds with
      | zero => omega
      | succ rounds =>
          rw [timeAt_zero] at hout
          rw [sampleTimes, if_neg (UInt64.not_le.mpr hout)]
          rfl
  | succ n ih =>
      cases rounds with
      | zero => omega
      | succ rounds =>
          have hfirst := hin 0 (Nat.succ_pos n)
          rw [timeAt_zero] at hfirst
          -- the same run of the loop, one step on
          have hrest : sampleTimes step stop rounds (t + step) =
              some ((List.range n).map (timeAt step (t + step))) := by
            apply ih
            · intro i hi
              rw [← timeAt_succ]
              exact hin (i + 1) (Nat.succ_lt_succ hi)
            · rw [← timeAt_succ]
              exact hout
            · omega
          rw [sampleTimes, if_pos hfirst, hrest, List.range_succ_eq_map, List.map_cons, List.map_map,
            Option.map_some, timeAt_zero]
          congr 2
          apply List.map_congr_left
          intro i _
          exact (timeAt_succ step t i).symm

/-- While no time is beyond `stop`, the loop goes on. -/
theorem sampleTimes_eq_none {step stop t : UInt64} (h : ∀ i, timeAt step t i ≤ stop) (rounds : ℕ) :
    sampleTimes step stop rounds t = none := by
  induction rounds generalizing t with
  | zero => rfl
  | succ rounds ih =>
      have hfirst := h 0
      rw [timeAt_zero] at hfirst
      have hrest : ∀ i, timeAt step (t + step) i ≤ stop := by
        intro i
        rw [← timeAt_succ]
        exact h (i + 1)
      rw [sampleTimes, if_pos hfirst, ih hrest]
      rfl

/-- The loop ends exactly when some time of it is beyond `stop`. -/
theorem sampleTimes_ends_iff (step stop t : UInt64) :
    (∃ rounds ts, sampleTimes step stop rounds t = some ts) ↔ ∃ n, stop < timeAt step t n := by
  constructor
  · rintro ⟨rounds, ts, hts⟩
    by_contra hnever
    have hall : ∀ i, timeAt step t i ≤ stop := by
      intro i
      exact UInt64.not_lt.mp fun hlt => hnever ⟨i, hlt⟩
    rw [sampleTimes_eq_none hall] at hts
    cases hts
  · intro hsome
    classical
    have hout := Nat.find_spec hsome
    have hin : ∀ i < Nat.find hsome, timeAt step t i ≤ stop := by
      intro i hi
      exact UInt64.not_lt.mp (Nat.find_min hsome hi)
    exact ⟨_, _, sampleTimes_of_first hin hout (Nat.lt_succ_self _)⟩

/-! ## The times of a window -/

theorem toNat_timeAt (step t : UInt64) (i : ℕ) :
    (timeAt step t i).toNat = (t.toNat + i * step.toNat) % 2 ^ 64 := by
  unfold timeAt
  rw [UInt64.toNat_add, UInt64.toNat_mul, UInt64.toNat_ofNat', Nat.mod_mul_mod, Nat.add_mod_mod]

/-- The multiples of `step` in a window: the first is the `a`-th, the last the
`b`-th. -/
theorem window_multiples {start stop : ℕ} (hlt : start < stop) :
    let step := (stop - start) / 300 + 1
    let a := (start + step - 1) / step
    let b := stop / step
    a ≤ b ∧ b + 1 - a ≤ 300 ∧ (∀ m, start ≤ m * step ↔ a ≤ m) ∧ ∀ m, m * step ≤ stop ↔ m ≤ b := by
  intro step a b
  have hpos : 0 < step := Nat.succ_pos _
  have hup : ∀ m, start ≤ m * step ↔ a ≤ m := by
    intro m
    show start ≤ m * step ↔ (start + step - 1) / step ≤ m
    rw [Nat.div_le_iff_le_mul_add_pred hpos, Nat.mul_comm step m]
    omega
  have hdown : ∀ m, m * step ≤ stop ↔ m ≤ b := fun m => (Nat.le_div_iff_mul_le hpos).symm
  -- the window has as many numbers as a step, and fewer than 300 steps
  have hwide : step ≤ stop - start + 1 := by
    have := Nat.div_le_self (stop - start) 300
    omega
  have hnarrow : stop - start < 300 * step := by
    have := Nat.lt_mul_div_succ (stop - start) (by decide : 0 < 300)
    exact this
  have hb : stop < (b + 1) * step := by
    by_contra hle
    have := (hdown (b + 1)).mp (Nat.not_lt.mp hle)
    omega
  have hab : a ≤ b := by
    rw [← hup]
    have : b * step + step = (b + 1) * step := by ring
    omega
  refine ⟨hab, ?_, hup, hdown⟩
  -- `b - a` steps fit between the ends
  have hfirst := (hup a).mpr (le_refl a)
  have hlast := (hdown b).mpr (le_refl b)
  have hspan : (b - a) * step ≤ stop - start := by
    rw [Nat.sub_mul]
    omega
  have hcount : b - a < 300 := by
    by_contra hle
    have := Nat.mul_le_mul_right step (Nat.not_lt.mp hle)
    omega
  omega

theorem toNat_seriesStep {start stop : UInt64} (hlt : start < stop) :
    (seriesStep start stop).toNat = (stop.toNat - start.toNat) / 300 + 1 := by
  have hle : start ≤ stop := UInt64.le_of_lt hlt
  have hbound := stop.toNat_lt
  unfold seriesStep
  rw [UInt64.toNat_add, UInt64.toNat_div, UInt64.toNat_sub_of_le _ _ hle]
  show ((stop.toNat - start.toNat) / 300 + 1) % 2 ^ 64 = _
  apply Nat.mod_eq_of_lt
  omega

/-- The first time is the first multiple of the step in the window: nothing
wraps before the end of the window. -/
theorem toNat_firstTime {start stop : UInt64} (hlt : start < stop) :
    (firstTime start stop).toNat =
      (start.toNat + (seriesStep start stop).toNat - 1) / (seriesStep start stop).toNat *
        (seriesStep start stop).toNat := by
  have hnat := UInt64.lt_iff_toNat_lt.mp hlt
  have hstep := toNat_seriesStep hlt
  have hbound := stop.toNat_lt
  have hquot : ((stop - start) / 300).toNat = (stop.toNat - start.toNat) / 300 := by
    rw [UInt64.toNat_div, UInt64.toNat_sub_of_le _ _ (UInt64.le_of_lt hlt)]
    rfl
  have hsum : (start + seriesStep start stop - 1).toNat =
      start.toNat + (seriesStep start stop).toNat - 1 := by
    have hcancel : start + seriesStep start stop - 1 = start + (stop - start) / 300 := by
      rw [seriesStep, ← UInt64.add_assoc, UInt64.add_sub_cancel]
    rw [hcancel, UInt64.toNat_add, hquot, hstep]
    apply Nat.mod_eq_of_lt
    omega
  have hmul := Nat.div_mul_le_self (start.toNat + (seriesStep start stop).toNat - 1)
    (seriesStep start stop).toNat
  unfold firstTime
  rw [UInt64.toNat_mul, UInt64.toNat_div, hsum]
  apply Nat.mod_eq_of_lt
  omega

/-- The loop of a window below 2^63: it takes the multiples of the step in the
window, in order, and there are 1 to 300 of them. -/
theorem window_times {start stop : UInt64} (hlt : start < stop) (hstop : stop.toNat < 2 ^ 63) :
    ∃ ts : List UInt64,
      (∀ rounds, 300 < rounds →
        sampleTimes (seriesStep start stop) stop rounds (firstTime start stop) = some ts) ∧
      ts.Pairwise (· < ·) ∧
      (∀ t, t ∈ ts ↔ ((stop.toNat - start.toNat) / 300 + 1 ∣ t.toNat ∧ start ≤ t ∧ t ≤ stop)) ∧
      1 ≤ ts.length ∧ ts.length ≤ 300 := by
  have hnat := UInt64.lt_iff_toNat_lt.mp hlt
  have hstep := toNat_seriesStep hlt
  have hfirst := toNat_firstTime hlt
  obtain ⟨hab, hcount, hup, hdown⟩ := window_multiples hnat
  rw [← hstep] at hab hcount hup hdown ⊢
  generalize hq : seriesStep start stop = step at *
  generalize ha : (start.toNat + step.toNat - 1) / step.toNat = a at *
  generalize hb : stop.toNat / step.toNat = b at *
  have hpos : 0 < step.toNat := by omega
  have hlast : (b + 1) * step.toNat ≤ stop.toNat + step.toNat := by
    have := (hdown b).mpr (le_refl b)
    rw [Nat.add_mul]
    omega
  -- the `i`-th time is the `a + i`-th multiple, as long as that is no further than one beyond
  have htime : ∀ i, a + i ≤ b + 1 →
      (timeAt step (firstTime start stop) i).toNat = (a + i) * step.toNat := by
    intro i hi
    rw [toNat_timeAt, hfirst, ← Nat.add_mul]
    apply Nat.mod_eq_of_lt
    have := Nat.mul_le_mul_right step.toNat hi
    omega
  refine ⟨(List.range (b + 1 - a)).map (timeAt step (firstTime start stop)), ?_, ?_, ?_, ?_, ?_⟩
  · intro rounds hrounds
    apply sampleTimes_of_first
    · intro i hi
      rw [UInt64.le_iff_toNat_le, htime i (by omega), hdown]
      omega
    · rw [UInt64.lt_iff_toNat_lt, htime _ (by omega), ← Nat.not_le, hdown]
      omega
    · omega
  · rw [List.pairwise_map]
    refine List.Pairwise.imp_of_mem ?_ List.pairwise_lt_range
    intro i j hi hj hij
    rw [List.mem_range] at hi hj
    rw [UInt64.lt_iff_toNat_lt, htime i (by omega), htime j (by omega)]
    exact Nat.mul_lt_mul_of_pos_right (by omega) hpos
  · intro t
    rw [List.mem_map]
    constructor
    · rintro ⟨i, hi, rfl⟩
      rw [List.mem_range] at hi
      rw [UInt64.le_iff_toNat_le, UInt64.le_iff_toNat_le, htime i (by omega), hup, hdown]
      exact ⟨Dvd.intro_left _ rfl, by omega, by omega⟩
    · rintro ⟨⟨m, hm⟩, hge, hle⟩
      rw [Nat.mul_comm] at hm
      rw [UInt64.le_iff_toNat_le, hm] at hge hle
      have ham := (hup m).mp hge
      have hmb := (hdown m).mp hle
      refine ⟨m - a, List.mem_range.mpr (by omega), ?_⟩
      apply UInt64.toNat_inj.mp
      rw [htime _ (by omega), hm]
      congr 1
      omega
  · rw [List.length_map, List.length_range]
    omega
  · rw [List.length_map, List.length_range]
    omega

/-! ## What `parse_when` gives -/

theorem scanHexMark_ten (s : Bytes) : scanHexMark 10 s = s := by
  cases s with
  | nil => rfl
  | cons c s =>
      cases s with
      | nil => rfl
      | cons x s => rfl

/-- A digit is neither a space nor a sign. -/
theorem scanSign_of_isDigit {text : Bytes} (hall : text.all isDigit = true) :
    scanSign (text.dropWhile isSpace) = (false, text) := by
  cases text with
  | nil => rfl
  | cons c rest =>
      rw [List.all_cons, Bool.and_eq_true] at hall
      have hdigit := hall.1
      unfold isDigit at hdigit
      rw [Bool.and_eq_true, decide_eq_true_eq, decide_eq_true_eq, UInt8.le_iff_toNat_le,
        UInt8.le_iff_toNat_le] at hdigit
      change 0x30 ≤ c.toNat ∧ c.toNat ≤ 0x39 at hdigit
      have hne : ∀ e : UInt8, e.toNat < 0x30 → c ≠ e := by
        rintro e he rfl
        omega
      have hspace : ¬ isSpace c = true := by
        rw [isSpace, Bool.or_eq_true, Bool.and_eq_true, beq_iff_eq, decide_eq_true_eq,
          decide_eq_true_eq, UInt8.le_iff_toNat_le, UInt8.le_iff_toNat_le]
        rintro (h | ⟨-, h⟩)
        · exact hne 0x20 (by decide) h
        · change c.toNat ≤ 0x0D at h
          omega
      rw [List.dropWhile_cons, if_neg hspace, scanSign, if_neg (hne 0x2D (by decide)),
        if_neg (hne 0x2B (by decide))]

/-- A number of at most twelve digits. -/
theorem toNat_strtoull_lt {text : Bytes} (hlen : text.length ≤ 12) (hall : text.all isDigit = true) :
    (strtoull text).toNat < 10 ^ 12 := by
  unfold strtoull scanUnsigned
  rw [scanSign_of_isDigit hall]
  simp only [scanHexMark_ten]
  by_cases hnone : (text.takeWhile (isDigitIn 10)).isEmpty = true
  · rw [if_pos hnone]
    decide
  · have hval := digitsVal_lt (b := 10) (text.takeWhile (isDigitIn 10))
      fun c hc => List.mem_takeWhile_imp hc
    have hshort : (text.takeWhile (isDigitIn 10)).length ≤ 12 :=
      le_trans (List.takeWhile_prefix _).length_le hlen
    have hpow : 10 ^ (text.takeWhile (isDigitIn 10)).length ≤ 10 ^ 12 :=
      Nat.pow_le_pow_right (by decide) hshort
    have hsmall : ¬ 2 ^ 64 ≤ digitsVal 10 (text.takeWhile (isDigitIn 10)) := by omega
    simp only [hnone, hsmall, if_false, Bool.false_eq_true]
    rw [UInt64.toNat_ofNat', Nat.mod_eq_of_lt (by omega)]
    omega

theorem parseAgo_le {text : Bytes} {now v : UInt64} (h : parseAgo text now = some v) : v ≤ now := by
  unfold parseAgo at h
  by_cases hnow : text = ascii "now"
  · rw [if_pos hnow] at h
    rw [← Option.some.inj h]
    exact UInt64.le_refl now
  · rw [if_neg hnow] at h
    dsimp only at h
    generalize (if text.head? = some 0x2D then ((text.drop 1).takeWhile isDigit).length else 0) = n at h
    split_ifs at h
    split at h
    · split at h
      · cases h
      · split_ifs at h with hlate
        rw [← Option.some.inj h]
        exact UInt64.sub_le (UInt64.not_lt.mp hlate)
    · cases h

/-- `parse_when` gives no time beyond `now` and 10^12. -/
theorem toNat_parseWhen_lt {req : KvLine} {key dflt : Bytes} {now v : UInt64} {bound : ℕ}
    (hbound : 10 ^ 12 ≤ bound) (hnow : now.toNat < bound) (h : parseWhen req key dflt now = some v) :
    v.toNat < bound := by
  have hago : ∀ text, parseAgo text now = some v → v.toNat < bound := by
    intro text htext
    exact lt_of_le_of_lt (UInt64.le_iff_toNat_le.mp (parseAgo_le htext)) hnow
  unfold parseWhen at h
  cases hf : findField req key with
  | none =>
      rw [hf] at h
      exact hago _ h
  | some f =>
      rw [hf] at h
      dsimp only at h
      cases htype : f.type with
      | null =>
          rw [htype] at h
          cases h
      | str =>
          rw [htype] at h
          exact hago _ h
      | num =>
          rw [htype] at h
          dsimp only at h
          split_ifs at h with hbad
          rw [Bool.or_eq_true, decide_eq_true_eq, Bool.not_eq_true', not_or, Bool.not_eq_false,
            Nat.not_lt] at hbad
          rw [← Option.some.inj h]
          exact lt_of_lt_of_le (toNat_strtoull_lt hbad.1 hbad.2) hbound

/-! ## The samples of a series -/

/-- A series request: its parts, as far as `reply_series` reads them. -/
structure SeriesRequest (s : SynthState) (request : Bytes) (sig : Signal) (k : ℕ)
    (start stop : UInt64) : Prop where
  parts : ∃ req pid, kvParseLine request = .record req ∧ req.tag = ascii "series" ∧
    findField req (ascii "pid") = some pid ∧ pid.type = .str ∧
    signals.zipIdx.find? (·.1.pid == pid.val) = some (sig, k) ∧
    parseWhen req (ascii "from") (ascii "-5m") s.nowS = some start ∧
    parseWhen req (ascii "to") (ascii "now") s.nowS = some stop
  ordered : start < stop
  short : stop - start ≤ 3600

/-- The reply to a series request is its samples. -/
theorem SeriesRequest.synthReply_eq {s : SynthState} {request : Bytes} {sig : Signal} {k : ℕ}
    {start stop : UInt64} (h : SeriesRequest s request sig k start stop) (d : Doubles) (rounds : ℕ) :
    synthReply d rounds s request =
      (sampleTimes (seriesStep start stop) stop rounds (firstTime start stop)).map fun ts =>
        ts.map (sampleLine d sig k) ++ [okText] := by
  rcases h.parts with ⟨req, pid, hreq, htag, hpid, htype, hsig, hstart, hstop⟩
  have hseries : synthReply d rounds s request = replySeries d rounds s req := by
    unfold synthReply
    rw [hreq]
    dsimp only
    rw [htag]
    rfl
  have hwindow : ¬ (decide (start ≥ stop) || decide (stop - start > 3600)) = true := by
    rw [Bool.or_eq_true, decide_eq_true_eq, decide_eq_true_eq, not_or]
    exact ⟨UInt64.not_le.mpr h.ordered, UInt64.not_lt.mpr h.short⟩
  rw [hseries]
  unfold replySeries
  rw [hpid]
  dsimp only
  rw [if_neg (not_not.mpr htype), hsig, hstart, hstop]
  dsimp only
  rw [if_neg hwindow]

/-- The samples of a series below 2^63 have the multiples of the step in the
window for their times, in order, and there are 1 to 300 of them. -/
theorem series_sample_times (d : Doubles) (s : SynthState) (request : Bytes) (sig : Signal) (k : ℕ)
    (start stop : UInt64) (hnow : s.nowS.toNat < 2 ^ 63)
    (hreq : SeriesRequest s request sig k start stop) :
    ∃ ts : List UInt64,
      (∀ rounds, 300 < rounds →
        synthReply d rounds s request = some (ts.map (sampleLine d sig k) ++ [okText])) ∧
      ts.Pairwise (· < ·) ∧
      (∀ t, t ∈ ts ↔ ((stop.toNat - start.toNat) / 300 + 1 ∣ t.toNat ∧ start ≤ t ∧ t ≤ stop)) ∧
      1 ≤ ts.length ∧ ts.length ≤ 300 := by
  have hstop : stop.toNat < 2 ^ 63 := by
    rcases hreq.parts with ⟨req, -, -, -, -, -, -, -, hstop⟩
    exact toNat_parseWhen_lt (by decide) hnow hstop
  rcases window_times hreq.ordered hstop with ⟨ts, hts, hsorted, hmem, hpos, hcount⟩
  refine ⟨ts, ?_, hsorted, hmem, hpos, hcount⟩
  intro rounds hrounds
  rw [hreq.synthReply_eq, hts rounds hrounds, Option.map_some]

/-- Arithmetic without rounding, and a `%.1f` that rounds a half up; no sine. -/
def exactDoubles : Doubles where
  rnd x := x
  sin _ := 0
  fixed1 x :=
    let tenths := (|x| * 10 + 1 / 2).floor.toNat
    (if x < 0 then [0x2D] else []) ++ printNat 10 20 (tenths / 10) ++ [0x2E, digitChar (tenths % 10)]

/-- A window of 299 seconds has the most samples there can be. -/
theorem series_sample_times_tight :
    SeriesRequest ⟨0, 1000⟩ (ascii "series pid=\"0C\" from=100 to=399") ⟨ascii "0C", 1800, 700, 90, 25⟩ 0
      100 399 ∧
    ∃ ts : List UInt64, ts.Pairwise (· < ·) ∧
      (∀ t : UInt64, t ∈ ts ↔ (1 ∣ t.toNat ∧ 100 ≤ t ∧ t ≤ 399)) ∧ 1 ≤ ts.length ∧ ts.length ≤ 300 := by
  have hreq : SeriesRequest ⟨0, 1000⟩ (ascii "series pid=\"0C\" from=100 to=399")
      ⟨ascii "0C", 1800, 700, 90, 25⟩ 0 100 399 := by
    refine ⟨⟨⟨ascii "series", [⟨ascii "pid", ascii "0C", .str⟩, ⟨ascii "from", ascii "100", .num⟩,
      ⟨ascii "to", ascii "399", .num⟩]⟩, ⟨ascii "pid", ascii "0C", .str⟩, ?_⟩, by decide, by decide⟩
    decide +kernel
  rcases series_sample_times exactDoubles ⟨0, 1000⟩ _ _ 0 100 399 (by decide) hreq with
    ⟨ts, -, hsorted, hmem, hpos, hcount⟩
  exact ⟨hreq, ts, hsorted, hmem, hpos, hcount⟩

end Carwatch.Interface
