import Carwatch.Interface.Synth
import Mathlib.Data.Int.GCD
import Mathlib.Data.Rat.Floor

/-!
# Carwatch.Interface.SynthReply — a reply of the synthetic source is whole or absent

What `synth_query` writes has to pass `kv_reply_check` at the other side of
the seam, for every request and every clock.

* **Texts**: `Labeled` — a text is the line of one record with `src="synth"`;
  one lemma for each line the source formats, and `synthReply_sound` over
  all replies.
* **Buffer**: `Holds`, kept by `outf`, over any list of texts.
* **Ending**: the loop of `reply_series` steps through the multiples of the
  step modulo 2^64, so it ends exactly when one of them is beyond the window
  (`exists_timeAt_gt_iff`).
-/

namespace Carwatch.Interface

open Carwatch.Lib

/-! ## What is taken for granted of doubles -/

/-- Rounding is exact on small integers and at most doubles a number, `sin` is
between -1 and 1, and `%.1f` prints an optional sign, digits, a point and one
digit. -/
structure Doubles.Ok (d : Doubles) : Prop where
  rnd_nat : ∀ n : ℕ, n ≤ 2 ^ 53 → d.rnd n = n
  rnd_le : ∀ x : ℚ, |x| ≤ 10 ^ 6 → |d.rnd x| ≤ 2 * |x|
  sin_le : ∀ x : ℚ, |d.sin x| ≤ 1
  fixed1_text : ∀ x : ℚ, |x| ≤ 10 ^ 6 → ∃ (minus ds : Bytes) (c : UInt8),
    d.fixed1 x = minus ++ ds ++ [0x2E, c] ∧ (minus = [] ∨ minus = [0x2D]) ∧ IsInt ds ∧
      ds.length ≤ 20 ∧ isDigit c = true

namespace Doubles.Ok

variable {d : Doubles} (hd : d.Ok)
include hd

/-- A rounded result, from a bound on the exact one. -/
theorem rnd_bound {x b : ℚ} (hx : |x| ≤ b) (hb : b ≤ 10 ^ 6) : |d.rnd x| ≤ 2 * b := by
  have := hd.rnd_le x (hx.trans hb)
  linarith

theorem mul_bound {x y a b : ℚ} (hx : |x| ≤ a) (hy : |y| ≤ b) (hb : a * b ≤ 10 ^ 6) :
    |d.mul x y| ≤ 2 * (a * b) := by
  have ha : 0 ≤ a := (abs_nonneg x).trans hx
  refine hd.rnd_bound ?_ hb
  rw [abs_mul]
  exact mul_le_mul hx hy (abs_nonneg y) ha

theorem add_bound {x y a b : ℚ} (hx : |x| ≤ a) (hy : |y| ≤ b) (hb : a + b ≤ 10 ^ 6) :
    |d.add x y| ≤ 2 * (a + b) :=
  hd.rnd_bound ((abs_add_le x y).trans (add_le_add hx hy)) hb

/-- A small number divided by one that is exact. -/
theorem ratio_bound {m c : ℕ} {b : ℚ} (hm : m ≤ 2 ^ 53) (hc : c ≤ 2 ^ 53) (hpos : 0 < c)
    (hb : (m : ℚ) / c ≤ b) (hbound : b ≤ 10 ^ 6) : |d.div (d.ofNat m) (d.rnd c)| ≤ 2 * b := by
  unfold Doubles.div Doubles.ofNat
  rw [hd.rnd_nat m hm, hd.rnd_nat c hc]
  refine hd.rnd_bound ?_ hbound
  rw [abs_of_nonneg (by positivity)]
  exact hb

end Doubles.Ok

/-- A number that `%.1f` printed is a JSON number. -/
theorem fixed1_isNumber {d : Doubles} (hd : d.Ok) {x : ℚ} (hx : |x| ≤ 10 ^ 6) :
    IsNumber (d.fixed1 x) ∧ (d.fixed1 x).length ≤ 23 := by
  rcases hd.fixed1_text x hx with ⟨minus, ds, c, htext, hminus, hds, hlen, hc⟩
  have hfrac : IsDigits [c] := by
    refine ⟨List.cons_ne_nil _ _, ?_⟩
    intro e he
    rw [List.mem_singleton.mp he]
    exact hc
  constructor
  · refine ⟨minus, ds, [0x2E, c], [], hminus, hds, .inr ⟨[c], hfrac, rfl⟩, .inl rfl, ?_⟩
    rw [htext, List.append_nil, List.append_assoc]
  · have hsign : minus.length ≤ 1 := by
      rcases hminus with rfl | rfl
      · decide
      · decide
    rw [htext]
    simp only [List.length_append, List.length_cons, List.length_nil]
    omega

theorem cpuPct_bound {d : Doubles} (hd : d.Ok) (s : SynthState) (i : ℕ) :
    |cpuPct d s i| ≤ 10 ^ 6 := by
  have hm : (mix (s.nowS / 5 + 7 * UInt64.ofNat i) % 40).toNat < 40 := by
    rw [UInt32.toNat_mod]
    exact Nat.mod_lt _ (by decide)
  have hbase : |d.rnd (2 / 10)| ≤ 2 * (2 / 10) := hd.rnd_bound (by norm_num) (by norm_num)
  have hload : |d.div (d.ofNat (mix (s.nowS / 5 + 7 * UInt64.ofNat i) % 40).toNat) (d.rnd (10 : ℕ))| ≤
      2 * 4 := by
    refine hd.ratio_bound (by omega) (by norm_num) (by norm_num) ?_ (by norm_num)
    have hcast : ((mix (s.nowS / 5 + 7 * UInt64.ofNat i) % 40).toNat : ℚ) ≤ 40 := by
      exact_mod_cast hm.le
    rw [div_le_iff₀ (by norm_num)]
    exact hcast.trans (by norm_num)
  have := hd.add_bound hbase hload (by norm_num)
  unfold cpuPct
  push_cast at this
  linarith

theorem noise_bound {d : Doubles} (hd : d.Ok) (t k : UInt64) : |d.noise t k| ≤ 12 := by
  have hm : (mix (t * 31 + k) % 2001).toNat < 2001 := by
    rw [UInt32.toNat_mod]
    exact Nat.mod_lt _ (by decide)
  have hratio : |d.div (d.ofNat (mix (t * 31 + k) % 2001).toNat) (d.rnd (1000 : ℕ))| ≤ 2 * 2 := by
    refine hd.ratio_bound (by omega) (by norm_num) (by norm_num) ?_ (by norm_num)
    have hcast : ((mix (t * 31 + k) % 2001).toNat : ℚ) ≤ 2000 := by
      exact_mod_cast Nat.le_of_lt_succ hm
    rw [div_le_iff₀ (by norm_num)]
    exact hcast.trans (by norm_num)
  have hone : |d.rnd 1| ≤ 2 * 1 := hd.rnd_bound (by norm_num) (by norm_num)
  unfold Doubles.noise Doubles.sub
  push_cast at hratio
  have hdiff : |d.div (d.ofNat (mix (t * 31 + k) % 2001).toNat) (d.rnd 1000) - d.rnd 1| ≤ 6 :=
    (abs_sub _ _).trans (by linarith)
  have := hd.rnd_bound hdiff (by norm_num)
  linarith

/-- The numbers of a signal are small. -/
theorem signals_small : ∀ sig ∈ signals, |sig.base| ≤ 1800 ∧ |sig.amp| ≤ 700 ∧ |sig.wobble| ≤ 25 := by
  unfold signals
  simp only [List.forall_mem_cons, List.not_mem_nil, false_imp_iff, implies_true, and_true]
  norm_num

theorem sampleValue_bound {d : Doubles} (hd : d.Ok) {sig : Signal} (hsig : sig ∈ signals) (k : ℕ)
    (t : UInt64) : |sampleValue d sig k t| ≤ 10 ^ 6 := by
  obtain ⟨hbase, hamp, hwobble⟩ := signals_small sig hsig
  have hbase' := hd.rnd_bound hbase (by norm_num)
  have hamp' := hd.rnd_bound hamp (by norm_num)
  have hwobble' := hd.rnd_bound hwobble (by norm_num)
  have hwave := fun x => hd.mul_bound hamp' (hd.sin_le x) (by norm_num)
  have hshake := hd.mul_bound hwobble' (noise_bound hd t (UInt64.ofNat k)) (by norm_num)
  have hsum := fun x => hd.add_bound hbase' (hwave x) (by norm_num)
  have hall := fun x => hd.add_bound (hsum x) hshake (by norm_num)
  unfold sampleValue
  exact (hall _).trans (by norm_num)

/-! ## The lines of records -/

/-- `src="synth"` -/
def synthField : KvField := ⟨ascii "src", ascii "synth", .str⟩

/-- The text of one record with `src="synth"`, on a line of its own. -/
def Labeled (text : Bytes) : Prop :=
  ∃ body rec, text = body ++ [0x0A] ∧ kvParseLine body = .record rec ∧
    findField rec (ascii "src") = some synthField

/-- A field and what follows it, from left to right. -/
def KvField.renderThen (f : KvField) (rest : Bytes) : Bytes :=
  match f.type with
  | .str => f.key ++ 0x3D :: 0x22 :: (f.val ++ 0x22 :: rest)
  | .num => f.key ++ 0x3D :: (f.val ++ rest)
  | .null => f.key ++ 0x3D :: (f.val ++ rest)

theorem KvField.render_append (f : KvField) (rest : Bytes) : f.render ++ rest = f.renderThen rest := by
  unfold KvField.render KvField.renderThen KvField.valueText
  cases f.type with
  | str => simp
  | num => simp
  | null => simp

theorem KvLine.render_append (line : KvLine) (rest : Bytes) :
    line.render ++ rest =
      line.tag ++ line.fields.foldr (fun f rest => 0x20 :: f.renderThen rest) rest := by
  have hfields : ∀ fields : List KvField, fieldsText fields ++ rest =
      fields.foldr (fun f rest => 0x20 :: f.renderThen rest) rest := by
    intro fields
    induction fields with
    | nil => rfl
    | cons f fields ih =>
        rw [List.foldr_cons, ← ih, ← KvField.render_append]
        simp [fieldsText]
  rw [KvLine.render, List.append_assoc, hfields]

/-- What of a record does not depend on its values. -/
def shapeOk (tag : Bytes) (keys : List Bytes) : Bool :=
  isName tag kvMaxTag && tag != okWord && tag != errWord && keys.length ≤ kvMaxFields &&
    decide keys.Nodup && keys.all (isName · kvMaxKey)

/-- A formatted text is a labeled record if its fields are good and it is no
longer than a line. -/
theorem labeled_of_fields {tag : Bytes} {fields : List KvField} {text : Bytes}
    (htext : text = tag ++ fields.foldr (fun f rest => 0x20 :: f.renderThen rest) [0x0A])
    (hshape : shapeOk tag (fields.map KvField.key) = true) (hvalues : ∀ f ∈ fields, f.ValueOk)
    (hsrc : fields.find? (·.key == ascii "src") = some synthField) (hlen : text.length ≤ kvMaxLine + 1) :
    Labeled text := by
  have heq : text = (⟨tag, fields⟩ : KvLine).render ++ [0x0A] := by
    rw [KvLine.render_append]
    exact htext
  unfold shapeOk at hshape
  simp only [Bool.and_eq_true, decide_eq_true_eq, bne_iff_ne] at hshape
  obtain ⟨⟨⟨⟨⟨htag, hok⟩, herr⟩, hcount⟩, hnodup⟩, hnames⟩ := hshape
  have hwf : (⟨tag, fields⟩ : KvLine).Wf :=
    { tag := (isName_iff tag kvMaxTag).mp htag
      tag_ne_ok := hok
      tag_ne_err := herr
      fields :=
        { count := by rwa [List.length_map] at hcount
          distinct := hnodup
          names := fun f hf => (isName_iff f.key kvMaxKey).mp
            (List.all_eq_true.mp hnames f.key (List.mem_map_of_mem hf))
          values := hvalues } }
  refine ⟨_, ⟨tag, fields⟩, heq, (kvParseLine_eq_record_iff _ _).mpr ⟨hwf, ?_, rfl⟩, hsrc⟩
  rw [heq, List.length_append, List.length_singleton] at hlen
  omega

/-! Values. -/

theorem numField_ok {key val : Bytes} (h : IsNumber val ∧ val.length ≤ 23) :
    (⟨key, val, .num⟩ : KvField).ValueOk :=
  ⟨lt_of_le_of_lt h.2 (by decide), h.1⟩

theorem printUint_isNumber (v : UInt64) : IsNumber (printUint v) ∧ (printUint v).length ≤ 23 :=
  ⟨isNumber_printUint v, (length_printNat_le 10 20 v.toNat).trans (by decide)⟩

theorem printUint32_isNumber (v : UInt32) : IsNumber (printUint32 v) ∧ (printUint32 v).length ≤ 23 := by
  have hbound : v.toNat < 10 ^ (9 + 1) := lt_trans v.toNat_lt (by decide)
  exact ⟨isNumber_of_isInt (.inl rfl) (isInt_printNat hbound),
    (length_printNat_le 10 10 v.toNat).trans (by decide)⟩

/-- The text of a fixed field. -/
def fixedOk (f : KvField) : Bool :=
  match f.type with
  | .str => decide (f.val.length < kvMaxValue) &&
      f.val.all fun c => decide (IsPrintable c) && c != 0x22 && c != 0x5C
  | .num => decide (f.val.length < kvMaxValue) && jsonIsNumber f.val
  | .null => f.val == nullWord

theorem valueOk_of_fixedOk {f : KvField} (h : fixedOk f = true) : f.ValueOk := by
  unfold fixedOk at h
  unfold KvField.ValueOk
  cases htype : f.type with
  | str =>
      rw [htype] at h
      simp only [Bool.and_eq_true, decide_eq_true_eq, List.all_eq_true, bne_iff_ne] at h
      exact ⟨h.1, fun c hc => ⟨(h.2 c hc).1.1, (h.2 c hc).1.2, (h.2 c hc).2⟩⟩
  | num =>
      rw [htype] at h
      simp only [Bool.and_eq_true, decide_eq_true_eq] at h
      exact ⟨h.1, (jsonIsNumber_iff f.val).mp h.2⟩
  | null =>
      rw [htype] at h
      exact beq_iff_eq.mp h

/-- A name in a line of the source. -/
def Word (v : Bytes) : Prop := v.length ≤ 40 ∧ fixedOk ⟨[], v, .str⟩ = true

instance wordDecidable (v : Bytes) : Decidable (Word v) :=
  inferInstanceAs (Decidable (v.length ≤ 40 ∧ fixedOk ⟨[], v, .str⟩ = true))

theorem strField_ok {key v : Bytes} (h : Word v) : (⟨key, v, .str⟩ : KvField).ValueOk :=
  @valueOk_of_fixedOk ⟨key, v, .str⟩ h.2

/-- A text fits a line if the bounds of its pieces do. -/
theorem pieces_fit {pieces : List Bytes} (bounds : List ℕ)
    (h : List.Forall₂ (fun piece b => piece.length ≤ b) pieces bounds)
    (hsum : bounds.sum ≤ kvMaxLine + 1) : pieces.flatten.length ≤ kvMaxLine + 1 := by
  refine le_trans ?_ hsum
  clear hsum
  induction h with
  | nil => exact Nat.le_refl 0
  | cons hpiece _ ih =>
      rw [List.flatten_cons, List.length_append, List.sum_cons]
      exact Nat.add_le_add hpiece ih

/-! ### `status` -/

theorem procs_words : ∀ p ∈ procs, Word p.name := by decide

theorem labeled_procLine {d : Doubles} (hd : d.Ok) (s : SynthState) {p : Proc} (hp : p ∈ procs) (i : ℕ) :
    Labeled (procLine d s p i) := by
  have hname := procs_words p hp
  have hpid := printUint32_isNumber p.pid
  have hup := printUint_isNumber (s.uptime p)
  have hrestarts := printUint32_isNumber p.restarts
  have hrss := printUint32_isNumber (p.rssKb + mix (s.nowS / 10 + UInt64.ofNat i) % 64)
  have hcpu := fixed1_isNumber hd (cpuPct_bound hd s i)
  have hevents := printUint_isNumber (s.uptime p * p.eventsPerS.toUInt64)
  unfold procLine
  -- only that they are words and numbers matters from here on
  generalize p.name = name at hname ⊢
  generalize printUint32 p.pid = pid at hpid ⊢
  generalize printUint (s.uptime p) = up at hup ⊢
  generalize printUint32 p.restarts = restarts at hrestarts ⊢
  generalize printUint32 (p.rssKb + mix (s.nowS / 10 + UInt64.ofNat i) % 64) = rss at hrss ⊢
  generalize d.fixed1 (cpuPct d s i) = cpu at hcpu ⊢
  generalize printUint (s.uptime p * p.eventsPerS.toUInt64) = events at hevents ⊢
  apply @labeled_of_fields (ascii "proc")
    [⟨ascii "name", name, .str⟩, ⟨ascii "state", ascii "up", .str⟩, ⟨ascii "pid", pid, .num⟩,
      ⟨ascii "uptime_s", up, .num⟩, ⟨ascii "restarts", restarts, .num⟩, ⟨ascii "rss_kb", rss, .num⟩,
      ⟨ascii "cpu_pct", cpu, .num⟩, ⟨ascii "events", events, .num⟩, ⟨ascii "drops", ascii "0", .num⟩,
      synthField]
  · rfl
  · show shapeOk (ascii "proc") [ascii "name", ascii "state", ascii "pid", ascii "uptime_s",
      ascii "restarts", ascii "rss_kb", ascii "cpu_pct", ascii "events", ascii "drops", ascii "src"] = true
    decide
  · simp only [List.forall_mem_cons, List.not_mem_nil, false_imp_iff, implies_true, and_true]
    exact ⟨strField_ok hname, valueOk_of_fixedOk (by decide), numField_ok hpid, numField_ok hup,
      numField_ok hrestarts, numField_ok hrss, numField_ok hcpu, numField_ok hevents,
      valueOk_of_fixedOk (by decide), valueOk_of_fixedOk (by decide)⟩
  · rfl
  · apply pieces_fit [11, 40, 17, 23, 10, 23, 10, 23, 8, 23, 9, 23, 8, 23, 21]
    · simp only [List.forall₂_cons]
      exact ⟨by decide, hname.1, by decide, hpid.2, by decide, hup.2, by decide, hrestarts.2, by decide,
        hrss.2, by decide, hcpu.2, by decide, hevents.2, by decide, .nil⟩
    · decide

theorem labeled_ringLine {name : Bytes} (hname : Word name) (depth : UInt32) :
    Labeled (ringLine name depth) := by
  have hdepth := printUint32_isNumber depth
  unfold ringLine
  generalize printUint32 depth = n at hdepth ⊢
  apply @labeled_of_fields (ascii "ring")
    [⟨ascii "name", name, .str⟩, ⟨ascii "depth", n, .num⟩, ⟨ascii "capacity", ascii "4096", .num⟩,
      ⟨ascii "overruns", ascii "0", .num⟩, synthField]
  · rfl
  · show shapeOk (ascii "ring") [ascii "name", ascii "depth", ascii "capacity", ascii "overruns",
      ascii "src"] = true
    decide
  · simp only [List.forall_mem_cons, List.not_mem_nil, false_imp_iff, implies_true, and_true]
    exact ⟨strField_ok hname, numField_ok hdepth, valueOk_of_fixedOk (by decide),
      valueOk_of_fixedOk (by decide), valueOk_of_fixedOk (by decide)⟩
  · rfl
  · apply pieces_fit [11, 40, 8, 23, 38]
    · simp only [List.forall₂_cons]
      exact ⟨by decide, hname.1, by decide, hdepth.2, by decide, .nil⟩
    · decide

theorem labeled_linkLine : Labeled linkLine := by
  apply @labeled_of_fields (ascii "link")
    [⟨ascii "dongle", ascii "up", .str⟩, ⟨ascii "probe", ascii "present", .str⟩,
      ⟨ascii "light", ascii "green", .str⟩, ⟨ascii "time_trusted", ascii "1", .num⟩, synthField]
  · rfl
  · decide
  · simp only [List.forall_mem_cons, List.not_mem_nil, false_imp_iff, implies_true, and_true]
    exact ⟨valueOk_of_fixedOk (by decide), valueOk_of_fixedOk (by decide),
      valueOk_of_fixedOk (by decide), valueOk_of_fixedOk (by decide), valueOk_of_fixedOk (by decide)⟩
  · rfl
  · decide

theorem labeled_srcmixLine (s : SynthState) : Labeled (srcmixLine s) := by
  have hcount := printUint_isNumber (s.up * 16)
  unfold srcmixLine
  generalize printUint (s.up * 16) = n at hcount ⊢
  apply @labeled_of_fields (ascii "srcmix")
    [⟨ascii "live", ascii "0", .num⟩, ⟨ascii "replay", ascii "0", .num⟩, ⟨ascii "synth", n, .num⟩,
      synthField]
  · rfl
  · show shapeOk (ascii "srcmix") [ascii "live", ascii "replay", ascii "synth", ascii "src"] = true
    decide
  · simp only [List.forall_mem_cons, List.not_mem_nil, false_imp_iff, implies_true, and_true]
    exact ⟨valueOk_of_fixedOk (by decide), valueOk_of_fixedOk (by decide), numField_ok hcount,
      valueOk_of_fixedOk (by decide)⟩
  · rfl
  · apply pieces_fit [29, 23, 13]
    · simp only [List.forall₂_cons]
      exact ⟨by decide, hcount.2, by decide, .nil⟩
    · decide

/-! ### `verdicts` and `faults` -/

theorem verdict_shape : shapeOk (ascii "verdict") [ascii "id", ascii "area", ascii "sensors",
    ascii "residual", ascii "state", ascii "start_s", ascii "end_s", ascii "src"] = true := by
  decide +kernel

theorem labeled_verdict {start : Bytes} (hstart : IsNumber start ∧ start.length ≤ 23) :
    Labeled
      [ascii "verdict id=1 area=\"cooling\" sensors=\"coolant,intake\" residual=3.4 ",
        ascii "state=\"active\" start_s=", start, ascii " end_s=null src=\"synth\"\n"].flatten := by
  apply @labeled_of_fields (ascii "verdict")
    [⟨ascii "id", ascii "1", .num⟩, ⟨ascii "area", ascii "cooling", .str⟩,
      ⟨ascii "sensors", ascii "coolant,intake", .str⟩, ⟨ascii "residual", ascii "3.4", .num⟩,
      ⟨ascii "state", ascii "active", .str⟩, ⟨ascii "start_s", start, .num⟩,
      ⟨ascii "end_s", nullWord, .null⟩, synthField]
  · rfl
  · exact verdict_shape
  · simp only [List.forall_mem_cons, List.not_mem_nil, false_imp_iff, implies_true, and_true]
    exact ⟨valueOk_of_fixedOk (by decide), valueOk_of_fixedOk (by decide),
      valueOk_of_fixedOk (by decide), valueOk_of_fixedOk (by decide), valueOk_of_fixedOk (by decide),
      numField_ok hstart, valueOk_of_fixedOk (by decide), valueOk_of_fixedOk (by decide)⟩
  · rfl
  · apply pieces_fit [66, 24, 23, 24]
    · simp only [List.forall₂_cons]
      exact ⟨by decide, by decide, hstart.2, by decide, .nil⟩
    · decide

theorem labeled_endedVerdict {start stop : Bytes} (hstart : IsNumber start ∧ start.length ≤ 23)
    (hstop : IsNumber stop ∧ stop.length ≤ 23) :
    Labeled
      [ascii "verdict id=2 area=\"air_fuel\" sensors=\"ltft,maf\" residual=2.6 ",
        ascii "state=\"ended\" start_s=", start, ascii " end_s=", stop, ascii " src=\"synth\"\n"].flatten := by
  apply @labeled_of_fields (ascii "verdict")
    [⟨ascii "id", ascii "2", .num⟩, ⟨ascii "area", ascii "air_fuel", .str⟩,
      ⟨ascii "sensors", ascii "ltft,maf", .str⟩, ⟨ascii "residual", ascii "2.6", .num⟩,
      ⟨ascii "state", ascii "ended", .str⟩, ⟨ascii "start_s", start, .num⟩,
      ⟨ascii "end_s", stop, .num⟩, synthField]
  · rfl
  · exact verdict_shape
  · simp only [List.forall_mem_cons, List.not_mem_nil, false_imp_iff, implies_true, and_true]
    exact ⟨valueOk_of_fixedOk (by decide), valueOk_of_fixedOk (by decide),
      valueOk_of_fixedOk (by decide), valueOk_of_fixedOk (by decide), valueOk_of_fixedOk (by decide),
      numField_ok hstart, numField_ok hstop, valueOk_of_fixedOk (by decide)⟩
  · rfl
  · apply pieces_fit [66, 24, 23, 7, 23, 13]
    · simp only [List.forall₂_cons]
      exact ⟨by decide, by decide, hstart.2, by decide, hstop.2, by decide, .nil⟩
    · decide

theorem synthEvents_words :
    ∀ e ∈ synthEvents, Word e.kind ∧ Word e.source ∧ Word e.code ∧ Word e.detail := by decide

theorem labeled_faultLine (s : SynthState) {e : SynthEvent} (he : e ∈ synthEvents) :
    Labeled (faultLine s e) := by
  obtain ⟨hkind, hsource, hcode, hdetail⟩ := synthEvents_words e he
  have htime := printUint_isNumber (ago s.nowS e.secsAgo)
  unfold faultLine
  generalize printUint (ago s.nowS e.secsAgo) = time at htime ⊢
  generalize e.kind = kind at hkind ⊢
  generalize e.source = source at hsource ⊢
  generalize e.code = code at hcode ⊢
  generalize e.detail = detail at hdetail ⊢
  apply @labeled_of_fields (ascii "fault")
    [⟨ascii "t_s", time, .num⟩, ⟨ascii "kind", kind, .str⟩, ⟨ascii "source", source, .str⟩,
      ⟨ascii "code", code, .str⟩, ⟨ascii "detail", detail, .str⟩, synthField]
  · rfl
  · show shapeOk (ascii "fault") [ascii "t_s", ascii "kind", ascii "source", ascii "code",
      ascii "detail", ascii "src"] = true
    decide
  · simp only [List.forall_mem_cons, List.not_mem_nil, false_imp_iff, implies_true, and_true]
    exact ⟨numField_ok htime, strField_ok hkind, strField_ok hsource, strField_ok hcode,
      strField_ok hdetail, valueOk_of_fixedOk (by decide)⟩
  · rfl
  · apply pieces_fit [10, 23, 7, 40, 10, 40, 8, 40, 10, 40, 14]
    · simp only [List.forall₂_cons]
      exact ⟨by decide, htime.2, by decide, hkind.1, by decide, hsource.1, by decide, hcode.1,
        by decide, hdetail.1, by decide, .nil⟩
    · decide

/-! ### `series` -/

theorem signals_words : ∀ sig ∈ signals, Word sig.pid := by decide

theorem labeled_sampleLine {d : Doubles} (hd : d.Ok) {sig : Signal} (hsig : sig ∈ signals) (k : ℕ)
    (t : UInt64) : Labeled (sampleLine d sig k t) := by
  have hpid := signals_words sig hsig
  have htime := printUint_isNumber t
  have hvalue := fixed1_isNumber hd (sampleValue_bound hd hsig k t)
  unfold sampleLine
  -- only the bounds on the three texts matter from here on
  generalize sig.pid = pid at hpid ⊢
  generalize printUint t = time at htime ⊢
  generalize d.fixed1 (sampleValue d sig k t) = value at hvalue ⊢
  split_ifs
  · apply @labeled_of_fields (ascii "sample")
      [⟨ascii "pid", pid, .str⟩, ⟨ascii "t_s", time, .num⟩, ⟨ascii "value", nullWord, .null⟩, synthField]
    · rfl
    · show shapeOk (ascii "sample") [ascii "pid", ascii "t_s", ascii "value", ascii "src"] = true
      decide
    · simp only [List.forall_mem_cons, List.not_mem_nil, false_imp_iff, implies_true, and_true]
      exact ⟨strField_ok hpid, numField_ok htime, valueOk_of_fixedOk (by decide),
        valueOk_of_fixedOk (by decide)⟩
    · rfl
    -- the longest the pieces can be, which is well below a line
    · apply pieces_fit [12, 40, 6, 23, 24]
      · simp only [List.forall₂_cons]
        exact ⟨by decide, hpid.1, by decide, htime.2, by decide, .nil⟩
      · decide
  · apply @labeled_of_fields (ascii "sample")
      [⟨ascii "pid", pid, .str⟩, ⟨ascii "t_s", time, .num⟩, ⟨ascii "value", value, .num⟩, synthField]
    · rfl
    · show shapeOk (ascii "sample") [ascii "pid", ascii "t_s", ascii "value", ascii "src"] = true
      decide
    · simp only [List.forall_mem_cons, List.not_mem_nil, false_imp_iff, implies_true, and_true]
      exact ⟨strField_ok hpid, numField_ok htime, numField_ok hvalue, valueOk_of_fixedOk (by decide)⟩
    · rfl
    · apply pieces_fit [12, 40, 6, 23, 7, 23, 13]
      · simp only [List.forall₂_cons]
        exact ⟨by decide, hpid.1, by decide, htime.2, by decide, hvalue.2, by decide, .nil⟩
      · decide

/-! ## Whole replies -/

/-- Texts that together are a reply whose records all have `src="synth"`. -/
def Sound (texts : List Bytes) : Prop :=
  ∃ final recs, KvKind.Ends final ∧ IsReply final recs texts.flatten ∧
    ∀ rec ∈ recs, findField rec (ascii "src") = some synthField

/-- Records and `ok`. -/
theorem sound_of_labeled {texts : List Bytes} (h : ∀ text ∈ texts, Labeled text) :
    Sound (texts ++ [okText]) := by
  refine ⟨.ok, ?_⟩
  induction texts with
  | nil =>
      refine ⟨[], .inl rfl, ?_, fun rec hrec => absurd hrec List.not_mem_nil⟩
      exact @IsReply.last .ok okWord [0x0A] (by decide) (.inl rfl)
  | cons text texts ih =>
      rcases ih fun t ht => h t (List.mem_cons_of_mem _ ht) with ⟨recs, hok, hreply, hlabels⟩
      rcases h text List.mem_cons_self with ⟨body, rec, rfl, hparse, hsrc⟩
      refine ⟨rec :: recs, hok, ?_, ?_⟩
      · rw [List.cons_append, List.flatten_cons]
        exact .record hparse (.inl rfl) hreply
      · intro r hr
        rcases List.mem_cons.mp hr with rfl | hin
        · exact hsrc
        · exact hlabels r hin

/-- The refusals of the source. -/
def synthErrors : List (Bytes × Bytes) :=
  [(ascii "usage", ascii "malformed request"), (ascii "usage", ascii "series needs a pid"),
    (ascii "unknown_pid", ascii "no such pid"), (ascii "usage", ascii "bad from or to"),
    (ascii "usage", ascii "window must be 1 to 3600 seconds"),
    (ascii "unavailable", ascii "baseline is not served yet"),
    (ascii "unknown_verb", ascii "no such verb")]

theorem synthErrors_parse : ∀ e ∈ synthErrors,
    kvParseLine [ascii "err ", e.1, ascii " ", e.2].flatten = .err e.1 e.2 := by
  decide +kernel

theorem sound_replyErr {code reason : Bytes} (h : (code, reason) ∈ synthErrors) :
    Sound [replyErr code reason] := by
  refine ⟨.err code reason, [], .inr ⟨code, reason, rfl⟩, ?_, fun rec hrec => absurd hrec List.not_mem_nil⟩
  have htext : [replyErr code reason].flatten =
      [ascii "err ", code, ascii " ", reason].flatten ++ [0x0A] := by
    simp only [replyErr, List.flatten_cons, List.flatten_nil, List.append_nil, List.append_assoc]
    rfl
  rw [htext]
  exact .last (synthErrors_parse (code, reason) h) (.inl rfl)

theorem sound_replyStatus {d : Doubles} (hd : d.Ok) (s : SynthState) : Sound (replyStatus d s) := by
  have hrings : ∀ name ∈ [ascii "obd", ascii "ambient"], Word name := by decide
  have htexts : replyStatus d s =
      ((procs.zipIdx.map fun p => procLine d s p.1 p.2) ++
        [ringLine (ascii "obd") (mix (s.nowS + 1) % 40),
          ringLine (ascii "ambient") (mix (s.nowS + 2) % 3), linkLine, srcmixLine s]) ++ [okText] := by
    rw [replyStatus, List.append_assoc]
    rfl
  rw [htexts]
  apply sound_of_labeled
  intro text htext
  rcases List.mem_append.mp htext with hproc | hrest
  · rcases List.mem_map.mp hproc with ⟨⟨p, i⟩, hp, rfl⟩
    exact labeled_procLine hd s (List.fst_mem_of_mem_zipIdx hp) i
  · simp only [List.mem_cons, List.not_mem_nil, or_false] at hrest
    rcases hrest with rfl | rfl | rfl | rfl
    · exact labeled_ringLine (hrings _ List.mem_cons_self) _
    · exact labeled_ringLine (hrings _ (List.mem_cons_of_mem _ List.mem_cons_self)) _
    · exact labeled_linkLine
    · exact labeled_srcmixLine s

theorem sound_replyVerdicts (s : SynthState) : Sound (replyVerdicts s) := by
  refine @sound_of_labeled [_, _] ?_
  simp only [List.forall_mem_cons, List.not_mem_nil, false_imp_iff, implies_true, and_true]
  exact ⟨labeled_verdict (printUint_isNumber _),
    labeled_endedVerdict (printUint_isNumber _) (printUint_isNumber _)⟩

theorem sound_replyFaults (s : SynthState) : Sound (replyFaults s) := by
  apply sound_of_labeled
  intro text htext
  rcases List.mem_map.mp htext with ⟨e, he, rfl⟩
  exact labeled_faultLine s he

theorem sound_replySeries {d : Doubles} (hd : d.Ok) {rounds : ℕ} {s : SynthState} {req : KvLine}
    {texts : List Bytes} (h : replySeries d rounds s req = some texts) : Sound texts := by
  unfold replySeries at h
  split at h
  · rw [← Option.some.inj h]
    exact sound_replyErr (by decide)
  · split_ifs at h
    · rw [← Option.some.inj h]
      exact sound_replyErr (by decide)
    · split at h
      · rw [← Option.some.inj h]
        exact sound_replyErr (by decide)
      · rename_i sig k hfind
        split at h
        · split_ifs at h
          · rw [← Option.some.inj h]
            exact sound_replyErr (by decide)
          · rcases Option.map_eq_some_iff.mp h with ⟨ts, -, rfl⟩
            apply sound_of_labeled
            intro text htext
            rcases List.mem_map.mp htext with ⟨t, -, rfl⟩
            have hsig : sig ∈ signals := List.fst_mem_of_mem_zipIdx (List.mem_of_find?_eq_some hfind)
            exact labeled_sampleLine hd hsig k t
        · rw [← Option.some.inj h]
          exact sound_replyErr (by decide)

/-- Every reply of the source is whole and labeled. -/
theorem synthReply_sound {d : Doubles} (hd : d.Ok) {rounds : ℕ} {s : SynthState} {request : Bytes}
    {texts : List Bytes} (h : synthReply d rounds s request = some texts) : Sound texts := by
  unfold synthReply at h
  split at h
  · split_ifs at h
    · rw [← Option.some.inj h]
      exact sound_replyStatus hd s
    · rw [← Option.some.inj h]
      exact sound_replyVerdicts s
    · rw [← Option.some.inj h]
      exact sound_replyFaults s
    · exact sound_replySeries hd h
    · rw [← Option.some.inj h]
      exact sound_replyErr (by decide)
    · rw [← Option.some.inj h]
      exact sound_replyErr (by decide)
  · rw [← Option.some.inj h]
    exact sound_replyErr (by decide)

/-! ## The buffer -/

/-- After a text has been handed to `outf`, piece by piece: the buffer has kept
its size, and it holds the text and a NUL unless these do not fit. -/
structure Holds (cap : ℕ) (o : SynthOut) (text : Bytes) : Prop where
  size : o.buf.length = cap
  absent : o.isOver = true → cap ≤ text.length
  whole : o.isOver = false → o.len = text.length ∧
    (text = [] ∨ (text.length < cap ∧ o.buf.take (text.length + 1) = text ++ [0]))

theorem Holds.front {cap : ℕ} {o : SynthOut} {text : Bytes} (h : Holds cap o text)
    (hover : o.isOver = false) : o.buf.take text.length = text := by
  rcases (h.whole hover).2 with rfl | ⟨-, hbuf⟩
  · rfl
  · have hfront := congrArg (List.take text.length) hbuf
    rw [List.take_take, Nat.min_eq_left (Nat.le_succ _), List.take_left] at hfront
    exact hfront

theorem Holds.outf {cap : ℕ} {o : SynthOut} {text : Bytes} (h : Holds cap o text) (piece : Bytes) :
    Holds cap (outf o piece) (text ++ piece) := by
  unfold Interface.outf
  cases hover : o.isOver with
  | true =>
      rw [if_pos rfl]
      refine ⟨h.size, ?_, ?_⟩
      · intro _
        have := h.absent hover
        rw [List.length_append]
        omega
      · intro hnot
        rw [hover] at hnot
        cases hnot
  | false =>
      obtain ⟨hlen, hfront⟩ := h.whole hover
      rw [if_neg (by decide), hlen]
      have hle : text = [] ∨ text.length < cap := hfront.imp_right And.left
      have hroom : text.length ≤ o.buf.length := by
        rw [h.size]
        rcases hle with rfl | hlt
        · exact Nat.zero_le cap
        · exact hlt.le
      have hsize : (vsnprintf o.buf text.length piece).length = cap := by
        unfold vsnprintf
        split_ifs with hfull
        · exact h.size
        · rw [length_overwrite, h.size]
          rw [List.length_append, List.length_take, List.length_singleton]
          omega
      dsimp only
      split_ifs with hbig
      · refine ⟨hsize, ?_, fun hnot => by cases hnot⟩
        intro _
        rw [List.length_append, ← h.size]
        omega
      · refine ⟨hsize, fun hyes => (by cases hyes), ?_⟩
        intro _
        rw [List.length_append]
        refine ⟨rfl, .inr ⟨by rw [← h.size]; omega, ?_⟩⟩
        -- the piece goes behind the text, over its NUL
        have hput : vsnprintf o.buf text.length piece = overwrite o.buf text.length (piece ++ [0]) := by
          rw [vsnprintf, if_neg (by omega), List.take_of_length_le (by omega)]
        have htake := @take_overwrite o.buf (piece ++ [0]) text.length hroom
        rw [List.length_append, List.length_singleton, h.front hover] at htake
        rw [hput, Nat.add_assoc, htake, List.append_assoc]

/-- The buffer after a whole list of texts. -/
theorem Holds.foldl {cap : ℕ} {o : SynthOut} {text : Bytes} (h : Holds cap o text) (texts : List Bytes) :
    Holds cap (texts.foldl Interface.outf o) (text ++ texts.flatten) := by
  induction texts generalizing o text with
  | nil =>
      rw [List.flatten_nil, List.append_nil]
      exact h
  | cons piece texts ih =>
      rw [List.foldl_cons, List.flatten_cons, ← List.append_assoc]
      exact ih (h.outf piece)

theorem holds_texts (out : Bytes) (texts : List Bytes) :
    Holds out.length (texts.foldl outf { buf := out }) texts.flatten := by
  have hinit : Holds out.length { buf := out } [] := ⟨rfl, fun h => (by cases h), fun _ => ⟨rfl, .inl rfl⟩⟩
  exact hinit.foldl texts

/-! ## When a series is answered -/

/-- The loop steps through the multiples of the step modulo 2^64, so it meets
2^64 less their greatest common divisor, and nothing above that. -/
theorem exists_timeAt_gt_iff {step stop t : UInt64} (hpos : 0 < step.toNat)
    (ht : ∃ a, t.toNat = a * step.toNat) :
    (∃ n, stop < timeAt step t n) ↔ stop.toNat + Nat.gcd step.toNat (2 ^ 64) < 2 ^ 64 := by
  obtain ⟨a, ha⟩ := ht
  have hg : 0 < Nat.gcd step.toNat (2 ^ 64) := Nat.gcd_pos_of_pos_left _ hpos
  constructor
  · rintro ⟨n, hn⟩
    have hdvd : Nat.gcd step.toNat (2 ^ 64) ∣ (timeAt step t n).toNat := by
      rw [toNat_timeAt, ha, ← Nat.add_mul]
      exact (Nat.dvd_mod_iff (Nat.gcd_dvd_right _ _)).mpr
        (Dvd.dvd.mul_left (Nat.gcd_dvd_left _ _) _)
    obtain ⟨q, hq⟩ := hdvd
    obtain ⟨p, hp⟩ := Nat.gcd_dvd_right step.toNat (2 ^ 64)
    have hbound := (timeAt step t n).toNat_lt
    have hlt := UInt64.lt_iff_toNat_lt.mp hn
    -- both are multiples of the divisor
    have hqp : q + 1 ≤ p := by
      by_contra hge
      have := Nat.mul_le_mul_left (Nat.gcd step.toNat (2 ^ 64)) (Nat.le_of_lt_succ (Nat.not_le.mp hge))
      omega
    have := Nat.mul_le_mul_left (Nat.gcd step.toNat (2 ^ 64)) hqp
    rw [Nat.mul_add, Nat.mul_one] at this
    omega
  · intro hroom
    have hlt : Nat.gcd step.toNat (2 ^ 64) < 2 ^ 64 := by omega
    obtain ⟨m, -, hm⟩ := Nat.exists_mul_mod_eq_gcd hlt
    -- `m` steps make the divisor, so as many steps back make its negative
    refine ⟨(2 ^ 64 - 1) * (m + a), ?_⟩
    have hsum : ((timeAt step t ((2 ^ 64 - 1) * (m + a))).toNat + step.toNat * m % 2 ^ 64) % 2 ^ 64 = 0 := by
      rw [toNat_timeAt, ha, ← Nat.add_mod]
      have : a * step.toNat + (2 ^ 64 - 1) * (m + a) * step.toNat + step.toNat * m =
          2 ^ 64 * ((m + a) * step.toNat) := by
        ring
      rw [this, Nat.mul_mod_right]
    rw [hm] at hsum
    have hbound := (timeAt step t ((2 ^ 64 - 1) * (m + a))).toNat_lt
    rw [UInt64.lt_iff_toNat_lt]
    omega

/-- Only a series request can be without an answer. -/
theorem seriesRequest_of_none {d : Doubles} {rounds : ℕ} {s : SynthState} {request : Bytes}
    (h : synthReply d rounds s request = none) :
    ∃ sig k start stop, SeriesRequest s request sig k start stop := by
  unfold synthReply at h
  cases hreq : kvParseLine request with
  | record req =>
      rw [hreq] at h
      dsimp only at h
      split_ifs at h with _ _ _ htag
      unfold replySeries at h
      split at h
      · cases h
      · rename_i pid hpid
        split_ifs at h with htype
        split at h
        · cases h
        · rename_i sig k hsig
          split at h
          · rename_i start stop hstart hstop
            split_ifs at h with hwindow
            rw [Bool.or_eq_true, decide_eq_true_eq, decide_eq_true_eq, not_or, ge_iff_le, gt_iff_lt,
              UInt64.not_le, UInt64.not_lt] at hwindow
            exact ⟨sig, k, start, stop, ⟨req, pid, hreq, htag, hpid, not_not.mp htype, hsig, hstart, hstop⟩,
              hwindow.1, hwindow.2⟩
          · cases h
  | ok => rw [hreq] at h; cases h
  | err code reason => rw [hreq] at h; cases h
  | bad => rw [hreq] at h; cases h
  | incomplete => rw [hreq] at h; cases h

/-- There is a multiple of the step, modulo 2^64, beyond the window: the loop
of `reply_series` can get out of it. -/
def SeriesEnds (s : SynthState) (request : Bytes) : Prop :=
  ∀ sig k start stop, SeriesRequest s request sig k start stop →
    stop.toNat + Nat.gcd (seriesStep start stop).toNat (2 ^ 64) < 2 ^ 64

theorem SeriesRequest.ends_iff {s : SynthState} {request : Bytes} {sig : Signal} {k : ℕ}
    {start stop : UInt64} (h : SeriesRequest s request sig k start stop) (d : Doubles) :
    (∃ rounds texts, synthReply d rounds s request = some texts) ↔
      stop.toNat + Nat.gcd (seriesStep start stop).toNat (2 ^ 64) < 2 ^ 64 := by
  have hpos : 0 < (seriesStep start stop).toNat := by
    rw [toNat_seriesStep h.ordered]
    exact Nat.succ_pos _
  rw [← exists_timeAt_gt_iff hpos ⟨_, toNat_firstTime h.ordered⟩, ← sampleTimes_ends_iff]
  constructor
  · rintro ⟨rounds, texts, htexts⟩
    rw [h.synthReply_eq] at htexts
    rcases Option.map_eq_some_iff.mp htexts with ⟨ts, hts, -⟩
    exact ⟨rounds, ts, hts⟩
  · rintro ⟨rounds, ts, hts⟩
    refine ⟨rounds, ts.map (sampleLine d sig k) ++ [okText], ?_⟩
    rw [h.synthReply_eq, hts, Option.map_some]

/-- `synth_query` comes to an answer exactly when its series ends. -/
theorem synthReply_ends_iff (d : Doubles) (s : SynthState) (request : Bytes) :
    (∃ rounds texts, synthReply d rounds s request = some texts) ↔ SeriesEnds s request := by
  constructor
  · intro hends sig k start stop hreq
    exact (hreq.ends_iff d).mp hends
  · intro hends
    cases hreply : synthReply d 0 s request with
    | some texts => exact ⟨0, texts, hreply⟩
    | none =>
        obtain ⟨sig, k, start, stop, hreq⟩ := seriesRequest_of_none hreply
        exact (hreq.ends_iff d).mpr (hends sig k start stop hreq)

/-- No clock but those within 13 seconds of 2^64 keeps a series from ending. -/
theorem seriesEnds_of_now {s : SynthState} (hnow : s.nowS.toNat + 13 < 2 ^ 64) (request : Bytes) :
    SeriesEnds s request := by
  intro sig k start stop h
  have hstop : stop.toNat < 2 ^ 64 - 13 := by
    rcases h.parts with ⟨req, -, -, -, -, -, -, -, hstop⟩
    exact toNat_parseWhen_lt (by decide) (by omega) hstop
  have hshort : stop.toNat - start.toNat ≤ 3600 := by
    have := UInt64.le_iff_toNat_le.mp h.short
    rwa [UInt64.toNat_sub_of_le _ _ (UInt64.le_of_lt h.ordered)] at this
  have hstep := toNat_seriesStep h.ordered
  have hgcd : Nat.gcd (seriesStep start stop).toNat (2 ^ 64) ≤ (seriesStep start stop).toNat :=
    Nat.gcd_le_left _ (by omega)
  omega

/-! ## Whole or absent -/

theorem IsReply.ne_nil {final : KvKind} {recs : List KvLine} {text : Bytes}
    (h : IsReply final recs text) : text ≠ [] := by
  cases h with
  | last _ heol =>
      intro hnil
      rw [(List.append_eq_nil_iff.mp hnil).2] at heol
      exact absurd heol.length_pos (by decide)
  | record _ heol _ =>
      intro hnil
      rw [(List.append_eq_nil_iff.mp (List.append_eq_nil_iff.mp hnil).1).2] at heol
      exact absurd heol.length_pos (by decide)

/-- `synth_query` returns: -1 exactly when the texts of the reply and a NUL are
more than the buffer takes, else the length of a reply that is accepted and has
`src="synth"` in each record; the buffer has kept its size, so nothing was
written behind it. -/
def WholeOrAbsent (d : Doubles) (s : SynthState) (request out : Bytes) : Prop :=
  ∃ rounds texts ans, synthReply d rounds s request = some texts ∧
    synthQuery d rounds s request out = some ans ∧
    (ans.ret = none ↔ out.length < texts.flatten.length + 1) ∧ ans.out.length = out.length ∧
    ∀ n, ans.ret = some n → n < out.length ∧ ans.out.take (n + 1) = texts.flatten ++ [0] ∧
      ∃ final recs, KvKind.Ends final ∧ kvReplyCheck (ans.out.take n) = final ∧
        IsReply final recs (ans.out.take n) ∧
        ∀ rec ∈ recs, findField rec (ascii "src") = some synthField

theorem wholeOrAbsent_of_reply {d : Doubles} (hd : d.Ok) {rounds : ℕ} {s : SynthState}
    {request : Bytes} {texts : List Bytes} (h : synthReply d rounds s request = some texts)
    (out : Bytes) : WholeOrAbsent d s request out := by
  obtain ⟨final, recs, hfinal, hreply, hlabels⟩ := synthReply_sound hd h
  have hholds := holds_texts out texts
  refine ⟨rounds, texts, _, h, by rw [synthQuery, h]; rfl, ?_⟩
  dsimp only
  generalize texts.foldl outf { buf := out } = o at hholds ⊢
  cases hover : o.isOver with
  | true =>
      have hbig := hholds.absent hover
      refine ⟨iff_of_true rfl (by omega), hholds.size, ?_⟩
      intro n hn
      cases hn
  | false =>
      obtain ⟨hlen, hnil | ⟨hlt, hbuf⟩⟩ := hholds.whole hover
      · exact absurd hnil hreply.ne_nil
      · refine ⟨iff_of_false (by intro hnone; cases hnone) (by omega), hholds.size, ?_⟩
        intro n hn
        have hn' : n = texts.flatten.length := by
          rw [← hlen]
          exact (Option.some.inj hn).symm
        subst hn'
        rw [hholds.front hover]
        exact ⟨hlt, hbuf, final, recs, hfinal, (replyCheck_eq_iff hfinal _).mpr ⟨recs, hreply⟩, hreply,
          hlabels⟩

/-- A reply is whole or absent, unless the window of a series ends so close to
2^64 that its loop never leaves it. -/
theorem synth_reply_whole_or_absent (d : Doubles) (hd : d.Ok) (s : SynthState) (request out : Bytes) :
    WholeOrAbsent d s request out ↔ SeriesEnds s request := by
  rw [← synthReply_ends_iff d s request]
  constructor
  · rintro ⟨rounds, texts, _, htexts, -⟩
    exact ⟨rounds, texts, htexts⟩
  · rintro ⟨rounds, texts, htexts⟩
    exact wholeOrAbsent_of_reply hd htexts out

/-- `exactDoubles` does what is taken for granted. -/
theorem exactDoubles_ok : exactDoubles.Ok where
  rnd_nat _ _ := rfl
  rnd_le x _ := by
    show |x| ≤ 2 * |x|
    linarith [abs_nonneg x]
  sin_le _ := by
    show |(0 : ℚ)| ≤ 1
    norm_num
  fixed1_text x hx := by
    have htenths : (|x| * 10 + 1 / 2).floor.toNat < 10 ^ 20 := by
      have hlt : (|x| * 10 + 1 / 2).floor < 10 ^ 8 := by
        rw [Rat.floor_lt_iff]
        push_cast
        linarith
      omega
    refine ⟨if x < 0 then [0x2D] else [], printNat 10 20 ((|x| * 10 + 1 / 2).floor.toNat / 10),
      digitChar ((|x| * 10 + 1 / 2).floor.toNat % 10), rfl, ?_, ?_, length_printNat_le _ _ _, ?_⟩
    · split_ifs
      · exact .inr rfl
      · exact .inl rfl
    · exact isInt_printNat (by omega)
    · have hdigit : ∀ n < 10, isDigit (digitChar n) = true := by decide
      exact hdigit _ (Nat.mod_lt _ (by decide))

/-- A minute in which the probe drops out. -/
theorem probe_reply_whole_or_absent :
    SeriesEnds ⟨0, 1000⟩ (ascii "series pid=\"probe\" from=900 to=959") ∧
    WholeOrAbsent exactDoubles ⟨0, 1000⟩ (ascii "series pid=\"probe\" from=900 to=959")
      (List.replicate 65536 0xFF) := by
  have hends : SeriesEnds ⟨0, 1000⟩ (ascii "series pid=\"probe\" from=900 to=959") :=
    seriesEnds_of_now (by decide) _
  exact ⟨hends, (synth_reply_whole_or_absent exactDoubles exactDoubles_ok ⟨0, 1000⟩ _ _).mpr hends⟩

/-- At the last second there is, `t <= to` holds of every `t`. -/
theorem series_without_end :
    (∀ rounds, synthQuery exactDoubles rounds ⟨0, 18446744073709551615⟩ (ascii "series pid=\"0C\"")
      (List.replicate 65536 0) = none) ∧
    ¬ WholeOrAbsent exactDoubles ⟨0, 18446744073709551615⟩ (ascii "series pid=\"0C\"")
      (List.replicate 65536 0) := by
  have hreq : SeriesRequest ⟨0, 18446744073709551615⟩ (ascii "series pid=\"0C\"")
      ⟨ascii "0C", 1800, 700, 90, 25⟩ 0 18446744073709551315 18446744073709551615 := by
    refine ⟨⟨⟨ascii "series", [⟨ascii "pid", ascii "0C", .str⟩]⟩, ⟨ascii "pid", ascii "0C", .str⟩, ?_⟩,
      by decide, by decide⟩
    decide +kernel
  have hnever : ∀ rounds, synthReply exactDoubles rounds ⟨0, 18446744073709551615⟩
      (ascii "series pid=\"0C\"") = none := by
    intro rounds
    rw [hreq.synthReply_eq, sampleTimes_eq_none, Option.map_none]
    intro i
    rw [UInt64.le_iff_toNat_le]
    exact Nat.le_of_lt_succ (UInt64.toNat_lt _)
  constructor
  · intro rounds
    rw [synthQuery, hnever, Option.map_none]
  · rintro ⟨rounds, texts, ans, htexts, -⟩
    rw [hnever] at htexts
    cases htexts

end Carwatch.Interface
