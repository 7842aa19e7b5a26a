import Carwatch.Obd.LinkSafety

/-!
# Carwatch.Obd.Survey — which PIDs a car has (`supported_pids` of `tools/elm.py`)

Mode 01 lists its PIDs in bitmaps of 32; the last bit of each says that there
is another one. With headers off every ECU's bitmap is a line of its own.

* **Model layer**: `supportPids`, `supportFromReply`, `supportedPids`;
* `mem_listed_bitmap` — what a bitmap lists is what it was made from;
* `survey_complete` — the walk finds every PID of every ECU, in whatever order
  they answer, and nothing else;
* `survey_simulator` — against the simulator it finds `MODELED`.
-/

namespace Carwatch.Obd

open Carwatch.Lib (Bytes)
open Carwatch.BoardSync (Text natText)

/-! ## The walk -/

/-- `int.from_bytes(data, "big")` -/
def beNat (data : Bytes) : ℕ := data.foldl (fun n b => 256 * n + b.toNat) 0

/-- `support_pids` -/
def supportPids (base : ℕ) (data : Bytes) : Except Failure (List ℕ) :=
  if data.length ≠ 4 then
    .error (.adapterError ("support bitmap needs 4 bytes, got ".toList ++ natText data.length))
  else .ok (listed base (beNat data))

/-- `support_from_reply`. The set is the list of what is put in. -/
def supportFromReply (raw : Text) (base : ℕ) : Except Failure (List ℕ) := do
  let answers ← parseAll raw 1 (UInt8.ofNat base)
  let blocks ← answers.mapM (supportPids base)
  .ok blocks.flatten

/-- What `command` and the reading of its reply can raise. -/
inductive Trouble where
  | failure (f : Failure)
  | timeout
  | linkLost

/-- The block of one reply; `none` ends the walk: a block that the previous
one chained to, unanswered. -/
def blockOf (base : ℕ) (raw : Text) : Except Trouble (Option (List ℕ)) :=
  match supportFromReply raw base with
  | .ok block => .ok (some block)
  | .error (.noData text) => if base = 0 then .error (.failure (.noData text)) else .ok none
  | .error f => .error (.failure f)

/-- The loop of `supported_pids` over the bases that are left. -/
def walk (ask : ℕ → Except Trouble Text) : List ℕ → List ℕ → Except Trouble (List ℕ)
  | [], found => .ok found
  | base :: bases, found => do
      let raw ← ask base
      match ← blockOf base raw with
      | none => .ok found
      | some block =>
          let found := found ++ block.filter fun p => p % 0x20 != 0
          if base + 0x20 ∈ block then walk ask bases found else .ok found

/-- `supported_pids`: `ask` sends the request for a base and returns the
reply. No base is asked for twice. -/
def supportedPids (ask : ℕ → Except Trouble Text) : Except Trouble (List ℕ) :=
  walk ask ((List.range 8).map (0x20 * ·)) []

/-! ## Bitmaps -/

theorem mem_listed {base bits p : ℕ} :
    p ∈ listed base bits ↔ base < p ∧ p ≤ base + 0x20 ∧ bits.testBit (31 - (p - base - 1)) = true := by
  rw [listed, List.mem_map]
  constructor
  · rintro ⟨i, hi, rfl⟩
    obtain ⟨hlt, hbit⟩ := List.mem_filter.mp hi
    have hlt' := List.mem_range.mp hlt
    have hsub : base + 1 + i - base - 1 = i := by omega
    rw [hsub]
    exact ⟨by omega, by omega, hbit⟩
  · rintro ⟨hlow, hhigh, hbit⟩
    refine ⟨p - base - 1, List.mem_filter.mpr ⟨List.mem_range.mpr (by omega), hbit⟩, by omega⟩

/-- The bits a list of PIDs leaves in its block. -/
theorem testBit_fold (modeled : List UInt8) (base n bits : ℕ) :
    (modeled.foldl
      (fun bits pid =>
        if base < pid.toNat ∧ pid.toNat < base + 0x20 then bits ||| 2 ^ (31 - (pid.toNat - base - 1))
        else bits) bits).testBit n = true ↔
      bits.testBit n = true ∨ ∃ pid ∈ modeled, base < pid.toNat ∧ pid.toNat < base + 0x20 ∧
        n = 31 - (pid.toNat - base - 1) := by
  induction modeled generalizing bits with
  | nil => simp
  | cons pid modeled ih =>
      rw [List.foldl_cons, ih]
      by_cases hin : base < pid.toNat ∧ pid.toNat < base + 0x20
      · rw [if_pos hin, Nat.testBit_or, Bool.or_eq_true, Nat.testBit_two_pow, decide_eq_true_eq]
        constructor
        · rintro ((h | h) | ⟨q, hq, h⟩)
          · exact Or.inl h
          · exact Or.inr ⟨pid, List.mem_cons_self, hin.1, hin.2, h.symm⟩
          · exact Or.inr ⟨q, List.mem_cons_of_mem pid hq, h⟩
        · rintro (h | ⟨q, hq, h⟩)
          · exact Or.inl (Or.inl h)
          · rcases List.mem_cons.mp hq with rfl | hq
            · exact Or.inl (Or.inr h.2.2.symm)
            · exact Or.inr ⟨q, hq, h⟩
      · rw [if_neg hin]
        constructor
        · rintro (h | ⟨q, hq, h⟩)
          · exact Or.inl h
          · exact Or.inr ⟨q, List.mem_cons_of_mem pid hq, h⟩
        · rintro (h | ⟨q, hq, h⟩)
          · exact Or.inl h
          · rcases List.mem_cons.mp hq with rfl | hq
            · exact absurd ⟨h.1, h.2.1⟩ hin
            · exact Or.inr ⟨q, hq, h⟩

/-- What the bitmap of a block lists: the block's PIDs, and the next block
when there are PIDs beyond. -/
theorem mem_listed_bitmap {modeled : List UInt8} {base p : ℕ} :
    p ∈ listed base (bitmapBits modeled base) ↔
      (base < p ∧ p < base + 0x20 ∧ ∃ q ∈ modeled, q.toNat = p) ∨
        (p = base + 0x20 ∧ ∃ q ∈ modeled, base + 0x20 < q.toNat) := by
  have hchain : ∀ n, (if modeled.any (fun pid => base + 0x20 < pid.toNat) then 1 else 0 : ℕ).testBit n
      = true ↔ n = 0 ∧ ∃ q ∈ modeled, base + 0x20 < q.toNat := by
    intro n
    split
    · next h =>
        obtain ⟨q, hq, hlt⟩ := List.any_eq_true.mp h
        rw [Nat.testBit_one_eq_true_iff_self_eq_zero]
        exact ⟨fun hn => ⟨hn, q, hq, of_decide_eq_true hlt⟩, fun hn => hn.1⟩
    · next h =>
        rw [Nat.zero_testBit]
        constructor
        · intro hfalse
          cases hfalse
        · rintro ⟨-, q, hq, hlt⟩
          exact absurd (List.any_eq_true.mpr ⟨q, hq, decide_eq_true hlt⟩) h
  rw [mem_listed, bitmapBits, Nat.testBit_or, Bool.or_eq_true, testBit_fold, hchain, Nat.zero_testBit]
  constructor
  · rintro ⟨hlow, hhigh, (h | ⟨q, hq, hql, hqh, hbit⟩) | ⟨hbit, q, hq, hlt⟩⟩
    · cases h
    · exact Or.inl ⟨by omega, by omega, q, hq, by omega⟩
    · exact Or.inr ⟨by omega, q, hq, hlt⟩
  · rintro (⟨hlow, hhigh, q, hq, rfl⟩ | ⟨rfl, q, hq, hlt⟩)
    · exact ⟨hlow, by omega, Or.inl (Or.inr ⟨q, hq, hlow, hhigh, rfl⟩)⟩
    · exact ⟨by omega, le_rfl, Or.inr ⟨by omega, q, hq, hlt⟩⟩

theorem bitmapBits_lt (modeled : List UInt8) (base : ℕ) : bitmapBits modeled base < 2 ^ 32 := by
  have hfold : ∀ bits < 2 ^ 32, modeled.foldl
      (fun bits pid =>
        if base < pid.toNat ∧ pid.toNat < base + 0x20 then bits ||| 2 ^ (31 - (pid.toNat - base - 1))
        else bits) bits < 2 ^ 32 := by
    induction modeled with
    | nil => exact fun bits h => h
    | cons pid modeled ih =>
        intro bits h
        rw [List.foldl_cons]
        apply ih
        split
        · exact Nat.or_lt_two_pow h (Nat.pow_lt_pow_right (by decide) (by omega))
        · exact h
  apply Nat.or_lt_two_pow (hfold 0 (by decide))
  split <;> decide

/-- Four bytes are read as they were written. -/
theorem beNat_be4 {n : ℕ} (hn : n < 2 ^ 32) : beNat (be4 n) = n := by
  simp only [beNat, be4, List.foldl_cons, List.foldl_nil, UInt8.toNat_ofNat']
  omega

theorem supportPids_bitmap (modeled : List UInt8) (base : ℕ) :
    supportPids base (bitmap modeled base) = .ok (listed base (bitmapBits modeled base)) := by
  rw [supportPids, if_neg (by simp [bitmap, be4]), bitmap, beNat_be4 (bitmapBits_lt modeled base)]

/-! ## A car of several ECUs -/

/-- The PIDs of one ECU. The multiples of `0x20` stand for the bitmaps. -/
structure Ecu where
  pids : List UInt8
  plain : ∀ p ∈ pids, p.toNat % 0x20 ≠ 0

/-- An ECU answers a base that its own bitmaps lead to. -/
def Ecu.answers (e : Ecu) (base : ℕ) : Bool := base == 0 || e.pids.any fun p => base < p.toNat

/-- The reply to one base: a line of every ECU that answers. -/
def surveyText (ecus : List Ecu) (base : ℕ) : Text :=
  match ecus.filter fun e => e.answers base with
  | [] => replyText [noDataText]
  | e :: es =>
      replyText ((e :: es).map fun e => hexLine (0x41 :: UInt8.ofNat base :: bitmap e.pids base))

/-- `p` is a PID of one of the ECUs. -/
def Has (ecus : List Ecu) (p : ℕ) : Prop := ∃ e ∈ ecus, ∃ q ∈ e.pids, q.toNat = p

theorem collect_hexLines (pid : UInt8) (datas : List Bytes) :
    collect 1 pid (lines (replyText (datas.map fun data => hexLine (0x41 :: pid :: data)))) = .ok datas := by
  rw [lines_replyText]
  induction datas with
  | nil => rfl
  | cons data datas ih =>
      rw [List.map_cons, List.flatMap_cons, collect_hexLine, ih]
      rfl

theorem parseAll_hexLines (pid : UInt8) {datas : List Bytes} (hne : datas ≠ []) :
    parseAll (replyText (datas.map fun data => hexLine (0x41 :: pid :: data))) 1 pid = .ok datas := by
  rw [parseAll, collect_hexLines]
  exact if_neg hne

/-- The bitmaps of one reply, whatever their order, list the PIDs of the
block, and the next block if any ECU has one. -/
theorem supportFromReply_survey {ecus : List Ecu} {base : ℕ}
    (hsome : ∃ e ∈ ecus, e.answers base = true) :
    ∃ block, supportFromReply (surveyText ecus base) base = .ok block ∧
      ∀ p, p ∈ block ↔ (base < p ∧ p < base + 0x20 ∧ Has ecus p) ∨
        (p = base + 0x20 ∧ ∃ q, base + 0x20 < q ∧ Has ecus q) := by
  have hfilter : ecus.filter (fun e => e.answers base) ≠ [] := by
    obtain ⟨e, he, hans⟩ := hsome
    exact List.ne_nil_of_mem (List.mem_filter.mpr ⟨he, hans⟩)
  have htext : surveyText ecus base = replyText
      (((ecus.filter fun e => e.answers base).map fun e => bitmap e.pids base).map
        fun data => hexLine (0x41 :: UInt8.ofNat base :: data)) := by
    rw [surveyText, List.map_map]
    split
    · next hnil => exact absurd hnil hfilter
    · next e es hes => rw [hes]; rfl
  have hmapM : ∀ es : List Ecu, (es.map fun e => bitmap e.pids base).mapM (supportPids base) =
      .ok (es.map fun e => listed base (bitmapBits e.pids base)) := by
    intro es
    induction es with
    | nil => rfl
    | cons e es ih =>
        rw [List.map_cons, List.mapM_cons, supportPids_bitmap, ih]
        rfl
  refine ⟨((ecus.filter fun e => e.answers base).map
    fun e => listed base (bitmapBits e.pids base)).flatten, ?_, ?_⟩
  · rw [supportFromReply, htext, parseAll_hexLines _ (by simpa using hfilter)]
    show (_ >>= fun blocks : List (List ℕ) => Except.ok blocks.flatten) = _
    rw [hmapM]
    rfl
  · intro p
    rw [List.mem_flatten]
    constructor
    · rintro ⟨block, hblock, hp⟩
      obtain ⟨e, he, rfl⟩ := List.mem_map.mp hblock
      have hin := (List.mem_filter.mp he).1
      rcases mem_listed_bitmap.mp hp with ⟨hlow, hhigh, q, hq, hqp⟩ | ⟨hp, q, hq, hlt⟩
      · exact Or.inl ⟨hlow, hhigh, e, hin, q, hq, hqp⟩
      · exact Or.inr ⟨hp, q.toNat, hlt, e, hin, q, hq, rfl⟩
    · -- an ECU that has a PID beyond the base answers
      have hanswers : ∀ e ∈ ecus, ∀ q ∈ e.pids, base < q.toNat →
          listed base (bitmapBits e.pids base) ∈ (ecus.filter fun e => e.answers base).map
            fun e => listed base (bitmapBits e.pids base) := by
        intro e he q hq hlt
        apply List.mem_map_of_mem
        refine List.mem_filter.mpr ⟨he, ?_⟩
        rw [Ecu.answers, Bool.or_eq_true]
        exact Or.inr (List.any_eq_true.mpr ⟨q, hq, decide_eq_true hlt⟩)
      rintro (⟨hlow, hhigh, e, he, q, hq, rfl⟩ | ⟨rfl, _, hlt, e, he, q, hq, rfl⟩)
      · exact ⟨_, hanswers e he q hq hlow, mem_listed_bitmap.mpr (Or.inl ⟨hlow, hhigh, q, hq, rfl⟩)⟩
      · exact ⟨_, hanswers e he q hq (by omega), mem_listed_bitmap.mpr (Or.inr ⟨rfl, q, hq, hlt⟩)⟩

/-- One base of the walk. -/
theorem walk_cons {ask : ℕ → Except Trouble Text} {base : ℕ} {bases : List ℕ} {found block : List ℕ}
    {raw : Text} (hask : ask base = .ok raw) (hblock : supportFromReply raw base = .ok block) :
    walk ask (base :: bases) found =
      if base + 0x20 ∈ block then walk ask bases (found ++ block.filter fun p => p % 0x20 != 0)
      else .ok (found ++ block.filter fun p => p % 0x20 != 0) := by
  have hsome : blockOf base raw = .ok (some block) := by rw [blockOf, hblock]
  rw [walk, hask]
  show (blockOf base raw >>= fun block? => _) = _
  rw [hsome]
  rfl

/-- The rest of the walk, from a base that some ECU leads to. -/
theorem walk_survey {ecus : List Ecu} {order : ℕ → List Ecu}
    (horder : ∀ base e, e ∈ order base ↔ e ∈ ecus) (m k : ℕ) (hk : k + m = 8)
    (hled : (k = 0 ∧ ecus ≠ []) ∨ ∃ p, 0x20 * k < p ∧ Has ecus p) (found : List ℕ) :
    ∃ all, walk (fun base => .ok (surveyText (order base) base))
        ((List.range' k m).map (0x20 * ·)) found = .ok all ∧
      ∀ p, p ∈ all ↔ p ∈ found ∨ (0x20 * k < p ∧ Has ecus p) := by
  have hhas : ∀ base p, Has (order base) p ↔ Has ecus p := fun base p =>
    exists_congr fun e => and_congr_left fun _ => horder base e
  -- a PID is a byte, and none of them is a bitmap's number
  have hpid : ∀ p, Has ecus p → p < 256 ∧ p % 0x20 ≠ 0 := by
    rintro p ⟨e, he, q, hq, rfl⟩
    exact ⟨q.toNat_lt, e.plain q hq⟩
  induction m generalizing k found with
  | zero =>
      exfalso
      rcases hled with ⟨rfl, -⟩ | ⟨p, hlt, hp⟩
      · omega
      · have := (hpid p hp).1
        omega
  | succ m ih =>
      have hsome : ∃ e ∈ order (0x20 * k), e.answers (0x20 * k) = true := by
        rcases hled with ⟨rfl, hne⟩ | ⟨p, hlt, e, he, q, hq, rfl⟩
        · obtain ⟨e, he⟩ := List.exists_mem_of_ne_nil _ hne
          exact ⟨e, (horder _ e).mpr he, rfl⟩
        · refine ⟨e, (horder _ e).mpr he, ?_⟩
          rw [Ecu.answers, Bool.or_eq_true]
          exact Or.inr (List.any_eq_true.mpr ⟨q, hq, decide_eq_true hlt⟩)
      obtain ⟨block, hblock, hmem⟩ := supportFromReply_survey hsome
      have hfound : ∀ p, p ∈ found ++ block.filter (fun p => p % 0x20 != 0) ↔
          p ∈ found ∨ (0x20 * k < p ∧ p < 0x20 * k + 0x20 ∧ Has ecus p) := by
        intro p
        rw [List.mem_append, List.mem_filter, hmem, hhas, bne_iff_ne]
        constructor
        · rintro (h | ⟨⟨hlow, hhigh, hp⟩ | ⟨rfl, -⟩, hplain⟩)
          · exact Or.inl h
          · exact Or.inr ⟨hlow, hhigh, hp⟩
          · omega
        · rintro (h | ⟨hlow, hhigh, hp⟩)
          · exact Or.inl h
          · exact Or.inr ⟨Or.inl ⟨hlow, hhigh, hp⟩, (hpid p hp).2⟩
      rw [List.range'_succ, List.map_cons, walk_cons rfl hblock]
      by_cases hnext : 0x20 * k + 0x20 ∈ block
      · rw [if_pos hnext]
        obtain ⟨q, hlt, hq⟩ : ∃ q, 0x20 * k + 0x20 < q ∧ Has ecus q := by
          rcases (hmem _).mp hnext with ⟨-, hlt, -⟩ | ⟨-, q, hlt, hq⟩
          · omega
          · exact ⟨q, hlt, (hhas _ q).mp hq⟩
        obtain ⟨all, hall, hmemAll⟩ := ih (k + 1) (by omega) (Or.inr ⟨q, by omega, hq⟩)
          (found ++ block.filter fun p => p % 0x20 != 0)
        refine ⟨all, hall, ?_⟩
        intro p
        rw [hmemAll, hfound]
        constructor
        · rintro ((h | ⟨hlow, -, hp⟩) | ⟨hlow, hp⟩)
          · exact Or.inl h
          · exact Or.inr ⟨hlow, hp⟩
          · exact Or.inr ⟨by omega, hp⟩
        · rintro (h | ⟨hlow, hp⟩)
          · exact Or.inl (Or.inl h)
          · by_cases hhigh : p < 0x20 * k + 0x20
            · exact Or.inl (Or.inr ⟨hlow, hhigh, hp⟩)
            · have := (hpid p hp).2
              exact Or.inr ⟨by omega, hp⟩
      · rw [if_neg hnext]
        refine ⟨_, rfl, ?_⟩
        intro p
        rw [hfound]
        constructor
        · rintro (h | ⟨hlow, -, hp⟩)
          · exact Or.inl h
          · exact Or.inr ⟨hlow, hp⟩
        · rintro (h | ⟨hlow, hp⟩)
          · exact Or.inl h
          · refine Or.inr ⟨hlow, ?_, hp⟩
            by_contra hge
            have hplain := (hpid p hp).2
            exact hnext ((hmem _).mpr (Or.inr ⟨rfl, p, by omega, (hhas _ p).mpr hp⟩))

/-- The survey finds every PID of every ECU and nothing else, whichever ECU
answers first at which base. -/
theorem survey_complete (ecus : List Ecu) (hne : ecus ≠ []) (order : ℕ → List Ecu)
    (horder : ∀ base, (order base).Perm ecus) :
    ∃ found, supportedPids (fun base => .ok (surveyText (order base) base)) = .ok found ∧
      ∀ p, p ∈ found ↔ Has ecus p := by
  obtain ⟨found, hwalk, hmem⟩ := walk_survey (fun base e => (horder base).mem_iff) 8 0 rfl
    (Or.inl ⟨rfl, hne⟩) []
  refine ⟨found, ?_, ?_⟩
  · rw [supportedPids, List.range_eq_range']
    exact hwalk
  · intro p
    rw [hmem]
    constructor
    · rintro (h | ⟨-, hp⟩)
      · exact absurd h List.not_mem_nil
      · exact hp
    · rintro ⟨e, he, q, hq, rfl⟩
      have hplain := e.plain q hq
      exact Or.inr ⟨by omega, e, he, q, hq, rfl⟩

/-- Two control units that share a PID, one of them with two blocks. -/
def twoUnits : List Ecu :=
  [⟨[0x05, 0x0C], Lib.forall_mem_of_all (by decide)⟩, ⟨[0x0C, 0x33], Lib.forall_mem_of_all (by decide)⟩]

theorem survey_complete_two : ∃ found,
    supportedPids (fun base => .ok (surveyText (if base = 0 then twoUnits else twoUnits.reverse) base))
      = .ok found ∧ ∀ p, p ∈ found ↔ Has twoUnits p :=
  survey_complete twoUnits (List.cons_ne_nil _ _)
    (fun base => if base = 0 then twoUnits else twoUnits.reverse) fun base => by
      split
      · exact .refl _
      · exact List.reverse_perm _

/-! ## The simulator -/

/-- A walk whose requests are sent in one session. -/
def AskedIn (r : Rounding) (drive : ℚ → Vehicle) (twoEcu : List UInt8) (acts : List Act)
    (ask : ℕ → Except Trouble Text) : Prop :=
  ∀ base raw, ask base = .ok raw → ∃ (j : ℕ) (c : Command),
    (session r drive twoEcu acts).asked[j]? = some (c, some raw) ∧ c.text = request 1 (UInt8.ofNat base)

/-- The simulator's bitmap of a base it supports. -/
theorem walk_simulator {r : Rounding} {drive : ℚ → Vehicle} {twoEcu : List UInt8} {acts : List Act}
    {ask : ℕ → Except Trouble Text} (hask : AskedIn r drive twoEcu acts ask) {base : ℕ}
    (hbase : base ∈ [0x00, 0x20, 0x40]) {bases found all : List ℕ}
    (h : walk ask (base :: bases) found = .ok all) :
    (if base + 0x20 ∈ listed base (bitmapBits MODELED base) then
      walk ask bases (found ++ (listed base (bitmapBits MODELED base)).filter fun p => p % 0x20 != 0)
    else .ok (found ++ (listed base (bitmapBits MODELED base)).filter fun p => p % 0x20 != 0))
      = .ok all := by
  rcases hraw : ask base with e | raw
  · rw [walk, hraw] at h
    cases h
  · obtain ⟨j, c, hj, hc⟩ := hask base raw hraw
    obtain ⟨t, sim, -, -, hmade⟩ := entry_of_returned r drive twoEcu hj
    have hread : ∀ b ∈ [0x00, 0x20, 0x40], (UInt8.ofNat b).toNat = b ∧
        ((UInt8.ofNat b).toNat % 0x20 = 0 ∧
          (UInt8.ofNat b = 0 ∨ (UInt8.ofNat b).toNat ∈ supported MODELED)) := by decide +kernel
    obtain ⟨hnat, hsupported⟩ := hread base hbase
    have hblock : supportFromReply raw base = .ok (listed base (bitmapBits MODELED base)) := by
      rw [supportFromReply, hmade, hc, parseAll_handle, reading, if_pos hsupported, hnat]
      show (([bitmap MODELED base].mapM (supportPids base)) >>= fun blocks : List (List ℕ) =>
        Except.ok blocks.flatten) = _
      rw [List.mapM_cons, supportPids_bitmap]
      exact congrArg Except.ok (List.append_nil _)
    rw [← walk_cons hraw hblock]
    exact h

/-- A survey of the simulator that comes to an end finds what is modelled. -/
theorem survey_simulator (r : Rounding) (drive : ℚ → Vehicle) (twoEcu : List UInt8) (acts : List Act)
    (ask : ℕ → Except Trouble Text) (hask : AskedIn r drive twoEcu acts ask) (found : List ℕ)
    (h : supportedPids ask = .ok found) (p : ℕ) : p ∈ found ↔ ∃ pid ∈ MODELED, pid.toNat = p := by
  have hbases : (List.range 8).map (0x20 * ·) = 0x00 :: 0x20 :: 0x40 :: [0x60, 0x80, 0xA0, 0xC0, 0xE0] := by
    decide
  have hchain : 0x00 + 0x20 ∈ listed 0x00 (bitmapBits MODELED 0x00) ∧
      0x20 + 0x20 ∈ listed 0x20 (bitmapBits MODELED 0x20) ∧
      0x40 + 0x20 ∉ listed 0x40 (bitmapBits MODELED 0x40) := by decide +kernel
  rw [supportedPids, hbases] at h
  have h₁ := walk_simulator hask (by decide) h
  rw [if_pos hchain.1] at h₁
  have h₂ := walk_simulator hask (by decide) h₁
  rw [if_pos hchain.2.1] at h₂
  have h₃ := walk_simulator hask (by decide) h₂
  rw [if_neg hchain.2.2] at h₃
  have hall : (([] ++ (listed 0x00 (bitmapBits MODELED 0x00)).filter fun p => p % 0x20 != 0) ++
      (listed 0x20 (bitmapBits MODELED 0x20)).filter fun p => p % 0x20 != 0) ++
      ((listed 0x40 (bitmapBits MODELED 0x40)).filter fun p => p % 0x20 != 0) =
      MODELED.map UInt8.toNat := by decide +kernel
  rw [Except.ok.injEq, hall] at h₃
  rw [← h₃, List.mem_map]

/-- The requests of a survey, one after the other. -/
def surveyActs : List Act :=
  [.command (.request 1 0x00), .fetch 5, .serve 0, .read 200, .command (.request 1 0x20), .fetch 5, .serve 1,
    .read 200, .command (.request 1 0x40), .fetch 5, .serve 2, .read 200]

/-- Their replies. -/
def surveyAsk (base : ℕ) : Except Trouble Text :=
  if base = 0x00 then .ok "0100\rSEARCHING...\r41 00 1E 3F 98 03 \r\r>".toList
  else if base = 0x20 then .ok "0120\r41 20 00 00 20 01 \r\r>".toList
  else if base = 0x40 then .ok "0140\r41 40 44 00 00 00 \r\r>".toList
  else .error .timeout

theorem askedIn_surveyAsk :
    AskedIn exactRounding (fun _ _ => 0) [] surveyActs surveyAsk := by
  intro base raw hraw
  unfold surveyAsk at hraw
  split at hraw
  · next h =>
      refine ⟨0, .request 1 0x00, ?_, h ▸ rfl⟩
      rw [← Except.ok.inj hraw]
      decide +kernel
  split at hraw
  · next h =>
      refine ⟨1, .request 1 0x20, ?_, h ▸ rfl⟩
      rw [← Except.ok.inj hraw]
      decide +kernel
  split at hraw
  · next h =>
      refine ⟨2, .request 1 0x40, ?_, h ▸ rfl⟩
      rw [← Except.ok.inj hraw]
      decide +kernel
  · cases hraw

theorem survey_simulator_rpm : 0x0C ∈ MODELED.map UInt8.toNat ↔ ∃ pid ∈ MODELED, pid.toNat = 0x0C :=
  survey_simulator exactRounding (fun _ _ => 0) [] surveyActs surveyAsk askedIn_surveyAsk
    (MODELED.map UInt8.toNat) rfl 0x0C

end Carwatch.Obd
