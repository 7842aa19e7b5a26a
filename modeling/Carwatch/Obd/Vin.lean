import Carwatch.Lib.Earliest
import Carwatch.Obd.LinkSafety

/-!
# Carwatch.Obd.Vin — the car's number (`decode_vin` of `tools/obdlib.py`)

A VIN is longer than one frame, so it arrives as numbered lines, in any order
and from every ECU that answers.

* **Model layer**: `frameOf`, `vinStep`, `decodeVin`;
* `Vin` — a number that can be sent; `Arrives` — the first frame of every
  index is the engine's;
* `decodeVin_arrives` — every such arrival is read as the number;
* `session_vin` — so is what a session gets from the simulator.
-/

namespace Carwatch.Obd

open Carwatch.Lib (Bytes Dict)
open Carwatch.BoardSync (Text isSpace strip rstrip Blank natText asciiDb isDecimal intOf)

/-! ## The reader -/

/-- `^(\d+):\s*(.*)$` -/
def frameOf (line : Text) : Option (ℕ × Text) :=
  match line.takeWhile (isDecimal asciiDb), line.dropWhile (isDecimal asciiDb) with
  | d :: ds, ':' :: rest => some (intOf asciiDb (d :: ds), rest.dropWhile isSpace)
  | _, _ => none

/-- One pass of the loop of `decode_vin`: `framed` and `chunks`. -/
def vinStep (acc : Dict ℕ Bytes × Dict UInt8 Bytes) (line : Text) :
    Except Failure (Dict ℕ Bytes × Dict UInt8 Bytes) := do
  checkText line
  match frameOf line with
  | some (index, rest) =>
      match hexBytes rest with
      | some data => .ok (acc.1.setDefault index data, acc.2)
      | none => .ok acc
  | none =>
      match hexBytes line with
      | some (0x49 :: 0x02 :: seq :: data) => .ok (acc.1, acc.2.setDefault seq data)
      | _ => .ok acc

/-- `bytes.decode("ascii", errors="replace")` -/
def asciiText (body : Bytes) : Text :=
  body.map fun b => if b.toNat < 128 then Char.ofNat b.toNat else Char.ofNat 0xFFFD

/-- `body` of `decode_vin` -/
def vinOf (framed : Dict ℕ Bytes) (chunks : Dict UInt8 Bytes) : Except Failure Bytes :=
  if framed.entries ≠ [] then
    let body := framed.inOrder.flatten
    .ok (if body.take 2 = [0x49, 0x02] then body.drop 3 else body)
  else if chunks.entries ≠ [] then .ok chunks.inOrder.flatten
  else .error (.adapterError "no VIN in reply".toList)

/-- `decode_vin` -/
def decodeVin (raw : Text) : Except Failure Text := do
  let (framed, chunks) ← (lines raw).foldlM vinStep (Dict.empty, Dict.empty)
  let body ← vinOf framed chunks
  let vin := strip (asciiText (body.filter fun b => b != 0))
  if vin = [] then .error (.adapterError "empty VIN".toList) else .ok vin

example : decodeVin ("014\r0: 49 02 01 31 48 47\r1: 43 4D 38 32 36 33 33\r" ++
    "2: 41 30 30 34 33 35 32\r\r>").toList = .ok "1HGCM82633A004352".toList := by decide +kernel

/-- A number that can be sent: ASCII without NUL, with no white space around. -/
structure Vin where
  bytes : Bytes
  ascii : ∀ b ∈ bytes, b ≠ 0 ∧ b.toNat < 128
  trimmed : strip (asciiText bytes) = asciiText bytes
  some : bytes ≠ []

/-- A line of a reply to `0902`. -/
inductive Heard where
  | echo
  | searching
  /-- The length that an ECU announces. -/
  | length (n : ℕ)
  | frame (i : ℕ) (data : Bytes)

/-- The line as it is printed. -/
def Heard.text : Heard → Text
  | .echo => request 0x09 0x02
  | .searching => searchingText
  | .length n => hex3 n
  | .frame i data => frameLine i data

/-- The frames among the lines, in the order of their arrival. -/
def framesOf (heard : List Heard) : List (ℕ × Bytes) :=
  heard.filterMap fun h =>
    match h with
    | .frame i data => some (i, data)
    | _ => none

/-- The engine's frames arrive: the first of every number is the engine's.
Another ECU's frames and repeated ones may stand anywhere behind them. -/
structure Arrives (vin : Vin) (heard : List Heard) : Prop where
  first : ∀ k, Dict.lookupIn k (framesOf heard) = (vinFrames vin.bytes)[k]?
  full : ∀ a ∈ framesOf heard, a.2 ≠ []

/-! ## Frames -/

theorem flatten_sevens (body : Bytes) : (sevens body).flatten = body := by
  fun_induction sevens body with
  | case1 => rfl
  | case2 b body ih => rw [List.flatten_cons, ih, List.cons_append, List.take_append_drop]

theorem flatten_vinFrames (vin : Bytes) : (vinFrames vin).flatten = vinBody vin := by
  rw [vinFrames, List.flatten_cons, flatten_sevens, List.take_append_drop]

theorem sevens_ne_nil {body frame : Bytes} (h : frame ∈ sevens body) : frame ≠ [] := by
  fun_induction sevens body with
  | case1 => exact absurd h List.not_mem_nil
  | case2 b body ih =>
      rcases List.mem_cons.mp h with rfl | h
      · exact List.cons_ne_nil _ _
      · exact ih h

theorem vinFrames_ne_nil {vin frame : Bytes} (h : frame ∈ vinFrames vin) : frame ≠ [] := by
  rcases List.mem_cons.mp h with rfl | h
  · exact List.cons_ne_nil _ _
  · exact sevens_ne_nil h

/-! ## Lines -/

/-- The texts of the adapter that raise. -/
theorem checkText_ok {line : Text}
    (h : ∀ t ∈ noDataText :: asleepText ++ errorText, line ≠ t) : checkText line = .ok () := by
  rw [checkText, if_neg (h _ (by simp)), if_neg, if_neg]
  · intro hin
    exact h line (List.mem_append_right _ hin) rfl
  · intro hin
    exact h line (List.mem_append_left _ (List.mem_cons_of_mem _ hin)) rfl

/-- A line that begins with a digit raises nothing. -/
theorem checkText_digit {c : Char} {line : Text} (hc : isDecimal asciiDb c = true) :
    checkText (c :: line) = .ok () := by
  have hall : ∀ t ∈ noDataText :: asleepText ++ errorText, t.head?.any (isDecimal asciiDb) = false := by
    decide +kernel
  apply checkText_ok
  rintro t ht rfl
  have hno : isDecimal asciiDb c = false := hall _ ht
  rw [hno] at hc
  cases hc

/-- Blanks at either end of a line of bytes carry nothing. -/
theorem filter_trimmed {v : Text} (hv : ∀ c ∈ v, c = ' ' ∨ IsHex c) :
    ((upper (rstrip v)).dropWhile isSpace).filter (fun c => c != ' ')
      = v.filter fun c => c != ' ' := by
  have hblank : ∀ w : Text, Blank w → (∀ c ∈ w, c ∈ v) → w.filter (fun c => c != ' ') = [] := by
    intro w hw hmem
    rw [List.filter_eq_nil_iff]
    intro c hc hne
    have hspace := hw c hc
    rw [((hv c (hmem c hc)).resolve_left (bne_iff_ne.mp hne)).plain.1] at hspace
    cases hspace
  obtain ⟨w, hw, hsplit⟩ := BoardSync.exists_rstrip v
  have hsub : ∀ c ∈ rstrip v, c ∈ v := by
    intro c hc
    rw [hsplit]
    exact List.mem_append_left _ hc
  have hupper : upper (rstrip v) = rstrip v := by
    have hself : ∀ c ∈ rstrip v, c.toUpper = c := by
      intro c hc
      rcases hv c (hsub c hc) with rfl | hc
      · rfl
      · exact hc.plain.2.2.2.1
    rw [upper, List.map_congr_left hself, List.map_id']
  have hdrop : ((rstrip v).dropWhile isSpace).filter (fun c => c != ' ')
      = (rstrip v).filter fun c => c != ' ' := by
    conv_rhs => rw [← List.takeWhile_append_dropWhile (p := isSpace) (l := rstrip v)]
    rw [List.filter_append, hblank _ (fun c hc => List.mem_takeWhile_imp hc) fun c hc =>
      hsub c ((List.takeWhile_prefix _).subset hc), List.nil_append]
  rw [hupper, hdrop]
  conv_rhs => rw [hsplit]
  rw [List.filter_append, hblank w hw, List.append_nil]
  intro c hc
  rw [hsplit]
  exact List.mem_append_right _ hc

/-- A numbered line is read as its number and its bytes. -/
theorem lines_frameLine (i : ℕ) {data : Bytes} (hne : data ≠ []) :
    ∃ line rest, lines (frameLine i data) = [line] ∧ checkText line = .ok () ∧
      frameOf line = some (i, rest) ∧ hexBytes rest = some data := by
  obtain ⟨d, ds, hds⟩ := List.exists_cons_of_ne_nil (BoardSync.natText_ne_nil i)
  have hdigit : ∀ c ∈ natText i, isDecimal asciiDb c = true ∧ isSpace c = false ∧ c.toUpper = c := by
    intro c hc
    obtain ⟨n, hn, rfl⟩ := BoardSync.exists_digit hc
    have hall : ∀ n < 10, isDecimal asciiDb (Nat.digitChar n) = true ∧
        isSpace (Nat.digitChar n) = false ∧ (Nat.digitChar n).toUpper = Nat.digitChar n := by
      decide +kernel
    exact hall n hn
  have hplain : ∀ c ∈ frameLine i data, Plain c := by
    intro c hc
    rw [frameLine, List.mem_append, List.mem_cons, List.mem_cons] at hc
    rcases hc with hc | rfl | rfl | hc
    · exact plain_natText hc
    · decide
    · decide
    · exact plain_hexLine hc
  have hkept : (frameLine i data).filter isKept = frameLine i data :=
    List.filter_eq_self.mpr fun c hc => (hplain c hc).1
  have hstrip : strip (frameLine i data) = natText i ++ ':' :: rstrip (' ' :: hexLine data) := by
    have hd := (hdigit d (hds ▸ List.mem_cons_self)).2.1
    rw [frameLine, hds, List.cons_append, BoardSync.strip_cons hd,
      BoardSync.rstrip_append_cons ds (c := ':') rfl, List.cons_append]
  have hclean : clean (frameLine i data) =
      natText i ++ ':' :: upper (rstrip (' ' :: hexLine data)) := by
    rw [clean, hstrip, upper, List.map_append, List.map_congr_left fun c hc => (hdigit c hc).2.2,
      List.map_id']
    rfl
  refine ⟨clean (frameLine i data), (upper (rstrip (' ' :: hexLine data))).dropWhile isSpace,
    ?_, ?_, ?_, ?_⟩
  · rw [lines_of_line fun c hc => (hplain c hc).2, hkept, hclean, hds]
    rfl
  · rw [hclean, hds]
    exact checkText_digit (hdigit d (hds ▸ List.mem_cons_self)).1
  · have htake : (natText i ++ ':' :: upper (rstrip (' ' :: hexLine data))).takeWhile
        (isDecimal asciiDb) = natText i := by
      rw [List.takeWhile_append_of_pos fun c hc => (hdigit c hc).1]
      exact List.append_nil _
    have hdrop : (natText i ++ ':' :: upper (rstrip (' ' :: hexLine data))).dropWhile
        (isDecimal asciiDb) = ':' :: upper (rstrip (' ' :: hexLine data)) := by
      rw [List.dropWhile_append_of_pos fun c hc => (hdigit c hc).1]
      rfl
    rw [hclean, frameOf, htake, hdrop, hds]
    show some (intOf asciiDb (d :: ds), _) = _
    rw [← hds, BoardSync.intOf_natText]
  · have hpacked : ((upper (rstrip (' ' :: hexLine data))).dropWhile isSpace).filter
        (fun c => c != ' ') = digits data := by
      rw [filter_trimmed]
      · have hspells := spells_hexLine data
        have hkept' : (hexLine data).filter isKept = hexLine data :=
          List.filter_eq_self.mpr fun c hc => (plain_hexLine hc).1
        rw [Spells, hkept', upper, List.map_congr_left (g := id), List.map_id] at hspells
        · rw [List.filter_cons_of_neg (by decide)]
          exact hspells
        · intro c hc
          rcases mem_hexLine (List.mem_of_mem_filter hc) with rfl | hc
          · rfl
          · exact hc.plain.2.2.2.1
      · intro c hc
        rcases List.mem_cons.mp hc with rfl | hc
        · exact Or.inl rfl
        · exact mem_hexLine hc
    unfold hexBytes
    rw [hpacked]
    split
    · next hnil => exact absurd hnil (digits_ne_nil hne)
    · exact hexPairs_digits data

/-- A line that is no frame and raises nothing. -/
def Idle (line : Text) : Prop := checkText line = .ok () ∧ frameOf line = none

/-- Digits alone are neither a text of the adapter nor a frame. -/
theorem idle_of_hex {line : Text} (h : ∀ c ∈ line, IsHex c) : Idle line := by
  constructor
  · have hall : ∀ t ∈ noDataText :: asleepText ++ errorText,
        (t.any fun c => (hexValue c).isNone) = true := by decide +kernel
    apply checkText_ok
    rintro t ht rfl
    obtain ⟨c, hc, hno⟩ := List.any_eq_true.mp (hall _ ht)
    obtain ⟨d, hd, rfl⟩ := h c hc
    rw [hexValue_hexChar d hd] at hno
    cases hno
  · have hcolon : ':' ∉ line := by
      intro hc
      obtain ⟨d, hd, heq⟩ := h _ hc
      have hall : ∀ d < 16, ':' ≠ hexChar d := by decide +kernel
      exact hall d hd heq
    unfold frameOf
    split
    · next rest _ hrest =>
        have hmem : ':' ∈ line.dropWhile (isDecimal asciiDb) := by
          rw [hrest]
          exact List.mem_cons_self
        exact absurd ((List.dropWhile_suffix _).subset hmem) hcolon
    · rfl

/-- The lines that are not frames are idle. -/
theorem idle_heard {h : Heard} (hframe : ∀ i data, h ≠ .frame i data) : ∀ l ∈ lines h.text, Idle l := by
  have hdigits : ∀ t : Text, (∀ c ∈ t, IsHex c) → ∀ l ∈ lines t, Idle l := by
    intro t ht l hl
    have hkept : t.filter isKept = t := List.filter_eq_self.mpr fun c hc => (ht c hc).plain.2.2.1
    rw [lines_of_line fun c hc => (ht c hc).plain.2.1, hkept] at hl
    rw [List.mem_singleton.mp (List.mem_of_mem_filter hl)]
    apply idle_of_hex
    intro c hc
    obtain ⟨d, hd, rfl⟩ := List.mem_map.mp hc
    have hhex := ht d (BoardSync.mem_strip hd)
    rw [hhex.plain.2.2.2.1]
    exact hhex
  cases h with
  | echo =>
      apply hdigits
      intro c hc
      exact isHex_digits (d := [0x09, 0x02]) (request_eq 0x09 0x02 ▸ hc)
  | searching =>
      have hlines : lines searchingText = [searchingText] := by decide +kernel
      intro l hl
      have hl' : l ∈ [searchingText] := hlines ▸ hl
      rw [List.mem_singleton.mp hl']
      constructor <;> decide +kernel
  | length n => exact hdigits _ fun c hc => isHex_hex3 hc
  | frame i data => exact absurd rfl (hframe i data)

theorem vinStep_of_ok {line : Text} (h : checkText line = .ok ()) (framed : Dict ℕ Bytes)
    (chunks : Dict UInt8 Bytes) :
    vinStep (framed, chunks) line =
      match frameOf line with
      | some (index, rest) =>
          match hexBytes rest with
          | some data => .ok (framed.setDefault index data, chunks)
          | none => .ok (framed, chunks)
      | none =>
          match hexBytes line with
          | some (0x49 :: 0x02 :: seq :: data) => .ok (framed, chunks.setDefault seq data)
          | _ => .ok (framed, chunks) := by
  unfold vinStep
  rw [h]
  rfl

theorem vinStep_idle {line : Text} (h : Idle line) (framed : Dict ℕ Bytes) (chunks : Dict UInt8 Bytes) :
    ∃ chunks', vinStep (framed, chunks) line = .ok (framed, chunks') := by
  rw [vinStep_of_ok h.1, h.2]
  dsimp only
  split
  · exact ⟨_, rfl⟩
  · exact ⟨_, rfl⟩

theorem foldlM_idle {ls : List Text} (h : ∀ l ∈ ls, Idle l) (framed : Dict ℕ Bytes)
    (chunks : Dict UInt8 Bytes) :
    ∃ chunks', ls.foldlM vinStep (framed, chunks) = .ok (framed, chunks') := by
  induction ls generalizing chunks with
  | nil => exact ⟨chunks, rfl⟩
  | cons l ls ih =>
      obtain ⟨chunks₁, hstep⟩ := vinStep_idle (h l List.mem_cons_self) framed chunks
      obtain ⟨chunks₂, hrest⟩ := ih (fun l' hl' => h l' (List.mem_cons_of_mem l hl')) chunks₁
      refine ⟨chunks₂, ?_⟩
      rw [List.foldlM_cons, hstep]
      exact hrest

/-- The loop keeps the first frame of every number. -/
theorem foldlM_heard {heard : List Heard} (hfull : ∀ a ∈ framesOf heard, a.2 ≠ [])
    (framed : Dict ℕ Bytes) (chunks : Dict UInt8 Bytes) :
    ∃ chunks', (heard.flatMap fun h => lines h.text).foldlM vinStep (framed, chunks) =
      .ok ((framesOf heard).foldl (fun d e => d.setDefault e.1 e.2) framed, chunks') := by
  induction heard generalizing framed chunks with
  | nil => exact ⟨chunks, rfl⟩
  | cons h heard ih =>
      rw [List.flatMap_cons, List.foldlM_append]
      by_cases hframe : ∃ i data, h = .frame i data
      · obtain ⟨i, data, rfl⟩ := hframe
        have hsplit : framesOf (.frame i data :: heard) = (i, data) :: framesOf heard := rfl
        rw [hsplit] at hfull ⊢
        obtain ⟨line, rest, hlines, hcheck, hof, hbytes⟩ :=
          lines_frameLine i (hfull (i, data) List.mem_cons_self)
        obtain ⟨chunks', hrest⟩ := ih (fun a ha => hfull a (List.mem_cons_of_mem _ ha))
          (framed.setDefault i data) chunks
        refine ⟨chunks', ?_⟩
        have hstep : vinStep (framed, chunks) line = .ok (framed.setDefault i data, chunks) := by
          rw [vinStep_of_ok hcheck, hof]
          dsimp only
          rw [hbytes]
        rw [Heard.text, hlines, List.foldlM_cons, hstep]
        exact hrest
      · have hno : ∀ i data, h ≠ .frame i data := fun i data heq => hframe ⟨i, data, heq⟩
        have hsplit : framesOf (h :: heard) = framesOf heard := by
          unfold framesOf
          rw [List.filterMap_cons_none]
          cases h with
          | frame i data => exact absurd rfl (hno i data)
          | _ => rfl
        rw [hsplit] at hfull ⊢
        obtain ⟨chunks₁, hidle⟩ := foldlM_idle (idle_heard hno) framed chunks
        obtain ⟨chunks', hrest⟩ := ih hfull framed chunks₁
        refine ⟨chunks', ?_⟩
        rw [hidle]
        exact hrest

/-! ## The number -/

/-- Lines in which the engine's frames arrive are read as its number. -/
theorem decodeVin_of_lines {vin : Vin} {heard : List Heard} (h : Arrives vin heard) {raw : Text}
    (hlines : lines raw = heard.flatMap fun h => lines h.text) :
    decodeVin raw = .ok (asciiText vin.bytes) := by
  obtain ⟨chunks, hfold⟩ := foldlM_heard h.full Dict.empty Dict.empty
  have hget : ∀ k, (Dict.earliest (framesOf heard)).get? k = (vinFrames vin.bytes)[k]? := by
    intro k
    rw [Dict.get?_earliest]
    exact h.first k
  have hsome : (Dict.earliest (framesOf heard)).entries ≠ [] := by
    intro hnil
    have hzero := hget 0
    rw [Dict.get?, hnil, vinFrames] at hzero
    cases hzero
  have hbody : vinOf (Dict.earliest (framesOf heard)) chunks = .ok vin.bytes := by
    rw [vinOf, if_pos hsome, Dict.inOrder_eq hget, flatten_vinFrames]
    exact congrArg Except.ok (if_pos rfl)
  have hnul : vin.bytes.filter (fun b => b != 0) = vin.bytes :=
    List.filter_eq_self.mpr fun b hb => bne_iff_ne.mpr (vin.ascii b hb).1
  have hne : asciiText vin.bytes ≠ [] := by
    rw [asciiText, ne_eq, List.map_eq_nil_iff]
    exact vin.some
  have hfold' : (lines raw).foldlM vinStep (Dict.empty, Dict.empty) =
      .ok (Dict.earliest (framesOf heard), chunks) := by
    rw [hlines]
    exact hfold
  have hvin : strip (asciiText (vin.bytes.filter fun b => b != 0)) = asciiText vin.bytes := by
    rw [hnul, vin.trimmed]
  rw [decodeVin, hfold']
  show (vinOf (Dict.earliest (framesOf heard)) chunks >>= fun body =>
    if strip (asciiText (body.filter fun b => b != 0)) = [] then _ else _) = _
  rw [hbody]
  refine (if_neg ?_).trans ?_
  · rw [hvin]
    exact hne
  · rw [hvin]

/-- Whatever the order in which its frames come, and whatever frames of other
ECUs come behind them, a VIN is read as it was sent. -/
theorem decodeVin_arrives (vin : Vin) (heard : List Heard) (h : Arrives vin heard) :
    decodeVin (replyText (heard.map Heard.text)) = .ok (asciiText vin.bytes) := by
  apply decodeVin_of_lines h
  rw [lines_replyText, List.flatMap_map]

/-- `SIM_VIN` can be sent. -/
def simVin : Vin where
  bytes := SIM_VIN
  ascii := by decide +kernel
  trimmed := by decide +kernel
  some := by decide +kernel

theorem lookupIn_frames (frames : List Bytes) (n k : ℕ) :
    Dict.lookupIn k (framesOf (frames.mapIdx fun i => Heard.frame (n + i))) =
      if n ≤ k then frames[k - n]? else none := by
  induction frames generalizing n with
  | nil =>
      rw [List.mapIdx_nil, List.getElem?_nil, ite_self]
      rfl
  | cons f frames ih =>
      have hshift : (fun i => Heard.frame (n + (i + 1))) = fun i => Heard.frame (n + 1 + i) := by
        funext i
        rw [Nat.add_assoc, Nat.add_comm 1 i]
      have hsplit : framesOf ((f :: frames).mapIdx fun i => Heard.frame (n + i)) =
          (n, f) :: framesOf (frames.mapIdx fun i => Heard.frame (n + 1 + i)) := by
        rw [List.mapIdx_cons, hshift]
        rfl
      rw [hsplit, Dict.lookupIn, ih]
      by_cases hk : n = k
      · rw [if_pos hk, if_pos hk.le, hk, Nat.sub_self]
        rfl
      · rw [if_neg hk]
        by_cases hlt : n + 1 ≤ k
        · have hsucc : k - n = (k - (n + 1)) + 1 := by omega
          rw [if_pos hlt, if_pos (by omega), hsucc, List.getElem?_cons_succ]
        · rw [if_neg hlt, if_neg (by omega)]

/-- What the simulator sends arrives. -/
theorem arrives_frames (vin : Vin) {before : List Heard} (hbefore : framesOf before = []) :
    Arrives vin (before ++ (vinFrames vin.bytes).mapIdx .frame) := by
  have hsplit : framesOf (before ++ (vinFrames vin.bytes).mapIdx .frame) =
      framesOf ((vinFrames vin.bytes).mapIdx fun i => Heard.frame (0 + i)) := by
    have hzero : (fun i => Heard.frame (0 + i)) = Heard.frame := by
      funext i
      rw [Nat.zero_add]
    rw [hzero]
    unfold framesOf at hbefore ⊢
    rw [List.filterMap_append, hbefore, List.nil_append]
  constructor
  · intro k
    rw [hsplit, lookupIn_frames]
    rfl
  · intro a ha
    obtain ⟨h, hmem, hframe⟩ := List.mem_filterMap.mp (hsplit ▸ ha)
    obtain ⟨i, hi, rfl⟩ := List.mem_mapIdx.mp hmem
    rw [← Option.some.inj hframe]
    exact vinFrames_ne_nil (List.getElem_mem hi)

/-- The engine's frames out of order, with those of a second ECU in between. -/
def mixedVin : List Heard :=
  [.length 20, .frame 2 [0x48, 0x30, 0x30, 0x30, 0x30, 0x30, 0x31], .length 6,
    .frame 0 [0x49, 0x02, 0x01, 0x53, 0x49, 0x4D], .frame 0 [0x49, 0x02, 0x01, 0x32, 0x32, 0x32],
    .frame 1 [0x43, 0x41, 0x52, 0x57, 0x41, 0x54, 0x43], .frame 2 [0x32]]

theorem arrives_mixedVin : Arrives simVin mixedVin where
  first k := by
    have hframes : vinFrames simVin.bytes = [[0x49, 0x02, 0x01, 0x53, 0x49, 0x4D],
        [0x43, 0x41, 0x52, 0x57, 0x41, 0x54, 0x43], [0x48, 0x30, 0x30, 0x30, 0x30, 0x30, 0x31]] := by
      decide +kernel
    rw [hframes]
    rcases k with _ | _ | _ | k <;> rfl
  full := by decide

theorem decodeVin_arrives_mixed :
    decodeVin (replyText (mixedVin.map Heard.text)) = .ok (asciiText simVin.bytes) :=
  decodeVin_arrives simVin mixedVin arrives_mixedVin

/-- In every session a request for the VIN that is answered is read as the
simulator's VIN. -/
theorem session_vin (r : Rounding) (drive : ℚ → Vehicle) (twoEcu : List UInt8) (acts : List Act)
    (j : ℕ) (c : Command) (raw : Text)
    (h : (session r drive twoEcu acts).asked[j]? = some (c, some raw))
    (hc : c.text = request 0x09 0x02) : decodeVin raw = .ok (asciiText SIM_VIN) := by
  obtain ⟨t, sim, -, -, hraw⟩ := entry_of_returned r drive twoEcu h
  have hobd : obd r (drive t) sim 0x09 0x02 = vinLines SIM_VIN := rfl
  have hfront : ∃ before, framesOf before = [] ∧ lines raw =
      (before ++ (vinFrames SIM_VIN).mapIdx Heard.frame).flatMap fun h => lines h.text := by
    refine ⟨(if sim.echo then [.echo] else []) ++ (if sim.searched then [] else [.searching]) ++
      [.length (vinBody SIM_VIN).length], ?_, ?_⟩
    · split <;> split <;> rfl
    · have hsearch : lines searchingText = [searchingText] := by decide +kernel
      have hframes : ((vinFrames SIM_VIN).mapIdx Heard.frame).map Heard.text =
          (vinFrames SIM_VIN).mapIdx frameLine := by
        apply List.ext_getElem?
        intro i
        rw [List.getElem?_map, List.getElem?_mapIdx, List.getElem?_mapIdx, Option.map_map]
        rfl
      have hmap : ∀ hs : List Heard, (hs.flatMap fun h => lines h.text) = (hs.map Heard.text).flatMap lines := by
        intro hs
        rw [List.flatMap_map]
      rw [hraw, hc, lines_handle, hobd, vinLines, List.flatMap_cons, hmap, List.map_append, hframes,
        List.flatMap_append, ← List.append_assoc, ← List.append_assoc]
      congr 1
      split <;> split <;> simp [Heard.text, hsearch]
  obtain ⟨before, hbefore, hlines⟩ := hfront
  have harrives : Arrives simVin _ := arrives_frames simVin hbefore
  exact decodeVin_of_lines harrives hlines

theorem session_vin_first : decodeVin (handle exactRounding (fun _ => 0) (.new []) (request 0x09 0x02)).2
    = .ok (asciiText SIM_VIN) :=
  session_vin exactRounding (fun _ _ => 0) []
    [.command (.request 0x09 0x02), .fetch 5, .serve 0, .read 200] 0 (.request 0x09 0x02) _
    (by decide +kernel) rfl

end Carwatch.Obd
