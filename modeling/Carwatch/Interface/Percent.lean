import Carwatch.Interface.Grammar

/-!
# Carwatch.Interface.Percent — `decode` and the caller's memory (`src/interface/http.c`)

`decode` of `Carwatch.Interface.Http` says which bytes come out. Here the C
loop is followed down to its two indices and every byte it stores.

* **Model layer**: `decodeInto`, the loop over `in[0, n)` with `i` and `o`,
  writing into the memory that starts at `out`.
* **Specification**: `Encodes`, the percent-encodings of a byte string;
  `BadEscape`, an escape that cannot be read.
* **Refinement**: `decodeInto_eq_decode`: the loop returns the length of what
  `decode` gives and stores exactly that.
* **Result**: `decode_inverts_encoding`.
-/

namespace Carwatch.Interface

open Carwatch.Lib

/-! ## The loop -/

/-- The body of `decode`'s loop up to the test for room: the byte to store and
where `i` stands then. -/
def decodeAt (inp : Bytes) (plusIsSpace : Bool) (i : ℕ) : Option (UInt8 × ℕ) :=
  let c := inp.getD i 0
  if c = 0x25 then
    if i + 2 ≥ inp.length then none
    else
      match hexval (inp.getD (i + 1) 0), hexval (inp.getD (i + 2) 0) with
      | some hi, some lo =>
          let c := UInt8.ofNat (hi * 16 + lo)
          if c = 0 then none else some (c, i + 2)
      | _, _ => none
  else if c = 0x2B && plusIsSpace then some (0x20, i)
  else some (c, i)

/-- The loop of `decode` from `i` and `o` on. `none` is -1; `out` is the memory
behind the pointer of that name, however much of it the caller owns. -/
def decodeLoop (inp : Bytes) (cap : ℕ) (plusIsSpace : Bool) :
    ℕ → ℕ → ℕ → Bytes → Option ℕ × Bytes
  | 0, _, _, out => (none, out)
  | fuel + 1, i, o, out =>
      if i < inp.length then
        match decodeAt inp plusIsSpace i with
        | none => (none, out)
        | some (c, i) =>
            if o + 1 ≥ cap then (none, out)
            else decodeLoop inp cap plusIsSpace fuel (i + 1) (o + 1) (out.set o c)
      else (some o, out.set o 0)

/-- `decode`, with the memory it leaves. The loop moves `i` at every round, so
it ends within a round for each byte. -/
def decodeInto (inp : Bytes) (cap : ℕ) (plusIsSpace : Bool) (out : Bytes) : Option ℕ × Bytes :=
  if cap = 0 then (none, out) else decodeLoop inp cap plusIsSpace (inp.length + 1) 0 0 out

/-! ## Encodings -/

/-- `Encodes plus s e`: `e` is a percent-encoding of `s`, where `+` may stand
for a space if `plus` says so. -/
inductive Encodes (plus : Bool) : Bytes → Bytes → Prop
  | nil : Encodes plus [] []
  | literal {c : UInt8} {s e : Bytes} (hc : c ≠ 0x25) (hplus : plus = true → c ≠ 0x2B)
      (h : Encodes plus s e) : Encodes plus (c :: s) (c :: e)
  | escape {c h l : UInt8} {hi lo : ℕ} {s e : Bytes} (hh : HexDigit h hi) (hl : HexDigit l lo)
      (hc : c.toNat = hi * 16 + lo) (he : Encodes plus s e) :
      Encodes plus (c :: s) (0x25 :: h :: l :: e)
  | space {s e : Bytes} (hplus : plus = true) (h : Encodes plus s e) :
      Encodes plus (0x20 :: s) (0x2B :: e)

/-- What may not stand behind a `%`: fewer than two bytes, a byte that is no
hex digit, or the two digits of NUL. -/
def BadTail (rest : Bytes) : Prop :=
  rest.length < 2 ∨
  ∃ h l t, rest = h :: l :: t ∧
    ((∀ v, ¬ HexDigit h v) ∨ (∀ v, ¬ HexDigit l v) ∨ (HexDigit h 0 ∧ HexDigit l 0))

/-- Behind some bytes that can be read stands an escape that cannot. -/
def BadEscape (plus : Bool) (inp : Bytes) : Prop :=
  ∃ d pre rest, inp = pre ++ 0x25 :: rest ∧ Encodes plus d pre ∧ BadTail rest

/-! ## One round -/

/-- The byte that `c` and the bytes behind it stand for, and what is left. -/
def nextByte (plus : Bool) (c : UInt8) (rest : Bytes) : Option (UInt8 × Bytes) :=
  if c = 0x25 then
    match rest with
    | h :: l :: rest' =>
        match hexval h, hexval l with
        | some hi, some lo =>
            if UInt8.ofNat (hi * 16 + lo) = 0 then none
            else some (UInt8.ofNat (hi * 16 + lo), rest')
        | _, _ => none
    | _ => none
  else some (if c = 0x2B && plus then 0x20 else c, rest)

theorem nextByte_plain {plus : Bool} {c : UInt8} (hc : c ≠ 0x25) (rest : Bytes) :
    nextByte plus c rest = some (if c = 0x2B && plus then 0x20 else c, rest) := if_neg hc

theorem nextByte_escape {plus : Bool} {h l : UInt8} {hi lo : ℕ} (hh : HexDigit h hi)
    (hl : HexDigit l lo) (rest : Bytes) :
    nextByte plus 0x25 (h :: l :: rest) =
      if UInt8.ofNat (hi * 16 + lo) = 0 then none
      else some (UInt8.ofNat (hi * 16 + lo), rest) := by
  unfold nextByte
  simp only [if_true, (hexval_eq_some_iff h hi).mpr hh, (hexval_eq_some_iff l lo).mpr hl]

theorem decodeFrom_cons (cap o : ℕ) (plus : Bool) (c : UInt8) (rest : Bytes) :
    decodeFrom cap plus o (c :: rest) =
      (nextByte plus c rest).bind fun x =>
        if o + 1 ≥ cap then none else (decodeFrom cap plus (o + 1) x.2).map (x.1 :: ·) := by
  unfold nextByte
  by_cases hc : c = 0x25
  · rw [if_pos hc]
    match rest with
    | [] => simp [decodeFrom, hc]
    | [_] => simp [decodeFrom, hc]
    | h :: l :: rest' =>
        rw [decodeFrom, if_pos hc]
        cases hh : hexval h with
        | none => simp only [hh, Option.bind_none]
        | some hi =>
            cases hl : hexval l with
            | none => simp only [hh, hl, Option.bind_none]
            | some lo =>
                simp only [hh, hl]
                split_ifs <;> rfl
  · rw [if_neg hc, Option.bind_some]
    conv_lhs => unfold decodeFrom
    rw [if_neg hc]

/-- A round takes off a few bytes, which encode what it stores. -/
theorem nextByte_eq_some {plus : Bool} {c d : UInt8} {rest rest' : Bytes}
    (h : nextByte plus c rest = some (d, rest')) :
    ∃ used, c :: rest = used ++ rest' ∧ rest'.length ≤ rest.length ∧
      ∀ s e, Encodes plus s e → Encodes plus (d :: s) (used ++ e) := by
  unfold nextByte at h
  by_cases hc : c = 0x25
  · rw [if_pos hc] at h
    subst hc
    match rest, h with
    | a :: b :: t, h =>
        cases ha : hexval a with
        | none => simp [ha] at h
        | some hi =>
            cases hb : hexval b with
            | none => simp [ha, hb] at h
            | some lo =>
                simp only [ha, hb] at h
                split_ifs at h with hnul
                have heq := Option.some.inj h
                rw [Prod.mk.injEq] at heq
                obtain ⟨rfl, rfl⟩ := heq
                have hhi := (hexval_eq_some_iff a hi).mp ha
                have hlo := (hexval_eq_some_iff b lo).mp hb
                refine ⟨[0x25, a, b], rfl, ?_, ?_⟩
                · simp only [List.length_cons]
                  omega
                · intro s e hs
                  exact .escape hhi hlo (hhi.toNat_ofNat hlo) hs
  · rw [if_neg hc] at h
    have heq := Option.some.inj h
    rw [Prod.mk.injEq] at heq
    obtain ⟨rfl, rfl⟩ := heq
    refine ⟨[c], rfl, Nat.le_refl _, ?_⟩
    intro s e hs
    by_cases hplus : (c = 0x2B && plus) = true
    · rw [if_pos hplus]
      rw [Bool.and_eq_true, decide_eq_true_eq] at hplus
      rw [hplus.1]
      exact .space hplus.2 hs
    · rw [if_neg hplus]
      refine .literal hc ?_ hs
      intro hp heq
      exact hplus (by simp [hp, heq])

theorem HexDigit.unique {c : UInt8} {v w : ℕ} (hv : HexDigit c v) (hw : HexDigit c w) : v = w := by
  have hsome := (hexval_eq_some_iff c v).mpr hv
  rw [(hexval_eq_some_iff c w).mpr hw] at hsome
  exact (Option.some.inj hsome).symm

theorem not_hexDigit {c : UInt8} (h : hexval c = none) (v : ℕ) : ¬ HexDigit c v := by
  intro hv
  rw [(hexval_eq_some_iff c v).mpr hv] at h
  cases h

/-- A round fails at an escape that cannot be read, and only there. -/
theorem nextByte_eq_none_iff {plus : Bool} {c : UInt8} {rest : Bytes} :
    nextByte plus c rest = none ↔ c = 0x25 ∧ BadTail rest := by
  unfold nextByte
  by_cases hc : c = 0x25
  · rw [if_pos hc]
    match rest with
    | [] => simp [hc, BadTail]
    | [_] => simp [hc, BadTail]
    | h :: l :: t =>
        constructor
        · intro hnone
          refine ⟨hc, Or.inr ⟨h, l, t, rfl, ?_⟩⟩
          cases hh : hexval h with
          | none => exact Or.inl (not_hexDigit hh)
          | some hi =>
              cases hl : hexval l with
              | none => exact Or.inr (Or.inl (not_hexDigit hl))
              | some lo =>
                  -- two digits are refused only if they spell NUL
                  simp only [hh, hl] at hnone
                  split_ifs at hnone with hnul
                  have hhi := (hexval_eq_some_iff h hi).mp hh
                  have hlo := (hexval_eq_some_iff l lo).mp hl
                  have hzero := hhi.toNat_ofNat hlo
                  rw [hnul] at hzero
                  have hz : hi * 16 + lo = 0 := hzero.symm
                  have hhi0 : hi = 0 := by omega
                  have hlo0 : lo = 0 := by omega
                  rw [hhi0] at hhi
                  rw [hlo0] at hlo
                  exact Or.inr (Or.inr ⟨hhi, hlo⟩)
        · rintro ⟨-, hbad⟩
          rcases hbad with hlen | ⟨h', l', t', heq, hbad⟩
          · simp only [List.length_cons] at hlen
            omega
          · rw [List.cons.injEq, List.cons.injEq] at heq
            obtain ⟨rfl, rfl, rfl⟩ := heq
            cases hh : hexval h with
            | none => simp only [hh]
            | some hi =>
                cases hl : hexval l with
                | none => simp only [hh, hl]
                | some lo =>
                    have hhi := (hexval_eq_some_iff h hi).mp hh
                    have hlo := (hexval_eq_some_iff l lo).mp hl
                    rcases hbad with hbad | hbad | ⟨hh0, hl0⟩
                    · exact absurd hhi (hbad hi)
                    · exact absurd hlo (hbad lo)
                    · have hhi0 := hhi.unique hh0
                      have hlo0 := hlo.unique hl0
                      subst hhi0
                      subst hlo0
                      simp only [hh, hl]
                      exact if_pos rfl
  · rw [if_neg hc]
    simp [hc]

/-- At the front of an encoding a round finds its first byte, unless that is an
encoded NUL. -/
theorem Encodes.front {plus : Bool} {s rest : Bytes} {c : UInt8} (h : Encodes plus s (c :: rest)) :
    ∃ d s' rest', s = d :: s' ∧ Encodes plus s' rest' ∧
      (nextByte plus c rest = some (d, rest') ∨ d = 0 ∧ nextByte plus c rest = none) := by
  cases h with
  | literal hc hplus h =>
      refine ⟨c, _, rest, rfl, h, Or.inl ?_⟩
      have hne : ¬ (c = 0x2B && plus) = true := by
        rw [Bool.and_eq_true, decide_eq_true_eq]
        rintro ⟨heq, hp⟩
        exact hplus hp heq
      rw [nextByte_plain hc, if_neg hne]
  | space hplus h =>
      refine ⟨0x20, _, rest, rfl, h, Or.inl ?_⟩
      rw [nextByte_plain (by decide), if_pos (by simp [hplus])]
  | @escape d a b hi lo s' e ha hb hd h =>
      have hval : UInt8.ofNat (hi * 16 + lo) = d := by
        apply UInt8.toNat_inj.mp
        rw [ha.toNat_ofNat hb, hd]
      refine ⟨d, s', e, rfl, h, ?_⟩
      rw [nextByte_escape ha hb, hval]
      by_cases hnul : d = 0
      · exact Or.inr ⟨hnul, if_pos hnul⟩
      · exact Or.inl (if_neg hnul)

/-! ## What `decode` returns -/

/-- An escape that cannot be read stays one behind an encoded byte. -/
theorem BadEscape.behind {plus : Bool} {d : UInt8} {used e : Bytes}
    (henc : ∀ s e, Encodes plus s e → Encodes plus (d :: s) (used ++ e)) (h : BadEscape plus e) :
    BadEscape plus (used ++ e) := by
  obtain ⟨s, pre, tail, heq, hpre, hbad⟩ := h
  refine ⟨d :: s, used ++ pre, tail, ?_, henc s pre hpre, hbad⟩
  rw [heq, List.append_assoc]

/-- Every input can be read to its end, or up to an escape that cannot. -/
theorem badEscape_or_encodes (plus : Bool) (inp : Bytes) :
    BadEscape plus inp ∨ ∃ d, Encodes plus d inp := by
  induction hn : inp.length using Nat.strong_induction_on generalizing inp with
  | _ n ih =>
      cases inp with
      | nil => exact Or.inr ⟨[], .nil⟩
      | cons c rest =>
          cases hnext : nextByte plus c rest with
          | none =>
              obtain ⟨rfl, hbad⟩ := nextByte_eq_none_iff.mp hnext
              exact Or.inl ⟨[], [], rest, rfl, .nil, hbad⟩
          | some x =>
              obtain ⟨used, heq, hle, henc⟩ := nextByte_eq_some hnext
              have hlt : x.2.length < n := by
                rw [← hn, List.length_cons]
                omega
              rw [heq]
              rcases ih _ hlt x.2 rfl with hbad | ⟨d, hd⟩
              · exact Or.inl (hbad.behind henc)
              · exact Or.inr ⟨x.1 :: d, henc d x.2 hd⟩

/-- What `decode` returns is encoded in its input and leaves room for the NUL. -/
theorem encodes_of_decodeFrom {cap o : ℕ} {plus : Bool} {inp d : Bytes}
    (h : decodeFrom cap plus o inp = some d) (ho : o < cap) :
    Encodes plus d inp ∧ o + d.length < cap := by
  induction hn : inp.length using Nat.strong_induction_on generalizing inp o d with
  | _ n ih =>
      cases inp with
      | nil =>
          rw [decodeFrom] at h
          rw [← Option.some.inj h]
          exact ⟨.nil, ho⟩
      | cons c rest =>
          rw [decodeFrom_cons] at h
          obtain ⟨x, hnext, hx⟩ := Option.bind_eq_some_iff.mp h
          split_ifs at hx with hcap
          obtain ⟨d', hd', rfl⟩ := Option.map_eq_some_iff.mp hx
          obtain ⟨used, heq, hle, henc⟩ := nextByte_eq_some hnext
          have hlt : x.2.length < n := by
            rw [← hn, List.length_cons]
            omega
          obtain ⟨hd, hroom⟩ := ih _ hlt hd' (by omega) rfl
          constructor
          · rw [heq]
            exact henc d' x.2 hd
          · rw [List.length_cons]
            omega

/-- An encoding is read back where there is room, unless it spells NUL. -/
theorem decodeFrom_of_encodes {cap o : ℕ} {plus : Bool} {s e : Bytes} (h : Encodes plus s e)
    (hroom : o + s.length < cap) :
    decodeFrom cap plus o e = some s ∨ 0 ∈ s ∧ BadEscape plus e := by
  induction hn : e.length using Nat.strong_induction_on generalizing e s o with
  | _ n ih =>
      cases e with
      | nil =>
          cases h
          rw [decodeFrom]
          exact Or.inl rfl
      | cons c rest =>
          obtain ⟨d, s', rest', rfl, hs, hnext | ⟨hd, hnext⟩⟩ := h.front
          · obtain ⟨used, heq, hle, henc⟩ := nextByte_eq_some hnext
            have hlt : rest'.length < n := by
              rw [← hn, List.length_cons]
              omega
            rw [List.length_cons] at hroom
            rcases ih _ hlt hs (show o + 1 + s'.length < cap by omega) rfl with hrec | ⟨hnul, hbad⟩
            · left
              rw [decodeFrom_cons, hnext, Option.bind_some, if_neg (by omega), hrec]
              rfl
            · right
              rw [heq]
              exact ⟨List.mem_cons_of_mem d hnul, hbad.behind henc⟩
          · obtain ⟨rfl, hbad⟩ := nextByte_eq_none_iff.mp hnext
            right
            rw [hd]
            exact ⟨List.mem_cons_self, [], [], rest, rfl, .nil, hbad⟩

/-- A text is an encoding of one byte string at most. -/
theorem Encodes.unique {plus : Bool} {s t e : Bytes} (hs : Encodes plus s e)
    (ht : Encodes plus t e) : s = t := by
  induction hs generalizing t with
  | nil =>
      cases ht
      rfl
  | literal hc hplus h ih =>
      cases ht with
      | literal _ _ h' => rw [ih h']
      | escape => exact absurd rfl hc
      | space hp => exact absurd rfl (hplus hp)
  | escape hh hl hc h ih =>
      cases ht with
      | literal hne => exact absurd rfl hne
      | escape hh' hl' hc' h' =>
          rw [ih h', UInt8.toNat_inj.mp (hc.trans ?_)]
          rw [hc', hh.unique hh', hl.unique hl']
  | space hplus h ih =>
      cases ht with
      | literal _ hp => exact absurd rfl (hp hplus)
      | space _ h' => rw [ih h']

/-- No round gets past an escape that cannot be read. -/
theorem decodeFrom_of_badEscape {cap : ℕ} {plus : Bool} {pre d rest : Bytes}
    (hpre : Encodes plus d pre) (hbad : BadTail rest) (o : ℕ) :
    decodeFrom cap plus o (pre ++ 0x25 :: rest) = none := by
  induction hpre generalizing o with
  | nil =>
      rw [List.nil_append, decodeFrom_cons, nextByte_eq_none_iff.mpr ⟨rfl, hbad⟩]
      rfl
  | @literal c _ e hc hplus h ih =>
      rw [List.cons_append, decodeFrom_cons]
      rw [nextByte_plain hc, Option.bind_some, ih]
      split_ifs <;> rfl
  | @escape c a b hi lo _ e ha hb _ h ih =>
      rw [List.cons_append, List.cons_append, List.cons_append, decodeFrom_cons]
      rw [nextByte_escape ha hb]
      by_cases hnul : UInt8.ofNat (hi * 16 + lo) = 0
      · rw [if_pos hnul]
        rfl
      · rw [if_neg hnul, Option.bind_some, ih]
        split_ifs <;> rfl
  | @space _ e hplus h ih =>
      rw [List.cons_append, decodeFrom_cons]
      rw [nextByte_plain (by decide), Option.bind_some, ih]
      split_ifs <;> rfl

/-- `decode` fails exactly at an escape it cannot read or for want of room. -/
theorem decode_eq_none_iff (inp : Bytes) (cap : ℕ) (plus : Bool) :
    decode inp cap plus = none ↔
      BadEscape plus inp ∨ ∃ d, Encodes plus d inp ∧ cap ≤ d.length := by
  unfold decode
  constructor
  · intro h
    rcases badEscape_or_encodes plus inp with hbad | ⟨d, hd⟩
    · exact Or.inl hbad
    · by_cases hroom : 0 + d.length < cap
      · rcases decodeFrom_of_encodes hd hroom with hsome | ⟨-, hbad⟩
        · rw [if_neg (by omega), hsome] at h
          cases h
        · exact Or.inl hbad
      · exact Or.inr ⟨d, hd, by omega⟩
  · intro h
    by_cases hcap : cap = 0
    · exact if_pos hcap
    · rw [if_neg hcap]
      rcases h with ⟨d, pre, rest, rfl, hpre, hbad⟩ | ⟨d, hd, hlong⟩
      · exact decodeFrom_of_badEscape hpre hbad 0
      · cases hsome : decodeFrom cap plus 0 inp with
        | none => rfl
        | some t =>
            -- the one decoding there is would not have fitted
            obtain ⟨ht, hlt⟩ := encodes_of_decodeFrom hsome (Nat.pos_of_ne_zero hcap)
            rw [hd.unique ht] at hlong
            omega

/-! ## The loop computes `decode` -/

/-- What a round of the C loop reads is what stands at `i`. -/
theorem decodeAt_append (plus : Bool) (pre : Bytes) (c : UInt8) (rest : Bytes) :
    decodeAt (pre ++ c :: rest) plus pre.length =
      (nextByte plus c rest).map fun x =>
        (x.1, pre.length + (rest.length - x.2.length)) := by
  have hat : ∀ k, (pre ++ c :: rest).getD (pre.length + k) 0 = (c :: rest).getD k 0 := by
    intro k
    rw [List.getD_eq_getElem?_getD, List.getD_eq_getElem?_getD,
      List.getElem?_append_right (by omega), Nat.add_sub_cancel_left]
  have h0 := hat 0
  have h1 := hat 1
  have h2 := hat 2
  unfold decodeAt nextByte
  rw [Nat.add_zero] at h0
  rw [h0, h1, h2]
  have hlen : (pre ++ c :: rest).length = pre.length + (rest.length + 1) := by
    rw [List.length_append, List.length_cons]
  simp only [List.getD_cons_zero, List.getD_cons_succ, hlen]
  by_cases hc : c = 0x25
  · rw [if_pos hc, if_pos hc]
    match rest with
    | [] => simp
    | [_] => simp
    | h :: l :: t =>
        have hroom : ¬ pre.length + 2 ≥ pre.length + ((h :: l :: t).length + 1) := by
          simp only [List.length_cons]
          omega
        rw [if_neg hroom]
        simp only [List.getD_cons_zero, List.getD_cons_succ, List.length_cons]
        cases hexval h with
        | none => rfl
        | some hi =>
            cases hexval l with
            | none => rfl
            | some lo =>
                simp only
                split_ifs
                · rfl
                · simp only [Option.map_some, Option.some.injEq, Prod.mk.injEq, true_and]
                  omega
  · rw [if_neg hc, if_neg hc]
    simp only [Option.map_some, Nat.sub_self, Nat.add_zero]
    split_ifs <;> rfl

/-- A loop that started at `o` in the memory `out` returned what `decode` says of
the rest and, where that is something, stored it and a NUL. Behind `cap` it
touched nothing either way. -/
structure Stores (cap o : ℕ) (out : Bytes) (result : Option Bytes) (got : Option ℕ × Bytes) :
    Prop where
  returned : got.1 = result.map (o + ·.length)
  size : got.2.length = out.length
  behind : got.2.drop cap = out.drop cap
  text : ∀ d, result = some d → got.2 = out.take o ++ (d ++ 0 :: out.drop (o + d.length + 1))

/-- Giving up stores nothing more. -/
theorem Stores.failed (cap o : ℕ) (out : Bytes) : Stores cap o out none (none, out) where
  returned := rfl
  size := rfl
  behind := rfl
  text := by
    intro d h
    cases h

/-- Storing one more byte in front of what the rest of the loop stores. -/
theorem Stores.cons {cap o : ℕ} {out : Bytes} {c : UInt8} {result : Option Bytes}
    {got : Option ℕ × Bytes} (h : Stores cap (o + 1) (out.set o c) result got)
    (ho : o + 1 < cap) (hcap : cap ≤ out.length) :
    Stores cap o out (result.map (c :: ·)) got where
  returned := by
    rw [h.returned]
    cases result with
    | none => rfl
    | some d =>
        simp only [Option.map_some, List.length_cons, Option.some.injEq]
        omega
  size := by
    rw [h.size, List.length_set]
  behind := by
    rw [h.behind, List.drop_set_of_lt (by omega)]
  text := by
    intro d hd
    obtain ⟨d', hd', rfl⟩ := Option.map_eq_some_iff.mp hd
    have htake : (out.set o c).take (o + 1) = out.take o ++ [c] := by
      rw [List.take_add_one, List.take_set_of_le (Nat.le_refl o),
        List.getElem?_set_self (by omega)]
      rfl
    have hdrop : (out.set o c).drop (o + 1 + d'.length + 1) =
        out.drop (o + (c :: d').length + 1) := by
      rw [List.drop_set_of_lt (by omega), List.length_cons]
      congr 1
      omega
    rw [h.text d' hd', htake, hdrop, List.append_assoc]
    rfl

theorem decodeLoop_stores {cap : ℕ} {plus : Bool} {pre rest out : Bytes} {fuel o : ℕ}
    (hfuel : rest.length < fuel) (ho : o < cap) (hcap : cap ≤ out.length) :
    Stores cap o out (decodeFrom cap plus o rest)
      (decodeLoop (pre ++ rest) cap plus fuel pre.length o out) := by
  induction fuel generalizing pre rest out o with
  | zero => omega
  | succ fuel ih =>
      cases rest with
      | nil =>
          rw [decodeLoop, if_neg (by simp), decodeFrom]
          exact
            { returned := rfl
              size := List.length_set
              behind := List.drop_set_of_lt ho
              text := by
                intro d hd
                rw [← Option.some.inj hd]
                rw [List.set_eq_take_append_cons_drop, if_pos (by omega)]
                rfl }
      | cons c rest =>
          have hmore : pre.length < (pre ++ c :: rest).length := by
            rw [List.length_append, List.length_cons]
            omega
          rw [decodeLoop, if_pos hmore, decodeAt_append, decodeFrom_cons]
          cases hnext : nextByte plus c rest with
          | none => exact Stores.failed cap o out
          | some x =>
              obtain ⟨used, heq, hle, -⟩ := nextByte_eq_some hnext
              simp only [Option.map_some, Option.bind_some]
              by_cases hfull : o + 1 ≥ cap
              · rw [if_pos hfull, if_pos hfull]
                exact Stores.failed cap o out
              · rw [if_neg hfull, if_neg hfull]
                have hused : used.length = rest.length - x.2.length + 1 := by
                  have hlen := congrArg List.length heq
                  rw [List.length_append, List.length_cons] at hlen
                  omega
                -- the next round starts behind the bytes this one used
                have hnextpos : pre.length + (rest.length - x.2.length) + 1 = (pre ++ used).length := by
                  rw [List.length_append]
                  omega
                rw [hnextpos, heq, ← List.append_assoc]
                rw [List.length_cons] at hfuel
                exact (ih (by omega) (by omega) (by rw [List.length_set]; exact hcap)).cons
                  (by omega) hcap

/-- The C loop computes `decode` and stores what it returns. -/
theorem decodeInto_stores {inp out : Bytes} {cap : ℕ} {plus : Bool} (hcap : cap ≤ out.length) :
    Stores cap 0 out (decode inp cap plus) (decodeInto inp cap plus out) := by
  unfold decodeInto decode
  by_cases hzero : cap = 0
  · rw [if_pos hzero, if_pos hzero]
    exact Stores.failed cap 0 out
  · rw [if_neg hzero, if_neg hzero]
    exact @decodeLoop_stores cap plus [] inp out (inp.length + 1) 0 (Nat.lt_succ_self _)
      (Nat.pos_of_ne_zero hzero) hcap

/-! ## The inverse -/

/-- Percent-decoding inverts every percent-encoding that has room, fails exactly
where the input cannot be read or has no room, and stays below `cap`. -/
theorem decode_inverts_encoding (plus : Bool) (cap : ℕ) (out : Bytes) (hcap : cap ≤ out.length) :
    (∀ s e, Encodes plus s e → 0 ∉ s → s.length < cap →
      decodeInto e cap plus out = (some s.length, s ++ 0 :: out.drop (s.length + 1))) ∧
    ∀ inp,
      ((decodeInto inp cap plus out).1 = none ↔
        BadEscape plus inp ∨ ∃ d, Encodes plus d inp ∧ cap ≤ d.length) ∧
      (decodeInto inp cap plus out).2.length = out.length ∧
      (decodeInto inp cap plus out).2.drop cap = out.drop cap := by
  constructor
  · intro s e henc hnul hroom
    have hdecode : decode e cap plus = some s := by
      unfold decode
      rw [if_neg (by omega)]
      rcases decodeFrom_of_encodes henc (show 0 + s.length < cap by omega) with hsome | ⟨hin, -⟩
      · exact hsome
      · exact absurd hin hnul
    have hstores := @decodeInto_stores e out cap plus hcap
    rw [hdecode] at hstores
    have hmem := hstores.text s rfl
    rw [List.take_zero, List.nil_append, Nat.zero_add] at hmem
    refine Prod.ext ?_ hmem
    rw [hstores.returned, Option.map_some, Nat.zero_add]
  · intro inp
    have hstores := @decodeInto_stores inp out cap plus hcap
    refine ⟨?_, hstores.size, hstores.behind⟩
    rw [hstores.returned, Option.map_eq_none_iff]
    exact decode_eq_none_iff inp cap plus

/-- `a+%2f` stands for `a /`, which fits a buffer of four with its NUL; two more
bytes of the caller's stay as they are. -/
theorem decode_inverts_encoding_exact :
    decodeInto [0x61, 0x2B, 0x25, 0x32, 0x66] 4 true [9, 9, 9, 9, 9, 9] =
      (some 3, [0x61, 0x20, 0x2F, 0, 9, 9]) := by
  have hslash : Encodes true [0x2F] [0x25, 0x32, 0x66] :=
    .escape (@HexDigit.decimal 0x32 2 (by decide) rfl) (@HexDigit.lower 0x66 5 (by decide) rfl) rfl .nil
  have henc : Encodes true [0x61, 0x20, 0x2F] [0x61, 0x2B, 0x25, 0x32, 0x66] :=
    .literal (by decide) (fun _ => by decide) (.space rfl hslash)
  exact (decode_inverts_encoding true 4 [9, 9, 9, 9, 9, 9] (by decide)).1 _ _ henc
    (by decide) (by decide)

end Carwatch.Interface
