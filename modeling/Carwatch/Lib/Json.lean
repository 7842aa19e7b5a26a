import Carwatch.Lib.Stdio

/-!
# Carwatch.Lib.Json — JSON texts (RFC 8259) in ASCII

Values as trees, the texts that stand for them, and the way back:

* `IsNumber` — the grammar of numbers; `numberOk` decides it;
* `Json` — a value, its numbers kept as they are written;
* `jsonParse` — the parser. It reads every ASCII text of the grammar whose
  strings are ASCII once their escapes are undone, white space included;
* `Json.render` — the text of a value without white space;
* `jsonParse_render` — the round trip.
-/

namespace Carwatch.Lib

/-! ## Numbers -/

/-- A decimal digit. -/
def isDigit (c : UInt8) : Bool := 0x30 ≤ c && c ≤ 0x39

/-- At least one digit, and digits only. -/
def IsDigits (ds : Bytes) : Prop := ds ≠ [] ∧ ∀ c ∈ ds, isDigit c = true

/-- `int`: zero, or digits that do not start with a zero. -/
def IsInt (t : Bytes) : Prop := t = [0x30] ∨ IsDigits t ∧ t.head? ≠ some 0x30

/-- `[ frac ]` -/
def IsFrac (t : Bytes) : Prop := t = [] ∨ ∃ ds, IsDigits ds ∧ t = 0x2E :: ds

/-- `[ exp ]` -/
def IsExp (t : Bytes) : Prop :=
  t = [] ∨ ∃ e sign ds, (e = 0x65 ∨ e = 0x45) ∧ (sign = [] ∨ sign = [0x2B] ∨ sign = [0x2D]) ∧
    IsDigits ds ∧ t = e :: (sign ++ ds)

/-- `number = [ minus ] int [ frac ] [ exp ]` -/
def IsNumber (t : Bytes) : Prop :=
  ∃ minus int frac exp, (minus = [] ∨ minus = [0x2D]) ∧ IsInt int ∧ IsFrac frac ∧ IsExp exp ∧
    t = minus ++ (int ++ (frac ++ exp))

/-- At least one digit at the front: what is left behind the digits. -/
def scanDigits : Bytes → Option Bytes
  | [] => none
  | c :: t => if isDigit c then some (t.dropWhile isDigit) else none

/-- What is left behind `int`. -/
def scanInt : Bytes → Option Bytes
  | [] => none
  | c :: t => if c = 0x30 then some t else scanDigits (c :: t)

/-- What is left behind `[ frac ]`. -/
def scanFrac : Bytes → Option Bytes
  | [] => some []
  | c :: t => if c = 0x2E then scanDigits t else some (c :: t)

/-- What is left behind the sign of an exponent. -/
def dropSign : Bytes → Bytes
  | [] => []
  | c :: t => if c = 0x2B ∨ c = 0x2D then t else c :: t

/-- What is left behind `[ exp ]`. -/
def scanExp : Bytes → Option Bytes
  | [] => some []
  | c :: t => if c = 0x65 ∨ c = 0x45 then scanDigits (dropSign t) else some (c :: t)

/-- What is left behind `[ minus ]`. -/
def dropMinus : Bytes → Bytes
  | [] => []
  | c :: t => if c = 0x2D then t else c :: t

/-- Whether a text is one number. -/
def numberOk (t : Bytes) : Bool :=
  (scanInt (dropMinus t)).bind scanFrac |>.bind scanExp |> (· == some [])

/-- A text that does not go on with a digit. -/
def NoDigit (t : Bytes) : Prop := ∀ c ∈ t.head?, isDigit c = false

theorem dropWhile_digits {ds rest : Bytes} (h : ∀ c ∈ ds, isDigit c = true) (hr : NoDigit rest) :
    (ds ++ rest).dropWhile isDigit = rest := by
  induction ds with
  | nil =>
      cases rest with
      | nil => rfl
      | cons c t =>
          have hc : isDigit c = false := hr c rfl
          rw [List.nil_append, List.dropWhile_cons, if_neg (by simp [hc])]
  | cons d ds ih =>
      rw [List.cons_append, List.dropWhile_cons, if_pos (h d List.mem_cons_self)]
      exact ih fun c hc => h c (List.mem_cons_of_mem d hc)

theorem scanDigits_append {ds rest : Bytes} (h : IsDigits ds) (hr : NoDigit rest) :
    scanDigits (ds ++ rest) = some rest := by
  rcases h with ⟨hne, hall⟩
  cases ds with
  | nil => exact absurd rfl hne
  | cons d ds =>
      rw [List.cons_append, scanDigits, if_pos (hall d List.mem_cons_self)]
      rw [dropWhile_digits (fun c hc => hall c (List.mem_cons_of_mem d hc)) hr]

theorem scanDigits_eq_some {t rest : Bytes} (h : scanDigits t = some rest) :
    ∃ ds, IsDigits ds ∧ t = ds ++ rest := by
  cases t with
  | nil => cases h
  | cons c t =>
      rw [scanDigits] at h
      split_ifs at h with hc
      refine ⟨c :: t.takeWhile isDigit, ⟨List.cons_ne_nil _ _, ?_⟩, ?_⟩
      · intro d hd
        rcases List.mem_cons.mp hd with rfl | hin
        · exact hc
        · exact List.all_eq_true.mp List.all_takeWhile d hin
      · rw [← Option.some.inj h, List.cons_append, List.takeWhile_append_dropWhile]

theorem scanInt_append {i rest : Bytes} (h : IsInt i) (hr : NoDigit rest) :
    scanInt (i ++ rest) = some rest := by
  rcases h with rfl | ⟨hds, hhead⟩
  · rfl
  · cases i with
    | nil => exact absurd rfl hds.1
    | cons d ds =>
        have hd : d ≠ 0x30 := fun hzero => hhead (by rw [List.head?_cons, hzero])
        rw [List.cons_append, scanInt, if_neg hd, ← List.cons_append]
        exact scanDigits_append hds hr

theorem scanInt_eq_some {t rest : Bytes} (h : scanInt t = some rest) :
    ∃ i, IsInt i ∧ t = i ++ rest := by
  cases t with
  | nil => cases h
  | cons c t =>
      rw [scanInt] at h
      split_ifs at h with hc
      · exact ⟨[0x30], Or.inl rfl, by rw [hc, Option.some.inj h]; rfl⟩
      · rcases scanDigits_eq_some h with ⟨ds, hds, heq⟩
        refine ⟨ds, Or.inr ⟨hds, ?_⟩, heq⟩
        cases ds with
        | nil => exact absurd rfl hds.1
        | cons d ds =>
            rw [List.cons_append, List.cons.injEq] at heq
            rw [List.head?_cons, ← heq.1]
            exact fun hzero => hc (Option.some.inj hzero)

theorem scanFrac_append {f rest : Bytes} (h : IsFrac f) (hr : NoDigit rest)
    (hdot : rest.head? ≠ some 0x2E) : scanFrac (f ++ rest) = some rest := by
  rcases h with rfl | ⟨ds, hds, rfl⟩
  · cases rest with
    | nil => rfl
    | cons c t =>
        have hc : c ≠ 0x2E := fun h => hdot (by rw [List.head?_cons, h])
        rw [List.nil_append, scanFrac, if_neg hc]
  · rw [List.cons_append, scanFrac, if_pos rfl]
    exact scanDigits_append hds hr

theorem scanFrac_eq_some {t rest : Bytes} (h : scanFrac t = some rest) :
    ∃ f, IsFrac f ∧ t = f ++ rest := by
  cases t with
  | nil => exact ⟨[], Or.inl rfl, by rw [← Option.some.inj h]; rfl⟩
  | cons c t =>
      rw [scanFrac] at h
      split_ifs at h with hc
      · rcases scanDigits_eq_some h with ⟨ds, hds, rfl⟩
        exact ⟨0x2E :: ds, Or.inr ⟨ds, hds, rfl⟩, by rw [hc]; rfl⟩
      · exact ⟨[], Or.inl rfl, by rw [← Option.some.inj h]; rfl⟩

theorem scanExp_of_isExp {e : Bytes} (h : IsExp e) : scanExp e = some [] := by
  rcases h with rfl | ⟨c, sign, ds, hc, hsign, hds, rfl⟩
  · rfl
  · have hdrop : dropSign (sign ++ ds) = ds := by
      rcases hsign with rfl | rfl | rfl
      · rcases hds with ⟨hne, hall⟩
        cases ds with
        | nil => exact absurd rfl hne
        | cons d ds =>
            have hd := hall d List.mem_cons_self
            have hnot : ¬ (d = 0x2B ∨ d = 0x2D) := by
              rintro (rfl | rfl) <;> exact absurd hd (by decide)
            rw [List.nil_append, dropSign, if_neg hnot]
      · rfl
      · rfl
    have hend := @scanDigits_append ds [] hds (fun c hc => by cases hc)
    rw [List.append_nil] at hend
    rw [scanExp, if_pos hc, hdrop, hend]

/-- The tail of an exponent, read to its end. -/
theorem sign_digits_of_scanDigits {t : Bytes} (h : scanDigits (dropSign t) = some []) :
    ∃ sign ds : Bytes, (sign = [] ∨ sign = [0x2B] ∨ sign = [0x2D]) ∧ IsDigits ds ∧
      t = sign ++ ds := by
  rcases scanDigits_eq_some h with ⟨ds, hds, heq⟩
  rw [List.append_nil] at heq
  have hsign : ∃ sign : Bytes, (sign = [] ∨ sign = [0x2B] ∨ sign = [0x2D]) ∧
      t = sign ++ dropSign t := by
    cases t with
    | nil => exact ⟨[], Or.inl rfl, rfl⟩
    | cons s t =>
        rw [dropSign]
        split_ifs with hs
        · rcases hs with rfl | rfl
          · exact ⟨[0x2B], Or.inr (Or.inl rfl), rfl⟩
          · exact ⟨[0x2D], Or.inr (Or.inr rfl), rfl⟩
        · exact ⟨[], Or.inl rfl, rfl⟩
  rcases hsign with ⟨sign, hsign, ht⟩
  exact ⟨sign, ds, hsign, hds, by rw [ht, heq]⟩

theorem isExp_of_scanExp {t : Bytes} (h : scanExp t = some []) : IsExp t := by
  cases t with
  | nil => exact Or.inl rfl
  | cons c t =>
      rw [scanExp] at h
      by_cases hc : c = 0x65 ∨ c = 0x45
      · rw [if_pos hc] at h
        rcases sign_digits_of_scanDigits h with ⟨sign, ds, hsign, hds, rfl⟩
        exact Or.inr ⟨c, sign, ds, hc, hsign, hds, rfl⟩
      · rw [if_neg hc] at h
        cases h

theorem IsExp.noDigit {e : Bytes} (h : IsExp e) : NoDigit e ∧ e.head? ≠ some 0x2E := by
  rcases h with rfl | ⟨c, sign, ds, hc, -, -, rfl⟩
  · refine ⟨?_, by simp⟩
    intro c hc
    cases hc
  · constructor
    · intro d hd
      rw [List.head?_cons, Option.mem_some_iff] at hd
      subst hd
      rcases hc with rfl | rfl <;> decide
    · rcases hc with rfl | rfl <;> simp

theorem IsFrac.noDigit {f e : Bytes} (h : IsFrac f) (he : NoDigit e) : NoDigit (f ++ e) := by
  rcases h with rfl | ⟨ds, -, rfl⟩
  · exact he
  · intro c hc
    rw [List.cons_append, List.head?_cons, Option.mem_some_iff] at hc
    subst hc
    decide

/-- `numberOk` decides the grammar. -/
theorem numberOk_iff (t : Bytes) : numberOk t = true ↔ IsNumber t := by
  unfold numberOk
  simp only [beq_iff_eq, Option.bind_eq_some_iff]
  constructor
  · rintro ⟨r, ⟨q, hint, hfrac⟩, hexp⟩
    rcases scanInt_eq_some hint with ⟨i, hi, hq⟩
    rcases scanFrac_eq_some hfrac with ⟨f, hf, rfl⟩
    have hminus : ∃ m : Bytes, (m = [] ∨ m = [0x2D]) ∧ t = m ++ dropMinus t := by
      cases t with
      | nil => exact ⟨[], Or.inl rfl, rfl⟩
      | cons c t =>
          rw [dropMinus]
          split_ifs with hc
          · exact ⟨[0x2D], Or.inr rfl, by rw [hc]; rfl⟩
          · exact ⟨[], Or.inl rfl, rfl⟩
    rcases hminus with ⟨m, hm, ht⟩
    exact ⟨m, i, f, r, hm, hi, hf, isExp_of_scanExp hexp, by rw [ht, hq]⟩
  · rintro ⟨m, i, f, e, hm, hi, hf, he, rfl⟩
    have hne := he.noDigit
    have hdrop : dropMinus (m ++ (i ++ (f ++ e))) = i ++ (f ++ e) := by
      rcases hm with rfl | rfl
      · -- an `int` does not start with a minus
        have hhead : ∃ d ds, i = d :: ds ∧ isDigit d = true := by
          rcases hi with rfl | ⟨⟨hnil, hall⟩, -⟩
          · exact ⟨0x30, [], rfl, by decide⟩
          · cases i with
            | nil => exact absurd rfl hnil
            | cons d ds => exact ⟨d, ds, rfl, hall d List.mem_cons_self⟩
        rcases hhead with ⟨d, ds, rfl, hd⟩
        have hnot : d ≠ 0x2D := by
          rintro rfl
          exact absurd hd (by decide)
        rw [List.nil_append, List.cons_append, dropMinus, if_neg hnot]
      · rfl
    refine ⟨e, ⟨f ++ e, ?_, scanFrac_append hf hne.1 hne.2⟩, scanExp_of_isExp he⟩
    rw [hdrop]
    exact scanInt_append hi (hf.noDigit hne.1)

theorem isDigit_digitChar {d : ℕ} (h : d < 10) : isDigit (digitChar d) = true := by
  interval_cases d <;> decide

theorem isDigits_digitChar {n : ℕ} (hpos : 0 < n) (h : n < 10) :
    IsDigits [digitChar n] ∧ [digitChar n].head? ≠ some 0x30 := by
  refine ⟨⟨List.cons_ne_nil _ _, ?_⟩, ?_⟩
  · intro c hc
    rw [List.mem_singleton.mp hc]
    exact isDigit_digitChar h
  · rw [List.head?_cons]
    interval_cases n <;> decide

/-- A printed number other than zero has no zero in front. -/
theorem isDigits_printNat {n fuel : ℕ} (hpos : 0 < n) (h : n < 10 ^ (fuel + 1)) :
    IsDigits (printNat 10 (fuel + 1) n) ∧ (printNat 10 (fuel + 1) n).head? ≠ some 0x30 := by
  induction fuel generalizing n with
  | zero =>
      have hn : n < 10 := by simpa using h
      rw [printNat, if_pos hn]
      exact isDigits_digitChar hpos hn
  | succ fuel ih =>
      rw [printNat]
      by_cases hn : n < 10
      · rw [if_pos hn]
        exact isDigits_digitChar hpos hn
      · rw [if_neg hn]
        have hdiv : n / 10 < 10 ^ (fuel + 1) := by
          rw [Nat.div_lt_iff_lt_mul (by omega), ← pow_succ]
          exact h
        rcases ih (by omega) hdiv with ⟨⟨hne, hall⟩, hhead⟩
        refine ⟨⟨?_, ?_⟩, ?_⟩
        · exact List.append_ne_nil_of_left_ne_nil hne _
        · intro c hc
          rcases List.mem_append.mp hc with hin | hlast
          · exact hall c hin
          · rw [List.mem_singleton.mp hlast]
            exact isDigit_digitChar (Nat.mod_lt n (by omega))
        · rw [List.head?_append_of_ne_nil _ hne]
          exact hhead

theorem isInt_printNat {n fuel : ℕ} (h : n < 10 ^ (fuel + 1)) :
    IsInt (printNat 10 (fuel + 1) n) := by
  rcases Nat.eq_zero_or_pos n with rfl | hpos
  · left
    rw [printNat, if_pos (by omega)]
    decide
  · right
    exact isDigits_printNat hpos h

theorem isNumber_of_isInt {minus int : Bytes} (hm : minus = [] ∨ minus = [0x2D]) (hi : IsInt int) :
    IsNumber (minus ++ int) :=
  ⟨minus, int, [], [], hm, hi, Or.inl rfl, Or.inl rfl, by rw [List.append_nil, List.append_nil]⟩

instance : DecidablePred IsNumber := fun t => decidable_of_iff _ (numberOk_iff t)

/-! ## Values and their texts -/

/-- A JSON value. Numbers are kept as they are written, and so is the order of
an object's members. -/
inductive Json where
  | null
  | bool (b : Bool)
  | num (text : Bytes)
  | str (s : Bytes)
  | arr (items : List Json)
  | obj (members : List (Bytes × Json))

/-- `null` -/
def nullWord : Bytes := [0x6E, 0x75, 0x6C, 0x6C]

/-- `true` -/
def trueWord : Bytes := [0x74, 0x72, 0x75, 0x65]

/-- `false` -/
def falseWord : Bytes := [0x66, 0x61, 0x6C, 0x73, 0x65]

/-- A character of a string: the two-character escapes, then six characters
for the other control characters. -/
def renderChar (c : UInt8) : Bytes :=
  if c = 0x22 then [0x5C, 0x22]
  else if c = 0x5C then [0x5C, 0x5C]
  else if c = 0x08 then [0x5C, 0x62]
  else if c = 0x0C then [0x5C, 0x66]
  else if c = 0x0A then [0x5C, 0x6E]
  else if c = 0x0D then [0x5C, 0x72]
  else if c = 0x09 then [0x5C, 0x74]
  else if c < 0x20 || c == 0x7F then
    [0x5C, 0x75, 0x30, 0x30, digitChar (c.toNat / 16), digitChar (c.toNat % 16)]
  else [c]

/-- A string in its quotes. -/
def renderString (s : Bytes) : Bytes := 0x22 :: (s.flatMap renderChar ++ [0x22])

mutual

/-- The text of a value, without white space. -/
def Json.render : Json → Bytes
  | .null => nullWord
  | .bool true => trueWord
  | .bool false => falseWord
  | .num text => text
  | .str s => renderString s
  | .arr [] => [0x5B, 0x5D]
  | .arr (v :: vs) => 0x5B :: (v.render ++ (renderItems vs ++ [0x5D]))
  | .obj [] => [0x7B, 0x7D]
  | .obj ((k, v) :: ms) => 0x7B :: (renderString k ++ 0x3A :: (v.render ++ (renderMembers ms ++ [0x7D])))

/-- The items of an array behind its first, each with its comma. -/
def renderItems : List Json → Bytes
  | [] => []
  | v :: vs => 0x2C :: (v.render ++ renderItems vs)

/-- The members of an object behind its first, each with its comma. -/
def renderMembers : List (Bytes × Json) → Bytes
  | [] => []
  | (k, v) :: ms => 0x2C :: (renderString k ++ 0x3A :: (v.render ++ renderMembers ms))

end

/-- The comma between what is there and what comes next. -/
def sep {α : Type} (xs : List α) : Bytes := if xs.isEmpty then [] else [0x2C]

/-- The inside of an array. -/
def itemsText : List Json → Bytes
  | [] => []
  | v :: vs => v.render ++ renderItems vs

/-- The inside of an object. -/
def membersText : List (Bytes × Json) → Bytes
  | [] => []
  | (k, v) :: ms => renderString k ++ 0x3A :: (v.render ++ renderMembers ms)

theorem render_arr (vs : List Json) : (Json.arr vs).render = 0x5B :: (itemsText vs ++ [0x5D]) := by
  cases vs with
  | nil =>
      rw [Json.render]
      rfl
  | cons v vs => rw [Json.render, itemsText, List.append_assoc]

theorem render_obj (ms : List (Bytes × Json)) :
    (Json.obj ms).render = 0x7B :: (membersText ms ++ [0x7D]) := by
  cases ms with
  | nil =>
      rw [Json.render]
      rfl
  | cons m ms =>
      rcases m with ⟨k, v⟩
      rw [Json.render, membersText, List.append_assoc, List.cons_append, List.append_assoc]

theorem renderItems_append (vs : List Json) (v : Json) :
    renderItems (vs ++ [v]) = renderItems vs ++ 0x2C :: v.render := by
  induction vs with
  | nil => simp only [List.nil_append, renderItems, List.append_nil]
  | cons w vs ih =>
      rw [List.cons_append, renderItems, renderItems, ih, List.cons_append, List.append_assoc]

theorem renderMembers_append (ms : List (Bytes × Json)) (k : Bytes) (v : Json) :
    renderMembers (ms ++ [(k, v)]) =
      renderMembers ms ++ 0x2C :: (renderString k ++ 0x3A :: v.render) := by
  induction ms with
  | nil => simp only [List.nil_append, renderMembers, List.append_nil]
  | cons m ms ih =>
      rcases m with ⟨k', v'⟩
      simp only [List.cons_append, renderMembers, ih, List.append_assoc]

theorem itemsText_append (vs : List Json) (v : Json) :
    itemsText (vs ++ [v]) = itemsText vs ++ (sep vs ++ v.render) := by
  cases vs with
  | nil =>
      simp only [List.nil_append, itemsText, renderItems, List.append_nil]
      rfl
  | cons w vs =>
      rw [List.cons_append, itemsText, itemsText, renderItems_append, List.append_assoc]
      rfl

theorem membersText_append (ms : List (Bytes × Json)) (k : Bytes) (v : Json) :
    membersText (ms ++ [(k, v)]) =
      membersText ms ++ (sep ms ++ (renderString k ++ 0x3A :: v.render)) := by
  cases ms with
  | nil =>
      simp only [List.nil_append, membersText, renderMembers, List.append_nil]
      rfl
  | cons m ms =>
      rcases m with ⟨k', v'⟩
      rw [List.cons_append, membersText, membersText, renderMembers_append, List.append_assoc,
        List.cons_append, List.append_assoc]
      rfl

/-- An escape is six characters at most. -/
theorem length_renderString_le (s : Bytes) : (renderString s).length ≤ 6 * s.length + 2 := by
  have hchars : (s.flatMap renderChar).length ≤ 6 * s.length := by
    induction s with
    | nil => exact Nat.zero_le _
    | cons c s ih =>
        have hchar : (renderChar c).length ≤ 6 := by
          unfold renderChar
          split_ifs <;> simp
        rw [List.flatMap_cons, List.length_append, List.length_cons]
        omega
  rw [renderString, List.length_cons, List.length_append, List.length_singleton]
  omega

/-! ## The parser -/

/-- `ws` -/
def isWs (c : UInt8) : Bool := c == 0x20 || c == 0x09 || c == 0x0A || c == 0x0D

/-- What is left behind white space. -/
def skipWs (s : Bytes) : Bytes := s.dropWhile isWs

/-- What a two-character escape stands for. -/
def unescape (e : UInt8) : Option UInt8 :=
  if e = 0x22 then some 0x22
  else if e = 0x5C then some 0x5C
  else if e = 0x2F then some 0x2F
  else if e = 0x62 then some 0x08
  else if e = 0x66 then some 0x0C
  else if e = 0x6E then some 0x0A
  else if e = 0x72 then some 0x0D
  else if e = 0x74 then some 0x09
  else none

/-- What the four hexadecimal digits of a long escape stand for, if it is
ASCII. -/
def unescapeHex (a b c d : UInt8) : Option UInt8 :=
  match digitVal a, digitVal b, digitVal c, digitVal d with
  | some a, some b, some c, some d =>
      let code := ((a * 16 + b) * 16 + c) * 16 + d
      if code < 0x80 then some (UInt8.ofNat code) else none
  | _, _, _, _ => none

/-- The rest of a string behind its opening quote, and what is left behind
the closing one. -/
def parseChars : Bytes → Option (Bytes × Bytes)
  | [] => none
  | c :: t =>
      if c = 0x22 then some ([], t)
      else if c = 0x5C then
        match t with
        | [] => none
        | e :: t' =>
            if e = 0x75 then
              match t' with
              | h1 :: h2 :: h3 :: h4 :: t'' =>
                  match unescapeHex h1 h2 h3 h4 with
                  | some u => (parseChars t'').map fun p => (u :: p.1, p.2)
                  | none => none
              | _ => none
            else
              match unescape e with
              | some u => (parseChars t').map fun p => (u :: p.1, p.2)
              | none => none
      else if c < 0x20 || 0x80 ≤ c then none
      else (parseChars t).map fun p => (c :: p.1, p.2)

/-- A character that numbers are made of. -/
def isNumberChar (c : UInt8) : Bool :=
  isDigit c || c == 0x2D || c == 0x2B || c == 0x2E || c == 0x65 || c == 0x45

/-- A value that is neither a string nor a container. -/
def parseScalar (s : Bytes) : Option (Json × Bytes) :=
  if nullWord.isPrefixOf s then some (.null, s.drop 4)
  else if trueWord.isPrefixOf s then some (.bool true, s.drop 4)
  else if falseWord.isPrefixOf s then some (.bool false, s.drop 5)
  else
    let text := s.takeWhile isNumberChar
    if numberOk text then some (.num text, s.drop text.length) else none

/-- A structural character with white space before it: what is left behind
it. -/
def token (b : UInt8) (s : Bytes) : Option Bytes :=
  match skipWs s with
  | [] => none
  | c :: t => if c = b then some t else none

mutual

/-- The value at the front, and what is left behind it. A round takes at
least one byte, so as much fuel as bytes is enough. -/
def parseValue : ℕ → Bytes → Option (Json × Bytes)
  | 0, _ => none
  | fuel + 1, s =>
      match token 0x22 s, token 0x5B s, token 0x7B s with
      | some t, _, _ => (parseChars t).map fun p => (.str p.1, p.2)
      | none, some t, _ =>
          match token 0x5D t with
          | some t' => some (.arr [], t')
          | none => (parseItems fuel t).map fun p => (.arr p.1, p.2)
      | none, none, some t =>
          match token 0x7D t with
          | some t' => some (.obj [], t')
          | none => (parseMembers fuel t).map fun p => (.obj p.1, p.2)
      | none, none, none => parseScalar (skipWs s)

/-- The items of an array, from one of them to the closing bracket. -/
def parseItems : ℕ → Bytes → Option (List Json × Bytes)
  | 0, _ => none
  | fuel + 1, s =>
      match parseValue fuel s with
      | none => none
      | some (v, t) =>
          match token 0x2C t, token 0x5D t with
          | some t', _ => (parseItems fuel t').map fun p => (v :: p.1, p.2)
          | none, some t' => some ([v], t')
          | none, none => none

/-- The members of an object, from one of them to the closing brace. -/
def parseMembers : ℕ → Bytes → Option (List (Bytes × Json) × Bytes)
  | 0, _ => none
  | fuel + 1, s =>
      match (token 0x22 s).bind parseChars with
      | none => none
      | some (k, t) =>
          match (token 0x3A t).bind (parseValue fuel) with
          | none => none
          | some (v, u) =>
              match token 0x2C u, token 0x7D u with
              | some u', _ => (parseMembers fuel u').map fun p => ((k, v) :: p.1, p.2)
              | none, some u' => some ([(k, v)], u')
              | none, none => none

end

/-- The value of a JSON text: one value with white space around it. -/
def jsonParse (s : Bytes) : Option Json :=
  match parseValue (s.length + 1) s with
  | some (v, t) => if skipWs t = [] then some v else none
  | none => none

/-! ## The round trip -/

/-- A string of ASCII characters. -/
def IsAscii (s : Bytes) : Prop := ∀ c ∈ s, c < 0x80

instance : DecidablePred IsAscii := fun s => List.decidableBAll (fun c => c < 0x80) s

/-- A value that has an ASCII text: its numbers are numbers and its strings
are ASCII. -/
inductive Json.Plain : Json → Prop where
  | null : Plain .null
  | bool (b : Bool) : Plain (.bool b)
  | num {text : Bytes} (h : IsNumber text) : Plain (.num text)
  | str {s : Bytes} (h : IsAscii s) : Plain (.str s)
  | arr {vs : List Json} (h : ∀ v ∈ vs, Plain v) : Plain (.arr vs)
  | obj {ms : List (Bytes × Json)} (hk : ∀ m ∈ ms, IsAscii m.1) (h : ∀ m ∈ ms, Plain m.2) :
      Plain (.obj ms)

theorem isAscii_append {s t : Bytes} (hs : IsAscii s) (ht : IsAscii t) : IsAscii (s ++ t) := by
  intro c hc
  rcases List.mem_append.mp hc with hin | hin
  · exact hs c hin
  · exact ht c hin

theorem isAscii_cons {c : UInt8} {t : Bytes} (hc : c < 0x80) (ht : IsAscii t) :
    IsAscii (c :: t) := by
  intro d hd
  rcases List.mem_cons.mp hd with rfl | hin
  · exact hc
  · exact ht d hin

theorem isAscii_nil : IsAscii [] := by
  intro c hc
  cases hc

theorem digitChar_lt {d : ℕ} (h : d < 16) : digitChar d < 0x80 := by
  interval_cases d <;> decide

theorem isAscii_renderChar {c : UInt8} (h : c < 0x80) : IsAscii (renderChar c) := by
  have hc : c.toNat < 128 := UInt8.lt_iff_toNat_lt.mp h
  have hhigh := digitChar_lt (show c.toNat / 16 < 16 by omega)
  have hlow := digitChar_lt (show c.toNat % 16 < 16 by omega)
  have hpair : ∀ e : UInt8, e < 0x80 → IsAscii [0x5C, e] := fun e he =>
    isAscii_cons (by decide) (isAscii_cons he isAscii_nil)
  unfold renderChar
  split_ifs
  · exact hpair _ (by decide)
  · exact hpair _ (by decide)
  · exact hpair _ (by decide)
  · exact hpair _ (by decide)
  · exact hpair _ (by decide)
  · exact hpair _ (by decide)
  · exact hpair _ (by decide)
  · exact isAscii_append (hpair 0x75 (by decide)) (isAscii_cons (by decide)
      (isAscii_cons (by decide) (isAscii_cons hhigh (isAscii_cons hlow isAscii_nil))))
  · exact isAscii_cons h isAscii_nil

theorem isAscii_renderString {s : Bytes} (h : IsAscii s) : IsAscii (renderString s) := by
  refine isAscii_cons (by decide) (isAscii_append ?_ (isAscii_cons (by decide) isAscii_nil))
  intro c hc
  rcases List.mem_flatMap.mp hc with ⟨d, hd, hin⟩
  exact isAscii_renderChar (h d hd) c hin

theorem skipWs_cons {c : UInt8} (h : isWs c = false) (t : Bytes) : skipWs (c :: t) = c :: t := by
  rw [skipWs, List.dropWhile_cons, if_neg (by simp [h])]

theorem token_self {b : UInt8} (h : isWs b = false) (t : Bytes) : token b (b :: t) = some t := by
  rw [token, skipWs_cons h]
  exact if_pos rfl

theorem token_ne {b c : UInt8} (h : isWs c = false) (hne : c ≠ b) (t : Bytes) :
    token b (c :: t) = none := by
  rw [token, skipWs_cons h]
  exact if_neg hne

theorem parseChars_escape {e u : UInt8} (hu : unescape e = some u) (he : e ≠ 0x75) (t : Bytes) :
    parseChars (0x5C :: e :: t) = (parseChars t).map fun p => (u :: p.1, p.2) := by
  rw [parseChars.eq_def]
  dsimp only
  rw [if_neg (by decide), if_pos rfl, if_neg he, hu]

theorem parseChars_hex {h1 h2 h3 h4 u : UInt8} (hu : unescapeHex h1 h2 h3 h4 = some u)
    (t : Bytes) : parseChars (0x5C :: 0x75 :: h1 :: h2 :: h3 :: h4 :: t) =
      (parseChars t).map fun p => (u :: p.1, p.2) := by
  rw [parseChars.eq_def]
  dsimp only
  rw [if_neg (by decide), if_pos rfl, if_pos rfl, hu]

/-- A control character's long escape. -/
theorem unescapeHex_control {c : UInt8} (h : c < 0x80) :
    unescapeHex 0x30 0x30 (digitChar (c.toNat / 16)) (digitChar (c.toNat % 16)) = some c := by
  have hc : c.toNat < 128 := UInt8.lt_iff_toNat_lt.mp h
  have hzero : digitVal 0x30 = some 0 := by decide
  have hcode : ((0 * 16 + 0) * 16 + c.toNat / 16) * 16 + c.toNat % 16 = c.toNat := by omega
  have hhigh : c.toNat / 16 < 16 := by omega
  have hlow : c.toNat % 16 < 16 := by omega
  rw [unescapeHex, hzero, digitVal_digitChar hhigh, digitVal_digitChar hlow]
  simp only [hcode]
  rw [if_pos hc, UInt8.ofNat_toNat]

/-- A character of a string reads back as itself. -/
theorem parseChars_renderChar {c : UInt8} (h : c < 0x80) (t : Bytes) :
    parseChars (renderChar c ++ t) = (parseChars t).map fun p => (c :: p.1, p.2) := by
  unfold renderChar
  split_ifs with h1 h2 h3 h4 h5 h6 h7 h8
  · rw [h1]
    exact parseChars_escape (by decide) (by decide) t
  · rw [h2]
    exact parseChars_escape (by decide) (by decide) t
  · rw [h3]
    exact parseChars_escape (by decide) (by decide) t
  · rw [h4]
    exact parseChars_escape (by decide) (by decide) t
  · rw [h5]
    exact parseChars_escape (by decide) (by decide) t
  · rw [h6]
    exact parseChars_escape (by decide) (by decide) t
  · rw [h7]
    exact parseChars_escape (by decide) (by decide) t
  · exact parseChars_hex (unescapeHex_control h) t
  · have hplain : ¬ (c < 0x20 || 0x80 ≤ c) = true := by
      simp only [Bool.or_eq_true, decide_eq_true_eq, not_or] at h8 ⊢
      exact ⟨h8.1, UInt8.not_le.mpr h⟩
    rw [List.cons_append, List.nil_append, parseChars.eq_def]
    dsimp only
    rw [if_neg h1, if_neg h2, if_neg hplain]

theorem parseChars_renderString {s : Bytes} (h : IsAscii s) (rest : Bytes) :
    parseChars (s.flatMap renderChar ++ 0x22 :: rest) = some (s, rest) := by
  induction s with
  | nil =>
      rw [List.flatMap_nil, List.nil_append, parseChars.eq_def]
      exact if_pos rfl
  | cons c s ih =>
      rw [List.flatMap_cons, List.append_assoc, parseChars_renderChar (h c List.mem_cons_self),
        ih fun d hd => h d (List.mem_cons_of_mem c hd)]
      rfl

/-! A number is read to its end, when what follows cannot go on with it. -/

theorem isNumberChar_of_isDigits {ds : Bytes} (h : IsDigits ds) :
    ∀ c ∈ ds, isNumberChar c = true := by
  intro c hc
  rw [isNumberChar, h.2 c hc]
  rfl

theorem IsNumber.chars {t : Bytes} (h : IsNumber t) : ∀ c ∈ t, isNumberChar c = true := by
  rcases h with ⟨m, i, f, e, hm, hi, hf, he, rfl⟩
  intro c hc
  simp only [List.mem_append] at hc
  rcases hc with hc | hc | hc | hc
  · rcases hm with rfl | rfl
    · cases hc
    · rw [List.mem_singleton.mp hc]
      decide
  · rcases hi with rfl | ⟨hds, -⟩
    · rw [List.mem_singleton.mp hc]
      decide
    · exact isNumberChar_of_isDigits hds c hc
  · rcases hf with rfl | ⟨ds, hds, rfl⟩
    · cases hc
    · rcases List.mem_cons.mp hc with rfl | hc
      · decide
      · exact isNumberChar_of_isDigits hds c hc
  · rcases he with rfl | ⟨d, sign, ds, hd, hsign, hds, rfl⟩
    · cases hc
    · rcases List.mem_cons.mp hc with rfl | hc
      · rcases hd with rfl | rfl <;> decide
      · rcases List.mem_append.mp hc with hc | hc
        · rcases hsign with rfl | rfl | rfl
          · cases hc
          · rw [List.mem_singleton.mp hc]
            decide
          · rw [List.mem_singleton.mp hc]
            decide
        · exact isNumberChar_of_isDigits hds c hc

/-- A number starts with a digit or a minus. -/
theorem IsNumber.head {t : Bytes} (h : IsNumber t) :
    ∃ c r, t = c :: r ∧ (isDigit c = true ∨ c = 0x2D) := by
  rcases h with ⟨m, i, f, e, hm, hi, -, -, rfl⟩
  rcases hm with rfl | rfl
  · rcases hi with rfl | ⟨⟨hne, hall⟩, -⟩
    · exact ⟨0x30, f ++ e, rfl, Or.inl (by decide)⟩
    · cases i with
      | nil => exact absurd rfl hne
      | cons d ds => exact ⟨d, ds ++ (f ++ e), rfl, Or.inl (hall d List.mem_cons_self)⟩
  · exact ⟨0x2D, i ++ (f ++ e), rfl, Or.inr rfl⟩

theorem numberStart {c : UInt8} (h : isDigit c = true ∨ c = 0x2D) :
    isWs c = false ∧ c ≠ 0x22 ∧ c ≠ 0x5B ∧ c ≠ 0x7B ∧ c ≠ 0x5D := by
  have hne : ∀ d : UInt8, ¬ (isDigit d = true ∨ d = 0x2D) → c ≠ d := by
    rintro d hd rfl
    exact hd h
  refine ⟨?_, hne _ (by decide), hne _ (by decide), hne _ (by decide), hne _ (by decide)⟩
  simp only [isWs, Bool.or_eq_false_iff, beq_eq_false_iff_ne]
  exact ⟨⟨⟨hne _ (by decide), hne _ (by decide)⟩, hne _ (by decide)⟩, hne _ (by decide)⟩

/-- A text behind which a value can end. -/
def Ends (rest : Bytes) : Prop := ∀ c ∈ rest.head?, isNumberChar c = false

theorem ends_nil : Ends [] := by
  intro c hc
  cases hc

theorem ends_cons {c : UInt8} (h : isNumberChar c = false) (t : Bytes) : Ends (c :: t) := by
  intro d hd
  rw [List.head?_cons, Option.mem_some_iff] at hd
  rwa [← hd]

theorem takeWhile_numberChar {t rest : Bytes} (h : ∀ c ∈ t, isNumberChar c = true)
    (hr : Ends rest) : (t ++ rest).takeWhile isNumberChar = t := by
  induction t with
  | nil =>
      cases rest with
      | nil => rfl
      | cons c r =>
          have hc := hr c rfl
          rw [List.nil_append, List.takeWhile_cons, if_neg (by simp [hc])]
  | cons d t ih =>
      rw [List.cons_append, List.takeWhile_cons, if_pos (h d List.mem_cons_self),
        ih fun c hc => h c (List.mem_cons_of_mem d hc)]

theorem parseScalar_number {t rest : Bytes} (h : IsNumber t) (hr : Ends rest) :
    parseScalar (t ++ rest) = some (.num t, rest) := by
  have htake := takeWhile_numberChar h.chars hr
  have hok := (numberOk_iff t).mpr h
  rcases h.head with ⟨c, r, rfl, hc⟩
  -- no word starts the way a number does
  have hword : ∀ w ws, (w = 0x6E ∨ w = 0x74 ∨ w = 0x66) →
      (w :: ws).isPrefixOf (c :: r ++ rest) = false := by
    intro w ws hw
    have hne : (w == c) = false := by
      rw [beq_eq_false_iff_ne]
      rintro rfl
      rcases hw with rfl | rfl | rfl <;> exact absurd hc (by decide)
    rw [List.cons_append, List.isPrefixOf, hne, Bool.false_and]
  unfold parseScalar
  rw [if_neg (by rw [nullWord, hword _ _ (by decide)]; decide),
    if_neg (by rw [trueWord, hword _ _ (by decide)]; decide),
    if_neg (by rw [falseWord, hword _ _ (by decide)]; decide)]
  simp only [htake, hok, if_true, List.drop_left']

theorem isAscii_of_numberChars {t : Bytes} (h : ∀ c ∈ t, isNumberChar c = true) : IsAscii t := by
  intro c hc
  have hchar := h c hc
  simp only [isNumberChar, Bool.or_eq_true, beq_iff_eq] at hchar
  rcases hchar with ((((hd | rfl) | rfl) | rfl) | rfl) | rfl
  · simp only [isDigit, Bool.and_eq_true, decide_eq_true_eq] at hd
    exact UInt8.lt_of_le_of_lt hd.2 (by decide)
  · decide
  · decide
  · decide
  · decide
  · decide

/-- The text of a value is ASCII. -/
theorem Json.Plain.ascii {v : Json} (h : v.Plain) : IsAscii v.render := by
  induction h with
  | null =>
      rw [render]
      decide
  | bool b =>
      cases b with
      | true =>
          rw [render]
          decide
      | false =>
          rw [render]
          decide
  | num hn =>
      rw [render]
      exact isAscii_of_numberChars hn.chars
  | str hs =>
      rw [render]
      exact isAscii_renderString hs
  | @arr vs h ih =>
      -- the items behind the first one, each with its comma
      have htail : ∀ ws : List Json, (∀ w ∈ ws, IsAscii w.render) → IsAscii (renderItems ws) := by
        intro ws hws
        induction ws with
        | nil =>
            rw [renderItems]
            exact isAscii_nil
        | cons w ws ihw =>
            rw [renderItems]
            exact isAscii_cons (by decide) (isAscii_append (hws w List.mem_cons_self)
              (ihw fun x hx => hws x (List.mem_cons_of_mem w hx)))
      rw [render_arr]
      refine isAscii_cons (by decide) (isAscii_append ?_ (isAscii_cons (by decide) isAscii_nil))
      cases vs with
      | nil => exact isAscii_nil
      | cons v vs =>
          exact isAscii_append (ih v List.mem_cons_self)
            (htail vs fun w hw => ih w (List.mem_cons_of_mem v hw))
  | @obj ms hk h ih =>
      have hmember : ∀ (k : Bytes) (v : Json) (t : Bytes), IsAscii k → IsAscii v.render → IsAscii t →
          IsAscii (renderString k ++ 0x3A :: (v.render ++ t)) := fun k v t hk hv ht =>
        isAscii_append (isAscii_renderString hk) (isAscii_cons (by decide) (isAscii_append hv ht))
      have htail : ∀ ns : List (Bytes × Json), (∀ m ∈ ns, IsAscii m.1 ∧ IsAscii m.2.render) →
          IsAscii (renderMembers ns) := by
        intro ns hns
        induction ns with
        | nil =>
            rw [renderMembers]
            exact isAscii_nil
        | cons m ns ihn =>
            rcases m with ⟨k, v⟩
            have hm := hns (k, v) List.mem_cons_self
            rw [renderMembers]
            exact isAscii_cons (by decide) (hmember k v _ hm.1 hm.2
              (ihn fun x hx => hns x (List.mem_cons_of_mem _ hx)))
      rw [render_obj]
      refine isAscii_cons (by decide) (isAscii_append ?_ (isAscii_cons (by decide) isAscii_nil))
      cases ms with
      | nil => exact isAscii_nil
      | cons m ms =>
          rcases m with ⟨k, v⟩
          exact hmember k v _ (hk (k, v) List.mem_cons_self) (ih (k, v) List.mem_cons_self)
            (htail ms fun m hm => ⟨hk m (List.mem_cons_of_mem _ hm), ih m (List.mem_cons_of_mem _ hm)⟩)

/-! What the first character says. -/

theorem parseValue_scalar {c : UInt8} (hws : isWs c = false) (hq : c ≠ 0x22) (ha : c ≠ 0x5B)
    (ho : c ≠ 0x7B) (n : ℕ) (t : Bytes) : parseValue (n + 1) (c :: t) = parseScalar (c :: t) := by
  simp only [parseValue, token_ne hws hq, token_ne hws ha, token_ne hws ho, skipWs_cons hws]

theorem parseValue_string (n : ℕ) (t : Bytes) :
    parseValue (n + 1) (0x22 :: t) = (parseChars t).map fun p => (.str p.1, p.2) := by
  simp only [parseValue, token_self (show isWs 0x22 = false by decide)]

theorem parseValue_arr (n : ℕ) (t : Bytes) :
    parseValue (n + 1) (0x5B :: t) = match token 0x5D t with
      | some t' => some (.arr [], t')
      | none => (parseItems n t).map fun p => (.arr p.1, p.2) := by
  have hws : isWs 0x5B = false := by decide
  simp only [parseValue, token_ne hws (show (0x5B : UInt8) ≠ 0x22 by decide), token_self hws]

theorem parseValue_obj (n : ℕ) (t : Bytes) :
    parseValue (n + 1) (0x7B :: t) = match token 0x7D t with
      | some t' => some (.obj [], t')
      | none => (parseMembers n t).map fun p => (.obj p.1, p.2) := by
  have hws : isWs 0x7B = false := by decide
  simp only [parseValue, token_ne hws (show (0x7B : UInt8) ≠ 0x22 by decide),
    token_ne hws (show (0x7B : UInt8) ≠ 0x5B by decide), token_self hws]

/-- The text of a value starts with neither white space nor a closing
bracket. -/
theorem Json.Plain.head {v : Json} (h : v.Plain) :
    ∃ c r, v.render = c :: r ∧ isWs c = false ∧ c ≠ 0x5D := by
  cases h with
  | null => exact ⟨_, _, by rw [render]; rfl, by decide, by decide⟩
  | bool b =>
      cases b with
      | false => exact ⟨_, _, by rw [render]; rfl, by decide, by decide⟩
      | true => exact ⟨_, _, by rw [render]; rfl, by decide, by decide⟩
  | num hn =>
      rcases hn.head with ⟨c, r, rfl, hc⟩
      have hstart := numberStart hc
      exact ⟨c, r, by rw [render], hstart.1, hstart.2.2.2.2⟩
  | str hs => exact ⟨_, _, by rw [render, renderString], by decide, by decide⟩
  | @arr vs h =>
      cases vs with
      | nil => exact ⟨_, _, by rw [render], by decide, by decide⟩
      | cons v vs => exact ⟨_, _, by rw [render], by decide, by decide⟩
  | @obj ms hk h =>
      cases ms with
      | nil => exact ⟨_, _, by rw [render], by decide, by decide⟩
      | cons m ms => exact ⟨_, _, by rw [render], by decide, by decide⟩

/-- What the parser makes of a value's text, whatever it ends before. -/
def Reads (v : Json) : Prop :=
  ∀ n rest, v.render.length ≤ n → Ends rest → parseValue n (v.render ++ rest) = some (v, rest)

theorem parseItems_render {v : Json} {vs : List Json} (hv : Reads v) (hvs : ∀ w ∈ vs, Reads w)
    {n : ℕ} (rest : Bytes) (hn : v.render.length + (renderItems vs).length < n) :
    parseItems n (v.render ++ (renderItems vs ++ 0x5D :: rest)) = some (v :: vs, rest) := by
  induction vs generalizing v n with
  | nil =>
      cases n with
      | zero => omega
      | succ n =>
          have hread := hv n (0x5D :: rest) (by omega) (ends_cons (by decide) _)
          rw [renderItems, List.nil_append, parseItems, hread]
          simp only [token_ne (show isWs 0x5D = false by decide)
            (show (0x5D : UInt8) ≠ 0x2C by decide),
            token_self (show isWs 0x5D = false by decide)]
  | cons w vs ih =>
      cases n with
      | zero => omega
      | succ n =>
          rw [renderItems, List.length_cons, List.length_append] at hn
          have hread := hv n (0x2C :: (w.render ++ (renderItems vs ++ 0x5D :: rest))) (by omega)
            (ends_cons (by decide) _)
          have hrest : parseItems n (w.render ++ (renderItems vs ++ 0x5D :: rest)) =
              some (w :: vs, rest) :=
            ih (hvs w List.mem_cons_self) (fun x hx => hvs x (List.mem_cons_of_mem w hx)) (by omega)
          rw [renderItems, List.cons_append, List.append_assoc, parseItems, hread]
          simp only [token_self (show isWs 0x2C = false by decide), hrest, Option.map_some]

/-- One member, up to what stands behind it. -/
theorem parseMembers_member {k : Bytes} {v : Json} (hk : IsAscii k) (hv : Reads v) {n : ℕ}
    (hn : v.render.length ≤ n) {u : Bytes} (hu : Ends u) :
    parseMembers (n + 1) (renderString k ++ 0x3A :: (v.render ++ u)) =
      match token 0x2C u, token 0x7D u with
      | some u', _ => (parseMembers n u').map fun p => ((k, v) :: p.1, p.2)
      | none, some u' => some ([(k, v)], u')
      | none, none => none := by
  have hkey : (token 0x22 (renderString k ++ 0x3A :: (v.render ++ u))).bind parseChars =
      some (k, 0x3A :: (v.render ++ u)) := by
    rw [renderString, List.cons_append, token_self (by decide), Option.bind_some,
      List.append_assoc]
    exact parseChars_renderString hk _
  have hval : (token 0x3A (0x3A :: (v.render ++ u))).bind (parseValue n) = some (v, u) := by
    rw [token_self (by decide), Option.bind_some]
    exact hv n u hn hu
  simp only [parseMembers, hkey, hval]

theorem parseMembers_render {k : Bytes} {v : Json} {ms : List (Bytes × Json)} (hk : IsAscii k)
    (hv : Reads v) (hms : ∀ m ∈ ms, IsAscii m.1 ∧ Reads m.2) {n : ℕ} (rest : Bytes)
    (hn : v.render.length + (renderMembers ms).length < n) :
    parseMembers n (renderString k ++ 0x3A :: (v.render ++ (renderMembers ms ++ 0x7D :: rest))) =
      some ((k, v) :: ms, rest) := by
  induction ms generalizing k v n with
  | nil =>
      cases n with
      | zero => omega
      | succ n =>
          rw [renderMembers, List.nil_append,
            parseMembers_member hk hv (by omega) (ends_cons (by decide) rest)]
          simp only [token_ne (show isWs 0x7D = false by decide)
            (show (0x7D : UInt8) ≠ 0x2C by decide),
            token_self (show isWs 0x7D = false by decide)]
  | cons m ms ih =>
      cases n with
      | zero => omega
      | succ n =>
          rcases m with ⟨k', v'⟩
          have hm : IsAscii k' ∧ Reads v' := hms (k', v') List.mem_cons_self
          rw [renderMembers, List.length_cons, List.length_append, List.length_cons,
            List.length_append] at hn
          -- a comma, so the next member is read with what fuel is left
          have hrest : parseMembers n
              (renderString k' ++ 0x3A :: (v'.render ++ (renderMembers ms ++ 0x7D :: rest))) =
              some ((k', v') :: ms, rest) :=
            ih hm.1 hm.2 (fun x hx => hms x (List.mem_cons_of_mem _ hx)) (by omega)
          rw [renderMembers, List.cons_append, List.append_assoc, List.cons_append,
            List.append_assoc, parseMembers_member hk hv (by omega) (ends_cons (by decide) _)]
          simp only [token_self (show isWs 0x2C = false by decide), hrest, Option.map_some]

/-- Every value with an ASCII text is read back from it. -/
theorem Json.Plain.reads {v : Json} (h : v.Plain) : Reads v := by
  induction h with
  | null =>
      intro n rest hn hrest
      cases n with
      | zero => rw [render] at hn; exact absurd hn (by decide)
      | succ n =>
          rw [render]
          exact parseValue_scalar (by decide) (by decide) (by decide) (by decide) n _
  | bool b =>
      intro n rest hn hrest
      cases n with
      | zero => cases b <;> rw [render] at hn <;> exact absurd hn (by decide)
      | succ n =>
          cases b with
          | false =>
              rw [render]
              exact parseValue_scalar (by decide) (by decide) (by decide) (by decide) n _
          | true =>
              rw [render]
              exact parseValue_scalar (by decide) (by decide) (by decide) (by decide) n _
  | @num text ht =>
      intro n rest hn hrest
      have hscalar := parseScalar_number ht hrest
      rcases ht.head with ⟨c, r, rfl, hc⟩
      rcases numberStart hc with ⟨hws, hq, ha, ho, -⟩
      rw [render] at hn ⊢
      cases n with
      | zero => exact absurd hn (by simp)
      | succ n =>
          rw [List.cons_append] at hscalar ⊢
          rw [parseValue_scalar hws hq ha ho, hscalar]
  | @str s hs =>
      intro n rest hn hrest
      cases n with
      | zero => rw [render, renderString] at hn; exact absurd hn (by simp)
      | succ n =>
          rw [render, renderString, List.cons_append, parseValue_string, List.append_assoc]
          exact congrArg (Option.map fun p => (Json.str p.1, p.2)) (parseChars_renderString hs rest)
  | @arr vs h ih =>
      intro n rest hn hrest
      cases n with
      | zero =>
          cases vs <;> rw [render] at hn <;> exact absurd hn (by simp)
      | succ n =>
          cases vs with
          | nil =>
              rw [render, List.cons_append, parseValue_arr]
              rfl
          | cons v vs =>
              rcases (h v List.mem_cons_self).head with ⟨c, r, hr, hws, hne⟩
              -- no value starts with a closing bracket, so the array is not empty
              have hopen : token 0x5D (v.render ++ (renderItems vs ++ 0x5D :: rest)) = none := by
                rw [hr, List.cons_append]
                exact token_ne hws hne _
              rw [render] at hn ⊢
              rw [List.cons_append, List.append_assoc, List.append_assoc, parseValue_arr]
              simp only [List.cons_append, List.nil_append, hopen]
              rw [parseItems_render (ih v List.mem_cons_self)
                (fun w hw => ih w (List.mem_cons_of_mem v hw)) rest ?_]
              · rfl
              · simp only [List.length_cons, List.length_append, List.length_nil] at hn
                omega
  | @obj ms hk h ih =>
      intro n rest hn hrest
      cases n with
      | zero =>
          cases ms <;> rw [render] at hn <;> exact absurd hn (by simp)
      | succ n =>
          cases ms with
          | nil =>
              rw [render, List.cons_append, parseValue_obj]
              rfl
          | cons m ms =>
              rcases m with ⟨k, v⟩
              have hv : Reads v := ih (k, v) List.mem_cons_self
              -- a member starts with a quote, so the object is not empty
              have hopen : token 0x7D
                  (renderString k ++ 0x3A :: (v.render ++ (renderMembers ms ++ 0x7D :: rest))) =
                  none := by
                rw [renderString, List.cons_append]
                exact token_ne (by decide) (by decide) _
              rw [render] at hn ⊢
              rw [List.cons_append, List.append_assoc, List.cons_append, List.append_assoc,
                List.append_assoc, parseValue_obj]
              simp only [List.cons_append, List.nil_append, hopen]
              rw [parseMembers_render (hk (k, v) List.mem_cons_self) hv
                (fun m hm => ⟨hk m (List.mem_cons_of_mem _ hm), ih m (List.mem_cons_of_mem _ hm)⟩)
                rest ?_]
              · rfl
              · simp only [List.length_cons, List.length_append, List.length_nil] at hn
                omega

/-- The round trip. -/
theorem jsonParse_render {v : Json} (h : v.Plain) : jsonParse v.render = some v := by
  have hread := h.reads (v.render.length + 1) [] (by omega) ends_nil
  rw [List.append_nil] at hread
  rw [jsonParse, hread]
  rfl

end Carwatch.Lib
