import Carwatch.Interface.Route

/-!
# Carwatch.Interface.Reply — whole replies of a source

A reply is walked twice: `kv_reply_check` decides whether all of it is there,
and `records_to_json` goes through the records again. Both rest on
`kv_reply_next`.

* **Abstract layer**: `IsReply` — records, each on a line of its own, and one
  line that ends them.
* **Result**: `replyCheck_eq_iff` — the check accepts such replies and no
  others; `IsReply.replyCheckFrom_cut` — it waits for more on every strict
  prefix of one; `IsReply.recordsSeen_eq` — the second walk meets the records the
  first one passed over.
-/

namespace Carwatch.Interface

open Carwatch.Lib

/-! ## What a reply is -/

/-- The end of a line: LF or CR LF. -/
def IsEol (eol : Bytes) : Prop := eol = [0x0A] ∨ eol = [0x0D, 0x0A]

/-- A line that ends a reply. -/
def KvKind.Ends (k : KvKind) : Prop := k = .ok ∨ ∃ code reason, k = .err code reason

/-- A reply: the lines of its records, one line that is read as `final`, and
nothing behind it. -/
inductive IsReply (final : KvKind) : List KvLine → Bytes → Prop where
  | last {line eol : Bytes} (hline : kvParseLine line = final) (heol : IsEol eol) :
      IsReply final [] (line ++ eol)
  | record {line eol rest : Bytes} {rec : KvLine} {recs : List KvLine}
      (hline : kvParseLine line = .record rec) (heol : IsEol eol) (hrest : IsReply final recs rest) :
      IsReply final (rec :: recs) (line ++ eol ++ rest)

/-! ## One line -/

/-- A line that the parser takes has no end of a line in it. -/
theorem plain_of_kvParseLine {line : Bytes} (h : kvParseLine line ≠ .bad) :
    0x0A ∉ line ∧ 0x0D ∉ line := by
  have hprint : ∀ c ∈ line, IsPrintable c := by
    apply (any_unprintable_iff line).mp
    by_contra hany
    rw [Bool.not_eq_false] at hany
    apply h
    unfold kvParseLine
    split_ifs
    · rfl
    · rfl
  constructor
  · intro hin
    exact absurd (hprint _ hin).1 (by decide)
  · intro hin
    exact absurd (hprint _ hin).1 (by decide)

theorem plain_of_record {line : Bytes} {rec : KvLine} (h : kvParseLine line = .record rec) :
    0x0A ∉ line ∧ 0x0D ∉ line := by
  apply plain_of_kvParseLine
  rw [h]
  intro hbad
  cases hbad

theorem IsEol.length_pos {eol : Bytes} (h : IsEol eol) : 0 < eol.length := by
  rcases h with rfl | rfl
  · decide
  · decide

theorem KvKind.Ends.ne_bad {k : KvKind} (h : k.Ends) : k ≠ .bad := by
  rintro rfl
  rcases h with h | ⟨code, reason, h⟩
  · cases h
  · cases h

/-- `kv_reply_next` at a line. -/
theorem kvReplyNext_line {line eol : Bytes} (hplain : 0x0A ∉ line ∧ 0x0D ∉ line) (heol : IsEol eol)
    (rest : Bytes) : kvReplyNext (line ++ eol ++ rest) = (kvParseLine line, rest) := by
  -- what stands before the LF is the line, with the CR of a CR LF
  have hsplit : ∃ raw, line ++ eol ++ rest = raw ++ 0x0A :: rest ∧ 0x0A ∉ raw ∧ stripCr raw = line := by
    rcases heol with rfl | rfl
    · refine ⟨line, by rw [List.append_assoc]; rfl, hplain.1, ?_⟩
      unfold stripCr
      rw [if_neg]
      intro hlast
      exact hplain.2 (List.mem_of_getLast? hlast)
    · refine ⟨line ++ [0x0D], by simp, ?_, ?_⟩
      · intro hin
        rcases List.mem_append.mp hin with hin | hin
        · exact hplain.1 hin
        · exact absurd (List.mem_singleton.mp hin) (by decide)
      · unfold stripCr
        rw [if_pos List.getLast?_concat, List.dropLast_concat]
  rcases hsplit with ⟨raw, heq, hraw, hstrip⟩
  have hidx : (raw ++ 0x0A :: rest).idxOf? 0x0A = some raw.length :=
    idxOf?_eq_some_iff_split.mpr ⟨raw, rest, rfl, hraw, rfl⟩
  unfold kvReplyNext
  rw [heq, hidx]
  simp only [take_drop_of_split.1, take_drop_of_split.2]
  unfold stripCr at hstrip
  rw [hstrip]

/-- `kv_reply_next` waits while there is no LF. -/
theorem kvReplyNext_of_not_mem {rest : Bytes} (h : 0x0A ∉ rest) :
    kvReplyNext rest = (.incomplete, rest) := by
  unfold kvReplyNext
  rw [List.idxOf?_eq_none_iff.mpr h]

/-- `kv_reply_next` waits, or takes a line. -/
theorem kvReplyNext_line_cases (rest : Bytes) :
    kvReplyNext rest = (.incomplete, rest) ∨
    ∃ line eol rest', rest = line ++ eol ++ rest' ∧ IsEol eol ∧
      kvReplyNext rest = (kvParseLine line, rest') := by
  by_cases hlf : 0x0A ∈ rest
  · right
    rcases List.eq_append_cons_of_mem hlf with ⟨raw, rest', rfl, hraw⟩
    have hidx : (raw ++ 0x0A :: rest').idxOf? 0x0A = some raw.length :=
      idxOf?_eq_some_iff_split.mpr ⟨raw, rest', rfl, hraw, rfl⟩
    have hnext : kvReplyNext (raw ++ 0x0A :: rest') = (kvParseLine (stripCr raw), rest') := by
      unfold kvReplyNext
      rw [hidx]
      simp only [take_drop_of_split.1, take_drop_of_split.2, stripCr]
    refine ⟨stripCr raw, if raw.getLast? = some 0x0D then [0x0D, 0x0A] else [0x0A], rest', ?_, ?_, hnext⟩
    · unfold stripCr
      split_ifs with hcr
      · rcases List.getLast?_eq_some_iff.mp hcr with ⟨line, rfl⟩
        rw [List.dropLast_concat]
        simp
      · rw [List.append_assoc]
        rfl
    · split_ifs
      · exact .inr rfl
      · exact .inl rfl
  · exact .inl (kvReplyNext_of_not_mem hlf)

/-! ## The check -/

/-- One round of the loop at a line that ends a reply. -/
theorem replyCheckFrom_of_ends {fuel : ℕ} {cur rest : Bytes} {final : KvKind} (hfinal : final.Ends)
    (hnext : kvReplyNext cur = (final, rest)) :
    replyCheckFrom (fuel + 1) cur = if rest ≠ [] then .bad else final := by
  rw [replyCheckFrom, hnext]
  rcases hfinal with rfl | ⟨code, reason, rfl⟩
  · rfl
  · rfl

/-- A whole reply is accepted. -/
theorem IsReply.replyCheckFrom_eq {final : KvKind} (hfinal : final.Ends) {recs : List KvLine}
    {buf : Bytes} (h : IsReply final recs buf) {fuel : ℕ} (hfuel : buf.length < fuel) :
    replyCheckFrom fuel buf = final := by
  induction h generalizing fuel with
  | @last line eol hline heol =>
      cases fuel with
      | zero => omega
      | succ fuel =>
          have hplain := plain_of_kvParseLine (hline.symm ▸ hfinal.ne_bad)
          have hnext := kvReplyNext_line hplain heol []
          rw [List.append_nil, hline] at hnext
          exact replyCheckFrom_of_ends hfinal hnext
  | @record line eol rest rec recs hline heol hrest ih =>
      cases fuel with
      | zero => omega
      | succ fuel =>
          have hplain := plain_of_record hline
          rw [replyCheckFrom, kvReplyNext_line hplain heol rest, hline]
          apply ih
          have hpos := heol.length_pos
          simp only [List.length_append] at hfuel
          omega

/-- What is accepted is a whole reply. -/
theorem isReply_of_replyCheckFrom {final : KvKind} (hfinal : final.Ends) {fuel : ℕ} {buf : Bytes}
    (h : replyCheckFrom fuel buf = final) : ∃ recs, IsReply final recs buf := by
  induction fuel generalizing buf with
  | zero =>
      rcases hfinal with rfl | ⟨code, reason, rfl⟩
      · cases h
      · cases h
  | succ fuel ih =>
      rcases kvReplyNext_line_cases buf with hnext | ⟨line, eol, rest, rfl, heol, hnext⟩
      · rw [replyCheckFrom, hnext] at h
        rcases hfinal with rfl | ⟨code, reason, rfl⟩
        · cases h
        · cases h
      · -- the kind of the first line decides
        cases hk : kvParseLine line with
        | record rec =>
            rw [replyCheckFrom, hnext, hk] at h
            rcases ih h with ⟨recs, hrecs⟩
            exact ⟨rec :: recs, .record hk heol hrecs⟩
        | ok =>
            rw [hk] at hnext
            rw [replyCheckFrom_of_ends (.inl rfl) hnext] at h
            split_ifs at h with hrest
            · exact absurd h.symm hfinal.ne_bad
            · rw [not_not.mp hrest, List.append_nil]
              exact ⟨[], .last (hk.trans h) heol⟩
        | err code reason =>
            rw [hk] at hnext
            rw [replyCheckFrom_of_ends (.inr ⟨code, reason, rfl⟩) hnext] at h
            split_ifs at h with hrest
            · exact absurd h.symm hfinal.ne_bad
            · rw [not_not.mp hrest, List.append_nil]
              exact ⟨[], .last (hk.trans h) heol⟩
        | bad =>
            rw [replyCheckFrom, hnext, hk] at h
            exact absurd h.symm hfinal.ne_bad
        | incomplete =>
            rw [replyCheckFrom, hnext, hk] at h
            rcases hfinal with rfl | ⟨code, reason, rfl⟩
            · cases h
            · cases h

/-- The check accepts the replies, and nothing else. -/
theorem replyCheck_eq_iff {final : KvKind} (hfinal : final.Ends) (buf : Bytes) :
    kvReplyCheck buf = final ↔ ∃ recs, IsReply final recs buf := by
  constructor
  · exact isReply_of_replyCheckFrom hfinal
  · rintro ⟨recs, h⟩
    exact h.replyCheckFrom_eq hfinal (Nat.lt_succ_self _)

/-! ## Strict prefixes -/

/-- A strict prefix of a line and its end has no LF. -/
theorem lf_not_mem_of_cut {line eol p : Bytes} (hplain : 0x0A ∉ line) (heol : IsEol eol)
    (hp : p <+: line ++ eol) (hlen : p.length < (line ++ eol).length) : 0x0A ∉ p := by
  -- the LF is the last byte of the two
  have hinit : ∃ raw, line ++ eol = raw ++ [0x0A] ∧ 0x0A ∉ raw := by
    rcases heol with rfl | rfl
    · exact ⟨line, rfl, hplain⟩
    · refine ⟨line ++ [0x0D], by simp, ?_⟩
      intro hin
      rcases List.mem_append.mp hin with hin | hin
      · exact hplain hin
      · exact absurd (List.mem_singleton.mp hin) (by decide)
  rcases hinit with ⟨raw, heq, hraw⟩
  rw [heq] at hp hlen
  rw [List.length_append, List.length_singleton] at hlen
  have hpre : p <+: raw := List.prefix_of_prefix_length_le hp (List.prefix_append raw [0x0A]) (by omega)
  intro hin
  exact hraw (hpre.subset hin)

/-- On a strict prefix of a reply the loop waits for more. -/
theorem IsReply.replyCheckFrom_cut {final : KvKind} (hfinal : final.Ends) {recs : List KvLine}
    {buf : Bytes} (h : IsReply final recs buf) {p : Bytes} (hp : p <+: buf)
    (hlen : p.length < buf.length) {fuel : ℕ} (hfuel : p.length < fuel) :
    replyCheckFrom fuel p = .incomplete := by
  induction h generalizing fuel p with
  | @last line eol hline heol =>
      cases fuel with
      | zero => omega
      | succ fuel =>
          have hplain := plain_of_kvParseLine (hline.symm ▸ hfinal.ne_bad)
          rw [replyCheckFrom, kvReplyNext_of_not_mem (lf_not_mem_of_cut hplain.1 heol hp hlen)]
  | @record line eol rest rec recs hline heol hrest ih =>
      cases fuel with
      | zero => omega
      | succ fuel =>
          have hplain := plain_of_record hline
          by_cases hcut : p.length < (line ++ eol).length
          · -- the cut is in the first line
            have hfirst : p <+: line ++ eol :=
              List.prefix_of_prefix_length_le hp (List.prefix_append _ rest) (Nat.le_of_lt hcut)
            rw [replyCheckFrom, kvReplyNext_of_not_mem (lf_not_mem_of_cut hplain.1 heol hfirst hcut)]
          · -- the first line is there, and the cut is behind it
            have hfirst : line ++ eol <+: p :=
              List.prefix_of_prefix_length_le (List.prefix_append _ rest) hp (Nat.not_lt.mp hcut)
            rcases hfirst with ⟨p', rfl⟩
            rw [replyCheckFrom, kvReplyNext_line hplain heol p', hline]
            have hpos := heol.length_pos
            simp only [List.length_append] at hlen hfuel
            exact ih ((List.prefix_append_right_inj _).mp hp) (by omega) (by omega)

/-! ## The second walk -/

/-- A record that `records_to_json` can show. -/
def untagged (rec : KvLine) : Bool := (kvGet rec tagKey).isNone

/-- The values that `rec` takes in the loop of `records_to_json`. -/
def recordsSeen : ℕ → Bytes → List KvLine
  | 0, _ => []
  | fuel + 1, cur =>
      match kvReplyNext cur with
      | (.record line, cur) =>
          if (kvGet line tagKey).isSome then [line] else line :: recordsSeen fuel cur
      | _ => []

/-- What the loop does is the calls of the records it sees; it returns at one
with a field named tag. -/
theorem recordsFrom_eq_seen (fuel : ℕ) (cur : Bytes) (j : JsonWriter) :
    recordsFrom fuel cur j =
      ((recordsSeen fuel cur).all untagged,
        run JsonWriter.exec j (((recordsSeen fuel cur).takeWhile untagged).flatMap recordCalls)) := by
  induction fuel generalizing cur j with
  | zero => rfl
  | succ fuel ih =>
      unfold recordsFrom recordsSeen
      cases hnext : kvReplyNext cur with
      | mk k rest =>
          cases k with
          | record line =>
              dsimp only
              cases htag : kvGet line tagKey with
              -- the guard: the loop ends in this round
              | some v =>
                  have hno : untagged line = false := by
                    rw [untagged, htag]
                    rfl
                  simp only [Option.isSome_some, if_true, List.all_cons, List.takeWhile_cons, hno]
                  rfl
              | none =>
                  have hyes : untagged line = true := by
                    rw [untagged, htag]
                    rfl
                  simp only [Option.isSome_none, Bool.false_eq_true, if_false, List.all_cons,
                    List.takeWhile_cons, hyes, Bool.true_and, if_true, List.flatMap_cons, run_append]
                  exact ih rest _
          | ok => rfl
          | err code reason => rfl
          | bad => rfl
          | incomplete => rfl

/-- The loop sees the records of a reply in order, up to the first with a
field named tag. -/
theorem IsReply.recordsSeen_eq {final : KvKind} (hfinal : final.Ends) {recs : List KvLine}
    {buf : Bytes} (h : IsReply final recs buf) {fuel : ℕ} (hfuel : buf.length < fuel) :
    recordsSeen fuel buf = recs.takeWhile untagged ++ (recs.dropWhile untagged).take 1 := by
  induction h generalizing fuel with
  | @last line eol hline heol =>
      cases fuel with
      | zero => omega
      | succ fuel =>
          have hplain := plain_of_kvParseLine (hline.symm ▸ hfinal.ne_bad)
          have hnext := kvReplyNext_line hplain heol []
          rw [List.append_nil, hline] at hnext
          rw [recordsSeen, hnext]
          rcases hfinal with rfl | ⟨code, reason, rfl⟩
          · rfl
          · rfl
  | @record line eol rest rec recs hline heol hrest ih =>
      cases fuel with
      | zero => omega
      | succ fuel =>
          rw [recordsSeen, kvReplyNext_line (plain_of_record hline) heol rest, hline]
          dsimp only
          have hpos := heol.length_pos
          simp only [List.length_append] at hfuel
          cases htag : kvGet rec tagKey with
          | some v =>
              have hno : untagged rec = false := by
                rw [untagged, htag]
                rfl
              rw [List.takeWhile_cons, List.dropWhile_cons, hno]
              rfl
          | none =>
              have hyes : untagged rec = true := by
                rw [untagged, htag]
                rfl
              rw [List.takeWhile_cons, List.dropWhile_cons, hyes, if_pos rfl, if_pos rfl,
                List.cons_append, ← ih (show rest.length < fuel by omega)]
              rfl

/-- A list cut behind its first element without a property. -/
theorem takeWhile_upToFirst {α : Type} (p : α → Bool) (xs : List α) :
    (xs.takeWhile p ++ (xs.dropWhile p).take 1).takeWhile p = xs.takeWhile p ∧
      (xs.takeWhile p ++ (xs.dropWhile p).take 1).all p = xs.all p := by
  induction xs with
  | nil => exact ⟨rfl, rfl⟩
  | cons x xs ih =>
      rw [List.takeWhile_cons, List.dropWhile_cons, List.all_cons]
      cases hx : p x with
      | true =>
          rw [if_pos rfl, if_pos rfl, List.cons_append, List.takeWhile_cons, hx, if_pos rfl,
            List.all_cons, hx, ih.1, ih.2]
          exact ⟨rfl, rfl⟩
      | false => simp [hx]

/-- The check accepts exactly the whole replies, waits on every strict prefix
of one, and the loop of `records_to_json` sees their records in order: all of
them, or those up to the first with a field named tag, where it gives up. -/
theorem reply_recognised_iff_whole (buf : Bytes) (final : KvKind) (hfinal : final.Ends) :
    (kvReplyCheck buf = final ↔ ∃ recs, IsReply final recs buf) ∧
    ∀ recs, IsReply final recs buf →
      (∀ p, p <+: buf → p ≠ buf → kvReplyCheck p = .incomplete) ∧
      recordsSeen (buf.length + 1) buf =
        recs.takeWhile untagged ++ (recs.dropWhile untagged).take 1 ∧
      ((∀ rec ∈ recs, kvGet rec tagKey = none) → recordsSeen (buf.length + 1) buf = recs) ∧
      ∀ j, recordsFrom (buf.length + 1) buf j =
        (recs.all untagged, run JsonWriter.exec j ((recs.takeWhile untagged).flatMap recordCalls)) := by
  refine ⟨replyCheck_eq_iff hfinal buf, ?_⟩
  intro recs h
  have hseen := h.recordsSeen_eq hfinal (Nat.lt_succ_self _)
  refine ⟨?_, hseen, ?_, ?_⟩
  · intro p hp hne
    have hlen : p.length < buf.length :=
      lt_of_le_of_ne hp.length_le fun heq => hne (hp.eq_of_length heq)
    exact h.replyCheckFrom_cut hfinal hp hlen (Nat.lt_succ_self _)
  · intro hall
    have huntagged : ∀ rec ∈ recs, untagged rec = true := by
      intro rec hrec
      rw [untagged, hall rec hrec]
      rfl
    rw [hseen, List.takeWhile_eq_self_iff.mpr huntagged, List.dropWhile_eq_nil_iff.mpr huntagged]
    simp
  · intro j
    obtain ⟨htake, hall⟩ := takeWhile_upToFirst untagged recs
    rw [recordsFrom_eq_seen, hseen, htake, hall]

/-- A record with a field named tag, and one behind it. -/
def taggedReply : Bytes := ascii "a tag=1\nb\nok\n"

/-- The records of `taggedReply`. -/
def taggedRecords : List KvLine := [⟨ascii "a", [⟨tagKey, ascii "1", .num⟩]⟩, ⟨ascii "b", []⟩]

theorem taggedReply_isReply : IsReply .ok taggedRecords taggedReply :=
  @IsReply.record .ok (ascii "a tag=1") [0x0A] (ascii "b\nok\n") _ _ (by decide +kernel) (.inl rfl)
    (@IsReply.record .ok (ascii "b") [0x0A] (ascii "ok\n") _ _ (by decide +kernel) (.inl rfl)
      (@IsReply.last .ok (ascii "ok") [0x0A] (by decide +kernel) (.inl rfl)))

/-- The record behind a field named tag is not seen, in a reply that is
accepted. -/
theorem record_behind_tag_not_seen :
    kvReplyCheck taggedReply = .ok ∧ IsReply .ok taggedRecords taggedReply ∧
      recordsSeen (taggedReply.length + 1) taggedReply ≠ taggedRecords ∧
      ⟨ascii "b", []⟩ ∉ recordsSeen (taggedReply.length + 1) taggedReply := by
  refine ⟨by decide +kernel, taggedReply_isReply, by decide +kernel, by decide +kernel⟩

/-- Two records on lines of either kind, and every strict prefix of them. -/
theorem reply_recognised_crlf :
    KvKind.Ends .ok ∧ IsReply .ok [⟨ascii "b", []⟩] (ascii "b\r\nok\n") ∧
      kvReplyCheck (ascii "b\r") = .incomplete ∧
      recordsSeen 8 (ascii "b\r\nok\n") = [⟨ascii "b", []⟩] := by
  have hreply : IsReply .ok [⟨ascii "b", []⟩] (ascii "b\r\nok\n") :=
    @IsReply.record .ok (ascii "b") [0x0D, 0x0A] (ascii "ok\n") _ _ (by decide +kernel) (.inr rfl)
      (@IsReply.last .ok (ascii "ok") [0x0A] (by decide +kernel) (.inl rfl))
  obtain ⟨hcut, -, hseen, -⟩ :=
    (reply_recognised_iff_whole (ascii "b\r\nok\n") .ok (.inl rfl)).2 _ hreply
  refine ⟨.inl rfl, hreply, ?_, ?_⟩
  · exact hcut (ascii "b\r") ⟨ascii "\nok\n", by decide +kernel⟩ (by decide +kernel)
  · exact hseen (by decide +kernel)

end Carwatch.Interface
