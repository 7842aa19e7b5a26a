import Carwatch.Interface.JsonTree

/-!
# Carwatch.Interface.Construction — when the JSON writer fails

`json_finish` answers once for all calls before it. `Describes` says which
sequences of calls are the construction of one value; this module proves that
the writer is content with exactly these, if their text fits.

* `Spells` — the calls that led to a document on its way, container by
  container; `call_spells` extends them by one call;
* `describes_of_plan` — a sequence of calls with a plan that ends done
  describes a value;
* `terminated_run`, `run_of_failed` — what holds of the buffer at every point,
  failed or not. `overwrite` past the end of a buffer makes it longer, so that
  no byte behind the buffer was written is that it has its length.
-/

namespace Carwatch.Interface

open Carwatch.Lib

/-! ## The calls behind a document on its way -/

/-- The calls since an open container was begun, with `d` more containers to
open inside it. -/
def JsonFrame.SpelledBy (d : ℕ) (cs : List JsonCall) : JsonFrame → Prop
  | .arr vs => ∃ is, Describes d (.items vs) is ∧ cs = .beginArray :: is
  | .obj ms none => ∃ is, Describes d (.members ms) is ∧ cs = .beginObject :: is
  | .obj ms (some k) => ∃ is, Describes d (.members ms) is ∧ IsAscii k ∧
      cs = .beginObject :: (is ++ [.key (some k)])

/-- The calls that opened these containers, innermost first, and filled them
as far as they are. -/
inductive Spells : List JsonFrame → List JsonCall → Prop where
  | nil : Spells [] []
  | cons {f : JsonFrame} {fs : List JsonFrame} {cs is : List JsonCall} (h : Spells fs cs)
      (hdepth : fs.length < jsonMaxDepth) (hf : f.SpelledBy (jsonMaxDepth - (fs.length + 1)) is) :
      Spells (f :: fs) (cs ++ is)

/-- The calls that led to a document. -/
def JsonBuild.SpelledBy (cs : List JsonCall) : JsonBuild → Prop
  | .whole v => Describes jsonMaxDepth (.value v) cs
  | .opened fs => Spells fs cs

/-- A value at the place the document has come to. -/
theorem value_spells {fs : List JsonFrame} {cs vcs : List JsonCall} (h : Spells fs cs) {v : Json}
    (hv : Describes (jsonMaxDepth - fs.length) (.value v) vcs) {b : JsonBuild}
    (hb : JsonBuild.value v (.opened fs) = some b) : b.SpelledBy (cs ++ vcs) := by
  cases h with
  | nil =>
      rw [← Option.some.inj hb]
      exact hv
  | @cons f fs cs is hfs hdepth hf =>
      rw [List.append_assoc]
      cases f with
      | arr vs =>
          rw [← Option.some.inj hb]
          rcases hf with ⟨items, hitems, rfl⟩
          exact .cons hfs hdepth ⟨items ++ vcs, .item hitems hv, rfl⟩
      | obj ms k =>
          cases k with
          | none => cases hb
          | some k =>
              rw [← Option.some.inj hb]
              rcases hf with ⟨members, hmembers, hk, rfl⟩
              refine .cons hfs hdepth ⟨members ++ .key (some k) :: vcs, .member hmembers hk hv, ?_⟩
              rw [List.cons_append, List.append_assoc]
              rfl

/-- A document that takes a value is still open. -/
theorem opened_of_value {b d : JsonBuild} {v : Json} (h : b.value v = some d) :
    ∃ fs, b = .opened fs := by
  cases b with
  | whole w => cases h
  | opened fs => exact ⟨fs, rfl⟩

/-- A call that is a whole value. -/
theorem scalar_spells {b d : JsonBuild} {cs : List JsonCall} (h : b.SpelledBy cs) {v : Json}
    {c : JsonCall} (hc : ∀ n, Describes n (.value v) [c]) (hd : b.value v = some d) :
    d.SpelledBy (cs ++ [c]) := by
  rcases opened_of_value hd with ⟨fs, rfl⟩
  exact value_spells h (hc _) hd

/-- The begin of a container, when there is a level left for it. -/
theorem enter_spells {b d : JsonBuild} {cs : List JsonCall} (h : b.SpelledBy cs) {f : JsonFrame}
    {c : JsonCall} (hc : ∀ n, f.SpelledBy n [c]) (hd : b.enter f = some d)
    (hdepth : ∀ fs, b = .opened fs → fs.length < jsonMaxDepth) : d.SpelledBy (cs ++ [c]) := by
  unfold JsonBuild.enter at hd
  split at hd
  · cases hd
  · cases hd
  · rw [← Option.some.inj hd]
    exact .cons h (hdepth _ rfl) (hc _)

/-- The end of a container, which is then a value of the one around it. -/
theorem leave_spells {f : JsonFrame} {fs : List JsonFrame} {cs : List JsonCall}
    (h : Spells (f :: fs) cs) {v : Json} {c : JsonCall}
    (hv : ∀ n is, f.SpelledBy n is → Describes (n + 1) (.value v) (is ++ [c])) {d : JsonBuild}
    (hd : JsonBuild.value v (.opened fs) = some d) : d.SpelledBy (cs ++ [c]) := by
  cases h with
  | @cons _ _ cs is hfs hdepth hf =>
      have hlevel : jsonMaxDepth - fs.length = jsonMaxDepth - (fs.length + 1) + 1 := by omega
      have hvalue := hv _ is hf
      rw [← hlevel] at hvalue
      rw [List.append_assoc]
      exact value_spells hfs hvalue hd

/-- The writer begins a container only while there is a level left. -/
theorem depth_of_enter {b : JsonBuild} (hb : b.Ok) {object : Bool} {p : JsonPos} {out : Bytes}
    (h : b.pos.enter object = some (p, out)) :
    ∀ fs, b = .opened fs → fs.length < jsonMaxDepth := by
  rcases andThen_eq_some h with ⟨q, comma, text, hlead, hnext, -⟩
  rcases lead_due hb hlead with ⟨fs, rfl, -, rfl, -⟩
  rintro fs' hfs'
  have hlen : (duePos fs).opened.length = fs'.length := by
    rw [JsonBuild.opened.inj hfs']
    exact List.length_map _
  by_contra hfull
  rw [if_pos (by rw [hlen]; exact Nat.not_lt.mp hfull)] at hnext
  cases hnext

/-- The writer takes a key of ASCII text only. -/
theorem isAscii_of_name {p q : JsonPos} {k out : Bytes}
    (h : p.call (.key (some k)) = some (q, out)) : IsAscii k := by
  apply isAscii_of_any
  by_contra hany
  rw [Bool.not_eq_false] at hany
  unfold JsonPos.call JsonPos.name at h
  dsimp only at h
  rw [hany] at h
  split at h
  · cases h
  · rw [Bool.or_true, if_pos rfl] at h
    cases h

/-- One call goes on with the construction. -/
theorem call_spells {b d : JsonBuild} (hb : b.Ok) {cs : List JsonCall} (h : b.SpelledBy cs)
    {c : JsonCall} {p : JsonPos} {out : Bytes} (hplan : b.pos.call c = some (p, out))
    (hd : b.call c = some d) : d.SpelledBy (cs ++ [c]) := by
  cases c with
  | beginObject =>
      exact @enter_spells b d cs h (.obj [] none) _ (fun n => ⟨[], .noMembers n, rfl⟩) hd
        (depth_of_enter hb hplan)
  | beginArray =>
      exact @enter_spells b d cs h (.arr []) _ (fun n => ⟨[], .noItems n, rfl⟩) hd
        (depth_of_enter hb hplan)
  | endObject =>
      unfold JsonBuild.call at hd
      dsimp only at hd
      split at hd
      · refine leave_spells h ?_ hd
        rintro n is ⟨members, hmembers, rfl⟩
        exact .object hmembers
      · cases hd
  | endArray =>
      unfold JsonBuild.call at hd
      dsimp only at hd
      split at hd
      · refine leave_spells h ?_ hd
        rintro n is ⟨items, hitems, rfl⟩
        exact .array hitems
      · cases hd
  | key k =>
      unfold JsonBuild.call at hd
      dsimp only at hd
      split at hd
      -- a name leaves the object open, and waits for its value
      · rw [← Option.some.inj hd]
        cases h with
        | @cons f fs cs is hfs hdepth hf =>
            rcases hf with ⟨members, hmembers, rfl⟩
            rw [List.append_assoc]
            exact .cons hfs hdepth ⟨members, hmembers, isAscii_of_name hplan, rfl⟩
      · cases hd
  | string s =>
      cases s with
      | none => cases hd
      | some s =>
          refine scalar_spells h (fun n => .string n ?_) hd
          -- a string beyond ASCII would have been refused by the plan
          by_contra hs
          have hany : s.any (0x80 ≤ ·) = true := by
            by_contra hnot
            exact hs (isAscii_of_any (Bool.eq_false_of_not_eq_true hnot))
          unfold JsonPos.call at hplan
          dsimp only at hplan
          rw [if_pos hany] at hplan
          cases hplan
  | int v => exact scalar_spells h (fun n => .int n v) hd
  | uint v => exact scalar_spells h (fun n => .uint n v) hd
  | bool v => exact scalar_spells h (fun n => .bool n v) hd
  | null => exact scalar_spells h .null hd
  | number t =>
      cases t with
      | none => cases hd
      | some t =>
          refine scalar_spells h (fun n => .number n ?_) hd
          -- so would a text that is no number
          by_contra ht
          have hbad : (!jsonIsNumber t) = true := by
            rw [Bool.not_eq_true']
            exact Bool.eq_false_of_not_eq_true fun hok => ht ((jsonIsNumber_iff t).mp hok)
          unfold JsonPos.call at hplan
          dsimp only at hplan
          rw [if_pos hbad] at hplan
          cases hplan

/-- So does a sequence of calls. -/
theorem calls_spell {b : JsonBuild} (hb : b.Ok) {pre : List JsonCall} (h : b.SpelledBy pre)
    (cs : List JsonCall) {p : JsonPos} {out : Bytes} (hplan : b.pos.calls cs = some (p, out)) :
    ∃ d, b.calls cs = some d ∧ d.SpelledBy (pre ++ cs) := by
  induction cs generalizing b pre out with
  | nil =>
      refine ⟨b, rfl, ?_⟩
      rw [List.append_nil]
      exact h
  | cons c cs ih =>
      rcases andThen_eq_some hplan with ⟨q, first, rest, hcall, hrest, -⟩
      rcases call_adds hb c hcall with ⟨d, hd, hok, rfl, -⟩
      rcases ih hok (call_spells hb h hcall hd) hrest with ⟨e, he, hspells⟩
      refine ⟨e, ?_, ?_⟩
      · show (b.call c).bind _ = some e
        rw [hd, Option.bind_some, he]
      · rwa [List.append_assoc] at hspells

/-- The calls of a plan that ends done describe a value, and the plan is its
text. -/
theorem describes_of_plan {cs : List JsonCall} {pos : JsonPos} {text : Bytes}
    (hplan : JsonPos.calls {} cs = some (pos, text)) (hdone : pos.done = true) :
    ∃ v, Describes jsonMaxDepth (.value v) cs ∧ v.render = text := by
  rcases calls_add jsonBuild_start_ok cs hplan with ⟨d, hd, -, rfl, htext⟩
  rcases whole_of_done hdone with ⟨v, rfl⟩
  have hstart : (JsonBuild.opened []).SpelledBy [] := Spells.nil
  rcases calls_spell jsonBuild_start_ok hstart cs hplan with ⟨d, hd', hspells⟩
  rw [hd] at hd'
  rw [← Option.some.inj hd'] at hspells
  exact ⟨v, hspells, htext⟩

/-! ## The buffer at every point -/

/-- The text of a buffer that is not empty ends in a NUL. -/
def JsonWriter.Terminated (j : JsonWriter) : Prop :=
  0 < j.cap → j.len < j.cap ∧ j.buf[j.len]? = some 0

theorem terminated_put {j : JsonWriter} (s : Bytes) (h : j.Terminated) : (put j s).Terminated := by
  intro hcap
  rw [cap_put] at hcap ⊢
  unfold put
  by_cases hfail : j.failed = true
  · rw [if_pos hfail]
    exact h hcap
  · rw [if_neg hfail]
    by_cases hroom : s.length ≥ j.cap - j.len
    · rw [if_pos hroom]
      exact h hcap
    · rw [if_neg hroom]
      have hlen : j.len + s.length < j.cap := by omega
      refine ⟨hlen, ?_⟩
      -- the NUL stands behind the bytes written
      have htake : (j.buf.take j.len).length = j.len := by
        rw [List.length_take]
        exact Nat.min_eq_left (Nat.le_of_lt (h hcap).1)
      show (overwrite j.buf j.len (s ++ [0]))[j.len + s.length]? = some 0
      rw [overwrite, List.getElem?_append_right (by omega), htake, Nat.add_sub_cancel_left,
        List.append_assoc, List.getElem?_append_right (Nat.le_refl _), Nat.sub_self]
      rfl

theorem kept_terminated : Kept JsonWriter.Terminated where
  put s h := terminated_put s h
  fail h := h
  move _ h := h

theorem terminated_jsonInit (buf : Bytes) : (jsonInit buf).Terminated := by
  intro hcap
  rw [cap_jsonInit] at hcap ⊢
  unfold jsonInit
  rw [if_neg (by omega)]
  exact ⟨hcap, rfl⟩

/-- Whatever is called, the buffer keeps its size and holds a text that ends
in a NUL. -/
theorem terminated_run (buf : Bytes) (cs : List JsonCall) :
    (run JsonWriter.exec (jsonInit buf) cs).Terminated :=
  kept_terminated.run (terminated_jsonInit buf) cs

/-- After a failure nothing is written. -/
theorem run_of_failed {j : JsonWriter} (h : j.failed = true) (cs : List JsonCall) :
    (run JsonWriter.exec j cs).buf = j.buf ∧ (run JsonWriter.exec j cs).len = j.len :=
  ((kept_stuck j.buf j.len).run ⟨h, rfl, rfl⟩ cs).2

/-! ## When the writer fails -/

/-- `json_finish` returns a length exactly when the calls describe one value
whose text fits with its NUL. -/
theorem jsonFinish_isSome_iff (buf : Bytes) (cs : List JsonCall) :
    (jsonFinish (run JsonWriter.exec (jsonInit buf) cs)).isSome = true ↔
      ∃ v, Describes jsonMaxDepth (.value v) cs ∧ v.render.length + 1 ≤ buf.length := by
  constructor
  · intro h
    rcases Option.isSome_iff_exists.mp h with ⟨n, hn⟩
    rcases holds_of_jsonFinish hn with ⟨pos, text, hplan, hdone, -, hj⟩
    rcases describes_of_plan hplan hdone with ⟨v, hv, rfl⟩
    exact ⟨v, hv, hj.lt⟩
  · rintro ⟨v, hv, hfits⟩
    have hfinish := hv.jsonFinish_eq buf
    rw [if_pos (Nat.lt_of_succ_le hfits)] at hfinish
    rw [hfinish.1]
    rfl

/-- For every buffer and all calls: `json_finish` returns -1 exactly when the
calls are not the construction of one value, or its text and a NUL do not fit;
at every point the buffer has its size and ends its text with a NUL; and after
a failure no call changes the buffer or `len`. -/
theorem json_writer_fails_iff (buf : Bytes) (cs : List JsonCall) :
    (jsonFinish (run JsonWriter.exec (jsonInit buf) cs) = none ↔
      ∀ v, Describes jsonMaxDepth (.value v) cs → buf.length < v.render.length + 1) ∧
    (run JsonWriter.exec (jsonInit buf) cs).buf.length = buf.length ∧
    (0 < buf.length →
      (run JsonWriter.exec (jsonInit buf) cs).len < buf.length ∧
      (run JsonWriter.exec (jsonInit buf) cs).buf[(run JsonWriter.exec (jsonInit buf) cs).len]? =
        some 0) ∧
    ∀ later, (run JsonWriter.exec (jsonInit buf) cs).failed = true →
      (run JsonWriter.exec (jsonInit buf) (cs ++ later)).buf =
        (run JsonWriter.exec (jsonInit buf) cs).buf ∧
      (run JsonWriter.exec (jsonInit buf) (cs ++ later)).len =
        (run JsonWriter.exec (jsonInit buf) cs).len := by
  have hcap : (run JsonWriter.exec (jsonInit buf) cs).cap = buf.length :=
    (cap_run _ cs).trans (cap_jsonInit buf)
  refine ⟨?_, hcap, ?_, ?_⟩
  -- the writer succeeds exactly on a description whose text fits
  · rw [← Option.not_isSome_iff_eq_none, jsonFinish_isSome_iff]
    constructor
    · intro h v hv
      exact Nat.lt_of_not_le fun hfits => h ⟨v, hv, hfits⟩
    · rintro h ⟨v, hv, hfits⟩
      exact absurd (h v hv) (Nat.not_lt.mpr hfits)
  · intro hpos
    have hterm := terminated_run buf cs
    unfold JsonWriter.Terminated at hterm
    rw [hcap] at hterm
    exact hterm hpos
  · intro later hfail
    rw [run_append]
    exact run_of_failed hfail later

end Carwatch.Interface
