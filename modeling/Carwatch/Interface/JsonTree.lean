import Carwatch.Interface.Json
import Mathlib.Data.List.Induction

/-!
# Carwatch.Interface.JsonTree — the document a writer's calls describe

What the text that `json.c` writes means, and that it means what was asked
for:

* `denote` — the value tree that a sequence of calls describes;
* `call_adds` — a document on its way has a text and a position, and a call
  moves both the way its plan says;
* `json_writer_sound` — the finished text is JSON and parses to the tree the
  calls denote;
* `Describes` — the calls that construct a value, as a grammar;
  `Describes.jsonFinish_eq` — the other way: they write its text, if that
  fits. `jsonFinish_treeCalls` is the case of one sequence for each tree.
-/

namespace Carwatch.Interface

open Carwatch.Lib

/-! ## What the calls describe -/

/-- A container that is being described: its parts so far, and in an object
the key whose value comes next. -/
inductive JsonFrame where
  | arr (items : List Json)
  | obj (members : List (Bytes × Json)) (key : Option Bytes)

/-- A document that is being described: the open containers, innermost first,
or the whole value. -/
inductive JsonBuild where
  | opened (frames : List JsonFrame)
  | whole (v : Json)

/-- A value at the place the document has come to. -/
def JsonBuild.value (v : Json) : JsonBuild → Option JsonBuild
  | .whole _ => none
  | .opened [] => some (.whole v)
  | .opened (.arr vs :: below) => some (.opened (.arr (vs ++ [v]) :: below))
  | .opened (.obj _ none :: _) => none
  | .opened (.obj ms (some k) :: below) => some (.opened (.obj (ms ++ [(k, v)]) none :: below))

/-- A container at the place the document has come to. -/
def JsonBuild.enter (frame : JsonFrame) : JsonBuild → Option JsonBuild
  | .whole _ => none
  | .opened (.obj _ none :: _) => none
  | .opened frames => some (.opened (frame :: frames))

/-- What one call adds to the document. -/
def JsonBuild.call (b : JsonBuild) : JsonCall → Option JsonBuild
  | .beginObject => b.enter (.obj [] none)
  | .endObject =>
      match b with
      | .opened (.obj ms none :: below) => JsonBuild.value (.obj ms) (.opened below)
      | _ => none
  | .beginArray => b.enter (.arr [])
  | .endArray =>
      match b with
      | .opened (.arr vs :: below) => JsonBuild.value (.arr vs) (.opened below)
      | _ => none
  | .key k =>
      match k, b with
      | some k, .opened (.obj ms none :: below) => some (.opened (.obj ms (some k) :: below))
      | _, _ => none
  | .string s => s.bind fun s => b.value (.str s)
  | .int v => b.value (.num (printInt v))
  | .uint v => b.value (.num (printUint v))
  | .bool v => b.value (.bool v)
  | .null => b.value .null
  | .number t => t.bind fun t => b.value (.num t)

/-- What a sequence of calls adds to the document. -/
def JsonBuild.calls (b : JsonBuild) : List JsonCall → Option JsonBuild
  | [] => some b
  | c :: cs => (b.call c).bind fun b => JsonBuild.calls b cs

/-- The value tree that a sequence of calls denotes. -/
def denote (cs : List JsonCall) : Option Json :=
  match JsonBuild.calls (.opened []) cs with
  | some (.whole v) => some v
  | _ => none

/-! ### The text of a document on its way -/

/-- The text of an open container up to where it has come. -/
def JsonFrame.text : JsonFrame → Bytes
  | .arr vs => 0x5B :: itemsText vs
  | .obj ms none => 0x7B :: membersText ms
  | .obj ms (some k) => 0x7B :: membersText ms ++ (sep ms ++ (renderString k ++ [0x3A]))

/-- The same up to a value that comes next, with the comma before it. -/
def JsonFrame.lead : JsonFrame → Bytes
  | .arr vs => (JsonFrame.arr vs).text ++ sep vs
  | .obj ms k => (JsonFrame.obj ms k).text

/-- The flags of the innermost container. -/
def JsonFrame.mark : JsonFrame → JsonOpen
  | .arr vs => ⟨false, !vs.isEmpty⟩
  | .obj ms k => ⟨true, !ms.isEmpty || k.isSome⟩

/-- The flags of a container with another one open inside it. -/
def JsonFrame.outerMark : JsonFrame → JsonOpen
  | .arr _ => ⟨false, true⟩
  | .obj _ _ => ⟨true, true⟩

/-- `after_key`, when the container is the innermost. -/
def JsonFrame.keyed : JsonFrame → Bool
  | .arr _ => false
  | .obj _ k => k.isSome

/-- A value may come next. -/
def JsonFrame.Waits : JsonFrame → Prop
  | .arr _ => True
  | .obj _ k => k.isSome = true

/-- The parts so far can be written. -/
def JsonFrame.Plain : JsonFrame → Prop
  | .arr vs => ∀ v ∈ vs, v.Plain
  | .obj ms k => (∀ m ∈ ms, IsAscii m.1 ∧ m.2.Plain) ∧ ∀ k' ∈ k, IsAscii k'

/-- The text before a value that goes into the innermost container. -/
def leadText : List JsonFrame → Bytes
  | [] => []
  | f :: fs => leadText fs ++ f.lead

/-- The text of a document up to where it has come. -/
def JsonBuild.text : JsonBuild → Bytes
  | .whole v => v.render
  | .opened [] => []
  | .opened (f :: fs) => leadText fs ++ f.text

/-- Where the writer stands in such a document. -/
def JsonBuild.pos : JsonBuild → JsonPos
  | .whole _ => { done := true }
  | .opened [] => {}
  | .opened (f :: fs) => { opened := f.mark :: fs.map JsonFrame.outerMark, afterKey := f.keyed }

/-- Every part can be written, and every container but the innermost waits for
the value that is being described inside it. -/
def JsonBuild.Ok : JsonBuild → Prop
  | .whole v => v.Plain
  | .opened fs => (∀ f ∈ fs, f.Plain) ∧ ∀ f ∈ fs.tail, f.Waits

/-- The position with a value due in the innermost of these containers. -/
def duePos (fs : List JsonFrame) : JsonPos := { opened := fs.map JsonFrame.outerMark }

/-- `begin_value` lets a value in exactly where the document has a place for
it. -/
theorem lead_due {b : JsonBuild} (hb : b.Ok) {p : JsonPos} {out : Bytes}
    (h : b.pos.lead = some (p, out)) :
    ∃ fs, b = .opened fs ∧ (∀ f ∈ fs, f.Plain ∧ f.Waits) ∧ p = duePos fs ∧
      leadText fs = b.text ++ out := by
  cases b with
  | whole v => cases h
  | opened fs =>
      refine ⟨fs, rfl, ?_⟩
      cases fs with
      | nil =>
          have hsome : (({} : JsonPos), ([] : Bytes)) = (p, out) := Option.some.inj h
          rw [Prod.mk.injEq] at hsome
          rcases hsome with ⟨rfl, rfl⟩
          exact ⟨fun f hf => absurd hf List.not_mem_nil, rfl, rfl⟩
      | cons f fs =>
          rcases hb with ⟨hplain, hwaits⟩
          -- the frames below wait anyway; whether the innermost does is the question
          have hall : f.Waits → ∀ g ∈ f :: fs, g.Plain ∧ g.Waits := by
            intro hf g hg
            refine ⟨hplain g hg, ?_⟩
            rcases List.mem_cons.mp hg with rfl | hin
            · exact hf
            · exact hwaits g hin
          cases f with
          | arr vs =>
              have hsome : ((⟨⟨false, true⟩ :: fs.map JsonFrame.outerMark, false, false⟩ : JsonPos),
                  if !vs.isEmpty then [0x2C] else []) = (p, out) := Option.some.inj h
              rw [Prod.mk.injEq] at hsome
              rcases hsome with ⟨rfl, rfl⟩
              refine ⟨hall trivial, rfl, ?_⟩
              show leadText fs ++ ((JsonFrame.arr vs).text ++ sep vs) =
                leadText fs ++ (JsonFrame.arr vs).text ++ _
              rw [List.append_assoc]
              cases vs with
              | nil => rfl
              | cons v vs => rfl
          | obj ms k =>
              cases k with
              | none => cases h
              | some k =>
                  have hsome : ((⟨⟨true, !ms.isEmpty || true⟩ :: fs.map JsonFrame.outerMark, false,
                      false⟩ : JsonPos), ([] : Bytes)) = (p, out) := Option.some.inj h
                  rw [Prod.mk.injEq, Bool.or_true] at hsome
                  rcases hsome with ⟨rfl, rfl⟩
                  refine ⟨hall rfl, rfl, ?_⟩
                  rw [List.append_nil]
                  rfl

/-- A value at a place that waits for one. -/
theorem value_due {fs : List JsonFrame} (hfs : ∀ f ∈ fs, f.Plain ∧ f.Waits) {v : Json}
    (hv : v.Plain) : ∃ b, JsonBuild.value v (.opened fs) = some b ∧ b.Ok ∧
      b.pos = (duePos fs).ended ∧ b.text = leadText fs ++ v.render := by
  cases fs with
  | nil => exact ⟨.whole v, rfl, hv, rfl, rfl⟩
  | cons f fs =>
      have hrest : ∀ g ∈ fs, g.Plain ∧ g.Waits := fun g hg => hfs g (List.mem_cons_of_mem f hg)
      have hf := hfs f List.mem_cons_self
      -- the containers around it do not change
      have hok : ∀ f' : JsonFrame, f'.Plain → JsonBuild.Ok (.opened (f' :: fs)) := by
        intro f' hf'
        refine ⟨?_, fun g hg => (hrest g hg).2⟩
        intro g hg
        rcases List.mem_cons.mp hg with rfl | hin
        · exact hf'
        · exact (hrest g hin).1
      cases f with
      | arr vs =>
          have hsome : (vs ++ [v]).isEmpty = false := by simp
          refine ⟨_, rfl, hok _ ?_, ?_, ?_⟩
          · intro w hw
            rcases List.mem_append.mp hw with hin | hlast
            · exact hf.1 w hin
            · rw [List.mem_singleton.mp hlast]
              exact hv
          · show JsonPos.mk (⟨false, !(vs ++ [v]).isEmpty⟩ :: fs.map JsonFrame.outerMark) false false =
              ⟨⟨false, true⟩ :: fs.map JsonFrame.outerMark, false, false⟩
            rw [hsome]
            rfl
          · show leadText fs ++ 0x5B :: itemsText (vs ++ [v]) =
              leadText fs ++ (0x5B :: itemsText vs ++ sep vs) ++ v.render
            rw [itemsText_append]
            simp only [List.append_assoc, List.cons_append]
      | obj ms k =>
          cases k with
          | none => cases hf.2
          | some k =>
              have hsome : (ms ++ [(k, v)]).isEmpty = false := by simp
              refine ⟨_, rfl, hok _ ?_, ?_, ?_⟩
              · refine ⟨?_, fun k' hk' => by cases hk'⟩
                intro m hm
                rcases List.mem_append.mp hm with hin | hlast
                · exact hf.1.1 m hin
                · rw [List.mem_singleton.mp hlast]
                  exact ⟨hf.1.2 k rfl, hv⟩
              · show JsonPos.mk (⟨true, !(ms ++ [(k, v)]).isEmpty || false⟩ ::
                    fs.map JsonFrame.outerMark) false false =
                  ⟨⟨true, true⟩ :: fs.map JsonFrame.outerMark, false, false⟩
                rw [hsome]
                rfl
              · show leadText fs ++ 0x7B :: membersText (ms ++ [(k, v)]) =
                  leadText fs ++ (0x7B :: membersText ms ++ (sep ms ++ (renderString k ++ [0x3A]))) ++
                    v.render
                rw [membersText_append]
                simp only [List.append_assoc, List.cons_append, List.nil_append]

/-- A call that the writer has a plan for adds to the document what the plan
says. -/
def Adds (b : JsonBuild) (b' : Option JsonBuild) (p : JsonPos) (out : Bytes) : Prop :=
  ∃ d, b' = some d ∧ d.Ok ∧ p = d.pos ∧ d.text = b.text ++ out

theorem andThen_eq_some {plan : Option (JsonPos × Bytes)}
    {next : JsonPos → Option (JsonPos × Bytes)} {p : JsonPos} {out : Bytes}
    (h : andThen plan next = some (p, out)) :
    ∃ q a b, plan = some (q, a) ∧ next q = some (p, b) ∧ out = a ++ b := by
  unfold andThen at h
  rcases plan with _ | ⟨q, a⟩
  · cases h
  · dsimp only at h
    cases hn : next q with
    | none =>
        rw [hn] at h
        cases h
    | some r =>
        rw [hn] at h
        have hsome := Option.some.inj h
        rw [Prod.mk.injEq] at hsome
        refine ⟨q, a, r.2, rfl, ?_, hsome.2.symm⟩
        rw [hn, ← hsome.1]

theorem scalar_adds {b : JsonBuild} (hb : b.Ok) {v : Json} (hv : v.Plain) {p : JsonPos}
    {out : Bytes} (h : b.pos.scalar v.render = some (p, out)) : Adds b (b.value v) p out := by
  rcases andThen_eq_some h with ⟨q, comma, text, hlead, hnext, rfl⟩
  rcases lead_due hb hlead with ⟨fs, rfl, hfs, rfl, htext⟩
  rcases value_due hfs hv with ⟨d, hd, hok, hpos, hdtext⟩
  rw [Option.some.injEq, Prod.mk.injEq] at hnext
  refine ⟨d, hd, hok, ?_, ?_⟩
  · rw [hpos, ← hnext.1]
  · rw [hdtext, htext, ← hnext.2, List.append_assoc]

/-- A container at a place that waits for a value. -/
theorem enter_due {fs : List JsonFrame} (hfs : ∀ f ∈ fs, f.Plain ∧ f.Waits) (frame : JsonFrame) :
    JsonBuild.enter frame (.opened fs) = some (.opened (frame :: fs)) := by
  cases fs with
  | nil => rfl
  | cons f fs =>
      have hwaits := (hfs f List.mem_cons_self).2
      cases f with
      | arr vs => rfl
      | obj ms k =>
          cases k with
          | none => cases hwaits
          | some k => rfl

theorem enter_adds {b : JsonBuild} (hb : b.Ok) (object : Bool) {p : JsonPos} {out : Bytes}
    (h : b.pos.enter object = some (p, out)) :
    Adds b (b.enter (if object then .obj [] none else .arr [])) p out := by
  rcases andThen_eq_some h with ⟨q, comma, text, hlead, hnext, rfl⟩
  rcases lead_due hb hlead with ⟨fs, rfl, hfs, rfl, htext⟩
  by_cases hdepth : (duePos fs).opened.length ≥ jsonMaxDepth
  · rw [if_pos hdepth] at hnext
    cases hnext
  · rw [if_neg hdepth, Option.some.injEq, Prod.mk.injEq] at hnext
    rcases hnext with ⟨rfl, rfl⟩
    refine ⟨_, enter_due hfs _, ?_, ?_, ?_⟩
    · refine ⟨?_, fun f hf => (hfs f hf).2⟩
      intro f hf
      rcases List.mem_cons.mp hf with rfl | hin
      · cases object with
        | true => exact ⟨fun m hm => absurd hm List.not_mem_nil, fun k hk => by cases hk⟩
        | false => exact fun v hv => absurd hv List.not_mem_nil
      · exact (hfs f hin).1
    · cases object with
      | true => rfl
      | false => rfl
    · rw [← List.append_assoc, ← htext]
      cases object with
      | true => rfl
      | false => rfl

/-- The end of a container whose value this is. -/
theorem close_adds {f : JsonFrame} {fs : List JsonFrame} (hb : (JsonBuild.opened (f :: fs)).Ok)
    {v : Json} (hv : v.Plain) {c : Bytes} (htext : v.render = f.text ++ c) :
    Adds (.opened (f :: fs)) (JsonBuild.value v (.opened fs)) (duePos fs).ended c := by
  have hfs : ∀ g ∈ fs, g.Plain ∧ g.Waits :=
    fun g hg => ⟨hb.1 g (List.mem_cons_of_mem f hg), hb.2 g hg⟩
  rcases value_due hfs hv with ⟨d, hd, hok, hpos, hdtext⟩
  refine ⟨d, hd, hok, hpos.symm, ?_⟩
  show d.text = leadText fs ++ f.text ++ c
  rw [hdtext, htext, List.append_assoc]

theorem leave_adds {b : JsonBuild} (hb : b.Ok) (object : Bool) {p : JsonPos} {out : Bytes}
    (h : b.pos.leave object = some (p, out)) :
    Adds b (b.call (if object then .endObject else .endArray)) p out := by
  cases b with
  | whole v => cases h
  | opened fs =>
      cases fs with
      | nil => cases h
      | cons f fs =>
          cases f with
          | arr vs =>
              cases object with
              | true => cases h
              -- the end has to be that of the innermost container
              | false =>
                  have hsome : ((duePos fs).ended, [0x5D]) = (p, out) := Option.some.inj h
                  rw [Prod.mk.injEq] at hsome
                  rcases hsome with ⟨rfl, rfl⟩
                  refine close_adds hb (.arr (hb.1 _ List.mem_cons_self)) ?_
                  rw [render_arr]
                  rfl
          | obj ms k =>
              cases object with
              | false => cases h
              | true =>
                  cases k with
                  | some k => cases h
                  -- no name may be waiting for its value
                  | none =>
                      have hsome : ((duePos fs).ended, [0x7D]) = (p, out) := Option.some.inj h
                      rw [Prod.mk.injEq] at hsome
                      rcases hsome with ⟨rfl, rfl⟩
                      have hms := (hb.1 _ List.mem_cons_self).1
                      refine close_adds hb (.obj (fun m hm => (hms m hm).1)
                        fun m hm => (hms m hm).2) ?_
                      rw [render_obj]
                      rfl

theorem isAscii_of_any {s : Bytes} (h : s.any (0x80 ≤ ·) = false) : IsAscii s := by
  intro c hc
  have hnot := List.any_eq_false.mp h c hc
  exact UInt8.not_le.mp (by simpa using hnot)

theorem any_of_isAscii {s : Bytes} (h : IsAscii s) : s.any (0x80 ≤ ·) = false := by
  rw [List.any_eq_false]
  intro c hc
  simpa using UInt8.not_le.mpr (h c hc)

theorem name_adds {b : JsonBuild} (hb : b.Ok) (k : Bytes) {p : JsonPos} {out : Bytes}
    (h : b.pos.name k = some (p, out)) : Adds b (b.call (.key (some k))) p out := by
  cases b with
  | whole v => cases h
  | opened fs =>
      cases fs with
      | nil => cases h
      | cons f fs =>
          cases f with
          | arr vs => cases h
          | obj ms k' =>
              cases k' with
              | some k' => cases h
              | none =>
                  have hplan : (if k.any (0x80 ≤ ·) then none else
                      some ((⟨⟨true, true⟩ :: fs.map JsonFrame.outerMark, true, false⟩ : JsonPos),
                        (if (!ms.isEmpty || false) then [0x2C] else []) ++
                          (renderString k ++ [0x3A]))) = some (p, out) := h
                  -- a name beyond ASCII is refused
                  by_cases hk : k.any (0x80 ≤ ·) = true
                  · rw [if_pos hk] at hplan
                    cases hplan
                  · rw [if_neg hk, Option.some.injEq, Prod.mk.injEq, Bool.or_false] at hplan
                    rcases hplan with ⟨rfl, rfl⟩
                    have hms := (hb.1 _ List.mem_cons_self).1
                    refine ⟨_, rfl, ⟨?_, hb.2⟩, ?_, ?_⟩
                    · intro f hf
                      rcases List.mem_cons.mp hf with rfl | hin
                      · refine ⟨hms, ?_⟩
                        rintro k' hk'
                        rw [← Option.mem_some_iff.mp hk']
                        exact isAscii_of_any (by simpa using hk)
                      · exact hb.1 f (List.mem_cons_of_mem _ hin)
                    · show _ = JsonPos.mk (⟨true, !ms.isEmpty || true⟩ :: _) true false
                      rw [Bool.or_true]
                    · show leadText fs ++ (0x7B :: membersText ms ++
                          (sep ms ++ (renderString k ++ [0x3A]))) =
                        leadText fs ++ 0x7B :: membersText ms ++ _
                      rw [List.append_assoc]
                      cases ms with
                      | nil => rfl
                      | cons m ms => rfl

/-- Every call adds to the document what its plan says. -/
theorem call_adds {b : JsonBuild} (hb : b.Ok) (c : JsonCall) {p : JsonPos} {out : Bytes}
    (h : b.pos.call c = some (p, out)) : Adds b (b.call c) p out := by
  cases c with
  | beginObject => exact enter_adds hb true h
  | endObject => exact leave_adds hb true h
  | beginArray => exact enter_adds hb false h
  | endArray => exact leave_adds hb false h
  | key k =>
      cases k with
      | none => cases h
      | some k => exact name_adds hb k h
  | string s =>
      cases s with
      | none => cases h
      | some s =>
          -- the plan has checked what `Plain` asks of the value
          have hplan : (if s.any (0x80 ≤ ·) then none else b.pos.scalar (renderString s)) =
            some (p, out) := h
          by_cases hs : s.any (0x80 ≤ ·) = true
          · rw [if_pos hs] at hplan
            cases hplan
          · rw [if_neg hs] at hplan
            refine @scalar_adds b hb (.str s) (.str (isAscii_of_any (by simpa using hs))) p out ?_
            rw [Json.render]
            exact hplan
  | int v =>
      refine @scalar_adds b hb (.num (printInt v)) (.num (isNumber_printInt v)) p out ?_
      rw [Json.render]
      exact h
  | uint v =>
      refine @scalar_adds b hb (.num (printUint v)) (.num (isNumber_printUint v)) p out ?_
      rw [Json.render]
      exact h
  | bool v =>
      refine @scalar_adds b hb (.bool v) (.bool v) p out ?_
      cases v with
      | true =>
          rw [Json.render]
          exact h
      | false =>
          rw [Json.render]
          exact h
  | null =>
      refine @scalar_adds b hb .null .null p out ?_
      rw [Json.render]
      exact h
  | number t =>
      cases t with
      | none => cases h
      | some t =>
          have hplan : (if !jsonIsNumber t then none else b.pos.scalar t) = some (p, out) := h
          by_cases ht : jsonIsNumber t = true
          · rw [if_neg (by simp [ht])] at hplan
            refine @scalar_adds b hb (.num t) (.num ((jsonIsNumber_iff t).mp ht)) p out ?_
            rw [Json.render]
            exact hplan
          · rw [if_pos (by simpa using ht)] at hplan
            cases hplan

/-- So does a sequence of calls. -/
theorem calls_add {b : JsonBuild} (hb : b.Ok) (cs : List JsonCall) {p : JsonPos} {out : Bytes}
    (h : b.pos.calls cs = some (p, out)) : Adds b (b.calls cs) p out := by
  induction cs generalizing b out with
  | nil =>
      have hsome : (b.pos, ([] : Bytes)) = (p, out) := Option.some.inj h
      rw [Prod.mk.injEq] at hsome
      rcases hsome with ⟨rfl, rfl⟩
      exact ⟨b, rfl, hb, rfl, (List.append_nil _).symm⟩
  | cons c cs ih =>
      rcases andThen_eq_some h with ⟨q, first, rest, hcall, hrest, rfl⟩
      rcases call_adds hb c hcall with ⟨d, hd, hok, rfl, htext⟩
      rcases ih hok hrest with ⟨e, he, heok, hepos, hetext⟩
      refine ⟨e, ?_, heok, hepos, ?_⟩
      · show (b.call c).bind _ = some e
        rw [hd, Option.bind_some, he]
      · rw [hetext, htext, List.append_assoc]

/-! ## The writer is sound -/

theorem jsonBuild_start_ok : JsonBuild.Ok (.opened []) :=
  ⟨fun _ hf => absurd hf List.not_mem_nil, fun _ hf => absurd hf List.not_mem_nil⟩

/-- A document that is done. -/
theorem whole_of_done {b : JsonBuild} (h : b.pos.done = true) : ∃ v, b = .whole v := by
  cases b with
  | whole v => exact ⟨v, rfl⟩
  | opened fs =>
      cases fs with
      | nil => cases h
      | cons f fs => cases h

/-- What the writer has when `json_finish` is content. -/
theorem holds_of_jsonFinish {buf : Bytes} {cs : List JsonCall} {n : ℕ}
    (h : jsonFinish (run JsonWriter.exec (jsonInit buf) cs) = some n) :
    ∃ pos text, JsonPos.calls {} cs = some (pos, text) ∧ pos.done = true ∧ n = text.length ∧
      (run JsonWriter.exec (jsonInit buf) cs).Holds buf.length text pos := by
  have hfollows := run_follows (jsonInit_yields buf) cs
  generalize run JsonWriter.exec (jsonInit buf) cs = j at h hfollows ⊢
  unfold jsonFinish at h
  by_cases hbad : (j.failed || j.pos.opened.length != 0 || !j.pos.done) = true
  · rw [if_pos hbad] at h
    cases h
  · rw [if_neg hbad] at h
    simp only [Bool.or_eq_true, not_or] at hbad
    have hok : j.failed = false := by simpa using hbad.1.1
    have hdone : j.pos.done = true := by simpa using hbad.2
    cases hplan : JsonPos.calls {} cs with
    | none =>
        rw [hplan] at hfollows
        have hfail : j.failed = true := hfollows
        rw [hok] at hfail
        cases hfail
    | some q =>
        rcases q with ⟨pos, text⟩
        rw [hplan] at hfollows
        have hyields : j.Yields buf.length text pos := hfollows
        -- a buffer that overflowed has failed for good
        rcases hyields.cases with hj | ⟨-, hfail⟩
        · refine ⟨pos, text, rfl, ?_, ?_, hj⟩
          · rw [← hj.pos_eq]
            exact hdone
          · rw [← hj.len_eq]
            exact (Option.some.inj h).symm
        · rw [hok] at hfail
          cases hfail

/-- Whatever is called, and into whatever buffer: a text that `json_finish`
reports is ASCII, is one JSON text, and parses to the tree that the calls
denote; it ends in a NUL inside the buffer. -/
theorem json_writer_sound (buf : Bytes) (cs : List JsonCall) (n : ℕ)
    (h : jsonFinish (run JsonWriter.exec (jsonInit buf) cs) = some n) :
    ∃ v, denote cs = some v ∧
      jsonParse ((run JsonWriter.exec (jsonInit buf) cs).buf.take n) = some v ∧
      IsAscii ((run JsonWriter.exec (jsonInit buf) cs).buf.take n) ∧
      (run JsonWriter.exec (jsonInit buf) cs).buf.length = buf.length ∧ n < buf.length ∧
      (run JsonWriter.exec (jsonInit buf) cs).buf[n]? = some 0 := by
  rcases holds_of_jsonFinish h with ⟨pos, text, hplan, hdone, rfl, hj⟩
  rcases calls_add jsonBuild_start_ok cs hplan with ⟨d, hd, hok, rfl, htext⟩
  rcases whole_of_done hdone with ⟨v, rfl⟩
  have hplain : v.Plain := hok
  have hrender : text = v.render := htext.symm
  refine ⟨v, ?_, ?_, ?_, hj.cap_eq, hj.lt, hj.nul⟩
  · rw [denote, hd]
  · rw [hj.written, hrender]
    exact jsonParse_render hplain
  · rw [hj.written, hrender]
    exact hplain.ascii

/-- The calls of `json.h`'s own example. -/
def okCalls : List JsonCall := [.beginObject, .key (some [0x6F, 0x6B]), .bool true, .endObject]

/-- It takes eleven bytes and a NUL. -/
theorem json_writer_sound_ok :
    jsonFinish (run JsonWriter.exec (jsonInit (List.replicate 12 0xFF)) okCalls) = some 11 ∧
    ∃ v, denote okCalls = some v ∧
      jsonParse ((run JsonWriter.exec (jsonInit (List.replicate 12 0xFF)) okCalls).buf.take 11) =
        some v := by
  have hfinish : jsonFinish (run JsonWriter.exec (jsonInit (List.replicate 12 0xFF)) okCalls) =
      some 11 := by
    decide +kernel
  rcases json_writer_sound (List.replicate 12 0xFF) okCalls 11 hfinish with ⟨v, hv, hparse, -⟩
  exact ⟨hfinish, v, hv, hparse⟩

/-! ## Calls that describe a value -/

/-- A value, or the inside of a container that is still open. -/
inductive JsonPart where
  | value (v : Json)
  | items (vs : List Json)
  | members (ms : List (Bytes × Json))

/-- The calls that make up a part, in order and with at most `d` more
containers open at a time: a value is one call or a container with its end,
every member of an object has its key, texts are ASCII and number texts are
numbers. -/
inductive Describes : ℕ → JsonPart → List JsonCall → Prop where
  | null (d : ℕ) : Describes d (.value .null) [.null]
  | bool (d : ℕ) (b : Bool) : Describes d (.value (.bool b)) [.bool b]
  | int (d : ℕ) (v : Int64) : Describes d (.value (.num (printInt v))) [.int v]
  | uint (d : ℕ) (v : UInt64) : Describes d (.value (.num (printUint v))) [.uint v]
  | number (d : ℕ) {text : Bytes} (h : IsNumber text) :
      Describes d (.value (.num text)) [.number (some text)]
  | string (d : ℕ) {s : Bytes} (h : IsAscii s) : Describes d (.value (.str s)) [.string (some s)]
  | array {d : ℕ} {vs : List Json} {cs : List JsonCall} (h : Describes d (.items vs) cs) :
      Describes (d + 1) (.value (.arr vs)) (.beginArray :: (cs ++ [.endArray]))
  | object {d : ℕ} {ms : List (Bytes × Json)} {cs : List JsonCall}
      (h : Describes d (.members ms) cs) :
      Describes (d + 1) (.value (.obj ms)) (.beginObject :: (cs ++ [.endObject]))
  | noItems (d : ℕ) : Describes d (.items []) []
  | item {d : ℕ} {vs : List Json} {v : Json} {cs cs' : List JsonCall}
      (h : Describes d (.items vs) cs) (hv : Describes d (.value v) cs') :
      Describes d (.items (vs ++ [v])) (cs ++ cs')
  | noMembers (d : ℕ) : Describes d (.members []) []
  | member {d : ℕ} {ms : List (Bytes × Json)} {k : Bytes} {v : Json} {cs cs' : List JsonCall}
      (h : Describes d (.members ms) cs) (hk : IsAscii k) (hv : Describes d (.value v) cs') :
      Describes d (.members (ms ++ [(k, v)])) (cs ++ .key (some k) :: cs')

theorem andThen_some {p : JsonPos} {out : Bytes} {next : JsonPos → Option (JsonPos × Bytes)}
    {p' : JsonPos} {out' : Bytes} (h : next p = some (p', out')) :
    andThen (some (p, out)) next = some (p', out ++ out') := by
  unfold andThen
  dsimp only
  rw [h]

theorem calls_append {p q r : JsonPos} {a b : List JsonCall} {x y : Bytes}
    (ha : p.calls a = some (q, x)) (hb : q.calls b = some (r, y)) :
    p.calls (a ++ b) = some (r, x ++ y) := by
  induction a generalizing p x with
  | nil =>
      have hsome : (p, ([] : Bytes)) = (q, x) := Option.some.inj ha
      rw [Prod.mk.injEq] at hsome
      rcases hsome with ⟨rfl, rfl⟩
      exact hb
  | cons c a ih =>
      rcases andThen_eq_some ha with ⟨t, first, rest, hc, hrest, rfl⟩
      rw [List.cons_append, JsonPos.calls, hc, List.append_assoc]
      exact andThen_some (ih hrest)

theorem calls_singleton {p q : JsonPos} {c : JsonCall} {x : Bytes} (h : p.call c = some (q, x)) :
    p.calls [c] = some (q, x) := by
  rw [JsonPos.calls, h]
  have hnil := @andThen_some q x (fun p => JsonPos.calls p []) q [] rfl
  rwa [List.append_nil] at hnil

/-- The plan of the calls of a part, wherever the part may go and is not too
deep. -/
def Writes (d : ℕ) (cs : List JsonCall) : JsonPart → Prop
  | .value v => ∀ p opened out, JsonPos.lead p = some ({ opened := opened }, out) →
      opened.length + d ≤ jsonMaxDepth →
      p.calls cs = some (JsonPos.ended { opened := opened }, out ++ v.render)
  | .items vs => ∀ below : List JsonOpen, below.length + 1 + d ≤ jsonMaxDepth →
      JsonPos.calls { opened := ⟨false, false⟩ :: below } cs =
        some ({ opened := ⟨false, !vs.isEmpty⟩ :: below }, itemsText vs)
  | .members ms => ∀ below : List JsonOpen, below.length + 1 + d ≤ jsonMaxDepth →
      JsonPos.calls { opened := ⟨true, false⟩ :: below } cs =
        some ({ opened := ⟨true, !ms.isEmpty⟩ :: below }, membersText ms)

theorem scalar_writes {c : JsonCall} {v : Json}
    (hcall : ∀ p : JsonPos, p.call c = p.scalar v.render) (d : ℕ) : Writes d [c] (.value v) := by
  intro p opened out hlead _
  apply calls_singleton
  rw [hcall, JsonPos.scalar, hlead]
  exact andThen_some rfl

/-- A container around its inside. -/
theorem container_writes {d : ℕ} {object : Bool} {cs : List JsonCall} {text : Bytes} {v : Json}
    {first last : JsonCall} (hfirst : ∀ p : JsonPos, p.call first = p.enter object)
    (hlast : ∀ p : JsonPos, p.call last = p.leave object)
    (hrender : v.render = (if object then 0x7B else 0x5B) :: (text ++ [if object then 0x7D else 0x5D]))
    (hinside : ∀ below : List JsonOpen, below.length + 1 + d ≤ jsonMaxDepth → ∃ b,
      JsonPos.calls { opened := ⟨object, false⟩ :: below } cs =
        some ({ opened := ⟨object, b⟩ :: below }, text)) :
    Writes (d + 1) (first :: (cs ++ [last])) (.value v) := by
  intro p opened out hlead hdepth
  have hroom : ¬ opened.length ≥ jsonMaxDepth := by omega
  have henter : p.call first =
      some ({ opened := ⟨object, false⟩ :: opened }, out ++ [if object then 0x7B else 0x5B]) := by
    rw [hfirst, JsonPos.enter, hlead]
    apply andThen_some
    exact if_neg hroom
  rcases hinside opened (by omega) with ⟨b, hcs⟩
  have hleave : JsonPos.call { opened := ⟨object, b⟩ :: opened } last =
      some (JsonPos.ended { opened := opened }, [if object then 0x7D else 0x5D]) := by
    rw [hlast]
    cases object with
    | true => rfl
    | false => rfl
  rw [JsonPos.calls, henter, andThen_some (calls_append hcs (calls_singleton hleave)), hrender,
    List.append_assoc]
  rfl

theorem not_isEmpty_append_singleton {α : Type} (xs : List α) (x : α) :
    (!(xs ++ [x]).isEmpty) = true := by
  simp

theorem ite_not_isEmpty {α : Type} (xs : List α) :
    (if !xs.isEmpty then [0x2C] else []) = sep xs := by
  cases xs with
  | nil => rfl
  | cons x xs => rfl

/-- One more item. -/
theorem item_writes {d : ℕ} {vs : List Json} {v : Json} {cs cs' : List JsonCall}
    (h : Writes d cs (.items vs)) (hv : Writes d cs' (.value v)) :
    Writes d (cs ++ cs') (.items (vs ++ [v])) := by
  intro below hdepth
  have hlast := hv { opened := ⟨false, !vs.isEmpty⟩ :: below } (⟨false, true⟩ :: below)
    (if !vs.isEmpty then [0x2C] else []) rfl hdepth
  rw [calls_append (h below hdepth) hlast, ite_not_isEmpty, not_isEmpty_append_singleton,
    itemsText_append]
  rfl

/-- One more member. -/
theorem member_writes {d : ℕ} {ms : List (Bytes × Json)} {k : Bytes} {v : Json}
    {cs cs' : List JsonCall} (h : Writes d cs (.members ms)) (hk : IsAscii k)
    (hv : Writes d cs' (.value v)) :
    Writes d (cs ++ .key (some k) :: cs') (.members (ms ++ [(k, v)])) := by
  intro below hdepth
  have hkey : JsonPos.call { opened := ⟨true, !ms.isEmpty⟩ :: below } (.key (some k)) =
      some ({ opened := ⟨true, true⟩ :: below, afterKey := true },
        sep ms ++ (renderString k ++ [0x3A])) := by
    show (if !true || false || k.any (0x80 ≤ ·) then none else _) = _
    rw [any_of_isAscii hk, ← ite_not_isEmpty]
    rfl
  have hlast := hv { opened := ⟨true, true⟩ :: below, afterKey := true } (⟨true, true⟩ :: below) [] rfl
    hdepth
  have hmember : JsonPos.calls { opened := ⟨true, !ms.isEmpty⟩ :: below } (.key (some k) :: cs') =
      some ({ opened := ⟨true, true⟩ :: below },
        sep ms ++ (renderString k ++ [0x3A]) ++ ([] ++ v.render)) := by
    rw [JsonPos.calls, hkey]
    exact andThen_some hlast
  rw [calls_append (h below hdepth) hmember, not_isEmpty_append_singleton, membersText_append]
  simp only [List.append_assoc, List.cons_append, List.nil_append]

/-- The calls that describe a part write its text. -/
theorem Describes.writes {d : ℕ} {part : JsonPart} {cs : List JsonCall} (h : Describes d part cs) :
    Writes d cs part := by
  induction h with
  | null d =>
      refine scalar_writes (fun p => ?_) d
      rw [Json.render]
      rfl
  | bool d b =>
      refine scalar_writes (fun p => ?_) d
      cases b with
      | true =>
          rw [Json.render]
          rfl
      | false =>
          rw [Json.render]
          rfl
  | int d v =>
      refine scalar_writes (fun p => ?_) d
      rw [Json.render]
      rfl
  | uint d v =>
      refine scalar_writes (fun p => ?_) d
      rw [Json.render]
      rfl
  | @number d text ht =>
      refine scalar_writes (fun p => ?_) d
      rw [Json.render]
      exact if_neg (by simp [(jsonIsNumber_iff text).mpr ht])
  | @string d s hs =>
      refine scalar_writes (fun p => ?_) d
      rw [Json.render]
      exact if_neg (by simp [any_of_isAscii hs])
  | @array d vs cs _ ih =>
      -- the items write their text one level down
      refine @container_writes d false cs (itemsText vs) _ _ _ (fun _ => rfl) (fun _ => rfl)
        (render_arr vs) ?_
      intro below hdepth
      exact ⟨_, ih below hdepth⟩
  | @object d ms cs _ ih =>
      refine @container_writes d true cs (membersText ms) _ _ _ (fun _ => rfl) (fun _ => rfl)
        (render_obj ms) ?_
      intro below hdepth
      exact ⟨_, ih below hdepth⟩
  | noItems d => exact fun _ _ => rfl
  | item _ _ ih ihv => exact item_writes ih ihv
  | noMembers d => exact fun _ _ => rfl
  | member _ hk _ ih ihv => exact member_writes ih hk ihv

/-- The plan of the calls that describe a whole value. -/
theorem Describes.calls_eq {v : Json} {cs : List JsonCall} (h : Describes jsonMaxDepth (.value v) cs) :
    JsonPos.calls {} cs = some ({ done := true }, v.render) :=
  h.writes {} [] [] rfl (le_refl _)

/-- The calls that describe a value write its text into a buffer that it fits
into, and fail otherwise. -/
theorem Describes.jsonFinish_eq {v : Json} {cs : List JsonCall}
    (h : Describes jsonMaxDepth (.value v) cs) (buf : Bytes) :
    if v.render.length < buf.length then
      jsonFinish (run JsonWriter.exec (jsonInit buf) cs) = some v.render.length ∧
      (run JsonWriter.exec (jsonInit buf) cs).buf.take v.render.length = v.render ∧
      (run JsonWriter.exec (jsonInit buf) cs).buf.length = buf.length
    else jsonFinish (run JsonWriter.exec (jsonInit buf) cs) = none := by
  have hyields := run_follows (jsonInit_yields buf) cs
  rw [h.calls_eq] at hyields
  generalize run JsonWriter.exec (jsonInit buf) cs = j at hyields ⊢
  have hj : j.Yields buf.length v.render { done := true } := hyields
  unfold JsonWriter.Yields at hj
  split_ifs at hj ⊢ with hfits
  · refine ⟨?_, hj.written, hj.cap_eq⟩
    rw [jsonFinish, hj.ok, hj.pos_eq, hj.len_eq]
    rfl
  · rw [jsonFinish, hj]
    rfl

/-! ## The calls that describe a tree -/

mutual

/-- The calls that describe a value, numbers by their text. -/
def treeCalls : Json → List JsonCall
  | .null => [.null]
  | .bool b => [.bool b]
  | .num text => [.number (some text)]
  | .str s => [.string (some s)]
  | .arr vs => .beginArray :: (itemsCalls vs ++ [.endArray])
  | .obj ms => .beginObject :: (membersCalls ms ++ [.endObject])

/-- The calls for the items of an array. -/
def itemsCalls : List Json → List JsonCall
  | [] => []
  | v :: vs => treeCalls v ++ itemsCalls vs

/-- The calls for the members of an object. -/
def membersCalls : List (Bytes × Json) → List JsonCall
  | [] => []
  | (k, v) :: ms => .key (some k) :: (treeCalls v ++ membersCalls ms)

end

/-- A value that can be written with `d` more containers open at most. -/
inductive Nests : ℕ → Json → Prop where
  | null (d : ℕ) : Nests d .null
  | bool (d : ℕ) (b : Bool) : Nests d (.bool b)
  | num (d : ℕ) {text : Bytes} (h : IsNumber text) : Nests d (.num text)
  | str (d : ℕ) {s : Bytes} (h : IsAscii s) : Nests d (.str s)
  | arr {d : ℕ} {vs : List Json} (h : ∀ v ∈ vs, Nests d v) : Nests (d + 1) (.arr vs)
  | obj {d : ℕ} {ms : List (Bytes × Json)} (hk : ∀ m ∈ ms, IsAscii m.1) (h : ∀ m ∈ ms, Nests d m.2) :
      Nests (d + 1) (.obj ms)

theorem Nests.plain {d : ℕ} {v : Json} (h : Nests d v) : v.Plain := by
  induction h with
  | null d => exact .null
  | bool d b => exact .bool b
  | num d h => exact .num h
  | str d h => exact .str h
  | arr h ih => exact .arr ih
  | obj hk h ih => exact .obj hk ih

theorem itemsCalls_append (vs : List Json) (v : Json) :
    itemsCalls (vs ++ [v]) = itemsCalls vs ++ treeCalls v := by
  induction vs with
  | nil =>
      rw [List.nil_append, itemsCalls, itemsCalls, itemsCalls, List.append_nil, List.nil_append]
  | cons w vs ih => rw [List.cons_append, itemsCalls, itemsCalls, ih, List.append_assoc]

theorem membersCalls_append (ms : List (Bytes × Json)) (k : Bytes) (v : Json) :
    membersCalls (ms ++ [(k, v)]) = membersCalls ms ++ .key (some k) :: treeCalls v := by
  induction ms with
  | nil =>
      rw [List.nil_append, membersCalls, membersCalls, membersCalls, List.append_nil, List.nil_append]
  | cons m ms ih =>
      rcases m with ⟨k', v'⟩
      rw [List.cons_append, membersCalls, membersCalls, ih, List.cons_append, List.append_assoc]

theorem items_described {d : ℕ} {vs : List Json}
    (h : ∀ v ∈ vs, Describes d (.value v) (treeCalls v)) : Describes d (.items vs) (itemsCalls vs) := by
  induction vs using List.reverseRecOn with
  | nil =>
      rw [itemsCalls]
      exact .noItems d
  | append_singleton vs v ih =>
      rw [itemsCalls_append]
      refine .item (ih fun w hw => h w (List.mem_append_left _ hw)) (h v ?_)
      exact List.mem_append_right _ List.mem_cons_self

theorem members_described {d : ℕ} {ms : List (Bytes × Json)} (hk : ∀ m ∈ ms, IsAscii m.1)
    (h : ∀ m ∈ ms, Describes d (.value m.2) (treeCalls m.2)) :
    Describes d (.members ms) (membersCalls ms) := by
  induction ms using List.reverseRecOn with
  | nil =>
      rw [membersCalls]
      exact .noMembers d
  | append_singleton ms m ih =>
      rcases m with ⟨k, v⟩
      have hin : (k, v) ∈ ms ++ [(k, v)] := List.mem_append_right _ List.mem_cons_self
      rw [membersCalls_append]
      exact .member (ih (fun x hx => hk x (List.mem_append_left _ hx))
        fun x hx => h x (List.mem_append_left _ hx)) (hk _ hin) (h _ hin)

/-- A value that is not too deep is described by its calls. -/
theorem Nests.described {d : ℕ} {v : Json} (h : Nests d v) :
    Describes d (.value v) (treeCalls v) := by
  induction h with
  | null d =>
      rw [treeCalls]
      exact .null d
  | bool d b =>
      rw [treeCalls]
      exact .bool d b
  | num d ht =>
      rw [treeCalls]
      exact .number d ht
  | str d hs =>
      rw [treeCalls]
      exact .string d hs
  | arr _ ih =>
      rw [treeCalls]
      exact .array (items_described ih)
  | obj hk _ ih =>
      rw [treeCalls]
      exact .object (members_described hk ih)

/-- The calls that describe a tree denote it. -/
theorem denote_treeCalls {v : Json} (h : Nests jsonMaxDepth v) : denote (treeCalls v) = some v := by
  have hplan := h.described.calls_eq
  rcases calls_add jsonBuild_start_ok (treeCalls v) hplan with ⟨d, hd, hok, hpos, htext⟩
  have hdone : d.pos.done = true := by rw [← hpos]
  rcases whole_of_done hdone with ⟨w, rfl⟩
  -- the two trees have one text, and a text has one tree
  have hw : w.Plain := hok
  have hsame : w.render = v.render := htext
  have hparse := jsonParse_render hw
  rw [hsame, jsonParse_render h.plain] at hparse
  rw [denote, hd, Option.some.inj hparse]

/-- The calls of a tree write its text into a buffer that it fits into, and
fail otherwise. -/
theorem jsonFinish_treeCalls {v : Json} (h : Nests jsonMaxDepth v) (buf : Bytes) :
    if v.render.length < buf.length then
      jsonFinish (run JsonWriter.exec (jsonInit buf) (treeCalls v)) = some v.render.length ∧
      (run JsonWriter.exec (jsonInit buf) (treeCalls v)).buf.take v.render.length = v.render ∧
      (run JsonWriter.exec (jsonInit buf) (treeCalls v)).buf.length = buf.length
    else jsonFinish (run JsonWriter.exec (jsonInit buf) (treeCalls v)) = none :=
  h.described.jsonFinish_eq buf

end Carwatch.Interface
