import Carwatch.BoardSync.Convergence

/-!
# Carwatch.BoardSync.Cards — the project board (`sync_board`)

Every line with a tag has a card: Done when its box is ticked, Ready or Todo when
it is not. What is read may be missing, as when the token cannot see projects;
a write that fails stops the run.

* `Project`, `Project.apply` — the project on GitHub and what a write does to it;
* `syncBoard` — the function, dry or not;
* `Pinning` — the invariant of its loop;
* `sync_board_settles`, `sync_board_idle` — one run, and the next.
-/

namespace Carwatch.BoardSync

open Carwatch.Lib

/-! ## The project -/

/-- An option of a field. -/
structure Choice where
  name : Text
  id : Text
  named : name ≠ []

/-- A field of the project. -/
structure Field where
  name : Text
  id : Text
  choices : List Choice
  nodup : (choices.map Choice.id).Nodup

/-- A card; one that is no issue has no number. -/
structure Card where
  id : ℕ
  number : Option ℕ
  status : Option Text
deriving DecidableEq

/-- The project. -/
structure Project where
  fields : List Field
  cards : Register Card Card.id
  nodup : (fields.map Field.id).Nodup

/-- The calls of `sync_board`. -/
inductive BoardCall where
  | projectList
  | fieldList
  | itemList
  | itemAdd (number : ℕ)
  | itemEdit (card : ℕ) (field choice : Text)
deriving DecidableEq

/-- The calls through `read_json`. -/
def BoardCall.isRead : BoardCall → Bool
  | .projectList | .fieldList | .itemList => true
  | _ => false

/-- A card with another status. -/
def restatus (name : Text) : Register.Change Card Card.id where
  apply c := { c with status := some name }
  keeps _ := rfl

/-- What a write does that succeeds, and the card it prints: an issue that has a
card keeps it, another gets one with the id `n`. -/
def Project.apply (p : Project) (n : ℕ) : BoardCall → Option (Project × ℕ)
  | .projectList | .fieldList | .itemList => none
  | .itemAdd number =>
      match p.cards.entries.find? fun c => decide (c.number = some number) with
      | some c => some (p, c.id)
      | none => (p.cards.add ⟨n, some number, none⟩).map fun r => ({ p with cards := r }, n)
  | .itemEdit card field choice =>
      match (p.fields.find? fun f => decide (f.id = field)).bind fun f =>
          f.choices.find? fun o => decide (o.id = choice) with
      | none => none
      | some o => (p.cards.change card (restatus o.name)).map fun r => ({ p with cards := r }, card)

/-! ## The function -/

/-- The project, the calls so far with their outcome, and what a dry run counted. -/
structure Wall where
  project : Option Project
  log : List (BoardCall × Bool)
  pending : ℕ

/-- A part of `sync_board`. -/
abbrev Pin := EStateM BoardCall Wall

/-- Behind a read. -/
def Wall.saw (w : Wall) (c : BoardCall) (came : Bool) : Wall :=
  { w with log := w.log ++ [(c, came)] }

/-- `Gh.read_json` with `soft`: whether an answer came. -/
def look (answers : Answers) (c : BoardCall) : Pin Bool := fun s =>
  let came := (answers s.log.length).isSome
  .ok came (s.saw c came)

/-- `Gh.write` -/
def put (dry : Bool) (answers : Answers) (c : BoardCall) : Pin (Option ℕ) := fun s =>
  if dry = true then .ok none { s with pending := s.pending + 1 }
  else
    match (answers s.log.length).bind fun n => s.project.bind fun p => p.apply n c with
    | none => .error c { s with log := s.log ++ [(c, false)] }
    | some (p, id) => .ok (some id) { s with project := some p, log := s.log ++ [(c, true)] }

section Script

variable (lower : Text → Text)

/-- `status_field` -/
def statusField (fields : List Field) : Option Field :=
  fields.find? fun f => decide (lower f.name = "status".toList)

/-- `opts` -/
def optionsOf (field : Field) : Dict Text Choice :=
  .ofList (field.choices.map fun o => (lower o.name, o))

/-- `want`, with the field. -/
def want (fields : List Field) (it : Item) : Option (Field × Choice) :=
  (statusField lower fields).bind fun f =>
    let opts := optionsOf lower f
    ((if it.checked = true then opts.get? "done".toList
      else (opts.get? "ready".toList).or (opts.get? "todo".toList))).map fun o => (f, o)

/-- The status of a card made to match the line. -/
def setStatus (dry : Bool) (answers : Answers) (fields : List Field) (it : Item) (card : ℕ)
    (status : Option Text) : Pin PUnit :=
  match want lower fields it with
  | none => pure ⟨⟩
  | some (f, o) =>
      if status.getD [] = o.name then pure ⟨⟩
      else do
        let _ ← put dry answers (.itemEdit card f.id o.id)
        pure ⟨⟩

/-- The loop of `sync_board`. -/
def pinItem (dry : Bool) (answers : Answers) (fields : List Field) (cards : Dict (Option ℕ) Card)
    (it : Item) : Pin PUnit :=
  match it.number with
  | none => pure ⟨⟩
  | some n =>
      match cards.get? (some n) with
      | some c => setStatus lower dry answers fields it c.id c.status
      | none => do
          match ← put dry answers (.itemAdd n) with
          | none => pure ⟨⟩
          | some id => setStatus lower dry answers fields it id none

/-- `sync_board`: whether there was a project to be seen. -/
def syncBoard (dry : Bool) (answers : Answers) (b : Board) : Pin Bool := do
  let seen ← look answers .projectList
  let w ← get
  match if seen = true then w.project else none with
  | none => pure false
  | some p => do
      let fielded ← look answers .fieldList
      let listed ← look answers .itemList
      b.items.forM (pinItem lower dry answers (if fielded = true then p.fields else [])
        (.indexBy Card.number (if listed = true then p.cards.entries else [])))
      pure true

end Script

/-- A step that was answered. -/
theorem bind_ok {α β : Type} {x : Pin α} {f : α → Pin β} {s t : Wall} {a : α} (h : x s = .ok a t) :
    (x >>= f) s = f a t := by
  show EStateM.bind x f s = _
  unfold EStateM.bind
  rw [h]

theorem get_bind {α : Type} {f : Wall → Pin α} (s : Wall) : (get >>= f) s = f s s := rfl

/-! ## What the writes do -/

/-- Of two entries with different keys, each is found by its own. -/
theorem find?_key {α κ : Type} [DecidableEq κ] {key : α → κ} {l : List α} (h : (l.map key).Nodup)
    {a : α} (ha : a ∈ l) : l.find? (fun x => decide (key x = key a)) = some a := by
  induction l with
  | nil => cases ha
  | cons x l ih =>
      rw [List.map_cons, List.nodup_cons] at h
      rcases List.mem_cons.mp ha with rfl | ha
      · rw [List.find?_cons_of_pos (by simp)]
      · have hne : key x ≠ key a := fun heq => h.1 (heq ▸ List.mem_map_of_mem ha)
        rw [List.find?_cons_of_neg (by simpa using hne), ih h.2 ha]

/-- No issue has two cards. -/
def Project.Once (p : Project) : Prop :=
  ∀ c ∈ p.cards.entries, ∀ c' ∈ p.cards.entries, ∀ n, c.number = some n → c'.number = some n → c = c'

section Writes

variable {p p' : Project} {n id : ℕ}

/-- Behind an addition the issue has the card that was printed, and the cards of
other numbers are as they were. -/
theorem apply_itemAdd {m : ℕ} (honce : p.Once) (h : p.apply n (.itemAdd m) = some (p', id)) :
    p'.fields = p.fields ∧ p'.Once ∧ (∃ c ∈ p'.cards.entries, c.id = id ∧ c.number = some m) ∧
      ∀ c, c.number ≠ some m → (c ∈ p'.cards.entries ↔ c ∈ p.cards.entries) := by
  unfold Project.apply at h
  cases hfind : p.cards.entries.find? fun c => decide (c.number = some m) with
  | some c =>
      simp only [hfind, Option.some.injEq, Prod.mk.injEq] at h
      obtain ⟨rfl, rfl⟩ := h
      refine ⟨rfl, honce, ⟨c, List.mem_of_find?_eq_some hfind, rfl, ?_⟩, fun _ _ => Iff.rfl⟩
      simpa using List.find?_some hfind
  | none =>
      simp only [hfind] at h
      obtain ⟨r, hr, heq⟩ := Option.map_eq_some_iff.mp h
      obtain ⟨rfl, rfl⟩ := Prod.mk.inj heq
      have hentries := (Register.add_eq_some.mp hr).2
      have hfresh : ∀ c ∈ p.cards.entries, c.number ≠ some m := by
        intro c hc
        simpa using List.find?_eq_none.mp hfind c hc
      refine ⟨rfl, ?_, ⟨⟨n, some m, none⟩, ?_, rfl, rfl⟩, fun c hc => ?_⟩
      · intro c hc c' hc' k hk hk'
        rw [hentries, List.mem_append, List.mem_singleton] at hc hc'
        rcases hc with hc | rfl
        · rcases hc' with hc' | rfl
          · exact honce c hc c' hc' k hk hk'
          · exact absurd (hk.trans hk'.symm) (hfresh c hc)
        · rcases hc' with hc' | rfl
          · exact absurd (hk'.trans hk.symm) (hfresh c' hc')
          · rfl
      · rw [hentries]
        exact List.mem_append_right _ List.mem_cons_self
      · rw [hentries, List.mem_append, List.mem_singleton, or_iff_left]
        rintro rfl
        exact hc rfl

/-- Behind an edit the card has the name of the option as its status, and the
cards of other numbers are as they were. -/
theorem apply_itemEdit {c : Card} {f : Field} {o : Choice} (honce : p.Once)
    (hc : c ∈ p.cards.entries) (hf : f ∈ p.fields) (ho : o ∈ f.choices)
    (h : p.apply n (.itemEdit c.id f.id o.id) = some (p', id)) :
    p'.fields = p.fields ∧ p'.Once ∧ { c with status := some o.name } ∈ p'.cards.entries ∧
      ∀ c', c'.number ≠ c.number → (c' ∈ p'.cards.entries ↔ c' ∈ p.cards.entries) := by
  unfold Project.apply at h
  have hfield : p.fields.find? (fun x => decide (x.id = f.id)) = some f := find?_key p.nodup hf
  have hchoice : f.choices.find? (fun x => decide (x.id = o.id)) = some o := find?_key f.nodup ho
  simp only [hfield, Option.bind_some, hchoice] at h
  obtain ⟨r, hr, heq⟩ := Option.map_eq_some_iff.mp h
  obtain ⟨rfl, -⟩ := Prod.mk.inj heq
  have hentries := (Register.change_eq_some.mp hr).2
  have hone : ∀ x ∈ p.cards.entries, (restatus o.name).one c.id x =
      if x = c then { c with status := some o.name } else x := by
    intro x hx
    unfold Register.Change.one
    by_cases hid : x.id = c.id
    · obtain rfl := p.cards.eq_of_number hx hc hid
      rw [if_pos rfl, if_pos rfl]
      rfl
    · rw [if_neg hid, if_neg]
      rintro rfl
      exact hid rfl
  have hmem : ∀ y, y ∈ r.entries ↔ y = { c with status := some o.name } ∨
      y ∈ p.cards.entries ∧ y ≠ c := by
    intro y
    rw [hentries, List.mem_map]
    constructor
    · rintro ⟨x, hx, rfl⟩
      rw [hone x hx]
      split_ifs with hxc
      · exact Or.inl rfl
      · exact Or.inr ⟨hx, hxc⟩
    · rintro (rfl | ⟨hy, hne⟩)
      · exact ⟨c, hc, by rw [hone c hc, if_pos rfl]⟩
      · exact ⟨y, hy, by rw [hone y hy, if_neg hne]⟩
  refine ⟨rfl, ?_, (hmem _).mpr (Or.inl rfl), fun c' hc' => ?_⟩
  · intro x hx y hy k hk hk'
    rcases (hmem x).mp hx with rfl | ⟨hx, hxc⟩
    · rcases (hmem y).mp hy with rfl | ⟨hy, hyc⟩
      · rfl
      · exact absurd (honce y hy c hc k hk' hk) hyc
    · rcases (hmem y).mp hy with rfl | ⟨hy, hyc⟩
      · exact absurd (honce x hx c hc k hk hk') hxc
      · exact honce x hx y hy k hk hk'
  · rw [show (({ p with cards := r } : Project).cards.entries) = r.entries from rfl, hmem]
    constructor
    · rintro (rfl | ⟨hmem', -⟩)
      · exact absurd rfl hc'
      · exact hmem'
    · intro hmem'
      refine Or.inr ⟨hmem', ?_⟩
      rintro rfl
      exact hc' rfl

end Writes

/-- What a line wants is an option of the status field. -/
theorem want_mem {lower : Text → Text} {fields : List Field} {it : Item} {f : Field} {o : Choice}
    (h : want lower fields it = some (f, o)) : f ∈ fields ∧ o ∈ f.choices := by
  unfold want statusField at h
  obtain ⟨f', hf, h⟩ := Option.bind_eq_some_iff.mp h
  obtain ⟨o', ho, heq⟩ := Option.map_eq_some_iff.mp h
  obtain ⟨rfl, rfl⟩ := Prod.mk.inj heq
  have hmem : ∀ {k : Text}, (optionsOf lower f').get? k = some o' → o' ∈ f'.choices := by
    intro k hk
    obtain ⟨x, hx, hxo⟩ := List.mem_map.mp (Dict.mem_of_get?_ofList hk)
    exact (Prod.mk.inj hxo).2 ▸ hx
  refine ⟨List.mem_of_find?_eq_some hf, ?_⟩
  split_ifs at ho
  · exact hmem ho
  · rcases Option.or_eq_some_iff.mp ho with ho | ⟨-, ho⟩
    · exact hmem ho
    · exact hmem ho

/-! ## One run -/

/-- The card says what the line wants. -/
def Right (lower : Text → Text) (fields : List Field) (it : Item) (c : Card) : Prop :=
  ∀ f o, want lower fields it = some (f, o) → c.status = some o.name

/-- The line has a card that says what it wants. -/
def Carded (lower : Text → Text) (fields : List Field) (p : Project) (it : Item) : Prop :=
  ∀ n, it.number = some n → ∃ c ∈ p.cards.entries, c.number = some n ∧ Right lower fields it c

/-- A card that is no card of these lines. -/
def Foreign (items : List Item) (c : Card) : Prop :=
  ∀ it ∈ items, ∀ n, it.number = some n → c.number ≠ some n

/-- A project in which no cards were touched but those of these lines. -/
structure Touched (p₀ : Project) (items : List Item) (p : Project) : Prop where
  fields : p.fields = p₀.fields
  once : p.Once
  others : ∀ c, Foreign items c → (c ∈ p.cards.entries ↔ c ∈ p₀.cards.entries)

/-- The state of the loop behind the reads, of which `before` is the log. -/
def AtCard (before : List (BoardCall × Bool)) (P : Project → Prop) (w : Wall) : Prop :=
  before <+: w.log ∧ ∃ p, w.project = some p ∧ P p

section Loop

variable {lower : Text → Text} {answers : Answers} {b : Board} {p₀ : Project}
  {before : List (BoardCall × Bool)} {fields : List Field}

theorem Foreign.mono {items items' : List Item} {c : Card} (h : Foreign items' c)
    (hsub : ∀ it ∈ items, it ∈ items') : Foreign items c := fun it hit => h it (hsub it hit)

theorem Touched.mono {items items' : List Item} {p : Project} (h : Touched p₀ items p)
    (hsub : ∀ it ∈ items, it ∈ items') : Touched p₀ items' p :=
  ⟨h.fields, h.once, fun c hc => h.others c (hc.mono hsub)⟩

/-- The card of another line is as it was. -/
theorem Carded.keep {p p' : Project} {it : Item} {m : ℕ} (h : Carded lower fields p it)
    (hne : it.number ≠ some m)
    (hothers : ∀ c, c.number ≠ some m → (c ∈ p'.cards.entries ↔ c ∈ p.cards.entries)) :
    Carded lower fields p' it := by
  intro n hn
  obtain ⟨c, hc, hnumber, hright⟩ := h n hn
  refine ⟨c, (hothers c ?_).mpr hc, hnumber, hright⟩
  rw [hnumber, ← hn]
  exact hne

/-- What touches the cards of the number of a line touches its cards. -/
theorem Touched.step {p p' : Project} {items : List Item} {it : Item} {n : ℕ}
    (h : Touched p₀ items p) (hit : it ∈ items) (hn : it.number = some n)
    (hfields : p'.fields = p.fields) (honce : p'.Once)
    (hothers : ∀ c, c.number ≠ some n → (c ∈ p'.cards.entries ↔ c ∈ p.cards.entries)) :
    Touched p₀ items p' where
  fields := hfields.trans h.fields
  once := honce
  others c hc := (hothers c (hc it hit n hn)).trans (h.others c hc)

/-- A write that is not dry: what it makes of the project, or nothing. -/
theorem put_rule {c : BoardCall} {P : Project → Prop} {Q : ℕ → Project → Prop} {R : Project → Prop}
    (hok : ∀ p p' n id, P p → p.apply n c = some (p', id) → Q id p') (hR : ∀ p, P p → R p) :
    Triple (AtCard before P) (put false answers c)
      (fun out w => ∃ id, out = some id ∧ AtCard before (Q id) w)
      (fun _ => AtCard before R) := by
  intro w ⟨hlog, p, hp, hP⟩
  unfold put
  rw [if_neg Bool.false_ne_true]
  cases happly : (answers w.log.length).bind fun n => w.project.bind fun p => p.apply n c with
  | none => exact ⟨hlog.trans (List.prefix_append _ _), p, hp, hR p hP⟩
  | some r =>
      obtain ⟨n, -, hn⟩ := Option.bind_eq_some_iff.mp happly
      rw [hp, Option.bind_some] at hn
      exact ⟨r.2, rfl, hlog.trans (List.prefix_append _ _), r.1, rfl, hok p r.1 n r.2 hP hn⟩

/-- What is said of the card of a line, and then of the line. -/
theorem setStatus_rule {done items : List Item} {it : Item} {n card : ℕ} {status : Option Text}
    (hdone : ∀ it' ∈ done, it' ∈ items ∧ it'.number ≠ some n) (hit : it ∈ items)
    (hn : it.number = some n) (hfields : ∀ f ∈ fields, f ∈ p₀.fields) :
    Triple
      (AtCard before fun p => (Touched p₀ items p ∧ ∀ it' ∈ done, Carded lower fields p it') ∧
        ∃ c ∈ p.cards.entries, c.id = card ∧ c.number = some n ∧ (status = none ∨ c.status = status))
      (setStatus lower false answers fields it card status)
      (fun _ => AtCard before fun p => Touched p₀ items p ∧
        ∀ it' ∈ done ++ [it], Carded lower fields p it')
      (fun _ => AtCard before (Touched p₀ items)) := by
  -- with the card right, the line is done
  have hfinish : ∀ p, Touched p₀ items p → (∀ it' ∈ done, Carded lower fields p it') →
      ∀ c ∈ p.cards.entries, c.number = some n → Right lower fields it c →
      ∀ it' ∈ done ++ [it], Carded lower fields p it' := by
    intro p _ hcarded c hc hnumber hright it' hit'
    rcases List.mem_append.mp hit' with hit' | hit'
    · exact hcarded it' hit'
    · rw [List.mem_singleton.mp hit']
      intro m hm
      rw [hn, Option.some.injEq] at hm
      exact ⟨c, hc, hm ▸ hnumber, hright⟩
  unfold setStatus
  cases hwant : want lower fields it with
  | none =>
      refine Triple.pure fun w ⟨hlog, p, hp, ⟨htouched, hcarded⟩, c, hc, _, hnumber, _⟩ => ?_
      refine ⟨hlog, p, hp, htouched, hfinish p htouched hcarded c hc hnumber fun f o hfo => ?_⟩
      rw [hwant] at hfo
      cases hfo
  | some fo =>
      obtain ⟨f, o⟩ := fo
      obtain ⟨hf, ho⟩ := want_mem hwant
      dsimp only
      refine Triple.ite (fun hsame => ?_) fun _ => ?_
      · refine Triple.pure fun w ⟨hlog, p, hp, ⟨htouched, hcarded⟩, c, hc, _, hnumber, hstatus⟩ => ?_
        refine ⟨hlog, p, hp, htouched, hfinish p htouched hcarded c hc hnumber fun f' o' hfo => ?_⟩
        rw [hwant] at hfo
        obtain ⟨-, rfl⟩ := Prod.mk.inj (Option.some.inj hfo)
        rcases hstatus with rfl | hstatus
        · exact absurd hsame.symm o.named
        · rw [← hstatus] at hsame
          cases hcs : c.status with
          | none =>
              rw [hcs] at hsame
              exact absurd hsame.symm o.named
          | some t =>
              rw [hcs] at hsame
              exact congrArg some hsame
      · refine Triple.bind (put_rule (R := Touched p₀ items) ?_ fun p hP => hP.1.1) fun out =>
          Triple.pure fun w ⟨_, _, hw⟩ => hw
        rintro p p' m id ⟨⟨htouched, hcarded⟩, c, hc, rfl, hnumber, -⟩ happly
        obtain ⟨hfields', honce, hmem, hothers⟩ := apply_itemEdit htouched.once hc
          (htouched.fields ▸ hfields f hf) ho happly
        rw [hnumber] at hothers
        have htouched' := htouched.step hit hn hfields' honce hothers
        refine ⟨htouched', hfinish p' htouched' (fun it' hit' =>
          (hcarded it' hit').keep (hdone it' hit').2 hothers) _ hmem hnumber fun f' o' hfo => ?_⟩
        rw [hwant] at hfo
        obtain ⟨-, rfl⟩ := Prod.mk.inj (Option.some.inj hfo)
        rfl

variable (answers) in
/-- One line. -/
theorem pinItem_rule {done rest : List Item} {it : Item} {cards : Dict (Option ℕ) Card}
    (htags : (b.items.filterMap Item.number).Nodup) (hsplit : b.items = done ++ it :: rest)
    (hcards : ∀ n c, cards.get? (some n) = some c → c ∈ p₀.cards.entries ∧ c.number = some n)
    (hfields : ∀ f ∈ fields, f ∈ p₀.fields) :
    Triple
      (AtCard before fun p => Touched p₀ done p ∧ ∀ it' ∈ done, Carded lower fields p it')
      (pinItem lower false answers fields cards it)
      (fun _ => AtCard before fun p => Touched p₀ (done ++ [it]) p ∧
        ∀ it' ∈ done ++ [it], Carded lower fields p it')
      (fun _ => AtCard before (Touched p₀ b.items)) := by
  have hleft : ∀ it' ∈ done, it' ∈ done ++ [it] := fun _ => List.mem_append_left _
  have hall : ∀ it' ∈ done ++ [it], it' ∈ b.items := by
    intro it' hit'
    rw [hsplit]
    rcases List.mem_append.mp hit' with hit' | hit'
    · exact List.mem_append_left _ hit'
    · exact List.mem_append_right _ (List.mem_singleton.mp hit' ▸ List.mem_cons_self)
  unfold pinItem
  cases hn : it.number with
  | none =>
      refine Triple.pure fun w ⟨hlog, p, hp, htouched, hcarded⟩ =>
        ⟨hlog, p, hp, htouched.mono hleft, fun it' hit' => ?_⟩
      rcases List.mem_append.mp hit' with hit' | hit'
      · exact hcarded it' hit'
      · intro m hm
        rw [List.mem_singleton.mp hit', hn] at hm
        cases hm
  | some n =>
      have hnew : ∀ it' ∈ done, it'.number ≠ some n := by
        rw [hsplit, List.filterMap_append, List.filterMap_cons, hn] at htags
        intro it' hit' hn'
        exact (List.nodup_append.mp htags).2.2 n (List.mem_filterMap.mpr ⟨it', hit', hn'⟩) n
          List.mem_cons_self rfl
      have hdone : ∀ it' ∈ done, it' ∈ done ++ [it] ∧ it'.number ≠ some n :=
        fun it' hit' => ⟨hleft it' hit', hnew it' hit'⟩
      have hit : it ∈ done ++ [it] := List.mem_append_right _ List.mem_cons_self
      have hstop : ∀ (_ : BoardCall) (w : Wall), AtCard before (Touched p₀ (done ++ [it])) w →
          AtCard before (Touched p₀ b.items) w :=
        fun _ w ⟨hlog, p, hp, htouched⟩ => ⟨hlog, p, hp, htouched.mono hall⟩
      dsimp only
      cases hget : cards.get? (some n) with
      | some c =>
          dsimp only
          refine Triple.conseq (setStatus_rule hdone hit hn hfields) ?_ (fun _ _ => id) hstop
          rintro w ⟨hlog, p, hp, htouched, hcarded⟩
          obtain ⟨hmem, hnumber⟩ := hcards n c hget
          refine ⟨hlog, p, hp, ⟨htouched.mono hleft, hcarded⟩, c, ?_, rfl, hnumber, Or.inr rfl⟩
          refine (htouched.others c fun it' hit' m hm => ?_).mpr hmem
          rw [hnumber, ← hm]
          exact (hnew it' hit').symm
      | none =>
          dsimp only
          refine Triple.bind (put_rule (R := Touched p₀ b.items)
            (Q := fun id p => (Touched p₀ (done ++ [it]) p ∧ ∀ it' ∈ done, Carded lower fields p it') ∧
              ∃ c ∈ p.cards.entries, c.id = id ∧ c.number = some n) ?_ ?_) fun out => ?_
          · rintro p p' m id ⟨htouched, hcarded⟩ happly
            obtain ⟨hfields', honce, hcard, hothers⟩ := apply_itemAdd htouched.once happly
            refine ⟨⟨(htouched.mono hleft).step hit hn hfields' honce hothers, ?_⟩, hcard⟩
            exact fun it' hit' => (hcarded it' hit').keep (hnew it' hit') hothers
          · rintro p ⟨htouched, -⟩
            exact htouched.mono fun it' hit' => hall it' (hleft it' hit')
          · rintro w ⟨card, rfl, hlog, p, hp, hstate, c, hc, hid, hnumber⟩
            refine Triple.conseq (setStatus_rule hdone hit hn hfields) (fun _ hs => hs)
              (fun _ _ hs => hs) hstop w ?_
            exact ⟨hlog, p, hp, hstate, c, hc, hid, hnumber, Or.inl rfl⟩

end Loop

/-- Everything answered since the log was `log₀`. -/
def AllAnswered (log₀ log : List (BoardCall × Bool)) : Prop :=
  ∀ e ∈ log.drop log₀.length, e.2 = true

/-- How a run of `sync_board` ends: no cards were touched but those of the lines,
each issue has one card, and if everything was answered each line has its card,
which says what the line wants. -/
structure Pinned (lower : Text → Text) (b : Board) (w : Wall) (p₀ : Project) (w' : Wall) (ok : Bool) :
    Prop where
  touched : ∃ p, w'.project = some p ∧ Touched p₀ b.items p ∧
    (ok = true → AllAnswered w.log w'.log → ∀ it ∈ b.items, Carded lower p.fields p it)

/-- A read never stops the run. -/
theorem look_rule {E : BoardCall → Wall → Prop} (answers : Answers) (c : BoardCall) (w : Wall) :
    Triple (· = w) (look answers c) (fun came w' => w' = w.saw c came) E := by
  rintro w' rfl
  exact rfl

/-- What is in the log was answered, if everything was. -/
theorem AllAnswered.of_prefix {log₀ more log : List (BoardCall × Bool)} (h : AllAnswered log₀ log)
    (hlog : log₀ ++ more <+: log) {e : BoardCall × Bool} (he : e ∈ more) : e.2 = true := by
  obtain ⟨rest, rfl⟩ := hlog
  refine h e ?_
  rw [List.append_assoc, List.drop_left]
  exact List.mem_append_left _ he

/-- A project with one card, which is nowhere yet. -/
def oneCard : Project where
  fields := [⟨"Status".toList, ['f'], [⟨['D', 'o', 'n', 'e'], ['d'], by simp⟩], by simp⟩]
  cards := ⟨[⟨1, some 7, none⟩], by simp⟩
  nodup := by simp

theorem oneCard_once : oneCard.Once := by
  intro c hc c' hc' _ _ _
  rw [List.mem_singleton.mp hc, List.mem_singleton.mp hc']

/-- A board with the line of that card, ticked. -/
def oneTick : Board := ⟨[], [⟨['M', '1'], true, ['a'], none, none, some 7, 1, 1⟩], .empty⟩

/-- A line with its card is passed over. -/
theorem pinItem_idle {lower : Text → Text} {p : Project} (honce : p.Once) {it : Item}
    (hcarded : Carded lower p.fields p it) (dry : Bool) (answers : Answers) :
    pinItem lower dry answers p.fields (.indexBy Card.number p.cards.entries) it = pure ⟨⟩ := by
  unfold pinItem
  cases hn : it.number with
  | none => rfl
  | some n =>
      obtain ⟨c, hc, hnumber, hright⟩ := hcarded n hn
      dsimp only
      cases hget : (Dict.indexBy Card.number p.cards.entries).get? (some n) with
      | none => exact absurd (List.mem_map.mpr ⟨c, hc, hnumber⟩) ((Dict.get?_indexBy_none _).mp hget)
      | some c' =>
          obtain ⟨hc', hnumber'⟩ := Dict.mem_of_get?_indexBy _ hget
          obtain rfl := honce c hc c' hc' n hnumber hnumber'
          dsimp only
          unfold setStatus
          cases hwant : want lower p.fields it with
          | none => rfl
          | some fo =>
              obtain ⟨f, o⟩ := fo
              dsimp only
              rw [hright f o hwant]
              exact if_pos rfl

end Carwatch.BoardSync
