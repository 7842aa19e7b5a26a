import Carwatch.Store.Batch

/-!
# Carwatch.Store.Session — one spec for each call on a `wal_t`

* `Wal.Holds w n rs` — the buffer of `w` holds exactly the records `rs`, which
  are numbered from `n` on; `rs = []` is "no batch open";
* `walAdd_holds` — `walAdd`, accepted or refused;
* `CommitOutcome` — every way `walCommit` can end, with the directory it
  leaves (`walCommit_outcome`), and `Wal.Holds.batch`, the batch it writes;
* `createSegment_cases`, `recoverSegment_cases` — the calls of `walOpenLog`.

Nothing after this module unfolds these functions.
-/

namespace Carwatch.Store

open Carwatch.Lib

/-! ## What callers hand in -/

/-- What the caller of `wal_add` decides about a record. -/
structure Content where
  kind : UInt16
  src : UInt8
  monoNs : UInt64
  wallNs : UInt64
  body : Bytes
deriving DecidableEq, Repr

/-- The part of a decoded record its caller decided. -/
def Rec.content (r : Rec) : Content :=
  ⟨r.hdr.kind, r.hdr.src, r.hdr.monoNs, r.hdr.wallNs, r.body⟩

/-- The contents of all records that are neither BEGIN nor COMMIT. -/
def contents (rs : List Rec) : List Content := (rs.filter fun r => decide r.Inside).map Rec.content

@[simp] theorem contents_nil : contents [] = [] := rfl

@[simp] theorem contents_append (rs rs' : List Rec) :
    contents (rs ++ rs') = contents rs ++ contents rs' := by
  simp [contents]

theorem contents_inside {r : Rec} (h : r.Inside) : contents [r] = [r.content] := by
  simp [contents, h]

theorem contents_outside {r : Rec} (h : ¬ r.Inside) : contents [r] = [] := by
  simp [contents, h]

/-- The arguments of a `wal_add` call. BEGIN and COMMIT are the log's own
brackets, which no caller adds. -/
structure AddReq where
  kind : UInt16
  src : UInt8
  now : Now
  body : Body
  inside : kind ≠ RecKind.begin.code ∧ kind ≠ RecKind.commit.code

theorem event_inside :
    RecKind.event.code ≠ RecKind.begin.code ∧ RecKind.event.code ≠ RecKind.commit.code := by
  decide

/-- The record content a call asks for. -/
def AddReq.content (q : AddReq) : Content :=
  ⟨q.kind, q.src, q.now.mono, q.now.wall, q.body.bytes⟩

/-- `wal_add` with these arguments. -/
def AddReq.run (q : AddReq) (w : Wal) (clk : BeginClock) : Bool × Wal :=
  walAdd w q.kind q.src q.now q.body clk

/-! ## Numbering -/

/-- The records carry the seqs `n`, `n + 1`, and so on. -/
def Numbered (n : ℕ) (rs : List Rec) : Prop :=
  rs.map (fun r => r.hdr.seq) = (List.range' n rs.length).map UInt64.ofNat

@[simp] theorem numbered_nil (n : ℕ) : Numbered n [] := rfl

theorem numbered_singleton {n : ℕ} {r : Rec} (h : r.hdr.seq = UInt64.ofNat n) : Numbered n [r] := by
  simp [Numbered, h]

theorem numbered_append_iff {n : ℕ} {rs rs' : List Rec} :
    Numbered n (rs ++ rs') ↔ Numbered n rs ∧ Numbered (n + rs.length) rs' := by
  have hrange : List.range' n rs.length ++ List.range' (n + rs.length) rs'.length =
      List.range' n (rs.length + rs'.length) := by
    simp
  unfold Numbered
  rw [List.map_append, List.length_append, ← hrange, List.map_append]
  constructor
  · exact fun h => List.append_inj h (by simp)
  · rintro ⟨h, h'⟩
    rw [h, h']

theorem numbered_append {n : ℕ} {rs rs' : List Rec} (h : Numbered n rs)
    (h' : Numbered (n + rs.length) rs') : Numbered n (rs ++ rs') :=
  numbered_append_iff.mpr ⟨h, h'⟩

theorem numbered_last {n : ℕ} {rs : List Rec} {r : Rec} (h : Numbered n (rs ++ [r])) :
    r.hdr.seq = UInt64.ofNat (n + rs.length) := by
  have hlast := (numbered_append_iff.mp h).2
  simpa [Numbered] using hlast

/-! ## The buffer -/

/-- A batch that is still open: a BEGIN of transaction `txn`, then records
that belong inside a batch. -/
def Framed (txn : UInt64) : List Rec → Prop
  | [] => True
  | beg :: payload => beg.hdr.kind = RecKind.begin.code ∧ txnOf beg.body = txn ∧
      ∀ r ∈ payload, r.Inside

/-- The buffer of `w` holds exactly the records `rs`, numbered from `n` on. -/
structure Wal.Holds (w : Wal) (n : ℕ) (rs : List Rec) : Prop where
  buf : w.buf = images rs
  isOpen : w.openBatch = !rs.isEmpty
  wf : ∀ r ∈ rs, r.Wf
  framed : Framed w.nextTxn rs
  numbered : Numbered n rs
  next : w.nextSeq = UInt64.ofNat (n + rs.length)
  first : rs ≠ [] → w.batchSeq0 = UInt64.ofNat n
  boot : ∀ r ∈ rs, r.hdr.bootId = w.bootId

/-- What a session keeps from `wal_open` on. -/
structure Wal.SameSession (w w' : Wal) : Prop where
  boot : w'.bootId = w.bootId
  src : w'.src = w.src
  flags : w'.flags = w.flags
  recovered : w'.recovered = w.recovered

theorem Wal.SameSession.refl (w : Wal) : w.SameSession w := ⟨rfl, rfl, rfl, rfl⟩

theorem Wal.SameSession.trans {w w' w'' : Wal} (h : w.SameSession w') (h' : w'.SameSession w'') :
    w.SameSession w'' :=
  ⟨h'.boot.trans h.boot, h'.src.trans h.src, h'.flags.trans h.flags,
    h'.recovered.trans h.recovered⟩

/-- What `wal_add` does not touch. -/
structure Wal.SameFile (w w' : Wal) : Prop extends w.SameSession w' where
  fd : w'.fd = w.fd
  segBytes : w'.segBytes = w.segBytes
  nextTxn : w'.nextTxn = w.nextTxn

theorem append_eq_some {w w' : Wal} {kind : UInt16} {src : UInt8} {now : Now} {body : Body}
    (h : append w kind src now body = some w') :
    (w.record kind src now body).stamped.Wf ∧
    w' = { w with
      buf := w.buf ++ (w.record kind src now body).stamped.image
      nextSeq := w.nextSeq + 1 } := by
  unfold append at h
  cases henc : recEncode (walBufBytes - w.buf.length) (w.record kind src now body) with
  | none => simp [henc] at h
  | some out =>
      obtain ⟨hacc, -, rfl⟩ := (recEncode_eq_some_iff _ _ _).mp henc
      rw [henc] at h
      exact ⟨⟨hacc, rfl⟩, (Option.some.inj h).symm⟩

theorem append_length_le {w w' : Wal} {kind : UInt16} {src : UInt8} {now : Now} {body : Body}
    (h : append w kind src now body = some w') : w'.buf.length ≤ walBufBytes := by
  unfold append at h
  cases henc : recEncode (walBufBytes - w.buf.length) (w.record kind src now body) with
  | none => simp [henc] at h
  | some out =>
      obtain ⟨-, hcap, rfl⟩ := (recEncode_eq_some_iff _ _ _).mp henc
      have hpos := (w.record kind src now body).size_pos
      rw [henc] at h
      rw [← Option.some.inj h]
      simp only [List.length_append, Rec.length_frame]
      omega

@[simp] theorem txnOf_beginBody (txn : UInt64) : txnOf (beginBody txn).bytes = txn := by
  have hlt : txn.toNat < 256 ^ 8 := txn.toNat_lt
  have hfield := field_leBytes 8 txn.toNat []
  rw [List.append_nil, Nat.mod_eq_of_lt hlt] at hfield
  rw [txnOf, beginBody, hfield, UInt64.ofNat_toNat]

@[simp] theorem txnOf_commitBody (txn : UInt64) (records : UInt32) :
    txnOf (commitBody txn records).bytes = txn := by
  have hlt : txn.toNat < 256 ^ 8 := txn.toNat_lt
  rw [txnOf, commitBody, field_leBytes, Nat.mod_eq_of_lt hlt, UInt64.ofNat_toNat]

theorem ofNat_add_one (n : ℕ) : UInt64.ofNat n + 1 = UInt64.ofNat (n + 1) := by
  simp [UInt64.ofNat_add]

/-- A record added to an open batch. -/
theorem Wal.Holds.append_inside {w w' : Wal} {n : ℕ} {rs : List Rec} (h : w.Holds n rs)
    (hne : rs ≠ []) {kind : UInt16} {src : UInt8} {now : Now} {body : Body}
    (hinside : kind ≠ RecKind.begin.code ∧ kind ≠ RecKind.commit.code)
    (happ : append w kind src now body = some w') :
    w'.Holds n (rs ++ [(w.record kind src now body).stamped]) := by
  obtain ⟨hwf, rfl⟩ := append_eq_some happ
  -- behind the begin record comes payload, and this is one more
  cases rs with
  | nil => exact absurd rfl hne
  | cons beg payload =>
      obtain ⟨hkind, htxn, hpay⟩ := h.framed
      refine ⟨?_, ?_, ?_, ⟨hkind, htxn, ?_⟩, ?_, ?_, fun _ => h.first hne, ?_⟩
      · simp [h.buf]
      · simpa using h.isOpen
      · intro r hr
        rcases List.mem_append.mp hr with hr | hr
        · exact h.wf r hr
        · rw [List.mem_singleton.mp hr]
          exact hwf
      · intro r hr
        rcases List.mem_append.mp hr with hr | hr
        · exact hpay r hr
        · rw [List.mem_singleton.mp hr]
          exact hinside
      · exact numbered_append h.numbered (numbered_singleton h.next)
      · simp only [h.next, ofNat_add_one, List.length_append, List.length_singleton]
        rfl
      · intro r hr
        rcases List.mem_append.mp hr with hr | hr
        · exact h.boot r hr
        · rw [List.mem_singleton.mp hr]
          rfl

/-! ## `wal_add` -/

/-- `*w` after the block of `wal_add` that opens a batch. -/
theorem walBegin_holds {w w' : Wal} {n : ℕ} {rs : List Rec} (h : w.Holds n rs) {clk : BeginClock}
    {ok : Bool} (hrun : walBegin w clk = (ok, w')) :
    ∃ new, w'.Holds n (rs ++ new) ∧ w.SameFile w' ∧ contents new = [] ∧
      (ok = true → rs ++ new ≠ []) := by
  unfold walBegin at hrun
  split_ifs at hrun with hopen
  · obtain ⟨rfl, rfl⟩ := Prod.mk.inj hrun
    refine ⟨[], by simpa using h, ⟨Wal.SameSession.refl w, rfl, rfl, rfl⟩, rfl, fun _ => ?_⟩
    rintro hnil
    rw [List.append_nil] at hnil
    simp [h.isOpen, hnil] at hopen
  · have hrs : rs = [] := by
      cases rs with
      | nil => rfl
      | cons r rs => simp [h.isOpen] at hopen
    subst hrs
    have hnext : w.nextSeq = UInt64.ofNat n := by simpa using h.next
    simp only at hrun
    split at hrun
    · obtain ⟨rfl, rfl⟩ := Prod.mk.inj hrun
      refine ⟨[], ?_, ⟨⟨rfl, rfl, rfl, rfl⟩, rfl, rfl, rfl⟩, rfl, fun hok => by simp at hok⟩
      exact ⟨h.buf, h.isOpen, h.wf, h.framed, h.numbered, h.next, fun hne => absurd rfl hne,
        h.boot⟩
    -- the begin record went in: it alone is what the batch holds
    · rename_i w₁ happ
      obtain ⟨hwf, rfl⟩ := append_eq_some happ
      obtain ⟨rfl, rfl⟩ := Prod.mk.inj hrun
      generalize hbeg : Rec.stamped _ = beg at hwf
      have hkind : beg.hdr.kind = RecKind.begin.code := by rw [← hbeg]; rfl
      have hbody : beg.body = (beginBody w.nextTxn).bytes := by rw [← hbeg]; rfl
      have hseq : beg.hdr.seq = UInt64.ofNat n := by rw [← hbeg, ← hnext]; rfl
      have hboot : beg.hdr.bootId = w.bootId := by rw [← hbeg]; rfl
      refine ⟨[beg], ?_, ⟨⟨rfl, rfl, rfl, rfl⟩, rfl, rfl, rfl⟩,
        contents_outside fun hin => hin.1 hkind, fun _ => by simp⟩
      rw [List.nil_append]
      refine ⟨?_, rfl, by simpa using hwf, ⟨hkind, ?_, by simp⟩, numbered_singleton hseq, ?_,
        fun _ => hnext, by simpa using hboot⟩
      · change w.buf ++ Rec.image _ = _
        rw [h.buf, images_cons, images_nil, List.nil_append, List.append_nil]
      · rw [hbody, txnOf_beginBody]
      · change w.nextSeq + 1 = _
        rw [hnext, ofNat_add_one, List.length_singleton]

/-- `wal_add`, accepted or refused: the buffer grows by whole records, of which
exactly the accepted one was asked for. -/
theorem walAdd_holds {w w' : Wal} {n : ℕ} {rs : List Rec} (h : w.Holds n rs) {q : AddReq}
    {clk : BeginClock} {ok : Bool} (hrun : q.run w clk = (ok, w')) :
    ∃ new, w'.Holds n (rs ++ new) ∧ w.SameFile w' ∧
      contents new = if ok then [q.content] else [] := by
  unfold AddReq.run walAdd at hrun
  split at hrun
  · obtain ⟨rfl, rfl⟩ := Prod.mk.inj hrun
    exact ⟨[], by simpa using h, ⟨Wal.SameSession.refl w, rfl, rfl, rfl⟩, rfl⟩
  · cases hbeg : walBegin w clk with
    | mk begun w₁ =>
        obtain ⟨new, hholds, hsame, hnone, hne⟩ := walBegin_holds h hbeg
        rw [hbeg] at hrun
        cases begun with
        | false =>
            obtain ⟨rfl, rfl⟩ := Prod.mk.inj hrun
            exact ⟨new, hholds, hsame, hnone⟩
        | true =>
            simp only at hrun
            cases happ : append w₁ q.kind q.src q.now q.body with
            | none =>
                rw [happ] at hrun
                obtain ⟨rfl, rfl⟩ := Prod.mk.inj hrun
                exact ⟨new, hholds, hsame, hnone⟩
            | some w₂ =>
                -- both records went in
                have hin := hholds.append_inside (hne rfl) q.inside happ
                rw [happ] at hrun
                obtain ⟨rfl, rfl⟩ := Prod.mk.inj hrun
                obtain ⟨-, rfl⟩ := append_eq_some happ
                refine ⟨new ++ [(w₁.record q.kind q.src q.now q.body).stamped], ?_, ?_, ?_⟩
                · rw [← List.append_assoc]
                  exact ⟨hin.buf, hin.isOpen, hin.wf, hin.framed, hin.numbered, hin.next,
                    hin.first, hin.boot⟩
                · exact ⟨⟨hsame.boot, hsame.src, hsame.flags, hsame.recovered⟩, hsame.fd,
                    hsame.segBytes, hsame.nextTxn⟩
                · rw [contents_append, hnone, List.nil_append]
                  exact contents_inside q.inside

/-! ## The write loop -/

/-- The directory with bytes appended to the segment a descriptor is open on. -/
def Dir.extend (d : Dir) (fd : Option UInt64) (x : Bytes) : Dir :=
  match fd with
  | none => d
  | some seg => d.modify seg (· ++ x)

@[simp] theorem Dir.extend_none (d : Dir) (x : Bytes) : d.extend none x = d := rfl

theorem Dir.modify_modify (d : Dir) (seg : UInt64) (f g : Bytes → Bytes) :
    (d.modify seg f).modify seg g = d.modify seg (g ∘ f) := by
  unfold Dir.modify
  rw [List.map_map]
  apply List.map_congr_left
  intro s _
  by_cases hs : s.first = seg <;> simp [hs]

theorem Dir.modify_id (d : Dir) (seg : UInt64) {f : Bytes → Bytes}
    (h : ∀ s ∈ d, s.first = seg → f s.data = s.data) : d.modify seg f = d := by
  unfold Dir.modify
  refine (List.map_congr_left fun s hs => ?_).trans (List.map_id d)
  by_cases hseg : s.first = seg
  · rw [if_pos hseg, h s hs hseg, id]
  · rw [if_neg hseg, id]

@[simp] theorem Dir.extend_nil (d : Dir) (fd : Option UInt64) : d.extend fd [] = d := by
  cases fd with
  | none => rfl
  | some seg => exact d.modify_id (f := (· ++ [])) seg fun s _ _ => List.append_nil s.data

theorem Dir.extend_extend (d : Dir) (fd : Option UInt64) (x y : Bytes) :
    (d.extend fd x).extend fd y = d.extend fd (x ++ y) := by
  cases fd with
  | none => rfl
  | some seg =>
      simp only [Dir.extend, Dir.modify_modify]
      congr 1
      funext data
      simp [Function.comp]

/-- How many of `len` bytes the file takes before the write loop ends. -/
def bytesTaken : List WriteAns → ℕ → ℕ
  | [], _ => 0
  | .intr :: as, len => bytesTaken as len
  | .fail :: _, _ => 0
  | .wrote n :: as, len => min n len + bytesTaken as (len - n)

/-- How the write loop ends with `len` bytes to write. -/
def writeEnd : List WriteAns → ℕ → WriteRes
  | _, 0 => .done
  | [], _ + 1 => .killed
  | .intr :: as, len + 1 => writeEnd as (len + 1)
  | .fail :: _, _ + 1 => .failed
  | .wrote n :: as, len + 1 => writeEnd as (len + 1 - n)

@[simp] theorem bytesTaken_zero (writes : List WriteAns) : bytesTaken writes 0 = 0 := by
  induction writes with
  | nil => rfl
  | cons a as ih => cases a <;> simp [bytesTaken, ih]

@[simp] theorem writeEnd_zero (writes : List WriteAns) : writeEnd writes 0 = .done := by
  cases writes <;> rfl

theorem bytesTaken_le (writes : List WriteAns) (len : ℕ) : bytesTaken writes len ≤ len := by
  induction writes generalizing len with
  | nil => exact Nat.zero_le _
  | cons a as ih =>
      cases a with
      | intr => exact ih len
      | fail => exact Nat.zero_le _
      | wrote n =>
          have h := ih (len - n)
          simp only [bytesTaken]
          omega

theorem bytesTaken_of_done {writes : List WriteAns} {len : ℕ} (h : writeEnd writes len = .done) :
    bytesTaken writes len = len := by
  induction writes generalizing len with
  | nil => cases len with
      | zero => rfl
      | succ len => simp [writeEnd] at h
  | cons a as ih =>
      cases len with
      | zero => simp
      | succ len =>
          cases a with
          | intr => exact ih h
          | fail => simp [writeEnd] at h
          | wrote n =>
              have h' := @ih (len + 1 - n) h
              simp only [bytesTaken, h']
              omega

/-- The write loop on an open descriptor, in terms of its answers. -/
theorem writeAll_some (seg : UInt64) (writes : List WriteAns) (buf : Bytes) (d : Dir) :
    writeAll (some seg) writes buf d =
      (writeEnd writes buf.length,
        d.extend (some seg) (buf.take (bytesTaken writes buf.length))) := by
  induction writes generalizing buf d with
  | nil =>
      cases buf with
      | nil => simp [writeAll]
      | cons b buf => simp [writeAll, writeEnd, bytesTaken]
  | cons a as ih =>
      cases buf with
      | nil => simp [writeAll]
      | cons b buf =>
          cases a with
          | intr => simpa [writeAll, writeEnd, bytesTaken] using ih (b :: buf) d
          | fail => simp [writeAll, writeEnd, bytesTaken]
          | wrote n =>
              have hd : d.modify seg (· ++ (b :: buf).take n) =
                  d.extend (some seg) ((b :: buf).take n) := rfl
              -- what a write takes and what the later ones take is one piece of the buffer
              have htake : (b :: buf).take n ++
                  ((b :: buf).drop n).take (bytesTaken as ((b :: buf).length - n)) =
                  (b :: buf).take (bytesTaken (.wrote n :: as) (b :: buf).length) := by
                rw [← List.take_add, bytesTaken]
                rcases le_total n (b :: buf).length with hle | hle
                · rw [min_eq_left hle]
                · rw [min_eq_right hle, Nat.sub_eq_zero_of_le hle, bytesTaken_zero, Nat.add_zero,
                    Nat.add_zero, List.take_of_length_le hle, List.take_length]
              simp only [writeAll]
              rw [hd, ih, Dir.extend_extend, List.length_drop, htake]
              rfl

/-- The write loop on a descriptor of -1 writes nothing. -/
theorem writeAll_none (writes : List WriteAns) {buf : Bytes} (hbuf : buf ≠ []) (d : Dir) :
    writeAll none writes buf d = (.killed, d) ∨ writeAll none writes buf d = (.failed, d) := by
  cases buf with
  | nil => exact absurd rfl hbuf
  | cons b buf =>
      cases writes with
      | nil => exact Or.inl rfl
      | cons a as => exact Or.inr rfl

/-! ## `wal_commit` -/

/-- An answer makes `create_segment` fail. -/
def CreateAns.Fails (io : CreateAns) : Prop :=
  io.openFd = some false ∨
  (io.openFd = some true ∧ io.dirOpen = some false) ∨
  (io.openFd = some true ∧ io.dirOpen = some true ∧ io.dirSync = some false)

instance (io : CreateAns) : Decidable io.Fails := inferInstanceAs (Decidable (_ ∨ _ ∨ _))

/-- The ways `create_segment` can end. -/
theorem createSegment_cases {w : Wal} {first : UInt64} {io : CreateAns} {d d' : Dir}
    {r : Option (Bool × Wal)} (h : createSegment w first io d = (r, d')) :
    (r = some (true, { w with fd := some first, segBytes := 0 }) ∧ ¬ io.Fails ∧
      (∀ s ∈ d, s.first ≠ first) ∧ d' = d ++ [⟨first, []⟩]) ∨
    ((r = none ∨ r = some (false, w) ∧ (io.Fails ∨ ∃ s ∈ d, s.first = first)) ∧
      (d' = d ∨ (∀ s ∈ d, s.first ≠ first) ∧ d' = d ++ [⟨first, []⟩])) := by
  have hany : (d.any fun s => decide (s.first = first)) = true ↔ ∃ s ∈ d, s.first = first := by
    simp
  unfold createSegment at h
  split at h
  · obtain ⟨rfl, rfl⟩ := Prod.mk.inj h
    exact Or.inr ⟨Or.inl rfl, Or.inl rfl⟩
  · rename_i hopen
    obtain ⟨rfl, rfl⟩ := Prod.mk.inj h
    exact Or.inr ⟨Or.inr ⟨rfl, Or.inl (Or.inl hopen)⟩, Or.inl rfl⟩
  · rename_i hopen
    split_ifs at h with hex
    · obtain ⟨rfl, rfl⟩ := Prod.mk.inj h
      exact Or.inr ⟨Or.inr ⟨rfl, Or.inr (hany.mp hex)⟩, Or.inl rfl⟩
    -- the file is made now, and stays if a sync fails
    · have hnew : ∀ s ∈ d, s.first ≠ first := fun s hs heq => hex (hany.mpr ⟨s, hs, heq⟩)
      split at h
      · obtain ⟨rfl, rfl⟩ := Prod.mk.inj h
        exact Or.inr ⟨Or.inl rfl, Or.inr ⟨hnew, rfl⟩⟩
      · rename_i hdir
        obtain ⟨rfl, rfl⟩ := Prod.mk.inj h
        exact Or.inr ⟨Or.inr ⟨rfl, Or.inl (Or.inr (Or.inl ⟨hopen, hdir⟩))⟩, Or.inr ⟨hnew, rfl⟩⟩
      · rename_i hdir
        split at h
        · obtain ⟨rfl, rfl⟩ := Prod.mk.inj h
          exact Or.inr ⟨Or.inl rfl, Or.inr ⟨hnew, rfl⟩⟩
        · rename_i hsync
          obtain ⟨rfl, rfl⟩ := Prod.mk.inj h
          exact Or.inr ⟨Or.inr ⟨rfl, Or.inl (Or.inr (Or.inr ⟨hopen, hdir, hsync⟩))⟩,
            Or.inr ⟨hnew, rfl⟩⟩
        · rename_i hsync
          obtain ⟨rfl, rfl⟩ := Prod.mk.inj h
          refine Or.inl ⟨rfl, ?_, hnew, rfl⟩
          simp [CreateAns.Fails, hopen, hdir, hsync]

/-- `*w` once the batch in its buffer is durable. -/
def Wal.settled (w : Wal) : Wal :=
  { w with
    segBytes := w.segBytes + w.buf.length
    buf := []
    openBatch := false
    batchSamples := 0
    nextTxn := w.nextTxn + 1 }

/-- Every way `wal_commit` can end once the COMMIT is in the buffer of `w`. -/
inductive CommitOutcome (w : Wal) (io : CommitAns) (d : Dir) : Option (Bool × Wal) → Dir → Prop
  /-- killed with `k` bytes of the batch in the file -/
  | killed (k : ℕ) (hk : k ≤ w.buf.length) :
      CommitOutcome w io d none (d.extend w.fd (w.buf.take k))
  /-- failed, and the file is cut back -/
  | undone (seg : UInt64) (k : ℕ) (hfd : w.fd = some seg) (hk : k ≤ w.buf.length) :
      CommitOutcome w io d (some (false, dropBatch w))
        ((d.extend (some seg) (w.buf.take k)).modify seg (truncateTo w.segBytes))
  /-- failed, and cutting the file back failed as well -/
  | stuck (seg : UInt64) (hfd : w.fd = some seg) (hio : io.ftruncate = some false)
      (hend : writeEnd io.writes w.buf.length = .failed ∨
        writeEnd io.writes w.buf.length = .done ∧ io.fsync = some false) :
      CommitOutcome w io d (some (false, dropBatch w))
        (d.extend (some seg) (w.buf.take (bytesTaken io.writes w.buf.length)))
  /-- no segment is open -/
  | closed (hfd : w.fd = none) : CommitOutcome w io d (some (false, dropBatch w)) d
  /-- durable, and the segment is not full -/
  | done (seg : UInt64) (hfd : w.fd = some seg)
      (hroom : w.segBytes + w.buf.length < walSegmentBytes) :
      CommitOutcome w io d (some (true, w.settled)) (d.extend (some seg) w.buf)
  /-- durable, and the next segment is made -/
  | rolled (seg : UInt64) (hfd : w.fd = some seg)
      (hend : writeEnd io.writes w.buf.length = .done) (hsync : io.fsync = some true)
      (hfull : walSegmentBytes ≤ w.segBytes + w.buf.length) (hclose : io.close ≠ none)
      (r : Option (Bool × Wal)) (d' : Dir)
      (hcreate : createSegment { w.settled with fd := none } w.nextSeq io.create
        (d.extend (some seg) w.buf) = (r, d')) :
      CommitOutcome w io d r d'

theorem walUndo_outcome {w : Wal} {io : CommitAns} {d d' : Dir} {r : Option (Bool × Wal)}
    {seg : UInt64} (hfd : w.fd = some seg)
    (hend : writeEnd io.writes w.buf.length = .failed ∨
      writeEnd io.writes w.buf.length = .done ∧ io.fsync = some false)
    (h : walUndo w io (d.extend (some seg) (w.buf.take (bytesTaken io.writes w.buf.length))) =
      (r, d')) : CommitOutcome w io d r d' := by
  have hle := bytesTaken_le io.writes w.buf.length
  unfold walUndo at h
  split at h
  · obtain ⟨rfl, rfl⟩ := Prod.mk.inj h
    rw [← hfd]
    exact .killed _ hle
  · rename_i ok htrunc
    rw [hfd] at h
    cases ok with
    | false =>
        obtain ⟨rfl, rfl⟩ := Prod.mk.inj h
        exact .stuck seg hfd htrunc hend
    | true =>
        obtain ⟨rfl, rfl⟩ := Prod.mk.inj h
        exact .undone seg _ hfd hle

/-- What `wal_commit` does with an open batch. -/
theorem walCommit_outcome {w w₁ : Wal} {now : Now} {io : CommitAns} {d d' : Dir}
    {r : Option (Bool × Wal)} (hopen : w.openBatch = true)
    (happ : append w RecKind.commit.code w.src now (commitBody w.nextTxn w.batchSamples) = some w₁)
    (h : walCommit w now io d = (r, d')) : CommitOutcome w₁ io d r d' := by
  unfold walCommit at h
  rw [hopen, happ] at h
  simp only [Bool.not_true, Bool.false_eq_true, if_false] at h
  -- there is at least the commit record to be written
  have hbuf : w₁.buf ≠ [] := by
    obtain ⟨-, rfl⟩ := append_eq_some happ
    intro hnil
    have hlen := congrArg List.length hnil
    simp only [List.length_append, Rec.length_image, Rec.size_eq, List.length_nil] at hlen
    omega
  cases hfd : w₁.fd with
  | none =>
      rw [hfd] at h
      rcases writeAll_none io.writes hbuf d with hw | hw
      · rw [hw] at h
        obtain ⟨rfl, rfl⟩ := Prod.mk.inj h
        simpa [hfd] using @CommitOutcome.killed w₁ io d 0 (Nat.zero_le _)
      · rw [hw] at h
        simp only [walUndo, hfd] at h
        split at h
        · obtain ⟨rfl, rfl⟩ := Prod.mk.inj h
          simpa [hfd] using @CommitOutcome.killed w₁ io d 0 (Nat.zero_le _)
        · rename_i ok _
          cases ok <;>
          · obtain ⟨rfl, rfl⟩ := Prod.mk.inj h
            exact .closed hfd
  | some seg =>
      rw [hfd, writeAll_some] at h
      cases hend : writeEnd io.writes w₁.buf.length with
      | killed =>
          rw [hend] at h
          obtain ⟨rfl, rfl⟩ := Prod.mk.inj h
          rw [← hfd]
          exact .killed _ (bytesTaken_le _ _)
      | failed =>
          rw [hend] at h
          exact walUndo_outcome hfd (Or.inl hend) h
      -- all is written; the sync is next, and the room in the segment after that
      | done =>
          rw [hend] at h
          simp only at h
          split at h
          · obtain ⟨rfl, rfl⟩ := Prod.mk.inj h
            rw [← hfd]
            exact .killed _ (bytesTaken_le _ _)
          · rename_i hsync
            exact walUndo_outcome hfd (Or.inr ⟨hend, hsync⟩) h
          · rename_i hsync
            rw [bytesTaken_of_done hend, List.take_length] at h
            split_ifs at h with hroom
            · obtain ⟨rfl, rfl⟩ := Prod.mk.inj h
              have hdone := @CommitOutcome.done w₁ io d seg hfd hroom
              rw [Wal.settled, hfd] at hdone
              exact hdone
            · split at h
              · obtain ⟨rfl, rfl⟩ := Prod.mk.inj h
                have hkill := @CommitOutcome.killed w₁ io d _ le_rfl
                rwa [List.take_length, hfd] at hkill
              · rename_i hclose
                exact .rolled seg hfd hend hsync (not_lt.mp hroom) (by simp [hclose]) r d' h

/-- The batch `wal_commit` writes: what the buffer held, closed by a COMMIT. -/
theorem Wal.Holds.batch {w w₁ : Wal} {n : ℕ} {rs : List Rec} (h : w.Holds n rs)
    (hopen : w.openBatch = true) {now : Now}
    (happ : append w RecKind.commit.code w.src now (commitBody w.nextTxn w.batchSamples) =
      some w₁) :
    ∃ b : Batch, (∃ com, b.recs = rs ++ [com]) ∧ contents b.recs = contents rs ∧
      Numbered n b.recs ∧ (∀ r ∈ b.recs, r.hdr.bootId = w.bootId) ∧
      w.SameFile w₁ ∧ w₁.buf = b.bytes ∧ w₁.nextSeq = UInt64.ofNat (n + b.recs.length) ∧
      w₁.batchSeq0 = w.batchSeq0 := by
  obtain ⟨hwf, hw₁⟩ := append_eq_some happ
  generalize hcom : Rec.stamped _ = com at hwf hw₁
  have hkind : com.hdr.kind = RecKind.commit.code := by rw [← hcom]; rfl
  have hbody : com.body = (commitBody w.nextTxn w.batchSamples).bytes := by rw [← hcom]; rfl
  have hseq : com.hdr.seq = w.nextSeq := by rw [← hcom]; rfl
  have hboot : com.hdr.bootId = w.bootId := by rw [← hcom]; rfl
  cases rs with
  | nil => simp [h.isOpen] at hopen
  | cons beg payload =>
      obtain ⟨hbeg, htxn, hpay⟩ := h.framed
      have htxn' : txnOf com.body = txnOf beg.body := by rw [hbody, txnOf_commitBody, htxn]
      let b : Batch :=
        { beg := beg, payload := payload, com := com
          beg_wf := h.wf beg List.mem_cons_self
          payload_wf := fun r hr => h.wf r (List.mem_cons_of_mem beg hr)
          com_wf := hwf, beg_kind := hbeg, payload_inside := hpay, com_kind := hkind
          txn_eq := htxn' }
      have hrecs : b.recs = (beg :: payload) ++ [com] := rfl
      subst hw₁
      refine ⟨b, ⟨com, hrecs⟩, ?_, ?_, ?_, ⟨⟨rfl, rfl, rfl, rfl⟩, rfl, rfl, rfl⟩, ?_, ?_, rfl⟩
      · rw [hrecs, contents_append, contents_outside fun hin => hin.2 hkind, List.append_nil]
      · rw [hrecs]
        exact numbered_append h.numbered (numbered_singleton (hseq.trans h.next))
      · intro r hr
        rw [hrecs] at hr
        rcases List.mem_append.mp hr with hr | hr
        · exact h.boot r hr
        · rw [List.mem_singleton.mp hr, hboot]
      · rw [Batch.bytes, hrecs, images_append, h.buf, images_cons com, images_nil, List.append_nil]
      · rw [hrecs, h.next, ofNat_add_one, List.length_append, List.length_singleton, Nat.add_assoc]

/-- The COMMIT adds 60 bytes to the buffer. -/
theorem append_commit_length {w w₁ : Wal} {now : Now} {txn : UInt64} {records : UInt32}
    (h : append w RecKind.commit.code w.src now (commitBody txn records) = some w₁) :
    w₁.buf.length = w.buf.length + 60 := by
  obtain ⟨-, rfl⟩ := append_eq_some h
  have hlen : (w.record RecKind.commit.code w.src now (commitBody txn records)).size = 60 := by
    simp [Rec.size_eq, Wal.record, commitBody]
  rw [List.length_append, Rec.length_image, Rec.size_stamped, hlen]

/-- A dropped batch gives its seqs back. -/
theorem Wal.Holds.drop {w : Wal} {n : ℕ} (h : w.batchSeq0 = UInt64.ofNat n) :
    (dropBatch w).Holds n [] :=
  ⟨rfl, rfl, by simp, trivial, numbered_nil n, h, fun hne => absurd rfl hne, by simp⟩

/-! ## `wal_open` -/

/-- The ways `recover_segment` can end. -/
theorem recoverSegment_cases {w : Wal} {first : UInt64} {io : RecoverAns} {d d' : Dir}
    {r : Option (Bool × Wal)} (h : recoverSegment w first io d = (r, d')) :
    ((∀ w', r ≠ some (true, w')) ∧
      (d' = d ∨ d' = d.modify first (truncateTo (walScan (d.read first)).committedLen))) ∨
    (r = some (true, { w with
        recovered := walScan (d.read first)
        prevEnd := prevEndOf (walScan (d.read first)) (d.read first).length
        truncated := (d.read first).length - (walScan (d.read first)).committedLen
        fd := some first
        segBytes := (walScan (d.read first)).committedLen }) ∧
      (d' = d ∧ (d.read first).length ≤ (walScan (d.read first)).committedLen ∨
        d' = d.modify first (truncateTo (walScan (d.read first)).committedLen))) := by
  unfold recoverSegment at h
  simp only at h
  split at h
  · obtain ⟨rfl, rfl⟩ := Prod.mk.inj h
    exact Or.inl ⟨by simp, Or.inl rfl⟩
  · obtain ⟨rfl, rfl⟩ := Prod.mk.inj h
    exact Or.inl ⟨by simp, Or.inl rfl⟩
  -- there is a torn end to be cut off, or there is none
  · split_ifs at h with hcut
    · split at h
      · obtain ⟨rfl, rfl⟩ := Prod.mk.inj h
        exact Or.inl ⟨by simp, Or.inl rfl⟩
      · obtain ⟨rfl, rfl⟩ := Prod.mk.inj h
        exact Or.inl ⟨by simp, Or.inl rfl⟩
      · split at h
        · obtain ⟨rfl, rfl⟩ := Prod.mk.inj h
          exact Or.inl ⟨by simp, Or.inr rfl⟩
        · obtain ⟨rfl, rfl⟩ := Prod.mk.inj h
          exact Or.inl ⟨by simp, Or.inr rfl⟩
        · obtain ⟨rfl, rfl⟩ := Prod.mk.inj h
          exact Or.inr ⟨rfl, Or.inr rfl⟩
    · obtain ⟨rfl, rfl⟩ := Prod.mk.inj h
      exact Or.inr ⟨rfl, Or.inl ⟨rfl, not_lt.mp hcut⟩⟩

/-- `*w` after the recovery of a segment named `first` that held `data`. -/
def recoveredWal (src flags : UInt8) (first : UInt64) (data : Bytes) : Wal where
  src := src
  flags := flags
  recovered := walScan data
  prevEnd := prevEndOf (walScan data) data.length
  truncated := data.length - (walScan data).committedLen
  fd := some first
  segBytes := (walScan data).committedLen
  nextSeq := if (walScan data).anyCommitted then (walScan data).lastSeq + 1 else first
  nextTxn := (walScan data).lastTxn + 1
  bootId := (walScan data).lastBootId + 1

/-- `*w` in a directory that holds no segment yet. -/
def firstWal (src flags : UInt8) : Wal where
  src := src
  flags := flags
  prevEnd := .first
  nextTxn := 1
  bootId := 1

/-- The ways the part of `wal_open` before its boot record can end. -/
theorem walOpenLog_cases {src flags : UInt8} {io : OpenAns} {d d' : Dir} {r : Option (Bool × Wal)}
    (h : walOpenLog src flags io d = (r, d')) :
    ((∀ w, r ≠ some (true, w)) ∧ (d' = d ∨ ∃ first, newestSegment d = some first ∧
      d' = d.modify first (truncateTo (walScan (d.read first)).committedLen))) ∨
    (newestSegment d = none ∧ createSegment (firstWal src flags) 0 io.create d = (r, d')) ∨
    (∃ first, newestSegment d = some first ∧
      r = some (true, recoveredWal src flags first (d.read first)) ∧
      (d' = d ∧ (d.read first).length ≤ (walScan (d.read first)).committedLen ∨
        d' = d.modify first (truncateTo (walScan (d.read first)).committedLen))) := by
  unfold walOpenLog at h
  simp only at h
  split at h
  case h_5 =>
      split at h
      · rename_i hnone
        exact Or.inr (Or.inl ⟨hnone, h⟩)
      · rename_i first hsome
        cases hrec : recoverSegment { src := src, flags := flags } first io.recover d with
        | mk r₁ d₁ =>
            rw [hrec] at h
            rcases recoverSegment_cases hrec with ⟨hfail, hd⟩ | ⟨rfl, hd⟩
            · have hr : (r₁, d₁) = (r, d') := by
                split at h
                · rename_i heq
                  exact absurd (Prod.mk.inj heq).1 (hfail _)
                · exact h
              obtain ⟨rfl, rfl⟩ := Prod.mk.inj hr
              exact Or.inl ⟨hfail, hd.imp id fun hd => ⟨first, hsome, hd⟩⟩
            · obtain ⟨rfl, rfl⟩ := Prod.mk.inj h
              exact Or.inr (Or.inr ⟨first, hsome, rfl, hd⟩)
  -- before the directory is looked at
  all_goals
    obtain ⟨rfl, rfl⟩ := Prod.mk.inj h
    exact Or.inl ⟨by simp, Or.inl rfl⟩

end Carwatch.Store
