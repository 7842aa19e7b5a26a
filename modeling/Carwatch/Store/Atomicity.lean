import Carwatch.Store.History

/-!
# Carwatch.Store.Atomicity — crash atomicity of the log

Two things survive every crash:

* **Bytes**: what was acknowledged stays byte for byte, even when a crash
  leaves arbitrary bytes behind it. `Hist.Safe` is the invariant; it needs no
  layout, only that acknowledged bytes are clean.
* **Batches**: without garbage, the log is exactly the acknowledged batches
  and, for each process that died inside `wal_commit`, all or nothing of the
  batch it was writing (`Chosen`).

`log_crash_atomic` states both for every history.
-/

namespace Carwatch.Store

open Carwatch.Lib

/-! ## Reading a directory that changes -/

theorem Dir.read_modify_ne {d : Dir} {f f' : UInt64} (h : f' ≠ f) (g : Bytes → Bytes) :
    (d.modify f g).read f' = d.read f' := by
  induction d with
  | nil => rfl
  | cons s d ih =>
      unfold Dir.read Dir.modify at ih ⊢
      rw [List.map_cons]
      by_cases hs : s.first = f
      · have hs' : s.first ≠ f' := fun heq => h (heq.symm.trans hs)
        rw [if_pos hs, List.find?_cons_of_neg (by simpa using hs'),
          List.find?_cons_of_neg (by simpa using hs')]
        exact ih
      · rw [if_neg hs]
        by_cases hs' : s.first = f'
        · rw [List.find?_cons_of_pos (by simpa using hs'),
            List.find?_cons_of_pos (by simpa using hs')]
        · rw [List.find?_cons_of_neg (by simpa using hs'),
            List.find?_cons_of_neg (by simpa using hs')]
          exact ih

theorem Dir.read_modify_self {d : Dir} {f : UInt64} (h : ∃ s ∈ d, s.first = f)
    (g : Bytes → Bytes) : (d.modify f g).read f = g (d.read f) := by
  induction d with
  | nil => simp at h
  | cons s d ih =>
      unfold Dir.read Dir.modify at ih ⊢
      rw [List.map_cons]
      by_cases hs : s.first = f
      · rw [if_pos hs, List.find?_cons_of_pos (by simpa using hs),
          List.find?_cons_of_pos (by simpa using hs)]
      · rw [if_neg hs, List.find?_cons_of_neg (by simpa using hs),
          List.find?_cons_of_neg (by simpa using hs)]
        apply ih
        obtain ⟨t, ht, htf⟩ := h
        rcases List.mem_cons.mp ht with rfl | ht
        · exact absurd htf hs
        · exact ⟨t, ht, htf⟩

theorem Dir.read_append_empty (d : Dir) (first f : UInt64) :
    Dir.read (d ++ [⟨first, []⟩]) f = d.read f := by
  unfold Dir.read
  rw [List.find?_append]
  cases hd : d.find? (fun s => decide (s.first = f)) with
  | some s => simp
  | none => by_cases hf : first = f <;> simp [hf]

theorem Dir.read_of_not_mem {d : Dir} {f : UInt64} (h : ∀ s ∈ d, s.first ≠ f) : d.read f = [] := by
  have hd : d.find? (fun s => decide (s.first = f)) = none := by
    rw [List.find?_eq_none]
    intro s hs
    simpa using h s hs
  simp [Dir.read, hd]

theorem Dir.exists_modify {d : Dir} {f f' : UInt64} {g : Bytes → Bytes}
    (h : ∃ s ∈ d, s.first = f') : ∃ s ∈ d.modify f g, s.first = f' := by
  obtain ⟨s, hs, rfl⟩ := h
  refine ⟨_, List.mem_map.mpr ⟨s, hs, rfl⟩, ?_⟩
  split_ifs <;> rfl

/-- Appending to a file keeps what it held, and all others. -/
theorem Dir.prefix_read_extend (d : Dir) (fd : Option UInt64) (x : Bytes) (f : UInt64) :
    d.read f <+: (d.extend fd x).read f := by
  cases fd with
  | none => exact List.prefix_refl _
  | some seg =>
      by_cases hf : f = seg
      · subst hf
        by_cases hex : ∃ s ∈ d, s.first = f
        · rw [Dir.extend, Dir.read_modify_self hex]
          exact List.prefix_append _ _
        · rw [Dir.read_of_not_mem fun s hs heq => hex ⟨s, hs, heq⟩]
          exact List.nil_prefix
      · have hsame : (d.extend (some seg) x).read f = d.read f := by
          rw [Dir.extend, Dir.read_modify_ne hf]
        exact hsame.symm ▸ List.prefix_refl (d.read f)

theorem Dir.exists_extend {d : Dir} {f : UInt64} (h : ∃ s ∈ d, s.first = f) (fd : Option UInt64)
    (x : Bytes) : ∃ s ∈ d.extend fd x, s.first = f := by
  cases fd with
  | none => exact h
  | some seg =>
      rw [Dir.extend]
      exact Dir.exists_modify h

/-! ## Bytes -/

/-- The file of `w` is clean and as long as `w` thinks. -/
def Wal.FileOk (w : Wal) (d : Dir) : Prop :=
  ∀ f, w.fd = some f →
    (∃ s ∈ d, s.first = f) ∧ Clean (d.read f) ∧ (d.read f).length = w.segBytes

/-- A session in order, on a directory that may hold anything else. -/
structure Wal.Tidy (w : Wal) (d : Dir) : Prop where
  holds : ∃ n rs, w.Holds n rs
  file : w.FileOk d

/-- Cutting back what was appended restores the file. -/
theorem truncate_extend {d : Dir} {f : UInt64} (hex : ∃ s ∈ d, s.first = f) {n : ℕ}
    (hlen : (d.read f).length = n) (x : Bytes) (f' : UInt64) :
    ((d.extend (some f) x).modify f (truncateTo n)).read f' = d.read f' := by
  by_cases hf : f' = f
  · subst hf
    rw [Dir.extend, Dir.modify_modify, Dir.read_modify_self hex, ← hlen]
    simp [truncateTo]
  · rw [Dir.extend, Dir.modify_modify, Dir.read_modify_ne hf]

theorem createSegment_read {w : Wal} {first : UInt64} {io : CreateAns} {d d' : Dir}
    {r : Option (Bool × Wal)} (h : createSegment w first io d = (r, d')) (f : UInt64) :
    d'.read f = d.read f := by
  rcases createSegment_cases h with ⟨-, -, -, rfl⟩ | ⟨-, rfl | ⟨-, rfl⟩⟩
  · exact Dir.read_append_empty d first f
  · rfl
  · exact Dir.read_append_empty d first f

theorem CommitOutcome.keeps_read {w : Wal} {io : CommitAns} {d d' : Dir}
    {r : Option (Bool × Wal)} (hfile : w.FileOk d) (h : CommitOutcome w io d r d') (f : UInt64) :
    d.read f <+: d'.read f := by
  cases h with
  | killed k hk => exact Dir.prefix_read_extend _ _ _ f
  | undone seg k hfd hk =>
      obtain ⟨hex, -, hlen⟩ := hfile seg hfd
      have hsame := truncate_extend hex hlen (w.buf.take k) f
      exact hsame.symm ▸ List.prefix_refl (d.read f)
  | stuck seg hfd hio hend => exact Dir.prefix_read_extend _ _ _ f
  | closed hfd => exact List.prefix_refl _
  | done seg hfd hroom => exact Dir.prefix_read_extend _ _ _ f
  | rolled seg hfd hend hsync hfull hclose r d' hcreate =>
      rw [createSegment_read hcreate]
      exact Dir.prefix_read_extend _ _ _ f

theorem Wal.FileOk.append {w w₁ : Wal} {kind : UInt16} {src : UInt8} {now : Now} {body : Body}
    {d : Dir} (hfile : w.FileOk d) (happ : Store.append w kind src now body = some w₁) :
    w₁.FileOk d := by
  obtain ⟨-, rfl⟩ := append_eq_some happ
  exact hfile

/-- `wal_commit` only ever adds to the files, whatever it is answered. -/
theorem walCommit_keeps_read {w : Wal} {now : Now} {io : CommitAns} {d d' : Dir}
    {r : Option (Bool × Wal)} (hfile : w.FileOk d) (h : walCommit w now io d = (r, d'))
    (f : UInt64) : d.read f <+: d'.read f := by
  by_cases hopen : w.openBatch = true
  · cases happ : append w RecKind.commit.code w.src now (commitBody w.nextTxn w.batchSamples) with
    | none =>
        unfold walCommit at h
        rw [hopen, happ] at h
        obtain ⟨-, rfl⟩ := Prod.mk.inj h
        exact List.prefix_refl _
    | some w₁ => exact (walCommit_outcome hopen happ h).keeps_read (hfile.append happ) f
  · have hrun : walCommit w now io d = (some (true, w), d) := by simp [walCommit, hopen]
    rw [hrun] at h
    obtain ⟨-, rfl⟩ := Prod.mk.inj h
    exact List.prefix_refl _

/-- A session that goes on after `wal_commit` is tidy, if the undo did not fail. -/
theorem walCommit_tidy {w w' : Wal} {now : Now} {io : CommitAns} {d d' : Dir} {ok : Bool}
    (htidy : w.Tidy d) (hundo : ¬ w.UndoFails io)
    (h : walCommit w now io d = (some (ok, w'), d')) :
    w'.Tidy d' ∧ (ok = true → w.openBatch = true → ∀ f, w.fd = some f → Clean (d'.read f)) := by
  obtain ⟨n, rs, hholds⟩ := htidy.holds
  by_cases hopen : w.openBatch = true
  · have hne : rs ≠ [] := by
      rintro rfl
      simp [hholds.isOpen] at hopen
    cases happ : append w RecKind.commit.code w.src now (commitBody w.nextTxn w.batchSamples) with
    | none =>
        unfold walCommit at h
        rw [hopen, happ] at h
        obtain ⟨hr, rfl⟩ := Prod.mk.inj h
        obtain ⟨rfl, rfl⟩ := Prod.mk.inj (Option.some.inj hr)
        exact ⟨⟨⟨n, [], Wal.Holds.drop (hholds.first hne)⟩, htidy.file⟩, by simp⟩
    | some w₁ =>
        obtain ⟨b, -, -, hnum, -, hsame, hbuf, hnext, hseq⟩ := hholds.batch hopen happ
        have hfile := htidy.file.append happ
        have hdrop : (dropBatch w₁).Holds n [] :=
          Wal.Holds.drop (hseq.trans (hholds.first hne))
        have hidle : ∀ fd m, ({ w₁.settled with fd := fd, segBytes := m } : Wal).Holds
            (n + b.recs.length) [] := fun fd m =>
          ⟨rfl, rfl, by simp, trivial, numbered_nil _, hnext, fun h => absurd rfl h, by simp⟩
        -- the file of a batch that is all written
        have hread : ∀ seg, w₁.fd = some seg →
            (d.extend (some seg) w₁.buf).read seg = d.read seg ++ b.bytes := by
          intro seg hfd
          rw [Dir.extend, Dir.read_modify_self (hfile seg hfd).1, hbuf]
        generalize hr : some (ok, w') = r at h
        cases walCommit_outcome hopen happ h with
        | killed k hk => simp at hr
        | undone seg k hfd hk =>
            obtain ⟨rfl, rfl⟩ := Prod.mk.inj (Option.some.inj hr)
            obtain ⟨hex, hclean, hlen⟩ := hfile seg hfd
            refine ⟨⟨⟨n, [], hdrop⟩, fun f hf => ?_⟩, by simp⟩
            rw [truncate_extend hex hlen]
            exact ⟨Dir.exists_modify (Dir.exists_extend (hfile f hf).1 _ _), (hfile f hf).2⟩
        | stuck seg hfd hio hend =>
            obtain ⟨rfl, rfl⟩ := Prod.mk.inj (Option.some.inj hr)
            rw [append_commit_length happ] at hend ⊢
            have hzero : bytesTaken io.writes (w.buf.length + 60) = 0 := by
              by_contra hne
              refine hundo ⟨hopen, ?_, hend, hio, Nat.pos_of_ne_zero hne⟩
              simp [← hsame.fd, hfd]
            rw [hzero, List.take_zero, Dir.extend_nil]
            exact ⟨⟨⟨n, [], hdrop⟩, hfile⟩, by simp⟩
        | closed hfd =>
            obtain ⟨rfl, rfl⟩ := Prod.mk.inj (Option.some.inj hr)
            exact ⟨⟨⟨n, [], hdrop⟩, hfile⟩, by simp⟩
        | done seg hfd hroom =>
            obtain ⟨rfl, rfl⟩ := Prod.mk.inj (Option.some.inj hr)
            obtain ⟨hex, hclean, hlen⟩ := hfile seg hfd
            have hnew := (hclean.append_batch b).1
            refine ⟨⟨⟨_, [], hidle w₁.fd _⟩, fun f hf => ?_⟩, fun _ _ f hf => ?_⟩
            · obtain rfl : f = seg := Option.some.inj (hf.symm.trans hfd)
              rw [hread f hfd]
              refine ⟨Dir.exists_extend hex _ _, hnew, ?_⟩
              rw [List.length_append, hlen, ← hbuf]
              rfl
            · obtain rfl : f = seg := Option.some.inj (hf.symm.trans (hsame.fd ▸ hfd))
              rw [hread f hfd]
              exact hnew
        | rolled seg hfd hend hsync hfull hclose r d' hcreate =>
            obtain ⟨hex, hclean, hlen⟩ := hfile seg hfd
            have hnew := (hclean.append_batch b).1
            refine ⟨?_, fun _ _ f hf => ?_⟩
            · rcases createSegment_cases hcreate with ⟨rfl, -, hfree, rfl⟩ | ⟨hr', -⟩
              · obtain ⟨rfl, rfl⟩ := Prod.mk.inj (Option.some.inj hr)
                refine ⟨⟨_, [], hidle _ _⟩, fun f hf => ?_⟩
                obtain rfl := Option.some.inj hf
                refine ⟨⟨⟨w₁.nextSeq, []⟩, by simp, rfl⟩, ?_⟩
                rw [Dir.read_append_empty, Dir.read_of_not_mem hfree]
                exact ⟨clean_nil, rfl⟩
              · rcases hr' with rfl | ⟨rfl, -⟩
                · simp at hr
                · obtain ⟨rfl, rfl⟩ := Prod.mk.inj (Option.some.inj hr)
                  exact ⟨⟨_, [], hidle _ _⟩, fun f hf => by simp at hf⟩
            · obtain rfl : f = seg := Option.some.inj (hf.symm.trans (hsame.fd ▸ hfd))
              rw [createSegment_read hcreate, hread f hfd]
              exact hnew
  · have hrun : walCommit w now io d = (some (true, w), d) := by simp [walCommit, hopen]
    rw [hrun] at h
    obtain ⟨hr, rfl⟩ := Prod.mk.inj h
    obtain ⟨-, rfl⟩ := Prod.mk.inj (Option.some.inj hr)
    exact ⟨htidy, fun _ h => absurd h hopen⟩

namespace Hist

/-- Acknowledged bytes are clean and still there, and the session is in order. -/
structure Safe (h : Hist) : Prop where
  clean : ∀ f, Clean (h.acked f)
  kept : ∀ f, h.acked f <+: h.dir.read f
  tidy : ∀ w, h.wal = some w → w.Tidy h.dir

/-- The part of `wal_open` before its boot record keeps what is acknowledged,
whatever lies behind it. -/
theorem Safe.openLog {h : Hist} (hsafe : h.Safe) {src flags : UInt8} {io : OpenAns}
    {r : Option (Bool × Wal)} {d' : Dir} (hrun : walOpenLog src flags io h.dir = (r, d')) :
    (∀ f, h.acked f <+: d'.read f) ∧ ∀ w, r = some (true, w) → w.Tidy d' := by
  -- recovery cuts one file back to what is committed in it
  have hcut : ∀ first, newestSegment h.dir = some first →
      (∃ s ∈ h.dir, s.first = first) ∧
      (h.dir.modify first (truncateTo (walScan (h.dir.read first)).committedLen)).read first =
        walKept (h.dir.read first) := by
    intro first hfirst
    have hex := newestSegment_mem hfirst
    refine ⟨hex, ?_⟩
    have hle := committedLen_le (h.dir.read first)
    rw [Dir.read_modify_self hex, truncateTo, Nat.sub_eq_zero_of_le hle, List.replicate_zero,
      List.append_nil, walKept]
  have hkept : ∀ first, newestSegment h.dir = some first → ∀ f,
      h.acked f <+:
        (h.dir.modify first (truncateTo (walScan (h.dir.read first)).committedLen)).read f := by
    intro first hfirst f
    by_cases hf : f = first
    · subst hf
      rw [(hcut f hfirst).2]
      obtain ⟨g, hg⟩ := hsafe.kept f
      rw [← hg]
      exact (hsafe.clean f).prefix_kept g
    · rw [Dir.read_modify_ne hf]
      exact hsafe.kept f
  rcases walOpenLog_cases hrun with ⟨hfail, hd⟩ | ⟨-, hcreate⟩ | ⟨first, hfirst, rfl, hd⟩
  · refine ⟨?_, fun w hw => absurd hw (hfail w)⟩
    rcases hd with rfl | ⟨first, hfirst, rfl⟩
    · exact hsafe.kept
    · exact hkept first hfirst
  · refine ⟨fun f => ?_, fun w hw => ?_⟩
    · rw [createSegment_read hcreate]
      exact hsafe.kept f
    · rcases createSegment_cases hcreate with ⟨hr, -, hfree, rfl⟩ | ⟨hr, -⟩
      · rw [hr] at hw
        obtain rfl := (Prod.mk.inj (Option.some.inj hw)).2
        refine ⟨⟨0, [], rfl, rfl, by simp, trivial, numbered_nil _, rfl, fun h => absurd rfl h,
          by simp⟩, fun f hf => ?_⟩
        obtain rfl := Option.some.inj hf
        refine ⟨⟨⟨0, []⟩, by simp, rfl⟩, ?_⟩
        rw [Dir.read_append_empty, Dir.read_of_not_mem hfree]
        exact ⟨clean_nil, rfl⟩
      · rcases hr with rfl | ⟨rfl, -⟩ <;> simp at hw
  · obtain ⟨hex, hread⟩ := hcut first hfirst
    have hkeptlen : (walKept (h.dir.read first)).length =
        (walScan (h.dir.read first)).committedLen := by
      rw [walKept, List.length_take]
      exact Nat.min_eq_left (committedLen_le _)
    have hd' : (∀ f, h.acked f <+: d'.read f) ∧ (∃ s ∈ d', s.first = first) ∧
        d'.read first = walKept (h.dir.read first) := by
      rcases hd with ⟨rfl, hle⟩ | rfl
      · refine ⟨hsafe.kept, hex, ?_⟩
        rw [walKept, List.take_of_length_le hle]
      · exact ⟨hkept first hfirst, Dir.exists_modify hex, hread⟩
    refine ⟨hd'.1, fun w hw => ?_⟩
    obtain rfl := (Prod.mk.inj (Option.some.inj hw)).2
    refine ⟨⟨(recoveredWal src flags first (h.dir.read first)).nextSeq.toNat, [], rfl, rfl,
      by simp, trivial, numbered_nil _, by simp, fun h => absurd rfl h, by simp⟩, fun f hf => ?_⟩
    obtain rfl := Option.some.inj hf
    rw [hd'.2.2]
    exact ⟨hd'.2.1, (clean_kept _).1, hkeptlen⟩

theorem safe_init : ({} : Hist).Safe :=
  ⟨fun _ => clean_nil, fun _ => List.nil_prefix, by simp⟩

theorem safe_commit {h : Hist} (hsafe : h.Safe) {now : Now} {io : CommitAns}
    (hundo : (LogAct.commit now io).UndoOk h) : (h.apply (.commit now io)).Safe := by
  cases hwal : h.wal with
  | none =>
      simp only [apply, hwal]
      exact hsafe
  | some w =>
      have htidy := hsafe.tidy w hwal
      simp only [apply, hwal]
      cases hrun : walCommit w now io h.dir with
      | mk r d =>
          have hkept : ∀ f, h.acked f <+: d.read f := fun f =>
            (hsafe.kept f).trans (walCommit_keeps_read htidy.file hrun f)
          rcases r with _ | ⟨_ | _, w'⟩
          · exact ⟨hsafe.clean, hkept, by simp [committed]⟩
          · obtain ⟨htidy', -⟩ := walCommit_tidy htidy (hundo w hwal) hrun
            exact ⟨hsafe.clean, hkept, fun w'' hw'' => Option.some.inj hw'' ▸ htidy'⟩
          · obtain ⟨htidy', hack⟩ := walCommit_tidy htidy (hundo w hwal) hrun
            -- only a commit of an open batch with a file acknowledges more
            have hacked : ∀ f, Clean ((h.committed w (some (true, w'), d)).acked f) ∧
                (h.committed w (some (true, w'), d)).acked f <+: d.read f := by
              intro f
              cases hopen : w.openBatch with
              | false =>
                  simp only [committed, hopen]
                  exact ⟨hsafe.clean f, hkept f⟩
              | true =>
                  cases hfd : w.fd with
                  | none =>
                      simp only [committed, hopen, hfd]
                      exact ⟨hsafe.clean f, hkept f⟩
                  | some seg =>
                      simp only [committed, hopen, hfd]
                      by_cases hf : f = seg
                      · subst hf
                        rw [Function.update_self]
                        exact ⟨hack rfl hopen f hfd, List.prefix_refl _⟩
                      · rw [Function.update_of_ne hf]
                        exact ⟨hsafe.clean f, hkept f⟩
            exact ⟨fun f => (hacked f).1, fun f => (hacked f).2,
              fun w'' hw'' => Option.some.inj hw'' ▸ htidy'⟩

theorem safe_crash {h : Hist} (hsafe : h.Safe) (left : UInt64 → Bytes) :
    (h.apply (.crash left)).Safe := by
  refine ⟨hsafe.clean, fun f => ?_, by simp [apply]⟩
  change h.acked f <+: Dir.read (h.dir.map fun s => { s with data := h.acked s.first ++ left s.first }) f
  by_cases hex : ∃ s ∈ h.dir, s.first = f
  · have hread : ∀ d : Dir, (∃ s ∈ d, s.first = f) →
        Dir.read (d.map fun s => { s with data := h.acked s.first ++ left s.first }) f =
          h.acked f ++ left f := by
      intro d hd
      induction d with
      | nil => simp at hd
      | cons s d ih =>
          unfold Dir.read at ih ⊢
          rw [List.map_cons]
          by_cases hs : s.first = f
          · rw [List.find?_cons_of_pos (by simpa using hs), hs]
          · rw [List.find?_cons_of_neg (by simpa using hs)]
            apply ih
            obtain ⟨t, ht, htf⟩ := hd
            rcases List.mem_cons.mp ht with rfl | ht
            · exact absurd htf hs
            · exact ⟨t, ht, htf⟩
    rw [hread h.dir hex]
    exact List.prefix_append _ _
  · have hnil := hsafe.kept f
    rw [Dir.read_of_not_mem fun s hs heq => hex ⟨s, hs, heq⟩, List.prefix_nil] at hnil
    rw [hnil]
    exact List.nil_prefix

theorem safe_apply {h : Hist} {a : LogAct} (hsafe : h.Safe) (hundo : a.UndoOk h) :
    (h.apply a).Safe := by
  cases a with
  | openLog src flags io =>
      cases hwal : h.wal with
      | some w =>
          simp only [apply, hwal]
          exact hsafe
      | none =>
          cases hrun : walOpenLog src flags io h.dir with
          | mk r d =>
              obtain ⟨hkept, htidy⟩ := hsafe.openLog hrun
              simp only [apply, hwal, hrun]
              split
              · rename_i w d₁ heq
                obtain ⟨rfl, rfl⟩ := Prod.mk.inj heq
                exact ⟨hsafe.clean, hkept, fun w' hw' => Option.some.inj hw' ▸ htidy w rfl⟩
              · rename_i heq
                obtain ⟨rfl, rfl⟩ := Prod.mk.inj heq
                exact ⟨hsafe.clean, hkept, by simp⟩
  | add q clk =>
      cases hwal : h.wal with
      | none =>
          simp only [apply, hwal]
          exact hsafe
      | some w =>
          have htidy := hsafe.tidy w hwal
          -- adding a record goes to the buffer, and touches no file
          obtain ⟨n, rs, hholds⟩ := htidy.holds
          obtain ⟨new, hholds', hsame, -⟩ := walAdd_holds hholds (Prod.mk.eta.symm : q.run w clk = _)
          simp only [apply, hwal]
          refine ⟨hsafe.clean, hsafe.kept, fun w' hw' => ?_⟩
          obtain rfl := Option.some.inj hw'
          refine ⟨⟨n, rs ++ new, hholds'⟩, fun f hf => ?_⟩
          rw [hsame.segBytes]
          exact htidy.file f (hsame.fd ▸ hf)
  | commit now io => exact safe_commit hsafe hundo
  | kill => exact ⟨hsafe.clean, hsafe.kept, by simp [apply]⟩
  | crash left => exact safe_crash hsafe left

theorem safe_step {h : Hist} {a : LogAct} (hsafe : h.Safe) (hundo : a.UndoOk h) :
    (h.step a).Safe := by
  unfold step
  split_ifs
  · exact safe_apply hsafe hundo
  · exact hsafe

/-- The next `wal_open` keeps what is acknowledged, whatever it is answered. -/
theorem Safe.walOpen_keeps {h : Hist} (hsafe : h.Safe) (src flags : UInt8) (io : OpenAns)
    (f : UInt64) : h.acked f <+: (walOpen src flags io h.dir).2.read f := by
  cases hrun : walOpenLog src flags io h.dir with
  | mk r d =>
      obtain ⟨hkept, htidy⟩ := hsafe.openLog hrun
      unfold walOpen
      rw [hrun]
      rcases r with _ | ⟨_ | _, w⟩
      · exact hkept f
      · exact hkept f
      · obtain ⟨n, rs, hholds⟩ := (htidy w rfl).holds
        have hboot : walAddBoot w io = (bootReq w io).run w io.bootClock := rfl
        simp only [hboot]
        cases hadd : (bootReq w io).run w io.bootClock with
        | mk ok w₁ =>
            cases ok with
            | false => exact hkept f
            | true =>
                obtain ⟨-, -, hsame, -⟩ := walAdd_holds hholds hadd
                have hfile : w₁.FileOk d := by
                  intro f hf
                  rw [hsame.segBytes]
                  exact (htidy w rfl).file f (hsame.fd ▸ hf)
                cases hcommit : walCommit w₁ io.commitNow io.commit d with
                | mk r' d' =>
                    have hgrow := walCommit_keeps_read hfile hcommit f
                    simp only [hcommit]
                    rcases r' with _ | ⟨_ | _, w₂⟩ <;> exact (hkept f).trans hgrow

end Hist

/-! ## Batches -/

/-- The batches of the past that are in the log: every acknowledged one, and
any of those that were in flight when the process died. -/
inductive Chosen : List Entry → List (List Content) → Prop
  | nil : Chosen [] []
  | acked {es : List Entry} {cs : List (List Content)} (items : List Content) (h : Chosen es cs) :
      Chosen (es ++ [.acked items]) (cs ++ [items])
  | kept {es : List Entry} {cs : List (List Content)} (items : List Content) (h : Chosen es cs) :
      Chosen (es ++ [.inFlight items]) (cs ++ [items])
  | lost {es : List Entry} {cs : List (List Content)} (items : List Content) (h : Chosen es cs) :
      Chosen (es ++ [.inFlight items]) cs

namespace Hist

/-- The log is whole batches, those the history accounts for. -/
def Accounted (h : Hist) : Prop :=
  ∃ bs : List Batch, keptRecords h.dir = recsOf bs ∧
    Chosen h.entries (bs.map fun b => contents b.recs)

theorem Accounted.grow {h h' : Hist} {b : Batch} (hacc : h.Accounted)
    (hkept : keptRecords h'.dir = keptRecords h.dir ++ b.recs)
    (hent : h'.entries = h.entries ++ [.acked (contents b.recs)] ∨
      h'.entries = h.entries ++ [.inFlight (contents b.recs)]) : h'.Accounted := by
  obtain ⟨bs, hbs, hchosen⟩ := hacc
  refine ⟨bs ++ [b], by rw [hkept, hbs, recsOf_append, recsOf_singleton], ?_⟩
  rw [List.map_append]
  rcases hent with hent | hent
  · rw [hent]
    exact .acked _ hchosen
  · rw [hent]
    exact .kept _ hchosen

theorem accounted_commit {h : Hist} (hinv : h.Inv) (hacc : h.Accounted) {now : Now}
    {io : CommitAns} (hundo : (LogAct.commit now io).UndoOk h)
    (hroll : (LogAct.commit now io).RollOk h) :
    (h.apply (.commit now io)).Accounted := by
  cases hwal : h.wal with
  | none =>
      simp only [apply, hwal]
      exact hacc
  | some w =>
      obtain ⟨l, rs, hdir, hon, hpend⟩ := hinv.laid.session hwal
      have hcount : l.count < 2 ^ 61 := lt_trans (Layout.count_lt (hdir ▸ hinv.fits)) (by norm_num)
      simp only [apply, hwal]
      by_cases hopen : w.openBatch = true
      · cases hrun : walCommit w now io h.dir with
        | mk r d =>
            rw [hdir] at hrun
            cases hon.commit hcount hopen hrun with
            | undone w' hsame hon' hfd => exact ⟨hacc.choose, hdir ▸ hacc.choose_spec.1, hacc.choose_spec.2⟩
            | stuck b hb w' hon' hfail => exact absurd hfail (hundo w hwal)
            -- a torn batch counts for nothing when the log is read
            | torn p hp =>
                obtain ⟨bs, hbs, hchosen⟩ := hacc
                refine ⟨bs, ?_, .lost _ hchosen⟩
                rw [hdir, Layout.keptRecords_dir] at hbs
                change keptRecords (l.tear p hp).dir = _
                rw [Layout.keptRecords_dir, Layout.recs_tear, hbs]
            | written b hb l' hl' r hr hfd =>
                have hkept : keptRecords l'.dir = keptRecords h.dir ++ b.recs := by
                  rw [Layout.keptRecords_dir, hdir, Layout.keptRecords_dir, hl'.recs]
                have hitems : contents b.recs = h.pending := hb.contents.trans hpend
                rcases hr with rfl | ⟨ok, w', rfl, -, -, hfail⟩
                -- the answer was lost with the process, the batch was not
                · exact hacc.grow hkept (Or.inr (by rw [hitems]; rfl))
                · cases ok with
                  | false => exact absurd (hfail rfl).2.1 (hroll w hwal (hfail rfl).1)
                  | true =>
                      refine hacc.grow hkept (Or.inl ?_)
                      simp [committed, hopen, hitems]
      · have hrun : walCommit w now io h.dir = (some (true, w), h.dir) := by
          simp [walCommit, hopen]
        rw [hrun]
        simpa [Accounted, committed, hopen] using hacc

theorem accounted_step {h : Hist} {a : LogAct} (hinv : h.Inv) (hacc : h.Accounted)
    (hundo : a.UndoOk h) (hroll : a.RollOk h) (hgarb : a.NoGarbage) : (h.step a).Accounted := by
  unfold step
  split_ifs
  · cases a with
    | openLog src flags io =>
        obtain ⟨bs, hbs, hchosen⟩ := hacc
        refine ⟨bs, by rw [keptRecords_openLog hinv, hbs], ?_⟩
        have hent : (h.apply (.openLog src flags io)).entries = h.entries := by
          simp only [apply]
          split
          · rfl
          · split <;> rfl
        rwa [hent]
    | add q clk =>
        have hsame : (h.apply (.add q clk)).dir = h.dir ∧
            (h.apply (.add q clk)).entries = h.entries := by
          simp only [apply]
          split <;> exact ⟨rfl, rfl⟩
        rwa [Accounted, hsame.1, hsame.2]
    | commit now io => exact accounted_commit hinv hacc hundo hroll
    | kill => exact hacc
    | crash left => exact hgarb.elim
  · exact hacc

/-- While a session runs, the files hold nothing but what recovery would keep. -/
theorem Inv.kept_of_session {h : Hist} (hinv : h.Inv) (hwal : h.wal ≠ none) :
    ∀ s ∈ h.dir, walKept s.data = s.data := by
  obtain ⟨w, hw⟩ := Option.ne_none_iff_exists'.mp hwal
  obtain ⟨l, rs, hdir, hon, -⟩ := hinv.laid.session hw
  intro s hs
  rw [hdir, Layout.dir, hon.torn, List.append_nil] at hs
  rcases List.mem_append.mp hs with hs | hs
  · obtain ⟨t, -, rfl⟩ := List.mem_map.mp hs
    exact (clean_bytesOf t.batches).1.kept
  · rw [List.mem_singleton.mp hs]
    exact (clean_bytesOf l.last.batches).1.kept

end Hist

/-- **Crash atomicity.** In every history whose undo truncations and new
segments succeed, the next `wal_open` keeps every acknowledged byte, whatever
crashes left behind them. If no crash left garbage, the records recovery keeps
are whole batches: exactly the acknowledged ones and, for each process that
died inside `wal_commit`, all or nothing of the batch in flight, each holding
what `wal_add` accepted; and nothing else is in the files while a session
runs. -/
theorem log_crash_atomic (acts : List LogAct)
    (hacts : Meets Hist.step (fun h a => a.UndoOk h ∧ a.RollOk h) {} acts) :
    (∀ src flags io f, (run Hist.step {} acts).acked f <+:
      (walOpen src flags io (run Hist.step {} acts).dir).2.read f) ∧
    ((∀ a ∈ acts, a.NoGarbage) →
      (∃ bs : List Batch, keptRecords (run Hist.step {} acts).dir = recsOf bs ∧
        Chosen (run Hist.step {} acts).entries (bs.map fun b => contents b.recs)) ∧
      ((run Hist.step {} acts).wal ≠ none →
        ∀ s ∈ (run Hist.step {} acts).dir, walKept s.data = s.data)) := by
  constructor
  · have hsafe : (run Hist.step {} acts).Safe :=
      meets_invariant Hist.step _ Hist.Safe (fun _ _ hs ha => Hist.safe_step hs ha.1) {}
        Hist.safe_init acts hacts
    exact fun src flags io f => hsafe.walOpen_keeps src flags io f
  · intro hgarb
    have hboth : (run Hist.step {} acts).Inv ∧ (run Hist.step {} acts).Accounted := by
      refine meets_invariant Hist.step (fun h a => (a.UndoOk h ∧ a.RollOk h) ∧ a.NoGarbage)
        (fun h => h.Inv ∧ h.Accounted) ?_ {} ⟨Hist.inv_init, [], rfl, .nil⟩ acts ?_
      · rintro h a ⟨hinv, hacc⟩ ⟨⟨hundo, hroll⟩, hng⟩
        exact ⟨Hist.inv_step hinv hundo hng, Hist.accounted_step hinv hacc hundo hroll hng⟩
      · exact meets_and_all hacts hgarb
    exact ⟨hboth.2, hboth.1.kept_of_session⟩

/-- One acknowledged batch, and one of which a crash leaves ten bytes. -/
theorem log_crash_atomic_torn :
    (∀ src flags io f,
      (run Hist.step {} [.openLog 1 0 {}, .add emptyEvent {}, .commit {} {}, .add emptyEvent {},
        .commit {} { writes := [.wrote 10] }]).acked f <+:
      (walOpen src flags io (run Hist.step {} [.openLog 1 0 {}, .add emptyEvent {}, .commit {} {},
        .add emptyEvent {}, .commit {} { writes := [.wrote 10] }]).dir).2.read f) ∧
    ∃ bs : List Batch, keptRecords (run Hist.step {} [.openLog 1 0 {}, .add emptyEvent {},
        .commit {} {}, .add emptyEvent {}, .commit {} { writes := [.wrote 10] }]).dir = recsOf bs ∧
      Chosen (run Hist.step {} [.openLog 1 0 {}, .add emptyEvent {}, .commit {} {},
        .add emptyEvent {}, .commit {} { writes := [.wrote 10] }]).entries
        (bs.map fun b => contents b.recs) := by
  obtain ⟨hbytes, hbatches⟩ := log_crash_atomic
    [.openLog 1 0 {}, .add emptyEvent {}, .commit {} {}, .add emptyEvent {},
      .commit {} { writes := [.wrote 10] }]
    (by simp [LogAct.UndoOk, LogAct.RollOk, CreateAns.Fails, Wal.UndoFails])
  exact ⟨hbytes, (hbatches (by simp [LogAct.NoGarbage])).1⟩

end Carwatch.Store
