import Mizu.Lsm.CompactionLoop
import Mizu.Lsm.Recovery

/-!
# The end of the sequence numbers

A batch that does not fit below `kMaxSequenceNumber` is rejected, and rotations,
flushes and compactions leave every lookup as it was. The compaction loop uses the
same number for "no version of this key seen yet", so a compaction whose oldest
snapshot is that number takes the first version of every key for a hidden one.
-/

open Multiversion

namespace Mizu.Lsm

section Reject

variable {cfg : Config} {d d' : Disk} {db db' : DB} {batch : WriteBatch} {durability : Durability}
  {o : WriteOutcome} {r : Except Status Unit}

theorem encode_of_exhausted {s : ℕ} (h : maxSequenceNumber < s + batch.length) :
    ∃ e, encode batch (s + 1) = .error e := by
  have hrange : ¬ hasValidSequenceRange (s + 1) batch.length := by
    unfold hasValidSequenceRange
    omega
  unfold encode
  split <;> exact ⟨_, rfl⟩

/-- The batch is rejected and nothing changes, unless a rotation comes first. -/
theorem write_of_exhausted_iff (hne : batch ≠ [])
    (h : maxSequenceNumber < db.lastSequence + batch.length) :
    (∃ e, write cfg durability batch o d db = some (.error e, d, db)) ↔
      db.backgroundError ≠ none ∨ db.hasRoom cfg = true ∨
        db.immutable = none ∧ maxFileNumber - 2 < db.nextFileNumber := by
  obtain ⟨e, he⟩ := encode_of_exhausted h
  have hempty : batch.isEmpty = false := by simpa using hne
  unfold write makeRoomForWrite
  cases hbg : db.backgroundError with
  | some e => simp [hempty]
  | none =>
    cases hroom : db.hasRoom cfg with
    | true => simp [hempty, logAndApply, he]
    | false =>
      cases hi : db.immutable with
      | some i => simp [hempty]
      | none =>
        by_cases hnum : db.nextFileNumber > maxFileNumber - 2
        · simp [hempty, rotateMemTable, hnum]
        · -- the rotated database has an immutable memtable, the old one has none
          simp only [hempty, Bool.false_eq_true, if_false, Option.isNone_none, if_true,
            rotateMemTable, if_neg hnum, logAndApply, he, Option.some.injEq, Prod.mk.injEq]
          refine iff_of_false ?_ (by simpa using hnum)
          rintro ⟨_, -, -, heq⟩
          have := congrArg DB.immutable heq
          simp [hi] at this

/-- Without room a rotation may come first. -/
theorem not_isOk_of_exhausted (hne : batch ≠ [])
    (h : maxSequenceNumber < db.lastSequence + batch.length)
    (hw : write cfg durability batch o d db = some (r, d', db')) : ∃ e, r = .error e := by
  rcases write_cases hw with ⟨_, _, hcase⟩ | ⟨_, d₁, db₁, hroom, hlog⟩
  · rcases hcase with ⟨hnil, _⟩ | ⟨hr, _⟩
    · exact absurd hnil (by simpa using hne)
    · cases r with
      | error e => exact ⟨e, rfl⟩
      | ok => simp [Except.isOk, Except.toBool] at hr
  · have hseq : db₁.lastSequence = db.lastSequence := by
      cases (room_of_makeRoom hroom).2 <;> rfl
    obtain ⟨e, he⟩ := encode_of_exhausted h
    rw [logAndApply, hseq, he] at hlog
    exact ⟨e, (Prod.mk.inj hlog).1.symm⟩

end Reject

theorem get_withLevel0Table (v : Version) (t : Table) (key : Bytes) (s : ℕ) :
    (v.withLevel0Table t).get key s = (t.get key s).orElse (v.get key s) := by
  rw [Version.get_eq, Version.get_eq, Version.withLevel0Table]
  simp only [Function.update_self, ne_eq, Fin.reduceEq, not_false_eq_true, Function.update_of_ne]
  rw [Version.getLevel0_cons, Answer.orElse_assoc]

/-- The database without the tables that a compaction reads. -/
def DB.without (db : DB) (p : CompactionPlan) : DB := { db with version := p.install [] }

/-- A compaction whose floor is the largest sequence writes nothing. -/
theorem DB.Running.done_eq_nil {cfg : Config} {d : Disk} {db : DB} {bs extra : List WriteBatch}
    (h : db.Running cfg d bs extra) {p : CompactionPlan} {done : List Table}
    (hj : db.job = .compacting p [] none done) (hmax : maxSequenceNumber ≤ p.oldestSnapshot) :
    done = [] := by
  obtain ⟨hversion, -, -, built, hout, hbuilt⟩ := h.sound.compacting p [] none done hj
  rw [List.append_nil] at hout
  obtain ⟨stream, -, hmem, hsift⟩ := hout.sift
  have hbound : ∀ x ∈ stream, x.key.sequence ≤ p.oldestSnapshot := by
    intro x hx
    obtain ⟨l, hl⟩ := CompactionPlan.holds_of_input ((hmem x).mp hx)
    rw [hversion] at hl
    have hflushed := h.sound.keeps.bound x.update ⟨l, x, hl, rfl⟩
    exact ((hflushed.trans h.sound.keeps.le).trans h.length_le).trans hmax
  have hnil := hsift.eq_nil hmax (by simp) hbound
  have hchunks : built = [] := by
    cases built with
    | nil => rfl
    | cons c cs => exact absurd (List.append_eq_nil_iff.mp hnil).1 (hout.cuts.nonempty c (by simp))
  rw [← hbuilt.entries, List.map_eq_nil_iff] at hchunks
  exact hchunks

/-- A step of the background thread keeps every lookup from the oldest snapshot on,
unless it publishes a compaction whose floor is the largest sequence. -/
theorem DB.Running.get_of_work {cfg : Config} {d d' : Disk} {db db' : DB}
    {bs extra : List WriteBatch} (h : db.Running cfg d bs extra) (hw : Work cfg d db d' db') {s : ℕ}
    (hkeep : ∀ p done n, db.job = .compacting p [] none done →
      encodeManifest (compactionCandidate db p done).1 = .ok n →
      p.oldestSnapshot < maxSequenceNumber ∨ ∀ key, (db.without p).get key s = db.get key s)
    (hs : db.oldestSnapshot ≤ s) (key : Bytes) : db'.get key s = db.get key s := by
  cases hw with
  | flushCommit i t n hj hi _ =>
    obtain ⟨i', hi', hreader, _⟩ := h.sound.building t hj
    obtain rfl := Option.some.inj (hi.symm.trans hi')
    have ht : t.get key s = i.memtable.get key s := by
      rw [Table.get, hreader]
      rfl
    rw [DB.get_eq, DB.get_eq, hi]
    simp only [flushCandidate, get_withLevel0Table, Option.elim_none, Option.elim_some,
      Answer.absent_orElse, ht]
  | compactCommit p done n hj hn =>
    obtain ⟨hversion, hfits, hle, built, hout, hbuilt⟩ := h.sound.compacting p [] none done hj
    rw [List.append_nil] at hout
    rcases lt_or_ge p.oldestSnapshot maxSequenceNumber with hfloor | hmax
    · have hget := hfits.get_install (hversion ▸ h.sound.keeps.ordered) hout hbuilt hfloor
        (hle.trans hs) key
      rw [hversion] at hget
      rw [DB.get_eq, DB.get_eq]
      exact Answer.toOption_orElse_congr _ (Answer.toOption_orElse_congr _ hget.symm)
    · obtain rfl := h.done_eq_nil hj hmax
      exact (hkeep p [] n hj hn).resolve_left (not_lt.mpr hmax) key
  | _ => rfl

/-- A compaction with all outputs written can only be committed. -/
theorem eq_compactCommit {cfg : Config} {a : Action} {f : Disk → DB → Option (Disk × DB)} {d : Disk}
    {db : DB} {x : Disk × DB} {p : CompactionPlan} {done : List Table}
    (hf : a.operation cfg = some f) (hj : db.job = .compacting p [] none done)
    (h : f d db = some x) : f = compactCommit := by
  cases a <;> simp only [Action.operation, Option.some.injEq, reduceCtorEq] at hf <;> subst hf <;>
    first
    | rfl
    | simp [flushOpen, flushRename, flushCommit, compactPick, outputOpen, outputFinish, removeWal,
        removeTable, finishRemoval, hj] at h

/-- In every reachable state, up to the largest sequence number: a batch that does not
fit is rejected, without any change if and only if no rotation comes first; making room
leaves all lookups at the last sequence, and so does a step of the background thread if
and only if it does not publish a compaction picked with the largest sequence as its
floor, whose tables some lookup needs. -/
theorem exhaustion_of_reach {cfg : Config} {st : State} {db : DB}
    (h : (system cfg).Reach (fun _ _ => True) st) (hd : st.db = some db) :
    (∀ durability batch o, batch ≠ [] → maxSequenceNumber < db.lastSequence + batch.length →
      ((∃ e, write cfg durability batch o st.disk db = some (.error e, st.disk, db)) ↔
        db.backgroundError ≠ none ∨ db.hasRoom cfg = true ∨
          db.immutable = none ∧ maxFileNumber - 2 < db.nextFileNumber) ∧
      ∀ r d' db', write cfg durability batch o st.disk db = some (r, d', db') →
        (∃ e, r = .error e) ∧ db'.lastSequence = db.lastSequence ∧
          ∀ key s, db'.get key s = db.get key s) ∧
    (∀ d' (db' : DB), makeRoomForWrite cfg st.disk db = some (.ok (d', db')) →
      ∀ key, db'.get key db.lastSequence = db.get key db.lastSequence) ∧
    ∀ (a : Action) f d' (db' : DB), a.operation cfg = some f → f st.disk db = some (d', db') →
      ((∀ key, db'.get key db.lastSequence = db.get key db.lastSequence) ↔
        ∀ p done n, db.job = .compacting p [] none done →
          encodeManifest (compactionCandidate db p done).1 = .ok n →
          p.oldestSnapshot < maxSequenceNumber ∨
            ∀ key, (db.without p).get key db.lastSequence = db.get key db.lastSequence) := by
  obtain ⟨extra, _, hrun⟩ := running_of_reach h hd
  refine ⟨?_, ?_, ?_⟩
  · intro durability batch o hne hmax
    refine ⟨write_of_exhausted_iff hne hmax, ?_⟩
    intro r d' db' hw
    obtain ⟨e, rfl⟩ := not_isOk_of_exhausted hne hmax hw
    refine ⟨⟨e, rfl⟩, (get_of_write_error hw [] 0).2.1, ?_⟩
    intro key s
    exact (get_of_write_error hw key s).1
  · intro d' db' hroom key
    exact get_of_room (room_of_makeRoom hroom).2 key _
  · intro a f d' db' hf hstep
    constructor
    · intro hget p done n hj hn
      rcases lt_or_ge p.oldestSnapshot maxSequenceNumber with hfloor | hmax
      · exact Or.inl hfloor
      · obtain rfl := hrun.done_eq_nil hj hmax
        obtain rfl := eq_compactCommit hf hj hstep
        simp only [compactCommit, hj, writeManifest, hn, Option.some.injEq] at hstep
        obtain ⟨-, rfl⟩ := Prod.mk.inj hstep
        exact Or.inr hget
    · intro hkeep key
      exact hrun.get_of_work (work_of_operation hf hrun.filed.next.2 hstep) hkeep
        (DB.oldestSnapshot_le hrun.sound.snapshots) key

/-- A database whose memtable is full after one byte of values. -/
def valueConfig : Config :=
  { tinyConfig with
    sizing := { tinyConfig.sizing with memoryUsage := fun es => (es.map (·.value.length)).sum } }

/-- Writes without a value use up the sequence numbers while a compaction waits. -/
theorem exists_fill {st : State} {db : DB} (hr : (system valueConfig).Reach (fun _ _ => True) st)
    (hd : st.db = some db) (hopen : db.isOpen = true) (hb : db.backgroundError = none)
    (hw : db.walError = none) (hroom : db.hasRoom valueConfig = true) {n : ℕ}
    (hle : db.lastSequence ≤ n) (hmax : n ≤ maxSequenceNumber) :
    ∃ st' db', (system valueConfig).Reach (fun _ _ => True) st' ∧ st'.db = some db' ∧
      db'.lastSequence = n ∧ db'.hasRoom valueConfig = true ∧ db'.walError = none ∧
      db' = { db with memtable := db'.memtable, lastSequence := n } := by
  induction n, hle using Nat.le_induction with
  | base => exact ⟨st, db, hr, hd, rfl, hroom, hw, rfl⟩
  | succ n hle ih =>
    obtain ⟨st', db', hr', hd', hseq, hroom', hw', heq⟩ := ih (by omega)
    have hmake : makeRoomForWrite valueConfig st'.disk db' = some (.ok (st'.disk, db')) := by
      have hb' : db'.backgroundError = none := by
        rw [heq]
        exact hb
      simp only [makeRoomForWrite, hb', hroom', if_true]
    have henc : encode [.put [] []] (db'.lastSequence + 1) = .ok _ :=
      @encode_put [] (by decide) _ (Nat.succ_pos _) (by omega)
    have hs := step_applies (b := true) valueConfig st' hd' (by rw [heq]; exact hopen) hmake
      henc hw' le_rfl
    refine ⟨_, _, .step hr' trivial hs, rfl, by simp [hseq], ?_, hw', ?_⟩
    · have hsum : db'.memtable.added = [] ∨ (db'.memtable.added.map (·.value.length)).sum = 0 := by
        simpa [DB.hasRoom, valueConfig, tinyConfig, MemTable.isEmpty] using hroom'
      have hzero : (db'.memtable.added.map (·.value.length)).sum = 0 := by
        rcases hsum with hnil | hzero
        · simp [hnil]
        · exact hzero
      simp [DB.hasRoom, valueConfig, tinyConfig, applyBatch, MemTable.add,
        Operation.entry] at hzero ⊢
      exact Or.inr hzero
    · rw [heq]
      simp

/-- All sequence numbers are used, and a compaction picked at the snapshot 1 is about to be
committed. -/
theorem exhaustion_at_max : ∃ st db, (system valueConfig).Reach (fun _ _ => True) st ∧
    st.db = some db ∧ db.lastSequence = maxSequenceNumber ∧
      (∃ e, write valueConfig .sync [.put [1] [9]] ⟨1000, true⟩ st.disk db =
        some (.error e, st.disk, db)) ∧
      ∃ d' db', compactCommit st.disk db = some (d', db') ∧ db'.version.level 0 = [] ∧
        ∀ key, db'.get key maxSequenceNumber = db.get key maxSequenceNumber := by
  obtain ⟨st₀, hr₀, db₀, hd₀, hcommit, hplan, hopen, hb, hw, hroom, hle⟩ := exists_run valueConfig
    (fun _ _ => True)
    (fun st => ∃ db ∈ st.db, (compactCommit st.disk db).any (fun x =>
        x.2.backgroundError = none ∧ x.2.version.level 0 = []) ∧ db.oldestSnapshot = 1 ∧
        db.isOpen = true ∧ db.backgroundError = none ∧ db.walError = none ∧
      db.hasRoom valueConfig = true ∧ db.lastSequence ≤ 6)
    (.put .async [1] [7] :: .newSnapshot ::
      [[2], [1], [3], [2]].flatMap (fun k => .put .sync k [8] :: Action.flush) ++
      [.compactPick, .outputOpen, .outputFinish, .put .async [] []]) (by decide +kernel)
  have hlast : db₀.lastSequence ≤ maxSequenceNumber := hle.trans (by decide)
  obtain ⟨st, db, hr, hd, hseq, hroom', -, heq⟩ :=
    exists_fill hr₀ hd₀ hopen hb hw hroom hlast le_rfl
  obtain ⟨hreject, -, hwork⟩ := exhaustion_of_reach hr hd
  obtain ⟨p, done, hj⟩ : ∃ p done, db₀.job = .compacting p [] none done := by
    unfold compactCommit at hcommit
    split at hcommit
    · exact ⟨_, _, ‹_›⟩
    · simp at hcommit
  have hfloor : p.oldestSnapshot < maxSequenceNumber := by
    obtain ⟨_, _, hrun⟩ := running_of_reach hr₀ hd₀
    have := (hrun.sound.compacting p [] none done hj).floor
    rw [hplan] at this
    exact this.trans_lt (by decide)
  have hj' : db.job = .compacting p [] none done := by
    rw [heq]
    exact hj
  have hcand : compactionCandidate db p done = compactionCandidate db₀ p done := by
    rw [heq]
    rfl
  simp only [compactCommit, hj, writeManifest] at hcommit
  cases henc : encodeManifest (compactionCandidate db₀ p done).1 with
  | error e => simp [henc, failJob] at hcommit
  | ok n =>
    have hstep : compactCommit st.disk db =
        some ({ st.disk with manifest := some (compactionCandidate db p done).1 }, { db with
          manifest := (compactionCandidate db p done).1
          version := (compactionCandidate db p done).2
          job := .removingTables }) := by
      simp only [compactCommit, hj', writeManifest, hcand, henc]
    refine ⟨st, db, hr, hd, hseq, ?_, _, _, hstep, ?_, ?_⟩
    · exact ((hreject .sync [.put [1] [9]] ⟨1000, true⟩ (by simp) (by simp [hseq])).1).mpr
        (Or.inr (Or.inl hroom'))
    · rw [henc] at hcommit
      rw [hcand]
      exact (of_decide_eq_true hcommit).2
    · rw [← hseq]
      refine (hwork .compactCommit _ _ _ rfl hstep).mpr ?_
      intro p' done' _ hj'' _
      rw [hj'] at hj''
      cases hj''
      exact Or.inl hfloor

/-! ## A compaction at the largest sequence -/

/-- A table with one value. -/
def singleTable (key value : Bytes) (sequence : ℕ) : TableFile :=
  ⟨⟨[⟨⟨key, sequence, .value⟩, value⟩], by simp [Ascending]⟩, 2⟩

def singleMeta (number : ℕ) (key : Bytes) (sequence : ℕ) : TableMeta :=
  ⟨number, 2, ⟨key, sequence, .value⟩, ⟨key, sequence, .value⟩⟩

/-- The directory of a closed database that has used up its sequence numbers: the
last four writes are in four tables of level 0, the log is empty. -/
def exhaustedDisk : Disk where
  wals := [(5, {})]
  tables := [(1, singleTable [1] [7] (maxSequenceNumber - 3)),
    (2, singleTable [2] [7] (maxSequenceNumber - 2)),
    (3, singleTable [3] [7] (maxSequenceNumber - 1)), (4, singleTable [4] [7] maxSequenceNumber)]
  manifest := some
    { flushedSequence := maxSequenceNumber
      oldestWalNumber := 5
      levels := ![[singleMeta 4 [4] maxSequenceNumber, singleMeta 3 [3] (maxSequenceNumber - 1),
        singleMeta 2 [2] (maxSequenceNumber - 2), singleMeta 1 [1] (maxSequenceNumber - 3)],
          [], []] }

/-- The database opens and has four keys. The compaction that its background thread
then makes drops all of them. -/
theorem compaction_drops_all_at_max : ∃ st st' db db',
    TransitionSystem.exec (step tinyConfig) ⟨exhaustedDisk, none, [], none, 0⟩
      [.open, .finishRemoval, .finishRemoval] = some st ∧ st.db = some db ∧
    TransitionSystem.exec (step tinyConfig) st [.compactPick, .compactCommit] = some st' ∧
    st'.db = some db' ∧ db.lastSequence = maxSequenceNumber ∧
    (∀ k ∈ [[1], [2], [3], [4]], db.get k maxSequenceNumber = some [7]) ∧
    ∀ k ∈ [[1], [2], [3], [4]], db'.get k maxSequenceNumber = none := by
  have hrun : ∃ st ∈ TransitionSystem.exec (step tinyConfig) ⟨exhaustedDisk, none, [], none, 0⟩
      [.open, .finishRemoval, .finishRemoval], ∃ db ∈ st.db,
      ∃ st' ∈ TransitionSystem.exec (step tinyConfig) st [.compactPick, .compactCommit],
      ∃ db' ∈ st'.db, db.lastSequence = maxSequenceNumber ∧
        (∀ k ∈ [[1], [2], [3], [4]], db.get k maxSequenceNumber = some [7]) ∧
        ∀ k ∈ [[1], [2], [3], [4]], db'.get k maxSequenceNumber = none := by
    decide +kernel
  obtain ⟨st, hst, db, hdb, st', hst', db', hdb', hfacts⟩ := hrun
  exact ⟨st, st', db, db', hst, hdb, hst', hdb', hfacts⟩

end Mizu.Lsm
