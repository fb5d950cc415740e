import Mizu.Lsm.Memory

/-!
# What each step does

Every step of the background thread is one of the cases of `Work`; a write is a
possible rotation followed by one of the cases of `Logging`. The proofs about runs
go through these cases and never unfold the functions again.
-/

namespace Mizu.Lsm

/-- The tables the background thread has built and not yet published. -/
def Job.tables : Job → List Table
  | .flushBuilt t => [t]
  | .compacting _ _ _ done => done
  | _ => []

/-- The effects of the background thread. -/
inductive Work (cfg : Config) (d : Disk) (db : DB) : Disk → DB → Prop
  | fail (e : Status) (tables : List Table) (next : ℕ) : (∀ t ∈ tables, t ∈ db.job.tables) →
      db.nextFileNumber ≤ next → next ≤ max db.nextFileNumber maxFileNumber →
      Work cfg d db (tables.foldl (fun d t => d.removeTable t.info.number) d)
        { db with nextFileNumber := next, backgroundError := some e, job := .idle }
  | flushOpen (i : ImmutableMemTable) : db.job = .idle → db.immutable = some i →
      i.tableNumber ∉ d.temporaries →
      Work cfg d db { d with temporaries := i.tableNumber :: d.temporaries }
        { db with job := .flushBuilding }
  | flushRename (i : ImmutableMemTable) (t : Table) : db.job = .flushBuilding →
      db.immutable = some i →
      buildTable cfg.sizing i.tableNumber i.memtable.run.entries = some t →
      Work cfg d db (d.renameTable i.tableNumber t.file) { db with job := .flushBuilt t }
  | flushCommit (i : ImmutableMemTable) (t : Table) (n : ℕ) : db.job = .flushBuilt t →
      db.immutable = some i → encodeManifest (flushCandidate db i t).1 = .ok n →
      Work cfg d db { d with manifest := some (flushCandidate db i t).1 }
        { db with
          manifest := (flushCandidate db i t).1
          version := (flushCandidate db i t).2
          immutable := none
          job := .removingWals db.walNumber }
  | compactPick (p : CompactionPlan) (chunks : List (List Entry)) : db.job = .idle →
      pickCompaction db.version db.oldestSnapshot cfg.compaction = some p →
      buildCompactionTables cfg.sizing cfg.compaction p = .ok chunks →
      Work cfg d db d { db with job := .compacting p chunks none [] }
  | outputOpen (p : CompactionPlan) (c : List Entry) (todo : List (List Entry))
      (done : List Table) : db.job = .compacting p (c :: todo) none done →
      db.nextFileNumber ≠ maxFileNumber → db.nextFileNumber ≠ 0 →
      db.nextFileNumber ∉ d.temporaries →
      Work cfg d db { d with temporaries := db.nextFileNumber :: d.temporaries }
        { db with
          nextFileNumber := db.nextFileNumber + 1
          job := .compacting p (c :: todo) (some db.nextFileNumber) done }
  | outputFinish (p : CompactionPlan) (c : List Entry) (todo : List (List Entry)) (n : ℕ)
      (done : List Table) (t : Table) : db.job = .compacting p (c :: todo) (some n) done →
      buildTable cfg.sizing n c = some t →
      Work cfg d db (d.renameTable n t.file)
        { db with job := .compacting p todo none (done ++ [t]) }
  | compactCommit (p : CompactionPlan) (done : List Table) (n : ℕ) :
      db.job = .compacting p [] none done →
      encodeManifest (compactionCandidate db p done).1 = .ok n →
      Work cfg d db { d with manifest := some (compactionCandidate db p done).1 }
        { db with
          manifest := (compactionCandidate db p done).1
          version := (compactionCandidate db p done).2
          job := .removingTables }
  | removeWal (n : ℕ) : (∃ live, db.job = .removingWals live ∧ n < live) ∨
      db.job = .openingWals ∧ n < db.manifest.oldestWalNumber →
      Work cfg d db (d.removeWal n) db
  | removeTable (n : ℕ) : db.job = .removingTables ∨ db.job = .openingTables →
      n ∉ db.manifest.live → Work cfg d db (d.removeTable n) db
  | removeTemporary (n : ℕ) : db.job = .removingTables ∨ db.job = .openingTables →
      Work cfg d db (d.removeTemporary n) db
  | finishRemoval (job : Job) : db.job ≠ .flushBuilding → job = .idle ∨ job = .openingTables →
      Work cfg d db d { db with job := job }

section Work

variable {cfg : Config} {d d' : Disk} {db db' : DB}

theorem Work.failJob (e : Status) (tables : List Table) (h : ∀ t ∈ tables, t ∈ db.job.tables) :
    Work cfg d db (failJob e tables d db).1 (failJob e tables d db).2 :=
  .fail e tables db.nextFileNumber h le_rfl (le_max_left _ _)

theorem work_of_flushOpen (h : flushOpen d db = some (d', db')) : Work cfg d db d' db' := by
  unfold flushOpen at h
  split at h
  · rename_i i hj _ hi
    split at h
    · cases h
      exact .failJob _ [] (by simp)
    · rename_i hn
      cases h
      exact .flushOpen i hj hi hn
  · simp at h

theorem work_of_flushRename (h : flushRename cfg d db = some (d', db')) : Work cfg d db d' db' := by
  unfold flushRename at h
  split at h
  · rename_i i hj hi
    obtain ⟨t, ht, heq⟩ := Option.bind_eq_some_iff.mp h
    cases heq
    exact .flushRename i t hj hi ht
  · simp at h

theorem writeManifest_ok {m : Manifest} (h : writeManifest m d = .ok d') :
    (∃ n, encodeManifest m = .ok n) ∧ d' = { d with manifest := some m } := by
  unfold writeManifest at h
  split at h
  · simp at h
  · rename_i n hn
    exact ⟨⟨n, hn⟩, (Except.ok.inj h).symm⟩

theorem work_of_flushCommit (h : flushCommit d db = some (d', db')) : Work cfg d db d' db' := by
  unfold flushCommit at h
  split at h
  · rename_i t i hj hi
    simp only at h
    split at h
    · cases h
      exact .failJob _ [t] (by simp [hj, Job.tables])
    · rename_i d₁ hw
      obtain ⟨⟨n, hn⟩, rfl⟩ := writeManifest_ok hw
      cases h
      exact .flushCommit i t n hj hi hn
  · simp at h

theorem work_of_compactPick (h : compactPick cfg d db = some (d', db')) : Work cfg d db d' db' := by
  unfold compactPick at h
  split at h
  · rename_i hj _
    obtain ⟨p, hp, heq⟩ := Option.bind_eq_some_iff.mp h
    split at heq
    · cases heq
      exact .failJob _ [] (by simp)
    · rename_i chunks hb
      cases heq
      exact .compactPick p chunks hj hp hb
  · simp at h

theorem work_of_outputOpen (hnext : db.nextFileNumber ≤ maxFileNumber)
    (h : outputOpen d db = some (d', db')) : Work cfg d db d' db' := by
  unfold outputOpen at h
  split at h
  · rename_i p c todo done hj
    have htables : ∀ t ∈ done, t ∈ db.job.tables := by
      intro t ht
      rw [hj]
      exact ht
    split at h
    · cases h
      exact .failJob _ done htables
    · rename_i hmax
      have hbound : db.nextFileNumber + 1 ≤ max db.nextFileNumber maxFileNumber :=
        le_max_of_le_right (by omega)
      simp only at h
      split at h
      · cases h
        exact .fail _ done (db.nextFileNumber + 1) htables (Nat.le_succ _) hbound
      · rename_i hzero
        split at h
        · cases h
          exact .fail _ done (db.nextFileNumber + 1) htables (Nat.le_succ _) hbound
        · split at h
          · cases h
            exact .fail _ done (db.nextFileNumber + 1) htables (Nat.le_succ _) hbound
          · rename_i htemp
            cases h
            exact .outputOpen p c todo done hj hmax hzero htemp
  · simp at h

theorem work_of_outputFinish (h : outputFinish cfg d db = some (d', db')) :
    Work cfg d db d' db' := by
  unfold outputFinish at h
  split at h
  · rename_i p c todo n done hj
    obtain ⟨t, ht, heq⟩ := Option.bind_eq_some_iff.mp h
    cases heq
    exact .outputFinish p c todo n done t hj ht
  · simp at h

theorem work_of_compactCommit (h : compactCommit d db = some (d', db')) : Work cfg d db d' db' := by
  unfold compactCommit at h
  split at h
  · rename_i p done hj
    simp only at h
    split at h
    · cases h
      exact .failJob _ done (by simp [hj, Job.tables])
    · rename_i d₁ hw
      obtain ⟨⟨n, hn⟩, rfl⟩ := writeManifest_ok hw
      cases h
      exact .compactCommit p done n hj hn
  · simp at h

theorem work_of_removeWal {n : ℕ} (h : removeWal n d db = some (d', db')) :
    Work cfg d db d' db' := by
  unfold removeWal at h
  split at h
  · rename_i live hj
    split at h
    · rename_i hlt
      cases h
      exact .removeWal n (Or.inl ⟨live, hj, hlt⟩)
    · simp at h
  · rename_i hj
    split at h
    · rename_i hlt
      cases h
      exact .removeWal n (Or.inr ⟨hj, hlt⟩)
    · simp at h
  · simp at h

theorem work_of_removeTable {n : ℕ} {temporary : Bool}
    (h : removeTable n temporary d db = some (d', db')) : Work cfg d db d' db' := by
  have key : db.job = .removingTables ∨ db.job = .openingTables →
      (if temporary then some (d.removeTemporary n, db)
        else if n ∈ db.manifest.live then none else some (d.removeTable n, db)) = some (d', db') →
      Work cfg d db d' db' := by
    intro hj h
    split at h
    · cases h
      exact .removeTemporary n hj
    · split at h
      · simp at h
      · rename_i hlive
        cases h
        exact .removeTable n hj hlive
  unfold removeTable at h
  split at h
  · rename_i hj
    exact key (Or.inl hj) h
  · rename_i hj
    exact key (Or.inr hj) h
  · simp at h

theorem work_of_finishRemoval (h : finishRemoval d db = some (d', db')) : Work cfg d db d' db' := by
  unfold finishRemoval at h
  split at h
  · rename_i live hj
    cases h
    exact .finishRemoval _ (by simp [hj]) (Or.inl rfl)
  · rename_i hj
    cases h
    exact .finishRemoval _ (by simp [hj]) (Or.inl rfl)
  · rename_i hj
    cases h
    exact .finishRemoval _ (by simp [hj]) (Or.inl rfl)
  · rename_i hj
    cases h
    exact .finishRemoval _ (by simp [hj]) (Or.inr rfl)
  · simp at h

end Work

/-! ## Writes -/

/-- Room was there, or was made by a rotation. -/
inductive Room (cfg : Config) (d : Disk) (db : DB) : Disk → DB → Prop
  | enough : db.hasRoom cfg → Room cfg d db d db
  | rotated : ¬ db.hasRoom cfg → db.immutable = none →
      db.nextFileNumber ≤ maxFileNumber - 2 →
      Room cfg d db (d.openWal (db.nextFileNumber + 1))
        { db with
          nextFileNumber := db.nextFileNumber + 2
          immutable := some ⟨db.memtable, db.nextFileNumber, db.lastSequence⟩
          memtable := .empty
          walNumber := db.nextFileNumber + 1
          walError := none }

/-- What becomes of a batch once there is room for it: `true` is success. -/
inductive Logging (batch : WriteBatch) (d : Disk) (db : DB) : Bool → Disk → DB → Prop
  | refused : db.walError ≠ none ∨ (∀ p, encode batch (db.lastSequence + 1) ≠ .ok p) →
      Logging batch d db false d db
  | torn (payload : Bytes) (n : ℕ) : encode batch (db.lastSequence + 1) = .ok payload →
      db.walError = none → n < (walRecord payload).length →
      Logging batch d db false
        (d.mapWal db.walNumber fun f => { f with bytes := f.bytes ++ (walRecord payload).take n })
        { db with walError := some writeError }
  | unsynced (payload : Bytes) : encode batch (db.lastSequence + 1) = .ok payload →
      db.walError = none →
      Logging batch d db false
        (d.mapWal db.walNumber fun f => { f with bytes := f.bytes ++ walRecord payload })
        { db with walError := some syncError }
  | applied (payload : Bytes) (sync : Bool) : encode batch (db.lastSequence + 1) = .ok payload →
      db.walError = none →
      Logging batch d db true
        (d.mapWal db.walNumber fun f =>
          ⟨f.bytes ++ walRecord payload,
            if sync then (f.bytes ++ walRecord payload).length else f.synced⟩)
        { db with
          memtable := applyBatch db.memtable (db.lastSequence + 1) batch
          lastSequence := db.lastSequence + batch.length }

section Write

variable {cfg : Config} {d d' : Disk} {db db' : DB} {batch : WriteBatch} {o : WriteOutcome}
  {durability : Durability} {r : Except Status Unit}

theorem Disk.mapWal_mapWal (d : Disk) (n : ℕ) (f g : WalFile → WalFile) :
    (d.mapWal n f).mapWal n g = d.mapWal n (g ∘ f) := by
  simp only [mapWal, List.map_map, Function.comp_def]
  congr 1
  apply List.map_congr_left
  intro p _
  by_cases h : p.1 = n <;> simp [h]

theorem room_of_makeRoom (h : makeRoomForWrite cfg d db = some (.ok (d', db'))) :
    db.backgroundError = none ∧ Room cfg d db d' db' := by
  unfold makeRoomForWrite at h
  split at h
  · simp at h
  · rename_i hbg
    refine ⟨hbg, ?_⟩
    split at h
    · rename_i hroom
      cases h
      exact .enough hroom
    · rename_i hroom
      split at h
      · rename_i hi
        have h' := Option.some.inj h
        unfold rotateMemTable at h'
        split at h'
        · simp at h'
        · cases h'
          exact .rotated hroom (by simpa using hi) (by omega)
      · simp at h

/-- A batch that encodes is written to the log as a record, whole or in part. -/
theorem walAppend_of_encode {payload : Bytes} {s : ℕ} (henc : encode batch s = .ok payload)
    (herr : db.walError = none) (n : ℕ) : walAppend payload n d db =
      if n < (walRecord payload).length then
        (.error writeError,
          d.mapWal db.walNumber fun f => { f with bytes := f.bytes ++ (walRecord payload).take n },
          { db with walError := some writeError })
      else
        (.ok (),
          d.mapWal db.walNumber fun f => { f with bytes := f.bytes ++ (walRecord payload).take n },
          db) := by
  obtain ⟨hne, hsize⟩ := ValidPayload.of_encode henc
  unfold walAppend
  rw [herr]
  simp only [hne, if_false]
  rw [if_neg (by omega)]

theorem walSync_of_open (herr : db.walError = none) (synced : Bool) : walSync synced d db =
    if synced then
      (.ok (), d.mapWal db.walNumber fun f => { f with synced := f.bytes.length }, db)
    else (.error syncError, d, { db with walError := some syncError }) := by
  unfold walSync
  rw [herr]

theorem logging_of_logAndApply (h : logAndApply durability batch o d db = (r, d', db')) :
    Logging batch d db r.isOk d' db' ∧
      (r.isOk → durability = .sync → ∃ payload, encode batch (db.lastSequence + 1) = .ok payload ∧
        d' = d.mapWal db.walNumber fun f =>
          ⟨f.bytes ++ walRecord payload, (f.bytes ++ walRecord payload).length⟩) := by
  unfold logAndApply at h
  cases henc : encode batch (db.lastSequence + 1) with
  | error e =>
    rw [henc] at h
    obtain ⟨rfl, rfl, rfl⟩ : Except.error e = r ∧ d = d' ∧ db = db' := by simpa using h
    exact ⟨.refused (Or.inr fun p hp => by simp [henc] at hp), by simp [Except.isOk, Except.toBool]⟩
  | ok payload =>
    rw [henc] at h
    simp only at h
    cases herr : db.walError with
    | some e =>
      have happ : walAppend payload o.written d db = (.error e, d, db) := by
        simp [walAppend, herr]
      rw [happ] at h
      obtain ⟨rfl, rfl, rfl⟩ : Except.error e = r ∧ d = d' ∧ db = db' := by simpa using h
      exact ⟨.refused (Or.inl (by simp [herr])), by simp [Except.isOk, Except.toBool]⟩
    | none =>
      rw [walAppend_of_encode henc herr] at h
      by_cases htorn : o.written < (walRecord payload).length
      · rw [if_pos htorn] at h
        obtain ⟨rfl, rfl, rfl⟩ := by simpa using h
        exact ⟨.torn payload o.written henc herr htorn, by simp [Except.isOk, Except.toBool]⟩
      · rw [if_neg htorn, List.take_of_length_le (by omega)] at h
        simp only at h
        by_cases hsync : durability = .sync
        · rw [if_pos hsync, walSync_of_open herr] at h
          cases hs : o.synced with
          | false =>
            simp only [hs, Bool.false_eq_true, if_false] at h
            obtain ⟨rfl, rfl, rfl⟩ := by simpa using h
            exact ⟨.unsynced payload henc herr, by simp [Except.isOk, Except.toBool]⟩
          | true =>
            simp only [hs, if_true, Disk.mapWal_mapWal] at h
            obtain ⟨rfl, rfl, rfl⟩ := by simpa using h
            exact ⟨.applied payload true henc herr, fun _ _ => ⟨payload, rfl, rfl⟩⟩
        · rw [if_neg hsync] at h
          obtain ⟨rfl, rfl, rfl⟩ := by simpa using h
          exact ⟨.applied payload false henc herr, fun _ hd => absurd hd hsync⟩

/-- What a write does: nothing at all, or rotate if need be and log the batch. -/
theorem write_cases (h : write cfg durability batch o d db = some (r, d', db')) :
    (d' = d ∧ db' = db ∧ (batch = [] ∧ r.isOk ∨ r.isOk = false ∧
        ∀ x, makeRoomForWrite cfg d db ≠ some (.ok x))) ∨
      batch ≠ [] ∧ ∃ d₁ db₁, makeRoomForWrite cfg d db = some (.ok (d₁, db₁)) ∧
        logAndApply durability batch o d₁ db₁ = (r, d', db') := by
  unfold write at h
  split at h
  · rename_i hb
    obtain ⟨rfl, rfl, rfl⟩ := by simpa using h
    exact Or.inl ⟨rfl, rfl, Or.inl ⟨by simpa using hb, rfl⟩⟩
  · rename_i hb
    split at h
    · simp at h
    · rename_i e hm
      obtain ⟨rfl, rfl, rfl⟩ := by simpa using h
      exact Or.inl ⟨rfl, rfl, Or.inr ⟨rfl, fun x hx => by simp [hm] at hx⟩⟩
    · rename_i d₁ db₁ hm
      exact Or.inr ⟨by simpa using hb, d₁, db₁, hm, Option.some.inj h⟩

end Write

/-! ## The system -/

/-- The file operation of the background thread behind an action. -/
def Action.operation (cfg : Config) : Action → Option (Disk → DB → Option (Disk × DB))
  | .flushOpen => some Lsm.flushOpen
  | .flushRename => some (Lsm.flushRename cfg)
  | .flushCommit => some Lsm.flushCommit
  | .compactPick => some (Lsm.compactPick cfg)
  | .outputOpen => some Lsm.outputOpen
  | .outputFinish => some (Lsm.outputFinish cfg)
  | .compactCommit => some Lsm.compactCommit
  | .removeWal n => some (Lsm.removeWal n)
  | .removeTable n temporary => some (Lsm.removeTable n temporary)
  | .finishRemoval => some Lsm.finishRemoval
  | _ => none

/-- The actions that end the process. -/
def Action.ends : Action → Bool
  | .close | .crash | .crashInWrite _ _ => true
  | _ => false

/-- The state after a write that has succeeded or not. -/
abbrev State.wrote (cfg : Config) (st : State) (batch : WriteBatch) (db : DB) (ok : Bool)
    (d' : Disk) (db' : DB) (durable : ℕ) : State where
  disk := d'
  db := some db'
  acknowledged := if ok && !batch.isEmpty then st.acknowledged ++ [batch] else st.acknowledged
  pending := if ok then st.pending
    else if reachesLog cfg batch st.disk db then some batch else st.pending
  durable := durable

/-- The effects of an action on the whole state. -/
inductive Turn (cfg : Config) (st : State) : Action → State → Prop
  | write {durability : Durability} {batch : WriteBatch} {o : WriteOutcome} {db db' : DB}
      {d' : Disk} {r : Except Status Unit} : st.db = some db → db.isOpen →
      Lsm.write cfg durability batch o st.disk db = some (r, d', db') →
      Turn cfg st (.write durability batch o)
        (st.wrote cfg batch db r.isOk d' db' (if r.isOk && !batch.isEmpty && durability = .sync then
          st.acknowledged.length + 1 else st.durable))
  | newSnapshot {db : DB} : st.db = some db →
      Turn cfg st .newSnapshot
        { st with db := some { db with snapshots := db.lastSequence :: db.snapshots } }
  | releaseSnapshot {s : ℕ} {db : DB} : st.db = some db →
      Turn cfg st (.releaseSnapshot s)
        { st with db := some { db with snapshots := db.snapshots.erase s } }
  | background {a : Action} {f : Disk → DB → Option (Disk × DB)} {db db' : DB} {d' : Disk} :
      a.operation cfg = some f → st.db = some db → f st.disk db = some (d', db') →
      Turn cfg st a { st with disk := d', db := some db' }
  | ended {a : Action} {db : DB} : a.ends = true → st.db = some db →
      Turn cfg st a { st with db := none }
  | cutRoom {batch : WriteBatch} {n : ℕ} {db db₁ : DB} {d₁ : Disk} : st.db = some db →
      makeRoomForWrite cfg st.disk db = some (.ok (d₁, db₁)) →
      Turn cfg st (.crashInWrite batch n) { st with disk := d₁, db := none }
  | cutWrite {batch : WriteBatch} {n : ℕ} {db db₁ : DB} {d₁ : Disk} {payload : Bytes} :
      st.db = some db → makeRoomForWrite cfg st.disk db = some (.ok (d₁, db₁)) →
      encode batch (db₁.lastSequence + 1) = .ok payload →
      Turn cfg st (.crashInWrite batch n)
        { st with
          disk := (walAppend payload n d₁ db₁).2.1
          db := none
          pending := if db₁.walError.isNone then some batch else st.pending }
  | opened {d' : Disk} {db : DB} : st.db = none → openDatabase st.disk = (d', .ok db) →
      Turn cfg st .open
        { st with
          disk := d'
          db := some db
          acknowledged :=
            if db.lastSequence = operationCount st.acknowledged then st.acknowledged
            else st.acknowledged ++ st.pending.toList
          pending := none }
  | refused {d' : Disk} {e : Status} : st.db = none → openDatabase st.disk = (d', .error e) →
      Turn cfg st .open { st with disk := d', db := none }
  | interrupted {k : ℕ} : st.db = none →
      Turn cfg st (.crashInOpen k) { st with disk := interruptOpen st.disk k, db := none }

section Turn

variable {cfg : Config} {st st' : State}

theorem exists_db {f : DB → Option State}
    (h : (match st.db with | none => none | some db => f db) = some st') :
    ∃ db, st.db = some db ∧ f db = some st' := by
  cases hd : st.db with
  | none => simp [hd] at h
  | some db =>
    rw [hd] at h
    exact ⟨db, rfl, h⟩

variable {f : Disk → DB → Option (Disk × DB)} {a : Action}

theorem turn_of_background
    (hf : a.operation cfg = some f) (h : st.background f = some st') : Turn cfg st a st' := by
  obtain ⟨db, hd, h⟩ := exists_db h
  obtain ⟨⟨d', db'⟩, hr, rfl⟩ := Option.map_eq_some_iff.mp h
  exact .background hf hd hr

theorem turn_of_crashInWrite {batch : WriteBatch} {n : ℕ}
    (h : step cfg st (.crashInWrite batch n) = some st') :
    Turn cfg st (.crashInWrite batch n) st' := by
  obtain ⟨db, hd, h⟩ := exists_db h
  split_ifs at h
  split at h
  · cases h
  · cases h
    exact .ended rfl hd
  · rename_i d₁ db₁ hroom
    split at h
    · cases h
      exact .cutRoom hd hroom
    · rename_i payload henc
      cases h
      exact .cutWrite hd hroom henc

theorem turn_of_step (h : step cfg st a = some st') : Turn cfg st a st' := by
  cases a with
  | crashInWrite batch n => exact turn_of_crashInWrite h
  | flushOpen => exact turn_of_background rfl h
  | flushRename => exact turn_of_background rfl h
  | flushCommit => exact turn_of_background rfl h
  | compactPick => exact turn_of_background rfl h
  | outputOpen => exact turn_of_background rfl h
  | outputFinish => exact turn_of_background rfl h
  | compactCommit => exact turn_of_background rfl h
  | removeWal n => exact turn_of_background rfl h
  | removeTable n temporary => exact turn_of_background rfl h
  | finishRemoval => exact turn_of_background rfl h
  | write durability batch o =>
    obtain ⟨db, hd, h⟩ := exists_db h
    split at h
    · rename_i hopen
      obtain ⟨⟨r, d', db'⟩, hw, rfl⟩ := Option.map_eq_some_iff.mp h
      exact .write hd hopen hw
    · cases h
  | newSnapshot =>
    obtain ⟨db, hd, h⟩ := exists_db h
    split_ifs at h
    cases h
    exact .newSnapshot hd
  | releaseSnapshot s =>
    obtain ⟨db, hd, h⟩ := exists_db h
    split_ifs at h
    cases h
    exact .releaseSnapshot hd
  | close =>
    obtain ⟨db, hd, h⟩ := exists_db h
    split_ifs at h
    cases h
    exact .ended rfl hd
  | crash =>
    obtain ⟨db, hd, h⟩ := exists_db h
    cases h
    exact .ended rfl hd
  | «open» =>
    unfold step at h
    cases hd : st.db with
    | some db => simp [hd] at h
    | none =>
      simp only [hd] at h
      split at h
      · rename_i d' e hopen
        cases h
        exact .refused hd hopen
      · rename_i d' db hopen
        cases h
        exact .opened hd hopen
  | crashInOpen k =>
    unfold step at h
    cases hd : st.db with
    | some db => simp [hd] at h
    | none =>
      simp only [hd] at h
      cases h
      exact .interrupted hd

/-- Every file operation of the background thread is one of the cases of `Work`. -/
theorem work_of_operation {d d' : Disk}
    {db db' : DB} (hf : a.operation cfg = some f) (hnext : db.nextFileNumber ≤ maxFileNumber)
    (h : f d db = some (d', db')) : Work cfg d db d' db' := by
  cases a <;> simp only [Action.operation, Option.some.injEq, reduceCtorEq] at hf <;> subst hf
  · exact work_of_flushOpen h
  · exact work_of_flushRename h
  · exact work_of_flushCommit h
  · exact work_of_compactPick h
  · exact work_of_outputOpen hnext h
  · exact work_of_outputFinish h
  · exact work_of_compactCommit h
  · exact work_of_removeWal h
  · exact work_of_removeTable h
  · exact work_of_finishRemoval h

end Turn

end Mizu.Lsm
