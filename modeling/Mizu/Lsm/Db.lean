import Mizu.Library.Assoc
import Mizu.Library.Reach
import Mizu.Lsm.Compaction
import Mizu.Lsm.Wal

/-!
# The database

`DB` is `DBImpl`: the memory of an open database. `Disk` is the directory it
works in. A write appends to the log and then to the memtable; a full memtable is
rotated out together with a new log; the background thread flushes it to level 0
and compacts. Everything that survives the process is in the directory, so an
action of the system is one call, one file operation of the background thread, or
the end of the process.
-/

open Multiversion

namespace Mizu.Lsm

/-- Options and sizes that a database is run with. -/
structure Config where
  writeBufferSize : ℕ
  sizing : Sizing
  compaction : CompactionOptions

/-- `numeric_limits<uint64_t>::max()` -/
def maxFileNumber : ℕ := 2 ^ 64 - 1

/-! ## The directory -/

/-- A log: its bytes and how many of them the last `fdatasync` covered. -/
structure WalFile where
  bytes : Bytes := []
  synced : ℕ := 0
deriving DecidableEq

structure TableFile where
  run : Run
  size : ℕ
deriving DecidableEq

/-- The numbered files and the manifest; `MANIFEST.tmp` is rewritten before use. -/
structure Disk where
  wals : List (ℕ × WalFile) := []
  tables : List (ℕ × TableFile) := []
  temporaries : List ℕ := []
  manifest : Option Manifest := none
deriving DecidableEq

namespace Disk

/-- The numbers `scanDatabaseDirectory` sees. -/
def numbers (d : Disk) : List ℕ := Assoc.keys d.wals ++ (Assoc.keys d.tables ++ d.temporaries)

def maximumNumber (d : Disk) : ℕ := d.numbers.foldl max 0

def walNumbers (d : Disk) : List ℕ := (Assoc.keys d.wals).insertionSort (· ≤ ·)

/-- `WalWriter::open`: created when it is missing. -/
def openWal (d : Disk) (n : ℕ) : Disk :=
  if (Assoc.get n d.wals).isSome then d else { d with wals := d.wals ++ [(n, {})] }

/-- Change the log with number `n`. -/
def mapWal (d : Disk) (n : ℕ) (f : WalFile → WalFile) : Disk :=
  { d with wals := d.wals.map fun p => if p.1 = n then (p.1, f p.2) else p }

def removeWal (d : Disk) (n : ℕ) : Disk := { d with wals := Assoc.erase n d.wals }

def removeTable (d : Disk) (n : ℕ) : Disk := { d with tables := Assoc.erase n d.tables }

def removeTemporary (d : Disk) (n : ℕ) : Disk :=
  { d with temporaries := d.temporaries.filter (· ≠ n) }

/-- The temporary file becomes the table `n`. -/
def renameTable (d : Disk) (n : ℕ) (f : TableFile) : Disk :=
  { d.removeTemporary n with tables := Assoc.set n f d.tables }

end Disk

/-- The numbers `removeObsoleteSSTableFilesBestEffort` spares. -/
def Manifest.live (m : Manifest) : List ℕ :=
  ((m.levels 0 ++ (m.levels 1 ++ m.levels 2))).map TableMeta.number

/-! ## The process -/

structure ImmutableMemTable where
  memtable : MemTable
  tableNumber : ℕ
  lastSequence : ℕ
deriving DecidableEq

/-- What the background thread has done of its current job. While the database
is being opened, only the removal of obsolete files is left to do. -/
inductive Job
  | idle
  | flushBuilding
  | flushBuilt (table : Table)
  | compacting (plan : CompactionPlan) (todo : List (List Entry)) (building : Option ℕ)
      (done : List Table)
  | removingWals (live : ℕ)
  | removingTables
  | openingWals
  | openingTables
deriving DecidableEq

/-- `DBImpl` -/
structure DB where
  walNumber : ℕ
  walError : Option Status := none
  nextFileNumber : ℕ
  manifest : Manifest
  version : Version
  lastSequence : ℕ
  snapshots : List ℕ := []
  memtable : MemTable
  immutable : Option ImmutableMemTable := none
  backgroundError : Option Status := none
  job : Job := .idle
deriving DecidableEq

namespace DB

/-- `SnapshotTracker::oldest` -/
def oldestSnapshot (db : DB) : ℕ := db.snapshots.min?.getD db.lastSequence

/-- `DBImpl::get` at a visible sequence; `none` is `NotFound`. -/
def get (db : DB) (key : Bytes) (s : ℕ) : Option Bytes :=
  match db.memtable.get key s with
  | .value v => some v
  | .deleted => none
  | .absent =>
    match (db.immutable.map fun i => i.memtable.get key s).getD .absent with
    | .value v => some v
    | .deleted => none
    | .absent =>
      match db.version.get key s with
      | .value v => some v
      | _ => none

end DB

/-- Each operation of the batch takes the next sequence. -/
def applyBatch (m : MemTable) (sequence : ℕ) : WriteBatch → MemTable
  | [] => m
  | op :: ops => applyBatch (m.add (op.entry sequence)) (sequence + 1) ops

/-- `SSTableBuilder` from `open` to `finish`, and the reader of its file.
Assertions exclude keys out of order, an empty table and a restart offset that does
not fit in 32 bits. -/
def buildTable (z : Sizing) (number : ℕ) (es : List Entry) : Option Table :=
  if h : Ascending es ∧ z.lastRestart es < 2 ^ 32 then
    match es.head?, es.getLast? with
    | some first, some last =>
      some ⟨⟨number, z.fileSize es, first.key, last.key⟩, ⟨es, h.1⟩⟩
    | _, _ => none
  else none

def Table.file (t : Table) : TableFile := ⟨t.reader, t.info.fileSize⟩

/-! ## Writing -/

def rotateMemTable (d : Disk) (db : DB) : Except Status (Disk × DB) :=
  if db.nextFileNumber > maxFileNumber - 2 then
    .error (.ioError "database file number space is exhausted")
  else
    .ok (d.openWal (db.nextFileNumber + 1),
      { db with
        nextFileNumber := db.nextFileNumber + 2
        immutable := some ⟨db.memtable, db.nextFileNumber, db.lastSequence⟩
        memtable := .empty
        walNumber := db.nextFileNumber + 1
        walError := none })

/-- Whether `makeRoomForWrite` lets the next batch into the memtable as it is. -/
def DB.hasRoom (cfg : Config) (db : DB) : Bool :=
  db.memtable.isEmpty || cfg.sizing.memoryUsage db.memtable.added < cfg.writeBufferSize

/-- `none` while the writer waits for the background thread. -/
def makeRoomForWrite (cfg : Config) (d : Disk) (db : DB) : Option (Except Status (Disk × DB)) :=
  match db.backgroundError with
  | some e => some (.error e)
  | none =>
    if db.hasRoom cfg then some (.ok (d, db))
    else if db.immutable.isNone then some (rotateMemTable d db)
    else none

/-- How the system calls of one write end: how many bytes of the record `write`
takes before it fails, if it does, and whether `fdatasync` succeeds. -/
structure WriteOutcome where
  written : ℕ
  synced : Bool
deriving DecidableEq

inductive Durability
  | async
  | sync
deriving DecidableEq

def writeError : Status := .ioError "write WAL"

def syncError : Status := .ioError "sync WAL"

/-- `WalWriter::append`; a failed call latches the error. -/
def walAppend (payload : Bytes) (written : ℕ) (d : Disk) (db : DB) :
    Except Status Unit × Disk × DB :=
  match db.walError with
  | some e => (.error e, d, db)
  | none =>
    if payload = [] then
      (.error (.invalidArgument "WAL record payload must not be empty"), d, db)
    else if payload.length > maxPayloadSize then
      (.error (.invalidArgument "WAL record payload exceeds 64 MiB"), d, db)
    else
      let d := d.mapWal db.walNumber fun f =>
        { f with bytes := f.bytes ++ (walRecord payload).take written }
      if written < (walRecord payload).length then
        (.error writeError, d, { db with walError := some writeError })
      else (.ok (), d, db)

/-- `WalWriter::sync` -/
def walSync (synced : Bool) (d : Disk) (db : DB) : Except Status Unit × Disk × DB :=
  match db.walError with
  | some e => (.error e, d, db)
  | none =>
    if synced then
      (.ok (), d.mapWal db.walNumber fun f => { f with synced := f.bytes.length }, db)
    else (.error syncError, d, { db with walError := some syncError })

/-- `write` after room was made: log, sync if asked to, then apply. -/
def logAndApply (durability : Durability) (batch : WriteBatch) (o : WriteOutcome) (d : Disk)
    (db : DB) : Except Status Unit × Disk × DB :=
  match encode batch (db.lastSequence + 1) with
  | .error e => (.error e, d, db)
  | .ok payload =>
    match walAppend payload o.written d db with
    | (.error e, d, db) => (.error e, d, db)
    | (.ok (), d, db) =>
      match if durability = .sync then walSync o.synced d db else (.ok (), d, db) with
      | (.error e, d, db) => (.error e, d, db)
      | (.ok (), d, db) =>
        (.ok (), d,
          { db with
            memtable := applyBatch db.memtable (db.lastSequence + 1) batch
            lastSequence := db.lastSequence + batch.length })

/-- `DBImpl::write`; `none` while it waits for the background thread. -/
def write (cfg : Config) (durability : Durability) (batch : WriteBatch) (o : WriteOutcome)
    (d : Disk) (db : DB) : Option (Except Status Unit × Disk × DB) :=
  if batch.isEmpty then some (.ok (), d, db)
  else
    match makeRoomForWrite cfg d db with
    | none => none
    | some (.error e) => some (.error e, d, db)
    | some (.ok (d, db)) => some (logAndApply durability batch o d db)

/-! ## The background thread -/

/-- The thread stores the error and ends; unpublished tables are removed. -/
def failJob (e : Status) (unpublished : List Table) (d : Disk) (db : DB) : Disk × DB :=
  (unpublished.foldl (fun d t => d.removeTable t.info.number) d,
    { db with backgroundError := some e, job := .idle })

/-- `writeManifest`: the state is encoded, then the new file replaces the old. -/
def writeManifest (m : Manifest) (d : Disk) : Except Status Disk :=
  match encodeManifest m with
  | .error e => .error e
  | .ok _ => .ok { d with manifest := some m }

/-- The manifest and version that a flush publishes. -/
def flushCandidate (db : DB) (i : ImmutableMemTable) (t : Table) : Manifest × Version :=
  ({ flushedSequence := i.lastSequence
     oldestWalNumber := db.walNumber
     levels := Function.update db.manifest.levels 0 (t.info :: db.manifest.levels 0) },
    db.version.withLevel0Table t)

/-- The manifest and version that a compaction publishes. -/
def compactionCandidate (db : DB) (p : CompactionPlan) (done : List Table) : Manifest × Version :=
  let erased := Function.update db.manifest.levels p.sourceLevel
    (p.inputs.erase (db.manifest.levels p.sourceLevel))
  ({ db.manifest with
     levels := Function.update erased p.outputLevel
       (p.overlaps.replace (db.manifest.levels p.outputLevel) (done.map Table.info)) },
    p.inputVersion.withCompaction p.sourceLevel p.outputLevel p.inputs p.overlaps done)

/-- `flushImmutableMemTable` opens its temporary file. -/
def flushOpen (d : Disk) (db : DB) : Option (Disk × DB) :=
  match db.job, db.backgroundError, db.immutable with
  | .idle, none, some i =>
    if i.tableNumber ∈ d.temporaries then
      some (failJob (.alreadyExists "SSTable temporary file") [] d db)
    else
      some ({ d with temporaries := i.tableNumber :: d.temporaries },
        { db with job := .flushBuilding })
  | _, _, _ => none

/-- The finished table gets its final name. -/
def flushRename (cfg : Config) (d : Disk) (db : DB) : Option (Disk × DB) :=
  match db.job, db.immutable with
  | .flushBuilding, some i => do
    let t ← buildTable cfg.sizing i.tableNumber i.memtable.run.entries
    pure (d.renameTable i.tableNumber t.file, { db with job := .flushBuilt t })
  | _, _ => none

/-- The manifest is replaced and the new state published. -/
def flushCommit (d : Disk) (db : DB) : Option (Disk × DB) :=
  match db.job, db.immutable with
  | .flushBuilt t, some i =>
    let c := flushCandidate db i t
    match writeManifest c.1 d with
    | .error e => some (failJob e [t] d db)
    | .ok d =>
      some (d, { db with
        manifest := c.1
        version := c.2
        immutable := none
        job := .removingWals db.walNumber })
  | _, _ => none

/-- `compact` picks its plan and merges the inputs. -/
def compactPick (cfg : Config) (d : Disk) (db : DB) : Option (Disk × DB) :=
  match db.job, db.backgroundError with
  | .idle, none => do
    let p ← pickCompaction db.version db.oldestSnapshot cfg.compaction
    match buildCompactionTables cfg.sizing cfg.compaction p with
    | .error e => pure (failJob e [] d db)
    | .ok chunks => pure (d, { db with job := .compacting p chunks none [] })
  | _, _ => none

/-- `CompactionOutputWriter::openOutput` -/
def outputOpen (d : Disk) (db : DB) : Option (Disk × DB) :=
  match db.job with
  | .compacting p (c :: todo) none done =>
    if db.nextFileNumber = maxFileNumber then
      some (failJob (.ioError "database file number space is exhausted") done d db)
    else
      let number := db.nextFileNumber
      let db := { db with nextFileNumber := db.nextFileNumber + 1 }
      if number = 0 then
        some (failJob (.invalidArgument "compaction file number must be positive") done d db)
      else if (Assoc.get number d.tables).isSome then
        some (failJob (.alreadyExists "compaction output already exists") done d db)
      else if number ∈ d.temporaries then
        some (failJob (.alreadyExists "SSTable temporary file") done d db)
      else
        some ({ d with temporaries := number :: d.temporaries },
          { db with job := .compacting p (c :: todo) (some number) done })
  | _ => none

/-- `CompactionOutputWriter::finishOutput` -/
def outputFinish (cfg : Config) (d : Disk) (db : DB) : Option (Disk × DB) :=
  match db.job with
  | .compacting p (c :: todo) (some number) done => do
    let t ← buildTable cfg.sizing number c
    pure (d.renameTable number t.file,
      { db with job := .compacting p todo none (done ++ [t]) })
  | _ => none

/-- `compact` commits and publishes. -/
def compactCommit (d : Disk) (db : DB) : Option (Disk × DB) :=
  match db.job with
  | .compacting p [] none done =>
    let c := compactionCandidate db p done
    match writeManifest c.1 d with
    | .error e => some (failJob e done d db)
    | .ok d => some (d, { db with manifest := c.1, version := c.2, job := .removingTables })
  | _ => none

/-- One file that `removeObsoleteWalFilesBestEffort` removes. -/
def removeWal (n : ℕ) (d : Disk) (db : DB) : Option (Disk × DB) :=
  match db.job with
  | .removingWals live => if n < live then some (d.removeWal n, db) else none
  | .openingWals =>
    if n < db.manifest.oldestWalNumber then some (d.removeWal n, db) else none
  | _ => none

/-- One file that `removeObsoleteSSTableFilesBestEffort` removes. -/
def removeTable (n : ℕ) (temporary : Bool) (d : Disk) (db : DB) : Option (Disk × DB) :=
  match db.job with
  | .removingTables | .openingTables =>
    if temporary then some (d.removeTemporary n, db)
    else if n ∈ db.manifest.live then none
    else some (d.removeTable n, db)
  | _ => none

/-- The removal is over, also when some files could not be removed. -/
def finishRemoval (d : Disk) (db : DB) : Option (Disk × DB) :=
  match db.job with
  | .removingWals _ | .removingTables | .openingTables => some (d, { db with job := .idle })
  | .openingWals => some (d, { db with job := .openingTables })
  | _ => none

/-! ## Opening -/

/-- `openTable`: the file is there and has the recorded size. -/
def openTable (d : Disk) (m : TableMeta) : Except Status Table :=
  match Assoc.get m.number d.tables with
  | none => .error (.corruption "manifest references a missing SSTable")
  | some f =>
    if f.size ≠ m.fileSize then .error (.corruption "SSTable size does not match manifest")
    else .ok ⟨m, f.run⟩

def openLevel (d : Disk) : List TableMeta → Except Status (List Table)
  | [] => .ok []
  | m :: ms => do
    let t ← openTable d m
    let ts ← openLevel d ms
    pure (t :: ts)

/-- `Version::open` -/
def openVersion (d : Disk) (m : Manifest) : Except Status Version := do
  let l0 ← openLevel d (m.levels 0)
  let l1 ← openLevel d (m.levels 1)
  let l2 ← openLevel d (m.levels 2)
  pure ⟨![l0, l1, l2]⟩

/-- What recovery has read back. -/
structure Recovered where
  memtable : MemTable
  lastSequence : ℕ
deriving DecidableEq

/-- The replay loop of `recoverWalFile`; it returns the number of valid bytes. -/
def replay : ℕ → ℕ → Bytes → Recovered → Except Status (Recovered × ℕ)
  | 0, validBytes, _, r => .ok (r, validBytes)
  | fuel + 1, validBytes, input, r =>
    match readNext validBytes input with
    | .error e => .error e
    | .ok none => .ok (r, validBytes)
    | .ok (some (payload, rest)) =>
      match decode payload with
      | .error e => .error e
      | .ok (firstSequence, batch) =>
        if firstSequence ≠ r.lastSequence + 1 then
          .error (.corruption "write batch sequence is not contiguous")
        else
          replay fuel (validBytes + (8 + payload.length)) rest
            ⟨applyBatch r.memtable firstSequence batch, r.lastSequence + batch.length⟩

/-- `recoverWalFile`: replay, then cut an incomplete record off the end. -/
def recoverWalFile (d : Disk) (n : ℕ) (r : Recovered) : Except Status (Disk × Recovered) :=
  match Assoc.get n d.wals with
  | none => .error (.ioError "open WAL")
  | some f =>
    match replay (f.bytes.length + 1) 0 f.bytes r with
    | .error e => .error e
    | .ok (r, validBytes) =>
      .ok (d.mapWal n fun f => ⟨f.bytes.take validBytes, min f.synced validBytes⟩, r)

/-- The loop of `recoverWalFiles`: the directory is changed file by file, also
when a later file stops the recovery. -/
def recoverWals (d : Disk) : List ℕ → Recovered → Disk × Except Status Recovered
  | [], r => (d, .ok r)
  | n :: ns, r =>
    match recoverWalFile d n r with
    | .error e => (d, .error e)
    | .ok (d, r) => recoverWals d ns r

/-- The logs recovery replays: from the manifest's oldest on. -/
def liveWals (d : Disk) (m : Manifest) : Except Status (List ℕ) :=
  if m.oldestWalNumber = 0 then .error (.corruption "manifest has no live WAL number")
  else
    let numbers := d.walNumbers
    let first := Search.lowerBound (fun n => n < m.oldestWalNumber) numbers
    if numbers[first]? = some m.oldestWalNumber then .ok (numbers.drop first)
    else .error (.corruption "manifest references a missing WAL")

/-- `recoverDatabase` up to the removal of obsolete files. -/
def recoverDatabase (d : Disk) (m : Manifest) : Disk × Except Status DB :=
  match readManifest m with
  | .error e => (d, .error e)
  | .ok m =>
    match openVersion d m with
    | .error e => (d, .error e)
    | .ok v =>
      match liveWals d m with
      | .error e => (d, .error e)
      | .ok ns =>
        match recoverWals d ns ⟨.empty, m.flushedSequence⟩ with
        | (d', .error e) => (d', .error e)
        | (d', .ok r) =>
          (d', .ok {
            walNumber := ns.getLastD 0
            nextFileNumber := d.maximumNumber + 1
            manifest := m
            version := v
            lastSequence := r.lastSequence
            memtable := r.memtable
            job := .openingWals })

/-- `initializeNewDatabase`, in a directory without numbered files. -/
def initializeNewDatabase (d : Disk) : Disk × Except Status DB :=
  if d.wals ≠ [] ∨ d.tables ≠ [] then
    (d, .error (.corruption "database files exist without a manifest"))
  else
    let number := d.maximumNumber + 1
    let d := d.openWal number
    let m : Manifest := ⟨0, number, fun _ => []⟩
    match writeManifest m d with
    | .error e => (d, .error e)
    | .ok d =>
      (d, .ok {
        walNumber := number
        nextFileNumber := number + 1
        manifest := m
        version := .empty
        lastSequence := 0
        memtable := .empty
        job := .openingTables })

/-- `DBImpl::open` -/
def openDatabase (d : Disk) : Disk × Except Status DB :=
  if d.maximumNumber = maxFileNumber then
    (d, .error (.corruption "database file number space is exhausted"))
  else
    match d.manifest with
    | some m => recoverDatabase d m
    | none => initializeNewDatabase d

/-- The directory when the process dies in recovery, after the first `k` logs. -/
def interruptOpen (d : Disk) (k : ℕ) : Disk :=
  match d.manifest with
  | none => d
  | some m =>
    match liveWals d m with
    | .error _ => d
    | .ok ns => (recoverWals d (ns.take k) ⟨.empty, m.flushedSequence⟩).1

/-! ## The system -/

/-- The directory and, while the database is open, the process. `acknowledged`
records the batches whose write succeeded or which a recovery brought back,
`pending` the batch that was given to the log without an answer of success, and
`durable` how many of the batches were there when a synced write last succeeded. -/
structure State where
  disk : Disk
  db : Option DB
  acknowledged : List WriteBatch := []
  pending : Option WriteBatch := none
  durable : ℕ := 0

inductive Action
  | write (durability : Durability) (batch : WriteBatch) (outcome : WriteOutcome)
  | newSnapshot
  | releaseSnapshot (sequence : ℕ)
  | flushOpen
  | flushRename
  | flushCommit
  | compactPick
  | outputOpen
  | outputFinish
  | compactCommit
  | removeWal (number : ℕ)
  | removeTable (number : ℕ) (temporary : Bool)
  | finishRemoval
  | close
  | crash
  | crashInWrite (batch : WriteBatch) (written : ℕ)
  | open
  | crashInOpen (files : ℕ)
deriving DecidableEq

/-- Whether `open` has returned the handle. -/
def DB.isOpen (db : DB) : Bool := db.job ≠ .openingWals && db.job ≠ .openingTables

/-- A file operation of the background thread. -/
def State.background (st : State) (f : Disk → DB → Option (Disk × DB)) : Option State :=
  match st.db with
  | none => none
  | some db => (f st.disk db).map fun r => { st with disk := r.1, db := some r.2 }

/-- Whether the batch got as far as the log: only then can it outlive a failure. -/
def reachesLog (cfg : Config) (batch : WriteBatch) (d : Disk) (db : DB) : Bool :=
  match makeRoomForWrite cfg d db with
  | some (.ok (_, db)) =>
    (encode batch (db.lastSequence + 1)).isOk && db.walError.isNone
  | _ => false

def step (cfg : Config) (st : State) : Action → Option State
  | .write durability batch o =>
    match st.db with
    | none => none
    | some db =>
      if db.isOpen then
        (write cfg durability batch o st.disk db).map fun r =>
          { disk := r.2.1
            db := some r.2.2
            acknowledged := if r.1.isOk && !batch.isEmpty then st.acknowledged ++ [batch]
              else st.acknowledged
            pending := if r.1.isOk then st.pending
              else if reachesLog cfg batch st.disk db then some batch else st.pending
            durable := if r.1.isOk && !batch.isEmpty && durability = .sync then
              st.acknowledged.length + 1 else st.durable }
      else none
  | .newSnapshot =>
    match st.db with
    | none => none
    | some db =>
      if db.isOpen then
        some { st with db := some { db with snapshots := db.lastSequence :: db.snapshots } }
      else none
  | .releaseSnapshot s =>
    match st.db with
    | none => none
    | some db =>
      if s ∈ db.snapshots then
        some { st with db := some { db with snapshots := db.snapshots.erase s } }
      else none
  | .flushOpen => st.background flushOpen
  | .flushRename => st.background (flushRename cfg)
  | .flushCommit => st.background flushCommit
  | .compactPick => st.background (compactPick cfg)
  | .outputOpen => st.background outputOpen
  | .outputFinish => st.background (outputFinish cfg)
  | .compactCommit => st.background compactCommit
  | .removeWal n => st.background (removeWal n)
  | .removeTable n temporary => st.background (removeTable n temporary)
  | .finishRemoval => st.background finishRemoval
  | .close =>
    match st.db with
    | none => none
    | some db =>
      -- the destructor lets the background thread finish a pending flush
      if db.job = .idle ∧ (db.immutable = none ∨ db.backgroundError ≠ none) then
        some { st with db := none }
      else none
  | .crash =>
    match st.db with
    | none => none
    | some _ => some { st with db := none }
  | .crashInWrite batch written =>
    match st.db with
    | none => none
    | some db =>
      if db.isOpen && !batch.isEmpty then
        match makeRoomForWrite cfg st.disk db with
        | none => none
        | some (.error _) => some { st with db := none }
        | some (.ok (d, db)) =>
          match encode batch (db.lastSequence + 1) with
          | .error _ => some { st with disk := d, db := none }
          | .ok payload =>
            some { st with
              disk := (walAppend payload written d db).2.1
              db := none
              pending := if db.walError.isNone then some batch else st.pending }
      else none
  | .open =>
    match st.db with
    | some _ => none
    | none =>
      match openDatabase st.disk with
      | (d, .error _) => some { st with disk := d }
      | (d, .ok db) =>
        -- the log decides whether the pending batch counts from now on
        some { st with
          disk := d
          db := some db
          acknowledged :=
            if db.lastSequence = operationCount st.acknowledged then st.acknowledged
            else st.acknowledged ++ st.pending.toList
          pending := none }
  | .crashInOpen files =>
    match st.db with
    | some _ => none
    | none => some { st with disk := interruptOpen st.disk files }

/-- The directory and process after `initializeNewDatabase`. -/
def freshState : State :=
  let m : Manifest := ⟨0, 1, fun _ => []⟩
  { disk := { wals := [(1, {})], manifest := some m }
    db := some { walNumber := 1, nextFileNumber := 2, manifest := m, version := .empty,
                 lastSequence := 0, memtable := .empty } }

/-- The first open of an empty directory, up to the return of the handle. -/
example (cfg : Config) :
    (TransitionSystem.exec (step cfg) ⟨{}, none, [], none, 0⟩ [.open, .finishRemoval]).map
      (fun st => (st.disk, st.db)) = some (freshState.disk, freshState.db) := rfl

/-- The database system, from a first open that has completed. -/
def system (cfg : Config) : TransitionSystem State Action where
  init st := st = freshState
  step st a st' := step cfg st a = some st'

end Mizu.Lsm
