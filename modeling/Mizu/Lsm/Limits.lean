import Mizu.Lsm.Structure

/-!
# The size limits of a flush

A write is checked against the size of its log record, a flush against the size of
the manifest, where the first and the last key of every table stand in full. The
first limit does not imply the second. Where the manifest fits, the background
thread never fails.
-/

namespace Mizu.Lsm

/-! ## Manifests within the limit -/

section Fits

variable {m : Manifest} {ts : List TableMeta} {size : ℕ}

theorem appendTableSizes_fits (h : size + (ts.map TableMeta.encodedSize).sum ≤
    maxManifestSize - 4) :
    appendTableSizes ts size = .ok (size + (ts.map TableMeta.encodedSize).sum) := by
  induction ts generalizing size with
  | nil => rfl
  | cons t ts ih =>
    rw [List.map_cons, List.sum_cons] at h ⊢
    rw [appendTableSizes, if_neg (by omega), ih (by omega)]
    congr 1
    omega

theorem appendTables_fits (h : size + levelSize ts ≤ maxManifestSize - 4) :
    appendTables ts size = .ok (size + levelSize ts) := by
  unfold levelSize at h ⊢
  rw [appendTables, appendTableSizes_fits (by omega)]
  congr 1
  omega

theorem length_le_levelSize (ts : List TableMeta) : ts.length ≤ levelSize ts ∧
    ∀ t ∈ ts, t.encodedSize ≤ levelSize ts := by
  unfold levelSize
  induction ts with
  | nil => simp
  | cons t ts ih =>
    simp only [List.map_cons, List.sum_cons, List.length_cons]
    have hpos : 1 ≤ t.encodedSize := by
      unfold TableMeta.encodedSize
      omega
    refine ⟨by omega, ?_⟩
    intro u hu
    rcases List.mem_cons.mp hu with rfl | hu
    · omega
    · have := ih.2 u hu
      omega

theorem levelSize_le (m : Manifest) (l : Fin 3) : levelSize (m.levels l) + 4 ≤ m.encodedSize := by
  unfold Manifest.encodedSize
  fin_cases l <;> simp only [Fin.isValue, Fin.zero_eta, Fin.mk_one, Fin.reduceFinMk] <;> omega

/-- The limits of `validateState` are far above the limit of the file. -/
theorem withinLimits_of_fits (h : m.encodedSize ≤ maxManifestSize) : m.WithinLimits := by
  unfold maxManifestSize at h
  refine ⟨?_, ?_⟩
  · intro l
    have h1 := (length_le_levelSize (m.levels l)).1
    have h2 := levelSize_le m l
    unfold maxUint32
    omega
  · intro l t ht
    have h1 := (length_le_levelSize (m.levels l)).2 t ht
    have h2 := levelSize_le m l
    unfold TableMeta.encodedSize at h1
    unfold maxUint32
    omega

theorem encodeManifest_fits (hv : ∃ ns, validateState m = .ok ns)
    (h : m.encodedSize ≤ maxManifestSize) : encodeManifest m = .ok m.encodedSize := by
  obtain ⟨ns, hv⟩ := hv
  unfold Manifest.encodedSize at h ⊢
  unfold encodeManifest
  rw [hv]
  rw [appendTables_fits (by omega)]
  simp only [bind, Except.bind]
  rw [appendTables_fits (by omega)]
  simp only
  rw [appendTables_fits (by omega)]
  rfl

end Fits

/-! ## The background thread never fails -/

/-- The manifest that the background thread is about to commit. -/
def DB.candidate (db : DB) : Option Manifest :=
  match db.job, db.immutable with
  | .flushBuilt t, some i => some (flushCandidate db i t).1
  | .compacting p [] none done, _ => some (compactionCandidate db p done).1
  | _, _ => none

/-- The entries of the tables that the background thread is about to write. -/
def DB.tablesToBuild (db : DB) : List (List Entry) :=
  match db.job, db.immutable with
  | .flushBuilding, some i => [i.memtable.run.entries]
  | .compacting _ todo _ _, _ => todo
  | _, _ => []

/-- Before a step of the background thread: a manifest about to be committed has at
most 64 MiB, the restart offsets of a table about to be written fit in 32 bits, and file
numbers are left. -/
def Flushable (cfg : Config) (st : State) : Action → Prop
  | .flushOpen | .flushRename | .flushCommit | .compactPick | .outputOpen | .outputFinish
  | .compactCommit =>
    ∀ db ∈ st.db, (∀ m ∈ db.candidate, m.encodedSize ≤ maxManifestSize) ∧
      (∀ es ∈ db.tablesToBuild, cfg.sizing.lastRestart es < 2 ^ 32) ∧
      db.nextFileNumber < maxFileNumber
  | _ => True

instance (cfg : Config) (st : State) (a : Action) : Decidable (Flushable cfg st a) := by
  unfold Flushable
  split <;> infer_instance

namespace DB.Running

variable {cfg : Config} {d d' : Disk} {db db' : DB} {bs extra : List WriteBatch}

/-- What is about to be committed is accepted. -/
theorem encode_candidate (h : db.Running cfg d bs extra) {m : Manifest} (hc : db.candidate = some m)
    (hfit : m.encodedSize ≤ maxManifestSize) : encodeManifest m = .ok m.encodedSize := by
  apply encodeManifest_fits _ hfit
  have hw := withinLimits_of_fits hfit
  unfold DB.candidate at hc
  split at hc
  · rename_i t i hj hi
    cases hc
    exact h.validate_flush hi hj hw
  · rename_i p done _ hj
    cases hc
    exact h.validate_compaction hj hw
  · simp at hc

variable {i : ImmutableMemTable}

/-- The builder accepts every entry of a rotated memtable. -/
theorem build_immutable (h : db.Running cfg d bs extra) (hi : db.immutable = some i)
    (hfit : cfg.sizing.lastRestart i.memtable.run.entries < 2 ^ 32) :
    ∃ t, buildTable cfg.sizing i.tableNumber i.memtable.run.entries = some t := by
  refine buildTable_isSome i.memtable.run.ascending ?_ hfit
  obtain ⟨hlt, hle, hholds⟩ := h.sound.immutable i hi
  have hpos : 0 < ((bs.flatten.take i.lastSequence).drop db.manifest.flushedSequence).length := by
    rw [List.length_drop, List.length_take]
    omega
  obtain ⟨op, ops, hops⟩ := List.exists_cons_of_length_pos hpos
  have hmem : op.entry (db.manifest.flushedSequence + 1) ∈ i.memtable.run.entries := by
    rw [hholds.mem, hops]
    exact List.mem_cons_self
  exact List.ne_nil_of_mem hmem

theorem healthy_flushOpen (h : db.Running cfg d bs extra) (hb : db.backgroundError = none)
    (hs : flushOpen d db = some (d', db')) : db'.backgroundError = none := by
  unfold flushOpen at hs
  split at hs
  · rename_i i hj _ hi
    have hfresh := h.filed.fresh i hi hb (by simp [hj])
    rw [if_neg hfresh] at hs
    cases hs
    exact hb
  · simp at hs

theorem healthy_flushRename (hb : db.backgroundError = none)
    (hs : flushRename cfg d db = some (d', db')) : db'.backgroundError = none := by
  unfold flushRename at hs
  split at hs
  · obtain ⟨t, _, heq⟩ := Option.bind_eq_some_iff.mp hs
    cases heq
    exact hb
  · simp at hs

/-- A flush whose manifest fits is published. -/
theorem flushCommit_fits (h : db.Running cfg d bs extra) {t : Table} (hj : db.job = .flushBuilt t)
    (hi : db.immutable = some i) (hfit : (flushCandidate db i t).1.encodedSize ≤ maxManifestSize) :
    flushCommit d db = some ({ d with manifest := some (flushCandidate db i t).1 },
      { db with
        manifest := (flushCandidate db i t).1
        version := (flushCandidate db i t).2
        immutable := none
        job := .removingWals db.walNumber }) := by
  have hc : db.candidate = some (flushCandidate db i t).1 := by simp [DB.candidate, hj, hi]
  unfold flushCommit
  simp only [hj, hi, writeManifest, h.encode_candidate hc hfit]

section

variable (h : db.Running cfg d bs extra) (hb : db.backgroundError = none)

include h hb

theorem healthy_flushCommit (hfit : ∀ m ∈ db.candidate, m.encodedSize ≤ maxManifestSize)
    (hs : flushCommit d db = some (d', db')) : db'.backgroundError = none := by
  cases hi : db.immutable with
  | none => simp [flushCommit, hi] at hs
  | some i =>
    cases hj : db.job with
    | flushBuilt t =>
      rw [h.flushCommit_fits hj hi (hfit _ (by simp [DB.candidate, hj, hi]))] at hs
      cases hs
      exact hb
    | _ => simp [flushCommit, hj] at hs

theorem healthy_compactPick
    (ho : 0 < cfg.compaction.outputBytes) (hs : compactPick cfg d db = some (d', db')) :
    db'.backgroundError = none := by
  unfold compactPick at hs
  split at hs
  · obtain ⟨p, hp, heq⟩ := Option.bind_eq_some_iff.mp hs
    obtain ⟨chunks, hchunks, _⟩ := h.sound.pick ho cfg.sizing hp
    rw [hchunks] at heq
    cases heq
    exact hb
  · simp at hs

theorem healthy_outputOpen
    (hnext : db.nextFileNumber < maxFileNumber) (hs : outputOpen d db = some (d', db')) :
    db'.backgroundError = none := by
  -- the next number is above every number in the directory
  have hnew : db.nextFileNumber ∉ d.numbers := fun hmem => (h.filed.numbers _ hmem).false
  rw [Disk.mem_numbers, not_or, not_or] at hnew
  have htable : (Assoc.get db.nextFileNumber d.tables).isSome = false := by
    rw [Bool.eq_false_iff, Ne, Assoc.get_isSome_iff]
    exact hnew.2.1
  unfold outputOpen at hs
  split at hs
  · rw [if_neg hnext.ne, if_neg h.filed.next.1.ne', htable] at hs
    simp only [Bool.false_eq_true, if_false, if_neg hnew.2.2] at hs
    cases hs
    exact hb
  · simp at hs

end

theorem healthy_outputFinish (hb : db.backgroundError = none)
    (hs : outputFinish cfg d db = some (d', db')) : db'.backgroundError = none := by
  unfold outputFinish at hs
  split at hs
  · obtain ⟨t, _, heq⟩ := Option.bind_eq_some_iff.mp hs
    cases heq
    exact hb
  · simp at hs

theorem healthy_compactCommit (h : db.Running cfg d bs extra) (hb : db.backgroundError = none)
    (hfit : ∀ m ∈ db.candidate, m.encodedSize ≤ maxManifestSize)
    (hs : compactCommit d db = some (d', db')) : db'.backgroundError = none := by
  unfold compactCommit at hs
  split at hs
  · rename_i p done hj
    have hc : db.candidate = some (compactionCandidate db p done).1 := by simp [DB.candidate, hj]
    simp only [writeManifest, h.encode_candidate hc (hfit _ hc)] at hs
    cases hs
    exact hb
  · simp at hs

end DB.Running

variable {n : ℕ}

section Removal

variable {d d' : Disk} {db db' : DB}

theorem backgroundError_of_removeWal (hs : removeWal n d db = some (d', db')) :
    db'.backgroundError = db.backgroundError := by
  unfold removeWal at hs
  split at hs
  · split at hs
    · cases hs
      rfl
    · simp at hs
  · split at hs
    · cases hs
      rfl
    · simp at hs
  · simp at hs

theorem backgroundError_of_removeTable {temporary : Bool}
    (hs : removeTable n temporary d db = some (d', db')) :
    db'.backgroundError = db.backgroundError := by
  have hsame : ∀ d₁, some (d₁, db) = some (d', db') → db'.backgroundError = db.backgroundError := by
    intro d₁ h
    obtain ⟨_, rfl⟩ := Prod.mk.inj (Option.some.inj h)
    rfl
  unfold removeTable at hs
  split at hs
  · split_ifs at hs
    · exact hsame _ hs
    · exact hsame _ hs
  · split_ifs at hs
    · exact hsame _ hs
    · exact hsame _ hs
  · simp at hs

theorem backgroundError_of_finishRemoval (hs : finishRemoval d db = some (d', db')) :
    db'.backgroundError = db.backgroundError := by
  unfold finishRemoval at hs
  split at hs
  all_goals first
    | cases hs
      rfl
    | simp at hs

theorem backgroundError_of_recover {m : Manifest}
    (hs : recoverDatabase d m = (d', .ok db)) : db.backgroundError = none := by
  unfold recoverDatabase at hs
  split at hs
  · simp at hs
  · split at hs
    · simp at hs
    · split at hs
      · simp at hs
      · split at hs
        · simp at hs
        · obtain ⟨_, heq⟩ := Prod.mk.inj hs
          cases heq
          rfl

theorem backgroundError_of_open (hs : openDatabase d = (d', .ok db)) :
    db.backgroundError = none := by
  unfold openDatabase at hs
  split at hs
  · simp at hs
  · split at hs
    · exact backgroundError_of_recover hs
    · unfold initializeNewDatabase at hs
      split at hs
      · simp at hs
      · simp only at hs
        split at hs
        · simp at hs
        · obtain ⟨_, heq⟩ := Prod.mk.inj hs
          cases heq
          rfl

end Removal

namespace State

variable {cfg : Config} {st st' : State}

/-- The background thread has not failed. -/
def Healthy (st : State) : Prop := ∀ db, st.db = some db → db.backgroundError = none

theorem Healthy.step {a : Action} (h : st.Healthy) (hI : st.Inv cfg)
    (ho : 0 < cfg.compaction.outputBytes) (hg : Flushable cfg st a)
    (hs : Lsm.step cfg st a = some st') : st'.Healthy := by
  cases turn_of_step hs with
  | @write durability batch o db db' d' r hd hopen hw =>
    rintro _ ⟨⟩
    rcases write_cases hw with ⟨rfl, rfl, _⟩ | ⟨_, d₁, db₁, hroom, hlog⟩
    · exact h db' hd
    · have hb : db₁.backgroundError = none := by
        cases (room_of_makeRoom hroom).2 <;> exact h db hd
      have hl := (logging_of_logAndApply hlog).1
      generalize r.isOk = ok at hl
      cases hl <;> exact hb
  | @newSnapshot db hd =>
    rintro _ ⟨⟩
    exact h db hd
  | @releaseSnapshot s db hd =>
    rintro _ ⟨⟩
    exact h db hd
  | @background _ f db db' d' hf hd hr =>
    rintro _ ⟨⟩
    have hb := h db hd
    obtain ⟨extra, _, hdb⟩ := hI.running hd
    cases a <;> simp only [Action.operation, Option.some.injEq, reduceCtorEq] at hf <;> subst hf
    · exact hdb.healthy_flushOpen hb hr
    · exact DB.Running.healthy_flushRename hb hr
    · exact hdb.healthy_flushCommit hb (hg db hd).1 hr
    · exact hdb.healthy_compactPick hb ho hr
    · exact hdb.healthy_outputOpen hb (hg db hd).2.2 hr
    · exact DB.Running.healthy_outputFinish hb hr
    · exact hdb.healthy_compactCommit hb (hg db hd).1 hr
    · exact (backgroundError_of_removeWal hr).trans hb
    · exact (backgroundError_of_removeTable hr).trans hb
    · exact (backgroundError_of_finishRemoval hr).trans hb
  | opened hd hopen =>
    rintro _ ⟨⟩
    exact backgroundError_of_open hopen
  | _ => simp [Healthy]

end State

theorem healthy_of_reach {cfg : Config} (ho : 0 < cfg.compaction.outputBytes) {st : State}
    (h : (system cfg).Reach (Flushable cfg) st) : st.Healthy := by
  have hboth : st.Inv cfg ∧ st.Healthy := by
    apply h.induct
    · rintro st rfl
      refine ⟨State.inv_fresh cfg, ?_⟩
      rintro _ ⟨⟩
      rfl
    · intro st a st' _ hI hg hs
      exact ⟨hI.1.step hs, hI.2.step hI.1 ho hg hs⟩
  exact hboth.2

/-- In a run that stays within the limits of the manifest and of the blocks every rotated
memtable can be flushed, and the background thread never fails. -/
theorem flush_of_reach {cfg : Config} (ho : 0 < cfg.compaction.outputBytes) {st : State} {db : DB}
    (h : (system cfg).Reach (Flushable cfg) st) (hd : st.db = some db) :
    db.backgroundError = none ∧ ∀ i, db.immutable = some i →
      (cfg.sizing.lastRestart i.memtable.run.entries < 2 ^ 32 →
        ∃ t, buildTable cfg.sizing i.tableNumber i.memtable.run.entries = some t) ∧
      (db.job = .idle → ∃ d', flushOpen st.disk db = some (d', { db with job := .flushBuilding })) ∧
      ∀ t, db.job = .flushBuilt t → (flushCandidate db i t).1.encodedSize ≤ maxManifestSize →
        (∃ n, encodeManifest (flushCandidate db i t).1 = .ok n) ∧
        ∃ d' db', flushCommit st.disk db = some (d', db') ∧ db'.immutable = none ∧
          db'.manifest = (flushCandidate db i t).1 ∧ db'.backgroundError = none := by
  have hb := healthy_of_reach ho h db hd
  obtain ⟨extra, _, hrun⟩ := running_of_reach h hd
  refine ⟨hb, fun i hi => ⟨hrun.build_immutable hi, ?_, ?_⟩⟩
  · intro hj
    have hfresh := hrun.filed.fresh i hi hb (by simp [hj])
    refine ⟨{ st.disk with temporaries := i.tableNumber :: st.disk.temporaries }, ?_⟩
    simp only [flushOpen, hj, hb, hi, if_neg hfresh]
  · intro t hj hfit
    have hc : db.candidate = some (flushCandidate db i t).1 := by simp [DB.candidate, hj, hi]
    exact ⟨⟨_, hrun.encode_candidate hc hfit⟩, _, _, hrun.flushCommit_fits hj hi hfit, rfl, rfl, hb⟩

/-- A second flush about to be committed. -/
theorem flush_after_flush : ∃ st db i t, (system tinyConfig).Reach (Flushable tinyConfig) st ∧
    st.db = some db ∧
    db.immutable = some i ∧ db.job = .flushBuilt t ∧ (db.version.level 0).length = 1 ∧
      ∃ d' db', flushCommit st.disk db = some (d', db') ∧ db'.immutable = none := by
  obtain ⟨st, hr, db, hd, i, hi, hlevel, t, _, hj, hfit⟩ :=
    exists_run tinyConfig (Flushable tinyConfig)
    (fun st => ∃ db ∈ st.db, ∃ i ∈ db.immutable, (db.version.level 0).length = 1 ∧
      ∃ t ∈ db.job.tables, db.job = .flushBuilt t ∧
        (flushCandidate db i t).1.encodedSize ≤ maxManifestSize)
    ([.put .async [1] [7], .put .sync [2] [8]] ++ Action.flush ++
      [.put .async [1] [9], .flushOpen, .flushRename]) (by decide +kernel)
  obtain ⟨_, hflush⟩ := flush_of_reach (by decide) hr hd
  obtain ⟨_, d', db', hc, hnone, _⟩ := (hflush i hi).2.2 t hj hfit
  exact ⟨st, db, i, t, hr, hd, hi, hj, hlevel, d', db', hc, hnone⟩

/-! ## A key that a write accepts and a flush does not -/

variable {K : Bytes}

theorem encode_put (hK : K.length + 21 ≤ maxPayloadSize) {s : ℕ} (hs : 0 < s)
    (hs' : s ≤ maxSequenceNumber) :
    encode [.put K []] s = .ok (encodeBatch [.put K []] s) := by
  have hrange : hasValidSequenceRange s 1 := by
    unfold hasValidSequenceRange
    have : 1 ≤ maxLength := by decide
    omega
  have hlen : ¬ maxLength < K.length := by
    have : maxPayloadSize ≤ maxLength := by decide
    omega
  have h1 : ¬ 5 > maxPayloadSize - 12 := by decide
  have h2 : ¬ K.length > maxPayloadSize - (12 + 5) := by omega
  have h3 : ¬ 4 > maxPayloadSize - (12 + 5 + K.length) := by omega
  simp [encode, hrange, checkOperation, Operation.key, addEncodedSize, hlen, h1, h2, h3,
    bind, Except.bind, pure, Except.pure]
  

theorem write_applies {cfg : Config} {d d₁ : Disk} {db db₁ : DB} {batch : WriteBatch}
    {payload : Bytes} {b : Bool} (hroom : makeRoomForWrite cfg d db = some (.ok (d₁, db₁)))
    (henc : encode batch (db₁.lastSequence + 1) = .ok payload) (herr : db₁.walError = none)
    (hn : (walRecord payload).length ≤ n) :
    write cfg .async batch ⟨n, b⟩ d db = some (.ok (),
      d₁.mapWal db₁.walNumber fun f => { f with bytes := f.bytes ++ walRecord payload },
      { db₁ with
        memtable := applyBatch db₁.memtable (db₁.lastSequence + 1) batch
        lastSequence := db₁.lastSequence + batch.length }) := by
  have hne : batch.isEmpty = false := by simpa using (encode_ok henc).2.1
  unfold write
  rw [hne, hroom]
  simp only [Bool.false_eq_true, if_false]
  unfold logAndApply
  rw [henc]
  simp only [walAppend_of_encode henc herr]
  rw [if_neg (by omega), List.take_of_length_le hn]
  simp

theorem length_record_put (K : Bytes) (s : ℕ) :
    (walRecord (encodeBatch [.put K []] s)).length = K.length + 29 := by
  simp [encodeBatch, encodeOperation]
  omega

theorem step_applies (cfg : Config) (st : State) {d₁ : Disk} {db db₁ : DB} {batch : WriteBatch}
    {payload : Bytes} {b : Bool} (hd : st.db = some db) (hopen : db.isOpen = true)
    (hroom : makeRoomForWrite cfg st.disk db = some (.ok (d₁, db₁)))
    (henc : encode batch (db₁.lastSequence + 1) = .ok payload) (herr : db₁.walError = none)
    (hn : (walRecord payload).length ≤ n) :
    step cfg st (.write .async batch ⟨n, b⟩) = some { st with
      disk := d₁.mapWal db₁.walNumber fun f => { f with bytes := f.bytes ++ walRecord payload }
      db := some { db₁ with
        memtable := applyBatch db₁.memtable (db₁.lastSequence + 1) batch
        lastSequence := db₁.lastSequence + batch.length }
      acknowledged := st.acknowledged ++ [batch] } := by
  have hne : batch.isEmpty = false := by simpa using (encode_ok henc).2.1
  simp [step, hd, hopen, write_applies hroom henc herr hn, hne, Except.isOk, Except.toBool]

/-- The memory after a first write of the key `K`. -/
def fullDb (K : Bytes) : DB where
  walNumber := 1
  nextFileNumber := 2
  manifest := ⟨0, 1, fun _ => []⟩
  version := .empty
  lastSequence := 1
  memtable := ⟨[⟨⟨K, 1, .value⟩, []⟩]⟩

/-- The memory after a second write, of the empty key. -/
def rotatedDb (K : Bytes) (job : Job) : DB where
  walNumber := 3
  nextFileNumber := 4
  manifest := ⟨0, 1, fun _ => []⟩
  version := .empty
  lastSequence := 2
  memtable := ⟨[⟨⟨[], 2, .value⟩, []⟩]⟩
  immutable := some ⟨⟨[⟨⟨K, 1, .value⟩, []⟩]⟩, 2, 1⟩
  job := job

/-- The table with the key `K` alone. -/
def wideTable (K : Bytes) : Table :=
  ⟨⟨2, 2, ⟨K, 1, .value⟩, ⟨K, 1, .value⟩⟩, ⟨[⟨⟨K, 1, .value⟩, []⟩], List.pairwise_singleton _ _⟩⟩

theorem step_wide_first (hK : K.length + 21 ≤ maxPayloadSize) :
    ∃ d, step tinyConfig freshState (.write .async [.put K []] ⟨maxPayloadSize + 8, true⟩) =
      some ⟨d, some (fullDb K), [[.put K []]], none, 0⟩ ∧ d.temporaries = [] := by
  have henc := encode_put hK (show 0 < 1 by decide) (by decide)
  have hlen : (walRecord (encodeBatch [.put K []] 1)).length ≤ maxPayloadSize + 8 := by
    rw [length_record_put]
    omega
  exact ⟨_, step_applies tinyConfig freshState rfl rfl rfl henc rfl hlen, rfl⟩

theorem step_wide_second (K : Bytes) {d : Disk} (hd : d.temporaries = []) (ack : List WriteBatch) :
    ∃ d', step tinyConfig ⟨d, some (fullDb K), ack, none, 0⟩ (.put .async [] []) =
      some ⟨d', some (rotatedDb K .idle), ack ++ [[.put [] []]], none, 0⟩ ∧
      d'.temporaries = [] := by
  have henc := @encode_put [] (by decide) 2 (by decide) (by decide)
  have hlen : (walRecord (encodeBatch [.put [] []] 2)).length ≤ 1000 := by
    decide
  refine ⟨_, step_applies tinyConfig ⟨d, some (fullDb K), ack, none, 0⟩ rfl rfl rfl henc rfl hlen,
    ?_⟩
  unfold Disk.openWal
  split
  · exact hd
  · exact hd

theorem step_wide_flush (K : Bytes) {d : Disk} (hd : d.temporaries = []) (ack : List WriteBatch) :
    ∃ d', TransitionSystem.exec (step tinyConfig) ⟨d, some (rotatedDb K .idle), ack, none, 0⟩
      [.flushOpen, .flushRename] =
        some ⟨d', some (rotatedDb K (.flushBuilt (wideTable K))), ack, none, 0⟩ := by
  have h : flushOpen d (rotatedDb K .idle) =
      some ({ d with temporaries := 2 :: d.temporaries }, rotatedDb K .flushBuilding) := by
    simp [flushOpen, rotatedDb, hd]
  have h' : ∀ d', flushRename tinyConfig d' (rotatedDb K .flushBuilding) =
      some (d'.renameTable 2 (wideTable K).file, rotatedDb K (.flushBuilt (wideTable K))) := by
    have hb : buildTable tinyConfig.sizing 2 [⟨⟨K, 1, .value⟩, []⟩] = some (wideTable K) := by
      unfold buildTable
      rfl
    have hrun : (MemTable.mk [⟨⟨K, 1, .value⟩, []⟩]).run.entries = [⟨⟨K, 1, .value⟩, []⟩] := by
      simp [MemTable.run, Run.insert, Run.empty, insertEntry]
    simp [flushRename, rotatedDb, hrun, hb]
  refine ⟨({ d with temporaries := 2 :: d.temporaries } : Disk).renameTable 2 (wideTable K).file,
    ?_⟩
  simp only [TransitionSystem.exec, step, State.background, h, Option.map_some, Option.bind_eq_bind,
    Option.bind_some, h']

/-- Two writes and the first steps of a flush leave a table whose two boundary keys are `K`. -/
theorem reach_wide (hK : K.length + 21 ≤ maxPayloadSize) :
    ∃ d, (system tinyConfig).Reach (fun _ _ => True)
      ⟨d, some (rotatedDb K (.flushBuilt (wideTable K))), [[.put K []], [.put [] []]], none,
        0⟩ := by
  obtain ⟨d₁, h1, ht₁⟩ := step_wide_first hK
  obtain ⟨d₂, h2, ht₂⟩ := step_wide_second K ht₁ [[.put K []]]
  obtain ⟨d₃, h3⟩ := step_wide_flush K ht₂ ([[.put K []]] ++ [[.put [] []]])
  have hr : (system tinyConfig).Reach (fun _ _ => True)
      ⟨d₂, some (rotatedDb K .idle), [[.put K []]] ++ [[.put [] []]], none, 0⟩ :=
    .step (.step (.init rfl) trivial h1) trivial h2
  exact ⟨d₃, hr.exec (fun s a s' hs => ⟨trivial, hs⟩) h3⟩

/-- The manifest of a first flush: one table, in level 0. -/
theorem encodeManifest_single {m : Manifest} {t : TableMeta} (hv : ∃ ns, validateState m = .ok ns)
    (h0 : m.levels 0 = [t]) (h1 : m.levels 1 = []) (h2 : m.levels 2 = []) :
    encodeManifest m =
      if 32 + t.encodedSize > maxManifestSize - 4 then
        .error (.invalidArgument "manifest exceeds 64 MiB")
      else .ok (32 + t.encodedSize + 12) := by
  obtain ⟨ns, hv⟩ := hv
  unfold encodeManifest
  rw [hv, h0, h1, h2]
  simp only [appendTables, appendTableSizes]
  split
  · rfl
  · rfl

/-- The manifest that the flush is about to write. -/
def wideManifest (K : Bytes) : Manifest :=
  (flushCandidate (rotatedDb K (.flushBuilt (wideTable K))) ⟨⟨[⟨⟨K, 1, .value⟩, []⟩]⟩, 2, 1⟩
    (wideTable K)).1

theorem encode_wide (hK : K.length + 21 ≤ maxPayloadSize) :
    encodeManifest (wideManifest K) =
      if 72 + 2 * K.length > maxManifestSize - 4 then
        .error (.invalidArgument "manifest exceeds 64 MiB")
      else .ok (84 + 2 * K.length) := by
  obtain ⟨d, hr⟩ := reach_wide hK
  obtain ⟨extra, _, hrun⟩ := running_of_reach hr rfl
  have hlen : K.length + 8 ≤ maxUint32 := by
    have : maxPayloadSize ≤ maxUint32 := by decide
    omega
  have hlimits : (wideManifest K).WithinLimits := by
    refine ⟨fun l => ?_, fun l t ht => ?_⟩
    · fin_cases l <;> simp [wideManifest, flushCandidate, rotatedDb, maxUint32]
    · fin_cases l <;> simp [wideManifest, flushCandidate, rotatedDb] at ht
      rw [ht]
      exact ⟨hlen, hlen⟩
  have hv : ∃ ns, validateState (wideManifest K) = .ok ns := hrun.validate_flush rfl rfl hlimits
  have hsize : (wideTable K).info.encodedSize = 40 + 2 * K.length := by
    simp only [wideTable, TableMeta.encodedSize]
    omega
  rw [encodeManifest_single hv rfl rfl rfl, hsize, show 32 + (40 + 2 * K.length) = 72 + 2 * K.length
    by omega, show 72 + 2 * K.length + 12 = 84 + 2 * K.length by omega]

/-- The memory after the flush of the table with the key `K`. -/
def flushedDb (K : Bytes) : DB :=
  { rotatedDb K (.removingWals 3) with
    manifest := wideManifest K
    version := Version.empty.withLevel0Table (wideTable K)
    immutable := none }

theorem flushCommit_wide (K : Bytes) (d : Disk) :
    flushCommit d (rotatedDb K (.flushBuilt (wideTable K))) =
      match writeManifest (wideManifest K) d with
      | .error e => some (failJob e [wideTable K] d (rotatedDb K (.flushBuilt (wideTable K))))
      | .ok d => some (d, flushedDb K) := rfl

/-- The flush fails once the manifest would hold more than the limit. -/
theorem flush_rejected (hlen : K.length = 40000000) :
    ∃ st, (system tinyConfig).Reach (fun _ _ => True) st ∧
      st.acknowledged = [[.put K []], [.put [] []]] ∧ ∃ db, st.db = some db ∧
        db.backgroundError = some (.invalidArgument "manifest exceeds 64 MiB") := by
  have hK : K.length + 21 ≤ maxPayloadSize := by
    rw [hlen]
    decide
  obtain ⟨d, hr⟩ := reach_wide hK
  have hencode := encode_wide hK
  rw [if_pos (by rw [hlen]; decide)] at hencode
  have hcommit : flushCommit d (rotatedDb K (.flushBuilt (wideTable K))) =
      some (failJob (.invalidArgument "manifest exceeds 64 MiB") [wideTable K] d
        (rotatedDb K (.flushBuilt (wideTable K)))) := by
    simp only [flushCommit_wide, writeManifest, hencode]
  have hs : step tinyConfig ⟨d, some (rotatedDb K (.flushBuilt (wideTable K))),
      [[.put K []], [.put [] []]], none, 0⟩ .flushCommit = some ⟨d.removeTable 2,
        some { rotatedDb K .idle with
          backgroundError := some (.invalidArgument "manifest exceeds 64 MiB") },
        [[.put K []], [.put [] []]], none, 0⟩ := by
    simp only [step, State.background, hcommit, Option.map_some]
    rfl
  exact ⟨_, .step hr trivial hs, rfl, _, rfl, rfl⟩

/-- Two writes are acknowledged. The first has a key of 40000000 bytes, well below the
64 MiB of a log record, and the manifest would have to hold it twice. -/
theorem flush_rejects_wide_key : ∃ st, (system tinyConfig).Reach (fun _ _ => True) st ∧
    st.acknowledged = [[.put (List.replicate 40000000 0) []], [.put [] []]] ∧
      ∃ db, st.db = some db ∧
        db.backgroundError = some (.invalidArgument "manifest exceeds 64 MiB") :=
  flush_rejected List.length_replicate

end Mizu.Lsm
