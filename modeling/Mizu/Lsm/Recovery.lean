import Mizu.Lsm.Limits
import Mizu.Lsm.Refinement

/-!
# Crashes and failed writes

In a run that stays within the limits of the file formats, the next open brings
back the acknowledged batches, and at most one more: the batch whose write was cut
off or failed.
-/

open Multiversion

namespace Mizu.Lsm

/-! ## Limits -/

/-- The limits of the formats: a manifest about to be committed has at most 64 MiB,
and a write leaves the last sequence number unused. -/
def WithinFormat (st : State) : Action → Prop
  | .write _ batch _ | .crashInWrite batch _ =>
    operationCount st.acknowledged + batch.length < maxSequenceNumber
  | .newSnapshot | .releaseSnapshot _ | .close | .crash | .open | .crashInOpen _ => True
  | _ => ∀ db ∈ st.db, ∀ m ∈ db.candidate, m.encodedSize ≤ maxManifestSize

instance (st : State) (a : Action) : Decidable (WithinFormat st a) := by
  unfold WithinFormat
  split <;> infer_instance

/-- The batches the next open may add to the acknowledged ones. -/
def State.Leftover (st : State) (extra : List WriteBatch) : Prop :=
  extra = [] ∨ ∃ b, extra = [b] ∧ st.pending = some b

/-- What a run within the limits keeps. -/
structure State.Guarded (st : State) : Prop where
  small : ∀ m, st.disk.manifest = some m → m.encodedSize ≤ maxManifestSize
  bounded : ∀ extra, st.Leftover extra →
    operationCount (st.acknowledged ++ extra) < maxSequenceNumber
  latched : ∀ db, st.db = some db → st.pending ≠ none → db.walError ≠ none

variable {batch : WriteBatch} {durability : Durability}

namespace State

variable {cfg : Config} {st st' : State} {d d' : Disk} {db db' : DB}

theorem leftover_nil (st : State) : st.Leftover [] := Or.inl rfl

theorem Guarded.of_same (h : st.Guarded) (hm : st'.disk.manifest = st.disk.manifest)
    (hack : st'.acknowledged = st.acknowledged) (hpend : st'.pending = st.pending)
    (hlatch : ∀ db', st'.db = some db' → ∃ db, st.db = some db ∧ db'.walError = db.walError) :
    st'.Guarded := by
  refine ⟨?_, ?_, ?_⟩
  · intro m hm'
    exact h.small m (hm ▸ hm')
  · intro extra he
    rw [hack]
    apply h.bounded
    simpa only [Leftover, hpend] using he
  · intro db' hd' hne
    obtain ⟨db, hd, herr⟩ := hlatch db' hd'
    rw [herr]
    exact h.latched db hd (hpend ▸ hne)

theorem work_manifest (hw : Work cfg d db d' db') : db'.walError = db.walError ∧
    (d'.manifest = d.manifest ∨ ∃ m, db.candidate = some m ∧ d'.manifest = some m) := by
  cases hw with
  | fail e tables next ht hle hmax =>
    exact ⟨rfl, Or.inl (Disk.removeTables_frame d tables).1⟩
  | flushCommit i t n hj hi hn => exact ⟨rfl, Or.inr ⟨_, by simp [DB.candidate, hj, hi], rfl⟩⟩
  | compactCommit p done n hj hn => exact ⟨rfl, Or.inr ⟨_, by simp [DB.candidate, hj], rfl⟩⟩
  | _ => exact ⟨rfl, Or.inl rfl⟩

theorem Guarded.background (h : st.Guarded) (hd : st.db = some db) (hw : Work cfg st.disk db d' db')
    (hfit : ∀ m ∈ db.candidate, m.encodedSize ≤ maxManifestSize) :
    ({ st with disk := d', db := some db' } : State).Guarded := by
  obtain ⟨herr, hm | ⟨m, hc, hm⟩⟩ := work_manifest hw
  · apply Guarded.of_same h
    · exact hm
    · rfl
    · rfl
    · rintro _ ⟨⟩
      exact ⟨db, hd, herr⟩
  · refine ⟨?_, h.bounded, ?_⟩
    · intro m' hm'
      obtain rfl : m = m' := Option.some.inj (hm.symm.trans hm')
      exact hfit m hc
    · rintro _ ⟨⟩ hne
      rw [herr]
      exact h.latched db hd hne

/-- A rotation finds a log without an error: a log that failed keeps its room. -/
theorem walError_of_room {bs extra : List WriteBatch} (h : db.Running cfg d bs extra)
    (hr : Room cfg d db d' db') : db'.walError = db.walError := by
  cases hr with
  | enough _ => rfl
  | rotated hfull _ _ =>
    by_contra hne
    exact hfull (h.room fun hnone => hne hnone.symm)

theorem manifest_of_room (hr : Room cfg d db d' db') : d'.manifest = d.manifest := by
  cases hr with
  | enough _ => rfl
  | rotated _ _ _ => simp

theorem manifest_of_logging {ok : Bool} (hl : Logging batch d db ok d' db') :
    d'.manifest = d.manifest := by
  cases hl <;> rfl

/-- What a write leaves in the records of the run. -/
structure Records (st st' : State) (batch : WriteBatch) : Prop where
  manifest : st'.disk.manifest = st.disk.manifest
  outcome : (st'.acknowledged = st.acknowledged ∧ st'.pending = st.pending ∧
      ∀ db', st'.db = some db' → ∃ db, st.db = some db ∧ db'.walError = db.walError) ∨
    (st'.acknowledged = st.acknowledged ∧ st'.pending = some batch ∧
      ∀ db', st'.db = some db' → db'.walError ≠ none) ∨
    (st'.acknowledged = st.acknowledged ++ [batch] ∧ st'.pending = st.pending ∧
      ∃ db, st.db = some db ∧ db.walError = none)

theorem Guarded.records (h : st.Guarded) (hr : Records st st' batch)
    (hlt : operationCount st.acknowledged + batch.length < maxSequenceNumber) : st'.Guarded := by
  have hsmall : ∀ m, st'.disk.manifest = some m → m.encodedSize ≤ maxManifestSize :=
    fun m hm => h.small m (hr.manifest ▸ hm)
  have hcount : operationCount (st.acknowledged ++ [batch]) < maxSequenceNumber := by
    simpa [operationCount] using hlt
  rcases hr.outcome with ⟨hack, hpend, herr⟩ | ⟨hack, hpend, herr⟩ | ⟨hack, hpend, db, hd, hnone⟩
  · exact h.of_same hr.manifest hack hpend herr
  · refine ⟨hsmall, ?_, fun db' hd' _ => herr db' hd'⟩
    rw [hack]
    rintro extra (rfl | ⟨b, rfl, hb⟩)
    · exact h.bounded [] st.leftover_nil
    · rw [hpend] at hb
      cases hb
      exact hcount
  · -- the log had no error, so nothing was pending
    have hempty : st'.pending = none := by
      rw [hpend]
      by_contra hne
      exact h.latched db hd hne hnone
    refine ⟨hsmall, ?_, fun _ _ hne => absurd hempty hne⟩
    rw [hack]
    rintro extra (rfl | ⟨b, rfl, hb⟩)
    · rwa [List.append_nil]
    · simp [hempty] at hb

theorem records_of_write {o : WriteOutcome}
    {r : Except Status Unit} (hI : st.Inv cfg) (hd : st.db = some db)
    (hw : write cfg durability batch o st.disk db = some (r, d', db')) (durable : ℕ) :
    Records st (st.wrote cfg batch db r.isOk d' db' durable) batch := by
  obtain ⟨extra, _, hdb⟩ := hI.running hd
  rcases write_cases hw with ⟨rfl, rfl, hwhy⟩ | ⟨hne, d₁, db₁, hroom, hlog⟩
  · refine ⟨rfl, Or.inl ⟨?_, ?_, ?_⟩⟩
    · rcases hwhy with ⟨rfl, _⟩ | ⟨hok, _⟩
      · simp
      · simp [hok]
    · rcases hwhy with ⟨rfl, hok⟩ | ⟨_, hno⟩
      · simp [hok]
      · simp [reachesLog_eq_false hno]
    · rintro _ ⟨⟩
      exact ⟨db', hd, rfl⟩
  · have hr := (room_of_makeRoom hroom).2
    have hl := (logging_of_logAndApply hlog).1
    have herr := walError_of_room hdb hr
    have hreach := reachesLog_eq batch hroom
    refine ⟨(manifest_of_logging hl).trans (manifest_of_room hr), ?_⟩
    generalize r.isOk = ok at hl
    cases hl with
    | refused hwhy =>
      have hfalse : reachesLog cfg batch st.disk db = false := by
        rw [hreach]
        rcases hwhy with hwhy | hwhy
        · simp [Option.ne_none_iff_isSome.mp hwhy]
        · cases henc : encode batch (db'.lastSequence + 1) with
          | ok p => exact absurd henc (hwhy p)
          | error e => rfl
      refine Or.inl ⟨by simp, by simp [hfalse], ?_⟩
      rintro _ ⟨⟩
      exact ⟨db, hd, herr⟩
    | torn payload n henc hnone hn =>
      have htrue : reachesLog cfg batch st.disk db = true := by
        rw [hreach, henc, hnone]
        rfl
      refine Or.inr (Or.inl ⟨by simp, by simp [htrue], ?_⟩)
      simp
    | unsynced payload henc hnone =>
      have htrue : reachesLog cfg batch st.disk db = true := by
        rw [hreach, henc, hnone]
        rfl
      refine Or.inr (Or.inl ⟨by simp, by simp [htrue], ?_⟩)
      rintro _ ⟨⟩
      simp
    | applied payload sync henc hnone =>
      have hemp : batch.isEmpty = false := by simpa using hne
      exact Or.inr (Or.inr ⟨by simp [hemp], by simp, db, hd, herr ▸ hnone⟩)

theorem Guarded.step {a : Action} (h : st.Guarded) (hI : st.Inv cfg) (hg : WithinFormat st a)
    (hs : step cfg st a = some st') : st'.Guarded := by
  cases turn_of_step hs with
  | write hd hopen hw => exact h.records (records_of_write hI hd hw _) hg
  | @newSnapshot db hd =>
    refine Guarded.of_same h rfl rfl rfl ?_
    rintro _ ⟨⟩
    exact ⟨db, hd, rfl⟩
  | @releaseSnapshot s db hd =>
    refine Guarded.of_same h rfl rfl rfl ?_
    rintro _ ⟨⟩
    exact ⟨db, hd, rfl⟩
  | @background _ f db db' d' hf hd hr =>
    have hfit : ∀ m ∈ db.candidate, m.encodedSize ≤ maxManifestSize := by
      cases a <;> first | exact hg db hd | simp [Action.operation] at hf
    obtain ⟨extra, _, hdb⟩ := hI.running hd
    exact h.background hd (work_of_operation hf hdb.filed.next.2 hr) hfit
  | ended _ hd => exact Guarded.of_same h rfl rfl rfl (by simp)
  | cutRoom hd hroom =>
    have hm := manifest_of_room (room_of_makeRoom hroom).2
    exact h.records ⟨hm, Or.inl ⟨rfl, rfl, by simp⟩⟩ hg
  | @cutWrite batch n db db₁ d₁ payload hd hroom henc =>
    have hm := manifest_of_room (room_of_makeRoom hroom).2
    obtain ⟨db', hlog⟩ := logging_of_crash (d := d₁) n henc
    refine h.records ⟨(manifest_of_logging hlog).trans hm, ?_⟩ hg
    cases herr : db₁.walError with
    | some e => exact Or.inl ⟨rfl, by simp, by simp⟩
    | none => exact Or.inr (Or.inl ⟨rfl, by simp, by simp⟩)
  | @opened d' db hd hopen =>
    obtain ⟨extra, m, v, _, hdir⟩ := hI.directory
    obtain ⟨d₁, db₁, hopen₁, _, hm, _⟩ := hdir.recover (h.small m hdir.manifest) cfg
    obtain ⟨rfl, _⟩ : d' = d₁ ∧ _ := Prod.mk.inj (hopen.symm.trans hopen₁)
    refine ⟨?_, ?_, by simp⟩
    · intro m' hm'
      exact h.small m' (hdir.manifest.trans (hm.symm.trans hm'))
    · rintro extra (rfl | ⟨b, _, hb⟩)
      · have hnone := h.bounded [] st.leftover_nil
        rw [List.append_nil] at hnone ⊢
        split
        · exact hnone
        · cases hp : st.pending with
          | none => simpa using hnone
          | some b => exact h.bounded [b] (Or.inr ⟨b, rfl, hp⟩)
      · simp at hb
  | refused hd hopen =>
    obtain ⟨extra, m, v, _, hdir⟩ := hI.directory
    obtain ⟨d₁, db₁, hopen₁, _⟩ := hdir.recover (h.small m hdir.manifest) cfg
    simp [hopen] at hopen₁
  | @interrupted k hd =>
    obtain ⟨extra, m, v, _, hdir⟩ := hI.directory
    refine Guarded.of_same h ?_ rfl rfl (by simp)
    exact (hdir.interrupt k).1.manifest.trans hdir.manifest.symm

end State

theorem guarded_of_reach {cfg : Config} {st : State} (h : (system cfg).Reach WithinFormat st) :
    st.Guarded := by
  have hboth : st.Inv cfg ∧ st.Guarded := by
    apply h.induct
    · rintro st rfl
      refine ⟨State.inv_fresh cfg, ?_, ?_, by simp [freshState]⟩
      · decide
      · rintro extra (rfl | ⟨b, _, hb⟩)
        · decide
        · simp [freshState] at hb
    · intro st a st' _ hI hg hs
      exact ⟨hI.1.step hs, hI.2.step hI.1 hg hs⟩
  exact hboth.2

/-! ## The next open -/

/-- The next open succeeds. What it reads back is what the acknowledged batches left,
followed by nothing or by the batch that was not answered. -/
def State.Recovers (st : State) : Prop :=
  ∃ d db extra, openDatabase st.disk = (d, .ok db) ∧ st.Leftover extra ∧
    db.lastSequence = operationCount (st.acknowledged ++ extra) ∧
    ∀ key, db.get key db.lastSequence =
      valueAt (st.acknowledged ++ extra).flatten key db.lastSequence

theorem State.Inv.recovers {cfg : Config} {st : State} (h : st.Inv cfg) (hg : st.Guarded) :
    st.Recovers := by
  obtain ⟨extra, m, v, hextra, hdir⟩ := h.directory
  obtain ⟨d', db, hopen, hrun, _, _, hsnap, _⟩ := hdir.recover (hg.small m hdir.manifest) cfg
  refine ⟨d', db, extra, hopen, hextra, hrun.sound.count, fun key => ?_⟩
  apply hrun.sound.get (hg.bounded extra hextra)
  simp [DB.oldestSnapshot, hsnap]

/-- Wherever a run within the limits is cut off, the next open recovers. -/
theorem recovers_of_reach {cfg : Config} {st : State} (h : (system cfg).Reach WithinFormat st) :
    st.Recovers :=
  (inv_of_reach h).recovers (guarded_of_reach h)

/-- Flushed and logged batches, a crash inside an append and one in the recovery. -/
theorem recovers_after_crashes : ∃ st, (system tinyConfig).Reach WithinFormat st ∧ st.db = none ∧
    st.acknowledged.length = 3 ∧ st.pending ≠ none ∧ st.Recovers := by
  obtain ⟨st, hr, hnone, hlen, hpend⟩ := exists_run tinyConfig WithinFormat
    (fun st => st.db = none ∧ st.acknowledged.length = 3 ∧ st.pending ≠ none)
    ([.put .async [1] [7], .put .sync [2] [8]] ++ Action.flush ++ [.put .async [1] [9], .flushOpen,
      .crash, .open, .finishRemoval, .finishRemoval, .crashInWrite [.put [3] [1]] 11,
        .crashInOpen 1])
    (by decide +kernel)
  exact ⟨st, hr, hnone, hlen, hpend, recovers_of_reach hr⟩

/-! ## A manifest that is written and cannot be read -/

variable {K : Bytes}

/-- The writer checks the size after each table, before the counts of the other levels
and the checksum. -/
theorem reach_flushed (hlen : K.length = 33554394) :
    maxManifestSize < (wideManifest K).encodedSize ∧
    ∃ d, (system tinyConfig).Reach (fun _ _ => True)
      ⟨d, some (flushedDb K), [[.put K []], [.put [] []]], none, 0⟩ ∧
        d.manifest = some (wideManifest K) := by
  have hK : K.length + 21 ≤ maxPayloadSize := by
    rw [hlen]
    decide
  obtain ⟨d, hr⟩ := reach_wide hK
  have hencode := encode_wide hK
  rw [if_neg (by rw [hlen]; decide)] at hencode
  refine ⟨?_, { d with manifest := some (wideManifest K) }, ?_, rfl⟩
  · rw [← (encodeManifest_ok hencode).1, hlen]
    decide
  · have hcommit : flushCommit d (rotatedDb K (.flushBuilt (wideTable K))) =
        some ({ d with manifest := some (wideManifest K) }, flushedDb K) := by
      simp only [flushCommit_wide, writeManifest, hencode]
    have hs : step tinyConfig ⟨d, some (rotatedDb K (.flushBuilt (wideTable K))),
        [[.put K []], [.put [] []]], none, 0⟩ .flushCommit =
          some ⟨{ d with manifest := some (wideManifest K) }, some (flushedDb K),
            [[.put K []], [.put [] []]], none, 0⟩ := by
      simp only [step, State.background, hcommit, Option.map_some]
    exact .step hr trivial hs

theorem open_oversized {cfg : Config} {st : State} {m : Manifest} (h : st.Inv cfg)
    (hm : st.disk.manifest = some m) (hsize : maxManifestSize < m.encodedSize) :
    openDatabase st.disk =
      (st.disk, .error (.corruption "manifest is not a valid regular file")) := by
  obtain ⟨extra, m', v, _, hdir⟩ := h.directory
  obtain rfl : m' = m := Option.some.inj (hdir.manifest.symm.trans hm)
  exact hdir.open_large (by omega)

theorem open_fails_after_flush (hlen : K.length = 33554394) :
    ∃ st, (system tinyConfig).Reach (fun _ _ => True) st ∧ st.db = none ∧
      st.acknowledged = [[.put K []], [.put [] []]] ∧
      openDatabase st.disk =
        (st.disk, .error (.corruption "manifest is not a valid regular file")) := by
  obtain ⟨hsize, d, hr, hm⟩ := reach_flushed hlen
  have hs : step tinyConfig ⟨d, some (flushedDb K), [[.put K []], [.put [] []]], none, 0⟩ .crash =
      some ⟨d, none, [[.put K []], [.put [] []]], none, 0⟩ := rfl
  have hr' := hr.step trivial hs
  exact ⟨_, hr', rfl, rfl, open_oversized (inv_of_reach hr') hm hsize⟩

/-- A key of 33554394 bytes is flushed, and no later open succeeds. -/
theorem wide_key_stops_open : ∃ st, (system tinyConfig).Reach (fun _ _ => True) st ∧ st.db = none ∧
    st.acknowledged = [[.put (List.replicate 33554394 0) []], [.put [] []]] ∧
      openDatabase st.disk =
        (st.disk, .error (.corruption "manifest is not a valid regular file")) :=
  open_fails_after_flush List.length_replicate

/-! ## Failed writes -/

section FailedWrite

variable {cfg : Config} {d d' : Disk} {db db' : DB}

/-- A rotation leaves every lookup as it was. -/
theorem get_of_room (hr : Room cfg d db d' db') (key : Bytes) (s : ℕ) :
    db'.get key s = db.get key s := by
  cases hr with
  | enough _ => rfl
  | rotated _ hi _ =>
    have hempty : MemTable.empty.get key s = .absent := rfl
    unfold DB.get
    simp only [hempty, hi, Option.map_some, Option.getD_some, Option.map_none, Option.getD_none]

theorem get_of_failed (hl : Logging batch d db false d' db') (key : Bytes)
    (s : ℕ) : db'.get key s = db.get key s ∧ db'.lastSequence = db.lastSequence ∧
      db'.snapshots = db.snapshots := by
  cases hl <;> exact ⟨rfl, rfl, rfl⟩

/-- A write that returns an error changes nothing that can be read. -/
theorem get_of_write_error {o : WriteOutcome}
    {e : Status} (hw : write cfg durability batch o d db = some (.error e, d', db')) (key : Bytes)
    (s : ℕ) : db'.get key s = db.get key s ∧ db'.lastSequence = db.lastSequence ∧
      db'.snapshots = db.snapshots := by
  rcases write_cases hw with ⟨_, rfl, _⟩ | ⟨_, d₁, db₁, hroom, hlog⟩
  · exact ⟨rfl, rfl, rfl⟩
  · have hr := (room_of_makeRoom hroom).2
    obtain ⟨hget, hseq, hsnap⟩ := get_of_failed (logging_of_logAndApply hlog).1 key s
    refine ⟨hget.trans (get_of_room hr key s), hseq.trans ?_, hsnap.trans ?_⟩
    · cases hr <;> rfl
    · cases hr <;> rfl

/-- Two ascending lists with the same pairs. -/
theorem eq_of_same_pairs {L M : List (Bytes × Bytes)} (hL : L.Pairwise fun a b => a.1 < b.1)
    (hM : M.Pairwise fun a b => a.1 < b.1) (h : ∀ k v, (k, v) ∈ L ↔ (k, v) ∈ M) : L = M := by
  have hirrefl : ∀ {N : List (Bytes × Bytes)}, (N.Pairwise fun a b => a.1 < b.1) → N.Nodup :=
    fun hN => hN.imp fun hlt heq => (heq ▸ hlt).false
  have hperm : L.Perm M :=
    (List.perm_ext_iff_of_nodup (hirrefl hL) (hirrefl hM)).mpr fun p => h p.1 p.2
  exact hperm.eq_of_pairwise (fun a b _ _ h1 h2 => absurd (h1.trans h2) (lt_irrefl _)) hL hM

end FailedWrite

/-- In every state of a run within the limits: a write that returns an error changes
neither the last sequence nor a lookup, and iterators created before and after it show
the same pairs; the live logs are whole records in sequence, with at most one torn
record at the end of the newest; and the next open recovers. -/
theorem failed_write_of_reach {cfg : Config} {st : State} (h : (system cfg).Reach WithinFormat st) :
    (∀ db durability batch o e d' db' st', st.db = some db →
      write cfg durability batch o st.disk db = some (.error e, d', db') →
      step cfg st (.write durability batch o) = some st' →
      st'.db = some db' ∧ db'.lastSequence = db.lastSequence ∧
      (∀ key s, db'.get key s = db.get key s) ∧
      ∀ s, s = db.lastSequence ∨ s ∈ db.snapshots → ∃ L, ∀ as ses,
        TransitionSystem.exec (Session.step cfg) ⟨st, DBIterator.create db s⟩ as = some ses ∨
          TransitionSystem.exec (Session.step cfg) ⟨st', DBIterator.create db' s⟩ as = some ses →
        ses.iterator.searching = none →
          ses.iterator.current = (Session.cursor L [] as).head?) ∧
    (∃ m current front back tail, st.disk.manifest = some m ∧
      Logs st.disk m current front back tail) ∧
    st.Recovers := by
  have hI := inv_of_reach h
  refine ⟨?_, ?_, hI.recovers (guarded_of_reach h)⟩
  · intro db durability batch o e d' db' st' hd hw hs
    have hread := fun key s => get_of_write_error hw key s
    have hd' : st'.db = some db' := by
      cases turn_of_step hs with
      | write hd₁ hopen hw₁ =>
        obtain rfl := Option.some.inj (hd₁.symm.trans hd)
        rw [hw] at hw₁
        obtain ⟨_, _, rfl⟩ := by simpa using hw₁
        rfl
      | background hf => simp [Action.operation] at hf
      | ended hends => simp [Action.ends] at hends
    refine ⟨hd', (hread [] 0).2.1, fun key s => (hread key s).1, fun s hs' => ?_⟩
    obtain ⟨L, hL, hLget, hbefore⟩ := iterator_of_inv hI hd hs'
    have hs'' : s = db'.lastSequence ∨ s ∈ db'.snapshots := by
      rwa [(hread [] 0).2.1, (hread [] 0).2.2]
    obtain ⟨M, hM, hMget, hafter⟩ := iterator_of_inv (hI.step hs) hd' hs''
    obtain rfl : L = M := by
      apply eq_of_same_pairs hL hM
      intro k v
      rw [hLget, hMget, (hread k s).1]
    refine ⟨L, fun as ses hexec hdone => ?_⟩
    rcases hexec with hexec | hexec
    · exact (hbefore as ses hexec).1 hdone
    · exact (hafter as ses hexec).1 hdone
  · obtain ⟨extra, m, v, _, hdir⟩ := hI.directory
    obtain ⟨current, old, front, back, tail, _, _, hlogs⟩ := hdir.logs
    exact ⟨m, current, front, back, tail, hdir.manifest, hlogs⟩

/-- A failed append, and a failed sync after which the batch is in the log. -/
theorem failed_write_twice : ∃ st db d' db', (system tinyConfig).Reach WithinFormat st ∧
    st.db = some db ∧ st.acknowledged.length = 2 ∧
    write tinyConfig .sync [.put [3] [1]] ⟨1000, false⟩ st.disk db =
      some (.error syncError, d', db') ∧
    (∀ key s, db'.get key s = db.get key s) ∧ st.Recovers := by
  obtain ⟨st, hr, db, hd, hlen, hw⟩ := exists_run tinyConfig WithinFormat
    (fun st => ∃ db ∈ st.db, st.acknowledged.length = 2 ∧
      (((write tinyConfig .sync [.put [3] [1]] ⟨1000, false⟩ st.disk db).any fun r =>
        match r.1 with
        | .error e => e = syncError
        | .ok _ => false) &&
      (step tinyConfig st (.write .sync [.put [3] [1]] ⟨1000, false⟩)).isSome) = true)
    ([.put .async [1] [7], .put .sync [2] [8]] ++ Action.flush ++
      [.write .async [.put [1] [9]] ⟨3, true⟩, .crash, .open, .finishRemoval, .finishRemoval])
    (by decide +kernel)
  rw [Bool.and_eq_true] at hw
  obtain ⟨⟨r, d', db'⟩, hwrite, he⟩ := (Option.any_eq_true _ _).mp hw.1
  obtain ⟨st', hs⟩ := Option.isSome_iff_exists.mp hw.2
  cases r with
  | ok _ => simp at he
  | error e =>
    obtain rfl : e = syncError := by simpa using he
    obtain ⟨hfailed, _, hrec⟩ := failed_write_of_reach hr
    obtain ⟨_, _, hget, _⟩ := hfailed db .sync _ _ _ d' db' st' hd hwrite hs
    exact ⟨st, db, d', db', hr, hd, hlen, hwrite, hget, hrec⟩

theorem write_torn {cfg : Config} {d d₁ : Disk} {db db₁ : DB} {payload : Bytes}
    {n : ℕ} {b : Bool} (hroom : makeRoomForWrite cfg d db = some (.ok (d₁, db₁)))
    (henc : encode batch (db₁.lastSequence + 1) = .ok payload) (herr : db₁.walError = none)
    (hn : n < (walRecord payload).length) :
    write cfg .async batch ⟨n, b⟩ d db = some (.error writeError,
      d₁.mapWal db₁.walNumber fun f => { f with bytes := f.bytes ++ (walRecord payload).take n },
      { db₁ with walError := some writeError }) := by
  have hne : batch.isEmpty = false := by simpa using (encode_ok henc).2.1
  unfold write
  rw [hne, hroom]
  simp only [Bool.false_eq_true, if_false]
  unfold logAndApply
  rw [henc]
  simp only [walAppend_of_encode henc herr]
  rw [if_pos hn]

theorem open_fails_after_failed_write (hlen : K.length = 33554394) :
    ∃ st db d' db', (system tinyConfig).Reach (fun _ _ => True) st ∧ st.db = some db ∧
      st.acknowledged = [[.put K []], [.put [] []]] ∧
      write tinyConfig .async [.put [] []] ⟨0, true⟩ st.disk db =
        some (.error writeError, d', db') ∧
      openDatabase d' = (d', .error (.corruption "manifest is not a valid regular file")) := by
  obtain ⟨hsize, d, hr, hm⟩ := reach_flushed hlen
  have henc := @encode_put [] (by decide) 3 (by decide) (by decide)
  have hpos : 0 < (walRecord (encodeBatch [.put [] []] 3)).length := by
    rw [length_record_put]
    omega
  have hw := write_torn (b := true) (show makeRoomForWrite tinyConfig d (flushedDb K) = _ from rfl)
    henc rfl hpos
  have hm' : (((d.openWal 5).mapWal 5 fun f => ⟨f.bytes ++ [], f.synced⟩) : Disk).manifest =
      some (wideManifest K) := by
    rw [← hm]
    exact Disk.openWal_manifest d 5
  have hs : ∃ st', step tinyConfig ⟨d, some (flushedDb K), [[.put K []], [.put [] []]], none, 0⟩
      (.write .async [.put [] []] ⟨0, true⟩) = some st' ∧
        st'.disk = (d.openWal 5).mapWal 5 fun f => ⟨f.bytes ++ [], f.synced⟩ := by
    have hopen : (flushedDb K).isOpen = true := rfl
    exact ⟨_, rfl, rfl⟩
  obtain ⟨st', hs, hdisk⟩ := hs
  have hopen := open_oversized (inv_of_reach (hr.step trivial hs)) (hdisk ▸ hm') hsize
  rw [hdisk] at hopen
  exact ⟨_, flushedDb K, _, _, hr, rfl, rfl, hw, hopen⟩

/-- The same key, and a failed write after the flush. -/
theorem wide_key_stops_open_after_failure : ∃ st db d' db',
    (system tinyConfig).Reach (fun _ _ => True) st ∧ st.db = some db ∧
      st.acknowledged = [[.put (List.replicate 33554394 0) []], [.put [] []]] ∧
      write tinyConfig .async [.put [] []] ⟨0, true⟩ st.disk db =
        some (.error writeError, d', db') ∧
      openDatabase d' = (d', .error (.corruption "manifest is not a valid regular file")) :=
  open_fails_after_failed_write List.length_replicate

end Mizu.Lsm
