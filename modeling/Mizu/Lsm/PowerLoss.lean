import Mizu.Lsm.Recovery

/-!
# Power loss

A power loss cuts every log back to some length that its last sync covered. The
records of a log are then the first of those it held, so the newest log may lose
what was not synced. An older log must not: the next one goes on from its end.
-/

open Multiversion

namespace Mizu.Lsm

/-- Every log keeps at least the bytes its last sync covered, and at most what it had. -/
def Disk.powerLoss (d : Disk) (keep : ℕ → ℕ) : Disk :=
  { d with wals := d.wals.map fun p =>
      (p.1, { p.2 with bytes := p.2.bytes.take (max p.2.synced (keep p.1)) }) }

/-! ## Logs determine their batches -/

section Unique

variable {s : ℕ} {bs bs' : List WriteBatch} {tail tail' : Bytes}

theorem walBytes_unique (h : Encodable s bs) (h' : Encodable s bs') (ht : Torn tail)
    (ht' : Torn tail') (heq : walBytes s bs ++ tail = walBytes s bs' ++ tail') :
    bs = bs' ∧ tail = tail' := by
  induction bs generalizing s bs' with
  | nil =>
    cases bs' with
    | nil => exact ⟨rfl, by simpa [walBytes] using heq⟩
    | cons b bs' =>
      have hread := congrArg (readNext 0) heq
      rw [walBytes, walBytes, List.nil_append, readNext_torn ht, List.append_assoc,
        readNext_record (.of_encode h'.1)] at hread
      simp at hread
  | cons b bs ih =>
    cases bs' with
    | nil =>
      have hread := congrArg (readNext 0) heq
      rw [walBytes, walBytes, List.nil_append, readNext_torn ht', List.append_assoc,
        readNext_record (.of_encode h.1)] at hread
      simp at hread
    | cons b' bs' =>
      have hread := congrArg (readNext 0) heq
      rw [walBytes, walBytes, List.append_assoc, List.append_assoc,
        readNext_record (.of_encode h.1), readNext_record (.of_encode h'.1)] at hread
      obtain ⟨hpayload, hrest⟩ : encodeBatch b s = encodeBatch b' s ∧ _ = _ := by
        simpa using hread
      have hdecode := (decode_encode h.1).symm.trans
          ((congrArg decode hpayload).trans (decode_encode h'.1))
      obtain rfl : b = b' := by simpa using hdecode
      obtain ⟨rfl, rfl⟩ := ih h.2 h'.2 hrest
      exact ⟨rfl, rfl⟩

theorem Spans.unique {files : List Bytes} (h : Spans s files bs) (h' : Spans s files bs')
    (henc : Encodable s bs) (henc' : Encodable s bs') : bs = bs' := by
  induction h generalizing bs' with
  | nil s =>
    cases h'
    rfl
  | @cons s files rest cs hrest ih =>
    generalize hfile : walBytes s cs = file at h'
    cases h' with
    | cons cs' hrest' =>
      obtain ⟨h1, h2⟩ := encodable_append.mp henc
      obtain ⟨h1', h2'⟩ := encodable_append.mp henc'
      obtain ⟨rfl, _⟩ := walBytes_unique h1 h1' torn_nil torn_nil (by rw [hfile])
      rw [ih hrest' h2 h2']

theorem Logs.unique {d : Disk} {m : Manifest} {current current' : ℕ}
    {front front' back back' : List WriteBatch} (h : Logs d m current front back tail)
    (h' : Logs d m current' front' back' tail')
    (henc : Encodable (m.flushedSequence + 1) (front ++ back))
    (henc' : Encodable (m.flushedSequence + 1) (front' ++ back')) :
    current = current' ∧ front = front' ∧ back = back' := by
  obtain ⟨earlier, f, hl, hspans, hbytes⟩ := h.live
  obtain ⟨earlier', f', hl', hspans', hbytes'⟩ := h'.live
  obtain ⟨hearlier, hlast⟩ := List.append_inj' (hl.symm.trans hl') rfl
  obtain ⟨rfl, rfl⟩ : current = current' ∧ f = f' := by simpa using hlast
  subst hearlier
  obtain ⟨h1, h2⟩ := encodable_append.mp henc
  obtain ⟨h1', h2'⟩ := encodable_append.mp henc'
  obtain rfl := hspans.unique hspans' h1 h1'
  obtain ⟨rfl, _⟩ := walBytes_unique h2 h2' h.torn h'.torn (hbytes.symm.trans hbytes')
  exact ⟨rfl, rfl, rfl⟩

end Unique

/-! ## A log cut anywhere -/

section Cut

variable {s : ℕ} {bs : List WriteBatch} {tail : Bytes}

theorem Torn.take (h : Torn tail) (k : ℕ) : Torn (tail.take k) := by
  obtain ⟨payload, n, hp, hn, rfl⟩ := h
  rw [List.take_take]
  exact ⟨payload, min k n, hp, by omega, rfl⟩

/-- What is left of a log is the records that fit and the beginning of the next. -/
theorem take_walBytes (h : Encodable s bs) (ht : Torn tail) (k : ℕ) :
    ∃ j tail', (walBytes s bs ++ tail).take k = walBytes s (bs.take j) ++ tail' ∧ Torn tail' ∧
      ∀ i, (walBytes s (bs.take i)).length ≤ k →
        operationCount (bs.take i) ≤ operationCount (bs.take j) := by
  induction bs generalizing s k with
  | nil => exact ⟨0, tail.take k, by simp [walBytes], ht.take k, by simp⟩
  | cons b bs ih =>
    by_cases hk : (walRecord (encodeBatch b s)).length ≤ k
    · obtain ⟨j, tail', heq, ht', hmost⟩ := ih h.2 (k - (walRecord (encodeBatch b s)).length)
      refine ⟨j + 1, tail', ?_, ht', ?_⟩
      · rw [walBytes, List.take_succ_cons, walBytes, List.append_assoc, List.take_append,
          List.take_of_length_le hk, heq, List.append_assoc]
      · intro i hi
        cases i with
        | zero => simp
        | succ i =>
          rw [List.take_succ_cons, walBytes, List.length_append] at hi
          have := hmost i (by omega)
          simp only [List.take_succ_cons, operationCount_cons]
          omega
    · refine ⟨0, (walRecord (encodeBatch b s)).take k, ?_, ?_, ?_⟩
      · rw [walBytes, List.append_assoc, List.take_append_of_le_length (by omega)]
        rfl
      · exact ⟨_, k, .of_encode h.1, by omega, rfl⟩
      · intro i hi
        cases i with
        | zero => simp
        | succ i =>
          rw [List.take_succ_cons, walBytes, List.length_append] at hi
          omega

end Cut

/-! ## What the syncs cover -/

/-- The logs before the newest are synced, and so are the records of the newest up to
the operation `covered`. -/
def Stable (d : Disk) (m : Manifest) (current : ℕ) (front back : List WriteBatch)
    (covered : ℕ) : Prop :=
  ∃ earlier f j, d.liveLogs m.oldestWalNumber = earlier ++ [(current, f)] ∧
    (∀ p ∈ earlier, p.2.synced = p.2.bytes.length) ∧
    covered ≤ m.flushedSequence + operationCount front + operationCount (back.take j) ∧
    (walBytes (m.flushedSequence + 1 + operationCount front) (back.take j)).length ≤ f.synced

/-- The first `covered` operations outlive a power loss. -/
def Covered (d : Disk) (m : Manifest) (covered : ℕ) : Prop :=
  ∀ current front back tail, Logs d m current front back tail →
    Encodable (m.flushedSequence + 1) (front ++ back) → Stable d m current front back covered

section Covered

variable {cfg : Config} {d d' : Disk} {db db' : DB} {m m' : Manifest} {c : ℕ}
  {current : ℕ} {front back : List WriteBatch} {tail : Bytes}

theorem covered_of_stable (hlogs : Logs d m current front back tail)
    (henc : Encodable (m.flushedSequence + 1) (front ++ back))
    (h : Stable d m current front back c) : Covered d m c := by
  intro current' front' back' tail' hlogs' henc'
  obtain ⟨rfl, rfl, rfl⟩ := hlogs.unique hlogs' henc henc'
  exact h

theorem Covered.mono {c' : ℕ} (h : Covered d m c) (hle : c' ≤ c) : Covered d m c' := by
  intro current front back tail hlogs henc
  obtain ⟨earlier, f, j, hl, hsync, hc, hj⟩ := h current front back tail hlogs henc
  exact ⟨earlier, f, j, hl, hsync, hle.trans hc, hj⟩

/-- The logs stay as they are. -/
theorem Covered.congr (h : Covered d m c) (hw : d'.wals = d.wals)
    (hf : m'.flushedSequence = m.flushedSequence) (ho : m'.oldestWalNumber = m.oldestWalNumber) :
    Covered d' m' c := by
  intro current front back tail hlogs henc
  have hlogs' : Logs d m current front back tail := hlogs.congr hw.symm hf.symm ho.symm
  obtain ⟨earlier, f, j, hl, hsync, hc, hj⟩ :=
    h current front back tail hlogs' (by rwa [hf] at henc)
  refine ⟨earlier, f, j, ?_, hsync, by rwa [hf], by rwa [hf]⟩
  rw [ho, ← hl]
  unfold Disk.liveLogs
  rw [hw]

theorem length_walBytes_take_le (s : ℕ) (bs : List WriteBatch) (j : ℕ) :
    (walBytes s (bs.take j)).length ≤ (walBytes s bs).length := by
  conv_rhs => rw [← List.take_append_drop j bs, walBytes_append, List.length_append]
  omega

theorem operationCount_take_le (bs : List WriteBatch) (j : ℕ) :
    operationCount (bs.take j) ≤ operationCount bs := by
  conv_rhs => rw [← List.take_append_drop j bs, operationCount_append]
  omega

variable {g : WalFile → WalFile}

section

variable (h : Covered d m c) (hlogs : Logs d m current front back tail)
  (henc : Encodable (m.flushedSequence + 1) (front ++ back))

include h hlogs henc

/-- The newest log is written to, or cut after its last record. -/
theorem Covered.map {more : List WriteBatch}
    {tail' : Bytes}
    (hlogs' : Logs (d.mapWal current g) m current front (back ++ more) tail')
    (henc' : Encodable (m.flushedSequence + 1) (front ++ (back ++ more)))
    (hg : ∀ f : WalFile, f.synced ≤ f.bytes.length → min f.synced
      (walBytes (m.flushedSequence + 1 + operationCount front) back).length ≤ (g f).synced) :
    Covered (d.mapWal current g) m c := by
  obtain ⟨earlier, f, j, hl, hsync, hc, hj⟩ := h current front back tail hlogs henc
  apply covered_of_stable hlogs' henc'
  have htake : (back ++ more).take (min j back.length) = back.take j := by
    rw [List.take_append_of_le_length (Nat.min_le_right j back.length), ← List.take_eq_take_min]
  refine ⟨earlier, g f, min j back.length, hlogs.liveLogs_mapWal hl g, hsync, ?_, ?_⟩
  · rw [htake]
    exact hc
  · have hmem : (current, f) ∈ d.wals := liveLogs_subset (by rw [hl]; simp)
    rw [htake]
    apply le_trans _ (hg f (hlogs.synced _ hmem))
    exact le_min hj (length_walBytes_take_le _ back j)

/-- After a sync the newest log is covered as a whole. -/
theorem Covered.sync {back' : List WriteBatch} (hlogs' : Logs (d.mapWal current g) m current front
    back' []) (henc' : Encodable (m.flushedSequence + 1) (front ++ back'))
    (hg : ∀ f : WalFile, (g f).synced = (g f).bytes.length) :
    Covered (d.mapWal current g) m
      (m.flushedSequence + operationCount front + operationCount back') := by
  obtain ⟨earlier, f, j, hl, hsync, _⟩ := h current front back tail hlogs henc
  apply covered_of_stable hlogs' henc'
  have hl' := hlogs.liveLogs_mapWal hl g
  obtain ⟨earlier', f', hlive, _, hbytes⟩ := hlogs'.live
  obtain ⟨_, hlast⟩ := List.append_inj' (hl'.symm.trans hlive) rfl
  obtain rfl : g f = f' := by simpa using hlast
  refine ⟨earlier, g f, back'.length, hl', hsync, by rw [List.take_length], ?_⟩
  rw [List.take_length, hg f, hbytes, List.append_nil]

end

/-- A new log is opened after one that is synced. -/
theorem Covered.rotate (h : Covered d m c) (hlogs : Logs d m current front back [])
    (henc : Encodable (m.flushedSequence + 1) (front ++ back)) {n : ℕ}
    (hn : ∀ k ∈ Assoc.keys d.wals, k < n)
    (hsynced : ∀ f, Assoc.get current d.wals = some f → f.synced = f.bytes.length) :
    Covered (d.openWal n) m c := by
  obtain ⟨earlier, f, j, hl, hsync, hc, _⟩ := h current front back [] hlogs henc
  apply covered_of_stable (hlogs.rotate hn) (by simpa using henc)
  refine ⟨earlier ++ [(current, f)], ⟨[], 0⟩, 0, ?_, ?_, ?_, by simp [walBytes]⟩
  · rw [hlogs.liveLogs_openWal hn, hl]
  · intro p hp
    rcases List.mem_append.mp hp with hp | hp
    · exact hsync p hp
    · rw [List.mem_singleton.mp hp]
      apply hsynced
      apply get_of_sorted hlogs.sorted (p := (current, f))
      apply liveLogs_subset
      rw [hl]
      simp
  · have := operationCount_take_le back j
    simp only [operationCount_append, List.take_nil, operationCount_nil]
    omega

section

variable (h : Covered d m c) (hlogs : Logs d m current front back tail)
  (henc : Encodable (m.flushedSequence + 1) (front ++ back))

include h hlogs henc

theorem Covered.flush (hw : d'.wals = d.wals)
    (ho : m'.oldestWalNumber = current)
    (hf : m'.flushedSequence = m.flushedSequence + operationCount front) : Covered d' m' c := by
  obtain ⟨earlier, f, j, hl, _, hc, hj⟩ := h current front back tail hlogs henc
  have hnext : m'.flushedSequence + 1 = m.flushedSequence + 1 + operationCount front := by omega
  apply covered_of_stable (hlogs.flush hw ho hf)
  · rw [List.nil_append, hnext]
    exact (encodable_append.mp henc).2
  · refine ⟨[], f, j, hlogs.liveLogs_flush hl hw ho, by simp, ?_, ?_⟩
    · omega
    · rw [operationCount_nil, Nat.add_zero, hnext]
      exact hj

theorem Covered.removeWal {n : ℕ}
    (hn : n < m.oldestWalNumber) : Covered (d.removeWal n) m c := by
  obtain ⟨earlier, f, j, hl, hsync, hc, hj⟩ := h current front back tail hlogs henc
  apply covered_of_stable (hlogs.removeWal hn) henc
  exact ⟨earlier, f, j, (Logs.liveLogs_removeWal hn).trans hl, hsync, hc, hj⟩

end

theorem Covered.trimmed (h : Covered d m c) (ht : Trimmed d m d') : Covered d' m c := by
  obtain ⟨current, front, back, tail, hlogs, henc, rfl⟩ := ht
  have hlogs' : Logs (d.mapWal current (WalFile.cut (walBytes
      (m.flushedSequence + 1 + operationCount front) back).length)) m current front (back ++ [])
        [] := by
    apply hlogs.map torn_nil
    · simp only [WalFile.cut, List.length_take]
      omega
    · intro f hf
      simp [WalFile.cut, hf]
  exact h.map hlogs henc hlogs' (by simpa using henc) fun f _ => le_rfl

variable {bs extra : List WriteBatch}

theorem encodable_of_running (h : db.Running cfg d bs extra) {old : List WriteBatch}
    (hsplit : old ++ front ++ back = bs ++ extra)
    (hold : operationCount old = db.manifest.flushedSequence) :
    Encodable (db.manifest.flushedSequence + 1) (front ++ back) :=
  h.directory.encodable_logs hsplit hold

theorem Covered.work (h : Covered d db.manifest c) (hrun : db.Running cfg d bs extra)
    (hw : Work cfg d db d' db') : Covered d' db'.manifest c := by
  obtain ⟨old, front, back, tail, hsplit, hold, hlogs, _, himm⟩ := hrun.logs
  have henc := encodable_of_running hrun hsplit hold
  cases hw with
  | fail e tables next ht hle hmax => exact h.congr (d.removeTables_frame tables).2.1 rfl rfl
  | flushCommit i t n hj hi hn => exact h.flush hlogs henc rfl rfl (himm i hi)
  | compactCommit p done n hj hn => exact h.congr rfl rfl rfl
  | removeWal n hj =>
    apply h.removeWal hlogs henc
    rcases hj with ⟨live, hj, hlt⟩ | ⟨_, hlt⟩
    · exact hlt.trans_le (hrun.removing live hj)
    · exact hlt
  | _ => exact h.congr rfl rfl rfl

theorem Covered.room (h : Covered d db.manifest c) (hrun : db.Running cfg d bs extra)
    (hr : Room cfg d db d' db') (hsynced : db.hasRoom cfg = false →
      ∀ f, Assoc.get db.walNumber d.wals = some f → f.synced = f.bytes.length) :
    Covered d' db'.manifest c := by
  cases hr with
  | enough _ => exact h
  | rotated hfull hi hnum =>
    obtain ⟨old, front, back, tail, hsplit, hold, hlogs, hclean, _⟩ := hrun.logs
    have herr : db.walError = none := by
      by_contra hne
      exact hfull (hrun.room hne)
    obtain ⟨rfl, rfl⟩ := hclean herr
    refine h.rotate hlogs (encodable_of_running hrun hsplit hold) ?_
      (hsynced (Bool.eq_false_iff.mpr hfull))
    intro k hk
    have := hrun.filed.numbers k (Disk.mem_numbers.mpr (Or.inl hk))
    omega

theorem Covered.logging {batch : WriteBatch} {ok : Bool} (h : Covered d db.manifest c)
    (hrun : db.Running cfg d bs extra) (hl : Logging batch d db ok d' db') :
    Covered d' db'.manifest c ∧ (ok = true →
      (∃ payload, d' = d.mapWal db.walNumber fun f =>
        ⟨f.bytes ++ walRecord payload, (f.bytes ++ walRecord payload).length⟩) →
      Covered d' db'.manifest (operationCount bs + batch.length)) := by
  obtain ⟨old, front, back, tail, hsplit, hold, hlogs, hclean, himm⟩ := hrun.logs
  have henc := encodable_of_running hrun hsplit hold
  -- the record goes behind those of the newest log
  have happend : ∀ {payload}, db.walError = none →
      encode batch (db.lastSequence + 1) = .ok payload → extra = [] ∧ tail = [] ∧
        db.lastSequence + 1 = db.manifest.flushedSequence + 1 + operationCount front +
          operationCount back ∧
        Encodable (db.manifest.flushedSequence + 1) (front ++ (back ++ [batch])) := by
    intro payload herr hpayload
    obtain ⟨rfl, rfl⟩ := hclean herr
    have hnext := hrun.next_sequence hsplit hold
    refine ⟨rfl, rfl, hnext, ?_⟩
    rw [← List.append_assoc, encodable_append, operationCount_append]
    refine ⟨henc, ?_, trivial⟩
    rw [← Nat.add_assoc, ← hnext, hpayload, (encode_ok hpayload).1]
  cases hl with
  | refused hwhy => exact ⟨h, by simp⟩
  | torn payload n hpayload herr hn =>
    obtain ⟨rfl, rfl⟩ := hclean herr
    refine ⟨?_, by simp⟩
    have hlogs' : Logs (d.mapWal db.walNumber fun f =>
        { f with bytes := f.bytes ++ (walRecord payload).take n }) db.manifest db.walNumber front
          (back ++ []) ((walRecord payload).take n) := by
      rw [List.append_nil]
      apply hlogs.map ⟨payload, n, .of_encode hpayload, hn, rfl⟩
      · simp only [List.length_append]
        omega
      · intro f hbytes
        rw [hbytes, List.append_nil]
    exact h.map hlogs henc hlogs' (by simpa using henc) fun f _ => Nat.min_le_left _ _
  | unsynced payload hpayload herr =>
    obtain ⟨rfl, rfl, hnext, henc'⟩ := happend herr hpayload
    refine ⟨?_, by simp⟩
    refine h.map hlogs henc (DB.logs_append hlogs hnext hpayload ?_ fun f => rfl) henc'
      fun f _ => Nat.min_le_left _ _
    simp only [List.length_append]
    omega
  | applied payload sync hpayload herr =>
    obtain ⟨rfl, rfl, hnext, henc'⟩ := happend herr hpayload
    have hlogs' : Logs (d.mapWal db.walNumber fun f => ⟨f.bytes ++ walRecord payload,
        if sync then (f.bytes ++ walRecord payload).length else f.synced⟩) db.manifest db.walNumber
          front (back ++ [batch]) [] := by
      refine DB.logs_append hlogs hnext hpayload ?_ fun f => rfl
      intro f hle
      simp only
      split
      · exact le_rfl
      · rw [List.length_append]
        omega
    refine ⟨h.map hlogs henc hlogs' henc' ?_, ?_⟩
    · intro f hle
      simp only
      split
      · rw [List.length_append]
        omega
      · exact Nat.min_le_left _ _
    · rintro - ⟨payload', hd'⟩
      rw [hd'] at hlogs' ⊢
      have hsync := h.sync hlogs henc hlogs' henc' fun f => rfl
      have hcount := congrArg operationCount hsplit
      simp only [operationCount_append, List.append_nil] at hcount
      apply hsync.mono
      rw [operationCount_append, ← hold, ← hcount, operationCount_cons, operationCount_nil]
      omega

end Covered

/-! ## Every run -/

/-- A memtable is rotated out only after its log was synced as a whole, and the limits of
the formats are kept. -/
def SyncedRotations (cfg : Config) (st : State) (a : Action) : Prop :=
  WithinFormat st a ∧
    match a with
    | .write _ _ _ | .crashInWrite _ _ => ∀ db ∈ st.db, db.hasRoom cfg = false →
        ∀ f ∈ Assoc.get db.walNumber st.disk.wals, f.synced = f.bytes.length
    | _ => True

instance (cfg : Config) (st : State) (a : Action) : Decidable (SyncedRotations cfg st a) := by
  induction a using Action.casesOn <;> dsimp only [SyncedRotations] <;> infer_instance

/-- The batches up to the last synced write outlive a power loss. -/
structure State.Durable (st : State) : Prop where
  le : st.durable ≤ st.acknowledged.length
  covered : ∀ m, st.disk.manifest = some m →
    Covered st.disk m (operationCount (st.acknowledged.take st.durable))

namespace State

variable {cfg : Config} {st st' : State} {d' : Disk} {db db' : DB}

/-- The recorded batches may get more. -/
theorem Durable.extend (h : st.Durable) (more : List WriteBatch)
    (hack : st'.acknowledged = st.acknowledged ++ more) (hdurable : st'.durable = st.durable)
    (hcov : ∀ m, st'.disk.manifest = some m →
      Covered st'.disk m (operationCount (st.acknowledged.take st.durable))) : st'.Durable := by
  have hle := h.le
  refine ⟨?_, ?_⟩
  · rw [hack, hdurable, List.length_append]
    omega
  · rw [hack, hdurable, List.take_append_of_le_length hle]
    exact hcov

theorem covered_of_running {c : ℕ} {d : Disk} {bs extra : List WriteBatch}
    (hrun : db.Running cfg d bs extra) (h : Covered d db.manifest c) :
    ∀ m, d.manifest = some m → Covered d m c := by
  intro m hm
  obtain rfl := Option.some.inj (hrun.filed.manifest.symm.trans hm)
  exact h

theorem Durable.write {durability : Durability} {batch : WriteBatch} {o : WriteOutcome}
    {r : Except Status Unit} (h : st.Durable) (hI : st.Inv cfg) (hd : st.db = some db)
    (hsynced : db.hasRoom cfg = false →
      ∀ f ∈ Assoc.get db.walNumber st.disk.wals, f.synced = f.bytes.length)
    (hw : Lsm.write cfg durability batch o st.disk db = some (r, d', db'))
    (pending : Option WriteBatch) :
    ({ disk := d'
       db := some db'
       acknowledged := if r.isOk && !batch.isEmpty then st.acknowledged ++ [batch]
         else st.acknowledged
       pending := pending
       durable := if r.isOk && !batch.isEmpty && durability = .sync then
         st.acknowledged.length + 1 else st.durable } : State).Durable := by
  obtain ⟨extra, _, hdb⟩ := hI.running hd
  rcases write_cases hw with ⟨rfl, rfl, hwhy⟩ | ⟨hne, d₁, db₁, hroom, hlog⟩
  · refine Durable.extend h [] ?_ ?_ h.covered
    · rcases hwhy with ⟨rfl, _⟩ | ⟨hok, _⟩
      · simp
      · simp [hok]
    · rcases hwhy with ⟨rfl, _⟩ | ⟨hok, _⟩
      · simp
      · simp [hok]
  · have hr := (room_of_makeRoom hroom).2
    obtain ⟨hl, hsync⟩ := logging_of_logAndApply hlog
    have hrun₁ := hdb.makeRoom hr
    have hmanifest : d'.manifest = some db'.manifest := (hrun₁.filed.logging hl).manifest
    have hcov₁ := (h.covered _ hdb.filed.manifest).room hdb hr hsynced
    obtain ⟨hcov, hall⟩ := hcov₁.logging hrun₁ hl
    have hemp : batch.isEmpty = false := by simpa using hne
    have hm : ∀ {c}, Covered d' db'.manifest c → ∀ m, d'.manifest = some m → Covered d' m c := by
      intro c hc m hm
      obtain rfl := Option.some.inj (hmanifest.symm.trans hm)
      exact hc
    cases hok : r.isOk with
    | false => exact h.extend [] (by simp) (by simp) (hm hcov)
    | true =>
      cases durability with
      | async => exact h.extend [batch] (by simp [hemp]) (by simp) (hm hcov)
      | sync =>
        obtain ⟨payload, _, hd'⟩ := hsync hok rfl
        refine ⟨by simp [hemp], ?_⟩
        have htake : (st.acknowledged ++ [batch]).take (st.acknowledged.length + 1) =
            st.acknowledged ++ [batch] := List.take_of_length_le (by simp)
        have hlast := hm (hall hok ⟨payload, hd'⟩)
        simpa [hemp, htake] using hlast

theorem Durable.step {a : Action} (h : st.Durable) (hI : st.Inv cfg) (hG : st.Guarded)
    (hg : SyncedRotations cfg st a) (hs : Lsm.step cfg st a = some st') : st'.Durable := by
  have hcov := h.covered
  have hopenable : ∀ {m v extra}, Directory st.disk m v st.acknowledged extra →
      m.encodedSize ≤ maxManifestSize := fun hdir => hG.small _ hdir.manifest
  cases turn_of_step hs with
  | write hd hopen hw => exact h.write hI hd (hg.2 _ hd) hw _
  | newSnapshot hd => exact ⟨h.le, hcov⟩
  | releaseSnapshot hd => exact ⟨h.le, hcov⟩
  | @background _ f db db' d' hf hd hr =>
    obtain ⟨extra, _, hdb⟩ := hI.running hd
    have hw := work_of_operation hf hdb.filed.next.2 hr
    exact ⟨h.le, covered_of_running (hdb.work hw) ((hcov _ hdb.filed.manifest).work hdb hw)⟩
  | ended _ hd => exact ⟨h.le, hcov⟩
  | @cutRoom batch n db db₁ d₁ hd hroom =>
    obtain ⟨extra, _, hdb⟩ := hI.running hd
    have hr := (room_of_makeRoom hroom).2
    exact ⟨h.le, covered_of_running (hdb.makeRoom hr)
      ((hcov _ hdb.filed.manifest).room hdb hr (hg.2 db hd))⟩
  | @cutWrite batch n db db₁ d₁ payload hd hroom henc =>
    obtain ⟨extra, _, hdb⟩ := hI.running hd
    have hr := (room_of_makeRoom hroom).2
    have hrun₁ := hdb.makeRoom hr
    obtain ⟨db', hl⟩ := logging_of_crash (d := d₁) n henc
    have hmanifest := (hrun₁.filed.logging hl).manifest
    refine ⟨h.le, fun m hm => ?_⟩
    obtain rfl := Option.some.inj (hmanifest.symm.trans hm)
    exact (((hcov _ hdb.filed.manifest).room hdb hr (hg.2 db hd)).logging hrun₁ hl).1
  | @opened d' db hd hopen =>
    obtain ⟨extra, m, v, _, hdir⟩ := hI.directory
    obtain ⟨d₁, db₁, hopen₁, _, hm, _, _, htrim⟩ := hdir.recover (hopenable hdir) cfg
    obtain ⟨rfl, _⟩ : d' = d₁ ∧ _ := Prod.mk.inj (hopen.symm.trans hopen₁)
    have hcov' : ∀ m', d'.manifest = some m' →
        Covered d' m' (operationCount (st.acknowledged.take st.durable)) := by
      intro m' hm'
      obtain rfl := Option.some.inj (hm.symm.trans hm')
      exact (hcov m hdir.manifest).trimmed htrim
    by_cases hsame : db.lastSequence = operationCount st.acknowledged
    · exact Durable.extend h [] (by simp [hsame]) rfl hcov'
    · exact Durable.extend h st.pending.toList (by simp [hsame]) rfl hcov'
  | refused hd hopen =>
    obtain ⟨extra, m, v, _, hdir⟩ := hI.directory
    obtain ⟨d₁, db₁, hopen₁, _⟩ := hdir.recover (hopenable hdir) cfg
    simp [hopen] at hopen₁
  | @interrupted k hd =>
    obtain ⟨extra, m, v, _, hdir⟩ := hI.directory
    obtain ⟨hdir', hwhere⟩ := hdir.interrupt k
    refine ⟨h.le, fun m' hm' => ?_⟩
    obtain rfl := Option.some.inj (hdir'.manifest.symm.trans hm')
    rcases hwhere with hsame | htrim
    · simp only [hsame]
      exact hcov m hdir.manifest
    · exact (hcov m hdir.manifest).trimmed htrim

theorem durable_fresh : freshState.Durable := by
  refine ⟨le_rfl, ?_⟩
  rintro m ⟨⟩
  have hlogs : Logs freshState.disk ⟨0, 1, fun _ => []⟩ 1 [] [] [] :=
    ⟨by decide, by decide, by decide, by decide, torn_nil, [], ⟨[], 0⟩, rfl, .nil _, rfl⟩
  exact covered_of_stable hlogs trivial ⟨[], ⟨[], 0⟩, 0, rfl, by simp, by decide, by decide⟩

end State

/-! ## The next open after a power loss -/

theorem mem_history_take {ops : List Operation} {n : ℕ} {u : Update Bytes Bytes}
    (hn : n ≤ ops.length) (hu : u ∈ history ops) (htime : u.time ≤ n) :
    u ∈ history (ops.take n) := by
  rw [history_split ops n hn] at hu
  rcases hu with hu | hu
  · obtain ⟨e, he, rfl⟩ := hu
    have := sequence_of_mem_entriesFrom he
    simp at htime
    omega
  · exact hu

/-- The tables keep what they hold when only later operations are lost. -/
theorem Version.Keeps.of_take {v : Version} {flushed : ℕ} {ops ops' : List Operation}
    (h : v.Keeps flushed ops) (hle : flushed ≤ ops'.length)
    (htake : ops'.take flushed = ops.take flushed) : v.Keeps flushed ops' := by
  refine ⟨h.ordered, hle, h.bound, ?_⟩
  intro u hu
  have hold := mem_history_take h.le (h.known hu) (h.bound u hu)
  rw [← htake] at hold
  have := history_append_subset (ops'.take flushed) (ops'.drop flushed) hold
  rwa [List.take_append_drop] at this

theorem nonempty_of_encodable {s : ℕ} {bs : List WriteBatch} (h : Encodable s bs) :
    ∀ b ∈ bs, b ≠ [] := by
  induction bs generalizing s with
  | nil => simp
  | cons b bs ih =>
    intro c hc
    rcases List.mem_cons.mp hc with rfl | hc
    · exact (encode_ok h.1).2.1
    · exact ih h.2 c hc

/-- Every batch counts: of two prefixes the one with more operations is the longer. -/
theorem length_le_of_operationCount_le {s : ℕ} {bs cs ds : List WriteBatch} (h : Encodable s ds)
    (hb : bs <+: ds) (hc : cs <+: ds) (hle : operationCount bs ≤ operationCount cs) :
    bs.length ≤ cs.length := by
  by_contra hlt
  obtain ⟨more, rfl⟩ := List.prefix_of_prefix_length_le hc hb (by omega)
  cases more with
  | nil => simp at hlt
  | cons b more =>
    have hne := nonempty_of_encodable h b (hb.subset (by simp))
    have hpos := List.length_pos_iff.mpr hne
    rw [operationCount_append, operationCount_cons] at hle
    omega

section Loss

variable {d : Disk} {m : Manifest} {v : Version} {bs extra : List WriteBatch} {c : ℕ}

theorem keys_powerLoss (d : Disk) (keep : ℕ → ℕ) :
    Assoc.keys (d.powerLoss keep).wals = Assoc.keys d.wals := by
  simp [Assoc.keys, Disk.powerLoss, Function.comp_def]

theorem Logs.powerLoss {current : ℕ} {front back back' : List WriteBatch} {tail tail' : Bytes}
    (h : Logs d m current front back tail) {earlier : List (ℕ × WalFile)} {f : WalFile}
    (hl : d.liveLogs m.oldestWalNumber = earlier ++ [(current, f)])
    (hsync : ∀ p ∈ earlier, p.2.synced = p.2.bytes.length)
    (hspans : Spans (m.flushedSequence + 1) (earlier.map fun p => p.2.bytes) front) {keep : ℕ → ℕ}
    (htake : f.bytes.take (max f.synced (keep current)) =
      walBytes (m.flushedSequence + 1 + operationCount front) back' ++ tail') (ht : Torn tail') :
    Logs (d.powerLoss keep) m current front back' tail' := by
  refine ⟨?_, ?_, h.positive, ?_, ht, earlier,
    { f with bytes := f.bytes.take (max f.synced (keep current)) }, ?_, hspans, htake⟩
  · rw [keys_powerLoss]
    exact h.sorted
  · intro p hp
    obtain ⟨q, hq, rfl⟩ := List.mem_map.mp hp
    have := h.synced q hq
    simp only [List.length_take]
    omega
  · rw [keys_powerLoss]
    exact h.oldest
  · -- a log that was synced as a whole keeps all its bytes
    have hcomm : (d.powerLoss keep).liveLogs m.oldestWalNumber =
        (d.liveLogs m.oldestWalNumber).map fun p =>
          (p.1, { p.2 with bytes := p.2.bytes.take (max p.2.synced (keep p.1)) }) := by
      simp only [Disk.liveLogs, Disk.powerLoss, List.filter_map]
      rfl
    rw [hcomm, hl, List.map_append, List.map_cons, List.map_nil]
    congr 1
    conv_rhs => rw [← List.map_id earlier]
    apply List.map_congr_left
    intro p hp
    have hfull : p.2.bytes.take (max p.2.synced (keep p.1)) = p.2.bytes :=
      List.take_of_length_le ((hsync p hp).ge.trans (le_max_left _ _))
    rw [hfull]
    rfl

theorem Directory.powerLoss (h : Directory d m v bs extra)
    (hbound : bs.flatten.length < maxSequenceNumber) (hcov : Covered d m c) (keep : ℕ → ℕ) :
    ∃ bs', bs' <+: bs ++ extra ∧ c ≤ operationCount bs' ∧ Directory (d.powerLoss keep) m v bs'
      [] := by
  obtain ⟨current, old, front, back, tail, hsplit, hold, hlogs⟩ := h.logs
  have henc := h.encodable_logs hsplit hold
  obtain ⟨earlier, f, j, hl, hsync, hc, hj⟩ := hcov current front back tail hlogs henc
  obtain ⟨earlier', f', hl', hspans, hbytes⟩ := hlogs.live
  obtain ⟨rfl, hlast⟩ := List.append_inj' (hl.symm.trans hl') rfl
  obtain rfl : f = f' := by simpa using hlast
  obtain ⟨i, tail', htake, htorn, hmost⟩ := take_walBytes (encodable_append.mp henc).2 hlogs.torn
    (max f.synced (keep current))
  have hi := hmost j (hj.trans (le_max_left _ _))
  refine ⟨old ++ front ++ back.take i, ?_, ?_, ?_⟩
  · rw [← hsplit]
    exact (List.prefix_append_right_inj _).mpr (List.take_prefix i back)
  · simp only [operationCount_append]
    omega
  · have hprefix : old ++ front ++ back.take i <+: bs ++ extra := by
      rw [← hsplit]
      exact (List.prefix_append_right_inj _).mpr (List.take_prefix i back)
    -- the flushed operations are those of `old`, before and after
    have hflushed : ∀ more : List WriteBatch,
        (old ++ more).flatten.take m.flushedSequence = old.flatten := by
      intro more
      rw [List.flatten_append, ← hold, operationCount, List.take_left]
    have hsame : (old ++ front ++ back.take i).flatten.take m.flushedSequence =
        bs.flatten.take m.flushedSequence := by
      have hbs : bs.flatten.take m.flushedSequence =
          (bs ++ extra).flatten.take m.flushedSequence := by
        rw [List.flatten_append, List.take_append_of_le_length h.keeps.le]
      rw [hbs, ← hsplit, List.append_assoc, List.append_assoc, hflushed, hflushed]
    have hle : m.flushedSequence ≤ (old ++ front ++ back.take i).flatten.length := by
      rw [List.append_assoc, List.flatten_append, List.length_append, ← hold, operationCount]
      omega
    refine ⟨h.manifest, h.written, h.levels, fun l t ht => (h.placed l t ht).congr rfl,
      h.unique, ?_,
      h.keeps.of_take hle hsame, ?_, ?_, current, old, front, back.take i, tail', by simp, hold,
      hlogs.powerLoss hl hsync hspans (by rw [hbytes]; exact htake) htorn⟩
    · intro n hn
      apply h.numbers n
      rw [Disk.mem_numbers] at hn ⊢
      rw [keys_powerLoss] at hn
      exact hn
    · intro _ key t o ht
      rw [hsame]
      exact h.faithful hbound key t o ht
    · rw [List.append_nil]
      obtain ⟨more, hmore⟩ := hprefix
      have := h.encodable
      rw [← hmore] at this
      exact (encodable_append.mp this).1

end Loss

theorem durable_of_reach {cfg : Config} {st : State}
    (h : (system cfg).Reach (SyncedRotations cfg) st) : st.Durable ∧ st.Guarded := by
  have hall : st.Inv cfg ∧ st.Guarded ∧ st.Durable := by
    apply h.induct
    · rintro st rfl
      exact ⟨State.inv_fresh cfg, guarded_of_reach
        (show (system cfg).Reach WithinFormat freshState from .init rfl), State.durable_fresh⟩
    · intro st a st' _ hI hg hs
      exact ⟨hI.1.step hs, hI.2.1.step hI.1 hg.1 hs, hI.2.2.step hI.1 hI.2.1 hg hs⟩
  exact ⟨hall.2.2, hall.2.1⟩

/-- When every rotation finds its log synced, the next open after any power loss succeeds.
It reads back a prefix of the batches that has every synced write in it. -/
theorem power_loss_of_reach {cfg : Config} {st : State}
    (h : (system cfg).Reach (SyncedRotations cfg) st) (keep : ℕ → ℕ) :
    ∃ d db bs extra, openDatabase (st.disk.powerLoss keep) = (d, .ok db) ∧ st.Leftover extra ∧
      bs <+: st.acknowledged ++ extra ∧ st.durable ≤ bs.length ∧
      db.lastSequence = operationCount bs ∧
      ∀ key, db.get key db.lastSequence = valueAt bs.flatten key db.lastSequence := by
  obtain ⟨hdur, hG⟩ := durable_of_reach h
  obtain ⟨extra, m, v, hextra, hdir⟩ := (inv_of_reach h).directory
  have hbound := hG.bounded [] st.leftover_nil
  rw [List.append_nil] at hbound
  obtain ⟨bs, hprefix, hc, hloss⟩ :=
    hdir.powerLoss hbound (hdur.covered m hdir.manifest) keep
  obtain ⟨d, db, hopen, hrun, _, _, hsnap, _⟩ := hloss.recover (hG.small m hdir.manifest) cfg
  rw [List.append_nil] at hrun
  refine ⟨d, db, bs, extra, hopen, hextra, hprefix, ?_, hrun.sound.count, fun key => ?_⟩
  · have htake : st.acknowledged.take st.durable <+: st.acknowledged ++ extra :=
      (List.take_prefix _ _).trans (List.prefix_append _ _)
    have := length_le_of_operationCount_le hdir.encodable htake hprefix hc
    rwa [List.length_take, Nat.min_eq_left hdur.le] at this
  · apply hrun.sound.get
    · obtain ⟨more, hmore⟩ := hprefix
      have hcount := congrArg operationCount hmore
      have := hG.bounded extra hextra
      rw [operationCount_append] at hcount
      exact (Nat.le_add_right _ _).trans_lt (hcount ▸ this)
    · simp [DB.oldestSnapshot, hsnap]

/-- Synced and unsynced writes with a flush between them. -/
theorem power_loss_after_async : ∃ st d db, (system tinyConfig).Reach (SyncedRotations tinyConfig)
    st ∧ st.durable = 2 ∧ st.acknowledged.length = 3 ∧
      openDatabase (st.disk.powerLoss fun _ => 0) = (d, .ok db) := by
  obtain ⟨st, hr, hdur, hlen⟩ := exists_run tinyConfig (SyncedRotations tinyConfig)
    (fun st => st.durable = 2 ∧ st.acknowledged.length = 3)
    ([.put .sync [1] [7], .put .sync [2] [8]] ++ Action.flush ++ [.put .async [1] [9]])
    (by decide +kernel)
  obtain ⟨d, db, _, _, hopen, _⟩ := power_loss_of_reach hr fun _ => 0
  exact ⟨st, d, db, hr, hdur, hlen, hopen⟩

/-- A synced write after an unsynced one in an older log: the power loss empties the
older log, and the next open finds that the sequence has a gap. -/
theorem power_loss_breaks_sequence : ∃ st d, (system tinyConfig).Reach (fun _ _ => True) st ∧
    st.acknowledged = [[.put [1] [7]], [.put [2] [8]]] ∧ st.durable = 2 ∧
      openDatabase (st.disk.powerLoss fun _ => 0) =
        (d, .error (.corruption "write batch sequence is not contiguous")) := by
  obtain ⟨st, hr, hack, hdur, hopen⟩ := exists_run tinyConfig (fun _ _ => True)
    (fun st => st.acknowledged = [[.put [1] [7]], [.put [2] [8]]] ∧ st.durable = 2 ∧
      (match (openDatabase (st.disk.powerLoss fun _ => 0)).2 with
      | .error e => decide (e = .corruption "write batch sequence is not contiguous")
      | .ok _ => false) = true)
    [.put .async [1] [7], .put .sync [2] [8]] (by decide +kernel)
  refine ⟨st, (openDatabase (st.disk.powerLoss fun _ => 0)).1, hr, hack, hdur, ?_⟩
  generalize openDatabase (st.disk.powerLoss fun _ => 0) = r at hopen
  obtain ⟨d, _ | _⟩ := r
  · rw [of_decide_eq_true hopen]
  · simp at hopen

end Mizu.Lsm
