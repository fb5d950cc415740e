import Mizu.Lsm.History

/-!
# What the memory of an open database holds

The operations split at two points: the tables know those up to the flushed
sequence, the immutable memtable, if there is one, holds the next stretch and the
memtable the rest. A lookup through these layers reads the history, from the
oldest snapshot on.
-/

open Multiversion

namespace Mizu.Lsm

/-- The tables hold operations up to `flushed`, in order. -/
structure Version.Keeps (v : Version) (flushed : ℕ) (ops : List Operation) : Prop where
  ordered : v.Ordered
  le : flushed ≤ ops.length
  bound : ∀ u ∈ v.updates, u.time ≤ flushed
  known : v.updates ⊆ history ops

/-- From `floor` on, the tables read like the operations up to `flushed`. -/
def Version.Faithful (v : Version) (flushed : ℕ) (ops : List Operation) (floor : ℕ) : Prop :=
  ∀ key t o, floor ≤ t →
    (Reads v.updates key t o ↔ Reads (history (ops.take flushed)) key t o)

section Version

variable {v : Version} {flushed floor : ℕ} {ops ops' : List Operation}

theorem Version.Keeps.stamped (h : v.Keeps flushed ops) : Stamped v.updates :=
  (stamped_history ops).mono h.known

theorem Version.Keeps.append (h : v.Keeps flushed ops) (ops' : List Operation) :
    v.Keeps flushed (ops ++ ops') :=
  ⟨h.ordered, by rw [List.length_append]; have := h.le; omega, h.bound,
    h.known.trans (history_append_subset ops ops')⟩

theorem Version.Faithful.mono (h : v.Faithful flushed ops floor) {floor' : ℕ}
    (hle : floor ≤ floor') : v.Faithful flushed ops floor' :=
  fun key t o ht => h key t o (hle.trans ht)

theorem Version.Faithful.append (h : v.Faithful flushed ops floor) (hle : flushed ≤ ops.length)
    (ops' : List Operation) : v.Faithful flushed (ops ++ ops') floor := by
  intro key t o ht
  rw [List.take_append_of_le_length hle]
  exact h key t o ht

/-- Every time after the flushed sequence reads the tables alike. -/
theorem Version.Faithful.of_flushed (h : v.Faithful flushed ops floor) (hk : v.Keeps flushed ops) :
    v.Faithful flushed ops flushed := by
  intro key t o ht
  have hv := hk.bound
  have hh : ∀ u ∈ history (ops.take flushed), u.time ≤ flushed := by
    intro u hu
    have := (time_le_of_mem_history hu).2
    rw [List.length_take] at this
    omega
  -- both sides are constant from the flushed sequence on, so read at a time beyond the floor
  have lift : ∀ {U : Set (Update Bytes Bytes)}, Stamped U → (∀ u ∈ U, u.time ≤ flushed) →
      (Reads U key t o ↔ Reads U key (max t floor) o) := by
    intro U hU hb
    obtain ⟨o', ho'⟩ := exists_reads U key flushed
    have h1 := ho'.of_bound hb ht
    have h2 := ho'.of_bound hb (ht.trans (le_max_left t floor))
    constructor
    · intro hr
      rw [hr.unique hU h1]
      exact h2
    · intro hr
      rw [hr.unique hU h2]
      exact h1
  rw [lift hk.stamped hv, lift (stamped_history _) hh]
  exact h key _ o (le_max_right t floor)

end Version

namespace DB

/-- The operations before this number are in the tables or the immutable memtable. -/
def base (db : DB) : ℕ :=
  match db.immutable with
  | some i => i.lastSequence
  | none => db.manifest.flushedSequence

/-- What a compaction in progress relies on and has done. -/
structure Compacting (db : DB) (p : CompactionPlan) (todo : List (List Entry)) (done : List Table) :
    Prop where
  version : p.inputVersion = db.version
  fits : p.Fits
  floor : p.oldestSnapshot ≤ db.oldestSnapshot
  outputs : ∃ built, p.Outputs (built ++ todo) ∧ Built done built

structure Sound (db : DB) (ops : List Operation) : Prop where
  count : db.lastSequence = ops.length
  keeps : db.version.Keeps db.manifest.flushedSequence ops
  memtable : db.memtable.Holds db.base (ops.drop db.base)
  immutable : ∀ i, db.immutable = some i →
    db.manifest.flushedSequence < i.lastSequence ∧ i.lastSequence ≤ ops.length ∧
      i.memtable.Holds db.manifest.flushedSequence
        ((ops.take i.lastSequence).drop db.manifest.flushedSequence)
  snapshots : ∀ s ∈ db.snapshots, s ≤ db.lastSequence
  faithful : ops.length < maxSequenceNumber →
    db.version.Faithful db.manifest.flushedSequence ops db.oldestSnapshot
  compacting : ∀ p todo b done, db.job = .compacting p todo b done → db.Compacting p todo done
  building : ∀ t, db.job = .flushBuilt t →
    ∃ i, db.immutable = some i ∧ t.reader = i.memtable.run ∧ t.Described

variable {db db' : DB} {ops : List Operation}

theorem Sound.congr (h : db.Sound ops) (hseq : db'.lastSequence = db.lastSequence)
    (hv : db'.version = db.version) (hm : db'.manifest = db.manifest)
    (hs : db'.snapshots = db.snapshots) (hmem : db'.memtable = db.memtable)
    (hi : db'.immutable = db.immutable) (hj : db'.job = db.job) : db'.Sound ops := by
  obtain ⟨⟩ := db'
  subst hseq hv hm hs hmem hi hj
  exact ⟨h.count, h.keeps, h.memtable, h.immutable, h.snapshots, h.faithful,
    fun p todo b done hc => ⟨(h.compacting p todo b done hc).version,
      (h.compacting p todo b done hc).fits, (h.compacting p todo b done hc).floor,
      (h.compacting p todo b done hc).outputs⟩, h.building⟩

/-- A job that is neither a compaction nor a finished table needs nothing. -/
theorem Sound.setJob (h : db.Sound ops) {job : Job}
    (hc : ∀ p todo b done, job = .compacting p todo b done → db.Compacting p todo done)
    (hb : ∀ t, job = .flushBuilt t →
      ∃ i, db.immutable = some i ∧ t.reader = i.memtable.run ∧ t.Described) :
    ({ db with job := job } : DB).Sound ops :=
  ⟨h.count, h.keeps, h.memtable, h.immutable, h.snapshots, h.faithful,
    fun p todo b done hj => ⟨(hc p todo b done hj).version, (hc p todo b done hj).fits,
      (hc p todo b done hj).floor, (hc p todo b done hj).outputs⟩, hb⟩

theorem Sound.base_le (h : db.Sound ops) :
    db.manifest.flushedSequence ≤ db.base ∧ db.base ≤ ops.length := by
  unfold base
  cases hi : db.immutable with
  | none => exact ⟨le_rfl, h.keeps.le⟩
  | some i =>
    obtain ⟨hlt, hle, _⟩ := h.immutable i hi
    exact ⟨hlt.le, hle⟩

/-! ## Snapshots -/

theorem oldestSnapshot_le (h : ∀ s ∈ db.snapshots, s ≤ db.lastSequence) :
    db.oldestSnapshot ≤ db.lastSequence := by
  unfold oldestSnapshot
  cases hm : db.snapshots.min? with
  | none => exact le_rfl
  | some s => exact h s (List.min?_mem hm)

theorem oldestSnapshot_le_of_mem {s : ℕ} (hs : s ∈ db.snapshots) : db.oldestSnapshot ≤ s := by
  unfold oldestSnapshot
  cases hm : db.snapshots.min? with
  | none =>
    rw [List.min?_eq_none_iff] at hm
    simp [hm] at hs
  | some m => exact (List.min?_eq_some_iff.mp hm).2 s hs

/-- The oldest snapshot never goes back: new ones start at the last sequence. -/
theorem le_oldestSnapshot {n : ℕ} (hlast : n ≤ db.lastSequence) (h : ∀ s ∈ db.snapshots, n ≤ s) :
    n ≤ db.oldestSnapshot := by
  unfold oldestSnapshot
  cases hm : db.snapshots.min? with
  | none => exact hlast
  | some s => exact h s (List.min?_mem hm)

/-- A change of snapshots or of the last sequence that does not lower the floor. -/
theorem Sound.setSnapshots (h : db.Sound ops) {snapshots : List ℕ}
    (hle : ∀ s ∈ snapshots, s ≤ db.lastSequence) (hfloor : ∀ s ∈ snapshots, db.oldestSnapshot ≤ s) :
    ({ db with snapshots := snapshots } : DB).Sound ops := by
  have hmono : db.oldestSnapshot ≤ ({ db with snapshots := snapshots } : DB).oldestSnapshot :=
    le_oldestSnapshot (oldestSnapshot_le h.snapshots) hfloor
  exact ⟨h.count, h.keeps, h.memtable, h.immutable, hle, fun hlt => (h.faithful hlt).mono hmono,
    fun p todo b done hj => ⟨(h.compacting p todo b done hj).version,
      (h.compacting p todo b done hj).fits, (h.compacting p todo b done hj).floor.trans hmono,
      (h.compacting p todo b done hj).outputs⟩, h.building⟩

/-! ## Reading -/

/-- Everything the database holds, newest layer first. -/
def updates (db : DB) : Set (Update Bytes Bytes) :=
  db.memtable.run.updates ∪
    ((db.immutable.map fun i => i.memtable.run.updates).getD ∅ ∪ db.version.updates)

theorem get_eq (db : DB) (key : Bytes) (s : ℕ) : db.get key s =
    ((db.memtable.get key s).orElse
      ((db.immutable.elim Answer.absent fun i => i.memtable.get key s).orElse
        (db.version.get key s))).toOption := by
  unfold get
  cases db.memtable.get key s with
  | absent =>
    cases hi : db.immutable with
    | none => cases db.version.get key s <;> rfl
    | some i =>
      simp only [Option.map_some, Option.getD_some, Option.elim_some, Answer.absent_orElse]
      cases i.memtable.get key s with
      | absent => cases db.version.get key s <;> rfl
      | deleted => rfl
      | value v => rfl
  | deleted => rfl
  | value v => rfl

section

variable (h : db.Sound ops)

include h

/-- What the memtables hold together: the operations that are not flushed. -/
theorem Sound.memtables :
    db.memtable.run.updates ∪ (db.immutable.map fun i => i.memtable.run.updates).getD ∅ =
      contents (entriesFrom (db.manifest.flushedSequence + 1)
        (ops.drop db.manifest.flushedSequence)) := by
  rw [h.memtable.updates]
  unfold base
  cases hi : db.immutable with
  | none => simp
  | some i =>
    obtain ⟨hlt, hle, hholds⟩ := h.immutable i hi
    have hsplit : ops.drop db.manifest.flushedSequence =
        (ops.take i.lastSequence).drop db.manifest.flushedSequence ++ ops.drop i.lastSequence := by
      conv_lhs => rw [← List.take_append_drop i.lastSequence ops]
      rw [List.drop_append_of_le_length (by rw [List.length_take]; omega)]
    have hlen : ((ops.take i.lastSequence).drop db.manifest.flushedSequence).length =
        i.lastSequence - db.manifest.flushedSequence := by
      rw [List.length_drop, List.length_take]
      omega
    simp only [Option.map_some, Option.getD_some]
    rw [hholds.updates, hsplit, entriesFrom_append, contents_append, hlen,
      show db.manifest.flushedSequence + 1 + (i.lastSequence - db.manifest.flushedSequence) =
        i.lastSequence + 1 by omega]
    exact Set.union_comm _ _

theorem Sound.updates_eq :
    db.updates = contents (entriesFrom (db.manifest.flushedSequence + 1)
      (ops.drop db.manifest.flushedSequence)) ∪ db.version.updates := by
  rw [← h.memtables, updates, Set.union_assoc]

theorem Sound.updates_subset : db.updates ⊆ history ops := by
  rw [h.updates_eq]
  apply Set.union_subset _ h.keeps.known
  conv_rhs => rw [history_split ops _ h.keeps.le]
  exact Set.subset_union_left

theorem Sound.stamped : Stamped db.updates :=
  (stamped_history ops).mono h.updates_subset

/-- The layered lookup answers for all the layers. -/
theorem Sound.get_reads (key : Bytes) (s : ℕ) :
    Reads db.updates key s (db.get key s) := by
  rw [get_eq]
  refine ⟨_, ?_, rfl⟩
  have hv := h.keeps.ordered.get_answers key s
  have hbound := h.keeps.bound
  have hmem : ∀ {B : Set (Update Bytes Bytes)}, (∀ u ∈ B, u.time ≤ db.base) →
      Newer db.memtable.run.updates B := by
    intro B hB
    rw [h.memtable.updates]
    exact newer_entriesFrom hB _
  have hbase := h.base_le
  cases hi : db.immutable with
  | none =>
    rw [updates, hi]
    simp only [Option.map_none, Option.getD_none, Option.elim_none, Answer.absent_orElse,
      Set.empty_union]
    apply (db.memtable.run.lookup_answers key s).union (hmem _) hv
    intro u hu
    exact (hbound u hu).trans hbase.1
  | some i =>
    obtain ⟨hlt, hle, hholds⟩ := h.immutable i hi
    rw [updates, hi]
    have hlow : Newer i.memtable.run.updates db.version.updates := by
      rw [hholds.updates]
      exact newer_entriesFrom hbound _
    apply (db.memtable.run.lookup_answers key s).union _
      ((i.memtable.run.lookup_answers key s).union hlow hv)
    apply hmem
    rintro u (hu | hu)
    · rw [hholds.updates] at hu
      obtain ⟨e, he, rfl⟩ := hu
      have hseq := (sequence_of_mem_entriesFrom he).2
      rw [List.length_drop, List.length_take] at hseq
      simp only [Entry.update_time, base, hi]
      omega
    · exact (hbound u hu).trans hbase.1

/-- A lookup reads the history. -/
theorem Sound.get (hlt : ops.length < maxSequenceNumber) {s : ℕ}
    (hs : db.oldestSnapshot ≤ s) (key : Bytes) : db.get key s = valueAt ops key s := by
  have hold : ∀ u ∈ history (ops.take db.manifest.flushedSequence),
      u.time ≤ db.manifest.flushedSequence := by
    intro u hu
    have := (time_le_of_mem_history hu).2
    rw [List.length_take] at this
    omega
  have hreads := h.get_reads key s
  have hst := h.stamped
  rw [h.updates_eq] at hreads hst
  have hspec := hreads.union_congr (newer_entriesFrom h.keeps.bound _) (newer_entriesFrom hold _)
    hst fun o => (h.faithful hlt key s o hs).mp
  rw [← history_split ops _ h.keeps.le] at hspec
  exact hspec.unique (stamped_history ops) (reads_valueAt ops key s)

/-! ## Writing -/

theorem Sound.apply (batch : WriteBatch) :
    ({ db with
        memtable := applyBatch db.memtable (db.lastSequence + 1) batch
        lastSequence := db.lastSequence + batch.length } : DB).Sound (ops ++ batch) := by
  have hbase := h.base_le
  have hmono : db.oldestSnapshot ≤ ({ db with
      memtable := applyBatch db.memtable (db.lastSequence + 1) batch
      lastSequence := db.lastSequence + batch.length } : DB).oldestSnapshot := by
    apply le_oldestSnapshot
    · exact (oldestSnapshot_le h.snapshots).trans (Nat.le_add_right _ _)
    · exact fun s hs => oldestSnapshot_le_of_mem hs
  have hholds := h.memtable.applyBatch batch
  rw [List.length_drop, show db.base + (ops.length - db.base) + 1 = db.lastSequence + 1 by
    rw [h.count]; omega] at hholds
  refine ⟨?_, h.keeps.append batch, ?_, ?_, ?_, ?_, ?_, h.building⟩
  · simp only [List.length_append, h.count]
  · change MemTable.Holds _ db.base ((ops ++ batch).drop db.base)
    rw [List.drop_append_of_le_length hbase.2]
    exact hholds
  · intro i hi
    obtain ⟨hlt, hle, him⟩ := h.immutable i hi
    refine ⟨hlt, ?_, ?_⟩
    · rw [List.length_append]
      omega
    · rw [List.take_append_of_le_length hle]
      exact him
  · intro s hs
    exact (h.snapshots s hs).trans (Nat.le_add_right _ _)
  · intro hlt
    rw [List.length_append] at hlt
    exact ((h.faithful (by omega)).mono hmono).append h.keeps.le batch
  · intro p todo b done hj
    have hc := h.compacting p todo b done hj
    exact ⟨hc.version, hc.fits, hc.floor.trans hmono, hc.outputs⟩

/-- The memtable becomes immutable and an empty one takes its place. -/
theorem Sound.rotate (hi : db.immutable = none) (hne : db.memtable.isEmpty = false)
    {n w nf : ℕ} : ({ db with
        nextFileNumber := nf
        immutable := some ⟨db.memtable, n, db.lastSequence⟩
        memtable := .empty
        walNumber := w
        walError := none } : DB).Sound ops := by
  have hbase : db.base = db.manifest.flushedSequence := by simp [base, hi]
  have hmem := h.memtable
  rw [hbase] at hmem
  have hlt : db.manifest.flushedSequence < ops.length := by
    by_contra hge
    have hnil : db.memtable.added = [] := by
      rw [show db.memtable.added = _ from hmem, List.drop_eq_nil_of_le (by omega)]
      rfl
    simp [MemTable.isEmpty, hnil] at hne
  have hcount := h.count
  refine ⟨hcount, h.keeps, ?_, ?_, h.snapshots, h.faithful, ?_, ?_⟩
  · change MemTable.Holds .empty db.lastSequence (ops.drop db.lastSequence)
    rw [hcount, List.drop_length]
    rfl
  · intro i hi'
    cases hi'
    refine ⟨by simpa [hcount] using hlt, by simp [hcount], ?_⟩
    simp only [hcount, List.take_length]
    exact hmem
  · intro p todo b done hj
    have hc := h.compacting p todo b done hj
    exact ⟨hc.version, hc.fits, hc.floor, hc.outputs⟩
  · intro t ht
    obtain ⟨i, hi', _⟩ := h.building t ht
    simp [hi] at hi'

end

end DB

/-! ## Flushing -/

section Flush

variable {v : Version} {t : Table}

theorem withLevel0Table_level (v : Version) (t : Table) (l : Fin 3) :
    (v.withLevel0Table t).level l = if l = 0 then t :: v.level 0 else v.level l := by
  by_cases h : l = 0
  · subst h
    simp [Version.withLevel0Table]
  · simp [Version.withLevel0Table, h]

theorem updates_withLevel0Table (v : Version) (t : Table) :
    (v.withLevel0Table t).updates = t.reader.updates ∪ v.updates := by
  rw [Version.updates_eq, Version.updates_eq]
  simp only [withLevel0Table_level, if_true, tableEntries_cons, contents_append]
  simp [Run.updates, Set.union_assoc]

/-- A table newer than everything goes to the front of level 0. -/
theorem Version.Ordered.withLevel0Table (h : v.Ordered) (ht : t.Described)
    (hnew : ∀ x ∈ t.reader.entries, ∀ u ∈ v.updates, u.time < x.key.sequence) :
    (v.withLevel0Table t).Ordered := by
  have hold : ∀ l, ∀ y ∈ tableEntries (v.level l), ∀ x ∈ t.reader.entries,
      y.key.sequence < x.key.sequence := by
    intro l y hy x hx
    exact hnew x hx y.update ⟨l, y, hy, rfl⟩
  refine ⟨?_, ?_, ?_, ?_⟩
  · intro l s hs
    rw [withLevel0Table_level] at hs
    split at hs
    · rcases List.mem_cons.mp hs with rfl | hs
      · exact ht
      · exact h.described 0 s hs
    · exact h.described l s hs
  · refine List.pairwise_cons.mpr ⟨?_, h.newest⟩
    intro s hs x hx y hy
    exact hold 0 y (mem_tableEntries.mpr ⟨s, hs, hy⟩) x hx
  · intro l hl
    rw [withLevel0Table_level, if_neg hl]
    exact h.disjoint l hl
  · intro l m hlm
    have hm : m ≠ 0 := (Fin.pos_iff_ne_zero.mp (lt_of_le_of_lt (Fin.zero_le l) hlm))
    rw [withLevel0Table_level, withLevel0Table_level, if_neg hm]
    split
    · rename_i hl
      subst hl
      rw [tableEntries_cons, contents_append]
      refine Newer.union_left ?_ (h.newer 0 m hlm)
      rintro _ ⟨x, hx, rfl⟩ _ ⟨y, hy, rfl⟩ _
      exact hold m y hy x hx
    · exact h.newer l m hlm

end Flush

namespace DB

variable {db : DB} {ops : List Operation}

/-- The flush publishes its table and drops the immutable memtable. -/
theorem Sound.flush (h : db.Sound ops) {t : Table} (hj : db.job = .flushBuilt t)
    {i : ImmutableMemTable} (hi : db.immutable = some i) {job : Job}
    (hjob : ∀ p todo b done, job ≠ .compacting p todo b done) (hjob' : ∀ t, job ≠ .flushBuilt t) :
    ({ db with
        manifest := (flushCandidate db i t).1
        version := (flushCandidate db i t).2
        immutable := none
        job := job } : DB).Sound ops := by
  obtain ⟨i', hi', hreader, hdesc⟩ := h.building t hj
  obtain rfl : i = i' := Option.some.inj (hi.symm.trans hi')
  obtain ⟨hlt, hle, hholds⟩ := h.immutable i hi
  have hupd := hholds.updates
  rw [← hreader] at hupd
  have hmemb : ∀ x ∈ t.reader.entries, db.manifest.flushedSequence < x.key.sequence ∧
      x.key.sequence ≤ i.lastSequence := by
    intro x hx
    rw [hreader] at hx
    have := sequence_of_mem_entriesFrom (hholds.mem.mp hx)
    rw [List.length_drop, List.length_take] at this
    omega
  have hsplit := history_split (ops.take i.lastSequence) db.manifest.flushedSequence
    (by rw [List.length_take]; omega)
  rw [List.take_take, Nat.min_eq_left hlt.le] at hsplit
  have hbound' : ∀ u ∈ history (ops.take db.manifest.flushedSequence),
      u.time ≤ db.manifest.flushedSequence := by
    intro u hu
    have := (time_le_of_mem_history hu).2
    rw [List.length_take] at this
    omega
  have hkeeps : (db.version.withLevel0Table t).Keeps i.lastSequence ops := by
    refine ⟨?_, hle, ?_, ?_⟩
    · apply h.keeps.ordered.withLevel0Table hdesc
      intro x hx u hu
      exact (h.keeps.bound u hu).trans_lt (hmemb x hx).1
    · rw [updates_withLevel0Table]
      rintro u (⟨x, hx, rfl⟩ | hu)
      · exact (hmemb x hx).2
      · exact (h.keeps.bound u hu).trans hlt.le
    · rw [updates_withLevel0Table, hupd]
      apply Set.union_subset _ h.keeps.known
      have := history_append_subset (ops.take i.lastSequence) (ops.drop i.lastSequence)
      rw [List.take_append_drop, hsplit] at this
      exact Set.subset_union_left.trans this
  refine ⟨h.count, hkeeps, ?_, by simp, h.snapshots, ?_, ?_, ?_⟩
  · have hmem := h.memtable
    simp only [base, hi] at hmem
    exact hmem
  · intro hmax key s o hs
    have hfaith := h.faithful hmax key s
    change Reads (db.version.withLevel0Table t).updates key s o ↔
      Reads (history (ops.take i.lastSequence)) key s o
    rw [updates_withLevel0Table, hupd, hsplit]
    have hst := hkeeps.stamped
    rw [updates_withLevel0Table, hupd] at hst
    have hst' := stamped_history (ops.take i.lastSequence)
    rw [hsplit] at hst'
    have hn := newer_entriesFrom h.keeps.bound
      ((ops.take i.lastSequence).drop db.manifest.flushedSequence)
    have hn' := newer_entriesFrom hbound'
      ((ops.take i.lastSequence).drop db.manifest.flushedSequence)
    constructor
    · exact fun hr => hr.union_congr hn hn' hst fun o => (hfaith o hs).mp
    · exact fun hr => hr.union_congr hn' hn hst' fun o => (hfaith o hs).mpr
  · exact fun p todo b done hj => absurd hj (hjob p todo b done)
  · exact fun t ht => absurd ht (hjob' t)

/-! ## Compacting -/

/-- A plan that was picked from the current version is carried out. -/
theorem Sound.pick (h : db.Sound ops) {o : CompactionOptions} (ho : 0 < o.outputBytes) (z : Sizing)
    {p : CompactionPlan} (hp : pickCompaction db.version db.oldestSnapshot o = some p) :
    ∃ chunks, buildCompactionTables z o p = .ok chunks ∧ db.Compacting p chunks [] := by
  obtain ⟨hv, hs, hfits⟩ := CompactionPlan.fits_of_pick h.keeps.ordered hp
  obtain ⟨chunks, hbuild, hout⟩ := hfits.build (by rw [hv]; exact h.keeps.ordered) z ho
  refine ⟨chunks, hbuild, hv, hfits, hs.le, [], hout, rfl, by simp⟩

/-- The compaction publishes its outputs. -/
theorem Sound.compact (h : db.Sound ops) {p : CompactionPlan} {b : Option ℕ} {done : List Table}
    (hj : db.job = .compacting p [] b done) {job : Job}
    (hjob : ∀ p todo b done, job ≠ .compacting p todo b done) (hjob' : ∀ t, job ≠ .flushBuilt t) :
    ({ db with
        manifest := (compactionCandidate db p done).1
        version := (compactionCandidate db p done).2
        job := job } : DB).Sound ops := by
  obtain ⟨hv, hfits, hfloor, built, hout, hbuilt⟩ := h.compacting p [] b done hj
  rw [List.append_nil] at hout
  have hord : p.inputVersion.Ordered := by
    rw [hv]
    exact h.keeps.ordered
  have hsub := hfits.updates_subset hout hbuilt
  rw [hv] at hsub
  refine ⟨h.count, ⟨hfits.ordered hord hout hbuilt, h.keeps.le, ?_, ?_⟩, h.memtable, h.immutable,
    h.snapshots, ?_, ?_, ?_⟩
  · exact fun u hu => h.keeps.bound u (hsub hu)
  · exact hsub.trans h.keeps.known
  · intro hmax key s o hs
    have hold : p.oldestSnapshot < maxSequenceNumber := by
      have := oldestSnapshot_le h.snapshots
      have := h.count
      omega
    have hcol := hfits.collects hord hout hbuilt (by rw [hv]; exact h.keeps.stamped) hold
    have hreads := hcol.reads (k := key) (o := o) (by rw [hv]; exact h.keeps.stamped)
        (hfloor.trans hs)
    rw [hv] at hreads
    exact hreads.symm.trans (h.faithful hmax key s o hs)
  · exact fun p todo b done hj => absurd hj (hjob p todo b done)
  · exact fun t ht => absurd ht (hjob' t)

end DB

end Mizu.Lsm
