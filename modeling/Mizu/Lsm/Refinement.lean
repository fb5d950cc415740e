import Mizu.Lsm.Iterator
import Mizu.Lsm.Structure

/-!
# Reads

The database is a multi-version map: a lookup at a visible sequence reads the
history of its operations, and an iterator shows the same pairs whatever happens to
the database while it is open.
-/

open Multiversion

namespace Mizu.Lsm

/-! ## Lookups -/

/-- A lookup at the last sequence or at a snapshot returns what the last operation
on the key up to there left. -/
theorem get_of_reach {cfg : Config} {st : State} {db : DB}
    (h : (system cfg).Reach (fun _ _ => True) st) (hd : st.db = some db)
    (hlt : db.lastSequence < maxSequenceNumber) {s : ℕ}
    (hs : s = db.lastSequence ∨ s ∈ db.snapshots) (key : Bytes) :
    db.lastSequence = st.acknowledged.flatten.length ∧
      db.get key s = valueAt st.acknowledged.flatten key s := by
  obtain ⟨extra, _, hrun⟩ := running_of_reach h hd
  have hsound := hrun.sound
  have hfloor : db.oldestSnapshot ≤ s := by
    rcases hs with rfl | hs
    · exact DB.oldestSnapshot_le hsound.snapshots
    · exact DB.oldestSnapshot_le_of_mem hs
  exact ⟨hsound.count, hsound.get (hsound.count ▸ hlt) hfloor key⟩

/-- A snapshot from before an overwrite, a deletion, flushes and a compaction. -/
theorem get_after_compaction : ∃ st db, (system tinyConfig).Reach (fun _ _ => True) st ∧
    st.db = some db ∧ 1 ∈ db.snapshots ∧ (db.version.level 1).length = 1 ∧
      db.get [1] 1 = some [7] ∧ db.get [1] db.lastSequence = none := by
  obtain ⟨st, hr, hP⟩ := exists_run tinyConfig (fun _ _ => True)
    (fun st => ∃ db ∈ st.db, (1 ∈ db.snapshots ∧ (db.version.level 1).length = 1 ∧
      db.lastSequence < maxSequenceNumber) ∧
      valueAt st.acknowledged.flatten [1] 1 = some [7] ∧
      valueAt st.acknowledged.flatten [1] db.lastSequence = none)
    (.put .async [1] [7] :: .newSnapshot ::
      ([.put .sync [1] [8], .write .async [.erase [1]] ⟨1000, true⟩, .put .sync [2] [9],
        .put .sync [3] [9]].flatMap fun a => a :: Action.flush) ++ Action.compaction)
    (by decide +kernel)
  obtain ⟨db, hd, ⟨hsnap, hlevel, hlt⟩, hold, hnew⟩ := hP
  refine ⟨st, db, hr, hd, hsnap, hlevel, ?_, ?_⟩
  · rw [(get_of_reach hr hd hlt (Or.inr hsnap) [1]).2, hold]
  · rw [(get_of_reach hr hd hlt (Or.inl rfl) [1]).2, hnew]

/-! ## Steps while the database is open -/

/-- What a step does to the memory of a process that goes on. -/
inductive Goes (cfg : Config) (d : Disk) (db : DB) : Disk → DB → Prop
  | same : Goes cfg d db d db
  | snapshots (snapshots : List ℕ) : Goes cfg d db d { db with snapshots := snapshots }
  | work {d' : Disk} {db' : DB} : Work cfg d db d' db' → Goes cfg d db d' db'
  | write {d₁ d' : Disk} {db₁ db' : DB} {batch : WriteBatch} {ok : Bool} :
      Room cfg d db d₁ db₁ → Logging batch d₁ db₁ ok d' db' → Goes cfg d db d' db'

section Goes

variable {cfg : Config} {st st' : State} {db db' : DB} {d d' : Disk}

theorem goes_of_step {a : Action} (hnext : db.nextFileNumber ≤ maxFileNumber)
    (hd : st.db = some db) (hd' : st'.db = some db') (hs : step cfg st a = some st') :
    Goes cfg st.disk db st'.disk db' := by
  cases turn_of_step hs with
  | write hd₁ _ hw =>
    cases hd.symm.trans hd₁
    cases hd'
    rcases write_cases hw with ⟨rfl, rfl, _⟩ | ⟨_, d₂, db₂, hroom, hlog⟩
    · exact .same
    · exact .write (room_of_makeRoom hroom).2 (logging_of_logAndApply hlog).1
  | newSnapshot hd₁ =>
    cases hd.symm.trans hd₁
    cases hd'
    exact .snapshots _
  | releaseSnapshot hd₁ =>
    cases hd.symm.trans hd₁
    cases hd'
    exact .snapshots _
  | background hf hd₁ hr =>
    cases hd.symm.trans hd₁
    cases hd'
    exact .work (work_of_operation hf hnext hr)
  | opened hd₁ _ => simp [hd] at hd₁
  | ended | cutRoom | cutWrite | refused | interrupted => simp at hd'

theorem Work.frame (h : Work cfg d db d' db') : db'.memtable = db.memtable ∧
    db'.lastSequence = db.lastSequence ∧ db'.walNumber = db.walNumber := by
  cases h <;> exact ⟨rfl, rfl, rfl⟩

/-- While no new log is opened the memtable only grows, by later operations. -/
theorem Goes.memtable {bs extra : List WriteBatch} (hr : db.Running cfg d bs extra)
    (h : Goes cfg d db d' db') : db.lastSequence ≤ db'.lastSequence ∧
      (db'.walNumber = db.walNumber → db.memtable.run.entries ⊆ db'.memtable.run.entries ∧
        ∀ x ∈ db'.memtable.run.entries, x ∈ db.memtable.run.entries ∨
          db.lastSequence < x.key.sequence) := by
  have hself : db.memtable.run.entries ⊆ db.memtable.run.entries ∧
      ∀ x ∈ db.memtable.run.entries, x ∈ db.memtable.run.entries ∨
        db.lastSequence < x.key.sequence := ⟨List.Subset.refl _, fun x hx => Or.inl hx⟩
  cases h with
  | same => exact ⟨le_rfl, fun _ => hself⟩
  | snapshots ss => exact ⟨le_rfl, fun _ => hself⟩
  | work hw =>
    obtain ⟨hm, hl, _⟩ := hw.frame
    rw [hm, hl]
    exact ⟨le_rfl, fun _ => hself⟩
  | @write d₁ _ db₁ _ batch ok hroom hlog =>
    cases hroom with
    | rotated hfull hi hnum =>
      -- the new log has a number that no file had before
      obtain ⟨_, _, _, _, _, _, hlogs, _⟩ := hr.logs
      have hlt := hr.filed.numbers _ (Disk.mem_numbers.mpr (Or.inl hlogs.current_mem))
      have hwal : db'.walNumber = db.nextFileNumber + 1 := by cases hlog <;> rfl
      have hseq : db.lastSequence ≤ db'.lastSequence := by
        cases hlog <;> first | exact le_rfl | exact Nat.le_add_right _ _
      exact ⟨hseq, fun heq => absurd (hwal.symm.trans heq) (by omega)⟩
    | enough hfits =>
      cases hlog with
      | refused => exact ⟨le_rfl, fun _ => hself⟩
      | torn => exact ⟨le_rfl, fun _ => hself⟩
      | unsynced => exact ⟨le_rfl, fun _ => hself⟩
      | applied payload sync henc herr =>
        refine ⟨Nat.le_add_right _ _, fun _ => ?_⟩
        have hholds := hr.sound.memtable
        have hholds' := (hr.sound.apply batch).memtable
        have hbase := hr.sound.base_le
        change MemTable.Holds _ db.base ((bs.flatten ++ batch).drop db.base) at hholds'
        rw [List.drop_append_of_le_length hbase.2] at hholds'
        have hmem : ∀ x, x ∈ (applyBatch db.memtable (db.lastSequence + 1) batch).run.entries ↔
            x ∈ db.memtable.run.entries ∨ x ∈ entriesFrom (db.lastSequence + 1) batch := by
          intro x
          rw [hholds'.mem, hholds.mem, entriesFrom_append, List.mem_append, List.length_drop,
            show db.base + 1 + (bs.flatten.length - db.base) = db.lastSequence + 1 by
              rw [hr.sound.count]; omega]
        refine ⟨fun x hx => (hmem x).mpr (Or.inl hx), fun x hx => ?_⟩
        rcases (hmem x).mp hx with hx | hx
        · exact Or.inl hx
        · have := (sequence_of_mem_entriesFrom hx).1
          exact Or.inr (by omega)

end Goes

/-! ## Creating an iterator -/

namespace DB.Running

variable {cfg : Config} {d : Disk} {db : DB} {bs extra : List WriteBatch} {s : ℕ} {x : Entry}

/-- The entries of the memtable come after all others. -/
theorem base_lt_of_memtable (h : db.Running cfg d bs extra) (hx : x ∈ db.memtable.run.entries) :
    db.base < x.key.sequence ∧ x.key.sequence ≤ db.lastSequence := by
  have := sequence_of_mem_entriesFrom (h.sound.memtable.mem.mp hx)
  rw [List.length_drop] at this
  rw [h.sound.count]
  omega

theorem sequence_of_immutable (h : db.Running cfg d bs extra) {i : ImmutableMemTable}
    (hi : db.immutable = some i) (hx : x ∈ i.memtable.run.entries) :
    db.manifest.flushedSequence < x.key.sequence ∧ x.key.sequence ≤ db.base := by
  obtain ⟨_, _, hholds⟩ := h.sound.immutable i hi
  have := sequence_of_mem_entriesFrom (hholds.mem.mp hx)
  rw [List.length_drop, List.length_take] at this
  simp only [DB.base, hi]
  omega

theorem sequence_of_table (h : db.Running cfg d bs extra) {l : Fin 3}
    (hx : x ∈ tableEntries (db.version.level l)) :
    x.key.sequence ≤ db.manifest.flushedSequence :=
  h.sound.keeps.bound x.update ⟨l, x, hx, rfl⟩

theorem mem_tables {c : List Entry} (hc : c ∈ (db.version.level 0 ++ (db.version.level 1 ++
    db.version.level 2)).map fun t => t.reader.entries) (hx : x ∈ c) :
    ∃ l, x ∈ tableEntries (db.version.level l) := by
  obtain ⟨t, ht, rfl⟩ := List.mem_map.mp hc
  simp only [List.mem_append] at ht
  rcases ht with ht | ht | ht
  · exact ⟨0, mem_tableEntries.mpr ⟨t, ht, hx⟩⟩
  · exact ⟨1, mem_tableEntries.mpr ⟨t, ht, hx⟩⟩
  · exact ⟨2, mem_tableEntries.mpr ⟨t, ht, hx⟩⟩

theorem mem_layers (h : db.Running cfg d bs extra) {c : List Entry}
    (hc : c ∈ (DBIterator.create db s).layers) (hx : x ∈ c) :
    x.key.sequence ≤ db.base ∧ x.update ∈ db.updates := by
  rcases List.mem_append.mp hc with hc | hc
  · obtain ⟨i, hi, rfl⟩ : ∃ i, db.immutable = some i ∧ i.memtable.run.entries = c := by
      simpa using hc
    refine ⟨(h.sequence_of_immutable hi hx).2, Or.inr (Or.inl ?_)⟩
    rw [hi]
    exact ⟨x, hx, rfl⟩
  · obtain ⟨l, hl⟩ := mem_tables hc hx
    exact ⟨(h.sequence_of_table hl).trans h.sound.base_le.1, Or.inr (Or.inr ⟨l, x, hl, rfl⟩)⟩

/-- The sources of the iterator hold what the database holds. -/
theorem mem_updates (h : db.Running cfg d bs extra) (u : Update Bytes Bytes) : u ∈ db.updates ↔
    ∃ x, (∃ c ∈ (DBIterator.create db s).sources, x ∈ c) ∧ x.update = u := by
  constructor
  · rintro (⟨x, hx, rfl⟩ | hu | ⟨l, x, hx, rfl⟩)
    · exact ⟨x, ⟨_, List.mem_cons_self, hx⟩, rfl⟩
    · cases hi : db.immutable with
      | none => simp [hi] at hu
      | some i =>
        rw [hi] at hu
        obtain ⟨x, hx, rfl⟩ := hu
        refine ⟨x, ⟨i.memtable.run.entries, ?_, hx⟩, rfl⟩
        simp [DBIterator.sources, DBIterator.create, hi]
    · obtain ⟨t, ht, hxt⟩ := mem_tableEntries.mp hx
      refine ⟨x, ⟨t.reader.entries, ?_, hxt⟩, rfl⟩
      apply List.mem_cons_of_mem
      apply List.mem_append_right
      apply List.mem_map.mpr ⟨t, ?_, rfl⟩
      fin_cases l
      · exact List.mem_append_left _ ht
      · exact List.mem_append_right _ (List.mem_append_left _ ht)
      · exact List.mem_append_right _ (List.mem_append_right _ ht)
  · rintro ⟨x, ⟨c, hc, hx⟩, rfl⟩
    rcases List.mem_cons.mp hc with rfl | hc
    · exact Or.inl ⟨x, hx, rfl⟩
    · exact (h.mem_layers hc hx).2

theorem distinct_sources (h : db.Running cfg d bs extra) :
    MergingIterator.Distinct (DBIterator.create db s).sources := by
  have hv := h.sound.keeps.ordered
  have hcross : ∀ l k, l < k → ∀ a ∈ db.version.level l, ∀ b ∈ db.version.level k,
      ∀ x ∈ a.reader.entries, ∀ y ∈ b.reader.entries, x.key ≠ y.key := by
    intro l k hlk a ha b hb x hx y hy heq
    have := hv.newer l k hlk x.update ⟨x, mem_tableEntries.mpr ⟨a, ha, hx⟩, rfl⟩ y.update
      ⟨y, mem_tableEntries.mpr ⟨b, hb, hy⟩, rfl⟩ (by simp [heq])
    simp [heq] at this
  refine List.pairwise_cons.mpr ⟨?_, List.pairwise_append.mpr ⟨?_, ?_, ?_⟩⟩
  · intro c hc x hx y hy heq
    have h1 := (h.base_lt_of_memtable hx).1
    have h2 := (h.mem_layers (s := s) hc hy).1
    rw [heq] at h1
    omega
  · cases db.immutable <;> simp
  · rw [List.pairwise_map]
    refine List.pairwise_append.mpr ⟨CompactionPlan.level_distinct hv 0,
      List.pairwise_append.mpr ⟨CompactionPlan.level_distinct hv 1,
        CompactionPlan.level_distinct hv 2, hcross 1 2 (by decide)⟩, ?_⟩
    intro a ha b hb
    rcases List.mem_append.mp hb with hb | hb
    · exact hcross 0 1 (by decide) a ha b hb
    · exact hcross 0 2 (by decide) a ha b hb
  · intro a ha b hb x hx y hy heq
    obtain ⟨i, hi, rfl⟩ : ∃ i, db.immutable = some i ∧ i.memtable.run.entries = a := by
      simpa using ha
    have h1 := (h.sequence_of_immutable hi hx).1
    obtain ⟨l, hl⟩ := mem_tables hb hy
    have h2 := h.sequence_of_table hl
    rw [heq] at h1
    omega

/-- The entries an iterator of the database sees. -/
def Seen (db : DB) (s : ℕ) (x : Entry) : Prop :=
  (∃ c ∈ (DBIterator.create db s).sources, x ∈ c) ∧ x.key.sequence ≤ s

theorem key_le_of_sequence {x y : InternalKey} (hk : x.userKey = y.userKey)
    (h : y.sequence < x.sequence ∨ y.sequence = x.sequence ∧ y.type = x.type) : x ≤ y := by
  rcases h with h | ⟨hseq, htype⟩
  · exact (InternalKey.lt_iff.mpr (Or.inr ⟨hk, InternalKey.tag_lt_iff.mpr (Or.inl h)⟩)).le
  · obtain ⟨_, _, _⟩ := y
    subst hk hseq htype
    exact le_rfl

/-- A lookup returns the newest entry that is seen, if it is a value. -/
theorem get_iff_newest (h : db.Running cfg d bs extra) (k v : Bytes) : db.get k s = some v ↔
    ∃ e, Newest (Seen db s) k e ∧ e.key.type = .value ∧ e.value = v := by
  have hreads := h.sound.get_reads k s
  constructor
  · intro hget
    obtain ⟨r, hr, ho⟩ := hreads
    rw [hget] at ho
    cases hr with
    | absent => simp [Answer.toOption] at ho
    | @latest u hu =>
      obtain ⟨e, hsrc, rfl⟩ := (h.mem_updates (s := s) u).mp hu.mem
      have hval : e.key.type = .value ∧ e.value = v := by
        cases htype : e.key.type <;> simp_all [Entry.update]
      refine ⟨e, ⟨⟨hsrc, hu.le⟩, hu.key, ?_⟩, hval⟩
      rintro y ⟨hy, hseq⟩ hyk
      have hyU := (h.mem_updates (s := s) y.update).mpr ⟨y, hy, rfl⟩
      have hmax := hu.max y.update hyU hyk hseq
      apply key_le_of_sequence (hu.key.trans hyk.symm)
      rcases lt_or_eq_of_le hmax with hlt | heq
      · exact Or.inl hlt
      · have hsame := h.sound.stamped y.update hyU e.update hu.mem (hyk.trans hu.key.symm) heq
        cases hty : y.key.type <;> simp_all [Entry.update]
  · rintro ⟨e, hnew, htype, rfl⟩
    have hlatest : Latest db.updates k s e.update := by
      refine ⟨(h.mem_updates (s := s) _).mpr ⟨e, hnew.mem.1, rfl⟩, hnew.key, hnew.mem.2, ?_⟩
      intro u hu huk hut
      obtain ⟨y, hy, rfl⟩ := (h.mem_updates (s := s) u).mp hu
      by_contra hlt
      rw [not_le] at hlt
      have hle := hnew.least y ⟨hy, hut⟩ huk
      have hgt : y.key < e.key := InternalKey.lt_iff.mpr (Or.inr ⟨huk.trans hnew.key.symm,
        InternalKey.tag_lt_iff.mpr (Or.inl hlt)⟩)
      exact absurd hgt (not_lt.mpr hle)
    have hsome : Reads db.updates k s (some e.value) := by
      refine ⟨_, .latest hlatest, ?_⟩
      simp [Entry.update, htype]
    exact hreads.unique h.sound.stamped hsome

/-- The pairs a lookup would return, in order. -/
theorem exists_listed (h : db.Running cfg d bs extra) (s : ℕ) : ∃ L, Listed (Seen db s) L ∧
    ∀ k v, (k, v) ∈ L ↔ db.get k s = some v := by
  let keys : Finset Bytes := ((DBIterator.create db s).sources.flatten.map
    fun x => x.key.userKey).toFinset
  let L := (keys.sort (· ≤ ·)).filterMap fun k => (db.get k s).map fun v => (k, v)
  have hmem : ∀ k v, (k, v) ∈ L ↔ db.get k s = some v := by
    intro k v
    rw [List.mem_filterMap]
    constructor
    · rintro ⟨k', _, hk'⟩
      obtain ⟨v', hget, heq⟩ := Option.map_eq_some_iff.mp hk'
      obtain ⟨rfl, rfl⟩ := Prod.mk.inj heq
      exact hget
    · intro hget
      refine ⟨k, ?_, by simp [hget]⟩
      obtain ⟨e, hnew, _⟩ := (h.get_iff_newest k v).mp hget
      obtain ⟨c, hc, hx⟩ := hnew.mem.1
      rw [Finset.mem_sort, List.mem_toFinset, List.mem_map]
      exact ⟨e, List.mem_flatten.mpr ⟨c, hc, hx⟩, hnew.key⟩
  refine ⟨L, ⟨?_, fun k v => (hmem k v).trans (h.get_iff_newest k v)⟩, hmem⟩
  apply List.Pairwise.filterMap _ _ (Finset.sortedLT_sort keys).pairwise
  intro a b hab p hp q hq
  obtain ⟨_, _, rfl⟩ := Option.map_eq_some_iff.mp hp
  obtain ⟨_, _, rfl⟩ := Option.map_eq_some_iff.mp hq
  exact hab

theorem tracks_create (h : db.Running cfg d bs extra) {L : List (Bytes × Bytes)}
    (hL : Listed (Seen db s) L) : Tracks (Seen db s) L [] (DBIterator.create db s) := by
  refine ⟨hL, ?_, h.distinct_sources, fun x => Iff.rfl, by simp [DBIterator.create], ?_,
    fun _ _ => rfl⟩
  · intro c hc
    rcases List.mem_cons.mp hc with rfl | hc
    · exact db.memtable.run.ascending
    · rcases List.mem_append.mp hc with hc | hc
      · obtain ⟨i, _, rfl⟩ : ∃ i, db.immutable = some i ∧ i.memtable.run.entries = c := by
          simpa using hc
        exact i.memtable.run.ascending
      · obtain ⟨t, _, rfl⟩ := List.mem_map.mp hc
        exact t.reader.ascending
  · intro _ hv
    simp [DBIterator.create] at hv

end DB.Running

/-! ## Iterating while the database goes on -/

/-- A database and an open iterator of it. -/
structure Session where
  state : State
  iterator : DBIterator

/-- The database steps, also between two rounds of the iterator's search. -/
inductive SessionAction
  | db (a : Action)
  | seekToFirst
  | seek (target : Bytes)
  | next
  | advance

namespace Session

/-- An iterator does not outlive its database. -/
def step (cfg : Config) (s : Session) : SessionAction → Option Session
  | .db a =>
    match s.state.db, Lsm.step cfg s.state a with
    | some db, some st =>
      match st.db with
      | some db' => some ⟨st, s.iterator.follow db db'⟩
      | none => none
    | _, _ => none
  | .seekToFirst => s.iterator.seekToFirst.map fun it => { s with iterator := it }
  | .seek target => (s.iterator.seek target).map fun it => { s with iterator := it }
  | .next => s.iterator.next.map fun it => { s with iterator := it }
  | .advance => s.iterator.advance.map fun it => { s with iterator := it }

/-- What a cursor over the fixed list `L` has before it after the same calls. -/
def cursor (L : List (Bytes × Bytes)) : List (Bytes × Bytes) → List SessionAction →
    List (Bytes × Bytes)
  | rest, [] => rest
  | _, .seekToFirst :: as => cursor L L as
  | _, .seek target :: as => cursor L (L.filter fun p => target ≤ p.1) as
  | rest, .next :: as => cursor L rest.tail as
  | rest, _ :: as => cursor L rest as

/-- What holds of a session whose iterator has `rest` before it. -/
structure Good (cfg : Config) (E : Entry → Prop) (L rest : List (Bytes × Bytes)) (s : Session)
    (db : DB) : Prop where
  inv : s.state.Inv cfg
  open_ : s.state.db = some db
  tracks : Tracks E L rest s.iterator
  attached : s.iterator.attached = true → s.iterator.memtable = db.memtable
  visible : s.iterator.visibleSequence ≤ db.lastSequence
  below : ∀ c ∈ s.iterator.layers, ∀ y ∈ c, y.key.sequence ≤ db.lastSequence

variable {cfg : Config} {E : Entry → Prop} {L rest : List (Bytes × Bytes)} {s s' : Session}
    {db : DB}

theorem Good.running (h : Good cfg E L rest s db) :
    ∃ extra, db.Running cfg s.state.disk s.state.acknowledged extra := by
  obtain ⟨extra, _, hdb⟩ := h.inv.running h.open_
  exact ⟨extra, hdb⟩

/-- A step of the database leaves the iterator where it stands. -/
theorem Good.stepDb (h : Good cfg E L rest s db) {a : Action}
    (hs : s.step cfg (.db a) = some s') : ∃ db', Good cfg E L rest s' db' := by
  unfold step at hs
  simp only [h.open_] at hs
  cases hst : Lsm.step cfg s.state a with
  | none => simp [hst] at hs
  | some st =>
    simp only [hst] at hs
    cases hd' : st.db with
    | none => simp [hd'] at hs
    | some db' =>
      simp only [hd'] at hs
      obtain rfl := Option.some.inj hs
      obtain ⟨extra, hr⟩ := h.running
      obtain ⟨hseq, hgrow⟩ := (goes_of_step hr.filed.next.2 h.open_ hd' hst).memtable hr
      have hinv := h.inv.step hst
      unfold DBIterator.follow
      split
      · rename_i hatt
        have hmem := h.attached hatt
        split
        · rename_i hwal
          obtain ⟨hsub, hnew⟩ := hgrow hwal
          rw [← hmem] at hsub hnew
          refine ⟨db', hinv, hd', h.tracks.grow hsub ?_, fun _ => rfl, h.visible.trans hseq,
            fun c hc y hy => (h.below c hc y hy).trans hseq⟩
          intro x hx
          rcases hnew x hx with hold | hlt
          · exact Or.inl hold
          · refine Or.inr ⟨h.visible.trans_lt hlt, fun c hc y hy heq => ?_⟩
            have := h.below c hc y hy
            rw [heq] at hlt
            omega
        · exact ⟨db', hinv, hd', ⟨h.tracks.listed, h.tracks.ascending, h.tracks.distinct,
            h.tracks.seen, fun b hb => by
              obtain ⟨past, hat⟩ := h.tracks.search b hb
              exact ⟨past, hat.cut, hat.positioned, hat.pending, hat.skipped⟩,
            fun hb hv => by
              obtain ⟨past, i, e, hat, hrest⟩ := h.tracks.found hb hv
              exact ⟨past, i, e, ⟨hat.cut, hat.positioned, hat.pending, hat.skipped⟩, hrest⟩,
            h.tracks.ended⟩, by simp, h.visible.trans hseq,
            fun c hc y hy => (h.below c hc y hy).trans hseq⟩
      · rename_i hatt
        exact ⟨db', hinv, hd', h.tracks, fun hb => absurd hb hatt, h.visible.trans hseq,
          fun c hc y hy => (h.below c hc y hy).trans hseq⟩

/-- A call of the iterator. -/
theorem Good.call {rest' : List (Bytes × Bytes)} {it : DBIterator} (h : Good cfg E L rest s db)
    (hsame : s.iterator.SameSources it) (ht : Tracks E L rest' it) :
    Good cfg E L rest' { s with iterator := it } db := by
  refine ⟨h.inv, h.open_, ht, ?_, ?_, ?_⟩
  · rw [hsame.attached, hsame.memtable]
    exact h.attached
  · rw [hsame.visible]
    exact h.visible
  · rw [hsame.layers]
    exact h.below

theorem Good.step (h : Good cfg E L rest s db) {a : SessionAction} (as : List SessionAction)
    (hs : s.step cfg a = some s') :
    ∃ rest' db', Good cfg E L rest' s' db' ∧ cursor L rest (a :: as) = cursor L rest' as := by
  cases a with
  | db a =>
    obtain ⟨db', hgood⟩ := h.stepDb hs
    exact ⟨rest, db', hgood, rfl⟩
  | seekToFirst =>
    obtain ⟨it, hit, rfl⟩ := Option.map_eq_some_iff.mp hs
    exact ⟨L, db, h.call (DBIterator.seekToFirst_same hit) (h.tracks.seekToFirst hit), rfl⟩
  | seek target =>
    obtain ⟨it, hit, rfl⟩ := Option.map_eq_some_iff.mp hs
    exact ⟨_, db, h.call (DBIterator.seek_same hit) (h.tracks.seek hit), rfl⟩
  | next =>
    obtain ⟨it, hit, rfl⟩ := Option.map_eq_some_iff.mp hs
    exact ⟨_, db, h.call (DBIterator.next_same hit) (h.tracks.next hit), rfl⟩
  | advance =>
    obtain ⟨it, hit, rfl⟩ := Option.map_eq_some_iff.mp hs
    exact ⟨_, db, h.call (DBIterator.advance_same hit) (h.tracks.advance hit), rfl⟩

/-- Whatever is called and whatever the database does in between. -/
theorem Good.exec {as : List SessionAction} (h : Good cfg E L rest s db)
    (he : TransitionSystem.exec (Session.step cfg) s as = some s') :
    ∃ db', Good cfg E L (cursor L rest as) s' db' := by
  induction as generalizing s rest db with
  | nil =>
    obtain rfl := Option.some.inj he
    exact ⟨db, h⟩
  | cons a as ih =>
    obtain ⟨s₁, hs₁, he⟩ := Option.bind_eq_some_iff.mp he
    obtain ⟨rest', db', hgood, hcursor⟩ := h.step as hs₁
    rw [hcursor]
    exact ih hgood he

theorem exec_advance {n : ℕ} {it : DBIterator}
    (h : TransitionSystem.exec (fun it (_ : Unit) => DBIterator.advance it) s.iterator
      (List.replicate n ()) = some it) :
    TransitionSystem.exec (Session.step cfg) s (List.replicate n .advance) =
      some { s with iterator := it } := by
  induction n generalizing s with
  | zero =>
    obtain rfl := Option.some.inj h
    rfl
  | succ n ih =>
    obtain ⟨it₁, hit, h⟩ := Option.bind_eq_some_iff.mp h
    rw [List.replicate_succ, TransitionSystem.exec]
    simp only [Session.step, hit, Option.map_some, Option.bind_eq_bind, Option.bind_some]
    exact ih (s := { s with iterator := it₁ }) h

end Session

theorem iterator_of_inv {cfg : Config} {st : State} {db : DB} (h : st.Inv cfg)
    (hd : st.db = some db) {s : ℕ} (hs : s = db.lastSequence ∨ s ∈ db.snapshots) :
    ∃ L : List (Bytes × Bytes), (L.Pairwise fun a b => a.1 < b.1) ∧
      (∀ k v, (k, v) ∈ L ↔ db.get k s = some v) ∧
      ∀ as ses, TransitionSystem.exec (Session.step cfg) ⟨st, DBIterator.create db s⟩ as =
        some ses → (ses.iterator.searching = none →
          ses.iterator.current = (Session.cursor L [] as).head?) ∧
        ∃ n ses', TransitionSystem.exec (Session.step cfg) ses (List.replicate n .advance) =
          some ses' ∧ ses'.iterator.searching = none := by
  obtain ⟨extra, _, hrun⟩ := h.running hd
  obtain ⟨L, hL, hmem⟩ := hrun.exists_listed s
  refine ⟨L, hL.sorted, hmem, ?_⟩
  intro as ses hexec
  have hle : s ≤ db.lastSequence := by
    rcases hs with rfl | hs
    · exact le_rfl
    · exact hrun.sound.snapshots s hs
  have hbase : db.base ≤ db.lastSequence := by
    rw [hrun.sound.count]
    exact hrun.sound.base_le.2
  have hgood : Session.Good cfg (DB.Running.Seen db s) L [] ⟨st, DBIterator.create db s⟩ db :=
    ⟨h, hd, hrun.tracks_create hL, fun _ => rfl, hle,
      fun c hc y hy => (hrun.mem_layers hc hy).1.trans hbase⟩
  obtain ⟨db', hgood'⟩ := hgood.exec hexec
  refine ⟨hgood'.tracks.current, ?_⟩
  obtain ⟨n, it, hn, hdone⟩ := hgood'.tracks.finish
  exact ⟨n, _, Session.exec_advance hn, hdone⟩

/-- An iterator at a visible sequence shows the pairs that a lookup returned when
it was created, in the order of their keys, whatever the database does meanwhile:
it stands where a cursor over that list stands. A search that is left alone ends. -/
theorem iterator_of_reach {cfg : Config} {st : State} {db : DB}
    (h : (system cfg).Reach (fun _ _ => True) st) (hd : st.db = some db) {s : ℕ}
    (hs : s = db.lastSequence ∨ s ∈ db.snapshots) :
    ∃ L : List (Bytes × Bytes), (L.Pairwise fun a b => a.1 < b.1) ∧
      (∀ k v, (k, v) ∈ L ↔ db.get k s = some v) ∧
      ∀ as ses, TransitionSystem.exec (Session.step cfg) ⟨st, DBIterator.create db s⟩ as =
        some ses → (ses.iterator.searching = none →
          ses.iterator.current = (Session.cursor L [] as).head?) ∧
        ∃ n ses', TransitionSystem.exec (Session.step cfg) ses (List.replicate n .advance) =
          some ses' ∧ ses'.iterator.searching = none :=
  iterator_of_inv (inv_of_reach h) hd hs

/-- Two pairs, with an overwrite and a rotation while the iterator is open. -/
theorem iterator_during_writes : ∃ st db, ∃ L : List (Bytes × Bytes), ∃ ses,
    (system tinyConfig).Reach (fun _ _ => True) st ∧
    st.db = some db ∧ (∀ k v, (k, v) ∈ L ↔ db.get k db.lastSequence = some v) ∧
    TransitionSystem.exec (Session.step tinyConfig) ⟨st, DBIterator.create db db.lastSequence⟩
      [.seekToFirst, .db (.put .async [2] [5]), .advance, .db .newSnapshot, .next, .advance] =
        some ses ∧
    ses.iterator.current = L.tail.head? := by
  obtain ⟨st, hr, db, hd, hP⟩ := exists_run tinyConfig (fun _ _ => True)
    (fun st => ∃ db ∈ st.db,
      ((TransitionSystem.exec (Session.step tinyConfig) ⟨st, DBIterator.create db db.lastSequence⟩
        [.seekToFirst, .db (.put .async [2] [5]), .advance, .db .newSnapshot, .next,
          .advance]).any fun ses => ses.iterator.searching = none) = true)
    ([.put .async [1] [7], .put .async [2] [8]] ++ Action.flush) (by decide +kernel)
  obtain ⟨ses, hses, hdone⟩ := (Option.any_eq_true _ _).mp hP
  obtain ⟨L, _, hmem, hall⟩ := iterator_of_reach hr hd (Or.inl rfl)
  exact ⟨st, db, L, ses, hr, hd, hmem, hses, (hall _ ses hses).1 (of_decide_eq_true hdone)⟩

end Mizu.Lsm
