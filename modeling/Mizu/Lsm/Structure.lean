import Mizu.Lsm.Invariant

/-!
# The levels

What the manifest and the version look like in every reachable state, and that a
manifest with this structure passes its checks unless it is too large.
-/

open Multiversion

namespace Mizu.Lsm

/-! ## What `validateState` accepts -/

/-- The size limits of `validateState`. -/
def Manifest.WithinLimits (m : Manifest) : Prop :=
  (∀ l, (m.levels l).length ≤ maxUint32) ∧ ∀ l, ∀ t ∈ m.levels l,
    t.smallestKey.userKey.length + 8 ≤ maxUint32 ∧ t.largestKey.userKey.length + 8 ≤ maxUint32

structure TableMeta.Valid (t : TableMeta) : Prop where
  number : 0 < t.number
  size : 0 < t.fileSize
  smallest : t.smallestKey.userKey.length + 8 ≤ maxUint32
  largest : t.largestKey.userKey.length + 8 ≤ maxUint32
  range : t.smallestKey ≤ t.largestKey

section Validate

variable {t : TableMeta} {ts : List TableMeta} {ns : List ℕ}

theorem validateTable_valid (h : t.Valid) (hn : t.number ∉ ns) :
    validateTable t ns = .ok (t.number :: ns) := by
  have hn0 := h.number
  have hs0 := h.size
  have h1 := h.smallest
  have h2 := h.largest
  unfold validateTable
  rw [if_neg (by omega), if_neg hn, if_neg (by omega), if_neg]
  rw [InternalKey.less_iff]
  exact not_lt.mpr h.range

theorem validateLevel0_valid (h : ∀ t ∈ ts, t.Valid) (hn : (ts.map TableMeta.number ++ ns).Nodup) :
    validateLevel0 ts ns = .ok ((ts.map TableMeta.number).reverse ++ ns) := by
  induction ts generalizing ns with
  | nil => rfl
  | cons t ts ih =>
    rw [List.map_cons, List.cons_append, List.nodup_cons] at hn
    have hnew : t.number ∉ ns := fun hmem => hn.1 (List.mem_append_right _ hmem)
    have hrest : (ts.map TableMeta.number ++ t.number :: ns).Nodup :=
      List.perm_middle.nodup_iff.mpr (List.nodup_cons.mpr hn)
    rw [validateLevel0, validateTable_valid (h t (by simp)) hnew]
    change validateLevel0 ts (t.number :: ns) = _
    rw [ih (fun u hu => h u (List.mem_cons_of_mem _ hu)) hrest]
    simp

theorem validateLevel_valid {previous : Option Bytes} (h : ∀ t ∈ ts, t.Valid)
    (hn : (ts.map TableMeta.number ++ ns).Nodup)
    (hprev : ∀ p, previous = some p → ∀ t ∈ ts, p < t.smallestKey.userKey)
    (hdis : ts.Pairwise fun a b => a.largestKey.userKey < b.smallestKey.userKey) :
    validateLevel previous ts ns = .ok ((ts.map TableMeta.number).reverse ++ ns) := by
  induction ts generalizing ns previous with
  | nil => rfl
  | cons t ts ih =>
    rw [List.map_cons, List.cons_append, List.nodup_cons] at hn
    obtain ⟨hfirst, hrest⟩ := List.pairwise_cons.mp hdis
    have hnew : t.number ∉ ns := fun hmem => hn.1 (List.mem_append_right _ hmem)
    have hnodup : (ts.map TableMeta.number ++ t.number :: ns).Nodup :=
      List.perm_middle.nodup_iff.mpr (List.nodup_cons.mpr hn)
    have hbefore : ¬ (previous.any fun p => decide (p ≥ t.smallestKey.userKey)) = true := by
      cases previous with
      | none => simp
      | some p => simpa using hprev p rfl t (by simp)
    rw [validateLevel, validateTable_valid (h t (by simp)) hnew]
    change (if _ then _ else validateLevel (some t.largestKey.userKey) ts (t.number :: ns)) = _
    rw [if_neg hbefore, ih (fun u hu => h u (List.mem_cons_of_mem _ hu)) hnodup ?_ hrest]
    · simp
    · intro p hp u hu
      cases hp
      exact hfirst u hu

theorem validateState_valid {m : Manifest} (hf : m.flushedSequence ≤ maxSequenceNumber)
    (ho : 0 < m.oldestWalNumber) (hlen : ∀ l, (m.levels l).length ≤ maxUint32)
    (hv : ∀ l, ∀ t ∈ m.levels l, t.Valid) (hn : m.live.Nodup)
    (hd : ∀ l, l ≠ 0 →
      (m.levels l).Pairwise fun a b => a.largestKey.userKey < b.smallestKey.userKey) :
    ∃ ns, validateState m = .ok ns := by
  have hperm : ((m.levels 2).map TableMeta.number ++
      (((m.levels 1).map TableMeta.number).reverse ++
        ((m.levels 0).map TableMeta.number).reverse)).Perm m.live := by
    rw [Manifest.live, List.map_append, List.map_append]
    refine (List.perm_append_comm.trans ?_)
    rw [← List.append_assoc ((m.levels 0).map _)]
    apply List.Perm.append_right
    exact ((List.reverse_perm _).append (List.reverse_perm _)).trans List.perm_append_comm
  have h2 := hperm.nodup_iff.mpr hn
  have h1 : ((m.levels 1).map TableMeta.number ++
      ((m.levels 0).map TableMeta.number).reverse).Nodup := by
    have := (List.nodup_append.mp h2).2.1
    exact ((List.reverse_perm _).append_right _).nodup_iff.mp this
  have h0 : ((m.levels 0).map TableMeta.number ++ []).Nodup := by
    rw [List.append_nil]
    exact (List.reverse_perm _).nodup_iff.mp (List.nodup_append.mp h1).2.1
  unfold validateState
  rw [if_neg (by omega), if_neg (by omega), if_neg (by push Not; exact hlen),
    validateLevel0_valid (hv 0) h0]
  simp only [bind, Except.bind, List.append_nil]
  rw [validateLevel_valid (hv 1) h1 (by simp) (hd 1 (by decide))]
  simp only
  rw [validateLevel_valid (hv 2) h2 (by simp) (hd 2 (by decide))]
  exact ⟨_, rfl⟩

end Validate

/-- A manifest that describes an ordered version is accepted within the limits. -/
theorem Describes.validateState {m : Manifest} {v : Version} (h : Describes m v) (hv : v.Ordered)
    (hf : m.flushedSequence ≤ maxSequenceNumber) (ho : 0 < m.oldestWalNumber)
    (hw : m.WithinLimits) : ∃ ns, validateState m = .ok ns := by
  apply validateState_valid hf ho hw.1 _ h.unique
  · intro l hl
    have := hv.disjoint l hl
    rw [h.levels, List.pairwise_map]
    exact this
  · intro l t ht
    obtain ⟨h1, h2⟩ := hw.2 l t ht
    rw [h.levels] at ht
    obtain ⟨u, hu, rfl⟩ := List.mem_map.mp ht
    exact ⟨(h.valid l u hu).1, (h.valid l u hu).2, h1, h2,
      (hv.described l u hu).smallest_le_largest⟩

/-! ## Every reachable state -/

/-- The structure of the levels and of what the background thread may publish. -/
structure DB.Structured (db : DB) : Prop where
  /-- The manifest lists the tables of the version. -/
  listed : ∀ l, db.manifest.levels l = (db.version.level l).map Table.info
  /-- Below level 0 the user-key ranges ascend and no user key is in two tables. -/
  disjoint : ∀ l, l ≠ 0 → (db.version.level l).Pairwise fun a b =>
    a.largestUser < b.smallestUser ∧
      ∀ x ∈ a.reader.entries, ∀ y ∈ b.reader.entries, x.key.userKey < y.key.userKey
  /-- The recorded ranges are those of the entries. -/
  ranges : ∀ l, ∀ t ∈ db.version.level l, t.smallestUser ≤ t.largestUser ∧
    ∀ x ∈ t.reader.entries, t.smallestUser ≤ x.key.userKey ∧ x.key.userKey ≤ t.largestUser
  /-- No file number is used twice. -/
  unique : db.manifest.live.Nodup
  /-- Level 0 is newest first. -/
  newest : (db.version.level 0).Pairwise fun a b =>
    ∀ x ∈ a.reader.entries, ∀ y ∈ b.reader.entries, y.key.sequence < x.key.sequence
  /-- The versions of a user key get older from level to level. -/
  newer : ∀ l k, l < k → ∀ x ∈ tableEntries (db.version.level l),
    ∀ y ∈ tableEntries (db.version.level k), x.key.userKey = y.key.userKey →
      y.key.sequence < x.key.sequence
  /-- The tables hold nothing beyond the flushed sequence. -/
  flushed : ∀ l, ∀ x ∈ tableEntries (db.version.level l),
    x.key.sequence ≤ db.manifest.flushedSequence
  /-- What a flush is about to publish passes the checks. -/
  flush : ∀ i t, db.immutable = some i → db.job = .flushBuilt t →
    (flushCandidate db i t).1.WithinLimits →
      ∃ ns, validateState (flushCandidate db i t).1 = .ok ns
  /-- What a compaction is about to publish passes the checks. -/
  compaction : ∀ p done, db.job = .compacting p [] none done →
    (compactionCandidate db p done).1.WithinLimits →
      ∃ ns, validateState (compactionCandidate db p done).1 = .ok ns

theorem encodable_count {s : ℕ} {bs : List WriteBatch} (h : Encodable s bs)
    (hs : s ≤ maxSequenceNumber + 1) : s + operationCount bs ≤ maxSequenceNumber + 1 := by
  induction bs generalizing s with
  | nil => simpa using hs
  | cons b bs ih =>
    obtain ⟨_, _, hrange, _⟩ := encode_ok h.1
    unfold hasValidSequenceRange at hrange
    have := ih h.2 (by omega)
    rw [operationCount_cons]
    omega

namespace DB.Running

variable {cfg : Config} {d : Disk} {db : DB} {bs extra : List WriteBatch}

section

variable (h : db.Running cfg d bs extra)

include h

theorem length_le : bs.flatten.length ≤ maxSequenceNumber := by
  have := encodable_count (encodable_append.mp h.encodable).1 (by decide)
  unfold operationCount at this
  omega

theorem walNumber_pos : 0 < db.walNumber := by
  obtain ⟨_, _, _, _, _, _, hlogs, _⟩ := h.logs
  exact hlogs.positive.trans_le hlogs.oldest_le

theorem validate_flush {i : ImmutableMemTable} {t : Table}
    (hi : db.immutable = some i) (hj : db.job = .flushBuilt t)
    (hw : (flushCandidate db i t).1.WithinLimits) :
    ∃ ns, validateState (flushCandidate db i t).1 = .ok ns := by
  have hs : ({ db with
      manifest := (flushCandidate db i t).1
      version := (flushCandidate db i t).2
      immutable := none
      job := .idle } : DB).Sound bs.flatten := h.sound.flush hj hi (by simp) (by simp)
  apply (h.filed.describes_flush hj).validateState hs.keeps.ordered _ h.walNumber_pos hw
  have := hs.keeps.le
  exact this.trans h.length_le

theorem validate_compaction {p : CompactionPlan} {done : List Table}
    (hj : db.job = .compacting p [] none done)
    (hw : (compactionCandidate db p done).1.WithinLimits) :
    ∃ ns, validateState (compactionCandidate db p done).1 = .ok ns := by
  have hs : ({ db with
      manifest := (compactionCandidate db p done).1
      version := (compactionCandidate db p done).2
      job := .idle } : DB).Sound bs.flatten := h.sound.compact hj (by simp) (by simp)
  have hc := h.sound.compacting p [] none done hj
  obtain ⟨_, _, _, _, _, _, hlogs, _⟩ := h.logs
  apply (h.filed.describes_compaction hj hc.version hc.fits).validateState hs.keeps.ordered _
    hlogs.positive hw
  have := hs.keeps.le
  exact this.trans h.length_le

theorem structured : db.Structured := by
  have hv := h.sound.keeps.ordered
  refine ⟨h.filed.levels, ?_, ?_, h.filed.live_nodup, hv.newest, ?_, ?_, ?_, ?_⟩
  · intro l hl
    apply List.Pairwise.imp_of_mem _ (hv.disjoint l hl)
    intro a b ha hb hab
    refine ⟨hab, ?_⟩
    intro x hx y hy
    exact ((hv.described l a ha).le_largestUser hx).trans_lt
      (hab.trans_le ((hv.described l b hb).smallestUser_le hy))
  · intro l t ht
    have hd := hv.described l t ht
    exact ⟨hd.smallestUser_le_largestUser,
      fun x hx => ⟨hd.smallestUser_le hx, hd.le_largestUser hx⟩⟩
  · intro l k hlk x hx y hy hkey
    exact hv.newer l k hlk x.update ⟨x, hx, rfl⟩ y.update ⟨y, hy, rfl⟩ hkey
  · intro l x hx
    exact h.sound.keeps.bound x.update ⟨l, x, hx, rfl⟩
  · exact fun i t hi hj hw => h.validate_flush hi hj hw
  · exact fun p done hj hw => h.validate_compaction hj hw

end

end DB.Running

theorem running_of_reach {cfg : Config} {G : State → Action → Prop} {st : State} {db : DB}
    (h : (system cfg).Reach G st) (hd : st.db = some db) :
    ∃ extra, (extra = [] ∨ ∃ b, extra = [b] ∧ st.pending = some b) ∧
      db.Running cfg st.disk st.acknowledged extra :=
  (inv_of_reach h).running hd

/-- The level structure holds in every reachable state, also after crashes. -/
theorem structured_of_reach {cfg : Config} {st : State} {db : DB}
    (h : (system cfg).Reach (fun _ _ => True) st) (hd : st.db = some db) : db.Structured := by
  obtain ⟨extra, _, hrun⟩ := running_of_reach h hd
  exact hrun.structured

/-- Four flushes, a compaction to level 1 and one more flush. -/
theorem structured_after_compaction : ∃ st db, (system tinyConfig).Reach (fun _ _ => True) st ∧
    st.db = some db ∧ (db.version.level 0).length = 1 ∧ (db.version.level 1).length = 1 ∧
      db.Structured := by
  obtain ⟨st, hr, hP⟩ := exists_run tinyConfig (fun _ _ => True)
    (fun st => ∃ db ∈ st.db, (db.version.level 0).length = 1 ∧ (db.version.level 1).length = 1)
    (.put .async [1] [7] :: [[2], [1], [3], [2]].flatMap
    (fun k => .put .sync k [8] :: Action.flush) ++
      Action.compaction ++ .put .async [4] [9] :: Action.flush) (by decide +kernel)
  obtain ⟨db, hd, h0, h1⟩ := hP
  exact ⟨st, db, hr, hd, h0, h1, structured_of_reach hr hd⟩

end Mizu.Lsm
