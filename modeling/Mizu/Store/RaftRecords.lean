import Mathlib.Data.List.TakeWhile
import Mizu.Store.RegionStorage
import Mizu.Store.Storage

/-!
# The Raft records of a database

`lsmRaftStorage` of `kv/storage/lsm.go` over the keys of the database, and its refinement to one
`RaftStorage` a region: the hard state in 24 bytes, the snapshot under one key, every entry under
the key of its index. Entries are found and erased by scans that stop at the first key that is
not theirs.
-/

namespace Mizu

/-- The numbers of a hard state fit `uint64`. -/
def HardState.Fits (hs : HardState) : Prop :=
  hs.term < 2 ^ 64 ∧ hs.vote < 2 ^ 64 ∧ hs.commitIndex < 2 ^ 64

def Entry.Fits (e : Entry) : Prop := e.term < 2 ^ 64 ∧ e.index < 2 ^ 64

def Snapshot.Fits (s : Snapshot) : Prop := s.index < 2 ^ 64 ∧ s.term < 2 ^ 64

/-- The messages that are stored in serialised form. -/
structure RaftCodecs where
  entry : Codec Entry Entry.Fits
  snapshot : Codec Snapshot Snapshot.Fits

def encodeHardState (hs : HardState) : Bytes :=
  BigEndian.encode 8 hs.term ++ BigEndian.encode 8 hs.vote ++ BigEndian.encode 8 hs.commitIndex

def decodeHardState (data : Bytes) : HardState :=
  if data.length < 24 then {} else
    { term := BigEndian.decode (data.take 8)
      vote := BigEndian.decode ((data.drop 8).take 8)
      commitIndex := BigEndian.decode ((data.drop 16).take 8) }

theorem decodeHardState_encodeHardState {hs : HardState} (h : hs.Fits) :
    decodeHardState (encodeHardState hs) = hs := by
  obtain ⟨hterm, hvote, hcommit⟩ := h
  have hlen : ¬(encodeHardState hs).length < 24 := by simp [encodeHardState]
  have hfirst : (encodeHardState hs).take 8 = BigEndian.encode 8 hs.term := by
    rw [encodeHardState, List.append_assoc]
    exact List.take_left' (by simp)
  have hsecond : ((encodeHardState hs).drop 8).take 8 = BigEndian.encode 8 hs.vote := by
    exact List.take_left' (by simp)
  have hthird : ((encodeHardState hs).drop 16).take 8 = BigEndian.encode 8 hs.commitIndex := by
    rw [encodeHardState, List.drop_left' (by simp)]
    exact List.take_of_length_le (by simp)
  rw [decodeHardState, if_neg hlen, hfirst, hsecond, hthird,
    BigEndian.decode_encode (by norm_num; omega), BigEndian.decode_encode (by norm_num; omega),
    BigEndian.decode_encode (by norm_num; omega)]

namespace Database

variable (cs : RaftCodecs) (regionID : ℕ) (db : Database)

def saveHardState (state : HardState) : Database :=
  db.write [.put (hardStateKey regionID) (encodeHardState state)]

def loadHardState : HardState :=
  match db.get (hardStateKey regionID) with
  | none => {}
  | some data => decodeHardState data

/-- Nil entries are passed over. -/
def saveEntries (entries : List (Option Entry)) : Database :=
  db.write (entries.filterMap fun entry => entry.map fun e =>
    .put (entryKey regionID e.index) (cs.entry.marshal e))

/-- The index in a key behind the entry prefix. -/
def entryIndex (key : Bytes) : ℕ :=
  BigEndian.decode ((key.drop (entryPrefix regionID).length).take 8)

/-- The test of the loops: an entry key of the region whose index is wanted. -/
def selects (wanted : ℕ → Bool) (key : Bytes) : Bool :=
  (entryPrefix regionID).isPrefixOf key && !(key.length < (entryPrefix regionID).length + 8) &&
    wanted (entryIndex regionID key)

def deleteEntries (shouldDelete : ℕ → Bool) (start : Bytes) : Database :=
  let keys := ((db.scan start).takeWhile fun kv => selects regionID shouldDelete kv.1).map Prod.fst
  db.write (keys.map .erase)

def compact (index : ℕ) : Database :=
  if index = 0 then db
  else db.deleteEntries regionID (fun entryIndex => entryIndex < index) (entryKey regionID 0)

def truncateFrom (index : ℕ) : Database :=
  db.deleteEntries regionID (fun entryIndex => entryIndex ≥ index) (entryKey regionID index)

/-- The loop of `LoadEntries`; `none` is an entry that cannot be parsed. -/
def loadLoop (hi : ℕ) : List (Bytes × Bytes) → Option (List Entry)
  | [] => some []
  | (key, value) :: items =>
    if selects regionID (fun index => !(index ≥ hi)) key then
      match cs.entry.unmarshal value with
      | none => none
      | some e => (loadLoop hi items).map (e :: ·)
    else some []

def loadEntries (lo hi : ℕ) : Option (List Entry) :=
  loadLoop cs regionID hi (db.scan (entryKey regionID lo))

def saveSnapshot (snapshot : Snapshot) : Database :=
  db.write [.put (snapshotKey regionID) (cs.snapshot.marshal snapshot)]

/-- `LoadSnapshot`; the outer `none` is a snapshot that cannot be parsed, the inner one is nil. -/
def loadSnapshot : Option (Option Snapshot) :=
  match db.get (snapshotKey regionID) with
  | none => some none
  | some data =>
    match cs.snapshot.unmarshal data with
    | none => none
    | some snapshot => some (if snapshot.index = 0 then none else some snapshot)

end Database

/-- What is left of the abstract log: the entries below `index`. -/
def RaftStorage.truncateFrom (s : RaftStorage) (index : ℕ) : RaftStorage :=
  { s with entries := fun k => if index ≤ k then none else s.entries k }

/-! ### Scans over entries -/

section Scans

variable {r start i : ℕ} {wanted : ℕ → Bool} {db : Database} {k v : Bytes}

theorem entryIndex_entryKey (hi : i < 2 ^ 64) : Database.entryIndex r (entryKey r i) = i := by
  have hlen : (BigEndian.encode 8 i).take 8 = BigEndian.encode 8 i :=
    List.take_of_length_le (by simp)
  rw [Database.entryIndex, entryKey, List.drop_left, hlen]
  exact BigEndian.decode_encode (by norm_num; omega)

theorem selects_entryKey (hi : i < 2 ^ 64) :
    Database.selects r wanted (entryKey r i) = wanted i := by
  have hpre : (entryPrefix r).isPrefixOf (entryKey r i) = true :=
    List.isPrefixOf_iff_prefix.mpr (List.prefix_append ..)
  rw [Database.selects, entryIndex_entryKey hi, hpre]
  simp [entryKey]

theorem prefix_of_selects (h : Database.selects r wanted k = true) : entryPrefix r <+: k := by
  simp only [Database.selects, Bool.and_eq_true] at h
  exact List.isPrefixOf_iff_prefix.mp h.1.1

section

variable (hkeys : ∀ k v, db.get k = some v → IsKey k) (hs : start < 2 ^ 64)
  (hwanted : ∀ i j, start ≤ i → i ≤ j → wanted j = true → wanted i = true)

include hkeys hs hwanted

/-- A loop that starts at an entry key and stops at the first key that is not wanted passes
every key that is wanted. -/
theorem splits_selects :
    Search.Splits (fun kv : Bytes × Bytes => Database.selects r wanted kv.1)
      (db.scan (entryKey r start)) := by
  refine List.Pairwise.imp_of_mem ?_ (db.pairwise_scan (entryKey r start))
  rintro ⟨a, v⟩ ⟨b, w⟩ ha hb hab hsel
  obtain ⟨hstart, hgeta⟩ := OrderedMap.mem_scan.mp ha
  obtain ⟨-, hgetb⟩ := OrderedMap.mem_scan.mp hb
  have hpa : entryPrefix r <+: a := by
    by_contra hpa
    exact lt_asymm hab (Lexicographic.lt_of_not_isPrefix (List.prefix_append ..)
      (prefix_of_selects hsel) hpa hstart)
  obtain ⟨i, hi, rfl⟩ := (hkeys a v hgeta).eq_entryKey hpa
  obtain ⟨j, hj, rfl⟩ := (hkeys b w hgetb).eq_entryKey (prefix_of_selects hsel)
  dsimp only at hsel ⊢
  rw [selects_entryKey hi]
  rw [selects_entryKey hj] at hsel
  exact hwanted i j ((entryKey_le_iff hs hi).mp hstart) ((entryKey_le_iff hi hj).mp hab.le) hsel

theorem mem_selected :
    (k, v) ∈ (db.scan (entryKey r start)).takeWhile
        (fun kv => Database.selects r wanted kv.1) ↔
      ∃ i < 2 ^ 64, k = entryKey r i ∧ start ≤ i ∧ wanted i = true ∧ db.get k = some v := by
  rw [(splits_selects hkeys hs hwanted).takeWhile_eq_filter, List.mem_filter, OrderedMap.mem_scan]
  constructor
  · rintro ⟨⟨hle, hget⟩, hsel⟩
    obtain ⟨i, hi, rfl⟩ := (hkeys k v hget).eq_entryKey (prefix_of_selects hsel)
    exact ⟨i, hi, rfl, (entryKey_le_iff hs hi).mp hle, (selects_entryKey hi).symm.trans hsel, hget⟩
  · rintro ⟨i, hi, rfl, hle, hw, hget⟩
    exact ⟨⟨(entryKey_le_iff hs hi).mpr hle, hget⟩, (selects_entryKey hi).trans hw⟩

/-- What `deleteEntries` leaves of every key. -/
theorem get_deleteEntries (k : Bytes)
    [Decidable (∃ i < 2 ^ 64, k = entryKey r i ∧ start ≤ i ∧ wanted i = true)] :
    (db.deleteEntries r wanted (entryKey r start)).get k =
      if ∃ i < 2 ^ 64, k = entryKey r i ∧ start ≤ i ∧ wanted i = true then none
      else db.get k := by
  dsimp only [Database.deleteEntries]
  rw [Database.get_write_erase]
  split_ifs with hmem hdel hdel
  · rfl
  · obtain ⟨⟨k', v⟩, hkv, rfl⟩ := List.mem_map.mp hmem
    obtain ⟨i, hi, hk, hle, hw, -⟩ := (mem_selected hkeys hs hwanted).mp hkv
    exact absurd ⟨i, hi, hk, hle, hw⟩ hdel
  · obtain ⟨i, hi, hk, hle, hw⟩ := hdel
    rw [Option.eq_none_iff_forall_ne_some]
    intro v hv
    exact hmem (List.mem_map.mpr ⟨(k, v),
      (mem_selected hkeys hs hwanted).mpr ⟨i, hi, hk, hle, hw, hv⟩, rfl⟩)
  · rfl

end

end Scans

/-! ### The records of one region -/

/-- The database holds what the storage of the region holds. -/
structure Records (cs : RaftCodecs) (r : ℕ) (db : Database) (s : RaftStorage) : Prop where
  hardState : db.loadHardState r = s.hardState
  snapshot : db.loadSnapshot cs r = some s.loadSnapshot
  entries : ∀ i < 2 ^ 64, db.get (entryKey r i) = (s.entries i).map cs.entry.marshal
  fits : ∀ i e, s.entries i = some e → i < 2 ^ 64 ∧ e.Fits

namespace Records

variable {cs : RaftCodecs} {db db' : Database} {s : RaftStorage} {r : ℕ}

theorem empty (cs : RaftCodecs) (r : ℕ) : Records cs r OrderedMap.empty {} where
  hardState := rfl
  snapshot := rfl
  entries _ _ := rfl
  fits i e h := by simp at h

/-- The records of a region depend only on the keys under its prefix. -/
theorem frame (h : Records cs r db s)
    (hsame : ∀ a, db'.get (regionPrefix r ++ a) = db.get (regionPrefix r ++ a)) :
    Records cs r db' s where
  hardState := by
    rw [← h.hardState, Database.loadHardState, hardStateKey, hsame]
    rfl
  snapshot := by
    rw [← h.snapshot, Database.loadSnapshot, snapshotKey, hsame]
    rfl
  entries i hi := by rw [← h.entries i hi, entryKey_eq, hsame]
  fits := h.fits

theorem get_put (db : Database) (k v j : Bytes) :
    (db.write [.put k v]).get j = if j = k then some v else db.get j :=
  BatchOp.get_apply db (.put k v) j

section

variable (h : Records cs r db s)

include h

theorem saveHardState {hs : HardState} (hfits : hs.Fits) :
    Records cs r (db.saveHardState r hs) (s.saveHardState hs) where
  hardState := by
    rw [Database.loadHardState, Database.saveHardState, get_put, if_pos rfl]
    exact decodeHardState_encodeHardState hfits
  snapshot := by
    rw [Database.loadSnapshot, Database.saveHardState, get_put,
      if_neg (hardStateKey_ne_snapshotKey r r).symm]
    exact h.snapshot
  entries i hi := by
    rw [Database.saveHardState, get_put, if_neg (hardStateKey_ne_entryKey r r i).symm]
    exact h.entries i hi
  fits := h.fits

theorem saveSnapshot {snapshot : Snapshot} (hfits : snapshot.Fits) :
    Records cs r (db.saveSnapshot cs r snapshot) (s.saveSnapshot snapshot) where
  hardState := by
    rw [Database.loadHardState, Database.saveSnapshot, get_put,
      if_neg (hardStateKey_ne_snapshotKey r r)]
    exact h.hardState
  snapshot := by
    rw [Database.loadSnapshot, Database.saveSnapshot, get_put, if_pos rfl]
    dsimp only
    rw [cs.snapshot.unmarshal_marshal _ hfits]
    by_cases hindex : snapshot.index = 0 <;>
      simp [RaftStorage.loadSnapshot, RaftStorage.saveSnapshot, Option.filter, hindex]
  entries i hi := by
    rw [Database.saveSnapshot, get_put, if_neg (snapshotKey_ne_entryKey r r i).symm]
    exact h.entries i hi
  fits := h.fits

theorem saveEntry {e : Entry} (hfits : e.Fits) :
    Records cs r (db.write [.put (entryKey r e.index) (cs.entry.marshal e)])
      (s.saveEntries [e]) where
  hardState := by
    rw [Database.loadHardState, get_put, if_neg (hardStateKey_ne_entryKey r r e.index)]
    exact h.hardState
  snapshot := by
    rw [Database.loadSnapshot, get_put, if_neg (snapshotKey_ne_entryKey r r e.index)]
    exact h.snapshot
  entries i hi := by
    rw [get_put, RaftStorage.saveEntries_singleton]
    simp only [entryKey_inj hi hfits.2, true_and]
    split_ifs
    · rfl
    · exact h.entries i hi
  fits i e' he := by
    rw [RaftStorage.saveEntries_singleton] at he
    split_ifs at he with hi
    · cases he
      exact ⟨hi ▸ hfits.2, hfits⟩
    · exact h.fits i e' he

theorem saveEntries {es : List (Option Entry)}
    (hfits : ∀ e, some e ∈ es → e.Fits) :
    Records cs r (db.saveEntries cs r es) (s.saveEntries (es.filterMap fun e => e)) := by
  induction es generalizing db s with
  | nil => exact h
  | cons entry es ih =>
    have hrest := fun e he => hfits e (List.mem_cons_of_mem _ he)
    cases entry with
    | none => exact ih h hrest
    | some e =>
      have hcons : (some e :: es).filterMap (fun e => e) = [e] ++ es.filterMap fun e => e := rfl
      exact ih (h.saveEntry (hfits e (List.mem_cons_self ..))) hrest

/-- Erasing the wanted entries from `start` on. -/
theorem deleteEntries (hkeys : ∀ k v, db.get k = some v → IsKey k)
    (start : ℕ) (wanted : ℕ → Bool) (hs : start < 2 ^ 64)
    (hwanted : ∀ i j, start ≤ i → i ≤ j → wanted j = true → wanted i = true) :
    Records cs r (db.deleteEntries r wanted (entryKey r start))
      { s with entries := fun i => if start ≤ i ∧ wanted i = true then none else s.entries i } := by
  have hother (k : Bytes) (hk : ∀ i, k ≠ entryKey r i) :
      (db.deleteEntries r wanted (entryKey r start)).get k = db.get k := by
    rw [get_deleteEntries hkeys hs hwanted, if_neg]
    rintro ⟨i, -, hki, -⟩
    exact hk i hki
  constructor
  · rw [Database.loadHardState, hother _ fun i => hardStateKey_ne_entryKey r r i]
    exact h.hardState
  · rw [Database.loadSnapshot, hother _ fun i => snapshotKey_ne_entryKey r r i]
    exact h.snapshot
  · intro i hi
    rw [get_deleteEntries hkeys hs hwanted, h.entries i hi]
    have hiff : (∃ j < 2 ^ 64, entryKey r i = entryKey r j ∧ start ≤ j ∧ wanted j = true) ↔
        start ≤ i ∧ wanted i = true := by
      constructor
      · rintro ⟨j, hj, hkey, hle, hw⟩
        obtain ⟨-, rfl⟩ := (entryKey_inj hi hj).mp hkey
        exact ⟨hle, hw⟩
      · rintro ⟨hle, hw⟩
        exact ⟨i, hi, rfl, hle, hw⟩
    simp only [hiff]
    split_ifs <;> rfl
  · intro i e he
    dsimp only at he
    split_ifs at he
    exact h.fits i e he

theorem compact (hkeys : ∀ k v, db.get k = some v → IsKey k) (c : ℕ) :
    Records cs r (db.compact r c) (s.compact c) := by
  unfold Database.compact RaftStorage.compact
  split_ifs with hc
  · exact h
  · have hdel := h.deleteEntries hkeys 0 (fun i => i < c) (by norm_num)
      fun i j _ hij hj => by simp at hj ⊢; omega
    simpa using hdel

theorem truncateFrom (hkeys : ∀ k v, db.get k = some v → IsKey k)
    {t : ℕ} (ht : t < 2 ^ 64) :
    Records cs r (db.truncateFrom r t) (s.truncateFrom t) := by
  have hdel := h.deleteEntries hkeys t (fun i => i ≥ t) ht
    fun i j hi _ _ => by simpa using hi
  simpa [RaftStorage.truncateFrom, Database.truncateFrom] using hdel

end

theorem loadLoop_eq (cs : RaftCodecs) (r hi : ℕ) (items : List (Bytes × Bytes)) :
    Database.loadLoop cs r hi items =
      (items.takeWhile fun kv => Database.selects r (fun index => !(index ≥ hi)) kv.1).mapM
        fun kv => cs.entry.unmarshal kv.2 := by
  induction items with
  | nil => rfl
  | cons kv items ih =>
    obtain ⟨key, value⟩ := kv
    rw [Database.loadLoop, List.takeWhile_cons]
    split_ifs
    · rw [List.mapM_cons, ih]
      cases cs.entry.unmarshal value with
      | none => rfl
      | some e => simp [Option.map_eq_bind]
    · rfl

theorem mapM_unmarshal (ies : List (ℕ × Entry)) (hfits : ∀ ie ∈ ies, ie.2.Fits) :
    (ies.map fun ie => (entryKey r ie.1, cs.entry.marshal ie.2)).mapM
        (fun kv => cs.entry.unmarshal kv.2) = some (ies.map Prod.snd) := by
  induction ies with
  | nil => rfl
  | cons ie ies ih =>
    rw [List.map_cons, List.mapM_cons, ih fun x hx => hfits x (List.mem_cons_of_mem _ hx),
      cs.entry.unmarshal_marshal _ (hfits ie (List.mem_cons_self ..))]
    rfl

/-- The indices of `[lo, hi)` that have an entry, with it. -/
def indexed (s : RaftStorage) (lo hi : ℕ) : List (ℕ × Entry) :=
  (List.range' lo (hi - lo)).filterMap fun i => (s.entries i).map fun e => (i, e)

theorem mem_indexed {lo hi i : ℕ} {e : Entry} :
    (i, e) ∈ indexed s lo hi ↔ lo ≤ i ∧ i < hi ∧ s.entries i = some e := by
  simp only [indexed, List.mem_filterMap, List.mem_range'_1, Option.map_eq_some_iff,
    Prod.mk.injEq]
  constructor
  · rintro ⟨j, ⟨hle, hlt⟩, e', he, rfl, rfl⟩
    exact ⟨hle, by omega, he⟩
  · rintro ⟨hle, hlt, he⟩
    exact ⟨i, ⟨hle, by omega⟩, e, he, rfl, rfl⟩

theorem pairwise_indexed (s : RaftStorage) (lo hi : ℕ) :
    (indexed s lo hi).Pairwise fun a b => a.1 < b.1 := by
  refine List.Pairwise.filterMap _ ?_ List.pairwise_lt_range'
  intro i j hij x hx y hy
  obtain ⟨-, -, rfl⟩ := Option.map_eq_some_iff.mp hx
  obtain ⟨-, -, rfl⟩ := Option.map_eq_some_iff.mp hy
  exact hij

theorem map_snd_indexed (s : RaftStorage) (lo hi : ℕ) :
    (indexed s lo hi).map Prod.snd = s.loadEntries lo hi := by
  rw [indexed, List.map_filterMap, RaftStorage.loadEntries]
  congr 1
  funext i
  cases s.entries i <;> rfl

section

variable (h : Records cs r db s) (hkeys : ∀ k v, db.get k = some v → IsKey k) {lo : ℕ}
  (hlo : lo < 2 ^ 64) (hi : ℕ)

include h hkeys hlo hi

/-- The loop passes exactly the records of the wanted indices. -/
theorem selected_eq_indexed :
    (db.scan (entryKey r lo)).takeWhile
        (fun kv => Database.selects r (fun index => !(index ≥ hi)) kv.1) =
      (indexed s lo hi).map fun ie => (entryKey r ie.1, cs.entry.marshal ie.2) := by
  have hwanted : ∀ i j, lo ≤ i → i ≤ j → (!decide (j ≥ hi)) = true → (!decide (i ≥ hi)) = true := by
    intro i j _ hij hj
    simp at hj ⊢
    omega
  apply OrderedMap.eq_of_mem_iff
  · exact (db.pairwise_scan _).sublist (List.takeWhile_sublist _)
  · rw [List.pairwise_map]
    refine List.Pairwise.imp_of_mem ?_ (pairwise_indexed s lo hi)
    rintro ⟨i, e⟩ ⟨j, e'⟩ hie hje hij
    have hi64 := (h.fits i e (mem_indexed.mp hie).2.2).1
    have hj64 := (h.fits j e' (mem_indexed.mp hje).2.2).1
    exact not_le.mp fun hle => absurd ((entryKey_le_iff hj64 hi64).mp hle) (not_le.mpr hij)
  · intro k v
    rw [mem_selected hkeys hlo hwanted, List.mem_map]
    constructor
    · rintro ⟨i, hi64, rfl, hle, hlt, hget⟩
      rw [h.entries i hi64] at hget
      obtain ⟨e, he, rfl⟩ := Option.map_eq_some_iff.mp hget
      exact ⟨(i, e), mem_indexed.mpr ⟨hle, by simpa using hlt, he⟩, rfl⟩
    · rintro ⟨⟨i, e⟩, hie, heq⟩
      cases heq
      obtain ⟨hle, hlt, he⟩ := mem_indexed.mp hie
      have hi64 := (h.fits i e he).1
      exact ⟨i, hi64, rfl, hle, by simpa using hlt, by rw [h.entries i hi64, he]; rfl⟩

/-- The entries of a region are loaded in the order of their indices. -/
theorem loadEntries :
    db.loadEntries cs r lo hi = some (s.loadEntries lo hi) := by
  rw [Database.loadEntries, loadLoop_eq, h.selected_eq_indexed hkeys hlo, mapM_unmarshal,
    map_snd_indexed]
  rintro ⟨i, e⟩ hie
  exact (h.fits i e (mem_indexed.mp hie).2.2).2

end

end Records

/-! ### Runs -/

/-- A call of the Raft storage or of the data of one region. -/
inductive StorageCall where
  | saveHardState (regionID : ℕ) (state : HardState)
  | saveEntries (regionID : ℕ) (entries : List (Option Entry))
  | compact (regionID index : ℕ)
  | truncateFrom (regionID index : ℕ)
  | saveSnapshot (regionID : ℕ) (snapshot : Snapshot)
  | write (regionID : ℕ) (modifications : List Modify)
  /-- The snapshot of the region in another database. -/
  | applySnapshot (regionID : ℕ) (source : Database)

namespace StorageCall

/-- The region whose Raft state the call is about; none for region data. -/
def raftRegion : StorageCall → Option ℕ
  | saveHardState r _ | saveEntries r _ | compact r _ | truncateFrom r _ | saveSnapshot r _ =>
    some r
  | write _ _ | applySnapshot _ _ => none

def Fits : StorageCall → Prop
  | saveHardState _ state => state.Fits
  | saveEntries _ entries => ∀ e, some e ∈ entries → e.Fits
  | truncateFrom _ index => index < 2 ^ 64
  | saveSnapshot _ snapshot => snapshot.Fits
  | compact _ _ | write _ _ | applySnapshot _ _ => True

def run (cs : RaftCodecs) (sc : SnapshotCodec) (db : Database) : StorageCall → Database
  | saveHardState r state => db.saveHardState r state
  | saveEntries r entries => db.saveEntries cs r entries
  | compact r index => db.compact r index
  | truncateFrom r index => db.truncateFrom r index
  | saveSnapshot r snapshot => db.saveSnapshot cs r snapshot
  | write r modifications => db.writeRegion r modifications
  | applySnapshot r source =>
    (lsmApplySnapshot sc r false (sc.marshal (source.scanUnder (regionDataPrefix r) [])) db).1

/-- The call on the abstract storage of its region. -/
def act (s : RaftStorage) : StorageCall → RaftStorage
  | saveHardState _ state => s.saveHardState state
  | saveEntries _ entries => s.saveEntries (entries.filterMap fun e => e)
  | compact _ index => s.compact index
  | truncateFrom _ index => s.truncateFrom index
  | saveSnapshot _ snapshot => s.saveSnapshot snapshot
  | write _ _ | applySnapshot _ _ => s

end StorageCall

/-- The abstract storage of a region after the calls: those of other regions do not count. -/
def abstractStorage (r : ℕ) (calls : List StorageCall) : RaftStorage :=
  (calls.filter fun call => call.raftRegion = some r).foldl StorageCall.act {}

def runCalls (cs : RaftCodecs) (sc : SnapshotCodec) (calls : List StorageCall) : Database :=
  calls.foldl (StorageCall.run cs sc) OrderedMap.empty

section Runs

variable {cs : RaftCodecs} {sc : SnapshotCodec} {db : Database} {call : StorageCall}

/-- The keys of one region's Raft state, or those of region data. -/
def Owns : Option ℕ → Bytes → Prop
  | some r, key => regionPrefix r <+: key
  | none, key => IsData key

variable {key : Bytes}

theorem Owns.ne {owner : Option ℕ} (h : Owns owner key) {r : ℕ}
    (hr : owner ≠ some r) (a : Bytes) : key ≠ regionPrefix r ++ a := by
  rintro rfl
  cases owner with
  | none => exact not_isData_regionPrefix_append r a h
  | some r' =>
    obtain ⟨b, hb⟩ := h
    exact hr (congrArg some (regionPrefix_append_inj hb).1)

/-- The database after a call is the one before it with a batch of operations on keys that the
call owns. -/
structure Batched (owner : Option ℕ) (db db' : Database) (batch : List BatchOp) : Prop where
  eq : db' = db.write batch
  owned : ∀ op ∈ batch, Owns owner op.key
  isKey : ∀ k v, .put k v ∈ batch → IsKey k

theorem Batched.nil (owner : Option ℕ) (db : Database) : Batched owner db db [] where
  eq := rfl
  owned := by simp
  isKey := by simp

theorem Batched.put {owner : Option ℕ} (h : Owns owner key) (hkey : IsKey key)
    (db : Database) (value : Bytes) :
    Batched owner db (db.write [.put key value]) [.put key value] where
  eq := rfl
  owned op hop := by
    obtain rfl := List.mem_singleton.mp hop
    exact h
  isKey _ _ hput := by
    obtain ⟨rfl, rfl⟩ := BatchOp.put.inj (List.mem_singleton.mp hput)
    exact hkey

/-- Region data is its own kind of key. -/
theorem Batched.data {batch : List BatchOp} (h : ∀ op ∈ batch, IsData op.key) (db : Database) :
    Batched none db (db.write batch) batch where
  eq := rfl
  owned := h
  isKey _ _ hput := .data (h _ hput)

theorem Batched.deleteEntries (r : ℕ) (db : Database) (wanted : ℕ → Bool) (start : Bytes) :
    ∃ batch, Batched (some r) db (db.deleteEntries r wanted start) batch := by
  refine ⟨_, rfl, ?_, ?_⟩
  · intro op hop
    obtain ⟨key, hkey, rfl⟩ := List.mem_map.mp hop
    obtain ⟨kv, hkv, rfl⟩ := List.mem_map.mp hkey
    have hsel := List.mem_takeWhile_imp hkv
    exact (List.prefix_append _ _).trans (prefix_of_selects hsel)
  · intro k v hput
    simp at hput

theorem isData_of_regionDataPrefix {r : ℕ} (h : regionDataPrefix r <+: key) :
    IsData key := by
  refine List.IsPrefix.trans ?_ h
  exact List.prefix_append ..

theorem StorageCall.exists_batch (cs : RaftCodecs) (sc : SnapshotCodec) (h : call.Fits)
    (db : Database) :
    ∃ batch, Batched call.raftRegion db (call.run cs sc db) batch := by
  cases call with
  | saveHardState r state =>
    have howns : Owns (some r) (hardStateKey r) := List.prefix_append ..
    exact ⟨_, .put howns (.hardState r) db _⟩
  | saveSnapshot r snapshot =>
    have howns : Owns (some r) (snapshotKey r) := List.prefix_append ..
    exact ⟨_, .put howns (.snapshot r) db _⟩
  | saveEntries r entries =>
    refine ⟨_, rfl, ?_, ?_⟩
    · intro op hop
      obtain ⟨entry, -, hentry⟩ := List.mem_filterMap.mp hop
      obtain ⟨e, -, rfl⟩ := Option.map_eq_some_iff.mp hentry
      exact ⟨_, (entryKey_eq r e.index).symm⟩
    · intro k v hput
      obtain ⟨entry, hmem, hentry⟩ := List.mem_filterMap.mp hput
      obtain ⟨e, rfl, he⟩ := Option.map_eq_some_iff.mp hentry
      obtain ⟨rfl, -⟩ := BatchOp.put.inj he
      exact .entry r (h e hmem).2
  | compact r index =>
    rw [StorageCall.run, Database.compact]
    split_ifs
    · exact ⟨[], .nil _ db⟩
    · exact Batched.deleteEntries r db _ _
  | truncateFrom r index => exact Batched.deleteEntries r db _ _
  | write r modifications =>
    refine ⟨_, .data ?_ db⟩
    intro op hop
    obtain ⟨m, -, rfl⟩ := List.mem_map.mp hop
    rw [Modify.op_key]
    exact encodeKey_isData ..
  | applySnapshot r source =>
    rw [StorageCall.run, lsmApplySnapshot]
    by_cases hlen : (sc.marshal (source.scanUnder (regionDataPrefix r) [])).length = 0
    · rw [if_pos hlen]
      exact ⟨[], .nil _ db⟩
    · rw [if_neg hlen, sc.unmarshal_marshal _ trivial]
      refine ⟨_, .data ?_ db⟩
      intro op hop
      rcases List.mem_append.mp hop with herase | hput
      · obtain ⟨key, hkey, rfl⟩ := List.mem_map.mp herase
        obtain ⟨kv, hkv, rfl⟩ := List.mem_map.mp hkey
        exact isData_of_regionDataPrefix (mem_scanUnder_region.mp hkv).1
      · obtain ⟨kv, hkv, rfl⟩ := List.mem_map.mp hput
        exact isData_of_regionDataPrefix (mem_scanUnder_region.mp hkv).1

/-- One call keeps the records of a region, or changes them as the abstract call does. -/
theorem Records.step {r : ℕ} {s : RaftStorage} (h : Records cs r db s)
    (hkeys : ∀ k v, db.get k = some v → IsKey k) (hfits : call.Fits) :
    Records cs r (call.run cs sc db) (if call.raftRegion = some r then call.act s else s) := by
  split_ifs with hr
  · cases call with
    | write r' modifications => simp [StorageCall.raftRegion] at hr
    | applySnapshot r' source => simp [StorageCall.raftRegion] at hr
    | saveHardState r' state =>
      cases hr
      exact h.saveHardState hfits
    | saveEntries r' entries =>
      cases hr
      exact h.saveEntries hfits
    | compact r' index =>
      cases hr
      exact h.compact hkeys index
    | truncateFrom r' index =>
      cases hr
      exact h.truncateFrom hkeys hfits
    | saveSnapshot r' snapshot =>
      cases hr
      exact h.saveSnapshot hfits
  · obtain ⟨batch, hbatch⟩ := call.exists_batch cs sc hfits db
    apply h.frame
    intro a
    rw [hbatch.eq]
    exact Database.get_write_of_notMem fun op hop => (hbatch.owned op hop).ne hr a

theorem runCalls_concat (cs : RaftCodecs) (sc : SnapshotCodec) (calls : List StorageCall)
    (call : StorageCall) :
    runCalls cs sc (calls ++ [call]) = call.run cs sc (runCalls cs sc calls) := by
  simp [runCalls]

theorem abstractStorage_concat (r : ℕ) (calls : List StorageCall) (call : StorageCall) :
    abstractStorage r (calls ++ [call]) =
      if call.raftRegion = some r then call.act (abstractStorage r calls)
      else abstractStorage r calls := by
  rw [abstractStorage, List.filter_append, List.foldl_append]
  split_ifs with hr
  · rw [List.filter_singleton, decide_eq_true hr]
    rfl
  · rw [List.filter_singleton, decide_eq_false hr]
    rfl

/-- What every run of calls keeps. -/
theorem records_runCalls (cs : RaftCodecs) (sc : SnapshotCodec) {calls : List StorageCall}
    (hfits : ∀ call ∈ calls, call.Fits) :
    (∀ k v, (runCalls cs sc calls).get k = some v → IsKey k) ∧
      ∀ r, Records cs r (runCalls cs sc calls) (abstractStorage r calls) := by
  induction calls using List.reverseRecOn with
  | nil =>
    constructor
    · intro k v h
      simp [runCalls, OrderedMap.empty] at h
    · exact Records.empty cs
  | append_singleton calls call ih =>
    obtain ⟨hkeys, hrecords⟩ := ih fun c hc => hfits c (List.mem_append_left _ hc)
    have hcall : call.Fits := hfits call (by simp)
    rw [runCalls_concat]
    constructor
    · intro k v hget
      obtain ⟨batch, hbatch⟩ := call.exists_batch cs sc hcall (runCalls cs sc calls)
      rw [hbatch.eq] at hget
      rcases Database.put_of_get_write hget with hput | hdb
      · exact hbatch.isKey k v hput
      · exact hkeys k v hdb
    · intro r
      rw [abstractStorage_concat]
      exact (hrecords r).step hkeys hcall

end Runs

/-- The Raft storage refines one index-to-entry map a region: after any calls on any regions,
entries, hard state and snapshot of a region are loaded as its own calls have left them, except
that a snapshot with index zero is loaded as nil; a call of another region or on region data
changes nothing of it. -/
theorem raft_storage_refines (cs : RaftCodecs) (sc : SnapshotCodec) {calls : List StorageCall}
    (hfits : ∀ call ∈ calls, call.Fits) (r : ℕ) :
    (∀ lo hi, lo < 2 ^ 64 → (runCalls cs sc calls).loadEntries cs r lo hi =
      some ((List.range' lo (hi - lo)).filterMap (abstractStorage r calls).entries)) ∧
    (runCalls cs sc calls).loadHardState r = (abstractStorage r calls).hardState ∧
    (runCalls cs sc calls).loadSnapshot cs r =
      some ((abstractStorage r calls).snapshot.filter fun snapshot => snapshot.index ≠ 0) ∧
    ∀ call : StorageCall, call.Fits → call.raftRegion ≠ some r →
      (∀ lo hi, lo < 2 ^ 64 → (call.run cs sc (runCalls cs sc calls)).loadEntries cs r lo hi =
        (runCalls cs sc calls).loadEntries cs r lo hi) ∧
      (call.run cs sc (runCalls cs sc calls)).loadHardState r =
        (runCalls cs sc calls).loadHardState r ∧
      (call.run cs sc (runCalls cs sc calls)).loadSnapshot cs r =
        (runCalls cs sc calls).loadSnapshot cs r := by
  obtain ⟨hkeys, hrecords⟩ := records_runCalls cs sc hfits
  have hr := hrecords r
  refine ⟨fun lo hi hlo => hr.loadEntries hkeys hlo hi, hr.hardState, hr.snapshot, ?_⟩
  intro call hcall hother
  have hfits' : ∀ c ∈ calls ++ [call], c.Fits := by
    simpa [or_imp, forall_and] using ⟨hfits, hcall⟩
  obtain ⟨hkeys', hrecords'⟩ := records_runCalls cs sc hfits'
  have hr' := hrecords' r
  rw [runCalls_concat] at hkeys' hr'
  rw [abstractStorage_concat, if_neg hother] at hr'
  refine ⟨?_, ?_, ?_⟩
  · intro lo hi hlo
    rw [hr'.loadEntries hkeys' hlo, hr.loadEntries hkeys hlo]
  · rw [hr'.hardState, hr.hardState]
  · rw [hr'.snapshot, hr.snapshot]

instance : Encodable Entry :=
  Encodable.ofLeftInjection (fun e => (e.term, e.index, e.data)) (fun x => some ⟨x.1, x.2.1, x.2.2⟩)
    fun _ => rfl

instance : Encodable Snapshot :=
  Encodable.ofLeftInjection (fun s => (s.data, s.index, s.term)) (fun x => some ⟨x.1, x.2.1, x.2.2⟩)
    fun _ => rfl

/-- Some serialisation of the messages. -/
def RaftCodecs.unary : RaftCodecs := ⟨.unary {}, .unary {}⟩

theorem raft_storage_refines_one :
    (∀ call ∈ [StorageCall.saveEntries 1 [some ⟨1, 1, []⟩], .compact 10 5], call.Fits) ∧
      (runCalls .unary (.unary [])
        [.saveEntries 1 [some ⟨1, 1, []⟩], .compact 10 5]).loadEntries .unary 1 0 3 =
          some [⟨1, 1, []⟩] := by
  have hfits : ∀ call ∈ [StorageCall.saveEntries 1 [some ⟨1, 1, []⟩], .compact 10 5],
      call.Fits := by
    simp [StorageCall.Fits, Entry.Fits]
  refine ⟨hfits, ?_⟩
  rw [(raft_storage_refines .unary (.unary []) hfits 1).1 0 3 (by norm_num)]
  rfl

/-- A saved snapshot with index zero is loaded as nil. -/
theorem zero_snapshot_loads_nil :
    ((runCalls .unary (.unary []) [.saveSnapshot 1 ⟨[], 0, 1⟩]).loadSnapshot .unary 1 =
      some none) ∧ (abstractStorage 1 [.saveSnapshot 1 ⟨[], 0, 1⟩]).snapshot = some ⟨[], 0, 1⟩ := by
  have hfits : ∀ call ∈ [StorageCall.saveSnapshot 1 ⟨[], 0, 1⟩], call.Fits := by
    simp [StorageCall.Fits, Snapshot.Fits]
  exact ⟨((records_runCalls .unary (.unary []) hfits).2 1).snapshot, rfl⟩

end Mizu
