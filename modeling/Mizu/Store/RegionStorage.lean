import Mizu.Library.Codec
import Mizu.Library.OrderedMap
import Mizu.Store.Keys

/-!
# Region data

`lsmRegionStorage` of `kv/storage/lsm.go`, `badgerRegionStorage` of `kv/storage/badger.go` and
`Node.ApplyCommand` of `kv/node/node.go`, over a database that is an atomic ordered map of byte
strings. The data of every region and the Raft state share one database.
-/

namespace Mizu

abbrev Database := OrderedMap Bytes Bytes

/-- One operation of a batch. -/
inductive BatchOp where
  | put (key value : Bytes)
  | erase (key : Bytes)
  deriving DecidableEq, Repr

namespace BatchOp

def apply (db : Database) : BatchOp → Database
  | put key value => db.put key value
  | erase key => db.erase key

def key : BatchOp → Bytes
  | put key _ => key
  | erase key => key

/-- What the operation leaves under its key. -/
def value : BatchOp → Option Bytes
  | put _ value => some value
  | erase _ => none

theorem get_apply (db : Database) (op : BatchOp) (k : Bytes) :
    (op.apply db).get k = if k = op.key then op.value else db.get k := by
  cases op with
  | put key value => exact OrderedMap.get_put db key k value
  | erase key => exact OrderedMap.get_erase db key k

end BatchOp

/-- `DB::Write`: the operations of the batch, one after the other. -/
def Database.write (db : Database) (batch : List BatchOp) : Database :=
  batch.foldl (fun db op => op.apply db) db

namespace Database

variable {db : Database} {batch : List BatchOp} {k : Bytes}

@[simp] theorem write_cons (db : Database) (op : BatchOp) (batch : List BatchOp) :
    db.write (op :: batch) = (op.apply db).write batch := rfl

theorem write_append (db : Database) (a b : List BatchOp) :
    db.write (a ++ b) = (db.write a).write b := List.foldl_append

/-- A key that no operation of the batch names. -/
theorem get_write_of_notMem (h : ∀ op ∈ batch, op.key ≠ k) :
    (db.write batch).get k = db.get k := by
  induction batch generalizing db with
  | nil => rfl
  | cons op batch ih =>
    rw [write_cons, ih fun o ho => h o (List.mem_cons_of_mem _ ho), BatchOp.get_apply,
      if_neg fun hk => h op (List.mem_cons_self ..) hk.symm]

/-- Only the operations on a key matter for its value. -/
theorem get_write_filter (db : Database) (batch : List BatchOp) (k : Bytes) :
    (db.write batch).get k = (db.write (batch.filter fun op => op.key = k)).get k := by
  suffices ∀ db' : Database, db.get k = db'.get k →
      (db.write batch).get k = (db'.write (batch.filter fun op => op.key = k)).get k from
    this db rfl
  induction batch generalizing db with
  | nil => exact fun _ h => h
  | cons op batch ih =>
    intro db' h
    rw [write_cons, List.filter_cons]
    split_ifs with hk
    · apply ih
      rw [BatchOp.get_apply, BatchOp.get_apply, h]
    · apply ih
      rw [BatchOp.get_apply, if_neg fun he => hk (decide_eq_true he.symm), h]

theorem get_write_erase (keys : List Bytes) :
    (db.write (keys.map .erase)).get k = if k ∈ keys then none else db.get k := by
  induction keys generalizing db with
  | nil => rfl
  | cons key keys ih =>
    rw [List.map_cons, write_cons, ih, BatchOp.get_apply]
    by_cases hk : k = key
    · simp [hk, BatchOp.key, BatchOp.value]
    · simp [hk, BatchOp.key]

theorem get_write_put {kvs : List (Bytes × Bytes)} (h : kvs.Pairwise fun a b => a.1 ≠ b.1)
    {v : Bytes} (hv : (k, v) ∈ kvs) :
    (db.write (kvs.map fun kv => .put kv.1 kv.2)).get k = some v := by
  induction kvs generalizing db with
  | nil => simp at hv
  | cons kv kvs ih =>
    rw [List.pairwise_cons] at h
    rw [List.map_cons, write_cons]
    rcases List.mem_cons.mp hv with rfl | hv
    · rw [get_write_of_notMem, BatchOp.get_apply]
      · exact if_pos rfl
      intro op hop
      obtain ⟨kv, hkv, rfl⟩ := List.mem_map.mp hop
      exact (h.1 kv hkv).symm
    · exact ih h.2 hv

end Database

/-! ### Logical keys -/

def decodeUserKey (regionID : ℕ) (cf encodedKey : Bytes) : Option Bytes :=
  if (encodeCFPrefix regionID cf).isPrefixOf encodedKey then
    some (encodedKey.drop (encodeCFPrefix regionID cf).length)
  else none

@[simp] theorem decodeUserKey_encodeKey (r : ℕ) (cf key : Bytes) :
    decodeUserKey r cf (encodeKey r key cf) = some key := by
  rw [decodeUserKey, encodeKey, if_pos (List.isPrefixOf_iff_prefix.mpr (List.prefix_append ..)),
    List.drop_left]

variable {r : ℕ}

theorem decodeUserKey_eq_some {cf encoded key : Bytes} :
    decodeUserKey r cf encoded = some key ↔ encoded = encodeKey r key cf := by
  constructor
  · intro h
    unfold decodeUserKey at h
    split_ifs at h with hp
    obtain ⟨rest, rfl⟩ := List.isPrefixOf_iff_prefix.mp hp
    rw [Option.some_inj, List.drop_left] at h
    rw [encodeKey, h]
  · rintro rfl
    exact decodeUserKey_encodeKey r cf key

theorem regionDataPrefix_append_inj {r' : ℕ} {a b : Bytes}
    (h : regionDataPrefix r ++ a = regionDataPrefix r' ++ b) : r = r' ∧ a = b := by
  have hsplit (n : ℕ) (x : Bytes) :
      regionDataPrefix n ++ x = text "data/" ++ (formatUint n ++ slash :: x) := by
    have : text "/" = [slash] := by decide
    simp [regionDataPrefix, this]
  rw [hsplit, hsplit] at h
  obtain ⟨hdigits, hrest⟩ := Lexicographic.append_cons_inj (slash_notMem_formatUint r)
    (slash_notMem_formatUint r') (List.append_cancel_left h)
  exact ⟨formatUint_injective hdigits, hrest⟩

theorem encodeKey_eq (r : ℕ) (key cf : Bytes) :
    encodeKey r key cf = regionDataPrefix r ++ (cf ++ slash :: key) := by
  simp [encodeKey, encodeCFPrefix]

/-- Column families none of which goes on behind another one and a slash. -/
def Separate (families : Bytes → Prop) : Prop :=
  ∀ cf cf', families cf → families cf' → ¬cf ++ [slash] <+: cf'

section Separate

variable {families : Bytes → Prop} {cf cf' : Bytes}

/-- What follows the region in an encoded key, read back. -/
theorem Separate.append_inj (h : Separate families) (hcf : families cf) (hcf' : families cf')
    {key key' : Bytes} (heq : cf ++ slash :: key = cf' ++ slash :: key') :
    cf = cf' ∧ key = key' := by
  rcases List.append_eq_append_iff.mp heq with ⟨rest, rfl, hk⟩ | ⟨rest, rfl, hk⟩
  · cases rest with
    | nil => exact ⟨by simp, (List.cons.inj hk).2⟩
    | cons x rest =>
      obtain rfl := (List.cons.inj hk).1
      exact absurd ⟨rest, by simp⟩ (h _ _ hcf hcf')
  · cases rest with
    | nil => exact ⟨by simp, (List.cons.inj hk).2.symm⟩
    | cons x rest =>
      obtain rfl := (List.cons.inj hk).1
      exact absurd ⟨rest, by simp⟩ (h _ _ hcf' hcf)

/-- The region of an encoded key can always be read back, the column family only when it is
separate from the others. -/
theorem encodeKey_inj (hsep : Separate families) {r' : ℕ} {key key' : Bytes} (hcf : families cf)
    (hcf' : families cf') (h : encodeKey r key cf = encodeKey r' key' cf') :
    r = r' ∧ cf = cf' ∧ key = key' := by
  rw [encodeKey_eq, encodeKey_eq] at h
  obtain ⟨hr, hrest⟩ := regionDataPrefix_append_inj h
  exact ⟨hr, hsep.append_inj hcf hcf' hrest⟩

/-- Otherwise one encoded key belongs to two column families. -/
theorem separate_of_encodeKey_inj (h : ∀ cf cf' key key', families cf → families cf' →
    encodeKey r key cf = encodeKey r key' cf' → cf = cf') : Separate families := by
  rintro cf _ hcf hcf' ⟨rest, rfl⟩
  have heq := h cf _ (rest ++ [slash]) [] hcf hcf' (by simp [encodeKey_eq])
  have := congrArg List.length heq
  simp at this

end Separate

theorem decodeUserKey_encodeKey_iff {families : Bytes → Prop} (hsep : Separate families) {r' : ℕ}
    {cf cf' key key' : Bytes} (hcf : families cf) (hcf' : families cf') :
    decodeUserKey r cf (encodeKey r' key' cf') = some key ↔ r = r' ∧ cf = cf' ∧ key' = key := by
  rw [decodeUserKey_eq_some]
  constructor
  · intro h
    obtain ⟨rfl, rfl, rfl⟩ := encodeKey_inj hsep hcf' hcf h
    exact ⟨rfl, rfl, rfl⟩
  · rintro ⟨rfl, rfl, rfl⟩
    rfl

/-! ### Commands -/

inductive Modify where
  | put (key value cf : Bytes)
  | delete (key cf : Bytes)
  deriving DecidableEq, Repr

namespace Modify

def cf : Modify → Bytes
  | put _ _ cf => cf
  | delete _ cf => cf

def key : Modify → Bytes
  | put key _ _ => key
  | delete key _ => key

def op (regionID : ℕ) : Modify → BatchOp
  | put key value cf => .put (encodeKey regionID key cf) value
  | delete key cf => .erase (encodeKey regionID key cf)

theorem op_key (r : ℕ) (m : Modify) : (m.op r).key = encodeKey r m.key m.cf := by
  cases m <;> rfl

end Modify

/-- `RegionStorage.Write` -/
def Database.writeRegion (db : Database) (regionID : ℕ) (modifications : List Modify) :
    Database :=
  db.write (modifications.map (Modify.op regionID))

/-- The requests of a command; those that only read carry nothing that is applied. -/
inductive KvRequest where
  | put (key value cf : Bytes)
  | delete (key cf : Bytes)
  | read
  deriving DecidableEq, Repr

def KvRequest.modify : KvRequest → Option Modify
  | put key value cf => some (.put key value cf)
  | delete key cf => some (.delete key cf)
  | read => none

/-- `Node.ApplyCommand`. A command without modifications writes no batch. -/
def applyCommand (regionID : ℕ) (requests : List KvRequest) (db : Database) : Database :=
  let mods := requests.filterMap KvRequest.modify
  if mods.length > 0 then db.writeRegion regionID mods else db

theorem applyCommand_eq (r : ℕ) (requests : List KvRequest) (db : Database) :
    applyCommand r requests db = db.writeRegion r (requests.filterMap KvRequest.modify) := by
  dsimp only [applyCommand]
  split_ifs with h
  · rfl
  · rw [List.length_eq_zero_iff.mp (Nat.eq_zero_of_not_pos h)]
    rfl

/-- The commands of a log, each with its region. -/
def applyCommands (commands : List (ℕ × List KvRequest)) (db : Database) : Database :=
  commands.foldl (fun db c => applyCommand c.1 c.2 db) db

/-- The modifications of the commands, in the order of the log. -/
def modifications (commands : List (ℕ × List KvRequest)) : List (ℕ × Modify) :=
  commands.flatMap fun c => (c.2.filterMap KvRequest.modify).map fun m => (c.1, m)

theorem modifications_cons (c : ℕ × List KvRequest) (commands : List (ℕ × List KvRequest)) :
    modifications (c :: commands) =
      (c.2.filterMap KvRequest.modify).map (fun m => (c.1, m)) ++ modifications commands :=
  List.flatMap_cons

theorem applyCommands_eq (commands : List (ℕ × List KvRequest)) (db : Database) :
    applyCommands commands db =
      db.write ((modifications commands).map fun m => m.2.op m.1) := by
  induction commands generalizing db with
  | nil => rfl
  | cons c commands ih =>
    have hcons : applyCommands (c :: commands) db =
        applyCommands commands (applyCommand c.1 c.2 db) := rfl
    rw [hcons, ih, applyCommand_eq, modifications_cons, List.map_append, Database.write_append,
      List.map_map]
    rfl

/-- `lsmRegionReader.GetCF`: a key that is not found and an empty value read the same. -/
def getCF (regionID : ℕ) (cf key : Bytes) (db : Database) : Bytes :=
  (db.get (encodeKey regionID key cf)).getD []

/-- What `IterCF` yields after `Seek(start)`. -/
def iterCF (regionID : ℕ) (cf start : Bytes) (db : Database) : List (Bytes × Bytes) :=
  db.scanUnder (encodeCFPrefix regionID cf) start

/-- The modifications of the commands with one region, column family and key. -/
def touching (r : ℕ) (cf key : Bytes) (c : ℕ × List KvRequest) : ℕ × List KvRequest :=
  (c.1, c.2.filter fun q =>
    q.modify.any fun m => c.1 = r ∧ m.cf = cf ∧ m.key = key)

theorem modifications_touching (r : ℕ) (cf key : Bytes) (commands : List (ℕ × List KvRequest)) :
    modifications (commands.map (touching r cf key)) =
      (modifications commands).filter fun m => m.1 = r ∧ m.2.cf = cf ∧ m.2.key = key := by
  have hone (n : ℕ) (requests : List KvRequest) :
      ((requests.filter fun q => q.modify.any fun m => n = r ∧ m.cf = cf ∧ m.key = key).filterMap
        KvRequest.modify).map (fun m => (n, m)) =
      ((requests.filterMap KvRequest.modify).map fun m => (n, m)).filter
        fun m => m.1 = r ∧ m.2.cf = cf ∧ m.2.key = key := by
    induction requests with
    | nil => rfl
    | cons q requests ih =>
      rw [List.filter_cons, List.filterMap_cons (l := requests)]
      cases hq : q.modify with
      | none => exact ih
      | some m =>
        rw [List.map_cons, List.filter_cons, ← ih, Option.any_some]
        split_ifs with hm
        · rw [List.filterMap_cons, hq]
          rfl
        · rfl
  induction commands with
  | nil => rfl
  | cons c commands ih =>
    rw [List.map_cons, modifications_cons, modifications_cons, List.filter_append, ← ih]
    exact congrArg (· ++ _) (hone c.1 c.2)

/-- Commands that use only the given column families. -/
def Uses (families : Bytes → Prop) (commands : List (ℕ × List KvRequest)) : Prop :=
  ∀ m ∈ modifications commands, families m.2.cf

variable {commands : List (ℕ × List KvRequest)} {families : Bytes → Prop}

/-- A read of a key sees only the modifications of that key. -/
theorem get_applyCommands (hsep : Separate families) {cf : Bytes} (key : Bytes) (hcf : families cf)
    (huses : Uses families commands) (db : Database) :
    (applyCommands commands db).get (encodeKey r key cf) =
      (applyCommands (commands.map (touching r cf key)) db).get (encodeKey r key cf) := by
  rw [applyCommands_eq, applyCommands_eq, modifications_touching, Database.get_write_filter,
    List.filter_map]
  congr 3
  apply List.filter_congr
  intro m hm
  have hiff : (m.2.op m.1).key = encodeKey r key cf ↔
      m.1 = r ∧ m.2.cf = cf ∧ m.2.key = key := by
    rw [Modify.op_key]
    constructor
    · exact encodeKey_inj hsep (huses m hm) hcf
    · rintro ⟨rfl, rfl, rfl⟩
      rfl
  simp only [Function.comp_apply, hiff]

/-- A value that a batch leaves was there or was put by the batch. -/
theorem Database.put_of_get_write {db : Database} {batch : List BatchOp} {k v : Bytes}
    (h : (db.write batch).get k = some v) : .put k v ∈ batch ∨ db.get k = some v := by
  induction batch generalizing db with
  | nil => exact .inr h
  | cons op batch ih =>
    rcases ih h with hmem | hget
    · exact .inl (List.mem_cons_of_mem _ hmem)
    · rw [BatchOp.get_apply] at hget
      split_ifs at hget with hk
      · cases op with
        | put key value =>
          obtain rfl : k = key := hk
          obtain rfl : value = v := Option.some_inj.mp hget
          exact .inl (List.mem_cons_self ..)
        | erase key => simp [BatchOp.value] at hget
      · exact .inr hget

theorem mem_iterCF {cf start k v : Bytes} {db : Database} :
    (k, v) ∈ iterCF r cf start db ↔
      ∃ key, k = encodeKey r key cf ∧ start ≤ key ∧ db.get k = some v :=
  OrderedMap.mem_scanUnder

/-- An iterator yields keys that were put under its column family, or that were there before
the commands. -/
theorem put_of_mem_iterCF (hsep : Separate families) {cf start k v : Bytes} (hcf : families cf)
    (huses : Uses families commands) {db : Database}
    (h : (k, v) ∈ iterCF r cf start (applyCommands commands db)) :
    ∃ key, k = encodeKey r key cf ∧
      ((r, .put key v cf) ∈ modifications commands ∨ db.get k = some v) := by
  obtain ⟨key, rfl, -, hget⟩ := mem_iterCF.mp h
  refine ⟨key, rfl, ?_⟩
  rw [applyCommands_eq] at hget
  rcases Database.put_of_get_write hget with hput | hdb
  · obtain ⟨⟨n, m⟩, hm, hop⟩ := List.mem_map.mp hput
    cases m with
    | put key' value cf' =>
      rw [Modify.op, BatchOp.put.injEq] at hop
      obtain ⟨rfl, rfl, rfl⟩ := encodeKey_inj hsep (huses _ hm) hcf hop.1
      rw [hop.2] at hm
      exact .inl hm
    | delete key' cf' => simp [Modify.op] at hop
  · exact .inr hdb

/-- The logical keys of a set of column families do not collide if and only if the column
families are separate: the encoding can be read back, and commands on one key are invisible to
reads and iterators of every other. -/
theorem logical_keys_separate (families : Bytes → Prop) :
    ((∀ r r' cf cf' key key', families cf → families cf' →
        encodeKey r key cf = encodeKey r' key' cf' → r = r' ∧ cf = cf' ∧ key = key') ∧
      (∀ r r' cf cf' key', families cf → families cf' →
        decodeUserKey r cf (encodeKey r' key' cf') =
          if r = r' ∧ cf = cf' then some key' else none) ∧
      (∀ commands, Uses families commands → ∀ r cf db key, families cf →
        getCF r cf key (applyCommands commands db) =
          getCF r cf key (applyCommands (commands.map (touching r cf key)) db)) ∧
      ∀ commands, Uses families commands → ∀ r cf start k v, families cf →
        (k, v) ∈ iterCF r cf start (applyCommands commands OrderedMap.empty) →
          ∃ key, k = encodeKey r key cf ∧ (r, .put key v cf) ∈ modifications commands) ↔
      Separate families := by
  constructor
  · rintro ⟨hinj, -⟩
    exact separate_of_encodeKey_inj fun cf cf' key key' hcf hcf' heq =>
      (hinj 0 0 cf cf' key key' hcf hcf' heq).2.1
  intro hsep
  refine ⟨?_, ?_, ?_, ?_⟩
  · intro r r' cf cf' key key' hcf hcf' h
    exact encodeKey_inj hsep hcf hcf' h
  · intro r r' cf cf' key' hcf hcf'
    split_ifs with h
    · obtain ⟨rfl, rfl⟩ := h
      exact decodeUserKey_encodeKey r cf key'
    · rw [Option.eq_none_iff_forall_ne_some]
      intro key hkey
      obtain ⟨hr, hc, -⟩ := (decodeUserKey_encodeKey_iff hsep hcf hcf').mp hkey
      exact h ⟨hr, hc⟩
  · intro commands huses r cf db key hcf
    rw [getCF, get_applyCommands hsep key hcf huses, getCF]
  · intro commands huses r cf start k v hcf h
    obtain ⟨key, hk, hput | hempty⟩ := put_of_mem_iterCF hsep hcf huses h
    · exact ⟨key, hk, hput⟩
    · simp [OrderedMap.empty] at hempty

/-- One column family reads what was put under another: `a/b` with key `c` and `a` with key
`b/c` are one key. -/
theorem logical_keys_collide :
    encodeKey 1 (text "c") (text "a/b") = encodeKey 1 (text "b/c") (text "a") ∧
    decodeUserKey 1 (text "a") (encodeKey 1 (text "c") (text "a/b")) = some (text "b/c") ∧
    getCF 1 (text "a") (text "b/c")
      (applyCommands [(1, [.put (text "c") (text "v") (text "a/b")])] OrderedMap.empty) =
        text "v" := by
  have hkey : encodeKey 1 (text "c") (text "a/b") = encodeKey 1 (text "b/c") (text "a") := by
    rw [encodeKey_eq, encodeKey_eq]
    exact congrArg _ (by decide)
  refine ⟨hkey, ?_, ?_⟩
  · rw [hkey]
    exact decodeUserKey_encodeKey ..
  · rw [getCF, ← hkey]
    have hget := OrderedMap.get_put (.empty : Database) (encodeKey 1 (text "c") (text "a/b"))
      (encodeKey 1 (text "c") (text "a/b")) (text "v")
    rw [if_pos rfl] at hget
    exact congrArg (Option.getD · []) hget

/-! ### Region snapshots -/

/-- The pairs of a `SnapshotData` message. -/
abbrev SnapshotData := List (Bytes × Bytes)

abbrev SnapshotCodec := Codec SnapshotData fun _ => True

/-- `lsmRegionStorage.CreateSnapshot`; `fault` says that a call of the database failed. -/
def lsmCreateSnapshot (codec : SnapshotCodec) (regionID : ℕ) (fault : Bool) (db : Database) :
    Option Bytes :=
  if fault then none else some (codec.marshal (db.scanUnder (regionDataPrefix regionID) []))

/-- `badgerRegionStorage.CreateSnapshot`: `ValidForPrefix` ends the same scan. -/
def badgerCreateSnapshot (codec : SnapshotCodec) (regionID : ℕ) (fault : Bool) (db : Database) :
    Option Bytes :=
  lsmCreateSnapshot codec regionID fault db

/-- `lsmRegionStorage.ApplySnapshot`: the database afterwards, and whether the call succeeded.
The keys are collected first; then one batch erases them and puts those of the snapshot. -/
def lsmApplySnapshot (codec : SnapshotCodec) (regionID : ℕ) (fault : Bool) (data : Bytes)
    (db : Database) : Database × Bool :=
  if data.length = 0 then (db, true) else
    match codec.unmarshal data with
    | none => (db, false)
    | some kvs =>
      if fault then (db, false) else
        let keys := (db.scanUnder (regionDataPrefix regionID) []).map Prod.fst
        (db.write (keys.map .erase ++ kvs.map fun kv => .put kv.1 kv.2), true)

/-- `badgerRegionStorage.ApplySnapshot`: the transaction deletes while it iterates over the
state at its start, and is committed as a whole or not at all. -/
def badgerApplySnapshot (codec : SnapshotCodec) (regionID : ℕ) (fault : Bool) (data : Bytes)
    (db : Database) : Database × Bool :=
  if data.length = 0 then (db, true) else
    match codec.unmarshal data with
    | none => (db, false)
    | some kvs =>
      let txn := (db.scanUnder (regionDataPrefix regionID) []).foldl (fun t kv => t.erase kv.1) db
      let txn := kvs.foldl (fun t kv => t.put kv.1 kv.2) txn
      if fault then (db, false) else (txn, true)

theorem badgerApplySnapshot_eq (codec : SnapshotCodec) (r : ℕ) (fault : Bool) (data : Bytes)
    (db : Database) :
    badgerApplySnapshot codec r fault data db = lsmApplySnapshot codec r fault data db := by
  unfold badgerApplySnapshot lsmApplySnapshot
  split
  · rfl
  · cases codec.unmarshal data with
    | none => rfl
    | some kvs =>
      simp only [Database.write, List.foldl_append, List.foldl_map]
      rfl

/-- `c` has the keys of the region from `a` and every other key from `b`. -/
structure Replaces (r : ℕ) (a b c : Database) : Prop where
  inside : ∀ k, regionDataPrefix r <+: k → c.get k = a.get k
  outside : ∀ k, ¬regionDataPrefix r <+: k → c.get k = b.get k

theorem mem_scanUnder_region {db : Database} {k v : Bytes} :
    (k, v) ∈ db.scanUnder (regionDataPrefix r) [] ↔
      regionDataPrefix r <+: k ∧ db.get k = some v := by
  rw [OrderedMap.mem_scanUnder]
  constructor
  · rintro ⟨y, rfl, -, hget⟩
    exact ⟨List.prefix_append .., hget⟩
  · rintro ⟨⟨y, rfl⟩, hget⟩
    exact ⟨y, rfl, not_lt.mp (List.not_lt_nil y), hget⟩

/-- The batch of a snapshot replaces the region. -/
theorem replaces_write (r : ℕ) (a b : Database) :
    Replaces r a b (b.write (((b.scanUnder (regionDataPrefix r) []).map Prod.fst).map .erase ++
      (a.scanUnder (regionDataPrefix r) []).map fun kv => .put kv.1 kv.2)) := by
  have hdistinct : (a.scanUnder (regionDataPrefix r) []).Pairwise fun x y => x.1 ≠ y.1 :=
    (a.pairwise_scanUnder _ _).imp fun h => ne_of_lt h
  have hput (k : Bytes) (h : ∀ v, (k, v) ∉ a.scanUnder (regionDataPrefix r) []) :
      ∀ op ∈ (a.scanUnder (regionDataPrefix r) []).map fun kv => BatchOp.put kv.1 kv.2,
        op.key ≠ k := by
    rintro op hop rfl
    obtain ⟨⟨k', v⟩, hkv, rfl⟩ := List.mem_map.mp hop
    exact h v hkv
  have herase (k : Bytes) : k ∈ (b.scanUnder (regionDataPrefix r) []).map Prod.fst ↔
      regionDataPrefix r <+: k ∧ ∃ v, b.get k = some v := by
    simp [mem_scanUnder_region]
  constructor
  · intro k hk
    rw [Database.write_append]
    cases hget : a.get k with
    | some v => exact Database.get_write_put hdistinct (mem_scanUnder_region.mpr ⟨hk, hget⟩)
    | none =>
      rw [Database.get_write_of_notMem (hput k fun v hv => ?_), Database.get_write_erase]
      · split_ifs with hmem
        · rfl
        · rw [Option.eq_none_iff_forall_ne_some]
          exact fun v hv => hmem ((herase k).mpr ⟨hk, v, hv⟩)
      · have := (mem_scanUnder_region.mp hv).2
        simp [hget] at this
  · intro k hk
    rw [Database.write_append, Database.get_write_of_notMem, Database.get_write_erase, if_neg]
    · exact fun hmem => hk ((herase k).mp hmem).1
    · exact hput k fun v hv => hk (mem_scanUnder_region.mp hv).1

/-- A region that has a key somewhere to be copied, or nothing to be replaced. -/
def Copies (r : ℕ) (a b : Database) : Prop :=
  (∃ k v, regionDataPrefix r <+: k ∧ a.get k = some v) ∨
    ∀ k, regionDataPrefix r <+: k → b.get k = none

theorem lsmApplySnapshot_of_create {codec : SnapshotCodec} (hdefault : codec.marshal [] = [])
    {a b : Database} (h : Copies r a b) {fault fault' : Bool} {d : Bytes}
    (hd : lsmCreateSnapshot codec r fault a = some d) :
    lsmApplySnapshot codec r fault' d b = (b, false) ∧ fault' = true ∨
      ∃ c, lsmApplySnapshot codec r fault' d b = (c, true) ∧ Replaces r a b c := by
  unfold lsmCreateSnapshot at hd
  split_ifs at hd
  cases hd
  unfold lsmApplySnapshot
  by_cases hlen : (codec.marshal (a.scanUnder (regionDataPrefix r) [])).length = 0
  · rw [if_pos hlen]
    -- The message is the default one, so the region has no key in `a`.
    have hnil : a.scanUnder (regionDataPrefix r) [] = [] := by
      rw [← codec.marshal_inj trivial trivial, hdefault]
      exact List.length_eq_zero_iff.mp hlen
    have hnone (k : Bytes) (hk : regionDataPrefix r <+: k) : a.get k = none := by
      rw [Option.eq_none_iff_forall_ne_some]
      intro v hv
      have := mem_scanUnder_region.mpr ⟨hk, hv⟩
      simp [hnil] at this
    refine .inr ⟨b, rfl, ?_, fun _ _ => rfl⟩
    intro k hk
    rcases h with ⟨k', v, hk', hv⟩ | hb
    · simp [hnone k' hk'] at hv
    · rw [hb k hk, hnone k hk]
  · rw [if_neg hlen, codec.unmarshal_marshal _ trivial]
    cases fault' with
    | true => exact .inl ⟨rfl, rfl⟩
    | false => exact .inr ⟨_, rfl, replaces_write r a b⟩

/-- Without a key to copy the snapshot is empty, and applying it changes nothing. -/
theorem copies_of_replaces {codec : SnapshotCodec} (hdefault : codec.marshal [] = [])
    {a b : Database} (h : ∀ d, lsmCreateSnapshot codec r false a = some d →
      ∀ c, lsmApplySnapshot codec r false d b = (c, true) → Replaces r a b c) : Copies r a b := by
  by_contra hnot
  obtain ⟨ha, hb⟩ := not_or.mp hnot
  have hnil : a.scanUnder (regionDataPrefix r) [] = [] := by
    rw [List.eq_nil_iff_forall_not_mem]
    rintro ⟨k, v⟩ hkv
    exact ha ⟨k, v, mem_scanUnder_region.mp hkv⟩
  have hsame := h [] (by simp [lsmCreateSnapshot, hnil, hdefault]) b rfl
  refine hb fun k hk => ?_
  rw [hsame.inside k hk, Option.eq_none_iff_forall_ne_some]
  exact fun v hv => ha ⟨k, v, hk, hv⟩

/-- A snapshot of one database replaces the region in another, for both engines, if and only if
the region has a key in the first or none in the second. Only a failed call of the database
fails. -/
theorem region_snapshot_replaces {codec : SnapshotCodec} (hdefault : codec.marshal [] = [])
    (r : ℕ) (a b : Database) :
    (∀ fault fault' d,
      (lsmCreateSnapshot codec r fault a = some d →
        lsmApplySnapshot codec r fault' d b = (b, false) ∧ fault' = true ∨
          ∃ c, lsmApplySnapshot codec r fault' d b = (c, true) ∧ Replaces r a b c) ∧
      (badgerCreateSnapshot codec r fault a = some d →
        badgerApplySnapshot codec r fault' d b = (b, false) ∧ fault' = true ∨
          ∃ c, badgerApplySnapshot codec r fault' d b = (c, true) ∧ Replaces r a b c)) ↔
      Copies r a b := by
  constructor
  · intro h
    refine copies_of_replaces hdefault fun d hd c hc => ?_
    obtain ⟨-, hfault⟩ | ⟨c', hc', hrep⟩ := (h false false d).1 hd
    · cases hfault
    · rw [hc] at hc'
      cases hc'
      exact hrep
  · intro h fault fault' d
    rw [badgerApplySnapshot_eq]
    exact ⟨lsmApplySnapshot_of_create hdefault h, lsmApplySnapshot_of_create hdefault h⟩

/-- One key of the region is replaced, one is erased, and a key of another region stays. -/
theorem region_snapshot_replaces_two : ∃ (a b c : Database) (d : Bytes),
    b.get (encodeKey 1 (text "k") (text "default")) = some (text "old") ∧
      b.get (encodeKey 1 (text "x") (text "default")) = some (text "gone") ∧
      lsmCreateSnapshot (.unary []) 1 false a = some d ∧
      lsmApplySnapshot (.unary []) 1 false d b = (c, true) ∧
      c.get (encodeKey 1 (text "k") (text "default")) = some (text "new") ∧
      c.get (encodeKey 1 (text "x") (text "default")) = none ∧
      c.get (encodeKey 10 (text "k") (text "default")) = some (text "kept") := by
  have hsep : Separate (· = text "default") := by
    rintro _ _ rfl rfl
    decide
  have hkx : encodeKey 1 (text "k") (text "default") ≠ encodeKey 1 (text "x") (text "default") :=
    fun h => absurd (encodeKey_inj hsep rfl rfl h).2.2 (by decide)
  have hother (k : Bytes) : encodeKey 1 k (text "default") ≠
      encodeKey 10 (text "k") (text "default") :=
    fun h => absurd (encodeKey_inj hsep rfl rfl h).1 (by decide)
  let a : Database := OrderedMap.empty.put (encodeKey 1 (text "k") (text "default")) (text "new")
  let b : Database := ((OrderedMap.empty.put (encodeKey 1 (text "k") (text "default"))
    (text "old")).put (encodeKey 1 (text "x") (text "default")) (text "gone")).put
      (encodeKey 10 (text "k") (text "default")) (text "kept")
  have hin (k : Bytes) : regionDataPrefix 1 <+: encodeKey 1 k (text "default") := by
    rw [encodeKey_eq]
    exact List.prefix_append ..
  have hout : ¬regionDataPrefix 1 <+: encodeKey 10 (text "k") (text "default") := by
    rintro ⟨rest, h⟩
    rw [encodeKey_eq] at h
    exact absurd (regionDataPrefix_append_inj h).1 (by decide)
  have ha : a.get (encodeKey 1 (text "k") (text "default")) = some (text "new") := by
    simp [a, OrderedMap.get_put]
  have hcopies : Copies 1 a b := .inl ⟨_, _, hin _, ha⟩
  obtain hfail | ⟨c, hc, hrep⟩ := (((region_snapshot_replaces (Codec.marshal_unary []) 1 a b).mpr
    hcopies) false false _).1 rfl
  · cases hfail.2
  · refine ⟨a, b, c, _, ?_, ?_, rfl, hc, ?_, ?_, ?_⟩
    · simp [b, OrderedMap.get_put, hkx, hother]
    · simp [b, OrderedMap.get_put, hother]
    · rw [hrep.inside _ (hin _), ha]
    · rw [hrep.inside _ (hin _)]
      simp [a, OrderedMap.get_put, hkx.symm, OrderedMap.empty]
    · rw [hrep.outside _ hout]
      simp [b, OrderedMap.get_put]

theorem scanUnder_empty (p x : Bytes) : (.empty : Database).scanUnder p x = [] := by
  simp [OrderedMap.scanUnder, OrderedMap.scan, OrderedMap.empty]

/-- The snapshot of an empty region is the empty byte string, and applying it changes nothing:
a key of the region in the other database stays. -/
theorem empty_region_snapshot_keeps_keys :
    lsmCreateSnapshot (.unary []) 1 false OrderedMap.empty = some [] ∧
      lsmApplySnapshot (.unary []) 1 false []
        (OrderedMap.empty.put (encodeKey 1 (text "k") (text "default")) (text "v")) =
          (OrderedMap.empty.put (encodeKey 1 (text "k") (text "default")) (text "v"), true) ∧
      badgerApplySnapshot (.unary []) 1 false []
        (OrderedMap.empty.put (encodeKey 1 (text "k") (text "default")) (text "v")) =
          (OrderedMap.empty.put (encodeKey 1 (text "k") (text "default")) (text "v"), true) ∧
      ¬Replaces 1 OrderedMap.empty
        (OrderedMap.empty.put (encodeKey 1 (text "k") (text "default")) (text "v"))
        (OrderedMap.empty.put (encodeKey 1 (text "k") (text "default")) (text "v")) := by
  refine ⟨?_, rfl, rfl, fun h => ?_⟩
  · rw [lsmCreateSnapshot, scanUnder_empty, Codec.marshal_unary]
    rfl
  · have hin := h.inside (encodeKey 1 (text "k") (text "default"))
      (by rw [encodeKey_eq]; exact List.prefix_append ..)
    rw [OrderedMap.get_put, if_pos rfl] at hin
    simp [OrderedMap.empty] at hin

end Mizu
