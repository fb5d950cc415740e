import Mizu.Lsm.SkipList
import Mizu.Lsm.BlockRead

/-!
# The memtable in its arena

`MemTable` of `db/memtable.cc`: the skip list holds records, each the internal key and the value
with their lengths, and compares their internal keys. A record is given by its bytes; the arena
keeps it where it is and as it is. The records of the lowest level are those of the sorted run that
`Lsm/Run.lean` takes a memtable for.
-/

open Multiversion

namespace Mizu.Lsm.Skip

/-! ### Records -/

def entryInternalKey (entry : Bytes) : Option Bytes := do
  let length ← load32 entry 0
  loadBytes entry 4 length

def entryValue (entry : Bytes) : Option Bytes := do
  let internalKey ← entryInternalKey entry
  let length ← load32 entry (4 + internalKey.length)
  loadBytes entry (4 + internalKey.length + 4) length

/-- `EntryComparator` -/
def entryComparator (lhs rhs : Bytes) : Option ℤ := do
  let lhsKey ← entryInternalKey lhs
  let rhsKey ← entryInternalKey rhs
  if ← internalKeyLess lhsKey rhsKey then some (-1)
  else if ← internalKeyLess rhsKey lhsKey then some 1
  else some 0

/-- The record without its value, as a lookup builds it. -/
def seekEntry (internalKey : Bytes) : Bytes := putFixed32 internalKey.length ++ internalKey

def entryBytes (e : Entry) : Bytes :=
  seekEntry (encodeInternalKey e.key) ++ (putFixed32 e.value.length ++ e.value)

/-! ### The table -/

structure MemTable where
  table : SkipList Bytes
  entryCount : ℕ := 0

namespace MemTable

def new : MemTable := { table := SkipList.new }

variable (t : MemTable)

def add (e : Entry) (height : ℕ) : Option MemTable :=
  if e.key.sequence > maxSequenceNumber then none
  else if (encodeInternalKey e.key).length ≥ 2 ^ 32 ∨ e.value.length ≥ 2 ^ 32 then none
  else do
    let table ← t.table.insert entryComparator (entryBytes e) height
    some { table := table, entryCount := t.entryCount + 1 }

def get (key : Bytes) (sequence : ℕ) : Option (Answer Bytes) :=
  if sequence > maxSequenceNumber then none
  else
    let internalKey := encodeInternalKey (lookupKey key sequence)
    if internalKey.length ≥ 2 ^ 32 then none
    else do
      match ← SkipList.Iterator.seek t.table entryComparator (seekEntry internalKey) with
      | none => some .absent
      | some node => do
        let entry ← t.table.keyAt node
        let stored ← entryInternalKey entry
        match parseInternalKey stored with
        | none => some .absent
        | some parsed =>
          if parsed.userKey ≠ key then some .absent
          else
            match parsed.type with
            | .deletion => some .deleted
            | .value => do
              let value ← entryValue entry
              some (.value value)

/-- `Iterator::internalKey` and `Iterator::value` of a node. -/
def shown (node : Option ℕ) : Option (Bytes × Bytes) := do
  let entry ← SkipList.Iterator.key t.table node
  let internalKey ← entryInternalKey entry
  let value ← entryValue entry
  some (internalKey, value)

/-- `Iterator::seek`; the assertions are about the target. -/
def seek (target : Bytes) : Option (Option ℕ) :=
  if parseInternalKey target = none ∨ target.length ≥ 2 ^ 32 then none
  else SkipList.Iterator.seek t.table entryComparator (seekEntry target)

/-- What `next` leads over. -/
def entries : ℕ → Option ℕ → Option (List (Bytes × Bytes))
  | _, none => some []
  | 0, some _ => none
  | fuel + 1, some node => do
    let e ← t.shown (some node)
    let node' ← SkipList.Iterator.next t.table (some node)
    let rest ← entries fuel node'
    some (e :: rest)

end MemTable

def MemTable.addAll (t : MemTable) : List (Entry × SkipList.Height) → Option MemTable
  | [] => some t
  | a :: adds => do
    let t' ← t.add a.1 a.2
    t'.addAll adds

/-! ### Comparison of records -/

/-- What the assertions of `add` ask. -/
structure Fits (e : Entry) : Prop where
  sequence : e.key.sequence ≤ maxSequenceNumber
  key : (encodeInternalKey e.key).length < 2 ^ 32
  value : e.value.length < 2 ^ 32

theorem entryInternalKey_seekEntry {internalKey : Bytes} (h : internalKey.length < 2 ^ 32)
    (rest : Bytes) : entryInternalKey (seekEntry internalKey ++ rest) = some internalKey := by
  have hload := load32_append h [] (internalKey ++ rest)
  have hbytes := loadBytes_append (putFixed32 internalKey.length) internalKey rest
  rw [length_putFixed32] at hbytes
  unfold entryInternalKey seekEntry
  rw [List.nil_append, List.length_nil] at hload
  simp [hload, hbytes]

theorem Fits.internalKey {e : Entry} (h : Fits e) :
    entryInternalKey (entryBytes e) = some (encodeInternalKey e.key) :=
  entryInternalKey_seekEntry h.key _

theorem Fits.entryValue {e : Entry} (h : Fits e) : entryValue (entryBytes e) = some e.value := by
  have hload := load32_append h.value (seekEntry (encodeInternalKey e.key)) e.value
  have hbytes := loadBytes_append
    (seekEntry (encodeInternalKey e.key) ++ putFixed32 e.value.length) e.value []
  have hlen : (seekEntry (encodeInternalKey e.key)).length =
      4 + (encodeInternalKey e.key).length := by
    simp [seekEntry]
  rw [hlen] at hload
  rw [List.length_append, hlen, length_putFixed32, List.append_nil, List.append_assoc] at hbytes
  unfold Skip.entryValue
  simp only [h.internalKey, Option.bind_eq_bind, Option.bind_some]
  unfold entryBytes
  simp [hload, hbytes]

/-- The key that a record is compared by. -/
def rank (entry : Bytes) : InternalKey :=
  ((entryInternalKey entry).bind parseInternalKey).getD ⟨[], 0, .deletion⟩

/-- The bytes start with the record of a valid internal key. -/
def Keyed (entry : Bytes) : Prop := ∃ k, (entryInternalKey entry).bind parseInternalKey = some k

theorem rank_eq {entry : Bytes} {k : InternalKey}
    (h : (entryInternalKey entry).bind parseInternalKey = some k) : rank entry = k := by
  rw [rank, h]
  rfl

theorem entryComparator_eq {a b : Bytes} {k k' : InternalKey}
    (hk : (entryInternalKey a).bind parseInternalKey = some k)
    (hk' : (entryInternalKey b).bind parseInternalKey = some k') :
    entryComparator a b = some (if k < k' then -1 else if k' < k then 1 else 0) := by
  obtain ⟨ka, hka, hpa⟩ := Option.bind_eq_some_iff.mp hk
  obtain ⟨kb, hkb, hpb⟩ := Option.bind_eq_some_iff.mp hk'
  simp only [entryComparator, hka, hkb, internalKeyLess_eq hpa hpb, internalKeyLess_eq hpb hpa,
    Option.bind_eq_bind, Option.bind_some, decide_eq_true_eq]
  split_ifs <;> rfl

theorem compares_entries : SkipList.Compares entryComparator Keyed rank := by
  rintro a b ⟨k, hk⟩ ⟨k', hk'⟩
  rw [rank_eq hk, rank_eq hk']
  refine ⟨_, entryComparator_eq hk hk', ?_⟩
  rcases lt_trichotomy k k' with hlt | rfl | hlt
  · simp [hlt, hlt.ne]
  · simp
  · simp [hlt, hlt.not_gt, hlt.ne']

theorem entryComparator_less {a b : Bytes} (ha : Keyed a) (hb : Keyed b) :
    entryComparator a b = some (-1) ↔ rank a < rank b := by
  obtain ⟨k, hk⟩ := ha
  obtain ⟨k', hk'⟩ := hb
  rw [entryComparator_eq hk hk', rank_eq hk, rank_eq hk', Option.some.injEq]
  split_ifs with hlt hgt
  · simp [hlt]
  · simp [hlt]
  · simp [hlt]

theorem Fits.key_eq {e : Entry} (h : Fits e) :
    (entryInternalKey (entryBytes e)).bind parseInternalKey = some e.key := by
  rw [h.internalKey, Option.bind_some, parseInternalKey_encode h.sequence]

theorem Fits.rank {e : Entry} (h : Fits e) : rank (entryBytes e) = e.key := rank_eq h.key_eq

/-! ### What the table holds -/

/-- The lowest level holds the records of `es`, in this order. -/
structure Holds (t : MemTable) (ls : ℕ → List ℕ) (es : List Entry) : Prop where
  levels : SkipList.Levels Keyed rank t.table ls
  records : (ls 0).filterMap t.table.keyAt = es.map entryBytes
  ascending : Ascending es
  fits : ∀ e ∈ es, Fits e

variable {t : MemTable} {ls : ℕ → List ℕ} {es : List Entry} {e : Entry}

theorem sorted_records (hes : Ascending es) (hfits : ∀ e ∈ es, Fits e) :
    (es.map entryBytes).Pairwise fun a b => rank a < rank b := by
  rw [List.pairwise_map]
  refine hes.imp_of_mem fun {a b} ha hb hab => ?_
  rwa [(hfits a ha).rank, (hfits b hb).rank]

/-- Records in the order of their keys are equal when they are the same. -/
theorem eq_of_sorted_records {rs rs' : List Bytes} (h : rs.Pairwise fun a b => rank a < rank b)
    (h' : rs'.Pairwise fun a b => rank a < rank b) (hmem : ∀ r, r ∈ rs ↔ r ∈ rs') : rs = rs' := by
  exact h.eq_of_mem_iff h' hmem

theorem holds_new : Holds MemTable.new (fun _ => []) [] where
  levels := SkipList.levels_new
  records := rfl
  ascending := List.Pairwise.nil
  fits := by simp

/-- `add` puts the entry at its place, whatever the height. -/
theorem Holds.add (h : Holds t ls es) (hfit : Fits e) (height : SkipList.Height)
    (hfresh : ∀ x ∈ es, x.key ≠ e.key) :
    ∃ t' ls', t.add e height = some t' ∧ Holds t' ls' (insertEntry e es) := by
  have hkeyed : Keyed (entryBytes e) := ⟨e.key, hfit.key_eq⟩
  have hfresh' : ∀ i ∈ ls 0, ∀ k, t.table.keyAt i = some k → rank k ≠ rank (entryBytes e) := by
    intro i hi k hk
    have hmem : k ∈ (ls 0).filterMap t.table.keyAt := List.mem_filterMap.mpr ⟨i, hi, hk⟩
    rw [h.records] at hmem
    obtain ⟨x, hx, rfl⟩ := List.mem_map.mp hmem
    rw [(h.fits x hx).rank, hfit.rank]
    exact hfresh x hx
  obtain ⟨s', hinsert, hlevels, hnew, hold⟩ :=
    h.levels.insert compares_entries hkeyed height.2 hfresh'
  have hadd : t.add e height = some ⟨s', t.entryCount + 1⟩ := by
    unfold MemTable.add
    rw [if_neg (not_lt.mpr hfit.sequence), if_neg (by
      have := hfit.key
      have := hfit.value
      omega), hinsert]
    rfl
  refine ⟨_, _, hadd, hlevels, ?_, ascending_insertEntry h.ascending, ?_⟩
  · apply eq_of_sorted_records (hlevels.sorted_keys 0)
    · apply sorted_records (ascending_insertEntry h.ascending)
      intro x hx
      rcases mem_of_mem_insertEntry hx with rfl | hx
      · exact hfit
      · exact h.fits x hx
    · intro r
      have hbottom : (if 0 < height.1 then
          SkipList.insertAt rank t.table (entryBytes e) t.table.nodes.length (ls 0)
          else ls 0) = SkipList.insertAt rank t.table (entryBytes e) t.table.nodes.length (ls 0) :=
        if_pos height.2.1
      have hold' : r ∈ (ls 0).filterMap s'.keyAt ↔ ∃ x ∈ es, entryBytes x = r := by
        have hsame : (ls 0).filterMap s'.keyAt = (ls 0).filterMap t.table.keyAt :=
          List.filterMap_congr hold
        rw [hsame, h.records, List.mem_map]
      rw [hbottom, (SkipList.Levels.perm_insertAt.filterMap _).mem_iff,
        List.filterMap_cons_some hnew, List.mem_cons, hold', List.mem_map]
      constructor
      · rintro (rfl | ⟨x, hx, rfl⟩)
        · exact ⟨e, mem_insertEntry_self hfresh, rfl⟩
        · exact ⟨x, mem_insertEntry_of_mem hx, rfl⟩
      · rintro ⟨x, hx, rfl⟩
        rcases mem_of_mem_insertEntry hx with rfl | hx
        · exact Or.inl rfl
        · exact Or.inr ⟨x, hx, rfl⟩
  · intro x hx
    rcases mem_of_mem_insertEntry hx with rfl | hx
    · exact hfit
    · exact h.fits x hx

/-- A run of adds with different sequences. -/
theorem Holds.addAll {adds : List (Entry × SkipList.Height)} (h : Holds t ls es)
    (hfits : ∀ a ∈ adds, Fits a.1)
    (hseq : (es.map (fun e => e.key.sequence) ++ adds.map fun a => a.1.key.sequence).Nodup) :
    ∃ t' ls', t.addAll adds = some t' ∧
      Holds t' ls' ((adds.map Prod.fst).foldl (fun es e => insertEntry e es) es) ∧
      ((adds.map Prod.fst).foldl (fun es e => insertEntry e es) es).Perm
        (adds.map Prod.fst ++ es) := by
  induction adds generalizing t ls es with
  | nil => exact ⟨t, ls, rfl, h, List.Perm.refl _⟩
  | cons a adds ih =>
    have hfresh : ∀ x ∈ es, x.key ≠ a.1.key := by
      intro x hx heq
      have hdisj := (List.nodup_append.mp hseq).2.2
      exact hdisj _ (List.mem_map_of_mem hx) _ (List.mem_map_of_mem List.mem_cons_self)
        (congrArg InternalKey.sequence heq)
    obtain ⟨t₁, ls₁, hadd, hholds⟩ := h.add (hfits a (by simp)) a.2 hfresh
    have hperm := insertEntry_perm hfresh
    have hseq' : ((insertEntry a.1 es).map (fun e => e.key.sequence) ++
        adds.map fun a => a.1.key.sequence).Nodup := by
      rw [((hperm.map _).append_right _).nodup_iff]
      rw [List.map_cons, List.nodup_middle] at hseq
      exact hseq
    obtain ⟨t₂, ls₂, haddAll, hholds', hperm'⟩ := ih hholds
      (fun b hb => hfits b (List.mem_cons_of_mem _ hb)) hseq'
    refine ⟨t₂, ls₂, by simp [MemTable.addAll, hadd, haddAll], hholds', ?_⟩
    exact hperm'.trans ((hperm.append_left _).trans List.perm_middle)

/-! ### Reads -/

/-- The iterator stands where `rest` of the entries is still to come. -/
def At (t : MemTable) (ls : ℕ → List ℕ) (node : Option ℕ) (rest : List Entry) : Prop :=
  ∃ ids, SkipList.Stands ls node ids ∧ ids.filterMap t.table.keyAt = rest.map entryBytes

theorem Holds.at_seekToFirst (h : Holds t ls es) :
    ∃ node, SkipList.Iterator.seekToFirst t.table = some node ∧ At t ls node es := by
  obtain ⟨node, hnode, hstands⟩ := h.levels.stands_seekToFirst
  exact ⟨node, hnode, ls 0, hstands, h.records⟩

theorem dropWhile_records (hfits : ∀ e ∈ es, Fits e) (k : InternalKey) :
    ((es.map entryBytes).dropWhile fun r => decide (rank r < k)) =
      (es.dropWhile fun e => e.key.Less k).map entryBytes := by
  induction es with
  | nil => rfl
  | cons e es ih =>
    have hrank := (hfits e (by simp)).rank
    rw [List.map_cons]
    by_cases hlt : e.key < k
    · rw [List.dropWhile_cons_of_pos (by simpa [hrank] using hlt),
        List.dropWhile_cons_of_pos (by simpa using hlt)]
      exact ih fun x hx => hfits x (List.mem_cons_of_mem _ hx)
    · rw [List.dropWhile_cons_of_neg (by simpa [hrank] using hlt),
        List.dropWhile_cons_of_neg (by simpa using hlt)]
      rfl

theorem Holds.at_seek (h : Holds t ls es) {target : Bytes} {k : InternalKey}
    (hk : (entryInternalKey target).bind parseInternalKey = some k) :
    ∃ node, SkipList.Iterator.seek t.table entryComparator target = some node ∧
      At t ls node (es.dropWhile fun e => e.key.Less k) := by
  obtain ⟨node, hnode, hstands⟩ := h.levels.stands_seek compares_entries ⟨k, hk⟩
  refine ⟨node, hnode, _, hstands, ?_⟩
  rw [h.levels.filterMap_dropWhile, h.records, rank_eq hk, dropWhile_records h.fits]

variable {node : Option ℕ} {rest : List Entry}

/-- The node of the next entry, and where the iterator moves from there. -/
theorem Holds.at_cons (h : Holds t ls es) (hat : At t ls node (e :: rest)) :
    ∃ i node', node = some i ∧ t.table.keyAt i = some (entryBytes e) ∧
      SkipList.Iterator.next t.table node = some node' ∧ At t ls node' rest := by
  obtain ⟨ids, hstands, hrecords⟩ := hat
  cases ids with
  | nil => simp at hrecords
  | cons i ids =>
    have hi : i ∈ ls 0 := hstands.2.subset (by simp)
    obtain ⟨k, hk, -⟩ := h.levels.keys i hi
    rw [List.filterMap_cons_some hk, List.map_cons, List.cons.injEq] at hrecords
    obtain ⟨rfl, hrest⟩ := hrecords
    obtain ⟨node', hnext, hstands'⟩ := h.levels.stands_next hstands
    exact ⟨i, node', hstands.1, hk, hnext, ids, hstands', hrest⟩

theorem Holds.at_nil (h : Holds t ls es) (hat : At t ls node []) :
    node = none := by
  obtain ⟨ids, hstands, hrecords⟩ := hat
  cases ids with
  | nil => exact hstands.1
  | cons i ids =>
    obtain ⟨k, hk, -⟩ := h.levels.keys i (hstands.2.subset (by simp))
    rw [List.filterMap_cons_some hk] at hrecords
    simp at hrecords

theorem Fits.shown (hfit : Fits e) {i : ℕ} (hi : t.table.keyAt i = some (entryBytes e)) :
    t.shown (some i) = some e.shown := by
  simp [MemTable.shown, SkipList.Iterator.key, hi, hfit.internalKey, hfit.entryValue, Entry.shown]

theorem Holds.entries (h : Holds t ls es) {fuel : ℕ}
    (hat : At t ls node rest) (hsub : rest <:+ es) (hfuel : rest.length ≤ fuel) :
    t.entries fuel node = some (rest.map Entry.shown) := by
  induction rest generalizing node fuel with
  | nil =>
    rw [h.at_nil hat]
    cases fuel <;> rfl
  | cons x rest ih =>
    rw [List.length_cons] at hfuel
    obtain ⟨fuel, rfl⟩ : ∃ n, fuel = n + 1 := ⟨fuel - 1, by omega⟩
    obtain ⟨i, node', rfl, hi, hnext, hat'⟩ := h.at_cons hat
    have hshown := (h.fits x (hsub.subset (by simp))).shown hi
    have hrest := ih hat' ((List.suffix_cons x rest).trans hsub) (by omega : rest.length ≤ fuel)
    simp [MemTable.entries, hshown, hnext, hrest]

/-- `get` is the lookup in the sorted run. -/
theorem Holds.get (h : Holds t ls es) {key : Bytes} {s : ℕ} (hs : s ≤ maxSequenceNumber)
    (hkey : (encodeInternalKey (lookupKey key s)).length < 2 ^ 32) :
    t.get key s = some (lookup es key s) := by
  have hparse : (entryInternalKey (seekEntry (encodeInternalKey (lookupKey key s)))).bind
      parseInternalKey = some (lookupKey key s) := by
    have hentry := entryInternalKey_seekEntry hkey []
    rw [List.append_nil] at hentry
    rw [hentry, Option.bind_some]
    exact parseInternalKey_encode hs
  obtain ⟨node, hnode, hat⟩ := h.at_seek hparse
  have hseek : seek es (lookupKey key s) =
      (es.dropWhile fun e => e.key.Less (lookupKey key s)).head? := by
    rw [← List.find?_not_eq_head?_dropWhile]
    unfold seek
    simp only [decide_not]
  unfold MemTable.get lookup
  rw [if_neg (not_lt.mpr hs)]
  rw [if_neg (not_le.mpr hkey), hnode, hseek]
  cases hrest : es.dropWhile fun e => e.key.Less (lookupKey key s) with
  | nil =>
    rw [hrest] at hat
    rw [h.at_nil hat]
    rfl
  | cons x rest =>
    rw [hrest] at hat
    obtain ⟨i, -, rfl, hi, -⟩ := h.at_cons hat
    have hx : x ∈ es := (List.dropWhile_suffix _).subset (hrest ▸ List.mem_cons_self)
    have hfit := h.fits x hx
    simp only [Option.bind_eq_bind, Option.bind_some, hi, hfit.internalKey,
      parseInternalKey_encode hfit.sequence, List.head?_cons]
    split_ifs
    · rfl
    · cases x.key.type with
      | deletion => rfl
      | value => simp [hfit.entryValue]

theorem foldl_insertEntry (added : List Entry) (r : Run) :
    added.foldl (fun es e => insertEntry e es) r.entries = (added.foldl Run.insert r).entries := by
  induction added generalizing r with
  | nil => rfl
  | cons e added ih => exact ih (r.insert e)

theorem Holds.keyAt_node (h : Holds t ls es)
    (hat : At t ls node rest) : node.bind t.table.keyAt = (rest.map entryBytes).head? := by
  cases rest with
  | nil =>
    rw [h.at_nil hat]
    rfl
  | cons x rest =>
    obtain ⟨i, -, rfl, hi, -⟩ := h.at_cons hat
    exact hi

/-- `findGreaterOrEqual` for any target. -/
theorem Holds.findGreaterOrEqual (h : Holds t ls es) {target : Bytes} (hkeyed : Keyed target) :
    ∃ node previous, t.table.findGreaterOrEqual entryComparator target = some (node, previous) ∧
      node.bind t.table.keyAt =
        (es.map entryBytes).find? fun r => entryComparator r target ≠ some (-1) := by
  obtain ⟨k, hk⟩ := hkeyed
  obtain ⟨node, hnode, hat⟩ := h.at_seek hk
  obtain ⟨p, hp, hfst⟩ := Option.map_eq_some_iff.mp hnode
  refine ⟨node, p.2, by rw [hp, ← hfst], ?_⟩
  have hnot : ∀ r ∈ es.map entryBytes,
      decide (entryComparator r target ≠ some (-1)) = ! decide (rank r < k) := by
    intro r hr
    obtain ⟨x, hx, rfl⟩ := List.mem_map.mp hr
    have hless := entryComparator_less ⟨x.key, (h.fits x hx).key_eq⟩ ⟨k, hk⟩
    rw [rank_eq hk] at hless
    simp only [ne_eq, hless, decide_not]
  rw [h.keyAt_node hat, ← dropWhile_records h.fits, ← List.find?_not_eq_head?_dropWhile]
  exact (List.find?_congr hnot).symm

/-- The memtable on its skip list, after any adds with different sequences and with any heights of
the nodes. Every level is sorted and part of the level below; the lowest holds the records that
were added. `findGreaterOrEqual` returns the first record that is not before the target, the
iterator leads over the entries of the sorted run, and `get` finds the newest version of a key up to
a sequence. -/
theorem memtable_refines_run (adds : List (Entry × SkipList.Height)) (hfits : ∀ a ∈ adds, Fits a.1)
    (hseq : (adds.map fun a => a.1.key.sequence).Nodup) :
    ∃ (t : MemTable) (levels : ℕ → List Bytes), MemTable.new.addAll adds = some t ∧
      (∀ l < SkipList.heightLimit, t.table.level l = some (levels l) ∧
        (levels l).Pairwise fun a b => entryComparator a b = some (-1)) ∧
      (∀ l, (levels (l + 1)).Sublist (levels l)) ∧
      (levels 0).Perm (adds.map fun a => entryBytes a.1) ∧
      (∀ target, Keyed target →
        ∃ node previous, t.table.findGreaterOrEqual entryComparator target = some (node, previous) ∧
          node.bind t.table.keyAt =
            (levels 0).find? fun r => entryComparator r target ≠ some (-1)) ∧
      (∃ node es, SkipList.Iterator.seekToFirst t.table = some node ∧
        t.entries adds.length node = some (es.map Entry.shown) ∧ Ascending es ∧
        es.Perm (adds.map Prod.fst) ∧ es = (⟨adds.map Prod.fst⟩ : Lsm.MemTable).run.entries) ∧
      ∀ key s, s ≤ maxSequenceNumber → (encodeInternalKey (lookupKey key s)).length < 2 ^ 32 →
        ∃ r, t.get key s = some r ∧ Finds (· ∈ adds.map Prod.fst) key s r := by
  obtain ⟨t, ls, hadds, h, hperm⟩ := holds_new.addAll hfits (by simpa using hseq)
  rw [List.append_nil] at hperm
  have hrun : (adds.map Prod.fst).foldl (fun es e => insertEntry e es) [] =
      (⟨adds.map Prod.fst⟩ : Lsm.MemTable).run.entries := foldl_insertEntry _ Run.empty
  rw [hrun] at h hperm
  refine ⟨t, fun l => (ls l).filterMap t.table.keyAt, hadds, ?_, ?_, ?_, ?_, ?_, ?_⟩
  · intro l hl
    refine ⟨h.levels.level_eq hl, (h.levels.sorted_keys l).imp_of_mem ?_⟩
    intro a b ha hb hab
    have hkeyed : ∀ r ∈ (ls l).filterMap t.table.keyAt, Keyed r := by
      intro r hr
      obtain ⟨i, hi, hr⟩ := List.mem_filterMap.mp hr
      obtain ⟨k, hk, hkeyed⟩ := h.levels.keys i ((h.levels.sublist_zero l).subset hi)
      rw [hr, Option.some.injEq] at hk
      exact hk ▸ hkeyed
    exact (entryComparator_less (hkeyed a ha) (hkeyed b hb)).mpr hab
  · intro l
    exact (h.levels.sub l).filterMap _
  · have hrecords := hperm.map entryBytes
    rw [List.map_map] at hrecords
    dsimp only
    rw [h.records]
    exact hrecords
  · intro target hkeyed
    dsimp only
    rw [h.records]
    exact h.findGreaterOrEqual hkeyed
  · obtain ⟨node, hnode, hat⟩ := h.at_seekToFirst
    have hlen : ((⟨adds.map Prod.fst⟩ : Lsm.MemTable).run.entries).length ≤ adds.length := by
      rw [hperm.length_eq, List.length_map]
    exact ⟨node, _, hnode, h.entries hat (List.suffix_refl _) hlen, h.ascending, hperm, rfl⟩
  · intro key s hs hkey
    refine ⟨_, h.get hs hkey, (lookup_finds h.ascending key s).congr ?_⟩
    intro x _
    exact hperm.mem_iff

theorem fits_small (hs : e.key.sequence ≤ 2 ^ 40) (hk : e.key.userKey.length ≤ 2 ^ 20)
    (hv : e.value.length ≤ 2 ^ 20) : Fits e := by
  refine ⟨?_, ?_, by omega⟩
  · unfold maxSequenceNumber
    omega
  · have hlen : (encodeInternalKey e.key).length = e.key.userKey.length + 8 := by
      simp [encodeInternalKey]
    omega

/-- Two versions of one key and another key, in nodes of different heights. -/
theorem memtable_refines_run_three :
    ∃ t : MemTable, MemTable.new.addAll
      [(⟨⟨[97], 1, .value⟩, [1]⟩, ⟨1, by decide⟩), (⟨⟨[98], 2, .value⟩, [2]⟩, ⟨12, by decide⟩),
        (⟨⟨[97], 3, .deletion⟩, []⟩, ⟨2, by decide⟩)] = some t := by
  obtain ⟨t, -, hadds, -⟩ := memtable_refines_run
    [(⟨⟨[97], 1, .value⟩, [1]⟩, ⟨1, by decide⟩), (⟨⟨[98], 2, .value⟩, [2]⟩, ⟨12, by decide⟩),
      (⟨⟨[97], 3, .deletion⟩, []⟩, ⟨2, by decide⟩)]
    (by
      intro a ha
      simp only [List.mem_cons, List.not_mem_nil, or_false] at ha
      rcases ha with rfl | rfl | rfl <;> exact fits_small (by decide) (by decide) (by decide))
    (by decide)
  exact ⟨t, hadds⟩

end Mizu.Lsm.Skip
