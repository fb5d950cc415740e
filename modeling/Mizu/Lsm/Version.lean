import Mizu.Lsm.Manifest

/-!
# Versions

A version is the set of tables that serve reads, in three levels. Level 0 is
newest first and its tables may overlap; the tables of the other levels are
ordered by user key and disjoint, so a lookup finds the one candidate of a level
by binary search.
-/

open Multiversion

namespace Mizu.Lsm

/-- `Version::Table`: the reader of a table is the run it iterates over. -/
structure Table where
  info : TableMeta
  reader : Run
deriving DecidableEq

structure Version where
  level : Fin 3 → List Table
deriving DecidableEq

structure IndexRange where
  start : ℕ
  stop : ℕ
deriving DecidableEq

/-- `erase` of a range of positions. -/
def IndexRange.erase {α : Type*} (r : IndexRange) (l : List α) : List α :=
  l.take r.start ++ l.drop r.stop

/-- `erase` of a range followed by `insert` where it stood. -/
def IndexRange.replace {α : Type*} (r : IndexRange) (l new : List α) : List α :=
  l.take r.start ++ new ++ l.drop r.stop

/-- The positions of a range. -/
def IndexRange.slice {α : Type*} (r : IndexRange) (l : List α) : List α :=
  (l.take r.stop).drop r.start

theorem IndexRange.map_erase {α β : Type*} (r : IndexRange) (f : α → β) (l : List α) :
    (r.erase l).map f = r.erase (l.map f) := by
  simp [erase, List.map_take, List.map_drop]

theorem IndexRange.map_replace {α β : Type*} (r : IndexRange) (f : α → β) (l new : List α) :
    (r.replace l new).map f = r.replace (l.map f) (new.map f) := by
  simp [replace, List.map_take, List.map_drop]

namespace Table

def get (t : Table) (key : Bytes) (s : ℕ) : Answer Bytes := lookup t.reader.entries key s

def smallestUser (t : Table) : Bytes := t.info.smallestKey.userKey

def largestUser (t : Table) : Bytes := t.info.largestKey.userKey

end Table

namespace Version

/-- The level-0 loop of `Version::get`. -/
def getLevel0 (key : Bytes) (s : ℕ) : List Table → Answer Bytes
  | [] => .absent
  | t :: ts =>
    match t.get key s with
    | .absent => getLevel0 key s ts
    | r => r

/-- The only table of an ordered level that can hold `key`. -/
def candidate (key : Bytes) (ts : List Table) : Option Table :=
  match ts[Search.lowerBound (fun t => t.largestUser < key) ts]? with
  | none => none
  | some t => if t.smallestUser > key then none else some t

/-- The loop of `Version::get` over the levels below level 0. -/
def getLevels (v : Version) (key : Bytes) (s : ℕ) : List (Fin 3) → Answer Bytes
  | [] => .absent
  | l :: ls =>
    match candidate key (v.level l) with
    | none => getLevels v key s ls
    | some t =>
      match t.get key s with
      | .absent => getLevels v key s ls
      | r => r

def get (v : Version) (key : Bytes) (s : ℕ) : Answer Bytes :=
  match getLevel0 key s (v.level 0) with
  | .absent => getLevels v key s [1, 2]
  | r => r

def withLevel0Table (v : Version) (t : Table) : Version :=
  ⟨Function.update v.level 0 (t :: v.level 0)⟩

/-- `inputLevel + 1` is the output level. -/
def withCompaction (v : Version) (source target : Fin 3) (inputs overlaps : IndexRange)
    (outputs : List Table) : Version :=
  let erased := Function.update v.level source (inputs.erase (v.level source))
  ⟨Function.update erased target (overlaps.replace (v.level target) outputs)⟩

def empty : Version := ⟨fun _ => []⟩

end Version

/-! ## What the levels hold -/

/-- The entries of the tables of a level. -/
def tableEntries (ts : List Table) : List Entry := ts.flatMap fun t => t.reader.entries

@[simp] theorem tableEntries_nil : tableEntries [] = [] := rfl

@[simp] theorem tableEntries_cons (t : Table) (ts : List Table) :
    tableEntries (t :: ts) = t.reader.entries ++ tableEntries ts := rfl

@[simp] theorem tableEntries_append (ts us : List Table) :
    tableEntries (ts ++ us) = tableEntries ts ++ tableEntries us := by
  simp [tableEntries]

variable {e : Entry}

theorem mem_tableEntries {ts : List Table} :
    e ∈ tableEntries ts ↔ ∃ t ∈ ts, e ∈ t.reader.entries := by
  simp [tableEntries]

/-- The metadata of a table describes its run. -/
structure Table.Described (t : Table) : Prop where
  first : t.reader.entries.head?.map Entry.key = some t.info.smallestKey
  last : t.reader.entries.getLast?.map Entry.key = some t.info.largestKey

variable {t : Table}

section

variable (h : t.Described)

include h

theorem Table.Described.smallest_le (he : e ∈ t.reader.entries) : t.info.smallestKey ≤ e.key := by
  obtain ⟨a, ha, hk⟩ := Option.map_eq_some_iff.mp h.first
  rw [← hk]
  have hasc := t.reader.ascending
  cases hes : t.reader.entries with
  | nil => simp [hes] at he
  | cons b bs =>
    rw [hes] at ha he hasc
    obtain rfl : b = a := by simpa using ha
    rcases List.mem_cons.mp he with rfl | he
    · exact le_rfl
    · exact ((List.pairwise_cons.mp hasc).1 e he).le

theorem Table.Described.le_largest (he : e ∈ t.reader.entries) : e.key ≤ t.info.largestKey := by
  obtain ⟨a, ha, hk⟩ := Option.map_eq_some_iff.mp h.last
  rw [← hk]
  have hasc := t.reader.ascending
  obtain ⟨bs, hbs⟩ := List.getLast?_eq_some_iff.mp ha
  rw [hbs] at he hasc
  rcases List.mem_append.mp he with he | he
  · exact ((List.pairwise_append.mp hasc).2.2 e he a (by simp)).le
  · rw [List.mem_singleton.mp he]

theorem Table.Described.exists_smallest :
    ∃ e ∈ t.reader.entries, e.key = t.info.smallestKey := by
  obtain ⟨a, ha, hk⟩ := Option.map_eq_some_iff.mp h.first
  exact ⟨a, List.mem_of_head? ha, hk⟩

theorem Table.Described.exists_largest :
    ∃ e ∈ t.reader.entries, e.key = t.info.largestKey := by
  obtain ⟨a, ha, hk⟩ := Option.map_eq_some_iff.mp h.last
  exact ⟨a, List.mem_of_getLast? ha, hk⟩

theorem Table.Described.smallest_le_largest :
    t.info.smallestKey ≤ t.info.largestKey := by
  obtain ⟨e, he, hk⟩ := h.exists_smallest
  rw [← hk]
  exact h.le_largest he

theorem Table.Described.smallestUser_le
    (he : e ∈ t.reader.entries) : t.smallestUser ≤ e.key.userKey :=
  InternalKey.userKey_le (h.smallest_le he)

theorem Table.Described.le_largestUser
    (he : e ∈ t.reader.entries) : e.key.userKey ≤ t.largestUser :=
  InternalKey.userKey_le (h.le_largest he)

theorem Table.Described.smallestUser_le_largestUser :
    t.smallestUser ≤ t.largestUser := InternalKey.userKey_le h.smallest_le_largest

end

/-- Tables in user-key order, no user key in two of them. -/
def Disjoint (ts : List Table) : Prop := ts.Pairwise fun a b => a.largestUser < b.smallestUser

/-- Every sequence of a table is newer than those of the tables after it. -/
def NewestFirst (ts : List Table) : Prop :=
  ts.Pairwise fun a b => ∀ x ∈ a.reader.entries, ∀ y ∈ b.reader.entries,
    y.key.sequence < x.key.sequence

namespace Version

/-- What the version knows. -/
def updates (v : Version) : Set (Update Bytes Bytes) :=
  {u | ∃ l, u ∈ contents (tableEntries (v.level l))}

/-- The structure of the levels: what a lookup and a compaction rely on. -/
structure Ordered (v : Version) : Prop where
  described : ∀ l, ∀ t ∈ v.level l, t.Described
  newest : NewestFirst (v.level 0)
  disjoint : ∀ l, l ≠ 0 → Disjoint (v.level l)
  newer : ∀ l m, l < m → Newer (contents (tableEntries (v.level l)))
    (contents (tableEntries (v.level m)))

section Lookup

variable {ts : List Table} {key : Bytes} {s : ℕ}

theorem getLevel0_cons (t : Table) (ts : List Table) :
    getLevel0 key s (t :: ts) = (t.get key s).orElse (getLevel0 key s ts) := by
  rw [getLevel0]
  cases t.get key s <;> rfl

theorem getLevel0_finds (h : NewestFirst ts) :
    Finds (· ∈ tableEntries ts) key s (getLevel0 key s ts) := by
  induction ts with
  | nil =>
    apply Finds.absent
    simp
  | cons t ts ih =>
    obtain ⟨ht, hts⟩ := List.pairwise_cons.mp h
    rw [getLevel0_cons]
    simp only [tableEntries_cons, List.mem_append]
    apply Finds.union _ (lookup_finds t.reader.ascending key s) (ih hts)
    intro x y hx hy _
    obtain ⟨u, hu, hyu⟩ := mem_tableEntries.mp hy
    exact ht u hu x hx y hyu

theorem splits_of_disjoint (hd : ∀ t ∈ ts, t.Described) (h : Disjoint ts) (key : Bytes) :
    Search.Splits (fun t => decide (t.largestUser < key)) ts := by
  apply List.Pairwise.imp_of_mem _ h
  intro a b ha hb hab hlt
  simp only [decide_eq_true_eq] at hlt ⊢
  exact (hab.trans_le (hd b hb).smallestUser_le_largestUser).trans hlt

/-- What one ordered level answers. -/
def getLevel (key : Bytes) (s : ℕ) (ts : List Table) : Answer Bytes :=
  ((candidate key ts).map fun t => t.get key s).getD .absent

theorem candidate_spec (hd : ∀ t ∈ ts, t.Described) (h : Disjoint ts)
    (he : e ∈ tableEntries ts) (hk : e.key.userKey = key) :
    ∃ t, candidate key ts = some t ∧ e ∈ t.reader.entries := by
  obtain ⟨t, ht, het⟩ := mem_tableEntries.mp he
  have hlow := (hd t ht).smallestUser_le het
  have hhigh := (hd t ht).le_largestUser het
  rw [hk] at hlow hhigh
  have hsplit := splits_of_disjoint hd h key
  unfold candidate
  rw [Search.getElem?_lowerBound hsplit]
  cases hf : ts.find? (fun t => !decide (t.largestUser < key)) with
  | none =>
    have := List.find?_eq_none.mp hf t ht
    simp only [Bool.not_eq_true, Bool.not_eq_false', decide_eq_true_eq] at this
    exact absurd this (not_lt.mpr hhigh)
  | some c =>
    have hc : ¬ c.largestUser < key := by simpa using List.find?_some hf
    -- a table after the first candidate starts beyond `key`
    have hct : t = c := by
      rcases Search.eq_or_rel_of_find? h hf ht (by simpa using hhigh) with heq | hlt
      · exact heq
      · exact absurd (hlt.trans_le hlow) hc
    subst hct
    exact ⟨t, by simp [hlow], het⟩

theorem getLevel_finds (hd : ∀ t ∈ ts, t.Described) (h : Disjoint ts) :
    Finds (· ∈ tableEntries ts) key s (getLevel key s ts) := by
  unfold getLevel
  cases hc : candidate key ts with
  | none =>
    apply Finds.absent
    intro e he hk
    obtain ⟨t, ht, _⟩ := candidate_spec hd h he hk
    simp [hc] at ht
  | some t =>
    apply (lookup_finds t.reader.ascending key s).congr
    intro e hk
    have hmem : t ∈ ts := by
      unfold candidate at hc
      split at hc
      · simp at hc
      · rename_i c hget
        split at hc
        · simp at hc
        · rw [← Option.some.inj hc]
          exact List.mem_of_getElem? hget
    constructor
    · intro he
      exact mem_tableEntries.mpr ⟨t, hmem, he⟩
    · intro he
      obtain ⟨t', ht', het⟩ := candidate_spec hd h he hk
      rw [hc, Option.some.injEq] at ht'
      exact ht' ▸ het

theorem getLevels_cons (v : Version) (l : Fin 3) (ls : List (Fin 3)) :
    getLevels v key s (l :: ls) = (getLevel key s (v.level l)).orElse (getLevels v key s ls) := by
  rw [getLevels, getLevel]
  cases candidate key (v.level l) with
  | none => rfl
  | some t =>
    simp only [Option.map_some, Option.getD_some]
    cases t.get key s <;> rfl

theorem get_eq (v : Version) : v.get key s =
    (getLevel0 key s (v.level 0)).orElse ((getLevel key s (v.level 1)).orElse
      (getLevel key s (v.level 2))) := by
  rw [get]
  have h : getLevels v key s [1, 2] =
      (getLevel key s (v.level 1)).orElse (getLevel key s (v.level 2)) := by
    rw [getLevels_cons, getLevels_cons, getLevels, Answer.orElse_absent]
  rw [h]
  cases getLevel0 key s (v.level 0) <;> rfl

theorem updates_eq (v : Version) : v.updates = contents (tableEntries (v.level 0)) ∪
    (contents (tableEntries (v.level 1)) ∪ contents (tableEntries (v.level 2))) := by
  ext u
  simp only [updates, Fin.exists_fin_succ, Set.mem_ofPred_eq, Set.mem_union]
  simp

/-- The entries of all levels. -/
def Holds (v : Version) (x : Entry) : Prop := ∃ l, x ∈ tableEntries (v.level l)

theorem updates_eq_holds (v : Version) : v.updates = {u | ∃ x, v.Holds x ∧ x.update = u} := by
  ext u
  constructor
  · rintro ⟨l, x, hx, rfl⟩
    exact ⟨x, ⟨l, hx⟩, rfl⟩
  · rintro ⟨x, ⟨l, hx⟩, rfl⟩
    exact ⟨l, x, hx, rfl⟩

variable {v : Version}

theorem Ordered.sequence_lt (h : v.Ordered) {l m : Fin 3} (hlm : l < m) {x y : Entry}
    (hx : x ∈ tableEntries (v.level l)) (hy : y ∈ tableEntries (v.level m))
    (hk : x.key.userKey = y.key.userKey) : y.key.sequence < x.key.sequence :=
  h.newer l m hlm _ (update_mem_contents hx) _ (update_mem_contents hy) hk

/-- The layered lookup finds the first entry of the key in all levels. -/
theorem Ordered.get_finds (h : v.Ordered) (key : Bytes) (s : ℕ) :
    Finds v.Holds key s (v.get key s) := by
  rw [get_eq]
  have h1 : Finds (· ∈ tableEntries (v.level 1)) key s (getLevel key s (v.level 1)) :=
    getLevel_finds (h.described 1) (h.disjoint 1 (by decide))
  have h2 : Finds (· ∈ tableEntries (v.level 2)) key s (getLevel key s (v.level 2)) :=
    getLevel_finds (h.described 2) (h.disjoint 2 (by decide))
  have h12 := Finds.union (fun x y => h.sequence_lt (by decide)) h1 h2
  have h012 := Finds.union (fun x y hx hy => ?_) (getLevel0_finds h.newest) h12
  · apply h012.congr
    simp [Holds, Fin.exists_fin_succ]
  · rcases hy with hy | hy
    · exact h.sequence_lt (by decide) hx hy
    · exact h.sequence_lt (by decide) hx hy

/-- The layered lookup answers for everything the version holds. -/
theorem Ordered.get_answers (h : v.Ordered) (key : Bytes) (s : ℕ) :
    Answers v.updates key s (v.get key s) := by
  rw [updates_eq_holds]
  exact (h.get_finds key s).answers

end Lookup

end Version

end Mizu.Lsm
