import Mizu.Lsm.Db
import Mizu.Lsm.Levels

/-!
# The operations a database has taken

The specification of the database is the list of operations of its batches in
order, numbered from 1. A memtable holds a stretch of it exactly; the tables hold
what is left of the part before it.
-/

open Multiversion

namespace Mizu.Lsm

/-- The entries of operations numbered from `s` on. -/
def entriesFrom : ℕ → List Operation → List Entry
  | _, [] => []
  | s, op :: ops => op.entry s :: entriesFrom (s + 1) ops

/-- The operations as updates of a multi-version map. -/
def history (ops : List Operation) : Set (Update Bytes Bytes) :=
  {u | ∃ i op, ops[i]? = some op ∧ u = ⟨op.key, i + 1, op.result⟩}

/-- The specification of a read: the value of the last operation on `key` among
those numbered up to `s`, if it is a put. -/
def valueAt (ops : List Operation) (key : Bytes) (s : ℕ) : Option Bytes :=
  ((ops.take s).reverse.find? fun op => op.key = key).bind Operation.result

@[simp] theorem Operation.update_entry (op : Operation) (s : ℕ) :
    (op.entry s).update = ⟨op.key, s, op.result⟩ := by
  cases op <;> rfl

@[simp] theorem Operation.sequence_entry (op : Operation) (s : ℕ) :
    (op.entry s).key.sequence = s := by
  cases op <;> rfl

variable {n : ℕ}

section Entries

variable {s : ℕ} {ops ops' : List Operation} {e : Entry}

theorem entriesFrom_append (s : ℕ) (ops ops' : List Operation) :
    entriesFrom s (ops ++ ops') = entriesFrom s ops ++ entriesFrom (s + ops.length) ops' := by
  induction ops generalizing s with
  | nil => rfl
  | cons op ops ih =>
    simp only [List.cons_append, entriesFrom, ih, List.length_cons, List.cons.injEq, true_and]
    rw [show s + (ops.length + 1) = s + 1 + ops.length by omega]

theorem mem_entriesFrom : e ∈ entriesFrom s ops ↔
    ∃ (i : ℕ) (op : Operation), ops[i]? = some op ∧ e = op.entry (s + i) := by
  induction ops generalizing s with
  | nil => simp [entriesFrom]
  | cons op ops ih =>
    rw [entriesFrom, List.mem_cons, ih]
    constructor
    · rintro (rfl | ⟨i, op', hi, rfl⟩)
      · exact ⟨0, op, rfl, rfl⟩
      · exact ⟨i + 1, op', by simpa using hi, by rw [show s + (i + 1) = s + 1 + i by omega]⟩
    · rintro ⟨i, op', hi, rfl⟩
      cases i with
      | zero =>
        obtain rfl : op = op' := by simpa using hi
        exact Or.inl rfl
      | succ i =>
        exact Or.inr ⟨i, op', by simpa using hi, by rw [show s + (i + 1) = s + 1 + i by omega]⟩

theorem sequence_of_mem_entriesFrom (h : e ∈ entriesFrom s ops) :
    s ≤ e.key.sequence ∧ e.key.sequence < s + ops.length := by
  obtain ⟨i, op, hi, rfl⟩ := mem_entriesFrom.mp h
  have := (List.getElem?_eq_some_iff.mp hi).1
  simp only [Operation.sequence_entry]
  omega

variable {u : Update Bytes Bytes}

theorem mem_contents_entriesFrom : u ∈ contents (entriesFrom s ops) ↔
    ∃ i op, ops[i]? = some op ∧ u = ⟨op.key, s + i, op.result⟩ := by
  constructor
  · rintro ⟨e, he, rfl⟩
    obtain ⟨i, op, hi, rfl⟩ := mem_entriesFrom.mp he
    exact ⟨i, op, hi, by simp⟩
  · rintro ⟨i, op, hi, rfl⟩
    exact ⟨op.entry (s + i), mem_entriesFrom.mpr ⟨i, op, hi, rfl⟩, by simp⟩

theorem history_eq (ops : List Operation) : history ops = contents (entriesFrom 1 ops) := by
  ext u
  rw [mem_contents_entriesFrom]
  constructor
  · rintro ⟨i, op, hi, rfl⟩
    exact ⟨i, op, hi, by rw [Nat.add_comm]⟩
  · rintro ⟨i, op, hi, rfl⟩
    exact ⟨i, op, hi, by rw [Nat.add_comm]⟩

theorem stamped_history (ops : List Operation) : Stamped (history ops) := by
  rintro _ ⟨i, op, hi, rfl⟩ _ ⟨j, op', hj, rfl⟩ _ ht
  obtain rfl : i = j := by simpa using ht
  rw [hi] at hj
  rw [Option.some.inj hj]

theorem time_le_of_mem_history (h : u ∈ history ops) :
    0 < u.time ∧ u.time ≤ ops.length := by
  obtain ⟨i, op, hi, rfl⟩ := h
  have := (List.getElem?_eq_some_iff.mp hi).1
  exact ⟨Nat.succ_pos i, this⟩

theorem history_append_subset (ops ops' : List Operation) :
    history ops ⊆ history (ops ++ ops') := by
  rintro _ ⟨i, op, hi, rfl⟩
  have hlt := (List.getElem?_eq_some_iff.mp hi).1
  exact ⟨i, op, by rw [List.getElem?_append_left hlt, hi], rfl⟩

/-- The history splits at any point. -/
theorem history_split (ops : List Operation) (n : ℕ) (hn : n ≤ ops.length) :
    history ops = contents (entriesFrom (n + 1) (ops.drop n)) ∪ history (ops.take n) := by
  conv_lhs => rw [history_eq, ← List.take_append_drop n ops, entriesFrom_append, contents_append,
    ← history_eq, List.length_take, Nat.min_eq_left hn, Nat.add_comm 1 n]
  exact Set.union_comm _ _

theorem newer_entriesFrom {B : Set (Update Bytes Bytes)} (hB : ∀ u ∈ B, u.time ≤ n)
    (ops : List Operation) : Newer (contents (entriesFrom (n + 1) ops)) B := by
  rintro _ ⟨e, he, rfl⟩ b hb _
  have := (sequence_of_mem_entriesFrom he).1
  have := hB b hb
  simp only [Entry.update_time]
  omega

end Entries

/-! ## Reading the history -/

theorem reads_valueAt (ops : List Operation) (key : Bytes) (s : ℕ) :
    Reads (history ops) key s (valueAt ops key s) := by
  unfold valueAt
  have hcut : ∀ u : Update Bytes Bytes, u.key = key → u.time ≤ s →
      (u ∈ history (ops.take s) ↔ u ∈ history ops) := by
    rintro u _ ht
    constructor
    · intro hu
      have := history_append_subset (ops.take s) (ops.drop s) hu
      rwa [List.take_append_drop] at this
    · rintro ⟨i, op, hi, rfl⟩
      exact ⟨i, op, by rw [List.getElem?_take_of_lt (by simpa using ht), hi], rfl⟩
  apply Reads.congr hcut
  have hlen : (ops.take s).length ≤ s := List.length_take_le _ _
  generalize ops.take s = xs at hlen
  -- the last operation decides, or the ones before it
  induction xs using List.reverseRecOn with
  | nil => exact ⟨.absent, .absent (by rintro u ⟨i, op, hi, rfl⟩; simp at hi), rfl⟩
  | append_singleton xs op ih =>
    rw [List.length_append, List.length_singleton] at hlen
    rw [List.reverse_append, List.reverse_singleton, List.singleton_append, List.find?_cons]
    by_cases hk : op.key = key
    · simp only [hk, decide_true]
      refine ⟨_, .latest (v := ⟨op.key, xs.length + 1, op.result⟩) ⟨?_, hk, hlen, ?_⟩, ?_⟩
      · exact ⟨xs.length, op, by simp, rfl⟩
      · intro v hv _ _
        have := (time_le_of_mem_history hv).2
        simpa using this
      · simp
    · simp only [hk, decide_false]
      apply (ih (by omega)).congr
      intro u huk _
      constructor
      · exact fun hu => history_append_subset _ _ hu
      · rintro ⟨i, op', hi, rfl⟩
        rw [List.getElem?_append] at hi
        split at hi
        · exact ⟨i, op', hi, rfl⟩
        · obtain rfl : op' = op := by
            simpa using List.mem_of_getElem? hi
          exact absurd huk hk

/-! ## What a memtable holds -/

namespace MemTable

variable {m : MemTable}

/-- As long as no key is added twice, iteration sees what was added. -/
theorem mem_run (h : m.added.Pairwise fun a b => a.key ≠ b.key) (x : Entry) :
    x ∈ m.run.entries ↔ x ∈ m.added := by
  obtain ⟨added⟩ := m
  simp only [run] at h ⊢
  induction added using List.reverseRecOn generalizing x with
  | nil => simp [Run.empty]
  | append_singleton xs e ih =>
    obtain ⟨hxs, -, hne⟩ := List.pairwise_append.mp h
    rw [List.foldl_append]
    simp only [List.foldl_cons, List.foldl_nil, Run.insert, List.mem_append, List.mem_singleton]
    have hfresh : ∀ y ∈ (xs.foldl Run.insert Run.empty).entries, y.key ≠ e.key := by
      intro y hy
      exact hne y ((ih y hxs).mp hy) e (by simp)
    constructor
    · intro hx
      rcases mem_of_mem_insertEntry hx with hx | hx
      · exact Or.inr hx
      · exact Or.inl ((ih x hxs).mp hx)
    · rintro (hx | rfl)
      · exact mem_insertEntry_of_mem ((ih x hxs).mpr hx)
      · exact mem_insertEntry_self hfresh

end MemTable

theorem entriesFrom_distinct (s : ℕ) (ops : List Operation) :
    (entriesFrom s ops).Pairwise fun a b => a.key ≠ b.key := by
  induction ops generalizing s with
  | nil => exact List.Pairwise.nil
  | cons op ops ih =>
    refine List.pairwise_cons.mpr ⟨?_, ih (s + 1)⟩
    intro e he heq
    have := (sequence_of_mem_entriesFrom he).1
    rw [← heq, Operation.sequence_entry] at this
    omega

/-- The memtable holds the operations from number `n + 1` on. -/
def MemTable.Holds (m : MemTable) (n : ℕ) (ops : List Operation) : Prop :=
  m.added = entriesFrom (n + 1) ops

theorem MemTable.Holds.updates {m : MemTable} {ops : List Operation} (h : m.Holds n ops) :
    m.run.updates = contents (entriesFrom (n + 1) ops) := by
  have hmem := MemTable.mem_run (m := m)
      (by rw [show m.added = _ from h]; exact entriesFrom_distinct _ _)
  ext u
  constructor
  · rintro ⟨e, he, rfl⟩
    exact ⟨e, by rw [← h]; exact (hmem e).mp he, rfl⟩
  · rintro ⟨e, he, rfl⟩
    exact ⟨e, (hmem e).mpr (by rw [show m.added = _ from h]; exact he), rfl⟩

theorem MemTable.Holds.mem {m : MemTable} {ops : List Operation} (h : m.Holds n ops)
    {x : Entry} : x ∈ m.run.entries ↔ x ∈ entriesFrom (n + 1) ops := by
  rw [MemTable.mem_run (by rw [show m.added = _ from h]; exact entriesFrom_distinct _ _), h]

theorem applyBatch_added (m : MemTable) (s : ℕ) (batch : WriteBatch) :
    (applyBatch m s batch).added = m.added ++ entriesFrom s batch := by
  induction batch generalizing m s with
  | nil => simp [applyBatch, entriesFrom]
  | cons op ops ih =>
    rw [applyBatch, ih]
    simp [MemTable.add, entriesFrom]

theorem MemTable.Holds.applyBatch {m : MemTable} {ops : List Operation} (h : m.Holds n ops)
    (batch : WriteBatch) : (applyBatch m (n + ops.length + 1) batch).Holds n (ops ++ batch) := by
  rw [Holds, applyBatch_added, show m.added = _ from h, entriesFrom_append]
  rw [show n + 1 + ops.length = n + ops.length + 1 by omega]

end Mizu.Lsm
