import Mizu.Raft.Node

/-!
# Durable Raft state

`lsmRaftStorage` of `kv/storage/lsm.go`, with the database below it as an atomic map
from indices to entries. A call of the storage succeeds and is then durable, fails
without an effect, or is never made because the process has crashed before it.
-/

namespace Mizu

/-- How a call of the storage ends. -/
inductive Outcome where
  | ok | fail | crash
  deriving DecidableEq, Repr

structure RaftStorage where
  hardState : HardState := {}
  entries : ℕ → Option Entry := fun _ => none
  snapshot : Option Snapshot := none

namespace RaftStorage

variable (s : RaftStorage)

def saveHardState (hs : HardState) : RaftStorage := { s with hardState := hs }

/-- One record an entry, under the index that the entry carries. -/
def saveEntries (es : List Entry) : RaftStorage :=
  { s with entries := es.foldl (fun m e => Function.update m e.index (some e)) s.entries }

def saveSnapshot (snap : Snapshot) : RaftStorage := { s with snapshot := some snap }

def compact (index : ℕ) : RaftStorage :=
  if index = 0 then s else { s with entries := fun k => if k < index then none else s.entries k }

/-- The stored entries with index in `[lo, hi)`, in the order of their indices; indices
without a record are passed over. -/
def loadEntries (lo hi : ℕ) : List Entry := (List.range' lo (hi - lo)).filterMap s.entries

def loadSnapshot : Option Snapshot := s.snapshot.filter fun snap => snap.index ≠ 0

/-! ### Stored entries -/

variable {s}

theorem saveEntries_append (es es' : List Entry) :
    s.saveEntries (es ++ es') = (s.saveEntries es).saveEntries es' := by
  simp [saveEntries, List.foldl_append]

theorem saveEntries_singleton (e : Entry) (k : ℕ) :
    (s.saveEntries [e]).entries k = if k = e.index then some e else s.entries k := by
  simp [saveEntries, Function.update_apply]

/-- The record of an index is the last entry that was saved with this index. -/
theorem saveEntries_entries (es : List Entry) (k : ℕ) : (s.saveEntries es).entries k =
    (es.reverse.find? fun e => e.index = k).or (s.entries k) := by
  induction es using List.reverseRecOn with
  | nil => rfl
  | append_singleton es e ih =>
    rw [saveEntries_append, saveEntries_singleton, List.reverse_append, List.reverse_singleton,
      List.singleton_append, List.find?_cons]
    by_cases h : k = e.index
    · simp [h]
    · rw [if_neg h]
      simp only [Ne.symm h, decide_false]
      exact ih

/-- Entries numbered from `prev + 1` on are found under their numbers. -/
theorem saveEntries_numbered {es : List Entry} {prev : ℕ}
    (h : ∀ (n : ℕ) e, es[n]? = some e → e.index = prev + 1 + n) (k : ℕ) :
    (s.saveEntries es).entries k =
      if prev < k ∧ k ≤ prev + es.length then es[k - (prev + 1)]? else s.entries k := by
  induction es using List.reverseRecOn with
  | nil =>
    have : ¬(prev < k ∧ k ≤ prev + 0) := by omega
    simp only [List.length_nil, this, if_false]
    rfl
  | append_singleton es e ih =>
    have he : e.index = prev + 1 + es.length := h es.length e (by simp)
    have hes : ∀ (n : ℕ) e, es[n]? = some e → e.index = prev + 1 + n := by
      intro n d hd
      refine h n d ?_
      rw [List.getElem?_append_left (List.getElem?_eq_some_iff.mp hd).1]
      exact hd
    rw [saveEntries_append, saveEntries_singleton, ih hes, List.length_append,
      List.length_singleton]
    by_cases hk : k = e.index
    · have hb : prev < k ∧ k ≤ prev + (es.length + 1) := by omega
      have hi : k - (prev + 1) = es.length := by omega
      rw [if_pos hk, if_pos hb, hi]
      simp
    · rw [if_neg hk]
      by_cases hb : prev < k ∧ k ≤ prev + es.length
      · have hb' : prev < k ∧ k ≤ prev + (es.length + 1) := by omega
        rw [if_pos hb, if_pos hb', List.getElem?_append_left (by omega)]
      · have hb' : ¬(prev < k ∧ k ≤ prev + (es.length + 1)) := by omega
        rw [if_neg hb, if_neg hb']

theorem compact_entries {index k : ℕ} (h : index ≤ k) :
    (s.compact index).entries k = s.entries k := by
  unfold compact
  split_ifs
  · rfl
  · simp [Nat.not_lt.mpr h]

theorem compact_cases (index k : ℕ) :
    (s.compact index).entries k = s.entries k ∨ (s.compact index).entries k = none := by
  unfold compact
  split_ifs
  · exact Or.inl rfl
  · dsimp only
    split_ifs
    · exact Or.inr rfl
    · exact Or.inl rfl

theorem compact_hardState (index : ℕ) : (s.compact index).hardState = s.hardState := by
  unfold compact
  split_ifs <;> rfl

/-! ### Calls that can fail -/

/-- One call after the other, until one does not succeed. The outcomes of the calls are
given; calls beyond them succeed. -/
def calls : List (RaftStorage → RaftStorage) → RaftStorage → List Outcome →
    RaftStorage × Outcome × List Outcome
  | [], s, .crash :: os => (s, .crash, os)
  | [], s, os => (s, .ok, os)
  | op :: ops, s, [] => calls ops (op s) []
  | op :: ops, s, .ok :: os => calls ops (op s) os
  | _ :: _, s, o :: os => (s, o, os)

variable {ops : List (RaftStorage → RaftStorage)} {o : Outcome}

section

variable {s s' : RaftStorage} {os os' : List Outcome} (h : calls ops s os = (s', o, os'))

include h

/-- The calls that have been made are the first ones, and all of them after a success;
otherwise the next outcome is the one that stopped them. -/
theorem calls_eq :
    ∃ n ≤ ops.length, s' = (ops.take n).foldl (fun s op => op s) s ∧
      (o = .ok → n = ops.length) ∧ (o ≠ .ok → os[n]? = some o) := by
  induction ops generalizing s os with
  | nil =>
    unfold calls at h
    split at h <;> simp_all
  | cons op ops ih =>
    match os with
    | [] =>
      obtain ⟨n, hn, hs, ho, hne⟩ := ih h
      refine ⟨n + 1, Nat.succ_le_succ hn, by simpa using hs, fun h => by simp [ho h], ?_⟩
      intro h
      simpa using hne h
    | .ok :: os =>
      obtain ⟨n, hn, hs, ho, hne⟩ := ih h
      exact ⟨n + 1, Nat.succ_le_succ hn, by simpa using hs, fun h => by simp [ho h], hne⟩
    | .fail :: os =>
      cases h
      exact ⟨0, Nat.zero_le _, rfl, nofun, fun _ => rfl⟩
    | .crash :: os =>
      cases h
      exact ⟨0, Nat.zero_le _, rfl, nofun, fun _ => rfl⟩

/-- The outcomes that are left over are among those given. -/
theorem calls_rest :
    ∀ x ∈ os', x ∈ os := by
  induction ops generalizing s os with
  | nil =>
    match os with
    | [] => cases h; exact fun x => id
    | .ok :: os => cases h; exact fun x => id
    | .fail :: os => cases h; exact fun x => id
    | .crash :: os => cases h; exact fun x => List.mem_cons_of_mem _
  | cons op ops ih =>
    match os with
    | [] => exact ih h
    | .ok :: os => exact fun x hx => List.mem_cons_of_mem _ (ih h x hx)
    | .fail :: os =>
      cases h
      exact fun x => List.mem_cons_of_mem _
    | .crash :: os =>
      cases h
      exact fun x => List.mem_cons_of_mem _

end

/-- A single call has been made or not; it can be the last thing before a crash. -/
theorem calls_singleton {op : RaftStorage → RaftStorage} {s s' : RaftStorage}
    {os os' : List Outcome} (h : calls [op] s os = (s', o, os')) :
    (o ≠ .ok ∧ s' = s) ∨ ((o = .ok ∨ o = .crash) ∧ s' = op s) := by
  match os with
  | [] => cases h; exact Or.inr ⟨Or.inl rfl, rfl⟩
  | [.ok] => cases h; exact Or.inr ⟨Or.inl rfl, rfl⟩
  | .ok :: .ok :: os => cases h; exact Or.inr ⟨Or.inl rfl, rfl⟩
  | .ok :: .fail :: os => cases h; exact Or.inr ⟨Or.inl rfl, rfl⟩
  | .ok :: .crash :: os => cases h; exact Or.inr ⟨Or.inr rfl, rfl⟩
  | .fail :: os => cases h; exact Or.inl ⟨nofun, rfl⟩
  | .crash :: os => cases h; exact Or.inl ⟨nofun, rfl⟩

end RaftStorage

end Mizu
