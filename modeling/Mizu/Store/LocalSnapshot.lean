import Mizu.Raft.WrappedLog
import Mizu.Store.Coverage

/-!
# The term of a local snapshot

`saveSnapshotAndCompact` stores a snapshot with the term of the node, while the log is
compacted to a sentinel with the term of the entry. The two agree when the entry is of the
current term; a node that is rebuilt then has the log it had.
-/

namespace Mizu

open Raft

variable {p p' : Peer} {task : SnapshotTask}

/-- The sentinel that stands for the entries up to a task's index. -/
def SnapshotTask.sentinel (task : SnapshotTask) (t : ℕ) : Entry :=
  { term := t, index := task.index }

def SnapshotTask.snapshot (task : SnapshotTask) (t : ℕ) : Snapshot :=
  { term := t, index := task.index, data := task.data }

theorem RaftStorage.snapshot_compact (s : RaftStorage) (index : ℕ) :
    (s.compact index).snapshot = s.snapshot := by
  unfold compact
  split_ifs <;> rfl

/-- With storage calls that succeed the task is carried out. -/
theorem exists_saveSnapshotAndCompact {t : ℕ} (h : p.raft.raftLog.term task.index = some t) :
    ∃ p', p.saveSnapshotAndCompact task [] = some (p', .ok, []) ∧
      p'.raftStorage = (p.raftStorage.saveSnapshot (p.taskSnapshot task)).compact task.index := by
  have hr : ∃ r, p.raft.snapshot task.index task.data = some r := by
    unfold Raft.snapshot
    split_ifs
    · exact ⟨_, rfl⟩
    · rw [h]
      exact ⟨_, rfl⟩
  obtain ⟨r, hr⟩ := hr
  unfold Peer.saveSnapshotAndCompact
  simp only [RaftStorage.calls, hr]
  exact ⟨_, rfl, Peer.raftStorage_cancelSnapshot _ _⟩

theorem snapshot_inside {r r' : Raft} {data : Bytes} {index t : ℕ}
    (hlow : r.raftLog.firstIndex < index) (hhigh : index ≤ r.raftLog.lastIndex)
    (ht : r.raftLog.term index = some t) (h : r.snapshot index data = some r') :
    r'.currentSnapshot = some { term := t, index := index, data := data } ∧
      r'.raftLog.offset = index ∧ r'.raftLog.entry index = some { term := t, index := index } := by
  rcases snapshot_eq h with ⟨hle, -⟩ | ⟨u, -, hu, rfl⟩
  · exact absurd hle (not_le.mpr hlow)
  · obtain rfl : u = t := Option.some.inj (hu.symm.trans ht)
    have hend : index < r.raftLog.endIndex := by
      unfold RaftLog.term at hu
      rw [if_neg (by unfold RaftLog.firstIndex at hlow; omega)] at hu
      obtain ⟨e, he, -⟩ := Option.map_eq_some_iff.mp hu
      have := (List.getElem?_eq_some_iff.mp he).1
      unfold RaftLog.endIndex
      omega
    obtain ⟨hoff, -, hent⟩ := RaftLog.compactTo_eq u hlow hend
    refine ⟨rfl, hoff, ?_⟩
    change (r.raftLog.compactTo index u).entry index = _
    rw [hent, if_pos rfl]

/-- A log is its sentinel and what comes after it. -/
theorem RaftLog.eq_restore_append {l : RaftLog} {t : ℕ}
    (h : l.entry l.offset = some { term := t, index := l.offset }) :
    l = (RaftLog.restore l.offset t).append (l.entries.drop 1) := by
  obtain ⟨entries, offset⟩ := l
  cases entries with
  | nil => simp [entry] at h
  | cons e es =>
    obtain rfl : e = { term := t, index := offset } := by simpa [entry] using h
    rfl

/-- What a task stores is of the current term, with any outcomes of the storage calls. -/
theorem saveSnapshotAndCompact_stored {os os' : List Outcome} {o : Outcome}
    (hlow : p.raft.raftLog.firstIndex < task.index)
    (hhigh : task.index ≤ p.raft.raftLog.lastIndex)
    (hentry : p.raft.raftLog.term task.index = some p.raft.term)
    (h : p.saveSnapshotAndCompact task os = some (p', o, os')) :
    (p'.raftStorage.snapshot = p.raftStorage.snapshot ∨
      p'.raftStorage.snapshot = some (task.snapshot p.raft.term)) ∧
    (p'.raft = p.raft ∨ p'.raftStorage.snapshot = some (task.snapshot p.raft.term) ∧
      p'.raft.currentSnapshot = some (task.snapshot p.raft.term) ∧
      p'.raft.raftLog.offset = task.index ∧
      p'.raft.raftLog.entry task.index = some (task.sentinel p.raft.term)) := by
  rcases Peer.saveSnapshotAndCompact_cases h with ⟨hr, hs⟩ | ⟨hr, -, hs⟩ | ⟨hr, hs⟩
  · exact ⟨Or.inl (by rw [hs]), Or.inl hr⟩
  · exact ⟨Or.inr (by rw [hs]; rfl), Or.inl hr⟩
  · have hsnap : p'.raftStorage.snapshot = some (task.snapshot p.raft.term) := by
      rcases hs with hs | hs
      · rw [hs]
        rfl
      · rw [hs, RaftStorage.snapshot_compact]
        rfl
    exact ⟨Or.inr hsnap, Or.inr ⟨hsnap, snapshot_inside hlow hhigh hentry hr⟩⟩

theorem restoredLog_of_task {s : RaftStorage} {t : ℕ} (hne : task.index ≠ 0)
    (hs : s.snapshot = some (task.snapshot t)) :
    s.restoredLog = (RaftLog.restore task.index t).append s.restoredEntries := by
  have hload : s.snap = task.snapshot t := by
    simp [RaftStorage.snap, RaftStorage.loadSnapshot, hs, SnapshotTask.snapshot, Option.filter, hne]
  rw [RaftStorage.restoredLog, hload]
  rfl

/-- The snapshot in the storage, the one in memory and the sentinel have the index and the term
of the entry that a task ends at, exactly if the node is of the term of this entry. Any node
that is later rebuilt from a storage with this snapshot then answers the same term for the
index. It has the same log, and passes the same checks, if the storage has the entries of the
log after the sentinel up to its commit index. -/
theorem local_snapshot_of_current_term {t : ℕ} (hfits : p.raft.raftLog.endIndex < 2 ^ 64)
    (hlow : p.raft.raftLog.firstIndex < task.index)
    (hhigh : task.index ≤ p.raft.raftLog.lastIndex)
    (hentry : p.raft.raftLog.term task.index = some t) :
    WrappedLog.lastIndex p.raft.raftLog = p.raft.raftLog.lastIndex ∧
    ((∃ p', p.saveSnapshotAndCompact task [] = some (p', .ok, []) ∧
        p'.raftStorage.snapshot = some (task.snapshot t)) ∧
      (∀ os p' o os', p.saveSnapshotAndCompact task os = some (p', o, os') →
        (p'.raftStorage.snapshot = p.raftStorage.snapshot ∨
          p'.raftStorage.snapshot = some (task.snapshot t)) ∧
        (p'.raft = p.raft ∨ p'.raftStorage.snapshot = some (task.snapshot t) ∧
          p'.raft.currentSnapshot = some (task.snapshot t) ∧ p'.raft.raftLog.offset = task.index ∧
          p'.raft.raftLog.entry task.index = some (task.sentinel t))) ∧
      (∀ cfg (s : RaftStorage), s.InRange → s.snapshot = some (task.snapshot t) →
        ∃ r, restoreRaft cfg s = some r ∧
          r.raftLog.term task.index = p.raft.raftLog.term task.index ∧
          ∀ l : RaftLog, l.offset = task.index → l.entry task.index = some (task.sentinel t) →
            l.entries.drop 1 = s.restoredEntries → r.raftLog = l) ↔
      p.raft.term = t) := by
  refine ⟨WrappedLog.lastIndex_eq_of_le hfits.le, ?_, ?_⟩
  · rintro ⟨⟨p', hp', hs⟩, -⟩
    obtain ⟨p'', hp'', hs'⟩ := exists_saveSnapshotAndCompact hentry
    obtain rfl : p'' = p' := by simpa [hp''] using hp'
    rw [hs', RaftStorage.snapshot_compact] at hs
    exact congrArg Snapshot.term (Option.some.inj hs)
  · rintro rfl
    refine ⟨?_, fun _ _ _ _ => saveSnapshotAndCompact_stored hlow hhigh hentry, ?_⟩
    · obtain ⟨p', hp', hs⟩ := exists_saveSnapshotAndCompact hentry
      refine ⟨p', hp', ?_⟩
      rw [hs, RaftStorage.snapshot_compact]
      rfl
    · intro cfg s _ hs
      have hlog := restoredLog_of_task (by omega) hs
      refine ⟨_, RaftStorage.exists_restoreRaft cfg s, ?_, ?_⟩
      · have hsentinel : s.restoredLog.entry task.index = some (task.sentinel p.raft.term) := by
          simp [hlog, RaftLog.entry, RaftLog.append, RaftLog.restore, SnapshotTask.sentinel]
        exact (RaftLog.term_of_entry hsentinel).trans hentry.symm
      · intro l hoff hsentinel htail
        have hl := @RaftLog.eq_restore_append l p.raft.term
          (by simpa [SnapshotTask.sentinel, hoff] using hsentinel)
        rw [hl, htail, hoff]
        exact hlog

namespace Host

/-- Five entries are applied and a snapshot task is submitted, all in term 1. -/
def fiveEntries : List Action :=
  [.event (.message
      { type := .msgApp, src := 2, dst := 1, term := 1, commit := 5
        entries := (List.range' 1 5).map fun i => { term := 1, index := i, data := [7] } }) [],
    .ready []] ++ List.replicate 6 (.apply true true)

theorem local_snapshot_in_term : ∃ h : Host Unit,
    (system .unit threeNodes).Reach NoFail h ∧ h.snapshotTasks = [{ index := 5, data := [] }] ∧
    h.raft.term = 1 ∧ ∃ p', h.peer.saveSnapshotAndCompact { index := 5, data := [] } [] =
      some (p', .ok, []) ∧ p'.raftStorage.snapshot =
        some { term := 1, index := 5, data := [] } := by
  obtain ⟨h, hr, htasks, hterm, hfits, hlow, hhigh, hentry⟩ :=
    exists_reach (M := .unit) threeNodes () NoFail
      (fun h => h.snapshotTasks = [{ index := 5, data := [] }] ∧ h.raft.term = 1 ∧
      h.raft.raftLog.endIndex < 2 ^ 64 ∧ h.raft.raftLog.firstIndex < 5 ∧
      5 ≤ h.raft.raftLog.lastIndex ∧
      h.raft.raftLog.term 5 = some 1) fiveEntries (by decide +kernel)
  have hsave := @local_snapshot_of_current_term h.peer { index := 5, data := [] } 1 hfits hlow hhigh
      hentry
  exact ⟨h, hr, htasks, hterm, (hsave.2.mpr hterm).1⟩

/-- A candidate of term 3 whose log ends at the entry 5 of term 1. -/
def candidate : Message :=
  { type := .msgVote, src := 3, dst := 1, term := 3, logIndex := 5, logTerm := 1 }

/-- The node is in term 2 when it saves the snapshot: the entry, the sentinel and the snapshot
in memory have term 1, the stored snapshot has term 2. The rebuilt node answers 2 for the term
at 5, rejects the entry before 6 that its log had, and refuses a candidate that it would have
voted for. -/
theorem local_snapshot_of_old_term : ∃ h h' : Host Unit,
    (system .unit threeNodes).Reach NoFail h ∧
    (system .unit threeNodes).step h (.event .snapshotTask []) h' ∧
    h.raft.raftLog.firstIndex < 5 ∧ 5 ≤ h.raft.raftLog.lastIndex ∧
    h.raft.raftLog.term 5 = some 1 ∧ h'.raft.raftLog.term 5 = some 1 ∧
    h'.raft.currentSnapshot = some { term := 1, index := 5, data := [] } ∧
    h'.storage.snapshot = some { term := 2, index := 5, data := [] } ∧
    ∃ p, newPeer threeNodes h'.storage = some p ∧ p.raft.raftLog.term 5 = some 2 ∧
      h'.raft.raftLog.matchTerm 5 1 = some true ∧ p.raft.raftLog.matchTerm 5 1 = some false ∧
      (h'.raft.catchUp candidate).canVote candidate = true ∧
      (p.raft.catchUp candidate).canVote candidate = false := by
  obtain ⟨h, hr, hlow, hhigh, hterm, hen, hn⟩ := exists_reach (M := .unit) threeNodes () NoFail
    (fun h => h.raft.raftLog.firstIndex < 5 ∧ 5 ≤ h.raft.raftLog.lastIndex ∧
      h.raft.raftLog.term 5 = some 1 ∧
      h.Enabled (.event .snapshotTask []) ∧
      (h.act .unit threeNodes (.event .snapshotTask [])).any (fun h' =>
        h'.raft.raftLog.term 5 = some 1 ∧
        h'.raft.currentSnapshot = some { term := 1, index := 5, data := [] } ∧
        h'.storage.snapshot = some { term := 2, index := 5, data := [] } ∧
        (newPeer threeNodes h'.storage).any (fun p => p.raft.raftLog.term 5 = some 2 ∧
          h'.raft.raftLog.matchTerm 5 1 = some true ∧ p.raft.raftLog.matchTerm 5 1 = some false ∧
          (h'.raft.catchUp candidate).canVote candidate = true ∧
          (p.raft.catchUp candidate).canVote candidate = false) = true) = true)
    (fiveEntries ++ [.event (.message
      { type := .msgApp, src := 3, dst := 1, term := 2, logIndex := 5, logTerm := 1, commit := 5 })
        [],
      .ready []]) (by decide +kernel)
  obtain ⟨h', hh', hfacts⟩ := (Option.any_eq_true _ _).mp hn
  obtain ⟨hterm', hcur, hsnap, hp⟩ := of_decide_eq_true hfacts
  obtain ⟨p, hp, hrest⟩ := (Option.any_eq_true _ _).mp hp
  exact ⟨h, h', hr, ⟨hen, hh'⟩, hlow, hhigh, hterm, hterm', hcur, hsnap, p, hp,
    of_decide_eq_true hrest⟩

end Host

end Mizu
