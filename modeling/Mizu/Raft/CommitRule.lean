import Mizu.Raft.Total
import Mizu.Raft.WrappedLog

/-!
# The commit rule

`maybeCommit` sorts the match indices of the peers and takes the one at the place of the quorum.
That is the greatest index that a quorum has reached, whatever the number of peers and however many
of them are level.
-/

namespace Mizu

namespace Raft

variable {r s : Raft}

/-- What `matches[quorum-1]` is. -/
theorem isGreatest_quorumMatch {m : ℕ}
    (h : ((r.prs.map fun p => p.2.matched).insertionSort (· ≥ ·))[r.quorum - 1]? = some m) :
    IsGreatest {i | r.QuorumMatch i} m := by
  have hiff (i : ℕ) : r.quorum - 1 + 1 ≤ (r.prs.map fun p => p.2.matched).countP (i ≤ ·) ↔
      r.QuorumMatch i := by
    have hq : r.quorum - 1 + 1 = r.quorum := rfl
    rw [hq, List.countP_map, List.countP_eq_length_filter]
    rfl
  simpa only [hiff] using Majority.isGreatest_of_sorted h

/-- A leader's `maybeCommit` by cases on the index that a quorum has reached. -/
theorem maybeCommit_eq (h : r.Sound) : ∃ m, IsGreatest {i | r.QuorumMatch i} m ∧
    r.maybeCommit =
      if (r.raftLog.entry m).map Entry.term = some r.term then r.commitTo m else some r := by
  have hget := List.getElem?_eq_getElem h.quorum_lt
  refine ⟨_, isGreatest_quorumMatch hget, ?_⟩
  rw [maybeCommit, hget]
  simp only [RaftLog.matchTerm_eq h.log, Option.bind_eq_bind, Option.bind_some, decide_eq_true_eq]

/-- The indices of the log are `uint64`, so that `LastIndex()` does not wrap around. Let `m` be the
greatest index that a quorum of the peers has reached. After `maybeCommit` the
commit index of a leader is `m` if that is above it, in the log and of the current term, and what
the log holds between the cursor and `m` has been handed out in order. Otherwise nothing has
changed. -/
theorem maybeCommit_picks_median (h : r.Sound) (hfits : r.raftLog.endIndex ≤ 2 ^ 64) :
    WrappedLog.lastIndex r.raftLog = r.raftLog.lastIndex ∧
    ∃ m s, r.maybeCommit = some s ∧
      IsGreatest {i | r.prs.length / 2 + 1 ≤ (r.prs.filter fun p => i ≤ p.2.matched).length} m ∧
      (r.commitIndex < m ∧ (∃ e, r.raftLog.entry m = some e ∧ e.term = r.term) →
        s.commitIndex = m ∧ s.committedEntries = r.committedEntries ++
          (List.range' (r.committedCursor + 1) (m - r.committedCursor)).filterMap r.raftLog.entry) ∧
      (¬(r.commitIndex < m ∧ ∃ e, r.raftLog.entry m = some e ∧ e.term = r.term) → s = r) := by
  obtain ⟨m, hm, heq⟩ := maybeCommit_eq h
  obtain ⟨s, hs⟩ := exists_maybeCommit h
  refine ⟨WrappedLog.lastIndex_eq_of_le hfits, m, s, hs, hm, ?_, ?_⟩
  · rintro ⟨hlt, e, he, ht⟩
    rw [heq, if_pos (by rw [he, Option.map_some, ht])] at hs
    rcases commitTo_cases hs with ⟨hle, -⟩ | ⟨-, hsends⟩
    · omega
    · cases hsends
      exact ⟨rfl, rfl⟩
  · intro hnot
    rw [heq] at hs
    split_ifs at hs with hterm
    · rcases commitTo_cases hs with ⟨-, rfl⟩ | ⟨hlt, -⟩
      · rfl
      · obtain ⟨e, he, ht⟩ := Option.map_eq_some_iff.mp hterm
        exact absurd ⟨hlt, e, he, ht⟩ hnot
    · exact (Option.some.inj hs).symm

/-- A leader of four peers, two of them level. -/
def levelLeader : Raft where
  id := 1
  state := .leader
  hardState := { term := 1 }
  raftLog := newRaftLog.append
    [{ term := 1, index := 1 }, { term := 1, index := 2 }, { term := 1, index := 3 }]
  prs := [(1, { matched := 3, next := 4 }), (2, { matched := 2, next := 3 }),
    (3, { matched := 0, next := 1 }), (4, { matched := 2, next := 3 })]
  electionTimeout := 15
  heartbeatTimeout := 3

theorem maybeCommit_picks_median_level :
    ∃ s, levelLeader.maybeCommit = some s ∧ s.commitIndex = 2 ∧
      s.committedEntries = [{ term := 1, index := 1 }, { term := 1, index := 2 }] := by
  obtain ⟨-, m, s, hs, hm, hcommit, -⟩ := maybeCommit_picks_median
    (⟨by decide, by decide⟩ : levelLeader.Sound) (by decide)
  obtain rfl : m = 2 := by
    refine le_antisymm (not_lt.mp fun hlt => ?_) (hm.2 (by decide : 3 ≤ 3))
    have hfew : (levelLeader.prs.filter fun p => m ≤ p.2.matched).length ≤
        (levelLeader.prs.filter fun p => 3 ≤ p.2.matched).length := by
      refine (List.monotone_filter_right _ fun p hp => ?_).length_le
      simp only [decide_eq_true_eq] at hp ⊢
      omega
    exact absurd (le_trans hm.1 hfew) (by decide)
  obtain ⟨hindex, hentries⟩ := hcommit ⟨by decide, { term := 1, index := 2 }, by decide, by decide⟩
  exact ⟨s, hs, hindex, hentries.trans (by decide)⟩

end Raft

end Mizu
