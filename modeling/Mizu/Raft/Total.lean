import Mizu.Raft.Views

/-!
# Calls that do not panic

A node whose log has an entry and that is one of its own peers never panics, except
where `handleAppend` cuts its log at an index that is not in it.
-/

namespace Mizu

namespace Raft

variable {r s : Raft} {readID : ℕ}

/-- The log is not empty and the node is one of its peers. -/
structure Sound (r : Raft) : Prop where
  log : 0 < r.raftLog.endIndex
  member : r.id ∈ Assoc.keys r.prs

section

variable (h : r.Sound)

include h

theorem Sound.congr (hl : s.raftLog = r.raftLog) (hi : s.id = r.id)
    (hp : Assoc.keys s.prs = Assoc.keys r.prs) : s.Sound :=
  ⟨hl ▸ h.log, by rw [hi, hp]; exact h.member⟩

theorem Sound.sends (hs : r.Sends s) : s.Sound :=
  h.congr hs.kept.raftLog hs.kept.id (congrArg Assoc.keys hs.kept.prs)

/-! ### Replication messages and read rounds -/

theorem exists_sendAppend {dst : ℕ} (hd : dst ∈ Assoc.keys r.prs) (readID : ℕ) :
    ∃ s, r.sendAppend dst readID = some s := by
  obtain ⟨pr, hpr⟩ := Option.isSome_iff_exists.mp (Assoc.get_isSome_iff.mpr hd)
  obtain ⟨t, ht⟩ := RaftLog.exists_term h.log (pr.next - 1)
  unfold sendAppend
  simp only [hpr, ht, Option.bind_eq_bind, Option.bind_some]
  split_ifs
  · exact ⟨_, rfl⟩
  · exact ⟨_, rfl⟩

theorem exists_sendAppends (hl : r.state = .leader) {ids : List ℕ}
    (hids : ∀ id ∈ ids, id ∈ Assoc.keys r.prs) : ∃ s, sendAppends readID r ids = some s := by
  induction ids generalizing r with
  | nil => exact ⟨r, rfl⟩
  | cons id ids ih =>
    have hrest : ∀ id' ∈ ids, id' ∈ Assoc.keys r.prs := fun id' hid =>
      hids id' (List.mem_cons_of_mem _ hid)
    unfold sendAppends
    split_ifs with hid
    · exact ih h hl hrest
    · obtain ⟨r₁, h₁⟩ := exists_sendAppend h (hids id List.mem_cons_self) readID
      have hs := sendAppend_sends hl hid h₁
      obtain ⟨s, h₂⟩ := ih (h.sends hs) (hs.state_eq.trans hl) (by rwa [hs.kept.prs])
      exact ⟨s, Option.bind_eq_some_iff.mpr ⟨r₁, h₁, h₂⟩⟩

theorem exists_bcastAppend (hl : r.state = .leader) (readID : ℕ) :
    ∃ s, r.bcastAppend readID = some s :=
  exists_sendAppends h hl fun _ hid => hid

theorem exists_committedEntryInCurrentTerm :
    ∃ b, r.committedEntryInCurrentTerm = some b := by
  unfold committedEntryInCurrentTerm
  split_ifs
  · obtain ⟨t, ht⟩ := RaftLog.exists_term h.log r.commitIndex
    exact ⟨_, by rw [ht]; rfl⟩
  · exact ⟨_, rfl⟩

theorem exists_startReadRound (hl : r.state = .leader) (readID : ℕ) :
    ∃ s, r.startReadRound readID = some s := by
  obtain ⟨b, hb⟩ := exists_committedEntryInCurrentTerm h
  unfold startReadRound
  split
  · exact ⟨_, rfl⟩
  · simp only [hb, Option.bind_eq_bind, Option.bind_some]
    split_ifs
    · exact ⟨_, rfl⟩
    · exact ⟨_, rfl⟩
    · exact ⟨_, rfl⟩
    · refine exists_bcastAppend ?_ ?_ readID
      · exact h.congr rfl rfl rfl
      · exact hl

theorem exists_startReadRounds (hl : r.state = .leader) (ids : List ℕ) :
    ∃ s, startReadRounds r ids = some s := by
  induction ids generalizing r with
  | nil => exact ⟨r, rfl⟩
  | cons id ids ih =>
    obtain ⟨r₁, h₁⟩ := exists_startReadRound h hl id
    have hs := startReadRound_sends h₁ hl
    obtain ⟨s, h₂⟩ := ih (h.sends hs) (hs.state_eq.trans hl)
    exact ⟨s, Option.bind_eq_some_iff.mpr ⟨r₁, h₁, h₂⟩⟩

theorem exists_startPendingReadRounds : ∃ s, r.startPendingReadRounds = some s := by
  unfold startPendingReadRounds
  split_ifs with hl
  · exact ⟨_, rfl⟩
  · obtain ⟨b, hb⟩ := exists_committedEntryInCurrentTerm h
    simp only [hb, Option.bind_eq_bind, Option.bind_some]
    split_ifs
    · exact ⟨_, rfl⟩
    · exact exists_startReadRounds h (not_not.mp hl) _

theorem exists_retryRounds (hl : r.state = .leader)
    (rounds : List (ℕ × ReadRound)) : ∃ s, retryRounds r rounds = some s := by
  induction rounds generalizing r with
  | nil => exact ⟨r, rfl⟩
  | cons p rounds ih =>
    unfold retryRounds
    split_ifs
    · obtain ⟨r₁, h₁⟩ := exists_bcastAppend h hl p.1
      have hs := bcastAppend_sends h₁ hl
      obtain ⟨s, h₂⟩ := ih (h.sends hs) (hs.state_eq.trans hl)
      exact ⟨s, Option.bind_eq_some_iff.mpr ⟨r₁, h₁, h₂⟩⟩
    · exact ih h hl

end

/-! ### Commitment and elections -/

theorem exists_emitRounds (h : 0 < r.raftLog.endIndex) (n : ℕ) : ∃ s, emitRounds n r = some s := by
  induction n generalizing r with
  | zero => exact ⟨r, rfl⟩
  | succ n ih =>
    unfold emitRounds
    dsimp only
    split_ifs with hb
    · exact ih h
    · have hlo : r.raftLog.offset ≤ r.committedCursor + 1 := not_lt.mp fun hlt => hb (Or.inl hlt)
      have hhi : r.committedCursor + 1 ≤ r.raftLog.lastIndex :=
        not_lt.mp fun hlt => hb (Or.inr hlt)
      rw [RaftLog.lastIndex_of_pos h] at hhi
      obtain ⟨e, he⟩ := RaftLog.exists_entry hlo (by omega)
      simp only [he, Option.bind_eq_bind, Option.bind_some]
      exact ih h

theorem exists_commitTo (h : r.Sound) (i : ℕ) : ∃ s, r.commitTo i = some s := by
  unfold commitTo
  split_ifs
  · obtain ⟨r₁, h₁⟩ := exists_emitRounds (r := (r.setCommit i).markHardStateChanged) h.log
      (i - r.committedCursor)
    have heq := emitted_eq_committed h₁
    have hsound : r₁.Sound := by
      rw [heq]
      exact h.congr rfl rfl rfl
    obtain ⟨s, h₂⟩ := exists_startPendingReadRounds hsound
    exact ⟨s, Option.bind_eq_some_iff.mpr ⟨r₁, h₁, h₂⟩⟩
  · exact ⟨_, rfl⟩

theorem Sound.quorum_lt (h : r.Sound) :
    r.quorum - 1 < ((r.prs.map fun p => p.2.matched).insertionSort (· ≥ ·)).length := by
  have hlen : 0 < r.prs.length := by
    have := List.length_pos_of_mem h.member
    rwa [Assoc.keys, List.length_map] at this
  rw [List.length_insertionSort, List.length_map, quorum]
  omega

theorem exists_maybeCommit (h : r.Sound) : ∃ s, r.maybeCommit = some s := by
  have hq := h.quorum_lt
  obtain ⟨b, hb⟩ := RaftLog.exists_matchTerm h.log
    (((r.prs.map fun p => p.2.matched).insertionSort (· ≥ ·))[r.quorum - 1]) r.term
  unfold maybeCommit
  simp only [List.getElem?_eq_getElem hq, hb, Option.bind_eq_bind, Option.bind_some]
  cases b with
  | false => exact ⟨_, rfl⟩
  | true => exact exists_commitTo h _

theorem exists_appendEntry (h : r.Sound) (hl : r.state = .leader) (data : Bytes) :
    ∃ s, r.appendEntry data = some s := by
  obtain ⟨pr, hpr⟩ := Option.isSome_iff_exists.mp (Assoc.get_isSome_iff.mpr h.member)
  have hsound : (r.appended data).Sound := by
    refine ⟨?_, ?_⟩
    · simp only [appended, RaftLog.append, RaftLog.endIndex, List.length_append,
        List.length_singleton]
      omega
    · exact Assoc.mem_keys_set.mpr (Or.inl rfl)
  obtain ⟨r₁, h₁⟩ := exists_bcastAppend hsound hl 0
  obtain ⟨s, h₂⟩ := exists_maybeCommit (hsound.sends (bcastAppend_sends h₁ hl))
  exact ⟨s, Option.bind_eq_some_iff.mpr ⟨pr, hpr, Option.bind_eq_some_iff.mpr ⟨r₁, h₁, h₂⟩⟩⟩

theorem exists_becomeLeader (h : r.Sound) : ∃ s, r.becomeLeader = some s := by
  refine exists_appendEntry (r := r.leading) (h.congr rfl rfl ?_) rfl []
  simp [leading, Assoc.keys]

theorem exists_campaign (h : r.Sound) : ∃ s, r.campaign = some s := by
  unfold campaign
  dsimp only
  split_ifs
  · exact exists_becomeLeader (h.congr rfl rfl rfl)
  · exact ⟨_, rfl⟩

theorem exists_handleVoteResp (h : r.Sound) (m : Message) : ∃ s, r.handleVoteResp m = some s := by
  unfold handleVoteResp
  dsimp only
  split_ifs
  · exact exists_becomeLeader (h.congr rfl rfl rfl)
  · exact ⟨_, rfl⟩
  · exact ⟨_, rfl⟩

/-! ### Answers -/

theorem exists_conflictFirst {l : RaftLog} (h : 0 < l.endIndex) (t index : ℕ) :
    ∃ first, conflictFirst l t index = some first := by
  have key (n : ℕ) : ∃ first, conflictFrom l t n = some first := by
    induction n with
    | zero => exact ⟨_, rfl⟩
    | succ n ih =>
      obtain ⟨u, hu⟩ := RaftLog.exists_term h (l.offset + n)
      unfold conflictFrom
      simp only [hu, Option.bind_eq_bind, Option.bind_some]
      split_ifs
      · exact ih
      · exact ⟨_, rfl⟩
  unfold conflictFirst
  split_ifs
  · exact key _
  · exact ⟨_, rfl⟩

theorem Sound.becomeFollower (h : r.Sound) (t lead : ℕ) : (r.becomeFollower t lead).Sound := by
  unfold Raft.becomeFollower
  dsimp only
  split_ifs
  · exact h.congr rfl rfl rfl
  · exact h.congr rfl rfl rfl

/-- The cut that an accepted `MsgApp` makes is inside the log. -/
def CutsInside (r : Raft) (m : Message) : Prop :=
  m.logIndex ≤ r.raftLog.lastIndex → r.raftLog.term m.logIndex = some m.logTerm →
    m.entries ≠ [] → r.raftLog.firstIndex ≤ m.logIndex

variable {m : Message}

section

variable (h : r.Sound)

include h

theorem exists_appendReceived (hcut : m.entries ≠ [] → r.raftLog.firstIndex ≤ m.logIndex)
    (hi : m.logIndex ≤ r.raftLog.lastIndex) : ∃ s, r.appendReceived m = some s ∧ s.Sound := by
  unfold appendReceived
  split_ifs with hnil
  · exact ⟨r, rfl, h⟩
  · have ho : r.raftLog.offset ≤ m.logIndex := hcut hnil
    rw [RaftLog.lastIndex_of_pos h.log] at hi
    have hpos := h.log
    simp only [RaftLog.truncateAndAppend,
      if_pos (show r.raftLog.offset ≤ m.logIndex + 1 ∧ m.logIndex + 1 ≤ r.raftLog.endIndex by
        omega),
      Option.bind_eq_bind, Option.bind_some]
    refine ⟨_, rfl, ?_, h.member⟩
    have := List.length_pos_iff.mpr hnil
    simp only [RaftLog.endIndex, List.length_append]
    omega

theorem exists_learnCommit (m : Message) : ∃ s, r.learnCommit m = some s := by
  unfold learnCommit
  split_ifs
  · exact exists_commitTo h _
  · exact ⟨_, rfl⟩

theorem exists_handleAppend
    (hcut : r.term ≤ m.term → r.CutsInside m) : ∃ s, r.handleAppend m = some s := by
  have hf := h.becomeFollower m.term m.src
  have hlog : (r.becomeFollower m.term m.src).raftLog = r.raftLog := by
    unfold Raft.becomeFollower
    dsimp only
    split_ifs <;> rfl
  unfold CutsInside at hcut
  rw [← hlog] at hcut
  unfold handleAppend
  dsimp only
  generalize r.becomeFollower m.term m.src = r₀ at hf hcut
  split_ifs with hlt hi
  · exact ⟨_, rfl⟩
  · exact ⟨_, rfl⟩
  · obtain ⟨t, ht⟩ := RaftLog.exists_term hf.log m.logIndex
    simp only [ht, Option.bind_eq_bind, Option.bind_some]
    have hle := not_lt.mp hi
    split_ifs with hne
    · obtain ⟨first, hfirst⟩ := exists_conflictFirst hf.log t m.logIndex
      have hbound := (conflictFirst_spec ht hfirst).1
      have hend : first ≤ r₀.raftLog.endIndex := by
        rw [RaftLog.lastIndex_of_pos hf.log] at hle
        omega
      obtain ⟨log, hl⟩ := RaftLog.exists_truncate hend
      simp only [hfirst, hl, Option.bind_some]
      exact ⟨_, rfl⟩
    · obtain ⟨r₁, h₁, hs₁⟩ :=
        exists_appendReceived hf (hcut (not_lt.mp hlt) hle (by rw [ht, not_not.mp hne])) hle
      obtain ⟨r₂, h₂⟩ := exists_learnCommit hs₁ m
      simp only [h₁, h₂, Option.bind_some]
      exact ⟨_, rfl⟩

theorem exists_handleAppendResp (m : Message) :
    ∃ s, r.handleAppendResp m = some s := by
  unfold handleAppendResp
  split
  · exact ⟨_, rfl⟩
  · next pr hpr =>
    split_ifs
    · exact ⟨_, rfl⟩
    · obtain ⟨rounds, reads, hack⟩ := ackReadRound_quiet r m.readId m.src
      rw [hack]
      have hmoved : ∃ q, r.respProgress pr m = some q := by
        unfold respProgress movedProgress
        split_ifs
        · exact ⟨_, rfl⟩
        · exact ⟨_, rfl⟩
        · obtain ⟨o, ho⟩ := RaftLog.exists_findLastIndexOfTerm h.log m.logTerm
          simp only [ho, Option.bind_eq_bind, Option.bind_some]
          cases o with
          | none => exact ⟨_, rfl⟩
          | some i => exact ⟨_, rfl⟩
      obtain ⟨q, hq⟩ := hmoved
      obtain ⟨s, hs⟩ := exists_maybeCommit (r := { r with
        readRounds := rounds, readStates := reads, prs := Assoc.set m.src q r.prs })
        ⟨h.log, Assoc.mem_keys_set.mpr (Or.inr h.member)⟩
      exact ⟨s, Option.bind_eq_some_iff.mpr ⟨q, hq, hs⟩⟩

/-! ### The calls -/

theorem exists_dispatch (hcut : m.type = .msgApp → r.term ≤ m.term → r.CutsInside m) :
    ∃ s, r.dispatch m = some s := by
  cases hs : r.state with
  | follower =>
    cases hm : m.type <;> simp only [dispatch, hs, hm]
    case msgHup => exact exists_campaign h
    case msgApp => exact exists_handleAppend h (hcut hm)
    all_goals exact ⟨_, rfl⟩
  | candidate =>
    cases hm : m.type <;> simp only [dispatch, hs, hm]
    case msgHup => exact exists_campaign h
    case msgVoteResp => exact exists_handleVoteResp h m
    case msgApp => exact exists_handleAppend h (hcut hm)
    all_goals exact ⟨_, rfl⟩
  | leader =>
    cases hm : m.type <;> simp only [dispatch, hs, hm]
    case msgBeat => exact exists_bcastAppend h hs 0
    case msgAppResp => exact exists_handleAppendResp h m
    all_goals exact ⟨_, rfl⟩

theorem exists_step
    (hcut : m.type = .msgApp → r.term ≤ m.term → r.CutsInside m) : ∃ s, r.step m = some s := by
  unfold step catchUp
  split_ifs with ht
  · refine exists_dispatch (h.becomeFollower _ _) fun hm _ => ?_
    rw [becomeFollower_of_lt ht]
    exact hcut hm ht.le
  · exact exists_dispatch h hcut

theorem exists_tick (rnd : ℕ) : ∃ s, r.tick rnd = some s := by
  unfold tick
  split_ifs with hl
  · dsimp only
    split_ifs
    · have hq : Sound { r with heartbeatElapsed := 0 } := h.congr rfl rfl rfl
      obtain ⟨r₁, h₁⟩ := exists_bcastAppend hq hl 0
      have hs := bcastAppend_sends h₁ hl
      obtain ⟨s, h₂⟩ := exists_retryRounds (hq.sends hs) (hs.state_eq.trans hl) r₁.readRounds
      exact ⟨s, Option.bind_eq_some_iff.mpr ⟨r₁, h₁, h₂⟩⟩
    · exact ⟨_, rfl⟩
  · dsimp only
    split_ifs
    · apply exists_campaign
      exact h.congr rfl rfl rfl
    · exact ⟨_, rfl⟩

theorem exists_propose (data : Bytes) : ∃ x, r.propose data = some x := by
  unfold propose
  split_ifs with hl
  · exact ⟨_, rfl⟩
  · obtain ⟨s, hs⟩ := exists_appendEntry h (not_not.mp hl) data
    exact ⟨(s, true), Option.bind_eq_some_iff.mpr ⟨s, hs, rfl⟩⟩

theorem exists_readIndex (readID : ℕ) : ∃ x, r.readIndex readID = some x := by
  unfold readIndex
  split_ifs with hl
  · exact ⟨_, rfl⟩
  · have hst : r.state = .leader := by
      by_contra hne
      exact hl (Or.inl hne)
    obtain ⟨s, hs⟩ := exists_startReadRound
      (r := { r with readRounds := Assoc.set readID {} r.readRounds }) (h.congr rfl rfl rfl) hst
      readID
    exact ⟨(s, true), Option.bind_eq_some_iff.mpr ⟨s, hs, rfl⟩⟩

theorem exists_snapshot (index : ℕ) (data : Bytes) :
    ∃ s, r.snapshot index data = some s := by
  unfold snapshot
  split_ifs
  · exact ⟨_, rfl⟩
  · obtain ⟨t, ht⟩ := RaftLog.exists_term h.log index
    simp only [ht, Option.bind_eq_bind, Option.bind_some]
    exact ⟨_, rfl⟩

end

end Raft

end Mizu
