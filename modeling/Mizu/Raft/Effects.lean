import Mizu.Library.Majority
import Mizu.Raft.Node

/-!
# What one call on a node can do

Every call of `raft.go` is described here once, as an explicit new state up to
the timers and the read rounds, with the messages it sends. Later modules reason
from these descriptions and do not unfold the node again.
-/

namespace Mizu

/-- The entries with index in `(lo, hi]`, in order. -/
def RaftLog.between (l : RaftLog) (lo hi : ℕ) : List Entry :=
  (List.range' (lo + 1) (hi - lo)).filterMap l.entry

theorem RaftLog.mem_between {l : RaftLog} {lo hi : ℕ} {e : Entry} :
    e ∈ l.between lo hi ↔ ∃ k, lo < k ∧ k ≤ hi ∧ l.entry k = some e := by
  simp only [RaftLog.between, List.mem_filterMap, List.mem_range'_1]
  constructor
  · rintro ⟨k, hk, he⟩
    exact ⟨k, by omega, by omega, he⟩
  · rintro ⟨k, hlo, hhi, he⟩
    exact ⟨k, by omega, he⟩

namespace Raft

variable {r r₁ r₂ r' : Raft}

/-! ### Messages of a leader -/

/-- A replication message that the leader `r` can send: entries from the peer's
`Next` on, or the current snapshot when the log does not reach down to it. -/
structure Outgoing (r : Raft) (m : Message) : Prop where
  leader : r.state = .leader
  src : m.src = r.id
  dst : m.dst ≠ r.id
  term : m.term = r.term
  body : ∃ pr, Assoc.get m.dst r.prs = some pr ∧
    ((m.type = .msgApp ∧ r.raftLog.offset < pr.next ∧ m.logIndex + 1 = pr.next ∧
        r.raftLog.term m.logIndex = some m.logTerm ∧
        m.entries = r.raftLog.slice pr.next r.raftLog.endIndex ∧ m.commit ≤ r.commitIndex) ∨
      (m.type = .msgSnap ∧ pr.next ≤ r.raftLog.offset ∧
        ∃ s, r.currentSnapshot = some s ∧ s.index ≠ 0 ∧ m.snapshot = some s))

/-- `r` up to the timers, the read rounds and replication messages. -/
inductive Sends (r : Raft) : Raft → Prop
  | intro (election heartbeat : ℕ) (rounds : List (ℕ × ReadRound)) (reads : List ReadState)
      (ms : List Message) (out : ∀ m ∈ ms, r.Outgoing m) :
      Sends r { r with
        electionElapsed := election, heartbeatElapsed := heartbeat, readRounds := rounds
        readStates := reads, msgs := r.msgs ++ ms }

theorem Sends.refl (r : Raft) : r.Sends r := by
  have h := Sends.intro (r := r) r.electionElapsed r.heartbeatElapsed r.readRounds r.readStates []
    (by simp)
  simpa using h

variable {m : Message}

theorem Outgoing.congr (h : r.Outgoing m) (hs : r'.state = r.state)
    (hi : r'.id = r.id) (ht : r'.term = r.term) (hp : r'.prs = r.prs)
    (hl : r'.raftLog = r.raftLog) (hc : r'.currentSnapshot = r.currentSnapshot)
    (hci : r.commitIndex ≤ r'.commitIndex) : r'.Outgoing m := by
  obtain ⟨pr, hpr, hbody⟩ := h.body
  refine ⟨hs.trans h.leader, h.src.trans hi.symm, hi ▸ h.dst, h.term.trans ht.symm, pr,
    hp ▸ hpr, ?_⟩
  rw [hl, hc]
  rcases hbody with ⟨h₁, h₂, h₃, h₄, h₅, h₆⟩ | h
  · exact Or.inl ⟨h₁, h₂, h₃, h₄, h₅, h₆.trans hci⟩
  · exact Or.inr h

theorem Sends.trans (h₁ : r.Sends r₁) (h₂ : r₁.Sends r₂) : r.Sends r₂ := by
  cases h₁ with
  | intro e₁ b₁ rr₁ rs₁ ms₁ out₁ =>
    cases h₂ with
    | intro e₂ b₂ rr₂ rs₂ ms₂ out₂ =>
      have h := Sends.intro (r := r) e₂ b₂ rr₂ rs₂ (ms₁ ++ ms₂) (by
        intro m hm
        rcases List.mem_append.mp hm with hm | hm
        · exact out₁ m hm
        · exact (out₂ m hm).congr rfl rfl rfl rfl rfl rfl le_rfl)
      simpa only [List.append_assoc] using h

/-- Timers and read rounds are free. -/
theorem sends_quiet (r : Raft) (election heartbeat : ℕ) (rounds : List (ℕ × ReadRound))
    (reads : List ReadState) :
    r.Sends { r with
      electionElapsed := election, heartbeatElapsed := heartbeat, readRounds := rounds
      readStates := reads } := by
  have h := Sends.intro (r := r) election heartbeat rounds reads [] (by simp)
  simpa using h

variable {readID : ℕ}

theorem sendAppend_sends {dst : ℕ} (hl : r.state = .leader) (hd : dst ≠ r.id)
    (h : r.sendAppend dst readID = some r') : r.Sends r' := by
  obtain ⟨pr, hpr, h⟩ := Option.bind_eq_some_iff.mp h
  split_ifs at h with hn
  · cases h
    unfold sendSnapshot
    split
    · exact Sends.refl r
    · next s hs =>
      split_ifs with h0
      · exact Sends.refl r
      · refine Sends.intro _ _ _ _ [_] ?_
        intro m hm
        rw [List.mem_singleton.mp hm]
        exact ⟨hl, rfl, hd, rfl, pr, hpr, Or.inr ⟨rfl, hn, s, hs, h0, rfl⟩⟩
  · obtain ⟨t, ht, h⟩ := Option.bind_eq_some_iff.mp h
    cases h
    refine Sends.intro _ _ _ _ [_] ?_
    intro m hm
    rw [List.mem_singleton.mp hm]
    have hn' : r.raftLog.offset < pr.next := by
      simpa [RaftLog.firstIndex] using hn
    refine ⟨hl, rfl, hd, rfl, pr, hpr, Or.inl ⟨rfl, hn', ?_, ht, rfl, le_rfl⟩⟩
    change pr.next - 1 + 1 = pr.next
    omega

theorem Sends.state_eq (h : r.Sends r') : r'.state = r.state := by
  cases h
  rfl

theorem sendAppends_sends {ids : List ℕ} (hl : r.state = .leader)
    (h : sendAppends readID r ids = some r') : r.Sends r' := by
  induction ids generalizing r with
  | nil =>
    cases h
    exact Sends.refl _
  | cons id ids ih =>
    unfold sendAppends at h
    split_ifs at h with hid
    · exact ih hl h
    · obtain ⟨r₁, h₁, h⟩ := Option.bind_eq_some_iff.mp h
      have hs := sendAppend_sends hl hid h₁
      exact hs.trans (ih (hs.state_eq.trans hl) h)

theorem bcastAppend_sends (h : r.bcastAppend readID = some r')
    (hl : r.state = .leader) : r.Sends r' :=
  sendAppends_sends hl h

/-! ### Read rounds -/

theorem completeReadRound_sends (readID : ℕ) : r.Sends (r.completeReadRound readID) := by
  unfold completeReadRound
  split
  · exact Sends.refl r
  · exact sends_quiet r _ _ _ _

theorem startReadRound_sends (h : r.startReadRound readID = some r')
    (hl : r.state = .leader) : r.Sends r' := by
  unfold startReadRound at h
  split at h
  · cases h
    exact Sends.refl r
  · split_ifs at h with hst
    · cases h
      exact Sends.refl r
    · obtain ⟨current, -, h⟩ := Option.bind_eq_some_iff.mp h
      dsimp only at h
      split_ifs at h
      · cases h
        exact Sends.refl r
      · cases h
        exact (sends_quiet r _ _ _ _).trans (completeReadRound_sends readID)
      · exact (sends_quiet r _ _ _ _).trans (bcastAppend_sends h hl)

theorem startReadRounds_sends {ids : List ℕ} (hl : r.state = .leader)
    (h : startReadRounds r ids = some r') : r.Sends r' := by
  induction ids generalizing r with
  | nil =>
    cases h
    exact Sends.refl _
  | cons id ids ih =>
    obtain ⟨r₁, h₁, h⟩ := Option.bind_eq_some_iff.mp h
    have hs := startReadRound_sends h₁ hl
    exact hs.trans (ih (hs.state_eq.trans hl) h)

theorem startPendingReadRounds_sends (h : r.startPendingReadRounds = some r') : r.Sends r' := by
  unfold startPendingReadRounds at h
  split_ifs at h with hl
  · cases h
    exact Sends.refl r
  · obtain ⟨current, -, h⟩ := Option.bind_eq_some_iff.mp h
    split_ifs at h
    · cases h
      exact Sends.refl r
    · exact startReadRounds_sends (not_not.mp hl) h

theorem retryRounds_sends {rounds : List (ℕ × ReadRound)} (hl : r.state = .leader)
    (h : retryRounds r rounds = some r') : r.Sends r' := by
  induction rounds generalizing r with
  | nil =>
    cases h
    exact Sends.refl _
  | cons p rounds ih =>
    unfold retryRounds at h
    split_ifs at h
    · obtain ⟨r₁, h₁, h⟩ := Option.bind_eq_some_iff.mp h
      have hs := bcastAppend_sends h₁ hl
      exact hs.trans (ih (hs.state_eq.trans hl) h)
    · exact ih hl h

/-! ### Commitment -/

/-- `r` after its commit index has been raised to `i`. -/
def committed (r : Raft) (i : ℕ) : Raft :=
  { r with
    hardState := { r.hardState with commitIndex := i }
    pendingHardState := some { r.hardState with commitIndex := i }
    committedCursor := max r.committedCursor i
    committedEntries := r.committedEntries ++ r.raftLog.between r.committedCursor i }

theorem emitRounds_eq {n : ℕ} (h : emitRounds n r = some r') :
    r' = { r with
      committedCursor := r.committedCursor + n
      committedEntries := r.committedEntries ++
        (List.range' (r.committedCursor + 1) n).filterMap r.raftLog.entry } := by
  induction n generalizing r with
  | zero =>
    cases h
    simp
  | succ n ih =>
    unfold emitRounds at h
    dsimp only at h
    split_ifs at h with hb
    · -- the loop steps over an index outside the log
      have hn : r.raftLog.entry (r.committedCursor + 1) = none := by
        rw [RaftLog.entry_eq_none_iff]
        rcases hb with hb | hb
        · exact Or.inl hb
        · by_cases h0 : 0 < r.raftLog.endIndex
          · rw [RaftLog.lastIndex_of_pos h0] at hb
            omega
          · omega
      rw [ih h]
      simp [List.range'_succ, hn]
      omega
    · obtain ⟨e, he, h⟩ := Option.bind_eq_some_iff.mp h
      rw [ih h]
      simp [List.range'_succ, he]
      omega

variable {i : ℕ}

theorem emitted_eq_committed
    (h : (r.setCommit i).markHardStateChanged.emitCommittedEntries = some r') :
    r' = r.committed i := by
  have hmax : r.committedCursor + (i - r.committedCursor) = max r.committedCursor i := by omega
  rw [emitRounds_eq h]
  simp only [committed, markHardStateChanged, setCommit, commitIndex, RaftLog.between, hmax]

theorem commitTo_cases (h : r.commitTo i = some r') :
    (i ≤ r.commitIndex ∧ r' = r) ∨ (r.commitIndex < i ∧ (r.committed i).Sends r') := by
  unfold commitTo at h
  split_ifs at h with hi
  · obtain ⟨r₁, h₁, h⟩ := Option.bind_eq_some_iff.mp h
    rw [emitted_eq_committed h₁] at h
    exact Or.inr ⟨hi, startPendingReadRounds_sends h⟩
  · cases h
    exact Or.inl ⟨not_lt.mp hi, rfl⟩

/-- At least a quorum of the progress records has reached `i`. -/
def QuorumMatch (r : Raft) (i : ℕ) : Prop :=
  r.quorum ≤ (r.prs.filter fun p => i ≤ p.2.matched).length

/-- What `maybeCommit` leaves of a leader: an index of its own term that a quorum
has reached may have been committed, and messages sent. -/
inductive Advances (r : Raft) : Raft → Prop
  | same {s : Raft} (h : r.Sends s) : Advances r s
  | commit {s : Raft} (i : ℕ) (lt : r.commitIndex < i) (reached : r.QuorumMatch i)
      (own : r.raftLog.matchTerm i r.term = some true) (h : (r.committed i).Sends s) :
      Advances r s

theorem quorumMatch_of_sorted
    (h : ((r.prs.map fun p => p.2.matched).insertionSort (· ≥ ·))[r.quorum - 1]? = some i) :
    r.QuorumMatch i := by
  have := Majority.le_countP_of_sorted h
  unfold QuorumMatch
  rw [List.countP_map, List.countP_eq_length_filter] at this
  simp only [Function.comp_def] at this
  omega

theorem maybeCommit_advances (h : r.maybeCommit = some r') : r.Advances r' := by
  obtain ⟨i, hi, h⟩ := Option.bind_eq_some_iff.mp h
  obtain ⟨current, hc, h⟩ := Option.bind_eq_some_iff.mp h
  cases current with
  | false =>
    cases h
    exact .same (Sends.refl r)
  | true =>
    rcases commitTo_cases h with ⟨-, rfl⟩ | ⟨hlt, hs⟩
    · exact .same (Sends.refl _)
    · exact .commit i hlt (quorumMatch_of_sorted hi) hc hs

/-- Messages sent before the commit can be counted with those sent after it. -/
theorem Sends.advances (h₁ : r.Sends r₁) (h₂ : r₁.Advances r₂) : r.Advances r₂ := by
  cases h₂ with
  | same h => exact .same (h₁.trans h)
  | commit i lt reached own h =>
    cases h₁ with
    | intro e b rr rs ms out =>
      refine .commit i lt reached own (Sends.trans ?_ h)
      refine Sends.intro _ _ _ _ ms ?_
      intro m hm
      exact (out m hm).congr rfl rfl rfl rfl rfl rfl (le_of_lt lt)

/-- What sending and committing leave alone. -/
structure Kept (r s : Raft) : Prop where
  id : s.id = r.id
  state : s.state = r.state
  term : s.term = r.term
  vote : s.vote = r.vote
  raftLog : s.raftLog = r.raftLog
  prs : s.prs = r.prs
  votes : s.votes = r.votes
  currentSnapshot : s.currentSnapshot = r.currentSnapshot
  pendingEntries : s.pendingEntries = r.pendingEntries
  pendingSnapshot : s.pendingSnapshot = r.pendingSnapshot

theorem Sends.kept (h : r.Sends r') : r.Kept r' := by
  cases h
  exact ⟨rfl, rfl, rfl, rfl, rfl, rfl, rfl, rfl, rfl, rfl⟩

theorem Advances.kept (h : r.Advances r') : r.Kept r' := by
  cases h with
  | same h => exact h.kept
  | commit i lt reached own h =>
    cases h
    exact ⟨rfl, rfl, rfl, rfl, rfl, rfl, rfl, rfl, rfl, rfl⟩

/-- The entry that a leader appends for `data`. -/
def newEntry (r : Raft) (data : Bytes) : Entry :=
  { term := r.term, index := r.raftLog.endIndex, data := data }

/-- `r` after `data` has been appended to its own log. -/
def appended (r : Raft) (data : Bytes) : Raft :=
  { r with
    raftLog := r.raftLog.append [r.newEntry data]
    pendingEntries := r.pendingEntries ++ [r.newEntry data]
    prs := Assoc.set r.id
      { matched := r.raftLog.endIndex, next := r.raftLog.endIndex + 1 } r.prs }

/-- `r` as a leader that has not yet appended the empty entry of its term. -/
def leading (r : Raft) : Raft :=
  { r with
    state := .leader, lead := r.id, heartbeatElapsed := 0
    prs := r.prs.map fun p => (p.1, { matched := 0, next := r.raftLog.endIndex }) }

variable {data : Bytes}

theorem appendEntry_advances (h : r.appendEntry data = some r')
    (hl : r.state = .leader) : (r.appended data).Advances r' := by
  obtain ⟨_, -, h⟩ := Option.bind_eq_some_iff.mp h
  obtain ⟨r₁, h₁, h⟩ := Option.bind_eq_some_iff.mp h
  exact (bcastAppend_sends h₁ hl).advances (maybeCommit_advances h)

theorem becomeLeader_advances (h : r.becomeLeader = some r') :
    (r.leading.appended []).Advances r' :=
  appendEntry_advances h rfl

/-! ### Answers of a follower -/

/-- `r` as a follower of `lead` in its own term. -/
def follow (r : Raft) (lead : ℕ) : Raft :=
  { r with state := .follower, lead := lead, electionElapsed := 0, votes := [], readRounds := [] }

/-- The fields that every answer to a replication message has. -/
def answer (r : Raft) (type : MsgType) (m : Message) : Message :=
  { type := type, src := r.id, dst := m.src, term := r.term, readId := m.readId }

theorem becomeFollower_eq_follow {t lead : ℕ} (h : t ≤ r.term) :
    r.becomeFollower t lead = r.follow lead := by
  have hn : ¬r.term < t := not_lt.mpr h
  simp only [term] at hn
  simp [becomeFollower, follow, term, hn]

theorem commitTo_follower (hf : r.state ≠ .leader) (h : r.commitTo i = some r') :
    (i ≤ r.commitIndex ∧ r' = r) ∨ (r.commitIndex < i ∧ r' = r.committed i) := by
  unfold commitTo at h
  split_ifs at h with hi
  · obtain ⟨r₁, h₁, h⟩ := Option.bind_eq_some_iff.mp h
    refine Or.inr ⟨hi, ?_⟩
    rw [emitted_eq_committed h₁] at h
    unfold startPendingReadRounds at h
    rw [if_pos (show (r.committed i).state ≠ .leader from hf)] at h
    cases h
    rfl
  · cases h
    exact Or.inl ⟨not_lt.mp hi, rfl⟩

theorem ackReadRound_quiet (r : Raft) (readID src : ℕ) : ∃ rounds reads,
    r.ackReadRound readID src = { r with readRounds := rounds, readStates := reads } := by
  unfold ackReadRound
  split_ifs
  · exact ⟨_, _, rfl⟩
  · split
    · exact ⟨_, _, rfl⟩
    · dsimp only
      split_ifs
      · exact ⟨_, _, rfl⟩
      · unfold completeReadRound
        split
        · exact ⟨_, _, rfl⟩
        · exact ⟨_, _, rfl⟩
      · exact ⟨_, _, rfl⟩

/-! ### The effects -/

def setProgress (r : Raft) (peer : ℕ) (pr : Progress) : Raft :=
  { r with prs := Assoc.set peer pr r.prs }

/-- The votes counted for the candidate. -/
def grants (r : Raft) : ℕ := (r.votes.filter fun p => p.2).length

/-- What `Effect.accepted` leaves of the log. -/
inductive Extends (l : RaftLog) (m : Message) : RaftLog → Prop
  | keep (h : m.entries = []) : Extends l m l
  | extend {log : RaftLog} (h : m.entries ≠ [])
      (cut : l.truncateAndAppend m.logIndex m.entries = some log) : Extends l m log

/-- What a follower of `m.src` holds after it accepted the entries of `m`. -/
def received (r : Raft) (m : Message) (log : RaftLog) : Raft :=
  { r.follow m.src with raftLog := log, pendingEntries := r.pendingEntries ++ m.entries }

/-- The commit index of an accepting follower moves to that of the message, if
this is larger, but not past the log. -/
inductive Learns (r : Raft) (m : Message) : Raft → Prop
  | same (h : min m.commit r.raftLog.lastIndex ≤ r.commitIndex) : Learns r m r
  | commit (h : r.commitIndex < min m.commit r.raftLog.lastIndex) :
      Learns r m (r.committed (min m.commit r.raftLog.lastIndex))

/-- `r` after it installed `snap`; the term can rise without a pending `HardState`. -/
def restored (r : Raft) (snap : Snapshot) : Raft :=
  { r with
    pendingSnapshot := some snap
    raftLog := RaftLog.restore snap.index snap.term
    committedCursor := snap.index
    hardState := { r.hardState with
      term := max r.term snap.term, commitIndex := max snap.index r.commitIndex }
    currentSnapshot := some snap }

theorem restoreSnapshot_eq {snap : Snapshot} (h : snap.index ≠ 0) :
    r.restoreSnapshot snap = r.restored snap := by
  by_cases ht : r.hardState.term < snap.term
  · simp [restoreSnapshot, restored, setCommit, setTerm, term, commitIndex, h, ht,
      Nat.max_eq_right ht.le]
  · simp [restoreSnapshot, restored, setCommit, term, commitIndex, h, ht,
      Nat.max_eq_left (not_lt.mp ht)]

/-- What the leader or follower `r` holds after compaction to `index`, of term `t`. -/
def compacted (r : Raft) (index t : ℕ) (data : Bytes) : Raft :=
  let hs := { r.hardState with commitIndex := max index r.commitIndex }
  let log := r.raftLog.compactTo index t
  { r with
    raftLog := log
    hardState := hs
    pendingHardState := some hs
    committedCursor := max index r.committedCursor
    prs := if r.state = .leader then
        r.prs.map fun p => (p.1, compactProgress log.firstIndex p.2)
      else r.prs
    currentSnapshot := some { term := t, index := index, data := data } }

/-- The single effects that the calls on a node are made of. The message is the
one being handled, if any. -/
inductive Effect (r : Raft) : Option Message → Raft → Prop
  | sends {m : Option Message} {s : Raft} (h : r.Sends s) : Effect r m s
  | proposed {s : Raft} (data : Bytes) (hl : r.state = .leader)
      (h : (r.appended data).Advances s) : Effect r none s
  | stood {m : Option Message} (hm : ∀ m' ∈ m, m'.type = .msgHup) (hs : r.state ≠ .leader)
      (hn : r.prs.length = 1) : Effect r m r.becomeCandidate
  | campaigned {m : Option Message} (hm : ∀ m' ∈ m, m'.type = .msgHup) (hs : r.state ≠ .leader)
      (hn : r.prs.length ≠ 1) : Effect r m (r.becomeCandidate.sendVotes (Assoc.keys r.prs))
  | won {m : Option Message} {s : Raft} (hs : r.state = .candidate) (hq : r.quorum ≤ r.grants)
      (h : (r.leading.appended []).Advances s) : Effect r m s
  | bumped {m : Message} (ht : r.term < m.term) : Effect r (some m) (r.becomeFollower m.term 0)
  | counted {m : Message} (hm : m.type = .msgVoteResp) (ht : m.term ≤ r.term)
      (hs : r.state = .candidate) :
      Effect r (some m) { r with votes := Assoc.set m.src (!m.reject) r.votes }
  | lost {m : Message} (hm : m.type = .msgVoteResp) (hs : r.state = .candidate) :
      Effect r (some m) (r.follow 0)
  | granted {m : Message} (hm : m.type = .msgVote) (hs : r.state ≠ .leader)
      (ht : m.term = r.term) (hv : r.canVote m = true) :
      Effect r (some m)
        ({ (r.setVote m.src).markHardStateChanged with electionElapsed := 0 }.send
          { type := .msgVoteResp, src := r.id, dst := m.src, term := r.term })
  | refused {m : Message} (hm : m.type = .msgVote) (hs : r.state ≠ .leader)
      (hv : r.canVote m = false) :
      Effect r (some m)
        (r.send { type := .msgVoteResp, src := r.id, dst := m.src, term := r.term, reject := true })
  | stale {m : Message} (hm : m.type = .msgApp) (hs : r.state ≠ .leader) (ht : m.term < r.term) :
      Effect r (some m) (r.send { r.answer .msgAppResp m with reject := true })
  | missing {m : Message} (hm : m.type = .msgApp) (hs : r.state ≠ .leader) (ht : m.term = r.term)
      (hi : r.raftLog.lastIndex < m.logIndex) :
      Effect r (some m)
        ((r.follow m.src).send
          { r.answer .msgAppResp m with reject := true, logIndex := r.raftLog.endIndex })
  | conflict {m : Message} {t first : ℕ} {log : RaftLog} (hm : m.type = .msgApp)
      (hs : r.state ≠ .leader) (ht : m.term = r.term) (hi : m.logIndex ≤ r.raftLog.lastIndex)
      (hterm : r.raftLog.term m.logIndex = some t) (hne : m.logTerm ≠ t)
      (hfirst : conflictFirst r.raftLog t m.logIndex = some first)
      (hlog : r.raftLog.truncate first = some log) :
      Effect r (some m)
        ({ r.follow m.src with raftLog := log }.send
          { r.answer .msgAppResp m with reject := true, logTerm := t, logIndex := first })
  | accepted {m : Message} {log : RaftLog} {s : Raft} (hm : m.type = .msgApp)
      (hs : r.state ≠ .leader) (ht : m.term = r.term) (hi : m.logIndex ≤ r.raftLog.lastIndex)
      (hterm : r.raftLog.term m.logIndex = some m.logTerm) (hlog : Extends r.raftLog m log)
      (hc : (r.received m log).Learns m s) :
      Effect r (some m) (s.send { r.answer .msgAppResp m with logIndex := log.lastIndex })
  | progressed {m : Message} {pr pr' : Progress} {s : Raft} (hm : m.type = .msgAppResp)
      (hs : r.state = .leader) (ht : m.term = r.term) (hpr : Assoc.get m.src r.prs = some pr)
      (hpr' : r.respProgress pr m = some pr')
      (h : (r.setProgress m.src pr').Advances s) : Effect r (some m) s
  | unsnapped {m : Message} (hm : m.type = .msgSnap) (hs : r.state ≠ .leader) :
      Effect r (some m) (r.send { r.answer .msgSnapResp m with reject := true })
  | installed {m : Message} {snap : Snapshot} (hm : m.type = .msgSnap) (hs : r.state ≠ .leader)
      (ht : m.term = r.term) (hsnap : m.snapshot = some snap) (hi : r.raftLog.offset < snap.index) :
      Effect r (some m) (((r.follow m.src).restored snap).send (r.answer .msgSnapResp m))
  | snapAcked {m : Message} {s : Raft} (hm : m.type = .msgSnapResp) (hs : r.state = .leader)
      (ht : m.term = r.term) (hr : m.reject = false) (hpr : (Assoc.get m.src r.prs).isSome)
      (h : (r.setProgress m.src
        { next := r.raftLog.offset + 1, matched := r.raftLog.offset }).Sends s) :
      Effect r (some m) s

/-- A chain of effects of one call. The states in between have sent nothing and do
not lead. -/
inductive Effects (m : Option Message) : Raft → Raft → Prop
  | last {r s : Raft} (h : r.Effect m s) : Effects m r s
  | next {r r₁ s : Raft} (h : r.Effect m r₁) (hs : r₁.state ≠ .leader) (hm : r₁.msgs = r.msgs)
      (rest : Effects m r₁ s) : Effects m r s

/-! ### Every call is a chain of effects -/

theorem becomeCandidate_ne_leader (r : Raft) : r.becomeCandidate.state ≠ .leader := nofun

section

variable {m : Option Message} (hm : ∀ m' ∈ m, m'.type = .msgHup) (hs : r.state ≠ .leader)
  (h : r.campaign = some r')

include hm hs h

/-- A campaign is one effect, except that a lone node first stands and then wins. -/
theorem campaign_cases :
    r.Effect m r' ∨ (r.Effect m r.becomeCandidate ∧ r.becomeCandidate.Effect m r' ∧
      r'.term = r.becomeCandidate.term) := by
  unfold campaign at h
  dsimp only at h
  split_ifs at h with hn
  · have hq : r.becomeCandidate.quorum ≤ r.becomeCandidate.grants := by
      have hq : r.becomeCandidate.quorum = r.prs.length / 2 + 1 := rfl
      have hg : r.becomeCandidate.grants = 1 := rfl
      have hn' : r.prs.length = 1 := hn
      omega
    have ha := becomeLeader_advances h
    exact Or.inr ⟨.stood hm hs hn, .won rfl hq ha, ha.kept.term⟩
  · cases h
    exact Or.inl (.campaigned hm hs hn)

theorem campaign_effects : Effects m r r' := by
  rcases campaign_cases hm hs h with h | ⟨h₁, h₂, -⟩
  · exact .last h
  · exact .next h₁ r.becomeCandidate_ne_leader rfl (.last h₂)

end

theorem tick_cases {rnd : ℕ} (h : r.tick rnd = some r') :
    r.Effect none r' ∨ (r.Effect none r.becomeCandidate ∧ r.becomeCandidate.Effect none r' ∧
      r'.term = r.becomeCandidate.term) := by
  unfold tick at h
  split_ifs at h with hl
  · dsimp only at h
    split_ifs at h
    · obtain ⟨r₁, h₁, h⟩ := Option.bind_eq_some_iff.mp h
      have hs := bcastAppend_sends h₁ hl
      have hr := retryRounds_sends (hs.state_eq.trans hl) h
      exact Or.inl (.sends ((sends_quiet r _ _ _ _).trans (hs.trans hr)))
    · cases h
      exact Or.inl (.sends (sends_quiet r _ _ _ _))
  · dsimp only at h
    split_ifs at h
    · have hc : r.campaign = some r' := h
      exact campaign_cases (m := none) (by simp) hl hc
    · cases h
      exact Or.inl (.sends (sends_quiet r _ _ _ _))

theorem propose_cases {x : Raft × Bool} (h : r.propose data = some x) :
    (x.2 = false ∧ x.1 = r) ∨
      (x.2 = true ∧ r.state = .leader ∧ (r.appended data).Advances x.1) := by
  unfold propose at h
  split_ifs at h with hl
  · cases h
    exact Or.inl ⟨rfl, rfl⟩
  · obtain ⟨r₁, h₁, h⟩ := Option.bind_eq_some_iff.mp h
    cases h
    exact Or.inr ⟨rfl, not_not.mp hl, appendEntry_advances h₁ (not_not.mp hl)⟩

theorem readIndex_sends {b : Bool} (h : r.readIndex readID = some (r', b)) :
    r.Sends r' := by
  unfold readIndex at h
  split_ifs at h with hl
  · cases h
    exact Sends.refl _
  · obtain ⟨r₁, h₁, h⟩ := Option.bind_eq_some_iff.mp h
    cases h
    have hs : r.state = .leader := by
      by_contra hne
      exact hl (Or.inl hne)
    exact (sends_quiet r _ _ _ _).trans (startReadRound_sends h₁ hs)

theorem cancelReadIndex_sends (r : Raft) (readID : ℕ) : r.Sends (r.cancelReadIndex readID) :=
  sends_quiet r _ _ _ _

theorem snapshot_eq {index : ℕ} (h : r.snapshot index data = some r') :
    (index ≤ r.raftLog.offset ∧ r' = r) ∨ ∃ t, r.raftLog.offset < index ∧
      r.raftLog.term index = some t ∧ r' = r.compacted index t data := by
  unfold snapshot at h
  split_ifs at h with hi
  · cases h
    exact Or.inl ⟨hi, rfl⟩
  · obtain ⟨t, ht, h⟩ := Option.bind_eq_some_iff.mp h
    refine Or.inr ⟨t, not_le.mp hi, ht, ?_⟩
    cases h
    unfold compacted markHardStateChanged setCommit commitIndex
    split_ifs <;> rfl

theorem snapshot_cases {index : ℕ} (h : r.snapshot index data = some r') :
    r' = r ∨ ∃ t, r.raftLog.offset < index ∧ r.raftLog.term index = some t ∧
      r' = r.compacted index t data :=
  (snapshot_eq h).imp_left And.right

theorem handleVote_effect (hm : m.type = .msgVote) (hs : r.state ≠ .leader)
    (ht : m.term ≤ r.term) : r.Effect (some m) (r.handleVote m) := by
  unfold handleVote
  cases hv : r.canVote m with
  | true =>
    have hge : m.term = r.term := by
      unfold canVote at hv
      split_ifs at hv with hlt
      exact le_antisymm ht (not_lt.mp hlt)
    exact .granted hm hs hge hv
  | false => exact .refused hm hs hv

theorem appendReceived_cases (h : r.appendReceived m = some r') :
    ∃ log, Extends r.raftLog m log ∧
      r' = { r with raftLog := log, pendingEntries := r.pendingEntries ++ m.entries } := by
  unfold appendReceived at h
  split_ifs at h with he
  · cases h
    exact ⟨r.raftLog, .keep he, by simp [he]⟩
  · obtain ⟨log, hlog, h⟩ := Option.bind_eq_some_iff.mp h
    cases h
    exact ⟨log, .extend he hlog, rfl⟩

theorem learnCommit_learns (hf : r.state ≠ .leader)
    (h : r.learnCommit m = some r') : r.Learns m r' := by
  unfold learnCommit at h
  split_ifs at h with hc
  · rcases commitTo_follower hf h with ⟨hle, rfl⟩ | ⟨hlt, rfl⟩
    · exact .same hle
    · exact .commit hlt
  · cases h
    exact .same ((min_le_left _ _).trans (not_lt.mp hc))

theorem Learns.kept (h : r.Learns m r') : r.Kept r' := by
  cases h <;> exact ⟨rfl, rfl, rfl, rfl, rfl, rfl, rfl, rfl, rfl, rfl⟩

theorem handleAppend_effect (hm : m.type = .msgApp) (hs : r.state ≠ .leader)
    (ht : m.term ≤ r.term) (h : r.handleAppend m = some r') : r.Effect (some m) r' := by
  unfold handleAppend at h
  rw [becomeFollower_eq_follow ht] at h
  dsimp only at h
  split_ifs at h with hlt hi
  · cases h
    exact .stale hm hs hlt
  · cases h
    exact .missing hm hs (le_antisymm ht (not_lt.mp hlt)) hi
  · have hterm : m.term = r.term := le_antisymm ht (not_lt.mp hlt)
    obtain ⟨t, htm, h⟩ := Option.bind_eq_some_iff.mp h
    split_ifs at h with hne
    · obtain ⟨first, hfirst, h⟩ := Option.bind_eq_some_iff.mp h
      obtain ⟨log, hlog, h⟩ := Option.bind_eq_some_iff.mp h
      cases h
      exact .conflict hm hs hterm (not_lt.mp hi) htm hne hfirst hlog
    · obtain ⟨r₁, h₁, h⟩ := Option.bind_eq_some_iff.mp h
      obtain ⟨r₂, h₂, h₃⟩ := Option.bind_eq_some_iff.mp h
      obtain ⟨log, hlog, rfl⟩ := appendReceived_cases h₁
      have hl := learnCommit_learns (by simp [follow]) h₂
      cases h₃
      rw [hl.kept.raftLog]
      exact .accepted hm hs hterm (not_lt.mp hi) (by rw [not_not.mp hne]; exact htm) hlog hl

theorem handleAppendResp_effect (hm : m.type = .msgAppResp) (hs : r.state = .leader)
    (h : r.handleAppendResp m = some r') : r.Effect (some m) r' := by
  unfold handleAppendResp at h
  split at h
  · cases h
    exact .sends (Sends.refl _)
  · next pr hpr =>
    split_ifs at h with ht
    · cases h
      exact .sends (Sends.refl _)
    · obtain ⟨rounds, reads, hack⟩ := ackReadRound_quiet r m.readId m.src
      rw [hack] at h
      obtain ⟨pr', hpr', h⟩ := Option.bind_eq_some_iff.mp h
      have hquiet : (r.setProgress m.src pr').Sends
          { r with readRounds := rounds, readStates := reads, prs := Assoc.set m.src pr' r.prs } :=
        sends_quiet _ _ _ _ _
      exact .progressed hm hs (not_not.mp ht) hpr hpr' (hquiet.advances (maybeCommit_advances h))

theorem handleSnapshot_effect (hm : m.type = .msgSnap) (hs : r.state ≠ .leader)
    (ht : m.term ≤ r.term) : r.Effect (some m) (r.handleSnapshot m) := by
  unfold handleSnapshot
  split
  · exact .unsnapped hm hs
  · next snap hsnap =>
    dsimp only
    split_ifs with hlt hi
    · exact .unsnapped hm hs
    · exact .unsnapped hm hs
    · rw [becomeFollower_eq_follow ht, restoreSnapshot_eq (by omega)]
      exact .installed hm hs (le_antisymm ht (not_lt.mp hlt)) hsnap (not_le.mp hi)

theorem handleSnapshotResp_effect (hm : m.type = .msgSnapResp)
    (hs : r.state = .leader) : r.Effect (some m) (r.handleSnapshotResp m) := by
  obtain ⟨rounds, reads, hack⟩ := ackReadRound_quiet r m.readId m.src
  unfold handleSnapshotResp
  rw [hack]
  dsimp only
  split_ifs with ht hr hpr
  · exact .sends (Sends.refl _)
  · exact .sends (sends_quiet r _ _ _ _)
  · have hr' : m.reject = false := by simpa using hr
    exact .snapAcked hm hs (not_not.mp ht) hr' hpr (sends_quiet _ _ _ _ _)
  · exact .sends (sends_quiet r _ _ _ _)

theorem handleVoteResp_effects (hm : m.type = .msgVoteResp)
    (hs : r.state = .candidate) (ht : m.term ≤ r.term) (h : r.handleVoteResp m = some r') :
    Effects (some m) r r' := by
  have hne : r.state ≠ .leader := by simp [hs]
  unfold handleVoteResp at h
  dsimp only at h
  split_ifs at h with hg hr
  · exact .next (.counted hm ht hs) hne rfl (.last (.won hs hg (becomeLeader_advances h)))
  · cases h
    rw [becomeFollower_eq_follow le_rfl]
    exact .next (.counted hm ht hs) hne rfl (.last (.lost hm hs))
  · cases h
    exact .last (.counted hm ht hs)

theorem dispatch_effects (ht : m.term ≤ r.term) (h : r.dispatch m = some r') :
    Effects (some m) r r' := by
  have ignored : r = r' → Effects (some m) r r' := by
    rintro rfl
    exact .last (.sends (Sends.refl _))
  have hup (hm : m.type = .msgHup) : ∀ m' ∈ some m, m'.type = .msgHup := by simpa using hm
  cases hs : r.state with
  | follower =>
    have hne : r.state ≠ .leader := by simp [hs]
    cases hm : m.type <;> simp only [dispatch, hs, hm, Option.some.injEq] at h
    case msgHup => exact campaign_effects (hup hm) hne h
    case msgVote => exact h ▸ .last (handleVote_effect hm hne ht)
    case msgApp => exact .last (handleAppend_effect hm hne ht h)
    case msgSnap => exact h ▸ .last (handleSnapshot_effect hm hne ht)
    all_goals exact ignored h
  | candidate =>
    have hne : r.state ≠ .leader := by simp [hs]
    cases hm : m.type <;> simp only [dispatch, hs, hm, Option.some.injEq] at h
    case msgHup => exact campaign_effects (hup hm) hne h
    case msgVote => exact h ▸ .last (handleVote_effect hm hne ht)
    case msgVoteResp => exact handleVoteResp_effects hm hs ht h
    case msgApp => exact .last (handleAppend_effect hm hne ht h)
    case msgSnap => exact h ▸ .last (handleSnapshot_effect hm hne ht)
    all_goals exact ignored h
  | leader =>
    cases hm : m.type <;> simp only [dispatch, hs, hm, Option.some.injEq] at h
    case msgBeat => exact .last (.sends (bcastAppend_sends h hs))
    case msgAppResp => exact .last (handleAppendResp_effect hm hs h)
    case msgSnapResp => exact h ▸ .last (handleSnapshotResp_effect hm hs)
    all_goals exact ignored h

theorem becomeFollower_of_lt {t lead : ℕ} (h : r.term < t) : r.becomeFollower t lead =
    { r.follow lead with
      hardState := { term := t, vote := 0, commitIndex := r.commitIndex }
      pendingHardState := some { term := t, vote := 0, commitIndex := r.commitIndex } } := by
  simp only [term] at h
  simp [becomeFollower, follow, term, h, setTerm, setVote, markHardStateChanged, commitIndex]

theorem step_effects (h : r.step m = some r') : Effects (some m) r r' := by
  unfold step catchUp at h
  split_ifs at h with ht
  · refine .next (.bumped ht) ?_ ?_ (dispatch_effects ?_ h)
    · rw [becomeFollower_of_lt ht]
      nofun
    · rw [becomeFollower_of_lt ht]
      rfl
    · rw [becomeFollower_of_lt ht]
      exact le_rfl
  · exact dispatch_effects (not_lt.mp ht) h

end Raft

end Mizu
