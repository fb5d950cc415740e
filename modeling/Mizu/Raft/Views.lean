import Mizu.Raft.Effects

/-!
# Views of an effect

What an effect sends, and what it does to the members, to the election state and
to the log, each told on its own, so that an invariant reads only the part of the
node it is about.
-/

namespace Mizu

namespace Raft

/-- The messages `x` that an effect handling `m` can send; `r` is the state before
and `s` the state after. -/
inductive Sent (r s : Raft) : Option Message → Message → Prop
  | replicated {m : Option Message} {x : Message} (h : s.Outgoing x) : Sent r s m x
  | asked {m : Option Message} {dst : ℕ} (hs : s.state = .candidate)
      (hd : dst ∈ Assoc.keys r.prs) (hne : dst ≠ s.id) :
      Sent r s m
        { type := .msgVote, src := s.id, dst := dst, term := s.term
          logIndex := s.raftLog.lastIndex, logTerm := s.raftLog.lastTerm }
  | granted {m : Message} (hm : m.type = .msgVote) (hs : s.state ≠ .leader)
      (ht : m.term = s.term) (hv : r.canVote m = true) (hvote : s.vote = m.src)
      (hlog : s.raftLog = r.raftLog) :
      Sent r s (some m) { type := .msgVoteResp, src := s.id, dst := m.src, term := s.term }
  | refused {m : Message} (hm : m.type = .msgVote) :
      Sent r s (some m)
        { type := .msgVoteResp, src := s.id, dst := m.src, term := s.term, reject := true }
  | stale {m : Message} (hm : m.type = .msgApp) :
      Sent r s (some m) { s.answer .msgAppResp m with reject := true }
  | missing {m : Message} (hm : m.type = .msgApp) (ht : m.term = s.term)
      (hi : s.raftLog.lastIndex < m.logIndex) :
      Sent r s (some m)
        { s.answer .msgAppResp m with reject := true, logIndex := s.raftLog.endIndex }
  | conflict {m : Message} {t first : ℕ} (hm : m.type = .msgApp) (ht : m.term = s.term)
      (hi : m.logIndex ≤ r.raftLog.lastIndex) (hterm : r.raftLog.term m.logIndex = some t)
      (hne : m.logTerm ≠ t) (hfirst : conflictFirst r.raftLog t m.logIndex = some first) :
      Sent r s (some m)
        { s.answer .msgAppResp m with reject := true, logTerm := t, logIndex := first }
  | acked {m : Message} (hm : m.type = .msgApp) (ht : m.term = r.term) (term : s.term = r.term)
      (hs : s.state = .follower) (hi : m.logIndex ≤ r.raftLog.lastIndex)
      (hlast : r.raftLog.term m.logIndex = some m.logTerm)
      (hlog : Extends r.raftLog m s.raftLog) :
      Sent r s (some m) { s.answer .msgAppResp m with logIndex := s.raftLog.lastIndex }
  | unsnapped {m : Message} (hm : m.type = .msgSnap) :
      Sent r s (some m) { s.answer .msgSnapResp m with reject := true }
  | installed {m : Message} {snap : Snapshot} (hm : m.type = .msgSnap) (ht : m.term = r.term)
      (hsnap : m.snapshot = some snap) (hi : r.raftLog.offset < snap.index)
      (hlog : s.raftLog = RaftLog.restore snap.index snap.term) :
      Sent r s (some m) (r.answer .msgSnapResp m)

variable {r s : Raft} {m : Option Message}

theorem Sends.sent (h : r.Sends s) : ∃ ms, s.msgs = r.msgs ++ ms ∧ ∀ x ∈ ms, s.Outgoing x := by
  cases h with
  | intro e b rr rs ms out =>
    exact ⟨ms, rfl, fun x hx => (out x hx).congr rfl rfl rfl rfl rfl rfl le_rfl⟩

theorem Advances.sent (h : r.Advances s) : ∃ ms, s.msgs = r.msgs ++ ms ∧
    ∀ x ∈ ms, s.Outgoing x := by
  cases h with
  | same h => exact h.sent
  | commit i lt reached own h => exact h.sent

/-- Every effect only adds messages, all of them of the listed kinds. -/
theorem Effect.sent (h : r.Effect m s) :
    ∃ ms, s.msgs = r.msgs ++ ms ∧ ∀ x ∈ ms, Sent r s m x := by
  have silent (hm : s.msgs = r.msgs) : ∃ ms, s.msgs = r.msgs ++ ms ∧ ∀ x ∈ ms, Sent r s m x :=
    ⟨[], by simp [hm], by simp⟩
  have single {x : Message} (hm : s.msgs = r.msgs ++ [x]) (hx : Sent r s m x) :
      ∃ ms, s.msgs = r.msgs ++ ms ∧ ∀ x ∈ ms, Sent r s m x :=
    ⟨[x], hm, fun y hy => List.mem_singleton.mp hy ▸ hx⟩
  have led (ho : ∃ ms, s.msgs = r.msgs ++ ms ∧ ∀ x ∈ ms, s.Outgoing x) :
      ∃ ms, s.msgs = r.msgs ++ ms ∧ ∀ x ∈ ms, Sent r s m x := by
    obtain ⟨ms, hms, hout⟩ := ho
    exact ⟨ms, hms, fun x hx => .replicated (hout x hx)⟩
  cases h with
  | sends h => exact led h.sent
  | proposed data hl h => exact led h.sent
  | stood hm hs hn => exact silent rfl
  | campaigned hm hs hn =>
    refine ⟨_, rfl, ?_⟩
    intro x hx
    obtain ⟨dst, hd, rfl⟩ := List.mem_map.mp hx
    obtain ⟨hd, hne⟩ := List.mem_filter.mp hd
    have hne' : dst ≠ r.becomeCandidate.id := by simpa using hne
    exact .asked rfl hd hne'
  | won hs hq h => exact led h.sent
  | bumped ht =>
    rw [becomeFollower_of_lt ht] at *
    exact silent rfl
  | counted hm ht hs => exact silent rfl
  | lost hm hs => exact silent rfl
  | granted hm hs ht hv => exact single rfl (.granted hm hs ht hv rfl rfl)
  | refused hm hs hv => exact single rfl (.refused hm)
  | stale hm hs ht => exact single rfl (.stale hm)
  | missing hm hs ht hi => exact single rfl (.missing hm ht hi)
  | conflict hm hs ht hi hterm hne hfirst hlog =>
    exact single rfl (.conflict hm ht hi hterm hne hfirst)
  | accepted hm hs ht hi hterm hlog hc =>
    cases hc with
    | same h => exact single rfl (.acked hm ht rfl rfl hi hterm hlog)
    | commit h => exact single rfl (.acked hm ht rfl rfl hi hterm hlog)
  | progressed hm hs ht hpr hpr' h => exact led h.sent
  | unsnapped hm hs => exact single rfl (.unsnapped hm)
  | installed hm hs ht hsnap hi => exact single rfl (.installed hm ht hsnap hi rfl)
  | snapAcked hm hs ht hr hpr h => exact led h.sent

variable {x : Message}

/-- Entries and snapshots are sent by leaders only. -/
theorem Sent.outgoing (h : Sent r s m x) :
    s.Outgoing x ∨ (x.type ≠ .msgApp ∧ x.type ≠ .msgSnap) := by
  cases h with
  | replicated h => exact Or.inl h
  | _ => exact Or.inr ⟨nofun, nofun⟩

/-- A vote is granted by a node that has just recorded it. -/
theorem Sent.granting (h : Sent r s m x) (ht : x.type = .msgVoteResp)
    (hr : x.reject = false) : ∃ m', m = some m' ∧ m'.type = .msgVote ∧ m'.term = s.term ∧
      r.canVote m' = true ∧ s.vote = m'.src ∧ s.raftLog = r.raftLog ∧ x.src = s.id ∧
      x.dst = m'.src ∧ x.term = s.term := by
  cases h with
  | replicated h =>
    obtain ⟨pr, -, ⟨ht', -⟩ | ⟨ht', -⟩⟩ := h.body <;> simp [ht'] at ht
  | granted hm hs ht' hv hvote hlog => exact ⟨_, rfl, hm, ht', hv, hvote, hlog, rfl, rfl, rfl⟩
  | refused => cases hr
  | _ => cases ht

/-- A vote is asked for with the last entry of the log. -/
theorem Sent.asking (h : Sent r s m x) (ht : x.type = .msgVote) : x.src = s.id ∧
    x.term = s.term ∧ x.logIndex = s.raftLog.lastIndex ∧ x.logTerm = s.raftLog.lastTerm := by
  cases h with
  | replicated h =>
    obtain ⟨pr, -, ⟨ht', -⟩ | ⟨ht', -⟩⟩ := h.body <;> simp [ht'] at ht
  | asked => exact ⟨rfl, rfl, rfl, rfl⟩
  | _ => cases ht

/-- An answer to entries comes from the node, in its term. -/
theorem Sent.answering (h : Sent r s m x) (ht : x.type = .msgAppResp) :
    x.src = s.id ∧ x.term = s.term := by
  cases h with
  | replicated h =>
    obtain ⟨pr, -, ⟨ht', -⟩ | ⟨ht', -⟩⟩ := h.body <;> simp [ht'] at ht
  | stale => exact ⟨rfl, rfl⟩
  | missing => exact ⟨rfl, rfl⟩
  | conflict => exact ⟨rfl, rfl⟩
  | acked => exact ⟨rfl, rfl⟩
  | _ => cases ht

/-! ### The identity and the members -/

theorem Effect.id_eq (h : r.Effect m s) : s.id = r.id := by
  cases h with
  | sends h => exact h.kept.id
  | proposed data hl h => exact h.kept.id
  | won hs hq h => exact h.kept.id
  | bumped ht => rw [becomeFollower_of_lt ht]; rfl
  | accepted hm hs ht hi hterm hlog hc => exact hc.kept.id
  | progressed hm hs ht hpr hpr' h => exact h.kept.id
  | snapAcked hm hs ht hr hpr h => exact h.kept.id
  | _ => rfl

theorem keys_prs_map (r : Raft) (f : Progress → Progress) :
    Assoc.keys (r.prs.map fun p => (p.1, f p.2)) = Assoc.keys r.prs := by
  simp [Assoc.keys, Function.comp_def]

theorem keys_appended (h : r.id ∈ Assoc.keys r.prs) (data : Bytes) :
    Assoc.keys (r.appended data).prs = Assoc.keys r.prs :=
  Assoc.keys_set_of_mem h

theorem keys_compacted (r : Raft) (index t : ℕ) (data : Bytes) :
    Assoc.keys (r.compacted index t data).prs = Assoc.keys r.prs := by
  unfold Raft.compacted
  split_ifs
  · exact keys_prs_map r _
  · rfl

/-- The set of peers is fixed. -/
theorem Effect.keys_prs_eq (h : r.Effect m s) (hid : r.id ∈ Assoc.keys r.prs) :
    Assoc.keys s.prs = Assoc.keys r.prs := by
  have hlead : Assoc.keys r.leading.prs = Assoc.keys r.prs :=
    keys_prs_map r fun _ => { matched := 0, next := r.raftLog.endIndex }
  cases h with
  | sends h => rw [h.kept.prs]
  | proposed data hl h => rw [h.kept.prs, keys_appended hid]
  | won hs hq h =>
    have hid' : r.leading.id ∈ Assoc.keys r.leading.prs := hlead.symm ▸ hid
    rw [h.kept.prs, keys_appended hid', hlead]
  | bumped ht => rw [becomeFollower_of_lt ht]; rfl
  | accepted hm hs ht hi hterm hlog hc => exact congrArg Assoc.keys hc.kept.prs
  | progressed hm hs ht hpr hpr' h =>
    rw [h.kept.prs]
    exact Assoc.keys_set_of_mem (Assoc.get_isSome_iff.mp (by simp [hpr]))
  | snapAcked hm hs ht hr hpr h =>
    rw [h.kept.prs]
    exact Assoc.keys_set_of_mem (Assoc.get_isSome_iff.mp hpr)
  | _ => rfl

/-! ### Term, vote and role -/

/-- What an effect does to the term, the vote, the role and the counted votes. -/
inductive ElectionChange (r s : Raft) : Option Message → Prop
  | kept {m : Option Message} (term : s.term = r.term) (vote : s.vote = r.vote)
      (state : (r.state ≠ .leader ∧ s.state = .follower) ∨
        (s.state = r.state ∧ s.votes = r.votes)) :
      ElectionChange r s m
  | won {m : Option Message} (term : s.term = r.term) (vote : s.vote = r.vote)
      (candidate : r.state = .candidate) (quorum : r.quorum ≤ r.grants)
      (state : s.state = .leader) : ElectionChange r s m
  | counted {m : Message} (hm : m.type = .msgVoteResp) (ht : m.term ≤ r.term)
      (candidate : r.state = .candidate) (term : s.term = r.term) (vote : s.vote = r.vote)
      (state : s.state = .candidate) (votes : s.votes = Assoc.set m.src (!m.reject) r.votes) :
      ElectionChange r s (some m)
  | stood {m : Option Message} (hm : ∀ m' ∈ m, m'.type = .msgHup) (notLeader : r.state ≠ .leader)
      (term : s.term = nextTerm r.term) (vote : s.vote = r.id) (state : s.state = .candidate)
      (votes : s.votes = [(r.id, true)]) : ElectionChange r s m
  | bumped {m : Message} (ht : r.term < m.term) (term : s.term = m.term) (vote : s.vote = 0)
      (state : s.state = .follower) : ElectionChange r s (some m)
  | granted {m : Message} (hm : m.type = .msgVote) (ht : m.term = r.term)
      (hv : r.canVote m = true) (term : s.term = r.term) (vote : s.vote = m.src)
      (notLeader : r.state ≠ .leader) (state : s.state = r.state) (votes : s.votes = r.votes) :
      ElectionChange r s (some m)
  | installed {m : Message} {snap : Snapshot} (hm : m.type = .msgSnap) (ht : m.term = r.term)
      (notLeader : r.state ≠ .leader) (hsnap : m.snapshot = some snap)
      (term : s.term = max r.term snap.term) (vote : s.vote = r.vote)
      (state : s.state = .follower) : ElectionChange r s (some m)

theorem Kept.election (h : r.Kept s) : ElectionChange r s m :=
  .kept h.term h.vote (Or.inr ⟨h.state, h.votes⟩)

theorem Effect.election (h : r.Effect m s) : ElectionChange r s m := by
  cases h with
  | sends h => exact h.kept.election
  | proposed data hl h =>
    have hk := h.kept
    exact .kept hk.term hk.vote (Or.inr ⟨hk.state, hk.votes⟩)
  | stood hm hs hn => exact .stood hm hs rfl rfl rfl rfl
  | campaigned hm hs hn => exact .stood hm hs rfl rfl rfl rfl
  | won hs hq h => exact .won h.kept.term h.kept.vote hs hq h.kept.state
  | bumped ht =>
    rw [becomeFollower_of_lt ht]
    exact .bumped ht rfl rfl rfl
  | counted hm ht hs => exact .counted hm ht hs rfl rfl hs rfl
  | lost hm hs => exact .kept rfl rfl (Or.inl ⟨by simp [hs], rfl⟩)
  | granted hm hs ht hv => exact .granted hm ht hv rfl rfl hs rfl rfl
  | refused hm hs hv => exact .kept rfl rfl (Or.inr ⟨rfl, rfl⟩)
  | stale hm hs ht => exact .kept rfl rfl (Or.inr ⟨rfl, rfl⟩)
  | missing hm hs ht hi => exact .kept rfl rfl (Or.inl ⟨hs, rfl⟩)
  | conflict hm hs ht hi hterm hne hfirst hlog => exact .kept rfl rfl (Or.inl ⟨hs, rfl⟩)
  | accepted hm hs ht hi hterm hlog hc =>
    exact .kept hc.kept.term hc.kept.vote (Or.inl ⟨hs, hc.kept.state⟩)
  | progressed hm hs ht hpr hpr' h =>
    have hk := h.kept
    exact .kept hk.term hk.vote (Or.inr ⟨hk.state, hk.votes⟩)
  | unsnapped hm hs => exact .kept rfl rfl (Or.inr ⟨rfl, rfl⟩)
  | installed hm hs ht hsnap hi => exact .installed hm ht hs hsnap rfl rfl rfl
  | snapAcked hm hs ht hr hpr h =>
    have hk := h.kept
    exact .kept hk.term hk.vote (Or.inr ⟨hk.state, hk.votes⟩)

theorem vote_of_canVote {m : Message} (h : r.canVote m = true) : r.vote = 0 ∨ r.vote = m.src := by
  unfold canVote at h
  split_ifs at h with h₁ h₂ h₃ h₄
  by_contra hne
  rw [not_or] at hne
  exact h₂ hne

/-! ### The log -/

/-- What an effect does to the log. -/
inductive LogChange (r s : Raft) : Option Message → Prop
  | kept {m : Option Message} (log : s.raftLog = r.raftLog)
      (lead : s.state = .leader → r.state = .leader ∧ s.term = r.term) : LogChange r s m
  | appended {m : Option Message} (data : Bytes) (state : s.state = .leader)
      (role : r.state = .leader ∨ r.state = .candidate) (term : s.term = r.term)
      (log : s.raftLog = r.raftLog.append [r.newEntry data]) : LogChange r s m
  | truncated {m : Message} {t first : ℕ} (hm : m.type = .msgApp) (ht : m.term = r.term)
      (term : s.term = r.term) (notLeader : r.state ≠ .leader) (state : s.state = .follower)
      (hi : m.logIndex ≤ r.raftLog.lastIndex) (hterm : r.raftLog.term m.logIndex = some t)
      (hne : m.logTerm ≠ t) (hfirst : conflictFirst r.raftLog t m.logIndex = some first)
      (log : r.raftLog.truncate first = some s.raftLog) : LogChange r s (some m)
  | extended {m : Message} (hm : m.type = .msgApp) (ht : m.term = r.term)
      (term : s.term = r.term) (notLeader : r.state ≠ .leader) (state : s.state = .follower)
      (hi : m.logIndex ≤ r.raftLog.lastIndex)
      (hterm : r.raftLog.term m.logIndex = some m.logTerm) (hne : m.entries ≠ [])
      (log : r.raftLog.truncateAndAppend m.logIndex m.entries = some s.raftLog) :
      LogChange r s (some m)
  | installed {m : Message} {snap : Snapshot} (hm : m.type = .msgSnap) (ht : m.term = r.term)
      (term : s.term = max r.term snap.term) (notLeader : r.state ≠ .leader)
      (state : s.state = .follower)
      (hsnap : m.snapshot = some snap) (hi : r.raftLog.offset < snap.index)
      (log : s.raftLog = RaftLog.restore snap.index snap.term) : LogChange r s (some m)

theorem Kept.log (h : r.Kept s) : LogChange r s m :=
  .kept h.raftLog fun hs => ⟨h.state.symm.trans hs, h.term⟩

theorem Effect.log (h : r.Effect m s) : LogChange r s m := by
  cases h with
  | sends h => exact h.kept.log
  | proposed data hl h =>
    exact .appended data (h.kept.state.trans hl) (Or.inl hl) h.kept.term h.kept.raftLog
  | won hs hq h => exact .appended [] h.kept.state (Or.inr hs) h.kept.term h.kept.raftLog
  | bumped ht =>
    rw [becomeFollower_of_lt ht]
    exact .kept rfl nofun
  | conflict hm hs ht hi hterm hne hfirst hlog =>
    exact .truncated hm ht rfl hs rfl hi hterm hne hfirst hlog
  | accepted hm hs ht hi hterm hlog hc =>
    have hk := hc.kept
    cases hlog with
    | keep h => exact .kept hk.raftLog fun hs => nomatch hk.state.symm.trans hs
    | extend h cut =>
      exact .extended hm ht hk.term hs hk.state hi hterm h
        (cut.trans (congrArg some hk.raftLog.symm))
  | progressed hm hs ht hpr hpr' h =>
    exact .kept h.kept.raftLog fun _ => ⟨hs, h.kept.term⟩
  | installed hm hs ht hsnap hi => exact .installed hm ht rfl hs rfl hsnap hi rfl
  | snapAcked hm hs ht hr hpr h => exact .kept h.kept.raftLog fun _ => ⟨hs, h.kept.term⟩
  | granted hm hs ht hv => exact .kept rfl fun h => absurd h hs
  | refused hm hs hv => exact .kept rfl fun h => absurd h hs
  | stale hm hs ht => exact .kept rfl fun h => absurd h hs
  | unsnapped hm hs => exact .kept rfl fun h => absurd h hs
  | counted hm ht hs => exact .kept rfl fun h => nomatch hs.symm.trans h
  | _ => exact .kept rfl nofun

/-- A candidate has kept its log, and has just stood or was one in this term before. -/
theorem Effect.candidate (h : r.Effect m s) (hs : s.state = .candidate) :
    s.raftLog = r.raftLog ∧ ((r.state = .candidate ∧ s.term = r.term) ∨
      (s.term = nextTerm r.term ∧ s.votes = [(r.id, true)])) := by
  have hlog : s.raftLog = r.raftLog := by
    cases h.log with
    | kept log => exact log
    | appended data state => exact nomatch state.symm.trans hs
    | truncated hm ht term notLeader state => exact nomatch state.symm.trans hs
    | extended hm ht term notLeader state => exact nomatch state.symm.trans hs
    | installed hm ht term notLeader state => exact nomatch state.symm.trans hs
  refine ⟨hlog, ?_⟩
  cases h.election with
  | kept term vote state =>
    rcases state with ⟨-, hf⟩ | ⟨heq, -⟩
    · exact nomatch hf.symm.trans hs
    · exact Or.inl ⟨heq.symm.trans hs, term⟩
  | won term vote hc hq state => exact nomatch state.symm.trans hs
  | counted hm ht hc term => exact Or.inl ⟨hc, term⟩
  | stood hm notLeader term vote state votes => exact Or.inr ⟨term, votes⟩
  | bumped ht term vote state => exact nomatch state.symm.trans hs
  | granted hm ht hv term vote notLeader state => exact Or.inl ⟨state.symm.trans hs, term⟩
  | installed hm ht notLeader hsnap term vote state => exact nomatch state.symm.trans hs

/-- The snapshot a node would send changes only when it installs one. -/
theorem Effect.currentSnapshot (h : r.Effect m s) :
    s.currentSnapshot = r.currentSnapshot ∨
      ∃ m' snap, m = some m' ∧ m'.type = .msgSnap ∧ m'.term = r.term ∧ m'.snapshot = some snap ∧
        s.currentSnapshot = some snap := by
  cases h with
  | sends h => exact Or.inl h.kept.currentSnapshot
  | proposed data hl h => exact Or.inl h.kept.currentSnapshot
  | won hs hq h => exact Or.inl h.kept.currentSnapshot
  | bumped ht =>
    rw [becomeFollower_of_lt ht]
    exact Or.inl rfl
  | accepted hm hs ht hi hterm hlog hc => exact Or.inl hc.kept.currentSnapshot
  | progressed hm hs ht hpr hpr' h => exact Or.inl h.kept.currentSnapshot
  | installed hm hs ht hsnap hi => exact Or.inr ⟨_, _, rfl, hm, ht, hsnap, rfl⟩
  | snapAcked hm hs ht hr hpr h => exact Or.inl h.kept.currentSnapshot
  | _ => exact Or.inl rfl

/-- The term never falls, as long as the counter does not wrap. -/
theorem Effect.term_le (h : r.Effect m s) (hm : ∀ m' ∈ m, m'.type ≠ .msgHup)
    (hb : m = none → s.term ≠ r.term → r.term + 1 < 2 ^ 64) : r.term ≤ s.term := by
  cases h.election with
  | kept term => exact term.ge
  | won term => exact term.ge
  | counted _ _ _ term => exact term.ge
  | stood hup _ term =>
    cases m with
    | some m' => exact absurd (hup m' rfl) (hm m' rfl)
    | none =>
      by_cases heq : s.term = r.term
      · exact heq.ge
      · rw [term, nextTerm_of_lt (hb rfl heq)]
        exact Nat.le_succ _
  | bumped ht term => exact term ▸ ht.le
  | granted _ _ _ term => exact term.ge
  | installed _ _ _ _ term => exact term ▸ le_max_left _ _

/-! ### The back-off of a follower -/

theorem conflictFrom_spec {l : RaftLog} {t n first : ℕ} (ht : l.term (l.offset + n) = some t)
    (h : conflictFrom l t n = some first) :
    l.offset ≤ first ∧ first ≤ l.offset + n ∧
      ∀ k, first ≤ k → k ≤ l.offset + n → l.term k = some t := by
  induction n with
  | zero =>
    cases h
    refine ⟨le_rfl, le_rfl, fun k h₁ h₂ => ?_⟩
    rwa [le_antisymm h₂ h₁]
  | succ n ih =>
    obtain ⟨u, hu, h⟩ := Option.bind_eq_some_iff.mp h
    split_ifs at h with hut
    · obtain ⟨h₁, h₂, h₃⟩ := ih (hut ▸ hu) h
      refine ⟨h₁, by omega, fun k hk₁ hk₂ => ?_⟩
      by_cases hk : k ≤ l.offset + n
      · exact h₃ k hk₁ hk
      · have hk' : k = l.offset + (n + 1) := by omega
        rwa [hk']
    · cases h
      refine ⟨Nat.le_add_right _ _, le_rfl, fun k h₁ h₂ => ?_⟩
      rwa [le_antisymm h₂ h₁]

/-- The back-off stays in the run of one term that ends at `index`, and at or above the
sentinel if it started there. -/
theorem conflictFirst_spec {l : RaftLog} {t index first : ℕ} (ht : l.term index = some t)
    (h : conflictFirst l t index = some first) :
    first ≤ index ∧ (l.offset ≤ index → l.offset ≤ first) ∧
      ∀ k, first ≤ k → k ≤ index → l.term k = some t := by
  unfold conflictFirst RaftLog.firstIndex at h
  split_ifs at h with hlt
  · have hidx : l.offset + (index - l.offset) = index := by omega
    obtain ⟨h₁, h₂, h₃⟩ := conflictFrom_spec (n := index - l.offset) (by rwa [hidx]) h
    rw [hidx] at h₂ h₃
    exact ⟨h₂, fun _ => h₁, h₃⟩
  · cases h
    refine ⟨le_rfl, fun h => h, fun k h₁ h₂ => ?_⟩
    rwa [le_antisymm h₂ h₁]

/-! ### Progress and commitment of a leader -/

/-- What an effect does to the progress records of a node that leads afterwards. -/
inductive ProgressChange (r s : Raft) : Option Message → Prop
  | kept {m : Option Message} (role : r.state = .leader) (term : s.term = r.term)
      (log : s.raftLog = r.raftLog) (prs : s.prs = r.prs) : ProgressChange r s m
  | appended {m : Option Message} (role : r.state = .leader) (term : s.term = r.term)
      (data : Bytes) (log : s.raftLog = r.raftLog.append [r.newEntry data])
      (prs : s.prs = Assoc.set r.id
        { matched := r.raftLog.endIndex, next := r.raftLog.endIndex + 1 } r.prs) :
      ProgressChange r s m
  | won {m : Option Message} (role : r.state = .candidate) (term : s.term = r.term)
      (log : s.raftLog = r.raftLog.append [r.newEntry []])
      (prs : s.prs = Assoc.set r.id
        { matched := r.raftLog.endIndex, next := r.raftLog.endIndex + 1 }
        (r.prs.map fun p => (p.1, { matched := 0, next := r.raftLog.endIndex }))) :
      ProgressChange r s m
  | progressed {m : Message} {pr pr' : Progress} (role : r.state = .leader)
      (term : s.term = r.term) (log : s.raftLog = r.raftLog) (hm : m.type = .msgAppResp)
      (ht : m.term = r.term) (hpr : Assoc.get m.src r.prs = some pr)
      (hpr' : r.respProgress pr m = some pr') (prs : s.prs = Assoc.set m.src pr' r.prs) :
      ProgressChange r s (some m)
  | snapAcked {m : Message} (role : r.state = .leader) (term : s.term = r.term)
      (log : s.raftLog = r.raftLog)
      (prs : s.prs = Assoc.set m.src
        { matched := r.raftLog.offset, next := r.raftLog.offset + 1 } r.prs) :
      ProgressChange r s (some m)

theorem Effect.progress (h : r.Effect m s) (hl : s.state = .leader) : ProgressChange r s m := by
  cases h with
  | sends h =>
    have hk := h.kept
    exact .kept (hk.state.symm.trans hl) hk.term hk.raftLog hk.prs
  | proposed data hr h => exact .appended hr h.kept.term data h.kept.raftLog h.kept.prs
  | won hs hq h => exact .won hs h.kept.term h.kept.raftLog h.kept.prs
  | bumped ht => simp [becomeFollower_of_lt ht, follow] at hl
  | counted hm ht hs => cases hs.symm.trans hl
  | granted hm hs ht hv => exact absurd hl hs
  | refused hm hs hv => exact absurd hl hs
  | stale hm hs ht => exact absurd hl hs
  | accepted hm hs ht hi hterm hlog hc => cases hc.kept.state.symm.trans hl
  | progressed hm hs ht hpr hpr' h =>
    exact .progressed hs h.kept.term h.kept.raftLog hm ht hpr hpr' h.kept.prs
  | unsnapped hm hs => exact absurd hl hs
  | snapAcked hm hs ht hr hpr h => exact .snapAcked hs h.kept.term h.kept.raftLog h.kept.prs
  | _ => cases hl

/-- The index that an answer moves `Next` to. -/
inductive NextIndex (r : Raft) (m : Message) : ℕ → Prop
  | accepted (hr : m.reject = false) : NextIndex r m (min (m.logIndex + 1) r.raftLog.endIndex)
  | missing (hr : m.reject = true) (ht : m.logTerm = 0) : NextIndex r m (max m.logIndex 1)
  | found {i : ℕ} (hr : m.reject = true) (ht : m.logTerm ≠ 0) (hi : i ≤ r.raftLog.lastIndex) :
      NextIndex r m (i + 1)
  | back (hr : m.reject = true) (ht : m.logTerm ≠ 0) : NextIndex r m m.logIndex

theorem NextIndex.pos {m : Message} {x : ℕ} (h : r.NextIndex m x) (hnil : 0 < r.raftLog.endIndex)
    (hm : m.logTerm ≠ 0 → 0 < m.logIndex) : 0 < x := by
  cases h with
  | accepted hr => omega
  | missing hr ht => omega
  | found hr ht hi => omega
  | back hr ht => exact hm ht

theorem NextIndex.le {m : Message} {x : ℕ} (h : r.NextIndex m x) (hnil : 0 < r.raftLog.endIndex)
    (hm : m.reject = true → m.logIndex ≤ r.raftLog.endIndex) : x ≤ r.raftLog.endIndex := by
  cases h with
  | accepted hr => exact min_le_right _ _
  | missing hr ht => exact max_le (hm hr) hnil
  | found hr ht hi =>
    rw [RaftLog.lastIndex_of_pos hnil] at hi
    omega
  | back hr ht => exact hm hr

/-- `Match` follows an acceptance, stays otherwise, and is kept below `Next`. -/
theorem respProgress_eq {pr pr' : Progress} {m : Message} (h : r.respProgress pr m = some pr') :
    r.NextIndex m pr'.next ∧
      (pr'.matched = sub64 pr'.next 1 ∧
          pr'.next ≤ (if m.reject then pr.matched else m.logIndex) ∨
        pr'.matched = (if m.reject then pr.matched else m.logIndex) ∧
          pr'.matched < pr'.next) := by
  obtain ⟨q, hq, rfl⟩ := Option.map_eq_some_iff.mp h
  have hclamp : (clampMatch q).next = q.next ∧
      ((clampMatch q).matched = sub64 q.next 1 ∧ q.next ≤ q.matched ∨
        (clampMatch q).matched = q.matched ∧ (clampMatch q).matched < q.next) := by
    unfold clampMatch
    split_ifs with hle
    · exact ⟨rfl, Or.inl ⟨rfl, hle⟩⟩
    · exact ⟨rfl, Or.inr ⟨rfl, not_le.mp hle⟩⟩
  rw [hclamp.1]
  unfold movedProgress at hq
  cases hr : m.reject with
  | false =>
    simp only [hr, if_true] at hq
    cases hq
    exact ⟨.accepted hr, by simpa using hclamp.2⟩
  | true =>
    simp only [hr, Bool.true_eq_false, if_false] at hq
    split_ifs at hq with ht
    · cases hq
      exact ⟨.missing hr ht, by simpa using hclamp.2⟩
    · obtain ⟨o, ho, hq⟩ := Option.bind_eq_some_iff.mp hq
      cases o with
      | some i =>
        cases hq
        exact ⟨.found hr ht (RaftLog.findLastIndexOfTerm_le ho), by simpa using hclamp.2⟩
      | none =>
        cases hq
        exact ⟨.back hr ht, by simpa using hclamp.2⟩

theorem Extends.offset_eq {l l' : RaftLog} {m : Message} (h : Extends l m l') :
    l'.offset = l.offset := by
  cases h with
  | keep h => rfl
  | extend h cut => exact (RaftLog.truncateAndAppend_eq cut).2.2.1

/-- A raised commit index, with the entries that become ready for the application. -/
structure Emits (r s : Raft) : Prop where
  lt : r.commitIndex < s.commitIndex
  cursor : s.committedCursor = max r.committedCursor s.commitIndex
  entries : s.committedEntries =
    r.committedEntries ++ s.raftLog.between r.committedCursor s.commitIndex
  pending : s.pendingSnapshot = r.pendingSnapshot
  offset : s.raftLog.offset = r.raftLog.offset

/-- What an effect does to the commit index and to the entries handed out. -/
inductive CommitChange (r s : Raft) : Option Message → Prop
  | kept {m : Option Message} (commit : s.commitIndex = r.commitIndex)
      (cursor : s.committedCursor = r.committedCursor)
      (entries : s.committedEntries = r.committedEntries)
      (pending : s.pendingSnapshot = r.pendingSnapshot) : CommitChange r s m
  | led {m : Option Message} (state : s.state = .leader) (emits : r.Emits s)
      (reached : s.QuorumMatch s.commitIndex)
      (own : s.raftLog.matchTerm s.commitIndex s.term = some true) : CommitChange r s m
  | learned {m : Message} (hm : m.type = .msgApp) (ht : m.term = r.term) (term : s.term = r.term)
      (state : s.state = .follower) (hterm : r.raftLog.term m.logIndex = some m.logTerm)
      (hlog : Extends r.raftLog m s.raftLog) (emits : r.Emits s)
      (commit : s.commitIndex = min m.commit s.raftLog.lastIndex)
      (hi : m.logIndex ≤ r.raftLog.lastIndex) : CommitChange r s (some m)
  | installed {m : Message} {snap : Snapshot} (hm : m.type = .msgSnap)
      (state : s.state = .follower) (hsnap : m.snapshot = some snap)
      (hi : r.raftLog.offset < snap.index)
      (commit : s.commitIndex = max snap.index r.commitIndex)
      (cursor : s.committedCursor = snap.index)
      (entries : s.committedEntries = r.committedEntries)
      (pending : s.pendingSnapshot = some snap) (ht : m.term = r.term) : CommitChange r s (some m)

theorem Sends.commit (h : r.Sends s) : CommitChange r s m := by
  cases h
  exact .kept rfl rfl rfl rfl

variable {r₀ : Raft}

/-- A leader that has not touched its commit index before `maybeCommit`. -/
theorem Advances.commits (h : r.Advances s) (hs : r.state = .leader)
    (hc : r.commitIndex = r₀.commitIndex) (hcur : r.committedCursor = r₀.committedCursor)
    (hent : r.committedEntries = r₀.committedEntries)
    (hpend : r.pendingSnapshot = r₀.pendingSnapshot)
    (hoff : r.raftLog.offset = r₀.raftLog.offset) : CommitChange r₀ s m := by
  cases h with
  | same h =>
    cases h
    exact .kept hc hcur hent hpend
  | commit i lt reached own h =>
    cases h
    refine .led hs ⟨hc ▸ lt, ?_, ?_, hpend, hoff⟩ reached own
    · rw [← hcur]
      rfl
    · rw [← hcur, ← hent]
      rfl

theorem Effect.commit (h : r.Effect m s) : CommitChange r s m := by
  cases h with
  | sends h => exact h.commit
  | proposed data hl h => exact h.commits hl rfl rfl rfl rfl rfl
  | won hs hq h => exact h.commits rfl rfl rfl rfl rfl rfl
  | bumped ht =>
    rw [becomeFollower_of_lt ht]
    exact .kept rfl rfl rfl rfl
  | accepted hm hs ht hi hterm hlog hc =>
    cases hc with
    | same h => exact .kept rfl rfl rfl rfl
    | commit h => exact .learned hm ht rfl rfl hterm hlog ⟨h, rfl, rfl, rfl, hlog.offset_eq⟩ rfl hi
  | progressed hm hs ht hpr hpr' h => exact h.commits hs rfl rfl rfl rfl rfl
  | installed hm hs ht hsnap hi => exact .installed hm rfl hsnap hi rfl rfl rfl rfl ht
  | snapAcked hm hs ht hr hpr h =>
    cases h
    exact .kept rfl rfl rfl rfl
  | _ => exact .kept rfl rfl rfl rfl

/-- A leader raises its commit index only to an index of its own term that a quorum of
its progress records has reached. -/
theorem Effect.leader_commit (h : r.Effect m s) (hl : s.state = .leader) :
    s.commitIndex = r.commitIndex ∨
      (r.commitIndex < s.commitIndex ∧ s.QuorumMatch s.commitIndex ∧
        s.raftLog.matchTerm s.commitIndex s.term = some true) := by
  cases h.commit with
  | kept commit => exact Or.inl commit
  | led state emits reached own => exact Or.inr ⟨emits.lt, reached, own⟩
  | learned hm ht term state => exact nomatch state.symm.trans hl
  | installed hm state => exact nomatch state.symm.trans hl

/-- A state that has the log of another and the same entries to save and to hand out. -/
structure Rests (r s : Raft) : Prop where
  log : s.raftLog = r.raftLog
  commit : s.commitIndex = r.commitIndex
  emitted : s.committedEntries = r.committedEntries
  cursor : s.committedCursor = r.committedCursor
  pendingEntries : s.pendingEntries = r.pendingEntries
  pendingSnapshot : s.pendingSnapshot = r.pendingSnapshot

/-- An effect that sends nothing and does not lead to leadership leaves the log and what is
committed alone; over the network it changes the term only to that of the message. -/
theorem Effect.quiet (h : r.Effect m s) (hl : s.state ≠ .leader) (hm : s.msgs = r.msgs) :
    r.Rests s ∧ ∀ m' ∈ m, m'.type ≠ .msgHup →
      s.term = r.term ∨ (r.term < m'.term ∧ s.term = m'.term) := by
  have sent {x : Message} (hx : s.msgs = r.msgs ++ [x]) : False := by
    rw [hm] at hx
    simpa using congrArg List.length hx
  cases h with
  | sends h =>
    cases h
    exact ⟨⟨rfl, rfl, rfl, rfl, rfl, rfl⟩, fun _ _ _ => Or.inl rfl⟩
  | proposed data hr h => exact absurd (h.kept.state.trans hr) hl
  | stood hup => exact ⟨⟨rfl, rfl, rfl, rfl, rfl, rfl⟩, fun m' hm' ht => absurd (hup m' hm') ht⟩
  | campaigned hup =>
    exact ⟨⟨rfl, rfl, rfl, rfl, rfl, rfl⟩, fun m' hm' ht => absurd (hup m' hm') ht⟩
  | won hs hq h => exact absurd h.kept.state hl
  | bumped ht =>
    rw [becomeFollower_of_lt ht]
    refine ⟨⟨rfl, rfl, rfl, rfl, rfl, rfl⟩, fun m' hm' _ => Or.inr ?_⟩
    cases hm'
    exact ⟨ht, rfl⟩
  | counted | lost => exact ⟨⟨rfl, rfl, rfl, rfl, rfl, rfl⟩, fun _ _ _ => Or.inl rfl⟩
  | granted | refused | stale | missing | conflict | unsnapped | installed =>
    exact (sent rfl).elim
  | accepted hm hs ht hi hterm hlog hc => cases hc <;> exact (sent rfl).elim
  | progressed hm hs ht hpr hpr' h => exact absurd (h.kept.state.trans hs) hl
  | snapAcked hm hs ht hr hpr h => exact absurd (h.kept.state.trans hs) hl

/-- The commit index never falls. -/
theorem Effect.commit_le (h : r.Effect m s) : r.commitIndex ≤ s.commitIndex := by
  cases h.commit with
  | kept commit => exact commit.ge
  | led state emits => exact emits.lt.le
  | learned hm ht term state hterm hlog emits => exact emits.lt.le
  | installed hm state hsnap hi commit => exact commit ▸ le_max_right _ _

/-! ### The hard state -/

/-- What an effect does to the hard state and to the one that waits to be saved. An installed
snapshot can raise the term and the commit index without marking the state as changed. -/
inductive HardChange (r s : Raft) : Option Message → Prop
  | kept {m : Option Message} (hardState : s.hardState = r.hardState)
      (pending : s.pendingHardState = r.pendingHardState) : HardChange r s m
  | marked {m : Option Message} (pending : s.pendingHardState = some s.hardState) : HardChange r s m
  | installed {m : Message} {snap : Snapshot} (hm : m.type = .msgSnap) (ht : m.term = r.term)
      (hsnap : m.snapshot = some snap) (hi : r.raftLog.offset < snap.index)
      (hardState : s.hardState = { r.hardState with
        term := max r.term snap.term, commitIndex := max snap.index r.commitIndex })
      (pending : s.pendingHardState = r.pendingHardState) : HardChange r s (some m)

theorem Sends.hard (h : r.Sends s) : HardChange r s m := by
  cases h
  exact .kept rfl rfl

theorem Advances.hard (h : r.Advances s) (hs : r.hardState = r₀.hardState)
    (hp : r.pendingHardState = r₀.pendingHardState) : HardChange r₀ s m := by
  cases h with
  | same h =>
    cases h
    exact .kept hs hp
  | commit i lt reached own h =>
    cases h
    exact .marked rfl

theorem Effect.hard (h : r.Effect m s) : HardChange r s m := by
  cases h with
  | sends h => exact h.hard
  | proposed data hl h => exact h.hard rfl rfl
  | stood => exact .marked rfl
  | campaigned => exact .marked rfl
  | won hs hq h => exact h.hard rfl rfl
  | bumped ht =>
    rw [becomeFollower_of_lt ht]
    exact .marked rfl
  | granted => exact .marked rfl
  | accepted hm hs ht hi hterm hlog hc =>
    cases hc with
    | same h => exact .kept rfl rfl
    | commit h => exact .marked rfl
  | progressed hm hs ht hpr hpr' h => exact h.hard rfl rfl
  | installed hm hs ht hsnap hi => exact .installed hm ht hsnap hi rfl rfl
  | snapAcked hm hs ht hr hpr h =>
    cases h
    exact .kept rfl rfl
  | _ => exact .kept rfl rfl

/-! ### What is to be saved -/

/-- What an effect does to the log, with the entries and the snapshot that wait to be saved. -/
inductive PendingChange (r s : Raft) : Option Message → Prop
  | kept {m : Option Message} (log : s.raftLog = r.raftLog)
      (entries : s.pendingEntries = r.pendingEntries)
      (snapshot : s.pendingSnapshot = r.pendingSnapshot) : PendingChange r s m
  | appended {m : Option Message} (data : Bytes)
      (log : s.raftLog = r.raftLog.append [r.newEntry data])
      (entries : s.pendingEntries = r.pendingEntries ++ [r.newEntry data])
      (snapshot : s.pendingSnapshot = r.pendingSnapshot) : PendingChange r s m
  | truncated {m : Message} {first : ℕ} (log : r.raftLog.truncate first = some s.raftLog)
      (entries : s.pendingEntries = r.pendingEntries)
      (snapshot : s.pendingSnapshot = r.pendingSnapshot) : PendingChange r s (some m)
  | extended {m : Message} (hm : m.type = .msgApp)
      (log : r.raftLog.truncateAndAppend m.logIndex m.entries = some s.raftLog)
      (entries : s.pendingEntries = r.pendingEntries ++ m.entries)
      (snapshot : s.pendingSnapshot = r.pendingSnapshot) : PendingChange r s (some m)
  | installed {m : Message} {snap : Snapshot} (hm : m.type = .msgSnap) (ht : m.term = r.term)
      (hsnap : m.snapshot = some snap) (hi : r.raftLog.offset < snap.index)
      (log : s.raftLog = RaftLog.restore snap.index snap.term)
      (entries : s.pendingEntries = r.pendingEntries)
      (snapshot : s.pendingSnapshot = some snap) : PendingChange r s (some m)

theorem Kept.pending (h : r.Kept s) : PendingChange r s m :=
  .kept h.raftLog h.pendingEntries h.pendingSnapshot

theorem Effect.pending (h : r.Effect m s) : PendingChange r s m := by
  cases h with
  | sends h => exact h.kept.pending
  | proposed data hl h =>
    exact .appended data h.kept.raftLog h.kept.pendingEntries h.kept.pendingSnapshot
  | won hs hq h => exact .appended [] h.kept.raftLog h.kept.pendingEntries h.kept.pendingSnapshot
  | bumped ht =>
    rw [becomeFollower_of_lt ht]
    exact .kept rfl rfl rfl
  | conflict hm hs ht hi hterm hne hfirst hlog => exact .truncated hlog rfl rfl
  | accepted hm hs ht hi hterm hlog hc =>
    have hk := hc.kept
    cases hlog with
    | keep h =>
      refine .kept hk.raftLog (hk.pendingEntries.trans ?_) hk.pendingSnapshot
      simp [received, h]
    | extend h cut =>
      exact .extended hm (cut.trans (congrArg some hk.raftLog.symm)) hk.pendingEntries
        hk.pendingSnapshot
  | progressed hm hs ht hpr hpr' h =>
    exact .kept h.kept.raftLog h.kept.pendingEntries h.kept.pendingSnapshot
  | installed hm hs ht hsnap hi => exact .installed hm ht hsnap hi rfl rfl rfl
  | snapAcked hm hs ht hr hpr h =>
    exact .kept h.kept.raftLog h.kept.pendingEntries h.kept.pendingSnapshot
  | _ => exact .kept rfl rfl rfl

/-- An accepted snapshot replaces the log. -/
structure Installs (r s : Raft) (m : Message) (snap : Snapshot) : Prop where
  type : m.type = .msgSnap
  msgTerm : m.term = r.term
  snapshot : m.snapshot = some snap
  above : r.raftLog.offset < snap.index
  log : s.raftLog = RaftLog.restore snap.index snap.term
  commit : s.commitIndex = max snap.index r.commitIndex
  pendingHardState : s.pendingHardState = r.pendingHardState
  pendingEntries : s.pendingEntries = r.pendingEntries
  pendingSnapshot : s.pendingSnapshot = some snap
  cursor : s.committedCursor = snap.index
  emitted : s.committedEntries = r.committedEntries

/-- Every other effect keeps the sentinel, marks the hard state when it changes it, and
commits only what the log has. -/
structure Stays (r s : Raft) : Prop where
  offset : s.raftLog.offset = r.raftLog.offset
  pendingSnapshot : s.pendingSnapshot = r.pendingSnapshot
  hardState : s.hardState = r.hardState ∧ s.pendingHardState = r.pendingHardState ∨
    s.pendingHardState = some s.hardState
  commit : s.commitIndex = r.commitIndex ∧ s.committedCursor = r.committedCursor ∧
      s.committedEntries = r.committedEntries ∨
    r.Emits s ∧ s.commitIndex < s.raftLog.endIndex

/-- A leader that has not touched its commit index before `maybeCommit`. -/
theorem Advances.stays (h : r.Advances s) (ho : r.raftLog.offset = r₀.raftLog.offset)
    (hp : r.pendingSnapshot = r₀.pendingSnapshot) (hs : r.hardState = r₀.hardState)
    (hh : r.pendingHardState = r₀.pendingHardState) (hcur : r.committedCursor = r₀.committedCursor)
    (hent : r.committedEntries = r₀.committedEntries) : r₀.Stays s := by
  have hc : r.commitIndex = r₀.commitIndex := congrArg HardState.commitIndex hs
  cases h with
  | same h =>
    cases h
    exact ⟨ho, hp, Or.inl ⟨hs, hh⟩, Or.inl ⟨hc, hcur, hent⟩⟩
  | commit i lt reached own h =>
    obtain ⟨e, he, -⟩ := RaftLog.matchTerm_eq_true own
    cases h
    refine ⟨ho, hp, Or.inr rfl, Or.inr ⟨⟨hc ▸ lt, ?_, ?_, hp, ho⟩, (RaftLog.entry_bounds he).2⟩⟩
    · rw [← hcur]
      rfl
    · rw [← hcur, ← hent]
      rfl

/-- The log of a follower that accepted a `MsgApp` is not empty: the term at the previous
index could not have been read from it. -/
theorem Extends.endIndex_pos {l l' : RaftLog} {m : Message} (h : Extends l m l') {t : ℕ}
    (hi : m.logIndex ≤ l.lastIndex) (ht : l.term m.logIndex = some t) : 0 < l'.endIndex := by
  cases h with
  | keep hnil =>
    by_contra h0
    have hoff : l.offset = 0 ∧ l.entries = [] := by
      unfold RaftLog.endIndex at h0
      exact ⟨by omega, List.length_eq_zero_iff.mp (by omega)⟩
    simp [RaftLog.term, hoff.1, hoff.2, not_lt.mpr hi] at ht
  | extend hne cut =>
    have := (RaftLog.truncateAndAppend_eq cut).2.2.2.1
    omega

theorem Effect.installs_or_stays (h : r.Effect m s) :
    (∃ m' snap, m = some m' ∧ r.Installs s m' snap) ∨ r.Stays s := by
  have quiet (h : r.Stays s) : (∃ m' snap, m = some m' ∧ r.Installs s m' snap) ∨ r.Stays s :=
    Or.inr h
  cases h with
  | sends h =>
    cases h
    exact quiet ⟨rfl, rfl, Or.inl ⟨rfl, rfl⟩, Or.inl ⟨rfl, rfl, rfl⟩⟩
  | proposed data hl h => exact quiet (h.stays rfl rfl rfl rfl rfl rfl)
  | stood => exact quiet ⟨rfl, rfl, Or.inr rfl, Or.inl ⟨rfl, rfl, rfl⟩⟩
  | campaigned => exact quiet ⟨rfl, rfl, Or.inr rfl, Or.inl ⟨rfl, rfl, rfl⟩⟩
  | won hs hq h => exact quiet (h.stays rfl rfl rfl rfl rfl rfl)
  | bumped ht =>
    rw [becomeFollower_of_lt ht] at *
    exact quiet ⟨rfl, rfl, Or.inr rfl, Or.inl ⟨rfl, rfl, rfl⟩⟩
  | granted => exact quiet ⟨rfl, rfl, Or.inr rfl, Or.inl ⟨rfl, rfl, rfl⟩⟩
  | conflict hm hs ht hi hterm hne hfirst hlog =>
    exact quiet ⟨RaftLog.truncate_offset hlog, rfl, Or.inl ⟨rfl, rfl⟩, Or.inl ⟨rfl, rfl, rfl⟩⟩
  | accepted hm hs ht hi hterm hlog hc =>
    have hoff := hlog.offset_eq
    cases hc with
    | same h => exact quiet ⟨hoff, rfl, Or.inl ⟨rfl, rfl⟩, Or.inl ⟨rfl, rfl, rfl⟩⟩
    | commit h =>
      refine quiet ⟨hoff, rfl, Or.inr rfl, Or.inr ⟨⟨h, rfl, rfl, rfl, hoff⟩, ?_⟩⟩
      have hpos := hlog.endIndex_pos hi hterm
      refine Nat.lt_of_le_of_lt (Nat.min_le_right _ _) ?_
      exact (RaftLog.lastIndex_of_pos hpos).trans_lt (Nat.sub_one_lt hpos.ne')
  | progressed hm hs ht hpr hpr' h => exact quiet (h.stays rfl rfl rfl rfl rfl rfl)
  | installed hm hs ht hsnap hi =>
    exact Or.inl ⟨_, _, rfl, hm, ht, hsnap, hi, rfl, rfl, rfl, rfl, rfl, rfl, rfl⟩
  | snapAcked hm hs ht hr hpr h =>
    cases h
    exact quiet ⟨rfl, rfl, Or.inl ⟨rfl, rfl⟩, Or.inl ⟨rfl, rfl, rfl⟩⟩
  | _ => exact quiet ⟨rfl, rfl, Or.inl ⟨rfl, rfl⟩, Or.inl ⟨rfl, rfl, rfl⟩⟩

/-- The sentinel moves only to an installed snapshot, which is committed. -/
theorem Effect.offset_cases (h : r.Effect m s) :
    s.raftLog.offset = r.raftLog.offset ∨
      (r.raftLog.offset < s.raftLog.offset ∧ s.raftLog.offset ≤ s.commitIndex) := by
  rcases h.installs_or_stays with ⟨m', snap, -, hi⟩ | hs
  · rw [hi.log, hi.commit]
    exact Or.inr ⟨hi.above, le_max_left _ _⟩
  · exact Or.inl hs.offset

/-! ### Entries that a message leaves alone -/

/-- Handling `m` does not remove or replace the entry at index `k`. -/
def Retains (r : Raft) (m : Message) (k : ℕ) : Prop :=
  m.type = .msgApp → r.term ≤ m.term → m.logIndex ≤ r.raftLog.lastIndex →
    ∀ t ∈ r.raftLog.term m.logIndex,
      if m.logTerm = t then
        m.entries = [] ∨ k ≤ m.logIndex ∨
          m.entries[k - (m.logIndex + 1)]? = r.raftLog.entry k
      else ∀ first ∈ conflictFirst r.raftLog t m.logIndex, k < first

instance (r : Raft) (m : Message) (k : ℕ) : Decidable (r.Retains m k) := by
  unfold Retains
  infer_instance

theorem Retains.congr {m : Message} {k : ℕ} (h : r.Retains m k) (hlog : s.raftLog = r.raftLog)
    (ht : m.type = .msgApp → s.term ≤ m.term → r.term ≤ m.term) : s.Retains m k := by
  unfold Retains at *
  rw [hlog]
  exact fun hm hst => h hm (ht hm hst)

/-- An effect keeps an entry that its message retains, unless it installs a snapshot. -/
theorem LogChange.retains {k : ℕ} {e : Entry} (h : LogChange r s m)
    (hr : ∀ m' ∈ m, r.Retains m' k) (he : r.raftLog.entry k = some e)
    (hoff : s.raftLog.offset = r.raftLog.offset) : s.raftLog.entry k = some e := by
  cases h with
  | kept log => rwa [log]
  | appended data state role term log =>
    rw [log, RaftLog.entry_append, if_pos (RaftLog.entry_bounds he).2]
    exact he
  | @truncated m' t first hm ht term notLeader state hi hterm hne hfirst log =>
    have hret := hr m' rfl hm ht.ge hi t hterm
    rw [if_neg hne] at hret
    have hk := hret first hfirst
    have ho : r.raftLog.offset ≤ first := (RaftLog.entry_bounds he).1.trans hk.le
    rw [(RaftLog.truncate_eq ho log).2.2.2, if_pos hk]
    exact he
  | @extended m' hm ht term notLeader state hi hterm hne log =>
    have hret := hr m' rfl hm ht.ge hi m'.logTerm hterm
    rw [if_pos rfl] at hret
    rw [(RaftLog.truncateAndAppend_eq log).2.2.2.2]
    rcases hret with h0 | hle | heq
    · exact absurd h0 hne
    · rw [if_pos hle]
      exact he
    · split_ifs
      · exact he
      · rw [heq, he]
  | installed hm ht term notLeader state hsnap hi log =>
    rw [log, RaftLog.restore_offset] at hoff
    omega

end Raft

end Mizu
