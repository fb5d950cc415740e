import Mizu.Raft.Effects

/-!
# The assignments of a call

A call that starts, confirms or completes a read round also moves the commit index, appends
entries and sends messages. To say which of these comes first the calls are cut into single
assignments, each with the state it leaves.
-/

namespace Mizu

def Message.Replicates (m : Message) : Prop := m.type = .msgApp ∨ m.type = .msgSnap

instance (m : Message) : Decidable m.Replicates := inferInstanceAs (Decidable (_ ∨ _))

/-- What an assignment does to the read rounds. -/
inductive Act where
  /-- Nothing, and the role and the term stay. -/
  | work
  /-- The node leaves leadership, or goes on without it. -/
  | fall
  | lead
  | take
  | send (m : Message)
  | accept (readID : ℕ)
  | cancel (readID : ℕ)
  | start (readID : ℕ)
  | ack (m : Message)
  | complete (rs : ReadState)

namespace Raft

variable {c : Call} {r r' s t : Raft}

/-- A call that lets the node stand for election finds a term that can be counted up. -/
def Counts (r : Raft) : Call → Prop
  | .step m => m.type = .msgHup → max r.term m.term + 1 < 2 ^ 64
  | .tick _ => r.term + 1 < 2 ^ 64
  | _ => True

instance (r : Raft) (c : Call) : Decidable (r.Counts c) :=
  match c with
  | .step _ => inferInstanceAs (Decidable (_ → _))
  | .tick _ => inferInstanceAs (Decidable (_ < _))
  | .propose _ | .readIndex _ | .cancelReadIndex _ | .snapshot _ _ | .ready =>
    inferInstanceAs (Decidable True)

/-! ### Single assignments -/

/-- Assignments that concern neither role, term, messages nor read rounds. -/
inductive Works (r : Raft) : Raft → Prop
  | timers (election heartbeat : ℕ) :
      Works r { r with electionElapsed := election, heartbeatElapsed := heartbeat }
  | append (data : Bytes) (hid : r.id ∈ Assoc.keys r.prs) : Works r (r.appended data)
  | progress {peer : ℕ} (pr : Progress) (hp : peer ∈ Assoc.keys r.prs) :
      Works r (r.setProgress peer pr)
  | commit {i : ℕ} (hi : r.commitIndex < i) : Works r (r.committed i)
  | compact (index t : ℕ) (data : Bytes) : Works r (r.compacted index t data)

/-- `s` does not lead, and has only answered or asked for votes. -/
structure Falls (r s : Raft) : Prop where
  state : s.state ≠ .leader
  term : s.state = .candidate → 0 < s.term
  rounds : s.readRounds = []
  reads : s.readStates = r.readStates
  id : s.id = r.id
  prs : s.prs = r.prs
  sent : ∃ ms, s.msgs = r.msgs ++ ms ∧ ∀ m ∈ ms, ¬m.Replicates

def setRound (r : Raft) (readID : ℕ) (round : ReadRound) : Raft :=
  { r with readRounds := Assoc.set readID round r.readRounds }

/-- The round that starts in `r`. -/
def startedRound (r : Raft) : ReadRound :=
  { index := r.commitIndex, started := true, acks := [r.id] }

/-- A message for round `readID` may be sent. -/
def Open (r : Raft) (readID : ℕ) : Prop :=
  readID = 0 ∨ ∃ round, Assoc.get readID r.readRounds = some round ∧ round.started = true

/-- One assignment of the call `c`. -/
inductive Moves (c : Call) (r : Raft) : Act → Raft → Prop
  | work {s : Raft} (h : r.Works s) : Moves c r .work s
  | fall {s : Raft} (h : r.Falls s) : Moves c r .fall s
  | lead (hs : r.state = .candidate) (hid : r.id ∈ Assoc.keys r.prs) : Moves c r .lead r.leading
  | send {m : Message} (hl : r.state = .leader) (hm : m.Replicates) (ht : m.term = r.term)
      (ho : r.Open m.readId) : Moves c r (.send m) (r.send m)
  | cancel {readID : ℕ} (hc : c = .cancelReadIndex readID) :
      Moves c r (.cancel readID) (r.cancelReadIndex readID)
  | start {readID : ℕ} {round : ReadRound} (hl : r.state = .leader)
      (hr : Assoc.get readID r.readRounds = some round) (hs : round.started = false)
      (hpos : 0 < r.commitIndex) (hterm : r.raftLog.term r.commitIndex = some r.term) :
      Moves c r (.start readID) (r.setRound readID r.startedRound)
  | ack {m : Message} {round : ReadRound} (hc : c = .step m)
      (hm : m.type = .msgAppResp ∨ m.type = .msgSnapResp) (hl : r.state = .leader)
      (ht : m.term = r.term) (hp : m.src ∈ Assoc.keys r.prs)
      (hr : Assoc.get m.readId r.readRounds = some round) (hs : round.started = true) :
      Moves c r (.ack m)
        (r.setRound m.readId { round with acks := round.acks.insert m.src })
  | complete {readID : ℕ} {round : ReadRound} (hl : r.state = .leader)
      (hr : Assoc.get readID r.readRounds = some round) (hs : round.started = true)
      (hq : r.quorum ≤ round.acks.length) :
      Moves c r (.complete { readID := readID, index := round.index }) (r.completeReadRound readID)

end Raft

/-- An assignment of a call, with the state before it and the state that it leaves. -/
structure Moment where
  call : Call
  act : Act
  before : Raft
  node : Raft

namespace Raft

variable {c : Call} {r r' s t : Raft}

/-- The assignments of the call `c` lead from one state to another. -/
inductive Passes (c : Call) : Raft → List Moment → Raft → Prop
  | nil (r : Raft) : Passes c r [] r
  | cons {r s t : Raft} {a : Act} {ms : List Moment} (h : r.Moves c a s) (rest : Passes c s ms t) :
      Passes c r ({ call := c, act := a, before := r, node := s } :: ms) t

/-- Some assignments of the call `c` lead from `r` to `s`. -/
def Does (c : Call) (r s : Raft) : Prop := ∃ ms, Passes c r ms s

theorem Does.refl (r : Raft) : r.Does c r := ⟨[], .nil r⟩

theorem Does.next {a : Act} (h : r.Moves c a s) (rest : s.Does c t) : r.Does c t := by
  obtain ⟨ms, hms⟩ := rest
  exact ⟨_, .cons h hms⟩

theorem Does.single {a : Act} (h : r.Moves c a s) : r.Does c s := .next h (.refl s)

theorem Does.trans (h : r.Does c s) (h' : s.Does c t) : r.Does c t := by
  obtain ⟨ms, hms⟩ := h
  induction hms with
  | nil => exact h'
  | cons h _ ih => exact .next h (ih h')

/-- What the assignments rely on and keep up. -/
structure Tidy (r : Raft) : Prop where
  rounds : r.state ≠ .leader → r.readRounds = []
  zero : Assoc.get 0 r.readRounds = none
  nodup : (Assoc.keys r.readRounds).Nodup
  peer : r.state = .leader → r.id ∈ Assoc.keys r.prs
  term : r.state ≠ .follower → 0 < r.term

/-! ### Sending -/

variable {readID : ℕ}

theorem sendAppend_cases {dst : ℕ} (h : r.sendAppend dst readID = some s) :
    s = r ∨ ∃ m : Message, s = r.send m ∧ m.Replicates ∧ m.term = r.term ∧ m.readId = readID := by
  obtain ⟨pr, -, h⟩ := Option.bind_eq_some_iff.mp h
  split_ifs at h with hn
  · cases h
    unfold sendSnapshot
    split
    · exact Or.inl rfl
    · split_ifs
      · exact Or.inl rfl
      · exact Or.inr ⟨_, rfl, Or.inr rfl, rfl, rfl⟩
  · obtain ⟨t, -, h⟩ := Option.bind_eq_some_iff.mp h
    cases h
    exact Or.inr ⟨_, rfl, Or.inl rfl, rfl, rfl⟩

theorem sendAppends_does {ids : List ℕ} (hl : r.state = .leader)
    (ho : r.Open readID) (h : sendAppends readID r ids = some s) :
    r.Does c s ∧ ∃ ms, s = { r with msgs := ms } := by
  induction ids generalizing r with
  | nil =>
    cases h
    exact ⟨.refl _, _, rfl⟩
  | cons id ids ih =>
    unfold sendAppends at h
    split_ifs at h with hid
    · exact ih hl ho h
    · obtain ⟨r₁, h₁, h⟩ := Option.bind_eq_some_iff.mp h
      rcases sendAppend_cases h₁ with heq | ⟨m, rfl, hm, ht, rfl⟩
      · exact ih hl ho (heq ▸ h)
      · obtain ⟨hd, ms, rfl⟩ := ih (r := r.send m) hl ho h
        exact ⟨.next (.send hl hm ht ho) hd, ms, rfl⟩

theorem bcastAppend_does (hl : r.state = .leader) (ho : r.Open readID)
    (h : r.bcastAppend readID = some s) : r.Does c s ∧ ∃ ms, s = { r with msgs := ms } :=
  sendAppends_does hl ho h

/-! ### Rounds -/

theorem committedEntryInCurrentTerm_eq_true (h : r.committedEntryInCurrentTerm = some true) :
    0 < r.commitIndex ∧ r.raftLog.term r.commitIndex = some r.term := by
  unfold committedEntryInCurrentTerm at h
  split_ifs at h with hpos
  · obtain ⟨t, ht, heq⟩ := Option.map_eq_some_iff.mp h
    rw [of_decide_eq_true heq] at ht
    exact ⟨hpos, ht⟩
  · cases h

theorem get_setRound (r : Raft) (readID : ℕ) (round : ReadRound) :
    Assoc.get readID (r.setRound readID round).readRounds = some round :=
  Assoc.get_set_self _ _ _

theorem completeReadRound_state (readID : ℕ) : (r.completeReadRound readID).state = r.state := by
  unfold completeReadRound
  split <;> rfl

theorem startReadRound_does (hl : r.state = .leader)
    (h : r.startReadRound readID = some s) : r.Does c s ∧ s.state = .leader := by
  unfold startReadRound at h
  split at h
  · cases h
    exact ⟨.refl _, hl⟩
  · next round hr =>
    split_ifs at h with hst
    · cases h
      exact ⟨.refl _, hl⟩
    · obtain ⟨current, hc, h⟩ := Option.bind_eq_some_iff.mp h
      dsimp only at h
      split_ifs at h with hcur hq
      · cases h
        exact ⟨.refl _, hl⟩
      all_goals
        rw [Bool.not_eq_false] at hcur
        obtain ⟨hpos, hterm⟩ := committedEntryInCurrentTerm_eq_true (hcur ▸ hc)
        have hstart := Moves.start (c := c) hl hr (by simpa using hst) hpos hterm
        have hget := r.get_setRound readID r.startedRound
      · -- a quorum of one: the round is complete when it starts
        cases h
        exact ⟨.next hstart (.single (.complete (r := r.setRound _ _) hl hget rfl hq)),
          (completeReadRound_state readID).trans hl⟩
      · obtain ⟨hd, ms, rfl⟩ :=
          bcastAppend_does (c := c) (r := r.setRound _ _) hl (Or.inr ⟨_, hget, rfl⟩) h
        exact ⟨.next hstart hd, hl⟩

theorem startReadRounds_does {ids : List ℕ} (hl : r.state = .leader)
    (h : startReadRounds r ids = some s) : r.Does c s := by
  induction ids generalizing r with
  | nil =>
    cases h
    exact .refl _
  | cons id ids ih =>
    obtain ⟨r₁, h₁, h⟩ := Option.bind_eq_some_iff.mp h
    obtain ⟨hd, hl₁⟩ := startReadRound_does hl h₁
    exact hd.trans (ih hl₁ h)

theorem startPendingReadRounds_does (h : r.startPendingReadRounds = some s) : r.Does c s := by
  unfold startPendingReadRounds at h
  split_ifs at h with hl
  · cases h
    exact .refl _
  · obtain ⟨current, -, h⟩ := Option.bind_eq_some_iff.mp h
    split_ifs at h
    · cases h
      exact .refl _
    · exact startReadRounds_does (not_not.mp hl) h

theorem retryRounds_does {rounds : List (ℕ × ReadRound)} (hl : r.state = .leader)
    (hr : ∀ x ∈ rounds, Assoc.get x.1 r.readRounds = some x.2)
    (h : retryRounds r rounds = some s) : r.Does c s := by
  induction rounds generalizing r with
  | nil =>
    cases h
    exact .refl _
  | cons x rounds ih =>
    have hrest : ∀ y ∈ rounds, Assoc.get y.1 r.readRounds = some y.2 :=
      fun y hy => hr y (List.mem_cons_of_mem _ hy)
    unfold retryRounds at h
    split_ifs at h with hst
    · obtain ⟨r₁, h₁, h⟩ := Option.bind_eq_some_iff.mp h
      obtain ⟨hd, ms, rfl⟩ := bcastAppend_does (c := c) hl
        (Or.inr ⟨_, hr x (List.mem_cons_self ..), hst⟩) h₁
      exact hd.trans (ih hl hrest h)
    · exact ih hl hrest h

variable {m : Message}

theorem ackReadRound_does (hc : c = .step m)
    (hm : m.type = .msgAppResp ∨ m.type = .msgSnapResp) (ht : m.term = r.term) :
    r.Does c (r.ackReadRound m.readId m.src) := by
  unfold ackReadRound
  split_ifs with hno
  · exact .refl r
  · obtain ⟨-, hl, hp⟩ : m.readId ≠ 0 ∧ r.state = .leader ∧ m.src ∈ Assoc.keys r.prs := by
      simpa [← Assoc.get_isSome_iff, Option.isSome_iff_ne_none] using hno
    split
    · exact .refl r
    · next round hr =>
      dsimp only
      split_ifs with hst hq
      · exact .refl r
      · exact .next (.ack hc hm hl ht hp hr (by simpa using hst)) (.single
          (.complete (r := r.setRound _ _) hl (r.get_setRound _ _) (by simpa using hst) hq))
      · exact .single (.ack hc hm hl ht hp hr (by simpa using hst))

/-! ### Commitment -/

theorem commitTo_does {i : ℕ} (h : r.commitTo i = some s) : r.Does c s := by
  unfold commitTo at h
  split_ifs at h with hi
  · obtain ⟨r₁, h₁, h⟩ := Option.bind_eq_some_iff.mp h
    rw [emitted_eq_committed h₁] at h
    exact .next (.work (.commit hi)) (startPendingReadRounds_does h)
  · cases h
    exact .refl _

theorem maybeCommit_does (h : r.maybeCommit = some s) : r.Does c s := by
  obtain ⟨i, -, h⟩ := Option.bind_eq_some_iff.mp h
  obtain ⟨current, -, h⟩ := Option.bind_eq_some_iff.mp h
  split_ifs at h
  · exact commitTo_does h
  · cases h
    exact .refl _

variable {data : Bytes}

theorem appendEntry_does (hl : r.state = .leader)
    (h : r.appendEntry data = some s) : r.id ∈ Assoc.keys r.prs ∧ r.Does c s := by
  obtain ⟨pr, hpr, h⟩ := Option.bind_eq_some_iff.mp h
  obtain ⟨r₁, h₁, h⟩ := Option.bind_eq_some_iff.mp h
  have hid : r.id ∈ Assoc.keys r.prs := Assoc.get_isSome_iff.mp (Option.isSome_of_eq_some hpr)
  obtain ⟨hd, -⟩ := bcastAppend_does (c := c) (r := r.appended data) hl (Or.inl rfl) h₁
  exact ⟨hid, .next (.work (.append data hid)) (hd.trans (maybeCommit_does h))⟩

theorem keys_leading (r : Raft) : Assoc.keys r.leading.prs = Assoc.keys r.prs := by
  simp [leading, Assoc.keys, Function.comp_def]

theorem becomeLeader_does (hs : r.state = .candidate) (h : r.becomeLeader = some s) :
    r.Does c s := by
  obtain ⟨hid, hd⟩ := appendEntry_does (c := c) (r := r.leading) rfl h
  rw [keys_leading] at hid
  exact .next (.lead hs hid) hd

/-! ### Without leadership -/

theorem Falls.congr (h : r.Falls s) (hstate : t.state = s.state) (hterm : t.term = s.term)
    (hrounds : t.readRounds = s.readRounds) (hreads : t.readStates = s.readStates)
    (hid : t.id = s.id) (hprs : t.prs = s.prs) (hmsgs : t.msgs = s.msgs) : r.Falls t where
  state := hstate ▸ h.state
  term := hstate ▸ hterm ▸ h.term
  rounds := hrounds.trans h.rounds
  reads := hreads.trans h.reads
  id := hid.trans h.id
  prs := hprs.trans h.prs
  sent := hmsgs ▸ h.sent

theorem Falls.send (h : r.Falls s) (hm : ¬m.Replicates) : r.Falls (s.send m) where
  state := h.state
  term := h.term
  rounds := h.rounds
  reads := h.reads
  id := h.id
  prs := h.prs
  sent := by
    obtain ⟨ms, hms, hall⟩ := h.sent
    refine ⟨ms ++ [m], by simp [Raft.send, hms], fun x hx => ?_⟩
    rcases List.mem_append.mp hx with hx | hx
    · exact hall x hx
    · exact List.mem_singleton.mp hx ▸ hm

theorem Tidy.falls (h : r.Tidy) (hs : r.state ≠ .leader) : r.Falls r where
  state := hs
  term hc := h.term (by simp [hc])
  rounds := h.rounds hs
  reads := rfl
  id := rfl
  prs := rfl
  sent := ⟨[], by simp, by simp⟩

theorem follow_falls (r : Raft) (lead : ℕ) : r.Falls (r.follow lead) where
  state := nofun
  term := nofun
  rounds := rfl
  reads := rfl
  id := rfl
  prs := rfl
  sent := ⟨[], by simp [follow], by simp⟩

theorem becomeFollower_falls (r : Raft) (t lead : ℕ) : r.Falls (r.becomeFollower t lead) := by
  by_cases ht : r.term < t
  · rw [becomeFollower_of_lt ht]
    constructor
    · nofun
    · nofun
    · rfl
    · rfl
    · rfl
    · rfl
    · exact ⟨[], by simp [follow], by simp⟩
  · rw [becomeFollower_eq_follow (not_lt.mp ht)]
    exact r.follow_falls lead

theorem becomeCandidate_falls (ht : r.term + 1 < 2 ^ 64) : r.Falls r.becomeCandidate where
  state := r.becomeCandidate_ne_leader
  term _ := by
    change 0 < nextTerm r.term
    rw [nextTerm_of_lt ht]
    exact Nat.succ_pos _
  rounds := rfl
  reads := rfl
  id := rfl
  prs := rfl
  sent := ⟨[], by simp [becomeCandidate, setTerm, setVote, markHardStateChanged], by simp⟩

theorem Falls.sendVotes (h : r.Falls s) (ids : List ℕ) : r.Falls (s.sendVotes ids) where
  state := h.state
  term := h.term
  rounds := h.rounds
  reads := h.reads
  id := h.id
  prs := h.prs
  sent := by
    obtain ⟨ms, hms, hall⟩ := h.sent
    refine ⟨_, by rw [Raft.sendVotes, hms, List.append_assoc], fun x hx => ?_⟩
    rcases List.mem_append.mp hx with hx | hx
    · exact hall x hx
    · obtain ⟨id, -, rfl⟩ := List.mem_map.mp hx
      simp [Message.Replicates]

theorem campaign_does (ht : r.term + 1 < 2 ^ 64) (h : r.campaign = some s) : r.Does c s := by
  have hf := becomeCandidate_falls ht
  unfold campaign at h
  dsimp only at h
  split_ifs at h
  · exact .next (.fall hf) (becomeLeader_does rfl h)
  · cases h
    exact .single (.fall (hf.sendVotes _))

section

variable (h : r.Tidy) (hs : r.state ≠ .leader)

include h hs

theorem handleVote_falls (m : Message) :
    r.Falls (r.handleVote m) := by
  unfold handleVote
  apply Falls.send
  · split_ifs
    · exact (h.falls hs).congr rfl rfl rfl rfl rfl rfl rfl
    · exact h.falls hs
  · simp [Message.Replicates]

theorem handleAppend_falls (ht : m.term ≤ r.term) (ha : r.handleAppend m = some s) : r.Falls s := by
  have hf := r.follow_falls m.src
  unfold handleAppend at ha
  rw [becomeFollower_eq_follow ht] at ha
  dsimp only at ha
  split_ifs at ha with hlt hi
  · cases ha
    exact (h.falls hs).send (by simp [Message.Replicates])
  · cases ha
    exact hf.send (by simp [Message.Replicates])
  · obtain ⟨t, -, ha⟩ := Option.bind_eq_some_iff.mp ha
    split_ifs at ha with hne
    · obtain ⟨first, -, ha⟩ := Option.bind_eq_some_iff.mp ha
      obtain ⟨log, -, ha⟩ := Option.bind_eq_some_iff.mp ha
      cases ha
      apply Falls.send
      · exact hf.congr rfl rfl rfl rfl rfl rfl rfl
      · simp [Message.Replicates]
    · obtain ⟨r₁, h₁, ha⟩ := Option.bind_eq_some_iff.mp ha
      obtain ⟨r₂, h₂, h₃⟩ := Option.bind_eq_some_iff.mp ha
      obtain ⟨log, -, rfl⟩ := appendReceived_cases h₁
      cases h₃
      apply Falls.send
      · cases learnCommit_learns (by simp [follow]) h₂ with
        | same => exact hf.congr rfl rfl rfl rfl rfl rfl rfl
        | commit => exact hf.congr rfl rfl rfl rfl rfl rfl rfl
      · simp [Message.Replicates]

theorem handleSnapshot_falls (ht : m.term ≤ r.term) : r.Falls (r.handleSnapshot m) := by
  have hreply (b : Bool) : ¬Message.Replicates { r.answer .msgSnapResp m with reject := b } := by
    simp [Message.Replicates, answer]
  unfold handleSnapshot
  split
  · exact (h.falls hs).send (hreply true)
  · next snap _ =>
    dsimp only
    split_ifs with hlt hi
    · exact (h.falls hs).send (hreply true)
    · exact (h.falls hs).send (hreply true)
    · rw [becomeFollower_eq_follow ht, restoreSnapshot_eq (by omega)]
      apply Falls.send
      · have hf := r.follow_falls m.src
        exact { hf with state := nofun, term := nofun }
      · exact hreply false

end

theorem handleVoteResp_does (hr : r.Tidy) (hs : r.state = .candidate)
    (h : r.handleVoteResp m = some s) : r.Does c s := by
  have hcount : r.Falls { r with votes := Assoc.set m.src (!m.reject) r.votes } :=
    (hr.falls (by simp [hs])).congr rfl rfl rfl rfl rfl rfl rfl
  unfold handleVoteResp at h
  dsimp only at h
  split_ifs at h
  · exact .next (.fall hcount) (becomeLeader_does hs h)
  · cases h
    exact .next (.fall hcount) (.single (.fall (becomeFollower_falls _ _ _)))
  · cases h
    exact .single (.fall hcount)

/-! ### The calls -/

theorem handleAppendResp_does (hm : m.type = .msgAppResp)
    (h : r.handleAppendResp m = some s) : r.Does (.step m) s := by
  unfold handleAppendResp at h
  split at h
  · cases h
    exact .refl _
  · next pr hpr =>
    split_ifs at h with ht
    · cases h
      exact .refl _
    · obtain ⟨pr', -, h⟩ := Option.bind_eq_some_iff.mp h
      have hack := ackReadRound_does rfl (Or.inl hm) (not_not.mp ht)
      obtain ⟨rounds, reads, heq⟩ := ackReadRound_quiet r m.readId m.src
      have hsrc : m.src ∈ Assoc.keys (r.ackReadRound m.readId m.src).prs := by
        rw [heq]
        exact Assoc.get_isSome_iff.mp (Option.isSome_of_eq_some hpr)
      exact hack.trans (.next (.work (.progress pr' hsrc)) (maybeCommit_does h))

theorem handleSnapshotResp_does (hm : m.type = .msgSnapResp) :
    r.Does (.step m) (r.handleSnapshotResp m) := by
  unfold handleSnapshotResp
  dsimp only
  split_ifs with ht hr hpr
  · exact .refl _
  · exact ackReadRound_does rfl (Or.inr hm) (not_not.mp ht)
  · exact (ackReadRound_does rfl (Or.inr hm) (not_not.mp ht)).trans
      (.single (.work (.progress _ (Assoc.get_isSome_iff.mp hpr))))
  · exact ackReadRound_does rfl (Or.inr hm) (not_not.mp ht)

theorem dispatch_does (hr : r.Tidy) (ht : m.term ≤ r.term)
    (hup : m.type = .msgHup → r.term + 1 < 2 ^ 64) (h : r.dispatch m = some s) :
    r.Does (.step m) s := by
  have ignored : r = s → r.Does (.step m) s := fun h => h ▸ .refl r
  cases hs : r.state with
  | follower =>
    have hne : r.state ≠ .leader := by simp [hs]
    cases hm : m.type <;> simp only [dispatch, hs, hm, Option.some.injEq] at h
    case msgHup => exact campaign_does (hup hm) h
    case msgVote => exact h ▸ .single (.fall (handleVote_falls hr hne m))
    case msgApp => exact .single (.fall (handleAppend_falls hr hne ht h))
    case msgSnap => exact h ▸ .single (.fall (handleSnapshot_falls hr hne ht))
    all_goals exact ignored h
  | candidate =>
    have hne : r.state ≠ .leader := by simp [hs]
    cases hm : m.type <;> simp only [dispatch, hs, hm, Option.some.injEq] at h
    case msgHup => exact campaign_does (hup hm) h
    case msgVote => exact h ▸ .single (.fall (handleVote_falls hr hne m))
    case msgVoteResp => exact handleVoteResp_does hr hs h
    case msgApp => exact .single (.fall (handleAppend_falls hr hne ht h))
    case msgSnap => exact h ▸ .single (.fall (handleSnapshot_falls hr hne ht))
    all_goals exact ignored h
  | leader =>
    cases hm : m.type <;> simp only [dispatch, hs, hm, Option.some.injEq] at h
    case msgBeat => exact (bcastAppend_does hs (Or.inl rfl) h).1
    case msgAppResp => exact handleAppendResp_does hm h
    case msgSnapResp => exact h ▸ handleSnapshotResp_does hm
    all_goals exact ignored h

theorem Falls.tidy (h : r.Falls s) : s.Tidy where
  rounds _ := h.rounds
  zero := by simp [h.rounds]
  nodup := by simp [h.rounds, Assoc.keys]
  peer hl := absurd hl h.state
  term hne := by
    cases hs : s.state with
    | follower => exact absurd hs hne
    | candidate => exact h.term hs
    | leader => exact absurd hs h.state

theorem Works.keys (h : r.Works s) : Assoc.keys s.prs = Assoc.keys r.prs := by
  cases h with
  | timers => rfl
  | append data hid => exact Assoc.keys_set_of_mem hid
  | progress pr hp => exact Assoc.keys_set_of_mem hp
  | commit => rfl
  | compact =>
    unfold compacted
    split_ifs
    · simp [Assoc.keys, Function.comp_def]
    · rfl

/-- What such an assignment leaves alone. -/
theorem Works.same (h : r.Works s) : s.state = r.state ∧ s.term = r.term ∧ s.id = r.id ∧
    s.readRounds = r.readRounds ∧ s.readStates = r.readStates ∧ s.msgs = r.msgs := by
  cases h <;> exact ⟨rfl, rfl, rfl, rfl, rfl, rfl⟩

theorem Tidy.congr (h : r.Tidy) (hstate : s.state = r.state) (hterm : s.term = r.term)
    (hid : s.id = r.id) (hkeys : Assoc.keys s.prs = Assoc.keys r.prs)
    (hrounds : s.readRounds = r.readRounds) : s.Tidy where
  rounds := by
    rw [hstate, hrounds]
    exact h.rounds
  zero := hrounds ▸ h.zero
  nodup := hrounds ▸ h.nodup
  peer := by
    rw [hstate, hid, hkeys]
    exact h.peer
  term := by
    rw [hstate, hterm]
    exact h.term

theorem Tidy.setRound (h : r.Tidy) (hl : r.state = .leader) (h0 : readID ≠ 0)
    (round : ReadRound) : (r.setRound readID round).Tidy where
  rounds hne := absurd hl hne
  zero := (Assoc.get_set_of_ne h0.symm _ _).trans h.zero
  nodup := Assoc.nodup_keys_set h.nodup
  peer := h.peer
  term := h.term

theorem Tidy.erase (h : r.Tidy)
    (hrounds : s.readRounds = Assoc.erase readID r.readRounds) (hstate : s.state = r.state)
    (hterm : s.term = r.term) (hid : s.id = r.id)
    (hprs : s.prs = r.prs) : s.Tidy where
  rounds hne := by
    rw [hrounds, h.rounds (hstate ▸ hne)]
    rfl
  zero := by
    rw [hrounds, Assoc.get_erase, h.zero, ite_self]
  nodup := by
    rw [hrounds]
    exact h.nodup.sublist (List.filter_sublist.map _)
  peer := by
    rw [hstate, hid, hprs]
    exact h.peer
  term := by
    rw [hstate, hterm]
    exact h.term

theorem Tidy.readID_ne (h : r.Tidy) {round : ReadRound}
    (hr : Assoc.get readID r.readRounds = some round) : readID ≠ 0 := by
  rintro rfl
  rw [h.zero] at hr
  cases hr

theorem completeReadRound_eq {round : ReadRound}
    (hr : Assoc.get readID r.readRounds = some round) : r.completeReadRound readID =
      { r with
        readStates := r.readStates ++ [{ readID := readID, index := round.index }]
        readRounds := Assoc.erase readID r.readRounds } := by
  simp [completeReadRound, hr]

theorem Moves.tidy {a : Act} (h : r.Moves c a s) (hr : r.Tidy) : s.Tidy := by
  cases h with
  | work h =>
    obtain ⟨hstate, hterm, hid, hrounds, -, -⟩ := h.same
    exact hr.congr hstate hterm hid h.keys hrounds
  | fall h => exact h.tidy
  | lead hs hid =>
    constructor
    · exact fun hne => absurd rfl hne
    · exact hr.zero
    · exact hr.nodup
    · intro _
      rw [keys_leading]
      exact hid
    · intro _
      exact hr.term (by simp [hs])
  | send => exact hr.congr rfl rfl rfl rfl rfl
  | cancel => exact hr.erase rfl rfl rfl rfl rfl
  | start hl hget => exact hr.setRound hl (hr.readID_ne hget) _
  | ack hc hm hl ht hp hget => exact hr.setRound hl (hr.readID_ne hget) _
  | complete hl hget =>
    rw [completeReadRound_eq hget]
    exact hr.erase rfl rfl rfl rfl rfl

theorem step_does (hr : r.Tidy) (hg : r.Counts (.step m)) (h : r.step m = some s) :
    r.Does (.step m) s := by
  unfold step catchUp at h
  split_ifs at h with ht
  · have hf := r.becomeFollower_falls m.term 0
    have hterm : (r.becomeFollower m.term 0).term = m.term := by
      rw [becomeFollower_of_lt ht]
      rfl
    refine .next (.fall hf) (dispatch_does hf.tidy hterm.ge (fun hup => ?_) h)
    have := hg hup
    omega
  · refine dispatch_does hr (not_lt.mp ht) (fun hup => ?_) h
    have := hg hup
    omega

theorem tick_does {rnd : ℕ} (hr : r.Tidy) (hg : r.Counts (.tick rnd)) (h : r.tick rnd = some s) :
    r.Does c s := by
  unfold tick at h
  split_ifs at h with hl
  · dsimp only at h
    split_ifs at h
    · obtain ⟨r₁, h₁, h⟩ := Option.bind_eq_some_iff.mp h
      obtain ⟨hd, ms, rfl⟩ := bcastAppend_does (c := c)
        (r := { r with heartbeatElapsed := 0 }) hl (Or.inl rfl) h₁
      refine .next (.work (.timers r.electionElapsed 0)) (hd.trans (retryRounds_does hl ?_ h))
      exact fun x hx => Assoc.get_of_mem hr.nodup hx
    · cases h
      exact .single (.work (.timers r.electionElapsed (r.heartbeatElapsed + 1)))
  · have hne : r.Falls { r with electionElapsed := r.electionElapsed + 1 } :=
      (hr.falls hl).congr rfl rfl rfl rfl rfl rfl rfl
    dsimp only at h
    split_ifs at h
    · have hzero : r.Falls { r with electionElapsed := 0 } :=
        (hr.falls hl).congr rfl rfl rfl rfl rfl rfl rfl
      exact .next (.fall hzero) (campaign_does hg h)
    · cases h
      exact .single (.fall hne)

theorem propose_does {b : Bool} (h : r.propose data = some (s, b)) :
    r.Does c s := by
  unfold propose at h
  split_ifs at h with hl
  · cases h
    exact .refl _
  · obtain ⟨r₁, h₁, h⟩ := Option.bind_eq_some_iff.mp h
    cases h
    exact (appendEntry_does (not_not.mp hl) h₁).2

theorem snapshot_does {index : ℕ} (h : r.snapshot index data = some s) :
    r.Does c s := by
  rcases snapshot_cases h with rfl | ⟨t, -, -, rfl⟩
  · exact .refl _
  · exact .single (.work (.compact index t data))

/-- A round is accepted, and then perhaps started. -/
theorem readIndex_cases {b : Bool} (h : r.readIndex readID = some (s, b)) :
    (b = false ∧ s = r) ∨ (b = true ∧ r.state = .leader ∧ readID ≠ 0 ∧
      Assoc.get readID r.readRounds = none ∧
      (r.setRound readID {}).Does (.readIndex readID) s) := by
  unfold readIndex at h
  split_ifs at h with hno
  · cases h
    exact Or.inl ⟨rfl, rfl⟩
  · obtain ⟨r₁, h₁, h⟩ := Option.bind_eq_some_iff.mp h
    cases h
    obtain ⟨hl, h0, hget⟩ : r.state = .leader ∧ readID ≠ 0 ∧
        Assoc.get readID r.readRounds = none := by
      simpa using hno
    exact Or.inr ⟨rfl, hl, h0, hget, (startReadRound_does (r := r.setRound readID {}) hl h₁).1⟩

/-- Every other call but `ready` is a sequence of assignments. -/
theorem call_does (hr : r.Tidy) (hg : r.Counts c) (hc : ∀ readID, c ≠ .readIndex readID)
    (hready : c ≠ .ready) (h : r.call c = some s) : r.Does c s := by
  cases c with
  | step m => exact step_does hr hg h
  | tick rnd => exact tick_does hr hg h
  | propose data =>
    obtain ⟨⟨_, b⟩, hx, rfl⟩ := Option.map_eq_some_iff.mp h
    exact propose_does hx
  | readIndex readID => exact absurd rfl (hc readID)
  | cancelReadIndex readID =>
    cases h
    exact .single (.cancel rfl)
  | snapshot index data => exact snapshot_does h
  | ready => exact absurd rfl hready

end Raft

end Mizu
