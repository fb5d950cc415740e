import Mizu.Library.Assoc
import Mizu.Raft.Log
import Mathlib.Data.List.Sort

/-!
# One Raft node

`raft/raft.go` and `raft/read_index.go`. Every function that can reach an
out-of-range access or a missing progress record returns an `Option`, with
`none` for the panic. Maps are association lists, iterated in list order.
-/

namespace Mizu

structure Raft where
  id : ℕ
  state : StateType := .follower
  lead : ℕ := 0
  hardState : HardState := {}
  raftLog : RaftLog := newRaftLog
  prs : List (ℕ × Progress)
  votes : List (ℕ × Bool) := []
  msgs : List Message := []
  electionElapsed : ℕ := 0
  heartbeatElapsed : ℕ := 0
  electionTimeout : ℕ
  heartbeatTimeout : ℕ
  currentSnapshot : Option Snapshot := none
  pendingHardState : Option HardState := none
  pendingEntries : List Entry := []
  pendingSnapshot : Option Snapshot := none
  committedEntries : List Entry := []
  readStates : List ReadState := []
  readRounds : List (ℕ × ReadRound) := []
  committedCursor : ℕ := 0
  deriving DecidableEq, Repr

structure Config where
  id : ℕ
  peers : List ℕ
  electionTimeout : ℕ := 0
  heartbeatTimeout : ℕ := 0

def newRaft (cfg : Config) : Raft :=
  { id := cfg.id
    prs := cfg.peers.foldl (fun prs peer => Assoc.set peer { matched := 0, next := 1 } prs) []
    electionTimeout := if cfg.electionTimeout = 0 then 15 else cfg.electionTimeout
    heartbeatTimeout := if cfg.heartbeatTimeout = 0 then 2 else cfg.heartbeatTimeout }

namespace Raft

variable (r : Raft)

def term : ℕ := r.hardState.term
def vote : ℕ := r.hardState.vote
def commitIndex : ℕ := r.hardState.commitIndex

/-! ### Small updates -/

def send (m : Message) : Raft := { r with msgs := r.msgs ++ [m] }

def markHardStateChanged : Raft := { r with pendingHardState := some r.hardState }

def quorum : ℕ := r.prs.length / 2 + 1

def setTerm (t : ℕ) : Raft := { r with hardState := { r.hardState with term := t } }
def setVote (v : ℕ) : Raft := { r with hardState := { r.hardState with vote := v } }
def setCommit (c : ℕ) : Raft := { r with hardState := { r.hardState with commitIndex := c } }

def becomeFollower (term lead : ℕ) : Raft :=
  let r := { r with state := .follower, lead := lead, electionElapsed := 0 }
  let r := if r.term < term then ((r.setTerm term).setVote 0).markHardStateChanged else r
  { r with votes := [], readRounds := [] }

def becomeCandidate : Raft :=
  let r := { r with state := .candidate, lead := 0 }
  let r := ((r.setTerm (nextTerm r.term)).setVote r.id).markHardStateChanged
  { r with votes := [(r.id, true)], readRounds := [], electionElapsed := 0 }

/-! ### Replication messages -/

def sendSnapshot (dst readID : ℕ) : Raft :=
  match r.currentSnapshot with
  | none => r
  | some s =>
    if s.index = 0 then r
    else r.send
      { type := .msgSnap, src := r.id, dst := dst, term := r.term, snapshot := some s,
        readId := readID }

/-- The entries are those of the log now. In the code they are a view of the log's array until
`Ready` hands them out, which `Cluster.Shared` models. -/
def sendAppend (dst readID : ℕ) : Option Raft := do
  let pr ← Assoc.get dst r.prs
  if pr.next ≤ r.raftLog.firstIndex then
    some (r.sendSnapshot dst readID)
  else do
    let prevIndex := pr.next - 1
    let prevTerm ← r.raftLog.term prevIndex
    some (r.send
      { type := .msgApp, src := r.id, dst := dst, term := r.term, logIndex := prevIndex,
        logTerm := prevTerm, entries := r.raftLog.slice pr.next r.raftLog.endIndex,
        commit := r.commitIndex, readId := readID })

/-- The loop of `bcastAppend` over the given peers. -/
def sendAppends (readID : ℕ) : Raft → List ℕ → Option Raft
  | r, [] => some r
  | r, id :: ids =>
    if id = r.id then sendAppends readID r ids
    else do
      let r ← r.sendAppend id readID
      sendAppends readID r ids

def bcastAppend (readID : ℕ) : Option Raft := sendAppends readID r (Assoc.keys r.prs)

/-! ### Read rounds -/

def committedEntryInCurrentTerm : Option Bool :=
  if 0 < r.commitIndex then (r.raftLog.term r.commitIndex).map fun t => decide (t = r.term)
  else some false

def completeReadRound (readID : ℕ) : Raft :=
  match Assoc.get readID r.readRounds with
  | none => r
  | some round =>
    { r with
      readStates := r.readStates ++ [{ readID := readID, index := round.index }]
      readRounds := Assoc.erase readID r.readRounds }

def startReadRound (readID : ℕ) : Option Raft :=
  match Assoc.get readID r.readRounds with
  | none => some r
  | some round =>
    if round.started then some r
    else do
      let current ← r.committedEntryInCurrentTerm
      if current = false then some r
      else
        let round : ReadRound := { index := r.commitIndex, started := true, acks := [r.id] }
        let r := { r with readRounds := Assoc.set readID round r.readRounds }
        if r.quorum ≤ round.acks.length then some (r.completeReadRound readID)
        else r.bcastAppend readID

/-- The loop of `startPendingReadRounds` over the given rounds. -/
def startReadRounds : Raft → List ℕ → Option Raft
  | r, [] => some r
  | r, readID :: ids => do
    let r ← r.startReadRound readID
    startReadRounds r ids

def startPendingReadRounds : Option Raft :=
  if r.state ≠ .leader then some r
  else do
    let current ← r.committedEntryInCurrentTerm
    if current = false then some r else startReadRounds r (Assoc.keys r.readRounds)

/-- The loop of `retryReadRounds` over the given rounds. -/
def retryRounds : Raft → List (ℕ × ReadRound) → Option Raft
  | r, [] => some r
  | r, (readID, round) :: rounds =>
    if round.started then do
      let r ← r.bcastAppend readID
      retryRounds r rounds
    else retryRounds r rounds

def retryReadRounds : Option Raft := retryRounds r r.readRounds

def ackReadRound (readID src : ℕ) : Raft :=
  if readID = 0 ∨ r.state ≠ .leader ∨ (Assoc.get src r.prs).isNone then r
  else
    match Assoc.get readID r.readRounds with
    | none => r
    | some round =>
      if round.started = false then r
      else
        let round := { round with acks := round.acks.insert src }
        let r := { r with readRounds := Assoc.set readID round r.readRounds }
        if r.quorum ≤ round.acks.length then r.completeReadRound readID else r

/-- Start a quorum-confirmed read round; `false` when it is refused. -/
def readIndex (readID : ℕ) : Option (Raft × Bool) :=
  if r.state ≠ .leader ∨ readID = 0 ∨ (Assoc.get readID r.readRounds).isSome then some (r, false)
  else do
    let r := { r with readRounds := Assoc.set readID {} r.readRounds }
    let r ← r.startReadRound readID
    some (r, true)

def cancelReadIndex (readID : ℕ) : Raft :=
  { r with readRounds := Assoc.erase readID r.readRounds }

/-! ### Commitment -/

/-- `n` rounds of the loop of `emitCommittedEntries`. -/
def emitRounds : ℕ → Raft → Option Raft
  | 0, r => some r
  | n + 1, r =>
    let idx := r.committedCursor + 1
    let r := { r with committedCursor := idx }
    if idx < r.raftLog.firstIndex ∨ r.raftLog.lastIndex < idx then emitRounds n r
    else do
      let entry ← r.raftLog.entry idx
      emitRounds n { r with committedEntries := r.committedEntries ++ [entry] }

def emitCommittedEntries : Option Raft := emitRounds (r.commitIndex - r.committedCursor) r

def commitTo (index : ℕ) : Option Raft :=
  if r.commitIndex < index then do
    let r ← (r.setCommit index).markHardStateChanged.emitCommittedEntries
    r.startPendingReadRounds
  else some r

def maybeCommit : Option Raft := do
  let matches_ := (r.prs.map fun p => p.2.matched).insertionSort (· ≥ ·)
  let mci ← matches_[r.quorum - 1]?
  let current ← r.raftLog.matchTerm mci r.term
  if current then r.commitTo mci else some r

def appendEntry (data : Bytes) : Option Raft := do
  let index := r.raftLog.endIndex
  let entry : Entry := { term := r.term, index := index, data := data }
  let r := { r with
    raftLog := r.raftLog.append [entry], pendingEntries := r.pendingEntries ++ [entry] }
  let _ ← Assoc.get r.id r.prs
  let r := { r with prs := Assoc.set r.id { matched := index, next := index + 1 } r.prs }
  let r ← r.bcastAppend 0
  r.maybeCommit

def propose (data : Bytes) : Option (Raft × Bool) :=
  if r.state ≠ .leader then some (r, false)
  else do
    let r ← r.appendEntry data
    some (r, true)

/-! ### Elections -/

def becomeLeader : Option Raft :=
  let next := r.raftLog.endIndex
  let r : Raft := { r with
    state := .leader, lead := r.id, heartbeatElapsed := 0
    prs := r.prs.map fun p => (p.1, { matched := 0, next := next }) }
  r.appendEntry []

def sendVotes (ids : List ℕ) : Raft :=
  { r with
    msgs := r.msgs ++ (ids.filter (· ≠ r.id)).map fun id =>
      { type := .msgVote, src := r.id, dst := id, term := r.term,
        logIndex := r.raftLog.lastIndex, logTerm := r.raftLog.lastTerm } }

def campaign : Option Raft :=
  let r := r.becomeCandidate
  if r.prs.length = 1 then r.becomeLeader else some (r.sendVotes (Assoc.keys r.prs))

def canVote (m : Message) : Bool :=
  if m.term < r.term then false
  else if r.vote ≠ 0 ∧ r.vote ≠ m.src then false
  else if m.logTerm < r.raftLog.lastTerm then false
  else if r.raftLog.lastTerm = m.logTerm ∧ m.logIndex < r.raftLog.lastIndex then false
  else true

def handleVote (m : Message) : Raft :=
  let granted := r.canVote m
  let r := if granted then { (r.setVote m.src).markHardStateChanged with electionElapsed := 0 }
    else r
  r.send { type := .msgVoteResp, src := r.id, dst := m.src, term := r.term, reject := !granted }

def handleVoteResp (m : Message) : Option Raft :=
  let r : Raft := { r with votes := Assoc.set m.src (!m.reject) r.votes }
  let granted := (r.votes.filter fun p => p.2).length
  let rejected := (r.votes.filter fun p => !p.2).length
  if r.quorum ≤ granted then r.becomeLeader
  else if r.quorum ≤ rejected then some (r.becomeFollower r.term 0)
  else some r

/-! ### Log replication -/

/-- The back-off loop of `handleAppend`: from `offset + n` down to the first
index whose predecessor does not have term `t`. -/
def conflictFrom (l : RaftLog) (t : ℕ) : ℕ → Option ℕ
  | 0 => some l.offset
  | n + 1 => do
    let u ← l.term (l.offset + n)
    if u = t then conflictFrom l t n else some (l.offset + (n + 1))

/-- First index of the run of term `t` that ends at `index`, stopping at the sentinel. -/
def conflictFirst (l : RaftLog) (t index : ℕ) : Option ℕ :=
  if l.firstIndex < index then conflictFrom l t (index - l.firstIndex) else some index

/-- The entries of an accepted `MsgApp` replace the log after its previous index. -/
def appendReceived (m : Message) : Option Raft :=
  if m.entries = [] then some r
  else do
    let log ← r.raftLog.truncateAndAppend m.logIndex m.entries
    some { r with raftLog := log, pendingEntries := r.pendingEntries ++ m.entries }

/-- The commit index of an accepted `MsgApp`, as far as the log goes. -/
def learnCommit (m : Message) : Option Raft :=
  if r.commitIndex < m.commit then r.commitTo (min m.commit r.raftLog.lastIndex) else some r

def handleAppend (m : Message) : Option Raft :=
  let reply : Message :=
    { type := .msgAppResp, src := r.id, dst := m.src, term := r.term, readId := m.readId }
  if m.term < r.term then some (r.send { reply with reject := true })
  else
    let r := r.becomeFollower m.term m.src
    if r.raftLog.lastIndex < m.logIndex then
      some (r.send { reply with reject := true, logIndex := r.raftLog.endIndex })
    else do
      let logTerm ← r.raftLog.term m.logIndex
      if m.logTerm ≠ logTerm then do
        let first ← conflictFirst r.raftLog logTerm m.logIndex
        let log ← r.raftLog.truncate first
        some ({ r with raftLog := log }.send
          { reply with reject := true, logTerm := logTerm, logIndex := first })
      else do
        let r ← r.appendReceived m
        let r ← r.learnCommit m
        some (r.send { reply with reject := false, logIndex := r.raftLog.lastIndex })

/-- `Match` and `Next` of a peer as its answer `m` to an append moves them. -/
def movedProgress (pr : Progress) (m : Message) : Option Progress :=
  if m.reject = false then
    some { matched := m.logIndex, next := min (m.logIndex + 1) r.raftLog.endIndex }
  else if m.logTerm = 0 then some { pr with next := max m.logIndex 1 }
  else do
    match ← r.raftLog.findLastIndexOfTerm m.logTerm with
    | some found => some { pr with next := found + 1 }
    | none => some { pr with next := m.logIndex }

/-- `Match` is kept below `Next`. -/
def clampMatch (pr : Progress) : Progress :=
  if pr.next ≤ pr.matched then { pr with matched := sub64 pr.next 1 } else pr

/-- The progress of a peer after its answer `m` to an append. -/
def respProgress (pr : Progress) (m : Message) : Option Progress :=
  (r.movedProgress pr m).map clampMatch

def handleAppendResp (m : Message) : Option Raft :=
  match Assoc.get m.src r.prs with
  | none => some r
  | some pr =>
    if m.term ≠ r.term then some r
    else do
      let r := r.ackReadRound m.readId m.src
      let pr ← r.respProgress pr m
      { r with prs := Assoc.set m.src pr r.prs }.maybeCommit

/-! ### Snapshots -/

def restoreSnapshot (snap : Snapshot) : Raft :=
  if snap.index = 0 then r
  else
    let r := { r with
      pendingSnapshot := some snap
      raftLog := RaftLog.restore snap.index snap.term
      committedCursor := snap.index }
    let r := r.setCommit (max snap.index r.commitIndex)
    let r := if r.term < snap.term then r.setTerm snap.term else r
    { r with currentSnapshot := some snap }

def handleSnapshot (m : Message) : Raft :=
  let reply : Message :=
    { type := .msgSnapResp, src := r.id, dst := m.src, term := r.term, readId := m.readId }
  match m.snapshot with
  | none => r.send { reply with reject := true }
  | some snap =>
    if m.term < r.term then r.send { reply with reject := true }
    else if snap.index ≤ r.raftLog.firstIndex then r.send { reply with reject := true }
    else
      let r := r.becomeFollower m.term m.src
      let r := { r with pendingSnapshot := some snap }.restoreSnapshot snap
      r.send { reply with reject := false }

def handleSnapshotResp (m : Message) : Raft :=
  if m.term ≠ r.term then r
  else
    let r := r.ackReadRound m.readId m.src
    if m.reject then r
    else if (Assoc.get m.src r.prs).isSome then
      { r with
        prs := Assoc.set m.src
          { next := r.raftLog.firstIndex + 1, matched := r.raftLog.firstIndex } r.prs }
    else r

/-- The progress update of a leader that compacted its log to `first`. -/
def compactProgress (first : ℕ) (pr : Progress) : Progress :=
  { next := if pr.next ≤ first then first + 1 else pr.next
    matched := if pr.matched < first then first else pr.matched }

def snapshot (index : ℕ) (data : Bytes) : Option Raft :=
  if index ≤ r.raftLog.firstIndex then some r
  else do
    let term ← r.raftLog.term index
    let r := { r with raftLog := r.raftLog.compactTo index term }
    let r := r.setCommit (max index r.commitIndex)
    let r := { r with committedCursor := max index r.committedCursor }
    let r := r.markHardStateChanged
    let r := if r.state = .leader then
        { r with prs := r.prs.map fun p => (p.1, compactProgress r.raftLog.firstIndex p.2) }
      else r
    some { r with currentSnapshot := some { term := term, index := index, data := data } }

/-! ### The interface -/

def restoreState (hs : HardState) (entries : List Entry) : Option Raft :=
  { r with hardState := hs, raftLog := r.raftLog.append entries }.emitCommittedEntries

/-- One tick; `rnd` is the value behind `rand.Intn`. -/
def tick (rnd : ℕ) : Option Raft :=
  if r.state = .leader then
    let r := { r with heartbeatElapsed := r.heartbeatElapsed + 1 }
    if r.heartbeatTimeout ≤ r.heartbeatElapsed then do
      let r ← { r with heartbeatElapsed := 0 }.bcastAppend 0
      r.retryReadRounds
    else some r
  else
    let r := { r with electionElapsed := r.electionElapsed + 1 }
    if r.electionTimeout + rnd % r.electionTimeout ≤ r.electionElapsed then
      { r with electionElapsed := 0 }.campaign
    else some r

/-- The first lines of `Step`: a message of a higher term makes the node its follower. -/
def catchUp (m : Message) : Raft := if r.term < m.term then r.becomeFollower m.term 0 else r

/-- Dispatch of a message whose term the node has caught up with. -/
def dispatch (m : Message) : Option Raft :=
  match r.state, m.type with
  | .leader, .msgHup => some r
  | _, .msgHup => r.campaign
  | .leader, .msgBeat => r.bcastAppend 0
  | _, .msgBeat => some r
  | .follower, .msgVote => some (r.handleVote m)
  | .follower, .msgApp => r.handleAppend m
  | .follower, .msgSnap => some (r.handleSnapshot m)
  | .candidate, .msgVoteResp => r.handleVoteResp m
  | .candidate, .msgVote => some (r.handleVote m)
  | .candidate, .msgApp => r.handleAppend m
  | .candidate, .msgSnap => some (r.handleSnapshot m)
  | .leader, .msgAppResp => r.handleAppendResp m
  | .leader, .msgSnapResp => some (r.handleSnapshotResp m)
  | _, _ => some r

def step (m : Message) : Option Raft := (r.catchUp m).dispatch m

def ready : Ready :=
  { hardState := r.pendingHardState
    entries := r.pendingEntries
    snapshot := r.pendingSnapshot
    committedEntries := r.committedEntries
    messages := r.msgs
    readStates := r.readStates }

def advance : Raft :=
  { r with
    pendingHardState := none, pendingEntries := [], pendingSnapshot := none
    committedEntries := [], msgs := [], readStates := [] }

end Raft

/-- A call on a node; `ready` takes the `Ready` and advances. -/
inductive Call where
  | step (m : Message)
  | tick (rnd : ℕ)
  | propose (data : Bytes)
  | readIndex (readID : ℕ)
  | cancelReadIndex (readID : ℕ)
  | snapshot (index : ℕ) (data : Bytes)
  | ready
  deriving DecidableEq

def Raft.call (r : Raft) : Call → Option Raft
  | .step m => r.step m
  | .tick rnd => r.tick rnd
  | .propose data => (r.propose data).map Prod.fst
  | .readIndex readID => (r.readIndex readID).map Prod.fst
  | .cancelReadIndex readID => some (r.cancelReadIndex readID)
  | .snapshot index data => r.snapshot index data
  | .ready => some r.advance

end Mizu
