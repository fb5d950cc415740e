import Mizu.Store.Read
import Mizu.Store.Storage

/-!
# A region replica

`kv/raftstore/peer.go`: a Raft node with its storage, the writes and reads that wait
on it, and the watermarks that the raft worker and the apply worker share. The leader
hint that is published for routing and the region's key range are left out.

A function that writes to the storage takes the outcomes of its calls and returns the
outcomes that are left over.
-/

namespace Mizu

structure Peer where
  raft : Raft
  raftStorage : RaftStorage := {}
  appliedIndex : ℕ := 0
  lastSnapshotIndex : ℕ := 0
  pendingSnapshot : ℕ := 0
  pendingProposals : List (ℕ × ℕ) := []
  reads : ReadTracker := {}

/-- A snapshot that the apply worker has made for the raft worker to save. -/
structure SnapshotTask where
  index : ℕ
  data : Bytes
  deriving DecidableEq, Repr

/-- The Raft node that `NewPeer` builds from what is stored. -/
def restoreRaft (cfg : Config) (storage : RaftStorage) : Option Raft :=
  let raft := newRaft cfg
  let snapshot := storage.loadSnapshot
  let hardState := storage.hardState
  let start := ((snapshot.map Snapshot.index).getD 0 + 1) % 2 ^ 64
  let raft := snapshot.elim raft raft.restoreSnapshot
  if hardState.isEmpty then some raft
  else raft.restoreState hardState
    (storage.loadEntries start ((hardState.commitIndex + 1) % 2 ^ 64))

def newPeer (cfg : Config) (storage : RaftStorage) : Option Peer := do
  let raft ← restoreRaft cfg storage
  some
    { raft := raft, raftStorage := storage
      lastSnapshotIndex := (storage.loadSnapshot.map Snapshot.index).getD 0 }

namespace Peer

variable (p : Peer)

/-! ### Reads -/

def cancelReadIndexes (ids : List ℕ) : Peer :=
  { p with raft := ids.foldl (fun r id => r.cancelReadIndex id) p.raft }

def finishReadRequestsIfNotLeader (canceled : ℕ → Bool) : Peer :=
  if p.raft.state = .leader then p
  else
    let (reads, ids) := p.reads.failIfNotLeader canceled
    { p with reads := reads }.cancelReadIndexes ids

def pruneCanceledReadRequests (canceled : ℕ → Bool) : Peer :=
  let (reads, ids) := p.reads.pruneCanceled canceled
  { p with reads := reads }.cancelReadIndexes ids

def startLinearizableRead (canceled : ℕ → Bool) (request : ℕ) : Option Peer :=
  if canceled request then some { p with reads := p.reads.finish request .canceled }
  else do
    let (reads, readID) := p.reads.start request
    let (raft, started) ← p.raft.readIndex readID
    let p := { p with raft := raft, reads := reads }
    if started then some p else some { p with reads := p.reads.reject readID .notLeader }

def handleReadStates (canceled : ℕ → Bool) (states : List ReadState) : Peer :=
  { p with reads := p.reads.handleStates canceled p.appliedIndex states }

def notifyAppliedReads (canceled : ℕ → Bool) : Peer :=
  { p with reads := p.reads.notifyApplied canceled p.appliedIndex }

/-! ### Events -/

def tick (canceled : ℕ → Bool) (rnd : ℕ) : Option Peer := do
  let p := p.pruneCanceledReadRequests canceled
  let raft ← p.raft.tick rnd
  some ({ p with raft := raft }.finishReadRequestsIfNotLeader canceled)

def step (canceled : ℕ → Bool) (m : Message) : Option Peer := do
  let raft ← p.raft.step m
  some ({ p with raft := raft }.finishReadRequestsIfNotLeader canceled)

/-- Append `data` and record the proposal under the index that Raft assigned. -/
def propose (data : Bytes) (proposal : ℕ) : Option (Peer × Bool) := do
  let (raft, accepted) ← p.raft.propose data
  if accepted then
    some ({ p with
      raft := raft
      pendingProposals := Assoc.set raft.raftLog.lastIndex proposal p.pendingProposals }, true)
  else some ({ p with raft := raft }, false)

/-- The proposal applied at `index` leaves the map. -/
def takeProposal (index : ℕ) : Peer × Option ℕ :=
  ({ p with pendingProposals := Assoc.erase index p.pendingProposals },
    Assoc.get index p.pendingProposals)

/-! ### Storage -/

/-- The storage calls of `persistReady`, in order. -/
def persistReady (rd : Ready) : List (RaftStorage → RaftStorage) :=
  let hardState : List (RaftStorage → RaftStorage) := match rd.hardState with
    | some hs => if hs.isEmpty then [] else [fun s => s.saveHardState hs]
    | none => []
  let entries : List (RaftStorage → RaftStorage) :=
    if rd.entries = [] then [] else [fun s => s.saveEntries rd.entries]
  let snapshot : List (RaftStorage → RaftStorage) := match rd.snapshot with
    | some snap => if isEmptySnap (some snap) then [] else [fun s => s.saveSnapshot snap]
    | none => []
  hardState ++ entries ++ snapshot

/-- `CompareAndSwap` of the pending snapshot. -/
def cancelSnapshot (index : ℕ) : Peer :=
  if p.pendingSnapshot = index then { p with pendingSnapshot := 0 } else p

/-- Save a locally created snapshot, then compact the log in memory and in the storage. -/
def saveSnapshotAndCompact (task : SnapshotTask) (os : List Outcome) :
    Option (Peer × Outcome × List Outcome) :=
  let snapshot : Snapshot := { term := p.raft.term, index := task.index, data := task.data }
  match RaftStorage.calls [fun s => s.saveSnapshot snapshot] p.raftStorage os with
  | (storage, .ok, os) => do
    let raft ← p.raft.snapshot task.index task.data
    let p := { p with raft := raft, raftStorage := storage }
    match RaftStorage.calls [fun s => s.compact task.index] p.raftStorage os with
    | (storage, .ok, os) =>
      some ({ p with raftStorage := storage, lastSnapshotIndex := task.index }.cancelSnapshot
        task.index, .ok, os)
    | (storage, o, os) => some ({ p with raftStorage := storage }.cancelSnapshot task.index, o, os)
  | (storage, o, os) => some ({ p with raftStorage := storage }.cancelSnapshot task.index, o, os)

/-- Reserve the next locally created snapshot, at the applied index. -/
def beginSnapshot (threshold : ℕ) : Option (Peer × ℕ) :=
  if p.appliedIndex < p.lastSnapshotIndex ∨ p.appliedIndex - p.lastSnapshotIndex < threshold then
    none
  else if p.pendingSnapshot ≠ 0 then none
  else some ({ p with pendingSnapshot := p.appliedIndex }, p.appliedIndex)

end Peer

end Mizu
