import Mizu.Library.Reach
import Mizu.Store.Peer

/-!
# The workers of one store

`kv/raftstore/worker.go` and `kv/raftstore/apply.go` for one region. The raft worker
handles an event and then the `Ready` that it left; the apply worker takes its tasks
from a queue, one snapshot, one entry or one notification at a time, in between. The
process can crash at any point between two calls of the storage, and is then started
again from what is stored.

The calls that can fail take their outcomes from the action. Besides the state of the
program a host records history, which no step reads: what was handed to the transport,
the log with which each commit index was reached, what `propose` appended for a write
and how the futures of the writes were finished.
-/

namespace Mizu

/-- The state machine of a region, over states `σ`: what its calls do when they succeed.
`restore` is the state that the data of a snapshot stands for. -/
structure StateMachine (σ : Type) where
  unmarshals : Bytes → Bool
  applyCommand : Bytes → σ → σ
  createSnapshot : σ → Bytes
  restore : Bytes → σ

/-- `ApplySnapshot` of the region storages, which keeps everything when there is no data. -/
def StateMachine.applySnapshot {σ : Type} (M : StateMachine σ) (data : Bytes) (s : σ) : σ :=
  if data = [] then s else M.restore data

structure ApplyTask where
  snapshot : Option Snapshot := none
  entries : List Entry := []
  deriving DecidableEq, Repr

/-- The error that a proposal's future is finished with. -/
inductive WriteResult where
  | ok | marshal | notLeader | unmarshal | apply
  deriving DecidableEq, Repr

/-- A finished future, with the entry that was applied at the index of the proposal. -/
structure Completion where
  proposal : ℕ
  result : WriteResult
  entry : Option Entry := none
  deriving DecidableEq, Repr

/-- A message handed to the transport, with the memory and the storage at that moment. -/
structure Handout where
  msg : Message
  raft : Raft
  storage : RaftStorage

structure Host (σ : Type) where
  peer : Peer
  machine : σ
  applyTasks : List ApplyTask := []
  applying : Option ApplyTask := none
  snapshotTasks : List SnapshotTask := []
  canceled : List ℕ := []
  due : Bool := false
  crashed : Bool := false
  sent : List Handout := []
  reached : List (ℕ × RaftLog) := [(0, newRaftLog)]
  commands : ℕ := 0
  appended : List (ℕ × Entry) := []
  completed : List Completion := []

/-- The events of the raft worker. A command is a write with its marshalled request, if it
can be marshalled; a snapshot task is the oldest one that the apply worker has submitted. -/
inductive Event where
  | message (m : Message)
  | command (data : Option Bytes)
  | tick (rnd : ℕ)
  | snapshotTask
  | readIndex (request : ℕ)

namespace Host

variable {σ : Type} (M : StateMachine σ) (h : Host σ)

def raft : Raft := h.peer.raft
def storage : RaftStorage := h.peer.raftStorage

def isCanceled (request : ℕ) : Bool := request ∈ h.canceled

/-! ### The raft worker -/

/-- The outcome of the call that stopped the raft worker. -/
def stop (o : Outcome) : Host σ := { h with crashed := h.crashed || decide (o = .crash) }

def handleProposal (data : Option Bytes) : Option (Host σ) :=
  let proposal := h.commands
  let h := { h with commands := h.commands + 1 }
  match data with
  | none => some { h with completed := h.completed ++ [⟨proposal, .marshal, none⟩] }
  | some data => do
    let (peer, accepted) ← h.peer.propose data proposal
    if accepted then
      let entry : Entry := { term := h.raft.term, index := h.raft.raftLog.endIndex, data := data }
      some { h with peer := peer, appended := h.appended ++ [(proposal, entry)] }
    else
      some { h with
        peer := peer, completed := h.completed ++ [⟨proposal, .notLeader, none⟩] }

def handleSnapshotTask (os : List Outcome) : Option (Host σ) :=
  match h.snapshotTasks with
  | [] => some h
  | task :: tasks => do
    let (peer, o, _) ← h.peer.saveSnapshotAndCompact task os
    some ({ h with peer := peer, snapshotTasks := tasks }.stop o)

def dispatchEvent (os : List Outcome) : Event → Option (Host σ)
  | .message m => (h.peer.step h.isCanceled m).map fun p => { h with peer := p }
  | .command data => h.handleProposal data
  | .tick rnd => (h.peer.tick h.isCanceled rnd).map fun p => { h with peer := p }
  | .snapshotTask => h.handleSnapshotTask os
  | .readIndex request =>
    (h.peer.startLinearizableRead h.isCanceled request).map fun p => { h with peer := p }

/-- Record the log when the commit index has moved. -/
def recordReached (commit : ℕ) (r : Raft) (reached : List (ℕ × RaftLog)) : List (ℕ × RaftLog) :=
  if r.commitIndex = commit then reached else Assoc.set r.commitIndex r.raftLog reached

/-- Handle one event; its `Ready` is handled next. -/
def handleEvent (e : Event) (os : List Outcome) : Option (Host σ) :=
  (h.dispatchEvent os e).map fun h' =>
    { h' with due := true, reached := recordReached h.raft.commitIndex h'.raft h'.reached }

def sendMessages (messages : List Message) : Host σ :=
  { h with sent := h.sent ++ messages.map fun m => ⟨m, h.raft, h.storage⟩ }

/-- Hand the committed entries to the apply worker; this fails when the store stops. -/
def submitApply (rd : Ready) (o : Outcome) : Host σ × Outcome :=
  if isEmptySnap rd.snapshot ∧ rd.committedEntries = [] then
    (h, if o = .crash then .crash else .ok)
  else if o = .ok then
    ({ h with
      applyTasks := h.applyTasks ++ [{ snapshot := rd.snapshot, entries := rd.committedEntries }] },
      .ok)
  else (h, o)

def processReady (rd : Ready) (os : List Outcome) : Host σ × Outcome :=
  match RaftStorage.calls (Peer.persistReady rd) h.storage os with
  | (storage, .ok, os) =>
    let h := { h with peer := { h.peer with raftStorage := storage } }
    let h := h.sendMessages rd.messages
    match h.submitApply rd (os.head?.getD .ok) with
    | (h, .ok) => ({ h with peer := h.peer.handleReadStates h.isCanceled rd.readStates }, .ok)
    | (h, o) => (h, o)
  | (storage, o, _) => ({ h with peer := { h.peer with raftStorage := storage } }, o)

def handleReady (os : List Outcome) : Host σ :=
  let h := { h with due := false }
  let rd := h.raft.ready
  if rd.isEmpty then h
  else
    match h.processReady rd os with
    | (h, .ok) => { h with peer := { h.peer with raft := h.peer.raft.advance } }
    | (h, o) => h.stop o

/-! ### The apply worker -/

/-- `SnapshotThreshold`. -/
def snapshotThreshold : ℕ := 5

/-- Finish the future of the proposal that waits for the index of `entry`. -/
def completeProposal (entry : Entry) (result : WriteResult) : Host σ :=
  let (peer, proposal) := h.peer.takeProposal entry.index
  let h := { h with peer := peer }
  match proposal with
  | none => h
  | some proposal => { h with completed := h.completed ++ [⟨proposal, result, some entry⟩] }

def setAppliedIndex (index : ℕ) : Host σ :=
  { h with peer := { h.peer with appliedIndex := index } }

/-- The snapshot that is due is created and submitted to the raft worker. -/
def triggerSnapshot (created : Bool) : Host σ :=
  match h.peer.beginSnapshot snapshotThreshold with
  | none => h
  | some (peer, index) =>
    if created then
      { h with
        peer := peer
        snapshotTasks := h.snapshotTasks ++
          [{ index := index, data := M.createSnapshot h.machine }] }
    else { h with peer := peer.cancelSnapshot index }

/-- One round of the loop of `apply`; `ok` and `created` tell whether `ApplyCommand` and
`CreateSnapshot` succeed. -/
def applyEntry (entry : Entry) (ok created : Bool) : Host σ :=
  if entry.data = [] then h.setAppliedIndex entry.index
  else if M.unmarshals entry.data = false then
    (h.completeProposal entry .unmarshal).setAppliedIndex entry.index
  else if ok = false then
    (h.completeProposal entry .apply).setAppliedIndex entry.index
  else
    let h := { h with machine := M.applyCommand entry.data h.machine }
    ((h.completeProposal entry .ok).setAppliedIndex entry.index).triggerSnapshot M created

def applySnapshot (snap : Snapshot) (ok : Bool) : Host σ :=
  if ok then { h with machine := M.applySnapshot snap.data h.machine }.setAppliedIndex snap.index
    else h

/-- The next thing that the apply worker does: take a task, apply its snapshot, apply one
of its entries, or tell the waiting reads that the task is done. -/
def applyNext (ok created : Bool) : Host σ :=
  match h.applying with
  | none =>
    match h.applyTasks with
    | [] => h
    | task :: tasks => { h with applyTasks := tasks, applying := some task }
  | some { snapshot := some snap, entries := es } =>
    let h := { h with applying := some { entries := es } }
    if isEmptySnap (some snap) then h else h.applySnapshot M snap ok
  | some { snapshot := none, entries := e :: es } =>
    { h with applying := some { entries := es } }.applyEntry M e ok created
  | some { snapshot := none, entries := [] } =>
    { h with applying := none, peer := h.peer.notifyAppliedReads h.isCanceled }

/-! ### Restarts -/

/-- A new process with the storage of the old one. -/
def restart (cfg : Config) : Option (Host σ) := do
  let peer ← newPeer cfg h.storage
  some { h with
    peer := peer, applyTasks := [], applying := none, snapshotTasks := [], due := false
    crashed := false, reached := [(peer.raft.commitIndex, peer.raft.raftLog)] }

/-! ### Runs -/

inductive Action where
  | event (e : Event) (os : List Outcome)
  | ready (os : List Outcome)
  | apply (ok created : Bool)
  | cancel (request : ℕ)
  | crash
  | restart

/-- The effect of an action; `none` where the process panics. -/
def act (cfg : Config) : Action → Option (Host σ)
  | .event e os => h.handleEvent e os
  | .ready os => some (h.handleReady os)
  | .apply ok created => some (h.applyNext M ok created)
  | .cancel request => some { h with canceled := request :: h.canceled }
  | .crash => some { h with crashed := true }
  | .restart => h.restart cfg

/-- The raft worker alternates between an event and its `Ready`; a crashed process can
only be restarted. -/
def Enabled : Action → Prop
  | .event _ _ => h.crashed = false ∧ h.due = false
  | .ready _ => h.crashed = false ∧ h.due = true
  | .apply _ _ => h.crashed = false
  | .cancel _ => True
  | .crash => True
  | .restart => h.crashed = true

instance (a : Action) : Decidable (h.Enabled a) := by
  cases a <;> unfold Enabled <;> infer_instance

/-- A new process on an empty storage. -/
def start (cfg : Config) (machine : σ) : Host σ :=
  { peer := { raft := newRaft cfg }, machine := machine }

/-- The runs of one store. -/
def system (cfg : Config) : TransitionSystem (Host σ) Action where
  init h := ∃ machine, h = start cfg machine
  step h a h' := h.Enabled a ∧ h.act M cfg a = some h'

variable {M}

/-- A property that a computed run ends with holds in some reachable state. -/
theorem exists_reach (cfg : Config) (machine : σ) (G : Host σ → Action → Prop)
    [∀ h a, Decidable (G h a)] (P : Host σ → Prop) [DecidablePred P] (as : List Action)
    (hP : (TransitionSystem.exec (TransitionSystem.guarded G Enabled fun h => h.act M cfg)
      (start cfg machine) as).any (fun h => P h) = true) : ∃ h, (system M cfg).Reach G h ∧ P h :=
  TransitionSystem.exists_reach (S := system M cfg) (fun _ _ _ he ha => ⟨he, ha⟩) ⟨machine, rfl⟩
    P as hP

end Host

/-- A state machine without a state. -/
def StateMachine.unit : StateMachine Unit where
  unmarshals _ := true
  applyCommand _ _ := ()
  createSnapshot _ := []
  restore _ := ()

/-- Node 1 of three, with the timeouts that a peer is created with. -/
def threeNodes : Config := { id := 1, peers := [1, 2, 3] }

end Mizu
