import Mizu.Raft.Node

/-!
# The read tracker

`kv/raftstore/read.go`. A linearizable read waits for its quorum confirmation, then for
the apply worker, and is finished with a result. Requests are numbered; whether the
context of a request is done is told by the caller.
-/

namespace Mizu

/-- How a read ends. A read that is released at `index` has a nil error. -/
inductive ReadResult where
  | ok (index : ℕ)
  | canceled
  | notLeader
  deriving DecidableEq, Repr

structure PendingRead where
  index : ℕ
  request : ℕ
  deriving DecidableEq, Repr

structure ReadTracker where
  nextID : ℕ := 0
  quorum : List (ℕ × ℕ) := []
  apply : List PendingRead := []
  finished : List (ℕ × ReadResult) := []
  deriving DecidableEq, Repr

namespace ReadTracker

variable (t : ReadTracker)

def finish (request : ℕ) (result : ReadResult) : ReadTracker :=
  { t with finished := t.finished ++ [(request, result)] }

/-- A fresh read ID for the request; zero is passed over when the counter wraps. -/
def start (request : ℕ) : ReadTracker × ℕ :=
  let next := (t.nextID + 1) % 2 ^ 64
  let next := if next = 0 then 1 else next
  ({ t with nextID := next, quorum := Assoc.set next request t.quorum }, next)

def reject (readID : ℕ) (result : ReadResult) : ReadTracker :=
  let erased := { t with quorum := Assoc.erase readID t.quorum }
  match Assoc.get readID t.quorum with
  | none => erased
  | some request => erased.finish request result

/-- One confirmed read of `handleStates`. -/
def handleState (canceled : ℕ → Bool) (appliedIndex : ℕ) (state : ReadState) : ReadTracker :=
  match Assoc.get state.readID t.quorum with
  | none => t
  | some request =>
    let t := { t with quorum := Assoc.erase state.readID t.quorum }
    if canceled request then t.finish request .canceled
    else if state.index ≤ appliedIndex then t.finish request (.ok state.index)
    else { t with apply := t.apply ++ [{ index := state.index, request := request }] }

def handleStates (canceled : ℕ → Bool) (appliedIndex : ℕ) (states : List ReadState) : ReadTracker :=
  states.foldl (fun t state => t.handleState canceled appliedIndex state) t

/-- What becomes of a read that waits for the apply worker; `none` if it goes on waiting. -/
def appliedResult (canceled : ℕ → Bool) (appliedIndex : ℕ) (read : PendingRead) :
    Option ReadResult :=
  if canceled read.request then some .canceled
  else if read.index ≤ appliedIndex then some (.ok read.index)
  else none

def notifyApplied (canceled : ℕ → Bool) (appliedIndex : ℕ) : ReadTracker :=
  { t with
    apply := t.apply.filter fun read => (appliedResult canceled appliedIndex read).isNone
    finished := t.finished ++ t.apply.filterMap fun read =>
      (appliedResult canceled appliedIndex read).map fun result => (read.request, result) }

/-- All reads that wait for a quorum are finished; their read IDs are returned. -/
def failIfNotLeader (canceled : ℕ → Bool) : ReadTracker × List ℕ :=
  ({ t with
      quorum := []
      finished := t.finished ++ t.quorum.map fun p =>
        (p.2, if canceled p.2 then .canceled else .notLeader) },
    Assoc.keys t.quorum)

/-- The canceled reads are finished; the read IDs of those that wait for a quorum are
returned. -/
def pruneCanceled (canceled : ℕ → Bool) : ReadTracker × List ℕ :=
  ({ t with
      quorum := t.quorum.filter fun p => !canceled p.2
      apply := t.apply.filter fun read => !canceled read.request
      finished := t.finished ++
        (t.quorum.filter fun p => canceled p.2).map (fun p => (p.2, .canceled)) ++
        (t.apply.filter fun read => canceled read.request).map fun read =>
          (read.request, .canceled) },
    Assoc.keys (t.quorum.filter fun p => canceled p.2))

end ReadTracker

end Mizu
