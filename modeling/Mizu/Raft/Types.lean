import Mathlib.Tactic

/-!
# Raft data types

The records of `raft/types.go` and of the `raftpb` messages. A `uint64` is a
natural number; the two operations that can leave the range of the machine type
on reachable inputs, a subtraction below zero and the increment of the largest
term, wrap explicitly.
-/

namespace Mizu

/-- `a - b` on `uint64`: a subtraction below zero wraps around. -/
def sub64 (a b : ℕ) : ℕ := if b ≤ a then a - b else a + 2 ^ 64 - b

theorem sub64_of_le {a b : ℕ} (h : b ≤ a) : sub64 a b = a - b := by
  simp [sub64, h]

/-- `term++` on `uint64`. -/
def nextTerm (t : ℕ) : ℕ := (t + 1) % 2 ^ 64

theorem nextTerm_of_lt {t : ℕ} (h : t + 1 < 2 ^ 64) : nextTerm t = t + 1 :=
  Nat.mod_eq_of_lt h

theorem nextTerm_ne (t : ℕ) : nextTerm t ≠ t := by
  unfold nextTerm
  omega

abbrev Bytes := List UInt8

structure Entry where
  term : ℕ := 0
  index : ℕ := 0
  data : Bytes := []
  deriving DecidableEq, Repr

structure Snapshot where
  data : Bytes := []
  index : ℕ := 0
  term : ℕ := 0
  deriving DecidableEq, Repr

inductive MsgType where
  | msgHup | msgBeat | msgApp | msgAppResp | msgVote | msgVoteResp | msgSnap | msgSnapResp
  deriving DecidableEq, Repr

/-- `raftpb.Message`; `src` and `dst` are the fields `From` and `To`. -/
structure Message where
  type : MsgType
  src : ℕ := 0
  dst : ℕ := 0
  term : ℕ := 0
  logTerm : ℕ := 0
  logIndex : ℕ := 0
  commit : ℕ := 0
  entries : List Entry := []
  reject : Bool := false
  readId : ℕ := 0
  snapshot : Option Snapshot := none
  deriving DecidableEq, Repr

inductive StateType where
  | follower | candidate | leader
  deriving DecidableEq, Repr

/-- The Raft state that has to be persisted. -/
structure HardState where
  term : ℕ := 0
  vote : ℕ := 0
  commitIndex : ℕ := 0
  deriving DecidableEq, Repr

def HardState.isEmpty (hs : HardState) : Bool :=
  hs.term = 0 ∧ hs.vote = 0 ∧ hs.commitIndex = 0

/-- Replication progress of one peer; `matched` is the field `Match`. -/
structure Progress where
  matched : ℕ := 0
  next : ℕ := 1
  deriving DecidableEq, Repr

/-- A quorum-confirmed index for one linearizable read. -/
structure ReadState where
  readID : ℕ
  index : ℕ
  deriving DecidableEq, Repr

/-- Quorum confirmation of one `ReadIndex` request. -/
structure ReadRound where
  index : ℕ := 0
  started : Bool := false
  acks : List ℕ := []
  deriving DecidableEq, Repr

/-- The boundary between Raft and the application. -/
structure Ready where
  hardState : Option HardState
  entries : List Entry
  snapshot : Option Snapshot
  committedEntries : List Entry
  messages : List Message
  readStates : List ReadState
  deriving DecidableEq, Repr

def Ready.isEmpty (rd : Ready) : Bool :=
  rd.hardState = none ∧ rd.entries = [] ∧ rd.snapshot = none ∧
    rd.committedEntries = [] ∧ rd.messages = [] ∧ rd.readStates = []

def isLocalMsg (t : MsgType) : Bool := t = .msgHup ∨ t = .msgBeat

/-- `IsEmptySnap`: a missing snapshot and one with index zero are empty. -/
def isEmptySnap : Option Snapshot → Bool
  | none => true
  | some s => s.index = 0

end Mizu
