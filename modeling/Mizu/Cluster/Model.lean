import Mizu.Library.Reach
import Mizu.Raft.Node
import Mathlib.Logic.Function.Basic

/-!
# A cluster of Raft nodes

The nodes share one network, which keeps every message ever sent: a message can
be delivered at any later time, any number of times, or never. Besides the nodes
and the network the state records history: who has led which term, which packets
were delivered, and what each node handed to its application. The history is
never read by a step.
-/

namespace Mizu

/-- A fixed set of nodes with their timeouts. -/
structure Setup where
  ids : List ℕ
  electionTimeout : ℕ → ℕ := fun _ => 0
  heartbeatTimeout : ℕ → ℕ := fun _ => 0
  nonempty : ids ≠ []
  nodup : ids.Nodup
  ne_zero : 0 ∉ ids

/-- A message on the network, with the log its sender had when it was sent. -/
structure Packet where
  msg : Message
  log : RaftLog
  deriving DecidableEq

structure Cluster where
  nodes : ℕ → Raft
  net : List Packet := []
  led : List (ℕ × ℕ) := []
  delivered : List ℕ := []
  readies : ℕ → List Ready := fun _ => []

inductive Action where
  | tick (i rnd : ℕ)
  | propose (i : ℕ) (data : Bytes)
  | readIndex (i readID : ℕ)
  | cancelReadIndex (i readID : ℕ)
  | snapshot (i index : ℕ) (data : Bytes)
  | ready (i : ℕ)
  | deliver (k : ℕ)

/-- The node that a tick is for. -/
def Action.ticks : Action → Option ℕ
  | .tick i _ => some i
  | _ => none

namespace Cluster

variable (c : Cluster)

/-- Node `i` becomes `r`: its new messages enter the network, and the term is
recorded when it is now the leader. -/
def put (i : ℕ) (r : Raft) : Cluster :=
  { c with
    nodes := Function.update c.nodes i r
    net := c.net ++ (r.msgs.drop (c.nodes i).msgs.length).map fun m => ⟨m, r.raftLog⟩
    led := if r.state = .leader then (r.term, i) :: c.led else c.led }

/-- Node `i` hands its `Ready` to the application, which processes it and advances. -/
def take (i : ℕ) : Cluster :=
  { c.put i (c.nodes i).advance with
    readies := Function.update c.readies i (c.readies i ++ [(c.nodes i).ready]) }

/-- The effect of an action; `none` where the node panics. -/
def act : Action → Option Cluster
  | .tick i rnd => ((c.nodes i).tick rnd).map (c.put i)
  | .propose i data => ((c.nodes i).propose data).map fun p => c.put i p.1
  | .readIndex i readID => ((c.nodes i).readIndex readID).map fun p => c.put i p.1
  | .cancelReadIndex i readID => some (c.put i ((c.nodes i).cancelReadIndex readID))
  | .snapshot i index data => ((c.nodes i).snapshot index data).map (c.put i)
  | .ready i => some (c.take i)
  | .deliver k => do
    let p ← c.net[k]?
    let r ← (c.nodes p.msg.dst).step p.msg
    some { c.put p.msg.dst r with delivered := k :: c.delivered }

/-- The node that an action is taken at, and the call on it. -/
def call : Action → Option (ℕ × Call)
  | .tick i rnd => some (i, .tick rnd)
  | .propose i data => some (i, .propose data)
  | .readIndex i readID => some (i, .readIndex readID)
  | .cancelReadIndex i readID => some (i, .cancelReadIndex readID)
  | .snapshot i index data => some (i, .snapshot index data)
  | .ready i => some (i, .ready)
  | .deliver k => c.net[k]?.map fun p => (p.msg.dst, .step p.msg)

/-- The entries node `i` has handed to its application, in order. -/
def emitted (i : ℕ) : List Entry := (c.readies i).flatMap Ready.committedEntries

/-- A condition on the packet that an action delivers. -/
def Delivering (P : Packet → Prop) : Action → Prop
  | .deliver k => ∀ p ∈ c.net[k]?, P p
  | _ => True

instance (P : Packet → Prop) [DecidablePred P] (a : Action) : Decidable (c.Delivering P a) :=
  match a with
  | .deliver k => inferInstanceAs (Decidable (∀ p ∈ c.net[k]?, P p))
  | .tick .. | .propose .. | .readIndex .. | .cancelReadIndex .. | .snapshot .. | .ready .. =>
    instDecidableTrue

/-- No term has been led by two nodes. -/
def UniqueLeaders : Prop := ∀ t i j, (t, i) ∈ c.led → (t, j) ∈ c.led → i = j

instance : Decidable c.UniqueLeaders :=
  decidable_of_iff (∀ x ∈ c.led, ∀ y ∈ c.led, x.1 = y.1 → x.2 = y.2)
    ⟨fun h t i j hi hj => h (t, i) hi (t, j) hj rfl,
      fun h x hx y hy hxy => h x.1 x.2 y.2 hx (hxy ▸ hy)⟩

end Cluster

namespace Setup

variable (S : Setup)

def config (i : ℕ) : Config :=
  { id := i, peers := S.ids, electionTimeout := S.electionTimeout i
    heartbeatTimeout := S.heartbeatTimeout i }

def start : Cluster := { nodes := fun i => newRaft (S.config i) }

/-- When an action can be taken. A snapshot is taken at an index the node has
already emitted. -/
def Enabled (c : Cluster) : Action → Prop
  | .tick i _ => i ∈ S.ids
  | .propose i _ => i ∈ S.ids
  | .readIndex i _ => i ∈ S.ids
  | .cancelReadIndex i _ => i ∈ S.ids
  | .snapshot i index _ => i ∈ S.ids ∧ ∃ e ∈ c.emitted i, e.index = index
  | .ready i => i ∈ S.ids
  | .deliver k => ∃ p, c.net[k]? = some p ∧ p.msg.dst ∈ S.ids

instance (c : Cluster) (a : Action) : Decidable (S.Enabled c a) :=
  match a with
  | .tick _ _ => inferInstanceAs (Decidable (_ ∈ _))
  | .propose _ _ => inferInstanceAs (Decidable (_ ∈ _))
  | .readIndex _ _ => inferInstanceAs (Decidable (_ ∈ _))
  | .cancelReadIndex _ _ => inferInstanceAs (Decidable (_ ∈ _))
  | .snapshot _ _ _ => inferInstanceAs (Decidable (_ ∧ _))
  | .ready _ => inferInstanceAs (Decidable (_ ∈ _))
  | .deliver k =>
    match h : c.net[k]? with
    | none => isFalse (by simp [Enabled, h])
    | some p => decidable_of_iff (p.msg.dst ∈ S.ids) (by simp [Enabled, h])

/-- The counters stay in `uint64`: no log reaches its last index, and no tick is made in its
last term. -/
def Fits (c : Cluster) (a : Action) : Prop :=
  (∀ i ∈ S.ids, (c.nodes i).raftLog.endIndex < 2 ^ 64) ∧ ∀ i ∈ a.ticks, (c.nodes i).term + 1 <
    2 ^ 64

instance (c : Cluster) (a : Action) : Decidable (S.Fits c a) :=
  inferInstanceAs (Decidable (_ ∧ ∀ i ∈ a.ticks, _))

/-- A condition on the actions of a run whose counters stay in `uint64`. -/
def Within (P : Cluster → Action → Prop) (c : Cluster) (a : Action) : Prop := S.Fits c a ∧ P c a

instance (P : Cluster → Action → Prop) [∀ c a, Decidable (P c a)] (c : Cluster) (a : Action) :
    Decidable (S.Within P c a) :=
  inferInstanceAs (Decidable (_ ∧ _))

/-- The runs of the cluster. -/
def system : TransitionSystem Cluster Action where
  init c := c = S.start
  step c a c' := S.Enabled c a ∧ c.act a = some c'

/-- A property that a computed run ends with holds in some reachable state. -/
theorem exists_reach (G : Cluster → Action → Prop) [∀ c a, Decidable (G c a)] (P : Cluster → Prop)
    [DecidablePred P] (as : List Action)
    (h : (TransitionSystem.exec (TransitionSystem.guarded G S.Enabled Cluster.act) S.start as).any
      (fun c => P c) = true) : ∃ c, S.system.Reach G c ∧ P c :=
  TransitionSystem.exists_reach (S := S.system) (fun _ _ _ he ha => ⟨he, ha⟩) rfl P as h

end Setup

/-- Three nodes with the shortest timeouts. -/
def trio : Setup where
  ids := [1, 2, 3]
  electionTimeout _ := 1
  heartbeatTimeout _ := 1
  nonempty := by decide
  nodup := by decide
  ne_zero := by decide

end Mizu
