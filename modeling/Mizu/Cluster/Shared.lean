import Mizu.Cluster.Steps

/-!
# Messages that share the array of a log

The entries of a `MsgApp` are a part of the array in which the log of the sender lies, and until
the message leaves with a `Ready` it shows what the sender writes there. `append` writes in place
where the capacity suffices and otherwise into a new array, as `CompactTo` and `Restore` always do.
Where no step writes over such a message, the runs are those of the cluster, in which messages have
entries of their own.
-/

namespace Mizu

open Cluster

/-- The capacity that `append` gives a new array, from the old one and the length needed. -/
structure Growth where
  grow : ℕ → ℕ → ℕ
  fits : ∀ capacity length, length ≤ grow capacity length

/-- Small arrays double. -/
def doubling : Growth := ⟨fun capacity length => max (2 * capacity) length,
    fun _ _ => le_max_right _ _⟩

/-- For each node the capacity of the array of its log, and the packets with entries in it. -/
structure Shared extends Cluster where
  capacity : ℕ → ℕ := fun _ => 1
  views : ℕ → List ℕ := fun _ => []

/-- What a message shows whose entries lie in the array of `l`: behind the end of the log there is
still what was there before. -/
def Message.seen (l : RaftLog) (m : Message) : Message :=
  { m with entries := m.entries.mapIdx fun n e => (l.entry (m.logIndex + 1 + n)).getD e }

def Cluster.actor (c : Cluster) (a : Action) : ℕ := ((c.call a).map Prod.fst).getD 0

namespace Shared

variable (g : Growth) (s : Shared)

/-- The log of node `i` in `c` lies in the array that it lay in before. -/
def InPlace (c : Cluster) (i : ℕ) : Prop :=
  (c.nodes i).raftLog.offset = (s.nodes i).raftLog.offset ∧
    (c.nodes i).raftLog.entries.length ≤ s.capacity i

instance (c : Cluster) (i : ℕ) : Decidable (s.InPlace c i) := inferInstanceAs (Decidable (_ ∧ _))

/-- The capacity after node `i` has become what it is in `c`. -/
def room (c : Cluster) (i : ℕ) : ℕ :=
  let old := if (c.nodes i).raftLog.offset = (s.nodes i).raftLog.offset then s.capacity i else 1
  let length := (c.nodes i).raftLog.entries.length
  if length ≤ old then old else g.grow old length

/-- Node `i` has become what it is in `c`: the packets in its array show the new log, and those that
it has sent in this step have their entries there. -/
def follow (c : Cluster) (i : ℕ) : Shared :=
  let kept := if s.InPlace c i then s.views i else []
  let sent := (List.range c.net.length).drop s.net.length
  { toCluster := { c with
      net := c.net.mapIdx fun k p =>
        if k ∈ kept then { p with msg := p.msg.seen (c.nodes i).raftLog } else p }
    capacity := Function.update s.capacity i (s.room g c i)
    views := Function.update s.views i (kept ++ sent) }

def act (a : Action) : Option Shared := do
  let c ← s.toCluster.act a
  match a with
  | .ready i => some { s with toCluster := c, views := Function.update s.views i [] }
  | _ => some (s.follow g c (s.actor a))

/-- The step writes over no entry of a packet that lies in the array of the node's log. -/
def Spared (a : Action) : Prop :=
  ∀ c ∈ s.toCluster.act a, ∀ k ∈ s.views (s.actor a), ∀ p ∈ c.net[k]?,
    p.msg.seen (c.nodes (s.actor a)).raftLog = p.msg

instance (a : Action) : Decidable (s.Spared a) :=
  inferInstanceAs (Decidable (∀ c ∈ s.toCluster.act a, ∀ k ∈ s.views (s.actor a),
    ∀ p ∈ c.net[k]?, p.msg.seen (c.nodes (s.actor a)).raftLog = p.msg))

variable {g s} {s' : Shared} {a : Action}

theorem follow_cluster {c : Cluster} {i : ℕ} (h : ∀ k ∈ s.views i, ∀ p ∈ c.net[k]?,
    p.msg.seen (c.nodes i).raftLog = p.msg) : (s.follow g c i).toCluster = c := by
  have hnet : (c.net.mapIdx fun k p => if k ∈ (if s.InPlace c i then s.views i else []) then
      { p with msg := p.msg.seen (c.nodes i).raftLog } else p) = c.net := by
    refine List.ext_getElem? fun k => ?_
    rw [List.getElem?_mapIdx]
    cases hp : c.net[k]? with
    | none => rfl
    | some p =>
      rw [Option.map_some]
      split_ifs with _ hk
      · rw [h k hk p hp]
      · rfl
      · exact absurd ‹k ∈ []› List.not_mem_nil
      · rfl
  unfold follow
  dsimp only
  rw [hnet]

/-- A step that spares the messages is a step of the cluster. -/
theorem act_cluster (h : s.act g a = some s') (hs : s.Spared a) :
    s.toCluster.act a = some s'.toCluster := by
  obtain ⟨c, hc, h⟩ := Option.bind_eq_some_iff.mp h
  rw [hc]
  cases a with
  | ready i =>
    cases h
    rfl
  | _ =>
    rw [← Option.some.inj h, follow_cluster (hs c hc)]

end Shared

namespace Setup

variable (S : Setup) (g : Growth)

/-- The runs of the cluster with its arrays. -/
def shared : TransitionSystem Shared Action where
  init s := s = { S.start with }
  step s a s' := S.Enabled s.toCluster a ∧ s.act g a = some s'

/-- A condition on the actions of a run in which the counters stay in `uint64` and no message is
written over. -/
def Sparing (P : Cluster → Action → Prop) (s : Shared) (a : Action) : Prop :=
  s.Spared a ∧ S.Within P s.toCluster a

instance (P : Cluster → Action → Prop) [∀ c a, Decidable (P c a)] (s : Shared) (a : Action) :
    Decidable (S.Sparing P s a) :=
  inferInstanceAs (Decidable (_ ∧ _))

variable {S g}

/-- The runs in which no message is written over are runs of the cluster. -/
theorem reach_cluster {P : Cluster → Action → Prop} {s : Shared}
    (h : (S.shared g).Reach (S.Sparing P) s) : S.system.Reach (S.Within P) s.toCluster := by
  refine h.induct (I := fun s => S.system.Reach (S.Within P) s.toCluster) ?_ ?_
  · rintro s rfl
    exact .init rfl
  · rintro s a s' - ih hg ⟨hen, hact⟩
    exact .step ih hg.2 ⟨hen, Shared.act_cluster hact hg.1⟩

/-- A property that a computed run ends with holds in some reachable state. -/
theorem exists_shared (S : Setup) (G : Shared → Action → Prop) [∀ s a, Decidable (G s a)]
    (P : Shared → Prop) [DecidablePred P] (as : List Action)
    (h : (TransitionSystem.exec (TransitionSystem.guarded G (fun s => S.Enabled s.toCluster)
      (Shared.act doubling)) { S.start with } as).any (fun s => P s) = true) :
    ∃ s, (S.shared doubling).Reach G s ∧ P s :=
  TransitionSystem.exists_reach (S := S.shared doubling) (fun _ _ _ he ha => ⟨he, ha⟩) rfl P as h

end Setup

end Mizu
