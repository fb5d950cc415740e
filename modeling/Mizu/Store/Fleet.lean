import Mizu.Store.WriteAhead

/-!
# Stores that talk to each other

The hosts of one region. A host is delivered only messages that another host has handed
to its transport; besides that it runs on its own.
-/

namespace Mizu

structure Fleet (σ : Type) where
  hosts : ℕ → Host σ

namespace Fleet

variable {σ : Type} (M : StateMachine σ) (ids : List ℕ) (f : Fleet σ)

/-- The configuration that `NewPeer` gives to node `i`. -/
def config (i : ℕ) : Config := { id := i, peers := ids }

inductive Action where
  | host (i : ℕ) (a : Host.Action)
  | deliver (i k : ℕ)

/-- Message `k` that host `i` has handed out. -/
def message (i k : ℕ) : Option Message := (f.hosts i).sent[k]?.map Handout.msg

def run (i : ℕ) (a : Host.Action) : Option (Fleet σ) :=
  ((f.hosts i).act M (config ids i) a).map fun h => { f with hosts := Function.update f.hosts i h }

def act : Action → Option (Fleet σ)
  | .host i a => f.run M ids i a
  | .deliver i k => do
    let m ← f.message i k
    f.run M ids m.dst (.event (.message m) [])

/-- What a host does without the network. -/
def Local : Host.Action → Prop
  | .event (.message _) _ => False
  | _ => True

instance (a : Host.Action) : Decidable (Local a) := by
  induction a using Host.Action.casesOn with
  | event e _ => induction e using Event.casesOn <;> dsimp only [Local] <;> infer_instance
  | _ => dsimp only [Local]; infer_instance

def Enabled : Action → Prop
  | .host i a => i ∈ ids ∧ Local a ∧ (f.hosts i).Enabled a
  | .deliver i k => i ∈ ids ∧ ∃ m ∈ f.message i k, m.dst ∈ ids ∧
      (f.hosts m.dst).Enabled (.event (.message m) [])

instance (a : Action) : Decidable (f.Enabled ids a) := by
  cases a with
  | host i a => exact inferInstanceAs (Decidable (_ ∧ _))
  | deliver i k =>
    refine @instDecidableAnd _ _ inferInstance ?_
    match h : f.message i k with
    | none => exact isFalse (by simp)
    | some m =>
      exact decidable_of_iff (m.dst ∈ ids ∧ (f.hosts m.dst).Enabled (.event (.message m) []))
        (by simp)

/-- All nodes start with an empty storage. -/
def start (machine : σ) : Fleet σ := { hosts := fun i => .start (config ids i) machine }

/-- The runs of the hosts of one region. -/
def system : TransitionSystem (Fleet σ) Action where
  init f := ∃ machine, f = start ids machine
  step f a f' := f.Enabled ids a ∧ f.act M ids a = some f'

variable {M ids}

/-- A property that a computed run ends with holds in some reachable state. -/
theorem exists_reach (machine : σ) (G : Action → Prop) [DecidablePred G] (P : Fleet σ → Prop)
    [DecidablePred P] (as : List Action)
    (hP : (TransitionSystem.exec (TransitionSystem.guarded (fun _ => G) (Enabled ids)
      fun f => f.act M ids) (start ids machine) as).any (fun f => P f) = true) :
    ∃ f, (system M ids).Reach (fun _ => G) f ∧ P f :=
  TransitionSystem.exists_reach (S := system M ids) (fun _ _ _ he ha => ⟨he, ha⟩) ⟨machine, rfl⟩
    P as hP

/-- Host `i` is not restarted. -/
def StaysUp (i : ℕ) : Action → Prop
  | .host j .restart => j ≠ i
  | _ => True

instance (i : ℕ) : DecidablePred (StaysUp i) := fun a => by
  unfold StaysUp
  split <;> infer_instance

/-- The raft worker of host `i` handles an event and writes its `Ready`. -/
def turn (i : ℕ) (e : Event) : List Action := [.host i (.event e []), .host i (.ready [])]

/-- Host 1 cannot save the term 3 that host 3 asked for votes in, but saves a snapshot with it.
After a restart it leads term 2 and sends the snapshot to host 2, whose term becomes 3 without
being saved before the answer. -/
theorem snapshot_term_not_saved : ∃ f : Fleet Unit,
    (system .unit [1, 2, 3]).Reach (fun _ => StaysUp 2) f ∧ ∃ x ∈ (f.hosts 2).sent, ¬x.Ahead := by
  obtain ⟨f, hf, x, hx, ht⟩ := @exists_reach _ .unit [1, 2, 3] () (StaysUp 2) _
    (fun f => ∃ x ∈ (f.hosts 2).sent, x.storage.hardState.term ≠ x.raft.term) _
    ((List.replicate 15 (turn 1 (.tick 0))).flatten ++
      [.deliver 1 0, .host 2 (.ready []), .deliver 2 0, .host 1 (.ready [])] ++
      (List.replicate 4 (turn 1 (.command (some [7])))).flatten ++
      [.deliver 1 10, .host 2 (.ready []), .deliver 2 1, .host 1 (.ready [])] ++
      List.replicate 6 (.host 1 (.apply true true)) ++
      (List.replicate 45 (turn 3 (.tick 0))).flatten ++
      [.deliver 3 4, .host 1 (.ready [.fail]), .host 1 (.event .snapshotTask []),
        .host 1 (.ready [.fail]), .host 1 .crash, .host 1 .restart] ++
      (List.replicate 15 (turn 1 (.tick 0))).flatten ++
      [.deliver 1 12, .host 2 (.ready []), .deliver 2 2, .host 1 (.ready []),
        .deliver 1 14, .host 2 (.ready []), .deliver 2 3, .host 1 (.ready [])] ++
      (List.replicate 2 (turn 1 (.tick 0))).flatten ++
      [.deliver 1 16, .host 2 (.ready [])])
    (by decide +kernel)
  exact ⟨f, hf, x, hx, fun h => ht h.1⟩

end Fleet

end Mizu
