import Mizu.Library.Reach
import Mizu.Raft.Shape

/-!
# Runs of one node

A call on a node is a chain of effects, so what holds along every run of a node is proved over
single effects. The messages that the node is given are arbitrary.
-/

namespace Mizu

namespace Raft

/-- A chain of effects of one call, as in `Effects`, that changes the term on its own
initiative only in a state whose term is at most `b`. -/
inductive Calls (b : ℕ) (m : Option Message) : Raft → Raft → Prop
  | last {r s : Raft} (h : r.Effect m s)
      (ht : s.term = r.term ∨ r.term ≤ b ∨ ∃ m' ∈ m, m'.type ≠ .msgHup) : Calls b m r s
  | next {r r₁ s : Raft} (h : r.Effect m r₁)
      (ht : r₁.term = r.term ∨ r.term ≤ b ∨ ∃ m' ∈ m, m'.type ≠ .msgHup)
      (hs : r₁.state ≠ .leader) (hm : r₁.msgs = r.msgs) (rest : Calls b m r₁ s) : Calls b m r s

/-- What an event does to a node: read rounds are dropped, a call is made, read rounds
are dropped. -/
def Handles (b : ℕ) (m : Option Message) (r s : Raft) : Prop :=
  ∃ r₁ r₂, r.Sends r₁ ∧ Calls b m r₁ r₂ ∧ r₂.Sends s

variable {r s : Raft} {b : ℕ} {m : Option Message}

theorem Handles.of_sends (h : r.Sends s) : Handles b m r s :=
  ⟨r, s, .refl r, .last (.sends h) (Or.inl h.kept.term), .refl s⟩

theorem tick_calls {rnd : ℕ} (h : r.tick rnd = some s) : Calls r.term none r s := by
  rcases tick_cases h with he | ⟨h₁, h₂, ht⟩
  · exact .last he (Or.inr (Or.inl le_rfl))
  · exact .next h₁ (Or.inr (Or.inl le_rfl)) (becomeCandidate_ne_leader _) rfl
      (.last h₂ (Or.inl ht))

theorem Effects.calls {m : Message} (h : Effects (some m) r s) (hm : m.type ≠ .msgHup) :
    Calls b (some m) r s := by
  have ht : ∃ m' ∈ some m, m'.type ≠ .msgHup := ⟨m, rfl, hm⟩
  induction h with
  | last he => exact .last he (Or.inr (Or.inr ht))
  | next he hs hm rest ih => exact .next he (Or.inr (Or.inr ht)) hs hm ih

theorem dispatch_calls {m : Message} (ht : m.term ≤ r.term) (hb : r.term ≤ b)
    (h : r.dispatch m = some s) : Calls b (some m) r s := by
  by_cases hm : m.type = .msgHup
  · have hup : ∀ m' ∈ some m, m'.type = .msgHup := by simpa using hm
    have campaigns (hl : r.state ≠ .leader) (hc : r.campaign = some s) : Calls b (some m) r s := by
      rcases campaign_cases hup hl hc with he | ⟨h₁, h₂, ht⟩
      · exact .last he (Or.inr (Or.inl hb))
      · exact .next h₁ (Or.inr (Or.inl hb)) (becomeCandidate_ne_leader _) rfl
          (.last h₂ (Or.inl ht))
    cases hs : r.state <;> simp only [dispatch, hs, hm, Option.some.injEq] at h
    case leader => exact h ▸ .last (.sends (Sends.refl _)) (Or.inl rfl)
    all_goals exact campaigns (by simp [hs]) h
  · exact (dispatch_effects ht h).calls hm

theorem step_calls {m : Message} (h : r.step m = some s) :
    Calls (max r.term m.term) (some m) r s := by
  unfold step catchUp at h
  split_ifs at h with ht
  · refine .next (.bumped ht) (Or.inr (Or.inl (le_max_left _ _))) ?_ ?_ (dispatch_calls ?_ ?_ h)
    · rw [becomeFollower_of_lt ht]
      nofun
    · rw [becomeFollower_of_lt ht]
      rfl
    · rw [becomeFollower_of_lt ht]
      exact le_rfl
    · rw [becomeFollower_of_lt ht]
      exact le_max_right _ _
  · exact dispatch_calls (not_lt.mp ht) (le_max_left _ _) h

/-- Proof by invariant over the effects of an event. The guard holds up to the last effect:
the effects before it send nothing and do not lead. -/
theorem Handles.induct {I Γ : Raft → Prop} (h : Handles b m r s) (hI : I r) (hΓ : Γ r)
    (sends : ∀ r s, I r → r.Sends s → I s)
    (guard_sends : ∀ r s, Γ r → r.Sends s → Γ s)
    (guard_quiet : ∀ r s, Γ r → r.Effect m s → s.state ≠ .leader → s.msgs = r.msgs → Γ s)
    (effect : ∀ r s, Γ r → I r → r.Effect m s →
      (s.term = r.term ∨ r.term ≤ b ∨ ∃ m' ∈ m, m'.type ≠ .msgHup) → I s) : I s := by
  obtain ⟨r₁, r₂, h₁, h₂, h₃⟩ := h
  refine sends _ _ ?_ h₃
  have hI₁ : I r₁ := sends _ _ hI h₁
  have hΓ₁ : Γ r₁ := guard_sends _ _ hΓ h₁
  clear h₁ h₃
  induction h₂ with
  | last he ht => exact effect _ _ hΓ₁ hI₁ he ht
  | next he ht hs hm rest ih =>
    exact ih (effect _ _ hΓ₁ hI₁ he ht) (guard_quiet _ _ hΓ₁ he hs hm)

/-- The same without a guard. -/
theorem Handles.induct_all {I : Raft → Prop} (h : Handles b m r s) (hI : I r)
    (effect : ∀ r s, I r → r.Effect m s →
      (s.term = r.term ∨ r.term ≤ b ∨ ∃ m' ∈ m, m'.type ≠ .msgHup) → I s) : I s :=
  h.induct (Γ := fun _ => True) hI trivial
    (fun _ _ hI hs => effect _ _ hI (.sends hs) (Or.inl hs.kept.term))
    (fun _ _ _ _ => trivial) (fun _ _ _ _ _ _ => trivial) (fun _ _ _ => effect _ _)

theorem propose_handles {data : Bytes} {x : Raft × Bool} (h : r.propose data = some x) :
    Handles 0 none r x.1 := by
  rcases propose_cases h with ⟨-, heq⟩ | ⟨-, hl, ha⟩
  · rw [heq]
    exact .of_sends (.refl _)
  · exact ⟨_, _, .refl _, .last (.proposed data hl ha) (Or.inl ha.kept.term), .refl _⟩

/-- A call is a chain of effects, compacts the log or hands out the `Ready`. -/
theorem call_cases {c : Call} (h : r.call c = some s) :
    (c ≠ .ready ∧ ∃ b m, Handles b m r s ∧ ∀ m' ∈ m, c = .step m') ∨
      (∃ index t data, c = .snapshot index data ∧ r.raftLog.offset < index ∧
        s = r.compacted index t data) ∨ c = .ready ∧ s = r.advance := by
  cases c with
  | step m => exact .inl ⟨nofun, _, some m, ⟨r, s, .refl r, step_calls h, .refl s⟩, by simp⟩
  | tick rnd => exact .inl ⟨nofun, _, none, ⟨r, s, .refl r, tick_calls h, .refl s⟩, nofun⟩
  | propose data =>
    obtain ⟨x, hx, rfl⟩ := Option.map_eq_some_iff.mp h
    exact .inl ⟨nofun, _, none, propose_handles hx, nofun⟩
  | readIndex readID =>
    obtain ⟨x, hx, rfl⟩ := Option.map_eq_some_iff.mp h
    exact .inl ⟨nofun, 0, none, .of_sends (readIndex_sends hx), nofun⟩
  | cancelReadIndex readID =>
    cases h
    exact .inl ⟨nofun, 0, none, .of_sends (cancelReadIndex_sends r readID), nofun⟩
  | snapshot index data =>
    rcases snapshot_cases h with rfl | ⟨t, ho, -, rfl⟩
    · exact .inl ⟨nofun, 0, none, .of_sends (.refl _), nofun⟩
    · exact .inr (.inl ⟨index, t, data, rfl, ho, rfl⟩)
  | ready =>
    cases h
    exact .inr (.inr ⟨rfl, rfl⟩)

end Raft

/-- A node, with the `Ready`s that it has handed out. -/
structure Served where
  node : Raft
  readies : List Ready := []

namespace Served

variable (u : Served)

def emitted : List Entry := u.readies.flatMap Ready.committedEntries

def act (c : Call) : Option Served :=
  (u.node.call c).map fun r =>
    { node := r, readies := if c = .ready then u.readies ++ [u.node.ready] else u.readies }

/-- The runs of one node, with any calls and messages. -/
def system (cfg : Config) : TransitionSystem Served Call where
  init u := u = { node := newRaft cfg }
  step u c u' := u.act c = some u'

/-- The log of the node, and the index that a message brings, are below the last index of
`uint64`. -/
def Fits : Call → Prop
  | .step m => u.node.raftLog.endIndex < 2 ^ 64 ∧ m.logIndex + 1 < 2 ^ 64
  | _ => u.node.raftLog.endIndex < 2 ^ 64

instance (c : Call) : Decidable (u.Fits c) := by
  cases c <;> unfold Fits <;> infer_instance

end Served

end Mizu
