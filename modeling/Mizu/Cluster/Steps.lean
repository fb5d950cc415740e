import Mizu.Cluster.Model
import Mizu.Raft.Views

/-!
# Runs in small steps

An action of the cluster is a chain of effects at one node. The runs in which
every effect is a step of its own pass through all states of the cluster's runs,
so an invariant is proved over single effects.
-/

namespace Mizu

/-- One effect at one node, with the action it is part of where that matters. -/
inductive Micro (S : Setup) : Cluster → Option Action → Cluster → Prop
  | own {c : Cluster} {i : ℕ} {r : Raft} (hi : i ∈ S.ids)
      (hb : r.term ≠ (c.nodes i).term → (c.nodes i).term + 1 < 2 ^ 64)
      (h : (c.nodes i).Effect none r) : Micro S c none (c.put i r)
  | compact {c : Cluster} {i index t : ℕ} {data : Bytes} (hi : i ∈ S.ids)
      (he : ∃ e ∈ c.emitted i, e.index = index) (ho : (c.nodes i).raftLog.offset < index)
      (ht : (c.nodes i).raftLog.term index = some t) :
      Micro S c (some (.snapshot i index data)) (c.put i ((c.nodes i).compacted index t data))
  | take {c : Cluster} {i : ℕ} (hi : i ∈ S.ids) : Micro S c (some (.ready i)) (c.take i)
  | prepare {c : Cluster} {k : ℕ} {p : Packet} {r : Raft} (hp : c.net[k]? = some p)
      (hd : p.msg.dst ∈ S.ids) (h : (c.nodes p.msg.dst).Effect (some p.msg) r)
      (hs : r.state ≠ .leader) (hm : r.msgs = (c.nodes p.msg.dst).msgs) :
      Micro S c (some (.deliver k)) (c.put p.msg.dst r)
  | handle {c : Cluster} {k : ℕ} {p : Packet} {r : Raft} (hp : c.net[k]? = some p)
      (hd : p.msg.dst ∈ S.ids) (h : (c.nodes p.msg.dst).Effect (some p.msg) r) :
      Micro S c (some (.deliver k)) { c.put p.msg.dst r with delivered := k :: c.delivered }

variable {p : Packet}

namespace Cluster

variable {c : Cluster} {i j : ℕ} {r r₁ : Raft}

@[simp] theorem put_nodes_self (c : Cluster) (i : ℕ) (r : Raft) : (c.put i r).nodes i = r := by
  simp [put]

theorem put_nodes_of_ne (c : Cluster) (r : Raft) (h : j ≠ i) :
    (c.put i r).nodes j = c.nodes j := by
  simp [put, h]

theorem forall_put {P : ℕ → Raft → Prop} (hr : P i r) (h : ∀ j, P j (c.nodes j)) (j : ℕ) :
    P j ((c.put i r).nodes j) := by
  by_cases hj : j = i
  · subst hj
    rwa [put_nodes_self]
  · rw [put_nodes_of_ne _ _ hj]
    exact h j

/-- Terms only grow. -/
theorem le_put_term {T j : ℕ} (hle : (c.nodes i).term ≤ r.term) (hT : T ≤ (c.nodes j).term) :
    T ≤ ((c.put i r).nodes j).term := by
  by_cases hj : j = i
  · subst hj
    rw [put_nodes_self]
    exact hT.trans hle
  · rwa [put_nodes_of_ne _ _ hj]

/-- A state in between that does not lead and has sent nothing leaves no trace. -/
theorem put_put (c : Cluster) (r : Raft) (hs : r₁.state ≠ .leader)
    (hm : r₁.msgs = (c.nodes i).msgs) : (c.put i r₁).put i r = c.put i r := by
  simp [put, hs, hm]

theorem put_delivered (c : Cluster) (i : ℕ) (r : Raft) : (c.put i r).delivered = c.delivered := rfl

/-- Every packet of the new network was there before or is new. -/
theorem mem_put_net (h : p ∈ (c.put i r).net) :
    p ∈ c.net ∨ (p.msg ∈ r.msgs.drop (c.nodes i).msgs.length ∧ p.log = r.raftLog) := by
  rcases List.mem_append.mp h with h | h
  · exact Or.inl h
  · obtain ⟨m, hm, rfl⟩ := List.mem_map.mp h
    exact Or.inr ⟨hm, rfl⟩

theorem mem_put_net_of_mem (r : Raft) (h : p ∈ c.net) : p ∈ (c.put i r).net :=
  List.mem_append_left _ h

theorem getElem?_put_net {k : ℕ} (i : ℕ) (r : Raft) (h : c.net[k]? = some p) :
    (c.put i r).net[k]? = some p := by
  have hk : k < c.net.length := (List.getElem?_eq_some_iff.mp h).1
  rw [put, List.getElem?_append_left hk, h]

theorem mem_put_led {x : ℕ × ℕ} (h : x ∈ (c.put i r).led) :
    x ∈ c.led ∨ (r.state = .leader ∧ x = (r.term, i)) := by
  unfold put at h
  split_ifs at h with hs
  · rcases List.mem_cons.mp h with h | h
    · exact Or.inr ⟨hs, h⟩
    · exact Or.inl h
  · exact Or.inl h

theorem mem_put_led_of_mem {x : ℕ × ℕ} (i : ℕ) (r : Raft) (h : x ∈ c.led) :
    x ∈ (c.put i r).led := by
  unfold put
  split_ifs
  · exact List.mem_cons_of_mem _ h
  · exact h

/-- A term was led by one node only, so it was before the last step. -/
theorem UniqueLeaders.of_put (h : (c.put i r).UniqueLeaders) : c.UniqueLeaders := by
  intro t j j' hj hj'
  exact h t j j' (mem_put_led_of_mem i r hj) (mem_put_led_of_mem i r hj')

/-- Where the message that an effect at node `i` handles comes from. -/
def Source (G : Cluster → Action → Prop) (c : Cluster) (i : ℕ) : Option Message → Prop
  | none => True
  | some m => ∃ k p, c.net[k]? = some p ∧ p.msg = m ∧ m.dst = i ∧ G c (.deliver k)

end Cluster

namespace Setup

open Cluster

variable {S : Setup} {G : Cluster → Action → Prop} {c : Cluster}

/-- The runs in single effects. -/
def micro (S : Setup) : TransitionSystem Cluster (Option Action) where
  init c := c = S.start
  step := Micro S

/-- States of the runs in single effects whose actions all satisfy `G`. -/
def Reaches (S : Setup) (G : Cluster → Action → Prop) (c : Cluster) : Prop :=
  S.micro.Reach (fun c a => ∀ a' ∈ a, G c a') c

/-- What `P` says of a delivery still holds in the middle of handling the message, in the
runs guarded by `G`. -/
def Stable (S : Setup) (G P : Cluster → Action → Prop) : Prop :=
  ∀ c k p r, S.Reaches G c → c.net[k]? = some p → (c.nodes p.msg.dst).Effect (some p.msg) r →
    r.state ≠ .leader → r.msgs = (c.nodes p.msg.dst).msgs → P c (.deliver k) →
    P (c.put p.msg.dst r) (.deliver k)

theorem Stable.and {P Q : Cluster → Action → Prop} (hP : S.Stable G P) (hQ : S.Stable G Q) :
    S.Stable G fun c a => P c a ∧ Q c a :=
  fun c k p r hr hp he hs hm h => ⟨hP c k p r hr hp he hs hm h.1, hQ c k p r hr hp he hs hm h.2⟩

theorem true_stable (S : Setup) (G : Cluster → Action → Prop) : S.Stable G fun _ _ => True :=
  fun _ _ _ _ _ _ _ _ _ _ => trivial

/-- The logs do not change in the middle of handling a message. -/
theorem fits_stable (S : Setup) (G : Cluster → Action → Prop) : S.Stable G S.Fits := by
  intro c k p r _ _ he hs hm h
  refine ⟨fun i hi => ?_, nofun⟩
  exact forall_put (P := fun i s => i ∈ S.ids → s.raftLog.endIndex < 2 ^ 64)
    ((he.quiet hs hm).1.log ▸ h.1 _) h.1 i hi

/-- The action `a` that leads from `c` to `c'` ends with one effect, taken in a reachable
state that has the commit indices of `c`. -/
def Ends (S : Setup) (G : Cluster → Action → Prop) (c : Cluster) (a : Action) (c' : Cluster) :
    Prop :=
  ∃ c₁ x, S.Reaches G c₁ ∧ (∀ y ∈ x, y = a ∧ G c₁ y) ∧ Micro S c₁ x c' ∧
    ∀ j, (c₁.nodes j).commitIndex = (c.nodes j).commitIndex

variable {a : Action} {r : Raft}

theorem Ends.own {i : ℕ} (hc : S.Reaches G c) (hi : i ∈ S.ids)
    (hb : r.term ≠ (c.nodes i).term → (c.nodes i).term + 1 < 2 ^ 64)
    (h : (c.nodes i).Effect none r) : S.Ends G c a (c.put i r) :=
  ⟨c, none, hc, by simp, .own hi hb h, fun _ => rfl⟩

theorem Ends.sends {i : ℕ} (hc : S.Reaches G c) (hi : i ∈ S.ids)
    (h : (c.nodes i).Sends r) : S.Ends G c a (c.put i r) :=
  .own hc hi (absurd h.kept.term) (.sends h)

theorem Ends.tick {i rnd : ℕ} (hc : S.Reaches G c) (hi : i ∈ S.ids)
    (hb : (c.nodes i).term + 1 < 2 ^ 64) (h : (c.nodes i).tick rnd = some r) :
    S.Ends G c a (c.put i r) := by
  rcases Raft.tick_cases h with h | ⟨h₁, h₂, ht⟩
  · exact .own hc hi (fun _ => hb) h
  · have hmid : S.Reaches G (c.put i (c.nodes i).becomeCandidate) :=
      .step hc (by simp) (Micro.own hi (fun _ => hb) h₁)
    rw [← c.put_put r (c.nodes i).becomeCandidate_ne_leader rfl]
    refine ⟨_, none, hmid, by simp, .own hi ?_ ?_, fun j => ?_⟩
    · simp [ht]
    · simpa using h₂
    · by_cases hj : j = i
      · subst hj
        rw [put_nodes_self]
        rfl
      · rw [put_nodes_of_ne _ _ hj]

theorem Ends.propose {i : ℕ} {data : Bytes} {x : Raft × Bool} (hc : S.Reaches G c)
    (hi : i ∈ S.ids) (h : (c.nodes i).propose data = some x) : S.Ends G c a (c.put i x.1) := by
  rcases Raft.propose_cases h with ⟨-, hx⟩ | ⟨-, hl, ha⟩
  · exact hx ▸ .sends hc hi (Raft.Sends.refl _)
  · exact .own hc hi (absurd ha.kept.term) (.proposed data hl ha)

theorem Ends.deliver {k : ℕ} {r' : Raft} (hG : S.Stable G G)
    (h : Raft.Effects (some p.msg) r r') (hc : S.Reaches G c) (hg : G c (.deliver k))
    (hp : c.net[k]? = some p) (hd : p.msg.dst ∈ S.ids) (hr : c.nodes p.msg.dst = r) :
    S.Ends G c (.deliver k) { c.put p.msg.dst r' with delivered := k :: c.delivered } := by
  induction h generalizing c with
  | last h =>
    subst hr
    exact ⟨c, some (.deliver k), hc, by simpa using hg, .handle hp hd h, fun _ => rfl⟩
  | @next _ r₁ _ h hs hm rest ih =>
    subst hr
    have hmid : S.Reaches G (c.put p.msg.dst r₁) :=
      .step hc (by simpa using hg) (Micro.prepare hp hd h hs hm)
    have hend := ih hmid (hG c k p _ hc hp h hs hm hg) (c.getElem?_put_net _ _ hp)
      (c.put_nodes_self _ _)
    rw [c.put_put _ hs hm, c.put_delivered] at hend
    obtain ⟨c₁, x, hc₁, hx, hstep, hcommit⟩ := hend
    refine ⟨c₁, x, hc₁, hx, hstep, fun j => (hcommit j).trans ?_⟩
    by_cases hj : j = p.msg.dst
    · subst hj
      rw [put_nodes_self]
      exact (h.quiet hs hm).1.commit
    · rw [put_nodes_of_ne _ _ hj]

/-- A step of a guarded run ends with a single effect. -/
theorem Reaches.ends {c' : Cluster} (hG : S.Stable G G) (hfit : ∀ c a, G c a → S.Fits c a)
    (hc : S.Reaches G c) (hg : G c a) (hs : S.system.step c a c') : S.Ends G c a c' := by
  obtain ⟨hen, hact⟩ := hs
  cases a with
  | tick i rnd =>
    obtain ⟨r, hr, rfl⟩ := Option.map_eq_some_iff.mp hact
    exact .tick hc hen ((hfit c _ hg).2 i rfl) hr
  | propose i data =>
    obtain ⟨x, hx, rfl⟩ := Option.map_eq_some_iff.mp hact
    exact .propose hc hen hx
  | readIndex i readID =>
    obtain ⟨x, hx, rfl⟩ := Option.map_eq_some_iff.mp hact
    exact .sends hc hen (Raft.readIndex_sends hx)
  | cancelReadIndex i readID =>
    cases hact
    exact .sends hc hen (Raft.cancelReadIndex_sends _ _)
  | snapshot i index data =>
    obtain ⟨r, hr, rfl⟩ := Option.map_eq_some_iff.mp hact
    rcases Raft.snapshot_cases hr with rfl | ⟨t, ho, ht, rfl⟩
    · exact .sends hc hen.1 (Raft.Sends.refl _)
    · exact ⟨c, some (.snapshot i index data), hc, by simpa using hg,
        .compact hen.1 hen.2 ho ht, fun _ => rfl⟩
  | ready i =>
    cases hact
    exact ⟨c, some (.ready i), hc, by simpa using hg, .take hen, fun _ => rfl⟩
  | deliver k =>
    obtain ⟨p, hp, hact⟩ := Option.bind_eq_some_iff.mp hact
    obtain ⟨r, hr, hact⟩ := Option.bind_eq_some_iff.mp hact
    cases hact
    obtain ⟨p', hp', hd⟩ := hen
    rw [hp] at hp'
    cases hp'
    exact .deliver hG (Raft.step_effects hr) hc hg hp hd rfl

section Within

variable {P : Cluster → Action → Prop}

theorem Reaches.of_within (h : S.Reaches (S.Within P) c) : S.Reaches P c :=
  TransitionSystem.Reach.imp h fun _ _ _ _ hg _ a' ha => (hg a' ha).2

/-- A step of a run whose counters stay in `uint64` ends with a single effect. -/
theorem Reaches.ends_within {c' : Cluster} (hP : ∀ G, S.Stable G P) (hc : S.Reaches (S.Within P) c)
    (hg : S.Within P c a) (hs : S.system.step c a c') : S.Ends (S.Within P) c a c' :=
  hc.ends ((fits_stable S _).and (hP _)) (fun _ _ h => h.1) hg hs

/-- Every state of such a run is reached by single effects. -/
theorem Reaches.within (hP : ∀ G, S.Stable G P) (h : S.system.Reach (S.Within P) c) :
    S.Reaches (S.Within P) c := by
  induction h with
  | init h => exact .init h
  | step _ hg hs ih =>
    obtain ⟨c₁, x, hc₁, hx, hstep, -⟩ := ih.ends_within hP hg hs
    exact .step hc₁ (fun y hy => (hx y hy).2) hstep

theorem Reaches.of_reach (hP : ∀ G, S.Stable G P) (h : S.system.Reach (S.Within P) c) :
    S.Reaches P c :=
  (Reaches.within hP h).of_within

end Within

variable {I : Cluster → Prop}

/-- Proof by invariant over single effects. -/
theorem Reaches.induct_history (h : S.Reaches G c) (init : I S.start)
    (deliver : ∀ c k, I c → I { c with delivered := k :: c.delivered })
    (effect : ∀ c i m r, S.Reaches G c → I c → i ∈ S.ids → c.Source G i m →
      (m = none → r.term ≠ (c.nodes i).term → (c.nodes i).term + 1 < 2 ^ 64) →
      (c.nodes i).Effect m r → I (c.put i r))
    (compact : ∀ c i index t data, S.Reaches G c → I c → i ∈ S.ids →
      G c (.snapshot i index data) → (∃ e ∈ c.emitted i, e.index = index) →
      (c.nodes i).raftLog.offset < index → (c.nodes i).raftLog.term index = some t →
      I (c.put i ((c.nodes i).compacted index t data)))
    (take : ∀ c i, S.Reaches G c → I c → i ∈ S.ids → I (c.take i)) : I c := by
  refine TransitionSystem.Reach.induct h (fun c hc => hc ▸ init) ?_
  intro c a c' hr hI hg hs
  cases hs with
  | own hi hb h => exact effect c _ none _ hr hI hi trivial (fun _ => hb) h
  | compact hi he ho ht => exact compact c _ _ _ _ hr hI hi (hg _ rfl) he ho ht
  | take hi => exact take c _ hr hI hi
  | @prepare k p _ hp hd h hs hm =>
    exact effect c _ (some p.msg) _ hr hI hd ⟨k, p, hp, rfl, rfl, hg _ rfl⟩ nofun h
  | @handle k p _ hp hd h =>
    exact deliver _ k (effect c _ (some p.msg) _ hr hI hd ⟨k, p, hp, rfl, rfl, hg _ rfl⟩ nofun h)

/-- Proof by invariant over single effects, for a property of the nodes, the network
and the leaders. -/
theorem Reaches.induct (h : S.Reaches G c) (init : I S.start)
    (frame : ∀ c d rd, I c → I { c with delivered := d, readies := rd })
    (effect : ∀ c i m r, S.Reaches G c → I c → i ∈ S.ids → c.Source G i m →
      (m = none → r.term ≠ (c.nodes i).term → (c.nodes i).term + 1 < 2 ^ 64) →
      (c.nodes i).Effect m r → I (c.put i r))
    (compact : ∀ c i index t data, S.Reaches G c → I c → i ∈ S.ids →
      G c (.snapshot i index data) → (∃ e ∈ c.emitted i, e.index = index) →
      (c.nodes i).raftLog.offset < index → (c.nodes i).raftLog.term index = some t →
      I (c.put i ((c.nodes i).compacted index t data)))
    (advance : ∀ c i, S.Reaches G c → I c → i ∈ S.ids → I (c.put i (c.nodes i).advance)) :
    I c :=
  h.induct_history init (fun c _ => frame c _ _) effect compact
    fun c i hr hI hi => frame _ _ _ (advance c i hr hI hi)

end Setup

end Mizu
