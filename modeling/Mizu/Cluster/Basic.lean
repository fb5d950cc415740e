import Mizu.Cluster.Steps
import Mizu.Raft.Views

/-!
# Members, wires and terms

The invariants that every argument about the cluster starts from: who the nodes
are and whom they talk to, and that no log, snapshot or message mentions a term
above the one of the node it belongs to.
-/

namespace Mizu

open Raft

/-- Identities, peers and the two ends of each message. -/
structure Wired (S : Setup) (c : Cluster) : Prop where
  id : ∀ i, (c.nodes i).id = i
  peers : ∀ i, Assoc.keys (c.nodes i).prs = S.ids
  src : ∀ p ∈ c.net, p.msg.src ∈ S.ids
  dst : ∀ p ∈ c.net, p.msg.dst ∈ S.ids
  ne : ∀ p ∈ c.net, p.msg.src ≠ p.msg.dst
  remote : ∀ p ∈ c.net, isLocalMsg p.msg.type = false

namespace Cluster

variable {S : Setup} {G : Cluster → Action → Prop} {c : Cluster} {i : ℕ} {r : Raft}

theorem mem_net_of_source {m : Message} (h : c.Source G i (some m)) :
    ∃ p ∈ c.net, p.msg = m ∧ m.dst = i := by
  obtain ⟨k, p, hp, hm, hd, -⟩ := h
  exact ⟨p, List.mem_of_getElem? hp, hm, hd⟩

/-- A new packet carries a message of one of the listed kinds. -/
theorem sent_of_mem_put_net {m : Option Message} {p : Packet} (h : (c.nodes i).Effect m r)
    (hp : p ∈ (c.put i r).net) : p ∈ c.net ∨ (Sent (c.nodes i) r m p.msg ∧ p.log = r.raftLog) := by
  rcases mem_put_net hp with hp | ⟨hp, hlog⟩
  · exact Or.inl hp
  · obtain ⟨ms, hms, hsent⟩ := h.sent
    rw [hms, List.drop_left] at hp
    exact Or.inr ⟨hsent _ hp, hlog⟩

theorem put_net_compacted (c : Cluster) (i index t : ℕ) (data : Bytes) :
    (c.put i ((c.nodes i).compacted index t data)).net = c.net := by
  simp [put, Raft.compacted]

@[simp] theorem put_net_advance (c : Cluster) (i : ℕ) :
    (c.put i (c.nodes i).advance).net = c.net := by
  simp [put, Raft.advance]

/-- A property of nodes that `Advance` does not touch. -/
theorem put_advance {α : Type} (f : Raft → α) (hf : ∀ r : Raft, f r.advance = f r) (c : Cluster)
    (i j : ℕ) : f ((c.put i (c.nodes i).advance).nodes j) = f (c.nodes j) := by
  by_cases hj : j = i
  · subst hj
    rw [put_nodes_self, hf]
  · rw [put_nodes_of_ne _ _ hj]

@[simp] theorem put_advance_term (c : Cluster) (i j : ℕ) :
    ((c.put i (c.nodes i).advance).nodes j).term = (c.nodes j).term :=
  put_advance Raft.term (fun _ => rfl) c i j

@[simp] theorem put_advance_state (c : Cluster) (i j : ℕ) :
    ((c.put i (c.nodes i).advance).nodes j).state = (c.nodes j).state :=
  put_advance Raft.state (fun _ => rfl) c i j

@[simp] theorem put_advance_raftLog (c : Cluster) (i j : ℕ) :
    ((c.put i (c.nodes i).advance).nodes j).raftLog = (c.nodes j).raftLog :=
  put_advance Raft.raftLog (fun _ => rfl) c i j

@[simp] theorem put_advance_commitIndex (c : Cluster) (i j : ℕ) :
    ((c.put i (c.nodes i).advance).nodes j).commitIndex = (c.nodes j).commitIndex :=
  put_advance Raft.commitIndex (fun _ => rfl) c i j

/-- What is handed out was in hand before. -/
theorem emitted_take (c : Cluster) (i j : ℕ) :
    (c.take i).emitted j ++ ((c.take i).nodes j).committedEntries =
      c.emitted j ++ (c.nodes j).committedEntries := by
  by_cases hj : j = i
  · subst hj
    simp [emitted, take, put, Raft.ready, Raft.advance]
  · simp [emitted, take, put, hj]

end Cluster

open Cluster

namespace Wired

variable {S : Setup} {G : Cluster → Action → Prop} {c : Cluster} {i : ℕ} {r : Raft}

theorem init (S : Setup) : Wired S S.start := by
  refine ⟨fun _ => rfl, ?_, by simp [Setup.start], by simp [Setup.start], by simp [Setup.start],
    by simp [Setup.start]⟩
  intro i
  have hn : (Assoc.keys ([] : List (ℕ × Progress)) ++ S.ids).Nodup := by
    simpa [Assoc.keys] using S.nodup
  exact Assoc.keys_foldl_set _ hn

/-- Every message an effect sends goes from this node to another member. -/
theorem sent (hw : Wired S c) (hi : i ∈ S.ids) {m : Option Message} (hm : c.Source G i m)
    (hid : r.id = i) (hk : Assoc.keys r.prs = S.ids) {x : Message} (hx : Sent (c.nodes i) r m x) :
    x.src ∈ S.ids ∧ x.dst ∈ S.ids ∧ x.src ≠ x.dst ∧ isLocalMsg x.type = false := by
  have reply {y : Message} (hy : c.Source G i (some y)) (hsrc : x.src = i) (hdst : x.dst = y.src)
      (ht : isLocalMsg x.type = false) :
      x.src ∈ S.ids ∧ x.dst ∈ S.ids ∧ x.src ≠ x.dst ∧ isLocalMsg x.type = false := by
    obtain ⟨p, hp, rfl, hd⟩ := mem_net_of_source hy
    rw [hsrc, hdst]
    exact ⟨hi, hw.src p hp, hd ▸ (hw.ne p hp).symm, ht⟩
  cases hx with
  | replicated h =>
    obtain ⟨pr, hpr, hbody⟩ := h.body
    have hdst : x.dst ∈ S.ids := by
      rw [← hk]
      exact Assoc.get_isSome_iff.mp (by simp [hpr])
    refine ⟨h.src ▸ hid ▸ hi, hdst, ?_, ?_⟩
    · rw [h.src]
      exact h.dst.symm
    · rcases hbody with ⟨ht, _⟩ | ⟨ht, _⟩ <;> simp [isLocalMsg, ht]
  | asked hs hd hne =>
    refine ⟨hid ▸ hi, ?_, hne.symm, rfl⟩
    rw [← hw.peers i]
    exact hd
  | installed => exact reply hm (hw.id i) rfl rfl
  | _ => exact reply hm hid rfl rfl

/-- Nodes and packets after a step at `i`, from what the new node and packets satisfy. -/
theorem put (hw : Wired S c) (hid : r.id = i) (hk : Assoc.keys r.prs = S.ids)
    (hnet : ∀ p ∈ (c.put i r).net, p ∈ c.net ∨
      (p.msg.src ∈ S.ids ∧ p.msg.dst ∈ S.ids ∧ p.msg.src ≠ p.msg.dst ∧
        isLocalMsg p.msg.type = false)) : Wired S (c.put i r) where
  id j := by
    by_cases h : j = i
    · subst h
      rw [put_nodes_self, hid]
    · rw [put_nodes_of_ne _ _ h, hw.id]
  peers j := by
    by_cases h : j = i
    · subst h
      rw [put_nodes_self, hk]
    · rw [put_nodes_of_ne _ _ h, hw.peers]
  src p hp := (hnet p hp).elim (hw.src p) (·.1)
  dst p hp := (hnet p hp).elim (hw.dst p) (·.2.1)
  ne p hp := (hnet p hp).elim (hw.ne p) (·.2.2.1)
  remote p hp := (hnet p hp).elim (hw.remote p) (·.2.2.2)

theorem effect (hw : Wired S c) (hi : i ∈ S.ids) {m : Option Message} (hm : c.Source G i m)
    (he : (c.nodes i).Effect m r) : Wired S (c.put i r) := by
  have hid : r.id = i := he.id_eq.trans (hw.id i)
  have hmem : (c.nodes i).id ∈ Assoc.keys (c.nodes i).prs := by
    rw [hw.peers, hw.id]
    exact hi
  have hk : Assoc.keys r.prs = S.ids := (he.keys_prs_eq hmem).trans (hw.peers i)
  refine hw.put hid hk ?_
  intro p hp
  rcases sent_of_mem_put_net he hp with hp | ⟨hx, -⟩
  · exact Or.inl hp
  · exact Or.inr (hw.sent hi hm hid hk hx)

theorem of_reaches (h : S.Reaches G c) : Wired S c := by
  refine h.induct (init S) (fun c d rd hw => { hw with }) ?_ ?_ ?_
  · intro c i m r _ hw hi hm _ he
    exact hw.effect hi hm he
  · intro c i index t data _ hw _ _ _ _ _
    refine hw.put (hw.id i) ((keys_compacted ..).trans (hw.peers i)) (fun p hp => Or.inl ?_)
    rwa [put_net_compacted] at hp
  · intro c i _ hw _
    refine hw.put (hw.id i) (hw.peers i) (fun p hp => Or.inl ?_)
    rwa [put_net_advance] at hp

end Wired

section

variable {S : Setup} {G : Cluster → Action → Prop} {c : Cluster} {i : ℕ} {r : Raft}
  {m : Option Message}

/-- Over the network no node is asked to campaign. -/
theorem Wired.not_hup (hw : Wired S c) (hm : c.Source G i m) :
    ∀ m' ∈ m, m'.type ≠ .msgHup := by
  rintro m' rfl ht
  obtain ⟨p, hp, rfl, -⟩ := mem_net_of_source hm
  have := hw.remote p hp
  simp [isLocalMsg, ht] at this

/-- A node that led a term leads it still, or is in a later term. -/
structure Led (c : Cluster) : Prop where
  past : ∀ t i, (t, i) ∈ c.led →
    t ≤ (c.nodes i).term ∧ (t = (c.nodes i).term → (c.nodes i).state = .leader)
  leads : ∀ i, (c.nodes i).state = .leader → ((c.nodes i).term, i) ∈ c.led
  standing : ∀ i, (c.nodes i).state ≠ .follower → 0 < (c.nodes i).term
  positive : ∀ t i, (t, i) ∈ c.led → 0 < t

namespace Led

theorem put (h : Led c) (hle : (c.nodes i).term ≤ r.term)
    (hs : r.term = (c.nodes i).term → (c.nodes i).state = .leader → r.state = .leader)
    (hpos : r.state ≠ .follower → 0 < r.term) : Led (c.put i r) where
  past t j htj := by
    by_cases hj : j = i
    · subst hj
      rw [put_nodes_self]
      rcases mem_put_led htj with hm | ⟨hst, heq⟩
      · obtain ⟨h₁, h₂⟩ := h.past t j hm
        refine ⟨h₁.trans hle, fun heq => ?_⟩
        have hterm : t = (c.nodes j).term := le_antisymm h₁ (hle.trans heq.ge)
        exact hs (heq.symm.trans hterm) (h₂ hterm)
      · cases heq
        exact ⟨le_rfl, fun _ => hst⟩
    · rw [put_nodes_of_ne _ _ hj]
      rcases mem_put_led htj with hm | ⟨-, heq⟩
      · exact h.past t j hm
      · exact absurd (congrArg Prod.snd heq) hj
  leads j hst := by
    by_cases hj : j = i
    · subst hj
      rw [put_nodes_self] at hst ⊢
      simp [Cluster.put, hst]
    · rw [put_nodes_of_ne _ _ hj] at hst ⊢
      exact mem_put_led_of_mem i r (h.leads j hst)
  standing := forall_put (P := fun _ s => s.state ≠ .follower → 0 < s.term) hpos h.standing
  positive t j htj := by
    rcases mem_put_led htj with hm | ⟨hst, heq⟩
    · exact h.positive t j hm
    · cases heq
      exact hpos (by simp [hst])

theorem effect (hl : Led c) (hw : Wired S c) (hm : c.Source G i m)
    (hb : m = none → r.term ≠ (c.nodes i).term → (c.nodes i).term + 1 < 2 ^ 64)
    (he : (c.nodes i).Effect m r) : Led (c.put i r) := by
  have hup := hw.not_hup hm
  refine hl.put (he.term_le hup hb) ?_ ?_
  · intro hterm hst
    cases he.election with
    | kept term vote state =>
      rcases state with ⟨hne, -⟩ | ⟨heq, -⟩
      · exact absurd hst hne
      · exact heq.trans hst
    | won term vote hc hq state => exact state
    | counted hmt ht hc => simp [hst] at hc
    | stood hup hne => exact absurd hst hne
    | bumped ht term => omega
    | granted hmt ht hv term vote hne => exact absurd hst hne
    | installed hms ht hne => exact absurd hst hne
  · intro hst
    cases he.election with
    | kept term vote state =>
      rcases state with ⟨-, hf⟩ | ⟨heq, -⟩
      · exact absurd hf hst
      · exact term ▸ hl.standing i (heq ▸ hst)
    | won term vote hc => exact term ▸ hl.standing i (by simp [hc])
    | counted hmt ht hc term => exact term ▸ hl.standing i (by simp [hc])
    | stood hm' hne term =>
      cases m with
      | some m' => exact absurd (hm' m' rfl) (hup m' rfl)
      | none =>
        rw [term, nextTerm_of_lt (hb rfl (term ▸ nextTerm_ne _))]
        exact Nat.succ_pos _
    | bumped ht term vote state => exact absurd state hst
    | granted hmt ht hv term vote hne state => exact term ▸ hl.standing i (state ▸ hst)
    | installed hms ht hne hsnap term vote state => exact absurd state hst

theorem of_reaches (h : S.Reaches G c) : Led c := by
  refine h.induct ⟨by simp [Setup.start], nofun, fun i h => absurd rfl h, by simp [Setup.start]⟩
    (fun c d rd hl => { hl with }) ?_ ?_ ?_
  · intro c i m r hr hl hi hm hb he
    exact hl.effect (.of_reaches hr) hm hb he
  · intro c i index t data _ hl _ _ _ _ _
    exact hl.put le_rfl (fun _ hst => hst) (hl.standing i)
  · intro c i _ hl _
    exact hl.put le_rfl (fun _ hst => hst) (hl.standing i)

/-- `Advance` makes no leader. -/
theorem of_advance (h : Led c) {x : ℕ × ℕ} (hx : x ∈ (c.put i (c.nodes i).advance).led) :
    x ∈ c.led := by
  rcases mem_put_led hx with hx | ⟨hst, heq⟩
  · exact hx
  · rw [heq]
    exact h.leads i hst

/-- A candidate has not led its term. -/
theorem not_mem_of_candidate (h : Led c) (hs : (c.nodes i).state = .candidate) :
    ((c.nodes i).term, i) ∉ c.led := by
  intro hm
  have := (h.past _ i hm).2 rfl
  simp [hs] at this

end Led

/-- No entry, snapshot or message is of a later term than the node it belongs to, and
only a sentinel can be of term zero. -/
structure Dated (c : Cluster) : Prop where
  log : ∀ i n e, (c.nodes i).raftLog.entry n = some e → e.term ≤ (c.nodes i).term
  positive : ∀ i n e, (c.nodes i).raftLog.offset < n → (c.nodes i).raftLog.entry n = some e →
    0 < e.term
  snap : ∀ i s, (c.nodes i).currentSnapshot = some s → s.term ≤ (c.nodes i).term
  app : ∀ p ∈ c.net, p.msg.type = .msgApp →
    p.msg.logTerm ≤ p.msg.term ∧ ∀ e ∈ p.msg.entries, e.term ≤ p.msg.term ∧ 0 < e.term
  install : ∀ p ∈ c.net, p.msg.type = .msgSnap →
    ∀ s, p.msg.snapshot = some s → s.term ≤ p.msg.term

namespace Dated

theorem init (S : Setup) : Dated S.start := by
  have hlog (i : ℕ) : (S.start.nodes i).raftLog = RaftLog.restore 0 0 := rfl
  refine ⟨?_, ?_, nofun, by simp [Setup.start], by simp [Setup.start]⟩
  · intro i n e he
    rw [hlog, RaftLog.entry_restore] at he
    split_ifs at he
    cases he
    exact Nat.zero_le _
  · intro i n e hn he
    rw [hlog, RaftLog.entry_restore, if_neg (Nat.pos_iff_ne_zero.mp hn)] at he
    cases he

/-- What a leader sends is as old as its log. -/
theorem outgoing {x : Message} (hlog : ∀ n e, r.raftLog.entry n = some e → e.term ≤ r.term)
    (hpos : ∀ n e, r.raftLog.offset < n → r.raftLog.entry n = some e → 0 < e.term)
    (hsnap : ∀ s, r.currentSnapshot = some s → s.term ≤ r.term) (h : r.Outgoing x) :
    (x.type = .msgApp →
        x.logTerm ≤ x.term ∧ ∀ e ∈ x.entries, e.term ≤ x.term ∧ 0 < e.term) ∧
      (x.type = .msgSnap → ∀ s, x.snapshot = some s → s.term ≤ x.term) := by
  obtain ⟨pr, -, ⟨ht, ho, hi, hlt, hes, -⟩ | ⟨ht, -, s, hs, -, hx⟩⟩ := h.body
  · refine ⟨fun _ => ⟨?_, ?_⟩, fun h => by simp [ht] at h⟩
    · rcases RaftLog.term_eq hlt with ⟨e, he, heq⟩ | ⟨-, h0⟩
      · rw [← heq, h.term]
        exact hlog _ _ he
      · omega
    · intro e he
      rw [hes] at he
      obtain ⟨n, hle, hn⟩ := RaftLog.entry_of_mem_slice ho.le he
      rw [h.term]
      exact ⟨hlog n e hn, hpos n e (ho.trans_le hle) hn⟩
  · refine ⟨fun h => by simp [ht] at h, fun _ s' hs' => ?_⟩
    rw [hx] at hs'
    cases hs'
    rw [h.term]
    exact hsnap s hs

/-- The entries of the new log are old, sent with the message, or made now. -/
theorem log_change (hd : Dated c) (hm : c.Source G i m) (hle : (c.nodes i).term ≤ r.term)
    (h : LogChange (c.nodes i) r m) {n : ℕ} {e : Entry} (he : r.raftLog.entry n = some e) :
    e.term ≤ r.term := by
  cases h with
  | kept log lead => exact (hd.log i n e (log ▸ he)).trans hle
  | appended data state role term log =>
    rw [log, RaftLog.entry_append] at he
    split_ifs at he
    · exact (hd.log i n e he).trans hle
    · have := List.mem_of_getElem? he
      rw [List.mem_singleton.mp this, term]
      exact le_rfl
  | @truncated m' t first hm ht term notLeader state hi hterm hne hfirst log =>
    by_cases ho : (c.nodes i).raftLog.offset ≤ first
    · obtain ⟨-, -, -, hent⟩ := RaftLog.truncate_eq ho log
      rw [hent] at he
      split_ifs at he
      exact (hd.log i n e he).trans hle
    · rw [RaftLog.truncate_of_lt (not_le.mp ho)] at log
      rw [← Option.some.inj log] at he
      exact (hd.log i n e he).trans hle
  | extended hma ht term notLeader state hi hterm hne log =>
    obtain ⟨-, -, -, -, hent⟩ := RaftLog.truncateAndAppend_eq log
    rw [hent] at he
    split_ifs at he
    · exact (hd.log i n e he).trans hle
    · obtain ⟨p, hp, rfl, -⟩ := mem_net_of_source hm
      rw [term, ← ht]
      exact ((hd.app p hp hma).2 e (List.mem_of_getElem? he)).1
  | installed hms ht term notLeader state hsnap hi log =>
    rw [log, RaftLog.entry_restore] at he
    split_ifs at he
    cases he
    rw [term]
    exact le_max_right _ _

/-- Above the sentinel of the new log all terms are positive. -/
theorem positive_change (hd : Dated c) (hl : Led c) (hm : c.Source G i m)
    (h : LogChange (c.nodes i) r m) {n : ℕ} {e : Entry} (hn : r.raftLog.offset < n)
    (he : r.raftLog.entry n = some e) : 0 < e.term := by
  cases h with
  | kept log lead =>
    rw [log] at hn he
    exact hd.positive i n e hn he
  | appended data state role term log =>
    rw [log] at hn
    rw [log, RaftLog.entry_append] at he
    split_ifs at he
    · exact hd.positive i n e hn he
    · have hx := List.mem_singleton.mp (List.mem_of_getElem? he)
      rw [hx]
      refine hl.standing i ?_
      rcases role with h | h <;> simp [h]
  | @truncated m' t first hm ht term notLeader state hi hterm hne hfirst log =>
    by_cases ho : (c.nodes i).raftLog.offset ≤ first
    · obtain ⟨hoff, -, -, hent⟩ := RaftLog.truncate_eq ho log
      rw [hent] at he
      split_ifs at he
      exact hd.positive i n e (hoff ▸ hn) he
    · rw [RaftLog.truncate_of_lt (not_le.mp ho)] at log
      rw [← Option.some.inj log] at he hn
      exact hd.positive i n e hn he
  | extended hma ht term notLeader state hi hterm hne log =>
    obtain ⟨-, -, hoff, -, hent⟩ := RaftLog.truncateAndAppend_eq log
    rw [hent] at he
    split_ifs at he
    · exact hd.positive i n e (hoff ▸ hn) he
    · obtain ⟨p, hp, rfl, -⟩ := mem_net_of_source hm
      exact ((hd.app p hp hma).2 e (List.mem_of_getElem? he)).2
  | installed hms ht term notLeader state hsnap hi log =>
    rw [log, RaftLog.restore_offset] at hn
    rw [log, RaftLog.entry_restore, if_neg hn.ne'] at he
    cases he

/-- Nodes and packets after a step at `i`. -/
theorem put (hd : Dated c) (hlog : ∀ n e, r.raftLog.entry n = some e → e.term ≤ r.term)
    (hpos : ∀ n e, r.raftLog.offset < n → r.raftLog.entry n = some e → 0 < e.term)
    (hsnap : ∀ s, r.currentSnapshot = some s → s.term ≤ r.term)
    (hnet : ∀ p ∈ (c.put i r).net, p ∈ c.net ∨ r.Outgoing p.msg ∨
      (p.msg.type ≠ .msgApp ∧ p.msg.type ≠ .msgSnap)) : Dated (c.put i r) where
  log := forall_put (P := fun _ s => ∀ n e, s.raftLog.entry n = some e → e.term ≤ s.term) hlog
    hd.log
  positive := forall_put (P := fun _ s => ∀ n e, s.raftLog.offset < n → s.raftLog.entry n = some e →
    0 < e.term) hpos hd.positive
  snap := forall_put (P := fun _ r => ∀ s, r.currentSnapshot = some s → s.term ≤ r.term) hsnap
    hd.snap
  app p hp ht := by
    rcases hnet p hp with h | h | h
    · exact hd.app p h ht
    · exact (outgoing hlog hpos hsnap h).1 ht
    · exact absurd ht h.1
  install p hp ht := by
    rcases hnet p hp with h | h | h
    · exact hd.install p h ht
    · exact (outgoing hlog hpos hsnap h).2 ht
    · exact absurd ht h.2

theorem effect (hd : Dated c) (hw : Wired S c) (hl : Led c) (hm : c.Source G i m)
    (hb : m = none → r.term ≠ (c.nodes i).term → (c.nodes i).term + 1 < 2 ^ 64)
    (he : (c.nodes i).Effect m r) : Dated (c.put i r) := by
  have hle : (c.nodes i).term ≤ r.term := he.term_le (hw.not_hup hm) hb
  refine hd.put (fun n e => hd.log_change hm hle he.log)
    (fun n e => hd.positive_change hl hm he.log) ?_ ?_
  · intro s hs
    rcases he.currentSnapshot with heq | ⟨m', snap, rfl, hms, ht, hsnap, heq⟩
    · exact (hd.snap i s (heq ▸ hs)).trans hle
    · obtain ⟨p, hp, rfl, -⟩ := mem_net_of_source hm
      rw [heq] at hs
      cases hs
      exact (hd.install p hp hms s hsnap).trans (ht.le.trans hle)
  · intro p hp
    rcases sent_of_mem_put_net he hp with hp | ⟨hx, -⟩
    · exact Or.inl hp
    · exact Or.inr hx.outgoing

theorem of_reaches (h : S.Reaches G c) : Dated c := by
  refine h.induct (init S) (fun c d rd hd => { hd with }) ?_ ?_ ?_
  · intro c i m r hr hd hi hm hb he
    exact hd.effect (.of_reaches hr) (.of_reaches hr) hm hb he
  · intro c i index t data _ hd _ _ _ ho ht
    have hterm : t ≤ (c.nodes i).term := by
      rcases RaftLog.term_eq ht with ⟨e, he, rfl⟩ | ⟨-, h0⟩
      · exact hd.log i index e he
      · omega
    refine hd.put ?_ ?_ ?_ (fun p hp => Or.inl (by rwa [put_net_compacted] at hp))
    · intro n e he
      rcases RaftLog.entry_compactTo ho he with ⟨rfl, -⟩ | ⟨-, he⟩
      · exact hterm
      · exact hd.log i n e he
    · intro n e hn he
      rcases RaftLog.entry_compactTo ho he with ⟨-, hoff⟩ | ⟨hlt, he⟩
      · exact absurd hoff hn.ne'
      · exact hd.positive i n e (ho.trans hlt) he
    · intro s hs
      cases hs
      exact hterm
  · intro c i _ hd _
    exact hd.put (hd.log i) (hd.positive i) (hd.snap i)
      (fun p hp => Or.inl (by rwa [put_net_advance] at hp))

end Dated

end

end Mizu
