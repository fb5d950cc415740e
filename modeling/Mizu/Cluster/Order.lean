import Mizu.Cluster.Election
import Mizu.Cluster.Progress

/-!
# Delivery in order

When the messages between two nodes arrive in the order in which they were sent, a
`MsgApp` brings a follower at least as far as the entries of its term that it already
has. Without compaction every log is whole and no snapshot is ever sent.
-/

namespace Mizu

open Raft Cluster

/-- A message is not delivered after a later one between the same nodes, or twice. -/
def InOrder (c : Cluster) : Action → Prop
  | .deliver k => ∀ p ∈ c.net[k]?, ∀ k' ∈ c.delivered, ∀ q ∈ c.net[k']?,
      q.msg.src = p.msg.src → q.msg.dst = p.msg.dst → k' < k
  | _ => True

instance (c : Cluster) (a : Action) : Decidable (InOrder c a) :=
  match a with
  | .deliver k => inferInstanceAs (Decidable (∀ p ∈ c.net[k]?, ∀ k' ∈ c.delivered,
      ∀ q ∈ c.net[k']?, q.msg.src = p.msg.src → q.msg.dst = p.msg.dst → k' < k))
  | .tick .. | .propose .. | .readIndex .. | .cancelReadIndex .. | .snapshot .. | .ready .. =>
    instDecidableTrue

/-- The log is not compacted. -/
def NoSnapshot : Action → Prop
  | .snapshot .. => False
  | _ => True

instance : DecidablePred NoSnapshot
  | .snapshot .. => instDecidableFalse
  | .tick .. | .propose .. | .readIndex .. | .cancelReadIndex .. | .ready .. | .deliver .. =>
    instDecidableTrue

section

variable {S : Setup} {G : Cluster → Action → Prop} {c : Cluster} {i : ℕ} {r : Raft}
  {m : Option Message}

theorem put_net_of_quiet (hm : r.msgs = (c.nodes i).msgs) : (c.put i r).net = c.net := by
  simp [Cluster.put, hm]

theorem inOrder_stable (S : Setup) (G : Cluster → Action → Prop) : S.Stable G InOrder := by
  intro c k p r _ _ _ _ hm h
  unfold InOrder
  rw [put_net_of_quiet hm]
  exact h

theorem noSnapshot_stable (S : Setup) (G : Cluster → Action → Prop) :
    S.Stable G fun _ => NoSnapshot :=
  fun _ _ _ _ _ _ _ _ _ h => h

/-- No log has a compacted part, and there are no snapshots. -/
structure Whole (c : Cluster) : Prop where
  offset : ∀ i, (c.nodes i).raftLog.offset = 0
  snapshot : ∀ i, (c.nodes i).currentSnapshot = none
  net : ∀ p ∈ c.net, p.msg.type ≠ .msgSnap

namespace Whole

theorem put (h : Whole c) (ho : r.raftLog.offset = 0) (hs : r.currentSnapshot = none)
    (hnet : ∀ p ∈ (c.put i r).net, p ∈ c.net ∨ p.msg.type ≠ .msgSnap) : Whole (c.put i r) where
  offset := forall_put (P := fun _ s => s.raftLog.offset = 0) ho h.offset
  snapshot := forall_put (P := fun _ s => s.currentSnapshot = none) hs h.snapshot
  net p hp := (hnet p hp).elim (h.net p) id

theorem log_change (h : Whole c) (hm : c.Source G i m) (he : LogChange (c.nodes i) r m) :
    r.raftLog.offset = 0 := by
  cases he with
  | kept log => rw [log, h.offset]
  | appended data state role term log => rw [log, RaftLog.append_offset, h.offset]
  | truncated hma ht term notLeader state hi hterm hne hfirst log =>
    rw [RaftLog.truncate_offset log, h.offset]
  | extended hma ht term notLeader state hi hterm hne log =>
    rw [(RaftLog.truncateAndAppend_eq log).2.2.1, h.offset]
  | installed hms =>
    obtain ⟨p, hp, rfl, -⟩ := mem_net_of_source hm
    exact absurd hms (h.net p hp)

theorem effect (h : Whole c) (hm : c.Source G i m) (he : (c.nodes i).Effect m r) :
    Whole (c.put i r) := by
  have hsnap : r.currentSnapshot = none := by
    rcases he.currentSnapshot with heq | ⟨m', snap, rfl, hms, -⟩
    · rw [heq, h.snapshot]
    · obtain ⟨p, hp, rfl, -⟩ := mem_net_of_source hm
      exact absurd hms (h.net p hp)
  refine h.put (h.log_change hm he.log) hsnap fun p hp => ?_
  rcases sent_of_mem_put_net he hp with hp | ⟨hx, -⟩
  · exact Or.inl hp
  · refine Or.inr fun ht => ?_
    rcases hx.outgoing with ho | ⟨-, hne⟩
    · obtain ⟨pr, -, ⟨ht', -⟩ | ⟨-, -, s, hs, -⟩⟩ := ho.body
      · simp [ht] at ht'
      · simp [hsnap] at hs
    · exact hne ht

theorem of_reaches (hG : ∀ c a, G c a → NoSnapshot a) (h : S.Reaches G c) : Whole c := by
  refine h.induct ⟨fun _ => rfl, fun _ => rfl, by simp [Setup.start]⟩
    (fun c d rd hc => { hc with }) ?_ ?_ ?_
  · intro c i m r _ hc _ hm _ he
    exact hc.effect hm he
  · intro c i index t data _ _ _ hg
    exact (hG c _ hg).elim
  · intro c i _ hc _
    exact hc.put (hc.offset i) (hc.snapshot i) fun p hp => Or.inl (by rwa [put_net_advance] at hp)

end Whole

/-- A `MsgApp` reaches to the end of the log it is sent from. -/
theorem Carried.upTo_eq (h : Carried c) {x : Message} (ho : (c.nodes i).Outgoing x)
    (ht : x.type = .msgApp) : x.upTo + 1 = (c.nodes i).raftLog.endIndex := by
  obtain ⟨pr, hpr, ⟨-, hoff, hi, hterm, hes, -⟩ | ⟨ht', -⟩⟩ := ho.body
  · exact (RaftLog.segment_last hoff (((h.node i).tracks ho.leader).peers _ pr hpr).2 hi hterm
      hes).1
  · simp [ht] at ht'

/-- The `MsgApp`s of a leader reach further and further. -/
def Advancing (c : Cluster) : Prop :=
  c.net.Pairwise fun q p => p.msg.type = .msgApp → q.msg.type = .msgApp →
    q.msg.src = p.msg.src → q.msg.term = p.msg.term → q.msg.upTo ≤ p.msg.upTo

theorem Advancing.effect (h : Advancing c) (hc : Carried (c.put i r)) (hid : r.id = i)
    (he : (c.nodes i).Effect m r) : Advancing (c.put i r) := by
  obtain ⟨ms, hms, hsent⟩ := he.sent
  have hnet : (c.put i r).net = c.net ++ ms.map fun m => ⟨m, r.raftLog⟩ := by
    simp [Cluster.put, hms]
  -- a new message reaches to the end of the log, as far as any message of this leader does
  have hnew {q p : Packet} (hq : q ∈ (c.put i r).net) (hp : p.msg ∈ ms)
      (hpt : p.msg.type = .msgApp) (hqt : q.msg.type = .msgApp) (hsrc : q.msg.src = p.msg.src)
      (hterm : q.msg.term = p.msg.term) : q.msg.upTo ≤ p.msg.upTo := by
    have ho := (hsent _ hp).outgoing.resolve_right fun h => h.1 hpt
    have hup := hc.upTo_eq (i := i) (by rwa [put_nodes_self]) hpt
    have hb := hc.bound q hq hqt
    rw [hsrc, ho.src, hid, hterm, ho.term, put_nodes_self] at hb
    rw [put_nodes_self] at hup
    omega
  unfold Advancing
  rw [hnet, List.pairwise_append]
  refine ⟨h, ?_, ?_⟩
  · rw [List.pairwise_map]
    refine List.pairwise_of_forall_mem_list fun x hx y hy => ?_
    refine hnew (q := ⟨x, r.raftLog⟩) (p := ⟨y, r.raftLog⟩) ?_ hy
    rw [hnet]
    exact List.mem_append_right _ (List.mem_map_of_mem hx)
  · intro q hq p hp
    obtain ⟨x, hx, rfl⟩ := List.mem_map.mp hp
    exact hnew (mem_put_net_of_mem r hq) hx

theorem Advancing.of_reaches (hG : ∀ c a, G c a → SnapshotInLog c a) (h : S.Reaches G c) :
    Advancing c := by
  refine h.induct (by simp [Advancing, Setup.start]) (fun c d rd hc => hc) ?_ ?_ ?_
  · intro c i m r hr hc hi hm hb he
    have hw : Wired S c := .of_reaches hr
    have hcar : Carried c := .of_reaches hG hr
    exact hc.effect (hcar.effect hw (.of_reaches hr) (.of_reaches hr) hm hb he)
      (he.id_eq.trans (hw.id i)) he
  · intro c i index t data _ hc _ _ _ _ _
    unfold Advancing
    rwa [put_net_compacted]
  · intro c i _ hc _
    unfold Advancing
    rwa [put_net_advance]

/-- Where the entries of its own term that a node has come from: it made them itself, or a
`MsgApp` that was delivered brought them. -/
def Brought (c : Cluster) : Prop :=
  ∀ j n e, (c.nodes j).raftLog.entry n = some e → e.term = (c.nodes j).term → 0 < e.term →
    (e.term, j) ∈ c.led ∨ ∃ k ∈ c.delivered, ∃ q, c.net[k]? = some q ∧
      q.msg.dst = j ∧ q.msg.type = .msgApp ∧ q.msg.term = e.term ∧ n ≤ q.msg.upTo

namespace Brought

/-- A step that turns node `i` into `r` and may record a delivery. -/
theorem put (h : Brought c) {d : List ℕ} (hd : ∀ k ∈ c.delivered, k ∈ d)
    (hnew : ∀ n e, r.raftLog.entry n = some e → e.term = r.term → 0 < e.term →
      ((c.nodes i).raftLog.entry n = some e ∧ e.term = (c.nodes i).term) ∨
      (e.term, i) ∈ (c.put i r).led ∨ ∃ k ∈ d, ∃ q, c.net[k]? = some q ∧
        q.msg.dst = i ∧ q.msg.type = .msgApp ∧ q.msg.term = e.term ∧ n ≤ q.msg.upTo) :
    Brought { c.put i r with delivered := d } := by
  intro j n e he ht hpos
  have keep (hold : (e.term, j) ∈ c.led ∨ ∃ k ∈ c.delivered, ∃ q, c.net[k]? = some q ∧
      q.msg.dst = j ∧ q.msg.type = .msgApp ∧ q.msg.term = e.term ∧ n ≤ q.msg.upTo) :
      (e.term, j) ∈ (c.put i r).led ∨ ∃ k ∈ d, ∃ q, (c.put i r).net[k]? = some q ∧
        q.msg.dst = j ∧ q.msg.type = .msgApp ∧ q.msg.term = e.term ∧ n ≤ q.msg.upTo := by
    rcases hold with hold | ⟨k, hk, q, hq, hrest⟩
    · exact Or.inl (mem_put_led_of_mem i r hold)
    · exact Or.inr ⟨k, hd k hk, q, c.getElem?_put_net i r hq, hrest⟩
  by_cases hj : j = i
  · subst hj
    rw [put_nodes_self] at he ht
    rcases hnew n e he ht hpos with ⟨he, ht⟩ | hled | ⟨k, hk, q, hq, hrest⟩
    · exact keep (h j n e he ht hpos)
    · exact Or.inl hled
    · exact Or.inr ⟨k, hk, q, c.getElem?_put_net j r hq, hrest⟩
  · rw [put_nodes_of_ne _ _ hj] at he ht
    exact keep (h j n e he ht hpos)

/-- An effect that leaves the log alone. -/
theorem put_kept (h : Brought c) (hdt : Dated c) (hle : (c.nodes i).term ≤ r.term)
    (hlog : r.raftLog = (c.nodes i).raftLog) {d : List ℕ} (hd : ∀ k ∈ c.delivered, k ∈ d) :
    Brought { c.put i r with delivered := d } := by
  refine h.put hd fun n e he ht _ => Or.inl ?_
  rw [hlog] at he
  exact ⟨he, le_antisymm (hdt.log i n e he) (ht ▸ hle)⟩

/-- An effect after which the node leads. -/
theorem put_leader (h : Brought c) (hs : r.state = .leader) {d : List ℕ}
    (hd : ∀ k ∈ c.delivered, k ∈ d) : Brought { c.put i r with delivered := d } := by
  refine h.put hd fun n e _ ht _ => Or.inr (Or.inl ?_)
  simp [Cluster.put, hs, ht]

/-- The end of handling message `k`. -/
theorem handle (h : Brought c) (hdt : Dated c) (hw : Whole c) {k : ℕ} {p : Packet}
    (hp : c.net[k]? = some p) (hle : (c.nodes p.msg.dst).term ≤ r.term)
    (he : LogChange (c.nodes p.msg.dst) r (some p.msg)) :
    Brought { c.put p.msg.dst r with delivered := k :: c.delivered } := by
  have hd : ∀ k' ∈ c.delivered, k' ∈ k :: c.delivered := fun _ => List.mem_cons_of_mem k
  cases he with
  | kept log => exact h.put_kept hdt hle log hd
  | appended data state => exact h.put_leader state hd
  | @truncated _ t first hma ht term notLeader state hi hterm hne hfirst log =>
    have ho : (c.nodes p.msg.dst).raftLog.offset ≤ first := by
      rw [hw.offset]
      exact Nat.zero_le _
    obtain ⟨-, -, -, hent⟩ := RaftLog.truncate_eq ho log
    refine h.put hd fun n e he het _ => Or.inl ?_
    rw [hent] at he
    split_ifs at he
    exact ⟨he, het.trans term⟩
  | extended hma ht term notLeader state hi hterm hne log =>
    obtain ⟨-, -, hoff, hend, hent⟩ := RaftLog.truncateAndAppend_eq log
    refine h.put hd fun n e he het _ => ?_
    have hb := (RaftLog.entry_bounds he).2
    rw [hent] at he
    split_ifs at he with hn
    · exact Or.inl ⟨he, het.trans term⟩
    · refine Or.inr (Or.inr ⟨k, List.mem_cons_self, p, hp, rfl, hma, ?_, ?_⟩)
      · rw [ht, het, term]
      · unfold Message.upTo
        omega
  | installed hms => exact absurd hms (hw.net p (List.mem_of_getElem? hp))

theorem of_reaches (hG : ∀ c a, G c a → NoSnapshot a) (h : S.Reaches G c) : Brought c := by
  refine TransitionSystem.Reach.induct h ?_ ?_
  · rintro c rfl j n e he ht hpos
    rw [ht] at hpos
    exact absurd hpos (lt_irrefl 0)
  · intro c a c' hr hI hg hs
    have hdt : Dated c := .of_reaches hr
    have hw : Whole c := .of_reaches hG hr
    have hup {k : ℕ} {p : Packet} (hp : c.net[k]? = some p) (hgk : G c (.deliver k)) :
        ∀ m' ∈ some p.msg, m'.type ≠ .msgHup :=
      (Wired.of_reaches hr).not_hup (m := some p.msg) ⟨k, p, hp, rfl, rfl, hgk⟩
    cases hs with
    | @own i r hi hb he =>
      have hle : (c.nodes i).term ≤ r.term := he.term_le (by simp) fun _ => hb
      cases he.log with
      | kept log => exact hI.put_kept hdt hle log fun _ h => h
      | appended data state => exact hI.put_leader state fun _ h => h
    | compact => exact (hG c _ (hg _ rfl)).elim
    | @take i hi =>
      exact fun j => hI.put_kept (i := i) (r := (c.nodes i).advance) (d := c.delivered) hdt
        le_rfl rfl (fun _ h => h) j
    | @prepare k p r hp hd he hs hm =>
      exact hI.put_kept hdt (he.term_le (hup hp (hg _ rfl)) nofun) (he.quiet hs hm).1.log
        fun _ h => h
    | @handle k p r hp hd he =>
      exact hI.handle hdt hw hp (he.term_le (hup hp (hg _ rfl)) nofun) he.log

end Brought

/-- In a run without compaction in which messages arrive in order and no term has two
leaders, every step is `Forward`. -/
theorem forward_of_inOrder (hN : ∀ c a, G c a → NoSnapshot a) (hO : ∀ c a, G c a → InOrder c a)
    (hr : S.Reaches G c) (hu : c.UniqueLeaders) {a : Action} (hg : G c a) : Forward c a := by
  have hS : ∀ c a, G c a → SnapshotInLog c a := by
    intro c a hg
    cases a with
    | snapshot => exact (hN c _ hg).elim
    | _ => trivial
  refine ⟨hS c a hg, ?_⟩
  cases a with
  | deliver k =>
    intro p hp hterm hlast
    have hpm := List.mem_of_getElem? hp
    have hc : Carried c := .of_reaches hS hr
    refine ⟨fun hma hne => ?_, fun hms => absurd hms ((Whole.of_reaches hN hr).net p hpm)⟩
    have hlead := hc.leader p hpm hma
    have hpos : 0 < p.msg.term := (Led.of_reaches hr).positive _ _ hlead
    obtain ⟨e, he, het, -⟩ := RaftLog.exists_last (hlast.trans_ne hpos.ne')
    rw [hlast] at het
    rw [RaftLog.lastIndex_of_pos (hc.nonempty _)]
    rcases Brought.of_reaches hN hr _ _ e he (het.trans hterm.symm) (het ▸ hpos) with
      hled | ⟨k', hk', q, hq, hqd, hqt, hqterm, hle⟩
    · -- the receiver does not lead the term itself
      have hsrc := hu _ _ _ hlead (het ▸ hled)
      exact absurd hsrc ((Wired.of_reaches hr).ne p hpm)
    · have hqlead := hc.leader q (List.mem_of_getElem? hq) hqt
      rw [hqterm, het] at hqlead
      have hsrc : q.msg.src = p.msg.src := hu _ _ _ hqlead hlead
      have hlt : k' < k := hO c _ hg p hp k' hk' q hq hsrc hqd
      obtain ⟨hk₁, hk₂⟩ := List.getElem?_eq_some_iff.mp hp
      obtain ⟨hk₁', hk₂'⟩ := List.getElem?_eq_some_iff.mp hq
      have hmono := List.pairwise_iff_getElem.mp (Advancing.of_reaches hS hr) k' k hk₁' hk₁ hlt
      rw [hk₂, hk₂'] at hmono
      exact hle.trans (hmono hma hqt hsrc (hqterm.trans het))
  | _ => trivial

end

end Mizu
