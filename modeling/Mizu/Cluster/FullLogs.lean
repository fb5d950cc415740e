import Mizu.Cluster.Order

/-!
# Whole logs

Without compaction a log that has an entry has everything the entry was made on, so
that one entry stands for all of a log below it. Under delivery in order a follower
keeps what it has of its own term, and what all entries of its term stand on; for the
second the back-off of `handleAppend` must not remove entries that the sender has.
-/

namespace Mizu

open Raft Cluster

/-- The back-off of `handleAppend` removes no entry that is of the same term in the log of
the sender. -/
def KeepsShared (c : Cluster) : Action → Prop :=
  c.Delivering fun p => p.msg.type = .msgApp → (c.nodes p.msg.dst).term ≤ p.msg.term →
    p.msg.logIndex ≤ (c.nodes p.msg.dst).raftLog.lastIndex →
    ∀ t ∈ (c.nodes p.msg.dst).raftLog.term p.msg.logIndex, p.msg.logTerm ≠ t →
    ∀ first ∈ conflictFirst (c.nodes p.msg.dst).raftLog t p.msg.logIndex,
    ∀ k < (c.nodes p.msg.dst).raftLog.endIndex, first ≤ k →
    ∀ e ∈ (c.nodes p.msg.dst).raftLog.entry k, ∀ e' ∈ p.log.entry k, e.term ≠ e'.term

instance (c : Cluster) (a : Action) : Decidable (KeepsShared c a) :=
  inferInstanceAs (Decidable (c.Delivering _ a))

/-- Messages arrive in order, the logs are whole, votes are fresh and shared entries stay. -/
def Orderly (c : Cluster) (a : Action) : Prop :=
  (NoSnapshot a ∧ InOrder c a) ∧ FreshVotes c a ∧ KeepsShared c a

instance (c : Cluster) (a : Action) : Decidable (Orderly c a) :=
  inferInstanceAs (Decidable ((_ ∧ _) ∧ _ ∧ _))

theorem keepsShared_stable (S : Setup) (G : Cluster → Action → Prop) :
    S.Stable G KeepsShared := by
  intro c k p r hr hp he hs hm hg p' hp' hma hterm
  rw [Option.mem_def, getElem?_put_net _ _ hp] at hp'
  cases hp'
  rw [put_nodes_self] at hterm ⊢
  obtain ⟨⟨hlog, -⟩, hcases⟩ := he.quiet hs hm
  have hle : (c.nodes p.msg.dst).term ≤ p.msg.term := by
    rcases hcases p.msg rfl (by simp [hma]) with heq | ⟨hlt, -⟩
    · exact heq ▸ hterm
    · exact hlt.le
  rw [hlog]
  exact hg p hp hma hle

theorem orderly_stable (S : Setup) (G : Cluster → Action → Prop) : S.Stable G Orderly :=
  ((noSnapshot_stable S G).and (inOrder_stable S G)).and
    ((freshVotes_stable S G).and (keepsShared_stable S G))

/-- What the steps of an orderly run satisfy when no term has two leaders. -/
def Steady (c : Cluster) (a : Action) : Prop := Orderly c a ∧ Forward c a

theorem Steady.noSnapshot {c : Cluster} {a : Action} (h : Steady c a) : NoSnapshot a := h.1.1.1

theorem Steady.inLog {c : Cluster} {a : Action} (h : Steady c a) : SnapshotInLog c a := h.2.1

/-- Orderly runs have one leader a term, and are steady. -/
theorem steady_of_orderly {S : Setup} {c : Cluster} (h : S.Reaches Orderly c) :
    c.UniqueLeaders ∧ S.Reaches Steady c := by
  have unique {c : Cluster} (h : S.Reaches Orderly c) : c.UniqueLeaders := by
    have hv : S.Reaches FreshVotes c :=
      TransitionSystem.Reach.imp h fun c a c' _ hg _ a' ha => (hg a' ha).2.1
    obtain ⟨B, hB⟩ := Polled.of_reaches hv
    exact hB.unique
  refine ⟨unique h, TransitionSystem.Reach.imp h fun c a c' hr hg _ a' ha => ?_⟩
  exact ⟨hg a' ha, forward_of_inOrder (fun _ _ h => h.1.1) (fun _ _ h => h.1.2) hr (unique hr)
    (hg a' ha)⟩

/-! ### Whole logs -/

namespace RaftLog

/-- The log has the entry `e` above its sentinel. -/
def Has (l : RaftLog) (e : Entry) : Prop := 0 < e.index ∧ l.entry e.index = some e

/-- A log of recorded entries from which nothing was compacted away. -/
structure Full (H : Entry → ℕ → Prop) (l : RaftLog) : Prop where
  offset : l.offset = 0
  linked : l.Linked H
  sentinel : ∀ e, l.entry 0 = some e → e.term = 0

/-- `l` is at least as up to date as `l'`, as `canVote` compares them. -/
def UpToDate (l l' : RaftLog) : Prop :=
  l'.lastTerm < l.lastTerm ∨ (l'.lastTerm = l.lastTerm ∧ l'.lastIndex ≤ l.lastIndex)

theorem UpToDate.refl (l : RaftLog) : l.UpToDate l := Or.inr ⟨rfl, le_rfl⟩

theorem upToDate_of_canVote {r : Raft} {m : Message} {l : RaftLog} (h : r.canVote m = true)
    (hi : m.logIndex = l.lastIndex) (ht : m.logTerm = l.lastTerm) : l.UpToDate r.raftLog := by
  unfold canVote at h
  split_ifs at h with h₁ h₂ h₃ h₄
  rw [hi, ht] at h₄
  rw [ht] at h₃
  rcases Nat.lt_or_ge r.raftLog.lastTerm l.lastTerm with hlt | hge
  · exact Or.inl hlt
  · have heq : r.raftLog.lastTerm = l.lastTerm := le_antisymm (not_lt.mp h₃) hge
    exact Or.inr ⟨heq, by simpa [heq] using h₄⟩

variable {H K : Entry → ℕ → Prop} {l l' : RaftLog} {e x : Entry}

theorem Has.bounds (h : l.Has e) : e.index < l.endIndex := (entry_bounds h.2).2

theorem Full.mono (h : l.Full H) (hHK : ∀ e t, H e t → K e t) : l.Full K :=
  ⟨h.offset, h.linked.mono hHK, h.sentinel⟩

theorem Full.recorded (h : l.Full H) (he : l.Has e) : ∃ t, H e t :=
  h.linked.knows (h.offset.symm ▸ he.1) he.2

/-- An entry that a whole log has at an index other than zero. -/
theorem Full.has (h : l.Full H) {n : ℕ} (hn : 0 < n) (he : l.entry n = some e) : l.Has e := by
  have hidx : e.index = n := h.linked.at_pos n e he
  exact ⟨hidx ▸ hn, hidx ▸ he⟩

/-- The last entry, when it is of a positive term. -/
theorem Full.exists_last (h : l.Full H) (hpos : 0 < l.lastTerm) :
    ∃ x, l.Has x ∧ x.term = l.lastTerm ∧ x.index + 1 = l.endIndex := by
  obtain ⟨x, hx, hxt, hoff⟩ := RaftLog.exists_last hpos.ne'
  have hidx : x.index = l.endIndex - 1 := h.linked.at_pos _ x hx
  have hn : 0 < l.endIndex - 1 := by
    by_contra h0
    have h0' : l.endIndex - 1 = 0 := by omega
    rw [h0'] at hx
    have := h.sentinel x hx
    omega
  exact ⟨x, h.has hn hx, hxt, by omega⟩

/-- Two whole logs with a common entry agree below it. -/
theorem Full.has_of_common (hu : Chain.Unambiguous Entry.index Entry.term H) (hl : l.Full H)
    (hl' : l'.Full H) (hx : l.Has x) (hx' : l'.Has x) (he : l'.Has e) (hle : e.index ≤ x.index) :
    l.Has e := by
  have hb := hx.bounds
  have hb' := hx'.bounds
  obtain ⟨d, d', hd, hd', -, heq⟩ := Chain.Linked.agree hu hl.linked hl'.linked (a := 0)
    (fun k _ _ => entry_isSome_iff.mpr (by rw [hl.offset]; omega))
    (fun k _ _ => entry_isSome_iff.mpr (by rw [hl'.offset]; omega)) hx.2 hx'.2 rfl
    (Nat.zero_le e.index) hle
  rw [he.2] at hd'
  cases hd'
  exact ⟨he.1, heq he.1 ▸ hd⟩

end RaftLog

/-- The entry `x` was made, directly or not, on top of `e`: a log has both. -/
def StandsOn (H : Entry → ℕ → Prop) (x e : Entry) : Prop :=
  ∃ l : RaftLog, l.Full H ∧ l.Has x ∧ l.Has e ∧ e.index ≤ x.index

/-- Every entry made in a term between that of `e` and `T` stands on `e`. -/
def Inherited (H : Entry → ℕ → Prop) (e : Entry) (T : ℕ) : Prop :=
  ∀ x t, H x t → e.term < x.term → x.term < T → StandsOn H x e

section

variable {H K : Entry → ℕ → Prop} {l : RaftLog} {e x d : Entry}

theorem StandsOn.has (hu : Chain.Unambiguous Entry.index Entry.term H) (h : StandsOn H x e)
    (hl : l.Full H) (hx : l.Has x) : l.Has e := by
  obtain ⟨l', hl', hx', he, hle⟩ := h
  exact hl.has_of_common hu hl' hx hx' he hle

theorem StandsOn.mono (h : StandsOn H x e) (hHK : ∀ e t, H e t → K e t) : StandsOn K x e := by
  obtain ⟨l, hl, hrest⟩ := h
  exact ⟨l, hl.mono hHK, hrest⟩

theorem StandsOn.trans (hu : Chain.Unambiguous Entry.index Entry.term H) (h : StandsOn H x e)
    (h' : StandsOn H e d) : StandsOn H x d := by
  obtain ⟨l, hl, hx, he, hle⟩ := h
  have hd := h'.has hu hl he
  obtain ⟨-, -, -, -, hle'⟩ := h'
  exact ⟨l, hl, hx, hd, hle'.trans hle⟩

/-- What is inherited in a larger record is inherited in a smaller one whose entries all
come with their logs. -/
theorem Inherited.of_mono (hHK : ∀ e t, H e t → K e t)
    (hu : Chain.Unambiguous Entry.index Entry.term K)
    (hroot : ∀ e t, H e t → ∃ l : RaftLog, l.Full H ∧ l.Has e) {T : ℕ} (h : Inherited K e T) :
    Inherited H e T := by
  intro x t hx hlt hT
  obtain ⟨l, hl, hlx⟩ := hroot x t hx
  have hs := h x t (hHK x t hx) hlt hT
  have hle := hs.has hu (hl.mono hHK) hlx
  obtain ⟨-, -, -, -, hidx⟩ := hs
  exact ⟨l, hl, hlx, hle, hidx⟩

end

section

variable {S : Setup} {G : Cluster → Action → Prop} {c : Cluster} {H K : Entry → ℕ → Prop} {i j : ℕ}
  {r : Raft} {m : Option Message} {l l' : RaftLog} {e x : Entry} {t : ℕ}

/-- A whole log with an entry of the term of `e`, not below `e`, has `e`. -/
theorem Grown.has_of_term (h : Grown c H) (hl : l.Full H) (hx : l.Has x) (he : H e t)
    (hpos : 0 < e.index) (ht : x.term = e.term) (hle : e.index ≤ x.index) : l.Has e := by
  have hb := hx.bounds
  obtain ⟨d, hd⟩ := RaftLog.exists_entry (l := l) (i := e.index) (by rw [hl.offset]; omega)
    (by omega)
  have hdt := h.term_down hl.linked he hx.2 ht le_rfl hle hd
  obtain ⟨u, hu⟩ := hl.recorded (hl.has hpos hd)
  have hidx := hl.linked.at_pos _ d hd
  exact ⟨hpos, (h.unambiguous d e u t hu he hidx hdt).1 ▸ hd⟩

/-- Of two whole logs that end in one term, each has what the other has up to its own end. -/
theorem Grown.has_of_lastTerm (h : Grown c H) (hl : l.Full H) (hl' : l'.Full H)
    (hpos : 0 < l.lastTerm) (ht : l.lastTerm = l'.lastTerm) (he : l'.Has e)
    (hlt : e.index < l.endIndex) : l.Has e := by
  obtain ⟨x, hx, hxt, hxi⟩ := hl.exists_last hpos
  obtain ⟨x', hx', hxt', hxi'⟩ := hl'.exists_last (ht ▸ hpos)
  have heq : x.term = x'.term := hxt.trans (ht.trans hxt'.symm)
  have hb := he.bounds
  rcases Nat.le_total x.index x'.index with hle | hle
  · obtain ⟨u, hu⟩ := hl.recorded hx
    have hmem := h.has_of_term hl' hx' hu hx.1 heq.symm hle
    exact hl.has_of_common h.unambiguous hl' hx hmem he (by omega)
  · obtain ⟨u, hu⟩ := hl'.recorded hx'
    have hmem := h.has_of_term hl hx hu hx'.1 heq hle
    exact hl.has_of_common h.unambiguous hl' hmem hx' he (by omega)

/-- A log that is as up to date as one that has `e` has `e` too, if its last entry stands
on `e` when it is of a later term. -/
theorem Grown.has_of_upToDate (h : Grown c H) (hpos : 0 < e.term) (hl : l.Full H)
    (hl' : l'.Full H) (he : l'.Has e) (hup : l.UpToDate l')
    (hlater : ∀ x t, H x t → x.term = l.lastTerm → e.term < x.term → StandsOn H x e) :
    l.Has e := by
  obtain ⟨t, ht⟩ := hl'.recorded he
  have hb := he.bounds
  obtain ⟨z, hz⟩ := RaftLog.exists_entry (l := l') (i := l'.endIndex - 1)
    (by rw [hl'.offset]; omega) (by omega)
  have hzt : e.term ≤ l'.lastTerm := by
    rw [RaftLog.lastTerm_of_entry hz]
    exact h.term_le hl'.linked he.2 (by omega) hz
  have hle : l'.lastTerm ≤ l.lastTerm := by
    rcases hup with hlt | ⟨heq, -⟩
    · exact hlt.le
    · exact heq.le
  obtain ⟨x, hx, hxt, hidx⟩ := hl.exists_last (by omega)
  obtain ⟨u, hu⟩ := hl.recorded hx
  rcases Nat.lt_or_ge e.term x.term with hlt | hge
  · exact (hlater x u hu hxt hlt).has h.unambiguous hl hx
  · -- both logs end in the term of `e`
    have hlast : l'.lastIndex ≤ l.lastIndex := by
      rcases hup with hlt | ⟨-, hle⟩
      · omega
      · exact hle
    rw [RaftLog.lastIndex_of_pos (by omega), RaftLog.lastIndex_of_pos (by omega)] at hlast
    exact h.has_of_term hl hx ht he.1 (by omega) (by omega)

/-- The logs of the nodes are whole. -/
theorem Grown.full (h : Grown c H) (hw : Whole c) (hc : Carried c) (i : ℕ) :
    (c.nodes i).raftLog.Full H :=
  ⟨hw.offset i, h.log i, (hc.node i).zero⟩

/-- Recorded entries are of positive terms. -/
theorem Grown.term_pos (h : Grown c H) (hl : Led c) (he : H e t) : 0 < e.term := by
  obtain ⟨i, hi⟩ := h.owner e t he
  exact hl.positive _ _ hi

/-- The leader has the entry it makes. -/
theorem Raft.Makes.has {s : Raft} (h : r.Makes s e t) (hnil : 0 < r.raftLog.endIndex) :
    s.raftLog.Has e := by
  refine ⟨h.entry_index ▸ hnil, ?_⟩
  rw [h.log, RaftLog.entry_append, h.entry_index]
  simp

/-! ### What packets carry -/

/-- Recorded entries come with a log, and packets carry the log that their message speaks of. -/
structure Logged (c : Cluster) (H : Entry → ℕ → Prop) : Prop where
  rooted : ∀ e t, H e t → ∃ l : RaftLog, l.Full H ∧ l.Has e
  sent : ∀ p ∈ c.net, p.log.Full H
  app : ∀ p ∈ c.net, p.msg.type = .msgApp →
    p.log.lastTerm = p.msg.term ∧ p.log.endIndex = p.msg.upTo + 1
  ack : ∀ p ∈ c.net, p.msg.type = .msgAppResp → p.msg.reject = false →
    p.log.lastTerm = p.msg.term ∧ p.log.endIndex = p.msg.logIndex + 1

namespace Logged

theorem init (S : Setup) : Logged S.start fun _ _ => False where
  rooted _ _ h := h.elim
  sent p hp := by simp [Setup.start] at hp
  app p hp := by simp [Setup.start] at hp
  ack p hp := by simp [Setup.start] at hp

/-- What a sent message says about the log it is sent with. -/
theorem sent_step (hg : Grown c H) (hl : Led c) (hd : Dated c) (hc : Carried c)
    (hc' : Carried (c.put i r)) (hm : c.Source G i m) {x : Message} (hx : Sent (c.nodes i) r m x) :
    (x.type = .msgApp → r.raftLog.lastTerm = x.term ∧ r.raftLog.endIndex = x.upTo + 1) ∧
    (x.type = .msgAppResp → x.reject = false →
      r.raftLog.lastTerm = x.term ∧ r.raftLog.endIndex = x.logIndex + 1) := by
  have hpos : 0 < r.raftLog.endIndex := by
    have := hc'.nonempty i
    rwa [put_nodes_self] at this
  cases hx with
  | replicated ho =>
    obtain ⟨pr, -, ⟨ht, -⟩ | ⟨ht, -⟩⟩ := ho.body
    · refine ⟨fun _ => ⟨?_, ?_⟩, by simp [ht]⟩
      · have := hc'.last i (by rw [put_nodes_self]; exact ho.leader)
        rw [put_nodes_self] at this
        rw [this, ho.term]
      · have := hc'.upTo_eq (i := i) (by rwa [put_nodes_self]) ht
        rw [put_nodes_self] at this
        exact this.symm
    · exact ⟨by simp [ht], by simp [ht]⟩
  | acked hma htm term hs hi hlast hlog =>
    obtain ⟨p, hp, rfl, -⟩ := mem_net_of_source hm
    refine ⟨nofun, fun _ _ => ⟨?_, ?_⟩⟩
    · exact (hg.accepted_last hl hd hc hp hma htm hlast hlog).trans (htm.trans term.symm)
    · change r.raftLog.endIndex = r.raftLog.lastIndex + 1
      rw [RaftLog.lastIndex_of_pos hpos]
      omega
  | _ => exact ⟨nofun, nofun⟩

theorem effect (h : Logged c H) (hg : Grown c H) (hl : Led c) (hd : Dated c) (hc : Carried c)
    (hc' : Carried (c.put i r)) (hw' : Whole (c.put i r)) (hK : Grown (c.put i r) K)
    (hHK : ∀ e t, H e t → K e t) (hmake : ∀ e t, K e t → H e t ∨ (c.nodes i).Makes r e t)
    (hm : c.Source G i m) (he : (c.nodes i).Effect m r) : Logged (c.put i r) K := by
  have hfull : r.raftLog.Full K := by
    have := hK.full hw' hc' i
    rwa [put_nodes_self] at this
  have net {p : Packet} (hp : p ∈ (c.put i r).net) :
      p ∈ c.net ∨ (Sent (c.nodes i) r m p.msg ∧ p.log = r.raftLog) :=
    sent_of_mem_put_net he hp
  constructor
  · intro e t hK'
    rcases hmake e t hK' with hH | hmk
    · obtain ⟨l, hl, he⟩ := h.rooted e t hH
      exact ⟨l, hl.mono hHK, he⟩
    · exact ⟨r.raftLog, hfull, hmk.has (hc.nonempty i)⟩
  · intro p hp
    rcases net hp with hp | ⟨-, hlog⟩
    · exact (h.sent p hp).mono hHK
    · exact hlog ▸ hfull
  · intro p hp
    rcases net hp with hp | ⟨hx, hlog⟩
    · exact h.app p hp
    · exact hlog ▸ (sent_step hg hl hd hc hc' hm hx).1
  · intro p hp
    rcases net hp with hp | ⟨hx, hlog⟩
    · exact h.ack p hp
    · exact hlog ▸ (sent_step hg hl hd hc hc' hm hx).2

theorem advance (h : Logged c H) : Logged (c.put i (c.nodes i).advance) H := by
  have hnet := c.put_net_advance i
  constructor
  · exact h.rooted
  · exact hnet ▸ h.sent
  · exact hnet ▸ h.app
  · exact hnet ▸ h.ack

/-- The entry of the message's term that a `MsgApp` ends with. -/
theorem exists_last (h : Logged c H) (hl : Led c) (hc : Carried c) {p : Packet} (hp : p ∈ c.net)
    (ht : p.msg.type = .msgApp) :
    ∃ x, p.log.Has x ∧ x.term = p.msg.term ∧ x.index = p.msg.upTo := by
  obtain ⟨hlast, hend⟩ := h.app p hp ht
  have hpos := hl.positive _ _ (hc.leader p hp ht)
  obtain ⟨x, hx, hxt, hidx⟩ := (h.sent p hp).exists_last (hlast ▸ hpos)
  exact ⟨x, hx, hxt.trans hlast, by omega⟩

end Logged

/-- A node keeps an entry that all entries of its own term stand on, or that is not above
one of its own term which it has. -/
theorem Grown.has_change (h : Grown c H) (hl : Led c) (hd : Dated c) (hc : Carried c)
    (hw : Whole c) (hp : Logged c H) (hm : c.Source Steady i m) (he : LogChange (c.nodes i) r m)
    (hhas : (c.nodes i).raftLog.Has e)
    (hsafe : (∀ x t, H x t → x.term = (c.nodes i).term → StandsOn H x e) ∨
      ∃ z, (c.nodes i).raftLog.Has z ∧ z.term = (c.nodes i).term ∧ e.index ≤ z.index) :
    r.raftLog.Has e := by
  have hoff : r.raftLog.offset = 0 := hw.log_change hm he
  have hzero := (hc.log_step hd hm he).1
  -- what the node has of its own term stays
  have own {z : Entry} (hz : (c.nodes i).raftLog.Has z) (hzt : z.term = (c.nodes i).term)
      (hle : e.index ≤ z.index) (hlinked : r.raftLog.Linked H) : r.raftLog.Has e := by
    have hfull := h.full hw hc i
    have hold := hfull.linked.holds hz.2
    rw [hzt] at hold
    rcases h.holds_change hl hd hc (fun _ _ h => h.2) hm he hold with hle' |
      ⟨z', u, hz', hi, ht, hent⟩
    · rw [hoff] at hle'
      exact absurd hle' (not_le.mpr hz.1)
    · obtain ⟨v, hv⟩ := hfull.recorded hz
      have heq := (h.unambiguous z' z u v hz' hv hi (ht.trans hzt.symm)).1
      exact RaftLog.Full.has_of_common h.unambiguous ⟨hoff, hlinked, hzero⟩ hfull
        ⟨hz.1, heq ▸ hent⟩ hz hhas hle
  cases he with
  | kept log => rwa [log]
  | appended data state role term log =>
    rw [log]
    exact ⟨hhas.1, by rw [RaftLog.entry_append, if_pos hhas.bounds, hhas.2]⟩
  | @truncated m' t first hma ht term notLeader state hi hterm hne hfirst log =>
    rcases hsafe with hsafe | ⟨z, hz, hzt, hle⟩
    · obtain ⟨k, p, hpk, rfl, hdst, hg⟩ := hm
      obtain ⟨-, -, -, hent⟩ := RaftLog.truncate_eq (by rw [hw.offset]; exact Nat.zero_le _) log
      rcases Nat.lt_or_ge e.index first with hlt | hge
      · exact ⟨hhas.1, by rw [hent, if_pos hlt, hhas.2]⟩
      · -- the sender has the entry, so the back-off does not reach it
        have hpm := List.mem_of_getElem? hpk
        obtain ⟨x, hx, hxt, -⟩ := hp.exists_last hl hc hpm hma
        obtain ⟨u, hu⟩ := (hp.sent p hpm).recorded hx
        have hpe := (hsafe x u hu (hxt.trans ht)).has h.unambiguous (hp.sent p hpm) hx
        have hkeep := hg.1.2.2 p hpk hma (by rw [hdst, ht])
        rw [hdst] at hkeep
        exact absurd rfl (hkeep hi t hterm hne first hfirst e.index hhas.bounds hge e hhas.2 e
          hpe.2)
    · exact own hz hzt hle ((h.log i).truncate log)
  | extended hma ht term notLeader state hi hterm hne log =>
    obtain ⟨p, hpm, rfl, -⟩ := mem_net_of_source hm
    have hlinked := (h.log i).truncateAndAppend (h.app p hpm hma) hterm log
    rcases hsafe with hsafe | ⟨z, hz, hzt, hle⟩
    · have hlast := h.accepted_last hl hd hc hpm hma ht hterm (.extend hne log)
      have hpos := hl.positive _ _ (hc.leader p hpm hma)
      have hfull : r.raftLog.Full H := ⟨hoff, hlinked, hzero⟩
      obtain ⟨x, hx, hxt, -⟩ := hfull.exists_last (hlast ▸ hpos)
      obtain ⟨u, hu⟩ := hfull.recorded hx
      exact (hsafe x u hu (hxt.trans (hlast.trans ht))).has h.unambiguous hfull hx
    · exact own hz hzt hle hlinked
  | installed hms =>
    obtain ⟨p, hpm, rfl, -⟩ := mem_net_of_source hm
    exact absurd hms (hw.net p hpm)

end

end Mizu
