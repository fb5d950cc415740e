import Mizu.Cluster.Completeness

/-!
# State machine safety

A leader commits entries that a majority vouches for, and followers commit what a
leader tells them it has committed. Since every later leader has such entries and a
follower keeps them, whatever any node hands to its application stands below a chosen
entry, and of two chosen entries one stands on the other.
-/

namespace Mizu

open Raft Cluster

variable {S : Setup} {c : Cluster} {H K : Entry → ℕ → Prop} {i j k : ℕ} {r : Raft}
  {m : Option Message} {d e : Entry}

/-- `d` is below an entry that was chosen in a term not after `T`. -/
def Final (S : Setup) (c : Cluster) (H : Entry → ℕ → Prop) (T : ℕ) (d : Entry) : Prop :=
  ∃ e, Chosen S c H e ∧ StandsOn H e d ∧ e.term ≤ T

theorem Chosen.put (h : Chosen S c H e) (hHK : ∀ e t, H e t → K e t) (i : ℕ) (r : Raft) :
    Chosen S (c.put i r) K e := by
  obtain ⟨Q, hQ, hcard, hv⟩ := h
  exact ⟨Q, hQ, hcard, fun j hj => (hv j hj).put hHK i r⟩

theorem Chosen.recorded (h : Chosen S c H e) (hp : Logged c H) : ∃ t, H e t := by
  obtain ⟨Q, -, hcard, hv⟩ := h
  obtain ⟨j, hj⟩ := Finset.card_pos.mp (show 0 < Q.card by omega)
  exact (hv j hj).recorded hp

theorem Final.put {T T' : ℕ} (h : Final S c H T d) (hHK : ∀ e t, H e t → K e t) (i : ℕ) (r : Raft)
    (hT : T ≤ T') : Final S (c.put i r) K T' d := by
  obtain ⟨e, he, hd, hle⟩ := h
  exact ⟨e, he.put hHK i r, hd.mono hHK, hle.trans hT⟩

/-- Of two chosen entries one stands on the other. -/
theorem Chosen.compare (h : Lineage S c H) (hg : Grown c H) (hl : Led c) (hp : Logged c H)
    {e e' : Entry} (he : Chosen S c H e) (he' : Chosen S c H e') :
    StandsOn H e e' ∨ StandsOn H e' e := by
  obtain ⟨t, ht⟩ := he.recorded hp
  obtain ⟨t', ht'⟩ := he'.recorded hp
  obtain ⟨l, hl₁, hhas⟩ := hp.rooted e t ht
  obtain ⟨l', hl₂, hhas'⟩ := hp.rooted e' t' ht'
  rcases Nat.lt_trichotomy e.term e'.term with hlt | heq | hgt
  · exact Or.inr (h.complete hg hl he e' t' ht' hlt)
  · rcases Nat.le_total e.index e'.index with hle | hle
    · exact Or.inr ⟨l', hl₂, hhas', hg.has_of_term hl₂ hhas' ht hhas.1 heq.symm hle, hle⟩
    · exact Or.inl ⟨l, hl₁, hhas, hg.has_of_term hl₁ hhas ht' hhas'.1 heq hle, hle⟩
  · exact Or.inl (h.complete hg hl he' e t ht hgt)

/-- Final entries of one index are equal. -/
theorem Final.unique (h : Lineage S c H) (hg : Grown c H) (hl : Led c) (hp : Logged c H)
    {T T' : ℕ} {d d' : Entry} (hd : Final S c H T d) (hd' : Final S c H T' d')
    (hidx : d.index = d'.index) : d = d' := by
  obtain ⟨e, he, hed, -⟩ := hd
  obtain ⟨e', he', hed', -⟩ := hd'
  have common {x : Entry} (hx : StandsOn H x d) (hx' : StandsOn H x d') : d = d' := by
    obtain ⟨l, hfull, hlx, hld, -⟩ := hx
    have hld' := hx'.has hg.unambiguous hfull hlx
    have := hld.2
    rw [hidx, hld'.2] at this
    exact (Option.some.inj this).symm
  rcases Chosen.compare h hg hl hp he he' with hee | hee
  · exact common hed (hee.trans hg.unambiguous hed')
  · exact common (hee.trans hg.unambiguous hed) hed'

/-- The log has at index `k` an entry that is final in term `T`, and if this is due to an
entry of term `T` itself then the log has come so far. -/
def Fixed (S : Setup) (c : Cluster) (H : Entry → ℕ → Prop) (l : RaftLog) (T k : ℕ) : Prop :=
  ∃ d e, l.entry k = some d ∧ Chosen S c H e ∧ StandsOn H e d ∧ e.term ≤ T ∧
    (e.term = T → l.lastTerm = T)

theorem Fixed.put {l : RaftLog} {T : ℕ} (h : Fixed S c H l T k) (hHK : ∀ e t, H e t → K e t)
    (i : ℕ) (r : Raft) : Fixed S (c.put i r) K l T k := by
  obtain ⟨d, e, hd, he, hed, hrest⟩ := h
  exact ⟨d, e, hd, he.put hHK i r, hed.mono hHK, hrest⟩

theorem Fixed.final {l : RaftLog} {T : ℕ} (h : Fixed S c H l T k) :
    ∃ d, l.entry k = some d ∧ Final S c H T d := by
  obtain ⟨d, e, hd, he, hed, hle, -⟩ := h
  exact ⟨d, hd, e, he, hed, hle⟩

/-- What nodes have committed and handed out, and what leaders announce, is final. -/
structure Settled (S : Setup) (c : Cluster) (H : Entry → ℕ → Prop) : Prop where
  commit : ∀ j k, 0 < k → k ≤ (c.nodes j).commitIndex →
    Fixed S c H (c.nodes j).raftLog (c.nodes j).term k
  app : ∀ p ∈ c.net, p.msg.type = .msgApp → ∀ k, 0 < k → k ≤ p.msg.commit →
    ∃ d, p.log.entry k = some d ∧ Final S c H p.msg.term d
  emitted : ∀ j, ∀ d ∈ c.emitted j ++ (c.nodes j).committedEntries, ∃ T, Final S c H T d

namespace Settled

theorem init (S : Setup) : Settled S S.start fun _ _ => False where
  commit j k hk hle := absurd (hk.trans_le hle) (lt_irrefl 0)
  app p hp := by simp [Setup.start] at hp
  emitted j d hd := by simp [Setup.start, Cluster.emitted, newRaft] at hd

variable (hs : Lineage.Step S c i r m H K)

include hs

/-- What was committed before the step is still there. -/
theorem commit_old (h : Settled S c H) (hl : Lineage S c H)
    (hk : 0 < k) (hle : k ≤ (c.nodes i).commitIndex) :
    Fixed S (c.put i r) K r.raftLog r.term k := by
  have hb := hs.basis
  have hfull := hs.grown.full hb.whole hb.carried i
  have change {x : Entry} := hs.grown.has_change hb.led hb.dated hb.carried hb.whole hs.logged
    hs.source hs.effect.log (e := x)
  obtain ⟨d, e, hd, he, hed, hterm, hlast⟩ := h.commit i k hk hle
  have hhas : (c.nodes i).raftLog.Has d := hfull.has hk hd
  have hidx : d.index = k := hfull.linked.at_pos k d hd
  obtain ⟨t, ht⟩ := he.recorded hs.logged
  have hpos := hs.grown.term_pos hb.led ht
  -- the last entry of a node whose commitment is of its own term
  have own (heq : e.term = (c.nodes i).term) : ∃ z, (c.nodes i).raftLog.Has z ∧
      z.term = (c.nodes i).term ∧ d.index ≤ z.index := by
    obtain ⟨z, hz, hzt, hzi⟩ := hfull.exists_last (by rw [hlast heq, ← heq]; exact hpos)
    have := hhas.bounds
    exact ⟨z, hz, hzt.trans (hlast heq), by omega⟩
  have hkeep : r.raftLog.Has d := by
    refine change hhas ?_
    rcases Nat.eq_or_lt_of_le hterm with heq | hlt
    · exact Or.inr (own heq)
    · refine Or.inl fun x u hx hxt => ?_
      exact (hl.complete hs.grown hb.led he x u hx (hxt ▸ hlt)).trans hs.grown.unambiguous hed
  refine ⟨d, e, hidx ▸ hkeep.2, he.put hs.sub i r, hed.mono hs.sub, hterm.trans hs.le,
    fun heq => ?_⟩
  have heq' : (c.nodes i).term = r.term := le_antisymm hs.le (heq ▸ hterm)
  obtain ⟨z, hz, hzt, -⟩ := own (heq.trans heq'.symm)
  have hzr := change hz (Or.inr ⟨z, hz, hzt, le_rfl⟩)
  have := hs.after.lastTerm_of_holds (i := i) (a := z.index) (e := z) hs.dated
    (by rw [put_nodes_self]; exact hzr.2) (by rw [put_nodes_self, hzt, heq'])
  rwa [put_nodes_self] at this

/-- The entry up to which a leader commits is chosen. -/
theorem chosen_of_led (hst : r.state = .leader) (hlt : (c.nodes i).commitIndex < r.commitIndex)
    (hent : r.raftLog.Has e) (hidx : e.index = r.commitIndex) (het : e.term = r.term) :
    Chosen S (c.put i r) K e := by
  have hb := hs.basis
  obtain ⟨A, hA⟩ := hb.acked
  obtain ⟨t, ht⟩ := hs.full.recorded hent
  obtain ⟨Q, hQ, hcard, hq⟩ := hA.quorum hb.wired hb.carried hs.source hs.wired hs.effect hst hlt
  refine ⟨Q, hQ, hcard, fun j hj => ?_⟩
  rcases hq j hj with ⟨rfl, -⟩ | ⟨p, hp, hpt, hr, rfl, hterm, hle⟩
  · refine Or.inr ⟨?_, t, ht⟩
    simp [Cluster.put, hst, het]
  · obtain ⟨hlast, hend⟩ := hs.logged.ack p hp hpt hr
    have hfull := (hs.logged.sent p hp).mono hs.sub
    have hpos : 0 < p.log.lastTerm := by
      rw [hlast, hterm, ← het]
      exact hs.after.term_pos hs.led ht
    obtain ⟨x, hx, hxt, hxi⟩ := hfull.exists_last hpos
    exact Or.inl ⟨p, mem_put_net_of_mem r hp, hpt, hr, rfl, hterm.trans het.symm,
      hs.after.has_of_term hfull hx ht hent.1 (by rw [hxt, hlast, hterm, het]) (by omega)⟩

/-- A leader's commit. -/
theorem commit_led (hst : r.state = .leader) (hlt : (c.nodes i).commitIndex < r.commitIndex)
    (hown : r.raftLog.matchTerm r.commitIndex r.term = some true) (hk : 0 < k)
    (hle : k ≤ r.commitIndex) : Fixed S (c.put i r) K r.raftLog r.term k := by
  obtain ⟨e, he, het⟩ := RaftLog.matchTerm_eq_true hown
  have hfull := hs.full
  have hhas := hfull.has (hk.trans_le hle) he
  have hidx : e.index = r.commitIndex := hfull.linked.at_pos _ e he
  have hb := hhas.bounds
  obtain ⟨d, hd⟩ := RaftLog.exists_entry (l := r.raftLog) (i := k) (by rw [hfull.offset]; omega)
    (by omega)
  have hdi : d.index = k := hfull.linked.at_pos _ d hd
  refine ⟨d, e, hd, chosen_of_led hs hst hlt hhas hidx het,
    ⟨r.raftLog, hfull, hhas, hfull.has hk hd, by omega⟩, het.le, fun _ => ?_⟩
  have := hs.carried.last i (by rwa [put_nodes_self])
  rwa [put_nodes_self] at this

/-- A follower's commit, which its leader has announced. -/
theorem commit_learned (h : Settled S c H) {p : Packet} (hp : p ∈ c.net)
    (hpt : p.msg.type = .msgApp) (ht : p.msg.term = (c.nodes i).term)
    (hterm : r.term = (c.nodes i).term)
    (hprev : (c.nodes i).raftLog.term p.msg.logIndex = some p.msg.logTerm)
    (hlog : Extends (c.nodes i).raftLog p.msg r.raftLog) (hk : 0 < k)
    (hle : k ≤ min p.msg.commit r.raftLog.lastIndex) :
    Fixed S (c.put i r) K r.raftLog r.term k := by
  have hb := hs.basis
  obtain ⟨d, hd, e, he, hed, het⟩ := h.app p hp hpt k hk (hle.trans (min_le_left _ _))
  have hfull := hs.full
  have hfull' := (hs.logged.sent p hp).mono hs.sub
  have hlast := hs.grown.accepted_last hb.led hb.dated hb.carried hp hpt ht hprev hlog
  have hpos := hb.led.positive _ _ (hb.carried.leader p hp hpt)
  have hdi : d.index = k := hfull'.linked.at_pos _ d hd
  have hin : d.index < r.raftLog.endIndex := by
    have hnil := hs.carried.nonempty i
    rw [put_nodes_self] at hnil
    have := hle.trans (min_le_right _ _)
    rw [RaftLog.lastIndex_of_pos hnil] at this
    omega
  have hhas : r.raftLog.Has d := hs.after.has_of_lastTerm hfull hfull' (hlast ▸ hpos)
    (hlast.trans (hs.logged.app p hp hpt).1.symm) (hfull'.has hk hd) hin
  have heq : p.msg.term = r.term := ht.trans hterm.symm
  exact ⟨d, e, hdi ▸ hhas.2, he.put hs.sub i r, hed.mono hs.sub, heq ▸ het,
    fun _ => hlast.trans heq⟩

section

variable (h : Settled S c H) (hl : Lineage S c H)

include h hl

/-- Whatever the node has committed after the step. -/
theorem commit_step (hk : 0 < k)
    (hle : k ≤ r.commitIndex) : Fixed S (c.put i r) K r.raftLog r.term k := by
  cases hs.effect.commit with
  | kept commit => exact commit_old hs h hl hk (commit ▸ hle)
  | led state emits reached own => exact commit_led hs state emits.lt own hk hle
  | learned hm ht term state hterm hlog emits commit =>
    obtain ⟨p, hp, rfl, -⟩ := mem_net_of_source hs.source
    exact commit_learned hs h hp hm ht term hterm hlog hk (commit ▸ hle)
  | installed hm =>
    obtain ⟨p, hp, rfl, -⟩ := mem_net_of_source hs.source
    exact absurd hm (hs.basis.whole.net p hp)

theorem app_step {p : Packet}
    (hp : p ∈ (c.put i r).net) (ht : p.msg.type = .msgApp) (hk : 0 < k) (hle : k ≤ p.msg.commit) :
    ∃ d, p.log.entry k = some d ∧ Final S (c.put i r) K p.msg.term d := by
  rcases sent_of_mem_put_net hs.effect hp with hp | ⟨hx, hlog⟩
  · obtain ⟨d, hd, hfin⟩ := h.app p hp ht k hk hle
    exact ⟨d, hd, hfin.put hs.sub i r le_rfl⟩
  · rw [hlog]
    rcases hx.outgoing with ho | ⟨hne, -⟩
    · obtain ⟨pr, -, ⟨-, -, -, -, -, hcommit⟩ | ⟨ht', -⟩⟩ := ho.body
      · rw [ho.term]
        exact (commit_step hs h hl hk (hle.trans hcommit)).final
      · simp [ht] at ht'
    · exact absurd ht hne

/-- What a node has in hand for its application after the step. -/
theorem emitted_step (hd : d ∈ r.committedEntries) : ∃ T, Final S (c.put i r) K T d := by
  have old (hd : d ∈ (c.nodes i).committedEntries) : ∃ T, Final S (c.put i r) K T d := by
    obtain ⟨T, hT⟩ := h.emitted i d (List.mem_append_right _ hd)
    exact ⟨T, hT.put hs.sub i r le_rfl⟩
  have new (he : (c.nodes i).Emits r) : ∃ T, Final S (c.put i r) K T d := by
    rw [he.entries, List.mem_append, RaftLog.mem_between] at hd
    rcases hd with hd | ⟨k, hlt, hle, hd⟩
    · exact old hd
    · obtain ⟨d', hd', hfin⟩ := (commit_step hs h hl (Nat.zero_lt_of_lt hlt) hle).final
      rw [hd] at hd'
      cases hd'
      exact ⟨r.term, hfin⟩
  cases hs.effect.commit with
  | kept commit cursor entries => exact old (entries ▸ hd)
  | led state emits => exact new emits
  | learned hm ht term state hterm hlog emits => exact new emits
  | installed hm state hsnap hi commit cursor entries => exact old (entries ▸ hd)

theorem effect : Settled S (c.put i r) K where
  commit j k hk hle := by
    by_cases hj : j = i
    · subst hj
      rw [put_nodes_self] at hle ⊢
      exact commit_step hs h hl hk hle
    · rw [put_nodes_of_ne _ _ hj] at hle ⊢
      exact (h.commit j k hk hle).put hs.sub i r
  app p hp ht k hk hle := app_step hs h hl hp ht hk hle
  emitted j d hd := by
    have old (hd : d ∈ c.emitted j ++ (c.nodes j).committedEntries) :
        ∃ T, Final S (c.put i r) K T d := by
      obtain ⟨T, hT⟩ := h.emitted j d hd
      exact ⟨T, hT.put hs.sub i r le_rfl⟩
    by_cases hj : j = i
    · subst hj
      rw [put_nodes_self] at hd
      rcases List.mem_append.mp hd with hd | hd
      · exact old (List.mem_append_left _ hd)
      · exact emitted_step hs h hl hd
    · rw [put_nodes_of_ne _ _ hj] at hd
      exact old hd

end

omit hs in
theorem take (h : Settled S c H) : Settled S (c.take i) H where
  commit j k hk hle := by
    have := (h.commit j k hk (by rwa [← c.put_advance_commitIndex i j])).put (fun _ _ h => h) i
      (c.nodes i).advance
    rwa [← c.put_advance_raftLog i j, ← c.put_advance_term i j] at this
  app p hp ht k hk hle := by
    obtain ⟨d, hd, hfin⟩ := h.app p (by rwa [← c.put_net_advance i]) ht k hk hle
    exact ⟨d, hd, hfin.put (fun _ _ h => h) i (c.nodes i).advance le_rfl⟩
  emitted j d hd := by
    rw [emitted_take] at hd
    obtain ⟨T, hT⟩ := h.emitted j d hd
    exact ⟨T, hT.put (fun _ _ h => h) i (c.nodes i).advance le_rfl⟩

omit hs in
/-- Everything holds together along the runs of single effects. -/
theorem of_reaches (h : S.Reaches Steady c) (hu : c.UniqueLeaders) :
    ∃ H, Grown c H ∧ Logged c H ∧ Lineage S c H ∧ Settled S c H := by
  revert hu
  refine h.induct_history (I := fun c => c.UniqueLeaders →
    ∃ H, Grown c H ∧ Logged c H ∧ Lineage S c H ∧ Settled S c H) ?_ ?_ ?_ ?_ ?_
  · exact fun _ => ⟨_, Grown.init S, Logged.init S, Lineage.init S, init S⟩
  · intro c k hI hu
    obtain ⟨H, hg, hp, hl, hc⟩ := hI hu
    exact ⟨H, { hg with }, { hp with }, { hl with }, { hc with }⟩
  · intro c i m r hr hI hi hm hb he hu
    obtain ⟨H, hg, hp, hl, hc⟩ := hI hu.of_put
    have hB : Basis S c := .of_reaches hr hu.of_put
    have hcar := hB.carried.effect hB.wired hB.led hB.dated hm hb he
    have hwhole := hB.whole.effect hm he
    obtain ⟨K, hK, hHK, hmake⟩ := hg.effect hB.wired hB.led hB.dated hB.carried hu hm hb he
    have hs : Lineage.Step S c i r m H K :=
      { basis := hB, grown := hg, logged := hp, after := hK
        wired := hB.wired.effect hi hm he
        led := hB.led.effect hB.wired hm hb he
        dated := hB.dated.effect hB.wired hB.led hm hb he
        carried := hcar, whole := hwhole, unique := hu, sub := hHK, make := hmake, source := hm
        le := he.term_le (hB.wired.not_hup hm) hb, effect := he }
    exact ⟨K, hK, hp.effect hg hB.led hB.dated hB.carried hcar hwhole hK hHK hmake hm he,
      hl.effect hs, hc.effect hs hl⟩
  · intro c i index t data _ _ _ hg
    exact hg.noSnapshot.elim
  · intro c i hr hI hi hu
    obtain ⟨H, hg, hp, hl, hc⟩ := hI hu.of_put
    have hled : Led c := .of_reaches hr
    exact ⟨H, { hg.advance hled with }, { hp.advance with }, { hl.advance hled with }, hc.take⟩

end Settled

/-- In a run without compaction whose messages arrive in order and are not written over, whose
counted votes are fresh and in which the back-off of `handleAppend` spares what the sender has, any
two nodes hand the same entry of an index to their applications. -/
theorem state_machine_safety {S : Setup} {g : Growth} {s : Shared}
    (h : (S.shared g).Reach (S.Sparing Orderly) s) {i j : ℕ} {d d' : Entry}
    (hd : d ∈ s.emitted i) (hd' : d' ∈ s.emitted j) (hidx : d.index = d'.index) : d = d' := by
  obtain ⟨hu, hr⟩ := steady_of_orderly (.of_reach (orderly_stable S) (Setup.reach_cluster h))
  obtain ⟨H, hg, hp, hl, hc⟩ := Settled.of_reaches hr hu
  obtain ⟨T, hT⟩ := hc.emitted i d (List.mem_append_left _ hd)
  obtain ⟨T', hT'⟩ := hc.emitted j d' (List.mem_append_left _ hd')
  exact hT.unique hl hg (.of_reaches hr) hp hT' hidx

theorem state_machine_safety_trio : ∃ s, (trio.shared doubling).Reach (trio.Sparing Orderly) s ∧
    ∃ d d' : Entry, d ∈ s.emitted 1 ∧ d' ∈ s.emitted 2 ∧ d.index = 1 ∧ d'.index = 1 ∧ d = d' := by
  obtain ⟨s, hs, ⟨d, hd, hi⟩, d', hd', hi'⟩ := trio.exists_shared (trio.Sparing Orderly)
    (fun s => (∃ d ∈ s.emitted 1, d.index = 1) ∧ ∃ d ∈ s.emitted 2, d.index = 1)
    [.tick 1 0, .deliver 0, .deliver 2, .deliver 3, .deliver 5, .propose 1 [7], .deliver 6,
      .ready 1, .ready 2] (by decide +kernel)
  exact ⟨s, hs, d, d', hd, hd', hi, hi', state_machine_safety hs hd hd' (hi.trans hi'.symm)⟩

/-- Messages arrive in order and every term has one leader. Node 1 has committed entry 1 of
term 1 with node 3 and hands it out; the back-off on a `MsgApp` of node 3, which has the entry
too, removes it from node 1, and node 2 is elected without it. -/
theorem back_off_loses_commit : ∃ s,
    (trio.shared doubling).Reach (fun s a => NoSnapshot a ∧ InOrder s.toCluster a) s ∧
    s.UniqueLeaders ∧ { term := 1, index := 1, data := [] } ∈ s.emitted 1 ∧
    { term := 5, index := 1, data := [] } ∈ s.emitted 2 :=
  trio.exists_shared _ (fun s => s.UniqueLeaders ∧
    { term := 1, index := 1, data := [] } ∈ s.emitted 1 ∧
    { term := 5, index := 1, data := [] } ∈ s.emitted 2)
    [.tick 1 0, .deliver 1, .deliver 2, .deliver 4, .deliver 5, .ready 1, .propose 1 [7],
      .tick 3 0, .deliver 9, .deliver 10, .tick 2 0, .deliver 14, .tick 3 0, .deliver 17,
      .deliver 18, .deliver 19, .tick 2 0, .deliver 22, .deliver 24, .deliver 25, .deliver 27,
      .ready 2] (by decide +kernel)

end Mizu
