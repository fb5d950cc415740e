import Mizu.Cluster.Emission
import Mizu.Raft.Total

/-!
# The log keeps its sentinel

`handleAppend` trusts a `MsgApp` that it accepts, and its back-off stops only at the
sentinel, which it then removes. Where no message makes it cut at or below the sentinel
the log stays well formed and no call on a node panics.
-/

namespace Mizu

open Raft Cluster

namespace Raft

variable {r s : Raft} {m : Message}

/-- The cuts that `handleAppend` makes are above the sentinel: a `MsgApp` below the log has
something to be told apart by, and the back-off finds another term before the sentinel. -/
def AboveSentinel (r : Raft) (m : Message) : Prop :=
  m.type = .msgApp → r.term ≤ m.term → m.logIndex ≤ r.raftLog.lastIndex →
    (m.logIndex < r.raftLog.firstIndex → m.logTerm ≠ 0 ∨ m.entries = []) ∧
    (r.raftLog.firstIndex ≤ m.logIndex → ∀ t ∈ r.raftLog.term m.logIndex, m.logTerm ≠ t →
      ∃ k < m.logIndex, r.raftLog.firstIndex ≤ k ∧ r.raftLog.term k ≠ some t)

instance (r : Raft) (m : Message) : Decidable (r.AboveSentinel m) :=
  inferInstanceAs (Decidable (_ → _ → _ → _ ∧ (_ → ∀ t ∈ r.raftLog.term m.logIndex, _)))

/-- The calls of `TruncateAndAppend` and `Truncate` that a `MsgApp` leads to keep the
sentinel. -/
def CallsInside (r : Raft) (m : Message) : Prop :=
  m.type = .msgApp → r.term ≤ m.term → m.logIndex ≤ r.raftLog.lastIndex →
    (r.raftLog.term m.logIndex = some m.logTerm → m.entries ≠ [] →
      r.raftLog.firstIndex ≤ m.logIndex) ∧
    ∀ t, r.raftLog.term m.logIndex = some t → m.logTerm ≠ t →
      ∀ first, conflictFirst r.raftLog t m.logIndex = some first →
        first < r.raftLog.firstIndex ∨ r.raftLog.firstIndex < first

theorem AboveSentinel.callsInside (h : r.AboveSentinel m) : r.CallsInside m := by
  intro hma hle hi
  obtain ⟨hlow, hback⟩ := h hma hle hi
  refine ⟨fun hterm hne => ?_, fun t hterm hne first hfirst => ?_⟩
  · by_contra hlt
    have hlt' := not_le.mp hlt
    rcases hlow hlt' with h0 | hnil
    · rw [RaftLog.term_of_lt_offset hlt'] at hterm
      exact h0 (Option.some.inj hterm).symm
    · exact hne hnil
  · obtain ⟨hfi, -, hrun⟩ := conflictFirst_spec hterm hfirst
    rcases Nat.lt_or_ge first r.raftLog.firstIndex with hlt | hge
    · exact Or.inl hlt
    · obtain ⟨n, hn, hoff, hne'⟩ := hback (hge.trans hfi) t hterm hne
      refine Or.inr (hoff.trans_lt ?_)
      by_contra hle'
      exact hne' (hrun n (not_lt.mp hle') hn.le)

theorem CallsInside.quiet (h : r.CallsInside m) (he : r.Effect (some m) s)
    (hs : s.state ≠ .leader) (hm : s.msgs = r.msgs) : s.CallsInside m := by
  intro hma hterm
  obtain ⟨⟨hlog, -⟩, hcases⟩ := he.quiet hs hm
  have hle : r.term ≤ m.term := by
    rcases hcases m rfl (by simp [hma]) with heq | ⟨hlt, -⟩
    · exact heq ▸ hterm
    · exact hlt.le
  rw [hlog]
  exact h hma hle

theorem LogChange.sentinel {m : Option Message} (he : LogChange r s m)
    (h : r.raftLog.offset < r.raftLog.endIndex) (hm : ∀ m' ∈ m, r.CallsInside m') :
    s.raftLog.offset < s.raftLog.endIndex := by
  cases he with
  | kept log => rwa [log]
  | appended data state role term log =>
    rw [log, RaftLog.append_offset]
    simp only [RaftLog.append, RaftLog.endIndex, List.length_append] at h ⊢
    omega
  | @truncated m' t first hma ht term notLeader state hlast hterm hne hfirst log =>
    rcases (hm m' rfl hma ht.ge hlast).2 t hterm hne first hfirst with hlt | hgt
    · rw [RaftLog.truncate_of_lt hlt] at log
      rwa [← Option.some.inj log]
    · obtain ⟨hoff, hend, -⟩ := RaftLog.truncate_eq hgt.le log
      rw [hoff, hend]
      exact hgt
  | @extended m' hma ht term notLeader state hlast hterm hne log =>
    have hle := (hm m' rfl hma ht.ge hlast).1 hterm hne
    obtain ⟨-, -, hoff, hend, -⟩ := RaftLog.truncateAndAppend_eq log
    unfold RaftLog.firstIndex at hle
    omega
  | installed hms ht term notLeader state hsnap hi log =>
    rw [log]
    exact Nat.lt_succ_self _

/-- The log has its sentinel and numbered entries, and the node is one of its peers. -/
structure WellFormed (r : Raft) : Prop where
  numbered : r.raftLog.Numbered
  sentinel : r.raftLog.offset < r.raftLog.endIndex
  member : r.id ∈ Assoc.keys r.prs

namespace WellFormed

theorem sound (h : r.WellFormed) : r.Sound := ⟨Nat.zero_lt_of_lt h.sentinel, h.member⟩

theorem effect {m : Option Message} (h : r.WellFormed) (he : r.Effect m s)
    (hm : ∀ m' ∈ m, m'.Numbered ∧ r.CallsInside m') : s.WellFormed where
  numbered := he.log.numbered h.numbered fun m' hm' => (hm m' hm').1
  sentinel := he.log.sentinel h.sentinel fun m' hm' => (hm m' hm').2
  member := by
    rw [he.id_eq, he.keys_prs_eq h.member]
    exact h.member

theorem call {c : Call} (h : r.WellFormed)
    (hc : ∀ m, c = .step m → m.Numbered ∧ r.CallsInside m) (hs : r.call c = some s) :
    s.WellFormed := by
  rcases call_cases hs with ⟨-, b, m, hh, hm⟩ | ⟨index, t, data, rfl, ho, rfl⟩ | ⟨rfl, rfl⟩
  · refine hh.induct (Γ := fun r => ∀ m' ∈ m, m'.Numbered ∧ r.CallsInside m') h
      (fun m' hm' => hc m' (hm m' hm')) ?_ ?_ ?_ fun r s hΓ hI he _ => hI.effect he hΓ
    · rintro r s hI ⟨⟩
      exact ⟨hI.numbered, hI.sentinel, hI.member⟩
    · rintro r s hΓ ⟨⟩
      exact hΓ
    · rintro r s hΓ he hs hq m' rfl
      exact ⟨(hΓ m' rfl).1, (hΓ m' rfl).2.quiet he hs hq⟩
  · refine ⟨h.numbered.compactTo ho, RaftLog.compactTo_offset_lt t ho, ?_⟩
    rw [keys_compacted]
    exact h.member
  · exact ⟨h.numbered, h.sentinel, h.member⟩

/-- No call panics. -/
theorem exists_call {c : Call} (h : r.WellFormed) (hc : ∀ m, c = .step m → r.CallsInside m) :
    ∃ s, r.call c = some s := by
  cases c with
  | step m => exact exists_step h.sound fun hma hle hi => (hc m rfl hma hle hi).1
  | tick rnd => exact exists_tick h.sound rnd
  | propose data =>
    obtain ⟨x, hx⟩ := exists_propose h.sound data
    exact ⟨x.1, Option.map_eq_some_iff.mpr ⟨x, hx, rfl⟩⟩
  | readIndex readID =>
    obtain ⟨x, hx⟩ := exists_readIndex h.sound readID
    exact ⟨x.1, Option.map_eq_some_iff.mpr ⟨x, hx, rfl⟩⟩
  | snapshot index data => exact exists_snapshot h.sound index data
  | cancelReadIndex _ | ready => exact ⟨_, rfl⟩

end WellFormed

end Raft

namespace Served

/-- Entries that are received are numbered, and lead to cuts above the sentinel. -/
def Cuts (u : Served) : Call → Prop
  | .step m => m.Numbered ∧ u.node.AboveSentinel m
  | _ => True

instance (u : Served) (c : Call) : Decidable (u.Cuts c) := by
  induction c using Call.casesOn <;> dsimp only [Cuts] <;> infer_instance

theorem wellFormed_of_reach {cfg : Config} {G : Served → Call → Prop} {u : Served}
    (hid : cfg.id ∈ cfg.peers) (hn : cfg.peers.Nodup) (hG : ∀ u c, G u c → u.Cuts c)
    (h : (system cfg).Reach G u) : u.node.WellFormed := by
  refine h.induct (I := fun u => u.node.WellFormed) ?_ fun u c u' _ hI hg hs => ?_
  · rintro u rfl
    refine ⟨.restore 0 0, Nat.zero_lt_one, ?_⟩
    have hnodup : (Assoc.keys ([] : List (ℕ × Progress)) ++ cfg.peers).Nodup := hn
    exact Assoc.keys_foldl_set _ hnodup ▸ hid
  · obtain ⟨s, hcall, rfl⟩ := Option.map_eq_some_iff.mp hs
    refine hI.call (fun m hm => ?_) hcall
    subst hm
    exact ⟨(hG u _ hg).1, (hG u _ hg).2.callsInside⟩

end Served

/-- In a run of a node with any messages in any order, whose indices stay in `uint64`: if the
entries that it receives are numbered and every `MsgApp` cuts above the sentinel, then the log has
its sentinel and numbered entries, and the next such call neither panics nor makes `handleAppend`
call `TruncateAndAppend` or `Truncate` outside the log or at the sentinel. -/
theorem log_well_formed {cfg : Config} (hid : cfg.id ∈ cfg.peers) (hn : cfg.peers.Nodup)
    {u : Served} (h : (Served.system cfg).Reach (fun u c => u.Fits c ∧ u.Cuts c) u) :
    (u.node.raftLog.entries ≠ [] ∧
      (∀ (k : ℕ) e, u.node.raftLog.entries[k]? = some e → e.index = u.node.raftLog.offset + k) ∧
      u.node.raftLog.firstIndex ≤ u.node.raftLog.lastIndex) ∧
    ∀ c, u.Fits c → u.Cuts c → (∃ u', u.act c = some u') ∧ ∀ m, c = .step m →
      u.node.CallsInside m := by
  have hwf := Served.wellFormed_of_reach hid hn (fun _ _ h => h.2) h
  have hs := hwf.sentinel
  refine ⟨⟨?_, fun k e he => ?_, ?_⟩, fun c _ hc => ?_⟩
  · intro hnil
    simp [RaftLog.endIndex, hnil] at hs
  · refine hwf.numbered _ e ?_
    simp [RaftLog.entry, he]
  · rw [RaftLog.firstIndex, RaftLog.lastIndex_of_pos (Nat.zero_lt_of_lt hs)]
    omega
  · have hinside : ∀ m, c = .step m → u.node.CallsInside m := by
      rintro m rfl
      exact hc.2.callsInside
    obtain ⟨s, hcall⟩ := hwf.exists_call hinside
    exact ⟨⟨_, Option.map_eq_some_iff.mpr ⟨s, hcall, rfl⟩⟩, hinside⟩

/-- Node 2 of three has compacted its log when it gets the next entry. -/
theorem log_well_formed_trio : ∃ u m,
    (Served.system (trio.config 2)).Reach (fun u c => u.Fits c ∧ u.Cuts c) u ∧
    u.node.raftLog.offset = 2 ∧ u.node.raftLog.entries ≠ [] ∧ u.Fits (.step m) ∧ u.Cuts (.step m) ∧
    m.entries = [{ term := 1, index := 3, data := [8] }] ∧ ∃ u', u.act (.step m) = some u' := by
  obtain ⟨c, hc, hoff, hnext⟩ := trio.exists_reach (Calling fun u c => u.Fits c ∧ u.Cuts c)
    (fun c => (c.nodes 2).raftLog.offset = 2 ∧ c.net[12]?.any (fun p =>
      (c.served 2).Fits (.step p.msg) ∧ (c.served 2).Cuts (.step p.msg) ∧
        p.msg.entries = [{ term := 1, index := 3, data := [8] }]) = true)
    [.tick 1 0, .deliver 0, .deliver 2, .deliver 3, .deliver 5, .propose 1 [7], .deliver 6,
      .deliver 8, .tick 1 0, .deliver 9, .ready 2, .snapshot 2 2 [], .propose 1 [8]]
    (by decide +kernel)
  obtain ⟨p, -, hp⟩ := (Option.any_eq_true _ _).mp hnext
  obtain ⟨hfits, hcuts, hes⟩ := of_decide_eq_true hp
  have hu := reach_served hc 2
  obtain ⟨hlog, hact⟩ := log_well_formed (by decide) (by decide) hu
  exact ⟨_, p.msg, hu, hoff, hlog.1, hfits, hcuts, hes, (hact _ hfits hcuts).1⟩

/-- Node 2 has compacted its log to index 2 when the first `MsgApp` of the leader, with
previous index 0, is delivered a second time. -/
theorem late_append_panics : ∃ c, trio.system.Reach (fun _ _ => True) c ∧
    trio.Enabled c (.deliver 3) ∧ c.act (.deliver 3) = none := by
  obtain ⟨c, hc, hen, hact⟩ := trio.exists_reach (fun _ _ => True)
    (fun c => trio.Enabled c (.deliver 3) ∧ (c.act (.deliver 3)).isNone = true)
    [.tick 1 0, .deliver 0, .deliver 2, .deliver 3, .deliver 5, .propose 1 [7], .deliver 6,
      .deliver 8, .tick 1 0, .deliver 9, .ready 2, .snapshot 2 2 []] (by decide +kernel)
  exact ⟨c, hc, hen, Option.isNone_iff_eq_none.mp hact⟩

end Mizu
