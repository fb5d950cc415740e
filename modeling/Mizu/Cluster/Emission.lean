import Mizu.Cluster.Basic
import Mizu.Raft.Runs

/-!
# Committed entries are handed out once and in order

A node hands out the entries between its cursor and its commit index. The cursor goes
back only when a snapshot is installed that is not ahead of it, and then entries, or the
snapshot, are handed out again.
-/

namespace Mizu

open Raft Cluster

/-- Logs and messages are numbered. -/
structure Numbering (c : Cluster) : Prop where
  log : ∀ i, (c.nodes i).raftLog.Numbered
  net : ∀ p ∈ c.net, p.msg.Numbered

namespace Numbering

variable {S : Setup} {G : Cluster → Action → Prop} {c : Cluster} {i : ℕ} {r : Raft}
  {m : Option Message}

theorem put (h : Numbering c) (hr : r.raftLog.Numbered)
    (hnet : ∀ p ∈ (c.put i r).net, p ∈ c.net ∨ p.msg.Numbered) : Numbering (c.put i r) where
  log := forall_put (P := fun _ s => s.raftLog.Numbered) hr h.log
  net p hp := (hnet p hp).elim (h.net p) id

theorem log_effect (h : Numbering c) (hm : c.Source G i m) (he : (c.nodes i).Effect m r) :
    r.raftLog.Numbered := by
  refine he.log.numbered (h.log i) fun m' hm' => ?_
  cases hm'
  obtain ⟨p, hp, rfl, -⟩ := mem_net_of_source hm
  exact h.net p hp

theorem effect (h : Numbering c) (hm : c.Source G i m) (he : (c.nodes i).Effect m r) :
    Numbering (c.put i r) := by
  have hlog := h.log_effect hm he
  refine h.put hlog fun p hp => ?_
  rcases sent_of_mem_put_net he hp with hp | ⟨hx, -⟩
  · exact Or.inl hp
  · rcases hx.outgoing with ho | ⟨hne, -⟩
    · exact Or.inr (ho.numbered hlog)
    · exact Or.inr fun ht => absurd ht hne

theorem of_reaches (h : S.Reaches G c) : Numbering c := by
  refine h.induct ⟨fun _ => .restore 0 0, by simp [Setup.start]⟩ (fun c d rd hc => { hc with })
    ?_ ?_ ?_
  · intro c i m r _ hc _ hm _ he
    exact hc.effect hm he
  · intro c i index t data _ hc _ _ _ ho _
    refine hc.put ((hc.log i).compactTo ho) fun p hp => Or.inl ?_
    rwa [put_net_compacted] at hp
  · intro c i _ hc _
    refine hc.put (hc.log i) fun p hp => Or.inl ?_
    rwa [put_net_advance] at hp

end Numbering

/-! ### The nodes of a cluster -/

namespace Cluster

variable {c c' : Cluster} {a : Action} {P : Served → Call → Prop}

/-- Node `i` with what it has handed out. -/
def served (c : Cluster) (i : ℕ) : Served := ⟨c.nodes i, c.readies i⟩

/-- A condition on the call that an action makes. -/
def Calling (P : Served → Call → Prop) (c : Cluster) (a : Action) : Prop :=
  ∀ x ∈ c.call a, P (c.served x.1) x.2

instance [∀ u x, Decidable (P u x)] (c : Cluster) (a : Action) : Decidable (Calling P c a) :=
  inferInstanceAs (Decidable (∀ x ∈ c.call a, P (c.served x.1) x.2))

/-- An action is a call on one node. -/
theorem act_served (h : c.act a = some c') : ∃ i x, c.call a = some (i, x) ∧
    (c.served i).act x = some (c'.served i) ∧ ∀ j ≠ i, c'.served j = c.served j := by
  have put {i : ℕ} {x : Call} {r : Raft} (hx : x ≠ .ready) (hr : (c.nodes i).call x = some r) :
      (c.served i).act x = some ((c.put i r).served i) ∧
        ∀ j ≠ i, (c.put i r).served j = c.served j := by
    refine ⟨?_, fun j hj => ?_⟩
    · simp [Served.act, served, hr, hx, Cluster.put]
    · simp [served, Cluster.put, hj]
  cases a with
  | tick i rnd =>
    obtain ⟨r, hr, rfl⟩ := Option.map_eq_some_iff.mp h
    exact ⟨i, _, rfl, put (by simp) hr⟩
  | propose i data =>
    obtain ⟨x, hx, rfl⟩ := Option.map_eq_some_iff.mp h
    exact ⟨i, _, rfl, put (by simp) (Option.map_eq_some_iff.mpr ⟨x, hx, rfl⟩)⟩
  | readIndex i readID =>
    obtain ⟨x, hx, rfl⟩ := Option.map_eq_some_iff.mp h
    exact ⟨i, _, rfl, put (by simp) (Option.map_eq_some_iff.mpr ⟨x, hx, rfl⟩)⟩
  | cancelReadIndex i readID =>
    cases h
    exact ⟨i, _, rfl, put (by simp) rfl⟩
  | snapshot i index data =>
    obtain ⟨r, hr, rfl⟩ := Option.map_eq_some_iff.mp h
    exact ⟨i, _, rfl, put (by simp) hr⟩
  | ready i =>
    cases h
    refine ⟨i, _, rfl, ?_, fun j hj => ?_⟩
    · simp [Served.act, served, Raft.call, Cluster.take, Cluster.put]
    · simp [served, Cluster.take, Cluster.put, hj]
  | deliver k =>
    obtain ⟨p, hp, h⟩ := Option.bind_eq_some_iff.mp h
    obtain ⟨r, hr, h⟩ := Option.bind_eq_some_iff.mp h
    cases h
    exact ⟨_, _, Option.map_eq_some_iff.mpr ⟨p, hp, rfl⟩, put (by simp) hr⟩

/-- In a run of a cluster every node makes a run of its own. -/
theorem reach_served {S : Setup} (h : S.system.Reach (Calling P) c) (i : ℕ) :
    (Served.system (S.config i)).Reach P (c.served i) := by
  refine h.induct (I := fun c => (Served.system (S.config i)).Reach P (c.served i)) ?_ ?_
  · rintro c rfl
    exact .init rfl
  · rintro c a c' - ih hg ⟨-, hact⟩
    obtain ⟨j, x, hcall, hstep, hother⟩ := act_served hact
    by_cases hi : i = j
    · subst hi
      exact .step ih (hg _ hcall) hstep
    · rwa [hother i hi]

end Cluster

/-! ### One node -/

/-- A snapshot that a node accepts is ahead of what it has committed, and nothing that is
committed is still in hand. -/
def Raft.SnapshotAhead (r : Raft) (m : Message) : Prop :=
  m.type = .msgSnap → r.term ≤ m.term → ∀ snap ∈ m.snapshot, r.raftLog.firstIndex < snap.index →
    r.commitIndex < snap.index ∧ r.committedEntries = []

instance (r : Raft) (m : Message) : Decidable (r.SnapshotAhead m) :=
  inferInstanceAs (Decidable (_ → _ → ∀ snap ∈ m.snapshot, _))

theorem Raft.SnapshotAhead.quiet {r s : Raft} {m : Message} (h : r.SnapshotAhead m)
    (he : r.Effect (some m) s) (hs : s.state ≠ .leader) (hm : s.msgs = r.msgs) :
    s.SnapshotAhead m := by
  intro hms hterm
  obtain ⟨⟨hlog, hcommit, hent, -⟩, hcases⟩ := he.quiet hs hm
  have hle : r.term ≤ m.term := by
    rcases hcases m rfl (by simp [hms]) with heq | ⟨hlt, -⟩
    · exact heq ▸ hterm
    · exact hlt.le
  rw [hlog, hcommit, hent]
  exact h hms hle

namespace Served

/-- Entries that are received are numbered and snapshots ahead, and the log is compacted at indices
that were handed out. -/
def Orderly (u : Served) : Call → Prop
  | .step m => m.Numbered ∧ u.node.SnapshotAhead m
  | .snapshot index _ => ∃ e ∈ u.emitted, e.index = index
  | _ => True

instance (u : Served) (c : Call) : Decidable (u.Orderly c) := by
  induction c using Call.casesOn <;> dsimp only [Orderly] <;> infer_instance

/-- The node hands out its entries in order. -/
def Emitting (u : Served) : Prop :=
  u.node.raftLog.Numbered ∧ ∃ n, expectAll u.readies = some n ∧ u.node.Paced n

variable {u u' : Served} {c : Call}

theorem Emitting.step (h : u.Emitting) (hg : u.Orderly c) (ha : u.act c = some u') :
    u'.Emitting := by
  obtain ⟨s, hs, rfl⟩ := Option.map_eq_some_iff.mp ha
  obtain ⟨hnum, n, hn, hp⟩ := h
  rcases call_cases hs with ⟨hne, b, m, hh, hm⟩ | ⟨index, t, data, rfl, ho, rfl⟩ | ⟨rfl, rfl⟩
  · have hcall : s.raftLog.Numbered ∧ s.Paced n := by
      refine hh.induct (I := fun s => s.raftLog.Numbered ∧ s.Paced n)
        (Γ := fun r => ∀ m' ∈ m, m'.Numbered ∧ r.SnapshotAhead m') ⟨hnum, hp⟩ ?_ ?_ ?_ ?_ ?_
      · rintro m' hm'
        cases hm m' hm'
        exact hg
      · rintro r s hI ⟨⟩
        exact ⟨hI.1, hI.2.cursor, hI.2.offset, hI.2.expected⟩
      · rintro r s hΓ ⟨⟩
        exact hΓ
      · rintro r s hΓ he hs hq m' rfl
        exact ⟨(hΓ m' rfl).1, (hΓ m' rfl).2.quiet he hs hq⟩
      · rintro r s hΓ ⟨hnum, hp⟩ he -
        have hnum' := he.log.numbered hnum fun m' hm' => (hΓ m' hm').1
        exact ⟨hnum', hp.effect he hnum' fun m' hm' hms snap hsnap ht =>
          (hΓ m' hm').2 hms ht.ge snap hsnap⟩
    rw [if_neg hne]
    exact ⟨hcall.1, n, hn, hcall.2⟩
  · obtain ⟨e, he, rfl⟩ := hg
    refine ⟨hnum.compactTo ho, n, hn, hp.compacted t data ho ?_⟩
    have hlt := lt_of_expectAll hn he
    have hle := hp.le
    omega
  · refine ⟨hnum, _, ?_, hp.advance⟩
    simp [expectAll_concat, hn, hp.expected]

theorem emitting_of_reach {cfg : Config} {G : Served → Call → Prop}
    (hG : ∀ u c, G u c → u.Orderly c) (h : (system cfg).Reach G u) : u.Emitting := by
  refine h.induct ?_ fun u c u' _ hI hg hs => hI.step (hG u c hg) hs
  rintro u rfl
  exact ⟨.restore 0 0, 1, rfl, rfl, le_rfl, rfl⟩

end Served

/-- In a run of a node with any messages in any order, whose indices stay in `uint64`: if the
entries that it receives are numbered, every accepted snapshot is ahead of what it has committed and
finds nothing committed still in hand, and it compacts its log at indices that it has handed out,
then it hands out entries with consecutive indices, from 1 or from the last handed out snapshot on,
and no snapshot that is not above every entry handed out before. -/
theorem emission_in_order {cfg : Config} {u : Served}
    (h : (Served.system cfg).Reach (fun u c => u.Fits c ∧ u.Orderly c) u) :
    (∃ n, expectAll u.readies = some n) ∧
    ∀ before rd after, u.readies = before ++ rd :: after → ∀ snap ∈ rd.snapshot,
      ∀ e ∈ before.flatMap Ready.committedEntries, e.index < snap.index := by
  obtain ⟨-, n, hn, -⟩ := Served.emitting_of_reach (fun _ _ h => h.2) h
  refine ⟨⟨n, hn⟩, fun before rd after heq snap hsnap e he => ?_⟩
  rw [heq, expectAll_append] at hn
  obtain ⟨k, hk, hn⟩ := Option.bind_eq_some_iff.mp hn
  obtain ⟨k', hk', -⟩ := Option.bind_eq_some_iff.mp hn
  exact (lt_of_expectAll hk he).trans_le ((Ready.expect_bounds hk').2.1 snap hsnap)

/-- Node 2 of three gets a snapshot and the entry after it. -/
theorem emission_in_order_trio : ∃ u,
    (Served.system (trio.config 2)).Reach (fun u c => u.Fits c ∧ u.Orderly c) u ∧
    u.readies.map (fun rd => (rd.snapshot.map Snapshot.index,
      rd.committedEntries.map Entry.index)) = [(some 1, [2])] ∧
    ∃ n, expectAll u.readies = some n := by
  obtain ⟨c, hc, hrd⟩ := trio.exists_reach (Calling fun u c => u.Fits c ∧ u.Orderly c)
    (fun c => (c.readies 2).map (fun rd => (rd.snapshot.map Snapshot.index,
      rd.committedEntries.map Entry.index)) = [(some 1, [2])])
    [.tick 1 0, .deliver 1, .deliver 2, .deliver 4, .deliver 5, .ready 1, .snapshot 1 1 [],
      .tick 1 0, .deliver 6, .deliver 8, .tick 1 0, .deliver 9, .deliver 11, .propose 1 [7],
      .deliver 12, .deliver 14, .tick 1 0, .deliver 15, .ready 2] (by decide +kernel)
  have hu := reach_served hc 2
  exact ⟨_, hu, hrd, (emission_in_order hu).1⟩

/-- Node 2 has handed out entry 1, which it got from the leader, when a snapshot at index 1
arrives that the leader has sent it before; the snapshot is handed out as well. -/
theorem late_snapshot_emitted : ∃ c, trio.system.Reach (fun _ _ => True) c ∧
    (c.readies 2).map (fun rd => (rd.snapshot.map Snapshot.index,
      rd.committedEntries.map Entry.index)) = [(none, [1]), (some 1, [])] ∧
    expectAll (c.readies 2) = none :=
  trio.exists_reach _ (fun c => (c.readies 2).map (fun rd => (rd.snapshot.map Snapshot.index,
      rd.committedEntries.map Entry.index)) = [(none, [1]), (some 1, [])] ∧
    expectAll (c.readies 2) = none)
    [.tick 1 0, .deliver 1, .deliver 2, .deliver 4, .deliver 5, .ready 1, .snapshot 1 1 [],
      .tick 1 0, .tick 1 0, .deliver 6, .deliver 10, .tick 1 0, .deliver 3, .deliver 8, .ready 2,
      .deliver 11, .ready 2] (by decide +kernel)

end Mizu
