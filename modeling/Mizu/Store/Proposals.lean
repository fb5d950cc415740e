import Mizu.Store.Coverage

/-!
# The futures of the writes

A write that is proposed waits under the index that Raft assigned, and its future is
finished by the entry that is applied at that index. Each future is finished at most
once. It is finished for its own entry as long as the log keeps that entry: an index
that another leader overwrites is applied with the entry of the other leader.
-/

namespace Mizu

open Raft

/-! ### The ledger of the proposals -/

/-- The writes that wait, and the history of all writes. -/
structure Ledger where
  pending : List (ℕ × ℕ)
  commands : ℕ
  appended : List (ℕ × Entry)
  completed : List Completion

variable {e : Entry}

namespace Ledger

variable {l l' : Ledger}

/-- A write that is answered at once. -/
def failed (l : Ledger) (result : WriteResult) : Ledger :=
  { l with
    commands := l.commands + 1
    completed := l.completed ++ [⟨l.commands, result, none⟩] }

/-- A write that is appended as `e`. -/
def proposed (l : Ledger) (e : Entry) : Ledger :=
  { l with
    pending := Assoc.set e.index l.commands l.pending
    commands := l.commands + 1
    appended := l.appended ++ [(l.commands, e)] }

/-- The write that waits for the index of `e`, if any, is finished. -/
def taken (l : Ledger) (e : Entry) (result : WriteResult) : Ledger :=
  { l with
    pending := Assoc.erase e.index l.pending
    completed := l.completed ++
      ((Assoc.get e.index l.pending).map fun p => ⟨p, result, some e⟩).toList }

/-- The writes that a new process does not know. -/
def cleared (l : Ledger) : Ledger := { l with pending := [] }

/-- What one action does to the ledger. -/
inductive Step (l : Ledger) : Ledger → Prop
  | same : Step l l
  | failed {result : WriteResult} (hne : result ≠ .ok) : Step l (l.failed result)
  | proposed (e : Entry) : Step l (l.proposed e)
  | taken (e : Entry) (result : WriteResult) : Step l (l.taken e result)
  | cleared : Step l l.cleared

/-- Every write is in one place of the ledger only. -/
structure Sound (l : Ledger) : Prop where
  nodup : (l.completed.map Completion.proposal).Nodup
  completed : ∀ c ∈ l.completed, c.proposal < l.commands
  pending : ∀ k p, Assoc.get k l.pending = some p →
    p < l.commands ∧ p ∉ l.completed.map Completion.proposal
  inj : ∀ k k' p, Assoc.get k l.pending = some p → Assoc.get k' l.pending = some p → k = k'
  appended : (Assoc.keys l.appended).Nodup
  appended_lt : ∀ p ∈ Assoc.keys l.appended, p < l.commands

theorem Sound.not_mem (h : l.Sound) : l.commands ∉ l.completed.map Completion.proposal := by
  intro hm
  obtain ⟨c, hc, heq⟩ := List.mem_map.mp hm
  exact (h.completed c hc).ne heq

theorem Sound.failed (h : l.Sound) (result : WriteResult) : (l.failed result).Sound where
  nodup := by
    unfold Ledger.failed
    rw [List.map_append, List.nodup_append]
    refine ⟨h.nodup, List.nodup_singleton _, ?_⟩
    rintro p hp q hq rfl
    obtain rfl := List.mem_singleton.mp hq
    exact h.not_mem hp
  completed c hc := by
    rcases List.mem_append.mp hc with hc | hc
    · exact (h.completed c hc).trans (Nat.lt_succ_self _)
    · obtain rfl := List.mem_singleton.mp hc
      exact Nat.lt_succ_self _
  pending k p hp := by
    obtain ⟨hlt, hn⟩ := h.pending k p hp
    refine ⟨hlt.trans (Nat.lt_succ_self _), ?_⟩
    unfold Ledger.failed
    rw [List.map_append, List.mem_append]
    rintro (hm | hm)
    · exact hn hm
    · exact hlt.ne (List.mem_singleton.mp hm)
  inj := h.inj
  appended := h.appended
  appended_lt p hp := (h.appended_lt p hp).trans (Nat.lt_succ_self _)

theorem Sound.proposed (h : l.Sound) (e : Entry) : (l.proposed e).Sound where
  nodup := h.nodup
  completed c hc := (h.completed c hc).trans (Nat.lt_succ_self _)
  pending k p hp := by
    unfold Ledger.proposed at hp
    rw [Assoc.get_set] at hp
    split_ifs at hp
    · cases hp
      exact ⟨Nat.lt_succ_self _, h.not_mem⟩
    · obtain ⟨hlt, hn⟩ := h.pending k p hp
      exact ⟨hlt.trans (Nat.lt_succ_self _), hn⟩
  inj k k' p hp hp' := by
    unfold Ledger.proposed at hp hp'
    rw [Assoc.get_set] at hp hp'
    split_ifs at hp hp' with hk hk' hk'
    · exact hk.trans hk'.symm
    · cases hp
      exact absurd (h.pending k' _ hp').1 (lt_irrefl _)
    · cases hp'
      exact absurd (h.pending k _ hp).1 (lt_irrefl _)
    · exact h.inj k k' p hp hp'
  appended := by
    unfold Ledger.proposed Assoc.keys
    rw [List.map_append, List.nodup_append]
    refine ⟨h.appended, List.nodup_singleton _, ?_⟩
    rintro p hp q hq rfl
    obtain rfl := List.mem_singleton.mp hq
    exact lt_irrefl _ (h.appended_lt _ hp)
  appended_lt p hp := by
    unfold Ledger.proposed Assoc.keys at hp
    rw [List.map_append] at hp
    rcases List.mem_append.mp hp with hp | hp
    · exact (h.appended_lt p hp).trans (Nat.lt_succ_self _)
    · obtain rfl := List.mem_singleton.mp hp
      exact Nat.lt_succ_self _

variable {result : WriteResult}

theorem mem_completed_taken {c : Completion}
    (hc : c ∈ (l.taken e result).completed) : c ∈ l.completed ∨
      Assoc.get e.index l.pending = some c.proposal ∧ c.result = result ∧ c.entry = some e := by
  rcases List.mem_append.mp hc with hc | hc
  · exact Or.inl hc
  · obtain ⟨p, hp, rfl⟩ := Option.map_eq_some_iff.mp (Option.mem_toList.mp hc)
    exact Or.inr ⟨hp, rfl, rfl⟩

theorem Sound.taken (h : l.Sound) (e : Entry) (result : WriteResult) :
    (l.taken e result).Sound where
  nodup := by
    unfold Ledger.taken
    rw [List.map_append, List.nodup_append]
    refine ⟨h.nodup, ?_, ?_⟩
    · cases Assoc.get e.index l.pending with
      | none => exact List.nodup_nil
      | some p => exact List.nodup_singleton _
    · rintro p hp q hq rfl
      obtain ⟨c, hc, rfl⟩ := List.mem_map.mp hq
      obtain ⟨p', hp', rfl⟩ := Option.map_eq_some_iff.mp (Option.mem_toList.mp hc)
      exact (h.pending _ _ hp').2 hp
  completed c hc := by
    rcases mem_completed_taken hc with hc | ⟨hp, -, -⟩
    · exact h.completed c hc
    · exact (h.pending _ _ hp).1
  pending k p hp := by
    unfold Ledger.taken at hp
    rw [Assoc.get_erase] at hp
    split_ifs at hp with hk
    refine ⟨(h.pending k p hp).1, fun hm => ?_⟩
    obtain ⟨c, hc, rfl⟩ := List.mem_map.mp hm
    rcases mem_completed_taken hc with hc | ⟨hp', -, -⟩
    · exact (h.pending k _ hp).2 (List.mem_map_of_mem hc)
    · exact hk (h.inj _ _ _ hp hp')
  inj k k' p hp hp' := by
    unfold Ledger.taken at hp hp'
    rw [Assoc.get_erase] at hp hp'
    split_ifs at hp hp'
    exact h.inj k k' p hp hp'
  appended := h.appended
  appended_lt := h.appended_lt

theorem Sound.cleared (h : l.Sound) : l.cleared.Sound where
  nodup := h.nodup
  completed := h.completed
  pending _ _ hp := by cases hp
  inj _ _ _ hp := by cases hp
  appended := h.appended
  appended_lt := h.appended_lt

theorem Sound.step (h : l.Sound) (hs : l.Step l') : l'.Sound := by
  cases hs with
  | same => exact h
  | failed => exact h.failed _
  | proposed e => exact h.proposed e
  | taken e result => exact h.taken e result
  | cleared => exact h.cleared

/-- Every write that succeeded was applied as the entry that was appended for it. -/
def Settled (l : Ledger) : Prop :=
  ∀ c ∈ l.completed, c.result = .ok → ∃ e, c.entry = some e ∧ (c.proposal, e) ∈ l.appended

theorem Settled.failed (h : l.Settled) (hne : result ≠ .ok) :
    (l.failed result).Settled := by
  intro c hc hok
  rcases List.mem_append.mp hc with hc | hc
  · exact h c hc hok
  · obtain rfl := List.mem_singleton.mp hc
    exact absurd hok hne

theorem Settled.proposed (h : l.Settled) (e : Entry) : (l.proposed e).Settled := by
  intro c hc hok
  obtain ⟨d, hd, hm⟩ := h c hc hok
  exact ⟨d, hd, List.mem_append_left _ hm⟩

theorem Settled.taken (h : l.Settled) (result : WriteResult)
    (he : ∀ p, Assoc.get e.index l.pending = some p → (p, e) ∈ l.appended) :
    (l.taken e result).Settled := by
  intro c hc hok
  rcases mem_completed_taken hc with hc | ⟨hp, -, hent⟩
  · exact h c hc hok
  · exact ⟨e, hent, he _ hp⟩

end Ledger

variable {os : List Outcome}

namespace Host

variable {σ : Type} {M : StateMachine σ} {cfg : Config} {h h' : Host σ}

def ledger (h : Host σ) : Ledger :=
  ⟨h.peer.pendingProposals, h.commands, h.appended, h.completed⟩

/-- The tasks that the apply worker has not finished. -/
def work (h : Host σ) : List ApplyTask := h.applying.toList ++ h.applyTasks

/-- The indices that the apply worker has reached or will reach. -/
def marks (h : Host σ) : List ℕ :=
  h.peer.appliedIndex :: (h.snapshotTasks.map SnapshotTask.index ++
    h.work.flatMap fun t => t.snapshot.toList.map Snapshot.index)

/-- The entries that are handed out and not yet applied. -/
def queue (h : Host σ) : List Entry := h.raft.committedEntries ++ h.work.flatMap ApplyTask.entries

/-! ### What an action does to the ledger and to the work -/

/-- What the events and the `Ready` of the raft worker leave alone. -/
structure Paused (h h' : Host σ) : Prop where
  applied : h'.peer.appliedIndex = h.peer.appliedIndex
  work : h'.work = h.work
  tasks : h'.snapshotTasks ⊆ h.snapshotTasks

theorem Paused.marks (hp : h.Paused h') : h'.marks ⊆ h.marks := by
  unfold Host.marks
  rw [hp.applied, hp.work]
  refine List.cons_subset_cons _ (List.append_subset.mpr ⟨?_, List.subset_append_right _ _⟩)
  exact List.Subset.trans (List.map_subset _ hp.tasks) (List.subset_append_left _ _)

/-- A call of the peer keeps the proposals and the applied index. -/
structure Unproposed (p p' : Peer) : Prop where
  pending : p'.pendingProposals = p.pendingProposals
  applied : p'.appliedIndex = p.appliedIndex

theorem Unproposed.paused {p : Peer} (hp : Unproposed h.peer p) :
    h.Paused { h with peer := p } ∧ ({ h with peer := p } : Host σ).ledger = h.ledger := by
  refine ⟨⟨hp.applied, rfl, List.Subset.refl _⟩, ?_⟩
  unfold ledger
  rw [hp.pending]

theorem unproposed_finishReads (p : Peer) (canceled : ℕ → Bool) :
    Unproposed p (p.finishReadRequestsIfNotLeader canceled) := by
  unfold Peer.finishReadRequestsIfNotLeader
  split_ifs <;> exact ⟨rfl, rfl⟩

variable {canceled : ℕ → Bool}

theorem unproposed_step {p p' : Peer} {m : Message}
    (hp : p.step canceled m = some p') : Unproposed p p' := by
  obtain ⟨r, -, hp⟩ := Option.bind_eq_some_iff.mp hp
  cases hp
  have hf := unproposed_finishReads { p with raft := r } canceled
  exact ⟨hf.pending, hf.applied⟩

theorem unproposed_tick {p p' : Peer} {rnd : ℕ}
    (hp : p.tick canceled rnd = some p') : Unproposed p p' := by
  obtain ⟨r, -, hp⟩ := Option.bind_eq_some_iff.mp hp
  cases hp
  have hf := unproposed_finishReads
    { p.pruneCanceledReadRequests canceled with raft := r } canceled
  exact ⟨hf.pending, hf.applied⟩

theorem unproposed_read {p p' : Peer} {request : ℕ}
    (hp : p.startLinearizableRead canceled request = some p') : Unproposed p p' := by
  unfold Peer.startLinearizableRead at hp
  split_ifs at hp
  · cases hp
    exact ⟨rfl, rfl⟩
  · generalize p.reads.start request = x at hp
    obtain ⟨⟨r, started⟩, -, hp⟩ := Option.bind_eq_some_iff.mp hp
    dsimp only at hp
    split_ifs at hp <;> cases hp <;> exact ⟨rfl, rfl⟩

theorem unproposed_cancelSnapshot (p : Peer) (index : ℕ) :
    Unproposed p (p.cancelSnapshot index) := by
  unfold Peer.cancelSnapshot
  split_ifs <;> exact ⟨rfl, rfl⟩

variable {o : Outcome}

theorem unproposed_task {p p' : Peer} {task : SnapshotTask} {os' : List Outcome}
    (hp : p.saveSnapshotAndCompact task os = some (p', o, os')) : Unproposed p p' := by
  have canceled {q : Peer} (hq : Unproposed p q) : Unproposed p (q.cancelSnapshot task.index) := by
    have hc := unproposed_cancelSnapshot q task.index
    exact ⟨hc.pending.trans hq.pending, hc.applied.trans hq.applied⟩
  unfold Peer.saveSnapshotAndCompact at hp
  dsimp only at hp
  split at hp
  · obtain ⟨r, -, hp⟩ := Option.bind_eq_some_iff.mp hp
    split at hp <;> cases hp <;> exact canceled ⟨rfl, rfl⟩
  · cases hp
    exact canceled ⟨rfl, rfl⟩

/-- An event of the raft worker answers a write at once, or appends it, or does nothing to
the writes. -/
def Enters (h h' : Host σ) : Prop :=
  (h'.ledger = h.ledger ∨ ∃ result, result ≠ .ok ∧ h'.ledger = h.ledger.failed result) ∨
    ∃ data, h.raft.state = .leader ∧ (h.raft.appended data).Advances h'.raft ∧
      h'.ledger = h.ledger.proposed (h.raft.newEntry data)

theorem dispatchEvent_ledger {e : Event} (hd : h.dispatchEvent os e = some h') :
    h.Paused h' ∧ h.Enters h' := by
  have kept {p : Peer} (hp : Unproposed h.peer p) (hh : h' = { h with peer := p }) :
      h.Paused h' ∧ h.Enters h' := by
    obtain ⟨h₁, h₂⟩ := hp.paused
    rw [hh]
    exact ⟨h₁, Or.inl (Or.inl h₂)⟩
  cases e with
  | message m =>
    obtain ⟨p, hp, rfl⟩ := Option.map_eq_some_iff.mp hd
    exact kept (unproposed_step hp) rfl
  | tick rnd =>
    obtain ⟨p, hp, rfl⟩ := Option.map_eq_some_iff.mp hd
    exact kept (unproposed_tick hp) rfl
  | readIndex request =>
    obtain ⟨p, hp, rfl⟩ := Option.map_eq_some_iff.mp hd
    exact kept (unproposed_read hp) rfl
  | snapshotTask =>
    have hh : h.handleSnapshotTask os = some h' := hd
    unfold handleSnapshotTask at hh
    split at hh
    · cases hh
      exact kept ⟨rfl, rfl⟩ rfl
    · next task tasks htasks =>
      obtain ⟨⟨p, o, os'⟩, hp, hh⟩ := Option.bind_eq_some_iff.mp hh
      cases hh
      have hu := unproposed_task hp
      refine ⟨⟨hu.applied, rfl, ?_⟩, Or.inl (Or.inl ?_)⟩
      · rw [htasks]
        exact List.subset_cons_self _ _
      · simp only [stop, ledger, hu.pending]
  | command data =>
    have hh : h.handleProposal data = some h' := hd
    cases data with
    | none =>
      cases hh
      exact ⟨⟨rfl, rfl, List.Subset.refl _⟩, Or.inl (Or.inr ⟨.marshal, by simp, rfl⟩)⟩
    | some data =>
      obtain ⟨⟨p, accepted⟩, hp, hh⟩ := Option.bind_eq_some_iff.mp hh
      obtain ⟨⟨r, accepted'⟩, hr, hp⟩ := Option.bind_eq_some_iff.mp hp
      rcases propose_cases hr with ⟨rfl, hr⟩ | ⟨rfl, hl, hadv⟩
      · cases hp
        cases hh
        exact ⟨⟨rfl, rfl, List.Subset.refl _⟩, Or.inl (Or.inr ⟨.notLeader, by simp, rfl⟩)⟩
      · cases hp
        cases hh
        refine ⟨⟨rfl, rfl, List.Subset.refl _⟩, Or.inr ⟨data, hl, hadv, ?_⟩⟩
        have hlast : r.raftLog.lastIndex = h.raft.raftLog.endIndex := by
          have hlog : r.raftLog = h.raft.raftLog.append [h.raft.newEntry data] :=
            hadv.kept.raftLog
          rw [hlog, RaftLog.lastIndex_of_pos (by simp [RaftLog.endIndex, RaftLog.append])]
          simp [RaftLog.endIndex, RaftLog.append]
        rw [hlast]
        rfl

theorem handleEvent_ledger {e : Event} (ha : h.handleEvent e os = some h') :
    h.Paused h' ∧ h.Enters h' := by
  obtain ⟨h₁, hd, rfl⟩ := Option.map_eq_some_iff.mp ha
  obtain ⟨hp, hcases⟩ := dispatchEvent_ledger hd
  exact ⟨⟨hp.applied, hp.work, hp.tasks⟩, hcases⟩

/-- What the `Ready` loop and the apply worker do to the work: entries move on or are applied,
and the indices they reach are indices of the work. -/
structure Serves (h h' : Host σ) : Prop where
  raft : h'.raft = h.raft ∨ h'.raft = h.raft.advance
  queue : h'.queue ⊆ h.queue
  marks : ∀ n ∈ h'.marks, n ∈ h.marks ∨ (∃ d ∈ h.queue, n = d.index) ∨
    ∃ snap ∈ h.raft.pendingSnapshot, n = snap.index
  ledger : h'.ledger = h.ledger ∨ ∃ e ∈ h.queue, ∃ result, h'.ledger = h.ledger.taken e result

theorem Serves.refl (h : Host σ) : h.Serves h :=
  ⟨Or.inl rfl, List.Subset.refl _, fun _ hn => Or.inl hn, Or.inl rfl⟩

theorem mem_marks {n : ℕ} : n ∈ h.marks ↔ n = h.peer.appliedIndex ∨
    (∃ t ∈ h.snapshotTasks, n = t.index) ∨
      ∃ t ∈ h.work, ∃ snap ∈ t.snapshot, n = snap.index := by
  simp [marks, eq_comm]

theorem mem_queue {d : Entry} : d ∈ h.queue ↔ d ∈ h.raft.committedEntries ∨
    ∃ t ∈ h.work, d ∈ t.entries := by
  simp [queue]

/-- What is left of a task. -/
def Left (t t' : ApplyTask) : Prop :=
  t.entries ⊆ t'.entries ∧ ∀ snap ∈ t.snapshot, snap ∈ t'.snapshot

/-- A step that only takes from the work, with the indices it reaches. -/
theorem Serves.of_work (hr : h'.raft = h.raft) (hw : ∀ t ∈ h'.work, ∃ t' ∈ h.work, Left t t')
    (ha : h'.peer.appliedIndex ∈ h.marks ∨ ∃ d ∈ h.queue, h'.peer.appliedIndex = d.index)
    (ht : ∀ t ∈ h'.snapshotTasks, t ∈ h.snapshotTasks ∨ ∃ d ∈ h.queue, t.index = d.index)
    (hl : h'.ledger = h.ledger ∨ ∃ e ∈ h.queue, ∃ result, h'.ledger = h.ledger.taken e result) :
    h.Serves h' := by
  refine ⟨Or.inl hr, fun d hd => ?_, fun n hn => ?_, hl⟩
  · rw [mem_queue, hr] at hd
    refine mem_queue.mpr (hd.imp id fun ⟨t, ht, hd⟩ => ?_)
    obtain ⟨t', ht', hle⟩ := hw t ht
    exact ⟨t', ht', hle.1 hd⟩
  · rcases mem_marks.mp hn with rfl | ⟨t, htask, rfl⟩ | ⟨t, hmem, snap, hs, rfl⟩
    · exact ha.imp id Or.inl
    · exact (ht t htask).imp (fun h => mem_marks.mpr (Or.inr (Or.inl ⟨t, h, rfl⟩))) Or.inl
    · obtain ⟨t', ht', hle⟩ := hw t hmem
      exact Or.inl (mem_marks.mpr (Or.inr (Or.inr ⟨t', ht', snap, hle.2 snap hs, rfl⟩)))

theorem mem_work {task : ApplyTask} (hap : h.applying = some task) : task ∈ h.work := by
  rw [work, hap]
  exact List.mem_cons_self

theorem left_of_applying {task : ApplyTask} (rest : ApplyTask) (hap : h.applying = some task)
    (hrest : Left rest task) : ∀ t ∈ rest :: h.applyTasks, ∃ t' ∈ h.work, Left t t' := by
  refine List.forall_mem_cons.mpr ⟨⟨task, mem_work hap, hrest⟩, fun t ht => ?_⟩
  exact ⟨t, List.mem_append_right _ ht, List.Subset.refl _, fun _ => id⟩

theorem applyNext_serves (h : Host σ) (ok created : Bool) :
    h.Serves (h.applyNext M ok created) := by
  have hold : h.peer.appliedIndex ∈ h.marks := mem_marks.mpr (Or.inl rfl)
  unfold applyNext
  split
  · next hnone =>
    split
    · exact .refl h
    · next task tasks htasks =>
      refine .of_work rfl (fun t ht => ⟨t, ?_, List.Subset.refl _, fun _ => id⟩) (Or.inl hold)
        (fun _ => Or.inl) (Or.inl rfl)
      simpa [work, hnone, htasks] using ht
  · next snap es hap =>
    have hleft := left_of_applying { entries := es } hap ⟨List.Subset.refl _, by simp⟩
    have hsnap : snap.index ∈ h.marks :=
      mem_marks.mpr (Or.inr (Or.inr ⟨_, mem_work hap, snap, rfl, rfl⟩))
    unfold applySnapshot
    split_ifs
    · exact .of_work rfl hleft (Or.inl hold) (fun _ => Or.inl) (Or.inl rfl)
    · exact .of_work rfl hleft (Or.inl hsnap) (fun _ => Or.inl) (Or.inl rfl)
    · exact .of_work rfl hleft (Or.inl hold) (fun _ => Or.inl) (Or.inl rfl)
  · next e es hap =>
    have hleft :=
      left_of_applying { entries := es } hap ⟨List.subset_cons_self _ _, by simp⟩
    have he : e ∈ h.queue := mem_queue.mpr (Or.inr ⟨_, mem_work hap, List.mem_cons_self⟩)
    obtain ⟨pending, completed, n, tasks, hc, htasks, heq⟩ :=
      applyEntry_eq (M := M) { h with applying := some { entries := es } } e ok created
    rw [heq]
    refine .of_work rfl hleft (Or.inr ⟨e, he, rfl⟩) (fun t ht => ?_) ?_
    · exact (List.mem_append.mp ht).imp_right fun ht => ⟨e, he, htasks t ht⟩
    · rcases hc with ⟨rfl, rfl⟩ | ⟨result, rfl, rfl⟩
      · exact Or.inl rfl
      · exact Or.inr ⟨e, he, result, rfl⟩
  · next hap =>
    have hleft := left_of_applying {} hap ⟨List.Subset.refl _, fun _ => id⟩
    exact .of_work rfl (List.forall_mem_cons.mp hleft).2 (Or.inl hold) (fun _ => Or.inl) (Or.inl rfl)

/-- A `Ready` that is handed on is forgotten by Raft; one that is not stays. -/
theorem handleReady_serves (h : Host σ) (os : List Outcome) : h.Serves (h.handleReady os) := by
  rcases handleReady_eq h os with ⟨-, heq⟩ | ⟨o, st, sent, tasks, reads, hp, heq⟩
  · rw [heq]
    exact ⟨Or.inl rfl, List.Subset.refl _, fun _ hn => Or.inl hn, Or.inl rfl⟩
  · have hw : (h.handleReady os).work = h.work ++ tasks := by
      rw [heq]
      exact (List.append_assoc ..).symm
    have hr : (h.handleReady os).raft = if o = .ok then h.raft.advance else h.raft := by
      rw [heq]
      rfl
    have hsub : ∀ t ∈ tasks, t =
        { snapshot := h.raft.pendingSnapshot, entries := h.raft.committedEntries } := by
      rcases hp.tasks with ⟨rfl, -⟩ | ⟨rfl, -⟩ <;> simp
    refine ⟨?_, fun d hd => ?_, fun n hn => ?_, Or.inl (by rw [heq]; rfl)⟩
    · rw [hr]
      split_ifs
      · exact Or.inr rfl
      · exact Or.inl rfl
    · rw [mem_queue, hr, hw] at hd
      rw [mem_queue]
      rcases hd with hd | ⟨t, ht, hd⟩
      · split_ifs at hd
        · cases hd
        · exact Or.inl hd
      · rcases List.mem_append.mp ht with ht | ht
        · exact Or.inr ⟨t, ht, hd⟩
        · rw [hsub t ht] at hd
          exact Or.inl hd
    · rw [mem_marks, hw] at hn
      rw [mem_marks]
      rcases hn with hn | hn | ⟨t, ht, snap, hsnap, hn⟩
      · exact Or.inl (Or.inl (hn.trans (by rw [heq])))
      · rw [heq] at hn
        exact Or.inl (Or.inr (Or.inl hn))
      · rcases List.mem_append.mp ht with ht | ht
        · exact Or.inl (Or.inr (Or.inr ⟨t, ht, snap, hsnap, hn⟩))
        · rw [hsub t ht] at hsnap
          exact Or.inr (Or.inr ⟨snap, hsnap, hn⟩)

end Host

/-! ### The log keeps what waits -/

/-- Handling `m` leaves alone the entries that writes wait for, and the last one that was
handed out; a snapshot that it brings covers all of them. -/
def Raft.SparesPending (r : Raft) (pending : List (ℕ × ℕ)) (m : Message) : Prop :=
  m.Numbered ∧ r.Retains m r.committedCursor ∧
    (∀ k ∈ Assoc.keys pending, r.committedCursor < k → r.Retains m k) ∧
    (m.type = .msgSnap → r.term ≤ m.term → ∀ snap ∈ m.snapshot,
      r.raftLog.offset < snap.index →
        r.committedCursor ≤ snap.index ∧ ∀ k ∈ Assoc.keys pending, k ≤ snap.index)

instance (r : Raft) (pending : List (ℕ × ℕ)) (m : Message) :
    Decidable (r.SparesPending pending m) := by
  unfold Raft.SparesPending
  infer_instance

/-- The entry of every write that waits is in the log, or handed out, under its index; nothing
that is handed out or applied is above the cursor. -/
structure Tracked (r : Raft) (rest : List Entry) (marks : List ℕ) (l : Ledger) : Prop where
  numbered : r.raftLog.Numbered
  offset : r.raftLog.offset ≤ r.committedCursor
  inLog : r.committedCursor < r.raftLog.endIndex
  queue : ∀ d ∈ r.committedEntries ++ rest, d.index ≤ r.committedCursor
  marks : ∀ n ∈ marks, n ≤ r.committedCursor
  snapshot : ∀ snap ∈ r.pendingSnapshot, snap.index ≤ r.committedCursor
  pending : ∀ k p, Assoc.get k l.pending = some p → ∃ e, (p, e) ∈ l.appended ∧
    (r.committedCursor < k → r.raftLog.entry k = some e) ∧
    (k ≤ r.committedCursor → ∀ d ∈ r.committedEntries ++ rest, d.index = k → d = e)

namespace Tracked

variable {r s : Raft} {rest rest' : List Entry} {marks marks' : List ℕ} {l : Ledger}
  {m : Option Message}

theorem init (cfg : Config) : Tracked (newRaft cfg) [] [0] ⟨[], 0, [], []⟩ where
  numbered := .restore 0 0
  offset := le_rfl
  inLog := Nat.zero_lt_one
  queue _ hd := by cases hd
  marks n hn := (List.mem_singleton.mp hn).le
  snapshot _ hs := by cases hs
  pending _ _ hp := by cases hp

theorem sends (h : Tracked r rest marks l) (hs : r.Sends s) : Tracked s rest marks l := by
  cases hs
  exact ⟨h.numbered, h.offset, h.inLog, h.queue, h.marks, h.snapshot, h.pending⟩

/-- A node that keeps its sentinel, the entry at its cursor and those that writes wait for. -/
theorem stays (h : Tracked r rest marks l) (hs : r.Stays s) (hnum : s.raftLog.Numbered)
    (hcur : ∀ e, r.raftLog.entry r.committedCursor = some e →
      s.raftLog.entry r.committedCursor = some e)
    (hpend : ∀ k p e, Assoc.get k l.pending = some p → r.committedCursor < k →
      r.raftLog.entry k = some e → s.raftLog.entry k = some e) : Tracked s rest marks l := by
  obtain ⟨e₀, he₀⟩ := RaftLog.exists_entry h.offset h.inLog
  have hlt : r.committedCursor < s.raftLog.endIndex := (RaftLog.entry_bounds (hcur e₀ he₀)).2
  rcases hs.commit with ⟨-, hc, hent⟩ | ⟨hem, hin⟩
  · refine ⟨hnum, ?_, ?_, ?_, ?_, ?_, ?_⟩
    · rw [hs.offset, hc]
      exact h.offset
    · rwa [hc]
    · rw [hc, hent]
      exact h.queue
    · rw [hc]
      exact h.marks
    · rw [hc, hs.pendingSnapshot]
      exact h.snapshot
    · rw [hc, hent]
      intro k p hp
      obtain ⟨e, hm, h₁, h₂⟩ := h.pending k p hp
      exact ⟨e, hm, fun hk => hpend k p e hp hk (h₁ hk), h₂⟩
  · -- the entries between the old and the new cursor are handed out
    have hcur' := hem.cursor
    have hle : r.committedCursor ≤ s.committedCursor := hcur' ▸ le_max_left _ _
    have hnew {d : Entry} (hd : d ∈ s.raftLog.between r.committedCursor s.commitIndex) :
        r.committedCursor < d.index ∧ d.index ≤ s.committedCursor ∧
          s.raftLog.entry d.index = some d := by
      obtain ⟨k, hlo, hhi, hk⟩ := RaftLog.mem_between.mp hd
      rw [hnum k d hk]
      exact ⟨hlo, hhi.trans (hcur' ▸ le_max_right _ _), hk⟩
    have hqueue {d : Entry} (hd : d ∈ s.committedEntries ++ rest) :
        d ∈ r.committedEntries ++ rest ∨
          d ∈ s.raftLog.between r.committedCursor s.commitIndex := by
      rw [hem.entries, List.mem_append, List.mem_append] at hd
      rw [List.mem_append]
      tauto
    refine ⟨hnum, ?_, ?_, ?_, ?_, ?_, ?_⟩
    · rw [hs.offset]
      exact h.offset.trans hle
    · rw [hcur']
      exact max_lt hlt hin
    · intro d hd
      rcases hqueue hd with hd | hd
      · exact (h.queue d hd).trans hle
      · exact (hnew hd).2.1
    · exact fun n hn => (h.marks n hn).trans hle
    · rw [hs.pendingSnapshot]
      exact fun snap hsnap => (h.snapshot snap hsnap).trans hle
    · intro k p hp
      obtain ⟨e, hm, h₁, h₂⟩ := h.pending k p hp
      refine ⟨e, hm, fun hk => ?_, fun hk d hd hdk => ?_⟩
      · have hk' := hle.trans_lt hk
        exact hpend k p e hp hk' (h₁ hk')
      · rcases hqueue hd with hd | hd
        · refine h₂ ?_ d hd hdk
          rw [← hdk]
          exact h.queue d hd
        · obtain ⟨hlo, -, hent⟩ := hnew hd
          rw [hdk] at hlo hent
          rw [hpend k p e hp hlo (h₁ hlo)] at hent
          exact (Option.some.inj hent).symm

theorem effect (h : Tracked r rest marks l) (he : r.Effect m s)
    (hg : ∀ m' ∈ m, r.SparesPending l.pending m') : Tracked s rest marks l := by
  have hnum := he.log.numbered h.numbered fun m' hm => (hg m' hm).1
  have hkey {k p : ℕ} (hp : Assoc.get k l.pending = some p) : k ∈ Assoc.keys l.pending :=
    Assoc.get_isSome_iff.mp (by simp [hp])
  rcases he.installs_or_stays with ⟨m', snap, rfl, hi⟩ | hs
  · -- the cursor moves up to the snapshot, past everything that waits
    obtain ⟨hcle, hk⟩ := (hg m' rfl).2.2.2 hi.type hi.msgTerm.ge snap hi.snapshot hi.above
    have hoff : s.raftLog.offset = snap.index := by rw [hi.log]; rfl
    have hend : s.raftLog.endIndex = snap.index + 1 := by rw [hi.log]; rfl
    have hcur := hi.cursor
    refine ⟨hnum, by omega, by omega, ?_, ?_, ?_, ?_⟩
    · rw [hi.emitted, hcur]
      exact fun d hd => (h.queue d hd).trans hcle
    · rw [hcur]
      exact fun n hn => (h.marks n hn).trans hcle
    · rw [hi.pendingSnapshot, hcur]
      rintro _ ⟨⟩
      exact le_rfl
    · intro k p hp
      obtain ⟨e, hm, -, h₂⟩ := h.pending k p hp
      have hks := hk k (hkey hp)
      refine ⟨e, hm, fun hlt => by omega, fun _ d hd hdk => ?_⟩
      rw [hi.emitted] at hd
      exact h₂ (hdk ▸ h.queue d hd) d hd hdk
  · refine h.stays hs hnum ?_ ?_
    · intro e hent
      exact he.log.retains (fun m' hm => (hg m' hm).2.1) hent hs.offset
    · intro k p e hp hlt hent
      exact he.log.retains (fun m' hm => (hg m' hm).2.2.1 k (hkey hp) hlt) hent hs.offset

/-- A message is handled without touching what waits. -/
theorem handles {b : ℕ} (h : Tracked r rest marks l) (hh : Handles b m r s)
    (hg : ∀ m' ∈ m, r.SparesPending l.pending m') : Tracked s rest marks l := by
  refine hh.induct (I := fun s => Tracked s rest marks l)
    (Γ := fun s => ∀ m' ∈ m, s.SparesPending l.pending m') h hg ?_ ?_ ?_ ?_
  · exact fun r₁ s₁ h₁ hs => h₁.sends hs
  · intro r₁ s₁ h₁ hs
    cases hs
    exact h₁
  · intro r₁ s₁ h₁ he hl hmsgs m' hm'
    obtain ⟨⟨hlog, -, -, hcur, -, -⟩, hterm⟩ := he.quiet hl hmsgs
    have ht (hne : m'.type ≠ .msgHup) (hst : s₁.term ≤ m'.term) : r₁.term ≤ m'.term := by
      rcases hterm m' hm' hne with ht | ⟨ht, -⟩
      · exact ht ▸ hst
      · exact ht.le
    have happ (hm : m'.type = .msgApp) : s₁.term ≤ m'.term → r₁.term ≤ m'.term :=
      ht (by rw [hm]; nofun)
    obtain ⟨hn, hc, hk, hsnap⟩ := h₁ m' hm'
    refine ⟨hn, ?_, ?_, ?_⟩
    · rw [hcur]
      exact hc.congr hlog happ
    · rw [hcur]
      exact fun k hkey hlt => (hk k hkey hlt).congr hlog happ
    · rw [hcur, hlog]
      exact fun hm hst => hsnap hm (ht (by rw [hm]; nofun) hst)
  · exact fun r₁ s₁ hg₁ h₁ he _ => h₁.effect he hg₁

section

variable (h : Tracked r rest marks l)

include h

/-- A write is appended and waits for its index. -/
theorem proposed {data : Bytes} (ha : (r.appended data).Advances s) :
    Tracked s rest marks (l.proposed (r.newEntry data)) := by
  have hend : (r.raftLog.append [r.newEntry data]).endIndex = r.raftLog.endIndex + 1 := by
    simp [RaftLog.endIndex, RaftLog.append]
    omega
  have hnew : (r.raftLog.append [r.newEntry data]).entry r.raftLog.endIndex =
      some (r.newEntry data) := by
    rw [RaftLog.entry_append, if_neg (lt_irrefl _), Nat.sub_self]
    rfl
  have happended : Tracked (r.appended data) rest marks (l.proposed (r.newEntry data)) := by
    refine ⟨h.numbered.append_one rfl, h.offset, ?_, h.queue, h.marks, h.snapshot, ?_⟩
    · exact h.inLog.trans (hend ▸ Nat.lt_succ_self _)
    · intro k p hp
      unfold Ledger.proposed at hp
      rw [Assoc.get_set] at hp
      split_ifs at hp with hk
      · cases hp
        have hk' : k = r.raftLog.endIndex := hk
        subst hk'
        refine ⟨_, List.mem_append_right _ (List.mem_singleton_self _), fun _ => hnew, ?_⟩
        intro hle
        exact absurd hle (not_le.mpr h.inLog)
      · obtain ⟨e, hm, h₁, h₂⟩ := h.pending k p hp
        refine ⟨e, List.mem_append_left _ hm, fun hlt => ?_, h₂⟩
        have hent := h₁ hlt
        change (r.raftLog.append [r.newEntry data]).entry k = some e
        rw [RaftLog.entry_append, if_pos (RaftLog.entry_bounds hent).2]
        exact hent
  have hlog : s.raftLog = (r.appended data).raftLog := ha.kept.raftLog
  refine happended.stays (ha.stays rfl rfl rfl rfl rfl rfl) ?_ ?_ ?_
  · rw [hlog]
    exact happended.numbered
  · rw [hlog]
    exact fun _ => id
  · rw [hlog]
    exact fun _ _ _ _ _ => id

/-- A snapshot task is for an index that has been handed out. -/
theorem compacted {index : ℕ} (hi : index ∈ marks) {data : Bytes}
    (hs : r.snapshot index data = some s) : Tracked s rest marks l := by
  have hle := h.marks index hi
  rcases snapshot_eq hs with ⟨-, rfl⟩ | ⟨t, hlo, -, rfl⟩
  · exact h
  · have hhi : index < r.raftLog.endIndex := hle.trans_lt h.inLog
    obtain ⟨hoff, hend, hent⟩ := RaftLog.compactTo_eq t hlo hhi
    have hcur : (r.compacted index t data).committedCursor = r.committedCursor := max_eq_right hle
    refine ⟨h.numbered.compactTo hlo, ?_, ?_, ?_, ?_, ?_, ?_⟩
    · rw [hcur]
      exact hoff.le.trans hle
    · rw [hcur]
      exact h.inLog.trans_le hend.ge
    · rw [hcur]
      exact h.queue
    · rw [hcur]
      exact h.marks
    · rw [hcur]
      exact h.snapshot
    · rw [hcur]
      intro k p hp
      obtain ⟨e, hm, h₁, h₂⟩ := h.pending k p hp
      refine ⟨e, hm, fun hlt => ?_, h₂⟩
      have hik : index < k := hle.trans_lt hlt
      refine (hent k).trans ?_
      rw [if_neg hik.ne', if_pos hik]
      exact h₁ hlt

theorem taken (e : Entry) (result : WriteResult) :
    Tracked r rest marks (l.taken e result) := by
  refine ⟨h.numbered, h.offset, h.inLog, h.queue, h.marks, h.snapshot, fun k p hp => ?_⟩
  unfold Ledger.taken at hp
  rw [Assoc.get_erase] at hp
  split_ifs at hp
  exact h.pending k p hp

theorem mono (hr : s = r ∨ s = r.advance)
    (hq : s.committedEntries ++ rest' ⊆ r.committedEntries ++ rest)
    (hm : ∀ n ∈ marks', n ∈ marks ∨ (∃ d ∈ r.committedEntries ++ rest, n = d.index) ∨
      ∃ snap ∈ r.pendingSnapshot, n = snap.index) : Tracked s rest' marks' l := by
  have hlog : s.raftLog = r.raftLog := by rcases hr with rfl | rfl <;> rfl
  have hcur : s.committedCursor = r.committedCursor := by rcases hr with rfl | rfl <;> rfl
  refine ⟨?_, ?_, ?_, ?_, ?_, ?_, ?_⟩
  · rw [hlog]
    exact h.numbered
  · rw [hlog, hcur]
    exact h.offset
  · rw [hlog, hcur]
    exact h.inLog
  · rw [hcur]
    exact fun d hd => h.queue d (hq hd)
  · rw [hcur]
    intro n hn
    rcases hm n hn with hn | ⟨d, hd, rfl⟩ | ⟨snap, hs, rfl⟩
    · exact h.marks n hn
    · exact h.queue d hd
    · exact h.snapshot snap hs
  · rcases hr with rfl | rfl
    · exact h.snapshot
    · exact nofun
  · rw [hlog, hcur]
    intro k p hp
    obtain ⟨e, hme, h₁, h₂⟩ := h.pending k p hp
    exact ⟨e, hme, h₁, fun hk d hd => h₂ hk d (hq hd)⟩

end

end Tracked

namespace RaftStorage

variable {st : RaftStorage}

/-- A restored log that reaches its commit index has no gap. -/
theorem restored_dense (hin : st.InRange)
    (hc : st.restoredState.commitIndex < st.restoredLog.endIndex) (j k : ℕ)
    (hj : st.snap.index < j) (hjk : j ≤ k) (hk : k ≤ st.hardState.commitIndex) :
    (st.entries j).isSome := by
  have hend : st.restoredLog.endIndex = st.snap.index + 1 + st.restoredEntries.length := by
    simp [restoredLog, RaftLog.append, RaftLog.restore, RaftLog.endIndex]
    omega
  have hne : ¬st.hardState.isEmpty = true := by
    intro hem
    have h0 : st.hardState.commitIndex = 0 := (of_decide_eq_true hem).2.2
    omega
  rw [hend, restoredState, if_neg hne, restoredEntries_eq hin, if_neg hne, loadEntries] at hc
  -- nothing was skipped
  have hlen := List.length_filterMap_le st.entries
    (List.range' (st.snap.index + 1) (st.hardState.commitIndex + 1 - (st.snap.index + 1)))
  rw [List.length_range'] at hlen
  have hall := List.filterMap_length_eq_length.mp
    ((hlen.antisymm (by omega)).trans (List.length_range' ..).symm)
  exact hall j (List.mem_range'_1.mpr ⟨hj, by omega⟩)

end RaftStorage

theorem Tracked.restart {st : RaftStorage} {cfg : Config} (hkey : st.Keyed) (hin : st.InRange)
    (hc : st.restoredState.commitIndex < st.restoredLog.endIndex) (l : Ledger) :
    Tracked (st.restoredRaft cfg) [] [0] l.cleared := by
  have hnum : st.restoredLog.Numbered := RaftStorage.restoredLog_numbered hin hkey
    fun j k hj hjk hk _ => RaftStorage.restored_dense hin hc j k hj hjk hk
  have hoff : st.snap.index < st.restoredLog.endIndex := by
    simp [RaftStorage.restoredLog, RaftLog.append, RaftLog.restore, RaftLog.endIndex]
  refine ⟨hnum, le_max_left _ _, max_lt hoff hc, ?_, ?_, ?_, ?_⟩
  · intro d hd
    rw [List.append_nil] at hd
    obtain ⟨k, -, hhi, hk⟩ := RaftLog.mem_between.mp hd
    rw [hnum k d hk]
    exact hhi.trans (le_max_right _ _)
  · intro n hn
    obtain rfl := List.mem_singleton.mp hn
    exact Nat.zero_le _
  · intro snap hs
    have hl : st.loadSnapshot = some snap := hs
    have : st.snap = snap := by simp [RaftStorage.snap, hl]
    rw [← this]
    exact le_max_left _ _
  · intro k p hp
    cases hp

namespace Host

variable {σ : Type} {M : StateMachine σ} {cfg : Config} {h h' : Host σ}

/-- Messages leave alone what writes wait for, and a process is rebuilt from a storage that has
every entry up to its commit index. -/
def SparesPending (h : Host σ) : Action → Prop
  | .event (.message m) _ => h.raft.SparesPending h.peer.pendingProposals m
  | .restart => h.storage.restoredState.commitIndex < h.storage.restoredLog.endIndex
  | _ => True

instance (a : Action) : Decidable (SparesPending h a) := by
  induction a using Action.casesOn with
  | event e _ => induction e using Event.casesOn <;> dsimp only [SparesPending] <;> infer_instance
  | _ => dsimp only [SparesPending]; infer_instance

variable {a : Action}

/-- Every action does one thing to the ledger. -/
theorem ledger_step (ha : h.act M cfg a = some h') : h.ledger.Step h'.ledger := by
  have served (hs : h.Serves h') : h.ledger.Step h'.ledger := by
    rcases hs.ledger with hl | ⟨e, -, result, hl⟩
    · rw [hl]
      exact .same
    · rw [hl]
      exact .taken e result
  cases a with
  | event e os =>
    obtain ⟨-, (hl | ⟨result, hne, hl⟩) | ⟨data, -, -, hl⟩⟩ := handleEvent_ledger ha
    · rw [hl]
      exact .same
    · rw [hl]
      exact .failed hne
    · rw [hl]
      exact .proposed _
  | ready os =>
    cases ha
    exact served (handleReady_serves h os)
  | apply ok created =>
    cases ha
    exact served (applyNext_serves h ok created)
  | cancel request =>
    cases ha
    exact .same
  | crash =>
    cases ha
    exact .same
  | restart =>
    have hr : h.restart cfg = some h' := ha
    unfold Host.restart newPeer at hr
    rw [RaftStorage.exists_restoreRaft] at hr
    cases hr
    exact .cleared

theorem keyed_step (hk : h.storage.Keyed) (hen : h.Enabled a)
    (ha : h.act M cfg a = some h') : h'.storage.Keyed := by
  have hs := step_of_act hen ha
  generalize h'.raft = r, h'.storage = st, h'.sent = sent, h'.crashed = down at hs
  have saved {o : Option Outcome} (hst : h.storage.Partial h.raft.ready o st) : st.Keyed := by
    intro k e he
    rcases hst.entries_cases k with heq | heq
    · exact hk k e (heq.symm.trans he)
    · exact hk.saveEntries _ k e (heq.symm.trans he)
  cases hs with
  | handled => exact hk
  | tasked ht hs hst =>
    rcases hst with rfl | rfl
    · exact hk
    · exact hk.of_entries (RaftStorage.compact_cases _)
  | taskSaved => exact hk
  | persisted hst hd => exact saved hst
  | flushed hs => exact saved (.all (o := none))
  | restarted => exact hk
  | same => exact hk

/-- The invariant of the runs that spare what waits. -/
structure Waiting (h : Host σ) : Prop where
  keyed : h.storage.Keyed
  settled : h.ledger.Settled
  tracked : h.crashed = false →
    Tracked h.raft (h.work.flatMap ApplyTask.entries) h.marks h.ledger

namespace Waiting

theorem init (cfg : Config) (machine : σ) : Waiting (start cfg machine) where
  keyed _ _ he := by cases he
  settled _ hc := by cases hc
  tracked _ := .init cfg

theorem served (hI : Waiting h) (hs : h.Serves h') (hkey : h'.storage.Keyed)
    (hup : h.crashed = false) : Waiting h' := by
  have htr := hI.tracked hup
  have htr' : Tracked h'.raft (h'.work.flatMap ApplyTask.entries) _ _ :=
    htr.mono hs.raft hs.queue hs.marks
  rcases hs.ledger with hl | ⟨e, he, result, hl⟩
  · refine ⟨hkey, ?_, fun _ => ?_⟩
    · rw [hl]
      exact hI.settled
    · rw [hl]
      exact htr'
  · refine ⟨hkey, ?_, fun _ => ?_⟩
    · rw [hl]
      -- the entry that is applied is the one that was appended
      refine hI.settled.taken result fun p hp => ?_
      obtain ⟨d, hm, -, hd⟩ := htr.pending e.index p hp
      rwa [hd (htr.queue e he) e he rfl]
    · rw [hl]
      exact htr'.taken e result

theorem step_event (hI : Waiting h) {e : Event}
    (hg : SparesPending h (.event e os)) (hen : h.Enabled (.event e os))
    (ha : h.handleEvent e os = some h') (hkey : h'.storage.Keyed) : Waiting h' := by
  have htr := hI.tracked hen.1
  have hs : h.Step threeNodes (.event e os) _ _ _ _ := step_of_event ha hen.1
  obtain ⟨hpause, hledger⟩ := handleEvent_ledger ha
  have hmarks : ∀ n ∈ h'.marks, n ∈ h.marks ∨
      (∃ d ∈ h'.raft.committedEntries ++ h.work.flatMap ApplyTask.entries, n = d.index) ∨
        ∃ snap ∈ h'.raft.pendingSnapshot, n = snap.index := fun n hn => Or.inl (hpause.marks hn)
  -- the node, with the writes that waited before
  have hnode : Tracked h'.raft (h.work.flatMap ApplyTask.entries) h.marks h.ledger := by
    generalize h'.raft = r, h'.storage = st, h'.sent = sent, h'.crashed = down at hs
    cases hs with
    | handled hs =>
      refine htr.handles hs fun m hm => ?_
      cases e with
      | message m' =>
        cases hm
        exact hg
      | _ => cases hm
    | tasked ht hs hst =>
      refine htr.compacted (mem_marks.mpr (Or.inr (Or.inl ⟨_, ?_, rfl⟩))) hs
      exact List.mem_of_mem_head? ht
    | taskSaved => exact htr
    | same => exact htr
  rcases hledger with (hl | ⟨result, hne, hl⟩) | ⟨data, -, hadv, hl⟩
  · refine ⟨hkey, ?_, fun _ => ?_⟩
    · rw [hl]
      exact hI.settled
    · rw [hl, hpause.work]
      exact hnode.mono (Or.inl rfl) (List.Subset.refl _) hmarks
  · refine ⟨hkey, ?_, fun _ => ?_⟩
    · rw [hl]
      exact hI.settled.failed hne
    · rw [hl, hpause.work]
      have hfail : Tracked h'.raft (h.work.flatMap ApplyTask.entries) h.marks
          (h.ledger.failed result) :=
        ⟨hnode.numbered, hnode.offset, hnode.inLog, hnode.queue, hnode.marks, hnode.snapshot,
          hnode.pending⟩
      exact hfail.mono (Or.inl rfl) (List.Subset.refl _) hmarks
  · refine ⟨hkey, ?_, fun _ => ?_⟩
    · rw [hl]
      exact hI.settled.proposed _
    · rw [hl, hpause.work]
      exact (htr.proposed hadv).mono (Or.inl rfl) (List.Subset.refl _) hmarks

theorem step (hI : Waiting h) (hg : SparesPending h a) (hin : h.InRange a) (hen : h.Enabled a)
    (ha : h.act M cfg a = some h') : Waiting h' := by
  have hkey := keyed_step hI.keyed hen ha
  cases a with
  | event e os => exact hI.step_event hg hen ha hkey
  | ready os =>
    cases ha
    exact hI.served (handleReady_serves h os) hkey hen.1
  | apply ok created =>
    cases ha
    exact hI.served (applyNext_serves h ok created) hkey hen
  | cancel request =>
    cases ha
    exact ⟨hkey, hI.settled, hI.tracked⟩
  | crash =>
    cases ha
    exact ⟨hkey, hI.settled, nofun⟩
  | restart =>
    have hr : h.restart cfg = some h' := ha
    unfold Host.restart newPeer at hr
    rw [RaftStorage.exists_restoreRaft] at hr
    cases hr
    exact ⟨hkey, hI.settled, fun _ => .restart hI.keyed hin.2.1 hg h.ledger⟩

end Waiting

/-- A future is finished at most once, in every run whose indices stay below the last one of
`uint64`. If its messages leave alone what writes wait for, a write that succeeds was applied as
the entry that was appended for it. -/
theorem proposals_settled :
    (∀ h, (system M cfg).Reach InRange h →
      (h.completed.map Completion.proposal).Nodup ∧ (Assoc.keys h.appended).Nodup) ∧
    ∀ h, (system M cfg).Reach (fun h a => SparesPending h a ∧ h.InRange a) h →
      ∀ c ∈ h.completed, c.result = .ok →
        ∃ e, c.entry = some e ∧ (c.proposal, e) ∈ h.appended := by
  constructor
  · intro h hr
    have hI : h.ledger.Sound := by
      refine hr.induct (I := fun h => h.ledger.Sound) ?_ ?_
      · rintro _ ⟨machine, rfl⟩
        exact ⟨List.nodup_nil, nofun, nofun, nofun, List.nodup_nil, nofun⟩
      · rintro h a h' - hI - ⟨-, ha⟩
        exact hI.step (ledger_step ha)
    exact ⟨hI.nodup, hI.appended⟩
  · intro h hr
    have hI : Waiting h := by
      refine hr.induct (I := Waiting) ?_ ?_
      · rintro _ ⟨machine, rfl⟩
        exact .init cfg machine
      · rintro h a h' - hI ⟨hg, hin⟩ ⟨hen, ha⟩
        exact hI.step hg hin hen ha
    exact hI.settled

/-- Node 1 is elected in term 1 and proposes a write, at index 2. -/
def oneWrite : List Action :=
  (List.replicate 15 [.event (.tick 0) [], .ready []]).flatten ++
    [.event (.message { type := .msgVoteResp, src := 2, dst := 1, term := 1 }) [], .ready [],
      .event (.command (some [7])) [], .ready []]

theorem proposals_settled_acknowledged : ∃ h : Host Unit,
    (system .unit threeNodes).Reach (fun h a => SparesPending h a ∧ h.InRange a) h ∧
    (∃ c ∈ h.completed, c.result = .ok) ∧ (h.completed.map Completion.proposal).Nodup ∧
    ∀ c ∈ h.completed, c.result = .ok → ∃ e, c.entry = some e ∧ (c.proposal, e) ∈ h.appended := by
  obtain ⟨h, hr, hc⟩ := exists_reach (M := .unit) threeNodes ()
    (fun h a => SparesPending h a ∧ h.InRange a) (fun h => ∃ c ∈ h.completed, c.result = .ok)
    (oneWrite ++
      [.event (.message { type := .msgAppResp, src := 2, dst := 1, term := 1, logIndex := 2 }) [],
        .ready []] ++ List.replicate 3 (.apply true true))
    (by decide +kernel)
  have hall : (system .unit threeNodes).Reach InRange h := hr.imp fun _ _ _ _ hg _ => hg.2
  exact ⟨h, hr, hc, (proposals_settled.1 h hall).1, proposals_settled.2 h hr⟩

/-- The leader of term 2 overwrites index 2, and the write of term 1 is reported as done. -/
theorem overwritten_write_succeeds : ∃ h : Host Unit,
    (system .unit threeNodes).Reach (fun _ _ => True) h ∧
    ∃ c ∈ h.completed, c.result = .ok ∧
      c.entry = some { term := 2, index := 2, data := [9] } ∧
      (c.proposal, { term := 1, index := 2, data := [7] }) ∈ h.appended :=
  exists_reach (M := .unit) threeNodes () (fun _ _ => True)
    (fun h => ∃ c ∈ h.completed, c.result = .ok ∧
      c.entry = some { term := 2, index := 2, data := [9] } ∧
      (c.proposal, { term := 1, index := 2, data := [7] }) ∈ h.appended)
    (oneWrite ++
      [.event (.message
          { type := .msgApp, src := 3, dst := 1, term := 2, commit := 2
            entries := [{ term := 2, index := 1 }, { term := 2, index := 2, data := [9] }] }) [],
        .ready []] ++ List.replicate 3 (.apply true true))
    (by decide +kernel)

end Host

end Mizu
