import Mizu.Raft.Runs
import Mizu.Store.Host

/-!
# What one action of a host can do

The memory of the Raft node, its storage and the messages handed out change in a few
ways only: an event is a chain of effects on the node, a snapshot task writes to the
storage and compacts the log, a `Ready` is written in up to three calls and then handed
out, and a restart rebuilds the node from the storage. Later modules reason from these.
-/

namespace Mizu

open Raft

variable {os : List Outcome} {o : Outcome}

namespace RaftStorage

/-! ### The storage after some of the calls of `persistReady` -/

/-- The storage after `SaveHardState`, which is skipped for an empty state. -/
def withHardState (st : RaftStorage) (o : Option HardState) : RaftStorage :=
  match o with
  | some hs => if hs.isEmpty then st else st.saveHardState hs
  | none => st

/-- The storage after `SaveSnapshot`, which is skipped for an empty snapshot. -/
def withSnapshot (st : RaftStorage) (o : Option Snapshot) : RaftStorage :=
  match o with
  | some snap => if snap.index = 0 then st else st.saveSnapshot snap
  | none => st

/-- The storage after all calls of `persistReady`. -/
def withReady (st : RaftStorage) (rd : Ready) : RaftStorage :=
  ((st.withHardState rd.hardState).saveEntries rd.entries).withSnapshot rd.snapshot

/-- What a stopped `persistReady` has written. -/
inductive Partial (st : RaftStorage) (rd : Ready) (o : Option Outcome) : RaftStorage → Prop
  | nothing : Partial st rd o st
  | hardState {hs : HardState} (h : rd.hardState = some hs) (ne : hs.isEmpty = false)
      (entries : rd.entries ≠ []) (stopped : o ≠ some .ok ∧ o ≠ none) :
      Partial st rd o (st.saveHardState hs)
  | entries : Partial st rd o ((st.withHardState rd.hardState).saveEntries rd.entries)
  | all : Partial st rd o (st.withReady rd)

variable {st : RaftStorage} {rd : Ready}

/-- The calls of `persistReady`: one list for each of the three. -/
theorem persistReady_eq (rd : Ready) : ∃ a b c : List (RaftStorage → RaftStorage),
    Peer.persistReady rd = a ++ (b ++ c) ∧
    (∀ st, a.foldl (fun s op => op s) st = st.withHardState rd.hardState) ∧
    (∀ st, b.foldl (fun s op => op s) st = st.saveEntries rd.entries) ∧
    (∀ st, c.foldl (fun s op => op s) st = st.withSnapshot rd.snapshot) ∧
    (a = [] ∨ a.length = 1 ∧ ∃ hs, rd.hardState = some hs ∧ hs.isEmpty = false) ∧
    (b = [] ∨ b.length = 1 ∧ rd.entries ≠ []) ∧ c.length ≤ 1 := by
  obtain ⟨ho, es, so, ce, ms, rs⟩ := rd
  refine ⟨_, _, _, List.append_assoc _ _ _, fun st => ?_, fun st => ?_, fun st => ?_, ?_, ?_, ?_⟩
  · cases ho with
    | none => rfl
    | some hs => by_cases h : hs.isEmpty <;> simp [withHardState, h]
  · by_cases h : es = []
    · simp [h, saveEntries]
    · simp [h]
  · cases so with
    | none => rfl
    | some snap => by_cases h : snap.index = 0 <;> simp [withSnapshot, isEmptySnap, h]
  · cases ho with
    | none => exact Or.inl rfl
    | some hs => by_cases h : hs.isEmpty <;> simp [h]
  · by_cases h : es = [] <;> simp [h]
  · cases so with
    | none => exact Nat.zero_le _
    | some snap => by_cases h : isEmptySnap (some snap) <;> simp [h]

/-- The calls of `persistReady` before some point have written a part of the `Ready`. -/
theorem partial_of_take (st : RaftStorage) (rd : Ready) {n : ℕ}
    (hstop : os[n]? = some o) (hne : o ≠ .ok) :
    st.Partial rd os[1]? (((Peer.persistReady rd).take n).foldl (fun s op => op s) st) := by
  obtain ⟨a, b, c, hops, ha, hb, hc, hA, hB, hC⟩ := persistReady_eq rd
  rw [hops]
  by_cases hn : (a ++ b).length ≤ n
  · -- the entries are written, if there are any
    have hsave : (a ++ b).foldl (fun s op => op s) st =
        (st.withHardState rd.hardState).saveEntries rd.entries := by
      rw [List.foldl_append, ha, hb]
    rw [← List.append_assoc, List.take_append, List.take_of_length_le hn, List.foldl_append, hsave]
    rcases Nat.eq_zero_or_pos (n - (a ++ b).length) with h0 | h0
    · rw [h0]
      exact .entries
    · rw [List.take_of_length_le (by omega), hc]
      exact .all
  · rw [List.length_append, not_le] at hn
    rcases Nat.eq_zero_or_pos n with rfl | hpos
    · exact .nothing
    · -- a call is left out, so the hard state and the entries have one each
      have hb1 : b.length ≤ 1 := by
        rcases hB with h | ⟨h, -⟩ <;> simp [h]
      obtain ⟨ha1, hs, hhs, hem⟩ := hA.resolve_left (fun h => by
        simp only [h, List.length_nil] at hn
        omega)
      obtain ⟨-, hes⟩ := hB.resolve_left (fun h => by
        simp only [h, List.length_nil] at hn
        omega)
      obtain rfl : n = 1 := by omega
      rw [List.take_append, List.take_of_length_le (by omega), ha1, List.take_zero,
        List.append_nil, ha, hhs]
      simp only [withHardState, hem]
      refine .hardState hhs hem hes ?_
      rw [hstop]
      exact ⟨fun h => hne (Option.some.inj h), nofun⟩

theorem foldl_persistReady (st : RaftStorage) (rd : Ready) :
    (Peer.persistReady rd).foldl (fun s op => op s) st = st.withReady rd := by
  obtain ⟨a, b, c, hops, ha, hb, hc, -⟩ := persistReady_eq rd
  rw [hops, List.foldl_append, List.foldl_append, ha, hb, hc]
  rfl

theorem withSnapshot_hardState (o : Option Snapshot) :
    (st.withSnapshot o).hardState = st.hardState := by
  unfold withSnapshot
  split
  · split_ifs <;> rfl
  · rfl

theorem withSnapshot_entries (o : Option Snapshot) : (st.withSnapshot o).entries = st.entries := by
  unfold withSnapshot
  split
  · split_ifs <;> rfl
  · rfl

theorem withHardState_entries (o : Option HardState) :
    (st.withHardState o).entries = st.entries := by
  unfold withHardState
  split
  · split_ifs <;> rfl
  · rfl

theorem withHardState_cases (o : Option HardState) :
    (st.withHardState o).hardState = st.hardState ∨
      o = some (st.withHardState o).hardState ∧
        (st.withHardState o).hardState.isEmpty = false := by
  unfold withHardState
  split
  · next hs =>
    split_ifs with hem
    · exact Or.inl rfl
    · exact Or.inr ⟨rfl, (Bool.not_eq_true _).mp hem⟩
  · exact Or.inl rfl

/-- A stopped `persistReady` leaves the hard state or has saved the pending one. -/
theorem Partial.hardState_cases {o : Option Outcome} {st' : RaftStorage}
    (h : st.Partial rd o st') : st'.hardState = st.hardState ∨
      rd.hardState = some st'.hardState ∧ st'.hardState.isEmpty = false := by
  cases h with
  | nothing => exact Or.inl rfl
  | hardState hs ne => exact Or.inr ⟨hs, ne⟩
  | entries => exact @withHardState_cases st rd.hardState
  | all =>
    rw [withReady, withSnapshot_hardState]
    exact @withHardState_cases st rd.hardState

theorem withReady_entries (k : ℕ) :
    (st.withReady rd).entries k = (st.saveEntries rd.entries).entries k := by
  rw [withReady, withSnapshot_entries, saveEntries_entries, saveEntries_entries,
    withHardState_entries]

/-- A stopped `persistReady` has saved the pending entries or not. -/
theorem Partial.entries_cases {o : Option Outcome} {st' : RaftStorage} (h : st.Partial rd o st')
    (k : ℕ) : st'.entries k = st.entries k ∨
      st'.entries k = (st.saveEntries rd.entries).entries k := by
  cases h with
  | nothing => exact Or.inl rfl
  | hardState => exact Or.inl rfl
  | entries =>
    rw [saveEntries_entries, saveEntries_entries, withHardState_entries]
    exact Or.inr rfl
  | all => exact Or.inr (withReady_entries k)

/-- The pending hard state has been saved, unless it is empty. -/
theorem withReady_hardState (st : RaftStorage) (rd : Ready) :
    (st.withReady rd).hardState = rd.hardState.getD st.hardState ∨
      ∃ hs, rd.hardState = some hs ∧ hs.isEmpty = true ∧
        (st.withReady rd).hardState = st.hardState := by
  rw [withReady, withSnapshot_hardState]
  change (st.withHardState rd.hardState).hardState = _ ∨ _
  unfold withHardState
  split
  · next hs heq =>
    split_ifs with hem
    · exact Or.inr ⟨hs, heq, hem, rfl⟩
    · exact Or.inl (by simp [heq, saveHardState])
  · next heq => exact Or.inl (by simp [heq])

/-! ### The node rebuilt from the storage -/

/-- The stored snapshot, with index zero if there is none. -/
def snap (st : RaftStorage) : Snapshot := st.loadSnapshot.getD {}

/-- The entries that `NewPeer` loads. -/
def restoredEntries (st : RaftStorage) : List Entry :=
  if st.hardState.isEmpty then []
  else st.loadEntries ((st.snap.index + 1) % 2 ^ 64) ((st.hardState.commitIndex + 1) % 2 ^ 64)

/-- The stored indices are below the last index of `uint64`. -/
def InRange (st : RaftStorage) : Prop :=
  st.snap.index + 1 < 2 ^ 64 ∧ st.hardState.commitIndex + 1 < 2 ^ 64

instance (st : RaftStorage) : Decidable st.InRange := inferInstanceAs (Decidable (_ ∧ _))

theorem restoredEntries_eq (h : st.InRange) : st.restoredEntries =
    if st.hardState.isEmpty then []
    else st.loadEntries (st.snap.index + 1) (st.hardState.commitIndex + 1) := by
  rw [restoredEntries, Nat.mod_eq_of_lt h.1, Nat.mod_eq_of_lt h.2]

/-- The log that `NewPeer` rebuilds. -/
def restoredLog (st : RaftStorage) : RaftLog :=
  (RaftLog.restore st.snap.index st.snap.term).append st.restoredEntries

/-- The hard state that `NewPeer` rebuilds. -/
def restoredState (st : RaftStorage) : HardState :=
  if st.hardState.isEmpty then { term := st.snap.term, commitIndex := st.snap.index }
  else st.hardState

/-- The node that `NewPeer` rebuilds. -/
def restoredRaft (st : RaftStorage) (cfg : Config) : Raft :=
  { newRaft cfg with
    hardState := st.restoredState
    raftLog := st.restoredLog
    currentSnapshot := st.loadSnapshot
    pendingSnapshot := st.loadSnapshot
    committedCursor := max st.snap.index st.restoredState.commitIndex
    committedEntries := st.restoredLog.between st.snap.index st.restoredState.commitIndex }

theorem loadSnapshot_index {snap : Snapshot} (h : st.loadSnapshot = some snap) :
    snap.index ≠ 0 := by
  have := (Option.filter_eq_some_iff.mp h).2
  simpa using this

theorem newRaft_restoreSnapshot (cfg : Config) (st : RaftStorage) :
    st.loadSnapshot.elim (newRaft cfg) (newRaft cfg).restoreSnapshot =
    { newRaft cfg with
      hardState := { term := st.snap.term, commitIndex := st.snap.index }
      raftLog := RaftLog.restore st.snap.index st.snap.term
      currentSnapshot := st.loadSnapshot
      pendingSnapshot := st.loadSnapshot
      committedCursor := st.snap.index } := by
  cases h : st.loadSnapshot with
  | none => simp [snap, h, newRaft, newRaftLog, RaftLog.restore]
  | some s =>
    rw [Option.elim_some, restoreSnapshot_eq (loadSnapshot_index h)]
    simp [restored, snap, h, newRaft, Raft.term, Raft.commitIndex]

theorem restoreRaft_eq {cfg : Config} {r : Raft} (h : restoreRaft cfg st = some r) :
    r = st.restoredRaft cfg := by
  unfold restoreRaft at h
  dsimp only at h
  rw [newRaft_restoreSnapshot] at h
  have hstart : (st.loadSnapshot.map Snapshot.index).getD 0 = st.snap.index := by
    cases hs : st.loadSnapshot <;> simp [snap, hs]
  rw [hstart] at h
  split_ifs at h with hem
  · cases h
    simp [restoredRaft, restoredState, restoredLog, restoredEntries, hem, RaftLog.append,
      RaftLog.between, RaftLog.restore, newRaft]
  · have he := emitRounds_eq h
    rw [he]
    simp only [restoredRaft, restoredState, restoredLog, restoredEntries, hem, Raft.commitIndex,
      RaftLog.between, newRaft]
    simp
    omega

end RaftStorage

/-! ### The events -/

/-- The message of an event. -/
def Event.message? : Event → Option Message
  | .message m => some m
  | _ => none

/-- The largest term in which the event can start a campaign. -/
def Event.campaignTerm (r : Raft) : Event → ℕ
  | .message m => max r.term m.term
  | .tick _ => r.term
  | _ => 0

namespace Peer

variable {p p' : Peer}

theorem cancelReadIndexes_sends (p : Peer) (ids : List ℕ) :
    p.raft.Sends (p.cancelReadIndexes ids).raft := by
  unfold cancelReadIndexes
  generalize p.raft = r
  induction ids generalizing r with
  | nil => exact .refl r
  | cons id ids ih => exact (cancelReadIndex_sends r id).trans (ih _)

theorem finishReadRequestsIfNotLeader_sends (p : Peer) (canceled : ℕ → Bool) :
    p.raft.Sends (p.finishReadRequestsIfNotLeader canceled).raft := by
  unfold finishReadRequestsIfNotLeader
  split_ifs
  · exact .refl _
  · exact cancelReadIndexes_sends { p with reads := (p.reads.failIfNotLeader canceled).1 } _

theorem pruneCanceledReadRequests_sends (p : Peer) (canceled : ℕ → Bool) :
    p.raft.Sends (p.pruneCanceledReadRequests canceled).raft :=
  cancelReadIndexes_sends { p with reads := (p.reads.pruneCanceled canceled).1 } _

@[simp] theorem raft_cancelSnapshot (p : Peer) (index : ℕ) :
    (p.cancelSnapshot index).raft = p.raft := by
  unfold cancelSnapshot
  split_ifs <;> rfl

@[simp] theorem raftStorage_cancelSnapshot (p : Peer) (index : ℕ) :
    (p.cancelSnapshot index).raftStorage = p.raftStorage := by
  unfold cancelSnapshot
  split_ifs <;> rfl

/-- The snapshot that is saved for a task; its term is the term of the node. -/
def taskSnapshot (p : Peer) (task : SnapshotTask) : Snapshot :=
  { term := p.raft.term, index := task.index, data := task.data }

/-- A task stops before its first call, right after it, or after the log is compacted. -/
theorem saveSnapshotAndCompact_cases {task : SnapshotTask} {os' : List Outcome}
    (h : p.saveSnapshotAndCompact task os = some (p', o, os')) :
    (p'.raft = p.raft ∧ p'.raftStorage = p.raftStorage) ∨
    (p'.raft = p.raft ∧ o = .crash ∧
      p'.raftStorage = p.raftStorage.saveSnapshot (p.taskSnapshot task)) ∨
    (p.raft.snapshot task.index task.data = some p'.raft ∧
      (p'.raftStorage = p.raftStorage.saveSnapshot (p.taskSnapshot task) ∨
        p'.raftStorage =
          (p.raftStorage.saveSnapshot (p.taskSnapshot task)).compact task.index)) := by
  unfold saveSnapshotAndCompact at h
  dsimp only at h
  split at h
  · next st os₁ hcalls =>
    have hst : st = p.raftStorage.saveSnapshot (p.taskSnapshot task) := by
      rcases RaftStorage.calls_singleton hcalls with ⟨hne, -⟩ | ⟨-, hst⟩
      · exact absurd rfl hne
      · exact hst
    obtain ⟨r, hr, h⟩ := Option.bind_eq_some_iff.mp h
    refine Or.inr (Or.inr ?_)
    split at h
    · next st₂ os₂ hcalls₂ =>
      cases h
      rw [raft_cancelSnapshot, raftStorage_cancelSnapshot]
      rcases RaftStorage.calls_singleton hcalls₂ with ⟨-, hst₂⟩ | ⟨-, hst₂⟩
      · exact ⟨hr, Or.inl (hst₂.trans hst)⟩
      · exact ⟨hr, Or.inr (hst ▸ hst₂)⟩
    · next st₂ o₂ os₂ hne hcalls₂ =>
      cases h
      rw [raft_cancelSnapshot, raftStorage_cancelSnapshot]
      rcases RaftStorage.calls_singleton hcalls₂ with ⟨-, hst₂⟩ | ⟨-, hst₂⟩
      · exact ⟨hr, Or.inl (hst₂.trans hst)⟩
      · exact ⟨hr, Or.inr (hst ▸ hst₂)⟩
  · next st o₁ os₁ hne hcalls =>
    cases h
    rw [raft_cancelSnapshot, raftStorage_cancelSnapshot]
    rcases RaftStorage.calls_singleton hcalls with ⟨-, hst⟩ | ⟨ho, hst⟩
    · exact Or.inl ⟨rfl, hst⟩
    · refine Or.inr (Or.inl ⟨rfl, ?_, hst⟩)
      rcases ho with rfl | rfl
      · exact (hne rfl).elim
      · rfl

end Peer

namespace Host

variable {σ : Type} {M : StateMachine σ} {cfg : Config} {h h' : Host σ}

/-- The index that a message brings. -/
def Action.logIndex : Action → ℕ
  | .event (.message m) _ => m.logIndex
  | _ => 0

/-- The indices of the log, of the storage and of a message are below the last one of `uint64`. -/
def InRange (h : Host σ) (a : Action) : Prop :=
  h.raft.raftLog.endIndex < 2 ^ 64 ∧ h.storage.InRange ∧ a.logIndex + 1 < 2 ^ 64

instance (a : Action) : Decidable (h.InRange a) := inferInstanceAs (Decidable (_ ∧ _ ∧ _))

/-- What an action does to the node, to the storage and to what is handed out, and whether
the process is down afterwards. -/
inductive Step (cfg : Config) (h : Host σ) : Action → Raft → RaftStorage → List Handout →
    Bool → Prop
  | handled {e : Event} {os : List Outcome} {s : Raft}
      (hs : Handles (e.campaignTerm h.raft) e.message? h.raft s) :
      Step cfg h (.event e os) s h.storage h.sent false
  | tasked {os : List Outcome} {task : SnapshotTask} {s : Raft} {st : RaftStorage} {down : Bool}
      (ht : h.snapshotTasks.head? = some task)
      (hs : h.raft.snapshot task.index task.data = some s)
      (hst : st = h.storage.saveSnapshot (h.peer.taskSnapshot task) ∨
        st = (h.storage.saveSnapshot (h.peer.taskSnapshot task)).compact task.index) :
      Step cfg h (.event .snapshotTask os) s st h.sent down
  | taskSaved {os : List Outcome} {task : SnapshotTask}
      (ht : h.snapshotTasks.head? = some task) :
      Step cfg h (.event .snapshotTask os) h.raft
        (h.storage.saveSnapshot (h.peer.taskSnapshot task)) h.sent true
  | persisted {os : List Outcome} {st : RaftStorage} {down : Bool}
      (hst : h.storage.Partial h.raft.ready os[1]? st) (hd : .fail ∉ os → down = true) :
      Step cfg h (.ready os) h.raft st h.sent down
  | flushed {os : List Outcome} {s : Raft} {down : Bool}
      (hs : s = h.raft ∧ (.fail ∉ os → down = true) ∨ s = h.raft.advance) :
      Step cfg h (.ready os) s (h.storage.withReady h.raft.ready)
        (h.sent ++ h.raft.msgs.map fun m => ⟨m, h.raft, h.storage.withReady h.raft.ready⟩) down
  | restarted (crashed : h.crashed = true) :
      Step cfg h .restart (h.storage.restoredRaft cfg) h.storage h.sent false
  | same {a : Action} {down : Bool} (ha : a ≠ .restart) (hd : h.crashed = true → down = true)
      (hr : ∀ os, a = .ready os → h.raft.ready.isEmpty = true) :
      Step cfg h a h.raft h.storage h.sent down

/-! ### Every action is such a step -/

variable {p : Peer}

theorem step_of_peer_step {m : Message} (hp : h.peer.step h.isCanceled m = some p) :
    Handles (max h.raft.term m.term) (some m) h.raft p.raft ∧ p.raftStorage = h.storage := by
  obtain ⟨r, hr, hp⟩ := Option.bind_eq_some_iff.mp hp
  cases hp
  refine ⟨⟨_, r, .refl _, step_calls hr, ?_⟩, ?_⟩
  · exact Peer.finishReadRequestsIfNotLeader_sends { h.peer with raft := r } _
  · unfold Peer.finishReadRequestsIfNotLeader
    split_ifs <;> rfl

theorem step_of_peer_tick {rnd : ℕ} (hp : h.peer.tick h.isCanceled rnd = some p) :
    Handles h.raft.term none h.raft p.raft ∧ p.raftStorage = h.storage := by
  obtain ⟨r, hr, hp⟩ := Option.bind_eq_some_iff.mp hp
  cases hp
  have hprune := Peer.pruneCanceledReadRequests_sends h.peer h.isCanceled
  refine ⟨⟨_, r, hprune, ?_, ?_⟩, ?_⟩
  · have ht : h.raft.term = (h.peer.pruneCanceledReadRequests h.isCanceled).raft.term :=
      hprune.kept.term.symm
    rw [ht]
    exact tick_calls hr
  · exact Peer.finishReadRequestsIfNotLeader_sends
      { h.peer.pruneCanceledReadRequests h.isCanceled with raft := r } _
  · unfold Peer.finishReadRequestsIfNotLeader
    split_ifs <;> rfl

theorem step_of_peer_propose {data : Bytes} {proposal : ℕ} {x : Peer × Bool}
    (hp : h.peer.propose data proposal = some x) :
    Handles 0 none h.raft x.1.raft ∧ x.1.raftStorage = h.storage := by
  obtain ⟨⟨r, accepted⟩, hr, hp⟩ := Option.bind_eq_some_iff.mp hp
  have hh : Handles 0 none h.raft r := propose_handles hr
  dsimp only at hp
  split_ifs at hp
  · cases hp
    exact ⟨hh, rfl⟩
  · cases hp
    exact ⟨hh, rfl⟩

theorem step_of_peer_read {request : ℕ}
    (hp : h.peer.startLinearizableRead h.isCanceled request = some p) :
    Handles 0 none h.raft p.raft ∧ p.raftStorage = h.storage := by
  unfold Peer.startLinearizableRead at hp
  split_ifs at hp
  · cases hp
    exact ⟨.of_sends (.refl _), rfl⟩
  · generalize h.peer.reads.start request = x at hp
    obtain ⟨⟨r, started⟩, hr, hp⟩ := Option.bind_eq_some_iff.mp hp
    have hs := readIndex_sends hr
    dsimp only at hp
    split_ifs at hp
    · cases hp
      exact ⟨.of_sends hs, rfl⟩
    · cases hp
      exact ⟨.of_sends hs, rfl⟩

theorem step_of_task (hh : h.handleSnapshotTask os = some h') (hc : h.crashed = false) :
    h.Step cfg (.event .snapshotTask os) h'.raft h'.storage h'.sent h'.crashed := by
  unfold handleSnapshotTask at hh
  split at hh
  · cases hh
    exact .same nofun id nofun
  · next task tasks htasks =>
    obtain ⟨⟨p, o, os'⟩, hp, hh⟩ := Option.bind_eq_some_iff.mp hh
    cases hh
    have hhead : h.snapshotTasks.head? = some task := by simp [htasks]
    change h.Step cfg _ p.raft p.raftStorage h.sent (h.crashed || decide (o = .crash))
    rcases Peer.saveSnapshotAndCompact_cases hp with ⟨hr, hst⟩ | ⟨hr, rfl, hst⟩ | ⟨hr, hst⟩
    · rw [hr, hst]
      exact .same nofun (fun h => absurd h (by simp [hc])) nofun
    · rw [hr, hst, hc]
      exact .taskSaved hhead
    · exact .tasked hhead hr hst

theorem step_of_event {e : Event} (hh : h.handleEvent e os = some h') (hc : h.crashed = false) :
    h.Step cfg (.event e os) h'.raft h'.storage h'.sent h'.crashed := by
  obtain ⟨h₁, h₁', rfl⟩ := Option.map_eq_some_iff.mp hh
  change h.Step cfg _ h₁.raft h₁.storage h₁.sent h₁.crashed
  have handled {p : Peer}
      (hp : Handles (e.campaignTerm h.raft) e.message? h.raft p.raft ∧
        p.raftStorage = h.storage) :
      h.Step cfg (.event e os) p.raft p.raftStorage h.sent h.crashed := by
    rw [hp.2, hc]
    exact .handled hp.1
  cases e with
  | message m =>
    obtain ⟨p, hp, rfl⟩ := Option.map_eq_some_iff.mp h₁'
    exact handled (step_of_peer_step hp)
  | tick rnd =>
    obtain ⟨p, hp, rfl⟩ := Option.map_eq_some_iff.mp h₁'
    exact handled (step_of_peer_tick hp)
  | readIndex request =>
    obtain ⟨p, hp, rfl⟩ := Option.map_eq_some_iff.mp h₁'
    exact handled (step_of_peer_read hp)
  | snapshotTask => exact step_of_task h₁' hc
  | command data =>
    have h₂ : h.handleProposal data = some h₁ := h₁'
    cases data with
    | none =>
      cases h₂
      exact .same nofun id nofun
    | some data =>
      obtain ⟨⟨p, accepted⟩, hp, h₂⟩ := Option.bind_eq_some_iff.mp h₂
      have hstep := handled (step_of_peer_propose (x := (p, accepted)) hp)
      dsimp only at h₂
      split_ifs at h₂
      · cases h₂
        exact hstep
      · cases h₂
        exact hstep

/-- What is stored, handed out and given to the apply worker when the `Ready` of `r` has been
processed, with the outcome. -/
structure Processed (r : Raft) (st : RaftStorage) (sent : List Handout) (os : List Outcome)
    (o : Outcome) (st' : RaftStorage) (sent' : List Handout) (tasks : List ApplyTask) : Prop where
  outcome : .fail ∉ os → o ≠ .fail
  tasks : tasks = [] ∧ (o = .ok → r.committedEntries = []) ∨
    tasks = [{ snapshot := r.pendingSnapshot, entries := r.committedEntries }] ∧ o = .ok
  stored : o ≠ .ok ∧ st.Partial r.ready os[1]? st' ∧ sent' = sent ∨
    st' = st.withReady r.ready ∧
      sent' = sent ++ r.msgs.map fun m => ⟨m, r, st.withReady r.ready⟩

theorem submitApply_eq (h : Host σ) (r : Raft) (o : Outcome) : ∃ o' tasks,
    h.submitApply r.ready o = ({ h with applyTasks := h.applyTasks ++ tasks }, o') ∧
    (tasks = [] ∧ (o' = .ok → r.committedEntries = []) ∨
      tasks = [{ snapshot := r.pendingSnapshot, entries := r.committedEntries }] ∧ o' = .ok) ∧
    (o ≠ .fail → o' ≠ .fail) := by
  unfold submitApply
  split_ifs with hem ho ho
  · exact ⟨.crash, [], by simp, Or.inl ⟨rfl, fun _ => hem.2⟩, fun _ => nofun⟩
  · exact ⟨.ok, [], by simp, Or.inl ⟨rfl, fun _ => hem.2⟩, fun _ => nofun⟩
  · exact ⟨.ok, _, rfl, Or.inr ⟨rfl, rfl⟩, fun _ => nofun⟩
  · exact ⟨o, [], by simp, Or.inl ⟨rfl, fun h => absurd h ho⟩, id⟩

theorem processReady_eq (h : Host σ) (os : List Outcome) : ∃ o st sent tasks reads,
    Processed h.raft h.storage h.sent os o st sent tasks ∧
    h.processReady h.raft.ready os = ({ h with
      peer := { h.peer with raftStorage := st, reads := reads }
      sent := sent, applyTasks := h.applyTasks ++ tasks }, o) := by
  unfold processReady
  split
  · next st os₁ hcalls =>
    obtain ⟨n, hn, hst, hok, -⟩ := RaftStorage.calls_eq hcalls
    obtain rfl : st = h.storage.withReady h.raft.ready := by
      rw [hst, hok rfl, List.take_length, RaftStorage.foldl_persistReady]
    have hfail (hf : .fail ∉ os) : os₁.head?.getD .ok ≠ .fail := by
      cases os₁ with
      | nil => simp
      | cons x xs =>
        rintro rfl
        exact hf (RaftStorage.calls_rest hcalls _ List.mem_cons_self)
    obtain ⟨o, tasks, hsub, htasks, ho⟩ := submitApply_eq (sendMessages { h with
      peer := { h.peer with raftStorage := h.storage.withReady h.raft.ready } }
      h.raft.ready.messages) h.raft (os₁.head?.getD .ok)
    let reads := if o = .ok then
      h.peer.reads.handleStates h.isCanceled h.peer.appliedIndex h.raft.readStates else h.peer.reads
    refine ⟨o, _, _, tasks, reads, ⟨fun hf => ho (hfail hf), htasks, Or.inr ⟨rfl, rfl⟩⟩, ?_⟩
    dsimp only
    rw [hsub]
    cases o <;> rfl
  · next st o₁ os₁ hne hcalls =>
    obtain ⟨n, hn, hst, -, hstop⟩ := RaftStorage.calls_eq hcalls
    have ho : o₁ ≠ .ok := hne
    refine ⟨o₁, st, h.sent, [], h.peer.reads, ⟨fun hf hfail => hf ?_,
      Or.inl ⟨rfl, fun h => absurd h ho⟩, Or.inl ⟨ho, ?_, rfl⟩⟩, by simp⟩
    · exact hfail ▸ List.mem_of_getElem? (hstop ho)
    · rw [hst]
      exact RaftStorage.partial_of_take _ _ (hstop ho) ho

theorem handleReady_eq (h : Host σ) (os : List Outcome) :
    h.raft.ready.isEmpty = true ∧ h.handleReady os = { h with due := false } ∨
    ∃ o st sent tasks reads, Processed h.raft h.storage h.sent os o st sent tasks ∧
      h.handleReady os = { h with
        peer := { h.peer with
          raft := if o = .ok then h.raft.advance else h.raft, raftStorage := st, reads := reads }
        sent := sent, applyTasks := h.applyTasks ++ tasks, due := false
        crashed := h.crashed || decide (o = .crash) } := by
  unfold handleReady
  dsimp only
  split_ifs with hem
  · exact Or.inl ⟨hem, rfl⟩
  · obtain ⟨o, st, sent, tasks, reads, hp, heq⟩ := processReady_eq { h with due := false } os
    refine Or.inr ⟨o, st, sent, tasks, reads, hp, ?_⟩
    rw [heq]
    cases o <;> simp [stop, raft]

theorem isEmpty_ready_iff (r : Raft) : r.ready.isEmpty = true ↔
    r.pendingHardState = none ∧ r.pendingEntries = [] ∧ r.pendingSnapshot = none ∧
      r.committedEntries = [] ∧ r.msgs = [] ∧ r.readStates = [] := by
  exact decide_eq_true_iff

theorem step_of_ready (h : Host σ) (os : List Outcome) (hc : h.crashed = false) :
    h.Step cfg (.ready os) (h.handleReady os).raft (h.handleReady os).storage
      (h.handleReady os).sent (h.handleReady os).crashed := by
  rcases handleReady_eq h os with ⟨hem, heq⟩ | ⟨o, st, sent, tasks, reads, hp, heq⟩
  · rw [heq]
    exact .same nofun (fun hd => absurd hd (by simp [hc])) fun _ _ => hem
  · rw [heq]
    change h.Step cfg _ (if o = .ok then h.raft.advance else h.raft) st sent
      (h.crashed || decide (o = .crash))
    have hdown (ho : o ≠ .ok) (hf : .fail ∉ os) : (h.crashed || decide (o = .crash)) = true := by
      have := hp.outcome hf
      cases o <;> simp_all
    rcases hp.stored with ⟨ho, hst, rfl⟩ | ⟨rfl, rfl⟩
    · rw [if_neg ho]
      exact .persisted hst (hdown ho)
    · split_ifs with ho
      · exact .flushed (Or.inr rfl)
      · exact .flushed (Or.inl ⟨rfl, hdown ho⟩)

/-- What the apply worker leaves alone. -/
structure Framed (h h' : Host σ) : Prop where
  raft : h'.raft = h.raft
  storage : h'.storage = h.storage
  sent : h'.sent = h.sent
  crashed : h'.crashed = h.crashed
  due : h'.due = h.due
  reached : h'.reached = h.reached

theorem completeProposal_eq (h : Host σ) (e : Entry) (result : WriteResult) :
    h.completeProposal e result = { h with
      peer := { h.peer with pendingProposals := Assoc.erase e.index h.peer.pendingProposals }
      completed := h.completed ++
        ((Assoc.get e.index h.peer.pendingProposals).map fun p => ⟨p, result, some e⟩).toList
          } := by
  unfold completeProposal Peer.takeProposal
  dsimp only
  split <;> simp [*]

theorem triggerSnapshot_eq (h : Host σ) (created : Bool) : ∃ n tasks,
    (∀ t ∈ tasks, t.index = h.peer.appliedIndex) ∧ h.triggerSnapshot M created = { h with
      peer := { h.peer with pendingSnapshot := n }
      snapshotTasks := h.snapshotTasks ++ tasks } := by
  unfold triggerSnapshot Peer.beginSnapshot
  split
  · exact ⟨h.peer.pendingSnapshot, [], nofun, by simp⟩
  · next p index hp =>
    split_ifs at hp
    cases hp
    split_ifs
    · exact ⟨_, [_], by simp, rfl⟩
    · exact ⟨0, [], nofun, by simp [Peer.cancelSnapshot]⟩

/-- Applying the entry `e` may take its proposal and submit a snapshot at its index. -/
theorem applyEntry_eq (h : Host σ) (e : Entry) (ok created : Bool) : ∃ pending completed n tasks,
    (pending = h.peer.pendingProposals ∧ completed = h.completed ∨ ∃ result,
      pending = Assoc.erase e.index h.peer.pendingProposals ∧ completed = h.completed ++
        ((Assoc.get e.index h.peer.pendingProposals).map fun p => ⟨p, result, some e⟩).toList) ∧
    (∀ t ∈ tasks, t.index = e.index) ∧ h.applyEntry M e ok created = { h with
      peer := { h.peer with
        appliedIndex := e.index, pendingProposals := pending, pendingSnapshot := n }
      machine := if (e.data ≠ [] ∧ M.unmarshals e.data = true) ∧ ok = true then
        M.applyCommand e.data h.machine else h.machine
      snapshotTasks := h.snapshotTasks ++ tasks, completed := completed } := by
  have none : ∀ t ∈ ([] : List SnapshotTask), t.index = e.index := nofun
  unfold applyEntry
  simp only [completeProposal_eq, setAppliedIndex]
  by_cases h₁ : e.data = []
  · exact ⟨_, _, h.peer.pendingSnapshot, [], Or.inl ⟨rfl, rfl⟩, none, by simp [h₁]⟩
  by_cases h₂ : M.unmarshals e.data = true
  · by_cases h₃ : ok = true
    · obtain ⟨n, tasks, htasks, heq⟩ := triggerSnapshot_eq (M := M) ((completeProposal
        { h with machine := M.applyCommand e.data h.machine } e .ok).setAppliedIndex e.index)
          created
      simp only [completeProposal_eq, setAppliedIndex] at htasks heq
      refine ⟨_, _, n, tasks, Or.inr ⟨.ok, rfl, rfl⟩, htasks, ?_⟩
      simpa [h₁, h₂, h₃] using heq
    · exact ⟨_, _, h.peer.pendingSnapshot, [], Or.inr ⟨.apply, rfl, rfl⟩, none,
        by simp [h₁, h₂, h₃]⟩
  · exact ⟨_, _, h.peer.pendingSnapshot, [], Or.inr ⟨.unmarshal, rfl, rfl⟩, none, by simp [h₁, h₂]⟩

theorem applyNext_framed (h : Host σ) (ok created : Bool) :
    h.Framed (h.applyNext M ok created) := by
  unfold applyNext
  split
  · split <;> exact ⟨rfl, rfl, rfl, rfl, rfl, rfl⟩
  · unfold applySnapshot
    split_ifs <;> exact ⟨rfl, rfl, rfl, rfl, rfl, rfl⟩
  · next e es hap =>
    obtain ⟨_, _, _, _, -, -, heq⟩ :=
      applyEntry_eq (M := M) { h with applying := some { entries := es } } e ok created
    rw [heq]
    exact ⟨rfl, rfl, rfl, rfl, rfl, rfl⟩
  · exact ⟨rfl, rfl, rfl, rfl, rfl, rfl⟩

theorem Framed.step {a : Action} (hf : h.Framed h') (ha : a ≠ .restart) (hr : ∀ os, a ≠ .ready os) :
    h.Step cfg a h'.raft h'.storage h'.sent h'.crashed := by
  rw [hf.raft, hf.storage, hf.sent, hf.crashed]
  exact .same ha id fun os h => absurd h (hr os)

theorem step_of_act {a : Action} (hen : h.Enabled a) (ha : h.act M cfg a = some h') :
    h.Step cfg a h'.raft h'.storage h'.sent h'.crashed := by
  cases a with
  | event e os => exact step_of_event ha hen.1
  | ready os =>
    cases ha
    exact step_of_ready h os hen.1
  | apply ok created =>
    cases ha
    exact (applyNext_framed h ok created).step nofun nofun
  | cancel request =>
    cases ha
    exact .same nofun id nofun
  | crash =>
    cases ha
    exact .same nofun (fun _ => rfl) nofun
  | restart =>
    have hr : h.restart cfg = some h' := ha
    obtain ⟨p, hp, hr⟩ := Option.bind_eq_some_iff.mp hr
    obtain ⟨r, hr', hp⟩ := Option.bind_eq_some_iff.mp hp
    cases hp
    cases hr
    rw [RaftStorage.restoreRaft_eq hr']
    exact .restarted hen

end Host

end Mizu
