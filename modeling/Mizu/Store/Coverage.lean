import Mizu.Raft.Total
import Mizu.Store.WriteAhead

/-!
# The stored log covers everything above the stored snapshot

Without failing storage calls the stored snapshot is the sentinel of the log in memory,
and the entries above it are stored without a gap. A crash between two calls cannot
break this, and so the log that is rebuilt has every entry at its place. The exception is
a snapshot task that has been overtaken by a snapshot of the leader.
-/

namespace Mizu

open Raft

/-- Above `s` there is no gap below a stored index. -/
def Dense (entries : ℕ → Option Entry) (s : ℕ) : Prop :=
  ∀ j k, s < j → j ≤ k → (entries k).isSome → (entries j).isSome

theorem Dense.mono {entries : ℕ → Option Entry} {s s' : ℕ} (h : Dense entries s) (hs : s ≤ s') :
    Dense entries s' :=
  fun j k hj hjk hk => h j k (hs.trans_lt hj) hjk hk

/-- An interval that starts in a covered place can be added. -/
theorem Dense.extend {f g : ℕ → Option Entry} {s lo n : ℕ} (h : Dense f s)
    (hin : ∀ k, lo ≤ k → k < lo + n → (g k).isSome) (hout : ∀ k, k < lo ∨ lo + n ≤ k → g k = f k)
    (hlow : ∀ k, s < k → k < lo → (f k).isSome) : Dense g s := by
  intro j k hj hjk hk
  by_cases hb : lo ≤ j ∧ j < lo + n
  · exact hin j hb.1 hb.2
  · rw [hout j (by omega)]
    rcases Nat.lt_or_ge j lo with hlt | hge
    · exact hlow j hj hlt
    · rw [hout k (by omega)] at hk
      exact h j k hj hjk hk

/-- Without a gap, the values on an interval are found by their position. -/
theorem getElem?_filterMap_range' {α : Type} {f : ℕ → Option α} (lo n i : ℕ)
    (h : ∀ j k, lo ≤ j → j ≤ k → k < lo + n → (f k).isSome → (f j).isSome) :
    ((List.range' lo n).filterMap f)[i]? = if i < n then f (lo + i) else none := by
  induction n generalizing lo i with
  | zero => simp
  | succ n ih =>
    rw [List.range'_succ]
    cases hlo : f lo with
    | some a =>
      rw [List.filterMap_cons_some hlo]
      cases i with
      | zero => simp [hlo]
      | succ i =>
        rw [List.getElem?_cons_succ,
          ih (lo + 1) i fun j k hj hjk hk => h j k (by omega) hjk (by omega)]
        simp only [Nat.succ_lt_succ_iff, Nat.add_assoc, Nat.add_comm 1]
    | none =>
      -- nothing is stored from here on
      have hnone : ∀ k, lo ≤ k → k < lo + (n + 1) → f k = none := by
        intro k hk hkn
        by_contra hne
        have := h lo k le_rfl hk hkn (Option.isSome_iff_ne_none.mpr hne)
        simp [hlo] at this
      rw [List.filterMap_cons_none hlo, List.filterMap_eq_nil_iff.mpr]
      · rw [List.getElem?_nil]
        split_ifs with hi
        · rw [hnone _ (by omega) (by omega)]
        · rfl
      · intro k hk
        have := List.mem_range'_1.mp hk
        exact hnone k (by omega) (by omega)

/-- The entry at position `k` has the index `offset + k`. -/
def RaftLog.Contiguous (l : RaftLog) : Prop :=
  ∀ (k : ℕ) e, l.entries[k]? = some e → e.index = l.offset + k

namespace RaftStorage

variable {st st' : RaftStorage}

/-- Every entry is stored under its own index. -/
def Keyed (st : RaftStorage) : Prop := ∀ k e, st.entries k = some e → e.index = k

theorem Keyed.saveEntries (h : st.Keyed) (es : List Entry) : (st.saveEntries es).Keyed := by
  intro k e he
  rw [saveEntries_entries] at he
  cases hf : es.reverse.find? fun e => e.index = k with
  | some d =>
    rw [hf] at he
    cases he
    simpa using List.find?_some hf
  | none =>
    rw [hf] at he
    exact h k e he

theorem Keyed.of_entries (h : st.Keyed)
    (hst : ∀ k, st'.entries k = st.entries k ∨ st'.entries k = none) : st'.Keyed := by
  intro k e he
  rcases hst k with hk | hk
  · exact h k e (hk.symm.trans he)
  · rw [hk] at he
    cases he

theorem snap_saveSnapshot {snap : Snapshot} (h : snap.index ≠ 0) :
    (st.saveSnapshot snap).snap = snap := by
  have hl : (st.saveSnapshot snap).loadSnapshot = some snap := by
    simp [loadSnapshot, saveSnapshot, h]
  simp [RaftStorage.snap, hl]

theorem snap_compact (index : ℕ) : (st.compact index).snap = st.snap := by
  unfold compact
  split_ifs <;> rfl

theorem snap_withHardState (o : Option HardState) : (st.withHardState o).snap = st.snap := by
  unfold withHardState
  split
  · split_ifs <;> rfl
  · rfl

/-- The stored snapshot after a `Ready` is its own, if it has one. -/
theorem snap_withReady (rd : Ready) : (st.withReady rd).snap = st.snap ∧
      (∀ snap, rd.snapshot = some snap → snap.index = 0) ∨
    ∃ snap, rd.snapshot = some snap ∧ (st.withReady rd).snap = snap := by
  have hmid : ((st.withHardState rd.hardState).saveEntries rd.entries).snap = st.snap :=
    @snap_withHardState st rd.hardState
  unfold withReady withSnapshot
  split
  · next snap heq =>
    split_ifs with h0
    · refine Or.inl ⟨hmid, fun snap' hs => ?_⟩
      rw [heq] at hs
      cases hs
      exact h0
    · exact Or.inr ⟨snap, heq, snap_saveSnapshot h0⟩
  · next heq => exact Or.inl ⟨hmid, by simp [heq]⟩

/-- What is true of a storage at every crash. -/
structure Covered (st : RaftStorage) : Prop where
  keyed : st.Keyed
  dense : Dense st.entries st.snap.index

/-- Without a gap below the stored commit index, the rebuilt log has, above its sentinel, the
stored entry at every index. -/
theorem restoredLog_entry (hin : st.InRange)
    (hd : ∀ j k, st.snap.index < j → j ≤ k → k ≤ st.hardState.commitIndex →
      (st.entries k).isSome → (st.entries j).isSome) {k : ℕ} (hk : st.snap.index < k) :
    st.restoredLog.entry k =
      if st.hardState.isEmpty = false ∧ k ≤ st.hardState.commitIndex then st.entries k else
        none := by
  have hload (i : ℕ) := getElem?_filterMap_range' (f := st.entries) (st.snap.index + 1)
    (st.hardState.commitIndex + 1 - (st.snap.index + 1)) i
    fun j k hj hjk hk => hd j k (by omega) hjk (by omega)
  unfold restoredLog
  rw [RaftLog.entry_append, RaftLog.restore_endIndex, if_neg (by omega), restoredEntries_eq hin]
  split_ifs with hem hb hb
  · simp [hem] at hb
  · rfl
  · unfold loadEntries
    rw [hload, if_pos (by omega)]
    congr 1
    omega
  · unfold loadEntries
    have hk' : ¬k ≤ st.hardState.commitIndex := fun hle => hb ⟨by simpa using hem, hle⟩
    rw [hload, if_neg (by omega)]

theorem restoredLog_offset (st : RaftStorage) : st.restoredLog.offset = st.snap.index := rfl

theorem restoredLog_numbered (hin : st.InRange) (hkey : st.Keyed)
    (hd : ∀ j k, st.snap.index < j → j ≤ k → k ≤ st.hardState.commitIndex →
      (st.entries k).isSome → (st.entries j).isSome) : st.restoredLog.Numbered := by
  intro k e he
  rcases Nat.lt_or_ge st.snap.index k with hk | hk
  · rw [restoredLog_entry hin hd hk] at he
    split_ifs at he
    exact hkey k e he
  · have hoff := (RaftLog.entry_bounds he).1
    unfold restoredLog at he
    rw [RaftLog.entry_append, RaftLog.restore_endIndex, if_pos (by omega),
      RaftLog.entry_restore] at he
    split_ifs at he with hs
    cases he
    exact hs.symm

theorem Covered.restoredLog_entry (h : st.Covered) (hin : st.InRange) {k : ℕ}
    (hk : st.snap.index < k) :
    st.restoredLog.entry k =
      if st.hardState.isEmpty = false ∧ k ≤ st.hardState.commitIndex then st.entries k else none :=
  RaftStorage.restoredLog_entry hin (fun j k hj hjk _ => h.dense j k hj hjk) hk

/-- The rebuilt log is contiguous. -/
theorem Covered.numbered (h : st.Covered) (hin : st.InRange) : st.restoredLog.Numbered :=
  restoredLog_numbered hin h.keyed fun j k hj hjk _ => h.dense j k hj hjk

/-- `NewPeer` always builds a node. -/
theorem exists_restoreRaft (cfg : Config) (st : RaftStorage) :
    restoreRaft cfg st = some (st.restoredRaft cfg) := by
  have hsome : ∃ r, restoreRaft cfg st = some r := by
    unfold restoreRaft
    dsimp only
    rw [newRaft_restoreSnapshot]
    split_ifs
    · exact ⟨_, rfl⟩
    · refine exists_emitRounds ?_ _
      simp
  obtain ⟨r, hr⟩ := hsome
  rw [hr, restoreRaft_eq hr]

end RaftStorage

/-! ### The process in memory -/

/-- What links the memory and the storage of a process that is up. -/
structure Live (r : Raft) (st : RaftStorage) : Prop where
  backed : Backed r st
  dense : Dense (st.saveEntries r.pendingEntries).entries st.snap.index
  low : st.snap.index ≤ r.raftLog.offset
  saved : r.pendingSnapshot = none → st.snap.index = r.raftLog.offset
  pending : ∀ snap, r.pendingSnapshot = some snap → snap.index = r.raftLog.offset

namespace Live

variable {r s : Raft} {st : RaftStorage} {m : Option Message}

theorem init (cfg : Config) : Live (newRaft cfg) {} where
  backed := .init cfg
  dense _ _ _ _ hk := by cases hk
  low := le_rfl
  saved _ := rfl
  pending _ h := by cases h

section

variable (h : Live r st)

include h

/-- The log is stored once the pending entries are. -/
theorem isSome {k : ℕ} (hlo : r.raftLog.offset < k) (hhi : k < r.raftLog.endIndex) :
    ((st.saveEntries r.pendingEntries).entries k).isSome := by
  obtain ⟨e, he⟩ := RaftLog.exists_entry hlo.le hhi
  rw [h.backed k e hlo he]
  rfl

theorem sends (hs : r.Sends s) : Live s st := by
  have hk := hs.kept
  constructor
  · exact h.backed.effect (.sends hs) (m := none) (by simp)
  · rw [hk.pendingEntries]
    exact h.dense
  · rw [hk.raftLog]
    exact h.low
  · rw [hk.raftLog, hk.pendingSnapshot]
    exact h.saved
  · rw [hk.raftLog, hk.pendingSnapshot]
    exact h.pending

theorem effect (ho : st.snap.index = r.raftLog.offset) (he : r.Effect m s)
    (hm : ∀ m' ∈ m, m'.Numbered) : Live s st := by
  have hb := h.backed.effect he hm
  -- an effect that keeps the sentinel and the pending snapshot
  have same (hoff : s.raftLog.offset = r.raftLog.offset)
      (hsnap : s.pendingSnapshot = r.pendingSnapshot)
      (hd : Dense (st.saveEntries s.pendingEntries).entries st.snap.index) : Live s st := by
    refine ⟨hb, hd, ?_, ?_, ?_⟩
    · rw [hoff]
      exact h.low
    · rw [hoff]
      exact fun _ => ho
    · rw [hoff, hsnap]
      exact h.pending
  cases he.pending with
  | kept log entries snapshot =>
    refine same (by rw [log]) snapshot ?_
    rw [entries]
    exact h.dense
  | appended data log entries snapshot =>
    refine same (by rw [log]; rfl) snapshot ?_
    rw [entries, RaftStorage.saveEntries_append]
    have hidx : (r.newEntry data).index = r.raftLog.endIndex := rfl
    refine @Dense.extend _ _ _ r.raftLog.endIndex 1 h.dense ?_ ?_ ?_
    · intro k hlo hhi
      rw [RaftStorage.saveEntries_singleton, if_pos (by omega)]
      rfl
    · intro k hk
      rw [RaftStorage.saveEntries_singleton, if_neg (by omega)]
    · intro k hlo hhi
      exact h.isSome (by omega) hhi
  | truncated log entries snapshot =>
    refine same (RaftLog.truncate_offset log) snapshot ?_
    rw [entries]
    exact h.dense
  | @extended m' hma log entries snapshot =>
    obtain ⟨-, hle, hoff, -, -⟩ := RaftLog.truncateAndAppend_eq log
    have hnum := RaftStorage.saveEntries_numbered (s := st.saveEntries r.pendingEntries)
      (hm m' rfl hma)
    refine same hoff snapshot ?_
    rw [entries, RaftStorage.saveEntries_append]
    refine @Dense.extend _ _ _ (m'.logIndex + 1) m'.entries.length h.dense ?_ ?_ ?_
    · intro k hlo hhi
      rw [hnum, if_pos (by omega), Option.isSome_iff_ne_none, ne_eq, List.getElem?_eq_none_iff]
      omega
    · intro k hk
      rw [hnum, if_neg (by omega)]
    · intro k hlo hhi
      exact h.isSome (by omega) (by omega)
  | installed hms ht hsnap hi log entries snapshot =>
    refine ⟨hb, ?_, ?_, ?_, ?_⟩
    · rw [entries]
      exact h.dense
    · rw [log, RaftLog.restore_offset, ho]
      exact hi.le
    · rw [snapshot]
      nofun
    · intro snap hs
      rw [snapshot] at hs
      cases hs
      rw [log, RaftLog.restore_offset]

/-- The stored snapshot once the pending one is saved. -/
theorem snap_index : (st.withReady r.ready).snap.index = r.raftLog.offset := by
  rcases @RaftStorage.snap_withReady st r.ready with ⟨hsnap, h0⟩ | ⟨snap, hp, hsnap⟩
  · rw [hsnap]
    cases hp : r.pendingSnapshot with
    | none => exact h.saved hp
    | some snap =>
      have := h.pending snap hp
      have := h0 snap hp
      have := h.low
      omega
  · rw [hsnap]
    exact h.pending snap hp

/-- What a stopped `persistReady` leaves is covered. -/
theorem persist (hc : st.Covered) {o : Option Outcome} {st' : RaftStorage}
    (hst : st.Partial r.ready o st') : st'.Covered ∧ st.snap.index ≤ st'.snap.index := by
  have hkeyed := hc.keyed.saveEntries r.pendingEntries
  have hmid : ((st.withHardState r.ready.hardState).saveEntries r.ready.entries).snap = st.snap :=
    @RaftStorage.snap_withHardState st r.ready.hardState
  have hent (k : ℕ) : ((st.withHardState r.ready.hardState).saveEntries r.ready.entries).entries k =
      (st.saveEntries r.pendingEntries).entries k := by
    rw [RaftStorage.saveEntries_entries, RaftStorage.saveEntries_entries,
      RaftStorage.withHardState_entries]
    rfl
  cases hst with
  | nothing => exact ⟨hc, le_rfl⟩
  | hardState => exact ⟨⟨hc.keyed, hc.dense⟩, le_rfl⟩
  | entries =>
    refine ⟨⟨fun k e he => hkeyed k e ((hent k).symm.trans he), ?_⟩, hmid ▸ le_rfl⟩
    rw [hmid, funext hent]
    exact h.dense
  | all =>
    have hall := @RaftStorage.withReady_entries st r.ready
    have hle : st.snap.index ≤ (st.withReady r.ready).snap.index := by
      rw [h.snap_index]
      exact h.low
    refine ⟨⟨fun k e he => hkeyed k e ((hall k).symm.trans he), ?_⟩, hle⟩
    rw [funext hall]
    exact h.dense.mono hle

theorem advance : Live r.advance (st.withReady r.ready) where
  backed := h.backed.advance RaftStorage.withReady_entries
  dense := by
    change Dense (st.withReady r.ready).entries _
    rw [funext RaftStorage.withReady_entries, h.snap_index]
    exact h.dense.mono h.low
  low := h.snap_index.le
  saved _ := h.snap_index
  pending _ hp := by cases hp

/-- A snapshot task at an index inside the log. -/
theorem task (hc : st.Covered) (hp : r.pendingSnapshot = none) {index t : ℕ}
    {data : Bytes} (hlo : r.raftLog.offset < index) (hhi : index < r.raftLog.endIndex)
    {st' : RaftStorage} (hsnap : st'.snap.index = index)
    (hst : ∀ k, st'.entries k = st.entries k ∨ st'.entries k = none)
    (hst' : ∀ k, index ≤ k → st'.entries k = st.entries k) :
    Live (r.compacted index t data) st' ∧ st'.Covered ∧ st.snap.index ≤ st'.snap.index := by
  have hoff : (r.compacted index t data).raftLog.offset = index :=
    (RaftLog.compactTo_eq t hlo hhi).1
  have hle : st.snap.index ≤ index := h.low.trans hlo.le
  have hdense {f g : ℕ → Option Entry} (hf : Dense f st.snap.index)
      (hg : ∀ k, index ≤ k → g k = f k) : Dense g index := by
    intro j k hj hjk hk
    rw [hg k (by omega)] at hk
    rw [hg j hj.le]
    exact hf j k (by omega) hjk hk
  refine ⟨⟨h.backed.compacted t data hlo fun k hk => hst' k hk.le, ?_, ?_, ?_, ?_⟩,
    ⟨hc.keyed.of_entries hst, ?_⟩, ?_⟩
  · rw [hsnap]
    refine hdense h.dense fun k hk => ?_
    rw [RaftStorage.saveEntries_entries, RaftStorage.saveEntries_entries, hst' k hk]
    rfl
  · rw [hsnap, hoff]
  · rw [hsnap, hoff]
    exact fun _ => rfl
  · intro snap hs
    have hs' : r.pendingSnapshot = some snap := hs
    rw [hp] at hs'
    cases hs'
  · rw [hsnap]
    exact hdense hc.dense hst'
  · rw [hsnap]
    exact hle

end

theorem restart {cfg : Config} (hc : st.Covered) (hin : st.InRange) :
    Live (st.restoredRaft cfg) st where
  backed k e hk he := by
    have he' : st.restoredLog.entry k = some e := he
    rw [hc.restoredLog_entry hin hk] at he'
    split_ifs at he'
    exact he'
  dense := hc.dense
  low := le_rfl
  saved _ := rfl
  pending snap hs := by
    have hl : st.loadSnapshot = some snap := hs
    have : st.snap = snap := by simp [RaftStorage.snap, hl]
    rw [← this]
    rfl

end Live

namespace Host

variable {σ : Type} {M : StateMachine σ} {cfg : Config} {h h' : Host σ}

/-- Storage calls succeed, unless the process crashes first. -/
def NoFail (_ : Host σ) : Action → Prop
  | .event _ os => .fail ∉ os
  | .ready os => .fail ∉ os
  | _ => True

/-- The entries of a `MsgApp` are numbered, and a snapshot task is for an index of the log
above its sentinel. -/
def InLog (h : Host σ) : Action → Prop
  | .event (.message m) _ => m.Numbered
  | .event .snapshotTask _ => ∀ task ∈ h.snapshotTasks.head?,
      h.raft.raftLog.firstIndex < task.index ∧ task.index < h.raft.raftLog.endIndex
  | _ => True

instance (a : Action) : Decidable (NoFail h a) := by
  induction a using Action.casesOn <;> dsimp only [NoFail] <;> infer_instance

instance (a : Action) : Decidable (InLog h a) := by
  induction a using Action.casesOn with
  | event e _ => induction e using Event.casesOn <;> dsimp only [InLog] <;> infer_instance
  | _ => dsimp only [InLog]; infer_instance

variable {os : List Outcome}

theorem InLog.numbered {e : Event} (hg : InLog h (.event e os)) :
    ∀ m ∈ e.message?, m.Numbered := by
  intro m hm
  cases e with
  | message m' =>
    cases hm
    exact hg
  | _ => cases hm

/-- Between two events nothing waits to be saved, except that a node that has just been rebuilt
saves its snapshot again. -/
structure Rested (h : Host σ) : Prop where
  hardState : h.raft.pendingHardState = none
  entries : h.raft.pendingEntries = []
  offset : h.storage.snap.index = h.raft.raftLog.offset
  quiet : h.raft.pendingSnapshot = none ∨
    h.applyTasks = [] ∧ h.applying = none ∧ h.snapshotTasks = []

/-- The invariant of the runs without failing calls. -/
structure Sturdy (h : Host σ) : Prop where
  covered : h.storage.Covered
  live : h.crashed = false → Live h.raft h.storage
  rested : h.crashed = false → h.due = false → h.Rested

namespace Sturdy

variable {a : Action} {r : Raft} {st : RaftStorage} {sent : List Handout} {down : Bool}

theorem init (cfg : Config) (machine : σ) : Sturdy (start cfg machine) where
  covered := ⟨(fun _ _ he => nomatch he), (fun _ _ _ _ hk => nomatch hk)⟩
  live _ := .init cfg
  rested _ _ := ⟨rfl, rfl, rfl, Or.inl rfl⟩

theorem step_event (hI : Sturdy h) {e : Event} (hg : InLog h (.event e os))
    (hen : h.Enabled (.event e os)) (hs : h.Step cfg (.event e os) r st sent down) :
    st.Covered ∧ (down = false → Live r st) ∧ h.storage.snap.index ≤ st.snap.index := by
  have hlive := hI.live hen.1
  have hrest := hI.rested hen.1 hen.2
  -- a task is handled only when no snapshot waits to be saved
  have notask {task : SnapshotTask} (ht : h.snapshotTasks.head? = some task) :
      h.raft.pendingSnapshot = none := by
    rcases hrest.quiet with hp | ⟨-, -, hq⟩
    · exact hp
    · simp [hq] at ht
  cases hs with
  | handled hs =>
    refine ⟨hI.covered, fun _ => ?_, le_rfl⟩
    refine hs.induct (I := fun s => Live s h.storage)
      (Γ := fun s => h.storage.snap.index = s.raftLog.offset) hlive hrest.offset ?_ ?_ ?_ ?_
    · intro r s hlr hs
      exact hlr.sends hs
    · intro r s hr hs
      rwa [hs.kept.raftLog]
    · intro r s hr he hl hm
      rwa [(he.quiet hl hm).1.log]
    · intro r s hr hlr he _
      exact hlr.effect hr he hg.numbered
  | @tasked _ task _ _ _ ht hs hst =>
    obtain ⟨hlo, hhi⟩ := hg task ht
    have hne : (h.peer.taskSnapshot task).index ≠ 0 := Nat.ne_zero_of_lt hlo
    have htask {st : RaftStorage} (hsnap : st.snap.index = task.index)
        (h₁ : ∀ k, st.entries k = h.storage.entries k ∨ st.entries k = none)
        (h₂ : ∀ k, task.index ≤ k → st.entries k = h.storage.entries k) :
        st.Covered ∧ (down = false → Live r st) ∧ h.storage.snap.index ≤ st.snap.index := by
      rcases snapshot_eq hs with ⟨hle, -⟩ | ⟨t, -, -, rfl⟩
      · exact absurd hle (not_le.mpr hlo)
      · obtain ⟨hl, hc, hle⟩ := hlive.task hI.covered (notask ht) hlo hhi hsnap h₁ h₂
        exact ⟨hc, fun _ => hl, hle⟩
    rcases hst with rfl | rfl
    · refine htask ?_ (fun _ => Or.inl rfl) fun _ _ => rfl
      rw [RaftStorage.snap_saveSnapshot hne]
      rfl
    · refine htask ?_ (RaftStorage.compact_cases _) fun k hk => RaftStorage.compact_entries hk
      rw [RaftStorage.snap_compact, RaftStorage.snap_saveSnapshot hne]
      rfl
  | @taskSaved os task ht =>
    obtain ⟨hlo, -⟩ := hg task ht
    have hne : (h.peer.taskSnapshot task).index ≠ 0 := Nat.ne_zero_of_lt hlo
    have hle : h.storage.snap.index ≤ task.index := by
      rw [hrest.offset]
      exact hlo.le
    have hsnap : (h.storage.saveSnapshot (h.peer.taskSnapshot task)).snap.index = task.index := by
      rw [RaftStorage.snap_saveSnapshot hne]
      rfl
    refine ⟨⟨hI.covered.keyed, ?_⟩, nofun, ?_⟩
    · rw [hsnap]
      exact hI.covered.dense.mono hle
    · rw [hsnap]
      exact hle
  | same ha hd hr => exact ⟨hI.covered, fun _ => hlive, le_rfl⟩

/-- After a `Ready` that was not stopped nothing waits to be saved. -/
theorem step_ready (hI : Sturdy h) (hf : NoFail h (.ready os))
    (hen : h.Enabled (.ready os)) (hs : h.Step cfg (.ready os) r st sent down) :
    st.Covered ∧ h.storage.snap.index ≤ st.snap.index ∧
      (down = false → Live r st ∧ r.pendingHardState = none ∧ r.pendingEntries = [] ∧
        r.pendingSnapshot = none) := by
  have hlive := hI.live hen.1
  cases hs with
  | persisted hst hd =>
    obtain ⟨hc, hle⟩ := hlive.persist hI.covered hst
    refine ⟨hc, hle, fun hdown => ?_⟩
    rw [hd hf] at hdown
    cases hdown
  | flushed hs =>
    obtain ⟨hc, hle⟩ := hlive.persist hI.covered (.all (o := none))
    refine ⟨hc, hle, fun hdown => ?_⟩
    rcases hs with ⟨-, hd⟩ | rfl
    · rw [hd hf] at hdown
      cases hdown
    · exact ⟨hlive.advance, rfl, rfl, rfl⟩
  | same ha hd hr =>
    obtain ⟨h₁, h₂, h₃, -⟩ := (isEmpty_ready_iff _).mp (hr os rfl)
    exact ⟨hI.covered, le_rfl, fun _ => ⟨hlive, h₁, h₂, h₃⟩⟩

theorem step (hI : Sturdy h) (hf : NoFail h a) (hg : InLog h a) (hin : h.InRange a)
    (hen : h.Enabled a) (ha : h.act M cfg a = some h') :
    Sturdy h' ∧ h.storage.snap.index ≤ h'.storage.snap.index := by
  have hs := step_of_act hen ha
  cases a with
  | event e os =>
    obtain ⟨hc, hl, hle⟩ := hI.step_event hg hen hs
    refine ⟨⟨hc, hl, fun _ hdue => ?_⟩, hle⟩
    obtain ⟨h₁, -, rfl⟩ := Option.map_eq_some_iff.mp ha
    cases hdue
  | ready os =>
    obtain ⟨hc, hle, hl⟩ := hI.step_ready hf hen hs
    refine ⟨⟨hc, fun hd => (hl hd).1, fun hd _ => ?_⟩, hle⟩
    obtain ⟨hlive, h₁, h₂, h₃⟩ := hl hd
    exact ⟨h₁, h₂, hlive.saved h₃, Or.inl h₃⟩
  | apply ok created =>
    cases ha
    have hfr := applyNext_framed (M := M) h ok created
    refine ⟨⟨?_, ?_, ?_⟩, ?_⟩
    · rw [hfr.storage]
      exact hI.covered
    · rw [hfr.storage, hfr.raft, hfr.crashed]
      exact hI.live
    · rw [hfr.crashed, hfr.due]
      intro hd hdue
      have hrest := hI.rested hd hdue
      refine ⟨?_, ?_, ?_, ?_⟩
      · rw [hfr.raft]
        exact hrest.hardState
      · rw [hfr.raft]
        exact hrest.entries
      · rw [hfr.raft, hfr.storage]
        exact hrest.offset
      · rcases hrest.quiet with hp | ⟨h₁, h₂, h₃⟩
        · rw [hfr.raft]
          exact Or.inl hp
        · have hsame : h.applyNext M ok created = h := by simp [applyNext, h₁, h₂]
          rw [hsame]
          exact Or.inr ⟨h₁, h₂, h₃⟩
    · rw [hfr.storage]
  | cancel request =>
    cases ha
    refine ⟨⟨hI.covered, hI.live, fun hd hdue => ?_⟩, le_rfl⟩
    have hrest := hI.rested hd hdue
    exact ⟨hrest.hardState, hrest.entries, hrest.offset, hrest.quiet⟩
  | crash =>
    cases ha
    exact ⟨⟨hI.covered, nofun, nofun⟩, le_rfl⟩
  | restart =>
    have hr : h.restart cfg = some h' := ha
    unfold Host.restart newPeer at hr
    rw [RaftStorage.exists_restoreRaft] at hr
    cases hr
    exact ⟨⟨hI.covered, fun _ => .restart hI.covered hin.2.1,
      fun _ _ => ⟨rfl, rfl, rfl, Or.inr ⟨rfl, rfl, rfl⟩⟩⟩, le_rfl⟩

theorem of_reach
    (hr : (system M cfg).Reach (fun h a => NoFail h a ∧ InLog h a ∧ h.InRange a) h) :
    Sturdy h := by
  refine hr.induct (I := Sturdy) ?_ ?_
  · rintro _ ⟨machine, rfl⟩
    exact .init cfg machine
  · rintro h a h' - hI ⟨hf, hg, hin⟩ ⟨hen, ha⟩
    exact (hI.step hf hg hin hen ha).1

end Sturdy

theorem newPeer_eq (cfg : Config) (st : RaftStorage) :
    ∃ p, newPeer cfg st = some p ∧ p.raft = st.restoredRaft cfg := by
  unfold newPeer
  rw [RaftStorage.exists_restoreRaft]
  exact ⟨_, rfl, rfl⟩

end Host

end Mizu
