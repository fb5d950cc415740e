import Mizu.Store.Coverage

/-!
# What a restart brings back

`NewPeer` loads the stored entries up to the stored commit index. An acknowledged entry
above it is stored, but it is not in the log that is rebuilt. The committed entries come
back as they were, if the entries of a `Ready` reach the storage whenever the commit
index that covers them does, and if no message touches a committed entry.
-/

namespace Mizu

open Raft

/-! ### Acknowledged entries -/

/-- What `l` held at index `k` is still in `l'`, compacted or with the same term. -/
def RaftLog.KeptBy (l l' : RaftLog) (k : ℕ) : Prop :=
  k ≤ l'.offset ∨ ∃ e e', l.entry k = some e ∧ l'.entry k = some e' ∧ e'.term = e.term

/-- The message acknowledges the log up to its index. -/
def Message.Acks (m : Message) : Prop := m.type = .msgAppResp ∧ m.reject = false

namespace Host

variable {σ : Type} {M : StateMachine σ} {cfg : Config} {h h' : Host σ}

/-- The indices that were acknowledged with the log `l` and that the node still has. -/
def Acknowledged (h : Host σ) (l : RaftLog) (k : ℕ) : Prop :=
  (∃ x ∈ h.sent, x.msg.Acks ∧ x.raft.raftLog = l ∧ k ≤ x.msg.logIndex) ∧ k < l.endIndex ∧
    l.KeptBy h.raft.raftLog k

/-- A node that is stopped between two events and rebuilt keeps what it acknowledged, exactly
if all of that is covered by the stored commit index or the stored snapshot. -/
theorem acknowledged_survives_iff
    (hr : (system M cfg).Reach (fun h a => NoFail h a ∧ InLog h a ∧ h.InRange a) h)
    (hin : h.storage.InRange) (hup : h.crashed = false) (hidle : h.due = false) :
    (∃ p, newPeer cfg h.storage = some p ∧
      ∀ l k, h.Acknowledged l k → l.KeptBy p.raft.raftLog k) ↔
    ∀ l k, h.Acknowledged l k →
      k ≤ max h.storage.hardState.commitIndex h.storage.snap.index := by
  have hI := Sturdy.of_reach hr
  have hrest := hI.rested hup hidle
  have hlog {p : Peer} (hp : newPeer cfg h.storage = some p) :
      p.raft.raftLog = h.storage.restoredLog := by
    obtain ⟨p', hp', hraft⟩ := newPeer_eq cfg h.storage
    rw [hp'] at hp
    cases hp
    rw [hraft]
    rfl
  constructor
  · rintro ⟨p, hp, hkept⟩ l k hack
    by_contra hgt
    rcases hkept l k hack with hle | ⟨e, e', -, he', -⟩
    · rw [hlog hp, RaftStorage.restoredLog_offset] at hle
      omega
    · rw [hlog hp, hI.covered.restoredLog_entry hin (by omega)] at he'
      split_ifs at he' with hb
      omega
  · intro hcov
    obtain ⟨p, hp, -⟩ := newPeer_eq cfg h.storage
    refine ⟨p, hp, fun l k hack => ?_⟩
    have hle := hcov l k hack
    unfold RaftLog.KeptBy
    rw [hlog hp, RaftStorage.restoredLog_offset]
    rcases Nat.lt_or_ge h.storage.snap.index k with hk | hk
    · obtain ⟨-, -, hoff | ⟨e, e', he, he', ht⟩⟩ := hack
      · exact Or.inl (hrest.offset ▸ hoff)
      · -- the entry in memory is stored, and the commit index covers it
        have hst := (hI.live hup).backed k e' (hrest.offset ▸ hk) he'
        rw [hrest.entries] at hst
        have hne : h.storage.hardState.isEmpty = false := by
          unfold HardState.isEmpty
          rw [decide_eq_false_iff_not]
          omega
        refine Or.inr ⟨e, e', he, ?_, ht⟩
        rw [hI.covered.restoredLog_entry hin hk, if_pos ⟨hne, by omega⟩]
        exact hst
    · exact Or.inl hk

/-- A follower is sent one entry, with the given commit index, and acknowledges it. -/
def oneEntry (commit : ℕ) : List Action :=
  [.event (.message
      { type := .msgApp, src := 2, dst := 1, term := 1, commit := commit
        entries := [{ term := 1, index := 1, data := [7] }] }) [],
    .ready []]

theorem acknowledged_survives_committed : ∃ h : Host Unit,
    (system .unit threeNodes).Reach (fun h a => NoFail h a ∧ InLog h a ∧ h.InRange a) h ∧
    h.crashed = false ∧ h.due = false ∧ (∃ x ∈ h.sent, x.msg.Acks ∧ x.msg.logIndex = 1) ∧
    ∃ p, newPeer threeNodes h.storage = some p ∧
      ∀ l k, h.Acknowledged l k → l.KeptBy p.raft.raftLog k := by
  obtain ⟨h, hr, hin, hup, hidle, ⟨x, hx, hack⟩, hall⟩ := exists_reach (M := .unit) threeNodes ()
    (fun h a => NoFail h a ∧ InLog h a ∧ h.InRange a)
    (fun h => h.storage.InRange ∧ h.crashed = false ∧ h.due = false ∧
      (∃ x ∈ h.sent, (x.msg.type = .msgAppResp ∧ x.msg.reject = false) ∧ x.msg.logIndex = 1) ∧
      ∀ x ∈ h.sent, x.msg.logIndex ≤ h.storage.hardState.commitIndex)
    (oneEntry 1) (by decide +kernel)
  refine ⟨h, hr, hup, hidle, ⟨x, hx, hack⟩, (acknowledged_survives_iff hr hin hup hidle).mpr ?_⟩
  rintro l k ⟨⟨y, hy, -, -, hk⟩, -⟩
  exact (hk.trans (hall y hy)).trans (le_max_left _ _)

/-- The acknowledged entry is not committed yet, and is not loaded. -/
theorem acknowledged_tail_not_restored : ∃ h : Host Unit,
    (system .unit threeNodes).Reach (fun h a => NoFail h a ∧ InLog h a ∧ h.InRange a) h ∧
    h.crashed = false ∧ h.due = false ∧ ∃ l, h.Acknowledged l 1 ∧
      ∃ p, newPeer threeNodes h.storage = some p ∧ ¬l.KeptBy p.raft.raftLog 1 := by
  obtain ⟨h, hr, hup, hidle, ⟨x, hx, hack, hi, hl, hl'⟩, hp⟩ :=
    exists_reach (M := .unit) threeNodes () (fun h a => NoFail h a ∧ InLog h a ∧ h.InRange a)
    (fun h => h.crashed = false ∧ h.due = false ∧
      (∃ x ∈ h.sent, (x.msg.type = .msgAppResp ∧ x.msg.reject = false) ∧ 1 ≤ x.msg.logIndex ∧
        x.raft.raftLog.entry 1 = some { term := 1, index := 1, data := [7] } ∧
        h.raft.raftLog.entry 1 = some { term := 1, index := 1, data := [7] }) ∧
      (newPeer threeNodes h.storage).any (fun p =>
        p.raft.raftLog.offset = 0 ∧ p.raft.raftLog.entry 1 = none) = true)
    (oneEntry 0) (by decide +kernel)
  obtain ⟨p, hp, hnone⟩ := (Option.any_eq_true _ _).mp hp
  obtain ⟨hoff, hnone⟩ := of_decide_eq_true hnone
  have hend := (RaftLog.entry_bounds hl).2
  refine ⟨h, hr, hup, hidle, x.raft.raftLog, ?_, p, hp, ?_⟩
  · exact ⟨⟨x, hx, hack, rfl, hi⟩, hend, Or.inr ⟨_, _, hl, hl', rfl⟩⟩
  · rintro (hle | ⟨e, e', -, he, -⟩)
    · omega
    · rw [hnone] at he
      cases he

end Host

/-! ### Committed entries -/

/-- Handling `m` leaves the committed entries of the log alone, and a snapshot that it brings
covers them. -/
def Raft.SparesCommitted (r : Raft) (m : Message) : Prop :=
  (∀ k ≤ r.commitIndex, r.raftLog.offset ≤ k → r.Retains m k) ∧
    (m.type = .msgSnap → r.term ≤ m.term → ∀ snap ∈ m.snapshot,
      r.raftLog.offset < snap.index → r.commitIndex ≤ snap.index)

instance (r : Raft) (m : Message) : Decidable (r.SparesCommitted m) := by
  unfold Raft.SparesCommitted
  infer_instance

/-- The commit index is in the log, and the log has kept what was committed in `r₀`. -/
structure Follows (r₀ r : Raft) : Prop where
  inLog : r.commitIndex < r.raftLog.endIndex
  offset : r₀.raftLog.offset ≤ r.raftLog.offset
  commit : r₀.commitIndex ≤ r.commitIndex
  kept : ∀ k ≤ r₀.commitIndex, r.raftLog.offset < k → r.raftLog.entry k = r₀.raftLog.entry k

/-- What was committed with each commit index is in the log. -/
structure Remembers (r : Raft) (reached : List (ℕ × RaftLog)) : Prop where
  inLog : r.commitIndex < r.raftLog.endIndex
  current : ∃ l, Assoc.get r.commitIndex reached = some l
  kept : ∀ c l, Assoc.get c reached = some l → c ≤ r.commitIndex ∧
    ∀ k, r.raftLog.offset < k → k ≤ c → ∃ e, l.entry k = some e ∧ r.raftLog.entry k = some e

/-- What the stored commit index and the one that waits to be saved say about the log. -/
structure Durable (r : Raft) (st : RaftStorage) : Prop where
  low : st.hardState.commitIndex ≤ r.commitIndex
  entries : st.snap.index = r.raftLog.offset ∨ r.pendingEntries = []
  pending : ∀ hs, r.pendingHardState = some hs → hs.commitIndex ≤ r.commitIndex ∧
    (st.snap.index = r.raftLog.offset ∧ hs.commitIndex = r.commitIndex ∨
      r.pendingEntries = [] ∧ r.commitIndex ≤ r.raftLog.offset ∧
        (hs.commitIndex = st.hardState.commitIndex ∨ hs.commitIndex ≤ st.snap.index))
  saved : r.pendingHardState = none →
    st.hardState.commitIndex = r.commitIndex ∨ r.commitIndex ≤ r.raftLog.offset

/-- The entries that a restart hands out are those that the commit index was reached with. -/
def Replays (st : RaftStorage) (reached : List (ℕ × RaftLog)) : Prop :=
  ∀ k, st.snap.index < k → k ≤ st.hardState.commitIndex →
    ∃ l e, Assoc.get st.hardState.commitIndex reached = some l ∧ l.entry k = some e ∧
      st.entries k = some e

/-- An event starts with everything saved. The effects before the last one keep this, up to
a hard state that is marked. -/
structure Fresh (st : RaftStorage) (m : Option Message) (r : Raft) : Prop where
  offset : st.snap.index = r.raftLog.offset
  entries : r.pendingEntries = []
  saved : st.hardState.commitIndex = r.commitIndex ∨ r.commitIndex ≤ r.raftLog.offset
  pending : ∀ hs, r.pendingHardState = some hs → hs.commitIndex = r.commitIndex
  spares : ∀ m' ∈ m, r.SparesCommitted m'

section Effects

variable {r₀ r s : Raft} {st : RaftStorage} {m : Option Message}

theorem Follows.refl (h : r.commitIndex < r.raftLog.endIndex) : Follows r r :=
  ⟨h, le_rfl, le_rfl, fun _ _ _ => rfl⟩

theorem Raft.SparesCommitted.congr {m : Message} (h : r.SparesCommitted m)
    (hlog : s.raftLog = r.raftLog) (hc : s.commitIndex = r.commitIndex)
    (ht : m.type ≠ .msgHup → s.term ≤ m.term → r.term ≤ m.term) : s.SparesCommitted m := by
  unfold SparesCommitted at *
  rw [hlog, hc]
  refine ⟨fun k hk ho => (h.1 k hk ho).congr hlog fun hm => ht (by rw [hm]; nofun), ?_⟩
  exact fun hm hst => h.2 hm (ht (by rw [hm]; nofun) hst)

theorem Fresh.sends (h : Fresh st m r) (hs : r.Sends s) : Fresh st m s := by
  cases hs
  exact ⟨h.offset, h.entries, h.saved, h.pending, h.spares⟩

theorem Fresh.quiet (h : Fresh st m r) (he : r.Effect m s) (hl : s.state ≠ .leader)
    (hm : s.msgs = r.msgs) : Fresh st m s := by
  obtain ⟨⟨hlog, hc, -, -, hent, -⟩, hterm⟩ := he.quiet hl hm
  refine ⟨?_, ?_, ?_, ?_, ?_⟩
  · rw [hlog]
    exact h.offset
  · rw [hent]
    exact h.entries
  · rw [hlog, hc]
    exact h.saved
  · intro hs hp
    rw [hc]
    cases he.hard with
    | kept hardState pending => exact h.pending hs (pending ▸ hp)
    | marked pending =>
      rw [pending] at hp
      cases hp
      exact hc
    | installed hms ht hsnap hi hardState pending => exact h.pending hs (pending ▸ hp)
  · intro m' hm'
    refine (h.spares m' hm').congr hlog hc fun hne hst => ?_
    rcases hterm m' hm' hne with ht | ⟨ht, -⟩
    · exact ht ▸ hst
    · exact ht.le

theorem Follows.effect (h : Follows r₀ r) (hg : Fresh st m r) (he : r.Effect m s) :
    Follows r₀ s := by
  rcases he.installs_or_stays with ⟨m', snap, rfl, hi⟩ | hs
  · -- the snapshot covers what was committed
    have hle := (hg.spares m' rfl).2 hi.type hi.msgTerm.ge snap hi.snapshot hi.above
    have hoff : s.raftLog.offset = snap.index := by rw [hi.log]; rfl
    have hc := hi.commit
    have h₁ := h.offset
    have h₂ := h.commit
    have h₃ := hi.above
    refine ⟨?_, ?_, ?_, ?_⟩
    · rw [hi.log, RaftLog.restore_endIndex]
      omega
    · omega
    · omega
    · omega
  · -- every committed entry is retained
    have hret {k : ℕ} {e : Entry} (hk : k ≤ r.commitIndex) (hent : r.raftLog.entry k = some e) :
        s.raftLog.entry k = some e :=
      he.log.retains (fun m' hm => (hg.spares m' hm).1 k hk (RaftLog.entry_bounds hent).1) hent
        hs.offset
    refine ⟨?_, ?_, ?_, ?_⟩
    · rcases hs.commit with ⟨hc, -⟩ | ⟨-, hc⟩
      · rw [hc]
        rcases Nat.lt_or_ge r.commitIndex r.raftLog.offset with hlt | hge
        · have : s.raftLog.endIndex = s.raftLog.offset + s.raftLog.entries.length := rfl
          have := hs.offset
          omega
        · obtain ⟨e, hent⟩ := RaftLog.exists_entry hge h.inLog
          exact (RaftLog.entry_bounds (hret le_rfl hent)).2
      · exact hc
    · rw [hs.offset]
      exact h.offset
    · exact h.commit.trans he.commit_le
    · intro k hk ho
      rw [hs.offset] at ho
      have hkc := hk.trans h.commit
      obtain ⟨e, hent⟩ := RaftLog.exists_entry ho.le (hkc.trans_lt h.inLog)
      rw [hret hkc hent, ← h.kept k hk ho, hent]

theorem Durable.effect (h : Durable r st) (hg : Fresh st m r) (he : r.Effect m s) :
    Durable s st := by
  have hlow := h.low.trans he.commit_le
  rcases he.installs_or_stays with ⟨m', snap, rfl, hi⟩ | hs
  · have hle := (hg.spares m' rfl).2 hi.type hi.msgTerm.ge snap hi.snapshot hi.above
    have hoff : s.raftLog.offset = snap.index := by rw [hi.log]; rfl
    have hent : s.pendingEntries = [] := hi.pendingEntries.trans hg.entries
    have hc : s.commitIndex ≤ s.raftLog.offset := by
      rw [hi.commit, hoff]
      omega
    refine ⟨hlow, Or.inr hent, ?_, fun _ => Or.inr hc⟩
    intro hs hp
    rw [hi.pendingHardState] at hp
    have heq := hg.pending hs hp
    refine ⟨heq ▸ he.commit_le, Or.inr ⟨hent, hc, ?_⟩⟩
    rw [heq, hg.offset]
    exact hg.saved.imp Eq.symm id
  · have hoff : st.snap.index = s.raftLog.offset := hs.offset ▸ hg.offset
    refine ⟨hlow, Or.inl hoff, ?_, ?_⟩
    · intro hard hp
      have heq : hard.commitIndex = s.commitIndex := by
        rcases hs.hardState with ⟨h₁, h₂⟩ | h₂
        · have hc : s.commitIndex = r.commitIndex := congrArg HardState.commitIndex h₁
          rw [hc]
          exact hg.pending hard (h₂ ▸ hp)
        · rw [h₂] at hp
          cases hp
          rfl
      exact ⟨heq.le, Or.inl ⟨hoff, heq⟩⟩
    · intro hp
      rcases hs.hardState with ⟨h₁, h₂⟩ | h₂
      · have hc : s.commitIndex = r.commitIndex := congrArg HardState.commitIndex h₁
        rw [hc, hs.offset]
        exact hg.saved
      · rw [h₂] at hp
        cases hp

/-- What one event does, from a state where everything is saved. -/
theorem Raft.Handles.follows {b : ℕ} (hh : Handles b m r s) (hg : Fresh st m r)
    (hin : r.commitIndex < r.raftLog.endIndex) (hd : Durable r st) :
    Follows r s ∧ Durable s st := by
  refine hh.induct (I := fun s => Follows r s ∧ Durable s st) (Γ := Fresh st m)
    ⟨.refl hin, hd⟩ hg ?_ ?_ ?_ ?_
  · rintro r₁ s₁ ⟨h₁, h₂⟩ hs
    cases hs
    exact ⟨⟨h₁.inLog, h₁.offset, h₁.commit, h₁.kept⟩, ⟨h₂.low, h₂.entries, h₂.pending, h₂.saved⟩⟩
  · exact fun r₁ s₁ h hs => h.sends hs
  · exact fun r₁ s₁ h he hl hm => h.quiet he hl hm
  · rintro r₁ s₁ hg ⟨h₁, h₂⟩ he -
    exact ⟨h₁.effect hg he, h₂.effect hg he⟩

end Effects

section Records

variable {r₀ r s : Raft} {st st' : RaftStorage} {reached : List (ℕ × RaftLog)}

theorem Remembers.follows (h : Remembers r₀ reached) (hf : Follows r₀ r) :
    Remembers r (Host.recordReached r₀.commitIndex r reached) := by
  have hold {c : ℕ} {l : RaftLog} (hc : Assoc.get c reached = some l) : c ≤ r.commitIndex ∧
      ∀ k, r.raftLog.offset < k → k ≤ c →
        ∃ e, l.entry k = some e ∧ r.raftLog.entry k = some e := by
    obtain ⟨hle, hk⟩ := h.kept c l hc
    refine ⟨hle.trans hf.commit, fun k ho hkc => ?_⟩
    obtain ⟨e, he, he'⟩ := hk k (hf.offset.trans_lt ho) hkc
    exact ⟨e, he, by rw [hf.kept k (hkc.trans hle) ho, he']⟩
  unfold Host.recordReached
  split_ifs with hc
  · exact ⟨hf.inLog, hc ▸ h.current, fun c l => hold⟩
  · refine ⟨hf.inLog, ⟨_, Assoc.get_set_self _ _ _⟩, fun c l hcl => ?_⟩
    rw [Assoc.get_set] at hcl
    split_ifs at hcl with heq
    · cases hcl
      refine ⟨heq.le, fun k ho hkc => ?_⟩
      obtain ⟨e, he⟩ := RaftLog.exists_entry (l := r.raftLog) ho.le
        ((hkc.trans heq.le).trans_lt hf.inLog)
      exact ⟨e, he, he⟩
    · exact hold hcl

theorem Replays.follows (h : Replays st reached) (hlow : st.hardState.commitIndex ≤ r₀.commitIndex)
    (hf : r₀.commitIndex ≤ r.commitIndex) :
    Replays st (Host.recordReached r₀.commitIndex r reached) := by
  unfold Host.recordReached
  split_ifs with hc
  · exact h
  · intro k ho hk
    rw [Assoc.get_set_of_ne (by omega)]
    exact h k ho hk

theorem Replays.mono (h : Replays st reached) (hc : st'.hardState = st.hardState)
    (hs : st.snap.index ≤ st'.snap.index)
    (he : ∀ k, st'.snap.index < k → st'.entries k = st.entries k) : Replays st' reached := by
  intro k ho hk
  rw [hc] at hk ⊢
  rw [he k ho]
  exact h k (hs.trans_lt ho) hk

/-- Compaction inside the log. -/
theorem Follows.compacted {index : ℕ} (t : ℕ) (data : Bytes)
    (hin : r.commitIndex < r.raftLog.endIndex) (hlo : r.raftLog.offset < index)
    (hhi : index < r.raftLog.endIndex) : Follows r (r.compacted index t data) := by
  obtain ⟨hoff, hend, hent⟩ := RaftLog.compactTo_eq t hlo hhi
  have hoff' : (r.compacted index t data).raftLog.offset = index := hoff
  have hend' : (r.compacted index t data).raftLog.endIndex = r.raftLog.endIndex := hend
  have hc : (r.compacted index t data).commitIndex = max index r.commitIndex := rfl
  refine ⟨by omega, by omega, by omega, fun k hk ho => ?_⟩
  rw [hoff'] at ho
  refine (hent k).trans ?_
  rw [if_neg ho.ne', if_pos ho]

theorem Durable.compacted {index : ℕ} (t : ℕ) (data : Bytes)
    (hlow : st.hardState.commitIndex ≤ r.commitIndex) (hlo : r.raftLog.offset < index)
    (hhi : index < r.raftLog.endIndex) (hc : st'.hardState = st.hardState)
    (hsnap : st'.snap.index = index) : Durable (r.compacted index t data) st' := by
  have hoff : (r.compacted index t data).raftLog.offset = index :=
    (RaftLog.compactTo_eq t hlo hhi).1
  have hoff' : st'.snap.index = (r.compacted index t data).raftLog.offset := by rw [hsnap, hoff]
  refine ⟨?_, Or.inl hoff', ?_, nofun⟩
  · rw [hc]
    exact hlow.trans (le_max_right _ _)
  · rintro hs ⟨⟩
    exact ⟨le_rfl, Or.inl ⟨hoff', rfl⟩⟩

section

variable (h : Replays st reached) (hrec : Remembers r reached) (hb : Backed r st)
  (hd : Durable r st)

include h hrec hb hd

/-- Above the stored snapshot the pending entries do not change what `c` was reached with. -/
theorem Replays.saveEntries {k : ℕ} (ho : st.snap.index < k) (hk : k ≤ st.hardState.commitIndex) :
    ∃ l e, Assoc.get st.hardState.commitIndex reached = some l ∧ l.entry k = some e ∧
      (st.saveEntries r.pendingEntries).entries k = some e := by
  obtain ⟨l, e, hl, he, hst⟩ := h k ho hk
  refine ⟨l, e, hl, he, ?_⟩
  rcases hd.entries with hoff | hnil
  · obtain ⟨e', he', hr⟩ := (hrec.kept _ l hl).2 k (hoff ▸ ho) hk
    rw [he] at he'
    cases he'
    exact hb k e (hoff ▸ ho) hr
  · rw [hnil]
    exact hst

/-- The same for the commit index that is saved with them. -/
theorem Replays.savePending {hs : HardState} (hp : r.pendingHardState = some hs)
    {k : ℕ} (ho : st.snap.index < k) (hk : k ≤ hs.commitIndex) :
    ∃ l e, Assoc.get hs.commitIndex reached = some l ∧ l.entry k = some e ∧
      (st.saveEntries r.pendingEntries).entries k = some e := by
  obtain ⟨-, ⟨hoff, hc⟩ | ⟨hnil, -, hc | hc⟩⟩ := hd.pending hs hp
  · obtain ⟨l, hl⟩ := hrec.current
    obtain ⟨e, he, hr⟩ := (hrec.kept _ l hl).2 k (hoff ▸ ho) (hk.trans hc.le)
    exact ⟨l, e, hc ▸ hl, he, hb k e (hoff ▸ ho) hr⟩
  · rw [hc] at hk ⊢
    exact h.saveEntries hrec hb hd ho hk
  · omega

end

/-- Saving stops at no point that separates a commit index from the entries it covers. -/
def Raft.SavesTogether (r : Raft) (o : Option Outcome) : Prop :=
  ∀ hs ∈ r.pendingHardState, (∃ e ∈ r.pendingEntries, e.index ≤ hs.commitIndex) →
    o = some .ok ∨ o = none

instance (r : Raft) (o : Option Outcome) : Decidable (r.SavesTogether o) := by
  unfold Raft.SavesTogether
  infer_instance

/-- What a stopped `persistReady` leaves can be replayed. -/
theorem Replays.persist (h : Replays st reached) (hrec : Remembers r reached) (hl : Live r st)
    (hd : Durable r st) {o : Option Outcome} (ho : r.SavesTogether o)
    (hst : st.Partial r.ready o st') : Replays st' reached := by
  -- the pending entries are saved, with either commit index
  have saved {st' : RaftStorage} (hs : st.snap.index ≤ st'.snap.index)
      (hc : st'.hardState = st.hardState ∨ r.pendingHardState = some st'.hardState)
      (he : ∀ k, st'.entries k = (st.saveEntries r.pendingEntries).entries k) :
      Replays st' reached := by
    intro k hlo hk
    rw [he k]
    rcases hc with hc | hc
    · rw [hc] at hk ⊢
      exact h.saveEntries hrec hl.backed hd (hs.trans_lt hlo) hk
    · exact h.savePending hrec hl.backed hd hc (hs.trans_lt hlo) hk
  have hcases := hst.hardState_cases.imp id And.left
  cases hst with
  | nothing => exact h
  | hardState hhs hne hes hstop =>
    -- only the hard state is saved: the pending entries are above its commit index
    intro k hlo hk
    obtain ⟨l, e, hle, he, hsave⟩ := h.savePending hrec hl.backed hd hhs hlo hk
    refine ⟨l, e, hle, he, ?_⟩
    rw [RaftStorage.saveEntries_entries, List.find?_eq_none.mpr] at hsave
    · exact hsave
    · intro d hdm
      have habove : ¬d.index ≤ _ := fun hdi => by
        rcases ho _ hhs ⟨d, List.mem_reverse.mp hdm, hdi⟩ with h₁ | h₁
        · exact hstop.1 h₁
        · exact hstop.2 h₁
      have hk' : k ≤ _ := hk
      simp only [decide_eq_true_eq]
      intro hd
      exact habove (hd ▸ hk')
  | entries =>
    have hsnap := @RaftStorage.snap_withHardState st r.ready.hardState
    refine saved (congrArg Snapshot.index hsnap).ge hcases fun k => ?_
    rw [RaftStorage.saveEntries_entries, RaftStorage.saveEntries_entries,
      RaftStorage.withHardState_entries]
    rfl
  | all =>
    refine saved ?_ hcases RaftStorage.withReady_entries
    rw [hl.snap_index]
    exact hl.low

theorem Durable.advance (hl : Live r st) (hd : Durable r st) :
    Durable r.advance (st.withReady r.ready) := by
  have hoff : (st.withReady r.ready).snap.index = r.advance.raftLog.offset := hl.snap_index
  have hready : r.ready.hardState = r.pendingHardState := rfl
  refine ⟨?_, Or.inl hoff, nofun, fun _ => ?_⟩
  · rcases RaftStorage.withReady_hardState st r.ready with hst | ⟨hs, -, -, hst⟩
    · rw [hst, hready]
      cases hp : r.pendingHardState with
      | none => exact hd.low
      | some hs => exact (hd.pending hs hp).1
    · rw [hst]
      exact hd.low
  · change _ = r.commitIndex ∨ r.commitIndex ≤ r.raftLog.offset
    rcases RaftStorage.withReady_hardState st r.ready with hst | ⟨hs, hp, hem, hst⟩
    · rw [hst, hready]
      cases hp : r.pendingHardState with
      | none => exact hd.saved hp
      | some hs =>
        obtain ⟨-, ⟨-, hc⟩ | ⟨-, hc, -⟩⟩ := hd.pending hs hp
        · exact Or.inl hc
        · exact Or.inr hc
    · obtain ⟨-, ⟨-, hc⟩ | ⟨-, hc, -⟩⟩ := hd.pending hs hp
      · have h0 : hs.commitIndex = 0 := (of_decide_eq_true hem).2.2
        exact Or.inr (by omega)
      · exact Or.inr hc

theorem RaftStorage.restoredState_cases (st : RaftStorage) :
    st.restoredState.commitIndex = st.hardState.commitIndex ∨
      st.hardState.commitIndex = 0 ∧ st.restoredState.commitIndex = st.snap.index := by
  unfold RaftStorage.restoredState
  split_ifs with hem
  · exact Or.inr ⟨(of_decide_eq_true hem).2.2, rfl⟩
  · exact Or.inl rfl

theorem RaftStorage.commitIndex_le_restoredState (st : RaftStorage) :
    st.hardState.commitIndex ≤ st.restoredState.commitIndex := by
  rcases st.restoredState_cases with hc | ⟨hc, -⟩ <;> omega

section

variable (h : Replays st reached) (hc : st.Covered) (hin : st.InRange)

include h hc hin

theorem Replays.restoredLog_entry
    {k : ℕ} (ho : st.snap.index < k) (hk : k ≤ st.hardState.commitIndex) :
    ∃ e, st.restoredLog.entry k = some e ∧ st.entries k = some e := by
  obtain ⟨l, e, -, -, he⟩ := h k ho hk
  have hne : st.hardState.isEmpty = false := by
    unfold HardState.isEmpty
    rw [decide_eq_false_iff_not]
    omega
  refine ⟨e, ?_, he⟩
  rw [hc.restoredLog_entry hin ho, if_pos ⟨hne, hk⟩, he]

/-- The restored commit index is in the restored log. -/
theorem Replays.inLog :
    st.restoredState.commitIndex < st.restoredLog.endIndex := by
  have hpos : st.snap.index < st.restoredLog.endIndex := by
    simp [RaftStorage.restoredLog, RaftLog.append, RaftLog.restore, RaftLog.endIndex]
  rcases Nat.lt_or_ge st.snap.index st.restoredState.commitIndex with hlt | hge
  · rcases st.restoredState_cases with heq | ⟨-, heq⟩
    · rw [heq] at hlt ⊢
      obtain ⟨e, he, -⟩ := h.restoredLog_entry hc hin hlt le_rfl
      exact (RaftLog.entry_bounds he).2
    · omega
  · omega

theorem Replays.restored :
    Replays st [(st.restoredState.commitIndex, st.restoredLog)] := by
  intro k ho hk
  obtain ⟨e, he, hst⟩ := h.restoredLog_entry hc hin ho hk
  have heq : st.restoredState.commitIndex = st.hardState.commitIndex := by
    rcases st.restoredState_cases with heq | ⟨heq, -⟩
    · exact heq
    · omega
  exact ⟨_, e, by simp [Assoc.get, heq], he, hst⟩

end

end Records

namespace Host

variable {σ : Type} {M : StateMachine σ} {cfg : Config} {h h' : Host σ}

/-- Messages leave committed entries alone, and a crash does not separate a saved commit index
from the entries that it covers. -/
def SparesCommitted (h : Host σ) : Action → Prop
  | .event (.message m) _ => h.raft.SparesCommitted m
  | .ready os => h.raft.SavesTogether os[1]?
  | _ => True

instance (a : Action) : Decidable (SparesCommitted h a) := by
  induction a using Action.casesOn with
  | event e _ => induction e using Event.casesOn <;> dsimp only [SparesCommitted] <;> infer_instance
  | _ => dsimp only [SparesCommitted]; infer_instance

/-! ### The record of the commit indices -/

variable {os : List Outcome} {e : Event}

theorem reached_dispatchEvent (hd : h.dispatchEvent os e = some h') : h'.reached = h.reached := by
  cases e with
  | message m =>
    obtain ⟨p, -, rfl⟩ := Option.map_eq_some_iff.mp hd
    rfl
  | tick rnd =>
    obtain ⟨p, -, rfl⟩ := Option.map_eq_some_iff.mp hd
    rfl
  | readIndex request =>
    obtain ⟨p, -, rfl⟩ := Option.map_eq_some_iff.mp hd
    rfl
  | snapshotTask =>
    have hh : h.handleSnapshotTask os = some h' := hd
    unfold handleSnapshotTask at hh
    split at hh
    · cases hh
      rfl
    · obtain ⟨⟨p, o, os'⟩, -, hh⟩ := Option.bind_eq_some_iff.mp hh
      cases hh
      rfl
  | command data =>
    have hh : h.handleProposal data = some h' := hd
    cases data with
    | none =>
      cases hh
      rfl
    | some data =>
      obtain ⟨⟨p, accepted⟩, -, hh⟩ := Option.bind_eq_some_iff.mp hh
      dsimp only at hh
      split_ifs at hh <;> cases hh <;> rfl

theorem reached_handleEvent (hh : h.handleEvent e os = some h') :
    h'.reached = recordReached h.raft.commitIndex h'.raft h.reached := by
  obtain ⟨h₁, hd, rfl⟩ := Option.map_eq_some_iff.mp hh
  rw [← reached_dispatchEvent hd]
  rfl

theorem reached_handleReady (h : Host σ) (os : List Outcome) :
    (h.handleReady os).reached = h.reached := by
  rcases handleReady_eq h os with ⟨-, heq⟩ | ⟨_, _, _, _, _, -, heq⟩ <;> rw [heq]

/-! ### The invariant -/

/-- The storage can be replayed, and memory agrees with what was recorded. -/
structure Committed (h : Host σ) : Prop where
  replays : Replays h.storage h.reached
  remembers : h.crashed = false → Remembers h.raft h.reached
  durable : h.crashed = false → Durable h.raft h.storage

namespace Committed

variable {r : Raft} {st : RaftStorage} {sent : List Handout} {down : Bool}

theorem init (cfg : Config) (machine : σ) : Committed (start cfg machine) where
  replays k ho hk := by
    change k ≤ 0 at hk
    omega
  remembers _ := by
    refine ⟨Nat.zero_lt_one, ⟨newRaftLog, rfl⟩, fun c l hl => ?_⟩
    have hmem := Assoc.mem_of_get hl
    obtain ⟨rfl, rfl⟩ := Prod.mk.inj (List.mem_singleton.mp hmem)
    refine ⟨le_rfl, fun k ho hk => ?_⟩
    omega
  durable _ := ⟨le_rfl, Or.inl rfl, nofun, fun _ => Or.inl rfl⟩

section

variable (hI : Committed h) (hS : Sturdy h)

include hI hS

theorem step_event (hg : InLog h (.event e os)) (hsp : SparesCommitted h (.event e os))
    (hen : h.Enabled (.event e os)) (hs : h.Step cfg (.event e os) r st sent down) :
    Replays st (recordReached h.raft.commitIndex r h.reached) ∧
      (down = false → Remembers r (recordReached h.raft.commitIndex r h.reached) ∧
        Durable r st) := by
  have hrec := hI.remembers hen.1
  have hdur := hI.durable hen.1
  have hrest := hS.rested hen.1 hen.2
  -- the node follows the one before the event
  have follows {r : Raft} {st : RaftStorage} (hf : Follows h.raft r) (hd : Durable r st)
      (hrep : Replays st h.reached) (hc : st.hardState = h.storage.hardState) :
      Replays st (recordReached h.raft.commitIndex r h.reached) ∧
        (down = false → Remembers r (recordReached h.raft.commitIndex r h.reached) ∧
          Durable r st) :=
    ⟨hrep.follows (hc ▸ hdur.low) hf.commit, fun _ => ⟨hrec.follows hf, hd⟩⟩
  cases hs with
  | handled hs =>
    have hfresh : Fresh h.storage e.message? h.raft := by
      refine ⟨hrest.offset, hrest.entries, hdur.saved hrest.hardState, ?_, ?_⟩
      · intro hs hp
        rw [hrest.hardState] at hp
        cases hp
      · intro m hm
        cases e with
        | message m' =>
          cases hm
          exact hsp
        | _ => cases hm
    obtain ⟨hf, hd⟩ := hs.follows hfresh hrec.inLog hdur
    exact follows hf hd hI.replays rfl
  | @tasked _ task _ _ _ ht hs hst =>
    obtain ⟨hlo, hhi⟩ := hg task ht
    have hne : (h.peer.taskSnapshot task).index ≠ 0 := Nat.ne_zero_of_lt hlo
    have hle : h.storage.snap.index ≤ task.index := by
      rw [hrest.offset]
      exact hlo.le
    rcases snapshot_eq hs with ⟨hle', -⟩ | ⟨t, -, -, rfl⟩
    · exact absurd hle' (not_le.mpr hlo)
    · have hf := Follows.compacted t task.data hrec.inLog hlo hhi
      have hsave : (h.storage.saveSnapshot (h.peer.taskSnapshot task)).snap.index = task.index := by
        rw [RaftStorage.snap_saveSnapshot hne]
        rfl
      rcases hst with rfl | rfl
      · refine follows hf (.compacted t task.data hdur.low hlo hhi rfl hsave) ?_ rfl
        exact hI.replays.mono rfl (hsave ▸ hle) fun _ _ => rfl
      · have hsnap : ((h.storage.saveSnapshot (h.peer.taskSnapshot task)).compact
            task.index).snap.index = task.index := by
          rw [RaftStorage.snap_compact]
          exact hsave
        have hc : ((h.storage.saveSnapshot (h.peer.taskSnapshot task)).compact
            task.index).hardState = h.storage.hardState := RaftStorage.compact_hardState _
        refine follows hf (.compacted t task.data hdur.low hlo hhi hc hsnap) ?_ hc
        refine hI.replays.mono hc (hle.trans hsnap.ge) fun k hk => ?_
        rw [hsnap] at hk
        exact RaftStorage.compact_entries hk.le
  | @taskSaved os task ht =>
    obtain ⟨hlo, -⟩ := hg task ht
    have hne : (h.peer.taskSnapshot task).index ≠ 0 := Nat.ne_zero_of_lt hlo
    refine ⟨Replays.follows ?_ hdur.low le_rfl, nofun⟩
    refine hI.replays.mono rfl ?_ fun _ _ => rfl
    rw [RaftStorage.snap_saveSnapshot hne, hrest.offset]
    exact hlo.le
  | same ha hd hr => exact follows (.refl hrec.inLog) hdur hI.replays rfl

theorem step_ready (hf : NoFail h (.ready os)) (hsp : SparesCommitted h (.ready os))
    (hen : h.Enabled (.ready os)) (hs : h.Step cfg (.ready os) r st sent down) :
    Replays st h.reached ∧ (down = false → Remembers r h.reached ∧ Durable r st) := by
  have hrec := hI.remembers hen.1
  have hdur := hI.durable hen.1
  have hlive := hS.live hen.1
  cases hs with
  | persisted hst hd =>
    refine ⟨hI.replays.persist hrec hlive hdur hsp hst, fun hdown => ?_⟩
    rw [hd hf] at hdown
    cases hdown
  | flushed hs =>
    refine ⟨hI.replays.persist hrec hlive hdur hsp .all, fun hdown => ?_⟩
    rcases hs with ⟨-, hd⟩ | rfl
    · rw [hd hf] at hdown
      cases hdown
    · exact ⟨⟨hrec.inLog, hrec.current, hrec.kept⟩, .advance hlive hdur⟩
  | same ha hd hr => exact ⟨hI.replays, fun _ => ⟨hrec, hdur⟩⟩

/-- A restart begins a new record with what was restored. -/
theorem restart (hst : h.storage.InRange)
    (hr : h.restart cfg = some h') : Committed h' := by
  unfold Host.restart newPeer at hr
  rw [RaftStorage.exists_restoreRaft] at hr
  cases hr
  have hin := hI.replays.inLog hS.covered hst
  refine ⟨?_, fun _ => ⟨hin, ?_, ?_⟩, fun _ => ⟨?_, Or.inl rfl, nofun, fun _ => ?_⟩⟩
  · exact hI.replays.restored hS.covered hst
  · exact ⟨h.storage.restoredLog, if_pos rfl⟩
  · intro c l hl
    obtain ⟨rfl, rfl⟩ := Prod.mk.inj (List.mem_singleton.mp (Assoc.mem_of_get hl))
    refine ⟨le_rfl, fun k ho hk => ?_⟩
    obtain ⟨e, he⟩ := RaftLog.exists_entry (l := h.storage.restoredLog) (i := k) ho.le
      (Nat.lt_of_le_of_lt hk hin)
    exact ⟨e, he, he⟩
  · exact h.storage.commitIndex_le_restoredState
  · rcases h.storage.restoredState_cases with hc | ⟨-, hc⟩
    · exact Or.inl hc.symm
    · exact Or.inr hc.le

theorem step {a : Action} (hf : NoFail h a) (hg : InLog h a)
    (hsp : SparesCommitted h a) (hin : h.InRange a) (hen : h.Enabled a)
    (ha : h.act M cfg a = some h') : Committed h' := by
  have hs := step_of_act hen ha
  cases a with
  | event e os =>
    obtain ⟨hrep, hup⟩ := hI.step_event hS hg hsp hen hs
    rw [← reached_handleEvent ha] at hrep hup
    exact ⟨hrep, fun hd => (hup hd).1, fun hd => (hup hd).2⟩
  | ready os =>
    obtain ⟨hrep, hup⟩ := hI.step_ready hS hf hsp hen hs
    cases ha
    rw [← reached_handleReady h os] at hrep hup
    exact ⟨hrep, fun hd => (hup hd).1, fun hd => (hup hd).2⟩
  | apply ok created =>
    cases ha
    have hfr := applyNext_framed (M := M) h ok created
    refine ⟨?_, ?_, ?_⟩
    · rw [hfr.storage, hfr.reached]
      exact hI.replays
    · rw [hfr.crashed, hfr.raft, hfr.reached]
      exact hI.remembers
    · rw [hfr.crashed, hfr.raft, hfr.storage]
      exact hI.durable
  | cancel request =>
    cases ha
    exact ⟨hI.replays, hI.remembers, hI.durable⟩
  | crash =>
    cases ha
    exact ⟨hI.replays, nofun, nofun⟩
  | restart => exact hI.restart hS hin.2.1 ha

end

end Committed

/-- In a run without failing storage calls, whose messages leave committed entries alone, whose
crashes do not separate a commit index from its entries and whose indices stay below the last
one of `uint64`, the entries that a restart hands out are those with which its commit index was
reached, at every crash. -/
theorem restart_replays_committed
    (hr : (system M cfg).Reach
      (fun h a => NoFail h a ∧ InLog h a ∧ SparesCommitted h a ∧ h.InRange a) h)
    (hin : h.storage.InRange) :
    ∃ p, newPeer cfg h.storage = some p ∧
      p.raft.ready.committedEntries.map Entry.index =
        List.range' (p.raft.raftLog.firstIndex + 1)
          (p.raft.commitIndex - p.raft.raftLog.firstIndex) ∧
      ∀ e ∈ p.raft.ready.committedEntries, ∃ l,
        Assoc.get p.raft.commitIndex h.reached = some l ∧ l.entry e.index = some e := by
  have hI : Sturdy h ∧ Committed h := by
    refine hr.induct (I := fun h => Sturdy h ∧ Committed h) ?_ ?_
    · rintro _ ⟨machine, rfl⟩
      exact ⟨.init cfg machine, .init cfg machine⟩
    · rintro h a h' - ⟨hS, hI⟩ ⟨hf, hg, hsp, hin⟩ ⟨hen, ha⟩
      exact ⟨(hS.step hf hg hin hen ha).1, hI.step hS hf hg hsp hin hen ha⟩
  obtain ⟨hS, hI⟩ := hI
  obtain ⟨p, hp, hraft⟩ := newPeer_eq cfg h.storage
  refine ⟨p, hp, ?_, ?_⟩
  · rw [hraft]
    exact (hS.covered.numbered hin).between le_rfl (hI.replays.inLog hS.covered hin)
  · rw [hraft]
    intro e he
    obtain ⟨k, hlo, hhi, hent⟩ := RaftLog.mem_between.mp he
    have hidx : e.index = k := hS.covered.numbered hin k e hent
    rw [hS.covered.restoredLog_entry hin hlo] at hent
    split_ifs at hent with hb
    obtain ⟨l, e', hl, hle, hst⟩ := hI.replays k hlo hb.2
    rw [hent] at hst
    cases hst
    refine ⟨l, ?_, hidx ▸ hle⟩
    have hc : (h.storage.restoredRaft cfg).commitIndex = h.storage.hardState.commitIndex := by
      change h.storage.restoredState.commitIndex = _
      rw [RaftStorage.restoredState, if_neg (by simp [hb.1])]
    rw [hc]
    exact hl

theorem restart_replays_committed_rewritten : ∃ h : Host Unit,
    (system .unit threeNodes).Reach
      (fun h a => NoFail h a ∧ InLog h a ∧ SparesCommitted h a ∧ h.InRange a) h ∧
    h.crashed = true ∧
    ∃ p, newPeer threeNodes h.storage = some p ∧ p.raft.commitIndex = 1 ∧
      p.raft.ready.committedEntries.map Entry.index = [1] ∧
      ∀ e ∈ p.raft.ready.committedEntries, ∃ l,
        Assoc.get p.raft.commitIndex h.reached = some l ∧ l.entry e.index = some e := by
  obtain ⟨h, hr, hin, hd, hp⟩ := exists_reach (M := .unit) threeNodes ()
    (fun h a => NoFail h a ∧ InLog h a ∧ SparesCommitted h a ∧ h.InRange a)
    (fun h => h.storage.InRange ∧ h.crashed = true ∧ (newPeer threeNodes h.storage).any (fun p =>
        p.raft.commitIndex = 1 ∧ p.raft.ready.committedEntries.map Entry.index = [1]) = true)
    (oneEntry 1 ++ [.event (.message
      { type := .msgApp, src := 2, dst := 1, term := 1, commit := 1, logIndex := 1, logTerm := 1
        entries := [{ term := 1, index := 2, data := [8] }] }) [],
      .ready [.crash]]) (by decide +kernel)
  obtain ⟨p, hp, hc⟩ := (Option.any_eq_true _ _).mp hp
  obtain ⟨hc, hidx⟩ := of_decide_eq_true hc
  obtain ⟨p', hp', -, hall⟩ := restart_replays_committed hr hin
  rw [hp] at hp'
  cases hp'
  exact ⟨h, hr, hd, p, hp, hc, hidx, hall⟩

/-- The process crashes between saving the hard state and saving the entries: the commit index
is restored without the entry that it covers. -/
theorem crash_separates_commit : ∃ h : Host Unit,
    (system .unit threeNodes).Reach NoFail h ∧
    ∃ p, newPeer threeNodes h.storage = some p ∧ p.raft.raftLog.firstIndex < p.raft.commitIndex ∧
      p.raft.ready.committedEntries = [] := by
  obtain ⟨h, hr, hp⟩ := exists_reach (M := .unit) threeNodes () NoFail
    (fun h => (newPeer threeNodes h.storage).any (fun p =>
        p.raft.raftLog.firstIndex < p.raft.commitIndex ∧
          p.raft.ready.committedEntries = []) = true)
    [.event (.message
      { type := .msgApp, src := 2, dst := 1, term := 1, commit := 1
        entries := [{ term := 1, index := 1, data := [7] }] }) [],
      .ready [.ok, .crash]] (by decide +kernel)
  obtain ⟨p, hp, hc⟩ := (Option.any_eq_true _ _).mp hp
  exact ⟨h, hr, p, hp, of_decide_eq_true hc⟩

end Host

end Mizu
