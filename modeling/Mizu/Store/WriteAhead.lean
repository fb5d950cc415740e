import Mizu.Raft.Shape
import Mizu.Store.Votes

/-!
# The storage is ahead of the messages

Storage calls can fail any number of times, and then what was to be saved accumulates:
the pending entries only grow while the log is truncated and replaced. Saving them in
order still leaves, under every index of the log, the entry that the log has there. The
term and the vote are saved with them, so that a message leaves the node only when the
storage has the term, the vote and the log it was sent with.
-/

namespace Mizu

open Raft

/-- Once the pending entries are saved, the storage holds every entry of the log. -/
def Backed (r : Raft) (st : RaftStorage) : Prop :=
  ∀ k e, r.raftLog.offset < k → r.raftLog.entry k = some e →
    (st.saveEntries r.pendingEntries).entries k = some e

namespace Backed

variable {r s : Raft} {st st' : RaftStorage} {m : Option Message}

theorem init (cfg : Config) : Backed (newRaft cfg) {} := by
  intro k e ho he
  have hb := RaftLog.entry_bounds he
  have hend : (newRaft cfg).raftLog.endIndex = 1 := rfl
  omega

theorem effect (h : Backed r st) (he : r.Effect m s) (hm : ∀ m' ∈ m, m'.Numbered) :
    Backed s st := by
  intro k e ho hent
  cases he.pending with
  | kept log pending snapshot =>
    rw [log] at ho hent
    rw [pending]
    exact h k e ho hent
  | appended data log pending snapshot =>
    rw [log] at ho hent
    rw [RaftLog.entry_append] at hent
    have hidx : (r.newEntry data).index = r.raftLog.endIndex := rfl
    rw [pending, RaftStorage.saveEntries_append, RaftStorage.saveEntries_singleton, hidx]
    split_ifs at hent with hk
    · rw [if_neg hk.ne]
      exact h k e ho hent
    · have hlen := (List.getElem?_eq_some_iff.mp hent).1
      rw [List.length_singleton] at hlen
      have hk' : k = r.raftLog.endIndex := by omega
      subst hk'
      simpa using hent
  | truncated log pending snapshot =>
    rw [pending]
    have hoff := RaftLog.truncate_offset log
    rw [hoff] at ho
    exact h k e ho (RaftLog.entry_of_truncate log hent)
  | extended hma log pending snapshot =>
    obtain ⟨-, -, hoff, hend, hlog⟩ := RaftLog.truncateAndAppend_eq log
    have hb := (RaftLog.entry_bounds hent).2
    rw [hoff] at ho
    rw [hlog] at hent
    rw [pending, RaftStorage.saveEntries_append,
      RaftStorage.saveEntries_numbered (hm _ rfl hma)]
    split_ifs at hent with hk
    · rw [if_neg (by omega)]
      exact h k e ho hent
    · rw [if_pos (by omega)]
      exact hent
  | installed hms ht hsnap hi log pending snapshot =>
    rw [log] at ho hent
    rw [RaftLog.entry_restore] at hent
    split_ifs at hent with hk
    rw [RaftLog.restore_offset] at ho
    omega

/-- What is saved of the pending entries, and what is deleted below the log, does not matter. -/
theorem persist (h : Backed r st) (hst : ∀ k, r.raftLog.offset < k →
    st'.entries k = st.entries k ∨ st'.entries k = (st.saveEntries r.pendingEntries).entries k) :
    Backed r st' := by
  intro k e ho he
  have hk := h k e ho he
  rw [RaftStorage.saveEntries_entries] at hk ⊢
  rcases hst k ho with hst | hst
  · rwa [hst]
  · rw [hst, RaftStorage.saveEntries_entries]
    cases hf : r.pendingEntries.reverse.find? fun e => e.index = k with
    | some d => simpa [hf] using hk
    | none => simpa [hf] using hk

theorem advance (h : Backed r st) (hst : ∀ k, st'.entries k =
    (st.saveEntries r.pendingEntries).entries k) : Backed r.advance st' := by
  intro k e ho he
  change st'.entries k = some e
  rw [hst]
  exact h k e ho he

theorem compacted (h : Backed r st) {index : ℕ} (t : ℕ) (data : Bytes)
    (ho : r.raftLog.offset < index) (hst : ∀ k, index < k → st'.entries k = st.entries k) :
    Backed (r.compacted index t data) st' := by
  intro k e hk he
  have he' : (r.raftLog.compactTo index t).entry k = some e := he
  have hk' : (r.raftLog.compactTo index t).offset < k := hk
  rcases RaftLog.entry_compactTo ho he' with ⟨-, hoff⟩ | ⟨hlt, hent⟩
  · omega
  · have := h k e (by omega) hent
    rw [RaftStorage.saveEntries_entries] at this ⊢
    rwa [hst k hlt]

end Backed

/-- The term and the vote of the node are those of the state that is stored next, and an
empty state that is not saved would not change the stored ones. -/
structure Marked (id : ℕ) (r : Raft) (st : RaftStorage) : Prop where
  id_eq : r.id = id
  term : (nextHardState r st).term = r.term
  vote : (nextHardState r st).vote = r.vote
  commit : ∀ hs, r.pendingHardState = some hs → hs.commitIndex ≤ r.commitIndex
  empty : ∀ hs, r.pendingHardState = some hs → hs.isEmpty = true →
    st.hardState.term = 0 ∧ st.hardState.vote = 0

namespace Marked

variable {id : ℕ} {r s : Raft} {st st' : RaftStorage} {m : Option Message}

theorem init (cfg : Config) : Marked cfg.id (newRaft cfg) {} where
  id_eq := rfl
  term := rfl
  vote := rfl
  commit _ h := nomatch h
  empty _ h := nomatch h

section

variable (h : Marked id r st)

include h

/-- A node with term and vote zero that has committed nothing has none stored. -/
theorem stored_zero (ht : r.term = 0) (hv : r.vote = 0)
    (hc : r.commitIndex = 0) : st.hardState.term = 0 ∧ st.hardState.vote = 0 := by
  have hterm := h.term
  have hvote := h.vote
  unfold nextHardState at hterm hvote
  cases hp : r.pendingHardState with
  | none =>
    rw [hp] at hterm hvote
    exact ⟨hterm.trans ht, hvote.trans hv⟩
  | some hs =>
    rw [hp] at hterm hvote
    have hcommit := h.commit hs hp
    refine h.empty hs hp ?_
    exact decide_eq_true ⟨hterm.trans ht, hvote.trans hv, by omega⟩

theorem effect (hid : id ≠ 0) (he : r.Effect m s)
    (hsnap : ∀ m' ∈ m, m'.type = .msgSnap → ∀ snap ∈ m'.snapshot, snap.term ≤ m'.term) :
    Marked id s st := by
  have hle := he.commit_le
  cases he.hard with
  | kept hs hp =>
    have hnext : nextHardState s st = nextHardState r st := by simp [nextHardState, hp]
    refine ⟨he.id_eq.trans h.id_eq, ?_, ?_, ?_, ?_⟩
    · rw [hnext, Raft.term, hs]
      exact h.term
    · rw [hnext, Raft.vote, hs]
      exact h.vote
    · rw [hp]
      exact fun hs' hp' => (h.commit hs' hp').trans hle
    · rw [hp]
      exact h.empty
  | marked hp =>
    have hnext : nextHardState s st = s.hardState := by simp [nextHardState, hp]
    refine ⟨he.id_eq.trans h.id_eq, by rw [hnext]; rfl, by rw [hnext]; rfl, ?_, ?_⟩
    · rintro hs hp'
      rw [hp] at hp'
      cases hp'
      exact le_rfl
    · rintro hs hp' hem
      rw [hp] at hp'
      cases hp'
      obtain ⟨ht, hv, hc⟩ := of_decide_eq_true hem
      have ht' : s.term = 0 := ht
      have hv' : s.vote = 0 := hv
      have hc' : r.commitIndex = 0 := Nat.le_zero.mp (hle.trans hc.le)
      cases he.election with
      | kept term vote => exact h.stored_zero (term.symm.trans ht') (vote.symm.trans hv') hc'
      | won term vote => exact h.stored_zero (term.symm.trans ht') (vote.symm.trans hv') hc'
      | counted hm ht hcand term vote =>
        exact h.stored_zero (term.symm.trans ht') (vote.symm.trans hv') hc'
      | stood hm notLeader term vote =>
        exact absurd (h.id_eq.symm.trans (vote.symm.trans hv')) hid
      | bumped ht term => omega
      | granted hm ht hcan term vote =>
        refine h.stored_zero (term.symm.trans ht') ?_ hc'
        rcases vote_of_canVote hcan with h0 | h0
        · exact h0
        · exact h0.trans (vote.symm.trans hv')
      | installed hm ht notLeader hs term vote =>
        exact h.stored_zero (by omega) (vote.symm.trans hv') hc'
  | installed hm ht hs hi hhs hp =>
    have hnext : nextHardState s st = nextHardState r st := by simp [nextHardState, hp]
    have hterm : s.term = r.term := by
      rw [Raft.term, hhs]
      exact max_eq_left ((hsnap _ rfl hm _ hs).trans ht.le)
    have hvote : s.vote = r.vote := by rw [Raft.vote, hhs]; rfl
    refine ⟨he.id_eq.trans h.id_eq, ?_, ?_, ?_, ?_⟩
    · rw [hnext, hterm]
      exact h.term
    · rw [hnext, hvote]
      exact h.vote
    · rw [hp]
      exact fun hs' hp' => (h.commit hs' hp').trans hle
    · rw [hp]
      exact h.empty

theorem persist (hst : st'.hardState = st.hardState ∨
      r.pendingHardState = some st'.hardState ∧ st'.hardState.isEmpty = false) :
    Marked id r st' := by
  have hnext : nextHardState r st' = nextHardState r st := by
    unfold nextHardState
    rcases hst with hst | ⟨hst, -⟩ <;> simp [hst]
  refine ⟨h.id_eq, hnext ▸ h.term, hnext ▸ h.vote, h.commit, ?_⟩
  intro hs hp hem
  rcases hst with hst | ⟨hst, hne⟩
  · rw [hst]
    exact h.empty hs hp hem
  · rw [hp] at hst
    cases hst
    simp [hem] at hne

/-- A `Ready` that has been written has the term and the vote of the node. -/
theorem written : (st.withReady r.ready).hardState.term = r.term ∧
    (st.withReady r.ready).hardState.vote = r.vote := by
  have ht := h.term
  have hv := h.vote
  rcases RaftStorage.withReady_hardState st r.ready with hst | ⟨hs, hp, hem, hst⟩
  · rw [hst]
    exact ⟨ht, hv⟩
  · obtain ⟨ht₀, hv₀, -⟩ := of_decide_eq_true hem
    have hp' : r.pendingHardState = some hs := hp
    have hnext : nextHardState r st = hs := by simp [nextHardState, hp']
    have h₀ := h.empty hs hp' hem
    rw [hnext] at ht hv
    rw [hst, h₀.1, h₀.2]
    exact ⟨ht₀.symm.trans ht, hv₀.symm.trans hv⟩

theorem advance : Marked id r.advance (st.withReady r.ready) where
  id_eq := h.id_eq
  term := h.written.1
  vote := h.written.2
  commit _ hp := nomatch hp
  empty _ hp := nomatch hp

theorem compacted {index : ℕ} (t : ℕ) (data : Bytes)
    (ho : r.raftLog.offset < index) : Marked id (r.compacted index t data) st where
  id_eq := h.id_eq
  term := rfl
  vote := rfl
  commit hs hp := by
    cases hp
    exact le_rfl
  empty hs hp hem := by
    cases hp
    obtain ⟨-, -, hc⟩ := of_decide_eq_true hem
    have hc' : max index r.commitIndex = 0 := hc
    omega

end

end Marked

/-- The storage has the term and the vote of the node and every entry of its log. -/
def Handout.Ahead (x : Handout) : Prop :=
  x.storage.hardState.term = x.raft.term ∧ x.storage.hardState.vote = x.raft.vote ∧
    ∀ i, x.raft.raftLog.firstIndex < i → i < x.raft.raftLog.endIndex →
      x.storage.entries i = x.raft.raftLog.entry i

namespace Host

variable {σ : Type} {M : StateMachine σ} {cfg : Config} {h h' : Host σ}

/-- The entries of a `MsgApp` are numbered, the snapshot of a `MsgSnap` is not of a later
term than the message, and the process is not restarted. -/
def InTerm (_ : Host σ) : Action → Prop
  | .event (.message m) _ => m.Numbered ∧
      (m.type = .msgSnap → ∀ snap ∈ m.snapshot, snap.term ≤ m.term)
  | .restart => False
  | _ => True

instance (a : Action) : Decidable (InTerm h a) := by
  induction a using Action.casesOn with
  | event e _ => induction e using Event.casesOn <;> dsimp only [InTerm] <;> infer_instance
  | _ => dsimp only [InTerm]; infer_instance

/-- The invariant of the runs that are not restarted. -/
structure WritesAhead (id : ℕ) (r : Raft) (st : RaftStorage) (sent : List Handout) : Prop where
  backed : Backed r st
  marked : Marked id r st
  ahead : ∀ x ∈ sent, x.Ahead

namespace WritesAhead

variable {id : ℕ} {r s : Raft} {st st' : RaftStorage} {sent : List Handout}

/-- What a written `Ready` hands out is ahead. -/
theorem flush (hw : WritesAhead id r st sent) :
    ∀ x ∈ sent ++ r.msgs.map fun m => ⟨m, r, st.withReady r.ready⟩, Handout.Ahead x := by
  intro x hx
  rcases List.mem_append.mp hx with hx | hx
  · exact hw.ahead x hx
  · obtain ⟨m, -, rfl⟩ := List.mem_map.mp hx
    refine ⟨hw.marked.written.1, hw.marked.written.2, fun i hlo hhi => ?_⟩
    obtain ⟨e, he⟩ := RaftLog.exists_entry (l := r.raftLog) (le_of_lt hlo) hhi
    rw [he, RaftStorage.withReady_entries]
    exact hw.backed i e hlo he

theorem persist (hw : WritesAhead id r st sent) {o : Option Outcome}
    (hst : st.Partial r.ready o st') : WritesAhead id r st' sent where
  backed := hw.backed.persist fun k _ => hst.entries_cases k
  marked := hw.marked.persist hst.hardState_cases
  ahead := hw.ahead

theorem task (hw : WritesAhead id r st sent) {index : ℕ} {data : Bytes}
    (hs : r.snapshot index data = some s) (hhs : st'.hardState = st.hardState)
    (hst : ∀ k, index ≤ k → st'.entries k = st.entries k) : WritesAhead id s st' sent := by
  have hm : Marked id r st' := hw.marked.persist (Or.inl hhs)
  rcases snapshot_eq hs with ⟨hi, rfl⟩ | ⟨t, ho, -, rfl⟩
  · exact ⟨hw.backed.persist fun k hk => Or.inl (hst k (hi.trans hk.le)), hm, hw.ahead⟩
  · exact ⟨hw.backed.compacted t data ho fun k hk => hst k hk.le, hm.compacted t data ho, hw.ahead⟩

theorem step {a : Action} {down : Bool} (hw : WritesAhead cfg.id h.raft h.storage h.sent)
    (hid : cfg.id ≠ 0) (hg : InTerm h a) (hs : h.Step cfg a r st sent down) :
    WritesAhead cfg.id r st sent := by
  cases hs with
  | @handled e os s hs =>
    have hm : ∀ m' ∈ e.message?, m'.Numbered ∧
        (m'.type = .msgSnap → ∀ snap ∈ m'.snapshot, snap.term ≤ m'.term) := by
      intro m' hm'
      cases e with
      | message m =>
        cases hm'
        exact hg
      | _ => cases hm'
    refine hs.induct_all (I := fun s => WritesAhead cfg.id s h.storage h.sent) hw
      fun r s hr he _ => ?_
    exact ⟨hr.backed.effect he fun m' hm' => (hm m' hm').1,
      hr.marked.effect hid he fun m' hm' => (hm m' hm').2, hr.ahead⟩
  | tasked ht hs hst =>
    refine hw.task hs ?_ ?_
    · rcases hst with rfl | rfl
      · rfl
      · exact RaftStorage.compact_hardState _
    · intro k hk
      rcases hst with rfl | rfl
      · rfl
      · exact RaftStorage.compact_entries hk
  | taskSaved ht => exact ⟨hw.backed, hw.marked.persist (Or.inl rfl), hw.ahead⟩
  | persisted hst hd => exact hw.persist hst
  | flushed hs =>
    have hp : WritesAhead cfg.id h.raft (h.storage.withReady h.raft.ready) h.sent :=
      hw.persist (.all (o := none))
    rcases hs with ⟨rfl, -⟩ | rfl
    · exact ⟨hp.backed, hp.marked, hw.flush⟩
    · refine ⟨hw.backed.advance fun k => ?_, hw.marked.advance, hw.flush⟩
      rw [RaftStorage.withReady_entries]
      rfl
  | restarted crashed => exact hg.elim
  | same ha hd hr => exact hw

end WritesAhead

/-- Whenever a message is handed to the transport, the storage has the term, the vote and the
log of the node, however often storage calls have failed before. -/
theorem write_ahead (hid : cfg.id ≠ 0) (hr : (system M cfg).Reach InTerm h) :
    ∀ x ∈ h.sent, x.Ahead := by
  have hw : WritesAhead cfg.id h.raft h.storage h.sent := by
    refine hr.induct (I := fun h => WritesAhead cfg.id h.raft h.storage h.sent) ?_ ?_
    · rintro _ ⟨machine, rfl⟩
      exact ⟨.init cfg, .init cfg, fun x hx => absurd hx List.not_mem_nil⟩
    · rintro h a h' - hw hg ⟨hen, ha⟩
      exact hw.step hid hg (step_of_act hen ha)
  exact hw.ahead

/-- Two `MsgApp`s are handled, the second replaces the entry of the first, and neither `Ready` can
be saved until a tick is handled. -/
theorem write_ahead_retried : ∃ h : Host Unit, (system .unit threeNodes).Reach InTerm h ∧
    h.sent.map (fun x => x.msg.logIndex) = [1, 1] ∧
    h.storage.entries 1 = some { term := 2, index := 1, data := [8] } ∧ ∀ x ∈ h.sent, x.Ahead := by
  obtain ⟨h, hr, hs, he⟩ := exists_reach (M := .unit) threeNodes () InTerm
    (fun h => h.sent.map (fun x => x.msg.logIndex) = [1, 1] ∧
      h.storage.entries 1 = some { term := 2, index := 1, data := [8] })
    [.event (.message
        { type := .msgApp, src := 2, dst := 1, term := 1
          entries := [{ term := 1, index := 1, data := [7] }] }) [], .ready [.fail],
      .event (.message
        { type := .msgApp, src := 3, dst := 1, term := 2
          entries := [{ term := 2, index := 1, data := [8] }] }) [], .ready [.ok, .fail],
      .event (.tick 0) [], .ready []]
    (by decide +kernel)
  exact ⟨h, hr, hs, he, write_ahead (by decide) hr⟩

end Host

end Mizu
