import Mizu.Store.Steps

/-!
# One vote per term, across restarts

A ballot is a vote that leaves the node: an answer that grants one, or a request of the
node for itself. The hard state that is stored, or waits to be stored, remembers the last
ballot, and is stored before the ballot is handed out. So no restart can lead to a
second one in the same term, unless the term counter wraps around.
-/

namespace Mizu

open Raft

/-- The term and the candidate that a message is a vote for. -/
def Message.ballot (m : Message) : Option (ℕ × ℕ) :=
  match m.type, m.reject with
  | .msgVoteResp, false => some (m.term, m.dst)
  | .msgVote, _ => some (m.term, m.src)
  | _, _ => none

variable {v : ℕ × ℕ}

namespace HardState

variable {a b c : HardState}

/-- The state `b` is later than `a`, or the same up to a vote that was not yet given. -/
def Before (a b : HardState) : Prop :=
  a.term < b.term ∨ (a.term = b.term ∧ (a.vote = b.vote ∨ a.vote = 0))

theorem Before.refl (a : HardState) : a.Before a := Or.inr ⟨rfl, Or.inl rfl⟩

theorem Before.trans (h₁ : a.Before b) (h₂ : b.Before c) : a.Before c := by
  unfold Before at *
  omega

/-- The state rules out any other vote in the term of the ballot. -/
def Records (a : HardState) (v : ℕ × ℕ) : Prop := v.1 < a.term ∨ (v.1 = a.term ∧ v.2 = a.vote)

theorem Records.mono (h : a.Records v) (hb : a.Before b) (hv : v.2 ≠ 0) :
    b.Records v := by
  unfold Records Before at *
  omega

/-- A later vote in the term of a recorded ballot is the same. -/
theorem Records.eq (h : a.Records v) (hb : a.Before b) (hv : v.2 ≠ 0)
    (ht : v.1 = b.term) : v.2 = b.vote := by
  unfold Records Before at *
  omega

end HardState

namespace Raft

variable {r s : Raft} {m : Option Message}

theorem Outgoing.ballot_eq {x : Message} (h : r.Outgoing x) : x.ballot = none := by
  obtain ⟨pr, -, ⟨ht, -⟩ | ⟨ht, -⟩⟩ := h.body <;> simp [Message.ballot, ht]

/-- The ballots among the messages `ms` are for the vote that `s` waits to store. -/
def Casts (s : Raft) (m : Option Message) (ms : List Message) : Prop :=
  (∀ x ∈ ms, x.ballot = none) ∨
    s.pendingHardState = some s.hardState ∧ ∀ x ∈ ms, x.ballot = some (s.term, s.vote) ∧
      (x.type = .msgVote ∧ x.src = s.id ∨ x.type = .msgVoteResp ∧ ∃ m' ∈ m, x.dst = m'.src)

/-- Ballots are sent only together with a hard state that records them. -/
theorem Effect.casts (h : r.Effect m s) : ∃ ms, s.msgs = r.msgs ++ ms ∧ s.Casts m ms := by
  have led (ho : ∃ ms, s.msgs = r.msgs ++ ms ∧ ∀ x ∈ ms, s.Outgoing x) :
      ∃ ms, s.msgs = r.msgs ++ ms ∧ s.Casts m ms := by
    obtain ⟨ms, hms, hout⟩ := ho
    exact ⟨ms, hms, Or.inl fun x hx => (hout x hx).ballot_eq⟩
  have silent (hm : s.msgs = r.msgs) : ∃ ms, s.msgs = r.msgs ++ ms ∧ s.Casts m ms :=
    ⟨[], by simp [hm], Or.inl (by simp)⟩
  have single {x : Message} (hm : s.msgs = r.msgs ++ [x]) (hx : x.ballot = none) :
      ∃ ms, s.msgs = r.msgs ++ ms ∧ s.Casts m ms :=
    ⟨[x], hm, Or.inl (by simpa using hx)⟩
  cases h with
  | sends h => exact led h.sent
  | proposed data hl h => exact led h.sent
  | stood hm hs hn => exact silent rfl
  | campaigned hm hs hn =>
    refine ⟨_, rfl, Or.inr ⟨rfl, fun x hx => ?_⟩⟩
    obtain ⟨dst, -, rfl⟩ := List.mem_map.mp hx
    exact ⟨rfl, Or.inl ⟨rfl, rfl⟩⟩
  | won hs hq h => exact led h.sent
  | bumped ht =>
    rw [becomeFollower_of_lt ht] at *
    exact silent rfl
  | counted hm ht hs => exact silent rfl
  | lost hm hs => exact silent rfl
  | granted hm hs ht hv =>
    refine ⟨_, rfl, Or.inr ⟨rfl, fun x hx => ?_⟩⟩
    obtain rfl := List.mem_singleton.mp hx
    exact ⟨rfl, Or.inr ⟨rfl, _, rfl, rfl⟩⟩
  | refused hm hs hv => exact single rfl rfl
  | stale hm hs ht => exact single rfl rfl
  | missing hm hs ht hi => exact single rfl rfl
  | conflict hm hs ht hi hterm hne hfirst hlog => exact single rfl rfl
  | accepted hm hs ht hi hterm hlog hc =>
    cases hc with
    | same h => exact single rfl rfl
    | commit h => exact single rfl rfl
  | progressed hm hs ht hpr hpr' h => exact led h.sent
  | unsnapped hm hs => exact single rfl rfl
  | installed hm hs ht hsnap hi => exact single rfl rfl
  | snapAcked hm hs ht hr hpr h => exact led h.sent

/-- The term and the vote only move on, as long as the counter does not wrap. -/
theorem Effect.before (h : r.Effect m s)
    (hb : s.term = r.term ∨ r.term + 1 < 2 ^ 64 ∨ ∃ m' ∈ m, m'.type ≠ .msgHup) :
    r.hardState.Before s.hardState := by
  have same (ht : s.term = r.term) (hv : s.vote = r.vote) : r.hardState.Before s.hardState :=
    Or.inr ⟨ht.symm, Or.inl hv.symm⟩
  cases h.election with
  | kept term vote => exact same term vote
  | won term vote => exact same term vote
  | counted hm ht hc term vote => exact same term vote
  | stood hm notLeader term vote =>
    rcases hb with heq | hlt | ⟨m', hm', hne⟩
    · exact absurd (term.symm.trans heq) (nextTerm_ne _)
    · refine Or.inl ?_
      have hlt' : r.term < s.term := by
        rw [term, nextTerm_of_lt hlt]
        exact Nat.lt_succ_self _
      exact hlt'
    · exact absurd (hm m' hm') hne
  | bumped ht term =>
    refine Or.inl ?_
    have hlt : r.term < s.term := term ▸ ht
    exact hlt
  | granted hm ht hv term vote =>
    refine Or.inr ⟨term.symm, ?_⟩
    rcases vote_of_canVote hv with h0 | h0
    · exact Or.inr h0
    · exact Or.inl (h0.trans vote.symm)
  | installed hm ht notLeader hsnap term vote =>
    rcases Nat.lt_or_ge r.term s.term with hlt | hge
    · exact Or.inl hlt
    · exact same (le_antisymm hge (term ▸ le_max_left _ _)) vote

end Raft

/-! ### The invariant -/

/-- The hard state that is stored once the pending one is saved. -/
def nextHardState (r : Raft) (st : RaftStorage) : HardState :=
  r.pendingHardState.getD st.hardState

/-- The node `id` asks for votes for itself and grants votes to others. -/
def Message.Foreign (id : ℕ) (m : Message) : Prop :=
  (m.type = .msgVote → m.src = id) ∧ (m.type = .msgVoteResp → m.reject = false → m.dst ≠ id)

/-- What links the memory of the node `id`, its storage and the ballots that it has cast,
in messages handed out and in those that wait. -/
structure Voting (id : ℕ) (r : Raft) (st : RaftStorage) (sent : List Handout) : Prop where
  id_eq : r.id = id
  memory : (nextHardState r st).term < r.term ∨
    ((nextHardState r st).term = r.term ∧ (nextHardState r st).vote = r.vote)
  stored : st.hardState.Before (nextHardState r st)
  msgs : ∀ m ∈ r.msgs, ∀ v ∈ m.ballot, (nextHardState r st).Records v
  handed : ∀ x ∈ sent, ∀ v ∈ x.msg.ballot, st.hardState.Records v
  positive : ∀ m ∈ r.msgs ++ sent.map Handout.msg, ∀ v ∈ m.ballot, v.2 ≠ 0
  foreign : ∀ m ∈ r.msgs ++ sent.map Handout.msg, m.Foreign id
  agree : ∀ m ∈ r.msgs ++ sent.map Handout.msg, ∀ m' ∈ r.msgs ++ sent.map Handout.msg,
    ∀ v ∈ m.ballot, ∀ v' ∈ m'.ballot, v.1 = v'.1 → v.2 = v'.2

namespace Voting

variable {id : ℕ} {r s : Raft} {st st' : RaftStorage} {sent : List Handout}

theorem init (cfg : Config) : Voting cfg.id (newRaft cfg) {} [] where
  id_eq := rfl
  memory := Or.inr ⟨rfl, rfl⟩
  stored := .refl _
  msgs _ hm := absurd hm List.not_mem_nil
  handed _ hx := absurd hx List.not_mem_nil
  positive _ hm := absurd hm List.not_mem_nil
  foreign _ hm := absurd hm List.not_mem_nil
  agree _ hm := absurd hm List.not_mem_nil

theorem before (h : Voting id r st sent) : (nextHardState r st).Before r.hardState := by
  rcases h.memory with hlt | ⟨ht, hv⟩
  · exact Or.inl hlt
  · exact Or.inr ⟨ht, Or.inl hv⟩

/-- Every ballot is recorded by the state that is stored next. -/
theorem recorded (h : Voting id r st sent) {m : Message}
    (hm : m ∈ r.msgs ++ sent.map Handout.msg) (hv : v ∈ m.ballot) :
    (nextHardState r st).Records v := by
  have hpos := h.positive m hm v hv
  rcases List.mem_append.mp hm with hm | hm
  · exact h.msgs m hm v hv
  · obtain ⟨x, hx, rfl⟩ := List.mem_map.mp hm
    exact (h.handed x hx v hv).mono h.stored hpos

/-- The memory moves on, and ballots are cast for the vote that is stored next. -/
theorem move (h : Voting id r st sent) (hid : s.id = r.id) {ms : List Message}
    (hms : s.msgs = r.msgs ++ ms) (hbefore : (nextHardState r st).Before (nextHardState s st))
    (hmem : (nextHardState s st).term < s.term ∨
      ((nextHardState s st).term = s.term ∧ (nextHardState s st).vote = s.vote))
    (hforeign : ∀ x ∈ ms, x.Foreign id)
    (hnew : ∀ x ∈ ms, ∀ v ∈ x.ballot, v.2 ≠ 0 ∧ v.1 = (nextHardState s st).term ∧
      v.2 = (nextHardState s st).vote) : Voting id s st sent := by
  -- the messages are those from before and the new ones
  have split {x : Message} (hx : x ∈ s.msgs ++ sent.map Handout.msg) :
      x ∈ r.msgs ++ sent.map Handout.msg ∨ x ∈ ms := by
    rw [hms] at hx
    simp only [List.mem_append] at hx ⊢
    tauto
  have old_new {x y : Message} (hx : x ∈ r.msgs ++ sent.map Handout.msg) (hy : y ∈ ms)
      {v w : ℕ × ℕ} (hv : v ∈ x.ballot) (hw : w ∈ y.ballot) (hvw : v.1 = w.1) : v.2 = w.2 := by
    obtain ⟨-, ht, hvote⟩ := hnew y hy w hw
    rw [hvote]
    exact (h.recorded hx hv).eq hbefore (h.positive x hx v hv) (hvw.trans ht)
  constructor
  · exact hid.trans h.id_eq
  · exact hmem
  · exact h.stored.trans hbefore
  · intro x hx v hv
    rcases split (List.mem_append_left _ hx) with hx | hx
    · exact (h.recorded hx hv).mono hbefore (h.positive x hx v hv)
    · exact Or.inr (hnew x hx v hv).2
  · exact h.handed
  · intro x hx v hv
    rcases split hx with hx | hx
    · exact h.positive x hx v hv
    · exact (hnew x hx v hv).1
  · intro x hx
    rcases split hx with hx | hx
    · exact h.foreign x hx
    · exact hforeign x hx
  · intro x hx y hy v hv w hw hvw
    rcases split hx with hx | hx <;> rcases split hy with hy | hy
    · exact h.agree x hx y hy v hv w hw hvw
    · exact old_new hx hy hv hw hvw
    · exact (old_new hy hx hw hv hvw.symm).symm
    · rw [(hnew x hx v hv).2.2, (hnew y hy w hw).2.2]

theorem effect {m : Option Message} (h : Voting id r st sent) (hid : id ≠ 0)
    (hsrc : ∀ m' ∈ m, m'.src ≠ 0 ∧ m'.src ≠ id) (he : r.Effect m s)
    (hb : s.term = r.term ∨ r.term + 1 < 2 ^ 64 ∨ ∃ m' ∈ m, m'.type ≠ .msgHup) :
    Voting id s st sent := by
  obtain ⟨ms, hms, hcast⟩ := he.casts
  have hbef := he.before hb
  have hid' : s.id = id := he.id_eq.trans h.id_eq
  -- a state that is marked as changed is the one stored next
  have marked (hp : s.pendingHardState = some s.hardState) :
      nextHardState s st = s.hardState := by simp [nextHardState, hp]
  rcases hcast with hnone | ⟨hp, hvote⟩
  · have hnew : ∀ x ∈ ms, ∀ v ∈ x.ballot, v.2 ≠ 0 ∧ v.1 = (nextHardState s st).term ∧
        v.2 = (nextHardState s st).vote := by
      intro x hx v hv
      simp [hnone x hx] at hv
    have hforeign : ∀ x ∈ ms, x.Foreign id := by
      intro x hx
      have := hnone x hx
      constructor
      · intro ht
        simp [Message.ballot, ht] at this
      · intro ht hr
        simp [Message.ballot, ht, hr] at this
    cases he.hard with
    | kept hs hp =>
      have hnext : nextHardState s st = nextHardState r st := by simp [nextHardState, hp]
      refine h.move he.id_eq hms (hnext ▸ .refl _) ?_ hforeign hnew
      rw [hnext, Raft.term, Raft.vote, hs]
      exact h.memory
    | marked hp =>
      refine h.move he.id_eq hms ?_ ?_ hforeign hnew
      · rw [marked hp]
        exact h.before.trans hbef
      · rw [marked hp]
        exact Or.inr ⟨rfl, rfl⟩
    | installed hm ht hsnap hi hs hp =>
      have hnext : nextHardState s st = nextHardState r st := by simp [nextHardState, hp]
      refine h.move he.id_eq hms (hnext ▸ .refl _) ?_ hforeign hnew
      rw [hnext, Raft.term, Raft.vote, hs]
      dsimp only
      have := h.memory
      unfold Raft.term Raft.vote at *
      omega
  · refine h.move he.id_eq hms ?_ ?_ ?_ ?_
    · rw [marked hp]
      exact h.before.trans hbef
    · rw [marked hp]
      exact Or.inr ⟨rfl, rfl⟩
    · intro x hx
      obtain ⟨hbal, ⟨ht, hsr⟩ | ⟨ht, m', hm', hdst⟩⟩ := hvote x hx
      · exact ⟨fun _ => hsr.trans hid', fun ht' => by simp [ht] at ht'⟩
      · exact ⟨fun ht' => (by simp [ht] at ht'), fun _ _ => hdst ▸ (hsrc m' hm').2⟩
    · intro x hx v hv
      obtain ⟨hbal, hcase⟩ := hvote x hx
      rw [hbal] at hv
      cases hv
      rw [marked hp]
      refine ⟨?_, rfl, rfl⟩
      rcases hcase with ⟨ht, hsr⟩ | ⟨ht, m', hm', hdst⟩
      · have hv : s.vote = x.src := by
          simp only [Message.ballot, ht, Option.some.injEq, Prod.mk.injEq] at hbal
          exact hbal.2.symm
        rw [hv, hsr, hid']
        exact hid
      · have hv : s.vote = x.dst := by
          cases hr : x.reject <;> simp [Message.ballot, ht, hr] at hbal
          exact hbal.2.symm
        rw [hv, hdst]
        exact (hsrc m' hm').1

/-- A part of a `Ready` is written. -/
theorem persist (h : Voting id r st sent)
    (hst : st'.hardState = st.hardState ∨ r.pendingHardState = some st'.hardState) :
    Voting id r st' sent := by
  have hnext : nextHardState r st' = nextHardState r st := by
    unfold nextHardState
    rcases hst with hst | hst <;> simp [hst]
  have hbefore : st'.hardState.Before (nextHardState r st) := by
    rcases hst with hst | hst
    · rw [hst]
      exact h.stored
    · simp only [nextHardState, hst]
      exact .refl _
  constructor
  · exact h.id_eq
  · rw [hnext]
    exact h.memory
  · rw [hnext]
    exact hbefore
  · rw [hnext]
    exact h.msgs
  · intro x hx v hv
    rcases hst with hst | hst
    · rw [hst]
      exact h.handed x hx v hv
    · have hmem : x.msg ∈ r.msgs ++ sent.map Handout.msg :=
        List.mem_append_right _ (List.mem_map_of_mem hx)
      have hrec := h.recorded hmem hv
      simpa [nextHardState, hst] using hrec
  · exact h.positive
  · exact h.foreign
  · exact h.agree

/-- A `Ready` has been written when its term and vote are the stored ones. -/
theorem written (h : Voting id r st sent) :
    (st.withReady r.ready).hardState.term = (nextHardState r st).term ∧
      (st.withReady r.ready).hardState.vote = (nextHardState r st).vote := by
  rcases RaftStorage.withReady_hardState st r.ready with hst | ⟨hs, hp, hem, hst⟩
  · rw [hst]
    exact ⟨rfl, rfl⟩
  · -- an empty state is not saved, but the stored one cannot be later
    obtain ⟨ht, hv, -⟩ := of_decide_eq_true hem
    have hp' : r.pendingHardState = some hs := hp
    have hnext : nextHardState r st = hs := by simp [nextHardState, hp']
    have hb := h.stored
    rw [hst, hnext]
    rw [hnext] at hb
    unfold HardState.Before at hb
    omega

theorem records_congr {a b : HardState} (ht : a.term = b.term) (hv : a.vote = b.vote)
    (h : b.Records v) : a.Records v := by
  unfold HardState.Records at *
  rw [ht, hv]
  exact h

section

variable (h : Voting id r st sent)

include h

/-- The messages of a written `Ready` are handed out. -/
theorem flush : Voting id r (st.withReady r.ready)
    (sent ++ r.msgs.map fun m => ⟨m, r, st.withReady r.ready⟩) := by
  have hw := h.written
  have hp : Voting id r (st.withReady r.ready) sent :=
    h.persist ((RaftStorage.Partial.all (o := none)).hardState_cases.imp_right And.left)
  -- the same messages as before, some of them twice
  have back {m : Message} (hm : m ∈ r.msgs ++ (sent ++ r.msgs.map fun m =>
      (⟨m, r, st.withReady r.ready⟩ : Handout)).map Handout.msg) :
      m ∈ r.msgs ++ sent.map Handout.msg := by
    simp only [List.map_append, List.map_map, Function.comp_def, List.map_id',
      List.mem_append] at hm ⊢
    tauto
  refine ⟨hp.id_eq, hp.memory, hp.stored, hp.msgs, ?_, fun m hm => hp.positive m (back hm),
    fun m hm => hp.foreign m (back hm),
    fun m hm m' hm' => hp.agree m (back hm) m' (back hm')⟩
  intro x hx v hv
  rcases List.mem_append.mp hx with hx | hx
  · exact hp.handed x hx v hv
  · obtain ⟨m, hm, rfl⟩ := List.mem_map.mp hx
    exact records_congr hw.1 hw.2 (h.msgs m hm v hv)

/-- The node goes on after its `Ready` has been handed out. -/
theorem advance : Voting id r.advance (st.withReady r.ready)
    (sent ++ r.msgs.map fun m => ⟨m, r, st.withReady r.ready⟩) := by
  have hw := h.written
  have hf := h.flush
  have right {m : Message} {ms : List Message} (hm : m ∈ r.advance.msgs ++ ms) :
      m ∈ r.msgs ++ ms := List.mem_append_right _ hm
  refine ⟨hf.id_eq, ?_, .refl _, fun _ hm => absurd hm List.not_mem_nil, hf.handed,
    fun m hm => hf.positive m (right hm), fun m hm => hf.foreign m (right hm),
    fun m hm m' hm' => hf.agree m (right hm) m' (right hm')⟩
  have hm := h.memory
  rw [← hw.1, ← hw.2] at hm
  exact hm

theorem compacted (index t : ℕ) (data : Bytes) :
    Voting id (r.compacted index t data) st sent := by
  refine h.move rfl (show _ = r.msgs ++ [] by simp [Raft.compacted]) ?_ (Or.inr ⟨rfl, rfl⟩)
    (by simp) (by simp)
  exact h.before

theorem restart {cfg : Config} (hid : cfg.id = id) :
    Voting id (st.restoredRaft cfg) st sent := by
  have right {m : Message} {ms : List Message} (hm : m ∈ (st.restoredRaft cfg).msgs ++ ms) :
      m ∈ r.msgs ++ ms := List.mem_append_right _ hm
  refine ⟨hid, ?_, .refl _, fun _ hm => absurd hm List.not_mem_nil, h.handed,
    fun m hm => h.positive m (right hm), fun m hm => h.foreign m (right hm),
    fun m hm m' hm' => h.agree m (right hm) m' (right hm')⟩
  change st.hardState.term < st.restoredState.term ∨
    st.hardState.term = st.restoredState.term ∧ st.hardState.vote = st.restoredState.vote
  unfold RaftStorage.restoredState
  split_ifs with hem
  · obtain ⟨ht, hv, -⟩ := of_decide_eq_true hem
    dsimp only
    omega
  · exact Or.inr ⟨rfl, rfl⟩

end

end Voting

namespace Host

variable {σ : Type} {M : StateMachine σ} {cfg : Config} {h h' : Host σ}

/-- Messages come from other nodes. -/
def FromOthers (cfg : Config) (_ : Host σ) : Action → Prop
  | .event (.message m) _ => m.src ≠ 0 ∧ m.src ≠ cfg.id
  | _ => True

/-- No campaign can start in the largest term. -/
def TermLeft (h : Host σ) : Action → Prop
  | .event (.message m) _ => m.type = .msgHup → max h.raft.term m.term + 1 < 2 ^ 64
  | .event (.tick _) _ => h.raft.term + 1 < 2 ^ 64
  | _ => True

instance (a : Action) : Decidable (FromOthers cfg h a) := by
  unfold FromOthers
  split <;> infer_instance

instance (a : Action) : Decidable (TermLeft h a) := by
  unfold TermLeft
  split <;> infer_instance

theorem Voting.step {a : Action} {r : Raft} {st : RaftStorage} {sent : List Handout} {down : Bool}
    (hv : Voting cfg.id h.raft h.storage h.sent) (hid : cfg.id ≠ 0)
    (hfrom : FromOthers cfg h a) (hterm : TermLeft h a) (hs : h.Step cfg a r st sent down) :
    Voting cfg.id r st sent := by
  cases hs with
  | @handled e os s hs =>
    refine hs.induct_all (I := fun s => Voting cfg.id s h.storage h.sent) hv fun r s hr he ht => ?_
    refine hr.effect hid ?_ he ?_
    · intro m' hm'
      cases e with
      | message m =>
        cases hm'
        exact hfrom
      | _ => cases hm'
    · rcases ht with ht | ht | ht
      · exact Or.inl ht
      · cases e with
        | message m =>
          by_cases hup : m.type = .msgHup
          · exact Or.inr (Or.inl (lt_of_le_of_lt (Nat.succ_le_succ ht) (hterm hup)))
          · exact Or.inr (Or.inr ⟨m, rfl, hup⟩)
        | tick rnd => exact Or.inr (Or.inl (lt_of_le_of_lt (Nat.succ_le_succ ht) hterm))
        | _ =>
          refine Or.inr (Or.inl (lt_of_le_of_lt (Nat.succ_le_succ ht) ?_))
          norm_num [Event.campaignTerm]
      · exact Or.inr (Or.inr ht)
  | tasked ht hs hst =>
    have hp : Voting cfg.id h.raft st h.sent := by
      refine hv.persist (Or.inl ?_)
      rcases hst with rfl | rfl
      · rfl
      · unfold RaftStorage.compact
        split_ifs <;> rfl
    rcases snapshot_cases hs with rfl | ⟨t, -, -, rfl⟩
    · exact hp
    · exact hp.compacted _ _ _
  | taskSaved ht => exact hv.persist (Or.inl rfl)
  | persisted hst hd => exact hv.persist (hst.hardState_cases.imp_right And.left)
  | flushed hs =>
    rcases hs with ⟨rfl, -⟩ | rfl
    · exact hv.flush
    · exact hv.advance
  | restarted crashed => exact hv.restart rfl
  | same ha hd hr => exact hv

/-- No two votes of the node in one term are for different candidates: neither two granting
answers, nor an answer and a request for itself. -/
def OneVote (h : Host σ) : Prop :=
  ∀ x ∈ h.sent, x.msg.type = .msgVoteResp → x.msg.reject = false → ∀ y ∈ h.sent,
    x.msg.term = y.msg.term →
      (y.msg.type = .msgVoteResp → y.msg.reject = false → x.msg.dst = y.msg.dst) ∧
      y.msg.type ≠ .msgVote

instance : Decidable h.OneVote := by
  unfold OneVote
  infer_instance

/-- A node whose messages come from others, and whose term counter does not wrap, casts one vote
in a term, across storage failures, crashes and restarts. -/
theorem one_vote_per_term (hid : cfg.id ≠ 0)
    (hr : (system M cfg).Reach (fun h a => FromOthers cfg h a ∧ TermLeft h a) h) : h.OneVote := by
  have hv : Voting cfg.id h.raft h.storage h.sent := by
    refine hr.induct (I := fun h => Voting cfg.id h.raft h.storage h.sent) ?_ ?_
    · rintro _ ⟨machine, rfl⟩
      exact .init cfg
    · rintro h a h' - hv ⟨hfrom, hterm⟩ ⟨hen, ha⟩
      exact Voting.step hv hid hfrom hterm (step_of_act hen ha)
  have hmem {x : Handout} (hx : x ∈ h.sent) : x.msg ∈ h.raft.msgs ++ h.sent.map Handout.msg :=
    List.mem_append_right _ (List.mem_map_of_mem hx)
  intro x hx hxt hxr y hy ht
  have hbx : x.msg.ballot = some (x.msg.term, x.msg.dst) := by simp [Message.ballot, hxt, hxr]
  constructor
  · intro hyt hyr
    have hby : y.msg.ballot = some (y.msg.term, y.msg.dst) := by simp [Message.ballot, hyt, hyr]
    exact hv.agree _ (hmem hx) _ (hmem hy) _ hbx _ hby ht
  · intro hyt
    have hby : y.msg.ballot = some (y.msg.term, y.msg.src) := by simp [Message.ballot, hyt]
    have heq := hv.agree _ (hmem hx) _ (hmem hy) _ hbx _ hby ht
    exact (hv.foreign _ (hmem hx)).2 hxt hxr (heq.trans ((hv.foreign _ (hmem hy)).1 hyt))

/-- A vote is granted, the process crashes before the next `Ready` is written, and another
candidate is refused in the same term. -/
theorem one_vote_per_term_restart : ∃ h : Host Unit,
    (system .unit threeNodes).Reach (fun h a => FromOthers threeNodes h a ∧ TermLeft h a) h ∧
    h.sent.map (fun x => (x.msg.dst, x.msg.reject)) = [(2, false), (3, true)] ∧ h.OneVote := by
  obtain ⟨h, hr, hs⟩ := exists_reach (M := .unit) threeNodes ()
    (fun h a => FromOthers threeNodes h a ∧ TermLeft h a)
    (fun h => h.sent.map (fun x => (x.msg.dst, x.msg.reject)) = [(2, false), (3, true)])
    [.event (.message { type := .msgVote, src := 2, dst := 1, term := 1 }) [], .ready [],
      .event (.tick 0) [], .crash, .restart,
      .event (.message { type := .msgVote, src := 3, dst := 1, term := 1 }) [], .ready []]
    (by decide +kernel)
  exact ⟨h, hr, hs, one_vote_per_term (by decide) hr⟩

/-- After a message of the largest term the next campaign of the node wraps its term to zero,
and it votes again in term 1. -/
theorem wrapped_term_votes_twice : ∃ h : Host Unit,
    (system .unit threeNodes).Reach (FromOthers threeNodes) h ∧ ¬h.OneVote :=
  exists_reach (M := .unit) threeNodes () (FromOthers threeNodes) (fun h => ¬h.OneVote)
    ([.event (.message { type := .msgVote, src := 2, dst := 1, term := 1 }) [], .ready [],
      .event (.message { type := .msgVote, src := 2, dst := 1, term := 2 ^ 64 - 1 }) [],
      .ready []] ++ (List.replicate 15 [.event (.tick 0) [], .ready []]).flatten ++
      [.event (.message { type := .msgVote, src := 3, dst := 1, term := 1 }) [], .ready []])
    (by decide +kernel)

end Host

end Mizu
