import Mizu.Library.Reach
import Mizu.Raft.ReadRounds

/-!
# Read rounds at one node

A round goes through the stages of being accepted, started, acknowledged and completed. The
history of a run, cut into the assignments of its calls, says where in it each round stands.
-/

namespace Mizu

open Raft

/-- What an application has called on a node and taken from it. -/
structure Usage where
  node : Raft
  calls : List Call := []
  reads : List ReadState := []
  sent : List Message := []

namespace Usage

def act (u : Usage) (c : Call) : Option Usage :=
  (u.node.call c).map fun r =>
    { node := r
      calls := u.calls ++ [c]
      reads := if c = .ready then u.reads ++ u.node.ready.readStates else u.reads
      sent := if c = .ready then u.sent ++ u.node.ready.messages else u.sent }

/-- The ids passed to `ReadIndex`. -/
def asked (u : Usage) : List ℕ :=
  u.calls.filterMap fun
    | .readIndex readID => some readID
    | _ => none

end Usage

/-- A node as `NewRaft` and the restoring calls leave it. -/
structure Raft.Idle (r : Raft) : Prop where
  state : r.state = .follower
  msgs : r.msgs = []
  reads : r.readStates = []
  rounds : r.readRounds = []

theorem Raft.newRaft_idle (cfg : Config) : (newRaft cfg).Idle := ⟨rfl, rfl, rfl, rfl⟩

/-- The runs of one node over arbitrary calls. -/
def Usage.system : TransitionSystem Usage Call where
  init u := ∃ r : Raft, r.Idle ∧ u = { node := r }
  step u c u' := u.act c = some u'

/-! ### Histories -/

/-- The history of a run from `r`: the assignments of its calls one after the other. An
accepted `ReadIndex` begins with the new round, and `ready` is one assignment. -/
inductive Unfolds (r : Raft) : List Call → List Moment → Raft → Prop
  | nil : Unfolds r [] [] r
  | call {cs : List Call} {H ms : List Moment} {s t : Raft} {c : Call} (h : Unfolds r cs H s)
      (hc : s.call c = some t) (hready : c ≠ .ready)
      (hread : ∀ readID, c = .readIndex readID → s.readIndex readID = some (t, false))
      (hp : Passes c s ms t) : Unfolds r (cs ++ [c]) (H ++ ms) t
  | accepted {cs : List Call} {H ms : List Moment} {s t : Raft} {readID : ℕ}
      (h : Unfolds r cs H s) (hc : s.readIndex readID = some (t, true))
      (hp : Passes (.readIndex readID) (s.setRound readID {}) ms t) :
      Unfolds r (cs ++ [.readIndex readID])
        (H ++ { call := .readIndex readID, act := .accept readID, before := s,
                node := s.setRound readID {} } :: ms) t
  | taken {cs : List Call} {H : List Moment} {s : Raft} (h : Unfolds r cs H s) :
      Unfolds r (cs ++ [.ready])
        (H ++ [{ call := .ready, act := .take, before := s, node := s.advance }]) s.advance

/-- The assignment belongs to round `readID`. -/
def Act.Concerns (readID : ℕ) : Act → Prop
  | .send m | .ack m => m.readId = readID
  | .accept k | .start k => k = readID
  | .complete rs => rs.readID = readID
  | .work | .fall | .lead | .take | .cancel _ => False

def Moment.readState (x : Moment) : Option ReadState :=
  match x.act with
  | .complete rs => some rs
  | _ => none

def Moment.message (x : Moment) : Option Message :=
  match x.act with
  | .send m => some m
  | _ => none

/-- Nothing happens to round `readID`, and no message is sent for it. -/
def Silent (readID : ℕ) (ms : List Moment) : Prop := ∀ x ∈ ms, ¬x.act.Concerns readID

/-- In the history `H` round `readID` is accepted once, then started at the moment `s`, at which
the node leads, `index` is its commit index and the entry there has its term; `ms` is what has
happened since, with the node leading the same term. -/
structure Opened (H : List Moment) (readID index : ℕ) (s : Moment) (ms : List Moment) : Prop where
  split : ∃ p a q, H = p ++ a :: (q ++ s :: ms) ∧ a.act = .accept readID ∧ Silent readID p ∧
    Silent readID q
  act : s.act = .start readID
  state : s.node.state = .leader
  commit : s.node.commitIndex = index
  entry : ∃ e, s.node.raftLog.entry index = some e ∧ e.term = s.node.term
  leads : ∀ x ∈ ms, x.node.state = .leader ∧ x.node.term = s.node.term
  only : ∀ x ∈ ms, x.act.Concerns readID → ∃ m, x.act = .send m ∨ x.act = .ack m

/-- The answer `m` for round `readID` in the term of `s` has been received. -/
def Answered (readID : ℕ) (s x : Moment) (m : Message) : Prop :=
  x.call = .step m ∧ x.act = .ack m ∧ (m.type = .msgAppResp ∨ m.type = .msgSnapResp) ∧
    m.term = s.node.term ∧ m.readId = readID

/-- Distinct voters: the node itself and peers that have answered in `ms`. -/
structure RoundAcks (readID : ℕ) (s : Moment) (ms : List Moment) (r : Raft) (acks : List ℕ) :
    Prop where
  nodup : acks.Nodup
  source : ∀ i ∈ acks, i = s.node.id ∨ ∃ x ∈ ms, ∃ m, Answered readID s x m ∧ m.src = i
  voter : ∀ i ∈ acks, i ∈ Assoc.keys r.prs

/-- After the history `H` the moment `e` completes a round that a quorum has confirmed since its
start. -/
def Confirmed (H : List Moment) (e : Moment) (rs : ReadState) : Prop :=
  e.act = .complete rs ∧ ∃ s ms acks, Opened H rs.readID rs.index s ms ∧
    e.node.state = .leader ∧ e.node.term = s.node.term ∧
    RoundAcks rs.readID s ms e.node acks ∧ e.node.quorum ≤ acks.length

/-- Where round `readID` stands after the history `H`. -/
inductive Stage (readID : ℕ) (H : List Moment) (r : Raft) : Prop
  | fresh (none : Assoc.get readID r.readRounds = none) (silent : Silent readID H)
  | pending {p q : List Moment} {a : Moment} {round : ReadRound}
      (get : Assoc.get readID r.readRounds = some round) (unstarted : round.started = false)
      (split : H = p ++ a :: q) (act : a.act = .accept readID) (before : Silent readID p)
      (after : Silent readID q)
  | running {s : Moment} {q : List Moment} {round : ReadRound}
      (get : Assoc.get readID r.readRounds = some round) (started : round.started = true)
      (opened : Opened H readID round.index s q) (state : r.state = .leader)
      (term : r.term = s.node.term) (acked : RoundAcks readID s q r round.acks)
  | emitted {G q : List Moment} {e : Moment} {rs : ReadState}
      (none : Assoc.get readID r.readRounds = none) (split : H = G ++ e :: q)
      (id : rs.readID = readID) (confirmed : Confirmed G e rs) (after : Silent readID q)
  | dropped (none : Assoc.get readID r.readRounds = none)
      (accepted : ∃ x ∈ H, x.act = .accept readID)
      (open_ : ∀ x ∈ H, ∀ rs, x.act = .complete rs → rs.readID ≠ readID)

/-! ### One assignment -/

/-- What an assignment does to the round `readID`. -/
inductive RoundChange (c : Call) (readID : ℕ) (r : Raft) (a : Act) (s : Raft) : Prop
  | same (get : Assoc.get readID s.readRounds = Assoc.get readID r.readRounds)
      (silent : ¬a.Concerns readID) (state : s.state = r.state) (term : s.term = r.term)
      (keys : Assoc.keys s.prs = Assoc.keys r.prs)
  | lost (none : Assoc.get readID s.readRounds = none) (silent : ¬a.Concerns readID)
  | sent {m : Message} {round : ReadRound} (act : a = .send m) (next : s = r.send m)
      (get : Assoc.get readID r.readRounds = some round) (started : round.started = true)
  | started {round : ReadRound} (act : a = .start readID)
      (next : s = r.setRound readID r.startedRound)
      (get : Assoc.get readID r.readRounds = some round) (unstarted : round.started = false)
      (state : r.state = .leader)
      (term : r.raftLog.term r.commitIndex = some r.term)
  | acked {m : Message} {round : ReadRound} (act : a = .ack m) (call : c = .step m)
      (type : m.type = .msgAppResp ∨ m.type = .msgSnapResp) (id : m.readId = readID)
      (term : m.term = r.term) (voter : m.src ∈ Assoc.keys r.prs)
      (next : s = r.setRound readID { round with acks := round.acks.insert m.src })
      (get : Assoc.get readID r.readRounds = some round) (started : round.started = true)
  | completed {round : ReadRound} (act : a = .complete { readID := readID, index := round.index })
      (next : s = { r with
        readStates := r.readStates ++ [{ readID := readID, index := round.index }]
        readRounds := Assoc.erase readID r.readRounds })
      (get : Assoc.get readID r.readRounds = some round) (started : round.started = true)
      (quorum : r.quorum ≤ round.acks.length)

namespace Raft

variable {c : Call} {r s : Raft} {a : Act} {readID : ℕ}

theorem Moves.round (h : r.Moves c a s) (hr : r.Tidy) (h0 : readID ≠ 0) :
    RoundChange c readID r a s := by
  cases h with
  | work h =>
    obtain ⟨hstate, hterm, -, hrounds, -, -⟩ := h.same
    exact .same (by rw [hrounds]) (fun h => h) hstate hterm h.keys
  | fall h => exact .lost (by simp [h.rounds]) fun h => h
  | lead hs =>
    refine .lost ?_ fun h => h
    change Assoc.get readID r.readRounds = none
    simp [hr.rounds (by simp [hs])]
  | @send m hl hm ht ho =>
    by_cases hid : m.readId = readID
    · rcases ho with hzero | ⟨round, hget, hst⟩
      · exact absurd (hid.symm.trans hzero) h0
      · exact .sent rfl rfl (hid ▸ hget) hst
    · exact .same rfl hid rfl rfl rfl
  | @cancel id =>
    by_cases hid : readID = id
    · exact .lost (by simp [cancelReadIndex, Assoc.get_erase, hid]) fun h => h
    · exact .same (by simp [cancelReadIndex, Assoc.get_erase, hid]) (fun h => h) rfl rfl rfl
  | @start id round hl hget hst hpos hterm =>
    by_cases hid : readID = id
    · subst hid
      exact .started rfl rfl hget hst hl hterm
    · exact .same (Assoc.get_set_of_ne hid _ _) (fun h => hid h.symm) rfl rfl rfl
  | @ack m round hc hm hl ht hp hget hst =>
    by_cases hid : m.readId = readID
    · subst hid
      exact .acked rfl hc hm rfl ht hp rfl hget hst
    · exact .same (Assoc.get_set_of_ne (Ne.symm hid) _ _) hid rfl rfl rfl
  | @complete id round hl hget hst hq =>
    rw [completeReadRound_eq hget]
    by_cases hid : readID = id
    · subst hid
      exact .completed rfl rfl hget hst hq
    · exact .same (by simp [Assoc.get_erase, hid]) (fun h => hid h.symm) rfl rfl rfl

end Raft

theorem RaftLog.exists_entry_of_term {l : RaftLog} {i t : ℕ} (h : l.term i = some t) (ht : 0 < t) :
    ∃ e, l.entry i = some e ∧ e.term = t := by
  unfold RaftLog.term at h
  split_ifs at h with hout
  · cases h
    exact absurd ht (lt_irrefl 0)
  · obtain ⟨e, he, het⟩ := Option.map_eq_some_iff.mp h
    push Not at hout
    exact ⟨e, by simp [RaftLog.entry, hout.1, he], het⟩

section

variable {c : Call} {r r' s : Raft} {a : Act} {readID index : ℕ} {H ms : List Moment}
  {x st : Moment} {acks : List ℕ}

/-- No round `readID` is completed in `ms`. -/
def Uncompleted (readID : ℕ) (ms : List Moment) : Prop :=
  ∀ x ∈ ms, ∀ rs, x.act = .complete rs → rs.readID ≠ readID

theorem Silent.concat (h : Silent readID ms) (hx : ¬x.act.Concerns readID) :
    Silent readID (ms ++ [x]) := by
  intro y hy
  rcases List.mem_append.mp hy with hy | hy
  · exact h y hy
  · exact List.mem_singleton.mp hy ▸ hx

theorem Silent.uncompleted (h : Silent readID ms) : Uncompleted readID ms := by
  intro x hx rs hact hid
  apply h x hx
  rw [hact]
  exact hid

theorem Uncompleted.append {ms' : List Moment} (h : Uncompleted readID ms)
    (h' : Uncompleted readID ms') : Uncompleted readID (ms ++ ms') := by
  intro x hx
  rcases List.mem_append.mp hx with hx | hx
  · exact h x hx
  · exact h' x hx

theorem Uncompleted.cons (h : Uncompleted readID ms)
    (hx : ∀ rs, x.act = .complete rs → rs.readID ≠ readID) : Uncompleted readID (x :: ms) := by
  intro y hy
  rcases List.mem_cons.mp hy with rfl | hy
  · exact hx
  · exact h y hy

theorem Uncompleted.concat (h : Uncompleted readID ms) (hx : ¬x.act.Concerns readID) :
    Uncompleted readID (ms ++ [x]) := by
  refine h.append (Silent.uncompleted fun y hy => ?_)
  exact List.mem_singleton.mp hy ▸ hx

theorem Opened.uncompleted (h : Opened H readID index st ms) : Uncompleted readID H := by
  obtain ⟨p, b, q, rfl, hb, hp, hq⟩ := h.split
  have hms : Uncompleted readID ms := by
    intro x hx rs hact hid
    obtain ⟨m, hm | hm⟩ := h.only x hx (by rw [hact]; exact hid)
    · cases hact.symm.trans hm
    · cases hact.symm.trans hm
  refine hp.uncompleted.append (.cons (hq.uncompleted.append (.cons hms ?_)) ?_)
  · intro rs hact
    cases h.act.symm.trans hact
  · intro rs hact
    cases hb.symm.trans hact

theorem Opened.concat (h : Opened H readID index st ms)
    (hx : x.node.state = .leader ∧ x.node.term = st.node.term)
    (hact : x.act.Concerns readID → ∃ m, x.act = .send m ∨ x.act = .ack m) :
    Opened (H ++ [x]) readID index st (ms ++ [x]) where
  split := by
    obtain ⟨p, b, q, rfl, hb, hp, hq⟩ := h.split
    exact ⟨p, b, q, by simp, hb, hp, hq⟩
  act := h.act
  state := h.state
  commit := h.commit
  entry := h.entry
  leads y hy := by
    rcases List.mem_append.mp hy with hy | hy
    · exact h.leads y hy
    · exact List.mem_singleton.mp hy ▸ hx
  only y hy := by
    rcases List.mem_append.mp hy with hy | hy
    · exact h.only y hy
    · exact List.mem_singleton.mp hy ▸ hact

theorem RoundAcks.concat (h : RoundAcks readID st ms r acks) (x : Moment)
    (hk : Assoc.keys r'.prs = Assoc.keys r.prs) : RoundAcks readID st (ms ++ [x]) r' acks where
  nodup := h.nodup
  source i hi := by
    rcases h.source i hi with heq | ⟨y, hy, hm⟩
    · exact Or.inl heq
    · exact Or.inr ⟨y, List.mem_append_left _ hy, hm⟩
  voter i hi := hk ▸ h.voter i hi

theorem RoundAcks.insert {m : Message} (h : RoundAcks readID st ms r acks)
    (hx : Answered readID st x m)
    (hv : m.src ∈ Assoc.keys r.prs) (hk : Assoc.keys r'.prs = Assoc.keys r.prs) :
    RoundAcks readID st (ms ++ [x]) r' (acks.insert m.src) where
  nodup := h.nodup.insert
  source i hi := by
    rcases List.mem_insert_iff.mp hi with rfl | hi
    · exact Or.inr ⟨x, by simp, m, hx, rfl⟩
    · exact (h.concat x rfl).source i hi
  voter i hi := by
    rw [hk]
    rcases List.mem_insert_iff.mp hi with rfl | hi
    · exact hv
    · exact h.voter i hi

/-! ### The stages -/

namespace Stage

/-- An assignment that does not touch the round. -/
theorem same (h : Stage readID H r)
    (hget : Assoc.get readID s.readRounds = Assoc.get readID r.readRounds)
    (hx : ¬a.Concerns readID) (hstate : s.state = r.state) (hterm : s.term = r.term)
    (hkeys : Assoc.keys s.prs = Assoc.keys r.prs) :
    Stage readID (H ++ [⟨c, a, r, s⟩]) s := by
  cases h with
  | fresh none silent => exact .fresh (hget.trans none) (silent.concat hx)
  | pending get unstarted split act before after =>
    refine .pending (hget.trans get) unstarted ?_ act before (after.concat (x := ⟨c, a, r, s⟩) hx)
    simp [split]
  | running get started opened state term acked =>
    refine .running (hget.trans get) started
      (opened.concat ⟨hstate.trans state, hterm.trans term⟩ (absurd · hx))
      (hstate.trans state) (hterm.trans term) (acked.concat _ hkeys)
  | emitted none split id confirmed after =>
    refine .emitted (hget.trans none) ?_ id confirmed (after.concat (x := ⟨c, a, r, s⟩) hx)
    simp [split]
  | dropped none accepted uncompleted =>
    obtain ⟨y, hy, hact⟩ := accepted
    exact .dropped (hget.trans none) ⟨y, List.mem_append_left _ hy, hact⟩
      (Uncompleted.concat uncompleted hx)

/-- An assignment that loses the round. -/
theorem lost (h : Stage readID H r) (hnone : Assoc.get readID s.readRounds = none)
    (hx : ¬a.Concerns readID) :
    Stage readID (H ++ [⟨c, a, r, s⟩]) s := by
  cases h with
  | fresh none silent => exact .fresh hnone (silent.concat hx)
  | pending get unstarted split act before after =>
    refine .dropped hnone ⟨_, ?_, act⟩ (Uncompleted.concat ?_ hx)
    · simp [split]
    · rw [split]
      refine before.uncompleted.append (.cons after.uncompleted fun rs hact => ?_)
      cases act.symm.trans hact
  | running get started opened state term acked =>
    obtain ⟨p, b, q, hH, hb, -⟩ := opened.split
    refine .dropped hnone ⟨b, ?_, hb⟩ (opened.uncompleted.concat hx)
    simp [hH]
  | emitted none split id confirmed after =>
    refine .emitted hnone ?_ id confirmed (after.concat (x := ⟨c, a, r, s⟩) hx)
    simp [split]
  | dropped none accepted uncompleted =>
    obtain ⟨y, hy, hact⟩ := accepted
    exact .dropped hnone ⟨y, List.mem_append_left _ hy, hact⟩ (Uncompleted.concat uncompleted hx)

variable {round : ReadRound}

/-- A round that has not been started is pending. -/
theorem of_unstarted (h : Stage readID H r)
    (hget : Assoc.get readID r.readRounds = some round) (hst : round.started = false) :
    ∃ p b q, H = p ++ b :: q ∧ b.act = .accept readID ∧ Silent readID p ∧ Silent readID q := by
  cases h with
  | pending get unstarted split act before after => exact ⟨_, _, _, split, act, before, after⟩
  | running get started =>
    cases get.symm.trans hget
    simp [started] at hst
  | fresh none | emitted none | dropped none => cases none.symm.trans hget

/-- A round that has been started is running. -/
theorem of_started (h : Stage readID H r)
    (hget : Assoc.get readID r.readRounds = some round) (hst : round.started = true) :
    ∃ st ms, Opened H readID round.index st ms ∧ r.state = .leader ∧ r.term = st.node.term ∧
      RoundAcks readID st ms r round.acks := by
  cases h with
  | running get started opened state term acked =>
    cases get.symm.trans hget
    exact ⟨_, _, opened, state, term, acked⟩
  | pending get unstarted =>
    cases get.symm.trans hget
    simp [unstarted] at hst
  | fresh none | emitted none | dropped none => cases none.symm.trans hget

theorem start (h : Stage readID H r) (hr : r.Tidy)
    (hget : Assoc.get readID r.readRounds = some round) (hst : round.started = false)
    (hl : r.state = .leader) (hterm : r.raftLog.term r.commitIndex = some r.term) :
    Stage readID (H ++ [⟨c, .start readID, r, r.setRound readID r.startedRound⟩])
      (r.setRound readID r.startedRound) := by
  obtain ⟨p, b, q, rfl, hb, hp, hq⟩ := h.of_unstarted hget hst
  refine .running (s := ⟨c, .start readID, r, r.setRound readID r.startedRound⟩) (q := [])
    (r.get_setRound readID r.startedRound) rfl ?_ hl rfl ?_
  · constructor
    · exact ⟨p, b, q, by simp, hb, hp, hq⟩
    · rfl
    · exact hl
    · rfl
    · exact RaftLog.exists_entry_of_term hterm (hr.term (by simp [hl]))
    · simp
    · simp
  · constructor
    · exact List.nodup_singleton _
    · intro i hi
      exact Or.inl (List.mem_singleton.mp hi)
    · intro i hi
      exact List.mem_singleton.mp hi ▸ hr.peer hl

theorem move (h : Stage readID H r) (hr : r.Tidy) (hm : RoundChange c readID r a s) :
    Stage readID (H ++ [⟨c, a, r, s⟩]) s := by
  cases hm with
  | same get silent state term keys => exact h.same get silent state term keys
  | lost none silent => exact h.lost none silent
  | @sent m round act next get started =>
    obtain ⟨st, ms, opened, state, term, acked⟩ := h.of_started get started
    subst act next
    exact .running get started (opened.concat ⟨state, term⟩ fun _ => ⟨m, Or.inl rfl⟩) state term
      (acked.concat _ rfl)
  | started act next get unstarted state term =>
    subst act next
    exact h.start hr get unstarted state term
  | @acked m round act call type id term voter next get started =>
    obtain ⟨st, ms, opened, state, hterm, acked⟩ := h.of_started get started
    subst act next
    have hx (n : Raft) : Answered readID st ⟨c, .ack m, r, n⟩ m :=
      ⟨call, rfl, type, term.trans hterm, id⟩
    exact .running (r.get_setRound readID _) started
      (opened.concat ⟨state, hterm⟩ fun _ => ⟨m, Or.inr rfl⟩) state hterm
      (acked.insert (hx _) voter rfl)
  | @completed round act next get started quorum =>
    obtain ⟨st, ms, opened, state, term, acked⟩ := h.of_started get started
    subst act next
    refine .emitted (q := []) ?_ rfl rfl ⟨rfl, st, ms, round.acks, opened, state, term, ?_, ?_⟩ ?_
    · simp [Assoc.get_erase]
    · exact { acked with }
    · exact quorum
    · simp [Silent]

end Stage

/-! ### Runs -/

/-- What the history `H` says about the node, with what has been taken from it before. -/
structure Recounted (reads : List ReadState) (sent : List Message) (H : List Moment) (r : Raft) :
    Prop where
  tidy : r.Tidy
  stage : ∀ readID, readID ≠ 0 → Stage readID H r
  reads : reads ++ r.readStates = H.filterMap Moment.readState
  sent : (sent ++ r.msgs).filter (fun m => m.Replicates) = H.filterMap Moment.message
  changes : ∀ x ∈ H, x.node.state ≠ x.before.state ∨ x.node.term ≠ x.before.term →
    x.node.readRounds = []
  nonzero : Uncompleted 0 H

variable {reads : List ReadState} {sent : List Message}

/-- The read states and messages of one assignment. -/
theorem Raft.Moves.adds (h : r.Moves c a s) :
    s.readStates = r.readStates ++ (Moment.readState ⟨c, a, r, s⟩).toList ∧
      ∃ ms, s.msgs = r.msgs ++ ms ∧
        ms.filter (fun m => m.Replicates) = (Moment.message ⟨c, a, r, s⟩).toList := by
  cases h with
  | work h =>
    obtain ⟨-, -, -, -, hreads, hmsgs⟩ := h.same
    exact ⟨by simp [hreads, Moment.readState], [], by simp [hmsgs], rfl⟩
  | fall h =>
    obtain ⟨ms, hms, hall⟩ := h.sent
    refine ⟨by simp [h.reads, Moment.readState], ms, hms, ?_⟩
    simpa [Moment.message] using hall
  | send hl hm =>
    exact ⟨by simp [Raft.send, Moment.readState], [_], rfl, by simp [hm, Moment.message]⟩
  | complete hl hget =>
    rw [completeReadRound_eq hget]
    exact ⟨rfl, [], by simp, rfl⟩
  | lead | cancel | start | ack =>
    exact ⟨(List.append_nil _).symm, [], (List.append_nil _).symm, rfl⟩

/-- A change of role or term leaves no round. -/
theorem Raft.Moves.rounds_eq_nil (h : r.Moves c a s) (hr : r.Tidy)
    (hne : s.state ≠ r.state ∨ s.term ≠ r.term) : s.readRounds = [] := by
  cases h with
  | work h =>
    obtain ⟨hstate, hterm, -⟩ := h.same
    simp [hstate, hterm] at hne
  | fall h => exact h.rounds
  | lead hs => exact hr.rounds (by simp [hs])
  | complete hl hget =>
    rw [completeReadRound_eq hget] at hne
    simp [Raft.term] at hne
  | send | cancel | start | ack =>
    exact absurd hne (by simp [Raft.term, Raft.send, cancelReadIndex, setRound])

theorem filterMap_singleton {α β : Type} (f : α → Option β) (x : α) :
    [x].filterMap f = (f x).toList := by
  cases h : f x <;> simp [h]

namespace Recounted

section

variable (h : Recounted reads sent H r)

include h

theorem move (hm : r.Moves c a s) :
    Recounted reads sent (H ++ [⟨c, a, r, s⟩]) s := by
  obtain ⟨hreads, ms, hmsgs, hfilter⟩ := hm.adds
  constructor
  · exact hm.tidy h.tidy
  · intro readID h0
    exact (h.stage readID h0).move h.tidy (hm.round h.tidy h0)
  · rw [hreads, ← List.append_assoc, h.reads, List.filterMap_append, filterMap_singleton]
  · rw [hmsgs, ← List.append_assoc, List.filter_append, h.sent, hfilter, List.filterMap_append,
      filterMap_singleton]
  · intro x hx
    rcases List.mem_append.mp hx with hx | hx
    · exact h.changes x hx
    · rw [List.mem_singleton.mp hx]
      exact hm.rounds_eq_nil h.tidy
  · refine h.nonzero.append fun x hx rs hact => ?_
    rw [List.mem_singleton.mp hx] at hact
    cases hm with
    | complete hl hget =>
      cases hact
      exact h.tidy.readID_ne hget
    | _ => cases hact

theorem passes (hp : Passes c r ms s) :
    Recounted reads sent (H ++ ms) s := by
  induction hp generalizing H with
  | nil => simpa using h
  | cons hm rest ih =>
    have := ih (h.move hm)
    rwa [List.append_assoc] at this

/-- A round whose id has not been accepted before is accepted. -/
theorem accept (hl : r.state = .leader) (h0 : readID ≠ 0)
    (hget : Assoc.get readID r.readRounds = none) (hfresh : ∀ x ∈ H, x.act ≠ .accept readID) :
    Recounted reads sent (H ++ [⟨.readIndex readID, .accept readID, r, r.setRound readID {}⟩])
      (r.setRound readID {}) := by
  constructor
  · exact h.tidy.setRound hl h0 _
  · intro k hk
    by_cases hid : k = readID
    · subst hid
      cases h.stage k hk with
      | fresh none silent =>
        exact .pending (r.get_setRound k {}) rfl rfl rfl silent (by simp [Silent])
      | pending get | running get => cases hget.symm.trans get
      | emitted none split id confirmed =>
        obtain ⟨-, st, ms, acks, opened, -⟩ := confirmed
        obtain ⟨p, b, q, rfl, hb, -⟩ := opened.split
        exact absurd (id ▸ hb) (hfresh b (by simp [split]))
      | dropped none accepted =>
        obtain ⟨x, hx, hact⟩ := accepted
        exact absurd hact (hfresh x hx)
    · exact (h.stage k hk).same (Assoc.get_set_of_ne hid _ _) (fun heq => hid heq.symm) rfl rfl rfl
  · rw [List.filterMap_append]
    exact h.reads.trans (List.append_nil _).symm
  · rw [List.filterMap_append]
    exact h.sent.trans (List.append_nil _).symm
  · intro x hx
    rcases List.mem_append.mp hx with hx | hx
    · exact h.changes x hx
    · rw [List.mem_singleton.mp hx]
      simp [setRound, Raft.term]
  · refine h.nonzero.append fun x hx rs hact => ?_
    rw [List.mem_singleton.mp hx] at hact
    cases hact

theorem take :
    Recounted (reads ++ r.readStates) (sent ++ r.msgs) (H ++ [⟨.ready, .take, r, r.advance⟩])
      r.advance := by
  constructor
  · exact h.tidy.congr rfl rfl rfl rfl rfl
  · intro readID h0
    exact (h.stage readID h0).same rfl (fun h => h) rfl rfl rfl
  · rw [List.filterMap_append, ← h.reads]
    rfl
  · rw [List.filter_append, List.filterMap_append, h.sent]
    rfl
  · intro x hx
    rcases List.mem_append.mp hx with hx | hx
    · exact h.changes x hx
    · rw [List.mem_singleton.mp hx]
      simp [advance, Raft.term]
  · refine h.nonzero.append fun x hx rs hact => ?_
    rw [List.mem_singleton.mp hx] at hact
    cases hact

/-- Every read state comes from one confirmed round. -/
theorem confirmed {rs : ReadState}
    (hrs : rs ∈ reads ++ r.readStates) : ∃ G e q, H = G ++ e :: q ∧ Confirmed G e rs ∧
      Uncompleted rs.readID G ∧ Silent rs.readID q := by
  obtain ⟨x, hx, hxs⟩ := List.mem_filterMap.mp (h.reads ▸ hrs)
  have hact : x.act = .complete rs := by
    unfold Moment.readState at hxs
    split at hxs
    · next hact => rw [hact, Option.some.inj hxs]
    · cases hxs
  have concerned : x.act.Concerns rs.readID := by
    rw [hact]
    rfl
  cases h.stage rs.readID (h.nonzero x hx rs hact) with
  | fresh none silent => exact absurd concerned (silent x hx)
  | pending get unstarted split act before after =>
    rw [split] at hx
    have := before.uncompleted.append
      (.cons after.uncompleted fun rs' hact' => by cases act.symm.trans hact')
    exact absurd rfl (this x hx rs hact)
  | running get started opened => exact absurd rfl (opened.uncompleted x hx rs hact)
  | dropped none accepted uncompleted => exact absurd rfl (uncompleted x hx rs hact)
  | @emitted G q e rs' none split id confirmed after =>
    obtain ⟨hcomplete, st, ms, acks, opened, rest⟩ := confirmed
    have hG : Uncompleted rs.readID G := id ▸ opened.uncompleted
    rw [split] at hx
    rcases List.mem_append.mp hx with hx | hx
    · exact absurd rfl (hG x hx rs hact)
    · rcases List.mem_cons.mp hx with rfl | hx
      · cases hact.symm.trans hcomplete
        exact ⟨G, x, q, split, ⟨hcomplete, st, ms, acks, opened, rest⟩, hG, after⟩
      · exact absurd concerned (after x hx)

end

end Recounted

theorem Raft.Passes.act_ne_accept (h : Passes c r ms s) : ∀ x ∈ ms, x.act ≠ .accept readID := by
  induction h with
  | nil => simp
  | cons hm _ ih =>
    intro x hx
    rcases List.mem_cons.mp hx with rfl | hx
    · cases hm <;> simp
    · exact ih x hx

end

/-- The history of a run in which no id is passed twice. -/
structure Usage.Told (u : Usage) (r : Raft) (H : List Moment) : Prop where
  idle : r.Idle
  unfolds : Unfolds r u.calls H u.node
  recounted : Recounted u.reads u.sent H u.node
  asked : ∀ x ∈ H, ∀ readID, x.act = .accept readID → readID ∈ u.asked

namespace Usage

variable {u u' : Usage} {c : Call} {r : Raft} {H : List Moment}

theorem act_eq_some (h : u.act c = some u') : ∃ s, u.node.call c = some s ∧ u' =
    { node := s
      calls := u.calls ++ [c]
      reads := if c = .ready then u.reads ++ u.node.readStates else u.reads
      sent := if c = .ready then u.sent ++ u.node.msgs else u.sent } := by
  obtain ⟨s, hs, heq⟩ := Option.map_eq_some_iff.mp h
  exact ⟨s, hs, heq.symm⟩

theorem asked_sublist (h : u.act c = some u') : u.asked.Sublist u'.asked := by
  obtain ⟨s, -, rfl⟩ := act_eq_some h
  simp [asked]

theorem asked_readIndex {readID : ℕ} (h : u.act (.readIndex readID) = some u') :
    u'.asked = u.asked ++ [readID] := by
  obtain ⟨s, -, rfl⟩ := act_eq_some h
  simp [asked]

theorem Told.init (h : r.Idle) : Told { node := r } r [] where
  idle := h
  unfolds := .nil
  recounted :=
    { tidy :=
        { rounds := fun _ => h.rounds
          zero := by simp [h.rounds]
          nodup := by simp [h.rounds, Assoc.keys]
          peer := fun hl => nomatch h.state.symm.trans hl
          term := fun hne => absurd h.state hne }
      stage := fun readID _ => .fresh (by simp [h.rounds]) (by simp [Silent])
      reads := by simp [h.reads]
      sent := by simp [h.msgs]
      changes := by simp
      nonzero := by simp [Uncompleted] }
  asked := by simp

/-- An accepted `ReadIndex`. -/
theorem Told.accept {readID : ℕ} {s : Raft} (h : u.Told r H)
    (hact : u.act (.readIndex readID) = some u')
    (hread : u.node.readIndex readID = some (s, true)) (hnew : readID ∉ u.asked) :
    ∃ H', u'.Told r H' := by
  have hasked := asked_readIndex hact
  obtain ⟨t, hcall, rfl⟩ := act_eq_some hact
  have hts : s = t := by simpa [call, hread] using hcall
  subst hts
  obtain ⟨hb, -⟩ | ⟨-, hl, h0, hget, ms, hms⟩ := readIndex_cases hread
  · cases hb
  have hfresh : ∀ x ∈ H, x.act ≠ .accept readID :=
    fun x hx hx' => hnew (h.asked x hx readID hx')
  refine ⟨_, h.idle, .accepted h.unfolds hread hms, ?_, ?_⟩
  · have := (h.recounted.accept hl h0 hget hfresh).passes hms
    rwa [List.append_assoc] at this
  · intro x hx k hk
    rw [hasked, List.mem_append]
    rcases List.mem_append.mp hx with hx | hx
    · exact Or.inl (h.asked x hx k hk)
    · rcases List.mem_cons.mp hx with rfl | hx
      · cases hk
        exact Or.inr (List.mem_singleton_self _)
      · exact absurd hk (hms.act_ne_accept x hx)

/-- A call that accepts no round and takes nothing. -/
theorem Told.call {ms : List Moment} (h : u.Told r H) (hact : u.act c = some u')
    (hready : c ≠ .ready)
    (hread : ∀ readID, c = .readIndex readID → u.node.readIndex readID = some (u'.node, false))
    (hp : Passes c u.node ms u'.node) : u'.Told r (H ++ ms) := by
  have hsub := asked_sublist hact
  obtain ⟨s, hcall, rfl⟩ := act_eq_some hact
  constructor
  · exact h.idle
  · exact .call h.unfolds hcall hready hread hp
  · simp only [if_neg hready]
    exact h.recounted.passes hp
  · intro x hx k hk
    rcases List.mem_append.mp hx with hx | hx
    · exact hsub.subset (h.asked x hx k hk)
    · exact absurd hk (hp.act_ne_accept x hx)

theorem Told.take (h : u.Told r H) (hact : u.act .ready = some u') : ∃ H', u'.Told r H' := by
  have hsub := asked_sublist hact
  obtain ⟨s, hcall, rfl⟩ := act_eq_some hact
  cases hcall
  refine ⟨_, h.idle, .taken h.unfolds, h.recounted.take, ?_⟩
  intro x hx k hk
  rcases List.mem_append.mp hx with hx | hx
  · exact hsub.subset (h.asked x hx k hk)
  · rw [List.mem_singleton.mp hx] at hk
    cases hk

theorem Told.step (h : u.Told r H) (hg : u.node.Counts c) (hact : u.act c = some u')
    (hf : u'.asked.Nodup) : ∃ H', u'.Told r H' := by
  by_cases hready : c = .ready
  · subst hready
    exact h.take hact
  obtain ⟨s, hcall, hu⟩ := act_eq_some hact
  by_cases hread : ∃ readID, c = .readIndex readID
  · obtain ⟨readID, rfl⟩ := hread
    obtain ⟨⟨t, b⟩, hx, rfl⟩ := Option.map_eq_some_iff.mp hcall
    cases b with
    | true =>
      rw [asked_readIndex hact] at hf
      refine h.accept hact hx fun hmem => ?_
      exact (List.nodup_append.mp hf).2.2 readID hmem readID (List.mem_singleton_self _) rfl
    | false =>
      obtain ⟨-, rfl⟩ | ⟨hb, -⟩ := readIndex_cases hx
      · have hnode : u'.node = u.node := by rw [hu]
        have hp : Passes (.readIndex readID) u.node [] u'.node := hnode ▸ .nil _
        refine ⟨_, h.call hact hready ?_ hp⟩
        rintro k ⟨⟩
        rw [hnode]
        exact hx
      · cases hb
  · push Not at hread
    have hnode : u'.node = s := by rw [hu]
    obtain ⟨ms, hms⟩ := call_does h.recounted.tidy hg hread hready hcall
    exact ⟨_, h.call hact hready (fun k hk => absurd hk (hread k)) (hnode ▸ hms)⟩

theorem exists_told (h : system.Reach (fun u c => u.node.Counts c) u) (hf : u.asked.Nodup) :
    ∃ r H, u.Told r H := by
  revert hf
  refine h.induct (I := fun u => u.asked.Nodup → ∃ r H, u.Told r H) ?_ ?_
  · rintro _ ⟨r, hr, rfl⟩ -
    exact ⟨r, [], .init hr⟩
  · intro u c u' _ ih hg hact hf
    obtain ⟨r, H, hH⟩ := ih ((asked_sublist hact).nodup hf)
    obtain ⟨H', hH'⟩ := hH.step hg hact hf
    exact ⟨r, H', hH'⟩

end Usage

/-- In a run of one node in which no id is passed to `ReadIndex` twice and the term counter
does not wrap around, every `ReadState` that is handed out or in hand completes one accepted
round, at the commit index of a moment after the call at which the node led and had an entry
of its own term there; since then it has led that term, distinct voters that form a quorum with
it have answered for the round, and only since then has it sent messages for the round. No
round survives a change of role or term. -/
theorem read_states_confirmed {u : Usage}
    (h : Usage.system.Reach (fun u c => u.node.Counts c) u) (hf : u.asked.Nodup) :
    ∃ r H, r.Idle ∧ Unfolds r u.calls H u.node ∧
      u.reads ++ u.node.readStates = H.filterMap Moment.readState ∧
      (u.sent ++ u.node.msgs).filter (fun m => m.Replicates) = H.filterMap Moment.message ∧
      (∀ rs ∈ u.reads ++ u.node.readStates, ∃ G e q, H = G ++ e :: q ∧ Confirmed G e rs ∧
        Uncompleted rs.readID G ∧ Silent rs.readID q) ∧
      ∀ x ∈ H, x.node.state ≠ x.before.state ∨ x.node.term ≠ x.before.term →
        x.node.readRounds = [] := by
  obtain ⟨r, H, hH⟩ := Usage.exists_told h hf
  exact ⟨r, H, hH.idle, hH.unfolds, hH.recounted.reads, hH.recounted.sent,
    fun _ => hH.recounted.confirmed, hH.recounted.changes⟩

namespace Usage

/-- A property that a computed run of a new node ends with holds in some reachable state. -/
theorem exists_reach (G : Usage → Call → Prop) [∀ u c, Decidable (G u c)] (P : Usage → Prop)
    [DecidablePred P] (cfg : Config) (cs : List Call)
    (h : (TransitionSystem.exec (TransitionSystem.guarded G (fun _ _ => True) act)
      { node := newRaft cfg } cs).any (fun u => P u) = true) : ∃ u, system.Reach G u ∧ P u :=
  TransitionSystem.exists_reach (S := system) (fun _ _ _ _ ha => ha) ⟨_, newRaft_idle cfg, rfl⟩
    P cs h

/-- Node 1 of three. -/
def first : Config where
  id := 1
  peers := [1, 2, 3]
  electionTimeout := 1
  heartbeatTimeout := 1

end Usage

/-- The leader of term 1 confirms round 7 with an answer of node 2. -/
theorem read_states_confirmed_first : ∃ u : Usage,
    Usage.system.Reach (fun u c => u.node.Counts c) u ∧ u.asked.Nodup ∧
    u.reads = [{ readID := 7, index := 1 }] ∧ ∃ r H G e q, Unfolds r u.calls H u.node ∧
      H = G ++ e :: q ∧ Confirmed G e { readID := 7, index := 1 } := by
  obtain ⟨u, hu, hf, hreads⟩ := Usage.exists_reach (fun u c => u.node.Counts c)
    (fun u => u.asked.Nodup ∧ u.reads = [{ readID := 7, index := 1 }]) Usage.first
    [.tick 0, .step { type := .msgVoteResp, src := 2, dst := 1, term := 1 },
      .step { type := .msgAppResp, src := 2, dst := 1, term := 1, logIndex := 1 }, .readIndex 7,
      .step { type := .msgAppResp, src := 2, dst := 1, term := 1, logIndex := 1, readId := 7 },
      .ready] (by decide +kernel)
  obtain ⟨r, H, -, hH, -, -, hconfirmed, -⟩ := read_states_confirmed hu hf
  obtain ⟨G, e, q, hsplit, he, -⟩ := hconfirmed { readID := 7, index := 1 } (by simp [hreads])
  exact ⟨u, hu, hf, hreads, r, H, G, e, q, hH, hsplit, he⟩

/-- A log shorter than the commit index and a term counter that has wrapped around to 0: the
leader of term 0 reads term 0 above the end of its log, and answers round 7 with its commit
index 3, at which it has had no entry since the call. -/
theorem read_state_without_entry : ∃ u u' u'' : Usage,
    Usage.system.Reach (fun _ _ => True) u ∧ u.act (.readIndex 7) = some u' ∧
    u'.act (.step { type := .msgAppResp, src := 2, dst := 1, logIndex := 2, readId := 7 }) =
      some u'' ∧ u''.asked.Nodup ∧ u''.node.readStates = [{ readID := 7, index := 3 }] ∧
    ∀ v ∈ [u, u', u''], v.node.state = .leader ∧ v.node.commitIndex = 3 ∧
      v.node.raftLog.entry 3 = none := by
  let answer : Message := { type := .msgAppResp, src := 2, dst := 1, logIndex := 2, readId := 7 }
  let shorter (v : Usage) : Bool :=
    v.node.state = .leader ∧ v.node.commitIndex = 3 ∧ v.node.raftLog.entry 3 = none
  obtain ⟨u, hu, hshort, hnext⟩ := Usage.exists_reach (fun _ _ => True)
    (fun u => shorter u ∧ (u.act (.readIndex 7)).any (fun u' => shorter u' ∧
      (u'.act (.step answer)).any fun u'' => u''.asked.Nodup ∧ shorter u'' ∧
        u''.node.readStates = [{ readID := 7, index := 3 }]) = true)
    Usage.first
    [.step { type := .msgApp, src := 2, dst := 1, term := 1, commit := 3,
             entries := [{ term := 1, index := 1 }, { term := 1, index := 2 },
               { term := 1, index := 3 }] },
      .step { type := .msgApp, src := 2, dst := 1, term := 1, commit := 3,
              entries := [{ term := 1, index := 1 }] },
      .step { type := .msgVoteResp, src := 2, dst := 1, term := 2 ^ 64 - 1 }, .tick 0,
      .step { type := .msgVoteResp, src := 2, dst := 1 }] (by decide +kernel)
  obtain ⟨u', hu', hnext⟩ := (Option.any_eq_true _ _).mp hnext
  obtain ⟨hshort', hnext⟩ := of_decide_eq_true hnext
  obtain ⟨u'', hu'', hnext⟩ := (Option.any_eq_true _ _).mp hnext
  obtain ⟨hf, hshort'', hreads⟩ := of_decide_eq_true hnext
  refine ⟨u, u', u'', hu, hu', hu'', hf, hreads, fun v hv => of_decide_eq_true ?_⟩
  simp only [List.mem_cons, List.not_mem_nil, or_false] at hv
  rcases hv with rfl | rfl | rfl
  · exact hshort
  · exact hshort'
  · exact hshort''

end Mizu
