import Mizu.Cluster.Bounds
import Mizu.Cluster.LogMatching

/-!
# Committed entries stay in the log

None of the three places that shorten a log looks at the commit index. Where a message
reaches the commit index of its receiver with the entry that stands there, where the back-off
stops above it and where a snapshot is not behind it, log matching makes sure that what is
replaced below it is replaced by itself.
-/

namespace Mizu

open Raft Cluster

variable {r s : Raft} {m : Message}

/-- The entry that a `MsgApp` carries for index `i`. -/
def Message.carried (m : Message) (i : ℕ) : Option Entry := m.entries[i - (m.logIndex + 1)]?

/-- What `m` replaces or removes at `r` is above the commit index, or the message carries an
entry of the same term for the commit index. -/
structure Raft.AboveCommit (r : Raft) (m : Message) : Prop where
  append : m.type = .msgApp → r.term ≤ m.term → m.logIndex ≤ r.raftLog.lastIndex →
    r.raftLog.term m.logIndex = some m.logTerm → m.entries ≠ [] →
    r.raftLog.firstIndex ≤ m.logIndex ∧ (m.logIndex < r.commitIndex →
      r.raftLog.term r.commitIndex = (m.carried r.commitIndex).map Entry.term)
  conflict : m.type = .msgApp → r.term ≤ m.term → m.logIndex ≤ r.raftLog.lastIndex →
    r.raftLog.firstIndex ≤ m.logIndex → ∀ t ∈ r.raftLog.term m.logIndex, m.logTerm ≠ t →
    ∃ k < m.logIndex, r.raftLog.firstIndex ≤ k ∧ r.commitIndex ≤ k ∧ r.raftLog.term k ≠ some t
  snapshot : m.type = .msgSnap → r.term ≤ m.term → ∀ snap ∈ m.snapshot,
    r.raftLog.firstIndex < snap.index → r.commitIndex ≤ snap.index

instance (r : Raft) (m : Message) : Decidable (r.AboveCommit m) :=
  have : Decidable (m.type = .msgApp → r.term ≤ m.term → m.logIndex ≤ r.raftLog.lastIndex →
      r.raftLog.firstIndex ≤ m.logIndex → ∀ t ∈ r.raftLog.term m.logIndex, m.logTerm ≠ t →
      ∃ k < m.logIndex, r.raftLog.firstIndex ≤ k ∧ r.commitIndex ≤ k ∧
        r.raftLog.term k ≠ some t) := inferInstance
  have : Decidable (m.type = .msgSnap → r.term ≤ m.term → ∀ snap ∈ m.snapshot,
      r.raftLog.firstIndex < snap.index → r.commitIndex ≤ snap.index) := inferInstance
  decidable_of_iff (_ ∧ _ ∧ _)
    ⟨fun h => Raft.AboveCommit.mk h.1 h.2.1 h.2.2, fun h => ⟨h.append, h.conflict, h.snapshot⟩⟩

/-- Every message that is delivered spares what its receiver has committed. -/
def SparesCommit (c : Cluster) : Action → Prop :=
  c.Delivering fun p => (c.nodes p.msg.dst).AboveCommit p.msg

instance (c : Cluster) (a : Action) : Decidable (SparesCommit c a) :=
  inferInstanceAs (Decidable (c.Delivering _ a))

theorem Raft.AboveCommit.congr (h : r.AboveCommit m) (hlog : s.raftLog = r.raftLog)
    (hc : s.commitIndex = r.commitIndex) (ht : s.term ≤ m.term → r.term ≤ m.term) :
    s.AboveCommit m := by
  constructor
  · intro hm hle
    rw [hlog, hc]
    exact h.append hm (ht hle)
  · intro hm hle
    rw [hlog, hc]
    exact h.conflict hm (ht hle)
  · intro hm hle
    rw [hlog, hc]
    exact h.snapshot hm (ht hle)

/-- The condition holds also for the term that the message has brought. -/
theorem Raft.AboveCommit.quiet (h : r.AboveCommit m) (he : r.Effect (some m) s)
    (hs : s.state ≠ .leader) (hm : s.msgs = r.msgs) (hup : m.type ≠ .msgHup) : s.AboveCommit m := by
  obtain ⟨⟨hlog, hcommit, -⟩, hcases⟩ := he.quiet hs hm
  apply h.congr hlog hcommit
  intro hle
  rcases hcases m rfl hup with heq | ⟨hlt, -⟩
  · exact heq ▸ hle
  · exact hlt.le

theorem Wired.type_ne_msgHup {S : Setup} {c : Cluster} {k : ℕ} {p : Packet} (hw : Wired S c)
    (hp : c.net[k]? = some p) : p.msg.type ≠ .msgHup := by
  intro hup
  have := hw.remote p (List.mem_of_getElem? hp)
  simp [isLocalMsg, hup] at this

theorem sparesCommit_stable (S : Setup) (G : Cluster → Action → Prop) :
    S.Stable G SparesCommit := by
  intro c k p r hr hp he hs hm hg p' hp'
  rw [Option.mem_def, getElem?_put_net _ _ hp] at hp'
  cases hp'
  rw [put_nodes_self]
  exact (hg p hp).quiet he hs hm ((Wired.of_reaches hr).type_ne_msgHup hp)

theorem Raft.AboveCommit.aboveSentinel (h : r.AboveCommit m) : r.AboveSentinel m := by
  intro hma hle hi
  constructor
  · intro hlt
    by_contra hno
    push Not at hno
    have hterm := RaftLog.term_of_lt_offset hlt
    have := (h.append hma hle hi (by rw [hterm, hno.1]) hno.2).1
    omega
  · intro hfirst t ht hne
    obtain ⟨k, hk, hoff, -, hne'⟩ := h.conflict hma hle hi hfirst t ht hne
    exact ⟨k, hk, hoff, hne'⟩

/-- Every node of such a run is given messages that cut above its sentinel. -/
theorem cuts_of_sparesCommit {S : Setup} {c : Cluster}
    (h : S.system.Reach (S.Within SparesCommit) c) :
    S.system.Reach (Calling Served.Cuts) c := by
  refine h.imp fun c a c' hr hg _ x hx => ?_
  cases a with
  | deliver k =>
    obtain ⟨p, hp, rfl⟩ := Option.map_eq_some_iff.mp hx
    exact ⟨(Numbering.of_reaches (.of_reach (sparesCommit_stable S) hr)).net p
      (List.mem_of_getElem? hp), (hg.2 p hp).aboveSentinel⟩
  | _ =>
    cases hx
    trivial

/-! ### One effect -/

/-- Where an append passes below the commit index, the message has the entry that stands
there. -/
theorem Raft.AboveCommit.exists_carried (h : r.AboveCommit m) (hma : m.type = .msgApp)
    (hle : r.term ≤ m.term) (hi : m.logIndex ≤ r.raftLog.lastIndex)
    (hterm : r.raftLog.term m.logIndex = some m.logTerm) (hne : m.entries ≠ [])
    (hin : r.commitIndex < r.raftLog.endIndex) (hlt : m.logIndex < r.commitIndex) :
    ∃ d e, r.raftLog.entry r.commitIndex = some d ∧ m.carried r.commitIndex = some e ∧
      d.term = e.term := by
  obtain ⟨hfirst, hcarried⟩ := h.append hma hle hi hterm hne
  have hoff : r.raftLog.offset ≤ r.commitIndex := hfirst.trans hlt.le
  obtain ⟨d, hd⟩ := RaftLog.exists_entry hoff hin
  have hmap := hcarried hlt
  rw [RaftLog.term_of_entry hd, eq_comm, Option.map_eq_some_iff] at hmap
  obtain ⟨e, he, heq⟩ := hmap
  exact ⟨d, e, hd, he, heq.symm⟩

/-- A `MsgSnap` leaves the log and the commit index alone, or its snapshot is installed. -/
theorem Raft.Effect.msgSnap_cases (h : r.Effect (some m) s) (hm : m.type = .msgSnap)
    (hs : s.state ≠ .leader) :
    (s.raftLog = r.raftLog ∧ s.commitIndex = r.commitIndex) ∨
      ∃ snap, m.snapshot = some snap ∧ m.term = r.term ∧ r.raftLog.offset < snap.index ∧
        s.raftLog = RaftLog.restore snap.index snap.term ∧
        s.commitIndex = max snap.index r.commitIndex := by
  cases h with
  | sends h =>
    cases h
    exact Or.inl ⟨rfl, rfl⟩
  | won hc hq h => exact absurd h.kept.state hs
  | bumped ht =>
    rw [becomeFollower_of_lt ht]
    exact Or.inl ⟨rfl, rfl⟩
  | installed _ _ ht hsnap hi => exact Or.inr ⟨_, hsnap, ht, hi, rfl, rfl⟩
  | unsnapped => exact Or.inl ⟨rfl, rfl⟩
  | stood hup => simp [hup _ rfl] at hm
  | campaigned hup => simp [hup _ rfl] at hm
  | counted hm' | lost hm' | granted hm' | refused hm' | stale hm' | missing hm' | conflict hm'
  | accepted hm' | progressed hm' | snapAcked hm' => simp [hm'] at hm

/-- The back-off stops above the commit index. -/
theorem Raft.AboveCommit.lt_first (h : r.AboveCommit m) (hma : m.type = .msgApp)
    (hle : r.term ≤ m.term) (hi : m.logIndex ≤ r.raftLog.lastIndex) {t first : ℕ}
    (hterm : r.raftLog.term m.logIndex = some t) (hne : m.logTerm ≠ t)
    (hfirst : conflictFirst r.raftLog t m.logIndex = some first)
    (hoff : r.raftLog.offset ≤ first) : r.commitIndex < first := by
  obtain ⟨hfi, -, hrun⟩ := conflictFirst_spec hterm hfirst
  obtain ⟨k, hk, -, hck, hne'⟩ := h.conflict hma hle hi (hoff.trans hfi) t hterm hne
  apply hck.trans_lt
  by_contra hge
  exact hne' (hrun k (not_lt.mp hge) hk.le)

/-- The log keeps reaching the commit index. -/
theorem Raft.Effect.commit_lt {m : Option Message} (he : r.Effect m s)
    (hin : r.commitIndex < r.raftLog.endIndex) (hg : ∀ m' ∈ m, r.AboveCommit m') :
    s.commitIndex < s.raftLog.endIndex := by
  cases he.commit with
  | led state emits reached own =>
    obtain ⟨e, hent, -⟩ := RaftLog.matchTerm_eq_true own
    exact (RaftLog.entry_bounds hent).2
  | learned hma ht term state hterm hlog emits commit hi =>
    have hpos := hlog.endIndex_pos hi hterm
    rw [commit, RaftLog.lastIndex_of_pos hpos]
    omega
  | installed hms state =>
    rcases he.msgSnap_cases hms (by simp [state]) with ⟨hlog, hcommit⟩ |
      ⟨snap, hsnap, ht, hoff, hlog, hcommit⟩
    · rwa [hlog, hcommit]
    · have hle := (hg _ rfl).snapshot hms ht.ge snap hsnap hoff
      rw [hlog, hcommit]
      change max snap.index r.commitIndex < snap.index + 1
      omega
  | kept commit =>
    rw [commit]
    cases he.log with
    | kept log => rwa [log]
    | appended data state role term log =>
      rw [log, RaftLog.append_endIndex]
      omega
    | @truncated m' t first hma ht term notLeader state hi hterm hne hfirst log =>
      by_cases hoff : r.raftLog.offset ≤ first
      · rw [(RaftLog.truncate_eq hoff log).2.1]
        exact (hg _ rfl).lt_first hma ht.ge hi hterm hne hfirst hoff
      · rw [RaftLog.truncate_of_lt (not_le.mp hoff)] at log
        rwa [← Option.some.inj log]
    | @extended m' hma ht term notLeader state hi hterm hne log =>
      rw [(RaftLog.truncateAndAppend_eq log).2.2.2.1]
      by_cases hlt : m'.logIndex < r.commitIndex
      · obtain ⟨d, e, -, he, -⟩ := (hg _ rfl).exists_carried hma ht.ge hi hterm hne hin hlt
        have := (List.getElem?_eq_some_iff.mp he).1
        omega
      · omega
    | installed hms ht term notLeader state hsnap hi log =>
      have hle := (hg _ rfl).snapshot hms ht.ge _ hsnap hi
      rw [log]
      exact Nat.lt_succ_of_le hle

/-- An index up to the commit index keeps its entry, or is covered by a snapshot. -/
theorem Raft.Effect.keeps_committed {m : Option Message} {H : Entry → ℕ → Prop} (he : r.Effect m s)
    (hin : r.commitIndex < r.raftLog.endIndex) (hg : ∀ m' ∈ m, r.AboveCommit m')
    (hH : Chain.Unambiguous Entry.index Entry.term H) (hlog : r.raftLog.Linked H)
    (hseg : ∀ m' ∈ m, m'.type = .msgApp → m'.segment.Linked H) {i : ℕ} (hic : i ≤ r.commitIndex) :
    s.raftLog.entry i = r.raftLog.entry i ∨ i ≤ s.raftLog.offset := by
  cases he.log with
  | kept log => exact Or.inl (by rw [log])
  | appended data state role term log =>
    left
    rw [log, RaftLog.entry_append, if_pos (by omega)]
  | @truncated m' t first hma ht term notLeader state hi' hterm hne hfirst log =>
    left
    by_cases hoff : r.raftLog.offset ≤ first
    · have hlt := (hg _ rfl).lt_first hma ht.ge hi' hterm hne hfirst hoff
      rw [(RaftLog.truncate_eq hoff log).2.2.2, if_pos (by omega)]
    · rw [RaftLog.truncate_of_lt (not_le.mp hoff)] at log
      rw [← Option.some.inj log]
  | @extended m' hma ht term notLeader state hi' hterm hne log =>
    left
    obtain ⟨hfirst, -⟩ := (hg _ rfl).append hma ht.ge hi' hterm hne
    rw [(RaftLog.truncateAndAppend_eq log).2.2.2.2]
    split_ifs with hle
    · rfl
    · -- the message has the entry at the commit index, so it has the ones below too
      obtain ⟨d, e, hd, he, het⟩ :=
        (hg _ rfl).exists_carried hma ht.ge hi' hterm hne hin (by omega)
      have hec : m'.segment.entry r.commitIndex = some e := by
        rw [Message.segment_entry_of_lt (by omega)]
        exact he
      have hlen := (List.getElem?_eq_some_iff.mp he).1
      obtain ⟨x, x', hx, hx', -, heq⟩ := Chain.Linked.agree hH hlog (hseg m' rfl hma)
        (a := m'.logIndex) (n := r.commitIndex)
        (fun k _ _ => RaftLog.entry_isSome_iff.mpr (by unfold RaftLog.firstIndex at hfirst; omega))
        (fun k _ _ => RaftLog.entry_isSome_iff.mpr (by
          simp only [Message.segment, RaftLog.endIndex, List.length_cons]
          omega)) hd hec het (k := i) (by omega) hic
      rw [Message.segment_entry_of_lt (by omega)] at hx'
      rw [hx, hx', heq (by omega)]
  | installed hms ht term notLeader state hsnap hi' log =>
    right
    have hle := (hg _ rfl).snapshot hms ht.ge _ hsnap hi'
    rw [log]
    exact hic.trans hle

/-- What is handed out is committed. -/
theorem Raft.Effect.index_le {m : Option Message} (he : r.Effect m s)
    (hn : s.raftLog.Numbered) (hr : ∀ e ∈ r.committedEntries, e.index ≤ r.commitIndex) :
    r.commitIndex ≤ s.commitIndex ∧ ∀ e ∈ s.committedEntries, e.index ≤ s.commitIndex := by
  have emits (hx : r.Emits s) :
      r.commitIndex ≤ s.commitIndex ∧ ∀ e ∈ s.committedEntries, e.index ≤ s.commitIndex := by
    refine ⟨hx.lt.le, fun e hmem => ?_⟩
    rw [hx.entries, List.mem_append] at hmem
    rcases hmem with hmem | hmem
    · exact (hr e hmem).trans hx.lt.le
    · obtain ⟨k, -, hk, hent⟩ := RaftLog.mem_between.mp hmem
      exact (hn k e hent).le.trans hk
  cases he.commit with
  | kept commit _ entries =>
    rw [commit, entries]
    exact ⟨le_rfl, hr⟩
  | led state hx => exact emits hx
  | learned hma ht term state hterm hlog hx => exact emits hx
  | installed hms state hsnap hi commit _ entries =>
    rw [commit, entries]
    exact ⟨le_max_right _ _, fun e he => (hr e he).trans (le_max_right _ _)⟩

/-- The whole handling of a message. -/
theorem Raft.Effects.keeps_committed {H : Entry → ℕ → Prop} (he : Raft.Effects (some m) r s)
    (hup : m.type ≠ .msgHup) (hin : r.commitIndex < r.raftLog.endIndex) (hg : r.AboveCommit m)
    (hH : Chain.Unambiguous Entry.index Entry.term H) (hlog : r.raftLog.Linked H)
    (hseg : m.type = .msgApp → m.segment.Linked H) :
    (∀ i ≤ r.commitIndex, s.raftLog.entry i = r.raftLog.entry i ∨ i ≤ s.raftLog.offset) ∧
      s.commitIndex < s.raftLog.endIndex := by
  induction he with
  | last h =>
    have hall : ∀ m' ∈ some m, _ := fun m' hm' => Option.some.inj hm' ▸ hg
    refine ⟨fun i hi => h.keeps_committed hin hall hH hlog ?_ hi, h.commit_lt hin hall⟩
    rintro m' ⟨⟩
    exact hseg
  | next h hs hm rest ih =>
    obtain ⟨⟨hsame, hcommit, -⟩, -⟩ := h.quiet hs hm
    rw [← hsame] at hlog
    have := ih (by rwa [hsame, hcommit]) (hg.quiet h hs hm hup) hlog
    rwa [hsame, hcommit] at this

/-! ### The run -/

/-- What a node has committed is in its log, and what it has handed out is committed. -/
structure Committed (c : Cluster) : Prop where
  inside : ∀ i, (c.nodes i).commitIndex < (c.nodes i).raftLog.endIndex
  emitted : ∀ i, ∀ e ∈ c.emitted i ++ (c.nodes i).committedEntries,
    e.index ≤ (c.nodes i).commitIndex

namespace Committed

variable {S : Setup} {G : Cluster → Action → Prop} {c : Cluster} {i : ℕ}

theorem put (h : Committed c) (hin : r.commitIndex < r.raftLog.endIndex)
    (hle : (c.nodes i).commitIndex ≤ r.commitIndex)
    (hem : ∀ e ∈ r.committedEntries, e.index ≤ r.commitIndex) : Committed (c.put i r) := by
  refine ⟨forall_put (P := fun _ s => s.commitIndex < s.raftLog.endIndex) hin h.inside, ?_⟩
  · intro j e he
    by_cases hj : j = i
    · subst hj
      rw [put_nodes_self] at he ⊢
      rcases List.mem_append.mp he with he | he
      · exact (h.emitted j e (List.mem_append_left _ he)).trans hle
      · exact hem e he
    · rw [put_nodes_of_ne _ _ hj] at he ⊢
      exact h.emitted j e he

theorem effect (h : Committed c) (hG : ∀ c a, G c a → SparesCommit c a) (hN : Numbering c)
    {m : Option Message} (hm : c.Source G i m) (he : (c.nodes i).Effect m r) :
    Committed (c.put i r) := by
  have hg : ∀ m' ∈ m, (c.nodes i).AboveCommit m' := by
    rintro m' rfl
    obtain ⟨k, p, hp, rfl, rfl, hk⟩ := hm
    exact hG c _ hk p hp
  obtain ⟨hle, hem⟩ := he.index_le (hN.log_effect hm he)
    fun e he => h.emitted i e (List.mem_append_right _ he)
  exact h.put (he.commit_lt (h.inside i) hg) hle hem

theorem compact (h : Committed c) {index : ℕ} (t : ℕ) (data : Bytes)
    (hem : ∃ e ∈ c.emitted i, e.index = index) (ho : (c.nodes i).raftLog.offset < index) :
    Committed (c.put i ((c.nodes i).compacted index t data)) := by
  obtain ⟨e, he, rfl⟩ := hem
  have hle := h.emitted i e (List.mem_append_left _ he)
  have hin := h.inside i
  have hcommit : ((c.nodes i).compacted e.index t data).commitIndex = (c.nodes i).commitIndex :=
    max_eq_right hle
  apply h.put
  · rw [hcommit]
    exact hin.trans_le (RaftLog.endIndex_le_compactTo ho)
  · exact hcommit.ge
  · intro d hd
    rw [hcommit]
    exact h.emitted i d (List.mem_append_right _ hd)

theorem of_reaches (hG : ∀ c a, G c a → SparesCommit c a) (h : S.Reaches G c) : Committed c := by
  apply h.induct_history
  · constructor
    · intro i
      exact Nat.zero_lt_one
    · intro i e he
      simp [Setup.start, Cluster.emitted, newRaft] at he
  · intro c k hc
    exact { hc with }
  · intro c i m r hr hc _ hm _ he
    exact hc.effect hG (.of_reaches hr) hm he
  · intro c i index t data _ hc _ _ hem ho _
    exact hc.compact t data hem ho
  · intro c i _ hc _
    have hcommit (j : ℕ) : ((c.take i).nodes j).commitIndex = (c.nodes j).commitIndex :=
      put_advance_commitIndex c i j
    constructor
    · intro j
      have hlog : ((c.take i).nodes j).raftLog = (c.nodes j).raftLog := put_advance_raftLog c i j
      rw [hcommit, hlog]
      exact hc.inside j
    · intro j e he
      rw [emitted_take] at he
      rw [hcommit]
      exact hc.emitted j e he

end Committed

/-- In a run in which no message is written over and whose deliveries all spare what their
receivers have committed, the next such message is handled, each committed entry above the sentinel
stays or is covered by a snapshot, and the log still reaches the commit index. -/
theorem committed_entries_kept {S : Setup} {g : Growth} {s : Shared}
    (h : (S.shared g).Reach (S.Sparing SparesCommit) s) (hu : s.UniqueLeaders) {k : ℕ}
    {p : Packet} (hp : s.net[k]? = some p) (hd : p.msg.dst ∈ S.ids)
    (hstep : S.Sparing SparesCommit s (.deliver k)) :
    ∃ r, (s.nodes p.msg.dst).step p.msg = some r ∧
      (∀ i, (s.nodes p.msg.dst).raftLog.firstIndex < i → i ≤ (s.nodes p.msg.dst).commitIndex →
        (∃ e, (s.nodes p.msg.dst).raftLog.entry i = some e ∧ r.raftLog.entry i = some e) ∨
          i ≤ r.raftLog.firstIndex) ∧
      r.commitIndex ≤ r.raftLog.lastIndex := by
  have hc := Setup.reach_cluster h
  have hg : (s.nodes p.msg.dst).AboveCommit p.msg := hstep.2.2 p hp
  have hr : S.Reaches SparesCommit s.toCluster := .of_reach (sparesCommit_stable S) hc
  have hw : Wired S s.toCluster := .of_reaches hr
  have hin := (Committed.of_reaches (fun _ _ h => h) hr).inside p.msg.dst
  have hwf : (s.nodes p.msg.dst).WellFormed := Served.wellFormed_of_reach hd S.nodup
    (fun _ _ h => h) (reach_served (cuts_of_sparesCommit hc) p.msg.dst)
  obtain ⟨r, hr'⟩ := exists_step hwf.sound fun hma hle hi =>
    (hg.aboveSentinel.callsInside hma hle hi).1
  obtain ⟨H, hH⟩ := Recorded.of_reaches hr hu
  obtain ⟨hkeep, hin'⟩ := (Raft.step_effects hr').keeps_committed (hw.type_ne_msgHup hp) hin hg
    hH.unambiguous (hH.log _) (hH.app p (List.mem_of_getElem? hp))
  refine ⟨r, hr', fun i hlo hi => ?_, ?_⟩
  · rcases hkeep i hi with heq | hle
    · obtain ⟨e, he⟩ := RaftLog.exists_entry hlo.le (hi.trans_lt hin)
      exact Or.inl ⟨e, he, heq.trans he⟩
    · exact Or.inr hle
  · rw [RaftLog.lastIndex_of_pos (Nat.zero_lt_of_lt hin')]
    omega

/-- Node 2 has committed up to index 2 when it receives the entry for index 3. -/
theorem committed_entries_kept_trio : ∃ s,
    (trio.shared doubling).Reach (trio.Sparing SparesCommit) s ∧
    s.UniqueLeaders ∧ (s.nodes 2).commitIndex = 2 ∧
    ∃ p, s.net[12]? = some p ∧ p.msg.dst = 2 ∧
      ∃ r, (s.nodes 2).step p.msg = some r ∧ r.commitIndex ≤ r.raftLog.lastIndex := by
  obtain ⟨s, hs, hu, hcommit, hk, hen⟩ := trio.exists_shared (trio.Sparing SparesCommit)
    (fun s => s.UniqueLeaders ∧ (s.nodes 2).commitIndex = 2 ∧
      trio.Sparing SparesCommit s (.deliver 12) ∧ (s.net[12]?.map fun p => p.msg.dst) = some 2)
    [.tick 1 0, .deliver 0, .deliver 2, .deliver 3, .deliver 5, .propose 1 [7], .deliver 6,
      .deliver 8, .tick 1 0, .deliver 9, .propose 1 [8]]
    (by decide +kernel)
  obtain ⟨p, hp, hd⟩ := Option.map_eq_some_iff.mp hen
  obtain ⟨r, hr, -, hle⟩ := committed_entries_kept hs hu hp (by rw [hd]; decide) hk
  rw [hd] at hr
  exact ⟨s, hs, hu, hcommit, p, hp, hd, r, hr, hle⟩

/-- Node 2 has committed entry 2 when the first `MsgApp` of the leader, with previous index 0
and only entry 1, is delivered a second time. -/
theorem late_append_removes_committed : ∃ s, (trio.shared doubling).Reach (fun _ _ => True) s ∧
    s.UniqueLeaders ∧ (s.nodes 2).raftLog.firstIndex = 0 ∧ (s.nodes 2).commitIndex = 2 ∧
    ((s.nodes 2).raftLog.entry 2).isSome ∧
    ∃ p, s.net[3]? = some p ∧ p.msg.dst = 2 ∧ ∃ r, (s.nodes 2).step p.msg = some r ∧
      r.raftLog.entry 2 = none ∧ r.raftLog.firstIndex = 0 ∧ r.raftLog.lastIndex = 1 ∧
      r.commitIndex = 2 := by
  obtain ⟨s, hs, hu, hoff, hcommit, hent, hen, hstep⟩ := trio.exists_shared (fun _ _ => True)
    (fun s => s.UniqueLeaders ∧ (s.nodes 2).raftLog.firstIndex = 0 ∧
      (s.nodes 2).commitIndex = 2 ∧ ((s.nodes 2).raftLog.entry 2).isSome ∧
      (s.net[3]?.map fun p => p.msg.dst) = some 2 ∧
      ((s.net[3]?.bind fun p => (s.nodes 2).step p.msg).map fun r =>
        (r.raftLog.entry 2, r.raftLog.firstIndex, r.raftLog.lastIndex, r.commitIndex)) =
          some (none, 0, 1, 2))
    [.tick 1 0, .deliver 0, .deliver 2, .deliver 3, .deliver 5, .propose 1 [7], .deliver 6,
      .deliver 8, .tick 1 0, .deliver 9] (by decide +kernel)
  obtain ⟨p, hp, hd⟩ := Option.map_eq_some_iff.mp hen
  obtain ⟨r, hr, hall⟩ := Option.map_eq_some_iff.mp hstep
  rw [hp, Option.bind_some] at hr
  simp only [Prod.mk.injEq] at hall
  exact ⟨s, hs, hu, hoff, hcommit, hent, p, hp, hd, r, hr, hall⟩

end Mizu
