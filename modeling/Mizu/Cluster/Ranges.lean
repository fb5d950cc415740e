import Mizu.Cluster.Basic

/-!
# What a leader and its followers tell each other

Every index that a leader keeps for a peer, sends to it or gets back from it is inside of the
leader's log or just past its end, in every run: an answer to a `MsgApp` stays below the message and
has its term, and a leader's log only grows while it leads. No answer makes a leader go back to
index zero either, since no log has an entry with a term there.
-/

namespace Mizu

open Raft Cluster

/-- The index of the last entry that a `MsgApp` speaks of. -/
def Message.upTo (m : Message) : ℕ := m.logIndex + m.entries.length

namespace Raft

variable {r s : Raft}

/-- The progress records of a leader. -/
structure Tracks (r : Raft) : Prop where
  room : r.raftLog.offset < r.raftLog.endIndex
  peers : ∀ j pr, Assoc.get j r.prs = some pr →
    pr.matched < pr.next ∧ pr.next ≤ r.raftLog.endIndex
  own : ∃ pr, Assoc.get r.id r.prs = some pr ∧ pr.matched + 1 = r.raftLog.endIndex

/-- The log begins with an entry without a term or above index zero, and a leader tracks its
peers. -/
structure InRange (r : Raft) : Prop where
  zero : ∀ e, r.raftLog.entry 0 = some e → e.term = 0
  nonempty : 0 < r.raftLog.endIndex
  tracks : r.state = .leader → r.Tracks

/-- A leader has appended an entry to its log. -/
theorem Tracks.appended {prs : List (ℕ × Progress)} {e : Entry} (hid : s.id = r.id)
    (hlog : s.raftLog = r.raftLog.append [e])
    (hprs : s.prs = Assoc.set r.id
      { matched := r.raftLog.endIndex, next := r.raftLog.endIndex + 1 } prs)
    (h : ∀ j pr, Assoc.get j prs = some pr →
      pr.matched < pr.next ∧ pr.next ≤ r.raftLog.endIndex + 1) : s.Tracks := by
  have hend : s.raftLog.endIndex = r.raftLog.endIndex + 1 := by
    rw [hlog, RaftLog.append_endIndex]
    rfl
  refine ⟨?_, ?_, ?_⟩
  · rw [hend, hlog, RaftLog.append_offset]
    unfold RaftLog.endIndex
    omega
  · intro j pr hpr
    rw [hprs, Assoc.get_set] at hpr
    rw [hend]
    split_ifs at hpr
    · cases hpr
      exact ⟨Nat.lt_succ_self _, le_rfl⟩
    · exact h j pr hpr
  · exact ⟨_, by rw [hprs, hid, Assoc.get_set_self], hend.symm⟩

/-- A leader has moved the record of another node. -/
theorem Tracks.set {j : ℕ} {pr : Progress} (h : r.Tracks) (hid : s.id = r.id)
    (hlog : s.raftLog = r.raftLog) (hprs : s.prs = Assoc.set j pr r.prs) (hj : r.id ≠ j)
    (hpr : pr.matched < pr.next ∧ pr.next ≤ r.raftLog.endIndex) : s.Tracks := by
  refine ⟨hlog ▸ h.room, ?_, ?_⟩
  · intro k pr' hget
    rw [hprs, Assoc.get_set] at hget
    rw [hlog]
    split_ifs at hget
    · cases hget
      exact hpr
    · exact h.peers k pr' hget
  · rw [hlog, hid, hprs, Assoc.get_set_of_ne hj]
    exact h.own

/-- A leader has compacted its log. -/
theorem Tracks.compacted {index : ℕ} (h : r.Tracks) (hs : r.state = .leader) (t : ℕ) (data : Bytes)
    (ho : r.raftLog.offset < index) : (r.compacted index t data).Tracks := by
  have hend := RaftLog.compactTo_endIndex t ho (Nat.zero_lt_of_lt h.room)
  have hoff := RaftLog.compactTo_offset_lt t ho
  rw [hend] at hoff
  have hget (j : ℕ) : Assoc.get j (r.compacted index t data).prs =
      (Assoc.get j r.prs).map (compactProgress (r.raftLog.compactTo index t).offset) := by
    simp only [Raft.compacted, hs, if_true]
    exact Assoc.get_map _ _ _
  refine ⟨?_, ?_, ?_⟩
  · exact hoff.trans_eq hend.symm
  · intro j pr hpr
    rw [hget] at hpr
    obtain ⟨pr₀, hpr₀, rfl⟩ := Option.map_eq_some_iff.mp hpr
    have := h.peers j pr₀ hpr₀
    change _ ∧ _ ≤ (r.raftLog.compactTo index t).endIndex
    unfold compactProgress
    dsimp only
    split_ifs <;> omega
  · obtain ⟨pr, hpr, hown⟩ := h.own
    refine ⟨_, (hget r.id).trans (congrArg _ hpr), ?_⟩
    change _ = (r.raftLog.compactTo index t).endIndex
    rw [hend]
    unfold compactProgress
    rw [if_neg (by omega), hown]

end Raft

/-- Leaders, their messages and the answers to them. -/
structure Ranged (c : Cluster) : Prop where
  node : ∀ i, (c.nodes i).InRange
  leader : ∀ p ∈ c.net, p.msg.type = .msgApp → (p.msg.term, p.msg.src) ∈ c.led
  first : ∀ p ∈ c.net, p.msg.type = .msgApp → p.msg.logIndex = 0 → p.msg.logTerm = 0
  bound : ∀ p ∈ c.net, p.msg.type = .msgApp → (c.nodes p.msg.src).term = p.msg.term →
    p.msg.upTo < (c.nodes p.msg.src).raftLog.endIndex
  reject : ∀ p ∈ c.net, p.msg.type = .msgAppResp → p.msg.reject = true → 0 < p.msg.logIndex →
    (p.msg.term, p.msg.dst) ∈ c.led ∧ ((c.nodes p.msg.dst).term = p.msg.term →
      p.msg.logIndex < (c.nodes p.msg.dst).raftLog.endIndex)
  found : ∀ p ∈ c.net, p.msg.type = .msgAppResp → p.msg.logTerm ≠ 0 → 0 < p.msg.logIndex

namespace Ranged

variable {S : Setup} {G : Cluster → Action → Prop} {c : Cluster} {i : ℕ} {r : Raft}
  {m : Option Message}

theorem nonempty (h : Ranged c) (i : ℕ) : 0 < (c.nodes i).raftLog.endIndex := (h.node i).nonempty

theorem init (S : Setup) : Ranged S.start where
  node i := by
    refine ⟨?_, Nat.one_pos, nofun⟩
    intro e he
    have hlog : (S.start.nodes i).raftLog = RaftLog.restore 0 0 := rfl
    cases he
    rfl
  leader p hp := by simp [Setup.start] at hp
  first p hp := by simp [Setup.start] at hp
  bound p hp := by simp [Setup.start] at hp
  reject p hp := by simp [Setup.start] at hp
  found p hp := by simp [Setup.start] at hp

/-- What a step that turns node `i` into `r` has to show. -/
structure Step (c : Cluster) (i : ℕ) (r : Raft) : Prop where
  node : r.InRange
  grows : (c.nodes i).state = .leader → r.term = (c.nodes i).term →
    (c.nodes i).raftLog.endIndex ≤ r.raftLog.endIndex
  net : ∀ p ∈ (c.put i r).net, p ∈ c.net ∨ r.Outgoing p.msg ∨ (p.msg.type ≠ .msgApp ∧
    (p.msg.type = .msgAppResp →
      (p.msg.reject = true → 0 < p.msg.logIndex → ∃ q ∈ c.net, q.msg.type = .msgApp ∧
        q.msg.term = p.msg.term ∧ q.msg.src = p.msg.dst ∧ p.msg.logIndex ≤ q.msg.logIndex) ∧
      (p.msg.logTerm ≠ 0 → 0 < p.msg.logIndex)))

/-- The facts about a `MsgApp` that a leader sends. -/
theorem outgoing (hr : r.InRange) {x : Message} (ho : r.Outgoing x) (ht : x.type = .msgApp) :
    (x.logIndex = 0 → x.logTerm = 0) ∧ x.upTo + 1 = r.raftLog.endIndex := by
  obtain ⟨pr, hpr, ⟨-, hoff, hi, hterm, hes, -⟩ | ⟨ht', -⟩⟩ := ho.body
  · have hnext := ((hr.tracks ho.leader).peers _ pr hpr).2
    refine ⟨fun h0 => ?_, ?_⟩
    · rw [h0] at hterm
      rcases RaftLog.term_eq hterm with ⟨e, he, heq⟩ | ⟨-, h⟩
      · rw [← heq]
        exact hr.zero e he
      · exact h
    · rw [Message.upTo, hes, RaftLog.length_slice hoff.le]
      omega
  · simp [ht] at ht'

section

variable (h : Ranged c)

include h

theorem put (hl : Led c) (hid : r.id = i) (hle : (c.nodes i).term ≤ r.term)
    (hs : Step c i r) : Ranged (c.put i r) := by
  have hbound : ∀ p ∈ (c.put i r).net, p.msg.type = .msgApp →
      ((c.put i r).nodes p.msg.src).term = p.msg.term →
      p.msg.upTo < ((c.put i r).nodes p.msg.src).raftLog.endIndex := by
    intro p hp ht hterm
    rcases hs.net p hp with hp | ho | ⟨hne, -⟩
    · by_cases hi : p.msg.src = i
      · rw [hi, put_nodes_self] at hterm ⊢
        have hpast := hl.past _ _ (h.leader p hp ht)
        rw [hi] at hpast
        have heq : p.msg.term = (c.nodes i).term := le_antisymm hpast.1 (hterm ▸ hle)
        have hb := h.bound p hp ht (by rw [hi, heq])
        rw [hi] at hb
        exact hb.trans_le (hs.grows (hpast.2 heq) (hterm.trans heq))
      · rw [put_nodes_of_ne _ _ hi] at hterm ⊢
        exact h.bound p hp ht hterm
    · rw [ho.src, hid, put_nodes_self]
      have := (outgoing hs.node ho ht).2
      omega
    · exact absurd ht hne
  have hleader : ∀ p ∈ (c.put i r).net, p.msg.type = .msgApp →
      (p.msg.term, p.msg.src) ∈ (c.put i r).led := by
    intro p hp ht
    rcases hs.net p hp with hp | ho | ⟨hne, -⟩
    · exact mem_put_led_of_mem i r (h.leader p hp ht)
    · rw [ho.src, ho.term, hid]
      simp [Cluster.put, ho.leader]
    · exact absurd ht hne
  refine ⟨forall_put (P := fun _ s => s.InRange) hs.node h.node, hleader, ?_, hbound, ?_, ?_⟩
  · intro p hp ht
    rcases hs.net p hp with hp | ho | ⟨hne, -⟩
    · exact h.first p hp ht
    · exact (outgoing hs.node ho ht).1
    · exact absurd ht hne
  · intro p hp ht hr hpos
    rcases hs.net p hp with hp | ho | ⟨-, hresp⟩
    · obtain ⟨hmem, hlt⟩ := h.reject p hp ht hr hpos
      refine ⟨mem_put_led_of_mem i r hmem, fun hterm => ?_⟩
      by_cases hi : p.msg.dst = i
      · rw [hi, put_nodes_self] at hterm ⊢
        rw [hi] at hmem hlt
        have hpast := hl.past _ _ hmem
        have heq : p.msg.term = (c.nodes i).term := le_antisymm hpast.1 (hterm ▸ hle)
        exact (hlt heq.symm).trans_le (hs.grows (hpast.2 heq) (hterm.trans heq))
      · rw [put_nodes_of_ne _ _ hi] at hterm ⊢
        exact hlt hterm
    · obtain ⟨pr, -, ⟨ht', -⟩ | ⟨ht', -⟩⟩ := ho.body <;> simp [ht'] at ht
    · -- the answer stays below the message it answers
      obtain ⟨q, hq, hqt, hqterm, hqsrc, hle'⟩ := (hresp ht).1 hr hpos
      have hq' : q ∈ (c.put i r).net := mem_put_net_of_mem r hq
      rw [← hqterm, ← hqsrc]
      refine ⟨hleader q hq' hqt, fun hterm => ?_⟩
      have hb := hbound q hq' hqt hterm
      unfold Message.upTo at hb
      omega
  · intro p hp ht hne
    rcases hs.net p hp with hp | ho | ⟨-, hresp⟩
    · exact h.found p hp ht hne
    · obtain ⟨pr, -, ⟨ht', -⟩ | ⟨ht', -⟩⟩ := ho.body <;> simp [ht'] at ht
    · exact (hresp ht).2 hne

/-- A back-off that stopped at index zero would have met a term that is not there. -/
theorem first_pos {t index first : ℕ} (ht : (c.nodes i).raftLog.term index = some t)
    (h0 : t ≠ 0) (hf : conflictFirst (c.nodes i).raftLog t index = some first) : 0 < first := by
  obtain ⟨hle, -, hrun⟩ := conflictFirst_spec ht hf
  by_contra hz
  have hz' : first = 0 := by omega
  have hterm := hrun first le_rfl hle
  rw [hz'] at hterm
  obtain ⟨e, he, het⟩ := RaftLog.entry_of_term_ne_zero hterm h0
  exact h0 (het ▸ (h.node i).zero e he)

/-- The log never loses index zero: only a `MsgApp` that does not match there could. -/
theorem truncate_pos (hd : Dated c) {p : Packet} (hp : p ∈ c.net)
    (hma : p.msg.type = .msgApp) {t first : ℕ} (hi : p.msg.logIndex ≤ (c.nodes i).raftLog.lastIndex)
    (ht : (c.nodes i).raftLog.term p.msg.logIndex = some t) (hne : p.msg.logTerm ≠ t)
    (hf : conflictFirst (c.nodes i).raftLog t p.msg.logIndex = some first)
    (ho : (c.nodes i).raftLog.offset ≤ first) : 0 < first := by
  by_cases h0 : t = 0
  · subst h0
    rw [RaftLog.lastIndex_of_pos ((h.node i).nonempty)] at hi
    by_contra hz
    by_cases hidx : p.msg.logIndex = 0
    · exact hne (h.first p hp hma hidx)
    · -- an entry above index zero would be of term zero
      obtain ⟨e, he⟩ := RaftLog.exists_entry (l := (c.nodes i).raftLog) (i := p.msg.logIndex)
        (by omega) (by omega)
      have hpos := hd.positive i _ e (by omega) he
      rw [RaftLog.term_of_entry he] at ht
      have := Option.some.inj ht
      omega
  · exact h.first_pos ht h0 hf

theorem log_step (hd : Dated c) (hm : c.Source G i m)
    (he : LogChange (c.nodes i) r m) :
    (∀ e, r.raftLog.entry 0 = some e → e.term = 0) ∧ 0 < r.raftLog.endIndex ∧
      ((c.nodes i).state = .leader → (c.nodes i).raftLog.endIndex ≤ r.raftLog.endIndex) := by
  have hnil := (h.node i).nonempty
  cases he with
  | kept log lead =>
    rw [log]
    exact ⟨(h.node i).zero, hnil, fun _ => le_rfl⟩
  | appended data state role term log =>
    rw [log, RaftLog.append_endIndex]
    refine ⟨fun e he => ?_, by omega, fun _ => by omega⟩
    rw [RaftLog.entry_append, if_pos hnil] at he
    exact (h.node i).zero e he
  | @truncated m' t first hma ht term notLeader state hi hterm hne hfirst log =>
    obtain ⟨p, hp, rfl, -⟩ := mem_net_of_source hm
    by_cases ho : (c.nodes i).raftLog.offset ≤ first
    · obtain ⟨-, hend, -, hent⟩ := RaftLog.truncate_eq ho log
      refine ⟨fun e he => ?_, ?_, fun hs => absurd hs notLeader⟩
      · rw [hent] at he
        split_ifs at he
        exact (h.node i).zero e he
      · rw [hend]
        exact h.truncate_pos hd hp hma hi hterm hne hfirst ho
    · rw [RaftLog.truncate_of_lt (not_le.mp ho)] at log
      rw [← Option.some.inj log]
      exact ⟨(h.node i).zero, hnil, fun _ => le_rfl⟩
  | extended hma ht term notLeader state hi hterm hne log =>
    obtain ⟨-, -, -, hend, hent⟩ := RaftLog.truncateAndAppend_eq log
    refine ⟨fun e he => ?_, by omega, fun hs => absurd hs notLeader⟩
    rw [hent, if_pos (Nat.zero_le _)] at he
    exact (h.node i).zero e he
  | installed hms ht term notLeader state hsnap hi log =>
    rw [log]
    refine ⟨fun e he => ?_, Nat.succ_pos _, fun hs => absurd hs notLeader⟩
    rw [RaftLog.entry_restore, if_neg (by omega)] at he
    cases he

theorem progress_step (hw : Wired S c) (hm : c.Source G i m)
    (hid : r.id = (c.nodes i).id) (he : ProgressChange (c.nodes i) r m) : r.Tracks := by
  have hother {p : Packet} (hp : p ∈ c.net) (hdst : p.msg.dst = i) :
      (c.nodes i).id ≠ p.msg.src := by
    rw [hw.id, ← hdst]
    exact (hw.ne p hp).symm
  cases he with
  | kept role term log prs =>
    have htracks := (h.node i).tracks role
    exact ⟨log ▸ htracks.room, by rw [log, prs]; exact htracks.peers,
      by rw [log, prs, hid]; exact htracks.own⟩
  | appended role term data log prs =>
    refine .appended hid log prs fun j pr hpr => ?_
    obtain ⟨hlt, hle⟩ := ((h.node i).tracks role).peers j pr hpr
    exact ⟨hlt, Nat.le_succ_of_le hle⟩
  | won role term log prs =>
    refine .appended hid log prs fun j pr hpr => ?_
    rw [Assoc.get_map fun _ => ({ next := (c.nodes i).raftLog.endIndex } : Progress)] at hpr
    obtain ⟨pr₀, -, rfl⟩ := Option.map_eq_some_iff.mp hpr
    exact ⟨h.nonempty i, Nat.le_succ _⟩
  | @progressed m' pr pr' role term log hmt ht hpr hpr' prs =>
    obtain ⟨p, hp, rfl, hdst⟩ := mem_net_of_source hm
    obtain ⟨hnext, hmatch⟩ := respProgress_eq hpr'
    have hpos := hnext.pos (h.nonempty i) (h.found p hp hmt)
    refine ((h.node i).tracks role).set hid log prs (hother hp hdst) ⟨?_, ?_⟩
    · rcases hmatch with ⟨hmatch, -⟩ | ⟨-, hlt⟩
      · rw [hmatch, sub64_of_le hpos]
        omega
      · exact hlt
    · refine hnext.le (h.nonempty i) fun hr => ?_
      rcases Nat.eq_zero_or_pos p.msg.logIndex with h0 | hpos
      · rw [h0]
        exact Nat.zero_le _
      · have := (h.reject p hp hmt hr hpos).2 (by rw [hdst, ht])
        rw [hdst] at this
        exact this.le
  | snapAcked role term log prs =>
    obtain ⟨p, hp, rfl, hdst⟩ := mem_net_of_source hm
    have htracks := (h.node i).tracks role
    exact htracks.set hid log prs (hother hp hdst) ⟨Nat.lt_succ_self _, htracks.room⟩

/-- The answers that an effect sends. -/
theorem sent_step (hm : c.Source G i m) (hnil : 0 < r.raftLog.endIndex)
    {x : Message} (hx : Sent (c.nodes i) r m x) : r.Outgoing x ∨ (x.type ≠ .msgApp ∧
    (x.type = .msgAppResp →
      (x.reject = true → 0 < x.logIndex → ∃ q ∈ c.net, q.msg.type = .msgApp ∧
        q.msg.term = x.term ∧ q.msg.src = x.dst ∧ x.logIndex ≤ q.msg.logIndex) ∧
      (x.logTerm ≠ 0 → 0 < x.logIndex))) := by
  cases hx with
  | replicated h => exact Or.inl h
  | stale => exact Or.inr ⟨nofun,
      fun _ => ⟨fun _ h => absurd h (lt_irrefl 0), fun h => absurd rfl h⟩⟩
  | missing hma ht hi =>
    obtain ⟨q, hq, rfl, -⟩ := mem_net_of_source hm
    refine Or.inr ⟨nofun, fun _ => ⟨fun _ _ => ⟨q, hq, hma, ht, rfl, ?_⟩, fun h => absurd rfl h⟩⟩
    rw [RaftLog.lastIndex_of_pos hnil] at hi
    change r.raftLog.endIndex ≤ q.msg.logIndex
    omega
  | conflict hma ht hi hterm hne hfirst =>
    obtain ⟨q, hq, rfl, -⟩ := mem_net_of_source hm
    refine Or.inr ⟨nofun, fun _ => ⟨fun _ _ => ⟨q, hq, hma, ht, rfl, ?_⟩, fun h0 => ?_⟩⟩
    · exact (conflictFirst_spec hterm hfirst).1
    · exact h.first_pos hterm h0 hfirst
  | acked => exact Or.inr ⟨nofun, fun _ => ⟨nofun, fun h => absurd rfl h⟩⟩
  | _ => exact Or.inr ⟨nofun, nofun⟩

theorem effect (hw : Wired S c) (hl : Led c) (hd : Dated c) (hm : c.Source G i m)
    (hb : m = none → r.term ≠ (c.nodes i).term → (c.nodes i).term + 1 < 2 ^ 64)
    (he : (c.nodes i).Effect m r) : Ranged (c.put i r) := by
  obtain ⟨hzero, hnil, hgrows⟩ := h.log_step hd hm he.log
  refine h.put hl (he.id_eq.trans (hw.id i)) (he.term_le (hw.not_hup hm) hb)
    ⟨⟨hzero, hnil, fun hs => ?_⟩, fun hs _ => hgrows hs, fun p hp => ?_⟩
  · exact h.progress_step hw hm he.id_eq (he.progress hs)
  · rcases sent_of_mem_put_net he hp with hp | ⟨hx, -⟩
    · exact Or.inl hp
    · exact Or.inr (h.sent_step hm hnil hx)

theorem compact (hw : Wired S c) (hl : Led c) {index t : ℕ} (data : Bytes)
    (ho : (c.nodes i).raftLog.offset < index) (ht : (c.nodes i).raftLog.term index = some t) :
    Ranged (c.put i ((c.nodes i).compacted index t data)) := by
  have hend := RaftLog.compactTo_endIndex t ho (h.nonempty i)
  refine h.put hl (hw.id i) le_rfl ⟨⟨fun e he => ?_, ?_, fun hs => ?_⟩, fun _ _ => hend.ge,
    fun p hp => Or.inl (by rwa [put_net_compacted] at hp)⟩
  · rcases RaftLog.entry_compactTo ho he with ⟨rfl, hoff⟩ | ⟨hlt, -⟩
    · -- a sentinel at index zero has taken the place of nothing
      rcases RaftLog.term_eq ht with ⟨e, he, -⟩ | ⟨-, h0⟩
      · rw [(RaftLog.compactTo_eq t ho (RaftLog.entry_bounds he).2).1] at hoff
        omega
      · exact h0
    · exact absurd hlt (Nat.not_lt_zero _)
  · exact hend.symm ▸ h.nonempty i
  · exact ((h.node i).tracks hs).compacted hs t data ho

theorem advance (hw : Wired S c) (hl : Led c) :
    Ranged (c.put i (c.nodes i).advance) :=
  h.put hl (hw.id i) le_rfl
    ⟨⟨(h.node i).zero, h.nonempty i, fun hs => { (h.node i).tracks hs with }⟩,
      fun _ _ => le_rfl, fun p hp => Or.inl (by rwa [put_net_advance] at hp)⟩

end

theorem of_reaches (h : S.Reaches G c) : Ranged c := by
  refine h.induct (init S) (fun c d rd hc => { hc with }) ?_ ?_ ?_
  · intro c i m r hr hc hi hm hb he
    exact hc.effect (.of_reaches hr) (.of_reaches hr) (.of_reaches hr) hm hb he
  · intro c i index t data hr hc hi _ _ ho ht
    exact hc.compact (.of_reaches hr) (.of_reaches hr) data ho ht
  · intro c i hr hc hi
    exact hc.advance (.of_reaches hr) (.of_reaches hr)

end Ranged

end Mizu
