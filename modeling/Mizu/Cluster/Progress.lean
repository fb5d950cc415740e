import Mizu.Cluster.Replication

/-!
# Replication progress

`Match` is what a follower acknowledged. It is truthful as long as the follower does
not give up acknowledged entries of the leader's term: `TruncateAndAppend` and an
installed snapshot cut the log even where it agrees with the message, so an older
`MsgApp` or `MsgSnap` of the same term must not come after a newer one.
-/

namespace Mizu

open Raft Cluster

/-- No node is given, in its own term, entries or a snapshot that end below a last entry
of that term; and compaction stays inside the log. -/
def Forward (c : Cluster) (a : Action) : Prop :=
  SnapshotInLog c a ∧ c.Delivering (fun p =>
    (c.nodes p.msg.dst).term = p.msg.term →
    (c.nodes p.msg.dst).raftLog.lastTerm = p.msg.term →
    (p.msg.type = .msgApp → p.msg.entries ≠ [] →
      (c.nodes p.msg.dst).raftLog.lastIndex ≤ p.msg.upTo) ∧
    (p.msg.type = .msgSnap → ∀ s ∈ p.msg.snapshot,
      (c.nodes p.msg.dst).raftLog.lastIndex ≤ s.index)) a

variable {l : RaftLog} {e : Entry}

namespace Grown

variable {S : Setup} {G : Cluster → Action → Prop} {c : Cluster} {H : Entry → ℕ → Prop} {i : ℕ}
  {r : Raft} {m : Option Message}

/-- Terms do not fall along a log. -/
theorem term_le (h : Grown c H) (hl : l.Linked H) {n k : ℕ} {d : Entry}
    (he : l.entry n = some e) (hk : n ≤ k) (hd : l.entry k = some d) : e.term ≤ d.term := by
  have h₁ := RaftLog.entry_bounds he
  have h₂ := RaftLog.entry_bounds hd
  exact hl.tag_le h.mono (fun i _ _ => RaftLog.entry_isSome_iff.mpr (by omega)) he hk hd

/-- From an entry of term `T` on, a log whose terms are at most `T` has only that term. -/
theorem term_up (h : Grown c H) (hl : l.Linked H) {T n k : ℕ} {d : Entry}
    (hT : ∀ i e, l.entry i = some e → e.term ≤ T) (he : l.entry n = some e) (ht : e.term = T)
    (hk : n ≤ k) (hd : l.entry k = some d) : d.term = T :=
  le_antisymm (hT k d hd) (ht ▸ h.term_le hl he hk hd)

/-- Below an entry of the term of `e₀` a log has that term down to the index of `e₀`. -/
theorem term_down (h : Grown c H) (hl : l.Linked H) {e₀ : Entry} {t₀ n k : ℕ}
    {d : Entry} (h₀ : H e₀ t₀) (he : l.entry n = some e) (ht : e.term = e₀.term)
    (hk : e₀.index ≤ k) (hkn : k ≤ n) (hd : l.entry k = some d) : d.term = e₀.term := by
  have h₁ := RaftLog.entry_bounds he
  have h₂ := RaftLog.entry_bounds hd
  exact hl.tag_down h.run h₀ (fun i _ _ => RaftLog.entry_isSome_iff.mpr (by omega)) he ht hk hkn hd

end Grown

theorem Message.lastTerm_cut {m : Message} {l' : RaftLog} (hne : m.entries ≠ [])
    (h : l.truncateAndAppend m.logIndex m.entries = some l') :
    l'.lastTerm = m.segment.lastTerm := by
  unfold RaftLog.truncateAndAppend at h
  split_ifs at h
  cases h
  have hx := List.getLast?_eq_some_getLast hne
  simp [RaftLog.lastTerm, Message.segment, hx, List.getLast?_append, List.getLast?_cons]

section

variable {S : Setup} {G : Cluster → Action → Prop} {c : Cluster} {H : Entry → ℕ → Prop} {i : ℕ}
  {r : Raft} {m : Option Message} {p : Packet}

section

variable (h : Grown c H) (hl : Led c) (hd : Dated c) (hc : Carried c) (hp : p ∈ c.net)
  (hma : p.msg.type = .msgApp) (ht : p.msg.term = (c.nodes i).term)

include h hl hd hc hp hma ht

/-- A follower that accepted a message ends with an entry of the leader's term. -/
theorem Grown.accepted_last (hterm : (c.nodes i).raftLog.term p.msg.logIndex = some p.msg.logTerm)
    (hlog : Extends (c.nodes i).raftLog p.msg l) : l.lastTerm = p.msg.term := by
  have hsent := hc.sent p hp hma
  have hpos : p.msg.term ≠ 0 := (hl.positive _ _ (hc.leader p hp hma)).ne'
  cases hlog with
  | keep hnil =>
    -- without entries the message names the leader's last entry as the previous one
    have hlt : p.msg.logTerm = p.msg.term := by
      rw [← hsent]
      simp [Message.segment, RaftLog.lastTerm, hnil]
    rw [hlt] at hterm
    obtain ⟨d, hd', hdt⟩ := RaftLog.entry_of_term_ne_zero hterm hpos
    have hb := RaftLog.entry_bounds hd'
    obtain ⟨e, he⟩ := RaftLog.exists_entry (l := (c.nodes i).raftLog)
      (i := (c.nodes i).raftLog.endIndex - 1) (by omega) (by omega)
    rw [RaftLog.lastTerm_of_entry he]
    exact h.term_up (h.log i) (fun n e he => ht ▸ hd.log i n e he) hd' hdt (by omega) he
  | extend hne cut => rw [Message.lastTerm_cut hne cut, hsent]

/-- A log that has an entry of the leader's term agrees with the leader's messages at
every previous index they name, so there is no conflict to back off from. -/
theorem Grown.no_conflict {u t : ℕ} (hH : H e u) (het : e.term = p.msg.term)
    (he : (c.nodes i).raftLog.entry e.index = some e)
    (ho : (c.nodes i).raftLog.offset ≤ p.msg.logIndex)
    (hi : p.msg.logIndex ≤ (c.nodes i).raftLog.lastIndex)
    (hterm : (c.nodes i).raftLog.term p.msg.logIndex = some t) : p.msg.logTerm = t := by
  have hseg := h.app p hp hma
  have hpos : p.msg.term ≠ 0 := (hl.positive _ _ (hc.leader p hp hma)).ne'
  have hb := RaftLog.entry_bounds he
  rw [RaftLog.lastIndex_of_pos (hc.nonempty i)] at hi
  obtain ⟨d, hd'⟩ := RaftLog.exists_entry (l := (c.nodes i).raftLog) (i := p.msg.logIndex)
    ho (by omega)
  have hdt : d.term = t := by
    rw [RaftLog.term_of_entry hd'] at hterm
    exact Option.some.inj hterm
  have hprev := p.msg.segment_entry_self
  -- the last element of the message is of the leader's term
  have hlast : ∃ x, p.msg.segment.entry p.msg.upTo = some x ∧ x.term = p.msg.term := by
    obtain ⟨x, hx, hxt, -⟩ := RaftLog.exists_last (l := p.msg.segment)
      (by rw [hc.sent p hp hma]; exact hpos)
    exact ⟨x, hx, hxt.trans (hc.sent p hp hma)⟩
  obtain ⟨x, hx, hxt⟩ := hlast
  have hup : p.msg.logIndex ≤ p.msg.upTo := Nat.le_add_right _ _
  have hsegd : ∀ k, p.msg.logIndex ≤ k → k ≤ p.msg.upTo → (p.msg.segment.entry k).isSome :=
    fun k h₁ h₂ => RaftLog.entry_isSome_iff.mpr ⟨h₁, by rw [Message.segment_endIndex]; omega⟩
  have hlogd : ∀ k n, p.msg.logIndex ≤ k → k ≤ n → n < (c.nodes i).raftLog.endIndex →
      ((c.nodes i).raftLog.entry k).isSome :=
    fun k n h₁ h₂ h₃ => RaftLog.entry_isSome_iff.mpr (by omega)
  -- equal terms at a common index give equal terms at the previous one
  have meet {n : ℕ} {y z : Entry} (hy : p.msg.segment.entry n = some y)
      (hz : (c.nodes i).raftLog.entry n = some z) (hyz : y.term = z.term)
      (hn : p.msg.logIndex ≤ n) (hn' : n ≤ p.msg.upTo) : p.msg.logTerm = t := by
    have hnb := RaftLog.entry_bounds hz
    obtain ⟨y', z', hy', hz', htag, -⟩ := Chain.Linked.agree h.unambiguous hseg (h.log i)
      (fun k h₁ h₂ => hsegd k h₁ (h₂.trans hn')) (fun k h₁ h₂ => hlogd k n h₁ h₂ hnb.2) hy hz hyz
      le_rfl hn
    rw [hprev] at hy'
    rw [hd'] at hz'
    cases hy'
    cases hz'
    exact htag.trans hdt
  rcases Nat.lt_or_ge p.msg.upTo e.index with hlt | hge
  · -- the message ends below `e`
    have hknown : ∃ y v, H y v ∧ y.index = p.msg.upTo ∧ y.term = p.msg.term := by
      rcases Nat.eq_or_lt_of_le hup with heq | hlt'
      · have hxe : x.term = p.msg.logTerm := by
          rw [← heq, hprev] at hx
          cases hx
          rfl
        rcases h.knownApp p hp hma with h0 | ⟨y, v, hy, hyi, hyt⟩
        · exact absurd (hxt.symm.trans (hxe.trans h0)) hpos
        · exact ⟨y, v, hy, hyi.trans heq, hyt.trans (hxe.symm.trans hxt)⟩
      · obtain ⟨v, hv⟩ := hseg.knows hlt' hx
        exact ⟨x, v, hv, hseg.at_pos _ x hx, hxt⟩
    obtain ⟨y, v, hy, hyi, hyt⟩ := hknown
    obtain ⟨z, hz⟩ := RaftLog.exists_entry (l := (c.nodes i).raftLog) (i := p.msg.upTo)
      (by omega) (by omega)
    have hzt := h.term_down (h.log i) hy he (het.trans hyt.symm) hyi.le hlt.le hz
    exact meet hx hz (hxt.trans (hyt.symm.trans hzt.symm)) hup le_rfl
  · rcases Nat.lt_or_ge e.index p.msg.logIndex with hlt' | hge'
    · -- both have the leader's term from `e` on
      have hdT : d.term = p.msg.term :=
        h.term_up (h.log i) (fun n e he => ht ▸ hd.log i n e he) he het hlt'.le hd'
      have hpT := h.term_down hseg hH hx (hxt.trans het.symm) hlt'.le hup hprev
      exact hpT.trans (het.trans (hdT.symm.trans hdt))
    · obtain ⟨y, hy⟩ := Option.isSome_iff_exists.mp (hsegd e.index hge' hge)
      have hyt := h.term_down hseg hH hx (hxt.trans het.symm) le_rfl hge hy
      exact meet hy he hyt hge' hge

end

/-- The log has the entry of term `T` at index `a`, or has compacted it away. -/
def Holds (H : Entry → ℕ → Prop) (l : RaftLog) (a T : ℕ) : Prop :=
  a ≤ l.offset ∨ ∃ e t, H e t ∧ e.index = a ∧ e.term = T ∧ l.entry a = some e

theorem Holds.mono {K : Entry → ℕ → Prop} (hHK : ∀ e t, H e t → K e t) {a T : ℕ}
    (h : Holds H l a T) : Holds K l a T := by
  rcases h with h | ⟨e, t, he, hrest⟩
  · exact Or.inl h
  · exact Or.inr ⟨e, t, hHK e t he, hrest⟩

/-- A linked log holds its entries. -/
theorem RaftLog.Linked.holds (h : l.Linked H) {n : ℕ}
    (he : l.entry n = some e) : Holds H l n e.term := by
  rcases Nat.lt_or_ge l.offset n with hlt | hge
  · obtain ⟨t, ht⟩ := h.knows hlt he
    exact Or.inr ⟨e, t, ht, h.at_pos n e he, rfl, he⟩
  · exact Or.inl hge

theorem Grown.lastTerm_of_holds (h : Grown c H) (hd : Dated c) {a : ℕ}
    (he : (c.nodes i).raftLog.entry a = some e) (ht : e.term = (c.nodes i).term) :
    (c.nodes i).raftLog.lastTerm = (c.nodes i).term := by
  have hb := RaftLog.entry_bounds he
  obtain ⟨d, hd'⟩ := RaftLog.exists_entry (l := (c.nodes i).raftLog)
    (i := (c.nodes i).raftLog.endIndex - 1) (by omega) (by omega)
  rw [RaftLog.lastTerm_of_entry hd']
  exact h.term_up (h.log i) (hd.log i) he ht (by omega) hd'

/-- While a node stays in a term, it keeps what it holds of it. -/
theorem Grown.holds_change (h : Grown c H) (hl : Led c) (hd : Dated c) (hc : Carried c)
    (hG : ∀ c a, G c a → Forward c a) (hm : c.Source G i m) (he : LogChange (c.nodes i) r m) {a : ℕ}
    (ha : Holds H (c.nodes i).raftLog a (c.nodes i).term) :
    Holds H r.raftLog a (c.nodes i).term := by
  cases he with
  | kept log lead => rwa [log]
  | appended data state role term log =>
    rw [log]
    rcases ha with ha | ⟨e, t, hH, hi, ht, he⟩
    · exact Or.inl ha
    · refine Or.inr ⟨e, t, hH, hi, ht, ?_⟩
      rw [RaftLog.entry_append, if_pos (RaftLog.entry_bounds he).2, he]
  | @truncated m' t first hma ht term notLeader state hi hterm hne hfirst log =>
    obtain ⟨p, hp, rfl, -⟩ := mem_net_of_source hm
    have hoff := RaftLog.truncate_offset log
    rcases ha with ha | ⟨e, u, hH, hia, hte, he⟩
    · exact Or.inl (hoff ▸ ha)
    · by_cases ho : (c.nodes i).raftLog.offset ≤ first
      · have hle := (conflictFirst_spec hterm hfirst).1
        exact absurd (h.no_conflict hl hd hc hp hma ht hH (hte.trans ht.symm) (by rwa [hia])
          (ho.trans hle) hi hterm) hne
      · rw [RaftLog.truncate_of_lt (not_le.mp ho)] at log
        rw [← Option.some.inj log]
        exact Or.inr ⟨e, u, hH, hia, hte, he⟩
  | extended hma ht term notLeader state hi hterm hne log =>
    obtain ⟨k, p, hp, rfl, hdst, hg⟩ := hm
    have hpm := List.mem_of_getElem? hp
    obtain ⟨-, -, hoff, hend, -⟩ := RaftLog.truncateAndAppend_eq log
    have hlinked := (h.log i).truncateAndAppend (h.app p hpm hma) hterm log
    rcases ha with ha | ⟨e, u, hH, hia, hte, he⟩
    · exact Or.inl (hoff ▸ ha)
    · have hb := RaftLog.entry_bounds he
      have hlast := h.lastTerm_of_holds hd he hte
      -- the message does not end below the entry that is held
      have hfwd := ((hG c _ hg).2 p hp (by rw [hdst, ht]) (by rw [hdst, hlast, ht])).1 hma hne
      rw [hdst, RaftLog.lastIndex_of_pos (hc.nonempty i)] at hfwd
      have hup : p.msg.upTo + 1 = r.raftLog.endIndex := by
        rw [hend, Message.upTo]
        omega
      obtain ⟨x, hx, hxt, -⟩ := RaftLog.exists_last (l := r.raftLog) (by
        rw [Message.lastTerm_cut hne log, hc.sent p hpm hma]
        exact (hl.positive _ _ (hc.leader p hpm hma)).ne')
      rw [Message.lastTerm_cut hne log, hc.sent p hpm hma, ht] at hxt
      obtain ⟨d, hd'⟩ := RaftLog.exists_entry (l := r.raftLog) (i := a) (by omega) (by omega)
      have hdt := h.term_down hlinked hH hx (hxt.trans hte.symm) hia.le (by omega) hd'
      rw [← hte, ← hdt]
      exact hlinked.holds hd'
  | @installed m' snap hms ht term notLeader state hsnap hi log =>
    obtain ⟨k, p, hp, rfl, hdst, hg⟩ := hm
    refine Or.inl ?_
    rw [log, RaftLog.restore_offset]
    rcases ha with ha | ⟨e, u, hH, hia, hte, he⟩
    · omega
    · have hb := RaftLog.entry_bounds he
      have hlast := h.lastTerm_of_holds hd he hte
      have hfwd := ((hG c _ hg).2 p hp (by rw [hdst, ht]) (by rw [hdst, hlast, ht])).2 hms snap
        hsnap
      rw [hdst, RaftLog.lastIndex_of_pos (hc.nonempty i)] at hfwd
      omega

end

/-- A positive answer of node `j` to the leader of term `T`, up to `a`. -/
def Cluster.Ack (c : Cluster) (j T a : ℕ) : Prop :=
  ∃ p ∈ c.net, p.msg.type = .msgAppResp ∧ p.msg.reject = false ∧ p.msg.src = j ∧
    p.msg.term = T ∧ a ≤ p.msg.logIndex

/-- What was acknowledged is still held while the follower is in the leader's term, and
a leader's `Match` above its commit index was acknowledged. -/
structure Acked (c : Cluster) (H : Entry → ℕ → Prop) : Prop where
  old : ∀ p ∈ c.net, p.msg.type = .msgAppResp → p.msg.term ≤ (c.nodes p.msg.src).term
  held : ∀ p ∈ c.net, p.msg.type = .msgAppResp → p.msg.reject = false →
    (c.nodes p.msg.src).term = p.msg.term →
    Holds H (c.nodes p.msg.src).raftLog p.msg.logIndex p.msg.term
  matched : ∀ i j pr, (c.nodes i).state = .leader → Assoc.get j (c.nodes i).prs = some pr →
    j ≠ i → pr.matched ≤ (c.nodes i).commitIndex ∨ c.Ack j (c.nodes i).term pr.matched
  own : ∀ i pr, (c.nodes i).state = .leader → Assoc.get i (c.nodes i).prs = some pr →
    pr.matched < (c.nodes i).raftLog.endIndex
  offset : ∀ i, (c.nodes i).raftLog.offset ≤ (c.nodes i).commitIndex

namespace Acked

variable {S : Setup} {G : Cluster → Action → Prop} {c : Cluster} {H K : Entry → ℕ → Prop} {i : ℕ}
  {r : Raft} {m : Option Message}

theorem init (S : Setup) (H : Entry → ℕ → Prop) : Acked S.start H where
  old p hp := by simp [Setup.start] at hp
  held p hp := by simp [Setup.start] at hp
  matched _ _ _ h := nomatch h
  own _ _ h := nomatch h
  offset _ := le_rfl

/-- What a step that turns node `i` into `r` has to show. -/
structure Step (c : Cluster) (i : ℕ) (r : Raft) (H K : Entry → ℕ → Prop) : Prop where
  le : (c.nodes i).term ≤ r.term
  net : ∀ p ∈ (c.put i r).net, p ∈ c.net ∨ (p.msg.type = .msgAppResp →
    p.msg.src = i ∧ p.msg.term = r.term ∧
      (p.msg.reject = false → Holds K r.raftLog p.msg.logIndex p.msg.term))
  keep : r.term = (c.nodes i).term → ∀ a, Holds H (c.nodes i).raftLog a (c.nodes i).term →
    Holds K r.raftLog a (c.nodes i).term
  matched : r.state = .leader → ∀ j pr, Assoc.get j r.prs = some pr → j ≠ i →
    pr.matched ≤ r.commitIndex ∨ (c.put i r).Ack j r.term pr.matched
  own : r.state = .leader → ∀ pr, Assoc.get i r.prs = some pr → pr.matched < r.raftLog.endIndex
  offset : r.raftLog.offset ≤ r.commitIndex

theorem ack_put {j T a : ℕ} (i : ℕ) (r : Raft) (h : c.Ack j T a) : (c.put i r).Ack j T a := by
  obtain ⟨p, hp, hrest⟩ := h
  exact ⟨p, mem_put_net_of_mem r hp, hrest⟩

theorem put (h : Acked c H) (hHK : ∀ e t, H e t → K e t) (hs : Step c i r H K) :
    Acked (c.put i r) K where
  old p hp ht := by
    rcases hs.net p hp with hp | hnew
    · exact le_put_term hs.le (h.old p hp ht)
    · obtain ⟨hsrc, hterm, -⟩ := hnew ht
      rw [hsrc, put_nodes_self, hterm]
  held p hp ht hr hterm := by
    rcases hs.net p hp with hp | hnew
    · by_cases hi : p.msg.src = i
      · have hold := h.old p hp ht
        have hheld := h.held p hp ht hr
        rw [hi] at hterm hold hheld ⊢
        rw [put_nodes_self] at hterm ⊢
        have heq : (c.nodes i).term = p.msg.term := le_antisymm (hs.le.trans hterm.le) hold
        have := hs.keep (hterm.trans heq.symm) p.msg.logIndex (heq ▸ hheld heq)
        rwa [heq] at this
      · rw [put_nodes_of_ne _ _ hi] at hterm ⊢
        exact (h.held p hp ht hr hterm).mono hHK
    · obtain ⟨hsrc, -, hheld⟩ := hnew ht
      rw [hsrc, put_nodes_self]
      exact hheld hr
  matched j k pr hst hpr hne := by
    by_cases hj : j = i
    · subst hj
      rw [put_nodes_self] at hst hpr ⊢
      exact hs.matched hst k pr hpr hne
    · rw [put_nodes_of_ne _ _ hj] at hst hpr ⊢
      exact (h.matched j k pr hst hpr hne).imp_right (ack_put i r)
  own j pr hst hpr := by
    by_cases hj : j = i
    · subst hj
      rw [put_nodes_self] at hst hpr ⊢
      exact hs.own hst pr hpr
    · rw [put_nodes_of_ne _ _ hj] at hst hpr ⊢
      exact h.own j pr hst hpr
  offset := forall_put (P := fun _ s => s.raftLog.offset ≤ s.commitIndex) hs.offset h.offset

/-- After an answer, `Match` is backed by it or by an earlier one. -/
theorem matched_progressed (h : Acked c H) (hc : Carried c) {p : Packet} (hp : p ∈ c.net)
    (hsrc : p.msg.src ≠ i) (hmt : p.msg.type = .msgAppResp) (ht : p.msg.term = (c.nodes i).term)
    (hs : (c.nodes i).state = .leader) {pr pr' : Progress}
    (hpr : Assoc.get p.msg.src (c.nodes i).prs = some pr)
    (hpr' : (c.nodes i).respProgress pr p.msg = some pr') :
    pr'.matched ≤ (c.nodes i).commitIndex ∨
      c.Ack p.msg.src (c.nodes i).term pr'.matched := by
  obtain ⟨hnext, hmatch⟩ := respProgress_eq hpr'
  have hpos := hnext.pos (hc.nonempty i) (hc.found p hp hmt)
  cases hr : p.msg.reject with
  | false =>
    refine Or.inr ⟨p, hp, hmt, hr, rfl, ht, ?_⟩
    simp only [hr, Bool.false_eq_true, if_false] at hmatch
    rcases hmatch with ⟨hm, hle⟩ | ⟨hm, -⟩
    · rw [hm, sub64_of_le hpos]
      omega
    · exact hm.le
  | true =>
    simp only [hr, if_true] at hmatch
    have hle : pr'.matched ≤ pr.matched := by
      rcases hmatch with ⟨hm, hle⟩ | ⟨hm, -⟩
      · rw [hm, sub64_of_le hpos]
        omega
      · exact hm.le
    rcases h.matched i p.msg.src pr hs hpr hsrc with hold | ⟨q, hq, h₁, h₂, h₃, h₄, h₅⟩
    · exact Or.inl (hle.trans hold)
    · exact Or.inr ⟨q, hq, h₁, h₂, h₃, h₄, hle.trans h₅⟩

/-- The progress records that a leader has after an effect are backed by answers, as far
as they are above the commit index it had before. -/
theorem leader_step (h : Acked c H) (hw : Wired S c) (hc : Carried c)
    (hm : c.Source G i m) (he : ProgressChange (c.nodes i) r m) :
    (∀ j pr, Assoc.get j r.prs = some pr → j ≠ i →
      pr.matched ≤ (c.nodes i).commitIndex ∨ c.Ack j r.term pr.matched) ∧
    ∀ pr, Assoc.get i r.prs = some pr → pr.matched < r.raftLog.endIndex := by
  have hid := hw.id i
  have source {y : Message} (hy : c.Source G i (some y)) : y.src ≠ i := by
    obtain ⟨p, hp, rfl, hdst⟩ := mem_net_of_source hy
    exact hdst ▸ hw.ne p hp
  cases he with
  | kept role term log prs =>
    rw [prs, term, log]
    exact ⟨fun j pr => h.matched i j pr role, fun pr => h.own i pr role⟩
  | appended role term data log prs =>
    rw [prs, term, log, hid, RaftLog.append_endIndex]
    refine ⟨fun j pr hpr hne => ?_, fun pr hpr => ?_⟩
    · rw [Assoc.get_set_of_ne hne] at hpr
      exact h.matched i j pr role hpr hne
    · rw [Assoc.get_set_self] at hpr
      cases hpr
      exact Nat.lt_succ_self _
  | won role term log prs =>
    rw [prs, term, log, hid, RaftLog.append_endIndex]
    refine ⟨fun j pr hpr hne => ?_, fun pr hpr => ?_⟩
    · rw [Assoc.get_set_of_ne hne,
        Assoc.get_map fun _ => ({ next := (c.nodes i).raftLog.endIndex } : Progress)] at hpr
      obtain ⟨pr₀, -, rfl⟩ := Option.map_eq_some_iff.mp hpr
      exact Or.inl (Nat.zero_le _)
    · rw [Assoc.get_set_self] at hpr
      cases hpr
      exact Nat.lt_succ_self _
  | progressed role term log hmt ht hpr hpr' prs =>
    have hsrc := source hm
    obtain ⟨p, hp, rfl, hdst⟩ := mem_net_of_source hm
    rw [prs, term, log]
    refine ⟨fun j pr hget hne => ?_, fun pr hget => ?_⟩
    · rw [Assoc.get_set] at hget
      split_ifs at hget with hj
      · cases hget
        rw [hj]
        exact h.matched_progressed hc hp hsrc hmt ht role hpr hpr'
      · exact h.matched i j pr role hget hne
    · rw [Assoc.get_set_of_ne hsrc.symm] at hget
      exact h.own i pr role hget
  | snapAcked role term log prs =>
    have hsrc := source hm
    rw [prs, term, log]
    refine ⟨fun j pr hget hne => ?_, fun pr hget => ?_⟩
    · rw [Assoc.get_set] at hget
      split_ifs at hget
      · cases hget
        exact Or.inl (h.offset i)
      · exact h.matched i j pr role hget hne
    · rw [Assoc.get_set_of_ne hsrc.symm] at hget
      exact h.own i pr role hget

/-- A new acknowledgement says what the follower holds. -/
theorem sent_step (hg : Grown c H) (hl : Led c) (hd : Dated c) (hc : Carried c) (hid : r.id = i)
    (hk : r.raftLog.Linked K) (hm : c.Source G i m) {x : Message} (hx : Sent (c.nodes i) r m x)
    (ht : x.type = .msgAppResp) :
    x.src = i ∧ x.term = r.term ∧ (x.reject = false → Holds K r.raftLog x.logIndex x.term) := by
  obtain ⟨hsrc, hterm⟩ := hx.answering ht
  refine ⟨hsrc.trans hid, hterm, fun hr => ?_⟩
  cases hx with
  | replicated h => obtain ⟨pr, -, ⟨ht', -⟩ | ⟨ht', -⟩⟩ := h.body <;> simp [ht'] at ht
  | stale => cases hr
  | missing => cases hr
  | conflict => cases hr
  | acked hma htm term hs hi hlast hlog =>
    obtain ⟨p, hp, rfl, -⟩ := mem_net_of_source hm
    have hterm := hg.accepted_last hl hd hc hp hma htm hlast hlog
    have hpos : p.msg.term ≠ 0 := (hl.positive _ _ (hc.leader p hp hma)).ne'
    obtain ⟨e, he, het, hoff⟩ := RaftLog.exists_last (hterm.trans_ne hpos)
    have hidx : r.raftLog.lastIndex = r.raftLog.endIndex - 1 :=
      RaftLog.lastIndex_of_pos (by omega)
    have het' : e.term = r.term := het.trans (hterm.trans (htm.trans term.symm))
    change Holds K r.raftLog r.raftLog.lastIndex r.term
    rw [hidx, ← het']
    exact hk.holds he
  | _ => cases ht

theorem effect (h : Acked c H) (hg : Grown c H) (hw : Wired S c) (hl : Led c) (hd : Dated c)
    (hc : Carried c) (hG : ∀ c a, G c a → Forward c a) (hK : Grown (c.put i r) K)
    (hHK : ∀ e t, H e t → K e t) (hm : c.Source G i m)
    (hb : m = none → r.term ≠ (c.nodes i).term → (c.nodes i).term + 1 < 2 ^ 64)
    (he : (c.nodes i).Effect m r) : Acked (c.put i r) K := by
  have hlinked : r.raftLog.Linked K := by
    have := hK.log i
    rwa [put_nodes_self] at this
  refine h.put hHK ⟨he.term_le (hw.not_hup hm) hb, fun p hp => ?_, fun ht a ha => ?_,
    fun hs j pr hpr hne => ?_, fun hs => (h.leader_step hw hc hm (he.progress hs)).2, ?_⟩
  · rcases sent_of_mem_put_net he hp with hp | ⟨hx, -⟩
    · exact Or.inl hp
    · exact Or.inr (sent_step hg hl hd hc (he.id_eq.trans (hw.id i)) hlinked hm hx)
  · exact (hg.holds_change hl hd hc hG hm he.log ha).mono hHK
  · rcases (h.leader_step hw hc hm (he.progress hs)).1 j pr hpr hne with hle | hack
    · exact Or.inl (hle.trans he.commit_le)
    · exact Or.inr (ack_put i r hack)
  · rcases he.offset_cases with heq | ⟨-, hle⟩
    · rw [heq]
      exact (h.offset i).trans he.commit_le
    · exact hle

theorem compact (h : Acked c H) (hc : Carried c) {index t : ℕ} (data : Bytes)
    (hin : index ≤ (c.nodes i).raftLog.lastIndex) (ho : (c.nodes i).raftLog.offset < index) :
    Acked (c.put i ((c.nodes i).compacted index t data)) H := by
  have hnil := hc.nonempty i
  rw [RaftLog.lastIndex_of_pos hnil] at hin
  obtain ⟨hoff, hend, hent⟩ := RaftLog.compactTo_eq t ho (by omega : index < _)
  refine h.put (fun _ _ h => h) ⟨le_rfl, fun p hp => ?_, fun _ a ha => ?_,
    fun hs j pr hpr hne => ?_, fun hs pr hpr => ?_, ?_⟩
  · exact Or.inl (by rwa [put_net_compacted] at hp)
  · rcases ha with ha | ⟨e, u, hH, hia, hte, he⟩
    · exact Or.inl (ha.trans (ho.le.trans hoff.ge))
    · rcases Nat.lt_or_ge index a with hlt | hge
      · refine Or.inr ⟨e, u, hH, hia, hte, ?_⟩
        change ((c.nodes i).raftLog.compactTo index t).entry a = some e
        rw [hent, if_neg hlt.ne', if_pos hlt, he]
      · exact Or.inl (hge.trans hoff.ge)
  · have hs' : (c.nodes i).state = .leader := hs
    simp only [Raft.compacted, hs', if_true] at hpr
    rw [Assoc.get_map (compactProgress _)] at hpr
    obtain ⟨pr₀, hpr₀, rfl⟩ := Option.map_eq_some_iff.mp hpr
    have hcommit : ((c.nodes i).compacted index t data).commitIndex =
      max index (c.nodes i).commitIndex := rfl
    unfold compactProgress RaftLog.firstIndex
    rw [hoff, hcommit]
    dsimp only
    split_ifs with hlt
    · exact Or.inl (le_max_left _ _)
    · rcases h.matched i j pr₀ hs' hpr₀ hne with hle | hack
      · exact Or.inl (hle.trans (le_max_right _ _))
      · exact Or.inr (ack_put i _ hack)
  · have hs' : (c.nodes i).state = .leader := hs
    simp only [Raft.compacted, hs', if_true] at hpr
    rw [Assoc.get_map (compactProgress _)] at hpr
    obtain ⟨pr₀, hpr₀, rfl⟩ := Option.map_eq_some_iff.mp hpr
    have hown := h.own i pr₀ hs' hpr₀
    change (compactProgress _ pr₀).matched < ((c.nodes i).raftLog.compactTo index t).endIndex
    unfold compactProgress RaftLog.firstIndex
    dsimp only
    split_ifs <;> omega
  · exact hoff.le.trans (le_max_left _ _)

theorem advance (h : Acked c H) : Acked (c.put i (c.nodes i).advance) H :=
  h.put (fun _ _ h => h) ⟨le_rfl, fun p hp => Or.inl (by rwa [put_net_advance] at hp),
    fun _ _ ha => ha, fun hs j pr hpr hne => (h.matched i j pr hs hpr hne).imp_right (ack_put i _),
    fun hs pr => h.own i pr hs, h.offset i⟩

theorem of_reaches (hG : ∀ c a, G c a → Forward c a) (h : S.Reaches G c) (hu : c.UniqueLeaders) :
    ∃ H, Grown c H ∧ Acked c H := by
  have hS : ∀ c a, G c a → SnapshotInLog c a := fun c a h => (hG c a h).1
  revert hu
  refine h.induct (I := fun c => c.UniqueLeaders → ∃ H, Grown c H ∧ Acked c H)
    (fun _ => ⟨_, Grown.init S, init S _⟩)
    (fun c d rd hI hu => (hI hu).imp fun H hH => ⟨{ hH.1 with }, { hH.2 with }⟩) ?_ ?_ ?_
  · intro c i m r hr hI hi hm hb he hu
    obtain ⟨H, hH, hA⟩ := hI hu.of_put
    have hc : Carried c := .of_reaches hS hr
    obtain ⟨K, hK, hHK, -⟩ :=
      hH.effect (.of_reaches hr) (.of_reaches hr) (.of_reaches hr) hc hu hm hb he
    exact ⟨K, hK, hA.effect hH (.of_reaches hr) (.of_reaches hr) (.of_reaches hr) hc hG hK hHK
      hm hb he⟩
  · intro c i index t data hr hI hi hg _ ho ht hu
    obtain ⟨H, hH, hA⟩ := hI hu.of_put
    exact ⟨H, hH.compact (.of_reaches hr) data ho ht,
      hA.compact (.of_reaches hS hr) data (hS c _ hg) ho⟩
  · intro c i hr hI hi hu
    obtain ⟨H, hH, hA⟩ := hI hu.of_put
    exact ⟨H, hH.advance (.of_reaches hr), hA.advance⟩

/-- What the leader has been told it shares with a follower that is still in its term. -/
theorem agree (h : Acked c H) (hg : Grown c H) (hl : Led c) {j a k : ℕ}
    (hs : (c.nodes i).state = .leader) (hack : c.Ack j (c.nodes i).term a)
    (hj : (c.nodes j).term ≤ (c.nodes i).term) (hi : (c.nodes i).raftLog.offset < k)
    (hoj : (c.nodes j).raftLog.offset < k) (hk : k ≤ a) :
    ∃ e, (c.nodes i).raftLog.entry k = some e ∧ (c.nodes j).raftLog.entry k = some e := by
  obtain ⟨p, hp, ht, hr, rfl, hterm, ha⟩ := hack
  have hold := h.old p hp ht
  rcases h.held p hp ht hr (le_antisymm (hj.trans hterm.ge) hold) with hle |
    ⟨e, t, hH, hidx, het, he⟩
  · omega
  · have hmem := hl.leads i hs
    have he' : (c.nodes i).raftLog.entry e.index = some e :=
      hg.held e t i hH (by rwa [het, hterm]) (by rw [het, hterm]) (by omega)
    rw [hidx] at he'
    exact hg.agree he' he rfl hi hoj (hk.trans ha)

/-- The nodes behind a commit of a leader: itself, and nodes that acknowledged the index. -/
theorem quorum (h : Acked c H) (hw : Wired S c) (hc : Carried c) (hm : c.Source G i m)
    (hw' : Wired S (c.put i r)) (he : (c.nodes i).Effect m r) (hs : r.state = .leader)
    (hlt : (c.nodes i).commitIndex < r.commitIndex) :
    ∃ Q ⊆ S.ids.toFinset, S.ids.length < 2 * Q.card ∧
      ∀ j ∈ Q, j = i ∧ r.commitIndex < r.raftLog.endIndex ∨ c.Ack j r.term r.commitIndex := by
  have hprs : Assoc.keys r.prs = S.ids := by
    have := hw'.peers i
    rwa [put_nodes_self] at this
  have hlen : r.prs.length = S.ids.length := by
    rw [← hprs, Assoc.keys, List.length_map]
  rcases he.leader_commit hs with heq | ⟨-, hq, -⟩
  · exact absurd heq hlt.ne'
  · have hnodup : (Assoc.keys r.prs).Nodup := hprs ▸ S.nodup
    have hids : ∀ k ∈ Assoc.keys r.prs, k ∈ S.ids := fun k hk => hprs ▸ hk
    obtain ⟨Q, hQ, hcard, hmem⟩ := Majority.exists_keys
      (P := fun p => r.commitIndex ≤ p.2.matched) hnodup hids (by
        unfold QuorumMatch Raft.quorum at hq
        omega)
    obtain ⟨hacks, hown⟩ := h.leader_step hw hc hm (he.progress hs)
    refine ⟨Q, hQ, hcard, fun j hj => ?_⟩
    obtain ⟨pr, hpr, hge⟩ := hmem j hj
    have hget := Assoc.get_of_mem hnodup hpr
    have hge' : r.commitIndex ≤ pr.matched := of_decide_eq_true hge
    by_cases hji : j = i
    · subst hji
      exact Or.inl ⟨rfl, hge'.trans_lt (hown pr hget)⟩
    · rcases hacks j pr hget hji with hle | ⟨q, hq', h₁, h₂, h₃, h₄, h₅⟩
      · omega
      · exact Or.inr ⟨q, hq', h₁, h₂, h₃, h₄, hge'.trans h₅⟩

end Acked

instance (c : Cluster) (a : Action) : Decidable (SnapshotInLog c a) :=
  match a with
  | .snapshot i index _ => inferInstanceAs (Decidable (index ≤ (c.nodes i).raftLog.lastIndex))
  | .tick .. | .propose .. | .readIndex .. | .cancelReadIndex .. | .ready .. | .deliver .. =>
    instDecidableTrue

instance (c : Cluster) (a : Action) : Decidable (Forward c a) :=
  inferInstanceAs (Decidable (_ ∧ c.Delivering _ a))

section

variable {S : Setup} {c c' : Cluster} {i j k n : ℕ} {r : Raft} {m : Option Message}

end

end Mizu
