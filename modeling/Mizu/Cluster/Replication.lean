import Mizu.Cluster.LogMatching
import Mizu.Cluster.Ranges

/-!
# Replication messages and progress

A leader's last entry is of its own term, and every `MsgApp` it sends runs up to
that entry; what its followers answer never points past it. Both rest on a leader
compacting only indices that are in its log.
-/

namespace Mizu

open Raft Cluster

/-- Compaction stays inside the log. -/
def SnapshotInLog (c : Cluster) : Action → Prop
  | .snapshot i index _ => index ≤ (c.nodes i).raftLog.lastIndex
  | _ => True

theorem Message.segment_endIndex (m : Message) : m.segment.endIndex = m.upTo + 1 := by
  simp only [segment, RaftLog.endIndex, List.length_cons, upTo]
  omega

namespace RaftLog

variable {l : RaftLog}

theorem exists_last (h : l.lastTerm ≠ 0) :
    ∃ e, l.entry (l.endIndex - 1) = some e ∧ e.term = l.lastTerm ∧ l.offset < l.endIndex := by
  have hlen : 0 < l.entries.length := by
    by_contra h0
    exact h (lastTerm_eq_zero (List.length_eq_zero_iff.mp (by omega)))
  have ho : l.offset < l.endIndex := by
    unfold endIndex
    omega
  obtain ⟨e, he⟩ := exists_entry (l := l) (i := l.endIndex - 1) (by omega) (by omega)
  exact ⟨e, he, (lastTerm_of_entry he).symm, ho⟩

theorem lastTerm_append (x : Entry) : (l.append [x]).lastTerm = x.term := by
  simp [append, lastTerm]

/-- What a leader sends from `next` on ends where its log ends. -/
theorem segment_last {m : Message} {next : ℕ} (ho : l.offset < next) (hn : next ≤ l.endIndex)
    (hi : m.logIndex + 1 = next) (ht : l.term m.logIndex = some m.logTerm)
    (hes : m.entries = l.slice next l.endIndex) :
    m.upTo + 1 = l.endIndex ∧ m.segment.lastTerm = l.lastTerm := by
  have hup : m.upTo + 1 = l.endIndex := by
    rw [Message.upTo, hes, length_slice ho.le]
    omega
  refine ⟨hup, ?_⟩
  obtain ⟨d, hd⟩ := exists_entry (l := l) (i := m.upTo) (by omega) (by omega)
  have hlast : l.lastTerm = d.term := lastTerm_of_entry (by rwa [← hup, Nat.add_sub_cancel])
  have hend : m.segment.endIndex - 1 = m.upTo := by
    rw [Message.segment_endIndex, Nat.add_sub_cancel]
  by_cases he : m.logIndex < m.upTo
  · have hseg : m.segment.entry m.upTo = some d := by
      rw [Message.segment_entry_of_lt he, hes, hi, entry_slice next ho.le, ← hd]
      congr 1
      omega
    rw [hlast]
    exact lastTerm_of_entry (by rwa [hend])
  · have hi' : m.upTo = m.logIndex := by
      omega
    rw [hi'] at hd hend
    rw [term_of_entry hd] at ht
    rw [hlast, Option.some.inj ht]
    exact lastTerm_of_entry (by rw [hend]; exact Message.segment_entry_self m)

end RaftLog

/-- Leaders have ended their logs in their own term, and so do their messages. -/
structure Carried (c : Cluster) : Prop extends Ranged c where
  last : ∀ i, (c.nodes i).state = .leader → (c.nodes i).raftLog.lastTerm = (c.nodes i).term
  sent : ∀ p ∈ c.net, p.msg.type = .msgApp → p.msg.segment.lastTerm = p.msg.term

namespace Carried

variable {S : Setup} {G : Cluster → Action → Prop} {c : Cluster} {i : ℕ} {r : Raft}
  {m : Option Message}

theorem put (h : Carried c) (hr : Ranged (c.put i r))
    (hlast : r.state = .leader → r.raftLog.lastTerm = r.term)
    (hnet : ∀ p ∈ (c.put i r).net, p ∈ c.net ∨ r.Outgoing p.msg ∨ p.msg.type ≠ .msgApp) :
    Carried (c.put i r) where
  toRanged := hr
  last := forall_put (P := fun _ s => s.state = .leader → s.raftLog.lastTerm = s.term) hlast h.last
  sent p hp ht := by
    rcases hnet p hp with hp | ho | hne
    · exact h.sent p hp ht
    · obtain ⟨pr, hpr, ⟨-, hoff, hi, hterm, hes, -⟩ | ⟨ht', -⟩⟩ := ho.body
      · have htracks := (hr.node i).tracks
        rw [put_nodes_self] at htracks
        have hnext := ((htracks ho.leader).peers _ pr hpr).2
        rw [(RaftLog.segment_last hoff hnext hi hterm hes).2, hlast ho.leader, ho.term]
      · simp [ht] at ht'
    · exact absurd ht hne

theorem effect (h : Carried c) (hw : Wired S c) (hl : Led c) (hd : Dated c) (hm : c.Source G i m)
    (hb : m = none → r.term ≠ (c.nodes i).term → (c.nodes i).term + 1 < 2 ^ 64)
    (he : (c.nodes i).Effect m r) : Carried (c.put i r) := by
  refine h.put (h.toRanged.effect hw hl hd hm hb he) (fun hs => ?_) fun p hp => ?_
  · cases he.progress hs with
    | kept role term log => rw [log, term, h.last i role]
    | appended role term data log => rw [log, term, RaftLog.lastTerm_append]; rfl
    | won role term log => rw [log, term, RaftLog.lastTerm_append]; rfl
    | progressed role term log => rw [log, term, h.last i role]
    | snapAcked role term log => rw [log, term, h.last i role]
  · rcases sent_of_mem_put_net he hp with hp | ⟨hx, -⟩
    · exact Or.inl hp
    · exact Or.inr (hx.outgoing.imp_right And.left)

theorem of_reaches (hG : ∀ c a, G c a → SnapshotInLog c a) (h : S.Reaches G c) : Carried c := by
  refine h.induct ⟨.init S, nofun, by simp [Setup.start]⟩ (fun c d rd hc => { hc with }) ?_ ?_ ?_
  · intro c i m r hr hc hi hm hb he
    exact hc.effect (.of_reaches hr) (.of_reaches hr) (.of_reaches hr) hm hb he
  · intro c i index t data hr hc hi hg _ ho ht
    have hin : index < (c.nodes i).raftLog.endIndex := by
      have hle : index ≤ (c.nodes i).raftLog.lastIndex := hG c _ hg
      have hnil := hc.nonempty i
      rw [RaftLog.lastIndex_of_pos hnil] at hle
      omega
    obtain ⟨hoff, hend, hent⟩ := RaftLog.compactTo_eq t ho hin
    have hlast : ((c.nodes i).raftLog.compactTo index t).lastTerm =
        (c.nodes i).raftLog.lastTerm := by
      obtain ⟨e, he⟩ := RaftLog.exists_entry (l := (c.nodes i).raftLog)
        (i := (c.nodes i).raftLog.endIndex - 1) (by omega) (by omega)
      rw [RaftLog.lastTerm_of_entry he]
      by_cases heq : (c.nodes i).raftLog.endIndex - 1 = index
      · rw [heq] at he
        rw [RaftLog.term_of_entry he] at ht
        rw [Option.some.inj ht]
        exact RaftLog.lastTerm_of_entry (e := { term := t, index := index })
          (by rw [hend, heq, hent, if_pos rfl])
      · refine RaftLog.lastTerm_of_entry ?_
        rw [hend, hent, if_neg heq, if_pos (by omega), he]
    refine hc.put (hc.compact (.of_reaches hr) (.of_reaches hr) data ho ht)
      (fun hs => hlast.trans (hc.last i hs)) fun p hp => Or.inl (by rwa [put_net_compacted] at hp)
  · intro c i hr hc hi
    have hw : Wired S c := .of_reaches hr
    exact hc.put (hc.advance hw (.of_reaches hr)) (hc.last i)
      fun p hp => Or.inl (by rwa [put_net_advance] at hp)

end Carried

/-- An entry of term `t` has been made at index `n`, unless `t` stands for no entry. -/
def Knows (H : Entry → ℕ → Prop) (n t : ℕ) : Prop :=
  t = 0 ∨ ∃ e u, H e u ∧ e.index = n ∧ e.term = t

variable {K : Entry → ℕ → Prop}

theorem Knows.mono {H : Entry → ℕ → Prop} (hHK : ∀ e t, H e t → K e t) {n t : ℕ}
    (h : Knows H n t) : Knows K n t := by
  rcases h with h | ⟨e, u, he, hn, ht⟩
  · exact Or.inl h
  · exact Or.inr ⟨e, u, hHK e u he, hn, ht⟩

/-- Above its sentinel a linked log only has entries that were made. -/
theorem RaftLog.Linked.knows {H : Entry → ℕ → Prop} {l : RaftLog} (h : l.Linked H) {n : ℕ}
    {e : Entry} (hn : l.offset < n) (he : l.entry n = some e) : ∃ t, H e t := by
  have hb := RaftLog.entry_bounds he
  obtain ⟨k, rfl⟩ : ∃ k, n = k + 1 := ⟨n - 1, by omega⟩
  obtain ⟨d, hd⟩ := RaftLog.exists_entry (l := l) (i := k) (by omega) (by omega)
  exact ⟨_, h.link k d e hd he⟩

/-- The leader `s` has just made `e`, on top of an entry of term `t`. -/
structure Raft.Makes (r s : Raft) (e : Entry) (t : ℕ) : Prop where
  state : s.state = .leader
  role : r.state = .leader ∨ r.state = .candidate
  term : s.term = r.term
  entry_term : e.term = r.term
  entry_index : e.index = r.raftLog.endIndex
  log : s.raftLog = r.raftLog.append [e]
  last : t = r.raftLog.lastTerm

/-- Terms do not fall along a log, the entries of one term stand next to each other, the
leader of a term has all its entries above the sentinel, and every term that a log, a
snapshot or a message mentions for an index belongs to an entry made there. -/
structure Grown (c : Cluster) (H : Entry → ℕ → Prop) : Prop extends Recorded c H where
  mono : ∀ e t, H e t → t ≤ e.term
  run : ∀ e t e' t', H e t → H e' t' → e.term = e'.term → e'.index < e.index → t = e.term
  held : ∀ e t i, H e t → (e.term, i) ∈ c.led → (c.nodes i).term = e.term →
    (c.nodes i).raftLog.offset < e.index → (c.nodes i).raftLog.entry e.index = some e
  known : ∀ i n e, (c.nodes i).raftLog.entry n = some e → Knows H n e.term
  knownSnap : ∀ i s, (c.nodes i).currentSnapshot = some s → Knows H s.index s.term
  knownApp : ∀ p ∈ c.net, p.msg.type = .msgApp → Knows H p.msg.logIndex p.msg.logTerm
  knownInstall : ∀ p ∈ c.net, p.msg.type = .msgSnap → ∀ s, p.msg.snapshot = some s →
    Knows H s.index s.term

namespace Grown

variable {S : Setup} {G : Cluster → Action → Prop} {c : Cluster} {H : Entry → ℕ → Prop} {i : ℕ}
  {r : Raft} {m : Option Message}

theorem init (S : Setup) : Grown S.start fun _ _ => False where
  toRecorded := Recorded.init S
  mono _ _ h := h.elim
  run _ _ _ _ h := h.elim
  held _ _ _ h := h.elim
  known i n e he := by
    have hlog : (S.start.nodes i).raftLog = RaftLog.restore 0 0 := rfl
    rw [hlog, RaftLog.entry_restore] at he
    split_ifs at he
    cases he
    exact Or.inl rfl
  knownSnap _ _ h := nomatch h
  knownApp p hp := by simp [Setup.start] at hp
  knownInstall p hp := by simp [Setup.start] at hp

/-- What the new node and its messages mention is known. -/
structure Mentions (c : Cluster) (i : ℕ) (r : Raft) (H : Entry → ℕ → Prop) : Prop where
  log : ∀ n e, r.raftLog.entry n = some e → Knows H n e.term
  snap : ∀ s, r.currentSnapshot = some s → Knows H s.index s.term
  net : ∀ p ∈ (c.put i r).net, p ∈ c.net ∨ r.Outgoing p.msg ∨
    (p.msg.type ≠ .msgApp ∧ p.msg.type ≠ .msgSnap)

section

variable (hm : Mentions c i r K) (h : Grown c H) (hHK : ∀ e t, H e t → K e t)

include hm h hHK

theorem Mentions.nodes : (∀ j n e, ((c.put i r).nodes j).raftLog.entry n = some e →
      Knows K n e.term) ∧ ∀ j s, ((c.put i r).nodes j).currentSnapshot = some s →
      Knows K s.index s.term := by
  constructor
  · exact forall_put (P := fun _ s => ∀ n e, s.raftLog.entry n = some e → Knows K n e.term) hm.log
      fun j n e he => (h.known j n e he).mono hHK
  · exact forall_put (P := fun _ r => ∀ s, r.currentSnapshot = some s → Knows K s.index s.term)
      hm.snap fun j s hs => (h.knownSnap j s hs).mono hHK

theorem Mentions.app : ∀ p ∈ (c.put i r).net, p.msg.type = .msgApp →
      Knows K p.msg.logIndex p.msg.logTerm := by
  intro p hp ht
  rcases hm.net p hp with hp | ho | ⟨hne, -⟩
  · exact (h.knownApp p hp ht).mono hHK
  · obtain ⟨pr, -, ⟨-, -, -, hterm, -⟩ | ⟨ht', -⟩⟩ := ho.body
    · rcases RaftLog.term_eq hterm with ⟨e, he, heq⟩ | ⟨-, h0⟩
      · exact heq ▸ hm.log _ e he
      · exact Or.inl h0
    · simp [ht] at ht'
  · exact absurd ht hne

theorem Mentions.install : ∀ p ∈ (c.put i r).net, p.msg.type = .msgSnap →
      ∀ s, p.msg.snapshot = some s → Knows K s.index s.term := by
  intro p hp ht s hs
  rcases hm.net p hp with hp | ho | ⟨-, hne⟩
  · exact (h.knownInstall p hp ht s hs).mono hHK
  · obtain ⟨pr, -, ⟨ht', -⟩ | ⟨-, -, s', hs', -, hx⟩⟩ := ho.body
    · simp [ht] at ht'
    · rw [hx] at hs
      cases hs
      exact hm.snap s hs'
  · exact absurd ht hne

end

section

variable (h : Grown c H)

include h

/-- A step at `i` that makes no entry and keeps those above the sentinel of a leader. -/
theorem put (hl : Led (c.put i r)) (hrec : Recorded (c.put i r) H)
    (hlog : r.state = .leader → (c.nodes i).state = .leader ∧ r.term = (c.nodes i).term ∧
      ∀ n, r.raftLog.offset < n → n < (c.nodes i).raftLog.endIndex →
        (c.nodes i).raftLog.offset < n ∧ r.raftLog.entry n = (c.nodes i).raftLog.entry n)
    (hold : Led c) (hm : Mentions c i r H) : Grown (c.put i r) H where
  toRecorded := hrec
  mono := h.mono
  run := h.run
  known := (hm.nodes h fun _ _ h => h).1
  knownSnap := (hm.nodes h fun _ _ h => h).2
  knownApp := hm.app h fun _ _ h => h
  knownInstall := hm.install h fun _ _ h => h
  held e t j he hj hterm hoff := by
    by_cases hji : j = i
    · subst hji
      have hst := (hl.past _ j hj).2 hterm.symm
      rw [put_nodes_self] at hst hterm hoff ⊢
      obtain ⟨hs, ht, hent⟩ := hlog hst
      have hmem : (e.term, j) ∈ c.led := by
        rw [← hterm, ht]
        exact hold.leads j hs
      have hb := h.below e t j he hmem (ht.symm.trans hterm)
      obtain ⟨hoff', heq⟩ := hent e.index hoff hb
      rw [heq]
      exact h.held e t j he hmem (ht.symm.trans hterm) hoff'
    · rw [put_nodes_of_ne _ _ hji] at hterm hoff ⊢
      have hmem : (e.term, j) ∈ c.led := by
        rcases mem_put_led hj with hm | ⟨-, heq⟩
        · exact hm
        · exact absurd (congrArg Prod.snd heq) hji
      exact h.held e t j he hmem hterm hoff

theorem put_append (hl : Led c) (hd : Dated c) (hc : Carried c)
    (hu : (c.put i r).UniqueLeaders) {data : Bytes}
    (hrec : Recorded (c.put i r) (Recorded.made H (c.nodes i) data)) (hst : r.state = .leader)
    (hrole : (c.nodes i).state = .leader ∨ (c.nodes i).state = .candidate)
    (hterm : r.term = (c.nodes i).term)
    (hlog : r.raftLog = (c.nodes i).raftLog.append [(c.nodes i).newEntry data])
    (hm : Mentions c i r (Recorded.made H (c.nodes i) data)) :
    Grown (c.put i r) (Recorded.made H (c.nodes i) data) := by
  have hfresh {e : Entry} {t : ℕ} (he : H e t) (het : e.term = (c.nodes i).term) :=
    h.fresh hl hu hterm hst hrole he het
  have hsub : ∀ e t, H e t → Recorded.made H (c.nodes i) data e t := fun _ _ => Or.inl
  refine ⟨hrec, ?_, ?_, ?_, (hm.nodes h hsub).1, (hm.nodes h hsub).2, hm.app h hsub,
    hm.install h hsub⟩
  · rintro e t (he | ⟨rfl, rfl⟩)
    · exact h.mono e t he
    · by_cases h0 : (c.nodes i).raftLog.lastTerm = 0
      · rw [h0]
        exact Nat.zero_le _
      · obtain ⟨d, hd', hdt, -⟩ := RaftLog.exists_last h0
        rw [← hdt]
        exact hd.log i _ d hd'
  · rintro e t e' t' (he | ⟨rfl, rfl⟩) (he' | ⟨rfl, rfl⟩) hee hlt
    · exact h.run e t e' t' he he' hee hlt
    · exact absurd hlt (hfresh he hee).not_gt
    · -- the leader appends after an entry of its own term
      rcases hrole with hs | hs
      · exact hc.last i hs
      · have := h.led_of_record hu hst he' (hee.symm.trans hterm.symm)
        exact absurd (hterm ▸ this) (hl.not_mem_of_candidate hs)
    · exact absurd hlt (lt_irrefl _)
  · intro e t j he hj htj hoff
    by_cases hji : j = i
    · subst hji
      rw [put_nodes_self] at htj hoff ⊢
      rw [hlog, RaftLog.append_offset] at hoff
      rw [hlog, RaftLog.entry_append]
      rcases he with he | ⟨rfl, rfl⟩
      · have het : e.term = (c.nodes j).term := htj.symm.trans hterm
        rw [if_pos (hfresh he het)]
        have hmem := h.led_of_record hu hst he htj.symm
        exact h.held e t j he (htj ▸ hmem) het.symm hoff
      · simp [newEntry]
    · rw [put_nodes_of_ne _ _ hji] at htj hoff ⊢
      have hold : (e.term, j) ∈ c.led := by
        rcases mem_put_led hj with hm | ⟨-, heq⟩
        · exact hm
        · exact absurd (congrArg Prod.snd heq) hji
      rcases he with he | ⟨rfl, rfl⟩
      · exact h.held e t j he hold htj hoff
      · have hi : ((c.nodes i).term, i) ∈ (c.put i r).led := by
          simp [Cluster.put, hst, hterm]
        exact absurd (hu _ j i (mem_put_led_of_mem i r hold) hi) hji

/-- The entries of the new log were made before, or the leader makes one now. -/
theorem known_change (hm : c.Source G i m) (he : LogChange (c.nodes i) r m)
    (hHK : ∀ e t, H e t → K e t)
    (hnew : ∀ data, r.raftLog = (c.nodes i).raftLog.append [(c.nodes i).newEntry data] →
      r.state = .leader → ∃ t, K ((c.nodes i).newEntry data) t) {n : ℕ} {e : Entry}
    (hn : r.raftLog.entry n = some e) : Knows K n e.term := by
  cases he with
  | kept log lead => exact (h.known i n e (log ▸ hn)).mono hHK
  | appended data state role term log =>
    have hlog := hn
    rw [log, RaftLog.entry_append] at hlog
    split_ifs at hlog with hlt
    · exact (h.known i n e hlog).mono hHK
    · obtain ⟨t, ht⟩ := hnew data log state
      have hx := List.mem_singleton.mp (List.mem_of_getElem? hlog)
      have hidx : n - (c.nodes i).raftLog.endIndex < 1 := by
        have := (List.getElem?_eq_some_iff.mp hlog).1
        simpa using this
      rw [hx]
      refine Or.inr ⟨_, t, ht, ?_, rfl⟩
      change (c.nodes i).raftLog.endIndex = n
      omega
  | @truncated m' t first hma ht term notLeader state hi hterm hne hfirst log =>
    by_cases ho : (c.nodes i).raftLog.offset ≤ first
    · obtain ⟨-, -, -, hent⟩ := RaftLog.truncate_eq ho log
      rw [hent] at hn
      split_ifs at hn
      exact (h.known i n e hn).mono hHK
    · rw [RaftLog.truncate_of_lt (not_le.mp ho)] at log
      rw [← Option.some.inj log] at hn
      exact (h.known i n e hn).mono hHK
  | extended hma ht term notLeader state hi hterm hne log =>
    obtain ⟨-, -, -, -, hent⟩ := RaftLog.truncateAndAppend_eq log
    rw [hent] at hn
    split_ifs at hn with hle
    · exact (h.known i n e hn).mono hHK
    · obtain ⟨p, hp, rfl, -⟩ := mem_net_of_source hm
      have hlt : p.msg.logIndex < n := not_le.mp hle
      have hseg : p.msg.segment.entry n = some e := by rwa [Message.segment_entry_of_lt hlt]
      obtain ⟨t, hH⟩ := (h.app p hp hma).knows hlt hseg
      exact Or.inr ⟨e, t, hHK e t hH, (h.app p hp hma).at_pos n e hseg, rfl⟩
  | installed hms ht term notLeader state hsnap hi log =>
    obtain ⟨p, hp, rfl, -⟩ := mem_net_of_source hm
    rw [log, RaftLog.entry_restore] at hn
    split_ifs at hn with heq
    cases hn
    exact heq ▸ (h.knownInstall p hp hms _ hsnap).mono hHK

theorem mentions (hm : c.Source G i m) (he : (c.nodes i).Effect m r) (hHK : ∀ e t, H e t → K e t)
    (hnew : ∀ data, r.raftLog = (c.nodes i).raftLog.append [(c.nodes i).newEntry data] →
      r.state = .leader → ∃ t, K ((c.nodes i).newEntry data) t) : Mentions c i r K := by
  refine ⟨fun n e => h.known_change hm he.log hHK hnew, fun s hs => ?_, fun p hp => ?_⟩
  · rcases he.currentSnapshot with heq | ⟨m', snap, rfl, hms, ht, hsnap, heq⟩
    · exact (h.knownSnap i s (heq ▸ hs)).mono hHK
    · obtain ⟨p, hp, rfl, -⟩ := mem_net_of_source hm
      rw [heq] at hs
      cases hs
      exact (h.knownInstall p hp hms s hsnap).mono hHK
  · rcases sent_of_mem_put_net he hp with hp | ⟨hx, -⟩
    · exact Or.inl hp
    · exact Or.inr hx.outgoing

/-- After an effect the record has at most one new entry, which a leader has made. -/
theorem effect (hw : Wired S c) (hl : Led c) (hd : Dated c) (hc : Carried c)
    (hu : (c.put i r).UniqueLeaders) (hm : c.Source G i m)
    (hb : m = none → r.term ≠ (c.nodes i).term → (c.nodes i).term + 1 < 2 ^ 64)
    (he : (c.nodes i).Effect m r) : ∃ K, Grown (c.put i r) K ∧ (∀ e t, H e t → K e t) ∧
      ∀ e t, K e t → H e t ∨ (c.nodes i).Makes r e t := by
  rcases h.toRecorded.effect hw hl hu hm hb he with ⟨hrec, hkeep⟩ |
    ⟨data, hrec, hst, hrole, hterm, hlog⟩
  · have hment : Mentions c i r H := by
      refine h.mentions hm he (fun _ _ h => h) fun data hlog hst => ?_
      -- a leader's log is unchanged here, so it cannot be longer
      have heq := (hkeep hst).2.2
      rw [heq] at hlog
      have := congrArg RaftLog.endIndex hlog
      simp at this
    refine ⟨H, h.put (hl.effect hw hm hb he) hrec (fun hs => ?_) hl hment, fun _ _ h => h,
      fun _ _ => Or.inl⟩
    obtain ⟨hs', ht, hlog⟩ := hkeep hs
    refine ⟨hs', ht, fun n hn _ => ?_⟩
    rw [hlog] at hn ⊢
    exact ⟨hn, rfl⟩
  · have hment : Mentions c i r (Recorded.made H (c.nodes i) data) := by
      refine h.mentions hm he (fun _ _ => Or.inl) fun data' hlog' _ => ?_
      have heq : (c.nodes i).newEntry data' = (c.nodes i).newEntry data := by
        have := congrArg RaftLog.entries (hlog'.symm.trans hlog)
        simpa [RaftLog.append] using this
      exact ⟨_, Or.inr ⟨heq, rfl⟩⟩
    refine ⟨_, h.put_append hl hd hc hu hrec hst hrole hterm hlog hment, fun _ _ => Or.inl, ?_⟩
    rintro e t (he | ⟨rfl, rfl⟩)
    · exact Or.inl he
    · exact Or.inr ⟨hst, hrole, hterm, rfl, rfl, hlog, rfl⟩

theorem compact (hl : Led c) {index t : ℕ} (data : Bytes)
    (ho : (c.nodes i).raftLog.offset < index) (ht : (c.nodes i).raftLog.term index = some t) :
    Grown (c.put i ((c.nodes i).compacted index t data)) H := by
  have hknown : Knows H index t := by
    rcases RaftLog.term_eq ht with ⟨e, he, rfl⟩ | ⟨-, h0⟩
    · exact h.known i index e he
    · exact Or.inl h0
  refine h.put (hl.put le_rfl (fun _ hs => hs) (hl.standing i)) (h.toRecorded.compact hl data ho ht)
    (fun hs => ⟨hs, rfl, fun n hn hlt => ?_⟩) hl ⟨fun n e he => ?_, fun s hs => ?_, fun p hp => ?_⟩
  · exact RaftLog.entry_compactTo_of_lt ho hn hlt
  · rcases RaftLog.entry_compactTo ho he with ⟨rfl, hoff⟩ | ⟨-, he⟩
    · by_cases hl : index < (c.nodes i).raftLog.endIndex
      · rw [hoff, (RaftLog.compactTo_eq t ho hl).1]
        exact hknown
      · rcases RaftLog.term_eq ht with ⟨e, he, -⟩ | ⟨-, h0⟩
        · exact absurd (RaftLog.entry_bounds he).2 hl
        · exact Or.inl h0
    · exact h.known i n e he
  · cases hs
    exact hknown
  · exact Or.inl (by rwa [put_net_compacted] at hp)

theorem advance (hl : Led c) : Grown (c.put i (c.nodes i).advance) H :=
  h.put (hl.put le_rfl (fun _ hs => hs) (hl.standing i)) (h.toRecorded.advance hl)
    (fun hs => ⟨hs, rfl, fun _ hn _ => ⟨hn, rfl⟩⟩) hl
    ⟨h.known i, h.knownSnap i, fun p hp => Or.inl (by rwa [put_net_advance] at hp)⟩

end

end Grown

end Mizu
