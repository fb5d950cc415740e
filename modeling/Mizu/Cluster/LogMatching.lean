import Mizu.Cluster.Basic
import Mizu.Cluster.Shared
import Mizu.Library.Chain

/-!
# Log matching

Every entry is made once, by the leader of its term, on top of the log that leader
has. A log and the entries of a message are linked by these records, so two logs
with a common entry agree below it as far as both reach.
-/

namespace Mizu

open Raft Cluster

/-- The previous entry that a `MsgApp` names, followed by the entries it carries. -/
def Message.segment (m : Message) : RaftLog :=
  { offset := m.logIndex
    entries := { index := m.logIndex, term := m.logTerm } :: m.entries }

theorem Message.segment_entry_self (m : Message) :
    m.segment.entry m.logIndex = some { index := m.logIndex, term := m.logTerm } := by
  simp [segment, RaftLog.entry]

theorem Message.segment_entry_of_lt {m : Message} {i : ℕ} (h : m.logIndex < i) :
    m.segment.entry i = m.entries[i - (m.logIndex + 1)]? := by
  obtain ⟨k, rfl⟩ : ∃ k, i = m.logIndex + 1 + k := ⟨i - (m.logIndex + 1), by omega⟩
  have hk : m.logIndex + 1 + k - m.logIndex = k + 1 := by omega
  simp [segment, RaftLog.entry, h.le, hk]

namespace RaftLog

/-- The entries of `l` stand at their own index, and `H` records for each the term of
the one before it. -/
abbrev Linked (H : Entry → ℕ → Prop) (l : RaftLog) : Prop :=
  Chain.Linked Entry.index Entry.term H l.entry

variable {H K : Entry → ℕ → Prop} {l l' : RaftLog}

theorem linked_restore (H : Entry → ℕ → Prop) (s t : ℕ) : (restore s t).Linked H := by
  constructor
  · intro n e he
    rw [entry_restore] at he
    split_ifs at he with hn
    cases he
    exact hn.symm
  · intro n e e' he he'
    rw [entry_restore] at he he'
    split_ifs at he he'
    omega

theorem Linked.truncate (h : l.Linked H) {first : ℕ} (ht : l.truncate first = some l') :
    l'.Linked H := by
  by_cases ho : l.offset ≤ first
  · obtain ⟨-, -, -, hent⟩ := truncate_eq ho ht
    refine Chain.Linked.restrict h fun n => ?_
    rw [hent]
    split_ifs
    · exact Or.inl rfl
    · exact Or.inr rfl
  · rw [truncate_of_lt (not_le.mp ho)] at ht
    cases ht
    exact h

/-- The previous entry check makes the entries of a message fit the log. -/
theorem Linked.truncateAndAppend (h : l.Linked H) {m : Message} (hm : m.segment.Linked H)
    (hterm : l.term m.logIndex = some m.logTerm)
    (ht : l.truncateAndAppend m.logIndex m.entries = some l') : l'.Linked H := by
  obtain ⟨-, -, -, -, hent⟩ := truncateAndAppend_eq ht
  have heq : l'.entry = fun n => if n ≤ m.logIndex then l.entry n else m.segment.entry n := by
    funext n
    rw [hent]
    split_ifs with hn
    · rfl
    · rw [Message.segment_entry_of_lt (by omega)]
  rw [RaftLog.Linked, heq]
  refine Chain.Linked.splice h hm ?_ ?_
  · intro e e' he he'
    rw [Message.segment_entry_self] at he'
    cases he'
    rw [term_of_entry he] at hterm
    exact Option.some.inj hterm
  · rw [Message.segment_entry_self]
    rfl

theorem Linked.append (h : l.Linked H) (hHK : ∀ e t, H e t → K e t) {x : Entry}
    (hx : x.index = l.endIndex) (hK : K x l.lastTerm) : (l.append [x]).Linked K := by
  have heq : (l.append [x]).entry = fun n => if n = l.endIndex then some x else l.entry n := by
    funext n
    rw [entry_append]
    split_ifs with h₁ h₂ h₂
    · omega
    · rfl
    · simp [h₂]
    · rw [entry_eq_none_iff.mpr (Or.inr (not_lt.mp h₁)), List.getElem?_eq_none_iff]
      simp only [List.length_singleton]
      omega
  rw [RaftLog.Linked, heq]
  refine Chain.Linked.snoc h hHK hx ?_ ?_
  · intro m e hm he
    have hlast : l.lastTerm = e.term := lastTerm_of_entry (by rw [← hm]; exact he)
    exact hlast ▸ hK
  · intro m hm
    exact entry_eq_none_iff.mpr (Or.inr hm.le)

/-- Compaction replaces an entry by a sentinel of the same term. -/
theorem Linked.compactTo (h : l.Linked H) {index t : ℕ} (ho : l.offset < index)
    (ht : l.term index = some t) : (l.compactTo index t).Linked H := by
  by_cases hl : index < l.endIndex
  · obtain ⟨-, -, hent⟩ := compactTo_eq t ho hl
    obtain ⟨d, hd⟩ := exists_entry ho.le hl
    have hdt : d.term = t := by
      rw [term_of_entry hd] at ht
      exact Option.some.inj ht
    constructor
    · intro n e he
      rw [hent] at he
      split_ifs at he with h₁ h₂
      · cases he
        exact h₁.symm
      · exact h.at_pos n e he
    · intro n e e' he he'
      rw [hent] at he he'
      split_ifs at he he' with h₁ h₂ h₃ h₃ h₄ h₅
      · omega
      · cases he
        subst h₁
        exact hdt ▸ h.link n d e' hd he'
      · omega
      · exact h.link n e e' he he'
  · obtain ⟨x, hx, -⟩ := compactTo_past_end t ho (not_lt.mp hl)
    rw [hx]
    exact linked_restore H x t

/-- What a leader sends is a piece of its log. -/
theorem Linked.segment (h : l.Linked H) {m : Message} {next : ℕ} (ho : l.offset < next)
    (hi : m.logIndex + 1 = next) (ht : l.term m.logIndex = some m.logTerm)
    (hes : m.entries = l.slice next l.endIndex) : m.segment.Linked H := by
  have hent : ∀ n, m.logIndex < n → m.segment.entry n = l.entry n := by
    intro n hn
    obtain ⟨k, rfl⟩ : ∃ k, n = next + k := ⟨n - next, by omega⟩
    rw [Message.segment_entry_of_lt hn, hes, hi, ← entry_slice next ho.le]
    congr 1
    omega
  have hlow : ∀ n, n < m.logIndex → m.segment.entry n = none := fun n hn =>
    entry_eq_none_iff.mpr (Or.inl hn)
  constructor
  · intro n e he
    rcases Nat.lt_trichotomy n m.logIndex with hn | rfl | hn
    · simp [hlow n hn] at he
    · rw [Message.segment_entry_self] at he
      cases he
      rfl
    · rw [hent n hn] at he
      exact h.at_pos n e he
  · intro n e e' he he'
    rcases Nat.lt_trichotomy n m.logIndex with hn | rfl | hn
    · simp [hlow n hn] at he
    · rw [Message.segment_entry_self] at he
      cases he
      rw [hent _ (Nat.lt_succ_self _)] at he'
      have hb := entry_bounds he'
      obtain ⟨d, hd⟩ := exists_entry (l := l) (i := m.logIndex) (by omega) (by omega)
      rw [term_of_entry hd] at ht
      exact Option.some.inj ht ▸ h.link _ d e' hd he'
    · rw [hent n hn] at he
      rw [hent (n + 1) (by omega)] at he'
      exact h.link n e e' he he'

end RaftLog

/-- `H e t` records that `e` was made on top of an entry of term `t`. -/
structure Recorded (c : Cluster) (H : Entry → ℕ → Prop) : Prop where
  unambiguous : Chain.Unambiguous Entry.index Entry.term H
  log : ∀ i, (c.nodes i).raftLog.Linked H
  app : ∀ p ∈ c.net, p.msg.type = .msgApp → p.msg.segment.Linked H
  owner : ∀ e t, H e t → ∃ i, (e.term, i) ∈ c.led
  below : ∀ e t i, H e t → (e.term, i) ∈ c.led → (c.nodes i).term = e.term →
    e.index < (c.nodes i).raftLog.endIndex

namespace Recorded

variable {S : Setup} {G : Cluster → Action → Prop} {c : Cluster} {H : Entry → ℕ → Prop} {i : ℕ}
  {r : Raft}

theorem init (S : Setup) : Recorded S.start fun _ _ => False where
  unambiguous _ _ _ _ h := h.elim
  log i := RaftLog.linked_restore _ 0 0
  app p hp := by simp [Setup.start] at hp
  owner _ _ h := h.elim
  below _ _ _ h := h.elim

/-- A step at node `i` that makes no entry. -/
theorem put (h : Recorded c H) (hl : Led c) (hle : (c.nodes i).term ≤ r.term)
    (hlog : r.raftLog.Linked H)
    (hend : (c.nodes i).state = .leader → r.term = (c.nodes i).term →
      (c.nodes i).raftLog.endIndex ≤ r.raftLog.endIndex)
    (hled : r.state = .leader → (c.nodes i).state = .leader ∧ r.term = (c.nodes i).term)
    (hnet : ∀ p ∈ (c.put i r).net, p ∈ c.net ∨ r.Outgoing p.msg ∨
      (p.msg.type ≠ .msgApp ∧ p.msg.type ≠ .msgSnap)) : Recorded (c.put i r) H where
  unambiguous := h.unambiguous
  log := forall_put (P := fun _ s => s.raftLog.Linked H) hlog h.log
  app p hp ht := by
    rcases hnet p hp with hp | ho | hne
    · exact h.app p hp ht
    · obtain ⟨pr, -, ⟨-, hoff, hi, hterm, hes, -⟩ | ⟨ht', -⟩⟩ := ho.body
      · exact hlog.segment hoff hi hterm hes
      · simp [ht] at ht'
    · exact absurd ht hne.1
  owner e t he := by
    obtain ⟨j, hj⟩ := h.owner e t he
    exact ⟨j, mem_put_led_of_mem i r hj⟩
  below e t j he hj hterm := by
    have hold : (e.term, j) ∈ c.led := by
      rcases mem_put_led hj with hm | ⟨hst, heq⟩
      · exact hm
      · obtain ⟨het, rfl⟩ := Prod.mk.inj heq
        obtain ⟨hs, ht⟩ := hled hst
        rw [het, ht]
        exact hl.leads j hs
    by_cases hji : j = i
    · subst hji
      rw [put_nodes_self] at hterm ⊢
      have hpast := hl.past _ j hold
      have heq : e.term = (c.nodes j).term := le_antisymm hpast.1 (hterm ▸ hle)
      exact (h.below e t j he hold heq.symm).trans_le
        (hend (hpast.2 heq) (hterm.trans heq))
    · rw [put_nodes_of_ne _ _ hji] at hterm ⊢
      exact h.below e t j he hold hterm

/-- Only the node that leads a term, now or after the step, has made entries of it. -/
theorem led_of_record (h : Recorded c H) (hu : (c.put i r).UniqueLeaders)
    (hst : r.state = .leader) {e : Entry} {t : ℕ} (he : H e t) (het : e.term = r.term) :
    (r.term, i) ∈ c.led := by
  obtain ⟨j, hj⟩ := h.owner e t he
  have hi : (e.term, i) ∈ (c.put i r).led := by
    simp [Cluster.put, hst, het]
  have hji : j = i := hu _ j i (mem_put_led_of_mem i r hj) hi
  rwa [hji, het] at hj

/-- The entries recorded for the term of a leader, old or new, are below the end of its log. -/
theorem fresh (h : Recorded c H) (hl : Led c) (hu : (c.put i r).UniqueLeaders)
    (hterm : r.term = (c.nodes i).term) (hst : r.state = .leader)
    (hrole : (c.nodes i).state = .leader ∨ (c.nodes i).state = .candidate) {e : Entry} {t : ℕ}
    (he : H e t) (het : e.term = (c.nodes i).term) : e.index < (c.nodes i).raftLog.endIndex := by
  have hi := h.led_of_record hu hst he (het.trans hterm.symm)
  rcases hrole with hs | hs
  · exact h.below e t i he (by rwa [het, ← hterm]) het.symm
  · exact absurd (hterm ▸ hi) (hl.not_mem_of_candidate hs)

/-- The record with the entry that node `i` appends for `data`. -/
def made (H : Entry → ℕ → Prop) (r : Raft) (data : Bytes) (e : Entry) (t : ℕ) : Prop :=
  H e t ∨ (e = r.newEntry data ∧ t = r.raftLog.lastTerm)

/-- A step at node `i` in which it leads and appends an entry. -/
theorem put_append (h : Recorded c H) (hl : Led c) (hu : (c.put i r).UniqueLeaders)
    (hterm : r.term = (c.nodes i).term) (hst : r.state = .leader)
    (hrole : (c.nodes i).state = .leader ∨ (c.nodes i).state = .candidate) {data : Bytes}
    (hlog : r.raftLog = (c.nodes i).raftLog.append [(c.nodes i).newEntry data])
    (hnet : ∀ p ∈ (c.put i r).net, p ∈ c.net ∨ r.Outgoing p.msg ∨
      (p.msg.type ≠ .msgApp ∧ p.msg.type ≠ .msgSnap)) :
    Recorded (c.put i r) (made H (c.nodes i) data) := by
  have hfresh {e : Entry} {t : ℕ} (he : H e t) (het : e.term = (c.nodes i).term) :=
    h.fresh hl hu hterm hst hrole he het
  have hsub : ∀ e t, H e t → made H (c.nodes i) data e t := fun _ _ => Or.inl
  have hlinked : r.raftLog.Linked (made H (c.nodes i) data) := by
    rw [hlog]
    exact (h.log i).append hsub rfl (Or.inr ⟨rfl, rfl⟩)
  have hend : r.raftLog.endIndex = (c.nodes i).raftLog.endIndex + 1 := by
    rw [hlog, RaftLog.append_endIndex]
    rfl
  constructor
  · rintro e e' t t' (he | ⟨rfl, rfl⟩) (he' | ⟨rfl, rfl⟩) hidx htm
    · exact h.unambiguous e e' t t' he he' hidx htm
    · exact absurd hidx (hfresh he htm).ne
    · exact absurd hidx.symm (hfresh he' htm.symm).ne
    · exact ⟨rfl, rfl⟩
  · exact forall_put (P := fun _ s => s.raftLog.Linked (made H (c.nodes i) data)) hlinked
      fun j => (h.log j).mono hsub
  · intro p hp ht
    rcases hnet p hp with hp | ho | hne
    · exact (h.app p hp ht).mono hsub
    · obtain ⟨pr, -, ⟨-, hoff, hi, hterm, hes, -⟩ | ⟨ht', -⟩⟩ := ho.body
      · exact hlinked.segment hoff hi hterm hes
      · simp [ht] at ht'
    · exact absurd ht hne.1
  · rintro e t (he | ⟨rfl, rfl⟩)
    · obtain ⟨j, hj⟩ := h.owner e t he
      exact ⟨j, mem_put_led_of_mem i r hj⟩
    · simp [Cluster.put, hst, hterm, newEntry]
  · rintro e t j he hj htj
    by_cases hji : j = i
    · subst hji
      rw [put_nodes_self] at htj ⊢
      rw [hend]
      rcases he with he | ⟨rfl, rfl⟩
      · exact (hfresh he (htj.symm.trans hterm)).trans (Nat.lt_succ_self _)
      · exact Nat.lt_succ_self _
    · rw [put_nodes_of_ne _ _ hji] at htj ⊢
      have hold : (e.term, j) ∈ c.led := by
        rcases mem_put_led hj with hm | ⟨-, heq⟩
        · exact hm
        · exact absurd (congrArg Prod.snd heq) hji
      rcases he with he | ⟨rfl, rfl⟩
      · exact h.below e t j he hold htj
      · -- only node `i` leads the term of the new entry
        have hi : ((c.nodes i).term, i) ∈ (c.put i r).led := by
          simp [Cluster.put, hst, hterm]
        exact absurd (hu _ j i (mem_put_led_of_mem i r hold) hi) hji

/-- An effect makes no entry and leaves the log of a leader alone, or it is a leader
appending one. -/
theorem effect (h : Recorded c H) (hw : Wired S c) (hl : Led c)
    (hu : (c.put i r).UniqueLeaders) {m : Option Message} (hm : c.Source G i m)
    (hb : m = none → r.term ≠ (c.nodes i).term → (c.nodes i).term + 1 < 2 ^ 64)
    (he : (c.nodes i).Effect m r) :
    (Recorded (c.put i r) H ∧ (r.state = .leader →
        (c.nodes i).state = .leader ∧ r.term = (c.nodes i).term ∧
          r.raftLog = (c.nodes i).raftLog)) ∨
      ∃ data, Recorded (c.put i r) (made H (c.nodes i) data) ∧ r.state = .leader ∧
        ((c.nodes i).state = .leader ∨ (c.nodes i).state = .candidate) ∧
        r.term = (c.nodes i).term ∧
        r.raftLog = (c.nodes i).raftLog.append [(c.nodes i).newEntry data] := by
  have hle : (c.nodes i).term ≤ r.term := he.term_le (hw.not_hup hm) hb
  have hnet : ∀ p ∈ (c.put i r).net, p ∈ c.net ∨ r.Outgoing p.msg ∨
      (p.msg.type ≠ .msgApp ∧ p.msg.type ≠ .msgSnap) := by
    intro p hp
    rcases sent_of_mem_put_net he hp with hp | ⟨hx, -⟩
    · exact Or.inl hp
    · exact Or.inr hx.outgoing
  have follower (hf : r.state = .follower) (hne : (c.nodes i).state ≠ .leader)
      (hlog : r.raftLog.Linked H) : Recorded (c.put i r) H ∧ (r.state = .leader →
        (c.nodes i).state = .leader ∧ r.term = (c.nodes i).term ∧
          r.raftLog = (c.nodes i).raftLog) :=
    ⟨h.put hl hle hlog (fun hs => absurd hs hne) (fun hs => nomatch hf.symm.trans hs) hnet,
      fun hs => nomatch hf.symm.trans hs⟩
  cases he.log with
  | kept log lead =>
    refine Or.inl ⟨h.put hl hle (log ▸ h.log i) (fun _ _ => ?_) lead hnet, fun hs => ?_⟩
    · rw [log]
    · exact ⟨(lead hs).1, (lead hs).2, log⟩
  | appended data state role term log =>
    exact Or.inr ⟨data, h.put_append hl hu term state role log hnet, state, role, term, log⟩
  | truncated hma ht term notLeader state hi hterm hne hfirst log =>
    exact Or.inl (follower state notLeader ((h.log i).truncate log))
  | extended hma ht term notLeader state hi hterm hne log =>
    obtain ⟨p, hp, rfl, -⟩ := mem_net_of_source hm
    exact Or.inl (follower state notLeader
      ((h.log i).truncateAndAppend (h.app p hp hma) hterm log))
  | installed hms ht term notLeader state hsnap hi log =>
    exact Or.inl (follower state notLeader (log ▸ RaftLog.linked_restore H _ _))

theorem compact (h : Recorded c H) (hl : Led c) {index t : ℕ} (data : Bytes)
    (ho : (c.nodes i).raftLog.offset < index) (ht : (c.nodes i).raftLog.term index = some t) :
    Recorded (c.put i ((c.nodes i).compacted index t data)) H := by
  refine h.put hl le_rfl ((h.log i).compactTo ho ht) ?_ (fun hs => ⟨hs, rfl⟩) ?_
  · exact fun _ _ => RaftLog.endIndex_le_compactTo ho
  · exact fun p hp => Or.inl (by rwa [put_net_compacted] at hp)

theorem advance (h : Recorded c H) (hl : Led c) : Recorded (c.put i (c.nodes i).advance) H := by
  refine h.put hl le_rfl (h.log i) (fun _ _ => le_rfl) (fun hs => ⟨hs, rfl⟩) ?_
  exact fun p hp => Or.inl (by rwa [put_net_advance] at hp)

/-- While no term has two leaders, every entry of a log or a message is recorded. -/
theorem of_reaches (h : S.Reaches G c) (hu : c.UniqueLeaders) : ∃ H, Recorded c H := by
  revert hu
  refine h.induct (I := fun c => c.UniqueLeaders → ∃ H, Recorded c H) (fun _ => ⟨_, init S⟩)
    (fun c d rd hI hu => (hI hu).imp fun H hH => { hH with }) ?_ ?_ ?_
  · intro c i m r hr hI hi hm hb he hu
    obtain ⟨H, hH⟩ := hI hu.of_put
    rcases hH.effect (.of_reaches hr) (.of_reaches hr) hu hm hb he with ⟨hK, -⟩ | ⟨data, hK, -⟩
    · exact ⟨_, hK⟩
    · exact ⟨_, hK⟩
  · intro c i index t data hr hI hi _ _ ho ht hu
    obtain ⟨H, hH⟩ := hI hu.of_put
    exact ⟨H, hH.compact (.of_reaches hr) data ho ht⟩
  · intro c i hr hI hi hu
    obtain ⟨H, hH⟩ := hI hu.of_put
    exact ⟨H, hH.advance (.of_reaches hr)⟩

/-- Two logs with entries of one term at one index agree below it, above both sentinels. -/
theorem agree (h : Recorded c H) {i j n k : ℕ} {e e' : Entry}
    (he : (c.nodes i).raftLog.entry n = some e) (he' : (c.nodes j).raftLog.entry n = some e')
    (ht : e.term = e'.term) (hi : (c.nodes i).raftLog.offset < k)
    (hj : (c.nodes j).raftLog.offset < k) (hk : k ≤ n) :
    ∃ d, (c.nodes i).raftLog.entry k = some d ∧ (c.nodes j).raftLog.entry k = some d := by
  have hn := RaftLog.entry_bounds he
  have hn' := RaftLog.entry_bounds he'
  obtain ⟨d, d', hd, hd', -, heq⟩ := Chain.Linked.agree h.unambiguous (h.log i) (h.log j)
    (a := k - 1) (n := n) (fun x _ _ => RaftLog.entry_isSome_iff.mpr (by omega))
    (fun x _ _ => RaftLog.entry_isSome_iff.mpr (by omega)) he he' ht (k := k) (by omega) hk
  have hdd : d = d' := heq (by omega)
  exact ⟨d, hd, hdd ▸ hd'⟩

end Recorded

/-- Log matching: in a run in which no message is written over and without two leaders of one
term, two logs that hold entries of the same term at one index hold identical entries, each at its
own index, everywhere above both sentinels up to that one. -/
theorem log_matching {S : Setup} {g : Growth} {s : Shared}
    (h : (S.shared g).Reach (S.Sparing fun _ _ => True) s) (hu : s.UniqueLeaders) {i j n k : ℕ}
    {e e' : Entry} (he : (s.nodes i).raftLog.entry n = some e)
    (he' : (s.nodes j).raftLog.entry n = some e') (ht : e.term = e'.term)
    (hki : (s.nodes i).raftLog.offset < k) (hkj : (s.nodes j).raftLog.offset < k) (hk : k ≤ n) :
    ∃ d, (s.nodes i).raftLog.entry k = some d ∧ (s.nodes j).raftLog.entry k = some d ∧
      d.index = k := by
  obtain ⟨H, hH⟩ := Recorded.of_reaches (.of_reach S.true_stable (Setup.reach_cluster h)) hu
  obtain ⟨d, hd, hd'⟩ := hH.agree he he' ht hki hkj hk
  exact ⟨d, hd, hd', (hH.log i).at_pos k d hd⟩

theorem log_matching_trio : ∃ s, (trio.shared doubling).Reach (trio.Sparing fun _ _ => True) s ∧
    s.UniqueLeaders ∧ ∃ d, (s.nodes 1).raftLog.entry 1 = some d ∧
      (s.nodes 2).raftLog.entry 1 = some d ∧ d.index = 1 := by
  obtain ⟨s, hs, hu, he, he', ho, ho'⟩ := trio.exists_shared (trio.Sparing fun _ _ => True)
    (fun s => s.UniqueLeaders ∧
      (s.nodes 1).raftLog.entry 2 = some { term := 1, index := 2, data := [7] } ∧
      (s.nodes 2).raftLog.entry 2 = some { term := 1, index := 2, data := [7] } ∧
      (s.nodes 1).raftLog.offset < 1 ∧ (s.nodes 2).raftLog.offset < 1)
    [.tick 1 0, .deliver 0, .deliver 2, .propose 1 [7], .deliver 5] (by decide +kernel)
  exact ⟨s, hs, hu, log_matching hs hu he he' rfl ho ho' (by decide)⟩

/-- Five nodes, so that two can lead without each other's voters. -/
def quintet : Setup where
  ids := [1, 2, 3, 4, 5]
  electionTimeout _ := 1
  heartbeatTimeout _ := 1
  nonempty := by decide
  nodup := by decide
  ne_zero := by decide

/-- Leader 1 of term 1 has a message for node 2 in its queue, with entry 2 on top of entry 1 that
node 2 has. Before it leaves, leader 3 of term 2 replaces the log of node 1, and so the entry of the
message: node 2 gets entry 2 of term 2 on top of entry 1 of term 1. -/
theorem overwritten_message_breaks_matching : ∃ s,
    (quintet.shared doubling).Reach (fun _ _ => True) s ∧ s.UniqueLeaders ∧
    (s.nodes 2).raftLog.entry 2 = some { term := 2, index := 2, data := [8] } ∧
    (s.nodes 3).raftLog.entry 2 = some { term := 2, index := 2, data := [8] } ∧
    (s.nodes 2).raftLog.entry 1 = some { term := 1, index := 1, data := [] } ∧
    (s.nodes 3).raftLog.entry 1 = some { term := 2, index := 1, data := [] } ∧
    (s.nodes 2).raftLog.firstIndex = 0 ∧ (s.nodes 3).raftLog.firstIndex = 0 :=
  quintet.exists_shared _ (fun s => s.UniqueLeaders ∧
    (s.nodes 2).raftLog.entry 2 = some { term := 2, index := 2, data := [8] } ∧
    (s.nodes 3).raftLog.entry 2 = some { term := 2, index := 2, data := [8] } ∧
    (s.nodes 2).raftLog.entry 1 = some { term := 1, index := 1, data := [] } ∧
    (s.nodes 3).raftLog.entry 1 = some { term := 2, index := 1, data := [] } ∧
    (s.nodes 2).raftLog.firstIndex = 0 ∧ (s.nodes 3).raftLog.firstIndex = 0)
    [.tick 1 0, .ready 1, .deliver 0, .deliver 2, .ready 2, .ready 4, .deliver 4, .deliver 5,
      .ready 1, .deliver 6, .ready 2, .deliver 10, .propose 1 [7], .tick 3 0, .tick 3 0, .ready 3,
      .deliver 21, .deliver 22, .ready 4, .ready 5, .deliver 23, .deliver 24, .propose 3 [8],
      .ready 3, .deliver 29, .ready 1, .deliver 11] (by decide +kernel)

end Mizu
