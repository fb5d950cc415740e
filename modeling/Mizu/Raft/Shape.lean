import Mizu.Raft.Views

/-!
# The shape of the log and of what is handed out

The entry at an index carries that index, in the log and in the messages cut from it.
The entries that become committed are handed out by a cursor that moves with the
commit index, so that they are numbered one after another from where the last `Ready`
or the last installed snapshot ended.
-/

namespace Mizu

open Raft

/-- The entry at an index carries that index. -/
def RaftLog.Numbered (l : RaftLog) : Prop := ∀ k e, l.entry k = some e → e.index = k

/-- The entries of a `MsgApp` are numbered from its previous index on. -/
def Message.Numbered (m : Message) : Prop :=
  m.type = .msgApp → ∀ (n : ℕ) e, m.entries[n]? = some e → e.index = m.logIndex + 1 + n

instance (m : Message) : Decidable m.Numbered :=
  decidable_of_iff (m.type = .msgApp → ∀ x ∈ m.entries.zipIdx, x.1.index = m.logIndex + 1 +
    x.2) <| by
    refine imp_congr_right fun _ => ⟨fun h n e he => ?_, fun h x hx => ?_⟩
    · exact h (e, n) (List.mem_zipIdx_iff_getElem?.mpr he)
    · exact h x.2 x.1 (List.mem_zipIdx_iff_getElem?.mp hx)

variable {es : List Entry}

namespace RaftLog.Numbered

variable {l l' : RaftLog}

theorem append (h : l.Numbered)
    (hes : ∀ (n : ℕ) e, es[n]? = some e → e.index = l.endIndex + n) : (l.append es).Numbered := by
  intro k e he
  rw [entry_append] at he
  split_ifs at he with hk
  · exact h k e he
  · have := hes _ e he
    omega

theorem append_one (h : l.Numbered) {e : Entry} (he : e.index = l.endIndex) :
    (l.append [e]).Numbered := by
  refine h.append fun n d hd => ?_
  obtain ⟨rfl, rfl⟩ : n = 0 ∧ e = d := by
    rw [List.getElem?_singleton] at hd
    split_ifs at hd with h0
    exact ⟨h0, Option.some.inj hd⟩
  exact he

theorem truncate (h : l.Numbered) {index : ℕ} (hl : l.truncate index = some l') :
    l'.Numbered :=
  fun k e he => h k e (entry_of_truncate hl he)

theorem truncateAndAppend (h : l.Numbered) {prev : ℕ}
    (hes : ∀ (n : ℕ) e, es[n]? = some e → e.index = prev + 1 + n)
    (hl : l.truncateAndAppend prev es = some l') : l'.Numbered := by
  intro k e he
  rw [(truncateAndAppend_eq hl).2.2.2.2] at he
  split_ifs at he with hk
  · exact h k e he
  · have := hes _ e he
    omega

theorem restore (s t : ℕ) : (RaftLog.restore s t).Numbered := by
  intro k e he
  rw [entry_restore] at he
  split_ifs at he with hk
  cases he
  exact hk.symm

theorem compactTo (h : l.Numbered) {index t : ℕ} (ho : l.offset < index) :
    (l.compactTo index t).Numbered := by
  intro k e he
  rcases entry_compactTo ho he with ⟨rfl, -⟩ | ⟨-, he⟩
  · rfl
  · exact h k e he

theorem between (h : l.Numbered) {lo hi : ℕ} (hlo : l.offset ≤ lo) (hhi : hi < l.endIndex) :
    (l.between lo hi).map Entry.index = List.range' (lo + 1) (hi - lo) := by
  have key : ∀ n a, l.offset ≤ a → a + n ≤ l.endIndex →
      ((List.range' a n).filterMap l.entry).map Entry.index = List.range' a n := by
    intro n
    induction n with
    | zero => simp
    | succ n ih =>
      intro a ha hn
      obtain ⟨e, he⟩ := exists_entry (l := l) (i := a) ha (by omega)
      rw [List.range'_succ, List.filterMap_cons_some he, List.map_cons, h a e he,
        ih (a + 1) (by omega) (by omega)]
  rcases Nat.le_total hi lo with hle | hle
  · simp [RaftLog.between, Nat.sub_eq_zero_of_le hle]
  · exact key _ _ (by omega) (by omega)

end RaftLog.Numbered

namespace Raft

variable {r s : Raft} {m : Option Message}

theorem LogChange.numbered (h : LogChange r s m) (hr : r.raftLog.Numbered)
    (hm : ∀ m' ∈ m, m'.Numbered) : s.raftLog.Numbered := by
  cases h with
  | kept log => rwa [log]
  | appended data state role term log =>
    rw [log]
    exact hr.append_one rfl
  | truncated hma ht term notLeader state hi hterm hne hfirst log => exact hr.truncate log
  | extended hma ht term notLeader state hi hterm hne log =>
    exact hr.truncateAndAppend (hm _ rfl hma) log
  | installed hms ht term notLeader state hsnap hi log =>
    rw [log]
    exact .restore _ _

/-- What a leader cuts from a numbered log is numbered. -/
theorem Outgoing.numbered {x : Message} (h : r.Outgoing x) (hr : r.raftLog.Numbered) :
    x.Numbered := by
  intro ht n e he
  obtain ⟨pr, -, ⟨-, ho, hi, -, hes, -⟩ | ⟨ht', -⟩⟩ := h.body
  · rw [hes, RaftLog.entry_slice _ ho.le] at he
    have := hr _ e he
    omega
  · simp [ht] at ht'

end Raft

/-! ### What is handed out -/

/-- The index expected after a snapshot, when `next` was expected before it. -/
def afterSnapshot (next : ℕ) : Option Snapshot → Option ℕ
  | none => some next
  | some snap => if next ≤ snap.index then some (snap.index + 1) else none

/-- The index expected after `rd`, when `next` was expected before it. The snapshot comes
first; nothing is expected if an index is out of order. -/
def Ready.expect (next : ℕ) (rd : Ready) : Option ℕ := do
  let n ← afterSnapshot next rd.snapshot
  if rd.committedEntries.map Entry.index = List.range' n rd.committedEntries.length then
    some (n + rd.committedEntries.length)
  else none

/-- The index expected after all of the given rounds, which start at index 1. -/
def expectAll (rds : List Ready) : Option ℕ := rds.foldlM Ready.expect 1

section

variable {rd rd' : Ready} {rds : List Ready} {n n' : ℕ}

theorem afterSnapshot_le {o : Option Snapshot} (h : afterSnapshot n o = some n') :
    n ≤ n' ∧ ∀ snap ∈ o, n ≤ snap.index := by
  unfold afterSnapshot at h
  split at h
  · cases h
    exact ⟨le_rfl, by simp⟩
  · split_ifs at h with hle
    cases h
    refine ⟨by omega, fun snap hs => ?_⟩
    cases hs
    exact hle

theorem Ready.expect_eq_some : rd.expect n = some n' ↔ ∃ k, afterSnapshot n rd.snapshot = some k ∧
    rd.committedEntries.map Entry.index = List.range' k rd.committedEntries.length ∧
    n' = k + rd.committedEntries.length := by
  unfold Ready.expect
  rw [Option.bind_eq_bind, Option.bind_eq_some_iff]
  constructor
  · rintro ⟨k, hk, h⟩
    split_ifs at h with hmap
    exact ⟨k, hk, hmap, (Option.some.inj h).symm⟩
  · rintro ⟨k, hk, hmap, rfl⟩
    exact ⟨k, hk, by rw [if_pos hmap]⟩

theorem Ready.expect_congr (hsnap : rd'.snapshot = rd.snapshot)
    (hent : rd'.committedEntries = rd.committedEntries) : rd'.expect n = rd.expect n := by
  unfold Ready.expect
  rw [hsnap, hent]

/-- What is handed out in order has indices between the expected ones. -/
theorem Ready.expect_bounds (h : rd.expect n = some n') :
    n ≤ n' ∧ (∀ snap ∈ rd.snapshot, n ≤ snap.index) ∧
      ∀ e ∈ rd.committedEntries, n ≤ e.index ∧ e.index < n' := by
  obtain ⟨k, hk, hmap, rfl⟩ := Ready.expect_eq_some.mp h
  obtain ⟨hle, hsnap⟩ := afterSnapshot_le hk
  refine ⟨by omega, hsnap, fun e he => ?_⟩
  have hmem : e.index ∈ rd.committedEntries.map Entry.index := List.mem_map_of_mem he
  rw [hmap, List.mem_range'_1] at hmem
  omega

/-- More entries, numbered from the expected index on. -/
theorem Ready.expect_append (h : rd.expect n = some n')
    (hes : es.map Entry.index = List.range' n' es.length) (hsnap : rd'.snapshot = rd.snapshot)
    (hent : rd'.committedEntries = rd.committedEntries ++ es) :
    rd'.expect n = some (n' + es.length) := by
  obtain ⟨k, hk, hmap, rfl⟩ := Ready.expect_eq_some.mp h
  refine Ready.expect_eq_some.mpr ⟨k, hsnap ▸ hk, ?_, ?_⟩
  · rw [hent, List.map_append, hmap, hes, List.length_append, List.range'_append_1]
  · rw [hent, List.length_append]
    omega

theorem expectAll_append (rds rds' : List Ready) :
    expectAll (rds ++ rds') = (expectAll rds).bind (rds'.foldlM Ready.expect) := by
  simp [expectAll, List.foldlM_append]

theorem expectAll_concat : expectAll (rds ++ [rd]) = (expectAll rds).bind fun n => rd.expect n := by
  simp [expectAll_append]

/-- All entries handed out in order are below the index expected next. -/
theorem lt_of_expectAll (h : expectAll rds = some n) {e : Entry}
    (he : e ∈ rds.flatMap Ready.committedEntries) : e.index < n := by
  induction rds using List.reverseRecOn generalizing n with
  | nil => simp at he
  | append_singleton rds rd ih =>
    rw [expectAll_concat] at h
    obtain ⟨k, hk, h⟩ := Option.bind_eq_some_iff.mp h
    obtain ⟨hle, -, hb⟩ := Ready.expect_bounds h
    rw [List.flatMap_append, List.mem_append] at he
    rcases he with he | he
    · exact (ih hk he).trans_le hle
    · exact (hb e (by simpa using he)).2

end

namespace Raft

variable {r s : Raft} {m : Option Message} {n : ℕ}

/-- The node hands out entries in order: with what it has in hand, the entry after the
cursor is the next one. -/
structure Paced (r : Raft) (n : ℕ) : Prop where
  cursor : r.committedCursor = r.commitIndex
  offset : r.raftLog.offset ≤ r.commitIndex
  expected : r.ready.expect n = some (r.committedCursor + 1)

theorem Paced.le (h : r.Paced n) : n ≤ r.commitIndex + 1 := by
  have := (Ready.expect_bounds h.expected).1
  rwa [h.cursor] at this

/-- The step of a node that raises its commit index inside its log. -/
theorem Paced.emits (h : r.Paced n) (he : r.Emits s) (hn : s.raftLog.Numbered)
    (hin : s.commitIndex < s.raftLog.endIndex) : s.Paced n := by
  have hlt := he.lt
  have hcur : s.committedCursor = s.commitIndex := by
    rw [he.cursor, h.cursor]
    omega
  have hoff : s.raftLog.offset ≤ r.committedCursor := by
    rw [he.offset, h.cursor]
    exact h.offset
  have hidx := hn.between hoff hin
  have hlen : (s.raftLog.between r.committedCursor s.commitIndex).length =
      s.commitIndex - r.committedCursor := by
    have := congrArg List.length hidx
    simpa using this
  refine ⟨hcur, ?_, ?_⟩
  · rw [he.offset]
    exact h.offset.trans hlt.le
  · have hexp : s.ready.expect n = _ :=
      Ready.expect_append h.expected (by rw [hidx, hlen]) he.pending he.entries
    rw [hexp, hlen, hcur, h.cursor]
    congr 1
    omega

/-- An effect keeps the order, if a snapshot that is installed is ahead of everything that
is committed and nothing committed is still in hand. -/
theorem Paced.effect (h : r.Paced n) (he : r.Effect m s) (hn : s.raftLog.Numbered)
    (hsnap : ∀ m' ∈ m, m'.type = .msgSnap → ∀ snap ∈ m'.snapshot, m'.term = r.term →
      r.raftLog.offset < snap.index → r.commitIndex < snap.index ∧ r.committedEntries = []) :
    s.Paced n := by
  cases he.commit with
  | kept commit cursor entries pending =>
    refine ⟨?_, ?_, ?_⟩
    · rw [cursor, commit, h.cursor]
    · rcases he.offset_cases with hoff | ⟨-, hoff⟩
      · rw [hoff, commit]
        exact h.offset
      · exact hoff
    · have hexp : s.ready.expect n = r.ready.expect n := Ready.expect_congr pending entries
      rw [hexp, cursor]
      exact h.expected
  | led state emits reached own =>
    obtain ⟨e, hent, -⟩ := RaftLog.matchTerm_eq_true own
    exact h.emits emits hn (RaftLog.entry_bounds hent).2
  | learned hma ht term state hterm hlog emits commit hi =>
    have hpos := hlog.endIndex_pos hi hterm
    refine h.emits emits hn ?_
    rw [commit, RaftLog.lastIndex_of_pos hpos]
    omega
  | @installed m' snap hms state hs hi commit cursor entries pending ht =>
    obtain ⟨hlt, hnil⟩ := hsnap m' rfl hms snap hs ht hi
    have hle := h.le
    refine ⟨by omega, ?_, ?_⟩
    · rcases he.offset_cases with hoff | ⟨-, hoff⟩
      · omega
      · exact hoff
    · refine Ready.expect_eq_some.mpr ⟨snap.index + 1, ?_, ?_, ?_⟩
      · change afterSnapshot n s.pendingSnapshot = some _
        rw [pending, afterSnapshot, if_pos (by omega)]
      · change s.committedEntries.map Entry.index = List.range' _ s.committedEntries.length
        simp [entries, hnil]
      · change s.committedCursor + 1 = _ + s.committedEntries.length
        simp [cursor, entries, hnil]

/-- Compaction up to a committed index. -/
theorem Paced.compacted (h : r.Paced n) {index : ℕ} (t : ℕ) (data : Bytes)
    (ho : r.raftLog.offset < index) (hc : index ≤ r.commitIndex) :
    (r.compacted index t data).Paced n where
  cursor := congrArg (max index) h.cursor
  offset := (RaftLog.compactTo_offset_le t ho).trans (le_max_left _ _)
  expected := by
    have hcur : (r.compacted index t data).committedCursor = r.committedCursor := by
      change max index r.committedCursor = r.committedCursor
      rw [h.cursor]
      omega
    rw [hcur]
    exact h.expected

theorem Paced.advance (h : r.Paced n) : r.advance.Paced (r.committedCursor + 1) where
  cursor := h.cursor
  offset := h.offset
  expected := by simp [Ready.expect, Raft.ready, Raft.advance, afterSnapshot]

end Raft

end Mizu
