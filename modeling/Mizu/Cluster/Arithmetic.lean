import Mizu.Cluster.Emission
import Mizu.Cluster.Ranges
import Mizu.Raft.Total
import Mizu.Raft.WrappedLog

/-!
# The arithmetic of a leader

`sendAppend`, `handleAppendResp`, `handleSnapshotResp` and `Snapshot` once more, with sums and
differences that fail where `uint64` wraps around. `Next` and `Match` never go below their ranges,
so no difference fails; a sum fails only at the last index of `uint64`.
-/

namespace Mizu

open Raft Cluster

namespace Checked

def add (a b : ℕ) : Option ℕ := if a + b < 2 ^ 64 then some (a + b) else none

def sub (a b : ℕ) : Option ℕ := if b ≤ a then some (a - b) else none

variable (r : Raft)

def sendAppend (dst readID : ℕ) : Option Raft := do
  let pr ← Assoc.get dst r.prs
  if pr.next ≤ r.raftLog.firstIndex then
    some (r.sendSnapshot dst readID)
  else do
    let prevIndex ← sub pr.next 1
    let prevTerm ← r.raftLog.term prevIndex
    let past ← add r.raftLog.lastIndex 1
    some (r.send
      { type := .msgApp, src := r.id, dst := dst, term := r.term, logIndex := prevIndex,
        logTerm := prevTerm, entries := r.raftLog.slice pr.next past,
        commit := r.commitIndex, readId := readID })

def movedProgress (pr : Progress) (m : Message) : Option Progress :=
  if m.reject = false then do
    let next ← add m.logIndex 1
    let past ← add r.raftLog.lastIndex 1
    some { matched := m.logIndex, next := min next past }
  else if m.logTerm = 0 then some { pr with next := max m.logIndex 1 }
  else do
    match ← r.raftLog.findLastIndexOfTerm m.logTerm with
    | some found => do
      let next ← add found 1
      some { pr with next := next }
    | none => some { pr with next := m.logIndex }

def clampMatch (pr : Progress) : Option Progress :=
  if pr.next ≤ pr.matched then (sub pr.next 1).map fun i => { pr with matched := i } else some pr

def respProgress (pr : Progress) (m : Message) : Option Progress :=
  (movedProgress r pr m).bind clampMatch

def handleAppendResp (m : Message) : Option Raft :=
  match Assoc.get m.src r.prs with
  | none => some r
  | some pr =>
    if m.term ≠ r.term then some r
    else do
      let r := r.ackReadRound m.readId m.src
      let pr ← respProgress r pr m
      { r with prs := Assoc.set m.src pr r.prs }.maybeCommit

def handleSnapshotResp (m : Message) : Option Raft :=
  if m.term ≠ r.term then some r
  else
    let r := r.ackReadRound m.readId m.src
    if m.reject then some r
    else if (Assoc.get m.src r.prs).isSome then do
      let next ← add r.raftLog.firstIndex 1
      some { r with prs := Assoc.set m.src { next := next, matched := r.raftLog.firstIndex } r.prs }
    else some r

def compactProgress (first : ℕ) (pr : Progress) : Option Progress := do
  let next ← if pr.next ≤ first then add first 1 else some pr.next
  some { next := next, matched := if pr.matched < first then first else pr.matched }

def snapshot (index : ℕ) (data : Bytes) : Option Raft :=
  if index ≤ r.raftLog.firstIndex then some r
  else do
    let term ← r.raftLog.term index
    let r := { r with raftLog := r.raftLog.compactTo index term }
    let r := r.setCommit (max index r.commitIndex)
    let r := { r with committedCursor := max index r.committedCursor }
    let r := r.markHardStateChanged
    let prs ← if r.state = .leader then
        r.prs.mapM fun p => (compactProgress r.raftLog.firstIndex p.2).map (p.1, ·)
      else some r.prs
    some { r with
      prs := prs, currentSnapshot := some { term := term, index := index, data := data } }

/-! ### Where nothing wraps -/

theorem add_of_lt {a b : ℕ} (h : a + b < 2 ^ 64) : add a b = some (a + b) := if_pos h

theorem sub_of_le {a b : ℕ} (h : b ≤ a) : sub a b = some (a - b) := if_pos h

variable {r} {m : Message}

theorem lastIndex_add_one (hpos : 0 < r.raftLog.endIndex) (hlt : r.raftLog.endIndex < 2 ^ 64) :
    add r.raftLog.lastIndex 1 = some r.raftLog.endIndex := by
  rw [RaftLog.lastIndex_of_pos hpos, add_of_lt (by omega), Nat.sub_add_cancel hpos]

theorem sendAppend_eq (h : r.Tracks) (hlt : r.raftLog.endIndex < 2 ^ 64) (dst readID : ℕ) :
    sendAppend r dst readID = r.sendAppend dst readID := by
  unfold sendAppend Raft.sendAppend
  cases hpr : Assoc.get dst r.prs with
  | none => rfl
  | some pr =>
    have hnext := (h.peers dst pr hpr).1
    simp only [sub_of_le (Nat.one_le_of_lt hnext), lastIndex_add_one (Nat.zero_lt_of_lt h.room) hlt,
      Option.bind_eq_bind, Option.bind_some]

/-- The record that an answer leads to is computed without a wrap, if it is a possible one. -/
theorem respProgress_eq {pr pr' : Progress} (hpos : 0 < r.raftLog.endIndex)
    (hlt : r.raftLog.endIndex < 2 ^ 64) (hm : m.logIndex + 1 < 2 ^ 64)
    (hresp : r.respProgress pr m = some pr') (hnext : 0 < pr'.next) :
    respProgress r pr m = some pr' := by
  obtain ⟨q, hq, rfl⟩ := Option.map_eq_some_iff.mp hresp
  have hqnext : (Raft.clampMatch q).next = q.next := by
    unfold Raft.clampMatch
    split_ifs <;> rfl
  rw [hqnext] at hnext
  have hclamp : clampMatch q = some (Raft.clampMatch q) := by
    unfold clampMatch Raft.clampMatch
    rw [sub_of_le hnext, sub64_of_le hnext]
    split_ifs <;> rfl
  suffices hmoved : movedProgress r pr m = some q by
      rw [respProgress, hmoved, Option.bind_some, hclamp]
  rw [← hq]
  unfold movedProgress Raft.movedProgress
  split_ifs with hr ht
  · rw [add_of_lt hm, lastIndex_add_one hpos hlt]
    rfl
  · rfl
  · obtain ⟨o, ho⟩ := RaftLog.exists_findLastIndexOfTerm hpos m.logTerm
    rw [ho]
    cases o with
    | none => rfl
    | some found =>
      have hfound := RaftLog.findLastIndexOfTerm_le ho
      rw [RaftLog.lastIndex_of_pos hpos] at hfound
      simp only [add_of_lt (by omega : found + 1 < 2 ^ 64), Option.bind_eq_bind, Option.bind_some]

theorem handleSnapshotResp_eq (h : r.Tracks) (hlt : r.raftLog.endIndex < 2 ^ 64) (m : Message) :
    handleSnapshotResp r m = some (r.handleSnapshotResp m) := by
  have hroom := h.room
  obtain ⟨rounds, reads, hack⟩ := ackReadRound_quiet r m.readId m.src
  have hfirst : add r.raftLog.firstIndex 1 = some (r.raftLog.firstIndex + 1) :=
    add_of_lt (by unfold RaftLog.firstIndex; omega)
  unfold handleSnapshotResp Raft.handleSnapshotResp
  simp only [hack, hfirst, Option.bind_eq_bind, Option.bind_some]
  split_ifs <;> rfl

theorem snapshot_eq (h : r.Tracks) (hs : r.state = .leader) (hlt : r.raftLog.endIndex < 2 ^ 64)
    (index : ℕ) (data : Bytes) : snapshot r index data = r.snapshot index data := by
  unfold snapshot Raft.snapshot
  split_ifs with hle
  · rfl
  have ho : r.raftLog.offset < index := not_le.mp hle
  obtain ⟨t, ht⟩ := RaftLog.exists_term (Nat.zero_lt_of_lt h.room) index
  have hfirst : (r.raftLog.compactTo index t).firstIndex + 1 < 2 ^ 64 := by
    have hoff := RaftLog.compactTo_offset_lt t ho
    rw [RaftLog.compactTo_endIndex t ho (Nat.zero_lt_of_lt h.room)] at hoff
    unfold RaftLog.firstIndex
    omega
  have hpr (pr : Progress) : compactProgress (r.raftLog.compactTo index t).firstIndex pr =
      some (Raft.compactProgress (r.raftLog.compactTo index t).firstIndex pr) := by
    unfold compactProgress Raft.compactProgress
    rw [add_of_lt hfirst]
    split_ifs <;> rfl
  have hprs : (r.prs.mapM fun p =>
      (compactProgress (r.raftLog.compactTo index t).firstIndex p.2).map (p.1, ·)) =
        some (r.prs.map fun p =>
          (p.1, Raft.compactProgress (r.raftLog.compactTo index t).firstIndex p.2)) := by
    simp only [hpr, Option.map_some]
    exact List.mapM_pure
  simp only [ht, hs, if_true, Option.bind_eq_bind, Option.bind_some, markHardStateChanged,
    setCommit, hprs]

end Checked

/-- No call on node `i` wraps, and neither does its log. -/
structure NoWrap (c : Cluster) (i : ℕ) : Prop where
  log : WrappedLog.Answers (c.nodes i).raftLog (c.nodes i).raftLog.entry
  sendAppend : ∀ dst ∈ Assoc.keys (c.nodes i).prs, ∀ readID, ∃ s,
    Checked.sendAppend (c.nodes i) dst readID = some s ∧
      (c.nodes i).sendAppend dst readID = some s
  appendResp : ∀ p ∈ c.net, p.msg.dst = i → p.msg.type = .msgAppResp →
    p.msg.logIndex + 1 < 2 ^ 64 → ∃ s, Checked.handleAppendResp (c.nodes i) p.msg = some s ∧
      (c.nodes i).handleAppendResp p.msg = some s
  snapResp : ∀ m, Checked.handleSnapshotResp (c.nodes i) m =
    some ((c.nodes i).handleSnapshotResp m)
  snapshot : ∀ index data, ∃ s, Checked.snapshot (c.nodes i) index data = some s ∧
    (c.nodes i).snapshot index data = some s

section

variable {S : Setup} {c : Cluster} {i : ℕ}

theorem Ranged.appendResp (h : Ranged c) (hs : (c.nodes i).Sound) {p : Packet} (hp : p ∈ c.net)
    (ht : p.msg.type = .msgAppResp) (hlt : (c.nodes i).raftLog.endIndex < 2 ^ 64)
    (hm : p.msg.logIndex + 1 < 2 ^ 64) :
    ∃ s, Checked.handleAppendResp (c.nodes i) p.msg = some s ∧
      (c.nodes i).handleAppendResp p.msg = some s := by
  obtain ⟨s, hresp⟩ := exists_handleAppendResp hs p.msg
  refine ⟨s, ?_, hresp⟩
  rw [← hresp]
  obtain ⟨rounds, reads, hack⟩ := ackReadRound_quiet (c.nodes i) p.msg.readId p.msg.src
  unfold Checked.handleAppendResp handleAppendResp at *
  cases hpr : Assoc.get p.msg.src (c.nodes i).prs with
  | none => rfl
  | some pr =>
    rw [hpr] at hresp
    dsimp only at hresp ⊢
    split_ifs at hresp ⊢ with hterm
    · rfl
    · rw [hack] at hresp ⊢
      obtain ⟨pr', hpr', -⟩ := Option.bind_eq_some_iff.mp hresp
      have hnext := (respProgress_eq hpr').1.pos hs.log (h.found p hp ht)
      have hchecked := Checked.respProgress_eq (r := { c.nodes i with
        readRounds := rounds, readStates := reads }) hs.log hlt hm hpr' hnext
      rw [hchecked, hpr']

/-- In every state that a cluster reaches with counters that stay in `uint64`, a leader has every
`Next` from 1 to just past its last index, every `Match` below `Next` and its own `Match` at its
last index, and no sum or difference of its calls wraps around. -/
theorem leader_progress_in_range (h : S.system.Reach (S.Within fun _ _ => True) c)
    (hs : (c.nodes i).state = .leader) (hlt : (c.nodes i).raftLog.lastIndex + 1 < 2 ^ 64) :
    (∀ j pr, Assoc.get j (c.nodes i).prs = some pr →
      1 ≤ pr.next ∧ pr.next ≤ (c.nodes i).raftLog.lastIndex + 1 ∧ pr.matched < pr.next) ∧
    (∃ pr, Assoc.get i (c.nodes i).prs = some pr ∧ pr.matched = (c.nodes i).raftLog.lastIndex) ∧
    NoWrap c i := by
  have hr : S.Reaches (fun _ _ => True) c := .of_reach S.true_stable h
  have hw : Wired S c := .of_reaches hr
  have hranged : Ranged c := .of_reaches hr
  have hpos := hranged.nonempty i
  have htracks := (hranged.node i).tracks hs
  have hlast : (c.nodes i).raftLog.lastIndex + 1 = (c.nodes i).raftLog.endIndex := by
    rw [RaftLog.lastIndex_of_pos hpos, Nat.sub_add_cancel hpos]
  obtain ⟨own, hown, hmatch⟩ := htracks.own
  rw [hlast] at hlt ⊢
  refine ⟨?_, ⟨own, by rwa [hw.id] at hown, by omega⟩, ?_⟩
  · intro j pr hpr
    obtain ⟨hmatched, hnext⟩ := htracks.peers j pr hpr
    exact ⟨Nat.one_le_of_lt hmatched, hnext, hmatched⟩
  · have hsound : (c.nodes i).Sound :=
      ⟨hpos, Assoc.get_isSome_iff.mp (Option.isSome_iff_exists.mpr ⟨own, hown⟩)⟩
    have hlog : WrappedLog.Contiguous (c.nodes i).raftLog := by
      refine ⟨?_, (Numbering.of_reaches hr).log i, hlt.le⟩
      intro hnil
      have := htracks.room
      simp [RaftLog.endIndex, hnil] at this
    refine ⟨WrappedLog.answers hlog hlt, ?_, ?_, Checked.handleSnapshotResp_eq htracks hlt, ?_⟩
    · intro dst hdst readID
      rw [Checked.sendAppend_eq htracks hlt]
      obtain ⟨s, hsend⟩ := exists_sendAppend hsound hdst readID
      exact ⟨s, hsend, hsend⟩
    · intro p hp _ ht hm
      exact hranged.appendResp hsound hp ht hlt hm
    · intro index data
      rw [Checked.snapshot_eq htracks hs hlt]
      obtain ⟨s, hsnap⟩ := exists_snapshot hsound index data
      exact ⟨s, hsnap, hsnap⟩

end

/-- Node 1 leads and gets the answer of node 2. -/
theorem leader_progress_in_range_trio : ∃ c,
    trio.system.Reach (trio.Within fun _ _ => True) c ∧ (c.nodes 1).state = .leader ∧
    Assoc.get 2 (c.nodes 1).prs = some { matched := 1, next := 2 } ∧ NoWrap c 1 := by
  obtain ⟨c, hc, hs, hpr, hlast⟩ := trio.exists_reach (trio.Within fun _ _ => True)
    (fun c => (c.nodes 1).state = .leader ∧
      Assoc.get 2 (c.nodes 1).prs = some { matched := 1, next := 2 } ∧
      (c.nodes 1).raftLog.lastIndex + 1 < 2 ^ 64)
    [.tick 1 0, .deliver 0, .deliver 2, .deliver 3, .deliver 5] (by decide +kernel)
  exact ⟨c, hc, hs, hpr, (leader_progress_in_range hc hs hlast).2.2⟩

/-! ### At the last index -/

/-- A leader that is proposed to goes on leading, with a longer log. -/
theorem exists_leading {n : ℕ} (hn : n + 2 < 2 ^ 64) : ∃ c,
    trio.system.Reach (trio.Within fun _ _ => True) c ∧ (c.nodes 1).state = .leader ∧
    (c.nodes 1).raftLog.offset = 0 ∧ (c.nodes 1).raftLog.endIndex = n + 2 ∧
    (c.nodes 2).raftLog.endIndex = 1 ∧ (c.nodes 3).raftLog.endIndex = 1 := by
  induction n with
  | zero =>
    exact trio.exists_reach (trio.Within fun _ _ => True) (fun c => (c.nodes 1).state = .leader ∧
      (c.nodes 1).raftLog.offset = 0 ∧ (c.nodes 1).raftLog.endIndex = 2 ∧
      (c.nodes 2).raftLog.endIndex = 1 ∧ (c.nodes 3).raftLog.endIndex = 1)
      [.tick 1 0, .deliver 0, .deliver 2] (by decide +kernel)
  | succ n ih =>
    obtain ⟨c, hc, hs, hoff, hend, hend₂, hend₃⟩ := ih (by omega)
    have hr : trio.Reaches (fun _ _ => True) c := .of_reach trio.true_stable hc
    have hfits : trio.Fits c (.propose 1 []) := by
      refine ⟨fun i (hi : i ∈ [1, 2, 3]) => ?_, nofun⟩
      rcases (by simpa using hi : i = 1 ∨ i = 2 ∨ i = 3) with rfl | rfl | rfl <;> omega
    have hw : Wired trio c := .of_reaches hr
    have hsound : (c.nodes 1).Sound := by
      refine ⟨by omega, ?_⟩
      rw [hw.peers, hw.id]
      exact List.mem_cons_self
    obtain ⟨x, hx⟩ := exists_propose hsound []
    have hstep : trio.system.step c (.propose 1 []) (c.put 1 x.1) := by
      refine ⟨List.mem_cons_self, ?_⟩
      change ((c.nodes 1).propose []).map (fun p => c.put 1 p.1) = _
      rw [hx, Option.map_some]
    rcases propose_cases hx with ⟨hfalse, -⟩ | ⟨-, -, hadv⟩
    · simp only [propose, hs, ne_eq, not_true, if_false] at hx
      obtain ⟨r, -, hx⟩ := Option.bind_eq_some_iff.mp hx
      rw [← Option.some.inj hx] at hfalse
      cases hfalse
    · refine ⟨_, .step hc ⟨hfits, trivial⟩ hstep, ?_⟩
      rw [put_nodes_self, hadv.kept.state, hadv.kept.raftLog, put_nodes_of_ne _ _ (by decide),
        put_nodes_of_ne _ _ (by decide)]
      refine ⟨hs, hoff, ?_, hend₂, hend₃⟩
      change ((c.nodes 1).raftLog.append _).endIndex = _
      rw [RaftLog.append_endIndex, hend]
      rfl

/-- A leader reaches index `2 ^ 64 - 2`. When it appends one more entry, the `Next` that it keeps
for itself and the end of what it sends are past the last index of `uint64`. -/
theorem append_at_last_index_wraps : ∃ c, trio.system.Reach (trio.Within fun _ _ => True) c ∧
    (c.nodes 1).state = .leader ∧ (c.nodes 1).raftLog.lastIndex = 2 ^ 64 - 2 ∧
    Checked.add ((c.nodes 1).raftLog.lastIndex + 1) 1 = none ∧
    Checked.sendAppend ((c.nodes 1).appended []) 2 0 = none := by
  obtain ⟨c, hc, hs, hoff, hend, -⟩ := exists_leading (by omega : 2 ^ 64 - 3 + 2 < 2 ^ 64)
  have hr : trio.Reaches (fun _ _ => True) c := .of_reach trio.true_stable hc
  have hw : Wired trio c := .of_reaches hr
  have hlast : (c.nodes 1).raftLog.lastIndex = 2 ^ 64 - 2 := by
    rw [RaftLog.lastIndex_of_pos (by omega)]
    omega
  obtain ⟨pr, hpr⟩ : ∃ pr, Assoc.get 2 (c.nodes 1).prs = some pr := by
    rw [← Option.isSome_iff_exists, Assoc.get_isSome_iff, hw.peers]
    decide
  have hnext := ((((Ranged.of_reaches hr).node 1).tracks hs).peers 2 pr hpr).1
  have hset : Assoc.get 2 ((c.nodes 1).appended []).prs = some pr := by
    rw [← hpr]
    exact Assoc.get_set_of_ne (by rw [hw.id]; decide) _ _
  have hend' : ((c.nodes 1).appended []).raftLog.endIndex = 2 ^ 64 := by
    change ((c.nodes 1).raftLog.append _).endIndex = _
    rw [RaftLog.append_endIndex, hend, List.length_singleton]
    omega
  have hfirst : ¬pr.next ≤ ((c.nodes 1).appended []).raftLog.firstIndex := by
    change ¬pr.next ≤ (c.nodes 1).raftLog.offset
    omega
  obtain ⟨t, ht⟩ := RaftLog.exists_term (l := ((c.nodes 1).appended []).raftLog)
    (by rw [hend']; decide) (pr.next - 1)
  have hadd : Checked.add ((c.nodes 1).appended []).raftLog.lastIndex 1 = none := by
    rw [RaftLog.lastIndex_of_pos (by rw [hend']; decide), hend']
    exact if_neg (by omega)
  refine ⟨c, hc, hs, hlast, if_neg (by omega), ?_⟩
  unfold Checked.sendAppend
  simp only [hset, hfirst, if_false, Checked.sub_of_le (Nat.one_le_of_lt hnext), ht, hadd,
    Option.bind_eq_bind, Option.bind_some, Option.bind_none]

end Mizu
