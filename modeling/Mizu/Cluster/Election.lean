import Mizu.Cluster.Basic
import Mizu.Library.Majority

/-!
# Election safety

A node votes once in a term and a leader has the votes of a majority, so a term
has one leader, provided that every vote a candidate counts was cast in the term
it is campaigning for. `handleVoteResp` does not look at the term of the answer,
so this last point is a condition on the run.
-/

namespace Mizu

open Raft Cluster

/-- No candidate is given a vote that was cast in an earlier term. -/
def FreshVotes (c : Cluster) : Action → Prop :=
  c.Delivering fun p => p.msg.type = .msgVoteResp → p.msg.reject = false →
    (c.nodes p.msg.dst).state = .candidate → (c.nodes p.msg.dst).term ≤ p.msg.term

instance (c : Cluster) (a : Action) : Decidable (FreshVotes c a) :=
  inferInstanceAs (Decidable (c.Delivering _ a))

theorem freshVotes_stable (S : Setup) (G : Cluster → Action → Prop) : S.Stable G FreshVotes := by
  intro c k p r _ hp he _ _ hg p' hp' ht hr hs
  rw [Option.mem_def, getElem?_put_net _ _ hp] at hp'
  cases hp'
  rw [put_nodes_self] at hs ⊢
  have hold (hs : (c.nodes p.msg.dst).state = .candidate) := hg p hp ht hr hs
  cases he.election with
  | kept term vote state =>
    rcases state with ⟨-, h⟩ | ⟨h, -⟩
    · simp [h] at hs
    · exact term ▸ hold (h.symm.trans hs)
  | won term vote hc hq state => simp [state] at hs
  | counted hm ht' hc term => exact term ▸ hold hc
  | stood hm => simp [hm _ rfl] at ht
  | bumped ht' term vote state => simp [state] at hs
  | granted hm => simp [hm] at ht
  | installed hm => simp [hm] at ht

/-- Node `j` has sent `i` its vote for term `T`. -/
def Cluster.Granted (c : Cluster) (j i T : ℕ) : Prop :=
  ∃ p ∈ c.net, p.msg.type = .msgVoteResp ∧ p.msg.reject = false ∧ p.msg.src = j ∧
    p.msg.dst = i ∧ p.msg.term = T

theorem Cluster.Granted.put {c : Cluster} {j k T : ℕ} (h : c.Granted j k T) (i : ℕ) (r : Raft) :
    (c.put i r).Granted j k T := by
  obtain ⟨p, hp, hrest⟩ := h
  exact ⟨p, mem_put_net_of_mem r hp, hrest⟩

/-- `B j t v` records that node `j` has voted for `v` in term `t`. -/
structure Polled (S : Setup) (c : Cluster) (B : ℕ → ℕ → ℕ → Prop) : Prop where
  once : ∀ j t v v', B j t v → B j t v' → v = v'
  ne_zero : ∀ j t v, B j t v → v ≠ 0
  past : ∀ j t v, B j t v → t ≤ (c.nodes j).term
  current : ∀ j v, B j (c.nodes j).term v → v = (c.nodes j).vote
  record : ∀ j, (c.nodes j).vote ≠ 0 → B j (c.nodes j).term (c.nodes j).vote
  own : ∀ j, (c.nodes j).state ≠ .follower → (c.nodes j).vote = j
  granted : ∀ p ∈ c.net, p.msg.type = .msgVoteResp → p.msg.reject = false →
    B p.msg.src p.msg.term p.msg.dst
  counted : ∀ i j, (c.nodes i).state = .candidate → (j, true) ∈ (c.nodes i).votes →
    j = i ∨ c.Granted j i (c.nodes i).term
  voters : ∀ i, (c.nodes i).state = .candidate →
    (Assoc.keys (c.nodes i).votes).Nodup ∧ ∀ j ∈ Assoc.keys (c.nodes i).votes, j ∈ S.ids
  elected : ∀ t i, (t, i) ∈ c.led →
    ∃ Q ⊆ S.ids.toFinset, S.ids.length < 2 * Q.card ∧ ∀ j ∈ Q, B j t i

namespace Polled

variable {S : Setup} {c : Cluster} {B : ℕ → ℕ → ℕ → Prop} {i : ℕ} {r : Raft}

theorem init (S : Setup) : Polled S S.start fun _ _ _ => False where
  once _ _ _ _ h := h.elim
  ne_zero _ _ _ h := h.elim
  past _ _ _ h := h.elim
  current _ _ h := h.elim
  record _ h := absurd rfl h
  own _ h := absurd rfl h
  granted p hp := by simp [Setup.start] at hp
  counted _ _ h := nomatch h
  voters _ h := nomatch h
  elected _ _ h := by simp [Setup.start] at h

/-- Two leaders of one term share a voter, who voted once. -/
theorem unique (h : Polled S c B) : c.UniqueLeaders := by
  intro t i j hi hj
  obtain ⟨Q, hQ, hcard, hB⟩ := h.elected t i hi
  obtain ⟨Q', hQ', hcard', hB'⟩ := h.elected t j hj
  have hids : S.ids.toFinset.card = S.ids.length := List.toFinset_card_of_nodup S.nodup
  obtain ⟨v, hv, hv'⟩ := Majority.exists_mem_of_card hQ hQ' (by omega) (by omega)
  exact h.once v t i j (hB v hv) (hB' v hv')

/-- A vote is only ever cast where there was none, or in a later term. -/
def VoteStep (r s : Raft) : Prop :=
  r.term < s.term ∨ (s.term = r.term ∧ (s.vote = r.vote ∨ r.vote = 0))

/-- The record after node `i` has become `r`. -/
def note (B : ℕ → ℕ → ℕ → Prop) (i : ℕ) (r : Raft) (j t v : ℕ) : Prop :=
  B j t v ∨ (j = i ∧ t = r.term ∧ v = r.vote ∧ v ≠ 0)

theorem note_current (h : Polled S c B) (hv : VoteStep (c.nodes i) r) {v : ℕ}
    (hB : B i r.term v) : v = r.vote := by
  have hpast := h.past i _ v hB
  have h0 := h.ne_zero i _ v hB
  rcases hv with hlt | ⟨heq, hvote⟩
  · omega
  · rw [heq] at hB
    have hcur := h.current i v hB
    rcases hvote with hvote | hvote
    · rw [hvote, hcur]
    · exact absurd (hcur.trans hvote) h0

theorem note_once (h : Polled S c B) (hv : VoteStep (c.nodes i) r) (j t v v' : ℕ)
    (h₁ : note B i r j t v) (h₂ : note B i r j t v') : v = v' := by
  rcases h₁ with h₁ | ⟨rfl, rfl, hv₁, -⟩ <;> rcases h₂ with h₂ | ⟨hj, ht, hv₂, -⟩
  · exact h.once j t v v' h₁ h₂
  · subst hj ht
    rw [h.note_current hv h₁, hv₂]
  · rw [h.note_current hv h₂, hv₁]
  · rw [hv₁, hv₂]

/-- What a step at node `i` has to show for the record to be kept. -/
structure Step (S : Setup) (c : Cluster) (B : ℕ → ℕ → ℕ → Prop) (i : ℕ) (r : Raft) : Prop where
  vote : VoteStep (c.nodes i) r
  own : r.state ≠ .follower → r.vote = i
  granted : ∀ p ∈ (c.put i r).net, p ∈ c.net ∨
    (p.msg.type = .msgVoteResp → p.msg.reject = false →
      p.msg.src = i ∧ p.msg.term = r.term ∧ p.msg.dst = r.vote ∧ r.vote ≠ 0)
  counted : ∀ j, r.state = .candidate → (j, true) ∈ r.votes →
    j = i ∨ (c.put i r).Granted j i r.term
  voters : r.state = .candidate →
    (Assoc.keys r.votes).Nodup ∧ ∀ j ∈ Assoc.keys r.votes, j ∈ S.ids
  elected : r.state = .leader → (r.term, i) ∈ c.led ∨
    ∃ Q ⊆ S.ids.toFinset, S.ids.length < 2 * Q.card ∧ ∀ j ∈ Q, B j r.term i

theorem put (h : Polled S c B) (hs : Step S c B i r) : Polled S (c.put i r) (note B i r) := by
  have hle : (c.nodes i).term ≤ r.term := by
    rcases hs.vote with hlt | ⟨heq, -⟩
    · exact hlt.le
    · exact heq.ge
  refine ⟨h.note_once hs.vote, ?_, ?_, ?_, ?_, ?_, ?_, ?_, ?_, ?_⟩
  · rintro j t v (hB | ⟨-, -, -, hv⟩)
    · exact h.ne_zero j t v hB
    · exact hv
  · rintro j t v (hB | ⟨rfl, rfl, -, -⟩)
    · exact le_put_term hle (h.past j t v hB)
    · rw [put_nodes_self]
  · intro j v hB
    by_cases hj : j = i
    · subst hj
      rw [put_nodes_self] at hB ⊢
      rcases hB with hB | ⟨-, -, hv, -⟩
      · exact h.note_current hs.vote hB
      · exact hv
    · rw [put_nodes_of_ne _ _ hj] at hB ⊢
      rcases hB with hB | ⟨hji, -⟩
      · exact h.current j v hB
      · exact absurd hji hj
  · intro j hv
    by_cases hj : j = i
    · subst hj
      rw [put_nodes_self] at hv ⊢
      exact Or.inr ⟨rfl, rfl, rfl, hv⟩
    · rw [put_nodes_of_ne _ _ hj] at hv ⊢
      exact Or.inl (h.record j hv)
  · exact forall_put (P := fun j s => s.state ≠ .follower → s.vote = j) hs.own h.own
  · intro p hp ht hr
    rcases hs.granted p hp with hp | hp
    · exact Or.inl (h.granted p hp ht hr)
    · obtain ⟨hsrc, hterm, hdst, h0⟩ := hp ht hr
      exact Or.inr ⟨hsrc, hterm, hdst, hdst ▸ h0⟩
  · exact forall_put (P := fun k s => ∀ j, s.state = .candidate → (j, true) ∈ s.votes →
      j = k ∨ (c.put i r).Granted j k s.term) hs.counted
      fun k j hst hj => (h.counted k j hst hj).imp_right (·.put i r)
  · exact forall_put (P := fun _ s => s.state = .candidate →
      (Assoc.keys s.votes).Nodup ∧ ∀ j ∈ Assoc.keys s.votes, j ∈ S.ids) hs.voters h.voters
  · intro t k htk
    have old (hm : (t, k) ∈ c.led) :
        ∃ Q ⊆ S.ids.toFinset, S.ids.length < 2 * Q.card ∧ ∀ j ∈ Q, note B i r j t k := by
      obtain ⟨Q, hQ, hcard, hB⟩ := h.elected t k hm
      exact ⟨Q, hQ, hcard, fun j hj => Or.inl (hB j hj)⟩
    rcases mem_put_led htk with hm | ⟨hst, heq⟩
    · exact old hm
    · cases heq
      rcases hs.elected hst with hm | ⟨Q, hQ, hcard, hB⟩
      · exact old hm
      · exact ⟨Q, hQ, hcard, fun j hj => Or.inl (hB j hj)⟩

/-- The voters that make a candidate win. -/
theorem exists_voters (h : Polled S c B) (hw : Wired S c)
    (hc : (c.nodes i).state = .candidate) (hq : (c.nodes i).quorum ≤ (c.nodes i).grants) :
    ∃ Q ⊆ S.ids.toFinset, S.ids.length < 2 * Q.card ∧ ∀ j ∈ Q, (j, true) ∈ (c.nodes i).votes := by
  obtain ⟨hnodup, hsub⟩ := h.voters i hc
  have hlen : (c.nodes i).prs.length = S.ids.length := by
    rw [← hw.peers i, Assoc.keys, List.length_map]
  obtain ⟨Q, hQ, hcard, hgr⟩ := Majority.exists_keys (P := fun p => p.2) hnodup hsub (by
    unfold Raft.quorum Raft.grants at hq
    omega)
  refine ⟨Q, hQ, hcard, fun j hj => ?_⟩
  obtain ⟨b, hb, hb'⟩ := hgr j hj
  have hb'' : b = true := hb'
  exact hb'' ▸ hb

/-- The votes that a candidate has counted are in the record. -/
theorem ballot (h : Polled S c B) (hi : i ∈ S.ids) (hc : (c.nodes i).state = .candidate) {j : ℕ}
    (hj : (j, true) ∈ (c.nodes i).votes) : B j (c.nodes i).term i := by
  rcases h.counted i j hc hj with rfl | ⟨p, hp, ht, hr, rfl, rfl, hterm⟩
  · have hown := h.own j (by simp [hc])
    have hrec := h.record j (by rw [hown]; exact fun h0 => S.ne_zero (h0 ▸ hi))
    rwa [hown] at hrec
  · exact hterm ▸ h.granted p hp ht hr

/-- A new grant is of the vote that the node has now. -/
theorem granted_of_effect (hw : Wired S c) {m : Option Message} (hm : c.Source FreshVotes i m)
    (he : (c.nodes i).Effect m r) : ∀ p ∈ (c.put i r).net, p ∈ c.net ∨
      (p.msg.type = .msgVoteResp → p.msg.reject = false →
        p.msg.src = i ∧ p.msg.term = r.term ∧ p.msg.dst = r.vote ∧ r.vote ≠ 0) := by
  intro p hp
  rcases sent_of_mem_put_net he hp with hp | ⟨hx, -⟩
  · exact Or.inl hp
  · refine Or.inr fun ht hr => ?_
    obtain ⟨m', rfl, -, -, -, hvote, -, hsrc, hdst, hterm⟩ := hx.granting ht hr
    obtain ⟨q, hq, rfl, -⟩ := mem_net_of_source hm
    have h0 : r.vote ≠ 0 := fun h0 => S.ne_zero (h0 ▸ hvote ▸ hw.src q hq)
    exact ⟨hsrc.trans (he.id_eq.trans (hw.id i)), hterm, hdst.trans hvote.symm, h0⟩

/-- What a candidate has counted, with one more answer that is not of an earlier term. -/
theorem counted_of_answer (h : Polled S c B) (hc : (c.nodes i).state = .candidate) {m : Message}
    (hm : c.Source FreshVotes i (some m)) (ht : m.type = .msgVoteResp)
    (hle : m.term ≤ (c.nodes i).term) {j : ℕ}
    (hj : (j, true) ∈ Assoc.set m.src (!m.reject) (c.nodes i).votes) :
    j = i ∨ (c.put i r).Granted j i (c.nodes i).term := by
  obtain ⟨k, p, hp, rfl, hdst, hg⟩ := hm
  rcases Assoc.mem_of_mem_set hj with heq | hj
  · have hr : p.msg.reject = false := by simpa using (congrArg Prod.snd heq).symm
    have hge := hg p hp ht hr (hdst ▸ hc)
    rw [hdst] at hge
    exact Or.inr ⟨p, mem_put_net_of_mem r (List.mem_of_getElem? hp), ht, hr,
      (congrArg Prod.fst heq).symm, hdst, le_antisymm hle hge⟩
  · exact (h.counted i j hc hj).imp_right (·.put i r)

theorem voteStep_of_effect (hw : Wired S c) (hd : Dated c) {m : Option Message}
    (hm : c.Source FreshVotes i m)
    (hb : m = none → r.term ≠ (c.nodes i).term → (c.nodes i).term + 1 < 2 ^ 64)
    (he : ElectionChange (c.nodes i) r m) : VoteStep (c.nodes i) r := by
  cases he with
  | kept term vote => exact Or.inr ⟨term, Or.inl vote⟩
  | won term vote => exact Or.inr ⟨term, Or.inl vote⟩
  | counted _ _ _ term vote => exact Or.inr ⟨term, Or.inl vote⟩
  | stood hup _ term vote =>
    cases m with
    | some m' => exact absurd (hup m' rfl) (hw.not_hup hm m' rfl)
    | none =>
      refine Or.inl ?_
      have hlt := hb rfl (term ▸ nextTerm_ne _)
      rw [term, nextTerm_of_lt hlt]
      exact Nat.lt_succ_self _
  | bumped ht term => exact Or.inl (term ▸ ht)
  | granted _ _ hv term vote =>
    refine Or.inr ⟨term, ?_⟩
    rw [vote]
    rcases vote_of_canVote hv with h0 | h
    · exact Or.inr h0
    · exact Or.inl h.symm
  | installed hms ht _ hsnap term vote =>
    obtain ⟨p, hp, rfl, -⟩ := mem_net_of_source hm
    have hle := hd.install p hp hms _ hsnap
    refine Or.inr ⟨?_, Or.inl vote⟩
    rw [term, max_eq_left (hle.trans ht.le)]

theorem step_of_effect (h : Polled S c B) (hw : Wired S c) (hd : Dated c) (hl : Led c)
    (hi : i ∈ S.ids) {m : Option Message} (hm : c.Source FreshVotes i m)
    (hb : m = none → r.term ≠ (c.nodes i).term → (c.nodes i).term + 1 < 2 ^ 64)
    (he : (c.nodes i).Effect m r) : Step S c B i r := by
  have hid := hw.id i
  have hvs : VoteStep (c.nodes i) r := voteStep_of_effect hw hd hm hb he.election
  have hgranted := granted_of_effect hw hm he
  have follower (hf : r.state = .follower) : Step S c B i r :=
    ⟨hvs, absurd hf, hgranted, by simp [hf], by simp [hf], by simp [hf]⟩
  -- while the role and the term stay, so does what was known about the counted votes
  have same (term : r.term = (c.nodes i).term) (vote : r.vote = (c.nodes i).vote)
      (state : r.state = (c.nodes i).state) (votes : r.votes = (c.nodes i).votes) :
      Step S c B i r := by
    refine ⟨hvs, ?_, hgranted, ?_, ?_, ?_⟩
    · intro hne
      exact vote.trans (h.own i (state ▸ hne))
    · intro j hst hj
      exact term ▸ (h.counted i j (state ▸ hst) (votes ▸ hj)).imp_right (·.put i r)
    · intro hst
      exact votes ▸ h.voters i (state ▸ hst)
    · intro hst
      exact Or.inl (term ▸ hl.leads i (state ▸ hst))
  cases he.election with
  | kept term vote state =>
    rcases state with ⟨-, hf⟩ | ⟨hst, hvotes⟩
    · exact follower hf
    · exact same term vote hst hvotes
  | won term vote hc hq state =>
    refine ⟨hvs, ?_, hgranted, by simp [state], by simp [state], ?_⟩
    · intro _
      exact vote.trans (h.own i (by simp [hc]))
    · intro _
      obtain ⟨Q, hQ, hcard, hvotes⟩ := h.exists_voters hw hc hq
      exact Or.inr ⟨Q, hQ, hcard, fun j hj => term ▸ h.ballot hi hc (hvotes j hj)⟩
  | counted hmt ht hc term vote state votes =>
    refine ⟨hvs, fun _ => vote.trans (h.own i (by simp [hc])), hgranted, ?_, ?_, by simp [state]⟩
    · intro j _ hj
      exact term ▸ h.counted_of_answer hc hm hmt ht (votes ▸ hj)
    · intro _
      obtain ⟨p, hp, rfl, -⟩ := mem_net_of_source hm
      obtain ⟨hnodup, hsub⟩ := h.voters i hc
      rw [votes]
      refine ⟨Assoc.nodup_keys_set hnodup, ?_⟩
      intro j hj
      rcases Assoc.mem_keys_set.mp hj with rfl | hj
      · exact hw.src p hp
      · exact hsub j hj
  | stood hup _ term vote state votes =>
    rw [hid] at vote votes
    refine ⟨hvs, fun _ => vote, hgranted, ?_, ?_, by simp [state]⟩
    · exact fun j _ hj => Or.inl (by simpa [votes] using hj)
    · intro _
      rw [votes]
      exact ⟨by simp [Assoc.keys], by simpa [Assoc.keys] using hi⟩
  | bumped ht term vote state => exact follower state
  | granted hmt ht hv term vote hnl state votes =>
    by_cases hf : (c.nodes i).state = .follower
    · exact follower (state.trans hf)
    · -- a candidate has voted for itself, so it can only grant its own vote again
      have hown := h.own i hf
      have hsrc := (vote_of_canVote hv).resolve_left
        (by rw [hown]; exact fun h0 => S.ne_zero (h0 ▸ hi))
      exact same term (vote.trans hsrc.symm) state votes
  | installed hms ht _ hsnap term vote state => exact follower state

theorem of_reaches (h : S.Reaches FreshVotes c) : ∃ B, Polled S c B := by
  refine h.induct (I := fun c => ∃ B, Polled S c B) ⟨_, init S⟩
    (fun c d rd ⟨B, hB⟩ => ⟨B, { hB with }⟩) ?_ ?_ ?_
  · rintro c i m r hr ⟨B, hB⟩ hi hm hb he
    exact ⟨_, hB.put (hB.step_of_effect (.of_reaches hr) (.of_reaches hr) (.of_reaches hr) hi hm
      hb he)⟩
  · rintro c i index t data hr ⟨B, hB⟩ hi - - - -
    refine ⟨_, hB.put ⟨Or.inr ⟨rfl, Or.inl rfl⟩, hB.own i, ?_, ?_, hB.voters i, ?_⟩⟩
    · intro p hp
      exact Or.inl (by rwa [put_net_compacted] at hp)
    · exact fun j hs hj => (hB.counted i j hs hj).imp_right (·.put i _)
    · exact fun hs => Or.inl ((Led.of_reaches hr).leads i hs)
  · rintro c i hr ⟨B, hB⟩ hi
    refine ⟨_, hB.put ⟨Or.inr ⟨rfl, Or.inl rfl⟩, hB.own i, ?_, ?_, hB.voters i, ?_⟩⟩
    · intro p hp
      exact Or.inl (by rwa [put_net_advance] at hp)
    · exact fun j hs hj => (hB.counted i j hs hj).imp_right (·.put i _)
    · exact fun hs => Or.inl ((Led.of_reaches hr).leads i hs)

end Polled

/-- In every run in which the counters stay in `uint64` and candidates are only given votes of
their own term, no term is ever led by two nodes. -/
theorem election_safety {S : Setup} {c : Cluster} (h : S.system.Reach (S.Within FreshVotes) c) :
    c.UniqueLeaders := by
  obtain ⟨B, hB⟩ := Polled.of_reaches (.of_reach (freshVotes_stable S) h)
  exact hB.unique

theorem election_safety_trio : ∃ c, trio.system.Reach (trio.Within FreshVotes) c ∧
    (1, 1) ∈ c.led ∧ c.UniqueLeaders := by
  obtain ⟨c, hc, hled⟩ := trio.exists_reach (trio.Within FreshVotes) (fun c => (1, 1) ∈ c.led)
    [.tick 1 0, .deliver 0, .deliver 2] (by decide +kernel)
  exact ⟨c, hc, hled, election_safety hc⟩

/-- Node 2's answer to the first campaign of node 1 reaches it in its second one and
makes it the leader of term 2; node 2 then votes for node 3 in that term. -/
theorem late_vote_elects_two : ∃ c, trio.system.Reach (fun _ _ => True) c ∧
    (2, 1) ∈ c.led ∧ (2, 3) ∈ c.led :=
  trio.exists_reach _ (fun c => (2, 1) ∈ c.led ∧ (2, 3) ∈ c.led)
    [.tick 1 0, .deliver 0, .tick 1 0, .deliver 2, .tick 3 0, .tick 3 0, .deliver 10, .deliver 11]
    (by decide +kernel)

end Mizu
