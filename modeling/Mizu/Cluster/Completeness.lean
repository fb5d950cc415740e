import Mizu.Cluster.FullLogs

/-!
# Leader completeness

An entry that a majority has acknowledged in the term it was made in is in the log of
every leader of a later term. The votes that made this leader come from a majority
too; a node in both has acknowledged the entry, still had it when it voted, and found
the candidate's log as up to date as its own. It still had the entry because the
leaders in between had it as well, so the argument is an induction on the term.
-/

namespace Mizu

open Raft Cluster

section

variable {S : Setup} {G : Cluster → Action → Prop} {c : Cluster} {H K : Entry → ℕ → Prop} {i j : ℕ}
  {r : Raft} {m : Option Message} {e x : Entry} {t : ℕ}

/-! ### Votes and the logs they were cast on -/

/-- A request for a vote carries the log of the candidate, a granted vote that of a voter
who found the candidate's log as up to date as its own. -/
structure Balloted (c : Cluster) : Prop where
  log : ∀ p ∈ c.net, p.msg.type = .msgVote →
    p.msg.logIndex = p.log.lastIndex ∧ p.msg.logTerm = p.log.lastTerm
  asked : ∀ p ∈ c.net, p.msg.type = .msgVote → p.msg.term ≤ (c.nodes p.msg.src).term ∧
    ((c.nodes p.msg.src).state = .candidate → (c.nodes p.msg.src).term = p.msg.term →
      (c.nodes p.msg.src).raftLog = p.log)
  granted : ∀ p ∈ c.net, p.msg.type = .msgVoteResp → p.msg.reject = false →
    p.msg.term ≤ (c.nodes p.msg.src).term ∧ p.msg.term ≤ (c.nodes p.msg.dst).term ∧
    ((c.nodes p.msg.dst).state = .candidate → (c.nodes p.msg.dst).term = p.msg.term →
      (c.nodes p.msg.dst).raftLog.UpToDate p.log)

namespace Balloted

theorem init (S : Setup) : Balloted S.start where
  log p hp := by simp [Setup.start] at hp
  asked p hp := by simp [Setup.start] at hp
  granted p hp := by simp [Setup.start] at hp

/-- A candidate of a term it has already been asked or voted for in has not moved. -/
theorem candidate_kept {T : ℕ} (he : (c.nodes i).Effect m r) (hle : (c.nodes i).term ≤ r.term)
    (hs : r.state = .candidate) (hT : T ≤ (c.nodes i).term) (ht : r.term = T) :
    (c.nodes i).state = .candidate ∧ (c.nodes i).term = T ∧
      r.raftLog = (c.nodes i).raftLog := by
  obtain ⟨hlog, ⟨hs', ht'⟩ | ⟨ht', -⟩⟩ := he.candidate hs
  · exact ⟨hs', ht'.symm.trans ht, hlog⟩
  · have : r.term = (c.nodes i).term := le_antisymm (ht.le.trans hT) hle
    exact absurd (ht'.symm.trans this) (nextTerm_ne _)

theorem effect (h : Balloted c) (hw : Wired S c) (hm : c.Source G i m)
    (hb : m = none → r.term ≠ (c.nodes i).term → (c.nodes i).term + 1 < 2 ^ 64)
    (he : (c.nodes i).Effect m r) : Balloted (c.put i r) := by
  have hid : r.id = i := he.id_eq.trans (hw.id i)
  have hle : (c.nodes i).term ≤ r.term := he.term_le (hw.not_hup hm) hb
  constructor
  · intro p hp ht
    rcases sent_of_mem_put_net he hp with hp | ⟨hx, hlog⟩
    · exact h.log p hp ht
    · rw [hlog]
      exact (hx.asking ht).2.2
  · intro p hp ht
    rcases sent_of_mem_put_net he hp with hp | ⟨hx, hlog⟩
    · obtain ⟨hT, hcand⟩ := h.asked p hp ht
      refine ⟨le_put_term hle hT, fun hs hterm => ?_⟩
      by_cases hi : p.msg.src = i
      · rw [hi] at hs hterm hT hcand ⊢
        rw [put_nodes_self] at hs hterm ⊢
        obtain ⟨hs', ht', hlog⟩ := candidate_kept he hle hs hT hterm
        rw [hlog]
        exact hcand hs' ht'
      · rw [put_nodes_of_ne _ _ hi] at hs hterm ⊢
        exact hcand hs hterm
    · obtain ⟨hsrc, hterm, -⟩ := hx.asking ht
      rw [hsrc, hterm, hid, put_nodes_self, hlog]
      exact ⟨le_rfl, fun _ _ => rfl⟩
  · intro p hp ht hr
    rcases sent_of_mem_put_net he hp with hp | ⟨hx, hlog⟩
    · obtain ⟨hT, hT', hup⟩ := h.granted p hp ht hr
      refine ⟨le_put_term hle hT, le_put_term hle hT', fun hs hterm => ?_⟩
      by_cases hi : p.msg.dst = i
      · rw [hi] at hs hterm hT' hup ⊢
        rw [put_nodes_self] at hs hterm ⊢
        obtain ⟨hs', ht', hlog⟩ := candidate_kept he hle hs hT' hterm
        rw [hlog]
        exact hup hs' ht'
      · rw [put_nodes_of_ne _ _ hi] at hs hterm ⊢
        exact hup hs hterm
    · obtain ⟨m', rfl, hmt, hterm', hv, -, hkept, hsrc, hdst, hterm⟩ := hx.granting ht hr
      obtain ⟨q, hq, rfl, hqd⟩ := mem_net_of_source hm
      have hne : p.msg.dst ≠ i := by
        rw [hdst, ← hqd]
        exact hw.ne q hq
      have hpq : p.msg.term = q.msg.term := hterm.trans hterm'.symm
      obtain ⟨hT, hcand⟩ := h.asked q hq hmt
      refine ⟨?_, ?_, fun hs hpt => ?_⟩
      · rw [hsrc, hid, put_nodes_self, hterm]
      · rw [hdst, hpq]
        exact le_put_term hle hT
      · rw [put_nodes_of_ne _ _ hne, hdst] at hs hpt ⊢
        rw [hcand hs (hpt.trans hpq), hlog, hkept]
        exact RaftLog.upToDate_of_canVote hv (h.log q hq hmt).1 (h.log q hq hmt).2

theorem advance (h : Balloted c) : Balloted (c.put i (c.nodes i).advance) where
  log := by simpa using h.log
  asked := by simpa using h.asked
  granted := by simpa using h.granted

theorem of_reaches (hN : ∀ c a, G c a → NoSnapshot a) (h : S.Reaches G c) : Balloted c := by
  refine h.induct (init S) (fun c d rd hc => { hc with }) ?_ ?_ ?_
  · intro c i m r hr hc _ hm hb he
    exact hc.effect (.of_reaches hr) hm hb he
  · intro c i index t data _ _ _ hg
    exact (hN c _ hg).elim
  · intro c i _ hc _
    exact hc.advance

end Balloted

/-! ### Acknowledged entries -/

/-- Node `j` has acknowledged `e` to the leader that made it, or is that leader. -/
def Vouches (c : Cluster) (H : Entry → ℕ → Prop) (j : ℕ) (e : Entry) : Prop :=
  (∃ p ∈ c.net, p.msg.type = .msgAppResp ∧ p.msg.reject = false ∧ p.msg.src = j ∧
    p.msg.term = e.term ∧ p.log.Has e) ∨ ((e.term, j) ∈ c.led ∧ ∃ t, H e t)

theorem Vouches.recorded (h : Vouches c H j e) (hp : Logged c H) : ∃ t, H e t := by
  rcases h with ⟨p, hpm, -, -, -, -, he⟩ | ⟨-, he⟩
  · exact (hp.sent p hpm).recorded he
  · exact he

/-- Node `j` has been in the term of the entry. -/
theorem Vouches.term_le (h : Vouches c H j e) (hl : Led c) (hA : ∀ p ∈ c.net,
    p.msg.type = .msgAppResp → p.msg.term ≤ (c.nodes p.msg.src).term) :
    e.term ≤ (c.nodes j).term := by
  rcases h with ⟨p, hpm, ht, -, rfl, hterm, -⟩ | ⟨hled, -⟩
  · exact hterm ▸ hA p hpm ht
  · exact (hl.past _ _ hled).1

theorem Vouches.put (h : Vouches c H j e) (hHK : ∀ e t, H e t → K e t) (i : ℕ) (r : Raft) :
    Vouches (c.put i r) K j e := by
  rcases h with ⟨p, hp, hrest⟩ | ⟨hled, t, ht⟩
  · exact Or.inl ⟨p, mem_put_net_of_mem r hp, hrest⟩
  · exact Or.inr ⟨mem_put_led_of_mem i r hled, t, hHK e t ht⟩

theorem Vouches.of_advance (hl : Led c) (h : Vouches (c.put i (c.nodes i).advance) H j e) :
    Vouches c H j e := by
  rcases h with ⟨p, hp, hrest⟩ | ⟨hled, ht⟩
  · rw [put_net_advance] at hp
    exact Or.inl ⟨p, hp, hrest⟩
  · exact Or.inr ⟨hl.of_advance hled, ht⟩

/-- A new voucher is for an entry of its current term that the node has. -/
theorem Vouches.of_put (h : Vouches (c.put i r) K j e) (hg : Grown c H)
    (hu : (c.put i r).UniqueLeaders) (hid : r.id = i) (hnil : 0 < (c.nodes i).raftLog.endIndex)
    (hmake : ∀ e t, K e t → H e t ∨ (c.nodes i).Makes r e t) (he : (c.nodes i).Effect m r) :
    Vouches c H j e ∨ (j = i ∧ e.term = r.term ∧ r.raftLog.Has e) := by
  rcases h with ⟨p, hp, ht, hr, hsrc, hterm, hhas⟩ | ⟨hled, t, hK⟩
  · rcases sent_of_mem_put_net he hp with hp | ⟨hx, hlog⟩
    · exact Or.inl (Or.inl ⟨p, hp, ht, hr, hsrc, hterm, hhas⟩)
    · obtain ⟨hsrc', hterm'⟩ := hx.answering ht
      rw [hlog] at hhas
      exact Or.inr ⟨hsrc.symm.trans (hsrc'.trans hid), hterm.symm.trans hterm', hhas⟩
  · rcases hmake e t hK with hH | hmk
    · obtain ⟨j', hj'⟩ := hg.owner e t hH
      have := hu _ _ _ hled (mem_put_led_of_mem i r hj')
      exact Or.inl (Or.inr ⟨this ▸ hj', t, hH⟩)
    · have hi : (e.term, i) ∈ (c.put i r).led := by
        simp [Cluster.put, hmk.state, hmk.entry_term, hmk.term]
      exact Or.inr ⟨hu _ _ _ hled hi, hmk.entry_term.trans hmk.term.symm, hmk.has hnil⟩

theorem Inherited.le {T T' : ℕ} (h : Inherited H e T) (hle : T' ≤ T) : Inherited H e T' :=
  fun x t hx hlt hT => h x t hx hlt (hT.trans_le hle)

/-- The invariants that the ones below are built on. -/
structure Basis (S : Setup) (c : Cluster) : Prop where
  wired : Wired S c
  led : Led c
  dated : Dated c
  carried : Carried c
  whole : Whole c
  balloted : Balloted c
  voters : ∃ B, Polled S c B
  acked : ∃ A, Acked c A

theorem Basis.of_reaches (h : S.Reaches Steady c) (hu : c.UniqueLeaders) : Basis S c where
  wired := .of_reaches h
  led := .of_reaches h
  dated := .of_reaches h
  carried := .of_reaches (fun _ _ h => h.inLog) h
  whole := .of_reaches (fun _ _ h => h.noSnapshot) h
  balloted := .of_reaches (fun _ _ h => h.noSnapshot) h
  voters := Polled.of_reaches (TransitionSystem.Reach.imp h
    fun _ _ _ _ hg _ a ha => (hg a ha).1.2.1)
  acked := by
    obtain ⟨A, -, hA⟩ := Acked.of_reaches (fun _ _ h => h.2) h hu
    exact ⟨A, hA⟩

/-- What is known of the leader of term `T`: the log it was elected with, on which all its
entries stand, and the votes of a majority. A voter had on its log, when it voted, what it
had vouched for, if the leaders in between had inherited it. -/
def Elected (S : Setup) (c : Cluster) (H : Entry → ℕ → Prop) (T : ℕ) : Prop :=
  ∃ l : RaftLog, l.Full H ∧ l.lastTerm < T ∧
    (∀ x t, H x t → x.term = T → ∀ e, l.Has e → StandsOn H x e) ∧
    ∃ Q ⊆ S.ids.toFinset, S.ids.length < 2 * Q.card ∧ ∀ j ∈ Q, T ≤ (c.nodes j).term ∧
      ∀ e, Vouches c H j e → e.term < T → Inherited H e T →
        ∃ l' : RaftLog, l'.Full H ∧ l'.Has e ∧ l.UpToDate l'

/-- A node still has what it vouched for, if the leaders since then had it too; it had so
when it voted; and so had a majority of the voters of every leader. -/
structure Lineage (S : Setup) (c : Cluster) (H : Entry → ℕ → Prop) : Prop where
  held : ∀ j e, Vouches c H j e → Inherited H e ((c.nodes j).term + 1) →
    (c.nodes j).raftLog.Has e
  voted : ∀ p ∈ c.net, p.msg.type = .msgVoteResp → p.msg.reject = false → ∀ e,
    Vouches c H p.msg.src e → e.term < p.msg.term → (∀ x t, H x t → x.term ≠ p.msg.term) →
    Inherited H e p.msg.term → p.log.Has e
  elected : ∀ T i, (T, i) ∈ c.led → Elected S c H T

namespace Lineage

theorem init (S : Setup) : Lineage S S.start fun _ _ => False where
  held j e h := by
    rcases h with ⟨p, hp, -⟩ | ⟨-, t, ht⟩
    · simp [Setup.start] at hp
    · exact ht.elim
  voted p hp := by simp [Setup.start] at hp
  elected T i h := by simp [Setup.start] at h

/-- One effect, seen from the record before and after it. -/
structure Step (S : Setup) (c : Cluster) (i : ℕ) (r : Raft) (m : Option Message)
    (H K : Entry → ℕ → Prop) : Prop where
  basis : Basis S c
  grown : Grown c H
  logged : Logged c H
  after : Grown (c.put i r) K
  wired : Wired S (c.put i r)
  led : Led (c.put i r)
  dated : Dated (c.put i r)
  carried : Carried (c.put i r)
  whole : Whole (c.put i r)
  unique : (c.put i r).UniqueLeaders
  sub : ∀ e t, H e t → K e t
  make : ∀ e t, K e t → H e t ∨ (c.nodes i).Makes r e t
  source : c.Source Steady i m
  le : (c.nodes i).term ≤ r.term
  effect : (c.nodes i).Effect m r

variable (hs : Step S c i r m H K)

include hs

theorem Step.full : r.raftLog.Full K := by
  have := hs.after.full hs.whole hs.carried i
  rwa [put_nodes_self] at this

theorem Step.id : r.id = i := hs.effect.id_eq.trans (hs.basis.wired.id i)

theorem Step.back {T : ℕ} (h : Inherited K e T) : Inherited H e T :=
  h.of_mono hs.sub hs.after.unambiguous hs.logged.rooted

theorem Step.vouched (h : Vouches (c.put i r) K j e) :
    Vouches c H j e ∨ (j = i ∧ e.term = r.term ∧ r.raftLog.Has e) :=
  h.of_put hs.grown hs.unique hs.id (hs.basis.carried.nonempty i) hs.make hs.effect

section

variable (h : Lineage S c H)

include h

theorem held_step (hv : Vouches (c.put i r) K j e)
    (hinh : Inherited K e (((c.put i r).nodes j).term + 1)) :
    ((c.put i r).nodes j).raftLog.Has e := by
  have hb := hs.basis
  rcases hs.vouched hv with hold | ⟨rfl, -, hhas⟩
  · by_cases hj : j = i
    · subst hj
      rw [put_nodes_self] at hinh ⊢
      have hinh' : Inherited H e ((c.nodes j).term + 1) :=
        (hs.back hinh).le (Nat.succ_le_succ hs.le)
      have hhas := h.held j e hold hinh'
      refine hs.grown.has_change hb.led hb.dated hb.carried hb.whole hs.logged hs.source
        hs.effect.log hhas ?_
      obtain ⟨A, hA⟩ := hb.acked
      rcases Nat.eq_or_lt_of_le (hold.term_le hb.led hA.old) with heq | hlt
      · exact Or.inr ⟨e, hhas, heq, le_rfl⟩
      · exact Or.inl fun x t hx hxt => hinh' x t hx (hxt ▸ hlt) (by omega)
    · rw [put_nodes_of_ne _ _ hj] at hinh ⊢
      exact h.held j e hold (hs.back hinh)
  · rwa [put_nodes_self]

theorem voted_step {p : Packet} (hp : p ∈ (c.put i r).net)
    (ht : p.msg.type = .msgVoteResp) (hr : p.msg.reject = false)
    (hv : Vouches (c.put i r) K p.msg.src e) (hlt : e.term < p.msg.term)
    (hno : ∀ x t, K x t → x.term ≠ p.msg.term) (hinh : Inherited K e p.msg.term) :
    p.log.Has e := by
  have hno' : ∀ x t, H x t → x.term ≠ p.msg.term := fun x t hx => hno x t (hs.sub x t hx)
  have hle := hs.le
  rcases sent_of_mem_put_net hs.effect hp with hp | ⟨hx, hlog⟩
  · rcases hs.vouched hv with hold | ⟨hj, het, -⟩
    · exact h.voted p hp ht hr e hold hlt hno' (hs.back hinh)
    · -- the voter has reached the term it voted in
      have hT := (hs.basis.balloted.granted p hp ht hr).1
      rw [hj] at hT
      omega
  · obtain ⟨m', -, -, -, -, -, hkept, hsrc, -, hterm⟩ := hx.granting ht hr
    rcases hs.vouched hv with hold | ⟨-, het, -⟩
    · rw [hsrc, hs.id] at hold
      rw [hlog, hkept]
      refine h.held i e hold fun x t hx hlt' hxT => ?_
      have := hno' x t hx
      exact hs.back hinh x t hx hlt' (by omega)
    · omega

/-- What was known of an earlier leader. -/
theorem elected_old {T k : ℕ} (hled : (T, k) ∈ c.led) :
    Elected S (c.put i r) K T := by
  have hb := hs.basis
  have hle := hs.le
  obtain ⟨l, hl, hlast, hstand, Q, hQ, hcard, hq⟩ := h.elected T k hled
  refine ⟨l, hl.mono hs.sub, hlast, fun x t hKx hxT e hhas => ?_, Q, hQ, hcard, fun j hj => ?_⟩
  · rcases hs.make x t hKx with hH | hmk
    · exact (hstand x t hH hxT e hhas).mono hs.sub
    · -- a new entry of the leader stands on the one before it, which is of its term too
      have hi : (T, i) ∈ (c.put i r).led := by
        simp [Cluster.put, hmk.state, ← hxT, hmk.entry_term, hmk.term]
      have hki : k = i := hs.unique _ _ _ (mem_put_led_of_mem i r hled) hi
      subst hki
      have hT : T = (c.nodes k).term := hxT.symm.trans hmk.entry_term
      have hst := (hb.led.past T k hled).2 hT
      have hfull := hs.grown.full hb.whole hb.carried k
      have hlt := hb.carried.last k hst
      obtain ⟨y, hy, hyt, hidx⟩ :=
        hfull.exists_last (hlt ▸ hT ▸ hb.led.positive T k hled)
      obtain ⟨u, hu⟩ := hfull.recorded hy
      have hye := (hstand y u hu (hyt.trans (hlt.trans hT.symm)) e hhas).mono hs.sub
      have hxy : StandsOn K x y := by
        refine ⟨r.raftLog, hs.full, hmk.has (hb.carried.nonempty k), ⟨hy.1, ?_⟩, ?_⟩
        · rw [hmk.log, RaftLog.entry_append, if_pos hy.bounds, hy.2]
        · rw [hmk.entry_index]
          omega
      exact hxy.trans hs.after.unambiguous hye
  · obtain ⟨hT, hvouch⟩ := hq j hj
    refine ⟨le_put_term hs.le hT, fun e hv hlt hinh => ?_⟩
    rcases hs.vouched hv with hold | ⟨rfl, het, -⟩
    · obtain ⟨l', hl', he', hup⟩ := hvouch e hold hlt (hs.back hinh)
      exact ⟨l', hl'.mono hs.sub, he', hup⟩
    · omega

/-- What is known of a leader when it is elected. -/
theorem elected_new (hst : r.state = .leader) (hnew : (r.term, i) ∉ c.led)
    (hc : (c.nodes i).state = .candidate) (hq : (c.nodes i).quorum ≤ (c.nodes i).grants)
    (hterm : r.term = (c.nodes i).term) : Elected S (c.put i r) K r.term := by
  have hb := hs.basis
  have hno : ∀ x t, H x t → x.term ≠ r.term := fun x t hx heq =>
    hnew (hs.grown.led_of_record hs.unique hst hx heq)
  have hfull := hs.grown.full hb.whole hb.carried i
  have own {e : Entry} (hv : Vouches c H i e) (hinh : Inherited K e r.term) :
      (c.nodes i).raftLog.Has e := by
    refine h.held i e hv fun x t hx hlt hxT => ?_
    have := hno x t hx
    exact hs.back hinh x t hx hlt (by omega)
  obtain ⟨B, hB⟩ := hb.voters
  obtain ⟨Q, hQ, hcard, hvotes⟩ := hB.exists_voters hb.wired hc hq
  refine ⟨(c.nodes i).raftLog, hfull.mono hs.sub, ?_, fun x t hKx hxT e he => ?_, Q, hQ, hcard,
    fun j hj => ?_⟩
  · rcases Nat.eq_zero_or_pos (c.nodes i).raftLog.lastTerm with h0 | hpos
    · rw [h0, hterm]
      exact hb.led.standing i (by simp [hc])
    · obtain ⟨y, hy, hyt, -⟩ := hfull.exists_last hpos
      obtain ⟨u, hu⟩ := hfull.recorded hy
      have hle := hb.dated.log i _ y hy.2
      have hne := hno y u hu
      omega
  · rcases hs.make x t hKx with hH | hmk
    · exact absurd hxT (hno x t hH)
    · refine ⟨r.raftLog, hs.full, hmk.has (hb.carried.nonempty i), ⟨he.1, ?_⟩, ?_⟩
      · rw [hmk.log, RaftLog.entry_append, if_pos he.bounds, he.2]
      · rw [hmk.entry_index]
        exact he.bounds.le
  · rcases hB.counted i j hc (hvotes j hj) with rfl | ⟨p, hp, hpt, hr, rfl, hdst, hpterm⟩
    · refine ⟨by rw [put_nodes_self], fun e hv hlt hinh => ?_⟩
      rcases hs.vouched hv with hold | ⟨-, het, -⟩
      · exact ⟨_, hfull.mono hs.sub, own hold hinh, .refl _⟩
      · omega
    · have hpr : p.msg.term = r.term := hpterm.trans hterm.symm
      obtain ⟨hT, -, hup⟩ := hb.balloted.granted p hp hpt hr
      rw [hdst] at hup
      refine ⟨le_put_term hs.le (hpr ▸ hT), fun e hv hlt hinh => ?_⟩
      rcases hs.vouched hv with hold | ⟨-, het, -⟩
      · exact ⟨p.log, (hs.logged.sent p hp).mono hs.sub,
          h.voted p hp hpt hr e hold (by omega) (by rwa [hpr]) (by rw [hpr]; exact hs.back hinh),
          hup hc (hterm.symm.trans hpr.symm)⟩
      · omega

theorem effect : Lineage S (c.put i r) K where
  held j e := held_step hs h
  voted p hp ht hr e := voted_step hs h hp ht hr
  elected T k hled := by
    rcases mem_put_led hled with hold | ⟨hst, heq⟩
    · exact elected_old hs h hold
    · obtain ⟨rfl, rfl⟩ := Prod.mk.inj heq
      by_cases hold : (r.term, k) ∈ c.led
      · exact elected_old hs h hold
      · have fresh (hl : (c.nodes k).state = .leader) (ht : r.term = (c.nodes k).term) : False :=
          hold (ht ▸ hs.basis.led.leads k hl)
        cases hs.effect.election with
        | kept term vote state =>
          rcases state with ⟨-, hf⟩ | ⟨heq, -⟩
          · exact nomatch hf.symm.trans hst
          · exact (fresh (heq.symm.trans hst) term).elim
        | won term vote hc hq state => exact elected_new hs h hst hold hc hq term
        | counted hm ht hc term vote state => exact nomatch state.symm.trans hst
        | stood hm notLeader term vote state => exact nomatch state.symm.trans hst
        | bumped ht term vote state => exact nomatch state.symm.trans hst
        | granted hm ht hv term vote notLeader state =>
          exact (notLeader (state.symm.trans hst)).elim
        | installed hm ht notLeader hsnap term vote state => exact nomatch state.symm.trans hst

end

omit hs in
theorem advance (h : Lineage S c H) (hl : Led c) : Lineage S (c.put i (c.nodes i).advance) H where
  held j e hv hinh := by
    rw [put_advance_term] at hinh
    rw [put_advance_raftLog]
    exact h.held j e (hv.of_advance hl) hinh
  voted p hp ht hr e hv := by
    rw [put_net_advance] at hp
    exact h.voted p hp ht hr e (hv.of_advance hl)
  elected T k hk := by
    obtain ⟨l, hfull, hlast, hstand, Q, hQ, hcard, hq⟩ := h.elected T k (hl.of_advance hk)
    refine ⟨l, hfull, hlast, hstand, Q, hQ, hcard, fun j hj => ?_⟩
    rw [put_advance_term]
    exact ⟨(hq j hj).1, fun e hv => (hq j hj).2 e (hv.of_advance hl)⟩

end Lineage

/-- A majority vouches for the entry. -/
def Chosen (S : Setup) (c : Cluster) (H : Entry → ℕ → Prop) (e : Entry) : Prop :=
  ∃ Q ⊆ S.ids.toFinset, S.ids.length < 2 * Q.card ∧ ∀ j ∈ Q, Vouches c H j e

/-- Leader completeness: what is made in a later term stands on every chosen entry. -/
theorem Lineage.complete (h : Lineage S c H) (hg : Grown c H) (hl : Led c)
    (he : Chosen S c H e) : ∀ x t, H x t → e.term < x.term → StandsOn H x e := by
  obtain ⟨Q, hQ, hcard, hv⟩ := he
  have hids : S.ids.toFinset.card = S.ids.length := List.toFinset_card_of_nodup S.nodup
  have key : ∀ n x t, H x t → x.term = n → e.term < n → StandsOn H x e := by
    intro n
    induction n using Nat.strong_induction_on with
    | _ n ih =>
      rintro x t hx rfl hlt
      obtain ⟨k, hk⟩ := hg.owner x t hx
      obtain ⟨l, hfull, hlast, hstand, V, hV, hVcard, hvoters⟩ := h.elected _ k hk
      obtain ⟨j, hjQ, hjV⟩ := Majority.exists_mem_of_card hQ hV (by omega) (by omega)
      have hinh : Inherited H e x.term := fun y u hy hlt' hyT => ih y.term hyT y u hy rfl hlt'
      obtain ⟨l', hl', he', hup⟩ := (hvoters j hjV).2 e (hv j hjQ) hlt hinh
      obtain ⟨t', ht'⟩ := hl'.recorded he'
      have hhas := hg.has_of_upToDate (hg.term_pos hl ht') hfull hl' he' hup
        fun y u hy hyl hlt' => ih y.term (by omega) y u hy rfl hlt'
      exact hstand x t hx rfl e hhas
  exact fun x t hx hlt => key x.term x t hx rfl hlt

end

end Mizu
