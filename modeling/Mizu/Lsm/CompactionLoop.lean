import Mathlib.Order.WellFounded
import Mizu.Lsm.Structure

/-!
# Compactions of a version

A compaction by itself: what it reads, what its outputs are, and that reads from
the oldest snapshot on stay as they were. Then the background loop, which picks
and installs compactions until none is needed: level 0 is taken as a whole, so
after at most one such step only level 1 shrinks, one table at a time.
-/

open Multiversion

namespace Mizu.Lsm

/-- The tables finished from the pieces, whatever their file numbers. -/
def Finished (z : Sizing) (chunks : List (List Entry)) (outs : List Table) : Prop :=
  List.Forall₂ (fun c t => ∃ n, buildTable z n c = some t) chunks outs

theorem Finished.built {z : Sizing} {chunks : List (List Entry)} {outs : List Table}
    (h : Finished z chunks outs) : Built outs chunks := by
  induction h with
  | nil => exact ⟨rfl, by simp⟩
  | cons ht _ ih =>
    obtain ⟨n, ht⟩ := ht
    obtain ⟨_, _, hentries, hdesc⟩ := buildTable_spec ht
    constructor
    · rw [List.map_cons, hentries, ih.entries]
    · intro u hu
      rcases List.mem_cons.mp hu with rfl | hu
      · exact hdesc
      · exact ih.described u hu

theorem exists_finished (z : Sizing) {chunks : List (List Entry)}
    (hasc : ∀ c ∈ chunks, Ascending c) (hne : ∀ c ∈ chunks, c ≠ [])
    (hfit : ∀ c ∈ chunks, z.lastRestart c < 2 ^ 32) : ∃ outs, Finished z chunks outs := by
  induction chunks with
  | nil => exact ⟨[], .nil⟩
  | cons c chunks ih =>
    obtain ⟨outs, houts⟩ := ih (fun d hd => hasc d (List.mem_cons_of_mem _ hd))
      (fun d hd => hne d (List.mem_cons_of_mem _ hd))
      (fun d hd => hfit d (List.mem_cons_of_mem _ hd))
    obtain ⟨t, ht⟩ := @buildTable_isSome z 0 c (hasc c (by simp)) (hne c (by simp))
      (hfit c (by simp))
    exact ⟨t :: outs, .cons ⟨0, ht⟩ houts⟩

theorem Cuts.ascending_piece {chunks : List (List Entry)} (h : Cuts chunks) {c : List Entry}
    (hc : c ∈ chunks) : Ascending c :=
  (List.pairwise_flatten.mp h.ascending).1 c hc

section Picked

variable {z : Sizing} {o : CompactionOptions} {v : Version} {oldest : ℕ} {p : CompactionPlan}
  {chunks : List (List Entry)} {outs : List Table}

theorem outputBytes_pos (h : buildCompactionTables z o p = .ok chunks) : 0 < o.outputBytes := by
  unfold buildCompactionTables at h
  split at h
  · simp at h
  · omega

/-- What a picked plan writes when it succeeds. -/
theorem outputs_of_build (hv : v.Ordered) (hp : pickCompaction v oldest o = some p)
    (hb : buildCompactionTables z o p = .ok chunks) : p.Outputs chunks := by
  obtain ⟨rfl, -, hfits⟩ := CompactionPlan.fits_of_pick hv hp
  obtain ⟨chunks', hb', hout⟩ := hfits.build hv z (outputBytes_pos hb)
  rw [hb, Except.ok.injEq] at hb'
  rwa [hb']

/-- A compaction is invisible from the oldest snapshot on; its outputs are in
order, hold inputs only, and keep at most one version up to that snapshot. -/
theorem compaction_keeps_reads (hv : v.Ordered) (hp : pickCompaction v oldest o = some p)
    (hmax : oldest < maxSequenceNumber) (hb : buildCompactionTables z o p = .ok chunks)
    (hout : Finished z chunks outs) :
    (∀ key s, oldest ≤ s →
      ((v.withCompaction p.sourceLevel p.outputLevel p.inputs p.overlaps outs).get key s).toOption =
        (v.get key s).toOption) ∧
    (∀ x ∈ tableEntries outs, x ∈ tableEntries p.tables) ∧
    (∀ x ∈ tableEntries outs, ∀ y ∈ tableEntries outs, x.key.userKey = y.key.userKey →
      x.key.sequence ≤ oldest → y.key.sequence ≤ oldest → x = y) ∧
    (tableEntries outs).Pairwise (fun x y => x.key.Less y.key) ∧
    outs.Pairwise fun t u => ∀ x ∈ t.reader.entries, ∀ y ∈ u.reader.entries,
      x.key.userKey ≠ y.key.userKey := by
  have houtputs := outputs_of_build hv hp hb
  obtain ⟨rfl, rfl, hfits⟩ := CompactionPlan.fits_of_pick hv hp
  have hbuilt := hout.built
  refine ⟨?_, ?_, ?_, ?_, ?_⟩
  · intro key s hs
    exact (hfits.get_install hv houtputs hbuilt hmax hs key).symm
  · intro x hx
    exact houtputs.mem hbuilt hx
  · rw [hbuilt.tableEntries]
    intro x hx y hy hk hxs hys
    obtain ⟨stream, hasc, -, hsift⟩ := houtputs.sift
    exact hsift.eq_of_le_oldest hasc hx hy hk hxs hys
  · rw [hbuilt.tableEntries]
    apply houtputs.cuts.ascending.imp
    intro x y hlt
    exact InternalKey.less_iff.mpr hlt
  · have hapart := houtputs.cuts.apart
    rw [← hbuilt.entries, List.pairwise_map] at hapart
    apply hapart.imp
    intro t u h x hx y hy
    exact (h x hx y hy).ne

end Picked

/-- Level 0 with four tables over a level 1 that an earlier compaction made. -/
theorem exists_full_version : ∃ v : Version, v.Ordered ∧ (v.level 0).length = 4 ∧
    (v.level 1).length = 1 := by
  obtain ⟨st, hr, db, hd, h0, h1⟩ := exists_run tinyConfig (fun _ _ => True)
    (fun st => ∃ db ∈ st.db, (db.version.level 0).length = 4 ∧ (db.version.level 1).length = 1)
    (.put .async [1] [7] :: [[2], [1], [3], [2]].flatMap
      (fun k => .put .sync k [8] :: Action.flush) ++ Action.compaction ++
      [[1], [4], [1], [2]].flatMap (fun k => .put .sync k [9] :: Action.flush)) (by decide +kernel)
  obtain ⟨_, _, hrun⟩ := running_of_reach hr hd
  exact ⟨db.version, hrun.sound.keeps.ordered, h0, h1⟩

theorem exists_pick_of_full {v : Version} (h : (v.level 0).length = 4) (oldest : ℕ) :
    ∃ p, pickCompaction v oldest {} = some p := by
  simp [pickCompaction, pickInputs, h, level0CompactionTrigger]

/-- A compaction of level 0 into level 1 with the snapshot 6 held. -/
theorem compaction_keeps_reads_of_four_tables : ∃ (v : Version) (p : CompactionPlan)
    (chunks : List (List Entry)) (outs : List Table), v.Ordered ∧ (v.level 0).length = 4 ∧
      pickCompaction v 6 {} = some p ∧ buildCompactionTables tinyConfig.sizing {} p = .ok chunks ∧
      Finished tinyConfig.sizing chunks outs ∧ ∀ key s, 6 ≤ s →
        ((v.withCompaction p.sourceLevel p.outputLevel p.inputs p.overlaps outs).get key
          s).toOption = (v.get key s).toOption := by
  obtain ⟨v, hv, h0, -⟩ := exists_full_version
  obtain ⟨p, hp⟩ := exists_pick_of_full h0 6
  obtain ⟨hpv, -, hfits⟩ := CompactionPlan.fits_of_pick hv hp
  obtain ⟨chunks, hb, hout⟩ := hfits.build (hpv ▸ hv) tinyConfig.sizing
    (show 0 < ({} : CompactionOptions).outputBytes by decide)
  obtain ⟨outs, houts⟩ := exists_finished tinyConfig.sizing
    (fun c hc => hout.cuts.ascending_piece hc) hout.cuts.nonempty fun _ _ => Nat.two_pow_pos 32
  exact ⟨v, p, chunks, outs, hv, h0, hp, hb, houts,
    (compaction_keeps_reads hv hp (by decide) hb houts).1⟩

/-! ## The choice is exact -/

theorem reachesLimit_iff (ts : List Table) {n : ℕ} (hn : 0 < n) :
    reachesLimit n ts = true ↔ n ≤ (ts.map fun t => t.info.fileSize).sum := by
  induction ts generalizing n with
  | nil =>
    simp [reachesLimit]
    omega
  | cons t ts ih =>
    rw [reachesLimit, List.map_cons, List.sum_cons]
    split
    · simp
      omega
    · rw [ih (by omega)]
      omega

/-- The level is at its limit exactly when its tables add up to it. -/
theorem levelAtLimit_iff (ts : List Table) (limit : ℕ) :
    levelAtLimit ts limit = true ↔ ts ≠ [] ∧ limit ≤ (ts.map fun t => t.info.fileSize).sum := by
  cases ts with
  | nil => simp [levelAtLimit]
  | cons t ts =>
    rcases Nat.eq_zero_or_pos limit with rfl | hpos
    · simp [levelAtLimit]
    · rw [← reachesLimit_iff _ hpos]
      simp [levelAtLimit, hpos.ne']

theorem userRange_foldl_attained (ts : List Table) (r : Bytes × Bytes) :
    let r' := ts.foldl
      (fun r t =>
        (if t.smallestUser < r.1 then t.smallestUser else r.1,
          if r.2 < t.largestUser then t.largestUser else r.2)) r
    (r'.1 = r.1 ∨ ∃ t ∈ ts, t.smallestUser = r'.1) ∧
      (r'.2 = r.2 ∨ ∃ t ∈ ts, t.largestUser = r'.2) := by
  induction ts generalizing r with
  | nil => simp
  | cons t ts ih =>
    obtain ⟨hs, hl⟩ := ih
      (if t.smallestUser < r.1 then t.smallestUser else r.1,
        if r.2 < t.largestUser then t.largestUser else r.2)
    rw [List.foldl_cons]
    constructor
    · rcases hs with hs | ⟨u, hu, hk⟩
      · rw [hs]
        dsimp only
        split_ifs
        · exact Or.inr ⟨t, by simp, rfl⟩
        · exact Or.inl rfl
      · exact Or.inr ⟨u, List.mem_cons_of_mem _ hu, hk⟩
    · rcases hl with hl | ⟨u, hu, hk⟩
      · rw [hl]
        dsimp only
        split_ifs
        · exact Or.inr ⟨t, by simp, rfl⟩
        · exact Or.inl rfl
      · exact Or.inr ⟨u, List.mem_cons_of_mem _ hu, hk⟩

/-- The combined range: from the least smallest key to the greatest largest one. -/
theorem userRange_exact {ts : List Table} (hne : ts ≠ []) :
    IsLeast {k | ∃ t ∈ ts, t.smallestUser = k} (userRange ts).1 ∧
      IsGreatest {k | ∃ t ∈ ts, t.largestUser = k} (userRange ts).2 := by
  have hbound : ∀ t ∈ ts, (userRange ts).1 ≤ t.smallestUser ∧ t.largestUser ≤ (userRange ts).2 :=
    fun t ht => userRange_spec ht
  have hattained : (∃ t ∈ ts, t.smallestUser = (userRange ts).1) ∧
      ∃ t ∈ ts, t.largestUser = (userRange ts).2 := by
    cases ts with
    | nil => exact absurd rfl hne
    | cons a ts =>
      obtain ⟨hs, hl⟩ := userRange_foldl_attained ts (a.smallestUser, a.largestUser)
      constructor
      · rcases hs with hs | ⟨t, ht, hk⟩
        · exact ⟨a, by simp, hs.symm⟩
        · exact ⟨t, List.mem_cons_of_mem _ ht, hk⟩
      · rcases hl with hl | ⟨t, ht, hk⟩
        · exact ⟨a, by simp, hl.symm⟩
        · exact ⟨t, List.mem_cons_of_mem _ ht, hk⟩
  constructor
  · constructor
    · exact hattained.1
    · rintro _ ⟨t, ht, rfl⟩
      exact (hbound t ht).1
  · constructor
    · exact hattained.2
    · rintro _ ⟨t, ht, rfl⟩
      exact (hbound t ht).2

/-- A table is in the range exactly when its user keys meet the given ones. -/
theorem overlappingRange_iff {ts : List Table} (hd : ∀ t ∈ ts, t.Described) (h : Disjoint ts)
    {smallest largest : Bytes} {i : ℕ} {t : Table} (ht : ts[i]? = some t) :
    (overlappingRange ts smallest largest).start ≤ i ∧
        i < (overlappingRange ts smallest largest).stop ↔
      t.smallestUser ≤ largest ∧ smallest ≤ t.largestUser := by
  obtain ⟨hi, rfl⟩ := List.getElem?_eq_some_iff.mp ht
  constructor
  · rintro ⟨hlow, hhigh⟩
    simp only [overlappingRange] at hlow hhigh
    have hsplit := Version.splits_of_disjoint hd h smallest
    constructor
    · -- before the first table that starts beyond the range
      have hidx := @List.not_of_lt_findIdx _ (fun t : Table => decide (largest < t.smallestUser))
        (ts.drop (Search.lowerBound (fun t => decide (t.largestUser < smallest)) ts))
        (i - Search.lowerBound (fun t => decide (t.largestUser < smallest)) ts) (by omega)
      simpa [Nat.add_sub_cancel' hlow] using hidx
    · have := (Search.lowerBound_spec hsplit).2 i hlow
      rw [List.getElem?_eq_getElem hi] at this
      simpa using this
  · rintro ⟨hs, hl⟩
    constructor
    · by_contra hlt
      have hmem : ts[i] ∈ ts.take (overlappingRange ts smallest largest).start :=
        List.mem_take_iff_getElem.mpr ⟨i, by omega, rfl⟩
      exact absurd (overlappingRange_left hd h hmem) (not_lt.mpr hl)
    · by_contra hlt
      have hmem : ts[i] ∈ ts.drop (overlappingRange ts smallest largest).stop :=
        List.mem_drop_iff_getElem.mpr ⟨i - (overlappingRange ts smallest largest).stop, by omega,
          by simp [Nat.add_sub_cancel' (not_lt.mp hlt)]⟩
      exact absurd (overlappingRange_right hd h hmem) (not_lt.mpr hs)

theorem needsCompaction_iff (v : Version) (o : CompactionOptions) (oldest : ℕ) :
    needsCompaction v o = true ↔ ∃ p, pickCompaction v oldest o = some p := by
  unfold needsCompaction pickCompaction pickInputs
  by_cases h0 : (v.level 0).length ≥ level0CompactionTrigger
  · simp [h0]
  · by_cases h1 : levelAtLimit (v.level 1) o.level1Bytes
    · simp [h0, h1]
    · simp [h0, h1]

/-- What a plan for `v` takes: all of level 0, or the first table of level 1. -/
inductive Takes (v : Version) (p : CompactionPlan) : Prop
  | level0 : p.inputLevel = 0 → p.inputs = ⟨0, (v.level 0).length⟩ → p.taken = v.level 0 →
      level0CompactionTrigger ≤ (v.level 0).length → Takes v p
  | level1 (t : Table) (ts : List Table) : p.inputLevel = 1 → p.inputs = ⟨0, 1⟩ →
      v.level 1 = t :: ts → p.taken = [t] → Takes v p

theorem takes_of_pick {v : Version} {o : CompactionOptions} {oldest : ℕ} {p : CompactionPlan}
    (hp : pickCompaction v oldest o = some p) : Takes v p := by
  obtain ⟨⟨l, r⟩, hpick, hp⟩ := Option.bind_eq_some_iff.mp hp
  simp only [Option.pure_def, Option.some.injEq] at hp
  subst hp
  unfold pickInputs at hpick
  split at hpick
  · rename_i hlen
    cases hpick
    apply Takes.level0 rfl rfl _ hlen
    simp [CompactionPlan.taken, CompactionPlan.sourceLevel, IndexRange.slice]
  · split at hpick
    · rename_i hlim
      cases hpick
      obtain ⟨t, ts, hts⟩ := List.exists_cons_of_ne_nil (CompactionPlan.ne_nil_of_levelAtLimit hlim)
      apply Takes.level1 t ts rfl rfl hts
      change IndexRange.slice ⟨0, 1⟩ (v.level 1) = [t]
      simp [hts, IndexRange.slice]
    · simp at hpick

theorem Takes.ne_nil {v : Version} {p : CompactionPlan} (h : Takes v p) : p.taken ≠ [] := by
  cases h with
  | level0 _ _ htaken hlen =>
    rw [htaken]
    rintro hnil
    simp [hnil, level0CompactionTrigger] at hlen
  | level1 t ts _ _ _ htaken => simp [htaken]

theorem overlaps_of_pick {v : Version} {o : CompactionOptions} {oldest : ℕ} {p : CompactionPlan}
    (hp : pickCompaction v oldest o = some p) : p.overlaps =
      overlappingRange (v.level p.outputLevel) (userRange p.taken).1 (userRange p.taken).2 := by
  obtain ⟨⟨l, r⟩, hpick, hp⟩ := Option.bind_eq_some_iff.mp hp
  simp only [Option.pure_def, Option.some.injEq] at hp
  subst hp
  rfl

/-- A plan takes all of level 0 or the first table of level 1, and exactly the
tables of the next level that meet the user keys of these. -/
structure CompactionPlan.Exact (v : Version) (p : CompactionPlan) : Prop where
  inputs : p.inputLevel = 0 ∧ p.inputs = ⟨0, (v.level 0).length⟩ ∧ v.level 0 ≠ [] ∨
    p.inputLevel = 1 ∧ p.inputs = ⟨0, 1⟩ ∧ v.level 1 ≠ []
  range : p.overlaps.start ≤ p.overlaps.stop ∧ p.overlaps.stop ≤ (v.level p.outputLevel).length
  overlaps : ∃ smallest largest,
    IsLeast {k | ∃ t ∈ p.inputs.slice (v.level p.sourceLevel), t.smallestUser = k} smallest ∧
    IsGreatest {k | ∃ t ∈ p.inputs.slice (v.level p.sourceLevel), t.largestUser = k} largest ∧
    ∀ i t, (v.level p.outputLevel)[i]? = some t →
      (p.overlaps.start ≤ i ∧ i < p.overlaps.stop ↔
        t.smallestUser ≤ largest ∧ smallest ≤ t.largestUser)

theorem exact_of_pick {v : Version} {o : CompactionOptions} {oldest : ℕ} {p : CompactionPlan}
    (hv : v.Ordered) (hp : pickCompaction v oldest o = some p) : p.Exact v := by
  have htakes := takes_of_pick hp
  have hover := overlaps_of_pick hp
  obtain ⟨rfl, -, hfits⟩ := CompactionPlan.fits_of_pick hv hp
  constructor
  · cases htakes with
    | level0 hl hin _ hlen =>
      refine Or.inl ⟨hl, hin, ?_⟩
      rintro hnil
      simp [hnil, level0CompactionTrigger] at hlen
    | level1 t ts hl hin hts _ => exact Or.inr ⟨hl, hin, by simp [hts]⟩
  · exact hfits.overlaps
  · obtain ⟨hleast, hgreatest⟩ := userRange_exact htakes.ne_nil
    refine ⟨_, _, hleast, hgreatest, ?_⟩
    intro i t ht
    rw [hover]
    exact overlappingRange_iff (hv.described _) (hv.disjoint _ p.output_ne_zero) ht

/-! ## The loop ends -/

/-- One compaction of the loop, at any oldest snapshot. -/
def Compacts (z : Sizing) (o : CompactionOptions) (v v' : Version) : Prop :=
  ∃ oldest p chunks outs, pickCompaction v oldest o = some p ∧
    buildCompactionTables z o p = .ok chunks ∧ Finished z chunks outs ∧
      v' = v.withCompaction p.sourceLevel p.outputLevel p.inputs p.overlaps outs

section Loop

variable {z : Sizing} {o : CompactionOptions} {v v' : Version}

theorem Compacts.ordered (hv : v.Ordered) (h : Compacts z o v v') : v'.Ordered := by
  obtain ⟨oldest, p, chunks, outs, hp, hb, hout, rfl⟩ := h
  have houtputs := outputs_of_build hv hp hb
  obtain ⟨rfl, -, hfits⟩ := CompactionPlan.fits_of_pick hv hp
  exact hfits.ordered hv houtputs hout.built

/-- The number of tables in level 0, then in level 1. -/
def Version.measure (v : Version) : ℕ ×ₗ ℕ := toLex ((v.level 0).length, (v.level 1).length)

theorem Compacts.measure_lt (hv : v.Ordered) (h : Compacts z o v v') : v'.measure < v.measure := by
  obtain ⟨oldest, p, chunks, outs, hp, hb, hout, rfl⟩ := h
  obtain ⟨rfl, -, hfits⟩ := CompactionPlan.fits_of_pick hv hp
  have hsource := p.level_source outs
  rw [Version.measure, Version.measure, Prod.Lex.toLex_lt_toLex]
  cases takes_of_pick hp with
  | level0 hl hin _ hlen =>
    left
    have h0 : p.sourceLevel = 0 := by rw [CompactionPlan.sourceLevel, hl]; rfl
    rw [h0, hin] at hsource
    change ((p.install outs).level 0).length < _
    rw [hsource]
    simp only [level0CompactionTrigger] at hlen
    simp [IndexRange.erase]
    omega
  | level1 t ts hl hin hts _ =>
    right
    have h1 : p.sourceLevel = 1 := by rw [CompactionPlan.sourceLevel, hl]; rfl
    have h2 : p.outputLevel = 2 := by rw [CompactionPlan.outputLevel, hl]; rfl
    rw [h1, hin] at hsource
    constructor
    · change ((p.install outs).level 0).length = _
      rw [CompactionPlan.level_other (by rw [h1]; decide) (by rw [h2]; decide)]
    · change ((p.install outs).level 1).length < _
      rw [hsource, hts]
      simp [IndexRange.erase]

/-- A loop that installs a compaction whenever one is needed comes to its end. -/
theorem loop_ends {f : ℕ → Version} (hv : (f 0).Ordered)
    (hf : ∀ n, needsCompaction (f n) o = true → Compacts z o (f n) (f (n + 1))) :
    ∃ n, (f n).Ordered ∧ needsCompaction (f n) o = false := by
  by_contra hno
  push Not at hno
  have hall : ∀ n, (f n).Ordered := by
    intro n
    induction n with
    | zero => exact hv
    | succ n ih => exact (hf n (by simpa using hno n ih)).ordered ih
  obtain ⟨n, hn⟩ := WellFounded.not_rel_apply_succ (r := (· < ·)) fun n => (f n).measure
  exact hn ((hf n (by simpa using hno n (hall n))).measure_lt (hall n))

/-- The pieces of every compaction of `v` keep their restart offsets in 32 bits. -/
def Version.Buildable (z : Sizing) (o : CompactionOptions) (v : Version) : Prop :=
  ∀ oldest p chunks, pickCompaction v oldest o = some p → buildCompactionTables z o p = .ok chunks →
    ∀ c ∈ chunks, z.lastRestart c < 2 ^ 32

/-- The loop is never stuck: what is picked can be built. -/
theorem exists_compacts (hv : v.Ordered) (ho : 0 < o.outputBytes) (hfit : v.Buildable z o)
    (hneed : needsCompaction v o = true) : ∃ v', Compacts z o v v' := by
  obtain ⟨p, hp⟩ := (needsCompaction_iff v o 0).mp hneed
  obtain ⟨rfl, -, hfits⟩ := CompactionPlan.fits_of_pick hv hp
  obtain ⟨chunks, hb, hout⟩ := hfits.build hv z ho
  obtain ⟨outs, houts⟩ := exists_finished z (fun c hc => hout.cuts.ascending_piece hc)
    hout.cuts.nonempty (hfit 0 p chunks hp hb)
  exact ⟨_, 0, p, chunks, outs, hp, hb, houts, rfl⟩

theorem ordered_of_compactions (hv : v.Ordered) (h : Relation.ReflTransGen (Compacts z o) v v') :
    v'.Ordered := by
  induction h with
  | refl => exact hv
  | tail _ hstep ih => exact hstep.ordered ih

/-- Both decisions agree and the choice is exact. With a positive output size a loop that
picks and installs compactions comes to a version that needs none. -/
theorem compaction_loop_ends (hv : v.Ordered) :
    (∀ oldest, needsCompaction v o = true ↔ ∃ p, pickCompaction v oldest o = some p) ∧
    (∀ oldest p, pickCompaction v oldest o = some p → p.Exact v ∧
      ∀ chunks outs, buildCompactionTables z o p = .ok chunks → Finished z chunks outs →
        Disjoint (p.overlaps.replace (v.level p.outputLevel) outs)) ∧
    (∀ ts limit, levelAtLimit ts limit = true ↔
      ts ≠ [] ∧ limit ≤ (ts.map fun t => t.info.fileSize).sum) ∧
    (0 < o.outputBytes →
      (∀ f : ℕ → Version, f 0 = v →
        (∀ n, needsCompaction (f n) o = true → Compacts z o (f n) (f (n + 1))) →
          ∃ n, needsCompaction (f n) o = false) ∧
      ∀ w, Relation.ReflTransGen (Compacts z o) v w → w.Buildable z o →
        needsCompaction w o = true → ∃ w', Compacts z o w w') := by
  refine ⟨needsCompaction_iff v o, ?_, levelAtLimit_iff, fun ho => ⟨?_, ?_⟩⟩
  · intro oldest p hp
    refine ⟨exact_of_pick hv hp, ?_⟩
    intro chunks outs hb hout
    have houtputs := outputs_of_build hv hp hb
    obtain ⟨rfl, -, hfits⟩ := CompactionPlan.fits_of_pick hv hp
    exact hfits.disjoint_output hv houtputs hout.built
  · rintro f rfl hf
    obtain ⟨n, -, hn⟩ := loop_ends hv hf
    exact ⟨n, hn⟩
  · intro w hw hfit hneed
    exact exists_compacts (ordered_of_compactions hv hw) ho hfit hneed

end Loop

/-- From four tables in level 0 over one in level 1. -/
theorem compaction_loop_ends_of_four_tables : ∃ (v : Version) (p : CompactionPlan),
    v.Ordered ∧ (v.level 0).length = 4 ∧ pickCompaction v 0 {} = some p ∧ p.Exact v ∧
      (∃ w, Compacts tinyConfig.sizing {} v w) ∧
      ∀ f : ℕ → Version, f 0 = v →
        (∀ n, needsCompaction (f n) {} = true → Compacts tinyConfig.sizing {} (f n) (f (n + 1))) →
          ∃ n, needsCompaction (f n) {} = false := by
  obtain ⟨v, hv, h0, -⟩ := exists_full_version
  obtain ⟨p, hp⟩ := exists_pick_of_full h0 0
  have h := @compaction_loop_ends tinyConfig.sizing {} v hv
  obtain ⟨hloop, hstep⟩ := h.2.2.2 (by decide)
  exact ⟨v, p, hv, h0, hp, (h.2.1 0 p hp).1,
    hstep v .refl (fun _ _ _ _ _ _ _ => Nat.two_pow_pos 32) ((h.1 0).mpr ⟨p, hp⟩), hloop⟩

/-- With an output size of zero a compaction is needed and picked, and building it is
refused, so that the loop stays where it is. -/
theorem zero_output_bytes_stuck : ∃ (v : Version) (p : CompactionPlan), v.Ordered ∧
    pickCompaction v 0 { outputBytes := 0 } = some p ∧
    buildCompactionTables tinyConfig.sizing { outputBytes := 0 } p =
      .error (.invalidArgument "invalid compaction plan or options") ∧
    ∀ w, Relation.ReflTransGen (Compacts tinyConfig.sizing { outputBytes := 0 }) v w →
      needsCompaction w { outputBytes := 0 } = true := by
  obtain ⟨v, hv, h0, -⟩ := exists_full_version
  have hneed : needsCompaction v { outputBytes := 0 } = true := by
    simp [needsCompaction, h0, level0CompactionTrigger]
  obtain ⟨p, hp⟩ := (needsCompaction_iff v { outputBytes := 0 } 0).mp hneed
  refine ⟨v, p, hv, hp, by simp [buildCompactionTables], ?_⟩
  intro w hw
  rcases hw.cases_head with rfl | ⟨u, ⟨_, _, chunks, _, _, hb, _⟩, -⟩
  · exact hneed
  · exact absurd (outputBytes_pos hb) (by decide)

end Mizu.Lsm
