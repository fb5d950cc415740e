import Mizu.Lsm.Compaction

/-!
# What a compaction does to the levels

The inputs are chosen so that no user key is left on both sides of the replaced
ranges. From that follow the order of the new levels and that a read from the
oldest snapshot on cannot tell the new version from the old one.
-/

open Multiversion

namespace Mizu.Lsm

variable {r : IndexRange} {α : Type*}

theorem IndexRange.split (h : r.start ≤ r.stop) (l : List α) :
    l = l.take r.start ++ (r.slice l ++ l.drop r.stop) := by
  have hslice : l.take r.stop = l.take r.start ++ r.slice l := by
    have := List.take_append_drop r.start (l.take r.stop)
    rw [List.take_take, Nat.min_eq_left h] at this
    exact this.symm
  rw [← List.append_assoc, ← hslice, List.take_append_drop]

theorem IndexRange.slice_subset (r : IndexRange) (l : List α) : r.slice l ⊆ l := by
  intro x hx
  exact List.mem_of_mem_take (List.mem_of_mem_drop hx)

theorem IndexRange.erase_sublist (h : r.start ≤ r.stop) (l : List α) :
    (r.erase l).Sublist l := by
  conv_rhs => rw [r.split h l]
  exact (List.Sublist.refl _).append (List.sublist_append_right _ _)

/-! ## The choice of inputs -/

section UserRange

theorem userRange_foldl (ts : List Table) (r : Bytes × Bytes) :
    let r' := ts.foldl
      (fun r t =>
        (if t.smallestUser < r.1 then t.smallestUser else r.1,
          if r.2 < t.largestUser then t.largestUser else r.2)) r
    (r'.1 ≤ r.1 ∧ r.2 ≤ r'.2) ∧ ∀ t ∈ ts, r'.1 ≤ t.smallestUser ∧ t.largestUser ≤ r'.2 := by
  induction ts generalizing r with
  | nil => simp
  | cons t ts ih =>
    obtain ⟨⟨hlow, hhigh⟩, hts⟩ := ih
      (if t.smallestUser < r.1 then t.smallestUser else r.1,
        if r.2 < t.largestUser then t.largestUser else r.2)
    have hs : (if t.smallestUser < r.1 then t.smallestUser else r.1) ≤ r.1 ∧
        (if t.smallestUser < r.1 then t.smallestUser else r.1) ≤ t.smallestUser := by
      split_ifs with h
      · exact ⟨h.le, le_rfl⟩
      · exact ⟨le_rfl, not_lt.mp h⟩
    have hl : r.2 ≤ (if r.2 < t.largestUser then t.largestUser else r.2) ∧
        t.largestUser ≤ (if r.2 < t.largestUser then t.largestUser else r.2) := by
      split_ifs with h
      · exact ⟨h.le, le_rfl⟩
      · exact ⟨le_rfl, not_lt.mp h⟩
    refine ⟨⟨hlow.trans hs.1, hl.1.trans hhigh⟩, ?_⟩
    intro u hu
    rcases List.mem_cons.mp hu with rfl | hu
    · exact ⟨hlow.trans hs.2, hl.2.trans hhigh⟩
    · exact hts u hu

variable {t : Table}

theorem userRange_spec {ts : List Table} (ht : t ∈ ts) :
    (userRange ts).1 ≤ t.smallestUser ∧ t.largestUser ≤ (userRange ts).2 := by
  cases ts with
  | nil => simp at ht
  | cons a ts =>
    obtain ⟨hfirst, hrest⟩ := userRange_foldl ts (a.smallestUser, a.largestUser)
    rcases List.mem_cons.mp ht with rfl | ht
    · exact hfirst
    · exact hrest t ht

variable {ts : List Table} {smallest largest : Bytes}

section

variable (hd : ∀ t ∈ ts, t.Described) (h : Disjoint ts)

include hd h

theorem overlappingRange_le :
    (overlappingRange ts smallest largest).start ≤ (overlappingRange ts smallest largest).stop ∧
      (overlappingRange ts smallest largest).stop ≤ ts.length := by
  have hlow := Search.lowerBound_le (Version.splits_of_disjoint hd h smallest)
  have hidx : (ts.drop (Search.lowerBound (fun t => decide (t.largestUser < smallest)) ts)).findIdx
      (fun t => decide (largest < t.smallestUser)) ≤ _ := List.findIdx_le_length
  rw [List.length_drop] at hidx
  simp only [overlappingRange]
  omega

theorem overlappingRange_left
    (ht : t ∈ ts.take (overlappingRange ts smallest largest).start) : t.largestUser < smallest := by
  have := Search.of_mem_take_lowerBound (Version.splits_of_disjoint hd h smallest) ht
  simpa using this

theorem overlappingRange_right
    (ht : t ∈ ts.drop (overlappingRange ts smallest largest).stop) : largest < t.smallestUser := by
  simp only [overlappingRange] at ht
  generalize Search.lowerBound (fun t => decide (t.largestUser < smallest)) ts = n at ht
  rw [← List.drop_drop] at ht
  have hsub : (ts.drop n).Sublist ts := List.drop_sublist n ts
  have hd' : ∀ t ∈ ts.drop n, t.Described := fun t ht => hd t (hsub.subset ht)
  have h' : Disjoint (ts.drop n) := h.sublist hsub
  generalize ts.drop n = us at ht hd' h'
  induction us with
  | nil => simp at ht
  | cons u us ih =>
    obtain ⟨hu, hus⟩ := List.pairwise_cons.mp h'
    rw [List.findIdx_cons] at ht
    by_cases hlt : largest < u.smallestUser
    · simp only [hlt, decide_true, cond_true, List.drop_zero] at ht
      rcases List.mem_cons.mp ht with rfl | ht
      · exact hlt
      · have hle := (hd' u (by simp)).smallestUser_le_largestUser
        exact hlt.trans (hle.trans_lt (hu t ht))
    · simp only [hlt, decide_false, cond_false, List.drop_succ_cons] at ht
      exact ih ht (fun t ht => hd' t (List.mem_cons_of_mem _ ht)) hus

end

end UserRange

namespace CompactionPlan

variable {p : CompactionPlan} {v : Version} {o : CompactionOptions} {s : ℕ}

/-- The tables of the source level that the compaction takes. -/
def taken (p : CompactionPlan) : List Table := p.inputs.slice (p.inputVersion.level p.sourceLevel)

/-- What the ranges of a plan guarantee: no user key of the inputs is elsewhere
in their level, or in the tables of the output level that stay. -/
structure Fits (p : CompactionPlan) : Prop where
  inputs : p.inputs.start < p.inputs.stop ∧
    p.inputs.stop ≤ (p.inputVersion.level p.sourceLevel).length
  overlaps : p.overlaps.start ≤ p.overlaps.stop ∧
    p.overlaps.stop ≤ (p.inputVersion.level p.outputLevel).length
  apart : ∀ x ∈ tableEntries (p.inputs.erase (p.inputVersion.level p.sourceLevel)),
    ∀ y ∈ tableEntries p.taken, x.key.userKey ≠ y.key.userKey
  left : ∀ t ∈ (p.inputVersion.level p.outputLevel).take p.overlaps.start,
    ∀ y ∈ tableEntries p.taken, t.largestUser < y.key.userKey
  right : ∀ t ∈ (p.inputVersion.level p.outputLevel).drop p.overlaps.stop,
    ∀ y ∈ tableEntries p.taken, y.key.userKey < t.smallestUser

theorem ne_nil_of_levelAtLimit {ts : List Table} {n : ℕ} (h : levelAtLimit ts n) : ts ≠ [] := by
  rintro rfl
  simp [levelAtLimit] at h

/-- Either all of level 0 is taken, or the first table of level 1. -/
theorem pickInputs_spec (hv : v.Ordered) {l : Fin 2} (h : pickInputs v o = some (l, r)) :
    (r.start < r.stop ∧ r.stop ≤ (v.level l.castSucc).length) ∧
      ∀ x ∈ tableEntries (r.erase (v.level l.castSucc)),
        ∀ y ∈ tableEntries (r.slice (v.level l.castSucc)), x.key.userKey ≠ y.key.userKey := by
  unfold pickInputs at h
  split at h
  · rename_i hlen
    cases h
    rw [ge_iff_le, level0CompactionTrigger] at hlen
    refine ⟨⟨show 0 < (v.level 0).length by omega, le_rfl⟩, ?_⟩
    simp [IndexRange.erase]
  · split at h
    · rename_i hlim
      cases h
      have hdis : Disjoint (v.level 1) := hv.disjoint 1 (by decide)
      have hdesc := hv.described 1
      change (0 < 1 ∧ 1 ≤ (v.level 1).length) ∧
        ∀ x ∈ tableEntries (IndexRange.erase ⟨0, 1⟩ (v.level 1)),
        ∀ y ∈ tableEntries (IndexRange.slice ⟨0, 1⟩ (v.level 1)), _
      cases hts : v.level 1 with
      | nil => exact absurd hts (ne_nil_of_levelAtLimit hlim)
      | cons t ts =>
        rw [hts] at hdis hdesc
        refine ⟨⟨one_pos, by simp⟩, ?_⟩
        intro x hx y hy
        simp only [IndexRange.slice, List.take_succ_cons, List.take_zero, List.drop_zero,
          tableEntries_cons, tableEntries_nil, List.append_nil] at hy
        obtain ⟨u, hu, hxu⟩ := mem_tableEntries.mp hx
        have hty := (hdesc t (by simp)).le_largestUser hy
        have hux := (hdesc u (List.mem_cons_of_mem _ hu)).smallestUser_le hxu
        exact ((hty.trans_lt ((List.pairwise_cons.mp hdis).1 u hu)).trans_le hux).ne'
    · simp at h

theorem fits_of_pick (hv : v.Ordered) (h : pickCompaction v s o = some p) :
    p.inputVersion = v ∧ p.oldestSnapshot = s ∧ p.Fits := by
  obtain ⟨⟨l, r⟩, hpick, hp⟩ := Option.bind_eq_some_iff.mp h
  obtain ⟨hrange, hapart⟩ := pickInputs_spec hv hpick
  simp only [Option.pure_def, Option.some.injEq] at hp
  subst hp
  have hne : l.succ ≠ 0 := Fin.succ_ne_zero l
  have hdesc := hv.described l.succ
  have hdis := hv.disjoint l.succ hne
  have hspan : ∀ y ∈ tableEntries (r.slice (v.level l.castSucc)),
      (userRange (r.slice (v.level l.castSucc))).1 ≤ y.key.userKey ∧
        y.key.userKey ≤ (userRange (r.slice (v.level l.castSucc))).2 := by
    intro y hy
    obtain ⟨t, ht, hyt⟩ := mem_tableEntries.mp hy
    have htd := hv.described _ t (IndexRange.slice_subset r _ ht)
    have hr := userRange_spec ht
    exact ⟨hr.1.trans (htd.smallestUser_le hyt), (htd.le_largestUser hyt).trans hr.2⟩
  refine ⟨rfl, rfl, hrange, overlappingRange_le hdesc hdis, hapart, ?_, ?_⟩
  · intro t ht y hy
    exact (overlappingRange_left hdesc hdis ht).trans_le (hspan y hy).1
  · intro t ht y hy
    exact (hspan y hy).2.trans_lt (overlappingRange_right hdesc hdis ht)

/-! ## The merge -/

variable {x : Entry}

theorem mem_entries : x ∈ tableEntries p.tables ↔
    x ∈ tableEntries p.taken ∨
      x ∈ tableEntries (p.overlaps.slice (p.inputVersion.level p.outputLevel)) := by
  rw [tables, tableEntries_append, List.mem_append]
  rfl

theorem taken_subset (hx : x ∈ tableEntries p.taken) :
    x ∈ tableEntries (p.inputVersion.level p.sourceLevel) := by
  obtain ⟨t, ht, hxt⟩ := mem_tableEntries.mp hx
  exact mem_tableEntries.mpr ⟨t, IndexRange.slice_subset _ _ ht, hxt⟩

theorem overlapped_subset
    (hx : x ∈ tableEntries (p.overlaps.slice (p.inputVersion.level p.outputLevel))) :
    x ∈ tableEntries (p.inputVersion.level p.outputLevel) := by
  obtain ⟨t, ht, hxt⟩ := mem_tableEntries.mp hx
  exact mem_tableEntries.mpr ⟨t, IndexRange.slice_subset _ _ ht, hxt⟩

theorem source_lt_output (p : CompactionPlan) : p.sourceLevel < p.outputLevel :=
  Fin.castSucc_lt_succ

theorem output_ne_zero (p : CompactionPlan) : p.outputLevel ≠ 0 := Fin.succ_ne_zero _

/-- No internal key is in two tables of a level. -/
theorem level_distinct (hv : v.Ordered) (l : Fin 3) :
    (v.level l).Pairwise fun a b =>
      ∀ x ∈ a.reader.entries, ∀ y ∈ b.reader.entries, x.key ≠ y.key := by
  by_cases hl : l = 0
  · subst hl
    refine hv.newest.imp ?_
    intro a b hab x hx y hy heq
    have := hab x hx y hy
    rw [heq] at this
    omega
  · apply List.Pairwise.imp_of_mem _ (hv.disjoint l hl)
    intro a b ha hb hab x hx y hy heq
    have hxa := (hv.described l a ha).le_largestUser hx
    have hyb := (hv.described l b hb).smallestUser_le hy
    have hlt := (hxa.trans_lt hab).trans_le hyb
    rw [heq] at hlt
    exact lt_irrefl _ hlt

theorem eq_of_holds (hv : v.Ordered) {y : Entry} (hx : v.Holds x) (hy : v.Holds y)
    (hk : x.key = y.key) : x = y := by
  obtain ⟨l, hx⟩ := hx
  obtain ⟨m, hy⟩ := hy
  rcases lt_trichotomy l m with hlm | rfl | hlm
  · have := hv.sequence_lt hlm hx hy (by rw [hk])
    rw [hk] at this
    exact absurd this (lt_irrefl _)
  · obtain ⟨a, ha, hxa⟩ := mem_tableEntries.mp hx
    obtain ⟨b, hb, hyb⟩ := mem_tableEntries.mp hy
    by_cases hab : a = b
    · subst hab
      exact eq_of_key_eq a.reader.ascending hxa hyb hk
    · have : Std.Symm fun a b : Table =>
          ∀ x ∈ a.reader.entries, ∀ y ∈ b.reader.entries, x.key ≠ y.key := by
        constructor
        intro a b hab x hx y hy
        exact (hab y hy x hx).symm
      exact absurd hk ((level_distinct hv l).forall ha hb hab x hxa y hyb)
  · have := hv.sequence_lt hlm hy hx (by rw [hk])
    rw [hk] at this
    exact absurd this (lt_irrefl _)

theorem distinct_inputs (hv : p.inputVersion.Ordered) :
    MergingIterator.Distinct (p.tables.map fun t => t.reader.entries) := by
  unfold MergingIterator.Distinct
  rw [List.pairwise_map]
  refine List.pairwise_append.mpr ⟨?_, ?_, ?_⟩
  · exact (level_distinct hv p.sourceLevel).sublist
      ((List.drop_sublist _ _).trans (List.take_sublist _ _))
  · exact (level_distinct hv p.outputLevel).sublist
      ((List.drop_sublist _ _).trans (List.take_sublist _ _))
  · intro a ha b hb x hx y hy heq
    have hxs := taken_subset (mem_tableEntries.mpr ⟨a, ha, hx⟩)
    have hyo := overlapped_subset (mem_tableEntries.mpr ⟨b, hb, hy⟩)
    have := hv.newer _ _ p.source_lt_output _ (update_mem_contents hxs) _ (update_mem_contents hyo)
      (by simp [heq])
    simp only [Entry.update_time, heq] at this
    omega

/-- What a compaction writes: the pieces of what a pass over all inputs, in
order, keeps. -/
structure Outputs (p : CompactionPlan) (chunks : List (List Entry)) : Prop where
  cuts : Cuts chunks
  sift : ∃ stream, Ascending stream ∧ (∀ x, x ∈ stream ↔ x ∈ tableEntries p.tables) ∧
    Sift p.oldestSnapshot (BaseLevel p.inputVersion p.outputLevel) none stream chunks.flatten

/-- A plan that fits is carried out. -/
theorem Fits.build (h : p.Fits) (hv : p.inputVersion.Ordered) (z : Sizing)
    (ho : 0 < o.outputBytes) :
    ∃ chunks, buildCompactionTables z o p = .ok chunks ∧ p.Outputs chunks := by
  have hasc : ∀ c ∈ p.tables.map (fun t => t.reader.entries), Ascending c := by
    intro c hc
    obtain ⟨t, _, rfl⟩ := List.mem_map.mp hc
    exact t.reader.ascending
  obtain ⟨hmerged, hmem⟩ := MergingIterator.merged_spec hasc (distinct_inputs hv)
  obtain ⟨c, ks, hrun, hsift, hout, hsound⟩ := Collector.run_spec (z := z) (o := o) hv hmerged
    (by simp) (Collector.at_start (p := p) _)
  refine ⟨c.writer.finish, ?_, ?_⟩
  · have hne : ¬ ∃ t ∈ p.tables, t.reader.entries = [] := by
      rintro ⟨t, ht, hnil⟩
      have htd : t.Described := by
        rcases List.mem_append.mp ht with ht | ht
        · exact hv.described _ t (IndexRange.slice_subset _ _ ht)
        · exact hv.described _ t (IndexRange.slice_subset _ _ ht)
      obtain ⟨e, he, _⟩ := htd.exists_smallest
      simp [hnil] at he
    have hin := h.inputs
    have hov := h.overlaps
    rw [buildCompactionTables, if_neg (by omega), if_neg (by omega), if_neg hne]
    dsimp only
    rw [hrun]
    rfl
  · rw [OutputWriter.finish_eq]
    refine ⟨hsound.cuts, _, hmerged, ?_, ?_⟩
    · intro x
      rw [hmem, ← List.flatMap_def]
      rfl
    · rw [hout]
      simpa [OutputWriter.outputs] using hsift

end CompactionPlan

/-! ## What a pass drops -/

namespace Sift

variable {oldest : ℕ} {Base : Bytes → Prop} {previous : Option InternalKey} {es ks : List Entry}
  {x y : Entry}

section

variable (h : Sift oldest Base previous es ks)

include h

theorem sublist : ks.Sublist es := by
  induction h with
  | nil => exact List.Sublist.refl _
  | keep _ _ _ ih => exact ih.cons_cons _
  | shadowed _ _ ih => exact ih.cons _
  | tombstone _ _ _ _ ih => exact ih.cons _

/-- After a version up to the floor, no older version of its key is kept. -/
theorem not_mem_of_previous {q : InternalKey}
    (hprev : previous = some q) (hseq : q.sequence ≤ oldest) (hasc : Ascending es)
    (hq : ∀ x ∈ es, q < x.key) (hk : x.key.userKey = q.userKey) : x ∉ ks := by
  induction h generalizing q with
  | nil => simp
  | @keep previous e es ks hkeep _ hs ih =>
    obtain ⟨he, hes⟩ := List.pairwise_cons.mp hasc
    intro hx
    have hne : q.userKey ≠ e.key.userKey := by
      intro heq
      have := hkeep q hprev heq
      omega
    have hlt : q.userKey < e.key.userKey :=
      (InternalKey.userKey_le (hq e (by simp)).le).lt_of_ne hne
    rcases List.mem_cons.mp hx with rfl | hx
    · exact hne hk.symm
    · have hle := InternalKey.userKey_le (he x (hs.sublist.subset hx)).le
      exact absurd hk (hlt.trans_le hle).ne'
  | @shadowed previous e es ks _ hs ih | @tombstone previous e es ks _ _ _ hs ih =>
    obtain ⟨he, hes⟩ := List.pairwise_cons.mp hasc
    intro hx
    have hqe := hq e (by simp)
    have hex := he x (hs.sublist.subset hx)
    -- `e` is between `q` and a version of the same key, so it is one too, and older
    have hek : e.key.userKey = q.userKey := by
      apply le_antisymm
      · rw [← hk]
        exact InternalKey.userKey_le hex.le
      · exact InternalKey.userKey_le hqe.le
    have hes' : e.key.sequence ≤ oldest := by
      rcases InternalKey.lt_iff.mp hqe with h | ⟨_, h⟩
      · exact absurd hek h.ne'
      · rw [InternalKey.tag_lt_iff] at h
        omega
    exact ih rfl hes' hes he (by rw [hk, hek]) hx

/-- At most one version of a key up to the floor is kept. -/
theorem eq_of_le_oldest (hasc : Ascending es) (hx : x ∈ ks)
    (hy : y ∈ ks) (hk : x.key.userKey = y.key.userKey) (hxs : x.key.sequence ≤ oldest)
    (hys : y.key.sequence ≤ oldest) : x = y := by
  induction h with
  | nil => simp at hx
  | @keep previous e es ks _ _ hs ih =>
    obtain ⟨he, hes⟩ := List.pairwise_cons.mp hasc
    rcases List.mem_cons.mp hx with rfl | hx' <;> rcases List.mem_cons.mp hy with rfl | hy'
    · rfl
    · exact absurd hy' (hs.not_mem_of_previous rfl hxs hes he hk.symm)
    · exact absurd hx' (hs.not_mem_of_previous rfl hys hes he hk)
    · exact ih hes hx' hy'
  | shadowed _ _ ih => exact ih (List.pairwise_cons.mp hasc).2 hx hy
  | tombstone _ _ _ _ ih => exact ih (List.pairwise_cons.mp hasc).2 hx hy

/-- With the largest sequence as its floor a pass keeps nothing. -/
theorem eq_nil (hmax : maxSequenceNumber ≤ oldest)
    (hprev : ∀ q, previous = some q → q.sequence ≤ oldest)
    (hes : ∀ x ∈ es, x.key.sequence ≤ oldest) : ks = [] := by
  induction h with
  | nil => rfl
  | keep hlt hsome =>
    obtain ⟨q, hq, hk⟩ := hsome.resolve_left (not_lt.mpr hmax)
    exact absurd (hlt q hq hk) (not_lt.mpr (hprev q hq))
  | @shadowed _ e _ _ _ _ ih | @tombstone _ e _ _ _ _ _ _ ih =>
    refine ih ?_ fun x hx => hes x (List.mem_cons_of_mem _ hx)
    rintro q ⟨⟩
    exact hes e List.mem_cons_self

end

/-- A version up to the floor comes before `x`: the one the pass starts after, or
one it meets. -/
def Hidden (oldest : ℕ) (previous : Option InternalKey) (es : List Entry) (x : Entry) : Prop :=
  ∃ q, (previous = some q ∨ ∃ y ∈ es, y.key = q) ∧ q.userKey = x.key.userKey ∧
    q.sequence ≤ oldest ∧ q < x.key

theorem Hidden.cons {e : Entry} (h : Hidden oldest (some e.key) es x) :
    Hidden oldest previous (e :: es) x := by
  obtain ⟨q, hq, hrest⟩ := h
  refine ⟨q, Or.inr ?_, hrest⟩
  rcases hq with hq | ⟨y, hy, hyq⟩
  · exact ⟨e, by simp, Option.some.inj hq⟩
  · exact ⟨y, List.mem_cons_of_mem _ hy, hyq⟩

/-- Why an entry is missing: a newer version up to the floor hides it, or it is a
deletion with nothing older left. -/
theorem dropped (h : Sift oldest Base previous es ks) (hasc : Ascending es)
    (hfloor : oldest < maxSequenceNumber) (hprev : ∀ q, previous = some q → ∀ x ∈ es, q < x.key)
    (hx : x ∈ es) (hnot : x ∉ ks) :
    Hidden oldest previous es x ∨ (x.key.type = .deletion ∧ Base x.key.userKey ∧
      ∀ y ∈ ks, y.key.userKey = x.key.userKey → y.key < x.key) := by
  induction h with
  | nil => simp at hx
  | @keep previous e es ks _ _ hs ih =>
    obtain ⟨he, hes⟩ := List.pairwise_cons.mp hasc
    rw [List.mem_cons, not_or] at hnot
    have hx' : x ∈ es := (List.mem_cons.mp hx).resolve_left hnot.1
    rcases ih hes (by simpa using he) hx' hnot.2 with hh | ⟨ht, hb, hold⟩
    · exact Or.inl hh.cons
    · refine Or.inr ⟨ht, hb, ?_⟩
      intro y hy hk
      rcases List.mem_cons.mp hy with rfl | hy
      · exact he x hx'
      · exact hold y hy hk
  | @shadowed previous e es ks hs _ ih =>
    obtain ⟨he, hes⟩ := List.pairwise_cons.mp hasc
    rcases List.mem_cons.mp hx with rfl | hx'
    · rcases hs with ⟨q, hq, hk, hseq⟩ | hmax
      · exact Or.inl ⟨q, Or.inl hq, hk, hseq, hprev q hq x (by simp)⟩
      · omega
    · exact (ih hes (by simpa using he) hx' hnot).imp_left Hidden.cons
  | @tombstone previous e es ks ht hle hb hs ih =>
    obtain ⟨he, hes⟩ := List.pairwise_cons.mp hasc
    rcases List.mem_cons.mp hx with rfl | hx'
    · refine Or.inr ⟨ht, hb, ?_⟩
      intro y hy hk
      exact absurd hy (hs.not_mem_of_previous rfl hle hes he hk)
    · exact (ih hes (by simpa using he) hx' hnot).imp_left Hidden.cons

end Sift

/-! ## The new version -/

/-- Tables that were built from the given pieces. -/
structure Built (outs : List Table) (chunks : List (List Entry)) : Prop where
  entries : outs.map (fun t => t.reader.entries) = chunks
  described : ∀ t ∈ outs, t.Described

theorem Built.tableEntries {outs : List Table} {chunks : List (List Entry)}
    (h : Built outs chunks) : tableEntries outs = chunks.flatten := by
  rw [← h.entries, ← List.flatMap_def]
  rfl

theorem Built.disjoint {outs : List Table} {chunks : List (List Entry)} (h : Built outs chunks)
    (hc : Cuts chunks) : Disjoint outs := by
  have happart := hc.apart
  rw [← h.entries, List.pairwise_map] at happart
  apply List.Pairwise.imp_of_mem _ happart
  intro a b ha hb hab
  obtain ⟨x, hx, hxk⟩ := (h.described a ha).exists_largest
  obtain ⟨y, hy, hyk⟩ := (h.described b hb).exists_smallest
  have := hab x hx y hy
  rwa [hxk, hyk] at this

namespace CompactionPlan

variable {p : CompactionPlan} {outs : List Table} {chunks : List (List Entry)} {x : Entry}

/-- The version a compaction publishes. -/
def install (p : CompactionPlan) (outs : List Table) : Version :=
  p.inputVersion.withCompaction p.sourceLevel p.outputLevel p.inputs p.overlaps outs

theorem level_source (p : CompactionPlan) (outs : List Table) :
    (p.install outs).level p.sourceLevel =
      p.inputs.erase (p.inputVersion.level p.sourceLevel) := by
  simp [install, Version.withCompaction, p.source_lt_output.ne]

theorem level_output (p : CompactionPlan) (outs : List Table) :
    (p.install outs).level p.outputLevel =
      p.overlaps.replace (p.inputVersion.level p.outputLevel) outs := by
  simp [install, Version.withCompaction]

variable {l : Fin 3}

theorem level_other (hs : l ≠ p.sourceLevel) (ho : l ≠ p.outputLevel) :
    (p.install outs).level l = p.inputVersion.level l := by
  simp [install, Version.withCompaction, hs, ho]

/-- A level below the output level is below the source, or the source itself. -/
theorem le_source_of_lt_output (h : l < p.outputLevel) : l ≤ p.sourceLevel :=
  Fin.le_castSucc_iff.mpr h

theorem Outputs.mem (ho : p.Outputs chunks) (hb : Built outs chunks) (hx : x ∈ tableEntries outs) :
    x ∈ tableEntries p.tables := by
  obtain ⟨stream, _, hmem, hsift⟩ := ho.sift
  rw [hb.tableEntries] at hx
  exact (hmem x).mp (hsift.sublist.subset hx)

/-- Nothing new: what the version holds it held before, in the same level or, for
the outputs, possibly in the source level. -/
theorem Fits.mem_install (hf : p.Fits) (ho : p.Outputs chunks) (hb : Built outs chunks)
    (hx : x ∈ tableEntries ((p.install outs).level l)) :
    x ∈ tableEntries (p.inputVersion.level l) ∨
      l = p.outputLevel ∧ x ∈ tableEntries p.taken := by
  by_cases hs : l = p.sourceLevel
  · subst hs
    rw [level_source] at hx
    obtain ⟨t, ht, hxt⟩ := mem_tableEntries.mp hx
    have hsub := IndexRange.erase_sublist hf.inputs.1.le (p.inputVersion.level p.sourceLevel)
    exact Or.inl (mem_tableEntries.mpr ⟨t, hsub.subset ht, hxt⟩)
  · by_cases hl : l = p.outputLevel
    · subst hl
      rw [level_output, IndexRange.replace, tableEntries_append, tableEntries_append,
        List.mem_append, List.mem_append] at hx
      rcases hx with (hx | hx) | hx
      · obtain ⟨t, ht, hxt⟩ := mem_tableEntries.mp hx
        exact Or.inl (mem_tableEntries.mpr ⟨t, List.mem_of_mem_take ht, hxt⟩)
      · rcases mem_entries.mp (ho.mem hb hx) with hx | hx
        · exact Or.inr ⟨rfl, hx⟩
        · exact Or.inl (overlapped_subset hx)
      · obtain ⟨t, ht, hxt⟩ := mem_tableEntries.mp hx
        exact Or.inl (mem_tableEntries.mpr ⟨t, List.mem_of_mem_drop ht, hxt⟩)
    · rw [level_other hs hl] at hx
      exact Or.inl hx

theorem Fits.updates_subset (hf : p.Fits) (ho : p.Outputs chunks) (hb : Built outs chunks) :
    (p.install outs).updates ⊆ p.inputVersion.updates := by
  rintro _ ⟨l, x, hx, rfl⟩
  rcases hf.mem_install ho hb hx with hx | ⟨_, hx⟩
  · exact ⟨l, x, hx, rfl⟩
  · exact ⟨p.sourceLevel, x, taken_subset hx, rfl⟩

section

variable (hf : p.Fits) (hv : p.inputVersion.Ordered)

include hf hv

/-- The tables of the output level that stay are beside every input. -/
theorem Fits.beside (hx : x ∈ tableEntries p.tables) :
    (∀ t ∈ (p.inputVersion.level p.outputLevel).take p.overlaps.start,
        t.largestUser < x.key.userKey) ∧
      ∀ t ∈ (p.inputVersion.level p.outputLevel).drop p.overlaps.stop,
        x.key.userKey < t.smallestUser := by
  rcases mem_entries.mp hx with hx | hx
  · exact ⟨fun t ht => hf.left t ht x hx, fun t ht => hf.right t ht x hx⟩
  · obtain ⟨u, hu, hxu⟩ := mem_tableEntries.mp hx
    have hud := hv.described _ u (IndexRange.slice_subset _ _ hu)
    have hdis := hv.disjoint _ p.output_ne_zero
    rw [IndexRange.split hf.overlaps.1 (p.inputVersion.level p.outputLevel)] at hdis
    obtain ⟨_, hmid, hleft⟩ := List.pairwise_append.mp hdis
    obtain ⟨_, _, hright⟩ := List.pairwise_append.mp hmid
    constructor
    · intro t ht
      exact (hleft t ht u (List.mem_append_left _ hu)).trans_le (hud.smallestUser_le hxu)
    · intro t ht
      exact (hud.le_largestUser hxu).trans_lt (hright u hu t ht)

theorem Fits.disjoint_output (ho : p.Outputs chunks)
    (hb : Built outs chunks) :
    Disjoint (p.overlaps.replace (p.inputVersion.level p.outputLevel) outs) := by
  have hdis := hv.disjoint _ p.output_ne_zero
  rw [IndexRange.split hf.overlaps.1 (p.inputVersion.level p.outputLevel)] at hdis
  obtain ⟨hl, hmid, hleft⟩ := List.pairwise_append.mp hdis
  obtain ⟨_, hr, _⟩ := List.pairwise_append.mp hmid
  rw [IndexRange.replace, List.append_assoc]
  refine List.pairwise_append.mpr ⟨hl, List.pairwise_append.mpr ⟨hb.disjoint ho.cuts, hr, ?_⟩, ?_⟩
  · intro a ha b hb'
    obtain ⟨x, hx, hxk⟩ := (hb.described a ha).exists_largest
    have hmem := ho.mem hb (mem_tableEntries.mpr ⟨a, ha, hx⟩)
    have := (hf.beside hv hmem).2 b hb'
    rwa [hxk] at this
  · intro a ha b hb'
    rcases List.mem_append.mp hb' with hb' | hb'
    · obtain ⟨x, hx, hxk⟩ := (hb.described b hb').exists_smallest
      have hmem := ho.mem hb (mem_tableEntries.mpr ⟨b, hb', hx⟩)
      have := (hf.beside hv hmem).1 a ha
      rwa [hxk] at this
    · exact hleft a ha b (List.mem_append_right _ hb')

/-- A compaction keeps the order of the levels. -/
theorem Fits.ordered (ho : p.Outputs chunks)
    (hb : Built outs chunks) : (p.install outs).Ordered := by
  have hsub := IndexRange.erase_sublist hf.inputs.1.le (p.inputVersion.level p.sourceLevel)
  refine ⟨?_, ?_, ?_, ?_⟩
  · intro l t ht
    by_cases hs : l = p.sourceLevel
    · subst hs
      rw [level_source] at ht
      exact hv.described _ t (hsub.subset ht)
    · by_cases hl : l = p.outputLevel
      · subst hl
        rw [level_output, IndexRange.replace, List.mem_append, List.mem_append] at ht
        rcases ht with (ht | ht) | ht
        · exact hv.described _ t (List.mem_of_mem_take ht)
        · exact hb.described t ht
        · exact hv.described _ t (List.mem_of_mem_drop ht)
      · rw [level_other hs hl] at ht
        exact hv.described l t ht
  · by_cases hs : 0 = p.sourceLevel
    · rw [hs, level_source]
      rw [← hs] at hsub ⊢
      exact hv.newest.sublist hsub
    · rw [level_other hs p.output_ne_zero.symm]
      exact hv.newest
  · intro l hl
    by_cases hs : l = p.sourceLevel
    · subst hs
      rw [level_source]
      exact (hv.disjoint _ hl).sublist hsub
    · by_cases hout : l = p.outputLevel
      · subst hout
        rw [level_output]
        exact hf.disjoint_output hv ho hb
      · rw [level_other hs hout]
        exact hv.disjoint l hl
  · rintro l m hlm _ ⟨x, hx, rfl⟩ _ ⟨y, hy, rfl⟩ hk
    have horig : ∀ l m x y, l < m → x ∈ tableEntries (p.inputVersion.level l) →
        y ∈ tableEntries (p.inputVersion.level m) → x.key.userKey = y.key.userKey →
        y.key.sequence < x.key.sequence := by
      intro l m x y hlm hx hy hk
      exact hv.newer l m hlm _ (update_mem_contents hx) _ (update_mem_contents hy) hk
    rcases hf.mem_install ho hb hy with hy' | ⟨rfl, hy'⟩
    · rcases hf.mem_install ho hb hx with hx' | ⟨rfl, hx'⟩
      · exact horig l m x y hlm hx' hy' hk
      · exact horig _ m x y (p.source_lt_output.trans hlm) (taken_subset hx') hy' hk
    · -- `y` moved down from the source level, where nothing with its key is left
      rcases (le_source_of_lt_output hlm).lt_or_eq with hlt | heq
      · have hx' : x ∈ tableEntries (p.inputVersion.level l) := by
          rwa [level_other hlt.ne hlm.ne] at hx
        exact horig l _ x y hlt hx' (taken_subset hy') hk
      · subst heq
        rw [level_source] at hx
        exact absurd hk (hf.apart x hx y hy')

end

/-- What was not an input stays where it is. -/
theorem Fits.mem_install_of_kept (hf : p.Fits)
    (hx : x ∈ tableEntries (p.inputVersion.level l)) (hnot : x ∉ tableEntries p.tables) :
    x ∈ tableEntries ((p.install outs).level l) := by
  rw [mem_entries, not_or] at hnot
  by_cases hs : l = p.sourceLevel
  · subst hs
    rw [level_source, IndexRange.erase, tableEntries_append]
    rw [IndexRange.split hf.inputs.1.le (p.inputVersion.level p.sourceLevel),
      tableEntries_append, tableEntries_append] at hx
    rcases List.mem_append.mp hx with hx | hx
    · exact List.mem_append_left _ hx
    · exact List.mem_append_right _ ((List.mem_append.mp hx).resolve_left hnot.1)
  · by_cases hl : l = p.outputLevel
    · subst hl
      rw [level_output, IndexRange.replace, tableEntries_append, tableEntries_append]
      rw [IndexRange.split hf.overlaps.1 (p.inputVersion.level p.outputLevel),
        tableEntries_append, tableEntries_append] at hx
      rcases List.mem_append.mp hx with hx | hx
      · exact List.mem_append_left _ (List.mem_append_left _ hx)
      · exact List.mem_append_right _ ((List.mem_append.mp hx).resolve_left hnot.2)
    · rwa [level_other hs hl]

theorem mem_install_of_output (hx : x ∈ tableEntries outs) :
    x ∈ tableEntries ((p.install outs).level p.outputLevel) := by
  rw [level_output, IndexRange.replace, tableEntries_append, tableEntries_append]
  exact List.mem_append_left _ (List.mem_append_right _ hx)

theorem holds_of_input (hx : x ∈ tableEntries p.tables) : p.inputVersion.Holds x := by
  rcases mem_entries.mp hx with hx | hx
  · exact ⟨_, taken_subset hx⟩
  · exact ⟨_, overlapped_subset hx⟩

/-- Where the new version can hold the user key of an input that no deeper level
spans: in the outputs, or above with a newer sequence. -/
theorem Fits.output_or_newer (hf : p.Fits) (hv : p.inputVersion.Ordered)
    (hx : x ∈ tableEntries p.tables) (hbase : BaseLevel p.inputVersion p.outputLevel x.key.userKey)
    {y : Entry} (hy : (p.install outs).Holds y) (hk : y.key.userKey = x.key.userKey) :
    y ∈ tableEntries outs ∨ x.key.sequence < y.key.sequence := by
  obtain ⟨m, hy⟩ := hy
  have hbeside := hf.beside hv hx
  by_cases hm : m = p.outputLevel
  · subst hm
    rw [level_output, IndexRange.replace, tableEntries_append, tableEntries_append,
      List.mem_append, List.mem_append] at hy
    rcases hy with (hy | hy) | hy
    · obtain ⟨t, ht, hyt⟩ := mem_tableEntries.mp hy
      have htd := hv.described _ t (List.mem_of_mem_take ht)
      exact absurd hk (((htd.le_largestUser hyt).trans_lt (hbeside.1 t ht)).ne)
    · exact Or.inl hy
    · obtain ⟨t, ht, hyt⟩ := mem_tableEntries.mp hy
      have htd := hv.described _ t (List.mem_of_mem_drop ht)
      exact absurd hk (((hbeside.2 t ht).trans_le (htd.smallestUser_le hyt)).ne')
  · rcases lt_or_gt_of_ne hm with hlt | hgt
    · right
      rcases (le_source_of_lt_output hlt).lt_or_eq with hlt' | heq
      · -- above the source level: newer than both inputs
        rw [level_other hlt'.ne hm] at hy
        rcases mem_entries.mp hx with hx' | hx'
        · exact hv.sequence_lt hlt' hy (taken_subset hx') hk
        · exact hv.sequence_lt hlt hy (overlapped_subset hx') hk
      · subst heq
        rw [level_source] at hy
        rcases mem_entries.mp hx with hx' | hx'
        · exact absurd hk (hf.apart y hy x hx')
        · obtain ⟨t, ht, hyt⟩ := mem_tableEntries.mp hy
          have hsub := IndexRange.erase_sublist hf.inputs.1.le (p.inputVersion.level p.sourceLevel)
          have hy' := mem_tableEntries.mpr ⟨t, hsub.subset ht, hyt⟩
          exact hv.sequence_lt p.source_lt_output hy' (overlapped_subset hx') hk
    · rw [level_other (p.source_lt_output.trans hgt).ne' hm] at hy
      obtain ⟨t, ht, hyt⟩ := mem_tableEntries.mp hy
      have htd := hv.described _ t ht
      have hspan := hbase m hgt t ht
      rw [← hk] at hspan
      exact absurd ⟨htd.smallestUser_le hyt, htd.le_largestUser hyt⟩ hspan

section

variable (hf : p.Fits) (hv : p.inputVersion.Ordered) (ho : p.Outputs chunks)
  (hb : Built outs chunks)

include hf hv ho hb

/-- Why an entry is gone after a compaction: a newer version up to the oldest
snapshot hides it, or it is a deletion with nothing older left. -/
theorem Fits.missing (hfloor : p.oldestSnapshot < maxSequenceNumber)
    (hx : p.inputVersion.Holds x) (hnot : ¬ (p.install outs).Holds x) :
    (∃ y, p.inputVersion.Holds y ∧ y.key.userKey = x.key.userKey ∧
        y.key.sequence ≤ p.oldestSnapshot ∧ y.key < x.key) ∨
      (x.key.type = .deletion ∧
        ∀ y, (p.install outs).Holds y → y.key.userKey = x.key.userKey → y.key < x.key) := by
  obtain ⟨stream, hasc, hmem, hsift⟩ := ho.sift
  obtain ⟨l, hx⟩ := hx
  have hin : x ∈ tableEntries p.tables := by
    by_contra hkeep
    exact hnot ⟨l, hf.mem_install_of_kept hx hkeep⟩
  have hout : x ∉ chunks.flatten := by
    rw [← hb.tableEntries]
    intro hout
    exact hnot ⟨_, mem_install_of_output hout⟩
  rcases hsift.dropped hasc hfloor (by simp) ((hmem x).mpr hin) hout with
    ⟨q, hq, hk, hseq, hlt⟩ | ⟨hdel, hbase, hold⟩
  · obtain ⟨y, hy, rfl⟩ := hq.resolve_left (by simp)
    exact Or.inl ⟨y, holds_of_input ((hmem y).mp hy), hk, hseq, hlt⟩
  · refine Or.inr ⟨hdel, ?_⟩
    intro y hy hk
    rcases hf.output_or_newer hv hin hbase hy hk with hy' | hlt
    · rw [hb.tableEntries] at hy'
      exact hold y hy' hk
    · exact InternalKey.lt_of_sequence_lt hk hlt

/-- What a compaction drops, no snapshot from the oldest on can see. -/
theorem Fits.collects (hst : Stamped p.inputVersion.updates)
    (hfloor : p.oldestSnapshot < maxSequenceNumber) :
    Collects p.oldestSnapshot p.inputVersion.updates (p.install outs).updates := by
  refine ⟨hf.updates_subset ho hb, ?_⟩
  rintro _ ⟨l, x, hx, rfl⟩ hnot
  have hx_old : x.update ∈ p.inputVersion.updates := ⟨l, x, hx, rfl⟩
  have hgone : ¬ (p.install outs).Holds x := by
    rintro ⟨m, hm⟩
    exact hnot ⟨m, x, hm, rfl⟩
  rcases hf.missing hv ho hb hfloor ⟨l, hx⟩ hgone with ⟨y, ⟨m, hy⟩, hk, hseq, hlt⟩ | ⟨hdel, hold⟩
  · left
    have hy_old : y.update ∈ p.inputVersion.updates := ⟨m, y, hy, rfl⟩
    refine ⟨y.update, hy_old, hk, ?_, hseq⟩
    rcases (InternalKey.sequence_le hk hlt.le).lt_or_eq with h | heq
    · exact h
    · -- two updates of one key at one time are the same, so the types agree
      have hupd := hst _ hy_old _ hx_old hk heq.symm
      have hval : y.update.value = x.update.value := by rw [hupd]
      have hne := hlt.ne
      revert hval hne
      simp only [Entry.update, ne_eq, InternalKey.ext_iff, hk, heq.symm, true_and]
      cases y.key.type <;> cases x.key.type <;> simp
  · right
    refine ⟨by simp [Entry.update, hdel], ?_⟩
    rintro _ ⟨m, y, hy, rfl⟩ hk
    exact InternalKey.sequence_le hk (hold y ⟨m, hy⟩ hk).le

/-- A read from the oldest snapshot on cannot tell the new version from the old
one. -/
theorem Fits.get_install (hfloor : p.oldestSnapshot < maxSequenceNumber) {s : ℕ}
    (hs : p.oldestSnapshot ≤ s) (key : Bytes) :
    (p.inputVersion.get key s).toOption = ((p.install outs).get key s).toOption := by
  apply Finds.collected _ _ (fun x => hf.missing hv ho hb hfloor) hs (hv.get_finds key s)
    ((hf.ordered hv ho hb).get_finds key s)
  · rintro x ⟨l, hx⟩
    rcases hf.mem_install ho hb hx with hx | ⟨_, hx⟩
    · exact ⟨l, hx⟩
    · exact ⟨_, taken_subset hx⟩
  · intro x y hx hy
    exact eq_of_holds hv hx hy

end

end CompactionPlan

end Mizu.Lsm
