import Mizu.Lsm.Invariant

/-!
# The database iterator

`DBIterator` merges the memtables and tables it pinned when it was created and
shows, for each user key, the newest version up to its sequence unless that is a
deletion. The search for the next user entry is a loop; other threads may write
between its rounds, so one round is one step here. The pinned memtable grows as
long as it is the one that writes go to.
-/

open Multiversion

namespace Mizu.Lsm

structure DBIterator where
  memtable : MemTable
  /-- Whether the pinned memtable still takes the writes. -/
  attached : Bool := true
  /-- The immutable memtable and the tables. -/
  layers : List (List Entry)
  visibleSequence : ℕ
  heads : Heads := []
  skipKey : Bytes := []
  valid : Bool := false
  /-- Inside `findNextUserEntry`, with its flag `skipping`. -/
  searching : Option Bool := none

namespace DBIterator

/-- The children of the merging iterator. -/
def sources (it : DBIterator) : List (List Entry) := it.memtable.run.entries :: it.layers

/-- `DBImpl::newIterator` -/
def create (db : DB) (visibleSequence : ℕ) : DBIterator where
  memtable := db.memtable
  layers := (db.immutable.map fun i => i.memtable.run.entries).toList ++
    (db.version.level 0 ++ (db.version.level 1 ++ db.version.level 2)).map
      fun t => t.reader.entries
  visibleSequence := visibleSequence

def seekToFirst (it : DBIterator) : Option DBIterator :=
  if it.searching.isSome then none
  else some { it with
    valid := false
    skipKey := []
    heads := MergingIterator.seekToFirst it.sources
    searching := some false }

def seek (it : DBIterator) (target : Bytes) : Option DBIterator :=
  if it.searching.isSome then none
  else some { it with
    valid := false
    skipKey := []
    heads := MergingIterator.seek it.sources (lookupKey target it.visibleSequence)
    searching := some false }

/-- `next`; an assertion excludes an invalid iterator. -/
def next (it : DBIterator) : Option DBIterator :=
  match it.searching, it.valid, MergingIterator.top it.heads with
  | none, true, some (_, e) =>
    some { it with
      skipKey := e.key.userKey
      valid := false
      heads := MergingIterator.next it.sources it.heads
      searching := some true }
  | _, _, _ => none

/-- One round of the loop of `findNextUserEntry`. -/
def advance (it : DBIterator) : Option DBIterator :=
  match it.searching with
  | none => none
  | some skipping =>
    match MergingIterator.top it.heads with
    | none => some { it with valid := false, skipKey := [], searching := none }
    | some (_, e) =>
      let moved := MergingIterator.next it.sources it.heads
      if skipping ∧ e.key.userKey = it.skipKey then some { it with heads := moved }
      else
        let skipKey := if skipping then [] else it.skipKey
        if e.key.sequence > it.visibleSequence then
          some { it with skipKey := skipKey, heads := moved, searching := some false }
        else
          match e.key.type with
          | .deletion =>
            some { it with skipKey := e.key.userKey, heads := moved, searching := some true }
          | .value => some { it with skipKey := skipKey, valid := true, searching := none }

theorem advance_isSome (it : DBIterator) (h : it.searching.isSome) : it.advance.isSome := by
  obtain ⟨skipping, hs⟩ := Option.isSome_iff_exists.mp h
  unfold advance
  simp only [hs]
  split
  · rfl
  · rename_i e _
    cases e.key.type <;> split_ifs <;> rfl

/-- `key` and `value` of a valid iterator. -/
def current (it : DBIterator) : Option (Bytes × Bytes) :=
  if it.valid then
    (MergingIterator.top it.heads).map fun p => (p.2.key.userKey, p.2.value)
  else none

/-- The pinned memtable after a step of the database from `db` to `db'`; a new log
means that another memtable takes the writes now. -/
def follow (it : DBIterator) (db db' : DB) : DBIterator :=
  if it.attached then
    if db'.walNumber = db.walNumber then { it with memtable := db'.memtable }
    else { it with attached := false }
  else it

/-- What the iterator's own operations leave alone. -/
structure SameSources (it it' : DBIterator) : Prop where
  memtable : it'.memtable = it.memtable
  attached : it'.attached = it.attached
  layers : it'.layers = it.layers
  visible : it'.visibleSequence = it.visibleSequence

variable {it it' : DBIterator}

theorem seekToFirst_same (h : it.seekToFirst = some it') : SameSources it it' := by
  unfold seekToFirst at h
  split at h
  · simp at h
  · cases h
    exact ⟨rfl, rfl, rfl, rfl⟩

theorem seek_same {target : Bytes} (h : it.seek target = some it') : SameSources it it' := by
  unfold seek at h
  split at h
  · simp at h
  · cases h
    exact ⟨rfl, rfl, rfl, rfl⟩

theorem next_same (h : it.next = some it') : SameSources it it' := by
  unfold next at h
  split at h
  · cases h
    exact ⟨rfl, rfl, rfl, rfl⟩
  · simp at h

theorem advance_same (h : it.advance = some it') : SameSources it it' := by
  unfold advance at h
  split at h
  · simp at h
  · split at h
    · cases h
      exact ⟨rfl, rfl, rfl, rfl⟩
    · rename_i e _
      cases htype : e.key.type <;> simp only [htype] at h <;> split_ifs at h <;>
        (obtain rfl := Option.some.inj h; exact ⟨rfl, rfl, rfl, rfl⟩)

end DBIterator

/-! ## What an iterator stands for -/

/-- The list has the keys whose newest entry is a value, in order. -/
structure Listed (E : Entry → Prop) (L : List (Bytes × Bytes)) : Prop where
  sorted : L.Pairwise fun a b => a.1 < b.1
  mem : ∀ k v, (k, v) ∈ L ↔ ∃ e, Newest E k e ∧ e.key.type = .value ∧ e.value = v

/-- What is still to come, `rest`, when the keys in `past` have been passed and the
key in `skip` is being skipped. No other user key is passed in part. -/
structure Pending (E : Entry → Prop) (L rest : List (Bytes × Bytes)) (past : InternalKey → Prop)
    (skip : Option Bytes) : Prop where
  sub : rest.Sublist L
  mem : ∀ p ∈ L, p ∈ rest ↔ skip ≠ some p.1 ∧ ∀ y, E y → y.key.userKey = p.1 → ¬ past y.key
  whole : ∀ k, skip ≠ some k → (∀ y, E y → y.key.userKey = k → past y.key) ∨
    ∀ y, E y → y.key.userKey = k → ¬ past y.key

/-- Where the iterator stands in its sources. -/
structure At (E : Entry → Prop) (L rest : List (Bytes × Bytes)) (it : DBIterator)
    (past : InternalKey → Prop) (skip : Option Bytes) : Prop where
  cut : MergingIterator.Cut past
  positioned : MergingIterator.Positioned (fun x => x.key.sequence ≤ it.visibleSequence) past
    it.sources it.heads
  pending : Pending E L rest past skip
  skipped : ∀ k, skip = some k → ∃ z, past z ∧ z.userKey = k

/-- The iterator has `rest` before it. -/
structure Tracks (E : Entry → Prop) (L rest : List (Bytes × Bytes)) (it : DBIterator) : Prop where
  listed : Listed E L
  ascending : ∀ c ∈ it.sources, Ascending c
  distinct : MergingIterator.Distinct it.sources
  seen : ∀ x, E x ↔ (∃ c ∈ it.sources, x ∈ c) ∧ x.key.sequence ≤ it.visibleSequence
  search : ∀ skipping, it.searching = some skipping →
    ∃ past, At E L rest it past (if skipping then some it.skipKey else none)
  found : it.searching = none → it.valid = true → ∃ past i e, At E L rest it past none ∧
    MergingIterator.top it.heads = some (i, e) ∧ rest.head? = some (e.key.userKey, e.value)
  ended : it.searching = none → it.valid = false → rest = []

section Moves

variable {E : Entry → Prop} {L rest : List (Bytes × Bytes)} {it it' : DBIterator}
  {past : InternalKey → Prop} {skip : Option Bytes} {i : ℕ} {e : Entry}

theorem Tracks.current (h : Tracks E L rest it) (hs : it.searching = none) :
    it.current = rest.head? := by
  unfold DBIterator.current
  cases hv : it.valid with
  | false => simp [h.ended hs hv]
  | true =>
    obtain ⟨past, i, e, _, htop, hhead⟩ := h.found hs hv
    simp [htop, hhead]

theorem Tracks.seekToFirst (h : Tracks E L rest it) (hstep : it.seekToFirst = some it') :
    Tracks E L L it' := by
  unfold DBIterator.seekToFirst at hstep
  split at hstep
  · simp at hstep
  · cases hstep
    refine ⟨h.listed, h.ascending, h.distinct, h.seen, ?_, by simp, by simp⟩
    intro skipping hs
    obtain rfl : false = skipping := by simpa using hs
    refine ⟨fun _ => False, ⟨fun _ _ _ h => h, MergingIterator.positioned_seekToFirst h.ascending,
      ⟨List.Sublist.refl _, ?_, ?_⟩, by simp⟩⟩
    · intro p hp
      simp [hp]
    · exact fun k _ => Or.inr fun _ _ _ => not_false

theorem Tracks.seek (h : Tracks E L rest it) {target : Bytes} (hstep : it.seek target = some it') :
    Tracks E L (L.filter fun p => target ≤ p.1) it' := by
  unfold DBIterator.seek at hstep
  split at hstep
  · simp at hstep
  · cases hstep
    -- a version up to the sequence is before the lookup key iff its user key is smaller
    have hpast : ∀ y, E y → (y.key < lookupKey target it.visibleSequence ↔
        y.key.userKey < target) := by
      intro y hy
      have hseq := ((h.seen y).mp hy).2
      rw [← not_le, lookupKey_le_iff, not_or, not_and]
      constructor
      · rintro ⟨hnot, hne⟩
        exact lt_of_le_of_ne (not_lt.mp hnot) fun heq => hne heq.symm hseq
      · intro hlt
        exact ⟨not_lt.mpr hlt.le, fun heq => absurd heq.symm hlt.ne⟩
    refine ⟨h.listed, h.ascending, h.distinct, h.seen, ?_, by simp, by simp⟩
    intro skipping hs
    obtain rfl : false = skipping := by simpa using hs
    refine ⟨fun k => k < lookupKey target it.visibleSequence, ⟨fun a b hab hb => hab.trans_lt hb,
      MergingIterator.positioned_seek h.ascending _, ⟨List.filter_sublist, ?_, ?_⟩, by simp⟩⟩
    · rintro ⟨k, v⟩ hp
      obtain ⟨e, hnew, _⟩ := (h.listed.mem k v).mp hp
      simp only [List.mem_filter, hp, true_and, decide_eq_true_eq]
      constructor
      · intro hle
        refine ⟨by simp, fun y hy hk hlt => ?_⟩
        exact absurd ((hpast y hy).mp hlt) (not_lt.mpr (hk ▸ hle))
      · rintro ⟨_, hall⟩
        by_contra hlt
        exact hall e hnew.mem hnew.key ((hpast e hnew.mem).mpr (hnew.key ▸ not_le.mp hlt))
    · intro k _
      by_cases hk : k < target
      · exact Or.inl fun y hy hyk => (hpast y hy).mpr (hyk ▸ hk)
      · exact Or.inr fun y hy hyk hlt => hk (hyk ▸ (hpast y hy).mp hlt)

/-! ## One step of the merge -/

section

variable (h : At E L rest it past skip) (ht : Tracks E L rest it)
  (htop : MergingIterator.top it.heads = some (i, e)) {y : Entry} (hy : E y)

include h ht htop hy

/-- Of the entries that are seen, passing the top adds itself only. -/
theorem At.past_iff :
    y.key ≤ e.key ↔ past y.key ∨ y.key = e.key := by
  obtain ⟨⟨c, hc, hyc⟩, hseq⟩ := (ht.seen y).mp hy
  obtain ⟨_, _, _, hpe⟩ := h.positioned.top_mem htop
  constructor
  · intro hle
    by_cases hp : past y.key
    · exact Or.inl hp
    · exact Or.inr (le_antisymm hle (h.positioned.top_le htop hc hyc hseq hp))
  · rintro (hp | heq)
    · by_contra hlt
      exact hpe (h.cut _ _ (not_le.mp hlt).le hp)
    · exact heq.le

theorem At.top_le (hp : ¬ past y.key) : e.key ≤ y.key := by
  obtain ⟨⟨c, hc, hyc⟩, hseq⟩ := (ht.seen y).mp hy
  exact h.positioned.top_le htop hc hyc hseq hp

end

variable {skip' : Option Bytes}

/-- Passing an entry of the key that is skipped, or one that is not seen. -/
theorem Pending.pass {past' : InternalKey → Prop} (h : Pending E L rest past skip)
    (hpast : ∀ y, E y → (past' y.key ↔ past y.key ∨ y.key = e.key))
    (hother : ∀ y, E y → skip' ≠ some y.key.userKey → y.key ≠ e.key)
    (hskip : ∀ k, skip = some k → skip' = some k) (hrest : ∀ p ∈ rest, skip' ≠ some p.1) :
    Pending E L rest past' skip' := by
  refine ⟨h.sub, ?_, ?_⟩
  · intro p hp
    rw [h.mem p hp]
    constructor
    · rintro ⟨hs, hall⟩
      have hs' := hrest p ((h.mem p hp).mpr ⟨hs, hall⟩)
      refine ⟨hs', fun y hy hk hpy => ?_⟩
      rcases (hpast y hy).mp hpy with hpy | heq
      · exact hall y hy hk hpy
      · exact hother y hy (hk ▸ hs') heq
    · rintro ⟨hs', hall⟩
      exact ⟨fun hs => hs' (hskip _ hs), fun y hy hk hpy => hall y hy hk
        ((hpast y hy).mpr (Or.inl hpy))⟩
  · intro k hk
    rcases h.whole k fun hs => hk (hskip _ hs) with hall | hnone
    · exact Or.inl fun y hy hyk => (hpast y hy).mpr (Or.inl (hall y hy hyk))
    · refine Or.inr fun y hy hyk hpy => ?_
      rcases (hpast y hy).mp hpy with hpy | heq
      · exact hnone y hy hyk hpy
      · exact hother y hy (hyk ▸ hk) heq

/-- The head is done with: its key is skipped from here on. -/
theorem Pending.tail {p : Bytes × Bytes} (h : Pending E L (p :: rest) past none) (hL : Listed E L) :
    Pending E L rest past (some p.1) := by
  obtain ⟨hlt, _⟩ := List.pairwise_cons.mp (hL.sorted.sublist h.sub)
  refine ⟨(List.sublist_cons_self p rest).trans h.sub, ?_, fun k _ => h.whole k (by simp)⟩
  intro q hq
  have hmem := h.mem q hq
  constructor
  · intro hqr
    refine ⟨?_, (hmem.mp (List.mem_cons_of_mem _ hqr)).2⟩
    intro heq
    exact absurd (Option.some.inj heq) (hlt q hqr).ne
  · rintro ⟨hne, hall⟩
    rcases List.mem_cons.mp (hmem.mpr ⟨by simp, hall⟩) with rfl | hqr
    · simp at hne
    · exact hqr

/-- A key whose entries are all passed need not be skipped any more. -/
theorem Pending.unskip {k : Bytes} (h : Pending E L rest past (some k)) (hL : Listed E L)
    (hall : ∀ y, E y → y.key.userKey = k → past y.key) : Pending E L rest past none := by
  refine ⟨h.sub, ?_, ?_⟩
  · rintro ⟨j, v⟩ hp
    rw [h.mem _ hp]
    constructor
    · exact fun hboth => ⟨by simp, hboth.2⟩
    · rintro ⟨_, hnone⟩
      refine ⟨?_, hnone⟩
      intro heq
      obtain ⟨e, hnew, _⟩ := (hL.mem j v).mp hp
      exact hnone e hnew.mem hnew.key
        (hall e hnew.mem (hnew.key.trans (Option.some.inj heq).symm))
  · intro j _
    by_cases hj : j = k
    · subst hj
      exact Or.inl hall
    · exact h.whole j fun heq => hj (Option.some.inj heq).symm

variable {rest' : List (Bytes × Bytes)}

theorem At.pass (h : At E L rest it past skip) (ht : Tracks E L rest it)
    (htop : MergingIterator.top it.heads = some (i, e)) (hsources : it'.sources = it.sources)
    (hvis : it'.visibleSequence = it.visibleSequence)
    (hheads : it'.heads = MergingIterator.next it.sources it.heads)
    (hpending : Pending E L rest' (fun k => k ≤ e.key) skip')
    (hskip : ∀ k, skip' = some k → ∃ z, z ≤ e.key ∧ z.userKey = k) :
    At E L rest' it' (fun k => k ≤ e.key) skip' := by
  refine ⟨fun a b hab hb => hab.trans hb, ?_, hpending, hskip⟩
  rw [hsources, hvis, hheads]
  exact h.positioned.next h.cut ht.ascending ht.distinct htop

/-- Passing a version of a key that nothing is listed for any more. -/
theorem At.pass_key (h : At E L rest it past skip) (ht : Tracks E L rest it)
    (htop : MergingIterator.top it.heads = some (i, e)) (hsources : it'.sources = it.sources)
    (hvis : it'.visibleSequence = it.visibleSequence)
    (hheads : it'.heads = MergingIterator.next it.sources it.heads)
    (hskip : ∀ k, skip = some k → e.key.userKey = k) (hrest : ∀ p ∈ rest, e.key.userKey ≠ p.1) :
    At E L rest it' (fun k => k ≤ e.key) (some e.key.userKey) := by
  refine h.pass ht htop hsources hvis hheads
    (h.pending.pass (fun y hy => h.past_iff ht htop hy) ?_ ?_ ?_) ?_
  · intro y hy hne heq
    simp [heq] at hne
  · exact fun k hk => congrArg some (hskip k hk)
  · exact fun p hp heq => hrest p hp (Option.some.inj heq)
  · exact fun k hk => ⟨e.key, le_rfl, Option.some.inj hk⟩

/-! ## The operations -/

/-- A search that goes on from another place. -/
theorem Tracks.moved {skipping : Bool} (h : Tracks E L rest it)
    (hsources : it'.sources = it.sources) (hvis : it'.visibleSequence = it.visibleSequence)
    (hs : it'.searching = some skipping)
    (hat : At E L rest' it' past (if skipping then some it'.skipKey else none)) :
    Tracks E L rest' it' := by
  refine ⟨h.listed, ?_, ?_, ?_, ?_, by simp [hs], by simp [hs]⟩
  · rw [hsources]
    exact h.ascending
  · rw [hsources]
    exact h.distinct
  · rw [hsources, hvis]
    exact h.seen
  · intro skipping' hs'
    obtain rfl : skipping = skipping' := by simpa [hs] using hs'
    exact ⟨past, hat⟩

theorem Tracks.next (h : Tracks E L rest it) (hstep : it.next = some it') :
    Tracks E L rest.tail it' := by
  unfold DBIterator.next at hstep
  split at hstep
  · rename_i x e hs hv htop
    obtain ⟨past, j, e', hat, htop', hhead⟩ := h.found hs hv
    obtain ⟨rfl, rfl⟩ : x = j ∧ e = e' := by simpa [htop] using htop'
    cases hstep
    obtain ⟨tail, rfl⟩ : ∃ tail, rest = (e.key.userKey, e.value) :: tail := by
      cases rest with
      | nil => simp at hhead
      | cons p tail => exact ⟨tail, by rw [Option.some.inj hhead]⟩
    have htail := hat.pending.tail h.listed
    refine h.moved rfl rfl rfl (hat.pass h htop rfl rfl rfl
      (htail.pass (fun y hy => hat.past_iff h htop hy) ?_ ?_ ?_) ?_)
    · intro y hy hne heq
      simp [heq] at hne
    · exact fun k hk => hk
    · exact fun p hp => ((htail.mem p (htail.sub.subset hp)).mp hp).1
    · intro k hk
      exact ⟨e.key, le_rfl, by simpa using hk⟩
  · simp at hstep

section

variable (h : At E L rest it past none) (ht : Tracks E L rest it)
  (htop : MergingIterator.top it.heads = some (i, e)) (hseq : e.key.sequence ≤ it.visibleSequence)

include h ht htop hseq

/-- What the top is in a search that is not skipping. -/
theorem At.newest_top : Newest E e.key.userKey e := by
  obtain ⟨c, hc, hec, hpe⟩ := h.positioned.top_mem htop
  have hE : E e := (ht.seen e).mpr ⟨⟨c, List.mem_of_getElem? hc, hec⟩, hseq⟩
  refine ⟨hE, rfl, fun y hy hk => ?_⟩
  rcases h.pending.whole e.key.userKey (by simp) with hall | hnone
  · exact absurd (hall e hE rfl) hpe
  · exact h.top_le ht htop hy (hnone y hy hk)

/-- A value at the top is the next pair. -/
theorem At.head_rest (hval : e.key.type = .value) :
    rest.head? = some (e.key.userKey, e.value) := by
  have hnew := h.newest_top ht htop hseq
  obtain ⟨_, _, _, hpe⟩ := h.positioned.top_mem htop
  have hnone : ∀ y, E y → y.key.userKey = e.key.userKey → ¬ past y.key := by
    rcases h.pending.whole e.key.userKey (by simp) with hall | hnone
    · exact absurd (hall e hnew.mem rfl) hpe
    · exact hnone
  have hL : (e.key.userKey, e.value) ∈ L := (ht.listed.mem _ _).mpr ⟨e, hnew, hval, rfl⟩
  have hrest : (e.key.userKey, e.value) ∈ rest := (h.pending.mem _ hL).mpr ⟨by simp, hnone⟩
  have hsorted := ht.listed.sorted.sublist h.pending.sub
  cases hr : rest with
  | nil => simp [hr] at hrest
  | cons p tail =>
    rw [hr] at hrest hsorted
    rcases List.mem_cons.mp hrest with heq | hmem
    · rw [heq]
      rfl
    · -- a smaller key would have an entry before the top
      have hlt := (List.pairwise_cons.mp hsorted).1 _ hmem
      have hp : p ∈ L := h.pending.sub.subset (by simp [hr])
      obtain ⟨y, hy, _⟩ := (ht.listed.mem p.1 p.2).mp hp
      have hnot := ((h.pending.mem p hp).mp (by simp [hr])).2 y hy.mem hy.key
      have hle := InternalKey.userKey_le (h.top_le ht htop hy.mem hnot)
      rw [hy.key] at hle
      exact absurd hlt (not_lt.mpr hle)

end

theorem At.nil_of_top_none (h : At E L rest it past skip) (ht : Tracks E L rest it)
    (htop : MergingIterator.top it.heads = none) : rest = [] := by
  rw [List.eq_nil_iff_forall_not_mem]
  intro p hp
  have hL := h.pending.sub.subset hp
  obtain ⟨y, hy, _⟩ := (ht.listed.mem p.1 p.2).mp hL
  obtain ⟨⟨c, hc, hyc⟩, hseq⟩ := (ht.seen y).mp hy.mem
  exact ((h.pending.mem p hL).mp hp).2 y hy.mem hy.key
    (h.positioned.past_of_top_none htop hc hyc hseq)

/-- Skipping ends at the first entry of another user key. -/
theorem At.unskip (h : At E L rest it past (some it.skipKey)) (ht : Tracks E L rest it)
    (htop : MergingIterator.top it.heads = some (i, e)) (hne : e.key.userKey ≠ it.skipKey) :
    At E L rest it past none := by
  obtain ⟨_, _, _, hpe⟩ := h.positioned.top_mem htop
  obtain ⟨z, hz, hzk⟩ := h.skipped _ rfl
  have hze : z < e.key := by
    by_contra hle
    exact hpe (h.cut _ _ (not_lt.mp hle) hz)
  have hlt : it.skipKey < e.key.userKey := by
    have hle := InternalKey.userKey_le hze.le
    rw [hzk] at hle
    exact lt_of_le_of_ne hle hne.symm
  refine ⟨h.cut, h.positioned, h.pending.unskip ht.listed ?_, by simp⟩
  intro y hy hk
  by_contra hp
  have hle := InternalKey.userKey_le (h.top_le ht htop hy hp)
  rw [hk] at hle
  exact absurd hlt (not_lt.mpr hle)

/-- The newest version of a pair that is listed is a value. -/
theorem At.ne_of_deletion (h : At E L rest it past none) (ht : Tracks E L rest it)
    (htop : MergingIterator.top it.heads = some (i, e))
    (hseq : e.key.sequence ≤ it.visibleSequence) (htype : e.key.type = .deletion) :
    ∀ p ∈ rest, e.key.userKey ≠ p.1 := by
  rintro ⟨k, v⟩ hp hk
  have hnew := h.newest_top ht htop hseq
  obtain ⟨y, hy, hval, _⟩ := (ht.listed.mem k v).mp (h.pending.sub.subset hp)
  have hle := hnew.least y hy.mem (hy.key.trans hk.symm)
  have hge := hy.least e hnew.mem hk
  rw [le_antisymm hge hle, htype] at hval
  simp at hval

/-- One round ends the search or passes one more entry. -/
theorem At.advance {skipping : Bool} (h : Tracks E L rest it) (hs : it.searching = some skipping)
    (hat : At E L rest it past (if skipping then some it.skipKey else none))
    (hstep : it.advance = some it') :
    it'.sources = it.sources ∧ it'.visibleSequence = it.visibleSequence ∧
      (it'.searching = none ∧ Tracks E L rest it' ∨
        ∃ i e skipping', MergingIterator.top it.heads = some (i, e) ∧
          it'.searching = some skipping' ∧ At E L rest it' (fun k => k ≤ e.key)
            (if skipping' then some it'.skipKey else none)) := by
  unfold DBIterator.advance at hstep
  simp only [hs] at hstep
  cases htop : MergingIterator.top it.heads with
  | none =>
    simp only [htop] at hstep
    cases hstep
    exact ⟨rfl, rfl, Or.inl ⟨rfl, h.listed, h.ascending, h.distinct, h.seen, by simp, by simp,
      fun _ _ => hat.nil_of_top_none h htop⟩⟩
  | some p =>
    obtain ⟨i, e⟩ := p
    simp only [htop] at hstep
    split at hstep
    · -- one more version of the key that is skipped
      rename_i hskip
      obtain ⟨rfl, hkey⟩ := hskip
      cases hstep
      refine ⟨rfl, rfl, Or.inr ⟨i, e, true, rfl, rfl, ?_⟩⟩
      rw [if_pos rfl] at hat
      refine hkey ▸ hat.pass_key h htop rfl rfl rfl (fun k hk => ?_) fun p hp heq => ?_
      · exact hkey.trans (Option.some.inj hk)
      · have := ((hat.pending.mem p (hat.pending.sub.subset hp)).mp hp).1
        simp [← hkey, heq] at this
    · rename_i hskip
      have hat' : At E L rest it past none := by
        cases skipping with
        | false => simpa using hat
        | true =>
          exact hat.unskip h htop fun hk => hskip ⟨rfl, hk⟩
      split at hstep
      · -- a version that is not visible
        cases hstep
        refine ⟨rfl, rfl, Or.inr ⟨i, e, false, rfl, rfl, hat'.pass h htop rfl rfl rfl
          (hat'.pending.pass (fun y hy => hat'.past_iff h htop hy) ?_ (by simp) (by simp))
          (by simp)⟩⟩
        intro y hy _ heq
        have := ((h.seen y).mp hy).2
        rw [heq] at this
        omega
      · rename_i hseq
        rw [not_lt] at hseq
        cases htype : e.key.type with
        | deletion =>
          simp only [htype] at hstep
          cases hstep
          exact ⟨rfl, rfl, Or.inr ⟨i, e, true, rfl, rfl, hat'.pass_key h htop rfl rfl rfl (by simp)
            (hat'.ne_of_deletion h htop hseq htype)⟩⟩
        | value =>
          simp only [htype] at hstep
          cases hstep
          refine ⟨rfl, rfl, Or.inl ⟨rfl, h.listed, h.ascending, h.distinct, h.seen, by simp,
            fun _ _ => ?_, by simp⟩⟩
          exact ⟨past, i, e, ⟨hat'.cut, hat'.positioned, hat'.pending, by simp⟩, htop,
            hat'.head_rest h htop hseq htype⟩

theorem Tracks.advance (h : Tracks E L rest it) (hstep : it.advance = some it') :
    Tracks E L rest it' := by
  cases hs : it.searching with
  | none => simp [DBIterator.advance, hs] at hstep
  | some skipping =>
    obtain ⟨past, hat⟩ := h.search skipping hs
    obtain ⟨hsources, hvis, ⟨_, ht⟩ | ⟨i, e, skipping', _, hs', hat'⟩⟩ := At.advance h hs hat hstep
    · exact ht
    · exact h.moved hsources hvis hs' hat'

/-- A search that is left alone ends. -/
theorem Tracks.finish (h : Tracks E L rest it) : ∃ n it',
    TransitionSystem.exec (fun it (_ : Unit) => DBIterator.advance it) it (List.replicate n ()) =
      some it' ∧ it'.searching = none := by
  cases hs : it.searching with
  | none => exact ⟨0, it, rfl, hs⟩
  | some skipping =>
    obtain ⟨past, hat⟩ := h.search skipping hs
    -- every round passes an entry that was not passed before
    induction hn : MergingIterator.remaining past it.sources using Nat.strong_induction_on
      generalizing it past skipping with
    | _ n ih =>
      obtain ⟨it₁, hstep⟩ := Option.isSome_iff_exists.mp (it.advance_isSome (by simp [hs]))
      have ht := h.advance hstep
      obtain ⟨hsources, hvis, ⟨hdone, _⟩ | ⟨i, e, skipping', htop, hs', hat'⟩⟩ :=
        At.advance h hs hat hstep
      · exact ⟨1, it₁, by simp [TransitionSystem.exec, hstep], hdone⟩
      · obtain ⟨c, hc, hec, hpe⟩ := hat.positioned.top_mem htop
        have hlt : MergingIterator.remaining (fun k => k ≤ e.key) it₁.sources < n := by
          rw [← hn, hsources]
          refine MergingIterator.remaining_lt ?_
            (List.mem_flatten.mpr ⟨c, List.mem_of_getElem? hc, hec⟩) hpe le_rfl
          intro k hk
          by_contra hgt
          exact hpe (hat.cut _ _ (not_le.mp hgt).le hk)
        obtain ⟨m, it', hrun, hdone⟩ := ih _ hlt ht skipping' hs' _ hat' rfl
        refine ⟨m + 1, it', ?_, hdone⟩
        rw [List.replicate_succ, TransitionSystem.exec, hstep]
        exact hrun

/-! ## Growth of the pinned memtable -/

theorem At.grow (h : At E L rest it past skip) {m : MemTable}
    (hsub : it.memtable.run.entries ⊆ m.run.entries)
    (hnew : ∀ x ∈ m.run.entries, x ∈ it.memtable.run.entries ∨
      it.visibleSequence < x.key.sequence) :
    At E L rest { it with memtable := m } past skip := by
  refine ⟨h.cut, h.positioned.grow rfl ?_, h.pending, h.skipped⟩
  intro i c c' hc hc'
  cases i with
  | zero =>
    obtain rfl : it.memtable.run.entries = c := by simpa [DBIterator.sources] using hc
    obtain rfl : m.run.entries = c' := by simpa [DBIterator.sources] using hc'
    refine ⟨hsub, fun x hx hseq => ?_⟩
    rcases hnew x hx with hold | hlt
    · exact hold
    · omega
  | succ i =>
    obtain rfl : c = c' := by
      exact Option.some.inj (hc.symm.trans hc')
    exact ⟨List.Subset.refl _, fun x hx _ => hx⟩

/-- Entries beyond the iterator's sequence change nothing for it. -/
theorem Tracks.grow (h : Tracks E L rest it) {m : MemTable}
    (hsub : it.memtable.run.entries ⊆ m.run.entries)
    (hnew : ∀ x ∈ m.run.entries, x ∈ it.memtable.run.entries ∨
      it.visibleSequence < x.key.sequence ∧ ∀ c ∈ it.layers, ∀ y ∈ c, x.key ≠ y.key) :
    Tracks E L rest { it with memtable := m } := by
  have hnew' : ∀ x ∈ m.run.entries, x ∈ it.memtable.run.entries ∨
      it.visibleSequence < x.key.sequence := fun x hx => (hnew x hx).imp_right And.left
  obtain ⟨hfirst, hrest⟩ := List.pairwise_cons.mp h.distinct
  refine ⟨h.listed, ?_, ?_, ?_, ?_, ?_, h.ended⟩
  · intro c hc
    rcases List.mem_cons.mp hc with rfl | hc
    · exact m.run.ascending
    · exact h.ascending c (List.mem_cons_of_mem _ hc)
  · refine List.pairwise_cons.mpr ⟨?_, hrest⟩
    intro c hc x hx y hy
    rcases hnew x hx with hold | ⟨_, hne⟩
    · exact hfirst c hc x hold y hy
    · exact hne c hc y hy
  · intro x
    rw [h.seen x]
    constructor
    · rintro ⟨⟨c, hc, hx⟩, hseq⟩
      rcases List.mem_cons.mp hc with rfl | hc
      · exact ⟨⟨_, List.mem_cons_self, hsub hx⟩, hseq⟩
      · exact ⟨⟨c, List.mem_cons_of_mem _ hc, hx⟩, hseq⟩
    · rintro ⟨⟨c, hc, hx⟩, hseq⟩
      rcases List.mem_cons.mp hc with rfl | hc
      · rcases hnew' x hx with hold | hlt
        · exact ⟨⟨_, List.mem_cons_self, hold⟩, hseq⟩
        · change x.key.sequence ≤ it.visibleSequence at hseq
          omega
      · exact ⟨⟨c, List.mem_cons_of_mem _ hc, hx⟩, hseq⟩
  · intro skipping hs
    obtain ⟨past, hat⟩ := h.search skipping hs
    exact ⟨past, hat.grow hsub hnew'⟩
  · intro hs hv
    obtain ⟨past, i, e, hat, htop, hhead⟩ := h.found hs hv
    exact ⟨past, i, e, hat.grow hsub hnew', htop, hhead⟩

end Moves

end Mizu.Lsm
