import Mathlib.Data.List.TakeWhile
import Mizu.Lsm.Coding
import Mizu.Lsm.Merge
import Mizu.Lsm.Version

/-!
# Compaction

A compaction replaces a range of tables of one level and the tables of the next
level that overlap it by the merge of both. The merge drops the versions no
snapshot can see and is cut into tables between user keys only.
-/

open Multiversion

namespace Mizu.Lsm

/-- The byte counts the database decides by: the arena of a memtable, a table
being built and the finished file, and the largest restart offset in its blocks. -/
structure Sizing where
  memoryUsage : List Entry → ℕ
  estimatedFileSize : List Entry → ℕ
  fileSize : List Entry → ℕ
  lastRestart : List Entry → ℕ
  fileSize_pos : ∀ es, 0 < fileSize es

/-- `kLevel0CompactionTrigger` -/
def level0CompactionTrigger : ℕ := 4

structure CompactionOptions where
  level1Bytes : ℕ := 10 * 1024 * 1024
  outputBytes : ℕ := 2 * 1024 * 1024

structure CompactionPlan where
  inputVersion : Version
  oldestSnapshot : ℕ
  inputLevel : Fin 2
  inputs : IndexRange
  overlaps : IndexRange
deriving DecidableEq

namespace CompactionPlan

def sourceLevel (p : CompactionPlan) : Fin 3 := p.inputLevel.castSucc

def outputLevel (p : CompactionPlan) : Fin 3 := p.inputLevel.succ

/-- The tables the compaction reads, in the order of its iterators. -/
def tables (p : CompactionPlan) : List Table :=
  p.inputs.slice (p.inputVersion.level p.sourceLevel) ++
    p.overlaps.slice (p.inputVersion.level p.outputLevel)

end CompactionPlan

/-! ## Choosing the inputs -/

/-- The loop of `levelAtLimit`. -/
def reachesLimit : ℕ → List Table → Bool
  | _, [] => false
  | remaining, t :: ts =>
    if t.info.fileSize ≥ remaining then true else reachesLimit (remaining - t.info.fileSize) ts

def levelAtLimit (ts : List Table) (limit : ℕ) : Bool :=
  if ts.isEmpty then false else if limit = 0 then true else reachesLimit limit ts

/-- The user keys a list of tables spans; an assertion excludes the empty list. -/
def userRange : List Table → Bytes × Bytes
  | [] => ([], [])
  | t :: ts =>
    ts.foldl
      (fun r t =>
        (if t.smallestUser < r.1 then t.smallestUser else r.1,
          if r.2 < t.largestUser then t.largestUser else r.2))
      (t.smallestUser, t.largestUser)

def overlappingRange (ts : List Table) (smallest largest : Bytes) : IndexRange :=
  let start := Search.lowerBound (fun t => t.largestUser < smallest) ts
  ⟨start, start + (ts.drop start).findIdx fun t => largest < t.smallestUser⟩

def needsCompaction (v : Version) (o : CompactionOptions) : Bool :=
  (v.level 0).length ≥ level0CompactionTrigger || levelAtLimit (v.level 1) o.level1Bytes

/-- Level 0 as a whole when it has enough tables, else the first table of a full
level 1. -/
def pickInputs (v : Version) (o : CompactionOptions) : Option (Fin 2 × IndexRange) :=
  if (v.level 0).length ≥ level0CompactionTrigger then some (0, ⟨0, (v.level 0).length⟩)
  else if levelAtLimit (v.level 1) o.level1Bytes then some (1, ⟨0, 1⟩)
  else none

def pickCompaction (v : Version) (oldestSnapshot : ℕ) (o : CompactionOptions) :
    Option CompactionPlan := do
  let (inputLevel, inputs) ← pickInputs v o
  let (smallest, largest) := userRange (inputs.slice (v.level inputLevel.castSucc))
  let overlaps := overlappingRange (v.level inputLevel.succ) smallest largest
  pure ⟨v, oldestSnapshot, inputLevel, inputs, overlaps⟩

/-! ## Writing the outputs -/

/-- `CompactionOutputWriter`: the entries of the open builder and of the
completed outputs. -/
structure OutputWriter where
  builder : Option (List Entry) := none
  lastUserKey : Bytes := []
  completed : List (List Entry) := []

namespace OutputWriter

def finishOutput (w : OutputWriter) : OutputWriter :=
  match w.builder with
  | none => w
  | some es => ⟨none, [], w.completed ++ [es]⟩

/-- The target size is soft: the versions of a user key stay in one table. -/
def add (z : Sizing) (targetFileSize : ℕ) (w : OutputWriter) (e : Entry) : OutputWriter :=
  let w := if w.builder.any fun es => w.lastUserKey ≠ e.key.userKey ∧
      z.estimatedFileSize es ≥ targetFileSize then w.finishOutput else w
  { w with builder := some (w.builder.getD [] ++ [e]), lastUserKey := e.key.userKey }

def finish (w : OutputWriter) : List (List Entry) := w.finishOutput.completed

/-- Completed and open outputs. -/
def outputs (w : OutputWriter) : List (List Entry) := w.completed ++ w.builder.toList

end OutputWriter

/-- The cursor of `BaseLevelChecker` in one level. -/
def advance (ts : List Table) (index : ℕ) (key : Bytes) : ℕ :=
  index + ((ts.drop index).takeWhile fun t => t.largestUser < key).length

/-- Whether no table of the given levels spans `key`. -/
def isBaseLevelForKey (v : Version) (key : Bytes) :
    List (Fin 3) → (Fin 3 → ℕ) → Bool × (Fin 3 → ℕ)
  | [], indices => (true, indices)
  | l :: ls, indices =>
    let index := advance (v.level l) (indices l) key
    let indices := Function.update indices l index
    if ((v.level l)[index]?).any fun t => t.smallestUser ≤ key then (false, indices)
    else isBaseLevelForKey v key ls indices

/-- The variables of the loop of `buildCompactionTables`. -/
structure Collector where
  previousKey : Option InternalKey := none
  currentUserKey : Bytes := []
  lastSequenceForKey : ℕ := maxSequenceNumber
  indices : Fin 3 → ℕ := fun _ => 0
  writer : OutputWriter := {}

namespace Collector

/-- Whether the entry is dropped, given the sequence of the version before it. -/
def drops (p : CompactionPlan) (c : Collector) (lastSequence : ℕ) (k : InternalKey) :
    Bool × (Fin 3 → ℕ) :=
  if lastSequence ≤ p.oldestSnapshot then (true, c.indices)
  else if k.type = .deletion ∧ k.sequence ≤ p.oldestSnapshot then
    isBaseLevelForKey p.inputVersion k.userKey
      ((List.finRange 3).filter fun l => p.outputLevel < l) c.indices
  else (false, c.indices)

def step (z : Sizing) (o : CompactionOptions) (p : CompactionPlan) (c : Collector) (e : Entry) :
    Except Status Collector :=
  if c.previousKey.any fun k => ¬ k.Less e.key then
    .error (.corruption "compaction inputs contain duplicate internal keys")
  else
    let lastSequence :=
      if c.currentUserKey ≠ e.key.userKey then maxSequenceNumber else c.lastSequenceForKey
    let d := c.drops p lastSequence e.key
    .ok {
      previousKey := some e.key
      currentUserKey := e.key.userKey
      lastSequenceForKey := e.key.sequence
      indices := d.2
      writer := if d.1 then c.writer else c.writer.add z o.outputBytes e }

/-- The loop over the merged inputs. -/
def run (z : Sizing) (o : CompactionOptions) (p : CompactionPlan) :
    Collector → List Entry → Except Status Collector
  | c, [] => .ok c
  | c, e :: es => do
    let c ← c.step z o p e
    run z o p c es

end Collector

/-- The entries of each output table. -/
def buildCompactionTables (z : Sizing) (o : CompactionOptions) (p : CompactionPlan) :
    Except Status (List (List Entry)) :=
  if p.inputs.start ≥ p.inputs.stop ∨ o.outputBytes = 0 then
    .error (.invalidArgument "invalid compaction plan or options")
  else if p.inputs.stop > (p.inputVersion.level p.sourceLevel).length ∨
      p.overlaps.start > p.overlaps.stop ∨
      p.overlaps.stop > (p.inputVersion.level p.outputLevel).length then
    .error (.invalidArgument "invalid compaction input range")
  else if ∃ t ∈ p.tables, t.reader.entries = [] then
    .error (.corruption "compaction input SSTable is empty")
  else do
    let merged := MergingIterator.merged (p.tables.map fun t => t.reader.entries)
    let c ← Collector.run z o p {} merged
    pure c.writer.finish

/-! ## The outputs are cut between user keys -/

/-- Non-empty pieces of an ascending list, no user key in two of them. -/
structure Cuts (chunks : List (List Entry)) : Prop where
  nonempty : ∀ c ∈ chunks, c ≠ []
  ascending : Ascending chunks.flatten
  apart : chunks.Pairwise fun a b => ∀ x ∈ a, ∀ y ∈ b, x.key.userKey < y.key.userKey

theorem cuts_nil : Cuts [] := ⟨by simp, List.Pairwise.nil, List.Pairwise.nil⟩

section Cuts

variable {chunks : List (List Entry)} {c : List Entry} {e : Entry}

/-- A new piece for an entry of a larger user key. -/
theorem Cuts.open (h : Cuts chunks) (hlt : ∀ x ∈ chunks.flatten, x.key.userKey < e.key.userKey) :
    Cuts (chunks ++ [[e]]) := by
  refine ⟨?_, ?_, ?_⟩
  · intro c hc
    rcases List.mem_append.mp hc with hc | hc
    · exact h.nonempty c hc
    · simp_all
  · rw [List.flatten_append]
    refine List.pairwise_append.mpr ⟨h.ascending, by simp, ?_⟩
    intro x hx y hy
    obtain rfl : y = e := by simpa using hy
    exact InternalKey.lt_of_userKey_lt (hlt x hx)
  · refine List.pairwise_append.mpr ⟨h.apart, by simp, ?_⟩
    intro a ha b hb x hx y hy
    obtain rfl : b = [e] := by simpa using hb
    obtain rfl : y = e := by simpa using hy
    exact hlt x (List.mem_flatten.mpr ⟨a, ha, hx⟩)

/-- The last piece takes one more entry. -/
theorem Cuts.extend (h : Cuts (chunks ++ [c])) (hlt : ∀ x ∈ (chunks ++ [c]).flatten, x.key <
    e.key) : Cuts (chunks ++ [c ++ [e]]) := by
  obtain ⟨hpre, -, hlast⟩ := List.pairwise_append.mp h.apart
  refine ⟨?_, ?_, ?_⟩
  · intro d hd
    rcases List.mem_append.mp hd with hd | hd
    · exact h.nonempty d (List.mem_append_left _ hd)
    · simp_all
  · have hsplit : (chunks ++ [c ++ [e]]).flatten = (chunks ++ [c]).flatten ++ [e] := by simp
    rw [hsplit]
    refine List.pairwise_append.mpr ⟨h.ascending, by simp, ?_⟩
    intro x hx y hy
    obtain rfl : y = e := by simpa using hy
    exact hlt x hx
  · refine List.pairwise_append.mpr ⟨hpre, by simp, ?_⟩
    intro a ha b hb x hx y hy
    obtain rfl : b = c ++ [e] := by simpa using hb
    rcases List.mem_append.mp hy with hy | hy
    · exact hlast a ha c (by simp) x hx y hy
    · -- the piece has an entry already, beyond `x` and not beyond `e`
      obtain rfl : y = e := by simpa using hy
      obtain ⟨f, hf⟩ := List.exists_mem_of_ne_nil c (h.nonempty c (by simp))
      have hfe := hlt f (List.mem_flatten.mpr ⟨c, by simp, hf⟩)
      exact (hlast a ha c (by simp) x hx f hf).trans_le (InternalKey.userKey_le hfe.le)

end Cuts

namespace OutputWriter

/-- What holds of the writer between two entries. -/
structure Sound (w : OutputWriter) : Prop where
  cuts : Cuts w.outputs
  closed : w.builder = none → w.completed = []
  last : ∀ es, w.builder = some es → es.getLast?.map (fun e => e.key.userKey) = some w.lastUserKey

theorem sound_empty : Sound {} := ⟨by simpa [outputs] using cuts_nil, fun _ => rfl, by simp⟩

theorem outputs_add {z : Sizing} {n : ℕ} {w : OutputWriter} {e : Entry} :
    (w.add z n e).outputs.flatten = w.outputs.flatten ++ [e] := by
  unfold add
  cases hb : w.builder with
  | none => simp [outputs, hb]
  | some es =>
    by_cases hs : w.lastUserKey ≠ e.key.userKey ∧ z.estimatedFileSize es ≥ n
    · simp [outputs, finishOutput, hb, hs]
    · have hfalse : (Option.any (fun es => decide (w.lastUserKey ≠ e.key.userKey ∧
          z.estimatedFileSize es ≥ n)) (some es)) = false := by
        simpa using hs
      simp only [hfalse, Bool.false_eq_true, if_false, outputs, hb]
      simp

theorem Sound.add {z : Sizing} {n : ℕ} {w : OutputWriter} {e : Entry} (h : w.Sound)
    (hlt : ∀ x ∈ w.outputs.flatten, x.key < e.key) : (w.add z n e).Sound := by
  have hcuts := h.cuts
  unfold outputs at hcuts hlt
  cases hb : w.builder with
  | none =>
    have hw : w.add z n e = { w with builder := some [e], lastUserKey := e.key.userKey } := by
      simp [OutputWriter.add, hb]
    rw [hw]
    refine ⟨?_, by simp, by simp⟩
    have hempty := h.closed hb
    simpa [outputs, hempty] using (cuts_nil.open (e := e) (by simp))
  | some es =>
    rw [hb, Option.toList_some] at hcuts hlt
    by_cases hs : w.lastUserKey ≠ e.key.userKey ∧ z.estimatedFileSize es ≥ n
    · have hw : w.add z n e =
          ⟨some [e], e.key.userKey, w.completed ++ [es]⟩ := by
        simp [OutputWriter.add, finishOutput, hb, hs]
      rw [hw]
      refine ⟨?_, by simp, by simp⟩
      apply hcuts.open
      intro x hx
      -- the builder's last entry has another user key, so it and all before it are smaller
      obtain ⟨a, ha, hk⟩ := Option.map_eq_some_iff.mp (h.last es hb)
      obtain ⟨bs, rfl⟩ := List.getLast?_eq_some_iff.mp ha
      have hlast : a.key.userKey < e.key.userKey := by
        have hle := InternalKey.userKey_le (hlt a (by simp)).le
        exact hle.lt_of_ne (by rw [hk]; exact hs.1)
      have hxa : x.key ≤ a.key := by
        have hasc := hcuts.ascending
        have hsplit : (w.completed ++ [bs ++ [a]]).flatten =
            (w.completed.flatten ++ bs) ++ [a] := by simp
        rw [hsplit] at hasc hx
        rcases List.mem_append.mp hx with hx | hx
        · exact ((List.pairwise_append.mp hasc).2.2 x hx a (by simp)).le
        · rw [List.mem_singleton.mp hx]
      exact (InternalKey.userKey_le hxa).trans_lt hlast
    · have hfalse : (Option.any (fun es => decide (w.lastUserKey ≠ e.key.userKey ∧
          z.estimatedFileSize es ≥ n)) (some es)) = false := by
        simpa using hs
      have hw : w.add z n e =
          { w with builder := some (es ++ [e]), lastUserKey := e.key.userKey } := by
        simp only [OutputWriter.add, hb, hfalse, Bool.false_eq_true, if_false, Option.getD_some]
      rw [hw]
      exact ⟨hcuts.extend hlt, by simp, by simp⟩

theorem finish_eq (w : OutputWriter) : w.finish = w.outputs := by
  unfold finish finishOutput outputs
  cases w.builder <;> simp

end OutputWriter

/-! ## What the loop keeps -/

/-- No table below level `l` spans `key`. -/
def BaseLevel (v : Version) (l : Fin 3) (key : Bytes) : Prop :=
  ∀ m, l < m → ∀ t ∈ v.level m, ¬ (t.smallestUser ≤ key ∧ key ≤ t.largestUser)

/-- The cursors have passed only tables that end before `key`. -/
def Behind (v : Version) (indices : Fin 3 → ℕ) (key : Bytes) : Prop :=
  ∀ l, ∀ t ∈ (v.level l).take (indices l), t.largestUser < key

section BaseLevel

variable {v : Version} {indices : Fin 3 → ℕ} {key : Bytes}

theorem Behind.mono (h : Behind v indices key) {key' : Bytes} (hle : key ≤ key') :
    Behind v indices key' := by
  intro l t ht
  exact (h l t ht).trans_le hle

theorem mem_take_advance {ts : List Table} {i : ℕ} (h : ∀ t ∈ ts.take i, t.largestUser < key)
    {t : Table} (ht : t ∈ ts.take (advance ts i key)) : t.largestUser < key := by
  rw [advance, List.take_add, List.mem_append] at ht
  rcases ht with ht | ht
  · exact h t ht
  · have htake := @List.take_left _ (List.takeWhile (fun t => decide (t.largestUser < key))
      (ts.drop i)) (List.dropWhile (fun t => decide (t.largestUser < key)) (ts.drop i))
    rw [List.takeWhile_append_dropWhile] at htake
    rw [htake] at ht
    simpa using List.mem_takeWhile_imp ht

theorem not_mem_drop_advance {ts : List Table} (hd : ∀ t ∈ ts, t.Described) (hdis : Disjoint ts)
    {i : ℕ} (hnot : ¬ (ts[advance ts i key]?).any (fun t => decide (t.smallestUser ≤ key)))
    {t : Table} (ht : t ∈ ts.drop (advance ts i key)) : key < t.smallestUser := by
  cases hdrop : ts.drop (advance ts i key) with
  | nil => simp [hdrop] at ht
  | cons c cs =>
    have hget : ts[advance ts i key]? = some c := by
      rw [← List.head?_drop, hdrop]
      rfl
    have hc : key < c.smallestUser := by simpa [hget] using hnot
    rw [hdrop] at ht
    rcases List.mem_cons.mp ht with rfl | ht
    · exact hc
    · have hsub : (ts.drop (advance ts i key)).Pairwise _ := hdis.sublist (List.drop_sublist _ _)
      rw [hdrop] at hsub
      have hct := (List.pairwise_cons.mp hsub).1 t ht
      have hcc := (hd c (List.mem_of_getElem? hget)).smallestUser_le_largestUser
      exact hc.trans (hcc.trans_lt hct)

/-- The cursors stay behind the key, and a positive answer is right. -/
theorem isBaseLevelForKey_spec {ls : List (Fin 3)} (hd : ∀ l ∈ ls, ∀ t ∈ v.level l, t.Described)
    (hdis : ∀ l ∈ ls, Disjoint (v.level l)) (h : Behind v indices key) :
    Behind v (isBaseLevelForKey v key ls indices).2 key ∧
      ((isBaseLevelForKey v key ls indices).1 → ∀ l ∈ ls, ∀ t ∈ v.level l,
        ¬ (t.smallestUser ≤ key ∧ key ≤ t.largestUser)) := by
  induction ls generalizing indices with
  | nil => exact ⟨h, by simp⟩
  | cons l ls ih =>
    have hbehind : Behind v (Function.update indices l (advance (v.level l) (indices l) key))
        key := by
      intro m t ht
      by_cases hm : m = l
      · subst hm
        rw [Function.update_self] at ht
        exact mem_take_advance (h m) ht
      · rw [Function.update_of_ne hm] at ht
        exact h m t ht
    simp only [isBaseLevelForKey]
    split
    · exact ⟨hbehind, by simp⟩
    · rename_i hnot
      obtain ⟨hb, htrue⟩ := ih (fun m hm => hd m (List.mem_cons_of_mem _ hm))
        (fun m hm => hdis m (List.mem_cons_of_mem _ hm)) hbehind
      refine ⟨hb, fun hres m hm t ht => ?_⟩
      rcases List.mem_cons.mp hm with rfl | hm
      · rintro ⟨hlow, hhigh⟩
        rw [← List.take_append_drop (advance (v.level m) (indices m) key) (v.level m)] at ht
        rcases List.mem_append.mp ht with ht | ht
        · exact absurd (mem_take_advance (h m) ht) (not_lt.mpr hhigh)
        · have := not_mem_drop_advance (hd m (by simp)) (hdis m (by simp)) hnot ht
          exact absurd this (not_lt.mpr hlow)
      · exact htrue hres m hm t ht

end BaseLevel

/-- `ks` is what a pass over `es` keeps, after a version with key `previous`. -/
inductive Sift (oldest : ℕ) (Base : Bytes → Prop) :
    Option InternalKey → List Entry → List Entry → Prop
  | nil {previous} : Sift oldest Base previous [] []
  | keep {previous e es ks} :
      (∀ q, previous = some q → q.userKey = e.key.userKey → oldest < q.sequence) →
      oldest < maxSequenceNumber ∨ (∃ q, previous = some q ∧ q.userKey = e.key.userKey) →
      Sift oldest Base (some e.key) es ks → Sift oldest Base previous (e :: es) (e :: ks)
  | shadowed {previous e es ks} :
      (∃ q, previous = some q ∧ q.userKey = e.key.userKey ∧ q.sequence ≤ oldest) ∨
        maxSequenceNumber ≤ oldest →
      Sift oldest Base (some e.key) es ks → Sift oldest Base previous (e :: es) ks
  | tombstone {previous e es ks} : e.key.type = .deletion → e.key.sequence ≤ oldest →
      Base e.key.userKey →
      Sift oldest Base (some e.key) es ks → Sift oldest Base previous (e :: es) ks

namespace Collector

variable {z : Sizing} {o : CompactionOptions} {p : CompactionPlan} {c c' : Collector}
  {previous : Option InternalKey} {e : Entry} {es : List Entry}

/-- The loop variables after a version with key `previous`, before `es`. -/
structure At (p : CompactionPlan) (previous : Option InternalKey) (es : List Entry)
    (c : Collector) : Prop where
  previousKey : c.previousKey = previous
  first : previous = none → c.lastSequenceForKey = maxSequenceNumber
  current : ∀ k, previous = some k →
    c.currentUserKey = k.userKey ∧ c.lastSequenceForKey = k.sequence
  behind : ∀ x ∈ es, Behind p.inputVersion c.indices x.key.userKey
  sound : c.writer.Sound
  before : ∀ x ∈ c.writer.outputs.flatten, ∀ y ∈ es, x.key < y.key

theorem at_start (es : List Entry) : At p none es {} := by
  refine ⟨rfl, fun _ => rfl, by simp, ?_, OutputWriter.sound_empty, by simp [OutputWriter.outputs]⟩
  intro x _ l t ht
  simp at ht

/-- What decides about `e`, in terms of the version before it. -/
theorem At.drops_spec (h : At p previous (e :: es) c) (hv : p.inputVersion.Ordered)
    {last : ℕ} (hlast : last =
      if c.currentUserKey ≠ e.key.userKey then maxSequenceNumber else c.lastSequenceForKey) :
    Behind p.inputVersion (c.drops p last e.key).2 e.key.userKey ∧
      ((c.drops p last e.key).1 = false →
        (∀ q, previous = some q → q.userKey = e.key.userKey → p.oldestSnapshot < q.sequence) ∧
        (p.oldestSnapshot < maxSequenceNumber ∨
          ∃ q, previous = some q ∧ q.userKey = e.key.userKey)) ∧
      ((c.drops p last e.key).1 = true →
        ((∃ q, previous = some q ∧ q.userKey = e.key.userKey ∧ q.sequence ≤ p.oldestSnapshot) ∨
          maxSequenceNumber ≤ p.oldestSnapshot) ∨
        (e.key.type = .deletion ∧ e.key.sequence ≤ p.oldestSnapshot ∧
          BaseLevel p.inputVersion p.outputLevel e.key.userKey)) := by
  have hbehind := h.behind e (by simp)
  have hne : p.outputLevel ≠ 0 := by simp [CompactionPlan.outputLevel, Fin.succ_ne_zero]
  have hbase := isBaseLevelForKey_spec
    (fun l (_ : l ∈ (List.finRange 3).filter fun l => p.outputLevel < l) => hv.described l)
    (fun l hl => hv.disjoint l (by
      have hlt : p.outputLevel < l := by simpa using hl
      exact ((Fin.pos_iff_ne_zero.mpr hne).trans hlt).ne')) hbehind
  have hkeep : ¬ last ≤ p.oldestSnapshot →
      (∀ q, previous = some q → q.userKey = e.key.userKey → p.oldestSnapshot < q.sequence) ∧
      (p.oldestSnapshot < maxSequenceNumber ∨
        ∃ q, previous = some q ∧ q.userKey = e.key.userKey) := by
    intro hnot
    constructor
    · intro q hq hk
      obtain ⟨hcur, hseq⟩ := h.current q hq
      rw [hlast, hcur, hk, if_neg (by simp), hseq] at hnot
      omega
    · rw [hlast, not_le] at hnot
      split at hnot
      · exact Or.inl hnot
      · rename_i heq
        cases hp : previous with
        | none => exact Or.inl (h.first hp ▸ hnot)
        | some q => exact Or.inr ⟨q, rfl, by rw [← (h.current q hp).1, not_not.mp heq]⟩
  unfold drops
  split
  · rename_i hle
    refine ⟨hbehind, by simp, fun _ => Or.inl ?_⟩
    rw [hlast] at hle
    split at hle
    · exact Or.inr hle
    · rename_i heq
      rw [not_not] at heq
      cases hp : previous with
      | none => exact Or.inr (h.first hp ▸ hle)
      | some q =>
        obtain ⟨hcur, hseq⟩ := h.current q hp
        exact Or.inl ⟨q, rfl, by rw [← hcur, heq], hseq ▸ hle⟩
  · rename_i hnot
    split
    · rename_i hdel
      refine ⟨hbase.1, fun _ => hkeep hnot, fun htrue => Or.inr ⟨hdel.1, hdel.2, ?_⟩⟩
      intro m hm
      exact hbase.2 htrue m (by simpa using hm)
    · exact ⟨hbehind, fun _ => hkeep hnot, by simp⟩

/-- The loop does not fail on ascending input, and keeps what `Sift` keeps. -/
theorem run_spec (hv : p.inputVersion.Ordered) (hasc : Ascending es)
    (hprev : ∀ k, previous = some k → ∀ x ∈ es, k < x.key) (h : At p previous es c) :
    ∃ c' ks, run z o p c es = .ok c' ∧
      Sift p.oldestSnapshot (BaseLevel p.inputVersion p.outputLevel) previous es ks ∧
      c'.writer.outputs.flatten = c.writer.outputs.flatten ++ ks ∧ c'.writer.Sound := by
  induction es generalizing previous c with
  | nil => exact ⟨c, [], rfl, .nil, by simp, h.sound⟩
  | cons e es ih =>
    obtain ⟨he, hes⟩ := List.pairwise_cons.mp hasc
    have hok : (c.previousKey.any fun k => decide ¬ k.Less e.key) = false := by
      rw [h.previousKey]
      cases previous with
      | none => rfl
      | some k => simpa using hprev k rfl e (by simp)
    obtain ⟨hbehind, hkeep, hdrop⟩ := h.drops_spec hv rfl
    have hnext : ∀ x ∈ es, Behind p.inputVersion (c.drops p _ e.key).2 x.key.userKey :=
      fun x hx => hbehind.mono (InternalKey.userKey_le (he x hx).le)
    have hlt : ∀ k, some e.key = some k → ∀ x ∈ es, k < x.key := by
      rintro k hk x hx
      rw [← Option.some.inj hk]
      exact he x hx
    rw [run, step, hok, if_neg Bool.false_ne_true]
    simp only [bind, Except.bind]
    cases hd : (c.drops p (if c.currentUserKey ≠ e.key.userKey then maxSequenceNumber
        else c.lastSequenceForKey) e.key).1 with
    | true =>
      obtain ⟨c', ks, hrun, hsift, hout, hsound⟩ := ih hes hlt
        (c := ⟨some e.key, e.key.userKey, e.key.sequence, _, c.writer⟩)
        ⟨rfl, by simp, by rintro k hk; simp [← Option.some.inj hk], hnext, h.sound,
          fun x hx y hy => h.before x hx y (List.mem_cons_of_mem _ hy)⟩
      refine ⟨c', ks, hrun, ?_, hout, hsound⟩
      rcases hdrop hd with hs | ⟨ht, hle, hb⟩
      · exact .shadowed hs hsift
      · exact .tombstone ht hle hb hsift
    | false =>
      have hw := h.sound.add (z := z) (n := o.outputBytes) fun x hx => h.before x hx e (by simp)
      obtain ⟨c', ks, hrun, hsift, hout, hsound⟩ := ih hes hlt
        (c := ⟨some e.key, e.key.userKey, e.key.sequence, _, c.writer.add z o.outputBytes e⟩)
        ⟨rfl, by simp, by rintro k hk; simp [← Option.some.inj hk], hnext, hw, by
          intro x hx y hy
          rw [OutputWriter.outputs_add, List.mem_append] at hx
          rcases hx with hx | hx
          · exact h.before x hx y (List.mem_cons_of_mem _ hy)
          · rw [List.mem_singleton.mp hx]
            exact he y hy⟩
      refine ⟨c', e :: ks, hrun, .keep (hkeep hd).1 (hkeep hd).2 hsift, ?_, hsound⟩
      rw [hout, OutputWriter.outputs_add]
      simp

end Collector

end Mizu.Lsm
