import Mizu.Raft.Shape
import Mathlib.Order.Bounds.Basic

/-!
# The Raft log on `uint64`

`raft/log.go` once more, now with every addition and subtraction on `uint64`. `RaftLog` has indices
without a bound; as long as no entry stands at the last index of `uint64`, the functions here are
those of `RaftLog`. Both refine a partial map from indices to entries. At the last index
`LastIndex() + 1` is zero, and the log forgets what it holds.
-/

namespace Mizu

/-- `a + b` on `uint64`. -/
def add64 (a b : ℕ) : ℕ := (a + b) % 2 ^ 64

theorem add64_of_lt {a b : ℕ} (h : a + b < 2 ^ 64) : add64 a b = a + b := Nat.mod_eq_of_lt h

namespace WrappedLog

variable (l : RaftLog)

def lastIndex : ℕ := sub64 (add64 l.offset l.entries.length) 1

def term (i : ℕ) : Option ℕ :=
  if i < l.offset ∨ i > lastIndex l then some 0
  else l.entries[sub64 i l.offset]?.map Entry.term

def entry (i : ℕ) : Option Entry := l.entries[sub64 i l.offset]?

def slice (lo hi : ℕ) : Option (List Entry) :=
  let lo := if lo < l.offset then l.offset else lo
  let hi := if hi > add64 (lastIndex l) 1 then add64 (lastIndex l) 1 else hi
  if lo ≥ hi then some []
  else
    let first := sub64 lo l.offset
    let past := sub64 hi l.offset
    if first ≤ past ∧ past ≤ l.entries.length then some ((l.entries.take past).drop first) else none

def truncateAndAppend (prevIndex : ℕ) (es : List Entry) : Option RaftLog :=
  let pos := add64 (sub64 prevIndex l.offset) 1
  if pos ≤ l.entries.length then some { l with entries := l.entries.take pos ++ es } else none

def truncate (index : ℕ) : Option RaftLog :=
  if index < l.offset then some l
  else
    let cut := sub64 index l.offset
    if cut ≤ l.entries.length then some { l with entries := l.entries.take cut } else none

def matchTerm (index t : ℕ) : Option Bool :=
  if index < l.offset ∨ index > lastIndex l then some false
  else (term l index).map fun u => decide (u = t)

/-- The loop of `FindLastIndexOfTerm`; `none` when it has not ended. -/
def findFrom (t : ℕ) : ℕ → ℕ → Option (Option ℕ)
  | 0, _ => none
  | fuel + 1, i =>
    if i ≥ l.firstIndex then do
      let u ← term l i
      if u = t then some (some i)
      else if i = l.firstIndex then some none
      else findFrom t fuel (sub64 i 1)
    else some none

def findLastIndexOfTerm (fuel t : ℕ) : Option (Option ℕ) := findFrom l t fuel (lastIndex l)

def compactTo (index t : ℕ) : Option RaftLog :=
  if index ≤ l.offset then some l
  else do
    let last := lastIndex l
    let index := if index > last then last else index
    let rest ← if index < last then slice l (add64 index 1) (add64 last 1) else some []
    some { entries := { index := index, term := t } :: rest, offset := index }

/-! ### Without an entry at the last index -/

/-- A sentinel, and every entry at its own index. -/
structure Contiguous : Prop where
  sentinel : l.entries ≠ []
  numbered : l.Numbered
  fits : l.endIndex ≤ 2 ^ 64

/-- No entry stands at the last index of `uint64`. -/
def Below : Prop := l.endIndex < 2 ^ 64

variable {l}

section

variable {i t : ℕ}

theorem Contiguous.offset_lt (h : Contiguous l) : l.offset < l.endIndex := by
  have := List.length_pos_iff.mpr h.sentinel
  unfold RaftLog.endIndex
  omega

theorem lastIndex_eq (hb : Below l) : lastIndex l = l.lastIndex := by
  rw [lastIndex, add64_of_lt hb, RaftLog.lastIndex]
  rfl

theorem lastIndex_eq_of_le (hle : l.endIndex ≤ 2 ^ 64) :
    lastIndex l = l.lastIndex := by
  rcases hle.lt_or_eq with hlt | heq
  · exact lastIndex_eq hlt
  · have hend : l.offset + l.entries.length = 2 ^ 64 := heq
    rw [lastIndex, add64, hend, RaftLog.lastIndex, heq]
    decide

theorem lastIndex_add_one (h : Contiguous l) (hb : Below l) :
    add64 (lastIndex l) 1 = l.endIndex := by
  have hlt := h.offset_lt
  rw [lastIndex_eq hb, RaftLog.lastIndex_of_pos (by omega), add64_of_lt, Nat.sub_add_cancel]
  · omega
  · unfold Below at hb
    omega

theorem term_eq (hb : Below l) (i : ℕ) : term l i = l.term i := by
  rw [term, RaftLog.term, lastIndex_eq hb]
  by_cases hi : i < l.offset ∨ i > l.lastIndex
  · rw [if_pos hi, if_pos hi]
  · rw [if_neg hi, if_neg hi, sub64_of_le (by omega)]

/-- Outside of the log `Entry` panics: a position that wraps around is past every slice. -/
theorem entry_eq (hb : Below l) (i : ℕ) : entry l i = l.entry i := by
  have hend : l.endIndex = l.offset + l.entries.length := rfl
  by_cases hle : l.offset ≤ i
  · rw [entry, sub64_of_le hle, RaftLog.entry, if_pos hle]
  · unfold Below at hb
    rw [entry, RaftLog.entry, if_neg hle, List.getElem?_eq_none_iff, sub64, if_neg hle]
    omega

theorem slice_eq (h : Contiguous l) (hb : Below l) (lo hi : ℕ) :
    slice l lo hi = some (l.slice lo hi) := by
  have hend : l.endIndex = l.offset + l.entries.length := rfl
  have hlo : (if lo < l.offset then l.offset else lo) = max lo l.offset := by
    split_ifs <;> omega
  have hhi : (if hi > l.endIndex then l.endIndex else hi) = min hi l.endIndex := by
    split_ifs <;> omega
  unfold slice RaftLog.slice
  rw [lastIndex_add_one h hb, hlo, hhi]
  by_cases hempty : max lo l.offset ≥ min hi l.endIndex
  · have hnil : (l.entries.take (min hi l.endIndex - l.offset)).drop (max lo l.offset - l.offset) =
        [] := by
      rw [List.drop_eq_nil_iff, List.length_take]
      omega
    rw [if_pos hempty, hnil]
  · rw [if_neg hempty, sub64_of_le (by omega), sub64_of_le (by omega), if_pos (by omega)]

theorem truncateAndAppend_eq (hb : Below l) {prev : ℕ} (hfirst : l.offset ≤ prev)
    (hlast : prev < l.endIndex) (es : List Entry) :
    truncateAndAppend l prev es = l.truncateAndAppend prev es := by
  have hend : l.endIndex = l.offset + l.entries.length := rfl
  have hpos : add64 (sub64 prev l.offset) 1 = prev + 1 - l.offset := by
    unfold Below at hb
    rw [sub64_of_le hfirst, add64_of_lt (by omega)]
    omega
  rw [truncateAndAppend, RaftLog.truncateAndAppend, hpos, if_pos (by omega), if_pos (by omega)]

theorem truncate_eq (hfirst : l.offset ≤ i) : truncate l i = l.truncate i := by
  have hend : l.endIndex = l.offset + l.entries.length := rfl
  have hcut : i - l.offset ≤ l.entries.length ↔ i ≤ l.endIndex := by omega
  rw [truncate, RaftLog.truncate, if_neg (not_lt.mpr hfirst), if_neg (not_lt.mpr hfirst),
    sub64_of_le hfirst]
  simp only [hcut]

theorem compactTo_eq (h : Contiguous l) (hb : Below l) (hfirst : l.offset < i)
    (hlast : i < l.endIndex) (t : ℕ) : compactTo l i t = some (l.compactTo i t) := by
  have hlastIndex : l.lastIndex = l.endIndex - 1 := RaftLog.lastIndex_of_pos (by omega)
  have hnext : add64 i 1 = i + 1 := by
    unfold Below at hb
    exact add64_of_lt (by omega)
  have hend : add64 l.lastIndex 1 = l.endIndex := by
    rw [← lastIndex_eq hb, lastIndex_add_one h hb]
  rw [compactTo, RaftLog.compactTo, if_neg (not_le.mpr hfirst), if_neg (not_le.mpr hfirst)]
  have hinside : ¬l.lastIndex < i := by omega
  simp only [lastIndex_eq hb, gt_iff_lt, hinside, if_false, hnext, hend]
  by_cases hi : i < l.lastIndex
  · rw [if_pos hi, if_pos hi, slice_eq h hb]
    rfl
  · rw [if_neg hi, if_neg hi]
    rfl

/-- A slice that reaches one index further has the entry there, if there is one. -/
theorem slice_succ (lo n : ℕ) :
    l.slice lo (lo + n + 1) = l.slice lo (lo + n) ++ (l.entry (lo + n)).toList := by
  unfold RaftLog.slice
  dsimp only
  by_cases hoff : l.offset ≤ lo + n
  · by_cases hend : lo + n < l.endIndex
    · have hlen : lo + n - l.offset < l.entries.length := by
        unfold RaftLog.endIndex at hend
        omega
      have hnext : min (lo + n + 1) l.endIndex - l.offset = (lo + n - l.offset) + 1 := by omega
      have hthis : min (lo + n) l.endIndex - l.offset = lo + n - l.offset := by omega
      rw [hnext, hthis, List.take_add_one, List.drop_append_of_le_length, RaftLog.entry,
        if_pos hoff]
      rw [List.length_take]
      omega
    · rw [RaftLog.entry_eq_none_iff.mpr (.inr (not_lt.mp hend)), Nat.min_eq_right (by omega),
        Nat.min_eq_right (by omega), Option.toList_none, List.append_nil]
  · have hzero (k : ℕ) (hk : k ≤ l.offset) : min k l.endIndex - l.offset = 0 := by omega
    rw [RaftLog.entry_eq_none_iff.mpr (.inl (not_le.mp hoff)), hzero _ (by omega),
      hzero _ (by omega)]
    simp

/-- A slice has the entries of its indices, in order. -/
theorem slice_eq_filterMap (lo hi : ℕ) :
    l.slice lo hi = (List.range' lo (hi - lo)).filterMap l.entry := by
  by_cases hle : lo ≤ hi
  · obtain ⟨n, rfl⟩ := Nat.exists_eq_add_of_le hle
    rw [Nat.add_sub_cancel_left]
    clear hle
    induction n with
    | zero => simp [RaftLog.slice]
    | succ n ih =>
      rw [← Nat.add_assoc, slice_succ, ih, List.range'_concat, List.filterMap_append]
      cases hentry : l.entry (lo + n) <;> simp [hentry]
  · rw [Nat.sub_eq_zero_of_le (by omega)]
    simp only [List.range'_zero, List.filterMap_nil, RaftLog.slice]
    rw [List.drop_eq_nil_iff, List.length_take]
    omega

/-- One round of the loop. -/
theorem findFrom_succ (hb : Below l) {e : Entry} (he : l.entry i = some e) (t fuel : ℕ) :
    findFrom l t (fuel + 1) i =
      if e.term = t then some (some i)
      else if i = l.offset then some none
      else findFrom l t fuel (sub64 i 1) := by
  have hge : i ≥ l.firstIndex := (RaftLog.entry_bounds he).1
  rw [findFrom, if_pos hge, term_eq hb, RaftLog.term_of_entry he]
  rfl

/-- The loop from `offset + n` on ends, at the greatest index with the term if there is one. -/
def FindsFrom (l : RaftLog) (t n : ℕ) : Prop :=
  ∃ r, (∀ fuel, n < fuel → findFrom l t fuel (l.offset + n) = some r) ∧
    (∀ i ∈ r, ∃ e, l.entry i = some e ∧ e.term = t) ∧
    ∀ i e, l.entry i = some e → i ≤ l.offset + n → e.term = t → ∃ j ∈ r, i ≤ j

theorem findsFrom_of_eq (hb : Below l) {n : ℕ} {e : Entry} (he : l.entry (l.offset + n) = some e)
    (ht : e.term = t) : FindsFrom l t n := by
  refine ⟨some (l.offset + n), ?_, ?_, ?_⟩
  · intro fuel hfuel
    obtain ⟨fuel, rfl⟩ := Nat.exists_eq_add_of_lt hfuel
    rw [findFrom_succ hb he, if_pos ht]
  · rintro i ⟨⟩
    exact ⟨e, he, ht⟩
  · intro i _ _ hle _
    exact ⟨_, rfl, hle⟩

theorem findsFrom (hb : Below l) (t : ℕ) {n : ℕ} (hn : l.offset + n < l.endIndex) :
    FindsFrom l t n := by
  induction n with
  | zero =>
    obtain ⟨e, he⟩ := RaftLog.exists_entry (Nat.le_add_right _ _) hn
    by_cases ht : e.term = t
    · exact findsFrom_of_eq hb he ht
    refine ⟨none, ?_, by simp, ?_⟩
    · intro fuel hfuel
      obtain ⟨fuel, rfl⟩ := Nat.exists_eq_add_of_lt hfuel
      rw [findFrom_succ hb he, if_neg ht, if_pos (Nat.add_zero _)]
    · intro i d hd hle hterm
      obtain rfl : i = l.offset + 0 := le_antisymm hle (RaftLog.entry_bounds hd).1
      obtain rfl : e = d := Option.some.inj (he.symm.trans hd)
      exact absurd hterm ht
  | succ n ih =>
    obtain ⟨e, he⟩ := RaftLog.exists_entry (Nat.le_add_right _ _) hn
    by_cases ht : e.term = t
    · exact findsFrom_of_eq hb he ht
    obtain ⟨r, hr, hfound, hgreatest⟩ := ih (by omega)
    refine ⟨r, ?_, hfound, ?_⟩
    · intro fuel hfuel
      obtain ⟨fuel, rfl⟩ := Nat.exists_eq_add_of_lt hfuel
      rw [findFrom_succ hb he, if_neg ht, if_neg (by omega), sub64_of_le (by omega),
        ← Nat.add_assoc, Nat.add_sub_cancel]
      exact hr _ (by omega)
    · intro i d hd hle hterm
      rcases Nat.lt_or_ge i (l.offset + (n + 1)) with hlt | hge
      · exact hgreatest i d hd (by omega) hterm
      · obtain rfl : i = l.offset + (n + 1) := le_antisymm hle hge
        obtain rfl : e = d := Option.some.inj (he.symm.trans hd)
        exact absurd hterm ht

end

/-! ### The abstract log -/

/-- Which entry stands at an index. -/
abbrev LogMap := ℕ → Option Entry

/-- What the log answers is what the map says. -/
structure Answers (l : RaftLog) (m : LogMap) : Prop where
  first : IsLeast {i | (m i).isSome} l.firstIndex
  last : IsGreatest {i | (m i).isSome} (lastIndex l)
  lastTerm : ∀ e, m (lastIndex l) = some e → l.lastTerm = e.term
  term : ∀ i, term l i = some (((m i).map Entry.term).getD 0)
  entry : ∀ i, entry l i = m i
  slice : ∀ lo hi, slice l lo hi = some ((List.range' lo (hi - lo)).filterMap m)
  matchTerm : ∀ i t, matchTerm l i t = some (decide (((m i).map Entry.term) = some t))
  findLast : ∀ t, ∃ r, (∀ fuel, l.entries.length ≤ fuel → findLastIndexOfTerm l fuel t = some r) ∧
    match r with
    | some i => IsGreatest {i | ∃ e, m i = some e ∧ e.term = t} i
    | none => ∀ i e, m i = some e → e.term ≠ t

theorem answers (h : Contiguous l) (hb : Below l) : Answers l l.entry := by
  have hlt := h.offset_lt
  have hlast : lastIndex l = l.endIndex - 1 := by
    rw [lastIndex_eq hb, RaftLog.lastIndex_of_pos (by omega)]
  have hterm (i : ℕ) : term l i = some (((l.entry i).map Entry.term).getD 0) := by
    obtain ⟨t, ht⟩ := RaftLog.exists_term (by omega : 0 < l.endIndex) i
    rw [term_eq hb, ht]
    rcases RaftLog.term_eq ht with ⟨e, he, rfl⟩ | ⟨hnone, rfl⟩
    · simp [he]
    · simp [hnone]
  refine ⟨?_, ?_, ?_, hterm, entry_eq hb, ?_, ?_, ?_⟩
  · refine ⟨RaftLog.entry_isSome_iff.mpr ⟨le_rfl, hlt⟩, ?_⟩
    intro i hi
    exact (RaftLog.entry_isSome_iff.mp hi).1
  · refine ⟨RaftLog.entry_isSome_iff.mpr (by omega), ?_⟩
    intro i hi
    have := (RaftLog.entry_isSome_iff.mp hi).2
    omega
  · intro e he
    rw [hlast] at he
    exact RaftLog.lastTerm_of_entry he
  · intro lo hi
    rw [slice_eq h hb, slice_eq_filterMap]
  · intro i t
    rw [← RaftLog.matchTerm_eq (by omega), matchTerm, RaftLog.matchTerm, lastIndex_eq hb,
      term_eq hb]
  · intro t
    obtain ⟨n, hn⟩ := Nat.exists_eq_add_of_le (by omega : l.offset ≤ l.endIndex - 1)
    obtain ⟨r, hr, hfound, hgreatest⟩ := findsFrom hb t (by omega : l.offset + n < l.endIndex)
    refine ⟨r, ?_, ?_⟩
    · intro fuel hfuel
      rw [findLastIndexOfTerm, hlast, hn]
      have hend : l.endIndex = l.offset + l.entries.length := rfl
      exact hr fuel (by omega)
    · cases r with
      | some i =>
        refine ⟨hfound i rfl, ?_⟩
        rintro j ⟨e, he, ht⟩
        have := RaftLog.entry_bounds he
        obtain ⟨k, hk, hle⟩ := hgreatest j e he (by omega) ht
        cases hk
        exact hle
      | none =>
        intro i e he ht
        have := RaftLog.entry_bounds he
        obtain ⟨k, hk, -⟩ := hgreatest i e he (by omega) ht
        cases hk

/-! ### Operations -/

inductive LogOp
  | append (es : List Entry)
  | truncateAndAppend (prevIndex : ℕ) (es : List Entry)
  | truncate (index : ℕ)
  | compactTo (index t : ℕ)
  | restore (snapIndex snapTerm : ℕ)
deriving DecidableEq

namespace LogOp

/-- The operation of the source. -/
def apply (l : RaftLog) : LogOp → Option RaftLog
  | append es => some (l.append es)
  | truncateAndAppend prevIndex es => WrappedLog.truncateAndAppend l prevIndex es
  | truncate index => WrappedLog.truncate l index
  | compactTo index t => WrappedLog.compactTo l index t
  | restore snapIndex snapTerm => some (RaftLog.restore snapIndex snapTerm)

/-- The operation on the map; entries are put at the index that they carry. -/
def onMap (m : LogMap) : LogOp → LogMap
  | append es => fun i => (m i).or (es.find? (·.index = i))
  | truncateAndAppend prevIndex es => fun i => if i ≤ prevIndex then m i else es.find? (·.index = i)
  | truncate index => fun i => if i < index then m i else none
  | compactTo index t => fun i =>
    if index < i then m i else if i = index then some { index := index, term := t } else none
  | restore snapIndex snapTerm => fun i =>
    if i = snapIndex then some { index := snapIndex, term := snapTerm } else none

/-- Entries numbered from an index on, all of them `uint64`. -/
def NumberedFrom (n : ℕ) (es : List Entry) : Prop :=
  (∀ (k : ℕ) e, es[k]? = some e → e.index = n + k) ∧ n + es.length ≤ 2 ^ 64

/-- The arguments that an operation is called with. -/
def Allowed (l : RaftLog) : LogOp → Prop
  | append es => NumberedFrom l.endIndex es
  | truncateAndAppend prevIndex es =>
    l.firstIndex ≤ prevIndex ∧ prevIndex < l.endIndex ∧ NumberedFrom (prevIndex + 1) es
  | truncate index => l.firstIndex < index ∧ index ≤ l.endIndex
  | compactTo index t => l.firstIndex < index ∧ index < l.endIndex ∧ WrappedLog.term l index =
      some t
  | restore snapIndex _ => snapIndex < 2 ^ 64

/-- Nothing is put at the last index of `uint64`. -/
def Low (l : RaftLog) : LogOp → Prop
  | append es => l.endIndex + es.length < 2 ^ 64
  | truncateAndAppend prevIndex es => prevIndex + 1 + es.length < 2 ^ 64
  | truncate _ | compactTo _ _ => True
  | restore snapIndex _ => snapIndex + 1 < 2 ^ 64

variable {l : RaftLog} {m : LogMap}

section

variable {n i : ℕ} {es : List Entry} (h : ∀ (k : ℕ) e, es[k]? = some e → e.index = n + k)

include h

/-- Numbered entries stand where a list of them is indexed. -/
theorem find?_of_numbered (hi : n ≤ i) :
    es.find? (·.index = i) = es[i - n]? := by
  induction es generalizing n with
  | nil => rfl
  | cons e es ih =>
    have hhead : e.index = n := h 0 e rfl
    by_cases heq : n = i
    · subst heq
      simp [hhead]
    · have htail := ih (n := n + 1) (fun k d hd => by rw [h (k + 1) d hd]; omega) (by omega)
      have hpos : i - n = (i - (n + 1)) + 1 := by omega
      rw [List.find?_cons_of_neg (by simpa [hhead] using heq), htail, hpos, List.getElem?_cons_succ]

theorem find?_eq_none_of_numbered (hi : i < n) :
    es.find? (·.index = i) = none := by
  rw [List.find?_eq_none]
  intro e he
  obtain ⟨k, hk⟩ := List.mem_iff_getElem?.mp he
  have hindex := h k e hk
  simp only [decide_eq_true_eq]
  omega

end

theorem contiguous_of_below {l' : RaftLog} (hlt : l'.offset < l'.endIndex) (hn : l'.Numbered)
    (hb : Below l') : Contiguous l' ∧ Below l' := by
  refine ⟨⟨?_, hn, le_of_lt hb⟩, hb⟩
  rw [← List.length_pos_iff]
  unfold RaftLog.endIndex at hlt
  omega

/-- One operation. -/
theorem step {op : LogOp} (h : Contiguous l) (hb : Below l) (hop : op.Allowed l) (hlow : op.Low l) :
    ∃ l', op.apply l = some l' ∧ (Contiguous l' ∧ Below l') ∧ l'.entry = op.onMap l.entry := by
  have hlt := h.offset_lt
  cases op with
  | append es =>
    refine ⟨_, rfl, contiguous_of_below ?_ (h.numbered.append hop.1) ?_, ?_⟩
    · rw [RaftLog.append_endIndex, RaftLog.append_offset]
      omega
    · rw [Below, RaftLog.append_endIndex]
      exact hlow
    · funext i
      rw [RaftLog.entry_append]
      dsimp only [onMap]
      by_cases hi : i < l.endIndex
      · rw [if_pos hi, find?_eq_none_of_numbered hop.1 hi, Option.or_none]
      · rw [if_neg hi, RaftLog.entry_eq_none_iff.mpr (.inr (not_lt.mp hi)), Option.none_or,
          find?_of_numbered hop.1 (not_lt.mp hi)]
  | truncateAndAppend prevIndex es =>
    obtain ⟨hfirst, hlast, hes, -⟩ := hop
    obtain ⟨l', hl'⟩ : ∃ l', l.truncateAndAppend prevIndex es = some l' :=
      ⟨_, if_pos ⟨Nat.le_succ_of_le hfirst, hlast⟩⟩
    obtain ⟨-, -, hoff, hend, hentry⟩ := RaftLog.truncateAndAppend_eq hl'
    refine ⟨l', ?_, contiguous_of_below ?_ (h.numbered.truncateAndAppend hes hl') ?_, ?_⟩
    · rw [apply, truncateAndAppend_eq hb hfirst hlast, hl']
    · have hle : l.offset ≤ prevIndex := hfirst
      omega
    · rw [Below, hend]
      exact hlow
    · funext i
      rw [hentry]
      dsimp only [onMap]
      by_cases hi : i ≤ prevIndex
      · rw [if_pos hi, if_pos hi]
      · rw [if_neg hi, if_neg hi, find?_of_numbered hes (by omega)]
  | truncate index =>
    obtain ⟨hfirst, hlast⟩ := hop
    obtain ⟨l', hl'⟩ := RaftLog.exists_truncate hlast
    have hle : l.offset ≤ index := Nat.le_of_lt hfirst
    obtain ⟨hoff, hend, -, hentry⟩ := RaftLog.truncate_eq hle hl'
    refine ⟨l', ?_, contiguous_of_below ?_ (h.numbered.truncate hl') ?_, ?_⟩
    · rw [apply, truncate_eq hle, hl']
    · rw [hoff, hend]
      exact hfirst
    · rw [Below, hend]
      exact lt_of_le_of_lt hlast hb
    · funext i
      exact hentry i
  | compactTo index t =>
    obtain ⟨hfirst, hlast, -⟩ := hop
    obtain ⟨hoff, hend, hentry⟩ := RaftLog.compactTo_eq t hfirst hlast
    refine ⟨_, compactTo_eq h hb hfirst hlast t,
      contiguous_of_below ?_ (h.numbered.compactTo hfirst) ?_, ?_⟩
    · rw [hoff, hend]
      exact hlast
    · rw [Below, hend]
      exact hb
    · funext i
      rw [hentry]
      dsimp only [onMap]
      split_ifs <;> first | rfl | omega
  | restore snapIndex snapTerm =>
    refine ⟨_, rfl, contiguous_of_below (Nat.lt_succ_self _) (.restore _ _) hlow, ?_⟩
    funext i
    exact RaftLog.entry_restore snapIndex snapTerm i

/-- A condition on every operation of a sequence, at the log that it is applied to. -/
def Along (P : RaftLog → LogOp → Prop) : RaftLog → List LogOp → Prop
  | _, [] => True
  | l, op :: ops => P l op ∧ ∀ l', op.apply l = some l' → Along P l' ops

theorem run {ops : List LogOp} (h : Contiguous l) (hb : Below l) (hops : Along Allowed l ops)
    (hlow : Along Low l ops) :
    ∃ l', ops.foldlM apply l = some l' ∧ (Contiguous l' ∧ Below l') ∧
      l'.entry = ops.foldl onMap l.entry := by
  induction ops generalizing l with
  | nil => exact ⟨l, rfl, ⟨h, hb⟩, rfl⟩
  | cons op ops ih =>
    obtain ⟨l₁, hl₁, ⟨h₁, hb₁⟩, hmap⟩ := step h hb hops.1 hlow.1
    obtain ⟨l', hl', hgood, hrest⟩ := ih h₁ hb₁ (hops.2 l₁ hl₁) (hlow.2 l₁ hl₁)
    refine ⟨l', ?_, hgood, ?_⟩
    · rw [List.foldlM_cons, hl₁]
      exact hl'
    · rw [hrest, hmap, List.foldl_cons]

end LogOp

/-- Compaction changes no term from the new sentinel on and nothing above it. -/
theorem compactTo_keeps (h : Contiguous l) (hb : Below l) {index t : ℕ}
    (hop : LogOp.Allowed l (.compactTo index t)) :
    ∃ l', compactTo l index t = some l' ∧ (∀ j, index ≤ j → term l' j = term l j) ∧
      (∀ j, index < j → entry l' j = entry l j) ∧
      ∀ lo hi, index < lo → slice l' lo hi = slice l lo hi := by
  obtain ⟨l', hl', ⟨h', hb'⟩, hmap⟩ := LogOp.step h hb hop trivial
  have habove (j : ℕ) (hj : index < j) : l'.entry j = l.entry j := by
    rw [hmap]
    exact if_pos hj
  have hanswers := answers h hb
  have hanswers' := answers h' hb'
  refine ⟨l', hl', ?_, ?_, ?_⟩
  · intro j hj
    rcases hj.eq_or_lt with rfl | hj
    · have hsentinel : l'.entry index = some { index := index, term := t } := by
        rw [hmap]
        dsimp only [LogOp.onMap]
        rw [if_neg (lt_irrefl _), if_pos rfl]
      rw [hanswers'.term, hsentinel, hop.2.2]
      rfl
    · rw [hanswers'.term, hanswers.term, habove j hj]
  · intro j hj
    rw [hanswers'.entry, hanswers.entry, habove j hj]
  · intro lo hi hlo
    rw [hanswers'.slice, hanswers.slice]
    congr 1
    apply List.filterMap_congr
    intro j hj
    exact habove j (lt_of_lt_of_le hlo (List.mem_range'_1.mp hj).1)

/-- The operations of the log refine those of a partial map from indices to entries, as long as
nothing is put at the last index of `uint64`: no operation panics, the log stays contiguous with its
sentinel, it answers as the map does, and compaction changes no answer above the new sentinel. -/
theorem raft_log_refines_map (h : Contiguous l) (hb : Below l) (ops : List LogOp)
    (hops : LogOp.Along LogOp.Allowed l ops) (hlow : LogOp.Along LogOp.Low l ops) :
    ∃ l', ops.foldlM LogOp.apply l = some l' ∧ Contiguous l' ∧
      Answers l' (ops.foldl LogOp.onMap l.entry) ∧
      ∀ index t, LogOp.Allowed l' (.compactTo index t) →
        ∃ l'', compactTo l' index t = some l'' ∧ (∀ j, index ≤ j → term l'' j = term l' j) ∧
          (∀ j, index < j → entry l'' j = entry l' j) ∧
          ∀ lo hi, index < lo → slice l'' lo hi = slice l' lo hi := by
  obtain ⟨l', hl', ⟨h', hb'⟩, hmap⟩ := LogOp.run h hb hops hlow
  refine ⟨l', hl', h', ?_, fun index t => compactTo_keeps h' hb'⟩
  rw [← hmap]
  exact answers h' hb'

/-- Two entries are appended to a new log and the first one is compacted away. -/
theorem raft_log_refines_map_small :
    ∃ l', [LogOp.append [{ term := 1, index := 1 }, { term := 2, index := 2 }],
        LogOp.compactTo 1 1].foldlM LogOp.apply newRaftLog = some l' ∧
      Contiguous l' ∧ term l' 2 = some 2 := by
  obtain ⟨hnew, hbelow⟩ : Contiguous newRaftLog ∧ Below newRaftLog :=
    LogOp.contiguous_of_below (by decide) (RaftLog.Numbered.restore 0 0)
      (by decide : 0 + 1 < 2 ^ 64)
  have hes : LogOp.NumberedFrom 1 [{ term := 1, index := 1 }, { term := 2, index := 2 }] := by
    refine ⟨?_, by decide⟩
    rintro (_ | _ | k) e he <;> cases he <;> rfl
  obtain ⟨l', hl', hgood, hanswers, -⟩ := raft_log_refines_map hnew hbelow
    [.append [{ term := 1, index := 1 }, { term := 2, index := 2 }], .compactTo 1 1]
    ⟨hes, by rintro _ ⟨⟩; exact ⟨⟨by decide, by decide, by decide +kernel⟩, fun _ _ => trivial⟩⟩
    ⟨(by decide : 1 + 2 < 2 ^ 64), by rintro _ ⟨⟩; exact ⟨trivial, fun _ _ => trivial⟩⟩
  exact ⟨l', hl', hgood, (hanswers.term 2).trans (by decide +kernel)⟩

/-! ### At the last index -/

/-- A log that ends at the last index of `uint64`. -/
def fullLog : RaftLog where
  entries := [{ term := 1, index := 2 ^ 64 - 3 }, { term := 1, index := 2 ^ 64 - 2 },
    { term := 1, index := 2 ^ 64 - 1 }]
  offset := 2 ^ 64 - 3

theorem contiguous_fullLog : Contiguous fullLog := by
  have hes : ∀ (k : ℕ) e, (fullLog.entries.drop 1)[k]? = some e →
      e.index = (RaftLog.restore (2 ^ 64 - 3) 1).endIndex + k := by
    rintro (_ | _ | k) e he <;> cases he <;> rfl
  exact ⟨by decide, (RaftLog.Numbered.restore _ _).append hes, by decide +kernel⟩

/-- `LastIndex() + 1` is zero there: `Slice` returns nothing of what the log holds, and compaction
loses the entry above the new sentinel. -/
theorem fullLog_forgets :
    Contiguous fullLog ∧ LogOp.Allowed fullLog (.compactTo (2 ^ 64 - 2) 1) ∧
      (List.range' (2 ^ 64 - 3) 2).filterMap fullLog.entry = fullLog.entries.take 2 ∧
      slice fullLog (2 ^ 64 - 3) (2 ^ 64 - 1) = some [] ∧
      term fullLog (2 ^ 64 - 1) = some 1 ∧
      (compactTo fullLog (2 ^ 64 - 2) 1).bind (fun l => term l (2 ^ 64 - 1)) = some 0 := by
  refine ⟨contiguous_fullLog, ⟨by decide +kernel, by decide +kernel, by decide +kernel⟩,
    by decide +kernel, by decide +kernel, by decide +kernel, by decide +kernel⟩

end WrappedLog

end Mizu
