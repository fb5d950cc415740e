import Mizu.Raft.Types

/-!
# The in-memory Raft log

`raft/log.go`. `entries[0]` is a sentinel whose index is `offset`. An operation
that indexes or slices `entries` returns `none` where the access is out of
range, which is a run-time panic in Go. Positions are `uint64` differences with
`offset`: one that wraps around is larger than any slice, and a bound above the
length counts as out of range.

`LastIndex()` wraps to `2^64 - 1` on an empty log at offset zero, and
`LastIndex() + 1` wraps back, so the latter is always `offset + len(entries)`,
written `endIndex`.
-/

namespace Mizu

structure RaftLog where
  entries : List Entry
  offset : ℕ
  deriving DecidableEq, Repr

def newRaftLog : RaftLog := { entries := [{ term := 0, index := 0 }], offset := 0 }

namespace RaftLog

variable (l : RaftLog)

/-- The index of the sentinel. -/
def firstIndex : ℕ := l.offset

/-- `LastIndex() + 1`. -/
def endIndex : ℕ := l.offset + l.entries.length

def lastIndex : ℕ := sub64 l.endIndex 1

def lastTerm : ℕ := (l.entries.getLast?.map Entry.term).getD 0

/-- The term at index `i`, zero outside the log. -/
def term (i : ℕ) : Option ℕ :=
  if i < l.offset ∨ l.lastIndex < i then some 0
  else l.entries[i - l.offset]?.map Entry.term

def entry (i : ℕ) : Option Entry :=
  if l.offset ≤ i then l.entries[i - l.offset]? else none

/-- The entries with index in `[lo, hi)`, clipped to the log. -/
def slice (lo hi : ℕ) : List Entry :=
  let lo := max lo l.offset
  let hi := min hi l.endIndex
  (l.entries.take (hi - l.offset)).drop (lo - l.offset)

def append (es : List Entry) : RaftLog := { l with entries := l.entries ++ es }

/-- Keep the log up to `prevIndex` and append `es`. The cut `prevIndex - offset + 1`
is zero, and drops the sentinel, when `prevIndex` is right below it. -/
def truncateAndAppend (prevIndex : ℕ) (es : List Entry) : Option RaftLog :=
  if l.offset ≤ prevIndex + 1 ∧ prevIndex + 1 ≤ l.endIndex then
    some { l with entries := l.entries.take (prevIndex + 1 - l.offset) ++ es }
  else none

/-- Drop the entries from `index` on. -/
def truncate (index : ℕ) : Option RaftLog :=
  if index < l.offset then some l
  else if index ≤ l.endIndex then some { l with entries := l.entries.take (index - l.offset) }
  else none

def matchTerm (index t : ℕ) : Option Bool :=
  if index < l.offset ∨ l.lastIndex < index then some false
  else (l.term index).map fun u => decide (u = t)

/-- The downward scan of `FindLastIndexOfTerm` from `offset + n` to `offset`. -/
def findFrom (t : ℕ) : ℕ → Option (Option ℕ)
  | 0 => do
    let u ← l.term l.offset
    if u = t then some (some l.offset) else some none
  | n + 1 => do
    let u ← l.term (l.offset + (n + 1))
    if u = t then some (some (l.offset + (n + 1))) else findFrom t n

def findLastIndexOfTerm (t : ℕ) : Option (Option ℕ) :=
  if l.firstIndex ≤ l.lastIndex then l.findFrom t (l.lastIndex - l.firstIndex) else some none

def compactTo (index t : ℕ) : RaftLog :=
  if index ≤ l.offset then l
  else
    let last := l.lastIndex
    let index := if last < index then last else index
    let rest := if index < last then l.slice (index + 1) l.endIndex else []
    { entries := { index := index, term := t } :: rest, offset := index }

def restore (snapIndex snapTerm : ℕ) : RaftLog :=
  { entries := [{ term := snapTerm, index := snapIndex }], offset := snapIndex }

/-! ### What the operations do to the entry at an index -/

variable {l} {i : ℕ}

theorem entry_isSome_iff : (l.entry i).isSome ↔ l.offset ≤ i ∧ i < l.endIndex := by
  unfold entry endIndex
  split_ifs with h
  · rw [Option.isSome_iff_ne_none, ne_eq, List.getElem?_eq_none_iff]
    omega
  · simp [h]

theorem entry_eq_none_iff : l.entry i = none ↔ i < l.offset ∨ l.endIndex ≤ i := by
  rw [← Option.not_isSome_iff_eq_none, entry_isSome_iff]
  omega

theorem exists_entry (h₁ : l.offset ≤ i) (h₂ : i < l.endIndex) :
    ∃ e, l.entry i = some e :=
  Option.isSome_iff_exists.mp (entry_isSome_iff.mpr ⟨h₁, h₂⟩)

variable {e : Entry}

theorem entry_bounds (h : l.entry i = some e) :
    l.offset ≤ i ∧ i < l.endIndex :=
  entry_isSome_iff.mp (by simp [h])

theorem lastIndex_of_pos (h : 0 < l.endIndex) : l.lastIndex = l.endIndex - 1 :=
  sub64_of_le h

/-- Inside the log `LastIndex` bounds what `entry` answers, also when it wraps. -/
theorem le_lastIndex_of_entry (h : l.entry i = some e) :
    i ≤ l.lastIndex := by
  have hb := entry_bounds h
  rw [lastIndex_of_pos (by omega)]
  omega

theorem term_of_entry (h : l.entry i = some e) :
    l.term i = some e.term := by
  have hb := entry_bounds h
  have hl := le_lastIndex_of_entry h
  have hi : l.entries[i - l.offset]? = some e := by simpa [entry, hb.1] using h
  simp [term, hi, Nat.not_lt.mpr hb.1, Nat.not_lt.mpr hl]

/-- Below the log the term reads as zero. -/
theorem term_of_lt_offset (h : i < l.offset) : l.term i = some 0 := if_pos (Or.inl h)

/-- An answer of `Term` is the term of the entry there, or zero where there is none. -/
theorem term_eq {t : ℕ} (h : l.term i = some t) :
    (∃ e, l.entry i = some e ∧ e.term = t) ∨ (l.entry i = none ∧ t = 0) := by
  cases he : l.entry i with
  | some e =>
    rw [term_of_entry he] at h
    cases h
    exact Or.inl ⟨e, rfl, rfl⟩
  | none =>
    refine Or.inr ⟨rfl, ?_⟩
    unfold term at h
    split_ifs at h with hb
    · cases h
      rfl
    · have hi : l.offset ≤ i := by omega
      have hn : l.entries[i - l.offset]? = none := by simpa [entry, hi] using he
      simp [hn] at h

theorem entry_of_term_ne_zero {t : ℕ} (h : l.term i = some t) (ht : t ≠ 0) :
    ∃ e, l.entry i = some e ∧ e.term = t := by
  rcases term_eq h with he | ⟨_, h0⟩
  · exact he
  · exact absurd h0 ht

theorem exists_term (h : 0 < l.endIndex) (i : ℕ) : ∃ t, l.term i = some t := by
  by_cases hb : i < l.offset ∨ l.lastIndex < i
  · exact ⟨0, by simp [term, hb]⟩
  · rw [lastIndex_of_pos h] at hb
    obtain ⟨e, he⟩ := exists_entry (l := l) (i := i) (by omega) (by omega)
    exact ⟨e.term, term_of_entry he⟩

theorem lastTerm_eq_zero (h : l.entries = []) : l.lastTerm = 0 := by simp [lastTerm, h]

theorem lastTerm_of_entry (h : l.entry (l.endIndex - 1) = some e) :
    l.lastTerm = e.term := by
  have hb := entry_bounds h
  have hi : l.endIndex - 1 - l.offset = l.entries.length - 1 := by
    unfold endIndex
    omega
  have hl : l.entries[l.entries.length - 1]? = some e := by
    rw [← hi]
    simpa [entry, hb.1] using h
  simp [lastTerm, List.getLast?_eq_getElem?, hl]

@[simp] theorem append_offset (es : List Entry) : (l.append es).offset = l.offset := rfl

@[simp] theorem append_endIndex (es : List Entry) :
    (l.append es).endIndex = l.endIndex + es.length := by
  simp [append, endIndex, Nat.add_assoc]

theorem entry_append (es : List Entry) (i : ℕ) :
    (l.append es).entry i = if i < l.endIndex then l.entry i else es[i - l.endIndex]? := by
  unfold entry append
  simp only
  split_ifs with h₁ h₂ h₂
  · rw [List.getElem?_append_left (by unfold endIndex at h₂; omega)]
  · rw [List.getElem?_append_right (by unfold endIndex at h₂; omega)]
    congr 1
    unfold endIndex
    omega
  · rfl
  · unfold endIndex at h₂
    omega

theorem entry_slice (lo : ℕ) (h : l.offset ≤ lo) (k : ℕ) :
    (l.slice lo l.endIndex)[k]? = l.entry (lo + k) := by
  have hle : l.offset ≤ lo + k := by omega
  have htake : l.entries.take (l.endIndex - l.offset) = l.entries := by
    apply List.take_of_length_le
    unfold endIndex
    omega
  simp only [slice, Nat.max_eq_left h, Nat.min_self, htake, List.getElem?_drop, entry, hle,
    if_true]
  congr 1
  omega

theorem length_slice {lo : ℕ} (h : l.offset ≤ lo) :
    (l.slice lo l.endIndex).length = l.endIndex - lo := by
  unfold slice endIndex
  simp only [List.length_drop, List.length_take]
  omega

theorem slice_eq_nil_iff {lo : ℕ} (h : l.offset ≤ lo) :
    l.slice lo l.endIndex = [] ↔ l.endIndex ≤ lo := by
  rw [← List.length_eq_zero_iff, length_slice h]
  omega

theorem entry_of_mem_slice {lo : ℕ} (h : l.offset ≤ lo)
    (he : e ∈ l.slice lo l.endIndex) : ∃ i, lo ≤ i ∧ l.entry i = some e := by
  obtain ⟨k, hk⟩ := List.mem_iff_getElem?.mp he
  exact ⟨lo + k, Nat.le_add_right _ _, by rw [← entry_slice lo h, hk]⟩

variable {index : ℕ}

theorem truncate_of_lt (h : index < l.offset) : l.truncate index = some l := by
  simp [truncate, h]

variable {l' : RaftLog}

theorem truncate_eq (ho : l.offset ≤ index) (h : l.truncate index = some l') :
    l'.offset = l.offset ∧ l'.endIndex = index ∧ index ≤ l.endIndex ∧
      ∀ i, l'.entry i = if i < index then l.entry i else none := by
  unfold truncate at h
  split_ifs at h with h₁ h₂
  · omega
  · cases h
    refine ⟨rfl, ?_, h₂, ?_⟩
    · unfold endIndex at h₂ ⊢
      simp only [List.length_take]
      omega
    · intro i
      unfold entry
      simp only [List.getElem?_take]
      split_ifs <;> first | rfl | omega

theorem truncate_offset (h : l.truncate index = some l') :
    l'.offset = l.offset := by
  unfold truncate at h
  split_ifs at h <;> cases h <;> rfl

theorem entry_of_truncate {k : ℕ} (h : l.truncate index = some l')
    (he : l'.entry k = some e) : l.entry k = some e := by
  by_cases hi : l.offset ≤ index
  · rw [(truncate_eq hi h).2.2.2] at he
    split_ifs at he
    exact he
  · rw [truncate_of_lt (not_le.mp hi)] at h
    rwa [Option.some.inj h]

theorem exists_truncate (h : index ≤ l.endIndex) : ∃ l', l.truncate index = some l' := by
  unfold truncate
  split_ifs
  · exact ⟨_, rfl⟩
  · exact ⟨_, rfl⟩

theorem truncateAndAppend_eq {prev : ℕ} {es : List Entry}
    (h : l.truncateAndAppend prev es = some l') :
    l.offset ≤ prev + 1 ∧ prev + 1 ≤ l.endIndex ∧ l'.offset = l.offset ∧
      l'.endIndex = prev + 1 + es.length ∧
      ∀ i, l'.entry i = if i ≤ prev then l.entry i else es[i - (prev + 1)]? := by
  unfold truncateAndAppend at h
  split_ifs at h with hb
  cases h
  have hlen : (l.entries.take (prev + 1 - l.offset)).length = prev + 1 - l.offset := by
    have := hb.2
    unfold endIndex at this
    simp only [List.length_take]
    omega
  refine ⟨hb.1, hb.2, rfl, ?_, ?_⟩
  · simp only [endIndex, List.length_append, hlen]
    omega
  · intro i
    unfold entry
    simp only
    split_ifs with h₁ h₂ h₂
    · rw [List.getElem?_append_left (by omega), List.getElem?_take_of_lt (by omega)]
    · rw [List.getElem?_append_right (by omega), hlen]
      congr 1
      omega
    · rfl
    · omega

@[simp] theorem restore_offset (s t : ℕ) : (restore s t).offset = s := rfl

@[simp] theorem restore_endIndex (s t : ℕ) : (restore s t).endIndex = s + 1 := rfl

theorem entry_restore (s t i : ℕ) :
    (restore s t).entry i = if i = s then some { term := t, index := s } else none := by
  unfold entry restore
  simp only
  split_ifs with h₁ h₂ h₂
  · simp [h₂]
  · rw [List.getElem?_eq_none_iff]
    simp only [List.length_singleton]
    omega
  · omega
  · rfl

/-- Compaction inside the log puts the sentinel at `index` and keeps what is above it. -/
theorem compactTo_eq (t : ℕ) (h₁ : l.offset < index) (h₂ : index < l.endIndex) :
    (l.compactTo index t).offset = index ∧ (l.compactTo index t).endIndex = l.endIndex ∧
      ∀ i, (l.compactTo index t).entry i =
        if i = index then some { term := t, index := index }
        else if index < i then l.entry i else none := by
  have hlast : l.lastIndex = l.endIndex - 1 := lastIndex_of_pos (by omega)
  have hrest : (if index < l.lastIndex then l.slice (index + 1) l.endIndex else []) =
      l.slice (index + 1) l.endIndex := by
    split_ifs with h
    · rfl
    · exact ((slice_eq_nil_iff (by omega)).mpr (by omega)).symm
  have heq : l.compactTo index t =
      { entries := { term := t, index := index } :: l.slice (index + 1) l.endIndex
        offset := index } := by
    have h₃ : ¬l.lastIndex < index := by omega
    simp only [compactTo, Nat.not_le.mpr h₁, h₃, if_false, hrest]
  rw [heq]
  refine ⟨rfl, ?_, ?_⟩
  · have hlen : (l.slice (index + 1) l.endIndex).length = l.endIndex - (index + 1) :=
      length_slice (by omega)
    change index + (_ :: l.slice (index + 1) l.endIndex).length = l.endIndex
    rw [List.length_cons, hlen]
    omega
  · intro i
    rcases Nat.lt_trichotomy i index with h | rfl | h
    · simp [entry, Nat.not_le.mpr h, h.ne, Nat.not_lt.mpr h.le]
    · simp [entry]
    · obtain ⟨k, rfl⟩ : ∃ k, i = index + 1 + k := ⟨i - (index + 1), by omega⟩
      have hk : index + 1 + k - index = k + 1 := by omega
      have hs : (l.slice (index + 1) l.endIndex)[k]? = l.entry (index + 1 + k) :=
        entry_slice _ (by omega) k
      rw [if_neg (by omega), if_pos h, ← hs]
      simp [entry, h.le, hk]

/-- Compaction past the end keeps only a sentinel, at the last index of the log if it has one. -/
theorem compactTo_past_end (t : ℕ) (h₁ : l.offset < index) (h₂ : l.endIndex ≤ index) :
    ∃ x, l.compactTo index t = restore x t ∧ (0 < l.endIndex → x + 1 = l.endIndex) := by
  by_cases hl : l.lastIndex < index
  · refine ⟨l.lastIndex, by simp [compactTo, restore, Nat.not_le.mpr h₁, hl], ?_⟩
    intro h
    rw [lastIndex_of_pos h]
    omega
  · have hrest : (if index < l.lastIndex then l.slice (index + 1) l.endIndex else []) = [] := by
      split_ifs
      · exact (slice_eq_nil_iff (by omega)).mpr (by omega)
      · rfl
    refine ⟨index, by simp [compactTo, restore, Nat.not_le.mpr h₁, hl, hrest], ?_⟩
    intro h
    rw [lastIndex_of_pos h] at hl
    omega

/-- The entries of a compacted log are its sentinel and entries of the log. -/
theorem entry_compactTo {t : ℕ} (ho : l.offset < index)
    (h : (l.compactTo index t).entry i = some e) :
    e = { term := t, index := i } ∧ i = (l.compactTo index t).offset ∨
      (index < i ∧ l.entry i = some e) := by
  by_cases hl : index < l.endIndex
  · obtain ⟨hoff, -, hent⟩ := compactTo_eq t ho hl
    rw [hent] at h
    split_ifs at h with h₁ h₂
    · cases h
      exact Or.inl ⟨by rw [h₁], h₁.trans hoff.symm⟩
    · exact Or.inr ⟨h₂, h⟩
  · obtain ⟨x, hx, -⟩ := compactTo_past_end t ho (not_lt.mp hl)
    rw [hx] at h ⊢
    rw [entry_restore] at h
    split_ifs at h with h₁
    cases h
    exact Or.inl ⟨by rw [h₁], h₁⟩

/-- Above the new sentinel a compacted log is what it was. -/
theorem entry_compactTo_of_lt {t n : ℕ} (ho : l.offset < index)
    (hn : (l.compactTo index t).offset < n) (hlt : n < l.endIndex) :
    l.offset < n ∧ (l.compactTo index t).entry n = l.entry n := by
  by_cases hl : index < l.endIndex
  · obtain ⟨hoff, -, hent⟩ := compactTo_eq t ho hl
    rw [hoff] at hn
    rw [hent, if_neg hn.ne', if_pos hn]
    exact ⟨ho.trans hn, rfl⟩
  · obtain ⟨x, hx, hend⟩ := compactTo_past_end t ho (not_lt.mp hl)
    rw [hx, restore_offset] at hn
    omega

theorem compactTo_endIndex (t : ℕ) (ho : l.offset < index) (hpos : 0 < l.endIndex) :
    (l.compactTo index t).endIndex = l.endIndex := by
  by_cases hl : index < l.endIndex
  · exact (compactTo_eq t ho hl).2.1
  · obtain ⟨x, hx, hend⟩ := compactTo_past_end t ho (not_lt.mp hl)
    rw [hx, restore_endIndex, hend hpos]

theorem endIndex_le_compactTo {t : ℕ} (ho : l.offset < index) :
    l.endIndex ≤ (l.compactTo index t).endIndex := by
  by_cases hl : index < l.endIndex
  · exact (compactTo_eq t ho hl).2.1.ge
  · obtain ⟨x, hx, hend⟩ := compactTo_past_end t ho (not_lt.mp hl)
    rw [hx, restore_endIndex]
    omega

theorem compactTo_offset_le (t : ℕ) (ho : l.offset < index) :
    (l.compactTo index t).offset ≤ index := by
  unfold compactTo
  rw [if_neg (not_le.mpr ho)]
  dsimp only
  split_ifs with hl
  · exact hl.le
  · exact le_rfl

/-- Compaction leaves a sentinel. -/
theorem compactTo_offset_lt (t : ℕ) (ho : l.offset < index) :
    (l.compactTo index t).offset < (l.compactTo index t).endIndex := by
  unfold compactTo
  rw [if_neg (not_le.mpr ho)]
  simp only [endIndex, List.length_cons]
  omega

theorem matchTerm_eq_true {t : ℕ} (h : l.matchTerm i t = some true) :
    ∃ e, l.entry i = some e ∧ e.term = t := by
  unfold matchTerm at h
  split_ifs at h with hb
  · cases h
  obtain ⟨u, hu, hd⟩ := Option.map_eq_some_iff.mp h
  have hut : u = t := by simpa using hd
  have hterm := hu
  unfold term at hterm
  rw [if_neg hb] at hterm
  obtain ⟨e, he, hte⟩ := Option.map_eq_some_iff.mp hterm
  refine ⟨e, ?_, hte.trans hut⟩
  have ho : l.offset ≤ i := by omega
  simpa [entry, ho] using he

theorem matchTerm_eq (h : 0 < l.endIndex) (i t : ℕ) :
    l.matchTerm i t = some (decide ((l.entry i).map Entry.term = some t)) := by
  rw [matchTerm, lastIndex_of_pos h]
  cases he : l.entry i with
  | none =>
    have := entry_eq_none_iff.mp he
    rw [if_pos (by omega)]
    simp
  | some e =>
    have := entry_bounds he
    rw [if_neg (by omega), term_of_entry he]
    simp

theorem exists_matchTerm (h : 0 < l.endIndex) (i t : ℕ) : ∃ b, l.matchTerm i t = some b :=
  ⟨_, matchTerm_eq h i t⟩

theorem findFrom_le {t n : ℕ} (h : l.findFrom t n = some (some i)) :
    l.offset ≤ i ∧ i ≤ l.offset + n := by
  induction n with
  | zero =>
    obtain ⟨u, -, h⟩ := Option.bind_eq_some_iff.mp h
    split_ifs at h
    · cases h
      simp
    · cases h
  | succ n ih =>
    obtain ⟨u, -, h⟩ := Option.bind_eq_some_iff.mp h
    split_ifs at h
    · cases h
      omega
    · have := ih h
      omega

theorem findLastIndexOfTerm_le {t : ℕ} (h : l.findLastIndexOfTerm t = some (some i)) :
    i ≤ l.lastIndex := by
  unfold findLastIndexOfTerm at h
  split_ifs at h with hb
  · have := findFrom_le h
    unfold firstIndex at this hb
    omega
  · cases h

theorem exists_findFrom (h : 0 < l.endIndex) (t n : ℕ) : ∃ o, l.findFrom t n = some o := by
  induction n with
  | zero =>
    obtain ⟨u, hu⟩ := exists_term h l.offset
    by_cases ht : u = t
    · exact ⟨some l.offset, by simp [findFrom, hu, ht]⟩
    · exact ⟨none, by simp [findFrom, hu, ht]⟩
  | succ n ih =>
    obtain ⟨u, hu⟩ := exists_term h (l.offset + (n + 1))
    by_cases ht : u = t
    · exact ⟨some (l.offset + (n + 1)), by simp [findFrom, hu, ht]⟩
    · obtain ⟨o, ho⟩ := ih
      exact ⟨o, by simp [findFrom, hu, ht, ho]⟩

theorem exists_findLastIndexOfTerm (h : 0 < l.endIndex) (t : ℕ) :
    ∃ o, l.findLastIndexOfTerm t = some o := by
  unfold findLastIndexOfTerm
  split_ifs
  · exact exists_findFrom h t _
  · exact ⟨none, rfl⟩

end RaftLog

end Mizu
