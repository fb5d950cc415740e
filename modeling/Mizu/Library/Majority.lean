import Mizu.Library.Assoc
import Mathlib.Data.List.Sort
import Mathlib.Order.Bounds.Basic

/-!
# Majorities

Two sets that each hold more than half of a finite set of voters share a voter,
more than half of the pairs of a map give a majority of its keys, and the entry at
position `k` of a list sorted downwards is reached by `k + 1` of its elements.
-/

namespace Majority

variable {α : Type*} [DecidableEq α]

/-- Two majorities of `s` have a common element. -/
theorem exists_mem_of_card {s a b : Finset α} (ha : a ⊆ s) (hb : b ⊆ s)
    (hca : s.card < 2 * a.card) (hcb : s.card < 2 * b.card) : ∃ x ∈ a, x ∈ b := by
  by_contra h
  have hdisj : Disjoint a b := by
    rw [Finset.disjoint_left]
    intro x hxa hxb
    exact h ⟨x, hxa, hxb⟩
  have hcard : (a ∪ b).card = a.card + b.card := Finset.card_union_of_disjoint hdisj
  have hle : (a ∪ b).card ≤ s.card := Finset.card_le_card (Finset.union_subset ha hb)
  omega

/-- The pairs that satisfy `P`, when they are more than half, belong to a majority of keys. -/
theorem exists_keys {β : Type*} {ks : List α} {ps : List (α × β)} {P : α × β → Bool}
    (hn : (Assoc.keys ps).Nodup) (hks : ∀ k ∈ Assoc.keys ps, k ∈ ks)
    (h : ks.length < 2 * (ps.filter P).length) :
    ∃ Q ⊆ ks.toFinset, ks.length < 2 * Q.card ∧ ∀ k ∈ Q, ∃ v, (k, v) ∈ ps ∧ P (k, v) = true := by
  have hnodup : (Assoc.keys (ps.filter P)).Nodup :=
    hn.sublist (List.Sublist.map _ List.filter_sublist)
  refine ⟨(Assoc.keys (ps.filter P)).toFinset, ?_, ?_, ?_⟩
  · intro k hk
    obtain ⟨p, hp, rfl⟩ := List.mem_map.mp (List.mem_toFinset.mp hk)
    exact List.mem_toFinset.mpr (hks _ (List.mem_map_of_mem (List.mem_filter.mp hp).1))
  · rw [List.toFinset_card_of_nodup hnodup, Assoc.keys, List.length_map]
    exact h
  · intro k hk
    obtain ⟨⟨k', v⟩, hp, rfl⟩ := List.mem_map.mp (List.mem_toFinset.mp hk)
    exact ⟨v, List.mem_filter.mp hp⟩

variable {l : List ℕ}

theorem le_countP_of_pairwise (hl : l.Pairwise (· ≥ ·)) {k x : ℕ}
    (h : l[k]? = some x) : k + 1 ≤ l.countP (x ≤ ·) := by
  induction l generalizing k with
  | nil => simp at h
  | cons y l ih =>
    rw [List.pairwise_cons] at hl
    cases k with
    | zero =>
      have hy : y = x := by simpa using h
      simp [hy]
    | succ k =>
      have hk : l[k]? = some x := by simpa using h
      have hxy : x ≤ y := hl.1 x (List.mem_of_getElem? hk)
      have := ih hl.2 hk
      simp only [List.countP_cons, hxy, decide_true, if_true]
      omega

theorem countP_le_of_pairwise (hl : l.Pairwise (· ≥ ·)) {k x i : ℕ}
    (h : l[k]? = some x) (hi : x < i) : l.countP (i ≤ ·) ≤ k := by
  induction l generalizing k with
  | nil => simp at h
  | cons y l ih =>
    rw [List.pairwise_cons] at hl
    cases k with
    | zero =>
      have hy : y = x := by simpa using h
      rw [Nat.le_zero, List.countP_eq_zero]
      intro z hz
      have hzx : z ≤ x := by
        rcases List.mem_cons.mp hz with rfl | hz
        · exact hy.le
        · exact hy ▸ hl.1 z hz
      simp only [decide_eq_true_eq]
      omega
    | succ k =>
      have hk : l[k]? = some x := by simpa using h
      have := ih hl.2 hk
      rw [List.countP_cons]
      split_ifs <;> omega

theorem le_countP_of_sorted {k x : ℕ}
    (h : (l.insertionSort (· ≥ ·))[k]? = some x) : k + 1 ≤ l.countP (x ≤ ·) := by
  rw [← (List.perm_insertionSort (· ≥ ·) l).countP_eq]
  exact le_countP_of_pairwise (List.pairwise_insertionSort (· ≥ ·) l) h

/-- The value at place `k` of a list sorted downwards is the greatest that `k + 1` values reach. -/
theorem isGreatest_of_sorted {k x : ℕ}
    (h : (l.insertionSort (· ≥ ·))[k]? = some x) : IsGreatest {i | k + 1 ≤ l.countP (i ≤ ·)} x := by
  refine ⟨le_countP_of_sorted h, ?_⟩
  intro i hi
  by_contra hlt
  have hle := countP_le_of_pairwise (List.pairwise_insertionSort (· ≥ ·) l) h (not_le.mp hlt)
  rw [(List.perm_insertionSort (· ≥ ·) l).countP_eq] at hle
  exact absurd (le_trans hi hle) (by omega)

end Majority
