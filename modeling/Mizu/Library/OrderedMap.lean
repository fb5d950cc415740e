import Mathlib.Data.Finset.Sort
import Mizu.Library.BigEndian
import Mizu.Library.Search

/-!
# Finite maps with ordered keys

A map that can be read at a key, changed at a key and scanned from a key on in the order of the
keys.
-/

/-- A finite map; `keys` are the keys that have a value. -/
structure OrderedMap (κ α : Type*) where
  keys : Finset κ
  get : κ → Option α
  mem_keys : ∀ k, k ∈ keys ↔ (get k).isSome

namespace OrderedMap

variable {κ α : Type*} [LinearOrder κ] {m : OrderedMap κ α} {k j start : κ} {v : α}

def empty : OrderedMap κ α where
  keys := ∅
  get _ := none
  mem_keys := by simp

def put (m : OrderedMap κ α) (k : κ) (v : α) : OrderedMap κ α where
  keys := insert k m.keys
  get := Function.update m.get k (some v)
  mem_keys j := by
    by_cases h : j = k
    · subst h
      simp
    · simp [h, m.mem_keys]

def erase (m : OrderedMap κ α) (k : κ) : OrderedMap κ α where
  keys := m.keys.erase k
  get := Function.update m.get k none
  mem_keys j := by
    by_cases h : j = k
    · subst h
      simp
    · simp [h, m.mem_keys]

/-- The keys from `start` on with their values, in order. -/
def scan (m : OrderedMap κ α) (start : κ) : List (κ × α) :=
  ((m.keys.filter (start ≤ ·)).sort (· ≤ ·)).filterMap fun k => (m.get k).map fun v => (k, v)

theorem get_put (m : OrderedMap κ α) (k j : κ) (v : α) [Decidable (j = k)] :
    (m.put k v).get j = if j = k then some v else m.get j := by
  by_cases h : j = k <;> simp [put, h]

theorem get_erase (m : OrderedMap κ α) (k j : κ) [Decidable (j = k)] :
    (m.erase k).get j = if j = k then none else m.get j := by
  by_cases h : j = k <;> simp [erase, h]

theorem mem_scan : (k, v) ∈ m.scan start ↔ start ≤ k ∧ m.get k = some v := by
  simp only [scan, List.mem_filterMap, Finset.mem_sort, Finset.mem_filter, m.mem_keys,
    Option.map_eq_some_iff, Prod.mk.injEq]
  constructor
  · rintro ⟨k', ⟨-, hle⟩, v', hget, rfl, rfl⟩
    exact ⟨hle, hget⟩
  · rintro ⟨hle, hget⟩
    exact ⟨k, ⟨by simp [hget], hle⟩, v, hget, rfl, rfl⟩

theorem pairwise_scan (m : OrderedMap κ α) (start : κ) :
    (m.scan start).Pairwise fun x y => x.1 < y.1 := by
  refine List.Pairwise.filterMap _ ?_ (Finset.sortedLT_sort _).pairwise
  intro a b hab x hx y hy
  obtain ⟨-, -, rfl⟩ := Option.map_eq_some_iff.mp hx
  obtain ⟨-, -, rfl⟩ := Option.map_eq_some_iff.mp hy
  exact hab

/-- Lists in the order of their keys are equal when they have the same elements. -/
theorem eq_of_mem_iff {l l' : List (κ × α)} (h : l.Pairwise fun x y => x.1 < y.1)
    (h' : l'.Pairwise fun x y => x.1 < y.1) (hmem : ∀ k v, (k, v) ∈ l ↔ (k, v) ∈ l') : l = l' := by
  exact h.eq_of_mem_iff h' fun x => hmem x.1 x.2

/-! ### Lists as keys -/

section Lists

variable {β : Type*} [LinearOrder β] {m : OrderedMap (List β) α} {p x y k : List β}

/-- The keys that start with `p`, from `p ++ x` on: a scan that ends at the first other key. -/
def scanUnder (m : OrderedMap (List β) α) (p x : List β) : List (List β × α) :=
  (m.scan (p ++ x)).takeWhile fun e => p.isPrefixOf e.1

theorem splits_scan (m : OrderedMap (List β) α) (p x : List β) :
    Search.Splits (fun e : List β × α => p.isPrefixOf e.1) (m.scan (p ++ x)) := by
  refine List.Pairwise.imp_of_mem ?_ (m.pairwise_scan (p ++ x))
  rintro ⟨a, v⟩ ⟨b, w⟩ ha hb hab hpb
  rw [List.isPrefixOf_iff_prefix] at hpb ⊢
  by_contra hpa
  have hle := (mem_scan.mp ha).1
  exact lt_asymm hab (Lexicographic.lt_of_not_isPrefix (List.prefix_append p x) hpb hpa hle)

theorem append_le_append_iff (p : List β) : p ++ x ≤ p ++ y ↔ x ≤ y := by
  rw [← not_lt, ← not_lt, not_iff_not]
  exact Lexicographic.append_lt_append_iff p

theorem mem_scanUnder :
    (k, v) ∈ m.scanUnder p x ↔ ∃ y, k = p ++ y ∧ x ≤ y ∧ m.get k = some v := by
  rw [scanUnder, (m.splits_scan p x).takeWhile_eq_filter, List.mem_filter, mem_scan,
    List.isPrefixOf_iff_prefix]
  constructor
  · rintro ⟨⟨hle, hget⟩, y, rfl⟩
    exact ⟨y, rfl, (append_le_append_iff p).mp hle, hget⟩
  · rintro ⟨y, rfl, hle, hget⟩
    exact ⟨⟨(append_le_append_iff p).mpr hle, hget⟩, List.prefix_append p y⟩

theorem pairwise_scanUnder (m : OrderedMap (List β) α) (p x : List β) :
    (m.scanUnder p x).Pairwise fun a b => a.1 < b.1 :=
  (m.pairwise_scan (p ++ x)).sublist (List.takeWhile_sublist _)

end Lists

end OrderedMap
