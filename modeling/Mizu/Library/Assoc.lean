import Mathlib.Data.List.Basic
import Mathlib.Data.List.Nodup
import Mathlib.Tactic

/-!
# Finite maps as association lists

A finite map with an iteration order is a list of key/value pairs. Writing a
key replaces the value of its first pair and appends a new pair when the key is
absent, so keys keep their place and stay distinct.
-/

namespace Assoc

variable {κ α β : Type*} [DecidableEq κ]

/-- The value stored under `k`, if any. -/
def get (k : κ) : List (κ × α) → Option α
  | [] => none
  | p :: ps => if p.1 = k then some p.2 else get k ps

/-- Write `v` under `k`. -/
def set (k : κ) (v : α) : List (κ × α) → List (κ × α)
  | [] => [(k, v)]
  | p :: ps => if p.1 = k then (k, v) :: ps else p :: set k v ps

/-- Drop every pair stored under `k`. -/
def erase (k : κ) (ps : List (κ × α)) : List (κ × α) := ps.filter fun p => p.1 ≠ k

/-- The keys, in iteration order. -/
def keys (ps : List (κ × α)) : List κ := ps.map Prod.fst

@[simp] theorem get_nil (k : κ) : get k ([] : List (κ × α)) = none := rfl

theorem get_set (k j : κ) (v : α) (ps : List (κ × α)) :
    get j (set k v ps) = if j = k then some v else get j ps := by
  induction ps with
  | nil => simp [set, get, eq_comm]
  | cons p ps ih =>
    by_cases hp : p.1 = k
    · by_cases hj : j = k
      · simp [set, get, hp, hj]
      · have hk : k ≠ j := fun h => hj h.symm
        simp [set, get, hp, hj, hk]
    · by_cases hj : p.1 = j
      · have hk : j ≠ k := fun h => hp (hj.trans h)
        simp [set, get, hj, hk]
      · simpa [set, get, hp, hj] using ih

@[simp] theorem get_set_self (k : κ) (v : α) (ps : List (κ × α)) :
    get k (set k v ps) = some v := by
  simp [get_set]

variable {k : κ}

theorem get_set_of_ne {j : κ} (h : j ≠ k) (v : α) (ps : List (κ × α)) :
    get j (set k v ps) = get j ps := by
  simp [get_set, h]

theorem get_erase (k j : κ) (ps : List (κ × α)) :
    get j (erase k ps) = if j = k then none else get j ps := by
  induction ps with
  | nil => simp [erase]
  | cons p ps ih =>
    unfold erase at *
    by_cases hp : p.1 = k
    · rw [List.filter_cons_of_neg (by simpa using hp), ih]
      split_ifs with hj
      · rfl
      · rw [get, if_neg (fun h => hj (h.symm.trans hp))]
    · rw [List.filter_cons_of_pos (by simpa using hp), get, get, ih]
      split_ifs with hpj hj
      · exact absurd (hpj.trans hj) hp
      · rfl
      · rfl
      · rfl

theorem get_map (f : α → β) (k : κ) (ps : List (κ × α)) :
    get k (ps.map fun p => (p.1, f p.2)) = (get k ps).map f := by
  induction ps with
  | nil => rfl
  | cons p ps ih => by_cases h : p.1 = k <;> simp [get, h, ih]

variable {ps : List (κ × α)} {v : α}

theorem mem_of_get (h : get k ps = some v) :
    (k, v) ∈ ps := by
  induction ps with
  | nil => simp at h
  | cons p ps ih =>
    unfold get at h
    split_ifs at h with hp
    · cases h
      subst hp
      simp
    · exact List.mem_cons_of_mem _ (ih h)

theorem get_of_mem (hd : (keys ps).Nodup) (h : (k, v) ∈ ps) : get k ps = some v := by
  induction ps with
  | nil => simp at h
  | cons p ps ih =>
    simp only [keys, List.map_cons, List.nodup_cons] at hd
    rcases List.mem_cons.mp h with rfl | h
    · simp [get]
    · have hne : p.1 ≠ k := fun he => hd.1 (he ▸ List.mem_map_of_mem h)
      simpa [get, hne] using ih hd.2 h

theorem get_isSome_iff : (get k ps).isSome ↔ k ∈ keys ps := by
  induction ps with
  | nil => simp [keys]
  | cons p ps ih =>
    by_cases h : p.1 = k
    · simp [get, keys, h]
    · have hk : k ≠ p.1 := fun he => h he.symm
      simpa [get, keys, h, hk] using ih

theorem keys_set_of_mem (h : k ∈ keys ps) :
    keys (set k v ps) = keys ps := by
  induction ps with
  | nil => simp [keys] at h
  | cons p ps ih =>
    by_cases hp : p.1 = k
    · simp [set, keys, hp]
    · have hm : k ∈ keys ps := by
        rcases List.mem_cons.mp h with he | hm
        · exact absurd he.symm hp
        · exact hm
      simpa [set, keys, hp] using ih hm

theorem mem_keys_set {j : κ} :
    j ∈ keys (set k v ps) ↔ j = k ∨ j ∈ keys ps := by
  rw [← get_isSome_iff, ← get_isSome_iff, get_set]
  split_ifs with h <;> simp [h]

theorem mem_of_mem_set {x : κ × α} (h : x ∈ set k v ps) :
    x = (k, v) ∨ x ∈ ps := by
  induction ps with
  | nil => exact Or.inl (List.mem_singleton.mp h)
  | cons p ps ih =>
    unfold set at h
    split_ifs at h
    · rcases List.mem_cons.mp h with h | h
      · exact Or.inl h
      · exact Or.inr (List.mem_cons_of_mem _ h)
    · rcases List.mem_cons.mp h with h | h
      · exact Or.inr (h ▸ List.mem_cons_self)
      · exact (ih h).imp_right (List.mem_cons_of_mem _)

theorem nodup_keys_set (h : (keys ps).Nodup) :
    (keys (set k v ps)).Nodup := by
  induction ps with
  | nil => simp [set, keys]
  | cons p ps ih =>
    have hp' := h
    simp only [keys, List.map_cons, List.nodup_cons] at hp'
    by_cases hp : p.1 = k
    · simpa [set, keys, hp] using hp'
    · have hnot : p.1 ∉ keys (set k v ps) := by
        rw [mem_keys_set]
        rintro (he | hm)
        · exact hp he
        · exact hp'.1 hm
      have hset : set k v (p :: ps) = p :: set k v ps := by simp [set, hp]
      rw [hset, keys, List.map_cons, List.nodup_cons]
      exact ⟨hnot, ih hp'.2⟩

theorem keys_set_of_not_mem (h : k ∉ keys ps) :
    keys (set k v ps) = keys ps ++ [k] := by
  induction ps with
  | nil => rfl
  | cons p ps ih =>
    simp only [keys, List.map_cons, List.mem_cons, not_or] at h
    have hp : p.1 ≠ k := fun he => h.1 he.symm
    have hset : set k v (p :: ps) = p :: set k v ps := by simp [set, hp]
    rw [hset, keys, List.map_cons]
    exact congrArg (p.1 :: ·) (ih h.2)

/-- Filling a map with distinct new keys lists them in that order. -/
theorem keys_foldl_set (v : α) {ks : List κ} (h : (keys ps ++ ks).Nodup) :
    keys (ks.foldl (fun ps k => set k v ps) ps) = keys ps ++ ks := by
  induction ks generalizing ps with
  | nil => simp
  | cons k ks ih =>
    have hk : k ∉ keys ps := by
      intro hm
      exact List.disjoint_of_nodup_append h hm (by simp)
    have hkeys : keys (set k v ps) = keys ps ++ [k] := keys_set_of_not_mem hk
    rw [List.foldl_cons, ih, hkeys]
    · simp
    · rw [hkeys]
      simpa using h

theorem set_perm (h : k ∉ keys ps) :
    (set k v ps).Perm ((k, v) :: ps) := by
  induction ps with
  | nil => exact List.Perm.refl _
  | cons p ps ih =>
    simp only [keys, List.map_cons, List.mem_cons, not_or] at h
    have hp : p.1 ≠ k := fun he => h.1 he.symm
    have hset : set k v (p :: ps) = p :: set k v ps := by simp [set, hp]
    rw [hset]
    exact ((ih h.2).cons p).trans (List.Perm.swap _ _ _)

theorem perm_erase (hd : (keys ps).Nodup)
    (h : get k ps = some v) : ps.Perm ((k, v) :: erase k ps) := by
  induction ps with
  | nil => simp at h
  | cons p ps ih =>
    obtain ⟨hp, hd'⟩ := List.nodup_cons.mp hd
    by_cases hpk : p.1 = k
    · have hv : p = (k, v) := by
        rw [get, if_pos hpk, Option.some.injEq] at h
        rw [← hpk, ← h]
      have herase : erase k (p :: ps) = ps := by
        rw [erase, List.filter_cons_of_neg (by simp [hpk]), List.filter_eq_self]
        intro q hq
        rw [decide_eq_true_eq]
        rintro rfl
        exact hp (hpk ▸ List.mem_map_of_mem hq)
      rw [herase, hv]
    · rw [get, if_neg hpk] at h
      have herase : erase k (p :: ps) = p :: erase k ps :=
        List.filter_cons_of_pos (by simpa using hpk)
      rw [herase]
      exact ((ih hd' h).cons p).trans (List.Perm.swap _ _ _)

omit [DecidableEq κ] in
theorem nodup_keys_filter {f : κ × α → Bool} (h : (keys ps).Nodup) :
    (keys (ps.filter f)).Nodup :=
  h.sublist (List.filter_sublist.map _)

end Assoc
