import Mathlib.Data.List.Basic
import Mathlib.Data.List.Nodup
import Mathlib.Tactic.Common

/-!
# Linked lists in a memory

`next r` reads the link at the address `r`: `none` when there is no link there, `some none` at
the end of a list.
-/

namespace Linked

variable {β : Type*} {next next' : β → Option (Option β)} {r a : β} {ids pre post : List β}

/-- The links from `r` on lead through the addresses `ids` and end there. -/
def Follows (next : β → Option (Option β)) : β → List β → Prop
  | r, [] => next r = some none
  | r, i :: ids => next r = some (some i) ∧ Follows next i ids

/-- The addresses that the links from `r` on lead through. -/
def walk (next : β → Option (Option β)) : ℕ → β → Option (List β)
  | 0, _ => none
  | fuel + 1, r => do
    match ← next r with
    | none => some []
    | some i =>
      let rest ← walk next fuel i
      some (i :: rest)

theorem Follows.walk {fuel : ℕ} (h : Follows next r ids) (hfuel : ids.length < fuel) :
    walk next fuel r = some ids := by
  induction ids generalizing r fuel with
  | nil =>
    obtain ⟨fuel, rfl⟩ : ∃ n, fuel = n + 1 := ⟨fuel - 1, by simp at hfuel; omega⟩
    have hr : next r = some none := h
    simp [Linked.walk, hr]
  | cons i ids ih =>
    rw [List.length_cons] at hfuel
    obtain ⟨fuel, rfl⟩ : ∃ n, fuel = n + 1 := ⟨fuel - 1, by omega⟩
    have hrest := ih h.2 (by omega : ids.length < fuel)
    simp [Linked.walk, h.1, hrest]

/-- The links from an address of the list on. -/
theorem Follows.append (h : Follows next r (pre ++ post)) :
    Follows next (pre.getLastD r) post := by
  induction pre generalizing r with
  | nil => exact h
  | cons i pre ih =>
    rw [List.getLastD_cons]
    exact ih h.2

theorem Follows.head (h : Follows next r ids) : next r = some ids.head? := by
  cases ids with
  | nil => exact h
  | cons i ids => exact h.1

theorem Follows.congr (h : Follows next r ids) (heq : ∀ i ∈ r :: ids, next' i = next i) :
    Follows next' r ids := by
  induction ids generalizing r with
  | nil => exact (heq r (by simp)).trans h
  | cons i ids ih =>
    refine ⟨(heq r (by simp)).trans h.1, ih h.2 fun j hj => heq j ?_⟩
    exact List.mem_cons_of_mem _ hj

/-- A new address is linked in after the last of `pre`. -/
theorem Follows.insert (h : Follows next r (pre ++ post)) (hnd : (r :: (pre ++ post)).Nodup)
    (ha : a ∉ r :: (pre ++ post)) (hlast : next' (pre.getLastD r) = some (some a))
    (hnew : next' a = next (pre.getLastD r))
    (hold : ∀ i, i ≠ a → i ≠ pre.getLastD r → next' i = next i) :
    Follows next' r (pre ++ a :: post) := by
  induction pre generalizing r with
  | nil =>
    refine ⟨hlast, ?_⟩
    have hhead := h.head
    -- the links after `r` are those that `a` now leads to
    cases post with
    | nil => exact hnew.trans hhead
    | cons i post =>
      refine ⟨hnew.trans hhead, h.2.congr fun j hj => hold j ?_ ?_⟩
      · rintro rfl
        exact ha (List.mem_cons_of_mem _ hj)
      · rintro rfl
        exact (List.nodup_cons.mp hnd).1 hj
  | cons i pre ih =>
    rw [List.getLastD_cons] at hlast hnew hold
    rw [List.cons_append] at h hnd ha ⊢
    obtain ⟨hr, hnd'⟩ := List.nodup_cons.mp hnd
    have hne : r ≠ pre.getLastD i := by
      intro heq
      apply hr
      rw [heq, ← List.cons_append]
      exact List.mem_append_left _ List.getLastD_mem_cons
    refine ⟨?_, ih h.2 hnd' (fun hmem => ha (List.mem_cons_of_mem _ hmem)) hlast hnew hold⟩
    rw [hold r (fun heq => ha (heq ▸ List.mem_cons_self)) hne]
    exact h.1

end Linked
