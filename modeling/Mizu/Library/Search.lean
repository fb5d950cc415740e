import Mathlib.Tactic

/-!
# Searching ordered lists

`lowerBound` is the binary search of the C++ standard library: on a list that a
predicate splits into a prefix where it holds and a suffix where it does not, it
returns the length of the prefix.
-/

namespace Search

variable {α : Type*} {p : α → Bool} {l : List α} {x y : α}

/-- Narrow the `len` positions from `first` on; `fuel` bounds the halvings. -/
def loop (p : α → Bool) (l : List α) : ℕ → ℕ → ℕ → ℕ
  | 0, first, _ => first
  | fuel + 1, first, len =>
    if len = 0 then first
    else
      let half := len / 2
      if (l[first + half]?).any p then loop p l fuel (first + half + 1) (len - half - 1)
      else loop p l fuel first half

def lowerBound (p : α → Bool) (l : List α) : ℕ := loop p l l.length 0 l.length

/-- `p` holds of a prefix of `l` and fails on the rest. -/
def Splits (p : α → Bool) (l : List α) : Prop := l.Pairwise fun a b => p b → p a

section

variable (h : Splits p l)

include h

theorem Splits.takeWhile_eq_filter : l.takeWhile p = l.filter p := by
  induction l with
  | nil => rfl
  | cons a l ih =>
    obtain ⟨ha, hl⟩ := List.pairwise_cons.mp h
    by_cases hp : p a
    · rw [List.takeWhile_cons_of_pos hp, List.filter_cons_of_pos hp, ih hl]
    · have hnone : l.filter p = [] := by
        rw [List.filter_eq_nil_iff]
        intro b hb hpb
        exact hp (ha b hb hpb)
      rw [List.takeWhile_cons_of_neg hp, List.filter_cons_of_neg hp, hnone]

theorem Splits.dropWhile_eq_filter :
    l.dropWhile p = l.filter fun x => ! p x := by
  induction l with
  | nil => rfl
  | cons a l ih =>
    obtain ⟨ha, hl⟩ := List.pairwise_cons.mp h
    by_cases hp : p a
    · rw [List.dropWhile_cons_of_pos hp, List.filter_cons_of_neg (by simp [hp]), ih hl]
    · have hall : ∀ b ∈ a :: l, (! p b) = true := by
        intro b hb
        rw [Bool.not_eq_true']
        rcases List.mem_cons.mp hb with rfl | hb
        · exact Bool.eq_false_of_not_eq_true hp
        · exact Bool.eq_false_of_not_eq_true fun hpb => hp (ha b hb hpb)
      rw [List.dropWhile_cons_of_neg hp, List.filter_eq_self.mpr hall]

theorem Splits.earlier {i j : ℕ} (hij : i ≤ j) (hj : (l[j]?).any p) :
    (l[i]?).any p := by
  rcases hij.eq_or_lt with rfl | hlt
  · exact hj
  · obtain ⟨b, hb, hpb⟩ := (Option.any_eq_true p _).mp hj
    obtain ⟨hjl, rfl⟩ := List.getElem?_eq_some_iff.mp hb
    have := List.pairwise_iff_getElem.mp h i j (by omega) hjl hlt hpb
    simp [List.getElem?_eq_getElem (show i < l.length by omega), this]

/-- What the loop keeps: everything before `first` satisfies `p`, nothing from
the end of the interval on does. -/
theorem loop_spec {fuel first len : ℕ} (hfuel : len ≤ fuel)
    (hlow : ∀ i < first, (l[i]?).any p) (hhigh : ∀ i ≥ first + len, ¬ (l[i]?).any p) :
    (∀ i < loop p l fuel first len, (l[i]?).any p) ∧
      ∀ i ≥ loop p l fuel first len, ¬ (l[i]?).any p := by
  induction fuel generalizing first len with
  | zero =>
    obtain rfl : len = 0 := by omega
    exact ⟨hlow, hhigh⟩
  | succ fuel ih =>
    unfold loop
    split
    · rename_i hz
      subst hz
      exact ⟨hlow, hhigh⟩
    · dsimp only
      split
      · rename_i hmid
        apply ih (by omega)
        · intro i hi
          exact h.earlier (by omega) hmid
        · intro i hi
          exact hhigh i (by omega)
      · rename_i hmid
        apply ih (by omega) hlow
        intro i hi hp
        exact hmid (h.earlier (by omega) hp)

theorem lowerBound_spec :
    (∀ i < lowerBound p l, (l[i]?).any p) ∧ ∀ i ≥ lowerBound p l, ¬ (l[i]?).any p := by
  apply loop_spec h le_rfl
  · simp
  · intro i hi
    rw [List.getElem?_eq_none (by omega)]
    simp

theorem lowerBound_le : lowerBound p l ≤ l.length := by
  by_contra hlt
  have := (lowerBound_spec h).1 l.length (by omega)
  simp at this

theorem of_mem_take_lowerBound (hx : x ∈ l.take (lowerBound p l)) : p x := by
  obtain ⟨i, hi, rfl⟩ := List.mem_iff_getElem.mp hx
  rw [List.length_take] at hi
  have := (lowerBound_spec h).1 i (by omega)
  rw [List.getElem?_eq_getElem (by omega)] at this
  simpa using this

theorem not_of_mem_drop_lowerBound (hx : x ∈ l.drop (lowerBound p l)) :
    ¬ p x := by
  obtain ⟨i, hi, rfl⟩ := List.mem_iff_getElem.mp hx
  rw [List.length_drop] at hi
  have := (lowerBound_spec h).2 (lowerBound p l + i) (by omega)
  rw [List.getElem?_eq_getElem (by omega)] at this
  simpa using this

/-- The element at the lower bound is the first one that fails `p`. -/
theorem getElem?_lowerBound : l[lowerBound p l]? = l.find? (fun x => !p x) := by
  have hpre : (l.take (lowerBound p l)).find? (fun x => !p x) = none := by
    simp only [List.find?_eq_none, Bool.not_eq_true', Bool.not_eq_false]
    intro x hx
    exact of_mem_take_lowerBound h hx
  rw [← List.head?_drop]
  conv_rhs => rw [← List.take_append_drop (lowerBound p l) l, List.find?_append, hpre,
    Option.none_or]
  cases hd : l.drop (lowerBound p l) with
  | nil => rfl
  | cons a as =>
    have ha : ¬ p a := not_of_mem_drop_lowerBound h (by rw [hd]; simp)
    simp [ha]

end

/-- In an ordered list the first hit is the least one. -/
theorem eq_or_rel_of_find? {r : α → α → Prop} (hl : l.Pairwise r) (hf : l.find? p = some x)
    (hy : y ∈ l) (hp : p y) : y = x ∨ r x y := by
  induction l with
  | nil => simp at hf
  | cons a l ih =>
    rw [List.pairwise_cons] at hl
    rw [List.find?_cons] at hf
    split at hf
    · obtain rfl : a = x := by simpa using hf
      rcases List.mem_cons.mp hy with rfl | hy
      · exact Or.inl rfl
      · exact Or.inr (hl.1 y hy)
    · rename_i hpa
      rcases List.mem_cons.mp hy with rfl | hy
      · simp [hpa] at hp
      · exact ih hl.2 hf hy

end Search
