import Mathlib.Data.List.Basic
import Mathlib.Order.Nat
import Mathlib.Tactic.Common

/-!
# Binary heaps with an outside order

A heap in a list: the children of position `i` are at `2 i + 1` and `2 i + 2`. The comparison
is an argument of every operation and not part of the heap, so it may read data that changes
between operations; as long as it orders the elements in the heap as before, the heap is one for
the new comparison as well. `below a b` says that `b` goes above `a`.

To remove the top, the hole it leaves sinks to a leaf, and the last element rises from there.
-/

namespace PriorityQueue

variable {α : Type*} {below : α → α → Bool} {h : List α} {v x : α} {i j : ℕ}

/-- Moves `v` up from the hole until its parent is not below it. -/
def siftUp (below : α → α → Bool) (v : α) : ℕ → ℕ → List α → List α
  | 0, hole, h => h.set hole v
  | fuel + 1, hole, h =>
    if hole = 0 then h.set hole v
    else
      match h[(hole - 1) / 2]? with
      | none => h.set hole v
      | some p =>
        if below p v then siftUp below v fuel ((hole - 1) / 2) (h.set hole p) else h.set hole v

/-- Moves the hole down to a leaf, along the children that go above their siblings, and `v` up
from there. -/
def siftDown (below : α → α → Bool) (v : α) : ℕ → ℕ → List α → List α
  | 0, hole, h => siftUp below v hole hole h
  | fuel + 1, hole, h =>
    match h[2 * hole + 1]?, h[2 * hole + 2]? with
    | some a, some b =>
      if below b a then siftDown below v fuel (2 * hole + 1) (h.set hole a)
      else siftDown below v fuel (2 * hole + 2) (h.set hole b)
    | some a, none => siftDown below v fuel (2 * hole + 1) (h.set hole a)
    | none, _ => siftUp below v hole hole h

def push (below : α → α → Bool) (h : List α) (v : α) : List α :=
  siftUp below v h.length h.length (h ++ [v])

def pop (below : α → α → Bool) (h : List α) : List α :=
  match h.dropLast, h.getLast? with
  | [], _ => []
  | _ :: _, none => []
  | a :: h', some v => siftDown below v (h'.length + 1) 0 (a :: h')

theorem pop_concat (a : α) (h : List α) (v : α) :
    pop below (a :: (h ++ [v])) = siftDown below v (h.length + 1) 0 (a :: h) := by
  have hd : (a :: (h ++ [v])).dropLast = a :: h := by
    rw [← List.cons_append, List.dropLast_concat]
  have hl : (a :: (h ++ [v])).getLast? = some v := by
    rw [← List.cons_append, List.getLast?_concat]
  unfold pop
  rw [hd, hl]

/-! ### Elements -/

/-- Filling the hole from `j` and `v` in at `j` only moves elements. -/
theorem set_set_perm (hij : i ≠ j) (hi : i < h.length) (hj : h[j]? = some x) :
    ((h.set i x).set j v).Perm (h.set i v) := by
  obtain ⟨hlt, rfl⟩ := List.getElem?_eq_some_iff.mp hj
  have hi' : i < (h.set i v).length := by rwa [List.length_set]
  have hj' : j < (h.set i v).length := by rwa [List.length_set]
  have hperm := List.set_set_perm hi' hj'
  simpa [List.getElem_set_ne hij] using hperm

variable {fuel : ℕ}

theorem siftUp_perm (hi : i < h.length) :
    (siftUp below v fuel i h).Perm (h.set i v) := by
  induction fuel generalizing i h with
  | zero => exact List.Perm.refl _
  | succ fuel ih =>
    unfold siftUp
    split
    · exact List.Perm.refl _
    · cases hp : h[(i - 1) / 2]? with
      | none => exact List.Perm.refl _
      | some p =>
        dsimp only
        split
        · have hlt := (List.getElem?_eq_some_iff.mp hp).1
          exact (ih (by simpa using hlt)).trans (set_set_perm (by omega) hi hp)
        · exact List.Perm.refl _

theorem siftDown_perm (hi : i < h.length) :
    (siftDown below v fuel i h).Perm (h.set i v) := by
  induction fuel generalizing i h with
  | zero => exact siftUp_perm hi
  | succ fuel ih =>
    -- whichever child moves up, the hole is then where it was
    have hdown : ∀ (c : ℕ) a, i < c → h[c]? = some a →
        (siftDown below v fuel c (h.set i a)).Perm (h.set i v) := by
      intro c a hic ha
      have hlt := (List.getElem?_eq_some_iff.mp ha).1
      exact (ih (by simpa using hlt)).trans (set_set_perm hic.ne hi ha)
    unfold siftDown
    split
    · rename_i a b ha hb
      split
      · exact hdown _ a (by omega) ha
      · exact hdown _ b (by omega) hb
    · rename_i a ha hb
      exact hdown _ a (by omega) ha
    · exact siftUp_perm hi

theorem push_perm : (push below h v).Perm (v :: h) := by
  have hp : (push below h v).Perm ((h ++ [v]).set h.length v) := siftUp_perm (by simp)
  have hset : (h ++ [v]).set h.length v = h ++ [v] := by simp
  rw [hset] at hp
  exact hp.trans (List.perm_append_singleton v h)

theorem pop_perm (a : α) (h : List α) : (pop below (a :: h)).Perm h := by
  rcases List.eq_nil_or_concat h with rfl | ⟨h', v, rfl⟩
  · simp [pop]
  · rw [List.concat_eq_append, pop_concat]
    have hp : (siftDown below v (h'.length + 1) 0 (a :: h')).Perm ((a :: h').set 0 v) :=
      siftDown_perm (by simp)
    exact hp.trans (List.perm_append_singleton v h').symm

/-! ### Order -/

/-- The comparison is a strict weak order. -/
structure StrictWeak (below : α → α → Bool) : Prop where
  asymm : ∀ {a b}, below a b = true → below b a = false
  negTrans : ∀ {a b c}, below a b = false → below b c = false → below a c = false

theorem StrictWeak.irrefl (hs : StrictWeak below) (a : α) : below a a = false := by
  cases haa : below a a with
  | false => rfl
  | true => rw [← haa, hs.asymm haa]

/-- No element is below its child. -/
def Ordered (below : α → α → Bool) (h : List α) : Prop :=
  ∀ (i : ℕ) x p, 0 < i → h[i]? = some x → h[(i - 1) / 2]? = some p → below p x = false

/-- Every pair of a parent and a child that does not touch the hole is in order, and the
children of the hole are in order with its parent. -/
structure Open (below : α → α → Bool) (hole : ℕ) (h : List α) : Prop where
  rest : ∀ (i : ℕ) x p, 0 < i → i ≠ hole → (i - 1) / 2 ≠ hole → h[i]? = some x →
    h[(i - 1) / 2]? = some p → below p x = false
  across : ∀ (i : ℕ) x p, 0 < hole → 0 < i → (i - 1) / 2 = hole → h[i]? = some x →
    h[(hole - 1) / 2]? = some p → below p x = false

/-- The children of the hole are in order with `v`. -/
def Above (below : α → α → Bool) (hole : ℕ) (v : α) (h : List α) : Prop :=
  ∀ (i : ℕ) x, 0 < i → (i - 1) / 2 = hole → h[i]? = some x → below v x = false

theorem Open.fill (hopen : Open below i h) (habove : Above below i v h) (hi : i < h.length)
    (hparent : ∀ p, 0 < i → h[(i - 1) / 2]? = some p → below p v = false) :
    Ordered below (h.set i v) := by
  intro j x p hj hx hp
  by_cases hji : j = i
  · subst hji
    rw [List.getElem?_set_self hi, Option.some.injEq] at hx
    rw [List.getElem?_set_ne (by omega)] at hp
    rw [← hx]
    exact hparent p hj hp
  · rw [List.getElem?_set_ne (Ne.symm hji)] at hx
    by_cases hpi : (j - 1) / 2 = i
    · rw [hpi, List.getElem?_set_self hi, Option.some.injEq] at hp
      rw [← hp]
      exact habove j x hj hpi hx
    · rw [List.getElem?_set_ne (Ne.symm hpi)] at hp
      exact hopen.rest j x p hj hji hpi hx hp

/-- The parent moves into the hole. -/
theorem Open.up (hs : StrictWeak below) (hopen : Open below i h) (hi : i < h.length) (hpos : 0 < i)
    {p : α} (hp : h[(i - 1) / 2]? = some p) (hlt : below p v = true) :
    Open below ((i - 1) / 2) (h.set i p) ∧ Above below ((i - 1) / 2) v (h.set i p) := by
  have hne : (i - 1) / 2 ≠ i := by omega
  -- the children of the parent, the hole's new element among them
  have hchild : ∀ (j : ℕ) x, 0 < j → (j - 1) / 2 = (i - 1) / 2 → (h.set i p)[j]? = some x →
      below p x = false := by
    intro j x hj hpj hx
    by_cases hji : j = i
    · subst hji
      rw [List.getElem?_set_self hi, Option.some.injEq] at hx
      rw [← hx]
      exact hs.irrefl p
    · rw [List.getElem?_set_ne (Ne.symm hji)] at hx
      exact hopen.rest j x p hj hji (by omega) hx (hpj ▸ hp)
  refine ⟨⟨?_, ?_⟩, ?_⟩
  · intro j x q hj hji hpj hx hq
    by_cases hjh : j = i
    · exact absurd (by rw [hjh]) hpj
    rw [List.getElem?_set_ne (Ne.symm hjh)] at hx
    by_cases hqi : (j - 1) / 2 = i
    · rw [hqi, List.getElem?_set_self hi, Option.some.injEq] at hq
      rw [← hq]
      exact hopen.across j x p hpos hj hqi hx hp
    · rw [List.getElem?_set_ne (Ne.symm hqi)] at hq
      exact hopen.rest j x q hj hjh hqi hx hq
  · intro j x q hpos' hj hpj hx hq
    rw [List.getElem?_set_ne (by omega)] at hq
    have hqp := hopen.rest _ p q hpos' hne (by omega) hp hq
    exact hs.negTrans hqp (hchild j x hj hpj hx)
  · intro j x hj hpj hx
    exact hs.negTrans (hs.asymm hlt) (hchild j x hj hpj hx)

theorem siftUp_ordered (hs : StrictWeak below) (hopen : Open below i h)
    (habove : Above below i v h) (hi : i < h.length) (hfuel : i ≤ fuel) :
    Ordered below (siftUp below v fuel i h) := by
  induction fuel generalizing i h with
  | zero =>
    exact hopen.fill habove hi fun p hpos => absurd hpos (by omega)
  | succ fuel ih =>
    unfold siftUp
    split
    · exact hopen.fill habove hi fun p hpos => absurd hpos (by omega)
    · cases hp : h[(i - 1) / 2]? with
      | none =>
        refine hopen.fill habove hi fun p _ hp' => ?_
        rw [hp] at hp'
        exact absurd hp' (by simp)
      | some p =>
        dsimp only
        split
        · rename_i hlt
          obtain ⟨hopen', habove'⟩ := hopen.up hs hi (by omega) hp hlt
          have hlt' := (List.getElem?_eq_some_iff.mp hp).1
          exact ih hopen' habove' (by simpa using hlt') (by omega)
        · rename_i hlt
          refine hopen.fill habove hi fun q _ hq => ?_
          rw [hp, Option.some.injEq] at hq
          rw [← hq]
          simpa using hlt

/-- A child that goes above its sibling moves into the hole. -/
theorem Open.down (hopen : Open below i h) (hi : i < h.length) {c : ℕ} (hc : 0 < c)
    (hci : (c - 1) / 2 = i) {a : α} (ha : h[c]? = some a)
    (hsib : ∀ (j : ℕ) x, 0 < j → j ≠ c → (j - 1) / 2 = i → h[j]? = some x → below a x = false) :
    Open below c (h.set i a) := by
  constructor
  · intro j x p hj hjc hpc hx hp
    by_cases hji : j = i
    · subst hji
      rw [List.getElem?_set_self hi, Option.some.injEq] at hx
      rw [List.getElem?_set_ne (by omega)] at hp
      rw [← hx]
      exact hopen.across c a p hj hc hci ha hp
    · rw [List.getElem?_set_ne (Ne.symm hji)] at hx
      by_cases hpi : (j - 1) / 2 = i
      · rw [hpi, List.getElem?_set_self hi, Option.some.injEq] at hp
        rw [← hp]
        exact hsib j x hj hjc hpi hx
      · rw [List.getElem?_set_ne (Ne.symm hpi)] at hp
        exact hopen.rest j x p hj hji hpi hx hp
  · intro j x p _ hj hpj hx hp
    rw [hci, List.getElem?_set_self hi, Option.some.injEq] at hp
    rw [List.getElem?_set_ne (by omega)] at hx
    rw [← hp]
    exact hopen.rest j x a hj (by omega) (by omega) hx (hpj ▸ ha)

theorem siftDown_ordered (hs : StrictWeak below) (hopen : Open below i h)
    (hi : i < h.length) (hfuel : h.length ≤ i + fuel) :
    Ordered below (siftDown below v fuel i h) := by
  -- a hole without children
  have hleaf : ∀ {i : ℕ} {h : List α}, Open below i h → i < h.length → h[2 * i + 1]? = none →
      Ordered below (siftUp below v i i h) := by
    intro i h hopen hi hnone
    refine siftUp_ordered hs hopen ?_ hi le_rfl
    intro j x hj hpj hx
    have hlen := List.getElem?_eq_none_iff.mp hnone
    have hlt := (List.getElem?_eq_some_iff.mp hx).1
    omega
  induction fuel generalizing i h with
  | zero => omega
  | succ fuel ih =>
    unfold siftDown
    split
    · rename_i a b ha hb
      have hla := (List.getElem?_eq_some_iff.mp ha).1
      have hlb := (List.getElem?_eq_some_iff.mp hb).1
      split
      · rename_i hlt
        refine ih (hopen.down hi (by omega) (by omega) ha ?_) (by simpa using hla)
          (by rw [List.length_set]; omega)
        intro j x hj hjc hpj hx
        obtain rfl : j = 2 * i + 2 := by omega
        rw [hb, Option.some.injEq] at hx
        rw [← hx]
        exact hs.asymm hlt
      · rename_i hlt
        refine ih (hopen.down hi (by omega) (by omega) hb ?_) (by simpa using hlb)
          (by rw [List.length_set]; omega)
        intro j x hj hjc hpj hx
        obtain rfl : j = 2 * i + 1 := by omega
        rw [ha, Option.some.injEq] at hx
        rw [← hx]
        simpa using hlt
    · rename_i a ha hb
      have hla := (List.getElem?_eq_some_iff.mp ha).1
      refine ih (hopen.down hi (by omega) (by omega) ha ?_) (by simpa using hla)
        (by rw [List.length_set]; omega)
      intro j x hj hjc hpj hx
      obtain rfl : j = 2 * i + 2 := by omega
      rw [hb] at hx
      exact absurd hx (by simp)
    · rename_i hnone
      exact hleaf hopen hi hnone

theorem ordered_nil : Ordered below ([] : List α) := by
  intro i x p _ hx
  simp at hx

theorem Ordered.push (hs : StrictWeak below) (ho : Ordered below h) (v : α) :
    Ordered below (push below h v) := by
  -- all of the pairs off the last position are pairs of `h`
  have hold : ∀ {i : ℕ} {x}, i ≠ h.length → (h ++ [v])[i]? = some x → h[i]? = some x := by
    intro i x hne hx
    have hlt := (List.getElem?_eq_some_iff.mp hx).1
    rw [List.length_append, List.length_singleton] at hlt
    rwa [List.getElem?_append_left (by omega)] at hx
  refine siftUp_ordered hs ⟨?_, ?_⟩ ?_ (by simp) le_rfl
  · intro i x p hi hne hpne hx hp
    exact ho i x p hi (hold hne hx) (hold hpne hp)
  · intro i x p _ hi hpi hx
    have hlt := (List.getElem?_eq_some_iff.mp hx).1
    rw [List.length_append, List.length_singleton] at hlt
    omega
  · intro i x hi hpi hx
    have hlt := (List.getElem?_eq_some_iff.mp hx).1
    rw [List.length_append, List.length_singleton] at hlt
    omega

theorem Ordered.pop (hs : StrictWeak below) (ho : Ordered below h) :
    Ordered below (pop below h) := by
  cases h with
  | nil => exact ordered_nil
  | cons a h =>
    rcases List.eq_nil_or_concat h with rfl | ⟨h', v, rfl⟩
    · exact ordered_nil
    · rw [List.concat_eq_append] at ho ⊢
      rw [pop_concat]
      have hold : ∀ {i : ℕ} {x}, (a :: h')[i]? = some x → (a :: (h' ++ [v]))[i]? = some x := by
        intro i x hx
        have hlt := (List.getElem?_eq_some_iff.mp hx).1
        rw [← List.cons_append, List.getElem?_append_left hlt]
        exact hx
      refine siftDown_ordered hs ⟨?_, ?_⟩ (by simp) (by simp)
      · intro i x p hi _ _ hx hp
        exact ho i x p hi (hold hx) (hold hp)
      · intro i x p hpos
        exact absurd hpos (by omega)

/-- The first element is below none. -/
theorem Ordered.head (hs : StrictWeak below) {a : α} (ho : Ordered below (a :: h))
    (hx : x ∈ a :: h) : below a x = false := by
  obtain ⟨i, hi⟩ := List.getElem?_of_mem hx
  induction i using Nat.strongRecOn generalizing x with
  | ind i ih =>
    by_cases hzero : i = 0
    · subst hzero
      rw [List.getElem?_cons_zero, Option.some.injEq] at hi
      rw [← hi]
      exact hs.irrefl a
    · have hlt := (List.getElem?_eq_some_iff.mp hi).1
      have hp := List.getElem?_eq_getElem (l := a :: h) (i := (i - 1) / 2) (by omega)
      have hup := ih ((i - 1) / 2) (by omega) (List.mem_of_getElem? hp) hp
      exact hs.negTrans hup (ho i x _ (by omega) hi hp)

/-- A heap for one comparison is one for any that orders its elements the same way. -/
theorem Ordered.congr {below' : α → α → Bool} (ho : Ordered below h)
    (heq : ∀ x ∈ h, ∀ y ∈ h, below' x y = below x y) : Ordered below' h := by
  intro i x p hi hx hp
  rw [heq p (List.mem_of_getElem? hp) x (List.mem_of_getElem? hx)]
  exact ho i x p hi hx hp

end PriorityQueue
