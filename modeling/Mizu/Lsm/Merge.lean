import Mizu.Lsm.Run

/-!
# The merging iterator

`MergingIterator` walks several sorted children at once. Its state is the
current entry of every child, `none` for a child that has run out; the heap holds
the valid children and its top is the one with the least key, the lower index on a
tie. A child reads its source each time it moves, so a memtable that grows while
it is iterated shows its new entries ahead of the cursor and hides those behind.
-/

namespace Mizu.Lsm

/-- The current entries of the children. -/
abbrev Heads := List (Option Entry)

namespace MergingIterator

/-- The top of the heap: the child with the least current key. -/
def top : Heads → Option (ℕ × Entry)
  | [] => none
  | none :: hs => (top hs).map fun p => (p.1 + 1, p.2)
  | some e :: hs =>
    match top hs with
    | none => some (0, e)
    | some (i, x) => if x.key.Less e.key then some (i + 1, x) else some (0, e)

def seekToFirst (cs : List (List Entry)) : Heads := cs.map List.head?

def seek (cs : List (List Entry)) (target : InternalKey) : Heads :=
  cs.map fun c => Lsm.seek c target

/-- Only the child at the top moves. -/
def next (cs : List (List Entry)) (hs : Heads) : Heads :=
  match top hs with
  | none => hs
  | some (i, e) => hs.set i ((cs[i]?).bind fun c => successor c e)

/-- Everything the iterator passes from `hs` on. -/
def drain (cs : List (List Entry)) : ℕ → Heads → List Entry
  | 0, _ => []
  | fuel + 1, hs =>
    match top hs with
    | none => []
    | some (_, e) => e :: drain cs fuel (next cs hs)

/-- The whole merge, from `seekToFirst` until the iterator is invalid. -/
def merged (cs : List (List Entry)) : List Entry := drain cs cs.flatten.length (seekToFirst cs)

section Top

variable {hs : Heads} {i : ℕ} {e : Entry}

theorem top_eq_none (h : top hs = none) : ∀ x, some x ∉ hs := by
  induction hs with
  | nil => simp
  | cons a hs ih =>
    cases a with
    | none =>
      have h' : top hs = none := by simpa [top] using h
      intro x hx
      rcases List.mem_cons.mp hx with hx | hx
      · simp at hx
      · exact ih h' x hx
    | some e =>
      unfold top at h
      split at h
      · simp at h
      · split at h <;> simp at h

theorem getElem?_top (h : top hs = some (i, e)) : hs[i]? = some (some e) := by
  induction hs generalizing i e with
  | nil => simp [top] at h
  | cons a hs ih =>
    cases a with
    | none =>
      obtain ⟨⟨j, x⟩, hj, heq⟩ := Option.map_eq_some_iff.mp h
      cases heq
      simpa using ih hj
    | some a =>
      unfold top at h
      split at h
      · cases h
        rfl
      · rename_i j x hj
        split at h
        · cases h
          simpa using ih hj
        · cases h
          rfl

theorem top_le (h : top hs = some (i, e)) {x : Entry} (hx : some x ∈ hs) : e.key ≤ x.key := by
  induction hs generalizing i e with
  | nil => simp at hx
  | cons a hs ih =>
    cases a with
    | none =>
      obtain ⟨⟨j, y⟩, hj, heq⟩ := Option.map_eq_some_iff.mp h
      cases heq
      exact ih hj (by simpa using hx)
    | some a =>
      unfold top at h
      split at h
      · rename_i hnone
        cases h
        rcases List.mem_cons.mp hx with hx | hx
        · rw [Option.some.inj hx]
        · exact absurd hx (top_eq_none hnone x)
      · rename_i j y hj
        split at h
        · rename_i hless
          cases h
          rcases List.mem_cons.mp hx with hx | hx
          · rw [Option.some.inj hx]
            exact (InternalKey.less_iff.mp hless).le
          · exact ih hj hx
        · rename_i hless
          cases h
          rw [InternalKey.less_iff, not_lt] at hless
          rcases List.mem_cons.mp hx with hx | hx
          · rw [Option.some.inj hx]
          · exact hless.trans (ih hj hx)

/-- On a tie the child with the lower index is at the top. -/
theorem top_first (h : top hs = some (i, e)) {j : ℕ} {x : Entry} (hx : hs[j]? = some (some x)) :
    e.key < x.key ∨ e.key = x.key ∧ i ≤ j := by
  induction hs generalizing i j e with
  | nil => simp at hx
  | cons a hs ih =>
    cases a with
    | none =>
      obtain ⟨⟨k, y⟩, hk, heq⟩ := Option.map_eq_some_iff.mp h
      cases heq
      cases j with
      | zero => simp at hx
      | succ j =>
        rcases ih hk (by simpa using hx) with hlt | ⟨hkey, hle⟩
        · exact Or.inl hlt
        · exact Or.inr ⟨hkey, Nat.succ_le_succ hle⟩
    | some a =>
      cases j with
      | zero =>
        rw [List.getElem?_cons_zero, Option.some.injEq, Option.some.injEq] at hx
        subst hx
        unfold top at h
        split at h
        · cases h
          exact Or.inr ⟨rfl, le_rfl⟩
        · split at h
          · rename_i hless
            cases h
            exact Or.inl (InternalKey.less_iff.mp hless)
          · cases h
            exact Or.inr ⟨rfl, le_rfl⟩
      | succ j =>
        have hx' : hs[j]? = some (some x) := by simpa using hx
        have hle := top_le h (List.mem_of_getElem? hx)
        rcases hle.lt_or_eq with hlt | heq
        · exact Or.inl hlt
        refine Or.inr ⟨heq, ?_⟩
        unfold top at h
        split at h
        · obtain ⟨rfl, -⟩ := Prod.mk.inj (Option.some.inj h)
          exact Nat.zero_le _
        · rename_i k y hk
          split at h
          · cases h
            rcases ih hk hx' with hlt | ⟨-, hle⟩
            · exact absurd heq hlt.ne
            · exact Nat.succ_le_succ hle
          · obtain ⟨rfl, -⟩ := Prod.mk.inj (Option.some.inj h)
            exact Nat.zero_le _

end Top

/-- The keys an iterator has passed: a downward closed set. -/
def Cut (past : InternalKey → Prop) : Prop := ∀ a b, a ≤ b → past b → past a

/-- No key is in two children. -/
def Distinct (cs : List (List Entry)) : Prop :=
  cs.Pairwise fun a b => ∀ x ∈ a, ∀ y ∈ b, x.key ≠ y.key

/-- Every child stands beyond the cut, and no entry that matters is between the
cut and the child's current entry. -/
structure Positioned (matters : Entry → Prop) (past : InternalKey → Prop)
    (cs : List (List Entry)) (hs : Heads) : Prop where
  length : hs.length = cs.length
  head : ∀ (i : ℕ) c e, cs[i]? = some c → hs[i]? = some (some e) → e ∈ c ∧ ¬ past e.key
  ahead : ∀ (i : ℕ) c, cs[i]? = some c → ∀ x ∈ c, matters x → ¬ past x.key →
    ∃ e, hs[i]? = some (some e) ∧ e.key ≤ x.key

section Positioned

variable {matters : Entry → Prop} {past : InternalKey → Prop} {cs : List (List Entry)} {hs : Heads}
  {i : ℕ} {e x : Entry}

theorem positioned_seekToFirst (hasc : ∀ c ∈ cs, Ascending c) :
    Positioned matters (fun _ => False) cs (seekToFirst cs) := by
  refine ⟨by simp [seekToFirst], ?_, ?_⟩
  · intro i c e hc he
    simp only [seekToFirst, List.getElem?_map, hc, Option.map_some, Option.some.injEq] at he
    exact ⟨List.mem_of_head? he, not_false⟩
  · intro i c hc x hx _ _
    cases c with
    | nil => simp at hx
    | cons a as =>
      refine ⟨a, by simp [seekToFirst, List.getElem?_map, hc], ?_⟩
      rcases List.mem_cons.mp hx with rfl | hx
      · exact le_rfl
      · have ha := hasc _ (List.mem_of_getElem? hc)
        exact ((List.pairwise_cons.mp ha).1 x hx).le

theorem positioned_seek (hasc : ∀ c ∈ cs, Ascending c) (target : InternalKey) :
    Positioned matters (fun k => k < target) cs (seek cs target) := by
  refine ⟨by simp [seek], ?_, ?_⟩
  · intro i c e hc he
    simp only [seek, List.getElem?_map, hc, Option.map_some, Option.some.injEq] at he
    exact ⟨mem_of_seek he, not_lt.mpr (le_of_seek he)⟩
  · intro i c hc x hx _ hpast
    have ha := hasc _ (List.mem_of_getElem? hc)
    rw [not_lt] at hpast
    cases he : Lsm.seek c target with
    | none => exact absurd (seek_eq_none.mp he x hx) (not_lt.mpr hpast)
    | some e => exact ⟨e, by simp [seek, List.getElem?_map, hc, he], seek_le ha he hx hpast⟩

/-- The iterator is invalid only when nothing that matters is left. -/
theorem Positioned.past_of_top_none (h : Positioned matters past cs hs) (htop : top hs = none)
    {c : List Entry} (hc : c ∈ cs) (hx : x ∈ c) (hm : matters x) : past x.key := by
  by_contra hpast
  obtain ⟨i, hi⟩ := List.getElem?_of_mem hc
  obtain ⟨e, he, _⟩ := h.ahead i c hi x hx hm hpast
  exact top_eq_none htop e (List.mem_of_getElem? he)

theorem Positioned.top_mem (h : Positioned matters past cs hs) (htop : top hs = some (i, e)) :
    ∃ c, cs[i]? = some c ∧ e ∈ c ∧ ¬ past e.key := by
  have hi := getElem?_top htop
  obtain ⟨hlt, _⟩ := List.getElem?_eq_some_iff.mp hi
  have hc := List.getElem?_eq_getElem (l := cs) (i := i) (by rw [← h.length]; exact hlt)
  exact ⟨_, hc, h.head i _ e hc hi⟩

/-- The top is the least of what matters beyond the cut. -/
theorem Positioned.top_le (h : Positioned matters past cs hs) (htop : top hs = some (i, e))
    {c : List Entry} (hc : c ∈ cs) (hx : x ∈ c) (hm : matters x) (hpast : ¬ past x.key) :
    e.key ≤ x.key := by
  obtain ⟨j, hj⟩ := List.getElem?_of_mem hc
  obtain ⟨y, hy, hyx⟩ := h.ahead j c hj x hx hm hpast
  exact (MergingIterator.top_le htop (List.mem_of_getElem? hy)).trans hyx

theorem Distinct.ne (h : Distinct cs) {j : ℕ} {a b : List Entry} (ha : cs[i]? = some a)
    (hb : cs[j]? = some b) (hij : i ≠ j) (hx : x ∈ a) {y : Entry} (hy : y ∈ b) :
    x.key ≠ y.key := by
  obtain ⟨hi, rfl⟩ := List.getElem?_eq_some_iff.mp ha
  obtain ⟨hj, rfl⟩ := List.getElem?_eq_some_iff.mp hb
  rcases Nat.lt_or_gt_of_ne hij with hlt | hlt
  · exact List.pairwise_iff_getElem.mp h i j hi hj hlt x hx y hy
  · exact (List.pairwise_iff_getElem.mp h j i hj hi hlt y hy x hx).symm

/-- One step passes exactly the top. -/
theorem Positioned.next (h : Positioned matters past cs hs) (hcut : Cut past)
    (hasc : ∀ c ∈ cs, Ascending c) (hd : Distinct cs) (htop : top hs = some (i, e)) :
    Positioned matters (fun k => k ≤ e.key) cs (next cs hs) := by
  obtain ⟨c, hc, hec, hpe⟩ := h.top_mem htop
  have hi := getElem?_top htop
  have hnext : MergingIterator.next cs hs = hs.set i (successor c e) := by
    simp [MergingIterator.next, htop, hc]
  have hlt : i < hs.length := (List.getElem?_eq_some_iff.mp hi).1
  rw [hnext]
  refine ⟨by rw [List.length_set, h.length], ?_, ?_⟩
  · intro j d y hd' hy
    rcases eq_or_ne i j with rfl | hij
    · rw [List.getElem?_set_self hlt, Option.some.injEq] at hy
      rw [hc, Option.some.injEq] at hd'
      subst hd'
      exact ⟨mem_of_successor hy, not_le.mpr (lt_of_successor hy)⟩
    · rw [List.getElem?_set_ne hij] at hy
      have hyd := (h.head j d y hd' hy).1
      have hle := MergingIterator.top_le htop (List.mem_of_getElem? hy)
      exact ⟨hyd, not_le.mpr (hle.lt_of_ne (hd.ne hc hd' hij hec hyd))⟩
  · intro j d hd' x hx hm hpast
    rw [not_le] at hpast
    rcases eq_or_ne i j with rfl | hij
    · rw [hc, Option.some.injEq] at hd'
      subst hd'
      have ha := hasc _ (List.mem_of_getElem? hc)
      rw [List.getElem?_set_self hlt]
      cases hy : successor c e with
      | none => exact absurd (successor_eq_none.mp hy x hx) (not_le.mpr hpast)
      | some y => exact ⟨y, rfl, successor_le ha hy hx hpast⟩
    · rw [List.getElem?_set_ne hij]
      exact h.ahead j d hd' x hx hm fun hp => hpe (hcut _ _ hpast.le hp)

/-- A source that gains entries that do not matter leaves the iterator where it
stands. -/
theorem Positioned.grow {cs' : List (List Entry)} (h : Positioned matters past cs hs)
    (hlen : cs'.length = cs.length)
    (hold : ∀ (i : ℕ) c c', cs[i]? = some c → cs'[i]? = some c' →
      c ⊆ c' ∧ ∀ x ∈ c', matters x → x ∈ c) : Positioned matters past cs' hs := by
  have hget : ∀ (i : ℕ) c', cs'[i]? = some c' → ∃ c, cs[i]? = some c := by
    intro i c' hc'
    have hlt := (List.getElem?_eq_some_iff.mp hc').1
    exact ⟨_, List.getElem?_eq_getElem (by omega)⟩
  refine ⟨by rw [h.length, hlen], ?_, ?_⟩
  · intro i c' e hc' he
    obtain ⟨c, hc⟩ := hget i c' hc'
    have := h.head i c e hc he
    exact ⟨(hold i c c' hc hc').1 this.1, this.2⟩
  · intro i c' hc' x hx hm hpast
    obtain ⟨c, hc⟩ := hget i c' hc'
    exact h.ahead i c hc x ((hold i c c' hc hc').2 x hx hm) hm hpast

end Positioned

/-! ## The merge of fixed sources -/

section Drain

variable {past : InternalKey → Prop} {cs : List (List Entry)} {hs : Heads}

open Classical in
/-- How many entries an iterator that has passed `past` can still return. -/
noncomputable def remaining (past : InternalKey → Prop) (cs : List (List Entry)) : ℕ :=
  cs.flatten.countP fun x => ¬ past x.key

theorem remaining_lt {past' : InternalKey → Prop} {x : Entry} (hsub : ∀ k, past k → past' k)
    (hx : x ∈ cs.flatten) (hp : ¬ past x.key) (hp' : past' x.key) :
    remaining past' cs < remaining past cs := by
  classical
  unfold remaining
  generalize cs.flatten = l at hx ⊢
  have hmono : ∀ l : List Entry,
      l.countP (fun x => ¬ past' x.key) ≤ l.countP (fun x => ¬ past x.key) := by
    intro l
    apply List.countP_mono_left
    intro y _ hy
    simp only [decide_eq_true_eq] at hy ⊢
    exact fun h => hy (hsub _ h)
  obtain ⟨l₁, l₂, rfl⟩ := List.append_of_mem hx
  have h₁ := hmono l₁
  have h₂ := hmono l₂
  simp only [List.countP_append, List.countP_cons, hp, hp', not_true, not_false_eq_true,
    decide_true, decide_false, if_true] at *
  simp only [Bool.false_eq_true, if_false]
  omega

/-- With enough fuel the merge of fixed sources returns what is beyond the cut,
in order. -/
theorem drain_spec {fuel : ℕ} (h : Positioned (fun _ => True) past cs hs) (hcut : Cut past)
    (hasc : ∀ c ∈ cs, Ascending c) (hd : Distinct cs) (hfuel : remaining past cs ≤ fuel) :
    Ascending (drain cs fuel hs) ∧
      ∀ x, x ∈ drain cs fuel hs ↔ x ∈ cs.flatten ∧ ¬ past x.key := by
  induction fuel generalizing past hs with
  | zero =>
    refine ⟨List.Pairwise.nil, fun x => ⟨by simp [drain], ?_⟩⟩
    rintro ⟨hx, hp⟩
    have hall : ∀ k, past k → (fun _ => True) k := fun _ _ => trivial
    have := remaining_lt hall hx hp trivial
    omega
  | succ fuel ih =>
    unfold drain
    cases htop : top hs with
    | none =>
      refine ⟨List.Pairwise.nil, fun x => ⟨by simp, ?_⟩⟩
      rintro ⟨hx, hp⟩
      obtain ⟨c, hc, hxc⟩ := List.mem_flatten.mp hx
      exact absurd (h.past_of_top_none htop hc hxc trivial) hp
    | some p =>
      obtain ⟨i, e⟩ := p
      obtain ⟨c, hc, hec, hpe⟩ := h.top_mem htop
      have hmem : e ∈ cs.flatten := List.mem_flatten.mpr ⟨c, List.mem_of_getElem? hc, hec⟩
      have hsub : ∀ k, past k → k ≤ e.key := by
        intro k hk
        by_contra hlt
        exact hpe (hcut _ _ (not_le.mp hlt).le hk)
      have hcut' : Cut (fun k => k ≤ e.key) := fun a b hab hb => hab.trans hb
      obtain ⟨hord, hdrain⟩ := ih (h.next hcut hasc hd htop) hcut'
        (by have := remaining_lt hsub hmem hpe le_rfl; omega)
      constructor
      · refine List.pairwise_cons.mpr ⟨fun x hx => not_le.mp ((hdrain x).mp hx).2, hord⟩
      · intro x
        rw [List.mem_cons, hdrain x]
        constructor
        · rintro (rfl | ⟨hx, hlt⟩)
          · exact ⟨hmem, hpe⟩
          · exact ⟨hx, fun hp => hlt (hsub _ hp)⟩
        · rintro ⟨hx, hp⟩
          obtain ⟨d, hd', hxd⟩ := List.mem_flatten.mp hx
          rcases (h.top_le htop hd' hxd trivial hp).lt_or_eq with hlt | heq
          · exact Or.inr ⟨hx, not_le.mpr hlt⟩
          · -- equal keys are in the same child, and there at the same place
            left
            obtain ⟨j, hj⟩ := List.getElem?_of_mem hd'
            by_cases hij : i = j
            · subst hij
              rw [hc, Option.some.injEq] at hj
              subst hj
              exact (eq_of_key_eq (hasc _ hd') hec hxd heq).symm
            · exact absurd heq (hd.ne hc hj hij hec hxd)

theorem merged_spec (hasc : ∀ c ∈ cs, Ascending c) (hd : Distinct cs) :
    Ascending (merged cs) ∧ ∀ x, x ∈ merged cs ↔ x ∈ cs.flatten := by
  have hfuel : remaining (fun _ => False) cs ≤ cs.flatten.length := List.countP_le_length
  have h := drain_spec (positioned_seekToFirst hasc) (fun _ _ _ h => h) hasc hd hfuel
  simpa [merged] using h

end Drain

end MergingIterator

end Mizu.Lsm
