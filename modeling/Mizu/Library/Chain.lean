import Mathlib.Tactic

/-!
# Sequences whose elements record their predecessor

Elements have a position and a tag. A relation `H` records, for each element ever
made, the tag of the element it was put after. A partial sequence is linked when
each of its elements stands at its own position and `H` has recorded the one before
it. If position and tag determine the record, two linked sequences that have a
common element agree below it, as far as both are defined.
-/

namespace Chain

variable {ε τ : Type*} {pos : ε → ℕ} {tag : ε → τ} {H K : ε → τ → Prop} {f g : ℕ → Option ε}

/-- `f` is a sequence of recorded elements in their places. -/
structure Linked (pos : ε → ℕ) (tag : ε → τ) (H : ε → τ → Prop) (f : ℕ → Option ε) : Prop where
  at_pos : ∀ n e, f n = some e → pos e = n
  link : ∀ n e e', f n = some e → f (n + 1) = some e' → H e' (tag e)

/-- Position and tag determine an element and the tag before it. -/
def Unambiguous (pos : ε → ℕ) (tag : ε → τ) (H : ε → τ → Prop) : Prop :=
  ∀ e e' t t', H e t → H e' t' → pos e = pos e' → tag e = tag e' → e = e' ∧ t = t'

theorem Linked.mono (h : Linked pos tag H f) (hHK : ∀ e t, H e t → K e t) :
    Linked pos tag K f :=
  ⟨h.at_pos, fun n e e' he he' => hHK _ _ (h.link n e e' he he')⟩

/-- Part of a linked sequence. -/
theorem Linked.restrict (h : Linked pos tag H f) (hfg : ∀ n, g n = f n ∨ g n = none) :
    Linked pos tag H g := by
  have sub {n e} (he : g n = some e) : f n = some e := by
    rcases hfg n with hn | hn
    · rwa [hn] at he
    · simp [hn] at he
  exact ⟨fun n e he => h.at_pos n e (sub he), fun n e e' he he' => h.link n e e' (sub he) (sub he')⟩

/-- `f` up to `p` and `g` from there on, which agree on the tag at `p`. -/
theorem Linked.splice (hf : Linked pos tag H f) (hg : Linked pos tag H g) {p : ℕ}
    (hp : ∀ e e', f p = some e → g p = some e' → tag e = tag e') (hdef : (g p).isSome) :
    Linked pos tag H fun n => if n ≤ p then f n else g n := by
  refine ⟨fun n e he => ?_, fun n e e' he he' => ?_⟩
  · split_ifs at he
    · exact hf.at_pos n e he
    · exact hg.at_pos n e he
  · split_ifs at he he' with h₁ h₂ h₂
    · exact hf.link n e e' he he'
    · -- the link across the joint is the one in `g`
      have hn : n = p := by omega
      subst hn
      obtain ⟨d, hd⟩ := Option.isSome_iff_exists.mp hdef
      rw [hp e d he hd]
      exact hg.link n d e' hd he'
    · omega
    · exact hg.link n e e' he he'

/-- `f` with one more element, recorded in `K`, at the end. -/
theorem Linked.snoc (h : Linked pos tag H f) (hHK : ∀ e t, H e t → K e t) {n : ℕ} {x : ε}
    (hx : pos x = n) (hlast : ∀ m e, m + 1 = n → f m = some e → K x (tag e))
    (hend : ∀ m, n < m → f m = none) :
    Linked pos tag K fun m => if m = n then some x else f m := by
  refine ⟨fun m e he => ?_, fun m e e' he he' => ?_⟩
  · split_ifs at he with hm
    · cases he
      exact hx.trans hm.symm
    · exact h.at_pos m e he
  · split_ifs at he he' with h₁ h₂ h₂
    · omega
    · rw [hend (m + 1) (by omega)] at he'
      cases he'
    · cases he'
      exact hlast m e h₂ he
    · exact hHK _ _ (h.link m e e' he he')

/-- Two linked sequences with equal tags at `n` have equal tags from `a` on and equal
elements above `a`, where both are defined. -/
theorem Linked.agree (hH : Unambiguous pos tag H) (hf : Linked pos tag H f)
    (hg : Linked pos tag H g) {a n : ℕ} (hfd : ∀ k, a ≤ k → k ≤ n → (f k).isSome)
    (hgd : ∀ k, a ≤ k → k ≤ n → (g k).isSome) {e e' : ε} (he : f n = some e) (he' : g n = some e')
    (ht : tag e = tag e') {k : ℕ} (hak : a ≤ k) (hkn : k ≤ n) :
    ∃ d d', f k = some d ∧ g k = some d' ∧ tag d = tag d' ∧ (a < k → d = d') := by
  -- one link: equal tags at `m + 1` give equal elements there and equal tags at `m`
  have down {m : ℕ} {x x' y y' : ε} (hx : f m = some x) (hx' : g m = some x')
      (hy : f (m + 1) = some y) (hy' : g (m + 1) = some y') (hty : tag y = tag y') :
      y = y' ∧ tag x = tag x' :=
    hH y y' _ _ (hf.link m x y hx hy) (hg.link m x' y' hx' hy')
      ((hf.at_pos _ y hy).trans (hg.at_pos _ y' hy').symm) hty
  obtain ⟨j, rfl⟩ := Nat.exists_eq_add_of_le hkn
  induction j generalizing k with
  | zero =>
    refine ⟨e, e', he, he', ht, fun hlt => ?_⟩
    obtain ⟨m, rfl⟩ : ∃ m, k = m + 1 := ⟨k - 1, by omega⟩
    obtain ⟨x, hx⟩ := Option.isSome_iff_exists.mp (hfd m (by omega) (by omega))
    obtain ⟨x', hx'⟩ := Option.isSome_iff_exists.mp (hgd m (by omega) (by omega))
    exact (down hx hx' he he' ht).1
  | succ j ih =>
    have hn : k + 1 + j = k + (j + 1) := by omega
    obtain ⟨y, y', hy, hy', hty, -⟩ := ih (k := k + 1) (by omega) (by rwa [hn]) (by rwa [hn])
      (by rwa [hn]) (by rwa [hn]) (by omega)
    obtain ⟨x, hx⟩ := Option.isSome_iff_exists.mp (hfd k hak hkn)
    obtain ⟨x', hx'⟩ := Option.isSome_iff_exists.mp (hgd k hak hkn)
    have htx := (down hx hx' hy hy' hty).2
    refine ⟨x, x', hx, hx', htx, fun hlt => ?_⟩
    obtain ⟨m, rfl⟩ : ∃ m, k = m + 1 := ⟨k - 1, by omega⟩
    obtain ⟨z, hz⟩ := Option.isSome_iff_exists.mp (hfd m (by omega) (by omega))
    obtain ⟨z', hz'⟩ := Option.isSome_iff_exists.mp (hgd m (by omega) (by omega))
    exact (down hz hz' hx hx' htx).1

/-- If tags never fall along `H`, they do not fall along `f`. -/
theorem Linked.tag_le [Preorder τ] (hmono : ∀ e t, H e t → t ≤ tag e) (hf : Linked pos tag H f)
    {n k : ℕ} (hd : ∀ i, n ≤ i → i ≤ k → (f i).isSome) {e d : ε} (he : f n = some e) (hk : n ≤ k)
    (hdk : f k = some d) : tag e ≤ tag d := by
  induction k, hk using Nat.le_induction generalizing d with
  | base =>
    rw [he] at hdk
    exact (congrArg tag (Option.some.inj hdk)).le
  | succ k hk ih =>
    obtain ⟨x, hx⟩ := Option.isSome_iff_exists.mp (hd k hk (Nat.le_succ k))
    have hle := ih (fun i h₁ h₂ => hd i h₁ (h₂.trans (Nat.le_succ k))) hx
    exact hle.trans (hmono d _ (hf.link k x d hx hdk))

/-- If the elements of one tag follow each other in `H`, then below an element of the tag
of `e₀` the sequence `f` has that tag down to the position of `e₀`. -/
theorem Linked.tag_down
    (hrun : ∀ e t e' t', H e t → H e' t' → tag e = tag e' → pos e' < pos e → t = tag e)
    (hf : Linked pos tag H f) {e₀ : ε} {t₀ : τ} (h₀ : H e₀ t₀) {n k : ℕ}
    (hd : ∀ i, k ≤ i → i ≤ n → (f i).isSome) {e d : ε} (he : f n = some e)
    (ht : tag e = tag e₀) (hk : pos e₀ ≤ k) (hkn : k ≤ n) (hdk : f k = some d) :
    tag d = tag e₀ := by
  obtain ⟨j, rfl⟩ := Nat.exists_eq_add_of_le hkn
  induction j generalizing k d with
  | zero =>
    rw [Nat.add_zero, hdk] at he
    exact Option.some.inj he ▸ ht
  | succ j ih =>
    have hn : k + 1 + j = k + (j + 1) := by omega
    obtain ⟨x, hx⟩ := Option.isSome_iff_exists.mp (hd (k + 1) (Nat.le_succ k) (by omega))
    have htx := ih (k := k + 1) (by omega) hx (fun i h₁ h₂ => hd i (by omega) (by omega))
      (by rwa [hn]) (by omega)
    have hlink := hf.link k d x hdk hx
    have hpos := hf.at_pos _ x hx
    exact (hrun x _ e₀ t₀ hlink h₀ htx (by omega)).trans htx

end Chain
