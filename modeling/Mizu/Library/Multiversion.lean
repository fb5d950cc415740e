import Mathlib.Tactic
import Mathlib.Data.Set.Lattice

/-!
# Multi-version maps

A multi-version map is a set of stamped updates. Reading a key at a time `t`
answers from its latest update not later than `t`; an update without a value is
a deletion. Layers of updates, each newer than the ones below it, are read by
stopping at the first layer that answers, and updates that no admissible time
can see may be collected.
-/

namespace Multiversion

/-- A write of `value` to `key`, or the deletion of `key`, at `time`. -/
structure Update (K V : Type*) where
  key : K
  time : ℕ
  value : Option V

/-- What a layer says about a key. -/
inductive Answer (V : Type*)
  | absent
  | deleted
  | value (v : V)
deriving DecidableEq

namespace Answer

variable {V : Type*}

/-- The value the reader gets. -/
def toOption : Answer V → Option V
  | value v => some v
  | _ => none

/-- The answer that an update gives. -/
def ofValue : Option V → Answer V
  | none => deleted
  | some v => value v

/-- A layer that says nothing leaves the answer to the layers below. -/
def orElse : Answer V → Answer V → Answer V
  | absent, r => r
  | r, _ => r

@[simp] theorem toOption_ofValue (o : Option V) : (ofValue o).toOption = o := by
  cases o <;> rfl

@[simp] theorem ofValue_ne_absent (o : Option V) : ofValue o ≠ absent := by
  cases o <;> simp [ofValue]

@[simp] theorem absent_orElse (r : Answer V) : absent.orElse r = r := rfl

@[simp] theorem orElse_absent (r : Answer V) : r.orElse absent = r := by
  cases r <;> rfl

theorem orElse_of_ne {r : Answer V} (h : r ≠ absent) (r' : Answer V) : r.orElse r' = r := by
  cases r <;> simp_all [orElse]

theorem orElse_assoc (a b c : Answer V) : (a.orElse b).orElse c = a.orElse (b.orElse c) := by
  cases a <;> rfl

/-- Layers that give the same value can be exchanged under an upper layer. -/
theorem toOption_orElse_congr (a : Answer V) {b c : Answer V} (h : b.toOption = c.toOption) :
    (a.orElse b).toOption = (a.orElse c).toOption := by
  cases a with
  | absent => exact h
  | deleted => rfl
  | value v => rfl

end Answer

variable {K V : Type*} {A B U U' : Set (Update K V)} {k : K} {t f : ℕ} {u : Update K V}
  {r r' : Answer V} {o o' : Option V}

/-- `u` is the update of `k` that a read at `t` sees. -/
structure Latest (U : Set (Update K V)) (k : K) (t : ℕ) (u : Update K V) : Prop where
  mem : u ∈ U
  key : u.key = k
  le : u.time ≤ t
  max : ∀ v ∈ U, v.key = k → v.time ≤ t → v.time ≤ u.time

/-- `r` answers a lookup of `k` at `t` in `U`. -/
inductive Answers (U : Set (Update K V)) (k : K) (t : ℕ) : Answer V → Prop
  | absent : (∀ u ∈ U, u.key = k → t < u.time) → Answers U k t .absent
  | latest {v : Update K V} : Latest U k t v → Answers U k t (.ofValue v.value)

/-- A read of `k` at `t` in `U` returns `o`. -/
def Reads (U : Set (Update K V)) (k : K) (t : ℕ) (o : Option V) : Prop :=
  ∃ r, Answers U k t r ∧ r.toOption = o

/-- No two updates of a key have the same time. -/
def Stamped (U : Set (Update K V)) : Prop :=
  ∀ u ∈ U, ∀ v ∈ U, u.key = v.key → u.time = v.time → u = v

/-- Every update in `A` is newer than every update of the same key in `B`. -/
def Newer (A B : Set (Update K V)) : Prop :=
  ∀ a ∈ A, ∀ b ∈ B, a.key = b.key → b.time < a.time

theorem Stamped.mono (h : Stamped U) (hsub : U' ⊆ U) : Stamped U' := by
  intro u hu v hv
  exact h u (hsub hu) v (hsub hv)

theorem Newer.union_left {A' : Set (Update K V)} (h : Newer A B) (h' : Newer A' B) :
    Newer (A ∪ A') B := by
  rintro a (ha | ha)
  · exact h a ha
  · exact h' a ha

/-- Times below `t` are bounded, so a key that has an update has a latest one. -/
theorem exists_latest (h : ∃ u ∈ U, u.key = k ∧ u.time ≤ t) : ∃ u, Latest U k t u := by
  classical
  obtain ⟨u, hu, hk, ht⟩ := h
  let P : ℕ → Prop := fun n => ∃ v ∈ U, v.key = k ∧ v.time = n
  have hP : P (Nat.findGreatest P t) := Nat.findGreatest_spec ht ⟨u, hu, hk, rfl⟩
  obtain ⟨v, hv, hvk, hvt⟩ := hP
  refine ⟨v, hv, hvk, ?_, ?_⟩
  · rw [hvt]
    exact Nat.findGreatest_le t
  · intro w hw hwk hwt
    rw [hvt]
    exact Nat.le_findGreatest hwt ⟨w, hw, hwk, rfl⟩

theorem exists_answer (U : Set (Update K V)) (k : K) (t : ℕ) : ∃ r, Answers U k t r := by
  by_cases h : ∃ u ∈ U, u.key = k ∧ u.time ≤ t
  · obtain ⟨u, hu⟩ := exists_latest h
    exact ⟨_, .latest hu⟩
  · refine ⟨_, .absent ?_⟩
    intro u hu hk
    by_contra hlt
    exact h ⟨u, hu, hk, by omega⟩

theorem exists_reads (U : Set (Update K V)) (k : K) (t : ℕ) : ∃ o, Reads U k t o := by
  obtain ⟨r, hr⟩ := exists_answer U k t
  exact ⟨_, r, hr, rfl⟩

theorem Latest.unique {v : Update K V} (hU : Stamped U) (hu : Latest U k t u)
    (hv : Latest U k t v) : u = v := by
  apply hU u hu.mem v hv.mem (by rw [hu.key, hv.key])
  have huv := hv.max u hu.mem hu.key hu.le
  have hvu := hu.max v hv.mem hv.key hv.le
  omega

theorem Answers.unique (hU : Stamped U) (hr : Answers U k t r) (hr' : Answers U k t r') :
    r = r' := by
  cases hr with
  | absent h =>
    cases hr' with
    | absent => rfl
    | latest hu => exact absurd (h _ hu.mem hu.key) (by have := hu.le; omega)
  | latest hu =>
    cases hr' with
    | absent h => exact absurd (h _ hu.mem hu.key) (by have := hu.le; omega)
    | latest hv => rw [hu.unique hU hv]

theorem Reads.unique (hU : Stamped U) (ho : Reads U k t o) (ho' : Reads U k t o') : o = o' := by
  obtain ⟨r, hr, rfl⟩ := ho
  obtain ⟨r', hr', rfl⟩ := ho'
  rw [hr.unique hU hr']

theorem Answers.congr (h : ∀ u, u.key = k → u.time ≤ t → (u ∈ U ↔ u ∈ U'))
    (hr : Answers U k t r) : Answers U' k t r := by
  cases hr with
  | absent hn =>
    apply Answers.absent
    intro u hu hk
    by_contra hlt
    have := hn u ((h u hk (by omega)).mpr hu) hk
    omega
  | latest hu =>
    refine .latest ⟨(h _ hu.key hu.le).mp hu.mem, hu.key, hu.le, ?_⟩
    intro v hv hk ht
    exact hu.max v ((h v hk ht).mpr hv) hk ht

/-- A read at `t` depends on the updates of its key up to `t` only. -/
theorem Reads.congr (h : ∀ u, u.key = k → u.time ≤ t → (u ∈ U ↔ u ∈ U')) (hr : Reads U k t o) :
    Reads U' k t o := by
  obtain ⟨r, hr, ho⟩ := hr
  exact ⟨r, hr.congr h, ho⟩

/-- Where nothing is stamped later than `f`, all times from `f` on read the same. -/
theorem Answers.of_bound (hU : ∀ u ∈ U, u.time ≤ f) (hf : f ≤ t) (hr : Answers U k f r) :
    Answers U k t r := by
  cases hr with
  | absent hn =>
    apply Answers.absent
    intro u hu hk
    have := hn u hu hk
    have := hU u hu
    omega
  | latest hu =>
    refine .latest ⟨hu.mem, hu.key, hu.le.trans hf, ?_⟩
    intro v hv hk _
    exact hu.max v hv hk (hU v hv)

theorem Reads.of_bound (hU : ∀ u ∈ U, u.time ≤ f) (hf : f ≤ t) (hr : Reads U k f o) :
    Reads U k t o := by
  obtain ⟨r, hr, ho⟩ := hr
  exact ⟨r, hr.of_bound hU hf, ho⟩

/-- The upper layer hides the lower one where it answers at all. -/
theorem Answers.union (hAB : Newer A B) (hr : Answers A k t r) (hr' : Answers B k t r') :
    Answers (A ∪ B) k t (r.orElse r') := by
  cases hr with
  | absent hn =>
    apply hr'.congr
    intro u hk ht
    constructor
    · exact Or.inr
    · rintro (hu | hu)
      · have := hn u hu hk
        omega
      · exact hu
  | @latest u hu =>
    rw [Answer.orElse_of_ne (Answer.ofValue_ne_absent _)]
    refine .latest ⟨Or.inl hu.mem, hu.key, hu.le, ?_⟩
    rintro v (hv | hv) hk ht
    · exact hu.max v hv hk ht
    · exact (hAB u hu.mem v hv (by rw [hu.key, hk])).le

/-- Two lower layers that read alike can be exchanged under an upper layer. -/
theorem Reads.union_congr (hA : Newer A U) (hA' : Newer A U') (hU : Stamped (A ∪ U))
    (h : ∀ o, Reads U k t o → Reads U' k t o) (hr : Reads (A ∪ U) k t o) :
    Reads (A ∪ U') k t o := by
  obtain ⟨a, ha⟩ := exists_answer A k t
  obtain ⟨b, hb⟩ := exists_answer U k t
  obtain ⟨b', hb', hbb⟩ := h _ ⟨b, hb, rfl⟩
  refine ⟨_, ha.union hA' hb', ?_⟩
  have ho : o = (a.orElse b).toOption := hr.unique hU ⟨_, ha.union hA hb, rfl⟩
  rw [ho]
  cases a with
  | absent => exact hbb
  | deleted => rfl
  | value v => rfl

/-- What `Collects` may drop from `U`, keeping `U'`: an update that a newer one
not later than the floor shadows, or a deletion below the floor under which
nothing of its key is kept. -/
structure Collects (f : ℕ) (U U' : Set (Update K V)) : Prop where
  sub : U' ⊆ U
  drop : ∀ u ∈ U, u ∉ U' →
    (∃ v ∈ U, v.key = u.key ∧ u.time < v.time ∧ v.time ≤ f) ∨
      (u.value = none ∧ ∀ v ∈ U', v.key = u.key → u.time ≤ v.time)

/-- Collection is invisible from the floor on. -/
theorem Collects.reads (h : Collects f U U') (hU : Stamped U) (hf : f ≤ t) :
    Reads U k t o ↔ Reads U' k t o := by
  have fwd : ∀ o, Reads U k t o → Reads U' k t o := by
    rintro o ⟨r, hr, rfl⟩
    cases hr with
    | absent hn => exact ⟨_, .absent fun u hu => hn u (h.sub hu), rfl⟩
    | @latest u hu =>
      by_cases hmem : u ∈ U'
      · exact ⟨_, .latest ⟨hmem, hu.key, hu.le, fun v hv => hu.max v (h.sub hv)⟩, rfl⟩
      · rcases h.drop u hu.mem hmem with ⟨v, hv, hvk, hlt, hvf⟩ | ⟨hdel, hold⟩
        · -- the shadowing update would have been the latest
          have := hu.max v hv (by rw [hvk, hu.key]) (hvf.trans hf)
          omega
        · refine ⟨.absent, .absent ?_, by rw [hdel]; rfl⟩
          intro v hv hvk
          by_contra hlt
          have hle := hold v hv (by rw [hvk, hu.key])
          have hge := hu.max v (h.sub hv) hvk (by omega)
          have heq := hU v (h.sub hv) u hu.mem (by rw [hvk, hu.key]) (by omega)
          exact hmem (heq ▸ hv)
  constructor
  · exact fwd o
  · intro hr
    obtain ⟨o', ho'⟩ := exists_reads U k t
    rw [hr.unique (hU.mono h.sub) (fwd o' ho')]
    exact ho'

end Multiversion
