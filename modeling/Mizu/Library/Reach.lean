import Mathlib.Tactic

/-!
# Runs of a labelled transition system

A run starts in an initial state and takes labelled steps. `Reach S G` collects
the states of the runs whose steps all satisfy the guard `G`, a condition on
the label and the state before the step; the unguarded runs are `Reach S ⊤`.
-/

/-- Initial states and labelled steps over states `σ` and labels `α`. -/
structure TransitionSystem (σ α : Type*) where
  init : σ → Prop
  step : σ → α → σ → Prop

namespace TransitionSystem

variable {σ α : Type*} (S : TransitionSystem σ α)

inductive Reach (G : σ → α → Prop) : σ → Prop
  | init {s} : S.init s → Reach G s
  | step {s a s'} : Reach G s → G s a → S.step s a s' → Reach G s'

variable {S} {G H : σ → α → Prop} {s : σ}

/-- Proof by invariant: the invariant may use that the state it starts from is reachable. -/
theorem Reach.induct {I : σ → Prop} (h : S.Reach G s) (init : ∀ s, S.init s → I s)
    (step : ∀ s a s', S.Reach G s → I s → G s a → S.step s a s' → I s') : I s := by
  induction h with
  | init h => exact init _ h
  | step hr hg hs ih => exact step _ _ _ hr ih hg hs

/-- A guard that the steps of the run satisfy anyway can be exchanged for another. -/
theorem Reach.imp (h : S.Reach G s)
    (himp : ∀ s a s', S.Reach G s → G s a → S.step s a s' → H s a) : S.Reach H s := by
  induction h with
  | init h => exact .init h
  | step hr hg hs ih => exact .step ih (himp _ _ _ hr hg hs) hs

/-- Take the labels of a list one after the other with a computable step function. -/
def exec (next : σ → α → Option σ) : σ → List α → Option σ
  | s, [] => some s
  | s, a :: as => do
    let s ← next s a
    exec next s as

theorem Reach.exec {next : σ → α → Option σ}
    (sound : ∀ s a s', next s a = some s' → G s a ∧ S.step s a s') {as : List α} {s' : σ}
    (h : S.Reach G s) (he : exec next s as = some s') : S.Reach G s' := by
  induction as generalizing s with
  | nil =>
    cases he
    exact h
  | cons a as ih =>
    obtain ⟨t, ht, he⟩ := Option.bind_eq_some_iff.mp he
    obtain ⟨hg, hs⟩ := sound _ _ _ ht
    exact ih (.step h hg hs) he

section Guarded

variable {E : σ → α → Prop} [∀ s a, Decidable (G s a)] [∀ s a, Decidable (E s a)]
  {act : σ → α → Option σ}

/-- A step that is computed where the guard and the condition `E` hold. -/
def guarded (G E : σ → α → Prop) [∀ s a, Decidable (G s a)] [∀ s a, Decidable (E s a)]
    (act : σ → α → Option σ) (s : σ) (a : α) : Option σ :=
  if G s a ∧ E s a then act s a else none

/-- A property that a computed run ends with holds in some reachable state. -/
theorem exists_reach (hstep : ∀ s a s', E s a → act s a = some s' → S.step s a s')
    (hinit : S.init s) (P : σ → Prop) [DecidablePred P] (as : List α)
    (h : (exec (guarded G E act) s as).any (fun s => P s) = true) : ∃ s, S.Reach G s ∧ P s := by
  obtain ⟨s', hs', hP⟩ := (Option.any_eq_true _ _).mp h
  refine ⟨s', .exec (fun s a s' hs => ?_) (.init hinit) hs', of_decide_eq_true hP⟩
  unfold guarded at hs
  split_ifs at hs with hg
  exact ⟨hg.1, hstep _ _ _ hg.2 hs⟩

end Guarded

end TransitionSystem
