import Mizu.Store.Proposals

/-!
# What a released read sees

A read that is confirmed at an index is released when the applied index has reached it.
Here the apply worker is fed with tasks in log order, whose calls of the state machine
succeed or fail, while reads are confirmed at any time. The applied index is also moved
past what failed, and past a snapshot without data, which keeps the old state. So a released
read sees every write up to its index unless one of them is missing from the state machine.
-/

namespace Mizu

/-- One operation on the state machine. -/
inductive Op where
  | snapshot (snap : Snapshot)
  | entry (e : Entry)
  deriving DecidableEq, Repr

namespace Op

variable {σ : Type} (M : StateMachine σ)

def index : Op → ℕ
  | .snapshot snap => snap.index
  | .entry e => e.index

/-- The state that the operation stands for; an empty entry changes nothing. -/
def run : Op → σ → σ
  | .snapshot snap, _ => M.restore snap.data
  | .entry e, s => if e.data = [] then s else M.applyCommand e.data s

/-- The state after the call of the state machine succeeds. -/
def exec : Op → σ → σ
  | .snapshot snap, s => M.applySnapshot snap.data s
  | .entry e, s => if e.data = [] then s else M.applyCommand e.data s

def runAll (ops : List Op) (s : σ) : σ := ops.foldl (fun s op => op.run M s) s

/-- The state machine is called: the operation is not an empty entry, nor one whose command
cannot be unmarshalled. -/
def calls : Op → Bool
  | .snapshot _ => true
  | .entry e => e.data ≠ [] ∧ M.unmarshals e.data = true

/-- An operation that is passed over although it has a command. -/
def skipped : Op → Bool
  | .snapshot _ => false
  | .entry e => e.data ≠ [] ∧ M.unmarshals e.data = false

variable {M}

theorem runAll_concat (ops : List Op) (op : Op) (s : σ) :
    runAll M (ops ++ [op]) s = op.run M (runAll M ops s) := by
  simp [runAll]

theorem run_of_not_calls {op : Op} (hc : op.calls M = false) (hs : op.skipped M = false) (s : σ) :
    op.run M s = s := by
  cases op with
  | snapshot snap => cases hc
  | entry e =>
    simp only [calls, skipped, decide_eq_false_iff_not, not_and, Bool.not_eq_true,
      Bool.not_eq_false] at hc hs
    by_cases hd : e.data = []
    · exact if_pos hd
    · exact absurd ((hs hd).symm.trans (hc hd)) (by decide)

end Op

/-- The operations of a task; an empty snapshot is none. -/
def ApplyTask.ops (t : ApplyTask) : List Op :=
  (t.snapshot.filter fun snap => snap.index ≠ 0).toList.map .snapshot ++ t.entries.map .entry

namespace Host

variable {σ : Type} {M : StateMachine σ}

/-- The operations that the apply worker has not finished. -/
def todo (h : Host σ) : List Op := h.work.flatMap ApplyTask.ops

/-- The operation that the apply worker is at. -/
def nextOp (h : Host σ) : Option Op :=
  match h.applying with
  | some { snapshot := some snap, .. } => if snap.index = 0 then none else some (.snapshot snap)
  | some { snapshot := none, entries := e :: _ } => some (.entry e)
  | _ => none

/-- The apply worker finishes the operation it is at. -/
structure Finishes (M : StateMachine σ) (h h' : Host σ) (op : Op) (ok : Bool) : Prop where
  todo : h.todo = op :: h'.todo
  machine : h'.machine =
    if op.calls M = true ∧ ok = true then op.exec M h.machine else h.machine
  applied : h'.peer.appliedIndex = h.peer.appliedIndex ∨ h'.peer.appliedIndex = op.index
  finished : h'.peer.reads.finished = h.peer.reads.finished

/-- One round of the apply worker: it finishes an operation, or releases reads, or does
neither. -/
theorem applyNext_cases (h : Host σ) (ok created : Bool) :
    (∃ op, h.nextOp = some op ∧ Finishes M h (h.applyNext M ok created) op ok) ∨
    (h.nextOp = none ∧ (h.applyNext M ok created).todo = h.todo ∧
      (h.applyNext M ok created).machine = h.machine ∧
      (h.applyNext M ok created).peer.appliedIndex = h.peer.appliedIndex ∧
      ((h.applyNext M ok created).peer.reads = h.peer.reads ∨
        (h.applyNext M ok created).peer.reads =
          h.peer.reads.notifyApplied h.isCanceled h.peer.appliedIndex)) := by
  unfold applyNext
  split
  · next hnone =>
    refine Or.inr ⟨by simp [nextOp, hnone], ?_⟩
    split
    · exact ⟨rfl, rfl, rfl, Or.inl rfl⟩
    · next task tasks htasks =>
      simp [todo, work, hnone, htasks]
  · next snap es hap =>
    unfold isEmptySnap applySnapshot
    by_cases h0 : snap.index = 0
    · refine Or.inr ⟨by simp [nextOp, hap, h0], ?_⟩
      rw [if_pos (decide_eq_true h0)]
      simp [todo, work, hap, ApplyTask.ops, Option.filter, h0]
    · refine Or.inl ⟨.snapshot snap, by simp [nextOp, hap, h0], ?_⟩
      rw [if_neg (by simpa using h0)]
      split_ifs with hok
      · refine ⟨?_, by simp [Op.calls, hok, Op.exec, setAppliedIndex], Or.inr rfl, rfl⟩
        simp [todo, work, hap, ApplyTask.ops, Option.filter, h0, setAppliedIndex]
      · refine ⟨?_, by simp [hok], Or.inl rfl, rfl⟩
        simp [todo, work, hap, ApplyTask.ops, Option.filter, h0]
  · next e es hap =>
    refine Or.inl ⟨.entry e, by simp [nextOp, hap], ?_⟩
    obtain ⟨_, _, _, _, -, -, heq⟩ :=
      applyEntry_eq (M := M) { h with applying := some { entries := es } } e ok created
    rw [heq]
    refine ⟨by simp [todo, work, hap, ApplyTask.ops], ?_, Or.inr rfl, rfl⟩
    by_cases hc : (e.data ≠ [] ∧ M.unmarshals e.data = true) ∧ ok = true
    · rw [if_pos hc, if_pos ⟨decide_eq_true hc.1, hc.2⟩]
      exact (if_neg hc.1.1).symm
    · rw [if_neg hc, if_neg fun h => hc ⟨of_decide_eq_true h.1, h.2⟩]
  · next hap =>
    refine Or.inr ⟨by simp [nextOp, hap], ?_, rfl, rfl, Or.inr rfl⟩
    simp [todo, work, hap, ApplyTask.ops]

end Host

/-- An apply worker with the reads of its peer, and what it has been fed with. A call of the state
machine for the operation at hand has been made or not; `missing` tells that an operation
failed, or was a snapshot without data, after the last snapshot that was applied. -/
structure Feed (σ : Type) where
  host : Host σ
  called : Option Bool := none
  initial : σ
  fed : List Op := []
  done : List Op := []
  missing : Bool := false

namespace Feed

variable {σ : Type} (M : StateMachine σ) (f : Feed σ)

inductive Action where
  | submit (task : ApplyTask)
  | call (ok : Bool)
  | apply (created : Bool)
  | states (states : List ReadState)
  | start (request : ℕ)
  | reject (readID : ℕ)
  | failIfNotLeader
  | pruneCanceled
  | cancel (request : ℕ)

def finished : List (ℕ × ReadResult) := f.host.peer.reads.finished

def mapReads (g : ReadTracker → ReadTracker) : Feed σ :=
  { f with host := { f.host with peer := { f.host.peer with reads := g f.host.peer.reads } } }

/-- The state of the region; the call that has been made is ahead of the applied index. -/
def machine : σ :=
  if f.called = some true then f.host.nextOp.elim f.host.machine fun op => op.exec M f.host.machine
  else f.host.machine

def act : Action → Feed σ
  | .submit task =>
    { f with
      host := { f.host with applyTasks := f.host.applyTasks ++ [task] }
      fed := f.fed ++ task.ops }
  | .call ok =>
    { f with
      called := some ok
      done := f.done ++ f.host.nextOp.toList
      missing := match f.host.nextOp with
        | some (.snapshot snap) => !ok || snap.data.isEmpty
        | _ => f.missing || !ok }
  | .apply created =>
    { f with
      host := f.host.applyNext M (f.called.getD false) created
      called := none
      done := if f.called.isSome then f.done else f.done ++ f.host.nextOp.toList
      missing := f.missing || f.host.nextOp.any fun op => op.skipped M }
  | .states states =>
    { f with host := { f.host with
      peer := f.host.peer.handleReadStates f.host.isCanceled states } }
  | .start request => f.mapReads fun t => (t.start request).1
  | .reject readID => f.mapReads fun t => t.reject readID .notLeader
  | .failIfNotLeader => f.mapReads fun t => (t.failIfNotLeader f.host.isCanceled).1
  | .pruneCanceled => f.mapReads fun t => (t.pruneCanceled f.host.isCanceled).1
  | .cancel request => { f with host := { f.host with canceled := request :: f.host.canceled } }

/-- The state machine is called once for an operation that calls it, before it is finished. -/
def Enabled : Action → Prop
  | .call _ => f.called = none ∧ f.host.nextOp.any (fun op => op.calls M) = true
  | .apply _ => f.called.isSome = f.host.nextOp.any fun op => op.calls M
  | _ => True

instance (a : Action) : Decidable (f.Enabled M a) := by
  cases a <;> unfold Enabled <;> infer_instance

def start (cfg : Config) (machine : σ) : Feed σ :=
  { host := Host.start cfg machine, initial := machine }

def system (cfg : Config) : TransitionSystem (Feed σ) Action where
  init f := ∃ machine, f = start cfg machine
  step f a f' := f.Enabled M a ∧ f' = f.act M a

/-- The tasks are in log order. -/
def InOrder (f : Feed σ) : Action → Prop
  | .submit task => (0 :: (f.fed ++ task.ops).map Op.index).Pairwise (· < ·)
  | _ => True

instance (a : Action) : Decidable (InOrder f a) := by
  unfold InOrder
  split <;> infer_instance

/-- What is fed and not yet done. -/
def remaining : List Op := if f.called.isSome then f.host.todo.tail else f.host.todo

variable {M f} {a : Action}

/-- The operations are done in order, the applied index is that of one of them, and the state
is the result of all of them unless one is missing. -/
structure Ordered (M : StateMachine σ) (f : Feed σ) : Prop where
  fed : f.fed = f.done ++ f.remaining
  sorted : (0 :: f.fed.map Op.index).Pairwise (· < ·)
  applied : f.host.peer.appliedIndex = 0 ∨
    ∃ op ∈ f.done, f.host.peer.appliedIndex = op.index
  called : f.called.isSome = true → ∃ op ∈ f.done, f.host.nextOp = some op ∧ op.calls M = true
  failed : f.called = some false → f.missing = true
  machine : f.missing = false → f.machine M = Op.runAll M f.done f.initial

namespace Ordered

theorem init (cfg : Config) (machine : σ) : Ordered M (Feed.start cfg machine) where
  fed := rfl
  sorted := List.pairwise_singleton _ _
  applied := Or.inl rfl
  called h := by cases h
  failed h := by cases h
  machine _ := rfl

section

variable (h : Ordered M f)

include h

/-- Nothing that remains is at or below the applied index. -/
theorem applied_lt {op : Op} (hop : op ∈ f.remaining) :
    f.host.peer.appliedIndex < op.index := by
  have hs := h.sorted
  rw [h.fed, List.map_append] at hs
  obtain ⟨h0, hs⟩ := List.pairwise_cons.mp hs
  have hmem : op.index ∈ f.remaining.map Op.index := List.mem_map_of_mem hop
  rcases h.applied with ha | ⟨d, hd, ha⟩
  · rw [ha]
    exact h0 _ (List.mem_append_right _ hmem)
  · rw [ha]
    exact (List.pairwise_append.mp hs).2.2 _ (List.mem_map_of_mem hd) _ hmem

/-- A step that only concerns the reads. -/
theorem reads {f' : Feed σ} (hm : f'.host.machine = f.host.machine)
    (hn : f'.host.nextOp = f.host.nextOp) (ht : f'.host.todo = f.host.todo)
    (ha : f'.host.peer.appliedIndex = f.host.peer.appliedIndex) (hc : f'.called = f.called)
    (hi : f'.initial = f.initial) (hf : f'.fed = f.fed) (hd : f'.done = f.done)
    (hmiss : f'.missing = f.missing) : Ordered M f' := by
  have hrem : f'.remaining = f.remaining := by
    unfold remaining
    rw [hc, ht]
  have hmach : f'.machine M = f.machine M := by
    unfold Feed.machine
    rw [hc, hn, hm]
  refine ⟨?_, ?_, ?_, ?_, ?_, ?_⟩
  · rw [hf, hd, hrem]
    exact h.fed
  · rw [hf]
    exact h.sorted
  · rw [ha, hd]
    exact h.applied
  · rw [hc, hn, hd]
    exact h.called
  · rw [hc, hmiss]
    exact h.failed
  · rw [hmiss, hmach, hd, hi]
    exact h.machine

theorem submit {task : ApplyTask} (hg : InOrder f (.submit task)) :
    Ordered M (f.act M (.submit task)) := by
  have htodo : (f.act M (.submit task)).host.todo = f.host.todo ++ task.ops := by
    simp [act, Host.todo, Host.work]
  refine ⟨?_, hg, h.applied, h.called, h.failed, h.machine⟩
  change f.fed ++ task.ops = f.done ++ (if f.called.isSome then
    (f.act M (.submit task)).host.todo.tail else (f.act M (.submit task)).host.todo)
  rw [htodo, h.fed, List.append_assoc]
  congr 1
  unfold remaining
  split_ifs with hc
  · -- the operation at hand is the first that remains
    obtain ⟨op, -, hop, -⟩ := h.called hc
    rcases Host.applyNext_cases (M := M) f.host true true with ⟨op', -, hfin⟩ | ⟨hnone, -⟩
    · rw [hfin.todo]
      rfl
    · rw [hop] at hnone
      cases hnone
  · rfl

theorem call {ok : Bool} (hen : f.Enabled M (.call ok)) :
    Ordered M (f.act M (.call ok)) := by
  obtain ⟨hnone, hany⟩ := hen
  obtain ⟨op, hop, hcalls⟩ := (Option.any_eq_true _ _).mp hany
  rcases Host.applyNext_cases (M := M) f.host true true with ⟨op', hop', hfin⟩ | ⟨hn, -⟩
  swap
  · rw [hop] at hn
    cases hn
  rw [hop] at hop'
  cases hop'
  have hdone : (f.act M (.call ok)).done = f.done ++ [op] := by simp [act, hop]
  refine ⟨?_, h.sorted, ?_, fun _ => ⟨op, ?_, hop, hcalls⟩, ?_, ?_⟩
  · have hfed := h.fed
    unfold remaining at hfed
    rw [hnone, if_neg (by simp), hfin.todo] at hfed
    rw [hdone]
    change f.fed = f.done ++ [op] ++ f.host.todo.tail
    rw [hfin.todo, hfed]
    simp
  · exact h.applied.imp id fun ⟨d, hd, ha⟩ => ⟨d, List.mem_append_left _ hd, ha⟩
  · rw [hdone]
    exact List.mem_append_right _ (List.mem_singleton_self _)
  · intro hc
    have hok : ok = false := Option.some.inj hc
    subst hok
    change (match f.host.nextOp with
      | some (.snapshot snap) => !false || snap.data.isEmpty
      | _ => f.missing || !false) = true
    split <;> simp
  · intro hmiss
    -- a call that failed would be missing
    have hok : ok = true := by
      by_contra hne
      have hok : ok = false := by simpa using hne
      subst hok
      have hm : (match f.host.nextOp with
        | some (.snapshot snap) => !false || snap.data.isEmpty
        | _ => f.missing || !false) = false := hmiss
      split at hm <;> simp at hm
    subst hok
    have hmach : (f.act M (.call true)).machine M = op.exec M f.host.machine := by
      change (if some true = some true then
        f.host.nextOp.elim f.host.machine fun op => op.exec M f.host.machine else f.host.machine) =
          _
      rw [if_pos rfl, hop]
      rfl
    rw [hmach, hdone, Op.runAll_concat]
    have hm : (match f.host.nextOp with
      | some (.snapshot snap) => !true || snap.data.isEmpty
      | _ => f.missing || !true) = false := hmiss
    rw [hop] at hm
    cases op with
    | snapshot snap => exact if_neg (by simpa using hm)
    | entry e =>
      have hprev := h.machine (by simpa using hm)
      unfold Feed.machine at hprev
      rw [hnone, if_neg (by simp)] at hprev
      rw [hprev]
      rfl

/-- The operation at hand is finished, after its call of the state machine. -/
theorem round_called {ok : Bool} {op : Op} {host : Host σ} (hc : f.called = some ok)
    (hop : f.host.nextOp = some op) (hcalls : op.calls M = true)
    (hfin : Host.Finishes M f.host host op ok) :
    Ordered M { f with host := host, called := none, missing := f.missing || op.skipped M } := by
  have hfed := h.fed
  have hold := h.machine
  rw [remaining, hc, Option.isSome_some, if_pos rfl, hfin.todo] at hfed
  rw [Feed.machine, hc, hop, Option.elim_some] at hold
  obtain ⟨op', hmem, hop', -⟩ := h.called (by rw [hc]; rfl)
  cases hop.symm.trans hop'
  have hskip : op.skipped M = false := by
    cases op with
    | snapshot snap => rfl
    | entry e => simp [Op.skipped, (of_decide_eq_true hcalls).2]
  refine ⟨hfed, h.sorted, hfin.applied.elim (fun ha => ha.symm ▸ h.applied)
    fun ha => Or.inr ⟨op, hmem, ha⟩, nofun, nofun, fun hmissing => ?_⟩
  rw [hskip, Bool.or_false] at hmissing
  have hok : ok = true := by
    by_contra hne
    have := h.failed (by rw [hc]; simpa using hne)
    rw [hmissing] at this
    cases this
  subst hok
  exact (hfin.machine.trans (if_pos ⟨hcalls, rfl⟩)).trans (hold hmissing)

/-- The operation at hand is finished without the state machine. -/
theorem round_skipped {op : Op} {host : Host σ} (hc : f.called = none)
    (hcalls : op.calls M = false) (hfin : Host.Finishes M f.host host op false) :
    Ordered M { f with
      host := host, called := none, done := f.done ++ [op]
      missing := f.missing || op.skipped M } := by
  have hfed := h.fed
  have hold := h.machine
  rw [remaining, hc, Option.isSome_none, if_neg (by decide), hfin.todo] at hfed
  rw [Feed.machine, hc, if_neg (by simp)] at hold
  refine ⟨hfed.trans (by simp [remaining]), h.sorted, hfin.applied.elim (fun ha => ?_) fun ha => ?_,
    nofun, nofun, fun hmissing => ?_⟩
  · rw [ha]
    exact h.applied.imp id fun ⟨d, hd, ha⟩ => ⟨d, List.mem_append_left _ hd, ha⟩
  · exact Or.inr ⟨op, List.mem_append_right _ (List.mem_singleton_self _), ha⟩
  · rw [Bool.or_eq_false_iff] at hmissing
    rw [Op.runAll_concat, Op.run_of_not_calls hcalls hmissing.2]
    exact (hfin.machine.trans (if_neg (by simp))).trans (hold hmissing.1)

/-- No operation is at hand. -/
theorem round_idle {host : Host σ} (hc : f.called = none) (htodo : host.todo = f.host.todo)
    (hm : host.machine = f.host.machine) (ha : host.peer.appliedIndex = f.host.peer.appliedIndex) :
    Ordered M { f with host := host, called := none } := by
  have hfed := h.fed
  have hold := h.machine
  rw [remaining, hc, Option.isSome_none, if_neg (by decide), ← htodo] at hfed
  rw [Feed.machine, hc, if_neg (by simp), ← hm] at hold
  exact ⟨hfed, h.sorted, ha.symm ▸ h.applied, nofun, nofun, hold⟩

theorem apply {created : Bool} (hen : f.Enabled M (.apply created)) :
    Ordered M (f.act M (.apply created)) := by
  have hen' : f.called.isSome = f.host.nextOp.any fun op => op.calls M := hen
  rcases Host.applyNext_cases (M := M) f.host (f.called.getD false) created with
    ⟨op, hop, hfin⟩ | ⟨hop, htodo, hm, ha, -⟩
  · rw [hop, Option.any_some] at hen'
    cases hc : f.called with
    | some ok =>
      rw [hc] at hfin hen'
      simpa [act, hc, hop] using h.round_called hc hop hen'.symm hfin
    | none =>
      rw [hc] at hfin hen'
      simpa [act, hc, hop] using h.round_skipped hc hen'.symm hfin
  · have hc : f.called = none := by simpa [hop] using hen'
    rw [hc] at htodo hm ha
    simpa [act, hc, hop] using h.round_idle hc htodo hm ha

theorem step {a : Action} (hg : InOrder f a) (hen : f.Enabled M a) :
    Ordered M (f.act M a) := by
  cases a with
  | submit task => exact h.submit hg
  | call ok => exact h.call hen
  | apply created => exact h.apply hen
  | _ => exact h.reads rfl rfl rfl rfl rfl rfl rfl rfl rfl

end

end Ordered

/-! ### The reads that are released -/

/-- A step that only finishes reads, and releases those up to the applied index. -/
structure Releases (M : StateMachine σ) (f f' : Feed σ) (new : List (ℕ × ReadResult)) : Prop where
  finished : f'.finished = f.finished ++ new
  released : ∀ request i, (request, .ok i) ∈ new → i ≤ f.host.peer.appliedIndex ∧
    f'.machine M = f.machine M ∧ f'.fed = f.fed ∧ f'.initial = f.initial

section

variable (t : ReadTracker) (canceled : ℕ → Bool) (applied : ℕ)

include t canceled applied

theorem handleState_finished
    (state : ReadState) : ∃ new, (t.handleState canceled applied state).finished =
      t.finished ++ new ∧ ∀ request i, (request, .ok i) ∈ new → i ≤ applied := by
  unfold ReadTracker.handleState
  split
  · exact ⟨[], by simp, by simp⟩
  · split_ifs with hc hi
    · exact ⟨[_], rfl, by simp⟩
    · refine ⟨[_], rfl, fun request i hm => ?_⟩
      simp only [List.mem_singleton, Prod.mk.injEq, ReadResult.ok.injEq] at hm
      exact hm.2.trans_le hi
    · exact ⟨[], by simp, by simp⟩

theorem handleStates_finished (states : List ReadState) :
    ∃ new, (t.handleStates canceled applied states).finished = t.finished ++ new ∧
      ∀ request i, (request, .ok i) ∈ new → i ≤ applied := by
  unfold ReadTracker.handleStates
  induction states generalizing t with
  | nil => exact ⟨[], by simp, by simp⟩
  | cons state states ih =>
    obtain ⟨n₁, h₁, hn₁⟩ := handleState_finished t canceled applied state
    obtain ⟨n₂, h₂, hn₂⟩ := ih (t.handleState canceled applied state)
    refine ⟨n₁ ++ n₂, ?_, fun request i hm => ?_⟩
    · rw [List.foldl_cons, h₂, h₁, List.append_assoc]
    · rcases List.mem_append.mp hm with hm | hm
      · exact hn₁ request i hm
      · exact hn₂ request i hm

theorem notifyApplied_released (request i : ℕ)
    (hm : (request, .ok i) ∈ t.apply.filterMap fun read =>
      (ReadTracker.appliedResult canceled applied read).map fun result => (read.request, result)) :
    i ≤ applied := by
  obtain ⟨read, -, hread⟩ := List.mem_filterMap.mp hm
  obtain ⟨result, hres, heq⟩ := Option.map_eq_some_iff.mp hread
  unfold ReadTracker.appliedResult at hres
  split_ifs at hres with hc hi
  · cases hres
    cases heq
  · cases hres
    cases heq
    exact hi

end

theorem act_releases (hen : f.Enabled M a) : ∃ new, Releases M f (f.act M a) new := by
  -- no read is released
  have none (new : List (ℕ × ReadResult)) (hf : (f.act M a).finished = f.finished ++ new)
      (hn : ∀ request i, (request, .ok i) ∉ new) : ∃ new, Releases M f (f.act M a) new :=
    ⟨new, hf, fun request i hm => absurd hm (hn request i)⟩
  cases a with
  | submit task => exact none [] (List.append_nil _).symm (by simp)
  | call ok => exact none [] (List.append_nil _).symm (by simp)
  | start request => exact none [] (List.append_nil _).symm (by simp)
  | cancel request => exact none [] (List.append_nil _).symm (by simp)
  | states states =>
    obtain ⟨new, hf, hn⟩ := handleStates_finished f.host.peer.reads f.host.isCanceled
      f.host.peer.appliedIndex states
    exact ⟨new, hf, fun request i hm => ⟨hn request i hm, rfl, rfl, rfl⟩⟩
  | reject readID =>
    cases hg : Assoc.get readID f.host.peer.reads.quorum with
    | none => exact none [] (by simp [act, mapReads, finished, ReadTracker.reject, hg]) (by simp)
    | some request =>
      refine none [(request, .notLeader)] ?_ (by simp)
      simp [act, mapReads, finished, ReadTracker.reject, ReadTracker.finish, hg]
  | failIfNotLeader =>
    refine none _ rfl fun request i hm => ?_
    obtain ⟨p, -, hp⟩ := List.mem_map.mp hm
    have := congrArg Prod.snd hp
    split_ifs at this
  | pruneCanceled =>
    refine none _ (List.append_assoc _ _ _) fun request i hm => ?_
    simp at hm
  | apply created =>
    have hen' : f.called.isSome = f.host.nextOp.any fun op => op.calls M := hen
    rcases Host.applyNext_cases (M := M) f.host (f.called.getD false) created with
      ⟨op, hop, hfin⟩ | ⟨hop, -, hm, -, hreads | hreads⟩
    · exact none [] (hfin.finished.trans (List.append_nil _).symm) (by simp)
    · refine none [] ?_ (by simp)
      exact (congrArg ReadTracker.finished hreads).trans (List.append_nil _).symm
    · refine ⟨_, congrArg ReadTracker.finished hreads, fun request i hmem => ?_⟩
      refine ⟨notifyApplied_released _ _ _ request i hmem, ?_, rfl, rfl⟩
      rw [hop, Option.any_none] at hen'
      have hc : f.called = Option.none := by simpa using hen'
      have hmach : (f.act M (.apply created)).machine M =
        (f.host.applyNext M (f.called.getD false) created).machine := rfl
      unfold machine at hmach ⊢
      rw [hmach, hm, hc, if_neg (by simp)]

/-- A read that is released while no operation is missing sees exactly a first part of what was
fed, with every operation up to its index in it. -/
theorem released_read_sees_writes {cfg : Config} {f' : Feed σ} {a : Action}
    (hr : (system M cfg).Reach InOrder f) (hs : (system M cfg).step f a f')
    (hm : f.missing = false) {new : List (ℕ × ReadResult)}
    (hf : f'.finished = f.finished ++ new) (request i : ℕ) (hi : (request, .ok i) ∈ new) :
    ∃ done rest, f'.fed = done ++ rest ∧ f'.machine M = Op.runAll M done f'.initial ∧
      ∀ op ∈ rest, i < op.index := by
  have hI : Ordered M f := by
    refine hr.induct (I := Ordered M) ?_ ?_
    · rintro _ ⟨machine, rfl⟩
      exact .init cfg machine
    · rintro f a f' - hI hg ⟨hen, rfl⟩
      exact hI.step hg hen
  obtain ⟨hen, rfl⟩ := hs
  obtain ⟨new', hrel⟩ := act_releases hen
  rw [hrel.finished, List.append_cancel_left_eq] at hf
  subst hf
  obtain ⟨hle, hmach, hfed, hinit⟩ := hrel.released request i hi
  refine ⟨f.done, f.remaining, ?_, ?_, ?_⟩
  · rw [hfed]
    exact hI.fed
  · rw [hmach, hinit]
    exact hI.machine hm
  · exact fun op hop => hle.trans_lt (hI.applied_lt hop)

theorem exists_reach (cfg : Config) (machine : σ) (P : Feed σ → Prop) [DecidablePred P]
    (as : List Action) (hP : (TransitionSystem.exec (TransitionSystem.guarded InOrder (Enabled M)
      fun f a => some (f.act M a)) (start cfg machine) as).any (fun f => P f) = true) :
    ∃ f, (system M cfg).Reach InOrder f ∧ P f :=
  TransitionSystem.exists_reach (S := system M cfg)
    (fun _ _ _ he ha => ⟨he, (Option.some.inj ha).symm⟩) ⟨machine, rfl⟩ P as hP

end Feed

/-- A state machine that keeps its commands. -/
def StateMachine.commands : StateMachine (List Bytes) where
  unmarshals _ := true
  applyCommand data s := s ++ [data]
  createSnapshot s := s.flatten
  restore data := [data]

namespace Feed

/-- Two tasks with one operation each, whose calls have the given outcomes, and a read that
waits for its quorum. -/
def twoTasks (op₁ op₂ : ApplyTask) (ok₁ ok₂ : Bool) : List Action :=
  [.start 1, .submit op₁, .submit op₂, .apply true, .call ok₁, .apply true, .apply true,
    .apply true, .call ok₂, .apply true]

theorem released_read_sees_snapshot : ∃ f f' : Feed (List Bytes),
    (system .commands threeNodes).Reach InOrder f ∧
    (system .commands threeNodes).step f (.states [{ readID := 1, index := 2 }]) f' ∧
    f'.finished = f.finished ++ [(1, .ok 2)] ∧
    ∃ done rest, f'.fed = done ++ rest ∧
      f'.machine .commands = Op.runAll .commands done f'.initial ∧ ∀ op ∈ rest, 2 < op.index := by
  obtain ⟨f, hr, hm, hf⟩ := exists_reach (M := .commands) threeNodes []
    (fun f => f.missing = false ∧
      (f.act .commands (.states [{ readID := 1, index := 2 }])).finished =
        f.finished ++ [(1, .ok 2)])
    (twoTasks { entries := [{ term := 1, index := 1, data := [7] }] }
      { snapshot := some { index := 2, term := 1, data := [8] } } false true)
    (by decide +kernel)
  have hs : (system .commands threeNodes).step f (.states [{ readID := 1, index := 2 }])
    (f.act .commands (.states [{ readID := 1, index := 2 }])) := ⟨trivial, rfl⟩
  exact ⟨f, _, hr, hs, hf,
    released_read_sees_writes hr hs hm hf 1 2 (List.mem_singleton_self _)⟩

/-- The first command fails, and the read at its index is released without it. -/
theorem failed_command_not_seen : ∃ f f' : Feed (List Bytes),
    (system .commands threeNodes).Reach InOrder f ∧
    (system .commands threeNodes).step f (.states [{ readID := 1, index := 1 }]) f' ∧
    f'.finished = f.finished ++ [(1, .ok 1)] ∧
    ¬∃ done rest, f'.fed = done ++ rest ∧
      f'.machine .commands = Op.runAll .commands done f'.initial ∧ ∀ op ∈ rest, 1 < op.index := by
  obtain ⟨f, hr, hf, hfed, hm, hi⟩ := exists_reach (M := .commands) threeNodes []
    (fun f => (f.act .commands (.states [{ readID := 1, index := 1 }])).finished =
        f.finished ++ [(1, .ok 1)] ∧
      f.fed = [.entry { term := 1, index := 1, data := [7] }] ∧
      f.machine .commands = [] ∧ f.initial = [])
    [.start 1, .submit { entries := [{ term := 1, index := 1, data := [7] }] }, .apply true,
      .call false, .apply true]
    (by decide +kernel)
  refine ⟨f, f.act .commands (.states [{ readID := 1, index := 1 }]), hr, ⟨trivial, rfl⟩, hf, ?_⟩
  rintro ⟨done, rest, hops, hmach, hrest⟩
  have hops' : f.fed = done ++ rest := hops
  have hmach' : f.machine .commands = Op.runAll .commands done f.initial := hmach
  rw [hfed] at hops'
  rw [hm, hi] at hmach'
  cases done with
  | nil =>
    -- the command would have to be among the later ones
    rw [List.nil_append] at hops'
    have := hrest (.entry { term := 1, index := 1, data := [7] })
      (hops' ▸ List.mem_singleton_self _)
    exact absurd this (by decide)
  | cons op done =>
    obtain ⟨rfl, hnil⟩ := List.cons.inj hops'
    obtain ⟨rfl, -⟩ := List.append_eq_nil_iff.mp hnil.symm
    exact absurd hmach' (by decide)

end Feed

end Mizu
