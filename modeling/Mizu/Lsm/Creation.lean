import Mizu.Lsm.Recovery

/-!
# Creating the database

The first open makes a log and then a manifest that names it. A directory with a
manifest can be opened again wherever the last process ended; a directory with the
log alone cannot.
-/

namespace Mizu.Lsm

/-- Actions on a directory that may still be empty. -/
inductive LifeAction
  | run (a : Action)
  /-- The process dies in `initializeNewDatabase`, after it has made the log, and after
  the rename of the manifest or before it. -/
  | crashInCreation (renamed : Bool)
deriving DecidableEq

def emptyState : State := ⟨{}, none, [], none, 0⟩

def lifeStep (cfg : Config) (st : State) : LifeAction → Option State
  | .run a => step cfg st a
  | .crashInCreation renamed =>
    if st.db = none ∧ st.disk.manifest = none ∧ st.disk.wals = [] ∧ st.disk.tables = [] then
      let number := st.disk.maximumNumber + 1
      let d := st.disk.openWal number
      let m : Manifest := ⟨0, number, fun _ => []⟩
      some { st with disk := if renamed then { d with manifest := some m } else d }
    else none

/-- The database from an empty directory on. -/
def lifetimes (cfg : Config) : TransitionSystem State LifeAction where
  init st := st = emptyState
  step st a st' := lifeStep cfg st a = some st'

/-- No write is cut off, and one that gets as far as the log succeeds. -/
def Answered (cfg : Config) (st : State) : Action → Prop
  | .write durability batch o => ∀ db ∈ st.db, reachesLog cfg batch st.disk db = true →
      ∀ r ∈ write cfg durability batch o st.disk db, r.1.isOk = true
  | .crashInWrite _ _ => False
  | _ => True

instance (cfg : Config) (st : State) (a : Action) : Decidable (Answered cfg st a) := by
  induction a using Action.casesOn <;> dsimp only [Answered] <;> infer_instance

/-- The creation is not cut off between the log and the manifest, every write is answered,
and the limits of the formats are kept. -/
def Unbroken (cfg : Config) (st : State) : LifeAction → Prop
  | .run a => WithinFormat st a ∧ Answered cfg st a
  | .crashInCreation renamed => renamed = true

instance (cfg : Config) (st : State) (a : LifeAction) : Decidable (Unbroken cfg st a) := by
  unfold Unbroken
  split <;> infer_instance

/-- The memory after the first open, before it has looked for obsolete tables. -/
def createdDb : DB where
  walNumber := 1
  nextFileNumber := 2
  manifest := ⟨0, 1, fun _ => []⟩
  version := .empty
  lastSequence := 0
  memtable := .empty
  job := .openingTables

theorem openDatabase_empty : openDatabase {} = (freshState.disk, .ok createdDb) := rfl

theorem running_created (cfg : Config) : createdDb.Running cfg freshState.disk [] [] := by
  obtain ⟨extra, hextra, hdb⟩ := State.inv_fresh cfg
  obtain rfl : extra = [] := by
    rcases hextra with rfl | ⟨b, _, hb⟩
    · rfl
    · simp [freshState] at hb
  refine hdb.congr ?_ ?_ rfl rfl rfl rfl rfl rfl rfl (by simp [createdDb])
  · have hs : ({ ({ createdDb with job := .idle } : DB) with job := .openingTables } : DB).Sound
        [] :=
      hdb.sound.setJob (by simp) (by simp)
    exact hs
  · refine ⟨rfl, hdb.filed.written, hdb.filed.levels, hdb.filed.placed, hdb.filed.numbers,
      hdb.filed.next,
      by simp [createdDb, Job.tables], hdb.filed.unique, by simp [createdDb], by simp [createdDb],
      by simp [createdDb], by simp [createdDb]⟩

/-- The directory is still empty, or it holds a database. -/
def State.Alive (cfg : Config) (st : State) : Prop :=
  st = emptyState ∨ st.Inv cfg ∧ st.Guarded

section Steps

variable {cfg : Config} {st st' : State}

theorem guarded_first (st : State) (hdisk : st.disk = freshState.disk) (hack : st.acknowledged = [])
    (hpend : st.pending = none) : st.Guarded := by
  refine ⟨?_, ?_, by simp [hpend]⟩
  · rw [hdisk]
    decide
  · rintro extra (rfl | ⟨b, _, hb⟩)
    · rw [hack]
      decide
    · simp [hpend] at hb

theorem alive_of_run_empty {a : Action} (h : step cfg emptyState a = some st) : st.Alive cfg := by
  cases turn_of_step h with
  | @opened d db hd hopen =>
    obtain ⟨rfl, heq⟩ := Prod.mk.inj (openDatabase_empty.symm.trans hopen)
    cases heq
    exact Or.inr ⟨⟨[], Or.inl rfl, running_created cfg⟩, guarded_first _ rfl rfl rfl⟩
  | refused hd hopen => simp [openDatabase_empty, emptyState] at hopen
  | interrupted hd => exact Or.inl rfl
  | _ => simp_all [emptyState]

/-- No batch is left without an answer. -/
theorem pending_of_answered {a : Action} (h : st.pending = none) (hg : Answered cfg st a)
    (hs : step cfg st a = some st') : st'.pending = none := by
  cases turn_of_step hs with
  | @write durability batch o db db' d' r hd hopen hw =>
    dsimp only
    split
    · exact h
    · rename_i hr
      split
      · rename_i hlog
        exact absurd (hg db hd hlog _ hw) hr
      · exact h
  | cutRoom => exact hg.elim
  | cutWrite => exact hg.elim
  | opened => rfl
  | _ => exact h

theorem State.Alive.step {a : LifeAction} (h : st.Alive cfg) (hg : Unbroken cfg st a)
    (hs : lifeStep cfg st a = some st') : st'.Alive cfg := by
  cases a with
  | run a =>
    rcases h with rfl | ⟨hI, hG⟩
    · exact alive_of_run_empty hs
    · exact Or.inr ⟨hI.step hs, hG.step hI hg.1 hs⟩
  | crashInCreation renamed =>
    obtain rfl : renamed = true := hg
    unfold lifeStep at hs
    split_ifs at hs with hnew
    cases hs
    rcases h with rfl | ⟨hI, hG⟩
    · exact Or.inr ⟨⟨[], Or.inl rfl, _, _, (running_created cfg).directory⟩,
        guarded_first _ rfl rfl rfl⟩
    · -- a directory that holds a database has a manifest
      obtain ⟨_, m, _, _, hdir⟩ := hI.directory
      simp [hdir.manifest] at hnew

/-- The next open succeeds and reads back what the acknowledged batches left. -/
def State.RecoversAcknowledged (st : State) : Prop :=
  ∃ d db, openDatabase st.disk = (d, .ok db) ∧
    db.lastSequence = operationCount st.acknowledged ∧
    ∀ key, db.get key db.lastSequence = valueAt st.acknowledged.flatten key db.lastSequence

theorem State.Recovers.acknowledged (h : st.Recovers) (hp : st.pending = none) :
    st.RecoversAcknowledged := by
  obtain ⟨d, db, extra, hopen, hextra, hcount, hget⟩ := h
  obtain rfl : extra = [] := by
    rcases hextra with rfl | ⟨b, _, hb⟩
    · rfl
    · simp [hp] at hb
  rw [List.append_nil] at hcount hget
  exact ⟨d, db, hopen, hcount, hget⟩

theorem recovers_empty : emptyState.Recovers :=
  ⟨_, createdDb, [], openDatabase_empty, Or.inl rfl, rfl, fun _ => rfl⟩

end Steps

/-- However often an open is cut off, the next one succeeds and shows exactly the data that
was acknowledged, when none is cut off between making the log and the manifest and no write
is cut off or fails. -/
theorem recovers_of_lifetimes {cfg : Config} {st : State}
    (h : (lifetimes cfg).Reach (Unbroken cfg) st) : st.RecoversAcknowledged := by
  have halive : st.Alive cfg ∧ st.pending = none := by
    apply h.induct
    · rintro st rfl
      exact ⟨Or.inl rfl, rfl⟩
    · rintro st a st' _ ⟨hA, hp⟩ hg hs
      refine ⟨State.Alive.step hA hg hs, ?_⟩
      cases a with
      | run a => exact pending_of_answered hp hg.2 hs
      | crashInCreation renamed =>
        change lifeStep cfg st (.crashInCreation renamed) = some st' at hs
        unfold lifeStep at hs
        split_ifs at hs
        cases hs
        exact hp
  obtain ⟨rfl | ⟨hI, hG⟩, hp⟩ := halive
  · exact recovers_empty.acknowledged rfl
  · exact (hI.recovers hG).acknowledged hp

/-- Two opens that are cut off, one of them in the creation, and a write between them. -/
theorem recovers_after_cut_opens : ∃ st, (lifetimes tinyConfig).Reach (Unbroken tinyConfig) st ∧
    st.db = none ∧ st.acknowledged = [[.put [1] [7]]] ∧ st.RecoversAcknowledged := by
  obtain ⟨st, hr, hnone, hack⟩ := TransitionSystem.exists_reach (S := lifetimes tinyConfig)
    (G := Unbroken tinyConfig) (E := fun _ _ => True) (s := emptyState) (fun _ _ _ _ hs => hs) rfl
    (fun st => st.db = none ∧ st.acknowledged = [[.put [1] [7]]])
    [.crashInCreation true, .run .open, .run .finishRemoval, .run .finishRemoval,
      .run (.put .async [1] [7]), .run .crash, .run (.crashInOpen 1)] (by decide +kernel)
  exact ⟨st, hr, hnone, hack, recovers_of_lifetimes hr⟩

/-- The first open is cut off after it has made the log: every later open fails and
leaves the directory as it is. -/
theorem creation_cut_after_log : ∃ st, (lifetimes tinyConfig).Reach (fun _ _ => True) st ∧
    st.acknowledged = [] ∧ openDatabase st.disk =
      (st.disk, .error (.corruption "database files exist without a manifest")) := by
  have hs : lifeStep tinyConfig emptyState (.crashInCreation false) =
      some ⟨{ wals := [(1, {})] }, none, [], none, 0⟩ := rfl
  exact ⟨_, .step (.init rfl) trivial hs, rfl, rfl⟩

end Mizu.Lsm
