import Mizu.Store.Read
import Mizu.Library.Reach

/-!
# Where a read is

Any interleaving of the methods of the read tracker, each one step under its lock, with
cancellations and updates of the applied index between them. A started request is in the
quorum map, in the apply queue or finished, once in all, as long as a new read ID is not
one that still waits for its quorum.
-/

namespace Mizu

namespace ReadTracker

variable {t : ReadTracker} {canceled : ℕ → Bool} {applied : ℕ}

/-- All places of requests. -/
def places (t : ReadTracker) : List ℕ :=
  t.quorum.map Prod.snd ++ (t.apply.map PendingRead.request ++ t.finished.map Prod.fst)

/-- The read ID after `n`; zero is passed over. -/
def successor (n : ℕ) : ℕ := if (n + 1) % 2 ^ 64 = 0 then 1 else (n + 1) % 2 ^ 64

theorem start_eq (t : ReadTracker) (request : ℕ) :
    t.start request =
      ({ t with
          nextID := successor t.nextID
          quorum := Assoc.set (successor t.nextID) request t.quorum }, successor t.nextID) :=
  rfl

theorem start_places (h : successor t.nextID ∉ Assoc.keys t.quorum) (request : ℕ) :
    (t.start request).1.places.Perm (request :: t.places) := by
  exact ((Assoc.set_perm h).map Prod.snd).append_right _

theorem finish_places (t : ReadTracker) (request : ℕ) (result : ReadResult) :
    (t.finish request result).places.Perm (request :: t.places) := by
  unfold places finish
  simp only [List.map_append, ← List.append_assoc]
  exact List.perm_append_singleton _ _

/-- The request of a read ID leaves the quorum map. -/
theorem erase_places (hd : (Assoc.keys t.quorum).Nodup) {id request : ℕ}
    (h : Assoc.get id t.quorum = some request) :
    t.places.Perm (request :: places { t with quorum := Assoc.erase id t.quorum }) :=
  ((Assoc.perm_erase hd h).map Prod.snd).append_right _

theorem reject_places (hd : (Assoc.keys t.quorum).Nodup) (id : ℕ) (result : ReadResult) :
    (t.reject id result).places.Perm t.places := by
  unfold reject
  cases hg : Assoc.get id t.quorum with
  | none =>
    have herase : Assoc.erase id t.quorum = t.quorum := by
      rw [Assoc.erase, List.filter_eq_self]
      rintro p hp
      rw [decide_eq_true_eq]
      rintro rfl
      rw [Assoc.get_of_mem hd hp] at hg
      cases hg
    rw [herase]
  | some request => exact (finish_places _ _ _).trans (erase_places hd hg).symm

theorem handleState_places (hd : (Assoc.keys t.quorum).Nodup) (state : ReadState) :
    (t.handleState canceled applied state).places.Perm t.places := by
  unfold handleState
  split
  · exact List.Perm.refl _
  · rename_i request hg
    refine List.Perm.trans ?_ (erase_places hd hg).symm
    split_ifs
    · exact finish_places _ _ _
    · exact finish_places _ _ _
    · unfold places
      simp only [List.map_append, List.append_assoc]
      rw [← List.append_assoc, List.map_singleton, List.singleton_append]
      exact List.perm_middle.trans (by rw [List.append_assoc])

/-- What one confirmed read changes: its request may leave the quorum map. -/
theorem quorum_handleState (canceled : ℕ → Bool) (applied : ℕ) (t : ReadTracker)
    (state : ReadState) : (t.handleState canceled applied state).quorum = t.quorum ∨
      (t.handleState canceled applied state).quorum = Assoc.erase state.readID t.quorum := by
  unfold handleState
  split
  · exact Or.inl rfl
  · split_ifs <;> exact Or.inr rfl

theorem nodup_handleState (hd : (Assoc.keys t.quorum).Nodup) (state : ReadState) :
    (Assoc.keys (t.handleState canceled applied state).quorum).Nodup := by
  rcases quorum_handleState canceled applied t state with hq | hq
  · rwa [hq]
  · rw [hq]
    exact Assoc.nodup_keys_filter hd

theorem handleStates_places (hd : (Assoc.keys t.quorum).Nodup) (states : List ReadState) :
    (t.handleStates canceled applied states).places.Perm t.places ∧
      (Assoc.keys (t.handleStates canceled applied states).quorum).Nodup := by
  induction states generalizing t with
  | nil => exact ⟨List.Perm.refl _, hd⟩
  | cons state states ih =>
    obtain ⟨hp, hd'⟩ := ih (nodup_handleState hd state)
    exact ⟨hp.trans (handleState_places hd state), hd'⟩

theorem notifyApplied_places (t : ReadTracker) :
    (t.notifyApplied canceled applied).places.Perm t.places := by
  -- the queue falls apart in what is finished and what goes on waiting
  have hsplit : ∀ reads : List PendingRead,
      ((reads.filter fun read => (appliedResult canceled applied read).isNone).map
        PendingRead.request ++
        (reads.filterMap fun read => (appliedResult canceled applied read).map
          fun result => (read.request, result)).map Prod.fst).Perm
        (reads.map PendingRead.request) := by
    intro reads
    induction reads with
    | nil => exact List.Perm.refl _
    | cons read reads ih =>
      cases hr : appliedResult canceled applied read with
      | none =>
        rw [List.filter_cons_of_pos (by simp [hr]), List.filterMap_cons_none (by simp [hr])]
        exact ih.cons _
      | some result =>
        rw [List.filter_cons_of_neg (by simp [hr]),
          List.filterMap_cons_some (b := (read.request, result)) (by simp [hr])]
        exact List.perm_middle.trans (ih.cons _)
  unfold places notifyApplied
  refine List.Perm.append_left _ ?_
  rw [List.map_append]
  refine (List.perm_append_comm_assoc _ _ _).trans ?_
  refine (List.Perm.append_left _ (hsplit t.apply)).trans ?_
  exact List.perm_append_comm

theorem failIfNotLeader_places (t : ReadTracker) :
    (t.failIfNotLeader canceled).1.places.Perm t.places := by
  unfold places failIfNotLeader
  rw [List.map_append, List.map_map, List.map_nil, List.nil_append, ← List.append_assoc]
  exact List.perm_append_comm

theorem pruneCanceled_places (t : ReadTracker) :
    (t.pruneCanceled canceled).1.places.Perm t.places := by
  have hquorum := (List.filter_append_perm (fun p => canceled p.2) t.quorum).map Prod.snd
  have happly := (List.filter_append_perm (fun read => canceled read.request) t.apply).map
    PendingRead.request
  rw [List.perm_iff_count] at hquorum happly ⊢
  intro r
  have hq := hquorum r
  have ha := happly r
  simp only [List.map_append, List.count_append] at hq ha
  have hfst : Prod.fst ∘ (fun p : ℕ × ℕ => (p.2, ReadResult.canceled)) = Prod.snd := rfl
  have hfst' : Prod.fst ∘ (fun read : PendingRead => (read.request, ReadResult.canceled)) =
      PendingRead.request := rfl
  simp only [places, pruneCanceled, List.map_append, List.map_map, List.count_append, hfst, hfst']
  omega

/-! ### Confirmation and release -/

/-- The quorum state of a waiting request. -/
def Confirms (t : ReadTracker) (states : List ReadState) (request index : ℕ) : Prop :=
  ∃ state ∈ states, state.index = index ∧ Assoc.get state.readID t.quorum = some request

/-- What a step adds to the queue and to the finished reads comes from the queue or from `new`
confirmations; a read is released only up to the applied index. -/
structure Moves (applied : ℕ) (new : ℕ → ℕ → Prop) (t t' : ReadTracker) : Prop where
  queue : ∀ read ∈ t'.apply, read ∈ t.apply ∨ new read.request read.index ∧ applied < read.index
  finished : ∃ added, t'.finished = t.finished ++ added ∧
    ∀ request i, (request, ReadResult.ok i) ∈ added →
      i ≤ applied ∧ (⟨i, request⟩ ∈ t.apply ∨ new request i)

/-- A step that releases nothing and only shortens the queue. -/
theorem Moves.of_sublist {new : ℕ → ℕ → Prop} {t t' : ReadTracker} (added : List (ℕ × ReadResult))
    (hq : t'.apply ⊆ t.apply) (hf : t'.finished = t.finished ++ added)
    (hn : ∀ request i, (request, ReadResult.ok i) ∉ added) : Moves applied new t t' where
  queue _ hr := Or.inl (hq hr)
  finished := ⟨added, hf, fun request i hm => absurd hm (hn request i)⟩

theorem moves_handleState (t : ReadTracker) (state : ReadState) :
    Moves applied (fun request index => state.index = index ∧
      Assoc.get state.readID t.quorum = some request) t (t.handleState canceled applied state) := by
  unfold handleState
  split
  · exact Moves.of_sublist [] (List.Subset.refl _) (List.append_nil _).symm (by simp)
  · rename_i request hg
    split_ifs with hc hi
    · exact Moves.of_sublist _ (List.Subset.refl _) rfl (by simp)
    · refine ⟨fun read hr => Or.inl hr, _, rfl, ?_⟩
      intro r i hm
      simp only [List.mem_singleton, Prod.mk.injEq, ReadResult.ok.injEq] at hm
      obtain ⟨rfl, rfl⟩ := hm
      exact ⟨hi, Or.inr ⟨rfl, hg⟩⟩
    · refine ⟨?_, [], (List.append_nil _).symm, by simp⟩
      intro read hr
      rcases List.mem_append.mp hr with hr | hr
      · exact Or.inl hr
      · rw [List.mem_singleton.mp hr]
        exact Or.inr ⟨⟨rfl, hg⟩, not_le.mp hi⟩

theorem get_handleState {state : ReadState} {id request : ℕ}
    (h : Assoc.get id (t.handleState canceled applied state).quorum = some request) :
    Assoc.get id t.quorum = some request := by
  rcases quorum_handleState canceled applied t state with hq | hq
  · rwa [hq] at h
  · rw [hq, Assoc.get_erase] at h
    split_ifs at h
    exact h

theorem moves_handleStates (t : ReadTracker) (states : List ReadState) :
    Moves applied (t.Confirms states) t (t.handleStates canceled applied states) := by
  unfold handleStates
  induction states generalizing t with
  | nil => exact Moves.of_sublist [] (List.Subset.refl _) (List.append_nil _).symm (by simp)
  | cons state states ih =>
    have hfirst : Moves applied _ t (t.handleState canceled applied state) :=
      moves_handleState t state
    have hrest := ih (t.handleState canceled applied state)
    -- later states look into what the first one leaves of the quorum map
    have hconfirms : ∀ request index, (t.handleState canceled applied state).Confirms states
        request index → t.Confirms (state :: states) request index := by
      rintro request index ⟨s, hs, hi, hg⟩
      exact ⟨s, List.mem_cons_of_mem _ hs, hi, get_handleState hg⟩
    constructor
    · intro read hr
      rcases hrest.queue read hr with hr | ⟨hn, hi⟩
      · rcases hfirst.queue read hr with hr | ⟨⟨hi, hg⟩, hlt⟩
        · exact Or.inl hr
        · exact Or.inr ⟨⟨state, by simp, hi, hg⟩, hlt⟩
      · exact Or.inr ⟨hconfirms _ _ hn, hi⟩
    · obtain ⟨added, hadded, hok⟩ := hfirst.finished
      obtain ⟨added', hadded', hok'⟩ := hrest.finished
      refine ⟨added ++ added', ?_, ?_⟩
      · rw [List.foldl_cons, hadded', hadded, List.append_assoc]
      · intro request i hm
        rcases List.mem_append.mp hm with hm | hm
        · obtain ⟨hi, hq | ⟨hx, hg⟩⟩ := hok request i hm
          · exact ⟨hi, Or.inl hq⟩
          · exact ⟨hi, Or.inr ⟨state, by simp, hx, hg⟩⟩
        · obtain ⟨hi, hq | hn⟩ := hok' request i hm
          · rcases hfirst.queue _ hq with hq | ⟨-, hlt⟩
            · exact ⟨hi, Or.inl hq⟩
            · exact absurd hi (not_le.mpr hlt)
          · exact ⟨hi, Or.inr (hconfirms _ _ hn)⟩

theorem appliedResult_eq_ok {read : PendingRead} {i : ℕ}
    (h : appliedResult canceled applied read = some (.ok i)) : i = read.index ∧ i ≤ applied := by
  unfold appliedResult at h
  split_ifs at h with hc hi
  · cases h
  · cases h
    exact ⟨rfl, hi⟩

theorem moves_notifyApplied (t : ReadTracker) (new : ℕ → ℕ → Prop) :
    Moves applied new t (t.notifyApplied canceled applied) where
  queue _ hr := Or.inl (List.mem_of_mem_filter hr)
  finished := by
    refine ⟨_, rfl, ?_⟩
    intro request i hm
    obtain ⟨read, hread, hres⟩ := List.mem_filterMap.mp hm
    obtain ⟨result, hr, heq⟩ := Option.map_eq_some_iff.mp hres
    cases heq
    obtain ⟨rfl, hi⟩ := appliedResult_eq_ok hr
    exact ⟨hi, Or.inl hread⟩

/-- What `notifyApplied` leaves in the queue is not applied. -/
theorem waiting_notifyApplied {read : PendingRead}
    (h : read ∈ (t.notifyApplied canceled applied).apply) : applied < read.index := by
  have hnone := (List.mem_filter.mp h).2
  unfold appliedResult at hnone
  split_ifs at hnone with hc hi
  · cases hnone
  · cases hnone
  · exact not_le.mp hi

end ReadTracker

/-! ### Runs -/

/-- A read tracker with the applied index, the requests whose context is done and those that were
started; `notified` tells that `notifyApplied` came after the last update of the applied
index. -/
structure Tracking where
  tracker : ReadTracker := {}
  appliedIndex : ℕ := 0
  canceled : List ℕ := []
  started : List ℕ := []
  notified : Bool := true
  deriving DecidableEq, Repr

namespace Tracking

inductive Action where
  | start (request : ℕ)
  | reject (readID : ℕ)
  | handleStates (states : List ReadState)
  | notifyApplied
  | failIfNotLeader
  | pruneCanceled
  | cancel (request : ℕ)
  | setAppliedIndex (index : ℕ)

variable (s : Tracking)

def isCanceled (request : ℕ) : Bool := request ∈ s.canceled

def act : Action → Tracking
  | .start request =>
    { s with tracker := (s.tracker.start request).1, started := request :: s.started }
  | .reject readID => { s with tracker := s.tracker.reject readID .notLeader }
  | .handleStates states =>
    { s with tracker := s.tracker.handleStates s.isCanceled s.appliedIndex states }
  | .notifyApplied =>
    { s with
      tracker := s.tracker.notifyApplied s.isCanceled s.appliedIndex
      notified := true }
  | .failIfNotLeader => { s with tracker := (s.tracker.failIfNotLeader s.isCanceled).1 }
  | .pruneCanceled => { s with tracker := (s.tracker.pruneCanceled s.isCanceled).1 }
  | .cancel request => { s with canceled := request :: s.canceled }
  | .setAppliedIndex index => { s with appliedIndex := index, notified := false }

/-- A request is started once. -/
def Enabled : Action → Prop
  | .start request => request ∉ s.started
  | _ => True

/-- The tracker is new; the applied index is any. -/
def system : TransitionSystem Tracking Action where
  init s := s.tracker = {} ∧ s.started = []
  step s a s' := s.Enabled a ∧ s' = s.act a

/-- The read ID that is next does not wait for a quorum. -/
def Unused (s : Tracking) : Action → Prop
  | .start _ => ReadTracker.successor s.tracker.nextID ∉ Assoc.keys s.tracker.quorum
  | _ => True

/-- Every started request has one place. -/
structure Accounted (s : Tracking) : Prop where
  places : s.tracker.places.Perm s.started
  started : s.started.Nodup
  ids : (Assoc.keys s.tracker.quorum).Nodup
  waiting : s.notified = true → ∀ read ∈ s.tracker.apply, s.appliedIndex < read.index

variable {s} {a : Action}

/-- What an action confirms. -/
def confirmed (s : Tracking) : Action → ℕ → ℕ → Prop
  | .handleStates states => s.tracker.Confirms states
  | _ => fun _ _ => False

theorem moves (s : Tracking) (a : Action) :
    ReadTracker.Moves s.appliedIndex (s.confirmed a) s.tracker (s.act a).tracker := by
  cases a with
  | start request =>
    exact .of_sublist [] (List.Subset.refl _) (List.append_nil _).symm (by simp)
  | reject readID =>
    cases hg : Assoc.get readID s.tracker.quorum with
    | none =>
      refine .of_sublist [] ?_ ?_ (by simp)
      · simp [act, ReadTracker.reject, hg]
      · simp [act, ReadTracker.reject, hg]
    | some request =>
      refine .of_sublist [(request, .notLeader)] ?_ ?_ (by simp)
      · simp [act, ReadTracker.reject, hg, ReadTracker.finish]
      · simp [act, ReadTracker.reject, hg, ReadTracker.finish]
  | handleStates states => exact ReadTracker.moves_handleStates s.tracker states
  | notifyApplied => exact ReadTracker.moves_notifyApplied s.tracker _
  | failIfNotLeader =>
    refine .of_sublist _ (List.Subset.refl _) rfl fun request i hm => ?_
    obtain ⟨p, -, hp⟩ := List.mem_map.mp hm
    have hres := congrArg Prod.snd hp
    split_ifs at hres
  | pruneCanceled =>
    refine .of_sublist _ (List.filter_subset_self _) (List.append_assoc _ _ _)
      fun request i hm => ?_
    simp at hm
  | cancel request =>
    exact .of_sublist [] (List.Subset.refl _) (List.append_nil _).symm (by simp)
  | setAppliedIndex index =>
    exact .of_sublist [] (List.Subset.refl _) (List.append_nil _).symm (by simp)

theorem Accounted.places_act (h : s.Accounted) (hu : s.Unused a) :
    (s.act a).tracker.places.Perm (s.act a).started ∧
      (Assoc.keys (s.act a).tracker.quorum).Nodup := by
  cases a with
  | start request =>
    refine ⟨(ReadTracker.start_places hu request).trans (h.places.cons request), ?_⟩
    exact Assoc.nodup_keys_set h.ids
  | reject readID =>
    refine ⟨(ReadTracker.reject_places h.ids readID _).trans h.places, ?_⟩
    have hq : (s.act (.reject readID)).tracker.quorum = Assoc.erase readID s.tracker.quorum := by
      simp only [act, ReadTracker.reject]
      split <;> rfl
    rw [hq]
    exact Assoc.nodup_keys_filter h.ids
  | handleStates states =>
    obtain ⟨hp, hd⟩ := ReadTracker.handleStates_places h.ids states
    exact ⟨hp.trans h.places, hd⟩
  | notifyApplied => exact ⟨(ReadTracker.notifyApplied_places _).trans h.places, h.ids⟩
  | failIfNotLeader =>
    exact ⟨(ReadTracker.failIfNotLeader_places _).trans h.places, List.nodup_nil⟩
  | pruneCanceled =>
    exact ⟨(ReadTracker.pruneCanceled_places _).trans h.places, Assoc.nodup_keys_filter h.ids⟩
  | cancel request => exact ⟨h.places, h.ids⟩
  | setAppliedIndex index => exact ⟨h.places, h.ids⟩

/-- The queue holds only reads that are not applied, unless the applied index has moved since. -/
theorem Accounted.waiting_act (h : s.Accounted) :
    (s.act a).notified = true → ∀ read ∈ (s.act a).tracker.apply,
      (s.act a).appliedIndex < read.index := by
  -- an action that leaves the applied index and the flag alone
  have hkeep : (s.act a).notified = s.notified → (s.act a).appliedIndex = s.appliedIndex →
      (s.act a).notified = true → ∀ read ∈ (s.act a).tracker.apply,
        (s.act a).appliedIndex < read.index := by
    intro hn hi hnotified read hread
    rw [hi]
    rcases (s.moves a).queue read hread with hold | ⟨-, hlt⟩
    · exact h.waiting (hn ▸ hnotified) read hold
    · exact hlt
  cases a with
  | notifyApplied => exact fun _ _ hread => ReadTracker.waiting_notifyApplied hread
  | setAppliedIndex index =>
    intro hnotified
    cases hnotified
  | start request => exact hkeep rfl rfl
  | reject readID => exact hkeep rfl rfl
  | handleStates states => exact hkeep rfl rfl
  | failIfNotLeader => exact hkeep rfl rfl
  | pruneCanceled => exact hkeep rfl rfl
  | cancel request => exact hkeep rfl rfl

theorem Accounted.step (h : s.Accounted) (hen : s.Enabled a) (hu : s.Unused a) :
    (s.act a).Accounted := by
  obtain ⟨hp, hd⟩ := h.places_act hu
  refine ⟨hp, ?_, hd, h.waiting_act⟩
  cases a with
  | start request => exact List.nodup_cons.mpr ⟨hen, h.started⟩
  | _ => exact h.started

theorem accounted_of_reach (h : system.Reach Unused s) : s.Accounted := by
  refine h.induct ?_ ?_
  · rintro s ⟨ht, hs⟩
    refine ⟨?_, ?_, ?_, ?_⟩
    · rw [ht, hs]
      exact List.Perm.refl _
    · rw [hs]
      exact List.nodup_nil
    · rw [ht]
      exact List.nodup_nil
    · rw [ht]
      intro _ read hread
      cases hread
  · rintro s a _ - hI hu ⟨hen, rfl⟩
    exact hI.step hen hu

/-- In every run in which no start takes a read ID that still waits for its quorum: a started
request is in the quorum map, in the queue or finished, once in all. A read is released only at
an index up to the applied index, under which it was in the queue or is confirmed in that
step, and comes into the queue only when it is confirmed. After `notifyApplied` only reads beyond
the applied index wait, and this stays so until the applied index is updated. -/
theorem tracker_loses_no_read (h : system.Reach Unused s) :
    (∀ request ∈ s.started,
      (s.tracker.quorum.map Prod.snd).count request +
        (s.tracker.apply.map PendingRead.request).count request +
        (s.tracker.finished.map Prod.fst).count request = 1) ∧
    (∀ a s', system.step s a s' →
      (∀ read ∈ s'.tracker.apply, read ∈ s.tracker.apply ∨
        s.confirmed a read.request read.index) ∧
      ∃ added, s'.tracker.finished = s.tracker.finished ++ added ∧
        ∀ request i, (request, ReadResult.ok i) ∈ added → i ≤ s.appliedIndex ∧
          (⟨i, request⟩ ∈ s.tracker.apply ∨ s.confirmed a request i)) ∧
    (∀ s', system.step s .notifyApplied s' →
      ∀ read ∈ s'.tracker.apply, s.appliedIndex < read.index) ∧
    (s.notified = true → ∀ read ∈ s.tracker.apply, s.appliedIndex < read.index) := by
  have hI := accounted_of_reach h
  refine ⟨?_, ?_, ?_, hI.waiting⟩
  · intro request hr
    have hcount := (List.perm_iff_count.mp hI.places) request
    rw [List.count_eq_one_of_mem hI.started hr] at hcount
    simp only [ReadTracker.places, List.count_append] at hcount
    omega
  · rintro a _ ⟨-, rfl⟩
    refine ⟨fun read hread => ?_, (s.moves a).finished⟩
    exact ((s.moves a).queue read hread).imp_right And.left
  · rintro _ ⟨-, rfl⟩ read hread
    exact ReadTracker.waiting_notifyApplied hread

instance (s : Tracking) (a : Action) : Decidable (s.Enabled a) := by
  cases a <;> unfold Enabled <;> infer_instance

instance (s : Tracking) (a : Action) : Decidable (s.Unused a) := by
  cases a <;> unfold Unused <;> infer_instance

theorem reach_act {G : Tracking → Action → Prop} (h : system.Reach G s) (hg : G s a)
    (hen : s.Enabled a) : system.Reach G (s.act a) := .step h hg ⟨hen, rfl⟩

/-- A read that is confirmed ahead of the apply worker and released when it has caught up. -/
theorem tracker_loses_no_read_one :
    ∃ s : Tracking, system.Reach Unused s ∧ s.tracker.finished = [(7, .ok 3)] ∧
      ∀ read ∈ s.tracker.apply, s.appliedIndex < read.index := by
  obtain ⟨s, hr, hfinished, hnone⟩ := TransitionSystem.exists_reach (S := system) (G := Unused)
    (E := Enabled) (s := {}) (fun _ _ _ he ha => ⟨he, (Option.some.inj ha).symm⟩) ⟨rfl, rfl⟩
    (fun s => s.tracker.finished = [(7, .ok 3)] ∧ s.notified = true)
    [.start 7, .handleStates [⟨1, 3⟩], .setAppliedIndex 3, .notifyApplied] (by decide +kernel)
  exact ⟨s, hr, hfinished, (tracker_loses_no_read hr).2.2.2 hnone⟩

/-! ### Read IDs that come back -/

/-- One read waits for its quorum while `n` others are started and rejected. -/
theorem reach_while_waiting {n : ℕ} (hn : n + 1 < 2 ^ 64) :
    ∃ s : Tracking, system.Reach (fun _ _ => True) s ∧ s.tracker.nextID = n + 1 ∧
      s.tracker.quorum = [(1, 0)] ∧ s.tracker.apply = [] ∧ 0 ∈ s.started ∧
      (∀ request ∈ s.started, request ≤ n) ∧ 0 ∉ s.tracker.finished.map Prod.fst := by
  induction n with
  | zero =>
    refine ⟨act {} (.start 0), reach_act (.init ⟨rfl, rfl⟩) trivial List.not_mem_nil, ?_⟩
    decide
  | succ n ih =>
    obtain ⟨s, hr, hid, hq, ha, hmem, hle, hfin⟩ := ih (by omega)
    have hnew : n + 1 ∉ s.started := fun hm => absurd (hle _ hm) (by omega)
    have hsucc : ReadTracker.successor s.tracker.nextID = n + 2 := by
      unfold ReadTracker.successor
      rw [hid, Nat.mod_eq_of_lt hn, if_neg (by omega)]
    have hr₁ : system.Reach (fun _ _ => True) (s.act (.start (n + 1))) :=
      reach_act hr trivial hnew
    have hr₂ : system.Reach (fun _ _ => True) ((s.act (.start (n + 1))).act (.reject (n + 2))) :=
      reach_act hr₁ trivial trivial
    have hstart : (s.act (.start (n + 1))).tracker =
        ⟨n + 2, [(1, 0), (n + 2, n + 1)], [], s.tracker.finished⟩ := by
      simp [act, ReadTracker.start_eq, hsucc, hq, Assoc.set, ha]
    have htracker : ((s.act (.start (n + 1))).act (.reject (n + 2))).tracker =
        ⟨n + 2, [(1, 0)], [], s.tracker.finished ++ [(n + 1, .notLeader)]⟩ := by
      have hreject : ((s.act (.start (n + 1))).act (.reject (n + 2))).tracker =
        (s.act (.start (n + 1))).tracker.reject (n + 2) .notLeader := rfl
      rw [hreject, hstart]
      simp [ReadTracker.reject, Assoc.get, Assoc.erase, ReadTracker.finish]
    refine ⟨_, hr₂, ?_, ?_, ?_, ?_, ?_, ?_⟩
    · rw [htracker]
    · rw [htracker]
    · rw [htracker]
    · exact List.mem_cons_of_mem _ hmem
    · intro request hm
      rcases List.mem_cons.mp hm with rfl | hm
      · exact le_rfl
      · exact (hle request hm).trans (Nat.le_succ n)
    · rw [htracker]
      simpa using hfin

/-- The read IDs wrap around while the first read still waits for its quorum: the next start takes
its place, and it is nowhere. -/
theorem read_lost_when_ids_wrap :
    ∃ s : Tracking, system.Reach (fun _ _ => True) s ∧ 0 ∈ s.started ∧
      (s.tracker.quorum.map Prod.snd).count 0 +
        (s.tracker.apply.map PendingRead.request).count 0 +
        (s.tracker.finished.map Prod.fst).count 0 = 0 := by
  obtain ⟨s, hr, hid, hq, ha, hmem, hle, hfin⟩ :=
    reach_while_waiting (n := 2 ^ 64 - 2) (by norm_num)
  have hnew : 2 ^ 64 - 1 ∉ s.started := fun hm => absurd (hle _ hm) (by norm_num)
  have hsucc : ReadTracker.successor s.tracker.nextID = 1 := by
    unfold ReadTracker.successor
    rw [hid]
    norm_num
  refine ⟨s.act (.start (2 ^ 64 - 1)), reach_act hr trivial hnew, List.mem_cons_of_mem _ hmem, ?_⟩
  have hquorum : (s.act (.start (2 ^ 64 - 1))).tracker.quorum = [(1, 2 ^ 64 - 1)] := by
    simp [act, ReadTracker.start_eq, hsucc, hq, Assoc.set]
  have happly : (s.act (.start (2 ^ 64 - 1))).tracker.apply = [] := ha
  have hfinished : (s.act (.start (2 ^ 64 - 1))).tracker.finished = s.tracker.finished := rfl
  rw [hquorum, happly, hfinished, List.count_eq_zero_of_not_mem hfin]
  simp

end Tracking

end Mizu
